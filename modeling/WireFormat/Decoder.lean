import WireFormat.Event
import WireFormat.IntegerCodec
import WireFormat.Limits

/-! Reading from a byte string at a moving position. A read yields a result, the position
where it leaves off, and the events on the way; a failed read says where it leaves off
too. -/
namespace WireFormat

/-- What a reader reads, and the limits it reads within. -/
structure Input where
  bytes : List UInt8
  limits : ReadLimits

def Input.remaining (input : Input) (position : Nat) : Nat := input.bytes.length - position

structure Step (α : Type) where
  result : Except DecodeError α
  position : Nat
  events : List Event

namespace Step

variable {α β : Type}

/-- Goes on from a success; a failure stands. -/
def andThen (s : Step α) (next : α → Nat → Step β) : Step β :=
  match s.result with
  | .error e => ⟨.error e, s.position, s.events⟩
  | .ok a =>
      let t := next a s.position
      ⟨t.result, t.position, s.events ++ t.events⟩

@[simp] theorem andThen_ok (a : α) (position : Nat) (events : List Event)
    (next : α → Nat → Step β) :
    (Step.mk (.ok a) position events).andThen next =
      ⟨(next a position).result, (next a position).position,
        events ++ (next a position).events⟩ := rfl

@[simp] theorem andThen_error (e : DecodeError) (position : Nat) (events : List Event)
    (next : α → Nat → Step β) :
    (Step.mk (.error e) position events).andThen next = ⟨.error e, position, events⟩ := rfl

end Step

/-- A read: from an input and a position to an outcome. -/
structure Decoder (α : Type) where
  run : Input → Nat → Step α

namespace Decoder

variable {α β : Type}

protected def pure (a : α) : Decoder α := ⟨fun _ position => ⟨.ok a, position, []⟩⟩

protected def bind (d : Decoder α) (next : α → Decoder β) : Decoder β :=
  ⟨fun input position => (d.run input position).andThen fun a => (next a).run input⟩

instance : Monad Decoder where
  pure := Decoder.pure
  bind := Decoder.bind

@[simp] theorem run_pure (a : α) (input : Input) (position : Nat) :
    (pure a : Decoder α).run input position = ⟨.ok a, position, []⟩ := rfl

@[simp] theorem run_bind (d : Decoder α) (next : α → Decoder β) (input : Input)
    (position : Nat) :
    (d >>= next).run input position =
      (d.run input position).andThen fun a => (next a).run input := rfl

def fail (e : DecodeError) : Decoder α := ⟨fun _ position => ⟨.error e, position, []⟩⟩

def log (event : Event) : Decoder Unit := ⟨fun _ position => ⟨.ok (), position, [event]⟩⟩

def input : Decoder Input := ⟨fun input position => ⟨.ok input, position, []⟩⟩

def position : Decoder Nat := ⟨fun _ position => ⟨.ok position, position, []⟩⟩

def seek (target : Nat) : Decoder Unit := ⟨fun _ _ => ⟨.ok (), target, []⟩⟩

/-- Returns to the first position when the read fails. -/
def restoring (d : Decoder α) : Decoder α where
  run input start :=
    let s := d.run input start
    match s.result with
    | .error e => ⟨.error e, start, s.events⟩
    | .ok a => ⟨.ok a, s.position, s.events⟩

/-- A read as often as told, first to last. -/
def times (d : Decoder α) : Nat → Decoder (List α)
  | 0 => pure []
  | n + 1 => do
      let a ← d
      let rest ← times d n
      return a :: rest

/-- The next `count` bytes; if they are not all there the position stays. -/
def slice (count : Nat) : Decoder (List UInt8) where
  run input position :=
    if input.remaining position < count then
      ⟨.error (.endOfInput count (input.remaining position) position), position, []⟩
    else ⟨.ok ((input.bytes.drop position).take count), position + count, []⟩

def skip (count : Nat) : Decoder Unit := do
  let _ ← slice count

/-- The next `count` bytes as a block of known size. -/
def block (count : Nat) : Decoder (Vector UInt8 count) where
  run input position :=
    let bytes := (input.bytes.drop position).take count
    if h : bytes.toArray.size = count then ⟨.ok ⟨bytes.toArray, h⟩, position + count, []⟩
    else ⟨.error (.endOfInput count (input.remaining position) position), position, []⟩

def peek : Decoder (Option UInt8) :=
  ⟨fun input position => ⟨.ok input.bytes[position]?, position, []⟩⟩

def byte : Decoder UInt8 := do return (← block 1)[0]
def word16 : Decoder UInt16 := do return IntegerCodec.selected.get16 (← block 2)
def word32 : Decoder UInt32 := do return IntegerCodec.selected.get32 (← block 4)
def word64 : Decoder UInt64 := do return IntegerCodec.selected.get64 (← block 8)

/-- The count in front of a text, array or map. Whether the elements are there is not
looked at. -/
def arrayLength : Decoder Nat := restoring do
  let length := (← word32).toNat
  let limit := (← input).limits.arrayLength
  if length ≤ limit then return length else fail (.arrayTooLong length limit)

def byteArray : Decoder (List UInt8) := restoring do slice (← arrayLength)

def text : Decoder String := restoring do
  let length ← arrayLength
  let start ← position
  let payload ← slice length
  match String.fromUTF8? ⟨payload.toArray⟩ with
  | some s => return s
  | none => fail (.invalidUtf8 start)

/-- Reads from the front of bytes, with no limits; also gives the bytes that are left. -/
def readFrom (d : Decoder α) (bytes : List UInt8) : Except DecodeError (α × List UInt8) :=
  let s := d.run ⟨bytes, .unbounded⟩ 0
  s.result.map fun a => (a, bytes.drop s.position)

end Decoder
end WireFormat
