import WireFormat.Decoder

/-! Messages in frames: a 32-bit body length, then that many bytes. A frame only knows
where its body begins and ends; fields are read from the whole input, and a read that
reaches past the end of the body is refused afterwards. -/
namespace WireFormat

/-- Sums of positions and lengths stop at the largest index. -/
def saturatingAdd (a b : Nat) : Nat := min (a + b) maxIndex

namespace Decoder

/-- Refuses a message length: the event is logged and the position is the one before it. -/
def rejectLength (start : Nat) (e : DecodeError) : Decoder Nat :=
  ⟨fun _ _ => ⟨.error e, start, [.lengthRejected e]⟩⟩

/-- The length in front of a message body, which has to be there in full. -/
def messageLength : Decoder Nat := do
  let start ← position
  let length := (← word32).toNat
  let body ← position
  let input ← input
  if input.limits.messageLength < length then
    rejectLength start (.bodyTooLong length input.limits.messageLength)
  else if input.remaining body < length then
    rejectLength start (.bodyPastEnd length (input.remaining body) body)
  else return length

end Decoder

/-- A message body by the positions of its first byte and of the byte after its last. -/
structure Frame where
  start : Nat
  stop : Nat
  deriving DecidableEq, Repr

namespace Frame

variable {α β : Type}

def length (f : Frame) : Nat := f.stop - f.start

def consumed (f : Frame) (position : Nat) : Nat := position - f.start

def remaining (f : Frame) (position : Nat) : Nat := f.stop - position

def exhausted (f : Frame) (position : Nat) : Bool := f.stop ≤ position

/-- Fails when the position lies past the end of the body. -/
def checkBounds (f : Frame) : Decoder Unit where
  run _ position :=
    if f.stop < position then
      let e := .bodyOverrun f.length (f.consumed position) position
      ⟨.error e, position, [.fieldOverrun e]⟩
    else ⟨.ok (), position, []⟩

/-- The position that a failed read would have needed, and the one where it stood. -/
def reach : DecodeError → Option (Nat × Nat)
  | .endOfInput requested _ position => some (saturatingAdd position requested, position)
  | .bodyPastEnd length _ position => some (saturatingAdd position length, position)
  | _ => none

/-- The overrun that an error inside the body amounts to. The body ends within the input,
so a read that ran out of input has left the body before. -/
def overrun? (f : Frame) (e : DecodeError) : Option DecodeError :=
  match reach e with
  | some (target, position) =>
      if target ≤ f.stop then none
      else some (.bodyOverrun f.length (target - f.start) position)
  | none => none

/-- The outcome of a read inside the body, as the frame reports it. -/
def settle (f : Frame) (s : Step α) : Step α :=
  match s.result with
  | .ok _ => s
  | .error e =>
      match f.overrun? e with
      | none => s
      | some e' => ⟨.error e', s.position, s.events ++ [.fieldOverrun e']⟩

def enter (f : Frame) : Decoder Bool := do
  f.checkBounds
  if f.exhausted (← Decoder.position) then
    Decoder.log (.fieldAbsent f.length)
    return false
  else return true

/-- The outcome of a read inside the body, which must not have left the body. -/
def leave (f : Frame) (input : Input) (s : Step α) : Step α :=
  (f.settle s).andThen fun a position =>
    (f.checkBounds.run input position).andThen fun _ position => ⟨.ok a, position, []⟩

def reading (f : Frame) (d : Decoder α) : Decoder α :=
  ⟨fun input position => f.leave input (d.run input position)⟩

/-- The next field, or nothing when the body has no bytes left. -/
def field (f : Frame) (d : Decoder α) : Decoder (Option α) := do
  if ← f.enter then return some (← f.reading d) else return none

def fieldOrDefault (f : Frame) (default : α) (d : Decoder α) : Decoder α := do
  return (← f.field d).getD default

/-- The index before the next field of an indexed body, or nothing at the terminating zero
and at the end of the body. -/
def nextIndex (f : Frame) : Decoder (Option UInt8) := do
  match ← f.field Decoder.byte with
  | some 0 | none => return none
  | some index => return some index

/-- Leaves the body at its end, whatever of it was not read. -/
def finish (f : Frame) : Decoder Unit := do
  f.checkBounds
  let unread := f.remaining (← Decoder.position)
  if 0 < unread then Decoder.log (.trailingSkipped unread f.length)
  Decoder.seek f.stop

/-- The outcome of reading the body as a whole, and the way to its end. -/
def close (f : Frame) (input : Input) (s : Step α) : Step α :=
  (f.settle s).andThen fun a position =>
    (f.finish.run input position).andThen fun _ position => ⟨.ok a, position, []⟩

/-- A walk over indexed fields: what was read, and how the walk ended. -/
structure Walk (α : Type) where
  read : List α
  ending : Step Unit

def Walk.cons (a : Step α) (rest : Nat → Walk α) : Walk α :=
  match a.result with
  | .error e => ⟨[], ⟨.error e, a.position, a.events⟩⟩
  | .ok v =>
      let w := rest a.position
      ⟨v :: w.read, a.andThen fun _ _ => w.ending⟩

def Walk.after (s : Step β) (next : β → Nat → Walk α) : Walk α :=
  match s.result with
  | .error e => ⟨[], ⟨.error e, s.position, s.events⟩⟩
  | .ok b =>
      let w := next b s.position
      ⟨w.read, s.andThen fun _ _ => w.ending⟩

def Walk.stop (position : Nat) : Walk α := ⟨[], ⟨.ok (), position, []⟩⟩

/-- Reads an index and its field until the indices end or one is not known. -/
def walkUpTo (f : Frame) (known : UInt8 → Option (Decoder α)) (input : Input) :
    Nat → Nat → Walk α
  | 0, position => .stop position
  | fuel + 1, position =>
      .after (f.nextIndex.run input position) fun index position =>
        match index.bind known with
        | none => .stop position
        | some d => .cons (d.run input position) (walkUpTo f known input fuel)

/-- Walks over all indexed fields. Every index takes a byte of the body, so one round more
than there are bytes left is enough. -/
def walk (f : Frame) (known : UInt8 → Option (Decoder α)) (input : Input) (position : Nat) :
    Walk α :=
  f.walkUpTo known input (f.remaining position + 1) position

/-- The values of a walk that ended well. -/
def indexedFields (f : Frame) (known : UInt8 → Option (Decoder α)) : Decoder (List α) where
  run input position :=
    let w := f.walk known input position
    w.ending.andThen fun _ position => ⟨.ok w.read, position, []⟩

end Frame

namespace Decoder

variable {α : Type}

def openFrame : Decoder Frame := do
  let length ← messageLength
  let start ← position
  return ⟨start, start + length⟩

/-- The next message: a read of its body, then its unread rest. -/
def message (body : Frame → Decoder α) : Decoder α := do
  let f ← openFrame
  ⟨fun input position => f.close input ((body f).run input position)⟩

end Decoder
end WireFormat
