import WireFormat.Program.Run
import WireFormat.Proofs.Truncation

/-! Reading with every index checked. A guarded read computes positions, lengths and spans as a
machine does, one operation at a time, and has no outcome at all where a difference is negative, a
sum is no index, a span leaves the input, or a reader stands where it must not. -/
namespace WireFormat

/-- Where a reader may stand: within the input and behind the beginning of every open frame, each of
which lies within the input. -/
def Sound (input : Input) (frames : List Frame) (p : Nat) : Prop :=
  p ≤ input.bytes.length ∧ ∀ f ∈ frames, f.start ≤ p ∧ f.Within input

instance (f : Frame) (input : Input) : Decidable (f.Within input) := by
  unfold Frame.Within
  infer_instance

instance (input : Input) (frames : List Frame) (p : Nat) : Decidable (Sound input frames p) := by
  unfold Sound
  infer_instance

/-- The sum of two indices, unless it is none. -/
def checkedAdd (a b : Nat) : Option Nat := if a + b ≤ maxIndex then some (a + b) else none

/-- The difference of two indices, unless it is none. -/
def checkedSub (a b : Nat) : Option Nat := if b ≤ a then some (a - b) else none

/-- A read among open frames, the innermost first. Where it has no outcome, it is at fault. -/
structure Guarded (α : Type) where
  run : Input → List Frame → Nat → Option (Step α)

namespace Guarded

variable {α β : Type}

/-- A read without arithmetic, which cannot be at fault. -/
def lift (d : Decoder α) : Guarded α := ⟨fun input _ p => some (d.run input p)⟩

protected def bind (g : Guarded α) (next : α → Guarded β) : Guarded β where
  run input frames p :=
    (g.run input frames p).bind fun s =>
      match s.result with
      | .error e => some ⟨.error e, s.position, s.events⟩
      | .ok a =>
          ((next a).run input frames s.position).map fun t =>
            ⟨t.result, t.position, s.events ++ t.events⟩

instance : Monad Guarded where
  pure a := lift (pure a)
  bind := Guarded.bind

def fail (e : DecodeError) : Guarded α := lift (.fail e)
def log (event : Event) : Guarded Unit := lift (.log event)
def input : Guarded Input := lift .input
def position : Guarded Nat := lift .position

/-- A computed index. -/
def index (n : Option Nat) : Guarded Nat := ⟨fun _ _ p => n.map fun n => ⟨.ok n, p, []⟩⟩

/-- The bytes from one position up to another, which have to follow each other within the input. -/
def span (start stop : Nat) : Guarded (List UInt8) where
  run input _ p :=
    if start ≤ stop ∧ stop ≤ input.bytes.length then
      some ⟨.ok ((input.bytes.drop start).take (stop - start)), p, []⟩
    else none

/-- Goes to a position, which has to lie within the input. -/
def seek (target : Nat) : Guarded Unit where
  run input _ _ := if target ≤ input.bytes.length then some ⟨.ok (), target, []⟩ else none

def remaining : Guarded Nat := do index (checkedSub (← input).bytes.length (← position))

/-- Moves the position, and looks at nothing but the sum. -/
def advance (count : Nat) : Guarded Unit := do
  let target ← index (checkedAdd (← position) count)
  lift (.seek target)

/-- Whatever can be asked where the reader stands: how much is left of the input, how long each open
frame is, and how much of it is consumed. -/
def inspect : Guarded Unit where
  run input frames p := do
    let _ ← checkedSub input.bytes.length p
    let _ ← frames.mapM fun f => do
      let _ ← checkedSub f.stop f.start
      checkedSub p f.start
    return ⟨.ok (), p, []⟩

/-- An operation of a reader or of a frame. It starts and leaves off where a reader may stand, and
not before where it started. -/
def operation (g : Guarded α) : Guarded α where
  run input frames p :=
    if Sound input frames p then
      (g.run input frames p).bind fun s =>
        if p ≤ s.position ∧ Sound input frames s.position then
          (inspect.run input frames s.position).map fun _ => s
        else none
    else none

/-- A reader that stands before an open frame is at fault. -/
example : (operation (pure ())).run ⟨[0, 0, 0], .unbounded⟩ [⟨2, 3⟩] 1 = none := rfl

/-- Reads on among one frame more. -/
def inside (f : Frame) (g : Guarded α) : Guarded α :=
  ⟨fun input frames p => g.run input (f :: frames) p⟩

def restoring (g : Guarded α) : Guarded α where
  run input frames start :=
    (g.run input frames start).map fun s =>
      match s.result with
      | .error e => ⟨.error e, start, s.events⟩
      | .ok a => ⟨.ok a, s.position, s.events⟩

def times (g : Guarded α) : Nat → Guarded (List α)
  | 0 => pure []
  | n + 1 => do
      let a ← g
      let rest ← times g n
      return a :: rest

def tooShort (requested : Nat) : Guarded α := do
  let available ← remaining
  fail (.endOfInput requested available (← position))

def slice (count : Nat) : Guarded (List UInt8) := do
  if (← remaining) < count then tooShort count
  else
    let start ← position
    advance count
    span start (← position)

def skip (count : Nat) : Guarded Unit := operation do
  if (← remaining) < count then tooShort count else advance count

/-- The bytes that are not read yet. -/
def rest : Guarded (List UInt8) := do span (← position) (← input).bytes.length

def block (count : Nat) : Guarded (Vector UInt8 count) := do
  let bytes := (← rest).take count
  if h : bytes.toArray.size = count then
    advance count
    return ⟨bytes.toArray, h⟩
  else tooShort count

def byte : Guarded UInt8 := operation do return (← block 1).get 0
def word16 : Guarded UInt16 := operation do return IntegerCodec.selected.get16 (← block 2)
def word32 : Guarded UInt32 := operation do return IntegerCodec.selected.get32 (← block 4)
def word64 : Guarded UInt64 := operation do return IntegerCodec.selected.get64 (← block 8)

def arrayLength : Guarded Nat := operation <| restoring do
  let length := (← word32).toNat
  let limit := (← input).limits.arrayLength
  if length ≤ limit then return length else fail (.arrayTooLong length limit)

def byteArray : Guarded (List UInt8) := operation <| restoring do slice (← arrayLength)

def text : Guarded String := operation <| restoring do
  let length ← arrayLength
  let start ← position
  let payload ← slice length
  match String.fromUTF8? ⟨payload.toArray⟩ with
  | some s => return s
  | none => fail (.invalidUtf8 start)

def rejectLength (start : Nat) (e : DecodeError) : Guarded Nat := do
  log (.lengthRejected e)
  seek start
  fail e

def messageLength : Guarded Nat := operation do
  let start ← position
  let length := (← word32).toNat
  let body ← position
  let input ← input
  if input.limits.messageLength < length then
    rejectLength start (.bodyTooLong length input.limits.messageLength)
  else
    let available ← remaining
    if available < length then rejectLength start (.bodyPastEnd length available body)
    else return length

def openFrame : Guarded Frame := operation do
  let length ← messageLength
  let start ← position
  return ⟨start, ← index (checkedAdd start length)⟩

end Guarded

namespace Frame

variable {α β : Type} (f : Frame)

def guardedLength : Guarded Nat := .index (checkedSub f.stop f.start)

def guardedConsumed : Guarded Nat := do .index (checkedSub (← .position) f.start)

def guardedOverrun (consumed position : Nat) : Guarded DecodeError := do
  let e := .bodyOverrun (← f.guardedLength) consumed position
  .log (.fieldOverrun e)
  return e

def guardedBounds : Guarded Unit := do
  let position ← .position
  if f.stop < position then
    .fail (← f.guardedOverrun (← f.guardedConsumed) position)

/-- The difference stops at zero here, so that nothing is computed that could be at fault but the
length of the frame. -/
def guardedPassed (e : DecodeError) : Guarded DecodeError :=
  match reach e with
  | none => pure e
  | some (target, position) =>
      if target ≤ f.stop then pure e else f.guardedOverrun (target - f.start) position

/-- A read inside the body; its error is reported as the frame has it. -/
def guardedSettle (g : Guarded α) : Guarded α where
  run input frames p :=
    (g.run input frames p).bind fun s =>
      match s.result with
      | .ok _ => some s
      | .error e =>
          ((f.guardedPassed e).run input frames s.position).map fun t =>
            ⟨t.result.bind .error, s.position, s.events ++ t.events⟩

def guardedEnter : Guarded Bool := do
  f.guardedBounds
  if f.exhausted (← .position) then
    .log (.fieldAbsent (← f.guardedLength))
    return false
  else return true

def guardedReading (g : Guarded α) : Guarded α := do
  let a ← f.guardedSettle g
  f.guardedBounds
  return a

def guardedField (g : Guarded α) : Guarded (Option α) := .operation do
  if ← f.guardedEnter then return some (← f.guardedReading g) else return none

def guardedFieldOrDefault (default : α) (g : Guarded α) : Guarded α := do
  return (← f.guardedField g).getD default

def guardedNextIndex : Guarded (Option UInt8) := .operation do
  match ← f.guardedField Guarded.byte with
  | some 0 | none => return none
  | some index => return some index

def guardedFinish : Guarded Unit := .operation do
  f.guardedBounds
  let unread := f.remaining (← .position)
  if 0 < unread then .log (.trailingSkipped unread (← f.guardedLength))
  .seek f.stop

def guardedRounds (known : UInt8 → Option (Guarded α)) : Nat → Guarded (List α)
  | 0 => pure []
  | fuel + 1 => do
      match (← f.guardedNextIndex).bind known with
      | none => return []
      | some read =>
          let a ← read
          return a :: (← guardedRounds known fuel)

def guardedFields (known : UInt8 → Option (Guarded α)) : Guarded (List α) := do
  f.guardedRounds known (f.remaining (← .position) + 1)

end Frame

def Guarded.message {α : Type} (body : Frame → Guarded α) : Guarded α := operation do
  let f ← openFrame
  inside f do
    let a ← f.guardedSettle (body f)
    f.guardedFinish
    return a

def Scalar.guarded : (s : Scalar) → Guarded s.Val
  | bool => do return (← Guarded.byte) != 0
  | byte => Guarded.byte
  | uint16 => Guarded.word16
  | int16 => do return (← Guarded.word16).toInt16
  | uint32 => Guarded.word32
  | int32 => do return (← Guarded.word32).toInt32
  | uint64 => Guarded.word64
  | int64 => do return (← Guarded.word64).toInt64
  | float32 => do return ⟨← Guarded.word32⟩
  | float64 => do return ⟨← Guarded.word64⟩
  | guid => .operation do return Guid.ofWire (← Guarded.block 16)
  | date => do return ⟨(← Guarded.word64).toInt64⟩

namespace Schema

/-- Room is set aside for no more items than bytes are left. -/
def guardedItems : (item : Schema) → Guarded item.Val → Nat → Guarded (List item.Val)
  | scalar .byte, _, count => Guarded.slice count
  | _, g, count => do
      let _ ← Guarded.remaining
      g.times count

def guardedEntry {α β : Type} (key : Guarded α) (value : Guarded β) : Guarded (α × β) := do
  let k ← key
  let v ← value
  return (k, v)

mutual

def guarded : (s : Schema) → Guarded s.Val
  | scalar s => s.guarded
  | text => Guarded.text
  | bytes => Guarded.byteArray
  | array item => do guardedItems item (guarded item) (← Guarded.arrayLength)
  | map .sorted key value => do
      let count ← Guarded.arrayLength
      return .ofList (← (guardedEntry (guarded key) (guarded value)).times count)
  | map .hashed key value => do
      let count ← Guarded.arrayLength
      let _ ← Guarded.remaining
      return .ofList (← (guardedEntry (guarded key) (guarded value)).times count)
  | record first rest => guardedEntry (guarded first) (guardedAll rest)
  | message fields => do
      return orDefaults fields (← Guarded.message (guardedInOrder fields))
  | indexed fields => do
      return store fields (← Guarded.message fun f =>
        f.guardedFields fun index => (guardedIndexed fields (index.toNat - 1)).map (· f))

def guardedAll : (fields : List Schema) → Guarded (Vals fields)
  | [] => pure ()
  | s :: rest => guardedEntry (guarded s) (guardedAll rest)

def guardedInOrder : (fields : List Schema) → Frame → Guarded (Options fields)
  | [], _ => pure ()
  | s :: rest, f => guardedEntry (f.guardedField (guarded s)) (guardedInOrder rest f)

def guardedIndexed : (fields : List Schema) → Nat →
    Option (Frame → Guarded (Options fields → Options fields))
  | [], _ => none
  | s :: _, 0 => some fun f => do
      let o ← f.guardedField (guarded s)
      return fun stored => (o, stored.2)
  | _ :: rest, n + 1 => (guardedIndexed rest n).map fun read f => do
      let update ← read f
      return fun stored => (stored.1, update stored.2)

end

end Schema

def guardedTable (f : Frame) (table : List (UInt8 × Schema)) (checked : Bool) (index : UInt8) :
    Option (Guarded IndexedField) :=
  (table.lookup index).map fun s =>
    if checked then do return ⟨index, s, ← f.guardedField s.guarded⟩
    else do return ⟨index, s, some (← s.guarded)⟩

namespace Guarded

variable {α : Type}

def ignore (g : Guarded α) : Guarded Unit := do let _ ← g

/-- Reads on a copy of the reader and comes back. -/
def fork (g : Guarded α) : Guarded Unit where
  run input frames p := (g.run input frames p).map fun s =>
    ⟨s.result.map fun _ => (), p, s.events⟩

/-- Passes over an error. -/
def attempt (g : Guarded Unit) : Guarded Unit where
  run input frames p := (g.run input frames p).map fun s => ⟨.ok (), s.position, s.events⟩

end Guarded

mutual

def ReaderStep.guarded : ReaderStep → Guarded Unit
  | .decode s => s.guarded.ignore
  | .arrayLength => Guarded.arrayLength.ignore
  | .messageLength => Guarded.messageLength.ignore
  | .skip count => (Guarded.skip count).ignore
  | .peek => (Guarded.operation (.lift .peek)).ignore
  | .atEnd => (Guarded.operation (pure ())).ignore
  | .remainingBytes => Guarded.rest.operation.ignore
  | .limits => (Guarded.operation (pure ())).ignore
  | .fail e => .fail e
  | .fork body => .operation (.fork (ReaderStep.guardedBody body))
  | .message body => .message (FrameStep.guardedBody body)
  | .openFrame body finish => .operation do
      let f ← Guarded.openFrame
      .inside f do
        FrameStep.guardedBody body f
        if finish then f.guardedFinish
  | .attempt step => .attempt step.guarded

def ReaderStep.guardedBody : List ReaderStep → Guarded Unit
  | [] => pure ()
  | step :: rest => do
      step.guarded
      ReaderStep.guardedBody rest

def FrameStep.guarded : FrameStep → Frame → Guarded Unit
  | .length, f => f.guardedLength.operation.ignore
  | .isEmpty, _ => (Guarded.operation (pure ())).ignore
  | .exhausted, _ => (Guarded.operation (pure ())).ignore
  | .field s, f => (f.guardedField s.guarded).ignore
  | .fieldOrDefault s, f => (f.guardedFieldOrDefault s.default s.guarded).ignore
  | .nextIndex, f => f.guardedNextIndex.ignore
  | .fieldBy body, f => (f.guardedField (ReaderStep.guardedBody body)).ignore
  | .reader step, _ => step.guarded
  | .walk table checked, f => (f.guardedFields (guardedTable f table checked)).ignore
  | .attempt step, f => .attempt (step.guarded f)

def FrameStep.guardedBody : List FrameStep → Frame → Guarded Unit
  | [], _ => pure ()
  | step :: rest, f => do
      step.guarded f
      FrameStep.guardedBody rest f

end

/-- Every step, each from where the one before it left off, passing over errors. -/
def ReaderStep.guardedEach : List ReaderStep → Guarded Unit
  | [] => pure ()
  | step :: rest => do
      .attempt step.guarded
      ReaderStep.guardedEach rest

end WireFormat
