import WireFormat.Program.Basic
import WireFormat.Schema.Decode

/-! Running reader programs. A body stops at its first error, which is then the error of the
step around it; a run at the top goes on after every error. -/
namespace WireFormat

/-- The outcome of steps and their reports. -/
structure Run where
  ending : Step Unit
  reports : List Report

namespace Step

variable {α : Type}

def forget (s : Step α) : Step Unit := s.andThen fun _ position => ⟨.ok (), position, []⟩

def answered (s : Step α) (answer : α → Answer) : Step Answer :=
  s.andThen fun a position => ⟨.ok (answer a), position, []⟩

@[simp] theorem forget_unit (s : Step Unit) : s.forget = s := by
  obtain ⟨_ | _, _, _⟩ := s <;> simp [forget]

@[simp] theorem forget_answered (s : Step α) (answer : α → Answer) :
    (s.answered answer).forget = s.forget := by
  obtain ⟨_ | _, _, _⟩ := s <;> simp [answered, forget]

end Step

def Place.ofReader (input : Input) (position : Nat) : Place :=
  .reader position (input.remaining position)

namespace Run

def plain (place : Nat → Place) (s : Step Answer) : Run :=
  ⟨s.forget, [.plain s.result (place s.position)]⟩

def nested (place : Nat → Place) (s : Step Answer) (steps : List Report) : Run :=
  ⟨s.forget, [.nested s.result (place s.position) steps]⟩

/-- A run whose error is passed over. -/
def attempted (r : Run) : Run := ⟨⟨.ok (), r.ending.position, r.ending.events⟩, r.reports⟩

/-- One run and then, unless it failed, another. -/
def andThen (r : Run) (next : Nat → Run) : Run :=
  match r.ending.result with
  | .error _ => r
  | .ok _ =>
      let t := next r.ending.position
      ⟨r.ending.andThen fun _ _ => t.ending, r.reports ++ t.reports⟩

end Run

def tableFields (f : Frame) (table : List (UInt8 × Schema)) (checked : Bool) (index : UInt8) :
    Option (Decoder IndexedField) :=
  (table.lookup index).map fun s =>
    if checked then do return ⟨index, s, ← f.field s.decode⟩
    else do return ⟨index, s, some (← s.decode)⟩

def walkRun (f : Frame) (table : List (UInt8 × Schema)) (checked : Bool) (input : Input)
    (position : Nat) : Run :=
  let walk := f.walk (tableFields f table checked) input position
  let answer := walk.ending.answered fun _ => .done
  ⟨walk.ending, [.walk answer.result (Place.frame f answer.position) walk.read]⟩

mutual

def ReaderStep.run : ReaderStep → Input → Nat → Run
  | .decode s, input, position =>
      .plain (.ofReader input) ((s.decode.run input position).answered (.value s))
  | .arrayLength, input, position =>
      .plain (.ofReader input) ((Decoder.arrayLength.run input position).answered .number)
  | .messageLength, input, position =>
      .plain (.ofReader input) ((Decoder.messageLength.run input position).answered .number)
  | .skip count, input, position =>
      .plain (.ofReader input) (((Decoder.skip count).run input position).answered fun _ => .done)
  | .peek, input, position =>
      .plain (.ofReader input) ((Decoder.peek.run input position).answered .byte)
  | .atEnd, input, position =>
      .plain (.ofReader input) ⟨.ok (.flag (input.bytes.length ≤ position)), position, []⟩
  | .remainingBytes, input, position =>
      .plain (.ofReader input) ⟨.ok (.bytes (input.bytes.drop position)), position, []⟩
  | .limits, input, position =>
      .plain (.ofReader input) ⟨.ok (.limits input.limits), position, []⟩
  | .fail e, input, position => .plain (.ofReader input) ⟨.error e, position, []⟩
  | .fork body, input, position =>
      let inner := ReaderStep.runBody body input position
      let answer := inner.ending.answered fun _ => .number inner.ending.position
      .nested (.ofReader input) ⟨answer.result, position, answer.events⟩ inner.reports
  | .message body, input, position =>
      let opened := Decoder.openFrame.run input position
      match opened.result with
      | .error e => .nested (.ofReader input) ⟨.error e, opened.position, opened.events⟩ []
      | .ok f =>
          let inner := FrameStep.runBody body f input opened.position
          let ending := opened.andThen fun f _ => f.close input inner.ending
          .nested (.ofReader input) (ending.answered fun _ => .done) inner.reports
  | .openFrame body finish, input, position =>
      let opened := Decoder.openFrame.run input position
      match opened.result with
      | .error e => .nested (.ofReader input) ⟨.error e, opened.position, opened.events⟩ []
      | .ok f =>
          let inner := FrameStep.runBody body f input opened.position
          let ending := opened.andThen fun f _ => inner.ending.andThen fun _ position =>
            if finish then f.finish.run input position else ⟨.ok (), position, []⟩
          .nested (.ofReader input) (ending.answered fun _ => .done) inner.reports
  | .attempt step, input, position => (step.run input position).attempted

/-- Runs steps up to the first error. -/
def ReaderStep.runBody : List ReaderStep → Input → Nat → Run
  | [], _, position => ⟨⟨.ok (), position, []⟩, []⟩
  | step :: rest, input, position =>
      (step.run input position).andThen (ReaderStep.runBody rest input)

def FrameStep.run : FrameStep → Frame → Input → Nat → Run
  | .length, f, _, position =>
      .plain (.frame f) ⟨.ok (.number f.length), position, []⟩
  | .isEmpty, f, _, position =>
      .plain (.frame f) ⟨.ok (.flag (f.stop == f.start)), position, []⟩
  | .exhausted, f, _, position =>
      .plain (.frame f) ⟨.ok (.flag (f.exhausted position)), position, []⟩
  | .field s, f, input, position =>
      .plain (.frame f) (((f.field s.decode).run input position).answered (.field s))
  | .fieldOrDefault s, f, input, position =>
      .plain (.frame f)
        (((f.fieldOrDefault s.default s.decode).run input position).answered (.value s))
  | .nextIndex, f, input, position =>
      .plain (.frame f) ((f.nextIndex.run input position).answered .byte)
  | .fieldBy body, f, input, position =>
      let entered := f.enter.run input position
      match entered.result with
      | .error e => .nested (.frame f) ⟨.error e, entered.position, entered.events⟩ []
      | .ok false => .nested (.frame f) (entered.answered .flag) []
      | .ok true =>
          let inner := ReaderStep.runBody body input entered.position
          let ending := entered.andThen fun _ _ => f.leave input inner.ending
          .nested (.frame f) (ending.answered fun _ => .flag true) inner.reports
  | .reader step, f, input, position =>
      let inner := step.run input position
      .nested (.frame f) (inner.ending.answered fun _ => .done) inner.reports
  | .walk table checked, f, input, position => walkRun f table checked input position
  | .attempt step, f, input, position => (step.run f input position).attempted

def FrameStep.runBody : List FrameStep → Frame → Input → Nat → Run
  | [], _, _, position => ⟨⟨.ok (), position, []⟩, []⟩
  | step :: rest, f, input, position =>
      (step.run f input position).andThen (FrameStep.runBody rest f input)

end

/-- Runs every step, each from where the one before it left off, and passes over errors. -/
def ReaderStep.runEach : List ReaderStep → Input → Nat → Run
  | [], _, position => ⟨⟨.ok (), position, []⟩, []⟩
  | step :: rest, input, position =>
      (step.run input position).attempted.andThen (ReaderStep.runEach rest input)

/-- A message step ends as the message does whose body is the program. -/
theorem ReaderStep.run_message_ending (body : List FrameStep) (input : Input) (position : Nat) :
    ((ReaderStep.message body).run input position).ending =
      (Decoder.message fun f => ⟨fun input position =>
        (FrameStep.runBody body f input position).ending⟩).run input position := by
  rw [ReaderStep.run, Decoder.message, Decoder.run_bind]
  obtain ⟨result, _, _⟩ := Decoder.openFrame.run input position
  cases result with
  | error _ => simp [Run.nested, Step.forget]
  | ok f => simp [Run.nested]

/-- A field step ends as the field does that the program reads. -/
theorem FrameStep.run_fieldBy_ending (body : List ReaderStep) (f : Frame) (input : Input)
    (position : Nat) :
    ((FrameStep.fieldBy body).run f input position).ending =
      ((f.field ⟨fun input position => (ReaderStep.runBody body input position).ending⟩).run
        input position).forget := by
  rw [FrameStep.run, Frame.field, Decoder.run_bind]
  obtain ⟨result, _, _⟩ := f.enter.run input position
  match result with
  | .error _ => simp [Run.nested, Step.forget]
  | .ok false => simp [Run.nested, Step.forget, Step.answered]
  | .ok true =>
    simp only [Run.nested, Step.forget_answered, Step.forget_unit, Step.andThen_ok,
      Decoder.run_bind, if_true, Frame.reading]
    generalize f.leave input _ = s
    obtain ⟨_ | _, _, _⟩ := s <;> simp [Step.forget]

end WireFormat
