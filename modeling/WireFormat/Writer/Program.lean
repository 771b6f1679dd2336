import WireFormat.Schema.Encode

/-! Programs for a writer, with placeholders that are filled in any order. A fill that no
longer finds its placeholder in the buffer is a fault and ends the program around it. -/
namespace WireFormat

inductive WriterStep
  | put (s : Schema) (v : s.Val)
  | count (n : Nat)
  | fieldIndex (index : UInt8)
  | endFields
  | clear
  /-- Sets a placeholder aside; placeholders are numbered in this order. -/
  | reserve
  | fill (number : Nat)
  | message (body : List WriterStep)

/-- The buffer and every placeholder that was ever set aside. -/
structure WriterState where
  writer : Writer
  placeholders : List Placeholder

/-- What a step left in the buffer, and what else it tells. -/
inductive WriterReport
  | done (bytes : List UInt8)
  | reserved (position : Nat) (bytes : List UInt8)
  | message (steps : List WriterReport) (bytes : List UInt8)

/-- The end of a run. A fault leaves no report, but the state in which it struck. -/
structure WriterRun (α : Type) where
  state : WriterState
  report : Option α

namespace WriterState

def written (st : WriterState) (w : Writer) : WriterRun WriterReport :=
  ⟨⟨w, st.placeholders⟩, some (.done w.bytes)⟩

/-- The buffer with a placeholder filled in, or a fault. -/
def filled (st : WriterState) (p : Placeholder) (report : List UInt8 → WriterReport) :
    WriterRun WriterReport :=
  match st.writer.fill? p with
  | some w => ⟨⟨w, st.placeholders⟩, some (report w.bytes)⟩
  | none => ⟨st, none⟩

end WriterState

mutual

def WriterStep.run : WriterStep → WriterState → WriterRun WriterReport
  | .put s v, st => st.written (s.put v st.writer)
  | .count n, st => st.written (st.writer.count n)
  | .fieldIndex index, st => st.written (st.writer.fieldIndex index)
  | .endFields, st => st.written st.writer.endFields
  | .clear, st => st.written .empty
  | .reserve, st =>
      let (p, w) := st.writer.reserve
      ⟨⟨w, st.placeholders ++ [p]⟩, some (.reserved p.position w.bytes)⟩
  | .fill number, st =>
      match st.placeholders[number]? with
      | some p => st.filled p .done
      | none => ⟨st, none⟩
  | .message body, st =>
      let (p, w) := st.writer.reserve
      let ran := WriterStep.runBody body ⟨w, st.placeholders⟩
      match ran.report with
      | some steps => ran.state.filled p (.message steps)
      | none => ⟨ran.state, none⟩

/-- Runs steps up to the first fault. -/
def WriterStep.runBody : List WriterStep → WriterState → WriterRun (List WriterReport)
  | [], st => ⟨st, some []⟩
  | step :: rest, st =>
      let ran := step.run st
      match ran.report with
      | none => ⟨ran.state, none⟩
      | some report =>
          let others := WriterStep.runBody rest ran.state
          ⟨others.state, others.report.map (report :: ·)⟩

end

/-- Runs every step, each in the state that the one before it left, fault or not. -/
def WriterStep.runEach : List WriterStep → WriterState → List (WriterRun WriterReport)
  | [], _ => []
  | step :: rest, st =>
      let ran := step.run st
      ran :: WriterStep.runEach rest ran.state

end WireFormat
