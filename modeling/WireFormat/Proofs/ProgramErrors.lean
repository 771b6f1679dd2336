import WireFormat.Program.Run
import WireFormat.Proofs.Genuine

/-! Programs are honest too: whatever a program does with a reader, its frames and its copies, an
error that tells of the end of the input comes from the input, unless the program makes one up. -/
namespace WireFormat

variable {α : Type} {input : Input} {e : DecodeError}

/-- The input has not ended, as far as the error tells. -/
def NotTruncation (e : DecodeError) : Prop := e.isTruncation = false

namespace Run

theorem plain_fails {place : Nat → Place} {s : Step Answer} :
    (plain place s).ending.Fails e ↔ s.Fails e := by
  simp [plain, Step.forget]

theorem nested_fails {place : Nat → Place} {s : Step Answer} {steps : List Report} :
    (nested place s steps).ending.Fails e ↔ s.Fails e := by
  simp [nested, Step.forget]

theorem answered_fails {s : Step α} {answer : α → Answer} :
    (s.answered answer).Fails e ↔ s.Fails e := by
  simp [Step.answered]

theorem andThen_fails {r : Run} {next : Nat → Run} (h : (r.andThen next).ending.Fails e) :
    r.ending.Fails e ∨ ∃ p, (next p).ending.Fails e := by
  obtain ⟨⟨e' | _, p, _⟩, _⟩ := r
  · exact .inl h
  · exact .inr ⟨p, h⟩

end Run

mutual

/-- No error of the step's own making tells of the end of the input, but for those that it goes
on after. -/
def ReaderStep.unforged : ReaderStep → Bool
  | .fail e => !e.isTruncation
  | .fork body => ReaderStep.unforgedBody body
  | .message body => FrameStep.unforgedBody body
  | .openFrame body _ => FrameStep.unforgedBody body
  | _ => true

def ReaderStep.unforgedBody : List ReaderStep → Bool
  | [] => true
  | step :: rest => step.unforged && ReaderStep.unforgedBody rest

def FrameStep.unforged : FrameStep → Bool
  | .fieldBy body => ReaderStep.unforgedBody body
  | .reader step => step.unforged
  | _ => true

def FrameStep.unforgedBody : List FrameStep → Bool
  | [] => true
  | step :: rest => step.unforged && FrameStep.unforgedBody rest

end

/-- The read that a step amounts to. -/
def ReaderStep.read (step : ReaderStep) : Decoder Unit :=
  ⟨fun input p => (step.run input p).ending⟩

def ReaderStep.readBody (body : List ReaderStep) : Decoder Unit :=
  ⟨fun input p => (ReaderStep.runBody body input p).ending⟩

/-- The read that a step amounts to in a frame. -/
def FrameStep.read (step : FrameStep) (f : Frame) : Decoder Unit :=
  ⟨fun input p => (step.run f input p).ending⟩

def FrameStep.readBody (body : List FrameStep) (f : Frame) : Decoder Unit :=
  ⟨fun input p => (FrameStep.runBody body f input p).ending⟩

theorem ReaderStep.run_openFrame_ending (body : List FrameStep) (finish : Bool) (input : Input)
    (p : Nat) :
    ((ReaderStep.openFrame body finish).run input p).ending =
      (do
        let f ← Decoder.openFrame
        FrameStep.readBody body f
        if finish then f.finish else pure () : Decoder Unit).run input p := by
  rw [ReaderStep.run, Decoder.run_bind]
  obtain ⟨result, _, _⟩ := Decoder.openFrame.run input p
  cases result with
  | error _ => simp [Run.nested, Step.forget]
  | ok f =>
    cases finish with
    | false =>
      simp only [Run.nested, Step.forget_answered, Step.forget_unit]
      rfl
    | true => simp [Run.nested, FrameStep.readBody]

section Steps

variable {other : DecodeError → Prop} {d : Decoder α} {place : Input → Nat → Place}
  {answer : Input → Nat → α → Answer}

/-- A step that answers with what was read is as honest as the read. -/
theorem honest_plain (hd : d.Honest input other) :
    Decoder.Honest input other ⟨fun input p =>
      (Run.plain (place input) ((d.run input p).answered (answer input p))).ending⟩ := by
  intro p e h
  simp only [Run.plain_fails, Run.answered_fails] at h
  exact hd p e h

theorem honest_plain_ok {answers : Input → Nat → Answer} :
    Decoder.Honest input other
      ⟨fun input p => (Run.plain (place input) ⟨.ok (answers input p), p, []⟩).ending⟩ := by
  intro p e h
  simp only [Run.plain_fails, Step.fails_ok] at h

/-- So is a step that tells of a read within, wherever it comes to stand. -/
theorem honest_nested {position : Input → Nat → Nat} {steps : Input → Nat → List Report}
    (hd : d.Honest input other) :
    Decoder.Honest input other ⟨fun input p =>
      (Run.nested (place input) ⟨((d.run input p).answered (answer input p)).result,
        position input p, ((d.run input p).answered (answer input p)).events⟩
        (steps input p)).ending⟩ := by
  intro p e h
  simp only [Run.nested_fails] at h
  have hanswered : ((d.run input p).answered (answer input p)).Fails e := h
  exact hd p e (Run.answered_fails.1 hanswered)

theorem honest_attempted {run : Input → Nat → Run} :
    Decoder.Honest input other ⟨fun input p => (run input p).attempted.ending⟩ :=
  fun _ _ h => absurd h Step.fails_ok

end Steps

theorem honest_tableFields {f : Frame} {table : List (UInt8 × Schema)} {checked : Bool}
    {i : UInt8} {d : Decoder IndexedField} (hd : tableFields f table checked i = some d) :
    d.Honest input NotTruncation := by
  obtain ⟨s, -, rfl⟩ := Option.map_eq_some_iff.1 hd
  have hs : s.decode.Honest input NotTruncation := s.honest_decode fun _ _ => rfl
  cases checked with
  | false => exact hs.map _
  | true => exact (f.honest_field hs).map _

mutual

theorem ReaderStep.honest_read :
    ∀ step : ReaderStep, step.unforged → step.read.Honest input NotTruncation
  | .decode s, _ => honest_plain (s.honest_decode fun _ _ => rfl)
  | .arrayLength, _ => honest_plain Decoder.honest_arrayLength
  | .messageLength, _ => honest_plain Decoder.honest_messageLength
  | .skip count, _ => honest_plain ((Decoder.honest_slice count).map fun _ => ())
  | .peek, _ => honest_plain (Decoder.honest_of_not_fails fun _ _ => Step.fails_ok)
  | .atEnd, _ => honest_plain_ok
  | .remainingBytes, _ => honest_plain_ok
  | .limits, _ => honest_plain_ok
  | .fail e, hforged => by
    rw [ReaderStep.unforged, Bool.not_eq_true'] at hforged
    intro p e' (h : (Run.plain (.ofReader input) ⟨.error e, p, []⟩).ending.Fails e')
    rw [Run.plain_fails, Step.fails_error] at h
    exact .other (h ▸ hforged)
  | .fork body, hforged => honest_nested (ReaderStep.honest_readBody body hforged)
  | .message body, hforged => by
    intro p e (h : ((ReaderStep.message body).run input p).ending.Fails e)
    rw [ReaderStep.run_message_ending] at h
    exact Decoder.honest_message (FrameStep.honest_readBody body hforged) p e h
  | .openFrame body finish, hforged => by
    intro p e (h : ((ReaderStep.openFrame body finish).run input p).ending.Fails e)
    rw [ReaderStep.run_openFrame_ending] at h
    have hopen : Decoder.openFrame.Honest input NotTruncation := fun p e he =>
      Decoder.honest_messageLength p e (Decoder.openFrame_fails.1 he)
    refine (hopen.bind fun f => ?_) p e h
    refine (FrameStep.honest_readBody body hforged f).bind fun _ => ?_
    cases finish with
    | false => exact Decoder.honest_pure ()
    | true => exact f.honest_finish
  | .attempt _, _ => honest_attempted

theorem ReaderStep.honest_readBody : ∀ body : List ReaderStep, ReaderStep.unforgedBody body →
    (ReaderStep.readBody body).Honest input NotTruncation
  | [], _, _, _, h => absurd h Step.fails_ok
  | step :: rest, hforged, p, e, h => by
    rw [ReaderStep.unforgedBody, Bool.and_eq_true] at hforged
    rcases Run.andThen_fails h with h | ⟨q, h⟩
    · exact ReaderStep.honest_read step hforged.1 p e h
    · exact ReaderStep.honest_readBody rest hforged.2 q e h

theorem FrameStep.honest_read :
    ∀ step : FrameStep, step.unforged → ∀ f, (step.read f).Honest input NotTruncation
  | .length, _, _ => honest_plain_ok
  | .isEmpty, _, _ => honest_plain_ok
  | .exhausted, _, _ => honest_plain_ok
  | .field s, _, f => honest_plain (f.honest_field (s.honest_decode fun _ _ => rfl))
  | .fieldOrDefault s, _, f =>
    honest_plain ((f.honest_field (s.honest_decode fun _ _ => rfl)).map _)
  | .nextIndex, _, f => honest_plain f.honest_nextIndex
  | .fieldBy body, hforged, f => by
    intro p e (h : ((FrameStep.fieldBy body).run f input p).ending.Fails e)
    rw [FrameStep.run_fieldBy_ending] at h
    have hfield := f.honest_field (ReaderStep.honest_readBody body hforged)
    exact hfield.map (fun _ => ()) p e h
  | .reader step, hforged, _ => honest_nested (ReaderStep.honest_read step hforged)
  | .walk _ _, _, f => fun _ _ h =>
    f.walkUpTo_fails_genuine (fun _ _ hd => honest_tableFields hd) h
  | .attempt _, _, _ => honest_attempted

theorem FrameStep.honest_readBody : ∀ body : List FrameStep, FrameStep.unforgedBody body →
    ∀ f, (FrameStep.readBody body f).Honest input NotTruncation
  | [], _, _, _, _, h => absurd h Step.fails_ok
  | step :: rest, hforged, f, p, e, h => by
    rw [FrameStep.unforgedBody, Bool.and_eq_true] at hforged
    rcases Run.andThen_fails h with h | ⟨q, h⟩
    · exact FrameStep.honest_read step hforged.1 f p e h
    · exact FrameStep.honest_readBody rest hforged.2 f q e h

end

end WireFormat
