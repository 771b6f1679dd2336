import WireFormat.Proofs.Cursor

/-! The places that a run reports. After every step, however deep in messages, frames and copies, the
reader stands within the input, and behind the beginning of the frame that the step belongs to, which
lies within the input. -/
namespace WireFormat

variable {α : Type} {input : Input} {f : Frame} {p q : Nat}

/-- A reader stands within the input and has the rest of it left; a frame that it stands in lies
within the input and does not begin behind it. -/
def Place.InRange (input : Input) : Place → Prop
  | .reader position remaining => position + remaining = input.bytes.length
  | .frame f position => f.start ≤ position ∧ position ≤ input.bytes.length ∧ f.Within input

/-- So does every place that the report tells of. -/
inductive Report.InRange (input : Input) : Report → Prop
  | plain {result place} (h : place.InRange input) : InRange input (.plain result place)
  | nested {result place steps} (h : place.InRange input) (hsteps : ∀ r ∈ steps, InRange input r) :
      InRange input (.nested result place steps)
  | walk {result place fields} (h : place.InRange input) : InRange input (.walk result place fields)

/-- All reports of the run are in range. -/
def Run.InRange (input : Input) (r : Run) : Prop := ∀ report ∈ r.reports, report.InRange input

theorem Place.inRange_ofReader (hp : p ≤ input.bytes.length) :
    (Place.ofReader input p).InRange input :=
  Nat.add_sub_cancel' hp

theorem Place.InRange.onward {s : Step α} (h : (Place.frame f p).InRange input)
    (hs : s.Onward input p) : (Place.frame f s.position).InRange input :=
  ⟨Nat.le_trans h.1 hs.1, hs.2, h.2.2⟩

theorem Decoder.openFrame_inRange (hp : p ≤ input.bytes.length)
    (h : (openFrame.run input p).Yields f q) : (Place.frame f q).InRange input := by
  have hq := (advances_openFrame p hp).2
  rw [h.2] at hq
  have hwithin := openFrame_within h
  obtain ⟨n, -, rfl⟩ := openFrame_yields.1 h
  exact ⟨Nat.le_refl q, hq, hwithin⟩

theorem Step.answered_position (s : Step α) (answer : α → Answer) :
    (s.answered answer).position = s.position := by
  obtain ⟨_ | _, _, _⟩ := s <;> rfl

theorem Step.forget_position (s : Step α) : s.forget.position = s.position := by
  obtain ⟨_ | _, _, _⟩ := s <;> rfl

namespace Run

variable {place : Nat → Place} {s : Step Answer} {steps : List Report}

/-- A step that leaves off in range reports so. -/
theorem inRange_plain (h : (place (plain place s).ending.position).InRange input) :
    (plain place s).InRange input := by
  intro report hreport
  obtain rfl := List.mem_singleton.1 hreport
  rw [plain, Step.forget_position] at h
  exact .plain h

theorem inRange_nested (h : (place (nested place s steps).ending.position).InRange input)
    (hsteps : ∀ r ∈ steps, r.InRange input) : (nested place s steps).InRange input := by
  intro report hreport
  obtain rfl := List.mem_singleton.1 hreport
  rw [nested, Step.forget_position] at h
  exact .nested h hsteps

theorem InRange.andThen {r : Run} {next : Nat → Run} (h : r.InRange input)
    (hnext : (next r.ending.position).InRange input) : (r.andThen next).InRange input := by
  obtain ⟨⟨_ | _, q, _⟩, reports⟩ := r
  · exact h
  · intro report hreport
    rcases List.mem_append.1 hreport with hreport | hreport
    · exact h report hreport
    · exact hnext report hreport

end Run

theorem ReaderStep.stays_inRange (step : ReaderStep) (hp : p ≤ input.bytes.length) :
    (Place.ofReader input (step.run input p).ending.position).InRange input :=
  Place.inRange_ofReader (step.advances_read p hp).2

theorem FrameStep.stays_inRange (step : FrameStep) (hp : (Place.frame f p).InRange input) :
    (Place.frame f (step.run f input p).ending.position).InRange input :=
  hp.onward (step.advances_read f p hp.2.1)

theorem ReaderStep.inRange_plain {step : ReaderStep} {s : Step Answer}
    (hrun : step.run input p = .plain (.ofReader input) s) (hp : p ≤ input.bytes.length) :
    (step.run input p).InRange input := by
  have hend := step.stays_inRange hp
  rw [hrun] at hend ⊢
  exact Run.inRange_plain hend

theorem FrameStep.inRange_plain {step : FrameStep} {s : Step Answer}
    (hrun : step.run f input p = .plain (.frame f) s) (hp : (Place.frame f p).InRange input) :
    (step.run f input p).InRange input := by
  have hend := step.stays_inRange hp
  rw [hrun] at hend ⊢
  exact Run.inRange_plain hend

mutual

theorem ReaderStep.inRange_run : ∀ (step : ReaderStep) {p : Nat}, p ≤ input.bytes.length →
    (step.run input p).InRange input
  | .decode _, _, hp => ReaderStep.inRange_plain rfl hp
  | .arrayLength, _, hp => ReaderStep.inRange_plain rfl hp
  | .messageLength, _, hp => ReaderStep.inRange_plain rfl hp
  | .skip _, _, hp => ReaderStep.inRange_plain rfl hp
  | .peek, _, hp => ReaderStep.inRange_plain rfl hp
  | .atEnd, _, hp => ReaderStep.inRange_plain rfl hp
  | .remainingBytes, _, hp => ReaderStep.inRange_plain rfl hp
  | .limits, _, hp => ReaderStep.inRange_plain rfl hp
  | .fail _, _, hp => ReaderStep.inRange_plain rfl hp
  | .fork body, _, hp =>
    Run.inRange_nested (ReaderStep.stays_inRange (.fork body) hp)
      (ReaderStep.inRange_runBody body hp)
  | .message body, p, hp => by
    have hend := ReaderStep.stays_inRange (.message body) hp
    simp only [ReaderStep.run] at hend ⊢
    rcases hopen : Decoder.openFrame.run input p with ⟨e | f, q, events⟩ <;> rw [hopen] at hend
    · exact Run.inRange_nested hend nofun
    · have hf := Decoder.openFrame_inRange hp (by rw [hopen]; exact ⟨rfl, rfl⟩)
      exact Run.inRange_nested hend (FrameStep.inRange_runBody body hf)
  | .openFrame body finish, p, hp => by
    have hend := ReaderStep.stays_inRange (.openFrame body finish) hp
    simp only [ReaderStep.run] at hend ⊢
    rcases hopen : Decoder.openFrame.run input p with ⟨e | f, q, events⟩ <;> rw [hopen] at hend
    · exact Run.inRange_nested hend nofun
    · have hf := Decoder.openFrame_inRange hp (by rw [hopen]; exact ⟨rfl, rfl⟩)
      exact Run.inRange_nested hend (FrameStep.inRange_runBody body hf)
  | .attempt step, _, hp => ReaderStep.inRange_run step hp

theorem ReaderStep.inRange_runBody : ∀ (body : List ReaderStep) {p : Nat},
    p ≤ input.bytes.length → (ReaderStep.runBody body input p).InRange input
  | [], _, _ => nofun
  | step :: rest, p, hp =>
    (ReaderStep.inRange_run step hp).andThen
      (ReaderStep.inRange_runBody rest (ReaderStep.advances_read step p hp).2)

theorem FrameStep.inRange_run : ∀ (step : FrameStep) {f : Frame} {p : Nat},
    (Place.frame f p).InRange input → (step.run f input p).InRange input
  | .length, _, _, hp => FrameStep.inRange_plain rfl hp
  | .isEmpty, _, _, hp => FrameStep.inRange_plain rfl hp
  | .exhausted, _, _, hp => FrameStep.inRange_plain rfl hp
  | .field _, _, _, hp => FrameStep.inRange_plain rfl hp
  | .fieldOrDefault _, _, _, hp => FrameStep.inRange_plain rfl hp
  | .nextIndex, _, _, hp => FrameStep.inRange_plain rfl hp
  | .fieldBy body, f, p, hp => by
    have hend := FrameStep.stays_inRange (.fieldBy body) hp
    have hq := (f.advances_enter p hp.2.1).2
    simp only [FrameStep.run] at hend ⊢
    generalize f.enter.run input p = entered at hend hq ⊢
    obtain ⟨e | _ | _, q, events⟩ := entered
    · exact Run.inRange_nested hend nofun
    · exact Run.inRange_nested hend nofun
    · exact Run.inRange_nested hend (ReaderStep.inRange_runBody body hq)
  | .reader step, _, _, hp =>
    Run.inRange_nested (FrameStep.stays_inRange (.reader step) hp)
      (ReaderStep.inRange_run step hp.2.1)
  | .walk table checked, _, _, hp => by
    have hend := FrameStep.stays_inRange (.walk table checked) hp
    intro report hreport
    obtain rfl := List.mem_singleton.1 hreport
    rw [Step.answered_position]
    exact .walk hend
  | .attempt step, _, _, hp => FrameStep.inRange_run step hp

theorem FrameStep.inRange_runBody : ∀ (body : List FrameStep) {f : Frame} {p : Nat},
    (Place.frame f p).InRange input → (FrameStep.runBody body f input p).InRange input
  | [], _, _, _ => nofun
  | step :: rest, _, _, hp =>
    (FrameStep.inRange_run step hp).andThen
      (FrameStep.inRange_runBody rest (FrameStep.stays_inRange step hp))

end

theorem ReaderStep.inRange_runEach (program : List ReaderStep) (hp : p ≤ input.bytes.length) :
    (ReaderStep.runEach program input p).InRange input := by
  induction program generalizing p with
  | nil => nofun
  | cons step rest ih =>
    exact Run.InRange.andThen (ReaderStep.inRange_run step hp) (ih (step.advances_read p hp).2)

end WireFormat
