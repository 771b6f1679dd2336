import Mathlib.Data.List.Chain
import Mathlib.Order.Monotone.Basic
import WireFormat.Proofs.Places

/-! The phases of a frame. While steps run on a frame and on the reader under it, the frame has
bytes left, then it is exhausted, then it is overrun, and no step leads back. An exhausted frame has
no more fields to give and an overrun one refuses every field, without looking at what is to be
read. -/
namespace WireFormat

variable {α : Type} {input : Input} {f : Frame} {p q r : Nat}

/-- How much of the body is left where the reader stands: some of it, nothing, or less than nothing.
-/
inductive Phase
  | within
  | exhausted
  | overrun
  deriving DecidableEq, Repr

namespace Phase

def rank : Phase → Nat
  | within => 0
  | exhausted => 1
  | overrun => 2

theorem rank_injective : Function.Injective rank := by
  intro a b h
  cases a <;> cases b <;> simp_all [rank]

/-- Phases in the order in which a frame goes through them. -/
instance : PartialOrder Phase := PartialOrder.lift rank rank_injective

end Phase

namespace Frame

def phase (f : Frame) (p : Nat) : Phase :=
  if p < f.stop then .within else if p = f.stop then .exhausted else .overrun

theorem phase_eq_exhausted : f.phase p = .exhausted ↔ p = f.stop := by
  unfold phase
  split_ifs <;> simp <;> omega

theorem phase_eq_overrun : f.phase p = .overrun ↔ f.stop < p := by
  unfold phase
  split_ifs <;> simp <;> omega

theorem monotone_phase (f : Frame) : Monotone f.phase := by
  intro p q h
  show (f.phase p).rank ≤ (f.phase q).rank
  unfold phase
  split_ifs <;> simp only [Phase.rank] <;> omega

end Frame

/-- The positions lie in order, none before `p` and none behind `q`. -/
def Ascends (p : Nat) (ps : List Nat) (q : Nat) : Prop := (p :: (ps ++ [q])).IsChain (· ≤ ·)

namespace Ascends

variable {ps qs : List Nat}

theorem nil (h : p ≤ q) : Ascends p [] q := List.isChain_pair.2 h

theorem single (h : p ≤ q) : Ascends p [q] q := .cons_cons h (nil le_rfl)

theorem from_le (hp : p ≤ q) (h : Ascends q ps r) : Ascends p ps r := by
  have hchain : (p :: q :: (ps ++ [r])).IsChain (· ≤ ·) := .cons_cons hp h
  exact hchain.sublist ((List.sublist_cons_self q _).cons_cons p)

theorem append (h : Ascends p ps q) (hq : Ascends q qs r) : Ascends p (ps ++ qs) r := by
  have hchain : (p :: (ps ++ q :: (qs ++ [r]))).IsChain (· ≤ ·) :=
    List.isChain_cons_split.2 ⟨h, hq⟩
  unfold Ascends
  rw [List.append_assoc]
  exact hchain.sublist (((List.sublist_cons_self q _).append_left ps).cons_cons p)

theorem to_le (h : Ascends p ps q) (hq : q ≤ r) : Ascends p ps r := by
  simpa using h.append (nil hq)

theorem pairwise_le (h : Ascends p ps q) : (p :: ps ++ [q]).Pairwise (· ≤ ·) :=
  List.isChain_iff_pairwise.1 h

/-- A step that goes on after a success with what ends at `last`, and then ends there itself. -/
theorem closing {s : Step α} {inner : α → Nat → List Nat} {last : Nat} (hlast : p ≤ last)
    (hinner : ∀ a q, s.Yields a q → Ascends p (inner a q) last) :
    Ascends p (s.thereafter inner ++ [last]) last := by
  rcases s.yields_or_fails with ⟨a, ha⟩ | ⟨e, he⟩
  · rw [Step.thereafter_of_yields ha]
    exact (hinner a _ ha).append (single le_rfl)
  · rw [Step.thereafter_of_fails he]
    exact single hlast

/-- A step and, unless it failed, a next one. -/
theorem andThen {β : Type} {s : Step α} {next : α → Nat → Step β} {more : α → Nat → List Nat}
    (h : Ascends p ps s.position)
    (hnext : ∀ a q, s.Yields a q → Ascends q (more a q) (next a q).position) :
    Ascends p (ps ++ s.thereafter more) (s.andThen next).position := by
  rcases s.yields_or_fails with ⟨a, ha⟩ | ⟨e, he⟩
  · rw [Step.thereafter_of_yields ha, Step.andThen_position_of_yields ha]
    exact h.append (hnext a _ ha)
  · rw [Step.thereafter_of_fails he, Step.andThen_of_fails he, List.append_nil]
    exact h

end Ascends

mutual

/-- Where a step leaves the reader, and before that every step inside it, one after another. What
runs on a copy leaves the reader where it is. -/
def ReaderStep.trail : ReaderStep → Input → Nat → List Nat
  | .message body, input, p =>
      (Decoder.openFrame.run input p).thereafter (fun f q =>
        q :: FrameStep.trailBody body f input q) ++
      [((ReaderStep.message body).run input p).ending.position]
  | .openFrame body finish, input, p =>
      (Decoder.openFrame.run input p).thereafter (fun f q =>
        q :: FrameStep.trailBody body f input q) ++
      [((ReaderStep.openFrame body finish).run input p).ending.position]
  | .attempt step, input, p => step.trail input p
  | step, input, p => [(step.run input p).ending.position]

def ReaderStep.trailBody : List ReaderStep → Input → Nat → List Nat
  | [], _, _ => []
  | step :: rest, input, p =>
      step.trail input p ++
        (step.run input p).ending.thereafter fun _ q => ReaderStep.trailBody rest input q

def FrameStep.trail : FrameStep → Frame → Input → Nat → List Nat
  | .fieldBy body, f, input, p =>
      (f.enter.run input p).thereafter (fun entered q =>
        if entered then ReaderStep.trailBody body input q else []) ++
      [((FrameStep.fieldBy body).run f input p).ending.position]
  | .reader step, _, input, p => step.trail input p
  | .attempt step, f, input, p => step.trail f input p
  | step, f, input, p => [(step.run f input p).ending.position]

def FrameStep.trailBody : List FrameStep → Frame → Input → Nat → List Nat
  | [], _, _, _ => []
  | step :: rest, f, input, p =>
      step.trail f input p ++
        (step.run f input p).ending.thereafter fun _ q => FrameStep.trailBody rest f input q

end

namespace ReaderStep

theorem inner_le_message {body : List FrameStep}
    (hopen : (Decoder.openFrame.run input p).Yields f q)
    (hend : (FrameStep.runBody body f input q).ending.position ≤ input.bytes.length) :
    (FrameStep.runBody body f input q).ending.position ≤
      ((message body).run input p).ending.position := by
  rw [run_message_ending, Decoder.message, Decoder.run_bind,
    Step.andThen_position_of_yields hopen]
  exact (Frame.onward_close (Decoder.openFrame_within hopen) ⟨le_rfl, hend⟩).1

theorem inner_le_openFrame {body : List FrameStep} {finish : Bool}
    (hopen : (Decoder.openFrame.run input p).Yields f q)
    (hend : (FrameStep.runBody body f input q).ending.position ≤ input.bytes.length) :
    (FrameStep.runBody body f input q).ending.position ≤
      ((openFrame body finish).run input p).ending.position := by
  rw [run_openFrame_ending, Decoder.run_bind, Step.andThen_position_of_yields hopen,
    Decoder.run_bind]
  have hinner : ((FrameStep.readBody body f).run input q).Onward input
      (FrameStep.runBody body f input q).ending.position := ⟨le_rfl, hend⟩
  refine (hinner.andThen fun _ t _ ht => ?_).1
  cases finish with
  | false => exact Decoder.advances_pure () t ht
  | true => exact Frame.advances_finish (Decoder.openFrame_within hopen) t ht

/-- A frame is opened and a body runs on it, which does not leave the reader behind `last`. -/
theorem ascends_opened {body : List FrameStep} {last : Nat} (hp : p ≤ input.bytes.length)
    (hlast : p ≤ last)
    (hbody : ∀ (f : Frame) {q : Nat}, q ≤ input.bytes.length →
      Ascends q (FrameStep.trailBody body f input q)
        (FrameStep.runBody body f input q).ending.position)
    (hinner : ∀ {f : Frame} {q : Nat}, (Decoder.openFrame.run input p).Yields f q →
      (FrameStep.runBody body f input q).ending.position ≤ input.bytes.length →
      (FrameStep.runBody body f input q).ending.position ≤ last) :
    Ascends p ((Decoder.openFrame.run input p).thereafter (fun f q =>
      q :: FrameStep.trailBody body f input q) ++ [last]) last := by
  refine Ascends.closing hlast fun f q hopen => ?_
  obtain ⟨hq, hlen⟩ := (Decoder.advances_openFrame p hp).of_yields hopen
  have hend := (FrameStep.advances_readBody body f q hlen).2
  exact .cons_cons hq ((hbody f hlen).to_le (hinner hopen hend))

end ReaderStep

theorem FrameStep.inner_le_fieldBy {body : List ReaderStep}
    (henter : (f.enter.run input p).Yields true q)
    (hend : (ReaderStep.runBody body input q).ending.position ≤ input.bytes.length) :
    (ReaderStep.runBody body input q).ending.position ≤
      ((fieldBy body).run f input p).ending.position := by
  rw [run_fieldBy_ending, Step.forget_position, Frame.field, Decoder.run_bind,
    Step.andThen_position_of_yields henter, if_pos rfl]
  exact ((f.onward_leave ⟨le_rfl, hend⟩).andThen fun _ _ _ ht => Step.onward_of_stays ht rfl).1

mutual

/-- The steps inside a step lead onward as it does, from where it starts to where it leaves off. -/
theorem ReaderStep.ascends_trail : ∀ (step : ReaderStep) {p : Nat}, p ≤ input.bytes.length →
    Ascends p (step.trail input p) (step.run input p).ending.position
  | .decode s, p, hp => .single (ReaderStep.advances_read (.decode s) p hp).1
  | .arrayLength, p, hp => .single (ReaderStep.advances_read .arrayLength p hp).1
  | .messageLength, p, hp => .single (ReaderStep.advances_read .messageLength p hp).1
  | .skip count, p, hp => .single (ReaderStep.advances_read (.skip count) p hp).1
  | .peek, _, _ => .single le_rfl
  | .atEnd, _, _ => .single le_rfl
  | .remainingBytes, _, _ => .single le_rfl
  | .limits, _, _ => .single le_rfl
  | .fail _, _, _ => .single le_rfl
  | .fork body, p, hp => .single (ReaderStep.advances_read (.fork body) p hp).1
  | .message body, p, hp => by
    have honward := (ReaderStep.advances_read (.message body) p hp).1
    have hbody (f : Frame) {q : Nat} := FrameStep.ascends_trailBody body f (p := q)
    exact ReaderStep.ascends_opened hp honward hbody ReaderStep.inner_le_message
  | .openFrame body finish, p, hp => by
    have honward := (ReaderStep.advances_read (.openFrame body finish) p hp).1
    have hbody (f : Frame) {q : Nat} := FrameStep.ascends_trailBody body f (p := q)
    exact ReaderStep.ascends_opened hp honward hbody ReaderStep.inner_le_openFrame
  | .attempt step, _, hp => ReaderStep.ascends_trail step hp

theorem ReaderStep.ascends_trailBody : ∀ (body : List ReaderStep) {p : Nat},
    p ≤ input.bytes.length →
    Ascends p (ReaderStep.trailBody body input p) (ReaderStep.runBody body input p).ending.position
  | [], _, _ => .nil le_rfl
  | step :: rest, p, hp => by
    rw [ReaderStep.trailBody, ReaderStep.runBody, Run.andThen_ending]
    refine (ReaderStep.ascends_trail step hp).andThen fun _ q hq => ?_
    exact ReaderStep.ascends_trailBody rest ((step.advances_read p hp).of_yields hq).2

theorem FrameStep.ascends_trail : ∀ (step : FrameStep) (f : Frame) {p : Nat},
    p ≤ input.bytes.length →
    Ascends p (step.trail f input p) (step.run f input p).ending.position
  | .length, _, _, _ => .single le_rfl
  | .isEmpty, _, _, _ => .single le_rfl
  | .exhausted, _, _, _ => .single le_rfl
  | .field s, f, p, hp => .single (FrameStep.advances_read (.field s) f p hp).1
  | .fieldOrDefault s, f, p, hp => .single (FrameStep.advances_read (.fieldOrDefault s) f p hp).1
  | .nextIndex, f, p, hp => .single (FrameStep.advances_read .nextIndex f p hp).1
  | .fieldBy body, f, p, hp => by
    have honward := (FrameStep.advances_read (.fieldBy body) f p hp).1
    refine Ascends.closing honward fun entered q henter => ?_
    obtain ⟨hq, hlen⟩ := (f.advances_enter p hp).of_yields henter
    cases entered with
    | false => exact .nil honward
    | true =>
      have hinner := (ReaderStep.ascends_trailBody body hlen).from_le hq
      have hend := (ReaderStep.advances_readBody body q hlen).2
      exact hinner.to_le (FrameStep.inner_le_fieldBy henter hend)
  | .reader step, f, p, hp => by
    have hstep := ReaderStep.ascends_trail step hp
    rw [FrameStep.trail]
    rwa [FrameStep.run, Run.nested, Step.forget_answered, Step.forget_unit]
  | .walk table checked, f, p, hp =>
    .single (FrameStep.advances_read (.walk table checked) f p hp).1
  | .attempt step, f, _, hp => FrameStep.ascends_trail step f hp

theorem FrameStep.ascends_trailBody : ∀ (body : List FrameStep) (f : Frame) {p : Nat},
    p ≤ input.bytes.length →
    Ascends p (FrameStep.trailBody body f input p)
      (FrameStep.runBody body f input p).ending.position
  | [], _, _, _ => .nil le_rfl
  | step :: rest, f, p, hp => by
    rw [FrameStep.trailBody, FrameStep.runBody, Run.andThen_ending]
    refine (FrameStep.ascends_trail step f hp).andThen fun _ q hq => ?_
    exact FrameStep.ascends_trailBody rest f ((step.advances_read f p hp).of_yields hq).2

end

/-- Whether the report tells of a field that was there, or of one that was absent. -/
def Report.fieldSeen? : Report → Option Bool
  | .plain (.ok (.field _ v)) _ => some v.isSome
  | .nested (.ok (.flag there)) _ _ => some there
  | _ => none

/-- For every field that the run tells of, in order, whether it was there. -/
def Run.fieldsSeen (r : Run) : List Bool := r.reports.filterMap Report.fieldSeen?

theorem Run.fieldsSeen_andThen (r : Run) (next : Nat → Run) :
    (r.andThen next).fieldsSeen =
      r.fieldsSeen ++ r.ending.thereafter fun _ q => (next q).fieldsSeen := by
  obtain ⟨⟨_ | _, _, _⟩, _⟩ := r <;> simp [andThen, fieldsSeen, Step.thereafter]

/-- Where one step leaves the frame, by the field that it saw. -/
inductive FieldSeen (f : Frame) (p : Nat) (r : Run) : Prop
  | none (h : r.fieldsSeen = [])
  | there (h : r.fieldsSeen = [true]) (hp : p < f.stop)
  | absent (h : r.fieldsSeen = [false]) (hp : f.stop ≤ r.ending.position)

theorem fieldSeen_plain {s : Step α} {answer : α → Answer} {place : Nat → Place}
    (h : ∀ a here, (Report.plain (.ok (answer a)) here).fieldSeen? = none) :
    FieldSeen f p (Run.plain place (s.answered answer)) := by
  obtain ⟨_ | a, q, _⟩ := s
  · exact .none rfl
  · exact .none (by simp [Run.plain, Run.fieldsSeen, Step.answered, h])

theorem FrameStep.fieldSeen_run : ∀ (step : FrameStep) (f : Frame) (p : Nat),
    FieldSeen f p (step.run f input p)
  | .length, _, _ => .none rfl
  | .isEmpty, _, _ => .none rfl
  | .exhausted, _, _ => .none rfl
  | .field s, f, p => by
    have hyields : ∀ o q, ((f.field s.decode).run input p).Yields o q ↔ _ :=
      fun o q => f.field_yields
    rw [FrameStep.run]
    generalize (f.field s.decode).run input p = field at hyields ⊢
    obtain ⟨e | o, q, events⟩ := field
    · exact .none rfl
    · rcases (hyields o q).1 ⟨rfl, rfl⟩ with ⟨hp, rfl, rfl⟩ | ⟨hp, a, rfl, -⟩
      · exact .absent rfl hp.ge
      · exact .there rfl hp
  | .fieldOrDefault s, f, p => fieldSeen_plain fun _ _ => rfl
  | .nextIndex, f, p => fieldSeen_plain fun _ _ => rfl
  | .fieldBy body, f, p => by
    have hyields : ∀ entered q, (f.enter.run input p).Yields entered q ↔ _ :=
      fun entered q => f.enter_yields
    rw [FrameStep.run]
    generalize f.enter.run input p = enter at hyields ⊢
    obtain ⟨e | _ | _, q, events⟩ := enter
    · exact .none rfl
    · obtain ⟨-, hp, rfl⟩ := (hyields false q).1 ⟨rfl, rfl⟩
      refine .absent rfl ?_
      show f.stop ≤ p
      simpa using hp
    · obtain ⟨-, hp, rfl⟩ := (hyields true q).1 ⟨rfl, rfl⟩
      dsimp only
      generalize f.leave input (ReaderStep.runBody body input p).ending = left
      obtain ⟨_ | _, _, _⟩ := left
      · exact .none rfl
      · exact .there rfl (by simpa using hp)
  | .reader step, f, p => by
    rw [FrameStep.run]
    generalize step.run input p = inner
    obtain ⟨⟨_ | _, _, _⟩, _⟩ := inner <;> exact .none rfl
  | .walk table checked, f, p => .none rfl
  | .attempt step, f, p => by
    cases FrameStep.fieldSeen_run step f p with
    | none h => exact .none h
    | there h hp => exact .there h hp
    | absent h hp => exact .absent h hp

namespace FrameStep

theorem fieldsSeen_runBody_cons (step : FrameStep) (rest : List FrameStep) :
    (runBody (step :: rest) f input p).fieldsSeen =
      (step.run f input p).fieldsSeen ++
        (step.run f input p).ending.thereafter fun _ q =>
          (runBody rest f input q).fieldsSeen :=
  Run.fieldsSeen_andThen _ _

/-- Behind the last byte of the body no field is there any more. -/
theorem fieldsSeen_runBody_absent (body : List FrameStep) (hp : p ≤ input.bytes.length)
    (hstop : f.stop ≤ p) : ∀ seen ∈ (runBody body f input p).fieldsSeen, seen = false := by
  induction body generalizing p with
  | nil => exact nofun
  | cons step rest ih =>
    have hstep : (step.run f input p).ending.Onward input p := step.advances_read f p hp
    have hfield : FieldSeen f p (step.run f input p) := step.fieldSeen_run f p
    intro seen hseen
    rw [fieldsSeen_runBody_cons, List.mem_append] at hseen
    rcases hseen with hseen | hseen
    · cases hfield with
      | none h => simp [h] at hseen
      | there h hwithin => omega
      | absent h _ => simpa [h] using hseen
    · rcases (step.run f input p).ending.yields_or_fails with ⟨u, hu⟩ | ⟨e, he⟩
      · rw [Step.thereafter_of_yields hu] at hseen
        exact ih hstep.2 (hstop.trans hstep.1) seen hseen
      · simp [Step.thereafter_of_fails he] at hseen

/-- First come the fields that are there, then those that are absent. -/
theorem fieldsSeen_runBody (body : List FrameStep) (hp : p ≤ input.bytes.length) :
    ∃ there absent, (runBody body f input p).fieldsSeen =
      List.replicate there true ++ List.replicate absent false := by
  induction body generalizing p with
  | nil => exact ⟨0, 0, rfl⟩
  | cons step rest ih =>
    have hstep : (step.run f input p).ending.Onward input p := step.advances_read f p hp
    have hfield : FieldSeen f p (step.run f input p) := step.fieldSeen_run f p
    rw [fieldsSeen_runBody_cons]
    rcases (step.run f input p).ending.yields_or_fails with ⟨u, hu⟩ | ⟨e, he⟩
    · rw [Step.thereafter_of_yields hu]
      obtain ⟨there, absent, hrest⟩ := ih hstep.2
      cases hfield with
      | none h => exact ⟨there, absent, by rw [h, hrest, List.nil_append]⟩
      | there h _ => exact ⟨there + 1, absent, by rw [h, hrest]; rfl⟩
      | absent h hstop =>
        have hall := fieldsSeen_runBody_absent rest hstep.2 hstop
        have htail := List.eq_replicate_of_mem hall
        exact ⟨0, _ + 1, by rw [h, htail, List.replicate_succ]; rfl⟩
    · rw [Step.thereafter_of_fails he, List.append_nil]
      cases hfield with
      | none h => exact ⟨0, 0, h⟩
      | there h _ => exact ⟨1, 0, h⟩
      | absent h _ => exact ⟨0, 1, h⟩

end FrameStep

namespace Frame

/-- The outcome of a field that is absent because the body has no bytes left. -/
def absence (f : Frame) (a : α) (p : Nat) : Step α := ⟨.ok a, p, [.fieldAbsent f.length]⟩

/-- The outcome of a field, or of leaving the frame, where the body was overrun. -/
def refusal (f : Frame) (p : Nat) : Step α :=
  ⟨.error (.bodyOverrun f.length (f.consumed p) p), p,
    [.fieldOverrun (.bodyOverrun f.length (f.consumed p) p)]⟩

theorem run_enter_exhausted (hp : p = f.stop) : f.enter.run input p = f.absence false p := by
  simp [enter, checkBounds, exhausted, absence, hp, Decoder.position, Decoder.log]

theorem run_enter_overrun (hp : f.stop < p) : f.enter.run input p = f.refusal p := by
  simp [enter, checkBounds, refusal, hp]

theorem run_field_exhausted (hp : p = f.stop) (d : Decoder α) :
    (f.field d).run input p = f.absence none p := by
  simp [field, run_enter_exhausted hp, absence]

theorem run_field_overrun (hp : f.stop < p) (d : Decoder α) :
    (f.field d).run input p = f.refusal p := by
  simp [field, run_enter_overrun hp, refusal]

theorem run_nextIndex_exhausted (hp : p = f.stop) : f.nextIndex.run input p = f.absence none p := by
  simp [nextIndex, run_field_exhausted hp, absence]

theorem run_nextIndex_overrun (hp : f.stop < p) : f.nextIndex.run input p = f.refusal p := by
  simp [nextIndex, run_field_overrun hp, refusal]

theorem run_finish_overrun (hp : f.stop < p) : f.finish.run input p = f.refusal p := by
  simp [finish, checkBounds, refusal, hp]

/-- How a frame behaves while the reader stands at `p`. Where it is exhausted or overrun, a field
operation has one outcome for every read and every program that it is given, so that it cannot have
run them, and leaves the reader at `p`. -/
structure Phased (f : Frame) (input : Input) (p : Nat) : Prop where
  /-- No step of any program leads a frame back to an earlier phase; not this one nor another. -/
  onward : ∀ (program : List FrameStep) (g : Frame),
    ((p :: FrameStep.trailBody program f input p).map g.phase).Pairwise (· ≤ ·) ∧
      ∀ q ∈ p :: FrameStep.trailBody program f input p,
        g.phase q ≤ g.phase (FrameStep.runBody program f input p).ending.position
  /-- An exhausted frame has no field any more. -/
  exhausted : f.phase p = .exhausted → ∀ (α : Type) (d : Decoder α) (default : α),
    (f.field d).run input p = f.absence none p ∧
    (f.fieldOrDefault default d).run input p = f.absence default p ∧
    f.nextIndex.run input p = f.absence none p ∧
    ∀ body, (FrameStep.fieldBy body).run f input p =
      .nested (.frame f) (f.absence (.flag false) p) []
  /-- An overrun frame refuses every field, and cannot be left. -/
  overrun : f.phase p = .overrun → f.length < f.consumed p ∧ f.start + f.consumed p = p ∧
    ∀ (α : Type) (d : Decoder α) (default : α),
      (f.field d).run input p = f.refusal p ∧
      (f.fieldOrDefault default d).run input p = f.refusal p ∧
      f.nextIndex.run input p = f.refusal p ∧
      f.finish.run input p = f.refusal p ∧
      ∀ body, (FrameStep.fieldBy body).run f input p = .nested (.frame f) (f.refusal p) []
  /-- Whatever the program, the fields that are there come before those that are absent. -/
  inOrder : ∀ program : List FrameStep, ∃ there absent,
    (FrameStep.runBody program f input p).fieldsSeen =
      List.replicate there true ++ List.replicate absent false
  /-- Short of an overrun, what was consumed and what remains make up the body. -/
  balanced : f.phase p ≠ .overrun → f.consumed p + f.remaining p = f.length

theorem phased (h : (Place.frame f p).InRange input) : f.Phased input p where
  onward program g := by
    obtain ⟨hpairs, -, hlast⟩ :=
      List.pairwise_append.1 (FrameStep.ascends_trailBody program f h.2.1).pairwise_le
    refine ⟨List.pairwise_map.2 (hpairs.imp fun hle => g.monotone_phase hle), ?_⟩
    intro q hq
    exact g.monotone_phase (hlast q hq _ (List.mem_singleton_self _))
  exhausted hphase α d default := by
    have hp := phase_eq_exhausted.1 hphase
    refine ⟨run_field_exhausted hp d, ?_, run_nextIndex_exhausted hp, fun body => ?_⟩
    · simp [fieldOrDefault, run_field_exhausted hp, absence]
    · simp [FrameStep.run, run_enter_exhausted hp, absence, Step.answered]
  overrun hphase := by
    have hp := phase_eq_overrun.1 hphase
    obtain ⟨hstart, -, hwithin⟩ := h
    refine ⟨?_, ?_, fun α d default => ⟨run_field_overrun hp d, ?_, run_nextIndex_overrun hp,
      run_finish_overrun hp, fun body => ?_⟩⟩
    · have hle := hwithin.1
      unfold length consumed
      omega
    · unfold consumed
      omega
    · simp [fieldOrDefault, run_field_overrun hp, refusal]
    · simp [FrameStep.run, run_enter_overrun hp, refusal]
  inOrder program := FrameStep.fieldsSeen_runBody program h.2.1
  balanced hphase := by
    have hp : ¬ f.stop < p := fun hlt => hphase (phase_eq_overrun.2 hlt)
    obtain ⟨hstart, -, -⟩ := h
    unfold consumed remaining length
    omega

end Frame

theorem Decoder.le_of_openFrame (h : (openFrame.run input p).Yields f q) :
    p ≤ input.bytes.length := by
  obtain ⟨n, hn, -⟩ := openFrame_yields.1 h
  obtain ⟨x, hx, -⟩ := messageLength_yields.1 hn
  obtain ⟨rfl, hend, -⟩ := word32_yields_iff.1 hx
  omega

/-- The phases of a frame, at every moment since it was opened, whatever has run on it and on the
reader under it, failed reads, nested messages and abandoned frames among them: no step leads back;
once the frame is exhausted all its fields are absent, and once it is overrun they are refused, both
without a look at what is to be read. -/
theorem frame_phases (hopen : (Decoder.openFrame.run input p).Yields f q)
    (program : List FrameStep) :
    f.Phased input (FrameStep.runBody program f input q).ending.position := by
  have hplace := Decoder.openFrame_inRange (Decoder.le_of_openFrame hopen) hopen
  exact Frame.phased (hplace.onward (FrameStep.advances_readBody program f q hplace.2.1))

/-- A body of two bytes. Reading both exhausts it; reading one of them and then a word, whose
failure is passed over, leaves the reader a byte behind it. -/
theorem frame_phases_pair :
    (Decoder.openFrame.run ⟨[2, 0, 0, 0, 7, 8, 9], .unbounded⟩ 0).Yields ⟨4, 6⟩ 4 ∧
      Frame.Phased ⟨4, 6⟩ ⟨[2, 0, 0, 0, 7, 8, 9], .unbounded⟩ 6 ∧
      Frame.Phased ⟨4, 6⟩ ⟨[2, 0, 0, 0, 7, 8, 9], .unbounded⟩ 7 ∧
      (Frame.field ⟨4, 6⟩ Decoder.text).run ⟨[2, 0, 0, 0, 7, 8, 9], .unbounded⟩ 6 =
        ⟨.ok none, 6, [.fieldAbsent 2]⟩ ∧
      (Frame.field ⟨4, 6⟩ Decoder.text).run ⟨[2, 0, 0, 0, 7, 8, 9], .unbounded⟩ 7 =
        ⟨.error (.bodyOverrun 2 3 7), 7, [.fieldOverrun (.bodyOverrun 2 3 7)]⟩ := by
  have hopen : (Decoder.openFrame.run ⟨[2, 0, 0, 0, 7, 8, 9], .unbounded⟩ 0).Yields ⟨4, 6⟩ 4 := by
    constructor <;> rfl
  have hexhausted : Frame.Phased ⟨4, 6⟩ ⟨[2, 0, 0, 0, 7, 8, 9], .unbounded⟩ 6 :=
    frame_phases hopen [.field (.scalar .uint16)]
  have hoverrun : Frame.Phased ⟨4, 6⟩ ⟨[2, 0, 0, 0, 7, 8, 9], .unbounded⟩ 7 :=
    frame_phases hopen [.field (.scalar .byte), .attempt (.field (.scalar .uint16))]
  refine ⟨hopen, hexhausted, hoverrun, ?_, ?_⟩
  · exact (hexhausted.exhausted rfl String Decoder.text "").1
  · exact ((hoverrun.overrun rfl).2.2 String Decoder.text "").1

end WireFormat
