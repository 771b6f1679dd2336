import WireFormat.Proofs.Cursor
import WireFormat.Proofs.Guarded
import WireFormat.Proofs.IndexedWalk

/-! A guarded read follows the plain one wherever a reader may stand: it has an outcome, and the
same. So do the reads of a reader, those of a frame that a reader stands in, and messages. -/
namespace WireFormat

variable {α β : Type} {input : Input} {frames : List Frame} {f : Frame} {p q : Nat}

namespace Sound

theorem onward {s : Step α} (h : Sound input frames p) (hs : s.Onward input p) :
    Sound input frames s.position :=
  ⟨hs.2, fun f hf => (h.2 f hf).imp_left fun hstart => Nat.le_trans hstart hs.1⟩

theorem after {d : Decoder α} {a : α} (h : Sound input frames p) (hd : d.Advances input)
    (ha : (d.run input p).Yields a q) : Sound input frames q :=
  ha.2 ▸ h.onward (hd p h.1)

theorem cons (h : Sound input frames p) (hstart : f.start ≤ p) (hf : f.Within input) :
    Sound input (f :: frames) p := by
  refine ⟨h.1, fun g hg => ?_⟩
  rcases List.mem_cons.1 hg with rfl | hg
  · exact ⟨hstart, hf⟩
  · exact h.2 g hg

theorem fits (h : Sound input frames p) {count : Nat} (hcount : count ≤ input.remaining p) :
    p + count ≤ input.bytes.length := by
  have hp := h.1
  unfold Input.remaining at hcount
  omega

end Sound

theorem checkedAdd_eq {a b : Nat} (h : a + b ≤ maxIndex) : checkedAdd a b = some (a + b) :=
  if_pos h

theorem checkedSub_eq {a b : Nat} (h : b ≤ a) : checkedSub a b = some (a - b) :=
  if_pos h

namespace Guarded

@[simp] theorem run_input (input : Input) (frames : List Frame) (p : Nat) :
    Guarded.input.run input frames p = some ⟨.ok input, p, []⟩ := rfl

@[simp] theorem run_position (input : Input) (frames : List Frame) (p : Nat) :
    Guarded.position.run input frames p = some ⟨.ok p, p, []⟩ := rfl

@[simp] theorem run_log (event : Event) (input : Input) (frames : List Frame) (p : Nat) :
    (log event).run input frames p = some ⟨.ok (), p, [event]⟩ := rfl

@[simp] theorem run_fail (e : DecodeError) (input : Input) (frames : List Frame) (p : Nat) :
    (fail e : Guarded α).run input frames p = some ⟨.error e, p, []⟩ := rfl

@[simp] theorem run_index (n : Nat) (input : Input) (frames : List Frame) (p : Nat) :
    (index (some n)).run input frames p = some ⟨.ok n, p, []⟩ := rfl

@[simp] theorem run_lift (d : Decoder α) (input : Input) (frames : List Frame) (p : Nat) :
    (lift d).run input frames p = some (d.run input p) := rfl

@[simp] theorem run_pure (a : α) (input : Input) (frames : List Frame) (p : Nat) :
    (pure a : Guarded α).run input frames p = some ⟨.ok a, p, []⟩ := rfl

@[simp] theorem run_bind (g : Guarded α) (gnext : α → Guarded β) (input : Input)
    (frames : List Frame) (p : Nat) :
    (g >>= gnext).run input frames p = (g.run input frames p).bind fun s =>
      match s.result with
      | .error e => some ⟨.error e, s.position, s.events⟩
      | .ok a => ((gnext a).run input frames s.position).map fun t =>
          ⟨t.result, t.position, s.events ++ t.events⟩ := rfl

theorem run_inspect (h : Sound input frames p) :
    inspect.run input frames p = some ⟨.ok (), p, []⟩ := by
  have hframes : ∃ consumed, (frames.mapM fun f =>
      (checkedSub f.stop f.start).bind fun _ => checkedSub p f.start) = some consumed := by
    have hsound := h.2
    clear h
    induction frames with
    | nil => exact ⟨[], rfl⟩
    | cons f frames ih =>
      obtain ⟨consumed, hconsumed⟩ := ih fun g hg => hsound g (List.mem_cons_of_mem f hg)
      obtain ⟨hstart, hwithin⟩ := hsound f List.mem_cons_self
      refine ⟨(p - f.start) :: consumed, ?_⟩
      rw [List.mapM_cons, hconsumed, checkedSub_eq hwithin.1, checkedSub_eq hstart]
      rfl
  obtain ⟨consumed, hconsumed⟩ := hframes
  change (checkedSub input.bytes.length p).bind (fun _ =>
    (frames.mapM fun f => (checkedSub f.stop f.start).bind fun _ => checkedSub p f.start).bind
      fun _ => some (⟨.ok (), p, []⟩ : Step Unit)) = _
  rw [hconsumed, checkedSub_eq h.1]
  rfl

theorem run_remaining (h : p ≤ input.bytes.length) :
    remaining.run input frames p = some ⟨.ok (input.remaining p), p, []⟩ := by
  simp [remaining, checkedSub_eq h, Input.remaining]

theorem run_tooShort (h : p ≤ input.bytes.length) (count : Nat) :
    (tooShort count : Guarded α).run input frames p =
      some ⟨.error (.endOfInput count (input.remaining p) p), p, []⟩ := by
  simp [tooShort, run_remaining h]

theorem run_span {start : Nat} (h : start ≤ q) (hq : q ≤ input.bytes.length) :
    (span start q).run input frames p =
      some ⟨.ok ((input.bytes.drop start).take (q - start)), p, []⟩ :=
  if_pos ⟨h, hq⟩

theorem run_rest (h : p ≤ input.bytes.length) :
    rest.run input frames p = some ⟨.ok (input.bytes.drop p), p, []⟩ := by
  simp [rest, run_span h (Nat.le_refl _), List.take_of_length_le]

theorem run_rejectLength {start : Nat} (h : start ≤ input.bytes.length) (e : DecodeError) :
    (rejectLength start e).run input frames p =
      some ((Decoder.rejectLength start e).run input p) := by
  simp [rejectLength, Decoder.rejectLength, seek, h]

/-- The guarded read has the outcome of the plain one wherever a reader may stand, and the plain one
goes onward from there. -/
structure Follows (input : Input) (frames : List Frame) (g : Guarded α) (d : Decoder α) :
    Prop where
  outcome : ∀ p, Sound input frames p → g.run input frames p = some (d.run input p)
  advances : d.Advances input

variable {g : Guarded α} {d : Decoder α} {gnext : α → Guarded β} {next : α → Decoder β}

/-- What comes after a read is asked for only where that read left off. -/
theorem bind_outcome (hg : g.run input frames p = some (d.run input p))
    (hnext : ∀ a q, (d.run input p).Yields a q →
      (gnext a).run input frames q = some ((next a).run input q)) :
    (g >>= gnext).run input frames p = some ((d >>= next).run input p) := by
  rw [run_bind, hg, Option.bind_some, Decoder.run_bind]
  rcases hrun : d.run input p with ⟨e | a, q, events⟩
  · rfl
  · dsimp only
    rw [hnext a q (by rw [hrun]; exact ⟨rfl, rfl⟩)]
    rfl

theorem follows_lift (hd : d.Advances input) : Follows input frames (lift d) d :=
  ⟨fun _ _ => rfl, hd⟩

theorem follows_pure (a : α) : Follows input frames (pure a) (pure a) :=
  ⟨fun _ _ => rfl, Decoder.advances_pure a⟩

theorem follows_fail (e : DecodeError) : Follows input frames (fail e : Guarded α) (.fail e) :=
  follows_lift (Decoder.advances_of_stays fun _ => rfl)

theorem follows_input : Follows input frames Guarded.input .input :=
  follows_lift Decoder.advances_input

theorem follows_position : Follows input frames Guarded.position .position :=
  follows_lift Decoder.advances_position

theorem Follows.bind (hg : Follows input frames g d)
    (hnext : ∀ a, Follows input frames (gnext a) (next a)) :
    Follows input frames (g >>= gnext) (d >>= next) where
  outcome p hp := bind_outcome (hg.outcome p hp) fun a q ha =>
    (hnext a).outcome q (hp.after hg.advances ha)
  advances := hg.advances.bind fun a => (hnext a).advances

theorem Follows.map (hg : Follows input frames g d) (h : α → β) :
    Follows input frames (do return h (← g)) (do return h (← d)) :=
  hg.bind fun a => follows_pure (h a)

/-- An operation that goes onward never meets a place where a reader must not stand. -/
theorem Follows.operation (hg : Follows input frames g d) :
    Follows input frames g.operation d where
  outcome p hp := by
    have honward := hg.advances p hp.1
    have hend := hp.onward honward
    simp only [Guarded.operation, if_pos hp, hg.outcome p hp, Option.bind_some,
      if_pos (And.intro honward.1 hend), run_inspect hend, Option.map_some]
  advances := hg.advances

theorem Follows.restoring (hg : Follows input frames g d) :
    Follows input frames g.restoring d.restoring where
  outcome p hp := by
    simp only [Guarded.restoring, hg.outcome p hp, Option.map_some]
    rfl
  advances := hg.advances.restoring

theorem Follows.times (hg : Follows input frames g d) (n : Nat) :
    Follows input frames (g.times n) (d.times n) := by
  induction n with
  | zero => exact follows_pure []
  | succ n ih => exact hg.bind fun a => ih.map _

section Bounded

/-! An input is no longer than the largest index, which is all that sums of positions need. -/

variable (hsize : input.bytes.length ≤ maxIndex)
include hsize

theorem run_advance {count : Nat} (h : p + count ≤ input.bytes.length) :
    (advance count).run input frames p = some ⟨.ok (), p + count, []⟩ := by
  simp [advance, Decoder.seek, checkedAdd_eq (Nat.le_trans h hsize)]

theorem follows_slice (count : Nat) : Follows input frames (slice count) (.slice count) := by
  refine ⟨fun p hp => ?_, Decoder.advances_slice count⟩
  simp only [slice, Decoder.slice, run_bind, run_remaining hp.1, Option.bind_some]
  by_cases hshort : input.remaining p < count
  · simp [hshort, run_tooShort hp.1]
  · have hend := hp.fits (Nat.le_of_not_lt hshort)
    simp [hshort, run_advance hsize hend, run_span (Nat.le_add_right p count) hend]

theorem follows_skip (count : Nat) : Follows input frames (skip count) (.skip count) := by
  refine .operation ⟨fun p hp => ?_, (Decoder.advances_slice count).map fun _ => ()⟩
  simp only [Decoder.skip, Decoder.slice, Decoder.run_bind, run_bind, run_remaining hp.1,
    Option.bind_some]
  by_cases hshort : input.remaining p < count
  · simp [hshort, run_tooShort hp.1]
  · have hend := hp.fits (Nat.le_of_not_lt hshort)
    simp [hshort, run_advance hsize hend]

theorem follows_block (count : Nat) : Follows input frames (block count) (.block count) := by
  refine ⟨fun p hp => ?_, Decoder.advances_block count⟩
  simp only [block, Decoder.block, run_bind, run_rest hp.1, Option.bind_some]
  split
  · rename_i hcount
    simp only [List.size_toArray, List.length_take, List.length_drop] at hcount
    have hfits : count ≤ input.remaining p := by
      unfold Input.remaining
      omega
    simp [run_advance hsize (hp.fits hfits)]
  · simp [run_tooShort hp.1]

theorem follows_byte : Follows input frames byte .byte :=
  ((follows_block hsize 1).map _).operation

theorem follows_word16 : Follows input frames word16 .word16 :=
  ((follows_block hsize 2).map _).operation

theorem follows_word32 : Follows input frames word32 .word32 :=
  ((follows_block hsize 4).map _).operation

theorem follows_word64 : Follows input frames word64 .word64 :=
  ((follows_block hsize 8).map _).operation

theorem follows_arrayLength : Follows input frames arrayLength .arrayLength := by
  refine .operation (.restoring ?_)
  refine (follows_word32 hsize).bind fun length => follows_input.bind fun input' => ?_
  dsimp only
  split
  · exact follows_pure _
  · exact follows_fail _

theorem follows_byteArray : Follows input frames byteArray .byteArray :=
  .operation (.restoring ((follows_arrayLength hsize).bind (follows_slice hsize)))

theorem follows_text : Follows input frames text .text := by
  refine .operation (.restoring ?_)
  refine (follows_arrayLength hsize).bind fun length => follows_position.bind fun start => ?_
  refine (follows_slice hsize length).bind fun payload => ?_
  cases String.fromUTF8? ⟨payload.toArray⟩ with
  | none => exact follows_fail _
  | some t => exact follows_pure t

theorem follows_messageLength : Follows input frames messageLength .messageLength := by
  refine .operation ⟨fun p hp => ?_, Decoder.advances_messageLength⟩
  refine bind_outcome (follows_position.outcome p hp) fun start r hstart => ?_
  obtain ⟨rfl, rfl⟩ := Step.yields_ok.1 hstart
  refine bind_outcome ((follows_word32 hsize).outcome p hp) fun length q hlength => ?_
  have hq := hp.after Decoder.advances_word32 hlength
  refine bind_outcome (follows_position.outcome q hq) fun body r hbody => ?_
  obtain ⟨rfl, rfl⟩ := Step.yields_ok.1 hbody
  refine bind_outcome (follows_input.outcome q hq) fun input' r hinput => ?_
  obtain ⟨rfl, rfl⟩ := Step.yields_ok.1 hinput
  split
  · exact run_rejectLength hp.1 _
  · rw [run_bind, run_remaining hq.1]
    dsimp only [Option.bind_some]
    split
    · rw [run_rejectLength hp.1]
      rfl
    · rfl

/-- The end of an accepted body lies in the input, so that its sum is an index. -/
theorem follows_openFrame : Follows input frames openFrame .openFrame := by
  refine .operation ⟨fun p hp => ?_, Decoder.advances_openFrame⟩
  refine bind_outcome ((follows_messageLength hsize).outcome p hp) fun length q hlength => ?_
  have hwithin := Decoder.openFrame_within (Decoder.openFrame_yields.2 ⟨length, hlength, rfl⟩)
  simp [Decoder.position, checkedAdd_eq (Nat.le_trans hwithin.2 hsize)]

end Bounded

end Guarded

namespace Frame

open Guarded

variable {g : Guarded α} {d : Decoder α}

/-- A read whose error is reported as the frame has it. -/
def settled (f : Frame) (d : Decoder α) : Decoder α :=
  ⟨fun input p => f.settle (d.run input p)⟩

theorem run_guardedLength (hf : f.Within input) :
    f.guardedLength.run input frames p = some ⟨.ok f.length, p, []⟩ := by
  rw [guardedLength, checkedSub_eq hf.1, run_index, length]

theorem run_guardedOverrun (hf : f.Within input) (consumed position : Nat) :
    (f.guardedOverrun consumed position).run input frames p =
      some ⟨.ok (.bodyOverrun f.length consumed position), p,
        [.fieldOverrun (.bodyOverrun f.length consumed position)]⟩ := by
  simp [guardedOverrun, run_guardedLength hf]

theorem run_guardedPassed (hf : f.Within input) (e : DecodeError) :
    (f.guardedPassed e).run input frames p =
      some ⟨.ok (f.passed e), p, ((f.overrun? e).map Event.fieldOverrun).toList⟩ := by
  unfold guardedPassed passed overrun?
  cases reach e with
  | none => rfl
  | some reached =>
    dsimp only
    split
    · rfl
    · exact run_guardedOverrun hf _ _

section Open

/-! Among the frames in which a reader stands, a frame lies within the input and begins no later
than there, so that neither its length nor what is consumed of it is less than nothing. -/

variable (hf : f ∈ frames)
include hf

theorem follows_bounds : Follows input frames f.guardedBounds f.checkBounds := by
  refine ⟨fun p hp => ?_, Decoder.advances_of_stays (f.checkBounds_position input)⟩
  obtain ⟨hstart, hwithin⟩ := hp.2 f hf
  by_cases hpast : f.stop < p
  · simp [guardedBounds, checkBounds, hpast, guardedConsumed, consumed, checkedSub_eq hstart,
      run_guardedOverrun hwithin]
  · simp [guardedBounds, checkBounds, hpast]

theorem follows_settle (hg : Follows input frames g d) :
    Follows input frames (f.guardedSettle g) (f.settled d) := by
  refine ⟨fun p hp => ?_, fun p hp => f.onward_settle (hg.advances p hp)⟩
  have hwithin := (hp.2 f hf).2
  simp only [guardedSettle, hg.outcome p hp, Option.bind_some, settled, settle]
  obtain ⟨e | a, q, events⟩ := d.run input p
  · simp only [run_guardedPassed hwithin, passed]
    cases f.overrun? e <;> simp [Except.bind]
  · rfl

theorem follows_enter : Follows input frames f.guardedEnter f.enter := by
  refine (follows_bounds hf).bind fun _ => follows_position.bind fun q => ?_
  split
  · refine ⟨fun p hp => ?_, Decoder.advances_of_stays fun _ => rfl⟩
    simp [run_guardedLength (hp.2 f hf).2, Decoder.log]
  · exact follows_pure true

theorem follows_reading (hg : Follows input frames g d) :
    Follows input frames (f.guardedReading g) (f.reading d) :=
  (follows_settle hf hg).bind fun a => (follows_bounds hf).bind fun _ => follows_pure a

theorem follows_field (hg : Follows input frames g d) :
    Follows input frames (f.guardedField g) (f.field d) := by
  refine .operation ((follows_enter hf).bind fun entered => ?_)
  cases entered with
  | false => exact follows_pure none
  | true => exact (follows_reading hf hg).map _

theorem follows_fieldOrDefault (default : α) (hg : Follows input frames g d) :
    Follows input frames (f.guardedFieldOrDefault default g) (f.fieldOrDefault default d) :=
  (follows_field hf hg).map _

theorem follows_nextIndex (hsize : input.bytes.length ≤ maxIndex) :
    Follows input frames f.guardedNextIndex f.nextIndex := by
  refine .operation ((follows_field hf (follows_byte hsize)).bind fun o => ?_)
  rcases o with _ | index
  · exact follows_pure none
  · by_cases hzero : index = 0
    · subst hzero
      exact follows_pure none
    · simpa [hzero] using follows_pure (some index)

theorem follows_finish (hwithin : f.Within input) :
    Follows input frames f.guardedFinish f.finish := by
  refine .operation ⟨fun p hp => ?_, advances_finish hwithin⟩
  refine bind_outcome ((follows_bounds hf).outcome p hp) fun _ q hq => ?_
  refine bind_outcome (d := .position) rfl fun position r hposition => ?_
  by_cases hunread : 0 < f.remaining position
  · simp [hunread, run_guardedLength hwithin, Decoder.log, seek, Decoder.seek, hwithin.2]
  · simp [hunread, seek, Decoder.seek, hwithin.2]

end Open

section Walk

variable {gknown : UInt8 → Option (Guarded α)} {known : UInt8 → Option (Decoder α)}

/-- The same indices are known, and what is read there follows. -/
def Alike (input : Input) (frames : List Frame) (gknown : UInt8 → Option (Guarded α))
    (known : UInt8 → Option (Decoder α)) : Prop :=
  ∀ i, Option.Rel (Follows input frames) (gknown i) (known i)

variable (hf : f ∈ frames) (hsize : input.bytes.length ≤ maxIndex)
  (hknown : Alike input frames gknown known)
include hf hsize hknown

theorem follows_walked (fuel : Nat) :
    Follows input frames (f.guardedRounds gknown fuel) (f.walked known fuel) := by
  induction fuel with
  | zero => exact follows_pure []
  | succ fuel ih =>
    rw [walked_succ]
    refine (follows_nextIndex hf hsize).bind fun index => ?_
    rcases index with _ | i
    · exact follows_pure []
    · rw [Option.bind_some, Option.bind_some]
      have hi := hknown i
      generalize gknown i = g? at hi ⊢
      generalize known i = d? at hi ⊢
      cases hi with
      | none => exact follows_pure []
      | some hg => exact hg.bind fun a => ih.map _

theorem follows_fields : Follows input frames (f.guardedFields gknown) (f.indexedFields known) := by
  have hwalked := follows_walked hf hsize hknown
  refine ⟨fun p hp => ?_, fun p hp => (hwalked _).advances p hp⟩
  have hwalk := follows_position.bind fun q => hwalked (f.remaining q + 1)
  exact hwalk.outcome p hp

end Walk
end Frame

section Message

open Guarded

variable (hsize : input.bytes.length ≤ maxIndex)
include hsize

/-- Behind the length of a message a reader stands in its frame, too. -/
theorem Guarded.follows_opened {gnext : Frame → Guarded α} {next : Frame → Decoder α}
    (hnext : ∀ f, f.Within input → Follows input (f :: frames) (gnext f) (next f)) :
    Follows input frames (do let f ← openFrame; inside f (gnext f))
      (do let f ← Decoder.openFrame; next f) where
  outcome p hp := by
    refine bind_outcome ((follows_openFrame hsize).outcome p hp) fun f q hopen => ?_
    have hq := hp.after Decoder.advances_openFrame hopen
    have hwithin := Decoder.openFrame_within hopen
    obtain ⟨n, -, rfl⟩ := Decoder.openFrame_yields.1 hopen
    exact (hnext _ hwithin).outcome q (hq.cons (Nat.le_refl q) hwithin)
  advances := Decoder.advances_openFrame.bind_of_yields fun _ f _ hopen =>
    (hnext f (Decoder.openFrame_within hopen)).advances

theorem Guarded.follows_message {gbody : Frame → Guarded α} {body : Frame → Decoder α}
    (hbody : ∀ f, Follows input (f :: frames) (gbody f) (body f)) :
    Follows input frames (message gbody) (.message body) := by
  refine .operation (follows_opened hsize fun f hwithin => ?_)
  have hsettle := Frame.follows_settle List.mem_cons_self (hbody f)
  exact hsettle.bind fun a =>
    (Frame.follows_finish List.mem_cons_self hwithin).bind fun _ => follows_pure a

end Message

end WireFormat
