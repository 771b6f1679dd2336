import WireFormat.Proofs.FixedWidth
import WireFormat.Proofs.Phases

/-! The loop over indexed fields, with no bound on its rounds. Every round takes a byte of the body
for its index and no read of a field gives bytes back, so that there are at most as many rounds as
the body has bytes left; the walk, whose rounds are bounded, is never cut short. -/
namespace WireFormat

variable {α β : Type} {input : Input} {p q : Nat}

namespace Frame

variable {f : Frame} {known : UInt8 → Option (Decoder α)}

/-- The loop as it stands: while there is an index, read the field that it announces, and stop where
it is not known. From a position it goes so many times into its body, and this is what it has read
and how it ended. -/
inductive Loops (f : Frame) (known : UInt8 → Option (Decoder α)) (input : Input) :
    Nat → Nat → Walk α → Prop
  /-- There is no index, or it cannot be read. -/
  | ended {p : Nat} (hnext : ∀ i q, ¬ (f.nextIndex.run input p).Yields (some i) q) :
      Loops f known input p 0 ⟨[], (f.nextIndex.run input p).forget⟩
  /-- The index is not known. -/
  | unknown {p q : Nat} {i : UInt8} (hnext : (f.nextIndex.run input p).Yields (some i) q)
      (hknown : known i = none) :
      Loops f known input p 1 ⟨[], (f.nextIndex.run input p).forget⟩
  /-- The field cannot be read. -/
  | failed {p q : Nat} {i : UInt8} {d : Decoder α} {e : DecodeError}
      (hnext : (f.nextIndex.run input p).Yields (some i) q) (hknown : known i = some d)
      (hread : (d.run input q).Fails e) :
      Loops f known input p 1
        ⟨[], (f.nextIndex.run input p).andThen fun _ _ => (d.run input q).forget⟩
  /-- The field is read, and the loop goes on behind it. -/
  | again {p q r n : Nat} {i : UInt8} {d : Decoder α} {a : α} {rest : Walk α}
      (hnext : (f.nextIndex.run input p).Yields (some i) q) (hknown : known i = some d)
      (hread : (d.run input q).Yields a r) (hrest : Loops f known input r n rest) :
      Loops f known input p (n + 1)
        ⟨a :: rest.read, (f.nextIndex.run input p).andThen fun _ _ =>
          (d.run input q).andThen fun _ _ => rest.ending⟩

/-- An index is a byte of the body that is not zero. -/
theorem nextIndex_yields_some {i : UInt8} :
    (f.nextIndex.run input p).Yields (some i) q ↔
      p < f.stop ∧ input.bytes[p]? = some i ∧ i ≠ 0 ∧ p + 1 = q := by
  rw [nextIndex_eq, Decoder.map_yields]
  constructor
  · intro h
    obtain ⟨o, ho, hi⟩ := h
    obtain ⟨rfl, hzero⟩ := Option.filter_eq_some_iff.1 hi
    rcases f.field_yields.1 ho with ⟨-, hnone, -⟩ | ⟨hp, b, hb, hread, -⟩
    · cases hnone
    · obtain rfl := Option.some.inj hb
      obtain ⟨hget, hq⟩ := Decoder.byte_yields.1 hread
      exact ⟨hp, hget, by simpa using hzero, hq⟩
  · intro h
    obtain ⟨hp, hget, hzero, rfl⟩ := h
    have hread : (Decoder.byte.run input p).Yields i (p + 1) := Decoder.byte_yields.2 ⟨hget, rfl⟩
    refine ⟨some i, f.field_yields.2 (.inr ⟨hp, i, rfl, hread, hp⟩), ?_⟩
    exact Option.filter_eq_some_iff.2 ⟨rfl, by simpa using hzero⟩

theorem remaining_lt_of_nextIndex {i : UInt8}
    (h : (f.nextIndex.run input p).Yields (some i) q) : f.remaining q < f.remaining p := by
  obtain ⟨hp, -, -, rfl⟩ := nextIndex_yields_some.1 h
  unfold remaining
  omega

theorem le_length_of_nextIndex {i : UInt8} (h : (f.nextIndex.run input p).Yields (some i) q) :
    q ≤ input.bytes.length := by
  obtain ⟨-, hget, -, rfl⟩ := nextIndex_yields_some.1 h
  exact (List.getElem?_eq_some_iff.1 hget).1

theorem remaining_le_of_advances {d : Decoder α} (hd : d.Advances input)
    (hq : q ≤ input.bytes.length) : f.remaining (d.run input q).position ≤ f.remaining q :=
  Nat.sub_le_sub_left (hd q hq).1 f.stop

/-- A round that goes on: an index that is known, and its field, from `p` to `r`. -/
def Round (f : Frame) (known : UInt8 → Option (Decoder α)) (input : Input) (p r : Nat) : Prop :=
  ∃ i q d a, (f.nextIndex.run input p).Yields (some i) q ∧ known i = some d ∧
    (d.run input q).Yields a r

section Rounds

variable {n r : Nat} {w : Walk α} (hknown : ∀ i d, known i = some d → d.Advances input)

include hknown

theorem Round.remaining_lt (h : f.Round known input p r) : f.remaining r < f.remaining p := by
  obtain ⟨i, q, d, a, hnext, hi, -, rfl⟩ := h
  have hindex := remaining_lt_of_nextIndex hnext
  have hfield := remaining_le_of_advances (f := f) (hknown i d hi) (le_length_of_nextIndex hnext)
  exact Nat.lt_of_le_of_lt hfield hindex

/-- No loop goes round for ever, for what is left of the body becomes less each time. -/
theorem wellFounded_round : WellFounded fun r p => f.Round known input p r :=
  Subrelation.wf (fun h => h.remaining_lt hknown) (measure f.remaining).wf

/-- The loop ends, wherever the reader stands. -/
theorem exists_loops (p : Nat) : ∃ n w, f.Loops known input p n w := by
  induction p using (wellFounded_round hknown (f := f)).induction with
  | _ p ih =>
    by_cases hindex : ∃ i q, (f.nextIndex.run input p).Yields (some i) q
    · obtain ⟨i, q, hnext⟩ := hindex
      cases hi : known i with
      | none => exact ⟨1, _, .unknown hnext hi⟩
      | some d =>
        rcases (d.run input q).yields_or_fails with ⟨a, hread⟩ | ⟨e, hread⟩
        · obtain ⟨n, w, hrest⟩ := ih _ ⟨i, q, d, a, hnext, hi, hread⟩
          exact ⟨n + 1, _, .again hnext hi hread hrest⟩
        · exact ⟨1, _, .failed hnext hi hread⟩
    · exact ⟨0, _, .ended fun i q hnext => hindex ⟨i, q, hnext⟩⟩

theorem Loops.le_remaining (h : f.Loops known input p n w) : n ≤ f.remaining p := by
  induction h with
  | ended _ => exact Nat.zero_le _
  | unknown hnext _ | failed hnext _ _ => exact Nat.zero_lt_of_lt (remaining_lt_of_nextIndex hnext)
  | again hnext hi hread _ ih =>
    have hround := Round.remaining_lt hknown ⟨_, _, _, _, hnext, hi, hread⟩
    exact Nat.lt_of_le_of_lt ih hround

end Rounds

theorem Walk.after_of_yields {s : Step β} {b : β} (h : s.Yields b q) (next : β → Nat → Walk α) :
    after s next = ⟨(next b q).read, s.andThen fun _ _ => (next b q).ending⟩ := by
  obtain ⟨hresult, rfl⟩ := h
  simp only [after, hresult]

theorem Walk.after_of_fails {s : Step β} {e : DecodeError} (h : s.Fails e)
    (next : β → Nat → Walk α) : after s next = ⟨[], s.forget⟩ := by
  rw [Step.forget, Step.andThen_of_fails h]
  unfold Step.Fails at h
  simp only [after, h]

theorem Walk.cons_of_yields {s : Step α} {a : α} (h : s.Yields a q) (rest : Nat → Walk α) :
    cons s rest = ⟨a :: (rest q).read, s.andThen fun _ _ => (rest q).ending⟩ := by
  obtain ⟨hresult, rfl⟩ := h
  simp only [cons, hresult]

theorem Walk.cons_of_fails {s : Step α} {e : DecodeError} (h : s.Fails e)
    (rest : Nat → Walk α) : cons s rest = ⟨[], s.forget⟩ := by
  rw [Step.forget, Step.andThen_of_fails h]
  unfold Step.Fails at h
  simp only [cons, h]

theorem Walk.after_of_stop {s : Step β} {b : β} (h : s.Yields b q) {next : β → Nat → Walk α}
    (hstop : next b q = .stop q) : after s next = ⟨[], s.forget⟩ := by
  rw [after_of_yields h, hstop]
  obtain ⟨-, rfl⟩ := h
  obtain ⟨_ | _, _, _⟩ := s <;> rfl

/-- With a round more than the loop takes, the walk ends as the loop does. -/
theorem Loops.walkUpTo_eq {n fuel : Nat} {w : Walk α} (h : f.Loops known input p n w)
    (hfuel : n < fuel) : f.walkUpTo known input fuel p = w := by
  induction h generalizing fuel with
  | @ended p hnext =>
    obtain ⟨fuel, rfl⟩ := Nat.exists_eq_add_of_lt hfuel
    rw [walkUpTo]
    rcases (f.nextIndex.run input p).yields_or_fails with ⟨_ | i, hnone⟩ | ⟨e, he⟩
    · exact Walk.after_of_stop hnone rfl
    · exact absurd hnone (hnext i _)
    · exact Walk.after_of_fails he _
  | unknown hnext hi =>
    obtain ⟨fuel, rfl⟩ := Nat.exists_eq_add_of_lt hfuel
    refine Walk.after_of_stop hnext ?_
    simp only [Option.bind_some, hi]
  | failed hnext hi hread =>
    obtain ⟨fuel, rfl⟩ := Nat.exists_eq_add_of_lt hfuel
    rw [walkUpTo, Walk.after_of_yields hnext]
    simp only [Option.bind_some, hi, Walk.cons_of_fails hread]
  | again hnext hi hread _ ih =>
    obtain ⟨fuel, rfl⟩ := Nat.exists_eq_add_of_lt hfuel
    rw [walkUpTo, Walk.after_of_yields hnext]
    simp only [Option.bind_some, hi, Walk.cons_of_yields hread]
    rw [ih (by omega)]

/-- Where no index is read the loop is over, and that is the only way for it to go. -/
theorem loops_iff_of_no_index {s : Step (Option UInt8)} {n : Nat} {w : Walk α}
    (hrun : f.nextIndex.run input p = s) (hindex : ∀ i q, ¬ s.Yields (some i) q) :
    f.Loops known input p n w ↔ n = 0 ∧ w = ⟨[], s.forget⟩ := by
  subst hrun
  constructor
  · intro h
    cases h with
    | ended _ => exact ⟨rfl, rfl⟩
    | unknown hnext _ | failed hnext _ _ | again hnext _ _ _ => exact absurd hnext (hindex _ _)
  · intro h
    obtain ⟨rfl, rfl⟩ := h
    exact .ended hindex

/-- How the loop over the known fields of a frame goes, wherever the reader stands. -/
structure LoopEnds (f : Frame) (known : UInt8 → Option (Decoder α)) (input : Input) : Prop where
  /-- There are no endless rounds. -/
  rounds : WellFounded fun r p => f.Round known input p r
  /-- The loop ends, and the walk that bounds its rounds is what it reads and how it ends. -/
  ends : ∀ p, ∃ n, f.Loops known input p n (f.walk known input p)
  /-- There is no other way for it to go, and it goes into its body no more often than the frame
  has bytes left. -/
  bounded : ∀ p n w, f.Loops known input p n w → n ≤ f.remaining p ∧ w = f.walk known input p
  /-- Every index takes away from what is left. -/
  index : ∀ p i q, (f.nextIndex.run input p).Yields (some i) q → f.remaining q < f.remaining p
  /-- No read of a field adds to what is left, even if it fails. -/
  fields : ∀ i d, known i = some d → ∀ q, q ≤ input.bytes.length →
    f.remaining (d.run input q).position ≤ f.remaining q
  /-- An exhausted frame ends the loop before its body, and without an error. -/
  exhausted : ∀ p, f.phase p = .exhausted → ∀ n w,
    f.Loops known input p n w ↔ n = 0 ∧ w = ⟨[], f.absence () p⟩
  /-- An overrun frame ends it before its body, with the error. -/
  overrun : ∀ p, f.phase p = .overrun → ∀ n w,
    f.Loops known input p n w ↔ n = 0 ∧ w = ⟨[], f.refusal p⟩

theorem loopEnds_of_advances (hknown : ∀ i d, known i = some d → d.Advances input) :
    f.LoopEnds known input where
  rounds := wellFounded_round hknown
  ends p := by
    obtain ⟨n, w, h⟩ := exists_loops (f := f) hknown p
    have hn := h.le_remaining hknown
    have hw : f.walk known input p = w := h.walkUpTo_eq (Nat.lt_succ_of_le hn)
    exact ⟨n, hw ▸ h⟩
  bounded p n w h := by
    have hn := h.le_remaining hknown
    exact ⟨hn, (h.walkUpTo_eq (Nat.lt_succ_of_le hn)).symm⟩
  index p i q h := remaining_lt_of_nextIndex h
  fields i d hi q hq := remaining_le_of_advances (hknown i d hi) hq
  exhausted p hphase n w := by
    have hrun : f.nextIndex.run input p = f.absence none p :=
      run_nextIndex_exhausted (phase_eq_exhausted.1 hphase)
    exact loops_iff_of_no_index hrun (by simp [absence])
  overrun p hphase n w := by
    have hrun : f.nextIndex.run input p = f.refusal p :=
      run_nextIndex_overrun (phase_eq_overrun.1 hphase)
    exact loops_iff_of_no_index hrun (by simp [refusal])

/-- The loop over indexed fields ends on every input and in every frame, whatever its body holds:
with the fields of any table, read as fields of the frame or straight from the reader, and with
those of any indexed message. -/
theorem indexedLoop_ends (f : Frame) (input : Input) :
    (∀ table checked, f.LoopEnds (tableFields f table checked) input) ∧
    ∀ fields : List Schema,
      f.LoopEnds (fun i => (Schema.decodeIndexed fields (i.toNat - 1)).map (· f)) input := by
  refine ⟨fun table checked => ?_, fun fields => ?_⟩
  · exact loopEnds_of_advances fun i d hd => advances_tableFields hd
  · refine loopEnds_of_advances fun i d hd => ?_
    obtain ⟨read, hread, rfl⟩ := Option.map_eq_some_iff.1 hd
    have hadvances := (Decoder.compositional_advances input).decodeIndexed
      (fun s _ => s.advances_decode) hread
    exact hadvances f

end Frame
end WireFormat
