import WireFormat.Proofs.Locality

/-! Walks over indexed fields, told as one read: an index, its field, and again the same, until
an index ends the walk. -/
namespace WireFormat

variable {α β : Type} {limits : ReadLimits} {w : List UInt8} {left : Nat}

theorem Step.andThen_assoc {γ : Type} (s : Step α) (next : α → Nat → Step β)
    (last : β → Nat → Step γ) :
    (s.andThen next).andThen last = s.andThen fun a position => (next a position).andThen last := by
  obtain ⟨_ | a, q, _⟩ := s
  · rfl
  · rw [andThen_ok, andThen_ok]
    obtain ⟨_ | _, _, _⟩ := next a q <;> simp

namespace Frame

/-- The index that a byte announces; zero announces none. -/
def announced (o : Option UInt8) : Option UInt8 := o.filter (· ≠ 0)

theorem nextIndex_eq (f : Frame) :
    f.nextIndex = (do return announced (← f.field Decoder.byte)) := by
  refine congrArg (Decoder.bind (f.field Decoder.byte)) (funext fun o => ?_)
  match o with
  | none => rfl
  | some i =>
    by_cases hi : i = 0
    · subst hi
      rfl
    · simp [announced, Option.filter, hi]

/-- A walk of at most so many rounds. -/
def rounds (known : UInt8 → Option (Frame → Decoder α)) : Nat → Frame → Decoder (List α)
  | 0, _ => pure []
  | fuel + 1, f => do
      match (← f.nextIndex).bind known with
      | none => return []
      | some read =>
          let a ← read f
          return a :: (← rounds known fuel f)

/-- The outcome of a walk whose values are wanted only when it ended well. -/
def Walk.outcome (w : Walk α) : Step (List α) :=
  w.ending.andThen fun _ position => ⟨.ok w.read, position, []⟩

theorem Walk.outcome_after (s : Step β) (next : β → Nat → Walk α) :
    (after s next).outcome = s.andThen fun b position => (next b position).outcome := by
  obtain ⟨_ | b, q, events⟩ := s
  · rfl
  · exact Step.andThen_assoc ⟨.ok b, q, events⟩ (fun _ _ => (next b q).ending) _

theorem Walk.outcome_cons (s : Step α) (rest : Nat → Walk α) :
    (cons s rest).outcome = s.andThen fun a position =>
      (rest position).outcome.andThen fun as position => ⟨.ok (a :: as), position, []⟩ := by
  obtain ⟨_ | a, q, events⟩ := s
  · rfl
  · refine (Step.andThen_assoc ⟨.ok a, q, events⟩ (fun _ _ => (rest q).ending) _).trans ?_
    simp only [Step.andThen_ok, outcome, Step.andThen_assoc]
    rfl

/-- A walk of at most so many rounds, as a read. -/
def walked (f : Frame) (table : UInt8 → Option (Decoder α)) (fuel : Nat) : Decoder (List α) :=
  ⟨fun input p => (f.walkUpTo table input fuel p).outcome⟩

theorem walked_succ (f : Frame) (table : UInt8 → Option (Decoder α)) (fuel : Nat) :
    f.walked table (fuel + 1) = do
      match (← f.nextIndex).bind table with
      | none => return []
      | some d =>
          let a ← d
          return a :: (← f.walked table fuel) := by
  refine congrArg Decoder.mk (funext fun input => funext fun p => ?_)
  refine (Walk.outcome_after _ _).trans ?_
  refine congrArg (Step.andThen _) (funext fun index => funext fun q => ?_)
  dsimp only
  cases index.bind table with
  | none => rfl
  | some d => exact Walk.outcome_cons _ _

variable {known : UInt8 → Option (Frame → Decoder α)} {f : Frame} {input : Input} {p : Nat}

theorem walked_eq_rounds (fuel : Nat) :
    f.walked (fun i => (known i).map (· f)) fuel = rounds known fuel f := by
  induction fuel with
  | zero => rfl
  | succ fuel ih =>
    rw [walked_succ, rounds, ih]
    refine congrArg (f.nextIndex >>= ·) (funext fun index => ?_)
    rcases index with _ | i
    · rfl
    · rw [Option.bind_some, Option.bind_some]
      cases known i <;> rfl

theorem run_indexedFields :
    (f.indexedFields fun i => (known i).map (· f)).run input p =
      (rounds known (f.remaining p + 1) f).run input p := by
  rw [← walked_eq_rounds]
  rfl

end Frame

theorem localWithin_nextIndex : LocalWithin Frame.nextIndex := by
  simp only [funext Frame.nextIndex_eq]
  exact (localWithin_field Decoder.local_byte).map _

theorem localWithin_rounds {known : UInt8 → Option (Frame → Decoder α)}
    (hknown : ∀ i read, known i = some read → LocalWithin read) (fuel : Nat) :
    LocalWithin (Frame.rounds known fuel) := by
  induction fuel with
  | zero => exact localWithin_pure []
  | succ fuel ih =>
    refine localWithin_nextIndex.bind fun index => ?_
    cases hread : index.bind known with
    | none => exact localWithin_pure []
    | some read =>
      obtain ⟨i, -, hi⟩ := Option.bind_eq_some_iff.1 hread
      exact (hknown i read hi).bind fun a => ih.map _

/-- The rounds of a walk are as many as the bytes that the body has left, and one more. -/
theorem readsWithin_indexedFields_iff {known : UInt8 → Option (Frame → Decoder α)}
    {values : List α} :
    ReadsWithin (fun f => f.indexedFields fun i => (known i).map (· f)) limits w left values ↔
      ReadsWithin (Frame.rounds known (w.length + left + 1)) limits w left values := by
  refine forall_congr' fun f => forall_congr' fun front => forall_congr' fun back =>
    imp_congr_right fun hstop => ?_
  rw [Frame.run_indexedFields]
  have hfuel : f.remaining front.length = w.length + left := by
    simp only [Frame.remaining]
    omega
  rw [hfuel]

theorem localWithin_indexedFields_of_rounds {known : UInt8 → Option (Frame → Decoder α)}
    (hrounds : ∀ fuel, LocalWithin (Frame.rounds known fuel)) :
    LocalWithin fun f => f.indexedFields fun i => (known i).map (· f) := by
  intro limits f front rest values q hf h
  rw [Frame.run_indexedFields] at h
  obtain ⟨w, back, left, rfl, rfl, hleft, hw⟩ := hrounds _ _ _ _ _ _ _ hf h
  have hfuel : f.remaining front.length = w.length + left := by
    simp only [Frame.remaining]
    omega
  rw [hfuel] at hw
  exact ⟨w, back, left, rfl, rfl, hleft, readsWithin_indexedFields_iff.2 hw⟩

theorem localWithin_indexedFields {known : UInt8 → Option (Frame → Decoder α)}
    (hknown : ∀ i read, known i = some read → LocalWithin read) :
    LocalWithin fun f => f.indexedFields fun i => (known i).map (· f) :=
  localWithin_indexedFields_of_rounds (localWithin_rounds hknown)

section Rounds

variable {known : UInt8 → Option (Frame → Decoder α)} {fuel : Nat}

namespace Frame

theorem announced_bind (known : UInt8 → Option β) (i : UInt8) :
    (announced (some i)).bind known = if i = 0 then none else known i := by
  by_cases hi : i = 0
  · simp [announced, Option.filter, hi]
  · simp [announced, Option.filter, hi]

end Frame

/-- A byte of the body is an index, or the end; past the last byte there is no index. -/
theorem readsWithin_nextIndex_iff {o : Option UInt8} :
    ReadsWithin Frame.nextIndex limits w left o ↔
      (w = [] ∧ left = 0 ∧ o = none) ∨ ∃ i, w = [i] ∧ o = Frame.announced (some i) := by
  have hfield (o : Option UInt8) : ReadsWithin (fun f => f.field Decoder.byte) limits w left o ↔
      _ := readsWithin_field_iff Decoder.local_byte
  simp only [funext Frame.nextIndex_eq]
  rw [readsWithin_map_iff (localWithin_field Decoder.local_byte)]
  constructor
  · intro h
    obtain ⟨b, hb, rfl⟩ := h
    rcases (hfield b).1 hb with ⟨hw, hleft, rfl⟩ | ⟨-, i, rfl, hi⟩
    · exact .inl ⟨hw, hleft, rfl⟩
    · exact .inr ⟨i, Decoder.reads_byte_iff.1 hi, rfl⟩
  · intro h
    rcases h with ⟨hw, hleft, rfl⟩ | ⟨i, rfl, rfl⟩
    · exact ⟨none, (hfield none).2 (.inl ⟨hw, hleft, rfl⟩), rfl⟩
    · refine ⟨some i, (hfield (some i)).2 (.inr ⟨?_, i, rfl, Decoder.reads_byte_iff.2 rfl⟩), rfl⟩
      rw [List.length_singleton]
      omega

theorem readsWithin_nextIndex (limits : ReadLimits) (i : UInt8) (left : Nat) :
    ReadsWithin Frame.nextIndex limits [i] left (Frame.announced (some i)) :=
  readsWithin_nextIndex_iff.2 (.inr ⟨i, rfl, rfl⟩)

theorem readsWithin_round {i : UInt8} (hi : i ≠ 0) {read : Frame → Decoder α}
    (hknown : known i = some read) {u : List UInt8} {a : α} {values : List α}
    (h : ReadsWithin read limits u (w.length + left) a)
    (hrest : ReadsWithin (Frame.rounds known fuel) limits w left values) :
    ReadsWithin (Frame.rounds known (fuel + 1)) limits (i :: (u ++ w)) left (a :: values) := by
  have hindex : ((Frame.announced (some i)).bind known) = some read := by
    simp [Frame.announced, Option.filter, hi, hknown]
  have hnext := readsWithin_nextIndex limits i ((u ++ w).length + left)
  refine hnext.bind (w := u ++ w) ?_
  simp only [hindex]
  exact h.bind (hrest.map _)

/-- An index that is not known ends the walk behind it; so does the terminating zero. -/
theorem readsWithin_round_unknown {i : UInt8}
    (hknown : (Frame.announced (some i)).bind known = none) :
    ReadsWithin (Frame.rounds known (fuel + 1)) limits [i] left [] := by
  have hnext := readsWithin_nextIndex limits i left
  refine ReadsWithin.bind (u := [i]) (w := []) (by simpa using hnext) ?_
  simp only [hknown]
  exact readsWithin_pure

/-- How a round goes: there is no byte left, or an index that ends the walk, or one with its field
behind it and more rounds. -/
theorem readsWithin_rounds_succ_iff
    (hknown : ∀ i read, known i = some read → LocalWithin read) {values : List α} :
    ReadsWithin (Frame.rounds known (fuel + 1)) limits w left values ↔
      (w = [] ∧ left = 0 ∧ values = []) ∨
      (∃ i, (i = 0 ∨ known i = none) ∧ w = [i] ∧ values = []) ∨
      ∃ i read u v a rest, i ≠ 0 ∧ known i = some read ∧ w = i :: (u ++ v) ∧ values = a :: rest ∧
        ReadsWithin read limits u (v.length + left) a ∧
        ReadsWithin (Frame.rounds known fuel) limits v left rest := by
  constructor
  · intro h
    have hrounds := localWithin_rounds hknown fuel
    have hround : ∀ o : Option UInt8, LocalWithin fun f =>
        match o.bind known with
        | none => pure []
        | some read => do
            let a ← read f
            return a :: (← Frame.rounds known fuel f) := by
      intro o
      cases hread : o.bind known with
      | none => exact localWithin_pure []
      | some read =>
        obtain ⟨i, -, hi⟩ := Option.bind_eq_some_iff.1 hread
        exact (hknown i read hi).bind fun a => hrounds.map _
    obtain ⟨t, v, o, rfl, ho, hv⟩ := (readsWithin_bind_iff localWithin_nextIndex hround).1 h
    rcases readsWithin_nextIndex_iff.1 ho with ⟨rfl, hleft, rfl⟩ | ⟨i, rfl, rfl⟩
    · obtain ⟨rfl, rfl⟩ := readsWithin_pure_iff.1 hv
      exact .inl ⟨rfl, by simpa using hleft, rfl⟩
    simp only [Frame.announced_bind] at hv
    by_cases hi : i = 0
    · rw [if_pos hi] at hv
      obtain ⟨rfl, rfl⟩ := readsWithin_pure_iff.1 hv
      exact .inr (.inl ⟨i, .inl hi, rfl, rfl⟩)
    rw [if_neg hi] at hv
    cases hread : known i with
    | none =>
      rw [hread] at hv
      obtain ⟨rfl, rfl⟩ := readsWithin_pure_iff.1 hv
      exact .inr (.inl ⟨i, .inr hread, rfl, rfl⟩)
    | some read =>
      rw [hread] at hv
      obtain ⟨u, v, a, rfl, ha, hv⟩ :=
        (readsWithin_bind_iff (hknown i read hread) fun a => hrounds.map _).1 hv
      obtain ⟨rest, hrest, rfl⟩ := (readsWithin_map_iff hrounds).1 hv
      exact .inr (.inr ⟨i, read, u, v, a, rest, hi, hread, rfl, rfl, ha, hrest⟩)
  · intro h
    rcases h with ⟨rfl, rfl, rfl⟩ | ⟨i, hi, rfl, rfl⟩ |
      ⟨i, read, u, v, a, rest, hi, hread, rfl, rfl, ha, hrest⟩
    · have hnext : ReadsWithin Frame.nextIndex limits [] 0 none :=
        readsWithin_nextIndex_iff.2 (.inl ⟨rfl, rfl, rfl⟩)
      exact ReadsWithin.bind (u := []) (w := []) hnext readsWithin_pure
    · apply readsWithin_round_unknown
      rw [Frame.announced_bind]
      rcases hi with rfl | hi
      · rfl
      · rw [hi, ite_self]
    · exact readsWithin_round hi hread ha hrest

end Rounds

end WireFormat
