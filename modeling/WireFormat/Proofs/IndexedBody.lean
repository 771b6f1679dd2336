import WireFormat.Program.Run
import WireFormat.Proofs.IsolatedBody

/-! The indexed bodies that a reader accepts, as a grammar over their bytes, and what the reader
makes of each. Between its index bytes a body holds what plain reads of the fields accept; five
endings are possible, and every other body is refused. -/
namespace WireFormat

variable {limits : ReadLimits} {w body : List UInt8} {left fuel : Nat}
  {known : UInt8 → Option Schema} {read : List IndexedField}

/-- The bodies that are accepted by a reader with these known indices, each with the fields that
are read from it. -/
inductive IndexedBody (known : UInt8 → Option Schema) : List UInt8 → List IndexedField → Prop
  /-- The body stops without an index. -/
  | nothing : IndexedBody known [] []
  /-- The terminating zero, and whatever stands behind it. -/
  | terminated (junk : List UInt8) : IndexedBody known (0 :: junk) []
  /-- An index that is not known, and whatever stands behind it. -/
  | unknown {i : UInt8} (hi : i ≠ 0) (hknown : known i = none) (junk : List UInt8) :
      IndexedBody known (i :: junk) []
  /-- A known index as the last byte: its field is absent. -/
  | absent {i : UInt8} {s : Schema} (hi : i ≠ 0) (hknown : known i = some s) :
      IndexedBody known [i] [⟨i, s, none⟩]
  /-- A known index and bytes that are exactly a value of its schema. -/
  | field {i : UInt8} {s : Schema} {v : s.Val} {bytes rest : List UInt8}
      {read : List IndexedField} (hi : i ≠ 0) (hknown : known i = some s)
      (hvalue : s.decode.readFrom bytes = .ok (v, [])) (hrest : IndexedBody known rest read) :
      IndexedBody known (i :: (bytes ++ rest)) (⟨i, s, some v⟩ :: read)

/-- The reads of the known fields, each of which also tells what it read. -/
def tableReads (known : UInt8 → Option Schema) (i : UInt8) :
    Option (Frame → Decoder IndexedField) :=
  (known i).map fun s f => do return ⟨i, s, ← f.field s.decode⟩

theorem tableReads_eq {i : UInt8} {s : Schema} (h : known i = some s) :
    tableReads known i = some fun f => do return ⟨i, s, ← f.field s.decode⟩ := by
  rw [tableReads, h, Option.map_some]

theorem readsWithin_tableReads_iff {s : Schema} {i : UInt8} {e : IndexedField} :
    ReadsWithin (fun f => do return (⟨i, s, ← f.field s.decode⟩ : IndexedField)) limits w left e ↔
      ∃ o, ReadsWithin (fun f => f.field s.decode) limits w left o ∧ ⟨i, s, o⟩ = e :=
  readsWithin_map_iff (localWithin_field s.local_decode)

theorem localWithin_tableReads (i : UInt8) (read : Frame → Decoder IndexedField)
    (hread : tableReads known i = some read) : LocalWithin read := by
  obtain ⟨s, -, rfl⟩ := Option.map_eq_some_iff.1 hread
  exact (localWithin_field s.local_decode).map _

theorem tableFields_checked (f : Frame) (table : List (UInt8 × Schema)) :
    tableFields f table true = fun i => (tableReads (fun i => table.lookup i) i).map (· f) := by
  funext i
  simp only [tableFields, tableReads]
  cases table.lookup i with
  | none => rfl
  | some s => rfl

theorem Decoder.Local.readFrom_nil_iff {α : Type} {d : Decoder α} (hd : d.Local) {a : α} :
    d.readFrom w = .ok (a, []) ↔ d.Reads .unbounded w a := by
  rw [hd.readFrom_iff]
  constructor
  · intro h
    obtain ⟨u, rfl, hu⟩ := h
    rwa [List.append_nil]
  · intro h
    exact ⟨w, (List.append_nil w).symm, h⟩

theorem rounds_succ_iff :
    ReadsWithin (Frame.rounds (tableReads known) (fuel + 1)) limits w left read ↔
      (w = [] ∧ left = 0 ∧ read = []) ∨
      (∃ i, (i = 0 ∨ known i = none) ∧ w = [i] ∧ read = []) ∨
      ∃ i s u v o rest, i ≠ 0 ∧ known i = some s ∧ w = i :: (u ++ v) ∧ read = ⟨i, s, o⟩ :: rest ∧
        ReadsWithin (fun f => f.field s.decode) limits u (v.length + left) o ∧
        ReadsWithin (Frame.rounds (tableReads known) fuel) limits v left rest := by
  rw [readsWithin_rounds_succ_iff localWithin_tableReads]
  refine or_congr Iff.rfl (or_congr ?_ ?_)
  · simp only [tableReads, Option.map_eq_none_iff]
  constructor
  · intro h
    obtain ⟨i, readField, u, v, e, rest, hi, hread, hw, hvalues, he, hrest⟩ := h
    obtain ⟨s, hs, rfl⟩ := Option.map_eq_some_iff.1 hread
    obtain ⟨o, ho, rfl⟩ := readsWithin_tableReads_iff.1 he
    exact ⟨i, s, u, v, o, rest, hi, hs, hw, hvalues, ho, hrest⟩
  · intro h
    obtain ⟨i, s, u, v, o, rest, hi, hs, hw, hvalues, ho, hrest⟩ := h
    refine ⟨i, _, u, v, _, rest, hi, tableReads_eq hs, hw, hvalues, ?_, hrest⟩
    exact readsWithin_tableReads_iff.2 ⟨o, ho, rfl⟩

theorem IndexedBody.readsWithin (h : IndexedBody known body read) (hfuel : body.length ≤ fuel) :
    ∃ w unread, body = w ++ unread ∧
      ReadsWithin (Frame.rounds (tableReads known) (fuel + 1)) .unbounded w unread.length read := by
  induction h generalizing fuel with
  | nothing => exact ⟨[], [], rfl, rounds_succ_iff.2 (.inl ⟨rfl, rfl, rfl⟩)⟩
  | terminated junk =>
    exact ⟨[0], junk, rfl, rounds_succ_iff.2 (.inr (.inl ⟨0, .inl rfl, rfl, rfl⟩))⟩
  | @unknown i hi hknown junk =>
    exact ⟨[i], junk, rfl, rounds_succ_iff.2 (.inr (.inl ⟨i, .inr hknown, rfl, rfl⟩))⟩
  | @absent i s hi hknown =>
    have habsent : ReadsWithin (fun f => f.field s.decode) .unbounded [] 0 none :=
      (readsWithin_field_iff s.local_decode).2 (.inl ⟨rfl, rfl, rfl⟩)
    obtain ⟨fuel, rfl⟩ := Nat.exists_eq_succ_of_ne_zero (Nat.ne_of_gt hfuel)
    have hend : ReadsWithin (Frame.rounds (tableReads known) (fuel + 1)) .unbounded [] 0 [] :=
      rounds_succ_iff.2 (.inl ⟨rfl, rfl, rfl⟩)
    exact ⟨[i], [], rfl, rounds_succ_iff.2
      (.inr (.inr ⟨i, s, [], [], none, [], hi, hknown, rfl, rfl, habsent, hend⟩))⟩
  | @field i s v bytes rest read hi hknown hvalue hrest ih =>
    have hreads := s.local_decode.readFrom_nil_iff.1 hvalue
    have hpos := hreads.length_pos s.needsByte_decode
    rw [List.length_cons, List.length_append] at hfuel
    obtain ⟨fuel, rfl⟩ := Nat.exists_eq_succ_of_ne_zero (by omega : fuel ≠ 0)
    obtain ⟨w, unread, rfl, hw⟩ := ih (by omega : rest.length ≤ fuel)
    have hfield : ReadsWithin (fun f => f.field s.decode) .unbounded bytes
        (w.length + unread.length) (some v) :=
      (readsWithin_field_iff s.local_decode).2 (.inr ⟨by omega, v, rfl, hreads⟩)
    refine ⟨i :: (bytes ++ w), unread, by simp, rounds_succ_iff.2 (.inr (.inr ?_))⟩
    exact ⟨i, s, bytes, w, some v, read, hi, hknown, rfl, rfl, hfield, hw⟩

theorem indexedBody_of_readsWithin {unread : List UInt8} (hfuel : (w ++ unread).length < fuel)
    (h : ReadsWithin (Frame.rounds (tableReads known) fuel) .unbounded w unread.length read) :
    IndexedBody known (w ++ unread) read := by
  induction fuel generalizing w read with
  | zero => exact absurd hfuel (Nat.not_lt_zero _)
  | succ fuel ih =>
    rcases rounds_succ_iff.1 h with ⟨rfl, hunread, rfl⟩ | ⟨i, hi, rfl, rfl⟩ |
      ⟨i, s, u, v, o, rest, hi, hs, rfl, rfl, ho, hrest⟩
    · rw [List.eq_nil_of_length_eq_zero hunread]
      exact .nothing
    · by_cases hzero : i = 0
      · subst hzero
        exact .terminated unread
      · exact .unknown hzero (hi.resolve_left hzero) unread
    simp only [List.length_append, List.length_cons] at hfuel
    have hbody := ih (by rw [List.length_append]; omega) hrest
    rcases (readsWithin_field_iff s.local_decode).1 ho with ⟨rfl, hend, rfl⟩ | ⟨-, x, rfl, hx⟩
    · -- Behind its index the body is at its end, so that no other round reads anything.
      obtain rfl : v = [] := List.eq_nil_of_length_eq_zero (by omega)
      obtain rfl : unread = [] := List.eq_nil_of_length_eq_zero (by omega)
      cases hbody
      exact .absent hi hs
    · have hvalue := s.local_decode.readFrom_nil_iff.2 hx
      have hfield := IndexedBody.field hi hs hvalue hbody
      simpa using hfield

/-- A walk over a framed body by a table of known indices succeeds exactly on the bodies of the
grammar, reads their fields, and leaves exactly what stands behind the frame. -/
theorem walk_readFrom_iff (table : List (UInt8 × Schema)) (hfits : Schema.FitsWord body.length)
    (rest left : List UInt8) :
    (Decoder.message fun f => f.indexedFields (tableFields f table true)).readFrom
        (Schema.framed body ++ rest) = .ok (read, left) ↔
      left = rest ∧ IndexedBody (fun i => table.lookup i) body read := by
  simp only [tableFields_checked]
  rw [Decoder.message_readFrom_iff (localWithin_indexedFields localWithin_tableReads) hfits]
  refine and_congr_right fun _ => ?_
  simp only [readsWithin_indexedFields_iff]
  constructor
  · intro h
    obtain ⟨w, unread, rfl, hw⟩ := h
    rw [← List.length_append] at hw
    exact indexedBody_of_readsWithin (Nat.lt_succ_self _) hw
  · intro h
    obtain ⟨w, unread, rfl, hw⟩ := h.readsWithin (Nat.le_refl _)
    rw [List.length_append] at hw
    exact ⟨w, unread, rfl, hw⟩

end WireFormat
