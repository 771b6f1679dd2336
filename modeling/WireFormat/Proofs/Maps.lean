import WireFormat.Map.Arrival
import WireFormat.Map.Sorted

/-! A map built from a list of entries holds, for each key, the last of its entries. So a map is
rebuilt from its own entries, and the order of entries with different keys does not matter. -/
namespace WireFormat

variable {α β : Type}

/-- The last of the entries of a key has this value. -/
def LastValue (es : List (α × β)) (key : α) (value : β) : Prop :=
  ∃ before after, es = before ++ (key, value) :: after ∧ ∀ e ∈ after, e.1 ≠ key

section LastValue

variable {es : List (α × β)} {key : α} {value : β}

theorem not_lastValue_nil : ¬ LastValue ([] : List (α × β)) key value := by
  rintro ⟨before, after, h, -⟩
  simp at h

theorem lastValue_cons {e : α × β} : LastValue (e :: es) key value ↔
    LastValue es key value ∨ e = (key, value) ∧ ∀ e' ∈ es, e'.1 ≠ key := by
  constructor
  · rintro ⟨before, after, h, hafter⟩
    cases before with
    | nil =>
      obtain ⟨rfl, rfl⟩ := List.cons.inj h
      exact .inr ⟨rfl, hafter⟩
    | cons e' before => exact .inl ⟨before, after, (List.cons.inj h).2, hafter⟩
  · rintro (⟨before, after, rfl, hafter⟩ | ⟨rfl, hafter⟩)
    · exact ⟨e :: before, after, rfl, hafter⟩
    · exact ⟨[], es, rfl, hafter⟩

theorem LastValue.mem (h : LastValue es key value) : (key, value) ∈ es := by
  obtain ⟨before, after, rfl, -⟩ := h
  simp

theorem exists_lastValue_iff : (∃ v, LastValue es key v) ↔ key ∈ es.map Prod.fst := by
  constructor
  · rintro ⟨v, h⟩
    exact List.mem_map_of_mem h.mem
  · intro h
    induction es with
    | nil => simp at h
    | cons e es ih =>
      by_cases hes : key ∈ es.map Prod.fst
      · obtain ⟨v, hv⟩ := ih hes
        exact ⟨v, lastValue_cons.2 (.inl hv)⟩
      · obtain rfl : key = e.1 := by simpa [hes] using h
        refine ⟨e.2, lastValue_cons.2 (.inr ⟨rfl, fun e' he' heq => hes ?_⟩)⟩
        exact heq ▸ List.mem_map_of_mem he'

/-- Where no key comes twice, every entry is the last of its key. -/
theorem lastValue_iff_mem (h : es.Pairwise fun a b => a.1 ≠ b.1) :
    LastValue es key value ↔ (key, value) ∈ es := by
  refine ⟨LastValue.mem, fun hmem => ?_⟩
  obtain ⟨before, after, rfl⟩ := List.append_of_mem hmem
  have hafter := (List.pairwise_cons.1 (List.pairwise_append.1 h).2.1).1
  exact ⟨before, after, rfl, fun e he heq => hafter e he heq.symm⟩

/-- An insertion that replaces the entry of the key and keeps all others, made with each entry in
turn, leaves for each key the last of its entries, or the one from before where there is none. -/
theorem mem_foldl_iff {M : Type} {entries : M → List (α × β)} {insert : M → α × β → M}
    (hinsert : ∀ m e x, x ∈ entries (insert m e) ↔ x = e ∨ x.1 ≠ e.1 ∧ x ∈ entries m) (m : M) :
    (key, value) ∈ entries (es.foldl insert m) ↔
      LastValue es key value ∨ (∀ e ∈ es, e.1 ≠ key) ∧ (key, value) ∈ entries m := by
  induction es generalizing m with
  | nil => simp [not_lastValue_nil]
  | cons e es ih =>
    rw [List.foldl_cons, ih, hinsert, lastValue_cons]
    simp only [List.forall_mem_cons]
    grind

end LastValue

section Lookup

variable [Ord α] [Std.LawfulEqOrd α]

theorem map_find?_eq_some_iff {entries : List (α × β)} (h : entries.Pairwise fun a b => a.1 ≠ b.1)
    {key : α} {value : β} :
    (entries.find? fun e => compare key e.1 == .eq).map Prod.snd = some value ↔
      (key, value) ∈ entries := by
  induction entries with
  | nil => simp
  | cons e entries ih =>
    obtain ⟨hne, hrest⟩ := List.pairwise_cons.1 h
    by_cases hkey : key = e.1
    · subst hkey
      have hnot : (e.1, value) ∉ entries := fun hmem => hne _ hmem rfl
      simp [hnot, Prod.ext_iff, eq_comm]
    · have hcmp : ¬ compare key e.1 = .eq := fun heq => hkey (Std.LawfulEqCmp.eq_of_compare heq)
      simp [hcmp, ih hrest, Prod.ext_iff, hkey]

end Lookup

namespace SortedMap

variable [Ord α] [Std.TransOrd α] [Std.LawfulEqOrd α] {es : List (α × β)} {key : α} {value : β}

omit [Std.TransOrd α] [Std.LawfulEqOrd α] in
theorem eq_of_entries {m m' : SortedMap α β} (h : m.entries = m'.entries) : m = m' := by
  cases m
  cases m'
  cases h
  rfl

omit [Std.TransOrd α] in
theorem ne_of_compare_lt {a b : α} (h : compare a b = .lt) : a ≠ b := by
  rintro rfl
  have hself : compare a a = .eq := Std.ReflCmp.compare_self
  exact absurd (hself.symm.trans h) (by decide)

theorem mem_insertEntry_iff {entries : List (α × β)}
    (h : entries.Pairwise fun a b => compare a.1 b.1 = .lt) {x : α × β} :
    x ∈ insertEntry key value entries ↔ x = (key, value) ∨ x.1 ≠ key ∧ x ∈ entries := by
  induction entries with
  | nil => simp [insertEntry]
  | cons e entries ih =>
    obtain ⟨hlt, hrest⟩ := List.pairwise_cons.1 h
    unfold insertEntry
    split
    case h_1 hkey =>
      have hnew : ∀ y ∈ e :: entries, y.1 ≠ key := by
        intro y hy
        rcases List.mem_cons.1 hy with rfl | hy
        · exact (ne_of_compare_lt hkey).symm
        · exact (ne_of_compare_lt (Std.TransCmp.lt_trans hkey (hlt y hy))).symm
      rw [List.mem_cons]
      exact or_congr_right ⟨fun hx => ⟨hnew x hx, hx⟩, fun hx => hx.2⟩
    case h_2 hkey =>
      obtain rfl : key = e.1 := Std.LawfulEqCmp.eq_of_compare hkey
      have hnew : ∀ y ∈ entries, y.1 ≠ e.1 := fun y hy => (ne_of_compare_lt (hlt y hy)).symm
      grind
    case h_3 hkey =>
      have hne : e.1 ≠ key := ne_of_compare_lt (Std.OrientedCmp.gt_iff_lt.1 hkey)
      rw [List.mem_cons, ih hrest]
      grind

theorem mem_insert_iff {m : SortedMap α β} {e x : α × β} :
    x ∈ (m.insert e.1 e.2).entries ↔ x = e ∨ x.1 ≠ e.1 ∧ x ∈ m.entries :=
  mem_insertEntry_iff m.ascending

theorem mem_ofList_iff : (key, value) ∈ (ofList es).entries ↔ LastValue es key value := by
  refine (mem_foldl_iff (fun m e x => mem_insert_iff) empty).trans ?_
  simp [empty]

omit [Std.TransOrd α] in
theorem distinct (m : SortedMap α β) : m.entries.Pairwise fun a b => a.1 ≠ b.1 :=
  m.ascending.imp ne_of_compare_lt

omit [Std.TransOrd α] in
theorem get?_eq_some_iff {m : SortedMap α β} : m.get? key = some value ↔ (key, value) ∈ m.entries :=
  map_find?_eq_some_iff m.distinct

theorem ext_mem {m m' : SortedMap α β} (h : ∀ e, e ∈ m.entries ↔ e ∈ m'.entries) : m = m' := by
  have hnodup (m : SortedMap α β) : m.entries.Nodup :=
    m.distinct.imp fun hne heq => hne (congrArg Prod.fst heq)
  have hperm := (List.perm_ext_iff_of_nodup (hnodup m) (hnodup m')).2 h
  refine eq_of_entries (hperm.eq_of_pairwise ?_ m.ascending m'.ascending)
  exact fun a b _ _ hab hba => absurd hba (Std.OrientedCmp.not_lt_of_lt hab)

theorem ofList_perm {es' : List (α × β)} (hperm : es'.Perm es)
    (h : es.Pairwise fun a b => a.1 ≠ b.1) : ofList es' = ofList es := by
  have h' : es'.Pairwise fun a b => a.1 ≠ b.1 := (hperm.pairwise_iff fun hne => hne.symm).2 h
  refine ext_mem fun e => ?_
  rw [mem_ofList_iff, mem_ofList_iff, lastValue_iff_mem h', lastValue_iff_mem h, hperm.mem_iff]

theorem ofList_entries (m : SortedMap α β) : ofList m.entries = m :=
  ext_mem fun _ => mem_ofList_iff.trans (lastValue_iff_mem m.distinct)

end SortedMap

namespace ArrivalMap

variable [Ord α] [Std.LawfulEqOrd α] {es : List (α × β)} {key : α} {value : β}

theorem mem_insertEntry_iff {entries : List (α × β)}
    (h : entries.Pairwise fun a b => a.1 ≠ b.1) {x : α × β} :
    x ∈ insertEntry key value entries ↔ x = (key, value) ∨ x.1 ≠ key ∧ x ∈ entries := by
  induction entries with
  | nil => simp [insertEntry]
  | cons e entries ih =>
    obtain ⟨hne, hrest⟩ := List.pairwise_cons.1 h
    unfold insertEntry
    split
    case isTrue hkey =>
      obtain rfl : key = e.1 := Std.LawfulEqCmp.eq_of_compare hkey
      grind
    case isFalse hkey =>
      have hfirst : e.1 ≠ key := fun heq => hkey (by rw [heq]; exact Std.ReflCmp.compare_self)
      rw [List.mem_cons, ih hrest]
      grind

theorem mem_insert_iff {m : ArrivalMap α β} {e x : α × β} :
    x ∈ (m.insert e.1 e.2).entries ↔ x = e ∨ x.1 ≠ e.1 ∧ x ∈ m.entries :=
  mem_insertEntry_iff m.distinct

theorem mem_ofList_iff : (key, value) ∈ (ofList es).entries ↔ LastValue es key value := by
  refine (mem_foldl_iff (fun m e x => mem_insert_iff) empty).trans ?_
  simp [empty]

theorem get?_eq_some_iff {m : ArrivalMap α β} :
    m.get? key = some value ↔ (key, value) ∈ m.entries :=
  map_find?_eq_some_iff m.distinct

omit [Ord α] [Std.LawfulEqOrd α] in
theorem eq_of_entries {m m' : ArrivalMap α β} (h : m.entries = m'.entries) : m = m' := by
  cases m
  cases m'
  cases h
  rfl

theorem insertEntry_of_new {key : α} {value : β} {entries : List (α × β)}
    (h : ∀ e ∈ entries, e.1 ≠ key) : insertEntry key value entries = entries ++ [(key, value)] := by
  induction entries with
  | nil => rfl
  | cons e rest ih =>
    have hne : compare key e.1 ≠ .eq := fun heq =>
      h e List.mem_cons_self (Std.LawfulEqCmp.eq_of_compare heq).symm
    have hrest := ih fun e' he' => h e' (List.mem_cons_of_mem e he')
    simp only [insertEntry, hne, if_false, hrest, List.cons_append]

theorem foldl_insert_entries (es : List (α × β)) (m : ArrivalMap α β)
    (h : (m.entries ++ es).Pairwise fun a b => a.1 ≠ b.1) :
    (es.foldl (fun m e => m.insert e.1 e.2) m).entries = m.entries ++ es := by
  induction es generalizing m with
  | nil => simp
  | cons e es ih =>
    have hlast : (m.insert e.1 e.2).entries = m.entries ++ [e] :=
      insertEntry_of_new fun e' he' =>
        (List.pairwise_append.1 h).2.2 e' he' e List.mem_cons_self
    have hsame : m.entries ++ e :: es = (m.insert e.1 e.2).entries ++ es := by
      rw [hlast, List.append_assoc, List.singleton_append]
    rw [List.foldl_cons, ih _ (hsame ▸ h), hsame]

theorem ofList_entries (m : ArrivalMap α β) : ofList m.entries = m :=
  eq_of_entries (foldl_insert_entries m.entries empty m.distinct)

end ArrivalMap
end WireFormat
