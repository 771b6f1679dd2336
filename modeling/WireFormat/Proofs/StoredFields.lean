import Mathlib.Data.List.Forall2
import WireFormat.Proofs.IndexedBody

/-! What a reader of an indexed message stores. Its fields are read by the walk over the indices
that the schema counts from one, and each is stored as soon as it is read, so that the last one of
an index stays. -/
namespace WireFormat

variable {limits : ReadLimits} {w body : List UInt8} {left fuel : Nat}

/-- A field of a schema with its value, or without one. -/
abbrev Slot : Type := (s : Schema) × Option s.Val

def IndexedField.slot (e : IndexedField) : Slot := ⟨e.schema, e.value⟩

/-- The last of the fields that were read at an index. -/
def lastAt (read : List IndexedField) (index : Nat) : Option IndexedField :=
  (read.filter fun e => e.index.toNat = index).getLast?

theorem lastAt_cons (e : IndexedField) (read : List IndexedField) (index : Nat) :
    lastAt (e :: read) index =
      (lastAt read index).or (if e.index.toNat = index then some e else none) := by
  by_cases he : e.index.toNat = index
  · simp [lastAt, he, List.getLast?_cons]
  · simp [lastAt, he]

namespace Schema

variable {fields : List Schema}

/-- The schema that an index stands for; indices count from one. -/
def schemaAt (fields : List Schema) (i : UInt8) : Option Schema :=
  if i = 0 then none else fields[i.toNat - 1]?

/-- What is stored for the field at a position. -/
def slotAt : (fields : List Schema) → Options fields → Nat → Option Slot
  | [], _, _ => none
  | s :: _, (o, _), 0 => some ⟨s, o⟩
  | _ :: rest, (_, os), n + 1 => slotAt rest os n

theorem slotAt_of_getElem?_none {os : Options fields} {n : Nat} (h : fields[n]? = none) :
    slotAt fields os n = none := by
  induction fields generalizing n with
  | nil => rfl
  | cons s rest ih =>
    cases n with
    | zero => simp at h
    | succ n => exact ih (by simpa using h)

theorem slotAt_noOptions (fields : List Schema) (n : Nat) :
    slotAt fields (noOptions fields) n = fields[n]?.map fun s => ⟨s, none⟩ := by
  induction fields generalizing n with
  | nil => rfl
  | cons s rest ih =>
    cases n with
    | zero => rfl
    | succ n => exact ih n

theorem eq_of_slotAt {os os' : Options fields}
    (h : ∀ n, slotAt fields os n = slotAt fields os' n) : os = os' := by
  induction fields with
  | nil => rfl
  | cons s rest ih =>
    obtain ⟨o, os⟩ := os
    obtain ⟨o', os'⟩ := os'
    have hfirst : o = o' := by simpa [slotAt] using h 0
    rw [hfirst, ih fun n => h (n + 1)]

/-- For each field what was read last at its index is stored, and nothing if nothing was read. -/
def KeepsLast (fields : List Schema) (read : List IndexedField) (os : Options fields) : Prop :=
  ∀ n s, fields[n]? = some s →
    slotAt fields os n = some (((lastAt read (n + 1)).map IndexedField.slot).getD ⟨s, none⟩)

theorem KeepsLast.unique {read : List IndexedField} {os os' : Options fields}
    (h : KeepsLast fields read os) (h' : KeepsLast fields read os') : os = os' := by
  apply eq_of_slotAt
  intro n
  cases hs : fields[n]? with
  | none => rw [slotAt_of_getElem?_none hs, slotAt_of_getElem?_none hs]
  | some s => rw [h n s hs, h' n s hs]

/-- The change puts a slot at a position and leaves all others alone. -/
def Sets (fields : List Schema) (n : Nat) (slot : Slot)
    (update : Options fields → Options fields) : Prop :=
  ∀ stored m, slotAt fields (update stored) m = if m = n then some slot else slotAt fields stored m

/-- The change stores a field that was read. -/
def Stores (fields : List Schema) (e : IndexedField)
    (update : Options fields → Options fields) : Prop :=
  ∃ n, e.index.toNat = n + 1 ∧ Sets fields n e.slot update

theorem slotAt_foldl {read : List IndexedField} {updates : List (Options fields → Options fields)}
    (h : List.Forall₂ (Stores fields) read updates) (stored : Options fields) (n : Nat) :
    slotAt fields (updates.foldl (fun stored update => update stored) stored) n =
      ((lastAt read (n + 1)).map IndexedField.slot).or (slotAt fields stored n) := by
  induction h generalizing stored with
  | nil => rfl
  | @cons e update read updates he _ ih =>
    obtain ⟨m, hindex, hsets⟩ := he
    rw [List.foldl_cons, ih, hsets, lastAt_cons, Option.map_or, Option.or_assoc]
    by_cases hn : n = m
    · simp [hn, hindex]
    · simp [hn, hindex, Ne.symm hn]

theorem keepsLast_store {read : List IndexedField}
    {updates : List (Options fields → Options fields)}
    (h : List.Forall₂ (Stores fields) read updates) :
    KeepsLast fields read (store fields updates) := by
  intro n s hs
  rw [store, slotAt_foldl h, slotAt_noOptions, hs]
  cases lastAt read (n + 1) <;> rfl

theorem decodeIndexed_of_none {n : Nat} (h : fields[n]? = none) :
    decodeIndexed fields n = none := by
  induction fields generalizing n with
  | nil => rfl
  | cons s rest ih =>
    cases n with
    | zero => simp at h
    | succ n => rw [decodeIndexed, ih (by simpa using h), Option.map_none]

/-- The read of an indexed field is the read of its schema, and the change it makes puts there
what was read. -/
theorem decodeIndexed_of_some {n : Nat} {s : Schema} (h : fields[n]? = some s) :
    ∃ read, ∃ change : Option s.Val → Options fields → Options fields,
      decodeIndexed fields n = some read ∧ (∀ o, Sets fields n ⟨s, o⟩ (change o)) ∧
      ∀ limits w left update, ReadsWithin read limits w left update ↔
        ∃ o, ReadsWithin (fun f => f.field s.decode) limits w left o ∧ change o = update := by
  induction fields generalizing n with
  | nil => simp at h
  | cons t rest ih =>
    cases n with
    | zero =>
      obtain rfl : t = s := by simpa using h
      refine ⟨_, fun o stored => (o, stored.2), rfl, fun o stored m => ?_, fun _ _ _ _ => ?_⟩
      · cases m <;> rfl
      · exact readsWithin_map_iff (localWithin_field t.local_decode)
    | succ n =>
      obtain ⟨read, change, hread, hsets, hiff⟩ := ih (by simpa using h)
      have hlocal := localWithin_decodeIndexed hread
      refine ⟨_, fun o stored => (stored.1, change o stored.2),
        by rw [decodeIndexed, hread, Option.map_some], fun o stored m => ?_, fun _ _ _ _ => ?_⟩
      · cases m with
        | zero => rfl
        | succ m => simpa [slotAt] using hsets o stored.2 m
      · rw [readsWithin_map_iff hlocal]
        constructor
        · intro hupdate
          obtain ⟨update, hinner, rfl⟩ := hupdate
          obtain ⟨o, ho, rfl⟩ := (hiff _ _ _ update).1 hinner
          exact ⟨o, ho, rfl⟩
        · intro hvalue
          obtain ⟨o, ho, rfl⟩ := hvalue
          exact ⟨change o, (hiff _ _ _ _).2 ⟨o, ho, rfl⟩, rfl⟩

/-- The reads of the fields of a schema, each of which yields a change of what is stored. -/
def changeReads (fields : List Schema) (i : UInt8) :
    Option (Frame → Decoder (Options fields → Options fields)) :=
  decodeIndexed fields (i.toNat - 1)

theorem changeReads_of_schemaAt {i : UInt8} {s : Schema} (h : schemaAt fields i = some s) :
    ∃ read, ∃ change : Option s.Val → Options fields → Options fields,
      changeReads fields i = some read ∧
      (∀ o, Stores fields ⟨i, s, o⟩ (change o)) ∧
      ∀ limits w left update, ReadsWithin read limits w left update ↔
        ∃ o, ReadsWithin (fun f => f.field s.decode) limits w left o ∧ change o = update := by
  unfold schemaAt at h
  split at h
  · cases h
  · rename_i hi
    have hpos : i.toNat ≠ 0 := fun hzero => hi (UInt8.toNat_inj.1 hzero)
    have hindex : i.toNat = i.toNat - 1 + 1 := by omega
    obtain ⟨read, change, hread, hsets, hiff⟩ := decodeIndexed_of_some h
    exact ⟨read, change, hread, fun o => ⟨i.toNat - 1, hindex, hsets o⟩, hiff⟩

theorem changeReads_eq_none_iff {i : UInt8} (hi : i ≠ 0) :
    changeReads fields i = none ↔ schemaAt fields i = none := by
  cases hs : schemaAt fields i with
  | none =>
    rw [schemaAt, if_neg hi] at hs
    simp [changeReads, decodeIndexed_of_none hs]
  | some s =>
    obtain ⟨read, -, hread, -⟩ := changeReads_of_schemaAt hs
    simp [hread]

theorem localWithin_changeReads (i : UInt8)
    (read : Frame → Decoder (Options fields → Options fields))
    (hread : changeReads fields i = some read) : LocalWithin read :=
  localWithin_decodeIndexed hread

theorem localWithin_changes (fields : List Schema) :
    LocalWithin fun f => f.indexedFields fun i => (changeReads fields i).map (· f) :=
  localWithin_indexedFields localWithin_changeReads

/-- Rounds that collect changes go as the rounds that tell what was read. -/
theorem exists_read_of_updates {updates : List (Options fields → Options fields)}
    (h : ReadsWithin (Frame.rounds (changeReads fields) fuel) limits w left
      updates) :
    ∃ read, ReadsWithin (Frame.rounds (tableReads (schemaAt fields)) fuel) limits w left read ∧
      List.Forall₂ (Stores fields) read updates := by
  induction fuel generalizing w updates with
  | zero =>
    obtain ⟨rfl, rfl⟩ := readsWithin_pure_iff.1 h
    exact ⟨[], readsWithin_pure, .nil⟩
  | succ fuel ih =>
    rcases (readsWithin_rounds_succ_iff localWithin_changeReads).1 h with
      ⟨rfl, hleft, rfl⟩ | ⟨i, hi, rfl, rfl⟩ |
      ⟨i, readField, u, v, update, rest, hi, hread, rfl, rfl, hupdate, hrest⟩
    · exact ⟨[], rounds_succ_iff.2 (.inl ⟨rfl, hleft, rfl⟩), .nil⟩
    · refine ⟨[], rounds_succ_iff.2 (.inr (.inl ⟨i, ?_, rfl, rfl⟩)), .nil⟩
      by_cases hzero : i = 0
      · exact .inl hzero
      · exact .inr ((changeReads_eq_none_iff hzero).1 (hi.resolve_left hzero))
    cases hs : schemaAt fields i with
    | none =>
      rw [(changeReads_eq_none_iff hi).2 hs] at hread
      cases hread
    | some s =>
      obtain ⟨_, change, hread', hstores, hiff⟩ := changeReads_of_schemaAt hs
      obtain rfl := Option.some.inj (hread.symm.trans hread')
      obtain ⟨o, ho, rfl⟩ := (hiff _ _ _ _).1 hupdate
      obtain ⟨read, hmore, hall⟩ := ih hrest
      refine ⟨⟨i, s, o⟩ :: read, rounds_succ_iff.2 (.inr (.inr ?_)), .cons (hstores o) hall⟩
      exact ⟨i, s, u, v, o, read, hi, hs, rfl, rfl, ho, hmore⟩

theorem exists_updates_of_read {read : List IndexedField}
    (h : ReadsWithin (Frame.rounds (tableReads (schemaAt fields)) fuel) limits w left read) :
    ∃ updates, ReadsWithin (Frame.rounds (changeReads fields) fuel) limits
      w left updates ∧ List.Forall₂ (Stores fields) read updates := by
  induction fuel generalizing w read with
  | zero =>
    obtain ⟨rfl, rfl⟩ := readsWithin_pure_iff.1 h
    exact ⟨[], readsWithin_pure, .nil⟩
  | succ fuel ih =>
    have hround (updates) : ReadsWithin (Frame.rounds (changeReads fields) (fuel + 1)) limits
        w left updates ↔ _ := readsWithin_rounds_succ_iff localWithin_changeReads
    rcases rounds_succ_iff.1 h with ⟨rfl, hleft, rfl⟩ | ⟨i, hi, rfl, rfl⟩ |
      ⟨i, s, u, v, o, rest, hi, hs, rfl, rfl, ho, hrest⟩
    · exact ⟨[], (hround _).2 (.inl ⟨rfl, hleft, rfl⟩), .nil⟩
    · refine ⟨[], (hround _).2 (.inr (.inl ⟨i, ?_, rfl, rfl⟩)), .nil⟩
      by_cases hzero : i = 0
      · exact .inl hzero
      · exact .inr ((changeReads_eq_none_iff hzero).2 (hi.resolve_left hzero))
    obtain ⟨readField, change, hread, hstores, hiff⟩ := changeReads_of_schemaAt hs
    obtain ⟨updates, hmore, hall⟩ := ih hrest
    refine ⟨change o :: updates, (hround _).2 (.inr (.inr ?_)), .cons (hstores o) hall⟩
    exact ⟨i, readField, u, v, change o, updates, hi, hread, rfl, rfl,
      (hiff _ _ _ _).2 ⟨o, ho, rfl⟩, hmore⟩

/-- Reading an indexed message is reading its fields and storing each. -/
theorem indexed_readFrom_iff {bytes left : List UInt8} {os : Options fields} :
    (indexed fields).decode.readFrom bytes = .ok (os, left) ↔ ∃ changes,
      (Decoder.message fun f => f.indexedFields fun i => (changeReads fields i).map (· f)).readFrom
        bytes = .ok (changes, left) ∧ store fields changes = os := by
  simp only [decode, Decoder.readFrom_eq_ok, Decoder.map_yields]
  constructor
  · intro h
    obtain ⟨q, ⟨changes, hrun, hstore⟩, hleft⟩ := h
    exact ⟨changes, ⟨q, hrun, hleft⟩, hstore⟩
  · intro h
    obtain ⟨changes, ⟨q, hrun, hleft⟩, hstore⟩ := h
    exact ⟨q, ⟨changes, hrun, hstore⟩, hleft⟩

theorem exists_read_of_indexed (hfits : FitsWord body.length) {rest left : List UInt8}
    {os : Options fields}
    (h : (indexed fields).decode.readFrom (framed body ++ rest) = .ok (os, left)) :
    ∃ read, IndexedBody (schemaAt fields) body read := by
  obtain ⟨changes, hread, rfl⟩ := indexed_readFrom_iff.1 h
  rw [Decoder.message_readFrom_iff (localWithin_changes fields) hfits] at hread
  obtain ⟨-, w, unread, rfl, hw⟩ := hread
  obtain ⟨read, hread, -⟩ := exists_read_of_updates (readsWithin_indexedFields_iff.1 hw)
  rw [← List.length_append] at hread
  exact ⟨read, indexedBody_of_readsWithin (Nat.lt_succ_self _) hread⟩

theorem indexed_readFrom_of_body (hfits : FitsWord body.length) (rest : List UInt8)
    {read : List IndexedField} (h : IndexedBody (schemaAt fields) body read) :
    ∃ os, (indexed fields).decode.readFrom (framed body ++ rest) = .ok (os, rest) ∧
      KeepsLast fields read os := by
  obtain ⟨w, unread, rfl, hw⟩ := h.readsWithin (Nat.le_refl _)
  obtain ⟨changes, hchanges, hall⟩ := exists_updates_of_read hw
  refine ⟨store fields changes, indexed_readFrom_iff.2 ⟨changes, ?_, rfl⟩, keepsLast_store hall⟩
  rw [Decoder.message_readFrom_iff (localWithin_changes fields) hfits]
  rw [List.length_append] at hchanges
  exact ⟨rfl, w, unread, rfl, readsWithin_indexedFields_iff.2 hchanges⟩

/-- The language of an indexed message. It is read exactly when its body is in the grammar of the
indices that the schema counts from one; then each field holds what was read last at its index,
nothing if that was absent or never read, and exactly what stands behind the frame is left. -/
theorem decode_indexed_language (fields : List Schema) {body : List UInt8}
    (hfits : FitsWord body.length) (rest : List UInt8) :
    ((∃ v, (indexed fields).decode.readFrom (framed body ++ rest) = .ok v) ↔
        ∃ read, IndexedBody (schemaAt fields) body read) ∧
      ∀ read, IndexedBody (schemaAt fields) body read →
        ∃ os, (indexed fields).decode.readFrom (framed body ++ rest) = .ok (os, rest) ∧
          KeepsLast fields read os := by
  refine ⟨⟨?_, ?_⟩, fun read hread => indexed_readFrom_of_body hfits rest hread⟩
  · rintro ⟨⟨os, left⟩, h⟩
    exact exists_read_of_indexed hfits h
  · rintro ⟨read, hread⟩
    obtain ⟨os, hos, -⟩ := indexed_readFrom_of_body hfits rest hread
    exact ⟨(os, rest), hos⟩

/-- The year twice, and the index of the performers as the last byte. -/
theorem decode_indexed_language_song :
    let body : List UInt8 := [2, 0xa7, 7, 2, 0xa8, 7, 3]
    let read : List IndexedField :=
      [⟨2, .scalar .uint16, some 1959⟩, ⟨2, .scalar .uint16, some 1960⟩,
        ⟨3, .array Songs.musician, none⟩]
    FitsWord body.length ∧
      IndexedBody (schemaAt [.text, .scalar .uint16, .array Songs.musician]) body read ∧
      Songs.indexedSong.decode.readFrom (framed body ++ [1, 2]) =
        .ok ((none, some 1960, none, ()), [1, 2]) := by
  intro body read
  have hfits : FitsWord body.length := by decide
  let known := schemaAt [.text, .scalar .uint16, .array Songs.musician]
  have habsent : IndexedBody known [3] [⟨3, .array Songs.musician, none⟩] :=
    .absent (by decide) rfl
  have hsecond : IndexedBody known (2 :: ([0xa8, 7] ++ [3])) (read.drop 1) :=
    .field (by decide) rfl rfl habsent
  have hbody : IndexedBody known (2 :: ([0xa7, 7] ++ [2, 0xa8, 7, 3])) read :=
    .field (by decide) rfl rfl hsecond
  obtain ⟨os, hos, hkeeps⟩ := (decode_indexed_language _ hfits [1, 2]).2 read hbody
  have hlast : KeepsLast [.text, .scalar .uint16, .array Songs.musician] read
      (none, some 1960, none, ()) := by
    intro n s hs
    match n with
    | 0 | 1 | 2 => cases hs; rfl
    | n + 3 => simp at hs
  rw [hkeeps.unique hlast] at hos
  exact ⟨hfits, hbody, hos⟩

end Schema
end WireFormat
