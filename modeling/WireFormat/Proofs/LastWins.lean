import Mathlib.Data.Set.Card
import WireFormat.Proofs.RoundTrip
import WireFormat.Proofs.WriterPrograms

/-! What is read of a counted list of entries, in any order and with any repetitions, as a map of
either kind: for each key its last value. Written again, the entries of a sorted map come in the one
order of their keys, each key once. -/
namespace WireFormat

variable {α β : Type} [Ord α] [Std.TransOrd α] [Std.LawfulEqOrd α] {es : List (α × β)}

theorem SortedMap.get?_ofList_eq_some_iff {key : α} {value : β} :
    (ofList es).get? key = some value ↔ LastValue es key value :=
  get?_eq_some_iff.trans mem_ofList_iff

theorem ArrivalMap.get?_ofList (key : α) :
    (ofList es).get? key = (SortedMap.ofList es).get? key := by
  ext value
  rw [get?_eq_some_iff, mem_ofList_iff, SortedMap.get?_ofList_eq_some_iff]

theorem SortedMap.isSome_get?_ofList (key : α) :
    ((ofList es).get? key).isSome ↔ key ∈ es.map Prod.fst := by
  simp only [Option.isSome_iff_exists, get?_ofList_eq_some_iff, exists_lastValue_iff]

/-- A map has an entry for every key, and no more. -/
theorem SortedMap.length_entries_ofList :
    (ofList es).entries.length = {key | key ∈ es.map Prod.fst}.ncard := by
  classical
  have hkeys : {key | key ∈ es.map Prod.fst} = ((ofList es).entries.map Prod.fst).toFinset := by
    ext key
    rw [Set.mem_ofPred_eq, ← exists_lastValue_iff, List.coe_toFinset, Set.mem_ofPred_eq]
    simp [← mem_ofList_iff]
  have hnodup : ((ofList es).entries.map Prod.fst).Nodup := List.pairwise_map.2 (ofList es).distinct
  rw [hkeys, Set.ncard_coe_finset, List.toFinset_card_of_nodup hnodup, List.length_map]

namespace Schema

variable {key value : Schema} {es : List (key.Val × value.Val)}

/-- Entries behind their number, each a key and then its value. -/
def entriesForm (key value : Schema) (es : List (key.Val × value.Val)) : List UInt8 :=
  IntegerCodec.digits 4 es.length ++ es.flatMap fun e => key.encode e.1 [] ++ value.encode e.2 []

theorem entriesForm_eq (es : List (key.Val × value.Val)) : entriesForm key value es =
    Writer.lengthBytes es.length ++ es.flatMap fun e => key.form e.1 ++ value.form e.2 := by
  simp only [entriesForm, encode_eq, List.nil_append, Writer.lengthBytes_eq]

theorem encode_sortedMap (m : (map .sorted key value).Val) :
    (map .sorted key value).encode m [] = entriesForm key value m.entries := by
  rw [encode_eq, List.nil_append, entriesForm_eq]
  rfl

/-- Counted entries are read in order, whatever is made of them. -/
theorem readFrom_entries {α : Type} (hlen : FitsWord es.length)
    (hfits : ∀ e ∈ es, key.Fits e.1 ∧ value.Fits e.2)
    (g : List (key.Val × value.Val) → α) (rest : List UInt8) :
    (do
      let count ← Decoder.arrayLength
      return g (← (entry key.decode value.decode).times count)).readFrom
        (entriesForm key value es ++ rest) = .ok (g es, rest) := by
  rw [entriesForm_eq]
  exact (reads_entries (reads_form key) (reads_form value) hlen hfits g).readFrom

/-- Entries behind their number are read as a map of either kind, whatever their order and however
often a key comes: each key gets its last value, there are no other keys, and both kinds look up
alike. A sorted map is written again with every key once, in strictly ascending order, so entries
with different keys give the same map and the same bytes in every order. -/
theorem decode_entries (key value : Schema) (es : List (key.Val × value.Val))
    (hlen : FitsWord es.length) (hfits : ∀ e ∈ es, key.Fits e.1 ∧ value.Fits e.2) :
    ∃ (m : SortedMap key.Val value.Val) (m' : ArrivalMap key.Val value.Val),
      (∀ rest,
        (map .sorted key value).decode.readFrom (entriesForm key value es ++ rest) = .ok (m, rest) ∧
        (map .hashed key value).decode.readFrom (entriesForm key value es ++ rest) =
          .ok (m', rest)) ∧
      (∀ k, (m.get? k).isSome ↔ k ∈ es.map Prod.fst) ∧
      (∀ k v, m.get? k = some v ↔ LastValue es k v) ∧
      (∀ k, m'.get? k = m.get? k) ∧
      (∃ ascending : List (key.Val × value.Val),
        (map .sorted key value).encode m [] = entriesForm key value ascending ∧
        ascending.length = {k | k ∈ es.map Prod.fst}.ncard ∧
        ascending.Pairwise (fun a b => compare a.1 b.1 = .lt) ∧
        ∀ k v, (k, v) ∈ ascending ↔ LastValue es k v) ∧
      ∀ es' : List (key.Val × value.Val), es'.Perm es → (es.map Prod.fst).Nodup → ∀ rest,
        (map .sorted key value).decode.readFrom (entriesForm key value es' ++ rest) =
          .ok (m, rest) := by
  refine ⟨SortedMap.ofList es, ArrivalMap.ofList es, ?_, SortedMap.isSome_get?_ofList,
    fun k v => SortedMap.get?_ofList_eq_some_iff, ArrivalMap.get?_ofList, ?_, ?_⟩
  · intro rest
    exact ⟨readFrom_entries hlen hfits SortedMap.ofList rest,
      readFrom_entries hlen hfits ArrivalMap.ofList rest⟩
  · exact ⟨(SortedMap.ofList es).entries, encode_sortedMap _, SortedMap.length_entries_ofList,
      (SortedMap.ofList es).ascending, fun k v => SortedMap.mem_ofList_iff⟩
  · intro es' hperm hnodup rest
    have hlen' : FitsWord es'.length := hperm.length_eq ▸ hlen
    have hfits' : ∀ e ∈ es', key.Fits e.1 ∧ value.Fits e.2 :=
      fun e he => hfits e (hperm.mem_iff.1 he)
    have hsame := SortedMap.ofList_perm hperm (List.pairwise_map.1 hnodup)
    exact hsame ▸ readFrom_entries hlen' hfits' SortedMap.ofList rest

/-- Signed keys, one of them twice. -/
theorem decode_entries_repeated :
    let es : List (Int16 × String) := [(2, "b"), (-1, "a"), (2, "c")]
    FitsWord es.length ∧
      (∀ e ∈ es, (scalar .int16).Fits e.1 ∧ text.Fits e.2) ∧
      ∃ (m : SortedMap Int16 String) (m' : ArrivalMap Int16 String),
        (map .sorted (.scalar .int16) .text).decode.readFrom
          [3, 0, 0, 0, 2, 0, 1, 0, 0, 0, 0x62, 0xff, 0xff, 1, 0, 0, 0, 0x61,
            2, 0, 1, 0, 0, 0, 0x63, 9] = .ok (m, [9]) ∧
        (map .hashed (.scalar .int16) .text).decode.readFrom
          [3, 0, 0, 0, 2, 0, 1, 0, 0, 0, 0x62, 0xff, 0xff, 1, 0, 0, 0, 0x61,
            2, 0, 1, 0, 0, 0, 0x63, 9] = .ok (m', [9]) ∧
        m.get? 2 = some "c" ∧ m'.get? 2 = some "c" ∧ m.get? (-1) = some "a" := by
  intro es
  have hlen : FitsWord es.length := by decide
  have hfits : ∀ e ∈ es, (scalar .int16).Fits e.1 ∧ text.Fits e.2 := by decide +kernel
  obtain ⟨m, m', hread, -, hlast, hsame, -⟩ := decode_entries (.scalar .int16) .text es hlen hfits
  have hform : entriesForm (.scalar .int16) .text es ++ [9] =
      [3, 0, 0, 0, 2, 0, 1, 0, 0, 0, 0x62, 0xff, 0xff, 1, 0, 0, 0, 0x61,
        2, 0, 1, 0, 0, 0, 0x63, 9] := by decide +kernel
  have htwo : m.get? 2 = some "c" := (hlast 2 "c").2 ⟨[(2, "b"), (-1, "a")], [], rfl, nofun⟩
  have hone : m.get? (-1) = some "a" :=
    (hlast (-1) "a").2 ⟨[(2, "b")], [(2, "c")], rfl, by decide⟩
  exact ⟨hlen, hfits, m, m', hform ▸ (hread [9]).1, hform ▸ (hread [9]).2, htwo,
    (hsame 2).trans htwo, hone⟩

end Schema
end WireFormat
