import WireFormat.Proofs.Maps
import WireFormat.Proofs.Scalars
import WireFormat.Proofs.SchemaLocality
import WireFormat.Proofs.WireForm
import WireFormat.Songs

/-! The wire form of a value is read back as the value, with whatever bytes behind it. -/
namespace WireFormat

variable {α β : Type} {limits : ReadLimits}

namespace Decoder

theorem toNat_ofNat_of_fitsWord {n : Nat} (h : Schema.FitsWord n) :
    (UInt32.ofNat n).toNat = n := by
  rw [UInt32.toNat_ofNat']
  exact Nat.mod_eq_of_lt h

theorem reads_arrayLength (limits : ReadLimits) {n : Nat} (h : Schema.FitsWord n)
    (hlimit : n ≤ limits.arrayLength) :
    arrayLength.Reads limits (Writer.lengthBytes n) n := by
  intro front back
  exact arrayLength_yields.2
    ⟨UInt32.ofNat n, reads_word32 limits _ front back, toNat_ofNat_of_fitsWord h, hlimit⟩

theorem reads_byteArray {w : List UInt8} (h : Schema.FitsWord w.length)
    (hlimit : w.length ≤ limits.arrayLength) : byteArray.Reads limits (Schema.framed w) w := by
  have hread := (reads_arrayLength limits h hlimit).bind (reads_slice limits w)
  exact fun front back => restoring_yields.2 (hread front back)

theorem fromUTF8?_toUTF8 (t : String) :
    String.fromUTF8? ⟨t.toUTF8.data.toList.toArray⟩ = some t := by
  have hbytes : (⟨t.toUTF8.data.toList.toArray⟩ : ByteArray) = t.toByteArray := by simp
  rw [hbytes, String.fromUTF8?, dif_pos t.isValidUTF8]
  rfl

theorem reads_text {t : String} (h : Schema.FitsWord t.toUTF8.data.toList.length)
    (hlimit : t.toUTF8.data.toList.length ≤ limits.arrayLength) :
    text.Reads limits (Schema.framed t.toUTF8.data.toList) t := by
  intro front back
  exact text_yields.2 ⟨_, reads_byteArray h hlimit front back, fromUTF8?_toUTF8 t⟩

theorem reads_times {d : Decoder α} {form : β → List UInt8} {g : β → α} (xs : List β)
    (h : ∀ x ∈ xs, d.Reads limits (form x) (g x)) :
    (d.times xs.length).Reads limits (xs.flatMap form) (xs.map g) := by
  induction xs with
  | nil => exact reads_pure
  | cons x xs ih =>
    have hrest := ih fun y hy => h y (List.mem_cons_of_mem x hy)
    exact (h x List.mem_cons_self).bind (hrest.map (g x :: ·))

/-- A message is read from its frame, whatever of the body is left unread. -/
theorem reads_framed {body : Frame → Decoder α} {w : List UInt8} (rest : List UInt8) {a : α}
    (h : ReadsWithin body limits w rest.length a) (hfits : Schema.FitsWord (w ++ rest).length)
    (hlimit : (w ++ rest).length ≤ limits.messageLength) :
    (message body).Reads limits (Schema.framed (w ++ rest)) a := by
  have hlen := toNat_ofNat_of_fitsWord hfits
  have hword := reads_word32 limits (UInt32.ofNat (w ++ rest).length)
  exact hword.message (by rw [hlen, List.length_append]) (by rwa [hlen]) h

theorem reads_framed_whole {body : Frame → Decoder α} {w : List UInt8} {a : α}
    (h : ReadsWithin body limits w 0 a) (hfits : Schema.FitsWord w.length)
    (hlimit : w.length ≤ limits.messageLength) :
    (message body).Reads limits (Schema.framed w) a := by
  rw [← List.append_nil w] at hfits hlimit ⊢
  exact reads_framed [] h hfits hlimit

end Decoder

namespace Schema

theorem items_eq_times {item : Schema} (h : item ≠ .scalar .byte) (d : Decoder item.Val)
    (count : Nat) : items item d count = d.times count := by
  unfold items
  split
  · contradiction
  · rfl

theorem reads_items {item : Schema} (xs : List item.Val)
    (h : ∀ x ∈ xs, item.decode.Reads limits (item.form x) x) :
    (items item item.decode xs.length).Reads limits (xs.flatMap item.form) xs := by
  by_cases hbyte : item = .scalar .byte
  · subst hbyte
    have hbytes : xs.flatMap (form (.scalar .byte)) = xs := List.flatMap_singleton' xs
    rw [hbytes]
    exact Decoder.reads_slice limits xs
  · rw [items_eq_times hbyte]
    simpa using Decoder.reads_times xs h

/-- All fields there. -/
def present : (fields : List Schema) → Vals fields → Options fields
  | [], _ => ()
  | _ :: rest, (x, xs) => (some x, present rest xs)

theorem orDefaults_present (fields : List Schema) (xs : Vals fields) :
    orDefaults fields (present fields xs) = xs := by
  induction fields with
  | nil => rfl
  | cons s rest ih =>
    obtain ⟨x, xs⟩ := xs
    simp only [present, orDefaults, Option.getD_some, ih]

/-- The changes that the fields of an indexed body make to the stored ones. -/
def updates : (fields : List Schema) → Options fields → List (Options fields → Options fields)
  | [], _ => []
  | _ :: rest, (o, os) =>
      (match o with
        | some x => [fun stored => (some x, stored.2)]
        | none => []) ++ (updates rest os).map fun update stored => (stored.1, update stored.2)

theorem foldl_updates_snd {s : Schema} {rest : List Schema}
    (us : List (Options rest → Options rest)) (stored : Options (s :: rest)) :
    (us.map fun update (stored : Options (s :: rest)) => (stored.1, update stored.2)).foldl
      (fun stored update => update stored) stored =
        (stored.1, us.foldl (fun stored update => update stored) stored.2) := by
  induction us generalizing stored with
  | nil => rfl
  | cons u us ih => exact ih (stored.1, u stored.2)

theorem store_updates (fields : List Schema) (os : Options fields) :
    store fields (updates fields os) = os := by
  induction fields with
  | nil => rfl
  | cons s rest ih =>
    obtain ⟨o, os⟩ := os
    have hrest := ih os
    simp only [store] at hrest
    cases o with
    | none =>
      refine (foldl_updates_snd (updates rest os) (noOptions (s :: rest))).trans ?_
      exact congrArg (Prod.mk none) hrest
    | some x =>
      refine (foldl_updates_snd (updates rest os) (some x, noOptions rest)).trans ?_
      exact congrArg (Prod.mk (some x)) hrest

theorem FitsWord.le_maxIndex {n : Nat} (h : FitsWord n) : n ≤ maxIndex := by
  simp only [FitsWord, maxIndex] at h ⊢
  omega

section Fields

variable {fields : List Schema}

/-- The schemas of the list whose fitting values are read from their wire form. -/
def Readable (fields : List Schema) : Prop :=
  ∀ s ∈ fields, ∀ v, s.Fits v → s.decode.Reads .unbounded (s.form v) v

theorem Readable.tail {s : Schema} (h : Readable (s :: fields)) : Readable fields :=
  fun t ht => h t (List.mem_cons_of_mem s ht)

theorem reads_decodeAll (h : Readable fields) {xs : Vals fields} (hfits : FitsAll fields xs) :
    (decodeAll fields).Reads .unbounded (formAll fields xs) xs := by
  induction fields with
  | nil => exact Decoder.reads_pure
  | cons s rest ih =>
    obtain ⟨x, xs⟩ := xs
    exact reads_entry (h s List.mem_cons_self x hfits.1) (ih h.tail hfits.2)

theorem readsWithin_decodeFields (h : Readable fields) {xs : Vals fields}
    (hfits : FitsAll fields xs) (left : Nat) :
    ReadsWithin (decodeFields fields) .unbounded (formAll fields xs) left (present fields xs) := by
  induction fields with
  | nil => exact readsWithin_pure
  | cons s rest ih =>
    obtain ⟨x, xs⟩ := xs
    have hx := h s List.mem_cons_self x hfits.1
    have hpos := hx.length_pos s.needsByte_decode
    have hfield : ReadsWithin (fun f => f.field s.decode) .unbounded (s.form x)
        ((formAll rest xs).length + left) (some x) :=
      (readsWithin_field_iff s.local_decode).2 (.inr ⟨by omega, x, rfl, hx⟩)
    exact readsWithin_entry hfield (ih h.tail hfits.2)

/-- `rest` is what the list `full` leaves after its first `skipped` fields: finding a field in
either list reads the same bytes, and `lift` takes a change of the fields of `rest` to one of
all fields. -/
def ReadsAs (full rest : List Schema) (skipped : Nat)
    (lift : (Options rest → Options rest) → Options full → Options full) : Prop :=
  ∀ n read, decodeIndexed rest n = some read →
    ∃ read', decodeIndexed full (skipped + n) = some read' ∧ ∀ {limits w left update},
      ReadsWithin read limits w left update → ReadsWithin read' limits w left (lift update)

theorem readsAs_self (fields : List Schema) : ReadsAs fields fields 0 fun update => update := by
  intro n read hread
  exact ⟨read, by rwa [Nat.zero_add], fun h => h⟩

theorem ReadsAs.tail {full rest : List Schema} {s : Schema} {skipped : Nat}
    {lift : (Options (s :: rest) → Options (s :: rest)) → Options full → Options full}
    (h : ReadsAs full (s :: rest) skipped lift) :
    ReadsAs full rest (skipped + 1) fun update =>
      lift fun stored => (stored.1, update stored.2) := by
  intro n read hread
  obtain ⟨read', hread', hreads⟩ := h (n + 1) _ (by rw [decodeIndexed, hread, Option.map_some])
  have hn : skipped + 1 + n = skipped + (n + 1) := by omega
  exact ⟨read', by rwa [hn], fun hw => hreads (hw.map _)⟩

theorem readsWithin_rounds {full rest : List Schema} (h : Readable rest) {os : Options rest}
    (hfits : FitsOptions rest os) {skipped : Nat} (hlast : skipped + rest.length < 256)
    {lift : (Options rest → Options rest) → Options full → Options full}
    (hlift : ReadsAs full rest skipped lift) {fuel : Nat}
    (hfuel : (formIndexed rest (skipped + 1) os).length < fuel) :
    ReadsWithin (Frame.rounds (fun i => decodeIndexed full (i.toNat - 1)) fuel) .unbounded
      (formIndexed rest (skipped + 1) os ++ [0]) 0 ((updates rest os).map lift) := by
  -- The indices are those of the whole list, so the induction is on what is left of it.
  induction rest generalizing skipped fuel with
  | nil =>
    obtain ⟨fuel, rfl⟩ := Nat.exists_eq_succ_of_ne_zero (by omega : fuel ≠ 0)
    exact readsWithin_round_unknown rfl
  | cons s rest ih =>
    obtain ⟨o, os⟩ := os
    rw [List.length_cons] at hlast
    have htail {fuel : Nat} (hfuel : (formIndexed rest (skipped + 1 + 1) os).length < fuel) :=
      ih h.tail hfits.2 (by omega) hlift.tail hfuel
    cases o with
    | none =>
      have hnone := htail hfuel
      simpa [formIndexed, updates, Function.comp_def] using hnone
    | some x =>
      simp only [formIndexed, List.length_append, List.length_cons] at hfuel
      obtain ⟨fuel, rfl⟩ := Nat.exists_eq_succ_of_ne_zero (by omega : fuel ≠ 0)
      have hindex : (UInt8.ofNat (skipped + 1)).toNat = skipped + 1 := by
        rw [UInt8.toNat_ofNat']
        exact Nat.mod_eq_of_lt (by omega)
      have hzero : UInt8.ofNat (skipped + 1) ≠ 0 := by
        intro hzero
        rw [hzero] at hindex
        simp at hindex
      have hx := h s List.mem_cons_self x (hfits.1 x rfl)
      have hpos := hx.length_pos s.needsByte_decode
      have hfield : ReadsWithin (fun f => f.field s.decode) .unbounded (s.form x)
          ((formIndexed rest (skipped + 1 + 1) os ++ [0]).length + 0) (some x) :=
        (readsWithin_field_iff s.local_decode).2 (.inr ⟨by omega, x, rfl, hx⟩)
      obtain ⟨read, hread, hreads⟩ := hlift 0 _ rfl
      have hknown : decodeIndexed full ((UInt8.ofNat (skipped + 1)).toNat - 1) = some read := by
        rwa [hindex, Nat.add_sub_cancel]
      have hrest := htail (by omega : (formIndexed rest (skipped + 1 + 1) os).length < fuel)
      have hsome := readsWithin_round hzero hknown (hreads (hfield.map _)) hrest
      simpa [formIndexed, updates, Function.comp_def] using hsome

end Fields

theorem reads_entries {key value : Schema}
    (hkey : ∀ k, key.Fits k → key.decode.Reads .unbounded (key.form k) k)
    (hvalue : ∀ v, value.Fits v → value.decode.Reads .unbounded (value.form v) v)
    {entries : List (key.Val × value.Val)} (hlen : FitsWord entries.length)
    (hfits : ∀ e ∈ entries, key.Fits e.1 ∧ value.Fits e.2)
    (g : List (key.Val × value.Val) → α) :
    (do
      let count ← Decoder.arrayLength
      return g (← (entry key.decode value.decode).times count)).Reads .unbounded
        (Writer.lengthBytes entries.length ++
          entries.flatMap fun e : key.Val × value.Val => key.form e.1 ++ value.form e.2)
        (g entries) := by
  have hcount := Decoder.reads_arrayLength .unbounded hlen hlen.le_maxIndex
  have hentries : ((entry key.decode value.decode).times entries.length).Reads .unbounded
      (entries.flatMap fun e => key.form e.1 ++ value.form e.2) (entries.map fun e => e) :=
    Decoder.reads_times entries fun e he =>
      reads_entry (hkey e.1 (hfits e he).1) (hvalue e.2 (hfits e he).2)
  rw [List.map_id'] at hentries
  exact hcount.bind (hentries.map g)

theorem reads_form (s : Schema) : ∀ v, s.Fits v → s.decode.Reads .unbounded (s.form v) v := by
  induction s using Schema.induct with
  | scalar s => exact fun v _ => s.reads_bytes .unbounded v
  | text => exact fun t h => Decoder.reads_text h h.le_maxIndex
  | bytes => exact fun w h => Decoder.reads_byteArray h h.le_maxIndex
  | array item ih =>
    intro xs h
    obtain ⟨hlen, hitems⟩ := h
    have hcount := Decoder.reads_arrayLength .unbounded hlen hlen.le_maxIndex
    exact hcount.bind (reads_items xs fun x hx => ih x (hitems x hx))
  | map kind key value ihkey ihvalue =>
    cases kind with
    | sorted =>
      intro m h
      obtain ⟨hlen, hfits⟩ := h
      have h := reads_entries ihkey ihvalue hlen hfits SortedMap.ofList
      rwa [SortedMap.ofList_entries] at h
    | hashed =>
      intro m h
      obtain ⟨hlen, hfits⟩ := h
      have h := reads_entries ihkey ihvalue hlen hfits ArrivalMap.ofList
      rwa [ArrivalMap.ofList_entries] at h
  | record first rest ihfirst ihrest =>
    rintro ⟨x, xs⟩ ⟨hx, hxs⟩
    exact reads_entry (ihfirst x hx) (reads_decodeAll ihrest hxs)
  | message fields ih =>
    intro xs h
    obtain ⟨hfits, hlen⟩ := h
    have hbody := readsWithin_decodeFields ih hfits 0
    have h := (Decoder.reads_framed_whole hbody hlen hlen.le_maxIndex).map (orDefaults fields)
    rwa [orDefaults_present] at h
  | indexed fields ih =>
    intro os h
    obtain ⟨hfits, hlen, hlast⟩ := h
    have hfuel : (formIndexed fields 1 os).length <
        (formIndexed fields 1 os ++ [0]).length + 0 + 1 := by
      rw [List.length_append]
      omega
    have hrounds := readsWithin_rounds ih hfits (by rwa [Nat.zero_add]) (readsAs_self fields) hfuel
    rw [List.map_id'] at hrounds
    have hbody : ReadsWithin
        (fun f => f.indexedFields fun i => (decodeIndexed fields (i.toNat - 1)).map (· f))
        .unbounded (formIndexed fields 1 os ++ [0]) 0 (updates fields os) :=
      readsWithin_indexedFields_iff.2 hrounds
    have h := (Decoder.reads_framed_whole hbody hlen hlen.le_maxIndex).map (store fields)
    rwa [store_updates] at h

/-- Reading undoes writing: a value of any schema whose lengths fit their words is read back from
what was written of it, bit for bit, and exactly the bytes behind it are left. A map without an
order of its own is written in the order in which it holds its entries, whatever that is. -/
theorem decode_encode (s : Schema) (v : s.Val) (h : s.Fits v) (rest : List UInt8) :
    s.decode.readFrom (s.encode v [] ++ rest) = .ok (v, rest) := by
  rw [encode_eq, List.nil_append]
  exact (reads_form s v h).readFrom

theorem decode_encode_shelf :
    Songs.library.Fits Songs.shelf ∧
      Songs.library.decode.readFrom (Songs.library.encode Songs.shelf [] ++ [1, 2]) =
        .ok (Songs.shelf, [1, 2]) := by
  have hfits : Songs.library.Fits Songs.shelf := by decide +kernel
  exact ⟨hfits, decode_encode _ _ hfits _⟩

end Schema
end WireFormat
