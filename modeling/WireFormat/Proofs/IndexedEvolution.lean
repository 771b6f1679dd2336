import WireFormat.Proofs.StoredFields

/-! Indexed messages between readers and writers of different age. Fields are written in any order
and as often as one likes, each behind its index; a reader takes them up to the first index that
it does not know. -/
namespace WireFormat

/-- A field to be written: its index and its value. -/
structure IndexedValue where
  index : UInt8
  schema : Schema
  value : schema.Val

namespace IndexedValue

/-- The field as it is read back. -/
def read (t : IndexedValue) : IndexedField := ⟨t.index, t.schema, some t.value⟩

def bytes (t : IndexedValue) : List UInt8 := t.index :: t.schema.form t.value

/-- Writes fields, each behind its index, and the terminating zero if told to. -/
def putAll (fields : List IndexedValue) (ended : Bool) (w : Writer) : Writer :=
  let written := fields.foldl (fun w t => t.schema.put t.value (w.fieldIndex t.index)) w
  if ended then written.endFields else written

def body (fields : List IndexedValue) (ended : Bool) : List UInt8 :=
  fields.flatMap bytes ++ if ended then [0] else []

theorem appends_putAll (fields : List IndexedValue) (ended : Bool) :
    Writer.Appends (putAll fields ended) (body fields ended) := by
  have hfields : Writer.Appends
      (fun w => fields.foldl (fun w t => t.schema.put t.value (w.fieldIndex t.index)) w)
      (fields.flatMap bytes) := by
    apply Writer.appends_foldl
    intro t _
    have hindex : Writer.Appends (fun w => w.fieldIndex t.index) [t.index] := fun w => rfl
    exact hindex.andThen (t.schema.appends_put t.value)
  cases ended with
  | false =>
    rw [body, if_neg Bool.false_ne_true, List.append_nil]
    exact hfields
  | true =>
    have hend : Writer.Appends Writer.endFields [0] := fun w => rfl
    exact hfields.andThen hend

theorem size_putAll (fields : List IndexedValue) (ended : Bool) :
    (putAll fields ended .empty).size = (body fields ended).length := by
  rw [appends_putAll, Writer.size, Writer.append, Writer.empty, List.nil_append]

/-- Fields that can be written and read back: none has the index of the terminator, and every
length, that of the body included, fits four bytes. -/
structure Writable (fields : List IndexedValue) (ended : Bool) : Prop where
  index_ne : ∀ t ∈ fields, t.index ≠ 0
  fits : ∀ t ∈ fields, t.schema.Fits t.value
  length_fits : Schema.FitsWord (putAll fields ended .empty).size

/-- The reader takes the indices that it knows for the schemas that they were written with. -/
def Agrees (known : UInt8 → Option Schema) (fields : List IndexedValue) : Prop :=
  ∀ t ∈ fields, ∀ s, known t.index = some s → s = t.schema

/-- The fields in front of the first index that is not known. -/
def upToUnknown (known : UInt8 → Option Schema) (fields : List IndexedValue) : List IndexedField :=
  (fields.takeWhile fun t => (known t.index).isSome).map read

variable {known : UInt8 → Option Schema} {fields : List IndexedValue} {ended : Bool}

theorem upToUnknown_cons {t : IndexedValue} (h : (known t.index).isSome) :
    upToUnknown known (t :: fields) = t.read :: upToUnknown known fields := by
  simp [upToUnknown, h]

theorem upToUnknown_unknown {t : IndexedValue} (h : known t.index = none) :
    upToUnknown known (t :: fields) = [] := by
  simp [upToUnknown, h]

theorem indexedBody_body (ended : Bool) (hindex : ∀ t ∈ fields, t.index ≠ 0)
    (hfits : ∀ t ∈ fields, t.schema.Fits t.value) (hagrees : Agrees known fields) :
    IndexedBody known (body fields ended) (upToUnknown known fields) := by
  induction fields with
  | nil =>
    cases ended with
    | false => exact .nothing
    | true => exact .terminated []
  | cons t rest ih =>
    have hbody : body (t :: rest) ended =
        t.index :: (t.schema.form t.value ++ body rest ended) := by
      simp [body, bytes]
    rw [hbody]
    have hzero := hindex t List.mem_cons_self
    cases hknown : known t.index with
    | none =>
      rw [upToUnknown_unknown hknown]
      exact .unknown hzero hknown _
    | some s =>
      obtain rfl := hagrees t List.mem_cons_self s hknown
      have hreads := t.schema.reads_form t.value (hfits t List.mem_cons_self)
      have hrest := ih (fun u hu => hindex u (List.mem_cons_of_mem t hu))
        (fun u hu => hfits u (List.mem_cons_of_mem t hu))
        (fun u hu => hagrees u (List.mem_cons_of_mem t hu))
      rw [upToUnknown_cons (hknown ▸ rfl)]
      exact .field hzero hknown (t.schema.local_decode.readFrom_nil_iff.2 hreads) hrest

theorem Writable.body_fits (h : Writable fields ended) :
    Schema.FitsWord (IndexedValue.body fields ended).length :=
  size_putAll fields ended ▸ h.length_fits

theorem message_putAll (out : List UInt8) :
    (Writer.message ⟨out⟩ (putAll fields ended)).bytes =
      out ++ Schema.framed (IndexedValue.body fields ended) := by
  have hmessage := (appends_putAll fields ended).message ⟨out⟩
  simp only at hmessage
  rw [hmessage, Writer.append]

/-- Of a written body a walk reads the fields up to the first index that it does not know. -/
theorem Writable.walk_reads (h : Writable fields ended) (table : List (UInt8 × Schema))
    (hagrees : Agrees (fun i => table.lookup i) fields) :
    (Decoder.message fun f => f.indexedFields (tableFields f table true)).Reads .unbounded
      (Schema.framed (body fields ended)) (upToUnknown (fun i => table.lookup i) fields) := by
  have hbody := indexedBody_body ended h.index_ne h.fits hagrees
  have hread := (walk_readFrom_iff table h.body_fits [] []).2 ⟨rfl, hbody⟩
  rw [List.append_nil] at hread
  have hlocal : (Decoder.message fun f => f.indexedFields (tableFields f table true)).Local := by
    simp only [tableFields_checked]
    exact Decoder.local_message (localWithin_indexedFields localWithin_tableReads)
  exact hlocal.readFrom_nil_iff.1 hread

end IndexedValue

theorem lastAt_eq_none {read : List IndexedField} {index : Nat}
    (h : ∀ e ∈ read, e.index.toNat ≠ index) : lastAt read index = none := by
  have hempty : read.filter (fun e => e.index.toNat = index) = [] := by
    simpa using h
  rw [lastAt, hempty, List.getLast?_nil]

namespace Schema

variable {fields others : List Schema}

/-- The fields of a value that are there, with the indices that they are written with. -/
def presentFields : (fields : List Schema) → Nat → Options fields → List IndexedValue
  | [], _, _ => []
  | s :: rest, index, (o, os) =>
      (match o with
        | some x => [⟨UInt8.ofNat index, s, x⟩]
        | none => []) ++ presentFields rest (index + 1) os

theorem formIndexed_eq (fields : List Schema) (index : Nat) (os : Options fields) :
    formIndexed fields index os = (presentFields fields index os).flatMap IndexedValue.bytes := by
  induction fields generalizing index with
  | nil => rfl
  | cons s rest ih =>
    obtain ⟨o, os⟩ := os
    cases o with
    | none => exact ih (index + 1) os
    | some x => exact congrArg (UInt8.ofNat index :: s.form x ++ ·) (ih (index + 1) os)

theorem form_indexed (fields : List Schema) (os : Options fields) :
    (indexed fields).form os = framed (IndexedValue.body (presentFields fields 1 os) true) := by
  rw [form, formIndexed_eq, IndexedValue.body, if_pos rfl]

theorem toNat_ofNat_index {n : Nat} (h : n < 256) : (UInt8.ofNat n).toNat = n := by
  rw [UInt8.toNat_ofNat']
  exact Nat.mod_eq_of_lt h

/-- The fields of a list stand behind the indices that count its positions, in order. -/
theorem mem_presentFields (skipped : Nat) (hlast : skipped + fields.length < 256)
    {os : Options fields} {t : IndexedValue} (ht : t ∈ presentFields fields (skipped + 1) os) :
    ∃ n, t.index.toNat = skipped + n + 1 ∧ fields[n]? = some t.schema ∧
      (FitsOptions fields os → t.schema.Fits t.value) := by
  induction fields generalizing skipped with
  | nil => cases ht
  | cons s rest ih =>
    obtain ⟨o, os⟩ := os
    rw [List.length_cons] at hlast
    rcases List.mem_append.1 ht with ht | ht
    · cases o with
      | none => cases ht
      | some x =>
        obtain rfl := List.mem_singleton.1 ht
        exact ⟨0, toNat_ofNat_index (by omega), rfl, fun hfits => hfits.1 x rfl⟩
    · obtain ⟨n, hindex, hschema, hfits⟩ := ih (skipped + 1) (by omega) ht
      exact ⟨n + 1, by omega, hschema, fun h => hfits h.2⟩

/-- The two lists have the same schemas, as far as both go. -/
def SameAge (fields others : List Schema) : Prop :=
  ∀ (n : Nat) (s s' : Schema), fields[n]? = some s → others[n]? = some s' → s' = s

theorem schemaAt_of_toNat {i : UInt8} {n : Nat} (h : i.toNat = n + 1) :
    schemaAt others i = others[n]? := by
  have hi : i ≠ 0 := by
    rintro rfl
    simp at h
  rw [schemaAt, if_neg hi, h, Nat.add_sub_cancel]

theorem agrees_presentFields (hsame : SameAge fields others) (hlast : fields.length < 256)
    (os : Options fields) :
    IndexedValue.Agrees (schemaAt others) (presentFields fields 1 os) := by
  intro t ht s hs
  obtain ⟨n, hindex, hschema, -⟩ := mem_presentFields 0 (by omega) ht
  rw [schemaAt_of_toNat (by omega : t.index.toNat = n + 1)] at hs
  exact hsame n _ _ hschema hs

/-- No field stands behind an index that counts an earlier position. -/
theorem lastAt_presentFields_skipped (known : UInt8 → Option Schema) {skipped : Nat}
    (hlast : skipped + fields.length < 256) (os : Options fields) :
    lastAt (IndexedValue.upToUnknown known (presentFields fields (skipped + 1) os)) skipped =
      none := by
  apply lastAt_eq_none
  intro e he
  obtain ⟨t, ht, rfl⟩ := List.mem_map.1 he
  obtain ⟨n, hindex, -⟩ :=
    mem_presentFields skipped hlast ((List.takeWhile_sublist _).subset ht)
  show t.index.toNat ≠ _
  omega

/-- Indices ascend, so that up to the first one past its end the reader finds all of its own. -/
theorem lastAt_presentFields (skipped m : Nat) (hlast : skipped + fields.length < 256)
    (hknown : skipped + m < others.length) (os : Options fields) :
    (lastAt (IndexedValue.upToUnknown (schemaAt others) (presentFields fields (skipped + 1) os))
        (skipped + m + 1)).map IndexedField.slot =
      (slotAt fields os m).filter fun slot => slot.2.isSome := by
  induction fields generalizing skipped m with
  | nil => rfl
  | cons s rest ih =>
    obtain ⟨o, os⟩ := os
    rw [List.length_cons] at hlast
    have hlater := lastAt_presentFields_skipped (schemaAt others)
      (by omega : skipped + 1 + rest.length < 256) os
    have htail {m : Nat} (hm : skipped + (m + 1) < others.length) :
        (lastAt (IndexedValue.upToUnknown (schemaAt others)
          (presentFields rest (skipped + 1 + 1) os)) (skipped + (m + 1) + 1)).map
            IndexedField.slot = (slotAt rest os m).filter fun slot => slot.2.isSome := by
      have hrest := ih (skipped + 1) m (by omega) (by omega) os
      rwa [show skipped + 1 + m = skipped + (m + 1) by omega] at hrest
    cases o with
    | none =>
      cases m with
      | zero => exact congrArg (Option.map IndexedField.slot) hlater
      | succ m => exact htail hknown
    | some x =>
      have hindex := toNat_ofNat_index (by omega : skipped + 1 < 256)
      have hhead : (schemaAt others (UInt8.ofNat (skipped + 1))).isSome := by
        rw [schemaAt_of_toNat hindex]
        simpa using (by omega : skipped < others.length)
      let t : IndexedValue := ⟨UInt8.ofNat (skipped + 1), s, x⟩
      show (lastAt (IndexedValue.upToUnknown _ (t :: presentFields rest _ os)) _).map _ = _
      rw [IndexedValue.upToUnknown_cons hhead, lastAt_cons]
      simp only [IndexedValue.read, t, hindex]
      cases m with
      | zero =>
        rw [Nat.add_zero, hlater, if_pos rfl]
        rfl
      | succ m =>
        have hne : skipped + 1 ≠ skipped + (m + 1) + 1 := by omega
        rw [if_neg hne, Option.or_none]
        exact htail hknown

theorem getElem?_of_slotAt {os : Options fields} {n : Nat} {slot : Slot}
    (h : slotAt fields os n = some slot) : fields[n]? = some slot.1 := by
  induction fields generalizing n with
  | nil => cases h
  | cons s rest ih =>
    cases n with
    | zero =>
      obtain rfl := Option.some.inj h
      rfl
    | succ n => exact ih h

/-- A reader of another age stores each of its fields that the writer has, and nothing for the
others. -/
theorem indexed_readFrom_form (hsame : SameAge fields others) {os : Options fields}
    (hfits : (indexed fields).Fits os) (rest : List UInt8) :
    ∃ stored, (indexed others).decode.readFrom ((indexed fields).form os ++ rest) =
        .ok (stored, rest) ∧
      ∀ n s, others[n]? = some s →
        slotAt others stored n = some ((slotAt fields os n).getD ⟨s, none⟩) := by
  obtain ⟨hoptions, hlen, hlast⟩ := hfits
  rw [formIndexed_eq] at hlen
  have hmem {t : IndexedValue} (ht : t ∈ presentFields fields 1 os) :=
    mem_presentFields 0 (by omega) ht
  have hindex : ∀ t ∈ presentFields fields 1 os, t.index ≠ 0 := by
    rintro t ht hzero
    obtain ⟨n, hindex, -⟩ := hmem ht
    simp [hzero] at hindex
  have hvalues : ∀ t ∈ presentFields fields 1 os, t.schema.Fits t.value := by
    intro t ht
    obtain ⟨-, -, -, hfits⟩ := hmem ht
    exact hfits hoptions
  have hagrees := agrees_presentFields hsame hlast os
  have hbody := IndexedValue.indexedBody_body true hindex hvalues hagrees
  obtain ⟨stored, hread, hkeeps⟩ := indexed_readFrom_of_body hlen rest hbody
  refine ⟨stored, by rwa [form_indexed], fun n s hs => ?_⟩
  have hbound : 0 + n < others.length := by
    rw [Nat.zero_add]
    exact (List.getElem?_eq_some_iff.1 hs).1
  have hslot := lastAt_presentFields 0 n (by omega : 0 + fields.length < 256) hbound os
  simp only [Nat.zero_add] at hslot
  rw [hkeeps n s hs, hslot]
  -- An absent field has the schema that both know it for.
  cases hwritten : slotAt fields os n with
  | none => rfl
  | some slot =>
    obtain ⟨t, o⟩ := slot
    obtain rfl := hsame n _ _ (getElem?_of_slotAt hwritten) hs
    cases o <;> rfl

theorem sameAge_append (fields more : List Schema) : SameAge (fields ++ more) fields := by
  intro n s s' h h'
  rw [List.getElem?_append_left (List.getElem?_eq_some_iff.1 h').1, h'] at h
  exact Option.some.inj h

theorem SameAge.symm (h : SameAge fields others) : SameAge others fields :=
  fun n s s' hs hs' => (h n s' s hs' hs).symm

/-- The slots tell what is read of a value by a reader of another age. -/
theorem indexed_readFrom_form_eq (hsame : SameAge fields others) {os : Options fields}
    {os' : Options others} (hfits : (indexed fields).Fits os) (rest : List UInt8)
    (hslots : ∀ n s, others[n]? = some s →
      slotAt others os' n = some ((slotAt fields os n).getD ⟨s, none⟩)) :
    (indexed others).decode.readFrom ((indexed fields).encode os [] ++ rest) = .ok (os', rest) := by
  obtain ⟨stored, hread, hstored⟩ := indexed_readFrom_form hsame hfits rest
  have heq : stored = os' := by
    apply eq_of_slotAt
    intro n
    cases hs : others[n]? with
    | none => rw [slotAt_of_getElem?_none hs, slotAt_of_getElem?_none hs]
    | some s => rw [hstored n s hs, hslots n s hs]
  rw [encode_eq, List.nil_append, hread, heq]

/-- Fields behind their indices, in any order and as often as one likes, with the terminating zero
or without it, are read up to the first index that a reader does not know: a walk yields them in
order, a reader with a list of fields stores the last one of each index, and both leave off right
behind the frame. So an older reader of songs keeps all that it knows, and a newer one finds no
rating. -/
theorem decode_indexed_evolved :
    (∀ (written : List IndexedValue) (ended : Bool), IndexedValue.Writable written ended →
      ∀ out rest : List UInt8,
        let message := Writer.message ⟨out⟩ (IndexedValue.putAll written ended)
        (∀ table : List (UInt8 × Schema),
          IndexedValue.Agrees (fun i => table.lookup i) written →
            ((Decoder.message fun f => f.indexedFields (tableFields f table true)).run
              ⟨message.bytes ++ rest, .unbounded⟩ out.length).Yields
                (IndexedValue.upToUnknown (fun i => table.lookup i) written) message.size) ∧
        ∀ fields : List Schema, IndexedValue.Agrees (schemaAt fields) written →
          ∃ os, ((indexed fields).decode.run ⟨message.bytes ++ rest, .unbounded⟩ out.length).Yields
              os message.size ∧
            KeepsLast fields (IndexedValue.upToUnknown (schemaAt fields) written) os) ∧
    (∀ song : Songs.indexedSongV2.Val, Songs.indexedSongV2.Fits song → ∀ rest : List UInt8,
      Songs.indexedSong.decode.readFrom (Songs.indexedSongV2.encode song [] ++ rest) =
        .ok ((song.1, song.2.1, song.2.2.1, ()), rest)) ∧
    ∀ song : Songs.indexedSong.Val, Songs.indexedSong.Fits song → ∀ rest : List UInt8,
      Songs.indexedSongV2.decode.readFrom (Songs.indexedSong.encode song [] ++ rest) =
        .ok ((song.1, song.2.1, song.2.2.1, none, ()), rest) := by
  let known : List Schema := [.text, .scalar .uint16, .array Songs.musician]
  have hsame := sameAge_append known [.scalar .float64]
  refine ⟨fun written ended h out rest => ?_, fun song hfits rest => ?_, fun song hfits rest => ?_⟩
  · intro message
    have hbytes : message.bytes = out ++ framed (IndexedValue.body written ended) :=
      IndexedValue.message_putAll out
    have hsize : message.size =
        out.length + (framed (IndexedValue.body written ended)).length := by
      rw [Writer.size, hbytes, List.length_append]
    rw [hbytes, hsize, List.append_assoc]
    refine ⟨fun table hagrees => h.walk_reads table hagrees out rest, fun fields hagrees => ?_⟩
    have hbody := IndexedValue.indexedBody_body ended h.index_ne h.fits hagrees
    obtain ⟨os, hread, hkeeps⟩ := indexed_readFrom_of_body h.body_fits [] hbody
    rw [List.append_nil] at hread
    exact ⟨os, (local_decode _).readFrom_nil_iff.1 hread out rest, hkeeps⟩
  · refine indexed_readFrom_form_eq hsame hfits rest fun n s hs => ?_
    rcases n with _ | _ | _ | n
    · rfl
    · rfl
    · rfl
    · cases hs
  · refine indexed_readFrom_form_eq hsame.symm hfits rest fun n s hs => ?_
    rcases n with _ | _ | _ | _ | n
    · rfl
    · rfl
    · rfl
    · cases hs
      rfl
    · cases hs

/-- The year twice, then an index that the reader does not know, then the title, and no end. -/
theorem decode_indexed_evolved_giantSteps :
    let written : List IndexedValue :=
      [⟨2, .scalar .uint16, 1959⟩, ⟨2, .scalar .uint16, 1960⟩, ⟨9, .bytes, [1, 2]⟩, ⟨1, .text, "N"⟩]
    let message := Writer.message ⟨[7, 7]⟩ (IndexedValue.putAll written false)
    let table : List (UInt8 × Schema) := [(1, .text), (2, .scalar .uint16)]
    let newer : Songs.indexedSongV2.Val := (some "Giant Steps", none, some [], some ⟨5⟩, ())
    let older : Songs.indexedSong.Val := (none, some 1959, some [Songs.coltrane], ())
    IndexedValue.Writable written false ∧ IndexedValue.Agrees (fun i => table.lookup i) written ∧
      IndexedValue.Agrees (schemaAt [.text, .scalar .uint16]) written ∧
      Songs.indexedSongV2.Fits newer ∧ Songs.indexedSong.Fits older ∧
      ((Decoder.message fun f => f.indexedFields (tableFields f table true)).run
        ⟨message.bytes ++ [5], .unbounded⟩ 2).Yields
          [⟨2, .scalar .uint16, some 1959⟩, ⟨2, .scalar .uint16, some 1960⟩] message.size ∧
      (∃ os, ((indexed [.text, .scalar .uint16]).decode.run
        ⟨message.bytes ++ [5], .unbounded⟩ 2).Yields os message.size) ∧
      Songs.indexedSong.decode.readFrom (Songs.indexedSongV2.encode newer [] ++ [5]) =
        .ok ((some "Giant Steps", none, some [], ()), [5]) ∧
      Songs.indexedSongV2.decode.readFrom (Songs.indexedSong.encode older [] ++ [5]) =
        .ok ((none, some 1959, some [Songs.coltrane], none, ()), [5]) := by
  intro written message table newer older
  have hwritable : IndexedValue.Writable written false :=
    ⟨by decide, by decide +kernel, by decide +kernel⟩
  have htable : IndexedValue.Agrees (fun i => table.lookup i) written := by
    simp only [IndexedValue.Agrees, written, List.forall_mem_cons]
    exact ⟨fun s hs => (Option.some.inj hs).symm, fun s hs => (Option.some.inj hs).symm,
      fun s hs => (nomatch (hs : none = some s)), fun s hs => (Option.some.inj hs).symm, by simp⟩
  have hfields : IndexedValue.Agrees (schemaAt [.text, .scalar .uint16]) written := by
    simp [IndexedValue.Agrees, written, schemaAt]
  have hnewer : Songs.indexedSongV2.Fits newer :=
    @of_decide_eq_true _ (decidableFits _ newer) (by decide +kernel)
  have holder : Songs.indexedSong.Fits older :=
    @of_decide_eq_true _ (decidableFits _ older) (by decide +kernel)
  obtain ⟨hwalk, hfromNewer, hfromOlder⟩ := decode_indexed_evolved
  obtain ⟨htables, hstored⟩ := hwalk written false hwritable [7, 7] [5]
  obtain ⟨os, hos, -⟩ := hstored _ hfields
  exact ⟨hwritable, htable, hfields, hnewer, holder, htables table htable, ⟨os, hos⟩,
    hfromNewer newer hnewer [5], hfromOlder older holder [5]⟩

end Schema
end WireFormat
