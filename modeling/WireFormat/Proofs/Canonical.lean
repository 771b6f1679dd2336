import WireFormat.Proofs.RoundTrip

/-! Values with one wire form. A value without truth values, maps and frames is read from its own
wire form only: whatever bytes were accepted for it are those that writing it gives back. -/
namespace WireFormat

variable {α β : Type}

namespace Decoder

/-- Every value is read from its form, and from no other bytes. -/
def OneForm (d : Decoder α) (form : α → List UInt8) : Prop :=
  ∀ limits w a, d.Reads limits w a → w = form a

variable {d : Decoder α} {form : α → List UInt8}

theorem OneForm.map (hd : d.OneForm form) (hlocal : d.Local) {g : α → β}
    {form' : β → List UInt8} (hform : ∀ a, form' (g a) = form a) :
    (do return g (← d) : Decoder β).OneForm form' := by
  intro limits w b h
  obtain ⟨a, ha, rfl⟩ := (reads_map_iff hlocal).1 h
  rw [hform, hd limits w a ha]

theorem oneForm_byte : byte.OneForm fun b => [b] := fun _ _ _ h => reads_byte_iff.1 h

theorem oneForm_block (count : Nat) : (block count).OneForm Vector.toList := by
  intro limits w v h
  obtain ⟨hv, hlen⟩ := block_yields.1 ((local_block count).reads_iff.1 h)
  obtain rfl : count = w.length := by simpa using hlen
  simpa using hv

theorem oneForm_word16 : word16.OneForm Scalar.bytes16 :=
  (oneForm_block 2).map (local_block 2) fun v => by rw [Scalar.bytes16, IntegerCodec.put16_get16]

theorem oneForm_word32 : word32.OneForm Scalar.bytes32 :=
  (oneForm_block 4).map (local_block 4) fun v => by rw [Scalar.bytes32, IntegerCodec.put32_get32]

theorem oneForm_word64 : word64.OneForm Scalar.bytes64 :=
  (oneForm_block 8).map (local_block 8) fun v => by rw [Scalar.bytes64, IntegerCodec.put64_get64]

theorem oneForm_arrayLength : arrayLength.OneForm Writer.lengthBytes := by
  intro limits w n h
  obtain ⟨x, hx, rfl, -⟩ := reads_arrayLength_iff.1 h
  rw [oneForm_word32 limits w x hx, Scalar.bytes32, Writer.lengthBytes, UInt32.ofNat_toNat]

theorem oneForm_byteArray : byteArray.OneForm Schema.framed := by
  intro limits w u h
  obtain ⟨v, rfl, hlen⟩ := reads_byteArray_iff.1 h
  rw [oneForm_arrayLength limits v u.length hlen, Schema.framed]

theorem toUTF8_of_fromUTF8? {bytes : List UInt8} {t : String}
    (h : String.fromUTF8? ⟨bytes.toArray⟩ = some t) : t.toUTF8.data.toList = bytes := by
  unfold String.fromUTF8? at h
  split at h
  · obtain rfl := Option.some.inj h
    rfl
  · cases h

theorem oneForm_text : text.OneForm fun t => Schema.framed t.toUTF8.data.toList := by
  intro limits w t h
  obtain ⟨u, hu, ht⟩ := reads_text_iff.1 h
  rw [oneForm_byteArray limits w u hu]
  exact congrArg Schema.framed (toUTF8_of_fromUTF8? ht).symm

/-- Items read one by one are as many as were asked for, each from its form. -/
theorem OneForm.times (hd : d.OneForm form) (hlocal : d.Local) {limits : ReadLimits} {n : Nat}
    {w : List UInt8} {xs : List α} (h : (d.times n).Reads limits w xs) :
    xs.length = n ∧ w = xs.flatMap form := by
  induction n generalizing w xs with
  | zero =>
    obtain ⟨rfl, rfl⟩ := reads_pure_iff.1 h
    exact ⟨rfl, rfl⟩
  | succ n ih =>
    obtain ⟨u, v, x, rfl, hx, hrest⟩ :=
      (reads_bind_iff hlocal fun x => (local_times hlocal n).map _).1 h
    obtain ⟨xs, hxs, rfl⟩ := (reads_map_iff (local_times hlocal n)).1 hrest
    obtain ⟨hlen, rfl⟩ := ih hxs
    exact ⟨by rw [List.length_cons, hlen], by rw [List.flatMap_cons, hd limits u x hx]⟩

end Decoder

theorem Scalar.oneForm_decode {s : Scalar} (hs : s ≠ .bool) : s.decode.OneForm s.bytes := by
  cases s with
  | bool => contradiction
  | byte => exact Decoder.oneForm_byte
  | uint16 => exact Decoder.oneForm_word16
  | uint32 => exact Decoder.oneForm_word32
  | uint64 => exact Decoder.oneForm_word64
  | int16 => exact Decoder.oneForm_word16.map Decoder.local_word16 fun _ => rfl
  | int32 | float32 => exact Decoder.oneForm_word32.map Decoder.local_word32 fun _ => rfl
  | int64 | float64 | date => exact Decoder.oneForm_word64.map Decoder.local_word64 fun _ => rfl
  | guid =>
    exact (Decoder.oneForm_block 16).map (Decoder.local_block 16) fun v => by
      rw [bytes, Guid.toWire_ofWire]

namespace Schema

/-- The schemas without truth values, which have many forms of true, without maps, whose entries may
come in any order, and without frames, which may hold more than is read. -/
inductive Canonical : Schema → Prop
  | scalar {s : Scalar} (h : s ≠ .bool) : Canonical (scalar s)
  | text : Canonical text
  | bytes : Canonical bytes
  | array {item : Schema} (hitem : Canonical item) : Canonical (array item)
  | record {first : Schema} {rest : List Schema} (hfirst : Canonical first)
      (hrest : ∀ s ∈ rest, Canonical s) : Canonical (record first rest)

theorem reads_items_oneForm {item : Schema} (hitem : item.decode.OneForm item.form)
    {limits : ReadLimits} {count : Nat} {w : List UInt8} {xs : List item.Val}
    (h : (items item item.decode count).Reads limits w xs) :
    xs.length = count ∧ w = xs.flatMap item.form := by
  by_cases hbyte : item = .scalar .byte
  · subst hbyte
    obtain ⟨rfl, hlen⟩ := Decoder.reads_slice_iff.1 h
    exact ⟨hlen, (List.flatMap_singleton' w).symm⟩
  · rw [items_eq_times hbyte] at h
    exact hitem.times item.local_decode h

theorem oneForm_array {item : Schema} (hitem : item.decode.OneForm item.form) :
    (array item).decode.OneForm (array item).form := by
  intro limits w xs h
  obtain ⟨u, v, count, rfl, hcount, hitems⟩ := (Decoder.reads_bind_iff
    Decoder.local_arrayLength fun count =>
      Decoder.compositional_local.items item.local_decode count).1 h
  obtain ⟨rfl, rfl⟩ := reads_items_oneForm hitem hitems
  rw [form, Decoder.oneForm_arrayLength limits u _ hcount]

theorem oneForm_decodeAll {fields : List Schema}
    (h : ∀ s ∈ fields, s.decode.OneForm s.form) :
    (decodeAll fields).OneForm (formAll fields) := by
  induction fields with
  | nil =>
    intro limits w xs hreads
    exact (Decoder.reads_pure_iff.1 hreads).1
  | cons s rest ih =>
    rintro limits w ⟨x, xs⟩ hreads
    obtain ⟨u, v, rfl, hx, hxs⟩ := (reads_entry_iff s.local_decode (local_fields rest)).1 hreads
    have hrest := ih fun t ht => h t (List.mem_cons_of_mem s ht)
    rw [formAll, h s List.mem_cons_self limits u x hx, hrest limits v xs hxs]

theorem Canonical.oneForm_decode {s : Schema} (h : s.Canonical) : s.decode.OneForm s.form := by
  induction h with
  | scalar h => exact Scalar.oneForm_decode h
  | text => exact Decoder.oneForm_text
  | bytes => exact Decoder.oneForm_byteArray
  | array _ ih => exact oneForm_array ih
  | @record first rest _ _ ihfirst ihrest =>
    rintro limits w ⟨x, xs⟩ hreads
    obtain ⟨u, v, rfl, hx, hxs⟩ :=
      (reads_entry_iff first.local_decode (local_fields rest)).1 hreads
    rw [form, ihfirst limits u x hx, oneForm_decodeAll ihrest limits v xs hxs]

/-- Writing undoes reading, on canonical schemas: of whatever bytes a value was read, writing it
gives back those that the read took. So a value is read from no two runs of bytes. -/
theorem encode_decode (s : Schema) (hs : s.Canonical) :
    (∀ bytes v rest, s.decode.readFrom bytes = .ok (v, rest) → s.encode v [] ++ rest = bytes) ∧
      ∀ w w' v rest rest', s.decode.readFrom (w ++ rest) = .ok (v, rest) →
        s.decode.readFrom (w' ++ rest') = .ok (v, rest') → w = w' := by
  have hwritten : ∀ bytes v rest, s.decode.readFrom bytes = .ok (v, rest) →
      s.encode v [] ++ rest = bytes := by
    intro bytes v rest h
    obtain ⟨w, rfl, hw⟩ := s.local_decode.readFrom_iff.1 h
    rw [encode_eq, List.nil_append, hs.oneForm_decode _ w v hw]
  refine ⟨hwritten, fun w w' v rest rest' h h' => ?_⟩
  have hw := List.append_cancel_right (hwritten _ v rest h)
  have hw' := List.append_cancel_right (hwritten _ v rest' h')
  exact hw.symm.trans hw'

/-- One musician in an array, and a byte behind it. -/
theorem encode_decode_musician :
    let bytes : List UInt8 :=
      [1, 0, 0, 0, 3, 0, 0, 0, 0x41, 0xc3, 0xaf, 3, 2, 1, 0, 5, 4, 7, 6, 8, 9, 10, 11, 12, 13, 14, 15,
        0, 0x80, 0xb5, 0xf7, 0xf5, 0x7f, 0x9f, 0x88]
    let musician : Songs.musician.Val :=
      ("Aï", ⟨#v[0, 1, 2, 3, 4, 5, 6, 7, 8, 9, 10, 11, 12, 13, 14, 15]⟩, ⟨-8602016068854775808⟩, ())
    (array Songs.musician).Canonical ∧
      (array Songs.musician).decode.readFrom (bytes ++ [7]) = .ok ([musician], [7]) ∧
      (array Songs.musician).encode [musician] [] ++ [7] = bytes ++ [7] := by
  intro bytes musician
  have hcanonical : (array Songs.musician).Canonical := by
    refine .array (.record .text fun s hs => ?_)
    simp only [List.mem_cons, List.not_mem_nil, or_false] at hs
    rcases hs with rfl | rfl <;> exact .scalar (by decide)
  have hfits : (array Songs.musician).Fits [musician] := by decide +kernel
  have hform : (array Songs.musician).encode [musician] [] ++ [7] = bytes ++ [7] := by
    decide +kernel
  have hread : (array Songs.musician).decode.readFrom (bytes ++ [7]) = .ok ([musician], [7]) :=
    hform ▸ decode_encode _ _ hfits [7]
  have hwritten := (encode_decode (array Songs.musician) hcanonical).1
  exact ⟨hcanonical, hread, hwritten _ _ _ hread⟩

end Schema
end WireFormat
