import WireFormat.Proofs.Compositional

/-! Reading a value of any schema is local: what a successful read yields depends on the bytes
it passed over, and not on where they stand or on what lies around them. -/
namespace WireFormat

theorem Decoder.compositional_local :
    Compositional (fun d => d.Local) fun body => LocalWithin body where
  pure := local_pure
  bind hd hnext := hd.bind hnext
  slice := local_slice
  block := local_block
  arrayLength := local_arrayLength
  byteArray := local_byteArray
  message hbody := local_message hbody
  pureWithin := localWithin_pure
  bindWithin hread hnext := hread.bind hnext
  field hd := localWithin_field hd
  indexedFields hrounds := localWithin_indexedFields_of_rounds hrounds

namespace Schema

section Entry

variable {α β : Type} {limits : ReadLimits} {u w : List UInt8} {left : Nat} {a : α} {b : β}
  {key : Decoder α} {value : Decoder β} {read : Frame → Decoder α} {next : Frame → Decoder β}

theorem reads_entry (hkey : key.Reads limits u a) (hvalue : value.Reads limits w b) :
    (entry key value).Reads limits (u ++ w) (a, b) :=
  hkey.bind (hvalue.map (a, ·))

theorem reads_entry_iff (hkey : key.Local) (hvalue : value.Local) :
    (entry key value).Reads limits w (a, b) ↔
      ∃ u v, w = u ++ v ∧ key.Reads limits u a ∧ value.Reads limits v b := by
  constructor
  · intro h
    obtain ⟨u, v, _, rfl, hu, hrest⟩ :=
      (Decoder.reads_bind_iff hkey fun a => hvalue.map (a, ·)).1 h
    obtain ⟨_, hv, hab⟩ := (Decoder.reads_map_iff hvalue).1 hrest
    obtain ⟨rfl, rfl⟩ := Prod.mk.inj hab
    exact ⟨u, v, rfl, hu, hv⟩
  · intro h
    obtain ⟨u, v, rfl, hu, hv⟩ := h
    exact reads_entry hu hv

theorem readsWithin_entry (h : ReadsWithin read limits u (w.length + left) a)
    (hnext : ReadsWithin next limits w left b) :
    ReadsWithin (fun f => entry (read f) (next f)) limits (u ++ w) left (a, b) :=
  h.bind (hnext.map (a, ·))

theorem readsWithin_entry_iff (hread : LocalWithin read) (hnext : LocalWithin next) :
    ReadsWithin (fun f => entry (read f) (next f)) limits w left (a, b) ↔
      ∃ u v, w = u ++ v ∧ ReadsWithin read limits u (v.length + left) a ∧
        ReadsWithin next limits v left b := by
  constructor
  · intro h
    obtain ⟨u, v, _, rfl, hu, hrest⟩ :=
      (readsWithin_bind_iff hread fun a => hnext.map (a, ·)).1 h
    obtain ⟨_, hv, hab⟩ := (readsWithin_map_iff hnext).1 hrest
    obtain ⟨rfl, rfl⟩ := Prod.mk.inj hab
    exact ⟨u, v, rfl, hu, hv⟩
  · intro h
    obtain ⟨u, v, rfl, hu, hv⟩ := h
    exact readsWithin_entry hu hv

end Entry

theorem local_decode (s : Schema) : s.decode.Local :=
  Decoder.compositional_local.decode s fun _ => Decoder.local_text

theorem local_fields (fields : List Schema) : (decodeAll fields).Local :=
  Decoder.compositional_local.decodeAll fun s _ => s.local_decode

theorem localWithin_fields (fields : List Schema) : LocalWithin (decodeFields fields) :=
  Decoder.compositional_local.decodeFields fun s _ => s.local_decode

theorem localWithin_decodeIndexed {fields : List Schema} {n : Nat}
    {read : Frame → Decoder (Options fields → Options fields)}
    (hread : decodeIndexed fields n = some read) : LocalWithin read :=
  Decoder.compositional_local.decodeIndexed (fun s _ => s.local_decode) hread

end Schema

theorem Scalar.needsByte_decode (s : Scalar) : s.decode.NeedsByte := by
  cases s with
  | byte => exact Decoder.needsByte_byte
  | uint16 => exact Decoder.needsByte_word16
  | uint32 => exact Decoder.needsByte_word32
  | uint64 => exact Decoder.needsByte_word64
  | bool => exact Decoder.needsByte_byte.bind
  | int16 => exact Decoder.needsByte_word16.bind
  | int32 | float32 => exact Decoder.needsByte_word32.bind
  | int64 | float64 | date => exact Decoder.needsByte_word64.bind
  | guid => exact (Decoder.needsByte_block (by decide)).bind

namespace Schema

theorem needsByte_decode (s : Schema) : s.decode.NeedsByte := by
  induction s using Schema.induct with
  | scalar s => exact s.needsByte_decode
  | text =>
    intro input p t q h
    obtain ⟨_, h, -⟩ := Decoder.text_yields.1 h
    obtain ⟨_, _, h, -⟩ := Decoder.byteArray_yields.1 h
    exact Decoder.needsByte_arrayLength _ _ _ _ h
  | bytes =>
    intro input p w q h
    obtain ⟨_, _, h, -⟩ := Decoder.byteArray_yields.1 h
    exact Decoder.needsByte_arrayLength _ _ _ _ h
  | array item => exact Decoder.needsByte_arrayLength.bind
  | map kind key value =>
    cases kind <;> exact Decoder.needsByte_arrayLength.bind
  | record first rest ihfirst => exact ihfirst.bind
  | message fields => exact Decoder.needsByte_message.bind
  | indexed fields => exact Decoder.needsByte_message.bind

/-- A successful read of a value passes over at least one byte and stays inside the input. From
another input with the same limits, at any position where the same bytes stand, it yields the
same value and passes over as many bytes. -/
theorem decode_position_independent (s : Schema) {input₁ input₂ : Input}
    (hlimits : input₁.limits = input₂.limits) {p₁ p₂ q : Nat} {v : s.Val}
    (h : (s.decode.run input₁ p₁).Yields v q)
    (hspan : (input₁.bytes.drop p₁).take (q - p₁) <+: input₂.bytes.drop p₂) :
    p₁ < q ∧ q ≤ input₁.bytes.length ∧
      (s.decode.run input₂ p₂).Yields v (p₂ + (q - p₁)) := by
  obtain ⟨w, hprefix, hpos, rfl, hw⟩ := s.local_decode.span s.needsByte_decode h
  have hlen := hprefix.length_le
  rw [List.length_drop] at hlen
  rw [Nat.add_sub_cancel_left, ← List.prefix_iff_eq_take.1 hprefix] at hspan
  rw [hlimits] at hw
  refine ⟨by omega, by omega, ?_⟩
  rw [Nat.add_sub_cancel_left]
  exact hw.of_prefix hpos hspan

theorem decode_position_independent_message :
    ((message [.scalar .uint16, .bytes]).decode.run
        ⟨[9, 8, 0, 0, 0, 0xa7, 0x07, 2, 0, 0, 0, 65, 66, 5], .unbounded⟩ 1).Yields
          (1959, [65, 66], ()) 13 ∧
      ((message [.scalar .uint16, .bytes]).decode.run
        ⟨[8, 0, 0, 0, 0xa7, 0x07, 2, 0, 0, 0, 65, 66, 255, 255], .unbounded⟩ 0).Yields
          (1959, [65, 66], ()) 12 := by
  have hrun : ((message [.scalar .uint16, .bytes]).decode.run
      ⟨[9, 8, 0, 0, 0, 0xa7, 0x07, 2, 0, 0, 0, 65, 66, 5], .unbounded⟩ 1).Yields
        (1959, [65, 66], ()) 13 := by
    constructor <;> rfl
  have hspan : ([9, 8, 0, 0, 0, 0xa7, 0x07, 2, 0, 0, 0, 65, 66, 5].drop 1).take (13 - 1) <+:
      (Input.mk [8, 0, 0, 0, 0xa7, 0x07, 2, 0, 0, 0, 65, 66, 255, 255] .unbounded).bytes.drop 0 :=
    ⟨[255, 255], rfl⟩
  exact ⟨hrun, (decode_position_independent _ (by rfl) hrun hspan).2.2⟩

end Schema
end WireFormat
