import WireFormat.Proofs.Failure
import WireFormat.Proofs.IndexedWalk
import WireFormat.Schema.Decode

/-! Reads of fixed width: they succeed exactly where so many bytes are left, and take them. Scalars
are such reads, with the width that the catalogue of primitive types gives; so is any number of them
in a row. Bytes that are read one by one are the bytes that are taken in one piece. -/
namespace WireFormat

variable {α β γ : Type} {input : Input} {p q : Nat}

namespace Decoder

/-- The read succeeds where `width` bytes are left, and then takes them. -/
def Wide (d : Decoder α) (width : Nat) : Prop :=
  ∀ input p q, (∃ a, (d.run input p).Yields a q) ↔ width ≤ input.remaining p ∧ q = p + width

variable {d : Decoder α} {next : α → Decoder β} {m n : Nat}

theorem Wide.of_yields (hd : d.Wide n) {a : α} (h : (d.run input p).Yields a q) :
    n ≤ input.remaining p ∧ q = p + n :=
  (hd input p q).1 ⟨a, h⟩

theorem Wide.exists_yields (hd : d.Wide n) (h : n ≤ input.remaining p) :
    ∃ a, (d.run input p).Yields a (p + n) :=
  (hd input p (p + n)).2 ⟨h, rfl⟩

theorem wide_pure (a : α) : (pure a : Decoder α).Wide 0 := by
  intro input p q
  simp only [pure_yields, exists_eq_left', Nat.zero_le, Nat.add_zero, true_and]
  exact eq_comm

theorem Wide.bind (hd : d.Wide m) (hnext : ∀ a, (next a).Wide n) : (d >>= next).Wide (m + n) := by
  intro input p q
  constructor
  · intro h
    obtain ⟨b, h⟩ := h
    obtain ⟨a, r, ha, hb⟩ := bind_yields.1 h
    obtain ⟨hm, rfl⟩ := hd.of_yields ha
    obtain ⟨hn, rfl⟩ := (hnext a).of_yields hb
    unfold Input.remaining at hm hn ⊢
    omega
  · intro h
    obtain ⟨hleft, rfl⟩ := h
    obtain ⟨a, ha⟩ := hd.exists_yields (Nat.le_trans (Nat.le_add_right m n) hleft)
    have hrest : n ≤ input.remaining (p + m) := by
      unfold Input.remaining at hleft ⊢
      omega
    obtain ⟨b, hb⟩ := (hnext a).exists_yields hrest
    exact ⟨b, bind_yields.2 ⟨a, p + m, ha, by rwa [← Nat.add_assoc]⟩⟩

theorem Wide.map (hd : d.Wide n) (g : α → β) : (do return g (← d) : Decoder β).Wide n :=
  hd.bind fun a => wide_pure (g a)

theorem Wide.times (hd : d.Wide n) (count : Nat) : (d.times count).Wide (count * n) := by
  induction count with
  | zero => rw [Nat.zero_mul]; exact wide_pure []
  | succ count ih =>
    have hwidth : (count + 1) * n = n + count * n := by rw [Nat.succ_mul, Nat.add_comm]
    rw [hwidth]
    exact hd.bind fun a => ih.map (a :: ·)

theorem wide_block (count : Nat) : (block count).Wide count := by
  intro input p q
  rcases ((block count).run input p).yields_or_fails with ⟨v, hv⟩ | ⟨e, he⟩
  · have hlen := congrArg List.length (block_yields.1 hv).1
    simp only [List.length_take, List.length_drop, Vector.length_toList] at hlen
    have hleft : count ≤ input.remaining p := by
      unfold Input.remaining
      omega
    constructor
    · intro h
      obtain ⟨w, hw⟩ := h
      exact ⟨hleft, (block_yields.1 hw).2.symm⟩
    · intro h
      obtain ⟨-, rfl⟩ := h
      exact ⟨v, block_yields.2 ⟨(block_yields.1 hv).1, rfl⟩⟩
  · have hshort := (block_fails.1 he).1
    constructor
    · intro h
      obtain ⟨v, hv⟩ := h
      exact absurd he hv.not_fails
    · intro h
      omega

theorem length_of_times {count : Nat} {xs : List α}
    (h : ((d.times count).run input p).Yields xs q) : xs.length = count := by
  induction count generalizing p xs with
  | zero =>
    obtain ⟨rfl, -⟩ := pure_yields.1 h
    rfl
  | succ count ih =>
    obtain ⟨a, r, -, h⟩ := bind_yields.1 h
    obtain ⟨rest, hrest, rfl⟩ := map_yields.1 h
    rw [List.length_cons, ih hrest]

/-- Two changes of a value one after another are one. -/
theorem map_map (d : Decoder α) (f : α → β) (g : β → γ) :
    (do return g (← (do return f (← d) : Decoder β)) : Decoder γ) = do return g (f (← d)) :=
  congrArg mk (funext fun _ => funext fun _ => Step.andThen_assoc _ _ _)

end Decoder

/-- The read of a scalar is a block of bytes, as many as the catalogue says, and a reading of
them. -/
theorem Scalar.decode_eq_block (s : Scalar) :
    ∃ (width : Nat) (g : Vector UInt8 width → s.Val), s.wireType.fixedSize = some width ∧
      s.decode = do return g (← Decoder.block width) := by
  cases s with
  | byte => exact ⟨1, _, rfl, rfl⟩
  | uint16 => exact ⟨2, _, rfl, rfl⟩
  | uint32 => exact ⟨4, _, rfl, rfl⟩
  | uint64 => exact ⟨8, _, rfl, rfl⟩
  | guid => exact ⟨16, _, rfl, rfl⟩
  | bool => exact ⟨1, _, rfl, Decoder.map_map _ _ _⟩
  | int16 => exact ⟨2, _, rfl, Decoder.map_map _ _ _⟩
  | int32 | float32 => exact ⟨4, _, rfl, Decoder.map_map _ _ _⟩
  | int64 | float64 | date => exact ⟨8, _, rfl, Decoder.map_map _ _ _⟩

theorem Scalar.wide_decode {s : Scalar} {width : Nat} (h : s.wireType.fixedSize = some width) :
    s.decode.Wide width := by
  obtain ⟨width', g, hwidth, hdecode⟩ := s.decode_eq_block
  obtain rfl : width' = width := Option.some.inj (hwidth.symm.trans h)
  rw [hdecode]
  exact (Decoder.wide_block width').map g

namespace Decoder

theorem byte_yields {b : UInt8} :
    (byte.run input p).Yields b q ↔ input.bytes[p]? = some b ∧ p + 1 = q := by
  constructor
  · intro h
    obtain ⟨v, hv, rfl⟩ := map_yields.1 h
    obtain ⟨hbytes, rfl⟩ := block_yields.1 hv
    have hget := congrArg (·[0]?) hbytes
    simpa using hget
  · intro h
    obtain ⟨hb, rfl⟩ := h
    refine map_yields.2 ⟨#v[b], block_yields.2 ⟨?_, rfl⟩, rfl⟩
    rw [List.take_one, List.head?_drop, hb]
    rfl

theorem byte_fails {e : DecodeError} :
    (byte.run input p).Fails e ↔ input.remaining p = 0 ∧ .endOfInput 1 0 p = e := by
  refine (map_fails.trans block_fails).trans ?_
  constructor
  · intro h
    obtain ⟨hleft, rfl⟩ := h
    have hnone : input.remaining p = 0 := by omega
    exact ⟨hnone, by rw [hnone]⟩
  · intro h
    obtain ⟨hnone, rfl⟩ := h
    exact ⟨by omega, by rw [hnone]⟩

/-- Bytes taken in one piece are a byte and those behind it. -/
theorem slice_succ_yields {count : Nat} {w : List UInt8} :
    ((slice (count + 1)).run input p).Yields w q ↔ ∃ b rest, input.bytes[p]? = some b ∧
      ((slice count).run input (p + 1)).Yields rest q ∧ b :: rest = w := by
  simp only [slice_yields, Input.remaining]
  constructor
  · intro h
    obtain ⟨hleft, rfl, rfl⟩ := h
    have hp : p < input.bytes.length := by omega
    refine ⟨input.bytes[p], _, List.getElem?_eq_getElem hp, ⟨by omega, rfl, by omega⟩, ?_⟩
    rw [List.drop_eq_getElem_cons hp, List.take_succ_cons]
  · intro h
    obtain ⟨b, _, hb, ⟨hleft, rfl, rfl⟩, rfl⟩ := h
    obtain ⟨hp, rfl⟩ := List.getElem?_eq_some_iff.1 hb
    refine ⟨by omega, ?_, by omega⟩
    rw [List.drop_eq_getElem_cons hp, List.take_succ_cons]

theorem times_byte_yields {count : Nat} {w : List UInt8} :
    ((byte.times count).run input p).Yields w q ↔ ((slice count).run input p).Yields w q := by
  induction count generalizing p w with
  | zero => simp [times, slice_yields]
  | succ count ih =>
    rw [slice_succ_yields]
    constructor
    · intro h
      obtain ⟨b, r, hb, h⟩ := bind_yields.1 h
      obtain ⟨hget, rfl⟩ := byte_yields.1 hb
      obtain ⟨rest, hrest, rfl⟩ := map_yields.1 h
      exact ⟨b, rest, hget, ih.1 hrest, rfl⟩
    · intro h
      obtain ⟨b, rest, hget, hrest, rfl⟩ := h
      have hb : (byte.run input p).Yields b (p + 1) := byte_yields.2 ⟨hget, rfl⟩
      exact bind_yields.2 ⟨b, p + 1, hb, map_yields.2 ⟨rest, ih.2 hrest, rfl⟩⟩

/-- The loop fails at the end of the input, for want of a byte. -/
theorem times_byte_fails {count : Nat} {e : DecodeError} :
    ((byte.times count).run input p).Fails e ↔ input.remaining p < count ∧
      .endOfInput 1 0 (p + input.remaining p) = e := by
  induction count generalizing p with
  | zero => simp [times]
  | succ count ih =>
    constructor
    · intro h
      rcases bind_fails.1 h with h | ⟨b, r, hb, h⟩
      · obtain ⟨hnone, rfl⟩ := byte_fails.1 h
        rw [hnone]
        exact ⟨Nat.succ_pos count, rfl⟩
      · obtain ⟨hget, rfl⟩ := byte_yields.1 hb
        obtain ⟨hp, -⟩ := List.getElem?_eq_some_iff.1 hget
        obtain ⟨hshort, rfl⟩ := ih.1 (map_fails.1 h)
        unfold Input.remaining at hshort ⊢
        exact ⟨by omega, by congr 1; omega⟩
    · intro h
      obtain ⟨hshort, he⟩ := h
      cases hbyte : input.bytes[p]? with
      | none =>
        have hend := List.getElem?_eq_none_iff.1 hbyte
        have hnone : input.remaining p = 0 := Nat.sub_eq_zero_of_le hend
        rw [hnone, Nat.add_zero] at he
        exact bind_fails.2 (.inl (byte_fails.2 ⟨hnone, he⟩))
      | some b =>
        obtain ⟨hp, -⟩ := List.getElem?_eq_some_iff.1 hbyte
        have hleft : input.remaining p = 1 + input.remaining (p + 1) := by
          unfold Input.remaining
          omega
        rw [hleft, ← Nat.add_assoc] at he
        have hrest : ((byte.times count).run input (p + 1)).Fails e := ih.2 ⟨by omega, he⟩
        have hb : (byte.run input p).Yields b (p + 1) := byte_yields.2 ⟨hbyte, rfl⟩
        exact bind_fails.2 (.inr ⟨b, p + 1, hb, map_fails.2 hrest⟩)

end Decoder

/-- Bytes as the items of an array, taken in one piece and read one by one. Both reads succeed where
as many bytes are left as were counted, with these bytes and at the same position. Elsewhere both
fail for the end of the input: the one for all of the bytes and where it stands, the other for the
first byte that is not there. -/
theorem Schema.items_byte_agree (input : Input) (p count : Nat) :
    let whole := (items (scalar .byte) (scalar .byte).decode count).run input p
    let each := ((scalar .byte).decode.times count).run input p
    (∀ w q, whole.Yields w q ↔ each.Yields w q) ∧
      (∀ w q, whole.Yields w q ↔
        count ≤ input.remaining p ∧ (input.bytes.drop p).take count = w ∧ p + count = q) ∧
      (∀ e, whole.Fails e ↔
        input.remaining p < count ∧ .endOfInput count (input.remaining p) p = e) ∧
      ∀ e, each.Fails e ↔
        input.remaining p < count ∧ .endOfInput 1 0 (p + input.remaining p) = e :=
  ⟨fun _ _ => Decoder.times_byte_yields.symm, fun _ _ => Decoder.slice_yields,
    fun _ => Decoder.slice_fails, fun _ => Decoder.times_byte_fails⟩

end WireFormat
