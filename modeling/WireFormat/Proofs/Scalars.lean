import Mathlib.Algebra.Group.Nat.Defs
import WireFormat.Proofs.Locality
import WireFormat.Schema.Scalar

/-! Words, identifiers and scalars are read back from their own bytes. -/
namespace WireFormat

namespace IntegerCodec

theorem ofDigits_digits (width n : Nat) : ofDigits (digits width n) = n % 256 ^ width := by
  induction width generalizing n with
  | zero => simp [digits, ofDigits, Nat.mod_one]
  | succ width ih =>
    have hlow : (UInt8.ofNat (n % 256)).toNat = n % 256 := by
      rw [UInt8.toNat_ofNat']
      exact Nat.mod_eq_of_lt (Nat.mod_lt n (by decide))
    rw [digits, ofDigits, hlow, ih, Nat.pow_succ', Nat.mod_mul]

theorem toList_digitBlock (width n : Nat) : (digitBlock width n).toList = digits width n := by
  simp [digitBlock]

theorem ofDigits_digitBlock (width : Nat) {n : Nat} (h : n < 256 ^ width) :
    ofDigits (digitBlock width n).toList = n := by
  rw [toList_digitBlock, ofDigits_digits, Nat.mod_eq_of_lt h]

theorem ofDigits_lt (ds : List UInt8) : ofDigits ds < 256 ^ ds.length := by
  induction ds with
  | nil => exact Nat.one_pos
  | cons d ds ih =>
    have hd := d.toNat_lt
    rw [ofDigits, List.length_cons, Nat.pow_succ']
    omega

theorem get16_put16 (x : UInt16) : selected.get16 (selected.put16 x) = x := by
  have h := ofDigits_digitBlock 2 x.toNat_lt
  simp only [selected, image, h, UInt16.ofNat_toNat]

theorem get32_put32 (x : UInt32) : selected.get32 (selected.put32 x) = x := by
  have h := ofDigits_digitBlock 4 x.toNat_lt
  simp only [selected, image, h, UInt32.ofNat_toNat]

theorem get64_put64 (x : UInt64) : selected.get64 (selected.put64 x) = x := by
  have h := ofDigits_digitBlock 8 x.toNat_lt
  simp only [selected, image, h, UInt64.ofNat_toNat]

theorem digits_ofDigits (ds : List UInt8) : digits ds.length (ofDigits ds) = ds := by
  induction ds with
  | nil => rfl
  | cons d ds ih =>
    have hd := d.toNat_lt
    have hlow : (d.toNat + 256 * ofDigits ds) % 256 = d.toNat := by omega
    have hrest : (d.toNat + 256 * ofDigits ds) / 256 = ofDigits ds := by omega
    rw [ofDigits, List.length_cons, digits, hlow, hrest, ih, UInt8.ofNat_toNat]

/-- Digits that make up a number are the digits of the number; in a word of their width nothing
of it is lost. -/
theorem digitBlock_ofDigits {width : Nat} (v : Vector UInt8 width) :
    digitBlock width (ofDigits v.toList % 256 ^ width) = v := by
  have hlt := ofDigits_lt v.toList
  have hdigits := digits_ofDigits v.toList
  rw [Vector.length_toList] at hlt hdigits
  apply Vector.toList_inj.1
  simpa [digitBlock, Nat.mod_eq_of_lt hlt] using hdigits

theorem put16_get16 (v : Vector UInt8 2) : selected.put16 (selected.get16 v) = v := by
  show digitBlock 2 (UInt16.ofNat (ofDigits v.toList)).toNat = v
  rw [UInt16.toNat_ofNat']
  exact digitBlock_ofDigits v

theorem put32_get32 (v : Vector UInt8 4) : selected.put32 (selected.get32 v) = v := by
  show digitBlock 4 (UInt32.ofNat (ofDigits v.toList)).toNat = v
  rw [UInt32.toNat_ofNat']
  exact digitBlock_ofDigits v

theorem put64_get64 (v : Vector UInt8 8) : selected.put64 (selected.get64 v) = v := by
  show digitBlock 8 (UInt64.ofNat (ofDigits v.toList)).toNat = v
  rw [UInt64.toNat_ofNat']
  exact digitBlock_ofDigits v

/-- A word counts what its bytes do as digits. -/
theorem toNat_get32 (v : Vector UInt8 4) : (selected.get32 v).toNat = ofDigits v.toList := by
  have hlt := ofDigits_lt v.toList
  rw [Vector.length_toList] at hlt
  show (UInt32.ofNat _).toNat = _
  rw [UInt32.toNat_ofNat']
  exact Nat.mod_eq_of_lt hlt

end IntegerCodec

namespace Guid

theorem wireOrder_wireOrder (i : Fin 16) : wireOrder.get (wireOrder.get i) = i := by
  revert i
  decide

theorem permute_permute (bytes : Vector UInt8 16) : permute (permute bytes) = bytes := by
  ext i hi
  have h : wireOrder[wireOrder[i]] = ⟨i, hi⟩ := wireOrder_wireOrder ⟨i, hi⟩
  simp only [permute, Vector.getElem_map, Fin.getElem_fin] at h ⊢
  rw [h]

theorem ofWire_toWire (id : Guid) : ofWire id.toWire = id := by
  obtain ⟨bytes⟩ := id
  simp only [ofWire, toWire, permute_permute]

theorem toWire_ofWire (bytes : Vector UInt8 16) : (ofWire bytes).toWire = bytes :=
  permute_permute bytes

end Guid

namespace Decoder

variable (limits : ReadLimits)

theorem reads_byte (b : UInt8) : byte.Reads limits [b] b :=
  (reads_block limits #v[b]).map _

theorem reads_word16 (x : UInt16) :
    word16.Reads limits (IntegerCodec.selected.put16 x).toList x := by
  have h := (reads_block limits (IntegerCodec.selected.put16 x)).map
    IntegerCodec.selected.get16
  rwa [IntegerCodec.get16_put16] at h

theorem reads_word32 (x : UInt32) :
    word32.Reads limits (IntegerCodec.selected.put32 x).toList x := by
  have h := (reads_block limits (IntegerCodec.selected.put32 x)).map
    IntegerCodec.selected.get32
  rwa [IntegerCodec.get32_put32] at h

theorem reads_word64 (x : UInt64) :
    word64.Reads limits (IntegerCodec.selected.put64 x).toList x := by
  have h := (reads_block limits (IntegerCodec.selected.put64 x)).map
    IntegerCodec.selected.get64
  rwa [IntegerCodec.get64_put64] at h

end Decoder

theorem Scalar.reads_bytes (s : Scalar) (limits : ReadLimits) (v : s.Val) :
    s.decode.Reads limits (s.bytes v) v := by
  cases s with
  | bool =>
    have h := (Decoder.reads_byte limits (if v then 1 else 0)).map (· != 0)
    cases v <;> exact h
  | byte => exact Decoder.reads_byte limits v
  | uint16 => exact Decoder.reads_word16 limits v
  | int16 => exact (Decoder.reads_word16 limits v.toUInt16).map UInt16.toInt16
  | uint32 => exact Decoder.reads_word32 limits v
  | int32 => exact (Decoder.reads_word32 limits v.toUInt32).map UInt32.toInt32
  | uint64 => exact Decoder.reads_word64 limits v
  | int64 => exact (Decoder.reads_word64 limits v.toUInt64).map UInt64.toInt64
  | float32 => exact (Decoder.reads_word32 limits v.bits).map Binary32.mk
  | float64 => exact (Decoder.reads_word64 limits v.bits).map Binary64.mk
  | guid =>
    have h := (Decoder.reads_block limits v.toWire).map Guid.ofWire
    rwa [Guid.ofWire_toWire] at h
  | date => exact (Decoder.reads_word64 limits v.ticks.toUInt64).map fun x => Timestamp.mk x.toInt64

end WireFormat
