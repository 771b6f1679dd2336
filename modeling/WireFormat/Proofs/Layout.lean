import WireFormat.Proofs.GuidLayout
import WireFormat.Proofs.WireForm

/-! The bytes of every value, set out apart from how they are written: numbers by their digits in
base 256, lowest first, and everything else by what it is made of. What is written is this layout. -/
namespace WireFormat

namespace IntegerCodec

theorem digits_mod (width n : Nat) : digits width (n % 256 ^ width) = digits width n := by
  induction width generalizing n with
  | zero => rfl
  | succ width ih =>
    have hlow : n % 256 ^ (width + 1) % 256 = n % 256 := by
      rw [Nat.pow_succ', Nat.mod_mul_right_mod]
    have hhigh : n % 256 ^ (width + 1) / 256 = n / 256 % 256 ^ width := by
      rw [Nat.pow_succ', Nat.mod_mul_right_div_self]
    rw [digits, digits, hlow, hhigh, ih]

/-- The digits of a word are those of its signed value, up to a multiple of the number of words. -/
theorem digits_signed (count : Nat) {width : Nat} (x : BitVec width) :
    digits count x.toNat = digits count (x.toInt % (2 ^ width : Nat)).toNat := by
  rw [← BitVec.toNat_ofInt, BitVec.ofInt_toInt]

end IntegerCodec

open IntegerCodec

/-- A length is written as a number of four bytes, the lowest first. -/
theorem Writer.lengthBytes_eq (n : Nat) : lengthBytes n = digits 4 n := by
  have hword : lengthBytes n = digits 4 (n % 256 ^ 4) := by
    simp [lengthBytes, selected, image, digitBlock]
  rw [hword, digits_mod]

namespace Scalar

/-- The bytes of a scalar. A truth value or a byte takes one. Numbers go by their digits, as many as
their type is wide, where a negative one counts back from the end of the range. Floats go by their
bits and dates by their ticks. Of an identifier the first three groups stand in reverse. -/
def layout : (s : Scalar) → s.Val → List UInt8
  | bool, b => [if b then 1 else 0]
  | byte, b => [b]
  | uint16, v => digits 2 v.toNat
  | int16, v => digits 2 (v.toInt % 0x10000).toNat
  | uint32, v => digits 4 v.toNat
  | int32, v => digits 4 (v.toInt % 0x100000000).toNat
  | uint64, v => digits 8 v.toNat
  | int64, v => digits 8 (v.toInt % 0x10000000000000000).toNat
  | float32, v => digits 4 v.bits.toNat
  | float64, v => digits 8 v.bits.toNat
  | guid, v =>
      (v.bytes.toList.take 4).reverse ++ ((v.bytes.toList.drop 4).take 2).reverse ++
        ((v.bytes.toList.drop 6).take 2).reverse ++ v.bytes.toList.drop 8
  | date, v => digits 8 (v.ticks.toInt % 0x10000000000000000).toNat

theorem bytes16_eq (v : UInt16) : bytes16 v = digits 2 v.toNat := toList_digitBlock 2 v.toNat

theorem bytes32_eq (v : UInt32) : bytes32 v = digits 4 v.toNat := toList_digitBlock 4 v.toNat

theorem bytes64_eq (v : UInt64) : bytes64 v = digits 8 v.toNat := toList_digitBlock 8 v.toNat

theorem bytes_eq_layout (s : Scalar) (v : s.Val) : s.bytes v = s.layout v := by
  cases s with
  | bool | byte => rfl
  | uint16 => exact bytes16_eq v
  | int16 => exact (bytes16_eq v.toUInt16).trans (digits_signed 2 v.toBitVec)
  | uint32 => exact bytes32_eq v
  | int32 => exact (bytes32_eq v.toUInt32).trans (digits_signed 4 v.toBitVec)
  | uint64 => exact bytes64_eq v
  | int64 => exact (bytes64_eq v.toUInt64).trans (digits_signed 8 v.toBitVec)
  | float32 => exact bytes32_eq v.bits
  | float64 => exact bytes64_eq v.bits
  | date => exact (bytes64_eq v.ticks.toUInt64).trans (digits_signed 8 v.ticks.toBitVec)
  | guid =>
    show (Guid.permute v.bytes).toList = _
    rw [Guid.permute_toList]
    simp only [layout, List.append_assoc]

end Scalar

namespace Schema

/-- Bytes behind the number of them. -/
def counted (bytes : List UInt8) : List UInt8 := digits 4 bytes.length ++ bytes

mutual

/-- The bytes of a value, with every length and every number of items in front. -/
def layout : (s : Schema) → s.Val → List UInt8
  | scalar s, v => s.layout v
  | text, v => counted v.toUTF8.data.toList
  | bytes, v => counted v
  | array item, v => digits 4 v.length ++ v.flatMap (layout item)
  | map .sorted key value, v =>
      digits 4 v.entries.length ++ v.entries.flatMap fun e => layout key e.1 ++ layout value e.2
  | map .hashed key value, v =>
      digits 4 v.entries.length ++ v.entries.flatMap fun e => layout key e.1 ++ layout value e.2
  | record first rest, (x, xs) => layout first x ++ layoutAll rest xs
  | message fields, xs => counted (layoutAll fields xs)
  | indexed fields, os => counted (layoutIndexed fields 1 os ++ [0])

def layoutAll : (fields : List Schema) → Vals fields → List UInt8
  | [], _ => []
  | s :: rest, (x, xs) => layout s x ++ layoutAll rest xs

/-- The fields that are there, each behind its index. -/
def layoutIndexed : (fields : List Schema) → Nat → Options fields → List UInt8
  | [], _, _ => []
  | s :: rest, index, (o, os) =>
      (match o with
        | some x => UInt8.ofNat index :: layout s x
        | none => []) ++ layoutIndexed rest (index + 1) os

end

theorem framed_eq (bytes : List UInt8) : framed bytes = counted bytes := by
  rw [framed, counted, Writer.lengthBytes_eq]

section Fields

variable {fields : List Schema}

theorem formAll_eq_layoutAll (h : ∀ s ∈ fields, ∀ v, s.form v = s.layout v) (xs : Vals fields) :
    formAll fields xs = layoutAll fields xs := by
  induction fields with
  | nil => rfl
  | cons s rest ih =>
    obtain ⟨x, xs⟩ := xs
    rw [formAll, layoutAll, h s List.mem_cons_self x,
      ih (fun t ht => h t (List.mem_cons_of_mem s ht)) xs]

theorem formIndexed_eq_layoutIndexed (h : ∀ s ∈ fields, ∀ v, s.form v = s.layout v) (index : Nat)
    (os : Options fields) : formIndexed fields index os = layoutIndexed fields index os := by
  induction fields generalizing index with
  | nil => rfl
  | cons s rest ih =>
    obtain ⟨o, os⟩ := os
    have hrest := ih (fun t ht => h t (List.mem_cons_of_mem s ht)) (index + 1) os
    cases o with
    | none => simp only [formIndexed, layoutIndexed, hrest]
    | some x => simp only [formIndexed, layoutIndexed, hrest, h s List.mem_cons_self x]

end Fields

theorem form_eq_layout (s : Schema) : ∀ v, s.form v = s.layout v := by
  induction s using Schema.induct with
  | scalar s => exact s.bytes_eq_layout
  | text => exact fun v => framed_eq v.toUTF8.data.toList
  | bytes => exact framed_eq
  | array item ih =>
    intro v
    rw [form, layout, Writer.lengthBytes_eq, funext ih]
  | map kind key value ihkey ihvalue =>
    intro v
    cases kind <;> simp only [form, layout, Writer.lengthBytes_eq, ihkey, ihvalue]
  | record first rest ihfirst ihrest =>
    intro v
    obtain ⟨x, xs⟩ := v
    rw [form, layout, ihfirst, formAll_eq_layoutAll ihrest]
  | message fields ih =>
    intro xs
    rw [form, layout, framed_eq, formAll_eq_layoutAll ih]
  | indexed fields ih =>
    intro os
    rw [form, layout, framed_eq, formIndexed_eq_layoutIndexed ih]

/-- Writing a value leaves its layout behind what is there. -/
theorem appends_layout (s : Schema) (v : s.Val) : Writer.Appends (s.put v) (s.layout v) := by
  rw [← s.form_eq_layout]
  exact s.appends_put v

theorem encode_eq_layout (s : Schema) (v : s.Val) (out : List UInt8) :
    s.encode v out = out ++ s.layout v := by
  rw [← s.form_eq_layout]
  exact s.encode_eq v out

end Schema
end WireFormat
