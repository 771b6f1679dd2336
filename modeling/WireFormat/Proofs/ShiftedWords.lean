import WireFormat.Proofs.Scalars
import WireFormat.Writer.Basic

/-! Words by shifts against words by digits. A digit in base 256 takes eight bits, so that a digit
is cut off by a shift, and put in front by a shift and a disjunction. The two codecs write the
same bytes and read the same words, and each undoes itself. -/
namespace WireFormat

namespace IntegerCodec

theorem digits_succ (width n : Nat) :
    digits (width + 1) n = UInt8.ofNat n :: digits width (n >>> 8) := by
  have hlow : UInt8.ofNat (n % 256) = UInt8.ofNat n := UInt8.ofNat_mod_size
  rw [digits, hlow, Nat.shiftRight_eq_div_pow]

theorem ofDigits_nil : ofDigits [] = 0 := rfl

theorem ofDigits_cons (d : UInt8) (ds : List UInt8) :
    ofDigits (d :: ds) = d.toNat ||| ofDigits ds <<< 8 := by
  -- The shift leaves the eight bits free that the digit fills.
  have hor := Nat.shiftLeft_add_eq_or_of_lt d.toNat_lt (ofDigits ds)
  rw [ofDigits, Nat.or_comm, ← hor, Nat.shiftLeft_eq]
  omega

theorem toList_eq_ofFn {width : Nat} (b : Vector UInt8 width) :
    b.toList = List.ofFn fun i : Fin width => b[i] := by
  rw [← Vector.toList_ofFn]
  exact congrArg Vector.toList Vector.ofFn_getElem.symm

-- With the digits told by shifts, the bytes of the two codecs are the same by definition.

theorem shifts_put16 (x : UInt16) : shifts.put16 x = image.put16 x := by
  apply Vector.toList_inj.1
  simp only [shifts, image, digitBlock, digits_succ]
  rfl

theorem shifts_put32 (x : UInt32) : shifts.put32 x = image.put32 x := by
  apply Vector.toList_inj.1
  simp only [shifts, image, digitBlock, digits_succ, ← Nat.shiftRight_add]
  rfl

theorem shifts_put64 (x : UInt64) : shifts.put64 x = image.put64 x := by
  apply Vector.toList_inj.1
  simp only [shifts, image, digitBlock, digits_succ, ← Nat.shiftRight_add]
  rfl

-- The number of the digits is cut to the width of a word only after the shifts. No shift reaches
-- that width, so that the cut passes over them.

theorem shifts_get16 (b : Vector UInt8 2) : shifts.get16 b = image.get16 b := by
  have hbytes : b.toList = [b[0], b[1]] := toList_eq_ofFn b
  simp only [shifts, image, hbytes, ofDigits_cons, ofDigits_nil]
  simp only [Nat.shiftLeft_or_distrib, ← Nat.shiftLeft_add, Nat.reduceAdd, UInt16.ofNat_or]
  simp (disch := decide) only [UInt16.ofNat_shiftLeft]
  simp [Nat.zero_shiftLeft]

theorem shifts_get32 (b : Vector UInt8 4) : shifts.get32 b = image.get32 b := by
  have hbytes : b.toList = [b[0], b[1], b[2], b[3]] := toList_eq_ofFn b
  simp only [shifts, image, hbytes, ofDigits_cons, ofDigits_nil]
  simp only [Nat.shiftLeft_or_distrib, ← Nat.shiftLeft_add, Nat.reduceAdd, UInt32.ofNat_or]
  simp (disch := decide) only [UInt32.ofNat_shiftLeft]
  simp [Nat.zero_shiftLeft, UInt32.or_assoc]

theorem shifts_get64 (b : Vector UInt8 8) : shifts.get64 b = image.get64 b := by
  have hbytes : b.toList = [b[0], b[1], b[2], b[3], b[4], b[5], b[6], b[7]] :=
    toList_eq_ofFn b
  simp only [shifts, image, hbytes, ofDigits_cons, ofDigits_nil]
  simp only [Nat.shiftLeft_or_distrib, ← Nat.shiftLeft_add, Nat.reduceAdd, UInt64.ofNat_or]
  simp (disch := decide) only [UInt64.ofNat_shiftLeft]
  simp [Nat.zero_shiftLeft, UInt64.or_assoc]

theorem shifts_eq_image : shifts = image := by
  have hput : shifts.put16 = image.put16 ∧ shifts.put32 = image.put32 ∧
      shifts.put64 = image.put64 :=
    ⟨funext shifts_put16, funext shifts_put32, funext shifts_put64⟩
  have hget : shifts.get16 = image.get16 ∧ shifts.get32 = image.get32 ∧
      shifts.get64 = image.get64 :=
    ⟨funext shifts_get16, funext shifts_get32, funext shifts_get64⟩
  rw [shifts, image, mk.injEq]
  exact ⟨hput.1, hput.2.1, hput.2.2, hget⟩

/-- Words come back from their bytes, and bytes from the word that they make up. -/
structure Inverse (c : IntegerCodec) : Prop where
  word16 : ∀ x, c.get16 (c.put16 x) = x
  word32 : ∀ x, c.get32 (c.put32 x) = x
  word64 : ∀ x, c.get64 (c.put64 x) = x
  bytes16 : ∀ b, c.put16 (c.get16 b) = b
  bytes32 : ∀ b, c.put32 (c.get32 b) = b
  bytes64 : ∀ b, c.put64 (c.get64 b) = b

theorem inverse_image : image.Inverse :=
  ⟨get16_put16, get32_put32, get64_put64, put16_get16, put32_get32, put64_get64⟩

/-- Signed words are written as the unsigned words of the same bits. Wherever these bytes stand,
the signed word is read back. -/
structure KeepsSigned (c : IntegerCodec) : Prop where
  int16 : ∀ limits (v : Int16),
    (do return (c.get16 (← Decoder.block 2)).toInt16 : Decoder Int16).Reads limits
      (c.put16 v.toUInt16).toList v
  int32 : ∀ limits (v : Int32),
    (do return (c.get32 (← Decoder.block 4)).toInt32 : Decoder Int32).Reads limits
      (c.put32 v.toUInt32).toList v
  int64 : ∀ limits (v : Int64),
    (do return (c.get64 (← Decoder.block 8)).toInt64 : Decoder Int64).Reads limits
      (c.put64 v.toUInt64).toList v

theorem Inverse.keepsSigned {c : IntegerCodec} (h : c.Inverse) : c.KeepsSigned where
  int16 limits v := by
    have hread := (Decoder.reads_block limits (c.put16 v.toUInt16)).map
      fun b => (c.get16 b).toInt16
    rwa [h.word16] at hread
  int32 limits v := by
    have hread := (Decoder.reads_block limits (c.put32 v.toUInt32)).map
      fun b => (c.get32 b).toInt32
    rwa [h.word32] at hread
  int64 limits v := by
    have hread := (Decoder.reads_block limits (c.put64 v.toUInt64)).map
      fun b => (c.get64 b).toInt64
    rwa [h.word64] at hread

/-- The codec of shifts and the one of memory images can stand for each other: from every word they
append the same bytes to every buffer, and from all bytes they get the same word. Both undo
themselves in both directions and keep signed words, as do the signed scalars, whichever of the two
they use. -/
theorem codecs_interchangeable :
    ((∀ (w : Writer) x, w.append (shifts.put16 x).toList = w.append (image.put16 x).toList) ∧
      (∀ (w : Writer) x, w.append (shifts.put32 x).toList = w.append (image.put32 x).toList) ∧
      ∀ (w : Writer) x, w.append (shifts.put64 x).toList = w.append (image.put64 x).toList) ∧
    ((∀ b, shifts.get16 b = image.get16 b) ∧ (∀ b, shifts.get32 b = image.get32 b) ∧
      ∀ b, shifts.get64 b = image.get64 b) ∧
    (shifts.Inverse ∧ image.Inverse) ∧ (shifts.KeepsSigned ∧ image.KeepsSigned) ∧
    (selected = shifts ∧ selected = image) ∧
    (∀ limits v, Scalar.int16.decode.Reads limits (Scalar.int16.bytes v) v) ∧
    (∀ limits v, Scalar.int32.decode.Reads limits (Scalar.int32.bytes v) v) ∧
    ∀ limits v, Scalar.int64.decode.Reads limits (Scalar.int64.bytes v) v := by
  have hshifts : shifts.Inverse := shifts_eq_image ▸ inverse_image
  refine ⟨⟨?_, ?_, ?_⟩, ⟨shifts_get16, shifts_get32, shifts_get64⟩, ⟨hshifts, inverse_image⟩,
    ⟨hshifts.keepsSigned, inverse_image.keepsSigned⟩, ⟨shifts_eq_image.symm, rfl⟩,
    Scalar.int16.reads_bytes, Scalar.int32.reads_bytes, Scalar.int64.reads_bytes⟩
  · intro w x
    rw [shifts_put16]
  · intro w x
    rw [shifts_put32]
  · intro w x
    rw [shifts_put64]

end IntegerCodec
end WireFormat
