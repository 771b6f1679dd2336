/-! Little-endian words as bytes, in two independent ways: by shifts and masks, and
as the positional digits of the number in base 256. -/
namespace WireFormat

/-- A way to turn unsigned words of 16, 32 and 64 bits into bytes and back. -/
structure IntegerCodec where
  put16 : UInt16 → Vector UInt8 2
  put32 : UInt32 → Vector UInt8 4
  put64 : UInt64 → Vector UInt8 8
  get16 : Vector UInt8 2 → UInt16
  get32 : Vector UInt8 4 → UInt32
  get64 : Vector UInt8 8 → UInt64

namespace IntegerCodec

def shifts : IntegerCodec where
  put16 v := #v[v.toUInt8, (v >>> 8).toUInt8]
  put32 v := #v[v.toUInt8, (v >>> 8).toUInt8, (v >>> 16).toUInt8, (v >>> 24).toUInt8]
  put64 v :=
    #v[v.toUInt8, (v >>> 8).toUInt8, (v >>> 16).toUInt8, (v >>> 24).toUInt8,
      (v >>> 32).toUInt8, (v >>> 40).toUInt8, (v >>> 48).toUInt8, (v >>> 56).toUInt8]
  get16 b := b[0].toUInt16 ||| b[1].toUInt16 <<< 8
  get32 b :=
    b[0].toUInt32 ||| b[1].toUInt32 <<< 8 ||| b[2].toUInt32 <<< 16 ||| b[3].toUInt32 <<< 24
  get64 b :=
    b[0].toUInt64 ||| b[1].toUInt64 <<< 8 ||| b[2].toUInt64 <<< 16 ||| b[3].toUInt64 <<< 24 |||
      b[4].toUInt64 <<< 32 ||| b[5].toUInt64 <<< 40 ||| b[6].toUInt64 <<< 48 |||
      b[7].toUInt64 <<< 56

/-- The `width` lowest digits of `n` in base 256, least significant first. -/
def digits : (width n : Nat) → List UInt8
  | 0, _ => []
  | width + 1, n => UInt8.ofNat (n % 256) :: digits width (n / 256)

@[simp] theorem length_digits (width n : Nat) : (digits width n).length = width := by
  induction width generalizing n with
  | zero => rfl
  | succ width ih => simp [digits, ih]

def digitBlock (width n : Nat) : Vector UInt8 width := ⟨(digits width n).toArray, by simp⟩

/-- The number whose digits in base 256 are `ds`, least significant first. -/
def ofDigits : List UInt8 → Nat
  | [] => 0
  | d :: ds => d.toNat + 256 * ofDigits ds

/-- Bytes as the memory image of the word on a little-endian machine. -/
def image : IntegerCodec where
  put16 v := digitBlock 2 v.toNat
  put32 v := digitBlock 4 v.toNat
  put64 v := digitBlock 8 v.toNat
  get16 b := UInt16.ofNat (ofDigits b.toList)
  get32 b := UInt32.ofNat (ofDigits b.toList)
  get64 b := UInt64.ofNat (ofDigits b.toList)

/-- The codec that readers and writers use. -/
def selected : IntegerCodec := image

end IntegerCodec
end WireFormat
