import WireFormat.Binary
import WireFormat.Decoder
import WireFormat.Guid
import WireFormat.Order
import WireFormat.Timestamp.Basic
import WireFormat.WireType

/-! The primitive types of fixed width: their values, order, bytes and reads. -/
namespace WireFormat

inductive Scalar
  | bool
  | byte
  | uint16
  | int16
  | uint32
  | int32
  | uint64
  | int64
  | float32
  | float64
  | guid
  | date
  deriving DecidableEq, Repr

namespace Scalar

/-- Values in their order: numbers by value, floats by bit pattern, identifiers by natural
bytes, timestamps by signed ticks. -/
@[reducible] def ordered : Scalar → OrderedType
  | bool => .of Bool
  | byte => .of UInt8
  | uint16 => .of UInt16
  | int16 => .of Int16
  | uint32 => .of UInt32
  | int32 => .of Int32
  | uint64 => .of UInt64
  | int64 => .of Int64
  | float32 => .of Binary32
  | float64 => .of Binary64
  | guid => .of Guid
  | date => .of Timestamp

abbrev Val (s : Scalar) : Type := s.ordered.Carrier

def wireType : Scalar → WireType
  | bool => .bool
  | byte => .byte
  | uint16 => .uint16
  | int16 => .int16
  | uint32 => .uint32
  | int32 => .int32
  | uint64 => .uint64
  | int64 => .int64
  | float32 => .float32
  | float64 => .float64
  | guid => .guid
  | date => .date

/-- Zero, false, the identifier of zeros, the first tick. -/
def default : (s : Scalar) → s.Val
  | bool => false
  | byte | uint16 | int16 | uint32 | int32 | uint64 | int64 => 0
  | float32 => ⟨0⟩
  | float64 => ⟨0⟩
  | guid => .zero
  | date => ⟨0⟩

/-- Equality of values; floats compare as numbers. -/
def numEq : (s : Scalar) → s.Val → s.Val → Bool
  | float32, x, y => x.numEq y
  | float64, x, y => x.numEq y
  | s, x, y => compare (α := s.Val) x y == .eq

def bytes16 (v : UInt16) : List UInt8 := (IntegerCodec.selected.put16 v).toList
def bytes32 (v : UInt32) : List UInt8 := (IntegerCodec.selected.put32 v).toList
def bytes64 (v : UInt64) : List UInt8 := (IntegerCodec.selected.put64 v).toList

def bytes : (s : Scalar) → s.Val → List UInt8
  | bool, b => [if b then 1 else 0]
  | byte, b => [b]
  | uint16, v => bytes16 v
  | int16, v => bytes16 v.toUInt16
  | uint32, v => bytes32 v
  | int32, v => bytes32 v.toUInt32
  | uint64, v => bytes64 v
  | int64, v => bytes64 v.toUInt64
  | float32, v => bytes32 v.bits
  | float64, v => bytes64 v.bits
  | guid, v => v.toWire.toList
  | date, v => bytes64 v.ticks.toUInt64

/-- Reads a value. Every byte but zero is true. -/
def decode : (s : Scalar) → Decoder s.Val
  | bool => do return (← Decoder.byte) != 0
  | byte => Decoder.byte
  | uint16 => Decoder.word16
  | int16 => do return (← Decoder.word16).toInt16
  | uint32 => Decoder.word32
  | int32 => do return (← Decoder.word32).toInt32
  | uint64 => Decoder.word64
  | int64 => do return (← Decoder.word64).toInt64
  | float32 => do return ⟨← Decoder.word32⟩
  | float64 => do return ⟨← Decoder.word64⟩
  | guid => do return Guid.ofWire (← Decoder.block 16)
  | date => do return ⟨(← Decoder.word64).toInt64⟩

end Scalar
end WireFormat
