import WireFormat.Order

/-! IEEE 754 numbers held as their bit patterns, so that every payload of a NaN and
the sign of zero survive. -/
namespace WireFormat

structure Binary32 where
  bits : UInt32
  deriving DecidableEq, Repr

structure Binary64 where
  bits : UInt64
  deriving DecidableEq, Repr

namespace Binary32

/-- The order of the bit patterns, which tells all of them apart. -/
instance : Ord Binary32 := ⟨fun x y => compare x.bits y.bits⟩

instance : Std.TransOrd Binary32 := transOrd_of_embedding bits fun _ _ => rfl

instance : Std.LawfulEqOrd Binary32 :=
  lawfulEqOrd_of_embedding bits (fun _ _ => rfl) fun {x y} h => by cases x; cases y; cases h; rfl

def magnitude (x : Binary32) : UInt32 := x.bits &&& 0x7fffffff

def isNaN (x : Binary32) : Bool := 0x7f800000 < x.magnitude

/-- Equality of numbers: a NaN equals nothing and both zeros are equal. -/
def numEq (x y : Binary32) : Bool :=
  !x.isNaN && !y.isNaN && (x.bits == y.bits || x.magnitude == 0 && y.magnitude == 0)

end Binary32

namespace Binary64

instance : Ord Binary64 := ⟨fun x y => compare x.bits y.bits⟩

instance : Std.TransOrd Binary64 := transOrd_of_embedding bits fun _ _ => rfl

instance : Std.LawfulEqOrd Binary64 :=
  lawfulEqOrd_of_embedding bits (fun _ _ => rfl) fun {x y} h => by cases x; cases y; cases h; rfl

def magnitude (x : Binary64) : UInt64 := x.bits &&& 0x7fffffffffffffff

def isNaN (x : Binary64) : Bool := 0x7ff0000000000000 < x.magnitude

def numEq (x y : Binary64) : Bool :=
  !x.isNaN && !y.isNaN && (x.bits == y.bits || x.magnitude == 0 && y.magnitude == 0)

end Binary64
end WireFormat
