import WireFormat.Hex
import WireFormat.Order

/-! 16-byte identifiers. On the wire the first three groups (4, 2 and 2 bytes) are
reversed and the last eight bytes stand as they are. -/
namespace WireFormat

/-- An identifier by its bytes in natural order, as they stand in its text. -/
structure Guid where
  bytes : Vector UInt8 16
  deriving DecidableEq

namespace Guid

instance : Ord Guid := ⟨fun x y => compare x.bytes.toList y.bytes.toList⟩

instance : Std.TransOrd Guid := transOrd_of_embedding (·.bytes.toList) fun _ _ => rfl

instance : Std.LawfulEqOrd Guid :=
  lawfulEqOrd_of_embedding (·.bytes.toList) (fun _ _ => rfl) fun {x y} h => by
    cases x; cases y; exact congrArg _ (Vector.toList_inj.1 h)

/-- The natural position of the byte at each wire position. -/
def wireOrder : Vector (Fin 16) 16 :=
  #v[3, 2, 1, 0, 5, 4, 7, 6, 8, 9, 10, 11, 12, 13, 14, 15]

def permute (bytes : Vector UInt8 16) : Vector UInt8 16 :=
  wireOrder.map fun source => bytes[source]

def toWire (id : Guid) : Vector UInt8 16 := permute id.bytes

def ofWire (bytes : Vector UInt8 16) : Guid := ⟨permute bytes⟩

def zero : Guid := ⟨Vector.replicate 16 0⟩

/-- Groups of 8, 4, 4, 4 and 12 hexadecimal digits. -/
def text (id : Guid) : String :=
  let digits := Hex.encode id.bytes.toList
  String.ofList <| "-".toList.intercalate
    [digits.take 8, (digits.drop 8).take 4, (digits.drop 12).take 4, (digits.drop 16).take 4,
      digits.drop 20]

/-- Reads the grouped text; hyphens stand at their four places and nowhere else. -/
def ofText? (s : String) : Option Guid := do
  let cs := s.toList
  let digits := cs.take 8 ++ (cs.drop 9).take 4 ++ (cs.drop 14).take 4 ++ (cs.drop 19).take 4 ++ cs.drop 24
  guard (cs[8]? = some '-' ∧ cs[13]? = some '-' ∧ cs[18]? = some '-' ∧ cs[23]? = some '-')
  let bytes ← Hex.decode? digits
  if h : bytes.toArray.size = 16 then some ⟨⟨bytes.toArray, h⟩⟩ else none

end Guid
end WireFormat
