import WireFormat.Json.Reading

/-! The primitive types by their schema keywords. -/
namespace WireFormat

inductive WireType
  | bool
  | byte
  | uint16
  | int16
  | uint32
  | int32
  | uint64
  | int64
  | float32
  | float64
  | string
  | guid
  | date
  deriving DecidableEq, Repr

namespace WireType

/-- Every primitive type, in the order of the keyword table. -/
def all : List WireType :=
  [bool, byte, uint16, int16, uint32, int32, uint64, int64, float32, float64, string, guid, date]

/-- The number of bytes of a value, where all values have the same. -/
def fixedSize : WireType → Option Nat
  | bool | byte => some 1
  | uint16 | int16 => some 2
  | uint32 | int32 | float32 => some 4
  | uint64 | int64 | float64 | date => some 8
  | guid => some 16
  | string => none

def keyword : WireType → String
  | bool => "bool"
  | byte => "byte"
  | uint16 => "uint16"
  | int16 => "int16"
  | uint32 => "uint32"
  | int32 => "int32"
  | uint64 => "uint64"
  | int64 => "int64"
  | float32 => "float32"
  | float64 => "float64"
  | string => "string"
  | guid => "guid"
  | date => "date"

def ofExactKeyword? (s : String) : Option WireType := all.find? fun t => t.keyword = s

/-- The type that a schema names; `uint8` is another name of `byte`. -/
def ofKeyword? (s : String) : Option WireType :=
  if s = "uint8" then some byte else ofExactKeyword? s

def unknownKeyword (s : String) : String := s!"unknown wire type keyword '{s}'"

def json (t : WireType) : String := "\"" ++ t.keyword ++ "\""

/-- A type is written as its keyword, or as an object that maps its keyword to null. Other
names are not taken here. -/
def ofJson? (s : String) : Option WireType := do
  match ← Json.parse? s with
  | .text units => ofExactKeyword? (← Json.text? (.text units))
  | .object [(key, .null)] => ofExactKeyword? (← Json.text? (.text key))
  | _ => none

end WireType
end WireFormat
