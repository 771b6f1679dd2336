import WireFormat.Json.Basic

/-! Typed readings of JSON values. -/
namespace WireFormat.Json

/-- The text that units spell; a surrogate must stand in a pair. -/
def unitsText? : List JsonUnit → Option (List Char)
  | [] => some []
  | .char c :: rest => (unitsText? rest).map (c :: ·)
  | .code high :: .code low :: rest =>
      if 0xd800 ≤ high ∧ high < 0xdc00 then
        if 0xdc00 ≤ low ∧ low < 0xe000 then
          (unitsText? rest).map
            (Char.ofNat (0x10000 + 1024 * (high - 0xd800) + (low - 0xdc00)) :: ·)
        else none
      else if 0xdc00 ≤ high ∧ high < 0xe000 then none
      else (unitsText? (.code low :: rest)).map (Char.ofNat high :: ·)
  | .code n :: rest =>
      if 0xd800 ≤ n ∧ n < 0xe000 then none else (unitsText? rest).map (Char.ofNat n :: ·)

def text? : Json → Option String
  | .text units => (unitsText? units).map String.ofList
  | _ => none

/-- An integer. Minus zero is not one. -/
def int? : Json → Option Int
  | .number negative whole true =>
      if negative then if whole = 0 then none else some (-whole) else some whole
  | _ => none

def word64? (v : Json) : Option Nat := do
  let n ← v.int?
  guard (0 ≤ n ∧ n < 0x10000000000000000)
  return n.toNat

/-- Puts the members of an object into the places of named settings. Unknown members are
passed over; a known one may stand only once. -/
def placeMembers (names : List String) :
    List (List JsonUnit × Json) → List (Option Nat) → Option (List (Option Nat))
  | [], places => some places
  | (key, v) :: rest, places => do
      let name ← unitsText? key
      match names.findIdx? (·.toList = name) with
      | none => placeMembers names rest places
      | some i =>
          guard (places[i]? = some none)
          let n ← v.word64?
          placeMembers names rest (places.set i (some n))

/-- Named settings from an object, or from an array that gives them in order. A setting
that is not given is `none`. -/
def settings? (names : List String) : Json → Option (List (Option Nat))
  | .object members => placeMembers names members (names.map fun _ => none)
  | .array items => do
      guard (items.length ≤ names.length)
      let given ← items.mapM word64?
      return given.map some ++ List.replicate (names.length - given.length) none
  | _ => none

/-- An object of named numbers, without blanks. -/
def renderSettings (members : List (String × Nat)) : String :=
  "\x7b" ++ ",".intercalate (members.map fun m => "\"" ++ m.1 ++ "\":" ++ toString m.2) ++ "\x7d"

end WireFormat.Json
