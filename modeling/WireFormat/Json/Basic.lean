import WireFormat.Hex

/-! JSON texts read strictly: every number, text and bracket by the grammar, nothing
left over. A number keeps what tells an integer from other numbers; a text keeps its
escaped code units apart, because a lone surrogate is harmless where nobody reads it. -/
namespace WireFormat

/-- A character of a JSON text, or a code unit that was written as four hexadecimal digits. -/
inductive JsonUnit
  | char (c : Char)
  | code (n : Nat)
  deriving DecidableEq, Repr

inductive Json
  | null
  | bool (b : Bool)
  /-- A number by its sign and whole part; `plain` tells that no fraction and no exponent follow. -/
  | number (negative : Bool) (whole : Nat) (plain : Bool)
  | text (units : List JsonUnit)
  | array (items : List Json)
  | object (members : List (List JsonUnit × Json))

namespace Json

def isBlank (c : Char) : Bool := c = ' ' || c = '\t' || c = '\n' || c = '\r'

def skipBlanks (s : List Char) : List Char := s.dropWhile isBlank

def expect : List Char → List Char → Option (List Char)
  | [], s => some s
  | w :: ws, c :: s => if w = c then expect ws s else none
  | _ :: _, [] => none

def escaped? : Char → Option Char
  | '"' => some '"'
  | '\\' => some '\\'
  | '/' => some '/'
  | 'b' => some '\x08'
  | 'f' => some '\x0c'
  | 'n' => some '\n'
  | 'r' => some '\r'
  | 't' => some '\t'
  | _ => none

/-- The units up to the closing quote, and what follows it. -/
def textBody : List Char → Option (List JsonUnit × List Char)
  | [] => none
  | '"' :: rest => some ([], rest)
  | '\\' :: 'u' :: a :: b :: c :: d :: rest => do
      let n := 4096 * (← Hex.value? a) + 256 * (← Hex.value? b) + 16 * (← Hex.value? c) + (← Hex.value? d)
      let (units, rest) ← textBody rest
      return (.code n :: units, rest)
  | '\\' :: e :: rest => do
      let c ← escaped? e
      let (units, rest) ← textBody rest
      return (.char c :: units, rest)
  | c :: rest =>
      if c.toNat < 32 ∨ c = '\\' then none
      else do
        let (units, rest) ← textBody rest
        return (.char c :: units, rest)

def isDigit (c : Char) : Bool := '0' ≤ c && c ≤ '9'

def digitsValue (ds : List Char) : Nat := ds.foldl (fun n d => 10 * n + (d.toNat - 48)) 0

/-- A fraction, if a point stands here; a point needs a digit after it. -/
def fraction (s : List Char) : Option (Bool × List Char) :=
  match s with
  | '.' :: rest => if (rest.takeWhile isDigit).isEmpty then none else some (true, rest.dropWhile isDigit)
  | _ => some (false, s)

/-- An exponent, if its letter stands here; the letter needs a digit after its sign. -/
def exponent (s : List Char) : Option (Bool × List Char) :=
  match s with
  | c :: rest =>
      if c = 'e' ∨ c = 'E' then
        let digits := match rest with
          | '+' :: r => r
          | '-' :: r => r
          | r => r
        if (digits.takeWhile isDigit).isEmpty then none else some (true, digits.dropWhile isDigit)
      else some (false, s)
  | [] => some (false, [])

/-- A number after its sign; zero is the only whole part that begins with a zero. -/
def unsigned (negative : Bool) (s : List Char) : Option (Json × List Char) := do
  let ds := s.takeWhile isDigit
  guard (ds ≠ [] ∧ (ds.head? = some '0' → ds.length = 1))
  let (hasFraction, rest) ← fraction (s.dropWhile isDigit)
  let (hasExponent, rest) ← exponent rest
  return (.number negative (digitsValue ds) (!hasFraction && !hasExponent), rest)

mutual

/-- The value at the head of a text, blanks before it allowed. -/
def value : Nat → List Char → Option (Json × List Char)
  | 0, _ => none
  | fuel + 1, s =>
      match skipBlanks s with
      | 'n' :: rest => (expect "ull".toList rest).map fun r => (.null, r)
      | 't' :: rest => (expect "rue".toList rest).map fun r => (.bool true, r)
      | 'f' :: rest => (expect "alse".toList rest).map fun r => (.bool false, r)
      | '"' :: rest => (textBody rest).map fun (units, r) => (.text units, r)
      | '[' :: rest =>
          match skipBlanks rest with
          | ']' :: r => some (.array [], r)
          | r => (items fuel r).map fun (vs, r) => (.array vs, r)
      | '\x7b' :: rest =>
          match skipBlanks rest with
          | '\x7d' :: r => some (.object [], r)
          | r => (members fuel r).map fun (ms, r) => (.object ms, r)
      | '-' :: rest => unsigned true rest
      | rest => unsigned false rest

/-- One or more values with commas between them, up to the closing bracket. -/
def items : Nat → List Char → Option (List Json × List Char)
  | 0, _ => none
  | fuel + 1, s => do
      let (v, rest) ← value fuel s
      match skipBlanks rest with
      | ',' :: r =>
          let (vs, r) ← items fuel r
          return (v :: vs, r)
      | ']' :: r => return ([v], r)
      | _ => none

def members : Nat → List Char → Option (List (List JsonUnit × Json) × List Char)
  | 0, _ => none
  | fuel + 1, s =>
      match skipBlanks s with
      | '"' :: rest => do
          let (key, rest) ← textBody rest
          let rest ← expect [':'] (skipBlanks rest)
          let (v, rest) ← value fuel rest
          match skipBlanks rest with
          | ',' :: r =>
              let (ms, r) ← members fuel r
              return ((key, v) :: ms, r)
          | '\x7d' :: r => return ([(key, v)], r)
          | _ => none
      | _ => none

end

/-- A whole text as one value. Every level of nesting and every item takes a character,
so twice the length is fuel enough. -/
def parse? (s : String) : Option Json := do
  let cs := s.toList
  let (v, rest) ← value (2 * cs.length + 2) cs
  guard (skipBlanks rest = [])
  return v

end Json
end WireFormat
