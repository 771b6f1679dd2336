/-! Why a read can fail. Each cause keeps the numbers that describe it; wording,
kind and logged fields are views of the cause. -/
namespace WireFormat

inductive ErrorKind
  | unexpectedEndOfInput
  | arrayTooLong
  | messageBodyTooLong
  | messageBodyLengthEof
  | messageBodyOverrun
  | invalidUtf8
  deriving DecidableEq, Repr

inductive DecodeError
  /-- A value needs `requested` bytes and only `available` are left. -/
  | endOfInput (requested available position : Nat)
  /-- An element or byte count above the accepted `limit`. -/
  | arrayTooLong (length limit : Nat)
  | bodyTooLong (length limit : Nat)
  | bodyPastEnd (length available position : Nat)
  /-- A body that was read beyond its declared length. -/
  | bodyOverrun (declared consumed position : Nat)
  /-- A text whose payload, starting at `position`, is not UTF-8. -/
  | invalidUtf8 (position : Nat)
  deriving DecidableEq, Repr

namespace DecodeError

def kind : DecodeError → ErrorKind
  | endOfInput .. => .unexpectedEndOfInput
  | arrayTooLong .. => .arrayTooLong
  | bodyTooLong .. => .messageBodyTooLong
  | bodyPastEnd .. => .messageBodyLengthEof
  | bodyOverrun .. => .messageBodyOverrun
  | invalidUtf8 .. => .invalidUtf8

/-- The input ended early: more bytes might still complete the value. -/
def isTruncation : DecodeError → Bool
  | endOfInput .. | bodyPastEnd .. => true
  | _ => false

/-- The named numbers of an error, in the order in which they are logged. -/
def fields : DecodeError → List (String × Nat)
  | endOfInput requested available position =>
      [("requested", requested), ("available", available), ("position", position)]
  | arrayTooLong length limit | bodyTooLong length limit =>
      [("length", length), ("limit", limit)]
  | bodyPastEnd length available position =>
      [("length", length), ("available", available), ("position", position)]
  | bodyOverrun declared consumed position =>
      [("declared", declared), ("consumed", consumed), ("position", position)]
  | invalidUtf8 position => [("position", position)]

def message : DecodeError → String
  | endOfInput requested available position =>
      s!"Unexpected end of input: requested {requested} bytes at position {position}, but only {available} bytes available"
  | arrayTooLong length limit =>
      s!"Array too long: declared length {length} exceeds limit {limit}"
  | bodyTooLong length limit =>
      s!"Message body too long: declared length {length} exceeds limit {limit}"
  | bodyPastEnd length available position =>
      s!"Message body length {length} at position {position} runs past end of input ({available} bytes available)"
  | bodyOverrun declared consumed position =>
      s!"Message body overrun: frame declared {declared} bytes but {consumed} were consumed (cursor at {position})"
  | invalidUtf8 position => s!"Invalid UTF-8 in string payload at position {position}"

end DecodeError
end WireFormat
