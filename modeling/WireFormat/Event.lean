import WireFormat.Error

/-! The diagnostic events of framed reading, in the order in which they arise. -/
namespace WireFormat

inductive Severity
  | debug
  | trace
  deriving DecidableEq, Repr

inductive Event
  | lengthRejected (error : DecodeError)
  | fieldOverrun (error : DecodeError)
  | fieldAbsent (declared : Nat)
  | trailingSkipped (skipped declared : Nat)
  deriving DecidableEq, Repr

/-- Named numbers as a bracketed list of quoted pairs. -/
def quotedPairs (pairs : List (String × Nat)) : String :=
  "[" ++ ", ".intercalate (pairs.map fun p => "(\"" ++ p.1 ++ "\", \"" ++ toString p.2 ++ "\")") ++ "]"

namespace Event

def severity : Event → Severity
  | lengthRejected _ | fieldOverrun _ => .debug
  | fieldAbsent _ | trailingSkipped .. => .trace

def message : Event → String
  | lengthRejected _ => "Rejected message length"
  | fieldOverrun _ => "Field decode ran past the frame"
  | fieldAbsent _ => "Frame exhausted, field absent"
  | trailingSkipped .. => "Skipping unknown trailing message bytes"

/-- The named texts of an event, in the order in which they are written. -/
def fields : Event → List (String × String)
  | lengthRejected e | fieldOverrun e =>
      [("context", "Frame"), ("error", e.message), ("fields", quotedPairs e.fields)]
  | fieldAbsent declared => [("context", "Frame"), ("declared", toString declared)]
  | trailingSkipped skipped declared =>
      [("context", "Frame"), ("skipped", toString skipped), ("declared", toString declared)]

end Event
end WireFormat
