import WireFormat.Json.Reading

/-! Limits on what a reader accepts, and the options of a writer. -/
namespace WireFormat

/-- The largest length or position that fits a 64-bit index. -/
def maxIndex : Nat := 0xffffffffffffffff

/-- The longest message body, in bytes, and the longest text, array or map that a reader
accepts. -/
structure ReadLimits where
  messageLength : Nat := maxIndex
  arrayLength : Nat := maxIndex
  deriving DecidableEq, Repr

namespace ReadLimits

/-- No limit but the size of an index. -/
def unbounded : ReadLimits := {}

def json (l : ReadLimits) : String :=
  Json.renderSettings [("max_message_len", l.messageLength), ("max_array_len", l.arrayLength)]

def ofJson? (s : String) : Option ReadLimits := do
  match ← Json.settings? ["max_message_len", "max_array_len"] (← Json.parse? s) with
  | [message, array] => return ⟨message.getD maxIndex, array.getD maxIndex⟩
  | _ => none

end ReadLimits

/-- How many bytes a new writer sets aside. No output depends on it. -/
structure WriterOptions where
  initialCapacity : Nat := 256
  deriving DecidableEq, Repr

namespace WriterOptions

def default : WriterOptions := {}

def json (o : WriterOptions) : String :=
  Json.renderSettings [("initial_capacity", o.initialCapacity)]

def ofJson? (s : String) : Option WriterOptions := do
  match ← Json.settings? ["initial_capacity"] (← Json.parse? s) with
  | [capacity] => return ⟨capacity.getD default.initialCapacity⟩
  | _ => none

end WriterOptions
end WireFormat
