import WireFormat.Json.Reading
import WireFormat.Order
import WireFormat.Timestamp.Calendar

/-! Timestamps: signed counts of 100-nanosecond ticks since 0001-01-01T00:00:00 UTC. On
the wire the count is all there is; this module converts it. -/
namespace WireFormat

structure Timestamp where
  ticks : Int64
  deriving DecidableEq

/-- An integer as a signed 64-bit word, if it is one. -/
def int64? (n : Int) : Option Int64 :=
  if Int64.minValue.toInt ≤ n ∧ n ≤ Int64.maxValue.toInt then some (Int64.ofInt n) else none

namespace Timestamp

instance : Ord Timestamp := ⟨fun x y => compare x.ticks y.ticks⟩

instance : Std.TransOrd Timestamp := transOrd_of_embedding ticks fun _ _ => rfl

instance : Std.LawfulEqOrd Timestamp :=
  lawfulEqOrd_of_embedding ticks (fun _ _ => rfl) fun {x y} h => by cases x; cases y; cases h; rfl

def ticksPerSecond : Int := 10000000
def nanosPerTick : Int := 100

/-- The ticks from 0001-01-01 to 1970-01-01. -/
def unixEpochTicks : Int64 := 621355968000000000

/-- Some writers keep the kind of a date in the two high bits of the count; these are the
other bits. -/
def tickMask : UInt64 := 0x3fffffffffffffff

def unixEpoch : Timestamp := ⟨unixEpochTicks⟩

/-- Ticks since 1970-01-01, the two kind bits cleared. -/
def unixTicks (t : Timestamp) : Int64 :=
  (t.ticks.toUInt64 &&& tickMask).toInt64 - unixEpochTicks

/-- Nanoseconds since 1970-01-01, rounded down to a tick. -/
def ofUnixNanos (nanos : Int64) : Timestamp :=
  ⟨Int64.ofInt (nanos.toInt / nanosPerTick) + unixEpochTicks⟩

/-- Nanoseconds since 1970-01-01, if they fit a signed 64-bit word. -/
def toUnixNanos? (t : Timestamp) : Option Int64 := int64? (t.unixTicks.toInt * nanosPerTick)

/-- The ticks of an instant. Every intermediate count has to fit a signed 64-bit word. -/
def ofDateTime? (d : DateTime) : Option Timestamp := do
  let whole ← int64? (d.seconds * ticksPerSecond)
  let sinceUnix ← int64? (whole.toInt + d.nanos / nanosPerTick)
  let ticks ← int64? (sinceUnix.toInt + unixEpochTicks.toInt)
  return ⟨ticks⟩

/-- The instant of a tick count; without its kind bits a negative count is a date far in
the future. -/
def toDateTime? (t : Timestamp) : Option DateTime :=
  let ticks := t.unixTicks.toInt
  DateTime.ofUnix? (ticks / ticksPerSecond)
    (UInt32.ofNat (ticks % ticksPerSecond * nanosPerTick).toNat).toNat

def text (t : Timestamp) : String :=
  match t.toDateTime? with
  | some d => d.rfc3339
  | none => toString t.ticks.toInt ++ " ticks"

def json (t : Timestamp) : String := toString t.ticks.toInt

def ofJson? (s : String) : Option Timestamp := do
  let n ← (← Json.parse? s).int?
  return ⟨← int64? n⟩

end Timestamp
end WireFormat
