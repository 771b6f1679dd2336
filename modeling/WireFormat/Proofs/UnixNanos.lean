import WireFormat.Proofs.KindBits

/-! Timestamps and nanoseconds since 1970-01-01. The nanoseconds that fit a word make a short stretch
of time, and all of it has timestamps: they are the timestamps that its instants have. On the way
back nanoseconds are whole ticks, and they are missing where a word does not hold them. -/
namespace WireFormat

/-- The instant so many nanoseconds from 1970-01-01. -/
def DateTime.ofUnixNanos (n : Int64) : DateTime where
  seconds := n.toInt / 1000000000
  nanos := (n.toInt % 1000000000).toNat
  valid := by
    have hfits := fitsInt64_iff.1 (fitsInt64_toInt n)
    rw [DateTime.valid_iff]
    omega

theorem DateTime.instant_ofUnixNanos (n : Int64) : (ofUnixNanos n).instant = n.toInt := by
  unfold instant ofUnixNanos
  dsimp only
  omega

namespace Timestamp

variable {t : Timestamp} {m : Int64}

/-- Neither the division nor the sum overflows. -/
theorem ofUnixNanos_toInt (n : Int64) :
    (ofUnixNanos n).ticks.toInt = n.toInt / 100 + 621355968000000000 := by
  have hfits := fitsInt64_iff.1 (fitsInt64_toInt n)
  have hquotient : (Int64.ofInt (n.toInt / 100)).toInt = n.toInt / 100 :=
    Int64.toInt_ofInt_of_le (by omega) (by omega)
  unfold ofUnixNanos nanosPerTick
  rw [Int64.toInt_add, hquotient, unixEpochTicks_toInt]
  exact Int.bmod_eq_of_le (by omega) (by omega)

theorem ofDateTime?_ofUnixNanos (n : Int64) :
    ofDateTime? (DateTime.ofUnixNanos n) = some (ofUnixNanos n) := by
  have hfits := fitsInt64_iff.1 (fitsInt64_toInt n)
  refine ofDateTime?_eq_some_iff.2 ⟨?_, ?_⟩
  · unfold DateTime.firstCounted DateTime.ofUnixNanos
    dsimp only
    omega
  · rw [DateTime.tickCount_eq, DateTime.instant_ofUnixNanos, ofUnixNanos_toInt]

/-- The stretch lies behind year 1 and ends before the kind bits are reached. -/
theorem withoutKind_ofUnixNanos (n : Int64) : (ofUnixNanos n).withoutKind = ofUnixNanos n := by
  have hfits := fitsInt64_iff.1 (fitsInt64_toInt n)
  apply eq_of_toInt_eq
  rw [withoutKind_toInt, ofUnixNanos_toInt]
  omega

theorem toUnixNanos?_eq_some_iff :
    t.toUnixNanos? = some m ↔
      m.toInt = 100 * (t.withoutKind.ticks.toInt - 621355968000000000) := by
  rw [toUnixNanos?, int64?_eq_some_iff, unixTicks_toInt, nanosPerTick, Int.mul_comm]

theorem toUnixNanos?_eq_none_iff :
    t.toUnixNanos? = none ↔
      ¬ FitsInt64 (100 * (t.withoutKind.ticks.toInt - 621355968000000000)) := by
  rw [toUnixNanos?, int64?_eq_none_iff, unixTicks_toInt, nanosPerTick, Int.mul_comm]

theorem ofUnixNanos_of_toUnixNanos? (h : t.toUnixNanos? = some m) :
    ofUnixNanos m = t.withoutKind := by
  have hm := toUnixNanos?_eq_some_iff.1 h
  apply eq_of_toInt_eq
  rw [ofUnixNanos_toInt, hm]
  omega

theorem toUnixNanos?_map (t : Timestamp) :
    t.toUnixNanos?.map ofUnixNanos =
      if FitsInt64 (100 * (t.withoutKind.ticks.toInt - 621355968000000000))
      then some t.withoutKind else none := by
  cases h : t.toUnixNanos? with
  | none => rw [Option.map_none, if_neg (toUnixNanos?_eq_none_iff.1 h)]
  | some m =>
    have hfits := toUnixNanos?_eq_some_iff.1 h ▸ fitsInt64_toInt m
    rw [Option.map_some, if_pos hfits, ofUnixNanos_of_toUnixNanos? h]

/-- Nanoseconds in a word have the timestamp of their instant. They come back rounded down to a
tick, except that the eight least have no word to come back in. A timestamp has the nanoseconds
that its count without the kind bits amounts to, if a word holds them, and these have a timestamp
with that count. -/
theorem unixNanos_exact :
    (∀ n : Int64,
      FitsInt64 (n.toInt / 100 + 621355968000000000) ∧
      (ofUnixNanos n).ticks.toInt = n.toInt / 100 + 621355968000000000 ∧
      (∃ d : DateTime, d.seconds = n.toInt / 1000000000 ∧
        (d.nanos : Int) = n.toInt % 1000000000 ∧ ofDateTime? d = some (ofUnixNanos n)) ∧
      (∀ m, (ofUnixNanos n).toUnixNanos? = some m ↔ m.toInt = 100 * (n.toInt / 100)) ∧
      ((ofUnixNanos n).toUnixNanos? = none ↔ 100 * (n.toInt / 100) < Int64.minValue.toInt) ∧
      (100 * (n.toInt / 100) < Int64.minValue.toInt ↔ n.toInt < Int64.minValue.toInt + 8)) ∧
    ∀ t : Timestamp,
      (∀ m, t.toUnixNanos? = some m ↔
        m.toInt = 100 * (t.withoutKind.ticks.toInt - 621355968000000000)) ∧
      t.toUnixNanos?.map ofUnixNanos =
        if FitsInt64 (100 * (t.withoutKind.ticks.toInt - 621355968000000000))
        then some t.withoutKind else none := by
  refine ⟨fun n => ?_, fun t => ⟨fun m => toUnixNanos?_eq_some_iff, t.toUnixNanos?_map⟩⟩
  have hmin : Int64.minValue.toInt = -9223372036854775808 := by decide
  have hfits := fitsInt64_iff.1 (fitsInt64_toInt n)
  have hticks := ofUnixNanos_toInt n
  have hback : (ofUnixNanos n).withoutKind.ticks.toInt - 621355968000000000 = n.toInt / 100 := by
    rw [withoutKind_ofUnixNanos]
    omega
  refine ⟨hticks ▸ fitsInt64_toInt _, hticks, ?_, fun m => ?_, ?_, ?_⟩
  · refine ⟨DateTime.ofUnixNanos n, rfl, ?_, ofDateTime?_ofUnixNanos n⟩
    exact Int.toNat_of_nonneg (by omega)
  · rw [toUnixNanos?_eq_some_iff, hback]
  · rw [toUnixNanos?_eq_none_iff, hback, fitsInt64_iff]
    omega
  · omega

end Timestamp
end WireFormat
