import WireFormat.Timestamp.Basic

/-! Timestamps of instants. Where an instant has a timestamp, it is the exact count of its ticks.
The ticks of the whole seconds are counted from 1970-01-01 first, and that count has to fit a word
as well: instants long before year 1 have no timestamp, even if their count of ticks would fit. -/
namespace WireFormat

/-- A signed 64-bit word holds the number. -/
def FitsInt64 (n : Int) : Prop := Int64.minValue.toInt ≤ n ∧ n ≤ Int64.maxValue.toInt

instance (n : Int) : Decidable (FitsInt64 n) := by unfold FitsInt64; infer_instance

theorem fitsInt64_iff {n : Int} :
    FitsInt64 n ↔ -9223372036854775808 ≤ n ∧ n ≤ 9223372036854775807 := by
  have hmin : Int64.minValue.toInt = -9223372036854775808 := by decide
  have hmax : Int64.maxValue.toInt = 9223372036854775807 := by decide
  rw [FitsInt64, hmin, hmax]

theorem fitsInt64_toInt (x : Int64) : FitsInt64 x.toInt :=
  ⟨x.minValue_le_toInt, Int64.le_iff_toInt_le.1 x.le_maxValue⟩

theorem int64?_eq_some_iff {n : Int} {x : Int64} : int64? n = some x ↔ x.toInt = n := by
  unfold int64?
  split
  · rename_i h
    rw [Option.some.injEq]
    constructor
    · rintro rfl
      exact Int64.toInt_ofInt_of_le h.1 (Int.lt_of_le_of_lt h.2 (by decide))
    · rintro rfl
      exact Int64.ofInt_toInt x
  · rename_i h
    simp only [reduceCtorEq, false_iff]
    rintro rfl
    exact h (fitsInt64_toInt x)

theorem int64?_eq_none_iff {n : Int} : int64? n = none ↔ ¬ FitsInt64 n := by
  unfold int64?
  split
  · rename_i h
    exact iff_of_false (Option.some_ne_none _) (not_not_intro h)
  · rename_i h
    exact iff_of_true rfl h

theorem exists_toInt {n : Int} (h : FitsInt64 n) : ∃ x : Int64, x.toInt = n :=
  ⟨Int64.ofInt n, int64?_eq_some_iff.1 (if_pos h)⟩

namespace DateTime

theorem valid_iff {seconds : Int} {nanos : Nat} :
    Valid seconds nanos ↔
      -8334601228800 ≤ seconds ∧ seconds ≤ 8210266876799 ∧ nanos < 2000000000 :=
  Iff.rfl

/-- The ticks from 0001-01-01 to the instant, begun ones left out, however many they are. -/
def tickCount (d : DateTime) : Int := d.seconds * 10000000 + d.nanos / 100 + 621355968000000000

/-- The first second whose ticks since 1970-01-01 are no fewer than a word can count. It lies in
the year -27258. -/
def firstCounted : Int := -922337203685

end DateTime

namespace Timestamp

variable {d : DateTime} {t : Timestamp}

theorem unixEpochTicks_toInt : unixEpochTicks.toInt = 621355968000000000 := by decide

theorem ofDateTime?_eq_some_iff :
    ofDateTime? d = some t ↔ DateTime.firstCounted ≤ d.seconds ∧ t.ticks.toInt = d.tickCount := by
  obtain ⟨ticks⟩ := t
  simp only [ofDateTime?, Option.bind_eq_bind, Option.bind_eq_some_iff, int64?_eq_some_iff,
    Option.pure_def, Option.some.injEq, mk.injEq, ticksPerSecond, nanosPerTick,
    unixEpochTicks_toInt, DateTime.tickCount, DateTime.firstCounted]
  constructor
  · intro h
    obtain ⟨whole, hwhole, sum, hsum, _, hticks, rfl⟩ := h
    have hfits := fitsInt64_iff.1 (fitsInt64_toInt whole)
    omega
  · intro h
    obtain ⟨hfirst, hticks⟩ := h
    -- Of the three counts the last is the largest, and the first is not below the least word.
    have hfits := fitsInt64_iff.1 (fitsInt64_toInt ticks)
    obtain ⟨whole, hwhole⟩ : ∃ x : Int64, x.toInt = d.seconds * 10000000 :=
      exists_toInt (fitsInt64_iff.2 (by omega))
    obtain ⟨sum, hsum⟩ : ∃ x : Int64, x.toInt = whole.toInt + d.nanos / 100 :=
      exists_toInt (fitsInt64_iff.2 (by omega))
    exact ⟨whole, hwhole, sum, hsum, ticks, by omega, rfl⟩

/-- An instant has the timestamp that counts its ticks, exactly, if a word holds the count, and no
timestamp otherwise, except that instants before `firstCounted` have none whatever their count. -/
theorem ofDateTime?_exact (d : DateTime) :
    (∀ t, ofDateTime? d = some t ↔
        DateTime.firstCounted ≤ d.seconds ∧ t.ticks.toInt = d.tickCount) ∧
      (ofDateTime? d = none ↔ d.seconds < DateTime.firstCounted ∨ ¬ FitsInt64 d.tickCount) := by
  refine ⟨fun t => ofDateTime?_eq_some_iff, ?_⟩
  have hsome : (∃ t, ofDateTime? d = some t) ↔
      DateTime.firstCounted ≤ d.seconds ∧ FitsInt64 d.tickCount := by
    simp only [ofDateTime?_eq_some_iff]
    constructor
    · intro h
      obtain ⟨t, hfirst, ht⟩ := h
      exact ⟨hfirst, ht ▸ fitsInt64_toInt t.ticks⟩
    · intro h
      obtain ⟨hfirst, hfits⟩ := h
      obtain ⟨x, hx⟩ := exists_toInt hfits
      exact ⟨⟨x⟩, hfirst, hx⟩
  rw [← Option.not_isSome_iff_eq_none, Option.isSome_iff_exists, hsome,
    Decidable.not_and_iff_not_or_not, Int.not_le]

/-- One second before the first counted one: a word holds the count, but there is no timestamp. -/
theorem ofDateTime?_uncounted :
    let d : DateTime := ⟨-922337203686, 0, by decide⟩
    d.tickCount = -8602016068860000000 ∧ FitsInt64 d.tickCount ∧ ofDateTime? d = none ∧
      ¬ (ofDateTime? d = none ↔ ¬ FitsInt64 d.tickCount) := by
  intro d
  have hfits : FitsInt64 d.tickCount := by decide
  have hnone : ofDateTime? d = none := by decide
  exact ⟨by decide, hfits, hnone, fun h => h.1 hnone hfits⟩

end Timestamp
end WireFormat
