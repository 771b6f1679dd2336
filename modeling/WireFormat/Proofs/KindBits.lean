import WireFormat.Proofs.Instants

/-! Instants of timestamps. Every tick count has an instant, found without its two high bits, and
that instant has a timestamp again; so the kind bits are all that a timestamp loses by the way of
its instant. An instant loses its begun tick by the way of its timestamp, and it is lost altogether
if the count of its ticks needs the high bits. -/
namespace WireFormat

namespace DateTime

variable {d e : DateTime}

/-- The nanoseconds from 1970-01-01 to the instant; those of a leap second lie in the second that
comes after it. -/
def instant (d : DateTime) : Int := d.seconds * 1000000000 + d.nanos

theorem tickCount_eq (d : DateTime) : d.tickCount = d.instant / 100 + 621355968000000000 := by
  unfold tickCount instant
  omega

/-- Apart from leap seconds, an instant has one form. -/
theorem eq_of_instant_eq (hd : d.nanos < nanosPerSecond) (he : e.nanos < nanosPerSecond)
    (h : d.instant = e.instant) : d = e := by
  obtain ⟨seconds, nanos, _⟩ := d
  obtain ⟨seconds', nanos', _⟩ := e
  unfold instant at h
  unfold nanosPerSecond at hd he
  dsimp only at h hd he
  obtain rfl : seconds = seconds' := by omega
  obtain rfl : nanos = nanos' := by omega
  rfl

end DateTime

namespace Timestamp

variable {t u : Timestamp} {d : DateTime}

theorem eq_of_toInt_eq (h : t.ticks.toInt = u.ticks.toInt) : t = u := by
  obtain ⟨x⟩ := t
  obtain ⟨y⟩ := u
  exact congrArg mk (Int64.toInt_inj.1 h)

/-- The timestamp with its two high bits cleared: what the low 62 bits count. -/
def withoutKind (t : Timestamp) : Timestamp := ⟨Int64.ofInt (t.ticks.toInt % 4611686018427387904)⟩

theorem withoutKind_toInt (t : Timestamp) :
    t.withoutKind.ticks.toInt = t.ticks.toInt % 4611686018427387904 :=
  Int64.toInt_ofInt_of_le (by omega) (by omega)

theorem withoutKind_ticks (t : Timestamp) :
    t.withoutKind.ticks = (t.ticks.toUInt64 &&& tickMask).toInt64 := by
  have hmask : (t.ticks.toUInt64 &&& tickMask).toNat = t.ticks.toUInt64.toNat % 2 ^ 62 := by
    rw [UInt64.toNat_and]
    exact Nat.and_two_pow_sub_one_eq_mod _ 62
  have hticks : t.ticks.toInt = (t.ticks.toUInt64.toNat : Int).bmod 18446744073709551616 :=
    BitVec.toInt_eq_toNat_bmod t.ticks.toBitVec
  have hmasked : (t.ticks.toUInt64 &&& tickMask).toInt64.toInt =
      ((t.ticks.toUInt64 &&& tickMask).toNat : Int).bmod 18446744073709551616 :=
    BitVec.toInt_eq_toNat_bmod (t.ticks.toUInt64 &&& tickMask).toBitVec
  rw [← Int64.toInt_inj, withoutKind_toInt, hticks, hmasked, hmask]
  simp only [Int.bmod]
  omega

theorem getLsbD_tickMask (i : Nat) : tickMask.toBitVec.getLsbD i = decide (i < 62) := by
  have hmask : tickMask.toBitVec = BitVec.ofNat 64 (2 ^ 62 - 1) := rfl
  rw [hmask, BitVec.getLsbD_ofNat, Nat.testBit_two_pow_sub_one]
  by_cases h : i < 62
  · simp [h, Nat.lt_trans h]
  · simp [h]

theorem getLsbD_withoutKind (t : Timestamp) (i : Nat) :
    t.withoutKind.ticks.toBitVec.getLsbD i =
      (t.ticks.toBitVec.getLsbD i && decide (i < 62)) := by
  rw [withoutKind_ticks, UInt64.toBitVec_toInt64, UInt64.toBitVec_and, BitVec.getLsbD_and,
    getLsbD_tickMask, Int64.toBitVec_toUInt64]

theorem withoutKind_eq_iff :
    t.withoutKind = u.withoutKind ↔
      ∀ i < 62, t.ticks.toBitVec.getLsbD i = u.ticks.toBitVec.getLsbD i := by
  constructor
  · intro h i hi
    have hbit := getLsbD_withoutKind t i
    rw [h, getLsbD_withoutKind] at hbit
    simpa [hi] using hbit.symm
  · intro h
    have hbits : t.withoutKind.ticks.toBitVec = u.withoutKind.ticks.toBitVec := by
      apply BitVec.eq_of_getLsbD_eq
      intro i _
      rw [getLsbD_withoutKind, getLsbD_withoutKind]
      by_cases hi : i < 62
      · rw [h i hi]
      · simp [hi]
    apply eq_of_toInt_eq
    rw [Int64.toBitVec_inj.1 hbits]

/-- The difference does not overflow. -/
theorem unixTicks_toInt (t : Timestamp) :
    t.unixTicks.toInt = t.withoutKind.ticks.toInt - 621355968000000000 := by
  have hlow := t.withoutKind_toInt
  rw [unixTicks, ← withoutKind_ticks, Int64.toInt_sub, unixEpochTicks_toInt]
  exact Int.bmod_eq_of_le (by omega) (by omega)

/-- Every count has an instant: whole seconds since 1970-01-01, and the ticks beyond them. -/
theorem exists_toDateTime? (t : Timestamp) : ∃ d, t.toDateTime? = some d ∧
    d.seconds = t.unixTicks.toInt / ticksPerSecond ∧
    (d.nanos : Int) = t.unixTicks.toInt % ticksPerSecond * nanosPerTick := by
  have hlow := t.withoutKind_toInt
  have hunix := t.unixTicks_toInt
  unfold toDateTime? ticksPerSecond nanosPerTick
  generalize t.unixTicks.toInt = ticks at hunix ⊢
  have hword : (UInt32.ofNat (ticks % 10000000 * 100).toNat).toNat =
      (ticks % 10000000 * 100).toNat :=
    UInt32.toNat_ofNat_of_lt' (by rw [UInt32.size]; omega)
  have hvalid : DateTime.Valid (ticks / 10000000) (ticks % 10000000 * 100).toNat := by
    rw [DateTime.valid_iff]
    omega
  have hleap : ¬ DateTime.nanosPerSecond ≤ (ticks % 10000000 * 100).toNat := by
    unfold DateTime.nanosPerSecond
    omega
  simp only [hword]
  refine ⟨⟨ticks / 10000000, (ticks % 10000000 * 100).toNat, hvalid⟩, ?_, rfl, ?_⟩
  · exact dif_pos ⟨hvalid, fun h => absurd h hleap⟩
  · exact Int.toNat_of_nonneg (by omega)

theorem toDateTime?_eq_some_iff : t.toDateTime? = some d ↔ d.nanos < DateTime.nanosPerSecond ∧
    d.instant = (t.withoutKind.ticks.toInt - 621355968000000000) * 100 := by
  obtain ⟨e, he, hseconds, hnanos⟩ := t.exists_toDateTime?
  have hunix := t.unixTicks_toInt
  unfold ticksPerSecond at hseconds hnanos
  unfold nanosPerTick at hnanos
  have hsecond : e.nanos < DateTime.nanosPerSecond := by
    unfold DateTime.nanosPerSecond
    omega
  have hinstant : e.instant = (t.withoutKind.ticks.toInt - 621355968000000000) * 100 := by
    unfold DateTime.instant
    omega
  rw [he, Option.some.injEq]
  constructor
  · rintro rfl
    exact ⟨hsecond, hinstant⟩
  · intro h
    exact DateTime.eq_of_instant_eq hsecond h.1 (hinstant.trans h.2.symm)

theorem ofDateTime?_of_toDateTime? (h : t.toDateTime? = some d) :
    ofDateTime? d = some t.withoutKind := by
  obtain ⟨hsecond, hinstant⟩ := toDateTime?_eq_some_iff.1 h
  have hlow := t.withoutKind_toInt
  refine ofDateTime?_eq_some_iff.2 ⟨?_, ?_⟩
  · unfold DateTime.instant at hinstant
    unfold DateTime.nanosPerSecond at hsecond
    unfold DateTime.firstCounted
    omega
  · rw [DateTime.tickCount_eq, hinstant]
    omega

theorem toDateTime?_eq_iff : t.toDateTime? = u.toDateTime? ↔ t.withoutKind = u.withoutKind := by
  constructor
  · intro h
    obtain ⟨d, hd, -⟩ := t.exists_toDateTime?
    have ht := ofDateTime?_of_toDateTime? hd
    have hu := ofDateTime?_of_toDateTime? (h ▸ hd)
    exact Option.some.inj (ht.symm.trans hu)
  · intro h
    apply Option.ext
    intro d
    rw [toDateTime?_eq_some_iff, toDateTime?_eq_some_iff, h]

/-- Every tick count has an instant, and no step on the way overflows. The instant is a whole
number of ticks and no leap second, and its timestamp is the one that it came from, without the
kind bits. Two timestamps have the same instant if and only if all other bits agree. -/
theorem toDateTime?_total (t : Timestamp) :
    t.unixTicks.toInt = t.withoutKind.ticks.toInt - 621355968000000000 ∧
      FitsInt64 (t.unixTicks.toInt % ticksPerSecond * nanosPerTick) ∧
      (∃ d, t.toDateTime? = some d ∧ d.seconds = t.unixTicks.toInt / ticksPerSecond ∧
        -62135596800 ≤ d.seconds ∧ d.seconds ≤ 399033005042 ∧
        (d.nanos : Int) = t.unixTicks.toInt % ticksPerSecond * nanosPerTick ∧
        d.nanos < DateTime.nanosPerSecond ∧ d.nanos % 100 = 0 ∧
        ofDateTime? d = some t.withoutKind) ∧
      ∀ u : Timestamp, t.toDateTime? = u.toDateTime? ↔
        ∀ i < 62, t.ticks.toBitVec.getLsbD i = u.ticks.toBitVec.getLsbD i := by
  obtain ⟨d, hd, hseconds, hnanos⟩ := t.exists_toDateTime?
  have hsecond := (toDateTime?_eq_some_iff.1 hd).1
  have hrange : -62135596800 ≤ d.seconds ∧ d.seconds ≤ 399033005042 := by
    have hlow := t.withoutKind_toInt
    rw [hseconds, t.unixTicks_toInt, ticksPerSecond]
    omega
  have hround : d.nanos % 100 = 0 := by
    unfold nanosPerTick at hnanos
    omega
  have hfits : FitsInt64 (t.unixTicks.toInt % ticksPerSecond * nanosPerTick) := by
    rw [← hnanos, fitsInt64_iff]
    unfold DateTime.nanosPerSecond at hsecond
    omega
  refine ⟨t.unixTicks_toInt, hfits,
    ⟨d, hd, hseconds, hrange.1, hrange.2, hnanos, hsecond, hround, ?_⟩, fun u => ?_⟩
  · exact ofDateTime?_of_toDateTime? hd
  · exact toDateTime?_eq_iff.trans withoutKind_eq_iff

/-- The timestamp of an instant leads back to it, begun ticks left out, if and only if the count of
its ticks has no use for the kind bits. Otherwise it leads to another instant. -/
theorem ofDateTime?_toDateTime? (h : ofDateTime? d = some t) :
    ∃ e, t.toDateTime? = some e ∧ e.nanos < DateTime.nanosPerSecond ∧
      (e.instant = d.instant / 100 * 100 ↔
        0 ≤ t.ticks.toInt ∧ t.ticks.toInt < 4611686018427387904) ∧
      (e.instant = d.instant → 0 ≤ t.ticks.toInt ∧ t.ticks.toInt < 4611686018427387904) := by
  obtain ⟨-, hticks⟩ := ofDateTime?_eq_some_iff.1 h
  obtain ⟨e, he, -⟩ := t.exists_toDateTime?
  obtain ⟨hsecond, hinstant⟩ := toDateTime?_eq_some_iff.1 he
  rw [DateTime.tickCount_eq] at hticks
  rw [withoutKind_toInt] at hinstant
  refine ⟨e, he, hsecond, ?_, ?_⟩
  · omega
  · omega

/-- A leap second at the end of 2016 comes back in the second after it, and the last second before
year 1 does not come back. -/
theorem ofDateTime?_toDateTime?_leap :
    let leap : DateTime := ⟨1483228799, 1500000050, by decide⟩
    let early : DateTime := ⟨-62135596801, 0, by decide⟩
    (ofDateTime? leap = some ⟨636188256005000000⟩ ∧
      ∃ e, toDateTime? ⟨636188256005000000⟩ = some e ∧ e.nanos < DateTime.nanosPerSecond ∧
        e.instant = 1483228800500000000) ∧
    ofDateTime? early = some ⟨-10000000⟩ ∧
      ∃ e, toDateTime? ⟨-10000000⟩ = some e ∧ e.instant ≠ early.instant := by
  intro leap early
  have hleap : ofDateTime? leap = some ⟨636188256005000000⟩ := by decide
  have hearly : ofDateTime? early = some ⟨-10000000⟩ := by decide
  obtain ⟨e, he, hsecond, hback, -⟩ := ofDateTime?_toDateTime? hleap
  obtain ⟨e', he', -, -, hlost⟩ := ofDateTime?_toDateTime? hearly
  refine ⟨⟨hleap, e, he, hsecond, ?_⟩, hearly, e', he', fun h => ?_⟩
  · exact (hback.2 ⟨by decide, by decide⟩).trans (by decide)
  · exact absurd (hlost h).1 (by decide)

end Timestamp
end WireFormat
