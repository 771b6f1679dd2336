import WireFormat.Frame
import WireFormat.Proofs.Success

/-! Successful reads inside a frame. Only the end of a frame decides whether a read in it
succeeds; errors inside are reclassified, but never turn into successes. -/
namespace WireFormat

variable {α β : Type} {input : Input} {p q : Nat}

namespace Decoder

theorem messageLength_yields {n : Nat} :
    (messageLength.run input p).Yields n q ↔
      ∃ x, (word32.run input p).Yields x q ∧ x.toNat = n ∧ n ≤ input.limits.messageLength ∧
        n ≤ input.remaining q := by
  simp only [messageLength, bind_yields, Decoder.position, Decoder.input, Step.yields_ok]
  constructor
  · intro h
    obtain ⟨_, _, ⟨rfl, rfl⟩, x, r, hx, _, _, ⟨rfl, rfl⟩, _, _, ⟨rfl, rfl⟩, h⟩ := h
    split at h
    · simp [rejectLength] at h
    split at h
    · simp [rejectLength] at h
    obtain ⟨rfl, rfl⟩ := pure_yields.1 h
    exact ⟨x, hx, rfl, by omega, by omega⟩
  · intro h
    obtain ⟨x, hx, rfl, hlimit, hleft⟩ := h
    refine ⟨p, p, ⟨rfl, rfl⟩, x, q, hx, q, q, ⟨rfl, rfl⟩, input, q, ⟨rfl, rfl⟩, ?_⟩
    rw [if_neg (by omega), if_neg (by omega)]
    exact pure_yields.2 ⟨rfl, rfl⟩

end Decoder

namespace Frame

variable (f : Frame)

theorem checkBounds_yields {u : Unit} :
    (f.checkBounds.run input p).Yields u q ↔ p ≤ f.stop ∧ p = q := by
  simp only [checkBounds]
  split <;> simp <;> omega

theorem enter_yields {b : Bool} :
    (f.enter.run input p).Yields b q ↔ p ≤ f.stop ∧ decide (p < f.stop) = b ∧ p = q := by
  simp only [enter, Decoder.bind_yields, checkBounds_yields, Decoder.position, Step.yields_ok]
  constructor
  · intro h
    obtain ⟨_, _, ⟨hp, rfl⟩, _, _, ⟨rfl, rfl⟩, h⟩ := h
    by_cases hstop : f.stop ≤ p
    · obtain ⟨rfl, rfl⟩ : false = b ∧ p = q := by simpa [exhausted, hstop, Decoder.log] using h
      exact ⟨hp, by simpa using hstop, rfl⟩
    · obtain ⟨rfl, rfl⟩ : true = b ∧ p = q := by simpa [exhausted, hstop] using h
      exact ⟨hp, by simpa using hstop, rfl⟩
  · intro h
    obtain ⟨hp, rfl, rfl⟩ := h
    refine ⟨(), p, ⟨hp, rfl⟩, p, p, ⟨rfl, rfl⟩, ?_⟩
    by_cases hstop : f.stop ≤ p
    · have hend : ¬ p < f.stop := Nat.not_lt.2 hstop
      simp [exhausted, hstop, hend, Decoder.log]
    · have hin : p < f.stop := Nat.lt_of_not_le hstop
      simp [exhausted, hstop, hin]

/-- Reclassifying its error changes nothing about a success. -/
theorem settle_yields {s : Step α} {a : α} : (f.settle s).Yields a q ↔ s.Yields a q := by
  obtain ⟨e | _, _, _⟩ := s
  · simp only [settle]
    split <;> simp
  · simp [settle]

theorem leave_yields {s : Step α} {a : α} :
    (f.leave input s).Yields a q ↔ s.Yields a q ∧ q ≤ f.stop := by
  simp only [leave, Step.andThen_yields, settle_yields, checkBounds_yields, Step.yields_ok]
  constructor
  · intro h
    obtain ⟨_, _, h, _, _, ⟨hq, rfl⟩, rfl, rfl⟩ := h
    exact ⟨h, hq⟩
  · intro h
    obtain ⟨h, hq⟩ := h
    exact ⟨a, q, h, (), q, ⟨hq, rfl⟩, rfl, rfl⟩

theorem field_yields {d : Decoder α} {o : Option α} :
    ((f.field d).run input p).Yields o q ↔
      (p = f.stop ∧ none = o ∧ p = q) ∨
        (p < f.stop ∧ ∃ a, some a = o ∧ (d.run input p).Yields a q ∧ q ≤ f.stop) := by
  simp only [field, Decoder.bind_yields, enter_yields]
  constructor
  · intro h
    obtain ⟨_, _, ⟨hp, rfl, rfl⟩, h⟩ := h
    by_cases hlt : p < f.stop
    · simp only [hlt, decide_true, if_true] at h
      obtain ⟨a, ha, rfl⟩ := Decoder.map_yields.1 h
      obtain ⟨ha, hq⟩ := f.leave_yields.1 ha
      exact .inr ⟨hlt, a, rfl, ha, hq⟩
    · obtain ⟨rfl, rfl⟩ : none = o ∧ p = q := by simpa [hlt] using h
      exact .inl ⟨by omega, rfl, rfl⟩
  · intro h
    rcases h with ⟨hp, rfl, rfl⟩ | ⟨hlt, a, rfl, ha, hq⟩
    · exact ⟨false, p, ⟨by omega, by simp [hp], rfl⟩, by simp⟩
    · refine ⟨true, p, ⟨Nat.le_of_lt hlt, by simpa using hlt, rfl⟩, ?_⟩
      simp only [if_true]
      exact Decoder.map_yields.2 ⟨a, f.leave_yields.2 ⟨ha, hq⟩, rfl⟩

theorem finish_yields {u : Unit} :
    (f.finish.run input p).Yields u q ↔ p ≤ f.stop ∧ f.stop = q := by
  simp only [finish, Decoder.bind_yields, checkBounds_yields, Decoder.position, Decoder.seek,
    Step.yields_ok]
  constructor
  · intro h
    obtain ⟨_, _, ⟨hp, rfl⟩, _, _, ⟨rfl, rfl⟩, h⟩ := h
    split at h <;> simp [Decoder.log] at h <;> exact ⟨hp, h⟩
  · intro h
    obtain ⟨hp, rfl⟩ := h
    refine ⟨(), p, ⟨hp, rfl⟩, p, p, ⟨rfl, rfl⟩, ?_⟩
    split <;> simp [Decoder.log]

theorem close_yields {s : Step α} {a : α} :
    (f.close input s).Yields a q ↔ ∃ r, s.Yields a r ∧ r ≤ f.stop ∧ f.stop = q := by
  simp only [close, Step.andThen_yields, settle_yields, finish_yields, Step.yields_ok]
  constructor
  · intro h
    obtain ⟨_, r, h, _, _, ⟨hr, rfl⟩, rfl, rfl⟩ := h
    exact ⟨r, h, hr, rfl⟩
  · intro h
    obtain ⟨r, h, hr, rfl⟩ := h
    exact ⟨a, r, h, (), f.stop, ⟨hr, rfl⟩, rfl, rfl⟩

end Frame

/-- A message is read when its body is, within the length in front of it; the read leaves off
at the end of the body, however much of it was read. -/
theorem Decoder.message_yields {body : Frame → Decoder α} {a : α} :
    ((message body).run input p).Yields a q ↔
      ∃ n r, (messageLength.run input p).Yields n r ∧ r + n = q ∧
        ∃ t, ((body ⟨r, r + n⟩).run input r).Yields a t ∧ t ≤ r + n := by
  simp only [message, openFrame, bind_yields, Decoder.position, Step.yields_ok, pure_yields]
  constructor
  · intro h
    obtain ⟨_, _, ⟨n, r, hn, _, _, ⟨rfl, rfl⟩, rfl, rfl⟩, h⟩ := h
    obtain ⟨t, ht, hstop, rfl⟩ := (Frame.close_yields _).1 h
    exact ⟨n, r, hn, rfl, t, ht, hstop⟩
  · intro h
    obtain ⟨n, r, hn, rfl, t, ht, hstop⟩ := h
    exact ⟨_, _, ⟨n, r, hn, r, r, ⟨rfl, rfl⟩, rfl, rfl⟩,
      (Frame.close_yields _).2 ⟨t, ht, hstop, rfl⟩⟩

end WireFormat
