import WireFormat.Decoder

/-! Successful reads. A read that succeeds is told by its value and by the position where it
leaves off; each operation is given by what its success amounts to. -/
namespace WireFormat

variable {α β : Type}

/-- The read succeeded with `a` and leaves off at `position`. -/
def Step.Yields (s : Step α) (a : α) (position : Nat) : Prop :=
  s.result = .ok a ∧ s.position = position

namespace Step

@[simp] theorem yields_ok {a b : α} {p q : Nat} {events : List Event} :
    (Step.mk (.ok a) p events).Yields b q ↔ a = b ∧ p = q := by
  simp [Yields]

@[simp] theorem yields_error {e : DecodeError} {a : α} {p q : Nat} {events : List Event} :
    ¬ (Step.mk (.error e) p events).Yields a q := by
  simp [Yields]

theorem Yields.unique {s : Step α} {a b : α} {p q : Nat} (h : s.Yields a p)
    (h' : s.Yields b q) : a = b ∧ p = q := by
  refine ⟨?_, h.2.symm.trans h'.2⟩
  simpa using h.1.symm.trans h'.1

@[simp] theorem andThen_yields {s : Step α} {next : α → Nat → Step β} {b : β} {q : Nat} :
    (s.andThen next).Yields b q ↔ ∃ a p, s.Yields a p ∧ (next a p).Yields b q := by
  obtain ⟨_ | a, p, _⟩ := s
  · simp [andThen]
  · simp only [andThen_ok, yields_ok]
    constructor
    · intro h
      exact ⟨a, p, ⟨rfl, rfl⟩, h⟩
    · intro h
      obtain ⟨_, _, ⟨rfl, rfl⟩, h⟩ := h
      exact h

end Step

namespace Decoder

variable {input : Input} {p q : Nat}

theorem pure_yields {a b : α} :
    ((pure a : Decoder α).run input p).Yields b q ↔ a = b ∧ p = q := by
  simp

theorem bind_yields {d : Decoder α} {next : α → Decoder β} {b : β} :
    ((d >>= next).run input p).Yields b q ↔
      ∃ a r, (d.run input p).Yields a r ∧ ((next a).run input r).Yields b q := by
  simp

/-- A value that is only changed afterwards. -/
theorem map_yields {d : Decoder α} {g : α → β} {b : β} :
    ((do return g (← d) : Decoder β).run input p).Yields b q ↔
      ∃ a, (d.run input p).Yields a q ∧ g a = b := by
  simp only [bind_yields, pure_yields]
  constructor
  · intro h
    obtain ⟨a, r, h, rfl, rfl⟩ := h
    exact ⟨a, h, rfl⟩
  · intro h
    obtain ⟨a, h, rfl⟩ := h
    exact ⟨a, q, h, rfl, rfl⟩

theorem restoring_yields {d : Decoder α} {a : α} :
    (d.restoring.run input p).Yields a q ↔ (d.run input p).Yields a q := by
  simp only [restoring]
  obtain ⟨_ | _, _, _⟩ := d.run input p <;> simp

theorem slice_yields {count : Nat} {w : List UInt8} :
    ((slice count).run input p).Yields w q ↔
      count ≤ input.remaining p ∧ (input.bytes.drop p).take count = w ∧ p + count = q := by
  simp only [slice]
  split <;> simp <;> omega

theorem block_yields {count : Nat} {v : Vector UInt8 count} :
    ((block count).run input p).Yields v q ↔
      (input.bytes.drop p).take count = v.toList ∧ p + count = q := by
  simp only [block]
  split
  · simp [← Vector.toArray_inj, ← Array.toList_inj, Vector.toList]
  · rename_i hsize
    simp only [Step.yields_error, false_iff, not_and]
    intro hv
    exact absurd (by rw [hv]; simp) hsize

theorem arrayLength_yields {n : Nat} :
    (arrayLength.run input p).Yields n q ↔
      ∃ x, (word32.run input p).Yields x q ∧ x.toNat = n ∧ n ≤ input.limits.arrayLength := by
  simp only [arrayLength, restoring_yields, bind_yields, Decoder.input, Step.yields_ok]
  constructor
  · intro h
    obtain ⟨x, r, hx, _, _, ⟨rfl, rfl⟩, h⟩ := h
    split at h
    · obtain ⟨rfl, rfl⟩ := pure_yields.1 h
      exact ⟨x, hx, rfl, by assumption⟩
    · simp [fail] at h
  · intro h
    obtain ⟨x, hx, rfl, hn⟩ := h
    refine ⟨x, q, hx, _, _, ⟨rfl, rfl⟩, ?_⟩
    simp [hn]

theorem byteArray_yields {w : List UInt8} :
    (byteArray.run input p).Yields w q ↔
      ∃ n r, (arrayLength.run input p).Yields n r ∧ ((slice n).run input r).Yields w q := by
  simp only [byteArray, restoring_yields, bind_yields]

/-- A text is a byte array that is UTF-8. -/
theorem text_yields {t : String} :
    (text.run input p).Yields t q ↔
      ∃ w, (byteArray.run input p).Yields w q ∧ String.fromUTF8? ⟨w.toArray⟩ = some t := by
  simp only [text, restoring_yields, bind_yields, byteArray_yields, Decoder.position,
    Step.yields_ok]
  constructor
  · intro h
    obtain ⟨n, r, hn, _, _, ⟨rfl, rfl⟩, w, _, hw, h⟩ := h
    split at h
    · rename_i t' ht
      obtain ⟨rfl, rfl⟩ := pure_yields.1 h
      exact ⟨w, ⟨n, r, hn, hw⟩, ht⟩
    · simp [fail] at h
  · intro h
    obtain ⟨w, ⟨n, r, hn, hw⟩, ht⟩ := h
    refine ⟨n, r, hn, _, _, ⟨rfl, rfl⟩, w, q, hw, ?_⟩
    simp [ht]

theorem readFrom_eq_ok {d : Decoder α} {bytes rest : List UInt8} {a : α} :
    d.readFrom bytes = .ok (a, rest) ↔
      ∃ r, (d.run ⟨bytes, .unbounded⟩ 0).Yields a r ∧ bytes.drop r = rest := by
  simp only [readFrom]
  obtain ⟨_ | b, r, _⟩ := d.run ⟨bytes, .unbounded⟩ 0
  · simp [Except.map]
  · simp only [Except.map, Step.yields_ok, Except.ok.injEq, Prod.mk.injEq]
    constructor
    · intro h
      obtain ⟨rfl, rfl⟩ := h
      exact ⟨r, ⟨rfl, rfl⟩, rfl⟩
    · intro h
      obtain ⟨_, ⟨rfl, rfl⟩, rfl⟩ := h
      exact ⟨rfl, rfl⟩

end Decoder
end WireFormat
