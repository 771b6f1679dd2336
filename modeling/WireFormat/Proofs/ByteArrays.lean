import WireFormat.Proofs.Alignment

/-! Counted bytes, read whole or as an array of bytes. Both reads give the same bytes or the same
error, and they leave the reader at the same place, with one exception: behind a count that was
accepted, with too few bytes for it, the array stays, while the other read goes back in front of
the count. -/
namespace WireFormat

variable {α : Type} {input : Input} {p q : Nat}

/-- The count at `p` is accepted, but not all of the bytes that it counts are there. -/
def CountsPastEnd (input : Input) (p count : Nat) : Prop :=
  Declares input p count ∧ count ≤ input.limits.arrayLength ∧
    input.remaining (p + 4) < count

namespace Decoder

theorem restoring_result (d : Decoder α) (input : Input) (p : Nat) :
    (d.restoring.run input p).result = (d.run input p).result := by
  simp only [restoring]
  split <;> simp [*]

theorem restoring_events (d : Decoder α) (input : Input) (p : Nat) :
    (d.restoring.run input p).events = (d.run input p).events := by
  simp only [restoring]
  split <;> rfl

/-- Going back changes nothing for a read that fails in place. -/
theorem restoring_position {d : Decoder α}
    (h : ∀ e, (d.run input p).Fails e → (d.run input p).position = p) :
    (d.restoring.run input p).position = (d.run input p).position := by
  simp only [restoring]
  split
  · rename_i e he
    exact (h e he).symm
  · rfl

theorem arrayLength_yields_iff {n : Nat} :
    (arrayLength.run input p).Yields n q ↔
      q = p + 4 ∧ Declares input p n ∧ n ≤ input.limits.arrayLength := by
  rw [arrayLength_yields]
  constructor
  · intro h
    obtain ⟨x, hx, rfl, hlimit⟩ := h
    obtain ⟨rfl, hdeclares⟩ := declares_of_word32 hx
    exact ⟨rfl, hdeclares, hlimit⟩
  · intro h
    obtain ⟨rfl, hdeclares, hlimit⟩ := h
    obtain ⟨x, hx, hn⟩ := hdeclares.exists_word32
    exact ⟨x, hx, hn, hlimit⟩

end Decoder

namespace Schema

/-- Counted bytes, read as the items of an array. -/
abbrev byteItems : Schema := array (scalar .byte)

theorem decode_byteItems :
    byteItems.decode = (do Decoder.slice (← Decoder.arrayLength) : Decoder (List UInt8)) := rfl

theorem decode_bytes : bytes.decode = byteItems.decode.restoring := rfl

/-- An array of bytes fails in place, unless the bytes are too few for its count. -/
theorem byteItems_position_of_fails (h : ¬ ∃ count, CountsPastEnd input p count) {e : DecodeError}
    (he : (byteItems.decode.run input p).Fails e) :
    (byteItems.decode.run input p).position = p := by
  rw [decode_byteItems] at he ⊢
  rcases Decoder.bind_fails.1 he with hcount | ⟨n, q, hn, hslice⟩
  · rw [Decoder.run_bind, Step.andThen_of_fails hcount]
    exact Decoder.atomic_restoring _ p e hcount
  · obtain ⟨rfl, hdeclares, hlimit⟩ := Decoder.arrayLength_yields_iff.1 hn
    exact absurd ⟨n, hdeclares, hlimit, (Decoder.slice_fails.1 hslice).1⟩ h

theorem byteItems_of_countsPastEnd {count : Nat} (h : CountsPastEnd input p count) :
    (byteItems.decode.run input p).Fails
        (.endOfInput count (input.remaining (p + 4)) (p + 4)) ∧
      (byteItems.decode.run input p).position = p + 4 := by
  obtain ⟨hdeclares, hlimit, hshort⟩ := h
  have hcount := Decoder.arrayLength_yields_iff.2 ⟨rfl, hdeclares, hlimit⟩
  have hslice := Decoder.slice_fails.2 ⟨hshort, rfl⟩
  rw [decode_byteItems]
  refine ⟨Decoder.bind_fails.2 (.inr ⟨count, p + 4, hcount, hslice⟩), ?_⟩
  rw [Decoder.run_bind, Step.andThen_position_of_yields hcount]
  exact Decoder.atomic_slice count _ _ hslice

/-- Bytes read whole and bytes read as items come out as the same bytes or the same error. The
reads leave off at the same position, unless a count is accepted and its bytes are too few: then
the read of items leaves off behind the count, and the other one where it started. -/
theorem decode_bytes_agree (input : Input) (p : Nat) :
    let items := byteItems.decode.run input p
    let whole := bytes.decode.run input p
    Decoder.byteArray.run input p = whole ∧
      items.result = whole.result ∧ items.events = whole.events ∧
      (items.position = whole.position ↔ ¬ ∃ count, CountsPastEnd input p count) ∧
      ∀ count, CountsPastEnd input p count ↔
        items.Fails (.endOfInput count (input.remaining (p + 4)) (p + 4)) ∧
          items.position = p + 4 ∧ whole.position = p := by
  intro items whole
  have hwhole : whole = byteItems.decode.restoring.run input p := by rw [← decode_bytes]
  have hpast : ∀ count, CountsPastEnd input p count →
      items.Fails (.endOfInput count (input.remaining (p + 4)) (p + 4)) ∧
        items.position = p + 4 ∧ whole.position = p := by
    intro count h
    obtain ⟨hfails, hitems⟩ := byteItems_of_countsPastEnd h
    refine ⟨hfails, hitems, ?_⟩
    rw [hwhole]
    exact Decoder.atomic_restoring _ p _ (Decoder.restoring_fails.2 hfails)
  have hsame : items.position = whole.position ↔ ¬ ∃ count, CountsPastEnd input p count := by
    constructor
    · rintro h ⟨count, hcount⟩
      obtain ⟨-, hitems, hstart⟩ := hpast count hcount
      omega
    · intro h
      rw [hwhole]
      exact (Decoder.restoring_position fun e => byteItems_position_of_fails h).symm
  have hresult : items.result = whole.result := by rw [hwhole, Decoder.restoring_result]
  have hevents : items.events = whole.events := by rw [hwhole, Decoder.restoring_events]
  refine ⟨rfl, hresult, hevents, hsame, fun count => ⟨hpast count, fun h => ?_⟩⟩
  obtain ⟨hfails, hitems, hstart⟩ := h
  have hmoved : items.position ≠ whole.position := by omega
  obtain ⟨count', hcount'⟩ := Classical.not_not.1 (mt hsame.2 hmoved)
  have herror := (hpast count' hcount').1.unique hfails
  obtain rfl : count' = count := by simpa using herror
  exact hcount'

/-- A count of five with two bytes behind it. -/
theorem decode_bytes_not_alike :
    let input : Input := ⟨[5, 0, 0, 0, 1, 2], .unbounded⟩
    (byteItems.decode.run input 0).Fails (.endOfInput 5 2 4) ∧
      (bytes.decode.run input 0).Fails (.endOfInput 5 2 4) ∧
      (byteItems.decode.run input 0).position = 4 ∧ (bytes.decode.run input 0).position = 0 ∧
      ¬ ∀ (input : Input) (p : Nat),
        (byteItems.decode.run input p).position = (bytes.decode.run input p).position := by
  intro input
  exact ⟨rfl, rfl, rfl, rfl, fun h => nomatch h input 0⟩

end Schema
end WireFormat
