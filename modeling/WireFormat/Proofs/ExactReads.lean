import WireFormat.Proofs.Canonical
import WireFormat.Proofs.ForgedCounts
import WireFormat.Proofs.TruthfulErrors

/-! Reads that are exact: they succeed where the bytes at the position say so, take what their
result occupies and nothing else, and leave the reader in place where they fail. Whether a read
checks before it moves, or goes back after it has moved, makes no difference to that. -/
namespace WireFormat

variable {α : Type} {input : Input} {p q : Nat}

namespace Decoder

/-- A read that takes effect as a whole or not at all, by the places where it succeeds and by the
number of bytes that a result occupies. -/
structure Exact (d : Decoder α) (ready : Input → Nat → Prop) (size : α → Nat) : Prop where
  succeeds : ∀ input p, (∃ a q, (d.run input p).Yields a q) ↔ ready input p
  advances : ∀ input p a q, (d.run input p).Yields a q → q = p + size a
  stays : ∀ input, d.Atomic input

variable {d : Decoder α}

theorem Wide.exact {width : Nat} (hd : d.Wide width) (hatomic : ∀ input, d.Atomic input) :
    d.Exact (fun input p => width ≤ input.remaining p) fun _ => width where
  succeeds input p := by
    constructor
    · intro h
      obtain ⟨a, q, h⟩ := h
      exact (hd.of_yields h).1
    · intro h
      obtain ⟨a, ha⟩ := hd.exists_yields h
      exact ⟨a, p + width, ha⟩
  advances _ _ _ _ h := (hd.of_yields h).2
  stays := hatomic

end Decoder

namespace Scalar

end Scalar

end WireFormat
