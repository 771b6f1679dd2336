import WireFormat.Proofs.FrameSuccess

/-! Failing reads, the other half of what an operation can do. Each is told by the error it gives;
a frame takes an error up, perhaps as its own, and hands it on. -/
namespace WireFormat

variable {α β : Type}

/-- The read failed with `e`. -/
def Step.Fails (s : Step α) (e : DecodeError) : Prop := s.result = .error e

namespace Step

@[simp] theorem fails_ok {a : α} {p : Nat} {events : List Event} {e : DecodeError} :
    ¬ (Step.mk (.ok a) p events).Fails e := by
  simp [Fails]

@[simp] theorem fails_error {e e' : DecodeError} {p : Nat} {events : List Event} :
    (Step.mk (.error e : Except DecodeError α) p events).Fails e' ↔ e = e' := by
  simp [Fails]

theorem Fails.unique {s : Step α} {e e' : DecodeError} (h : s.Fails e) (h' : s.Fails e') :
    e = e' := by
  simpa using h.symm.trans h'

theorem Yields.not_fails {s : Step α} {a : α} {q : Nat} {e : DecodeError} (h : s.Yields a q) :
    ¬ s.Fails e := by
  intro he
  simpa using h.1.symm.trans he

theorem yields_or_fails (s : Step α) : (∃ a, s.Yields a s.position) ∨ ∃ e, s.Fails e := by
  obtain ⟨e | a, p, _⟩ := s
  · exact .inr ⟨e, rfl⟩
  · exact .inl ⟨a, rfl, rfl⟩

/-- What is listed from where a success leaves off; nothing is after a failure. -/
def thereafter (s : Step α) (next : α → Nat → List β) : List β :=
  match s.result with
  | .ok a => next a s.position
  | .error _ => []

theorem thereafter_of_yields {s : Step α} {a : α} {q : Nat} (h : s.Yields a q)
    (next : α → Nat → List β) : s.thereafter next = next a q := by
  simp [thereafter, h.1, h.2]

theorem thereafter_of_fails {s : Step α} {e : DecodeError} (h : s.Fails e)
    (next : α → Nat → List β) : s.thereafter next = [] := by
  unfold Fails at h
  simp [thereafter, h]

@[simp] theorem andThen_fails {s : Step α} {next : α → Nat → Step β} {e : DecodeError} :
    (s.andThen next).Fails e ↔ s.Fails e ∨ ∃ a p, s.Yields a p ∧ (next a p).Fails e := by
  obtain ⟨e' | a, p, _⟩ := s
  · simp [andThen]
  · simp only [andThen, fails_ok, false_or, yields_ok]
    constructor
    · intro h
      exact ⟨a, p, ⟨rfl, rfl⟩, h⟩
    · intro h
      obtain ⟨_, _, ⟨rfl, rfl⟩, h⟩ := h
      exact h

end Step

namespace Decoder

variable {input : Input} {p : Nat} {e : DecodeError}

theorem bind_fails {d : Decoder α} {next : α → Decoder β} :
    ((d >>= next).run input p).Fails e ↔ (d.run input p).Fails e ∨
      ∃ a r, (d.run input p).Yields a r ∧ ((next a).run input r).Fails e := by
  simp

theorem map_fails {d : Decoder α} {g : α → β} :
    ((do return g (← d) : Decoder β).run input p).Fails e ↔ (d.run input p).Fails e := by
  simp

theorem restoring_fails {d : Decoder α} :
    (d.restoring.run input p).Fails e ↔ (d.run input p).Fails e := by
  simp only [restoring]
  obtain ⟨_ | _, _, _⟩ := d.run input p <;> simp

theorem slice_fails {count : Nat} :
    ((slice count).run input p).Fails e ↔ input.remaining p < count ∧
      .endOfInput count (input.remaining p) p = e := by
  simp only [slice]
  split <;> simp [*]

theorem block_fails {count : Nat} :
    ((block count).run input p).Fails e ↔ input.remaining p < count ∧
      .endOfInput count (input.remaining p) p = e := by
  simp only [block, Input.remaining]
  split
  · rename_i hsize
    simp only [List.size_toArray, List.length_take, List.length_drop] at hsize
    simp only [Step.fails_ok, false_iff, not_and]
    omega
  · rename_i hsize
    simp only [List.size_toArray, List.length_take, List.length_drop] at hsize
    simp only [Step.fails_error, iff_and_self]
    omega

theorem word32_fails :
    (word32.run input p).Fails e ↔ input.remaining p < 4 ∧
      .endOfInput 4 (input.remaining p) p = e :=
  map_fails.trans block_fails

theorem arrayLength_fails :
    (arrayLength.run input p).Fails e ↔ (word32.run input p).Fails e ∨
      ∃ x q, (word32.run input p).Yields x q ∧ input.limits.arrayLength < x.toNat ∧
        .arrayTooLong x.toNat input.limits.arrayLength = e := by
  simp only [arrayLength, restoring_fails, bind_fails, Decoder.input, Step.yields_ok,
    Step.fails_ok, false_or]
  refine or_congr Iff.rfl ?_
  constructor
  · intro h
    obtain ⟨x, q, hx, _, _, ⟨rfl, rfl⟩, h⟩ := h
    split at h
    · simp at h
    · exact ⟨x, q, hx, by omega, by simpa [fail] using h⟩
  · intro h
    obtain ⟨x, q, hx, hlimit, rfl⟩ := h
    refine ⟨x, q, hx, input, q, ⟨rfl, rfl⟩, ?_⟩
    rw [if_neg (by omega)]
    exact Step.fails_error.2 rfl

theorem byteArray_fails :
    (byteArray.run input p).Fails e ↔ (arrayLength.run input p).Fails e ∨
      ∃ n r, (arrayLength.run input p).Yields n r ∧ ((slice n).run input r).Fails e := by
  simp only [byteArray, restoring_fails, bind_fails]

/-- A text fails as its bytes do, or because they are not UTF-8. -/
theorem text_fails :
    (text.run input p).Fails e ↔ (byteArray.run input p).Fails e ∨
      ∃ n r w q, (arrayLength.run input p).Yields n r ∧ ((slice n).run input r).Yields w q ∧
        String.fromUTF8? ⟨w.toArray⟩ = none ∧ .invalidUtf8 r = e := by
  simp only [text, restoring_fails, bind_fails, byteArray_fails, Decoder.position,
    Step.yields_ok, Step.fails_ok, false_or, or_assoc]
  refine or_congr Iff.rfl ?_
  constructor
  · intro h
    obtain ⟨n, r, hn, _, _, ⟨rfl, rfl⟩, h | ⟨w, q, hw, h⟩⟩ := h
    · exact .inl ⟨n, r, hn, h⟩
    split at h
    · simp at h
    · exact .inr ⟨n, r, w, q, hn, hw, by assumption, by simpa [fail] using h⟩
  · rintro (⟨n, r, hn, h⟩ | ⟨n, r, w, q, hn, hw, hutf8, rfl⟩)
    · exact ⟨n, r, hn, r, r, ⟨rfl, rfl⟩, .inl h⟩
    · refine ⟨n, r, hn, r, r, ⟨rfl, rfl⟩, .inr ⟨w, q, hw, ?_⟩⟩
      simp [hutf8, fail]

theorem messageLength_fails :
    (messageLength.run input p).Fails e ↔ (word32.run input p).Fails e ∨
      ∃ x q, (word32.run input p).Yields x q ∧
        ((input.limits.messageLength < x.toNat ∧
            .bodyTooLong x.toNat input.limits.messageLength = e) ∨
          (x.toNat ≤ input.limits.messageLength ∧ input.remaining q < x.toNat ∧
            .bodyPastEnd x.toNat (input.remaining q) q = e)) := by
  simp only [messageLength, bind_fails, Decoder.position, Decoder.input, Step.yields_ok,
    Step.fails_ok, false_or]
  constructor
  · intro h
    obtain ⟨_, _, ⟨rfl, rfl⟩, h | ⟨x, q, hx, _, _, ⟨rfl, rfl⟩, _, _, ⟨rfl, rfl⟩, h⟩⟩ := h
    · exact .inl h
    refine .inr ⟨x, q, hx, ?_⟩
    split at h
    · exact .inl ⟨by assumption, by simpa [rejectLength] using h⟩
    split at h
    · exact .inr ⟨by omega, by assumption, by simpa [rejectLength] using h⟩
    · simp at h
  · rintro (h | ⟨x, q, hx, h⟩)
    · exact ⟨p, p, ⟨rfl, rfl⟩, .inl h⟩
    refine ⟨p, p, ⟨rfl, rfl⟩, .inr ⟨x, q, hx, q, q, ⟨rfl, rfl⟩, input, q, ⟨rfl, rfl⟩, ?_⟩⟩
    rcases h with ⟨hlimit, rfl⟩ | ⟨hlimit, hend, rfl⟩
    · rw [if_pos hlimit]
      simp [rejectLength]
    · rw [if_neg (by omega), if_pos hend]
      simp [rejectLength]

theorem openFrame_yields {f : Frame} {q : Nat} :
    (openFrame.run input p).Yields f q ↔
      ∃ n, (messageLength.run input p).Yields n q ∧ (⟨q, q + n⟩ : Frame) = f := by
  simp only [openFrame, bind_yields, Decoder.position, Step.yields_ok, pure_yields]
  constructor
  · intro h
    obtain ⟨n, _, hn, _, _, ⟨rfl, rfl⟩, rfl, rfl⟩ := h
    exact ⟨n, hn, rfl⟩
  · intro h
    obtain ⟨n, hn, rfl⟩ := h
    exact ⟨n, q, hn, q, q, ⟨rfl, rfl⟩, rfl, rfl⟩

theorem openFrame_fails :
    (openFrame.run input p).Fails e ↔ (messageLength.run input p).Fails e := by
  simp [openFrame, Decoder.position]

theorem readFrom_eq_error {d : Decoder α} {bytes : List UInt8} :
    d.readFrom bytes = .error e ↔ (d.run ⟨bytes, .unbounded⟩ 0).Fails e := by
  simp only [readFrom]
  obtain ⟨_ | _, _, _⟩ := d.run ⟨bytes, .unbounded⟩ 0 <;> simp [Except.map]

end Decoder

namespace Frame

variable {input : Input} {p : Nat} {e : DecodeError} (f : Frame)

/-- An error as it leaves the frame. -/
def passed (e : DecodeError) : DecodeError := (f.overrun? e).getD e

theorem checkBounds_fails :
    (f.checkBounds.run input p).Fails e ↔ f.stop < p ∧
      .bodyOverrun f.length (f.consumed p) p = e := by
  simp only [checkBounds]
  split <;> simp [*]

theorem enter_fails :
    (f.enter.run input p).Fails e ↔ f.stop < p ∧ .bodyOverrun f.length (f.consumed p) p = e := by
  simp only [enter, Decoder.bind_fails, checkBounds_fails, Decoder.position, Step.yields_ok,
    Step.fails_ok, false_or]
  refine or_iff_left ?_
  rintro ⟨_, _, _, position, _, _, h⟩
  cases hend : f.exhausted position <;> simp [hend, Decoder.log] at h

theorem settle_fails {s : Step α} :
    (f.settle s).Fails e ↔ ∃ e', s.Fails e' ∧ f.passed e' = e := by
  obtain ⟨e' | _, _, _⟩ := s
  · simp only [settle, passed]
    split <;> simp [*]
  · simp [settle]

theorem leave_fails {s : Step α} :
    (f.leave input s).Fails e ↔ (∃ e', s.Fails e' ∧ f.passed e' = e) ∨
      ∃ a q, s.Yields a q ∧ f.stop < q ∧ .bodyOverrun f.length (f.consumed q) q = e := by
  simp [leave, settle_fails, settle_yields, checkBounds_fails]

/-- A field fails behind the end of the body, with the error of its read, or with a read that
went past the end. -/
theorem field_fails {d : Decoder α} :
    ((f.field d).run input p).Fails e ↔
      (f.stop < p ∧ .bodyOverrun f.length (f.consumed p) p = e) ∨
      (p < f.stop ∧ ∃ e', (d.run input p).Fails e' ∧ f.passed e' = e) ∨
      (p < f.stop ∧ ∃ a q, (d.run input p).Yields a q ∧ f.stop < q ∧
        .bodyOverrun f.length (f.consumed q) q = e) := by
  simp only [field, Decoder.bind_fails, enter_fails, enter_yields]
  refine or_congr Iff.rfl ?_
  constructor
  · intro h
    obtain ⟨_, _, ⟨-, rfl, rfl⟩, h⟩ := h
    by_cases hlt : p < f.stop
    · simp only [hlt, decide_true, if_true] at h
      rcases f.leave_fails.1 (Decoder.map_fails.1 h) with h | h
      · exact .inl ⟨hlt, h⟩
      · exact .inr ⟨hlt, h⟩
    · simp [hlt] at h
  · intro h
    have hlt : p < f.stop := by
      rcases h with h | h <;> exact h.1
    refine ⟨true, p, ⟨Nat.le_of_lt hlt, by simpa using hlt, rfl⟩, ?_⟩
    simp only [if_true]
    refine Decoder.map_fails.2 (f.leave_fails.2 ?_)
    exact h.imp And.right And.right

theorem finish_fails :
    (f.finish.run input p).Fails e ↔ f.stop < p ∧ .bodyOverrun f.length (f.consumed p) p = e := by
  simp only [finish, Decoder.bind_fails, checkBounds_fails, Decoder.position, Step.yields_ok,
    Step.fails_ok, false_or]
  refine or_iff_left ?_
  rintro ⟨_, _, _, _, _, _, h⟩
  split at h <;> simp [Decoder.log, Decoder.seek] at h

theorem close_fails {s : Step α} :
    (f.close input s).Fails e ↔ (∃ e', s.Fails e' ∧ f.passed e' = e) ∨
      ∃ a q, s.Yields a q ∧ f.stop < q ∧ .bodyOverrun f.length (f.consumed q) q = e := by
  simp [close, settle_fails, settle_yields, finish_fails]

namespace Walk

theorem after_fails {s : Step β} {next : β → Nat → Walk α} :
    (after s next).ending.Fails e ↔
      s.Fails e ∨ ∃ b r, s.Yields b r ∧ (next b r).ending.Fails e := by
  refine Iff.trans ?_ Step.andThen_fails
  obtain ⟨_ | _, _, _⟩ := s <;> rfl

theorem cons_fails {s : Step α} {rest : Nat → Walk α} :
    (cons s rest).ending.Fails e ↔ s.Fails e ∨ ∃ a r, s.Yields a r ∧ (rest r).ending.Fails e := by
  refine Iff.trans ?_ Step.andThen_fails
  obtain ⟨_ | _, _, _⟩ := s <;> rfl

end Walk

end Frame

/-- A message fails before its body is read, or as its frame closes. -/
theorem Decoder.message_fails {body : Frame → Decoder α} {input : Input} {p : Nat}
    {e : DecodeError} :
    ((message body).run input p).Fails e ↔ (messageLength.run input p).Fails e ∨
      ∃ f q, (openFrame.run input p).Yields f q ∧
        ((∃ e', ((body f).run input q).Fails e' ∧ f.passed e' = e) ∨
          ∃ a t, ((body f).run input q).Yields a t ∧ f.stop < t ∧
            .bodyOverrun f.length (f.consumed t) t = e) := by
  simp only [message, bind_fails, openFrame_fails, Frame.close_fails]

end WireFormat
