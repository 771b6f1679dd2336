import WireFormat.Proofs.Compositional
import WireFormat.Proofs.Failure

/-! Where errors come from. A read is honest when its errors come from the input: where it says
that the input ended, the input ends. Reads that are put together from honest ones are honest, so
that those of every schema are. -/
namespace WireFormat

variable {α β : Type} {input : Input} {other : DecodeError → Prop} {e : DecodeError}

/-- The errors that reading gives on an input, and `other` errors that are let in besides. -/
inductive Genuine (input : Input) (other : DecodeError → Prop) : DecodeError → Prop
  | endOfInput {requested p : Nat} (h : input.remaining p < requested) :
      Genuine input other (.endOfInput requested (input.remaining p) p)
  | arrayTooLong {length : UInt32} (h : input.limits.arrayLength < length.toNat) :
      Genuine input other (.arrayTooLong length.toNat input.limits.arrayLength)
  | bodyTooLong {length : UInt32} (h : input.limits.messageLength < length.toNat) :
      Genuine input other (.bodyTooLong length.toNat input.limits.messageLength)
  | bodyPastEnd {length p : Nat} (h : input.remaining p < length) :
      Genuine input other (.bodyPastEnd length (input.remaining p) p)
  | bodyOverrun (declared consumed p : Nat) :
      Genuine input other (.bodyOverrun declared consumed p)
  | other {e : DecodeError} (h : other e) : Genuine input other e

/-- The error tells of the end of the input: a read at a position wanted as many bytes as this, and
they were not all there. -/
inductive DecodeError.Wanted : DecodeError → (count position : Nat) → Prop
  | endOfInput (requested available position : Nat) :
      (DecodeError.endOfInput requested available position).Wanted requested position
  | bodyPastEnd (length available position : Nat) :
      (DecodeError.bodyPastEnd length available position).Wanted length position

namespace Frame

theorem reach_eq_none_iff : reach e = none ↔ e.isTruncation = false := by
  cases e <;> simp [reach, DecodeError.isTruncation]

theorem passed_of_reach {f : Frame} {target p : Nat} (h : reach e = some (target, p))
    (hstop : f.stop < target) :
    f.passed e = .bodyOverrun f.length (target - f.start) p := by
  have hpast : ¬ target ≤ f.stop := Nat.not_le.2 hstop
  simp [passed, overrun?, h, hpast]

/-- Only an error that tells of the end of the input can become another in a frame. -/
theorem passed_of_not_truncation {f : Frame} (h : e.isTruncation = false) : f.passed e = e := by
  simp [passed, overrun?, reach_eq_none_iff.2 h]

theorem passed_eq_or (f : Frame) (e : DecodeError) :
    f.passed e = e ∨ ∃ target p, f.passed e = .bodyOverrun f.length (target - f.start) p := by
  unfold passed overrun?
  split
  · split
    · exact .inl rfl
    · exact .inr ⟨_, _, rfl⟩
  · exact .inl rfl

end Frame

/-- An error stays genuine in the frames it passes. -/
theorem Genuine.passed (h : Genuine input other e) (f : Frame) :
    Genuine input other (f.passed e) := by
  rcases f.passed_eq_or e with heq | ⟨target, p, heq⟩
  · rwa [heq]
  · rw [heq]
    exact .bodyOverrun f.length _ p

/-- The end of the bytes that a read wanted and did not find, as an index, is behind every frame
within the input. -/
theorem Input.stop_lt_wanted {stop p count : Nat} (hstop : stop ≤ input.bytes.length)
    (hsize : stop < maxIndex) (h : input.remaining p < count) :
    stop < min (p + count) maxIndex := by
  unfold Input.remaining at h
  omega

/-- A frame that ends within the input takes an error at the end of the input for an overrun of its
own, by all the bytes up to where the read that failed would have ended. -/
theorem Genuine.passed_overrun (h : Genuine input other e)
    (hother : ∀ e, other e → e.isTruncation = false) (htruncation : e.isTruncation) {f : Frame}
    (hstop : f.stop ≤ input.bytes.length) (hsize : f.stop < maxIndex) :
    ∃ count position, e.Wanted count position ∧ f.stop < min (position + count) maxIndex ∧
      f.passed e =
        .bodyOverrun (f.stop - f.start) (min (position + count) maxIndex - f.start) position := by
  cases h with
  | @endOfInput requested p hend =>
    have hpast := Input.stop_lt_wanted hstop hsize hend
    exact ⟨requested, p, .endOfInput requested _ p, hpast, Frame.passed_of_reach rfl hpast⟩
  | @bodyPastEnd length p hend =>
    have hpast := Input.stop_lt_wanted hstop hsize hend
    exact ⟨length, p, .bodyPastEnd length _ p, hpast, Frame.passed_of_reach rfl hpast⟩
  | arrayTooLong | bodyTooLong | bodyOverrun => cases htruncation
  | other h =>
    rw [hother e h] at htruncation
    cases htruncation

theorem Genuine.passed_not_truncation (h : Genuine input other e)
    (hother : ∀ e, other e → e.isTruncation = false) {f : Frame}
    (hstop : f.stop ≤ input.bytes.length) (hsize : f.stop < maxIndex) :
    (f.passed e).isTruncation = false := by
  cases hkind : e.isTruncation with
  | false => rwa [Frame.passed_of_not_truncation hkind]
  | true =>
    obtain ⟨count, position, -, -, hpassed⟩ := h.passed_overrun hother hkind hstop hsize
    rw [hpassed]
    rfl

namespace Decoder

/-- Every error of the read is genuine, wherever it starts. -/
def Honest (input : Input) (other : DecodeError → Prop) (d : Decoder α) : Prop :=
  ∀ p e, (d.run input p).Fails e → Genuine input other e

theorem honest_of_not_fails {d : Decoder α} (h : ∀ p e, ¬ (d.run input p).Fails e) :
    d.Honest input other :=
  fun p e he => absurd he (h p e)

theorem honest_pure (a : α) : (pure a : Decoder α).Honest input other :=
  honest_of_not_fails fun _ _ => Step.fails_ok

variable {d : Decoder α} {next : α → Decoder β}

theorem Honest.bind (hd : d.Honest input other) (hnext : ∀ a, (next a).Honest input other) :
    (d >>= next).Honest input other := by
  intro p e he
  rcases bind_fails.1 he with he | ⟨a, r, -, he⟩
  · exact hd p e he
  · exact hnext a r e he

theorem Honest.map (hd : d.Honest input other) (g : α → β) :
    (do return g (← d) : Decoder β).Honest input other :=
  fun p e he => hd p e (map_fails.1 he)

theorem Honest.restoring (hd : d.Honest input other) : d.restoring.Honest input other :=
  fun p e he => hd p e (restoring_fails.1 he)

theorem honest_slice (count : Nat) : (slice count).Honest input other := by
  intro p e he
  obtain ⟨hend, rfl⟩ := slice_fails.1 he
  exact .endOfInput hend

theorem honest_block (count : Nat) : (block count).Honest input other := by
  intro p e he
  obtain ⟨hend, rfl⟩ := block_fails.1 he
  exact .endOfInput hend

theorem honest_word32 : word32.Honest input other := (honest_block 4).map _

theorem honest_arrayLength : arrayLength.Honest input other := by
  intro p e he
  rcases arrayLength_fails.1 he with he | ⟨x, q, -, hlimit, rfl⟩
  · exact honest_word32 p e he
  · exact .arrayTooLong hlimit

theorem honest_byteArray : byteArray.Honest input other :=
  (honest_arrayLength.bind honest_slice).restoring

theorem honest_text (hutf8 : ∀ p, other (.invalidUtf8 p)) : text.Honest input other := by
  intro p e he
  rcases text_fails.1 he with he | ⟨n, r, w, q, -, -, -, rfl⟩
  · exact honest_byteArray p e he
  · exact .other (hutf8 r)

theorem honest_messageLength : messageLength.Honest input other := by
  intro p e he
  rcases messageLength_fails.1 he with he | ⟨x, q, -, ⟨hlimit, rfl⟩ | ⟨-, hend, rfl⟩⟩
  · exact honest_word32 p e he
  · exact .bodyTooLong hlimit
  · exact .bodyPastEnd hend

end Decoder

namespace Frame

variable {d : Decoder α} (f : Frame)

theorem honest_field (hd : d.Honest input other) : (f.field d).Honest input other := by
  intro p e he
  rcases f.field_fails.1 he with ⟨-, rfl⟩ | ⟨-, e', he', rfl⟩ | ⟨-, a, q, -, -, rfl⟩
  · exact .bodyOverrun _ _ p
  · exact (hd p e' he').passed f
  · exact .bodyOverrun _ _ q

theorem honest_nextIndex : f.nextIndex.Honest input other := by
  refine (f.honest_field ((Decoder.honest_block 1).map _)).bind fun o => ?_
  split <;> exact Decoder.honest_pure _

theorem honest_finish : f.finish.Honest input other := by
  intro p e he
  obtain ⟨-, rfl⟩ := f.finish_fails.1 he
  exact .bodyOverrun _ _ p

theorem walkUpTo_fails_genuine {known : UInt8 → Option (Decoder α)}
    (hknown : ∀ i d, known i = some d → d.Honest input other) {fuel p : Nat}
    (h : (f.walkUpTo known input fuel p).ending.Fails e) : Genuine input other e := by
  induction fuel generalizing p with
  | zero => exact absurd h Step.fails_ok
  | succ fuel ih =>
    rcases Walk.after_fails.1 h with h | ⟨index, q, -, h⟩
    · exact f.honest_nextIndex p e h
    split at h
    · exact absurd h Step.fails_ok
    · rename_i d hd
      obtain ⟨i, -, hi⟩ := Option.bind_eq_some_iff.1 hd
      rcases Walk.cons_fails.1 h with h | ⟨a, r, -, h⟩
      · exact hknown i d hi q e h
      · exact ih h

end Frame

theorem Decoder.honest_message {body : Frame → Decoder α}
    (hbody : ∀ f, (body f).Honest input other) : (message body).Honest input other := by
  intro p e he
  rcases message_fails.1 he with he | ⟨f, q, -, ⟨e', he', rfl⟩ | ⟨a, t, -, -, rfl⟩⟩
  · exact honest_messageLength p e he
  · exact (hbody f q e' he').passed f
  · exact .bodyOverrun _ _ t

theorem Decoder.compositional_honest (input : Input) (other : DecodeError → Prop) :
    Compositional (fun d => d.Honest input other) fun body =>
      ∀ f : Frame, (body f).Honest input other where
  pure := honest_pure
  bind hd hnext := hd.bind hnext
  slice := honest_slice
  block := honest_block
  arrayLength := honest_arrayLength
  byteArray := honest_byteArray
  message hbody := honest_message hbody
  pureWithin a _ := honest_pure a
  bindWithin hread hnext f := (hread f).bind fun a => hnext a f
  field hd f := f.honest_field hd
  indexedFields hrounds f p e he := by
    rw [Frame.run_indexedFields] at he
    exact hrounds _ f p e he

/-- Reads of values are honest. Nothing but a text can be refused for what its bytes are. -/
theorem Schema.honest_decode (s : Schema) (hutf8 : s.hasText → ∀ p, other (.invalidUtf8 p)) :
    s.decode.Honest input other :=
  (Decoder.compositional_honest input other).decode s fun htext => Decoder.honest_text (hutf8 htext)

end WireFormat
