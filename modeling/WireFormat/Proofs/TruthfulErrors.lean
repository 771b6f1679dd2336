import WireFormat.Proofs.Compositional
import WireFormat.Proofs.Cursor

/-! What an error tells is so. Every number in the error of a read describes the input, the limits
or the frame that the read was refused in, through all frames that the error has passed on its way
out. -/
namespace WireFormat

variable {α β : Type} {input : Input} {p q : Nat} {e : DecodeError}

/-- What the error tells is so of the input, and every place that it names is at `p` or behind. -/
def DecodeError.TruthfulFrom (input : Input) (p : Nat) : DecodeError → Prop
  | endOfInput requested available position =>
      p ≤ position ∧ position + available = input.bytes.length ∧ available < requested
  | arrayTooLong length limit => limit = input.limits.arrayLength ∧ limit < length
  | bodyTooLong length limit => limit = input.limits.messageLength ∧ limit < length
  | bodyPastEnd length available position =>
      p ≤ position ∧ position + available = input.bytes.length ∧ available < length ∧
        length ≤ input.limits.messageLength
  | bodyOverrun declared consumed position =>
      p ≤ position ∧ position ≤ input.bytes.length ∧ declared < consumed ∧
        declared ≤ input.limits.messageLength
  | invalidUtf8 position =>
      let length := IntegerCodec.ofDigits ((input.bytes.drop (position - 4)).take 4)
      p + 4 ≤ position ∧ position + length ≤ input.bytes.length ∧
        ¬ ByteArray.IsValidUTF8 ⟨((input.bytes.drop position).take length).toArray⟩

namespace DecodeError

theorem TruthfulFrom.mono (h : e.TruthfulFrom input q) (hp : p ≤ q) : e.TruthfulFrom input p := by
  cases e with
  | arrayTooLong | bodyTooLong => exact h
  | endOfInput | bodyPastEnd | bodyOverrun => exact ⟨Nat.le_trans hp h.1, h.2⟩
  | invalidUtf8 => exact ⟨Nat.le_trans (Nat.add_le_add_right hp 4) h.1, h.2⟩

theorem truthfulFrom_endOfInput (hp : p ≤ input.bytes.length) {count : Nat}
    (h : input.remaining p < count) :
    (endOfInput count (input.remaining p) p).TruthfulFrom input p :=
  ⟨Nat.le_refl p, Nat.add_sub_cancel' hp, h⟩

/-- Where a failed read stood is a place of the input. -/
theorem TruthfulFrom.place (h : e.TruthfulFrom input p) {target position : Nat}
    (hreach : Frame.reach e = some (target, position)) :
    p ≤ position ∧ position ≤ input.bytes.length := by
  cases e with
  | endOfInput | bodyPastEnd =>
    simp only [Frame.reach, Option.some.injEq, Prod.mk.injEq] at hreach
    obtain ⟨-, rfl⟩ := hreach
    exact ⟨h.1, by have := h.2.1; omega⟩
  | arrayTooLong | bodyTooLong | bodyOverrun | invalidUtf8 => cases hreach

end DecodeError

namespace Frame

/-- The body lies within the input, and is no longer than the limit. -/
def Accepted (f : Frame) (input : Input) : Prop :=
  f.Within input ∧ f.length ≤ input.limits.messageLength

variable {f : Frame}

theorem Accepted.overrun (hf : f.Accepted input) {target position : Nat} (hp : p ≤ position)
    (hend : position ≤ input.bytes.length) (hpast : f.stop < target) :
    (DecodeError.bodyOverrun f.length (target - f.start) position).TruthfulFrom input p :=
  ⟨hp, hend, hf.1.length_lt hpast, hf.2⟩

/-- A frame turns a truthful error into a truthful one. -/
theorem Accepted.passed (hf : f.Accepted input) (h : e.TruthfulFrom input p) :
    (f.passed e).TruthfulFrom input p := by
  cases hreach : reach e with
  | none => rwa [passed_of_not_truncation (reach_eq_none_iff.1 hreach)]
  | some reached =>
    obtain ⟨target, position⟩ := reached
    by_cases hpast : f.stop < target
    · obtain ⟨hp, hend⟩ := h.place hreach
      rw [passed_of_reach hreach hpast]
      exact hf.overrun hp hend hpast
    · have hinside : target ≤ f.stop := Nat.le_of_not_lt hpast
      simpa [Frame.passed, overrun?, hreach, hinside] using h

end Frame

namespace Decoder

/-- Every error of the read is truthful, from wherever in the input it starts. -/
def Truthful (input : Input) (d : Decoder α) : Prop :=
  ∀ p, p ≤ input.bytes.length → ∀ e, (d.run input p).Fails e → e.TruthfulFrom input p

variable {d : Decoder α} {next : α → Decoder β}

theorem truthful_pure (a : α) : (pure a : Decoder α).Truthful input :=
  fun _ _ _ he => absurd he Step.fails_ok

theorem Truthful.bind (hd : d.Truthful input) (hadvances : d.Advances input)
    (hnext : ∀ a, (next a).Truthful input) : (d >>= next).Truthful input := by
  intro p hp e he
  rcases bind_fails.1 he with he | ⟨a, q, ha, he⟩
  · exact hd p hp e he
  · obtain ⟨hq, hend⟩ := (hadvances p hp).of_yields ha
    exact (hnext a q hend e he).mono hq

theorem truthful_slice (count : Nat) : (slice count).Truthful input := by
  intro p hp e he
  obtain ⟨hend, rfl⟩ := slice_fails.1 he
  exact DecodeError.truthfulFrom_endOfInput hp hend

theorem truthful_block (count : Nat) : (block count).Truthful input := by
  intro p hp e he
  obtain ⟨hend, rfl⟩ := block_fails.1 he
  exact DecodeError.truthfulFrom_endOfInput hp hend

theorem truthful_word32 : word32.Truthful input :=
  (truthful_block 4).bind (advances_block 4) fun _ => truthful_pure _

theorem truthful_arrayLength : arrayLength.Truthful input := by
  intro p hp e he
  rcases arrayLength_fails.1 he with he | ⟨x, q, -, hlimit, rfl⟩
  · exact truthful_word32 p hp e he
  · exact ⟨rfl, hlimit⟩

theorem truthful_byteArray : byteArray.Truthful input := by
  intro p hp e he
  refine truthful_arrayLength.bind advances_arrayLength truthful_slice p hp e ?_
  exact restoring_fails.1 he

theorem not_isValidUTF8_of_fromUTF8? {bytes : ByteArray} (h : String.fromUTF8? bytes = none) :
    ¬ bytes.IsValidUTF8 := by
  intro hvalid
  rw [String.fromUTF8?, dif_pos hvalid] at h
  cases h

/-- The bytes that are not UTF-8 are those behind the length, as many as it says. -/
theorem truthful_text : text.Truthful input := by
  intro p hp e he
  rcases text_fails.1 he with he | ⟨n, q, w, r, hn, hw, hutf8, rfl⟩
  · exact truthful_byteArray p hp e he
  obtain ⟨x, hx, rfl, -⟩ := arrayLength_yields.1 hn
  obtain ⟨rfl, hend, hdigits⟩ := word32_yields_iff.1 hx
  obtain ⟨hleft, rfl, -⟩ := slice_yields.1 hw
  rw [hdigits] at hleft hutf8
  refine ⟨Nat.le_refl _, ?_, ?_⟩
  · rw [Nat.add_sub_cancel]
    unfold Input.remaining at hleft
    omega
  · rw [Nat.add_sub_cancel]
    exact not_isValidUTF8_of_fromUTF8? hutf8

theorem truthful_messageLength : messageLength.Truthful input := by
  intro p hp e he
  rcases messageLength_fails.1 he with he | ⟨x, q, hx, ⟨hlimit, rfl⟩ | ⟨hlimit, hend, rfl⟩⟩
  · exact truthful_word32 p hp e he
  · exact ⟨rfl, hlimit⟩
  · obtain ⟨hq, hinside⟩ := (advances_word32 p hp).of_yields hx
    exact ⟨hq, Nat.add_sub_cancel' hinside, hend, hlimit⟩

theorem openFrame_accepted {f : Frame} (h : (openFrame.run input p).Yields f q) :
    f.Accepted input := by
  refine ⟨openFrame_within h, ?_⟩
  obtain ⟨n, hn, rfl⟩ := openFrame_yields.1 h
  obtain ⟨x, -, -, hlimit, -⟩ := messageLength_yields.1 hn
  rwa [Frame.length, Nat.add_sub_cancel_left]

theorem truthful_message {body : Frame → Decoder α} (hadvances : ∀ f, (body f).Advances input)
    (hbody : ∀ f, f.Accepted input → (body f).Truthful input) :
    (message body).Truthful input := by
  intro p hp e he
  rcases message_fails.1 he with he | ⟨f, q, hopen, h⟩
  · exact truthful_messageLength p hp e he
  have hf := openFrame_accepted hopen
  obtain ⟨hq, hend⟩ := (advances_openFrame p hp).of_yields hopen
  rcases h with ⟨e', he', rfl⟩ | ⟨a, t, ha, hpast, rfl⟩
  · exact (hf.passed (hbody f hf q hend e' he')).mono hq
  · obtain ⟨ht, htend⟩ := (hadvances f q hend).of_yields ha
    exact hf.overrun (Nat.le_trans hq ht) htend hpast

end Decoder

namespace Frame

variable {f : Frame} {d : Decoder α}

theorem Accepted.truthful_field (hf : f.Accepted input) (hd : d.Truthful input)
    (hadvances : d.Advances input) : (f.field d).Truthful input := by
  intro p hp e he
  rcases f.field_fails.1 he with ⟨hpast, rfl⟩ | ⟨-, e', he', rfl⟩ | ⟨-, a, q, ha, hpast, rfl⟩
  · exact hf.overrun (Nat.le_refl p) hp hpast
  · exact hf.passed (hd p hp e' he')
  · obtain ⟨hq, hend⟩ := (hadvances p hp).of_yields ha
    exact hf.overrun hq hend hpast

end Frame

/-- Only the bodies of accepted frames are read. That reads go onward is part of the property, as a
later read starts where the one before it leaves off. -/
theorem Decoder.compositional_truthful (input : Input) :
    Compositional (fun d => d.Advances input ∧ d.Truthful input)
      (fun body => ∀ f : Frame, (body f).Advances input ∧
        (f.Accepted input → (body f).Truthful input)) where
  pure a := ⟨advances_pure a, truthful_pure a⟩
  bind hd hnext :=
    ⟨hd.1.bind fun a => (hnext a).1, hd.2.bind hd.1 fun a => (hnext a).2⟩
  slice count := ⟨advances_slice count, truthful_slice count⟩
  block count := ⟨advances_block count, truthful_block count⟩
  arrayLength := ⟨advances_arrayLength, truthful_arrayLength⟩
  byteArray := ⟨advances_byteArray, truthful_byteArray⟩
  message hbody :=
    ⟨advances_message fun f => (hbody f).1,
      truthful_message (fun f => (hbody f).1) fun f => (hbody f).2⟩
  pureWithin a _ := ⟨advances_pure a, fun _ => truthful_pure a⟩
  bindWithin hread hnext f :=
    ⟨(hread f).1.bind fun a => (hnext a f).1,
      fun hf => ((hread f).2 hf).bind (hread f).1 fun a => (hnext a f).2 hf⟩
  field hd f := ⟨f.advances_field hd.1, fun hf => hf.truthful_field hd.2 hd.1⟩
  indexedFields hrounds f := by
    refine ⟨fun p hp => ?_, fun hf p hp e he => ?_⟩
    · rw [Frame.run_indexedFields]
      exact (hrounds _ f).1 p hp
    · rw [Frame.run_indexedFields] at he
      exact (hrounds _ f).2 hf p hp e he

/-- The error of every failed read of a value is truthful: an end of the input is where it says and
too near for the bytes that were wanted, a length that was refused is over the configured limit, a
body that was overrun was accepted and is shorter than what was read of it, and a text that was
refused is not UTF-8. -/
theorem Schema.decode_error_truthful (s : Schema) (input : Input) (p : Nat)
    (hp : p ≤ input.bytes.length) (e : DecodeError) (h : (s.decode.run input p).Fails e) :
    e.TruthfulFrom input p := by
  have hdecode := (Decoder.compositional_truthful input).decode s fun _ =>
    ⟨Decoder.advances_text, Decoder.truthful_text⟩
  exact hdecode.2 p hp e h

/-- A message in a message, whose text is cut off; and a text in an array, of a first byte of two
and one that does not follow such a byte. -/
theorem Schema.decode_error_truthful_nested :
    let nested : Input := ⟨[7, 9, 0, 0, 0, 5, 0, 0, 0, 2, 0, 0, 0, 0x61], ⟨9, 2⟩⟩
    let latin : Input := ⟨[1, 0, 0, 0, 2, 0, 0, 0, 0xc3, 0x28], .unbounded⟩
    (1 ≤ nested.bytes.length ∧
        ((message [message [text]]).decode.run nested 1).Fails (.bodyOverrun 5 6 13) ∧
        (DecodeError.bodyOverrun 5 6 13).TruthfulFrom nested 1) ∧
      0 ≤ latin.bytes.length ∧ ((array text).decode.run latin 0).Fails (.invalidUtf8 8) ∧
        (DecodeError.invalidUtf8 8).TruthfulFrom latin 0 := by
  intro nested latin
  have hstart : 1 ≤ nested.bytes.length := by decide
  have hcut : ((message [message [text]]).decode.run nested 1).Fails (.bodyOverrun 5 6 13) := by
    cbv
  have hutf8 : ((array text).decode.run latin 0).Fails (.invalidUtf8 8) := by cbv
  exact ⟨⟨hstart, hcut, decode_error_truthful _ nested 1 hstart _ hcut⟩,
    Nat.zero_le _, hutf8, decode_error_truthful _ latin 0 (Nat.zero_le _) _ hutf8⟩

end WireFormat
