import WireFormat.Proofs.ProgramErrors
import WireFormat.Proofs.Scalars
import WireFormat.Songs

/-! A message whose length was accepted is complete: its body ends within the input, so that a
read in it that runs out of input has left the body before. The innermost frame that such an error
passes reports it as an overrun of its own, and all frames around hand that on. -/
namespace WireFormat

variable {α : Type} {input : Input} {e : DecodeError} {p q : Nat}

/-- The body lies within the input. -/
def Frame.Within (f : Frame) (input : Input) : Prop :=
  f.start ≤ f.stop ∧ f.stop ≤ input.bytes.length

theorem Frame.Within.length_lt {f : Frame} (h : f.Within input) {target : Nat}
    (hpast : f.stop < target) : f.length < target - f.start := by
  have hstart := h.1
  unfold Frame.length
  omega

theorem toNat_le_maxIndex (x : UInt32) : x.toNat ≤ maxIndex := by
  have hlt := x.toNat_lt
  unfold maxIndex
  omega

namespace Decoder

/-- A word is there when four bytes are, and they are its digits. -/
theorem word32_yields_iff {x : UInt32} :
    (word32.run input p).Yields x q ↔ p + 4 = q ∧ q ≤ input.bytes.length ∧
      x.toNat = IntegerCodec.ofDigits ((input.bytes.drop p).take 4) := by
  constructor
  · intro h
    obtain ⟨v, hv, rfl⟩ := map_yields.1 h
    obtain ⟨hbytes, rfl⟩ := block_yields.1 hv
    have hlen := congrArg List.length hbytes
    simp only [List.length_take, List.length_drop, Vector.length_toList] at hlen
    exact ⟨rfl, by omega, by rw [IntegerCodec.toNat_get32, hbytes]⟩
  · intro h
    obtain ⟨rfl, hend, hx⟩ := h
    have hlen : ((input.bytes.drop p).take 4).toArray.size = 4 := by
      simp only [List.size_toArray, List.length_take, List.length_drop]
      omega
    refine map_yields.2 ⟨⟨((input.bytes.drop p).take 4).toArray, hlen⟩, ?_, ?_⟩
    · exact block_yields.2 ⟨rfl, rfl⟩
    · exact UInt32.toNat_inj.1 ((IntegerCodec.toNat_get32 _).trans hx.symm)

theorem openFrame_within {f : Frame} (h : (openFrame.run input p).Yields f q) :
    f.Within input := by
  obtain ⟨n, hn, rfl⟩ := openFrame_yields.1 h
  obtain ⟨x, hx, -, -, hleft⟩ := messageLength_yields.1 hn
  obtain ⟨-, hq, -⟩ := word32_yields_iff.1 hx
  unfold Input.remaining at hleft
  constructor <;> dsimp only <;> omega

/-- No truncation comes out of a message whose length was accepted. -/
theorem message_not_truncation {other : DecodeError → Prop} {body : Frame → Decoder α}
    {f : Frame} (hopen : (openFrame.run input p).Yields f q) (hsize : f.stop < maxIndex)
    (hother : ∀ e, other e → e.isTruncation = false) (hbody : (body f).Honest input other)
    (h : ((message body).run input p).Fails e) : e.isTruncation = false := by
  rcases message_fails.1 h with h | ⟨f', q', hopen', h⟩
  · exact absurd (openFrame_fails.2 h) hopen.not_fails
  obtain ⟨rfl, rfl⟩ := hopen.unique hopen'
  rcases h with ⟨e', he', rfl⟩ | ⟨a, t, -, -, rfl⟩
  · exact (hbody q e' he').passed_not_truncation hother (openFrame_within hopen).2 hsize
  · rfl

/-- The message reports a truncation that its body fails with as an overrun of its frame. -/
theorem message_fails_overrun {other : DecodeError → Prop} {body : Frame → Decoder α} {f : Frame}
    (hopen : (openFrame.run input p).Yields f q) (hsize : f.stop < maxIndex)
    (hother : ∀ e, other e → e.isTruncation = false) (hbody : (body f).Honest input other)
    (h : ((body f).run input q).Fails e) (htruncation : e.isTruncation) :
    ∃ count position, e.Wanted count position ∧
      f.stop - f.start < min (position + count) maxIndex - f.start ∧
      ((message body).run input p).Fails (.bodyOverrun (f.stop - f.start)
        (min (position + count) maxIndex - f.start) position) := by
  have hwithin := openFrame_within hopen
  obtain ⟨count, position, hwanted, hpast, hpassed⟩ :=
    (hbody q e h).passed_overrun hother htruncation hwithin.2 hsize
  refine ⟨count, position, hwanted, hwithin.length_lt hpast, ?_⟩
  exact message_fails.2 (.inr ⟨f, q, hopen, .inl ⟨e, h, hpassed⟩⟩)

/-- With no limits a length is cut off when it is not there, or its body is not. -/
theorem messageLength_truncation_iff {bytes : List UInt8} :
    (∃ e, (messageLength.run ⟨bytes, .unbounded⟩ 0).Fails e ∧ e.isTruncation) ↔
      bytes.length < 4 ∨ bytes.length - 4 < IntegerCodec.ofDigits (bytes.take 4) := by
  have hword {x : UInt32} {q : Nat} :
      (word32.run ⟨bytes, .unbounded⟩ 0).Yields x q ↔ 0 + 4 = q ∧ q ≤ bytes.length ∧
        x.toNat = IntegerCodec.ofDigits (bytes.take 4) := word32_yields_iff
  constructor
  · intro h
    obtain ⟨e, h, htruncation⟩ := h
    rcases messageLength_fails.1 h with h | ⟨x, q, hx, ⟨-, rfl⟩ | ⟨-, hend, rfl⟩⟩
    · exact .inl (word32_fails.1 h).1
    · cases htruncation
    · obtain ⟨rfl, -, hdigits⟩ := hword.1 hx
      rw [hdigits] at hend
      exact .inr hend
  · intro h
    by_cases hshort : bytes.length < 4
    · exact ⟨_, messageLength_fails.2 (.inl (word32_fails.2 ⟨hshort, rfl⟩)), rfl⟩
    · have hend := h.resolve_left hshort
      have hlt := IntegerCodec.ofDigits_lt (bytes.take 4)
      rw [List.length_take_of_le (Nat.le_of_not_lt hshort)] at hlt
      let x := UInt32.ofNat (IntegerCodec.ofDigits (bytes.take 4))
      have hx : x.toNat = IntegerCodec.ofDigits (bytes.take 4) := by
        rw [UInt32.toNat_ofNat']
        exact Nat.mod_eq_of_lt hlt
      have hyields := hword.2 ⟨rfl, Nat.le_of_not_lt hshort, hx⟩
      rw [← hx] at hend
      exact ⟨_, messageLength_fails.2 (.inr ⟨x, _, hyields,
        .inr ⟨toNat_le_maxIndex x, hend, rfl⟩⟩), rfl⟩

/-- A message with no limits is cut off exactly when its length or its body is. -/
theorem message_truncation_iff {body : Frame → Decoder α} {bytes : List UInt8}
    (hbody : ∀ f, (body f).Honest ⟨bytes, .unbounded⟩ NotTruncation) :
    (∃ e, (message body).readFrom bytes = .error e ∧ e.isTruncation) ↔
      bytes.length < 4 ∨ bytes.length - 4 < IntegerCodec.ofDigits (bytes.take 4) := by
  rw [← messageLength_truncation_iff]
  simp only [readFrom_eq_error]
  refine exists_congr fun e => and_congr_left fun htruncation => ?_
  refine ⟨fun h => ?_, fun h => message_fails.2 (.inl h)⟩
  rcases message_fails.1 h with hlength | ⟨f, q, hopen, -⟩
  · exact hlength
  -- Behind its length a body starts at the fifth byte, and has less than a word can count.
  have hstop : f.stop < maxIndex := by
    obtain ⟨n, hn, rfl⟩ := openFrame_yields.1 hopen
    obtain ⟨x, hx, rfl, -, -⟩ := messageLength_yields.1 hn
    obtain ⟨rfl, -, -⟩ := word32_yields_iff.1 hx
    have hlt := x.toNat_lt
    unfold maxIndex
    dsimp only
    omega
  have hkind := message_not_truncation hopen hstop (fun _ => id) (hbody f) h
  rw [hkind] at htruncation
  cases htruncation

end Decoder

/-- A read at `p` fails with the error `e` of a read that ran out of input, after the error has
passed `frames`, the innermost first. -/
inductive RunsOut (input : Input) :
    {α : Type} → Decoder α → Nat → DecodeError → List Frame → Prop
  | slice {count p : Nat} (h : input.remaining p < count) :
      RunsOut input (Decoder.slice count) p (.endOfInput count (input.remaining p) p) []
  | block {count p : Nat} (h : input.remaining p < count) :
      RunsOut input (Decoder.block count) p (.endOfInput count (input.remaining p) p) []
  | messageLength {x : UInt32} {p q : Nat} (hx : (Decoder.word32.run input p).Yields x q)
      (hlimit : x.toNat ≤ input.limits.messageLength) (hend : input.remaining q < x.toNat) :
      RunsOut input Decoder.messageLength p
        (.bodyPastEnd x.toNat (input.remaining q) q) []
  /-- A read that fails with what another one failed with: first or later in a sequence, again
  after it was held back, or for a copy of the reader. -/
  | propagated {α β : Type} {d : Decoder α} {d' : Decoder β} {p p' : Nat} {e : DecodeError}
      {frames : List Frame} (h : RunsOut input d p e frames)
      (hsame : ∀ e', (d.run input p).Fails e' → (d'.run input p').Fails e') :
      RunsOut input d' p' e frames
  | field {α : Type} {d : Decoder α} {f : Frame} {p : Nat} {e : DecodeError}
      {frames : List Frame} (hf : f.Within input) (hp : p < f.stop)
      (h : RunsOut input d p e frames) : RunsOut input (f.field d) p e (frames ++ [f])
  | message {α : Type} {body : Frame → Decoder α} {f : Frame} {p q : Nat} {e : DecodeError}
      {frames : List Frame} (hopen : (Decoder.openFrame.run input p).Yields f q)
      (h : RunsOut input (body f) q e frames) :
      RunsOut input (Decoder.message body) p e (frames ++ [f])

/-- An error as it leaves the last of the frames that it passes. -/
def Frame.passedAll (frames : List Frame) (e : DecodeError) : DecodeError :=
  frames.foldl (fun e f => f.passed e) e

theorem Frame.passedAll_append (frames : List Frame) (f : Frame) (e : DecodeError) :
    passedAll (frames ++ [f]) e = f.passed (passedAll frames e) := by
  simp [passedAll]

theorem Frame.passedAll_of_not_truncation (frames : List Frame) (h : e.isTruncation = false) :
    passedAll frames e = e := by
  induction frames with
  | nil => rfl
  | cons f frames ih => rw [passedAll, List.foldl_cons, passed_of_not_truncation h, ← passedAll, ih]

namespace RunsOut

variable {d : Decoder α} {frames : List Frame}

/-- The read fails as the frames that the error passes make it. -/
theorem fails (h : RunsOut input d p e frames) :
    (d.run input p).Fails (Frame.passedAll frames e) := by
  induction h with
  | slice h => exact Decoder.slice_fails.2 ⟨h, rfl⟩
  | block h => exact Decoder.block_fails.2 ⟨h, rfl⟩
  | messageLength hx hlimit hend =>
    exact Decoder.messageLength_fails.2 (.inr ⟨_, _, hx, .inr ⟨hlimit, hend, rfl⟩⟩)
  | propagated _ hsame ih => exact hsame _ ih
  | field _ hp _ ih =>
    rw [Frame.passedAll_append]
    exact (Frame.field_fails _).2 (.inr (.inl ⟨hp, _, ih, rfl⟩))
  | message hopen _ ih =>
    rw [Frame.passedAll_append]
    exact Decoder.message_fails.2 (.inr ⟨_, _, hopen, .inl ⟨_, ih, rfl⟩⟩)

theorem genuine (h : RunsOut input d p e frames) : Genuine input (fun _ => False) e := by
  induction h with
  | slice h | block h => exact .endOfInput h
  | messageLength _ _ hend => exact .bodyPastEnd hend
  | propagated _ _ ih | field _ _ _ ih | message _ _ ih => exact ih

theorem isTruncation (h : RunsOut input d p e frames) : e.isTruncation := by
  induction h with
  | slice | block | messageLength => rfl
  | propagated _ _ ih | field _ _ _ ih | message _ _ ih => exact ih

theorem within (h : RunsOut input d p e frames) : ∀ f ∈ frames, f.Within input := by
  induction h with
  | slice | block | messageLength => simp
  | propagated _ _ ih => exact ih
  | field hf _ _ ih =>
    intro g hg
    rcases List.mem_append.1 hg with hg | hg
    · exact ih g hg
    · rwa [List.mem_singleton.1 hg]
  | message hopen _ ih =>
    intro g hg
    rcases List.mem_append.1 hg with hg | hg
    · exact ih g hg
    · rw [List.mem_singleton.1 hg]
      exact Decoder.openFrame_within hopen

/-- The innermost frame that the error passes reports it as its own overrun. -/
theorem fails_innermost (hsize : input.bytes.length < maxIndex) {f : Frame}
    (h : RunsOut input d p e (f :: frames)) :
    ∃ count position, e.Wanted count position ∧
      f.stop - f.start < min (position + count) maxIndex - f.start ∧
      (d.run input p).Fails (.bodyOverrun (f.stop - f.start)
        (min (position + count) maxIndex - f.start) position) := by
  have hwithin := h.within f List.mem_cons_self
  obtain ⟨count, position, hwanted, hpast, hpassed⟩ := h.genuine.passed_overrun
    (fun _ => False.elim) h.isTruncation hwithin.2 (Nat.lt_of_le_of_lt hwithin.2 hsize)
  refine ⟨count, position, hwanted, hwithin.length_lt hpast, ?_⟩
  have hfails := h.fails
  rwa [Frame.passedAll, List.foldl_cons, hpassed, ← Frame.passedAll,
    Frame.passedAll_of_not_truncation frames rfl] at hfails

/-- A text runs out of input where its bytes are not all there. -/
theorem text {n : Nat} (hn : (Decoder.arrayLength.run input p).Yields n q)
    (hend : input.remaining q < n) :
    RunsOut input Decoder.text p (.endOfInput n (input.remaining q) q) [] := by
  refine .propagated (.slice hend) fun e' h => ?_
  exact Decoder.text_fails.2 (.inl (Decoder.byteArray_fails.2 (.inr ⟨n, q, hn, h⟩)))

end RunsOut

theorem Schema.framed_truncation_iff {fields : List Schema} {s : Schema}
    (hs : s ∈ [message fields, indexed fields]) (bytes : List UInt8) :
    (∃ e, s.decode.readFrom bytes = .error e ∧ e.isTruncation) ↔
      bytes.length < 4 ∨ bytes.length - 4 < IntegerCodec.ofDigits (bytes.take 4) := by
  have hhonest := Decoder.compositional_honest ⟨bytes, .unbounded⟩ NotTruncation
  have hfields : ∀ s ∈ fields, s.decode.Honest ⟨bytes, .unbounded⟩ NotTruncation :=
    fun s _ => s.honest_decode fun _ _ => rfl
  rw [List.mem_cons, List.mem_singleton] at hs
  rcases hs with rfl | rfl
  · rw [← Decoder.message_truncation_iff (hhonest.decodeFields hfields)]
    simp only [Decoder.readFrom_eq_error, decode, Decoder.map_fails]
  · rw [← Decoder.message_truncation_iff (hhonest.decodeIndexedFields hfields)]
    simp only [Decoder.readFrom_eq_error, decode, Decoder.map_fails]

/-- Truncation never escapes a complete message. Once its length was accepted, no read of its body
lets an error out that tells of the end of the input, be it a program or any other read that makes
up no such error: one that the body fails with comes out as an overrun of the frame. An error that
was raised deeper within comes out as the overrun of the innermost frame that it passes. That
overrun declares the length of the frame, and consumes what is between its start and the end that
the read would have come to, or the largest index if that is less. So a framed type is cut off
exactly when its length or its body is. Positions are indices, so that an input is shorter than the
largest one. -/
theorem message_truncation_confined :
    (∀ input : Input, input.bytes.length < maxIndex → ∀ (p q : Nat) (f : Frame),
      (Decoder.openFrame.run input p).Yields f q →
        (∀ (α : Type) (body : Frame → Decoder α), (body f).Honest input NotTruncation →
          (∀ e, ((Decoder.message body).run input p).Fails e → NotTruncation e) ∧
          ∀ e, ((body f).run input q).Fails e → e.isTruncation →
            ∃ count position, e.Wanted count position ∧
              f.stop - f.start < min (position + count) maxIndex - f.start ∧
              ((Decoder.message body).run input p).Fails (.bodyOverrun (f.stop - f.start)
                (min (position + count) maxIndex - f.start) position)) ∧
        (∀ program : List FrameStep, FrameStep.unforgedBody program →
          (FrameStep.readBody program f).Honest input NotTruncation ∧
          ∀ e, ((ReaderStep.message program).run input p).ending.Fails e → NotTruncation e) ∧
        ∀ (α : Type) (body : Frame → Decoder α) (e : DecodeError) (frames : List Frame),
          RunsOut input (body f) q e frames →
            ∃ innermost count position, (frames ++ [f]).head? = some innermost ∧
              e.Wanted count position ∧
              innermost.stop - innermost.start <
                min (position + count) maxIndex - innermost.start ∧
              ((Decoder.message body).run input p).Fails
                (.bodyOverrun (innermost.stop - innermost.start)
                  (min (position + count) maxIndex - innermost.start) position)) ∧
    ∀ (fields : List Schema), ∀ s ∈ [Schema.message fields, Schema.indexed fields],
      ∀ bytes : List UInt8, (∃ e, s.decode.readFrom bytes = .error e ∧ e.isTruncation) ↔
        bytes.length < 4 ∨ bytes.length - 4 < IntegerCodec.ofDigits (bytes.take 4) := by
  refine ⟨fun input hsize p q f hopen => ?_, fun fields s hs bytes => ?_⟩
  · have hstop : f.stop < maxIndex :=
      Nat.lt_of_le_of_lt (Decoder.openFrame_within hopen).2 hsize
    refine ⟨fun α body hbody => ⟨?_, ?_⟩, fun program hforged => ?_, ?_⟩
    · intro e h
      exact Decoder.message_not_truncation hopen hstop (fun _ => id) hbody h
    · intro e h htruncation
      exact Decoder.message_fails_overrun hopen hstop (fun _ => id) hbody h htruncation
    · have hbody : (FrameStep.readBody program f).Honest input NotTruncation :=
        FrameStep.honest_readBody program hforged f
      refine ⟨hbody, fun e h => ?_⟩
      rw [ReaderStep.run_message_ending] at h
      exact Decoder.message_not_truncation hopen hstop (fun _ => id) hbody h
    · intro α body e frames h
      have hmessage := RunsOut.message hopen h
      cases frames with
      | nil =>
        obtain ⟨count, position, hinnermost⟩ := hmessage.fails_innermost hsize
        exact ⟨f, count, position, rfl, hinnermost⟩
      | cons g frames =>
        obtain ⟨count, position, hinnermost⟩ := hmessage.fails_innermost hsize
        exact ⟨g, count, position, rfl, hinnermost⟩
  · exact Schema.framed_truncation_iff hs bytes

/-- A title of two bytes in a body that ends behind the first, and nothing behind it: read straight
from the reader, as a field, and in a message in a message, where it is the inner one that is
overrun. In place of the title, as many bytes as an index can count; and in place of the inner
message, one that is longer than the message around it. -/
theorem message_truncation_confined_title :
    let title : Input := ⟨[5, 0, 0, 0, 2, 0, 0, 0, 0x61], .unbounded⟩
    let nested : Input := ⟨[9, 0, 0, 0, 5, 0, 0, 0, 2, 0, 0, 0, 0x61], .unbounded⟩
    let longer : Input := ⟨[6, 0, 0, 0, 5, 0, 0, 0, 1, 2], .unbounded⟩
    let straight := fun _ : Frame => Schema.text.decode
    let far := fun _ : Frame => Decoder.slice 0xffffffffffffffff
    let field := fun f : Frame => f.field Schema.text.decode
    let within := fun f : Frame => f.field (Decoder.message field)
    (title.bytes.length < maxIndex ∧ (Decoder.openFrame.run title 0).Yields ⟨4, 9⟩ 4 ∧
      (straight ⟨4, 9⟩).Honest title NotTruncation ∧
      ((straight ⟨4, 9⟩).run title 4).Fails (.endOfInput 2 1 8) ∧
      FrameStep.unforgedBody [.field .text] ∧
      RunsOut title (field ⟨4, 9⟩) 4 (.endOfInput 2 1 8) [⟨4, 9⟩] ∧
      RunsOut title (far ⟨4, 9⟩) 4 (.endOfInput 0xffffffffffffffff 5 4) [] ∧
      Songs.songV1 ∈ [Schema.message [.text, .scalar .uint16],
        Schema.indexed [.text, .scalar .uint16]] ∧
      (∀ e, ((Decoder.message straight).run title 0).Fails e → NotTruncation e) ∧
      ((Decoder.message straight).run title 0).Fails (.bodyOverrun 5 6 8) ∧
      (∀ e, ((ReaderStep.message [.field .text]).run title 0).ending.Fails e →
        NotTruncation e) ∧
      ((Decoder.message field).run title 0).Fails (.bodyOverrun 5 6 8) ∧
      ((Decoder.message far).run title 0).Fails (.bodyOverrun 5 0xfffffffffffffffb 4) ∧
      ((∃ e, Songs.songV1.decode.readFrom title.bytes = .error e ∧ e.isTruncation) ↔
        title.bytes.length < 4 ∨
          title.bytes.length - 4 < IntegerCodec.ofDigits (title.bytes.take 4))) ∧
    (nested.bytes.length < maxIndex ∧ (Decoder.openFrame.run nested 0).Yields ⟨4, 13⟩ 4 ∧
      RunsOut nested (within ⟨4, 13⟩) 4 (.endOfInput 2 1 12) [⟨8, 13⟩, ⟨8, 13⟩, ⟨4, 13⟩] ∧
      ((Decoder.message within).run nested 0).Fails (.bodyOverrun 5 6 12)) ∧
    longer.bytes.length < maxIndex ∧ (Decoder.openFrame.run longer 0).Yields ⟨4, 10⟩ 4 ∧
      RunsOut longer (within ⟨4, 10⟩) 4 (.bodyPastEnd 5 2 8) [⟨4, 10⟩] ∧
      ((Decoder.message within).run longer 0).Fails (.bodyOverrun 6 9 8) := by
  intro title nested longer straight far field within
  obtain ⟨hmessages, hframed⟩ := message_truncation_confined
  refine ⟨?_, ?_, ?_⟩
  · have hsize : title.bytes.length < maxIndex := by decide
    have hopen : (Decoder.openFrame.run title 0).Yields ⟨4, 9⟩ 4 := ⟨rfl, rfl⟩
    have hstraight : (straight ⟨4, 9⟩).Honest title NotTruncation :=
      Schema.text.honest_decode fun _ _ => rfl
    have htext : RunsOut title Decoder.text 4 (.endOfInput 2 1 8) [] :=
      .text ⟨rfl, rfl⟩ (by decide)
    have hfield : RunsOut title (field ⟨4, 9⟩) 4 (.endOfInput 2 1 8) [⟨4, 9⟩] :=
      .field (by constructor <;> decide) (by decide) htext
    have hfar : RunsOut title (far ⟨4, 9⟩) 4 (.endOfInput 0xffffffffffffffff 5 4) [] :=
      .slice (by decide)
    have hsong : Songs.songV1 ∈ [Schema.message [.text, .scalar .uint16],
        Schema.indexed [.text, .scalar .uint16]] := List.mem_cons_self
    obtain ⟨hreads, hprograms, hplaces⟩ := hmessages title hsize 0 4 ⟨4, 9⟩ hopen
    obtain ⟨hconfined, hreported⟩ := hreads _ straight hstraight
    obtain ⟨_, _, ⟨⟩, -, hoverrun⟩ := hreported _ htext.fails rfl
    obtain ⟨_, _, _, ⟨⟩, ⟨⟩, -, hoverrunField⟩ := hplaces _ field _ _ hfield
    obtain ⟨_, _, _, ⟨⟩, ⟨⟩, -, hoverrunFar⟩ := hplaces _ far _ _ hfar
    exact ⟨hsize, hopen, hstraight, htext.fails, rfl, hfield, hfar, hsong, hconfined, hoverrun,
      (hprograms [.field .text] rfl).2, hoverrunField, hoverrunFar,
      hframed _ _ hsong title.bytes⟩
  · have hsize : nested.bytes.length < maxIndex := by decide
    have hopen : (Decoder.openFrame.run nested 0).Yields ⟨4, 13⟩ 4 := ⟨rfl, rfl⟩
    have htext : RunsOut nested Decoder.text 8 (.endOfInput 2 1 12) [] :=
      .text ⟨rfl, rfl⟩ (by decide)
    have hfield : RunsOut nested (field ⟨8, 13⟩) 8 (.endOfInput 2 1 12) [⟨8, 13⟩] :=
      .field (by constructor <;> decide) (by decide) htext
    have hopenInner : (Decoder.openFrame.run nested 4).Yields ⟨8, 13⟩ 8 := ⟨rfl, rfl⟩
    have hinner : RunsOut nested (Decoder.message field) 4 (.endOfInput 2 1 12)
        [⟨8, 13⟩, ⟨8, 13⟩] := .message hopenInner hfield
    have hwithin : RunsOut nested (within ⟨4, 13⟩) 4 (.endOfInput 2 1 12)
        [⟨8, 13⟩, ⟨8, 13⟩, ⟨4, 13⟩] :=
      .field (by constructor <;> decide) (by decide) hinner
    obtain ⟨-, -, hplaces⟩ := hmessages nested hsize 0 4 ⟨4, 13⟩ hopen
    obtain ⟨_, _, _, ⟨⟩, ⟨⟩, -, hoverrun⟩ := hplaces _ within _ _ hwithin
    exact ⟨hsize, hopen, hwithin, hoverrun⟩
  · have hsize : longer.bytes.length < maxIndex := by decide
    have hopen : (Decoder.openFrame.run longer 0).Yields ⟨4, 10⟩ 4 := ⟨rfl, rfl⟩
    have hword : (Decoder.word32.run longer 4).Yields 5 8 := ⟨rfl, rfl⟩
    have hlength : RunsOut longer Decoder.messageLength 4 (.bodyPastEnd 5 2 8) [] :=
      .messageLength hword (by decide) (by decide)
    have hinner : RunsOut longer (Decoder.message field) 4 (.bodyPastEnd 5 2 8) [] :=
      .propagated hlength fun _ h => Decoder.message_fails.2 (.inl h)
    have hwithin : RunsOut longer (within ⟨4, 10⟩) 4 (.bodyPastEnd 5 2 8) [⟨4, 10⟩] :=
      .field (by constructor <;> decide) (by decide) hinner
    obtain ⟨-, -, hplaces⟩ := hmessages longer hsize 0 4 ⟨4, 10⟩ hopen
    obtain ⟨_, _, _, ⟨⟩, ⟨⟩, -, hoverrun⟩ := hplaces _ within _ _ hwithin
    exact ⟨hsize, hopen, hwithin, hoverrun⟩

end WireFormat
