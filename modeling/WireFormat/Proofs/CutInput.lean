import WireFormat.Proofs.SchemaLocality
import WireFormat.Proofs.Truncation

/-! Reading an input that was cut off. A read that needs bytes from behind the cut is starved by
it, wherever the cut falls: it fails with an error that tells of the end of the input. A message
is so cut off at its length, before anything in its frame is read. Hence cutting a value is always
told as truncation, and what was refused for another reason stays refused when more bytes come. -/
namespace WireFormat

variable {α β : Type} {input : Input} {p q cut : Nat} {e : DecodeError}

theorem DecodeError.isTruncation_iff_kind :
    e.isTruncation ↔ e.kind = .unexpectedEndOfInput ∨ e.kind = .messageBodyLengthEof := by
  cases e <;> simp [isTruncation, kind]

/-- The input up to a cut. -/
def Input.upTo (input : Input) (cut : Nat) : Input := ⟨input.bytes.take cut, input.limits⟩

theorem Input.remaining_upTo (input : Input) (cut p : Nat) :
    (input.upTo cut).remaining p = min cut input.bytes.length - p := by
  rw [Input.remaining, Input.upTo, List.length_take]

/-- The read failed for want of input. -/
def Step.Starved (s : Step α) : Prop := ∃ e, s.Fails e ∧ e.isTruncation

namespace Decoder

/-- The read needs bytes from behind the cut: it passes over some, or runs out of input in spite
of them. -/
def NeedsPast (d : Decoder α) (input : Input) (p cut : Nat) : Prop :=
  (∃ a q, (d.run input p).Yields a q ∧ cut < q) ∨
    (input.bytes.length < maxIndex ∧ (d.run input p).Starved)

/-- A cut starves the read wherever it takes away bytes that the read needs. -/
def StarvedByCuts (d : Decoder α) : Prop :=
  ∀ input p cut, p ≤ input.bytes.length → p ≤ cut → d.NeedsPast input p cut →
    (d.run (input.upTo cut) p).Starved

variable {d : Decoder α} {next : α → Decoder β}

/-- Reads that yield and fail alike are starved alike. -/
theorem StarvedByCuts.congr {d' : Decoder α} (hd : d.StarvedByCuts)
    (hyields : ∀ {input p a q}, (d'.run input p).Yields a q ↔ (d.run input p).Yields a q)
    (hfails : ∀ {input p e}, (d'.run input p).Fails e ↔ (d.run input p).Fails e) :
    d'.StarvedByCuts := by
  intro input p cut hp hcut h
  simp only [NeedsPast, Step.Starved, hyields, hfails] at h ⊢
  exact hd input p cut hp hcut h

theorem starvedByCuts_pure (a : α) : (pure a : Decoder α).StarvedByCuts := by
  intro input p cut hp hcut h
  rcases h with ⟨b, q, h, hq⟩ | ⟨-, e, he, -⟩
  · obtain ⟨-, rfl⟩ := pure_yields.1 h
    omega
  · exact absurd he Step.fails_ok

/-- In a sequence it is the first read that needs bytes from behind the cut, or the first leaves
off before the cut and the rest needs them. -/
theorem NeedsPast.of_bind (h : (d >>= next).NeedsPast input p cut) :
    d.NeedsPast input p cut ∨
      ∃ a r, (d.run input p).Yields a r ∧ r ≤ cut ∧ (next a).NeedsPast input r cut := by
  rcases h with ⟨b, q, h, hq⟩ | ⟨hsize, e, h, htruncation⟩
  · obtain ⟨a, r, ha, hb⟩ := bind_yields.1 h
    by_cases hr : r ≤ cut
    · exact .inr ⟨a, r, ha, hr, .inl ⟨b, q, hb, hq⟩⟩
    · exact .inl (.inl ⟨a, r, ha, Nat.lt_of_not_le hr⟩)
  · rcases bind_fails.1 h with he | ⟨a, r, ha, he⟩
    · exact .inl (.inr ⟨hsize, e, he, htruncation⟩)
    by_cases hr : r ≤ cut
    · exact .inr ⟨a, r, ha, hr, .inr ⟨hsize, e, he, htruncation⟩⟩
    · exact .inl (.inl ⟨a, r, ha, Nat.lt_of_not_le hr⟩)

theorem StarvedByCuts.bind (hd : d.StarvedByCuts) (hlocal : d.Local)
    (hnext : ∀ a, (next a).StarvedByCuts) : (d >>= next).StarvedByCuts := by
  intro input p cut hp hcut h
  rcases h.of_bind with h | ⟨a, r, ha, hr, h⟩
  · obtain ⟨e, he, htruncation⟩ := hd input p cut hp hcut h
    exact ⟨e, bind_fails.2 (.inl he), htruncation⟩
  · obtain ⟨-, hinside, hkept⟩ := hlocal.take hp ha
    obtain ⟨e, he, htruncation⟩ := hnext a input r cut hinside hr h
    exact ⟨e, bind_fails.2 (.inr ⟨a, r, hkept cut hr, he⟩), htruncation⟩

theorem StarvedByCuts.map (hd : d.StarvedByCuts) (hlocal : d.Local) (g : α → β) :
    (do return g (← d) : Decoder β).StarvedByCuts :=
  hd.bind hlocal fun a => starvedByCuts_pure (g a)

theorem starvedByCuts_slice (count : Nat) : (slice count).StarvedByCuts := by
  intro input p cut hp hcut h
  refine ⟨_, slice_fails.2 ⟨?_, rfl⟩, rfl⟩
  rw [Input.remaining_upTo]
  rcases h with ⟨w, q, h, hq⟩ | ⟨-, e, h, -⟩
  · obtain ⟨-, -, rfl⟩ := slice_yields.1 h
    omega
  · obtain ⟨hend, -⟩ := slice_fails.1 h
    unfold Input.remaining at hend
    omega

theorem starvedByCuts_block (count : Nat) : (block count).StarvedByCuts := by
  intro input p cut hp hcut h
  refine ⟨_, block_fails.2 ⟨?_, rfl⟩, rfl⟩
  rw [Input.remaining_upTo]
  rcases h with ⟨w, q, h, hq⟩ | ⟨-, e, h, -⟩
  · obtain ⟨-, rfl⟩ := block_yields.1 h
    omega
  · obtain ⟨hend, -⟩ := block_fails.1 h
    unfold Input.remaining at hend
    omega

theorem starvedByCuts_word32 : word32.StarvedByCuts :=
  (starvedByCuts_block 4).map (local_block 4) _

theorem starvedByCuts_arrayLength : arrayLength.StarvedByCuts := by
  intro input p cut hp hcut h
  have hword : word32.NeedsPast input p cut := by
    rcases h with ⟨n, q, h, hq⟩ | ⟨hsize, e, h, htruncation⟩
    · obtain ⟨x, hx, -⟩ := arrayLength_yields.1 h
      exact .inl ⟨x, q, hx, hq⟩
    · rcases arrayLength_fails.1 h with h | ⟨x, q, -, -, rfl⟩
      · exact .inr ⟨hsize, e, h, htruncation⟩
      · cases htruncation
  obtain ⟨e, he, htruncation⟩ := starvedByCuts_word32 input p cut hp hcut hword
  exact ⟨e, arrayLength_fails.2 (.inl he), htruncation⟩

theorem starvedByCuts_byteArray : byteArray.StarvedByCuts :=
  (starvedByCuts_arrayLength.bind local_arrayLength starvedByCuts_slice).congr restoring_yields
    restoring_fails

/-- A text that is cut is starved like its bytes, before they are looked at. -/
theorem starvedByCuts_text : text.StarvedByCuts := by
  intro input p cut hp hcut h
  have hbytes : byteArray.NeedsPast input p cut := by
    rcases h with ⟨t, q, h, hq⟩ | ⟨hsize, e, h, htruncation⟩
    · obtain ⟨w, hw, -⟩ := text_yields.1 h
      exact .inl ⟨w, q, hw, hq⟩
    · rcases text_fails.1 h with h | ⟨n, r, w, q, -, -, -, rfl⟩
      · exact .inr ⟨hsize, e, h, htruncation⟩
      · cases htruncation
  obtain ⟨e, he, htruncation⟩ := starvedByCuts_byteArray input p cut hp hcut hbytes
  exact ⟨e, text_fails.2 (.inl he), htruncation⟩

/-- A length whose body does not end before the cut, whether or not the length itself does. -/
theorem messageLength_starved {x : UInt32} {r : Nat} (hp : p ≤ input.bytes.length)
    (hcut : p ≤ cut) (hx : (word32.run input p).Yields x r)
    (hlimit : x.toNat ≤ input.limits.messageLength)
    (hbody : min cut input.bytes.length < r + x.toNat) :
    (messageLength.run (input.upTo cut) p).Starved := by
  obtain ⟨-, hinside, hkept⟩ := local_word32.take hp hx
  by_cases hr : r ≤ cut
  · have hend : (input.upTo cut).remaining r < x.toNat := by
      rw [Input.remaining_upTo]
      omega
    exact ⟨_, messageLength_fails.2 (.inr ⟨x, r, hkept cut hr, .inr ⟨hlimit, hend, rfl⟩⟩), rfl⟩
  · obtain ⟨e, he, htruncation⟩ :=
      starvedByCuts_word32 input p cut hp hcut (.inl ⟨x, r, hx, Nat.lt_of_not_le hr⟩)
    exact ⟨e, messageLength_fails.2 (.inl he), htruncation⟩

/-- A length that is cut off already stays so. -/
theorem messageLength_starved_of_starved (hp : p ≤ input.bytes.length) (hcut : p ≤ cut)
    (hsize : input.bytes.length < maxIndex) (h : (messageLength.run input p).Starved) :
    (messageLength.run (input.upTo cut) p).Starved := by
  obtain ⟨e, h, htruncation⟩ := h
  rcases messageLength_fails.1 h with h | ⟨x, r, hx, ⟨-, rfl⟩ | ⟨hlimit, hend, rfl⟩⟩
  · obtain ⟨e, he, htruncation⟩ :=
      starvedByCuts_word32 input p cut hp hcut (.inr ⟨hsize, e, h, htruncation⟩)
    exact ⟨e, messageLength_fails.2 (.inl he), htruncation⟩
  · cases htruncation
  · refine messageLength_starved hp hcut hx hlimit ?_
    unfold Input.remaining at hend
    omega

/-- A message that is cut is refused at its length: its frame is never opened. -/
theorem starvedByCuts_message {body : Frame → Decoder α}
    (hbody : ∀ input f, (body f).Honest input NotTruncation) : (message body).StarvedByCuts := by
  intro input p cut hp hcut h
  have hlength : (messageLength.run (input.upTo cut) p).Starved := by
    rcases h with ⟨a, q, h, hq⟩ | ⟨hsize, e, h, htruncation⟩
    · obtain ⟨n, r, hn, rfl, -⟩ := message_yields.1 h
      obtain ⟨x, hx, rfl, hlimit, -⟩ := messageLength_yields.1 hn
      exact messageLength_starved hp hcut hx hlimit (Nat.lt_of_le_of_lt (Nat.min_le_left _ _) hq)
    refine messageLength_starved_of_starved hp hcut hsize ⟨e, ?_, htruncation⟩
    rcases message_fails.1 h with hlength | ⟨f, r, hopen, -⟩
    · exact hlength
    · have hstop : f.stop < maxIndex := Nat.lt_of_le_of_lt (openFrame_within hopen).2 hsize
      have hkind := message_not_truncation hopen hstop (fun _ => id) (hbody input f) h
      rw [hkind] at htruncation
      cases htruncation
  obtain ⟨e, he, htruncation⟩ := hlength
  exact ⟨e, message_fails.2 (.inl he), htruncation⟩

/-- A sequence is starved at its first part when the first part is local, and a message at its
length when its body is honest; so these are parts of the property. -/
theorem compositional_starvedByCuts :
    Compositional
      (fun d => d.Local ∧ d.StarvedByCuts ∧ ∀ input, d.Honest input NotTruncation)
      fun body => LocalWithin body ∧ ∀ input f, (body f).Honest input NotTruncation where
  pure a := ⟨local_pure a, starvedByCuts_pure a, fun _ => honest_pure a⟩
  bind hd hnext :=
    ⟨hd.1.bind fun a => (hnext a).1, hd.2.1.bind hd.1 fun a => (hnext a).2.1,
      fun input => (hd.2.2 input).bind fun a => (hnext a).2.2 input⟩
  slice count := ⟨local_slice count, starvedByCuts_slice count, fun _ => honest_slice count⟩
  block count := ⟨local_block count, starvedByCuts_block count, fun _ => honest_block count⟩
  arrayLength := ⟨local_arrayLength, starvedByCuts_arrayLength, fun _ => honest_arrayLength⟩
  byteArray := ⟨local_byteArray, starvedByCuts_byteArray, fun _ => honest_byteArray⟩
  message hbody :=
    ⟨local_message hbody.1, starvedByCuts_message hbody.2,
      fun input => honest_message (hbody.2 input)⟩
  pureWithin a := ⟨localWithin_pure a, fun _ _ => honest_pure a⟩
  bindWithin hread hnext :=
    ⟨hread.1.bind fun a => (hnext a).1,
      fun input f => (hread.2 input f).bind fun a => (hnext a).2 input f⟩
  field hd := ⟨localWithin_field hd.1, fun input f => f.honest_field (hd.2.2 input)⟩
  indexedFields hrounds :=
    ⟨localWithin_indexedFields_of_rounds fun fuel => (hrounds fuel).1, fun input =>
      (compositional_honest input NotTruncation).indexedFields fun fuel => (hrounds fuel).2 input⟩

end Decoder

namespace Schema

theorem starvedByCuts_decode (s : Schema) : s.decode.StarvedByCuts := by
  have hdecode := Decoder.compositional_starvedByCuts.decode s fun _ =>
    ⟨Decoder.local_text, Decoder.starvedByCuts_text, fun _ => Decoder.honest_text fun _ => rfl⟩
  exact hdecode.2.1

/-- A value that is cut anywhere is told as truncated: as an input that ended, or as a message
that runs past its end. -/
theorem decode_cut (s : Schema) {bytes rest : List UInt8} {v : s.Val}
    (h : s.decode.readFrom bytes = .ok (v, rest)) {k : Nat}
    (hk : k < bytes.length - rest.length) :
    ∃ e, s.decode.readFrom (bytes.take k) = .error e ∧ e.isTruncation ∧
      (e.kind = .unexpectedEndOfInput ∨ e.kind = .messageBodyLengthEof) := by
  obtain ⟨q, hrun, rfl⟩ := Decoder.readFrom_eq_ok.1 h
  rw [List.length_drop] at hk
  obtain ⟨e, he, htruncation⟩ := s.starvedByCuts_decode ⟨bytes, .unbounded⟩ 0 k (Nat.zero_le _)
    (Nat.zero_le k) (.inl ⟨v, q, hrun, by omega⟩)
  exact ⟨e, Decoder.readFrom_eq_error.2 he, htruncation,
    DecodeError.isTruncation_iff_kind.1 htruncation⟩

/-- A map of one song, cut in its count, behind the key, in the length of the song, in the title
between the bytes of a letter, and everywhere else. -/
theorem decode_cut_song :
    (map .sorted (.scalar .byte) (message [.text, .scalar .uint16])).decode.readFrom
        [1, 0, 0, 0, 7, 8, 0, 0, 0, 2, 0, 0, 0, 0xc3, 0xa9, 0xa7, 0x07, 9] =
          .ok (.ofList [(7, ("é", 1959, ()))], [9]) ∧
      ∀ k < 17, ∃ e,
        (map .sorted (.scalar .byte) (message [.text, .scalar .uint16])).decode.readFrom
          ([1, 0, 0, 0, 7, 8, 0, 0, 0, 2, 0, 0, 0, 0xc3, 0xa9, 0xa7, 0x07, 9].take k) =
            .error e ∧ e.isTruncation ∧
        (e.kind = .unexpectedEndOfInput ∨ e.kind = .messageBodyLengthEof) := by
  have hread : (map .sorted (.scalar .byte) (message [.text, .scalar .uint16])).decode.readFrom
      [1, 0, 0, 0, 7, 8, 0, 0, 0, 2, 0, 0, 0, 0xc3, 0xa9, 0xa7, 0x07, 9] =
        .ok (.ofList [(7, ("é", 1959, ()))], [9]) := by rfl
  exact ⟨hread, fun k hk => decode_cut _ hread hk⟩

end Schema

/-- What a caller makes of an outcome: it has a value, or it waits for more bytes, or it gives the
input up. -/
inductive Verdict (α : Type)
  | value (a : α)
  | waiting
  | refused

def Verdict.of : Except DecodeError (α × List UInt8) → Verdict α
  | .ok (a, _) => .value a
  | .error e => if e.isTruncation then .waiting else .refused

theorem Verdict.of_eq_refused_iff {outcome : Except DecodeError (α × List UInt8)} :
    Verdict.of outcome = .refused ↔ ∃ e, outcome = .error e ∧ e.isTruncation = false := by
  rcases outcome with e | ⟨a, rest⟩
  · cases hkind : e.isTruncation <;> simp [of, hkind]
  · simp [of]

namespace Decoder

variable {d : Decoder α} {bytes rest : List UInt8} {a : α}

/-- Reads from bytes that arrive piece by piece, and waits for the next piece as long as they are
cut off. -/
def readArriving (d : Decoder α) (bytes : List UInt8) :
    List (List UInt8) → Except DecodeError (α × List UInt8)
  | [] => d.readFrom bytes
  | piece :: pieces =>
      match Verdict.of (d.readFrom bytes) with
      | .waiting => d.readArriving (bytes ++ piece) pieces
      | _ => d.readFrom bytes

theorem Local.readFrom_append (hd : d.Local) (h : d.readFrom bytes = .ok (a, rest))
    (more : List UInt8) : d.readFrom (bytes ++ more) = .ok (a, rest ++ more) := by
  obtain ⟨w, rfl, hw⟩ := hd.readFrom_iff.1 h
  exact hd.readFrom_iff.2 ⟨w, List.append_assoc w rest more, hw⟩

/-- More bytes make no value of what was refused, and no truncation either: with the first bytes
alone the read would have been starved. -/
theorem StarvedByCuts.refused_append (hd : d.StarvedByCuts) (hlocal : d.Local)
    (h : Verdict.of (d.readFrom bytes) = .refused) {more : List UInt8}
    (hsize : (bytes ++ more).length < maxIndex) :
    Verdict.of (d.readFrom (bytes ++ more)) = .refused := by
  obtain ⟨e, he, hkind⟩ := Verdict.of_eq_refused_iff.1 h
  rw [readFrom_eq_error] at he
  have hfirst : (bytes ++ more).take bytes.length = bytes := List.take_left
  have hcut : ¬ d.NeedsPast ⟨bytes ++ more, .unbounded⟩ 0 bytes.length := by
    intro hneeds
    obtain ⟨e', he', htruncation⟩ := hd _ 0 bytes.length (Nat.zero_le _) (Nat.zero_le _) hneeds
    rw [Input.upTo, hfirst] at he'
    rw [he.unique he', htruncation] at hkind
    cases hkind
  refine Verdict.of_eq_refused_iff.2 ?_
  rcases hread : d.readFrom (bytes ++ more) with e' | ⟨a, rest⟩
  · refine ⟨e', rfl, Bool.eq_false_iff.2 fun htruncation => ?_⟩
    exact hcut (.inr ⟨hsize, e', readFrom_eq_error.1 hread, htruncation⟩)
  · obtain ⟨q, hrun, -⟩ := readFrom_eq_ok.1 hread
    by_cases hq : q ≤ bytes.length
    · have hkept := (hlocal.take (Nat.zero_le _) hrun).2.2 bytes.length hq
      rw [hfirst] at hkept
      exact absurd he hkept.not_fails
    · exact absurd (.inl ⟨a, q, hrun, Nat.lt_of_not_le hq⟩) hcut

/-- Waiting on nothing but truncation comes to the verdict on all bytes at once. -/
theorem StarvedByCuts.verdict_readArriving (hd : d.StarvedByCuts) (hlocal : d.Local)
    {pieces : List (List UInt8)} (hsize : (bytes ++ pieces.flatten).length < maxIndex) :
    Verdict.of (d.readArriving bytes pieces) =
      Verdict.of (d.readFrom (bytes ++ pieces.flatten)) := by
  induction pieces generalizing bytes with
  | nil => rw [readArriving, List.flatten_nil, List.append_nil]
  | cons piece pieces ih =>
    rw [readArriving]
    cases hverdict : Verdict.of (d.readFrom bytes) with
    | waiting =>
      rw [List.flatten_cons, ← List.append_assoc] at hsize ⊢
      exact ih hsize
    | refused => exact hverdict.trans (hd.refused_append hlocal hverdict hsize).symm
    | value a =>
      dsimp only
      rcases hread : d.readFrom bytes with e | ⟨b, rest⟩
      · rw [hread, Verdict.of] at hverdict
        split at hverdict <;> cases hverdict
      · rw [hlocal.readFrom_append hread]
        rfl

end Decoder

/-- What was refused for another reason than the end of the input is refused, again for such a
reason, with any bytes behind it. So a caller that waits for more bytes on truncation alone never
gives up what more bytes would complete, nor waits on what is refused: however the bytes arrive,
it comes to the verdict on all of them. Positions are indices, so that an input is shorter than
the largest one. -/
theorem Schema.decode_refusal_final (s : Schema) :
    (∀ (bytes more : List UInt8) (e : DecodeError), (bytes ++ more).length < maxIndex →
      s.decode.readFrom bytes = .error e → e.isTruncation = false →
        ∃ e', s.decode.readFrom (bytes ++ more) = .error e' ∧ e'.isTruncation = false) ∧
    ∀ pieces : List (List UInt8), pieces.flatten.length < maxIndex →
      Verdict.of (s.decode.readArriving [] pieces) =
        Verdict.of (s.decode.readFrom pieces.flatten) := by
  refine ⟨fun bytes more e hsize h hkind => ?_, fun pieces hsize => ?_⟩
  · have hrefused := Verdict.of_eq_refused_iff.2 ⟨e, h, hkind⟩
    exact Verdict.of_eq_refused_iff.1
      (s.starvedByCuts_decode.refused_append s.local_decode hrefused hsize)
  · exact s.starvedByCuts_decode.verdict_readArriving s.local_decode hsize

/-- A title that counts one byte more than its song has. Alone it runs past its frame, and with a
byte behind it that is no part of a letter it is no text either. -/
theorem Schema.decode_refusal_final_title :
    Songs.songV1.decode.readFrom [5, 0, 0, 0, 2, 0, 0, 0, 0x61] = .error (.bodyOverrun 5 6 8) ∧
      (∃ e, Songs.songV1.decode.readFrom ([5, 0, 0, 0, 2, 0, 0, 0, 0x61] ++ [0xff]) = .error e ∧
        e.isTruncation = false) ∧
      Verdict.of (Songs.songV1.decode.readArriving [] [[5, 0, 0], [0, 2, 0, 0, 0, 0x61], [0xff]]) =
        Verdict.of
          (Songs.songV1.decode.readFrom [[5, 0, 0], [0, 2, 0, 0, 0, 0x61], [0xff]].flatten) := by
  have hread : Songs.songV1.decode.readFrom [5, 0, 0, 0, 2, 0, 0, 0, 0x61] =
      .error (.bodyOverrun 5 6 8) := by rfl
  obtain ⟨hfinal, harriving⟩ := decode_refusal_final Songs.songV1
  exact ⟨hread, hfinal _ [0xff] _ (by decide) hread (by rfl), harriving _ (by decide)⟩

end WireFormat
