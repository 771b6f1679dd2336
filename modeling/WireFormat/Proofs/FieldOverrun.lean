import WireFormat.Proofs.SchemaLocality
import WireFormat.Proofs.Truncation

/-! Fields that need bytes behind the end of their body. The input is not cut there, so the read
may find them, and what it makes of them decides how the field fails: as an overrun, unless a text
was refused for the bytes that do not belong to it. -/
namespace WireFormat.Schema

variable {bytes : List UInt8} {f : Frame} {p q : Nat} {e : DecodeError}

/-- What is read before a cut is read from the part before it. -/
theorem decode_take {s : Schema} {v : s.Val}
    (h : (s.decode.run ⟨bytes, .unbounded⟩ p).Yields v q) {stop : Nat} (hstop : q ≤ stop) :
    (s.decode.run ⟨bytes.take stop, .unbounded⟩ p).Yields v q := by
  have hp := s.needsByte_decode _ _ _ _ h
  exact (s.local_decode.take (Nat.le_of_lt hp) h).2.2 stop hstop

/-- A text of the value was refused for what its bytes are. -/
def Refused (s : Schema) (e : DecodeError) : Prop := s.hasText ∧ ∃ p, e = .invalidUtf8 p

theorem Refused.not_truncation {s : Schema} (h : s.Refused e) : e.isTruncation = false := by
  obtain ⟨-, p, rfl⟩ := h
  rfl

/-- With no limits nothing is too long, so that an error leaves a frame as an overrun, unless a text
was refused. -/
theorem passed_overrun_or_refused {s : Schema} (hsize : bytes.length < maxIndex)
    (hstop : f.stop ≤ bytes.length) (h : (s.decode.run ⟨bytes, .unbounded⟩ p).Fails e) :
    (∃ declared consumed position, f.passed e = .bodyOverrun declared consumed position) ∨
      s.Refused e := by
  have hhonest : s.decode.Honest ⟨bytes, .unbounded⟩ s.Refused :=
    s.honest_decode fun htext p => ⟨htext, p, rfl⟩
  have hgenuine := hhonest p e h
  cases hkind : e.isTruncation with
  | true =>
    have hend : f.stop < maxIndex := Nat.lt_of_le_of_lt hstop hsize
    obtain ⟨count, position, -, -, hpassed⟩ :=
      hgenuine.passed_overrun (fun _ => Refused.not_truncation) hkind hstop hend
    exact .inl ⟨_, _, _, hpassed⟩
  | false =>
    rw [Frame.passed_of_not_truncation hkind]
    cases hgenuine with
    | endOfInput | bodyPastEnd => cases hkind
    | arrayTooLong hlimit | bodyTooLong hlimit =>
      exact absurd hlimit (Nat.not_lt.2 (toNat_le_maxIndex _))
    | bodyOverrun declared consumed position => exact .inl ⟨declared, consumed, position, rfl⟩
    | other hrefused => exact .inr hrefused

/-- A field that needs bytes behind the end of its body fails, whatever stands there. It fails as
an overrun, except that a text which takes bytes from behind the body may be refused for them:
then the field fails as the text does. -/
theorem field_past_stop (s : Schema) (hsize : bytes.length < maxIndex)
    (hstop : f.stop ≤ bytes.length) (hp : p < f.stop)
    (hcut : (s.decode.run ⟨bytes.take f.stop, .unbounded⟩ p).Fails e)
    (htruncation : e.isTruncation) :
    (∃ declared consumed position, ((f.field s.decode).run ⟨bytes, .unbounded⟩ p).Fails
        (.bodyOverrun declared consumed position)) ∨
      f.stop < bytes.length ∧ s.hasText ∧ ∃ q,
        (s.decode.run ⟨bytes, .unbounded⟩ p).Fails (.invalidUtf8 q) ∧
          ((f.field s.decode).run ⟨bytes, .unbounded⟩ p).Fails (.invalidUtf8 q) := by
  rcases Step.yields_or_fails (s.decode.run ⟨bytes, .unbounded⟩ p) with ⟨v, hv⟩ | ⟨e', he'⟩
  · refine .inl ⟨_, _, _, f.field_fails.2 (.inr (.inr ⟨hp, v, _, hv, ?_, rfl⟩))⟩
    refine Nat.lt_of_not_le fun hinside => ?_
    exact (decode_take hv hinside).not_fails hcut
  have hfield : ((f.field s.decode).run ⟨bytes, .unbounded⟩ p).Fails (f.passed e') :=
    f.field_fails.2 (.inr (.inl ⟨hp, e', he', rfl⟩))
  rcases passed_overrun_or_refused hsize hstop he' with
    ⟨declared, consumed, position, hpassed⟩ | ⟨htext, q, rfl⟩
  · rw [hpassed] at hfield
    exact .inl ⟨declared, consumed, position, hfield⟩
  · refine .inr ⟨Nat.lt_of_le_of_ne hstop fun hend => ?_, htext, q, he', hfield⟩
    -- With nothing behind the body the text would have been refused before the cut as well.
    rw [hend, List.take_length] at hcut
    obtain rfl := hcut.unique he'
    cases htruncation

/-- A number of four bytes in a body of three. -/
theorem field_past_stop_number :
    let bytes : List UInt8 := [3, 0, 0, 0, 1, 2, 3, 0xff]
    let f : Frame := ⟨4, 7⟩
    bytes.length < maxIndex ∧ f.stop ≤ bytes.length ∧
      ((scalar .uint32).decode.run ⟨bytes.take f.stop, .unbounded⟩ 4).Fails
        (.endOfInput 4 3 4) ∧
      ∃ declared consumed position,
        ((f.field (scalar .uint32).decode).run ⟨bytes, .unbounded⟩ 4).Fails
          (.bodyOverrun declared consumed position) := by
  intro bytes f
  have hcut : ((scalar .uint32).decode.run ⟨bytes.take f.stop, .unbounded⟩ 4).Fails
      (.endOfInput 4 3 4) := rfl
  have hfield := field_past_stop (scalar .uint32) (by decide) (by decide) (by decide) hcut rfl
  exact ⟨by decide, by decide, hcut, hfield.resolve_right fun h => by cases h.2.1⟩

/-- A title of two bytes in a body that ends behind the first. The byte behind the body is taken
for the second one, and as the two are not UTF-8 the field does not fail as an overrun. -/
theorem field_past_stop_not_overrun :
    let bytes : List UInt8 := [5, 0, 0, 0, 2, 0, 0, 0, 0x61, 0xff]
    let f : Frame := ⟨4, 9⟩
    (text.decode.run ⟨bytes.take f.stop, .unbounded⟩ 4).Fails (.endOfInput 2 1 8) ∧
      ((f.field text.decode).run ⟨bytes, .unbounded⟩ 4).Fails (.invalidUtf8 8) ∧
      ¬ ∃ declared consumed position, ((f.field text.decode).run ⟨bytes, .unbounded⟩ 4).Fails
        (.bodyOverrun declared consumed position) := by
  intro bytes f
  have hutf8 : String.fromUTF8? ⟨#[0x61, 0xff]⟩ = none := by decide +kernel
  have htext : (text.decode.run ⟨bytes, .unbounded⟩ 4).Fails (.invalidUtf8 8) :=
    Decoder.text_fails.2 (.inr ⟨2, 8, [0x61, 0xff], 10, ⟨rfl, rfl⟩, ⟨rfl, rfl⟩, hutf8, rfl⟩)
  have hfield : ((f.field text.decode).run ⟨bytes, .unbounded⟩ 4).Fails (.invalidUtf8 8) :=
    f.field_fails.2 (.inr (.inl ⟨by decide, _, htext, rfl⟩))
  refine ⟨rfl, hfield, ?_⟩
  rintro ⟨declared, consumed, position, hoverrun⟩
  cases hoverrun.unique hfield

end WireFormat.Schema
