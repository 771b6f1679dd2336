import WireFormat.Proofs.ProgramErrors
import WireFormat.Proofs.Truncation

/-! The position over whole runs. Whether a read succeeds or fails, it leaves off no earlier than it
started and within the input; so do programs of a reader, however they nest. -/
namespace WireFormat

variable {α β : Type} {input : Input} {p q : Nat} {e : DecodeError}

/-- The step led from `p` forward, and not out of the input. -/
def Step.Onward (input : Input) (p : Nat) (s : Step α) : Prop :=
  p ≤ s.position ∧ s.position ≤ input.bytes.length

namespace Step

theorem onward_of_stays {s : Step α} (hp : p ≤ input.bytes.length) (h : s.position = p) :
    s.Onward input p :=
  ⟨Nat.le_of_eq h.symm, h ▸ hp⟩

theorem andThen_of_fails {s : Step α} {next : α → Nat → Step β} (h : s.Fails e) :
    s.andThen next = ⟨.error e, s.position, s.events⟩ := by
  obtain ⟨_ | _, _, _⟩ := s
  · obtain rfl := fails_error.1 h
    rfl
  · exact absurd h fails_ok

theorem andThen_position_of_yields {s : Step α} {a : α} {next : α → Nat → Step β}
    (h : s.Yields a q) : (s.andThen next).position = (next a q).position := by
  obtain ⟨_ | a', q', _⟩ := s
  · exact absurd h yields_error
  · obtain ⟨rfl, rfl⟩ := yields_ok.1 h
    rfl

theorem Onward.of_yields {s : Step α} {a : α} (h : s.Onward input p) (ha : s.Yields a q) :
    p ≤ q ∧ q ≤ input.bytes.length :=
  ha.2 ▸ h

theorem Onward.andThen {s : Step α} {next : α → Nat → Step β} (h : s.Onward input p)
    (hnext : ∀ a q, s.Yields a q → q ≤ input.bytes.length → (next a q).Onward input q) :
    (s.andThen next).Onward input p := by
  obtain ⟨_ | a, q, _⟩ := s
  · exact h
  · obtain ⟨hq, hend⟩ := hnext a q ⟨rfl, rfl⟩ h.2
    exact ⟨Nat.le_trans h.1 hq, hend⟩

end Step

namespace Decoder

/-- The read goes onward from every position within the input. -/
def Advances (input : Input) (d : Decoder α) : Prop :=
  ∀ p, p ≤ input.bytes.length → (d.run input p).Onward input p

/-- A read that fails leaves the position where it was. -/
def Atomic (input : Input) (d : Decoder α) : Prop :=
  ∀ p e, (d.run input p).Fails e → (d.run input p).position = p

variable {d : Decoder α} {next : α → Decoder β}

theorem advances_of_stays (h : ∀ p, (d.run input p).position = p) : d.Advances input :=
  fun p hp => Step.onward_of_stays hp (h p)

theorem advances_pure (a : α) : (pure a : Decoder α).Advances input :=
  advances_of_stays fun _ => rfl

theorem advances_input : Decoder.input.Advances input :=
  advances_of_stays fun _ => rfl

theorem advances_position : position.Advances input :=
  advances_of_stays fun _ => rfl

theorem Atomic.advances (hd : d.Atomic input)
    (h : ∀ p a q, p ≤ input.bytes.length → (d.run input p).Yields a q →
      p ≤ q ∧ q ≤ input.bytes.length) : d.Advances input := by
  intro p hp
  rcases (d.run input p).yields_or_fails with ⟨a, ha⟩ | ⟨e, he⟩
  · exact h p a _ hp ha
  · exact Step.onward_of_stays hp (hd p e he)

/-- What comes after a read that fails in place must not fail itself. -/
theorem Atomic.bind (hd : d.Atomic input)
    (hnext : ∀ a p e, ¬ ((next a).run input p).Fails e) : (d >>= next).Atomic input := by
  intro p e h
  rcases bind_fails.1 h with he | ⟨a, r, -, he⟩
  · rw [run_bind, Step.andThen_of_fails he]
    exact hd p e he
  · exact absurd he (hnext a r e)

theorem Atomic.map (hd : d.Atomic input) (g : α → β) :
    (do return g (← d) : Decoder β).Atomic input :=
  hd.bind fun _ _ _ => Step.fails_ok

theorem atomic_restoring (d : Decoder α) : d.restoring.Atomic input := by
  intro p e h
  simp only [restoring] at h ⊢
  split
  · rfl
  · rename_i hok
    rw [hok] at h
    exact absurd h Step.fails_ok

theorem atomic_slice (count : Nat) : (slice count).Atomic input := by
  intro p e h
  obtain ⟨hend, -⟩ := slice_fails.1 h
  simp only [slice, if_pos hend]

theorem atomic_block (count : Nat) : (block count).Atomic input := by
  intro p e h
  simp only [block] at h ⊢
  split
  · rename_i hsize
    rw [dif_pos hsize] at h
    exact absurd h Step.fails_ok
  · rfl

theorem atomic_word32 : word32.Atomic input := (atomic_block 4).map _

/-- A length that is refused leaves the reader in front of it. -/
theorem atomic_messageLength : messageLength.Atomic input := by
  intro p e h
  simp only [messageLength, run_bind, Decoder.position, Decoder.input, Step.andThen_ok] at h ⊢
  rcases hword : word32.run input p with ⟨e' | x, r, events⟩
  · have hp := atomic_word32 p e' (by rw [hword]; exact Step.fails_error.2 rfl)
    rwa [hword] at hp
  · rw [hword] at h
    simp only [run_bind, Step.andThen_ok] at h ⊢
    split
    · rfl
    split
    · rfl
    · rename_i hlimit hend
      rw [if_neg hlimit, if_neg hend] at h
      exact absurd h Step.fails_ok

theorem Advances.bind_of_yields (hd : d.Advances input)
    (hnext : ∀ p a q, (d.run input p).Yields a q → (next a).Advances input) :
    (d >>= next).Advances input :=
  fun p hp => (hd p hp).andThen fun a q ha hq => hnext p a q ha q hq

theorem Advances.bind (hd : d.Advances input) (hnext : ∀ a, (next a).Advances input) :
    (d >>= next).Advances input :=
  hd.bind_of_yields fun _ a _ _ => hnext a

theorem Advances.map (hd : d.Advances input) (g : α → β) :
    (do return g (← d) : Decoder β).Advances input :=
  hd.bind fun a => advances_pure (g a)

theorem Advances.restoring (hd : d.Advances input) : d.restoring.Advances input := by
  refine (atomic_restoring d).advances fun p a q hp h => ?_
  obtain ⟨ha, rfl⟩ := restoring_yields.1 h
  exact hd p hp

theorem advances_slice (count : Nat) : (slice count).Advances input := by
  refine (atomic_slice count).advances fun p w q hp h => ?_
  obtain ⟨hlen, -, rfl⟩ := slice_yields.1 h
  unfold Input.remaining at hlen
  omega

theorem advances_block (count : Nat) : (block count).Advances input := by
  refine (atomic_block count).advances fun p v q hp h => ?_
  exact ((local_block count).take hp h).imp_right And.left

theorem advances_word32 : word32.Advances input := (advances_block 4).map _

theorem advances_arrayLength : arrayLength.Advances input := by
  refine (atomic_restoring _).advances fun p n q hp h => ?_
  obtain ⟨x, hx, -⟩ := arrayLength_yields.1 h
  exact (local_word32.take hp hx).imp_right And.left

theorem advances_byteArray : byteArray.Advances input :=
  (advances_arrayLength.bind advances_slice).restoring

theorem advances_text : text.Advances input := by
  refine (atomic_restoring _).advances fun p t q hp h => ?_
  exact (local_text.take hp h).imp_right And.left

theorem advances_messageLength : messageLength.Advances input := by
  refine atomic_messageLength.advances fun p n q hp h => ?_
  obtain ⟨x, hx, -⟩ := messageLength_yields.1 h
  exact (local_word32.take hp hx).imp_right And.left

theorem advances_openFrame : openFrame.Advances input :=
  advances_messageLength.bind fun _ => advances_position.map _

end Decoder

namespace Frame

variable (f : Frame)

theorem checkBounds_position (input : Input) (p : Nat) :
    (f.checkBounds.run input p).position = p := by
  rw [checkBounds]
  dsimp only
  split <;> rfl

theorem advances_enter : f.enter.Advances input := by
  refine (Decoder.advances_of_stays (f.checkBounds_position input)).bind fun _ => ?_
  refine Decoder.advances_position.bind fun q => ?_
  split
  · exact (Decoder.advances_of_stays fun _ => rfl).map _
  · exact Decoder.advances_pure true

theorem settle_position (s : Step α) : (f.settle s).position = s.position := by
  unfold settle
  split
  · rfl
  · split <;> rfl

theorem onward_settle {s : Step α} (h : s.Onward input p) : (f.settle s).Onward input p := by
  rwa [Step.Onward, settle_position]

theorem onward_leave {s : Step α} (h : s.Onward input p) : (f.leave input s).Onward input p := by
  refine (f.onward_settle h).andThen fun a q _ hq => ?_
  have hbounds := Step.onward_of_stays hq (f.checkBounds_position input q)
  exact hbounds.andThen fun _ r _ hr => Step.onward_of_stays hr rfl

theorem advances_field {d : Decoder α} (hd : d.Advances input) : (f.field d).Advances input := by
  refine f.advances_enter.bind fun entered => ?_
  cases entered with
  | false => exact Decoder.advances_pure none
  | true =>
    have hreading : (f.reading d).Advances input := fun p hp => f.onward_leave (hd p hp)
    exact hreading.map _

theorem advances_nextIndex : f.nextIndex.Advances input := by
  refine (f.advances_field ((Decoder.advances_block 1).map _)).bind fun o => ?_
  split <;> exact Decoder.advances_pure _

variable {f}

theorem advances_finish (hf : f.Within input) : f.finish.Advances input := by
  intro p hp
  rcases (f.finish.run input p).yields_or_fails with ⟨u, hu⟩ | ⟨e, he⟩
  · obtain ⟨hstop, hend⟩ := f.finish_yields.1 hu
    exact ⟨hend ▸ hstop, hend ▸ hf.2⟩
  · obtain ⟨hpast, -⟩ := f.finish_fails.1 he
    refine Step.onward_of_stays hp ?_
    simp [finish, checkBounds, hpast]

theorem onward_close (hf : f.Within input) {s : Step α} (h : s.Onward input p) :
    (f.close input s).Onward input p := by
  refine (f.onward_settle h).andThen fun a q _ hq => ?_
  exact (advances_finish hf q hq).andThen fun _ r _ hr => Step.onward_of_stays hr rfl

theorem Walk.onward_cons {s : Step α} {rest : Nat → Walk α} (h : s.Onward input p)
    (hrest : ∀ q, q ≤ input.bytes.length → (rest q).ending.Onward input q) :
    (cons s rest).ending.Onward input p := by
  have hending := h.andThen fun _ q _ hq => hrest q hq
  obtain ⟨_ | _, _, _⟩ := s <;> exact hending

theorem Walk.onward_after {s : Step β} {next : β → Nat → Walk α} (h : s.Onward input p)
    (hnext : ∀ b q, s.Yields b q → q ≤ input.bytes.length → (next b q).ending.Onward input q) :
    (after s next).ending.Onward input p := by
  have hending := h.andThen hnext
  obtain ⟨_ | _, _, _⟩ := s <;> exact hending

theorem onward_walkUpTo {known : UInt8 → Option (Decoder α)}
    (hknown : ∀ i d, known i = some d → d.Advances input) {fuel : Nat}
    (hp : p ≤ input.bytes.length) : (f.walkUpTo known input fuel p).ending.Onward input p := by
  induction fuel generalizing p with
  | zero => exact Step.onward_of_stays hp rfl
  | succ fuel ih =>
    refine Walk.onward_after (f.advances_nextIndex p hp) fun index q _ hq => ?_
    split
    · exact Step.onward_of_stays hq rfl
    · rename_i d hd
      obtain ⟨i, -, hi⟩ := Option.bind_eq_some_iff.1 hd
      exact Walk.onward_cons (hknown i d hi q hq) fun r hr => ih hr

end Frame

theorem Decoder.advances_message {body : Frame → Decoder α}
    (hbody : ∀ f, (body f).Advances input) : (message body).Advances input := by
  refine advances_openFrame.bind_of_yields fun p f q hopen r hr => ?_
  exact Frame.onward_close (openFrame_within hopen) (hbody f r hr)

theorem Decoder.compositional_advances (input : Input) :
    Compositional (fun d => d.Advances input) fun body => ∀ f : Frame, (body f).Advances input where
  pure := advances_pure
  bind hd hnext := hd.bind hnext
  slice := advances_slice
  block := advances_block
  arrayLength := advances_arrayLength
  byteArray := advances_byteArray
  message hbody := advances_message hbody
  pureWithin a _ := advances_pure a
  bindWithin hread hnext f := (hread f).bind fun a => hnext a f
  field hd f := f.advances_field hd
  indexedFields hrounds f p hp := by
    rw [Frame.run_indexedFields]
    exact hrounds _ f p hp

theorem Schema.advances_decode (s : Schema) : s.decode.Advances input :=
  (Decoder.compositional_advances input).decode s fun _ => Decoder.advances_text

section Steps

variable {d : Decoder α} {place : Input → Nat → Place} {answer : Input → Nat → α → Answer}

theorem Step.onward_forget {s : Step α} (h : s.Onward input p) : s.forget.Onward input p :=
  h.andThen fun _ _ _ hq => onward_of_stays hq rfl

theorem Step.onward_answered {s : Step α} {answer : α → Answer} (h : s.Onward input p) :
    (s.answered answer).Onward input p :=
  h.andThen fun _ _ _ hq => onward_of_stays hq rfl

theorem advances_plain (hd : d.Advances input) :
    Decoder.Advances input ⟨fun input p =>
      (Run.plain (place input) ((d.run input p).answered (answer input p))).ending⟩ :=
  fun p hp => Step.onward_forget (Step.onward_answered (hd p hp))

theorem advances_plain_ok {answers : Input → Nat → Answer} :
    Decoder.Advances input
      ⟨fun input p => (Run.plain (place input) ⟨.ok (answers input p), p, []⟩).ending⟩ :=
  Decoder.advances_of_stays fun _ => rfl

theorem Run.andThen_ending (r : Run) (next : Nat → Run) :
    (r.andThen next).ending = r.ending.andThen fun _ q => (next q).ending := by
  obtain ⟨⟨_ | _, _, _⟩, _⟩ := r <;> rfl

theorem Run.onward_andThen {r : Run} {next : Nat → Run} (h : r.ending.Onward input p)
    (hnext : ∀ q, q ≤ input.bytes.length → (next q).ending.Onward input q) :
    (r.andThen next).ending.Onward input p := by
  rw [andThen_ending]
  exact h.andThen fun _ q _ hq => hnext q hq

end Steps

theorem advances_tableFields {f : Frame} {table : List (UInt8 × Schema)} {checked : Bool}
    {i : UInt8} {d : Decoder IndexedField} (hd : tableFields f table checked i = some d) :
    d.Advances input := by
  obtain ⟨s, -, rfl⟩ := Option.map_eq_some_iff.1 hd
  cases checked with
  | false => exact s.advances_decode.map _
  | true => exact (f.advances_field s.advances_decode).map _

mutual

theorem ReaderStep.advances_read : ∀ step : ReaderStep, step.read.Advances input
  | .decode s => advances_plain s.advances_decode
  | .arrayLength => advances_plain Decoder.advances_arrayLength
  | .messageLength => advances_plain Decoder.advances_messageLength
  | .skip count => advances_plain ((Decoder.advances_slice count).map fun _ => ())
  | .peek => advances_plain (d := Decoder.peek) (Decoder.advances_of_stays fun _ => rfl)
  | .atEnd => advances_plain_ok
  | .remainingBytes => advances_plain_ok
  | .limits => advances_plain_ok
  | .fail _ => Decoder.advances_of_stays fun _ => rfl
  | .fork body => by
    intro p hp
    refine Step.onward_forget (Step.onward_of_stays hp ?_)
    rfl
  | .message body => by
    intro p hp
    change ((ReaderStep.message body).run input p).ending.Onward input p
    rw [ReaderStep.run_message_ending]
    exact Decoder.advances_message (FrameStep.advances_readBody body) p hp
  | .openFrame body finish => by
    intro p hp
    change ((ReaderStep.openFrame body finish).run input p).ending.Onward input p
    rw [ReaderStep.run_openFrame_ending]
    refine Decoder.advances_openFrame.bind_of_yields (fun p f q hopen => ?_) p hp
    refine (FrameStep.advances_readBody body f).bind fun _ => ?_
    cases finish with
    | false => exact Decoder.advances_pure ()
    | true => exact Frame.advances_finish (Decoder.openFrame_within hopen)
  | .attempt step => ReaderStep.advances_read step

theorem ReaderStep.advances_readBody :
    ∀ body : List ReaderStep, (ReaderStep.readBody body).Advances input
  | [] => Decoder.advances_pure ()
  | step :: rest => fun p hp =>
    Run.onward_andThen (ReaderStep.advances_read step p hp) (ReaderStep.advances_readBody rest)

theorem FrameStep.advances_read :
    ∀ (step : FrameStep) (f : Frame), (step.read f).Advances input
  | .length, _ => advances_plain_ok
  | .isEmpty, _ => advances_plain_ok
  | .exhausted, _ => advances_plain_ok
  | .field s, f => advances_plain (f.advances_field s.advances_decode)
  | .fieldOrDefault s, f => advances_plain ((f.advances_field s.advances_decode).map _)
  | .nextIndex, f => advances_plain f.advances_nextIndex
  | .fieldBy body, f => by
    intro p hp
    change ((FrameStep.fieldBy body).run f input p).ending.Onward input p
    rw [FrameStep.run_fieldBy_ending]
    exact Step.onward_forget (f.advances_field (ReaderStep.advances_readBody body) p hp)
  | .reader step, _ => fun p hp =>
    Step.onward_forget (Step.onward_answered (ReaderStep.advances_read step p hp))
  | .walk _ _, _ => fun _ hp => Frame.onward_walkUpTo (fun _ _ hd => advances_tableFields hd) hp
  | .attempt step, f => FrameStep.advances_read step f

theorem FrameStep.advances_readBody :
    ∀ (body : List FrameStep) (f : Frame), (FrameStep.readBody body f).Advances input
  | [], _ => Decoder.advances_pure ()
  | step :: rest, f => fun p hp =>
    Run.onward_andThen (FrameStep.advances_read step f p hp) (FrameStep.advances_readBody rest f)

end

end WireFormat
