import WireFormat.Proofs.Cursor

/-! Messages stay aligned. Whatever is done to a reader inside a message, the message ends where its
length says, or it is not read: a body that goes further is refused, and a length that is refused
moves nothing and runs nothing. -/
namespace WireFormat

variable {α : Type} {input : Input} {p : Nat}

/-- The four bytes at `p` are there, and the length that they hold is `length`. -/
def Declares (input : Input) (p length : Nat) : Prop :=
  p + 4 ≤ input.bytes.length ∧ IntegerCodec.ofDigits ((input.bytes.drop p).take 4) = length

theorem Decoder.declares_of_word32 {x : UInt32} {q : Nat}
    (h : (word32.run input p).Yields x q) : q = p + 4 ∧ Declares input p x.toNat := by
  obtain ⟨rfl, hend, hdigits⟩ := word32_yields_iff.1 h
  exact ⟨rfl, hend, hdigits.symm⟩

theorem Decoder.declares_of_messageLength {n r : Nat}
    (h : (messageLength.run input p).Yields n r) : r = p + 4 ∧ Declares input p n := by
  obtain ⟨x, hx, rfl, -⟩ := messageLength_yields.1 h
  exact declares_of_word32 hx

/-- A length that is declared is read. -/
theorem Declares.exists_word32 {length : Nat} (h : Declares input p length) :
    ∃ x, (Decoder.word32.run input p).Yields x (p + 4) ∧ x.toNat = length := by
  rcases (Decoder.word32.run input p).yields_or_fails with ⟨x, hx⟩ | ⟨e, he⟩
  · obtain ⟨hposition, -, hdigits⟩ := Decoder.declares_of_word32 hx
    exact ⟨x, hposition ▸ hx, hdigits.symm.trans h.2⟩
  · have hshort := (Decoder.word32_fails.1 he).1
    have hend := h.1
    unfold Input.remaining at hshort
    omega

/-- How a message at `p` goes, by what its length is and by where its body leaves off. -/
structure Aligned (input : Input) (p : Nat) (body : Frame → Decoder α) (outcome : Step α) :
    Prop where
  /-- A message that was read declares a length, and leaves the reader that far behind it. -/
  aligned : ∀ a q, outcome.Yields a q → ∃ length, Declares input p length ∧ q = p + 4 + length
  /-- A body that keeps to its frame is read. -/
  within : ∀ length, (Decoder.messageLength.run input p).Yields length (p + 4) → ∀ a t,
    ((body ⟨p + 4, p + 4 + length⟩).run input (p + 4)).Yields a t → t ≤ p + 4 + length →
      outcome.Yields a (p + 4 + length)
  /-- A body that was read but leaves off behind its frame is refused. -/
  beyond : ∀ length, (Decoder.messageLength.run input p).Yields length (p + 4) → ∀ a t,
    ((body ⟨p + 4, p + 4 + length⟩).run input (p + 4)).Yields a t → p + 4 + length < t →
      outcome.Fails (.bodyOverrun length (t - (p + 4)) t)
  /-- With its length refused the message is refused in place, whatever the body is. -/
  refused : ∀ e, (Decoder.messageLength.run input p).Fails e →
    outcome = ⟨.error e, p, (Decoder.messageLength.run input p).events⟩

theorem Decoder.openFrame_refused {e : DecodeError} (h : (messageLength.run input p).Fails e) :
    openFrame.run input p = ⟨.error e, p, (messageLength.run input p).events⟩ := by
  rw [openFrame, run_bind, Step.andThen_of_fails h, atomic_messageLength p e h]

theorem Decoder.aligned_message (input : Input) (p : Nat) (body : Frame → Decoder α) :
    Aligned input p body ((message body).run input p) where
  aligned a q h := by
    obtain ⟨n, r, hn, rfl, -⟩ := message_yields.1 h
    obtain ⟨rfl, hdeclares⟩ := declares_of_messageLength hn
    exact ⟨n, hdeclares, rfl⟩
  within n hn a t ht hend := message_yields.2 ⟨n, p + 4, hn, rfl, t, ht, hend⟩
  beyond n hn a t ht hend := by
    have hopen : (openFrame.run input p).Yields ⟨p + 4, p + 4 + n⟩ (p + 4) :=
      openFrame_yields.2 ⟨n, hn, rfl⟩
    refine message_fails.2 (.inr ⟨_, _, hopen, .inr ⟨a, t, ht, hend, ?_⟩⟩)
    rw [Frame.length, Frame.consumed, Nat.add_sub_cancel_left]
  refused e he := by
    rw [message, run_bind, openFrame_refused he]
    rfl

theorem ReaderStep.message_reports_of_refused {e : DecodeError}
    (h : (Decoder.messageLength.run input p).Fails e) (program : List FrameStep) :
    ((ReaderStep.message program).run input p).reports =
      [.nested (.error e) (.ofReader input p) []] := by
  rw [ReaderStep.run, Decoder.openFrame_refused h]
  rfl

/-- Messages stay aligned, whatever their body does: be it any read that is given the frame, or a
program of steps on the frame and on the reader under it, which may skip, open frames and abandon
them, fork and pass over errors. A program whose message is refused at its length reports no
step. -/
theorem message_aligned (input : Input) (p : Nat) :
    (∀ (α : Type) (body : Frame → Decoder α),
      Aligned input p body ((Decoder.message body).run input p)) ∧
    ∀ program : List FrameStep,
      Aligned input p (FrameStep.readBody program)
        ((ReaderStep.message program).run input p).ending ∧
      ∀ e, (Decoder.messageLength.run input p).Fails e →
        ((ReaderStep.message program).run input p).reports =
          [.nested (.error e) (.ofReader input p) []] := by
  refine ⟨fun α body => Decoder.aligned_message input p body, fun program => ⟨?_, fun e he => ?_⟩⟩
  · rw [ReaderStep.run_message_ending]
    exact Decoder.aligned_message input p (FrameStep.readBody program)
  · exact ReaderStep.message_reports_of_refused he program

/-- A body of two bytes. One program reads a byte of it and passes over a nested message that is not
there; one skips a byte too many; and behind the body there is no length any more. -/
theorem message_aligned_pair :
    ((ReaderStep.message [.field (.scalar .byte), .attempt (.reader (.message []))]).run
        ⟨[9, 2, 0, 0, 0, 1, 2, 7], .unbounded⟩ 1).ending.Yields () 7 ∧
      (∃ length, Declares ⟨[9, 2, 0, 0, 0, 1, 2, 7], .unbounded⟩ 1 length ∧
        7 = 1 + 4 + length) ∧
      ((ReaderStep.message [.reader (.skip 3)]).run
        ⟨[9, 2, 0, 0, 0, 1, 2, 7], .unbounded⟩ 1).ending.Fails (.bodyOverrun 2 3 8) ∧
      ((ReaderStep.message [.length]).run
        ⟨[9, 2, 0, 0, 0, 1, 2, 7], .unbounded⟩ 7).ending = ⟨.error (.endOfInput 4 1 7), 7, []⟩ ∧
      ((ReaderStep.message [.length]).run ⟨[9, 2, 0, 0, 0, 1, 2, 7], .unbounded⟩ 7).reports =
        [.nested (.error (.endOfInput 4 1 7)) (.reader 7 1) []] := by
  have hread : ((ReaderStep.message [.field (.scalar .byte),
      .attempt (.reader (.message []))]).run
        ⟨[9, 2, 0, 0, 0, 1, 2, 7], .unbounded⟩ 1).ending.Yields () 7 := by
    constructor <;> rfl
  have hlength : (Decoder.messageLength.run
      ⟨[9, 2, 0, 0, 0, 1, 2, 7], .unbounded⟩ 1).Yields 2 (1 + 4) := by
    constructor <;> rfl
  have hskip : ((FrameStep.readBody [.reader (.skip 3)] ⟨5, 7⟩).run
      ⟨[9, 2, 0, 0, 0, 1, 2, 7], .unbounded⟩ 5).Yields () 8 := by
    constructor <;> rfl
  have hrefused : (Decoder.messageLength.run
      ⟨[9, 2, 0, 0, 0, 1, 2, 7], .unbounded⟩ 7).Fails (.endOfInput 4 1 7) := by
    rfl
  obtain ⟨-, hprograms⟩ := message_aligned ⟨[9, 2, 0, 0, 0, 1, 2, 7], .unbounded⟩ 1
  obtain ⟨hbehind, hreports⟩ :=
    (message_aligned ⟨[9, 2, 0, 0, 0, 1, 2, 7], .unbounded⟩ 7).2 [.length]
  exact ⟨hread, (hprograms _).1.aligned () 7 hread,
    (hprograms [.reader (.skip 3)]).1.beyond 2 hlength () 8 hskip (by decide),
    hbehind.refused _ hrefused, hreports _ hrefused⟩

end WireFormat
