import WireFormat.Proofs.Layout
import WireFormat.Writer.Program

/-! What a writer program means. A program that only appends, with messages in messages at any
depth, leaves behind the buffer what it would have written with every length known from the start.
-/
namespace WireFormat

open IntegerCodec

namespace WriterStep

mutual

/-- The step passes a test, and so do the steps of its body, however deep. -/
def all (test : WriterStep → Bool) : WriterStep → Bool
  | message body => test (message body) && allBody test body
  | step => test step

def allBody (test : WriterStep → Bool) : List WriterStep → Bool
  | [] => true
  | step :: rest => step.all test && allBody test rest

end

/-- A write, or a message. -/
def appends : WriterStep → Bool
  | clear | reserve | fill _ => false
  | _ => true

mutual

/-- The bytes that a step stands for: a value by its layout, and a message as its length and its
body. -/
def form : WriterStep → List UInt8
  | put s v => s.layout v
  | count n => digits 4 n
  | fieldIndex index => [index]
  | endFields => [0]
  | message body => digits 4 (formBody body).length ++ formBody body
  | clear | reserve | fill _ => []

def formBody : List WriterStep → List UInt8
  | [] => []
  | step :: rest => step.form ++ formBody rest

end

theorem formBody_append (steps more : List WriterStep) :
    formBody (steps ++ more) = formBody steps ++ formBody more := by
  induction steps with
  | nil => rfl
  | cons step rest ih => rw [List.cons_append, formBody, formBody, ih, List.append_assoc]

end WriterStep

/-- The end of a run without a fault that put these bytes behind the buffer. -/
structure WriterRun.Appended {α : Type} (ran : WriterRun α) (st : WriterState)
    (bytes : List UInt8) : Prop where
  reports : ran.report.isSome
  state : ran.state = ⟨st.writer.append bytes, st.placeholders⟩

theorem Writer.fill?_of_le {w : Writer} {p : Placeholder} (h : p.position + 4 ≤ w.size) :
    w.fill? p = some (w.patch p) :=
  if_neg (Nat.not_lt.2 h)

/-- The length of a message is filled in behind a body that only appends. -/
theorem Writer.fill?_body (w : Writer) (bytes : List UInt8) :
    (w.reserve.2.append bytes).fill? w.reserve.1 =
      some (w.append (digits 4 bytes.length ++ bytes)) := by
  have hmessage : w.message (·.append bytes) = w.append (Schema.framed bytes) :=
    Appends.message (fun _ => rfl) w
  rw [fill?_of_le, ← lengthBytes_eq]
  · exact congrArg some hmessage
  · simp only [reserve, append, size, List.length_append, length_lengthBytes]
    omega

namespace WriterStep

theorem appended_written {write : Writer → Writer} {bytes : List UInt8}
    (h : Writer.Appends write bytes) (st : WriterState) :
    (st.written (write st.writer)).Appended st bytes :=
  ⟨rfl, by rw [WriterState.written, h]⟩

mutual

theorem run_appended (step : WriterStep) (h : step.all appends) (st : WriterState) :
    (step.run st).Appended st step.form := by
  cases step with
  | put s v => exact appended_written (s.appends_layout v) st
  | count n =>
    have hcount : Writer.Appends (·.count n) (digits 4 n) :=
      fun w => congrArg w.append (Writer.lengthBytes_eq n)
    exact appended_written hcount st
  | fieldIndex index => exact appended_written (fun _ => rfl) st
  | endFields => exact appended_written (fun _ => rfl) st
  | clear => cases h
  | reserve => cases h
  | fill number => cases h
  | message body =>
    obtain ⟨hreports, hstate⟩ :=
      runBody_appended body (by simpa [all, appends] using h) ⟨st.writer.reserve.2, st.placeholders⟩
    obtain ⟨reports, hreports⟩ := Option.isSome_iff_exists.1 hreports
    have hfill := st.writer.fill?_body (formBody body)
    constructor
    · simp only [run, hreports, hstate, WriterState.filled, hfill]
      rfl
    · simp only [run, hreports, hstate, WriterState.filled, hfill, form]

theorem runBody_appended (steps : List WriterStep) (h : allBody appends steps) (st : WriterState) :
    (runBody steps st).Appended st (formBody steps) := by
  cases steps with
  | nil => exact ⟨rfl, by rw [runBody, formBody, Writer.append, List.append_nil]⟩
  | cons step rest =>
    obtain ⟨hstep, hrest⟩ : step.all appends ∧ allBody appends rest := by
      simpa [allBody] using h
    obtain ⟨hreports, hstate⟩ := run_appended step hstep st
    obtain ⟨report, hreports⟩ := Option.isSome_iff_exists.1 hreports
    obtain ⟨hothers, hlast⟩ := runBody_appended rest hrest (step.run st).state
    constructor
    · simpa only [runBody, hreports, Option.isSome_map] using hothers
    · simp only [runBody, hreports, hlast, formBody]
      rw [hstate, Writer.append_append]

end

/-- So it stands after every single step. -/
theorem runEach_appended (steps : List WriterStep) (h : allBody appends steps) (st : WriterState)
    {k : Nat} (hk : k < steps.length) :
    (runEach steps st)[k]?.map (·.state) =
      some ⟨st.writer.append (formBody (steps.take (k + 1))), st.placeholders⟩ := by
  induction steps generalizing st k with
  | nil => cases hk
  | cons step rest ih =>
    obtain ⟨hstep, hrest⟩ : step.all appends ∧ allBody appends rest := by
      simpa [allBody] using h
    have hstate := (run_appended step hstep st).state
    cases k with
    | zero => simp [runEach, hstate, formBody]
    | succ k =>
      have hlast := ih hrest (step.run st).state (Nat.lt_of_succ_lt_succ hk)
      rw [hstate, Writer.append_append] at hlast
      simpa [runEach, hstate, formBody] using hlast

/-- Lengths that are filled in afterwards come out as if they had been written first: behind what
the buffer held, a program leaves the layout of each value, and of each message the number of its
bytes and then these. -/
theorem runBody_length_first (program : List WriterStep) (h : allBody appends program)
    (st : WriterState) :
    ((runBody program st).report.isSome ∧
        (runBody program st).state =
          ⟨⟨st.writer.bytes ++ formBody program⟩, st.placeholders⟩) ∧
      (∀ k < program.length, (runEach program st)[k]?.map (·.state) =
        some ⟨⟨st.writer.bytes ++ formBody (program.take (k + 1))⟩, st.placeholders⟩) ∧
      (∀ body, Schema.FitsWord (formBody body).length →
        ofDigits ((message body).form.take 4) = (formBody body).length ∧
          (message body).form.drop 4 = formBody body) ∧
      (∀ steps more, formBody (steps ++ more) = formBody steps ++ formBody more) ∧
      ∀ (s : Schema) (v : s.Val) (out : List UInt8),
        s.encode v out = out ++ s.encode v [] ∧ (put s v).form = s.encode v [] := by
  obtain ⟨hreports, hstate⟩ := runBody_appended program h st
  refine ⟨⟨hreports, hstate⟩, fun k hk => runEach_appended program h st hk, ?_,
    formBody_append, ?_⟩
  · intro body hfits
    have hlength := length_digits 4 (formBody body).length
    constructor
    · rw [form, List.take_left' hlength, ofDigits_digits]
      exact Nat.mod_eq_of_lt hfits
    · rw [form, List.drop_left' hlength]
  · intro s v out
    have hform : s.encode v [] = s.layout v := s.encode_eq_layout v []
    rw [hform]
    exact ⟨s.encode_eq_layout v out, rfl⟩

/-- Two bytes that are there already, and behind them a message that holds a count, scalars and a
message of its own, then scalars outside of a message, and the end of a body. -/
theorem runBody_length_first_nested :
    let inner := [fieldIndex 1, put .text "hi", put (.scalar .bool) true,
      put (.scalar .int16) (-2 : Int16), put (.scalar .float32) (⟨0x3fc00000⟩ : Binary32)]
    let outer := [count 3, put (.scalar .byte) (7 : UInt8), message inner,
      put (.scalar .uint32) (0x01020304 : UInt32), endFields]
    let program := [message outer, put (.scalar .guid) (Songs.coltrane.2.1 : Guid),
      put (.scalar .date) (⟨607699584000000000⟩ : Timestamp),
      put (.scalar .int64) (-2 : Int64), endFields]
    let st : WriterState := ⟨⟨[0xaa, 0xbb]⟩, []⟩
    let bytes : List UInt8 := [28, 0, 0, 0, 3, 0, 0, 0, 7] ++
      [14, 0, 0, 0, 1, 2, 0, 0, 0, 0x68, 0x69, 1, 0xfe, 0xff, 0, 0, 0xc0, 0x3f] ++
      [4, 3, 2, 1, 0]
    allBody appends program ∧ 0 < program.length ∧ Schema.FitsWord (formBody inner).length ∧
      (runBody program st).state.writer.bytes = [0xaa, 0xbb] ++ bytes ++
        [0x33, 0x22, 0x11, 0, 0x55, 0x44, 0x77, 0x66,
          0x88, 0x99, 0xaa, 0xbb, 0xcc, 0xdd, 0xee, 0xff] ++
        [0, 0, 0x79, 0x4a, 0x8d, 0xfb, 0x6e, 8] ++
        [0xfe, 0xff, 0xff, 0xff, 0xff, 0xff, 0xff, 0xff] ++ [0] ∧
      (runEach program st)[0]?.map (·.state) = some ⟨⟨[0xaa, 0xbb] ++ bytes⟩, []⟩ ∧
      ofDigits ((message inner).form.take 4) = 14 := by
  intro inner outer program st bytes
  have happends : allBody appends program := by decide
  have hfirst : 0 < program.length := by decide
  have hfits : Schema.FitsWord (formBody inner).length := by decide
  obtain ⟨⟨-, hstate⟩, heach, hlength, -, -⟩ := runBody_length_first program happends st
  refine ⟨happends, hfirst, hfits, ?_, ?_, (hlength inner hfits).1⟩
  · rw [hstate]
    subst program outer inner
    rfl
  · rw [heach 0 hfirst]
    subst program outer inner
    rfl

end WriterStep
end WireFormat
