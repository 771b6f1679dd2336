import WireFormat.Proofs.GuardedReads
import WireFormat.Proofs.Places

/-! No run is at fault. The guarded read of every schema follows the plain one, and so does every
program, whatever it does with the reader, with frames and with copies. -/
namespace WireFormat

open Guarded

variable {α β : Type} {input : Input} {frames : List Frame} {f : Frame} {p q : Nat}

namespace Schema

theorem follows_entry {gkey : Guarded α} {key : Decoder α} {gvalue : Guarded β}
    {value : Decoder β} (hkey : Follows input frames gkey key)
    (hvalue : Follows input frames gvalue value) :
    Follows input frames (guardedEntry gkey gvalue) (entry key value) :=
  hkey.bind fun _ => hvalue.map _

/-- Asking how much is left changes nothing. -/
theorem follows_sized {g : Guarded α} {d : Decoder α} (h : Follows input frames g d) :
    Follows input frames (do let _ ← remaining; g) d where
  outcome p hp := by
    rw [run_bind, run_remaining hp.1]
    dsimp only [Option.bind_some]
    rw [h.outcome p hp]
    rfl
  advances := h.advances

section Fields

variable {fields : List Schema}

theorem follows_decodeAll (h : ∀ s ∈ fields, Follows input frames s.guarded s.decode) :
    Follows input frames (guardedAll fields) (decodeAll fields) := by
  induction fields with
  | nil => exact follows_pure ()
  | cons s rest ih =>
    have hrest := ih fun t ht => h t (List.mem_cons_of_mem s ht)
    exact follows_entry (h s List.mem_cons_self) hrest

theorem follows_decodeFields (hf : f ∈ frames)
    (h : ∀ s ∈ fields, Follows input frames s.guarded s.decode) :
    Follows input frames (guardedInOrder fields f) (decodeFields fields f) := by
  induction fields with
  | nil => exact follows_pure ()
  | cons s rest ih =>
    have hrest := ih fun t ht => h t (List.mem_cons_of_mem s ht)
    exact follows_entry (Frame.follows_field hf (h s List.mem_cons_self)) hrest

theorem follows_decodeIndexed (hf : f ∈ frames)
    (h : ∀ s ∈ fields, Follows input frames s.guarded s.decode) (n : Nat) :
    Option.Rel (fun gread read => Follows input frames (gread f) (read f))
      (guardedIndexed fields n) (decodeIndexed fields n) := by
  induction fields generalizing n with
  | nil => exact .none
  | cons s rest ih =>
    cases n with
    | zero => exact .some ((Frame.follows_field hf (h s List.mem_cons_self)).map _)
    | succ n =>
      have hrest := ih (fun t ht => h t (List.mem_cons_of_mem s ht)) n
      rw [guardedIndexed, decodeIndexed]
      generalize guardedIndexed rest n = gread? at hrest ⊢
      generalize decodeIndexed rest n = read? at hrest ⊢
      cases hrest with
      | none => exact .none
      | some hread => exact .some (hread.map _)

end Fields
end Schema

section Schemas

variable (hsize : input.bytes.length ≤ maxIndex)
include hsize

theorem Scalar.follows_decode (s : Scalar) : Follows input frames s.guarded s.decode := by
  cases s with
  | byte => exact follows_byte hsize
  | uint16 => exact follows_word16 hsize
  | uint32 => exact follows_word32 hsize
  | uint64 => exact follows_word64 hsize
  | bool => exact (follows_byte hsize).map _
  | int16 => exact (follows_word16 hsize).map _
  | int32 | float32 => exact (follows_word32 hsize).map _
  | int64 | float64 | date => exact (follows_word64 hsize).map _
  | guid => exact ((follows_block hsize 16).map _).operation

theorem Schema.follows_items {item : Schema} {g : Guarded item.Val} {d : Decoder item.Val}
    (hg : Follows input frames g d) (count : Nat) :
    Follows input frames (guardedItems item g count) (items item d count) := by
  unfold guardedItems
  split
  · exact follows_slice hsize count
  · rename_i hitem
    rw [items]
    · exact follows_sized (hg.times count)
    · rintro _ rfl -
      exact hitem g rfl HEq.rfl

/-- The induction is on the schema. A message opens a frame, and its fields are read among one frame
more, so that the frames are general. -/
theorem Schema.follows_decode (s : Schema) (frames : List Frame) :
    Follows input frames s.guarded s.decode := by
  induction s using Schema.induct generalizing frames with
  | scalar s => exact s.follows_decode hsize
  | text => exact follows_text hsize
  | bytes => exact follows_byteArray hsize
  | array item ih => exact (follows_arrayLength hsize).bind (follows_items hsize (ih frames))
  | map kind key value ihkey ihvalue =>
    have hentries (count : Nat) := (follows_entry (ihkey frames) (ihvalue frames)).times count
    cases kind with
    | sorted => exact (follows_arrayLength hsize).bind fun count => (hentries count).map _
    | hashed =>
      exact (follows_arrayLength hsize).bind fun count => follows_sized ((hentries count).map _)
  | record first rest ihfirst ihrest =>
    exact follows_entry (ihfirst frames) (follows_decodeAll fun s hs => ihrest s hs frames)
  | message fields ih =>
    have hbody (f : Frame) := follows_decodeFields (List.mem_cons_self (l := frames))
      fun s hs => ih s hs (f :: frames)
    exact (follows_message hsize hbody).map _
  | indexed fields ih =>
    refine (follows_message hsize fun f => ?_).map _
    refine Frame.follows_fields List.mem_cons_self hsize fun i => ?_
    have hread := follows_decodeIndexed List.mem_cons_self (fun s hs => ih s hs (f :: frames))
      (i.toNat - 1)
    generalize guardedIndexed fields (i.toNat - 1) = gread? at hread ⊢
    generalize decodeIndexed fields (i.toNat - 1) = read? at hread ⊢
    cases hread with
    | none => exact .none
    | some hread => exact .some hread

theorem follows_guardedTable (hf : f ∈ frames) (table : List (UInt8 × Schema)) (checked : Bool) :
    Frame.Alike input frames (guardedTable f table checked) (tableFields f table checked) := by
  intro i
  unfold guardedTable tableFields
  cases table.lookup i with
  | none => exact .none
  | some s =>
    have hs := s.follows_decode hsize frames
    cases checked with
    | false => exact .some (hs.map _)
    | true => exact .some ((Frame.follows_field hf hs).map _)

end Schemas

section Steps

variable {g : Guarded α} {d : Decoder α} {place : Input → Nat → Place}
  {answer : Input → Nat → α → Answer}

theorem Guarded.run_ignore {s : Step α} (h : g.run input frames p = some s) :
    g.ignore.run input frames p = some s.forget := by
  rw [Guarded.ignore, run_bind, h]
  obtain ⟨_ | _, _, _⟩ := s <;> rfl

theorem Guarded.run_fork {s : Step α} (h : g.run input frames p = some s) :
    g.fork.run input frames p = some ⟨s.result.map fun _ => (), p, s.events⟩ := by
  simp only [fork, h, Option.map_some]

theorem Guarded.run_attempt {g : Guarded Unit} {s : Step Unit}
    (h : g.run input frames p = some s) :
    g.attempt.run input frames p = some ⟨.ok (), s.position, s.events⟩ := by
  simp only [attempt, h, Option.map_some]

/-- A step that answers with what was read ends as the read does. -/
theorem Guarded.Follows.plain (hg : Follows input frames g d) :
    Follows input frames g.ignore ⟨fun input p =>
      (Run.plain (place input) ((d.run input p).answered (answer input p))).ending⟩ where
  outcome p hp := by
    rw [run_ignore (hg.outcome p hp)]
    simp only [Run.plain, Step.forget_answered]
  advances := advances_plain hg.advances

/-- So does a step that looks something up in place, whatever it answers. -/
theorem Guarded.Follows.plain_ok {value : Input → Nat → α} {answers : Input → Nat → Answer}
    (hg : Follows input frames g ⟨fun input p => ⟨.ok (value input p), p, []⟩⟩) :
    Follows input frames g.ignore ⟨fun input p =>
      (Run.plain (place input) ⟨.ok (answers input p), p, []⟩).ending⟩ where
  outcome p hp := run_ignore (hg.outcome p hp)
  advances := advances_plain_ok

theorem ReaderStep.read_openFrame (body : List FrameStep) (finish : Bool) :
    (ReaderStep.openFrame body finish).read = (do
      let f ← Decoder.openFrame
      FrameStep.readBody body f
      if finish then f.finish else pure () : Decoder Unit) :=
  congrArg Decoder.mk <| funext fun input => funext fun p =>
    ReaderStep.run_openFrame_ending body finish input p

theorem ReaderStep.readBody_cons (step : ReaderStep) (rest : List ReaderStep) :
    ReaderStep.readBody (step :: rest) = step.read >>= fun _ => ReaderStep.readBody rest :=
  congrArg Decoder.mk <| funext fun _ => funext fun _ => Run.andThen_ending _ _

theorem FrameStep.readBody_cons (step : FrameStep) (rest : List FrameStep) (f : Frame) :
    FrameStep.readBody (step :: rest) f = step.read f >>= fun _ => FrameStep.readBody rest f :=
  congrArg Decoder.mk <| funext fun _ => funext fun _ => Run.andThen_ending _ _

end Steps

mutual

theorem ReaderStep.follows_read (hsize : input.bytes.length ≤ maxIndex) :
    ∀ (step : ReaderStep) (frames : List Frame), Follows input frames step.guarded step.read
  | .decode s, frames => (s.follows_decode hsize frames).plain
  | .arrayLength, _ => (follows_arrayLength hsize).plain
  | .messageLength, _ => (follows_messageLength hsize).plain
  | .skip count, _ => (follows_skip hsize count).plain
  | .peek, _ => (follows_lift (Decoder.advances_of_stays fun _ => rfl)).operation.plain
  | .atEnd, _ => (follows_pure ()).operation.plain_ok
  | .remainingBytes, frames => by
    have hrest : Follows input frames rest ⟨fun input p => ⟨.ok (input.bytes.drop p), p, []⟩⟩ :=
      ⟨fun _ hp => run_rest hp.1, Decoder.advances_of_stays fun _ => rfl⟩
    exact hrest.operation.plain_ok
  | .limits, _ => (follows_pure ()).operation.plain_ok
  | .fail e, _ => follows_fail e
  | .fork body, frames => by
    refine .operation ⟨fun p hp => ?_, ReaderStep.advances_read (.fork body)⟩
    rw [run_fork ((ReaderStep.follows_readBody hsize body frames).outcome p hp)]
    simp only [ReaderStep.read, ReaderStep.run, ReaderStep.readBody, Run.nested]
    obtain ⟨_ | _, _, _⟩ := (ReaderStep.runBody body input p).ending <;>
      simp [Step.answered, Step.forget, Except.map]
  | .message body, frames => by
    refine ⟨fun p hp => ?_, ReaderStep.advances_read (.message body)⟩
    change _ = some ((ReaderStep.message body).run input p).ending
    rw [ReaderStep.run_message_ending]
    have hbody (f : Frame) :=
      FrameStep.follows_readBody hsize body f (f :: frames) List.mem_cons_self
    exact (follows_message hsize hbody).outcome p hp
  | .openFrame body finish, frames => by
    rw [ReaderStep.read_openFrame]
    refine .operation (follows_opened hsize fun f hwithin => ?_)
    have hbody := FrameStep.follows_readBody hsize body f (f :: frames) List.mem_cons_self
    refine hbody.bind fun _ => ?_
    cases finish with
    | false => exact follows_pure ()
    | true => exact Frame.follows_finish List.mem_cons_self hwithin
  | .attempt step, frames =>
    ⟨fun p hp => run_attempt ((ReaderStep.follows_read hsize step frames).outcome p hp),
      ReaderStep.advances_read step⟩

theorem ReaderStep.follows_readBody (hsize : input.bytes.length ≤ maxIndex) :
    ∀ (body : List ReaderStep) (frames : List Frame),
      Follows input frames (ReaderStep.guardedBody body) (ReaderStep.readBody body)
  | [], _ => follows_pure ()
  | step :: rest, frames => by
    rw [ReaderStep.readBody_cons]
    exact (ReaderStep.follows_read hsize step frames).bind fun _ =>
      ReaderStep.follows_readBody hsize rest frames

theorem FrameStep.follows_read (hsize : input.bytes.length ≤ maxIndex) :
    ∀ (step : FrameStep) (f : Frame) (frames : List Frame), f ∈ frames →
      Follows input frames (step.guarded f) (step.read f)
  | .length, f, frames, hf => by
    have hlength : Follows input frames f.guardedLength (pure f.length) :=
      ⟨fun _ hp => Frame.run_guardedLength (hp.2 f hf).2, Decoder.advances_pure _⟩
    exact hlength.operation.plain_ok
  | .isEmpty, _, _, _ => (follows_pure ()).operation.plain_ok
  | .exhausted, _, _, _ => (follows_pure ()).operation.plain_ok
  | .field s, _, frames, hf => (Frame.follows_field hf (s.follows_decode hsize frames)).plain
  | .fieldOrDefault s, _, frames, hf =>
    (Frame.follows_fieldOrDefault hf s.default (s.follows_decode hsize frames)).plain
  | .nextIndex, _, _, hf => (Frame.follows_nextIndex hf hsize).plain
  | .fieldBy body, f, frames, hf => by
    refine ⟨fun p hp => ?_, FrameStep.advances_read (.fieldBy body) f⟩
    change _ = some ((FrameStep.fieldBy body).run f input p).ending
    rw [FrameStep.run_fieldBy_ending]
    have hfield := Frame.follows_field hf (ReaderStep.follows_readBody hsize body frames)
    exact run_ignore (hfield.outcome p hp)
  | .reader step, f, frames, _ => by
    refine ⟨fun p hp => ?_, FrameStep.advances_read (.reader step) f⟩
    refine ((ReaderStep.follows_read hsize step frames).outcome p hp).trans (congrArg some ?_)
    simp [FrameStep.read, FrameStep.run, ReaderStep.read, Run.nested]
  | .walk table checked, f, frames, hf => by
    refine ⟨fun p hp => ?_, FrameStep.advances_read (.walk table checked) f⟩
    have hwalk := Frame.follows_fields hf hsize (follows_guardedTable hsize hf table checked)
    refine (run_ignore (hwalk.outcome p hp)).trans (congrArg some ?_)
    simp only [FrameStep.read, FrameStep.run, walkRun, Frame.indexedFields, Step.forget,
      Step.andThen_assoc, Step.andThen_ok]
    exact Step.forget_unit _
  | .attempt step, f, frames, hf =>
    ⟨fun p hp => run_attempt ((FrameStep.follows_read hsize step f frames hf).outcome p hp),
      FrameStep.advances_read step f⟩

theorem FrameStep.follows_readBody (hsize : input.bytes.length ≤ maxIndex) :
    ∀ (body : List FrameStep) (f : Frame) (frames : List Frame), f ∈ frames →
      Follows input frames (FrameStep.guardedBody body f) (FrameStep.readBody body f)
  | [], _, _, _ => follows_pure ()
  | step :: rest, f, frames, hf => by
    rw [FrameStep.readBody_cons]
    exact (FrameStep.follows_read hsize step f frames hf).bind fun _ =>
      FrameStep.follows_readBody hsize rest f frames hf

end

namespace ReaderStep

theorem run_guardedEach (hsize : input.bytes.length ≤ maxIndex) (program : List ReaderStep)
    (hp : Sound input frames p) :
    (guardedEach program).run input frames p = some (runEach program input p).ending := by
  induction program generalizing p with
  | nil => rfl
  | cons step rest ih =>
    have hstep := step.follows_read hsize frames
    have hq : Sound input frames (step.read.run input p).position :=
      hp.onward (hstep.advances p hp.1)
    rw [guardedEach, run_bind, run_attempt (hstep.outcome p hp)]
    dsimp only [Option.bind_some]
    rw [ih hq]
    rfl

theorem onward_runEach (program : List ReaderStep) (hp : p ≤ input.bytes.length) :
    (runEach program input p).ending.Onward input p := by
  induction program generalizing p with
  | nil => exact Step.onward_of_stays hp rfl
  | cons step rest ih => exact Run.onward_andThen (step.advances_read p hp) fun q hq => ih hq

theorem runEach_append_position (first second : List ReaderStep) :
    (runEach (first ++ second) input p).ending.position =
      (runEach second input (runEach first input p).ending.position).ending.position := by
  induction first generalizing p with
  | nil => rfl
  | cons step rest ih => exact ih

end ReaderStep

/-- No run is at fault. With every index checked it has the outcome that it has without; the reader
is never led back, nor out of the input; and after every step that the run reports, however deep, the
reader stands within the input, and the frame that the step belongs to lies within the input and
begins where the reader stands or before. -/
theorem run_safe (input : Input) (hsize : input.bytes.length ≤ maxIndex) :
    (∀ program, (ReaderStep.guardedEach program).run input [] 0 =
      some (ReaderStep.runEach program input 0).ending) ∧
    (∀ first second,
      (ReaderStep.runEach first input 0).ending.position ≤
        (ReaderStep.runEach (first ++ second) input 0).ending.position ∧
      (ReaderStep.runEach (first ++ second) input 0).ending.position ≤ input.bytes.length) ∧
    ∀ program, ∀ report ∈ (ReaderStep.runEach program input 0).reports, report.InRange input := by
  have hstart : 0 ≤ input.bytes.length := Nat.zero_le _
  refine ⟨fun program => ?_, fun first second => ?_, fun program => ?_⟩
  · exact ReaderStep.run_guardedEach hsize program ⟨hstart, nofun⟩
  · rw [ReaderStep.runEach_append_position]
    exact ReaderStep.onward_runEach second (ReaderStep.onward_runEach first hstart).2
  · exact ReaderStep.inRange_runEach program hstart

/-- A message of six bytes, whose text counts more bytes than there can be. The run fails at the
text, at the longest skip and at a nested message, and goes on after each. Another opens the frame in
a copy, skips past its end and abandons it. -/
theorem run_safe_forged :
    (ReaderStep.guardedEach
        [.openFrame [.field .text] true, .skip maxIndex, .message [], .skip 6]).run
        ⟨[6, 0, 0, 0, 255, 255, 255, 255, 1, 2, 9], .unbounded⟩ [] 0 =
      some (ReaderStep.runEach
        [.openFrame [.field .text] true, .skip maxIndex, .message [], .skip 6]
        ⟨[6, 0, 0, 0, 255, 255, 255, 255, 1, 2, 9], .unbounded⟩ 0).ending ∧
      4 ≤ (ReaderStep.runEach [.openFrame [.field .text] true, .skip maxIndex, .message [], .skip 6]
        ⟨[6, 0, 0, 0, 255, 255, 255, 255, 1, 2, 9], .unbounded⟩ 0).ending.position ∧
      (ReaderStep.runEach [.openFrame [.field .text] true, .skip maxIndex, .message [], .skip 6]
        ⟨[6, 0, 0, 0, 255, 255, 255, 255, 1, 2, 9], .unbounded⟩ 0).ending.position ≤ 11 ∧
      (ReaderStep.runEach [.fork [.openFrame [.reader (.skip 7), .exhausted] false]]
        ⟨[6, 0, 0, 0, 255, 255, 255, 255, 1, 2, 9], .unbounded⟩ 0).reports =
        [.nested (.ok (.number 11)) (.reader 0 11)
          [.nested (.ok .done) (.reader 11 0)
            [.nested (.ok .done) (.frame ⟨4, 10⟩ 11) [.plain (.ok .done) (.reader 11 0)],
              .plain (.ok (.flag true)) (.frame ⟨4, 10⟩ 11)]]] ∧
      ∀ report ∈ (ReaderStep.runEach [.fork [.openFrame [.reader (.skip 7), .exhausted] false]]
        ⟨[6, 0, 0, 0, 255, 255, 255, 255, 1, 2, 9], .unbounded⟩ 0).reports,
        report.InRange ⟨[6, 0, 0, 0, 255, 255, 255, 255, 1, 2, 9], .unbounded⟩ := by
  obtain ⟨hguarded, honward, hreports⟩ :=
    run_safe ⟨[6, 0, 0, 0, 255, 255, 255, 255, 1, 2, 9], .unbounded⟩ (by decide)
  obtain ⟨hforward, hend⟩ :=
    honward [.openFrame [.field .text] true, .skip maxIndex] [.message [], .skip 6]
  exact ⟨hguarded _, hforward, hend, rfl, hreports _⟩

end WireFormat
