import WireFormat.Frame
import WireFormat.Schema.Basic

/-! Programs for a reader and its frames, as data, and what running one reports. -/
namespace WireFormat

mutual

inductive ReaderStep
  | decode (s : Schema)
  | arrayLength
  | messageLength
  | skip (count : Nat)
  | peek
  | atEnd
  | remainingBytes
  | limits
  | fail (e : DecodeError)
  /-- Runs a program from here and comes back. -/
  | fork (body : List ReaderStep)
  /-- Runs a program on the next message. -/
  | message (body : List FrameStep)
  /-- Opens the frame of the next message, runs a program on it, and leaves the frame if told
  to finish. -/
  | openFrame (body : List FrameStep) (finish : Bool)
  /-- Goes on after an error. -/
  | attempt (step : ReaderStep)

inductive FrameStep
  | length
  | isEmpty
  | exhausted
  | field (s : Schema)
  | fieldOrDefault (s : Schema)
  | nextIndex
  | fieldBy (body : List ReaderStep)
  /-- A step on the reader under the frame. -/
  | reader (step : ReaderStep)
  /-- Reads indexed fields until one is not in the table; each as a field of the frame, or
  with `checked` off straight from the reader. -/
  | walk (table : List (UInt8 × Schema)) (checked : Bool)
  | attempt (step : FrameStep)

end

/-- An indexed field that was read, or that was absent behind its index. -/
structure IndexedField where
  index : UInt8
  schema : Schema
  value : Option schema.Val

inductive Answer
  | done
  | flag (b : Bool)
  | number (n : Nat)
  | byte (b : Option UInt8)
  | bytes (bs : List UInt8)
  | limits (l : ReadLimits)
  | value (s : Schema) (v : s.Val)
  | field (s : Schema) (v : Option s.Val)

/-- Where a step left the reader, alone or under a frame. -/
inductive Place
  | reader (position remaining : Nat)
  | frame (f : Frame) (position : Nat)
  deriving DecidableEq, Repr

inductive Report
  | plain (result : Except DecodeError Answer) (place : Place)
  /-- A step with a program inside, and the reports of what ran of it. -/
  | nested (result : Except DecodeError Answer) (place : Place) (steps : List Report)
  | walk (result : Except DecodeError Answer) (place : Place) (fields : List IndexedField)

end WireFormat
