import WireFormat.Schema.Basic
import WireFormat.Writer.Basic

/-! Writing a value of each schema: by a writer that fills in message lengths afterwards, and
as the bytes themselves with every length in front from the start. -/
namespace WireFormat.Schema

mutual

/-- Writes a value at the end of a buffer. -/
def put : (s : Schema) → s.Val → Writer → Writer
  | scalar s, v, w => w.append (s.bytes v)
  | text, v, w => w.counted v.toUTF8.data.toList
  | bytes, v, w => w.counted v
  | array item, v, w =>
      v.foldl (fun w x => put item x w) (w.count v.length)
  | map .sorted key value, v, w =>
      v.entries.foldl (fun w e => put value e.2 (put key e.1 w)) (w.count v.entries.length)
  | map .hashed key value, v, w =>
      v.entries.foldl (fun w e => put value e.2 (put key e.1 w)) (w.count v.entries.length)
  | record first rest, (x, xs), w => putAll rest xs (put first x w)
  | message fields, xs, w => w.message (putAll fields xs)
  | indexed fields, os, w => w.message fun w => (putIndexed fields 1 os w).endFields

def putAll : (fields : List Schema) → Vals fields → Writer → Writer
  | [], _, w => w
  | s :: rest, (x, xs), w => putAll rest xs (put s x w)

/-- Writes the fields that are there, each behind its index. -/
def putIndexed : (fields : List Schema) → Nat → Options fields → Writer → Writer
  | [], _, _, w => w
  | s :: rest, index, (o, os), w =>
      putIndexed rest (index + 1) os <| match o with
        | some x => put s x (w.fieldIndex (UInt8.ofNat index))
        | none => w

end

/-- Writes a value behind the bytes of a buffer. -/
def encode (s : Schema) (v : s.Val) (out : List UInt8) : List UInt8 := (s.put v ⟨out⟩).bytes

/-- Bytes behind their number. -/
def framed (body : List UInt8) : List UInt8 := Writer.lengthBytes body.length ++ body

mutual

/-- The wire form of a value. -/
def form : (s : Schema) → s.Val → List UInt8
  | scalar s, v => s.bytes v
  | text, v => framed v.toUTF8.data.toList
  | bytes, v => framed v
  | array item, v =>
      Writer.lengthBytes v.length ++ v.flatMap (form item)
  | map .sorted key value, v =>
      Writer.lengthBytes v.entries.length ++ v.entries.flatMap fun e => form key e.1 ++ form value e.2
  | map .hashed key value, v =>
      Writer.lengthBytes v.entries.length ++ v.entries.flatMap fun e => form key e.1 ++ form value e.2
  | record first rest, (x, xs) => form first x ++ formAll rest xs
  | message fields, xs => framed (formAll fields xs)
  | indexed fields, os => framed (formIndexed fields 1 os ++ [0])

def formAll : (fields : List Schema) → Vals fields → List UInt8
  | [], _ => []
  | s :: rest, (x, xs) => form s x ++ formAll rest xs

def formIndexed : (fields : List Schema) → Nat → Options fields → List UInt8
  | [], _, _ => []
  | s :: rest, index, (o, os) =>
      (match o with
        | some x => UInt8.ofNat index :: form s x
        | none => []) ++ formIndexed rest (index + 1) os

end

end WireFormat.Schema
