import WireFormat.Frame
import WireFormat.Schema.Basic

/-! Reading a value of each schema. -/
namespace WireFormat.Schema

/-- As many items as were counted. Bytes are taken in one piece, all others one by one. -/
def items : (item : Schema) → Decoder item.Val → Nat → Decoder (List item.Val)
  | scalar .byte, _, count => Decoder.slice count
  | _, d, count => d.times count

def entry {α β : Type} (key : Decoder α) (value : Decoder β) : Decoder (α × β) := do
  let k ← key
  let v ← value
  return (k, v)

/-- Stores what was read, in the order in which it was read. -/
def store (fields : List Schema) (updates : List (Options fields → Options fields)) :
    Options fields :=
  updates.foldl (fun stored update => update stored) (noOptions fields)

mutual

def decode : (s : Schema) → Decoder s.Val
  | scalar s => s.decode
  | text => Decoder.text
  | bytes => Decoder.byteArray
  | array item => do items item (decode item) (← Decoder.arrayLength)
  | map .sorted key value => do
      let count ← Decoder.arrayLength
      return .ofList (← (entry (decode key) (decode value)).times count)
  | map .hashed key value => do
      let count ← Decoder.arrayLength
      return .ofList (← (entry (decode key) (decode value)).times count)
  | record first rest => entry (decode first) (decodeAll rest)
  | message fields => do return orDefaults fields (← Decoder.message (decodeFields fields))
  | indexed fields => do
      return store fields (← Decoder.message fun f =>
        f.indexedFields fun index => (decodeIndexed fields (index.toNat - 1)).map (· f))

/-- All values, one after another. -/
def decodeAll : (fields : List Schema) → Decoder (Vals fields)
  | [] => pure ()
  | s :: rest => entry (decode s) (decodeAll rest)

/-- The fields of a frame in order, as far as there are bytes for them. -/
def decodeFields : (fields : List Schema) → Frame → Decoder (Options fields)
  | [], _ => pure ()
  | s :: rest, f => entry (f.field (decode s)) (decodeFields rest f)

/-- The field at a position of the list; reading it yields the change to the stored fields. -/
def decodeIndexed : (fields : List Schema) → Nat →
    Option (Frame → Decoder (Options fields → Options fields))
  | [], _ => none
  | s :: _, 0 => some fun f => do
      let o ← f.field (decode s)
      return fun stored => (o, stored.2)
  | _ :: rest, n + 1 => (decodeIndexed rest n).map fun read f => do
      let update ← read f
      return fun stored => (stored.1, update stored.2)

end

/-- The fields of a frame in order, the default for each that there are no bytes for. -/
def decodeOrDefaults : (fields : List Schema) → Frame → Decoder (Vals fields)
  | [], _ => pure ()
  | s :: rest, f => entry (f.fieldOrDefault s.default (decode s)) (decodeOrDefaults rest f)

end WireFormat.Schema
