import WireFormat.Map.Arrival
import WireFormat.Map.Sorted
import WireFormat.Schema.Scalar

/-! The types of the wire format, and the values of each. -/
namespace WireFormat

/-- How a map holds its entries: by ascending key, or without an order of its own. -/
inductive MapKind
  | sorted
  | hashed
  deriving DecidableEq, Repr

inductive Schema
  | scalar (s : Scalar)
  /-- Counted UTF-8 text. -/
  | text
  /-- Counted bytes, taken whole. -/
  | bytes
  | array (item : Schema)
  | map (kind : MapKind) (key value : Schema)
  /-- Fields one after another, without a frame. There is at least one. -/
  | record (first : Schema) (rest : List Schema)
  /-- A frame of fields in order. Fields that an older writer left off get their default. -/
  | message (fields : List Schema)
  /-- A frame of indexed fields, counted from one, each of which may be missing. -/
  | indexed (fields : List Schema)

/-- The values of map type, in lexicographic order of their entries. -/
@[reducible] def SortedMap.ordered (k v : OrderedType) : OrderedType :=
  .embed (SortedMap k.Carrier v.Carrier) (k.prod v).list SortedMap.entries fun {x y} h => by
    cases x; cases y; cases h; rfl

/-- The values of map type, in lexicographic order of their entries. -/
@[reducible] def ArrivalMap.ordered (k v : OrderedType) : OrderedType :=
  .embed (ArrivalMap k.Carrier v.Carrier) (k.prod v).list ArrivalMap.entries fun {x y} h => by
    cases x; cases y; cases h; rfl

namespace Schema

/-- Induction in which the fields of a compound schema are there as members of its list. -/
theorem induct {P : Schema → Prop} (scalar : ∀ s, P (scalar s)) (text : P text)
    (bytes : P bytes) (array : ∀ item, P item → P (array item))
    (map : ∀ kind key value, P key → P value → P (map kind key value))
    (record : ∀ first rest, P first → (∀ s ∈ rest, P s) → P (record first rest))
    (message : ∀ fields, (∀ s ∈ fields, P s) → P (message fields))
    (indexed : ∀ fields, (∀ s ∈ fields, P s) → P (indexed fields)) (s : Schema) : P s :=
  Schema.rec (motive_2 := fun fields => ∀ s ∈ fields, P s) scalar text bytes array map record
    message indexed (fun _ h => nomatch h)
    (fun _ _ hs hrest _ h => by
      rcases List.mem_cons.1 h with rfl | h
      · exact hs
      · exact hrest _ h) s

mutual

/-- The values of a schema and their order. -/
@[reducible] def ordered : Schema → OrderedType
  | scalar s => s.ordered
  | text => .of String
  | bytes => .of (List UInt8)
  | array item => (ordered item).list
  | map .sorted key value => SortedMap.ordered (ordered key) (ordered value)
  | map .hashed key value => ArrivalMap.ordered (ordered key) (ordered value)
  | record first rest => (ordered first).prod (orderedAll rest)
  | message fields => orderedAll fields
  | indexed fields => orderedOptions fields

/-- One value for each schema. -/
@[reducible] def orderedAll : List Schema → OrderedType
  | [] => .unit
  | s :: rest => (ordered s).prod (orderedAll rest)

/-- One value or nothing for each schema. -/
@[reducible] def orderedOptions : List Schema → OrderedType
  | [] => .unit
  | s :: rest => (ordered s).option.prod (orderedOptions rest)

end

abbrev Val (s : Schema) : Type := s.ordered.Carrier

/-- One value for each field. -/
abbrev Vals (fields : List Schema) : Type := (orderedAll fields).Carrier

/-- One value or nothing for each field. -/
abbrev Options (fields : List Schema) : Type := (orderedOptions fields).Carrier

/-- Only the scalars have a primitive type of fixed width. -/
def wireType? : Schema → Option WireType
  | scalar s => some s.wireType
  | _ => none

/-- No field present. -/
def noOptions : (fields : List Schema) → Options fields
  | [] => ()
  | _ :: rest => (none, noOptions rest)

mutual

/-- Zero, empty, or nothing, down to the last field. -/
def default : (s : Schema) → s.Val
  | scalar s => s.default
  | text => ""
  | bytes => []
  | array _ => []
  | map .sorted _ _ => SortedMap.empty
  | map .hashed _ _ => ArrivalMap.empty
  | record first rest => (default first, defaults rest)
  | message fields => defaults fields
  | indexed fields => noOptions fields

def defaults : (fields : List Schema) → Vals fields
  | [] => ()
  | s :: rest => (default s, defaults rest)

end

/-- The values of fields, the default where one is missing. -/
def orDefaults : (fields : List Schema) → Options fields → Vals fields
  | [], _ => ()
  | s :: rest, (o, os) => (o.getD s.default, orDefaults rest os)

mutual

/-- Equality of what values stand for: floats compare as numbers, and maps without an order
as what they look up. -/
def numEq : (s : Schema) → s.Val → s.Val → Bool
  | scalar s, x, y => s.numEq x y
  | text, x, y => x == y
  | bytes, x, y => x == y
  | array item, x, y => x.isEqv y (numEq item)
  | map .sorted key value, x, y =>
      x.entries.isEqv y.entries fun a b => numEq key a.1 b.1 && numEq value a.2 b.2
  | map .hashed _ value, x, y =>
      x.entries.length == y.entries.length && x.entries.all fun a =>
        (y.get? a.1).any fun v => numEq value a.2 v
  | record first rest, (x, xs), (y, ys) => numEq first x y && numEqAll rest xs ys
  | message fields, xs, ys => numEqAll fields xs ys
  | indexed fields, xs, ys => numEqOptions fields xs ys

def numEqAll : (fields : List Schema) → Vals fields → Vals fields → Bool
  | [], _, _ => true
  | s :: rest, (x, xs), (y, ys) => numEq s x y && numEqAll rest xs ys

def numEqOptions : (fields : List Schema) → Options fields → Options fields → Bool
  | [], _, _ => true
  | s :: rest, (x, xs), (y, ys) =>
      (match x, y with
        | some a, some b => numEq s a b
        | none, none => true
        | _, _ => false) && numEqOptions rest xs ys

end

end Schema
end WireFormat
