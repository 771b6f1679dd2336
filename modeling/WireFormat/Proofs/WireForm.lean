import WireFormat.Schema.Encode
import WireFormat.Schema.Basic

/-! What a writer leaves in its buffer: the buffer as it was, and behind it the wire form of the
value. Message lengths that are filled in afterwards come out as if they had been known. -/
namespace WireFormat

namespace Writer

/-- The write puts these bytes at the end, whatever the buffer holds. -/
def Appends (write : Writer → Writer) (bytes : List UInt8) : Prop :=
  ∀ w, write w = w.append bytes

theorem append_append (w : Writer) (bytes more : List UInt8) :
    (w.append bytes).append more = w.append (bytes ++ more) := by
  simp [append]

theorem appends_id : Appends (fun w => w) [] := fun w => by simp [append]

theorem Appends.andThen {write next : Writer → Writer} {bytes more : List UInt8}
    (h : Appends write bytes) (hnext : Appends next more) :
    Appends (fun w => next (write w)) (bytes ++ more) := by
  intro w
  show next (write w) = _
  rw [h, hnext, append_append]

theorem appends_counted (bytes : List UInt8) :
    Appends (fun w => w.counted bytes) (Schema.framed bytes) := by
  intro w
  show (w.count bytes.length).append bytes = _
  rw [count, append_append, Schema.framed]

theorem appends_foldl {α : Type} {write : α → Writer → Writer} {form : α → List UInt8}
    (xs : List α) (h : ∀ x ∈ xs, Appends (write x) (form x)) :
    Appends (fun w => xs.foldl (fun w x => write x w) w) (xs.flatMap form) := by
  induction xs with
  | nil => exact appends_id
  | cons x xs ih =>
    have hrest := ih fun y hy => h y (List.mem_cons_of_mem x hy)
    exact (h x List.mem_cons_self).andThen hrest

@[simp] theorem length_lengthBytes (n : Nat) : (lengthBytes n).length = 4 := by
  simp [lengthBytes]

/-- The length that is filled in is the number of bytes of the body alone: nothing in front of
the placeholder moves, and nothing of the body is overwritten. -/
theorem Appends.message {body : Writer → Writer} {bytes : List UInt8} (h : Appends body bytes) :
    Appends (fun w => w.message body) (Schema.framed bytes) := by
  intro w
  have hopen : body (w.append (lengthBytes 0)) =
      ⟨w.bytes ++ (lengthBytes 0 ++ bytes)⟩ := by
    rw [h, append_append, append]
  have hlen : (w.bytes ++ (lengthBytes 0 ++ bytes)).length - w.bytes.length - 4 =
      bytes.length := by
    simp only [List.length_append, length_lengthBytes]
    omega
  have hbody : (w.bytes ++ (lengthBytes 0 ++ bytes)).drop (w.bytes.length + 4) = bytes := by
    rw [← List.drop_drop, List.drop_left]
    exact List.drop_left' (length_lengthBytes 0)
  show (body (w.append (lengthBytes 0))).patch ⟨w.bytes.length⟩ = _
  rw [hopen]
  simp only [patch, size, hlen, hbody, List.take_left, append, Schema.framed, List.append_assoc]

end Writer

namespace Schema

section Fields

variable {fields : List Schema}

theorem appends_putAll (h : ∀ s ∈ fields, ∀ v, Writer.Appends (s.put v) (s.form v))
    (xs : Vals fields) : Writer.Appends (putAll fields xs) (formAll fields xs) := by
  induction fields with
  | nil => exact Writer.appends_id
  | cons s rest ih =>
    obtain ⟨x, xs⟩ := xs
    have hrest := ih (fun t ht => h t (List.mem_cons_of_mem s ht)) xs
    exact (h s List.mem_cons_self x).andThen hrest

theorem appends_putIndexed (h : ∀ s ∈ fields, ∀ v, Writer.Appends (s.put v) (s.form v))
    (index : Nat) (os : Options fields) :
    Writer.Appends (putIndexed fields index os) (formIndexed fields index os) := by
  induction fields generalizing index with
  | nil => exact Writer.appends_id
  | cons s rest ih =>
    obtain ⟨o, os⟩ := os
    have hrest := ih (fun t ht => h t (List.mem_cons_of_mem s ht)) (index + 1) os
    cases o with
    | none => exact hrest
    | some x =>
      have hindex : Writer.Appends (fun w => w.fieldIndex (UInt8.ofNat index))
          [UInt8.ofNat index] := fun w => rfl
      exact (hindex.andThen (h s List.mem_cons_self x)).andThen hrest

end Fields

/-- Writing a value appends its wire form. -/
theorem appends_put (s : Schema) : ∀ v, Writer.Appends (s.put v) (s.form v) := by
  induction s using Schema.induct with
  | scalar s => exact fun v w => rfl
  | text => exact fun v => Writer.appends_counted v.toUTF8.data.toList
  | bytes => exact Writer.appends_counted
  | array item ih =>
    intro v
    have hcount : Writer.Appends (fun w => w.count v.length) (Writer.lengthBytes v.length) :=
      fun w => rfl
    exact hcount.andThen (Writer.appends_foldl v fun x _ => ih x)
  | map kind key value ihkey ihvalue =>
    have hmap (entries : List (key.Val × value.Val)) :
        Writer.Appends
          (fun w =>
            entries.foldl (fun w e => put value e.2 (put key e.1 w)) (w.count entries.length))
          (Writer.lengthBytes entries.length ++
            entries.flatMap fun e => form key e.1 ++ form value e.2) := by
      have hcount : Writer.Appends (fun w => w.count entries.length)
          (Writer.lengthBytes entries.length) := fun w => rfl
      exact hcount.andThen
        (Writer.appends_foldl entries fun e _ => (ihkey e.1).andThen (ihvalue e.2))
    cases kind with
    | sorted => exact fun v => hmap v.entries
    | hashed => exact fun v => hmap v.entries
  | record first rest ihfirst ihrest =>
    intro h
    obtain ⟨x, xs⟩ := h
    exact (ihfirst x).andThen (appends_putAll ihrest xs)
  | message fields ih => exact fun xs => (appends_putAll ih xs).message
  | indexed fields ih =>
    intro os
    have hend : Writer.Appends Writer.endFields [0] := fun w => rfl
    exact ((appends_putIndexed ih 1 os).andThen hend).message

theorem encode_eq (s : Schema) (v : s.Val) (out : List UInt8) :
    s.encode v out = out ++ s.form v := by
  rw [encode, appends_put, Writer.append]

/-- A number that four bytes hold. -/
def FitsWord (n : Nat) : Prop := n < 0x100000000

instance (n : Nat) : Decidable (FitsWord n) := inferInstanceAs (Decidable (n < 0x100000000))

mutual

/-- Every count and every body length of the value fits four bytes, every index one byte. -/
def Fits : (s : Schema) → s.Val → Prop
  | scalar _, _ => True
  | text, v => FitsWord v.toUTF8.data.toList.length
  | bytes, v => FitsWord v.length
  | array item, v => FitsWord v.length ∧ ∀ x ∈ v, Fits item x
  | map .sorted key value, v =>
      FitsWord v.entries.length ∧ ∀ e ∈ v.entries, Fits key e.1 ∧ Fits value e.2
  | map .hashed key value, v =>
      FitsWord v.entries.length ∧ ∀ e ∈ v.entries, Fits key e.1 ∧ Fits value e.2
  | record first rest, (x, xs) => Fits first x ∧ FitsAll rest xs
  | message fields, xs => FitsAll fields xs ∧ FitsWord (formAll fields xs).length
  | indexed fields, os =>
      FitsOptions fields os ∧ FitsWord (formIndexed fields 1 os ++ [0]).length ∧
        fields.length < 256

def FitsAll : (fields : List Schema) → Vals fields → Prop
  | [], _ => True
  | s :: rest, (x, xs) => Fits s x ∧ FitsAll rest xs

def FitsOptions : (fields : List Schema) → Options fields → Prop
  | [], _ => True
  | s :: rest, (o, os) => (∀ x ∈ o, Fits s x) ∧ FitsOptions rest os

end

mutual

def decidableFits : (s : Schema) → (v : s.Val) → Decidable (Fits s v)
  | scalar _, _ => inferInstanceAs (Decidable True)
  | text, v => inferInstanceAs (Decidable (FitsWord v.toUTF8.data.toList.length))
  | bytes, v => inferInstanceAs (Decidable (FitsWord v.length))
  | array item, v =>
      have := decidableFits item
      inferInstanceAs (Decidable (FitsWord v.length ∧ ∀ x ∈ v, Fits item x))
  | map .sorted key value, v =>
      have := decidableFits key
      have := decidableFits value
      inferInstanceAs (Decidable
        (FitsWord v.entries.length ∧ ∀ e ∈ v.entries, Fits key e.1 ∧ Fits value e.2))
  | map .hashed key value, v =>
      have := decidableFits key
      have := decidableFits value
      inferInstanceAs (Decidable
        (FitsWord v.entries.length ∧ ∀ e ∈ v.entries, Fits key e.1 ∧ Fits value e.2))
  | record first rest, (x, xs) =>
      have := decidableFits first x
      have := decidableFitsAll rest xs
      inferInstanceAs (Decidable (Fits first x ∧ FitsAll rest xs))
  | message fields, xs =>
      have := decidableFitsAll fields xs
      inferInstanceAs (Decidable (FitsAll fields xs ∧ FitsWord (formAll fields xs).length))
  | indexed fields, os =>
      have := decidableFitsOptions fields os
      inferInstanceAs (Decidable (FitsOptions fields os ∧
        FitsWord (formIndexed fields 1 os ++ [0]).length ∧ fields.length < 256))

def decidableFitsAll : (fields : List Schema) → (xs : Vals fields) → Decidable (FitsAll fields xs)
  | [], _ => inferInstanceAs (Decidable True)
  | s :: rest, (x, xs) =>
      have := decidableFits s x
      have := decidableFitsAll rest xs
      inferInstanceAs (Decidable (Fits s x ∧ FitsAll rest xs))

def decidableFitsOptions :
    (fields : List Schema) → (os : Options fields) → Decidable (FitsOptions fields os)
  | [], _ => inferInstanceAs (Decidable True)
  | s :: rest, (o, os) =>
      have := decidableFits s
      have := decidableFitsOptions rest os
      inferInstanceAs (Decidable ((∀ x ∈ o, Fits s x) ∧ FitsOptions rest os))

end

instance (s : Schema) (v : s.Val) : Decidable (Fits s v) := decidableFits s v

end Schema
end WireFormat
