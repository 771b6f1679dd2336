import WireFormat.Proofs.IndexedWalk
import WireFormat.Schema.Decode

/-! Properties of reads that carry over from parts to wholes. The read of a value of any schema is
put together from a few basic reads in a few ways, so that it has every property which these reads
have and these ways keep. -/
namespace WireFormat

variable {α β : Type}

/-- A property `P` of reads, and a property `Q` of reads inside a frame, that the basic reads have
and all ways to put reads together keep. Texts are left out. -/
structure Compositional (P : ∀ {α : Type}, Decoder α → Prop)
    (Q : ∀ {α : Type}, (Frame → Decoder α) → Prop) : Prop where
  pure {α : Type} (a : α) : P (Pure.pure a : Decoder α)
  bind {α β : Type} {d : Decoder α} {next : α → Decoder β} (hd : P d) (hnext : ∀ a, P (next a)) :
    P (d >>= next)
  slice (count : Nat) : P (Decoder.slice count)
  block (count : Nat) : P (Decoder.block count)
  arrayLength : P Decoder.arrayLength
  byteArray : P Decoder.byteArray
  message {α : Type} {body : Frame → Decoder α} (hbody : Q body) : P (Decoder.message body)
  pureWithin {α : Type} (a : α) : Q fun _ => (Pure.pure a : Decoder α)
  bindWithin {α β : Type} {read : Frame → Decoder α} {next : α → Frame → Decoder β}
    (hread : Q read) (hnext : ∀ a, Q (next a)) : Q fun f => read f >>= fun a => next a f
  field {α : Type} {d : Decoder α} (hd : P d) : Q fun f => f.field d
  indexedFields {α : Type} {known : UInt8 → Option (Frame → Decoder α)}
    (hrounds : ∀ fuel, Q (Frame.rounds known fuel)) :
    Q fun f => f.indexedFields fun i => (known i).map (· f)

namespace Schema

mutual

/-- A text stands somewhere in the schema. -/
def hasText : Schema → Bool
  | scalar _ => false
  | text => true
  | bytes => false
  | array item => hasText item
  | map _ key value => hasText key || hasText value
  | record first rest => hasText first || anyText rest
  | message fields => anyText fields
  | indexed fields => anyText fields

def anyText : List Schema → Bool
  | [] => false
  | s :: rest => hasText s || anyText rest

end

theorem anyText_of_mem {fields : List Schema} {s : Schema} (hs : s ∈ fields) (h : s.hasText) :
    anyText fields := by
  induction hs with
  | head rest => rw [anyText, h, Bool.true_or]
  | tail t _ ih => rw [anyText, ih, Bool.or_true]

end Schema

namespace Compositional

variable {P : ∀ {α : Type}, Decoder α → Prop} {Q : ∀ {α : Type}, (Frame → Decoder α) → Prop}

section Reads

variable {d : Decoder α} {read : Frame → Decoder α}

theorem map (h : Compositional P Q) (hd : P d) (g : α → β) : P (do return g (← d) : Decoder β) :=
  h.bind hd fun a => h.pure (g a)

theorem mapWithin (h : Compositional P Q) (hread : Q read) (g : α → β) :
    Q fun f => (do return g (← read f) : Decoder β) :=
  h.bindWithin hread fun a => h.pureWithin (g a)

theorem times (h : Compositional P Q) (hd : P d) (n : Nat) : P (d.times n) := by
  induction n with
  | zero => exact h.pure []
  | succ n ih => exact h.bind hd fun a => h.map ih _

theorem nextIndex (h : Compositional P Q) : Q Frame.nextIndex := by
  simp only [funext Frame.nextIndex_eq]
  exact h.mapWithin (h.field (h.map (h.block 1) _)) _

theorem rounds (h : Compositional P Q) {known : UInt8 → Option (Frame → Decoder α)}
    (hknown : ∀ i read, known i = some read → Q read) (fuel : Nat) :
    Q (Frame.rounds known fuel) := by
  induction fuel with
  | zero => exact h.pureWithin []
  | succ fuel ih =>
    refine h.bindWithin h.nextIndex fun index => ?_
    cases hread : index.bind known with
    | none => exact h.pureWithin []
    | some read =>
      obtain ⟨i, -, hi⟩ := Option.bind_eq_some_iff.1 hread
      exact h.bindWithin (hknown i read hi) fun a => h.mapWithin ih _

end Reads

theorem scalar (h : Compositional P Q) (s : Scalar) : P s.decode := by
  have hblock {α : Type} (count : Nat) (g : Vector UInt8 count → α) :
      P (do return g (← Decoder.block count) : Decoder α) := h.map (h.block count) g
  cases s with
  | byte => exact hblock 1 _
  | uint16 => exact hblock 2 _
  | uint32 => exact hblock 4 _
  | uint64 => exact hblock 8 _
  | bool => exact h.map (hblock 1 _) _
  | int16 => exact h.map (hblock 2 _) _
  | int32 | float32 => exact h.map (hblock 4 _) _
  | int64 | float64 | date => exact h.map (hblock 8 _) _
  | guid => exact hblock 16 _

theorem entry (h : Compositional P Q) {key : Decoder α} {value : Decoder β} (hkey : P key)
    (hvalue : P value) : P (Schema.entry key value) :=
  h.bind hkey fun _ => h.map hvalue _

theorem items (h : Compositional P Q) {item : Schema} {d : Decoder item.Val} (hd : P d)
    (count : Nat) : P (Schema.items item d count) := by
  unfold Schema.items
  split
  · exact h.slice count
  · exact h.times hd count

section Fields

variable {fields : List Schema}

theorem decodeAll (h : Compositional P Q) (hfields : ∀ s ∈ fields, P s.decode) :
    P (Schema.decodeAll fields) := by
  induction fields with
  | nil => exact h.pure ()
  | cons s rest ih =>
    exact h.entry (hfields s List.mem_cons_self)
      (ih fun t ht => hfields t (List.mem_cons_of_mem s ht))

theorem decodeFields (h : Compositional P Q) (hfields : ∀ s ∈ fields, P s.decode) :
    Q (Schema.decodeFields fields) := by
  induction fields with
  | nil => exact h.pureWithin ()
  | cons s rest ih =>
    have hrest := ih fun t ht => hfields t (List.mem_cons_of_mem s ht)
    exact h.bindWithin (h.field (hfields s List.mem_cons_self)) fun _ => h.mapWithin hrest _

theorem decodeIndexed (h : Compositional P Q) (hfields : ∀ s ∈ fields, P s.decode) {n : Nat}
    {read : Frame → Decoder (Schema.Options fields → Schema.Options fields)}
    (hread : Schema.decodeIndexed fields n = some read) : Q read := by
  induction fields generalizing n with
  | nil => cases hread
  | cons s rest ih =>
    cases n with
    | zero =>
      obtain rfl := Option.some.inj hread
      exact h.mapWithin (h.field (hfields s List.mem_cons_self)) _
    | succ n =>
      obtain ⟨read', hread', rfl⟩ := Option.map_eq_some_iff.1 hread
      exact h.mapWithin (ih (fun t ht => hfields t (List.mem_cons_of_mem s ht)) hread') _

theorem decodeIndexedFields (h : Compositional P Q) (hfields : ∀ s ∈ fields, P s.decode) :
    Q fun f => f.indexedFields fun i => (Schema.decodeIndexed fields (i.toNat - 1)).map (· f) :=
  h.indexedFields (h.rounds fun _ _ hread => h.decodeIndexed hfields hread)

end Fields

/-- Reading a value has the property, if reading texts does or there is none. -/
theorem decode (h : Compositional P Q) (s : Schema) (htext : s.hasText → P Decoder.text) :
    P s.decode := by
  induction s using Schema.induct with
  | scalar s => exact h.scalar s
  | text => exact htext rfl
  | bytes => exact h.byteArray
  | array item ih => exact h.bind h.arrayLength (h.items (ih htext))
  | map kind key value ihkey ihvalue =>
    have hkey := ihkey fun ht => htext (by rw [Schema.hasText, ht, Bool.true_or])
    have hvalue := ihvalue fun ht => htext (by rw [Schema.hasText, ht, Bool.or_true])
    have hentries := h.times (h.entry hkey hvalue)
    cases kind <;> exact h.bind h.arrayLength fun count => h.map (hentries count) _
  | record first rest ihfirst ihrest =>
    have hfirst := ihfirst fun ht => htext (by rw [Schema.hasText, ht, Bool.true_or])
    refine h.entry hfirst (h.decodeAll fun s hs => ihrest s hs fun ht => htext ?_)
    rw [Schema.hasText, Schema.anyText_of_mem hs ht, Bool.or_true]
  | message fields ih =>
    have hfields := fun s hs => ih s hs fun ht => htext (Schema.anyText_of_mem hs ht)
    exact h.map (h.message (h.decodeFields hfields)) _
  | indexed fields ih =>
    have hfields := fun s hs => ih s hs fun ht => htext (Schema.anyText_of_mem hs ht)
    exact h.map (h.message (h.decodeIndexedFields hfields)) _

end Compositional
end WireFormat
