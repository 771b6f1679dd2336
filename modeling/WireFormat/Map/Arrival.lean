/-! Finite maps whose entries stand in the order in which their keys first arrived.
The order carries no meaning: two maps are the same when they look up alike. -/
namespace WireFormat

/-- A finite map as its entries, no key twice. -/
structure ArrivalMap (α β : Type) where
  entries : List (α × β)
  distinct : entries.Pairwise fun a b => a.1 ≠ b.1

namespace ArrivalMap

variable {α β : Type}

def empty : ArrivalMap α β := ⟨[], List.Pairwise.nil⟩

variable [Ord α]

def get? (m : ArrivalMap α β) (key : α) : Option β :=
  (m.entries.find? fun e => compare key e.1 == .eq).map Prod.snd

/-- Replaces the value of a known key in its place; appends a new key. -/
def insertEntry (key : α) (value : β) : List (α × β) → List (α × β)
  | [] => [(key, value)]
  | e :: rest =>
      if compare key e.1 = .eq then (e.1, value) :: rest else e :: insertEntry key value rest

theorem mem_insertEntry {key : α} {value : β} {e : α × β} {entries : List (α × β)}
    (h : e ∈ insertEntry key value entries) : e.1 = key ∨ e.1 ∈ entries.map Prod.fst := by
  induction entries with
  | nil => simp_all [insertEntry]
  | cons head rest ih =>
    unfold insertEntry at h
    split at h <;> simp only [List.mem_cons, List.map_cons] at h ⊢ <;> grind

variable [Std.LawfulEqOrd α]

theorem distinct_insertEntry (key : α) (value : β) {entries : List (α × β)}
    (h : entries.Pairwise fun a b => a.1 ≠ b.1) :
    (insertEntry key value entries).Pairwise fun a b => a.1 ≠ b.1 := by
  induction entries with
  | nil => simp [insertEntry]
  | cons head rest ih =>
    obtain ⟨hhead, hrest⟩ := List.pairwise_cons.1 h
    unfold insertEntry
    split
    · exact List.pairwise_cons.2 ⟨hhead, hrest⟩
    · rename_i hne
      refine List.pairwise_cons.2 ⟨fun e he => ?_, ih hrest⟩
      rcases mem_insertEntry he with hkey | he
      · intro heq
        exact hne (by rw [← hkey, ← heq]; exact Std.ReflCmp.compare_self)
      · obtain ⟨e', he', hfst⟩ := List.mem_map.1 he
        exact hfst ▸ hhead e' he'

/-- Maps a key to a value, whatever it was mapped to before. -/
def insert (m : ArrivalMap α β) (key : α) (value : β) : ArrivalMap α β :=
  ⟨insertEntry key value m.entries, distinct_insertEntry key value m.distinct⟩

/-- Inserts entries from first to last, so that the last one of a key stays. -/
def ofList (entries : List (α × β)) : ArrivalMap α β :=
  entries.foldl (fun m e => m.insert e.1 e.2) empty

end ArrivalMap
end WireFormat
