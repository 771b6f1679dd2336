/-! Finite maps kept in strictly ascending order of their keys. -/
namespace WireFormat

/-- A finite map as its entries in strictly ascending order of keys. -/
structure SortedMap (α β : Type) [Ord α] where
  entries : List (α × β)
  ascending : entries.Pairwise fun a b => compare a.1 b.1 = .lt

namespace SortedMap

variable {α β : Type} [Ord α]

/-- Places an entry before the first larger key; an equal key gives way. -/
def insertEntry (key : α) (value : β) : List (α × β) → List (α × β)
  | [] => [(key, value)]
  | e :: rest =>
      match compare key e.1 with
      | .lt => (key, value) :: e :: rest
      | .eq => (key, value) :: rest
      | .gt => e :: insertEntry key value rest

theorem mem_insertEntry {key : α} {value : β} {e : α × β} {entries : List (α × β)}
    (h : e ∈ insertEntry key value entries) : e = (key, value) ∨ e ∈ entries := by
  induction entries with
  | nil => simpa [insertEntry] using h
  | cons head rest ih =>
    unfold insertEntry at h
    split at h <;> simp only [List.mem_cons] at h ⊢ <;> grind

theorem ascending_insertEntry [Std.TransOrd α] [Std.LawfulEqOrd α] (key : α) (value : β)
    {entries : List (α × β)} (h : entries.Pairwise fun a b => compare a.1 b.1 = .lt) :
    (insertEntry key value entries).Pairwise fun a b => compare a.1 b.1 = .lt := by
  induction entries with
  | nil => simp [insertEntry]
  | cons head rest ih =>
    obtain ⟨hhead, hrest⟩ := List.pairwise_cons.1 h
    unfold insertEntry
    split
    · rename_i hlt
      refine List.pairwise_cons.2 ⟨fun e he => ?_, h⟩
      rcases List.mem_cons.1 he with rfl | he
      · exact hlt
      · exact Std.TransCmp.lt_trans hlt (hhead e he)
    · rename_i heq
      have hkey : key = head.1 := Std.LawfulEqCmp.eq_of_compare heq
      exact List.pairwise_cons.2 ⟨fun e he => hkey ▸ hhead e he, hrest⟩
    · rename_i hgt
      refine List.pairwise_cons.2 ⟨fun e he => ?_, ih hrest⟩
      rcases mem_insertEntry he with rfl | he
      · exact Std.OrientedCmp.gt_iff_lt.1 hgt
      · exact hhead e he

def empty : SortedMap α β := ⟨[], List.Pairwise.nil⟩

def get? (m : SortedMap α β) (key : α) : Option β :=
  (m.entries.find? fun e => compare key e.1 == .eq).map Prod.snd

variable [Std.TransOrd α] [Std.LawfulEqOrd α]

/-- Maps a key to a value, whatever it was mapped to before. -/
def insert (m : SortedMap α β) (key : α) (value : β) : SortedMap α β :=
  ⟨insertEntry key value m.entries, ascending_insertEntry key value m.ascending⟩

/-- Inserts entries from first to last, so that the last one of a key stays. -/
def ofList (entries : List (α × β)) : SortedMap α β :=
  entries.foldl (fun m e => m.insert e.1 e.2) empty

end SortedMap
end WireFormat
