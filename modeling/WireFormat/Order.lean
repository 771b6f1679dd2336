/-! Types with a lawful total order. The values of every schema form such a type, so
that each of them can be the key of a map. -/
namespace WireFormat

theorem transOrd_of_embedding {α β : Type} [Ord α] [Ord β] [Std.TransOrd β] (f : α → β)
    (h : ∀ x y, compare x y = compare (f x) (f y)) : Std.TransOrd α where
  eq_swap {a b} := by rw [h, h]; exact Std.OrientedCmp.eq_swap
  isLE_trans {a b c} := by rw [h, h, h]; exact Std.TransCmp.isLE_trans

theorem lawfulEqOrd_of_embedding {α β : Type} [Ord α] [Ord β] [Std.LawfulEqOrd β] (f : α → β)
    (h : ∀ x y, compare x y = compare (f x) (f y)) (inj : ∀ {x y}, f x = f y → x = y) :
    Std.LawfulEqOrd α where
  compare_self {a} := by rw [h]; exact Std.ReflCmp.compare_self
  eq_of_compare {a b} hab := inj (Std.LawfulEqCmp.eq_of_compare (h a b ▸ hab))

/-- A type together with a total order on it. -/
structure OrderedType where
  Carrier : Type
  ord : Ord Carrier
  trans : Std.TransOrd Carrier
  lawful : Std.LawfulEqOrd Carrier

namespace OrderedType

instance (a : OrderedType) : Ord a.Carrier := a.ord
instance (a : OrderedType) : Std.TransOrd a.Carrier := a.trans
instance (a : OrderedType) : Std.LawfulEqOrd a.Carrier := a.lawful

abbrev of (α : Type) [Ord α] [Std.TransOrd α] [Std.LawfulEqOrd α] : OrderedType :=
  ⟨α, inferInstance, inferInstance, inferInstance⟩

@[reducible] def unit : OrderedType where
  Carrier := Unit
  ord := ⟨fun _ _ => .eq⟩
  trans := { eq_swap := rfl, isLE_trans := fun _ _ => rfl }
  lawful := { compare_self := rfl, eq_of_compare := fun _ => rfl }

/-- Pairs, ordered by the first component and then by the second. -/
@[reducible] def prod (a b : OrderedType) : OrderedType :=
  letI := @lexOrd a.Carrier b.Carrier _ _
  of (a.Carrier × b.Carrier)

/-- Lists in lexicographic order; a proper beginning of a list comes before it. -/
@[reducible] def list (a : OrderedType) : OrderedType := of (List a.Carrier)

/-- Values that may be missing; the missing one comes first. -/
@[reducible] def option (a : OrderedType) : OrderedType := of (Option a.Carrier)

/-- A type that is ordered as its image under an injection. -/
@[reducible] def embed (α : Type) (b : OrderedType) (f : α → b.Carrier) (inj : ∀ {x y}, f x = f y → x = y) :
    OrderedType :=
  letI : Ord α := ⟨fun x y => compare (f x) (f y)⟩
  ⟨α, inferInstance, transOrd_of_embedding f fun _ _ => rfl,
    lawfulEqOrd_of_embedding f (fun _ _ => rfl) inj⟩

end OrderedType
end WireFormat
