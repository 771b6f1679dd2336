import WireFormat.Proofs.RoundTrip

/-! A message is read as its body alone would be read. The input is never cut: fields are taken
from all of it, and a check before and after each of them is all that holds them inside the
body. What comes of it is what reading a copy of the body would give. -/
namespace WireFormat

variable {α β : Type} {limits : ReadLimits} {w : List UInt8} {left : Nat}

namespace Decoder

/-- A framed body is read exactly when a beginning of it is read inside a body of its length;
what stands behind the frame is left as it is, and has no say in it. -/
theorem message_readFrom_iff {body : Frame → Decoder α} (hbody : LocalWithin body)
    {bytes rest left : List UInt8} (hfits : Schema.FitsWord bytes.length) {a : α} :
    (message body).readFrom (Schema.framed bytes ++ rest) = .ok (a, left) ↔
      left = rest ∧ ∃ w unread, bytes = w ++ unread ∧
        ReadsWithin body .unbounded w unread.length a := by
  constructor
  · intro h
    obtain ⟨q, hrun, hdrop⟩ := readFrom_eq_ok.1 h
    rw [← List.nil_append (Schema.framed bytes ++ rest)] at hrun
    obtain ⟨head, x, w, unread, back, hbytes, hq, hx, hlen, -, hw⟩ := message_span hbody hrun
    rw [hbytes, ← hq, List.length_nil, Nat.zero_add, List.drop_left] at hdrop
    -- The length that was read and the one that was written start at the same place.
    have hword := reads_word32 .unbounded (UInt32.ofNat bytes.length)
    simp only [Schema.framed, List.append_assoc] at hbytes
    obtain ⟨rfl, rfl⟩ := hword.unique hx hbytes
    rw [toNat_ofNat_of_fitsWord hfits, ← List.length_append] at hlen
    have hrest := List.append_cancel_left hbytes
    rw [← List.append_assoc] at hrest
    obtain ⟨hsplit, hback⟩ := List.append_inj hrest hlen
    exact ⟨hdrop.symm.trans hback.symm, w, unread, hsplit, hw⟩
  · intro h
    obtain ⟨rfl, w, unread, rfl, hw⟩ := h
    exact (reads_framed unread hw hfits hfits.le_maxIndex).readFrom

end Decoder

namespace Schema

/-- The first fields there, the others absent. -/
def leading : (fields : List Schema) → (k : Nat) → Vals (fields.take k) → Options fields
  | [], _, _ => ()
  | s :: rest, 0, _ => noOptions (s :: rest)
  | _ :: rest, k + 1, (x, xs) => (some x, leading rest k xs)

/-- The body alone holds the first `k` fields with these values: plain reads of them, one after
another, succeed on the body. They reach its end with the last of them, unless that is the last
field of all, and not before. -/
structure HoldsAlone (fields : List Schema) (body : List UInt8) (k : Nat)
    (xs : Vals (fields.take k)) : Prop where
  count : k ≤ fields.length
  read : ∃ left, (decodeAll (fields.take k)).readFrom body = .ok (xs, left) ∧
    (k = fields.length ∨ left = [])
  before : ∀ j, 0 < j → j < k → ∃ us left,
    (decodeAll (fields.take j)).readFrom body = .ok (us, left) ∧ left ≠ []

variable {fields : List Schema}

/-- Fewer of the fields end before the bytes of all do, as each field takes a byte. -/
theorem reads_decodeAll_fewer {k j : Nat} (hk : k ≤ fields.length) (hj : j < k)
    {xs : Vals (fields.take k)} (h : (decodeAll (fields.take k)).Reads limits w xs) :
    ∃ u v us, w = u ++ v ∧ v ≠ [] ∧ (decodeAll (fields.take j)).Reads limits u us := by
  induction fields generalizing k j w with
  | nil => simp at hk; omega
  | cons s rest ih =>
    obtain ⟨k, rfl⟩ := Nat.exists_eq_succ_of_ne_zero (by omega : k ≠ 0)
    obtain ⟨x, xs⟩ := xs
    obtain ⟨u, v, rfl, hu, hv⟩ := (reads_entry_iff s.local_decode (local_fields _)).1 h
    have hpos := hu.length_pos s.needsByte_decode
    cases j with
    | zero =>
      refine ⟨[], u ++ v, (), rfl, ?_, Decoder.reads_pure⟩
      intro hnil
      rw [(List.append_eq_nil_iff.1 hnil).1] at hpos
      simp at hpos
    | succ j =>
      rw [List.length_cons] at hk
      obtain ⟨t, v, us, rfl, hne, ht⟩ := ih (by omega) (by omega : j < k) hv
      exact ⟨u ++ t, v, (x, us), (List.append_assoc u t v).symm, hne, reads_entry hu ht⟩

theorem holdsAlone_iff {body : List UInt8} {k : Nat} {xs : Vals (fields.take k)} :
    HoldsAlone fields body k xs ↔ k ≤ fields.length ∧ ∃ w unread, body = w ++ unread ∧
      (decodeAll (fields.take k)).Reads .unbounded w xs ∧ (k = fields.length ∨ unread = []) := by
  constructor
  · intro h
    obtain ⟨hk, ⟨unread, hread, hend⟩, -⟩ := h
    obtain ⟨w, hbody, hw⟩ := (local_fields _).readFrom_iff.1 hread
    exact ⟨hk, w, unread, hbody, hw, hend⟩
  · intro h
    obtain ⟨hk, w, unread, rfl, hw, hend⟩ := h
    refine ⟨hk, ⟨unread, hw.readFrom, hend⟩, fun j _ hj => ?_⟩
    obtain ⟨u, v, us, rfl, hne, hu⟩ := reads_decodeAll_fewer hk hj hw
    rw [List.append_assoc]
    refine ⟨us, v ++ unread, hu.readFrom, fun hnil => hne (List.append_eq_nil_iff.1 hnil).1⟩

theorem readsWithin_decodeFields_absent (limits : ReadLimits) (fields : List Schema) :
    ReadsWithin (decodeFields fields) limits [] 0 (noOptions fields) := by
  induction fields with
  | nil => exact readsWithin_pure
  | cons s rest ih =>
    have habsent : ReadsWithin (fun f => f.field s.decode) limits [] 0 none :=
      (readsWithin_field_iff s.local_decode).2 (.inl ⟨rfl, rfl, rfl⟩)
    exact readsWithin_entry (w := []) habsent ih

/-- Reading the fields of a body reads the first of them without a frame: either all, or as many
as there are bytes for. -/
theorem readsWithin_decodeFields_iff {os : Options fields} :
    ReadsWithin (decodeFields fields) limits w left os ↔
      ∃ k xs, k ≤ fields.length ∧ (decodeAll (fields.take k)).Reads limits w xs ∧
        (k = fields.length ∨ left = 0) ∧ os = leading fields k xs := by
  induction fields generalizing w with
  | nil =>
    constructor
    · intro h
      obtain ⟨rfl, -⟩ := readsWithin_pure_iff.1 h
      exact ⟨0, (), Nat.le_refl 0, Decoder.reads_pure, .inl rfl, rfl⟩
    · intro h
      obtain ⟨k, xs, hk, h, -, -⟩ := h
      obtain rfl : k = 0 := Nat.le_zero.1 hk
      obtain ⟨rfl, -⟩ := Decoder.reads_pure_iff.1 h
      exact readsWithin_pure
  | cons s rest ih =>
    obtain ⟨o, os⟩ := os
    have hfield := localWithin_field s.local_decode
    constructor
    · intro h
      obtain ⟨u, v, rfl, hu, hv⟩ := (readsWithin_entry_iff hfield (localWithin_fields rest)).1 h
      rcases (readsWithin_field_iff s.local_decode).1 hu with ⟨rfl, hend, rfl⟩ | ⟨-, x, rfl, hx⟩
      · -- The body was at its end before this field, so every field after it is absent as well.
        obtain rfl : v = [] := List.eq_nil_of_length_eq_zero (by omega)
        obtain rfl : left = 0 := by rwa [List.length_nil, Nat.zero_add] at hend
        have habsent := readsWithin_decodeFields_absent limits rest
        obtain rfl := hv.unique habsent
        exact ⟨0, (), Nat.zero_le _, Decoder.reads_pure, .inr rfl, rfl⟩
      · obtain ⟨k, xs, hk, hxs, hend, rfl⟩ := ih.1 hv
        refine ⟨k + 1, (x, xs), Nat.succ_le_succ hk, reads_entry hx hxs, ?_, rfl⟩
        exact hend.imp_left (congrArg (· + 1))
    · intro h
      obtain ⟨k, xs, hk, h, hend, hos⟩ := h
      cases k with
      | zero =>
        obtain ⟨rfl, -⟩ := Decoder.reads_pure_iff.1 h
        obtain rfl : left = 0 := hend.resolve_left (Nat.succ_ne_zero _).symm
        rw [hos]
        exact readsWithin_decodeFields_absent limits (s :: rest)
      | succ k =>
        obtain ⟨x, xs⟩ := xs
        obtain ⟨rfl, rfl⟩ := Prod.mk.inj hos
        obtain ⟨u, v, rfl, hu, hv⟩ := (reads_entry_iff s.local_decode (local_fields _)).1 h
        have hpos := hu.length_pos s.needsByte_decode
        refine readsWithin_entry ?_ (ih.2 ⟨k, xs, ?_, hv, ?_, rfl⟩)
        · exact (readsWithin_field_iff s.local_decode).2 (.inr ⟨by omega, x, rfl, hu⟩)
        · exact Nat.le_of_succ_le_succ hk
        · exact hend.imp_left Nat.succ.inj

/-- Reading a framed body field by field refines reading the body alone: it succeeds exactly when
some number of fields can be read from a copy of the body, with their values there and the other
fields absent, and it leaves exactly what stands behind the frame, whatever that is. -/
theorem message_readFrom_iff_holdsAlone (fields : List Schema) {body : List UInt8}
    (hfits : FitsWord body.length) (rest left : List UInt8) (os : Options fields) :
    (Decoder.message (decodeFields fields)).readFrom (framed body ++ rest) = .ok (os, left) ↔
      left = rest ∧ ∃ k xs, HoldsAlone fields body k xs ∧ os = leading fields k xs := by
  rw [Decoder.message_readFrom_iff (localWithin_fields fields) hfits]
  refine and_congr_right fun _ => ?_
  simp only [readsWithin_decodeFields_iff, holdsAlone_iff]
  constructor
  · intro h
    obtain ⟨w, unread, hbody, k, xs, hk, hw, hend, hos⟩ := h
    exact ⟨k, xs, ⟨hk, w, unread, hbody, hw, hend.imp_right List.eq_nil_of_length_eq_zero⟩, hos⟩
  · intro h
    obtain ⟨k, xs, ⟨hk, w, unread, hbody, hw, hend⟩, hos⟩ := h
    exact ⟨w, unread, hbody, k, xs, hk, hw, hend.imp_right (congrArg List.length), hos⟩

/-- A year without the bytes that should follow it. -/
theorem message_readFrom_year_alone :
    let body : List UInt8 := [0xa7, 0x07]
    FitsWord body.length ∧ HoldsAlone [.scalar .uint16, .bytes] body 1 (1959, ()) ∧
      (Decoder.message (decodeFields [.scalar .uint16, .bytes])).readFrom
        (framed body ++ [1, 2, 3]) = .ok ((some 1959, none, ()), [1, 2, 3]) := by
  intro body
  have hfits : FitsWord body.length := by decide
  have halone : HoldsAlone [.scalar .uint16, .bytes] body 1 (1959, ()) :=
    ⟨by decide, ⟨[], rfl, .inr rfl⟩, fun j hpos hlt => by omega⟩
  have hread := message_readFrom_iff_holdsAlone [.scalar .uint16, .bytes] hfits [1, 2, 3]
  exact ⟨hfits, halone, (hread [1, 2, 3] (some 1959, none, ())).2 ⟨rfl, 1, _, halone, rfl⟩⟩

end Schema
end WireFormat
