import WireFormat.Proofs.ByteArrays
import WireFormat.Proofs.FixedWidth
import WireFormat.Proofs.RoundTrip

/-! Counts in front of arrays and maps. Where all items have one size, the bytes behind a count
decide whether it is met; where they have not, each item still takes a byte, so that a count of
more items than there are bytes is never met. -/
namespace WireFormat

variable {α β : Type} {input : Input} {p q : Nat}

/-- The four bytes at `p` are a count that the reader accepts. -/
def CountAt (input : Input) (p count : Nat) : Prop :=
  Declares input p count ∧ count ≤ input.limits.arrayLength

theorem Declares.unique {length length' : Nat} (h : Declares input p length)
    (h' : Declares input p length') : length = length' :=
  h.2.symm.trans h'.2

namespace Decoder

/-- A success takes at least a byte, and none that is not there. -/
def Progresses (d : Decoder α) : Prop :=
  ∀ input p a q, (d.run input p).Yields a q → p < q ∧ q ≤ input.bytes.length

variable {d : Decoder α}

theorem Local.progresses (hd : d.Local) (hbyte : d.NeedsByte) : d.Progresses := by
  intro input p a q h
  obtain ⟨w, hprefix, hpos, rfl, -⟩ := hd.span hbyte h
  have hlen := hprefix.length_le
  rw [List.length_drop] at hlen
  omega

theorem Progresses.entry {value : Decoder β} (hd : d.Progresses) (hvalue : value.Progresses) :
    (Schema.entry d value).Progresses := by
  intro input p a q h
  obtain ⟨_, r, hkey, h⟩ := bind_yields.1 h
  obtain ⟨_, h, -⟩ := map_yields.1 h
  obtain ⟨hr, -⟩ := hd input p _ r hkey
  obtain ⟨hq, hend⟩ := hvalue input r _ q h
  exact ⟨Nat.lt_trans hr hq, hend⟩

/-- No more items are read than there are bytes left. -/
theorem Progresses.count_le (hd : d.Progresses) {count : Nat} {xs : List α}
    (h : ((d.times count).run input p).Yields xs q) : count ≤ input.remaining p := by
  induction count generalizing p xs with
  | zero => exact Nat.zero_le _
  | succ count ih =>
    obtain ⟨a, r, ha, h⟩ := bind_yields.1 h
    obtain ⟨rest, hrest, -⟩ := map_yields.1 h
    obtain ⟨hr, hend⟩ := hd input p a r ha
    have hleft := ih hrest
    unfold Input.remaining at hleft ⊢
    omega

/-- What comes behind a count is read with the count that is there. -/
theorem counted_yields {next : Nat → Decoder α} {a : α} :
    ((arrayLength >>= next).run input p).Yields a q ↔
      ∃ n, CountAt input p n ∧ ((next n).run input (p + 4)).Yields a q := by
  simp only [bind_yields, arrayLength_yields_iff]
  constructor
  · intro h
    obtain ⟨n, _, ⟨rfl, hcount⟩, ha⟩ := h
    exact ⟨n, hcount, ha⟩
  · intro h
    obtain ⟨n, hcount, ha⟩ := h
    exact ⟨n, p + 4, ⟨rfl, hcount⟩, ha⟩

end Decoder

namespace Schema

/-- The size of all values of a primitive type, where the catalogue has one. -/
def fixedSize? (s : Schema) : Option Nat := s.wireType?.bind WireType.fixedSize

theorem wide_decode {s : Schema} {width : Nat} (h : s.fixedSize? = some width) :
    s.decode.Wide width := by
  cases s with
  | scalar s => exact Scalar.wide_decode h
  | _ => cases h

theorem wide_entry {key value : Schema} {k v : Nat} (hkey : key.fixedSize? = some k)
    (hvalue : value.fixedSize? = some v) : (entry key.decode value.decode).Wide (k + v) :=
  (wide_decode hkey).bind fun _ => (wide_decode hvalue).map _

theorem progresses_decode (s : Schema) : s.decode.Progresses :=
  s.local_decode.progresses s.needsByte_decode

/-- However items are taken, they are those that are read one by one. -/
theorem items_yields {item : Schema} {count : Nat} {xs : List item.Val} :
    ((items item item.decode count).run input p).Yields xs q ↔
      ((item.decode.times count).run input p).Yields xs q := by
  by_cases hbyte : item = .scalar .byte
  · subst hbyte
    exact Decoder.times_byte_yields.symm
  · rw [items_eq_times hbyte]

theorem array_yields {item : Schema} {xs : List item.Val} :
    ((array item).decode.run input p).Yields xs q ↔
      CountAt input p xs.length ∧
        ((item.decode.times xs.length).run input (p + 4)).Yields xs q := by
  refine Decoder.counted_yields.trans ?_
  constructor
  · intro h
    obtain ⟨n, hcount, hitems⟩ := h
    have hxs := items_yields.1 hitems
    obtain rfl := Decoder.length_of_times hxs
    exact ⟨hcount, hxs⟩
  · intro h
    exact ⟨xs.length, h.1, items_yields.2 h.2⟩

/-- A map is there when its entries are, in whatever way it holds them. -/
theorem exists_map_yields {kind : MapKind} {key value : Schema} :
    (∃ m, ((map kind key value).decode.run input p).Yields m q) ↔ ∃ n es, CountAt input p n ∧
      (((entry key.decode value.decode).times n).run input (p + 4)).Yields es q := by
  constructor
  · intro h
    obtain ⟨m, h⟩ := h
    cases kind <;>
    · obtain ⟨n, hcount, h⟩ := Decoder.counted_yields.1 h
      obtain ⟨es, hes, -⟩ := Decoder.map_yields.1 h
      exact ⟨n, es, hcount, hes⟩
  · intro h
    obtain ⟨n, es, hcount, hes⟩ := h
    cases kind <;>
      exact ⟨_, Decoder.counted_yields.2 ⟨n, hcount, Decoder.map_yields.2 ⟨es, hes, rfl⟩⟩⟩

theorem array_fails_of_forged {count : Nat} (hcount : Declares input p count)
    (hforged : input.remaining (p + 4) < count) (item : Schema) :
    ∃ e, ((array item).decode.run input p).Fails e := by
  rcases ((array item).decode.run input p).yields_or_fails with ⟨xs, h⟩ | h
  · obtain ⟨⟨hdeclares, -⟩, hxs⟩ := array_yields.1 h
    have hlen := hdeclares.unique hcount
    have hleft := item.progresses_decode.count_le hxs
    omega
  · exact h

theorem map_fails_of_forged {count : Nat} (hcount : Declares input p count)
    (hforged : input.remaining (p + 4) < count) (kind : MapKind) (key value : Schema) :
    ∃ e, ((map kind key value).decode.run input p).Fails e := by
  rcases ((map kind key value).decode.run input p).yields_or_fails with ⟨m, h⟩ | h
  · obtain ⟨n, es, ⟨hdeclares, -⟩, hes⟩ := exists_map_yields.1 ⟨m, h⟩
    have hlen := hdeclares.unique hcount
    have hleft := (key.progresses_decode.entry value.progresses_decode).count_le hes
    omega
  · exact h

/-- Forged counts never succeed. Where all items of an array, or all entries of a map, have one
size, the read succeeds where a count is accepted and the bytes for so many are left, and then
takes just them and the count. A value of whatever schema takes a byte, so that an array or a map
whose count is larger than the number of bytes behind it is refused. -/
theorem decode_counted (input : Input) (p : Nat) :
    (∀ item width, item.fixedSize? = some width → ∀ n q,
      (∃ xs, ((array item).decode.run input p).Yields xs q ∧ xs.length = n) ↔
        CountAt input p n ∧ n * width ≤ input.remaining (p + 4) ∧ q = p + 4 + n * width) ∧
    (∀ kind key value k v, key.fixedSize? = some k → value.fixedSize? = some v → ∀ q,
      (∃ m, ((map kind key value).decode.run input p).Yields m q) ↔ ∃ n, CountAt input p n ∧
        n * (k + v) ≤ input.remaining (p + 4) ∧ q = p + 4 + n * (k + v)) ∧
    (∀ (s : Schema) v q, (s.decode.run input p).Yields v q → p < q ∧ q ≤ input.bytes.length) ∧
    ∀ count, Declares input p count → input.remaining (p + 4) < count →
      (∀ item, ∃ e, ((array item).decode.run input p).Fails e) ∧
        ∀ kind key value, ∃ e, ((map kind key value).decode.run input p).Fails e := by
  refine ⟨fun item width hwidth n q => ?_, fun kind key value k v hkey hvalue q => ?_,
    fun s => s.progresses_decode input p, fun count hcount hforged =>
      ⟨array_fails_of_forged hcount hforged, map_fails_of_forged hcount hforged⟩⟩
  · have hitems := (wide_decode hwidth).times n
    constructor
    · intro h
      obtain ⟨xs, h, rfl⟩ := h
      obtain ⟨hcount, hxs⟩ := array_yields.1 h
      exact ⟨hcount, hitems.of_yields hxs⟩
    · intro h
      obtain ⟨hcount, hleft, rfl⟩ := h
      obtain ⟨xs, hxs⟩ := hitems.exists_yields hleft
      obtain rfl := Decoder.length_of_times hxs
      exact ⟨xs, array_yields.2 ⟨hcount, hxs⟩, rfl⟩
  · refine exists_map_yields.trans ⟨fun h => ?_, fun h => ?_⟩
    · obtain ⟨n, es, hcount, hes⟩ := h
      exact ⟨n, hcount, ((wide_entry hkey hvalue).times n).of_yields hes⟩
    · obtain ⟨n, hcount, hleft, rfl⟩ := h
      obtain ⟨es, hes⟩ := ((wide_entry hkey hvalue).times n).exists_yields hleft
      exact ⟨n, es, hcount, hes⟩

/-- Two numbers and two entries behind the largest count that is accepted; and the largest count
there is, with four bytes behind it. -/
theorem decode_counted_forged :
    let met : Input := ⟨[7, 2, 0, 0, 0, 1, 2, 3, 4, 9], ⟨0, 2⟩⟩
    let forged : Input := ⟨[255, 255, 255, 255, 0, 0, 0, 0], .unbounded⟩
    (fixedSize? (scalar .uint16) = some 2 ∧
      ∃ xs, ((array (scalar .uint16)).decode.run met 1).Yields xs 9 ∧ xs.length = 2) ∧
    (fixedSize? (scalar .bool) = some 1 ∧ fixedSize? (scalar .byte) = some 1 ∧
      ∃ m, ((map .hashed (scalar .bool) (scalar .byte)).decode.run met 1).Yields m 9) ∧
    Declares forged 0 0xffffffff ∧ forged.remaining 4 < 0xffffffff ∧
      (∃ e, ((array .text).decode.run forged 0).Fails e) ∧
      ∃ e, ((map .sorted .text (array .bytes)).decode.run forged 0).Fails e := by
  intro met forged
  have hmet : CountAt met 1 2 := ⟨⟨by decide, by decide⟩, by decide⟩
  have hforged : Declares forged 0 0xffffffff := ⟨by decide, by decide⟩
  have hshort : forged.remaining (0 + 4) < 0xffffffff := by decide
  obtain ⟨harray, hmap, -⟩ := decode_counted met 1
  obtain ⟨-, -, -, hfails⟩ := decode_counted forged 0
  obtain ⟨hitems, hentries⟩ := hfails 0xffffffff hforged hshort
  exact ⟨⟨rfl, (harray (scalar .uint16) 2 rfl 2 9).2 ⟨hmet, by decide, rfl⟩⟩,
    ⟨rfl, rfl, (hmap .hashed (scalar .bool) (scalar .byte) 1 1 rfl rfl 9).2
      ⟨2, hmet, by decide, rfl⟩⟩,
    hforged, hshort, hitems .text, hentries .sorted .text (array .bytes)⟩

end Schema
end WireFormat
