import Mathlib.Data.List.Pairwise
import WireFormat.Proofs.Guarded
import WireFormat.Proofs.WriterPrograms

/-! Placeholders for message lengths, filled in any order. As long as the buffer is not cleared,
every place that was set aside stays in it, apart from all others, and to fill one changes its four
bytes and no other. -/
namespace WireFormat

open IntegerCodec

/-- A byte of the place that was set aside. -/
def Placeholder.Covers (p : Placeholder) (i : Nat) : Prop := p.position ≤ i ∧ i < p.position + 4

instance (p : Placeholder) (i : Nat) : Decidable (p.Covers i) :=
  inferInstanceAs (Decidable (_ ∧ _))

namespace Writer

variable {w w' : Writer} {p q : Placeholder}

/-- A fill, operation by operation: two differences that must not be negative, a length that must
fit its four bytes, and a place that must end within the buffer. Only then a byte is written. -/
def guardedFill (w : Writer) (p : Placeholder) : Option Writer := do
  let written ← checkedSub w.size p.position
  let length ← checkedSub written 4
  let stop ← checkedAdd p.position 4
  if Schema.FitsWord length ∧ stop ≤ w.size then
    return ⟨w.bytes.take p.position ++ digits 4 length ++ w.bytes.drop stop⟩
  else none

theorem guardedFill_eq (h : Schema.FitsWord w.size) (p : Placeholder) :
    w.guardedFill p = w.fill? p := by
  unfold Schema.FitsWord at h
  by_cases hshort : w.size < p.position + 4
  · rw [fill?, if_pos hshort]
    by_cases hbehind : p.position ≤ w.size
    · have hlength : ¬ 4 ≤ w.size - p.position := by omega
      simp [guardedFill, checkedSub, hbehind, hlength]
    · simp [guardedFill, checkedSub, hbehind]
  · have hbehind : p.position ≤ w.size := by omega
    have hlength : 4 ≤ w.size - p.position := by omega
    have hfits : Schema.FitsWord (w.size - p.position - 4) := by
      unfold Schema.FitsWord
      omega
    have hstop : p.position + 4 ≤ maxIndex := by
      unfold maxIndex
      omega
    rw [fill?, if_neg hshort]
    simp [guardedFill, checkedSub, checkedAdd, hbehind, hlength, hfits, hstop, Nat.not_lt.1 hshort,
      patch, lengthBytes_eq]

theorem fill?_eq_none : w.fill? p = none ↔ w.size < p.position + 4 := by
  simp [fill?]

theorem fill?_eq_some : w.fill? p = some w' ↔ p.position + 4 ≤ w.size ∧ w.patch p = w' := by
  simp [fill?]

theorem size_patch (h : p.position + 4 ≤ w.size) : (w.patch p).size = w.size := by
  simp only [patch, size, List.length_append, List.length_take, List.length_drop,
    length_lengthBytes] at h ⊢
  omega

theorem getElem?_patch (h : p.position + 4 ≤ w.size) (i : Nat) :
    (w.patch p).bytes[i]? =
      if p.Covers i then (digits 4 (w.size - p.position - 4))[i - p.position]?
      else w.bytes[i]? := by
  have htake : (w.bytes.take p.position).length = p.position :=
    List.length_take_of_le (by unfold size at h; omega)
  rw [patch, lengthBytes_eq, List.append_assoc]
  rcases Nat.lt_or_ge i p.position with hi | hi
  · have hoff : ¬ p.Covers i := fun h => absurd h.1 (Nat.not_le.2 hi)
    rw [List.getElem?_append_left (by omega), List.getElem?_take_of_lt hi, if_neg hoff]
  · rw [List.getElem?_append_right (by omega), htake]
    rcases Nat.lt_or_ge i (p.position + 4) with hlt | hge
    · rw [List.getElem?_append_left (by rw [length_digits]; omega), if_pos ⟨hi, hlt⟩]
    · have hoff : ¬ p.Covers i := fun h => absurd h.2 (Nat.not_lt.2 hge)
      rw [List.getElem?_append_right (by rw [length_digits]; omega), length_digits,
        List.getElem?_drop, if_neg hoff]
      congr 1
      omega

/-- Fills of places that have no byte in common may change their order. -/
theorem patch_comm (hp : p.position + 4 ≤ w.size) (hq : q.position + 4 ≤ w.size)
    (hapart : ∀ i, p.Covers i → ¬ q.Covers i) : (w.patch p).patch q = (w.patch q).patch p := by
  have hbytes : ((w.patch p).patch q).bytes = ((w.patch q).patch p).bytes := by
    refine List.ext_getElem? fun i => ?_
    rw [getElem?_patch ((size_patch hp).symm ▸ hq), getElem?_patch hp,
      getElem?_patch ((size_patch hq).symm ▸ hp), getElem?_patch hq, size_patch hp, size_patch hq]
    by_cases hpi : p.Covers i
    · rw [if_neg (hapart i hpi), if_pos hpi, if_pos hpi]
    · rw [if_neg hpi, if_neg hpi]
  exact congrArg Writer.mk hbytes

/-- What filling a placeholder does: its four bytes become the number of bytes behind them, and
nothing else changes. -/
structure Filled (p : Placeholder) (w w' : Writer) : Prop where
  size : w'.size = w.size
  length : (w'.bytes.drop p.position).take 4 = digits 4 (w.size - p.position - 4)
  elsewhere : ∀ i, ¬ p.Covers i → w'.bytes[i]? = w.bytes[i]?

theorem filled_patch (h : p.position + 4 ≤ w.size) : Filled p w (w.patch p) where
  size := size_patch h
  length := by
    have htake : (w.bytes.take p.position).length = p.position :=
      List.length_take_of_le (by unfold size at h; omega)
    rw [patch, lengthBytes_eq, List.append_assoc, List.drop_left' htake,
      List.take_left' (length_digits _ _)]
  elsewhere i hi := by rw [getElem?_patch h, if_neg hi]

end Writer

/-- One change to the buffer of a writer. -/
inductive WriterChange
  | append (bytes : List UInt8)
  | clear
  | reserve
  | fill (p : Placeholder)
  deriving DecidableEq, Repr

/-- A buffer, and every place that was set aside in it, by hand or for a message, in order. -/
structure Ledger where
  writer : Writer
  reserved : List Placeholder

/-- Changes that come after a run, unless it ended in a fault. -/
def WriterRun.followedBy {α : Type} (ran : WriterRun α)
    (changes : List WriterChange) : List WriterChange :=
  if ran.report.isSome then changes else []

theorem WriterRun.notMem_followedBy {α : Type} {ran : WriterRun α} {c : WriterChange}
    {cs : List WriterChange} (h : c ∉ cs) : c ∉ ran.followedBy cs := by
  unfold followedBy
  split
  · exact h
  · simp

namespace Ledger

/-- What a change leaves. A fill is of a place that was set aside before, and finds it. -/
inductive Change : Ledger → WriterChange → Ledger → Prop
  | append {w reserved} (bytes) : Change ⟨w, reserved⟩ (.append bytes) ⟨w.append bytes, reserved⟩
  | clear {w reserved} : Change ⟨w, reserved⟩ .clear ⟨.empty, reserved⟩
  | reserve {w reserved} :
      Change ⟨w, reserved⟩ .reserve ⟨w.reserve.2, reserved ++ [w.reserve.1]⟩
  | fill {w w' reserved p} (hp : p ∈ reserved) (hfill : w.fill? p = some w') :
      Change ⟨w, reserved⟩ (.fill p) ⟨w', reserved⟩

inductive Leads : Ledger → List WriterChange → Ledger → Prop
  | nil {L} : Leads L [] L
  | cons {L M N c cs} (h : L.Change c M) (hrest : Leads M cs N) : Leads L (c :: cs) N

variable {L M N : Ledger} {c : WriterChange} {cs ds : List WriterChange} {p q : Placeholder}

theorem Leads.append (h : L.Leads cs M) (hmore : M.Leads ds N) : L.Leads (cs ++ ds) N := by
  induction h with
  | nil => exact hmore
  | cons hchange hrest ih => exact .cons hchange (ih hmore)

theorem Leads.split (h : L.Leads (cs ++ ds) N) : ∃ M, L.Leads cs M ∧ M.Leads ds N := by
  induction cs generalizing L with
  | nil => exact ⟨L, .nil, h⟩
  | cons c cs ih =>
    cases h with
    | cons hchange hrest =>
      obtain ⟨M, hcs, hds⟩ := ih hrest
      exact ⟨M, .cons hchange hcs, hds⟩

theorem Change.unique (h : L.Change c M) (h' : L.Change c N) : M = N := by
  cases h with
  | append | clear | reserve => cases h'; rfl
  | fill hp hfill =>
    cases h' with
    | fill hp' hfill' =>
      obtain rfl := Option.some.inj (hfill.symm.trans hfill')
      rfl

/-- What a ledger becomes is decided by the changes alone. -/
theorem Leads.unique (h : L.Leads cs M) (h' : L.Leads cs N) : M = N := by
  induction h with
  | nil => cases h'; rfl
  | cons hchange hrest ih =>
    cases h' with
    | cons hchange' hrest' =>
      obtain rfl := hchange.unique hchange'
      exact ih hrest'

/-- A fill that was done found its place. -/
theorem Leads.fill {before later : List WriterChange}
    (h : L.Leads (before ++ .fill q :: later) N) :
    ∃ M, L.Leads before M ∧ q ∈ M.reserved ∧ ¬ M.writer.size < q.position + 4 := by
  obtain ⟨M, hbefore, hrest⟩ := h.split
  cases hrest with
  | cons hchange _ =>
    cases hchange with
    | fill hq hfill => exact ⟨_, hbefore, hq, Nat.not_lt.2 (Writer.fill?_eq_some.1 hfill).1⟩

/-- Nothing that was set aside is forgotten. -/
theorem Leads.mem_reserved (h : L.Leads cs M) (hp : p ∈ L.reserved) : p ∈ M.reserved := by
  induction h with
  | nil => exact hp
  | cons hchange hrest ih =>
    refine ih ?_
    cases hchange with
    | append | clear | fill => exact hp
    | reserve => exact List.mem_append_left _ hp

/-- Every place that was set aside lies within the buffer, and none begins before the end of an
earlier one. -/
structure Sound (L : Ledger) : Prop where
  within : ∀ p ∈ L.reserved, p.position + 4 ≤ L.writer.size
  apart : L.reserved.Pairwise fun p q => p.position + 4 ≤ q.position

/-- The buffer does not become shorter, bytes outside of the places that were set aside stay, and so
do these places; others are set aside only behind the buffer. -/
structure Keeps (L M : Ledger) : Prop where
  size : L.writer.size ≤ M.writer.size
  reserved : ∃ more, M.reserved = L.reserved ++ more ∧ ∀ p ∈ more, L.writer.size ≤ p.position
  bytes : ∀ i < L.writer.size, (∀ p ∈ L.reserved, ¬ p.Covers i) →
    M.writer.bytes[i]? = L.writer.bytes[i]?

theorem Keeps.refl (L : Ledger) : L.Keeps L :=
  ⟨Nat.le_refl _, ⟨[], by simp⟩, fun _ _ _ => rfl⟩

theorem Keeps.trans (h : L.Keeps M) (h' : M.Keeps N) : L.Keeps N := by
  obtain ⟨more, hmore, hbehind⟩ := h.reserved
  obtain ⟨more', hmore', hbehind'⟩ := h'.reserved
  refine ⟨Nat.le_trans h.size h'.size, ⟨more ++ more', by simp [hmore', hmore], ?_⟩, ?_⟩
  · intro p hp
    rcases List.mem_append.1 hp with hp | hp
    · exact hbehind p hp
    · exact Nat.le_trans h.size (hbehind' p hp)
  · intro i hi houtside
    refine (h'.bytes i (Nat.lt_of_lt_of_le hi h.size) fun p hp => ?_).trans (h.bytes i hi houtside)
    rw [hmore] at hp
    rcases List.mem_append.1 hp with hp | hp
    · exact houtside p hp
    · exact fun hcovers => absurd hcovers.1 (Nat.not_le.2 (Nat.lt_of_lt_of_le hi (hbehind p hp)))

theorem keeps_append (w : Writer) (reserved : List Placeholder) (bytes : List UInt8)
    (more : List Placeholder) (hmore : ∀ p ∈ more, w.size ≤ p.position) :
    Keeps ⟨w, reserved⟩ ⟨w.append bytes, reserved ++ more⟩ where
  size := by simp [Writer.append, Writer.size]
  reserved := ⟨more, rfl, hmore⟩
  bytes i hi _ := List.getElem?_append_left hi

theorem keeps_filled {w w' : Writer} {reserved : List Placeholder} (hp : p ∈ reserved)
    (h : Writer.Filled p w w') : Keeps ⟨w, reserved⟩ ⟨w', reserved⟩ where
  size := Nat.le_of_eq h.size.symm
  reserved := ⟨[], by simp⟩
  bytes i _ houtside := h.elsewhere i (houtside p hp)

/-- What was set aside in a buffer that does not become shorter stays within it. -/
theorem Keeps.within (h : L.Keeps M) (hL : L.Sound) (hp : p ∈ L.reserved) :
    p.position + 4 ≤ M.writer.size :=
  Nat.le_trans (hL.within p hp) h.size

/-- Whatever is done but clearing keeps all places apart, and changes no byte outside of them. -/
theorem Change.keeps (h : L.Change c M) (hc : c ≠ .clear) (hL : L.Sound) :
    M.Sound ∧ L.Keeps M := by
  cases h with
  | @append w reserved bytes =>
    have hkeeps := keeps_append w reserved bytes [] nofun
    rw [List.append_nil] at hkeeps
    exact ⟨⟨fun p hp => hkeeps.within hL hp, hL.apart⟩, hkeeps⟩
  | clear => exact absurd rfl hc
  | @reserve w reserved =>
    have hkeeps := keeps_append w reserved (Writer.lengthBytes 0) [⟨w.size⟩] (by simp)
    refine ⟨⟨fun p hp => ?_, ?_⟩, hkeeps⟩
    · rcases List.mem_append.1 hp with hp | hp
      · exact hkeeps.within hL hp
      · obtain rfl := List.mem_singleton.1 hp
        simp [Writer.reserve, Writer.append, Writer.size]
    · refine List.pairwise_append.2 ⟨hL.apart, List.pairwise_singleton _ _, fun p hp q hq => ?_⟩
      obtain rfl := List.mem_singleton.1 hq
      exact hL.within p hp
  | @fill w w' reserved p hp hfill =>
    obtain ⟨hwithin, rfl⟩ := Writer.fill?_eq_some.1 hfill
    have hkeeps := keeps_filled hp (Writer.filled_patch hwithin)
    exact ⟨⟨fun q hq => hkeeps.within hL hq, hL.apart⟩, hkeeps⟩

theorem Leads.keeps (h : L.Leads cs M) (hcs : .clear ∉ cs) (hL : L.Sound) :
    M.Sound ∧ L.Keeps M := by
  induction h with
  | nil => exact ⟨hL, .refl _⟩
  | cons hchange hrest ih =>
    obtain ⟨hc, hcs⟩ := List.ne_and_not_mem_of_not_mem_cons hcs
    obtain ⟨hM, hkeeps⟩ := hchange.keeps hc.symm hL
    obtain ⟨hN, hkeeps'⟩ := ih hcs hM
    exact ⟨hN, hkeeps.trans hkeeps'⟩

/-- Every place that was set aside can be filled, and any two of them in either order. -/
structure Safe (L : Ledger) : Prop extends L.Sound where
  fill : ∀ p ∈ L.reserved, ∃ w, L.writer.fill? p = some w ∧ L.writer.guardedFill p = some w ∧
    Writer.Filled p L.writer w
  comm : ∀ p ∈ L.reserved, ∀ q ∈ L.reserved, p ≠ q → ∃ w,
    (L.writer.guardedFill p).bind (·.guardedFill q) = some w ∧
      (L.writer.guardedFill q).bind (·.guardedFill p) = some w

theorem Sound.disjoint (h : L.Sound) (hp : p ∈ L.reserved) (hq : q ∈ L.reserved) (hne : p ≠ q)
    (i : Nat) (hi : p.Covers i) : ¬ q.Covers i := by
  have hapart : L.reserved.Pairwise fun p q => ∀ i, p.Covers i → ¬ q.Covers i :=
    h.apart.imp fun hpq i hi hqi => absurd (Nat.le_trans hpq hqi.1) (Nat.not_le.2 hi.2)
  have hsymm : Std.Symm fun p q : Placeholder => ∀ i, p.Covers i → ¬ q.Covers i :=
    ⟨fun _ _ h i hi hpi => h i hpi hi⟩
  exact hapart.forall hp hq hne i hi

theorem Sound.safe (h : L.Sound) (hfits : Schema.FitsWord L.writer.size) : L.Safe where
  toSound := h
  fill p hp := by
    rw [Writer.guardedFill_eq hfits, Writer.fill?_of_le (h.within p hp)]
    exact ⟨_, rfl, rfl, Writer.filled_patch (h.within p hp)⟩
  comm p hp q hq hne := by
    have hfill {p q : Placeholder} (hp : p ∈ L.reserved) (hq : q ∈ L.reserved) :
        (L.writer.guardedFill p).bind (·.guardedFill q) = some ((L.writer.patch p).patch q) := by
      have hsize := Writer.size_patch (h.within p hp)
      rw [Writer.guardedFill_eq hfits, Writer.fill?_of_le (h.within p hp), Option.bind_some,
        Writer.guardedFill_eq (hsize.symm ▸ hfits),
        Writer.fill?_of_le (hsize.symm ▸ h.within q hq)]
    refine ⟨_, hfill hp hq, ?_⟩
    rw [hfill hq hp, Writer.patch_comm (h.within p hp) (h.within q hq) (h.disjoint hp hq hne)]

/-- The ledger has the buffer of a state, and knows of all its placeholders. -/
structure Matches (L : Ledger) (st : WriterState) : Prop where
  writer : L.writer = st.writer
  placeholders : ∀ p ∈ st.placeholders, p ∈ L.reserved

/-- How a run ends: with all changes done, or at the fill of a place that the buffer no longer
reaches to the end of, and with the buffer as it was then. -/
inductive Ends (L : Ledger) (changes : List WriterChange) (st : WriterState) : Bool → Prop
  | done (last) (hlead : L.Leads changes last) (hmatches : last.Matches st) : Ends L changes st true
  | fault (before q last) (heq : changes = before ++ [.fill q]) (hlead : L.Leads before last)
      (hreserved : q ∈ last.reserved) (hshort : last.writer.size < q.position + 4)
      (hmatches : last.Matches st) : Ends L changes st false

variable {st : WriterState} {reports : Bool}

theorem Ends.done_of_sound (h : L.Ends cs st reports) (hcs : .clear ∉ cs) (hL : L.Sound) :
    reports = true ∧ ∃ last, L.Leads cs last ∧ last.Matches st := by
  cases h with
  | done last hlead hmatches => exact ⟨rfl, last, hlead, hmatches⟩
  | fault before q last heq hlead hreserved hshort hmatches =>
    subst heq
    have hbefore : .clear ∉ before := fun hmem => hcs (List.mem_append_left _ hmem)
    have hwithin := (hlead.keeps hbefore hL).1.within q hreserved
    exact absurd hshort (Nat.not_lt.2 hwithin)

/-- A fill in a run is at fault just if the buffer is too short for it, and then the run leaves the
buffer as it was before. -/
theorem Ends.fill {before later : List WriterChange}
    (h : L.Ends (before ++ .fill q :: later) st reports) :
    ∃ M, L.Leads before M ∧ q ∈ M.reserved ∧
      (M.writer.size < q.position + 4 ↔ later = [] ∧ reports = false) ∧
      (M.writer.size < q.position + 4 → st.writer = M.writer) := by
  generalize hcs : before ++ .fill q :: later = cs at h
  cases h with
  | done last hlead hmatches =>
    subst hcs
    obtain ⟨M, hbefore, hmem, hlong⟩ := hlead.fill
    exact ⟨M, hbefore, hmem, by simp [hlong], fun hshort => absurd hshort hlong⟩
  | fault before' q' last heq hlead hreserved hshort hmatches =>
    subst hcs
    -- only the last change can be the one at fault
    rcases List.eq_nil_or_concat later with rfl | ⟨more, c, rfl⟩
    · obtain ⟨rfl, hq⟩ := List.append_inj' heq rfl
      obtain rfl : q = q' := by simpa using hq
      exact ⟨last, hlead, hreserved, by simp [hshort], fun _ => hmatches.writer.symm⟩
    · have hlast : (before ++ .fill q :: more) ++ [c] = before' ++ [.fill q'] := by
        simpa using heq
      obtain ⟨rfl, -⟩ := List.append_inj' hlast rfl
      obtain ⟨M, hbefore, hmem, hlong⟩ := hlead.fill
      exact ⟨M, hbefore, hmem, by simp [hlong], fun hshort => absurd hshort hlong⟩

theorem Ends.after (h : L.Leads cs M) (hends : M.Ends ds st reports) :
    L.Ends (cs ++ ds) st reports := by
  cases hends with
  | done last hlead hmatches => exact .done last (h.append hlead) hmatches
  | fault before q last heq hlead hreserved hshort hmatches =>
    subst heq
    rw [← List.append_assoc]
    exact .fault (cs ++ before) q last rfl (h.append hlead) hreserved hshort hmatches

theorem Ends.followedBy {α : Type} {ran : WriterRun α} (h : L.Ends cs ran.state ran.report.isSome)
    (hfault : ran.report = none → st = ran.state ∧ reports = false)
    (hgoes : ∀ report M, ran.report = some report → L.Leads cs M → M.Matches ran.state →
      M.Ends ds st reports) :
    L.Ends (cs ++ ran.followedBy ds) st reports := by
  unfold WriterRun.followedBy
  generalize hok : ran.report.isSome = ok at h
  cases h with
  | done last hlead hmatches =>
    obtain ⟨report, hreport⟩ := Option.isSome_iff_exists.1 hok
    exact (hgoes report last hreport hlead hmatches).after hlead
  | fault before q last heq hlead hreserved hshort hmatches =>
    obtain ⟨rfl, rfl⟩ := hfault (Option.not_isSome_iff_eq_none.1 (by simp [hok]))
    rw [if_neg Bool.false_ne_true, List.append_nil]
    exact .fault before q last heq hlead hreserved hshort hmatches

theorem Ends.filled (h : L.Matches st) (hp : p ∈ L.reserved)
    (report : List UInt8 → WriterReport) :
    L.Ends [.fill p] (st.filled p report).state (st.filled p report).report.isSome := by
  unfold WriterState.filled
  cases hfill : st.writer.fill? p with
  | none =>
    have hshort := Writer.fill?_eq_none.1 hfill
    exact .fault [] p L rfl .nil hp (h.writer ▸ hshort) h
  | some w =>
    obtain ⟨writer, reserved⟩ := L
    obtain rfl : writer = st.writer := h.writer
    exact .done ⟨w, reserved⟩ (.cons (.fill hp hfill) .nil) ⟨rfl, h.placeholders⟩

end Ledger

namespace WriterStep

mutual

/-- What a step does to the buffer, change by change, up to the first fault. -/
def changes : WriterStep → WriterState → List WriterChange
  | put s v, _ => [.append (s.form v)]
  | count n, _ => [.append (Writer.lengthBytes n)]
  | fieldIndex index, _ => [.append [index]]
  | endFields, _ => [.append [0]]
  | clear, _ => [.clear]
  | reserve, _ => [.reserve]
  | fill number, st => (st.placeholders[number]?).toList.map .fill
  | message body, st =>
      let (p, w) := st.writer.reserve
      let ran := runBody body ⟨w, st.placeholders⟩
      .reserve :: (changesBody body ⟨w, st.placeholders⟩ ++ ran.followedBy [.fill p])

def changesBody : List WriterStep → WriterState → List WriterChange
  | [], _ => []
  | step :: rest, st =>
      let ran := step.run st
      step.changes st ++ ran.followedBy (changesBody rest ran.state)

end

mutual

/-- How many placeholders a step sets aside by hand. -/
def reserves : WriterStep → Nat
  | reserve => 1
  | message body => reservesBody body
  | _ => 0

def reservesBody : List WriterStep → Nat
  | [] => 0
  | step :: rest => step.reserves + reservesBody rest

end

mutual

/-- Only placeholders that were set aside before are filled, so many of them at first. -/
def orderly (known : Nat) : WriterStep → Bool
  | fill number => number < known
  | message body => orderlyBody known body
  | _ => true

def orderlyBody (known : Nat) : List WriterStep → Bool
  | [] => true
  | step :: rest => step.orderly known && orderlyBody (known + step.reserves) rest

end

/-- A step that does not clear the buffer. -/
def keeps : WriterStep → Bool
  | clear => false
  | _ => true

section Trace

open Ledger

variable {L : Ledger} {st : WriterState}

theorem ends_written {write : Writer → Writer} {bytes : List UInt8}
    (h : Writer.Appends write bytes) (hL : L.Matches st) :
    L.Ends [.append bytes] (st.written (write st.writer)).state true := by
  obtain ⟨w, reserved⟩ := L
  obtain rfl : w = st.writer := hL.writer
  exact .done _ (.cons (.append bytes) .nil) ⟨(h st.writer).symm, hL.placeholders⟩

theorem filled_placeholders (st : WriterState) (p : Placeholder)
    (report : List UInt8 → WriterReport) :
    (st.filled p report).state.placeholders = st.placeholders := by
  unfold WriterState.filled
  split <;> rfl

mutual

theorem run_reserves (step : WriterStep) (st : WriterState) (h : (step.run st).report.isSome) :
    (step.run st).state.placeholders.length = st.placeholders.length + step.reserves := by
  cases step with
  | put | count | fieldIndex | endFields | clear => rfl
  | reserve => simp [run, reserves]
  | fill number =>
    unfold run
    split
    · rw [filled_placeholders]
      rfl
    · rfl
  | message body =>
    have hbody := runBody_reserves body ⟨st.writer.reserve.2, st.placeholders⟩
    simp only [run] at h ⊢
    cases hreports : (runBody body ⟨st.writer.reserve.2, st.placeholders⟩).report with
    | none => simp [hreports] at h
    | some steps =>
      rw [hreports] at hbody
      dsimp only
      rw [filled_placeholders]
      exact hbody rfl

theorem runBody_reserves (steps : List WriterStep) (st : WriterState)
    (h : (runBody steps st).report.isSome) :
    (runBody steps st).state.placeholders.length =
      st.placeholders.length + reservesBody steps := by
  cases steps with
  | nil => rfl
  | cons step rest =>
    have hstep := run_reserves step st
    simp only [runBody] at h ⊢
    cases hreport : (step.run st).report with
    | none => simp [hreport] at h
    | some report =>
      simp only [hreport, Option.isSome_map] at h
      rw [hreport] at hstep
      dsimp only
      rw [runBody_reserves rest _ h, hstep rfl, reservesBody, Nat.add_assoc]

end

mutual

/-- The changes of a step, done one after another, are what its run does. -/
theorem run_ends (step : WriterStep) (st : WriterState) (L : Ledger) (hL : L.Matches st)
    (h : step.orderly st.placeholders.length) :
    L.Ends (step.changes st) (step.run st).state (step.run st).report.isSome := by
  cases step with
  | put s v => exact ends_written (s.appends_put v) hL
  | count n => exact ends_written (fun _ => rfl) hL
  | fieldIndex index => exact ends_written (fun _ => rfl) hL
  | endFields => exact ends_written (fun _ => rfl) hL
  | clear => exact .done ⟨.empty, L.reserved⟩ (.cons .clear .nil) ⟨rfl, hL.placeholders⟩
  | reserve =>
    obtain ⟨w, reserved⟩ := L
    obtain rfl : w = st.writer := hL.writer
    refine .done _ (.cons .reserve .nil) ⟨rfl, fun p hp => ?_⟩
    exact List.mem_append.2 ((List.mem_append.1 hp).imp_left (hL.placeholders p))
  | fill number =>
    have hnumber : number < st.placeholders.length := by simpa [orderly] using h
    have hp := hL.placeholders _ (List.getElem_mem hnumber)
    have hget := List.getElem?_eq_getElem hnumber
    simp only [run, changes, hget]
    exact .filled hL hp _
  | message body =>
    obtain ⟨w, reserved⟩ := L
    obtain rfl : w = st.writer := hL.writer
    have hopen : Leads ⟨st.writer, reserved⟩ [.reserve]
        ⟨st.writer.reserve.2, reserved ++ [st.writer.reserve.1]⟩ := .cons .reserve .nil
    have hbody := runBody_ends body ⟨st.writer.reserve.2, st.placeholders⟩
      ⟨st.writer.reserve.2, reserved ++ [st.writer.reserve.1]⟩
      ⟨rfl, fun p hp => List.mem_append_left _ (hL.placeholders p hp)⟩ (by simpa [orderly] using h)
    refine Ends.after hopen (hbody.followedBy (fun hfault => ?_) fun steps M hsteps hlead hM => ?_)
    · simp [run, hfault]
    · have hown : st.writer.reserve.1 ∈ M.reserved :=
        hlead.mem_reserved (List.mem_append_right _ (List.mem_singleton_self _))
      simp only [run, hsteps]
      exact .filled hM hown _

theorem runBody_ends (steps : List WriterStep) (st : WriterState) (L : Ledger)
    (hL : L.Matches st) (h : orderlyBody st.placeholders.length steps) :
    L.Ends (changesBody steps st) (runBody steps st).state (runBody steps st).report.isSome := by
  cases steps with
  | nil => exact .done L .nil hL
  | cons step rest =>
    obtain ⟨hstep, hrest⟩ : step.orderly st.placeholders.length ∧
        orderlyBody (st.placeholders.length + step.reserves) rest := by
      simpa [orderlyBody] using h
    have hends := run_ends step st L hL hstep
    refine hends.followedBy (fun hfault => ?_) fun report M hreport hlead hM => ?_
    · simp [runBody, hfault]
    · have hcount := run_reserves step st (by simp [hreport])
      have hothers := runBody_ends rest (step.run st).state M hM (by rwa [hcount])
      simpa only [runBody, hreport, Option.isSome_map] using hothers

end

mutual

theorem clear_notMem_changes (step : WriterStep) (st : WriterState) (h : step.all keeps) :
    .clear ∉ step.changes st := by
  cases step with
  | put | count | fieldIndex | endFields | reserve => simp [changes]
  | clear => cases h
  | fill number => simp [changes]
  | message body =>
    have hbody := clear_notMem_changesBody body ⟨st.writer.reserve.2, st.placeholders⟩
      (by simpa [all, keeps] using h)
    rw [changes, List.mem_cons, List.mem_append, not_or, not_or]
    exact ⟨nofun, hbody, WriterRun.notMem_followedBy (by simp)⟩

theorem clear_notMem_changesBody (steps : List WriterStep) (st : WriterState)
    (h : allBody keeps steps) : .clear ∉ changesBody steps st := by
  cases steps with
  | nil => simp [changesBody]
  | cons step rest =>
    obtain ⟨hstep, hrest⟩ : step.all keeps ∧ allBody keeps rest := by
      simpa [allBody] using h
    have hfirst := clear_notMem_changes step st hstep
    have hothers := clear_notMem_changesBody rest (step.run st).state hrest
    rw [changesBody, List.mem_append, not_or]
    exact ⟨hfirst, WriterRun.notMem_followedBy hothers⟩

end

end Trace

/-- Placeholders can be filled in any order. Without clearing, no run is at fault, and at every
moment of it all places that were set aside are apart, each can be filled, with the effect on its
own four bytes alone, and any two in either order; from one moment to a later one no byte outside of
them changes. Even with clearing, the only fault is a fill of a place that the buffer does not reach
to the end of, and it leaves the buffer as it was. -/
theorem placeholders_safe (program : List WriterStep) :
    (∀ start : Writer, orderlyBody 0 program → allBody keeps program →
      Schema.FitsWord (runBody program ⟨start, []⟩).state.writer.size →
      (runBody program ⟨start, []⟩).report.isSome ∧
        ∃ last, Ledger.Leads ⟨start, []⟩ (changesBody program ⟨start, []⟩) last ∧
          last.writer = (runBody program ⟨start, []⟩).state.writer ∧
          ∀ before middle later,
            changesBody program ⟨start, []⟩ = before ++ (middle ++ later) →
            ∃ L M, Ledger.Leads ⟨start, []⟩ before L ∧ L.Leads middle M ∧ M.Leads later last ∧
              L.Safe ∧ L.Keeps M) ∧
      ∀ st : WriterState, orderlyBody st.placeholders.length program →
        Ledger.Ends ⟨st.writer, st.placeholders⟩ (changesBody program st)
            (runBody program st).state (runBody program st).report.isSome ∧
          ∀ before q later, changesBody program st = before ++ .fill q :: later →
            ∃ L, Ledger.Leads ⟨st.writer, st.placeholders⟩ before L ∧
              (Schema.FitsWord L.writer.size →
                (L.writer.guardedFill q = none ↔ L.writer.size < q.position + 4)) ∧
              (L.writer.size < q.position + 4 ↔
                later = [] ∧ (runBody program st).report = none) ∧
              (L.writer.size < q.position + 4 →
                (runBody program st).state.writer = L.writer) := by
  constructor
  · intro start horderly hkeeps hfits
    have hstart : Ledger.Sound ⟨start, []⟩ := ⟨nofun, .nil⟩
    have hclear := clear_notMem_changesBody program ⟨start, []⟩ hkeeps
    have hends := runBody_ends program ⟨start, []⟩ ⟨start, []⟩ ⟨rfl, nofun⟩ horderly
    obtain ⟨hreports, last, hlead, hmatches⟩ := hends.done_of_sound hclear hstart
    refine ⟨hreports, last, hlead, hmatches.writer, fun before middle later heq => ?_⟩
    rw [heq] at hlead hclear
    obtain ⟨L, hbefore, hrest⟩ := hlead.split
    obtain ⟨M, hmiddle, hlater⟩ := hrest.split
    simp only [List.mem_append, not_or] at hclear
    obtain ⟨hL, -⟩ := hbefore.keeps hclear.1 hstart
    obtain ⟨hM, hLM⟩ := hmiddle.keeps hclear.2.1 hL
    have hsize : L.writer.size ≤ last.writer.size :=
      Nat.le_trans hLM.size (hlater.keeps hclear.2.2 hM).2.size
    rw [← hmatches.writer] at hfits
    exact ⟨L, M, hbefore, hmiddle, hlater, hL.safe (Nat.lt_of_le_of_lt hsize hfits), hLM⟩
  · intro st horderly
    have hends := runBody_ends program st ⟨st.writer, st.placeholders⟩ ⟨rfl, fun _ => id⟩ horderly
    refine ⟨hends, fun before q later heq => ?_⟩
    rw [heq] at hends
    obtain ⟨L, hlead, -, hshort, hunchanged⟩ := hends.fill
    refine ⟨L, hlead, fun hfits => ?_, by simpa using hshort, hunchanged⟩
    rw [Writer.guardedFill_eq hfits, Writer.fill?_eq_none]

/-- Two placeholders behind a byte, filled in the order in which they were set aside, the first of
them within a message that comes after both; and a fill after the buffer was cleared. -/
theorem placeholders_safe_crossed :
    let crossed := [reserve, fieldIndex 1, reserve, message [endFields, fill 0], fill 1]
    let cleared := [reserve, clear, endFields, fill 0]
    (orderlyBody 0 crossed ∧ allBody keeps crossed ∧
        Schema.FitsWord (runBody crossed ⟨⟨[0xee]⟩, []⟩).state.writer.size ∧
        (runBody crossed ⟨⟨[0xee]⟩, []⟩).report.isSome ∧
        (runBody crossed ⟨⟨[0xee]⟩, []⟩).state.writer.bytes =
          [0xee, 10, 0, 0, 0, 1, 5, 0, 0, 0, 1, 0, 0, 0, 0]) ∧
      orderlyBody 0 cleared ∧ (runBody cleared ⟨⟨[0xee]⟩, []⟩).report = none ∧
        (runBody cleared ⟨⟨[0xee]⟩, []⟩).state.writer.bytes = [0] ∧
        Ledger.Ends ⟨⟨[0xee]⟩, []⟩ [.reserve, .clear, .append [0], .fill ⟨1⟩]
          (runBody cleared ⟨⟨[0xee]⟩, []⟩).state false := by
  have horderly : orderlyBody 0
      [reserve, fieldIndex 1, reserve, message [endFields, fill 0], fill 1] := by decide
  have hkeeps : allBody keeps
      [reserve, fieldIndex 1, reserve, message [endFields, fill 0], fill 1] := by decide
  have hfits : Schema.FitsWord (runBody
      [reserve, fieldIndex 1, reserve, message [endFields, fill 0], fill 1]
      ⟨⟨[0xee]⟩, []⟩).state.writer.size := by decide
  have horderly' : orderlyBody 0 [reserve, clear, endFields, fill 0] := by decide
  have hreports := ((placeholders_safe _).1 ⟨[0xee]⟩ horderly hkeeps hfits).1
  have hends := ((placeholders_safe _).2 ⟨⟨[0xee]⟩, []⟩ horderly').1
  exact ⟨⟨horderly, hkeeps, hfits, hreports, by rfl⟩, horderly', by rfl, by rfl, hends⟩

end WriterStep
end WireFormat
