import WireFormat.Proofs.IndexedWalk
import WireFormat.Proofs.Phases

/-! Limits only refuse. A read comes upon lengths: the counts in front of texts, bytes, arrays and
maps, and the lengths in front of message bodies. Under tighter limits it has the same outcome as
long as they admit all of these, and otherwise it is refused at the first one that they do not
admit. -/
namespace WireFormat

variable {α β : Type}

inductive Length
  | array (n : Nat)
  | message (n : Nat)
  deriving DecidableEq, Repr

namespace ReadLimits

def admits (limits : ReadLimits) : Length → Bool
  | .array n => n ≤ limits.arrayLength
  | .message n => n ≤ limits.messageLength

/-- The error of a read that comes upon a length which the limits do not admit. -/
def refusal (limits : ReadLimits) : Length → DecodeError
  | .array n => .arrayTooLong n limits.arrayLength
  | .message n => .bodyTooLong n limits.messageLength

/-- Limits that admit no more than others. -/
instance : LE ReadLimits :=
  ⟨fun tight loose =>
    tight.messageLength ≤ loose.messageLength ∧ tight.arrayLength ≤ loose.arrayLength⟩

instance (tight loose : ReadLimits) : Decidable (tight ≤ loose) :=
  inferInstanceAs (Decidable (_ ∧ _))

end ReadLimits

/-- The lengths that a read comes upon from a position of an input, in order. -/
abbrev Met := Input → Nat → List Length

namespace Met

def none : Met := fun _ _ => []

/-- The length in the next four bytes. -/
def word (kind : Nat → Length) : Met := fun input p =>
  (Decoder.word32.run input p).thereafter fun x _ => [kind x.toNat]

/-- The lengths of a read, and of what comes after it. -/
def andThen (d : Decoder α) (met : Met) (more : α → Met) : Met := fun input p =>
  met input p ++ (d.run input p).thereafter fun a q => more a input q

def times (d : Decoder α) (met : Met) : Nat → Met
  | 0 => none
  | n + 1 => andThen d met fun _ => times d met n

theorem andThen_none (d : Decoder α) : andThen d none (fun _ => none) = none := by
  funext input p
  unfold andThen none Step.thereafter
  split <;> rfl

theorem times_none (d : Decoder α) (n : Nat) : times d none n = none := by
  induction n with
  | zero => rfl
  | succ n ih => rw [times, ih, andThen_none]

/-- The lengths of a field, which is read only where the body has bytes left. -/
def inside (f : Frame) (met : Met) : Met := fun input p =>
  if p < f.stop then met input p else []

/-- The lengths of indexed fields, of at most so many rounds. -/
def rounds (known : UInt8 → Option (Frame → Decoder α)) (met : UInt8 → Frame → Met) :
    Nat → Frame → Met
  | 0, _ => none
  | fuel + 1, f => andThen f.nextIndex none fun index =>
      match index with
      | .none => none
      | some i =>
          match known i with
          | .none => none
          | some read => andThen (read f) (met i f) fun _ => rounds known met fuel f

end Met

namespace Schema

mutual

def met : Schema → Met
  | scalar _ => .none
  | text => .word .array
  | bytes => .word .array
  | array item => .andThen Decoder.arrayLength (.word .array) (.times (decode item) (met item))
  | map _ key value =>
      .andThen Decoder.arrayLength (.word .array)
        (.times (entry (decode key) (decode value))
          (.andThen (decode key) (met key) fun _ => met value))
  | record first rest => .andThen (decode first) (met first) fun _ => metAll rest
  | message fields => .andThen Decoder.openFrame (.word .message) (metFields fields)
  | indexed fields => .andThen Decoder.openFrame (.word .message) fun f input p =>
      Met.rounds (fun i => decodeIndexed fields (i.toNat - 1))
        (fun i => metIndexed fields (i.toNat - 1)) (f.remaining p + 1) f input p

def metAll : List Schema → Met
  | [] => .none
  | s :: rest => .andThen (decode s) (met s) fun _ => metAll rest

def metFields : List Schema → Frame → Met
  | [], _ => .none
  | s :: rest, f => .andThen (f.field (decode s)) (.inside f (met s)) fun _ => metFields rest f

def metIndexed : List Schema → Nat → Frame → Met
  | [], _, _ => .none
  | s :: _, 0, f => .inside f (met s)
  | _ :: rest, n + 1, f => metIndexed rest n f

end

end Schema

/-- How a read goes under tighter limits, `here`, when under looser ones, `there`, it comes upon
these lengths. -/
inductive UnderLimits (limits : ReadLimits) (lengths : List Length) (here there : Step α) : Prop
  | same (hadmits : ∀ l ∈ lengths, limits.admits l) (heq : here = there)
  | refused (l : Length) (hfirst : lengths.find? (!limits.admits ·) = some l)
      (hfails : here.Fails (limits.refusal l))

/-- Looser limits do not change the read, and tighter ones only refuse lengths that it comes upon.
-/
def Decoder.Limited (d : Decoder α) (met : Met) : Prop :=
  ∀ (bytes : List UInt8) (tight loose : ReadLimits) (p : Nat), tight ≤ loose →
    UnderLimits tight (met ⟨bytes, loose⟩ p) (d.run ⟨bytes, tight⟩ p) (d.run ⟨bytes, loose⟩ p)

namespace UnderLimits

variable {limits : ReadLimits} {lengths more : List Length} {here there : Step α}

theorem refusal_not_truncation (limits : ReadLimits) (l : Length) :
    (limits.refusal l).isTruncation = false := by
  cases l <;> rfl

theorem of_nil (h : here = there) : UnderLimits limits [] here there :=
  .same nofun h

/-- What is done to both outcomes must let refusals through. -/
theorem apply (change change' : Step α → Step β) (h : UnderLimits limits lengths here there)
    (hsame : ∀ s, change s = change' s)
    (hfails : ∀ s l, s.Fails (limits.refusal l) → (change s).Fails (limits.refusal l)) :
    UnderLimits limits lengths (change here) (change' there) := by
  cases h with
  | same hadmits heq => exact .same hadmits (heq ▸ hsame here)
  | refused l hfirst hfailed => exact .refused l hfirst (hfails here l hfailed)

theorem andThen {next next' : α → Nat → Step β} {list : α → Nat → List Length}
    (h : UnderLimits limits lengths here there)
    (hnext : ∀ a q, UnderLimits limits (list a q) (next a q) (next' a q)) :
    UnderLimits limits (lengths ++ there.thereafter list) (here.andThen next)
      (there.andThen next') := by
  cases h with
  | same hadmits heq =>
    subst heq
    have hnone : lengths.find? (!limits.admits ·) = none := by
      simpa using hadmits
    obtain ⟨e | a, q, events⟩ := here
    · exact .same (by simpa [Step.thereafter] using hadmits) rfl
    · cases hnext a q with
      | same hmore heq =>
        refine .same ?_ (by rw [Step.andThen_ok, Step.andThen_ok, heq])
        simpa [Step.thereafter, or_imp, forall_and] using ⟨hadmits, hmore⟩
      | refused l hfirst hfails =>
        refine .refused l ?_ hfails
        rw [List.find?_append, hnone]
        exact hfirst
  | refused l hfirst hfails =>
    refine .refused l ?_ (Step.andThen_fails.2 (.inl hfails))
    rw [List.find?_append, hfirst, Option.some_or]

theorem same_of_yields (h : UnderLimits limits lengths here there) {a : α} {q : Nat}
    (ha : here.Yields a q) : (∀ l ∈ lengths, limits.admits l) ∧ here = there := by
  cases h with
  | same hadmits heq => exact ⟨hadmits, heq⟩
  | refused l hfirst hfails => exact absurd hfails ha.not_fails

/-- A refusal names a length over the limit. -/
theorem refused_over (h : UnderLimits limits lengths here there) :
    here = there ∨
      (∃ n, limits.arrayLength < n ∧ here.Fails (.arrayTooLong n limits.arrayLength)) ∨
      ∃ n, limits.messageLength < n ∧ here.Fails (.bodyTooLong n limits.messageLength) := by
  cases h with
  | same hadmits heq => exact .inl heq
  | refused l hfirst hfails =>
    have hover := List.find?_some hfirst
    cases l with
    | array n => exact .inr (.inl ⟨n, by simpa [ReadLimits.admits] using hover, hfails⟩)
    | message n => exact .inr (.inr ⟨n, by simpa [ReadLimits.admits] using hover, hfails⟩)

end UnderLimits

namespace Decoder

variable {d : Decoder α} {met : Met}

/-- A read that does not look at the limits. -/
theorem limited_of_free (h : ∀ bytes limits limits' p,
    d.run ⟨bytes, limits⟩ p = d.run ⟨bytes, limits'⟩ p) : d.Limited .none :=
  fun bytes _ _ p _ => .of_nil (h bytes _ _ p)

theorem Limited.congr {met' : Met} (h : d.Limited met) (hmet : met' = met) : d.Limited met' :=
  hmet ▸ h

theorem limited_pure (a : α) : (pure a : Decoder α).Limited .none :=
  limited_of_free fun _ _ _ _ => rfl

theorem Limited.bind {next : α → Decoder β} {more : α → Met} (h : d.Limited met)
    (hnext : ∀ a, (next a).Limited (more a)) :
    (d >>= next).Limited (.andThen d met more) :=
  fun bytes _ _ p hle => (h bytes _ _ p hle).andThen fun a q => hnext a bytes _ _ q hle

theorem Limited.bind_free {next : α → Decoder β} (h : d.Limited met)
    (hnext : ∀ a, (next a).Limited .none) : (d >>= next).Limited met := by
  refine (h.bind hnext).congr (funext fun input => funext fun p => ?_)
  unfold Met.andThen Met.none Step.thereafter
  split <;> exact (List.append_nil _).symm

theorem Limited.map (h : d.Limited met) (g : α → β) :
    (do return g (← d) : Decoder β).Limited met :=
  h.bind_free fun _ => limited_pure _

theorem Limited.restoring (h : d.Limited met) : d.restoring.Limited met := by
  intro bytes tight loose p hle
  have hrun := h bytes tight loose p hle
  have hfails (l : Length) := @restoring_fails _ ⟨bytes, tight⟩ p (tight.refusal l) d
  cases hrun with
  | same hadmits heq => exact .same hadmits (by simp only [Decoder.restoring, heq])
  | refused l hfirst hfailed => exact .refused l hfirst ((hfails l).2 hfailed)

theorem Limited.times (h : d.Limited met) (n : Nat) : (d.times n).Limited (.times d met n) := by
  induction n with
  | zero => exact limited_pure []
  | succ n ih => exact h.bind fun a => ih.map _

theorem limited_position : position.Limited .none :=
  limited_of_free fun _ _ _ _ => rfl

theorem limited_slice (count : Nat) : (slice count).Limited .none :=
  limited_of_free fun _ _ _ _ => rfl

theorem limited_block (count : Nat) : (block count).Limited .none :=
  limited_of_free fun _ _ _ _ => rfl

/-- A length that is looked at against the limits as soon as it is read. -/
theorem limited_word {kind : Nat → Length} {next : UInt32 → Decoder α}
    (hnext : ∀ (x : UInt32) bytes (tight loose : ReadLimits) q, tight ≤ loose →
      UnderLimits tight [kind x.toNat] ((next x).run ⟨bytes, tight⟩ q)
        ((next x).run ⟨bytes, loose⟩ q)) :
    (word32 >>= next).Limited (.word kind) := by
  intro bytes tight loose p hle
  have hword : UnderLimits tight [] (word32.run ⟨bytes, tight⟩ p) (word32.run ⟨bytes, loose⟩ p) :=
    .of_nil rfl
  exact hword.andThen fun x q => hnext x bytes tight loose q hle

theorem limited_arrayLength : arrayLength.Limited (.word .array) := by
  refine (limited_word fun x bytes tight loose q hle => ?_).restoring
  simp only [run_bind, Decoder.input, Step.andThen_ok]
  by_cases hx : x.toNat ≤ tight.arrayLength
  · refine .same (by simpa [ReadLimits.admits] using hx) ?_
    rw [if_pos hx, if_pos (hx.trans hle.2)]
    rfl
  · refine .refused (.array x.toNat) (by simpa [ReadLimits.admits] using hx) ?_
    rw [if_neg hx]
    rfl

theorem limited_messageLength : messageLength.Limited (.word .message) := by
  refine limited_position.bind fun start => limited_word fun x bytes tight loose q hle => ?_
  simp only [run_bind, Decoder.position, Decoder.input, Step.andThen_ok]
  by_cases hx : tight.messageLength < x.toNat
  · refine .refused (.message x.toNat) (by simpa [ReadLimits.admits] using hx) ?_
    rw [if_pos hx]
    rfl
  · refine .same (by simpa [ReadLimits.admits] using hx) ?_
    rw [if_neg hx, if_neg fun h => hx (hle.1.trans_lt h)]
    by_cases hbody : bytes.length - q < x.toNat
    · rw [Input.remaining, Input.remaining, if_pos hbody]
      rfl
    · rw [Input.remaining, Input.remaining, if_neg hbody]
      rfl

theorem limited_byteArray : byteArray.Limited (.word .array) :=
  (limited_arrayLength.bind_free limited_slice).restoring

theorem limited_text : text.Limited (.word .array) := by
  refine (limited_arrayLength.bind_free fun length => ?_).restoring
  refine limited_position.bind_free fun start => (limited_slice length).bind_free fun payload => ?_
  split <;> exact limited_of_free fun _ _ _ _ => rfl

theorem limited_openFrame : openFrame.Limited (.word .message) :=
  limited_messageLength.bind_free fun _ => limited_position.map _

end Decoder

namespace Frame

variable (f : Frame) {d : Decoder α} {met : Met}

theorem passed_refusal (limits : ReadLimits) (l : Length) :
    f.passed (limits.refusal l) = limits.refusal l :=
  passed_of_not_truncation (UnderLimits.refusal_not_truncation limits l)

theorem limited_reading (h : d.Limited met) : (f.reading d).Limited met := by
  intro bytes tight loose p hle
  refine UnderLimits.apply (f.leave ⟨bytes, tight⟩) (f.leave ⟨bytes, loose⟩)
    (h bytes tight loose p hle) (fun s => rfl) fun s l hl => ?_
  exact f.leave_fails.2 (.inl ⟨_, hl, f.passed_refusal tight l⟩)

/-- Whether there is a field at all does not depend on the limits. -/
theorem limited_field (h : d.Limited met) : (f.field d).Limited (.inside f met) := by
  intro bytes tight loose p hle
  rcases Nat.lt_trichotomy p f.stop with hp | hp | hp
  · have hread := (f.limited_reading h).map some bytes tight loose p hle
    simpa [Met.inside, hp, field, enter, checkBounds, exhausted, Decoder.position,
      Nat.not_le.2 hp, Nat.not_lt.2 hp.le] using hread
  · rw [run_field_exhausted hp, run_field_exhausted hp, Met.inside, if_neg hp.not_lt]
    exact .of_nil rfl
  · rw [run_field_overrun hp, run_field_overrun hp, Met.inside, if_neg hp.not_gt]
    exact .of_nil rfl

theorem limited_nextIndex : f.nextIndex.Limited .none := by
  rw [nextIndex_eq]
  refine ((f.limited_field ((Decoder.limited_block 1).map _)).map _).congr ?_
  funext input p
  simp [Met.inside, Met.none]

theorem finish_free (bytes : List UInt8) (limits limits' : ReadLimits) (p : Nat) :
    f.finish.run ⟨bytes, limits⟩ p = f.finish.run ⟨bytes, limits'⟩ p := by
  unfold finish
  refine congrArg (Step.andThen (f.checkBounds.run ⟨bytes, limits⟩ p)) (funext fun _ =>
    funext fun q => ?_)
  by_cases hq : 0 < f.remaining q <;>
    simp only [Decoder.position, Decoder.run_bind, Step.andThen_ok, hq, if_true, if_false] <;> rfl

theorem limited_rounds {known : UInt8 → Option (Frame → Decoder α)} {met : UInt8 → Frame → Met}
    (hknown : ∀ i read, known i = some read → (read f).Limited (met i f)) (fuel : Nat) :
    (rounds known fuel f).Limited (.rounds known met fuel f) := by
  induction fuel with
  | zero => exact Decoder.limited_pure []
  | succ fuel ih =>
    refine f.limited_nextIndex.bind fun index => ?_
    cases index with
    | none => exact Decoder.limited_pure []
    | some i =>
      dsimp only [Option.bind_some]
      cases hi : known i with
      | none => exact Decoder.limited_pure []
      | some read => exact (hknown i read hi).bind fun a => ih.map _

end Frame

theorem Decoder.limited_message {body : Frame → Decoder α} {met : Frame → Met}
    (hbody : ∀ f, (body f).Limited (met f)) :
    (message body).Limited (.andThen openFrame (.word .message) met) := by
  refine limited_openFrame.bind fun f bytes tight loose p hle => ?_
  refine UnderLimits.apply (f.close ⟨bytes, tight⟩) (f.close ⟨bytes, loose⟩)
    (hbody f bytes tight loose p hle) (fun s => ?_) fun s l hl => ?_
  · simp only [Frame.close, f.finish_free bytes tight loose]
  · exact f.close_fails.2 (.inl ⟨_, hl, f.passed_refusal tight l⟩)

theorem Scalar.limited_decode (s : Scalar) : s.decode.Limited .none := by
  cases s <;> exact Decoder.limited_of_free fun _ _ _ _ => rfl

namespace Schema

theorem limited_entry {key : Decoder α} {value : Decoder β} {metKey metValue : Met}
    (hkey : key.Limited metKey) (hvalue : value.Limited metValue) :
    (entry key value).Limited (.andThen key metKey fun _ => metValue) :=
  hkey.bind fun _ => hvalue.map _

/-- Bytes taken in one piece come upon no more lengths than one by one. -/
theorem limited_items {item : Schema} {d : Decoder item.Val} (hd : d.Limited item.met)
    (count : Nat) : (items item d count).Limited (.times d item.met count) := by
  unfold items
  split
  · refine (Decoder.limited_slice count).congr ?_
    unfold met
    exact Met.times_none _ count
  · exact hd.times count

section Fields

variable {fields : List Schema}

theorem limited_decodeAll (h : ∀ s ∈ fields, s.decode.Limited s.met) :
    (decodeAll fields).Limited (metAll fields) := by
  induction fields with
  | nil => exact Decoder.limited_pure ()
  | cons s rest ih =>
    exact limited_entry (h s List.mem_cons_self) (ih fun t ht => h t (List.mem_cons_of_mem s ht))

theorem limited_decodeFields (h : ∀ s ∈ fields, s.decode.Limited s.met) (f : Frame) :
    (decodeFields fields f).Limited (metFields fields f) := by
  induction fields with
  | nil => exact Decoder.limited_pure ()
  | cons s rest ih =>
    have hrest := ih fun t ht => h t (List.mem_cons_of_mem s ht)
    exact limited_entry (f.limited_field (h s List.mem_cons_self)) hrest

theorem limited_decodeIndexed (h : ∀ s ∈ fields, s.decode.Limited s.met) {n : Nat}
    {read : Frame → Decoder (Options fields → Options fields)}
    (hread : decodeIndexed fields n = some read) (f : Frame) :
    (read f).Limited (metIndexed fields n f) := by
  induction fields generalizing n with
  | nil => cases hread
  | cons s rest ih =>
    cases n with
    | zero =>
      obtain rfl := Option.some.inj hread
      exact (f.limited_field (h s List.mem_cons_self)).map _
    | succ n =>
      obtain ⟨read', hread', rfl⟩ := Option.map_eq_some_iff.1 hread
      exact (ih (fun t ht => h t (List.mem_cons_of_mem s ht)) hread').map _

end Fields

theorem limited_decode (s : Schema) : s.decode.Limited s.met := by
  induction s using Schema.induct with
  | scalar s => exact s.limited_decode
  | text => exact Decoder.limited_text
  | bytes => exact Decoder.limited_byteArray
  | array item ih => exact Decoder.limited_arrayLength.bind (limited_items ih)
  | map kind key value ihkey ihvalue =>
    have hentries := (limited_entry ihkey ihvalue).times
    cases kind <;> exact Decoder.limited_arrayLength.bind fun count => (hentries count).map _
  | record first rest ihfirst ihrest => exact limited_entry ihfirst (limited_decodeAll ihrest)
  | message fields ih => exact (Decoder.limited_message (limited_decodeFields ih)).map _
  | indexed fields ih =>
    refine (Decoder.limited_message fun f bytes tight loose p hle => ?_).map _
    rw [Frame.run_indexedFields, Frame.run_indexedFields]
    have hread (i : UInt8) (read : Frame → Decoder (Options fields → Options fields))
        (hi : decodeIndexed fields (i.toNat - 1) = some read) :
        (read f).Limited (metIndexed fields (i.toNat - 1) f) := limited_decodeIndexed ih hi f
    exact f.limited_rounds hread (f.remaining p + 1) bytes tight loose p hle

/-- Limits only refuse. Of two reads, the one under the tighter limits has the outcome of the other,
or it fails with a length over its limit; when it has a value, the other has the same, and all the
lengths on the way are within its limits. The first length on the way that they do not admit
decides. -/
theorem decode_under_limits (s : Schema) (bytes : List UInt8) (p : Nat) {tight loose : ReadLimits}
    (hle : tight ≤ loose) :
    let here := s.decode.run ⟨bytes, tight⟩ p
    let there := s.decode.run ⟨bytes, loose⟩ p
    (here = there ∨ (∃ n, tight.arrayLength < n ∧ here.Fails (.arrayTooLong n tight.arrayLength)) ∨
        ∃ n, tight.messageLength < n ∧ here.Fails (.bodyTooLong n tight.messageLength)) ∧
      (∀ v q, here.Yields v q →
        there = here ∧ ∀ l ∈ s.met ⟨bytes, tight⟩ p, tight.admits l) ∧
      UnderLimits tight (s.met ⟨bytes, loose⟩ p) here there := by
  intro here there
  have hunder : UnderLimits tight (s.met ⟨bytes, loose⟩ p) here there :=
    s.limited_decode bytes tight loose p hle
  refine ⟨?_, fun v q hread => ⟨?_, ?_⟩, hunder⟩
  · exact hunder.refused_over
  · exact (hunder.same_of_yields hread).2.symm
  · have hself := s.limited_decode bytes tight tight p ⟨le_rfl, le_rfl⟩
    exact (hself.same_of_yields hread).1

/-- A message of one array of one text of two bytes, which limits refuse that allow for one byte,
and which goes through under limits that just allow for it. -/
theorem decode_under_limits_text :
    let here (limits : ReadLimits) := (message [.array .text]).decode.run
      ⟨[10, 0, 0, 0, 1, 0, 0, 0, 2, 0, 0, 0, 0x68, 0x69], limits⟩ 0
    ((⟨10, 1⟩ : ReadLimits) ≤ ⟨10, 2⟩ ∧ (here ⟨10, 1⟩).Fails (.arrayTooLong 2 1) ∧
        UnderLimits ⟨10, 1⟩ [.message 10, .array 1, .array 2] (here ⟨10, 1⟩) (here ⟨10, 2⟩)) ∧
      (⟨10, 2⟩ : ReadLimits) ≤ .unbounded ∧ (here ⟨10, 2⟩).Yields (["hi"], ()) 14 ∧
        here .unbounded = here ⟨10, 2⟩ := by
  have htight : (⟨10, 1⟩ : ReadLimits) ≤ ⟨10, 2⟩ := by decide
  have hloose : (⟨10, 2⟩ : ReadLimits) ≤ .unbounded := by decide
  have hmet : (message [.array .text]).met
      ⟨[10, 0, 0, 0, 1, 0, 0, 0, 2, 0, 0, 0, 0x68, 0x69], ⟨10, 2⟩⟩ 0 =
        [.message 10, .array 1, .array 2] := by rfl
  have hread : ((message [.array .text]).decode.run
      ⟨[10, 0, 0, 0, 1, 0, 0, 0, 2, 0, 0, 0, 0x68, 0x69], ⟨10, 2⟩⟩ 0).Yields (["hi"], ()) 14 := by
    constructor <;> rfl
  have hunder := (decode_under_limits (message [.array .text])
    [10, 0, 0, 0, 1, 0, 0, 0, 2, 0, 0, 0, 0x68, 0x69] 0 htight).2.2
  rw [hmet] at hunder
  refine ⟨⟨htight, by rfl, hunder⟩, hloose, hread, ?_⟩
  exact ((decode_under_limits _ _ 0 hloose).2.1 _ _ hread).1

end Schema

end WireFormat
