import WireFormat.Proofs.FrameSuccess

/-! Reads that depend only on the bytes they pass over. `Reads` tells which bytes make a read
succeed, in any surroundings; a read is `Local` when all of its successes are of this kind. -/
namespace WireFormat

variable {α β : Type} {limits : ReadLimits} {w : List UInt8}

namespace Decoder

/-- Wherever the bytes `w` stand in the input, the read takes exactly them and yields `a`. -/
def Reads (d : Decoder α) (limits : ReadLimits) (w : List UInt8) (a : α) : Prop :=
  ∀ front back, (d.run ⟨front ++ (w ++ back), limits⟩ front.length).Yields a
    (front.length + w.length)

/-- Every success is due to the bytes that were passed over, and to no others. -/
def Local (d : Decoder α) : Prop :=
  ∀ limits front rest a q, (d.run ⟨front ++ rest, limits⟩ front.length).Yields a q →
    ∃ w back, rest = w ++ back ∧ front.length + w.length = q ∧ d.Reads limits w a

variable {d : Decoder α} {next : α → Decoder β} {a : α} {b : β}

theorem Reads.readFrom {back : List UInt8} (h : d.Reads .unbounded w a) :
    d.readFrom (w ++ back) = .ok (a, back) :=
  readFrom_eq_ok.2 ⟨w.length, by simpa using h [] back, List.drop_left⟩

/-- At one place only one run of bytes can be read, and only as one value. -/
theorem Reads.unique {u back back' : List UInt8} {a' : α} (h : d.Reads limits w a)
    (h' : d.Reads limits u a') (hbytes : w ++ back = u ++ back') : w = u ∧ a = a' := by
  have hw := h [] back
  rw [hbytes] at hw
  obtain ⟨ha, hlen⟩ := hw.unique (h' [] back')
  exact ⟨List.append_inj_left hbytes (by simpa using hlen), ha⟩

theorem reads_pure : (pure a : Decoder α).Reads limits [] a :=
  fun _ _ => pure_yields.2 ⟨rfl, rfl⟩

theorem reads_pure_iff {b : α} : (pure a : Decoder α).Reads limits w b ↔ w = [] ∧ a = b := by
  constructor
  · intro h
    obtain ⟨hab, hlen⟩ := pure_yields.1 (h [] [])
    exact ⟨List.eq_nil_of_length_eq_zero (by simpa using hlen.symm), hab⟩
  · intro h
    obtain ⟨rfl, rfl⟩ := h
    exact reads_pure

theorem Reads.bind {u : List UInt8} (h : d.Reads limits u a) (hnext : (next a).Reads limits w b) :
    (d >>= next).Reads limits (u ++ w) b := by
  intro front back
  refine bind_yields.2 ⟨a, front.length + u.length, ?_, ?_⟩
  · simpa using h front (w ++ back)
  · simpa [Nat.add_assoc] using hnext (front ++ u) back

theorem Reads.map (h : d.Reads limits w a) (g : α → β) :
    (do return g (← d) : Decoder β).Reads limits w (g a) :=
  fun front back => map_yields.2 ⟨a, h front back, rfl⟩

theorem local_pure (a : α) : (pure a : Decoder α).Local := by
  intro limits front rest b q h
  obtain ⟨rfl, rfl⟩ := pure_yields.1 h
  exact ⟨[], rest, rfl, rfl, reads_pure⟩

theorem Local.bind (hd : d.Local) (hnext : ∀ a, (next a).Local) : (d >>= next).Local := by
  intro limits front rest b q h
  obtain ⟨a, r, ha, hb⟩ := bind_yields.1 h
  obtain ⟨u, rest, rfl, rfl, hu⟩ := hd _ _ _ _ _ ha
  rw [← List.append_assoc, ← List.length_append] at hb
  obtain ⟨w, back, rfl, rfl, hw⟩ := hnext a _ _ _ _ _ hb
  exact ⟨u ++ w, back, by simp, by simp [Nat.add_assoc], hu.bind hw⟩

theorem Local.map (hd : d.Local) (g : α → β) : (do return g (← d) : Decoder β).Local :=
  hd.bind fun a => local_pure (g a)

/-- Reads with the same successes are local together. -/
theorem Local.congr {d' : Decoder α} (hd : d.Local)
    (h : ∀ {input p a q}, (d'.run input p).Yields a q ↔ (d.run input p).Yields a q) :
    d'.Local := by
  intro limits front rest a q ha
  obtain ⟨w, back, hrest, hq, hw⟩ := hd _ _ _ _ _ (h.1 ha)
  exact ⟨w, back, hrest, hq, fun front back => h.2 (hw front back)⟩

/-- What a local read takes first, the rest takes up where it ends. -/
theorem reads_bind_iff (hd : d.Local) (hnext : ∀ a, (next a).Local) :
    (d >>= next).Reads limits w b ↔
      ∃ u v a, w = u ++ v ∧ d.Reads limits u a ∧ (next a).Reads limits v b := by
  constructor
  · intro h
    obtain ⟨a, r, ha, hb⟩ := bind_yields.1 (h [] [])
    obtain ⟨u, rest, hw, rfl, hu⟩ := hd _ _ _ _ _ ha
    rw [hw, ← List.append_assoc, ← List.length_append] at hb
    obtain ⟨v, back, rfl, hlen, hv⟩ := hnext a _ _ _ _ _ hb
    obtain rfl : back = [] := by
      have := congrArg List.length hw
      simp at this hlen
      exact List.eq_nil_of_length_eq_zero (by omega)
    exact ⟨u, v, a, by simpa using hw, hu, hv⟩
  · intro h
    obtain ⟨u, v, a, rfl, hu, hv⟩ := h
    exact hu.bind hv

theorem reads_map_iff (hd : d.Local) {g : α → β} :
    (do return g (← d) : Decoder β).Reads limits w b ↔ ∃ a, d.Reads limits w a ∧ g a = b := by
  constructor
  · intro h
    obtain ⟨u, v, a, rfl, ha, hpure⟩ := (reads_bind_iff hd fun a => local_pure (g a)).1 h
    obtain ⟨rfl, hb⟩ := reads_pure_iff.1 hpure
    exact ⟨a, by rwa [List.append_nil], hb⟩
  · intro h
    obtain ⟨a, ha, rfl⟩ := h
    exact ha.map g

/-- An isolated run of a local read succeeds on a beginning of the bytes. -/
theorem Local.alone_iff (hd : d.Local) {bytes : List UInt8} {q : Nat} :
    (d.run ⟨bytes, limits⟩ 0).Yields a q ↔
      ∃ w back, bytes = w ++ back ∧ w.length = q ∧ d.Reads limits w a := by
  constructor
  · intro h
    simpa using hd limits [] bytes a q h
  · intro h
    obtain ⟨w, back, rfl, rfl, h⟩ := h
    simpa using h [] back

/-- A local read takes exactly the bytes that it takes with nothing around them. -/
theorem Local.reads_iff (hd : d.Local) :
    d.Reads limits w a ↔ (d.run ⟨w, limits⟩ 0).Yields a w.length := by
  constructor
  · intro h
    simpa using h [] []
  · intro h
    obtain ⟨u, back, hw, hlen, hu⟩ := hd.alone_iff.1 h
    have hback := congrArg List.length hw
    rw [List.length_append] at hback
    obtain rfl : back = [] := List.eq_nil_of_length_eq_zero (by omega)
    rwa [hw, List.append_nil]

theorem Local.readFrom_iff (hd : d.Local) {bytes rest : List UInt8} :
    d.readFrom bytes = .ok (a, rest) ↔ ∃ w, bytes = w ++ rest ∧ d.Reads .unbounded w a := by
  constructor
  · intro h
    obtain ⟨q, hrun, hrest⟩ := readFrom_eq_ok.1 h
    obtain ⟨w, back, rfl, rfl, hw⟩ := hd.alone_iff.1 hrun
    rw [List.drop_left] at hrest
    exact ⟨w, by rw [hrest], hw⟩
  · intro h
    obtain ⟨w, rfl, hw⟩ := h
    exact hw.readFrom

theorem reads_slice (limits : ReadLimits) (w : List UInt8) : (slice w.length).Reads limits w w := by
  intro front back
  refine slice_yields.2 ⟨?_, by simp, rfl⟩
  simp [Input.remaining]

theorem local_slice (count : Nat) : (slice count).Local := by
  intro limits front rest a q h
  obtain ⟨hlen, ha, hq⟩ := slice_yields.1 h
  simp only [Input.remaining, List.length_append, List.drop_left] at hlen ha
  subst ha
  have hcount : (rest.take count).length = count := by
    rw [List.length_take]
    omega
  refine ⟨rest.take count, rest.drop count, (List.take_append_drop _ _).symm, ?_, ?_⟩
  · rw [hcount, hq]
  · have h := reads_slice limits (rest.take count)
    rwa [hcount] at h

theorem reads_slice_iff {count : Nat} {u : List UInt8} :
    (slice count).Reads limits w u ↔ w = u ∧ u.length = count := by
  constructor
  · intro h
    obtain ⟨-, hw, hlen⟩ := slice_yields.1 ((local_slice count).reads_iff.1 h)
    obtain rfl : count = w.length := by simpa using hlen
    obtain rfl : w = u := by simpa using hw
    exact ⟨rfl, rfl⟩
  · intro h
    obtain ⟨rfl, rfl⟩ := h
    exact reads_slice limits w

theorem reads_block (limits : ReadLimits) {count : Nat} (v : Vector UInt8 count) :
    (block count).Reads limits v.toList v := by
  intro front back
  exact block_yields.2 ⟨by simp, by simp⟩

theorem local_block (count : Nat) : (block count).Local := by
  intro limits front rest v q h
  obtain ⟨hv, rfl⟩ := block_yields.1 h
  rw [List.drop_left] at hv
  refine ⟨v.toList, rest.drop count, ?_, by simp, reads_block limits v⟩
  rw [← hv, List.take_append_drop]

theorem local_byte : byte.Local := (local_block 1).map _
theorem local_word16 : word16.Local := (local_block 2).map _
theorem local_word32 : word32.Local := (local_block 4).map _
theorem local_word64 : word64.Local := (local_block 8).map _

theorem reads_byte_iff {b : UInt8} : byte.Reads limits w b ↔ w = [b] := by
  constructor
  · intro h
    obtain ⟨v, hv, hb⟩ := map_yields.1 (h [] [])
    obtain ⟨htake, hlen⟩ := block_yields.1 hv
    have hone : v.toList = [v[0]] := by
      obtain ⟨⟨bytes⟩, hsize⟩ := v
      obtain ⟨c, rfl⟩ := List.length_eq_one_iff.1 hsize
      rfl
    have hw : w.take 1 = [b] := by
      rw [← hb, ← hone, ← htake]
      simp
    rwa [List.take_of_length_le (by simpa using Nat.le_of_eq hlen.symm)] at hw
  · intro h
    rw [h]
    exact (reads_block limits #v[b]).map _

theorem local_restoring (hd : d.Local) : d.restoring.Local :=
  hd.congr restoring_yields

theorem local_times (hd : d.Local) (n : Nat) : (d.times n).Local := by
  induction n with
  | zero => exact local_pure []
  | succ n ih => exact hd.bind fun a => ih.map _

theorem local_arrayLength : arrayLength.Local := by
  intro limits front rest n q h
  obtain ⟨x, hx, hn, hlimit⟩ := arrayLength_yields.1 h
  obtain ⟨w, back, rfl, rfl, hw⟩ := local_word32 _ _ _ _ _ hx
  exact ⟨w, back, rfl, rfl, fun front back =>
    arrayLength_yields.2 ⟨x, hw front back, hn, hlimit⟩⟩

theorem local_byteArray : byteArray.Local :=
  local_restoring (local_arrayLength.bind local_slice)

theorem local_text : text.Local := by
  intro limits front rest t q h
  obtain ⟨bytes, hbytes, ht⟩ := text_yields.1 h
  obtain ⟨w, back, rfl, rfl, hw⟩ := local_byteArray _ _ _ _ _ hbytes
  exact ⟨w, back, rfl, rfl, fun front back => text_yields.2 ⟨bytes, hw front back, ht⟩⟩

theorem reads_arrayLength_iff {n : Nat} :
    arrayLength.Reads limits w n ↔
      ∃ x, word32.Reads limits w x ∧ x.toNat = n ∧ n ≤ limits.arrayLength := by
  simp only [local_arrayLength.reads_iff, local_word32.reads_iff, arrayLength_yields]

theorem reads_byteArray_iff {u : List UInt8} :
    byteArray.Reads limits w u ↔
      ∃ v, w = v ++ u ∧ arrayLength.Reads limits v u.length := by
  have hsame : byteArray.Reads limits w u ↔ (arrayLength >>= slice).Reads limits w u := by
    simp only [Reads, byteArray, restoring_yields]
  rw [hsame, reads_bind_iff local_arrayLength local_slice]
  constructor
  · intro h
    obtain ⟨v, _, n, hw, hn, hu⟩ := h
    obtain ⟨rfl, rfl⟩ := reads_slice_iff.1 hu
    exact ⟨v, hw, hn⟩
  · intro h
    obtain ⟨v, hw, hn⟩ := h
    exact ⟨v, u, u.length, hw, hn, reads_slice limits u⟩

theorem reads_text_iff {t : String} :
    text.Reads limits w t ↔
      ∃ u, byteArray.Reads limits w u ∧ String.fromUTF8? ⟨u.toArray⟩ = some t := by
  simp only [local_text.reads_iff, local_byteArray.reads_iff, text_yields]

end Decoder

/-- In a body that goes on for `left` bytes after them, the read takes exactly the bytes `w`
and yields `a`. -/
def ReadsWithin (read : Frame → Decoder α) (limits : ReadLimits) (w : List UInt8) (left : Nat)
    (a : α) : Prop :=
  ∀ (f : Frame) front back, f.stop = front.length + w.length + left →
    ((read f).run ⟨front ++ (w ++ back), limits⟩ front.length).Yields a (front.length + w.length)

/-- Every success inside a body is due to bytes of the body. -/
def LocalWithin (read : Frame → Decoder α) : Prop :=
  ∀ limits (f : Frame) front rest a q, front.length ≤ f.stop →
    ((read f).run ⟨front ++ rest, limits⟩ front.length).Yields a q →
      ∃ w back left, rest = w ++ back ∧ front.length + w.length = q ∧ q + left = f.stop ∧
        ReadsWithin read limits w left a

variable {read : Frame → Decoder α} {next : α → Frame → Decoder β} {a : α} {b : β} {left : Nat}

theorem readsWithin_pure : ReadsWithin (fun _ => pure a) limits [] left a :=
  fun _ _ _ _ => Decoder.pure_yields.2 ⟨rfl, rfl⟩

theorem readsWithin_pure_iff {b : α} :
    ReadsWithin (fun _ => pure a) limits w left b ↔ w = [] ∧ a = b := by
  constructor
  · intro h
    obtain ⟨hab, hlen⟩ := Decoder.pure_yields.1 (h ⟨0, w.length + left⟩ [] [] (by simp))
    exact ⟨List.eq_nil_of_length_eq_zero (by simpa using hlen.symm), hab⟩
  · intro h
    obtain ⟨rfl, rfl⟩ := h
    exact readsWithin_pure

theorem ReadsWithin.bind {u : List UInt8} (h : ReadsWithin read limits u (w.length + left) a)
    (hnext : ReadsWithin (next a) limits w left b) :
    ReadsWithin (fun f => read f >>= fun a => next a f) limits (u ++ w) left b := by
  intro f front back hstop
  rw [List.length_append] at hstop
  refine Decoder.bind_yields.2 ⟨a, front.length + u.length, ?_, ?_⟩
  · simpa using h f front (w ++ back) (by omega)
  · simpa [Nat.add_assoc] using hnext f (front ++ u) back (by rw [List.length_append]; omega)

theorem ReadsWithin.map (h : ReadsWithin read limits w left a) (g : α → β) :
    ReadsWithin (fun f => do return g (← read f)) limits w left (g a) :=
  fun f front back hstop => Decoder.map_yields.2 ⟨a, h f front back hstop, rfl⟩

theorem localWithin_pure (a : α) : LocalWithin (fun _ => pure a) := by
  intro limits f front rest b q hf h
  obtain ⟨rfl, rfl⟩ := Decoder.pure_yields.1 h
  exact ⟨[], rest, f.stop - front.length, rfl, rfl, by omega, readsWithin_pure⟩

theorem LocalWithin.bind (h : LocalWithin read) (hnext : ∀ a, LocalWithin (next a)) :
    LocalWithin fun f => read f >>= fun a => next a f := by
  intro limits f front rest b q hf hb
  obtain ⟨a, r, ha, hb⟩ := Decoder.bind_yields.1 hb
  obtain ⟨u, rest, left, rfl, rfl, hleft, hu⟩ := h _ _ _ _ _ _ hf ha
  rw [← List.append_assoc, ← List.length_append] at hb
  obtain ⟨w, back, left', rfl, rfl, hleft', hw⟩ :=
    hnext a _ _ _ _ _ _ (by rw [List.length_append]; omega) hb
  obtain rfl : left = w.length + left' := by
    rw [List.length_append] at hleft'
    omega
  exact ⟨u ++ w, back, left', by simp, by simp [Nat.add_assoc], hleft', hu.bind hw⟩

theorem LocalWithin.map (h : LocalWithin read) (g : α → β) :
    LocalWithin fun f => do return g (← read f) :=
  h.bind fun a => localWithin_pure (g a)

theorem ReadsWithin.unique {a' : α} (h : ReadsWithin read limits w left a)
    (h' : ReadsWithin read limits w left a') : a = a' := by
  have hrun := h ⟨0, w.length + left⟩ [] [] (by simp)
  exact (hrun.unique (h' ⟨0, w.length + left⟩ [] [] (by simp))).1

theorem readsWithin_bind_iff (h : LocalWithin read) (hnext : ∀ a, LocalWithin (next a)) :
    ReadsWithin (fun f => read f >>= fun a => next a f) limits w left b ↔
      ∃ u v a, w = u ++ v ∧ ReadsWithin read limits u (v.length + left) a ∧
        ReadsWithin (next a) limits v left b := by
  constructor
  · intro hb
    obtain ⟨a, r, ha, hb⟩ :=
      Decoder.bind_yields.1 (hb ⟨0, w.length + left⟩ [] [] (by simp))
    obtain ⟨u, rest, left', hw, rfl, hleft', hu⟩ := h _ _ _ _ _ _ (by simp) ha
    rw [hw, ← List.append_assoc, ← List.length_append] at hb
    obtain ⟨v, back, left'', rfl, hlen, hleft'', hv⟩ :=
      hnext a _ _ _ _ _ _ (by simp at hleft' ⊢; omega) hb
    have hsize := congrArg List.length hw
    simp only [List.append_nil, List.nil_append, List.length_append, List.length_nil,
      Nat.zero_add] at hsize hlen hleft' hleft''
    obtain rfl : back = [] := List.eq_nil_of_length_eq_zero (by omega)
    obtain rfl : left'' = left := by omega
    obtain rfl : left' = v.length + left'' := by omega
    exact ⟨u, v, a, by simpa using hw, hu, hv⟩
  · intro h
    obtain ⟨u, v, a, rfl, hu, hv⟩ := h
    exact hu.bind hv

theorem readsWithin_map_iff (hread : LocalWithin read) {g : α → β} :
    ReadsWithin (fun f => do return g (← read f)) limits w left b ↔
      ∃ a, ReadsWithin read limits w left a ∧ g a = b := by
  constructor
  · intro h
    obtain ⟨u, v, a, rfl, ha, hpure⟩ :=
      (readsWithin_bind_iff hread fun a => localWithin_pure (g a)).1 h
    obtain ⟨rfl, hb⟩ := readsWithin_pure_iff.1 hpure
    rw [List.length_nil, Nat.zero_add] at ha
    exact ⟨a, by rwa [List.append_nil], hb⟩
  · intro h
    obtain ⟨a, ha, rfl⟩ := h
    exact ha.map g

/-- A field is there when its body has bytes left, and then its bytes are those that its read
takes alone; otherwise it is absent. -/
theorem readsWithin_field_iff {d : Decoder α} (hd : d.Local) {o : Option α} :
    ReadsWithin (fun f => f.field d) limits w left o ↔
      (w = [] ∧ left = 0 ∧ o = none) ∨
        (0 < w.length + left ∧ ∃ a, o = some a ∧ d.Reads limits w a) := by
  constructor
  · intro h
    -- Where the bytes stand does not matter here, so the body stands alone.
    rcases (Frame.field_yields _).1 (h ⟨0, w.length + left⟩ [] [] (by simp)) with
      ⟨hp, rfl, -⟩ | ⟨hp, a, rfl, ha, -⟩
    · simp only [List.length_nil] at hp
      exact .inl ⟨List.eq_nil_of_length_eq_zero (by omega), by omega, rfl⟩
    · obtain ⟨u, back, hw, hlen, hu⟩ := hd _ _ _ _ _ ha
      obtain rfl : w = u := by
        simp only [List.append_nil, List.length_nil, Nat.zero_add] at hw hlen
        rw [hw, List.length_append] at hlen
        rw [hw, List.length_eq_zero_iff.1 (by omega : back.length = 0), List.append_nil]
      exact .inr ⟨hp, a, rfl, hu⟩
  · rintro (⟨rfl, rfl, rfl⟩ | ⟨hpos, a, rfl, ha⟩) f front back hstop
    · exact (f.field_yields).2 (.inl ⟨by simpa using hstop.symm, rfl, rfl⟩)
    · exact (f.field_yields).2 (.inr ⟨by omega, a, rfl, ha front back, by omega⟩)

theorem localWithin_field {d : Decoder α} (hd : d.Local) : LocalWithin fun f => f.field d := by
  intro limits f front rest o q hf h
  rcases f.field_yields.1 h with ⟨hp, rfl, rfl⟩ | ⟨hp, a, rfl, ha, hq⟩
  · exact ⟨[], rest, 0, rfl, rfl, hp, (readsWithin_field_iff hd).2 (.inl ⟨rfl, rfl, rfl⟩)⟩
  · obtain ⟨w, back, rfl, rfl, hw⟩ := hd _ _ _ _ _ ha
    exact ⟨w, back, f.stop - (front.length + w.length), rfl, rfl, by omega,
      (readsWithin_field_iff hd).2 (.inr ⟨by omega, a, rfl, hw⟩)⟩

namespace Decoder

variable {body : Frame → Decoder α}

theorem Reads.message {head rest : List UInt8} {x : UInt32} (hx : word32.Reads limits head x)
    (hlen : x.toNat = w.length + rest.length) (hlimit : x.toNat ≤ limits.messageLength)
    (h : ReadsWithin body limits w rest.length a) :
    (message body).Reads limits (head ++ (w ++ rest)) a := by
  intro front back
  have hbytes := hx front (w ++ rest ++ back)
  have hbody := h ⟨(front ++ head).length, (front ++ head).length + x.toNat⟩ (front ++ head)
    (rest ++ back) (by simp only [hlen]; omega)
  simp only [List.append_assoc, List.length_append] at hbytes hbody ⊢
  refine message_yields.2 ⟨x.toNat, _, messageLength_yields.2 ⟨x, hbytes, rfl, hlimit, ?_⟩,
    by omega, _, hbody, by omega⟩
  simp only [Input.remaining, List.length_append]
  omega

/-- A message that was read is a length, the part of its body that was read, and the rest. -/
theorem message_span (hbody : LocalWithin body) {front bytes : List UInt8} {q : Nat}
    (h : ((message body).run ⟨front ++ bytes, limits⟩ front.length).Yields a q) :
    ∃ head x w rest back, bytes = head ++ (w ++ rest) ++ back ∧
      front.length + (head ++ (w ++ rest)).length = q ∧ word32.Reads limits head x ∧
      x.toNat = w.length + rest.length ∧ x.toNat ≤ limits.messageLength ∧
      ReadsWithin body limits w rest.length a := by
  obtain ⟨n, r, hn, rfl, t, ht, hstop⟩ := message_yields.1 h
  obtain ⟨x, hx, rfl, hlimit, hleft⟩ := messageLength_yields.1 hn
  obtain ⟨head, tail, rfl, rfl, hhead⟩ := local_word32 _ _ _ _ _ hx
  rw [← List.append_assoc, ← List.length_append] at ht
  obtain ⟨w, after, left, rfl, rfl, hq, hw⟩ := hbody _ _ _ _ _ _ (by simp) ht
  simp only [Input.remaining, List.length_append] at hleft hstop hq
  have hrest : (after.take left).length = left := by
    rw [List.length_take]
    omega
  refine ⟨head, x, w, after.take left, after.drop left, ?_, ?_, hhead, by omega, hlimit, ?_⟩
  · simp only [List.append_assoc, List.take_append_drop]
  · simp only [List.length_append, hrest]
    omega
  · rwa [hrest]

theorem local_message (hbody : LocalWithin body) : (message body).Local := by
  intro limits front bytes a q h
  obtain ⟨head, x, w, rest, back, hbytes, hq, hx, hlen, hlimit, hw⟩ := message_span hbody h
  exact ⟨head ++ (w ++ rest), back, hbytes, hq, hx.message hlen hlimit hw⟩

/-- No success without a byte to begin with. -/
def NeedsByte (d : Decoder α) : Prop :=
  ∀ input p a q, (d.run input p).Yields a q → p < input.bytes.length

theorem NeedsByte.bind {d : Decoder α} {next : α → Decoder β} (hd : d.NeedsByte) :
    (d >>= next).NeedsByte := by
  intro input p b q h
  obtain ⟨a, r, ha, -⟩ := bind_yields.1 h
  exact hd input p a r ha

theorem needsByte_block {count : Nat} (hcount : 0 < count) : (block count).NeedsByte := by
  intro input p v q h
  have hlen := congrArg List.length (block_yields.1 h).1
  simp only [List.length_take, List.length_drop, Vector.length_toList] at hlen
  omega

theorem needsByte_byte : byte.NeedsByte := (needsByte_block (by decide)).bind
theorem needsByte_word16 : word16.NeedsByte := (needsByte_block (by decide)).bind
theorem needsByte_word32 : word32.NeedsByte := (needsByte_block (by decide)).bind
theorem needsByte_word64 : word64.NeedsByte := (needsByte_block (by decide)).bind

theorem needsByte_arrayLength : arrayLength.NeedsByte := by
  intro input p n q h
  obtain ⟨x, hx, -⟩ := arrayLength_yields.1 h
  exact needsByte_word32 input p x q hx

theorem needsByte_message {body : Frame → Decoder α} : (message body).NeedsByte := by
  intro input p a q h
  obtain ⟨n, r, hn, -⟩ := message_yields.1 h
  obtain ⟨x, hx, -⟩ := messageLength_yields.1 hn
  exact needsByte_word32 input p x r hx

theorem Reads.length_pos {d : Decoder α} {a : α} (h : d.Reads limits w a) (hd : d.NeedsByte) :
    0 < w.length := by
  simpa using hd _ _ _ _ (h [] [])

/-- Bytes that are read are read wherever they stand next. -/
theorem Reads.of_prefix {d : Decoder α} {a : α} (h : d.Reads limits w a) (hpos : 0 < w.length)
    {bytes : List UInt8} {p : Nat} (hbytes : w <+: bytes.drop p) :
    (d.run ⟨bytes, limits⟩ p).Yields a (p + w.length) := by
  obtain ⟨back, hback⟩ := hbytes
  have hinside : p < bytes.length := by
    have hlen := congrArg List.length hback
    simp only [List.length_append, List.length_drop] at hlen
    omega
  have hfront : (bytes.take p).length = p := by
    rw [List.length_take]
    omega
  have hrun := h (bytes.take p) back
  rwa [hback, List.take_append_drop, hfront] at hrun

/-- The bytes that a successful read passed over. -/
theorem Local.span {d : Decoder α} (hd : d.Local) (hbyte : d.NeedsByte) {input : Input}
    {p q : Nat} {a : α} (h : (d.run input p).Yields a q) :
    ∃ w, w <+: input.bytes.drop p ∧ 0 < w.length ∧ p + w.length = q ∧
      d.Reads input.limits w a := by
  have hinside := hbyte _ _ _ _ h
  have hfront : (input.bytes.take p).length = p := by
    rw [List.length_take]
    omega
  obtain ⟨w, back, hrest, hq, hw⟩ :=
    hd input.limits (input.bytes.take p) (input.bytes.drop p) a q
      (by rwa [hfront, List.take_append_drop])
  rw [hfront] at hq
  exact ⟨w, ⟨back, hrest.symm⟩, hw.length_pos hbyte, hq, hw⟩

/-- Up to a cut behind the bytes that a successful read passed over, it goes the same way. -/
theorem Local.take {d : Decoder α} (hd : d.Local) {input : Input} {p q : Nat} {a : α}
    (hp : p ≤ input.bytes.length) (h : (d.run input p).Yields a q) :
    p ≤ q ∧ q ≤ input.bytes.length ∧
      ∀ cut, q ≤ cut → (d.run ⟨input.bytes.take cut, input.limits⟩ p).Yields a q := by
  obtain ⟨bytes, limits⟩ := input
  obtain ⟨front, rest, rfl, rfl⟩ : ∃ front rest, front ++ rest = bytes ∧ front.length = p :=
    ⟨bytes.take p, bytes.drop p, List.take_append_drop p bytes, List.length_take_of_le hp⟩
  obtain ⟨w, back, rfl, rfl, hw⟩ := hd limits front rest a q h
  refine ⟨by omega, by simp, fun cut hcut => ?_⟩
  obtain ⟨n, rfl⟩ := Nat.exists_eq_add_of_le hcut
  have hkept : (front ++ (w ++ back)).take (front.length + w.length + n) =
      front ++ (w ++ back.take n) := by
    rw [Nat.add_assoc, List.take_length_add_append, List.take_length_add_append]
  dsimp only
  rw [hkept]
  exact hw front (back.take n)

end Decoder
end WireFormat
