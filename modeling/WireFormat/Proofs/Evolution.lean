import WireFormat.Proofs.IsolatedBody

/-! Readers and writers of different age. A message is read by field lists that are shorter or
longer than the list it was written with: what a shorter list leaves is skipped, and what a
longer list asks for beyond is absent. -/
namespace WireFormat.Schema

variable {limits : ReadLimits} {w : List UInt8} {left : Nat} {fields more : List Schema}

/-- The values of the first fields. -/
def firsts : (fields : List Schema) → (k : Nat) → Vals fields → Vals (fields.take k)
  | _, 0, _ => ()
  | [], _ + 1, _ => ()
  | _ :: rest, k + 1, (x, xs) => (x, firsts rest k xs)

/-- Values of fields, then values of more fields. -/
def joinVals : (fields more : List Schema) → Vals fields → Vals more → Vals (fields ++ more)
  | [], _, _, ys => ys
  | _ :: rest, more, (x, xs), ys => (x, joinVals rest more xs ys)

def joinOptions :
    (fields more : List Schema) → Options fields → Options more → Options (fields ++ more)
  | [], _, _, ps => ps
  | _ :: rest, more, (o, os), ps => (o, joinOptions rest more os ps)

theorem fitsAll_firsts {xs : Vals fields} (h : FitsAll fields xs) (k : Nat) :
    FitsAll (fields.take k) (firsts fields k xs) := by
  induction fields generalizing k with
  | nil => cases k <;> exact trivial
  | cons s rest ih =>
    obtain ⟨x, xs⟩ := xs
    cases k with
    | zero => exact trivial
    | succ k => exact ⟨h.1, ih h.2 k⟩

theorem formAll_firsts (fields : List Schema) (xs : Vals fields) (k : Nat) :
    ∃ unread, formAll fields xs = formAll (fields.take k) (firsts fields k xs) ++ unread := by
  induction fields generalizing k with
  | nil => cases k <;> exact ⟨[], rfl⟩
  | cons s rest ih =>
    obtain ⟨x, xs⟩ := xs
    cases k with
    | zero => exact ⟨_, rfl⟩
    | succ k =>
      obtain ⟨unread, hrest⟩ := ih xs k
      refine ⟨unread, ?_⟩
      simp only [formAll, hrest, firsts, List.take_succ_cons, List.append_assoc]

theorem orDefaults_joinOptions (os : Options fields) (ps : Options more) :
    orDefaults (fields ++ more) (joinOptions fields more os ps) =
      joinVals fields more (orDefaults fields os) (orDefaults more ps) := by
  induction fields with
  | nil => rfl
  | cons s rest ih =>
    obtain ⟨o, os⟩ := os
    exact congrArg (Prod.mk (o.getD s.default)) (ih os)

theorem orDefaults_noOptions (fields : List Schema) :
    orDefaults fields (noOptions fields) = defaults fields := by
  induction fields with
  | nil => rfl
  | cons s rest ih => exact congrArg (Prod.mk s.default) ih

/-- A longer list of fields is read as the shorter one, and then the others. -/
theorem readsWithin_decodeFields_append {u : List UInt8} {os : Options fields} {ps : Options more}
    (h : ReadsWithin (decodeFields fields) limits u (w.length + left) os)
    (hmore : ReadsWithin (decodeFields more) limits w left ps) :
    ReadsWithin (decodeFields (fields ++ more)) limits (u ++ w) left
      (joinOptions fields more os ps) := by
  induction fields generalizing u with
  | nil =>
    obtain ⟨rfl, -⟩ := readsWithin_pure_iff.1 h
    exact hmore
  | cons s rest ih =>
    obtain ⟨o, os⟩ := os
    have hfield := localWithin_field s.local_decode
    obtain ⟨t, v, rfl, ht, hv⟩ := (readsWithin_entry_iff hfield (localWithin_fields rest)).1 h
    have hlen : (v ++ w).length + left = v.length + (w.length + left) := by
      rw [List.length_append, Nat.add_assoc]
    rw [← hlen] at ht
    rw [List.append_assoc]
    exact readsWithin_entry ht (ih hv)

theorem readsWithin_decodeOrDefaults {os : Options fields}
    (h : ReadsWithin (decodeFields fields) limits w left os) :
    ReadsWithin (decodeOrDefaults fields) limits w left (orDefaults fields os) := by
  induction fields generalizing w with
  | nil => exact h
  | cons s rest ih =>
    obtain ⟨o, os⟩ := os
    have hfield := localWithin_field s.local_decode
    obtain ⟨u, v, rfl, hu, hv⟩ := (readsWithin_entry_iff hfield (localWithin_fields rest)).1 h
    exact readsWithin_entry (hu.map (·.getD s.default)) (ih hv)

theorem readable (fields : List Schema) : Readable fields :=
  fun s _ => reads_form s

/-- An older reader takes the first values and skips what was appended. -/
theorem reads_older {xs : Vals fields} (h : (message fields).Fits xs) (k : Nat) :
    (Decoder.message (decodeFields (fields.take k))).Reads .unbounded ((message fields).form xs)
      (present (fields.take k) (firsts fields k xs)) := by
  obtain ⟨hfits, hlen⟩ := h
  obtain ⟨unread, hform⟩ := formAll_firsts fields xs k
  have hbody := readsWithin_decodeFields (readable _) (fitsAll_firsts hfits k) unread.length
  rw [hform] at hlen
  have hread := Decoder.reads_framed unread hbody hlen hlen.le_maxIndex
  rwa [← hform] at hread

/-- In a body written with fewer fields, a newer reader finds all of these and no other. -/
theorem readsWithin_newer {xs : Vals fields} (h : FitsAll fields xs) (more : List Schema) :
    ReadsWithin (decodeFields (fields ++ more)) .unbounded (formAll fields xs) 0
      (joinOptions fields more (present fields xs) (noOptions more)) := by
  have hbody := readsWithin_decodeFields (readable fields) h 0
  have hread := readsWithin_decodeFields_append (w := []) hbody
    (readsWithin_decodeFields_absent .unbounded more)
  rwa [List.append_nil] at hread

theorem reads_newer {xs : Vals fields} (h : (message fields).Fits xs) (more : List Schema) :
    (Decoder.message (decodeFields (fields ++ more))).Reads .unbounded ((message fields).form xs)
      (joinOptions fields more (present fields xs) (noOptions more)) :=
  Decoder.reads_framed_whole (readsWithin_newer h.1 more) h.2 h.2.le_maxIndex

theorem orDefaults_newer (xs : Vals fields) (more : List Schema) :
    orDefaults (fields ++ more) (joinOptions fields more (present fields xs) (noOptions more)) =
      joinVals fields more xs (defaults more) := by
  rw [orDefaults_joinOptions, orDefaults_present, orDefaults_noOptions]

theorem reads_newer_orDefaults {xs : Vals fields} (h : (message fields).Fits xs)
    (more : List Schema) :
    (Decoder.message (decodeOrDefaults (fields ++ more))).Reads .unbounded
      ((message fields).form xs) (joinVals fields more xs (defaults more)) := by
  have hbody := readsWithin_decodeOrDefaults (readsWithin_newer h.1 more)
  rw [orDefaults_newer] at hbody
  exact Decoder.reads_framed_whole hbody h.2 h.2.le_maxIndex

/-- Items of an array that are read as items of another schema. -/
theorem reads_array_as {item item' : Schema} (hitem' : item' ≠ .scalar .byte)
    {g : item.Val → item'.Val}
    (h : ∀ x, item.Fits x → item'.decode.Reads .unbounded (item.form x) (g x))
    {xs : List item.Val} (hfits : (array item).Fits xs) :
    (array item').decode.Reads .unbounded ((array item).form xs) (xs.map g) := by
  obtain ⟨hlen, hitems⟩ := hfits
  have hcount := Decoder.reads_arrayLength .unbounded hlen hlen.le_maxIndex
  have hread := Decoder.reads_times xs fun x hx => h x (hitems x hx)
  rw [← items_eq_times hitem'] at hread
  exact hcount.bind hread

theorem reads_array_older {messages : List (Vals fields)}
    (h : (array (message fields)).Fits messages) (k : Nat) :
    (array (message (fields.take k))).decode.Reads .unbounded
      ((array (message fields)).form messages) (messages.map (firsts fields k)) := by
  refine reads_array_as (by simp) (fun xs hfits => ?_) h
  have hread := (reads_older hfits k).map (orDefaults (fields.take k))
  rwa [orDefaults_present] at hread

theorem reads_array_newer {messages : List (Vals fields)}
    (h : (array (message fields)).Fits messages) (more : List Schema) :
    (array (message (fields ++ more))).decode.Reads .unbounded
      ((array (message fields)).form messages)
      (messages.map fun xs => joinVals fields more xs (defaults more)) := by
  refine reads_array_as (by simp) (fun xs hfits => ?_) h
  have hread := (reads_newer hfits more).map (orDefaults (fields ++ more))
  rwa [orDefaults_newer] at hread

/-- Readers and writers of different age understand each other. Of a written message, a reader
that knows the first `k` fields gets these; a reader that knows all fields and more gets all,
and for the others nothing, or their defaults; and both leave exactly what stands behind the
message. So the items of an array stay aligned: newer songs are read as older ones without their
performers, and older songs as newer ones with no performers. -/
theorem decode_evolved :
    (∀ (fields : List Schema) (xs : Vals fields), (message fields).Fits xs →
      ∀ rest : List UInt8,
        (∀ k, (Decoder.message (decodeFields (fields.take k))).readFrom
            ((message fields).encode xs [] ++ rest) =
          .ok (present (fields.take k) (firsts fields k xs), rest)) ∧
        ∀ more,
          (Decoder.message (decodeFields (fields ++ more))).readFrom
              ((message fields).encode xs [] ++ rest) =
            .ok (joinOptions fields more (present fields xs) (noOptions more), rest) ∧
          (Decoder.message (decodeOrDefaults (fields ++ more))).readFrom
              ((message fields).encode xs [] ++ rest) =
            .ok (joinVals fields more xs (defaults more), rest)) ∧
    (∀ songs : List Songs.songV2.Val, (array Songs.songV2).Fits songs → ∀ rest : List UInt8,
      (array Songs.songV1).decode.readFrom ((array Songs.songV2).encode songs [] ++ rest) =
        .ok (songs.map fun (title, year, _) => (title, year, ()), rest)) ∧
    ∀ songs : List Songs.songV1.Val, (array Songs.songV1).Fits songs → ∀ rest : List UInt8,
      (array Songs.songV2).decode.readFrom ((array Songs.songV1).encode songs [] ++ rest) =
        .ok (songs.map fun (title, year, _) => (title, year, [], ()), rest) := by
  refine ⟨fun fields xs hfits rest => ?_, fun songs hfits rest => ?_, fun songs hfits rest => ?_⟩
  · rw [encode_eq, List.nil_append]
    refine ⟨fun k => (reads_older hfits k).readFrom, fun more => ⟨?_, ?_⟩⟩
    · exact (reads_newer hfits more).readFrom
    · exact (reads_newer_orDefaults hfits more).readFrom
  · rw [encode_eq, List.nil_append]
    exact (reads_array_older hfits 2).readFrom
  · rw [encode_eq, List.nil_append]
    exact (reads_array_newer hfits [.array Songs.musician]).readFrom

/-- A song with a rating that its writer did not know, and a shelf of one song read by title
and year alone. -/
theorem decode_evolved_giantSteps :
    Songs.songV2.Fits Songs.giantSteps ∧ (array Songs.songV2).Fits [Songs.giantSteps] ∧
      (array Songs.songV1).Fits [("Naïma", 1960, ())] ∧
      (Decoder.message (decodeFields [.text])).readFrom
          (Songs.songV2.encode Songs.giantSteps [] ++ [1, 2]) =
        .ok ((some "Giant Steps", ()), [1, 2]) ∧
      (Decoder.message (decodeFields
            [.text, .scalar .uint16, .array Songs.musician, .bytes])).readFrom
          (Songs.songV2.encode Songs.giantSteps [] ++ [1, 2]) =
        .ok ((some "Giant Steps", some 1959, some [Songs.coltrane], none, ()), [1, 2]) ∧
      (array Songs.songV1).decode.readFrom
          ((array Songs.songV2).encode [Songs.giantSteps] [] ++ []) =
        .ok ([("Giant Steps", 1959, ())], []) ∧
      (array Songs.songV2).decode.readFrom
          ((array Songs.songV1).encode [("Naïma", 1960, ())] [] ++ []) =
        .ok ([("Naïma", 1960, [], ())], []) := by
  have hsong : Songs.songV2.Fits Songs.giantSteps := by decide +kernel
  have hnewer : (array Songs.songV2).Fits [Songs.giantSteps] := by decide +kernel
  have holder : (array Songs.songV1).Fits [("Naïma", 1960, ())] := by decide +kernel
  obtain ⟨hmessages, hfromNewer, hfromOlder⟩ := decode_evolved
  obtain ⟨hfirst, hmore⟩ := hmessages _ Songs.giantSteps hsong [1, 2]
  exact ⟨hsong, hnewer, holder, hfirst 1, (hmore [.bytes]).1, hfromNewer _ hnewer [],
    hfromOlder _ holder []⟩

end WireFormat.Schema
