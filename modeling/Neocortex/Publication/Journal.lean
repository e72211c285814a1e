import Neocortex.Publication.RoundTrip

/-!
# The journal as text

The journal that the writers leave is the concatenation of the lines of its records,
each ended by a newline.  This module reads such a file back, and says what one append
does to it.

* `readJournalFile_journalBytes`: the file is read as its records;
* `appendJournal_eq`: an append within the bounds adds one line;
* `readJsonFile_canonical`: a metadata file is read as its object.
-/

namespace Neocortex
namespace Publication

open Python Checks Durable

/-! ## Payloads can be written -/

theorem writable_textList (ts : List Text) (h : intsFit (textList ts) = true) :
    writable (textList ts) = true := by
  refine writable_arr_of_intsFit (fun v hv _ => ?_) h
  obtain ⟨t, -, rfl⟩ := List.mem_map.mp hv
  rfl

theorem writable_optText (o : Option Text) : writable (optText o) = true := by
  cases o <;> rfl

theorem writable_headList (hs : List StateOwnerHead) (h : intsFit (headList hs) = true) :
    writable (headList hs) = true := by
  refine writable_arr_of_intsFit (fun v hv hf => ?_) h
  obtain ⟨head, -, rfl⟩ := List.mem_map.mp hv
  refine writable_obj_of_intsFit (fun m hm hf => ?_) hf
  simp only [StateOwnerHead.members, List.mem_cons, List.not_mem_nil, or_false] at hm
  rcases hm with rfl | rfl | rfl | rfl
  · rfl
  · exact hf
  · rfl
  · cases hv : head.schemaVersion with
    | none => rfl
    | some n => rwa [hv] at hf

theorem writable_asPayload {p : StatePublication} (h : intsFit p.asPayload = true) :
    writable p.asPayload = true := by
  refine writable_obj_of_intsFit (fun m hm hf => ?_) h
  simp only [StatePublication.members, List.mem_cons, List.not_mem_nil, or_false] at hm
  rcases hm with rfl | rfl | rfl | rfl | rfl | rfl | rfl | rfl | rfl | rfl | rfl | rfl | rfl
  all_goals first
    | rfl
    | exact hf
    | exact writable_textList _ hf
    | exact writable_headList _ hf
    | exact writable_optText _

/-! ## Lines -/

theorem canonicalJsonBytes_eq_ok {v : Json} {b : Bytes} :
    canonicalJsonBytes v = .ok b ↔
      intsFit v = true ∧ b = encodeUtf8 (render (sortKeys v) ++ ['\n']) := by
  unfold canonicalJsonBytes dumps
  split_ifs with h
  · simp only [h, true_and]
    rw [pure_eq_ok, eq_comm]
  · simp [h]

/-- The journal line of a record, without its newline. -/
def StatePublication.line (p : StatePublication) : Text := render (sortKeys p.asPayload)

theorem canonicalJsonBytes_asPayload {p : StatePublication} {b : Bytes} :
    canonicalJsonBytes p.asPayload = .ok b ↔
      intsFit p.asPayload = true ∧ b = encodeUtf8 (p.line ++ ['\n']) := canonicalJsonBytes_eq_ok

/-- A record that the journal can hold. -/
structure StatePublication.Recorded (p : StatePublication) : Prop where
  wellFormed : p.WellFormed
  fits : intsFit p.asPayload = true
  small : p.line.length < maxPublicationRecordBytes

section Line

variable {p : StatePublication}

theorem writable_line (h : intsFit p.asPayload = true) :
    writable (sortKeys p.asPayload) = true := by
  rw [writable_sortKeys, writable_asPayload h]

theorem printable_line (h : intsFit p.asPayload = true) : Printable p.line :=
  printable_render _ (writable_line h)

/-- A line starts with the brace of its object. -/
theorem line_cons (p : StatePublication) : ∃ s, p.line = '{' :: s := by
  have hne : sortedMembers p.members ≠ [] := by
    have hl : (sortedMembers p.members).length = 13 := by
      rw [sortedMembers, List.length_insertionSort, sortKeysMembers_eq_map, List.length_map]
      rfl
    intro e
    rw [e] at hl
    exact absurd hl (by decide)
  obtain ⟨⟨k, v⟩, ms, hm⟩ := List.exists_cons_of_ne_nil hne
  have e : sortKeys p.asPayload = .obj (sortedMembers p.members) := rfl
  rw [StatePublication.line, e, hm, render]
  exact ⟨_, rfl⟩

theorem strip_line_ne_nil (p : StatePublication) {n : ℕ} (hn : 0 < n) (t : Text) :
    strip (p.line.take n ++ t) ≠ [] := by
  obtain ⟨s, hs⟩ := line_cons p
  obtain ⟨n, rfl⟩ : ∃ m, n = m + 1 := ⟨n - 1, by omega⟩
  rw [hs, List.take_succ_cons, List.cons_append, strip, List.dropWhile_cons_of_neg (by decide)]
  intro e
  rw [List.rdropWhile_eq_nil_iff] at e
  exact absurd (e '{' List.mem_cons_self) (by decide)

theorem loads_line (h : intsFit p.asPayload = true) :
    loads p.line = some (.obj (sortedMembers p.members)) := loads_render (writable_line h)

/-- A line of the journal is read as its record. -/
theorem readJournalLine_line (h : p.Recorded) : readJournalLine p.line = .ok p := by
  have hlen : utf8Len p.line = p.line.length :=
    utf8Len_of_isAscii (printable_line h.fits).isAscii
  have hs := h.small
  rw [readJournalLine, if_neg (by omega), loads_line h.fits]
  exact parsePublication_sorted h.wellFormed

end Line

/-! ## The whole file -/

/-- The text of a journal with the given records. -/
def journalText (journal : List StatePublication) : Text :=
  journal.flatMap fun p => p.line ++ ['\n']

def journalBytes (journal : List StatePublication) : Bytes := encodeUtf8 (journalText journal)

theorem journalText_append (L M : List StatePublication) :
    journalText (L ++ M) = journalText L ++ journalText M := List.flatMap_append

theorem journalText_cons (p : StatePublication) (L : List StatePublication) :
    journalText (p :: L) = p.line ++ '\n' :: journalText L := by
  simp [journalText]

section File

variable {L : List StatePublication} (hL : ∀ p ∈ L, p.Recorded)

include hL

theorem isAscii_journalText : IsAscii (journalText L) := by
  intro c hc
  obtain ⟨p, hp, hc⟩ := List.mem_flatMap.mp hc
  rcases List.mem_append.mp hc with h | h
  · exact (printable_line (hL p hp).fits).isAscii c h
  · rw [List.mem_singleton.mp h]
    decide

theorem notMem_cr_journalText : '\r' ∉ journalText L := by
  intro hc
  obtain ⟨p, hp, hc⟩ := List.mem_flatMap.mp hc
  rcases List.mem_append.mp hc with h | h
  · exact (printable_line (hL p hp).fits).oneLine.notMem_cr h
  · exact absurd (List.mem_singleton.mp h) (by decide)

theorem length_journalBytes : (journalBytes L).length = (journalText L).length :=
  utf8Len_of_isAscii (isAscii_journalText hL)

/-- The lines of a journal in front of more text. -/
theorem splitlines_journalText (t : Text) :
    splitlines (journalText L ++ t) = L.map StatePublication.line ++ splitlines t := by
  induction L with
  | nil => rfl
  | cons p L ih =>
    rw [journalText_cons, List.append_assoc, List.cons_append,
      splitlines_append_newline (printable_line (hL p List.mem_cons_self).fits).oneLine,
      ih fun q hq => hL q (List.mem_cons_of_mem _ hq)]
    rfl

/-- The records of the first lines, and what the remaining lines hold. -/
theorem readJournalLines_lines (lines : List Text) :
    readJournalLines (L.map StatePublication.line ++ lines) =
      (readJournalLines lines).map fun M => L ++ M := by
  induction L with
  | nil =>
    rw [List.map_nil, List.nil_append]
    cases readJournalLines lines <;> rfl
  | cons p L ih =>
    have hs : strip p.line ≠ [] := by
      obtain ⟨s, hs⟩ := line_cons p
      have h := strip_line_ne_nil p (n := p.line.length) (by rw [hs]; simp) []
      rwa [List.take_length, List.append_nil] at h
    rw [List.map_cons, List.cons_append, readJournalLines, if_neg hs,
      readJournalLine_line (hL p List.mem_cons_self),
      ih fun q hq => hL q (List.mem_cons_of_mem _ hq)]
    cases readJournalLines lines <;> rfl

/-- **The journal is read as its records.** -/
theorem readJournalFile_journalBytes (hb : (journalBytes L).length ≤ maxPublicationJournalBytes) :
    readJournalFile (some (journalBytes L)) = .ok L := by
  have h := readJournalLines_lines hL []
  have hsplit := splitlines_journalText hL []
  rw [List.append_nil] at h hsplit
  have e : splitlines [] = [] := rfl
  rw [e, List.append_nil] at hsplit
  rw [readJournalFile, if_neg (by omega), journalBytes,
    readText_encodeUtf8 (notMem_cr_journalText hL)]
  simp only
  rw [hsplit, h, readJournalLines]
  exact congrArg Except.ok (List.append_nil L)

end File

/-! ## Metadata files -/

/-- A metadata file is read as the object it was written from. -/
theorem readJsonFile_canonical {ms : List (Text × Json)} {raw : Bytes}
    (hw : intsFit (.obj ms) = true → writable (.obj ms) = true)
    (h : canonicalJsonBytes (.obj ms) = .ok raw) (hb : raw.length ≤ maxPublicationRecordBytes)
    (name : String) : readJsonFile (some raw) name = .ok (some (sortedMembers ms)) := by
  obtain ⟨hf, rfl⟩ := canonicalJsonBytes_eq_ok.mp h
  have hv : writable (sortKeys (.obj ms)) = true := by rw [writable_sortKeys, hw hf]
  have hcr : '\r' ∉ render (sortKeys (.obj ms)) ++ ['\n'] := by
    rw [List.mem_append, not_or]
    exact ⟨(printable_render _ hv).oneLine.notMem_cr, by decide⟩
  have hl : loads (render (sortKeys (.obj ms)) ++ ['\n']) = some (sortKeys (.obj ms)) :=
    loads_render_append hv (stops_cons (by decide)) rfl
  rw [readJsonFile, if_neg (by omega), readText_encodeUtf8 hcr, Option.bind_some, hl]
  rfl

/-! ## What the writes do -/

/-- The directory behind an append. -/
def StateDirectory.appendLine (d : StateDirectory) (p : StatePublication) : StateDirectory :=
  { d with journal := some (d.journal.getD [] ++ encodeUtf8 (p.line ++ ['\n'])) }

/-- `d'` has the journal and the epoch pointer of `d`. -/
def SameRecords (d d' : StateDirectory) : Prop :=
  d'.journal = d.journal ∧ d'.epochPointer = d.epochPointer

theorem length_encoded_line {p : StatePublication} (h : intsFit p.asPayload = true) :
    (encodeUtf8 (p.line ++ ['\n'])).length = p.line.length + 1 := by
  have ha : IsAscii (p.line ++ ['\n']) :=
    (printable_line h).isAscii.append fun c hc => by rw [List.mem_singleton.mp hc]; decide
  have e := utf8Len_of_isAscii ha
  rw [utf8Len, List.length_append] at e
  exact e

section Rules

variable {d : StateDirectory} {C : StateDirectory → Prop}

/-- An append adds one line, or raises and leaves the journal alone. -/
theorem wp_appendJournal {p : StatePublication} {Q : Checked Unit → StateDirectory → Prop}
    (herr : ∀ e, Q (.error e) d)
    (hok : intsFit p.asPayload = true → p.line.length < maxPublicationRecordBytes →
      (d.journal.getD []).length + (p.line.length + 1) ≤ maxPublicationJournalBytes →
      C (d.appendLine p) ∧ Q (.ok ()) (d.appendLine p)) :
    wp (appendJournal p) d C Q := by
  unfold appendJournal
  refine wp_check herr fun encoded hc => ?_
  obtain ⟨hf, he⟩ := canonicalJsonBytes_asPayload.mp hc
  have hlen : encoded.length = p.line.length + 1 := by rw [he, length_encoded_line hf]
  refine wp_check herr fun _ h1 => ?_
  rw [raiseIf_eq_ok] at h1
  rw [wp_read_bind]
  refine wp_check herr fun _ h2 => ?_
  rw [raiseIf_eq_ok] at h2
  have happ : d.appendLine p = { d with journal := some (d.journal.getD [] ++ encoded) } := by
    rw [he]
    rfl
  rw [wp_write, ← happ]
  exact hok hf (by omega) (by omega)

theorem wp_writeEpochPointer {p : StatePublication} {Q : Checked Unit → StateDirectory → Prop}
    (herr : ∀ e, Q (.error e) d)
    (hok : ∀ raw, canonicalJsonBytes p.pointerPayload = .ok raw →
      C { d with epochPointer := some raw } ∧ Q (.ok ()) { d with epochPointer := some raw }) :
    wp (writeEpochPointer p) d C Q := by
  refine wp_check herr fun raw hr => ?_
  rw [wp_read_bind, wp_write]
  exact hok raw hr

theorem wp_writeContentPointer {p : StatePublication} {name digest : Text}
    {Q : Checked Unit → StateDirectory → Prop} (herr : ∀ e, Q (.error e) d)
    (hok : ∀ b, C { d with contentPointer := some b } ∧
      Q (.ok ()) { d with contentPointer := some b }) :
    wp (writeContentPointer p name digest) d C Q := by
  refine wp_check herr fun raw _ => ?_
  rw [wp_read_bind, wp_write]
  exact hok raw

/-- What `_write_content_manifest` leaves for `p` when it returns `m`: a file of the right digest,
either the encoded manifest or one that `d` already had under that name. -/
structure ManifestWritten (H : Sha256) (d : StateDirectory) (p : StatePublication)
    (m : Text × Text) (d' : StateDirectory) : Prop where
  heads : p.ownerHeads ≠ []
  name : m.1 = contentManifestEventName H p.eventId
  manifestName : IsManifestName m.1
  file : ∃ encoded raw, canonicalJsonBytes (contentManifestPayload p) = .ok encoded ∧
    m.2 = H.hexdigest encoded ∧ d'.contentManifests m.1 = some raw ∧
    (raw = encoded ∨ d.contentManifests m.1 = some raw) ∧
    raw.length = encoded.length ∧ H.hexdigest raw = H.hexdigest encoded

/-- Writing a content manifest touches neither the journal nor the epoch pointer. -/
theorem wp_writeContentManifest {H : Sha256} {p : StatePublication}
    {Q : Checked (Text × Text) → StateDirectory → Prop}
    (hC : ∀ d', SameRecords d d' → C d')
    (herr : ∀ e d', SameRecords d d' → Q (.error e) d')
    (hok : ∀ m d', SameRecords d d' → ManifestWritten H d p m d' → Q (.ok m) d') :
    wp (writeContentManifest H p) d C Q := by
  have same : SameRecords d d := ⟨rfl, rfl⟩
  refine wp_check (herr · d same) fun _ hheads => ?_
  rw [raiseIf_eq_ok] at hheads
  refine wp_check (herr · d same) fun name hn => ?_
  obtain ⟨rfl, hname⟩ := contentManifestPath_eq_ok.mp hn
  refine wp_check (herr · d same) fun encoded hc => ?_
  rw [wp_read_bind]
  -- the pointer goes behind the manifest, whether the manifest was there or not
  have pointer : ∀ d1 raw, SameRecords d d1 →
      d1.contentManifests (contentManifestEventName H p.eventId) = some raw →
      (raw = encoded ∨ d.contentManifests (contentManifestEventName H p.eventId) = some raw) →
      raw.length = encoded.length → H.hexdigest raw = H.hexdigest encoded →
      wp (writeContentPointer p (contentManifestEventName H p.eventId) (H.hexdigest encoded) >>=
        fun _ => pure (contentManifestEventName H p.eventId, H.hexdigest encoded)) d1 C Q := by
    intro d1 raw h1 hraw hold hlen hhash
    rw [wp_bind]
    refine wp_writeContentPointer (herr · d1 h1) fun b => ⟨hC _ h1, ?_⟩
    rw [onEnd_ok, wp_pure]
    exact hok _ _ h1 ⟨hheads, rfl, hname, encoded, raw, hc, rfl, hraw, hold, hlen, hhash⟩
  cases hm : d.contentManifests (contentManifestEventName H p.eventId) with
  | none =>
    have h1 : SameRecords d
        (d.setContentManifest (contentManifestEventName H p.eventId) encoded) := ⟨rfl, rfl⟩
    exact wp_write_bind.mpr ⟨hC _ h1, pointer _ encoded h1 (if_pos rfl) (Or.inl rfl) rfl rfl⟩
  | some raw =>
    refine wp_check (herr · d same) fun _ hx => ?_
    rw [raiseIf_eq_ok, not_or, not_not, not_not] at hx
    exact pointer d raw same hm (Or.inr hm) hx.1 hx.2

end Rules

end Publication
end Neocortex
