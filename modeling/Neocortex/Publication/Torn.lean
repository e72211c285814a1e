import Neocortex.Publication.Epochs

/-!
# Torn appends

A crash in the middle of an append leaves a prefix of its line at the end of the journal.
Most prefixes are refused by the reader.  Two are accepted: the empty one, and the line
without its newline, which `str.splitlines` takes for a whole line.  Behind the second one
the next append starts in the middle of a line, glues its record to the torn one and makes
the journal unreadable; `restart_state_publication_checkpoint` writes a separator there, an
append does not.

* `readJournal_torn_inside`, `readJournal_torn_whole`: what the
  reader makes of a torn journal;
* `readJournal_glued`: what it makes of the journal after the next append;
* `append_after_torn_iff`: an append behind a torn one is safe unless the torn line lacks
  just its newline.
-/

namespace Neocortex
namespace Publication

open Python Checks Durable

/-- The directories that successful appends of the given records make of an empty one. -/
inductive Appended : List StatePublication → StateDirectory → Prop
  | nil : Appended [] StateDirectory.empty
  | snoc {L : List StatePublication} {d : StateDirectory} {p : StatePublication}
      (h : Appended L d) (hp : p.WellFormed) (hok : (appendJournal p d).result = .ok ()) :
      Appended (L ++ [p]) ((appendJournal p d).final d)

/-- A crash of an append behind the first `k` bytes of the encoded record. -/
def StateDirectory.tornAppend (d : StateDirectory) (encoded : Bytes) (k : ℕ) : StateDirectory :=
  { d with journal := some (d.journal.getD [] ++ encoded.take k) }

/-- What a successful append has checked and written. -/
theorem appendJournal_ok {d : StateDirectory} {p : StatePublication}
    (h : (appendJournal p d).result = .ok ()) :
    intsFit p.asPayload = true ∧ p.line.length < maxPublicationRecordBytes ∧
      (d.journal.getD []).length + (p.line.length + 1) ≤ maxPublicationJournalBytes ∧
      (appendJournal p d).final d = d.appendLine p := by
  have hw : wp (appendJournal p) d (fun _ => True) fun r d' => r = .ok () →
      intsFit p.asPayload = true ∧ p.line.length < maxPublicationRecordBytes ∧
        (d.journal.getD []).length + (p.line.length + 1) ≤ maxPublicationJournalBytes ∧
        d' = d.appendLine p := by
    refine wp_appendJournal (fun e he => ?_) fun hf hs hb => ⟨trivial, fun _ => ⟨hf, hs, hb, rfl⟩⟩
    cases he
  exact hw.2 h

/-- The journal file of appended records. -/
theorem Appended.journal {L : List StatePublication} {d : StateDirectory} (h : Appended L d) :
    d.journal.getD [] = journalBytes L ∧ (∀ p ∈ L, p.Recorded) ∧
      (journalBytes L).length ≤ maxPublicationJournalBytes := by
  induction h with
  | nil => exact ⟨rfl, by simp, Nat.zero_le _⟩
  | snoc _ hp hok ih =>
    obtain ⟨hj, hrec, -⟩ := ih
    obtain ⟨hf, hs, hb, hfinal⟩ := appendJournal_ok hok
    rw [hfinal]
    refine ⟨?_, fun q hq => ?_, ?_⟩
    · rw [journalBytes_append, journalBytes_singleton, StateDirectory.appendLine, hj]
      rfl
    · rcases List.mem_append.mp hq with hq | hq
      · exact hrec q hq
      · rw [List.mem_singleton.mp hq]
        exact ⟨hp, hf, hs⟩
    · rw [journalBytes_append, List.length_append, journalBytes_singleton,
        length_encoded_line hf, ← hj]
      exact hb

/-! ## Reading a torn journal -/

section Torn

variable {L : List StatePublication} (hL : ∀ p ∈ L, p.Recorded)

include hL

/-- A journal followed by more printable text is read line by line. -/
theorem readJournalFile_append {t : Text} (ht : '\r' ∉ t)
    (hb : (encodeUtf8 (journalText L ++ t)).length ≤ maxPublicationJournalBytes) :
    readJournalFile (some (encodeUtf8 (journalText L ++ t))) =
      (readJournalLines (splitlines t)).map fun M => L ++ M := by
  have hcr : '\r' ∉ journalText L ++ t := by
    rw [List.mem_append, not_or]
    exact ⟨notMem_cr_journalText hL, ht⟩
  rw [readJournalFile, if_neg (by omega), readText_encodeUtf8 hcr]
  simp only
  rw [splitlines_journalText hL, readJournalLines_lines hL]

/-- A part of the line was written: the reader refuses it. -/
theorem readJournal_torn_inside {r : StatePublication} (hf : intsFit r.asPayload = true) {k : ℕ}
    (hk : 0 < k) (hlt : k < r.line.length) :
    ∀ M, readJournalFile (some (encodeUtf8 (journalText L ++ r.line.take k))) ≠ .ok M := by
  intro M hread
  have hprint := (printable_line hf).oneLine.take k
  have hb : (encodeUtf8 (journalText L ++ r.line.take k)).length ≤ maxPublicationJournalBytes := by
    by_contra hgt
    rw [readJournalFile, if_pos (by omega)] at hread
    cases hread
  have hne : r.line.take k ≠ [] := by
    intro e
    have := congrArg List.length e
    rw [List.length_take, List.length_nil] at this
    omega
  obtain ⟨s, hs⟩ := line_cons r
  -- the cut line is one line that is not JSON
  have hloads : loads (r.line.take k) = none := by
    refine loads_of_torn (writable_line hf) hs hne (q := r.line.drop k) ?_
      (List.take_append_drop k r.line).symm
    intro e
    have := congrArg List.length e
    rw [List.length_drop, List.length_nil] at this
    omega
  have hstrip := strip_line_ne_nil r hk []
  rw [List.append_nil] at hstrip
  rw [readJournalFile_append hL hprint.notMem_cr hb, splitlines_of_oneLine hprint, if_neg hne,
    readJournalLines, if_neg hstrip, readJournalLine, hloads] at hread
  split_ifs at hread <;> cases hread

/-- The whole line was written, without its newline: the reader takes it for a record. -/
theorem readJournal_torn_whole {r : StatePublication} (hr : r.Recorded)
    (hb : (encodeUtf8 (journalText L ++ r.line)).length ≤ maxPublicationJournalBytes) :
    readJournalFile (some (encodeUtf8 (journalText L ++ r.line))) = .ok (L ++ [r]) := by
  have hone := (printable_line hr.fits).oneLine
  obtain ⟨s, hs⟩ := line_cons r
  have hstrip := strip_line_ne_nil r (n := r.line.length) (by rw [hs]; simp) []
  rw [List.take_length, List.append_nil] at hstrip
  have hne : r.line ≠ [] := by rw [hs]; simp
  rw [readJournalFile_append hL hone.notMem_cr hb, splitlines_of_oneLine hone, if_neg hne,
    readJournalLines, if_neg hstrip, readJournalLine_line hr]
  rfl

/-- The next append glues its record to the torn line: the reader refuses the journal. -/
theorem readJournal_glued {r p : StatePublication} (hr : intsFit r.asPayload = true)
    (hp : intsFit p.asPayload = true) :
    ∀ M, readJournalFile (some (encodeUtf8 (journalText L ++ (r.line ++ (p.line ++ ['\n']))))) ≠
      .ok M := by
  intro M hread
  have hone := (printable_line hr).oneLine.append (printable_line hp).oneLine
  have hcr : '\r' ∉ r.line ++ (p.line ++ ['\n']) := by
    rw [← List.append_assoc, List.mem_append, not_or]
    exact ⟨hone.notMem_cr, by decide⟩
  have hb : (encodeUtf8 (journalText L ++ (r.line ++ (p.line ++ ['\n'])))).length ≤
      maxPublicationJournalBytes := by
    by_contra hgt
    rw [readJournalFile, if_pos (by omega)] at hread
    cases hread
  obtain ⟨s, hs⟩ := line_cons r
  obtain ⟨s', hs'⟩ := line_cons p
  have hloads : loads (r.line ++ p.line) = none := by
    rw [hs']
    exact loads_of_glued (writable_line hr) hs (by decide) (stops_cons (by decide))
  have hstrip := strip_line_ne_nil r (n := r.line.length) (by rw [hs]; simp) p.line
  rw [List.take_length] at hstrip
  have hsplit : splitlines (r.line ++ (p.line ++ ['\n'])) = [r.line ++ p.line] := by
    rw [← List.append_assoc]
    exact splitlines_append_newline hone []
  rw [readJournalFile_append hL hcr hb, hsplit, readJournalLines, if_neg hstrip, readJournalLine,
    hloads] at hread
  split_ifs at hread <;> cases hread

end Torn

/-! ## Appending behind a torn append -/

/-- The journal of a torn append, as text. -/
theorem journal_tornAppend {L : List StatePublication} {d : StateDirectory}
    (hj : d.journal.getD [] = journalBytes L) {r : StatePublication}
    (hf : intsFit r.asPayload = true) {k : ℕ} (hk : k ≤ r.line.length) :
    (d.tornAppend (encodeUtf8 (r.line ++ ['\n'])) k).journal =
      some (encodeUtf8 (journalText L ++ r.line.take k)) := by
  have ha : IsAscii (r.line ++ ['\n']) :=
    (printable_line hf).isAscii.append fun c hc => by rw [List.mem_singleton.mp hc]; decide
  rw [StateDirectory.tornAppend, hj, take_encodeUtf8 ha, List.take_append_of_le_length hk,
    encodeUtf8_append]
  rfl

/-- The journal of the next append, as text. -/
theorem journal_appendLine {d : StateDirectory} {t : Text} (hj : d.journal = some (encodeUtf8 t))
    (p : StatePublication) :
    (d.appendLine p).journal = some (encodeUtf8 (t ++ (p.line ++ ['\n']))) := by
  rw [StateDirectory.appendLine, hj, encodeUtf8_append t]
  rfl

section AppendAfterTorn

variable {L : List StatePublication} {d : StateDirectory} {r p : StatePublication}

/-- A line without its newline is read as a record, and the append behind it is fatal. -/
theorem readJournal_after_whole (hL : Appended L d) (hr : r.WellFormed)
    (hrok : (appendJournal r d).result = .ok ()) (hp : intsFit p.asPayload = true) :
    readJournal (d.tornAppend (encodeUtf8 (r.line ++ ['\n'])) r.line.length) = .ok (L ++ [r]) ∧
      ∀ M, readJournal ((d.tornAppend (encodeUtf8 (r.line ++ ['\n'])) r.line.length).appendLine p) ≠
        .ok M := by
  obtain ⟨hj, hrec, -⟩ := hL.journal
  obtain ⟨hf, hs, hb, -⟩ := appendJournal_ok hrok
  have htorn := journal_tornAppend hj hf (Nat.le_refl r.line.length)
  rw [List.take_length] at htorn
  refine ⟨?_, fun M => ?_⟩
  · rw [readJournal, htorn]
    refine readJournal_torn_whole hrec ⟨hr, hf, hs⟩ ?_
    have hascii : utf8Len r.line = r.line.length :=
      utf8Len_of_isAscii (printable_line hf).isAscii
    rw [utf8Len] at hascii
    rw [encodeUtf8_append, List.length_append, hascii]
    rw [hj, journalBytes] at hb
    omega
  · rw [readJournal, journal_appendLine htorn, List.append_assoc]
    exact readJournal_glued hrec hf hp M

/-- **Torn appends.**  Behind any prefix of a line but the one that lacks just the newline, an
accepted journal stays readable and gains exactly the appended record. -/
theorem append_after_torn_iff (hL : Appended L d) (hr : r.WellFormed)
    (hrok : (appendJournal r d).result = .ok ()) {encoded : Bytes}
    (henc : canonicalJsonBytes r.asPayload = .ok encoded) {k : ℕ} (hk : k < encoded.length)
    (hp : p.WellFormed) (hpok : (appendJournal p (d.tornAppend encoded k)).result = .ok ()) :
    (∀ M, readJournal (d.tornAppend encoded k) = .ok M →
        readJournal ((appendJournal p (d.tornAppend encoded k)).final (d.tornAppend encoded k)) =
          .ok (M ++ [p])) ↔
      k + 1 ≠ encoded.length := by
  obtain ⟨hj, hrec, hbound⟩ := hL.journal
  obtain ⟨hf, he⟩ := canonicalJsonBytes_asPayload.mp henc
  rw [he] at hk hpok ⊢
  obtain ⟨hpf, hps, hpb, hfinal⟩ := appendJournal_ok hpok
  rw [length_encoded_line hf] at hk ⊢
  have htorn := journal_tornAppend hj hf (k := k) (by omega)
  rw [hfinal]
  constructor
  · intro hsafe hkeq
    have hwhole : k = r.line.length := by omega
    rw [hwhole] at hsafe
    obtain ⟨hread, hglued⟩ := readJournal_after_whole hL hr hrok hpf
    exact hglued _ (hsafe _ hread)
  · intro hne M hM
    rw [readJournal, htorn] at hM
    rcases Nat.eq_zero_or_pos k with rfl | hpos
    · -- nothing was written
      have hjournal := journal_appendLine htorn p
      rw [List.take_zero, List.append_nil] at hM hjournal
      have hread : readJournalFile (some (journalBytes L)) = .ok L :=
        readJournalFile_journalBytes hrec hbound
      rw [← journalBytes, hread] at hM
      cases hM
      have hnew : journalBytes (L ++ [p]) = encodeUtf8 (journalText L ++ (p.line ++ ['\n'])) := by
        rw [journalBytes_append, journalBytes_singleton, encodeUtf8_append (journalText L),
          ← journalBytes]
      rw [readJournal, hjournal, ← hnew]
      refine readJournalFile_journalBytes (fun q hq => ?_) ?_
      · rcases List.mem_append.mp hq with hq | hq
        · exact hrec q hq
        · rw [List.mem_singleton.mp hq]
          exact ⟨hp, hpf, hps⟩
      · rw [journalBytes_append, List.length_append, journalBytes_singleton,
          length_encoded_line hpf]
        rw [htorn, List.take_zero, List.append_nil, ← journalBytes] at hpb
        exact hpb
    · exact absurd hM (readJournal_torn_inside hrec hf hpos (by omega) M)

end AppendAfterTorn

/-! ## Two records -/

/-- A failed record without heads. -/
def sampleRecord (eventId : String) : StatePublication where
  eventId := lit eventId
  epoch := 0
  operation := lit "rebuild"
  owners := [lit "semantic"]
  status := .failed
  createdNs := 1
  idempotencyKey := lit "key"
  manifestSha256 := none
  detail := none
  ownerHeads := []
  contentManifestSha256 := none
  contentManifestName := none

theorem sampleRecord_wellFormed {eventId : String} (h : IsRequiredText 256 (lit eventId)) :
    (sampleRecord eventId).WellFormed where
  eventId := h
  operation := by
    have h : IsRequiredText 512 (lit "rebuild") := by decide
    exact h
  idempotencyKey := by
    have h : IsRequiredText 256 (lit "key") := by decide
    exact h
  createdNs := Nat.le_refl _
  owners := by
    intro o ho
    rw [List.mem_singleton.mp ho]
    decide
  ownersNodup := List.nodup_singleton _
  manifest := by simp [sampleRecord]
  detail := by simp [sampleRecord]
  heads := canonicalHeads_nil
  contentManifest := by simp [sampleRecord]
  contentName := by simp [sampleRecord]

/-- The encoded line of a sample record. -/
def sampleBytes (eventId : String) : Bytes := encodeUtf8 ((sampleRecord eventId).line ++ ['\n'])

/-- A journal with one record. -/
def sampleJournal : StateDirectory := (appendJournal (sampleRecord "e1") .empty).final .empty

theorem appended_sampleJournal : Appended [sampleRecord "e1"] sampleJournal :=
  Appended.nil.snoc (sampleRecord_wellFormed (by decide)) (by decide +kernel)

/-- Cut before its first byte, an append leaves a journal to which the next one adds its
record. -/
theorem append_after_torn_sample :
    readJournal ((appendJournal (sampleRecord "e3")
        (sampleJournal.tornAppend (sampleBytes "e2") 0)).final
      (sampleJournal.tornAppend (sampleBytes "e2") 0)) =
        .ok ([sampleRecord "e1"] ++ [sampleRecord "e3"]) :=
  (append_after_torn_iff (r := sampleRecord "e2") appended_sampleJournal
    (sampleRecord_wellFormed (by decide)) (by decide +kernel)
    (canonicalJsonBytes_asPayload.mpr ⟨by decide +kernel, rfl⟩) (by decide +kernel)
    (sampleRecord_wellFormed (by decide)) (by decide +kernel)).mpr (by decide +kernel)
    [sampleRecord "e1"] (by decide +kernel)

/-- The line of the first record lacks its newline.  The reader accepts it; behind the append of
the second record it refuses the journal. -/
theorem append_behind_missing_newline :
    (sampleRecord "e1").WellFormed ∧ (sampleRecord "e2").WellFormed ∧
      (appendJournal (sampleRecord "e1") .empty).result = .ok () ∧
      readJournal (StateDirectory.empty.tornAppend (sampleBytes "e1")
        (sampleRecord "e1").line.length) = .ok [sampleRecord "e1"] ∧
      (appendJournal (sampleRecord "e2") (StateDirectory.empty.tornAppend (sampleBytes "e1")
        (sampleRecord "e1").line.length)).result = .ok () ∧
      ∀ M, readJournal ((appendJournal (sampleRecord "e2") (StateDirectory.empty.tornAppend
        (sampleBytes "e1") (sampleRecord "e1").line.length)).final
          (StateDirectory.empty.tornAppend (sampleBytes "e1") (sampleRecord "e1").line.length)) ≠
        .ok M := by
  have h1 : (sampleRecord "e1").WellFormed := sampleRecord_wellFormed (by decide)
  have h2 : (sampleRecord "e2").WellFormed := sampleRecord_wellFormed (by decide)
  have hok1 : (appendJournal (sampleRecord "e1") .empty).result = .ok () := by decide +kernel
  have hok2 : (appendJournal (sampleRecord "e2") (StateDirectory.empty.tornAppend
      (sampleBytes "e1") (sampleRecord "e1").line.length)).result = .ok () := by decide +kernel
  obtain ⟨hread, hglued⟩ := readJournal_after_whole (p := sampleRecord "e2") Appended.nil h1 hok1
    (by decide +kernel)
  refine ⟨h1, h2, hok1, hread, hok2, fun M => ?_⟩
  rw [(appendJournal_ok hok2).2.2.2]
  exact hglued M

end Publication
end Neocortex
