import Neocortex.Publication.Journal

/-!
# Directories that store a journal

`Stored d L` is the invariant of the state directory: the journal file is the text of
the records `L`, the epochs of `L` count its complete records, and the epoch pointer is
absent or the image of one of them.

* `Stored.readPublicationObservation`: what every reader sees of such a directory;
* `Stored.appendLine`, `Stored.setPointer`, `Stored.of_sameRecords`: the writes that
  keep the invariant.
-/

namespace Neocortex
namespace Publication

open Python Checks Durable

/-! ## Numbered journals -/

/-- The number of complete records: the current epoch. -/
def epochOf (journal : List StatePublication) : ℕ := (completeRecords journal).length

/-- The step of the epoch at a record of the given status. -/
def PublicationStatus.step (s : PublicationStatus) : ℕ := if s = .complete then 1 else 0

/-- Every record carries the number of complete records up to it, counted from `n`. -/
def Numbered : ℕ → List StatePublication → Prop
  | _, [] => True
  | n, p :: L => p.epoch = n + p.status.step ∧ Numbered p.epoch L

theorem completeRecords_append (L M : List StatePublication) :
    completeRecords (L ++ M) = completeRecords L ++ completeRecords M := List.filter_append ..

theorem completeRecords_cons (p : StatePublication) (L : List StatePublication) :
    completeRecords (p :: L) =
      if p.status = .complete then p :: completeRecords L else completeRecords L := by
  simp only [completeRecords, List.filter_cons, decide_eq_true_eq]

theorem epochOf_cons (p : StatePublication) (L : List StatePublication) :
    epochOf (p :: L) = p.status.step + epochOf L := by
  rw [epochOf, completeRecords_cons, PublicationStatus.step]
  split_ifs with h
  · rw [List.length_cons, epochOf, Nat.add_comm]
  · rw [epochOf, Nat.zero_add]

theorem epochOf_append (L M : List StatePublication) :
    epochOf (L ++ M) = epochOf L + epochOf M := by
  rw [epochOf, completeRecords_append, List.length_append, epochOf, epochOf]

theorem numbered_append {n : ℕ} {L M : List StatePublication} :
    Numbered n (L ++ M) ↔ Numbered n L ∧ Numbered (n + epochOf L) M := by
  induction L generalizing n with
  | nil => simp [Numbered, epochOf, completeRecords]
  | cons p L ih =>
    rw [List.cons_append, Numbered, Numbered, ih, and_assoc]
    refine and_congr_right fun h => and_congr_right fun _ => ?_
    rw [h, epochOf_cons, Nat.add_assoc]

/-- The complete records carry consecutive epochs. -/
theorem Numbered.epochs {n : ℕ} {L : List StatePublication} (h : Numbered n L) :
    (completeRecords L).map StatePublication.epoch = List.range' (n + 1) (epochOf L) := by
  induction L generalizing n with
  | nil => rfl
  | cons p L ih =>
    have hl := ih h.2
    rw [epochOf_cons, completeRecords_cons]
    by_cases hc : p.status = .complete
    · have hs : p.status.step = 1 := if_pos hc
      have he : p.epoch = n + 1 := by rw [h.1, hs]
      rw [if_pos hc, List.map_cons, hl, hs, Nat.add_comm 1, List.range'_succ, he]
    · have hs : p.status.step = 0 := if_neg hc
      have he : p.epoch = n := by rw [h.1, hs, Nat.add_zero]
      rw [if_neg hc, hl, hs, Nat.zero_add, he]

theorem Numbered.epoch_le {n : ℕ} {L : List StatePublication} (h : Numbered n L)
    {p : StatePublication} (hp : p ∈ completeRecords L) :
    n < p.epoch ∧ p.epoch ≤ n + epochOf L := by
  have hm : p.epoch ∈ (completeRecords L).map StatePublication.epoch := List.mem_map_of_mem hp
  rw [h.epochs, List.mem_range'_1] at hm
  omega

/-- Complete records of one epoch are one record. -/
theorem Numbered.eq_of_epoch_eq {n : ℕ} {L : List StatePublication} (h : Numbered n L)
    {p q : StatePublication} (hp : p ∈ completeRecords L) (hq : q ∈ completeRecords L)
    (he : p.epoch = q.epoch) : p = q := by
  have hn : ((completeRecords L).map StatePublication.epoch).Nodup := by
    rw [h.epochs]
    exact List.nodup_range'
  exact List.inj_on_of_nodup_map hn hp hq he

/-- The last complete record carries the current epoch. -/
theorem Numbered.epoch_getLast {n : ℕ} {L : List StatePublication} (h : Numbered n L)
    {p : StatePublication} (hp : (completeRecords L).getLast? = some p) :
    p.epoch = n + epochOf L := by
  have hl := congrArg List.getLast? h.epochs
  rw [List.getLast?_map, hp, List.getLast?_range'] at hl
  have hpos : 0 < epochOf L := List.length_pos_of_mem (List.mem_of_getLast? hp)
  split_ifs at hl with h0
  · omega
  · have := Option.some_inj.mp hl
    omega

/-- The largest epoch is the last one. -/
theorem Numbered.maxByEpoch {n : ℕ} {L : List StatePublication} (h : Numbered n L) :
    maxByEpoch (completeRecords L) = (completeRecords L).getLast? := by
  have key : ∀ M : List StatePublication,
      (M.map StatePublication.epoch).Pairwise (· < ·) → Publication.maxByEpoch M = M.getLast? := by
    intro M
    induction M using List.reverseRecOn with
    | nil => intro _; rfl
    | append_singleton M p ih =>
      intro hM
      rw [List.map_append, List.pairwise_append] at hM
      obtain ⟨hM, -, hlt⟩ := hM
      have e := ih hM
      rw [Publication.maxByEpoch] at e
      rw [Publication.maxByEpoch, List.foldl_append, e, List.getLast?_concat]
      cases hl : M.getLast? with
      | none => rfl
      | some b =>
        have hb : b.epoch < p.epoch :=
          hlt _ (List.mem_map_of_mem (List.mem_of_getLast? hl)) _ (by simp)
        have hlt' : epochKeyLt b p := Or.inl hb
        exact if_pos hlt'
  apply key
  rw [h.epochs]
  exact List.pairwise_lt_range'

/-! ## The epoch pointer is shorter than its record -/

theorem writable_pointerPayload {p : StatePublication} (h : intsFit p.pointerPayload = true) :
    writable p.pointerPayload = true := by
  refine writable_obj_of_intsFit (fun m hm hf => ?_) h
  simp only [StatePublication.pointerMembers, List.mem_cons, List.not_mem_nil, or_false] at hm
  rcases hm with rfl | rfl | rfl | rfl | rfl | rfl | rfl | rfl | rfl
  all_goals first
    | rfl
    | exact hf
    | exact writable_textList _ hf
    | exact writable_headList _ hf
    | exact writable_optText _

theorem length_pointer_lt (p : StatePublication) :
    (render (sortKeys p.pointerPayload)).length < p.line.length := by
  rw [StatePublication.line, length_render_sortKeys, length_render_sortKeys,
    StatePublication.pointerPayload, StatePublication.asPayload,
    render_obj_length _ (by simp [StatePublication.pointerMembers]),
    render_obj_length _ (by simp [StatePublication.members])]
  simp only [StatePublication.pointerMembers, StatePublication.members, List.map_cons,
    List.map_nil, List.sum_cons, List.sum_nil]
  omega

/-! ## The invariant -/

/-- The image of a complete record in the epoch pointer. -/
def PointerOf (p : StatePublication) (file : Option Bytes) : Prop :=
  ∃ raw, canonicalJsonBytes p.pointerPayload = .ok raw ∧ file = some raw

/-- The directory stores the journal `L`. -/
structure Stored (d : StateDirectory) (L : List StatePublication) : Prop where
  journal : d.journal = some (journalBytes L) ∨ (d.journal = none ∧ L = [])
  recorded : ∀ p ∈ L, p.Recorded
  bounded : (journalBytes L).length ≤ maxPublicationJournalBytes
  numbered : Numbered 0 L
  pointer : d.epochPointer = none ∨ ∃ p ∈ completeRecords L, PointerOf p d.epochPointer

theorem stored_empty : Stored StateDirectory.empty [] where
  journal := Or.inr ⟨rfl, rfl⟩
  recorded := by simp
  bounded := Nat.zero_le _
  numbered := trivial
  pointer := Or.inl rfl

theorem mem_of_mem_completeRecords {L : List StatePublication} {p : StatePublication}
    (h : p ∈ completeRecords L) : p ∈ L ∧ p.status = .complete := by
  rw [completeRecords, List.mem_filter, decide_eq_true_eq] at h
  exact h

/-- The epoch pointer is read as the epoch of its record. -/
theorem readJsonFile_pointer {p : StatePublication} (hp : p.Recorded) {raw : Bytes}
    (hr : canonicalJsonBytes p.pointerPayload = .ok raw) (name : String) :
    readJsonFile (some raw) name = .ok (some (sortedMembers p.pointerMembers)) := by
  refine readJsonFile_canonical writable_pointerPayload hr ?_ name
  obtain ⟨hf, rfl⟩ := canonicalJsonBytes_eq_ok.mp hr
  have hv : writable (sortKeys p.pointerPayload) = true := by
    rw [writable_sortKeys, writable_pointerPayload hf]
  have ha : IsAscii (render (sortKeys p.pointerPayload) ++ ['\n']) :=
    (printable_render _ hv).isAscii.append fun c hc => by rw [List.mem_singleton.mp hc]; decide
  have hlen := utf8Len_of_isAscii ha
  rw [utf8Len, List.length_append] at hlen
  have hlt := length_pointer_lt p
  have hs := hp.small
  simp only [List.length_cons, List.length_nil] at hlen
  omega

namespace Stored

variable {d : StateDirectory} {L : List StatePublication}

theorem readJournal (h : Stored d L) : readJournal d = .ok L := by
  rw [Publication.readJournal]
  rcases h.journal with e | ⟨e, rfl⟩
  · rw [e]
    exact readJournalFile_journalBytes h.recorded h.bounded
  · rw [e]
    rfl

theorem getD_journal (h : Stored d L) : d.journal.getD [] = journalBytes L := by
  rcases h.journal with e | ⟨e, rfl⟩
  · rw [e]
    rfl
  · rw [e]
    rfl

/-- The pointer is absent, or names a complete record. -/
theorem readEpochPointer (h : Stored d L) :
    readEpochPointer d = .ok none ∨
      ∃ p ∈ completeRecords L, readEpochPointer d = .ok (some (p.toEpoch .pointer)) := by
  rcases h.pointer with e | ⟨p, hp, raw, hr, e⟩
  · refine Or.inl ?_
    rw [Publication.readEpochPointer, e]
    rfl
  · refine Or.inr ⟨p, hp, ?_⟩
    have hrec := h.recorded p (mem_of_mem_completeRecords hp).1
    rw [Publication.readEpochPointer, e, readJsonFile_pointer hrec hr, bind_eq_ok]
    refine ⟨_, rfl, ?_⟩
    simp only
    rw [parseEpoch_sorted hrec.wellFormed]
    rfl

end Stored

/-- The epoch that a reader returns for a journal: that of its last complete record. -/
def IsCurrentEpoch (L : List StatePublication) (e : StateEpoch) : Prop :=
  match (completeRecords L).getLast? with
  | none => e = ⟨0, none, none, [], none, .absent, [], none, none⟩
  | some p => ∃ source, e = p.toEpoch source

theorem IsCurrentEpoch.epoch {L : List StatePublication} (hL : Numbered 0 L) {e : StateEpoch}
    (h : IsCurrentEpoch L e) : e.epoch = epochOf L := by
  unfold IsCurrentEpoch at h
  cases hl : (completeRecords L).getLast? with
  | none =>
    rw [hl] at h
    rw [h, epochOf, List.getLast?_eq_none_iff.mp hl]
    rfl
  | some p =>
    rw [hl] at h
    obtain ⟨source, rfl⟩ := h
    have hp := hL.epoch_getLast hl
    rw [Nat.zero_add] at hp
    exact hp

/-- The rules on the pointer and the journal agree on the last complete record. -/
theorem stateEpochFromObservation_of_numbered {L : List StatePublication} (hL : Numbered 0 L)
    {pointer : Option StateEpoch}
    (hp : pointer = none ∨ ∃ p ∈ completeRecords L, pointer = some (p.toEpoch .pointer)) :
    ∃ e, stateEpochFromObservation pointer L = .ok e ∧ IsCurrentEpoch L e := by
  unfold stateEpochFromObservation IsCurrentEpoch
  rw [hL.maxByEpoch]
  cases hl : (completeRecords L).getLast? with
  | none =>
    have hnil := List.getLast?_eq_none_iff.mp hl
    rcases hp with rfl | ⟨p, hp, -⟩
    · exact ⟨_, rfl, rfl⟩
    · rw [hnil] at hp
      exact absurd hp List.not_mem_nil
  | some last =>
    have hlast := hL.epoch_getLast hl
    rcases hp with rfl | ⟨p, hp, rfl⟩
    · exact ⟨_, rfl, .journal, rfl⟩
    · have hle := hL.epoch_le hp
      have hnot : ¬ (last.toEpoch .journal).epoch < (p.toEpoch .pointer).epoch := by
        simp only [StatePublication.toEpoch]
        omega
      simp only [Option.map_some]
      rw [if_neg hnot]
      by_cases he : p.epoch = last.epoch
      · have e := hL.eq_of_epoch_eq hp (List.mem_of_getLast? hl) he
        subst e
        refine ⟨p.toEpoch .pointer, ?_, .pointer, rfl⟩
        have hee : (p.toEpoch .pointer).epoch = (p.toEpoch .journal).epoch := rfl
        rw [if_pos hee]
        exact if_neg (not_not.mpr rfl)
      · refine ⟨last.toEpoch .journal, ?_, .journal, rfl⟩
        have hee : ¬ (p.toEpoch .pointer).epoch = (last.toEpoch .journal).epoch := he
        rw [if_neg hee]
        rfl

/-- **What the readers see** of a directory that stores `L`. -/
theorem Stored.readPublicationObservation {d : StateDirectory} {L : List StatePublication}
    (h : Stored d L) :
    ∃ e, readPublicationObservation d = .ok (e, L) ∧ IsCurrentEpoch L e := by
  have hp : ∃ pointer, Publication.readEpochPointer d = .ok pointer ∧
      (pointer = none ∨ ∃ p ∈ completeRecords L, pointer = some (p.toEpoch .pointer)) := by
    rcases h.readEpochPointer with e | ⟨p, hp, e⟩
    · exact ⟨_, e, Or.inl rfl⟩
    · exact ⟨_, e, Or.inr ⟨p, hp, rfl⟩⟩
  obtain ⟨pointer, hpo, hcases⟩ := hp
  obtain ⟨e, he, hcur⟩ := stateEpochFromObservation_of_numbered h.numbered hcases
  refine ⟨e, ?_, hcur⟩
  rw [Publication.readPublicationObservation, bind_eq_ok]
  refine ⟨pointer, hpo, ?_⟩
  rw [bind_eq_ok]
  refine ⟨L, h.readJournal, ?_⟩
  rw [bind_eq_ok]
  exact ⟨e, he, rfl⟩

/-! ## Writes that keep the invariant -/

theorem SameRecords.trans {d d' d'' : StateDirectory} (h : SameRecords d d')
    (h' : SameRecords d' d'') : SameRecords d d'' := ⟨h'.1.trans h.1, h'.2.trans h.2⟩

theorem Stored.of_sameRecords {d d' : StateDirectory} {L : List StatePublication}
    (h : Stored d L) (hs : SameRecords d d') : Stored d' L where
  journal := by rw [hs.1]; exact h.journal
  recorded := h.recorded
  bounded := h.bounded
  numbered := h.numbered
  pointer := by rw [hs.2]; exact h.pointer

theorem journalBytes_append (L M : List StatePublication) :
    journalBytes (L ++ M) = journalBytes L ++ journalBytes M := by
  rw [journalBytes, journalText_append, encodeUtf8_append, journalBytes, journalBytes]

theorem journalBytes_singleton (p : StatePublication) :
    journalBytes [p] = encodeUtf8 (p.line ++ ['\n']) := by
  rw [journalBytes, journalText, List.flatMap_cons, List.flatMap_nil, List.append_nil]

/-- The invariant after a new journal file whose pointer stays as it is. -/
theorem Stored.setJournal {d : StateDirectory} {L M : List StatePublication} (h : Stored d L)
    (hrec : ∀ p ∈ M, p.Recorded)
    (hb : (journalBytes (L ++ M)).length ≤ maxPublicationJournalBytes)
    (hn : Numbered (epochOf L) M) :
    Stored { d with journal := some (journalBytes (L ++ M)) } (L ++ M) where
  journal := Or.inl rfl
  recorded := by
    intro p hp
    rcases List.mem_append.mp hp with hp | hp
    · exact h.recorded p hp
    · exact hrec p hp
  bounded := hb
  numbered := numbered_append.mpr ⟨h.numbered, by rwa [Nat.zero_add]⟩
  pointer := by
    rcases h.pointer with e | ⟨p, hp, hr⟩
    · exact Or.inl e
    · refine Or.inr ⟨p, ?_, hr⟩
      rw [completeRecords_append]
      exact List.mem_append_left _ hp

/-- One append. -/
theorem Stored.appendLine {d : StateDirectory} {L : List StatePublication} {p : StatePublication}
    (h : Stored d L) (hp : p.Recorded) (hepoch : p.epoch = epochOf L + p.status.step)
    (hb : (d.journal.getD []).length + (p.line.length + 1) ≤ maxPublicationJournalBytes) :
    Stored (d.appendLine p) (L ++ [p]) := by
  have e : d.appendLine p = { d with journal := some (journalBytes (L ++ [p])) } := by
    rw [StateDirectory.appendLine, h.getD_journal, journalBytes_append, journalBytes_singleton]
  rw [e]
  refine h.setJournal ?_ ?_ ⟨hepoch, trivial⟩
  · intro q hq
    rw [List.mem_singleton.mp hq]
    exact hp
  · rw [journalBytes_append, List.length_append, journalBytes_singleton,
      length_encoded_line hp.fits]
    rwa [h.getD_journal] at hb

/-- The pointer of a complete record. -/
theorem Stored.setPointer {d : StateDirectory} {L : List StatePublication} (h : Stored d L)
    {p : StatePublication} (hp : p ∈ completeRecords L) {raw : Bytes}
    (hr : canonicalJsonBytes p.pointerPayload = .ok raw) :
    Stored { d with epochPointer := some raw } L where
  journal := h.journal
  recorded := h.recorded
  bounded := h.bounded
  numbered := h.numbered
  pointer := Or.inr ⟨p, hp, raw, hr, rfl⟩

/-- A journal has fewer complete records than bytes. -/
theorem Stored.epochOf_le {d : StateDirectory} {L : List StatePublication} (h : Stored d L) :
    epochOf L ≤ maxPublicationJournalBytes := by
  have hlen : ∀ M : List StatePublication, M.length ≤ (journalText M).length := by
    intro M
    induction M with
    | nil => exact Nat.le_refl _
    | cons p M ih =>
      rw [journalText_cons, List.length_append, List.length_cons, List.length_cons]
      omega
  calc epochOf L ≤ L.length := List.length_filter_le _ _
    _ ≤ (journalText L).length := hlen L
    _ = (journalBytes L).length := (length_journalBytes h.recorded).symm
    _ ≤ maxPublicationJournalBytes := h.bounded

end Publication
end Neocortex
