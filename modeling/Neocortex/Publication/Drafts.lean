import Neocortex.Publication.Stored

/-!
# The records that the writers build

Every record that a writer appends is well formed: its texts come from the validators,
from records that are already in the journal, or from the writer's own formats.  The
only bound that is not checked on the spot is that of the event id, which needs the
epoch to be small; the journal is too short for a large one.

* `checkRequest_wellFormed`: what the checks of a request promise;
* `CheckedRequest.draft_wellFormed`, `recoveryRecord_wellFormed`,
  `abandonedRecord_wellFormed`, `checkpointDraft_wellFormed`: the records themselves.
-/

namespace Neocortex
namespace Publication

open Python Checks Durable

/-! ## Texts -/

theorem length_decimal_le {n k : ℕ} (hk : 0 < k) (h : n < 10 ^ k) : (decimal n).length ≤ k := by
  unfold decimal
  split_ifs with h0
  · exact hk
  · rw [List.length_map, List.length_reverse, Nat.digits_length_le_iff (by decide)]
    exact h

/-- Text that starts and ends without a space is trimmed. -/
theorem strip_of_ends {c d : Char} {t s : Text} (hc : isSpace c = false) (hd : isSpace d = false)
    (ht : t = c :: s) (hl : t.getLast? = some d) : strip t = t := by
  have h1 : t.dropWhile isSpace = t := by
    rw [ht, List.dropWhile_cons_of_neg]
    simp [hc]
  rw [strip, h1, List.rdropWhile_eq_self_iff]
  intro hne
  rw [List.getLast?_eq_some_getLast hne, Option.some_inj] at hl
  simp [hl, hd]

/-- Unspaced ASCII text. -/
def Plain (t : Text) : Prop := ∀ c ∈ t, isSpace c = false ∧ c.utf8Size = 1

instance (t : Text) : Decidable (Plain t) :=
  decidable_of_iff ((t.all fun c => !isSpace c && c.utf8Size == 1) = true) (by
    simp only [Plain, List.all_eq_true, Bool.and_eq_true, Bool.not_eq_true', beq_iff_eq])

theorem Plain.append {s t : Text} (hs : Plain s) (ht : Plain t) : Plain (s ++ t) := by
  intro c hc
  rcases List.mem_append.mp hc with h | h
  · exact hs c h
  · exact ht c h

theorem plain_decimal (n : ℕ) : Plain (decimal n) := by
  intro c hc
  have hd : isHex c = true := by
    have h := isDigit_of_mem_decimal hc
    simp only [Char.isDigit, ge_iff_le, Bool.and_eq_true, decide_eq_true_eq] at h
    simp only [isHex, isLowerHex, Bool.or_eq_true, Bool.and_eq_true, decide_eq_true_eq]
    exact Or.inl (Or.inl ⟨h.1, h.2⟩)
  exact ⟨isSpace_of_isHex hd, utf8Size_of_isHex hd⟩

theorem Plain.isRequiredText {t : Text} (h : Plain t) (hne : t ≠ []) {n : ℕ} (hn : t.length ≤ n) :
    IsRequiredText n t := by
  refine ⟨hne, strip_of_forall fun c hc => (h c hc).1, ?_⟩
  rw [utf8Len_of_isAscii fun c hc => (h c hc).2]
  exact hn

theorem length_eventIdOf (epoch createdNs : ℕ) (kind : String) :
    (eventIdOf epoch kind createdNs).length =
      8 + (decimal epoch).length + (lit kind).length + (decimal createdNs).length := by
  have key : ∀ a b c d e f : Text, a.length = 6 → c.length = 1 → e.length = 1 →
      (a ++ b ++ c ++ d ++ e ++ f).length = 8 + b.length + d.length + f.length := by
    intro a b c d e f ha hc he
    simp only [List.length_append, ha, hc, he]
    omega
  exact key _ _ _ _ _ _ rfl rfl rfl

/-- An event id of a small epoch is within its bound. -/
theorem isRequiredText_eventIdOf {epoch createdNs : ℕ} {kind : String} (hk : Plain (lit kind))
    (hlen : (lit kind).length ≤ 64) (he : epoch < 10 ^ 64) (hc : createdNs < 10 ^ 64) :
    IsRequiredText 256 (eventIdOf epoch kind createdNs) := by
  have hep : (decimal epoch).length ≤ 64 := length_decimal_le (by decide) he
  have hcr : (decimal createdNs).length ≤ 64 := length_decimal_le (by decide) hc
  have hlength := length_eventIdOf epoch createdNs kind
  clear he hc
  refine Plain.isRequiredText ?_ ?_ ?_
  · have hcolon : Plain (lit ":") := by decide
    have hepoch : Plain (lit "epoch:") := by decide
    exact ((((hepoch.append (plain_decimal _)).append hcolon).append hk).append hcolon).append
      (plain_decimal _)
  · intro e
    rw [e, List.length_nil] at hlength
    omega
  · omega

theorem isRequiredText_digest (H : Sha256) (b : Bytes) : IsRequiredText 256 (H.hexdigest b) :=
  (H.isSha256 b).isRequiredText.mono (by decide)

/-! ## Requests -/

/-- What the checks of a request promise. -/
structure CheckedRequest.WellFormed (q : CheckedRequest) : Prop where
  operation : IsRequiredText 512 q.operation
  owners : ∀ o ∈ q.owners, IsRequiredText 128 o
  ownersNodup : q.owners.Nodup
  digest : IsRequiredText 256 q.digest
  manifest : ∀ t ∈ q.manifestSha256, IsSha256 t
  detail : ∀ t ∈ q.detail, IsRequiredText 4096 t
  heads : CanonicalHeads q.ownerHeads

theorem checkRequest_wellFormed {H : Sha256} {r : RecordRequest} {q : CheckedRequest}
    (h : checkRequest H r = .ok q) : q.WellFormed ∧ q.status = r.status := by
  unfold checkRequest at h
  simp only [bind_eq_ok, pure_eq_ok] at h
  obtain ⟨operation, hop, owners, how, key, hkey, manifest, hman, heads, hheads, pending, hpend,
    _, -, _, -, _, -, _, -, detail, hdet, rfl⟩ := h
  obtain ⟨rfl, hop'⟩ := requiredText_str.mp hop
  obtain ⟨rfl, how', hnd⟩ := owners_eq_ok.mp how
  obtain ⟨rfl, hdet'⟩ := optionalText_eq_ok.mp hdet
  exact ⟨⟨hop', how', hnd, isRequiredText_digest H _, isSha256_of_optionalSha256 hman, hdet',
    canonicalHeads_of_eq_ok hheads⟩, rfl⟩

theorem CheckedRequest.draft_wellFormed {q : CheckedRequest} (hq : q.WellFormed) {current : ℕ}
    (hc : current ≤ maxPublicationJournalBytes) (now : TimeNs) :
    (q.draft current now.1).WellFormed where
  eventId := by
    have hnow := now.2.2
    have hmax : maxPublicationJournalBytes + 1 < 10 ^ 64 := by decide
    refine isRequiredText_eventIdOf (by decide) (by decide) ?_ (by omega)
    split_ifs <;> omega
  operation := hq.operation
  idempotencyKey := hq.digest
  createdNs := now.2.1
  owners := hq.owners
  ownersNodup := hq.ownersNodup
  manifest := hq.manifest
  detail := hq.detail
  heads := hq.heads
  contentManifest := by simp [draft]
  contentName := by simp [draft]

/-! ## Recovery records -/

/-- A failed record built from a record of the journal. -/
theorem recoveryRecord_wellFormed {pending : StatePublication} (hp : pending.WellFormed)
    {epoch createdNs : ℕ} {kind : String} (hk : Plain (lit kind)) (hlen : (lit kind).length ≤ 64)
    (he : epoch ≤ maxPublicationJournalBytes) (now : TimeNs) (hc : 1 ≤ createdNs) {detail : Text}
    (hd : IsRequiredText 4096 detail) {heads : List StateOwnerHead} (hh : CanonicalHeads heads) :
    (recoveryRecord pending (eventIdOf epoch kind now.1) epoch createdNs detail heads).WellFormed
    where
  eventId := by
    have hnow := now.2.2
    have hmax : maxPublicationJournalBytes < 10 ^ 64 := by decide
    exact isRequiredText_eventIdOf hk hlen (by omega) (by omega)
  operation := hp.operation
  idempotencyKey := hp.idempotencyKey
  createdNs := hc
  owners := hp.owners
  ownersNodup := hp.ownersNodup
  manifest := hp.manifest
  detail := by
    intro t ht
    rw [← Option.some_inj.mp ht]
    exact hd
  heads := hh
  contentManifest := by simp [recoveryRecord]
  contentName := by simp [recoveryRecord]

theorem canonicalHeads_nil : CanonicalHeads [] := ⟨Nat.zero_le _, List.nodup_nil, List.Pairwise.nil⟩

theorem CanonicalHeads.filter {heads : List StateOwnerHead} (h : CanonicalHeads heads)
    (c : StateOwnerHead → Bool) : CanonicalHeads (heads.filter c) where
  bounded := (List.length_filter_le _ _).trans h.bounded
  nodup := h.nodup.sublist (List.filter_sublist.map _)
  sorted := h.sorted.sublist List.filter_sublist

/-- The detail of a reconciliation is within its bound. -/
theorem isRequiredText_reconcileDetail {eventId : Text} (h : IsRequiredText 256 eventId) :
    IsRequiredText 4096
      (lit "Legacy Semantic prepare reconciled against unchanged published owners; " ++
        lit "publication_event=" ++ eventId ++ lit "; rollback_claimed=false") := by
  refine ⟨by simp, ?_, ?_⟩
  · refine strip_of_ends (c := 'L') (d := 'e') (by decide) (by decide) rfl ?_
    rw [List.getLast?_append]
    rfl
  · have e1 : utf8Len (lit "Legacy Semantic prepare reconciled against unchanged published owners; ")
        = 71 := by decide
    have e2 : utf8Len (lit "publication_event=") = 18 := by decide
    have e3 : utf8Len (lit "; rollback_claimed=false") = 24 := by decide
    have hle := h.2.2
    simp only [utf8Len_append, e1, e2, e3]
    omega

theorem abandonedRecord_wellFormed {pending : StatePublication} (hp : pending.WellFormed)
    {epoch : ℕ} (he : epoch ≤ maxPublicationJournalBytes) (now : TimeNs)
    {heads : List StateOwnerHead} (hh : CanonicalHeads heads) :
    (abandonedRecord pending epoch now.1 heads).WellFormed :=
  recoveryRecord_wellFormed hp (by decide) (by decide) he now now.2.1 (by decide) (hh.filter _)

theorem checkpointDraft_wellFormed {H : Sha256} {epoch : ℕ}
    (he : epoch ≤ maxPublicationJournalBytes) (now : TimeNs) (b : Bytes)
    {heads : List StateOwnerHead} (hh : CanonicalHeads heads) :
    (checkpointDraft epoch now.1 (H.hexdigest b) [lit "semantic"] heads).WellFormed where
  eventId := by
    have hnow := now.2.2
    have hmax : maxPublicationJournalBytes + 1 < 10 ^ 64 := by decide
    exact isRequiredText_eventIdOf (by decide) (by decide) (by omega) (by omega)
  operation := by
    have h : IsRequiredText 512 (lit "framework-all-restart-checkpoint") := by decide
    exact h
  idempotencyKey := isRequiredText_digest H b
  createdNs := Nat.le_add_left _ _
  owners := by
    intro o ho
    rw [List.mem_singleton.mp ho]
    decide
  ownersNodup := List.nodup_singleton _
  manifest := by simp [checkpointDraft]
  detail := by
    intro t ht
    rw [← Option.some_inj.mp ht]
    decide
  heads := hh
  contentManifest := by simp [checkpointDraft]
  contentName := by simp [checkpointDraft]

/-- The manifest of a record keeps it well formed. -/
theorem StatePublication.WellFormed.withManifest {p : StatePublication} (hp : p.WellFormed)
    {m : Text × Text} (hname : IsManifestName m.1) (hsha : IsSha256 m.2) :
    (p.withManifest m).WellFormed where
  eventId := hp.eventId
  operation := hp.operation
  idempotencyKey := hp.idempotencyKey
  createdNs := hp.createdNs
  owners := hp.owners
  ownersNodup := hp.ownersNodup
  manifest := hp.manifest
  detail := hp.detail
  heads := hp.heads
  contentManifest := by
    intro t ht
    rw [← Option.some_inj.mp ht]
    exact hsha
  contentName := by
    intro t ht
    rw [← Option.some_inj.mp ht]
    exact hname

end Publication
end Neocortex
