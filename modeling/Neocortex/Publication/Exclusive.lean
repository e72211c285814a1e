import Neocortex.Publication.Epochs

/-!
# The exclusive pending publication

A prepare closes the journal for every other key until it is resolved.  The invariant is
`Exclusive`: one key at most is pending, and no complete record has followed its prepare.
`Growth` keeps it, so it holds in every reachable directory, and the only extensions that
take the prepare away are those that `Resolves` lists.

* `Growth.exclusive`: one call keeps the invariant;
* `Growth.resolves`: one call leaves the prepare pending or resolves it;
* `Reachable.exclusive_pending`: both, along every run.
-/

namespace Neocortex
namespace Publication

open Python Checks Durable

/-! ## The invariant -/

/-- One prepare at most is pending, and the epoch is still the one it was prepared at. -/
structure Exclusive (L : List StatePublication) : Prop where
  unique : ∀ q q', Pending L q → Pending L q' → q = q'
  epoch : ∀ q, Pending L q → q.epoch = epochOf L

theorem exclusive_nil : Exclusive [] where
  unique := fun _ _ h => absurd h.mem List.not_mem_nil
  epoch := fun _ h => absurd h.mem List.not_mem_nil

/-- What is pending behind a new record: the record, or what was pending under another key. -/
theorem pending_append_singleton {L : List StatePublication} {p q : StatePublication} :
    Pending (L ++ [p]) q ↔
      (q = p ∧ p.status = .partial_) ∨ (p.idempotencyKey ≠ q.idempotencyKey ∧ Pending L q) := by
  unfold Pending
  rw [latestFor_append_singleton]
  by_cases h : p.idempotencyKey = q.idempotencyKey
  · simp only [if_pos h, Option.some_inj]
    constructor
    · rintro ⟨rfl, hs⟩
      exact Or.inl ⟨rfl, hs⟩
    · rintro (⟨rfl, hs⟩ | ⟨hne, -⟩)
      · exact ⟨rfl, hs⟩
      · exact absurd h hne
  · rw [if_neg h]
    constructor
    · intro hq
      exact Or.inr ⟨h, hq⟩
    · rintro (⟨rfl, -⟩ | ⟨-, hq⟩)
      · exact absurd rfl h
      · exact hq

/-- A record that is neither complete nor a prepare. -/
theorem Exclusive.append_failed {L : List StatePublication} (h : Exclusive L)
    {p : StatePublication} (hp : p.status = .failed) : Exclusive (L ++ [p]) := by
  have hold : ∀ q, Pending (L ++ [p]) q → Pending L q := by
    intro q hq
    rcases pending_append_singleton.mp hq with ⟨-, hs⟩ | ⟨-, hq⟩
    · rw [hp] at hs
      cases hs
    · exact hq
  refine ⟨fun q q' hq hq' => h.unique q q' (hold q hq) (hold q' hq'), fun q hq => ?_⟩
  rw [epochOf_append, h.epoch q (hold q hq), epochOf_cons, hp]
  rfl

/-- A journal without pending prepares, in front of a complete record. -/
theorem Exclusive.append_complete {L : List StatePublication}
    {p : StatePublication} (hp : p.status = .complete)
    (hnone : ∀ q, Pending L q → q.idempotencyKey = p.idempotencyKey) : Exclusive (L ++ [p]) := by
  have hold : ∀ q, ¬ Pending (L ++ [p]) q := by
    intro q hq
    rcases pending_append_singleton.mp hq with ⟨-, hs⟩ | ⟨hne, hq⟩
    · rw [hp] at hs
      cases hs
    · exact hne (hnone q hq).symm
  exact ⟨fun q q' hq => absurd hq (hold q), fun q hq => absurd hq (hold q)⟩

/-- **One call keeps the invariant.** -/
theorem Growth.exclusive {L Δ : List StatePublication} {c : Call} (hg : Growth L c Δ)
    (h : Exclusive L) : Exclusive (L ++ Δ) := by
  cases hg with
  | unchanged => rwa [List.append_nil]
  | recorded hc hepoch hcommits =>
    rename_i p
    cases hs : p.status with
    | complete => exact .append_complete hs fun q hq => (hcommits q hq).key.symm
    | failed => exact h.append_failed hs
    | partial_ =>
      -- a prepare is recorded only when nothing is pending
      have hnone : ∀ q, ¬ Pending L q := by
        intro q hq
        have := (hcommits q hq).status
        rw [hs] at this
        cases this
      have hnew : ∀ q, Pending (L ++ [p]) q → q = p := by
        intro q hq
        rcases pending_append_singleton.mp hq with ⟨rfl, -⟩ | ⟨-, hq⟩
        · rfl
        · exact absurd hq (hnone q)
      refine ⟨fun q q' hq hq' => (hnew q hq).trans (hnew q' hq').symm, fun q hq => ?_⟩
      rw [hnew q hq, hepoch, epochOf_append, epochOf_cons]
      rfl
  | aborted _ _ _ hf => exact h.append_failed hf.status
  | unbound _ _ hf => exact h.append_failed hf.status
  | reconciled _ _ hf => exact h.append_failed hf.status
  | restarted ht hf hs hk =>
    rename_i q p k
    have hsplit : L ++ [p, k] = (L ++ [p]) ++ [k] := by simp
    rw [hsplit]
    refine .append_complete hs fun q' hq' => ?_
    -- the failed record has taken the only prepare away
    rcases pending_append_singleton.mp hq' with ⟨-, hs'⟩ | ⟨hne, hq'⟩
    · rw [hf.status] at hs'
      cases hs'
    · have e := h.unique q' q hq' ht
      subst e
      exact absurd hf.key hne

/-! ## Resolving a prepare -/

/-- How the records `Δ` of the call `c` resolve the pending prepare `q`. -/
inductive Resolves (L : List StatePublication) (q : StatePublication) :
    Call → List StatePublication → Prop
  /-- A complete record of the same key and manifest, with heads when the prepare had some. -/
  | committed {c : Call} {p : StatePublication} (hc : c.Records) (commits : Commits q p)
      (epoch : p.epoch = q.epoch + 1) : Resolves L q c [p]
  /-- A verified abort: the observed heads are the prepared baseline. -/
  | aborted {eventId : Text} {observed : List StateOwnerHead} {expectedEpoch : Option ℤ}
      {detail : Text} {now : TimeNs} {p : StatePublication}
      (heads : canonicalOwnerHeads observed = .ok q.ownerHeads) (bound : q.ownerHeads ≠ [])
      (fails : Fails L q p) :
      Resolves L q (.abort eventId observed expectedEpoch detail now) [p]
  /-- A prepare without a baseline is invalidated. -/
  | unbound {eventId : Text} {expectedEpoch : Option ℤ} {detail : Text} {now later : TimeNs}
      {p : StatePublication} (unbound : q.ownerHeads = []) (fails : Fails L q p) :
      Resolves L q (.abortUnbound eventId expectedEpoch detail now later) [p]
  /-- A prepare without a baseline is reconciled. -/
  | reconciled {eventId : Text} {expectedEpoch : ℤ} {publicationEventId : Text}
      {verify : Checked (List StateOwnerHead)} {now : TimeNs} {p : StatePublication}
      (unbound : q.ownerHeads = []) (fails : Fails L q p) :
      Resolves L q (.reconcileUnbound eventId expectedEpoch publicationEventId verify now) [p]
  /-- A restart: the failed record and the new checkpoint in one replacement. -/
  | restarted {eventId : Text} {expectedEpoch : ℤ} {heads : List StateOwnerHead}
      {verify again : Checked (List StateOwnerHead)} {now : TimeNs} {p k : StatePublication}
      (fails : Fails L q p) (status : k.status = .complete) (epoch : k.epoch = q.epoch + 1) :
      Resolves L q (.restart eventId expectedEpoch heads verify again now) [p, k]

/-- The records `Δ` leave the prepare `q` alone: no other key is completed. -/
def LeavesPending (q : StatePublication) (Δ : List StatePublication) : Prop :=
  ∀ p ∈ Δ, p.idempotencyKey ≠ q.idempotencyKey ∧ p.status ≠ .complete

/-- **One call leaves the prepare pending or resolves it.** -/
theorem Growth.resolves {L Δ : List StatePublication} {c : Call} (hg : Growth L c Δ)
    (h : Exclusive L) {q : StatePublication} (hq : Pending L q) :
    LeavesPending q Δ ∨ Resolves L q c Δ := by
  -- a failed record resolves the prepare of its key and no other
  have failed : ∀ {c p q0}, Fails L q0 p → (q = q0 → Resolves L q c [p]) →
      (q.idempotencyKey = q0.idempotencyKey → q = q0) →
      LeavesPending q [p] ∨ Resolves L q c [p] := by
    intro c p q0 hf hres honly
    by_cases hk : q.idempotencyKey = q0.idempotencyKey
    · exact Or.inr (hres (honly hk))
    · refine Or.inl fun p' hp' => ?_
      rw [List.mem_singleton.mp hp', hf.key, hf.status]
      exact ⟨fun e => hk e.symm, by simp⟩
  cases hg with
  | unchanged => exact Or.inl fun p hp => absurd hp List.not_mem_nil
  | recorded hc hepoch hcommits =>
    have hcommit := hcommits q hq
    refine Or.inr (.committed hc hcommit ?_)
    rw [hepoch, hcommit.status, h.epoch q hq]
    rfl
  | aborted ht hheads hbound hf =>
    refine failed hf (fun e => ?_) (ht.only q hq)
    subst e
    exact .aborted hheads hbound hf
  | unbound ht hnil hf =>
    refine failed hf (fun e => ?_) (ht.only q hq)
    subst e
    exact .unbound hnil hf
  | reconciled ht hnil hf =>
    have e := h.unique q _ hq ht
    subst e
    exact Or.inr (.reconciled hnil hf)
  | restarted ht hf hs hepoch =>
    have e := h.unique q _ hq ht
    subst e
    exact Or.inr (.restarted hf hs (by rw [hepoch, h.epoch q hq]))

/-- A prepare that is left alone stays pending. -/
theorem Pending.append {L Δ : List StatePublication} {q : StatePublication} (hq : Pending L q)
    (hΔ : LeavesPending q Δ) : Pending (L ++ Δ) q := by
  induction Δ using List.reverseRecOn with
  | nil => rwa [List.append_nil]
  | append_singleton Δ p ih =>
    rw [← List.append_assoc, pending_append_singleton]
    refine Or.inr ⟨(hΔ p (by simp)).1, ih fun p' hp' => hΔ p' ?_⟩
    exact List.mem_append_left _ hp'

/-! ## Runs -/

/-- Every reachable directory stores an exclusive journal. -/
theorem Reachable.stored_exclusive {H : Sha256} {d : StateDirectory} (h : Reachable H d) :
    ∃ L, Stored d L ∧ Exclusive L := by
  refine Step.invariant (I := fun d => ∃ L, Stored d L ∧ Exclusive L) (fun c d hd => ?_)
    ⟨[], stored_empty, exclusive_nil⟩ h
  obtain ⟨L, hL, hex⟩ := hd
  refine wp_mono (fun d' hg => ?_) (fun _ _ _ => trivial) (c.grows (H := H) hL)
  obtain ⟨Δ, hgrow, hs⟩ := hg
  exact ⟨L ++ Δ, hs, hgrow.exclusive hex⟩

/-- The cross-owner gate is closed while a prepare is pending. -/
theorem Stored.requireComplete_error {H : Sha256} {d : StateDirectory} {L : List StatePublication}
    (hs : Stored d L) {q : StatePublication} (hq : Pending L q) (expectedEpoch : Option ℤ)
    (heads : Option (List StateOwnerHead)) :
    ∃ e, requireCompleteStateEpoch H d expectedEpoch heads = .error e := by
  obtain ⟨e, he, -⟩ := hs.readPublicationObservation
  have hne : pendingRecords L ≠ [] := by
    intro hnil
    have hm := mem_pendingRecords.mpr hq
    rw [hnil] at hm
    exact absurd hm List.not_mem_nil
  have hv : readStatePublicationState H d = .ok ⟨e, .blocked, maxByEpoch (completeRecords L),
      pendingRecords L,
      some (.publication "unresolved cross-owner publication is pending recovery")⟩ := by
    rw [readStatePublicationState, he, bind_eq_ok]
    refine ⟨_, rfl, ?_⟩
    simp only
    rw [if_pos hne]
    rfl
  rw [requireCompleteStateEpoch, hv]
  exact ⟨_, rfl⟩

/-- `d` stores the journal `L` followed by records that leave the prepare `q` pending; the epoch
is the one of the prepare, and cross-owner readers are refused. -/
structure StillPending (H : Sha256) (L : List StatePublication) (q : StatePublication)
    (d : StateDirectory) : Prop where
  journal : ∃ Δ, readJournal d = .ok (L ++ Δ) ∧ LeavesPending q Δ ∧ Pending (L ++ Δ) q
  epoch : ∃ e, readStateEpoch d = .ok e ∧ e.epoch = q.epoch
  refused : ∀ expectedEpoch heads,
    ∃ e, requireCompleteStateEpoch H d expectedEpoch heads = .error e

/-- A step of a run that resolves `q`: the call, the journal it found and what it appended. -/
structure ResolvedBetween (H : Sha256) (L : List StatePublication) (q : StatePublication)
    (d d' : StateDirectory) : Prop where
  resolved : ∃ (d1 d2 : StateDirectory) (c : Call) (L1 Δ : List StatePublication),
    Steps (Call.program H) d d1 ∧ StillPending H L q d1 ∧ readJournal d1 = .ok L1 ∧
      d2 ∈ (c.program H d1).writes ∧ readJournal d2 = .ok (L1 ++ Δ) ∧ Resolves L1 q c Δ ∧
      Steps (Call.program H) d2 d'

theorem Stored.stillPending {H : Sha256} {d : StateDirectory} {L Δ : List StatePublication}
    (hs : Stored d (L ++ Δ)) (hex : Exclusive (L ++ Δ)) {q : StatePublication}
    (hΔ : LeavesPending q Δ) (hq : Pending (L ++ Δ) q) : StillPending H L q d := by
  obtain ⟨e, he, hcur⟩ := hs.readPublicationObservation
  refine ⟨⟨Δ, hs.readJournal, hΔ, hq⟩, ⟨e, ?_, ?_⟩, fun n heads => ?_⟩
  · rw [Publication.readStateEpoch, he]
    rfl
  · rw [hcur.epoch hs.numbered, hex.epoch q hq]
  · exact hs.requireComplete_error hq n heads

/-- One step of a run out of a directory where `q` is still pending. -/
theorem StillPending.step {H : Sha256} {L : List StatePublication} {q : StatePublication}
    {d d1 d2 : StateDirectory} (hd : Reachable H d1) (hrun : Steps (Call.program H) d d1)
    (h : StillPending H L q d1) (hstep : Step (Call.program H) d1 d2) :
    StillPending H L q d2 ∨ ResolvedBetween H L q d d2 := by
  obtain ⟨c, hc⟩ := hstep
  rcases List.mem_cons.mp hc with rfl | hw
  · exact Or.inl h
  obtain ⟨L1, hs1, hex⟩ := hd.stored_exclusive
  obtain ⟨Δ1, hj, hΔ1, hq⟩ := h.journal
  rw [hs1.readJournal] at hj
  cases hj
  obtain ⟨Δ, hg, hs2⟩ := (c.grows (H := H) hs1).1 d2 hw
  rcases hg.resolves hex hq with hleave | hres
  · refine Or.inl ?_
    rw [List.append_assoc] at hs2
    have hΔ : LeavesPending q (Δ1 ++ Δ) := by
      intro p hp
      rcases List.mem_append.mp hp with hp | hp
      · exact hΔ1 p hp
      · exact hleave p hp
    have hq2 := hq.append hleave
    have hex2 := hg.exclusive hex
    rw [List.append_assoc] at hq2 hex2
    exact hs2.stillPending hex2 hΔ hq2
  · exact Or.inr ⟨d1, d2, c, L ++ Δ1, Δ, hrun, h, hs1.readJournal, hw, hs2.readJournal, hres,
      Relation.ReflTransGen.refl⟩

/-- **Exclusive pending publication.**  In every reachable directory at most one prepare is
pending.  Along every run from there it stays pending, at the same epoch and with the gate
closed, until a step resolves it in one of the ways of `Resolves`. -/
theorem Reachable.exclusive_pending {H : Sha256} {d : StateDirectory} (hd : Reachable H d) :
    ∃ L, readJournal d = .ok L ∧
      (∀ q q', Pending L q → Pending L q' → q.idempotencyKey = q'.idempotencyKey ∧ q = q') ∧
      ∀ q, Pending L q → ∀ d', Steps (Call.program H) d d' →
        StillPending H L q d' ∨ ResolvedBetween H L q d d' := by
  obtain ⟨L, hs, hex⟩ := hd.stored_exclusive
  refine ⟨L, hs.readJournal, fun q q' hq hq' => ?_, fun q hq d' hrun => ?_⟩
  · have e := hex.unique q q' hq hq'
    exact ⟨by rw [e], e⟩
  · induction hrun with
    | refl =>
      refine Or.inl (Stored.stillPending (Δ := []) ?_ ?_ ?_ ?_)
      · rwa [List.append_nil]
      · rwa [List.append_nil]
      · exact fun p hp => absurd hp List.not_mem_nil
      · rwa [List.append_nil]
    | tail hrun hstep ih =>
      rcases ih with hstill | hres
      · exact hstill.step (hd.trans hrun) hrun hstep
      · obtain ⟨d1, d2, c, L1, Δ, h1, h2, h3, h4, h5, h6, h7⟩ := hres.resolved
        exact Or.inr ⟨d1, d2, c, L1, Δ, h1, h2, h3, h4, h5, h6, h7.tail hstep⟩

/-- A directory with one prepare. -/
def preparedDirectory : StateDirectory :=
  runCalls checksum .empty [.record (plainRequest "a" .partial_) (clock 5)]

theorem exclusive_pending_preparedDirectory :
    Reachable checksum preparedDirectory ∧
      (readJournal preparedDirectory).map (fun L => (pendingRecords L).length) = .ok 1 ∧
      ∃ L, readJournal preparedDirectory = .ok L ∧
        ∀ q, Pending L q → ∀ d', Steps (Call.program checksum) preparedDirectory d' →
          StillPending checksum L q d' ∨ ResolvedBetween checksum L q preparedDirectory d' := by
  have hreach : Reachable checksum preparedDirectory := steps_runCalls checksum _ _
  obtain ⟨L, hj, -, hrun⟩ := Reachable.exclusive_pending hreach
  exact ⟨hreach, by decide +kernel, L, hj, hrun⟩

end Publication
end Neocortex
