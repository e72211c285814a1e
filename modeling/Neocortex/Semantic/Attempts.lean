import Neocortex.Semantic.Schema

/-!
# Attempts

No job is tried more often than its bound.  A claim counts an attempt of a job that is below it;
an enqueue may lower the bound of a job it finds, and resets the attempts of every job whose
bound it has written and whose content it has not.
-/

namespace Neocortex
namespace Semantic

open Python Rows Checks

variable {s : Scope} {db db' : Database}

/-- No job has been tried more often than its bound. -/
def Database.Within (db : Database) : Prop := ∀ j ∈ db.jobs, j.attempts ≤ j.maxAttempts

theorem attempts_afterUpdate (db : Database) (old new : EmbeddingJob) :
    (db.afterUpdate old new).attempts = new.attempts ∧
      (db.afterUpdate old new).maxAttempts = new.maxAttempts := by
  unfold Database.afterUpdate
  split_ifs <;> exact ⟨rfl, rfl⟩

theorem Database.Within.updateJobs (h : db.Within) {p : EmbeddingJob → Bool}
    {f : EmbeddingJob → EmbeddingJob}
    (hf : ∀ j ∈ db.jobs, p j = true → (f j).attempts ≤ (f j).maxAttempts) :
    (db.updateJobs p f).Within := by
  intro j' hj'
  obtain ⟨j, hj, rfl⟩ := mem_updateWhere.mp hj'
  by_cases hp : p j = true
  · rw [if_pos hp, (attempts_afterUpdate db j (f j)).1, (attempts_afterUpdate db j (f j)).2]
    exact hf j hj hp
  · rw [if_neg hp]
    exact h j hj

theorem Statement.within (hs : s ≠ .leases ∧ s ≠ .members) (hstep : Statement s db db')
    (h : db.Within) : db'.Within := by
  rcases hstep.jobs_cases with ⟨f, hf, hjobs⟩ | ⟨j, hj, rfl⟩ | ⟨p, f, -, -, hattempts, rfl⟩ | ⟨p, rfl⟩
  · intro j' hj'
    rw [hjobs] at hj'
    obtain ⟨j, hj, rfl⟩ := List.mem_map.mp hj'
    obtain ⟨_, _, hrow⟩ := hf j
    rw [hrow]
    exact h j hj
  · intro j' hj'
    rcases List.mem_append.mp hj' with hj' | hj'
    · exact h j' hj'
    · rw [List.mem_singleton.mp hj']
      exact hj.attempts
  · exact h.updateJobs fun j hj hp => hattempts hs j hj hp (h j hj)
  · exact fun j hj => h j (mem_deleteWhere.mp hj).1

theorem Transaction.within (hs : s ≠ .leases ∧ s ≠ .members) (ht : Transaction s db db')
    (h : db.Within) : db'.Within := ht.induction (fun hstep => hstep.within hs) h

/-! ## Claims -/

/-- What `_lease_rows` returns, of either modality. -/
structure Leasable (db : Database) (generationId nowNs : ℕ) (rows : List EmbeddingJob) : Prop where
  mem : ∀ j ∈ rows, j ∈ db.jobs
  claimable : ∀ j ∈ rows, j.claimable generationId nowNs = true
  free : ∀ j ∈ rows, ∀ other ∈ db.jobs, other.generationId = generationId →
    other.status = .leased → other.workKey ≠ j.workKey
  keys : Unique EmbeddingJob.workKey rows

/-- Along the pages of text jobs, the selection has jobs of distinct keys that no lease has. -/
theorem pickTextRows_spec {limit : ℕ} {eligible : EmbeddingJob → Bool}
    {leasedKeys : List (Text × ContentFingerprint)} (rows : List EmbeddingJob) :
    ∀ (selected : List EmbeddingJob), (∀ j ∈ selected, j.workKey ∉ leasedKeys) →
      Unique EmbeddingJob.workKey selected →
      (∀ j ∈ pickTextRows limit eligible leasedKeys rows selected,
        (j ∈ selected ∨ j ∈ rows) ∧ j.workKey ∉ leasedKeys) ∧
      Unique EmbeddingJob.workKey (pickTextRows limit eligible leasedKeys rows selected) := by
  induction rows with
  | nil => exact fun selected hfree hkeys => ⟨fun j hj => ⟨.inl hj, hfree j hj⟩, hkeys⟩
  | cons j rows ih =>
    intro selected hfree hkeys
    unfold pickTextRows
    split_ifs with hlimit hskip
    · exact ⟨fun j hj => ⟨.inl hj, hfree j hj⟩, hkeys⟩
    · obtain ⟨hmem, huniq⟩ := ih selected hfree hkeys
      refine ⟨fun k hk => ⟨(hmem k hk).1.imp_right (List.mem_cons_of_mem j), (hmem k hk).2⟩, huniq⟩
    · simp only [Bool.or_eq_true, List.contains_eq_mem, decide_eq_true_eq, not_or] at hskip
      obtain ⟨⟨hnew, hother⟩, -⟩ := hskip
      have hfree' : ∀ k ∈ selected ++ [j], k.workKey ∉ leasedKeys := by
        intro k hk
        rcases List.mem_append.mp hk with hk | hk
        · exact hfree k hk
        · exact List.mem_singleton.mp hk ▸ hnew
      have hkeys' : Unique EmbeddingJob.workKey (selected ++ [j]) :=
        unique_append hkeys fun k hk hkey => hother (hkey ▸ List.mem_map_of_mem hk)
      obtain ⟨hmem, huniq⟩ := ih (selected ++ [j]) hfree' hkeys'
      refine ⟨fun k hk => ⟨?_, (hmem k hk).2⟩, huniq⟩
      rcases (hmem k hk).1 with hin | hin
      · rcases List.mem_append.mp hin with hin | hin
        · exact .inl hin
        · exact .inr (List.mem_singleton.mp hin ▸ List.mem_cons_self)
      · exact .inr (List.mem_cons_of_mem _ hin)

theorem leaseRows_leasable (hunique : Unique EmbeddingJob.jobId db.jobs) (generationId : ℕ)
    (modality : EmbeddingModality) (nowNs limit : ℕ) (eligible : EmbeddingJob → Bool) :
    Leasable db generationId nowNs
      (db.leaseRows generationId modality nowNs limit eligible) := by
  have hleased : ∀ {j other : EmbeddingJob},
      j.workKey ∉ ((db.jobs.filter fun j =>
        j.generationId == generationId && decide (j.status = .leased)).map EmbeddingJob.workKey) →
      other ∈ db.jobs → other.generationId = generationId → other.status = .leased →
      other.workKey ≠ j.workKey := by
    intro j other hfree hother hid hstatus hkey
    refine hfree (List.mem_map.mpr ⟨other, List.mem_filter.mpr ⟨hother, ?_⟩, hkey⟩)
    simp [hid, hstatus]
  cases modality with
  | text =>
    obtain ⟨hmem, hkeys⟩ := @pickTextRows_spec limit eligible
      ((db.jobs.filter fun j =>
        j.generationId == generationId && decide (j.status = .leased)).map EmbeddingJob.workKey)
      (db.jobs.filter fun j => j.claimable generationId nowNs && db.textSourceMatches j) []
      (fun j hj => nomatch hj) (unique_nil _)
    have hrow : ∀ j ∈ db.leaseRows generationId .text nowNs limit eligible,
        j ∈ db.jobs ∧ j.claimable generationId nowNs = true := by
      intro j hj
      have hin := ((hmem j hj).1.resolve_left List.not_mem_nil)
      rw [List.mem_filter, Bool.and_eq_true] at hin
      exact ⟨hin.1, hin.2.1⟩
    exact ⟨fun j hj => (hrow j hj).1, fun j hj => (hrow j hj).2,
      fun j hj other hother hid hstatus => hleased (hmem j hj).2 hother hid hstatus, hkeys⟩
  | image =>
    have hrow : ∀ j ∈ db.leaseRows generationId .image nowNs limit eligible,
        j ∈ db.jobs ∧ j.claimable generationId nowNs = true ∧
          j.workKey ∉ ((db.jobs.filter fun j => j.generationId == generationId &&
            decide (j.status = .leased)).map EmbeddingJob.workKey) ∧
          ∀ c ∈ db.jobs, c.claimable generationId nowNs = true → c.workKey = j.workKey →
            j.jobId ≤ c.jobId := by
      intro j hj
      have hin := List.mem_of_mem_take hj
      simp only [List.mem_filter, Bool.and_eq_true, Bool.not_eq_true', List.contains_eq_mem,
        decide_eq_false_iff_not, List.all_eq_true, beq_iff_eq, decide_eq_true_eq] at hin
      exact ⟨hin.1, hin.2.1.1.1, hin.2.1.1.2, fun c hc hcl hkey => hin.2.1.2 c ⟨hc, hcl, hkey⟩⟩
    refine ⟨fun j hj => (hrow j hj).1, fun j hj => (hrow j hj).2.1,
      fun j hj other hother hid hstatus => hleased (hrow j hj).2.2.1 hother hid hstatus, ?_⟩
    -- each row is the least claimable job of its key, so that two of one key are one job
    have hsub : (db.leaseRows generationId .image nowNs limit eligible).Sublist db.jobs :=
      (List.take_sublist _ _).trans List.filter_sublist
    refine (hunique.sublist hsub).imp_of_mem fun {j other} hj hother hne hkey => hne ?_
    obtain ⟨hj₁, hj₂, -, hj₃⟩ := hrow j hj
    obtain ⟨ho₁, ho₂, -, ho₃⟩ := hrow other hother
    exact le_antisymm (hj₃ other ho₁ ho₂ hkey.symm) (ho₃ j hj₁ hj₂ hkey)

/-- A job with the identifier of a claimed row is that row. -/
theorem claimed_row {rows : List EmbeddingJob} (hunique : Unique EmbeddingJob.jobId db.jobs)
    (hmem : ∀ j ∈ rows, j ∈ db.jobs) {j : EmbeddingJob} (hj : j ∈ db.jobs)
    (hid : (rows.map EmbeddingJob.jobId).contains j.jobId = true) : j ∈ rows := by
  rw [List.contains_eq_mem, decide_eq_true_eq] at hid
  obtain ⟨row, hrow, hrowId⟩ := List.mem_map.mp hid
  exact hunique.eq (hmem row hrow) hj hrowId ▸ hrow

theorem jobRows_reconciled (h : db.JobRows) {call : ClaimCall} {g : EmbeddingGeneration}
    {m : EmbeddingModel} (hgm : db.generationModel call.generationId = some (g, m)) :
    (db.reconciled call m).JobRows :=
  (transaction_reconciled (s := .plain) hgm).induction (fun hstep => hstep.jobRows) h

theorem leasable_claimedRows (h : db.JobRows) {call : ClaimCall} {g : EmbeddingGeneration}
    {m : EmbeddingModel} (hgm : db.generationModel call.generationId = some (g, m)) :
    Leasable (db.reconciled call m) call.generationId call.nowNs (db.claimedRows call m) :=
  leaseRows_leasable (jobRows_reconciled h hgm).unique_jobs _ _ _ _ _

theorem within_claim (h : db.Within) (hrows : db.JobRows) {call : ClaimCall}
    {leases : List EmbeddingJobLease} (hclaim : db.claimEmbeddingJobs call = some (db', leases)) :
    db'.Within := by
  obtain ⟨g, m, hgm, rfl, -⟩ := claim_cases hclaim
  have hleasable := leasable_claimedRows hrows hgm
  have hwithin : (db.reconciled call m).Within :=
    (transaction_reconciled (s := .plain) hgm).within (by decide) h
  refine hwithin.updateJobs fun j hj hid => ?_
  have hrow := claimed_row (jobRows_reconciled hrows hgm).unique_jobs hleasable.mem hj hid
  have hclaimable := hleasable.claimable j hrow
  simp only [EmbeddingJob.claimable, Bool.and_eq_true, decide_eq_true_eq] at hclaimable
  exact hclaimable.1.1.2

/-! ## Enqueue -/

/-- The jobs of an enqueue that may have been tried too often until they are reset. -/
def Database.WithinExcept (db : Database) (call : EnqueueCall) (forced : List Text) : Prop :=
  ∀ j ∈ db.jobs, j.attempts ≤ j.maxAttempts ∨
    (j.generationId = call.generationId ∧ j.entityKind = call.modality.entityKind ∧
      j.entityId ∈ forced)

/-- Every row still to be written has new content for its job, or its job will be reset. -/
def Database.Pending (db : Database) (call : EnqueueCall) (forced : List Text)
    (rows : List QueueRow) : Prop :=
  ∀ row ∈ rows, ∀ j ∈ db.jobs,
    sameJob call.generationId call.modality.entityKind row.entityId j = true →
      row.entityId ∈ forced ∨ j.fingerprint ≠ row.fingerprint

/-- The jobs of a selection are those that were there, but for their state. -/
def SameContent (db db' : Database) : Prop :=
  ∀ j' ∈ db'.jobs, ∃ j ∈ db.jobs, j'.identity = j.identity ∧ j'.fingerprint = j.fingerprint ∧
    j'.attempts = j.attempts ∧ j'.maxAttempts = j.maxAttempts

theorem SameContent.refl (db : Database) : SameContent db db :=
  fun j hj => ⟨j, hj, rfl, rfl, rfl, rfl⟩

theorem SameContent.trans {db₁ db₂ db₃ : Database} (h : SameContent db₁ db₂)
    (h' : SameContent db₂ db₃) : SameContent db₁ db₃ := by
  intro j₃ hj₃
  obtain ⟨j₂, hj₂, hid, hfinger, hattempts, hmax⟩ := h' j₃ hj₃
  obtain ⟨j₁, hj₁, hid', hfinger', hattempts', hmax'⟩ := h j₂ hj₂
  exact ⟨j₁, hj₁, hid.trans hid', hfinger.trans hfinger', hattempts.trans hattempts',
    hmax.trans hmax'⟩

theorem sameContent_finishJob (db : Database) (jobId : ℕ) :
    SameContent db (db.finishJob jobId) := by
  intro j' hj'
  obtain ⟨j, hj, rfl⟩ := mem_updateWhere.mp hj'
  refine ⟨j, hj, ?_⟩
  unfold Database.afterUpdate
  split_ifs <;> exact ⟨rfl, rfl, rfl, rfl⟩

theorem sameContent_of_jobs (h : db'.jobs = db.jobs) : SameContent db db' := by
  intro j hj
  rw [h] at hj
  exact ⟨j, hj, rfl, rfl, rfl, rfl⟩

theorem jobs_clearRebound (db : Database) (call : EnqueueCall) (m : GenerationMember) :
    (db.clearRebound call m).jobs = db.jobs := by
  unfold Database.clearRebound
  split_ifs <;> rfl

theorem sameContent_rebind (db : Database) (call : EnqueueCall) (row : QueueRow)
    (m : GenerationMember) (itemRevisionId : ℕ) (chunkRevisionId : Option ℕ)
    (prior : Option EmbeddingJob) :
    SameContent db (db.rebindGenerationMember call row m itemRevisionId chunkRevisionId prior) := by
  have hbound : SameContent db ((db.clearRebound call m).upsertMember
      (m.reboundTo call row itemRevisionId chunkRevisionId)) :=
    sameContent_of_jobs ((jobs_upsertMember _ _).trans (jobs_clearRebound _ _ _))
  cases prior with
  | none => exact hbound
  | some j => exact hbound.trans (sameContent_finishJob _ _)

theorem sameContent_finishExistingJob (db : Database) (prior : Option EmbeddingJob) :
    SameContent db (db.finishExistingJob prior) := by
  unfold Database.finishExistingJob
  split
  · exact SameContent.refl db
  · split_ifs
    · exact SameContent.refl db
    · exact sameContent_finishJob _ _

/-- What `_select_queue_rows` returns: the content of the jobs, and for each row that is to be
written whether its job keeps its content. -/
theorem selectQueueRows_spec {call : EnqueueCall} (entries : List QueueEntry) :
    ∀ (db : Database) (selection : QueueSelection),
      SameContent db (selectQueueRows call entries db selection).1 ∧
      (∃ rows, (selectQueueRows call entries db selection).2.rows = selection.rows ++ rows ∧
        rows.Sublist (entries.map QueueEntry.row) ∧
        ∀ row ∈ rows, ∃ e ∈ entries, e.row = row ∧
          (e.changed = true ∨
            row.entityId ∈ (selectQueueRows call entries db selection).2.forcePendingIds)) ∧
      selection.forcePendingIds ⊆
        (selectQueueRows call entries db selection).2.forcePendingIds := by
  induction entries with
  | nil =>
    exact fun db selection => ⟨SameContent.refl db, ⟨[], (List.append_nil _).symm,
      List.Sublist.refl _, fun row hrow => nomatch hrow⟩, List.Subset.refl _⟩
  | cons e entries ih =>
    intro db selection
    -- a step that writes no row of the queue
    have hskip : ∀ {db₁ : Database} {selection₁ : QueueSelection}, SameContent db db₁ →
        selection₁.rows = selection.rows →
        selection₁.forcePendingIds = selection.forcePendingIds →
        SameContent db (selectQueueRows call entries db₁ selection₁).1 ∧
        (∃ rows, (selectQueueRows call entries db₁ selection₁).2.rows = selection.rows ++ rows ∧
          rows.Sublist ((e :: entries).map QueueEntry.row) ∧
          ∀ row ∈ rows, ∃ e' ∈ e :: entries, e'.row = row ∧
            (e'.changed = true ∨
              row.entityId ∈ (selectQueueRows call entries db₁ selection₁).2.forcePendingIds)) ∧
        selection.forcePendingIds ⊆
          (selectQueueRows call entries db₁ selection₁).2.forcePendingIds := by
      intro db₁ selection₁ hcontent hrows hforced
      obtain ⟨hsame, ⟨rows, hrest, hsub, hmem⟩, hsubset⟩ := ih db₁ selection₁
      refine ⟨hcontent.trans hsame, ⟨rows, by rw [hrest, hrows], hsub.cons _, fun row hrow => ?_⟩,
        hforced ▸ hsubset⟩
      obtain ⟨e', he', hprop⟩ := hmem row hrow
      exact ⟨e', List.mem_cons_of_mem _ he', hprop⟩
    unfold selectQueueRows
    split
    · exact hskip (sameContent_rebind _ _ _ _ _ _ _) rfl rfl
    · exact hskip (sameContent_finishExistingJob _ _) rfl rfl
    · by_cases hfull : (e.changed && call.maxNewJobs.any fun limit =>
          decide (limit ≤ selection.newJobs)) = true
      · rw [if_pos hfull]
        exact ⟨SameContent.refl db, ⟨[], (List.append_nil _).symm, List.nil_sublist _,
          fun row hrow => nomatch hrow⟩, List.Subset.refl _⟩
      · rw [if_neg hfull]
        dsimp only
        generalize hnext : ({ selection with
          rows := selection.rows ++ [e.row]
          forcePendingIds := if e.changed = true then selection.forcePendingIds
            else selection.forcePendingIds ++ [e.row.entityId]
          newJobs := selection.newJobs + if e.changed = true then 1 else 0 } :
            QueueSelection) = next
        obtain ⟨hsame, ⟨rows, hrest, hsub, hmem⟩, hsubset⟩ := ih db next
        have hforced : selection.forcePendingIds ⊆ next.forcePendingIds := by
          rw [← hnext]
          split_ifs
          · exact List.Subset.refl _
          · exact List.subset_append_left _ _
        refine ⟨hsame, ⟨e.row :: rows, ?_, hsub.cons_cons _, ?_⟩,
          List.Subset.trans hforced hsubset⟩
        · rw [hrest, ← hnext]
          exact List.append_assoc _ _ _
        · intro row hrow
          rcases List.mem_cons.mp hrow with rfl | hrow
          · refine ⟨e, List.mem_cons_self, rfl, ?_⟩
            by_cases hchanged : e.changed = true
            · exact .inl hchanged
            · refine .inr (hsubset ?_)
              rw [← hnext, if_neg hchanged]
              exact List.mem_append_right _ List.mem_cons_self
          · obtain ⟨e', he', hprop⟩ := hmem row hrow
            exact ⟨e', List.mem_cons_of_mem _ he', hprop⟩

theorem sameJob_iff {id : ℕ} {kind : SemanticEntityKind} {entityId : Text} {j : EmbeddingJob} :
    sameJob id kind entityId j = true ↔
      j.generationId = id ∧ j.entityKind = kind ∧ j.entityId = entityId := by
  simp [sameJob, and_assoc]

/-- One row of the queue: its job is new, or gets new content, or will be reset. -/
theorem within_upsertQueueJob {call : EnqueueCall} {signature : Text} {forced : List Text}
    {row : QueueRow} {rows : List QueueRow}
    (hdistinct : ∀ other ∈ rows, other.entityId ≠ row.entityId)
    (hpending : db.Pending call forced (row :: rows)) (h : db.WithinExcept call forced) :
    (db.upsertQueueJob call signature row).WithinExcept call forced ∧
      (db.upsertQueueJob call signature row).Pending call forced rows := by
  unfold Database.upsertQueueJob
  by_cases hsame : db.jobs.any (sameJob call.generationId call.modality.entityKind row.entityId) =
      true
  · rw [if_pos hsame]
    refine ⟨fun j' hj' => ?_, fun other hother j' hj' hkey => ?_⟩
    · obtain ⟨j, hj, rfl⟩ := mem_updateWhere.mp hj'
      by_cases hsel : sameJob call.generationId call.modality.entityKind row.entityId j = true
      · rw [if_pos hsel, (attempts_afterUpdate db _ _).1, (attempts_afterUpdate db _ _).2]
        obtain ⟨hid, hkind, hentity⟩ := sameJob_iff.mp hsel
        rcases hpending row List.mem_cons_self j hj hsel with hforced | hchanged
        · refine .inr ?_
          have hidentity := identity_afterUpdate db j (j.requeue call row)
          have hentity' : (db.afterUpdate j (j.requeue call row)).entityId = row.entityId :=
            (congrArg JobIdentity.entityId hidentity).trans hentity
          exact ⟨(congrArg JobIdentity.generationId hidentity).trans hid,
            (congrArg JobIdentity.entityKind hidentity).trans hkind, hentity' ▸ hforced⟩
        · refine .inl ?_
          simp [EmbeddingJob.requeue, hchanged]
      · rw [if_neg hsel]
        exact h j hj
    · obtain ⟨j, hj, rfl⟩ := mem_updateWhere.mp hj'
      by_cases hsel : sameJob call.generationId call.modality.entityKind row.entityId j = true
      · exfalso
        rw [if_pos hsel] at hkey
        have hidentity := identity_afterUpdate db j (j.requeue call row)
        have hentity := (congrArg JobIdentity.entityId hidentity).trans (sameJob_iff.mp hsel).2.2
        exact hdistinct other hother ((sameJob_iff.mp hkey).2.2.symm.trans hentity)
      · rw [if_neg hsel] at hkey ⊢
        exact hpending other (List.mem_cons_of_mem _ hother) j hj hkey
  · rw [if_neg hsame]
    refine ⟨fun j' hj' => ?_, fun other hother j' hj' hkey => ?_⟩
    · rcases List.mem_append.mp hj' with hj' | hj'
      · exact h j' hj'
      · rw [List.mem_singleton.mp hj']
        exact .inl (Nat.zero_le _)
    · rcases List.mem_append.mp hj' with hj' | hj'
      · exact hpending other (List.mem_cons_of_mem _ hother) j' hj' hkey
      · rw [List.mem_singleton.mp hj'] at hkey
        exact absurd (sameJob_iff.mp hkey).2.2.symm (hdistinct other hother)

theorem within_upsertQueueJobs {call : EnqueueCall} {signature : Text} {forced : List Text}
    (rows : List QueueRow) :
    ∀ {db : Database}, (rows.map QueueRow.entityId).Nodup → db.Pending call forced rows →
      db.WithinExcept call forced →
      (rows.foldl (Database.upsertQueueJob call signature) db).WithinExcept call forced := by
  induction rows with
  | nil => exact fun _ _ h => h
  | cons row rows ih =>
    intro db hnodup hpending h
    rw [List.map_cons, List.nodup_cons] at hnodup
    have hdistinct : ∀ other ∈ rows, other.entityId ≠ row.entityId := fun other hother heq =>
      hnodup.1 (heq ▸ List.mem_map_of_mem hother)
    obtain ⟨hwithin, hrest⟩ := @within_upsertQueueJob _ _ signature _ _ _ hdistinct hpending h
    exact ih hnodup.2 hrest hwithin

/-- The reset brings every job that was left out below its bound. -/
theorem within_reset {call : EnqueueCall} {forced : List Text}
    (h : db.WithinExcept call forced) : (db.resetQueueJobsPending call forced).Within := by
  intro j' hj'
  obtain ⟨j, hj, rfl⟩ := mem_updateWhere.mp hj'
  by_cases hsel : (j.generationId == call.generationId &&
      decide (j.entityKind = call.modality.entityKind) && forced.contains j.entityId) = true
  · rw [if_pos hsel, (attempts_afterUpdate db _ _).1]
    exact Nat.zero_le _
  · rw [if_neg hsel]
    rcases h j hj with hwithin | ⟨hid, hkind, hforced⟩
    · exact hwithin
    · exact absurd (by simp [hid, hkind, hforced]) hsel

theorem queueEntityRow_entityId {kind : SemanticEntityKind} {id : Text} {row : QueueRow}
    (h : db.queueEntityRow kind id = some row) : row.entityId = id := by
  unfold Database.queueEntityRow at h
  cases kind with
  | textChunk =>
    simp only [bind_eq_some, pure_eq_some] at h
    obtain ⟨c, hc, _, -, rfl⟩ := h
    have hid := List.find?_some hc
    simp only [Bool.and_eq_true, beq_iff_eq] at hid
    exact hid.1
  | imageItem =>
    simp only [bind_eq_some, pure_eq_some] at h
    obtain ⟨i, hi, rfl⟩ := h
    have hid := List.find?_some hi
    simp only [Bool.and_eq_true, beq_iff_eq] at hid
    exact hid.1.1

theorem map_entityId_of_mapM {kind : SemanticEntityKind} :
    ∀ {ids : List Text} {rows : List QueueRow}, ids.mapM (db.queueEntityRow kind) = some rows →
      rows.map QueueRow.entityId = ids
  | [], rows, h => by
    rw [List.mapM_nil, pure_eq_some] at h
    rw [← h, List.map_nil]
  | id :: ids, rows, h => by
    rw [List.mapM_cons, bind_eq_some] at h
    obtain ⟨row, hrow, h⟩ := h
    rw [bind_eq_some] at h
    obtain ⟨rest, hrest, h⟩ := h
    rw [pure_eq_some] at h
    rw [← h, List.map_cons, queueEntityRow_entityId hrow, map_entityId_of_mapM hrest]

/-- The job of an entity of a generation is the only one. -/
theorem queueExistingJob_eq (h : db.JobRows) {j : EmbeddingJob} (hj : j ∈ db.jobs) {id : ℕ}
    {kind : SemanticEntityKind} {entityId : Text} (hid : j.generationId = id)
    (hkind : j.entityKind = kind) (hentity : j.entityId = entityId) :
    db.queueExistingJob id kind entityId = some j := by
  have hunique : Unique (fun j : EmbeddingJob => j.identity.key) db.jobs :=
    unique_map.mp h.uniqueKeys
  have hfind := hunique.find?_eq hj
  unfold Database.queueExistingJob
  rw [← hfind]
  refine congrArg (fun p => db.jobs.find? p) (funext fun other => ?_)
  rw [← hid, ← hkind, ← hentity]
  simp only [sameJob, JobIdentity.key, EmbeddingJob.identity, Prod.mk.injEq, beq_eq_decide,
    Bool.decide_and, Bool.and_assoc]

theorem within_enqueue (h : db.Within) (hrows : db.JobRows) {call : EnqueueCall}
    {rebound : List Text} (henqueue : db.enqueueJobBatch call = some (db', rebound)) :
    db'.Within := by
  obtain ⟨-, ⟨rfl, -⟩ | ⟨g, m, rows, -, -, hmapM, rfl, -⟩⟩ := enqueue_cases henqueue
  · exact h
  · obtain ⟨hcontent, ⟨selected, hselected, hsub, hmem⟩, -⟩ :=
      @selectQueueRows_spec call (db.queueEntries call g rows) db {}
    have hmapRow : (db.queueEntries call g rows).map QueueEntry.row = rows := by
      simp [Database.queueEntries, Function.comp_def]
    rw [hmapRow] at hsub
    have hnodup : (selected.map QueueRow.entityId).Nodup := by
      refine (hsub.map QueueRow.entityId).nodup ?_
      rw [map_entityId_of_mapM hmapM]
      exact nodup_eraseDups _
    have hselected' : (selectQueueRows call (db.queueEntries call g rows) db {}).2.rows =
        selected := hselected
    rw [hselected']
    refine within_reset (within_upsertQueueJobs selected hnodup ?_ ?_)
    · intro row hrow j' hj' hkey
      obtain ⟨e, he, rfl, hchanged | hforced⟩ := hmem row hrow
      · refine .inr fun hfinger => ?_
        obtain ⟨j, hj, hidentity, hfinger', -, -⟩ := hcontent j' hj'
        obtain ⟨row, -, rfl⟩ := List.mem_map.mp he
        -- the job of the key is the one that the selection has seen
        have hprior : db.queueExistingJob call.generationId call.modality.entityKind
            row.entityId = some j := by
          obtain ⟨hid', hkind', hentity'⟩ := sameJob_iff.mp hkey
          refine queueExistingJob_eq hrows hj ((congrArg JobIdentity.generationId hidentity).symm.trans
            hid') ((congrArg JobIdentity.entityKind hidentity).symm.trans hkind') ?_
          exact (congrArg JobIdentity.entityId hidentity).symm.trans hentity'
        simp only [QueueEntry.changed, hprior, decide_eq_true_eq] at hchanged
        exact hchanged (hfinger'.symm.trans hfinger)
      · exact .inl hforced
    · intro j' hj'
      obtain ⟨j, hj, -, -, hattempts, hmax⟩ := hcontent j' hj'
      rw [hattempts, hmax]
      exact .inl (h j hj)

/-! ## Every transaction -/

theorem jobs_insertMember (db : Database) (m : GenerationMember) :
    (db.insertMember m).jobs = db.jobs := by
  unfold Database.insertMember
  split_ifs <;> rfl

theorem jobs_insertCopies (id : ℕ) (rows : List GenerationMember) (db : Database) :
    (rows.foldl (fun db m => db.insertMember (m.copyTo id)) db).jobs = db.jobs := by
  induction rows generalizing db with
  | nil => rfl
  | cons m rows ih => rw [List.foldl_cons, ih, jobs_insertMember]

/-- The copy of the base writes no job. -/
theorem jobs_clone {id : ℕ} {validateExtent : Bool} {rows : List GenerationMember}
    (h : db.clonePublishedMembers id validateExtent = some (db', rows)) : db'.jobs = db.jobs := by
  obtain ⟨g, -, -, ⟨-, rfl, -⟩ | ⟨-, -, -, rfl⟩ | ⟨base, c, -, -, -, -, hpage⟩⟩ := clone_cases h
  · rfl
  · rfl
  · rcases hpage with ⟨-, hfinish⟩ | ⟨-, rfl⟩
    · obtain ⟨-, -, rfl⟩ := finish_cases hfinish
      rfl
    · exact jobs_insertCopies _ _ _

theorem perform_within (h : db.Within) (hrows : db.JobRows) {op : Op} {outcome : Outcome}
    (hperform : db.perform op = some (db', outcome)) : db'.Within := by
  have ht := perform_transaction hrows.unique_generations hperform
  cases op with
  | claim call =>
    obtain ⟨r, hr, heq⟩ := Option.map_eq_some_iff.mp hperform
    obtain ⟨rfl, -⟩ := Prod.mk.inj heq
    exact within_claim h hrows hr
  | heartbeat jobIds workerId leaseNs nowNs =>
    obtain ⟨r, hr, heq⟩ := Option.map_eq_some_iff.mp hperform
    obtain ⟨rfl, -⟩ := Prod.mk.inj heq
    rw [heartbeat_cases hr]
    exact h.updateJobs fun j hj _ => h j hj
  | enqueue call =>
    obtain ⟨r, hr, heq⟩ := Option.map_eq_some_iff.mp hperform
    obtain ⟨rfl, -⟩ := Prod.mk.inj heq
    exact within_enqueue h hrows hr
  | clonePage id validateExtent =>
    obtain ⟨r, hr, heq⟩ := Option.map_eq_some_iff.mp hperform
    obtain ⟨rfl, -⟩ := Prod.mk.inj heq
    intro j hj
    exact h j (jobs_clone hr ▸ hj)
  | _ =>
    refine Transaction.within ?_ ht h
    exact ⟨(fun hs => nomatch hs), fun hs => nomatch hs⟩

end Semantic
end Neocortex
