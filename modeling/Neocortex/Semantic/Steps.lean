import Neocortex.Library.Checks
import Neocortex.Semantic.Generations

/-!
# What a transaction does

One inversion lemma for each transaction of the owner: the checks it has passed when it
succeeds, and the database it leaves.  The invariants are derived from these.
-/

namespace Neocortex
namespace Semantic

open Python Rows Checks

variable {db db' : Database}

/-! ## Lookups -/

theorem generation_spec {id : ℕ} {g : EmbeddingGeneration} (h : db.generation id = some g) :
    g ∈ db.generations ∧ g.generationId = id := by
  refine ⟨List.mem_of_find?_eq_some h, ?_⟩
  have hid := List.find?_some h
  simpa using hid

theorem loadModel_spec {signature : Text} {m : EmbeddingModel}
    (h : db.loadModel signature = some m) :
    m ∈ db.models ∧ m.modelSignature = signature := by
  refine ⟨List.mem_of_find?_eq_some h, ?_⟩
  have hm := List.find?_some h
  simp only [Bool.and_eq_true, beq_iff_eq] at hm
  exact hm.1

theorem generationModel_cases {id : ℕ} {g : EmbeddingGeneration} {m : EmbeddingModel}
    (h : db.generationModel id = some (g, m)) :
    db.generation id = some g ∧ g.status = .building ∧ db.loadModel g.modelSignature = some m := by
  simp only [Database.generationModel, bind_eq_some, guard_eq_some, exists_const, pure_eq_some,
    Prod.mk.injEq] at h
  obtain ⟨g', hg, hb, m', hm, rfl, rfl⟩ := h
  exact ⟨hg, hb, hm⟩

theorem job_spec {id : ℕ} {j : EmbeddingJob} (h : db.job id = some j) :
    j ∈ db.jobs ∧ j.jobId = id := by
  refine ⟨List.mem_of_find?_eq_some h, ?_⟩
  have hid := List.find?_some h
  simpa using hid

/-! ## The queue -/

/-- The rows that an enqueue has found, with what the database knew of them. -/
def Database.queueEntries (db : Database) (call : EnqueueCall) (g : EmbeddingGeneration)
    (rows : List QueueRow) : List QueueEntry :=
  rows.map fun row =>
    QueueEntry.mk row (db.queueExistingJob call.generationId call.modality.entityKind row.entityId)
      (db.queueGenerationMember g call.modality.entityKind row.entityId)

theorem enqueue_cases {call : EnqueueCall} {rebound : List Text}
    (h : db.enqueueJobBatch call = some (db', rebound)) :
    (1 ≤ call.maxAttempts) ∧ ((db' = db ∧ rebound = []) ∨
      ∃ g m rows, db.generationModel call.generationId = some (g, m) ∧ m.modality = call.modality ∧
        call.identifiers.eraseDups.mapM (db.queueEntityRow call.modality.entityKind) = some rows ∧
        db' = ((selectQueueRows call (db.queueEntries call g rows) db {}).2.rows.foldl
          (Database.upsertQueueJob call m.modelSignature)
          (selectQueueRows call (db.queueEntries call g rows) db {}).1).resetQueueJobsPending call
            (selectQueueRows call (db.queueEntries call g rows) db {}).2.forcePendingIds ∧
        rebound = (selectQueueRows call (db.queueEntries call g rows) db {}).2.rebound) := by
  simp only [Database.enqueueJobBatch, bind_eq_some, guard_eq_some, exists_const] at h
  obtain ⟨hmax, -, -, h⟩ := h
  refine ⟨hmax.1, ?_⟩
  by_cases hbatch : call.identifiers.eraseDups = []
  · rw [if_pos hbatch, pure_eq_some, Prod.mk.injEq] at h
    exact .inl ⟨h.1.symm, h.2.symm⟩
  · rw [if_neg hbatch] at h
    simp only [bind_eq_some, guard_eq_some, exists_const, pure_eq_some, Prod.mk.injEq, Prod.exists] at h
    obtain ⟨g, m, hgm, hrole, rows, hrows, hdb, hre⟩ := h
    exact .inr ⟨g, m, rows, hgm, hrole.1, hrows, hdb.symm, hre.symm⟩

/-- The database in which a claim chooses its rows. -/
def Database.reconciled (db : Database) (call : ClaimCall) (m : EmbeddingModel) : Database :=
  (db.reconcileExpiredLeases call.generationId call.nowNs).markStaleJobs call.generationId
    m.modality false

/-- The rows that a claim leases. -/
def Database.claimedRows (db : Database) (call : ClaimCall) (m : EmbeddingModel) :
    List EmbeddingJob :=
  (db.reconciled call m).leaseRows call.generationId m.modality call.nowNs call.limit call.eligible

theorem claim_cases {call : ClaimCall} {leases : List EmbeddingJobLease}
    (h : db.claimEmbeddingJobs call = some (db', leases)) :
    ∃ g m, db.generationModel call.generationId = some (g, m) ∧
      db' = (db.reconciled call m).updateJobs
        (fun j => ((db.claimedRows call m).map EmbeddingJob.jobId).contains j.jobId)
        (EmbeddingJob.toLeased call) ∧
      leases = (db.claimedRows call m).map fun j =>
        ⟨j.jobId, call.generationId, g.modelSignature, j.entityKind, j.entityId, j.itemId,
          j.fingerprint, j.attempts + 1, call.nowNs + call.leaseNs⟩ := by
  simp only [Database.claimEmbeddingJobs, bind_eq_some, guard_eq_some, exists_const, pure_eq_some,
    Prod.mk.injEq, Prod.exists] at h
  obtain ⟨-, -, g, m, hgm, hdb, hleases⟩ := h
  exact ⟨g, m, hgm, hdb.symm, hleases.symm⟩

theorem heartbeat_cases {jobIds : List ℕ} {workerId : Text} {leaseNs nowNs : ℕ}
    (h : db.heartbeatEmbeddingJobs jobIds workerId leaseNs nowNs = some db') :
    db' = db.updateJobs (fun j => jobIds.contains j.jobId && j.heldBy workerId nowNs) fun j =>
      { j with leaseUntilNs := j.leaseUntilNs.map fun until_ => max until_ (nowNs + leaseNs) } := by
  simp only [Database.heartbeatEmbeddingJobs, bind_eq_some, guard_eq_some, exists_const,
    pure_eq_some] at h
  exact h.2.2.symm

theorem attachPayload_cases {j : EmbeddingJob} {payloadId nowNs : ℕ} {a : Attachment}
    (h : db.attachPayload j payloadId nowNs a = some db') :
    ∃ g m, db.generation j.generationId = some g ∧ g.status = .building ∧
      g.modelSignature = j.modelSignature ∧ g.baseCloneComplete = true ∧
      m.generationId = j.generationId ∧ m.baseMemberId = none ∧ m.memberId = 0 ∧
      m.entityKind = j.entityKind ∧ m.entityId = j.entityId ∧ db' = db.upsertMember m := by
  simp only [Database.attachPayload, bind_eq_some, guard_eq_some, exists_const, pure_eq_some] at h
  obtain ⟨g, hg, ⟨hb, hs, hc⟩, h⟩ := h
  exact ⟨g, _, hg, hb, hs, hc, rfl, rfl, rfl, rfl, rfl, h.symm⟩

/-- The database with the payload of a completed job. -/
def Database.storePayload (db : Database) (j : EmbeddingJob) (blob : List UInt8) : Database :=
  if (db.cachedPayload j.modelSignature j.fingerprint).isSome then db
  else db.insertPayload j.modelSignature j.fingerprint blob

theorem complete_cases {jobId : ℕ} {workerId : Text} {blob : List UInt8} {nowNs : ℕ}
    {a : Attachment} {result : Completion}
    (h : db.completeEmbeddingJob jobId workerId blob nowNs a = some (db', result)) :
    ∃ j, db.job jobId = some j ∧ j.heldBy workerId nowNs = true ∧
      ((result = .accepted ∧ ∃ payloadId attached,
          (db.storePayload j blob).attachPayload j payloadId nowNs a = some attached ∧
          db' = attached.finishJob jobId) ∨
        (result = .stale ∧
          db' = db.updateJobs (fun other => other.jobId == jobId) EmbeddingJob.toStale)) := by
  simp only [Database.completeEmbeddingJob, bind_eq_some, guard_eq_some, exists_const] at h
  obtain ⟨-, j, hj, hheld, h⟩ := h
  refine ⟨j, hj, hheld, ?_⟩
  by_cases hcurrent : db.jobIsCurrent j = true
  · rw [if_pos hcurrent] at h
    simp only [bind_eq_some, pure_eq_some, Prod.mk.injEq] at h
    obtain ⟨_, -, payloadId, -, attached, hattached, rfl, rfl⟩ := h
    exact .inl ⟨rfl, payloadId, attached, hattached, rfl⟩
  · rw [if_neg hcurrent, pure_eq_some, Prod.mk.injEq] at h
    exact .inr ⟨h.2.symm, h.1.symm⟩

theorem recordStale_cases {jobId : ℕ} {workerId : Text} {nowNs : ℕ}
    (h : db.recordStaleEmbeddingJob jobId workerId nowNs = some db') :
    db' = db.updateJobs (fun other => other.jobId == jobId && other.heldBy workerId nowNs)
      EmbeddingJob.toStale := by
  simp only [Database.recordStaleEmbeddingJob, bind_eq_some, guard_eq_some, exists_const, pure_eq_some] at h
  obtain ⟨_, -, -, h⟩ := h
  exact h.symm

theorem fail_cases {jobId : ℕ} {workerId : Text} {retryable : Bool} {delayNs nowNs : ℕ}
    (h : db.failEmbeddingJob jobId workerId retryable delayNs nowNs = some db') :
    ∃ status : JobStatus, status ≠ .leased ∧
      db' = db.updateJobs (fun other => other.jobId == jobId && other.heldBy workerId nowNs)
        fun other =>
          { other with
            status := status
            availableNs := nowNs + delayNs
            leaseOwner := none
            leaseUntilNs := none } := by
  simp only [Database.failEmbeddingJob, bind_eq_some, guard_eq_some, exists_const, pure_eq_some] at h
  obtain ⟨-, j, -, -, h⟩ := h
  refine ⟨_, ?_, h.symm⟩
  split <;> exact fun hs => nomatch hs

theorem release_cases {jobId : ℕ} {workerId : Text} {nowNs : ℕ}
    (h : db.releaseEmbeddingJobLease jobId workerId nowNs = some db') :
    db' = db.updateJobs
      (fun other => other.jobId == jobId && decide (other.status = .leased) &&
        other.leaseOwner == some workerId) fun other =>
      { other with
        status := .pending
        attempts := other.attempts - 1
        availableNs := nowNs
        leaseOwner := none
        leaseUntilNs := none } := by
  simp only [Database.releaseEmbeddingJobLease, bind_eq_some, guard_eq_some, exists_const,
    pure_eq_some] at h
  obtain ⟨-, _, -, -, h⟩ := h
  exact h.symm

theorem reuse_cases {id limit nowNs : ℕ} {attachment : EmbeddingJob → Attachment}
    (h : db.reuseCachedJobs id limit nowNs attachment = some db') :
    ∃ g m, db.generationModel id = some (g, m) ∧
      (((db.markStaleJobs id m.modality false).cachedRows id m.modality true).take limit).foldlM
        (Database.reuseCachedJob nowNs attachment) (db.markStaleJobs id m.modality false) =
        some db' := by
  simp only [Database.reuseCachedJobs, bind_eq_some, guard_eq_some, exists_const, Prod.exists] at h
  obtain ⟨-, g, m, hgm, h⟩ := h
  exact ⟨g, m, hgm, h⟩

theorem reuseCachedJob_cases {nowNs : ℕ} {attachment : EmbeddingJob → Attachment}
    {row : EmbeddingJob × VectorPayload}
    (h : Database.reuseCachedJob nowNs attachment db row = some db') :
    ∃ attached, db.attachPayload row.1 row.2.payloadId nowNs (attachment row.1) = some attached ∧
      db' = attached.finishJob row.1.jobId := by
  simp only [Database.reuseCachedJob, bind_eq_some, pure_eq_some] at h
  obtain ⟨attached, ha, h⟩ := h
  exact ⟨attached, ha, h.symm⟩

/-! ## Generations -/

/-- The candidate that a start finds in the way of a new one. -/
structure Superseded (db : Database) (call : StartCall) (g : EmbeddingGeneration) : Prop where
  mem : g ∈ db.generations
  building : g.status = .building
  signature : g.modelSignature = call.modelSignature

theorem find_building {call : StartCall} {g : EmbeddingGeneration}
    (h : ((db.buildingGenerations call.modelSignature).find? fun g =>
      g.processingSignature == call.processingSignature) = some g) : Superseded db call g := by
  have hmem := List.mem_of_find?_eq_some h
  rw [Database.buildingGenerations, List.mem_reverse, List.mem_filter] at hmem
  simp only [Bool.and_eq_true, beq_iff_eq, decide_eq_true_eq] at hmem
  exact ⟨hmem.1, hmem.2.2, hmem.2.1⟩

theorem start_cases {call : StartCall} {id : ℕ}
    (h : db.startEmbeddingGeneration call = some (db', id)) :
    let cleared := db.failEmptySuperseded call.modelSignature call.processingSignature
    let head := db.publishedHeadId call.modelSignature
    (∃ m, db.loadModel call.modelSignature = some m) ∧
      ((db' = cleared.insertGeneration call head ∧ id = cleared.nextGeneration) ∨
        (∃ g summary, Superseded cleared call g ∧
          db' = (cleared.recordGenerationFailure g.generationId summary).insertGeneration call head ∧
          id = cleared.nextGeneration) ∨
        (∃ g, Superseded cleared call g ∧ g.baseGenerationId = head ∧ id = g.generationId ∧
          (db' = cleared ∨ (head = none ∧
            db' = cleared.updateBuilding id fun g =>
              { g with baseGenerationId := head, baseCloneComplete := head.isNone })))) := by
  simp only [Database.startEmbeddingGeneration, bind_eq_some, guard_eq_some, exists_const] at h
  obtain ⟨-, m, hm, -, h⟩ := h
  refine ⟨⟨m, hm⟩, ?_⟩
  split at h
  · rename_i hnone
    rw [pure_eq_some, Prod.mk.injEq] at h
    exact .inl ⟨h.1.symm, h.2.symm⟩
  · rename_i g hsome
    have hg := find_building hsome
    split_ifs at h with hhead hprov hbase <;> rw [pure_eq_some, Prod.mk.injEq] at h
    · exact .inr (.inl ⟨g, _, hg, h.1.symm, h.2.symm⟩)
    · exact .inr (.inl ⟨g, _, hg, h.1.symm, h.2.symm⟩)
    · rw [not_not] at hhead
      obtain ⟨rfl, rfl⟩ := h
      exact .inr (.inr ⟨g, hg, hhead, rfl, .inr ⟨hhead ▸ hbase.1, rfl⟩⟩)
    · rw [not_not] at hhead
      exact .inr (.inr ⟨g, hg, hhead, h.2.symm, .inl h.1.symm⟩)

theorem clone_cases {id : ℕ} {validateExtent : Bool} {rows : List GenerationMember}
    (h : db.clonePublishedMembers id validateExtent = some (db', rows)) :
    ∃ g, db.generation id = some g ∧ g.status = .building ∧
      ((g.baseCloneComplete = true ∧ db' = db ∧ rows = []) ∨
        (g.baseCloneComplete = false ∧ g.baseGenerationId = none ∧ rows = [] ∧
          db' = db.updateBuilding id fun g =>
            { g.withBaseClone emptyBaseCloneCursor with baseCloneComplete := true }) ∨
        ∃ base c, g.baseCloneComplete = false ∧ g.baseGenerationId = some base ∧
          db.prepareBaseCloneCursor g base validateExtent = some c ∧
          rows = db.baseCloneRows base c ∧
          ((rows = [] ∧ db.finishBaseClone id base c = some db') ∨
            (rows ≠ [] ∧
              db' = (db.insertBaseCloneRows id rows).persistBaseClonePage id c rows))) := by
  simp only [Database.clonePublishedMembers, bind_eq_some, guard_eq_some, exists_const] at h
  obtain ⟨g, hg, hb, h⟩ := h
  refine ⟨g, hg, hb, ?_⟩
  by_cases hc : g.baseCloneComplete = true
  · rw [if_pos hc, pure_eq_some, Prod.mk.injEq] at h
    exact .inl ⟨hc, h.1.symm, h.2.symm⟩
  · rw [if_neg hc] at h
    have hc : g.baseCloneComplete = false := by simpa using hc
    split at h
    · rename_i hbase
      rw [pure_eq_some, Prod.mk.injEq] at h
      exact .inr (.inl ⟨hc, hbase, h.2.symm, h.1.symm⟩)
    · rename_i base hbase
      rw [bind_eq_some] at h
      obtain ⟨c, hcur, h⟩ := h
      refine .inr (.inr ⟨base, c, hc, hbase, hcur, ?_⟩)
      by_cases hrows : db.baseCloneRows base c = []
      · rw [if_pos hrows] at h
        simp only [bind_eq_some, pure_eq_some, Prod.mk.injEq] at h
        obtain ⟨_, hfin, rfl, rfl⟩ := h
        exact ⟨hrows.symm, .inl ⟨rfl, hfin⟩⟩
      · rw [if_neg hrows, pure_eq_some, Prod.mk.injEq] at h
        obtain ⟨rfl, rfl⟩ := h
        exact ⟨rfl, .inr ⟨hrows, rfl⟩⟩

theorem finish_cases {id base : ℕ} {c : BaseCloneCursor}
    (h : db.finishBaseClone id base c = some db') :
    db.extent base = (c.lastMemberId, c.baseMemberCount) ∧ c.scannedMembers = c.baseMemberCount ∧
      db' = db.updateBuilding id fun g =>
        { g.withBaseClone { c with
            afterMemberId := c.lastMemberId
            scannedMembers := c.baseMemberCount
            complete := true } with baseCloneComplete := true } := by
  simp only [Database.finishBaseClone, bind_eq_some, guard_eq_some, exists_const,
    pure_eq_some] at h
  exact ⟨h.1.1, h.1.2, h.2.symm⟩

theorem updateCursor_cases {id : ℕ} {protocol : Option Text} {enumerationComplete : Bool}
    (h : db.updateGenerationCursor id protocol enumerationComplete = some db') :
    db' = db.updateBuilding id fun g =>
      { g with cursor := ⟨g.cursor.baseClone, protocol, enumerationComplete⟩ } := by
  simp only [Database.updateGenerationCursor, bind_eq_some, guard_eq_some, exists_const,
    pure_eq_some] at h
  obtain ⟨_, -, -, h⟩ := h
  exact h.symm

theorem prepare_cases {call : PrepareCall} (h : db.prepareEmbeddingGeneration call = some db') :
    db' = db ∨
      (∃ summary, db' = db.recordGenerationFailure call.generationId summary) ∨
      (∃ g, db.generation call.generationId = some g ∧ g.baseGenerationId = none ∧
        db' = db.updateBuilding call.generationId fun g => { g with baseCloneComplete := true }) ∨
      ((db.jobs.any fun j => j.generationId == call.generationId) = false ∧
        db.membersOf call.generationId = [] ∧
        (db.generations.any fun g => g.baseGenerationId == some call.generationId) = false ∧
        db' = db.deleteGeneration call.generationId) := by
  simp only [Database.prepareEmbeddingGeneration, bind_eq_some, Prod.exists] at h
  obtain ⟨g, m, hgm, h⟩ := h
  obtain ⟨hg, -, -⟩ := generationModel_cases hgm
  by_cases hhead : db.publishedHeadId m.modelSignature = g.baseGenerationId
  · rw [if_neg (not_not.mpr hhead)] at h
    by_cases hc : g.baseCloneComplete = true
    · rw [if_pos hc, pure_eq_some] at h
      exact .inl h.symm
    · rw [if_neg hc] at h
      split at h
      · rename_i hbase
        rw [pure_eq_some] at h
        exact .inr (.inr (.inl ⟨g, hg, hbase, h.symm⟩))
      · split_ifs at h with henum
        · simp only [bind_eq_some, guard_eq_some, exists_const] at h
          obtain ⟨b, -, -, h⟩ := h
          split_ifs at h with hexact
          · simp only [Database.elideExactReplay, bind_eq_some, guard_eq_some, exists_const,
              pure_eq_some] at h
            exact .inr (.inr (.inr ⟨hexact.2.2.1, hexact.2.2.2.1, h.1.2, h.2.symm⟩))
          · rw [pure_eq_some] at h
            exact .inl h.symm
        · rw [pure_eq_some] at h
          exact .inl h.symm
  · rw [if_pos hhead, pure_eq_some] at h
    exact .inr (.inl ⟨_, h.symm⟩)

theorem invalidate_cases {ids : List ℕ} {matching : Text → Bool}
    (h : db.invalidateForSourceChange ids matching = some db') :
    db' = ids.foldl
      (fun db id => db.recordGenerationFailure id fun g => db.generationSummary false g) db := by
  simp only [Database.invalidateForSourceChange, bind_eq_some, guard_eq_some, exists_const,
    pure_eq_some] at h
  exact h.2.2.symm

/-- The database in which a finalization counts the jobs. -/
def Database.settled (db : Database) (call : FinalizeCall) (m : EmbeddingModel) : Database :=
  (db.markStaleJobs call.generationId m.modality true).removeSupersededCompletedJobs
    call.generationId m.modality

/-- The database in which a complete finalization compares the head. -/
def Database.cleaned (db : Database) (call : FinalizeCall) (m : EmbeddingModel) : Database :=
  (db.settled call m).removeObsoleteCandidateMembers call.generationId call.profile

theorem finalizationStatus_cases {call : FinalizeCall} {g : EmbeddingGeneration}
    {summary : JobStatus → ℤ} {isPartial : Bool}
    (h : finalizationStatus call g summary = some isPartial) :
    summary .pending + summary .leased = 0 ∧
      (isPartial = false → summary .error = 0 ∧ summary .stale = 0) := by
  simp only [finalizationStatus, bind_eq_some, guard_eq_some, exists_const, pure_eq_some] at h
  obtain ⟨-, hlive, -, rfl⟩ := h
  refine ⟨hlive, fun hnot => ?_⟩
  rw [Bool.or_eq_false_iff, decide_eq_false_iff_not, not_or, not_not, not_not] at hnot
  exact hnot.1

theorem finalize_cases {call : FinalizeCall} {result : Finalization}
    (h : db.finalizeEmbeddingGeneration call = some (db', result)) :
    ∃ g₀ m g, db.generationModel call.generationId = some (g₀, m) ∧
      (db.settled call m).generation call.generationId = some g ∧ g.baseCloneComplete = true ∧
      ((result = .readyPartial ∧
          db' = (db.settled call m).persistFinalization call.generationId .readyPartial
            ((db.settled call m).recount call.generationId)) ∨
        (finalizationStatus call g ((db.settled call m).recount call.generationId) = some false ∧
          (∀ j ∈ (db.cleaned call m).jobs, j.generationId = call.generationId → j.status = .done →
            ((db.cleaned call m).member j.generationId j.entityKind j.entityId).isSome = true) ∧
          ((result = .ready ∧
              (db.cleaned call m).publishedHeadId m.modelSignature = g.baseGenerationId ∧
              db' = ((db.cleaned call m).persistFinalization call.generationId .ready
                ((db.settled call m).recount call.generationId)).publishHead m.modelSignature
                  g.baseGenerationId call.generationId) ∨
            (result = .conflict ∧
              db' = (db.cleaned call m).recordGenerationFailure call.generationId
                fun _ => (db.settled call m).recount call.generationId)))) := by
  simp only [Database.finalizeEmbeddingGeneration, bind_eq_some, guard_eq_some, exists_const,
    Prod.exists] at h
  obtain ⟨g₀, m, hgm, g, hg, hc, isPartial, hstatus, h⟩ := h
  refine ⟨g₀, m, g, hgm, hg, hc, ?_⟩
  cases isPartial with
  | true =>
    rw [if_pos rfl, pure_eq_some, Prod.mk.injEq] at h
    exact .inl ⟨h.2.symm, h.1.symm⟩
  | false =>
    rw [if_neg Bool.false_ne_true] at h
    simp only [bind_eq_some, guard_eq_some, exists_const] at h
    obtain ⟨hmember, -, h⟩ := h
    refine .inr ⟨hstatus, hmember, ?_⟩
    split_ifs at h with hhead <;> rw [pure_eq_some, Prod.mk.injEq] at h
    · exact .inl ⟨h.2.symm, hhead, h.1.symm⟩
    · exact .inr ⟨h.2.symm, h.1.symm⟩

end Semantic
end Neocortex
