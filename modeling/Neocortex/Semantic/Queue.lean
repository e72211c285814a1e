import Neocortex.Semantic.Records

/-!
# The queue of embedding jobs

The transactions of `semantic_generation_repository.py` on jobs: enqueue, claim, heartbeat,
completion, failure, release and reuse.  Each runs in one write transaction (`BEGIN
IMMEDIATE`), so it is a function of the database; `none` is a call that raises and is rolled
back.

What the ledger of revisions, derivations and receipts answers (`semantic_lineage_repository.py`)
comes as an argument: whether a member's revisions are the current ones, whether a chunk is
published, which revisions a result belongs to.  Any answer may come.
-/

namespace Neocortex
namespace Semantic

open Python Rows

/-- `_generation_model` of a building generation. -/
def Database.generationModel (db : Database) (id : ℕ) :
    Option (EmbeddingGeneration × EmbeddingModel) := do
  let g ← db.generation id
  guard (g.status = .building)
  let m ← db.loadModel g.modelSignature
  pure (g, m)

/-! ## Stale jobs -/

/-- The update of a job whose source has changed. -/
def EmbeddingJob.toStale (j : EmbeddingJob) : EmbeddingJob :=
  { j with status := .stale, leaseOwner := none, leaseUntilNs := none }

/-- The jobs of a generation with a status whose source has changed; without `reconcile` only
the dirty ones are looked at. -/
def Database.isOutdated (db : Database) (generationId : ℕ) (modality : EmbeddingModality)
    (reconcile : Bool) (status : JobStatus) (j : EmbeddingJob) : Bool :=
  j.generationId == generationId && decide (j.status = status) && (reconcile || j.sourceDirty) &&
    !db.currentJobMatchesSource modality j

/-- `_mark_stale_jobs`. -/
def Database.markStaleJobs (db : Database) (generationId : ℕ) (modality : EmbeddingModality)
    (reconcile : Bool) : Database :=
  let leased := (db.jobs.filter (db.isOutdated generationId modality reconcile .leased)).take
    maxWriteBatch
  let ids := leased.map EmbeddingJob.jobId
  ((db.updateJobs (db.isOutdated generationId modality reconcile .pending)
      EmbeddingJob.toStale).updateJobs
    (fun j => ids.contains j.jobId && decide (j.status = .leased)) EmbeddingJob.toStale).setDirty
    false (fun j => j.generationId == generationId && j.sourceDirty && j.status.live &&
      db.currentJobMatchesSource modality j)

/-! ## Enqueue -/

/-- What the ledger says of a member that has the content of its entity. -/
inductive Revisions where
  /-- The chunk is not published, or the revisions belong to another identity. -/
  | different
  /-- The member has the current revisions. -/
  | same
  /-- Only the item has a new revision. -/
  | rebind (itemRevisionId : ℕ) (chunkRevisionId : Option ℕ)

/-- The arguments of `_enqueue_job_batch_bounded`. -/
structure EnqueueCall where
  generationId : ℕ
  identifiers : List Text
  modality : EmbeddingModality
  role : EmbeddingRole
  maxAttempts : ℕ
  nowNs : ℕ
  maxNewJobs : Option ℕ
  revisions : Text → Revisions

/-- A row of `_queue_entity_rows`. -/
structure QueueRow where
  entityId : Text
  itemId : Text
  fingerprint : ContentFingerprint

/-- `_queue_entity_rows`, of one identifier. -/
def Database.queueEntityRow (db : Database) (kind : SemanticEntityKind) (id : Text) :
    Option QueueRow :=
  match kind with
  | .textChunk => do
    let c ← db.chunks.find? fun c => c.chunkId == id && c.active
    let _ ← db.items.find? fun i => i.itemId == c.itemId && i.active
    pure ⟨c.chunkId, c.itemId, c.fingerprint⟩
  | .imageItem => do
    let i ← db.items.find? fun i => i.itemId == id && i.active && i.path.isSome
    pure ⟨i.itemId, i.itemId, i.fingerprint⟩

/-- The row of an entity among the jobs of a generation. -/
def sameJob (generationId : ℕ) (kind : SemanticEntityKind) (entityId : Text) (j : EmbeddingJob) :
    Bool :=
  j.generationId == generationId && decide (j.entityKind = kind) && j.entityId == entityId

/-- `_queue_existing_jobs`, of one identifier. -/
def Database.queueExistingJob (db : Database) (generationId : ℕ) (kind : SemanticEntityKind)
    (entityId : Text) : Option EmbeddingJob :=
  db.jobs.find? (sameJob generationId kind entityId)

/-- `_queue_generation_members`, of one identifier: the member of the candidate, or while the
base is not cloned the member of the base. -/
def Database.queueGenerationMember (db : Database) (g : EmbeddingGeneration)
    (kind : SemanticEntityKind) (entityId : Text) : Option GenerationMember :=
  match db.member g.generationId kind entityId with
  | some m => some m
  | none =>
    if g.baseCloneComplete then none
    else g.baseGenerationId.bind fun base => db.member base kind entityId

/-- The update of a job whose result is there. -/
def EmbeddingJob.toDone (j : EmbeddingJob) : EmbeddingJob :=
  { j with status := .done, leaseOwner := none, leaseUntilNs := none }

/-- `UPDATE embedding_jobs SET status='done' … WHERE job_id=?`. -/
def Database.finishJob (db : Database) (jobId : ℕ) : Database :=
  db.updateJobs (fun j => j.jobId == jobId) EmbeddingJob.toDone

/-- `_finish_existing_job`. -/
def Database.finishExistingJob (db : Database) (prior : Option EmbeddingJob) : Database :=
  match prior with
  | none => db
  | some j => if j.status = .done then db else db.finishJob j.jobId

/-- The row of `_REBIND_GENERATION_MEMBER_SQL`. -/
def GenerationMember.reboundTo (m : GenerationMember) (call : EnqueueCall) (row : QueueRow)
    (itemRevisionId : ℕ) (chunkRevisionId : Option ℕ) : GenerationMember where
  memberId := 0
  generationId := call.generationId
  modelSignature := m.modelSignature
  entityKind := call.modality.entityKind
  entityId := row.entityId
  itemId := row.itemId
  itemRevisionId := itemRevisionId
  chunkRevisionId := chunkRevisionId
  payloadId := m.payloadId
  fingerprint := m.fingerprint
  provenanceJson := m.provenanceJson
  updatedNs := call.nowNs
  baseMemberId := none

/-- A member of this generation makes place for the rebound one. -/
def Database.clearRebound (db : Database) (call : EnqueueCall) (m : GenerationMember) : Database :=
  if m.generationId = call.generationId then
    db.deleteMembers fun other =>
      other.memberId == m.memberId && other.generationId == call.generationId
  else db

/-- `_rebind_generation_member`: a member of this generation is replaced, a member of the base
is overridden. -/
def Database.rebindGenerationMember (db : Database) (call : EnqueueCall) (row : QueueRow)
    (m : GenerationMember) (itemRevisionId : ℕ) (chunkRevisionId : Option ℕ)
    (prior : Option EmbeddingJob) : Database :=
  let bound := (db.clearRebound call m).upsertMember
    (m.reboundTo call row itemRevisionId chunkRevisionId)
  match prior with
  | none => bound
  | some j => bound.finishJob j.jobId

/-- `_QueueSelection`; `rebound` are the entities whose member was rebound. -/
structure QueueSelection where
  rows : List QueueRow := []
  forcePendingIds : List Text := []
  newJobs : ℕ := 0
  complete : Bool := true
  rebound : List Text := []

/-- What is known of a row when the selection begins. -/
structure QueueEntry where
  row : QueueRow
  prior : Option EmbeddingJob
  member : Option GenerationMember

/-- The row differs from the job that is there. -/
def QueueEntry.changed (e : QueueEntry) : Bool :=
  match e.prior with
  | none => true
  | some j => decide (j.fingerprint ≠ e.row.fingerprint)

/-- `_reuse_generation_member`: the member that may be kept, with what the ledger says. -/
def QueueEntry.reusable (e : QueueEntry) (call : EnqueueCall) :
    Option (GenerationMember × Revisions) :=
  match e.member with
  | none => none
  | some m =>
    if m.fingerprint = e.row.fingerprint then
      match call.revisions e.row.entityId with
      | .different => none
      | answer => some (m, answer)
    else none

/-- `_select_queue_rows`. -/
def selectQueueRows (call : EnqueueCall) :
    List QueueEntry → Database → QueueSelection → Database × QueueSelection
  | [], db, selection => (db, selection)
  | e :: entries, db, selection =>
    match e.reusable call with
    | some (m, .rebind itemRevisionId chunkRevisionId) =>
      selectQueueRows call entries
        (db.rebindGenerationMember call e.row m itemRevisionId chunkRevisionId e.prior)
        { selection with rebound := selection.rebound ++ [e.row.entityId] }
    | some (_, _) => selectQueueRows call entries (db.finishExistingJob e.prior) selection
    | none =>
      if e.changed && call.maxNewJobs.any fun limit => decide (limit ≤ selection.newJobs) then
        (db, { selection with complete := false })
      else
        let forced :=
          if e.changed then selection.forcePendingIds
          else selection.forcePendingIds ++ [e.row.entityId]
        selectQueueRows call entries db
          { selection with
            rows := selection.rows ++ [e.row]
            forcePendingIds := forced
            newJobs := selection.newJobs + if e.changed then 1 else 0 }

/-- The conflict clause of `_UPSERT_EMBEDDING_JOB_SQL`. -/
def EmbeddingJob.requeue (call : EnqueueCall) (row : QueueRow) (j : EmbeddingJob) : EmbeddingJob :=
  let changed := j.fingerprint ≠ row.fingerprint
  { j with
    itemId := row.itemId
    fingerprint := row.fingerprint
    status := if changed then .pending else j.status
    attempts := if changed then 0 else j.attempts
    maxAttempts := call.maxAttempts
    availableNs := if changed then call.nowNs else j.availableNs
    leaseOwner := if changed then none else j.leaseOwner
    leaseUntilNs := if changed then none else j.leaseUntilNs }

/-- The values of `_UPSERT_EMBEDDING_JOB_SQL`. -/
def QueueRow.newJob (call : EnqueueCall) (signature : Text) (row : QueueRow) : EmbeddingJob where
  jobId := 0
  generationId := call.generationId
  modelSignature := signature
  entityKind := call.modality.entityKind
  entityId := row.entityId
  itemId := row.itemId
  fingerprint := row.fingerprint
  status := .pending
  attempts := 0
  maxAttempts := call.maxAttempts
  availableNs := call.nowNs
  leaseOwner := none
  leaseUntilNs := none
  sourceDirty := true
  cachedPayloadId := none

/-- `_upsert_queue_jobs`, of one row. -/
def Database.upsertQueueJob (call : EnqueueCall) (signature : Text) (db : Database)
    (row : QueueRow) : Database :=
  let same := sameJob call.generationId call.modality.entityKind row.entityId
  if db.jobs.any same then db.updateJobs same (EmbeddingJob.requeue call row)
  else db.insertJob (row.newJob call signature)

/-- `_reset_queue_jobs_pending`. -/
def Database.resetQueueJobsPending (db : Database) (call : EnqueueCall) (ids : List Text) :
    Database :=
  db.updateJobs
    (fun j => j.generationId == call.generationId && decide (j.entityKind = call.modality.entityKind)
      && ids.contains j.entityId)
    (fun j =>
      { j with
        status := .pending
        attempts := 0
        availableNs := call.nowNs
        leaseOwner := none
        leaseUntilNs := none })

/-- `_enqueue_job_batch_bounded`, with the entities whose members were rebound. -/
def Database.enqueueJobBatch (db : Database) (call : EnqueueCall) :
    Option (Database × List Text) := do
  guard (1 ≤ call.maxAttempts ∧ call.maxAttempts ≤ 100)
  guard (call.identifiers.length ≤ maxWriteBatch)
  let batch := call.identifiers.eraseDups
  guard (∀ id ∈ batch, strip id ≠ [])
  if batch = [] then pure (db, [])
  else
    let (g, model) ← db.generationModel call.generationId
    guard (model.modality = call.modality ∧ call.role ∈ model.supportedRoles)
    let kind := call.modality.entityKind
    let rows ← batch.mapM (db.queueEntityRow kind)
    let entries := rows.map fun row =>
      QueueEntry.mk row (db.queueExistingJob call.generationId kind row.entityId)
        (db.queueGenerationMember g kind row.entityId)
    let (db, selection) := selectQueueRows call entries db {}
    let db := selection.rows.foldl (Database.upsertQueueJob call model.modelSignature) db
    pure (db.resetQueueJobsPending call selection.forcePendingIds, selection.rebound)

/-! ## Claims -/

/-- `_reconcile_expired_embedding_leases`. -/
def Database.reconcileExpiredLeases (db : Database) (generationId nowNs : ℕ) : Database :=
  let rows := (db.jobs.filter fun j =>
    j.generationId == generationId && decide (j.status = .leased) &&
      j.leaseUntilNs.any fun until_ => decide (until_ ≤ nowNs)).take maxWriteBatch
  let retryIds := (rows.filter fun j => decide (j.attempts < j.maxAttempts)).map EmbeddingJob.jobId
  let terminalIds := (rows.filter fun j => !decide (j.attempts < j.maxAttempts)).map
    EmbeddingJob.jobId
  (db.updateJobs (fun j => retryIds.contains j.jobId && decide (j.status = .leased)) fun j =>
      { j with
        status := .pending
        availableNs := nowNs
        leaseOwner := none
        leaseUntilNs := none }).updateJobs
    (fun j => terminalIds.contains j.jobId && decide (j.status = .leased)) fun j =>
      { j with status := .error, leaseOwner := none, leaseUntilNs := none }

/-- The identity of the work of a job: one lease at a time covers it in a generation. -/
def EmbeddingJob.workKey (j : EmbeddingJob) : Text × ContentFingerprint :=
  (j.modelSignature, j.fingerprint)

/-- A pending job that may be tried now. -/
def EmbeddingJob.claimable (generationId nowNs : ℕ) (j : EmbeddingJob) : Bool :=
  j.generationId == generationId && decide (j.attempts < j.maxAttempts) &&
    decide (j.status = .pending) && decide (j.availableNs ≤ nowNs)

/-- The loop of `_lease_rows` over the pages of text jobs. -/
def pickTextRows (limit : ℕ) (eligible : EmbeddingJob → Bool)
    (leasedKeys : List (Text × ContentFingerprint)) :
    List EmbeddingJob → List EmbeddingJob → List EmbeddingJob
  | [], selected => selected
  | j :: rows, selected =>
    if limit ≤ selected.length then selected
    else if leasedKeys.contains j.workKey || (selected.map EmbeddingJob.workKey).contains j.workKey
        || !eligible j then
      pickTextRows limit eligible leasedKeys rows selected
    else pickTextRows limit eligible leasedKeys rows (selected ++ [j])

/-- `_lease_rows`; `eligible` says of a text job that its chunk revision is published. -/
def Database.leaseRows (db : Database) (generationId : ℕ) (modality : EmbeddingModality)
    (nowNs limit : ℕ) (eligible : EmbeddingJob → Bool) : List EmbeddingJob :=
  let leased := db.jobs.filter fun j =>
    j.generationId == generationId && decide (j.status = .leased)
  match modality with
  | .text =>
    pickTextRows limit eligible (leased.map EmbeddingJob.workKey)
      (db.jobs.filter fun j => j.claimable generationId nowNs && db.textSourceMatches j) []
  | .image =>
    (db.jobs.filter fun j =>
      j.claimable generationId nowNs && !(leased.map EmbeddingJob.workKey).contains j.workKey &&
        (db.jobs.filter fun c => c.claimable generationId nowNs && c.workKey == j.workKey).all
          (fun c => decide (j.jobId ≤ c.jobId)) &&
        db.imageSourceMatches j).take limit

/-- `EmbeddingJobLease`. -/
structure EmbeddingJobLease where
  jobId : ℕ
  generationId : ℕ
  modelSignature : Text
  entityKind : SemanticEntityKind
  entityId : Text
  itemId : Text
  fingerprint : ContentFingerprint
  attempt : ℕ
  leaseUntilNs : ℕ

/-- The arguments of `claim_embedding_jobs`. -/
structure ClaimCall where
  generationId : ℕ
  workerId : Text
  limit : ℕ
  leaseNs : ℕ
  nowNs : ℕ
  eligible : EmbeddingJob → Bool

/-- The update of a claimed job. -/
def EmbeddingJob.toLeased (call : ClaimCall) (j : EmbeddingJob) : EmbeddingJob :=
  { j with
    status := .leased
    attempts := j.attempts + 1
    leaseOwner := some call.workerId
    leaseUntilNs := some (call.nowNs + call.leaseNs) }

/-- `claim_embedding_jobs`. -/
def Database.claimEmbeddingJobs (db : Database) (call : ClaimCall) :
    Option (Database × List EmbeddingJobLease) := do
  guard (strip call.workerId ≠ [])
  guard (1 ≤ call.limit ∧ call.limit ≤ maxWriteBatch)
  let (g, model) ← db.generationModel call.generationId
  let db := (db.reconcileExpiredLeases call.generationId call.nowNs).markStaleJobs
    call.generationId model.modality false
  let rows := db.leaseRows call.generationId model.modality call.nowNs call.limit call.eligible
  let ids := rows.map EmbeddingJob.jobId
  pure (db.updateJobs (fun j => ids.contains j.jobId) (EmbeddingJob.toLeased call),
    rows.map fun j =>
      ⟨j.jobId, call.generationId, g.modelSignature, j.entityKind, j.entityId, j.itemId,
        j.fingerprint, j.attempts + 1, call.nowNs + call.leaseNs⟩)

/-! ## Leases -/

/-- A lease that its worker holds. -/
def EmbeddingJob.heldBy (workerId : Text) (nowNs : ℕ) (j : EmbeddingJob) : Bool :=
  decide (j.status = .leased) && j.leaseOwner == some workerId &&
    j.leaseUntilNs.any fun until_ => decide (nowNs < until_)

/-- `heartbeat_embedding_jobs`. -/
def Database.heartbeatEmbeddingJobs (db : Database) (jobIds : List ℕ) (workerId : Text)
    (leaseNs nowNs : ℕ) : Option Database := do
  guard (jobIds ≠ [] ∧ jobIds.length ≤ maxWriteBatch ∧ jobIds.Nodup ∧ strip workerId ≠ [])
  let held := fun j : EmbeddingJob => jobIds.contains j.jobId && j.heldBy workerId nowNs
  guard ((db.jobs.filter held).length = jobIds.length)
  pure (db.updateJobs held fun j =>
    { j with leaseUntilNs := j.leaseUntilNs.map fun until_ => max until_ (nowNs + leaseNs) })

/-- The row of a job. -/
def Database.job (db : Database) (jobId : ℕ) : Option EmbeddingJob :=
  db.jobs.find? fun j => j.jobId == jobId

/-- What a result is attached to, as the ledger says. -/
structure Attachment where
  itemRevisionId : ℕ
  chunkRevisionId : Option ℕ
  provenanceJson : Text

/-- `_attach_payload`. -/
def Database.attachPayload (db : Database) (j : EmbeddingJob) (payloadId nowNs : ℕ)
    (a : Attachment) : Option Database := do
  let g ← db.generation j.generationId
  guard (g.status = .building ∧ g.modelSignature = j.modelSignature ∧ g.baseCloneComplete = true)
  pure (db.upsertMember
    { memberId := 0
      generationId := j.generationId
      modelSignature := j.modelSignature
      entityKind := j.entityKind
      entityId := j.entityId
      itemId := j.itemId
      itemRevisionId := a.itemRevisionId
      chunkRevisionId := a.chunkRevisionId
      payloadId := payloadId
      fingerprint := j.fingerprint
      provenanceJson := a.provenanceJson
      updatedNs := nowNs
      baseMemberId := none })

/-- `_job_is_current`. -/
def Database.jobIsCurrent (db : Database) (j : EmbeddingJob) : Bool :=
  match j.entityKind with
  | .textChunk => db.textSourceMatches j
  | .imageItem => db.imageSourceMatches j

/-- What a completion comes to. -/
inductive Completion where
  | accepted
  | stale
  deriving DecidableEq

/-- `complete_embedding_job`, of an encoded vector. -/
def Database.completeEmbeddingJob (db : Database) (jobId : ℕ) (workerId : Text)
    (blob : List UInt8) (nowNs : ℕ) (a : Attachment) : Option (Database × Completion) := do
  guard (strip workerId ≠ [])
  let j ← db.job jobId
  guard (j.heldBy workerId nowNs = true)
  if db.jobIsCurrent j then
    let _ ← db.loadModel j.modelSignature
    let stored :=
      if (db.cachedPayload j.modelSignature j.fingerprint).isSome then db
      else db.insertPayload j.modelSignature j.fingerprint blob
    let payloadId ← stored.cachedPayload j.modelSignature j.fingerprint
    let attached ← stored.attachPayload j payloadId nowNs a
    pure (attached.finishJob jobId, .accepted)
  else
    pure (db.updateJobs (fun other => other.jobId == jobId) EmbeddingJob.toStale, .stale)

/-- `_record_stale_embedding_job_on_connection`. -/
def Database.recordStaleEmbeddingJob (db : Database) (jobId : ℕ) (workerId : Text) (nowNs : ℕ) :
    Option Database := do
  let j ← db.job jobId
  guard (j.heldBy workerId nowNs = true)
  pure (db.updateJobs (fun other => other.jobId == jobId && other.heldBy workerId nowNs)
    EmbeddingJob.toStale)

/-- `fail_embedding_job`. -/
def Database.failEmbeddingJob (db : Database) (jobId : ℕ) (workerId : Text) (retryable : Bool)
    (delayNs nowNs : ℕ) : Option Database := do
  guard (strip workerId ≠ [])
  let j ← db.job jobId
  guard (j.heldBy workerId nowNs = true)
  let status := if retryable && decide (j.attempts < j.maxAttempts) then JobStatus.pending else .error
  pure (db.updateJobs (fun other => other.jobId == jobId && other.heldBy workerId nowNs) fun other =>
    { other with
      status := status
      availableNs := nowNs + delayNs
      leaseOwner := none
      leaseUntilNs := none })

/-- `release_embedding_job_lease_for_deadline`. -/
def Database.releaseEmbeddingJobLease (db : Database) (jobId : ℕ) (workerId : Text)
    (nowNs : ℕ) : Option Database := do
  guard (strip workerId ≠ [])
  let j ← db.job jobId
  guard (j.status = .leased ∧ j.leaseOwner = some workerId)
  pure (db.updateJobs
    (fun other => other.jobId == jobId && decide (other.status = .leased) &&
      other.leaseOwner == some workerId) fun other =>
    { other with
      status := .pending
      attempts := other.attempts - 1
      availableNs := nowNs
      leaseOwner := none
      leaseUntilNs := none })

/-! ## Reuse -/

/-- The pending jobs of a generation with the payloads of their content; with the hint only the
payload that the job names, for a job whose source is current. -/
def Database.cachedRows (db : Database) (generationId : ℕ) (modality : EmbeddingModality)
    (hinted : Bool) : List (EmbeddingJob × VectorPayload) :=
  (db.jobs.filter fun j =>
    j.generationId == generationId && decide (j.status = .pending) &&
      (!hinted || (j.cachedPayloadId.isSome && db.currentJobMatchesSource modality j))).flatMap
    fun j =>
      (db.payloads.filter fun p =>
        p.modelSignature == j.modelSignature && p.fingerprint == j.fingerprint &&
          (!hinted || j.cachedPayloadId == some p.payloadId)).map fun p => (j, p)

/-- One row of `reuse_cached_jobs`. -/
def Database.reuseCachedJob (nowNs : ℕ) (attachment : EmbeddingJob → Attachment) (db : Database)
    (row : EmbeddingJob × VectorPayload) : Option Database := do
  let attached ← db.attachPayload row.1 row.2.payloadId nowNs (attachment row.1)
  pure (attached.finishJob row.1.jobId)

/-- `reuse_cached_jobs`. -/
def Database.reuseCachedJobs (db : Database) (generationId limit nowNs : ℕ)
    (attachment : EmbeddingJob → Attachment) : Option Database := do
  guard (1 ≤ limit ∧ limit ≤ maxWriteBatch)
  let (_, model) ← db.generationModel generationId
  let db := db.markStaleJobs generationId model.modality false
  ((db.cachedRows generationId model.modality true).take limit).foldlM
    (Database.reuseCachedJob nowNs attachment) db

end Semantic
end Neocortex
