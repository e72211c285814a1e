import Neocortex.Semantic.Queue

/-!
# Generations and their heads

The rest of `semantic_generation_repository.py`: the start of a generation, the resumable copy
of its base, the checkpoint of its enumeration, its preparation, its invalidation and its
finalization.  `Database.perform` is one write transaction of any of them, of the queue or of
the source tables; `none` is a call that raises, and leaves the database as it was.

`json.loads` of a cursor or of a provenance is not modelled: a cursor is its entries, and what
is read from a provenance comes as an argument.
-/

namespace Neocortex
namespace Semantic

open Python Rows

/-! ## Failure of a candidate -/

/-- `_published_head_id`. -/
def Database.publishedHeadId (db : Database) (signature : Text) : Option ℕ :=
  (db.heads.find? fun h => h.1 == signature).map Prod.snd

/-- The aggregate of the jobs of a generation by status. -/
def Database.recount (db : Database) (id : ℕ) (status : JobStatus) : ℤ :=
  count (fun j => j.generationId == id && decide (j.status = status)) db.jobs

/-- `_generation_summary_row`: the five counters of a generation. -/
def Database.generationSummary (db : Database) (reconcile : Bool) (g : EmbeddingGeneration) :
    JobStatus → ℤ :=
  if g.status = .building ∧ reconcile = true then db.recount g.generationId else g.counts

/-- `_record_generation_failure`, with the counters of the summary. -/
def Database.recordGenerationFailure (db : Database) (id : ℕ)
    (summary : EmbeddingGeneration → JobStatus → ℤ) : Database :=
  db.updateBuilding id fun g => { g with status := .failed, counts := summary g }

/-- `_mark_generation_head_conflict`. -/
def Database.markGenerationHeadConflict (db : Database) (id : ℕ)
    (summary : EmbeddingGeneration → JobStatus → ℤ) : Database :=
  db.recordGenerationFailure id summary

/-- `invalidate_embedding_generations_for_source_change`; `matching` says that the provenance
has the source heads that were expected. -/
def Database.invalidateForSourceChange (db : Database) (ids : List ℕ) (matching : Text → Bool) :
    Option Database := do
  guard (1 ≤ ids.length ∧ ids.length ≤ 2 ∧ ids.Nodup)
  guard (∀ id ∈ ids, ∃ g ∈ db.generation id,
    g.status = .building ∧ (db.heads.any fun h => h.2 == id) = false ∧
      matching g.provenanceJson = true)
  pure (ids.foldl (fun db id => db.recordGenerationFailure id fun g => db.generationSummary false g)
    db)

/-- `_fail_empty_superseded_generations`. -/
def Database.failEmptySuperseded (db : Database) (signature processing : Text) : Database :=
  let superseded := fun g : EmbeddingGeneration =>
    g.modelSignature == signature && decide (g.status = .building) &&
      g.processingSignature != processing && !g.baseCloneComplete &&
      !(db.members.any fun m => m.generationId == g.generationId) &&
      !(db.jobs.any fun j => j.generationId == g.generationId)
  { db with generations :=
      updateWhere superseded (fun g => { g with status := .failed }) db.generations }

/-! ## Start -/

/-- The arguments of `start_embedding_generation`. -/
structure StartCall where
  modelSignature : Text
  processingSignature : Text
  provenanceJson : Text
  protocol : Option Text
  enumerationComplete : Bool
  /-- `work_budget.preserve_existing_generations`. -/
  preserve : Bool

/-- The building generations of a model, the newest first. -/
def Database.buildingGenerations (db : Database) (signature : Text) : List EmbeddingGeneration :=
  (db.generations.filter fun g =>
    g.modelSignature == signature && decide (g.status = .building)).reverse

/-- A recovery keeps the one candidate that it can resume. -/
def Database.recoverable (db : Database) (call : StartCall) : Bool :=
  match db.buildingGenerations call.modelSignature with
  | [] => true
  | [g] => decide (g.processingSignature = call.processingSignature ∧
      g.provenanceJson = call.provenanceJson ∧
      g.baseGenerationId = db.publishedHeadId call.modelSignature)
  | _ => false

/-- `INSERT INTO embedding_generations`. -/
def Database.insertGeneration (db : Database) (call : StartCall) (head : Option ℕ) : Database :=
  { db with
    generations := db.generations ++
      [{ generationId := db.nextGeneration
         modelSignature := call.modelSignature
         processingSignature := call.processingSignature
         status := .building
         provenanceJson := call.provenanceJson
         cursor := { protocol := call.protocol, enumerationComplete := call.enumerationComplete }
         baseGenerationId := head
         baseCloneComplete := head.isNone
         counts := fun _ => 0 }]
    nextGeneration := db.nextGeneration + 1 }

/-- The first transaction of `start_embedding_generation`, with the identifier it returns. -/
def Database.startEmbeddingGeneration (db : Database) (call : StartCall) :
    Option (Database × ℕ) := do
  guard (strip call.processingSignature ≠ [])
  let _ ← db.loadModel call.modelSignature
  let head := db.publishedHeadId call.modelSignature
  guard (call.preserve = true → db.recoverable call = true)
  let db := db.failEmptySuperseded call.modelSignature call.processingSignature
  let existing := (db.buildingGenerations call.modelSignature).find? fun g =>
    g.processingSignature == call.processingSignature
  match existing with
  | none => pure (db.insertGeneration call head, db.nextGeneration)
  | some g =>
    if g.baseGenerationId ≠ head then
      let db := db.markGenerationHeadConflict g.generationId (db.generationSummary false)
      pure (db.insertGeneration call head, db.nextGeneration)
    else if g.provenanceJson ≠ call.provenanceJson then
      let db := db.recordGenerationFailure g.generationId (db.generationSummary false)
      pure (db.insertGeneration call head, db.nextGeneration)
    else if g.baseGenerationId = none ∧ g.baseCloneComplete = false then
      pure (db.updateBuilding g.generationId fun g =>
        { g with baseGenerationId := head, baseCloneComplete := head.isNone }, g.generationId)
    else pure (db, g.generationId)

/-! ## The copy of the base -/

def Database.membersOf (db : Database) (id : ℕ) : List GenerationMember :=
  db.members.filter fun m => m.generationId == id

/-- `COALESCE(MAX(member_id),0),COUNT(*)` of the members of a generation. -/
def Database.extent (db : Database) (id : ℕ) : ℕ × ℕ :=
  (((db.membersOf id).map GenerationMember.memberId).foldr max 0, (db.membersOf id).length)

/-- `COALESCE(MAX(base_member_id),0)` of the members of a generation. -/
def Database.observedAfter (db : Database) (id : ℕ) : ℕ :=
  ((db.membersOf id).filterMap GenerationMember.baseMemberId).foldr max 0

/-- `_validate_base_clone_contract`. -/
def Database.validBase (db : Database) (g : EmbeddingGeneration) (base : ℕ) : Prop :=
  ∃ b ∈ db.generation base, b.status = .ready ∧ b.modelSignature = g.modelSignature

instance (db : Database) (g : EmbeddingGeneration) (base : ℕ) : Decidable (db.validBase g base) :=
  match h : db.generation base with
  | none => isFalse fun ⟨b, hb, _⟩ => by rw [h] at hb; cases hb
  | some b =>
    decidable_of_iff (b.status = .ready ∧ b.modelSignature = g.modelSignature)
      ⟨fun hb => ⟨b, h, hb⟩, fun ⟨c, hc, hb⟩ => by rw [h] at hc; cases hc; exact hb⟩

/-- `_new_base_clone_cursor`. -/
def Database.newBaseCloneCursor (db : Database) (id base : ℕ) : BaseCloneCursor where
  baseGenerationId := some base
  afterMemberId := db.observedAfter id
  lastMemberId := (db.extent base).1
  baseMemberCount := (db.extent base).2
  scannedMembers :=
    ((db.membersOf base).filter fun m => decide (m.memberId ≤ db.observedAfter id)).length
  complete := false

/-- `_prepare_base_clone_cursor`. -/
def Database.prepareBaseCloneCursor (db : Database) (g : EmbeddingGeneration) (base : ℕ)
    (validateExtent : Bool) : Option BaseCloneCursor := do
  guard (db.validBase g base)
  match g.cursor.baseClone with
  | none => pure (db.newBaseCloneCursor g.generationId base)
  | some c =>
    guard (c.baseGenerationId = some base)
    guard (c.afterMemberId ≤ c.lastMemberId ∧ c.scannedMembers ≤ c.baseMemberCount)
    guard (db.observedAfter g.generationId ≤ c.afterMemberId)
    guard (validateExtent = true → db.extent base = (c.lastMemberId, c.baseMemberCount))
    pure c

/-- A job of the candidate for the entity of a member. -/
def Database.hasTargetJob (db : Database) (id : ℕ) (m : GenerationMember) : Bool :=
  db.jobs.any (sameJob id m.entityKind m.entityId)

/-- `_base_clone_rows`. -/
def Database.baseCloneRows (db : Database) (base : ℕ) (c : BaseCloneCursor) :
    List GenerationMember :=
  ((db.membersOf base).filter fun m =>
    decide (c.afterMemberId < m.memberId) && decide (m.memberId ≤ c.lastMemberId)).take
    maxWriteBatch

/-- The row that a member of the base becomes in a candidate. -/
def GenerationMember.copyTo (id : ℕ) (m : GenerationMember) : GenerationMember :=
  { m with memberId := 0, generationId := id, baseMemberId := some m.memberId }

/-- `_insert_base_clone_rows`. -/
def Database.insertBaseCloneRows (db : Database) (id : ℕ) (rows : List GenerationMember) :
    Database :=
  (rows.filter fun m => !db.hasTargetJob id m).foldl
    (fun db m => db.insertMember (m.copyTo id)) db

/-- The base of a candidate that has none. -/
def emptyBaseCloneCursor : BaseCloneCursor where
  baseGenerationId := none
  afterMemberId := 0
  lastMemberId := 0
  baseMemberCount := 0
  scannedMembers := 0
  complete := true

/-- `cursor["base_clone"] = …`. -/
def EmbeddingGeneration.withBaseClone (g : EmbeddingGeneration) (c : BaseCloneCursor) :
    EmbeddingGeneration :=
  { g with cursor := { g.cursor with baseClone := some c } }

/-- `_finish_base_clone`. -/
def Database.finishBaseClone (db : Database) (id base : ℕ) (c : BaseCloneCursor) :
    Option Database := do
  guard (db.extent base = (c.lastMemberId, c.baseMemberCount) ∧
    c.scannedMembers = c.baseMemberCount)
  let last := { c with
    afterMemberId := c.lastMemberId
    scannedMembers := c.baseMemberCount
    complete := true }
  pure (db.updateBuilding id fun g => { g.withBaseClone last with baseCloneComplete := true })

/-- `_persist_base_clone_page`. -/
def Database.persistBaseClonePage (db : Database) (id : ℕ) (c : BaseCloneCursor)
    (rows : List GenerationMember) : Database :=
  let next := { c with
    afterMemberId := (rows.getLast?.map GenerationMember.memberId).getD c.afterMemberId
    scannedMembers := c.scannedMembers + rows.length
    complete := false }
  db.updateBuilding id fun g => g.withBaseClone next

/-- One transaction of `_clone_published_members`, with the rows of the base that it read. -/
def Database.clonePublishedMembers (db : Database) (id : ℕ) (validateExtent : Bool) :
    Option (Database × List GenerationMember) := do
  let g ← db.generation id
  guard (g.status = .building)
  if g.baseCloneComplete then pure (db, [])
  else
    match g.baseGenerationId with
    | none =>
      pure (db.updateBuilding id fun g =>
        { g.withBaseClone emptyBaseCloneCursor with baseCloneComplete := true }, [])
    | some base =>
      let c ← db.prepareBaseCloneCursor g base validateExtent
      let rows := db.baseCloneRows base c
      if rows = [] then
        let db ← db.finishBaseClone id base c
        pure (db, [])
      else pure ((db.insertBaseCloneRows id rows).persistBaseClonePage id c rows, rows)

/-- `update_embedding_generation_cursor`; no caller passes a `base_clone` entry. -/
def Database.updateGenerationCursor (db : Database) (id : ℕ) (protocol : Option Text)
    (enumerationComplete : Bool) : Option Database := do
  let g ← db.generation id
  guard (g.status = .building)
  pure (db.updateBuilding id fun g =>
    { g with cursor := ⟨g.cursor.baseClone, protocol, enumerationComplete⟩ })

/-! ## Obsolete members -/

/-- The entity of a member is active and has the content of the member. -/
def Database.memberMatchesSource (db : Database) (m : GenerationMember) : Bool :=
  match m.entityKind with
  | .textChunk =>
    db.chunks.any fun c =>
      c.chunkId == m.entityId && c.itemId == m.itemId && c.active &&
        c.fingerprint == m.fingerprint &&
        db.items.any fun i => i.itemId == c.itemId && i.active
  | .imageItem =>
    db.items.any fun i =>
      i.itemId == m.entityId && i.active && i.path.isSome && i.fingerprint == m.fingerprint

/-- A member that a complete candidate does not keep; `profile` says of a text member that its
chunking is no longer the one of the generation. -/
def Database.obsolete (db : Database) (profile : GenerationMember → Bool) (m : GenerationMember) :
    Bool :=
  (decide (m.entityKind = .textChunk) && profile m) || !db.memberMatchesSource m

/-- `_remove_obsolete_candidate_members`. -/
def Database.removeObsoleteCandidateMembers (db : Database) (id : ℕ)
    (profile : GenerationMember → Bool) : Database :=
  db.deleteMembers fun m => m.generationId == id && db.obsolete profile m

/-! ## Preparation -/

/-- The arguments of `prepare_embedding_generation`, and whether an embedding or an evidence
names the candidate. -/
structure PrepareCall where
  generationId : ℕ
  enumerationComplete : Bool
  profile : GenerationMember → Bool
  dependents : Bool

/-- `DELETE FROM embedding_generations WHERE generation_id=? AND status='building'`. -/
def Database.deleteGeneration (db : Database) (id : ℕ) : Database :=
  let elided := fun g : EmbeddingGeneration =>
    g.generationId == id && decide (g.status = .building)
  { db with generations := deleteWhere elided db.generations }

/-- `_elide_exact_embedding_replay`. -/
def Database.elideExactReplay (db : Database) (call : PrepareCall) : Option Database := do
  guard (call.dependents = false ∧
    (db.generations.any fun g => g.baseGenerationId == some call.generationId) = false)
  pure (db.deleteGeneration call.generationId)

/-- `_prepare_embedding_generation_transaction`. -/
def Database.prepareEmbeddingGeneration (db : Database) (call : PrepareCall) :
    Option Database := do
  let (g, model) ← db.generationModel call.generationId
  if db.publishedHeadId model.modelSignature ≠ g.baseGenerationId then
    pure (db.markGenerationHeadConflict call.generationId (db.generationSummary false))
  else if g.baseCloneComplete then pure db
  else
    match g.baseGenerationId with
    | none => pure (db.updateBuilding call.generationId fun g => { g with baseCloneComplete := true })
    | some base =>
      if call.enumerationComplete then
        let b ← db.generation base
        guard (b.status = .ready)
        if b.processingSignature = g.processingSignature ∧ b.provenanceJson = g.provenanceJson ∧
            (db.jobs.any fun j => j.generationId == call.generationId) = false ∧
            db.membersOf call.generationId = [] ∧
            (db.membersOf base).all (fun m => !db.obsolete call.profile m) = true then
          db.elideExactReplay call
        else pure db
      else pure db

/-! ## Finalization -/

/-- The arguments of `finalize_embedding_generation`, with what `_source_coverage_failure` says
of a provenance and whether a text member depends on an unpublished chunk. -/
structure FinalizeCall where
  generationId : ℕ
  allowPartial : Bool
  coverageFailure : Text → Bool
  profile : GenerationMember → Bool
  unpublished : GenerationMember → Bool

/-- What a finalization comes to. -/
inductive Finalization where
  | ready
  | readyPartial
  | conflict
  deriving DecidableEq

/-- `_remove_superseded_completed_jobs`. -/
def Database.removeSupersededCompletedJobs (db : Database) (id : ℕ)
    (modality : EmbeddingModality) : Database :=
  db.deleteJobs fun j => j.generationId == id && decide (j.status = .done) &&
    !db.currentJobMatchesSource modality j

/-- `_finalization_status`: whether the result is partial. -/
def finalizationStatus (call : FinalizeCall) (g : EmbeddingGeneration)
    (summary : JobStatus → ℤ) : Option Bool := do
  guard (lit "enumeration=bounded-v1" <:+: g.processingSignature →
    g.cursor.protocol = some (lit "bounded-v1") ∧ g.cursor.enumerationComplete = true)
  guard (summary .pending + summary .leased = 0)
  let isPartial := decide (summary .error ≠ 0 ∨ summary .stale ≠ 0) ||
    call.coverageFailure g.provenanceJson
  guard (isPartial = true → call.allowPartial = true)
  pure isPartial

/-- `_persist_generation_finalization`. -/
def Database.persistFinalization (db : Database) (id : ℕ) (status : GenerationStatus)
    (summary : JobStatus → ℤ) : Database :=
  db.updateBuilding id fun g => { g with status := status, counts := summary }

/-- `_publish_generation_finalization` of a complete generation. -/
def Database.publishHead (db : Database) (signature : Text) (expected : Option ℕ) (id : ℕ) :
    Database :=
  match expected with
  | none => { db with heads := db.heads ++ [(signature, id)] }
  | some old =>
    { db with heads :=
        updateWhere (fun h => h.1 == signature && h.2 == old) (fun h => (h.1, id)) db.heads }

/-- `finalize_embedding_generation`. -/
def Database.finalizeEmbeddingGeneration (db : Database) (call : FinalizeCall) :
    Option (Database × Finalization) := do
  let (_, model) ← db.generationModel call.generationId
  let db := (db.markStaleJobs call.generationId model.modality true).removeSupersededCompletedJobs
    call.generationId model.modality
  let g ← db.generation call.generationId
  let summary := db.recount call.generationId
  guard (g.baseCloneComplete = true)
  let isPartial ← finalizationStatus call g summary
  if isPartial then
    pure (db.persistFinalization call.generationId .readyPartial summary, .readyPartial)
  else
    let db := db.removeObsoleteCandidateMembers call.generationId call.profile
    guard (∀ j ∈ db.jobs, j.generationId = call.generationId → j.status = .done →
      (db.member j.generationId j.entityKind j.entityId).isSome = true)
    guard (∀ m ∈ db.membersOf call.generationId, m.entityKind = .textChunk →
      call.unpublished m = false)
    if db.publishedHeadId model.modelSignature = g.baseGenerationId then
      pure ((db.persistFinalization call.generationId .ready summary).publishHead
        model.modelSignature g.baseGenerationId call.generationId, .ready)
    else
      pure (db.markGenerationHeadConflict call.generationId fun _ => summary, .conflict)

/-! ## Transactions -/

/-- `INSERT INTO embedding_models` of a signature that is not there. -/
def Database.registerModel (db : Database) (m : EmbeddingModel) : Database :=
  if db.models.any fun other => other.modelSignature == m.modelSignature then db
  else { db with models := db.models ++ [m] }

/-- One write transaction. -/
inductive Op where
  | registerModel (m : EmbeddingModel)
  | insertItem (i : SemanticItem)
  | updateItem (id : Text) (new : SemanticItem)
  | deleteItem (id : Text)
  | insertChunk (c : TextChunk)
  | updateChunk (id : Text) (new : TextChunk)
  | deleteChunk (id : Text)
  | start (call : StartCall)
  | clonePage (id : ℕ) (validateExtent : Bool)
  | updateCursor (id : ℕ) (protocol : Option Text) (enumerationComplete : Bool)
  | prepare (call : PrepareCall)
  | enqueue (call : EnqueueCall)
  | reuse (id limit nowNs : ℕ) (attachment : EmbeddingJob → Attachment)
  | claim (call : ClaimCall)
  | heartbeat (jobIds : List ℕ) (workerId : Text) (leaseNs nowNs : ℕ)
  | complete (jobId : ℕ) (workerId : Text) (blob : List UInt8) (nowNs : ℕ) (a : Attachment)
  | recordStale (jobId : ℕ) (workerId : Text) (nowNs : ℕ)
  | fail (jobId : ℕ) (workerId : Text) (retryable : Bool) (delayNs nowNs : ℕ)
  | release (jobId : ℕ) (workerId : Text) (nowNs : ℕ)
  | invalidate (ids : List ℕ) (matching : Text → Bool)
  | finalize (call : FinalizeCall)

/-- What a transaction returns. -/
inductive Outcome where
  | done
  | started (id : ℕ)
  | scanned (rows : List GenerationMember)
  | enqueued (rebound : List Text)
  | claimed (leases : List EmbeddingJobLease)
  | completed (result : Completion)
  | finalized (result : Finalization)

/-- A transaction. -/
def Database.perform (db : Database) : Op → Option (Database × Outcome)
  | .registerModel m => some (db.registerModel m, .done)
  | .insertItem i => some (db.insertItem i, .done)
  | .updateItem id new => some (db.updateItem id new, .done)
  | .deleteItem id => some (db.deleteItem id, .done)
  | .insertChunk c => some (db.insertChunk c, .done)
  | .updateChunk id new => some (db.updateChunk id new, .done)
  | .deleteChunk id => some (db.deleteChunk id, .done)
  | .start call => (db.startEmbeddingGeneration call).map fun r => (r.1, .started r.2)
  | .clonePage id validateExtent =>
    (db.clonePublishedMembers id validateExtent).map fun r => (r.1, .scanned r.2)
  | .updateCursor id protocol enumerationComplete =>
    (db.updateGenerationCursor id protocol enumerationComplete).map (·, .done)
  | .prepare call => (db.prepareEmbeddingGeneration call).map (·, .done)
  | .enqueue call => (db.enqueueJobBatch call).map fun r => (r.1, .enqueued r.2)
  | .reuse id limit nowNs attachment =>
    (db.reuseCachedJobs id limit nowNs attachment).map (·, .done)
  | .claim call => (db.claimEmbeddingJobs call).map fun r => (r.1, .claimed r.2)
  | .heartbeat jobIds workerId leaseNs nowNs =>
    (db.heartbeatEmbeddingJobs jobIds workerId leaseNs nowNs).map (·, .done)
  | .complete jobId workerId blob nowNs a =>
    (db.completeEmbeddingJob jobId workerId blob nowNs a).map fun r => (r.1, .completed r.2)
  | .recordStale jobId workerId nowNs =>
    (db.recordStaleEmbeddingJob jobId workerId nowNs).map (·, .done)
  | .fail jobId workerId retryable delayNs nowNs =>
    (db.failEmbeddingJob jobId workerId retryable delayNs nowNs).map (·, .done)
  | .release jobId workerId nowNs =>
    (db.releaseEmbeddingJobLease jobId workerId nowNs).map (·, .done)
  | .invalidate ids matching => (db.invalidateForSourceChange ids matching).map (·, .done)
  | .finalize call =>
    (db.finalizeEmbeddingGeneration call).map fun r => (r.1, .finalized r.2)

/-- The database after a call: one that raises is rolled back. -/
def Database.step (db : Database) (op : Op) : Database := (db.perform op).elim db Prod.fst

/-- The database after calls, in the order of their transactions. -/
def Database.run (db : Database) (ops : List Op) : Database := ops.foldl Database.step db

/-- An owner that has just been created. -/
def Database.empty : Database where
  models := []
  items := []
  chunks := []
  payloads := []
  generations := []
  jobs := []
  members := []
  heads := []
  nextPayload := 1
  nextGeneration := 1
  nextJob := 1
  nextMember := 1

end Semantic
end Neocortex
