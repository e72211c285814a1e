import Neocortex.Library.Rows
import Neocortex.Python.Text

/-!
# The owner of the semantic index

The tables that a generation of embeddings is built from (`semantic/semantic_schema.py`) and
the triggers of `semantic_generation_control_schema.py`.  A table is the list of its rows in
the order of their identifiers; an `AUTOINCREMENT` identifier comes from a counter.

The columns that no operation below reads are left out: timestamps of rows, error texts,
receipts, and what a vector, an item or a chunk holds beside its identity and fingerprint.
Foreign keys only refuse writes, so the tables here may do more than the owner's.
-/

namespace Neocortex
namespace Semantic

open Python Rows

/-! ## Rows -/

/-- `ContentFingerprint`: the content key of an item, a chunk, a job, a member or a payload. -/
structure ContentFingerprint where
  xxh3128 : Text
  byteCount : ℕ
  xxh364Guard : Text
  deriving DecidableEq

inductive EmbeddingModality where
  | text
  | image
  deriving DecidableEq

inductive EmbeddingRole where
  | query
  | passage
  | image
  deriving DecidableEq

inductive SemanticEntityKind where
  | textChunk
  | imageItem
  deriving DecidableEq

inductive JobStatus where
  | pending
  | leased
  | done
  | error
  | stale
  deriving DecidableEq

/-- `status IN ('pending','leased')`. -/
def JobStatus.live : JobStatus → Bool
  | pending => true
  | leased => true
  | done => false
  | error => false
  | stale => false

inductive GenerationStatus where
  | building
  | ready
  | readyPartial
  | failed
  deriving DecidableEq

/-- A row of `embedding_models`. -/
structure EmbeddingModel where
  modelSignature : Text
  modality : EmbeddingModality
  supportedRoles : List EmbeddingRole
  active : Bool

/-- A row of `semantic_items`. -/
structure SemanticItem where
  itemId : Text
  sourceKind : Text
  sourceIdentity : Text
  identityVersion : Text
  path : Option Text
  fingerprint : ContentFingerprint
  active : Bool
  deriving DecidableEq

/-- A row of `text_chunks`. -/
structure TextChunk where
  chunkId : Text
  itemId : Text
  fingerprint : ContentFingerprint
  active : Bool
  deriving DecidableEq

/-- A row of `vector_payloads`; the vector is the encoded blob. -/
structure VectorPayload where
  payloadId : ℕ
  modelSignature : Text
  fingerprint : ContentFingerprint
  vectorBlob : List UInt8
  deriving DecidableEq

/-- A row of `embedding_jobs`. -/
structure EmbeddingJob where
  jobId : ℕ
  generationId : ℕ
  modelSignature : Text
  entityKind : SemanticEntityKind
  entityId : Text
  itemId : Text
  fingerprint : ContentFingerprint
  status : JobStatus
  attempts : ℕ
  maxAttempts : ℕ
  availableNs : ℕ
  leaseOwner : Option Text
  leaseUntilNs : Option ℕ
  sourceDirty : Bool
  cachedPayloadId : Option ℕ
  deriving DecidableEq

/-- The `base_clone` entry of a generation cursor. -/
structure BaseCloneCursor where
  baseGenerationId : Option ℕ
  afterMemberId : ℕ
  lastMemberId : ℕ
  baseMemberCount : ℕ
  scannedMembers : ℕ
  complete : Bool
  deriving DecidableEq

/-- `cursor_json`: the entries that are read. -/
structure Cursor where
  baseClone : Option BaseCloneCursor := none
  protocol : Option Text := none
  enumerationComplete : Bool := false

/-- A row of `embedding_generations`; `counts` are the columns `pending_count` to
`stale_count`. -/
structure EmbeddingGeneration where
  generationId : ℕ
  modelSignature : Text
  processingSignature : Text
  status : GenerationStatus
  provenanceJson : Text
  cursor : Cursor
  baseGenerationId : Option ℕ
  baseCloneComplete : Bool
  counts : JobStatus → ℤ

/-- A row of `embedding_generation_members`. -/
structure GenerationMember where
  memberId : ℕ
  generationId : ℕ
  modelSignature : Text
  entityKind : SemanticEntityKind
  entityId : Text
  itemId : Text
  itemRevisionId : ℕ
  chunkRevisionId : Option ℕ
  payloadId : ℕ
  fingerprint : ContentFingerprint
  provenanceJson : Text
  updatedNs : ℕ
  baseMemberId : Option ℕ
  deriving DecidableEq

/-- The database of the owner. -/
structure Database where
  models : List EmbeddingModel
  items : List SemanticItem
  chunks : List TextChunk
  payloads : List VectorPayload
  generations : List EmbeddingGeneration
  jobs : List EmbeddingJob
  members : List GenerationMember
  /-- `published_embedding_heads`. -/
  heads : List (Text × ℕ)
  nextPayload : ℕ
  nextGeneration : ℕ
  nextJob : ℕ
  nextMember : ℕ

/-- `MAX_WRITE_BATCH`. -/
def maxWriteBatch : ℕ := 500

/-! ## Lookups -/

/-- The kind of entity that a modality embeds. -/
def EmbeddingModality.entityKind : EmbeddingModality → SemanticEntityKind
  | text => .textChunk
  | image => .imageItem

def Database.generation (db : Database) (id : ℕ) : Option EmbeddingGeneration :=
  db.generations.find? fun g => g.generationId == id

/-- `_load_model`. -/
def Database.loadModel (db : Database) (signature : Text) : Option EmbeddingModel :=
  db.models.find? fun m => m.modelSignature == signature && m.active

/-- The source of a text job exists, is active and has the content of the job. -/
def Database.textSourceMatches (db : Database) (j : EmbeddingJob) : Bool :=
  db.chunks.any fun c =>
    c.chunkId == j.entityId && c.active && c.fingerprint == j.fingerprint &&
      db.items.any fun i => i.itemId == c.itemId && i.active

/-- The source of an image job exists, is active, has a path and has the content of the job. -/
def Database.imageSourceMatches (db : Database) (j : EmbeddingJob) : Bool :=
  db.items.any fun i =>
    i.itemId == j.entityId && i.active && i.path.isSome && i.fingerprint == j.fingerprint

/-- `_current_job_matches_source`. -/
def Database.currentJobMatchesSource (db : Database) (modality : EmbeddingModality)
    (j : EmbeddingJob) : Bool :=
  match modality with
  | .text => db.textSourceMatches j
  | .image => db.imageSourceMatches j

/-- The payload with a model and a content key. -/
def Database.cachedPayload (db : Database) (signature : Text) (fingerprint : ContentFingerprint) :
    Option ℕ :=
  (db.payloads.find? fun p =>
    p.modelSignature == signature && p.fingerprint == fingerprint).map VectorPayload.payloadId

/-! ## Triggers on jobs -/

/-- The columns that `embedding_jobs_control_insert` and `embedding_jobs_control_update` set. -/
def Database.control (db : Database) (j : EmbeddingJob) : EmbeddingJob :=
  { j with
    sourceDirty := j.status.live
    cachedPayloadId := db.cachedPayload j.modelSignature j.fingerprint }

/-- The `WHEN` of `embedding_jobs_control_update`. -/
def identityChanged (old new : EmbeddingJob) : Bool :=
  decide (old.status ≠ new.status ∨ old.entityKind ≠ new.entityKind ∨ old.entityId ≠ new.entityId ∨
    old.itemId ≠ new.itemId ∨ old.modelSignature ≠ new.modelSignature ∨
    old.fingerprint ≠ new.fingerprint)

/-- A job after an update and its trigger. -/
def Database.afterUpdate (db : Database) (old new : EmbeddingJob) : EmbeddingJob :=
  if identityChanged old new then db.control new else new

/-- The counters of a building generation, one of them changed by `n`. -/
def bump (generations : List EmbeddingGeneration) (id : ℕ) (status : JobStatus) (n : ℤ) :
    List EmbeddingGeneration :=
  updateWhere (fun g => g.generationId == id && decide (g.status = .building))
    (fun g => { g with counts := Function.update g.counts status (g.counts status + n) })
    generations

/-- `embedding_jobs_generation_counts_update`. -/
def countsUpdate (generations : List EmbeddingGeneration) (old new : EmbeddingJob) :
    List EmbeddingGeneration :=
  if old.status = new.status ∧ old.generationId = new.generationId then generations
  else bump (bump generations old.generationId old.status (-1)) new.generationId new.status 1

/-! ## Statements on jobs -/

/-- `INSERT INTO embedding_jobs`. -/
def Database.insertJob (db : Database) (j : EmbeddingJob) : Database :=
  let row := { j with jobId := db.nextJob }
  { db with
    jobs := db.jobs ++ [db.control row]
    generations := bump db.generations j.generationId j.status 1
    nextJob := db.nextJob + 1 }

/-- `UPDATE embedding_jobs SET f WHERE p`, of columns that the triggers watch. -/
def Database.updateJobs (db : Database) (p : EmbeddingJob → Bool)
    (f : EmbeddingJob → EmbeddingJob) : Database :=
  { db with
    jobs := updateWhere p (fun j => db.afterUpdate j (f j)) db.jobs
    generations :=
      db.jobs.foldl (fun gs j => if p j then countsUpdate gs j (f j) else gs) db.generations }

/-- `DELETE FROM embedding_jobs WHERE p`. -/
def Database.deleteJobs (db : Database) (p : EmbeddingJob → Bool) : Database :=
  { db with
    jobs := deleteWhere p db.jobs
    generations :=
      db.jobs.foldl (fun gs j => if p j then bump gs j.generationId j.status (-1) else gs)
        db.generations }

/-- `UPDATE embedding_jobs SET source_dirty=…`, which no trigger watches. -/
def Database.setDirty (db : Database) (dirty : Bool) (p : EmbeddingJob → Bool) : Database :=
  { db with jobs := updateWhere p (fun j => { j with sourceDirty := dirty }) db.jobs }

/-- `INSERT INTO vector_payloads`, and `vector_payloads_embedding_jobs_cache_hint`. -/
def Database.insertPayload (db : Database) (signature : Text) (fingerprint : ContentFingerprint)
    (blob : List UInt8) : Database :=
  { db with
    payloads := db.payloads ++ [⟨db.nextPayload, signature, fingerprint, blob⟩]
    nextPayload := db.nextPayload + 1
    jobs := updateWhere (fun j => j.modelSignature == signature && j.fingerprint == fingerprint)
      (fun j => { j with cachedPayloadId := some db.nextPayload }) db.jobs }

/-! ## Statements on sources -/

/-- The live image jobs of an item, and the live text jobs of its chunks. -/
def Database.jobOfItem (db : Database) (ids : List Text) (j : EmbeddingJob) : Bool :=
  j.status.live &&
    ((decide (j.entityKind = .imageItem) && ids.contains j.entityId) ||
      (decide (j.entityKind = .textChunk) &&
        db.chunks.any fun c => c.chunkId == j.entityId && ids.contains c.itemId))

/-- The live text jobs of chunks. -/
def jobOfChunk (ids : List Text) (j : EmbeddingJob) : Bool :=
  j.status.live && decide (j.entityKind = .textChunk) && ids.contains j.entityId

/-- `INSERT INTO semantic_items`. -/
def Database.insertItem (db : Database) (i : SemanticItem) : Database :=
  if db.items.any fun other => other.itemId == i.itemId then db
  else { db with items := db.items ++ [i] }.setDirty true (db.jobOfItem [i.itemId])

/-- The `WHEN` of `semantic_items_embedding_jobs_source_dirty_update`. -/
def itemChanged (old new : SemanticItem) : Bool :=
  decide (old.itemId ≠ new.itemId ∨ old.sourceKind ≠ new.sourceKind ∨
    old.sourceIdentity ≠ new.sourceIdentity ∨ old.identityVersion ≠ new.identityVersion ∨
    old.fingerprint ≠ new.fingerprint ∨ old.active ≠ new.active ∨
    old.path.isNone ≠ new.path.isNone)

/-- `UPDATE semantic_items` of one row. -/
def Database.updateItem (db : Database) (id : Text) (new : SemanticItem) : Database :=
  match db.items.find? fun i => i.itemId == id with
  | none => db
  | some old =>
    if new.itemId ≠ id ∧ db.items.any fun i => i.itemId == new.itemId then db
    else
      let written := { db with items := updateWhere (fun i => i.itemId == id) (fun _ => new) db.items }
      if itemChanged old new then written.setDirty true (db.jobOfItem [id, new.itemId]) else written

/-- `DELETE FROM semantic_items` of one row. -/
def Database.deleteItem (db : Database) (id : Text) : Database :=
  { db with items := deleteWhere (fun i => i.itemId == id) db.items }.setDirty true
    (db.jobOfItem [id])

/-- `INSERT INTO text_chunks`. -/
def Database.insertChunk (db : Database) (c : TextChunk) : Database :=
  if db.chunks.any fun other => other.chunkId == c.chunkId then db
  else { db with chunks := db.chunks ++ [c] }.setDirty true (jobOfChunk [c.chunkId])

/-- The `WHEN` of `text_chunks_embedding_jobs_source_dirty_update`. -/
def chunkChanged (old new : TextChunk) : Bool := decide (old ≠ new)

/-- `UPDATE text_chunks` of one row. -/
def Database.updateChunk (db : Database) (id : Text) (new : TextChunk) : Database :=
  match db.chunks.find? fun c => c.chunkId == id with
  | none => db
  | some old =>
    if new.chunkId ≠ id ∧ db.chunks.any fun c => c.chunkId == new.chunkId then db
    else
      let written :=
        { db with chunks := updateWhere (fun c => c.chunkId == id) (fun _ => new) db.chunks }
      if chunkChanged old new then written.setDirty true (jobOfChunk [id, new.chunkId]) else written

/-- `DELETE FROM text_chunks` of one row. -/
def Database.deleteChunk (db : Database) (id : Text) : Database :=
  { db with chunks := deleteWhere (fun c => c.chunkId == id) db.chunks }.setDirty true
    (jobOfChunk [id])

/-! ## Statements on generations and members -/

/-- `UPDATE embedding_generations SET f WHERE generation_id=? AND status='building'`. -/
def Database.updateBuilding (db : Database) (id : ℕ)
    (f : EmbeddingGeneration → EmbeddingGeneration) : Database :=
  { db with generations :=
      updateWhere (fun g => g.generationId == id && decide (g.status = .building)) f db.generations }

/-- The row of an entity in a generation. -/
def sameMember (generationId : ℕ) (kind : SemanticEntityKind) (entityId : Text)
    (m : GenerationMember) : Bool :=
  m.generationId == generationId && decide (m.entityKind = kind) && m.entityId == entityId

def Database.member (db : Database) (generationId : ℕ) (kind : SemanticEntityKind)
    (entityId : Text) : Option GenerationMember :=
  db.members.find? (sameMember generationId kind entityId)

/-- `INSERT INTO embedding_generation_members … ON CONFLICT DO NOTHING`. -/
def Database.insertMember (db : Database) (m : GenerationMember) : Database :=
  if db.members.any (sameMember m.generationId m.entityKind m.entityId) then db
  else
    let row := { m with memberId := db.nextMember }
    { db with members := db.members ++ [row], nextMember := db.nextMember + 1 }

/-- `INSERT INTO embedding_generation_members … ON CONFLICT DO UPDATE`. -/
def Database.upsertMember (db : Database) (m : GenerationMember) : Database :=
  let same := sameMember m.generationId m.entityKind m.entityId
  let merge := fun old : GenerationMember =>
    { m with memberId := old.memberId, modelSignature := old.modelSignature }
  if db.members.any same then { db with members := updateWhere same merge db.members }
  else db.insertMember m

theorem jobs_upsertMember (db : Database) (m : GenerationMember) :
    (db.upsertMember m).jobs = db.jobs := by
  unfold Database.upsertMember Database.insertMember
  dsimp only
  split_ifs <;> rfl

/-- `DELETE FROM embedding_generation_members WHERE p`. -/
def Database.deleteMembers (db : Database) (p : GenerationMember → Bool) : Database :=
  { db with members := deleteWhere p db.members }

end Semantic
end Neocortex
