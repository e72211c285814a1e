import Neocortex.Library.Checks
import Neocortex.Semantic.Projection

/-!
# Batches of completions

`complete_embedding_jobs_batch` (`semantic/semantic_generation_worker.py`): the results of one
inference batch in one write transaction, each behind a savepoint.  What goes wrong with a result is
recorded outside its savepoint, and raises where the lease is not held any more: then nothing of the
batch is left.

* `alone_eq_some`, `completeOnConnection_eq_ok`: a result is completed in a batch as it is alone.
* `exists_completeResults_iff`: when nothing raises out of the loop.
* `batch_eq_single_iff`: when the batch leaves for every result what it leaves alone.
-/

namespace Neocortex
namespace Semantic

open Python Rows Checks

variable {db db' : Database} {workerId : Text}

/-! ## The batch -/

/-- A result of the backend and the times at which it is completed or recorded as failed.  Encoding
may raise, and so may the provenance and the ledger. -/
structure BatchResult where
  index : ℕ
  encodeVector : EmbeddingModel → Option (List UInt8)
  attachment : Option Attachment
  nowNs : ℕ
  failedNs : ℕ

/-- `StaleEmbeddingJobError`, or another exception. -/
inductive CompletionError where
  | stale
  | raised
  deriving DecidableEq

/-- Another exception where a value is missing. -/
def required {α : Type} : Option α → Except CompletionError α
  | some a => .ok a
  | none => .error .raised

/-- `_complete_embedding_job_on_connection`. -/
def Database.completeOnConnection (db : Database) (jobId : ℕ) (workerId : Text)
    (r : BatchResult) : Except CompletionError Database := do
  let a ← required r.attachment
  let j ← required (db.job jobId)
  if j.heldBy workerId r.nowNs = false then .error .raised
  else if db.jobIsCurrent j = false then .error .stale
  else
    let m ← required (db.loadModel j.modelSignature)
    let blob ← required (r.encodeVector m)
    let stored :=
      if (db.cachedPayload j.modelSignature j.fingerprint).isSome then db
      else db.insertPayload j.modelSignature j.fingerprint blob
    let payloadId ← required (stored.cachedPayload j.modelSignature j.fingerprint)
    let attached ← required (stored.attachPayload j payloadId r.nowNs a)
    .ok (attached.updateJobs (fun other => other.jobId == jobId && other.heldBy workerId r.nowNs)
      EmbeddingJob.toDone)

/-- One turn of the loop of `complete_embedding_jobs_batch`; `none` is an exception that leaves
it. -/
def Database.completeResult (leases : List EmbeddingJobLease) (workerId : Text) (db : Database)
    (r : BatchResult) : Option Database := do
  let lease ← leases[r.index]?
  match db.completeOnConnection lease.jobId workerId r with
  | .ok completed => some completed
  | .error .stale => db.recordStaleEmbeddingJob lease.jobId workerId r.failedNs
  | .error .raised => db.failEmbeddingJob lease.jobId workerId false 0 r.failedNs

/-- The loop. -/
def Database.completeResults (leases : List EmbeddingJobLease) (workerId : Text)
    (results : List BatchResult) (db : Database) : Option Database :=
  results.foldlM (Database.completeResult leases workerId) db

/-- The database behind `complete_embedding_jobs_batch`. -/
def Database.completeEmbeddingJobsBatch (db : Database) (leases : List EmbeddingJobLease)
    (workerId : Text) (results : List BatchResult) : Database :=
  if strip workerId = [] then db
  else (Database.completeResults leases workerId results db).getD db

/-- `complete_embedding_job` of the same result: the database in which it is accepted. -/
def BatchResult.alone (r : BatchResult) (leases : List EmbeddingJobLease) (workerId : Text)
    (db : Database) : Option Database := do
  let lease ← leases[r.index]?
  let a ← r.attachment
  let j ← db.job lease.jobId
  let m ← db.loadModel j.modelSignature
  let blob ← r.encodeVector m
  let (db', completion) ← db.completeEmbeddingJob lease.jobId workerId blob r.nowNs a
  guard (completion = .accepted)
  pure db'

/-! ## What a completion needs, and what it leaves -/

/-- The row that `_attach_payload` writes for a job. -/
def EmbeddingJob.memberRow (j : EmbeddingJob) (payloadId nowNs : ℕ) (a : Attachment) :
    GenerationMember where
  memberId := 0
  generationId := j.generationId
  modelSignature := j.modelSignature
  entityKind := j.entityKind
  entityId := j.entityId
  itemId := j.itemId
  itemRevisionId := a.itemRevisionId
  chunkRevisionId := a.chunkRevisionId
  payloadId := payloadId
  fingerprint := j.fingerprint
  provenanceJson := a.provenanceJson
  updatedNs := nowNs
  baseMemberId := none

/-- The generation of a job takes members. -/
def Database.Attachable (db : Database) (j : EmbeddingJob) : Prop :=
  ∃ g, db.generation j.generationId = some g ∧ g.status = .building ∧
    g.modelSignature = j.modelSignature ∧ g.baseCloneComplete = true

/-- A result whose lease is live, and whose vector and source are valid. -/
structure Good (db : Database) (jobId : ℕ) (workerId : Text) (r : BatchResult) (j : EmbeddingJob)
    (blob : List UInt8) (a : Attachment) : Prop where
  worker : strip workerId ≠ []
  attachment : r.attachment = some a
  job : db.job jobId = some j
  held : j.heldBy workerId r.nowNs = true
  current : db.jobIsCurrent j = true
  vector : ∃ m, db.loadModel j.modelSignature = some m ∧ r.encodeVector m = some blob
  attachable : db.Attachable j

/-- The database with the result of a job. -/
def Database.withResult (db : Database) (j : EmbeddingJob) (blob : List UInt8) (nowNs : ℕ)
    (a : Attachment) : Database :=
  let stored := db.storePayload j blob
  (stored.upsertMember (j.memberRow
    ((stored.cachedPayload j.modelSignature j.fingerprint).getD 0) nowNs a)).finishJob j.jobId

theorem exists_cachedPayload (db : Database) (j : EmbeddingJob) (blob : List UInt8) :
    ∃ payloadId, (db.storePayload j blob).cachedPayload j.modelSignature j.fingerprint =
      some payloadId := by
  unfold Database.storePayload
  by_cases h : (db.cachedPayload j.modelSignature j.fingerprint).isSome = true
  · rw [if_pos h]
    exact Option.isSome_iff_exists.mp h
  · rw [if_neg h]
    have hnone : db.cachedPayload j.modelSignature j.fingerprint = none := by simpa using h
    refine ⟨db.nextPayload, ?_⟩
    rw [cachedPayload_insertPayload db _ _ _ _ _ hnone, if_pos ⟨rfl, rfl⟩]

theorem generation_storePayload (db : Database) (j : EmbeddingJob) (blob : List UInt8) (id : ℕ) :
    (db.storePayload j blob).generation id = db.generation id := by
  unfold Database.storePayload
  split_ifs <;> rfl

theorem attachPayload_eq_some {db' : Database} {j : EmbeddingJob} {blob : List UInt8}
    {payloadId nowNs : ℕ} {a : Attachment} :
    (db.storePayload j blob).attachPayload j payloadId nowNs a = some db' ↔
      db.Attachable j ∧ db' = (db.storePayload j blob).upsertMember
        (j.memberRow payloadId nowNs a) := by
  simp only [Database.attachPayload, bind_eq_some, guard_eq_some, exists_const, pure_eq_some,
    generation_storePayload]
  constructor
  · rintro ⟨g, hg, ⟨hb, hs, hc⟩, rfl⟩
    exact ⟨⟨g, hg, hb, hs, hc⟩, rfl⟩
  · rintro ⟨⟨g, hg, hb, hs, hc⟩, rfl⟩
    exact ⟨g, hg, ⟨hb, hs, hc⟩, rfl⟩

theorem required_eq_ok {α : Type} {x : Option α} {a : α} : required x = .ok a ↔ x = some a := by
  cases x <;> simp [required]

/-- The single call accepts a good result. -/
theorem alone_eq_some {leases : List EmbeddingJobLease} {r : BatchResult}
    {lease : EmbeddingJobLease} (hlease : leases[r.index]? = some lease) :
    r.alone leases workerId db = some db' ↔ ∃ j blob a, Good db lease.jobId workerId r j blob a ∧
      db' = db.withResult j blob r.nowNs a := by
  simp only [BatchResult.alone, hlease, bind_eq_some, Option.some.injEq, exists_eq_left',
    guard_eq_some, pure_eq_some, Prod.exists]
  constructor
  · rintro ⟨a, ha, j, hj, m, hm, blob, hblob, db₁, completion, h, _, rfl, rfl⟩
    simp only [Database.completeEmbeddingJob, bind_eq_some, guard_eq_some, exists_const] at h
    obtain ⟨hworker, j', hj', hheld, h⟩ := h
    obtain rfl : j = j' := Option.some.inj (hj.symm.trans hj')
    by_cases hcurrent : db.jobIsCurrent j = true
    · rw [if_pos hcurrent] at h
      simp only [bind_eq_some, pure_eq_some, Prod.mk.injEq] at h
      obtain ⟨_, -, payloadId, hpayload, attached, hattached, rfl, -⟩ := h
      obtain ⟨hattachable, rfl⟩ := attachPayload_eq_some.mp hattached
      refine ⟨j, blob, a, ⟨hworker, ha, hj, hheld, hcurrent, ⟨m, hm, hblob⟩, hattachable⟩, ?_⟩
      have hstored : (db.storePayload j blob).cachedPayload j.modelSignature j.fingerprint =
          some payloadId := hpayload
      rw [Database.withResult, hstored, (job_spec hj).2]
      rfl
    · rw [if_neg hcurrent, pure_eq_some, Prod.mk.injEq] at h
      cases h.2
  · rintro ⟨j, blob, a, h, rfl⟩
    obtain ⟨m, hm, hblob⟩ := h.vector
    obtain ⟨payloadId, hpayload⟩ := exists_cachedPayload db j blob
    refine ⟨a, h.attachment, j, h.job, m, hm, blob, hblob, _, .accepted, ?_, (), rfl, rfl⟩
    simp only [Database.completeEmbeddingJob, bind_eq_some, guard_eq_some, exists_const]
    refine ⟨h.worker, j, h.job, h.held, ?_⟩
    rw [if_pos h.current]
    simp only [bind_eq_some, pure_eq_some, Prod.mk.injEq]
    refine ⟨m, hm, payloadId, hpayload, _, attachPayload_eq_some.mpr ⟨h.attachable, rfl⟩, ?_,
      trivial⟩
    rw [Database.withResult, hpayload, (job_spec h.job).2]
    rfl

/-! ## Completion on a connection -/

/-- A job without the hint that payloads write. -/
def EmbeddingJob.plain (j : EmbeddingJob) : EmbeddingJob := { j with cachedPayloadId := none }

theorem heldBy_plain (j : EmbeddingJob) (nowNs : ℕ) :
    j.plain.heldBy workerId nowNs = j.heldBy workerId nowNs := rfl

theorem jobs_storePayload (db : Database) (j : EmbeddingJob) (blob : List UInt8) :
    (db.storePayload j blob).jobs.map EmbeddingJob.plain = db.jobs.map EmbeddingJob.plain := by
  unfold Database.storePayload
  split_ifs
  · rfl
  · exact map_updateWhere fun _ _ _ => rfl

/-- The job is held through the writes of its payload and its member. -/
theorem held_of_mem_attached (h : db.JobRows) {j j' : EmbeddingJob} {nowNs : ℕ}
    {blob : List UInt8} {m : GenerationMember} (hj : j ∈ db.jobs)
    (hheld : j.heldBy workerId nowNs = true)
    (hj' : j' ∈ ((db.storePayload j blob).upsertMember m).jobs) (hid : j'.jobId = j.jobId) :
    j'.heldBy workerId nowNs = true := by
  rw [jobs_upsertMember] at hj'
  have hplain := List.mem_map_of_mem (f := EmbeddingJob.plain) hj'
  rw [jobs_storePayload, List.mem_map] at hplain
  obtain ⟨j₀, hj₀, hsame⟩ := hplain
  have hid₀ : j₀.jobId = j.jobId := (congrArg EmbeddingJob.jobId hsame).trans hid
  have heq := h.unique_jobs.eq hj₀ hj hid₀
  rw [← heldBy_plain, ← hsame, heq]
  exact hheld

/-- A result of a batch is completed as it is alone. -/
theorem completeOnConnection_eq_ok (h : db.JobRows) (hworker : strip workerId ≠ []) {jobId : ℕ}
    {r : BatchResult} :
    db.completeOnConnection jobId workerId r = .ok db' ↔
      ∃ j blob a, Good db jobId workerId r j blob a ∧ db' = db.withResult j blob r.nowNs a := by
  have hfinish : ∀ {j : EmbeddingJob} {blob : List UInt8} {m : GenerationMember},
      db.job jobId = some j → j.heldBy workerId r.nowNs = true →
      ((db.storePayload j blob).upsertMember m).updateJobs
        (fun other => other.jobId == jobId && other.heldBy workerId r.nowNs) EmbeddingJob.toDone =
      ((db.storePayload j blob).upsertMember m).finishJob j.jobId := by
    intro j blob m hj hheld
    obtain ⟨hmem, rfl⟩ := job_spec hj
    refine updateJobs_congr _ fun j' hj' => ?_
    by_cases hid : j'.jobId = j.jobId
    · rw [held_of_mem_attached h hmem hheld hj' hid, Bool.and_true]
    · simp [hid]
  unfold Database.completeOnConnection
  simp only [bind_eq_ok, required_eq_ok]
  constructor
  · rintro ⟨a, ha, j, hj, hrun⟩
    by_cases hheld : j.heldBy workerId r.nowNs = false
    · rw [if_pos hheld] at hrun
      cases hrun
    by_cases hcurrent : db.jobIsCurrent j = false
    · rw [if_neg hheld, if_pos hcurrent] at hrun
      cases hrun
    rw [if_neg hheld, if_neg hcurrent] at hrun
    simp only [bind_eq_ok, required_eq_ok, Except.ok.injEq] at hrun
    obtain ⟨m, hm, blob, hblob, payloadId, hpayload, attached, hattached, rfl⟩ := hrun
    obtain ⟨hattachable, rfl⟩ := attachPayload_eq_some.mp hattached
    have hstored : (db.storePayload j blob).cachedPayload j.modelSignature j.fingerprint =
        some payloadId := hpayload
    rw [Bool.not_eq_false] at hheld hcurrent
    refine ⟨j, blob, a, ⟨hworker, ha, hj, hheld, hcurrent, ⟨m, hm, hblob⟩, hattachable⟩, ?_⟩
    rw [Database.withResult, hstored]
    exact hfinish hj hheld
  · rintro ⟨j, blob, a, hgood, rfl⟩
    obtain ⟨m, hm, hblob⟩ := hgood.vector
    obtain ⟨payloadId, hpayload⟩ := exists_cachedPayload db j blob
    refine ⟨a, hgood.attachment, j, hgood.job, ?_⟩
    rw [if_neg (by simp [hgood.held]), if_neg (by simp [hgood.current])]
    simp only [bind_eq_ok, required_eq_ok, Except.ok.injEq]
    refine ⟨m, hm, blob, hblob, payloadId, hpayload, _,
      attachPayload_eq_some.mpr ⟨hgood.attachable, rfl⟩, ?_⟩
    rw [Database.withResult, hpayload]
    exact hfinish hgood.job hgood.held

/-! ## What is recorded of a failure -/

/-- The lease is live when the failure is recorded. -/
def HeldAt (db : Database) (jobId : ℕ) (workerId : Text) (nowNs : ℕ) : Prop :=
  ∃ j, db.job jobId = some j ∧ j.heldBy workerId nowNs = true

/-- The update of a job that has failed for good. -/
def EmbeddingJob.toFailed (nowNs : ℕ) (j : EmbeddingJob) : EmbeddingJob :=
  { j with status := .error, availableNs := nowNs, leaseOwner := none, leaseUntilNs := none }

/-- What an exception makes of a job. -/
def CompletionError.mark (nowNs : ℕ) : CompletionError → EmbeddingJob → EmbeddingJob
  | .stale => EmbeddingJob.toStale
  | .raised => EmbeddingJob.toFailed nowNs

/-- The database with the failure of a job. -/
def Database.withFailure (db : Database) (jobId : ℕ) (workerId : Text) (nowNs : ℕ)
    (e : CompletionError) : Database :=
  db.updateJobs (fun other => other.jobId == jobId && other.heldBy workerId nowNs) (e.mark nowNs)

/-- The handler of an exception, which raises where the lease is not held. -/
def Database.recordFailure (db : Database) (jobId : ℕ) (workerId : Text) (nowNs : ℕ) :
    CompletionError → Option Database
  | .stale => db.recordStaleEmbeddingJob jobId workerId nowNs
  | .raised => db.failEmbeddingJob jobId workerId false 0 nowNs

theorem recordFailure_eq_some (hworker : strip workerId ≠ []) {jobId nowNs : ℕ}
    {e : CompletionError} : db.recordFailure jobId workerId nowNs e = some db' ↔
      HeldAt db jobId workerId nowNs ∧ db' = db.withFailure jobId workerId nowNs e := by
  cases e with
  | stale =>
    simp only [Database.recordFailure, Database.recordStaleEmbeddingJob, bind_eq_some,
      guard_eq_some, exists_const, pure_eq_some]
    constructor
    · rintro ⟨j, hj, hheld, rfl⟩
      exact ⟨⟨j, hj, hheld⟩, rfl⟩
    · rintro ⟨⟨j, hj, hheld⟩, rfl⟩
      exact ⟨j, hj, hheld, rfl⟩
  | raised =>
    simp only [Database.recordFailure, Database.failEmbeddingJob, bind_eq_some, guard_eq_some,
      exists_const, pure_eq_some, Bool.false_and, Bool.false_eq_true, if_false, Nat.add_zero]
    constructor
    · rintro ⟨-, j, hj, hheld, rfl⟩
      exact ⟨⟨j, hj, hheld⟩, rfl⟩
    · rintro ⟨⟨j, hj, hheld⟩, rfl⟩
      exact ⟨hworker, j, hj, hheld, rfl⟩

/-! ## Results beside each other -/

/-- What a completion reads of the jobs that are not touched. -/
structure SameInputs (touched : ℕ → Prop) (db db' : Database) : Prop where
  core : SameCore db db'
  items : db'.items = db.items
  chunks : db'.chunks = db.chunks
  jobs : ∀ id, ¬ touched id →
    (db'.job id).map EmbeddingJob.plain = (db.job id).map EmbeddingJob.plain

/-- The job has a row. -/
def Database.Listed (db : Database) (j : EmbeddingJob) : Prop :=
  j.identity ∈ db.jobs.map EmbeddingJob.identity

/-- Writes for the touched jobs leave the rest of the database. -/
structure Beside (touched : ℕ → Prop) (db db' : Database) : Prop extends
    SameInputs touched db db' where
  rows : db.JobRows → db'.JobRows
  listed : ∀ j, db'.Listed j ↔ db.Listed j
  payloads : ∀ q p, db.payloads.find? q = some p → db'.payloads.find? q = some p
  members : db.JobRows → ∀ j, db.Listed j → ¬ touched j.jobId →
    db'.member j.generationId j.entityKind j.entityId =
      db.member j.generationId j.entityKind j.entityId

section Frames

variable {touched touched' : ℕ → Prop} {db₁ db₂ db₃ : Database}

theorem SameInputs.symm (h : SameInputs touched db db') : SameInputs touched db' db where
  core := ⟨h.core.models.symm, h.core.generations.symm⟩
  items := h.items.symm
  chunks := h.chunks.symm
  jobs id hid := (h.jobs id hid).symm

theorem Beside.refl (touched : ℕ → Prop) (db : Database) : Beside touched db db where
  core := SameCore.refl db
  items := rfl
  chunks := rfl
  jobs _ _ := rfl
  rows := id
  listed _ := Iff.rfl
  payloads _ _ h := h
  members _ _ _ _ := rfl

theorem Beside.trans (h : Beside touched db₁ db₂) (h' : Beside touched db₂ db₃) :
    Beside touched db₁ db₃ where
  core := h.core.trans h'.core
  items := h'.items.trans h.items
  chunks := h'.chunks.trans h.chunks
  jobs id hid := (h'.jobs id hid).trans (h.jobs id hid)
  rows := h'.rows ∘ h.rows
  listed j := (h'.listed j).trans (h.listed j)
  payloads q p hp := h'.payloads q p (h.payloads q p hp)
  members hrows j hj hid :=
    (h'.members (h.rows hrows) j ((h.listed j).mpr hj) hid).trans (h.members hrows j hj hid)

theorem Beside.mono (h : Beside touched db₁ db₂) (hle : ∀ id, touched id → touched' id) :
    Beside touched' db₁ db₂ where
  toSameInputs := ⟨h.core, h.items, h.chunks, fun id hid => h.jobs id (mt (hle id) hid)⟩
  rows := h.rows
  listed := h.listed
  payloads := h.payloads
  members hrows j hj hid := h.members hrows j hj (mt (hle j.jobId) hid)

end Frames

theorem listed_of_job {id : ℕ} {j : EmbeddingJob} (h : db.job id = some j) : db.Listed j :=
  List.mem_map_of_mem (job_spec h).1

theorem job_updateJobs {p : EmbeddingJob → Bool} {f : EmbeddingJob → EmbeddingJob}
    (hf : ∀ j, (f j).jobId = j.jobId) (id : ℕ) :
    (db.updateJobs p f).job id =
      (db.job id).map fun j => if p j then db.afterUpdate j (f j) else j := by
  unfold Database.job Database.updateJobs
  refine find?_updateWhere fun j _ _ => ?_
  have hid : (db.afterUpdate j (f j)).jobId = j.jobId :=
    (congrArg JobIdentity.jobId (identity_afterUpdate db j (f j))).trans (hf j)
  rw [hid]

theorem status_afterUpdate (db : Database) (old new : EmbeddingJob) :
    (db.afterUpdate old new).status = new.status := by
  unfold Database.afterUpdate
  split_ifs <;> rfl

theorem listed_iff_of_identities (h : db'.jobs.map EmbeddingJob.identity =
    db.jobs.map EmbeddingJob.identity) (j : EmbeddingJob) : db'.Listed j ↔ db.Listed j := by
  rw [Database.Listed, Database.Listed, h]

/-- An update of touched jobs that keeps their identities. -/
theorem beside_updateJobs {touched : ℕ → Prop} {p : EmbeddingJob → Bool}
    {f : EmbeddingJob → EmbeddingJob} (hp : ∀ j, p j = true → touched j.jobId)
    (hf : ∀ j, (f j).identity = j.identity) : Beside touched db (db.updateJobs p f) := by
  have hidentities : (db.updateJobs p f).jobs.map EmbeddingJob.identity =
      db.jobs.map EmbeddingJob.identity :=
    map_identity_updateWhere fun j _ _ => (identity_afterUpdate db j (f j)).trans (hf j)
  refine ⟨⟨sameCore_updateJobs db p f, rfl, rfl, fun id hid => ?_⟩, fun h => ?_,
    listed_iff_of_identities hidentities, fun _ _ h => h, fun _ _ _ _ => rfl⟩
  · rw [job_updateJobs fun j => congrArg JobIdentity.jobId (hf j)]
    cases hjob : db.job id with
    | none => rfl
    | some j =>
      have hno : p j ≠ true := by
        intro hyes
        have htouched := hp j hyes
        rw [(job_spec hjob).2] at htouched
        exact hid htouched
      rw [Option.map_some, if_neg hno]
  · exact h.of_eq rfl (map_identity_of_core (sameCore_updateJobs db p f).generations)
      hidentities rfl rfl

theorem beside_storePayload (touched : ℕ → Prop) (j : EmbeddingJob) (blob : List UInt8) :
    Beside touched db (db.storePayload j blob) := by
  unfold Database.storePayload
  split_ifs
  · exact Beside.refl touched db
  · have hidentities : (db.insertPayload j.modelSignature j.fingerprint blob).jobs.map
        EmbeddingJob.identity = db.jobs.map EmbeddingJob.identity :=
      map_identity_updateWhere fun _ _ _ => rfl
    refine ⟨⟨⟨rfl, rfl⟩, rfl, rfl, fun id _ => ?_⟩, fun h => ?_,
      listed_iff_of_identities hidentities, fun q p hp => ?_, fun _ _ _ _ => rfl⟩
    · have hfind := @find?_updateWhere _
        (fun k : EmbeddingJob =>
          k.modelSignature == j.modelSignature && k.fingerprint == j.fingerprint)
        (fun k => { k with cachedPayloadId := some db.nextPayload })
        (fun k => k.jobId == id) db.jobs fun _ _ _ => rfl
      show (List.find? _ (updateWhere _ _ db.jobs)).map EmbeddingJob.plain = _
      rw [hfind, Option.map_map]
      refine Option.map_congr fun k _ => ?_
      show EmbeddingJob.plain (if _ then _ else _) = _
      split_ifs <;> rfl
    · exact h.of_eq rfl rfl hidentities rfl rfl
    · show List.find? q (db.payloads ++ [_]) = some p
      rw [List.find?_append, hp, Option.some_or]

/-! ### Members -/

/-- A member without its identifiers. -/
def GenerationMember.content (m : GenerationMember) : GenerationMember :=
  { m with memberId := 0, payloadId := 0 }

theorem member_upsertMember_other {m : GenerationMember} {generationId : ℕ}
    {kind : SemanticEntityKind} {entityId : Text}
    (h : sameMember generationId kind entityId m = false) :
    (db.upsertMember m).member generationId kind entityId =
      db.member generationId kind entityId := by
  -- a row is looked up by one key at most
  have hkey : ∀ other : GenerationMember,
      sameMember m.generationId m.entityKind m.entityId other = true →
      sameMember generationId kind entityId other = false := by
    intro other hsame
    simp only [sameMember, Bool.and_eq_true, beq_iff_eq, decide_eq_true_eq] at hsame
    rw [← h]
    simp only [sameMember, hsame.1.1, hsame.1.2, hsame.2]
  unfold Database.upsertMember Database.member
  dsimp only
  split_ifs with hany
  · show List.find? _ (updateWhere _ _ db.members) = _
    rw [find?_updateWhere fun other _ hsame => ?_]
    · cases hfind : db.members.find? (sameMember generationId kind entityId) with
      | none => rfl
      | some other =>
        have hother := List.find?_some hfind
        have hno : ¬ sameMember m.generationId m.entityKind m.entityId other = true := by
          intro hsame
          rw [hkey other hsame] at hother
          cases hother
        rw [Option.map_some, if_neg hno]
    · rw [hkey other hsame]
      exact h
  · unfold Database.insertMember
    rw [if_neg hany]
    show List.find? _ (db.members ++ [_]) = _
    rw [List.find?_append]
    have hrow : sameMember generationId kind entityId
        { m with memberId := db.nextMember } = false := h
    rw [List.find?_cons_of_neg (by rw [hrow]; simp), List.find?_nil, Option.or_none]

/-- The columns that an upsert leaves in the row of a member. -/
def GenerationMember.over (m : GenerationMember) : Option GenerationMember → GenerationMember
  | none => m
  | some old => { m with modelSignature := old.modelSignature }

theorem member_upsertMember_self (m : GenerationMember) :
    ∃ m', (db.upsertMember m).member m.generationId m.entityKind m.entityId = some m' ∧
      m'.payloadId = m.payloadId ∧ m'.content =
        (m.over (db.member m.generationId m.entityKind m.entityId)).content := by
  have hself : sameMember m.generationId m.entityKind m.entityId m = true := by simp [sameMember]
  unfold Database.upsertMember Database.member
  dsimp only
  split_ifs with hany
  · show ∃ m', List.find? _ (updateWhere _ _ db.members) = some m' ∧ _
    rw [find?_updateWhere fun other _ hsame => ?_]
    · cases hfind : db.members.find? (sameMember m.generationId m.entityKind m.entityId) with
      | none =>
        rw [List.any_eq_true] at hany
        obtain ⟨other, hother, hsame⟩ := hany
        exact absurd hsame (List.find?_eq_none.mp hfind other hother)
      | some old =>
        rw [Option.map_some, if_pos (List.find?_some hfind)]
        exact ⟨_, rfl, rfl, rfl⟩
    · rw [hsame]
      exact hself
  · have hnone : db.members.find? (sameMember m.generationId m.entityKind m.entityId) = none := by
      rw [List.find?_eq_none]
      intro other hother hsame
      exact hany (List.any_eq_true.mpr ⟨other, hother, hsame⟩)
    unfold Database.insertMember
    rw [if_neg hany]
    show ∃ m', List.find? _ (db.members ++ [_]) = some m' ∧ _
    rw [List.find?_append, hnone, Option.none_or]
    have hrow : sameMember m.generationId m.entityKind m.entityId
        { m with memberId := db.nextMember } = true := hself
    rw [List.find?_cons_of_pos hrow]
    exact ⟨_, rfl, rfl, rfl⟩

theorem payloads_upsertMember (db : Database) (m : GenerationMember) :
    (db.upsertMember m).payloads = db.payloads := by
  unfold Database.upsertMember Database.insertMember
  dsimp only
  split_ifs <;> rfl

/-- A member of a touched job. -/
theorem beside_upsertMember {touched : ℕ → Prop} {j : EmbeddingJob} (hj : db.Listed j)
    (htouched : touched j.jobId) {m : GenerationMember}
    (hgeneration : m.generationId = j.generationId) (hkind : m.entityKind = j.entityKind)
    (hentity : m.entityId = j.entityId) :
    Beside touched db (db.upsertMember m) := by
  have hjobs := jobs_upsertMember db m
  have hfields : (db.upsertMember m).items = db.items ∧ (db.upsertMember m).chunks = db.chunks ∧
      (db.upsertMember m).nextJob = db.nextJob ∧
      (db.upsertMember m).nextGeneration = db.nextGeneration := by
    unfold Database.upsertMember Database.insertMember
    dsimp only
    split_ifs <;> exact ⟨rfl, rfl, rfl, rfl⟩
  have hcore := sameCore_upsertMember db m
  have hidentities : (db.upsertMember m).jobs.map EmbeddingJob.identity =
      db.jobs.map EmbeddingJob.identity := by rw [hjobs]
  refine ⟨⟨hcore, hfields.1, hfields.2.1, fun id _ => ?_⟩, fun h => ?_,
    listed_iff_of_identities hidentities, fun q p hp => ?_, fun h k hk hid => ?_⟩
  · rw [Database.job, Database.job, hjobs]
  · exact h.of_eq hcore.models (map_identity_of_core hcore.generations) hidentities
      hfields.2.2.1 hfields.2.2.2
  · rw [payloads_upsertMember]
    exact hp
  · refine member_upsertMember_other ?_
    -- two jobs have different members
    by_contra hsame
    rw [Bool.not_eq_false, sameMember] at hsame
    simp only [Bool.and_eq_true, beq_iff_eq, decide_eq_true_eq] at hsame
    obtain ⟨⟨hg, hk'⟩, he⟩ := hsame
    have hkey : k.identity.key = j.identity.key := by
      show (k.generationId, k.entityKind, k.entityId) = (j.generationId, j.entityKind, j.entityId)
      rw [← hg, ← hk', ← he, hgeneration, hkind, hentity]
    have hidentity := h.uniqueKeys.eq hk hj hkey
    have hids : k.jobId = j.jobId := congrArg JobIdentity.jobId hidentity
    rw [hids] at hid
    exact hid htouched

theorem beside_withResult {touched : ℕ → Prop} {j : EmbeddingJob} (hj : db.Listed j)
    (htouched : touched j.jobId) (blob : List UInt8) (nowNs : ℕ) (a : Attachment) :
    Beside touched db (db.withResult j blob nowNs a) := by
  have hstored := @beside_storePayload db touched j blob
  have hmember := beside_upsertMember ((hstored.listed j).mpr hj) htouched
    (m := j.memberRow (((db.storePayload j blob).cachedPayload j.modelSignature
      j.fingerprint).getD 0) nowNs a) rfl rfl rfl
  refine (hstored.trans hmember).trans (beside_updateJobs (fun k hk => ?_) fun _ => rfl)
  have hid : k.jobId = j.jobId := by simpa using hk
  rw [hid]
  exact htouched

theorem identity_mark (nowNs : ℕ) (e : CompletionError) (j : EmbeddingJob) :
    (e.mark nowNs j).identity = j.identity := by
  cases e <;> rfl

theorem beside_withFailure {touched : ℕ → Prop} {jobId : ℕ} (htouched : touched jobId) (nowNs : ℕ)
    (e : CompletionError) : Beside touched db (db.withFailure jobId workerId nowNs e) := by
  refine beside_updateJobs (fun j h => ?_) (identity_mark nowNs e)
  have hid : j.jobId = jobId := by simpa using (Bool.and_eq_true_iff.mp h).1
  rw [hid]
  exact htouched

/-! ## What is left of one result -/

/-- The vector that is cached for a job. -/
def Database.payloadFor (db : Database) (j : EmbeddingJob) : Option (List UInt8) :=
  (db.payloads.find? fun p =>
    p.modelSignature == j.modelSignature && p.fingerprint == j.fingerprint).map
      VectorPayload.vectorBlob

/-- The status of a job, the vector for it, and its member with whether it refers to the vector. -/
def Database.outcome (db : Database) (j : EmbeddingJob) :
    Option JobStatus × Option (List UInt8) × Option (GenerationMember × Bool) :=
  ((db.job j.jobId).map EmbeddingJob.status, db.payloadFor j,
    (db.member j.generationId j.entityKind j.entityId).map fun m =>
      (m.content, db.cachedPayload j.modelSignature j.fingerprint == some m.payloadId))

/-- The outcome of a good result. -/
def Database.outcomeWith (db : Database) (j : EmbeddingJob) (blob : List UInt8) (nowNs : ℕ)
    (a : Attachment) : Option JobStatus × Option (List UInt8) × Option (GenerationMember × Bool) :=
  (some .done, some ((db.payloadFor j).getD blob),
    some (((j.memberRow 0 nowNs a).over
      (db.member j.generationId j.entityKind j.entityId)).content, true))

/-- Results of other jobs leave the outcome, behind which a vector is cached. -/
theorem Beside.outcome {touched : ℕ → Prop} (h : Beside touched db db') (hrows : db.JobRows)
    {j : EmbeddingJob} (hj : db.Listed j) (hid : ¬ touched j.jobId)
    (hpayload : (db.payloadFor j).isSome = true) : db'.outcome j = db.outcome j := by
  rw [Database.payloadFor, Option.isSome_map] at hpayload
  obtain ⟨p, hp⟩ := Option.isSome_iff_exists.mp hpayload
  have hp' := h.payloads _ p hp
  have hstatus : (db'.job j.jobId).map EmbeddingJob.status =
      (db.job j.jobId).map EmbeddingJob.status := by
    have hjobs := congrArg (Option.map EmbeddingJob.status) (h.jobs j.jobId hid)
    rw [Option.map_map, Option.map_map] at hjobs
    exact hjobs
  unfold Database.outcome Database.payloadFor Database.cachedPayload
  rw [hstatus, h.members hrows j hj hid, hp, hp']

theorem payloads_withResult (db : Database) (j : EmbeddingJob) (blob : List UInt8) (nowNs : ℕ)
    (a : Attachment) :
    (db.withResult j blob nowNs a).payloads = (db.storePayload j blob).payloads :=
  payloads_upsertMember _ _

/-- The vector that a good result leaves for a job. -/
theorem payloadFor_withResult (db : Database) (j k : EmbeddingJob) (blob : List UInt8) (nowNs : ℕ)
    (a : Attachment) : (db.withResult j blob nowNs a).payloadFor k =
      if j.modelSignature = k.modelSignature ∧ j.fingerprint = k.fingerprint then
        some ((db.payloadFor k).getD blob) else db.payloadFor k := by
  rw [Database.payloadFor, payloads_withResult]
  unfold Database.storePayload
  by_cases hcached : (db.cachedPayload j.modelSignature j.fingerprint).isSome = true
  · rw [if_pos hcached]
    split_ifs with hsame
    · rw [Database.cachedPayload, Option.isSome_map, hsame.1, hsame.2] at hcached
      obtain ⟨p, hp⟩ := Option.isSome_iff_exists.mp hcached
      rw [Database.payloadFor, hp]
      rfl
    · rfl
  · rw [if_neg hcached]
    show Option.map _ (List.find? _ (db.payloads ++ [_])) = _
    rw [List.find?_append]
    split_ifs with hsame
    · rw [Database.payloadFor]
      cases hp : db.payloads.find? (fun p =>
          p.modelSignature == k.modelSignature && p.fingerprint == k.fingerprint) with
      | some p => rfl
      | none => simp [hsame.1, hsame.2]
    · rw [Database.payloadFor]
      have hno : ([⟨db.nextPayload, j.modelSignature, j.fingerprint, blob⟩] :
          List VectorPayload).find? (fun p =>
            p.modelSignature == k.modelSignature && p.fingerprint == k.fingerprint) = none := by
        rw [List.find?_cons_of_neg (by simpa using fun h => fun h' => hsame ⟨h, h'⟩),
          List.find?_nil]
      rw [hno, Option.or_none]

/-- A completed job is done. -/
theorem status_withResult {j : EmbeddingJob} (hj : db.job j.jobId = some j) (blob : List UInt8)
    (nowNs : ℕ) (a : Attachment) :
    ((db.withResult j blob nowNs a).job j.jobId).map EmbeddingJob.status = some .done := by
  unfold Database.withResult Database.finishJob
  dsimp only
  generalize hm : j.memberRow _ nowNs a = m
  -- the writes of the payload and of the member leave the row there
  have hjob : (((db.storePayload j blob).upsertMember m).job j.jobId).map EmbeddingJob.plain =
      (db.job j.jobId).map EmbeddingJob.plain := by
    rw [Database.job, jobs_upsertMember]
    exact (beside_storePayload (fun _ => False) j blob).jobs j.jobId not_false
  rw [hj, Option.map_some, Option.map_eq_some_iff] at hjob
  obtain ⟨k, hk, -⟩ := hjob
  rw [job_updateJobs (f := EmbeddingJob.toDone) fun _ => rfl, hk, Option.map_some,
    Option.map_some, if_pos (by simp [(job_spec hk).2]), status_afterUpdate]
  rfl

/-- A job whose failure was recorded is not leased. -/
theorem status_withFailure {jobId nowNs : ℕ} (h : HeldAt db jobId workerId nowNs)
    (e : CompletionError) : ∃ j, (db.withFailure jobId workerId nowNs e).job jobId = some j ∧
      j.status ≠ .leased := by
  obtain ⟨j, hj, hheld⟩ := h
  refine ⟨db.afterUpdate j (e.mark nowNs j), ?_, ?_⟩
  · rw [Database.withFailure,
      job_updateJobs fun j => congrArg JobIdentity.jobId (identity_mark nowNs e j), hj,
      Option.map_some, if_pos (by simp [(job_spec hj).2, hheld])]
  · rw [status_afterUpdate]
    cases e <;> simp [CompletionError.mark, EmbeddingJob.toStale, EmbeddingJob.toFailed]

theorem member_storePayload (db : Database) (j : EmbeddingJob) (blob : List UInt8) (id : ℕ)
    (kind : SemanticEntityKind) (entityId : Text) :
    (db.storePayload j blob).member id kind entityId = db.member id kind entityId := by
  unfold Database.storePayload
  split_ifs <;> rfl

theorem content_memberRow (j : EmbeddingJob) (payloadId nowNs : ℕ) (a : Attachment)
    (old : Option GenerationMember) : ((j.memberRow payloadId nowNs a).over old).content =
      ((j.memberRow 0 nowNs a).over old).content := by
  cases old <;> rfl

/-- The outcome of a good result, as soon as it is completed. -/
theorem outcome_withResult {j : EmbeddingJob} (hj : db.job j.jobId = some j) (blob : List UInt8)
    (nowNs : ℕ) (a : Attachment) :
    (db.withResult j blob nowNs a).outcome j = db.outcomeWith j blob nowNs a := by
  obtain ⟨payloadId, hpayloadId⟩ := exists_cachedPayload db j blob
  have hcached : (db.withResult j blob nowNs a).cachedPayload j.modelSignature j.fingerprint =
      some payloadId := by
    rw [Database.cachedPayload, payloads_withResult]
    exact hpayloadId
  obtain ⟨m, hm, hid, hcontent⟩ := @member_upsertMember_self (db.storePayload j blob)
    (j.memberRow payloadId nowNs a)
  have hmember : (db.withResult j blob nowNs a).member j.generationId j.entityKind j.entityId =
      some m := by
    unfold Database.withResult
    dsimp only
    rw [hpayloadId]
    exact hm
  unfold Database.outcome
  rw [status_withResult hj, payloadFor_withResult, if_pos ⟨rfl, rfl⟩, hmember, hcached,
    Option.map_some, hid, hcontent, content_memberRow, member_storePayload]
  have hflag : (some payloadId == some (j.memberRow payloadId nowNs a).payloadId) = true := by
    simp [EmbeddingJob.memberRow]
  rw [hflag]
  rfl

/-! ## What another result needs -/

section Transfer

variable {touched : ℕ → Prop} {jobId : ℕ} {r : BatchResult}

theorem SameInputs.job (h : SameInputs touched db db') {j : EmbeddingJob}
    (hid : ¬ touched jobId) (hj : db.job jobId = some j) :
    ∃ j', db'.job jobId = some j' ∧ j'.plain = j.plain := by
  have hjobs := h.jobs jobId hid
  rw [hj, Option.map_some, Option.map_eq_some_iff] at hjobs
  exact hjobs

theorem fields_of_plain {j j' : EmbeddingJob} (h : j'.plain = j.plain) :
    j'.generationId = j.generationId ∧ j'.modelSignature = j.modelSignature ∧
      j'.fingerprint = j.fingerprint :=
  ⟨(congrArg EmbeddingJob.generationId h :), (congrArg EmbeddingJob.modelSignature h :),
    (congrArg EmbeddingJob.fingerprint h :)⟩

theorem heldBy_of_plain {j j' : EmbeddingJob} (h : j'.plain = j.plain) (nowNs : ℕ) :
    j'.heldBy workerId nowNs = j.heldBy workerId nowNs := by
  rw [← heldBy_plain, h, heldBy_plain]

theorem SameInputs.heldAt (h : SameInputs touched db db') {nowNs : ℕ} (hid : ¬ touched jobId)
    (hheld : HeldAt db jobId workerId nowNs) : HeldAt db' jobId workerId nowNs := by
  obtain ⟨j, hj, hheld⟩ := hheld
  obtain ⟨j', hj', hplain⟩ := h.job hid hj
  exact ⟨j', hj', (heldBy_of_plain hplain nowNs).trans hheld⟩

theorem SameInputs.jobIsCurrent (h : SameInputs touched db db') {j j' : EmbeddingJob}
    (hplain : j'.plain = j.plain) : db'.jobIsCurrent j' = db.jobIsCurrent j := by
  have hsame : db'.jobIsCurrent j'.plain = db.jobIsCurrent j.plain := by
    rw [hplain]
    unfold Database.jobIsCurrent Database.textSourceMatches Database.imageSourceMatches
    rw [h.items, h.chunks]
  exact hsame

theorem SameInputs.attachable (h : SameInputs touched db db') {j j' : EmbeddingJob}
    (hplain : j'.plain = j.plain) (hj : db.Attachable j) : db'.Attachable j' := by
  obtain ⟨g, hg, hbuilding, hsignature, hclone⟩ := hj
  obtain ⟨g', hg', hcore⟩ := h.core.generation hg
  obtain ⟨hgeneration, hmodel, -⟩ := fields_of_plain hplain
  refine ⟨g', hgeneration ▸ hg', ?_, ?_, ?_⟩
  · exact (congrArg EmbeddingGeneration.status hcore).trans hbuilding
  · rw [hmodel]
    exact (congrArg EmbeddingGeneration.modelSignature hcore).trans hsignature
  · exact (congrArg EmbeddingGeneration.baseCloneComplete hcore).trans hclone

/-- A result of a job that is not touched stays good. -/
theorem SameInputs.good (h : SameInputs touched db db') {j : EmbeddingJob} {blob : List UInt8}
    {a : Attachment} (hid : ¬ touched jobId) (hgood : Good db jobId workerId r j blob a) :
    ∃ j', Good db' jobId workerId r j' blob a ∧ j'.plain = j.plain := by
  obtain ⟨j', hj', hplain⟩ := h.job hid hgood.job
  have hmodel := (fields_of_plain hplain).2.1
  obtain ⟨m, hm, hblob⟩ := hgood.vector
  refine ⟨j', ⟨hgood.worker, hgood.attachment, hj', (heldBy_of_plain hplain _).trans hgood.held,
    (h.jobIsCurrent hplain).trans hgood.current, ⟨m, ?_, hblob⟩,
    h.attachable hplain hgood.attachable⟩, hplain⟩
  rw [h.core.loadModel, hmodel]
  exact hm

end Transfer

/-! ## The loop -/

section Loop

variable {leases : List EmbeddingJobLease} {lease : EmbeddingJobLease} {r : BatchResult}

/-- The result is good, or its failure can be recorded. -/
def Accepts (workerId : Text) (db : Database) (r : BatchResult) (lease : EmbeddingJobLease) :
    Prop :=
  (∃ j blob a, Good db lease.jobId workerId r j blob a) ∨
    HeldAt db lease.jobId workerId r.failedNs

/-- No result leaves the loop: every one is for a lease, no two are for one job, and what goes
wrong can be recorded. -/
def Settles (leases : List EmbeddingJobLease) (workerId : Text) (db : Database)
    (results : List BatchResult) : Prop :=
  (∀ r ∈ results, ∃ lease, leases[r.index]? = some lease ∧ Accepts workerId db r lease) ∧
    (results.map fun r => leases[r.index]?.map EmbeddingJobLease.jobId).Nodup

theorem Accepts.leased (h : Accepts workerId db r lease) :
    ∃ j, db.job lease.jobId = some j ∧ j.status = .leased := by
  have hheld : ∃ j nowNs, db.job lease.jobId = some j ∧ j.heldBy workerId nowNs = true := by
    rcases h with ⟨j, _, _, hgood⟩ | ⟨j, hj, hheld⟩
    · exact ⟨j, _, hgood.job, hgood.held⟩
    · exact ⟨j, _, hj, hheld⟩
  obtain ⟨j, nowNs, hj, hheld⟩ := hheld
  refine ⟨j, hj, ?_⟩
  simp only [EmbeddingJob.heldBy, Bool.and_eq_true, decide_eq_true_eq] at hheld
  exact hheld.1.1

theorem Accepts.transfer {touched : ℕ → Prop} (h : Accepts workerId db r lease)
    (hsame : SameInputs touched db db') (hid : ¬ touched lease.jobId) :
    Accepts workerId db' r lease := by
  rcases h with ⟨j, blob, a, hgood⟩ | hheld
  · obtain ⟨j', hgood', -⟩ := hsame.good hid hgood
    exact .inl ⟨j', blob, a, hgood'⟩
  · exact .inr (hsame.heldAt hid hheld)

/-- What one turn does. -/
theorem completeResult_cases (hrows : db.JobRows) (hworker : strip workerId ≠ [])
    (h : Database.completeResult leases workerId db r = some db') :
    ∃ lease, leases[r.index]? = some lease ∧
      ((∃ j blob a, Good db lease.jobId workerId r j blob a ∧
          db' = db.withResult j blob r.nowNs a) ∨
        ((¬ ∃ j blob a, Good db lease.jobId workerId r j blob a) ∧
          HeldAt db lease.jobId workerId r.failedNs ∧
          ∃ e, db' = db.withFailure lease.jobId workerId r.failedNs e)) := by
  rw [Database.completeResult, bind_eq_some] at h
  obtain ⟨lease, hlease, h⟩ := h
  refine ⟨lease, hlease, ?_⟩
  cases hrun : db.completeOnConnection lease.jobId workerId r with
  | ok completed =>
    rw [hrun] at h
    obtain rfl : completed = db' := Option.some.inj h
    exact .inl ((completeOnConnection_eq_ok hrows hworker).mp hrun)
  | error e =>
    rw [hrun] at h
    have hrecord : db.recordFailure lease.jobId workerId r.failedNs e = some db' := by
      cases e <;> exact h
    obtain ⟨hheld, hdb'⟩ := (recordFailure_eq_some hworker).mp hrecord
    refine .inr ⟨?_, hheld, e, hdb'⟩
    rintro ⟨j, blob, a, hgood⟩
    rw [(completeOnConnection_eq_ok hrows hworker).mpr ⟨j, blob, a, hgood, rfl⟩] at hrun
    cases hrun

/-- A turn that is accepted does not leave the loop. -/
theorem exists_completeResult (hrows : db.JobRows) (hworker : strip workerId ≠ [])
    (hlease : leases[r.index]? = some lease) (h : Accepts workerId db r lease) :
    ∃ db', Database.completeResult leases workerId db r = some db' := by
  simp only [Database.completeResult, bind_eq_some, hlease, Option.some.injEq, exists_eq_left']
  cases hrun : db.completeOnConnection lease.jobId workerId r with
  | ok completed => exact ⟨completed, rfl⟩
  | error e =>
    have hheld : HeldAt db lease.jobId workerId r.failedNs := by
      refine h.resolve_left ?_
      rintro ⟨j, blob, a, hgood⟩
      rw [(completeOnConnection_eq_ok hrows hworker).mpr ⟨j, blob, a, hgood, rfl⟩] at hrun
      cases hrun
    have hrecord := (recordFailure_eq_some hworker (e := e)).mpr ⟨hheld, rfl⟩
    cases e with
    | stale => exact ⟨_, hrecord⟩
    | raised => exact ⟨_, hrecord⟩

/-- A turn writes for its own job, which is not leased any more. -/
theorem completeResult_beside (hrows : db.JobRows) (hworker : strip workerId ≠ [])
    (hlease : leases[r.index]? = some lease)
    (h : Database.completeResult leases workerId db r = some db') :
    Beside (· = lease.jobId) db db' ∧
      ∀ j, db'.job lease.jobId = some j → j.status ≠ .leased := by
  obtain ⟨lease', hlease', hcase⟩ := completeResult_cases hrows hworker h
  obtain rfl : lease = lease' := Option.some.inj (hlease.symm.trans hlease')
  rcases hcase with ⟨j, blob, a, hgood, rfl⟩ | ⟨-, hheld, e, rfl⟩
  · have hid := (job_spec hgood.job).2
    refine ⟨beside_withResult (listed_of_job hgood.job) hid blob r.nowNs a, fun k hk => ?_⟩
    have hstatus := status_withResult (hid.symm ▸ hgood.job) blob r.nowNs a
    rw [hid, hk, Option.map_some] at hstatus
    rw [Option.some.inj hstatus]
    decide
  · refine ⟨@beside_withFailure db workerId (· = lease.jobId) lease.jobId rfl r.failedNs e,
      fun k hk => ?_⟩
    obtain ⟨k', hk', hstatus⟩ := status_withFailure hheld e
    rw [hk] at hk'
    rw [Option.some.inj hk']
    exact hstatus

theorem completeResults_cons (r : BatchResult) (results : List BatchResult) (db : Database) :
    Database.completeResults leases workerId (r :: results) db =
      (Database.completeResult leases workerId db r).bind
        (Database.completeResults leases workerId results) :=
  List.foldlM_cons

/-- Two results of a list without repetition are for different jobs. -/
theorem jobId_ne_of_nodup {rest : List BatchResult} {r' : BatchResult}
    {lease' : EmbeddingJobLease}
    (h : ((r :: rest).map fun r => leases[r.index]?.map EmbeddingJobLease.jobId).Nodup)
    (hlease : leases[r.index]? = some lease) (hr' : r' ∈ rest)
    (hlease' : leases[r'.index]? = some lease') : lease'.jobId ≠ lease.jobId := by
  intro hid
  rw [List.map_cons, List.nodup_cons] at h
  refine h.1 (List.mem_map.mpr ⟨r', hr', ?_⟩)
  rw [hlease, hlease', Option.map_some, Option.map_some, hid]

/-- The loop ends exactly where no result leaves it. -/
theorem exists_completeResults_iff (hworker : strip workerId ≠ []) (results : List BatchResult) :
    ∀ db : Database, db.JobRows →
      ((∃ db', Database.completeResults leases workerId results db = some db') ↔
        Settles leases workerId db results) := by
  induction results with
  | nil =>
    intro db _
    exact ⟨fun _ => ⟨fun r hr => absurd hr List.not_mem_nil, List.nodup_nil⟩, fun _ => ⟨db, rfl⟩⟩
  | cons r rest ih =>
    intro db hrows
    constructor
    · rintro ⟨db', h⟩
      rw [completeResults_cons, Option.bind_eq_some_iff] at h
      obtain ⟨db₁, hturn, hrest⟩ := h
      obtain ⟨lease, hlease, hcase⟩ := completeResult_cases hrows hworker hturn
      obtain ⟨hbeside, hstatus⟩ := completeResult_beside hrows hworker hlease hturn
      obtain ⟨hall, hnodup⟩ := (ih db₁ (hbeside.rows hrows)).mp ⟨db', hrest⟩
      -- the rest finds its jobs leased, and so none of them is the job of this turn
      have hother : ∀ r' ∈ rest, ∃ lease', leases[r'.index]? = some lease' ∧
          Accepts workerId db₁ r' lease' ∧ lease'.jobId ≠ lease.jobId := by
        intro r' hr'
        obtain ⟨lease', hlease', haccepts⟩ := hall r' hr'
        refine ⟨lease', hlease', haccepts, fun hid => ?_⟩
        obtain ⟨j, hj, hleased⟩ := haccepts.leased
        rw [hid] at hj
        exact hstatus j hj hleased
      refine ⟨List.forall_mem_cons.mpr ⟨⟨lease, hlease, ?_⟩, fun r' hr' => ?_⟩,
        List.nodup_cons.mpr ⟨fun hmem => ?_, hnodup⟩⟩
      · rcases hcase with ⟨j, blob, a, hgood, -⟩ | ⟨-, hheld, -⟩
        · exact .inl ⟨j, blob, a, hgood⟩
        · exact .inr hheld
      · obtain ⟨lease', hlease', haccepts, hne⟩ := hother r' hr'
        exact ⟨lease', hlease', haccepts.transfer hbeside.toSameInputs.symm hne⟩
      · obtain ⟨r', hr', hsame⟩ := List.mem_map.mp hmem
        obtain ⟨lease', hlease', -, hne⟩ := hother r' hr'
        dsimp only at hsame
        rw [hlease, hlease', Option.map_some, Option.map_some] at hsame
        exact hne (Option.some.inj hsame)
    · rintro ⟨hall, hnodup⟩
      obtain ⟨lease, hlease, haccepts⟩ := hall r List.mem_cons_self
      obtain ⟨db₁, hturn⟩ := exists_completeResult hrows hworker hlease haccepts
      obtain ⟨hbeside, -⟩ := completeResult_beside hrows hworker hlease hturn
      have hsettles : Settles leases workerId db₁ rest := by
        refine ⟨fun r' hr' => ?_, (List.nodup_cons.mp hnodup).2⟩
        obtain ⟨lease', hlease', haccepts'⟩ := hall r' (List.mem_cons_of_mem _ hr')
        exact ⟨lease', hlease', haccepts'.transfer hbeside.toSameInputs
          (jobId_ne_of_nodup hnodup hlease hr' hlease')⟩
      obtain ⟨db', hrest⟩ := (ih db₁ (hbeside.rows hrows)).mpr hsettles
      exact ⟨db', by rw [completeResults_cons, hturn]; exact hrest⟩

/-- The loop writes for the jobs of its results. -/
theorem beside_completeResults (hworker : strip workerId ≠ []) (results : List BatchResult) :
    ∀ db : Database, db.JobRows → Database.completeResults leases workerId results db = some db' →
      Beside (fun id => ∃ r ∈ results, ∃ lease, leases[r.index]? = some lease ∧ lease.jobId = id)
        db db' := by
  induction results with
  | nil =>
    intro db _ h
    obtain rfl : db = db' := Option.some.inj h
    exact Beside.refl _ db
  | cons r rest ih =>
    intro db hrows h
    rw [completeResults_cons, Option.bind_eq_some_iff] at h
    obtain ⟨db₁, hturn, hrest⟩ := h
    obtain ⟨lease, hlease, -⟩ := completeResult_cases hrows hworker hturn
    obtain ⟨hbeside, -⟩ := completeResult_beside hrows hworker hlease hturn
    refine (hbeside.mono fun id hid => ?_).trans ((ih db₁ (hbeside.rows hrows) hrest).mono
      fun id hid => ?_)
    · exact ⟨r, List.mem_cons_self, lease, hlease, hid.symm⟩
    · obtain ⟨r', hr', hid⟩ := hid
      exact ⟨r', List.mem_cons_of_mem _ hr', hid⟩

/-- Good results for one model and one content have the same vector, unless one is cached. -/
def Agree (leases : List EmbeddingJobLease) (workerId : Text) (db : Database)
    (results : List BatchResult) : Prop :=
  ∀ r ∈ results, ∀ r' ∈ results, ∀ lease lease' j j' blob blob' a a',
    leases[r.index]? = some lease → leases[r'.index]? = some lease' →
    Good db lease.jobId workerId r j blob a → Good db lease'.jobId workerId r' j' blob' a' →
    j'.modelSignature = j.modelSignature ∧ j'.fingerprint = j.fingerprint →
    db.payloadFor j = none → blob = blob'

theorem Good.unique {jobId : ℕ} {j j' : EmbeddingJob} {blob blob' : List UInt8} {a a' : Attachment}
    (h : Good db jobId workerId r j blob a) (h' : Good db jobId workerId r j' blob' a') :
    j = j' ∧ blob = blob' ∧ a = a' := by
  obtain rfl : j = j' := Option.some.inj (h.job.symm.trans h'.job)
  obtain ⟨m, hm, hblob⟩ := h.vector
  obtain ⟨m', hm', hblob'⟩ := h'.vector
  obtain rfl : m = m' := Option.some.inj (hm.symm.trans hm')
  exact ⟨rfl, Option.some.inj (hblob.symm.trans hblob'),
    Option.some.inj (h.attachment.symm.trans h'.attachment)⟩

theorem Beside.payloadFor_none {touched : ℕ → Prop} (h : Beside touched db db') {j : EmbeddingJob}
    (hnone : db'.payloadFor j = none) : db.payloadFor j = none := by
  rw [Database.payloadFor, Option.map_eq_none_iff] at hnone ⊢
  cases hp : db.payloads.find? (fun p =>
      p.modelSignature == j.modelSignature && p.fingerprint == j.fingerprint) with
  | none => rfl
  | some p =>
    rw [h.payloads _ p hp] at hnone
    cases hnone

/-- What agrees before a turn agrees behind it. -/
theorem Agree.rest {rest : List BatchResult} (h : Agree leases workerId db (r :: rest))
    {touched : ℕ → Prop} (hbeside : Beside touched db db')
    (hids : ∀ r' ∈ rest, ∀ lease', leases[r'.index]? = some lease' → ¬ touched lease'.jobId) :
    Agree leases workerId db' rest := by
  intro r₁ hr₁ r₂ hr₂ lease₁ lease₂ j₁ j₂ blob₁ blob₂ a₁ a₂ hlease₁ hlease₂ hgood₁ hgood₂ hkey hnone
  have hsame := hbeside.toSameInputs.symm
  obtain ⟨k₁, hk₁, hplain₁⟩ := hsame.good (hids r₁ hr₁ lease₁ hlease₁) hgood₁
  obtain ⟨k₂, hk₂, hplain₂⟩ := hsame.good (hids r₂ hr₂ lease₂ hlease₂) hgood₂
  obtain ⟨-, hmodel₁, hprint₁⟩ := fields_of_plain hplain₁
  obtain ⟨-, hmodel₂, hprint₂⟩ := fields_of_plain hplain₂
  refine h r₁ (List.mem_cons_of_mem _ hr₁) r₂ (List.mem_cons_of_mem _ hr₂) lease₁ lease₂ k₁ k₂ blob₁
    blob₂ a₁ a₂ hlease₁ hlease₂ hk₁ hk₂ ⟨?_, ?_⟩ ?_
  · rw [hmodel₁, hmodel₂]
    exact hkey.1
  · rw [hprint₁, hprint₂]
    exact hkey.2
  · have hbefore := hbeside.payloadFor_none hnone
    rw [Database.payloadFor] at hbefore ⊢
    rw [hmodel₁, hprint₁]
    exact hbefore

/-- **Every good result is completed as it is alone.** -/
theorem outcome_completeResults (hworker : strip workerId ≠ []) (results : List BatchResult) :
    ∀ db : Database, db.JobRows → Database.completeResults leases workerId results db = some db' →
      Agree leases workerId db results →
      ∀ r ∈ results, ∀ lease j blob a, leases[r.index]? = some lease →
        Good db lease.jobId workerId r j blob a →
        db'.outcome j = db.outcomeWith j blob r.nowNs a := by
  induction results with
  | nil => exact fun _ _ _ _ r hr => absurd hr List.not_mem_nil
  | cons r₀ rest ih =>
    intro db hrows h hagree r hr lease j blob a hlease hgood
    have hnodup := ((exists_completeResults_iff hworker (r₀ :: rest) db hrows).mp ⟨db', h⟩).2
    rw [completeResults_cons, Option.bind_eq_some_iff] at h
    obtain ⟨db₁, hturn, hrest⟩ := h
    obtain ⟨lease₀, hlease₀, hcase⟩ := completeResult_cases hrows hworker hturn
    obtain ⟨hbeside, -⟩ := completeResult_beside hrows hworker hlease₀ hturn
    have hrows₁ := hbeside.rows hrows
    have hid := (job_spec hgood.job).2
    have hlisted := listed_of_job hgood.job
    rcases List.mem_cons.mp hr with rfl | hr
    · -- the result of this turn: the rest is for other jobs
      obtain rfl : lease₀ = lease := Option.some.inj (hlease₀.symm.trans hlease)
      rcases hcase with ⟨j', blob', a', hgood', rfl⟩ | ⟨hno, -⟩
      · obtain ⟨rfl, rfl, rfl⟩ := hgood.unique hgood'
        have hframe := beside_completeResults hworker rest _ hrows₁ hrest
        rw [hframe.outcome hrows₁ ((hbeside.listed j).mpr hlisted) ?_ ?_]
        · exact outcome_withResult (hid.symm ▸ hgood.job) blob r.nowNs a
        · rintro ⟨r', hr', lease', hlease', hsame⟩
          rw [hid] at hsame
          exact jobId_ne_of_nodup hnodup hlease₀ hr' hlease' hsame
        · rw [payloadFor_withResult, if_pos ⟨rfl, rfl⟩]
          rfl
      · exact absurd ⟨j, blob, a, hgood⟩ hno
    · -- a later result, which this turn leaves good
      have hne := jobId_ne_of_nodup hnodup hlease₀ hr hlease
      obtain ⟨j', hgood', hplain⟩ := hbeside.toSameInputs.good hne hgood
      have hagree₁ := hagree.rest hbeside fun r' hr' lease' hlease' =>
        jobId_ne_of_nodup hnodup hlease₀ hr' hlease'
      have houtcome := ih db₁ hrows₁ hrest hagree₁ r hr lease j' blob a hlease hgood'
      have hvector : (db₁.payloadFor j).getD blob = (db.payloadFor j).getD blob := by
        rcases hcase with ⟨j₀, blob₀, a₀, hgood₀, rfl⟩ | ⟨-, -, e, rfl⟩
        · rw [payloadFor_withResult]
          split_ifs with hkey
          · cases hcached : db.payloadFor j with
            | some vector => rfl
            | none =>
              exact (hagree r (List.mem_cons_of_mem _ hr) r₀ List.mem_cons_self lease lease₀ j j₀
                blob blob₀ a a₀ hlease hlease₀ hgood hgood₀ hkey hcached).symm
          · rfl
        · rfl
      have hmember := hbeside.members hrows j hlisted (by rw [hid]; exact hne)
      calc db'.outcome j = db'.outcome j'.plain := by rw [hplain]; rfl
        _ = db₁.outcomeWith j'.plain blob r.nowNs a := houtcome
        _ = db₁.outcomeWith j blob r.nowNs a := by rw [hplain]; rfl
        _ = db.outcomeWith j blob r.nowNs a := by
          unfold Database.outcomeWith
          rw [hvector, hmember]

end Loop

/-! ## The batch and the single calls -/

/-- The batch leaves for every result that is accepted alone what it leaves alone. -/
def BatchEqualsSingle (leases : List EmbeddingJobLease) (workerId : Text)
    (results : List BatchResult) (db : Database) : Prop :=
  ∀ r ∈ results, ∀ single, r.alone leases workerId db = some single →
    ∃ lease j, leases[r.index]? = some lease ∧ db.job lease.jobId = some j ∧
      (db.completeEmbeddingJobsBatch leases workerId results).outcome j = single.outcome j

/-- **When a batch equals its single completions**: no result is good, or every result is for a
lease, no two are for one job, every failure finds its lease live when it is recorded, and good
results for one content agree on its vector. -/
theorem batch_eq_single_iff (db : Database) (leases : List EmbeddingJobLease) (workerId : Text)
    (results : List BatchResult) (hrows : db.JobRows) :
    BatchEqualsSingle leases workerId results db ↔
      (∀ r ∈ results, ∀ lease j blob a, leases[r.index]? = some lease →
        ¬ Good db lease.jobId workerId r j blob a) ∨
      (Settles leases workerId db results ∧ Agree leases workerId db results) := by
  have halone : ∀ {r single}, r.alone leases workerId db = some single →
      ∃ lease j blob a, leases[r.index]? = some lease ∧
        Good db lease.jobId workerId r j blob a ∧ single = db.withResult j blob r.nowNs a := by
    intro r single h
    cases hlease : leases[r.index]? with
    | none => simp [BatchResult.alone, hlease] at h
    | some lease =>
      obtain ⟨j, blob, a, hgood, hsingle⟩ := (alone_eq_some hlease).mp h
      exact ⟨lease, j, blob, a, rfl, hgood, hsingle⟩
  constructor
  · intro h
    by_cases hnone : ∀ r ∈ results, ∀ lease j blob a, leases[r.index]? = some lease →
        ¬ Good db lease.jobId workerId r j blob a
    · exact .inl hnone
    right
    -- what the batch leaves of a good result
    have houtcome : ∀ r ∈ results, ∀ lease j blob a, leases[r.index]? = some lease →
        Good db lease.jobId workerId r j blob a →
        (db.completeEmbeddingJobsBatch leases workerId results).outcome j =
          db.outcomeWith j blob r.nowNs a := by
      intro r hr lease j blob a hlease hgood
      obtain ⟨lease', j', hlease', hj', heq⟩ :=
        h r hr _ ((alone_eq_some hlease).mpr ⟨j, blob, a, hgood, rfl⟩)
      obtain rfl : lease = lease' := Option.some.inj (hlease.symm.trans hlease')
      obtain rfl : j = j' := Option.some.inj (hgood.job.symm.trans hj')
      rw [heq]
      exact outcome_withResult ((job_spec hgood.job).2.symm ▸ hgood.job) blob r.nowNs a
    push Not at hnone
    obtain ⟨r, hr, lease, j, blob, a, hlease, hgood⟩ := hnone
    refine ⟨(exists_completeResults_iff hgood.worker results db hrows).mp ?_, ?_⟩
    · cases hrun : Database.completeResults leases workerId results db with
      | some db' => exact ⟨db', rfl⟩
      | none =>
        -- a rollback leaves the job leased
        have hsame := houtcome r hr lease j blob a hlease hgood
        rw [Database.completeEmbeddingJobsBatch, if_neg hgood.worker, hrun,
          Option.getD_none] at hsame
        have hstatus := congrArg Prod.fst hsame
        have hid := (job_spec hgood.job).2
        obtain ⟨j', hj', hleased⟩ := Accepts.leased (.inl ⟨j, blob, a, hgood⟩)
        obtain rfl : j = j' := Option.some.inj (hgood.job.symm.trans hj')
        simp only [Database.outcome, Database.outcomeWith, hid, hj', Option.map_some,
          hleased] at hstatus
        cases hstatus
    · intro r₁ hr₁ r₂ hr₂ lease₁ lease₂ j₁ j₂ blob₁ blob₂ a₁ a₂ hlease₁ hlease₂ hgood₁ hgood₂
        hkey hcached
      have h₁ := congrArg (fun o => o.2.1) (houtcome r₁ hr₁ lease₁ j₁ blob₁ a₁ hlease₁ hgood₁)
      have h₂ := congrArg (fun o => o.2.1) (houtcome r₂ hr₂ lease₂ j₂ blob₂ a₂ hlease₂ hgood₂)
      simp only [Database.outcome, Database.outcomeWith, Database.payloadFor, hkey.1,
        hkey.2] at h₁ h₂ hcached
      rw [hcached] at h₁ h₂
      exact Option.some.inj (h₁.symm.trans h₂)
  · rintro (hnone | ⟨hsettles, hagree⟩)
    · intro r hr single hsingle
      obtain ⟨lease, j, blob, a, hlease, hgood, -⟩ := halone hsingle
      exact absurd hgood (hnone r hr lease j blob a hlease)
    · intro r hr single hsingle
      obtain ⟨lease, j, blob, a, hlease, hgood, rfl⟩ := halone hsingle
      obtain ⟨db', hrun⟩ := (exists_completeResults_iff hgood.worker results db hrows).mpr hsettles
      refine ⟨lease, j, hlease, hgood.job, ?_⟩
      rw [Database.completeEmbeddingJobsBatch, if_neg hgood.worker, hrun, Option.getD_some,
        outcome_withResult ((job_spec hgood.job).2.symm ▸ hgood.job) blob r.nowNs a]
      exact outcome_completeResults hgood.worker results db hrows hrun hagree r hr lease j blob a
        hlease hgood

/-! ## Two leases -/

/-- A job of an image, leased until time ten. -/
def leasedJob (id : ℕ) (entityId owner : Text) : EmbeddingJob where
  jobId := id
  generationId := 1
  modelSignature := ['m']
  entityKind := .imageItem
  entityId := entityId
  itemId := entityId
  fingerprint := ⟨'a' :: entityId, 1, ['b']⟩
  status := .leased
  attempts := 1
  maxAttempts := 3
  availableNs := 0
  leaseOwner := some owner
  leaseUntilNs := some 10
  sourceDirty := false
  cachedPayloadId := none

/-- The lease that was handed out for a job. -/
def EmbeddingJob.lease (j : EmbeddingJob) : EmbeddingJobLease :=
  ⟨j.jobId, j.generationId, j.modelSignature, j.entityKind, j.entityId, j.itemId, j.fingerprint,
    j.attempts, 10⟩

/-- An image as it was when its job was leased. -/
def leasedItem (itemId : Text) : SemanticItem :=
  ⟨itemId, ['k'], itemId, ['1'], some itemId, ⟨'a' :: itemId, 1, ['b']⟩, true⟩

/-- Three jobs that were leased to one worker; the second one is with another worker now. -/
def threeLeases : Database :=
  { Database.empty with
    models := [⟨['m'], .image, [.passage], true⟩]
    items := [leasedItem ['i'], leasedItem ['j'], leasedItem ['h']]
    generations := [⟨1, ['m'], ['p'], .building, [], {}, none, true, fun _ => 0⟩]
    jobs := [leasedJob 1 ['i'] ['w'], leasedJob 2 ['j'] ['v'], leasedJob 3 ['h'] ['w']]
    nextGeneration := 2
    nextJob := 4 }

/-- The result of one lease. -/
def resultOf (index : ℕ) : BatchResult := ⟨index, fun _ => some [1], some ⟨1, none, []⟩, 5, 6⟩

/-- The result of one lease, with a vector that is refused. -/
def refusedResult (index : ℕ) : BatchResult := { resultOf index with encodeVector := fun _ => none }

theorem threeLeases_jobRows : threeLeases.JobRows := by
  constructor <;> simp [threeLeases, leasedJob, EmbeddingJob.identity, Rows.Unique,
    EmbeddingGeneration.identity, EmbeddingModality.entityKind, JobIdentity.key]

theorem good_first : Good threeLeases 1 ['w'] (resultOf 0) (leasedJob 1 ['i'] ['w']) [1]
    ⟨1, none, []⟩ where
  worker := by decide
  attachment := rfl
  job := rfl
  held := by decide
  current := by decide
  vector := ⟨_, rfl, rfl⟩
  attachable := ⟨_, rfl, rfl, rfl, rfl⟩

theorem not_good_refused {db : Database} {jobId index : ℕ} {workerId : Text} {j : EmbeddingJob}
    {blob : List UInt8} {a : Attachment} :
    ¬ Good db jobId workerId (refusedResult index) j blob a := by
  intro h
  obtain ⟨_, -, hblob⟩ := h.vector
  cases hblob

/-- Without the other worker's lease the batch is what the single calls are, though one of its
vectors is refused. -/
theorem batch_eq_single_first :
    BatchEqualsSingle [(leasedJob 1 ['i'] ['w']).lease, (leasedJob 3 ['h'] ['w']).lease] ['w']
      [refusedResult 1, resultOf 0] threeLeases := by
  refine (batch_eq_single_iff threeLeases _ _ _ threeLeases_jobRows).mpr (.inr ⟨⟨?_, ?_⟩, ?_⟩)
  · simp only [List.forall_mem_cons]
    exact ⟨⟨_, rfl, .inr ⟨_, rfl, by decide⟩⟩, ⟨_, rfl, .inl ⟨_, _, _, good_first⟩⟩, by simp⟩
  · decide
  · intro r hr r' hr' lease lease' j j' blob blob' a a' hlease hlease' hgood hgood' _ _
    simp only [List.mem_cons, List.not_mem_nil, or_false] at hr hr'
    obtain rfl | rfl := hr
    · exact absurd hgood not_good_refused
    obtain rfl | rfl := hr'
    · exact absurd hgood' not_good_refused
    obtain rfl : lease = lease' := Option.some.inj (hlease.symm.trans hlease')
    exact (hgood.unique hgood').2.1

/-- The result of the revoked lease leaves the loop, and the valid one is rolled back. -/
theorem revoked_lease_undoes_success : threeLeases.JobRows ∧
    Good threeLeases 1 ['w'] (resultOf 0) (leasedJob 1 ['i'] ['w']) [1] ⟨1, none, []⟩ ∧
    ¬ BatchEqualsSingle [(leasedJob 1 ['i'] ['w']).lease, (leasedJob 2 ['j'] ['w']).lease] ['w']
      [resultOf 0, resultOf 1] threeLeases := by
  refine ⟨threeLeases_jobRows, good_first, fun h => ?_⟩
  have hbatch : ((threeLeases.completeEmbeddingJobsBatch [(leasedJob 1 ['i'] ['w']).lease,
      (leasedJob 2 ['j'] ['w']).lease] ['w'] [resultOf 0, resultOf 1]).outcome
        (leasedJob 1 ['i'] ['w'])).1 = some .leased := by decide
  obtain ⟨lease, j, hlease, hj, heq⟩ := h (resultOf 0) List.mem_cons_self _
    ((alone_eq_some rfl).mpr ⟨_, _, _, good_first, rfl⟩)
  obtain rfl : (leasedJob 1 ['i'] ['w']).lease = lease := Option.some.inj hlease
  obtain rfl : leasedJob 1 ['i'] ['w'] = j := Option.some.inj hj
  rw [heq, outcome_withResult rfl] at hbatch
  cases hbatch

end Semantic
end Neocortex
