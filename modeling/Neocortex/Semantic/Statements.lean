import Neocortex.Semantic.Steps

/-!
# Transactions as statements

Every transaction of the owner is a sequence of statements on its tables.  A statement comes
with what its callers have checked, and an invariant that no statement breaks is kept by every
transaction (`Database.step_induction`).

What a transaction may write beside depends on its scope: only a claim and a heartbeat lease
jobs or prolong leases, only an enqueue and a page of the copy of the base write members of a
candidate whose base is not copied, only a completion writes a payload, and only a finalization
moves a head.
-/

namespace Neocortex
namespace Semantic

open Python Rows Checks

inductive Scope where
  | plain
  | leases
  | members
  | results
  | heads
  deriving DecidableEq

/-- An update of a job that is neither of its identity nor of the columns of the triggers. -/
structure SameRow (old new : EmbeddingJob) : Prop where
  jobId : new.jobId = old.jobId
  generationId : new.generationId = old.generationId
  modelSignature : new.modelSignature = old.modelSignature
  entityKind : new.entityKind = old.entityKind
  entityId : new.entityId = old.entityId
  sourceDirty : new.sourceDirty = old.sourceDirty
  cachedPayloadId : new.cachedPayloadId = old.cachedPayloadId

/-- An update after which a job is leased only as it was before. -/
def KeepsLease (old new : EmbeddingJob) : Prop :=
  new.status = .leased → old.status = .leased ∧ new.fingerprint = old.fingerprint ∧
    new.leaseOwner = old.leaseOwner ∧ new.leaseUntilNs = old.leaseUntilNs

/-- An update after which a job has not been tried too often, if it had not before. -/
def KeepsAttempts (old new : EmbeddingJob) : Prop :=
  old.attempts ≤ old.maxAttempts → new.attempts ≤ new.maxAttempts

/-- An update of a building generation. -/
structure Advance (s : Scope) (old new : EmbeddingGeneration) : Prop where
  building : old.status = .building
  generationId : new.generationId = old.generationId
  modelSignature : new.modelSignature = old.modelSignature
  baseGenerationId : new.baseGenerationId = old.baseGenerationId
  counts : new.status = .building → new.counts = old.counts
  clone : s ≠ .members → old.baseGenerationId ≠ none →
    new.cursor.baseClone = old.cursor.baseClone ∧ new.baseCloneComplete = old.baseCloneComplete

/-- The members of a generation may be written. -/
def Database.Writable (db : Database) (s : Scope) (id : ℕ) : Prop :=
  ∃ g, db.generation id = some g ∧ g.status = .building ∧
    (s = .members ∨ g.baseCloneComplete = true)

/-- The model of a generation has a modality. -/
def Database.HasModality (db : Database) (id : ℕ) (modality : EmbeddingModality) : Prop :=
  ∃ g m, db.generation id = some g ∧ db.loadModel g.modelSignature = some m ∧
    m.modality = modality

/-- A job that may be inserted. -/
structure Insertable (db : Database) (j : EmbeddingJob) : Prop where
  generation : ∃ g, db.generation j.generationId = some g ∧ g.modelSignature = j.modelSignature
  model : ∃ m, db.loadModel j.modelSignature = some m ∧ m.modality.entityKind = j.entityKind
  status : j.status ≠ .leased
  attempts : j.attempts ≤ j.maxAttempts
  free : db.jobs.any (sameJob j.generationId j.entityKind j.entityId) = false

/-- A generation that may become the head. -/
def Database.Publishable (db : Database) (signature : Text) (expected : Option ℕ) (id : ℕ) : Prop :=
  db.publishedHeadId signature = expected ∧
    ∃ g, db.generation id = some g ∧ g.status = .ready ∧ g.modelSignature = signature ∧
      g.baseGenerationId = expected

/-- One statement of a transaction. -/
inductive Statement (s : Scope) : Database → Database → Prop where
  | registerModel (db : Database) (m : EmbeddingModel) : Statement s db (db.registerModel m)
  | insertItem (db : Database) (i : SemanticItem) : Statement s db (db.insertItem i)
  | updateItem (db : Database) (id : Text) (new : SemanticItem) :
      Statement s db (db.updateItem id new)
  | deleteItem (db : Database) (id : Text) : Statement s db (db.deleteItem id)
  | insertChunk (db : Database) (c : TextChunk) : Statement s db (db.insertChunk c)
  | updateChunk (db : Database) (id : Text) (new : TextChunk) :
      Statement s db (db.updateChunk id new)
  | deleteChunk (db : Database) (id : Text) : Statement s db (db.deleteChunk id)
  | insertJob (db : Database) (j : EmbeddingJob) (h : Insertable db j) :
      Statement s db (db.insertJob j)
  | updateJobs (db : Database) (p : EmbeddingJob → Bool) (f : EmbeddingJob → EmbeddingJob)
      (hrow : ∀ j ∈ db.jobs, p j = true → SameRow j (f j))
      (hlease : s ≠ .leases → ∀ j ∈ db.jobs, p j = true → KeepsLease j (f j))
      (hattempts : s ≠ .leases ∧ s ≠ .members → ∀ j ∈ db.jobs, p j = true → KeepsAttempts j (f j)) :
      Statement s db (db.updateJobs p f)
  | deleteJobs (db : Database) (p : EmbeddingJob → Bool) : Statement s db (db.deleteJobs p)
  | clearDirty (db : Database) (id : ℕ) (modality : EmbeddingModality)
      (p : EmbeddingJob → Bool) (hm : db.HasModality id modality)
      (hp : ∀ j ∈ db.jobs, p j = true →
        j.generationId = id ∧ db.currentJobMatchesSource modality j = true) :
      Statement s db (db.setDirty false p)
  | insertPayload (db : Database) (signature : Text) (fingerprint : ContentFingerprint)
      (blob : List UInt8) (hs : s = .results)
      (h : db.cachedPayload signature fingerprint = none) :
      Statement s db (db.insertPayload signature fingerprint blob)
  | insertMember (db : Database) (m : GenerationMember) (h : db.Writable s m.generationId) :
      Statement s db (db.insertMember m)
  | upsertMember (db : Database) (m : GenerationMember) (h : db.Writable s m.generationId) :
      Statement s db (db.upsertMember m)
  | deleteMembers (db : Database) (p : GenerationMember → Bool)
      (h : ∀ m ∈ db.members, p m = true → db.Writable s m.generationId) :
      Statement s db (db.deleteMembers p)
  | insertGeneration (db : Database) (call : StartCall) (m : EmbeddingModel)
      (h : db.loadModel call.modelSignature = some m) :
      Statement s db (db.insertGeneration call (db.publishedHeadId call.modelSignature))
  | updateGenerations (db : Database) (p : EmbeddingGeneration → Bool)
      (f : EmbeddingGeneration → EmbeddingGeneration)
      (h : ∀ g ∈ db.generations, p g = true → Advance s g (f g)) :
      Statement s db { db with generations := updateWhere p f db.generations }
  | deleteGeneration (db : Database) (id : ℕ)
      (hj : (db.jobs.any fun j => j.generationId == id) = false) (hm : db.membersOf id = [])
      (hb : (db.generations.any fun g => g.baseGenerationId == some id) = false) :
      Statement s db (db.deleteGeneration id)
  | publish (db : Database) (signature : Text) (expected : Option ℕ) (id : ℕ)
      (hs : s = .heads) (h : db.Publishable signature expected id) :
      Statement s db (db.publishHead signature expected id)

/-- Statements one after another. -/
def Transaction (s : Scope) : Database → Database → Prop := Relation.ReflTransGen (Statement s)

variable {s : Scope} {db db' : Database}

theorem Transaction.refl (db : Database) : Transaction s db db := Relation.ReflTransGen.refl

theorem Transaction.trans {db₁ db₂ db₃ : Database} (h : Transaction s db₁ db₂)
    (h' : Transaction s db₂ db₃) : Transaction s db₁ db₃ := Relation.ReflTransGen.trans h h'

theorem Statement.transaction (h : Statement s db db') : Transaction s db db' :=
  Relation.ReflTransGen.single h

/-- An invariant of statements is one of transactions. -/
theorem Transaction.induction {I : Database → Prop}
    (hI : ∀ {db db'}, Statement s db db' → I db → I db') (h : Transaction s db db') (hdb : I db) :
    I db' := by
  induction h with
  | refl => exact hdb
  | tail _ hstep ih => exact hI hstep ih

/-! ## What the statements on jobs leave of a generation -/

/-- A generation without its counters. -/
def EmbeddingGeneration.core (g : EmbeddingGeneration) : EmbeddingGeneration :=
  { g with counts := fun _ => 0 }

/-- Two databases with the same models and the same generations, up to the counters. -/
structure SameCore (db db' : Database) : Prop where
  models : db'.models = db.models
  generations : db'.generations.map EmbeddingGeneration.core =
    db.generations.map EmbeddingGeneration.core

theorem SameCore.refl (db : Database) : SameCore db db := ⟨rfl, rfl⟩

theorem SameCore.trans {db₁ db₂ db₃ : Database} (h : SameCore db₁ db₂) (h' : SameCore db₂ db₃) :
    SameCore db₁ db₃ := ⟨h'.models.trans h.models, h'.generations.trans h.generations⟩

theorem SameCore.generation (h : SameCore db db') {id : ℕ} {g : EmbeddingGeneration}
    (hg : db.generation id = some g) :
    ∃ g', db'.generation id = some g' ∧ g'.core = g.core := by
  have hfind : ∀ gs : List EmbeddingGeneration,
      (gs.find? fun g => g.generationId == id).map EmbeddingGeneration.core =
        (gs.map EmbeddingGeneration.core).find? fun g => g.generationId == id := by
    intro gs
    rw [List.find?_map]
    rfl
  have hmap := (hfind db'.generations).trans
    ((congrArg (List.find? fun g => g.generationId == id) h.generations).trans
      (hfind db.generations).symm)
  unfold Database.generation at hg ⊢
  rw [hg, Option.map_some, Option.map_eq_some_iff] at hmap
  exact hmap

theorem SameCore.writable (h : SameCore db db') {id : ℕ} (hw : db.Writable s id) :
    db'.Writable s id := by
  obtain ⟨g, hg, hb, hc⟩ := hw
  obtain ⟨g', hg', hcore⟩ := h.generation hg
  refine ⟨g', hg', ?_, ?_⟩
  · exact (congrArg EmbeddingGeneration.status hcore).trans hb
  · exact hc.imp_right fun hc => (congrArg EmbeddingGeneration.baseCloneComplete hcore).trans hc

theorem SameCore.loadModel (h : SameCore db db') (signature : Text) :
    db'.loadModel signature = db.loadModel signature := by
  rw [Database.loadModel, Database.loadModel, h.models]

theorem SameCore.hasModality (h : SameCore db db') {id : ℕ} {modality : EmbeddingModality}
    (hm : db.HasModality id modality) : db'.HasModality id modality := by
  obtain ⟨g, m, hg, hm, hmod⟩ := hm
  obtain ⟨g', hg', hcore⟩ := h.generation hg
  have hsignature := congrArg EmbeddingGeneration.modelSignature hcore
  change g'.modelSignature = g.modelSignature at hsignature
  refine ⟨g', m, hg', ?_, hmod⟩
  rw [h.loadModel, hsignature]
  exact hm

theorem map_core_bump (gs : List EmbeddingGeneration) (id : ℕ) (status : JobStatus) (n : ℤ) :
    (bump gs id status n).map EmbeddingGeneration.core = gs.map EmbeddingGeneration.core :=
  map_updateWhere fun _ _ _ => rfl

theorem map_core_countsUpdate (gs : List EmbeddingGeneration) (old new : EmbeddingJob) :
    (countsUpdate gs old new).map EmbeddingGeneration.core =
      gs.map EmbeddingGeneration.core := by
  unfold countsUpdate
  split_ifs
  · rfl
  · rw [map_core_bump, map_core_bump]

theorem map_core_foldl {f : List EmbeddingGeneration → EmbeddingJob → List EmbeddingGeneration}
    (hf : ∀ gs j, (f gs j).map EmbeddingGeneration.core = gs.map EmbeddingGeneration.core)
    (jobs : List EmbeddingJob) (gs : List EmbeddingGeneration) :
    (jobs.foldl f gs).map EmbeddingGeneration.core = gs.map EmbeddingGeneration.core := by
  induction jobs generalizing gs with
  | nil => rfl
  | cons j jobs ih => rw [List.foldl_cons, ih, hf]

theorem sameCore_updateJobs (db : Database) (p : EmbeddingJob → Bool)
    (f : EmbeddingJob → EmbeddingJob) : SameCore db (db.updateJobs p f) := by
  refine ⟨rfl, map_core_foldl (fun gs j => ?_) db.jobs db.generations⟩
  split_ifs
  · exact map_core_countsUpdate gs j (f j)
  · rfl

theorem sameCore_deleteJobs (db : Database) (p : EmbeddingJob → Bool) :
    SameCore db (db.deleteJobs p) := by
  refine ⟨rfl, map_core_foldl (fun gs j => ?_) db.jobs db.generations⟩
  split_ifs
  · exact map_core_bump gs _ _ _
  · rfl

theorem sameCore_insertJob (db : Database) (j : EmbeddingJob) : SameCore db (db.insertJob j) :=
  ⟨rfl, map_core_bump _ _ _ _⟩

theorem sameCore_insertMember (db : Database) (m : GenerationMember) :
    SameCore db (db.insertMember m) := by
  unfold Database.insertMember
  split_ifs
  · exact SameCore.refl db
  · exact ⟨rfl, rfl⟩

theorem sameCore_upsertMember (db : Database) (m : GenerationMember) :
    SameCore db (db.upsertMember m) := by
  unfold Database.upsertMember
  by_cases h : db.members.any (sameMember m.generationId m.entityKind m.entityId) = true
  · rw [if_pos h]
    exact ⟨rfl, rfl⟩
  · rw [if_neg h]
    exact sameCore_insertMember db m

/-! ## Statements on the sources -/

/-- A write to the sources, with the mark of some jobs. -/
def SourceWrite (db db' : Database) : Prop :=
  ∃ items chunks, db' = { db with items := items, chunks := chunks } ∨
    ∃ p, db' = { db with items := items, chunks := chunks }.setDirty true p

theorem SourceWrite.refl (db : Database) : SourceWrite db db := ⟨db.items, db.chunks, .inl rfl⟩

theorem sourceWrite_insertItem (db : Database) (i : SemanticItem) :
    SourceWrite db (db.insertItem i) := by
  unfold Database.insertItem
  split_ifs
  · exact SourceWrite.refl db
  · exact ⟨_, db.chunks, .inr ⟨_, rfl⟩⟩

theorem sourceWrite_updateItem (db : Database) (id : Text) (new : SemanticItem) :
    SourceWrite db (db.updateItem id new) := by
  unfold Database.updateItem
  split
  · exact SourceWrite.refl db
  · split_ifs
    · exact SourceWrite.refl db
    · exact ⟨_, db.chunks, .inr ⟨_, rfl⟩⟩
    · exact ⟨_, db.chunks, .inl rfl⟩

theorem sourceWrite_deleteItem (db : Database) (id : Text) : SourceWrite db (db.deleteItem id) :=
  ⟨_, db.chunks, .inr ⟨_, rfl⟩⟩

theorem sourceWrite_insertChunk (db : Database) (c : TextChunk) :
    SourceWrite db (db.insertChunk c) := by
  unfold Database.insertChunk
  split_ifs
  · exact SourceWrite.refl db
  · exact ⟨db.items, _, .inr ⟨_, rfl⟩⟩

theorem sourceWrite_updateChunk (db : Database) (id : Text) (new : TextChunk) :
    SourceWrite db (db.updateChunk id new) := by
  unfold Database.updateChunk
  split
  · exact SourceWrite.refl db
  · split_ifs
    · exact SourceWrite.refl db
    · exact ⟨db.items, _, .inr ⟨_, rfl⟩⟩
    · exact ⟨db.items, _, .inl rfl⟩

theorem sourceWrite_deleteChunk (db : Database) (id : Text) : SourceWrite db (db.deleteChunk id) :=
  ⟨db.items, _, .inr ⟨_, rfl⟩⟩

/-! ## Job statements of the queue -/

/-- An update that gives a job a status other than leased. -/
theorem keepsLease_of_status {old new : EmbeddingJob} (h : new.status ≠ .leased) :
    KeepsLease old new := fun hnew => absurd hnew h

theorem sameRow_toStale (j : EmbeddingJob) : SameRow j j.toStale :=
  ⟨rfl, rfl, rfl, rfl, rfl, rfl, rfl⟩

theorem sameRow_toDone (j : EmbeddingJob) : SameRow j j.toDone :=
  ⟨rfl, rfl, rfl, rfl, rfl, rfl, rfl⟩

/-- An update of every selected job to one that is not leased. -/
theorem transaction_unlease {p : EmbeddingJob → Bool} {f : EmbeddingJob → EmbeddingJob}
    (hrow : ∀ j, SameRow j (f j)) (hstatus : ∀ j, (f j).status ≠ .leased)
    (hattempts : ∀ j, KeepsAttempts j (f j)) :
    Transaction s db (db.updateJobs p f) :=
  (Statement.updateJobs db p f (fun j _ _ => hrow j)
    (fun _ j _ _ => keepsLease_of_status (hstatus j)) fun _ j _ _ => hattempts j).transaction

theorem transaction_finishJob (jobId : ℕ) : Transaction s db (db.finishJob jobId) :=
  transaction_unlease sameRow_toDone (fun _ h => nomatch h) fun _ h => h

theorem transaction_finishExistingJob (prior : Option EmbeddingJob) :
    Transaction s db (db.finishExistingJob prior) := by
  unfold Database.finishExistingJob
  split
  · exact Transaction.refl db
  · split_ifs
    · exact Transaction.refl db
    · exact transaction_finishJob _

theorem transaction_toStale (p : EmbeddingJob → Bool) :
    Transaction s db (db.updateJobs p EmbeddingJob.toStale) :=
  transaction_unlease sameRow_toStale (fun _ h => nomatch h) fun _ h => h

theorem transaction_markStaleJobs {id : ℕ} {modality : EmbeddingModality} {reconcile : Bool}
    (hm : db.HasModality id modality) :
    Transaction s db (db.markStaleJobs id modality reconcile) := by
  refine ((transaction_toStale _).trans (transaction_toStale _)).trans
    (Statement.clearDirty _ id modality _ ?_ ?_).transaction
  · exact (sameCore_updateJobs _ _ _).hasModality ((sameCore_updateJobs _ _ _).hasModality hm)
  · intro j _ hj
    simp only [Bool.and_eq_true, beq_iff_eq] at hj
    exact ⟨hj.1.1.1, hj.2⟩

theorem sameCore_setDirty (db : Database) (dirty : Bool) (p : EmbeddingJob → Bool) :
    SameCore db (db.setDirty dirty p) := ⟨rfl, rfl⟩

theorem sameCore_markStaleJobs (db : Database) (id : ℕ) (modality : EmbeddingModality)
    (reconcile : Bool) : SameCore db (db.markStaleJobs id modality reconcile) :=
  ((sameCore_updateJobs _ _ _).trans (sameCore_updateJobs _ _ _)).trans (sameCore_setDirty _ _ _)

theorem sameCore_reconcileExpiredLeases (db : Database) (id nowNs : ℕ) :
    SameCore db (db.reconcileExpiredLeases id nowNs) :=
  (sameCore_updateJobs _ _ _).trans (sameCore_updateJobs _ _ _)

theorem transaction_reconcileExpiredLeases (id nowNs : ℕ) :
    Transaction s db (db.reconcileExpiredLeases id nowNs) := by
  refine Transaction.trans (transaction_unlease ?_ ?_ ?_) (transaction_unlease ?_ ?_ ?_)
  · exact fun _ => ⟨rfl, rfl, rfl, rfl, rfl, rfl, rfl⟩
  · exact fun _ h => nomatch h
  · exact fun _ h => h
  · exact fun _ => ⟨rfl, rfl, rfl, rfl, rfl, rfl, rfl⟩
  · exact fun _ h => nomatch h
  · exact fun _ h => h

theorem generationModel_hasModality {id : ℕ} {g : EmbeddingGeneration} {m : EmbeddingModel}
    (h : db.generationModel id = some (g, m)) : db.HasModality id m.modality :=
  ⟨g, m, (generationModel_cases h).1, (generationModel_cases h).2.2, rfl⟩

theorem transaction_reconciled {call : ClaimCall} {g : EmbeddingGeneration} {m : EmbeddingModel}
    (h : db.generationModel call.generationId = some (g, m)) :
    Transaction s db (db.reconciled call m) :=
  (transaction_reconcileExpiredLeases _ _).trans (transaction_markStaleJobs
    ((sameCore_reconcileExpiredLeases _ _ _).hasModality (generationModel_hasModality h)))

/-! ## Members -/

theorem transaction_attachPayload {j : EmbeddingJob} {payloadId nowNs : ℕ} {a : Attachment}
    (h : db.attachPayload j payloadId nowNs a = some db') : Transaction s db db' := by
  obtain ⟨g, m, hg, hb, -, hc, hid, -, -, -, -, rfl⟩ := attachPayload_cases h
  exact (Statement.upsertMember db m (hid ▸ ⟨g, hg, hb, .inr hc⟩)).transaction

theorem transaction_storePayload (j : EmbeddingJob) (blob : List UInt8) :
    Transaction .results db (db.storePayload j blob) := by
  unfold Database.storePayload
  by_cases h : (db.cachedPayload j.modelSignature j.fingerprint).isSome = true
  · rw [if_pos h]
    exact Transaction.refl db
  · rw [if_neg h]
    exact (Statement.insertPayload db _ _ blob rfl (by simpa using h)).transaction

theorem transaction_complete {jobId : ℕ} {workerId : Text} {blob : List UInt8} {nowNs : ℕ}
    {a : Attachment} {result : Completion}
    (h : db.completeEmbeddingJob jobId workerId blob nowNs a = some (db', result)) :
    Transaction .results db db' := by
  obtain ⟨j, -, -, ⟨-, payloadId, attached, hattached, rfl⟩ | ⟨-, rfl⟩⟩ := complete_cases h
  · exact ((transaction_storePayload j blob).trans (transaction_attachPayload hattached)).trans
      (transaction_finishJob jobId)
  · exact transaction_toStale _

theorem transaction_reuse {id limit nowNs : ℕ} {attachment : EmbeddingJob → Attachment}
    (h : db.reuseCachedJobs id limit nowNs attachment = some db') : Transaction s db db' := by
  obtain ⟨g, m, hgm, h⟩ := reuse_cases h
  refine foldlM_induction (R := Transaction s db) (fun db₁ row db₂ hdb₁ hrow => ?_)
    (transaction_markStaleJobs (generationModel_hasModality hgm)) h
  obtain ⟨attached, hattached, rfl⟩ := reuseCachedJob_cases hrow
  exact (hdb₁.trans (transaction_attachPayload hattached)).trans (transaction_finishJob _)

/-! ## Enqueue -/

theorem sameCore_finishExistingJob (db : Database) (prior : Option EmbeddingJob) :
    SameCore db (db.finishExistingJob prior) := by
  unfold Database.finishExistingJob
  split
  · exact SameCore.refl db
  · split_ifs
    · exact SameCore.refl db
    · exact sameCore_updateJobs _ _ _

theorem sameCore_deleteMembers (db : Database) (p : GenerationMember → Bool) :
    SameCore db (db.deleteMembers p) := ⟨rfl, rfl⟩

/-- A rebind: a deletion, an upsert and an update, on a generation that may be written. -/
theorem transaction_rebind {call : EnqueueCall} (hw : db.Writable .members call.generationId)
    (row : QueueRow) (m : GenerationMember) (itemRevisionId : ℕ) (chunkRevisionId : Option ℕ)
    (prior : Option EmbeddingJob) :
    Transaction .members db
        (db.rebindGenerationMember call row m itemRevisionId chunkRevisionId prior) ∧
      SameCore db (db.rebindGenerationMember call row m itemRevisionId chunkRevisionId prior) := by
  have hclear : Transaction .members db (db.clearRebound call m) ∧
      SameCore db (db.clearRebound call m) := by
    unfold Database.clearRebound
    split_ifs
    · refine ⟨(Statement.deleteMembers db _ fun other _ hp => ?_).transaction,
        sameCore_deleteMembers _ _⟩
      simp only [Bool.and_eq_true, beq_iff_eq] at hp
      exact hp.2 ▸ hw
    · exact ⟨Transaction.refl db, SameCore.refl db⟩
  have hbound := hclear.1.trans (Statement.upsertMember (db.clearRebound call m)
    (m.reboundTo call row itemRevisionId chunkRevisionId) (hclear.2.writable hw)).transaction
  have hcore := hclear.2.trans (sameCore_upsertMember (db.clearRebound call m)
    (m.reboundTo call row itemRevisionId chunkRevisionId))
  cases prior with
  | none => exact ⟨hbound, hcore⟩
  | some j =>
    exact ⟨hbound.trans (transaction_finishJob _), hcore.trans (sameCore_updateJobs _ _ _)⟩

theorem transaction_selectQueueRows {call : EnqueueCall} (entries : List QueueEntry) :
    ∀ {db : Database} (selection : QueueSelection), db.Writable .members call.generationId →
      Transaction .members db (selectQueueRows call entries db selection).1 ∧
        SameCore db (selectQueueRows call entries db selection).1 := by
  induction entries with
  | nil => exact fun _ _ => ⟨Transaction.refl _, SameCore.refl _⟩
  | cons e entries ih =>
    intro db selection hw
    unfold selectQueueRows
    split
    · rename_i m itemRevisionId chunkRevisionId _
      obtain ⟨ht, hcore⟩ :=
        transaction_rebind hw e.row m itemRevisionId chunkRevisionId e.prior
      have hrest := ih { selection with rebound := selection.rebound ++ [e.row.entityId] }
        (hcore.writable hw)
      exact ⟨ht.trans hrest.1, hcore.trans hrest.2⟩
    · have hcore := sameCore_finishExistingJob db e.prior
      have hrest := ih selection (hcore.writable hw)
      exact ⟨(transaction_finishExistingJob e.prior).trans hrest.1, hcore.trans hrest.2⟩
    · by_cases hfull : (e.changed && call.maxNewJobs.any fun limit =>
          decide (limit ≤ selection.newJobs)) = true
      · rw [if_pos hfull]
        exact ⟨Transaction.refl db, SameCore.refl db⟩
      · rw [if_neg hfull]
        exact ih _ hw

theorem sameRow_requeue (call : EnqueueCall) (row : QueueRow) (j : EmbeddingJob) :
    SameRow j (j.requeue call row) := ⟨rfl, rfl, rfl, rfl, rfl, rfl, rfl⟩

/-- A job whose content has not changed keeps its lease, any other loses it. -/
theorem keepsLease_requeue (call : EnqueueCall) (row : QueueRow) (j : EmbeddingJob) :
    KeepsLease j (j.requeue call row) := by
  intro hleased
  by_cases hchanged : j.fingerprint ≠ row.fingerprint
  · simp [EmbeddingJob.requeue, hchanged] at hleased
  · simp only [EmbeddingJob.requeue, if_neg hchanged] at hleased ⊢
    exact ⟨hleased, (not_not.mp hchanged).symm, trivial, trivial⟩

/-- An enqueue may lower the bound of a job before it resets its attempts. -/
theorem transaction_upsertQueueJob {call : EnqueueCall} {g : EmbeddingGeneration}
    {m : EmbeddingModel} (hg : db.generation call.generationId = some g)
    (hm : db.loadModel g.modelSignature = some m) (hmodality : m.modality = call.modality)
    (row : QueueRow) :
    Transaction .members db (db.upsertQueueJob call m.modelSignature row) ∧
      SameCore db (db.upsertQueueJob call m.modelSignature row) := by
  unfold Database.upsertQueueJob
  have hsignature := (loadModel_spec hm).2
  by_cases hsame : db.jobs.any (sameJob call.generationId call.modality.entityKind row.entityId) =
      true
  · rw [if_pos hsame]
    exact ⟨(Statement.updateJobs db _ _ (fun j _ _ => sameRow_requeue call row j)
      (fun _ j _ _ => keepsLease_requeue call row j) fun h => by simp at h).transaction,
      sameCore_updateJobs _ _ _⟩
  · rw [if_neg hsame]
    refine ⟨(Statement.insertJob db _ ?_).transaction, sameCore_insertJob _ _⟩
    refine ⟨⟨g, hg, hsignature.symm⟩, ⟨m, ?_, ?_⟩, (fun h => nomatch h), Nat.zero_le _, ?_⟩
    · rw [show (row.newJob call m.modelSignature).modelSignature = g.modelSignature from hsignature]
      exact hm
    · exact congrArg EmbeddingModality.entityKind hmodality
    · exact Bool.eq_false_iff.mpr hsame

theorem transaction_upsertQueueJobs {call : EnqueueCall} {m : EmbeddingModel}
    (hmodality : m.modality = call.modality) (rows : List QueueRow) :
    ∀ {db : Database} {g : EmbeddingGeneration}, db.generation call.generationId = some g →
      db.loadModel g.modelSignature = some m →
      Transaction .members db (rows.foldl (Database.upsertQueueJob call m.modelSignature) db) := by
  induction rows with
  | nil => exact fun _ _ => Transaction.refl _
  | cons row rows ih =>
    intro db g hg hm
    obtain ⟨ht, hcore⟩ := transaction_upsertQueueJob hg hm hmodality row
    obtain ⟨g', hg', hgcore⟩ := hcore.generation hg
    have hsignature := congrArg EmbeddingGeneration.modelSignature hgcore
    change g'.modelSignature = g.modelSignature at hsignature
    refine ht.trans (ih hg' ?_)
    rw [hcore.loadModel, hsignature]
    exact hm

theorem transaction_enqueue {call : EnqueueCall} {rebound : List Text}
    (h : db.enqueueJobBatch call = some (db', rebound)) : Transaction .members db db' := by
  obtain ⟨-, ⟨rfl, -⟩ | ⟨g, m, rows, hgm, hmodality, -, rfl, -⟩⟩ := enqueue_cases h
  · exact Transaction.refl _
  · obtain ⟨hg, hb, hm⟩ := generationModel_cases hgm
    obtain ⟨ht, hcore⟩ := transaction_selectQueueRows (db.queueEntries call g rows) {}
      ⟨g, hg, hb, .inl rfl⟩
    obtain ⟨g', hg', hgcore⟩ := hcore.generation hg
    have hsignature := congrArg EmbeddingGeneration.modelSignature hgcore
    change g'.modelSignature = g.modelSignature at hsignature
    have hm' := (hcore.loadModel g'.modelSignature).trans (hsignature ▸ hm)
    refine (ht.trans (transaction_upsertQueueJobs hmodality
      (selectQueueRows call (db.queueEntries call g rows) db {}).2.rows hg' hm')).trans
      (transaction_unlease ?_ ?_ ?_)
    · exact fun _ => ⟨rfl, rfl, rfl, rfl, rfl, rfl, rfl⟩
    · exact fun _ h => nomatch h
    · exact fun _ _ => Nat.zero_le _

/-! ## Generations -/

/-- An update of a building generation by its identifier. -/
theorem transaction_updateBuilding {id : ℕ} {f : EmbeddingGeneration → EmbeddingGeneration}
    (h : ∀ g ∈ db.generations, g.generationId = id → g.status = .building → Advance s g (f g)) :
    Transaction s db (db.updateBuilding id f) := by
  refine (Statement.updateGenerations db _ f fun g hg hp => ?_).transaction
  simp only [Bool.and_eq_true, beq_iff_eq, decide_eq_true_eq] at hp
  exact h g hg hp.1 hp.2

/-- The only generation with an identifier. -/
theorem generation_unique (h : Unique EmbeddingGeneration.generationId db.generations)
    {g : EmbeddingGeneration} (hg : g ∈ db.generations) :
    db.generation g.generationId = some g := by
  have hfind := h.find?_eq hg
  simpa only [Database.generation, beq_eq_decide] using hfind

/-- A building generation that fails or is finalized. -/
theorem advance_close {g : EmbeddingGeneration} (hb : g.status = .building)
    (status : GenerationStatus) (hs : status ≠ .building) (counts : JobStatus → ℤ) :
    Advance s g { g with status := status, counts := counts } :=
  ⟨hb, rfl, rfl, rfl, fun h => absurd h hs, fun _ _ => ⟨rfl, rfl⟩⟩

theorem transaction_recordGenerationFailure (id : ℕ)
    (summary : EmbeddingGeneration → JobStatus → ℤ) :
    Transaction s db (db.recordGenerationFailure id summary) :=
  transaction_updateBuilding fun g _ _ hb =>
    advance_close hb .failed (fun h => nomatch h) (summary g)

theorem transaction_failEmptySuperseded (signature processing : Text) :
    Transaction s db (db.failEmptySuperseded signature processing) := by
  refine (Statement.updateGenerations db _ _ fun g _ hp => ?_).transaction
  simp only [Bool.and_eq_true, decide_eq_true_eq] at hp
  exact advance_close hp.1.1.1.1.2 .failed (fun h => nomatch h) g.counts

/-- A generation without a base whose copy is complete. -/
theorem advance_withoutBase {g : EmbeddingGeneration} (hb : g.status = .building)
    (hbase : g.baseGenerationId = none) (cursor : Cursor) :
    Advance s g { g with baseCloneComplete := true, cursor := cursor } :=
  ⟨hb, rfl, rfl, rfl, fun _ => rfl, fun _ h => absurd hbase h⟩

theorem transaction_start (hunique : Unique EmbeddingGeneration.generationId db.generations)
    {call : StartCall} {id : ℕ} (h : db.startEmbeddingGeneration call = some (db', id)) :
    Transaction s db db' := by
  obtain ⟨⟨m, hm⟩, hcases⟩ := start_cases h
  have hclear : Transaction s db
      (db.failEmptySuperseded call.modelSignature call.processingSignature) :=
    transaction_failEmptySuperseded _ _
  have huniqueCleared : Unique EmbeddingGeneration.generationId
      (db.failEmptySuperseded call.modelSignature call.processingSignature).generations :=
    unique_updateWhere hunique fun _ _ _ => rfl
  rcases hcases with ⟨rfl, -⟩ | ⟨g, summary, -, rfl, -⟩ | ⟨g, hg, hbase, rfl, rfl | ⟨hnone, rfl⟩⟩
  · exact hclear.trans (Statement.insertGeneration
      (db.failEmptySuperseded call.modelSignature call.processingSignature) call m hm).transaction
  · exact (hclear.trans (transaction_recordGenerationFailure g.generationId summary)).trans
      (Statement.insertGeneration (Database.recordGenerationFailure
        (db.failEmptySuperseded call.modelSignature call.processingSignature) g.generationId
          summary) call m hm).transaction
  · exact hclear
  · refine hclear.trans (transaction_updateBuilding fun g' hg' hid hb => ?_)
    obtain rfl := huniqueCleared.eq hg' hg.mem hid
    rw [hnone] at hbase
    rw [hnone]
    simpa only [hbase, Option.isNone_none] using advance_withoutBase hb hbase g'.cursor

theorem transaction_prepare (hunique : Unique EmbeddingGeneration.generationId db.generations)
    {call : PrepareCall} (h : db.prepareEmbeddingGeneration call = some db') :
    Transaction s db db' := by
  rcases prepare_cases h with rfl | ⟨summary, rfl⟩ | ⟨g, hg, hbase, rfl⟩ | ⟨hj, hm, hb, rfl⟩
  · exact Transaction.refl _
  · exact transaction_recordGenerationFailure _ summary
  · refine transaction_updateBuilding fun g' hg' hid hb => ?_
    obtain rfl := hunique.eq hg' (generation_spec hg).1 (hid.trans (generation_spec hg).2.symm)
    exact advance_withoutBase hb hbase g'.cursor
  · exact (Statement.deleteGeneration db call.generationId hj hm hb).transaction

theorem transaction_invalidate {ids : List ℕ} {matching : Text → Bool}
    (h : db.invalidateForSourceChange ids matching = some db') : Transaction s db db' := by
  obtain rfl := invalidate_cases h
  clear h
  induction ids generalizing db with
  | nil => exact Transaction.refl _
  | cons id ids ih => exact (transaction_recordGenerationFailure id _).trans ih

theorem transaction_updateCursor {id : ℕ} {protocol : Option Text} {enumerationComplete : Bool}
    (h : db.updateGenerationCursor id protocol enumerationComplete = some db') :
    Transaction s db db' := by
  obtain rfl := updateCursor_cases h
  exact transaction_updateBuilding fun g _ _ hb =>
    ⟨hb, rfl, rfl, rfl, fun _ => rfl, fun _ _ => ⟨rfl, rfl⟩⟩

/-- An update of the copy of the base. -/
theorem advance_clone {g : EmbeddingGeneration} (hb : g.status = .building) (cursor : Cursor)
    (complete : Bool) :
    Advance .members g { g with cursor := cursor, baseCloneComplete := complete } :=
  ⟨hb, rfl, rfl, rfl, fun _ => rfl, fun h => absurd rfl h⟩

theorem transaction_insertCopies {id : ℕ} (rows : List GenerationMember) :
    ∀ {db : Database}, db.Writable .members id →
      Transaction .members db (rows.foldl (fun db m => db.insertMember (m.copyTo id)) db) := by
  induction rows with
  | nil => exact fun _ => Transaction.refl _
  | cons m rows ih =>
    intro db hw
    exact (Statement.insertMember db (m.copyTo id) hw).transaction.trans
      (ih ((sameCore_insertMember db _).writable hw))

theorem transaction_clone {id : ℕ} {validateExtent : Bool} {rows : List GenerationMember}
    (h : db.clonePublishedMembers id validateExtent = some (db', rows)) :
    Transaction .members db db' := by
  obtain ⟨g, hg, hb, hcases⟩ := clone_cases h
  rcases hcases with ⟨-, rfl, -⟩ | ⟨-, -, -, rfl⟩ | ⟨base, c, -, -, -, -, hpage⟩
  · exact Transaction.refl _
  · exact transaction_updateBuilding fun g' _ _ hb' => advance_clone hb' _ true
  · rcases hpage with ⟨-, hfinish⟩ | ⟨-, rfl⟩
    · obtain ⟨-, -, rfl⟩ := finish_cases hfinish
      exact transaction_updateBuilding fun g' _ _ hb' => advance_clone hb' _ true
    · exact (transaction_insertCopies _ ⟨g, hg, hb, .inl rfl⟩).trans
        (transaction_updateBuilding fun g' _ _ hb' => advance_clone hb' _ g'.baseCloneComplete)

theorem sameCore_settled (db : Database) (call : FinalizeCall) (m : EmbeddingModel) :
    SameCore db (db.settled call m) :=
  (sameCore_markStaleJobs _ _ _ _).trans (sameCore_deleteJobs _ _)

theorem transaction_settled {call : FinalizeCall} {g : EmbeddingGeneration} {m : EmbeddingModel}
    (h : db.generationModel call.generationId = some (g, m)) :
    Transaction s db (db.settled call m) :=
  (transaction_markStaleJobs (generationModel_hasModality h)).trans
    (Statement.deleteJobs _ _).transaction

theorem transaction_persistFinalization (id : ℕ) (status : GenerationStatus)
    (hs : status ≠ .building) (summary : JobStatus → ℤ) :
    Transaction s db (db.persistFinalization id status summary) :=
  transaction_updateBuilding fun _ _ _ hb => advance_close hb status hs summary

/-- The row of a generation that has been finalized. -/
theorem generation_persistFinalization {id : ℕ} {g : EmbeddingGeneration}
    (hg : db.generation id = some g) (hb : g.status = .building) (status : GenerationStatus)
    (summary : JobStatus → ℤ) :
    (db.persistFinalization id status summary).generation id =
      some { g with status := status, counts := summary } := by
  have hid := (generation_spec hg).2
  unfold Database.persistFinalization Database.updateBuilding Database.generation updateWhere
  rw [List.find?_map]
  have hcomp : ((fun g : EmbeddingGeneration => g.generationId == id) ∘ fun g =>
      if (g.generationId == id && decide (g.status = .building)) = true then
        { g with status := status, counts := summary } else g) =
      fun g : EmbeddingGeneration => g.generationId == id := by
    funext g'
    simp only [Function.comp_apply]
    split_ifs <;> rfl
  rw [hcomp]
  unfold Database.generation at hg
  rw [hg, Option.map_some, if_pos]
  simp [hid, hb]

theorem transaction_finalize {call : FinalizeCall} {result : Finalization}
    (h : db.finalizeEmbeddingGeneration call = some (db', result)) : Transaction .heads db db' := by
  obtain ⟨g₀, m, g, hgm, hg, hc, hcases⟩ := finalize_cases h
  obtain ⟨hg₀, hb₀, hm⟩ := generationModel_cases hgm
  obtain ⟨g', hg', hcore⟩ := (sameCore_settled db call m).generation hg₀
  obtain rfl : g = g' := Option.some_inj.mp (hg.symm.trans hg')
  have hb : g.status = .building := (congrArg EmbeddingGeneration.status hcore).trans hb₀
  have hsettled : Transaction .heads db (db.settled call m) := transaction_settled hgm
  have hcleaned : Transaction .heads db (db.cleaned call m) := by
    refine hsettled.trans (Statement.deleteMembers _ _ fun other _ hp => ?_).transaction
    simp only [Bool.and_eq_true, beq_iff_eq] at hp
    exact hp.1 ▸ ⟨g, hg, hb, .inr hc⟩
  rcases hcases with ⟨-, rfl⟩ | ⟨-, -, ⟨-, hhead, rfl⟩ | ⟨-, rfl⟩⟩
  · exact hsettled.trans (transaction_persistFinalization _ .readyPartial (by decide) _)
  · have hgc : (db.cleaned call m).generation call.generationId = some g := hg
    have hrow := generation_persistFinalization hgc hb .ready
      ((db.settled call m).recount call.generationId)
    refine (hcleaned.trans (transaction_persistFinalization _ .ready (by decide) _)).trans
      (Statement.publish _ _ _ _ rfl ?_).transaction
    refine ⟨hhead, _, hrow, rfl, ?_, rfl⟩
    exact (congrArg EmbeddingGeneration.modelSignature hcore).trans (loadModel_spec hm).2.symm
  · exact hcleaned.trans (transaction_recordGenerationFailure _ _)

/-! ## Every transaction -/

def Op.scope : Op → Scope
  | .claim _ => .leases
  | .heartbeat _ _ _ _ => .leases
  | .enqueue _ => .members
  | .clonePage _ _ => .members
  | .complete _ _ _ _ _ => .results
  | .finalize _ => .heads
  | _ => .plain

theorem perform_transaction (hunique : Unique EmbeddingGeneration.generationId db.generations)
    {op : Op} {outcome : Outcome} (h : db.perform op = some (db', outcome)) :
    Transaction op.scope db db' := by
  cases op <;> simp only [Database.perform, Option.map_eq_some_iff, Option.some_inj,
    Prod.mk.injEq] at h
  case registerModel m =>
    obtain ⟨rfl, -⟩ := h
    exact (Statement.registerModel db m).transaction
  case insertItem i =>
    obtain ⟨rfl, -⟩ := h
    exact (Statement.insertItem db i).transaction
  case updateItem id new =>
    obtain ⟨rfl, -⟩ := h
    exact (Statement.updateItem db id new).transaction
  case deleteItem id =>
    obtain ⟨rfl, -⟩ := h
    exact (Statement.deleteItem db id).transaction
  case insertChunk c =>
    obtain ⟨rfl, -⟩ := h
    exact (Statement.insertChunk db c).transaction
  case updateChunk id new =>
    obtain ⟨rfl, -⟩ := h
    exact (Statement.updateChunk db id new).transaction
  case deleteChunk id =>
    obtain ⟨rfl, -⟩ := h
    exact (Statement.deleteChunk db id).transaction
  case start call =>
    obtain ⟨r, hr, rfl, -⟩ := h
    exact transaction_start hunique hr
  case clonePage id validateExtent =>
    obtain ⟨r, hr, rfl, -⟩ := h
    exact transaction_clone hr
  case updateCursor id protocol enumerationComplete =>
    obtain ⟨r, hr, rfl, -⟩ := h
    exact transaction_updateCursor hr
  case prepare call =>
    obtain ⟨r, hr, rfl, -⟩ := h
    exact transaction_prepare hunique hr
  case enqueue call =>
    obtain ⟨r, hr, rfl, -⟩ := h
    exact transaction_enqueue hr
  case reuse id limit nowNs attachment =>
    obtain ⟨r, hr, rfl, -⟩ := h
    exact transaction_reuse hr
  case claim call =>
    obtain ⟨r, hr, rfl, -⟩ := h
    obtain ⟨g, m, hgm, hdb, -⟩ := claim_cases hr
    rw [hdb]
    refine (transaction_reconciled hgm).trans (Statement.updateJobs _ _ _ ?_ ?_ ?_).transaction
    · exact fun _ _ _ => ⟨rfl, rfl, rfl, rfl, rfl, rfl, rfl⟩
    · exact fun h => absurd rfl h
    · exact fun h => by simp [Op.scope] at h
  case heartbeat jobIds workerId leaseNs nowNs =>
    obtain ⟨r, hr, rfl, -⟩ := h
    rw [heartbeat_cases hr]
    refine (Statement.updateJobs _ _ _ ?_ ?_ ?_).transaction
    · exact fun _ _ _ => ⟨rfl, rfl, rfl, rfl, rfl, rfl, rfl⟩
    · exact fun h => absurd rfl h
    · exact fun h => by simp [Op.scope] at h
  case complete jobId workerId blob nowNs a =>
    obtain ⟨r, hr, rfl, -⟩ := h
    exact transaction_complete hr
  case recordStale jobId workerId nowNs =>
    obtain ⟨r, hr, rfl, -⟩ := h
    rw [recordStale_cases hr]
    exact transaction_toStale _
  case fail jobId workerId retryable delayNs nowNs =>
    obtain ⟨r, hr, rfl, -⟩ := h
    obtain ⟨status, hstatus, hdb⟩ := fail_cases hr
    rw [hdb]
    exact transaction_unlease (fun _ => ⟨rfl, rfl, rfl, rfl, rfl, rfl, rfl⟩) (fun _ => hstatus)
      fun _ h => h
  case release jobId workerId nowNs =>
    obtain ⟨r, hr, rfl, -⟩ := h
    rw [release_cases hr]
    refine transaction_unlease ?_ ?_ ?_
    · exact fun _ => ⟨rfl, rfl, rfl, rfl, rfl, rfl, rfl⟩
    · exact fun _ h => nomatch h
    · exact fun _ h => (Nat.sub_le _ _).trans h
  case invalidate ids matching =>
    obtain ⟨r, hr, rfl, -⟩ := h
    exact transaction_invalidate hr
  case finalize call =>
    obtain ⟨r, hr, rfl, -⟩ := h
    exact transaction_finalize hr

end Semantic
end Neocortex
