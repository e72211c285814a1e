import Neocortex.Semantic.Statements

/-!
# What the schema keeps

The uniqueness of the keys, the identifiers that are still free, the model and the kind of a
job, and the generation of a head.  Each group of tables is looked at through the columns that
no update writes, so that a statement which leaves these columns leaves the whole group.
-/

namespace Neocortex
namespace Semantic

open Python Rows Checks

variable {s : Scope} {db db' : Database}

/-! ## Jobs -/

/-- The columns of a job that are never updated. -/
structure JobIdentity where
  jobId : ℕ
  generationId : ℕ
  modelSignature : Text
  entityKind : SemanticEntityKind
  entityId : Text

def EmbeddingJob.identity (j : EmbeddingJob) : JobIdentity :=
  ⟨j.jobId, j.generationId, j.modelSignature, j.entityKind, j.entityId⟩

/-- `UNIQUE(generation_id,entity_kind,entity_id)`. -/
def JobIdentity.key (j : JobIdentity) : ℕ × SemanticEntityKind × Text :=
  (j.generationId, j.entityKind, j.entityId)

def EmbeddingGeneration.identity (g : EmbeddingGeneration) : ℕ × Text :=
  (g.generationId, g.modelSignature)

/-- The rows of the jobs fit each other and those of the models and the generations. -/
structure FittingJobs (models : List EmbeddingModel) (generations : List (ℕ × Text))
    (jobs : List JobIdentity) (nextJob nextGeneration : ℕ) : Prop where
  uniqueModels : Unique EmbeddingModel.modelSignature models
  uniqueGenerations : Unique Prod.fst generations
  generationBound : ∀ g ∈ generations, g.1 < nextGeneration
  uniqueJobs : Unique JobIdentity.jobId jobs
  jobBound : ∀ j ∈ jobs, j.jobId < nextJob
  uniqueKeys : Unique JobIdentity.key jobs
  generation : ∀ j ∈ jobs, j.generationId < nextGeneration
  signature : ∀ j ∈ jobs, ∀ g ∈ generations, g.1 = j.generationId → g.2 = j.modelSignature
  kind : ∀ j ∈ jobs, ∃ m ∈ models, m.modelSignature = j.modelSignature ∧
    m.modality.entityKind = j.entityKind

def Database.JobRows (db : Database) : Prop :=
  FittingJobs db.models (db.generations.map EmbeddingGeneration.identity)
    (db.jobs.map EmbeddingJob.identity) db.nextJob db.nextGeneration

/-- A statement that leaves the identities. -/
theorem Database.JobRows.of_eq (h : db.JobRows) (hmodels : db'.models = db.models)
    (hgenerations : db'.generations.map EmbeddingGeneration.identity =
      db.generations.map EmbeddingGeneration.identity)
    (hjobs : db'.jobs.map EmbeddingJob.identity = db.jobs.map EmbeddingJob.identity)
    (hnext : db'.nextJob = db.nextJob) (hnextGeneration : db'.nextGeneration = db.nextGeneration) :
    db'.JobRows := by
  unfold Database.JobRows
  rw [hmodels, hgenerations, hjobs, hnext, hnextGeneration]
  exact h

/-- Rows that go leave the others as they were. -/
theorem FittingJobs.sublist {models : List EmbeddingModel} {generations generations' : List (ℕ × Text)}
    {jobs jobs' : List JobIdentity} {nextJob nextGeneration : ℕ}
    (h : FittingJobs models generations jobs nextJob nextGeneration)
    (hg : generations'.Sublist generations) (hj : jobs'.Sublist jobs) :
    FittingJobs models generations' jobs' nextJob nextGeneration where
  uniqueModels := h.uniqueModels
  uniqueGenerations := h.uniqueGenerations.sublist hg
  generationBound g hmem := h.generationBound g (hg.subset hmem)
  uniqueJobs := h.uniqueJobs.sublist hj
  jobBound j hmem := h.jobBound j (hj.subset hmem)
  uniqueKeys := h.uniqueKeys.sublist hj
  generation j hmem := h.generation j (hj.subset hmem)
  signature j hmem g hg' := h.signature j (hj.subset hmem) g (hg.subset hg')
  kind j hmem := h.kind j (hj.subset hmem)

theorem map_identity_of_core {gs gs' : List EmbeddingGeneration}
    (h : gs'.map EmbeddingGeneration.core = gs.map EmbeddingGeneration.core) :
    gs'.map EmbeddingGeneration.identity = gs.map EmbeddingGeneration.identity := by
  have hcomp : EmbeddingGeneration.identity = EmbeddingGeneration.identity ∘
      EmbeddingGeneration.core := rfl
  rw [hcomp, ← List.map_map, h, List.map_map]

/-- A write of columns of jobs that are not their identity. -/
theorem map_identity_updateWhere {p : EmbeddingJob → Bool} {f : EmbeddingJob → EmbeddingJob}
    {jobs : List EmbeddingJob} (h : ∀ j ∈ jobs, p j = true → (f j).identity = j.identity) :
    (updateWhere p f jobs).map EmbeddingJob.identity = jobs.map EmbeddingJob.identity :=
  map_updateWhere h

theorem SameRow.identity {old new : EmbeddingJob} (h : SameRow old new) :
    new.identity = old.identity := by
  unfold EmbeddingJob.identity
  rw [h.jobId, h.generationId, h.modelSignature, h.entityKind, h.entityId]

theorem identity_afterUpdate (db : Database) (old new : EmbeddingJob) :
    (db.afterUpdate old new).identity = new.identity := by
  unfold Database.afterUpdate
  split_ifs <;> rfl

theorem map_identity_setDirty (db : Database) (dirty : Bool) (p : EmbeddingJob → Bool) :
    (db.setDirty dirty p).jobs.map EmbeddingJob.identity = db.jobs.map EmbeddingJob.identity :=
  map_identity_updateWhere fun _ _ _ => rfl

theorem Database.JobRows.setDirty (h : db.JobRows) (dirty : Bool) (p : EmbeddingJob → Bool) :
    (db.setDirty dirty p).JobRows := h.of_eq rfl rfl (map_identity_setDirty db dirty p) rfl rfl

theorem Database.JobRows.source (h : db.JobRows) (hsource : SourceWrite db db') : db'.JobRows := by
  obtain ⟨items, chunks, rfl | ⟨p, rfl⟩⟩ := hsource
  · exact h.of_eq rfl rfl rfl rfl rfl
  · exact h.of_eq rfl rfl (map_identity_updateWhere fun _ _ _ => rfl) rfl rfl

theorem Database.JobRows.insertJob (h : db.JobRows) {j : EmbeddingJob} (hj : Insertable db j) :
    (db.insertJob j).JobRows := by
  obtain ⟨g, hg, hsignature⟩ := hj.generation
  obtain ⟨m, hm, hkind⟩ := hj.model
  have hjobs : (db.insertJob j).jobs.map EmbeddingJob.identity =
      db.jobs.map EmbeddingJob.identity ++
        [⟨db.nextJob, j.generationId, j.modelSignature, j.entityKind, j.entityId⟩] := by
    simp [Database.insertJob, Database.control, EmbeddingJob.identity]
  have hgenerations := map_identity_of_core (sameCore_insertJob db j).generations
  have hgid : (j.generationId, j.modelSignature) ∈
      db.generations.map EmbeddingGeneration.identity := by
    refine List.mem_map.mpr ⟨g, (generation_spec hg).1, ?_⟩
    rw [EmbeddingGeneration.identity, (generation_spec hg).2, hsignature]
  unfold Database.JobRows
  rw [hjobs, hgenerations]
  refine ⟨h.uniqueModels, h.uniqueGenerations, h.generationBound, ?_, ?_, ?_, ?_, ?_, ?_⟩
  · exact unique_append h.uniqueJobs fun other hother => (h.jobBound other hother).ne
  · intro other hother
    rcases List.mem_append.mp hother with hother | hother
    · exact Nat.lt_succ_of_lt (h.jobBound other hother)
    · rw [List.mem_singleton.mp hother]
      exact Nat.lt_succ_self _
  · refine unique_append h.uniqueKeys fun other hother hkey => ?_
    obtain ⟨row, hrow, rfl⟩ := List.mem_map.mp hother
    have hfree := List.any_eq_false.mp hj.free row hrow
    simp only [JobIdentity.key, EmbeddingJob.identity, Prod.mk.injEq] at hkey
    simp [sameJob, hkey.1, hkey.2.1, hkey.2.2] at hfree
  · intro other hother
    rcases List.mem_append.mp hother with hother | hother
    · exact h.generation other hother
    · rw [List.mem_singleton.mp hother]
      exact h.generationBound _ hgid
  · intro other hother g' hg' hid
    rcases List.mem_append.mp hother with hother | hother
    · exact h.signature other hother g' hg' hid
    · obtain rfl := List.mem_singleton.mp hother
      rw [h.uniqueGenerations.eq hg' hgid hid]
  · intro other hother
    rcases List.mem_append.mp hother with hother | hother
    · exact h.kind other hother
    · obtain rfl := List.mem_singleton.mp hother
      exact ⟨m, (loadModel_spec hm).1, (loadModel_spec hm).2, hkind⟩

theorem Database.JobRows.registerModel (h : db.JobRows) (m : EmbeddingModel) :
    (db.registerModel m).JobRows := by
  unfold Database.registerModel
  split_ifs with hany
  · exact h
  · have hnew : ∀ other ∈ db.models, other.modelSignature ≠ m.modelSignature := by
      simpa using hany
    exact { h with
      uniqueModels := unique_append h.uniqueModels hnew
      kind := fun j hj => by
        obtain ⟨other, hother, hkind⟩ := h.kind j hj
        exact ⟨other, List.mem_append_left _ hother, hkind⟩ }

theorem Database.JobRows.insertGeneration (h : db.JobRows) (call : StartCall) (head : Option ℕ) :
    (db.insertGeneration call head).JobRows := by
  have hgenerations : (db.insertGeneration call head).generations.map EmbeddingGeneration.identity =
      db.generations.map EmbeddingGeneration.identity ++
        [(db.nextGeneration, call.modelSignature)] := by
    simp [Database.insertGeneration, EmbeddingGeneration.identity]
  unfold Database.JobRows
  rw [hgenerations]
  exact { h with
    uniqueGenerations := unique_append h.uniqueGenerations fun g hg => (h.generationBound g hg).ne
    generationBound := fun g hg => by
      rcases List.mem_append.mp hg with hg | hg
      · exact Nat.lt_succ_of_lt (h.generationBound g hg)
      · rw [List.mem_singleton.mp hg]
        exact Nat.lt_succ_self _
    generation := fun j hj => Nat.lt_succ_of_lt (h.generation j hj)
    signature := fun j hj g hg hid => by
      rcases List.mem_append.mp hg with hg | hg
      · exact h.signature j hj g hg hid
      · rw [List.mem_singleton.mp hg] at hid
        exact absurd hid.symm (h.generation j hj).ne }

theorem Statement.jobRows (hstep : Statement s db db') (h : db.JobRows) : db'.JobRows := by
  cases hstep with
  | registerModel m => exact h.registerModel m
  | insertItem i => exact h.source (sourceWrite_insertItem db i)
  | updateItem id new => exact h.source (sourceWrite_updateItem db id new)
  | deleteItem id => exact h.source (sourceWrite_deleteItem db id)
  | insertChunk c => exact h.source (sourceWrite_insertChunk db c)
  | updateChunk id new => exact h.source (sourceWrite_updateChunk db id new)
  | deleteChunk id => exact h.source (sourceWrite_deleteChunk db id)
  | insertJob j hj => exact h.insertJob hj
  | updateJobs p f hrow _ _ =>
    refine h.of_eq rfl (map_identity_of_core (sameCore_updateJobs db p f).generations)
      (map_identity_updateWhere fun j hj hp => ?_) rfl rfl
    rw [identity_afterUpdate]
    exact (hrow j hj hp).identity
  | deleteJobs p =>
    unfold Database.JobRows
    rw [map_identity_of_core (sameCore_deleteJobs db p).generations]
    exact h.sublist (List.Sublist.refl _) (List.filter_sublist.map _)
  | clearDirty id modality p _ _ => exact h.setDirty false p
  | insertPayload signature fingerprint blob _ _ =>
    exact h.of_eq rfl rfl (map_identity_updateWhere fun _ _ _ => rfl) rfl rfl
  | insertMember m _ =>
    unfold Database.insertMember
    split_ifs
    · exact h
    · exact h.of_eq rfl rfl rfl rfl rfl
  | upsertMember m _ =>
    unfold Database.upsertMember Database.insertMember
    dsimp only
    split_ifs
    · exact h.of_eq rfl rfl rfl rfl rfl
    · exact h.of_eq rfl rfl rfl rfl rfl
  | deleteMembers p _ => exact h.of_eq rfl rfl rfl rfl rfl
  | insertGeneration call m _ => exact h.insertGeneration call _
  | updateGenerations p f hf =>
    refine h.of_eq rfl (map_updateWhere fun g hg hp => ?_) rfl rfl rfl
    rw [EmbeddingGeneration.identity, (hf g hg hp).generationId, (hf g hg hp).modelSignature]
    rfl
  | deleteGeneration id _ _ _ => exact h.sublist (List.filter_sublist.map _) (List.Sublist.refl _)
  | publish signature expected id _ _ =>
    unfold Database.publishHead
    split
    · exact h.of_eq rfl rfl rfl rfl rfl
    · exact h.of_eq rfl rfl rfl rfl rfl

theorem jobRows_empty : Database.empty.JobRows := by
  constructor <;> simp [Database.empty]

/-- The identifiers of the generations are distinct. -/
theorem Database.JobRows.unique_generations (h : db.JobRows) :
    Unique EmbeddingGeneration.generationId db.generations := by
  have hunique := unique_map.mp h.uniqueGenerations
  exact hunique

theorem Database.JobRows.unique_jobs (h : db.JobRows) : Unique EmbeddingJob.jobId db.jobs := by
  have hunique := unique_map.mp h.uniqueJobs
  exact hunique

theorem step_of_none {op : Op} (h : db.perform op = none) : db.step op = db := by
  rw [Database.step, h]
  rfl

theorem step_of_some {op : Op} {outcome : Outcome} (h : db.perform op = some (db', outcome)) :
    db.step op = db' := by
  rw [Database.step, h]
  rfl

theorem step_transaction (h : db.JobRows) (op : Op) : Transaction op.scope db (db.step op) := by
  cases hperform : db.perform op with
  | none =>
    rw [step_of_none hperform]
    exact Transaction.refl db
  | some r =>
    rw [step_of_some hperform]
    exact perform_transaction h.unique_generations hperform

theorem step_jobRows (h : db.JobRows) (op : Op) : (db.step op).JobRows :=
  (step_transaction h op).induction (fun hstep hdb => hstep.jobRows hdb) h

/-- An invariant that no statement breaks is one of the runs. -/
theorem run_induction {I : Database → Prop}
    (hI : ∀ {s : Scope} {db db' : Database}, Statement s db db' → db.JobRows → I db → I db')
    (h : db.JobRows) (hdb : I db) (ops : List Op) : (db.run ops).JobRows ∧ I (db.run ops) := by
  induction ops generalizing db with
  | nil => exact ⟨h, hdb⟩
  | cons op ops ih =>
    have hboth : (db.step op).JobRows ∧ I (db.step op) :=
      (step_transaction h op).induction (I := fun db => db.JobRows ∧ I db)
        (fun hstep hdb => ⟨hstep.jobRows hdb.1, hI hstep hdb.1 hdb.2⟩) ⟨h, hdb⟩
    exact ih hboth.1 hboth.2

/-! ## What a statement does to the jobs -/

/-- A job whose mark or hint has been written. -/
def Remarked (old new : EmbeddingJob) : Prop :=
  ∃ dirty cached, new = { old with sourceDirty := dirty, cachedPayloadId := cached }

/-- A statement rewrites the marks of jobs, or inserts one, or updates or deletes some. -/
theorem Statement.jobs_cases (hstep : Statement s db db') :
    (∃ f, (∀ j, Remarked j (f j)) ∧ db'.jobs = db.jobs.map f) ∨
      (∃ j, Insertable db j ∧ db' = db.insertJob j) ∨
      (∃ p f, (∀ j ∈ db.jobs, p j = true → SameRow j (f j)) ∧
        (s ≠ .leases → ∀ j ∈ db.jobs, p j = true → KeepsLease j (f j)) ∧
        (s ≠ .leases ∧ s ≠ .members → ∀ j ∈ db.jobs, p j = true → KeepsAttempts j (f j)) ∧
        db' = db.updateJobs p f) ∨
      ∃ p, db' = db.deleteJobs p := by
  have hsame : db'.jobs = db.jobs → ∃ f, (∀ j, Remarked j (f j)) ∧ db'.jobs = db.jobs.map f :=
    fun h => ⟨id, fun j => ⟨j.sourceDirty, j.cachedPayloadId, rfl⟩, h.trans (List.map_id _).symm⟩
  have hdirty : ∀ {items : List SemanticItem} {chunks : List TextChunk} {dirty : Bool}
      {p : EmbeddingJob → Bool},
      ∃ f, (∀ j, Remarked j (f j)) ∧
        ({ db with items := items, chunks := chunks }.setDirty dirty p).jobs = db.jobs.map f := by
    intro items chunks dirty p
    refine ⟨_, fun j => ?_, rfl⟩
    by_cases hp : p j = true
    · exact ⟨dirty, j.cachedPayloadId, by rw [if_pos hp]⟩
    · exact ⟨j.sourceDirty, j.cachedPayloadId, by rw [if_neg hp]⟩
  have hsource : SourceWrite db db' →
      ∃ f, (∀ j, Remarked j (f j)) ∧ db'.jobs = db.jobs.map f := by
    rintro ⟨items, chunks, rfl | ⟨p, rfl⟩⟩
    · exact hsame rfl
    · exact hdirty
  cases hstep with
  | insertJob j hj => exact .inr (.inl ⟨j, hj, rfl⟩)
  | updateJobs p f hrow hlease hattempts =>
    exact .inr (.inr (.inl ⟨p, f, hrow, hlease, hattempts, rfl⟩))
  | deleteJobs p => exact .inr (.inr (.inr ⟨p, rfl⟩))
  | registerModel m =>
    refine .inl (hsame ?_)
    unfold Database.registerModel
    split_ifs <;> rfl
  | insertItem i => exact .inl (hsource (sourceWrite_insertItem db i))
  | updateItem id new => exact .inl (hsource (sourceWrite_updateItem db id new))
  | deleteItem id => exact .inl (hsource (sourceWrite_deleteItem db id))
  | insertChunk c => exact .inl (hsource (sourceWrite_insertChunk db c))
  | updateChunk id new => exact .inl (hsource (sourceWrite_updateChunk db id new))
  | deleteChunk id => exact .inl (hsource (sourceWrite_deleteChunk db id))
  | clearDirty id modality p _ _ => exact .inl hdirty
  | insertPayload signature fingerprint blob _ _ =>
    refine .inl ⟨_, fun j => ?_, rfl⟩
    by_cases hp : (j.modelSignature == signature && j.fingerprint == fingerprint) = true
    · exact ⟨j.sourceDirty, some db.nextPayload, by rw [if_pos hp]⟩
    · exact ⟨j.sourceDirty, j.cachedPayloadId, by rw [if_neg hp]⟩
  | insertMember m _ =>
    refine .inl (hsame ?_)
    unfold Database.insertMember
    split_ifs <;> rfl
  | upsertMember m _ =>
    refine .inl (hsame ?_)
    unfold Database.upsertMember Database.insertMember
    dsimp only
    split_ifs <;> rfl
  | publish signature expected id _ _ =>
    refine .inl (hsame ?_)
    unfold Database.publishHead
    split <;> rfl
  | _ => exact .inl (hsame rfl)

end Semantic
end Neocortex
