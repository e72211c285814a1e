import Neocortex.Semantic.Control

/-!
# The projection is exact

From an owner that the v8 migration leaves, every sequence of writes keeps the control
projection exact.  So the incremental readers see what a full scan sees: stale marking, the
reuse of cached payloads and the summary of a generation.
-/

namespace Neocortex
namespace Semantic

open Python Rows Checks

variable {s : Scope} {db db' : Database}

/-- `UNIQUE(model_signature,content_xxh3_128,content_bytes,content_xxh3_64_guard)`. -/
def VectorPayload.key (p : VectorPayload) : Text × ContentFingerprint :=
  (p.modelSignature, p.fingerprint)

/-- The keys of the source and payload tables. -/
structure Database.Keyed (db : Database) : Prop where
  items : Unique SemanticItem.itemId db.items
  chunks : Unique TextChunk.chunkId db.chunks
  payloads : Unique VectorPayload.key db.payloads

/-- The control projection is exact. -/
structure Database.Controlled (db : Database) : Prop where
  keyed : db.Keyed
  counts : db.CountsExact
  marks : db.MarksExact
  cache : db.CacheExact

/-! ## Keys -/

theorem Statement.keyed (hstep : Statement s db db') (h : db.Keyed) : db'.Keyed := by
  cases hstep with
  | registerModel m =>
    unfold Database.registerModel
    split_ifs <;> exact ⟨h.items, h.chunks, h.payloads⟩
  | insertItem i =>
    unfold Database.insertItem
    split_ifs with hany
    · exact h
    · exact ⟨unique_append h.items (by simpa using hany), h.chunks, h.payloads⟩
  | updateItem id new =>
    unfold Database.updateItem
    split
    · exact h
    · rename_i old hold
      by_cases hfree : new.itemId ≠ id ∧ (db.items.any fun i => i.itemId == new.itemId) = true
      · rw [if_pos hfree]
        exact h
      · rw [if_neg hfree]
        have hitems : Unique SemanticItem.itemId
            (updateWhere (fun i => i.itemId == id) (fun _ => new) db.items) := by
          simpa only [beq_eq_decide] using unique_replace h.items
            (by simpa only [beq_eq_decide] using hfree)
        dsimp only
        split_ifs <;> exact ⟨hitems, h.chunks, h.payloads⟩
  | deleteItem id => exact ⟨unique_deleteWhere h.items, h.chunks, h.payloads⟩
  | insertChunk c =>
    unfold Database.insertChunk
    split_ifs with hany
    · exact h
    · exact ⟨h.items, unique_append h.chunks (by simpa using hany), h.payloads⟩
  | updateChunk id new =>
    unfold Database.updateChunk
    split
    · exact h
    · rename_i old hold
      by_cases hfree : new.chunkId ≠ id ∧ (db.chunks.any fun c => c.chunkId == new.chunkId) = true
      · rw [if_pos hfree]
        exact h
      · rw [if_neg hfree]
        have hchunks : Unique TextChunk.chunkId
            (updateWhere (fun c => c.chunkId == id) (fun _ => new) db.chunks) := by
          simpa only [beq_eq_decide] using unique_replace h.chunks
            (by simpa only [beq_eq_decide] using hfree)
        dsimp only
        split_ifs <;> exact ⟨h.items, hchunks, h.payloads⟩
  | deleteChunk id => exact ⟨h.items, unique_deleteWhere h.chunks, h.payloads⟩
  | insertPayload signature fingerprint blob _ hnone =>
    refine ⟨h.items, h.chunks, unique_append h.payloads fun p hp hkey => ?_⟩
    simp only [Database.cachedPayload, Option.map_eq_none_iff, List.find?_eq_none] at hnone
    simp only [VectorPayload.key, Prod.mk.injEq] at hkey
    exact hnone p hp (by simp [hkey.1, hkey.2])
  | insertMember m _ =>
    unfold Database.insertMember
    split_ifs <;> exact ⟨h.items, h.chunks, h.payloads⟩
  | upsertMember m _ =>
    unfold Database.upsertMember Database.insertMember
    dsimp only
    split_ifs <;> exact ⟨h.items, h.chunks, h.payloads⟩
  | publish signature expected id _ _ =>
    unfold Database.publishHead
    split <;> exact ⟨h.items, h.chunks, h.payloads⟩
  | _ => exact ⟨h.items, h.chunks, h.payloads⟩

/-! ## Counters, marks and cached payloads -/

theorem Statement.counts (hstep : Statement s db db') (hrows : db.JobRows) (h : db.CountsExact) :
    db'.CountsExact := by
  have hsource : SourceWrite db db' → db'.CountsExact := by
    rintro ⟨items, chunks, rfl | ⟨p, rfl⟩⟩
    · exact h.of_map rfl rfl
    · exact h.of_map rfl (map_updateWhere fun _ _ _ => rfl)
  cases hstep with
  | registerModel m =>
    unfold Database.registerModel
    split_ifs
    · exact h
    · exact h.of_map rfl rfl
  | insertItem i => exact hsource (sourceWrite_insertItem db i)
  | updateItem id new => exact hsource (sourceWrite_updateItem db id new)
  | deleteItem id => exact hsource (sourceWrite_deleteItem db id)
  | insertChunk c => exact hsource (sourceWrite_insertChunk db c)
  | updateChunk id new => exact hsource (sourceWrite_updateChunk db id new)
  | deleteChunk id => exact hsource (sourceWrite_deleteChunk db id)
  | insertJob j _ => exact h.insertJob j
  | updateJobs p f _ _ _ => exact h.updateJobs p f
  | deleteJobs p => exact h.deleteJobs p
  | clearDirty id modality p _ _ => exact countsExact_setDirty h false p
  | insertPayload signature fingerprint blob _ _ =>
    exact h.of_map rfl (map_updateWhere fun _ _ _ => rfl)
  | insertMember m _ =>
    unfold Database.insertMember
    split_ifs
    · exact h
    · exact h.of_map rfl rfl
  | upsertMember m _ =>
    unfold Database.upsertMember Database.insertMember
    dsimp only
    split_ifs <;> exact h.of_map rfl rfl
  | deleteMembers p _ => exact h.of_map rfl rfl
  | insertGeneration call m _ =>
    intro g hg hb status
    rcases List.mem_append.mp hg with hg | hg
    · exact h g hg hb status
    · obtain rfl := List.mem_singleton.mp hg
      -- no job names a generation that is not there yet
      have hnone : count (countedBy db.nextGeneration status) db.jobs = 0 := by
        rw [count_eq_countP, Nat.cast_eq_zero, List.countP_eq_zero]
        intro j hj hcounted
        simp only [countedBy, Bool.and_eq_true, beq_iff_eq] at hcounted
        exact (hrows.generation _ (List.mem_map_of_mem hj)).ne hcounted.1
      exact hnone.symm
  | updateGenerations p f hf =>
    intro g hg hb status
    obtain ⟨g₀, hg₀, rfl⟩ := mem_updateWhere.mp hg
    by_cases hsel : p g₀ = true
    · rw [if_pos hsel] at hb ⊢
      have hadvance := hf g₀ hg₀ hsel
      rw [hadvance.counts hb, hadvance.generationId]
      exact h g₀ hg₀ hadvance.building status
    · rw [if_neg hsel] at hb ⊢
      exact h g₀ hg₀ hb status
  | deleteGeneration id _ _ _ => exact fun g hg => h g (mem_deleteWhere.mp hg).1
  | publish signature expected id _ _ =>
    unfold Database.publishHead
    split <;> exact h.of_map rfl rfl

theorem Statement.marks (hstep : Statement s db db') (hrows : db.JobRows) (hkeyed : db.Keyed)
    (h : db.MarksExact) : db'.MarksExact := by
  cases hstep with
  | registerModel m =>
    unfold Database.registerModel
    split_ifs <;> exact h
  | insertItem i =>
    unfold Database.insertItem
    split_ifs
    · exact h
    · exact h.source fun j _ _ hj =>
        jobIsCurrent_mono (List.subset_append_left _ _) (List.Subset.refl _) hj
  | updateItem id new =>
    unfold Database.updateItem
    split
    · exact h
    · rename_i old hold
      split_ifs with hfree hchanged
      · exact h
      · refine h.source fun j hlive hp hj => jobIsCurrent_items (fun i hi hid => ?_) hlive hp hj
        have hsel : ¬((i.itemId == id) = true) := by
          rw [beq_iff_eq]
          exact fun heq => hid (heq ▸ List.mem_cons_self)
        exact mem_updateWhere.mpr ⟨i, hi, (if_neg hsel).symm⟩
      · exact h.of_current fun j hj =>
          jobIsCurrent_sameItem hkeyed.items hold (Bool.eq_false_iff.mpr hchanged) hj
  | deleteItem id =>
    refine h.source fun j hlive hp hj => jobIsCurrent_items (fun i hi hid => ?_) hlive hp hj
    exact mem_deleteWhere.mpr ⟨hi, by simpa using hid⟩
  | insertChunk c =>
    unfold Database.insertChunk
    split_ifs
    · exact h
    · exact h.source fun j _ _ hj =>
        jobIsCurrent_mono (List.Subset.refl _) (List.subset_append_left _ _) hj
  | updateChunk id new =>
    unfold Database.updateChunk
    split
    · exact h
    · rename_i old hold
      split_ifs with hfree hchanged
      · exact h
      · refine h.source fun j hlive hp hj => jobIsCurrent_chunks (fun c hc hid => ?_) hlive hp hj
        have hsel : ¬((c.chunkId == id) = true) := by
          rw [beq_iff_eq]
          exact fun heq => hid (heq ▸ List.mem_cons_self)
        exact mem_updateWhere.mpr ⟨c, hc, (if_neg hsel).symm⟩
      · -- every column of a chunk is watched, so the row is the one that was there
        have hsame : old = new := by simpa [chunkChanged] using hchanged
        have hchunks : updateWhere (fun c => c.chunkId == id) (fun _ => new) db.chunks =
            db.chunks := by
          refine updateWhere_eq_self fun c hc hsel => ?_
          have hid : old.chunkId = id := by simpa using List.find?_some hold
          rw [← hsame]
          exact (hkeyed.chunks.eq hc (List.mem_of_find?_eq_some hold)
            ((beq_iff_eq.mp hsel).trans hid.symm)).symm
        rw [hchunks]
        exact h
  | deleteChunk id =>
    refine h.source fun j hlive hp hj => jobIsCurrent_chunks (fun c hc hid => ?_) hlive hp hj
    exact mem_deleteWhere.mpr ⟨hc, by simpa using hid⟩
  | insertJob j _ => exact h.insertJob j
  | updateJobs p f hrow _ _ => exact h.updateJobs hrow
  | deleteJobs p => exact fun j hj => h j (mem_deleteWhere.mp hj).1
  | clearDirty id modality p hm hp =>
    intro j' hj' hlive hcurrent
    obtain ⟨j, hj, rfl⟩ := mem_updateWhere.mp hj'
    by_cases hsel : p j = true
    · rw [if_pos hsel] at hcurrent
      obtain ⟨hid, htrue⟩ := hp j hj hsel
      rw [hrows.current hm hj hid] at htrue
      exact absurd htrue (Bool.eq_false_iff.mp hcurrent)
    · rw [if_neg hsel] at hlive hcurrent ⊢
      exact h j hj hlive hcurrent
  | insertPayload signature fingerprint blob _ _ =>
    intro j' hj' hlive hcurrent
    obtain ⟨j, hj, rfl⟩ := mem_updateWhere.mp hj'
    split_ifs at hlive hcurrent ⊢ <;> exact h j hj hlive hcurrent
  | insertMember m _ =>
    unfold Database.insertMember
    split_ifs <;> exact h
  | upsertMember m _ =>
    unfold Database.upsertMember Database.insertMember
    dsimp only
    split_ifs <;> exact h
  | publish signature expected id _ _ =>
    unfold Database.publishHead
    split <;> exact h
  | _ => exact h

theorem Statement.cache (hstep : Statement s db db') (h : db.CacheExact) : db'.CacheExact := by
  have hsource : SourceWrite db db' → db'.CacheExact := by
    rintro ⟨items, chunks, rfl | ⟨p, rfl⟩⟩
    · exact h
    · exact Database.CacheExact.setDirty h true p
  cases hstep with
  | registerModel m =>
    unfold Database.registerModel
    split_ifs <;> exact h
  | insertItem i => exact hsource (sourceWrite_insertItem db i)
  | updateItem id new => exact hsource (sourceWrite_updateItem db id new)
  | deleteItem id => exact hsource (sourceWrite_deleteItem db id)
  | insertChunk c => exact hsource (sourceWrite_insertChunk db c)
  | updateChunk id new => exact hsource (sourceWrite_updateChunk db id new)
  | deleteChunk id => exact hsource (sourceWrite_deleteChunk db id)
  | insertJob j _ => exact h.insertJob j
  | updateJobs p f hrow _ _ => exact h.updateJobs hrow
  | deleteJobs p => exact fun j hj => h j (mem_deleteWhere.mp hj).1
  | clearDirty id modality p _ _ => exact h.setDirty false p
  | insertPayload signature fingerprint blob _ hnone => exact h.insertPayload blob hnone
  | insertMember m _ =>
    unfold Database.insertMember
    split_ifs <;> exact h
  | upsertMember m _ =>
    unfold Database.upsertMember Database.insertMember
    dsimp only
    split_ifs <;> exact h
  | publish signature expected id _ _ =>
    unfold Database.publishHead
    split <;> exact h
  | _ => exact h

theorem Statement.controlled (hstep : Statement s db db') (hrows : db.JobRows)
    (h : db.Controlled) : db'.Controlled :=
  ⟨hstep.keyed h.keyed, hstep.counts hrows h.counts, hstep.marks hrows h.keyed h.marks,
    hstep.cache h.cache⟩

/-! ## The migration -/

/-- `SEMANTIC_GENERATION_CONTROL_MIGRATION` of the rows that are there. -/
def Database.migrate (db : Database) : Database :=
  { db with
    jobs := db.jobs.map db.control
    generations := updateWhere (fun g => decide (g.status = .building))
      (fun g => { g with counts := db.recount g.generationId }) db.generations }

/-- An owner before the migration: what its schema keeps, and that its jobs were queued for the
modality of the model of their generation.  Its counters, marks and hints may be anything. -/
structure Database.Legacy (db : Database) : Prop where
  rows : db.JobRows
  keyed : db.Keyed

theorem Database.Legacy.jobRows (h : db.Legacy) : db.migrate.JobRows := by
  refine h.rows.of_eq rfl (map_updateWhere fun _ _ _ => rfl) ?_ rfl rfl
  simp only [Database.migrate, List.map_map]
  rfl

theorem Database.Legacy.controlled (h : db.Legacy) : db.migrate.Controlled where
  keyed := ⟨h.keyed.items, h.keyed.chunks, h.keyed.payloads⟩
  counts g hg hb status := by
    obtain ⟨g₀, hg₀, rfl⟩ := mem_updateWhere.mp hg
    have hstatus : g₀.status = .building := by
      by_contra hnot
      rw [if_neg (by simpa using hnot)] at hb
      exact hnot hb
    rw [if_pos (decide_eq_true hstatus)]
    show count (countedBy g₀.generationId status) db.jobs =
      count (countedBy g₀.generationId status) (db.jobs.map db.control)
    simp only [count, List.map_map]
    rfl
  marks j hj hlive _ := by
    obtain ⟨j₀, -, rfl⟩ := List.mem_map.mp hj
    exact hlive
  cache j hj := by
    obtain ⟨j₀, -, rfl⟩ := List.mem_map.mp hj
    rfl

/-! ## Writes -/

/-- A transaction, or the insertion of a payload by another writer. -/
inductive Write where
  | op (o : Op)
  | payload (signature : Text) (fingerprint : ContentFingerprint) (blob : List UInt8)

/-- `INSERT INTO vector_payloads … ON CONFLICT DO NOTHING` is the second. -/
def Database.write (db : Database) : Write → Database
  | .op o => db.step o
  | .payload signature fingerprint blob =>
    if (db.cachedPayload signature fingerprint).isSome then db
    else db.insertPayload signature fingerprint blob

/-- The database after writes. -/
def Database.writes (db : Database) (ws : List Write) : Database := ws.foldl Database.write db

/-- What holds of an owner after any writes. -/
structure Database.Exact (db : Database) : Prop where
  rows : db.JobRows
  controlled : db.Controlled

theorem Transaction.exact (ht : Transaction s db db') (h : db.Exact) : db'.Exact :=
  ht.induction (fun hstep hdb => ⟨hstep.jobRows hdb.rows, hstep.controlled hdb.rows hdb.controlled⟩) h

theorem write_exact (h : db.Exact) (w : Write) : (db.write w).Exact := by
  cases w with
  | op o => exact (step_transaction h.rows o).exact h
  | payload signature fingerprint blob =>
    by_cases hsome : (db.cachedPayload signature fingerprint).isSome = true
    · rw [Database.write, if_pos hsome]
      exact h
    · rw [Database.write, if_neg hsome]
      exact (Statement.insertPayload db signature fingerprint blob rfl
        (by simpa using hsome)).transaction.exact h

theorem writes_exact (h : db.Exact) (ws : List Write) : (db.writes ws).Exact := by
  induction ws generalizing db with
  | nil => exact h
  | cons w ws ih => exact ih (write_exact h w)

/-! ## Readers -/

theorem updateJobs_congr {p q : EmbeddingJob → Bool} (f : EmbeddingJob → EmbeddingJob)
    (h : ∀ j ∈ db.jobs, p j = q j) : db.updateJobs p f = db.updateJobs q f := by
  have hgenerations : ∀ (jobs : List EmbeddingJob) (gs : List EmbeddingGeneration),
      (∀ j ∈ jobs, p j = q j) →
      jobs.foldl (fun gs j => if p j then countsUpdate gs j (f j) else gs) gs =
        jobs.foldl (fun gs j => if q j then countsUpdate gs j (f j) else gs) gs := by
    intro jobs
    induction jobs with
    | nil => exact fun _ _ => rfl
    | cons j jobs ih =>
      intro gs hjobs
      rw [List.foldl_cons, List.foldl_cons, hjobs j List.mem_cons_self]
      exact ih _ fun j hj => hjobs j (List.mem_cons_of_mem _ hj)
  unfold Database.updateJobs
  rw [updateWhere_congr h fun _ _ _ => rfl, hgenerations db.jobs db.generations h]

/-- A live job of a generation that a full scan would find outdated is marked. -/
theorem Database.Exact.isOutdated_eq (h : db.Exact) {id : ℕ} {modality : EmbeddingModality}
    (hm : db.HasModality id modality) {status : JobStatus} (hlive : status.live = true)
    {j : EmbeddingJob} (hj : j ∈ db.jobs) :
    db.isOutdated id modality false status j = db.isOutdated id modality true status j := by
  unfold Database.isOutdated
  by_cases hid : j.generationId = id
  · by_cases hstatus : j.status = status
    · rw [h.rows.current hm hj hid]
      cases hcurrent : db.jobIsCurrent j with
      | true => rw [Bool.not_true, Bool.and_false, Bool.and_false]
      | false =>
        rw [h.controlled.marks j hj (hstatus ▸ hlive) hcurrent, Bool.or_true, Bool.or_true]
    · simp [hstatus]
  · simp only [beq_eq_false_iff_ne.mpr hid, Bool.false_and]

/-- Stale marking changes the jobs that a full scan changes. -/
theorem Database.Exact.markStaleJobs_eq (h : db.Exact) {id : ℕ} {modality : EmbeddingModality}
    (hm : db.HasModality id modality) :
    db.markStaleJobs id modality false = db.markStaleJobs id modality true := by
  have hpending : ∀ j ∈ db.jobs, db.isOutdated id modality false .pending j =
      db.isOutdated id modality true .pending j := fun j hj => h.isOutdated_eq hm rfl hj
  have hleased : db.jobs.filter (db.isOutdated id modality false .leased) =
      db.jobs.filter (db.isOutdated id modality true .leased) :=
    List.filter_congr fun j hj => h.isOutdated_eq hm rfl hj
  unfold Database.markStaleJobs
  dsimp only
  rw [hleased, updateJobs_congr EmbeddingJob.toStale hpending]

/-- A job that is pending after an update to stale was not selected. -/
theorem mem_updateJobs_toStale {p : EmbeddingJob → Bool} {j : EmbeddingJob}
    (hj : j ∈ (db.updateJobs p EmbeddingJob.toStale).jobs) (hpending : j.status = .pending) :
    j ∈ db.jobs ∧ p j = false := by
  obtain ⟨old, hold, rfl⟩ := mem_updateWhere.mp hj
  by_cases hp : p old = true
  · rw [if_pos hp, Database.afterUpdate] at hpending
    split_ifs at hpending <;> exact nomatch hpending
  · rw [if_neg hp]
    exact ⟨hold, Bool.eq_false_iff.mpr hp⟩

/-- After stale marking every pending job of the generation is current. -/
theorem Database.Exact.pending_current (h : db.Exact) {id : ℕ} {modality : EmbeddingModality}
    (hm : db.HasModality id modality) {j : EmbeddingJob}
    (hj : j ∈ (db.markStaleJobs id modality false).jobs) (hid : j.generationId = id)
    (hpending : j.status = .pending) :
    (db.markStaleJobs id modality false).currentJobMatchesSource modality j = true := by
  rw [h.markStaleJobs_eq hm] at hj ⊢
  -- the mark of the row may have been cleared, and no other column is written
  obtain ⟨old, hold, hrow⟩ := mem_updateWhere.mp hj
  have hsame : j.generationId = old.generationId ∧ j.status = old.status ∧
      j.entityId = old.entityId ∧ j.fingerprint = old.fingerprint := by
    split_ifs at hrow <;> rw [hrow] <;> exact ⟨rfl, rfl, rfl, rfl⟩
  obtain ⟨hgeneration, hstatus, hentity, hfinger⟩ := hsame
  have hpending := hstatus.symm.trans hpending
  obtain ⟨hleased, -⟩ := mem_updateJobs_toStale hold hpending
  obtain ⟨-, hnot⟩ := mem_updateJobs_toStale hleased hpending
  have hcurrent : db.currentJobMatchesSource modality old = true := by
    simpa [Database.isOutdated, hgeneration.symm.trans hid, hpending] using hnot
  show db.currentJobMatchesSource modality j = true
  cases modality
  · simpa only [Database.currentJobMatchesSource, Database.textSourceMatches, hentity, hfinger]
      using hcurrent
  · simpa only [Database.currentJobMatchesSource, Database.imageSourceMatches, hentity, hfinger]
      using hcurrent

/-- The payload that a job names is the one with its model and content. -/
theorem Database.Controlled.cached_iff (h : db.Controlled) {j : EmbeddingJob} (hj : j ∈ db.jobs)
    (id : ℕ) :
    j.cachedPayloadId = some id ↔ ∃ p ∈ db.payloads, p.payloadId = id ∧
      p.modelSignature = j.modelSignature ∧ p.fingerprint = j.fingerprint := by
  rw [h.cache j hj]
  unfold Database.cachedPayload
  rw [Option.map_eq_some_iff]
  constructor
  · rintro ⟨p, hp, rfl⟩
    have hkey := List.find?_some hp
    simp only [Bool.and_eq_true, beq_iff_eq] at hkey
    exact ⟨p, List.mem_of_find?_eq_some hp, rfl, hkey⟩
  · rintro ⟨p, hp, rfl, hsignature, hfinger⟩
    refine ⟨p, ?_, rfl⟩
    have hfind := h.keyed.payloads.find?_eq hp
    simpa only [VectorPayload.key, Prod.mk.injEq, hsignature, hfinger, Bool.decide_and,
      beq_eq_decide] using hfind

theorem Database.Controlled.cached_none_iff (h : db.Controlled) {j : EmbeddingJob}
    (hj : j ∈ db.jobs) :
    j.cachedPayloadId = none ↔ ¬∃ p ∈ db.payloads,
      p.modelSignature = j.modelSignature ∧ p.fingerprint = j.fingerprint := by
  constructor
  · rintro hnone ⟨p, hp, hkey⟩
    have hsome := (h.cached_iff hj p.payloadId).mpr ⟨p, hp, rfl, hkey⟩
    rw [hnone] at hsome
    exact nomatch hsome
  · intro hno
    cases hcached : j.cachedPayloadId with
    | none => rfl
    | some id =>
      obtain ⟨p, hp, -, hkey⟩ := (h.cached_iff hj id).mp hcached
      exact absurd ⟨p, hp, hkey⟩ hno

/-- The rows that the hints select are those of the join without them. -/
theorem Database.Exact.cachedRows_eq (h : db.Exact) {id : ℕ} {modality : EmbeddingModality}
    (hm : db.HasModality id modality) :
    (db.markStaleJobs id modality false).cachedRows id modality true =
      (db.markStaleJobs id modality false).cachedRows id modality false := by
  have hstale : (db.markStaleJobs id modality false).Exact :=
    (transaction_markStaleJobs (s := .plain) hm).exact h
  unfold Database.cachedRows
  refine flatMap_filter_congr fun j hj => ?_
  by_cases hrow : j.generationId = id ∧ j.status = .pending
  · have hcurrent := h.pending_current hm hj hrow.1 hrow.2
    simp only [hrow.1, hrow.2, hcurrent, beq_self_eq_true, decide_true, Bool.true_and,
      Bool.not_true, Bool.not_false, Bool.false_or, Bool.true_or, Bool.and_true, if_true]
    cases hcached : j.cachedPayloadId with
    | none =>
      have hno := (hstale.controlled.cached_none_iff hj).mp hcached
      rw [Option.isSome_none, if_neg Bool.false_ne_true, eq_comm, List.map_eq_nil_iff,
        List.filter_eq_nil_iff]
      intro p hp hkey
      simp only [Bool.and_eq_true, beq_iff_eq] at hkey
      exact hno ⟨p, hp, hkey⟩
    | some payloadId =>
      rw [Option.isSome_some, if_pos rfl]
      refine congrArg _ (List.filter_congr fun p hp => ?_)
      by_cases hkey : p.modelSignature = j.modelSignature ∧ p.fingerprint = j.fingerprint
      · have hnamed := (hstale.controlled.cached_iff hj p.payloadId).mpr ⟨p, hp, rfl, hkey⟩
        rw [hcached] at hnamed
        simp [hkey.1, hkey.2, hnamed]
      · rw [not_and_or] at hkey
        rcases hkey with hkey | hkey <;> simp [hkey]
  · have hfalse : (j.generationId == id && decide (j.status = .pending)) = false := by
      simpa [Bool.and_eq_false_iff, not_and_or] using hrow
    simp [hfalse]

/-! ## The result -/

/-- **The control projection is exact**, from any owner that the migration leaves and after any
writes.  So each incremental reader does what a full scan would. -/
theorem control_exact (legacy : Database) (h : legacy.Legacy) (ws : List Write) :
    let db := legacy.migrate.writes ws
    (∀ g ∈ db.generations, g.status = .building → ∀ status,
      g.counts status = db.recount g.generationId status ∧ 0 ≤ g.counts status) ∧
    (∀ j ∈ db.jobs, j.status.live = true → db.jobIsCurrent j = false → j.sourceDirty = true) ∧
    (∀ j ∈ db.jobs, j.status = .pending →
      (∀ id, j.cachedPayloadId = some id ↔ ∃ p ∈ db.payloads, p.payloadId = id ∧
        p.modelSignature = j.modelSignature ∧ p.fingerprint = j.fingerprint) ∧
      (j.cachedPayloadId = none ↔ ¬∃ p ∈ db.payloads,
        p.modelSignature = j.modelSignature ∧ p.fingerprint = j.fingerprint)) ∧
    (∀ id g m, db.generationModel id = some (g, m) →
      (∀ j ∈ db.jobs, j.generationId = id →
        db.currentJobMatchesSource m.modality j = db.jobIsCurrent j) ∧
      db.markStaleJobs id m.modality false = db.markStaleJobs id m.modality true ∧
      (db.markStaleJobs id m.modality false).cachedRows id m.modality true =
        (db.markStaleJobs id m.modality false).cachedRows id m.modality false) ∧
    ∀ g ∈ db.generations, db.generationSummary false g = db.generationSummary true g := by
  intro db
  have hexact : db.Exact := writes_exact ⟨h.jobRows, h.controlled⟩ ws
  have hcounts := hexact.controlled.counts
  refine ⟨fun g hg hb status => ?_, hexact.controlled.marks, fun j hj _ => ?_, ?_, ?_⟩
  · refine ⟨hcounts g hg hb status, ?_⟩
    rw [hcounts g hg hb status]
    exact count_nonneg _ _
  · exact ⟨hexact.controlled.cached_iff hj, hexact.controlled.cached_none_iff hj⟩
  · intro id g m hgm
    have hm := generationModel_hasModality hgm
    exact ⟨fun j hj hid => hexact.rows.current hm hj hid, hexact.markStaleJobs_eq hm,
      hexact.cachedRows_eq hm⟩
  · intro g hg
    unfold Database.generationSummary
    by_cases hb : g.status = .building
    · rw [if_neg (by simp), if_pos ⟨hb, rfl⟩]
      exact funext fun status => hcounts g hg hb status
    · rw [if_neg (by simp), if_neg fun hboth => hb hboth.1]

/-- An owner with a pending job whose counter, mark and hint are not those of the projection. -/
def unmarkedOwner : Database :=
  let fingerprint : ContentFingerprint := ⟨['a'], 1, ['b']⟩
  { Database.empty with
    models := [⟨['m'], .text, [.passage], true⟩]
    items := [⟨['i'], ['k'], ['s'], ['1'], none, fingerprint, true⟩]
    chunks := [⟨['c'], ['i'], fingerprint, true⟩]
    generations := [⟨1, ['m'], ['p'], .building, [], {}, none, true, fun _ => 7⟩]
    jobs := [⟨1, 1, ['m'], .textChunk, ['c'], ['i'], fingerprint, .pending, 0, 3, 0, none, none,
      false, some 5⟩]
    nextGeneration := 2
    nextJob := 2 }

theorem unmarkedOwner_legacy : unmarkedOwner.Legacy where
  rows := by constructor <;> simp [unmarkedOwner, EmbeddingJob.identity, Rows.Unique,
    EmbeddingGeneration.identity, EmbeddingModality.entityKind]
  keyed := by constructor <;> simp [unmarkedOwner, Rows.Unique, Database.empty]

/-- The chunk of the pending job goes, and the job is marked. -/
theorem control_exact_unmarked :
    ((unmarkedOwner.migrate.writes [.op (.deleteChunk ['c'])]).jobs.map fun j =>
      (j.status.live, j.sourceDirty)) = [(true, true)] ∧
    ∀ j ∈ (unmarkedOwner.migrate.writes [.op (.deleteChunk ['c'])]).jobs, j.status.live = true →
      (unmarkedOwner.migrate.writes [.op (.deleteChunk ['c'])]).jobIsCurrent j = false →
      j.sourceDirty = true :=
  ⟨by decide, (control_exact unmarkedOwner unmarkedOwner_legacy [.op (.deleteChunk ['c'])]).2.1⟩

end Semantic
end Neocortex
