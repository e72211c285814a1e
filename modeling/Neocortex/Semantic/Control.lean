import Neocortex.Semantic.Schema

/-!
# The control projection

The triggers of `semantic_generation_control_schema.py` keep three things beside the tables they
are derived from: the counters of a building generation, the mark of a live job whose source may
have changed, and the payload that a job could reuse.  `Controlled` says that each is exact.  No
statement breaks it, so that a reader who trusts the projection sees what a full scan would see.
-/

namespace Neocortex
namespace Semantic

open Python Rows Checks

variable {s : Scope} {db db' : Database}

/-! ## Counters -/

/-- The jobs that a counter is about. -/
def countedBy (id : ℕ) (status : JobStatus) (j : EmbeddingJob) : Bool :=
  j.generationId == id && decide (j.status = status)

/-- What a job contributes to a counter. -/
theorem ite_counted (id : ℕ) (status : JobStatus) (j : EmbeddingJob) (k : ℤ) :
    (if id = j.generationId ∧ status = j.status then k else 0) =
      oneIf (countedBy id status j) * k := by
  by_cases hj : id = j.generationId ∧ status = j.status
  · simp [countedBy, hj.1, hj.2]
  · have hnot : countedBy id status j = false := by
      rw [countedBy, Bool.and_eq_false_iff, beq_eq_false_iff_ne, decide_eq_false_iff_not]
      exact (not_and_or.mp hj).imp (fun h h' => h h'.symm) fun h h' => h h'.symm
    rw [if_neg hj, hnot, oneIf_false, zero_mul]

/-- The counters of the building generations are given numbers. -/
def Counted (generations : List EmbeddingGeneration) (n : ℕ → JobStatus → ℤ) : Prop :=
  ∀ g ∈ generations, g.status = .building → ∀ status, g.counts status = n g.generationId status

theorem Counted.congr {gs : List EmbeddingGeneration} {n n' : ℕ → JobStatus → ℤ}
    (h : Counted gs n) (hn : ∀ id status, n id status = n' id status) : Counted gs n' :=
  fun g hg hb status => (h g hg hb status).trans (hn _ _)

theorem Counted.bump {gs : List EmbeddingGeneration} {n : ℕ → JobStatus → ℤ} (h : Counted gs n)
    (id : ℕ) (status : JobStatus) (k : ℤ) :
    Counted (bump gs id status k) fun id' status' =>
      n id' status' + if id' = id ∧ status' = status then k else 0 := by
  intro g hg hb status'
  obtain ⟨g₀, hg₀, rfl⟩ := mem_updateWhere.mp hg
  by_cases hsel : (g₀.generationId == id && decide (g₀.status = .building)) = true
  · rw [if_pos hsel] at hb ⊢
    simp only [Bool.and_eq_true, beq_iff_eq, decide_eq_true_eq] at hsel
    have hcount := h g₀ hg₀ hsel.2
    by_cases hs : status' = status
    · subst hs
      simp [hsel.1, hcount status']
    · simp [hs, hcount status']
  · rw [if_neg hsel] at hb ⊢
    simp only [Bool.and_eq_true, beq_iff_eq, decide_eq_true_eq, not_and] at hsel
    have hid : g₀.generationId ≠ id := fun hid => hsel hid hb
    simp [hid, h g₀ hg₀ hb status']

/-- The counter of a job that an update takes from one count to another. -/
theorem Counted.countsUpdate {gs : List EmbeddingGeneration} {n : ℕ → JobStatus → ℤ}
    (h : Counted gs n) (old new : EmbeddingJob) :
    Counted (countsUpdate gs old new) fun id status =>
      n id status - oneIf (countedBy id status old) + oneIf (countedBy id status new) := by
  unfold Semantic.countsUpdate
  split_ifs with hsame
  · refine h.congr fun id status => ?_
    simp [countedBy, hsame.1, hsame.2]
  · refine ((h.bump old.generationId old.status (-1)).bump new.generationId new.status 1).congr
      fun id status => ?_
    rw [ite_counted, ite_counted]
    ring

/-- The counters after an update, by the jobs that it writes one after another. -/
theorem Counted.foldl_update {p : EmbeddingJob → Bool} {f f' : EmbeddingJob → EmbeddingJob}
    (hf : ∀ j, (f' j).generationId = (f j).generationId ∧ (f' j).status = (f j).status)
    (jobs : List EmbeddingJob) :
    ∀ {gs : List EmbeddingGeneration} {c : ℕ → JobStatus → ℤ},
      Counted gs (fun id status => c id status + count (countedBy id status) jobs) →
      Counted (jobs.foldl (fun gs j => if p j then Semantic.countsUpdate gs j (f j) else gs) gs)
        fun id status => c id status + count (countedBy id status) (updateWhere p f' jobs) := by
  induction jobs with
  | nil => exact fun h => h
  | cons j jobs ih =>
    intro gs c h
    rw [List.foldl_cons]
    by_cases hp : p j = true
    · rw [if_pos hp]
      refine (ih (c := fun id status => c id status + oneIf (countedBy id status (f j))) ?_).congr
        fun id status => ?_
      · refine (h.countsUpdate j (f j)).congr fun id status => ?_
        rw [count_cons]
        ring
      · rw [count_updateWhere_cons, if_pos hp]
        have hcounted : countedBy id status (f' j) = countedBy id status (f j) := by
          rw [countedBy, countedBy, (hf j).1, (hf j).2]
        rw [hcounted]
        ring
    · rw [if_neg hp]
      refine (ih (c := fun id status => c id status + oneIf (countedBy id status j)) ?_).congr
        fun id status => ?_
      · refine h.congr fun id status => ?_
        rw [count_cons]
        ring
      · rw [count_updateWhere_cons, if_neg hp]
        ring

theorem Counted.foldl_delete {p : EmbeddingJob → Bool} (jobs : List EmbeddingJob) :
    ∀ {gs : List EmbeddingGeneration} {c : ℕ → JobStatus → ℤ},
      Counted gs (fun id status => c id status + count (countedBy id status) jobs) →
      Counted (jobs.foldl
        (fun gs j => if p j then Semantic.bump gs j.generationId j.status (-1) else gs) gs)
        fun id status => c id status + count (countedBy id status) (deleteWhere p jobs) := by
  induction jobs with
  | nil => exact fun h => h
  | cons j jobs ih =>
    intro gs c h
    rw [List.foldl_cons]
    by_cases hp : p j = true
    · rw [if_pos hp]
      refine (ih (c := c) ?_).congr fun id status => ?_
      · refine (h.bump j.generationId j.status (-1)).congr fun id status => ?_
        rw [count_cons, ite_counted]
        ring
      · simp [deleteWhere, hp]
    · rw [if_neg hp]
      refine (ih (c := fun id status => c id status + oneIf (countedBy id status j)) ?_).congr
        fun id status => ?_
      · refine h.congr fun id status => ?_
        rw [count_cons]
        ring
      · simp only [deleteWhere, hp, Bool.not_false, List.filter_cons_of_pos, count_cons]
        ring

/-- The counters are those of the jobs. -/
def Database.CountsExact (db : Database) : Prop := Counted db.generations db.recount

theorem Database.CountsExact.updateJobs (h : db.CountsExact) (p : EmbeddingJob → Bool)
    (f : EmbeddingJob → EmbeddingJob) : (db.updateJobs p f).CountsExact := by
  have hbase : Counted db.generations fun id status =>
      0 + count (countedBy id status) db.jobs := h.congr fun id status => (zero_add _).symm
  refine (Counted.foldl_update (f := f) (fun j => ?_) db.jobs hbase).congr
    fun id status => zero_add _
  unfold Database.afterUpdate
  split_ifs <;> exact ⟨rfl, rfl⟩

theorem Database.CountsExact.deleteJobs (h : db.CountsExact) (p : EmbeddingJob → Bool) :
    (db.deleteJobs p).CountsExact := by
  have hbase : Counted db.generations fun id status =>
      0 + count (countedBy id status) db.jobs := h.congr fun id status => (zero_add _).symm
  exact (Counted.foldl_delete db.jobs hbase).congr fun id status => zero_add _

theorem Database.CountsExact.insertJob (h : db.CountsExact) (j : EmbeddingJob) :
    (db.insertJob j).CountsExact := by
  refine (Counted.bump h j.generationId j.status 1).congr fun id status => ?_
  rw [ite_counted, mul_one]
  show count (countedBy id status) db.jobs + oneIf (countedBy id status j) =
    count (countedBy id status) (db.jobs ++ [db.control { j with jobId := db.nextJob }])
  rw [count_append, count_cons, count_nil, add_zero]
  rfl

/-- Writes of columns of jobs that no counter is about. -/
theorem Database.CountsExact.of_map (h : db.CountsExact) (hg : db'.generations = db.generations)
    (hj : db'.jobs.map (fun j => (j.generationId, j.status)) =
      db.jobs.map fun j => (j.generationId, j.status)) : db'.CountsExact := by
  have hcount : ∀ (jobs : List EmbeddingJob) id status, count (countedBy id status) jobs =
      count (fun k : ℕ × JobStatus => k.1 == id && decide (k.2 = status))
        (jobs.map fun j => (j.generationId, j.status)) := by
    intro jobs id status
    simp only [count, List.map_map]
    rfl
  intro g hmem hb status
  rw [hg] at hmem
  refine (h g hmem hb status).trans ?_
  show count (countedBy g.generationId status) db.jobs =
    count (countedBy g.generationId status) db'.jobs
  rw [hcount, hcount, hj]

theorem countsExact_setDirty (h : db.CountsExact) (dirty : Bool) (p : EmbeddingJob → Bool) :
    (db.setDirty dirty p).CountsExact :=
  h.of_map rfl (map_updateWhere fun _ _ _ => rfl)

/-! ## Marks -/

/-- A live job whose source is not current is marked. -/
def Database.MarksExact (db : Database) : Prop :=
  ∀ j ∈ db.jobs, j.status.live = true → db.jobIsCurrent j = false → j.sourceDirty = true

theorem textSourceMatches_iff {j : EmbeddingJob} :
    db.textSourceMatches j = true ↔
      ∃ c ∈ db.chunks, c.chunkId = j.entityId ∧ c.active = true ∧ c.fingerprint = j.fingerprint ∧
        ∃ i ∈ db.items, i.itemId = c.itemId ∧ i.active = true := by
  simp [Database.textSourceMatches, List.any_eq_true, and_assoc]

theorem imageSourceMatches_iff {j : EmbeddingJob} :
    db.imageSourceMatches j = true ↔
      ∃ i ∈ db.items, i.itemId = j.entityId ∧ i.active = true ∧ i.path.isSome = true ∧
        i.fingerprint = j.fingerprint := by
  simp [Database.imageSourceMatches, List.any_eq_true, and_assoc]

/-- A statement on the sources that marks every live job whose source it takes away. -/
theorem Database.MarksExact.source (h : db.MarksExact) {items : List SemanticItem}
    {chunks : List TextChunk} {p : EmbeddingJob → Bool}
    (hp : ∀ j, j.status.live = true → p j = false → db.jobIsCurrent j = true →
      { db with items := items, chunks := chunks }.jobIsCurrent j = true) :
    ({ db with items := items, chunks := chunks }.setDirty true p).MarksExact := by
  intro j' hj' hlive hcurrent
  obtain ⟨j, hj, rfl⟩ := mem_updateWhere.mp hj'
  by_cases hsel : p j = true
  · rw [if_pos hsel]
  · rw [if_neg hsel] at hlive hcurrent ⊢
    refine h j hj hlive (Bool.eq_false_iff.mpr fun htrue => ?_)
    have hkept := hp j hlive (Bool.eq_false_iff.mpr hsel) htrue
    exact Bool.eq_false_iff.mp hcurrent hkept

/-- A statement that leaves the sources of all jobs. -/
theorem Database.MarksExact.of_current (h : db.MarksExact) {items : List SemanticItem}
    {chunks : List TextChunk}
    (hp : ∀ j, db.jobIsCurrent j = true →
      { db with items := items, chunks := chunks }.jobIsCurrent j = true) :
    { db with items := items, chunks := chunks }.MarksExact := by
  intro j hj hlive hcurrent
  refine h j hj hlive (Bool.eq_false_iff.mpr fun htrue => ?_)
  exact Bool.eq_false_iff.mp hcurrent (hp j htrue)

/-- Current jobs stay current when rows are added to the sources. -/
theorem jobIsCurrent_mono {items : List SemanticItem} {chunks : List TextChunk}
    (hitems : db.items ⊆ items) (hchunks : db.chunks ⊆ chunks) {j : EmbeddingJob}
    (h : db.jobIsCurrent j = true) :
    { db with items := items, chunks := chunks }.jobIsCurrent j = true := by
  unfold Database.jobIsCurrent at h ⊢
  cases hkind : j.entityKind <;> simp only [hkind] at h ⊢
  · obtain ⟨c, hc, hid, ha, hf, i, hi, hitem⟩ := textSourceMatches_iff.mp h
    exact textSourceMatches_iff.mpr ⟨c, hchunks hc, hid, ha, hf, i, hitems hi, hitem⟩
  · obtain ⟨i, hi, hitem⟩ := imageSourceMatches_iff.mp h
    exact imageSourceMatches_iff.mpr ⟨i, hitems hi, hitem⟩

/-- A job that is not marked by a write to the items `ids`, when the other items stay. -/
theorem jobIsCurrent_items {items : List SemanticItem} {ids : List Text}
    (hkept : ∀ i ∈ db.items, i.itemId ∉ ids → i ∈ items) {j : EmbeddingJob}
    (hlive : j.status.live = true) (hp : db.jobOfItem ids j = false)
    (h : db.jobIsCurrent j = true) :
    { db with items := items }.jobIsCurrent j = true := by
  unfold Database.jobIsCurrent at h ⊢
  unfold Database.jobOfItem at hp
  rw [hlive, Bool.true_and, Bool.or_eq_false_iff] at hp
  cases hkind : j.entityKind <;> simp only [hkind] at h hp ⊢
  · obtain ⟨c, hc, hid, ha, hf, i, hi, hitem, hactive⟩ := textSourceMatches_iff.mp h
    refine textSourceMatches_iff.mpr ⟨c, hc, hid, ha, hf, i, hkept i hi fun hmem => ?_, hitem,
      hactive⟩
    have hnone := hp.2
    simp only [decide_true, Bool.true_and, List.any_eq_false, Bool.and_eq_true, beq_iff_eq,
      List.contains_eq_mem, decide_eq_true_eq, not_and] at hnone
    exact hnone c hc hid (hitem ▸ hmem)
  · obtain ⟨i, hi, hid, hitem⟩ := imageSourceMatches_iff.mp h
    refine imageSourceMatches_iff.mpr ⟨i, hkept i hi fun hmem => ?_, hid, hitem⟩
    have hnone := hp.1
    simp only [decide_true, Bool.true_and, List.contains_eq_mem, decide_eq_false_iff_not] at hnone
    exact hnone (hid ▸ hmem)

/-- A job that is not marked by a write to the chunks `ids`, when the other chunks stay. -/
theorem jobIsCurrent_chunks {chunks : List TextChunk} {ids : List Text}
    (hkept : ∀ c ∈ db.chunks, c.chunkId ∉ ids → c ∈ chunks) {j : EmbeddingJob}
    (hlive : j.status.live = true) (hp : jobOfChunk ids j = false)
    (h : db.jobIsCurrent j = true) :
    { db with chunks := chunks }.jobIsCurrent j = true := by
  unfold Database.jobIsCurrent at h ⊢
  unfold jobOfChunk at hp
  rw [hlive, Bool.true_and] at hp
  cases hkind : j.entityKind <;> simp only [hkind] at h hp ⊢
  · obtain ⟨c, hc, hid, hrest⟩ := textSourceMatches_iff.mp h
    refine textSourceMatches_iff.mpr ⟨c, hkept c hc fun hmem => ?_, hid, hrest⟩
    simp only [decide_true, Bool.true_and, List.contains_eq_mem, decide_eq_false_iff_not] at hp
    exact hp (hid ▸ hmem)
  · exact h

/-- The item of a row that an update leaves as it was for the jobs. -/
theorem jobIsCurrent_sameItem (hunique : Unique SemanticItem.itemId db.items) {id : Text}
    {old new : SemanticItem} (hold : (db.items.find? fun i => i.itemId == id) = some old)
    (hsame : itemChanged old new = false) {j : EmbeddingJob} (h : db.jobIsCurrent j = true) :
    { db with items := updateWhere (fun i => i.itemId == id) (fun _ => new) db.items }.jobIsCurrent
      j = true := by
  have hid : old.itemId = id := by simpa using List.find?_some hold
  simp only [itemChanged, decide_eq_false_iff_not, not_or, not_not, ne_eq] at hsame
  obtain ⟨hitem, -, -, -, hfinger, hactive, hpath⟩ := hsame
  have hkept : ∀ i ∈ db.items, ∃ i' ∈ updateWhere (fun i => i.itemId == id) (fun _ => new) db.items,
      i'.itemId = i.itemId ∧ i'.active = i.active ∧ i'.path.isSome = i.path.isSome ∧
        i'.fingerprint = i.fingerprint := by
    intro i hi
    refine ⟨_, mem_updateWhere.mpr ⟨i, hi, rfl⟩, ?_⟩
    by_cases hsel : (i.itemId == id) = true
    · rw [if_pos hsel]
      obtain rfl := hunique.eq hi (List.mem_of_find?_eq_some hold)
        ((beq_iff_eq.mp hsel).trans hid.symm)
      refine ⟨hitem.symm, hactive.symm, ?_, hfinger.symm⟩
      rw [← Option.not_isNone, ← Option.not_isNone, hpath]
    · rw [if_neg hsel]
      exact ⟨rfl, rfl, rfl, rfl⟩
  unfold Database.jobIsCurrent at h ⊢
  cases hkind : j.entityKind <;> simp only [hkind] at h ⊢
  · obtain ⟨c, hc, hcid, ha, hf, i, hi, hrow, hrowActive⟩ := textSourceMatches_iff.mp h
    obtain ⟨i', hi', hid', hactive', -, -⟩ := hkept i hi
    exact textSourceMatches_iff.mpr ⟨c, hc, hcid, ha, hf, i', hi', hid'.trans hrow,
      hactive'.trans hrowActive⟩
  · obtain ⟨i, hi, hrow, hrowActive, hrowPath, hrowFinger⟩ := imageSourceMatches_iff.mp h
    obtain ⟨i', hi', hid', hactive', hpath', hfinger'⟩ := hkept i hi
    exact imageSourceMatches_iff.mpr ⟨i', hi', hid'.trans hrow, hactive'.trans hrowActive,
      hpath'.trans hrowPath, hfinger'.trans hrowFinger⟩

theorem jobIsCurrent_congr {j j' : EmbeddingJob} (hkind : j'.entityKind = j.entityKind)
    (hentity : j'.entityId = j.entityId) (hfinger : j'.fingerprint = j.fingerprint) :
    db.jobIsCurrent j' = db.jobIsCurrent j := by
  unfold Database.jobIsCurrent Database.textSourceMatches Database.imageSourceMatches
  rw [hkind, hentity, hfinger]

theorem Database.MarksExact.updateJobs (h : db.MarksExact) {p : EmbeddingJob → Bool}
    {f : EmbeddingJob → EmbeddingJob} (hrow : ∀ j ∈ db.jobs, p j = true → SameRow j (f j)) :
    (db.updateJobs p f).MarksExact := by
  intro j' hj' hlive hcurrent
  obtain ⟨j, hj, rfl⟩ := mem_updateWhere.mp hj'
  by_cases hsel : p j = true
  · have hsame := hrow j hj hsel
    rw [if_pos hsel] at hlive hcurrent ⊢
    unfold Database.afterUpdate at hlive hcurrent ⊢
    by_cases hchanged : identityChanged j (f j) = true
    · rw [if_pos hchanged] at hlive ⊢
      exact hlive
    · rw [if_neg hchanged] at hlive hcurrent ⊢
      simp only [identityChanged, decide_eq_true_eq, not_or, not_not] at hchanged
      rw [hsame.sourceDirty]
      refine h j hj (hchanged.1 ▸ hlive) ?_
      rw [← jobIsCurrent_congr hsame.entityKind hsame.entityId hchanged.2.2.2.2.2.symm]
      exact hcurrent
  · rw [if_neg hsel] at hlive hcurrent ⊢
    exact h j hj hlive hcurrent

theorem Database.MarksExact.insertJob (h : db.MarksExact) (j : EmbeddingJob) :
    (db.insertJob j).MarksExact := by
  intro j' hj' hlive hcurrent
  rcases List.mem_append.mp hj' with hj' | hj'
  · exact h j' hj' hlive hcurrent
  · rw [List.mem_singleton.mp hj'] at hlive ⊢
    exact hlive

/-- The source predicate of the model of a generation is the one of the kind of its jobs. -/
theorem Database.JobRows.current (h : db.JobRows) {id : ℕ} {modality : EmbeddingModality}
    (hm : db.HasModality id modality) {j : EmbeddingJob} (hj : j ∈ db.jobs)
    (hid : j.generationId = id) :
    db.currentJobMatchesSource modality j = db.jobIsCurrent j := by
  obtain ⟨g, m, hg, hm, rfl⟩ := hm
  have hjob := List.mem_map_of_mem (f := EmbeddingJob.identity) hj
  obtain ⟨m', hm', hsignature', hkind⟩ := h.kind _ hjob
  have hsignature := h.signature _ hjob _
    (List.mem_map_of_mem (f := EmbeddingGeneration.identity) (generation_spec hg).1)
    ((generation_spec hg).2.trans hid.symm)
  obtain rfl : m' = m := h.uniqueModels.eq hm' (loadModel_spec hm).1
    ((hsignature'.trans hsignature.symm).trans (loadModel_spec hm).2.symm)
  have hkind : m'.modality.entityKind = j.entityKind := hkind
  unfold Database.jobIsCurrent
  rw [← hkind]
  cases m'.modality <;> rfl

/-! ## Cached payloads -/

/-- A job names the payload of its model and content. -/
def Database.CacheExact (db : Database) : Prop :=
  ∀ j ∈ db.jobs, j.cachedPayloadId = db.cachedPayload j.modelSignature j.fingerprint

theorem Database.CacheExact.updateJobs (h : db.CacheExact) {p : EmbeddingJob → Bool}
    {f : EmbeddingJob → EmbeddingJob} (hrow : ∀ j ∈ db.jobs, p j = true → SameRow j (f j)) :
    (db.updateJobs p f).CacheExact := by
  intro j' hj'
  obtain ⟨j, hj, rfl⟩ := mem_updateWhere.mp hj'
  by_cases hsel : p j = true
  · have hsame := hrow j hj hsel
    rw [if_pos hsel]
    unfold Database.afterUpdate
    by_cases hchanged : identityChanged j (f j) = true
    · rw [if_pos hchanged]
      rfl
    · rw [if_neg hchanged]
      simp only [identityChanged, decide_eq_true_eq, not_or, not_not] at hchanged
      rw [hsame.cachedPayloadId, ← hchanged.2.2.2.2.1, ← hchanged.2.2.2.2.2]
      exact h j hj
  · rw [if_neg hsel]
    exact h j hj

theorem Database.CacheExact.insertJob (h : db.CacheExact) (j : EmbeddingJob) :
    (db.insertJob j).CacheExact := by
  intro j' hj'
  rcases List.mem_append.mp hj' with hj' | hj'
  · exact h j' hj'
  · rw [List.mem_singleton.mp hj']
    rfl

/-- Writes to jobs of neither their content nor their hint. -/
theorem Database.CacheExact.setDirty (h : db.CacheExact) (dirty : Bool) (p : EmbeddingJob → Bool) :
    (db.setDirty dirty p).CacheExact := by
  intro j' hj'
  obtain ⟨j, hj, rfl⟩ := mem_updateWhere.mp hj'
  split_ifs <;> exact h j hj

theorem cachedPayload_insertPayload (db : Database) (signature other : Text)
    (fingerprint otherFingerprint : ContentFingerprint) (blob : List UInt8)
    (hnone : db.cachedPayload signature fingerprint = none) :
    (db.insertPayload signature fingerprint blob).cachedPayload other otherFingerprint =
      if other = signature ∧ otherFingerprint = fingerprint then some db.nextPayload
      else db.cachedPayload other otherFingerprint := by
  unfold Database.cachedPayload Database.insertPayload at *
  rw [List.find?_append]
  by_cases hsame : other = signature ∧ otherFingerprint = fingerprint
  · obtain ⟨rfl, rfl⟩ := hsame
    rw [Option.map_eq_none_iff] at hnone
    simp [hnone]
  · rw [if_neg hsame]
    have hmiss : ([⟨db.nextPayload, signature, fingerprint, blob⟩] : List VectorPayload).find?
        (fun p => p.modelSignature == other && p.fingerprint == otherFingerprint) = none := by
      simp only [List.find?_singleton, Bool.and_eq_true, beq_iff_eq, ite_eq_right_iff,
        reduceCtorEq, imp_false]
      exact fun hboth => hsame ⟨hboth.1.symm, hboth.2.symm⟩
    rw [hmiss, Option.or_none]

theorem Database.CacheExact.insertPayload (h : db.CacheExact) {signature : Text}
    {fingerprint : ContentFingerprint} (blob : List UInt8)
    (hnone : db.cachedPayload signature fingerprint = none) :
    (db.insertPayload signature fingerprint blob).CacheExact := by
  intro j' hj'
  obtain ⟨j, hj, rfl⟩ := mem_updateWhere.mp hj'
  rw [cachedPayload_insertPayload db _ _ _ _ blob hnone]
  by_cases hsel : (j.modelSignature == signature && j.fingerprint == fingerprint) = true
  · rw [if_pos hsel]
    simp only [Bool.and_eq_true, beq_iff_eq] at hsel
    rw [if_pos hsel]
  · rw [if_neg hsel]
    simp only [Bool.and_eq_true, beq_iff_eq] at hsel
    rw [if_neg hsel]
    exact h j hj

end Semantic
end Neocortex
