import Neocortex.Semantic.Schema

/-!
# The history of the heads

A generation that is no longer building is closed: neither its row nor its members are ever
written again.  Only a complete finalization moves the head of a model, and only to a
generation that was started from the head.  So the heads of a model are a chain, each the base
of the next, whose members stay as they were published.
-/

namespace Neocortex
namespace Semantic

open Python Rows Checks

variable {s : Scope} {db db' : Database} {id : ℕ}

/-! ## Closed generations -/

/-- No row of a generation is building. -/
def ClosedIn (id : ℕ) (generations : List EmbeddingGeneration) : Prop :=
  ∀ g ∈ generations, g.generationId = id → g.status ≠ .building

/-- A generation was started and is no longer building: it is ready, has failed or is gone. -/
structure Database.Closed (db : Database) (id : ℕ) : Prop where
  started : id < db.nextGeneration
  status : ClosedIn id db.generations

/-- The row and the members of a generation are the same, and it stays closed. -/
structure Frozen (id : ℕ) (db db' : Database) : Prop where
  closed : db'.Closed id
  generation : db'.generation id = db.generation id
  members : db'.membersOf id = db.membersOf id

theorem Frozen.refl (h : db.Closed id) : Frozen id db db := ⟨h, rfl, rfl⟩

theorem Frozen.trans {db₁ db₂ db₃ : Database} (h : Frozen id db₁ db₂) (h' : Frozen id db₂ db₃) :
    Frozen id db₁ db₃ :=
  ⟨h'.closed, h'.generation.trans h.generation, h'.members.trans h.members⟩

/-- Rows of generations in which a closed one is the same. -/
def KeepsClosed (id : ℕ) (gs gs' : List EmbeddingGeneration) : Prop :=
  ClosedIn id gs →
    ClosedIn id gs' ∧ (gs'.find? fun g => g.generationId == id) = gs.find? fun g => g.generationId == id

theorem KeepsClosed.refl (gs : List EmbeddingGeneration) : KeepsClosed id gs gs :=
  fun h => ⟨h, rfl⟩

theorem KeepsClosed.trans {gs₁ gs₂ gs₃ : List EmbeddingGeneration} (h : KeepsClosed id gs₁ gs₂)
    (h' : KeepsClosed id gs₂ gs₃) : KeepsClosed id gs₁ gs₃ := fun hclosed =>
  have hnext := h' (h hclosed).1
  ⟨hnext.1, hnext.2.trans (h hclosed).2⟩

/-- A write of building generations. -/
theorem keepsClosed_updateWhere {gs : List EmbeddingGeneration} {p : EmbeddingGeneration → Bool}
    {f : EmbeddingGeneration → EmbeddingGeneration}
    (hf : ∀ g ∈ gs, p g = true → g.status = .building ∧ (f g).generationId = g.generationId) :
    KeepsClosed id gs (updateWhere p f gs) := by
  intro h
  have hsame : ∀ g ∈ gs, g.generationId = id → (if p g then f g else g) = g := by
    intro g hg hid
    rw [if_neg]
    exact fun hp => h g hg hid (hf g hg hp).1
  refine ⟨fun g' hg' heq => ?_, ?_⟩
  · obtain ⟨g, hg, rfl⟩ := List.mem_map.mp hg'
    have hid : g.generationId = id := by
      by_cases hp : p g = true
      · rw [if_pos hp, (hf g hg hp).2] at heq
        exact heq
      · rwa [if_neg hp] at heq
    rw [hsame g hg hid]
    exact h g hg hid
  · rw [find?_updateWhere fun g hg hp => by rw [(hf g hg hp).2]]
    cases hfind : gs.find? fun g => g.generationId == id with
    | none => rfl
    | some g =>
      have hid : g.generationId = id := by simpa using List.find?_some hfind
      rw [Option.map_some, hsame g (List.mem_of_find?_eq_some hfind) hid]

theorem keepsClosed_bump (gs : List EmbeddingGeneration) (other : ℕ) (status : JobStatus) (n : ℤ) :
    KeepsClosed id gs (bump gs other status n) := by
  refine keepsClosed_updateWhere fun g _ hp => ⟨?_, rfl⟩
  simp only [Bool.and_eq_true, decide_eq_true_eq] at hp
  exact hp.2

theorem keepsClosed_countsUpdate (gs : List EmbeddingGeneration) (old new : EmbeddingJob) :
    KeepsClosed id gs (countsUpdate gs old new) := by
  unfold countsUpdate
  split_ifs
  · exact KeepsClosed.refl gs
  · exact (keepsClosed_bump _ _ _ _).trans (keepsClosed_bump _ _ _ _)

theorem keepsClosed_foldl {f : List EmbeddingGeneration → EmbeddingJob → List EmbeddingGeneration}
    (hf : ∀ gs j, KeepsClosed id gs (f gs j)) (jobs : List EmbeddingJob)
    (gs : List EmbeddingGeneration) : KeepsClosed id gs (jobs.foldl f gs) := by
  induction jobs generalizing gs with
  | nil => exact KeepsClosed.refl gs
  | cons j jobs ih => exact (hf gs j).trans (ih (f gs j))

/-- A write that leaves the members. -/
theorem Database.Closed.frozen (h : db.Closed id)
    (hnext : db'.nextGeneration = db.nextGeneration)
    (hg : KeepsClosed id db.generations db'.generations) (hm : db'.members = db.members) :
    Frozen id db db' := by
  refine ⟨⟨hnext ▸ h.started, (hg h.status).1⟩, (hg h.status).2, ?_⟩
  rw [Database.membersOf, Database.membersOf, hm]

/-- A write that leaves the generations and the members. -/
theorem Database.Closed.frozen_of_eq (h : db.Closed id)
    (hnext : db'.nextGeneration = db.nextGeneration) (hg : db'.generations = db.generations)
    (hm : db'.members = db.members) : Frozen id db db' :=
  h.frozen hnext (by rw [hg]; exact KeepsClosed.refl _) hm

/-- A write to the members of other generations. -/
theorem Database.Closed.frozen_members (h : db.Closed id)
    (hnext : db'.nextGeneration = db.nextGeneration) (hg : db'.generations = db.generations)
    (hm : db'.membersOf id = db.membersOf id) : Frozen id db db' := by
  refine ⟨⟨hnext ▸ h.started, hg ▸ h.status⟩, ?_, hm⟩
  rw [Database.generation, Database.generation, hg]

theorem Database.Closed.ne_of_writable (h : db.Closed id) {other : ℕ} (hw : db.Writable s other) :
    other ≠ id := by
  obtain ⟨g, hg, hb, -⟩ := hw
  rintro rfl
  exact h.status g (generation_spec hg).1 (generation_spec hg).2 hb

theorem Database.Closed.source (h : db.Closed id) (hsource : SourceWrite db db') :
    Frozen id db db' := by
  obtain ⟨items, chunks, rfl | ⟨p, rfl⟩⟩ := hsource
  · exact h.frozen_of_eq rfl rfl rfl
  · exact h.frozen_of_eq rfl rfl rfl

theorem membersOf_insertMember {m : GenerationMember} (hne : m.generationId ≠ id) :
    (db.insertMember m).membersOf id = db.membersOf id := by
  unfold Database.insertMember
  split_ifs
  · rfl
  · simp [Database.membersOf, List.filter_append, hne]

theorem membersOf_upsertMember {m : GenerationMember} (hne : m.generationId ≠ id) :
    (db.upsertMember m).membersOf id = db.membersOf id := by
  unfold Database.upsertMember
  by_cases hany : db.members.any (sameMember m.generationId m.entityKind m.entityId) = true
  · rw [if_pos hany]
    refine filter_updateWhere fun other _ hp => ?_
    simp only [sameMember, Bool.and_eq_true, beq_iff_eq] at hp
    exact ⟨beq_eq_false_iff_ne.mpr (hp.1.1 ▸ hne), beq_eq_false_iff_ne.mpr hne⟩
  · rw [if_neg hany]
    exact membersOf_insertMember hne

theorem generations_insertMember (m : GenerationMember) :
    (db.insertMember m).generations = db.generations := by
  unfold Database.insertMember
  split_ifs <;> rfl

theorem Database.Closed.insertMember (h : db.Closed id) {m : GenerationMember}
    (hne : m.generationId ≠ id) : Frozen id db (db.insertMember m) := by
  refine h.frozen_members ?_ (generations_insertMember m) (membersOf_insertMember hne)
  unfold Database.insertMember
  split_ifs <;> rfl

theorem Database.Closed.upsertMember (h : db.Closed id) {m : GenerationMember}
    (hne : m.generationId ≠ id) : Frozen id db (db.upsertMember m) := by
  refine h.frozen_members ?_ ?_ (membersOf_upsertMember hne)
  · unfold Database.upsertMember Database.insertMember
    dsimp only
    split_ifs <;> rfl
  · unfold Database.upsertMember Database.insertMember
    dsimp only
    split_ifs <;> rfl

theorem Database.Closed.insertGeneration (h : db.Closed id) (call : StartCall)
    (head : Option ℕ) : Frozen id db (db.insertGeneration call head) := by
  have hne : db.nextGeneration ≠ id := h.started.ne'
  refine ⟨⟨Nat.lt_succ_of_lt h.started, fun g hg hid => ?_⟩, ?_, rfl⟩
  · rcases List.mem_append.mp hg with hg | hg
    · exact h.status g hg hid
    · rw [List.mem_singleton.mp hg] at hid
      exact absurd hid hne
  · have hlast : ∀ g : EmbeddingGeneration, g.generationId = db.nextGeneration →
        ((db.generations ++ [g]).find? fun g => g.generationId == id) =
          db.generations.find? fun g => g.generationId == id := by
      intro g hg
      rw [List.find?_append, List.find?_cons_of_neg (by simpa [hg] using hne), List.find?_nil,
        Option.or_none]
    exact hlast _ rfl

/-- A statement leaves a closed generation as it is. -/
theorem Statement.frozen (hstep : Statement s db db') (h : db.Closed id) : Frozen id db db' := by
  cases hstep with
  | registerModel m =>
    unfold Database.registerModel
    split_ifs
    · exact Frozen.refl h
    · exact h.frozen_of_eq rfl rfl rfl
  | insertItem i => exact h.source (sourceWrite_insertItem db i)
  | updateItem id new => exact h.source (sourceWrite_updateItem db id new)
  | deleteItem id => exact h.source (sourceWrite_deleteItem db id)
  | insertChunk c => exact h.source (sourceWrite_insertChunk db c)
  | updateChunk id new => exact h.source (sourceWrite_updateChunk db id new)
  | deleteChunk id => exact h.source (sourceWrite_deleteChunk db id)
  | insertJob j _ => exact h.frozen rfl (keepsClosed_bump _ _ _ _) rfl
  | updateJobs p f _ _ _ =>
    refine h.frozen rfl (keepsClosed_foldl (fun gs j => ?_) _ _) rfl
    split_ifs
    · exact keepsClosed_countsUpdate gs j (f j)
    · exact KeepsClosed.refl gs
  | deleteJobs p =>
    refine h.frozen rfl (keepsClosed_foldl (fun gs j => ?_) _ _) rfl
    split_ifs
    · exact keepsClosed_bump gs _ _ _
    · exact KeepsClosed.refl gs
  | clearDirty other modality p _ _ => exact h.frozen_of_eq rfl rfl rfl
  | insertPayload signature fingerprint blob _ _ => exact h.frozen_of_eq rfl rfl rfl
  | insertMember m hw => exact h.insertMember (h.ne_of_writable hw)
  | upsertMember m hw => exact h.upsertMember (h.ne_of_writable hw)
  | deleteMembers p hw =>
    refine h.frozen_members rfl rfl (filter_deleteWhere fun m hm hid => ?_)
    rw [Bool.eq_false_iff]
    exact fun hp => h.ne_of_writable (hw m hm hp) (by simpa using hid)
  | insertGeneration call m _ => exact h.insertGeneration call _
  | updateGenerations p f hf =>
    exact h.frozen rfl (keepsClosed_updateWhere fun g hg hp =>
      ⟨(hf g hg hp).building, (hf g hg hp).generationId⟩) rfl
  | deleteGeneration other _ _ _ =>
    refine h.frozen rfl (fun hclosed => ⟨?_, ?_⟩) rfl
    · exact fun g hg => hclosed g (List.mem_filter.mp hg).1
    · refine find?_deleteWhere fun g hg hid => ?_
      have hnot := hclosed g hg (by simpa using hid)
      simp [hnot]
  | publish signature expected other _ _ =>
    unfold Database.publishHead
    split
    · exact h.frozen_of_eq rfl rfl rfl
    · exact h.frozen_of_eq rfl rfl rfl

theorem Transaction.frozen (ht : Transaction s db db') (h : db.Closed id) : Frozen id db db' := by
  induction ht with
  | refl => exact Frozen.refl h
  | tail _ hstep ih => exact ih.trans (hstep.frozen ih.closed)

theorem step_frozen (hrows : db.JobRows) (h : db.Closed id) (op : Op) :
    Frozen id db (db.step op) := (step_transaction hrows op).frozen h

/-- A run leaves a closed generation as it is. -/
theorem run_frozen (hrows : db.JobRows) (h : db.Closed id) (ops : List Op) :
    Frozen id db (db.run ops) := by
  induction ops generalizing db with
  | nil => exact Frozen.refl h
  | cons op ops ih =>
    have hstep := step_frozen hrows h op
    exact hstep.trans (ih (step_jobRows hrows op) hstep.closed)

/-! ## The head of a model -/

/-- Only a finalization moves a head. -/
theorem Statement.heads (hs : s ≠ .heads) (hstep : Statement s db db') : db'.heads = db.heads := by
  have hsource : SourceWrite db db' → db'.heads = db.heads := by
    rintro ⟨items, chunks, rfl | ⟨p, rfl⟩⟩ <;> rfl
  cases hstep with
  | registerModel m =>
    unfold Database.registerModel
    split_ifs <;> rfl
  | insertItem i => exact hsource (sourceWrite_insertItem db i)
  | updateItem id new => exact hsource (sourceWrite_updateItem db id new)
  | deleteItem id => exact hsource (sourceWrite_deleteItem db id)
  | insertChunk c => exact hsource (sourceWrite_insertChunk db c)
  | updateChunk id new => exact hsource (sourceWrite_updateChunk db id new)
  | deleteChunk id => exact hsource (sourceWrite_deleteChunk db id)
  | insertMember m _ =>
    unfold Database.insertMember
    split_ifs <;> rfl
  | upsertMember m _ =>
    unfold Database.upsertMember Database.insertMember
    dsimp only
    split_ifs <;> rfl
  | publish signature expected id hs' _ => exact absurd hs' hs
  | _ => rfl

theorem Transaction.heads (hs : s ≠ .heads) (ht : Transaction s db db') :
    db'.heads = db.heads := by
  induction ht with
  | refl => rfl
  | tail _ hstep ih => exact (hstep.heads hs).trans ih

/-- A publication writes the heads only. -/
theorem publishHead_eq (db : Database) (signature : Text) (expected : Option ℕ) (id : ℕ) :
    ∃ heads, db.publishHead signature expected id = { db with heads := heads } := by
  cases expected with
  | none => exact ⟨_, rfl⟩
  | some old => exact ⟨_, rfl⟩

theorem publishedHeadId_publishHead {signature : Text} {expected : Option ℕ}
    (h : db.publishedHeadId signature = expected) (id : ℕ) (other : Text) :
    (db.publishHead signature expected id).publishedHeadId other =
      if other = signature then some id else db.publishedHeadId other := by
  cases expected with
  | none =>
    have hnone : (db.heads.find? fun h => h.1 == signature) = none := by
      simpa [Database.publishedHeadId] using h
    simp only [Database.publishHead, Database.publishedHeadId, List.find?_append]
    by_cases hother : other = signature
    · subst hother
      simp [hnone]
    · rw [if_neg hother, List.find?_cons_of_neg (by simpa using Ne.symm hother)]
      simp
  | some old =>
    obtain ⟨row, hrow, hold⟩ := Option.map_eq_some_iff.mp h
    have hsignature : row.1 = signature := by simpa using List.find?_some hrow
    simp only [Database.publishHead, Database.publishedHeadId]
    have hkey : ∀ row ∈ db.heads, (row.1 == signature && row.2 == old) = true →
        ((row.1, id).1 == other) = (row.1 == other) := fun _ _ _ => rfl
    rw [find?_updateWhere hkey, Option.map_map]
    by_cases hother : other = signature
    · subst hother
      rw [if_pos rfl, hrow]
      simp [hsignature, hold]
    · rw [if_neg hother]
      refine Option.map_congr fun row' hrow' => ?_
      have hne : row'.1 = other := by simpa using List.find?_some hrow'
      simp [hne, hother]

/-- What a generation is when it becomes the head of its model. -/
structure Database.Published (db : Database) (signature : Text) (g : EmbeddingGeneration) :
    Prop where
  generation : db.generation g.generationId = some g
  ready : g.status = .ready
  model : g.modelSignature = signature
  copied : g.baseCloneComplete = true
  done : ∀ j ∈ db.jobs, j.generationId = g.generationId → j.status = .done
  covered : ∀ j ∈ db.jobs, j.generationId = g.generationId →
    ∃ m ∈ db.membersOf g.generationId, m.entityKind = j.entityKind ∧ m.entityId = j.entityId
  current : ∀ m ∈ db.membersOf g.generationId, db.memberMatchesSource m = true

/-- Without a job that is live, in error or stale, every job is done. -/
theorem recount_done {call : FinalizeCall} {g : EmbeddingGeneration}
    (h : finalizationStatus call g (db.recount id) = some false) {j : EmbeddingJob}
    (hj : j ∈ db.jobs) (hid : j.generationId = id) : j.status = .done := by
  obtain ⟨hlive, hrest⟩ := finalizationStatus_cases h
  obtain ⟨herror, hstale⟩ := hrest rfl
  have hnonneg : ∀ status, 0 ≤ db.recount id status := fun status => count_nonneg _ _
  have hzero : db.recount id j.status ≠ 0 := by
    have hpos : 0 < db.jobs.countP fun other =>
        other.generationId == id && decide (other.status = j.status) :=
      List.countP_pos_iff.mpr ⟨j, hj, by simp [hid]⟩
    rw [Database.recount, count_eq_countP]
    exact Int.natCast_ne_zero.mpr hpos.ne'
  have hpending := hnonneg .pending
  have hleased := hnonneg .leased
  cases hstatus : j.status with
  | done => rfl
  | pending =>
    rw [hstatus] at hzero
    omega
  | leased =>
    rw [hstatus] at hzero
    omega
  | error =>
    rw [hstatus] at hzero
    exact absurd herror hzero
  | stale =>
    rw [hstatus] at hzero
    exact absurd hstale hzero

theorem mem_membersOf {m : GenerationMember} :
    m ∈ db.membersOf id ↔ m ∈ db.members ∧ m.generationId = id := by
  simp [Database.membersOf]

/-- The members that a complete finalization leaves are those of the sources. -/
theorem cleaned_current {call : FinalizeCall} {model : EmbeddingModel} {m : GenerationMember}
    (hm : m ∈ (db.cleaned call model).membersOf call.generationId) :
    (db.cleaned call model).memberMatchesSource m = true := by
  obtain ⟨hmem, hid⟩ := mem_membersOf.mp hm
  have hkept := (mem_deleteWhere.mp hmem).2
  simp only [hid, BEq.rfl, Bool.true_and, Database.obsolete, Bool.or_eq_false_iff,
    Bool.not_eq_false'] at hkept
  exact hkept.2

theorem finalize_published {call : FinalizeCall}
    (h : db.finalizeEmbeddingGeneration call = some (db', .ready)) :
    ∃ g signature, db'.Published signature g ∧
      g.baseGenerationId = db.publishedHeadId signature ∧
      ∀ other, db'.publishedHeadId other =
        if other = signature then some g.generationId else db.publishedHeadId other := by
  obtain ⟨g₀, m, g, hgm, hg, hc, ⟨hno, -⟩ | ⟨hstatus, hmember, ⟨-, hhead, rfl⟩ | ⟨hno, -⟩⟩⟩ :=
    finalize_cases h
  · cases hno
  · obtain ⟨hg₀, hb₀, hm⟩ := generationModel_cases hgm
    obtain ⟨g', hg', hcore⟩ := (sameCore_settled db call m).generation hg₀
    obtain rfl : g = g' := Option.some_inj.mp (hg.symm.trans hg')
    have hb : g.status = .building := (congrArg EmbeddingGeneration.status hcore).trans hb₀
    have hid : g.generationId = call.generationId := (generation_spec hg).2
    have hgc : (db.cleaned call m).generation call.generationId = some g := hg
    have hrow := generation_persistFinalization hgc hb .ready
      ((db.settled call m).recount call.generationId)
    have hsignature : g.modelSignature = m.modelSignature :=
      (congrArg EmbeddingGeneration.modelSignature hcore).trans (loadModel_spec hm).2.symm
    refine ⟨{ g with status := .ready, counts := (db.settled call m).recount call.generationId },
      m.modelSignature, ?_, hhead.symm, ?_⟩
    · obtain ⟨heads, heq⟩ := publishHead_eq ((db.cleaned call m).persistFinalization
        call.generationId .ready ((db.settled call m).recount call.generationId)) m.modelSignature
        g.baseGenerationId call.generationId
      rw [heq]
      refine ⟨?_, rfl, hsignature, hc, ?_, ?_, ?_⟩
      · exact (congrArg (Database.generation _) hid).trans hrow
      · intro j hj hjid
        exact recount_done hstatus hj (hjid.trans hid)
      · intro j hj hjid
        have hjid : j.generationId = call.generationId := hjid.trans hid
        have hdone := recount_done hstatus hj hjid
        obtain ⟨member, hfind⟩ := Option.isSome_iff_exists.mp (hmember j hj hjid hdone)
        have hsame := List.find?_some hfind
        simp only [sameMember, Bool.and_eq_true, beq_iff_eq, decide_eq_true_eq] at hsame
        refine ⟨member, mem_membersOf.mpr ⟨List.mem_of_find?_eq_some hfind, ?_⟩, hsame.1.2,
          hsame.2⟩
        exact hsame.1.1.trans (hjid.trans hid.symm)
      · intro member hmem
        refine @cleaned_current _ call m _ ?_
        exact hid ▸ hmem
    · intro other
      have hpersisted : ((db.cleaned call m).persistFinalization call.generationId .ready
          ((db.settled call m).recount call.generationId)).publishedHeadId m.modelSignature =
            g.baseGenerationId := hhead
      rw [publishedHeadId_publishHead hpersisted, hid]
      rfl
  · cases hno

/-- A partial finalization, or one that loses to another head, moves no head. -/
theorem finalize_unpublished {call : FinalizeCall} {result : Finalization}
    (h : db.finalizeEmbeddingGeneration call = some (db', result)) (hresult : result ≠ .ready) :
    db'.heads = db.heads := by
  obtain ⟨g₀, m, g, -, -, -, ⟨-, rfl⟩ | ⟨-, -, ⟨hready, -⟩ | ⟨-, rfl⟩⟩⟩ := finalize_cases h
  · rfl
  · exact absurd hready hresult
  · rfl

/-! ## The history of the heads of a model -/

/-- A transaction leaves the head of a model, or moves it to a generation that was started from
it and is published. -/
theorem step_head (hrows : db.JobRows) (op : Op) (signature : Text) :
    (db.step op).publishedHeadId signature = db.publishedHeadId signature ∨
      ∃ g, (db.step op).publishedHeadId signature = some g.generationId ∧
        g.baseGenerationId = db.publishedHeadId signature ∧
        (db.step op).Published signature g := by
  have hsame : (db.step op).heads = db.heads →
      (db.step op).publishedHeadId signature = db.publishedHeadId signature := by
    intro h
    rw [Database.publishedHeadId, Database.publishedHeadId, h]
  cases hperform : db.perform op with
  | none =>
    rw [step_of_none hperform]
    exact .inl rfl
  | some r =>
    obtain ⟨db', outcome⟩ := r
    have ht := perform_transaction hrows.unique_generations hperform
    rw [← step_of_some hperform] at ht
    cases op with
    | finalize call =>
      obtain ⟨⟨db'', result⟩, hfinalize, heq⟩ := Option.map_eq_some_iff.mp hperform
      obtain ⟨rfl, -⟩ := Prod.mk.inj heq
      rw [step_of_some hperform] at hsame ⊢
      by_cases hready : result = .ready
      · subst hready
        obtain ⟨g, model, hpublished, hbase, hheads⟩ := finalize_published hfinalize
        by_cases hmodel : signature = model
        · subst hmodel
          exact .inr ⟨g, (hheads signature).trans (if_pos rfl), hbase, hpublished⟩
        · exact .inl ((hheads signature).trans (if_neg hmodel))
      · exact .inl (hsame (finalize_unpublished hfinalize hready))
    | _ =>
      refine .inl (hsame (ht.heads ?_))
      exact fun hs => nomatch hs

/-- A ready generation descends from another by the bases of ready generations. -/
inductive Database.Descends (db : Database) (ancestor : ℕ) : ℕ → Prop where
  | refl : db.Descends ancestor ancestor
  | base {g : EmbeddingGeneration} {base : ℕ} (hg : db.generation g.generationId = some g)
      (hready : g.status = .ready) (hbase : g.baseGenerationId = some base)
      (h : db.Descends ancestor base) : db.Descends ancestor g.generationId

theorem Database.Descends.trans {a b c : ℕ} (h : db.Descends a b) (h' : db.Descends b c) :
    db.Descends a c := by
  induction h' with
  | refl => exact h
  | base hg hready hbase _ ih => exact .base hg hready hbase ih

/-- A generation that is not building is closed. -/
theorem closed_of_status (hrows : db.JobRows) {g : EmbeddingGeneration} (hg : g ∈ db.generations)
    (hstatus : g.status ≠ .building) : db.Closed g.generationId := by
  refine ⟨hrows.generationBound _ (List.mem_map.mpr ⟨g, hg, rfl⟩), fun other hother hid => ?_⟩
  rw [hrows.unique_generations.eq hother hg hid]
  exact hstatus

theorem closed_of_ready (hrows : db.JobRows) {g : EmbeddingGeneration} (hg : g ∈ db.generations)
    (hready : g.status = .ready) : db.Closed g.generationId := by
  refine closed_of_status hrows hg ?_
  rw [hready]
  exact fun h => nomatch h

theorem Database.Descends.run {a b : ℕ} (hrows : db.JobRows) (h : db.Descends a b)
    (ops : List Op) : (db.run ops).Descends a b := by
  induction h with
  | refl => exact .refl
  | base hg hready hbase _ ih =>
    have hfrozen := run_frozen hrows (closed_of_ready hrows (generation_spec hg).1 hready) ops
    exact .base (hfrozen.generation.trans hg) hready hbase ih

/-- The later heads of a model descend from its head. -/
theorem run_head (hrows : db.JobRows) {signature : Text} {head : ℕ}
    (h : db.publishedHeadId signature = some head) (ops : List Op) :
    ∃ head', (db.run ops).publishedHeadId signature = some head' ∧
      (db.run ops).Descends head head' := by
  induction ops generalizing db head with
  | nil => exact ⟨head, h, .refl⟩
  | cons op ops ih =>
    have hrows' := step_jobRows hrows op
    rcases step_head hrows op signature with hsame | ⟨g, hhead, hbase, hpublished⟩
    · exact ih hrows' (hsame.trans h)
    · obtain ⟨head', hhead', hdescends⟩ := ih hrows' hhead
      have hlink : (db.step op).Descends head g.generationId :=
        .base hpublished.generation hpublished.ready (hbase.trans h) .refl
      exact ⟨head', hhead', (hlink.run hrows' ops).trans hdescends⟩

theorem run_jobRows (hrows : db.JobRows) (ops : List Op) : (db.run ops).JobRows :=
  (run_induction (I := fun _ => True) (fun _ _ _ => trivial) hrows trivial ops).1

/-- **The published heads of a model are one linear history**, whatever transactions have run:
a head only moves from the current one to a generation that was started from it, and then every
job of that generation is done, has its member, and every member is that of its source; the
later heads descend from it; a generation that is no longer building stays as it is with its
members; and a finalization that is partial or loses leaves the heads and what is ready. -/
theorem heads_linear (ops : List Op) (op : Op) :
    let db := Database.empty.run ops
    (∀ signature,
      (db.step op).publishedHeadId signature = db.publishedHeadId signature ∨
        ∃ g, (db.step op).publishedHeadId signature = some g.generationId ∧
          g.baseGenerationId = db.publishedHeadId signature ∧
          (db.step op).Published signature g) ∧
    (∀ signature head, db.publishedHeadId signature = some head → ∀ later,
      ∃ head', (db.run later).publishedHeadId signature = some head' ∧
        (db.run later).Descends head head') ∧
    (∀ id, db.Closed id → ∀ later, (db.run later).Closed id ∧
      (db.run later).generation id = db.generation id ∧
      (db.run later).membersOf id = db.membersOf id) ∧
    ∀ call db' result, db.finalizeEmbeddingGeneration call = some (db', result) →
      result ≠ .ready → db'.heads = db.heads ∧
        ∀ g ∈ db.generations, g.status = .ready → db'.generation g.generationId = some g ∧
          db'.membersOf g.generationId = db.membersOf g.generationId := by
  intro db
  have hrows : db.JobRows := run_jobRows jobRows_empty ops
  refine ⟨step_head hrows op, fun _ _ => run_head hrows, fun id hclosed later => ?_, ?_⟩
  · have hfrozen := run_frozen hrows hclosed later
    exact ⟨hfrozen.closed, hfrozen.generation, hfrozen.members⟩
  · intro call db' result hfinalize hresult
    refine ⟨finalize_unpublished hfinalize hresult, fun g hg hready => ?_⟩
    have hfrozen := (transaction_finalize hfinalize).frozen (closed_of_ready hrows hg hready)
    exact ⟨hfrozen.generation.trans (generation_unique hrows.unique_generations hg),
      hfrozen.members⟩

/-- A generation that is published with one member, and a second one that has its copy and a member
of its own. -/
def secondHeadOps : List Op :=
  [.registerModel ⟨['m'], .image, [.image], true⟩,
    .insertItem ⟨['i'], ['k'], ['s'], ['1'], some ['f'], ⟨['a'], 1, ['b']⟩, true⟩,
    .start ⟨['m'], ['p'], [], none, false, false⟩,
    .enqueue ⟨1, [['i']], .image, .image, 3, 10, none, fun _ => .different⟩,
    .claim ⟨1, ['w'], 1, 5, 11, fun _ => true⟩,
    .complete 1 ['w'] [1] 12 ⟨1, none, []⟩,
    .finalize ⟨1, false, fun _ => false, fun _ => false, fun _ => false⟩,
    .insertItem ⟨['j'], ['k'], ['t'], ['1'], some ['g'], ⟨['c'], 1, ['d']⟩, true⟩,
    .start ⟨['m'], ['p'], [], none, false, false⟩,
    .clonePage 2 true,
    .clonePage 2 false,
    .enqueue ⟨2, [['j']], .image, .image, 3, 20, none, fun _ => .different⟩,
    .claim ⟨2, ['w'], 1, 5, 21, fun _ => true⟩,
    .complete 2 ['w'] [2] 22 ⟨1, none, []⟩]

/-- The second generation becomes the head after the first. -/
theorem heads_linear_second :
    (Database.empty.run secondHeadOps).publishedHeadId ['m'] = some 1 ∧
    ((Database.empty.run secondHeadOps).step
      (.finalize ⟨2, false, fun _ => false, fun _ => false, fun _ => false⟩)).publishedHeadId
        ['m'] = some 2 ∧
    ((Database.empty.run secondHeadOps).membersOf 2).length = 2 ∧
    ∃ g, g.generationId = 2 ∧ g.baseGenerationId = some 1 ∧
      ((Database.empty.run secondHeadOps).step
        (.finalize ⟨2, false, fun _ => false, fun _ => false, fun _ => false⟩)).Published ['m'] g := by
  have hbefore : (Database.empty.run secondHeadOps).publishedHeadId ['m'] = some 1 := by decide
  have hafter : ((Database.empty.run secondHeadOps).step
      (.finalize ⟨2, false, fun _ => false, fun _ => false, fun _ => false⟩)).publishedHeadId
        ['m'] = some 2 := by decide
  refine ⟨hbefore, hafter, by decide, ?_⟩
  rcases (heads_linear secondHeadOps
    (.finalize ⟨2, false, fun _ => false, fun _ => false, fun _ => false⟩)).1 ['m'] with
      hsame | ⟨g, hhead, hbase, hpublished⟩
  · rw [hafter, hbefore] at hsame
    exact absurd hsame (by decide)
  · rw [hafter, Option.some_inj] at hhead
    exact ⟨g, hhead.symm, hbase.trans hbefore, hpublished⟩

end Semantic
end Neocortex
