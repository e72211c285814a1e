import Neocortex.Library.Tables
import Neocortex.Semantic.Heads

/-!
# The resumable copy of a base

A candidate takes the members of the published generation it was started from page by page.
Between two pages jobs may be enqueued and members rebound, and the copy may stop before any of
its transactions and go on later: an interruption is the absence of a transaction.

* `Database.MemberIds`: the identifiers of members grow, and an entity has one member;
* `Transaction.copying`, `enqueue_rebinds`, `clone_frame`: what the other transactions leave of a
  candidate whose base is being copied;
* `Copied.page`: a page reads the next rows of the base, or completes the copy, and never raises;
* `base_clone_resumes`: the whole copy.
-/

namespace Neocortex
namespace Semantic

open Python Rows Checks

variable {s : Scope} {db db' : Database} {id base : ℕ}

/-! ## The identifiers of the members -/

/-- `UNIQUE(generation_id,entity_kind,entity_id)`. -/
def GenerationMember.entity (m : GenerationMember) : ℕ × SemanticEntityKind × Text :=
  (m.generationId, m.entityKind, m.entityId)

theorem sameMember_iff {m : GenerationMember} {kind : SemanticEntityKind} {entityId : Text} :
    sameMember id kind entityId m = true ↔ m.entity = (id, kind, entityId) := by
  simp [sameMember, GenerationMember.entity, and_assoc]

/-- The members stand in the order of their identifiers, each given by `AUTOINCREMENT`, and an
entity has one member in a generation. -/
structure Database.MemberIds (db : Database) : Prop where
  sorted : db.members.Pairwise fun a b => a.memberId < b.memberId
  positive : ∀ m ∈ db.members, 0 < m.memberId
  bound : ∀ m ∈ db.members, m.memberId < db.nextMember
  next : 0 < db.nextMember
  entities : Unique GenerationMember.entity db.members

namespace Database.MemberIds

theorem of_eq (h : db.MemberIds) (hm : db'.members = db.members)
    (hnext : db'.nextMember = db.nextMember) : db'.MemberIds := by
  obtain ⟨hsorted, hpositive, hbound, hpos, hentities⟩ := h
  constructor
  · rwa [hm]
  · rwa [hm]
  · rwa [hm, hnext]
  · rwa [hnext]
  · rwa [hm]

theorem source (h : db.MemberIds) (hsource : SourceWrite db db') : db'.MemberIds := by
  obtain ⟨items, chunks, rfl | ⟨p, rfl⟩⟩ := hsource
  · exact h.of_eq rfl rfl
  · exact h.of_eq rfl rfl

theorem insertMember (h : db.MemberIds) (m : GenerationMember) : (db.insertMember m).MemberIds := by
  unfold Database.insertMember
  split_ifs with hany
  · exact h
  · refine ⟨List.pairwise_append.mpr ⟨h.sorted, List.pairwise_singleton _ _, ?_⟩, ?_, ?_, ?_, ?_⟩
    · intro a ha b hb
      rw [List.mem_singleton.mp hb]
      exact h.bound a ha
    · intro a ha
      rcases List.mem_append.mp ha with ha | ha
      · exact h.positive a ha
      · rw [List.mem_singleton.mp ha]
        exact h.next
    · intro a ha
      rcases List.mem_append.mp ha with ha | ha
      · exact Nat.lt_succ_of_lt (h.bound a ha)
      · rw [List.mem_singleton.mp ha]
        exact Nat.lt_succ_self _
    · exact Nat.succ_pos _
    · refine unique_append h.entities fun a ha heq => hany ?_
      exact List.any_eq_true.mpr ⟨a, ha, sameMember_iff.mpr heq⟩

theorem upsertMember (h : db.MemberIds) (m : GenerationMember) : (db.upsertMember m).MemberIds := by
  unfold Database.upsertMember
  dsimp only
  split_ifs
  · have hid : ∀ p : GenerationMember → Bool, (updateWhere p (fun old : GenerationMember =>
        { m with memberId := old.memberId, modelSignature := old.modelSignature })
        db.members).map GenerationMember.memberId = db.members.map GenerationMember.memberId :=
      fun p => map_updateWhere fun _ _ _ => rfl
    have hmem : ∀ a ∈ updateWhere (sameMember m.generationId m.entityKind m.entityId)
        (fun old : GenerationMember =>
          { m with memberId := old.memberId, modelSignature := old.modelSignature }) db.members,
        ∃ b ∈ db.members, b.memberId = a.memberId := by
      intro a ha
      obtain ⟨b, hb, rfl⟩ := mem_updateWhere.mp ha
      exact ⟨b, hb, by split_ifs <;> rfl⟩
    refine ⟨?_, fun a ha => ?_, fun a ha => ?_, h.next, ?_⟩
    · rw [← List.pairwise_map (f := GenerationMember.memberId) (R := (· < ·)), hid,
        List.pairwise_map]
      exact h.sorted
    · obtain ⟨b, hb, hab⟩ := hmem a ha
      exact hab ▸ h.positive b hb
    · obtain ⟨b, hb, hab⟩ := hmem a ha
      exact hab ▸ h.bound b hb
    · refine unique_updateWhere h.entities fun a ha hp => ?_
      exact (sameMember_iff.mp hp).symm
  · exact h.insertMember m

theorem deleteMembers (h : db.MemberIds) (p : GenerationMember → Bool) :
    (db.deleteMembers p).MemberIds :=
  ⟨h.sorted.sublist List.filter_sublist, fun m hm => h.positive m (List.mem_filter.mp hm).1,
    fun m hm => h.bound m (List.mem_filter.mp hm).1, h.next, unique_deleteWhere h.entities⟩

theorem unique (h : db.MemberIds) : Unique GenerationMember.memberId db.members :=
  h.sorted.imp fun h => h.ne

end Database.MemberIds

theorem Statement.memberIds (hstep : Statement s db db') (h : db.MemberIds) : db'.MemberIds := by
  cases hstep with
  | registerModel m =>
    unfold Database.registerModel
    split_ifs
    · exact h
    · exact h.of_eq rfl rfl
  | insertItem i => exact h.source (sourceWrite_insertItem db i)
  | updateItem id new => exact h.source (sourceWrite_updateItem db id new)
  | deleteItem id => exact h.source (sourceWrite_deleteItem db id)
  | insertChunk c => exact h.source (sourceWrite_insertChunk db c)
  | updateChunk id new => exact h.source (sourceWrite_updateChunk db id new)
  | deleteChunk id => exact h.source (sourceWrite_deleteChunk db id)
  | insertMember m _ => exact h.insertMember m
  | upsertMember m _ => exact h.upsertMember m
  | deleteMembers p _ => exact h.deleteMembers p
  | publish signature expected other _ _ =>
    unfold Database.publishHead
    split
    · exact h.of_eq rfl rfl
    · exact h.of_eq rfl rfl
  | _ => exact h.of_eq rfl rfl

theorem memberIds_empty : Database.empty.MemberIds := by
  constructor <;> simp [Database.empty]

/-! ## A candidate whose base is being copied -/

/-- The candidate is building and its copy of a ready base stands at a cursor. -/
def Database.CopyingAt (db : Database) (id base : ℕ) (c : Option BaseCloneCursor) : Prop :=
  ∃ g, db.generation id = some g ∧ g.status = .building ∧ g.baseGenerationId = some base ∧
    g.baseCloneComplete = false ∧ g.cursor.baseClone = c ∧ db.validBase g base

variable {c : Option BaseCloneCursor}

/-- Another row of the generation in the same state of its copy. -/
structure SameCopy (g g' : EmbeddingGeneration) : Prop where
  status : g'.status = g.status
  base : g'.baseGenerationId = g.baseGenerationId
  complete : g'.baseCloneComplete = g.baseCloneComplete
  cursor : g'.cursor.baseClone = g.cursor.baseClone
  model : g'.modelSignature = g.modelSignature

theorem SameCopy.refl (g : EmbeddingGeneration) : SameCopy g g := ⟨rfl, rfl, rfl, rfl, rfl⟩

theorem SameCopy.of_core {g g' : EmbeddingGeneration} (h : g'.core = g.core) : SameCopy g g' where
  status := show g'.core.status = g.core.status by rw [h]
  base := show g'.core.baseGenerationId = g.core.baseGenerationId by rw [h]
  complete := show g'.core.baseCloneComplete = g.core.baseCloneComplete by rw [h]
  cursor := show g'.core.cursor.baseClone = g.core.cursor.baseClone by rw [h]
  model := show g'.core.modelSignature = g.core.modelSignature by rw [h]

/-- The base of a candidate is closed. -/
theorem closed_of_validBase (hrows : db.JobRows) {g : EmbeddingGeneration}
    (h : db.validBase g base) : db.Closed base := by
  obtain ⟨b, hb, hready, -⟩ := h
  obtain ⟨hmem, rfl⟩ := generation_spec hb
  exact closed_of_ready hrows hmem hready

theorem Database.CopyingAt.closed_base (hrows : db.JobRows) (h : db.CopyingAt id base c) :
    db.Closed base := by
  obtain ⟨g, -, -, -, -, -, hvalid⟩ := h
  exact closed_of_validBase hrows hvalid

/-- A write that leaves the row of the candidate in the state of its copy. -/
theorem Database.CopyingAt.congr (h : db.CopyingAt id base c)
    (hgeneration : ∀ g, db.generation id = some g → ∃ g', db'.generation id = some g' ∧
      SameCopy g g') (hbase : db'.generation base = db.generation base) :
    db'.CopyingAt id base c := by
  obtain ⟨g, hg, hbuilding, hgbase, hcomplete, hcursor, b, hb, hready, hmodel⟩ := h
  obtain ⟨g', hg', hsame⟩ := hgeneration g hg
  exact ⟨g', hg', hsame.status.trans hbuilding, hsame.base.trans hgbase,
    hsame.complete.trans hcomplete, hsame.cursor.trans hcursor, b, hbase.trans hb, hready,
    hmodel.trans hsame.model.symm⟩

theorem Database.CopyingAt.not_closed (h : db.CopyingAt id base c) : ¬ db.Closed id := by
  intro hclosed
  obtain ⟨g, hg, hbuilding, -⟩ := h
  exact hclosed.status g (generation_spec hg).1 (generation_spec hg).2 hbuilding

/-- Outside of enqueues and pages nothing is written to the members of a candidate. -/
theorem Database.CopyingAt.ne_of_writable (hs : s ≠ .members) (h : db.CopyingAt id base c)
    {other : ℕ} (hw : db.Writable s other) : other ≠ id := by
  obtain ⟨g, hg, -, hwritable⟩ := hw
  obtain ⟨g', hg', -, -, hcomplete, -⟩ := h
  rintro rfl
  rw [Option.some_inj.mp (hg.symm.trans hg'), hcomplete] at hwritable
  exact hwritable.elim hs Bool.false_ne_true

theorem Statement.membersOf_copying (hs : s ≠ .members) (hstep : Statement s db db')
    (h : db.CopyingAt id base c) : db'.membersOf id = db.membersOf id := by
  have hsource : ∀ {db' : Database}, SourceWrite db db' → db'.membersOf id = db.membersOf id := by
    rintro db' ⟨items, chunks, rfl | ⟨p, rfl⟩⟩
    · rfl
    · rfl
  cases hstep with
  | registerModel m =>
    unfold Database.registerModel
    split_ifs
    · rfl
    · rfl
  | insertItem i => exact hsource (sourceWrite_insertItem db i)
  | updateItem id new => exact hsource (sourceWrite_updateItem db id new)
  | deleteItem id => exact hsource (sourceWrite_deleteItem db id)
  | insertChunk c => exact hsource (sourceWrite_insertChunk db c)
  | updateChunk id new => exact hsource (sourceWrite_updateChunk db id new)
  | deleteChunk id => exact hsource (sourceWrite_deleteChunk db id)
  | insertMember m hw => exact membersOf_insertMember (h.ne_of_writable hs hw)
  | upsertMember m hw => exact membersOf_upsertMember (h.ne_of_writable hs hw)
  | deleteMembers p hw =>
    refine filter_deleteWhere fun m hm hid => ?_
    rw [Bool.eq_false_iff]
    exact fun hp => h.ne_of_writable hs (hw m hm hp) (by simpa using hid)
  | publish signature expected other _ _ =>
    unfold Database.publishHead
    split
    · rfl
    · rfl
  | _ => rfl

/-- A statement leaves the row of a candidate in the state of its copy, or closes it. -/
theorem Statement.generation_copying (hs : s ≠ .members) (hstep : Statement s db db')
    (hrows : db.JobRows) (h : db.CopyingAt id base c) :
    (∀ g, db.generation id = some g → ∃ g', db'.generation id = some g' ∧ SameCopy g g') ∨
      db'.Closed id := by
  obtain ⟨g₀, hg₀, hbuilding, hgbase, -⟩ := h
  have hstarted : id < db.nextGeneration := by
    obtain ⟨hmem, hid⟩ := generation_spec hg₀
    exact hid ▸ hrows.generationBound _ (List.mem_map.mpr ⟨g₀, hmem, rfl⟩)
  have hsame : ∀ {db' : Database}, db'.generations = db.generations →
      ∀ g, db.generation id = some g → ∃ g', db'.generation id = some g' ∧ SameCopy g g' := by
    intro db' heq g hg
    refine ⟨g, ?_, .refl g⟩
    rwa [Database.generation, heq]
  have hsource : ∀ {db' : Database}, SourceWrite db db' →
      ∀ g, db.generation id = some g → ∃ g', db'.generation id = some g' ∧ SameCopy g g' := by
    rintro db' ⟨items, chunks, rfl | ⟨p, rfl⟩⟩
    · exact hsame rfl
    · exact hsame rfl
  have hcore : ∀ {db' : Database}, SameCore db db' →
      ∀ g, db.generation id = some g → ∃ g', db'.generation id = some g' ∧ SameCopy g g' := by
    intro db' hcore g hg
    obtain ⟨g', hg', heq⟩ := hcore.generation hg
    exact ⟨g', hg', .of_core heq⟩
  cases hstep with
  | registerModel m =>
    unfold Database.registerModel
    split_ifs
    · exact .inl (hsame rfl)
    · exact .inl (hsame rfl)
  | insertItem i => exact .inl (hsource (sourceWrite_insertItem db i))
  | updateItem id new => exact .inl (hsource (sourceWrite_updateItem db id new))
  | deleteItem id => exact .inl (hsource (sourceWrite_deleteItem db id))
  | insertChunk c => exact .inl (hsource (sourceWrite_insertChunk db c))
  | updateChunk id new => exact .inl (hsource (sourceWrite_updateChunk db id new))
  | deleteChunk id => exact .inl (hsource (sourceWrite_deleteChunk db id))
  | insertJob j _ => exact .inl (hcore (sameCore_insertJob db j))
  | updateJobs p f _ _ _ => exact .inl (hcore (sameCore_updateJobs db p f))
  | deleteJobs p => exact .inl (hcore (sameCore_deleteJobs db p))
  | clearDirty other modality p _ _ => exact .inl (hsame rfl)
  | insertPayload signature fingerprint blob _ _ => exact .inl (hsame rfl)
  | insertMember m _ => exact .inl (hcore (sameCore_insertMember db m))
  | upsertMember m _ => exact .inl (hcore (sameCore_upsertMember db m))
  | deleteMembers p _ => exact .inl (hsame rfl)
  | insertGeneration call m _ =>
    refine .inl fun g hg => ⟨g, ?_, .refl g⟩
    have hfind : db.generations.find? (fun g => g.generationId == id) = some g := hg
    unfold Database.insertGeneration Database.generation
    rw [List.find?_append, hfind, Option.some_or]
  | updateGenerations p f hf =>
    have hfind : ({ db with generations := updateWhere p f db.generations } : Database).generation
        id = (db.generation id).map fun g => if p g then f g else g :=
      find?_updateWhere fun g hg hp => by rw [(hf g hg hp).generationId]
    have hmem := (generation_spec hg₀).1
    by_cases hp : p g₀ = true
    · have hadvance := hf g₀ hmem hp
      by_cases hopen : (f g₀).status = .building
      · refine .inl fun g hg => ⟨f g, ?_, ?_⟩
        · obtain rfl := Option.some_inj.mp (hg₀.symm.trans hg)
          rw [hfind, hg, Option.map_some, if_pos hp]
        · obtain rfl := Option.some_inj.mp (hg₀.symm.trans hg)
          have hsome : g₀.baseGenerationId ≠ none := by
            rw [hgbase]
            exact Option.some_ne_none base
          obtain ⟨hcursor, hcomplete⟩ := hadvance.clone hs hsome
          exact ⟨hopen.trans hbuilding.symm, hadvance.baseGenerationId, hcomplete, hcursor,
            hadvance.modelSignature⟩
      · refine .inr ⟨hstarted, fun g hg hid => ?_⟩
        obtain ⟨g₁, hg₁, rfl⟩ := mem_updateWhere.mp hg
        have hid₁ : g₁.generationId = id := by
          by_cases hp₁ : p g₁ = true
          · rwa [if_pos hp₁, (hf g₁ hg₁ hp₁).generationId] at hid
          · rwa [if_neg hp₁] at hid
        have heq := hrows.unique_generations.eq hg₁ hmem (hid₁.trans (generation_spec hg₀).2.symm)
        rw [heq, if_pos hp]
        exact hopen
    · refine .inl fun g hg => ⟨g, ?_, .refl g⟩
      obtain rfl := Option.some_inj.mp (hg₀.symm.trans hg)
      rw [hfind, hg, Option.map_some, if_neg hp]
  | deleteGeneration other _ _ _ =>
    by_cases hother : other = id
    · refine .inr ⟨hstarted, fun g hg hid hopen => ?_⟩
      have hkept := (List.mem_filter.mp hg).2
      simp [hother, hid, hopen] at hkept
    · refine .inl fun g hg => ⟨g, ?_, .refl g⟩
      rw [← hg]
      refine find?_deleteWhere fun g _ hid => ?_
      have hne : g.generationId ≠ other := fun h => hother (h.symm.trans (by simpa using hid))
      simp [hne]
  | publish signature expected other _ _ =>
    unfold Database.publishHead
    split
    · exact .inl (hsame rfl)
    · exact .inl (hsame rfl)

/-- What a transaction other than an enqueue and a page leaves of a candidate. -/
theorem Transaction.copying (hs : s ≠ .members) (ht : Transaction s db db') (hrows : db.JobRows)
    (h : db.CopyingAt id base c) :
    db'.JobRows ∧ ((db'.CopyingAt id base c ∧ db'.membersOf id = db.membersOf id) ∨
      db'.Closed id) := by
  induction ht with
  | refl => exact ⟨hrows, .inl ⟨h, rfl⟩⟩
  | tail _ hstep ih =>
    obtain ⟨hrows', hcopy | hclosed⟩ := ih
    · obtain ⟨hcopying, hmembers⟩ := hcopy
      refine ⟨hstep.jobRows hrows', ?_⟩
      refine (hstep.generation_copying hs hrows' hcopying).imp_left fun hgeneration => ?_
      have hfrozen := hstep.frozen (hcopying.closed_base hrows')
      exact ⟨hcopying.congr hgeneration hfrozen.generation,
        (hstep.membersOf_copying hs hcopying).trans hmembers⟩
    · exact ⟨hstep.jobRows hrows', .inr (hstep.frozen hclosed).closed⟩

/-! ## An enqueue between two pages -/

/-- The members that are copies after some rebinds: those there were, but for the rebound
entities. -/
structure Rebinds (call : EnqueueCall) (rebound : List Text) (db db' : Database) : Prop where
  kept : ∀ m ∈ db.members, m.baseMemberId ≠ none → m ∈ db'.members ∨
    (m.generationId = call.generationId ∧ m.entityKind = call.modality.entityKind ∧
      m.entityId ∈ rebound)
  copies : ∀ m ∈ db'.members, m.baseMemberId ≠ none → m ∈ db.members

section Rebinds

variable {call : EnqueueCall} {rebound more : List Text} {db₁ db₂ db₃ : Database}

theorem Rebinds.of_eq (hm : db₂.members = db₁.members) : Rebinds call rebound db₁ db₂ :=
  ⟨fun _ hmem _ => .inl (hm ▸ hmem), fun _ hmem _ => hm ▸ hmem⟩

theorem Rebinds.trans (h : Rebinds call rebound db₁ db₂) (h' : Rebinds call more db₂ db₃) :
    Rebinds call (rebound ++ more) db₁ db₃ := by
  refine ⟨fun m hm hcopy => ?_, fun m hm hcopy => h.copies m (h'.copies m hm hcopy) hcopy⟩
  rcases h.kept m hm hcopy with hm' | ⟨hgeneration, hkind, hrebound⟩
  · rcases h'.kept m hm' hcopy with hm'' | ⟨hgeneration, hkind, hrebound⟩
    · exact .inl hm''
    · exact .inr ⟨hgeneration, hkind, List.mem_append_right _ hrebound⟩
  · exact .inr ⟨hgeneration, hkind, List.mem_append_left _ hrebound⟩

theorem Rebinds.unchanged (h : Rebinds call rebound db₁ db₂) (hm : db₃.members = db₂.members) :
    Rebinds call rebound db₁ db₃ :=
  ⟨by rw [hm]; exact h.kept, by rw [hm]; exact h.copies⟩

theorem rebinds_insertMember {m : GenerationMember} (hbase : m.baseMemberId = none) :
    Rebinds call rebound db (db.insertMember m) := by
  unfold Database.insertMember
  split_ifs
  · exact .of_eq rfl
  · refine ⟨fun x hx _ => .inl (List.mem_append_left _ hx), fun x hx hcopy => ?_⟩
    rcases List.mem_append.mp hx with hx | hx
    · exact hx
    · rw [List.mem_singleton.mp hx] at hcopy
      exact absurd hbase hcopy

theorem rebinds_upsertMember {m : GenerationMember} (hbase : m.baseMemberId = none)
    (hgeneration : m.generationId = call.generationId)
    (hkind : m.entityKind = call.modality.entityKind) :
    Rebinds call [m.entityId] db (db.upsertMember m) := by
  unfold Database.upsertMember
  by_cases hany : db.members.any (sameMember m.generationId m.entityKind m.entityId) = true
  · rw [if_pos hany]
    refine ⟨fun x hx hcopy => ?_, fun x hx hcopy => ?_⟩
    · by_cases hsame : sameMember m.generationId m.entityKind m.entityId x = true
      · simp only [sameMember, Bool.and_eq_true, beq_iff_eq, decide_eq_true_eq] at hsame
        exact .inr ⟨hsame.1.1.trans hgeneration, hsame.1.2.trans hkind, by simp [hsame.2]⟩
      · exact .inl (mem_updateWhere.mpr ⟨x, hx, by rw [if_neg hsame]⟩)
    · obtain ⟨y, hy, rfl⟩ := mem_updateWhere.mp hx
      by_cases hsame : sameMember m.generationId m.entityKind m.entityId y = true
      · rw [if_pos hsame] at hcopy
        exact absurd hbase hcopy
      · rw [if_neg hsame]
        exact hy
  · rw [if_neg hany]
    exact rebinds_insertMember hbase

/-- The member that makes place is the one of the rebound entity. -/
theorem rebinds_clearRebound {m : GenerationMember} (hids : db₁.MemberIds) (hm : m ∈ db₁.members)
    (hkind : m.entityKind = call.modality.entityKind) (h : Rebinds call rebound db₁ db₂) :
    Rebinds call (rebound ++ [m.entityId]) db₁ (db₂.clearRebound call m) := by
  have hweak : Rebinds call (rebound ++ [m.entityId]) db₁ db₂ := h.trans (.of_eq rfl)
  unfold Database.clearRebound
  by_cases hown : m.generationId = call.generationId
  · rw [if_pos hown]
    refine ⟨fun x hx hcopy => ?_, fun x hx hcopy => h.copies x (mem_deleteWhere.mp hx).1 hcopy⟩
    by_cases hid : x.memberId = m.memberId
    · rw [hids.unique.eq hx hm hid]
      exact .inr ⟨hown, hkind, by simp⟩
    · refine (hweak.kept x hx hcopy).imp_left fun hx' => mem_deleteWhere.mpr ⟨hx', ?_⟩
      simp [hid]
  · rw [if_neg hown]
    exact hweak

theorem rebinds_selectQueueRows (hids : db₁.MemberIds) (entries : List QueueEntry)
    (hentries : ∀ e ∈ entries, ∀ m, e.member = some m → m ∈ db₁.members ∧
      m.entityKind = call.modality.entityKind ∧ m.entityId = e.row.entityId) :
    ∀ {db : Database} (selection : QueueSelection), Rebinds call selection.rebound db₁ db →
      Rebinds call (selectQueueRows call entries db selection).2.rebound db₁
        (selectQueueRows call entries db selection).1 := by
  induction entries with
  | nil => exact fun _ h => h
  | cons e entries ih =>
    intro db selection h
    have ih := @ih fun e' he' => hentries e' (List.mem_cons_of_mem _ he')
    unfold selectQueueRows
    split
    · rename_i m itemRevisionId chunkRevisionId hreusable
      have hmember : e.member = some m := by
        unfold QueueEntry.reusable at hreusable
        cases hmem : e.member with
        | none => simp [hmem] at hreusable
        | some m' =>
          simp only [hmem] at hreusable
          split_ifs at hreusable
          split at hreusable
          · cases hreusable
          · rw [Option.some_inj, Prod.mk.injEq] at hreusable
            rw [hreusable.1]
      obtain ⟨hm, hkind, hentity⟩ := hentries e List.mem_cons_self m hmember
      have hclear := rebinds_clearRebound hids hm hkind h
      have hupsert : Rebinds call [e.row.entityId] (db.clearRebound call m)
          ((db.clearRebound call m).upsertMember
            (m.reboundTo call e.row itemRevisionId chunkRevisionId)) :=
        @rebinds_upsertMember (db.clearRebound call m) call
          (m.reboundTo call e.row itemRevisionId chunkRevisionId) rfl rfl rfl
      have hbound := hclear.trans hupsert
      have hdone : Rebinds call (selection.rebound ++ [e.row.entityId]) db₁
          ((db.clearRebound call m).upsertMember
            (m.reboundTo call e.row itemRevisionId chunkRevisionId)) := by
        refine ⟨fun x hx hcopy => (hbound.kept x hx hcopy).imp_right fun hx' => ?_, hbound.copies⟩
        refine ⟨hx'.1, hx'.2.1, ?_⟩
        have hmem := hx'.2.2
        simp only [List.mem_append, List.mem_singleton, hentity, or_assoc, or_self] at hmem ⊢
        exact hmem
      refine ih { selection with rebound := selection.rebound ++ [e.row.entityId] } ?_
      unfold Database.rebindGenerationMember
      dsimp only
      split
      · exact hdone
      · exact hdone.unchanged rfl
    · refine ih selection (h.unchanged ?_)
      unfold Database.finishExistingJob
      split
      · rfl
      · split_ifs
        · rfl
        · rfl
    · by_cases hfull : (e.changed && call.maxNewJobs.any fun limit =>
          decide (limit ≤ selection.newJobs)) = true
      · rw [if_pos hfull]
        exact h
      · rw [if_neg hfull]
        exact ih _ h

theorem upsertQueueJobs_spec (signature : Text) (rows : List QueueRow) :
    ∀ db : Database, (rows.foldl (Database.upsertQueueJob call signature) db).members = db.members ∧
      SameCore db (rows.foldl (Database.upsertQueueJob call signature) db) := by
  induction rows with
  | nil => exact fun db => ⟨rfl, SameCore.refl db⟩
  | cons row rows ih =>
    intro db
    have hrow : (db.upsertQueueJob call signature row).members = db.members ∧
        SameCore db (db.upsertQueueJob call signature row) := by
      unfold Database.upsertQueueJob
      dsimp only
      split_ifs
      · exact ⟨rfl, sameCore_updateJobs _ _ _⟩
      · exact ⟨rfl, sameCore_insertJob _ _⟩
    obtain ⟨hmembers, hcore⟩ := ih (db.upsertQueueJob call signature row)
    exact ⟨hmembers.trans hrow.1, hrow.2.trans hcore⟩

/-- What an enqueue leaves of the copies and of the generations. -/
theorem enqueue_rebinds (hids : db.MemberIds)
    (h : db.enqueueJobBatch call = some (db', rebound)) :
    Rebinds call rebound db db' ∧ SameCore db db' := by
  obtain ⟨-, ⟨rfl, rfl⟩ | ⟨g, m, rows, hgm, hmodality, -, rfl, rfl⟩⟩ := enqueue_cases h
  · exact ⟨.of_eq rfl, SameCore.refl _⟩
  obtain ⟨hg, hb, hm⟩ := generationModel_cases hgm
  have hentries : ∀ e ∈ db.queueEntries call g rows, ∀ m, e.member = some m → m ∈ db.members ∧
      m.entityKind = call.modality.entityKind ∧ m.entityId = e.row.entityId := by
    have hfind : ∀ {other : ℕ} {kind : SemanticEntityKind} {entityId : Text}
        {m : GenerationMember}, db.member other kind entityId = some m →
        m ∈ db.members ∧ m.entityKind = kind ∧ m.entityId = entityId := by
      intro other kind entityId m hmember
      have hsame := List.find?_some hmember
      simp only [sameMember, Bool.and_eq_true, beq_iff_eq, decide_eq_true_eq] at hsame
      exact ⟨List.mem_of_find?_eq_some hmember, hsame.1.2, hsame.2⟩
    intro e he m hmember
    obtain ⟨row, -, rfl⟩ := List.mem_map.mp he
    change db.queueGenerationMember g call.modality.entityKind row.entityId = some m at hmember
    unfold Database.queueGenerationMember at hmember
    split at hmember
    · rename_i m' hm'
      rw [← Option.some_inj.mp hmember]
      exact hfind hm'
    · split_ifs at hmember
      obtain ⟨other, -, hother⟩ := Option.bind_eq_some_iff.mp hmember
      exact hfind hother
  have hselect : Rebinds call (selectQueueRows call (db.queueEntries call g rows) db {}).2.rebound
      db (selectQueueRows call (db.queueEntries call g rows) db {}).1 :=
    rebinds_selectQueueRows hids (db.queueEntries call g rows) hentries {} (.of_eq rfl)
  have hcore := (transaction_selectQueueRows (db.queueEntries call g rows) {}
    ⟨g, hg, hb, .inl rfl⟩).2
  have hjobs := @upsertQueueJobs_spec call m.modelSignature
    (selectQueueRows call (db.queueEntries call g rows) db {}).2.rows
    (selectQueueRows call (db.queueEntries call g rows) db {}).1
  exact ⟨hselect.unchanged hjobs.1, (hcore.trans hjobs.2).trans (sameCore_updateJobs _ _ _)⟩

end Rebinds

/-! ## A page of the copy -/

/-- The cursor after some rows of the base: `after_member_id`. -/
def lastMember (rows : List GenerationMember) : ℕ :=
  (rows.getLast?.map GenerationMember.memberId).getD 0

theorem memberId_le_lastMember {rows : List GenerationMember}
    (hsorted : rows.Pairwise fun a b => a.memberId < b.memberId) {m : GenerationMember}
    (hm : m ∈ rows) : m.memberId ≤ lastMember rows := by
  unfold lastMember
  rcases List.eq_nil_or_concat rows with rfl | ⟨front, last, rfl⟩
  · cases hm
  · rw [List.concat_eq_append] at hsorted hm ⊢
    rw [List.getLast?_concat, Option.map_some, Option.getD_some]
    rcases List.mem_append.mp hm with hm | hm
    · exact ((List.pairwise_append.mp hsorted).2.2 m hm last List.mem_cons_self).le
    · rw [List.mem_singleton.mp hm]

theorem lastMember_append {rows more : List GenerationMember} (hmore : more ≠ []) :
    lastMember (rows ++ more) = lastMember more := by
  unfold lastMember
  rw [List.getLast?_append_of_ne_nil _ hmore]

theorem lastMember_lt {rows more : List GenerationMember}
    (hsorted : (rows ++ more).Pairwise fun a b => a.memberId < b.memberId)
    (hpositive : ∀ m ∈ rows ++ more, 0 < m.memberId) {m : GenerationMember} (hm : m ∈ more) :
    lastMember rows < m.memberId := by
  unfold lastMember
  cases hlast : rows.getLast? with
  | none => exact hpositive m (List.mem_append_right _ hm)
  | some last =>
    exact (List.pairwise_append.mp hsorted).2.2 last (List.mem_of_getLast? hlast) m hm

theorem foldr_max_le {a : ℕ} {ns : List ℕ} (h : ∀ n ∈ ns, n ≤ a) : ns.foldr max 0 ≤ a := by
  induction ns with
  | nil => exact Nat.zero_le a
  | cons n ns ih =>
    exact max_le (h n List.mem_cons_self) (ih fun k hk => h k (List.mem_cons_of_mem _ hk))

/-- What the cursor says after the rows of the base that have been scanned. -/
def CursorFor (db : Database) (base : ℕ) (scanned : List GenerationMember) :
    Option BaseCloneCursor → Prop
  | none => scanned = []
  | some c => c.baseGenerationId = some base ∧ c.afterMemberId = lastMember scanned ∧
      db.extent base = (c.lastMemberId, c.baseMemberCount) ∧ c.scannedMembers = scanned.length

/-- The member is the copy of a row of the base. -/
def GenerationMember.IsCopyOf (m : GenerationMember) (id : ℕ) (row : GenerationMember) : Prop :=
  m = { row.copyTo id with memberId := m.memberId }

/-- While the base is copied: the rows that have been scanned are the first ones of the base,
and the copies are of these. -/
structure Copied (id base : ℕ) (db : Database) (scanned : List GenerationMember) : Prop where
  cursor : ∃ c, db.CopyingAt id base c ∧ CursorFor db base scanned c
  front : scanned <+: db.membersOf base
  copies : ∀ m ∈ db.membersOf id, m.baseMemberId ≠ none → ∃ row ∈ scanned, m.IsCopyOf id row

/-- The rows that the next page reads. -/
def nextRows (db : Database) (base : ℕ) (scanned : List GenerationMember) :
    List GenerationMember := ((db.membersOf base).drop scanned.length).take maxWriteBatch

variable {scanned rows : List GenerationMember}

theorem sorted_membersOf (hids : db.MemberIds) :
    (db.membersOf base).Pairwise fun a b => a.memberId < b.memberId :=
  hids.sorted.sublist List.filter_sublist

theorem positive_membersOf (hids : db.MemberIds) : ∀ m ∈ db.membersOf base, 0 < m.memberId :=
  fun m hm => hids.positive m (mem_membersOf.mp hm).1

theorem Copied.prepare (h : Copied id base db scanned) (hids : db.MemberIds)
    {g : EmbeddingGeneration} (hg : db.generation id = some g) (validateExtent : Bool) :
    ∃ c, db.prepareBaseCloneCursor g base validateExtent = some c ∧
      CursorFor db base scanned (some c) ∧ g.status = .building ∧
      g.baseGenerationId = some base ∧ g.baseCloneComplete = false ∧ db.validBase g base := by
  obtain ⟨c, ⟨g', hg', hbuilding, hbase, hcomplete, hcursor, hvalid⟩, hfor⟩ := h.cursor
  obtain rfl := Option.some_inj.mp (hg.symm.trans hg')
  have hid := (generation_spec hg).2
  have hobserved : db.observedAfter id ≤ lastMember scanned := by
    refine foldr_max_le fun n hn => ?_
    obtain ⟨m, hm, hcopy⟩ := List.mem_filterMap.mp hn
    obtain ⟨row, hrow, hcopied⟩ := h.copies m hm (by rw [hcopy]; exact Option.some_ne_none n)
    have hn : m.baseMemberId = some row.memberId := by rw [hcopied]; rfl
    rw [hcopy, Option.some_inj] at hn
    rw [hn]
    exact memberId_le_lastMember ((sorted_membersOf hids).sublist h.front.sublist) hrow
  cases c with
  | none =>
    have hnone : scanned = [] := hfor
    subst hnone
    have hzero : db.observedAfter id = 0 := Nat.le_zero.mp hobserved
    refine ⟨db.newBaseCloneCursor g.generationId base, ?_, ⟨rfl, ?_, rfl, ?_⟩, hbuilding, hbase,
      hcomplete, hvalid⟩
    · simp only [Database.prepareBaseCloneCursor, hcursor, bind_eq_some, guard_eq_some,
        exists_const, pure_eq_some]
      exact ⟨hvalid, trivial⟩
    · rw [hid]
      exact hzero
    · rw [hid]
      unfold Database.newBaseCloneCursor
      dsimp only
      rw [hzero, List.length_nil, List.length_eq_zero_iff, List.filter_eq_nil_iff]
      intro m hm hle
      have := positive_membersOf hids m hm
      simp only [decide_eq_true_eq] at hle
      omega
  | some c =>
    obtain ⟨hcbase, hafter, hextent, hcount⟩ := hfor
    refine ⟨c, ?_, ⟨hcbase, hafter, hextent, hcount⟩, hbuilding, hbase, hcomplete, hvalid⟩
    have hlast : lastMember scanned ≤ c.lastMemberId := by
      rw [← show (db.extent base).1 = c.lastMemberId from congrArg Prod.fst hextent]
      unfold lastMember
      cases hl : scanned.getLast? with
      | none => exact Nat.zero_le _
      | some last =>
        exact le_foldr_max (List.mem_map_of_mem (h.front.subset (List.mem_of_getLast? hl)))
    have hlength : scanned.length ≤ c.baseMemberCount := by
      rw [← show (db.extent base).2 = c.baseMemberCount from congrArg Prod.snd hextent]
      exact h.front.length_le
    simp only [Database.prepareBaseCloneCursor, hcursor, bind_eq_some, guard_eq_some,
      exists_const, pure_eq_some, hid]
    exact ⟨hvalid, hcbase, ⟨hafter ▸ hlast, hcount ▸ hlength⟩, hafter ▸ hobserved,
      fun _ => hextent, trivial⟩

/-- The rows of the base behind the cursor are those that have not been scanned. -/
theorem Copied.baseCloneRows (h : Copied id base db scanned) (hids : db.MemberIds)
    {c : BaseCloneCursor} (hc : CursorFor db base scanned (some c)) :
    db.baseCloneRows base c = nextRows db base scanned := by
  obtain ⟨-, hafter, hextent, -⟩ := hc
  obtain ⟨rest, hrest⟩ := h.front
  have hsorted : (db.membersOf base).Pairwise fun a b => a.memberId < b.memberId :=
    sorted_membersOf hids
  have hpositive : ∀ m ∈ db.membersOf base, 0 < m.memberId := positive_membersOf hids
  have hbound : ∀ m ∈ db.membersOf base, m.memberId ≤ c.lastMemberId := by
    intro m hm
    rw [← show (db.extent base).1 = c.lastMemberId from congrArg Prod.fst hextent]
    exact le_foldr_max (List.mem_map_of_mem hm)
  unfold Database.baseCloneRows nextRows
  congr 1
  rw [← hrest] at hsorted hpositive hbound ⊢
  rw [List.drop_left, List.filter_append]
  have hfront : (scanned.filter fun m => decide (c.afterMemberId < m.memberId) &&
      decide (m.memberId ≤ c.lastMemberId)) = [] := by
    rw [List.filter_eq_nil_iff]
    intro m hm hcond
    have := memberId_le_lastMember (List.pairwise_append.mp hsorted).1 hm
    simp only [Bool.and_eq_true, decide_eq_true_eq, hafter] at hcond
    omega
  rw [hfront, List.nil_append, List.filter_eq_self]
  intro m hm
  have hlt := lastMember_lt hsorted hpositive hm
  have hle := hbound m (List.mem_append_right _ hm)
  simp [hafter, hlt, hle]

/-- When a page is read, the candidate has neither a job nor a member for the entity of a row. -/
def Database.IsFree (db : Database) (id : ℕ) (row : GenerationMember) : Prop :=
  db.hasTargetJob id row = false ∧ db.member id row.entityKind row.entityId = none

theorem member_eq_none {kind : SemanticEntityKind} {entityId : Text} :
    db.member id kind entityId = none ↔ ∀ m ∈ db.members, m.entity ≠ (id, kind, entityId) := by
  unfold Database.member
  simp only [List.find?_eq_none, sameMember_iff, ne_eq]

/-- What the insertion of copies adds. -/
structure Inserts (id : ℕ) (rows : List GenerationMember) (db db' : Database) : Prop where
  ids : db'.MemberIds
  generations : db'.generations = db.generations
  others : ∀ other, other ≠ id → db'.membersOf other = db.membersOf other
  kept : ∀ m ∈ db.members, m ∈ db'.members
  copies : ∀ m ∈ db'.members, m ∈ db.members ∨
    ∃ row ∈ rows, db.member id row.entityKind row.entityId = none ∧ m.IsCopyOf id row
  inserted : ∀ row ∈ rows, db.member id row.entityKind row.entityId = none →
    ∃ m ∈ db'.members, m.IsCopyOf id row

theorem inserts_copies (id : ℕ) (rows : List GenerationMember)
    (hunique : Unique (fun m : GenerationMember => (m.entityKind, m.entityId)) rows) :
    ∀ {db : Database}, db.MemberIds →
      Inserts id rows db (rows.foldl (fun db m => db.insertMember (m.copyTo id)) db) := by
  induction rows with
  | nil =>
    exact fun hids => ⟨hids, rfl, fun _ _ => rfl, fun _ h => h, fun _ h => .inl h,
      fun _ h => absurd h List.not_mem_nil⟩
  | cons row rows ih =>
    intro db hids
    obtain ⟨hrow, hrest⟩ := List.pairwise_cons.mp hunique
    by_cases hany : db.members.any (sameMember id row.entityKind row.entityId) = true
    · have hstep : db.insertMember (row.copyTo id) = db := if_pos hany
      have htaken : db.member id row.entityKind row.entityId ≠ none := by
        obtain ⟨m, hm, hsame⟩ := List.any_eq_true.mp hany
        exact fun hnone => member_eq_none.mp hnone m hm (sameMember_iff.mp hsame)
      rw [List.foldl_cons, hstep]
      have h := ih hrest hids
      refine ⟨h.ids, h.generations, h.others, h.kept, fun m hm => (h.copies m hm).imp_right ?_, ?_⟩
      · rintro ⟨row', hrow', hcopy⟩
        exact ⟨row', List.mem_cons_of_mem _ hrow', hcopy⟩
      · intro row' hrow' hnone
        rcases List.mem_cons.mp hrow' with rfl | hrow'
        · exact absurd hnone htaken
        · exact h.inserted row' hrow' hnone
    · have hmembers : (db.insertMember (row.copyTo id)).members =
          db.members ++ [{ row.copyTo id with memberId := db.nextMember }] :=
        congrArg Database.members (if_neg hany)
      have hnone : db.member id row.entityKind row.entityId = none := by
        refine member_eq_none.mpr fun m hm heq => hany ?_
        exact List.any_eq_true.mpr ⟨m, hm, sameMember_iff.mpr heq⟩
      have h := ih hrest (hids.insertMember (row.copyTo id))
      rw [List.foldl_cons]
      refine ⟨h.ids, h.generations.trans (generations_insertMember _),
        fun other hother => ?_,
        fun m hm => h.kept m (hmembers ▸ List.mem_append_left _ hm), fun m hm => ?_, ?_⟩
      · exact (h.others other hother).trans (membersOf_insertMember (Ne.symm hother))
      · rcases h.copies m hm with hm' | ⟨row', hrow', hnone', hcopy⟩
        · rw [hmembers] at hm'
          rcases List.mem_append.mp hm' with hm' | hm'
          · exact .inl hm'
          · rw [List.mem_singleton.mp hm']
            exact .inr ⟨row, List.mem_cons_self, hnone, rfl⟩
        · refine .inr ⟨row', List.mem_cons_of_mem _ hrow', ?_, hcopy⟩
          refine member_eq_none.mpr fun m' hm' => member_eq_none.mp hnone' m' ?_
          rw [hmembers]
          exact List.mem_append_left _ hm'
      · intro row' hrow' hfree
        rcases List.mem_cons.mp hrow' with rfl | hrow'
        · refine ⟨{ row'.copyTo id with memberId := db.nextMember }, h.kept _ ?_, rfl⟩
          rw [hmembers]
          exact List.mem_append_right _ List.mem_cons_self
        · refine h.inserted row' hrow' (member_eq_none.mpr fun m' hm' heq => ?_)
          rw [hmembers] at hm'
          rcases List.mem_append.mp hm' with hm' | hm'
          · exact member_eq_none.mp hfree m' hm' heq
          · rw [List.mem_singleton.mp hm'] at heq
            exact hrow row' hrow' (congrArg Prod.snd heq)

theorem generation_updateBuilding {f : EmbeddingGeneration → EmbeddingGeneration}
    (hf : ∀ g, (f g).generationId = g.generationId) (other : ℕ) :
    (db.updateBuilding id f).generation other = (db.generation other).map fun g =>
      if (g.generationId == id && decide (g.status = .building)) = true then f g else g :=
  find?_updateWhere fun g _ _ => by rw [hf]

theorem generation_updateBuilding_self {f : EmbeddingGeneration → EmbeddingGeneration}
    (hf : ∀ g, (f g).generationId = g.generationId) {g : EmbeddingGeneration}
    (hg : db.generation id = some g) (hb : g.status = .building) :
    (db.updateBuilding id f).generation id = some (f g) := by
  rw [generation_updateBuilding hf, hg, Option.map_some, if_pos]
  simp [(generation_spec hg).2, hb]

theorem generation_updateBuilding_of_ne {f : EmbeddingGeneration → EmbeddingGeneration}
    (hf : ∀ g, (f g).generationId = g.generationId) {other : ℕ} (hne : other ≠ id) :
    (db.updateBuilding id f).generation other = db.generation other := by
  rw [generation_updateBuilding hf]
  cases hg : db.generation other with
  | none => rfl
  | some g =>
    rw [Option.map_some, if_neg]
    simp [(generation_spec hg).2, hne]

theorem foldr_max_memberId {rows : List GenerationMember}
    (hsorted : rows.Pairwise fun a b => a.memberId < b.memberId) :
    (rows.map GenerationMember.memberId).foldr max 0 = lastMember rows := by
  refine le_antisymm (foldr_max_le fun n hn => ?_) ?_
  · obtain ⟨m, hm, rfl⟩ := List.mem_map.mp hn
    exact memberId_le_lastMember hsorted hm
  · unfold lastMember
    cases hlast : rows.getLast? with
    | none => exact Nat.zero_le _
    | some last => exact le_foldr_max (List.mem_map_of_mem (List.mem_of_getLast? hlast))

/-- What a transaction of the copy does to a candidate, with the rows that it reads. -/
inductive PageResult (id base : ℕ) (db db' : Database) (scanned : List GenerationMember) :
    Prop where
  | finished : scanned = db.membersOf base → db'.members = db.members →
      (∃ g c, db'.generation id = some g ∧ g.status = .building ∧ g.baseCloneComplete = true ∧
        g.cursor.baseClone = some c ∧ c.complete = true ∧
        c.afterMemberId = lastMember (db.membersOf base) ∧
        c.scannedMembers = (db.membersOf base).length ∧
        c.baseMemberCount = (db.membersOf base).length) → PageResult id base db db' scanned
  | page : nextRows db base scanned ≠ [] →
      Copied id base db' (scanned ++ nextRows db base scanned) →
      (∀ m ∈ db.members, m ∈ db'.members) →
      (∀ m ∈ db'.members, m ∈ db.members ∨
        ∃ row ∈ nextRows db base scanned, db.IsFree id row ∧ m.IsCopyOf id row) →
      (∀ row ∈ nextRows db base scanned, db.IsFree id row →
        ∃ m ∈ db'.members, m.IsCopyOf id row) → PageResult id base db db' scanned

/-- A transaction of the copy never raises. -/
theorem Copied.page (h : Copied id base db scanned) (hids : db.MemberIds) (validateExtent : Bool) :
    ∃ db', db.clonePublishedMembers id validateExtent = some (db', nextRows db base scanned) ∧
      PageResult id base db db' scanned := by
  obtain ⟨c₀, ⟨g, hg, -⟩, -⟩ := h.cursor
  obtain ⟨c, hprepare, hfor, hbuilding, hbase, hcomplete, hvalid⟩ :=
    h.prepare hids hg validateExtent
  have hrows := h.baseCloneRows hids hfor
  obtain ⟨hcbase, hafter, hextent, hcount⟩ := hfor
  have hid := (generation_spec hg).2
  obtain ⟨rest, hrest⟩ := h.front
  have hdrop : (db.membersOf base).drop scanned.length = rest := by
    rw [← hrest, List.drop_left]
  have hne : base ≠ id := by
    obtain ⟨b, hb, hready, -⟩ := hvalid
    rintro rfl
    rw [Option.some_inj.mp (hg.symm.trans hb)] at hbuilding
    rw [hbuilding] at hready
    cases hready
  by_cases hnil : nextRows db base scanned = []
  · have hall : scanned = db.membersOf base := by
      unfold nextRows at hnil
      rw [hdrop, List.take_eq_nil_iff] at hnil
      rcases hnil with hnil | hnil
      · exact absurd hnil (by decide)
      · rw [← hrest, hnil, List.append_nil]
    have hsize : c.scannedMembers = c.baseMemberCount := by
      rw [hcount, hall]
      exact congrArg Prod.snd hextent
    let last : BaseCloneCursor := { c with
      afterMemberId := c.lastMemberId
      scannedMembers := c.baseMemberCount
      complete := true }
    refine ⟨db.updateBuilding id fun g =>
      { g.withBaseClone last with baseCloneComplete := true }, ?_, .finished hall rfl ?_⟩
    · simp only [Database.clonePublishedMembers, bind_eq_some, guard_eq_some, exists_const]
      refine ⟨g, hg, hbuilding, ?_⟩
      rw [if_neg (by simp [hcomplete])]
      simp only [hbase, bind_eq_some]
      refine ⟨c, hprepare, ?_⟩
      rw [hrows, if_pos hnil, hnil]
      simp only [bind_eq_some, pure_eq_some, Prod.mk.injEq]
      refine ⟨_, ?_, rfl, trivial⟩
      simp only [Database.finishBaseClone, bind_eq_some, guard_eq_some, exists_const, pure_eq_some]
      exact ⟨⟨hextent, hsize⟩, rfl⟩
    · refine ⟨{ g.withBaseClone last with baseCloneComplete := true }, last, ?_,
        hbuilding, rfl, rfl, rfl, ?_,
        (congrArg Prod.snd hextent).symm, (congrArg Prod.snd hextent).symm⟩
      · refine generation_updateBuilding_self ?_ hg hbuilding
        exact fun _ => rfl
      · rw [← foldr_max_memberId (sorted_membersOf hids)]
        exact (congrArg Prod.fst hextent).symm
  · have hread : (nextRows db base scanned).Sublist (db.membersOf base) :=
      (List.take_sublist _ _).trans (List.drop_sublist _ _)
    have hfree : ∀ row ∈ nextRows db base scanned, db.IsFree id row ↔
        row ∈ (nextRows db base scanned).filter (fun m => !db.hasTargetJob id m) ∧
          db.member id row.entityKind row.entityId = none := by
      intro row hrow
      simp [Database.IsFree, hrow]
    have hunique : Unique (fun m : GenerationMember => (m.entityKind, m.entityId))
        ((nextRows db base scanned).filter fun m => !db.hasTargetJob id m) := by
      have hentities : Unique GenerationMember.entity (db.membersOf base) :=
        hids.entities.sublist List.filter_sublist
      refine (List.Pairwise.imp_of_mem (fun {a b} ha hb hne heq => hne ?_) hentities).sublist
        (List.filter_sublist.trans hread)
      have hkeys : a.generationId = b.generationId :=
        (mem_membersOf.mp ha).2.trans (mem_membersOf.mp hb).2.symm
      exact Prod.ext hkeys heq
    have hinserts := inserts_copies id
      ((nextRows db base scanned).filter fun m => !db.hasTargetJob id m) hunique hids
    let inserted := db.insertBaseCloneRows id (nextRows db base scanned)
    have hinserts : Inserts id
        ((nextRows db base scanned).filter fun m => !db.hasTargetJob id m) db inserted := hinserts
    let next : BaseCloneCursor := { c with
      afterMemberId := ((nextRows db base scanned).getLast?.map GenerationMember.memberId).getD
        c.afterMemberId
      scannedMembers := c.scannedMembers + (nextRows db base scanned).length
      complete := false }
    have hgenerations : ∀ other, inserted.generation other = db.generation other := by
      intro other
      rw [Database.generation, Database.generation, hinserts.generations]
    have hbase' : (inserted.updateBuilding id fun g => g.withBaseClone next).generation base =
        db.generation base := by
      refine (generation_updateBuilding_of_ne ?_ hne).trans (hgenerations base)
      exact fun _ => rfl
    have hmembers : (inserted.updateBuilding id fun g => g.withBaseClone next).membersOf base =
        db.membersOf base := hinserts.others base hne
    have hcopies : ∀ m ∈ inserted.members, m ∈ db.members ∨
        ∃ row ∈ nextRows db base scanned, db.IsFree id row ∧ m.IsCopyOf id row := by
      intro m hm
      refine (hinserts.copies m hm).imp_right ?_
      rintro ⟨row, hrow, hnone, hcopy⟩
      have hmem := (List.mem_filter.mp hrow).1
      exact ⟨row, hmem, (hfree row hmem).mpr ⟨hrow, hnone⟩, hcopy⟩
    refine ⟨inserted.updateBuilding id fun g => g.withBaseClone next, ?_,
      .page hnil ⟨⟨some next, ?_, hcbase, ?_, ?_, ?_⟩, ?_, ?_⟩ hinserts.kept hcopies ?_⟩
    · simp only [Database.clonePublishedMembers, bind_eq_some, guard_eq_some, exists_const]
      refine ⟨g, hg, hbuilding, ?_⟩
      rw [if_neg (by simp [hcomplete])]
      simp only [hbase, bind_eq_some]
      refine ⟨c, hprepare, ?_⟩
      rw [hrows, if_neg hnil]
      rfl
    · obtain ⟨b, hb, hready, hmodel⟩ := hvalid
      refine ⟨g.withBaseClone next, ?_, hbuilding, hbase, hcomplete, rfl, b, hbase'.trans hb,
        hready, hmodel⟩
      refine generation_updateBuilding_self ?_ ((hgenerations id).trans hg) hbuilding
      exact fun _ => rfl
    · rw [lastMember_append hnil]
      show ((nextRows db base scanned).getLast?.map GenerationMember.memberId).getD
        c.afterMemberId = lastMember (nextRows db base scanned)
      unfold lastMember
      rw [List.getLast?_eq_some_getLast hnil]
      rfl
    · rw [← hextent, Database.extent, Database.extent, hmembers]
    · rw [List.length_append, ← hcount]
    · rw [hmembers, ← hrest]
      unfold nextRows
      rw [hdrop]
      exact (List.prefix_append_right_inj scanned).mpr (List.take_prefix _ _)
    · intro m hm hcopy
      obtain ⟨hmem, hgeneration⟩ := mem_membersOf.mp hm
      rcases hcopies m hmem with hm' | ⟨row, hrow, -, hcopied⟩
      · obtain ⟨row, hrow, hcopied⟩ := h.copies m (mem_membersOf.mpr ⟨hm', hgeneration⟩) hcopy
        exact ⟨row, List.mem_append_left _ hrow, hcopied⟩
      · exact ⟨row, List.mem_append_right _ hrow, hcopied⟩
    · intro row hrow hrowFree
      obtain ⟨hmem, hnone⟩ := (hfree row hrow).mp hrowFree
      exact hinserts.inserted row hmem hnone

/-! ## A transaction while the base is copied -/

/-- The rows of the base that a transaction reads for a candidate. -/
def Database.scannedBy (db : Database) (id : ℕ) : Op → List GenerationMember
  | .clonePage other validateExtent =>
    if other = id then ((db.clonePublishedMembers id validateExtent).map Prod.snd).getD [] else []
  | _ => []

/-- An enqueue rebinds the entity of a row in a candidate. -/
def ReboundBy (db : Database) (id : ℕ) (row : GenerationMember) (op : Op) : Prop :=
  ∃ call rebound, op = .enqueue call ∧ db.enqueueJobBatch call = some (db.step op, rebound) ∧
    call.generationId = id ∧ row.entityKind = call.modality.entityKind ∧ row.entityId ∈ rebound

/-- What a transaction does to the copies of a candidate. -/
structure Advances (id : ℕ) (db : Database) (op : Op) : Prop where
  kept : ∀ m ∈ db.membersOf id, m.baseMemberId ≠ none →
    m ∈ (db.step op).membersOf id ∨ ReboundBy db id m op
  origin : ∀ m ∈ (db.step op).membersOf id, m.baseMemberId ≠ none → m ∈ db.membersOf id ∨
    ∃ row ∈ db.scannedBy id op, db.IsFree id row ∧ m.IsCopyOf id row
  inserted : ∀ row ∈ db.scannedBy id op, db.IsFree id row →
    ∃ m ∈ (db.step op).membersOf id, m.IsCopyOf id row

/-- The copy has been completed. -/
structure Finished (id base : ℕ) (db : Database) (scanned : List GenerationMember) : Prop where
  all : scanned = db.membersOf base
  cursor : ∃ g c, db.generation id = some g ∧ g.status = .building ∧ g.baseCloneComplete = true ∧
    g.cursor.baseClone = some c ∧ c.complete = true ∧
    c.afterMemberId = lastMember (db.membersOf base) ∧
    c.scannedMembers = (db.membersOf base).length ∧
    c.baseMemberCount = (db.membersOf base).length

theorem step_clonePage {validateExtent : Bool}
    (h : db.clonePublishedMembers id validateExtent = some (db', rows)) :
    db.step (.clonePage id validateExtent) = db' := by
  rw [Database.step, Database.perform, h]
  rfl

theorem scannedBy_clonePage {validateExtent : Bool}
    (h : db.clonePublishedMembers id validateExtent = some (db', rows)) :
    db.scannedBy id (.clonePage id validateExtent) = rows := by
  simp [Database.scannedBy, h]

theorem step_enqueue {call : EnqueueCall} {rebound : List Text}
    (h : db.enqueueJobBatch call = some (db', rebound)) : db.step (.enqueue call) = db' := by
  rw [Database.step, Database.perform, h]
  rfl

theorem generationId_of_isCopyOf {m row : GenerationMember} (h : m.IsCopyOf id row) :
    m.generationId = id := by
  rw [h]
  rfl

theorem Copied.frame (h : Copied id base db scanned)
    (hgeneration : ∀ g, db.generation id = some g → ∃ g', db'.generation id = some g' ∧
      SameCopy g g') (hbase : db'.generation base = db.generation base)
    (hmembers : db'.membersOf base = db.membersOf base)
    (hcopies : ∀ m ∈ db'.membersOf id, m.baseMemberId ≠ none → m ∈ db.membersOf id) :
    Copied id base db' scanned := by
  obtain ⟨c, hcopying, hfor⟩ := h.cursor
  refine ⟨⟨c, hcopying.congr hgeneration hbase, ?_⟩, hmembers ▸ h.front,
    fun m hm hcopy => h.copies m (hcopies m hm hcopy) hcopy⟩
  cases c with
  | none => exact hfor
  | some c =>
    obtain ⟨hcbase, hafter, hextent, hcount⟩ := hfor
    refine ⟨hcbase, hafter, ?_, hcount⟩
    rw [Database.extent, hmembers]
    exact hextent

/-- The copy of another candidate. -/
theorem clone_frame {other : ℕ} (hne : other ≠ id) {validateExtent : Bool}
    (h : db.clonePublishedMembers other validateExtent = some (db', rows)) :
    db'.membersOf id = db.membersOf id ∧ db'.generation id = db.generation id := by
  have hinsert : ∀ (rows : List GenerationMember) (db : Database),
      (rows.foldl (fun db m => db.insertMember (m.copyTo other)) db).membersOf id =
        db.membersOf id ∧
      (rows.foldl (fun db m => db.insertMember (m.copyTo other)) db).generations =
        db.generations := by
    intro rows
    induction rows with
    | nil => exact fun _ => ⟨rfl, rfl⟩
    | cons row rows ih =>
      intro db
      obtain ⟨hmembers, hgenerations⟩ := ih (db.insertMember (row.copyTo other))
      exact ⟨hmembers.trans (membersOf_insertMember hne),
        hgenerations.trans (generations_insertMember _)⟩
  have hupdate : ∀ (db : Database) (f : EmbeddingGeneration → EmbeddingGeneration),
      (∀ g, (f g).generationId = g.generationId) →
      (db.updateBuilding other f).generation id = db.generation id :=
    fun db f hf => generation_updateBuilding_of_ne hf hne.symm
  obtain ⟨g, -, -, ⟨-, rfl, -⟩ | ⟨-, -, -, rfl⟩ | ⟨base, c, -, -, -, -, hpage⟩⟩ := clone_cases h
  · exact ⟨rfl, rfl⟩
  · exact ⟨rfl, hupdate _ _ fun _ => rfl⟩
  · rcases hpage with ⟨-, hfinish⟩ | ⟨-, rfl⟩
    · obtain ⟨-, -, rfl⟩ := finish_cases hfinish
      exact ⟨rfl, hupdate _ _ fun _ => rfl⟩
    · obtain ⟨hmembers, hgenerations⟩ := hinsert (rows.filter fun m => !db.hasTargetJob other m) db
      refine ⟨hmembers, (generation_updateBuilding_of_ne ?_ hne.symm).trans ?_⟩
      · exact fun _ => rfl
      · exact congrArg (List.find? fun g : EmbeddingGeneration => g.generationId == id) hgenerations

/-- A transaction while the base is copied: it closes the candidate, or the copy goes on, or it
is finished. -/
theorem Copied.step (h : Copied id base db scanned) (hids : db.MemberIds) (hrows : db.JobRows)
    (op : Op) : (db.step op).Closed id ∨ (Advances id db op ∧
      (Copied id base (db.step op) (scanned ++ db.scannedBy id op) ∨
        Finished id base (db.step op) (scanned ++ db.scannedBy id op))) := by
  obtain ⟨c, hcopying, -⟩ := h.cursor
  have hfrozen := step_frozen hrows (hcopying.closed_base hrows) op
  -- a transaction that reads no row for the candidate and leaves or rebinds its copies
  have hbeside : db.scannedBy id op = [] →
      (∀ g, db.generation id = some g → ∃ g', (db.step op).generation id = some g' ∧
        SameCopy g g') →
      (∀ m ∈ db.membersOf id, m.baseMemberId ≠ none →
        m ∈ (db.step op).membersOf id ∨ ReboundBy db id m op) →
      (∀ m ∈ (db.step op).membersOf id, m.baseMemberId ≠ none → m ∈ db.membersOf id) →
      Advances id db op ∧ (Copied id base (db.step op) (scanned ++ db.scannedBy id op) ∨
        Finished id base (db.step op) (scanned ++ db.scannedBy id op)) := by
    intro hnone hgeneration hkept horigin
    rw [hnone, List.append_nil]
    refine ⟨⟨hkept, fun m hm hcopy => .inl (horigin m hm hcopy), ?_⟩,
      .inl (h.frame hgeneration hfrozen.generation hfrozen.members horigin)⟩
    rw [hnone]
    exact fun _ hrow => absurd hrow List.not_mem_nil
  have hplain : op.scope ≠ .members → db.scannedBy id op = [] →
      (db.step op).Closed id ∨ (Advances id db op ∧
        (Copied id base (db.step op) (scanned ++ db.scannedBy id op) ∨
          Finished id base (db.step op) (scanned ++ db.scannedBy id op))) := by
    intro hs hnone
    rcases ((step_transaction hrows op).copying hs hrows hcopying).2 with
      ⟨hcopying', hmembers⟩ | hclosed
    · refine .inr (hbeside hnone (fun g hg => ?_) (fun m hm _ => .inl (hmembers ▸ hm))
        fun m hm _ => hmembers ▸ hm)
      obtain ⟨g', hg', hb', hbase', hc', hcur', hv'⟩ := hcopying'
      obtain ⟨g₀, hg₀, hb₀, hbase₀, hc₀, hcur₀, hv₀⟩ := hcopying
      obtain rfl := Option.some_inj.mp (hg.symm.trans hg₀)
      obtain ⟨b, hb, -, hmodel⟩ := hv₀
      obtain ⟨b', hbb', -, hmodel'⟩ := hv'
      have heq : b = b' := Option.some_inj.mp ((Option.mem_def.mp hb).symm.trans
        (hfrozen.generation.symm.trans (Option.mem_def.mp hbb')))
      exact ⟨g', hg', hb'.trans hb₀.symm, hbase'.trans hbase₀.symm, hc'.trans hc₀.symm,
        hcur'.trans hcur₀.symm, by rw [← hmodel', ← hmodel, heq]⟩
    · exact .inl hclosed
  have hidle : db.step op = db → db.scannedBy id op = [] →
      Advances id db op ∧ (Copied id base (db.step op) (scanned ++ db.scannedBy id op) ∨
        Finished id base (db.step op) (scanned ++ db.scannedBy id op)) := by
    intro hsame hnone
    refine hbeside hnone (fun g hg => ⟨g, hsame.symm ▸ hg, .refl g⟩)
      (fun m hm _ => .inl (hsame.symm ▸ hm)) fun m hm _ => hsame ▸ hm
  cases op with
  | clonePage other validateExtent =>
    by_cases hother : other = id
    · subst hother
      obtain ⟨db', hrun, hresult⟩ := h.page hids validateExtent
      have hstep := step_clonePage hrun
      have hscanned := scannedBy_clonePage hrun
      refine .inr ?_
      cases hresult with
      | finished hall hmembers hcursor =>
        have hnil : nextRows db base scanned = [] := by
          unfold nextRows
          rw [hall, List.drop_length, List.take_nil]
        have hsame : ∀ x, db'.membersOf x = db.membersOf x := by
          intro x
          rw [Database.membersOf, Database.membersOf, hmembers]
        rw [hnil] at hscanned
        rw [hscanned, hstep, List.append_nil]
        refine ⟨⟨fun m hm _ => .inl ?_, fun m hm _ => .inl ?_, ?_⟩, .inr ⟨?_, ?_⟩⟩
        · rwa [hstep, hsame]
        · rwa [hstep, hsame] at hm
        · rw [hscanned]
          exact fun _ hrow => absurd hrow List.not_mem_nil
        · rw [hsame, hall]
        · rwa [hsame]
      | page hne hcopied hkept horigin hinserted =>
        rw [hscanned, hstep]
        refine ⟨⟨fun m hm _ => .inl ?_, fun m hm _ => ?_, fun row hrow hfree => ?_⟩, .inl hcopied⟩
        · rw [hstep]
          obtain ⟨hmem, hgeneration⟩ := mem_membersOf.mp hm
          exact mem_membersOf.mpr ⟨hkept m hmem, hgeneration⟩
        · rw [hstep] at hm
          rw [hscanned]
          obtain ⟨hmem, hgeneration⟩ := mem_membersOf.mp hm
          exact (horigin m hmem).imp_left fun hm' => mem_membersOf.mpr ⟨hm', hgeneration⟩
        · rw [hscanned] at hrow
          rw [hstep]
          obtain ⟨m, hm, hcopy⟩ := hinserted row hrow hfree
          exact ⟨m, mem_membersOf.mpr ⟨hm, generationId_of_isCopyOf hcopy⟩, hcopy⟩
    · have hscanned : db.scannedBy id (.clonePage other validateExtent) = [] := if_neg hother
      cases hrun : db.clonePublishedMembers other validateExtent with
      | none => exact .inr (hidle (step_of_none (by rw [Database.perform, hrun]; rfl)) hscanned)
      | some r =>
        have hstep : db.step (.clonePage other validateExtent) = r.1 := step_clonePage hrun
        obtain ⟨hmembers, hgeneration⟩ := clone_frame hother
          (show db.clonePublishedMembers other validateExtent = some (r.1, r.2) from hrun)
        rw [← hstep] at hmembers hgeneration
        exact .inr (hbeside hscanned (fun g hg => ⟨g, hgeneration.trans hg, .refl g⟩)
          (fun m hm _ => .inl (hmembers ▸ hm)) fun m hm _ => hmembers ▸ hm)
  | enqueue call =>
    cases hrun : db.enqueueJobBatch call with
    | none => exact .inr (hidle (step_of_none (by rw [Database.perform, hrun]; rfl)) rfl)
    | some r =>
      have hstep : db.step (.enqueue call) = r.1 := step_enqueue hrun
      obtain ⟨hrebinds, hcore⟩ := enqueue_rebinds hids
        (show db.enqueueJobBatch call = some (r.1, r.2) from hrun)
      rw [← hstep] at hrebinds hcore
      refine .inr (hbeside rfl (fun g hg => ?_) (fun m hm hcopy => ?_) fun m hm hcopy => ?_)
      · obtain ⟨g', hg', heq⟩ := hcore.generation hg
        exact ⟨g', hg', .of_core heq⟩
      · obtain ⟨hmem, hgeneration⟩ := mem_membersOf.mp hm
        rcases hrebinds.kept m hmem hcopy with hm' | ⟨hcall, hkind, hrebound⟩
        · exact .inl (mem_membersOf.mpr ⟨hm', hgeneration⟩)
        · exact .inr ⟨call, r.2, rfl, hstep ▸ hrun, hcall.symm.trans hgeneration, hkind, hrebound⟩
      · obtain ⟨hmem, hgeneration⟩ := mem_membersOf.mp hm
        exact mem_membersOf.mpr ⟨hrebinds.copies m hmem hcopy, hgeneration⟩
  | _ => exact hplain (by simp [Op.scope]) rfl

/-! ## The whole copy -/

/-- The rows of the base that transactions read for a candidate, page after page. -/
def scannedRows (id : ℕ) : Database → List Op → List GenerationMember
  | _, [] => []
  | db, op :: ops => db.scannedBy id op ++ scannedRows id (db.step op) ops

theorem run_append (db : Database) (ops more : List Op) :
    db.run (ops ++ more) = (db.run ops).run more := List.foldl_append

theorem scannedRows_append (db : Database) (ops more : List Op) :
    scannedRows id db (ops ++ more) =
      scannedRows id db ops ++ scannedRows id (db.run ops) more := by
  induction ops generalizing db with
  | nil => rfl
  | cons op ops ih =>
    rw [List.cons_append, scannedRows, scannedRows, ih, List.append_assoc]
    rfl

theorem scannedRows_concat (db : Database) (ops : List Op) (op : Op) :
    scannedRows id db (ops ++ [op]) = scannedRows id db ops ++ (db.run ops).scannedBy id op := by
  rw [scannedRows_append, scannedRows, scannedRows, List.append_nil]

theorem run_concat (db : Database) (ops : List Op) (op : Op) :
    db.run (ops ++ [op]) = (db.run ops).step op := run_append db ops [op]

/-- The candidate is building and does not have all of its base. -/
def Database.IsOpen (db : Database) (id : ℕ) : Prop :=
  ∃ g, db.generation id = some g ∧ g.status = .building ∧ g.baseCloneComplete = false

/-- Before the first page: the candidate has a ready base, and its members are overrides. -/
structure CopyStart (id base : ℕ) (db : Database) : Prop where
  copying : db.CopyingAt id base none
  overrides : ∀ m ∈ db.membersOf id, m.baseMemberId = none

theorem CopyStart.copied (h : CopyStart id base db) : Copied id base db [] :=
  ⟨⟨none, h.copying, rfl⟩, List.nil_prefix,
    fun m hm hcopy => absurd (h.overrides m hm) hcopy⟩

theorem Database.IsOpen.not_closed (h : db.IsOpen id) : ¬ db.Closed id := by
  intro hclosed
  obtain ⟨g, hg, hbuilding, -⟩ := h
  exact hclosed.status g (generation_spec hg).1 (generation_spec hg).2 hbuilding

theorem Finished.not_isOpen (h : Finished id base db scanned) : ¬ db.IsOpen id := by
  rintro ⟨g, hg, -, hcomplete⟩
  obtain ⟨g', -, hg', -, hcomplete', -⟩ := h.cursor
  rw [Option.some_inj.mp (hg.symm.trans hg'), hcomplete'] at hcomplete
  cases hcomplete

theorem step_memberIds (hids : db.MemberIds) (hrows : db.JobRows) (op : Op) :
    (db.step op).MemberIds :=
  (step_transaction hrows op).induction (fun hstep h => hstep.memberIds h) hids

/-- The transaction is a page for the candidate. -/
def Op.isPageOf (id : ℕ) : Op → Bool
  | .clonePage other _ => other == id
  | _ => false

/-- A page that does not complete the copy reads a row. -/
theorem Copied.scannedBy_pos (h : Copied id base db scanned) (hids : db.MemberIds) {op : Op}
    (hop : op.isPageOf id = true) (hopen : (db.step op).IsOpen id) :
    0 < (db.scannedBy id op).length := by
  cases op with
  | clonePage other validateExtent =>
    obtain rfl : other = id := by simpa [Op.isPageOf] using hop
    obtain ⟨db', hrun, hresult⟩ := h.page hids validateExtent
    have hstep := step_clonePage hrun
    have hscanned := scannedBy_clonePage hrun
    cases hresult with
    | finished _ _ hcursor =>
      rw [hstep] at hopen
      obtain ⟨g, hg, -, hcomplete⟩ := hopen
      obtain ⟨g', -, hg', -, hcomplete', -⟩ := hcursor
      rw [Option.some_inj.mp (hg.symm.trans hg'), hcomplete'] at hcomplete
      cases hcomplete
    | page hne => rw [hscanned]; exact List.length_pos_iff.mpr hne
  | _ => cases hop

theorem advances_concat {ops : List Op} {op : Op}
    (hadvances : ∀ pre op, pre ++ [op] <+: ops → Advances id (db.run pre) op)
    (hlast : Advances id (db.run ops) op) :
    ∀ pre op', pre ++ [op'] <+: ops ++ [op] → Advances id (db.run pre) op' := by
  intro pre op' hpre
  rcases List.prefix_concat_iff.mp hpre with heq | hpre
  · obtain ⟨rfl, hop⟩ := List.append_inj' heq rfl
    obtain rfl := List.singleton_inj.mp hop
    exact hlast
  · exact hadvances pre op' hpre

/-- What a run leaves while the copy is open. -/
structure OpenRun (id base : ℕ) (db : Database) (ops : List Op) : Prop where
  copied : Copied id base (db.run ops) (scannedRows id db ops)
  ids : (db.run ops).MemberIds
  rows : (db.run ops).JobRows
  unchanged : (db.run ops).membersOf base = db.membersOf base
  advances : ∀ pre op, pre ++ [op] <+: ops → Advances id (db.run pre) op
  pages : ops.countP (Op.isPageOf id) ≤ (scannedRows id db ops).length

theorem openRun (hids : db.MemberIds) (hrows : db.JobRows) (hstart : CopyStart id base db)
    (ops : List Op) (hopen : ∀ pre, pre <+: ops → (db.run pre).IsOpen id) :
    OpenRun id base db ops := by
  induction ops using List.reverseRecOn with
  | nil =>
    refine ⟨hstart.copied, hids, hrows, rfl, fun pre op hpre => ?_, Nat.zero_le _⟩
    exact absurd (List.prefix_nil.mp hpre) (by simp)
  | append_singleton ops op ih =>
    have h := ih fun pre hpre => hopen pre (hpre.trans (List.prefix_append _ _))
    have hlast := hopen (ops ++ [op]) (List.prefix_refl _)
    rw [run_concat] at hlast
    rcases h.copied.step h.ids h.rows op with hclosed | ⟨hadvances, hcopied | hfinished⟩
    · exact absurd hclosed hlast.not_closed
    · have hcopying : (db.run ops).Closed base := by
        obtain ⟨c, hcopying, -⟩ := h.copied.cursor
        exact hcopying.closed_base h.rows
      have hfrozen := step_frozen h.rows hcopying op
      constructor
      · rwa [run_concat, scannedRows_concat]
      · rw [run_concat]
        exact step_memberIds h.ids h.rows op
      · rw [run_concat]
        exact step_jobRows h.rows op
      · rw [run_concat]
        exact hfrozen.members.trans h.unchanged
      · exact advances_concat h.advances hadvances
      · rw [scannedRows_concat, List.countP_append, List.length_append]
        refine Nat.add_le_add h.pages ?_
        by_cases hop : op.isPageOf id = true
        · have hpos := h.copied.scannedBy_pos h.ids hop hlast
          have hone : [op].countP (Op.isPageOf id) = 1 := by simp [hop]
          rw [hone]
          exact hpos
        · simp [hop]
    · exact absurd hlast hfinished.not_isOpen

section Copies

variable {ops : List Op} (hadvances : ∀ pre op, pre ++ [op] <+: ops → Advances id (db.run pre) op)
include hadvances

/-- Every copy is of a row that was free when its page was read. -/
theorem exists_origin (hstart : ∀ m ∈ db.membersOf id, m.baseMemberId = none) :
    ∀ m ∈ (db.run ops).membersOf id, m.baseMemberId ≠ none → ∃ pre op post row,
      ops = pre ++ op :: post ∧ row ∈ (db.run pre).scannedBy id op ∧
        (db.run pre).IsFree id row ∧ m.IsCopyOf id row := by
  induction ops using List.reverseRecOn with
  | nil => exact fun m hm hcopy => absurd (hstart m hm) hcopy
  | append_singleton ops op ih =>
    intro m hm hcopy
    rw [run_concat] at hm
    rcases (hadvances ops op (List.prefix_refl _)).origin m hm hcopy with
      hm' | ⟨row, hrow, hfree, hcopied⟩
    · obtain ⟨pre, op', post, row, rfl, hrow⟩ := ih
        (fun pre op' hpre => hadvances pre op' (hpre.trans (List.prefix_append _ _))) m hm' hcopy
      exact ⟨pre, op', post ++ [op], row, by simp, hrow⟩
    · exact ⟨ops, op, [], row, rfl, hrow, hfree, hcopied⟩

/-- A free row has a copy from its page on, until an enqueue rebinds its entity. -/
theorem exists_copy {pre post : List Op} {op : Op} (hops : ops = pre ++ op :: post)
    {row : GenerationMember} (hrow : row ∈ (db.run pre).scannedBy id op)
    (hfree : (db.run pre).IsFree id row) :
    (∃ m ∈ (db.run ops).membersOf id, m.IsCopyOf id row) ∨
      ∃ between op' rest, post = between ++ op' :: rest ∧
        ReboundBy (db.run (pre ++ op :: between)) id row op' := by
  subst hops
  induction post using List.reverseRecOn with
  | nil =>
    rw [run_concat]
    exact .inl ((hadvances pre op (List.prefix_refl _)).inserted row hrow hfree)
  | append_singleton post op' ih =>
    have hlist : pre ++ op :: (post ++ [op']) = (pre ++ op :: post) ++ [op'] := by simp
    rw [hlist] at hadvances ⊢
    rcases ih fun pre' op'' hpre => hadvances pre' op'' (hpre.trans (List.prefix_append _ _)) with
      ⟨m, hm, hcopy⟩ | ⟨between, op'', rest, rfl, hrebound⟩
    · have hbase : m.baseMemberId ≠ none := by
        rw [hcopy]
        exact Option.some_ne_none row.memberId
      rw [run_concat]
      rcases (hadvances _ op' (List.prefix_refl _)).kept m hm hbase with hm' | hrebound
      · exact .inl ⟨m, hm', hcopy⟩
      · refine .inr ⟨post, op', [], rfl, ?_⟩
        obtain ⟨call, rebound, hop, hcall, hgeneration, hkind, hmem⟩ := hrebound
        rw [hcopy] at hkind hmem
        exact ⟨call, rebound, hop, hcall, hgeneration, hkind, hmem⟩
    · exact .inr ⟨between, op'', rest ++ [op'], by simp, hrebound⟩

end Copies

theorem mem_scannedRows {ops pre post : List Op} {op : Op} (hops : ops = pre ++ op :: post)
    {row : GenerationMember} (hrow : row ∈ (db.run pre).scannedBy id op) :
    row ∈ scannedRows id db ops := by
  rw [hops, scannedRows_append, scannedRows]
  exact List.mem_append_right _ (List.mem_append_left _ hrow)

/-- The cursor of a copy, `after_member_id`. -/
def Database.cloneCursor (db : Database) (id : ℕ) : ℕ :=
  ((db.generation id).bind fun g => g.cursor.baseClone).elim 0 BaseCloneCursor.afterMemberId

theorem Copied.cloneCursor (h : Copied id base db scanned) :
    db.cloneCursor id = lastMember scanned := by
  obtain ⟨c, ⟨g, hg, -, -, -, hcursor, -⟩, hfor⟩ := h.cursor
  unfold Database.cloneCursor
  rw [hg, Option.bind_some, hcursor]
  cases c with
  | none =>
    have hnone : scanned = [] := hfor
    rw [hnone]
    rfl
  | some c => exact hfor.2.1

theorem lastMember_mono {more : List GenerationMember}
    (hsorted : (rows ++ more).Pairwise fun a b => a.memberId < b.memberId) :
    lastMember rows ≤ lastMember (rows ++ more) := by
  rw [← foldr_max_memberId hsorted, ← foldr_max_memberId (List.pairwise_append.mp hsorted).1]
  refine foldr_max_le fun n hn => le_foldr_max ?_
  rw [List.map_append]
  exact List.mem_append_left _ hn

/-- What holds when the copy is completed: every row of the base was read once, in the order of
the identifiers; the copies are of distinct rows of the base, each free when its page was read;
and each row that was free has its copy, unless an enqueue rebound its entity since. -/
structure Completed (id base : ℕ) (db : Database) (ops : List Op) : Prop where
  unchanged : (db.run ops).membersOf base = db.membersOf base
  scanned : scannedRows id db ops = db.membersOf base
  once : (scannedRows id db ops).Nodup
  cursor : ∃ g c, (db.run ops).generation id = some g ∧ g.cursor.baseClone = some c ∧
    c.complete = true ∧ c.scannedMembers = c.baseMemberCount ∧
    c.baseMemberCount = (db.membersOf base).length ∧
    c.afterMemberId = lastMember (db.membersOf base)
  copies : ∀ m ∈ (db.run ops).membersOf id, m.baseMemberId ≠ none → ∃ pre op post row,
    ops = pre ++ op :: post ∧ row ∈ (db.run pre).scannedBy id op ∧
      (db.run pre).IsFree id row ∧ m.IsCopyOf id row
  distinct : ∀ m ∈ (db.run ops).membersOf id, ∀ m' ∈ (db.run ops).membersOf id,
    m.baseMemberId ≠ none → m.baseMemberId = m'.baseMemberId → m = m'
  kept : ∀ pre op post row, ops = pre ++ op :: post → row ∈ (db.run pre).scannedBy id op →
    (db.run pre).IsFree id row → (∃ m ∈ (db.run ops).membersOf id, m.IsCopyOf id row) ∨
      ∃ between op' rest, post = between ++ op' :: rest ∧
        ReboundBy (db.run (pre ++ op :: between)) id row op'

/-- The transaction that completes the copy. -/
theorem OpenRun.completed {ops : List Op} (h : OpenRun id base db ops)
    (hstart : CopyStart id base db) (hids : db.MemberIds) {op : Op} {g : EmbeddingGeneration}
    (hg : (db.run (ops ++ [op])).generation id = some g) (hbuilding : g.status = .building)
    (hcomplete : g.baseCloneComplete = true) : Completed id base db (ops ++ [op]) := by
  rw [run_concat] at hg
  rcases h.copied.step h.ids h.rows op with hclosed | ⟨hadvances, hcopied | hfinished⟩
  · exact absurd hbuilding (hclosed.status g (generation_spec hg).1 (generation_spec hg).2)
  · obtain ⟨c, ⟨g', hg', -, -, hopen, -⟩, -⟩ := hcopied.cursor
    rw [Option.some_inj.mp (hg.symm.trans hg'), hopen] at hcomplete
    cases hcomplete
  have hbase : (db.run (ops ++ [op])).membersOf base = db.membersOf base := by
    obtain ⟨c, hcopying, -⟩ := h.copied.cursor
    rw [run_concat]
    exact (step_frozen h.rows (hcopying.closed_base h.rows) op).members.trans h.unchanged
  have hall := advances_concat h.advances hadvances
  have hscanned : scannedRows id db (ops ++ [op]) = db.membersOf base := by
    rw [scannedRows_concat, hfinished.all, ← run_concat, hbase]
  have hlastIds : (db.run (ops ++ [op])).MemberIds := by
    rw [run_concat]
    exact step_memberIds h.ids h.rows op
  have horigin := exists_origin hall hstart.overrides
  refine ⟨hbase, hscanned, ?_, ?_, horigin, ?_, fun pre op' post row hops hrow hfree =>
    exists_copy hall hops hrow hfree⟩
  · rw [hscanned]
    exact (sorted_membersOf hids).imp fun hlt heq => hlt.ne (congrArg GenerationMember.memberId heq)
  · obtain ⟨g', c, hg', -, -, hcursor, hdone, hafter, hscannedCount, hcount⟩ := hfinished.cursor
    rw [← run_concat] at hg' hafter hscannedCount hcount
    rw [hbase] at hafter hscannedCount hcount
    exact ⟨g', c, hg', hcursor, hdone, hscannedCount.trans hcount.symm, hcount, hafter⟩
  · intro m hm m' hm' hcopy heq
    obtain ⟨pre, op₁, post, row, hops, hrow, -, hcopied⟩ := horigin m hm hcopy
    obtain ⟨pre', op₂, post', row', hops', hrow', -, hcopied'⟩ := horigin m' hm' (heq ▸ hcopy)
    have hmem : row ∈ db.membersOf base := hscanned ▸ mem_scannedRows hops hrow
    have hmem' : row' ∈ db.membersOf base := hscanned ▸ mem_scannedRows hops' hrow'
    have hsame : row.memberId = row'.memberId := by
      rw [hcopied, hcopied'] at heq
      exact Option.some_inj.mp heq
    obtain rfl := hids.unique.eq (mem_membersOf.mp hmem).1 (mem_membersOf.mp hmem').1 hsame
    refine hlastIds.entities.eq (mem_membersOf.mp hm).1 (mem_membersOf.mp hm').1 ?_
    rw [hcopied, hcopied']
    rfl

theorem run_memberIds (ops : List Op) : (Database.empty.run ops).MemberIds :=
  (run_induction (I := Database.MemberIds) (fun hstep _ h => hstep.memberIds h) jobRows_empty
    memberIds_empty ops).2

/-- **The copy of a base loses and repeats nothing**, whatever transactions run between its pages
and wherever it is interrupted and resumed.  While it is open its cursor only grows, there are at
most as many pages as the base has members, and the next page does not raise: it reads further
rows or completes the copy.  A transaction that completes it leaves what `Completed` says. -/
theorem base_clone_resumes (ops₀ ops : List Op) (id base : ℕ)
    (hstart : CopyStart id base (Database.empty.run ops₀))
    (hopen : ∀ pre, pre <+: ops → ((Database.empty.run ops₀).run pre).IsOpen id) :
    let db := Database.empty.run ops₀
    ops.countP (Op.isPageOf id) ≤ (db.membersOf base).length ∧
    (∀ pre pre', pre <+: pre' → pre' <+: ops →
      (db.run pre).cloneCursor id ≤ (db.run pre').cloneCursor id) ∧
    (∀ validateExtent, ∃ db' rows,
      (db.run ops).clonePublishedMembers id validateExtent = some (db', rows) ∧
        ((rows ≠ [] ∧ db'.IsOpen id) ∨
          Completed id base db (ops ++ [.clonePage id validateExtent]))) ∧
    ∀ op g, (db.run (ops ++ [op])).generation id = some g → g.status = .building →
      g.baseCloneComplete = true → Completed id base db (ops ++ [op]) := by
  intro db
  have hids : db.MemberIds := run_memberIds ops₀
  have hrows : db.JobRows := run_jobRows jobRows_empty ops₀
  have hrun : ∀ pre, pre <+: ops → OpenRun id base db pre := fun pre hpre =>
    openRun hids hrows hstart pre fun pre' hpre' => hopen pre' (hpre'.trans hpre)
  have h := hrun ops (List.prefix_refl ops)
  refine ⟨?_, ?_, ?_, fun op g hg hbuilding hcomplete =>
    h.completed hstart hids hg hbuilding hcomplete⟩
  · refine h.pages.trans ?_
    rw [← h.unchanged]
    exact h.copied.front.length_le
  · intro pre pre' hpre hpre'
    have hcopied' := (hrun pre' hpre').copied
    rw [(hrun pre (hpre.trans hpre')).copied.cloneCursor, hcopied'.cloneCursor]
    obtain ⟨more, rfl⟩ := hpre
    have hsorted := (sorted_membersOf (hrun _ hpre').ids).sublist hcopied'.front.sublist
    rw [scannedRows_append] at hsorted ⊢
    exact lastMember_mono hsorted
  · intro validateExtent
    obtain ⟨db', hpage, hresult⟩ := h.copied.page h.ids validateExtent
    refine ⟨db', nextRows (db.run ops) base (scannedRows id db ops), hpage, ?_⟩
    cases hresult with
    | finished _ _ hcursor =>
      obtain ⟨g, c, hg, hbuilding, hcomplete, -⟩ := hcursor
      have hstep : db.run (ops ++ [.clonePage id validateExtent]) = db' := by
        rw [run_concat]
        exact step_clonePage hpage
      exact .inr (h.completed hstart hids (hstep.symm ▸ hg) hbuilding hcomplete)
    | page hne hcopied =>
      obtain ⟨c, ⟨g, hg, hbuilding, -, hcomplete, -⟩, -⟩ := hcopied.cursor
      exact .inl ⟨hne, g, hg, hbuilding, hcomplete⟩

/-- A published generation with two members, and a candidate that starts from it. -/
def twoMemberOps : List Op :=
  [.registerModel ⟨['m'], .image, [.image], true⟩,
    .insertItem ⟨['i'], ['k'], ['s'], ['1'], some ['f'], ⟨['a'], 1, ['b']⟩, true⟩,
    .insertItem ⟨['j'], ['k'], ['t'], ['1'], some ['g'], ⟨['c'], 1, ['d']⟩, true⟩,
    .start ⟨['m'], ['p'], [], none, false, false⟩,
    .enqueue ⟨1, [['i'], ['j']], .image, .image, 3, 10, none, fun _ => .different⟩,
    .claim ⟨1, ['w'], 2, 5, 11, fun _ => true⟩,
    .complete 1 ['w'] [1] 12 ⟨1, none, []⟩,
    .complete 2 ['w'] [2] 12 ⟨1, none, []⟩,
    .finalize ⟨1, false, fun _ => false, fun _ => false, fun _ => false⟩,
    .start ⟨['m'], ['p'], [], none, false, false⟩]

/-- The second item changes and a worker leases a job of the candidate for it, then a page is copied,
and the copy is interrupted. -/
def overridingOps : List Op :=
  [.updateItem ['j'] ⟨['j'], ['k'], ['t'], ['2'], some ['g'], ⟨['e'], 1, ['d']⟩, true⟩,
    .enqueue ⟨2, [['j']], .image, .image, 3, 20, none, fun _ => .different⟩,
    .claim ⟨2, ['w'], 1, 5, 21, fun _ => true⟩,
    .clonePage 2 true]

/-- The copy resumes behind the page and is completed; the first member is copied, and the job of the
candidate stands for the second one. -/
theorem base_clone_resumes_twoMembers : CopyStart 2 1 (Database.empty.run twoMemberOps) ∧
    (∀ pre, pre <+: overridingOps → ((Database.empty.run twoMemberOps).run pre).IsOpen 2) ∧
    (((Database.empty.run twoMemberOps).run overridingOps).membersOf 2).map
      GenerationMember.baseMemberId = [some 1] ∧
    Completed 2 1 (Database.empty.run twoMemberOps) (overridingOps ++ [.clonePage 2 false]) := by
  have hstart : CopyStart 2 1 (Database.empty.run twoMemberOps) :=
    ⟨⟨_, rfl, rfl, rfl, rfl, rfl, _, rfl, rfl, rfl⟩, by decide⟩
  have hopen : ∀ pre, pre <+: overridingOps →
      ((Database.empty.run twoMemberOps).run pre).IsOpen 2 := by
    intro pre hpre
    have hpre := (List.mem_inits _ _).mpr hpre
    simp only [overridingOps, List.inits, List.map_cons, List.map_nil, List.mem_cons,
      List.not_mem_nil, or_false] at hpre
    obtain rfl | rfl | rfl | rfl | rfl := hpre
    · exact ⟨_, rfl, rfl, rfl⟩
    · exact ⟨_, rfl, rfl, rfl⟩
    · exact ⟨_, rfl, rfl, rfl⟩
    · exact ⟨_, rfl, rfl, rfl⟩
    · exact ⟨_, rfl, rfl, rfl⟩
  refine ⟨hstart, hopen, by decide, ?_⟩
  exact (base_clone_resumes twoMemberOps overridingOps 2 1 hstart hopen).2.2.2
    (.clonePage 2 false) _ rfl rfl rfl

end Semantic
end Neocortex
