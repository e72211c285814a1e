import Neocortex.Library.Rows
import Neocortex.Inventory.PlanRuns

/-!
# Retention of the inventory

`prune_obsolete_state` deletes the rows that no scan still needs, in many transactions of at
most a thousand rows.  What is needed is asked again before every transaction, of a database
from which earlier ones have already deleted.

* `Retained`: the recursive query of `_retained_scan_query`; `retained_iff` reads it as the
  components of the seeds in the graph of successors;
* `Batch`, `CallStep`, `PruneStep`: one transaction, one call, and the calls as steps that may stop
  anywhere;
* `Pruned`: what every transaction leaves, from `SameReferences.retained`: the query reads no row
  that is ever deleted;
* `Batch.planStep`: a transaction is a step of the plans that readers do not see;
* `work`: what every step of a call lowers, so that a call finishes;
* `prune_removes_only_unreachable`: the runs of any number of calls.
-/

namespace Neocortex
namespace Inventory

open Python Rows

/-! ## The tables -/

/-- A row of `fingerprints`, or of `fingerprint_content_evidence`. -/
structure CacheRow where
  volumeId : UInt64
  fileId : UInt64
  size : ℕ
  mtimeNs : ℤ
  birthtimeNs : ℤ
  algorithm : Text
  digest : Bytes
  deriving DecidableEq

/-- The primary key of `fingerprints`. -/
def CacheRow.fingerprintKey (f : CacheRow) : UInt64 × UInt64 × ℕ × ℤ × Text :=
  (f.volumeId, f.fileId, f.size, f.mtimeNs, f.algorithm)

/-- The primary key of `fingerprint_content_evidence`. -/
def CacheRow.evidenceKey (f : CacheRow) : UInt64 × UInt64 × ℕ × ℤ × ℤ × Text :=
  (f.volumeId, f.fileId, f.size, f.mtimeNs, f.birthtimeNs, f.algorithm)

/-- The file that a row is about. -/
def CacheRow.describes (f : CacheRow) (row : FileRow) : Prop :=
  row.volumeId = f.volumeId ∧ row.fileId = f.fileId ∧ row.size = f.size ∧
    row.mtimeNs = f.mtimeNs ∧ row.birthtimeNs = f.birthtimeNs

/-- The database of the inventory with its caches.  The primary keys of the caches hold in
every state. -/
structure RetentionState where
  db : Database
  fingerprints : List CacheRow
  evidence : List CacheRow
  fingerprintKeys : Unique CacheRow.fingerprintKey fingerprints
  evidenceKeys : Unique CacheRow.evidenceKey evidence

/-! ## What is retained -/

section Query

variable (db : Database) (protectedIds : List ℕ)

/-- `status='complete' AND errors=0 AND completed_ns IS NOT NULL`. -/
def Scan.isPublication (s : Scan) : Prop :=
  s.status = .complete ∧ s.counters.map ScanCounters.errors = some 0 ∧ s.completed = true

/-- `COALESCE((SELECT MAX(c.scan_id) FROM inventory_checkpoints c WHERE c.root=? AND
c.valid=1),0)`. -/
def validCheckpoint (root : Path) : ℕ :=
  match db.published[root]? with
  | some checkpoint => if checkpoint.valid then checkpoint.scanId else 0
  | none => 0

/-- The scan is the last publication of its root before the valid checkpoint. -/
def IsPrevious (root : Path) (scanId : ℕ) : Prop :=
  IsGreatest {id | id < validCheckpoint db root ∧
    ∃ s, db.scans[id]? = some s ∧ s.root.path = root ∧ s.isPublication} scanId

/-- `seed` of the query. -/
def IsSeed (scanId : ℕ) : Prop :=
  ∃ s, db.scans[scanId]? = some s ∧
    (s.status = .building ∨
      (∃ (root : Path) (checkpoint : PublishedInventory), db.published[root]? = some checkpoint ∧
        checkpoint.scanId = scanId) ∨
      scanId ∈ protectedIds ∨
      scanId ∈ db.plans.summaries ∨
      (∃ (groupId : ℕ) (group : PlannedGroup), db.plans.groups[groupId]? = some group ∧
        group.scanId = scanId) ∨
      scanId ∈ db.plans.heads ∨
      (s.isPublication ∧ IsPrevious db s.root.path scanId) ∨
      (s.isPublication ∧ validCheckpoint db s.root.path < scanId))

/-- `reachable` of the query: the least set with the seeds that is closed under both ends of
every successor edge. -/
inductive Retained : ℕ → Prop where
  | seed {scanId : ℕ} : IsSeed db protectedIds scanId → Retained scanId
  | predecessor {scanId successor : ℕ} : Retained successor →
      db.successors[scanId]? = some successor → Retained scanId
  | successor {scanId predecessor : ℕ} : Retained predecessor →
      db.successors[predecessor]? = some scanId → Retained scanId

/-- A successor edge, in either direction. -/
def Linked (a b : ℕ) : Prop := db.successors[a]? = some b ∨ db.successors[b]? = some a

/-- The retained scans are the components of the seeds. -/
theorem retained_iff {scanId : ℕ} : Retained db protectedIds scanId ↔
    ∃ seed, IsSeed db protectedIds seed ∧ Relation.ReflTransGen (Linked db) seed scanId := by
  constructor
  · intro h
    induction h with
    | seed h => exact ⟨_, h, .refl⟩
    | predecessor _ hedge ih =>
      obtain ⟨seed, hseed, hpath⟩ := ih
      exact ⟨seed, hseed, hpath.tail (.inr hedge)⟩
    | successor _ hedge ih =>
      obtain ⟨seed, hseed, hpath⟩ := ih
      exact ⟨seed, hseed, hpath.tail (.inl hedge)⟩
  · rintro ⟨seed, hseed, hpath⟩
    induction hpath with
    | refl => exact .seed hseed
    | tail _ hedge ih =>
      rcases hedge with hedge | hedge
      · exact .successor ih hedge
      · exact .predecessor ih hedge

end Query

/-- What the query reads. -/
structure SameReferences (db db' : Database) : Prop where
  scans : db'.scans = db.scans
  published : db'.published = db.published
  successors : db'.successors = db.successors
  heads : db'.heads = db.heads
  plans : db'.plans = db.plans

namespace SameReferences

theorem refl (db : Database) : SameReferences db db := ⟨rfl, rfl, rfl, rfl, rfl⟩

theorem symm {db db' : Database} (h : SameReferences db db') : SameReferences db' db :=
  ⟨h.scans.symm, h.published.symm, h.successors.symm, h.heads.symm, h.plans.symm⟩

theorem trans {db₁ db₂ db₃ : Database} (h : SameReferences db₁ db₂)
    (h' : SameReferences db₂ db₃) : SameReferences db₁ db₃ :=
  ⟨h'.scans.trans h.scans, h'.published.trans h.published, h'.successors.trans h.successors,
    h'.heads.trans h.heads, h'.plans.trans h.plans⟩

variable {db db' : Database} {protectedIds : List ℕ} {scanId : ℕ}

theorem isSeed (h : SameReferences db db') (hs : IsSeed db protectedIds scanId) :
    IsSeed db' protectedIds scanId := by
  unfold IsSeed IsPrevious validCheckpoint at *
  rw [h.scans, h.published, h.plans]
  exact hs

/-- The query reads no row that pruning deletes. -/
theorem retained (h : SameReferences db db') (hr : Retained db protectedIds scanId) :
    Retained db' protectedIds scanId := by
  induction hr with
  | seed hs => exact .seed (h.isSeed hs)
  | predecessor _ hedge ih => exact .predecessor ih (by rw [h.successors]; exact hedge)
  | successor _ hedge ih => exact .successor ih (by rw [h.successors]; exact hedge)

theorem retained_iff (h : SameReferences db db') :
    Retained db' protectedIds scanId ↔ Retained db protectedIds scanId :=
  ⟨h.symm.retained, h.retained⟩

end SameReferences

/-- A file of a retained scan stands behind the row. -/
def Backed (s : RetentionState) (protectedIds : List ℕ) (f : CacheRow) : Prop :=
  ∃ (scanId : ℕ) (path : Path) (row : FileRow), Retained s.db protectedIds scanId ∧
    (s.db.files scanId)[path]? = some row ∧ f.describes row

/-! ## The references that pruning asks for -/

/-- What `_validate_retention_references` accepts. -/
structure AcceptsReferences (db : Database) (protectedIds : List ℕ) : Prop where
  /-- `PRAGMA foreign_key_check` on the tables of the inventory. -/
  checkpoints : ∀ (root : Path) (checkpoint : PublishedInventory),
    db.published[root]? = some checkpoint → checkpoint.scanId ∈ db.scans
  files : ∀ scanId path, path ∈ db.files scanId → scanId ∈ db.scans
  generationHeads : ∀ scanId, scanId ∈ db.heads → scanId ∈ db.scans
  planHeads : ∀ scanId, scanId ∈ db.plans.heads → scanId ∈ db.scans
  edges : ∀ predecessor successor, db.successors[predecessor]? = some successor →
    predecessor ∈ db.scans ∧ successor ∈ db.scans
  versions : ∀ scanId path, path ∈ db.changeVersions scanId → path ∈ db.files scanId
  /-- No successor cycle. -/
  acyclic : ∀ scanId, ¬ Relation.TransGen (fun a b : ℕ => db.successors[a]? = some b) scanId scanId
  /-- No protected scan is missing. -/
  present : ∀ scanId ∈ protectedIds, scanId ∈ db.scans
  /-- No unresolved `duplicate_plan_summaries` or `planned_duplicate_groups` reference. -/
  summaries : ∀ scanId, scanId ∈ db.plans.summaries → scanId ∈ db.scans
  groups : ∀ (groupId : ℕ) (group : PlannedGroup), db.plans.groups[groupId]? = some group →
    group.scanId ∈ db.scans
  /-- No unresolved plan member reference. -/
  members : ∀ groupId, db.plans.members groupId ≠ [] → groupId ∈ db.plans.groups

/-! ## The transactions -/

/-- `PRUNE_BATCH_SIZE`. -/
def pruneBatchSize : ℕ := 1000

/-- `DELETE FROM planned_duplicate_members` and `planned_duplicate_groups` by `group_id`. -/
def Database.deleteGroups (db : Database) (groupIds : List ℕ) : Database :=
  { db with
    plans := { db.plans with
      members := fun groupId => if groupId ∈ groupIds then [] else db.plans.members groupId
      groups := db.plans.groups.filter fun groupId _ => groupId ∉ groupIds } }

/-- `DELETE FROM duplicate_plan_summaries WHERE scan_id=?`. -/
def Database.deleteSummaries (db : Database) (scanIds : List ℕ) : Database :=
  { db with
    plans := { db.plans with
      summaries := db.plans.summaries.filter fun scanId _ => scanId ∉ scanIds } }

/-- `DELETE FROM files WHERE scan_id=? AND path=?`, for every key of a batch. -/
def Database.deleteFileKeys (db : Database) (keys : List (ℕ × Path)) : Database :=
  keys.foldl (fun db key => db.deleteFiles key.1 fun path _ => path = key.2) db

/-- `DELETE FROM fingerprints` by the key. -/
def RetentionState.deleteFingerprints (s : RetentionState) (rows : List CacheRow) :
    RetentionState :=
  { s with
    fingerprints := deleteWhere
      (fun f => f.fingerprintKey ∈ rows.map CacheRow.fingerprintKey) s.fingerprints
    fingerprintKeys := unique_deleteWhere s.fingerprintKeys }

/-- `DELETE FROM fingerprint_content_evidence` by the key. -/
def RetentionState.deleteEvidence (s : RetentionState) (rows : List CacheRow) : RetentionState :=
  { s with
    evidence := deleteWhere
      (fun f => f.evidenceKey ∈ rows.map CacheRow.evidenceKey) s.evidence
    evidenceKeys := unique_deleteWhere s.evidenceKeys }

/-- The loops of `prune_obsolete_state`, in their order. -/
inductive Phase where
  | groups
  | summaries
  | files
  | fingerprints
  | evidence
  | finished
  deriving DecidableEq

/-- The loop that follows. -/
def Phase.next : Phase → Phase
  | .groups => .summaries
  | .summaries => .files
  | .files => .fingerprints
  | .fingerprints => .evidence
  | .evidence => .finished
  | .finished => .finished

/-- One transaction of a loop.  `LIMIT` leaves open which rows are selected. -/
inductive Batch (protectedIds : List ℕ) : Phase → RetentionState → RetentionState → Prop where
  | groups {s : RetentionState} {groupIds : List ℕ} : groupIds ≠ [] →
      groupIds.length ≤ pruneBatchSize →
      (∀ groupId ∈ groupIds, ∃ group : PlannedGroup, s.db.plans.groups[groupId]? = some group ∧
        ¬ Retained s.db protectedIds group.scanId) →
      Batch protectedIds .groups s { s with db := s.db.deleteGroups groupIds }
  | summaries {s : RetentionState} {scanIds : List ℕ} : scanIds ≠ [] →
      scanIds.length ≤ pruneBatchSize →
      (∀ scanId ∈ scanIds, scanId ∈ s.db.plans.summaries ∧ ¬ Retained s.db protectedIds scanId) →
      Batch protectedIds .summaries s { s with db := s.db.deleteSummaries scanIds }
  | files {s : RetentionState} {keys : List (ℕ × Path)} : keys ≠ [] →
      keys.length ≤ pruneBatchSize →
      (∀ key ∈ keys, key.1 ∈ s.db.scans ∧ ¬ Retained s.db protectedIds key.1 ∧
        key.2 ∈ s.db.files key.1) →
      Batch protectedIds .files s { s with db := s.db.deleteFileKeys keys }
  | fingerprints {s : RetentionState} {rows : List CacheRow} : rows ≠ [] →
      rows.length ≤ pruneBatchSize →
      (∀ f ∈ rows, f ∈ s.fingerprints ∧ ¬ Backed s protectedIds f) →
      Batch protectedIds .fingerprints s (s.deleteFingerprints rows)
  | evidence {s : RetentionState} {rows : List CacheRow} : rows ≠ [] →
      rows.length ≤ pruneBatchSize →
      (∀ f ∈ rows, f ∈ s.evidence ∧ ¬ Backed s protectedIds f) →
      Batch protectedIds .evidence s (s.deleteEvidence rows)

/-- A step of one call of `prune_obsolete_state`: a transaction, or the end of a loop that finds nothing
to delete. -/
inductive CallStep (protectedIds : List ℕ) :
    Phase × RetentionState → Phase × RetentionState → Prop where
  | batch {phase : Phase} {s s' : RetentionState} : Batch protectedIds phase s s' →
      CallStep protectedIds (phase, s) (phase, s')
  | next {phase : Phase} {s : RetentionState} : phase ≠ .finished →
      (∀ s', ¬ Batch protectedIds phase s s') → CallStep protectedIds (phase, s) (phase.next, s)

/-- A step of `prune_obsolete_state`, called any number of times with the same identifiers: a step of
the call, or a further call, before which the previous one has finished or was stopped between two
transactions. -/
inductive PruneStep (protectedIds : List ℕ) :
    Phase × RetentionState → Phase × RetentionState → Prop where
  | call {c c' : Phase × RetentionState} : CallStep protectedIds c c' → PruneStep protectedIds c c'
  | again {phase : Phase} {s : RetentionState} : AcceptsReferences s.db protectedIds →
      PruneStep protectedIds (phase, s) (.groups, s)

/-- The states that calls reach. -/
def PruneRun (protectedIds : List ℕ) (start : Phase × RetentionState) :
    Phase × RetentionState → Prop :=
  Relation.ReflTransGen (PruneStep protectedIds) start

/-! ## What a transaction leaves -/

theorem sameReferences_deleteFiles (db : Database) (scanId : ℕ) (gone : Path → FileRow → Bool) :
    SameReferences db (db.deleteFiles scanId gone) := ⟨rfl, rfl, rfl, rfl, rfl⟩

theorem files_deleteFiles_of_ne {scanId other : ℕ} (h : other ≠ scanId) (db : Database)
    (gone : Path → FileRow → Bool) : (db.deleteFiles scanId gone).files other = db.files other ∧
      (db.deleteFiles scanId gone).changeVersions other = db.changeVersions other :=
  ⟨Function.update_of_ne h _ _, Function.update_of_ne h _ _⟩

theorem mem_files_deleteFiles {db : Database} {scanId other : ℕ} {gone : Path → FileRow → Bool}
    {path : Path} (h : path ∈ (db.deleteFiles scanId gone).files other) :
    path ∈ db.files other := by
  by_cases hother : other = scanId
  · subst hother
    have hfilter : path ∈ (db.files other).filter fun path row => !gone path row := by
      simpa [Database.deleteFiles, Database.setFiles, Database.setChangeVersions] using h
    exact Std.ExtTreeMap.mem_of_mem_filter hfilter
  · rwa [(files_deleteFiles_of_ne hother db gone).1] at h

theorem mem_changeVersions_deleteFiles {db : Database} {scanId : ℕ} {gone : Path → FileRow → Bool}
    {path : Path} (h : path ∈ (db.deleteFiles scanId gone).changeVersions scanId) :
    path ∈ (db.deleteFiles scanId gone).files scanId := by
  have hversions : (db.deleteFiles scanId gone).changeVersions scanId =
      (db.changeVersions scanId).filter fun path _ =>
        ((db.deleteFiles scanId gone).files scanId).contains path := by
    simp [Database.deleteFiles, Database.setFiles, Database.setChangeVersions]
  rw [hversions] at h
  obtain ⟨hmem, hcontains⟩ := Std.ExtTreeMap.mem_filter.mp h
  rwa [Std.ExtTreeMap.getKey_eq, Std.ExtTreeMap.contains_iff_mem] at hcontains

/-- What is validated stays so. -/
theorem AcceptsReferences.deleteFiles {db : Database} {protectedIds : List ℕ}
    (h : AcceptsReferences db protectedIds) (scanId : ℕ) (gone : Path → FileRow → Bool) :
    AcceptsReferences (db.deleteFiles scanId gone) protectedIds :=
  { h with
    files := fun other path hpath => h.files other path (mem_files_deleteFiles hpath)
    versions := fun other path hpath => by
      by_cases hother : other = scanId
      · subst hother
        exact mem_changeVersions_deleteFiles hpath
      · rw [(files_deleteFiles_of_ne hother db gone).2] at hpath
        rw [(files_deleteFiles_of_ne hother db gone).1]
        exact h.versions other path hpath }

section FileKeys

variable {db : Database} {keys : List (ℕ × Path)}

theorem sameReferences_deleteFileKeys (keys : List (ℕ × Path)) (db : Database) :
    SameReferences db (db.deleteFileKeys keys) := by
  induction keys generalizing db with
  | nil => exact SameReferences.refl db
  | cons key keys ih => exact (sameReferences_deleteFiles db key.1 _).trans (ih _)

/-- A batch leaves the rows of the scans that it does not name. -/
theorem files_deleteFileKeys {scanId : ℕ} (h : ∀ key ∈ keys, key.1 ≠ scanId) (db : Database) :
    (db.deleteFileKeys keys).files scanId = db.files scanId ∧
      (db.deleteFileKeys keys).changeVersions scanId = db.changeVersions scanId := by
  induction keys generalizing db with
  | nil => exact ⟨rfl, rfl⟩
  | cons key keys ih =>
    have hne : scanId ≠ key.1 := fun heq => h key List.mem_cons_self heq.symm
    have hrest := ih (fun k hk => h k (List.mem_cons_of_mem _ hk))
      (db.deleteFiles key.1 fun path _ => path = key.2)
    have hfirst := files_deleteFiles_of_ne hne db fun path _ => decide (path = key.2)
    exact ⟨hrest.1.trans hfirst.1, hrest.2.trans hfirst.2⟩

theorem AcceptsReferences.deleteFileKeys {protectedIds : List ℕ}
    (h : AcceptsReferences db protectedIds) :
    AcceptsReferences (db.deleteFileKeys keys) protectedIds := by
  induction keys generalizing db with
  | nil => exact h
  | cons key keys ih => exact ih (h.deleteFiles key.1 _)

end FileKeys

section Run

variable {protectedIds : List ℕ} {s₀ s s' : RetentionState} {phase phase' : Phase}

/-- What is left of the state in which the first call begins. -/
structure Pruned (protectedIds : List ℕ) (s₀ s : RetentionState) : Prop where
  accepted : AcceptsReferences s.db protectedIds
  references : SameReferences s₀.db s.db
  files : ∀ scanId, Retained s₀.db protectedIds scanId →
    s.db.files scanId = s₀.db.files scanId ∧
      s.db.changeVersions scanId = s₀.db.changeVersions scanId
  fingerprints : ∀ f ∈ s.fingerprints, f ∈ s₀.fingerprints
  lostFingerprints : ∀ f ∈ s₀.fingerprints, f ∉ s.fingerprints → ¬ Backed s₀ protectedIds f
  evidence : ∀ f ∈ s.evidence, f ∈ s₀.evidence
  lostEvidence : ∀ f ∈ s₀.evidence, f ∉ s.evidence → ¬ Backed s₀ protectedIds f

namespace Pruned

theorem refl (h : AcceptsReferences s.db protectedIds) : Pruned protectedIds s s where
  accepted := h
  references := SameReferences.refl s.db
  files _ _ := ⟨rfl, rfl⟩
  fingerprints _ h := h
  lostFingerprints _ h hnot := absurd h hnot
  evidence _ h := h
  lostEvidence _ h hnot := absurd h hnot

variable (h : Pruned protectedIds s₀ s)

include h

theorem retained_iff {scanId : ℕ} :
    Retained s.db protectedIds scanId ↔ Retained s₀.db protectedIds scanId :=
  h.references.retained_iff

/-- The files behind the rows of the caches are still there. -/
theorem backed_iff {f : CacheRow} : Backed s protectedIds f ↔ Backed s₀ protectedIds f := by
  constructor
  · rintro ⟨scanId, path, row, hr, hrow, hf⟩
    rw [h.retained_iff] at hr
    rw [(h.files scanId hr).1] at hrow
    exact ⟨scanId, path, row, hr, hrow, hf⟩
  · rintro ⟨scanId, path, row, hr, hrow, hf⟩
    refine ⟨scanId, path, row, h.retained_iff.mpr hr, ?_, hf⟩
    rw [(h.files scanId hr).1]
    exact hrow

/-- The scans of the plans are retained, so that no row of a plan is a candidate. -/
theorem group_retained {groupId : ℕ} {group : PlannedGroup}
    (hgroup : s.db.plans.groups[groupId]? = some group) :
    Retained s.db protectedIds group.scanId := by
  have hscan := h.accepted.groups groupId group hgroup
  exact .seed ⟨_, Std.ExtTreeMap.getElem?_eq_some_getElem hscan,
    .inr (.inr (.inr (.inr (.inl ⟨groupId, group, hgroup, rfl⟩))))⟩

theorem summary_retained {scanId : ℕ}
    (hsummary : scanId ∈ s.db.plans.summaries) : Retained s.db protectedIds scanId := by
  have hscan := h.accepted.summaries scanId hsummary
  exact .seed ⟨_, Std.ExtTreeMap.getElem?_eq_some_getElem hscan,
    .inr (.inr (.inr (.inl hsummary)))⟩

/-- **One transaction.** -/
theorem batch (hbatch : Batch protectedIds phase s s') : Pruned protectedIds s₀ s' := by
  cases hbatch with
  | groups hne _ hids =>
    obtain ⟨groupId, hmem⟩ := List.exists_mem_of_ne_nil _ hne
    obtain ⟨group, hgroup, hnot⟩ := hids groupId hmem
    exact absurd (h.group_retained hgroup) hnot
  | summaries hne _ hids =>
    obtain ⟨scanId, hmem⟩ := List.exists_mem_of_ne_nil _ hne
    obtain ⟨hsummary, hnot⟩ := hids scanId hmem
    exact absurd (h.summary_retained hsummary) hnot
  | @files _ keys _ _ hkeys =>
    refine { h with
      references := h.references.trans (sameReferences_deleteFileKeys keys s.db)
      accepted := h.accepted.deleteFileKeys
      files := fun scanId hr => ?_ }
    have hother : ∀ key ∈ keys, key.1 ≠ scanId := by
      rintro key hkey rfl
      exact (hkeys key hkey).2.1 (h.retained_iff.mpr hr)
    exact ⟨(files_deleteFileKeys hother s.db).1.trans (h.files scanId hr).1,
      (files_deleteFileKeys hother s.db).2.trans (h.files scanId hr).2⟩
  | @fingerprints _ rows _ _ hrows =>
    refine { h with
      fingerprints := fun f hf => h.fingerprints f (mem_deleteWhere.mp hf).1
      lostFingerprints := fun f hf hnot => ?_ }
    by_cases hmem : f ∈ s.fingerprints
    · -- it was deleted by this batch, by its own key
      have hkey : f.fingerprintKey ∈ rows.map CacheRow.fingerprintKey := by
        by_contra hkey
        exact hnot (mem_deleteWhere.mpr ⟨hmem, decide_eq_false hkey⟩)
      obtain ⟨g, hg, hsame⟩ := List.mem_map.mp hkey
      obtain ⟨hgmem, hback⟩ := hrows g hg
      rw [← s.fingerprintKeys.eq hgmem hmem hsame, ← h.backed_iff]
      exact hback
    · exact h.lostFingerprints f hf hmem
  | @evidence _ rows _ _ hrows =>
    refine { h with
      evidence := fun f hf => h.evidence f (mem_deleteWhere.mp hf).1
      lostEvidence := fun f hf hnot => ?_ }
    by_cases hmem : f ∈ s.evidence
    · have hkey : f.evidenceKey ∈ rows.map CacheRow.evidenceKey := by
        by_contra hkey
        exact hnot (mem_deleteWhere.mpr ⟨hmem, decide_eq_false hkey⟩)
      obtain ⟨g, hg, hsame⟩ := List.mem_map.mp hkey
      obtain ⟨hgmem, hback⟩ := hrows g hg
      rw [← s.evidenceKeys.eq hgmem hmem hsame, ← h.backed_iff]
      exact hback
    · exact h.lostEvidence f hf hmem

/-- The tables of the plans are what they were, and the scans with planned groups keep their rows. -/
theorem planStep (haccepted : AcceptsReferences s₀.db protectedIds) : PlanStep s₀.db [] s.db := by
  refine .other h.references.plans fun scanId hcomplete hplanned => ⟨?_, ?_⟩
  · unfold Database.isComplete
    rw [h.references.scans]
    exact hcomplete
  · obtain ⟨r, hr⟩ := List.exists_mem_of_ne_nil _ hplanned
    obtain ⟨hgroup, hscan⟩ := mem_ofScan.mp hr
    have hretained := (refl haccepted).group_retained hgroup
    rw [hscan] at hretained
    exact (h.files scanId hretained).1

end Pruned

/-- A transaction of pruning is a step of the plans: no row of a plan is a candidate. -/
theorem Batch.planStep (haccepted : AcceptsReferences s.db protectedIds)
    (h : Batch protectedIds phase s s') : PlanStep s.db [] s'.db :=
  ((Pruned.refl haccepted).batch h).planStep haccepted

/-! ## What a finished call leaves -/

/-- No scan but the retained ones has rows. -/
def FilesClean (protectedIds : List ℕ) (s : RetentionState) : Prop :=
  ∀ scanId, ¬ Retained s.db protectedIds scanId → s.db.files scanId = ∅

/-- A file stands behind every row. -/
def CacheClean (protectedIds : List ℕ) (s : RetentionState) (rows : List CacheRow) : Prop :=
  ∀ f ∈ rows, Backed s protectedIds f

/-- What the loops before a phase have left. -/
def Cleaned (protectedIds : List ℕ) (s : RetentionState) : Phase → Prop
  | .groups | .summaries | .files => True
  | .fingerprints => FilesClean protectedIds s
  | .evidence => FilesClean protectedIds s ∧ CacheClean protectedIds s s.fingerprints
  | .finished => FilesClean protectedIds s ∧ CacheClean protectedIds s s.fingerprints ∧
      CacheClean protectedIds s s.evidence

theorem filesClean_of_no_batch (h : Pruned protectedIds s₀ s)
    (hnone : ∀ s', ¬ Batch protectedIds .files s s') :
    FilesClean protectedIds s := by
  intro scanId hr
  rw [Std.ExtTreeMap.eq_empty_iff_forall_not_mem]
  intro path hpath
  have hscan := h.accepted.files scanId path hpath
  refine hnone _ (@Batch.files protectedIds s [(scanId, path)] (List.cons_ne_nil _ _)
    (by simp [pruneBatchSize]) ?_)
  intro key hkey
  rw [List.mem_singleton.mp hkey]
  exact ⟨hscan, hr, hpath⟩

theorem fingerprintsClean_of_no_batch (hnone : ∀ s', ¬ Batch protectedIds .fingerprints s s') :
    CacheClean protectedIds s s.fingerprints := by
  intro f hf
  by_contra hback
  refine hnone _ (@Batch.fingerprints protectedIds s [f] (List.cons_ne_nil _ _)
    (by simp [pruneBatchSize]) ?_)
  intro g hg
  rw [List.mem_singleton.mp hg]
  exact ⟨hf, hback⟩

theorem evidenceClean_of_no_batch (hnone : ∀ s', ¬ Batch protectedIds .evidence s s') :
    CacheClean protectedIds s s.evidence := by
  intro f hf
  by_contra hback
  refine hnone _ (@Batch.evidence protectedIds s [f] (List.cons_ne_nil _ _)
    (by simp [pruneBatchSize]) ?_)
  intro g hg
  rw [List.mem_singleton.mp hg]
  exact ⟨hf, hback⟩

/-- A transaction leaves clean what the earlier loops have cleaned. -/
theorem Cleaned.batch (h : Cleaned protectedIds s phase)
    (hbatch : Batch protectedIds phase s s') : Cleaned protectedIds s' phase := by
  cases hbatch with
  | groups => trivial
  | summaries => trivial
  | files => trivial
  | fingerprints => exact h
  | evidence => exact h

/-- A loop that finds nothing has cleaned its own table. -/
theorem Cleaned.next (hkept : Pruned protectedIds s₀ s) (h : Cleaned protectedIds s phase)
    (hnone : ∀ s', ¬ Batch protectedIds phase s s') : Cleaned protectedIds s phase.next := by
  cases phase with
  | groups => trivial
  | summaries => trivial
  | files => exact filesClean_of_no_batch hkept hnone
  | fingerprints => exact ⟨h, fingerprintsClean_of_no_batch hnone⟩
  | evidence => exact ⟨h.1, h.2, evidenceClean_of_no_batch hnone⟩
  | finished => exact h

/-- **One step.** -/
theorem pruned_cleaned_step (hkept : Pruned protectedIds s₀ s)
    (hclean : Cleaned protectedIds s phase)
    (hstep : PruneStep protectedIds (phase, s) (phase', s')) :
    Pruned protectedIds s₀ s' ∧ Cleaned protectedIds s' phase' := by
  cases hstep with
  | call hcall =>
    cases hcall with
    | batch hbatch => exact ⟨hkept.batch hbatch, hclean.batch hbatch⟩
    | next _ hnone => exact ⟨hkept, hclean.next hkept hnone⟩
  | again _ => exact ⟨hkept, trivial⟩

/-- **Every run.** -/
theorem pruned_cleaned_run (haccepted : AcceptsReferences s₀.db protectedIds)
    {final : Phase × RetentionState} (hrun : PruneRun protectedIds (.groups, s₀) final) :
    Pruned protectedIds s₀ final.2 ∧ Cleaned protectedIds final.2 final.1 := by
  induction hrun with
  | refl => exact ⟨Pruned.refl haccepted, trivial⟩
  | tail _ hstep ih => exact pruned_cleaned_step ih.1 ih.2 hstep

/-- Behind a finished call there is nothing to delete. -/
theorem no_batch_of_finished (hkept : Pruned protectedIds s₀ s)
    (hclean : Cleaned protectedIds s .finished) :
    ¬ Batch protectedIds phase s s' := by
  intro hbatch
  obtain ⟨hfiles, hfingerprints, hevidence⟩ := hclean
  cases hbatch with
  | groups hne _ hids =>
    obtain ⟨groupId, hmem⟩ := List.exists_mem_of_ne_nil _ hne
    obtain ⟨group, hgroup, hnot⟩ := hids groupId hmem
    exact hnot (hkept.group_retained hgroup)
  | summaries hne _ hids =>
    obtain ⟨scanId, hmem⟩ := List.exists_mem_of_ne_nil _ hne
    obtain ⟨hsummary, hnot⟩ := hids scanId hmem
    exact hnot (hkept.summary_retained hsummary)
  | files hne _ hkeys =>
    obtain ⟨key, hmem⟩ := List.exists_mem_of_ne_nil _ hne
    obtain ⟨-, hnot, hpath⟩ := hkeys key hmem
    rw [hfiles key.1 hnot] at hpath
    exact absurd hpath Std.ExtTreeMap.not_mem_empty
  | fingerprints hne _ hrows =>
    obtain ⟨f, hmem⟩ := List.exists_mem_of_ne_nil _ hne
    exact (hrows f hmem).2 (hfingerprints f (hrows f hmem).1)
  | evidence hne _ hrows =>
    obtain ⟨f, hmem⟩ := List.exists_mem_of_ne_nil _ hne
    exact (hrows f hmem).2 (hevidence f (hrows f hmem).1)

/-- Further calls change nothing. -/
theorem eq_of_run_finished (hkept : Pruned protectedIds s₀ s)
    (hclean : Cleaned protectedIds s .finished)
    {final : Phase × RetentionState} (hrun : PruneRun protectedIds (.finished, s) final) :
    final.2 = s := by
  induction hrun with
  | refl => rfl
  | @tail middle final _ hstep ih =>
    obtain ⟨phase, s₁⟩ := middle
    obtain rfl : s₁ = s := ih
    cases hstep with
    | call hcall =>
      cases hcall with
      | batch hbatch => exact absurd hbatch (no_batch_of_finished hkept hclean)
      | next _ _ => rfl
    | again _ => rfl

/-! ## A call finishes -/

/-- The rows of all files. -/
def Database.fileRows (db : Database) : ℕ := (db.scans.keys.map fun id => (db.files id).size).sum

/-- The rows that the loops may delete. -/
def RetentionState.rows (s : RetentionState) : ℕ :=
  s.db.fileRows + s.fingerprints.length + s.evidence.length

/-- The loops from a phase on. -/
def Phase.toGo : Phase → ℕ
  | .groups => 5
  | .summaries => 4
  | .files => 3
  | .fingerprints => 2
  | .evidence => 1
  | .finished => 0

/-- What a call still has to do: the rows, and the loops. -/
def work (c : Phase × RetentionState) : ℕ := c.2.rows + c.1.toGo

theorem Phase.toGo_next {phase : Phase} (h : phase ≠ .finished) : phase.next.toGo < phase.toGo := by
  cases phase <;> simp [Phase.next, Phase.toGo] at h ⊢

section FileRows

variable (db : Database) (scanId : ℕ) (gone : Path → FileRow → Bool)

theorem size_files_deleteFiles_le (other : ℕ) :
    ((db.deleteFiles scanId gone).files other).size ≤ (db.files other).size := by
  by_cases h : other = scanId
  · subst h
    have hfiles : (db.deleteFiles other gone).files other =
        (db.files other).filter fun path row => !gone path row := by
      simp [Database.deleteFiles, Database.setFiles, Database.setChangeVersions]
    rw [hfiles]
    exact Std.ExtTreeMap.size_filter_le_size
  · rw [(files_deleteFiles_of_ne h db gone).1]

theorem fileRows_deleteFiles_le : (db.deleteFiles scanId gone).fileRows ≤ db.fileRows :=
  List.sum_le_sum fun other _ => size_files_deleteFiles_le db scanId gone other

theorem fileRows_deleteFileKeys_le (keys : List (ℕ × Path)) (db : Database) :
    (db.deleteFileKeys keys).fileRows ≤ db.fileRows := by
  induction keys generalizing db with
  | nil => exact le_rfl
  | cons key keys ih => exact (ih _).trans (fileRows_deleteFiles_le db key.1 _)

/-- The row of a key is gone. -/
theorem size_files_deleteFiles_lt {path : Path} (hpath : path ∈ db.files scanId) :
    ((db.deleteFiles scanId fun p _ => p = path).files scanId).size < (db.files scanId).size := by
  have hfiles : (db.deleteFiles scanId fun p _ => p = path).files scanId =
      (db.files scanId).filter fun p _ => !decide (p = path) := by
    simp [Database.deleteFiles, Database.setFiles, Database.setChangeVersions]
  rw [hfiles]
  refine lt_of_le_of_ne Std.ExtTreeMap.size_filter_le_size fun heq => ?_
  have hall := Std.ExtTreeMap.size_filter_eq_size_iff.mp heq path hpath
  simp at hall

theorem fileRows_deleteFiles_lt {path : Path} (hscan : scanId ∈ db.scans)
    (hpath : path ∈ db.files scanId) :
    (db.deleteFiles scanId fun p _ => p = path).fileRows < db.fileRows :=
  List.sum_lt_sum _ _ (fun other _ => size_files_deleteFiles_le db scanId _ other)
    ⟨scanId, Std.ExtTreeMap.mem_keys.mpr hscan, size_files_deleteFiles_lt db scanId hpath⟩

end FileRows

theorem length_deleteWhere_lt {α : Type} {p : α → Bool} {rows : List α} {a : α} (ha : a ∈ rows)
    (hp : p a = true) : (deleteWhere p rows).length < rows.length :=
  List.length_filter_lt_length_iff_exists.mpr ⟨a, ha, by simp [hp]⟩

/-- **A transaction deletes a row.** -/
theorem rows_lt_of_batch (hkept : Pruned protectedIds s₀ s) (hbatch : Batch protectedIds phase s s') :
    s'.rows < s.rows := by
  cases hbatch with
  | groups hne _ hids =>
    obtain ⟨groupId, hmem⟩ := List.exists_mem_of_ne_nil _ hne
    obtain ⟨group, hgroup, hnot⟩ := hids groupId hmem
    exact absurd (hkept.group_retained hgroup) hnot
  | summaries hne _ hids =>
    obtain ⟨scanId, hmem⟩ := List.exists_mem_of_ne_nil _ hne
    obtain ⟨hsummary, hnot⟩ := hids scanId hmem
    exact absurd (hkept.summary_retained hsummary) hnot
  | @files _ keys hne _ hkeys =>
    obtain ⟨key, keys, rfl⟩ := List.exists_cons_of_ne_nil hne
    obtain ⟨hscan, -, hpath⟩ := hkeys key List.mem_cons_self
    have hfirst := fileRows_deleteFiles_lt s.db key.1 hscan hpath
    have hrest := fileRows_deleteFileKeys_le keys (s.db.deleteFiles key.1 fun p _ => p = key.2)
    show (s.db.deleteFileKeys (key :: keys)).fileRows + s.fingerprints.length +
      s.evidence.length < s.rows
    rw [RetentionState.rows]
    have : (s.db.deleteFileKeys (key :: keys)).fileRows < s.db.fileRows := hrest.trans_lt hfirst
    omega
  | @fingerprints _ rows hne _ hrows =>
    obtain ⟨f, hf⟩ := List.exists_mem_of_ne_nil _ hne
    have hlt : (s.deleteFingerprints rows).fingerprints.length < s.fingerprints.length :=
      length_deleteWhere_lt (hrows f hf).1 (decide_eq_true (List.mem_map_of_mem hf))
    show s.db.fileRows + (s.deleteFingerprints rows).fingerprints.length + s.evidence.length < s.rows
    rw [RetentionState.rows]
    omega
  | @evidence _ rows hne _ hrows =>
    obtain ⟨f, hf⟩ := List.exists_mem_of_ne_nil _ hne
    have hlt : (s.deleteEvidence rows).evidence.length < s.evidence.length :=
      length_deleteWhere_lt (hrows f hf).1 (decide_eq_true (List.mem_map_of_mem hf))
    show s.db.fileRows + s.fingerprints.length + (s.deleteEvidence rows).evidence.length < s.rows
    rw [RetentionState.rows]
    omega

/-- **A step of a call lowers its work.** -/
theorem work_lt_of_call {c c' : Phase × RetentionState} (hkept : Pruned protectedIds s₀ c.2)
    (hcall : CallStep protectedIds c c') : work c' < work c := by
  cases hcall with
  | batch hbatch => exact Nat.add_lt_add_right (rows_lt_of_batch hkept hbatch) _
  | next hphase _ => exact Nat.add_lt_add_left (Phase.toGo_next hphase) _

/-- A call that is not finished has a step to make. -/
theorem exists_call (protectedIds : List ℕ) {c : Phase × RetentionState} (h : c.1 ≠ .finished) :
    ∃ c', CallStep protectedIds c c' := by
  obtain ⟨phase, s⟩ := c
  by_cases hbatch : ∃ s', Batch protectedIds phase s s'
  · obtain ⟨s', hbatch⟩ := hbatch
    exact ⟨_, .batch hbatch⟩
  · exact ⟨_, .next h fun s' hs' => hbatch ⟨s', hs'⟩⟩

theorem Pruned.call {c c' : Phase × RetentionState} (hkept : Pruned protectedIds s₀ c.2)
    (hcall : CallStep protectedIds c c') : Pruned protectedIds s₀ c'.2 := by
  cases hcall with
  | batch hbatch => exact hkept.batch hbatch
  | next _ _ => exact hkept

/-- **A call that is not stopped finishes.** -/
theorem exists_finished (n : ℕ) (c : Phase × RetentionState) (hn : work c = n)
    (hkept : Pruned protectedIds s₀ c.2) :
    ∃ s', Relation.ReflTransGen (CallStep protectedIds) c (.finished, s') := by
  induction n using Nat.strong_induction_on generalizing c with
  | _ n ih =>
    by_cases hphase : c.1 = .finished
    · obtain ⟨phase, s⟩ := c
      obtain rfl : phase = .finished := hphase
      exact ⟨s, .refl⟩
    · obtain ⟨c', hcall⟩ := exists_call protectedIds hphase
      obtain ⟨s', hrun⟩ := ih (work c') (hn ▸ work_lt_of_call hkept hcall) c' rfl (hkept.call hcall)
      exact ⟨s', .head hcall hrun⟩

theorem prune_of_call {c c' : Phase × RetentionState}
    (h : Relation.ReflTransGen (CallStep protectedIds) c c') : PruneRun protectedIds c c' :=
  h.lift id fun _ _ => PruneStep.call

end Run

/-- **Pruning removes only what no scan needs.**  In every state that calls reach from an
accepted database, stopped wherever they were: the retained scans are those of the beginning,
with all their rows; the references are untouched; a row of a cache is gone only if no file of
a retained scan stands behind it.  Every step of a call lowers its work, so that a call that is not
stopped finishes.  A finished call leaves no row of another scan and no row of a cache without a file,
and further calls change nothing. -/
theorem prune_removes_only_unreachable (protectedIds : List ℕ) (s₀ : RetentionState)
    (haccepted : AcceptsReferences s₀.db protectedIds) (phase : Phase) (s : RetentionState)
    (hrun : PruneRun protectedIds (.groups, s₀) (phase, s)) :
    (∀ scanId, Retained s.db protectedIds scanId ↔ Retained s₀.db protectedIds scanId) ∧
      (∀ scanId, Retained s₀.db protectedIds scanId →
        s.db.files scanId = s₀.db.files scanId ∧
          s.db.changeVersions scanId = s₀.db.changeVersions scanId) ∧
      SameReferences s₀.db s.db ∧ AcceptsReferences s.db protectedIds ∧
      (∀ f ∈ s₀.fingerprints, f ∉ s.fingerprints → ¬ Backed s₀ protectedIds f) ∧
      (∀ f ∈ s₀.evidence, f ∉ s.evidence → ¬ Backed s₀ protectedIds f) ∧
      (∀ c, CallStep protectedIds (phase, s) c → work c < work (phase, s)) ∧
      (∃ s', Relation.ReflTransGen (CallStep protectedIds) (phase, s) (.finished, s')) ∧
      (phase = .finished →
        (∀ scanId, ¬ Retained s₀.db protectedIds scanId → s.db.files scanId = ∅) ∧
          (∀ f, f ∈ s.fingerprints ↔ f ∈ s₀.fingerprints ∧ Backed s₀ protectedIds f) ∧
          (∀ f, f ∈ s.evidence ↔ f ∈ s₀.evidence ∧ Backed s₀ protectedIds f) ∧
          ∀ phase' s', PruneRun protectedIds (.finished, s) (phase', s') → s' = s) := by
  obtain ⟨hkept, hclean⟩ := pruned_cleaned_run haccepted hrun
  refine ⟨fun scanId => hkept.retained_iff, hkept.files, hkept.references, hkept.accepted,
    hkept.lostFingerprints, hkept.lostEvidence, fun c => work_lt_of_call hkept,
    exists_finished _ _ rfl hkept, ?_⟩
  rintro rfl
  obtain ⟨hfiles, hfingerprints, hevidence⟩ := hclean
  refine ⟨fun scanId hr => hfiles scanId fun h => hr (hkept.retained_iff.mp h), fun f => ?_,
    fun f => ?_, fun phase' s' hrun' => ?_⟩
  · constructor
    · exact fun hf => ⟨hkept.fingerprints f hf, hkept.backed_iff.mp (hfingerprints f hf)⟩
    · rintro ⟨hf, hback⟩
      by_contra hnot
      exact hkept.lostFingerprints f hf hnot hback
  · constructor
    · exact fun hf => ⟨hkept.evidence f hf, hkept.backed_iff.mp (hevidence f hf)⟩
    · rintro ⟨hf, hback⟩
      by_contra hnot
      exact hkept.lostEvidence f hf hnot hback
  · exact eq_of_run_finished hkept ⟨hfiles, hfingerprints, hevidence⟩ hrun'

/-- A row of a cache about the file `fileId`. -/
def cacheRow (fileId : UInt64) : CacheRow := ⟨1, fileId, 0, 0, 0, lit "sha256", [0]⟩

/-- A scan that broke off, with the row of file 9, and a scan that is still being built, with that of
file 2.  The caches know both files. -/
def brokenOffAndBuilding : RetentionState where
  db :=
    let root : RootIdentity := ⟨[], 1, 1, 0⟩
    { scans := (∅ : Table ℕ Scan)
        |>.insert 1 ⟨root, false, none, .partialScan, []⟩
        |>.insert 2 ⟨root, false, none, .building, []⟩
      files := fun scanId =>
        if scanId = 1 then (∅ : Files).insert [] ⟨1, 9, 0, 0, 0⟩
        else if scanId = 2 then (∅ : Files).insert [] ⟨1, 2, 0, 0, 0⟩ else ∅ }
  fingerprints := [cacheRow 2, cacheRow 9]
  evidence := [cacheRow 9, cacheRow 2]
  fingerprintKeys := by simp [Rows.Unique, CacheRow.fingerprintKey, cacheRow]
  evidenceKeys := by simp [Rows.Unique, CacheRow.evidenceKey, cacheRow]

section BrokenOff

theorem accepts_brokenOffAndBuilding : AcceptsReferences brokenOffAndBuilding.db [] where
  checkpoints root checkpoint h := by simp [brokenOffAndBuilding] at h
  files scanId path h := by
    by_cases hone : scanId = 1
    · simp [brokenOffAndBuilding, hone]
    · by_cases htwo : scanId = 2
      · simp [brokenOffAndBuilding, htwo]
      · simp [brokenOffAndBuilding, hone, htwo] at h
  generationHeads scanId h := by simp [brokenOffAndBuilding] at h
  planHeads scanId h := by simp [brokenOffAndBuilding] at h
  edges predecessor successor h := by simp [brokenOffAndBuilding] at h
  versions scanId path h := by simp [brokenOffAndBuilding] at h
  acyclic scanId h := by
    obtain ⟨_, h, -⟩ := Relation.TransGen.head'_iff.mp h
    simp [brokenOffAndBuilding] at h
  present scanId h := by simp at h
  summaries scanId h := by simp [brokenOffAndBuilding] at h
  groups groupId group h := by simp [brokenOffAndBuilding] at h
  members groupId h := by simp [brokenOffAndBuilding] at h

theorem eq_two_of_retained {scanId : ℕ} (h : Retained brokenOffAndBuilding.db [] scanId) :
    scanId = 2 := by
  induction h with
  | @seed scanId h =>
    obtain ⟨s, hs, hseed⟩ := h
    simp only [brokenOffAndBuilding, Table.getElem?_insert_eq] at hs
    split_ifs at hs with htwo hone
    · exact htwo.symm
    · cases hs
      simp [brokenOffAndBuilding, Scan.isPublication] at hseed
    · simp at hs
  | predecessor _ hedge _ => simp [brokenOffAndBuilding] at hedge
  | successor _ hedge _ => simp [brokenOffAndBuilding] at hedge

theorem retained_two : Retained brokenOffAndBuilding.db [] 2 := by
  refine .seed ⟨⟨⟨[], 1, 1, 0⟩, false, none, .building, []⟩, ?_, .inl rfl⟩
  simp [brokenOffAndBuilding]

theorem backed_two : Backed brokenOffAndBuilding [] (cacheRow 2) :=
  ⟨2, [], ⟨1, 2, 0, 0, 0⟩, retained_two, by simp [brokenOffAndBuilding],
    ⟨rfl, rfl, rfl, rfl, rfl⟩⟩

theorem not_backed_nine : ¬ Backed brokenOffAndBuilding [] (cacheRow 9) := by
  rintro ⟨scanId, path, row, hr, hrow, -, hfile, -⟩
  obtain rfl := eq_two_of_retained hr
  have hrow' : ((∅ : Files).insert [] ⟨1, 2, 0, 0, 0⟩)[path]? = some row := by
    simpa [brokenOffAndBuilding] using hrow
  rw [Table.getElem?_insert_eq] at hrow'
  split_ifs at hrow' with hpath
  · cases hrow'
    exact absurd hfile (by decide)
  · simp at hrow'

/-- A call that is not stopped, to its end: the row of file 9 goes with the scan that broke off, and so
do the two rows of the caches about it. -/
theorem prune_brokenOffAndBuilding : ∃ s,
    PruneRun [] (.groups, brokenOffAndBuilding) (.finished, s) ∧ s.db.files 1 = ∅ ∧
      s.db.files 2 = brokenOffAndBuilding.db.files 2 ∧
      (cacheRow 2 ∈ s.fingerprints ∧ cacheRow 9 ∉ s.fingerprints) ∧
      cacheRow 2 ∈ s.evidence ∧ cacheRow 9 ∉ s.evidence := by
  obtain ⟨-, -, -, -, -, -, -, ⟨s, hcall⟩, -⟩ := prune_removes_only_unreachable []
    brokenOffAndBuilding accepts_brokenOffAndBuilding .groups _ .refl
  have hrun := prune_of_call hcall
  obtain ⟨-, hfiles, -, -, -, -, -, -, hfinished⟩ := prune_removes_only_unreachable []
    brokenOffAndBuilding accepts_brokenOffAndBuilding .finished s hrun
  obtain ⟨hother, hfingerprints, hevidence, -⟩ := hfinished rfl
  refine ⟨s, hrun, hother 1 fun h => ?_, (hfiles 2 retained_two).1, ⟨?_, fun h => ?_⟩, ?_, fun h => ?_⟩
  · exact absurd (eq_two_of_retained h) (by decide)
  · exact (hfingerprints _).mpr ⟨by simp [brokenOffAndBuilding], backed_two⟩
  · exact not_backed_nine ((hfingerprints _).mp h).2
  · exact (hevidence _).mpr ⟨by simp [brokenOffAndBuilding], backed_two⟩
  · exact not_backed_nine ((hevidence _).mp h).2

end BrokenOff

end Inventory
end Neocortex
