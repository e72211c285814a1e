import Neocortex.Inventory.LineageRuns

/-!
# Scans in the lineage

What a call of the scanner writes, wherever a crash cuts it.  A scan that is not complete belongs to
the call that fills it: until it is published its rows and its own row may change, and nothing else
does.

* `KeepsDb`: an invariant of the database behind every write of an operation, by the text of the
  operation;
* `Filling`: the scan of the call, before its publication;
* `scan_lineage`: the database behind every write of a scan is one of a run of transactions.
-/

namespace Neocortex
namespace Inventory

open Python Durable Checks

variable {α β : Type} {I : Database → Prop} {s : Run}

/-! ## Invariants of the database -/

/-- Behind every write of the operation the database satisfies `I`, if it did before. -/
def KeepsDb (I : Database → Prop) (x : Op α) : Prop :=
  ∀ s : Run, I s.world.db → Keeps (fun u : Run => I u.world.db) x s fun _ _ => True

theorem keeps_commit {P : Unit → Run → Prop} {w : World} (h : I w.db)
    (hP : P () { s with world := w }) : Keeps (fun u : Run => I u.world.db) (Op.commit w) s P := by
  simp [Keeps, wp, Op.commit, Outcome.final, h, hP]

/-- The world is read, and the operation goes on from it. -/
theorem keeps_world {P : β → Run → Prop} {f : World → Op β} (hs : I s.world.db)
    (h : Keeps (fun u : Run => I u.world.db) (f s.world) s P) :
    Keeps (fun u : Run => I u.world.db) (Op.world >>= f) s P := by
  have hread : Keeps (fun u : Run => I u.world.db) Op.world s fun w u => w = s.world ∧ u = s := by
    simp [Keeps, wp, Op.world, Outcome.final, hs]
  refine hread.bind fun w u _ hw => ?_
  obtain ⟨rfl, rfl⟩ := hw
  exact h

namespace KeepsDb

variable {x : Op α} {f : α → Op β}

theorem pure (a : α) : KeepsDb I (Pure.pure a : Op α) := fun _ h => Keeps.pure h trivial

theorem lift (r : Except Failure α) : KeepsDb I (liftM r : Op α) := fun _ h =>
  Keeps.lift h fun _ _ => trivial

theorem bind (hx : KeepsDb I x) (hf : ∀ a, KeepsDb I (f a)) : KeepsDb I (x >>= f) := fun _ h =>
  (hx _ h).bind fun a t ht _ => hf a t ht

theorem handle {h : Failure → Op α} (hx : KeepsDb I x) (hh : ∀ e, KeepsDb I (h e)) :
    KeepsDb I (x.handle h) := fun _ hs =>
  Keeps.handle (E := fun _ u => I u.world.db) (hx _ hs) fun e t ht => hh e t ht

theorem swallow {x : Op Unit} (hx : KeepsDb I x) : KeepsDb I (Op.swallow x) :=
  hx.handle fun _ => pure ()

theorem each {f : β → Op Unit} (hf : ∀ b, KeepsDb I (f b)) (l : List β) :
    KeepsDb I (Program.each f l) := fun _ hs =>
  Keeps.each (J := fun _ _ => True) hs trivial fun _ b _ t _ ht _ => hf b t ht

theorem ite {c : Prop} [Decidable c] {y : Op α} (hx : KeepsDb I x) (hy : KeepsDb I y) :
    KeepsDb I (if c then x else y) := by
  split_ifs
  · exact hx
  · exact hy

theorem memory : KeepsDb I Op.memory := by
  intro s h
  simp [Keeps, wp, Op.memory, Outcome.final, h]

theorem modify (f : Memory → Memory) : KeepsDb I (Op.modify f) := by
  intro s h
  simp [Keeps, wp, Op.modify, Outcome.final, h]

theorem check (budget : Budget) : KeepsDb I (check budget) := by
  intro s h
  unfold Keeps wp Inventory.check
  cases budget.checks s.ticks <;> simp [Outcome.final, h]

theorem world {f : World → Op β} (h : ∀ s : Run, I s.world.db →
    Keeps (fun u : Run => I u.world.db) (f s.world) s fun _ _ => True) :
    KeepsDb I (Op.world >>= f) := fun s hs => keeps_world hs (h s hs)

/-- A transaction that is computed from the world. -/
theorem update {g : World → World} (hg : ∀ w : World, I w.db → I (g w).db) {f : World → Unit → Op β}
    (hf : ∀ w, KeepsDb I (f w ())) : KeepsDb I (Op.world >>= fun w => Op.commit (g w) >>= f w) :=
  world fun s hs => (keeps_commit (P := fun _ _ => True) (hg _ hs) trivial).bind
    fun _ t ht _ => hf s.world t ht

/-- The last transaction of an operation. -/
theorem lastUpdate {g : World → World} (hg : ∀ w : World, I w.db → I (g w).db) :
    KeepsDb I (Op.world >>= fun w => Op.commit (g w)) :=
  world fun _ hs => keeps_commit (hg _ hs) trivial

/-- The operation, where a weaker invariant is asked for behind its writes. -/
theorem weaken {J : Database → Prop} (hx : KeepsDb I x) (hJ : ∀ db, I db → J db)
    (h : I s.world.db) :
    Keeps (fun u : Run => J u.world.db) x s fun _ u => I u.world.db := by
  refine wp_mono (fun u hu => hJ _ hu) (fun r u hr => ?_) (hx s h)
  cases r with
  | error e => exact hJ _ hr
  | ok a => exact ⟨hJ _ hr.1, hr.1⟩

end KeepsDb

/-! ## The traversal -/

section Traversal

variable (t : Traversal)

theorem keepsDb_count (delta : ScanCounters) : KeepsDb I (count delta) := .modify _

theorem keepsDb_checkFile (budget : Budget) (size : ℕ) : KeepsDb I (checkFile budget size) :=
  (KeepsDb.check budget).bind fun _ => KeepsDb.memory.bind fun _ => (KeepsDb.lift _).bind fun _ =>
    (KeepsDb.lift _).bind fun _ => .modify _

theorem keepsDb_validatePrefixObservation (o : FileObservation) :
    KeepsDb I (validatePrefixObservation t o) := by
  refine KeepsDb.world fun s hs => ?_
  dsimp only
  cases (s.world.db.files t.scanId)[o.path]? with
  | none => exact KeepsDb.lift _ s hs
  | some row => exact (KeepsDb.lift _).bind (fun _ => KeepsDb.modify _) s hs

/-- The checkpoint files are not in the database. -/
theorem keepsDb_storeWrite (path : Path) (checkpoint : InventoryResumeCheckpoint) :
    KeepsDb I (storeWrite path checkpoint) :=
  .world fun _ hs => (KeepsDb.lift _ _ hs).bind fun _ _ _ _ => keeps_commit hs trivial

theorem keepsDb_onFlush (observations : List FileObservation) : KeepsDb I (onFlush t observations) := by
  unfold onFlush
  cases t.store with
  | none => exact .pure ()
  | some path =>
    refine (KeepsDb.modify _).bind fun _ => KeepsDb.memory.bind fun m => ?_
    cases m.cursorEvidence with
    | none => exact .lift _
    | some evidence => exact (keepsDb_storeWrite _ _).bind fun _ => .modify _

variable {t} (hI : t.sink = .batch → ∀ (w : World) (observations : List FileObservation), I w.db →
  I (w.upsert t.scanId observations).db)

include hI

theorem keepsDb_flush : KeepsDb I (flush t) := by
  refine KeepsDb.memory.bind fun m => ?_
  cases hsink : t.sink with
  | noop => exact .pure ()
  | observation =>
    exact .ite (.pure ()) ((KeepsDb.check _).bind fun _ => (KeepsDb.modify _).bind fun _ => .check _)
  | batch =>
    refine .ite (.pure ()) ((KeepsDb.check _).bind fun _ => ?_)
    refine KeepsDb.update (fun w hw => hI hsink w _ hw) fun _ => ?_
    exact (KeepsDb.check _).bind fun _ => (KeepsDb.modify _).bind fun _ => keepsDb_onFlush t _

theorem keepsDb_processObservation (path : Path) (o : FileObservation) :
    KeepsDb I (processObservation t path o) := by
  have happend : KeepsDb I (sinkAppend t o) := by
    unfold sinkAppend
    cases t.sink with
    | noop => exact .pure ()
    | batch => exact .modify _
    | observation => exact .modify _
  have hadmit : KeepsDb I (observeAdmittedFile t) := .ite (.modify _) (.pure ())
  have hrest : KeepsDb I (do
      let m ← Op.memory
      if m.resumeActive then do
        checkFile t.budget o.size
        sinkAppend t o
        count { filesSeen := 1, bytesSeen := o.size }
        observeAdmittedFile t
        let m ← Op.memory
        if sinkFull t m then flush t
      else do
        count { filesSeen := 1, bytesSeen := o.size }
        validatePrefixObservation t o
        if some path = t.resumeCursor then
          Op.modify fun m => { m with resumeActive := true, resumeFound := true }) := by
    refine KeepsDb.memory.bind fun m => .ite ?_ ?_
    · refine (keepsDb_checkFile _ _).bind fun _ => happend.bind fun _ => ?_
      refine (keepsDb_count _).bind fun _ => hadmit.bind fun _ => KeepsDb.memory.bind fun _ => ?_
      exact .ite (keepsDb_flush hI) (.pure ())
    · refine (keepsDb_count _).bind fun _ => (keepsDb_validatePrefixObservation t o).bind fun _ => ?_
      exact .ite (.modify _) (.pure ())
  exact .ite ((keepsDb_validatePrefixObservation t o).bind fun _ => hrest) hrest

theorem keepsDb_processFile (path : Path) (node : Node) : KeepsDb I (processFile t path node) := by
  refine .ite (.pure ()) (.ite ((KeepsDb.modify _).bind fun _ => keepsDb_count _) ?_)
  cases node with
  | file stat => exact keepsDb_processObservation hI path _
  | _ => exact keepsDb_count _

theorem keepsDb_dispatchEntry (path : Path) (node : Node) : KeepsDb I (dispatchEntry t path node) := by
  have hdirectory : KeepsDb I (processDirectory t path) :=
    .ite (keepsDb_count _) (.ite ((KeepsDb.modify _).bind fun _ => keepsDb_count _) (.pure ()))
  cases node with
  | directory | unopenable => exact hdirectory
  | file | unstatableFile => exact keepsDb_processFile hI path _
  | other => exact .pure ()
  | link | unstatableDirectory | untyped => exact keepsDb_count _

theorem keepsDb_processEntry (path : Path) (node : Node) : KeepsDb I (processEntry t path node) := by
  have hentry : ∀ m : Memory, KeepsDb I
      (if m.resumeActive = false ∧ passesCursor t path = true then do
        Op.modify fun m => { m with resumeActive := true, resumeFound := true }
        dispatchEntry t path node
      else if m.resumeActive = false ∧ some path ≠ t.resumeCursor ∧ node.isFile = true then
        processFile t path node
      else dispatchEntry t path node) := fun _ =>
    .ite ((KeepsDb.modify _).bind fun _ => keepsDb_dispatchEntry hI path node)
      (.ite (keepsDb_processFile hI path node) (keepsDb_dispatchEntry hI path node))
  refine (KeepsDb.check _).bind fun _ => KeepsDb.memory.bind fun m => ?_
  cases node with
  | untyped => exact keepsDb_count _
  | _ => exact hentry m

theorem keepsDb_visit (v : Visit) : KeepsDb I (visit t v) := by
  cases v with
  | advance => exact .check _
  | refused => exact (keepsDb_count _).bind fun _ => keepsDb_count _
  | entry path node => exact keepsDb_processEntry hI path node
  | opened directory stat entries =>
    have hopened : KeepsDb I (observeOpened t directory stat) := by
      unfold observeOpened
      cases t.sink with
      | observation => exact .pure ()
      | noop => exact .modify _
      | batch => exact .ite (.pure ()) (.modify _)
    refine (keepsDb_count _).bind fun _ => .ite ?_ hopened
    refine (KeepsDb.each (fun _ => .check _) _).bind fun _ => ?_
    exact (KeepsDb.lift _).bind fun _ => hopened

/-- The traversal writes rows of its scan, and nothing else of the database. -/
theorem keepsDb_runTraversal (visits : List Visit) : KeepsDb I (runTraversal t visits) := by
  refine ((KeepsDb.each (keepsDb_visit hI) visits).handle fun _ => ?_).bind fun _ => ?_
  · exact (keepsDb_flush hI).swallow.bind fun _ => .lift _
  · refine KeepsDb.memory.bind fun _ => (KeepsDb.lift _).bind fun _ => ?_
    exact (KeepsDb.check _).bind fun _ => (keepsDb_flush hI).bind fun _ => .check _

end Traversal

/-! ## The scan of a call -/

section Scan

variable {sha256 : Bytes → Bytes} {scanId : ℕ} {db₀ db : Database}

/-- Two writes of the scanner. -/
theorem ScannerStep.trans {db' : Database} (h : ScannerStep sha256 scanId db₀ db)
    (h' : ScannerStep sha256 scanId db db') : ScannerStep sha256 scanId db₀ db' where
  unfinished := h.unfinished
  scans other hne := (h'.scans other hne).trans (h.scans other hne)
  files other hne := (h'.files other hne).trans (h.files other hne)
  changeVersions other hne := (h'.changeVersions other hne).trans (h.changeVersions other hne)
  heads other hne := (h'.heads other hne).trans (h.heads other hne)
  successors := h'.successors.trans h.successors
  published := h'.published.trans h.published
  plans := h'.plans.trans h.plans
  digest := h'.digest

/-- Writing the row of a scan that has no head. -/
theorem ScannerStep.updateScan (h : ScannerStep sha256 scanId db₀ db)
    (hhead : db.heads[scanId]? = none) (f : Scan → Scan) :
    ScannerStep sha256 scanId db₀ (db.updateScan scanId f) := by
  have hscans : ∀ other : ℕ, other ≠ scanId →
      (db.updateScan scanId f).scans[other]? = db₀.scans[other]? := fun other hne => by
    rw [updateScan_getElem?, if_neg hne.symm, h.scans other hne]
  rw [updateScan_eq] at hscans ⊢
  exact { h with
    scans := hscans
    digest := fun digest hd => absurd (hhead.symm.trans hd) (by simp) }

/-- A scan loses its head. -/
theorem ScannerStep.eraseHead (h : ScannerStep sha256 scanId db₀ db) :
    ScannerStep sha256 scanId db₀ { db with heads := db.heads.erase scanId } := by
  have herase : ∀ other : ℕ, (db.heads.erase scanId)[other]? =
      if scanId = other then none else db.heads[other]? := fun other => by
    rw [Std.ExtTreeMap.getElem?_erase]
    simp only [Std.LawfulEqCmp.compare_eq_iff_eq]
  refine { h with heads := fun other hne => ?_, digest := fun digest hd => ?_ }
  · change (db.heads.erase scanId)[other]? = _
    rw [herase, if_neg hne.symm, h.heads other hne]
  · change (db.heads.erase scanId)[scanId]? = _ at hd
    rw [herase, if_pos rfl] at hd
    cases hd

/-- The database while a call fills its scan: the row is there, and it is not complete. -/
structure Filling (sha256 : Bytes → Bytes) (scanId : ℕ) (db₀ db : Database) : Prop where
  step : ScannerStep sha256 scanId db₀ db
  row : scanId ∈ db.scans
  unfinished : ¬ db.Complete scanId

namespace Filling

variable (h : Filling sha256 scanId db₀ db)

include h

theorem head : db.heads[scanId]? = none := by
  cases hget : db.heads[scanId]? with
  | none => rfl
  | some digest => exact absurd (h.step.digest digest hget).1 h.unfinished

/-- Writes that leave the rows of `scans`. -/
theorem write {db' : Database} (hs : db₀.Sound sha256) (hscans : db'.scans = db.scans)
    (hstep : db.Sound sha256 → ScannerStep sha256 scanId db db') :
    Filling sha256 scanId db₀ db' where
  step := h.step.trans (hstep (h.step.sound hs).1)
  row := hscans ▸ h.row
  unfinished hc := h.unfinished (hc.of_eq (by rw [hscans]))

/-- The row of the scan gets another status. -/
theorem updateScan {f : Scan → Scan} (hf : ∀ scan, (f scan).status ≠ .complete) :
    Filling sha256 scanId db₀ (db.updateScan scanId f) where
  step := h.step.updateScan h.head f
  row := by
    have hmem := Std.ExtTreeMap.mem_iff_isSome_getElem?.mp h.row
    rw [Std.ExtTreeMap.mem_iff_isSome_getElem?, updateScan_getElem?, if_pos rfl, Option.isSome_map]
    exact hmem
  unfinished := by
    rintro ⟨scan, hscan, hstatus⟩
    rw [updateScan_getElem?, if_pos rfl] at hscan
    obtain ⟨old, -, rfl⟩ := Option.map_eq_some_iff.mp hscan
    exact hf old hstatus

end Filling

theorem filling_upsert (hs : db₀.Sound sha256) {w : World} (h : Filling sha256 scanId db₀ w.db)
    (observations : List FileObservation) :
    Filling sha256 scanId db₀ (w.upsert scanId observations).db :=
  h.write hs rfl fun hsound => scannerStep_upsert hsound rfl observations h.unfinished

theorem filling_deletePaths (hs : db₀.Sound sha256) {w : World}
    (h : Filling sha256 scanId db₀ w.db) (paths : List Path) :
    Filling sha256 scanId db₀ (w.deletePaths scanId paths).db :=
  h.write hs rfl fun hsound => scannerStep_deletePaths hsound rfl paths h.unfinished

/-- The row of a scan is open, so that it has no head to lose. -/
theorem scannerStep_completeInterruptedScan {w : World} (h : ScannerStep sha256 scanId db₀ w.db)
    (hopen : w.isOpenScan scanId) (counters : ScanCounters) :
    ScannerStep sha256 scanId db₀ (w.completeInterruptedScan scanId counters).db := by
  obtain ⟨scan, hscan, -, hstatus⟩ := hopen
  refine h.updateScan ?_ _
  cases hget : w.db.heads[scanId]? with
  | none => rfl
  | some digest =>
    obtain ⟨found, hfound, hcomplete⟩ := (h.digest digest hget).1
    obtain rfl : scan = found := Option.some.inj (hscan.symm.trans hfound)
    rw [hstatus] at hcomplete
    cases hcomplete

theorem scannerStep_demoteScan {w : World} (h : ScannerStep sha256 scanId db₀ w.db)
    (counters : ScanCounters) :
    ScannerStep sha256 scanId db₀ (w.demoteScan scanId counters).db := by
  have hhead : (w.db.heads.erase scanId)[scanId]? = none := Std.ExtTreeMap.getElem?_erase_self
  have heq : (w.demoteScan scanId counters).db =
      { w.db with heads := w.db.heads.erase scanId }.updateScan scanId fun scan =>
        { scan with completed := true, counters := some counters, status := .partialScan } := by
    unfold World.demoteScan Database.updateScan
    dsimp only
    cases w.db.scans[scanId]? <;> rfl
  rw [heq]
  exact h.eraseHead.updateScan hhead _

theorem keepsDb_completeInterruptedScan (counters : ScanCounters) :
    KeepsDb (ScannerStep sha256 scanId db₀) (completeInterruptedScan scanId counters) := by
  refine KeepsDb.world fun s hs => ?_
  have hopen : Keeps (fun u : Run => ScannerStep sha256 scanId db₀ u.world.db)
      (liftM (raiseIf (¬ s.world.isOpenScan scanId)
        (Failure.inventory s!"cannot finalize interrupted inventory scan {scanId}")) : Op Unit) s
      fun _ _ => s.world.isOpenScan scanId :=
    Keeps.lift hs fun _ h => not_not.mp (raiseIf_eq_ok.mp h)
  exact hopen.bind fun _ _ _ hopen =>
    keeps_commit (scannerStep_completeInterruptedScan hs hopen counters) trivial

/-! ## The operations of a scan -/

theorem keepsDb_storePartial (t : Traversal) (m : Memory) (e : Failure) :
    KeepsDb (ScannerStep sha256 scanId db₀) (storePartial t m e) := by
  unfold storePartial
  cases t.store with
  | none => exact .pure ()
  | some path =>
    cases m.lastCheckpoint with
    | none => exact .pure ()
    | some current => exact (keepsDb_storeWrite _ _).swallow

theorem keepsDb_recoverScan (t : Traversal) (e : Failure) :
    KeepsDb (ScannerStep sha256 t.scanId db₀) (recoverScan t e) := by
  have hstore : ∀ m : Memory, KeepsDb (ScannerStep sha256 t.scanId db₀) (do
      storePartial t m e
      liftM (Except.error (ε := Failure) (α := Unit) e)) :=
    fun m => (keepsDb_storePartial t m e).bind fun _ => .lift _
  refine KeepsDb.memory.bind fun m => .ite ?_ ?_
  · exact .update (fun w hw => scannerStep_demoteScan hw m.counters) fun _ => hstore m
  · exact (keepsDb_completeInterruptedScan m.counters).swallow.bind fun _ => hstore m

/-- Behind the commit only the checkpoint file is written. -/
theorem keepsDb_publishRows (hs : db₀.Sound sha256) {t : Traversal} {w : World} (m : Memory)
    (h : Filling sha256 t.scanId db₀ w.db) :
    KeepsDb (ScannerStep sha256 t.scanId db₀) (publishRows sha256 t w m) := by
  have hcomplete := h.step.trans (scannerStep_completeScan (h.step.sound hs).1 rfl m.counters
    h.row h.unfinished)
  refine (KeepsDb.check _).bind fun _ => KeepsDb.bind (fun _ _ => keeps_commit hcomplete trivial)
    fun _ => ?_
  refine (KeepsDb.modify _).bind fun _ => (KeepsDb.check _).bind fun _ => ?_
  refine (KeepsDb.lift _).bind fun _ => (KeepsDb.lift _).bind fun _ => ?_
  cases t.store with
  | none => exact .pure ()
  | some path =>
    cases m.lastCheckpoint with
    | none => exact .lift _
    | some current =>
      exact (KeepsDb.check _).bind fun _ => (keepsDb_storeWrite _ _).bind fun _ => .modify _

/-- The publication: the scan may be complete, with the digest of its rows as its head. -/
theorem keeps_publishScan (hs : db₀.Sound sha256) {t : Traversal}
    (resumed : Option InventoryResumeCheckpoint) (h : Filling sha256 t.scanId db₀ s.world.db) :
    Keeps (fun u : Run => ScannerStep sha256 t.scanId db₀ u.world.db) (publishScan sha256 t resumed)
      s fun _ _ => True := by
  have hF : ∀ db, Filling sha256 t.scanId db₀ db → ScannerStep sha256 t.scanId db₀ db :=
    fun _ hdb => hdb.step
  refine (KeepsDb.memory.weaken hF h).bind fun m u _ hu => keeps_world hu.step ?_
  have hrows := keepsDb_publishRows hs m hu
  cases resumed with
  | none => exact hrows u hu.step
  | some cp => exact (KeepsDb.lift _).bind (fun _ => hrows) u hu.step

theorem keeps_scanBody (hs : db₀.Sound sha256) {t : Traversal} (visits : List Visit)
    (resumed : Option InventoryResumeCheckpoint) (h : Filling sha256 t.scanId db₀ s.world.db) :
    Keeps (fun u : Run => ScannerStep sha256 t.scanId db₀ u.world.db)
      (scanBody sha256 t visits resumed) s fun _ _ => True := by
  have htraversal : KeepsDb (Filling sha256 t.scanId db₀) (runTraversal t visits) :=
    keepsDb_runTraversal (fun _ w observations hw => filling_upsert hs hw observations) visits
  have hbody : Keeps (fun u : Run => ScannerStep sha256 t.scanId db₀ u.world.db)
      (do runTraversal t visits; publishScan sha256 t resumed) s fun _ _ => True :=
    (htraversal.weaken (fun _ hdb => hdb.step) h).bind fun _ _ _ hu => keeps_publishScan hs resumed hu
  refine Keeps.bind (P := fun _ _ => True) (Keeps.handle hbody fun e u hu => ?_) fun _ u hu _ => ?_
  · exact keepsDb_recoverScan t e u hu
  · exact KeepsDb.memory.bind (fun _ => .pure _) u hu

/-- The rows behind the cursor are deleted, and the scan is opened again. -/
theorem keepsDb_deleteRowsAfterCursor (hs : db₀.Sound sha256) (root : Path)
    (checkpoint : InventoryResumeCheckpoint) :
    KeepsDb (Filling sha256 scanId db₀) (deleteRowsAfterCursor scanId root checkpoint) := by
  have hpages : ∀ (pages : List (List Path)) (stale : List Path),
      KeepsDb (Filling sha256 scanId db₀)
        (deletePages scanId root checkpoint.lastRelativeCursor stale pages) := by
    intro pages
    induction pages with
    | nil =>
      intro stale
      exact .ite (.pure ()) (.lastUpdate fun w hw => filling_deletePaths hs hw stale)
    | cons page pages ih =>
      intro stale
      refine (KeepsDb.lift _).bind fun found => .ite ?_ (ih _)
      exact .update (fun w hw => filling_deletePaths hs hw _) fun _ => ih []
  refine KeepsDb.world fun s h => (hpages _ []).bind (fun _ => ?_) s h
  exact .lastUpdate fun w hw => hw.updateScan fun _ => by simp

theorem keeps_startScan (hs : db₀.Sound sha256) (c : ScanCall)
    (resumed : Option InventoryResumeCheckpoint) (h : Filling sha256 scanId db₀ s.world.db) :
    Keeps (fun u : Run => ScannerStep sha256 scanId db₀ u.world.db)
      (startScan sha256 c scanId resumed) s fun _ _ => True := by
  have hF : ∀ db, Filling sha256 scanId db₀ db → ScannerStep sha256 scanId db₀ db :=
    fun _ hdb => hdb.step
  have hbody : ∀ (opened : Option InventoryResumeCheckpoint) (u : Run),
      Filling sha256 scanId db₀ u.world.db →
      Keeps (fun u : Run => ScannerStep sha256 scanId db₀ u.world.db) (do
        Op.modify fun _ => { initialMemory sha256 resumed with lastCheckpoint := opened }
        let t := c.traversal sha256 scanId resumed
        scanBody sha256 t (c.tree.visits c.policy t.deterministic) resumed) u fun _ _ => True :=
    fun _ u hu => ((KeepsDb.modify _).weaken hF hu).bind fun _ _ _ hv => keeps_scanBody hs _ _ hv
  -- the first checkpoint; when it is refused the row is closed, if it is still open
  have hstore : ∀ (path : Path) (cp : InventoryResumeCheckpoint) (counters : ScanCounters) (u : Run),
      Filling sha256 scanId db₀ u.world.db →
      Keeps (fun u : Run => ScannerStep sha256 scanId db₀ u.world.db)
        ((storeWrite path cp).handle fun e => do
          Op.swallow (completeInterruptedScan scanId counters)
          liftM (Except.error (ε := Failure) (α := Unit) e)) u
        fun _ v => Filling sha256 scanId db₀ v.world.db := by
    intro path cp counters u hu
    refine Keeps.handle ((keepsDb_storeWrite path cp).weaken hF hu) fun e v hv => ?_
    refine ((keepsDb_completeInterruptedScan counters).swallow v hv).bind fun _ _ hx _ => ?_
    exact Keeps.lift hx fun _ hok => by cases hok
  unfold startScan
  refine ((KeepsDb.lift _).weaken hF h).bind fun _ u _ hu => ?_
  cases c.store with
  | none => cases resumed <;> exact hbody _ u hu
  | some path =>
    cases resumed with
    | none => exact (hstore path _ _ u hu).bind fun _ v _ hv => hbody _ v hv
    | some cp =>
      refine (hstore path _ _ u hu).bind fun _ v _ hv => ?_
      refine ((keepsDb_deleteRowsAfterCursor hs c.tree.root _).weaken hF hv).bind fun _ x _ hx => ?_
      exact hbody _ x hx

/-- The replay of a complete checkpoint writes nothing. -/
theorem keepsDb_verifyCompleteCheckpoint {I : Database → Prop} (c : ScanCall)
    (checkpoint : InventoryResumeCheckpoint) :
    KeepsDb I (verifyCompleteCheckpoint sha256 c checkpoint) := by
  have hreplay : KeepsDb I (runTraversal (c.replay sha256 checkpoint)
      (c.tree.visits c.policy true)) :=
    keepsDb_runTraversal (fun hsink => by cases hsink) _
  have hpages : ∀ (pages : List (List FileRow)) (files bytes : ℕ),
      KeepsDb I (recountPages c.budget checkpoint files bytes pages) := by
    intro pages
    induction pages with
    | nil => exact fun _ _ => (KeepsDb.check _).bind fun _ => .lift _
    | cons page pages ih =>
      exact fun _ _ => (KeepsDb.check _).bind fun _ => (KeepsDb.lift _).bind fun _ => ih _ _
  refine (KeepsDb.modify _).bind fun _ => (KeepsDb.check _).bind fun _ => KeepsDb.world fun s hs => ?_
  refine ((KeepsDb.lift _).bind fun _ => (KeepsDb.lift _).bind fun _ => ?_ : KeepsDb I _) s hs
  refine hreplay.bind fun _ => (KeepsDb.check _).bind fun _ => KeepsDb.memory.bind fun _ => ?_
  exact (KeepsDb.lift _).bind fun _ => hpages _ 0 0

/-- A scan that is resumed has its row. -/
theorem mem_of_prepareResume {db : Database} {checkpoint : InventoryResumeCheckpoint}
    {root : RootIdentity} {signature : Text} {found : Bool}
    (h : prepareResume db checkpoint root signature = .ok found) : checkpoint.scanId ∈ db.scans := by
  simp only [prepareResume, bind_eq_ok] at h
  obtain ⟨_, -, _, -, _, -, h⟩ := h
  cases hscan : db.scans[checkpoint.scanId]? with
  | none =>
    rw [hscan] at h
    cases h
  | some scan =>
    rw [Std.ExtTreeMap.mem_iff_isSome_getElem?, hscan]
    rfl

/-- A complete scan under its terminal checkpoint is not resumed. -/
theorem not_complete_of_prepareResume {db : Database} {checkpoint : InventoryResumeCheckpoint}
    {root : RootIdentity} {signature : Text}
    (hterminal : db.Complete checkpoint.scanId → checkpoint.status = .complete)
    (h : prepareResume db checkpoint root signature = .ok false) :
    ¬ db.Complete checkpoint.scanId := by
  intro hcomplete
  have hstatus := hterminal hcomplete
  obtain ⟨scan, hscan, hscanStatus⟩ := hcomplete
  simp only [prepareResume, bind_eq_ok, Option.mem_def.mp hscan, hscanStatus, hstatus] at h
  obtain ⟨_, -, _, -, _, -, _, -, h⟩ := h
  split_ifs at h
  · cases h
  · simp only [bind_eq_ok, raiseIf_eq_ok] at h
    obtain ⟨_, hfalse, -⟩ := h
    exact hfalse trivial

/-- A new scan. -/
theorem filling_beginScan {w : World} (hs : w.db.Sound sha256) (root : RootIdentity)
    (signature : Text) :
    Filling sha256 w.db.nextOperationalIdentity w.db (w.beginScan root signature).db := by
  have hscan : (w.beginScan root signature).db.scans[w.db.nextOperationalIdentity]? =
      some ⟨root, false, none, .building, signature⟩ := by
    change (w.db.scans.insert _ _)[_]? = _
    rw [Table.getElem?_insert_eq, if_pos rfl]
  refine ⟨scannerStep_beginScan hs rfl root signature, ?_, ?_⟩
  · rw [Std.ExtTreeMap.mem_iff_isSome_getElem?, hscan]
    rfl
  · rintro ⟨scan, hget, hstatus⟩
    rw [Option.mem_def, hscan] at hget
    obtain rfl := Option.some.inj hget
    cases hstatus

/-- A scan that is not complete, when it is resumed. -/
theorem filling_resumed (hs : db.Sound sha256) (hrow : scanId ∈ db.scans)
    (hopen : ¬ db.Complete scanId) : Filling sha256 scanId db db :=
  ⟨⟨hopen, fun _ _ => rfl, fun _ _ => rfl, fun _ _ => rfl, fun _ _ => rfl, rfl, rfl, rfl,
    fun digest hd => hs.heads _ digest hd⟩, hrow, hopen⟩

/-- The database is as it was, or what a call has made of its scan. -/
def Scanned (sha256 : Bytes → Bytes) (db₀ db : Database) : Prop :=
  db = db₀ ∨ ∃ scanId, ScannerStep sha256 scanId db₀ db

theorem keeps_run (c : ScanCall) (hs : s.world.db.Sound sha256)
    (hterminal : ∀ cp, c.store.bind s.world.checkpoints = some cp → c.resume = true →
      s.world.db.Complete cp.scanId → cp.status = .complete) :
    Keeps (fun u : Run => Scanned sha256 s.world.db u.world.db) (c.run sha256) s fun _ _ => True := by
  have hstart : Scanned sha256 s.world.db s.world.db := Or.inl rfl
  have hscanned : ∀ {scanId : ℕ} {x : Op ScanSummary} {u : Run},
      Keeps (fun u : Run => ScannerStep sha256 scanId s.world.db u.world.db) x u (fun _ _ => True) →
      Keeps (fun u : Run => Scanned sha256 s.world.db u.world.db) x u fun _ _ => True := by
    intro scanId x u h
    refine wp_mono (fun _ ht => Or.inr ⟨scanId, ht⟩) (fun r t hr => ?_) h
    cases r with
    | error e => exact Or.inr ⟨scanId, hr⟩
    | ok a => exact ⟨Or.inr ⟨scanId, hr.1⟩, trivial⟩
  unfold ScanCall.run
  refine wp_check (fun _ => hstart) fun _ _ => wp_check (fun _ => hstart) fun _ _ => ?_
  refine wp_check (fun _ => hstart) fun _ _ => keeps_world hstart ?_
  dsimp only
  split_ifs with hresume
  · cases hstored : c.store.bind s.world.checkpoints with
    | none => exact Keeps.lift hstart fun _ _ => trivial
    | some cp =>
      refine wp_check (fun _ => hstart) fun _ _ => wp_check (fun _ => hstart) fun found hfound => ?_
      cases found with
      | true =>
        exact ((keepsDb_verifyCompleteCheckpoint c cp).bind fun _ => .lift _) s hstart
      | false =>
        have hopen := not_complete_of_prepareResume (hterminal cp hstored hresume) hfound
        exact hscanned (keeps_startScan hs c (some cp)
          (filling_resumed hs (mem_of_prepareResume hfound) hopen))
  · refine wp_check (fun _ => hstart) fun _ _ => ?_
    have hbegin := filling_beginScan hs c.tree.identity c.policy.signature
    refine (keeps_commit (P := fun _ u => u.world = s.world.beginScan c.tree.identity c.policy.signature)
      (Or.inr ⟨_, hbegin.step⟩) rfl).bind fun _ u _ hu => ?_
    refine hscanned (keeps_startScan hs c none ?_)
    rw [hu]
    exact hbegin

end Scan

/-! ## A scan -/

/-- A directory with a file and a link. -/
def exampleEntries : List (Name × Node) :=
  [(⟨[109], by decide⟩, .file ⟨1, 4, 7, 0, 0, 0⟩), (⟨[110], by decide⟩, .link)]

theorem exampleEntries_distinct :
    (Node.directory ⟨1, 9, 0⟩ exampleEntries).namesDistinct = true := by
  decide

theorem exampleBatchSize_ok : (1 : ℕ) ≤ 1 ∧ 1 ≤ maxBatchSize := by decide

theorem exampleBudget_ok :
    (1 : ℕ) ≤ 10 ∧ 10 ≤ maxScanFiles ∧ (1 : ℕ) ≤ 10 ∧ 10 ≤ maxScanBytes := by
  decide

/-- The directory, scanned in batches of one file, with a checkpoint. -/
def exampleCall : ScanCall where
  tree := ⟨exampleKeep.path, ⟨1, 9, 0⟩, exampleEntries, exampleEntries_distinct⟩
  policy := ⟨fun _ => false, fun _ => false, lit "p"⟩
  batchSize := 1
  store := some exampleCopy.path
  resume := false
  deterministic := true
  budget := ⟨10, 10, fun _ => none⟩
  batchSize_ok := exampleBatchSize_ok
  budget_ok := exampleBudget_ok

end Inventory
end Neocortex
