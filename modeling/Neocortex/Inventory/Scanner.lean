import Neocortex.Inventory.Traversal

/-!
# The scanner

`InventoryScanner.scan` of `inventory/scanner.py`: a plain scan, a scan with a durable
checkpoint, and a scan that resumes from one.

Every transaction and every replacement of the checkpoint file is one durable write, so
the states a crash can leave are exactly the `World`s of the writes of `scan`.
-/

namespace Neocortex
namespace Inventory

open Python Durable
open Checks (raiseIf)

def maxBatchSize : ℕ := 10000
def maxScanFiles : ℕ := 10000000
def maxScanBytes : ℕ := 2 ^ 40

/-- The arguments of `InventoryScanner.scan` together with the tree it finds.  The batch
size and the bounds are in the ranges that `_validated_batch_size` and
`InventoryWorkBudget` admit. -/
structure ScanCall where
  tree : Tree
  policy : InventoryExclusionPolicy
  batchSize : ℕ
  store : Option Path
  resume : Bool
  deterministic : Bool
  budget : Budget
  batchSize_ok : 1 ≤ batchSize ∧ batchSize ≤ maxBatchSize
  budget_ok : 1 ≤ budget.maxFiles ∧ budget.maxFiles ≤ maxScanFiles ∧
    1 ≤ budget.maxBytes ∧ budget.maxBytes ≤ maxScanBytes

/-- `ScanSummary`. -/
structure ScanSummary where
  scanId : ℕ
  root : Path
  counters : ScanCounters
  deriving DecidableEq

/-! ## Transactions of the scanner -/

/-- `_begin_scan`: the new row of `scans`. -/
def World.beginScan (w : World) (root : RootIdentity) (signature : Text) : World :=
  { w with
    db :=
      { w.db with
        scans := w.db.scans.insert w.db.nextOperationalIdentity
          { root := root, completed := false, counters := none, status := .building
            inventoryPolicySignature := signature } } }

/-- `_complete_scan`. -/
def World.completeScan (sha256 : Bytes → Bytes) (w : World) (scanId : ℕ)
    (counters : ScanCounters) : World :=
  let status := if counters.errors = 0 then ScanStatus.complete else .partialScan
  let db := w.db.updateScan scanId fun scan =>
    { scan with completed := true, counters := some counters, status := status }
  { w with
    db :=
      if counters.errors = 0 then
        { db with heads := db.heads.insert scanId (inventoryContentDigest sha256 (db.files scanId)) }
      else db }

/-- `_demote_scan`. -/
def World.demoteScan (w : World) (scanId : ℕ) (counters : ScanCounters) : World :=
  let db := w.db.updateScan scanId fun scan =>
    { scan with completed := true, counters := some counters, status := .partialScan }
  { w with db := { db with heads := db.heads.erase scanId } }

/-- `_complete_interrupted_scan`: the rows are counted, the traversal's own counters for
files are not used. -/
def World.completeInterruptedScan (w : World) (scanId : ℕ) (counters : ScanCounters) : World :=
  { w with
    db := w.db.updateScan scanId fun scan =>
      { scan with
        completed := true
        counters := some
          { counters with
            filesSeen := (w.db.files scanId).count
            bytesSeen := (w.db.files scanId).bytes }
        status := .partialScan } }

/-- The row that `_complete_interrupted_scan` may finalize. -/
def World.isOpenScan (w : World) (scanId : ℕ) : Prop :=
  ∃ scan, w.db.scans[scanId]? = some scan ∧ scan.completed = false ∧ scan.status = .building

instance (w : World) (scanId : ℕ) : Decidable (w.isOpenScan scanId) :=
  match h : w.db.scans[scanId]? with
  | none => isFalse fun ⟨_, hs, _⟩ => by rw [h] at hs; cases hs
  | some scan => decidable_of_iff (scan.completed = false ∧ scan.status = .building)
      ⟨fun hs => ⟨scan, h, hs⟩, fun ⟨_, hs, hr⟩ => by rw [h] at hs; cases hs; exact hr⟩

/-- `_complete_interrupted_scan`. -/
def completeInterruptedScan (scanId : ℕ) (counters : ScanCounters) : Op Unit := do
  let w ← Op.world
  raiseIf (¬ w.isOpenScan scanId)
    (Failure.inventory s!"cannot finalize interrupted inventory scan {scanId}")
  Op.commit (w.completeInterruptedScan scanId counters)

/-! ## Resuming -/

/-- Whether a stored row lies behind the cursor.  `dfs_order_key` raises on a path
outside the root. -/
def rowBeyond (root : Path) (cursor : Option Path) (path : Path) : Checked Bool :=
  match cursor with
  | none => pure true
  | some c =>
    match relativeCursor root path with
    | none => .error (.conflict "inventory cursor escapes its root")
    | some relative => pure (decide (dfsOrderKey c < dfsOrderKey relative))

/-- The pages in which a query with `LIMIT size` reads a list of rows. -/
def pagesFrom {α : Type} (size : ℕ) : List α → List α → List (List α)
  | [], [] => []
  | page, [] => [page]
  | page, a :: rest =>
    if size ≤ page.length + 1 then (page ++ [a]) :: pagesFrom size [] rest
    else pagesFrom size (page ++ [a]) rest

/-- The paths of a page that lie behind the cursor. -/
def staleOf (root : Path) (cursor : Option Path) : List Path → Checked (List Path)
  | [] => pure []
  | path :: rest => do
    let beyond ← rowBeyond root cursor path
    let stale ← staleOf root cursor rest
    pure (if beyond then path :: stale else stale)

/-- The transaction that deletes some rows of a scan. -/
def World.deletePaths (w : World) (scanId : ℕ) (paths : List Path) : World :=
  { w with db := w.db.deleteFiles scanId fun path _ => decide (path ∈ paths) }

/-- The loop of `_delete_rows_after_cursor` over the pages, and the last deletion. -/
def deletePages (scanId : ℕ) (root : Path) (cursor : Option Path) :
    List Path → List (List Path) → Op Unit
  | stale, [] =>
    if stale = [] then pure ()
    else do
      let w ← Op.world
      Op.commit (w.deletePaths scanId stale)
  | stale, page :: pages => do
    let found ← staleOf root cursor page
    if maxBatchSize ≤ (stale ++ found).length then do
      let w ← Op.world
      Op.commit (w.deletePaths scanId (stale ++ found))
      deletePages scanId root cursor [] pages
    else deletePages scanId root cursor (stale ++ found) pages

/-- `UPDATE scans` at the end of `_delete_rows_after_cursor`. -/
def World.reopenScan (w : World) (scanId : ℕ) (counters : ScanCounters) : World :=
  { w with
    db := w.db.updateScan scanId fun scan =>
      { scan with completed := false, counters := some counters, status := .building } }

/-- `_delete_rows_after_cursor`. -/
def deleteRowsAfterCursor (scanId : ℕ) (root : Path)
    (checkpoint : InventoryResumeCheckpoint) : Op Unit := do
  let w ← Op.world
  deletePages scanId root checkpoint.lastRelativeCursor []
    (pagesFrom maxBatchSize [] ((w.db.files scanId).byPath.map Prod.fst))
  let w ← Op.world
  Op.commit (w.reopenScan scanId checkpoint.counters)

/-- The rows of a scan up to the cursor, as `_validate_resume_prefix` counts them. -/
def prefixRows (root : Path) (cursor : Option Path) :
    List (Path × FileRow) → Checked (List (Path × FileRow))
  | [] => pure []
  | r :: rest => do
    let beyond ← rowBeyond root cursor r.1
    let rows ← prefixRows root cursor rest
    pure (if beyond then rows else r :: rows)

/-- `_validate_resume_prefix`. -/
def validateResumePrefix (sha256 : Bytes → Bytes) (root : Path)
    (checkpoint : InventoryResumeCheckpoint) (files : Files) (m : Memory) : Checked Unit := do
  raiseIf (m.prefixValidationDigest ≠ checkpoint.prefixDigest)
    (.conflict "committed inventory prefix digest changed")
  raiseIf (m.prefixValidationDirectoryDigest ≠ checkpoint.directoryDigest)
    (.conflict "committed inventory directory identities changed")
  raiseIf (m.prefixBatchObservations.length ≠ checkpoint.batchFiles)
    (.conflict "committed inventory batch cardinality changed")
  raiseIf (0 < checkpoint.batchFiles ∧
      batchDigest sha256 root m.prefixBatchObservations ≠ checkpoint.batchDigest)
    (.conflict "committed inventory batch digest changed")
  raiseIf (checkpoint.batchFiles = 0 ∧ checkpoint.batchDigest ≠ emptyBatchDigest sha256)
    (.conflict "committed empty inventory batch changed")
  raiseIf (m.prefixCounters ≠ checkpoint.counters)
    (.conflict "committed inventory prefix counters changed")
  let rows ← prefixRows root checkpoint.lastRelativeCursor files.toList
  raiseIf (rows.length ≠ checkpoint.counters.filesSeen ∨
      (rows.map fun r => r.2.size).sum ≠ checkpoint.counters.bytesSeen)
    (.conflict "committed inventory prefix rows changed")

/-- `_prepare_resume`: whether the scan is complete already. -/
def prepareResume (db : Database) (checkpoint : InventoryResumeCheckpoint)
    (root : RootIdentity) (signature : Text) : Checked Bool := do
  let scanId := checkpoint.scanId
  raiseIf (scanId ≤ db.identityFloor)
    (.conflict s!"inventory identity {scanId} was retired by an operational reset")
  raiseIf (checkpoint.root ≠ root) (.conflict "checkpoint root identity changed")
  raiseIf (checkpoint.policySignature ≠ signature)
    (.conflict "checkpoint inventory policy changed")
  match db.scans[checkpoint.scanId]? with
  | none => .error (.conflict "checkpoint scan owner is missing")
  | some scan => do
    raiseIf (scan.root ≠ root ∨ scan.inventoryPolicySignature ≠ signature)
      (.conflict "checkpoint scan owner does not match the root")
    match scan.status with
    | .complete =>
      if checkpoint.status = .complete ∧ scan.completed = true then pure true
      else do
        raiseIf (checkpoint.status = .complete)
          (.conflict "complete scan has a non-terminal or incomplete checkpoint")
        raiseIf (checkpoint.counters.errors ≠ 0)
          (.conflict "complete scan has an error-bearing checkpoint")
        pure false
    | status => do
      raiseIf (status = .partialScan ∧ scan.completed = false)
        (.conflict "partial scan has no completion marker")
      raiseIf (checkpoint.status = .complete)
        (.conflict "checkpoint status cannot resume this scan")
      raiseIf (checkpoint.counters.errors ≠ 0)
        (.conflict "a scan with traversal errors cannot resume from an untrusted prefix")
      pure false

/-- `_read_complete_summary`. -/
def readCompleteSummary (db : Database) (scanId : ℕ) (root : Path) : Checked ScanSummary :=
  match db.scans[scanId]? with
  | none => .error (.conflict "complete checkpoint has no complete scan owner")
  | some scan =>
    match scan.counters with
    | none => .error (.conflict "complete checkpoint has no complete scan owner")
    | some counters => do
      raiseIf (scan.status ≠ .complete)
        (.conflict "complete checkpoint has no complete scan owner")
      raiseIf (counters.errors ≠ 0) (.conflict "complete checkpoint has traversal errors")
      pure ⟨scanId, root, counters⟩

/-! ## The scan -/

section Scan

variable (sha256 : Bytes → Bytes) (c : ScanCall)

/-- The traversal of a scan. -/
def ScanCall.traversal (scanId : ℕ) (checkpoint : Option InventoryResumeCheckpoint) :
    Traversal where
  sha256 := sha256
  root := c.tree.identity
  policy := c.policy
  deterministic := c.deterministic || c.store.isSome
  sink := .batch
  scanId := scanId
  batchSize := c.batchSize
  store := c.store
  resumeCursor := checkpoint.bind InventoryResumeCheckpoint.lastRelativeCursor
  batchLimit :=
    match checkpoint with
    | some cp => if cp.batchFiles = 0 then c.batchSize else cp.batchFiles
    | none => c.batchSize
  budget := c.budget

/-- The traversal of `_verify_complete_checkpoint`. -/
def ScanCall.replay (checkpoint : InventoryResumeCheckpoint) : Traversal where
  sha256 := sha256
  root := c.tree.identity
  policy := c.policy
  deterministic := true
  sink := .noop
  scanId := checkpoint.scanId
  batchSize := c.batchSize
  store := c.store
  resumeCursor := none
  batchLimit := if checkpoint.batchFiles = 0 then 1 else checkpoint.batchFiles
  budget := c.budget

/-- The variables at the start of the traversal. -/
def initialMemory (checkpoint : Option InventoryResumeCheckpoint) : Memory where
  resumeActive := (checkpoint.bind InventoryResumeCheckpoint.lastRelativeCursor).isNone
  resumeFound := (checkpoint.bind InventoryResumeCheckpoint.lastRelativeCursor).isNone
  counters := (checkpoint.map InventoryResumeCheckpoint.counters).getD 0
  workFiles := ((checkpoint.map InventoryResumeCheckpoint.counters).getD 0).filesSeen
  workBytes := ((checkpoint.map InventoryResumeCheckpoint.counters).getD 0).bytesSeen
  prefixDigest :=
    (checkpoint.map InventoryResumeCheckpoint.prefixDigest).getD (emptyPrefixDigest sha256)
  directoryDigest :=
    (checkpoint.map InventoryResumeCheckpoint.directoryDigest).getD (emptyDirectoryDigest sha256)
  prefixValidationDigest := emptyPrefixDigest sha256
  prefixValidationDirectoryDigest := emptyDirectoryDigest sha256
  lastCheckpoint := checkpoint

/-- The checkpoint of a scan that has not committed any row. -/
def ScanCall.firstCheckpoint (scanId : ℕ) : InventoryResumeCheckpoint where
  root := c.tree.identity
  policySignature := c.policy.signature
  scanId := scanId
  lastRelativeCursor := none
  batchDigest := emptyBatchDigest sha256
  batchFiles := 0
  prefixDigest := emptyPrefixDigest sha256
  directoryDigest := emptyDirectoryDigest sha256
  batchIndex := 0
  counters := 0
  status := .building

/-- The terminal checkpoint. -/
def finalCheckpoint (current : InventoryResumeCheckpoint) (m : Memory) :
    InventoryResumeCheckpoint :=
  { current with
    status := .complete
    stopReason := none
    prefixDigest := m.prefixDigest
    directoryDigest := m.directoryDigest
    counters := m.counters }

/-- The part of `publishScan` behind the validation of the prefix. -/
def publishRows (t : Traversal) (w : World) (m : Memory) : Op Unit := do
  check t.budget
  Op.commit (w.completeScan sha256 t.scanId m.counters)
  Op.modify fun m => { m with scanCompleted := true }
  check t.budget
  raiseIf (m.unsupportedPathCount ≠ 0) (Failure.unsupportedPathEncoding m.unsupportedPathCount)
  let scanId := t.scanId
  let errors := m.counters.errors
  raiseIf (errors ≠ 0) (Failure.inventory
    s!"inventory scan {scanId} was partial with {errors} traversal errors; it was not published")
  match t.store with
  | none => pure ()
  | some path =>
    match m.lastCheckpoint with
    | none => liftM (Except.error (ε := Failure) (α := Unit)
        (.inventory "inventory checkpoint owner was not initialized"))
    | some current => do
      check t.budget
      storeWrite path (finalCheckpoint current m)
      Op.modify fun m => { m with lastCheckpoint := some (finalCheckpoint current m) }

/-- What follows the traversal in the `try` block of `scan`. -/
def publishScan (t : Traversal) (checkpoint : Option InventoryResumeCheckpoint) : Op Unit := do
  let m ← Op.memory
  let w ← Op.world
  match checkpoint with
  | some cp => validateResumePrefix sha256 t.root.path cp (w.db.files t.scanId) m
  | none => pure ()
  publishRows sha256 t w m

/-- The checkpoint that `recoverScan` leaves of a scan that has one. -/
def storePartial (t : Traversal) (m : Memory) (e : Failure) : Op Unit :=
  match t.store, m.lastCheckpoint with
  | some path, some current =>
    Op.swallow (storeWrite path
      { current with status := .partialScan, stopReason := some e.stopReason })
  | _, _ => pure ()

/-- The `except BaseException` block of `scan`. -/
def recoverScan (t : Traversal) (e : Failure) : Op Unit := do
  let m ← Op.memory
  if m.scanCompleted then do
    let w ← Op.world
    Op.commit (w.demoteScan t.scanId m.counters)
  else Op.swallow (completeInterruptedScan t.scanId m.counters)
  storePartial t m e
  liftM (Except.error (ε := Failure) (α := Unit) e)

/-- The traversal and the publication of a scan.  `resumed` is the checkpoint a resumed
scan validates its prefix against. -/
def scanBody (t : Traversal) (visits : List Visit)
    (resumed : Option InventoryResumeCheckpoint) : Op ScanSummary := do
  Program.handle (do
    runTraversal t visits
    publishScan sha256 t resumed) (recoverScan t)
  let m ← Op.memory
  pure ⟨t.scanId, t.root.path, m.counters⟩

/-- The checks of `_verify_complete_checkpoint` behind the traversal. -/
def checkReplay (root : Path) (checkpoint : InventoryResumeCheckpoint) (m : Memory) :
    Checked Unit :=
  raiseIf (m.counters ≠ checkpoint.counters ∨
      m.prefixValidationDigest ≠ checkpoint.prefixDigest ∨
      m.directoryDigest ≠ checkpoint.directoryDigest ∨
      m.prefixBatchObservations.length ≠ checkpoint.batchFiles ∨
      (0 < checkpoint.batchFiles ∧
        batchDigest sha256 root m.prefixBatchObservations ≠ checkpoint.batchDigest) ∨
      (checkpoint.batchFiles = 0 ∧ checkpoint.batchDigest ≠ emptyBatchDigest sha256))
    (.conflict "complete inventory checkpoint no longer matches")

/-- The recount of `_verify_complete_checkpoint`, page by page. -/
def recountPages (budget : Budget) (checkpoint : InventoryResumeCheckpoint) :
    ℕ → ℕ → List (List FileRow) → Op Unit
  | storedFiles, storedBytes, [] => do
    check budget
    raiseIf (storedFiles ≠ checkpoint.counters.filesSeen ∨
        storedBytes ≠ checkpoint.counters.bytesSeen)
      (Failure.conflict "complete checkpoint scan owner rows changed")
  | storedFiles, storedBytes, page :: pages => do
    check budget
    let storedFiles := storedFiles + page.length
    let storedBytes := storedBytes + (page.map FileRow.size).sum
    raiseIf (checkpoint.counters.filesSeen < storedFiles ∨
        checkpoint.counters.bytesSeen < storedBytes)
      (Failure.conflict "complete checkpoint scan owner rows changed")
    recountPages budget checkpoint storedFiles storedBytes pages

/-- `_verify_complete_checkpoint`. -/
def verifyCompleteCheckpoint (checkpoint : InventoryResumeCheckpoint) : Op Unit := do
  let t := c.replay sha256 checkpoint
  Op.modify fun _ =>
    { initialMemory sha256 none with lastCheckpoint := some checkpoint }
  check t.budget
  let w ← Op.world
  let summary ← readCompleteSummary w.db checkpoint.scanId t.root.path
  raiseIf (summary ≠ ⟨checkpoint.scanId, t.root.path, checkpoint.counters⟩)
    (Failure.conflict "complete checkpoint scan owner counters changed")
  runTraversal t (c.tree.visits c.policy true)
  check t.budget
  let m ← Op.memory
  checkReplay sha256 t.root.path checkpoint m
  recountPages t.budget checkpoint 0 0
    (pagesFrom maxBatchSize [] ((w.db.files checkpoint.scanId).toList.map Prod.snd))

/-- The scan with its first durable checkpoint already chosen: the store is written, a
resumed scan drops its tail, and the body runs. -/
def startScan (scanId : ℕ) (resumed : Option InventoryResumeCheckpoint) : Op ScanSummary := do
  let counters := (resumed.map InventoryResumeCheckpoint.counters).getD 0
  raiseIf (c.budget.maxFiles < counters.filesSeen ∨ c.budget.maxBytes < counters.bytesSeen)
    (Failure.resume "checkpoint counters exceed the requested work budget")
  let opened : Option InventoryResumeCheckpoint :=
    match c.store, resumed with
    | none, _ => none
    | some _, some cp => some { cp with status := .building, stopReason := none }
    | some _, none => some (c.firstCheckpoint sha256 scanId)
  match c.store, opened with
  | some path, some cp =>
    (storeWrite path cp).handle fun e => do
      Op.swallow (completeInterruptedScan scanId counters)
      liftM (Except.error (ε := Failure) (α := Unit) e)
  | _, _ => pure ()
  match resumed, opened with
  | some _, some cp => deleteRowsAfterCursor scanId c.tree.root cp
  | _, _ => pure ()
  Op.modify fun _ =>
    { initialMemory sha256 resumed with lastCheckpoint := opened }
  let t := c.traversal sha256 scanId resumed
  scanBody sha256 t (c.tree.visits c.policy t.deterministic) resumed

/-- `InventoryScanner.scan`. -/
def ScanCall.run : Op ScanSummary := do
  raiseIf (c.resume = true ∧ c.store = none) (Failure.value "resume requires checkpoint_path")
  raiseIf (c.policy.excludesDirectory c.tree.root = true)
    (Failure.inventory "inventory root is excluded by its inventory policy")
  raiseIf (c.store.any (fun path => decide (c.tree.root <+: path)) = true)
    (Failure.resume "checkpoint must be outside the scanned root")
  let w ← Op.world
  let stored := c.store.bind w.checkpoints
  if c.resume then
    match stored with
    | none => liftM (Except.error (ε := Failure) (α := ScanSummary)
        (.resume "inventory resume checkpoint is missing"))
    | some checkpoint => do
      raiseIf (checkpoint.root.path ≠ c.tree.root)
        (Failure.conflict "checkpoint root does not match its store")
      let alreadyComplete ← prepareResume w.db checkpoint c.tree.identity c.policy.signature
      if alreadyComplete then do
        verifyCompleteCheckpoint sha256 c checkpoint
        readCompleteSummary w.db checkpoint.scanId c.tree.root
      else startScan sha256 c checkpoint.scanId (some checkpoint)
  else do
    raiseIf (stored.isSome = true)
      (Failure.conflict "checkpoint already exists; pass resume=True to continue its owner")
    Op.commit (w.beginScan c.tree.identity c.policy.signature)
    startScan sha256 c w.db.nextOperationalIdentity none

/-- The scan as a program over what survives it. -/
def ScanCall.program : Program World Failure ScanSummary :=
  (c.run sha256).hide
    (fun w => { world := w, memory := initialMemory sha256 none }) Run.world

end Scan

end Inventory
end Neocortex
