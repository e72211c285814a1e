import Neocortex.Library.Durable
import Neocortex.Inventory.Database

/-!
# What a visit does

`InventoryTraversal` of `inventory/traversal.py` with the three sinks its callers give
it: the row batches of the scanner, the empty sink that replays a complete checkpoint,
and the private observation of the portable inventory.

A scan runs over a `Run`: the durable `World` (the database and the checkpoint files),
the variables of the call, and the number of cooperative checks made so far.  What the
`n`-th check decides is an argument of the call, so a theorem about every call covers
every cancellation, every deadline and every signal.  A crash keeps the `World` of some
`Run` on the way and nothing else.

The tree does not change during one call: the version checks of `_open_directory` and
`_verify_directory_unchanged`, and `RootIdentity.verify_unchanged`, compare equal values
and are left out.
-/

namespace Neocortex
namespace Inventory

open Python Durable
open Checks (raiseIf)

/-! ## State -/

/-- What survives a crash: the database and the checkpoint files by their paths. -/
structure World where
  db : Database := {}
  checkpoints : Path → Option InventoryResumeCheckpoint := fun _ => none

/-- The variables of one call of the scanner. -/
structure Memory where
  resumeActive : Bool
  resumeFound : Bool
  counters : ScanCounters
  prefixCounters : ScanCounters := 0
  unsupportedPathCount : ℕ := 0
  /-- `_InventoryWorkState.files` and `.bytes_seen`. -/
  workFiles : ℕ
  workBytes : ℕ
  /-- The rows of the batch that is not flushed yet. -/
  pending : List FileObservation := []
  prefixDigest : Text
  directoryDigest : Text
  prefixValidationDigest : Text
  prefixValidationDirectoryDigest : Text
  prefixBatchObservations : List FileObservation := []
  lastCheckpoint : Option InventoryResumeCheckpoint
  cursorEvidence : Option (ScanCounters × Text) := none
  scanCompleted : Bool := false
  /-- The TEMP table `portable_observed_files`. -/
  observed : List FileObservation := []

/-- A moment of a call. -/
structure Run where
  world : World
  memory : Memory
  ticks : ℕ := 0

abbrev Op := Program Run Failure

namespace Op

def world : Op World := fun s => ⟨[], .ok s.world⟩

def memory : Op Memory := fun s => ⟨[], .ok s.memory⟩

/-- An assignment to variables of the call. -/
def modify (f : Memory → Memory) : Op Unit := fun s =>
  ⟨[{ s with memory := f s.memory }], .ok ()⟩

/-- One durable write: a transaction, or the replacement of a checkpoint file. -/
def commit (w : World) : Op Unit := fun s => ⟨[{ s with world := w }], .ok ()⟩

/-- `try: x; except Exception: note it`. -/
def swallow (x : Op Unit) : Op Unit := x.handle fun _ => pure ()

end Op

/-- The bounds of one call and the outcome of its checks. -/
structure Budget where
  maxFiles : ℕ
  maxBytes : ℕ
  checks : ℕ → Option Stop

/-- `InventoryWorkBudget.checkpoint`, by way of `_InventoryWorkState.check(0)`. -/
def check (budget : Budget) : Op Unit := fun s =>
  match budget.checks s.ticks with
  | some stop => ⟨[{ s with ticks := s.ticks + 1 }], .error (.stopped stop)⟩
  | none => ⟨[{ s with ticks := s.ticks + 1 }], .ok ()⟩

/-- `_InventoryWorkState.check_file`. -/
def checkFile (budget : Budget) (size : ℕ) : Op Unit := do
  check budget
  let m ← Op.memory
  raiseIf (budget.maxFiles ≤ m.workFiles) Failure.budgetExhausted
  raiseIf (budget.maxBytes < m.workBytes + size) Failure.budgetExhausted
  Op.modify fun m => { m with workFiles := m.workFiles + 1, workBytes := m.workBytes + size }

/-! ## The traversal -/

/-- The row sink of a traversal. -/
inductive Sink where
  /-- `InventoryBatch`. -/
  | batch
  /-- `_NoopInventorySink`, which replays a terminal checkpoint. -/
  | noop
  /-- `_ObservationBatch`. -/
  | observation
  deriving DecidableEq

/-- The arguments of `InventoryTraversal` and what its callbacks close over. -/
structure Traversal where
  sha256 : Bytes → Bytes
  root : RootIdentity
  policy : InventoryExclusionPolicy
  deterministic : Bool
  sink : Sink
  scanId : ℕ
  batchSize : ℕ
  /-- The checkpoint file. -/
  store : Option Path
  resumeCursor : Option Path
  /-- The bound of the deque `prefix_batch_observations`. -/
  batchLimit : ℕ
  budget : Budget

def maxSortedDirectoryEntries : ℕ := 10000

def portableBatchSize : ℕ := 5000

variable (t : Traversal)

/-- Count in the active tail, or in the prefix before the cursor. -/
def count (delta : ScanCounters) : Op Unit :=
  Op.modify fun m =>
    if m.resumeActive then { m with counters := m.counters + delta }
    else { m with prefixCounters := m.prefixCounters + delta }

/-- `_validate_prefix_observation`. -/
def validatePrefixObservation (o : FileObservation) : Op Unit := do
  let w ← Op.world
  let relative := o.path.drop t.root.path.length
  match (w.db.files t.scanId)[o.path]? with
  | none => liftM (Except.error (ε := Failure) (α := Unit)
      (.conflictAt "committed inventory prefix is missing " relative))
  | some row => do
    raiseIf (row ≠ o.row) (Failure.conflictAt "committed inventory prefix changed at " relative)
    Op.modify fun m =>
      { m with
        prefixValidationDigest := observePrefix t.sha256 t.root.path m.prefixValidationDigest o
        prefixBatchObservations := (m.prefixBatchObservations ++ [o]).rtake t.batchLimit }

/-- `InventoryResumeCheckpointStore.write`. -/
def storeWrite (path : Path) (checkpoint : InventoryResumeCheckpoint) : Op Unit := do
  let w ← Op.world
  storeGuards? (w.checkpoints path) checkpoint
  Op.commit { w with checkpoints := Function.update w.checkpoints path (some checkpoint) }

/-- The rows of `files` for some observations. -/
def fileRows (observations : List FileObservation) : List (Path × FileRow) :=
  observations.map fun o => (o.path, o.row)

/-- Their rows of `inventory_file_change_versions`. -/
def versionRows (observations : List FileObservation) : List (Path × ℤ) :=
  (observations.filter fun o => 0 ≤ o.ctimeNs).map fun o => (o.path, o.ctimeNs)

/-- The rows that `InventoryBatch.flush` commits. -/
def World.upsert (w : World) (scanId : ℕ) (observations : List FileObservation) : World :=
  { w with
    db := (w.db.setFiles scanId
        ((w.db.files scanId).putAll (fileRows observations))).setChangeVersions scanId
      ((w.db.changeVersions scanId).putAll (versionRows observations)) }

/-- The checkpoint that `on_flush` writes behind a batch. -/
def nextCheckpoint (observations : List FileObservation) (prefixDigest : Text)
    (counters : ScanCounters) (directoryDigest : Text)
    (last : Option InventoryResumeCheckpoint) : InventoryResumeCheckpoint where
  root := t.root
  policySignature := t.policy.signature
  scanId := t.scanId
  lastRelativeCursor := observations.getLast?.map fun o => o.path.drop t.root.path.length
  batchDigest := batchDigest t.sha256 t.root.path observations
  batchFiles := observations.length
  prefixDigest := prefixDigest
  directoryDigest := directoryDigest
  batchIndex := (last.map fun c => c.batchIndex + 1).getD 1
  counters := counters
  status := .building

/-- `on_flush`. -/
def onFlush (observations : List FileObservation) : Op Unit :=
  match t.store with
  | none => pure ()
  | some path => do
    Op.modify fun m =>
      { m with prefixDigest := observations.foldl (observePrefix t.sha256 t.root.path) m.prefixDigest }
    let m ← Op.memory
    match m.cursorEvidence with
    | none => liftM (Except.error (ε := Failure) (α := Unit) (.value "list index out of range"))
    | some (counters, directoryDigest) => do
      let next := nextCheckpoint t observations m.prefixDigest counters directoryDigest
        m.lastCheckpoint
      storeWrite path next
      Op.modify fun m => { m with lastCheckpoint := some next }

/-- `flush` of the three sinks. -/
def flush : Op Unit := do
  let m ← Op.memory
  match t.sink with
  | .noop => pure ()
  | .observation =>
    if m.pending = [] then pure ()
    else do
      check t.budget
      Op.modify fun m => { m with observed := m.observed ++ m.pending, pending := [] }
      check t.budget
  | .batch =>
    if m.pending = [] then pure ()
    else do
      check t.budget
      let w ← Op.world
      Op.commit (w.upsert t.scanId m.pending)
      check t.budget
      Op.modify fun m => { m with pending := [] }
      onFlush t m.pending

/-- `append` of the three sinks. -/
def sinkAppend (o : FileObservation) : Op Unit :=
  match t.sink with
  | .noop => pure ()
  | _ => Op.modify fun m => { m with pending := m.pending ++ [o] }

/-- `full` of the three sinks. -/
def sinkFull (m : Memory) : Bool :=
  match t.sink with
  | .noop => false
  | .batch => t.batchSize ≤ m.pending.length
  | .observation => portableBatchSize ≤ m.pending.length

/-- `observe_admitted_file`, which a scan without checkpoint does not have. -/
def observeAdmittedFile : Op Unit :=
  if t.sink = .batch ∧ t.store.isSome then
    Op.modify fun m => { m with cursorEvidence := some (m.counters, m.directoryDigest) }
  else pure ()

/-- The directory observers of the callers. -/
def observeOpened (directory : Path) (stat : DirectoryStat) : Op Unit :=
  match t.sink with
  | .observation => pure ()
  | .noop =>
    Op.modify fun m =>
      { m with directoryDigest := observeDirectory t.sha256 m.directoryDigest (directory, stat) }
  | .batch =>
    if t.store.isNone then pure ()
    else Op.modify fun m =>
      if m.resumeActive then
        { m with directoryDigest := observeDirectory t.sha256 m.directoryDigest (directory, stat) }
      else
        { m with
          prefixValidationDirectoryDigest :=
            observeDirectory t.sha256 m.prefixValidationDirectoryDigest (directory, stat) }

/-- `_accept_path` of a path that UTF-8 cannot hold. -/
def rejectPath : Op Unit := do
  Op.modify fun m => { m with unsupportedPathCount := m.unsupportedPathCount + 1 }
  count { errors := 1 }

/-- The end of `_process_file`, for a file whose `stat` succeeds. -/
def processObservation (path : Path) (o : FileObservation) : Op Unit := do
  if t.sink = .noop then validatePrefixObservation t o
  let m ← Op.memory
  if m.resumeActive then do
    checkFile t.budget o.size
    sinkAppend t o
    count { filesSeen := 1, bytesSeen := o.size }
    observeAdmittedFile t
    let m ← Op.memory
    if sinkFull t m then flush t
  else do
    count { filesSeen := 1, bytesSeen := o.size }
    validatePrefixObservation t o
    if some path = t.resumeCursor then
      Op.modify fun m => { m with resumeActive := true, resumeFound := true }

/-- `_process_file` of an entry whose type is a file. -/
def processFile (path : Path) (node : Node) : Op Unit :=
  if t.policy.excludesFile (t.root.path ++ path) then pure ()
  else if (Path.supported (t.root.path ++ path)) = false then rejectPath
  else
    match node with
    | .file stat => processObservation t path (.capture (t.root.path ++ path) stat)
    | _ => count { errors := 1 }

/-- `_process_directory`, apart from the push. -/
def processDirectory (path : Path) : Op Unit :=
  if t.policy.excludesDirectory (t.root.path ++ path) then count { excludedDirectories := 1 }
  else if (Path.supported (t.root.path ++ path)) = false then rejectPath
  else pure ()

/-- `_process_entry` behind the test for the cursor. -/
def dispatchEntry (path : Path) (node : Node) : Op Unit :=
  match node with
  | .link => count { skippedLinks := 1 }
  | .directory _ _ => processDirectory t path
  | .unopenable => processDirectory t path
  | .unstatableDirectory => count { errors := 1 }
  | .file _ => processFile t path node
  | .unstatableFile => processFile t path node
  | .other => pure ()
  | .untyped => count { errors := 1 }

/-- Whether an entry lies behind the cursor. -/
def passesCursor (path : Path) : Bool :=
  match t.resumeCursor with
  | none => false
  | some cursor => dfsOrderKey cursor < dfsOrderKey path

/-- `_process_entry`. -/
def processEntry (path : Path) (node : Node) : Op Unit := do
  check t.budget
  let m ← Op.memory
  match node with
  | .untyped => count { errors := 1 }
  | _ =>
    if m.resumeActive = false ∧ passesCursor t path = true then do
      Op.modify fun m => { m with resumeActive := true, resumeFound := true }
      dispatchEntry t path node
    else if m.resumeActive = false ∧ some path ≠ t.resumeCursor ∧ node.isFile = true then
      processFile t path node
    else dispatchEntry t path node

/-- `_open_directory`. -/
def openDirectory (directory : Path) (stat : DirectoryStat) (entries : ℕ) : Op Unit := do
  count { directoriesSeen := 1 }
  if t.deterministic then do
    Program.each (fun _ => check t.budget)
      (List.replicate (min entries maxSortedDirectoryEntries) ())
    raiseIf (maxSortedDirectoryEntries < entries)
      (Failure.inventory "inventory directory exceeds deterministic sort bound")
  observeOpened t directory stat

/-- One visit. -/
def visit : Visit → Op Unit
  | .advance => check t.budget
  | .opened directory stat entries => openDirectory t directory stat entries
  | .refused _ => do
    count { directoriesSeen := 1 }
    count { errors := 1 }
  | .entry path node => processEntry t path node

/-- `InventoryTraversal.run`. -/
def runTraversal (visits : List Visit) : Op Unit := do
  (Program.each (visit t) visits).handle fun e => do
    Op.swallow (flush t)
    liftM (Except.error (ε := Failure) (α := Unit) e)
  let m ← Op.memory
  raiseIf (m.resumeFound = false)
    (Failure.inventoryAt "inventory resume cursor was not found: " (t.resumeCursor.getD []))
  check t.budget
  flush t
  check t.budget

end Inventory
end Neocortex
