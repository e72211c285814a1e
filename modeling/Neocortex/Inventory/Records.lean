import Neocortex.Library.Checks
import Neocortex.Inventory.Tree
import Neocortex.Python.Json

/-!
# Observations, digests and checkpoints of a scan

The values that `inventory/scanner.py`, `inventory/resume.py` and
`inventory/generation.py` pass around: what a traversal observes of a file, the counters,
the chained digests over observations and directories, and the durable checkpoint of a
resumable scan with the guards of `InventoryResumeCheckpointStore.write`.

SHA-256 is a parameter: any function on bytes.  A device or inode number is a 64-bit
number; its 16-byte little-endian blob enters the digests only, since comparing blobs is
comparing numbers.
-/

namespace Neocortex
namespace Inventory

open Python
open Checks (raiseIf)

/-! ## What a scan observes -/

/-- `FileObservation`. -/
structure FileObservation where
  path : Path
  volumeId : UInt64
  fileId : UInt64
  size : ℕ
  mtimeNs : ℤ
  birthtimeNs : ℤ
  ctimeNs : ℤ
  deriving DecidableEq

/-- `FileObservation.capture`. -/
def FileObservation.capture (path : Path) (stat : FileStat) : FileObservation :=
  ⟨path, stat.dev, stat.ino, stat.size, stat.mtimeNs, stat.birthtimeNs, stat.ctimeNs⟩

/-- `RootIdentity`. -/
structure RootIdentity where
  path : Path
  volumeId : UInt64
  fileId : UInt64
  birthtimeNs : ℤ
  deriving DecidableEq

/-- `RootIdentity.capture`. -/
def Tree.identity (t : Tree) : RootIdentity :=
  ⟨t.root, t.stat.dev, t.stat.ino, t.stat.birthtimeNs⟩

/-- `ScanCounters`. -/
structure ScanCounters where
  filesSeen : ℕ := 0
  directoriesSeen : ℕ := 0
  bytesSeen : ℕ := 0
  skippedLinks : ℕ := 0
  excludedDirectories : ℕ := 0
  errors : ℕ := 0
  deriving DecidableEq

namespace ScanCounters

instance : Zero ScanCounters := ⟨{}⟩

instance : Add ScanCounters where
  add a b :=
    { filesSeen := a.filesSeen + b.filesSeen
      directoriesSeen := a.directoriesSeen + b.directoriesSeen
      bytesSeen := a.bytesSeen + b.bytesSeen
      skippedLinks := a.skippedLinks + b.skippedLinks
      excludedDirectories := a.excludedDirectories + b.excludedDirectories
      errors := a.errors + b.errors }

end ScanCounters

/-! ## Digests -/

/-- `int.to_bytes(8, "big")` of a length. -/
def toBytes8 (n : ℕ) : Bytes := (List.range 8).map fun i => UInt8.ofNat (n / 256 ^ (7 - i))

/-- `id_blob`. -/
def idBlob (value : UInt64) : Bytes :=
  (List.range 16).map fun i => UInt8.ofNat (value.toNat / 256 ^ i)

/-- `bytes.hex`. -/
def hexText (b : Bytes) : Text :=
  b.flatMap fun x => [hexDigit (x.toNat / 16), hexDigit x.toNat]

/-- `_canonical`: compact JSON with sorted keys. -/
def canonical (value : Json) : Bytes := encodeUtf8 (render (sortKeys value))

/-- A number as JSON. -/
def jsonNat (n : ℕ) : Json := .int n

section Digests

variable (sha256 : Bytes → Bytes)

/-- `_digest`. -/
def digestText (value : Bytes) : Text := lit "sha256:" ++ hexText (sha256 value)

def prefixDomain : Bytes := encodeUtf8 (lit "neocortex-inventory-prefix-v1") ++ [0]
def batchDomain : Bytes := encodeUtf8 (lit "neocortex-inventory-batch-v1") ++ [0]
def directoryDomain : Bytes := encodeUtf8 (lit "neocortex-inventory-directory-v1") ++ [0]

/-- `empty_prefix_digest`. -/
def emptyPrefixDigest : Text := digestText sha256 prefixDomain

/-- `empty_batch_digest`. -/
def emptyBatchDigest : Text := digestText sha256 batchDomain

/-- `empty_directory_digest`. -/
def emptyDirectoryDigest : Text := digestText sha256 directoryDomain

/-- `_observation_bytes`: the volume is no part of it. -/
def observationBytes (root : Path) (o : FileObservation) : Bytes :=
  canonical (.obj [(lit "birthtime_ns", .int o.birthtimeNs),
    (lit "file_id", jsonNat o.fileId.toNat),
    (lit "mtime_ns", .int o.mtimeNs),
    (lit "path", .str (Path.text (o.path.drop root.length))),
    (lit "size", jsonNat o.size),
    (lit "type", .str (lit "neocortex-inventory-observation-v1"))])

/-- One link of a digest chain. -/
def chainDigest (domain : Bytes) (value : Text) (payload : Bytes) : Text :=
  digestText sha256 (sha256 (domain ++ encodeUtf8 value ++ toBytes8 payload.length ++ payload))

/-- `InventoryPrefixDigest.observe`. -/
def observePrefix (root : Path) (value : Text) (o : FileObservation) : Text :=
  chainDigest sha256 prefixDomain value (observationBytes root o)

/-- `InventoryDirectoryDigest.observe` of a directory at a path relative to the root. -/
def observeDirectory (value : Text) (d : Path × DirectoryStat) : Text :=
  chainDigest sha256 directoryDomain value
    (canonical (.obj [(lit "birthtime_ns", .int d.2.birthtimeNs),
      (lit "dev", jsonNat d.2.dev.toNat),
      (lit "inode", jsonNat d.2.ino.toNat),
      (lit "path", .str (Path.text d.1)),
      (lit "type", .str (lit "neocortex-inventory-directory-observation-v1"))]))

/-- `batch_digest`. -/
def batchDigest (root : Path) (observations : List FileObservation) : Text :=
  digestText sha256 (sha256 (batchDomain ++ observations.flatMap fun o =>
    let payload := observationBytes root o
    toBytes8 payload.length ++ payload))

end Digests

/-! ## Failures -/

/-- What a cooperative check may raise: the two verdicts of `InventoryWorkBudget`, a
signal, or an exception of the caller's own callback. -/
inductive Stop where
  | cancelled
  | deadlineExceeded
  | interrupted
  | raised
  deriving DecidableEq

/-- The exceptions of the inventory. -/
inductive Failure where
  | stopped (stop : Stop)
  /-- `InventoryScanBudgetExceeded("budget_exhausted")`. -/
  | budgetExhausted
  /-- `InventoryError`. -/
  | inventory (message : String)
  /-- `InventoryError` whose message ends in a relative path. -/
  | inventoryAt (message : String) (relative : Path)
  /-- `InventoryUnsupportedPathEncoding`. -/
  | unsupportedPathEncoding (pathCount : ℕ)
  /-- `InventoryResumeError`. -/
  | resume (message : String)
  /-- `InventoryResumeConflictError`. -/
  | conflict (message : String)
  /-- `InventoryResumeConflictError` whose message ends in a relative path. -/
  | conflictAt (message : String) (relative : Path)
  /-- `ValueError`. -/
  | value (message : String)
  deriving DecidableEq

/-- A computation that may fail. -/
abbrev Checked := Except Failure

/-- `InventoryScanner._stop_reason`. -/
def Failure.stopReason : Failure → Text
  | .stopped .cancelled => lit "cancelled"
  | .stopped .deadlineExceeded => lit "deadline_exceeded"
  | .stopped .interrupted => lit "interrupted"
  | .budgetExhausted => lit "budget_exhausted"
  | .unsupportedPathEncoding _ => lit "unsupported_path_encoding"
  | _ => lit "failed"

/-! ## Checkpoints of resumable scans -/

/-- The status of a scan and of its checkpoint: `building`, `partial` or `complete`. -/
inductive ScanStatus where
  | building
  | partialScan
  | complete
  deriving DecidableEq

/-- `InventoryResumeCheckpoint`. -/
structure InventoryResumeCheckpoint where
  root : RootIdentity
  policySignature : Text
  scanId : ℕ
  lastRelativeCursor : Option Path
  batchDigest : Text
  batchFiles : ℕ
  prefixDigest : Text
  directoryDigest : Text
  batchIndex : ℕ
  counters : ScanCounters
  status : ScanStatus
  stopReason : Option Text := none
  deriving DecidableEq

/-- Whether a terminal checkpoint may carry more directory evidence than the current one
at the same batch. -/
def terminalDirectoryExtension (current next : InventoryResumeCheckpoint) : Prop :=
  next.status = .complete ∧ current.status ≠ .complete ∧
    current.counters.directoriesSeen ≤ next.counters.directoriesSeen ∧
    current.counters.skippedLinks ≤ next.counters.skippedLinks ∧
    current.counters.excludedDirectories ≤ next.counters.excludedDirectories ∧
    next.counters.errors = current.counters.errors ∧ current.counters.errors = 0

instance (current next : InventoryResumeCheckpoint) :
    Decidable (terminalDirectoryExtension current next) := inferInstanceAs (Decidable (_ ∧ _))

/-- Whether two checkpoints of one batch disagree about their position. -/
def positionChanged (current next : InventoryResumeCheckpoint) : Prop :=
  next.lastRelativeCursor ≠ current.lastRelativeCursor ∨
    next.prefixDigest ≠ current.prefixDigest ∨
    (next.directoryDigest ≠ current.directoryDigest ∧
      ¬ terminalDirectoryExtension current next) ∨
    next.batchDigest ≠ current.batchDigest ∨
    next.batchFiles ≠ current.batchFiles ∨
    next.counters.filesSeen ≠ current.counters.filesSeen ∨
    next.counters.bytesSeen ≠ current.counters.bytesSeen

instance (current next : InventoryResumeCheckpoint) :
    Decidable (positionChanged current next) := inferInstanceAs (Decidable (_ ∨ _))

/-- The guards of `InventoryResumeCheckpointStore.write` against the stored checkpoint. -/
def storeGuards (current next : InventoryResumeCheckpoint) : Checked Unit := do
  raiseIf (next.scanId ≠ current.scanId) (.conflict "checkpoint owner changed")
  raiseIf (current.status = .complete ∧ next ≠ current)
    (.conflict "checkpoint owner is terminal")
  raiseIf (next.batchIndex < current.batchIndex)
    (.conflict "checkpoint progress moved backwards")
  raiseIf (next.batchIndex = current.batchIndex ∧ positionChanged current next)
    (.conflict "checkpoint position changed concurrently")
  raiseIf (current.batchIndex + 1 < next.batchIndex)
    (.conflict "checkpoint batch index skipped")

/-- The guards of a write to a store that may be empty. -/
def storeGuards? (current : Option InventoryResumeCheckpoint)
    (next : InventoryResumeCheckpoint) : Checked Unit :=
  match current with
  | some c => storeGuards c next
  | none => pure ()

end Inventory
end Neocortex
