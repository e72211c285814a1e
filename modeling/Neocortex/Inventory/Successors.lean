import Neocortex.Inventory.Database
import Neocortex.Library.Checks

/-!
# Successors of a scan

What `inventory/repository_scans.py` and `inventory/repository_reconciliation.py` do to a published
scan: its rows stay as they are, and a change that was observed later goes to a successor.

* `ensureInventoryContentDigest`: the identity of a complete scan;
* `createInventorySuccessor`: the successor of a complete scan, with its rows;
* `applyReconciliation`: one reconciliation of observed paths and identities;
* `bindInventoryCheckpoint`: the publication of a complete scan.

A transaction that raises is rolled back, so it returns no database.
-/

namespace Neocortex
namespace Inventory

open Python
open Checks (raiseIf)

/-! ## The identity of a complete scan -/

/-- `_ensure_inventory_content_digest`: the digest, and the head that holds it. -/
def ensureInventoryContentDigest (sha256 : Bytes → Bytes) (db : Database) (scanId : ℕ) :
    Checked (Bytes × Database) := do
  let current ← resolveScanId db scanId
  db.requireOperationalIdentity current
  match db.heads[current]? with
  | some digest => pure (digest, db)
  | none =>
    match db.scans[current]? with
    | none => .error (.inventory s!"unknown scan_id: {scanId}")
    | some scan => do
      raiseIf (scan.status ≠ .complete)
        (.inventory s!"scan {current} has no complete inventory content identity")
      let digest := inventoryContentDigest sha256 (db.files current)
      pure (digest, { db with heads := db.heads.insert current digest })

/-! ## Successors -/

/-- The head of the plan of a scan, superseded. -/
def PlanTables.supersede (plans : PlanTables) (scanId : ℕ) : PlanTables :=
  { plans with
    heads := match plans.heads[scanId]? with
      | some head => plans.heads.insert scanId { head with status := .superseded }
      | none => plans.heads }

/-- The insertions of `_create_inventory_successor`.  No scan has used the new identifier, so the
copied rows are all its rows. -/
def Database.insertSuccessor (db : Database) (source : ℕ) (scan : Scan) (digest : Bytes) :
    Database :=
  let successor := db.nextOperationalIdentity
  let copied := (db.setFiles successor (db.files source)).setChangeVersions successor
    (db.changeVersions source)
  { copied with
    scans := db.scans.insert successor { scan with completed := true, status := .complete }
    heads := db.heads.insert successor digest
    successors := db.successors.insert source successor
    plans := db.plans.supersede source }

/-- `_create_inventory_successor` with `copy_files`. -/
def createInventorySuccessor (sha256 : Bytes → Bytes) (db : Database) (scanId : ℕ) :
    Checked (ℕ × Database) := do
  let source ← resolveScanId db scanId
  db.requireOperationalIdentity source
  match db.successors[source]? with
  | some existing => do
    let current ← resolveScanId db existing
    pure (current, db)
  | none =>
    match db.scans[source]? with
    | none => .error (.inventory "reconciliation requires a complete inventory scan")
    | some scan => do
      raiseIf (scan.status ≠ .complete ∨ scan.completed = false)
        (.inventory "reconciliation requires a complete inventory scan")
      let (digest, db) ← ensureInventoryContentDigest sha256 db source
      pure (db.nextOperationalIdentity, db.insertSuccessor source scan digest)

/-! ## Checkpoints -/

/-- `InventoryCheckpoint`. -/
structure InventoryCheckpoint where
  root : Path
  scanId : ℕ
  valid : Bool
  inventoryPolicySignature : Option Text
  deriving DecidableEq

/-- `_validated_inventory_policy_signature` of a text. -/
def validatedInventoryPolicySignature (value : Text) : Checked Text := do
  raiseIf (value = [] ∨ strip value ≠ value)
    (.inventory "inventory policy signature is missing or malformed")
  raiseIf (4096 < utf8Len value) (.inventory "inventory policy signature exceeds 4096 bytes")
  pure value

/-- A scan that was completed without errors, with the counters of its rows. -/
def Scan.Publishable (scan : Scan) (files : Files) : Prop :=
  scan.status = .complete ∧ scan.completed = true ∧ ∃ c ∈ scan.counters, c.errors = 0 ∧
    c.filesSeen = files.count ∧ c.bytesSeen = files.bytes

instance (scan : Scan) (files : Files) : Decidable (scan.Publishable files) := by
  unfold Scan.Publishable
  infer_instance

/-- `_require_publishable_scan`. -/
def requirePublishableScan (db : Database) (scanId : ℕ) : Checked (Path × Text) := do
  let scanId ← resolveScanId db scanId
  match db.scans[scanId]? with
  | none => .error (.inventory s!"scan {scanId} is not a complete, internally consistent inventory")
  | some scan => do
    raiseIf (¬ scan.Publishable (db.files scanId))
      (.inventory s!"scan {scanId} is not a complete, internally consistent inventory")
    let signature ← validatedInventoryPolicySignature scan.inventoryPolicySignature
    pure (scan.root.path, signature)

/-- `_policy_bound_checkpoint`; paths are absolute and keep their case. -/
def policyBoundCheckpoint (db : Database) (c : InventoryCheckpoint) :
    Checked InventoryCheckpoint := do
  let current ← resolveScanId db c.scanId
  let (root, signature) ← requirePublishableScan db current
  raiseIf (c.root ≠ root) (.inventory "checkpoint root does not match scan root")
  raiseIf (∃ s ∈ c.inventoryPolicySignature, s ≠ signature)
    (.inventory "checkpoint inventory policy signature does not match its scan")
  pure ⟨c.root, current, c.valid, some signature⟩

/-- `_write_inventory_checkpoint`. -/
def writeInventoryCheckpoint (db : Database) (c : InventoryCheckpoint) : Checked Database := do
  let signature ← validatedInventoryPolicySignature (c.inventoryPolicySignature.getD [])
  let scanId ← resolveScanId db c.scanId
  raiseIf (¬ ∃ scan ∈ db.scans[scanId]?, scan.inventoryPolicySignature = signature)
    (.inventory "checkpoint inventory policy signature does not match its scan")
  pure { db with published := db.published.insert c.root ⟨scanId, c.valid⟩ }

/-- `bind_inventory_checkpoint`. -/
def bindInventoryCheckpoint (db : Database) (c : InventoryCheckpoint) : Checked Database := do
  db.requireOperationalIdentity c.scanId
  let bound ← policyBoundCheckpoint db c
  writeInventoryCheckpoint db bound

/-- The counters with the totals of the rows. -/
def ScanCounters.recounted (c : ScanCounters) (files : Files) : ScanCounters :=
  { c with filesSeen := files.count, bytesSeen := files.bytes }

/-- The two totals of a scan, counted again. -/
def Database.recount (db : Database) (scanId : ℕ) : Database :=
  db.updateScan scanId fun scan =>
    { scan with counters := scan.counters.map fun c => c.recounted (db.files scanId) }

/-- `refresh_scan_aggregates`. -/
def refreshScanAggregates (db : Database) (scanId : ℕ) : Checked Database := do
  let scanId ← resolveScanId db scanId
  raiseIf (¬ ∃ scan ∈ db.scans[scanId]?, scan.completed = true ∧ scan.status = .complete)
    (.inventory s!"cannot refresh unknown completed scan {scanId}")
  pure (db.recount scanId)

/-! ## Reconciliation -/

/-- `_remove_reconciled_rows`. -/
def removeReconciledRows (db : Database) (scanId : ℕ) (paths : List Path)
    (identities : List (UInt64 × UInt64)) : Database :=
  (db.deleteFiles scanId fun path _ => paths.contains path).deleteFiles scanId
    fun _ row => identities.contains (row.volumeId, row.fileId)

/-- The row is one of the file that the snapshot shows. -/
def FileSnapshot.Shows (s : FileSnapshot) (row : FileRow) : Prop :=
  (row.volumeId, row.fileId) = s.identity

instance (s : FileSnapshot) (row : FileRow) : Decidable (s.Shows row) :=
  inferInstanceAs (Decidable (_ = _))

/-- `UPDATE files SET size=?,mtime_ns=?,birthtime_ns=? WHERE volume_id=? AND file_id=?`. -/
def FileSnapshot.refresh (s : FileSnapshot) (row : FileRow) : FileRow :=
  if s.Shows row then
    { row with size := s.size, mtimeNs := s.mtimeNs, birthtimeNs := s.birthtimeNs }
  else row

/-- `_upsert_reconciled_snapshot`. -/
def upsertReconciledSnapshot (scanId : ℕ) (db : Database) (s : FileSnapshot) : Database :=
  let files := db.files scanId
  let versions := (db.changeVersions scanId).filter fun path _ =>
    !(decide (path = s.path) || files[path]?.any fun row => decide (s.Shows row))
  (db.setChangeVersions scanId versions).setFiles scanId
    ((files.map fun _ row => s.refresh row).insert s.path s.row)

/-- `_refresh_reconciliation_aggregates`. -/
def refreshReconciliationAggregates (db : Database) (scanId : ℕ) : Checked Database := do
  raiseIf (¬ ∃ scan ∈ db.scans[scanId]?, scan.completed = true ∧ scan.status = .complete ∧
      ∃ c ∈ scan.counters, c.errors = 0)
    (.inventory s!"cannot publish reconciliation for scan {scanId}")
  pure (db.recount scanId)

/-- What `apply_reconciliation` is given. -/
structure Reconciliation where
  upserts : List FileSnapshot := []
  removePaths : List Path := []
  removeIdentities : List (UInt64 × UInt64) := []
  checkpoint : Option InventoryCheckpoint := none

/-- `upsert_rows or path_rows or identity_rows`. -/
def Reconciliation.Changes (r : Reconciliation) : Prop :=
  r.upserts ≠ [] ∨ r.removePaths ≠ [] ∨ r.removeIdentities ≠ []

instance (r : Reconciliation) : Decidable r.Changes := inferInstanceAs (Decidable (_ ∨ _))

/-- The rows of a successor after a reconciliation, and its new identity. -/
def Database.reconcileRows (sha256 : Bytes → Bytes) (db : Database) (current : ℕ)
    (r : Reconciliation) : Database :=
  let db := r.upserts.foldl (upsertReconciledSnapshot current)
    (removeReconciledRows db current r.removePaths r.removeIdentities)
  { db with
    heads := if current ∈ db.heads then
        db.heads.insert current (inventoryContentDigest sha256 (db.files current))
      else db.heads }

/-- `apply_reconciliation`. -/
def applyReconciliation (sha256 : Bytes → Bytes) (db : Database) (scanId : ℕ) (r : Reconciliation) :
    Checked Database := do
  raiseIf (∃ c ∈ r.checkpoint, c.scanId ≠ scanId)
    (.inventory "checkpoint scan_id does not match reconciliation scan")
  let current ← resolveScanId db scanId
  let checkpoint ← r.checkpoint.mapM (policyBoundCheckpoint db)
  if r.Changes then do
    let (current, db) ← createInventorySuccessor sha256 db current
    let db := db.reconcileRows sha256 current r
    publishReconciliation db current (checkpoint.map fun c => { c with scanId := current })
  else publishReconciliation db current checkpoint
where
  /-- The end of the transaction: the totals and the checkpoint. -/
  publishReconciliation (db : Database) (current : ℕ) : Option InventoryCheckpoint → Checked Database
    | none => pure db
    | some c => do
      let db ← refreshReconciliationAggregates db current
      writeInventoryCheckpoint db c

/-- `mark_abandoned_scans`; missing counters are zero. -/
def markAbandonedScans (db : Database) : Database :=
  let building := fun scanId => db.scans[scanId]?.any fun scan => scan.status = .building
  { db with
    published := db.published.map fun _ p =>
      if building p.scanId then { p with valid := false } else p
    scans := db.scans.map fun scanId scan =>
      if scan.status = .building then
        { scan with
          completed := true
          counters := some ((scan.counters.getD 0).recounted (db.files scanId))
          status := .partialScan }
      else scan }

end Inventory
end Neocortex
