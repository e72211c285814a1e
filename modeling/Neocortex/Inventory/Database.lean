import Neocortex.Library.Tables
import Neocortex.Inventory.Records

/-!
# The inventory database

The tables of `persistence/ddl.py` that the scanner, the generation repository and the
plan repository read and write, with the queries they share.

A table with a primary key is a `Table`; the rows of `files` and
`inventory_file_change_versions` are kept per scan, and the members of a planned group
per group.  `completed_ns` and the other time stamps are only ever compared with `NULL`,
so `completed` stands for `completed_ns IS NOT NULL`.

* `resolveScanId`: the successor chain;
* `inventoryContentDigest`: the identity of a generation.
-/

namespace Neocortex
namespace Inventory

open Python
open Checks (raiseIf)

/-! ## Rows -/

/-- A row of `files`, without its key. -/
structure FileRow where
  volumeId : UInt64
  fileId : UInt64
  size : ℕ
  mtimeNs : ℤ
  birthtimeNs : ℤ
  deriving DecidableEq

/-- The row of an observation. -/
def FileObservation.row (o : FileObservation) : FileRow :=
  ⟨o.volumeId, o.fileId, o.size, o.mtimeNs, o.birthtimeNs⟩

/-- The rows of one scan in `files`. -/
abbrev Files := Table Path FileRow

/-- A row of `scans`.  The six counters are written together. -/
structure Scan where
  root : RootIdentity
  completed : Bool
  counters : Option ScanCounters
  status : ScanStatus
  inventoryPolicySignature : Text
  deriving DecidableEq

/-- `InventoryCheckpoint`, a row of `inventory_checkpoints` under its root. -/
structure PublishedInventory where
  scanId : ℕ
  valid : Bool
  deriving DecidableEq

/-! ## Duplicate plans -/

/-- `FileSnapshot`. -/
structure FileSnapshot where
  path : Path
  volumeId : UInt64
  fileId : UInt64
  size : ℕ
  mtimeNs : ℤ
  birthtimeNs : ℤ
  deriving DecidableEq

/-- `FileSnapshot.identity`. -/
def FileSnapshot.identity (s : FileSnapshot) : UInt64 × UInt64 := (s.volumeId, s.fileId)

/-- The row of `files` that holds the snapshot. -/
def FileSnapshot.row (s : FileSnapshot) : FileRow :=
  ⟨s.volumeId, s.fileId, s.size, s.mtimeNs, s.birthtimeNs⟩

/-- `VerificationMode`: `legacy_unknown`, `fast`, `partial`, `full_hash`. -/
inductive VerificationMode where
  | legacyUnknown
  | fast
  | partialCoverage
  | fullHash
  deriving DecidableEq

/-- `DedupPolicy`. -/
inductive DedupPolicy where
  | legacyUnknown
  | fast
  | exact
  deriving DecidableEq

/-- `PlanCoverage`. -/
inductive PlanCoverage where
  | legacyUnknown
  | complete
  | partialCoverage
  deriving DecidableEq

/-- `ComparisonMethod`. -/
inductive ComparisonMethod where
  | notRecorded
  | sha256Full
  | byteForByte
  deriving DecidableEq

/-- `ComparisonResult`. -/
inductive ComparisonResult where
  | notRecorded
  | reference
  | fingerprintMatch
  | equal
  deriving DecidableEq

/-- Where a fingerprint came from. -/
inductive FingerprintSource where
  | notRecorded
  | computed
  | cached
  deriving DecidableEq

/-- `DuplicateMemberProof`. -/
structure DuplicateMemberProof where
  proofVersion : Text := lit "legacy_unknown"
  comparisonMethod : ComparisonMethod := .notRecorded
  comparisonResult : ComparisonResult := .notRecorded
  comparedToIdentity : Option (UInt64 × UInt64) := none
  comparisonBytes : Option ℕ := none
  fingerprintAlgorithm : Option Text := none
  fingerprintSource : FingerprintSource := .notRecorded
  missingChecks : List Text := [lit "verification_not_recorded"]
  aliases : List Path := []
  aliasCount : Option ℕ := none
  aliasesTruncated : Bool := false
  observedLinkCount : Option ℕ := none
  deriving DecidableEq

/-- `DuplicateGroupProof`; its scope and actionability are constants. -/
structure DuplicateGroupProof where
  proofVersion : Text := lit "legacy_unknown"
  requestedPolicy : DedupPolicy := .legacyUnknown
  comparisonMethod : ComparisonMethod := .notRecorded
  comparisonResult : ComparisonResult := .notRecorded
  missingChecks : List Text := [lit "verification_not_recorded"]
  keeperPolicyVersion : Text := lit "legacy_unknown"
  keeperReason : Text := lit "not_recorded"
  keeperFactors : List Text := []
  deriving DecidableEq

/-- `DuplicateGroup`. -/
structure DuplicateGroup where
  size : ℕ
  keep : FileSnapshot
  redundant : List FileSnapshot
  fullFingerprint : Text
  verificationMode : VerificationMode := .legacyUnknown
  proof : Option DuplicateGroupProof := none
  memberProofs : List DuplicateMemberProof := []
  deriving DecidableEq

/-- The role of a planned member. -/
inductive MemberRole where
  | keep
  | redundant
  deriving DecidableEq

/-- A row of `planned_duplicate_groups`.  `proof_json` is the proof it encodes, `{}`
being no proof. -/
structure PlannedGroup where
  scanId : ℕ
  size : ℕ
  keepPath : Path
  redundantCount : ℕ
  reclaimableBytes : ℕ
  fullFingerprint : Text
  verificationMode : VerificationMode
  proof : Option DuplicateGroupProof
  deriving DecidableEq

/-- A row of `planned_duplicate_members`; the rows of a group are listed by
`member_order`. -/
structure PlannedMember where
  role : MemberRole
  snapshot : FileSnapshot
  proof : Option DuplicateMemberProof
  deriving DecidableEq

/-- A row of `duplicate_plan_summaries`, as far as it is read. -/
structure PlanSummary where
  groupCount : ℕ
  redundantFiles : ℕ
  reclaimableBytes : ℕ
  verificationMode : VerificationMode
  requestedPolicy : DedupPolicy
  coverage : PlanCoverage
  exactComparisons : Option ℕ
  changedOrUnreadableFiles : Option ℕ
  deriving DecidableEq

/-- The status of a plan head. -/
inductive PlanStatus where
  | published
  | superseded
  deriving DecidableEq

/-- A row of `duplicate_plan_heads`.  No reader looks at `plan_digest`. -/
structure PlanHead where
  inventoryContentDigest : Bytes
  status : PlanStatus
  deriving DecidableEq

/-- The tables of duplicate plans. -/
structure PlanTables where
  groups : Table ℕ PlannedGroup := ∅
  members : ℕ → List PlannedMember := fun _ => []
  summaries : Table ℕ PlanSummary := ∅
  heads : Table ℕ PlanHead := ∅

/-! ## The database -/

/-- The inventory owner's database. -/
structure Database where
  /-- The identity floor of the operational reset barrier. -/
  identityFloor : ℕ := 0
  scans : Table ℕ Scan := ∅
  files : ℕ → Files := fun _ => ∅
  changeVersions : ℕ → Table Path ℤ := fun _ => ∅
  heads : Table ℕ Bytes := ∅
  successors : Table ℕ ℕ := ∅
  published : Table Path PublishedInventory := ∅
  plans : PlanTables := {}

namespace Database

/-- `SELECT COALESCE(MAX(scan_id),0) FROM scans`. -/
def maxScanId (db : Database) : ℕ := db.scans.keys.foldl max 0

/-- `next_operational_identity`. -/
def nextOperationalIdentity (db : Database) : ℕ := max db.maxScanId db.identityFloor + 1

/-- `require_operational_identity`. -/
def requireOperationalIdentity (db : Database) (identity : ℕ) : Checked Unit :=
  raiseIf (identity ≤ db.identityFloor)
    (.inventory s!"inventory identity {identity} was retired by an operational reset")

/-- `UPDATE scans SET .. WHERE scan_id=?`. -/
def updateScan (db : Database) (scanId : ℕ) (f : Scan → Scan) : Database :=
  match db.scans[scanId]? with
  | some scan => { db with scans := db.scans.insert scanId (f scan) }
  | none => db

/-- The database with other rows for one scan. -/
def setFiles (db : Database) (scanId : ℕ) (files : Files) : Database :=
  { db with files := Function.update db.files scanId files }

/-- The database with other change versions for one scan. -/
def setChangeVersions (db : Database) (scanId : ℕ) (versions : Table Path ℤ) : Database :=
  { db with changeVersions := Function.update db.changeVersions scanId versions }

/-- `DELETE FROM files` for some rows of one scan; their change versions go with them. -/
def deleteFiles (db : Database) (scanId : ℕ) (gone : Path → FileRow → Bool) : Database :=
  let kept := (db.files scanId).filter fun path row => !gone path row
  (db.setFiles scanId kept).setChangeVersions scanId
    ((db.changeVersions scanId).filter fun path _ => kept.contains path)

end Database

/-- `SELECT COUNT(*) FROM files WHERE scan_id=?`. -/
def Files.count (files : Files) : ℕ := files.size

/-- `SELECT COALESCE(SUM(size),0) FROM files WHERE scan_id=?`. -/
def Files.bytes (files : Files) : ℕ := (files.toList.map fun r => r.2.size).sum

/-! ## The successor chain -/

/-- The loop of `resolve_scan_id`. -/
def resolveFrom (successors : Table ℕ ℕ) : ℕ → List ℕ → ℕ → Checked ℕ
  | 0, _, _ => .error (.inventory "inventory scan successor cycle detected")
  | fuel + 1, seen, current =>
    if current ∈ seen then .error (.inventory "inventory scan successor cycle detected")
    else
      match successors[current]? with
      | none => pure current
      | some next => resolveFrom successors fuel (current :: seen) next

/-- `resolve_scan_id`. -/
def resolveScanId (db : Database) (scanId : ℕ) : Checked ℕ := do
  raiseIf (scanId < 1) (.value "scan_id must be a positive integer")
  resolveFrom db.successors (db.successors.size + 1) [] scanId

/-! ## The identity of a generation -/

/-- The full path as SQLite stores it. -/
def Path.bytes (p : Path) : Bytes := p.flatMap fun n => 47 :: n.bytes

/-- `_update_value` of a text. -/
def hashedText (value : Bytes) : Bytes := 84 :: (toBytes8 value.length ++ value)

/-- `_update_value` of a blob. -/
def hashedBlob (value : Bytes) : Bytes := 66 :: (toBytes8 value.length ++ value)

/-- `_update_value` of an integer: its decimal text. -/
def hashedInt (value : ℤ) : Bytes := hashedText (encodeUtf8 (renderInt value))

/-- What `_hash_rows` feeds for one row of `files`. -/
def hashedRow (path : Path) (row : FileRow) : Bytes :=
  82 :: (hashedText path.bytes ++ hashedBlob (idBlob row.volumeId) ++
    hashedBlob (idBlob row.fileId) ++ hashedInt row.size ++ hashedInt row.mtimeNs ++
    hashedInt row.birthtimeNs)

/-- The rows of one scan in the order of `ORDER BY path`. -/
def Files.byPath (files : Files) : List (Path × FileRow) :=
  files.toList.insertionSort fun a b =>
    (Path.bytes a.1).map UInt8.toNat ≤ (Path.bytes b.1).map UInt8.toNat

/-- `inventory_content_digest` of the rows of one scan. -/
def inventoryContentDigest (sha256 : Bytes → Bytes) (files : Files) : Bytes :=
  sha256 (encodeUtf8 (lit "NEOCORTEX_INVENTORY_CONTENT_V1") ++ [0] ++
    (files.byPath.flatMap fun r => hashedRow r.1 r.2) ++ 67 :: toBytes8 files.count)

end Inventory
end Neocortex
