import Neocortex.Inventory.Database
import Neocortex.Library.Checks

/-!
# Duplicate plans

The transactions of `inventory/repository_plans.py` on the tables of duplicate plans, with the
checks of `inventory/plan_evidence.py` on the proofs that they encode.

* `beginDuplicatePlan`, `storeDuplicateGroups`, `completeDuplicatePlan`: the transactions;
* `iterDuplicateGroups`: what a reader sees of a plan.

A transaction that raises is rolled back, so it returns no database.
-/

namespace Neocortex
namespace Inventory

open Python
open Checks (raiseIf)

/-! ## Proofs -/

/-- `PROOF_VERSION`. -/
def proofVersion : Text := lit "neocortex.duplicate-content-proof/v1"

/-- The checks of `_payload`. -/
def checkPayload (version : Text) (method : ComparisonMethod) (result : ComparisonResult) :
    Checked Unit := do
  raiseIf (version ≠ proofVersion) (.inventory "duplicate proof version is unsupported")
  raiseIf (method = .notRecorded) (.inventory "duplicate proof comparison method is invalid")
  raiseIf (result = .notRecorded) (.inventory "duplicate proof comparison result is invalid")

/-- The checks of `decode_group_proof`. -/
def DuplicateGroupProof.check (p : DuplicateGroupProof) : Checked Unit := do
  checkPayload p.proofVersion p.comparisonMethod p.comparisonResult
  raiseIf (p.requestedPolicy = .legacyUnknown)
    (.inventory "duplicate group proof policy is invalid")
  raiseIf ((p.comparisonMethod, p.comparisonResult) ≠
      if p.requestedPolicy = .exact then (.byteForByte, .equal) else (.sha256Full, .fingerprintMatch))
    (.inventory "duplicate group proof does not match its requested policy")

/-- The aliases are counted, distinct and not blank. -/
def DuplicateMemberProof.aliasesConsistent (p : DuplicateMemberProof) : Bool :=
  p.aliasCount.any fun count => 1 ≤ count && p.aliases.length ≤ count &&
    !p.aliases.contains [] && decide p.aliases.Nodup &&
    p.observedLinkCount.any fun links => count ≤ links

/-- The receipt of a comparison. -/
def DuplicateMemberProof.receiptConsistent (p : DuplicateMemberProof) : Bool :=
  match p.comparisonResult with
  | .reference => p.comparisonMethod = .sha256Full && p.comparedToIdentity.isNone &&
      p.comparisonBytes.isNone
  | .fingerprintMatch => p.comparisonMethod = .sha256Full && p.comparedToIdentity.isSome &&
      p.comparisonBytes.isNone && p.missingChecks.contains (lit "byte_for_byte_comparison")
  | _ => p.comparisonMethod = .byteForByte && p.comparedToIdentity.isSome &&
      p.comparisonBytes.isSome

/-- The checks of `decode_member_proof`. -/
def DuplicateMemberProof.check (p : DuplicateMemberProof) : Checked Unit := do
  checkPayload p.proofVersion p.comparisonMethod p.comparisonResult
  raiseIf (p.aliasesConsistent = false)
    (.inventory "duplicate proof alias topology is inconsistent")
  raiseIf (p.aliasesTruncated ≠ decide (p.aliases.length < p.aliasCount.getD 0))
    (.inventory "duplicate proof alias truncation is inconsistent")
  raiseIf (p.fingerprintSource = .notRecorded ∨ p.fingerprintAlgorithm = none)
    (.inventory "duplicate proof fingerprint evidence is invalid")
  raiseIf (p.receiptConsistent = false)
    (.inventory "duplicate proof comparison receipt is inconsistent")

/-! ## Rows -/

/-- The members of a group in their order. -/
def DuplicateGroup.members (g : DuplicateGroup) : List FileSnapshot := g.keep :: g.redundant

/-- `DuplicateGroup.reclaimable_bytes`. -/
def DuplicateGroup.reclaimableBytes (g : DuplicateGroup) : ℕ := g.size * g.redundant.length

/-- The row of a group. -/
def DuplicateGroup.plannedGroup (scanId : ℕ) (g : DuplicateGroup) : PlannedGroup where
  scanId
  size := g.size
  keepPath := g.keep.path
  redundantCount := g.redundant.length
  reclaimableBytes := g.reclaimableBytes
  fullFingerprint := g.fullFingerprint
  verificationMode := if g.proof.isSome then g.verificationMode else .legacyUnknown
  proof := g.proof

/-- The role of the member at a position. -/
def roleAt (position : ℕ) : MemberRole := if position = 0 then .keep else .redundant

/-- The rows of the members of a group. -/
def DuplicateGroup.plannedMembers (g : DuplicateGroup) : List PlannedMember :=
  g.members.mapIdx fun position snapshot => ⟨roleAt position, snapshot, g.memberProofs[position]?⟩

/-- The groups of a scan, by their identifiers. -/
def PlanTables.ofScan (plans : PlanTables) (scanId : ℕ) : List (ℕ × PlannedGroup) :=
  plans.groups.toList.filter fun r => r.2.scanId = scanId

/-- `lastrowid` of the next group. -/
def PlanTables.nextGroupId (plans : PlanTables) : ℕ := plans.groups.keys.foldl max 0 + 1

/-! ## Transactions -/

/-- `SELECT status FROM scans` finds a complete scan. -/
def Database.isComplete (db : Database) (scanId : ℕ) : Bool :=
  db.scans[scanId]?.any fun scan => scan.status = .complete

/-- `begin_duplicate_plan`. -/
def beginDuplicatePlan (db : Database) (scanId : ℕ) : Checked Database := do
  let scanId ← resolveScanId db scanId
  raiseIf (db.isComplete scanId = false)
    (.inventory "duplicate planning requires a complete inventory scan")
  let plans := db.plans
  pure { db with
    plans :=
      { groups := plans.groups.filter fun _ g => g.scanId ≠ scanId
        members := fun groupId =>
          if plans.groups[groupId]?.any fun g => g.scanId = scanId then [] else plans.members groupId
        summaries := plans.summaries.erase scanId
        heads := match plans.heads[scanId]? with
          | some head => plans.heads.insert scanId { head with status := .superseded }
          | none => plans.heads } }

/-- The physical membership of a group. -/
def DuplicateGroup.membersConsistent (g : DuplicateGroup) : Prop :=
  0 < g.size ∧ g.redundant ≠ [] ∧ (∀ member ∈ g.members, member.size = g.size) ∧
    (g.members.map FileSnapshot.identity).Nodup ∧ (g.members.map FileSnapshot.path).Nodup

instance (g : DuplicateGroup) : Decidable g.membersConsistent :=
  inferInstanceAs (Decidable (_ ∧ _))

/-- `expected_mode`. -/
def DedupPolicy.expectedMode (policy : DedupPolicy) : VerificationMode :=
  if policy = .exact then .fullHash else .fast

/-- The proof of the member at a position matches the keeper. -/
def proofMatches (keep : FileSnapshot) (mode : VerificationMode) (position : ℕ)
    (member : FileSnapshot) (proof : DuplicateMemberProof) : Prop :=
  proof.comparisonResult = (if position = 0 then .reference
      else if mode = .fullHash then .equal else .fingerprintMatch) ∧
    proof.aliases.contains member.path = true ∧
    (0 < position → proof.comparedToIdentity = some keep.identity) ∧
    (proof.comparisonResult = .equal → proof.comparisonBytes = some member.size)

instance (keep : FileSnapshot) (mode : VerificationMode) (position : ℕ) (member : FileSnapshot)
    (proof : DuplicateMemberProof) : Decidable (proofMatches keep mode position member proof) :=
  inferInstanceAs (Decidable (_ ∧ _))

/-- The checks of the proofs of a group. -/
def DuplicateGroup.checkProofs (g : DuplicateGroup) : Checked Unit :=
  match g.proof with
  | none => pure ()
  | some proof => do
    let mode := proof.requestedPolicy.expectedMode
    raiseIf (g.verificationMode ≠ mode ∨ g.memberProofs = [])
      (.inventory "duplicate group proof does not cover its members")
    raiseIf (¬ ∀ r ∈ (g.members.zip g.memberProofs).zipIdx, proofMatches g.keep mode r.2 r.1.1 r.1.2)
      (.inventory "duplicate member proof does not match the keeper")

/-- The checks of `store_duplicate_groups` on a group. -/
def DuplicateGroup.check (files : Files) (g : DuplicateGroup) : Checked Unit := do
  raiseIf (¬ g.membersConsistent) (.inventory "duplicate group physical membership is inconsistent")
  raiseIf (¬ ∀ member ∈ g.members, files[member.path]? = some member.row)
    (.inventory "duplicate group member is not an observed member of the inventory")
  raiseIf (g.memberProofs ≠ [] ∧ g.memberProofs.length ≠ 1 + g.redundant.length)
    (.inventory "duplicate member proof count is inconsistent")
  (g.proof.toList).forM DuplicateGroupProof.check
  g.checkProofs
  g.memberProofs.forM DuplicateMemberProof.check

/-- The two insertions of a group. -/
def PlanTables.insertGroup (plans : PlanTables) (scanId : ℕ) (g : DuplicateGroup) : PlanTables :=
  { plans with
    groups := plans.groups.insert plans.nextGroupId (g.plannedGroup scanId)
    members := Function.update plans.members plans.nextGroupId g.plannedMembers }

/-- The body of the loop of `store_duplicate_groups`. -/
def storeGroup (files : Files) (scanId : ℕ) (plans : PlanTables) (g : DuplicateGroup) :
    Checked PlanTables := do
  g.check files
  pure (plans.insertGroup scanId g)

/-- `store_duplicate_groups`. -/
def storeDuplicateGroups (db : Database) (scanId : ℕ) (groups : List DuplicateGroup) :
    Checked Database := do
  let scanId ← resolveScanId db scanId
  let plans ← groups.foldlM (storeGroup (db.files scanId) scanId) db.plans
  pure { db with plans }

/-- The group is one of those that the query `malformed` counts. -/
def malformed (files : Files) (g : PlannedGroup) (members : List PlannedMember) : Prop :=
  g.size = 0 ∨ g.redundantCount < 1 ∨ g.reclaimableBytes ≠ g.size * g.redundantCount ∨
    members.length ≠ g.redundantCount + 1 ∨
    (¬ ∃ m ∈ members.head?, m.role = .keep ∧ m.snapshot.path = g.keepPath ∧
      m.snapshot.size = g.size) ∨
    (∃ r ∈ members.zipIdx, r.1.snapshot.size ≠ g.size ∨ r.1.role ≠ roleAt r.2) ∨
    (members.map fun m => m.snapshot.identity).dedup.length ≠ g.redundantCount + 1 ∨
    ∃ m ∈ members, files[m.snapshot.path]? ≠ some m.snapshot.row

instance (files : Files) (g : PlannedGroup) (members : List PlannedMember) :
    Decidable (malformed files g members) := by
  unfold malformed
  infer_instance

/-- The policy, the coverage and the counts agree. -/
def PlanSummary.coverageConsistent (c : PlanSummary) : Prop :=
  ∃ exact ∈ c.exactComparisons, ∃ changed ∈ c.changedOrUnreadableFiles,
    c.coverage = (if changed ≠ 0 then .partialCoverage else .complete) ∧
    c.verificationMode = (if changed ≠ 0 then .partialCoverage
      else c.requestedPolicy.expectedMode) ∧
    (c.requestedPolicy = .fast → exact = 0) ∧
    (c.requestedPolicy = .exact → c.redundantFiles ≤ exact)

instance (c : PlanSummary) : Decidable c.coverageConsistent := by
  unfold PlanSummary.coverageConsistent
  infer_instance

/-- A member without its proof, or one of a group without its own. -/
def missingProof (policy : DedupPolicy) (g : PlannedGroup) (members : List PlannedMember) : Prop :=
  ∃ m ∈ members, g.proof = none ∨ m.proof = none ∨ g.verificationMode ≠ policy.expectedMode

instance (policy : DedupPolicy) (g : PlannedGroup) (members : List PlannedMember) :
    Decidable (missingProof policy g members) := by
  unfold missingProof
  infer_instance

/-- `_inventory_content_digest_for_plan`. -/
def inventoryContentDigestForPlan (db : Database) (scanId : ℕ) : Checked Bytes := do
  db.requireOperationalIdentity scanId
  match db.heads[scanId]? with
  | none => .error (.inventory "duplicate plan requires an inventory content identity")
  | some digest => pure digest

/-- `complete_duplicate_plan`; its arguments are the row that it writes. -/
def completeDuplicatePlan (db : Database) (scanId : ℕ) (c : PlanSummary) : Checked Database := do
  let scanId ← resolveScanId db scanId
  raiseIf (db.isComplete scanId = false)
    (.inventory "duplicate plan cannot publish without a complete inventory scan")
  let groups := db.plans.ofScan scanId
  raiseIf (groups.length ≠ c.groupCount ∨
      (groups.map fun r => r.2.redundantCount).sum ≠ c.redundantFiles ∨
      (groups.map fun r => r.2.reclaimableBytes).sum ≠ c.reclaimableBytes ∨
      (groups.map fun r => (db.plans.members r.1).length).sum ≠ c.groupCount + c.redundantFiles)
    (.inventory "duplicate plan cannot publish incomplete owner evidence")
  raiseIf (∃ r ∈ groups, malformed (db.files scanId) r.2 (db.plans.members r.1))
    (.inventory "duplicate plan cannot publish inconsistent group membership")
  raiseIf (c.requestedPolicy ≠ .legacyUnknown ∧ ¬ c.coverageConsistent)
    (.inventory "duplicate plan comparison coverage is inconsistent")
  raiseIf (c.requestedPolicy ≠ .legacyUnknown ∧
      ∃ r ∈ groups, missingProof c.requestedPolicy r.2 (db.plans.members r.1))
    (.inventory "duplicate plan cannot publish missing member proofs")
  let digest ← inventoryContentDigestForPlan db scanId
  pure { db with
    plans := { db.plans with
      summaries := db.plans.summaries.insert scanId c
      heads := db.plans.heads.insert scanId ⟨digest, .published⟩ } }

/-! ## Reading -/

/-- The condition of `iter_duplicate_groups` on the plan of a scan. -/
def Database.planVisible (db : Database) (scanId : ℕ) : Bool :=
  decide (scanId ∈ db.plans.summaries) &&
    db.plans.heads[scanId]?.all fun head =>
      head.status = .published && db.heads[scanId]? = some head.inventoryContentDigest

/-- A group from its rows; the rows of a group without members are not joined. -/
def PlannedGroup.read (g : PlannedGroup) : List PlannedMember → Option DuplicateGroup
  | [] => none
  | keep :: redundant => some
    { size := g.size
      keep := keep.snapshot
      redundant := redundant.map PlannedMember.snapshot
      fullFingerprint := g.fullFingerprint
      verificationMode := g.verificationMode
      proof := g.proof
      memberProofs := (keep :: redundant).map fun m => m.proof.getD {} }

/-- A path as the numbers by which SQLite compares it. -/
def Path.codes (p : Path) : List ℕ := p.bytes.map UInt8.toNat

/-- `ORDER BY g.reclaimable_bytes DESC,g.keep_path,g.group_id`. -/
def groupOrder (r : ℕ × PlannedGroup) : ℕᵒᵈ ×ₗ List ℕ ×ₗ ℕ :=
  toLex (OrderDual.toDual r.2.reclaimableBytes, toLex (r.2.keepPath.codes, r.1))

/-- `iter_duplicate_groups`. -/
def iterDuplicateGroups (db : Database) (scanId : ℕ) : Checked (List DuplicateGroup) := do
  let scanId ← resolveScanId db scanId
  let groups := (db.plans.ofScan scanId).insertionSort fun a b => groupOrder a ≤ groupOrder b
  pure (if db.planVisible scanId then groups.filterMap fun r => r.2.read (db.plans.members r.1)
    else [])

end Inventory
end Neocortex
