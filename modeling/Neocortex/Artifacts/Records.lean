import Neocortex.Python.Render
import Neocortex.Library.Checks

/-!
# Artifact records

`runtime.artifact_models` and the pure part of `runtime.artifact_registry`: a claim on a local path,
the checks of its fields, what a fresh look at the disk says of it, the retirement claim inside its
metadata, and what all of that makes of it.

* `Record`: the durable fields of a manifest; `Observed`: a record with its latest observation.
* `revalidateRecord`: `revalidate_record`.
* `retirementClaim`, `metadataWithRetirement`: the reserved key of the metadata.
* `classify`, `liveDependents`, `dependencyObservationComplete`: what may be retired.

The look into a payload tree and the payload policy of a scratch workspace are answers of the disk.
Sizes that only a plan sums up are left out.
-/

namespace Neocortex
namespace Artifacts

open Python

/-! ## Vocabulary -/

inductive ArtifactKind where
  | canonical
  | operational
  | rebuildable
  | temporary
  | cache
  | external
  deriving DecidableEq

inductive ArtifactState where
  | active
  | completed
  | failed
  | recoveryRequired
  | retired
  deriving DecidableEq

/-- `_LIVE_DEPENDENT_STATES`. -/
def ArtifactState.live : ArtifactState → Bool
  | .active => true
  | .failed => true
  | .recoveryRequired => true
  | .completed => false
  | .retired => false

/-- `_DISPOSABLE_KINDS`. -/
def ArtifactKind.isDisposable : ArtifactKind → Bool
  | .rebuildable => true
  | .temporary => true
  | .cache => true
  | _ => false

/-- What the registry raises. -/
inductive Raised where
  /-- `ArtifactSecurityError`. -/
  | security (message : String)
  /-- `ArtifactRootError`. -/
  | root (message : String)
  /-- `ArtifactManifestError`. -/
  | manifest (message : String)
  /-- `ArtifactConflictError`. -/
  | conflict (message : String)
  /-- `ValueError`. -/
  | value (message : String)
  /-- `OSError`. -/
  | os
  /-- `FileExistsError`. -/
  | fileExists
  deriving DecidableEq

/-- `except ArtifactRegistryError`. -/
def Raised.isRegistryError : Raised → Bool
  | .security _ => true
  | .root _ => true
  | .manifest _ => true
  | .conflict _ => true
  | _ => false

/-- `raise error` if the check fails. -/
def need (ok : Bool) (error : Raised) : Except Raised Unit := if ok then .ok () else .error error

@[simp] theorem need_eq_ok {ok : Bool} {error : Raised} {u : Unit} :
    need ok error = .ok u ↔ ok = true := by
  cases ok <;> simp [need]

def maxManifestBytes : ℕ := 512 * 1024
def maxMetadataBytes : ℕ := 64 * 1024
def maxTextBytes : ℕ := 8 * 1024
def maxArtifactIdBytes : ℕ := 256
def maxRunIdBytes : ℕ := 256
def maxDependencies : ℕ := 256
def maxDependencyBytes : ℕ := 256
def maxRetentionReceiptBytes : ℕ := 256 * 1024

def defaultProducer : Text := lit "neocortex"
def defaultPurpose : Text := lit "runtime-artifact"

/-! ## Bounded values -/

/-- `_bounded_text`. -/
def boundedText (label : String) (limit : ℕ) (value : Text) : Except Raised Text := do
  need (strip value ≠ []) (.value (label ++ " must not be blank"))
  need (utf8Len value ≤ limit) (.value (label ++ " exceeds its UTF-8 bytes"))
  need (!value.contains '\x00') (.value (label ++ " contains NUL"))
  .ok value

theorem boundedText_eq_ok {label : String} {limit : ℕ} {value t : Text}
    (h : boundedText label limit value = .ok t) : t = value := by
  simp only [boundedText, Checks.bind_eq_ok] at h
  obtain ⟨_, _, _, _, _, _, h⟩ := h
  exact (Except.ok.inj h).symm

/-- `_bounded_json`: the value whose canonical form is within the limit. -/
def boundedJson (label : String) (limit : ℕ) (value : Json) : Except Raised Json :=
  match dumpsUnicode value with
  | none => .error (.value (label ++ " must contain only finite JSON values"))
  | some encoded =>
    if utf8Len encoded ≤ limit then .ok value
    else .error (.value (label ++ " exceeds its UTF-8 bytes"))

/-- The members of a JSON object. -/
abbrev Members := List (Text × Json)

/-- `_bounded_mapping`. -/
def boundedMapping (label : String) (limit : ℕ) (value : Members) : Except Raised Members := do
  let _ ← boundedJson label limit (.obj value)
  need (value.all fun member => member.1 ≠ []) (.value (label ++ " keys must be non-empty strings"))
  .ok value

theorem boundedMapping_eq_ok {label : String} {limit : ℕ} {value m : Members}
    (h : boundedMapping label limit value = .ok m) : m = value := by
  simp only [boundedMapping, Checks.bind_eq_ok] at h
  obtain ⟨_, _, _, _, h⟩ := h
  exact (Except.ok.inj h).symm

/-- `int | str | None` of `run_id`. -/
inductive RunId where
  | number (n : ℤ)
  | text (t : Text)
  deriving DecidableEq

/-- `_bounded_run_id`. -/
def boundedRunId : Option RunId → Except Raised (Option RunId)
  | none => .ok none
  | some (.number n) =>
    if n < 1 then .error (.value "artifact run_id must be a positive integer or string")
    else .ok (some (.number n))
  | some (.text t) => (boundedText "artifact run_id" maxRunIdBytes t).map fun t => some (.text t)

/-- `(st_dev, st_ino, birthtime)`. -/
abbrev Identity := ℤ × ℤ × ℤ

/-- `_bounded_identity`. -/
def boundedIdentity (label : String) (value : Identity) : Except Raised Identity :=
  if value.1 < 0 ∨ value.2.1 < 0 ∨ value.2.2 < -1 then
    .error (.value (label ++ " contains an invalid physical identity"))
  else .ok value

/-! ## Records -/

/-- The durable fields of an artifact. -/
structure Record where
  artifactId : Text
  owner : Text
  producer : Text
  runId : Option RunId
  purpose : Text
  path : Text
  root : Text
  pathIdentity : Option Identity
  rootIdentity : Option Identity
  kind : ArtifactKind
  state : ArtifactState
  createdNs : ℤ
  updatedNs : ℤ
  sourceRef : Json
  digest : Option Text
  dependencies : List Text
  retainUntilNs : Option ℤ
  ttlNs : Option ℤ
  disposable : Bool
  metadata : Members
  pathSizeBytes : ℤ
  pathMtimeNs : ℤ

/-- `effective_retain_until_ns`. -/
def Record.effectiveRetainUntilNs (record : Record) : Option ℤ :=
  match record.retainUntilNs with
  | some deadline => some deadline
  | none => record.ttlNs.map fun ttl => record.createdNs + ttl

/-- A record with its latest observation; `valid` and `issue` always agree. -/
structure Observed extends Record where
  issue : Option String
  reason : Option String

/-- `valid and issue is None`. -/
def Observed.verified (record : Observed) : Bool := record.issue.isNone

/-! ## The disk -/

inductive FileType where
  | symlink
  | regular
  | directory
  | other
  deriving DecidableEq

/-- What `lstat` returns, and what a look into the payload at that path finds. -/
structure Stat where
  type : FileType
  /-- `st_uid == os.geteuid()`. -/
  owned : Bool
  /-- `not st_mode & 0o077`. -/
  unshared : Bool
  links : ℕ
  identity : Identity
  size : ℕ
  mtimeNs : ℕ
  /-- What `verified_workspace_payload_profile` raises for a record with a payload policy. -/
  policyIssue : Option String
  /-- `observe_claimed_tree(...).issue`, in the registry's words. -/
  treeIssue : Option String

/-- `lstat` of each path; `none` is `FileNotFoundError`. -/
abbrev Disk := Text → Option Stat

/-- `_private_directory_issue`. -/
def privateDirectoryIssue (m : Stat) : Option String :=
  if m.type ≠ .directory then some "root_type_drift"
  else if !m.owned then some "root_owner_drift"
  else if !m.unshared then some "root_permission_drift"
  else none

/-- `_private_artifact_issue`. -/
def privateArtifactIssue (m : Stat) : Option String :=
  if m.type = .symlink then some "artifact_symlink"
  else if m.type = .other then some "artifact_type_drift"
  else if !m.owned then some "artifact_owner_drift"
  else if !m.unshared then some "artifact_permission_drift"
  else if m.type = .regular ∧ m.links ≠ 1 then some "artifact_hardlink"
  else none

/-- A registry: its root, its owner and its limits; `owner = none` is a federated view. -/
structure Registry where
  root : Text
  owner : Option Text
  maxRecords : ℕ
  maxBytes : ℕ
  maxManifestBytes : ℕ
  maxMetadataBytes : ℕ

/-- What a look into the payload finds. -/
def contentIssue (registry : Registry) (m : Stat) : Option (String × String) :=
  if m.type = .directory then m.treeIssue.map fun issue => (issue, issue)
  else if registry.maxBytes < m.size then some ("size_truncated", "size_truncated")
  else none

/-- The payload policy of a scratch workspace; the answer is the reason of a refusal. -/
def policyIssue (record : Record) (m : Stat) : Option String :=
  match Json.get record.metadata (lit "scratch_payload_policy") with
  | .null => none
  | .obj _ =>
    if lit "scratch:" <+: record.artifactId then m.policyIssue
    else some "scratch payload policy has no owner binding"
  | _ => some "scratch payload policy has no owner binding"

/-- The issue of a payload that is there, with the reason that is kept for it. -/
def payloadIssue (registry : Registry) (record : Record) (m : Stat) : Option (String × String) :=
  match privateArtifactIssue m with
  | some issue => some (issue, issue)
  | none =>
    if record.pathIdentity ≠ some m.identity then
      some ("artifact_identity_drift", "artifact_identity_drift")
    else if record.state = .completed ∧ m.type = .regular ∧
        ((m.size : ℤ) ≠ record.pathSizeBytes ∨ (m.mtimeNs : ℤ) ≠ record.pathMtimeNs) then
      some ("artifact_identity_drift", "artifact_identity_drift")
    else
      match policyIssue record m with
      | some reason => some ("payload_policy_unverified", reason)
      | none => contentIssue registry m

/-- The issue of a record, with the reason that is kept for it. -/
def recordIssue (registry : Registry) (disk : Disk) (record : Record) : Option (String × String) :=
  match disk registry.root with
  | none => some ("root_identity_drift", "root_identity_drift")
  | some registryRoot =>
    match privateDirectoryIssue registryRoot with
    | some issue => some (issue, issue)
    | none =>
      match disk record.root with
      | none => some ("artifact_root_drift", "artifact_root_drift")
      | some artifactRoot =>
        match privateDirectoryIssue artifactRoot with
        | some issue => some ("artifact_root_drift", issue)
        | none =>
          if record.rootIdentity ≠ some artifactRoot.identity then
            some ("artifact_root_drift", "artifact_root_drift")
          else
            match disk record.path with
            | none =>
              -- a tombstone: the payload was removed by its owner
              if record.state = .retired then none
              else some ("artifact_missing", "artifact_missing")
            | some m => payloadIssue registry record m

/-- `revalidate_record`. -/
def revalidateRecord (registry : Registry) (disk : Disk) (record : Record) : Observed :=
  { record with
    issue := (recordIssue registry disk record).map Prod.fst
    reason := (recordIssue registry disk record).map Prod.snd }

/-! ## The retirement claim -/

/-- `_RETIREMENT_KEY`. -/
def retirementKey : Text := lit "neocortex_retirement"

/-- `_RETIREMENT_PENDING_PHASES`. -/
def pendingPhases : List Text :=
  [lit "prepared", lit "applying", lit "applied_unverified", lit "recovery_required"]

/-- `_RETIREMENT_CONFIRMED_PHASE`. -/
def confirmedPhase : Text := lit "confirmed"

/-- `_retirement_claim`. -/
def retirementClaim (metadata : Members) : Except Raised (Option Members) :=
  match Json.get metadata retirementKey with
  | .null => .ok none
  | .obj claim =>
    match Json.get claim (lit "phase"), Json.get claim (lit "operation_id") with
    | .str phase, .str operation =>
      if phase ∉ confirmedPhase :: pendingPhases then
        .error (.security "retirement claim has an unsupported phase")
      else if operation = [] then .error (.security "retirement claim has no operation id")
      else .ok (some claim)
    | .str phase, _ =>
      if phase ∉ confirmedPhase :: pendingPhases then
        .error (.security "retirement claim has an unsupported phase")
      else .error (.security "retirement claim has no operation id")
    | _, _ => .error (.security "retirement claim has an unsupported phase")
  | _ => .error (.security "retirement claim is not an object")

/-- `claim.get("phase")`. -/
def phaseOf (claim : Members) : Option Text := (Json.get claim (lit "phase")).asStr?

/-- `claim["operation_id"]`. -/
def operationOf (claim : Members) : Option Text := (Json.get claim (lit "operation_id")).asStr?

/-- `claim.get("phase") in _RETIREMENT_PENDING_PHASES`. -/
def isPending (claim : Members) : Bool := (phaseOf claim).any (· ∈ pendingPhases)

/-- `members[key] = value`. -/
def put (members : Members) (key : Text) (value : Json) : Members :=
  members.filter (fun member => member.1 ≠ key) ++ [(key, value)]

/-- `members.pop(key, None)`. -/
def pop (members : Members) (key : Text) : Members := members.filter fun member => member.1 ≠ key

/-- `members.update(observations)`. -/
def putAll (members observations : Members) : Members :=
  observations.foldl (fun members member => put members member.1 member.2) members

/-- A physical identity as a list. -/
def identityJson : Option Identity → Json
  | none => .arr []
  | some identity => .arr [.int identity.1, .int identity.2.1, .int identity.2.2]

/-- The claim that `_metadata_with_retirement` starts from. -/
def retirementBase (record : Record) (operation : Text) (now : ℤ) : Except Raised Members :=
  match Json.get record.metadata retirementKey with
  | .null => .ok
      [(lit "operation_id", .str operation),
        (lit "expected_path_identity", identityJson record.pathIdentity),
        (lit "expected_size_bytes", .int record.pathSizeBytes),
        (lit "expected_mtime_ns", .int record.pathMtimeNs),
        (lit "prepared_ns", .int now)]
  | .obj existing =>
    if operationOf existing = some operation then .ok existing
    else .error (.security "a different retirement operation is pending")
  | _ => .error (.security "retirement claim is not an object")

/-- `_metadata_with_retirement`. -/
def metadataWithRetirement (registry : Registry) (record : Record) (phase operation : Text)
    (observations : Members) (now : ℤ) : Except Raised Members := do
  let claim ← retirementBase record operation now
  let claim := putAll (put claim (lit "phase") (.str phase)) observations
  boundedMapping "artifact metadata" registry.maxMetadataBytes
    (put record.metadata retirementKey (.obj claim))

/-! ## What may be retired -/

inductive Category where
  | eligible
  | «protected»
  | blocked
  | unknown
  deriving DecidableEq

/-- `_BLOCKING_ISSUES`. -/
def blockingIssues : List String :=
  ["artifact_missing", "artifact_identity_drift", "artifact_root_drift", "artifact_owner_drift",
    "artifact_permission_drift", "artifact_symlink", "artifact_hardlink", "artifact_type_drift",
    "root_identity_drift", "root_owner_drift", "root_permission_drift", "root_type_drift",
    "size_truncated"]

/-- `_classify` of a verified record. -/
def classifyVerified (record : Observed) (now : ℤ) : Category × String :=
  match retirementClaim record.metadata with
  | .error _ => (.blocked, "retirement_claim_invalid")
  | .ok claim =>
    if claim.any isPending then (.blocked, "retirement_recovery_required")
    else if now < record.updatedNs then (.protected, "future_timestamp")
    else
      match record.state with
      | .active => (.protected, "state_active")
      | .failed => (.protected, "state_failed")
      | .recoveryRequired => (.protected, "state_recovery_required")
      | .retired => (.protected, "state_retired")
      | .completed =>
        if !record.disposable then (.protected, "not_disposable")
        else if !record.kind.isDisposable then (.protected, "kind_protected")
        else
          match record.effectiveRetainUntilNs with
          | some deadline =>
            if now < deadline then (.protected, "retention_active")
            else (.eligible, "retention_expired")
          | none => (.eligible, "disposable_completed")

/-- `_classify`. -/
def classify (record : Observed) (now : ℤ) : Category × String :=
  match record.issue with
  | some issue => if issue ∈ blockingIssues then (.blocked, issue) else (.unknown, issue)
  | none => classifyVerified record now

/-- `_classify_for_owner`. -/
def classifyForOwner (registry : Registry) (record : Observed) (now : ℤ) : Category × String :=
  match record.issue with
  | some issue => if issue ∈ blockingIssues then (.blocked, issue) else (.unknown, issue)
  | none =>
    if registry.owner.any (· ≠ record.owner) then (.blocked, "owner_mismatch")
    else classify record now

/-- `_live_dependents`. -/
def liveDependents (target : Record) (records : List Observed) : List Text :=
  (records.filter fun record => record.artifactId ≠ target.artifactId ∧
    target.artifactId ∈ record.dependencies ∧
    (record.issue.isSome ∨ record.state.live)).map fun record => record.artifactId

/-- `claim.get("observed_path_exists") is False`. -/
def observedGone (claim : Members) : Bool :=
  match Json.get claim (lit "observed_path_exists") with
  | .bool b => !b
  | _ => false

/-- A verified claim on the path of `record`, for another payload. -/
def supersedes (record other : Observed) : Bool :=
  other.artifactId ≠ record.artifactId && other.verified && other.state ≠ .retired &&
    other.path = record.path && other.pathIdentity.isSome &&
    other.pathIdentity ≠ record.pathIdentity

/-- `retired_claim_is_historical`. -/
def retiredClaimIsHistorical (record : Observed) (records : List Observed) : Bool :=
  record.state = .retired && record.issue = some "artifact_identity_drift" &&
    match retirementClaim record.metadata with
    | .ok (some claim) =>
      phaseOf claim = some confirmedPhase && observedGone claim &&
        render (Json.get claim (lit "expected_path_identity")) =
          render (identityJson record.pathIdentity) &&
        records.any (supersedes record)
    | _ => false

/-- `_dependency_observation_complete`. -/
def dependencyObservationComplete (records : List Observed) (unmanaged : List Text)
    (truncated : Bool) : Bool :=
  !truncated && unmanaged.isEmpty &&
    records.all fun record => record.issue.isNone || retiredClaimIsHistorical record records

end Artifacts
end Neocortex
