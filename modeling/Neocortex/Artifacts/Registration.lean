import Neocortex.Artifacts.Storage
import Neocortex.Python.Equality

/-!
# Registration and update

`runtime.artifact_registration`: the checks and defaults of `register` and `update`, the record that
each makes, and its publication.  Both run under the registry lock, so the directory changes between
their reads only by their own writes; the payloads on the disk stay as they are.

* `registerCandidate`, `register`: a new claim, or the replay of an identical one.
* `updateTarget`, `update`: the record behind the changed fields, and its publication.
* `validateDependencies`: `_validate_dependencies_locked`.

The clock is an argument of each call, as is the random part of the temporary name.
-/

namespace Neocortex
namespace Artifacts

open Python Durable

/-! ## Paths -/

/-- The segments of a normalized path, last first. -/
def pushSegment (stack : List Text) (segment : Text) : List Text :=
  if segment = [] ∨ segment = lit "." then stack
  else if segment = lit ".." then stack.tail
  else segment :: stack

/-- `os.path.abspath` of an absolute path. -/
def absPath (value : Text) : Text :=
  let slashes := if lit "//" <+: value ∧ ¬ lit "///" <+: value then lit "//" else lit "/"
  slashes ++ [ '/' ].intercalate (((value.splitOn '/').foldl pushSegment []).reverse)

/-- `_validate_absolute_path`. -/
def absolutePath (label : String) (value : Text) : Except Raised Text := do
  need (value.head? = some '/') (.value (label ++ " must be absolute"))
  need (!value.contains '\x00') (.value (label ++ " is not a valid path"))
  .ok (absPath value)

/-! ## Registration -/

variable (sha256 : Sha256)

/-- The arguments of `register`; an argument that is `None` is `none`. -/
structure RegisterArgs where
  artifactId : Text
  producer : Option Text
  path : Option Text
  owner : Option Text
  runId : Option RunId
  purpose : Option Text
  root : Option Text
  kind : ArtifactKind
  state : ArtifactState
  sourceRef : Json
  digest : Option Text
  dependencies : Option (List Text)
  retainUntilNs : Option ℤ
  ttlNs : Option ℤ
  ttl : Option ℤ
  disposable : Bool
  metadata : Option Members
  createdNs : Option ℤ
  updatedNs : Option ℤ
  pathIdentity : Option Identity
  identity : Option Identity
  rootIdentity : Option Identity
  lifecycleState : Option ArtifactState
  /-- `retention.get("retain_until_ns")` and `retention.get("ttl_ns")`. -/
  retention : Option (Option ℤ × Option ℤ)
  manifestDigest : Option Text

/-- `lifecycle_state` stands for `state`. -/
def RegisterArgs.initialState (args : RegisterArgs) : Except Raised ArtifactState :=
  match args.lifecycleState with
  | none => .ok args.state
  | some state =>
    if args.state ≠ .active ∧ args.state ≠ state then
      .error (.value "state and lifecycle_state disagree")
    else .ok state

/-- `ttl_ns`, from `ttl_ns`, `retention` and `ttl`. -/
def RegisterArgs.lifetime (args : RegisterArgs) : Except Raised (Option ℤ) :=
  let ttlNs := args.ttlNs.or (args.retention.bind Prod.snd)
  match args.ttl with
  | none => .ok ttlNs
  | some ttl =>
    if ttlNs.any (· ≠ ttl) then .error (.value "ttl and ttl_ns disagree") else .ok (some ttl)

/-- `_ensure_root`, for a root that is there. -/
def ensureRoot (registry : Registry) (disk : Disk) : Except Raised Unit :=
  match disk registry.root with
  | none => .error (.root "artifact registry root could not be inspected")
  | some m =>
    match privateDirectoryIssue m with
    | some issue => .error (.root ("artifact registry root failed safety check: " ++ issue))
    | none => .ok ()

/-- `_lstat`. -/
def lstat (disk : Disk) (label : String) (path : Text) : Except Raised Stat :=
  match disk path with
  | none => .error (.security (label ++ " could not be inspected"))
  | some m => .ok m

/-- The owner of a registry, for a call that writes. -/
def writingOwner (registry : Registry) (action : String) : Except Raised Text :=
  match registry.owner with
  | none => .error (.security ("federated artifact registry view is read-only for " ++ action))
  | some owner => .ok owner

/-- One turn of `_validate_dependencies_locked`. -/
def validateDependency (registry : Registry) (disk : Disk) (d : Directory) (artifactId : Text)
    (dependency : Text) : Except Raised Unit := do
  need (dependency ≠ artifactId) (.security "artifact cannot depend on itself")
  match loadRecord sha256 registry disk d (safeManifestName sha256 dependency) with
  | .error _ => .error (.security "dependency target is unavailable")
  | .ok target =>
    need target.verified (.security "dependency target is not verified")
    let claim ← retirementClaim target.metadata
    need (target.state ≠ .retired && !claim.any isPending)
      (.security "dependency target is no longer usable")

/-- `_validate_dependencies_locked`. -/
def validateDependencies (registry : Registry) (disk : Disk) (d : Directory) (artifactId : Text)
    (dependencies : List Text) : Except Raised Unit :=
  dependencies.forM (validateDependency sha256 registry disk d artifactId)

/-- The dependencies that pass are those that pass one by one. -/
theorem validateDependencies_eq_ok {registry : Registry} {disk : Disk} {d : Directory}
    {artifactId : Text} {dependencies : List Text} {u : Unit} :
    validateDependencies sha256 registry disk d artifactId dependencies = .ok u ↔
      ∀ dependency ∈ dependencies,
        validateDependency sha256 registry disk d artifactId dependency = .ok () := by
  rw [validateDependencies]
  induction dependencies with
  | nil => simp [pure, Except.pure]
  | cons dependency rest ih =>
    rw [List.forM, Checks.bind_eq_ok, List.forall_mem_cons, ← ih]
    constructor
    · rintro ⟨_, hfirst, hrest⟩
      exact ⟨hfirst, hrest⟩
    · rintro ⟨hfirst, hrest⟩
      exact ⟨(), hfirst, hrest⟩

/-- The identity that the caller supplied is the live one. -/
def matchIdentity (label : String) (supplied : Option Identity) (actual : Identity) (message : String) :
    Except Raised Unit :=
  match supplied with
  | none => .ok ()
  | some identity => do
    let expected ← boundedIdentity label identity
    need (expected = actual) (.security message)

/-- The record that `register` publishes. -/
def registerCandidate (registry : Registry) (disk : Disk) (d : Directory) (args : RegisterArgs)
    (now : ℤ) : Except Raised Record := do
  let artifactId ← boundedText "artifact_id" maxArtifactIdBytes args.artifactId
  let registryOwner ← writingOwner registry "registration"
  let owner ← boundedText "artifact owner" maxTextBytes (args.owner.getD registryOwner)
  need (owner = registryOwner) (.security "artifact owner does not match this registry")
  let producer ← boundedText "artifact producer" maxTextBytes (args.producer.getD defaultProducer)
  let purpose ← boundedText "artifact purpose" maxTextBytes (args.purpose.getD defaultPurpose)
  need args.path.isSome (.value "artifact path is required")
  let path ← absolutePath "artifact path" (args.path.getD [])
  let root ← absolutePath "artifact root" (args.root.getD registry.root)
  let state ← args.initialState
  let runId ← boundedRunId args.runId
  let ttlNs ← args.lifetime
  let retainUntilNs := args.retainUntilNs.or (args.retention.bind Prod.fst)
  need (nonNegative retainUntilNs)
    (.value "artifact retain_until_ns must be a non-negative integer or null")
  need (nonNegative ttlNs) (.value "artifact ttl_ns must be a non-negative integer or null")
  let dependencies ← normalizeDependencies (args.dependencies.getD [])
  validateDependencies sha256 registry disk d artifactId dependencies
  let digest ← (args.digest.or args.manifestDigest).mapM (boundedText "artifact digest" maxTextBytes)
  let sourceRef ← boundedJson "artifact source_ref" maxTextBytes args.sourceRef
  let metadata ← boundedMapping "artifact metadata" registry.maxMetadataBytes
    (args.metadata.getD [])
  ensureRoot registry disk
  let rootStat ← lstat disk "artifact root" root
  need (privateDirectoryIssue rootStat).isNone (.security "artifact root failed safety check")
  let pathStat ← lstat disk "artifact path" path
  need (privateArtifactIssue pathStat).isNone (.security "artifact path failed safety check")
  need (path ≠ registry.root) (.security "artifact path cannot be the registry root")
  matchIdentity "artifact path_identity" (args.pathIdentity.or args.identity) pathStat.identity
    "artifact path identity does not match the live path"
  matchIdentity "artifact root_identity" args.rootIdentity rootStat.identity
    "artifact root identity does not match the live root"
  let createdNs := args.createdNs.getD now
  need (0 ≤ createdNs) (.value "artifact created_ns must be a non-negative integer")
  let updatedNs := args.updatedNs.getD createdNs
  need (createdNs ≤ updatedNs) (.value "artifact updated_ns must be >= created_ns")
  .ok
    { artifactId, owner, producer, runId, purpose, path, root
      pathIdentity := some pathStat.identity
      rootIdentity := some rootStat.identity
      kind := args.kind
      state, createdNs, updatedNs, sourceRef, digest, dependencies
      retainUntilNs := retainUntilNs.or (ttlNs.map (createdNs + ·))
      ttlNs
      disposable := args.disposable
      metadata
      pathSizeBytes := pathStat.size
      pathMtimeNs := pathStat.mtimeNs }

/-- What the checks of a registration say of its candidate. -/
structure CandidateSpec (registry : Registry) (disk : Disk) (d : Directory) (args : RegisterArgs)
    (candidate : Record) : Prop where
  artifactId : candidate.artifactId = args.artifactId
  owner : registry.owner = some candidate.owner
  state : args.initialState = .ok candidate.state
  metadata : candidate.metadata = args.metadata.getD []
  dependencies : validateDependencies sha256 registry disk d candidate.artifactId
    candidate.dependencies = .ok ()
  path : ∃ m, disk candidate.path = some m ∧ candidate.pathIdentity = some m.identity

theorem registerCandidate_spec {registry : Registry} {disk : Disk} {d : Directory}
    {args : RegisterArgs} {now : ℤ} {candidate : Record}
    (h : registerCandidate sha256 registry disk d args now = .ok candidate) :
    CandidateSpec sha256 registry disk d args candidate := by
  simp only [registerCandidate, Checks.bind_eq_ok] at h
  obtain ⟨id, hid, registryOwner, hregistryOwner, owner, howner, _, hsame, _, _, _, _, _, _, path, _, _,
    _, state, hstate, _, _, _, _, _, _, _, _, dependencies, _, _, hvalid, _, _, _, _, metadata,
    hmetadata, _, _, _, _, _, _, pathStat, hpathStat, _, _, _, _, _, _, _, _, _, _, _, _,
    hcandidate⟩ := h
  obtain rfl := Except.ok.inj hcandidate
  refine ⟨boundedText_eq_ok hid, ?_, hstate, boundedMapping_eq_ok hmetadata, hvalid, pathStat, ?_, rfl⟩
  · rw [need_eq_ok, decide_eq_true_eq] at hsame
    rw [writingOwner] at hregistryOwner
    cases howner : registry.owner with
    | none =>
      rw [howner] at hregistryOwner
      cases hregistryOwner
    | some registered =>
      rw [howner] at hregistryOwner
      rw [hsame, Except.ok.inj hregistryOwner]
  · rw [lstat] at hpathStat
    cases hdisk : disk path with
    | none =>
      rw [hdisk] at hpathStat
      cases hpathStat
    | some m =>
      rw [hdisk] at hpathStat
      rw [Except.ok.inj hpathStat]

/-- `registration_equal`. -/
def registrationEqual (existing candidate : Record) : Bool :=
  existing.artifactId = candidate.artifactId && existing.owner = candidate.owner &&
    existing.producer = candidate.producer && existing.runId = candidate.runId &&
    existing.purpose = candidate.purpose && existing.path = candidate.path &&
    existing.root = candidate.root && existing.pathIdentity = candidate.pathIdentity &&
    existing.rootIdentity = candidate.rootIdentity && existing.kind = candidate.kind &&
    existing.state = candidate.state && existing.createdNs = candidate.createdNs &&
    existing.updatedNs = candidate.updatedNs && equal existing.sourceRef candidate.sourceRef &&
    existing.digest = candidate.digest && existing.dependencies = candidate.dependencies &&
    existing.retainUntilNs = candidate.retainUntilNs && existing.ttlNs = candidate.ttlNs &&
    existing.disposable = candidate.disposable &&
    equal (.obj existing.metadata) (.obj candidate.metadata) &&
    existing.pathSizeBytes = candidate.pathSizeBytes && existing.pathMtimeNs = candidate.pathMtimeNs

/-- The check of `_write_registration` and `_write_existing_registration` behind the publication. -/
def checkPublished (name : Text) : Program Directory Raised Unit := do
  let d ← Program.read
  .ofExcept (match d.stat name with
    | none => .error .os
    | some (node, links) =>
      need (manifestFileIssue node links).isNone
        (.manifest "published manifest failed safety check"))

/-- `_write_registration` with `exclusive`, and `_write_existing_registration` without it. -/
def writeRegistration (registry : Registry) (name token : Text) (payload : Payload)
    (exclusive : Bool) : Program Directory Raised Unit := do
  .ofExcept (need (payload.encodedSize ≤ registry.maxManifestBytes)
    (.value "artifact manifest exceeds the configured size limit"))
  writeJsonAtomic name token payload exclusive
  checkPublished name

/-- `_load_record` of the current directory. -/
def load (registry : Registry) (disk : Disk) (name : Text) : Program Directory Raised Observed := do
  let d ← Program.read
  .ofExcept (loadRecord sha256 registry disk d name)

/-- The body of `except FileExistsError` of `register`. -/
def replayed (registry : Registry) (disk : Disk) (d : Directory) (name : Text) (candidate : Record) :
    Except Raised Observed :=
  match loadRecord sha256 registry disk d name with
  | .error e =>
    .error (if e.isRegistryError then
      .conflict "artifact id is already bound to an invalid manifest" else e)
  | .ok existing =>
    if registrationEqual existing.toRecord candidate then .ok existing
    else .error (.conflict "artifact id is already registered with different fields")

/-- `except FileExistsError` of `register`; any other exception goes on. -/
def replayRegistration (registry : Registry) (disk : Disk) (name : Text) (candidate : Record)
    (e : Raised) : Program Directory Raised Observed := do
  if e ≠ .fileExists then .ofExcept (.error e)
  else do
    let d ← Program.read
    .ofExcept (replayed sha256 registry disk d name candidate)

/-- The publication of `register`. -/
def publishRegistration (registry : Registry) (disk : Disk) (name token : Text) (payload : Payload) :
    Program Directory Raised Observed := do
  writeRegistration registry name token payload true
  load sha256 registry disk name

/-- `register`. -/
def register (registry : Registry) (disk : Disk) (args : RegisterArgs) (now : ℤ) (token : Text) :
    Program Directory Raised Observed := do
  let d ← Program.read
  .ofExcept (ensureRoot registry disk)
  let candidate ← Program.ofExcept (registerCandidate sha256 registry disk d args now)
  let payload ← Program.ofExcept (payloadFromRecord sha256 candidate)
  Program.handle
    (publishRegistration sha256 registry disk (safeManifestName sha256 candidate.artifactId) token
      payload)
    (replayRegistration sha256 registry disk (safeManifestName sha256 candidate.artifactId) candidate)

/-! ## Update -/

/-- The arguments of `update`; an argument that is `_UNSET` is `none`. -/
structure UpdateArgs where
  producer : Option Text
  runId : Option (Option RunId)
  purpose : Option Text
  state : Option ArtifactState
  sourceRef : Option Json
  digest : Option (Option Text)
  dependencies : Option (List Text)
  retainUntilNs : Option (Option ℤ)
  ttlNs : Option (Option ℤ)
  ttl : Option (Option ℤ)
  disposable : Option Bool
  metadata : Option Members
  updatedNs : Option ℤ

/-- `updates["ttl_ns"]`. -/
def UpdateArgs.lifetime (args : UpdateArgs) : Except Raised (Option (Option ℤ)) :=
  match args.ttl with
  | none => .ok args.ttlNs
  | some ttl =>
    if args.ttlNs.any (· ≠ ttl) then .error (.value "ttl and ttl_ns disagree")
    else .ok (some ttl)

/-- The retention deadline behind an update. -/
def mergedDeadline (current : Record) (args : UpdateArgs) (ttlNs : Option (Option ℤ)) : Option ℤ :=
  let deadline := args.retainUntilNs.getD current.retainUntilNs
  if (ttlNs.getD current.ttlNs).isSome && args.retainUntilNs.isSome then deadline
  else
    match ttlNs with
    | none => deadline
    | some none => none
    | some (some ttl) => some (current.createdNs + ttl)

/-- The metadata of a record that becomes retired, or stays so: the claim is carried on and closed. -/
def retiredMetadata (registry : Registry) (current : Record) (metadata : Members) (now : ℤ) :
    Except Raised Members := do
  let carried ← match Json.get current.metadata retirementKey with
    | .null => .ok metadata
    | claim =>
      if metadata.any (·.1 = retirementKey) then .ok metadata
      else .ok (put metadata retirementKey claim)
  let carried ← boundedMapping "artifact metadata" registry.maxMetadataBytes carried
  let claim ← retirementClaim carried
  match claim with
  | none => .ok metadata
  | some claim =>
    if isPending claim then
      metadataWithRetirement registry { current with metadata := carried } confirmedPhase
        ((operationOf claim).getD [])
        [(lit "observed_path_exists", .bool false), (lit "confirmed_ns", .int now),
          (lit "receipt", .obj [(lit "effect", .str (lit "removed")),
            (lit "replayed", .bool false)])] now
    else .ok metadata

/-- A field of the record differs.  The dependencies of an update are a list, and those of a record
that was loaded a tuple: where the update names them, they always differ. -/
def recordChanged (current merged : Record) (listed : Bool) : Bool :=
  listed || !(current.producer = merged.producer && current.runId = merged.runId &&
    current.purpose = merged.purpose && current.state = merged.state &&
    equal current.sourceRef merged.sourceRef && current.digest = merged.digest &&
    current.dependencies = merged.dependencies && current.retainUntilNs = merged.retainUntilNs &&
    current.ttlNs = merged.ttlNs && current.disposable = merged.disposable &&
    equal (.obj current.metadata) (.obj merged.metadata))

/-- The final look at a payload that is completed. -/
def completedStat (disk : Disk) (current : Record) : Except Raised Stat :=
  match disk current.path with
  | none => .error (.security "artifact disappeared before completion")
  | some m => do
    need (privateArtifactIssue m).isNone (.security "artifact failed completion safety check")
    need (current.pathIdentity = some m.identity)
      (.security "artifact identity changed before completion")
    .ok m

/-- Size and time of the payload behind an update. -/
def mergedSize (disk : Disk) (current merged : Record) : Except Raised (ℤ × ℤ) :=
  if merged.state = .completed then do
    let m ← completedStat disk current
    .ok (m.size, m.mtimeNs)
  else .ok (current.pathSizeBytes, current.pathMtimeNs)

/-- The state is set to `retired` behind the removal of the payload. -/
def retiringMissingPath (current : Observed) (claim : Option Members) (args : UpdateArgs) : Bool :=
  args.state = some .retired && current.issue = some "artifact_missing" && claim.any isPending

/-- The fields of a record behind an update, without its times and observations. -/
def mergedRecord (registry : Registry) (disk : Disk) (d : Directory) (current : Observed)
    (args : UpdateArgs) (now : ℤ) : Except Raised Record := do
  let claim ← retirementClaim current.metadata
  need (current.verified || retiringMissingPath current claim args)
    (.security (current.reason.getD "artifact cannot be updated after drift"))
  let owner ← writingOwner registry "update"
  need (current.owner = owner) (.security "artifact owner does not match this registry")
  let ttlNs ← args.lifetime
  let producer ← boundedText "artifact producer" maxTextBytes
    (args.producer.getD current.producer)
  let runId ← boundedRunId (args.runId.getD current.runId)
  let purpose ← boundedText "artifact purpose" maxTextBytes (args.purpose.getD current.purpose)
  let sourceRef ← boundedJson "artifact source_ref" maxTextBytes
    (args.sourceRef.getD current.sourceRef)
  let digest ← (args.digest.getD current.digest).mapM (boundedText "artifact digest" maxTextBytes)
  let dependencies ← match args.dependencies with
    | none => .ok current.dependencies
    | some values => do
      let dependencies ← normalizeDependencies values
      validateDependencies sha256 registry disk d current.artifactId dependencies
      .ok dependencies
  need (nonNegative (args.retainUntilNs.getD current.retainUntilNs))
    (.value "artifact retain_until_ns must be a non-negative integer or null")
  need (nonNegative (ttlNs.getD current.ttlNs))
    (.value "artifact ttl_ns must be a non-negative integer or null")
  let metadata ← match args.metadata with
    | none => .ok current.metadata
    | some metadata => boundedMapping "artifact metadata" registry.maxMetadataBytes metadata
  let state := args.state.getD current.state
  let metadata ← if state = .retired then retiredMetadata registry current.toRecord metadata now
    else .ok metadata
  .ok { current.toRecord with
    producer, runId, purpose, state, sourceRef, digest, dependencies
    retainUntilNs := mergedDeadline current.toRecord args ttlNs
    ttlNs := ttlNs.getD current.ttlNs
    disposable := args.disposable.getD current.disposable
    metadata }

/-- The record that `update` publishes; `none` is the return without a change. -/
def updateTarget (registry : Registry) (disk : Disk) (d : Directory) (current : Observed)
    (args : UpdateArgs) (now : ℤ) : Except Raised (Option Record) := do
  let merged ← mergedRecord sha256 registry disk d current args now
  if !recordChanged current.toRecord merged args.dependencies.isSome then .ok none
  else do
    let timestamp := args.updatedNs.getD now
    need (current.createdNs ≤ timestamp) (.value "artifact updated_ns must be >= created_ns")
    let (size, mtime) ← mergedSize disk current.toRecord merged
    .ok (some { merged with
      updatedNs := max timestamp current.updatedNs
      pathSizeBytes := size
      pathMtimeNs := mtime })

/-- The publication of `update`. -/
def publishUpdate (registry : Registry) (disk : Disk) (name token : Text) (record : Record) :
    Program Directory Raised Observed := do
  let payload ← Program.ofExcept (payloadFromRecord sha256 record)
  .ofExcept (need (payload.encodedSize ≤ registry.maxManifestBytes)
    (.value "artifact manifest exceeds the configured size limit"))
  writeJsonAtomic name token payload false
  load sha256 registry disk name

/-- `update`.  The second read of the manifest, against a change in between, finds the first one. -/
def update (registry : Registry) (disk : Disk) (artifactId : Text) (args : UpdateArgs) (now : ℤ)
    (token : Text) : Program Directory Raised Observed := do
  let artifactId ← Program.ofExcept (boundedText "artifact_id" maxArtifactIdBytes artifactId)
  .ofExcept (ensureRoot registry disk)
  let d ← Program.read
  let current ← Program.ofExcept
    (loadRecord sha256 registry disk d (safeManifestName sha256 artifactId))
  let target ← Program.ofExcept (updateTarget sha256 registry disk d current args now)
  match target with
  | none => pure current
  | some record =>
    publishUpdate sha256 registry disk (safeManifestName sha256 artifactId) token record

end Artifacts
end Neocortex
