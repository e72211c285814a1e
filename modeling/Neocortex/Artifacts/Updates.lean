import Neocortex.Artifacts.Atomic

/-!
# What an update stores

The decision of `update`, taken apart: the checks and the fields that they end with, and the record
that an accepted call leaves behind.

* `carriedMetadata`, `closedClaim`: what becomes of a retirement claim.
* `Merging`: the checks of an update, and the fields that they end with; `mergedRecord_eq_ok`.
* `Stored`: the record behind an accepted update; `update_stored`.
-/

namespace Neocortex
namespace Artifacts

open Python Durable

variable {sha256 : Sha256} {registry : Registry} {disk : Disk} {d : Directory}

/-! ## Checked values -/

theorem boundedJson_eq_ok {label : String} {limit : ℕ} {value v : Json}
    (h : boundedJson label limit value = .ok v) : v = value := by
  rw [boundedJson] at h
  cases hdumps : dumpsUnicode value with
  | none =>
    simp only [hdumps] at h
    cases h
  | some encoded =>
    simp only [hdumps] at h
    split_ifs at h
    exact (Except.ok.inj h).symm

theorem boundedRunId_eq_ok {value runId : Option RunId} (h : boundedRunId value = .ok runId) :
    runId = value := by
  cases value with
  | none => exact (Except.ok.inj h).symm
  | some value =>
    cases value with
    | number n =>
      rw [boundedRunId] at h
      split_ifs at h
      exact (Except.ok.inj h).symm
    | text t =>
      rw [boundedRunId] at h
      cases ht : boundedText "artifact run_id" maxRunIdBytes t with
      | error e =>
        rw [ht] at h
        cases h
      | ok t' =>
        rw [ht] at h
        rw [← Except.ok.inj h, boundedText_eq_ok ht]

theorem boundedDigest_eq_ok {value digest : Option Text}
    (h : value.mapM (boundedText "artifact digest" maxTextBytes) = .ok digest) : digest = value := by
  cases value with
  | none => exact (Except.ok.inj h).symm
  | some t =>
    rw [Option.mapM_some, Checks.map_eq_ok] at h
    obtain ⟨t', ht, rfl⟩ := h
    rw [boundedText_eq_ok ht]

/-- What a value that was given leaves is given again. -/
theorem getD_getD {α : Type} (given : Option α) (current : α) :
    given.getD (given.getD current) = given.getD current := by
  cases given <;> rfl

/-! ## Members -/

theorem Members.get_put (ms : Members) (key : Text) (value : Json) :
    Json.get (put ms key value) key = value := by
  simp [put, Json.get]

theorem Members.get_put_of_ne (ms : Members) {key k : Text} (value : Json) (h : k ≠ key) :
    Json.get (put ms key value) k = Json.get ms k := by
  have hfilter : (put ms key value).filter (fun member => member.1 = k) =
      ms.filter fun member => member.1 = k := by
    rw [put, List.filter_append, List.filter_filter]
    have hnone : [(key, value)].filter (fun member => member.1 = k) = [] := by
      simp [h.symm]
    rw [hnone, List.append_nil]
    refine List.filter_congr fun member _ => ?_
    by_cases hk : member.1 = k <;> simp [hk, h]
  rw [Json.get_eq_getLast?, hfilter, ← Json.get_eq_getLast?]

theorem Members.any_of_get {ms : Members} {key : Text} (h : Json.get ms key ≠ .null) :
    ms.any (·.1 = key) = true := by
  by_contra hany
  refine h ?_
  have hfilter : (ms.filter fun member => member.1 = key) = [] := by
    rw [List.filter_eq_nil_iff]
    intro member hmember hkey
    exact hany (List.any_eq_true.mpr ⟨member, hmember, hkey⟩)
  rw [Json.get_eq_getLast?, hfilter]
  rfl

/-! ## The retirement claim -/

section Claims

variable {a b metadata claim : Members}

theorem retirementClaim_of_null (h : Json.get metadata retirementKey = .null) :
    retirementClaim metadata = .ok none := by
  rw [retirementClaim, h]

/-- The fields of a claim that is accepted. -/
structure IsClaim (metadata claim : Members) (phase operation : Text) : Prop where
  get_eq : Json.get metadata retirementKey = .obj claim
  phase_eq : Json.get claim (lit "phase") = .str phase
  operation_eq : Json.get claim (lit "operation_id") = .str operation
  known : phase ∈ confirmedPhase :: pendingPhases
  operation_ne : operation ≠ []

theorem retirementClaim_eq_some :
    retirementClaim metadata = .ok (some claim) ↔ ∃ phase operation, IsClaim metadata claim phase operation := by
  constructor
  · intro h
    rw [retirementClaim] at h
    split at h
    · cases h
    · next existing hget =>
      split at h
      · next phase operation hphase hoperation =>
        split_ifs at h with hknown hne
        obtain rfl := Option.some.inj (Except.ok.inj h)
        exact ⟨phase, operation, hget, hphase, hoperation, hknown, hne⟩
      · split_ifs at h
      · cases h
    · cases h
  · rintro ⟨phase, operation, h⟩
    simp only [retirementClaim, h.get_eq, h.phase_eq, h.operation_eq]
    rw [if_neg (not_not.mpr h.known), if_neg h.operation_ne]

theorem get_of_retirementClaim_none (h : retirementClaim metadata = .ok none) :
    Json.get metadata retirementKey = .null := by
  rw [retirementClaim] at h
  split at h
  · assumption
  · split at h
    · split_ifs at h
      cases h
    · split_ifs at h
    · cases h
  · cases h

theorem IsClaim.isPending_eq {phase operation : Text} (h : IsClaim metadata claim phase operation) :
    isPending claim = decide (phase ∈ pendingPhases) := by
  simp [isPending, phaseOf, h.phase_eq, Json.asStr?]

theorem IsClaim.operationOf_eq {phase operation : Text} (h : IsClaim metadata claim phase operation) :
    operationOf claim = some operation := by
  simp [operationOf, h.operation_eq, Json.asStr?]

/-- Equal metadata hold claims that are equally accepted, and equally pending. -/
theorem retirementClaim_congr (h : equal (.obj a) (.obj b) = true) {found : Option Members}
    (hclaim : retirementClaim a = .ok found) :
    ∃ found', retirementClaim b = .ok found' ∧ found'.any isPending = found.any isPending := by
  have hget := equal_get h retirementKey
  cases found with
  | none =>
    rw [get_of_retirementClaim_none hclaim] at hget
    exact ⟨none, retirementClaim_of_null (eq_null_of_equal hget), rfl⟩
  | some claim =>
    obtain ⟨phase, operation, hc⟩ := retirementClaim_eq_some.mp hclaim
    rw [hc.get_eq] at hget
    obtain ⟨claim', hclaim'⟩ := eq_obj_of_equal hget
    rw [hclaim'] at hget
    have hphase := equal_get hget (lit "phase")
    have hoperation := equal_get hget (lit "operation_id")
    rw [hc.phase_eq] at hphase
    rw [hc.operation_eq] at hoperation
    have hc' : IsClaim b claim' phase operation :=
      ⟨hclaim', eq_str_of_equal hphase, eq_str_of_equal hoperation, hc.known, hc.operation_ne⟩
    refine ⟨some claim', retirementClaim_eq_some.mpr ⟨phase, operation, hc'⟩, ?_⟩
    rw [Option.any_some, Option.any_some, hc.isPending_eq, hc'.isPending_eq]

/-- The claim behind the removal of its payload. -/
def closedClaim (claim : Members) (now : ℤ) : Members :=
  putAll (put claim (lit "phase") (.str confirmedPhase))
    [(lit "observed_path_exists", .bool false), (lit "confirmed_ns", .int now),
      (lit "receipt", .obj [(lit "effect", .str (lit "removed")), (lit "replayed", .bool false)])]

theorem closedClaim_eq (claim : Members) (now : ℤ) : closedClaim claim now =
    put (put (put (put claim (lit "phase") (.str confirmedPhase))
      (lit "observed_path_exists") (.bool false)) (lit "confirmed_ns") (.int now))
      (lit "receipt")
      (.obj [(lit "effect", .str (lit "removed")), (lit "replayed", .bool false)]) := rfl

theorem get_closedClaim_confirmed (claim : Members) (now : ℤ) :
    Json.get (closedClaim claim now) (lit "confirmed_ns") = .int now := by
  rw [closedClaim_eq, Members.get_put_of_ne _ _ (by decide), Members.get_put]

/-- A closed claim is accepted, and it is not pending. -/
theorem IsClaim.closed {phase operation : Text} (h : IsClaim metadata claim phase operation) (now : ℤ) :
    IsClaim (put metadata retirementKey (.obj (closedClaim claim now))) (closedClaim claim now)
      confirmedPhase operation where
  get_eq := Members.get_put _ _ _
  phase_eq := by
    rw [closedClaim_eq, Members.get_put_of_ne _ _ (by decide), Members.get_put_of_ne _ _ (by decide),
      Members.get_put_of_ne _ _ (by decide), Members.get_put]
  operation_eq := by
    rw [closedClaim_eq, Members.get_put_of_ne _ _ (by decide), Members.get_put_of_ne _ _ (by decide),
      Members.get_put_of_ne _ _ (by decide), Members.get_put_of_ne _ _ (by decide), h.operation_eq]
  known := List.mem_cons_self
  operation_ne := h.operation_ne

theorem isPending_closedClaim {phase operation : Text} (h : IsClaim metadata claim phase operation)
    (now : ℤ) : isPending (closedClaim claim now) = false := by
  rw [(h.closed now).isPending_eq]
  decide

end Claims

/-! ## The metadata of a retired record -/

/-- The metadata that an update judges: the claim of the record is carried on into metadata without
one. -/
def carriedMetadata (current metadata : Members) : Members :=
  match Json.get current retirementKey with
  | .null => metadata
  | claim =>
    if metadata.any (·.1 = retirementKey) then metadata else put metadata retirementKey claim

theorem carriedMetadata_of_null {current : Members} (metadata : Members)
    (h : Json.get current retirementKey = .null) : carriedMetadata current metadata = metadata := by
  rw [carriedMetadata, h]

theorem carriedMetadata_of_any (current : Members) {metadata : Members}
    (h : metadata.any (·.1 = retirementKey) = true) : carriedMetadata current metadata = metadata := by
  rw [carriedMetadata]
  split
  · rfl
  · rw [if_pos h]

theorem carriedMetadata_self (metadata : Members) : carriedMetadata metadata metadata = metadata := by
  by_cases h : Json.get metadata retirementKey = .null
  · exact carriedMetadata_of_null metadata h
  · exact carriedMetadata_of_any metadata (Members.any_of_get h)

theorem carriedMetadata_of_not_any {current metadata claim : Members}
    (hcurrent : Json.get current retirementKey = .obj claim)
    (h : metadata.any (·.1 = retirementKey) = false) :
    carriedMetadata current metadata = put metadata retirementKey (.obj claim) := by
  rw [carriedMetadata, hcurrent]
  simp [h]

/-- Metadata without the key has no claim. -/
theorem get_of_not_any {metadata : Members} (h : metadata.any (·.1 = retirementKey) = false) :
    Json.get metadata retirementKey = .null := by
  by_contra hget
  rw [Members.any_of_get hget] at h
  cases h

section Retiring

variable {current : Record} {metadata stored : Members} {now : ℤ}

/-- The claim in the metadata is closed if it is pending. -/
def judgedMetadata (registry : Registry) (current : Record) (metadata : Members) (now : ℤ)
    (carried : Members) : Except Raised Members := do
  let carried ← boundedMapping "artifact metadata" registry.maxMetadataBytes carried
  let claim ← retirementClaim carried
  match claim with
  | none => .ok metadata
  | some claim =>
    if isPending claim then
      metadataWithRetirement registry { current with metadata := carried } confirmedPhase
        ((operationOf claim).getD [])
        [(lit "observed_path_exists", .bool false), (lit "confirmed_ns", .int now),
          (lit "receipt", .obj [(lit "effect", .str (lit "removed")),
            (lit "replayed", .bool false)])] now
    else .ok metadata

theorem retiredMetadata_eq (registry : Registry) (current : Record) (metadata : Members) (now : ℤ) :
    retiredMetadata registry current metadata now =
      judgedMetadata registry current metadata now (carriedMetadata current.metadata metadata) := by
  rw [retiredMetadata, carriedMetadata]
  cases Json.get current.metadata retirementKey with
  | null => rfl
  | _ =>
    by_cases hany : metadata.any (·.1 = retirementKey) = true
    · simp only [if_pos hany]
      rfl
    · simp only [if_neg hany]
      rfl

/-- The ends of the metadata of a retired record. -/
theorem retiredMetadata_eq_ok (h : retiredMetadata registry current metadata now = .ok stored) :
    ∃ claim, retirementClaim (carriedMetadata current.metadata metadata) = .ok claim ∧
      (claim.any isPending = false ∧ stored = metadata ∨
        ∃ c, claim = some c ∧ isPending c = true ∧
          stored = put (carriedMetadata current.metadata metadata) retirementKey
            (.obj (closedClaim c now))) := by
  rw [retiredMetadata_eq] at h
  simp only [judgedMetadata, Checks.bind_eq_ok] at h
  obtain ⟨bounded, hbounded, claim, hclaim, h⟩ := h
  obtain rfl := boundedMapping_eq_ok hbounded
  refine ⟨claim, hclaim, ?_⟩
  cases claim with
  | none => exact .inl ⟨rfl, (Except.ok.inj h).symm⟩
  | some c =>
    by_cases hpending : isPending c = true
    · obtain ⟨phase, operation, hc⟩ := retirementClaim_eq_some.mp hclaim
      simp only [if_pos hpending, metadataWithRetirement, retirementBase, hc.get_eq,
        hc.operationOf_eq, Option.getD_some, if_true, Checks.ok_bind] at h
      exact .inr ⟨c, rfl, hpending, boundedMapping_eq_ok h⟩
    · simp only [if_neg hpending] at h
      refine .inl ⟨?_, (Except.ok.inj h).symm⟩
      simpa using hpending

/-- Metadata whose claim is not pending are stored as they are. -/
theorem retiredMetadata_of_settled {claim : Option Members} (registry : Registry) (now : ℤ)
    (hbounded : boundedMapping "artifact metadata" registry.maxMetadataBytes
      (carriedMetadata current.metadata metadata) = .ok (carriedMetadata current.metadata metadata))
    (hclaim : retirementClaim (carriedMetadata current.metadata metadata) = .ok claim)
    (hsettled : claim.any isPending = false) :
    retiredMetadata registry current metadata now = .ok metadata := by
  rw [retiredMetadata_eq]
  simp only [judgedMetadata, Checks.bind_eq_ok]
  refine ⟨_, hbounded, claim, hclaim, ?_⟩
  cases claim with
  | none => rfl
  | some c =>
    have hpending : ¬ isPending c = true := by simpa using hsettled
    exact if_neg hpending

end Retiring

/-! ## The checks of an update -/

section Merging

variable {current : Observed} {args : UpdateArgs} {now : ℤ} {ttlNs : Option (Option ℤ)}
  {merged : Record}

variable (sha256 registry disk d current args now ttlNs merged) in
/-- What an update checks, and the fields that it ends with. -/
structure Merging : Prop where
  claim : ∃ claim, retirementClaim current.metadata = .ok claim ∧
    (current.verified || retiringMissingPath current claim args) = true
  owner : ∃ owner, writingOwner registry "update" = .ok owner ∧ current.owner = owner
  lifetime : args.lifetime = .ok ttlNs
  producer : boundedText "artifact producer" maxTextBytes (args.producer.getD current.producer) =
    .ok merged.producer
  runId : boundedRunId (args.runId.getD current.runId) = .ok merged.runId
  purpose : boundedText "artifact purpose" maxTextBytes (args.purpose.getD current.purpose) =
    .ok merged.purpose
  sourceRef : boundedJson "artifact source_ref" maxTextBytes (args.sourceRef.getD current.sourceRef) =
    .ok merged.sourceRef
  digest : (args.digest.getD current.digest).mapM (boundedText "artifact digest" maxTextBytes) =
    .ok merged.digest
  dependencies_none : args.dependencies = none → merged.dependencies = current.dependencies
  dependencies_some : ∀ values, args.dependencies = some values →
    normalizeDependencies values = .ok merged.dependencies
  retain : nonNegative (args.retainUntilNs.getD current.retainUntilNs) = true
  ttl : nonNegative (ttlNs.getD current.ttlNs) = true
  given : ∀ values, args.metadata = some values →
    boundedMapping "artifact metadata" registry.maxMetadataBytes values = .ok values
  retired : merged.state = .retired →
    retiredMetadata registry current.toRecord (args.metadata.getD current.metadata) now =
      .ok merged.metadata
  standing : merged.state ≠ .retired → merged.metadata = args.metadata.getD current.metadata
  fields : merged = { current.toRecord with
    producer := merged.producer
    runId := merged.runId
    purpose := merged.purpose
    state := args.state.getD current.state
    sourceRef := merged.sourceRef
    digest := merged.digest
    dependencies := merged.dependencies
    retainUntilNs := mergedDeadline current.toRecord args ttlNs
    ttlNs := ttlNs.getD current.ttlNs
    disposable := args.disposable.getD current.disposable
    metadata := merged.metadata }

variable (sha256 registry disk d current args) in
/-- The dependencies of the record, or those that were given. -/
def mergedDependencies : Except Raised (List Text) :=
  match args.dependencies with
  | none => .ok current.dependencies
  | some values => do
    let dependencies ← normalizeDependencies values
    validateDependencies sha256 registry disk d current.artifactId dependencies
    .ok dependencies

variable (registry current args) in
/-- The metadata of the record, or those that were given. -/
def givenMetadata : Except Raised Members :=
  match args.metadata with
  | none => .ok current.metadata
  | some metadata => boundedMapping "artifact metadata" registry.maxMetadataBytes metadata

variable (registry current args now) in
/-- The metadata behind an update. -/
def storedMetadata (metadata : Members) : Except Raised Members :=
  if args.state.getD current.state = .retired then
    retiredMetadata registry current.toRecord metadata now
  else .ok metadata

variable (sha256 registry disk d current args now) in
/-- The stages of an update, one behind the other. -/
theorem mergedRecord_eq :
    mergedRecord sha256 registry disk d current args now = (do
      let claim ← retirementClaim current.metadata
      need (current.verified || retiringMissingPath current claim args)
        (.security (current.reason.getD "artifact cannot be updated after drift"))
      let owner ← writingOwner registry "update"
      need (current.owner = owner) (.security "artifact owner does not match this registry")
      let ttlNs ← args.lifetime
      let producer ← boundedText "artifact producer" maxTextBytes
        (args.producer.getD current.producer)
      let runId ← boundedRunId (args.runId.getD current.runId)
      let purpose ← boundedText "artifact purpose" maxTextBytes (args.purpose.getD current.purpose)
      let sourceRef ← boundedJson "artifact source_ref" maxTextBytes
        (args.sourceRef.getD current.sourceRef)
      let digest ← (args.digest.getD current.digest).mapM
        (boundedText "artifact digest" maxTextBytes)
      let dependencies ← mergedDependencies sha256 registry disk d current args
      need (nonNegative (args.retainUntilNs.getD current.retainUntilNs))
        (.value "artifact retain_until_ns must be a non-negative integer or null")
      need (nonNegative (ttlNs.getD current.ttlNs))
        (.value "artifact ttl_ns must be a non-negative integer or null")
      let metadata ← givenMetadata registry current args
      let metadata ← storedMetadata registry current args now metadata
      .ok { current.toRecord with
        producer, runId, purpose
        state := args.state.getD current.state
        sourceRef, digest, dependencies
        retainUntilNs := mergedDeadline current.toRecord args ttlNs
        ttlNs := ttlNs.getD current.ttlNs
        disposable := args.disposable.getD current.disposable
        metadata }) := by
  rw [mergedRecord, mergedDependencies, givenMetadata]
  simp only [storedMetadata]
  cases args.dependencies <;> cases args.metadata <;>
    by_cases hretired : args.state.getD current.state = .retired <;>
    simp only [hretired, reduceIte, bind_assoc, Checks.ok_bind]

theorem mergedRecord_eq_ok (h : mergedRecord sha256 registry disk d current args now = .ok merged) :
    ∃ ttlNs, Merging registry current args now ttlNs merged := by
  rw [mergedRecord_eq] at h
  simp only [Checks.bind_eq_ok] at h
  obtain ⟨claim, hclaim, _, hverified, owner, howner, _, hsame, ttlNs, httl, producer, hproducer, runId,
    hrunId, purpose, hpurpose, sourceRef, hsourceRef, digest, hdigest, dependencies, hdependencies, _,
    hretain, _, hlifetime, metadata, hmetadata, stored, hstored, hmerged⟩ := h
  obtain rfl := Except.ok.inj hmerged
  rw [need_eq_ok] at hverified hsame hretain hlifetime
  rw [mergedDependencies] at hdependencies
  rw [givenMetadata] at hmetadata
  rw [storedMetadata] at hstored
  have hgiven : metadata = args.metadata.getD current.metadata ∧ ∀ values,
      args.metadata = some values →
        boundedMapping "artifact metadata" registry.maxMetadataBytes values = .ok values := by
    cases hargs : args.metadata with
    | none =>
      rw [hargs] at hmetadata
      exact ⟨(Except.ok.inj hmetadata).symm, fun _ hsome => by cases hsome⟩
    | some values =>
      simp only [hargs] at hmetadata
      have heq := boundedMapping_eq_ok hmetadata
      subst heq
      exact ⟨rfl, fun _ hsome => Option.some.inj hsome ▸ hmetadata⟩
  refine ⟨ttlNs, ⟨⟨claim, hclaim, hverified⟩, ⟨owner, howner, by simpa using hsame⟩, httl, hproducer,
    hrunId, hpurpose, hsourceRef, hdigest, ?_, ?_, hretain, hlifetime, hgiven.2, ?_, ?_, rfl⟩⟩
  · intro hnone
    rw [hnone] at hdependencies
    exact (Except.ok.inj hdependencies).symm
  · intro values hsome
    simp only [hsome, Checks.bind_eq_ok] at hdependencies
    obtain ⟨normal, hnormal, _, _, hdependencies⟩ := hdependencies
    rw [hnormal, Except.ok.inj hdependencies]
  · intro hretired
    rw [if_pos hretired, hgiven.1] at hstored
    exact hstored
  · intro hstanding
    rw [if_neg hstanding, hgiven.1] at hstored
    exact (Except.ok.inj hstored).symm

/-- An update without dependencies that passes its checks ends with their fields. -/
theorem Merging.mergedRecord_eq (sha256 : Sha256) (disk : Disk) (d : Directory)
    (h : Merging registry current args now ttlNs merged) (hdependencies : args.dependencies = none) :
    mergedRecord sha256 registry disk d current args now = .ok merged := by
  obtain ⟨claim, hclaim, hverified⟩ := h.claim
  obtain ⟨owner, howner, hsame⟩ := h.owner
  have hlisted : mergedDependencies sha256 registry disk d current args =
      .ok merged.dependencies := by
    rw [mergedDependencies, hdependencies, h.dependencies_none hdependencies]
  have hgiven : givenMetadata registry current args =
      .ok (args.metadata.getD current.metadata) := by
    rw [givenMetadata]
    cases hargs : args.metadata with
    | none => rfl
    | some values => exact h.given values hargs
  have hstate : merged.state = args.state.getD current.state := congrArg Record.state h.fields
  have hstored : storedMetadata registry current args now (args.metadata.getD current.metadata) =
      .ok merged.metadata := by
    rw [storedMetadata, ← hstate]
    split_ifs with hretired
    · exact h.retired hretired
    · rw [h.standing hretired]
  rw [Artifacts.mergedRecord_eq]
  simp only [Checks.bind_eq_ok, need_eq_ok, decide_eq_true_eq]
  exact ⟨claim, hclaim, (), hverified, owner, howner, (), hsame, ttlNs, h.lifetime, _, h.producer, _,
    h.runId, _, h.purpose, _, h.sourceRef, _, h.digest, _, hlisted, (), h.retain, (), h.ttl, _, hgiven,
    _, hstored, congrArg Except.ok h.fields.symm⟩

/-- What no update changes. -/
theorem Merging.fixed (h : Merging registry current args now ttlNs merged) :
    merged.artifactId = current.artifactId ∧ merged.owner = current.owner ∧
      merged.path = current.path ∧ merged.root = current.root ∧
      merged.pathIdentity = current.pathIdentity ∧ merged.rootIdentity = current.rootIdentity ∧
      merged.kind = current.kind ∧ merged.createdNs = current.createdNs := by
  rw [h.fields]
  exact ⟨rfl, rfl, rfl, rfl, rfl, rfl, rfl, rfl⟩

end Merging

/-! ## What an update stores -/

/-- Two records agree in the fields that an update compares. -/
structure SameFields (a b : Record) : Prop where
  producer : a.producer = b.producer
  runId : a.runId = b.runId
  purpose : a.purpose = b.purpose
  state : a.state = b.state
  sourceRef : equal a.sourceRef b.sourceRef = true
  digest : a.digest = b.digest
  dependencies : a.dependencies = b.dependencies
  retainUntilNs : a.retainUntilNs = b.retainUntilNs
  ttlNs : a.ttlNs = b.ttlNs
  disposable : a.disposable = b.disposable
  metadata : equal (.obj a.metadata) (.obj b.metadata) = true

/-- An update is without an effect if it names no dependencies and all fields agree. -/
theorem recordChanged_eq_false {a b : Record} {listed : Bool} :
    recordChanged a b listed = false ↔ listed = false ∧ SameFields a b := by
  simp only [recordChanged, Bool.or_eq_false_iff, Bool.not_eq_false', Bool.and_eq_true,
    decide_eq_true_eq]
  constructor
  · rintro ⟨hlisted, ⟨⟨⟨⟨⟨⟨⟨⟨⟨⟨h₁, h₂⟩, h₃⟩, h₄⟩, h₅⟩, h₆⟩, h₇⟩, h₈⟩, h₉⟩, h₁₀⟩, h₁₁⟩⟩
    exact ⟨hlisted, h₁, h₂, h₃, h₄, h₅, h₆, h₇, h₈, h₉, h₁₀, h₁₁⟩
  · rintro ⟨hlisted, h⟩
    exact ⟨hlisted, ⟨⟨⟨⟨⟨⟨⟨⟨⟨⟨h.producer, h.runId⟩, h.purpose⟩, h.state⟩, h.sourceRef⟩, h.digest⟩,
      h.dependencies⟩, h.retainUntilNs⟩, h.ttlNs⟩, h.disposable⟩, h.metadata⟩⟩

/-- What no update changes, and what only a completion observes again. -/
structure Kept (current result : Record) : Prop where
  artifactId : result.artifactId = current.artifactId
  owner : result.owner = current.owner
  path : result.path = current.path
  root : result.root = current.root
  pathIdentity : result.pathIdentity = current.pathIdentity
  rootIdentity : result.rootIdentity = current.rootIdentity
  kind : result.kind = current.kind
  createdNs : result.createdNs = current.createdNs
  updatedNs : current.updatedNs ≤ result.updatedNs
  observations : result.state ≠ .completed →
    result.pathSizeBytes = current.pathSizeBytes ∧ result.pathMtimeNs = current.pathMtimeNs

variable (registry) in
/-- The record `result` is what an update of `current` stores. -/
structure Stored (current : Observed) (args : UpdateArgs) (now : ℤ) (ttlNs : Option (Option ℤ))
    (merged : Record) (result : Record) : Prop where
  merging : Merging registry current args now ttlNs merged
  same : SameFields result merged
  kept : Kept current.toRecord result

section Target

variable {current : Observed} {args : UpdateArgs} {now : ℤ}

/-- The ends of the decision of an update. -/
theorem updateTarget_eq_ok {target : Option Record}
    (h : updateTarget sha256 registry disk d current args now = .ok target) :
    ∃ ttlNs merged, mergedRecord sha256 registry disk d current args now = .ok merged ∧
      Merging registry current args now ttlNs merged ∧
      (target = none ∧ recordChanged current.toRecord merged args.dependencies.isSome = false ∨
        ∃ record, target = some record ∧ Stored registry current args now ttlNs merged record ∧
          record.updatedNs = max (args.updatedNs.getD now) current.updatedNs) := by
  simp only [updateTarget, Checks.bind_eq_ok] at h
  obtain ⟨merged, hmerged, h⟩ := h
  obtain ⟨ttlNs, hmerging⟩ := mergedRecord_eq_ok hmerged
  refine ⟨ttlNs, merged, hmerged, hmerging, ?_⟩
  cases hchanged : recordChanged current.toRecord merged args.dependencies.isSome with
  | false =>
    rw [hchanged] at h
    exact .inl ⟨(Except.ok.inj h).symm, rfl⟩
  | true =>
    rw [hchanged, Bool.not_true, if_neg Bool.false_ne_true] at h
    simp only [Checks.bind_eq_ok] at h
    obtain ⟨_, _, ⟨size, mtime⟩, hsize, hrecord⟩ := h
    refine .inr ⟨_, (Except.ok.inj hrecord).symm, ⟨hmerging, ?_, ?_⟩, rfl⟩
    · exact ⟨rfl, rfl, rfl, rfl, equal_self _, rfl, rfl, rfl, rfl, rfl, equal_self _⟩
    · obtain ⟨hid, howner, hpath, hroot, hpathIdentity, hrootIdentity, hkind, hcreated⟩ :=
        hmerging.fixed
      refine ⟨hid, howner, hpath, hroot, hpathIdentity, hrootIdentity, hkind, hcreated,
        le_max_right _ _, ?_⟩
      intro hstate
      rw [mergedSize, if_neg hstate] at hsize
      have hpair := Except.ok.inj hsize
      exact ⟨(Prod.mk.inj hpair).1.symm, (Prod.mk.inj hpair).2.symm⟩

end Target

/-! ## The call -/

section Call

variable {artifactId name token : Text} {args : UpdateArgs} {now : ℤ} {result : Observed}

/-- The ends of an update that is accepted. -/
theorem update_eq_ok
    (h : (update sha256 registry disk artifactId args now token d).result = .ok result) :
    boundedText "artifact_id" maxArtifactIdBytes artifactId = .ok artifactId ∧
      ensureRoot registry disk = .ok () ∧
      ∃ current, loadRecord sha256 registry disk d (safeManifestName sha256 artifactId) = .ok current ∧
        (updateTarget sha256 registry disk d current args now = .ok none ∧
            update sha256 registry disk artifactId args now token d = ⟨[], .ok current⟩ ∨
          ∃ record, updateTarget sha256 registry disk d current args now = .ok (some record) ∧
            update sha256 registry disk artifactId args now token d =
              publishUpdate sha256 registry disk (safeManifestName sha256 artifactId) token record
                d) := by
  rcases update_cases sha256 registry disk d artifactId args now token with ⟨e, hrefused⟩ | hcases
  · rw [hrefused] at h
    cases h
  · exact hcases

/-- An update that decides on no change writes nothing. -/
theorem update_idle {current : Observed} (token : Text)
    (hid : boundedText "artifact_id" maxArtifactIdBytes artifactId = .ok artifactId)
    (hroot : ensureRoot registry disk = .ok ())
    (hload : loadRecord sha256 registry disk d (safeManifestName sha256 artifactId) = .ok current)
    (htarget : updateTarget sha256 registry disk d current args now = .ok none) :
    update sha256 registry disk artifactId args now token d = ⟨[], .ok current⟩ := by
  rw [update, hid, Program.ok_bind, hroot, Program.ok_bind, Program.read_bind, hload,
    Program.ok_bind, htarget]
  rfl

/-- The publication of an update that is accepted ends with a look at its manifest. -/
theorem publishUpdate_eq_ok {record : Record}
    (h : (publishUpdate sha256 registry disk name token record d).result = .ok result) :
    ∃ payload, payloadFromRecord sha256 record = .ok payload ∧
      (publishUpdate sha256 registry disk name token record d).writes =
        [d.create (temporaryName name token), d.staged (temporaryName name token) payload,
          d.replaced name payload] ∧
      loadRecord sha256 registry disk (d.replaced name payload) name = .ok result := by
  rcases publishUpdate_cases sha256 registry disk d token name record with
    ⟨e, hrefused⟩ | ⟨payload, hpayload, -, -, hrun, -⟩
  · rw [hrefused] at h
    cases h
  · rw [hrun] at h ⊢
    exact ⟨payload, hpayload, rfl, h⟩

/-- A record that was published reads back. -/
theorem toRecord_of_published {record : Record} {payload : Payload} (hd : d.Wf)
    (hpayload : payloadFromRecord sha256 record = .ok payload)
    (hload : loadRecord sha256 registry disk (d.replaced name payload) name = .ok result) :
    result.toRecord = record := by
  obtain ⟨read, hread, hrecord⟩ := loadRecord_eq_ok hload
  rw [hrecord, eq_of_readManifestPayload hread (stat_replaced hd),
    (payloadFromRecord_record hpayload).1]

/-- What an update that is accepted leaves. -/
theorem update_stored (hd : d.Wf)
    (h : (update sha256 registry disk artifactId args now token d).result = .ok result) :
    ∃ current ttlNs merged,
      loadRecord sha256 registry disk d (safeManifestName sha256 artifactId) = .ok current ∧
      Stored registry current args now ttlNs merged result.toRecord ∧
      loadRecord sha256 registry disk
        ((update sha256 registry disk artifactId args now token d).final d)
        (safeManifestName sha256 artifactId) = .ok result := by
  obtain ⟨-, -, current, hload, hcases⟩ := update_eq_ok h
  rcases hcases with ⟨htarget, hrun⟩ | ⟨record, htarget, hrun⟩
  · rw [hrun] at h ⊢
    obtain rfl := Except.ok.inj h
    obtain ⟨ttlNs, merged, -, hmerging, hend⟩ := updateTarget_eq_ok htarget
    rcases hend with ⟨-, hchanged⟩ | ⟨_, hsome, -⟩
    · refine ⟨current, ttlNs, merged, hload, ⟨hmerging, (recordChanged_eq_false.mp hchanged).2, ?_⟩,
        hload⟩
      exact ⟨rfl, rfl, rfl, rfl, rfl, rfl, rfl, rfl, le_refl _, fun _ => ⟨rfl, rfl⟩⟩
    · cases hsome
  · rw [hrun] at h ⊢
    obtain ⟨payload, hpayload, hwrites, hagain⟩ := publishUpdate_eq_ok h
    have hrecord := toRecord_of_published hd hpayload hagain
    obtain ⟨ttlNs, merged, -, -, hend⟩ := updateTarget_eq_ok htarget
    rcases hend with ⟨hnone, -⟩ | ⟨stored, hsome, hstored, -⟩
    · cases hnone
    · obtain rfl := Option.some.inj hsome
      rw [← hrecord] at hstored
      refine ⟨current, ttlNs, merged, hload, hstored, ?_⟩
      rw [Outcome.final, hwrites]
      exact hagain

/-- A directory behind a publication is one. -/
theorem wf_replaced (hd : d.Wf) (name : Text) (payload : Payload) : (d.replaced name payload).Wf := by
  refine (wf_without hd name).append [(name, d.nodes.length)] [manifestNode payload] (by simp) ?_
    (by simp)
  intro entry hentry
  rw [List.mem_singleton] at hentry
  rw [Directory.find_eq_none, hentry]
  intro other hother
  simpa using (List.mem_filter.mp hother).2

theorem wf_final (hd : d.Wf)
    (h : (update sha256 registry disk artifactId args now token d).result = .ok result) :
    ((update sha256 registry disk artifactId args now token d).final d).Wf := by
  obtain ⟨-, -, current, -, hcases⟩ := update_eq_ok h
  rcases hcases with ⟨-, hrun⟩ | ⟨record, -, hrun⟩
  · rw [hrun]
    exact hd
  · rw [hrun] at h ⊢
    obtain ⟨payload, -, hwrites, -⟩ := publishUpdate_eq_ok h
    rw [Outcome.final, hwrites]
    exact wf_replaced hd _ payload

/-- An update that names dependencies sets the time of the record. -/
theorem updatedNs_of_listed {current : Observed} (hd : d.Wf)
    (hload : loadRecord sha256 registry disk d (safeManifestName sha256 artifactId) = .ok current)
    (hlisted : args.dependencies ≠ none)
    (h : (update sha256 registry disk artifactId args now token d).result = .ok result) :
    result.updatedNs = max (args.updatedNs.getD now) current.updatedNs := by
  obtain ⟨-, -, found, hfound, hcases⟩ := update_eq_ok h
  rw [hload] at hfound
  obtain rfl := Except.ok.inj hfound
  rcases hcases with ⟨htarget, -⟩ | ⟨record, htarget, hrun⟩
  · obtain ⟨_, _, -, -, hend⟩ := updateTarget_eq_ok htarget
    rcases hend with ⟨-, hchanged⟩ | ⟨_, hsome, -⟩
    · have hnone := (recordChanged_eq_false.mp hchanged).1
      exact absurd (by simpa using hnone) hlisted
    · cases hsome
  · rw [hrun] at h
    obtain ⟨payload, hpayload, -, hagain⟩ := publishUpdate_eq_ok h
    obtain ⟨_, _, -, -, hend⟩ := updateTarget_eq_ok htarget
    rcases hend with ⟨hnone, -⟩ | ⟨stored, hsome, -, hupdated⟩
    · cases hnone
    · obtain rfl := Option.some.inj hsome
      rw [toRecord_of_published hd hpayload hagain]
      exact hupdated

/-- An update that writes nothing decided on no change. -/
theorem target_of_idle {current : Observed}
    (hload : loadRecord sha256 registry disk d (safeManifestName sha256 artifactId) = .ok current)
    (h : update sha256 registry disk artifactId args now token d = ⟨[], .ok result⟩) :
    updateTarget sha256 registry disk d current args now = .ok none := by
  have hok : (update sha256 registry disk artifactId args now token d).result = .ok result := by
    rw [h]
  obtain ⟨-, -, found, hfound, hcases⟩ := update_eq_ok hok
  rw [hload] at hfound
  obtain rfl := Except.ok.inj hfound
  rcases hcases with ⟨htarget, -⟩ | ⟨record, -, hrun⟩
  · exact htarget
  · rw [hrun] at hok
    obtain ⟨payload, -, hwrites, -⟩ := publishUpdate_eq_ok hok
    rw [← hrun, h] at hwrites
    cases hwrites

end Call

end Artifacts
end Neocortex
