import Neocortex.Artifacts.Updates

/-!
# Repeated updates

What an accepted `update` returns, and what the same call does when it comes again.  The fields that it
was given read back, but for a deadline that is dropped next to `ttl=None` and for the retirement claim
that is closed in the metadata of a retired record.  The repeated call is without an effect unless it
names dependencies, or brings metadata whose own claim it must judge again.

* `ReadsBack`, `stored_readsBack_iff`: the fields.
* `SettledMetadata`, `Stored.idle_iff`: the repeated call.
* `update_repeats_iff`: both.
-/

namespace Neocortex
namespace Artifacts

open Python Durable

variable {sha256 : Sha256} {registry : Registry} {disk : Disk} {d : Directory}

/-! ## What reads back -/

/-- The lifetime that an update is given, under either name. -/
def UpdateArgs.givenTtl (args : UpdateArgs) : Option (Option ℤ) := args.ttl.or args.ttlNs

/-- The stored record has the fields that were given, and those of the record where none was given.
The deadline follows from a lifetime that is given alone. -/
structure ReadsBack (current : Record) (args : UpdateArgs) (result : Record) : Prop where
  kept : Kept current result
  producer : result.producer = args.producer.getD current.producer
  runId : result.runId = args.runId.getD current.runId
  purpose : result.purpose = args.purpose.getD current.purpose
  state : result.state = args.state.getD current.state
  sourceRef : equal result.sourceRef (args.sourceRef.getD current.sourceRef) = true
  digest : result.digest = args.digest.getD current.digest
  dependencies_none : args.dependencies = none → result.dependencies = current.dependencies
  dependencies_some : ∀ values, args.dependencies = some values →
    normalizeDependencies values = .ok result.dependencies
  ttlNs : result.ttlNs = args.givenTtl.getD current.ttlNs
  retain_given : ∀ deadline, args.retainUntilNs = some deadline → result.retainUntilNs = deadline
  retain_derived : args.retainUntilNs = none → ∀ ttl, args.givenTtl = some ttl →
    result.retainUntilNs = ttl.map fun ttl => current.createdNs + ttl
  retain_kept : args.retainUntilNs = none → args.givenTtl = none →
    result.retainUntilNs = current.retainUntilNs
  disposable : result.disposable = args.disposable.getD current.disposable
  metadata : equal (.obj result.metadata) (.obj (args.metadata.getD current.metadata)) = true

/-- A deadline is given next to `ttl=None`. -/
def DropsDeadline (args : UpdateArgs) : Prop :=
  ∃ deadline, args.retainUntilNs = some (some deadline) ∧ args.givenTtl = some none

/-- The record becomes retired, or stays so, with a claim that is still pending. -/
def ClosesClaim (current : Record) (args : UpdateArgs) : Prop :=
  args.state.getD current.state = .retired ∧ ∃ claim,
    retirementClaim (carriedMetadata current.metadata (args.metadata.getD current.metadata)) =
      .ok (some claim) ∧ isPending claim = true

section Stored

variable {current : Observed} {args : UpdateArgs} {now : ℤ} {ttlNs : Option (Option ℤ)}
  {merged result : Record}

theorem givenTtl_of_lifetime (h : args.lifetime = .ok ttlNs) : args.givenTtl = ttlNs := by
  rw [UpdateArgs.lifetime] at h
  rw [UpdateArgs.givenTtl]
  cases httl : args.ttl with
  | none =>
    rw [httl] at h
    exact Except.ok.inj h
  | some ttl =>
    rw [httl] at h
    simp only at h
    split_ifs at h
    exact Except.ok.inj h

/-- The state behind an update. -/
theorem Merging.state_eq (h : Merging registry current args now ttlNs merged) :
    merged.state = args.state.getD current.state := congrArg Record.state h.fields

/-- The deadline behind an update. -/
theorem Merging.retain_eq (h : Merging registry current args now ttlNs merged) :
    merged.retainUntilNs = mergedDeadline current.toRecord args ttlNs :=
  congrArg Record.retainUntilNs h.fields

theorem Merging.ttl_eq (h : Merging registry current args now ttlNs merged) :
    merged.ttlNs = ttlNs.getD current.ttlNs := congrArg Record.ttlNs h.fields

theorem Merging.disposable_eq (h : Merging registry current args now ttlNs merged) :
    merged.disposable = args.disposable.getD current.disposable :=
  congrArg Record.disposable h.fields

/-- A deadline that is given is stored, unless it comes with `ttl=None`. -/
theorem mergedDeadline_given {record : Record} {deadline : Option ℤ}
    (h : args.retainUntilNs = some deadline) :
    mergedDeadline record args ttlNs = if ttlNs = some none then none else deadline := by
  cases ttlNs with
  | none => simp [mergedDeadline, h]
  | some ttl => cases ttl <;> simp [mergedDeadline, h]

theorem mergedDeadline_derived {record : Record} {ttl : Option ℤ} (h : args.retainUntilNs = none) :
    mergedDeadline record args (some ttl) = ttl.map fun ttl => record.createdNs + ttl := by
  cases ttl <;> simp [mergedDeadline, h]

theorem mergedDeadline_kept {record : Record} (h : args.retainUntilNs = none) :
    mergedDeadline record args none = record.retainUntilNs := by
  simp [mergedDeadline, h]

/-- The metadata that an update stores: those that were given, or those with the closed claim. -/
theorem Merging.metadata_cases (h : Merging registry current args now ttlNs merged) :
    (¬ ClosesClaim current.toRecord args ∧
        merged.metadata = args.metadata.getD current.metadata) ∨
      (merged.state = .retired ∧ ∃ claim phase operation,
        IsClaim (carriedMetadata current.metadata (args.metadata.getD current.metadata)) claim phase
          operation ∧
        isPending claim = true ∧
        merged.metadata = put (carriedMetadata current.metadata
          (args.metadata.getD current.metadata)) retirementKey (.obj (closedClaim claim now))) := by
  by_cases hretired : merged.state = .retired
  · obtain ⟨found, hfound, hstored⟩ := retiredMetadata_eq_ok (h.retired hretired)
    rcases hstored with ⟨hsettled, hmetadata⟩ | ⟨claim, rfl, hpending, hmetadata⟩
    · refine .inl ⟨?_, hmetadata⟩
      rintro ⟨-, claim, hclaim, hpending⟩
      rw [hfound] at hclaim
      rw [Except.ok.inj hclaim, Option.any_some, hpending] at hsettled
      cases hsettled
    · obtain ⟨phase, operation, hclaim⟩ := retirementClaim_eq_some.mp hfound
      exact .inr ⟨hretired, claim, phase, operation, hclaim, hpending, hmetadata⟩
  · refine .inl ⟨fun hcloses => hretired ?_, h.standing hretired⟩
    rw [h.state_eq]
    exact hcloses.1

variable (now) in
/-- Metadata with a closed claim are not those that were given. -/
theorem not_equal_of_closed {given claim : Members} {phase operation : Text}
    (hclaim : IsClaim (carriedMetadata current.metadata given) claim phase operation)
    (hpending : isPending claim = true) :
    ¬ equal (.obj (put (carriedMetadata current.metadata given) retirementKey
      (.obj (closedClaim claim now)))) (.obj given) = true := by
  intro heq
  by_cases hany : given.any (·.1 = retirementKey) = true
  · rw [carriedMetadata_of_any _ hany] at hclaim heq
    obtain ⟨found, hfound, hsame⟩ := retirementClaim_congr heq
      (retirementClaim_eq_some.mpr ⟨_, _, hclaim.closed now⟩)
    rw [retirementClaim_eq_some.mpr ⟨_, _, hclaim⟩] at hfound
    rw [← Except.ok.inj hfound, Option.any_some, Option.any_some, hpending,
      isPending_closedClaim hclaim] at hsame
    cases hsame
  · have hget := equal_get heq retirementKey
    rw [Members.get_put, get_of_not_any (Bool.eq_false_of_not_eq_true hany)] at hget
    obtain ⟨_, hnull⟩ := eq_obj_of_equal hget
    cases hnull

/-- The first half of the guarantee. -/
theorem stored_readsBack_iff (h : Stored registry current args now ttlNs merged result) :
    ReadsBack current.toRecord args result ↔
      ¬ DropsDeadline args ∧ ¬ ClosesClaim current.toRecord args := by
  have hm := h.merging
  have httl := givenTtl_of_lifetime hm.lifetime
  constructor
  · intro hback
    refine ⟨?_, ?_⟩
    · rintro ⟨deadline, hretain, hdropped⟩
      have hstored := h.same.retainUntilNs
      rw [hback.retain_given _ hretain, hm.retain_eq, mergedDeadline_given hretain, ← httl, hdropped,
        if_pos rfl] at hstored
      cases hstored
    · intro hcloses
      rcases hm.metadata_cases with ⟨hnot, -⟩ | ⟨-, claim, phase, operation, hclaim, hpending, hstored⟩
      · exact hnot hcloses
      · refine not_equal_of_closed now hclaim hpending ?_
        rw [← hstored]
        exact equal_trans (equal_symm h.same.metadata) hback.metadata
  · rintro ⟨hdeadline, hclaim⟩
    have hmetadata : merged.metadata = args.metadata.getD current.metadata := by
      rcases hm.metadata_cases with ⟨-, hgiven⟩ | ⟨hretired, claim, phase, operation, hfound, hpending, -⟩
      · exact hgiven
      · refine absurd ⟨?_, claim, retirementClaim_eq_some.mpr ⟨_, _, hfound⟩, hpending⟩ hclaim
        rw [← hm.state_eq]
        exact hretired
    refine ⟨h.kept, ?_, ?_, ?_, ?_, ?_, ?_, ?_, ?_, ?_, ?_, ?_, ?_, ?_, ?_⟩
    · rw [h.same.producer, boundedText_eq_ok hm.producer]
    · rw [h.same.runId, boundedRunId_eq_ok hm.runId]
    · rw [h.same.purpose, boundedText_eq_ok hm.purpose]
    · rw [h.same.state, hm.state_eq]
    · rw [← boundedJson_eq_ok hm.sourceRef]
      exact h.same.sourceRef
    · rw [h.same.digest, boundedDigest_eq_ok hm.digest]
    · intro hnone
      rw [h.same.dependencies, hm.dependencies_none hnone]
    · intro values hsome
      rw [h.same.dependencies]
      exact hm.dependencies_some values hsome
    · rw [h.same.ttlNs, hm.ttl_eq, httl]
    · intro deadline hretain
      rw [h.same.retainUntilNs, hm.retain_eq, mergedDeadline_given hretain]
      split_ifs with hnone
      · cases deadline with
        | none => rfl
        | some deadline => exact absurd ⟨deadline, hretain, httl.trans hnone⟩ hdeadline
      · rfl
    · intro hretain ttl hgiven
      rw [h.same.retainUntilNs, hm.retain_eq, ← httl, hgiven, mergedDeadline_derived hretain]
    · intro hretain hgiven
      rw [h.same.retainUntilNs, hm.retain_eq, ← httl, hgiven, mergedDeadline_kept hretain]
    · rw [h.same.disposable, hm.disposable_eq]
    · rw [← hmetadata]
      exact h.same.metadata

end Stored

/-! ## The repeated call -/

/-- What metadata must be for a call to repeat: their own claim is accepted, and where the record is
retired the claim that is judged is not pending. -/
def SettledMetadata (current : Record) (args : UpdateArgs) : Prop :=
  ∀ metadata, args.metadata = some metadata →
    (∃ claim, retirementClaim metadata = .ok claim) ∧
      (args.state.getD current.state = .retired → ∀ claim,
        retirementClaim (carriedMetadata current.metadata metadata) = .ok (some claim) →
          isPending claim = false)

section Repeat

variable {t : Directory} {current result : Observed} {args : UpdateArgs} {now later : ℤ}
  {ttlNs : Option (Option ℤ)} {merged : Record} {name : Text}

/-- The checks that a stored record passed when it was read. -/
structure Readable (registry : Registry) (record : Record) : Prop where
  sourceRef : boundedJson "artifact source_ref" maxTextBytes record.sourceRef = .ok record.sourceRef
  retain : nonNegative record.retainUntilNs = true
  ttl : nonNegative record.ttlNs = true
  metadata : boundedMapping "artifact metadata" registry.maxMetadataBytes record.metadata =
    .ok record.metadata

theorem readable_of_load (h : loadRecord sha256 registry disk t name = .ok result) :
    Readable registry result.toRecord := by
  simp only [loadRecord, readRecord, Checks.bind_eq_ok] at h
  obtain ⟨record, ⟨payload, -, _, hcheck, hrecord⟩, h⟩ := h
  obtain rfl := Except.ok.inj hrecord
  obtain rfl := Except.ok.inj h
  simp only [checkRecord, Checks.bind_eq_ok] at hcheck
  obtain ⟨_, _, _, _, _, _, _, _, _, _, _, _, _, _, _, _, _, _, _, _, _, _, source, hsource, _, _, _, _,
    _, _, _, hretain, _, httl, metadata, hmetadata, -⟩ := hcheck
  rw [need_eq_ok] at hretain httl
  rw [boundedJson_eq_ok hsource] at hsource
  rw [boundedMapping_eq_ok hmetadata] at hmetadata
  exact ⟨hsource, hretain, httl, hmetadata⟩

/-- The deadline of a record that an update has stored stays under the same update. -/
theorem mergedDeadline_again {a b : Record} (hretain : b.retainUntilNs = mergedDeadline a args ttlNs)
    (hcreated : b.createdNs = a.createdNs) : mergedDeadline b args ttlNs = b.retainUntilNs := by
  rw [hretain]
  cases hgiven : args.retainUntilNs with
  | some deadline => rw [mergedDeadline_given hgiven, mergedDeadline_given hgiven]
  | none =>
    cases ttlNs with
    | some ttl => rw [mergedDeadline_derived hgiven, mergedDeadline_derived hgiven, hcreated]
    | none => rw [mergedDeadline_kept hgiven, hretain]

/-- A field that passed its check passes it again. -/
theorem check_again {α ε : Type} {check : α → Except ε α} (hcheck : ∀ x y, check x = .ok y → y = x)
    {given : Option α} {current merged result : α} (h : check (given.getD current) = .ok merged)
    (hsame : result = merged) : check (given.getD result) = .ok result := by
  subst hsame
  obtain rfl := hcheck _ _ h
  rw [getD_getD]
  exact h

/-- A state that was given, or kept, is kept by the same update. -/
theorem Stored.state_again (h : Stored registry current args now ttlNs merged result.toRecord) :
    args.state.getD result.state = result.state := by
  rw [h.same.state, h.merging.state_eq, getD_getD]

/-- Settled metadata are stored as they were given. -/
theorem Stored.metadata_given {metadata : Members}
    (h : Stored registry current args now ttlNs merged result.toRecord)
    (hsettled : SettledMetadata current.toRecord args) (hgiven : args.metadata = some metadata) :
    merged.metadata = metadata := by
  rcases h.merging.metadata_cases with ⟨-, hmetadata⟩ | ⟨hretired, claim, _, _, hclaim, hpending, -⟩
  · rw [hmetadata, hgiven, Option.getD_some]
  · rw [hgiven, Option.getD_some] at hclaim
    rw [h.merging.state_eq] at hretired
    have hnot := (hsettled metadata hgiven).2 hretired claim
      (retirementClaim_eq_some.mpr ⟨_, _, hclaim⟩)
    rw [hpending] at hnot
    cases hnot

/-- The claim of the stored metadata is accepted, and it is not pending in a retired record. -/
theorem Stored.claim_again (h : Stored registry current args now ttlNs merged result.toRecord)
    (hsettled : SettledMetadata current.toRecord args) :
    ∃ found, retirementClaim result.metadata = .ok found ∧
      (args.metadata = none → result.state = .retired → found.any isPending = false) := by
  have hm := h.merging
  have hmerged : ∃ found, retirementClaim merged.metadata = .ok found ∧
      (args.metadata = none → result.state = .retired → found.any isPending = false) := by
    rcases hm.metadata_cases with ⟨hopen, hmetadata⟩ | ⟨-, claim, _, _, hclaim, -, hmetadata⟩
    · cases hgiven : args.metadata with
      | none =>
        obtain ⟨found, hfound, -⟩ := hm.claim
        rw [hgiven, Option.getD_none] at hmetadata
        refine ⟨found, hmetadata ▸ hfound, fun _ hretired => ?_⟩
        cases found with
        | none => rfl
        | some claim =>
          rw [Option.any_some]
          by_contra hpending
          refine hopen ⟨?_, claim, ?_, by simpa using hpending⟩
          · rw [← hm.state_eq, ← h.same.state]
            exact hretired
          · rw [hgiven, Option.getD_none, carriedMetadata_self]
            exact hfound
      | some metadata =>
        obtain ⟨found, hfound⟩ := (hsettled metadata hgiven).1
        rw [hgiven, Option.getD_some] at hmetadata
        exact ⟨found, hmetadata ▸ hfound, fun hnone => by cases hnone⟩
    · refine ⟨some (closedClaim claim now), ?_, fun _ _ => isPending_closedClaim hclaim now⟩
      rw [hmetadata]
      exact retirementClaim_eq_some.mpr ⟨_, _, hclaim.closed now⟩
  obtain ⟨found, hfound, hpending⟩ := hmerged
  obtain ⟨found', hfound', hsame⟩ := retirementClaim_congr (equal_symm h.same.metadata) hfound
  refine ⟨found', hfound', fun hnone hretired => ?_⟩
  rw [hsame]
  exact hpending hnone hretired

/-- A retired record carries no claim into the metadata of the repeated call. -/
theorem Stored.carried_again (h : Stored registry current args now ttlNs merged result.toRecord)
    (hsettled : SettledMetadata current.toRecord args) (hretired : result.state = .retired) :
    carriedMetadata result.metadata (args.metadata.getD result.metadata) =
        args.metadata.getD result.metadata ∧
      ∃ found, retirementClaim (args.metadata.getD result.metadata) = .ok found ∧
        found.any isPending = false := by
  cases hgiven : args.metadata with
  | none =>
    obtain ⟨found, hfound, hpending⟩ := h.claim_again hsettled
    exact ⟨carriedMetadata_self _, found, hfound, hpending hgiven hretired⟩
  | some metadata =>
    rw [Option.getD_some]
    obtain ⟨⟨found, hfound⟩, hopen⟩ := hsettled metadata hgiven
    rw [h.same.state, h.merging.state_eq] at hretired
    by_cases hany : metadata.any (·.1 = retirementKey) = true
    · refine ⟨carriedMetadata_of_any _ hany, found, hfound, ?_⟩
      cases found with
      | none => rfl
      | some claim =>
        refine hopen hretired claim ?_
        rw [carriedMetadata_of_any _ hany]
        exact hfound
    · have hnull := get_of_not_any (Bool.eq_false_of_not_eq_true hany)
      refine ⟨carriedMetadata_of_null _ ?_, none, retirementClaim_of_null hnull, rfl⟩
      have hget := equal_get h.same.metadata retirementKey
      rw [h.metadata_given hsettled hgiven, hnull] at hget
      exact eq_null_of_equal (equal_symm hget)

/-- What the repeated call merges. -/
def repeated (args : UpdateArgs) (result : Record) : Record :=
  { result with
    sourceRef := args.sourceRef.getD result.sourceRef
    metadata := args.metadata.getD result.metadata }

/-- The repeated call passes the checks of the first one. -/
theorem Stored.merging_again (h : Stored registry current args now ttlNs merged result.toRecord)
    (hread : Readable registry result.toRecord) (hverified : result.verified = true)
    (hsettled : SettledMetadata current.toRecord args) (later : ℤ) :
    Merging registry result args later ttlNs (repeated args result.toRecord) := by
  have hm := h.merging
  obtain ⟨claim, hclaim, -⟩ := h.claim_again hsettled
  obtain ⟨owner, howner, hsame⟩ := hm.owner
  have hretain : mergedDeadline result.toRecord args ttlNs = result.retainUntilNs := by
    refine mergedDeadline_again (a := current.toRecord) ?_ h.kept.createdNs
    rw [h.same.retainUntilNs, hm.retain_eq]
  have httl : ttlNs.getD result.ttlNs = result.ttlNs := by
    rw [h.same.ttlNs, hm.ttl_eq, getD_getD]
  have hdisposable : args.disposable.getD result.disposable = result.disposable := by
    rw [h.same.disposable, hm.disposable_eq, getD_getD]
  refine ⟨⟨claim, hclaim, by rw [hverified, Bool.true_or]⟩, ⟨owner, howner, h.kept.owner.trans hsame⟩,
    hm.lifetime, check_again (fun _ _ => boundedText_eq_ok) hm.producer h.same.producer,
    check_again (fun _ _ => boundedRunId_eq_ok) hm.runId h.same.runId,
    check_again (fun _ _ => boundedText_eq_ok) hm.purpose h.same.purpose, ?_,
    check_again (fun _ _ => boundedDigest_eq_ok) hm.digest h.same.digest, fun _ => rfl, ?_, ?_, ?_,
    hm.given, ?_, fun _ => rfl, ?_⟩
  · cases hgiven : args.sourceRef with
    | none =>
      rw [repeated, hgiven, Option.getD_none]
      exact hread.sourceRef
    | some sourceRef =>
      have hsource := hm.sourceRef
      rw [boundedJson_eq_ok hsource, hgiven, Option.getD_some] at hsource
      rw [repeated, hgiven, Option.getD_some]
      exact hsource
  · intro values hsome
    rw [hm.dependencies_some values hsome, ← h.same.dependencies]
    rfl
  · cases hgiven : args.retainUntilNs with
    | none => exact hread.retain
    | some deadline =>
      have hchecked := hm.retain
      rw [hgiven, Option.getD_some] at hchecked
      exact hchecked
  · rw [httl]
    exact hread.ttl
  · intro hretired
    obtain ⟨hcarried, found, hfound, hopen⟩ := h.carried_again hsettled hretired
    have hbounded : boundedMapping "artifact metadata" registry.maxMetadataBytes
        (args.metadata.getD result.metadata) = .ok (args.metadata.getD result.metadata) := by
      cases hgiven : args.metadata with
      | none => exact hread.metadata
      | some metadata => exact hm.given metadata hgiven
    refine retiredMetadata_of_settled registry later ?_ ?_ hopen
    · rw [hcarried]
      exact hbounded
    · rw [hcarried]
      exact hfound
  · rw [h.state_again, hretain, httl, hdisposable]
    rfl

/-- A call without dependencies, with settled metadata, is without an effect when it comes again. -/
theorem Stored.target_again (h : Stored registry current args now ttlNs merged result.toRecord)
    (hread : Readable registry result.toRecord) (hverified : result.verified = true)
    (hdependencies : args.dependencies = none) (hsettled : SettledMetadata current.toRecord args)
    (later : ℤ) : updateTarget sha256 registry disk t result args later = .ok none := by
  have hsame : SameFields result.toRecord (repeated args result.toRecord) := by
    refine ⟨rfl, rfl, rfl, rfl, ?_, rfl, rfl, rfl, rfl, rfl, ?_⟩
    · cases hgiven : args.sourceRef with
      | none =>
        rw [repeated, hgiven]
        exact equal_self _
      | some sourceRef =>
        have hsource := h.same.sourceRef
        rw [boundedJson_eq_ok h.merging.sourceRef, hgiven] at hsource
        rw [repeated, hgiven]
        exact hsource
    · cases hgiven : args.metadata with
      | none =>
        rw [repeated, hgiven]
        exact equal_self _
      | some metadata =>
        have hmetadata := h.same.metadata
        rw [h.metadata_given hsettled hgiven] at hmetadata
        rw [repeated, hgiven]
        exact hmetadata
  have hmerged := (h.merging_again hread hverified hsettled later).mergedRecord_eq sha256 disk t
    hdependencies
  have hlisted : args.dependencies.isSome = false := by rw [hdependencies, Option.isSome_none]
  rw [updateTarget, hmerged, Checks.ok_bind, recordChanged_eq_false.mpr ⟨hlisted, hsame⟩]
  rfl

/-- A closed claim is not one that is closed at another time. -/
theorem not_equal_closedClaim {a b x y : Members} (h : now ≠ later) :
    ¬ equal (.obj (put a retirementKey (.obj (closedClaim x now))))
      (.obj (put b retirementKey (.obj (closedClaim y later)))) = true := by
  intro heq
  have hclaims := equal_get heq retirementKey
  rw [Members.get_put, Members.get_put] at hclaims
  have htimes := equal_get hclaims (lit "confirmed_ns")
  rw [get_closedClaim_confirmed, get_closedClaim_confirmed] at htimes
  exact h (eq_of_equal_int htimes)

/-- A repeated call without an effect names no dependencies, and merges what is stored. -/
theorem merging_of_idle
    (h : updateTarget sha256 registry disk t result args later = .ok none) :
    args.dependencies = none ∧ ∃ ttlNs merged, Merging registry result args later ttlNs merged ∧
      SameFields result.toRecord merged := by
  obtain ⟨ttlNs, merged, -, hmerging, hend⟩ := updateTarget_eq_ok h
  rcases hend with ⟨-, hchanged⟩ | ⟨_, hsome, -⟩
  · obtain ⟨hlisted, hsame⟩ := recordChanged_eq_false.mp hchanged
    refine ⟨?_, ttlNs, merged, hmerging, hsame⟩
    simpa using hlisted
  · cases hsome

/-- A call whose repetition stays without an effect has metadata whose own claim is accepted. -/
theorem claim_of_idle {metadata : Members}
    (h : updateTarget sha256 registry disk t result args later = .ok none)
    (hgiven : args.metadata = some metadata) : ∃ claim, retirementClaim metadata = .ok claim := by
  obtain ⟨-, ttlNs', merged', hm', hsame⟩ := merging_of_idle h
  rcases hm'.metadata_cases with ⟨-, hmetadata⟩ | ⟨-, claim, _, _, hclaim, -, -⟩
  · obtain ⟨found, hfound, -⟩ := hm'.claim
    rw [hgiven, Option.getD_some] at hmetadata
    have hequal := hsame.metadata
    rw [hmetadata] at hequal
    obtain ⟨found', hfound', -⟩ := retirementClaim_congr hequal hfound
    exact ⟨found', hfound'⟩
  · rw [hgiven, Option.getD_some] at hclaim
    by_cases hany : metadata.any (·.1 = retirementKey) = true
    · rw [carriedMetadata_of_any _ hany] at hclaim
      exact ⟨some claim, retirementClaim_eq_some.mpr ⟨_, _, hclaim⟩⟩
    · exact ⟨none, retirementClaim_of_null (get_of_not_any (Bool.eq_false_of_not_eq_true hany))⟩

/-- Metadata with a pending claim of their own are closed anew by every repetition. -/
theorem not_idle_of_own_claim {metadata claim : Members} {phase operation : Text}
    (h : Stored registry current args now ttlNs merged result.toRecord)
    (hgiven : args.metadata = some metadata) (hretired : args.state.getD current.state = .retired)
    (hclaim : IsClaim metadata claim phase operation) (hpending : isPending claim = true)
    (hstored : ∃ ms x, merged.metadata = put ms retirementKey (.obj (closedClaim x now))) :
    ¬ updateTarget sha256 registry disk t result args (now + 1) = .ok none := by
  intro hidle
  have hany : metadata.any (·.1 = retirementKey) = true :=
    Members.any_of_get (by rw [hclaim.get_eq]; simp)
  obtain ⟨ms, x, hstored⟩ := hstored
  obtain ⟨-, ttlNs', merged', hm', hsame⟩ := merging_of_idle hidle
  rcases hm'.metadata_cases with ⟨hopen, -⟩ | ⟨-, claim', _, _, -, -, hmetadata⟩
  · refine hopen ⟨?_, claim, ?_, hpending⟩
    · rw [h.state_again, h.same.state, h.merging.state_eq]
      exact hretired
    · rw [hgiven, Option.getD_some, carriedMetadata_of_any _ hany]
      exact retirementClaim_eq_some.mpr ⟨_, _, hclaim⟩
  · have hequal := equal_trans (equal_symm h.same.metadata) hsame.metadata
    rw [hstored, hmetadata] at hequal
    exact not_equal_closedClaim (by omega) hequal

/-- Metadata that left the claim to the record lose it by the repetition. -/
theorem not_idle_of_carried_claim {metadata claim : Members} {phase operation : Text}
    (h : Stored registry current args now ttlNs merged result.toRecord)
    (hgiven : args.metadata = some metadata)
    (hany : metadata.any (·.1 = retirementKey) = false)
    (hclaim : IsClaim (carriedMetadata current.metadata metadata) claim phase operation)
    (hpending : isPending claim = true)
    (hstored : merged.metadata = put (carriedMetadata current.metadata metadata) retirementKey
      (.obj (closedClaim claim now))) :
    ¬ updateTarget sha256 registry disk t result args later = .ok none := by
  intro hidle
  obtain ⟨-, ttlNs', merged', hm', hsame⟩ := merging_of_idle hidle
  have hequal := equal_symm h.same.metadata
  rw [hstored] at hequal
  rcases hm'.metadata_cases with ⟨-, hmetadata⟩ | ⟨-, claim', phase', operation', hclaim', hpending', -⟩
  · rw [hgiven, Option.getD_some] at hmetadata
    have hlost := hsame.metadata
    rw [hmetadata] at hlost
    exact not_equal_of_closed now hclaim hpending (equal_trans hequal hlost)
  · -- the record has the closed claim, and so has what is carried on
    rw [hgiven, Option.getD_some] at hclaim'
    have hget := equal_get hequal retirementKey
    rw [Members.get_put] at hget
    obtain ⟨own, hown⟩ := eq_obj_of_equal hget
    have hcarried := hclaim'.get_eq
    rw [carriedMetadata_of_not_any hown hany, Members.get_put, ← hown] at hcarried
    obtain ⟨found, hfound, hopen⟩ := retirementClaim_congr hequal
      (retirementClaim_eq_some.mpr ⟨_, _, hclaim.closed now⟩)
    rw [retirementClaim_eq_some.mpr ⟨phase', operation', hcarried, hclaim'.phase_eq,
      hclaim'.operation_eq, hclaim'.known, hclaim'.operation_ne⟩] at hfound
    rw [← Except.ok.inj hfound, Option.any_some, Option.any_some, hpending',
      isPending_closedClaim hclaim] at hopen
    cases hopen

/-- A call whose repetition is without an effect at every later time has settled metadata. -/
theorem Stored.settled_of_idle (h : Stored registry current args now ttlNs merged result.toRecord)
    (hidle : ∀ later, now ≤ later →
      updateTarget sha256 registry disk t result args later = .ok none) :
    SettledMetadata current.toRecord args := by
  intro metadata hgiven
  refine ⟨claim_of_idle (hidle now le_rfl) hgiven, fun hretired claim hclaim => ?_⟩
  by_contra hopen
  have hpending : isPending claim = true := by simpa using hopen
  rcases h.merging.metadata_cases with ⟨hnot, -⟩ | ⟨-, own, phase, operation, hown, hownPending, hstored⟩
  · refine hnot ⟨hretired, claim, ?_, hpending⟩
    rw [hgiven, Option.getD_some]
    exact hclaim
  · rw [hgiven, Option.getD_some] at hown hstored
    by_cases hany : metadata.any (·.1 = retirementKey) = true
    · rw [carriedMetadata_of_any _ hany] at hown
      exact not_idle_of_own_claim h hgiven hretired hown hownPending ⟨_, _, hstored⟩
        (hidle (now + 1) (by omega))
    · exact not_idle_of_carried_claim h hgiven (Bool.eq_false_of_not_eq_true hany) hown hownPending hstored
        (hidle now le_rfl)

/-- The second half of the guarantee, for the decision of the repeated call. -/
theorem Stored.idle_iff (h : Stored registry current args now ttlNs merged result.toRecord)
    (hread : Readable registry result.toRecord) (hverified : result.verified = true) :
    (∀ later, now ≤ later → updateTarget sha256 registry disk t result args later = .ok none) ↔
      args.dependencies = none ∧ SettledMetadata current.toRecord args := by
  constructor
  · intro hidle
    exact ⟨(merging_of_idle (hidle now le_rfl)).1, h.settled_of_idle hidle⟩
  · rintro ⟨hdependencies, hsettled⟩ later -
    exact h.target_again hread hverified hdependencies hsettled later

end Repeat

/-! ## The guarantee -/

variable (sha256 registry disk) in
/-- The same call, at every later time, writes nothing and returns the record. -/
def Replays (artifactId : Text) (args : UpdateArgs) (now : ℤ) (result : Observed) (t : Directory) :
    Prop :=
  ∀ later token, now ≤ later →
    update sha256 registry disk artifactId args later token t = ⟨[], .ok result⟩

section Guarantee

variable {artifactId token : Text} {args : UpdateArgs} {now : ℤ} {current result : Observed}

/-- What an update that is accepted stores reads back, and the same call repeats without an effect,
exactly where no deadline is dropped, no claim is closed, no dependencies are named and the metadata
are settled. -/
theorem update_repeats_iff (hd : d.Wf)
    (hload : loadRecord sha256 registry disk d (safeManifestName sha256 artifactId) = .ok current)
    (h : (update sha256 registry disk artifactId args now token d).result = .ok result) :
    (ReadsBack current.toRecord args result.toRecord ↔
        ¬ DropsDeadline args ∧ ¬ ClosesClaim current.toRecord args) ∧
      (result.verified = true →
        (Replays sha256 registry disk artifactId args now result
            ((update sha256 registry disk artifactId args now token d).final d) ↔
          args.dependencies = none ∧ SettledMetadata current.toRecord args)) := by
  obtain ⟨found, ttlNs, merged, hfound, hstored, hagain⟩ := update_stored hd h
  rw [hload] at hfound
  obtain rfl := Except.ok.inj hfound
  refine ⟨stored_readsBack_iff hstored, fun hverified => ?_⟩
  obtain ⟨hid, hroot, -⟩ := update_eq_ok h
  rw [← hstored.idle_iff (readable_of_load hagain) hverified]
  constructor
  · intro hreplays later hlater
    exact target_of_idle hagain (hreplays later token hlater)
  · intro hidle later fresh hlater
    exact update_idle fresh hid hroot hagain (hidle later hlater)

end Guarantee

/-! ## One update -/

/-- An update that names nothing. -/
def noArguments : UpdateArgs where
  producer := none
  runId := none
  purpose := none
  state := none
  sourceRef := none
  digest := none
  dependencies := none
  retainUntilNs := none
  ttlNs := none
  ttl := none
  disposable := none
  metadata := none
  updatedNs := none

/-- The registry of `workbench` behind the registration of `scratch`. -/
def scratchRegistered : Directory :=
  (register scratchDigest workbench onePayload registerScratch 1 (lit "0") ⟨[], []⟩).final ⟨[], []⟩

theorem wf_scratchRegistered : scratchRegistered.Wf := by
  constructor
  · decide +kernel
  · decide +kernel

/-- `update("scratch", purpose="cache")`. -/
def givenPurpose : UpdateArgs := { noArguments with purpose := some (lit "cache") }

/-- `update("scratch", dependencies=[])`, of a record without dependencies. -/
def givenDependencies : UpdateArgs := { noArguments with dependencies := some [] }

/-- An update of `scratch`. -/
def updateScratch (args : UpdateArgs) (now : ℤ) (token : Text) (d : Directory) :
    Outcome Directory Raised Observed :=
  update scratchDigest workbench onePayload (lit "scratch") args now token d

/-- A new purpose is stored at time 2, and stays at every later time. -/
theorem update_repeats_purpose : ∃ result,
    (updateScratch givenPurpose 2 (lit "1") scratchRegistered).result = .ok result ∧
      Replays scratchDigest workbench onePayload (lit "scratch") givenPurpose 2 result
        ((updateScratch givenPurpose 2 (lit "1") scratchRegistered).final scratchRegistered) := by
  have hverified : (updateScratch givenPurpose 2 (lit "1") scratchRegistered).result.toOption.any
      (·.verified) = true := by
    decide +kernel
  have hloads : (loadRecord scratchDigest workbench onePayload scratchRegistered
      (safeManifestName scratchDigest (lit "scratch"))).toOption.isSome = true := by
    decide +kernel
  cases hrun : (updateScratch givenPurpose 2 (lit "1") scratchRegistered).result with
  | error e =>
    rw [hrun] at hverified
    cases hverified
  | ok result =>
    rw [hrun] at hverified
    cases hload : loadRecord scratchDigest workbench onePayload scratchRegistered
        (safeManifestName scratchDigest (lit "scratch")) with
    | error e =>
      rw [hload] at hloads
      cases hloads
    | ok current =>
      have hexact := update_repeats_iff wf_scratchRegistered hload hrun
      exact ⟨result, rfl, (hexact.2 hverified).mpr ⟨rfl, fun _ hgiven => by cases hgiven⟩⟩

/-- The dependencies that the record has, given at time 2 and again at any later time: the second call
does not return the record of the first one. -/
theorem update_dependencies_differs : ∃ current result,
    loadRecord scratchDigest workbench onePayload scratchRegistered
        (safeManifestName scratchDigest (lit "scratch")) = .ok current ∧
      current.verified = true ∧ current.dependencies = [] ∧
      (updateScratch givenDependencies 2 (lit "1") scratchRegistered).result = .ok result ∧
      result.verified = true ∧
      ∀ later token, 2 < later →
        (updateScratch givenDependencies later token
          ((updateScratch givenDependencies 2 (lit "1") scratchRegistered).final
            scratchRegistered)).result ≠ .ok result := by
  have hloads : (loadRecord scratchDigest workbench onePayload scratchRegistered
      (safeManifestName scratchDigest (lit "scratch"))).toOption.any
        (fun current => current.verified && current.dependencies.isEmpty) = true := by
    decide +kernel
  have hstores : (updateScratch givenDependencies 2 (lit "1") scratchRegistered).result.toOption.any
      (fun result => result.verified && result.updatedNs == 2) = true := by
    decide +kernel
  cases hload : loadRecord scratchDigest workbench onePayload scratchRegistered
      (safeManifestName scratchDigest (lit "scratch")) with
  | error e =>
    rw [hload] at hloads
    cases hloads
  | ok current =>
    cases hrun : (updateScratch givenDependencies 2 (lit "1") scratchRegistered).result with
    | error e =>
      rw [hrun] at hstores
      cases hstores
    | ok result =>
      rw [hload] at hloads
      rw [hrun] at hstores
      simp only [Except.toOption, Option.any_some, Bool.and_eq_true, List.isEmpty_iff,
        beq_iff_eq] at hloads hstores
      refine ⟨current, result, rfl, hloads.1, hloads.2, rfl, hstores.1, ?_⟩
      intro later token hlater hagain
      obtain ⟨_, _, _, -, -, hstored⟩ := update_stored wf_scratchRegistered hrun
      have hupdated := updatedNs_of_listed (wf_final wf_scratchRegistered hrun) hstored
        (Option.some_ne_none []) hagain
      have htime : givenDependencies.updatedNs.getD later = later := rfl
      rw [htime, hstores.2] at hupdated
      omega

end Artifacts
end Neocortex
