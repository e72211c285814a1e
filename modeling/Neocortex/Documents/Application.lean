import Neocortex.Library.Rows
import Neocortex.Python.Text

/-!
# Applying the organization plans

`document_organization_application`: a batch attempts the first plans of the catalog, ready ones before
the moves whose cache is not synchronised yet, and synchronises all moves of the batch at once;
`_apply_all_document_organization_locked` repeats it until nothing can progress.

What the file system, the catalog and the caches answer to one attempt is an `Attempt`; the answers
may be others in every batch.  The columns that only describe a plan are left out.

* `applyOrganizationRow`, `applyRow`, `resolveCacheSync`, `applyDocumentOrganization`: one batch, with
  the log of its attempts and of its synchronisation.
* `applyAll`: `_apply_all_document_organization_locked`.
* `settled`, `replay`: the status that the answers of a log leave to a plan.
* `Progress`: what holds behind every row of a batch; `batch_spec`: what a batch leaves.
* `applyAll_spec`: the loop ends, every plan has the status of the answers it got, and the counters are
  those of the plans that came into each status.
-/

namespace Neocortex
namespace Documents

open Python Rows

/-! ## Plans -/

inductive PlanStatus where
  | planned
  | applying
  | movedCachePending
  | applied
  | stale
  | blocked
  | failed
  | recoveryRequired
  /-- A status that the application neither reads nor writes. -/
  | other (status : Text)
  deriving DecidableEq

/-- A row of `organization_plans`. -/
structure Plan where
  planId : ℤ
  organizationRoot : Text
  status : PlanStatus
  deriving DecidableEq

/-- `status IN ('planned','applying')`. -/
def PlanStatus.ready : PlanStatus → Bool
  | .planned => true
  | .applying => true
  | _ => false

/-- `status IN ('planned','applying','moved_cache_pending')`. -/
def PlanStatus.actionable (s : PlanStatus) : Bool := s.ready || s = .movedCachePending

def Plan.ready (root : Text) (row : Plan) : Bool := row.organizationRoot = root && row.status.ready

def Plan.actionable (root : Text) (row : Plan) : Bool :=
  row.organizationRoot = root && row.status.actionable

def Plan.cachePending (root : Text) (row : Plan) : Bool :=
  row.organizationRoot = root && row.status = .movedCachePending

/-- `CASE status WHEN 'applying' THEN 0 WHEN 'planned' THEN 1 ELSE 2 END`. -/
def PlanStatus.rank : PlanStatus → ℕ
  | .applying => 0
  | .planned => 1
  | _ => 2

/-- `ORDER BY CASE status …, plan_id`. -/
def Plan.before (a b : Plan) : Prop :=
  a.status.rank < b.status.rank ∨ a.status.rank = b.status.rank ∧ a.planId ≤ b.planId

instance Plan.decidableBefore : DecidableRel Plan.before := fun a b =>
  inferInstanceAs (Decidable (a.status.rank < b.status.rank ∨
    a.status.rank = b.status.rank ∧ a.planId ≤ b.planId))

/-- `UPDATE organization_plans SET status=… WHERE plan_id=…`. -/
def setStatus (planId : ℤ) (status : PlanStatus) (rows : List Plan) : List Plan :=
  updateWhere (fun row => decide (row.planId = planId)) (fun row => { row with status := status }) rows

/-- `_select_organization_apply_rows`. -/
def selectApplyRows (root : Text) (maxActions : ℕ) (rows : List Plan) : List Plan :=
  ((rows.filter fun row => row.actionable root).insertionSort Plan.before).take maxActions

/-- `_remaining_organization_apply_rows` and `_organization_actionable_count`. -/
def actionableCount (root : Text) (rows : List Plan) : ℕ := rows.countP fun row => row.actionable root

/-- `_has_ready_organization_plans`. -/
def hasReady (root : Text) (rows : List Plan) : Bool := rows.any fun row => row.ready root

/-! ## One plan -/

/-- The statuses of `_OrganizationFilesystemOutcome`. -/
inductive FilesystemStatus where
  | moved
  | blocked
  | stale
  | failed
  | recoveryRequired

/-- What one attempt at a plan meets. -/
structure Attempt where
  /-- `protected_denials.get(plan_id)`. -/
  denial : Option Text
  /-- `_catalog_destination_conflict`, behind `_disambiguate_apply_destination`. -/
  conflict : Bool
  /-- `_apply_one_plan(...).status`. -/
  filesystem : FilesystemStatus
  /-- `_rebind_current_catalog_document` raises nothing in `_record_moved_path`. -/
  rebound : Bool
  /-- `_validate_pending_organization_move` returns a receipt. -/
  validated : Bool

/-- `_ApplyRowOutcome`. -/
structure RowOutcome where
  status : PlanStatus
  cacheSynced : Bool := false
  cachePending : Bool := false
  advisoryBlocked : Bool := false

/-- `is_advisory_organization_block`. -/
def isAdvisoryOrganizationBlock (reason : Text) : Bool :=
  [lit "organization_plan_advisory_only", lit "organization_authorized_backend_unavailable"].contains
    reason

/-- `_record_protected_organization_plan`. -/
def recordProtectedPlan (row : Plan) (detail : Text) (rows : List Plan) : List Plan × RowOutcome :=
  if row.status = .applying ∨ row.status = .movedCachePending then
    (setStatus row.planId .recoveryRequired rows, { status := .recoveryRequired })
  else
    (setStatus row.planId .blocked rows,
      { status := .blocked, advisoryBlocked := isAdvisoryOrganizationBlock detail })

/-- The last `UPDATE` of `_apply_selected_organization_plan`. -/
def closePlan (row : Plan) (status : PlanStatus) (rows : List Plan) : List Plan × RowOutcome :=
  (setStatus row.planId status rows, { status })

/-- A moved plan: `_validate_pending_organization_move`, and no synchronisation of its own. -/
def validatePending (row : Plan) (attempt : Attempt) (rows : List Plan) : List Plan × RowOutcome :=
  if attempt.validated then (rows, { status := .movedCachePending, cachePending := true })
  else closePlan row .recoveryRequired rows

/-- `_apply_selected_organization_plan(..., synchronize_cache=False)`. -/
def applySelectedPlan (row : Plan) (attempt : Attempt) (rows : List Plan) : List Plan × RowOutcome :=
  if row.status = .movedCachePending then validatePending row attempt rows
  else if attempt.conflict then closePlan row .blocked rows
  else
    let rows := if row.status = .planned then setStatus row.planId .applying rows else rows
    match attempt.filesystem with
    | .moved =>
      if attempt.rebound then
        validatePending row attempt (setStatus row.planId .movedCachePending rows)
      else closePlan row .recoveryRequired rows
    | .blocked => closePlan row .blocked rows
    | .stale => closePlan row .stale rows
    | .failed => closePlan row .failed rows
    | .recoveryRequired => closePlan row .recoveryRequired rows

/-- `_apply_organization_row`. -/
def applyOrganizationRow (row : Plan) (attempt : Attempt) (rows : List Plan) :
    List Plan × RowOutcome :=
  match attempt.denial with
  | some detail => recordProtectedPlan row detail rows
  | none => applySelectedPlan row attempt rows

/-! ## One batch -/

/-- `_OrganizationApplyCounters`. -/
structure Counters where
  applied : ℕ := 0
  stale : ℕ := 0
  blocked : ℕ := 0
  failed : ℕ := 0
  cacheSynced : ℕ := 0
  cachePending : ℕ := 0
  advisoryBlocked : ℕ := 0

/-- `_OrganizationApplyCounters.record`. -/
def Counters.record (c : Counters) (outcome : RowOutcome) : Counters :=
  if outcome.cacheSynced then
    { c with applied := c.applied + 1, cacheSynced := c.cacheSynced + 1 }
  else if outcome.cachePending then { c with cachePending := c.cachePending + 1 }
  else if outcome.status = .stale then { c with stale := c.stale + 1 }
  else if outcome.status = .blocked then
    { c with
      blocked := c.blocked + 1
      advisoryBlocked := c.advisoryBlocked + if outcome.advisoryBlocked then 1 else 0 }
  else { c with failed := c.failed + 1 }

/-- `resolve_cache_sync`; `none` is its `ValueError`. -/
def Counters.resolveCacheSync (c : Counters) (count : ℕ) (complete : Bool) : Option Counters :=
  if c.cachePending < count then none
  else if !complete then some c
  else some
    { c with
      cachePending := c.cachePending - count
      applied := c.applied + count
      cacheSynced := c.cacheSynced + count }

/-- What a batch does to plans: the attempt at a plan, as it was selected, and the synchronisation of
the moved ones. -/
inductive Event where
  | attempted (row : Plan)
  | synchronized (planIds : List ℤ)
  deriving DecidableEq

/-- What a batch has done so far: the table, the counters and `pending_rows`, and the log of it. -/
structure Batch where
  rows : List Plan
  counters : Counters
  pending : List Plan
  log : List Event

/-- One turn of the loop of `_apply_selected_organization_rows`. -/
def applyRow (attempts : ℤ → Attempt) (b : Batch) (row : Plan) : Batch :=
  let applied := applyOrganizationRow row (attempts row.planId) b.rows
  { rows := applied.1
    counters := b.counters.record applied.2
    pending :=
      if applied.2.cachePending then
        b.pending ++ (applied.1.find? fun r => decide (r.planId = row.planId)).toList
      else b.pending
    log := b.log ++ [.attempted row] }

/-- The updates behind `synchronize_moved_documents`. -/
def settlePending (complete : Bool) (pending rows : List Plan) : List Plan :=
  pending.foldl (fun rows row =>
    setStatus row.planId (if complete then .applied else .movedCachePending) rows) rows

/-- The part of `_apply_selected_organization_rows` behind its loop. -/
def synchronizePending (complete : Bool) (b : Batch) : Option Batch :=
  if b.pending.isEmpty then some b
  else do
    let counters ← b.counters.resolveCacheSync b.pending.length complete
    some { b with
      counters
      rows := settlePending complete b.pending b.rows
      log := b.log ++ [.synchronized (b.pending.map Plan.planId)] }

/-- `OrganizationApplySummary`. -/
structure ApplySummary where
  selected : ℕ := 0
  applied : ℕ := 0
  stale : ℕ := 0
  blocked : ℕ := 0
  failed : ℕ := 0
  cacheSynced : ℕ := 0
  cachePending : ℕ := 0
  batches : ℕ := 1
  remaining : ℕ := 0
  advisoryBlocked : ℕ := 0

/-- `current.applied + current.stale + current.blocked + current.failed`. -/
def ApplySummary.finalized (s : ApplySummary) : ℕ := s.applied + s.stale + s.blocked + s.failed

/-- `_OrganizationApplyCounters.summary`. -/
def Counters.summary (c : Counters) (selected remaining : ℕ) : ApplySummary where
  selected
  applied := c.applied
  stale := c.stale
  blocked := c.blocked
  failed := c.failed
  cacheSynced := c.cacheSynced
  cachePending := c.cachePending
  advisoryBlocked := c.advisoryBlocked
  remaining

/-- `apply_document_organization`: the batch, and its summary. -/
def applyDocumentOrganization (attempts : ℤ → Attempt) (complete : Bool) (root : Text)
    (maxActions : ℕ) (rows : List Plan) : Option (Batch × ApplySummary) := do
  let selected := selectApplyRows root maxActions rows
  let b ← synchronizePending complete (selected.foldl (applyRow attempts) ⟨rows, {}, [], []⟩)
  some (b, b.counters.summary selected.length (actionableCount root b.rows))

/-! ## All batches -/

/-- What the loop of `_apply_all_document_organization_locked` has done so far, with the log of its
batches, each event with the number of its batch. -/
structure ApplyRun where
  rows : List Plan
  totals : ApplySummary
  log : List (ℕ × Event)

/-- `selected += current.selected`, and the other totals. -/
def ApplySummary.add (totals current : ApplySummary) : ApplySummary where
  selected := totals.selected + current.selected
  applied := totals.applied + current.applied
  stale := totals.stale + current.stale
  blocked := totals.blocked + current.blocked
  failed := totals.failed + current.failed
  cacheSynced := totals.cacheSynced + current.cacheSynced
  advisoryBlocked := totals.advisoryBlocked + current.advisoryBlocked
  batches := totals.batches + 1
  cachePending := current.remaining
  remaining := current.remaining

/-- The two `break`s of the loop. -/
def stops (root : Text) (rows : List Plan) (current : ApplySummary) : Bool :=
  current.remaining = 0 || current.selected = 0 || current.finalized = 0 && !hasReady root rows

/-- `while True`; the first argument bounds the number of batches.  The answers of the world are those
of the batch under way. -/
def applyBatches (attempts : ℕ → ℤ → Attempt) (complete : ℕ → Bool) (root : Text) (batchSize : ℕ) :
    ℕ → ApplyRun → Option ApplyRun
  | 0, _ => none
  | fuel + 1, run => do
    let batch ← applyDocumentOrganization (attempts run.totals.batches) (complete run.totals.batches)
      root batchSize run.rows
    let next : ApplyRun :=
      { rows := batch.1.rows
        totals := run.totals.add batch.2
        log := run.log ++ batch.1.log.map fun e => (run.totals.batches, e) }
    if stops root batch.1.rows batch.2 then some next
    else applyBatches attempts complete root batchSize fuel next

/-- `_apply_all_document_organization_locked`. -/
def applyAll (attempts : ℕ → ℤ → Attempt) (complete : ℕ → Bool) (root : Text) (batchSize : ℕ)
    (rows : List Plan) (fuel : ℕ) : Option ApplyRun :=
  applyBatches attempts complete root batchSize fuel ⟨rows, { batches := 0 }, []⟩

/-! ## What the answers say -/

/-- The status of a moved plan: its cache is pending, unless the move cannot be validated. -/
def settledMove (attempt : Attempt) : PlanStatus :=
  if attempt.validated then .movedCachePending else .recoveryRequired

/-- The status that an attempt leaves to a plan without denial. -/
def settledSelected (attempt : Attempt) (status : PlanStatus) : PlanStatus :=
  if status = .movedCachePending then settledMove attempt
  else if attempt.conflict then .blocked
  else
    match attempt.filesystem with
    | .moved => if attempt.rebound then settledMove attempt else .recoveryRequired
    | .blocked => .blocked
    | .stale => .stale
    | .failed => .failed
    | .recoveryRequired => .recoveryRequired

/-- The status that an attempt leaves to a plan.  A denial never takes back what was begun. -/
def settled (attempt : Attempt) (status : PlanStatus) : PlanStatus :=
  if attempt.denial.isSome then
    if status = .applying ∨ status = .movedCachePending then .recoveryRequired else .blocked
  else settledSelected attempt status

/-- A plan behind an event of a batch. -/
def Event.after (attempts : ℤ → Attempt) (complete : Bool) : Event → Plan → Plan
  | .attempted row, plan =>
    if plan.planId = row.planId then
      { plan with status := settled (attempts plan.planId) plan.status }
    else plan
  | .synchronized planIds, plan =>
    if plan.planId ∈ planIds then
      { plan with status := if complete then .applied else .movedCachePending }
    else plan

/-- A plan behind the events of one batch. -/
def replayBatch (attempts : ℤ → Attempt) (complete : Bool) (log : List Event) (plan : Plan) : Plan :=
  log.foldl (fun plan e => e.after attempts complete plan) plan

/-- A plan behind the events of a log: the answers are those of the batch of each event. -/
def replay (attempts : ℕ → ℤ → Attempt) (complete : ℕ → Bool) (log : List (ℕ × Event)) (plan : Plan) :
    Plan :=
  log.foldl (fun plan e => e.2.after (attempts e.1) (complete e.1) plan) plan

theorem replayBatch_append {attempts : ℤ → Attempt} {complete : Bool} (log : List Event) (e : Event)
    (plan : Plan) : replayBatch attempts complete (log ++ [e]) plan =
      e.after attempts complete (replayBatch attempts complete log plan) := by
  rw [replayBatch, List.foldl_append]
  rfl

theorem replay_append {attempts : ℕ → ℤ → Attempt} {complete : ℕ → Bool} (log : List (ℕ × Event))
    (batch : ℕ) (more : List Event) (plan : Plan) :
    replay attempts complete (log ++ more.map fun e => (batch, e)) plan =
      replayBatch (attempts batch) (complete batch) more (replay attempts complete log plan) := by
  rw [replay, List.foldl_append, List.foldl_map]
  rfl

/-- The plans of the root in one of the statuses. -/
def Plan.inStatus (root : Text) (statuses : List PlanStatus) (row : Plan) : Bool :=
  row.organizationRoot = root && statuses.contains row.status

/-! ## Tables of plans -/

section Tables

variable {rows : List Plan} {root : Text}

theorem unique_setStatus (h : Unique Plan.planId rows) (id : ℤ) (status : PlanStatus) :
    Unique Plan.planId (setStatus id status rows) :=
  unique_updateWhere h fun _ _ _ => rfl

/-- The last status of a plan is the one that counts. -/
theorem setStatus_setStatus (id : ℤ) (first last : PlanStatus) (rows : List Plan) :
    setStatus id last (setStatus id first rows) = setStatus id last rows := by
  rw [setStatus, setStatus, setStatus, updateWhere, updateWhere, updateWhere, List.map_map]
  refine List.map_congr_left fun row _ => ?_
  by_cases hid : row.planId = id <;> simp [hid]

/-- A plan that has the status is left as it is. -/
theorem setStatus_self (h : Unique Plan.planId rows) {row : Plan} (hrow : row ∈ rows) :
    setStatus row.planId row.status rows = rows := by
  refine updateWhere_eq_self fun other hother hid => ?_
  rw [h.eq hother hrow (of_decide_eq_true hid)]

theorem mem_setStatus_of_ne {row : Plan} {id : ℤ} {status : PlanStatus} (hrow : row ∈ rows)
    (hne : row.planId ≠ id) : row ∈ setStatus id status rows :=
  mem_updateWhere.mpr ⟨row, hrow, by rw [if_neg (by simpa using hne)]⟩

theorem mem_setStatus_self {row : Plan} {status : PlanStatus} (hrow : row ∈ rows) :
    { row with status := status } ∈ setStatus row.planId status rows :=
  mem_updateWhere.mpr ⟨row, hrow, by rw [if_pos (by simp)]⟩

/-- What a new status changes in a count. -/
theorem countP_setStatus (q : Plan → Bool) {row : Plan} (status : PlanStatus)
    (h : Unique Plan.planId rows) (hrow : row ∈ rows) :
    (setStatus row.planId status rows).countP q + (if q row then 1 else 0) =
      rows.countP q + (if q { row with status := status } then 1 else 0) := by
  induction rows with
  | nil => exact absurd hrow (by simp)
  | cons first rest ih =>
    have hne := (List.pairwise_cons.mp h).1
    have hrest := (List.pairwise_cons.mp h).2
    rw [setStatus, updateWhere_cons, List.countP_cons, List.countP_cons]
    rcases List.mem_cons.mp hrow with rfl | hmem
    · have hothers : updateWhere (fun r : Plan => decide (r.planId = row.planId))
          (fun r => { r with status := status }) rest = rest :=
        updateWhere_eq_self fun other hother hid => absurd (of_decide_eq_true hid).symm
          (hne other hother)
      have hhead : (if decide (row.planId = row.planId) = true then { row with status := status }
          else row) = { row with status := status } := if_pos (by simp)
      rw [hothers, hhead]
      omega
    · have hfirst : first.planId ≠ row.planId := hne row hmem
      have hhead : (if decide (first.planId = row.planId) = true then
          { first with status := status } else first) = first := if_neg (by simpa using hfirst)
      have hcount := ih hrest hmem
      rw [setStatus] at hcount
      rw [hhead]
      omega

/-- What a new status of an actionable plan changes in the count of statuses that are not
actionable. -/
theorem countP_inStatus_setStatus {statuses : List PlanStatus}
    (hclosed : ∀ s ∈ statuses, s.actionable = false) {row : Plan} (status : PlanStatus)
    (h : Unique Plan.planId rows) (hrow : row ∈ rows) (hact : row.actionable root = true) :
    (setStatus row.planId status rows).countP (Plan.inStatus root statuses) =
      rows.countP (Plan.inStatus root statuses) + if status ∈ statuses then 1 else 0 := by
  obtain ⟨hroot, hactionable⟩ : row.organizationRoot = root ∧ row.status.actionable = true := by
    simpa [Plan.actionable] using hact
  have hold : row.status ∉ statuses := fun hmem => by
    rw [hclosed _ hmem] at hactionable
    exact absurd hactionable Bool.false_ne_true
  have e := countP_setStatus (Plan.inStatus root statuses) status h hrow
  simpa [Plan.inStatus, hroot, hold] using e

/-- The plans of a batch are actionable plans of the table, each once. -/
theorem mem_selectApplyRows {maxActions : ℕ} {row : Plan}
    (h : row ∈ selectApplyRows root maxActions rows) : row ∈ rows ∧ row.actionable root = true := by
  have hmem := List.mem_of_mem_take h
  rw [List.mem_insertionSort, List.mem_filter] at hmem
  exact hmem

theorem nodup_selectApplyRows (h : Unique Plan.planId rows) (maxActions : ℕ) :
    ((selectApplyRows root maxActions rows).map Plan.planId).Nodup := by
  have hfilter : ((rows.filter fun row => row.actionable root).map Plan.planId).Nodup :=
    (unique_iff_nodup.mp h).sublist (List.filter_sublist.map _)
  have hsort := ((List.perm_insertionSort Plan.before
    (rows.filter fun row => row.actionable root)).map Plan.planId).nodup_iff.mpr hfilter
  exact hsort.sublist ((List.take_sublist _ _).map _)

/-- A batch that selects nothing finds nothing actionable. -/
theorem actionableCount_eq_zero {maxActions : ℕ} (hmax : 0 < maxActions)
    (h : selectApplyRows root maxActions rows = []) : actionableCount root rows = 0 := by
  rw [selectApplyRows, List.take_eq_nil_iff] at h
  have hsort : (rows.filter fun row => row.actionable root).insertionSort Plan.before = [] := by
    rcases h with h | h
    · omega
    · exact h
  have hfilter := (List.perm_insertionSort Plan.before
    (rows.filter fun row => row.actionable root)).symm
  rw [hsort, List.perm_nil] at hfilter
  rw [actionableCount, List.countP_eq_length_filter, hfilter, List.length_nil]

instance Plan.totalBefore : Std.Total Plan.before where
  total a b := by
    unfold Plan.before
    omega

instance Plan.transBefore : IsTrans Plan Plan.before where
  trans a b c := by
    unfold Plan.before
    omega

theorem PlanStatus.ready_iff {s : PlanStatus} : s.ready = true ↔ s.rank < 2 := by
  cases s <;> simp [PlanStatus.ready, PlanStatus.rank]

/-- While a plan is ready, a batch selects a ready one. -/
theorem exists_ready_selected {maxActions : ℕ} (hmax : 0 < maxActions) {row : Plan}
    (hrow : row ∈ rows) (hready : row.ready root = true) :
    ∃ first ∈ selectApplyRows root maxActions rows, first.ready root = true := by
  have hroot : row.organizationRoot = root ∧ row.status.ready = true := by
    simpa [Plan.ready] using hready
  have hact : row.actionable root = true := by
    simp [Plan.actionable, PlanStatus.actionable, hroot]
  have hmem : row ∈ (rows.filter fun row => row.actionable root).insertionSort Plan.before := by
    rw [List.mem_insertionSort, List.mem_filter]
    exact ⟨hrow, hact⟩
  have hsorted := List.pairwise_insertionSort Plan.before
    (rows.filter fun row => row.actionable root)
  cases hl : (rows.filter fun row => row.actionable root).insertionSort Plan.before with
  | nil =>
    rw [hl] at hmem
    exact absurd hmem (by simp)
  | cons first rest =>
    rw [hl] at hmem hsorted
    obtain ⟨n, rfl⟩ : ∃ n, maxActions = n + 1 := ⟨maxActions - 1, by omega⟩
    have hselected : first ∈ selectApplyRows root (n + 1) rows := by
      rw [selectApplyRows, hl, List.take_succ_cons]
      exact List.mem_cons_self
    have hrank : first.status.rank ≤ row.status.rank := by
      rcases List.mem_cons.mp hmem with rfl | hrest
      · exact le_rfl
      · rcases (List.pairwise_cons.mp hsorted).1 row hrest with h | h
        · exact h.le
        · exact h.1.le
    have hfirst : first.organizationRoot = root := by
      have h := (mem_selectApplyRows hselected).2
      rw [Plan.actionable, Bool.and_eq_true, decide_eq_true_eq] at h
      exact h.1
    have hlt := PlanStatus.ready_iff.mp hroot.2
    refine ⟨first, hselected, ?_⟩
    simp [Plan.ready, hfirst, PlanStatus.ready_iff.mpr (lt_of_le_of_lt hrank hlt)]

end Tables

/-! ## One attempt -/

section Attempts

variable {rows : List Plan} {root : Text} {row : Plan}

/-- What one attempt leaves: the plan has a new status, and the outcome says which. -/
structure Attempted (row : Plan) (rows : List Plan) (result : List Plan × RowOutcome)
    (status : PlanStatus) : Prop where
  rows : result.1 = setStatus row.planId status rows
  outcome : result.2.status = status
  cacheSynced : result.2.cacheSynced = false
  cachePending : result.2.cachePending = decide (status = .movedCachePending)
  status : status ∈ [.movedCachePending, .stale, .blocked, .failed, .recoveryRequired]

theorem attempted_close {status : PlanStatus} (h : status ∈ [.stale, .blocked, .failed,
    .recoveryRequired]) : Attempted row rows (closePlan row status rows) status where
  rows := rfl
  outcome := rfl
  cacheSynced := rfl
  cachePending := by
    refine (decide_eq_false ?_).symm
    rintro rfl
    exact absurd h (by decide)
  status := List.mem_cons_of_mem _ h

/-- A close behind an earlier update of the same plan. -/
theorem Attempted.of_setStatus {result : List Plan × RowOutcome} {first status : PlanStatus}
    (h : Attempted row (setStatus row.planId first rows) result status) :
    Attempted row rows result status :=
  ⟨h.rows.trans (setStatus_setStatus _ _ _ _), h.outcome, h.cacheSynced, h.cachePending, h.status⟩

/-- A moved plan stays pending, or needs recovery. -/
theorem attempted_validate (attempt : Attempt)
    (hpending : setStatus row.planId .movedCachePending rows = rows) :
    Attempted row rows (validatePending row attempt rows) (settledMove attempt) := by
  rw [validatePending, settledMove]
  cases attempt.validated with
  | true => exact ⟨hpending.symm, rfl, rfl, rfl, by simp⟩
  | false => exact attempted_close (by simp)

theorem attempted_selected (attempt : Attempt) (h : Unique Plan.planId rows) (hrow : row ∈ rows) :
    Attempted row rows (applySelectedPlan row attempt rows) (settledSelected attempt row.status) := by
  rw [applySelectedPlan, settledSelected]
  by_cases hpending : row.status = .movedCachePending
  · rw [if_pos hpending, if_pos hpending]
    refine attempted_validate attempt ?_
    rw [← hpending]
    exact setStatus_self h hrow
  · rw [if_neg hpending, if_neg hpending]
    cases attempt.conflict with
    | true => exact attempted_close (by simp)
    | false =>
      -- the intent is recorded first; the update that follows overwrites it
      have hintent : ∀ {status : PlanStatus} {result : List Plan × RowOutcome},
          Attempted row (if row.status = .planned then setStatus row.planId .applying rows else rows)
            result status → Attempted row rows result status := by
        intro status result hresult
        by_cases hplanned : row.status = .planned
        · rw [if_pos hplanned] at hresult
          exact hresult.of_setStatus
        · rwa [if_neg hplanned] at hresult
      rw [if_neg Bool.false_ne_true, if_neg Bool.false_ne_true]
      cases attempt.filesystem with
      | moved =>
        cases attempt.rebound with
        | true =>
          have hmoved : setStatus row.planId .movedCachePending (setStatus row.planId
              .movedCachePending (if row.status = .planned then setStatus row.planId .applying rows
                else rows)) = _ := setStatus_setStatus _ _ _ _
          exact hintent (attempted_validate attempt hmoved).of_setStatus
        | false => exact hintent (attempted_close (by simp))
      | blocked => exact hintent (attempted_close (by simp))
      | stale => exact hintent (attempted_close (by simp))
      | failed => exact hintent (attempted_close (by simp))
      | recoveryRequired => exact hintent (attempted_close (by simp))

/-- **One attempt.**  The plan gets the status of the answers. -/
theorem attempted_row (attempt : Attempt) (h : Unique Plan.planId rows) (hrow : row ∈ rows) :
    Attempted row rows (applyOrganizationRow row attempt rows) (settled attempt row.status) := by
  rw [applyOrganizationRow, settled]
  cases attempt.denial with
  | none => exact attempted_selected attempt h hrow
  | some detail =>
    show Attempted row rows (recordProtectedPlan row detail rows)
      (if row.status = .applying ∨ row.status = .movedCachePending then .recoveryRequired else .blocked)
    rw [recordProtectedPlan]
    by_cases hstarted : row.status = .applying ∨ row.status = .movedCachePending
    · rw [if_pos hstarted, if_pos hstarted]
      exact ⟨rfl, rfl, rfl, rfl, by simp⟩
    · rw [if_neg hstarted, if_neg hstarted]
      exact ⟨rfl, rfl, rfl, rfl, by simp⟩

end Attempts

/-! ## One batch, row by row -/

section Batches

variable {rows done todo : List Plan} {root : Text} {row : Plan} {b : Batch}

theorem record_pending {c : Counters} {o : RowOutcome} (hsynced : o.cacheSynced = false)
    (hpending : o.cachePending = true) :
    c.record o = { c with cachePending := c.cachePending + 1 } := by
  simp [Counters.record, hsynced, hpending]

/-- An outcome that is not pending is counted once, as stale, blocked or failed. -/
theorem record_closed {c : Counters} {o : RowOutcome} {status : PlanStatus}
    (hstatus : o.status = status) (hclosed : status ∈ [.stale, .blocked, .failed, .recoveryRequired])
    (hsynced : o.cacheSynced = false) (hpending : o.cachePending = false) :
    (c.record o).stale = c.stale + (if status ∈ [.stale] then 1 else 0) ∧
      (c.record o).blocked = c.blocked + (if status ∈ [.blocked] then 1 else 0) ∧
      (c.record o).failed = c.failed + (if status ∈ [.failed, .recoveryRequired] then 1 else 0) ∧
      (c.record o).applied = c.applied ∧ (c.record o).cacheSynced = c.cacheSynced ∧
      (c.record o).cachePending = c.cachePending := by
  rw [Counters.record, if_neg (by simp [hsynced]), if_neg (by simp [hpending]), hstatus]
  simp only [List.mem_cons, List.not_mem_nil, or_false] at hclosed
  rcases hclosed with rfl | rfl | rfl | rfl <;> simp

/-- The counters are the plans of the root that came into each status. -/
structure Counted (root : Text) (rows rows' : List Plan) (applied stale blocked failed : ℕ) : Prop where
  applied : rows'.countP (Plan.inStatus root [.applied]) =
    rows.countP (Plan.inStatus root [.applied]) + applied
  stale : rows'.countP (Plan.inStatus root [.stale]) =
    rows.countP (Plan.inStatus root [.stale]) + stale
  blocked : rows'.countP (Plan.inStatus root [.blocked]) =
    rows.countP (Plan.inStatus root [.blocked]) + blocked
  failed : rows'.countP (Plan.inStatus root [.failed, .recoveryRequired]) =
    rows.countP (Plan.inStatus root [.failed, .recoveryRequired]) + failed

theorem Counted.refl (root : Text) (rows : List Plan) : Counted root rows rows 0 0 0 0 :=
  ⟨rfl, rfl, rfl, rfl⟩

theorem Counted.trans {rows₁ rows₂ rows₃ : List Plan} {a₁ s₁ b₁ f₁ a₂ s₂ b₂ f₂ : ℕ}
    (h : Counted root rows₁ rows₂ a₁ s₁ b₁ f₁) (h' : Counted root rows₂ rows₃ a₂ s₂ b₂ f₂) :
    Counted root rows₁ rows₃ (a₁ + a₂) (s₁ + s₂) (b₁ + b₂) (f₁ + f₂) where
  applied := by rw [h'.applied, h.applied, Nat.add_assoc]
  stale := by rw [h'.stale, h.stale, Nat.add_assoc]
  blocked := by rw [h'.blocked, h.blocked, Nat.add_assoc]
  failed := by rw [h'.failed, h.failed, Nat.add_assoc]

/-- A plan that comes into a status. -/
theorem counted_setStatus (status : PlanStatus) (h : Unique Plan.planId rows) (hrow : row ∈ rows)
    (hact : row.actionable root = true) :
    Counted root rows (setStatus row.planId status rows) (if status ∈ [.applied] then 1 else 0)
      (if status ∈ [.stale] then 1 else 0) (if status ∈ [.blocked] then 1 else 0)
      (if status ∈ [.failed, .recoveryRequired] then 1 else 0) where
  applied := countP_inStatus_setStatus (by decide) status h hrow hact
  stale := countP_inStatus_setStatus (by decide) status h hrow hact
  blocked := countP_inStatus_setStatus (by decide) status h hrow hact
  failed := countP_inStatus_setStatus (by decide) status h hrow hact

/-- What holds behind the rows `done` of a batch that still has `todo` to attempt. -/
structure Progress (attempts : ℤ → Attempt) (complete : Bool) (root : Text)
    (rows done todo : List Plan) (b : Batch) : Prop where
  unique : Unique Plan.planId b.rows
  todo : ∀ row ∈ todo, row ∈ b.rows ∧ row.actionable root = true
  count : actionableCount root b.rows +
    (b.counters.stale + b.counters.blocked + b.counters.failed) = actionableCount root rows
  ready : b.rows.countP (Plan.ready root) + done.countP (Plan.ready root) =
    rows.countP (Plan.ready root)
  /-- The table is the one that the log leaves. -/
  replayed : b.rows = rows.map (replayBatch attempts complete b.log)
  counted : Counted root rows b.rows b.counters.applied b.counters.stale b.counters.blocked
    b.counters.failed
  kept : ∀ row ∈ rows, row.ready root = true → .attempted row ∈ b.log ∨ row ∈ b.rows
  applied : b.counters.applied = 0
  cacheSynced : b.counters.cacheSynced = 0
  cachePending : b.counters.cachePending = b.pending.length
  pending : ∀ row ∈ b.pending, row ∈ b.rows ∧ row.cachePending root = true ∧
    row.planId ∈ done.map Plan.planId
  nodup : (b.pending.map Plan.planId).Nodup

theorem progress_start (attempts : ℤ → Attempt) (complete : Bool) (root : Text) (maxActions : ℕ)
    (h : Unique Plan.planId rows) :
    Progress attempts complete root rows [] (selectApplyRows root maxActions rows)
      ⟨rows, {}, [], []⟩ where
  unique := h
  todo _ hrow := mem_selectApplyRows hrow
  count := by simp
  ready := by simp
  replayed := (List.map_id rows).symm
  counted := Counted.refl root rows
  kept _ hrow _ := .inr hrow
  applied := rfl
  cacheSynced := rfl
  cachePending := rfl
  pending := by simp
  nodup := List.nodup_nil

/-- The update of an attempt is its event. -/
theorem setStatus_eq_after (attempts : ℤ → Attempt) (complete : Bool) (h : Unique Plan.planId rows)
    (hrow : row ∈ rows) : setStatus row.planId (settled (attempts row.planId) row.status) rows =
      rows.map ((Event.attempted row).after attempts complete) := by
  rw [setStatus, updateWhere]
  refine List.map_congr_left fun other hother => ?_
  by_cases hid : other.planId = row.planId
  · rw [h.eq hother hrow hid]
    simp [Event.after]
  · simp [Event.after, hid]

/-- The new status of a plan decides where it counts. -/
theorem actionable_of_attempted {status : PlanStatus}
    (h : status ∈ [.movedCachePending, .stale, .blocked, .failed, .recoveryRequired]) :
    status.actionable = decide (status = .movedCachePending) ∧ status.ready = false := by
  simp only [List.mem_cons, List.not_mem_nil, or_false] at h
  rcases h with rfl | rfl | rfl | rfl | rfl <;> decide

/-- One more row. -/
theorem Progress.step {attempts : ℤ → Attempt} {complete : Bool}
    (h : Progress attempts complete root rows done (row :: todo) b)
    (hnodup : ((done ++ row :: todo).map Plan.planId).Nodup) :
    Progress attempts complete root rows (done ++ [row]) todo (applyRow attempts b row) := by
  obtain ⟨hrow, hact⟩ := h.todo row List.mem_cons_self
  obtain ⟨hroot, hactionable⟩ : row.organizationRoot = root ∧ row.status.actionable = true := by
    simpa [Plan.actionable] using hact
  obtain ⟨status, hstatus⟩ : ∃ s, s = settled (attempts row.planId) row.status := ⟨_, rfl⟩
  have hattempt : Attempted row b.rows (applyOrganizationRow row (attempts row.planId) b.rows)
      status := by
    rw [hstatus]
    exact attempted_row (attempts row.planId) h.unique hrow
  obtain ⟨hnew, hnewready⟩ := actionable_of_attempted hattempt.status
  rw [List.map_append, List.map_cons, List.nodup_append] at hnodup
  obtain ⟨-, hright, hdisjoint⟩ := hnodup
  have hfresh : row.planId ∉ done.map Plan.planId := fun hm =>
    hdisjoint _ hm _ List.mem_cons_self rfl
  have hlater : ∀ r ∈ todo, r.planId ≠ row.planId := by
    intro r hr e
    refine (List.nodup_cons.mp hright).1 ?_
    rw [← e]
    exact List.mem_map_of_mem hr
  have hrows : (applyRow attempts b row).rows = setStatus row.planId status b.rows := hattempt.rows
  have hlog : (applyRow attempts b row).log = b.log ++ [.attempted row] := rfl
  have hcounters : (applyRow attempts b row).counters =
      b.counters.record (applyOrganizationRow row (attempts row.planId) b.rows).2 := rfl
  have hcount : actionableCount root (setStatus row.planId status b.rows) + 1 =
      actionableCount root b.rows + if status = .movedCachePending then 1 else 0 := by
    have e := countP_setStatus (Plan.actionable root) status h.unique hrow
    have hnewact : ({ row with status := status } : Plan).actionable root =
        decide (status = .movedCachePending) := by
      simp [Plan.actionable, hroot, hnew]
    rw [if_pos hact, hnewact] at e
    simpa [actionableCount] using e
  have hready : (setStatus row.planId status b.rows).countP (Plan.ready root) +
      (if row.ready root = true then 1 else 0) = b.rows.countP (Plan.ready root) := by
    have e := countP_setStatus (Plan.ready root) status h.unique hrow
    have hnot : ({ row with status := status } : Plan).ready root = false := by
      simp [Plan.ready, hnewready]
    simpa [hnot] using e
  have hcounted := h.counted.trans (counted_setStatus status h.unique hrow hact)
  have hfind : (setStatus row.planId status b.rows).find?
      (fun r => decide (r.planId = row.planId)) = some { row with status := status } :=
    (unique_setStatus h.unique row.planId status).find?_eq (mem_setStatus_self hrow)
  have hkeep : ∀ r ∈ b.pending, r ∈ setStatus row.planId status b.rows := by
    intro r hr
    obtain ⟨hmem, -, hdone⟩ := h.pending r hr
    refine mem_setStatus_of_ne hmem fun e => hfresh ?_
    rwa [← e]
  have hold : ∀ r ∈ b.pending, r.planId ∈ (done ++ [row]).map Plan.planId := by
    intro r hr
    rw [List.map_append]
    exact List.mem_append_left _ (h.pending r hr).2.2
  have hcommon : Unique Plan.planId (applyRow attempts b row).rows ∧
      (∀ r ∈ todo, r ∈ (applyRow attempts b row).rows ∧ r.actionable root = true) ∧
      ((applyRow attempts b row).rows.countP (Plan.ready root) +
        (done ++ [row]).countP (Plan.ready root) = rows.countP (Plan.ready root)) ∧
      (applyRow attempts b row).rows =
        rows.map (replayBatch attempts complete (applyRow attempts b row).log) ∧
      ∀ r ∈ rows, r.ready root = true →
        .attempted r ∈ (applyRow attempts b row).log ∨ r ∈ (applyRow attempts b row).rows := by
    rw [hrows, hlog]
    refine ⟨unique_setStatus h.unique _ _, fun r hr => ?_, ?_, ?_, fun r hr hrready => ?_⟩
    · obtain ⟨hmem, hract⟩ := h.todo r (List.mem_cons_of_mem _ hr)
      exact ⟨mem_setStatus_of_ne hmem (hlater r hr), hract⟩
    · have hsum := h.ready
      rw [List.countP_append, List.countP_singleton]
      omega
    · rw [hstatus, setStatus_eq_after attempts complete h.unique hrow, h.replayed, List.map_map]
      exact List.map_congr_left fun r _ => (replayBatch_append b.log _ r).symm
    · rcases h.kept r hr hrready with hdone | hmem
      · exact .inl (List.mem_append_left _ hdone)
      · by_cases e : r.planId = row.planId
        · rw [h.unique.eq hmem hrow e]
          exact .inl (by simp)
        · exact .inr (mem_setStatus_of_ne hmem e)
  obtain ⟨hunique, htodo, hreadySum, hreplayed, hkept⟩ := hcommon
  by_cases hpending : status = .movedCachePending
  · -- moved: counted as pending, and kept for the synchronisation
    have hflag : (applyOrganizationRow row (attempts row.planId) b.rows).2.cachePending = true := by
      rw [hattempt.cachePending, decide_eq_true hpending]
    rw [if_pos hpending] at hcount
    have hlist : (applyRow attempts b row).pending = b.pending ++ [{ row with status := status }] := by
      rw [applyRow]
      simp only [hflag, if_true, hattempt.rows, hfind, Option.toList_some]
    rw [record_pending hattempt.cacheSynced hflag] at hcounters
    refine ⟨hunique, htodo, ?_, hreadySum, hreplayed, ?_, hkept, ?_, ?_, ?_, ?_, ?_⟩
    · have := h.count
      rw [hcounters, hrows]
      simp only
      omega
    · rw [hcounters, hrows]
      simpa [hpending] using hcounted
    · rw [hcounters]
      exact h.applied
    · rw [hcounters]
      exact h.cacheSynced
    · rw [hcounters, hlist, List.length_append, List.length_singleton]
      exact congrArg (· + 1) h.cachePending
    · rw [hlist, hrows]
      intro r hr
      rcases List.mem_append.mp hr with hr | hr
      · exact ⟨hkeep r hr, (h.pending r hr).2.1, hold r hr⟩
      · rw [List.mem_singleton.mp hr]
        exact ⟨mem_setStatus_self hrow, by simp [Plan.cachePending, hroot, hpending], by simp⟩
    · rw [hlist, List.map_append, List.nodup_append]
      refine ⟨h.nodup, by simp, ?_⟩
      intro a ha c hc e
      obtain ⟨r, hr, rfl⟩ := List.mem_map.mp ha
      have hc' : c = row.planId := by simpa using hc
      refine hfresh ?_
      rw [← hc', ← e]
      exact (h.pending r hr).2.2
  · have hflag : (applyOrganizationRow row (attempts row.planId) b.rows).2.cachePending = false := by
      rw [hattempt.cachePending, decide_eq_false hpending]
    rw [if_neg hpending] at hcount
    have hlist : (applyRow attempts b row).pending = b.pending := by
      rw [applyRow]
      simp only [hflag, Bool.false_eq_true, if_false]
    have hclosed := (List.mem_cons.mp hattempt.status).resolve_left hpending
    obtain ⟨hstale, hblocked, hfailed, happlied, hsynced, hsame⟩ :=
      record_closed (c := b.counters) hattempt.outcome hclosed hattempt.cacheSynced hflag
    have hone : (if status ∈ [PlanStatus.stale] then 1 else 0) +
        (if status ∈ [PlanStatus.blocked] then 1 else 0) +
        (if status ∈ [PlanStatus.failed, .recoveryRequired] then 1 else 0) = 1 := by
      simp only [List.mem_cons, List.not_mem_nil, or_false] at hclosed
      rcases hclosed with e | e | e | e <;> simp [e]
    have hnotapplied : status ∉ [PlanStatus.applied] := by
      simp only [List.mem_cons, List.not_mem_nil, or_false] at hclosed ⊢
      rcases hclosed with e | e | e | e <;> simp [e]
    refine ⟨hunique, htodo, ?_, hreadySum, hreplayed, ?_, hkept, ?_, ?_, ?_, ?_, ?_⟩
    · have := h.count
      rw [hcounters, hrows, hstale, hblocked, hfailed]
      omega
    · rw [hcounters, hrows, hstale, hblocked, hfailed, happlied]
      rw [if_neg hnotapplied] at hcounted
      exact hcounted
    · rw [hcounters, happlied]
      exact h.applied
    · rw [hcounters, hsynced]
      exact h.cacheSynced
    · rw [hcounters, hsame, hlist]
      exact h.cachePending
    · rw [hlist, hrows]
      exact fun r hr => ⟨hkeep r hr, (h.pending r hr).2.1, hold r hr⟩
    · rw [hlist]
      exact h.nodup

/-- Behind all rows of a batch. -/
theorem Progress.foldl {attempts : ℤ → Attempt} {complete : Bool} {todo : List Plan} :
    ∀ {done : List Plan} {b : Batch}, Progress attempts complete root rows done todo b →
      ((done ++ todo).map Plan.planId).Nodup →
      Progress attempts complete root rows (done ++ todo) [] (todo.foldl (applyRow attempts) b) := by
  induction todo with
  | nil =>
    intro done b h _
    rw [List.append_nil]
    exact h
  | cons row todo ih =>
    intro done b h hnodup
    have hassoc : done ++ row :: todo = (done ++ [row]) ++ todo := by simp
    rw [hassoc] at hnodup ⊢
    exact ih (h.step (by simpa using hnodup)) hnodup

/-- The updates behind a synchronisation are its event. -/
theorem settlePending_eq_after (attempts : ℤ → Attempt) (complete : Bool) (pending rows : List Plan) :
    settlePending complete pending rows =
      rows.map ((Event.synchronized (pending.map Plan.planId)).after attempts complete) := by
  induction pending generalizing rows with
  | nil => exact (List.map_id rows).symm.trans (List.map_congr_left fun row _ => by simp [Event.after])
  | cons r pending ih =>
    have hfold : settlePending complete (r :: pending) rows = settlePending complete pending
        (setStatus r.planId (if complete then .applied else .movedCachePending) rows) := rfl
    rw [hfold, ih, setStatus, updateWhere, List.map_map]
    refine List.map_congr_left fun row _ => ?_
    by_cases hid : row.planId = r.planId <;>
      by_cases hmem : row.planId ∈ pending.map Plan.planId <;> simp_all [Event.after]

/-- The updates of a synchronisation that is not complete change nothing. -/
theorem settlePending_false {pending : List Plan} (h : Unique Plan.planId rows)
    (hmem : ∀ r ∈ pending, r ∈ rows ∧ r.cachePending root = true) :
    settlePending false pending rows = rows := by
  induction pending with
  | nil => rfl
  | cons r pending ih =>
    obtain ⟨hr, hp⟩ := hmem r List.mem_cons_self
    have hstatus : r.status = .movedCachePending := by
      rw [Plan.cachePending, Bool.and_eq_true, decide_eq_true_eq, decide_eq_true_eq] at hp
      exact hp.2
    have hself : setStatus r.planId .movedCachePending rows = rows := by
      rw [← hstatus]
      exact setStatus_self h hr
    have hrest := ih fun q hq => hmem q (List.mem_cons_of_mem _ hq)
    rw [settlePending, List.foldl_cons]
    simp only [Bool.false_eq_true, if_false, hself]
    exact hrest

/-- A complete synchronisation takes its plans out of the actionable ones, and leaves the ready. -/
theorem settlePending_true {pending : List Plan} :
    ∀ {rows : List Plan}, Unique Plan.planId rows →
      (∀ r ∈ pending, r ∈ rows ∧ r.cachePending root = true) →
      (pending.map Plan.planId).Nodup →
      Unique Plan.planId (settlePending true pending rows) ∧
        actionableCount root (settlePending true pending rows) + pending.length =
          actionableCount root rows ∧
        (settlePending true pending rows).countP (Plan.ready root) =
          rows.countP (Plan.ready root) ∧
        Counted root rows (settlePending true pending rows) pending.length 0 0 0 ∧
        ∀ r ∈ rows, r.ready root = true → r ∈ settlePending true pending rows := by
  induction pending with
  | nil => exact fun {rows} h _ _ => ⟨h, rfl, rfl, Counted.refl root rows, fun _ hr _ => hr⟩
  | cons r pending ih =>
    intro rows h hmem hnodup
    obtain ⟨hr, hp⟩ := hmem r List.mem_cons_self
    obtain ⟨hroot, hstatus⟩ : r.organizationRoot = root ∧ r.status = .movedCachePending := by
      simpa [Plan.cachePending] using hp
    have hact : r.actionable root = true := by
      simp [Plan.actionable, hroot, hstatus, PlanStatus.actionable]
    have hnotready : r.ready root = false := by simp [Plan.ready, hstatus, PlanStatus.ready]
    have happliedact : ({ r with status := .applied } : Plan).actionable root = false := by
      simp [Plan.actionable, PlanStatus.actionable, PlanStatus.ready]
    have happliedready : ({ r with status := .applied } : Plan).ready root = false := by
      simp [Plan.ready, PlanStatus.ready]
    have hcount := countP_setStatus (Plan.actionable root) .applied h hr
    have hready := countP_setStatus (Plan.ready root) .applied h hr
    rw [hact, happliedact, if_pos rfl, if_neg Bool.false_ne_true] at hcount
    rw [hnotready, happliedready] at hready
    have hne : ∀ q ∈ pending, q.planId ≠ r.planId := by
      intro q hq e
      refine (List.nodup_cons.mp hnodup).1 ?_
      rw [← e]
      exact List.mem_map_of_mem hq
    have hcounted := counted_setStatus .applied h hr hact
    obtain ⟨hunique, hsum, hreadySum, hmore, hkept⟩ := ih (unique_setStatus h r.planId .applied)
      (fun q hq => ⟨mem_setStatus_of_ne (hmem q (List.mem_cons_of_mem _ hq)).1 (hne q hq),
        (hmem q (List.mem_cons_of_mem _ hq)).2⟩) (List.nodup_cons.mp hnodup).2
    have hfold : settlePending true (r :: pending) rows =
        settlePending true pending (setStatus r.planId .applied rows) := rfl
    rw [hfold]
    refine ⟨hunique, ?_, ?_, ?_, fun q hq hqready => hkept q ?_ hqready⟩
    · rw [actionableCount] at hsum ⊢
      rw [List.length_cons]
      have hcount' : (setStatus r.planId .applied rows).countP (fun row => row.actionable root) + 1 =
          actionableCount root rows := hcount
      have hsum' : (settlePending true pending (setStatus r.planId .applied rows)).countP
          (fun row => row.actionable root) + pending.length =
          (setStatus r.planId .applied rows).countP (fun row => row.actionable root) := hsum
      omega
    · rw [hreadySum]
      exact hready
    · have hsum' := hcounted.trans hmore
      rwa [if_pos (List.mem_singleton.mpr rfl), if_neg (by simp), if_neg (by simp), if_neg (by simp),
        Nat.add_comm 1] at hsum'
    · refine mem_setStatus_of_ne hq fun e => ?_
      rw [h.eq hq hr e, hnotready] at hqready
      exact absurd hqready (by simp)

/-- What a batch leaves. -/
structure BatchSpec (attempts : ℤ → Attempt) (complete : Bool) (root : Text) (maxActions : ℕ)
    (rows : List Plan) (b : Batch) (current : ApplySummary) : Prop where
  unique : Unique Plan.planId b.rows
  count : actionableCount root b.rows + current.finalized = actionableCount root rows
  remaining : current.remaining = actionableCount root b.rows
  cacheSynced : current.cacheSynced = current.applied
  selected : current.selected = (selectApplyRows root maxActions rows).length
  ready : b.rows.countP (Plan.ready root) +
    (selectApplyRows root maxActions rows).countP (Plan.ready root) = rows.countP (Plan.ready root)
  replayed : b.rows = rows.map (replayBatch attempts complete b.log)
  counted : Counted root rows b.rows current.applied current.stale current.blocked current.failed
  kept : ∀ row ∈ rows, row.ready root = true → .attempted row ∈ b.log ∨ row ∈ b.rows

/-- A batch without a move, or with moves that wait for their cache. -/
theorem Progress.spec {attempts : ℤ → Attempt} {complete : Bool} {maxActions : ℕ}
    (hp : Progress attempts complete root rows (selectApplyRows root maxActions rows) [] b) :
    BatchSpec attempts complete root maxActions rows b
      (b.counters.summary (selectApplyRows root maxActions rows).length
        (actionableCount root b.rows)) where
  unique := hp.unique
  count := by
    have hcount := hp.count
    have happlied := hp.applied
    simp only [ApplySummary.finalized, Counters.summary]
    omega
  remaining := rfl
  cacheSynced := hp.cacheSynced.trans hp.applied.symm
  selected := rfl
  ready := hp.ready
  replayed := hp.replayed
  counted := hp.counted
  kept := hp.kept

/-- The moves of a batch, behind their synchronisation. -/
def settledBatch (complete : Bool) (b : Batch) : Batch :=
  { b with
    counters :=
      if complete then
        { b.counters with
          cachePending := b.counters.cachePending - b.pending.length
          applied := b.counters.applied + b.pending.length
          cacheSynced := b.counters.cacheSynced + b.pending.length }
      else b.counters
    rows := settlePending complete b.pending b.rows
    log := b.log ++ [.synchronized (b.pending.map Plan.planId)] }

theorem synchronizePending_eq (complete : Bool) (hpending : b.pending ≠ [])
    (hlength : b.counters.cachePending = b.pending.length) :
    synchronizePending complete b = some (settledBatch complete b) := by
  have hlt : ¬ b.counters.cachePending < b.pending.length := by omega
  cases complete <;> simp [synchronizePending, hpending, Counters.resolveCacheSync, hlt, settledBatch]

/-- The table behind a synchronisation is the one that the log leaves. -/
theorem Progress.replayed_settled {attempts : ℤ → Attempt} {complete : Bool}
    (hp : Progress attempts complete root rows done todo b) :
    (settledBatch complete b).rows =
      rows.map (replayBatch attempts complete (settledBatch complete b).log) := by
  show settlePending complete b.pending b.rows = _
  rw [settlePending_eq_after attempts, hp.replayed, List.map_map]
  exact List.map_congr_left fun r _ => (replayBatch_append b.log _ r).symm

/-- **One batch.**  It raises nothing and accounts for what it selected. -/
theorem batch_spec (attempts : ℤ → Attempt) (complete : Bool) (root : Text) (maxActions : ℕ)
    (h : Unique Plan.planId rows) :
    ∃ b current, applyDocumentOrganization attempts complete root maxActions rows =
      some (b, current) ∧ BatchSpec attempts complete root maxActions rows b current := by
  have hp := (progress_start attempts complete root maxActions h).foldl
    (by simpa using nodup_selectApplyRows h maxActions)
  rw [List.nil_append] at hp
  rw [applyDocumentOrganization]
  generalize (selectApplyRows root maxActions rows).foldl (applyRow attempts) ⟨rows, {}, [], []⟩ = b
    at hp
  by_cases hnil : b.pending = []
  · have hsync : synchronizePending complete b = some b := by simp [synchronizePending, hnil]
    exact ⟨_, _, by rw [hsync]; rfl, hp.spec⟩
  · have hsync := synchronizePending_eq complete hnil hp.cachePending
    have hmem : ∀ r ∈ b.pending, r ∈ b.rows ∧ r.cachePending root = true := fun r hr =>
      ⟨(hp.pending r hr).1, (hp.pending r hr).2.1⟩
    refine ⟨_, _, by rw [hsync]; rfl, ?_⟩
    have hreplayed := hp.replayed_settled
    have hkeptLog : ∀ r, .attempted r ∈ b.log → .attempted r ∈ (settledBatch complete b).log :=
      fun r hr => List.mem_append_left _ hr
    cases complete with
    | false =>
      have hrows : (settledBatch false b).rows = b.rows := settlePending_false hp.unique hmem
      have hspec := hp.spec
      refine ⟨?_, ?_, rfl, hspec.cacheSynced, rfl, ?_, hreplayed, ?_, fun r hr hrready => ?_⟩
      · rw [hrows]
        exact hp.unique
      · rw [hrows]
        exact hspec.count
      · rw [hrows]
        exact hp.ready
      · rw [hrows]
        exact hp.counted
      · rw [hrows]
        exact (hp.kept r hr hrready).imp_left (hkeptLog r)
    | true =>
      obtain ⟨hunique, hsum, hready, hcounted, hkept⟩ := settlePending_true hp.unique hmem hp.nodup
      have hcount := hp.count
      have happlied := hp.applied
      have hsynced := hp.cacheSynced
      have hrows : (settledBatch true b).rows = settlePending true b.pending b.rows := rfl
      refine ⟨hunique, ?_, rfl, ?_, rfl, ?_, hreplayed, hp.counted.trans hcounted,
        fun r hr hrready => ?_⟩
      · rw [hrows]
        simp only [ApplySummary.finalized, Counters.summary, settledBatch, if_true]
        omega
      · simp only [Counters.summary, settledBatch, if_true]
        omega
      · rw [hrows, hready]
        exact hp.ready
      · rcases hp.kept r hr hrready with hdone | hb
        · exact .inl (hkeptLog r hdone)
        · exact .inr (hkept r hb hrready)

end Batches

/-! ## All batches -/

section Runs

variable {rows : List Plan} {root : Text} {batchSize : ℕ} {run : ApplyRun}

theorem hasReady_eq_false_iff : hasReady root rows = false ↔ rows.countP (Plan.ready root) = 0 := by
  rw [hasReady, List.any_eq_false, List.countP_eq_zero]

theorem ready_le_actionable (root : Text) (rows : List Plan) :
    rows.countP (Plan.ready root) ≤ actionableCount root rows := by
  refine List.countP_mono_left fun row _ hready => ?_
  have h : row.organizationRoot = root ∧ row.status.ready = true := by
    simpa [Plan.ready] using hready
  simp [Plan.actionable, PlanStatus.actionable, h]

/-- Without a ready plan, the actionable ones wait for their cache. -/
theorem actionableCount_of_not_ready (h : hasReady root rows = false) :
    actionableCount root rows = rows.countP (Plan.cachePending root) := by
  refine List.countP_congr fun row hrow => ?_
  have hnot := List.any_eq_false.mp h row hrow
  have hready : row.organizationRoot = root → row.status.ready = false := by
    simpa [Plan.ready] using hnot
  by_cases hroot : row.organizationRoot = root
  · simp [Plan.actionable, Plan.cachePending, PlanStatus.actionable, hroot, hready hroot]
  · simp [Plan.actionable, Plan.cachePending, hroot]

/-- What drops with every batch that is followed by another one. -/
def workLeft (root : Text) (rows : List Plan) : ℕ :=
  actionableCount root rows + rows.countP (Plan.ready root)

/-- A batch that finishes nothing moves a ready plan, as long as one is left. -/
theorem BatchSpec.workLeft_lt {attempts : ℤ → Attempt} {complete : Bool} {b : Batch}
    {current : ApplySummary} (h : BatchSpec attempts complete root batchSize rows b current)
    (hsize : 0 < batchSize) (hgo : stops root b.rows current = false) :
    workLeft root b.rows < workLeft root rows := by
  have hcount := h.count
  have hready := h.ready
  have hfinal : current.finalized ≠ 0 ∨ hasReady root b.rows = true := by
    simp only [stops, Bool.or_eq_false_iff, Bool.and_eq_false_iff, decide_eq_false_iff_not,
      Bool.not_eq_false'] at hgo
    exact hgo.2
  rw [workLeft, workLeft]
  rcases hfinal with hfinal | hmore
  · omega
  · obtain ⟨row, hrow, hrowready⟩ := List.any_eq_true.mp hmore
    have hpos : 0 < b.rows.countP (Plan.ready root) := List.countP_pos_iff.mpr ⟨row, hrow, hrowready⟩
    obtain ⟨old, hold, holdready⟩ := List.countP_pos_iff.mp
      (show 0 < rows.countP (Plan.ready root) by omega)
    obtain ⟨first, hfirst, hfirstready⟩ := exists_ready_selected hsize hold holdready
    have hselected : 0 < (selectApplyRows root batchSize rows).countP (Plan.ready root) :=
      List.countP_pos_iff.mpr ⟨first, hfirst, hfirstready⟩
    omega

/-- The loop ends only when no plan is ready. -/
theorem BatchSpec.not_ready {attempts : ℤ → Attempt} {complete : Bool} {b : Batch}
    {current : ApplySummary} (h : BatchSpec attempts complete root batchSize rows b current)
    (hsize : 0 < batchSize) (hstop : stops root b.rows current = true) :
    hasReady root b.rows = false := by
  have hcount := h.count
  have hle := ready_le_actionable root b.rows
  rw [stops, Bool.or_eq_true, Bool.or_eq_true, Bool.and_eq_true, decide_eq_true_eq,
    decide_eq_true_eq, decide_eq_true_eq] at hstop
  rcases hstop with (hremaining | hselected) | ⟨-, hnot⟩
  · rw [h.remaining] at hremaining
    exact hasReady_eq_false_iff.mpr (by omega)
  · rw [h.selected, List.length_eq_zero_iff] at hselected
    have hzero := actionableCount_eq_zero hsize hselected
    exact hasReady_eq_false_iff.mpr (by omega)
  · simpa using hnot

/-- The accounts of a run that started with `rows`. -/
structure Accounted (attempts : ℕ → ℤ → Attempt) (complete : ℕ → Bool) (root : Text)
    (rows : List Plan) (run : ApplyRun) : Prop where
  unique : Unique Plan.planId run.rows
  count : run.totals.finalized + actionableCount root run.rows = actionableCount root rows
  cacheSynced : run.totals.cacheSynced = run.totals.applied
  replayed : run.rows = rows.map (replay attempts complete run.log)
  counted : Counted root rows run.rows run.totals.applied run.totals.stale run.totals.blocked
    run.totals.failed
  kept : ∀ row ∈ rows, row.ready root = true →
    (∃ batch, (batch, .attempted row) ∈ run.log) ∨ row ∈ run.rows

section Accounts

variable {attempts : ℕ → ℤ → Attempt} {complete : ℕ → Bool}

theorem accounted_start (root : Text) (h : Unique Plan.planId rows) :
    Accounted attempts complete root rows ⟨rows, { batches := 0 }, []⟩ where
  unique := h
  count := by simp [ApplySummary.finalized]
  cacheSynced := rfl
  replayed := (List.map_id rows).symm
  counted := Counted.refl root rows
  kept _ hrow _ := .inr hrow

/-- The accounts behind one more batch. -/
theorem Accounted.next {b : Batch} {current : ApplySummary}
    (h : Accounted attempts complete root rows run)
    (hbatch : BatchSpec (attempts run.totals.batches) (complete run.totals.batches) root batchSize
      run.rows b current) :
    Accounted attempts complete root rows ⟨b.rows, run.totals.add current,
      run.log ++ b.log.map fun e => (run.totals.batches, e)⟩ where
  unique := hbatch.unique
  count := by
    have hcount := h.count
    have hmore := hbatch.count
    simp only [ApplySummary.finalized, ApplySummary.add] at hcount hmore ⊢
    omega
  cacheSynced := by
    have hsynced := h.cacheSynced
    have hmore := hbatch.cacheSynced
    simp only [ApplySummary.add]
    omega
  replayed := by
    show b.rows = _
    rw [hbatch.replayed, h.replayed, List.map_map]
    exact List.map_congr_left fun row _ => (replay_append run.log _ b.log row).symm
  counted := h.counted.trans hbatch.counted
  kept row hrow hready := by
    rcases h.kept row hrow hready with ⟨batch, hdone⟩ | hmem
    · exact .inl ⟨batch, List.mem_append_left _ hdone⟩
    · refine (hbatch.kept row hmem hready).imp_left fun hdone => ⟨run.totals.batches, ?_⟩
      exact List.mem_append_right _ (List.mem_map_of_mem hdone)

/-- The loop ends within as many batches as there is work. -/
theorem applyBatches_spec (attempts : ℕ → ℤ → Attempt) (complete : ℕ → Bool)
    (hsize : 0 < batchSize) (fuel : ℕ) :
    ∀ run, Accounted attempts complete root rows run → workLeft root run.rows < fuel →
      ∃ final, applyBatches attempts complete root batchSize fuel run = some final ∧
        Accounted attempts complete root rows final ∧ hasReady root final.rows = false ∧
        final.totals.remaining = actionableCount root final.rows := by
  induction fuel with
  | zero => exact fun _ _ hlt => absurd hlt (Nat.not_lt_zero _)
  | succ fuel ih =>
    intro run hrun hlt
    obtain ⟨b, current, hbatch, hspec⟩ := batch_spec (attempts run.totals.batches)
      (complete run.totals.batches) root batchSize hrun.unique
    have hnext := hrun.next hspec
    rw [applyBatches, hbatch]
    cases hstop : stops root b.rows current with
    | true => exact ⟨_, by simp [hstop], hnext, hspec.not_ready hsize hstop, hspec.remaining⟩
    | false =>
      have hless := hspec.workLeft_lt hsize hstop
      obtain ⟨final, hfinal, hrest⟩ := ih _ hnext (by
        show workLeft root b.rows < fuel
        omega)
      exact ⟨final, by simpa [hstop] using hfinal, hrest⟩

end Accounts

/-- More fuel changes nothing for a loop that ends. -/
theorem applyBatches_mono {attempts : ℕ → ℤ → Attempt} {complete : ℕ → Bool} {fuel : ℕ} :
    ∀ {run final : ApplyRun},
      applyBatches attempts complete root batchSize fuel run = some final →
      ∀ more, fuel ≤ more → applyBatches attempts complete root batchSize more run = some final := by
  induction fuel with
  | zero => exact fun {run final} h => absurd h (by simp [applyBatches])
  | succ fuel ih =>
    intro run final h more hmore
    obtain ⟨more, rfl⟩ : ∃ m, more = m + 1 := ⟨more - 1, by omega⟩
    rw [applyBatches] at h ⊢
    cases hbatch : applyDocumentOrganization (attempts run.totals.batches)
        (complete run.totals.batches) root batchSize run.rows with
    | none =>
      rw [hbatch] at h
      exact absurd h (by simp)
    | some batch =>
      rw [hbatch] at h
      simp only [Option.bind_eq_bind, Option.bind_some] at h ⊢
      cases hstop : stops root batch.1.rows batch.2 with
      | true => simpa [hstop] using h
      | false =>
        rw [hstop, if_neg Bool.false_ne_true] at h
        rw [if_neg Bool.false_ne_true]
        exact ih h more (by omega)

/-- **All batches.**  Whatever the attempts and synchronisations answer, the loop ends, in one way for
every bound that is large enough.  Every ready plan is attempted as it was; every plan has the status of
the answers that it got, and the counters are the plans that came into each status.  The accounts are
those of the actionable plans it started with, and what remains waits for its cache. -/
theorem applyAll_spec (attempts : ℕ → ℤ → Attempt) (complete : ℕ → Bool) (root : Text)
    (hsize : 1 ≤ batchSize) (h : Unique Plan.planId rows) :
    ∃ run bound, (∀ fuel, bound ≤ fuel →
        applyAll attempts complete root batchSize rows fuel = some run) ∧
      (∀ row ∈ rows, row.ready root = true → ∃ batch, (batch, .attempted row) ∈ run.log) ∧
      run.rows = rows.map (replay attempts complete run.log) ∧
      Counted root rows run.rows run.totals.applied run.totals.stale run.totals.blocked
        run.totals.failed ∧
      run.totals.applied + run.totals.stale + run.totals.blocked + run.totals.failed +
        run.totals.remaining = actionableCount root rows ∧
      run.totals.remaining = run.rows.countP (Plan.cachePending root) ∧
      run.totals.cacheSynced = run.totals.applied := by
  obtain ⟨run, hrun, haccounts, hready, hremaining⟩ := applyBatches_spec attempts complete hsize
    (workLeft root rows + 1) _ (accounted_start root h) (Nat.lt_succ_self _)
  refine ⟨run, _, fun fuel hfuel => applyBatches_mono hrun fuel hfuel, fun row hrow hrowready => ?_,
    haccounts.replayed, haccounts.counted, ?_, ?_, haccounts.cacheSynced⟩
  · rcases haccounts.kept row hrow hrowready with hdone | hmem
    · exact hdone
    · exact absurd hrowready (List.any_eq_false.mp hready row hmem)
  · have hcount := haccounts.count
    rw [ApplySummary.finalized] at hcount
    omega
  · rw [hremaining, actionableCount_of_not_ready hready]

/-- A planned, a moved and an interrupted plan, and one of another root. -/
def threePlans : List Plan :=
  [⟨1, lit "/docs", .planned⟩, ⟨2, lit "/docs", .movedCachePending⟩, ⟨3, lit "/docs", .applying⟩,
    ⟨4, lit "/mail", .planned⟩]

/-- The source of the first plan has changed; the other plans move. -/
def firstIsStale (planId : ℤ) : Attempt :=
  ⟨none, false, if planId = 1 then .stale else .moved, true, true⟩

/-- What the loop logs of the three plans, in batches of one: the caches are not reached in the first
two batches, and are from then on. -/
def threeLog : List (ℕ × Event) :=
  [(0, .attempted ⟨3, lit "/docs", .applying⟩), (0, .synchronized [3]),
    (1, .attempted ⟨1, lit "/docs", .planned⟩),
    (2, .attempted ⟨2, lit "/docs", .movedCachePending⟩), (2, .synchronized [2]),
    (3, .attempted ⟨3, lit "/docs", .movedCachePending⟩), (3, .synchronized [3])]

theorem applyAll_spec_three :
    ∃ run bound, (∀ fuel, bound ≤ fuel →
        applyAll (fun _ => firstIsStale) (fun batch => decide (2 ≤ batch)) (lit "/docs") 1 threePlans
          fuel = some run) ∧
      run.log = threeLog ∧
      run.rows = [⟨1, lit "/docs", .stale⟩, ⟨2, lit "/docs", .applied⟩, ⟨3, lit "/docs", .applied⟩,
        ⟨4, lit "/mail", .planned⟩] ∧
      (run.totals.applied, run.totals.stale, run.totals.remaining) = (2, 1, 0) := by
  obtain ⟨run, bound, hrun, -, hrows, hcounted, -, hremaining, -⟩ :=
    applyAll_spec (fun _ => firstIsStale) (fun batch => decide (2 ≤ batch)) (lit "/docs") (le_refl 1)
      (unique_iff_nodup.mpr (by decide : (threePlans.map Plan.planId).Nodup))
  have hlog : (applyAll (fun _ => firstIsStale) (fun batch => decide (2 ≤ batch)) (lit "/docs") 1
      threePlans 4).map ApplyRun.log = some threeLog := by decide +kernel
  obtain ⟨four, hfour, hlog⟩ := Option.map_eq_some_iff.mp hlog
  have hsame : some run = some four :=
    (hrun (bound + 4) (Nat.le_add_right _ _)).symm.trans
      (applyBatches_mono hfour (bound + 4) (Nat.le_add_left _ _))
  obtain rfl := Option.some.inj hsame
  have hfinal : run.rows = [⟨1, lit "/docs", .stale⟩, ⟨2, lit "/docs", .applied⟩,
      ⟨3, lit "/docs", .applied⟩, ⟨4, lit "/mail", .planned⟩] := by
    rw [hrows, hlog]
    decide +kernel
  have happlied : 2 = 0 + run.totals.applied := by
    have h := hcounted.applied
    rw [hfinal] at h
    exact h
  have hstale : 1 = 0 + run.totals.stale := by
    have h := hcounted.stale
    rw [hfinal] at h
    exact h
  refine ⟨run, bound, hrun, hlog, hfinal, ?_⟩
  rw [hremaining, hfinal, ← Nat.zero_add run.totals.applied, ← happlied,
    ← Nat.zero_add run.totals.stale, ← hstale]
  decide +kernel

end Runs

end Documents
end Neocortex
