import Neocortex.Library.Checks
import Neocortex.Library.Rows
import Neocortex.Python.Json

/-!
# The ledger of file actions

`file_actions` and `file_action_events`, and the functions of
`persistence/framework_state_common.py` that write them.  Every function here is the body of one
transaction: it returns the ledger to commit, or raises and nothing is written.

The boundary of a run (`corpus_mutation_guard`) comes in as `Boundary`: the policy of the run, or
an exception, and the checks of its paths before and after the rows are written.  The times of a
row are left out: nothing below reads them.

* `Ledger.transition` is the only way out of a status but for `markFileActionsApplying`;
* `History` says what the events of a row look like, and every function keeps it.
-/

namespace Neocortex
namespace Actions

open Python Checks

/-! ## Errors -/

/-- The class of an exception, as far as the handlers tell classes apart. -/
inductive Kind where
  /-- `OSError`. -/
  | os
  /-- `InternalPathProtectionError` and `ProtectedAnalysisRootError`, both `PermissionError`. -/
  | boundary
  | runtime
  /-- `RunBudgetExceeded`, which is a `RuntimeError`. -/
  | budgetExceeded
  | value
  | type
  | fileChanged
  /-- `sqlite3.Error`. -/
  | database
  | cancelled
  | interrupt
  | other
  deriving DecidableEq, Repr

/-- An exception and its text. -/
structure Raised where
  kind : Kind
  text : Text
  deriving DecidableEq, Repr

abbrev Checked := Except Raised

/-- `if c: raise`. -/
def raiseIf (c : Prop) [Decidable c] (kind : Kind) (text : String) : Checked Unit :=
  Checks.raiseIf c ⟨kind, lit text⟩

@[simp] theorem raiseIf_eq_ok {c : Prop} [Decidable c] {kind : Kind} {text : String} {u : Unit} :
    raiseIf c kind text = .ok u ↔ ¬ c := Checks.raiseIf_eq_ok

/-! ## Rows -/

inductive ActionStatus where
  | started
  | planned
  | applying
  | applied
  | skipped
  | failed
  | recoveryRequired
  deriving DecidableEq, Repr

/-- The text of the column. -/
def ActionStatus.text : ActionStatus → String
  | .started => "started"
  | .planned => "planned"
  | .applying => "applying"
  | .applied => "applied"
  | .skipped => "skipped"
  | .failed => "failed"
  | .recoveryRequired => "recovery_required"

/-- `_FILE_ACTION_TRANSITIONS`. -/
def ActionStatus.transitions : ActionStatus → List ActionStatus
  | .started => [.planned, .skipped, .failed, .applying, .recoveryRequired]
  | .applying => [.applied, .skipped, .recoveryRequired]
  | _ => []

/-- `FileActionSpec`. -/
structure ActionSpec where
  actionType : Text
  sourcePath : Text
  targetPath : Option Text
  detectedMime : Option Text
  evidence : Option Text
  applyRequested : Bool
  deriving DecidableEq, Repr

/-- `_action_policy_values`. -/
structure PolicyValues where
  mode : Text
  root : Option Text
  deviceIdHex : Option Text
  fileIdHex : Option Text
  birthtimeNs : Option ℤ
  deriving DecidableEq, Repr

/-- A row of `file_actions`. -/
structure ActionRow where
  actionId : ℕ
  runId : ℤ
  spec : ActionSpec
  policy : PolicyValues
  idempotencyKey : Option Text
  status : ActionStatus
  detail : Option Text
  expectedIdentityJson : Option Text
  effectReceiptJson : Option Text
  deriving DecidableEq, Repr

inductive Stage where
  | intentRecorded
  | mutationFrontier
  | recoveryRequired
  | completedWithoutEffect
  | effectConfirmed
  deriving DecidableEq, Repr

/-- A row of `file_action_events`. -/
structure ActionEvent where
  actionId : ℕ
  fromStatus : Option ActionStatus
  toStatus : ActionStatus
  stage : Stage
  detail : Option Text
  evidenceJson : Option Text
  deriving DecidableEq, Repr

structure Ledger where
  actions : List ActionRow
  events : List ActionEvent
  deriving DecidableEq, Repr

namespace Ledger

variable (ledger : Ledger)

/-- `SELECT … WHERE action_id=?`. -/
def action? (id : ℕ) : Option ActionRow := ledger.actions.find? fun r => r.actionId == id

/-- The row id that the next insert takes. -/
def nextActionId : ℕ := (ledger.actions.map ActionRow.actionId).foldr max 0 + 1

/-- The ids of a table with an integer primary key. -/
structure Ids (ledger : Ledger) : Prop where
  unique : Rows.Unique ActionRow.actionId ledger.actions
  positive : ∀ r ∈ ledger.actions, 0 < r.actionId

/-- The events of one action, oldest first. -/
def eventsOf (id : ℕ) : List ActionEvent := ledger.events.filter fun e => e.actionId == id

/-- `UPDATE main.file_actions … WHERE action_id=?` and `_append_file_action_event`. -/
def rewrite (id : ℕ) (f : ActionRow → ActionRow) (e : ActionEvent) : Ledger where
  actions := Rows.updateWhere (fun r => r.actionId == id) f ledger.actions
  events := ledger.events ++ [e]

/-! ## Beginning -/

/-- What the boundary of a run says. -/
structure Boundary where
  /-- `corpus_mutation_guard`. -/
  policy : ℤ → Checked PolicyValues
  /-- `reject_run_mutation` and `require_paths_allowed`, before the rows are written. -/
  before : Checked Unit
  /-- The same, at the end of the transaction. -/
  after : Checked Unit

/-- The columns that identify an action to a release with other keys. -/
def sameAction (run : ℤ) (spec : ActionSpec) (r : ActionRow) : Bool :=
  r.runId == run && r.spec == spec

/-- `INSERT INTO main.file_actions`, and its first event. -/
def insert (run : ℤ) (policy : PolicyValues) (key : Text) (spec : ActionSpec) : ℕ × Ledger :=
  (ledger.nextActionId,
    { actions := ledger.actions ++ [{
        actionId := ledger.nextActionId
        runId := run
        spec := spec
        policy := policy
        idempotencyKey := some key
        status := .started
        detail := none
        expectedIdentityJson := none
        effectReceiptJson := none }]
      events := ledger.events ++ [{
        actionId := ledger.nextActionId
        fromStatus := none
        toStatus := .started
        stage := .intentRecorded
        detail := none
        evidenceJson := none }] })

/-- One action of `begin_file_actions`. -/
def beginFileAction (keyOf : ℤ → ActionSpec → Text) (run : ℤ) (policy : PolicyValues)
    (spec : ActionSpec) : Checked (ℕ × Ledger) :=
  match ledger.actions.find? (sameAction run spec) with
  | some r =>
    if r.policy ≠ policy then .error ⟨.runtime, lit "file action identity collision"⟩
    else .ok (r.actionId, ledger)
  | none =>
    match ledger.actions.find? fun r => r.idempotencyKey == some (keyOf run spec) with
    | some r =>
      if r.runId ≠ run ∨ r.spec ≠ spec ∨ r.policy ≠ policy then
        .error ⟨.runtime, lit "file action idempotency-key collision"⟩
      else .ok (r.actionId, ledger)
    | none => .ok (ledger.insert run policy (keyOf run spec) spec)

/-- The loop of `begin_file_actions`. -/
def beginEach (keyOf : ℤ → ActionSpec → Text) (run : ℤ) (policy : PolicyValues) :
    Ledger → List ActionSpec → Checked (List ℕ × Ledger)
  | ledger, [] => .ok ([], ledger)
  | ledger, spec :: specs => do
    let (id, ledger) ← ledger.beginFileAction keyOf run policy spec
    let (ids, ledger) ← beginEach keyOf run policy ledger specs
    pure (id :: ids, ledger)

/-- `begin_file_actions`. -/
def beginFileActions (keyOf : ℤ → ActionSpec → Text) (boundary : Boundary) (run : ℤ)
    (specs : List ActionSpec) : Checked (List ℕ × Ledger) := do
  let policy ← boundary.policy run
  boundary.before
  let result ← beginEach keyOf run policy ledger specs
  boundary.after
  pure result

/-! ## Crossing the frontier -/

/-- `_require_json_object`. -/
def requireJsonObject (text : Text) (label : String) : Checked Unit :=
  match loads text with
  | none => .error ⟨.value, lit s!"{label} must be valid JSON"⟩
  | some (.obj _) => .ok ()
  | some _ => .error ⟨.value, lit s!"{label} must be a JSON object"⟩

/-- `_file_action_mutation_guard`, its paths not checked. -/
def actionGuard (boundary : Boundary) (id : ℕ) : Checked Unit :=
  match ledger.action? id with
  | none => .error ⟨.value, lit s!"file action does not exist: {id}"⟩
  | some r => do
    let policy ← boundary.policy r.runId
    raiseIf (r.policy ≠ policy) .boundary
      s!"file action {id} policy snapshot does not match its run"
    raiseIf (r.spec.applyRequested = false) .boundary
      s!"file action {id} was not explicitly authorized for apply"

/-- The update of one action of `mark_file_actions_applying`. -/
def markApplying (ledger : Ledger) (action : ℕ × Text) : Checked Ledger :=
  match ledger.action? action.1 with
  | some r =>
    if r.status = .started then
      .ok (ledger.rewrite action.1
        (fun r => { r with status := .applying, expectedIdentityJson := some action.2 })
        { actionId := action.1
          fromStatus := some .started
          toStatus := .applying
          stage := .mutationFrontier
          detail := none
          evidenceJson := some action.2 })
    else
      .error ⟨.runtime,
        lit s!"file action {action.1} cannot enter applying from '{r.status.text}'"⟩
  | none => .error ⟨.runtime, lit s!"file action {action.1} cannot enter applying from None"⟩

/-- `mark_file_actions_applying`. -/
def markFileActionsApplying (boundary : Boundary) (actions : List (ℕ × Text)) :
    Checked Ledger := do
  actions.forM fun a => requireJsonObject a.2 "expected identity evidence"
  if actions = [] then pure ledger
  else
    actions.forM fun a => ledger.actionGuard boundary a.1
    boundary.before
    let marked ← actions.foldlM markApplying ledger
    actions.forM fun a => marked.actionGuard boundary a.1
    boundary.after
    pure marked

/-! ## Transitions -/

/-- `_transition_file_action`. -/
def transition (ledger : Ledger) (id : ℕ) (status : ActionStatus) (detail : Option Text)
    (stage : Stage) (evidenceJson effectReceiptJson : Option Text) : Checked Ledger :=
  match ledger.action? id with
  | none => .error ⟨.value, lit s!"file action does not exist: {id}"⟩
  | some r =>
    if r.status = status then
      if r.detail ≠ detail ∨ r.effectReceiptJson ≠ effectReceiptJson.or r.effectReceiptJson then
        .error ⟨.runtime,
          lit s!"conflicting repeated file action transition for {id}: status={status.text}"⟩
      else .ok ledger
    else if status ∉ r.status.transitions then
      .error ⟨.runtime,
        lit s!"invalid file action transition for {id}: {r.status.text} -> {status.text}"⟩
    else
      .ok (ledger.rewrite id
        (fun r => { r with
          status := status
          detail := detail
          effectReceiptJson := effectReceiptJson.or r.effectReceiptJson })
        { actionId := id
          fromStatus := some r.status
          toStatus := status
          stage := stage
          detail := detail
          evidenceJson := evidenceJson })

/-- The stage that `finish_file_actions` records. -/
def finishStage : ActionStatus → Stage
  | .recoveryRequired => .recoveryRequired
  | .planned => .completedWithoutEffect
  | .skipped => .completedWithoutEffect
  | .failed => .completedWithoutEffect
  | _ => .effectConfirmed

/-- `finish_file_actions`. -/
def finishFileActions (ids : List ℕ) (status : ActionStatus) (detail : Option Text) :
    Checked Ledger := do
  raiseIf (status ∉ [.planned, .applied, .skipped, .failed, .recoveryRequired]) .value
    s!"invalid file action status: {status.text}"
  ids.foldlM (fun ledger id =>
    ledger.transition id status detail (finishStage status) none none) ledger

/-- `require_file_action_recovery`. -/
def requireFileActionRecovery (ids : List ℕ) (detail : Text) : Checked Ledger :=
  ledger.finishFileActions ids .recoveryRequired (some detail)

/-- `confirm_file_actions_applied`. -/
def confirmFileActionsApplied (actions : List (ℕ × Text)) : Checked Ledger := do
  actions.forM fun a => requireJsonObject a.2 "file action effect receipt"
  actions.foldlM (fun ledger a =>
    ledger.transition a.1 .applied none .effectConfirmed (some a.2) (some a.2)) ledger

/-! ## Transactions -/

/-- One call that writes the ledger. -/
inductive Transaction where
  | begin (boundary : Boundary) (run : ℤ) (specs : List ActionSpec)
  | markApplying (boundary : Boundary) (actions : List (ℕ × Text))
  | finish (ids : List ℕ) (status : ActionStatus) (detail : Option Text)
  | confirm (actions : List (ℕ × Text))

/-- What the call commits. -/
def perform (keyOf : ℤ → ActionSpec → Text) : Transaction → Checked Ledger
  | .begin boundary run specs => Prod.snd <$> ledger.beginFileActions keyOf boundary run specs
  | .markApplying boundary actions => ledger.markFileActionsApplying boundary actions
  | .finish ids status detail => ledger.finishFileActions ids status detail
  | .confirm actions => ledger.confirmFileActionsApplied actions

end Ledger

end Actions
end Neocortex
