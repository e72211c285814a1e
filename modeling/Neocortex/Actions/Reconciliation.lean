import Neocortex.Actions.Ledger

/-!
# Evidence of reconciliations

`workflow/actions/file_action_reconciliation_store.py`: the append-only table
`file_action_reconciliation_events` and `record_file_action_reconciliation`.

The transaction of a call is immediate: it has the write lock from its first statement to its
commit.  So a call is one step on what is committed, and calls of any number of connections are a
list of steps; an exception rolls back.

Two texts are kept as what they are made of.  The classification payload has exactly the fields
of `Reconciliation` as its members, and the evidence is the document that `_evidence_json` writes.
The digest of the key and `_canonical_provenance_json` are parameters, and nothing is assumed of
them.
-/

namespace Neocortex
namespace Actions

open Python Checks

/-! ## Records -/

inductive Classification where
  | confirmed
  | notPerformed
  | ambiguous
  | impossibleToCheck
  deriving DecidableEq, Repr

inductive Recommendation where
  | confirmActionRecord
  | reviewBeforeNewAuthorizedAttempt
  | preserveEvidenceAndReviewManually
  deriving DecidableEq, Repr

/-- `_RECOMMENDATIONS`. -/
def Classification.recommendations : Classification → List Recommendation
  | .confirmed => [.confirmActionRecord]
  | .notPerformed => [.reviewBeforeNewAuthorizedAttempt]
  | .ambiguous => [.preserveEvidenceAndReviewManually]
  | .impossibleToCheck => [.preserveEvidenceAndReviewManually]

/-- `FileActionReconciliation`. -/
structure Reconciliation where
  actionId : ℤ
  runId : ℤ
  idempotencyKey : Option Text
  actionType : Text
  sourcePath : Text
  targetPath : Option Text
  recordedStatus : ActionStatus
  reconcilerSignature : Text
  classification : Classification
  recommendation : Recommendation
  detail : Text
  deriving DecidableEq, Repr

/-- `_ActionSnapshot`. -/
structure ActionSnapshot where
  runId : ℤ
  idempotencyKey : Option Text
  actionType : Text
  sourcePath : Text
  targetPath : Option Text
  status : ActionStatus
  expectedIdentityJson : Option Text
  effectReceiptJson : Option Text
  deriving DecidableEq, Repr

/-- `evidence_json`, as `json.loads` reads it. -/
inductive Evidence where
  /-- Not a JSON text. -/
  | unreadable
  /-- A JSON text that is no document of this kind. -/
  | foreign
  | document (action : ActionSnapshot) (actor provenance : Text) (reconciliation : Reconciliation)
  deriving DecidableEq, Repr

/-- `stored_evidence.get("reconciliation")`. -/
def Evidence.reconciliation? : Evidence → Option Reconciliation
  | .document _ _ _ r => some r
  | _ => none

/-- `RecordedFileActionReconciliation`, a row of the table. -/
structure Recorded where
  eventId : ℕ
  actionId : ℤ
  sequence : ℤ
  previousEventId : Option ℤ
  reconciliationKey : Text
  observedNs : ℤ
  recordedNs : ℤ
  actionStatus : ActionStatus
  reconcilerSignature : Text
  eventSchemaVersion : ℤ
  actor : Text
  provenanceJson : Text
  classification : Classification
  recommendation : Recommendation
  detail : Text
  evidence : Evidence
  deriving DecidableEq, Repr

/-- `FILE_ACTION_RECONCILIATION_EVENT_SCHEMA_VERSION`. -/
def reconciliationSchemaVersion : ℤ := 1

/-- What identifies a request. -/
structure Identity where
  reconciliation : Reconciliation
  actor : Text
  provenanceJson : Text
  expectedPreviousEventId : Option ℤ
  deriving DecidableEq, Repr

/-- `_ReconciliationRequest`. -/
structure Request extends Identity where
  observedNs : ℤ
  reconciliationKey : Text
  deriving DecidableEq, Repr

/-- The ledger of actions and the table of events. -/
structure Store where
  ledger : Ledger
  events : List Recorded
  deriving DecidableEq, Repr

/-- The hash and the JSON functions of the module. -/
structure Codec where
  /-- `_reconciliation_key`: the digest of the texts that make up a request. -/
  key : Identity → Text
  /-- `_canonical_provenance_json`. -/
  canonicalProvenance : Text → Checked Text

/-- The arguments of a call. -/
structure RecordCall where
  reconciliation : Reconciliation
  actor : Text
  provenanceJson : Text
  expectedPreviousEventId : Option ℤ
  observedNs : Option ℤ

/-- What a call meets outside the tables. -/
structure Surroundings where
  /-- `_require_recording_connection` and `BEGIN IMMEDIATE`. -/
  connection : Checked Unit
  /-- `time.time_ns()`, for the observation and for the record. -/
  now : ℤ
  recordedNow : ℤ
  /-- `_after_reconciliation_insert`. -/
  inserted : Checked Unit
  commit : Checked Unit

/-! ## The request -/

/-- `_validate_reconciliation`. -/
def validateReconciliation (r : Reconciliation) : Checked Unit := do
  raiseIf (r.actionId < 1 ∨ r.runId < 1) .value
    "file-action and run identifiers must be positive"
  raiseIf (r.actionType = []) .value "file-action type cannot be empty"
  raiseIf (r.sourcePath = []) .value "file-action source path cannot be empty"
  raiseIf (r.recordedStatus ∉ [.applying, .recoveryRequired]) .value
    "reconciliation status must be applying or recovery_required"
  raiseIf (r.reconcilerSignature = []) .value "reconciler signature cannot be empty"
  raiseIf (r.recommendation ∉ r.classification.recommendations) .value
    "recommendation is incompatible with the reconciliation classification"
  raiseIf (r.detail = []) .value "reconciliation detail cannot be empty"

/-- `_prepare_request`. -/
def prepareRequest (codec : Codec) (around : Surroundings) (c : RecordCall) : Checked Request := do
  validateReconciliation c.reconciliation
  raiseIf (strip c.actor = []) .value "reconciliation actor cannot be empty"
  let provenance ← codec.canonicalProvenance c.provenanceJson
  raiseIf (c.expectedPreviousEventId.any (· < 1)) .value
    "expected previous reconciliation event must be positive"
  raiseIf (c.observedNs.getD around.now < 0) .value
    "reconciliation observation time must be a nonnegative integer"
  around.connection
  let identity : Identity :=
    ⟨c.reconciliation, strip c.actor, provenance, c.expectedPreviousEventId⟩
  pure { toIdentity := identity
         observedNs := c.observedNs.getD around.now
         reconciliationKey := codec.key identity }

/-! ## An event that is already there -/

/-- The columns that a release with other keys matches a request by. -/
def Recorded.sameColumns (e : Recorded) (i : Identity) : Bool :=
  e.actionId == i.reconciliation.actionId &&
  e.previousEventId == i.expectedPreviousEventId &&
  e.actionStatus == i.reconciliation.recordedStatus &&
  e.reconcilerSignature == i.reconciliation.reconcilerSignature &&
  e.eventSchemaVersion == reconciliationSchemaVersion &&
  e.actor == i.actor &&
  e.provenanceJson == i.provenanceJson &&
  e.classification == i.reconciliation.classification &&
  e.recommendation == i.reconciliation.recommendation &&
  e.detail == i.reconciliation.detail

/-- `_validate_existing_reconciliation`. -/
def validateExisting (e : Recorded) (i : Identity) : Checked Unit := do
  raiseIf (e.evidence = .unreadable) .database "stored reconciliation evidence is not valid JSON"
  raiseIf (e.sameColumns i = false ∨ e.evidence.reconciliation? ≠ some i.reconciliation) .runtime
    "file-action reconciliation-key collision"

/-- An integer that SQLite can hold; the others raise `OverflowError`. -/
def bindInteger (n : ℤ) : Checked Unit :=
  raiseIf (n < -2 ^ 63 ∨ 2 ^ 63 ≤ n) .other "Python int too large to convert to SQLite INTEGER"

namespace Store

variable (codec : Codec) (store : Store)

/-- `_existing_reconciliation`. -/
def existing (r : Request) : Checked (Option Recorded) := do
  match store.events.find? fun e => e.reconciliationKey == r.reconciliationKey with
  | some e =>
    validateExisting e r.toIdentity
    pure (some e)
  | none =>
    bindInteger r.reconciliation.actionId
    (r.expectedPreviousEventId.toList).forM bindInteger
    match store.events.find? fun e => e.sameColumns r.toIdentity with
    | none => pure none
    | some e =>
      validateExisting e r.toIdentity
      pure (some e)

/-! ## A new event -/

/-- The events of one action, oldest first. -/
def eventsOf (actionId : ℤ) : List Recorded := store.events.filter fun e => e.actionId == actionId

/-- `_action_snapshot`. -/
def actionSnapshot (r : Reconciliation) : Checked ActionSnapshot :=
  match store.ledger.actions.find? fun a => (a.actionId : ℤ) == r.actionId with
  | none => .error ⟨.runtime, lit s!"file action disappeared: {r.actionId}"⟩
  | some a => do
    raiseIf (a.status ≠ r.recordedStatus) .runtime
      (s!"file action status changed before reconciliation recording: " ++
        s!"{r.recordedStatus.text} -> {a.status.text}")
    raiseIf (a.runId ≠ r.runId ∨ a.idempotencyKey ≠ r.idempotencyKey ∨
        a.spec.actionType ≠ r.actionType ∨ a.spec.sourcePath ≠ r.sourcePath ∨
        a.spec.targetPath ≠ r.targetPath) .runtime
      "file action identity changed before reconciliation recording"
    pure ⟨a.runId, a.idempotencyKey, a.spec.actionType, a.spec.sourcePath, a.spec.targetPath,
      a.status, a.expectedIdentityJson, a.effectReceiptJson⟩

/-- `repr` of an optional integer. -/
def reprInteger (n : Option ℤ) : String := (n.map fun n => toString n).getD "None"

/-- `_next_sequence`. -/
def nextSequence (r : Request) : Checked ℤ :=
  let latest := (store.eventsOf r.reconciliation.actionId).getLast?
  let latestEventId := latest.map fun e => (e.eventId : ℤ)
  if latestEventId ≠ r.expectedPreviousEventId then
    .error ⟨.runtime, lit (s!"latest event changed before reconciliation recording: " ++
      s!"expected {reprInteger r.expectedPreviousEventId}, found {reprInteger latestEventId}")⟩
  else .ok ((latest.map fun e => e.sequence + 1).getD 1)

/-- SQLite's `length`, which stops at the first NUL. -/
def sqlLength (t : Text) : ℕ := (t.takeWhile (· ≠ '\x00')).length

/-- SQLite's `trim`, which takes spaces away. -/
def sqlTrim (t : Text) : Text := (t.dropWhile (· = ' ')).rdropWhile (· = ' ')

/-- The `CHECK`, `UNIQUE` and `FOREIGN KEY` constraints of the table. -/
def Admits (e : Recorded) : Prop :=
  1 ≤ e.sequence ∧ 0 ≤ e.observedNs ∧ 0 ≤ e.recordedNs ∧
  e.actionStatus ∈ [.applying, .recoveryRequired] ∧ 0 < sqlLength e.reconcilerSignature ∧
  e.eventSchemaVersion = 1 ∧ 0 < sqlLength (sqlTrim e.actor) ∧
  e.recommendation ∈ e.classification.recommendations ∧
  (e.sequence = 1 ↔ e.previousEventId = none) ∧
  (∀ d ∈ store.events, d.reconciliationKey ≠ e.reconciliationKey) ∧
  (∀ d ∈ store.events, d.actionId = e.actionId → d.sequence ≠ e.sequence) ∧
  (∃ a ∈ store.ledger.actions, (a.actionId : ℤ) = e.actionId) ∧
  (∀ p ∈ e.previousEventId, ∃ d ∈ store.events, (d.eventId : ℤ) = p ∧ d.actionId = e.actionId)

instance (e : Recorded) : Decidable (store.Admits e) := inferInstanceAs (Decidable (_ ∧ _))

/-- The row id that the next insert takes. -/
def nextEventId : ℕ := (store.events.map Recorded.eventId).foldr max 0 + 1

/-- The row that `_insert_reconciliation` writes. -/
def newEvent (r : Request) (a : ActionSnapshot) (sequence recordedNs : ℤ) : Recorded where
  eventId := store.nextEventId
  actionId := r.reconciliation.actionId
  sequence := sequence
  previousEventId := r.expectedPreviousEventId
  reconciliationKey := r.reconciliationKey
  observedNs := r.observedNs
  recordedNs := recordedNs
  actionStatus := r.reconciliation.recordedStatus
  reconcilerSignature := r.reconciliation.reconcilerSignature
  eventSchemaVersion := reconciliationSchemaVersion
  actor := r.actor
  provenanceJson := r.provenanceJson
  classification := r.reconciliation.classification
  recommendation := r.reconciliation.recommendation
  detail := r.reconciliation.detail
  evidence := .document a r.actor r.provenanceJson r.reconciliation

/-- `_insert_reconciliation`. -/
def insertReconciliation (around : Surroundings) (r : Request) (a : ActionSnapshot)
    (sequence : ℤ) : Checked (Recorded × Store) := do
  [sequence, r.observedNs, around.recordedNow].forM bindInteger
  let e := store.newEvent r a sequence around.recordedNow
  raiseIf (¬ store.Admits e) .database "constraint failed: file_action_reconciliation_events"
  around.inserted
  pure (e, { store with events := store.events ++ [e] })

/-- `_record_in_transaction`. -/
def recordInTransaction (around : Surroundings) (r : Request) : Checked (Recorded × Store) := do
  match ← store.existing r with
  | some e => pure (e, store)
  | none =>
    let action ← store.actionSnapshot r.reconciliation
    let sequence ← store.nextSequence r
    store.insertReconciliation around r action sequence

/-- `record_file_action_reconciliation`. -/
def recordFileActionReconciliation (around : Surroundings) (c : RecordCall) :
    Checked (Recorded × Store) := do
  let r ← prepareRequest codec around c
  let result ← store.recordInTransaction around r
  around.commit
  pure result

/-! ## Steps -/

/-- One transaction of one connection. -/
inductive Step where
  | record (around : Surroundings) (c : RecordCall)
  | ledger (t : Ledger.Transaction)

variable (keyOf : ℤ → ActionSpec → Text)

/-- What is committed after the transaction.  That one which raises is rolled back is part of this
definition: it is what SQLite does to a transaction that is not committed. -/
def next : Step → Store
  | .record around c =>
    match store.recordFileActionReconciliation codec around c with
    | .ok (_, store') => store'
    | .error _ => store
  | .ledger t =>
    match store.ledger.perform keyOf t with
    | .ok ledger => { store with ledger := ledger }
    | .error _ => store

def run (steps : List Step) : Store := steps.foldl (fun store step => store.next codec keyOf step) store

end Store

end Actions
end Neocortex
