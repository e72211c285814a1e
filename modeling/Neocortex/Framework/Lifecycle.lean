import Neocortex.Framework.Budget

/-!
# Manifests, terminal transitions and calls

The other writers of a run: `publish_run_manifest`, which creates or binds the budget of the
run, and the transitions of `persistence/framework_state_routes.py` that end it.  `Call` is
one call of the owner; a call that raises leaves the database as it was.

`_canonical_json` with SHA-256 enters as `canonicalDigest`.  The outcome of
`_check_organization_completion_locked`, and that of the recovery receipts of
`mark_abandoned_runs`, depend on events of other phases and are arguments here: a call may
meet any of them.
-/

namespace Neocortex
namespace Framework

open Python
open Checks (raiseIf)

/-! ## Manifests -/

def runManifestSchema : Text := lit "neocortex.run-manifest/v1"

/-- `"sha256:" + hashlib.sha256(_canonical_json(unsigned).encode("utf-8")).hexdigest()`. -/
abbrev CanonicalDigest := Members → Text

/-- One of `0123456789abcdef`. -/
def isDigestChar (c : Char) : Bool := ('0' ≤ c && c ≤ '9') || ('a' ≤ c && c ≤ 'f')

/-- The shape that `verify_event_payload` asks of a digest. -/
def isManifestDigest : Json → Bool
  | .str t => t.length == 71 && startsSha256 t && (t.drop 7).all isDigestChar
  | _ => false

def isRunKind : Json → Bool
  | .str t => t == lit "initial" || t == lit "route_only" || t == lit "resume"
  | _ => false

def isPositive : Json → Bool
  | .int n => decide (1 ≤ n)
  | _ => false

def isRoot : Json → Bool
  | .str t => t != [] && decide (utf8Len t ≤ 8192)
  | _ => false

def isInt : Json → Bool
  | .int _ => true
  | _ => false

def isRootIdentity : Json → Bool
  | .arr items => items.length == 3 && items.all isInt
  | _ => false

/-- The texts of a list of route names. -/
def routeNames : Json → Option (List Text)
  | .arr items => items.mapM fun v =>
      v.asStr?.bind fun t => if t = [] ∨ 128 < t.length then none else some t
  | _ => none

def isCapability : Json → Bool
  | .str t => t == lit "phase_resume" || t == lit "safe_replay" || t == lit "not_resumable"
  | _ => false

def isObject : Json → Bool
  | .obj _ => true
  | _ => false

/-- The check of `route_capabilities` against the selected routes. -/
def verifyCapabilities (routes : List Text) : Json → Checked Unit
  | .null => .ok ()
  | .obj members => do
    raiseIf (¬ ((∀ m ∈ members, m.1 ∈ routes) ∧ ∀ r ∈ routes, r ∈ members.map Prod.fst))
      (.value "run manifest route capabilities are invalid")
    raiseIf (¬ ∀ m ∈ members, isCapability (Json.get members m.1) = true)
      (.value "run manifest route capability is unsupported")
  | _ => .error (.value "run manifest route capabilities are invalid")

/-- `verify_event_payload`. -/
def verifyEventPayload (digestOf : CanonicalDigest) (payload : Members) : Checked Members := do
  raiseIf ((Json.get payload (lit "schema")).asStr? ≠ some runManifestSchema)
    (.value "unsupported run manifest schema")
  raiseIf (isManifestDigest (Json.get payload (lit "digest")) = false)
    (.value "run manifest digest is missing")
  raiseIf ((Json.get payload (lit "digest")).asStr? ≠
      some (digestOf (payload.filter fun m => m.1 != lit "digest")))
    (.value "run manifest digest does not match its payload")
  raiseIf (isPositive (Json.get payload (lit "run_id")) = false)
    (.value "run manifest run_id is invalid")
  raiseIf (isRunKind (Json.get payload (lit "run_kind")) = false)
    (.value "run manifest run_kind is unsupported")
  raiseIf (isRoot (Json.get payload (lit "root")) = false) (.value "run manifest root is invalid")
  raiseIf (isRootIdentity (Json.get payload (lit "root_identity")) = false)
    (.value "run manifest root identity is invalid")
  match routeNames (Json.get payload (lit "selected_routes")) with
  | none => .error (.value "run manifest selected routes are invalid")
  | some routes =>
    verifyCapabilities routes (Json.get payload (lit "route_capabilities"))
    raiseIf (isObject (Json.get payload (lit "configuration")) = false)
      (.value "run manifest configuration is invalid")
    raiseIf (isObject (Json.get payload (lit "budget")) = false)
      (.value "run manifest budget is invalid")
    raiseIf (isObject (Json.get payload (lit "input_snapshot")) = false)
      (.value "run manifest input_snapshot is invalid")
    match Json.get payload (lit "source_run_id") with
    | .null => pure payload
    | source =>
      raiseIf (isPositive source = false) (.value "run manifest source_run_id is invalid")
      pure payload

/-- `_budget_configuration`. -/
def budgetConfiguration (manifest : Members) : Checked Members :=
  match Json.get manifest (lit "budget") with
  | .obj value =>
    match Json.get value (lit "durable") with
    | .null => .ok value
    | .obj durable => .ok durable
    | _ => .error (.value "run manifest durable budget is not an object")
  | _ => .error (.value "run manifest budget is not an object")

/-- The budget that a verified manifest asks for. -/
def Database.ensureManifestBudget (F : Floats) (db : Database) (run : ℤ) (manifest : Members)
    (now : ℤ) : Checked Database := do
  let budget ← budgetConfiguration manifest
  let (_, db) ← db.ensureRunBudgetEvent F run (some budget)
    (some ((Json.get manifest (lit "digest")).asStr?.getD [])) now
  pure db

/-- `publish_run_manifest`. -/
def Database.publishRunManifest (F : Floats) (digestOf : CanonicalDigest) (db : Database)
    (run : ℤ) (manifest : Members) (now : ℤ) : Checked (Bool × Database) := do
  let verified ← verifyEventPayload digestOf manifest
  let owner ← asInt (Json.get verified (lit "run_id"))
  raiseIf (owner ≠ run) (.value s!"run manifest owner does not match run {run}")
  raiseIf (db.runs[run]? = none) (.value s!"run {run} does not exist")
  let rows := (db.eventsOf run .manifest).filter fun e => e.message == manifestPublished
  raiseIf (1 < rows.length) (.runtime s!"run {run} has duplicate lifecycle manifests")
  match rows.getLast? with
  | some existing =>
    raiseIf (render (.obj existing.details) ≠ render (.obj verified))
      (.runtime s!"run {run} has a conflicting lifecycle manifest")
    let db ← db.ensureManifestBudget F run verified now
    pure (false, db)
  | none =>
    let db ← db.insert run .manifest manifestPublished verified
    let db ← db.ensureManifestBudget F run verified now
    pure (true, db)

/-! ## Terminal transitions -/

/-- The text of a status. -/
def RunStatus.text : RunStatus → Text
  | .running => lit "running"
  | .completed => lit "completed"
  | .failed => lit "failed"
  | .cancelled => lit "cancelled"
  | .interrupted => lit "interrupted"

/-- The lifecycle event of a transition. -/
def Database.recordTransition (db : Database) (run : ℤ) (status : RunStatus) :
    Checked (Bool × Database) := do
  let (_, db) ← db.appendLifecycleEventOnce run .transition runTransitioned
    (lit "status:" ++ status.text) [(lit "status", .str status.text)]
  pure (true, db)

/-- `_check_run_completion_budget_locked`. -/
def Database.checkRunCompletionBudget (F : Floats) (db : Database) (run now : ℤ) :
    Checked Unit := do
  let snapshot ← db.readRunBudget F run now
  match db.runs[run]?, snapshot with
  | some row, some snapshot =>
    if row.status = .running then
      raiseIf (snapshot.cancelRequested = true) (.exceeded .cancelled)
      raiseIf (snapshot.expired = true) (.exceeded .time)
  | _, _ => pure ()

/-- The common body of the two completions. -/
def Database.completeRun (F : Floats) (db : Database) (run : ℤ) (matching : RunRow → Bool)
    (organization : Checked Unit) (message : String) (clock : ℕ → ℤ) :
    Checked (Bool × Database) := do
  db.checkRunCompletionBudget F run (clock 0)
  organization
  match db.finishRun run .completed (clock 1) matching with
  | some db => db.recordTransition run .completed
  | none =>
    raiseIf ((db.runs[run]?.map RunRow.status) ≠ some .completed) (.runtime message)
    pure (false, db)

/-- `complete_initial_run`. -/
def Database.completeInitialRun (F : Floats) (db : Database) (run : ℤ)
    (binding : InventoryBinding) (hasCursor : Bool) (organization : Checked Unit)
    (clock : ℕ → ℤ) : Checked (Bool × Database) := do
  raiseIf (binding.scanId ≤ 0 ∨ binding.reconciliationRecords < 0 ∨ binding.inventoryAttempts < 0 ∨
      binding.inventoryMode ∉ [lit "full", lit "incremental"])
    (.value "invalid initial routing snapshot")
  raiseIf (hasCursor = false ∧ binding.inventoryMode ≠ lit "full")
    (.value "portable inventory must publish a full scan")
  raiseIf (hasCursor = false ∧ (binding.reconciliationRecords < 0 ∨ binding.inventoryAttempts < 1))
    (.value "portable inventory must publish a positive full-scan history")
  db.completeRun F run (fun row => row.runKind == .initial && row.binding == some binding)
    organization s!"run {run} cannot complete without its published snapshot" clock

/-- `complete_operational_run`. -/
def Database.completeOperationalRun (F : Floats) (db : Database) (run : ℤ)
    (organization : Checked Unit) (clock : ℕ → ℤ) : Checked (Bool × Database) :=
  db.completeRun F run (fun row => row.runKind == .routeOnly || row.runKind == .resume)
    organization s!"run {run} is not a running operational execution" clock

/-- `fail_initial_run` and `cancel_initial_run`: end a running run, whatever it is bound to. -/
def Database.endRun (db : Database) (run : ℤ) (status : RunStatus) (now : ℤ) :
    Checked (Bool × Database) :=
  match db.finishRun run status now fun _ => true with
  | some db => db.recordTransition run status
  | none => .ok (false, db)

/-- `fail_initial_run`. -/
def Database.failInitialRun (db : Database) (run now : ℤ) : Checked (Bool × Database) :=
  db.endRun run .failed now

/-- `cancel_initial_run`. -/
def Database.cancelInitialRun (db : Database) (run now : ℤ) : Checked (Bool × Database) :=
  db.endRun run .cancelled now

/-- The budget part of the recovery loop: a budget that was not cancelled is cancelled. -/
def Database.abandonBudget (F : Floats) (now : ℤ) (db : Database) (run : ℤ) :
    Checked Database := do
  match ← db.readRunBudget F run now with
  | none => pure db
  | some budget =>
    if budget.cancelRequested then pure db
    else
      db.insert run .budget cancellationRequested
        (cancelledDetails budget.manifestDigest (lit "abrupt_termination"))

/-- `SELECT run_id FROM initial_runs WHERE status='running' ORDER BY run_id`. -/
def Database.activeRuns (db : Database) : List ℤ :=
  (db.runs.toList.filter fun r => r.2.status == .running).map Prod.fst

/-- `UPDATE initial_runs SET completed_ns=?,status='interrupted' WHERE status='running'`. -/
def Database.interruptRuns (db : Database) (now : ℤ) : Database :=
  db.activeRuns.foldl (fun db run => (db.finishRun run .interrupted now fun _ => true).getD db) db

/-- `mark_abandoned_runs`. -/
def Database.markAbandonedRuns (F : Floats) (db : Database) (receipts : Checked Unit) (now : ℤ) :
    Checked (Bool × Database) := do
  let interrupted := db.interruptRuns now
  let db ← db.activeRuns.foldlM (Database.abandonBudget F now) interrupted
  receipts
  pure (true, db)

/-! ## Calls -/

/-- One call of the owner of the database. -/
inductive Call where
  | reserve (c : ReserveCall)
  | consume (c : ReserveCall)
  | reserveStage (run : ℤ) (stage reservationId : Text) (items bytes : ℤ) (worker : Option Text)
  | consumeStage (run : ℤ) (stage reservationId : Text) (items bytes : ℤ) (worker : Option Text)
  | requestCancellation (run : ℤ) (reason : Text)
  | publishBudget (run : ℤ) (budget : Option Members) (manifestDigest : Option Text)
  | publishManifest (run : ℤ) (manifest : Members)
  | completeInitial (run : ℤ) (binding : InventoryBinding) (hasCursor : Bool)
      (organization : Checked Unit)
  | completeOperational (run : ℤ) (organization : Checked Unit)
  | fail (run : ℤ)
  | cancel (run : ℤ)
  | markAbandoned (receipts : Checked Unit)

/-- What a call returns. -/
inductive Outcome where
  | report (r : Report)
  | flag (b : Bool)

/-- The outcome of a call that returns a report. -/
def reported (x : Checked (Report × Database)) : Checked (Outcome × Database) :=
  (fun r => (.report r.1, r.2)) <$> x

/-- The outcome of a call that returns a flag. -/
def flagged (x : Checked (Bool × Database)) : Checked (Outcome × Database) :=
  (fun r => (.flag r.1, r.2)) <$> x

/-- One call, from the database it finds and the readings of the clock it makes. -/
def Database.perform (F : Floats) (digestOf : CanonicalDigest) (db : Database) (clock : ℕ → ℤ) :
    Call → Checked (Outcome × Database)
  | .reserve c => reported (db.reserveRunBudget F c clock)
  | .consume c => reported (db.consumeRunBudget F c clock)
  | .reserveStage run stage reservationId items bytes worker =>
    reported (db.reserveRunStage F run stage reservationId items bytes worker clock)
  | .consumeStage run stage reservationId items bytes worker =>
    reported (db.consumeRunStage F run stage reservationId items bytes worker clock)
  | .requestCancellation run reason => flagged (db.requestRunCancellation F run reason clock)
  | .publishBudget run budget digest => flagged (db.publishRunBudget F run budget digest (clock 0))
  | .publishManifest run manifest =>
    flagged (db.publishRunManifest F digestOf run manifest (clock 0))
  | .completeInitial run binding hasCursor organization =>
    flagged (db.completeInitialRun F run binding hasCursor organization clock)
  | .completeOperational run organization =>
    flagged (db.completeOperationalRun F run organization clock)
  | .fail run => flagged (db.failInitialRun run (clock 0))
  | .cancel run => flagged (db.cancelInitialRun run (clock 0))
  | .markAbandoned receipts => flagged (db.markAbandonedRuns F receipts (clock 0))

/-- The database after a call; an exception rolls its transaction back. -/
def Database.next (F : Floats) (digestOf : CanonicalDigest) (db : Database) (clock : ℕ → ℤ)
    (call : Call) : Database :=
  match db.perform F digestOf clock call with
  | .ok (_, db') => db'
  | .error _ => db

end Framework
end Neocortex
