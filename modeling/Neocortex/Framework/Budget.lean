import Neocortex.Framework.Records

/-!
# The durable run budget

`_budget_rows`, `_read_run_budget_locked` and the calls that append to the budget of a run:
`publish_run_budget`, `publish_run_manifest`, `reserve_run_budget` with its three aliases,
`request_run_cancellation`, and the terminal transitions of the run itself.

The state of a budget is not stored.  It is replayed, on every call, from the events of
phase `lifecycle-budget`: a baseline, then consumed reservations, at most one cancellation
and at most one binding to a manifest.

A call runs in one transaction: `.error` is the exception, with nothing written, and `.ok`
carries the database it commits.  `clock` gives the successive readings of `time.time_ns()`
inside a call; they are arbitrary.

`int()` and `str()` of the reader are applied to integers and strings only: a JSON value of
another type, which no writer stores there, is refused.
-/

namespace Neocortex
namespace Framework

open Python
open Checks (raiseIf)

/-! ## Messages -/

def budgetInitialized : Text := lit "Run budget initialized"
def budgetBound : Text := lit "Run budget bound"
def budgetConsumed : Text := lit "Run budget consumed"
def cancellationRequested : Text := lit "Run cancellation requested"
def manifestPublished : Text := lit "Run manifest published"
def runTransitioned : Text := lit "Run transitioned"

/-! ## Replay -/

/-- One value of `state["reservations"]`. -/
structure Reservation where
  items : ℤ
  bytes : ℤ
  worker : Json
  stage : Option Text
  /-- The event that holds it; the report of a new reservation has none. -/
  eventId : Option ℕ

/-- The `state` of `_read_run_budget_locked` while it walks the events. -/
structure Replay where
  manifestDigest : Json
  budget : RunBudget
  startedNs : Json
  deadlineNs : Json
  consumedItems : ℤ
  consumedBytes : ℤ
  cancelRequested : Bool
  cancelReason : Json
  reservations : List (Text × Reservation)
  lastEventId : ℕ

/-- `elapsed_scope`. -/
inductive ElapsedScope where
  | observation
  | completion
  deriving DecidableEq, Repr

/-- The `state` that `_read_run_budget_locked` returns. -/
structure Snapshot extends Replay where
  elapsedNs : ℤ
  elapsedUntilNs : ℤ
  elapsedScope : ElapsedScope
  expired : Bool
  remainingItems : Option ℤ
  remainingBytes : Option ℤ

/-- `int(value)`. -/
def asInt : Json → Checked ℤ
  | .int n => .ok n
  | _ => .error (.type "int() argument must be a number")

/-- `bool(value)`, of the values a baseline stores. -/
def truthy : Json → Bool
  | .bool b => b
  | .null => false
  | .int n => n != 0
  | .str s => s != []
  | .arr items => !items.isEmpty
  | .obj members => !members.isEmpty
  | .float _ => true

/-- The checks of `_budget_rows` on one row. -/
def budgetRow (run : ℤ) (e : Event) : Checked (ℕ × Members) := do
  raiseIf ((Json.get e.details (lit "schema")).asStr? ≠ some runBudgetSchema)
    (.runtime s!"run {run} lifecycle budget schema is unsupported")
  match Json.get e.details (lit "idempotency_key") with
  | .null => pure (e.eventId, e.details)
  | .str key =>
    raiseIf (key = [] ∨ 256 < key.length)
      (.runtime s!"run {run} lifecycle budget idempotency key is invalid")
    pure (e.eventId, e.details)
  | _ => .error (.runtime s!"run {run} lifecycle budget idempotency key is invalid")

/-- `_budget_rows`. -/
def Database.budgetRows (db : Database) (run : ℤ) : Checked (List (ℕ × Members)) :=
  (db.eventsOf run .budget).mapM (budgetRow run)

/-- `except ValueError as exc: raise RuntimeError(message) from exc`. -/
def valueAsRuntime {α : Type} (message : String) : Checked α → Checked α
  | .error (.value _) => .error (.runtime message)
  | x => x

/-- `baseline.get("kind") not in {None, "baseline"}`. -/
def isBaselineKind : Json → Bool
  | .null => true
  | .str s => s == lit "baseline"
  | _ => false

/-- The state that the first row gives. -/
def replayBaseline (F : Floats) (run : ℤ) (row : ℕ × Members) : Checked Replay := do
  let normalized ← valueAsRuntime s!"run {run} lifecycle budget is invalid"
    (RunBudget.fromMapping F (some row.2))
  raiseIf (isBaselineKind (Json.get row.2 (lit "kind")) = false)
    (.runtime s!"run {run} lifecycle budget baseline is invalid")
  let consumedItems ← if hasKey row.2 (lit "consumed_items") then
    asInt (Json.get row.2 (lit "consumed_items")) else pure 0
  let consumedBytes ← if hasKey row.2 (lit "consumed_bytes") then
    asInt (Json.get row.2 (lit "consumed_bytes")) else pure 0
  pure {
    manifestDigest := Json.get row.2 (lit "manifest_digest")
    budget := normalized
    startedNs := Json.get row.2 (lit "started_ns")
    deadlineNs := Json.get row.2 (lit "deadline_ns")
    consumedItems := consumedItems
    consumedBytes := consumedBytes
    cancelRequested := truthy (Json.get row.2 (lit "cancel_requested"))
    cancelReason := Json.get row.2 (lit "cancel_reason")
    reservations := []
    lastEventId := row.1 }

/-- An amount of a consumed event: a missing one is zero, a negative one is refused. -/
def eventAmount (members : Members) (key : Text) (e : RunError) : Checked ℤ :=
  if hasKey members key then
    match Json.get members key with
    | .int n => if n < 0 then .error e else .ok n
    | _ => .error e
  else .ok 0

/-- The stage of a consumed event. -/
def eventStage (members : Members) : Checked (Option Text) :=
  match Json.get members (lit "stage") with
  | .null => .ok none
  | stage => some <$> boundedLifecycleName stage "budget stage"

/-- One `consumed` event.  A reservation that the state holds already is not a second effect. -/
def replayConsumed (run : ℤ) (state : Replay) (row : ℕ × Members) : Checked Replay := do
  let reservationId := (Json.get row.2 (lit "reservation_id")).asStr?.getD []
  raiseIf (reservationId = [] ∨ 256 < reservationId.length)
    (.runtime s!"run {run} lifecycle budget has invalid reservation")
  if (state.reservations.lookup reservationId).isSome then
    pure state
  else
    let items ← eventAmount row.2 (lit "items")
      (.runtime s!"run {run} lifecycle budget has invalid items")
    let bytes ← eventAmount row.2 (lit "bytes")
      (.runtime s!"run {run} lifecycle budget has invalid bytes")
    let stage ← eventStage row.2
    let reservation : Reservation :=
      ⟨items, bytes, Json.get row.2 (lit "worker"), stage, some row.1⟩
    pure { state with
      consumedItems := state.consumedItems + items
      consumedBytes := state.consumedBytes + bytes
      reservations := state.reservations ++ [(reservationId, reservation)] }

/-- One `cancelled` event. -/
def replayCancelled (run : ℤ) (state : Replay) (row : ℕ × Members) : Checked Replay :=
  match Json.get row.2 (lit "reason") with
  | .str reason =>
    if reason = [] ∨ 512 < reason.length then
      .error (.runtime s!"run {run} lifecycle cancellation reason is invalid")
    else .ok { state with cancelRequested := true, cancelReason := .str reason }
  | _ => .error (.runtime s!"run {run} lifecycle cancellation reason is invalid")

/-- `digest.startswith("sha256:")`. -/
def startsSha256 (digest : Text) : Bool := (lit "sha256:").isPrefixOf digest

/-- One `bound` event. -/
def replayBound (run : ℤ) (state : Replay) (row : ℕ × Members) : Checked Replay :=
  match Json.get row.2 (lit "manifest_digest") with
  | .str digest =>
    if startsSha256 digest then .ok { state with manifestDigest := .str digest }
    else .error (.runtime s!"run {run} lifecycle budget binding is invalid")
  | _ => .error (.runtime s!"run {run} lifecycle budget binding is invalid")

/-- The body of the loop over `rows[1:]`. -/
def replayEvent (run : ℤ) (state : Replay) (row : ℕ × Members) : Checked Replay :=
  let state := { state with lastEventId := row.1 }
  match (Json.get row.2 (lit "kind")).asStr? with
  | some kind =>
    if kind = lit "consumed" then replayConsumed run state row
    else if kind = lit "cancelled" then replayCancelled run state row
    else if kind = lit "bound" then replayBound run state row
    else .ok state
  | none => .ok state

/-- The fields that depend on the run's row and on the clock. -/
def Replay.observe (state : Replay) (completedNs : Option ℤ) (now : ℤ) : Checked Snapshot := do
  let elapsedUntilNs := completedNs.getD now
  let startedNs ← asInt state.startedNs
  let expired ← match state.deadlineNs with
    | .null => pure false
    | deadline => do
      let deadlineNs ← asInt deadline
      pure (decide (deadlineNs ≤ elapsedUntilNs))
  pure {
    toReplay := state
    elapsedNs := max 0 (elapsedUntilNs - startedNs)
    elapsedUntilNs := elapsedUntilNs
    elapsedScope := if completedNs.isSome then .completion else .observation
    expired := expired
    remainingItems := state.budget.maxItems.map fun m => max 0 (m - state.consumedItems)
    remainingBytes := state.budget.maxBytes.map fun m => max 0 (m - state.consumedBytes) }

/-- `_read_run_budget_locked`. -/
def Database.readRunBudget (F : Floats) (db : Database) (run : ℤ) (now : ℤ) :
    Checked (Option Snapshot) := do
  let rows ← db.budgetRows run
  match rows with
  | [] => pure none
  | baseline :: rest =>
    let state ← replayBaseline F run baseline
    let state ← rest.foldlM (replayEvent run) state
    let snapshot ← state.observe (db.runs[run]?.bind RunRow.completedNs) now
    pure (some snapshot)

/-! ## Appending once -/

/-- The row of one phase and message that carries an idempotency key. -/
def Database.lifecycleEvent? (db : Database) (run : ℤ) (phase : Phase) (message : Text)
    (idempotencyKey : Text) : Option Event :=
  ((db.eventsOf run phase).filter fun e => e.message == message).find? fun e =>
    (Json.get e.details (lit "idempotency_key")).asStr? == some idempotencyKey

/-- `_append_lifecycle_event_once`.  Its details are compared as text. -/
def Database.appendLifecycleEventOnce (db : Database) (run : ℤ) (phase : Phase) (message : Text)
    (idempotencyKey : Text) (details : Members) : Checked (Bool × Database) :=
  let payload := details ++ [(lit "idempotency_key", .str idempotencyKey)]
  if intsFit (.obj payload) = false then
    .error (.value "Exceeds the limit for integer string conversion")
  else
    match db.lifecycleEvent? run phase message idempotencyKey with
    | some e =>
      if render (.obj e.details) ≠ render (.obj payload) then
        .error (.runtime s!"run {run} has a conflicting lifecycle event {String.ofList idempotencyKey}")
      else .ok (false, db)
    | none => do
      let db ← db.insert run phase message payload
      pure (true, db)

/-! ## The baseline -/

/-- The details of a baseline event. -/
def baselineDetails (b : RunBudget) (manifestDigest : Option Text) (startedNs : ℤ)
    (deadlineNs : Option ℤ) : Members :=
  b.payload ++
  [(lit "manifest_digest", textOrNull manifestDigest),
   (lit "started_ns", .int startedNs),
   (lit "deadline_ns", intOrNull deadlineNs),
   (lit "consumed_items", .int 0),
   (lit "consumed_bytes", .int 0),
   (lit "cancel_requested", .bool false),
   (lit "cancel_reason", .null),
   (lit "reservation_count", .int 0),
   (lit "idempotency_key", .str (lit "baseline"))]

/-- The details of a binding, without the key that is appended to them. -/
def boundDetails (manifestDigest : Text) : Members :=
  [(lit "schema", .str runBudgetSchema),
   (lit "kind", .str (lit "bound")),
   (lit "manifest_digest", .str manifestDigest)]

/-- `now + int(float(max_duration_seconds) * 1_000_000_000)`. -/
def deadlineOf (F : Floats) (b : RunBudget) (now : ℤ) : Checked (Option ℤ) :=
  match b.maxDurationSeconds with
  | none => .ok none
  | some d =>
    match (F.number d).bind F.nanoseconds with
    | some ns => .ok (some (now + ns))
    | none => .error (.overflow "cannot convert float infinity to integer")

/-- The baseline rows of a run. -/
def Database.baselines (db : Database) (run : ℤ) : List Event :=
  (db.eventsOf run .budget).filter fun e => e.message == budgetInitialized

/-- `_ensure_run_budget_event`. -/
def Database.ensureRunBudgetEvent (F : Floats) (db : Database) (run : ℤ)
    (budget : Option Members) (manifestDigest : Option Text) (now : ℤ) :
    Checked (Bool × Database) := do
  let normalized ← RunBudget.fromMapping F budget
  raiseIf (1 < (db.baselines run).length) (.runtime s!"run {run} has duplicate lifecycle budgets")
  match (db.baselines run).getLast? with
  | some existing =>
    raiseIf ((normalized.payload.all fun m =>
        F.equal (Json.get existing.details m.1) m.2) = false)
      (.runtime s!"run {run} has a conflicting lifecycle budget")
    match manifestDigest with
    | none => pure (false, db)
    | some digest =>
      match Json.get existing.details (lit "manifest_digest") with
      | .null => do
        let (_, db) ← db.appendLifecycleEventOnce run .budget budgetBound
          (lit "manifest-binding") (boundDetails digest)
        pure (false, db)
      | .str bound =>
        raiseIf (bound ≠ digest)
          (.runtime s!"run {run} lifecycle budget is bound to another manifest")
        pure (false, db)
      | _ => .error (.runtime s!"run {run} lifecycle budget is bound to another manifest")
  | none =>
    let deadlineNs ← deadlineOf F normalized now
    let db ← db.insert run .budget budgetInitialized
      (baselineDetails normalized manifestDigest now deadlineNs)
    pure (true, db)

/-- `publish_run_budget`. -/
def Database.publishRunBudget (F : Floats) (db : Database) (run : ℤ) (budget : Option Members)
    (manifestDigest : Option Text) (now : ℤ) : Checked (Bool × Database) :=
  db.ensureRunBudgetEvent F run budget manifestDigest now

/-- The snapshot of a run, after its baseline has been written if it had none. -/
def Database.openRunBudget (F : Floats) (db : Database) (run : ℤ) (clock : ℕ → ℤ) :
    Checked (Snapshot × Database) := do
  match ← db.readRunBudget F run (clock 0) with
  | some snapshot => pure (snapshot, db)
  | none =>
    let (_, db) ← db.ensureRunBudgetEvent F run none none (clock 1)
    match ← db.readRunBudget F run (clock 2) with
    | some snapshot => pure (snapshot, db)
    | none => .error (.runtime "assert snapshot is not None")

/-! ## Reservations -/

/-- The arguments of `reserve_run_budget`. -/
structure ReserveCall where
  run : ℤ
  reservationId : Text
  items : ℤ := 0
  bytes : ℤ := 0
  worker : Option Text := none
  stage : Option Text := none
  itemCount : Option ℤ := none
  byteCount : Option ℤ := none

/-- `item_count` stands for `items` where it is given. -/
def countArgument (value : ℤ) (count : Option ℤ) (message : String) : Checked ℤ :=
  match count with
  | none => .ok value
  | some n => if value ≠ 0 ∧ value ≠ n then .error (.value message) else .ok n

/-- What a reservation asks for, its arguments checked. -/
structure Request where
  run : ℤ
  reservationId : Text
  items : ℤ
  bytes : ℤ
  worker : Option Text
  stage : Option Text

/-- The check of the stage. -/
def stageArgument : Option Text → Checked (Option Text)
  | none => .ok none
  | some stage => some <$> boundedLifecycleName (.str stage) "budget stage"

/-- The checks of `reserve_run_budget` before its transaction. -/
def ReserveCall.request (c : ReserveCall) : Checked Request := do
  let items ← countArgument c.items c.itemCount "items and item_count disagree"
  let bytes ← countArgument c.bytes c.byteCount "bytes and byte_count disagree"
  raiseIf (c.reservationId = [] ∨ 256 < c.reservationId.length)
    (.value "reservation_id must be non-empty and bounded")
  let stage ← stageArgument c.stage
  raiseIf (items < 0 ∨ bytes < 0)
    (.value "budget reservation items and bytes must be non-negative integers")
  pure ⟨c.run, c.reservationId, items, bytes, c.worker, stage⟩

/-- The details of a consumed event. -/
def consumedDetails (snapshot : Snapshot) (r : Request) : Members :=
  [(lit "schema", .str runBudgetSchema),
   (lit "kind", .str (lit "consumed")),
   (lit "manifest_digest", snapshot.manifestDigest),
   (lit "reservation_id", .str r.reservationId),
   (lit "worker", textOrNull r.worker),
   (lit "stage", textOrNull r.stage),
   (lit "items", .int r.items),
   (lit "bytes", .int r.bytes),
   (lit "consumed_items", .int (snapshot.consumedItems + r.items)),
   (lit "consumed_bytes", .int (snapshot.consumedBytes + r.bytes)),
   (lit "idempotency_key", .str (lit "reservation:" ++ r.reservationId))]

/-- What `reserve_run_budget` returns. -/
structure Report extends Snapshot where
  replayed : Bool
  reservation : Reservation

/-- Why a new reservation is refused, `None` if it is not. -/
def refusal (snapshot : Snapshot) (r : Request) : Option BudgetStop :=
  if snapshot.cancelRequested then some .cancelled
  else if snapshot.expired then some .time
  else if snapshot.budget.maxItems.any fun m => decide (m < snapshot.consumedItems + r.items) then
    some .items
  else if snapshot.budget.maxBytes.any fun m => decide (m < snapshot.consumedBytes + r.bytes) then
    some .bytes
  else none

/-- The part of `reserve_run_budget` for a reservation that the snapshot does not hold. -/
def Database.reserveNew (F : Floats) (db : Database) (row : RunRow) (snapshot : Snapshot)
    (r : Request) (clock : ℕ → ℤ) : Checked (Report × Database) := do
  raiseIf (row.status ≠ .running) (.exceeded .terminal)
  match refusal snapshot r with
  | some reason => .error (.exceeded reason)
  | none =>
    let db ← db.insert r.run .budget budgetConsumed (consumedDetails snapshot r)
    match ← db.readRunBudget F r.run (clock 3) with
    | none => .error (.runtime "assert result is not None")
    | some result =>
      pure ({ toSnapshot := result, replayed := false,
              reservation := ⟨r.items, r.bytes, textOrNull r.worker, r.stage, none⟩ }, db)

/-- The transaction of `reserve_run_budget`. -/
def Database.reserve (F : Floats) (db : Database) (r : Request) (clock : ℕ → ℤ) :
    Checked (Report × Database) := do
  match db.runs[r.run]? with
  | none => .error (.value s!"run {r.run} does not exist")
  | some row =>
    let (snapshot, db) ← db.openRunBudget F r.run clock
    match snapshot.reservations.lookup r.reservationId with
    | some existing =>
      raiseIf (existing.items ≠ r.items ∨ existing.bytes ≠ r.bytes ∨ existing.stage ≠ r.stage)
        (.value s!"run {r.run} reservation {String.ofList r.reservationId} conflicts")
      pure ({ toSnapshot := snapshot, replayed := true, reservation := existing }, db)
    | none => db.reserveNew F row snapshot r clock

/-- `reserve_run_budget`. -/
def Database.reserveRunBudget (F : Floats) (db : Database) (c : ReserveCall) (clock : ℕ → ℤ) :
    Checked (Report × Database) := do
  let r ← c.request
  db.reserve F r clock

/-- `consume_run_budget`. -/
def Database.consumeRunBudget (F : Floats) (db : Database) (c : ReserveCall) (clock : ℕ → ℤ) :
    Checked (Report × Database) :=
  db.reserveRunBudget F c clock

/-- `reserve_run_stage`. -/
def Database.reserveRunStage (F : Floats) (db : Database) (run : ℤ) (stage reservationId : Text)
    (items bytes : ℤ) (worker : Option Text) (clock : ℕ → ℤ) : Checked (Report × Database) :=
  db.reserveRunBudget F
    { run := run, reservationId := reservationId, items := items, bytes := bytes,
      worker := worker, stage := some stage } clock

/-- `consume_run_stage`. -/
def Database.consumeRunStage (F : Floats) (db : Database) (run : ℤ) (stage reservationId : Text)
    (items bytes : ℤ) (worker : Option Text) (clock : ℕ → ℤ) : Checked (Report × Database) :=
  db.consumeRunBudget F
    { run := run, reservationId := reservationId, items := items, bytes := bytes,
      worker := worker, stage := some stage } clock

/-! ## Cancellation -/

/-- The details of a cancelled event. -/
def cancelledDetails (manifestDigest : Json) (reason : Text) : Members :=
  [(lit "schema", .str runBudgetSchema),
   (lit "kind", .str (lit "cancelled")),
   (lit "manifest_digest", manifestDigest),
   (lit "reason", .str reason),
   (lit "idempotency_key", .str (lit "cancellation"))]

/-- `request_run_cancellation`. -/
def Database.requestRunCancellation (F : Floats) (db : Database) (run : ℤ) (reason : Text)
    (clock : ℕ → ℤ) : Checked (Bool × Database) := do
  raiseIf (reason = [] ∨ 512 < reason.length)
    (.value "cancellation reason must be non-empty and bounded")
  raiseIf (db.runs[run]? = none) (.value s!"run {run} does not exist")
  let (snapshot, db) ← db.openRunBudget F run clock
  if snapshot.cancelRequested then
    pure (false, db)
  else
    let db ← db.insert run .budget cancellationRequested
      (cancelledDetails snapshot.manifestDigest reason)
    pure (true, db)

end Framework
end Neocortex
