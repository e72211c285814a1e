import Neocortex.Library.Connections
import Neocortex.Library.Checks
import Neocortex.Framework.Lifecycle

/-!
# Statements of the calls

The calls of the owner and `request_run_cancellation_external`, statement by statement.
Python's `sqlite3` opens a transaction before the first `INSERT` or `UPDATE` only, so the
statements that read before it see whatever is committed when they run.

`alone` runs the statements of a call with no other connection about; it gives the calls of
`Framework.Budget` and `Framework.Lifecycle`.
-/

namespace Neocortex
namespace Framework

open Python Checks Connections

/-- A call, statement by statement. -/
abbrev Statements := Program Database RunError

/-! ## Statements -/

/-- `json.dumps(details)` and `INSERT INTO run_events`. -/
def insertEvent (run : ℤ) (phase : Phase) (message : Text) (details : Members) :
    Statements Unit := do
  Program.ofExcept (raiseIf (intsFit (.obj details) = false)
    (.value "Exceeds the limit for integer string conversion"))
  Program.write (fun db => db.append run phase message details) fun _ => .done ()

/-- The part of `_read_run_budget_locked` that comes from the events. -/
def Database.replayRows (F : Floats) (db : Database) (run : ℤ) : Checked (Option Replay) := do
  let rows ← db.budgetRows run
  match rows with
  | [] => pure none
  | baseline :: rest =>
    let state ← replayBaseline F run baseline
    let state ← rest.foldlM (replayEvent run) state
    pure (some state)

/-- `_read_run_budget_locked`: the events, then the end of the run. -/
def readRunBudget (F : Floats) (run now : ℤ) : Statements (Option Snapshot) := do
  match ← Program.query fun db => db.replayRows F run with
  | none => pure none
  | some state =>
    let completedNs ← Program.query fun db => .ok (db.runs[run]?.bind RunRow.completedNs)
    Program.ofExcept (some <$> state.observe completedNs now)

/-- `_append_lifecycle_event_once`. -/
def appendLifecycleEventOnce (run : ℤ) (phase : Phase) (message idempotencyKey : Text)
    (details : Members) : Statements Bool := do
  let payload := details ++ [(lit "idempotency_key", .str idempotencyKey)]
  Program.ofExcept (raiseIf (intsFit (.obj payload) = false)
    (.value "Exceeds the limit for integer string conversion"))
  match ← Program.query fun db => .ok (db.lifecycleEvent? run phase message idempotencyKey) with
  | some e =>
    Program.ofExcept (raiseIf (render (.obj e.details) ≠ render (.obj payload))
      (.runtime s!"run {run} has a conflicting lifecycle event {String.ofList idempotencyKey}"))
    pure false
  | none =>
    insertEvent run phase message payload
    pure true

/-- `_ensure_run_budget_event`. -/
def ensureRunBudgetEvent (F : Floats) (run : ℤ) (budget : Option Members)
    (manifestDigest : Option Text) (now : ℤ) : Statements Bool := do
  let normalized ← Program.ofExcept (RunBudget.fromMapping F budget)
  let rows ← Program.query fun db => .ok (db.baselines run)
  Program.ofExcept (raiseIf (1 < rows.length)
    (.runtime s!"run {run} has duplicate lifecycle budgets"))
  match rows.getLast? with
  | some existing =>
    Program.ofExcept (raiseIf ((normalized.payload.all fun m =>
        F.equal (Json.get existing.details m.1) m.2) = false)
      (.runtime s!"run {run} has a conflicting lifecycle budget"))
    match manifestDigest with
    | none => pure false
    | some digest =>
      match Json.get existing.details (lit "manifest_digest") with
      | .null => do
        let _ ← appendLifecycleEventOnce run .budget budgetBound
          (lit "manifest-binding") (boundDetails digest)
        pure false
      | .str bound =>
        Program.ofExcept (raiseIf (bound ≠ digest)
          (.runtime s!"run {run} lifecycle budget is bound to another manifest"))
        pure false
      | _ => .raise (.runtime s!"run {run} lifecycle budget is bound to another manifest")
  | none =>
    let deadlineNs ← Program.ofExcept (deadlineOf F normalized now)
    insertEvent run .budget budgetInitialized
      (baselineDetails normalized manifestDigest now deadlineNs)
    pure true

/-- The snapshot of a run, after its baseline has been written if it had none. -/
def openRunBudget (F : Floats) (run : ℤ) (clock : ℕ → ℤ) : Statements Snapshot := do
  match ← readRunBudget F run (clock 0) with
  | some snapshot => pure snapshot
  | none =>
    let _ ← ensureRunBudgetEvent F run none none (clock 1)
    match ← readRunBudget F run (clock 2) with
    | some snapshot => pure snapshot
    | none => .raise (.runtime "assert snapshot is not None")

/-! ## Calls -/

/-- `reserve_run_budget`, its arguments checked. -/
def reserve (F : Floats) (r : Request) (clock : ℕ → ℤ) : Statements Report := do
  match ← Program.query fun db => .ok db.runs[r.run]? with
  | none => .raise (.value s!"run {r.run} does not exist")
  | some row =>
    let snapshot ← openRunBudget F r.run clock
    match snapshot.reservations.lookup r.reservationId with
    | some existing =>
      Program.ofExcept (raiseIf
        (existing.items ≠ r.items ∨ existing.bytes ≠ r.bytes ∨ existing.stage ≠ r.stage)
        (.value s!"run {r.run} reservation {String.ofList r.reservationId} conflicts"))
      pure { toSnapshot := snapshot, replayed := true, reservation := existing }
    | none =>
      Program.ofExcept (raiseIf (row.status ≠ .running) (.exceeded .terminal))
      match refusal snapshot r with
      | some reason => .raise (.exceeded reason)
      | none =>
        insertEvent r.run .budget budgetConsumed (consumedDetails snapshot r)
        match ← readRunBudget F r.run (clock 3) with
        | none => .raise (.runtime "assert result is not None")
        | some result =>
          pure { toSnapshot := result, replayed := false,
                 reservation := ⟨r.items, r.bytes, textOrNull r.worker, r.stage, none⟩ }

/-- `reserve_run_budget`. -/
def reserveRunBudget (F : Floats) (c : ReserveCall) (clock : ℕ → ℤ) : Statements Report := do
  let r ← Program.ofExcept c.request
  reserve F r clock

def checkReason (reason : Text) : Checked Unit :=
  raiseIf (reason = [] ∨ 512 < reason.length)
    (.value "cancellation reason must be non-empty and bounded")

/-- `request_run_cancellation`. -/
def requestRunCancellation (F : Floats) (run : ℤ) (reason : Text) (clock : ℕ → ℤ) :
    Statements Bool := do
  Program.ofExcept (checkReason reason)
  Program.query fun db => raiseIf (db.runs[run]? = none) (.value s!"run {run} does not exist")
  let snapshot ← openRunBudget F run clock
  if snapshot.cancelRequested then pure false
  else
    insertEvent run .budget cancellationRequested
      (cancelledDetails snapshot.manifestDigest reason)
    pure true

/-- The cancellations of a run. -/
def Database.cancellations (db : Database) (run : ℤ) : List Event :=
  (db.eventsOf run .budget).filter fun e => e.message == cancellationRequested

/-- `request_run_cancellation_external`. -/
def requestRunCancellationExternal (run : ℤ) (reason : Text) (now : ℤ) : Statements Bool := do
  Program.ofExcept (checkReason reason)
  Program.query fun db => raiseIf (db.runs[run]? = none) (.value s!"run {run} does not exist")
  let row ← Program.query fun db => .ok (db.baselines run).getLast?
  let manifestDigest := (row.map fun e => Json.get e.details (lit "manifest_digest")).getD .null
  let existing ← Program.query fun db => .ok (db.cancellations run).getLast?
  if existing.isSome then pure false
  else
    if row.isNone then
      insertEvent run .budget budgetInitialized (baselineDetails ⟨none, none, none⟩ none now none)
    insertEvent run .budget cancellationRequested (cancelledDetails manifestDigest reason)
    pure true

/-- `publish_run_budget`. -/
def publishRunBudget (F : Floats) (run : ℤ) (budget : Option Members)
    (manifestDigest : Option Text) (now : ℤ) : Statements Bool :=
  ensureRunBudgetEvent F run budget manifestDigest now

/-- `_check_run_completion_budget_locked`. -/
def checkRunCompletionBudget (F : Floats) (run now : ℤ) : Statements Unit := do
  let row ← Program.query fun db => .ok db.runs[run]?
  let snapshot ← readRunBudget F run now
  match row, snapshot with
  | some row, some snapshot =>
    Program.ofExcept (raiseIf (row.status = .running ∧ snapshot.cancelRequested = true)
      (.exceeded .cancelled))
    Program.ofExcept (raiseIf (row.status = .running ∧ snapshot.expired = true) (.exceeded .time))
  | _, _ => pure ()

/-- `complete_initial_run` and `complete_operational_run`. -/
def completeRun (F : Floats) (run : ℤ) (matching : RunRow → Bool) (organization : Checked Unit)
    (message : String) (clock : ℕ → ℤ) : Statements Bool := do
  checkRunCompletionBudget F run (clock 0)
  Program.query fun _ => organization
  let finished ← Program.write
    (fun db => (db.finishRun run .completed (clock 1) matching).getD db)
    fun db => .done (db.finishRun run .completed (clock 1) matching).isSome
  if finished then
    let _ ← appendLifecycleEventOnce run .transition runTransitioned
      (lit "status:" ++ RunStatus.completed.text)
      [(lit "status", .str RunStatus.completed.text)]
    pure true
  else
    Program.query fun db => raiseIf ((db.runs[run]?.map RunRow.status) ≠ some .completed)
      (.runtime message)
    pure false

/-! ## Calls with no other connection about -/

section Alone

theorem alone_raiseIf {α : Type} {c : Prop} [Decidable c] {e : RunError}
    {f : Unit → Statements α} (db : Database) :
    (Program.ofExcept (raiseIf c e) >>= f).alone db = if c then .error e else (f ()).alone db := by
  unfold raiseIf
  split_ifs <;> rfl

theorem alone_query_ok {α β : Type} {g : Database → α} {f : α → Statements β} (db : Database) :
    ((Program.query fun v => Except.ok (g v)) >>= f).alone db = (f (g db)).alone db := rfl

variable (F : Floats) (db : Database) (run : ℤ)

theorem insertEvent_alone (phase : Phase) (message : Text) (details : Members) :
    (insertEvent run phase message details).alone db =
      ((), ·) <$> db.insert run phase message details := by
  unfold insertEvent Database.insert
  by_cases h : intsFit (.obj details) = true
  · simp only [h, Program.alone_bind, Program.alone_ofExcept, raiseIf]
    rfl
  · simp only [h, Program.alone_bind, Program.alone_ofExcept, raiseIf]
    rfl

theorem Database.readRunBudget_eq (now : ℤ) :
    db.readRunBudget F run now = (do
      match ← db.replayRows F run with
      | none => pure none
      | some state => some <$> state.observe (db.runs[run]?.bind RunRow.completedNs) now) := by
  unfold Database.readRunBudget Database.replayRows
  rw [bind_assoc]
  refine bind_congr fun rows => ?_
  cases rows with
  | nil => rfl
  | cons baseline rest => simp only [bind_assoc, pure_bind, map_eq_pure_bind]

theorem readRunBudget_alone (now : ℤ) :
    (readRunBudget F run now).alone db = (·, db) <$> db.readRunBudget F run now := by
  rw [Database.readRunBudget_eq, readRunBudget, Program.alone_bind, Program.alone_query]
  cases db.replayRows F run with
  | error e => rfl
  | ok state? =>
    cases state? with
    | none => rfl
    | some state =>
      show (Program.ofExcept (some <$> state.observe _ now)).alone db = _
      rw [Program.alone_ofExcept]
      rfl

theorem appendLifecycleEventOnce_alone (phase : Phase) (message key : Text) (details : Members) :
    (appendLifecycleEventOnce run phase message key details).alone db =
      db.appendLifecycleEventOnce run phase message key details := by
  unfold appendLifecycleEventOnce Database.appendLifecycleEventOnce
  rw [alone_raiseIf, alone_query_ok]
  dsimp only
  split_ifs with hfit
  · rfl
  · cases db.lifecycleEvent? run phase message key with
    | none =>
      rw [Program.alone_bind, insertEvent_alone]
      cases db.insert run phase message _ <;> rfl
    | some e =>
      rw [alone_raiseIf]
      rfl

theorem ensureRunBudgetEvent_alone (budget : Option Members) (digest : Option Text) (now : ℤ) :
    (ensureRunBudgetEvent F run budget digest now).alone db =
      db.ensureRunBudgetEvent F run budget digest now := by
  unfold ensureRunBudgetEvent Database.ensureRunBudgetEvent
  rw [Program.alone_bind, Program.alone_ofExcept]
  cases RunBudget.fromMapping F budget with
  | error e => rfl
  | ok normalized =>
    rw [map_ok, ok_bind, ok_bind, alone_query_ok, alone_raiseIf, raiseIf_bind]
    split_ifs with hmany
    · rfl
    · cases (db.baselines run).getLast? with
      | none =>
        rw [Program.alone_bind, Program.alone_ofExcept]
        cases deadlineOf F normalized now with
        | error e => rfl
        | ok deadlineNs =>
          rw [map_ok, ok_bind, ok_bind, Program.alone_bind, insertEvent_alone]
          cases db.insert run .budget budgetInitialized _ <;> rfl
      | some existing =>
        simp only [alone_raiseIf, raiseIf_bind]
        split_ifs with hsame
        · rfl
        · cases digest with
          | none => rfl
          | some digest =>
            cases hbound : Json.get existing.details (lit "manifest_digest") with
            | null =>
              simp only [Program.alone_bind, appendLifecycleEventOnce_alone]
              rfl
            | str bound =>
              simp only [alone_raiseIf]
              rfl
            | _ => rfl

theorem openRunBudget_alone (clock : ℕ → ℤ) :
    (openRunBudget F run clock).alone db = db.openRunBudget F run clock := by
  unfold openRunBudget Database.openRunBudget
  rw [Program.alone_bind, readRunBudget_alone]
  cases db.readRunBudget F run (clock 0) with
  | error e => rfl
  | ok snapshot? =>
    rw [map_ok, ok_bind, ok_bind]
    cases snapshot? with
    | some snapshot => rfl
    | none =>
      simp only [Program.alone_bind, ensureRunBudgetEvent_alone, readRunBudget_alone]
      refine bind_congr fun r => ?_
      cases r.2.readRunBudget F run (clock 2) with
      | error e => rfl
      | ok snapshot? => cases snapshot? <;> rfl

/-- The statements of `reserve_run_budget` are those of the owner's call. -/
theorem reserveRunBudget_alone (c : ReserveCall) (clock : ℕ → ℤ) :
    (reserveRunBudget F c clock).alone db = db.reserveRunBudget F c clock := by
  unfold reserveRunBudget Database.reserveRunBudget
  rw [Program.alone_bind, Program.alone_ofExcept]
  cases c.request with
  | error e => rfl
  | ok r =>
    rw [map_ok, ok_bind, ok_bind]
    unfold reserve Database.reserve
    rw [alone_query_ok]
    cases db.runs[r.run]? with
    | none => rfl
    | some row =>
      simp only [Program.alone_bind, openRunBudget_alone]
      refine bind_congr fun s => ?_
      cases s.1.reservations.lookup r.reservationId with
      | some existing =>
        simp only [alone_raiseIf, raiseIf_bind]
        rfl
      | none =>
        unfold Database.reserveNew
        simp only [alone_raiseIf, raiseIf_bind]
        split_ifs
        · rfl
        · cases refusal s.1 r with
          | some reason => rfl
          | none =>
            simp only [Program.alone_bind, insertEvent_alone]
            cases s.2.insert r.run .budget budgetConsumed _ with
            | error e => rfl
            | ok db' =>
              simp only [map_ok, ok_bind, readRunBudget_alone]
              cases db'.readRunBudget F r.run (clock 3) with
              | error e => rfl
              | ok result => cases result <;> rfl

theorem requestRunCancellation_alone (reason : Text) (clock : ℕ → ℤ) :
    (requestRunCancellation F run reason clock).alone db =
      db.requestRunCancellation F run reason clock := by
  unfold requestRunCancellation Database.requestRunCancellation checkReason
  simp only [alone_raiseIf, raiseIf_bind, Program.alone_bind (Program.query _),
    Program.alone_query]
  split_ifs with hreason hrun
  · rfl
  · simp only [raiseIf, if_pos hrun]
    rfl
  · simp only [raiseIf, if_neg hrun, map_ok, ok_bind, Program.alone_bind, openRunBudget_alone]
    refine bind_congr fun s => ?_
    split_ifs
    · rfl
    · rw [Program.alone_bind, insertEvent_alone]
      cases s.2.insert run .budget cancellationRequested _ <;> rfl

theorem checkRunCompletionBudget_alone (now : ℤ) :
    (checkRunCompletionBudget F run now).alone db =
      (fun _ => ((), db)) <$> db.checkRunCompletionBudget F run now := by
  unfold checkRunCompletionBudget Database.checkRunCompletionBudget
  rw [alone_query_ok, Program.alone_bind, readRunBudget_alone]
  cases db.readRunBudget F run now with
  | error e => rfl
  | ok snapshot? =>
    rw [map_ok, ok_bind, ok_bind]
    cases db.runs[run]? with
    | none => rfl
    | some row =>
      cases snapshot? with
      | none => rfl
      | some snapshot =>
        simp only [alone_raiseIf, Program.alone_ofExcept]
        by_cases hrunning : row.status = .running
        · simp only [hrunning, true_and, if_true, raiseIf]
          split_ifs <;> rfl
        · simp only [hrunning, false_and, if_false, raiseIf]
          rfl

theorem completeRun_alone (matching : RunRow → Bool) (organization : Checked Unit)
    (message : String) (clock : ℕ → ℤ) :
    (completeRun F run matching organization message clock).alone db =
      db.completeRun F run matching organization message clock := by
  unfold completeRun Database.completeRun
  rw [Program.alone_bind, checkRunCompletionBudget_alone]
  cases db.checkRunCompletionBudget F run (clock 0) with
  | error e => rfl
  | ok u =>
    show (Program.query (fun _ => organization) >>= _).alone db = _
    rw [Program.alone_bind, Program.alone_query, ok_bind]
    cases organization with
    | error e => rfl
    | ok u =>
      rw [map_ok, ok_bind, ok_bind, Program.alone_bind]
      cases hfinish : db.finishRun run .completed (clock 1) matching with
      | some db' =>
        simp only [Program.alone, hfinish, Option.getD_some, Option.isSome_some, ok_bind, if_true,
          Program.alone_bind, appendLifecycleEventOnce_alone, Database.recordTransition]
        rfl
      | none =>
        simp only [Program.alone, hfinish, Option.getD_none, Option.isSome_none, ok_bind,
          Bool.false_eq_true, if_false, Program.alone_bind, Program.alone_query]
        by_cases hstatus : (db.runs[run]?.map RunRow.status) ≠ some .completed
        · simp only [raiseIf, if_pos hstatus]
          rfl
        · simp only [raiseIf, if_neg hstatus]
          rfl

end Alone

end Framework
end Neocortex
