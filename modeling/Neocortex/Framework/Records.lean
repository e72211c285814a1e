import Neocortex.Library.Checks
import Neocortex.Library.Tables
import Neocortex.Python.Json

/-!
# Lifecycle runs and their events

The rows that `persistence/framework_state_runs.py` reads and writes: `initial_runs`, the
append-only `run_events` and, inside an event, the details of a durable run budget.

The details of an event are kept as the decoded members of their JSON object, in the order
in which they were written.  The columns that nothing below reads (`level`, `occurred_ns`,
the heartbeat and phase columns, the corpus identity) are left out.

Floating point enters through `Floats`: what a float literal is worth, and what
`int(float(seconds) * 1_000_000_000)` gives.  Nothing below assumes anything about it.
-/

namespace Neocortex
namespace Framework

open Python
open Checks (raiseIf)

/-- The members of a decoded JSON object. -/
abbrev Members := List (Text × Json)

/-- `None` or a text, as JSON. -/
def textOrNull (t : Option Text) : Json := (t.map Json.str).getD .null

/-- `None` or an integer, as JSON. -/
def intOrNull (n : Option ℤ) : Json := (n.map Json.int).getD .null

/-- `key in members`. -/
def hasKey (members : Members) (key : Text) : Bool := members.any fun m => m.1 == key

/-! ## Errors -/

/-- The reason of a `RunBudgetExceeded`. -/
inductive BudgetStop where
  | terminal
  | cancelled
  | time
  | items
  | bytes
  deriving DecidableEq, Repr

/-- What a call raises.  The snapshot that `RunBudgetExceeded` carries is the one the call
has read, and is not repeated here. -/
inductive RunError where
  /-- `ValueError`. -/
  | value (message : String)
  /-- `TypeError`. -/
  | type (message : String)
  /-- `OverflowError`. -/
  | overflow (message : String)
  /-- `RuntimeError`. -/
  | runtime (message : String)
  /-- `RunBudgetExceeded`. -/
  | exceeded (reason : BudgetStop)
  deriving DecidableEq, Repr

abbrev Checked := Except RunError

/-- What `_bounded_lifecycle_name` accepts. -/
def IsLifecycleName (t : Text) : Prop := t ≠ [] ∧ strip t = t ∧ t.length ≤ 128

instance (t : Text) : Decidable (IsLifecycleName t) := inferInstanceAs (Decidable (_ ∧ _ ∧ _))

/-- `_bounded_lifecycle_name`, with its default limit. -/
def boundedLifecycleName (value : Json) (label : String) : Checked Text :=
  match value with
  | .str t =>
    if IsLifecycleName t then .ok t else .error (.value s!"{label} is empty or too large")
  | _ => .error (.value s!"{label} is empty or too large")

theorem boundedLifecycleName_str {t : Text} (h : IsLifecycleName t) (label : String) :
    boundedLifecycleName (.str t) label = .ok t := by
  rw [boundedLifecycleName, if_pos h]

/-! ## `RunBudget` -/

/-- The floating-point operations of the module. -/
structure Floats where
  /-- The value of a float literal; `none` is an infinity or a nan. -/
  value : Text → Option ℚ
  /-- `float(n)` raises `OverflowError`. -/
  overflows : ℤ → Bool
  /-- `int(float(seconds) * 1_000_000_000)`; `none` is the `OverflowError` of an infinite
  product. -/
  nanoseconds : ℚ → Option ℤ

/-- The value of a JSON number. -/
def Floats.number (F : Floats) : Json → Option ℚ
  | .int n => some n
  | .float lexeme => F.value lexeme
  | _ => none

/-- `==` between the scalars of a budget payload; an integer equals a float of its value. -/
def Floats.equal (F : Floats) : Json → Json → Bool
  | .null, .null => true
  | .str s, .str t => s == t
  | a, b =>
    match F.number a, F.number b with
    | some x, some y => x == y
    | _, _ => false

/-- `RunBudget`: the limits of one run. -/
structure RunBudget where
  maxItems : Option ℕ
  maxBytes : Option ℕ
  /-- The number as it was given. -/
  maxDurationSeconds : Option Json

def runBudgetSchema : Text := lit "neocortex.run-budget/v1"

/-- The check of `max_items` and of `max_bytes`. -/
def budgetLimit (name : String) : Json → Checked (Option ℕ)
  | .null => .ok none
  | .int n =>
    if n < 0 then .error (.value s!"{name} must be a non-negative integer or null")
    else .ok (some n.toNat)
  | _ => .error (.value s!"{name} must be a non-negative integer or null")

/-- The check of `max_duration_seconds`. -/
def budgetDuration (F : Floats) : Json → Checked (Option Json)
  | .null => .ok none
  | .int n =>
    if n ≤ 0 then .error (.value "max_duration_seconds must be positive or null")
    else if F.overflows n then .error (.overflow "int too large to convert to float")
    else .ok (some (.int n))
  | .float lexeme =>
    match F.value lexeme with
    | some q =>
      if q ≤ 0 then .error (.value "max_duration_seconds must be positive or null")
      else .ok (some (.float lexeme))
    | none => .error (.value "max_duration_seconds must be positive or null")
  | _ => .error (.value "max_duration_seconds must be positive or null")

/-- `first(*names)` of `from_mapping`. -/
def firstOf (members : Members) : List Text → Json
  | [] => .null
  | name :: names =>
    if hasKey members name then Json.get members name else firstOf members names

/-- `RunBudget.from_mapping`, with the checks of `__post_init__`. -/
def RunBudget.fromMapping (F : Floats) : Option Members → Checked RunBudget
  | none => .ok ⟨none, none, none⟩
  | some value => do
    let maxItems ← budgetLimit "max_items" (firstOf value [lit "max_items", lit "items"])
    let maxBytes ← budgetLimit "max_bytes" (firstOf value [lit "max_bytes", lit "bytes"])
    let maxDurationSeconds ← budgetDuration F (firstOf value
      [lit "max_duration_seconds", lit "time_budget_seconds", lit "time_seconds"])
    pure ⟨maxItems, maxBytes, maxDurationSeconds⟩

/-- `payload`. -/
def RunBudget.payload (b : RunBudget) : Members :=
  [(lit "schema", .str runBudgetSchema),
   (lit "max_items", intOrNull (b.maxItems.map Int.ofNat)),
   (lit "max_bytes", intOrNull (b.maxBytes.map Int.ofNat)),
   (lit "max_duration_seconds", b.maxDurationSeconds.getD .null)]

/-- The duration has passed its check. -/
def RunBudget.Accepted (F : Floats) (b : RunBudget) : Prop :=
  ∀ d ∈ b.maxDurationSeconds, budgetDuration F d = .ok (some d)

/-! ## Rows -/

/-- `initial_runs.status`. -/
inductive RunStatus where
  | running
  | completed
  | failed
  | cancelled
  | interrupted
  deriving DecidableEq, Repr

/-- `initial_runs.run_kind`. -/
inductive RunKind where
  | initial
  | routeOnly
  | resume
  deriving DecidableEq, Repr

/-- The inventory a run is bound to: `scan_id`, `reconciliation_records`,
`inventory_attempts` and `inventory_mode`. -/
structure InventoryBinding where
  scanId : ℤ
  reconciliationRecords : ℤ
  inventoryAttempts : ℤ
  inventoryMode : Text
  deriving DecidableEq

/-- One row of `initial_runs`, under its `run_id`. -/
structure RunRow where
  status : RunStatus
  runKind : RunKind
  completedNs : Option ℤ
  binding : Option InventoryBinding
  deriving DecidableEq

/-- The phases of `run_events` that the functions below read or write. -/
inductive Phase where
  | budget
  | manifest
  | transition
  | stage
  | checkpoint
  deriving DecidableEq, Repr

/-- One row of `run_events`. -/
structure Event where
  eventId : ℕ
  runId : ℤ
  phase : Phase
  message : Text
  details : Members

/-- The framework database.  Event identifiers are the row ids of an append-only table, so
`ORDER BY event_id` is the order of the list. -/
structure Database where
  runs : Table ℤ RunRow
  events : List Event
  ordered : events.Pairwise fun a b => a.eventId < b.eventId

theorem ordered_nil : ([] : List Event).Pairwise fun a b => a.eventId < b.eventId :=
  List.Pairwise.nil

/-- The row id that the next insert takes. -/
def Database.nextEventId (db : Database) : ℕ := (db.events.map Event.eventId).foldr max 0 + 1

theorem Database.eventId_lt_next (db : Database) {e : Event} (h : e ∈ db.events) :
    e.eventId < db.nextEventId :=
  Nat.lt_succ_of_le (le_foldr_max (List.mem_map_of_mem h))

/-- The row that an `INSERT INTO run_events` adds. -/
def Database.newEvent (db : Database) (run : ℤ) (phase : Phase) (message : Text)
    (details : Members) : Event :=
  ⟨db.nextEventId, run, phase, message, details⟩

/-- `INSERT INTO run_events`. -/
def Database.append (db : Database) (run : ℤ) (phase : Phase) (message : Text)
    (details : Members) : Database where
  runs := db.runs
  events := db.events ++ [db.newEvent run phase message details]
  ordered := by
    rw [List.pairwise_append]
    refine ⟨db.ordered, List.pairwise_singleton _ _, fun a ha b hb => ?_⟩
    rw [List.mem_singleton.mp hb]
    exact db.eventId_lt_next ha

/-- `json.dumps(details)` and the insert of its text; an integer of too many digits raises. -/
def Database.insert (db : Database) (run : ℤ) (phase : Phase) (message : Text)
    (details : Members) : Checked Database :=
  if intsFit (.obj details) then .ok (db.append run phase message details)
  else .error (.value "Exceeds the limit for integer string conversion")

/-- The rows of one run and phase, in the order of their identifiers. -/
def Database.eventsOf (db : Database) (run : ℤ) (phase : Phase) : List Event :=
  db.events.filter fun e => e.runId == run && e.phase == phase

/-- `UPDATE initial_runs SET completed_ns=?,status=? WHERE run_id=? AND status='running'`, for
a row that also meets `matching`; `none` is a row count of zero. -/
def Database.finishRun (db : Database) (run : ℤ) (status : RunStatus) (now : ℤ)
    (matching : RunRow → Bool) : Option Database :=
  match db.runs[run]? with
  | some row =>
    if row.status = .running ∧ matching row then
      some { db with runs := db.runs.insert run { row with status := status, completedNs := some now } }
    else none
  | none => none

/-! ## The tables after a write -/

@[simp] theorem Database.runs_append (db : Database) (run : ℤ) (phase : Phase) (message : Text)
    (details : Members) : (db.append run phase message details).runs = db.runs := rfl

theorem Database.eventsOf_append (db : Database) (run r : ℤ) (phase p : Phase) (message : Text)
    (details : Members) :
    (db.append run phase message details).eventsOf r p =
      db.eventsOf r p ++
        if run = r ∧ phase = p then [db.newEvent run phase message details] else [] := by
  simp only [Database.eventsOf, Database.append, List.filter_append]
  congr 1
  by_cases h : run = r ∧ phase = p
  · rw [if_pos h]
    simp [Database.newEvent, h.1, h.2]
  · rw [if_neg h]
    simpa [Database.newEvent] using h

/-- A finished run: one row that was running changes, and no event does. -/
theorem Database.finishRun_eq_some {db db' : Database} {run : ℤ} {status : RunStatus} {now : ℤ}
    {matching : RunRow → Bool} (h : db.finishRun run status now matching = some db') :
    ∃ row, db.runs[run]? = some row ∧ row.status = .running ∧
      db'.runs = db.runs.insert run { row with status := status, completedNs := some now } ∧
      db'.events = db.events := by
  unfold Database.finishRun at h
  split at h
  next row hrow =>
    split at h
    next hc =>
      refine ⟨row, hrow, hc.1, ?_, ?_⟩ <;> rw [← Option.some.inj h]
    next => cases h
  next => cases h

end Framework
end Neocortex
