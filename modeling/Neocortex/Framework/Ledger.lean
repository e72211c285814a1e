import Neocortex.Library.Checks
import Neocortex.Framework.Lifecycle

/-!
# The ledger that the events of a run record

`Ledger` is what a run budget is for: limits, a deadline, the reservations that were
accepted and whether work was cancelled.  It says nothing of events.  `Records` ties it to
the rows of `run_events`: replaying them gives the ledger.

* `Records.read`: `_read_run_budget_locked` returns the snapshot of the ledger;
* `Records.append`: an event that replays extends the ledger;
* `Records.consumed`, `Records.cancelled`, `Records.bound`: the three events that the calls
  append, with what each does to the ledger.
-/

namespace Neocortex
namespace Framework

open Python Checks

/-! ## The ledger -/

/-- What the events of one run amount to. -/
structure Ledger where
  budget : RunBudget
  startedNs : ℤ
  deadlineNs : Option ℤ
  manifestDigest : Json
  cancelled : Option Text
  reservations : List (Text × Reservation)

namespace Ledger

/-- The items of all reservations. -/
def items (L : Ledger) : ℤ := (L.reservations.map fun r => r.2.items).sum

/-- The bytes of all reservations. -/
def bytes (L : Ledger) : ℤ := (L.reservations.map fun r => r.2.bytes).sum

/-- The ledger of a baseline. -/
def opened (b : RunBudget) (digest : Option Text) (startedNs : ℤ) (deadlineNs : Option ℤ) :
    Ledger :=
  ⟨b, startedNs, deadlineNs, textOrNull digest, none, []⟩

/-- The ledger with one more reservation. -/
def reserve (L : Ledger) (id : Text) (r : Reservation) : Ledger :=
  { L with reservations := L.reservations ++ [(id, r)] }

/-- The ledger after a cancellation. -/
def cancel (L : Ledger) (reason : Text) : Ledger := { L with cancelled := some reason }

/-- The ledger bound to a manifest. -/
def bind (L : Ledger) (digest : Text) : Ledger := { L with manifestDigest := .str digest }

@[simp] theorem items_reserve (L : Ledger) (id : Text) (r : Reservation) :
    (L.reserve id r).items = L.items + r.items := by
  simp [items, reserve]

@[simp] theorem bytes_reserve (L : Ledger) (id : Text) (r : Reservation) :
    (L.reserve id r).bytes = L.bytes + r.bytes := by
  simp [bytes, reserve]

/-- The deadline has passed. -/
def expired (L : Ledger) (until_ : ℤ) : Bool := L.deadlineNs.any fun d => decide (d ≤ until_)

/-- No reservation counts twice, and the limits hold. -/
structure Sound (L : Ledger) : Prop where
  distinct : (L.reservations.map Prod.fst).Nodup
  items_le : ∀ m ∈ L.budget.maxItems, L.items ≤ m
  bytes_le : ∀ m ∈ L.budget.maxBytes, L.bytes ≤ m

theorem sound_opened (b : RunBudget) (digest : Option Text) (startedNs : ℤ)
    (deadlineNs : Option ℤ) : (opened b digest startedNs deadlineNs).Sound where
  distinct := List.nodup_nil
  items_le := fun m _ => Int.natCast_nonneg m
  bytes_le := fun m _ => Int.natCast_nonneg m

/-! ## What is read -/

/-- The state of the replay, at the event `last`. -/
def replay (L : Ledger) (last : ℕ) : Replay where
  manifestDigest := L.manifestDigest
  budget := L.budget
  startedNs := .int L.startedNs
  deadlineNs := intOrNull L.deadlineNs
  consumedItems := L.items
  consumedBytes := L.bytes
  cancelRequested := L.cancelled.isSome
  cancelReason := textOrNull L.cancelled
  reservations := L.reservations
  lastEventId := last

/-- The snapshot of the ledger. -/
def snapshot (L : Ledger) (last : ℕ) (completedNs : Option ℤ) (now : ℤ) : Snapshot where
  toReplay := L.replay last
  elapsedNs := max 0 (completedNs.getD now - L.startedNs)
  elapsedUntilNs := completedNs.getD now
  elapsedScope := if completedNs.isSome then .completion else .observation
  expired := L.expired (completedNs.getD now)
  remainingItems := L.budget.maxItems.map fun m => max 0 (m - L.items)
  remainingBytes := L.budget.maxBytes.map fun m => max 0 (m - L.bytes)

theorem observe_replay (L : Ledger) (last : ℕ) (completedNs : Option ℤ) (now : ℤ) :
    (L.replay last).observe completedNs now = .ok (L.snapshot last completedNs now) := by
  obtain ⟨b, s, d, m, c, r⟩ := L
  cases d <;> rfl

end Ledger

/-! ## Reading the details back -/

section Details

variable (F : Floats) {b : RunBudget} (digest : Option Text) (startedNs : ℤ)
  (deadlineNs : Option ℤ)

theorem budgetLimit_intOrNull (name : String) (m : Option ℕ) :
    budgetLimit name (intOrNull (m.map Int.ofNat)) = .ok m := by
  cases m with
  | none => rfl
  | some n => simp [budgetLimit, intOrNull]

variable {F} in
theorem budgetDuration_accepted (h : b.Accepted F) :
    budgetDuration F (b.maxDurationSeconds.getD .null) = .ok b.maxDurationSeconds := by
  cases hd : b.maxDurationSeconds with
  | none => rfl
  | some d => exact h d hd

variable {F} in
/-- A baseline gives its own limits back. -/
theorem fromMapping_baselineDetails (h : b.Accepted F) :
    RunBudget.fromMapping F (some (baselineDetails b digest startedNs deadlineNs)) = .ok b := by
  have hi : firstOf (baselineDetails b digest startedNs deadlineNs) [lit "max_items", lit "items"] =
      intOrNull (b.maxItems.map Int.ofNat) := rfl
  have hb : firstOf (baselineDetails b digest startedNs deadlineNs) [lit "max_bytes", lit "bytes"] =
      intOrNull (b.maxBytes.map Int.ofNat) := rfl
  have hd : firstOf (baselineDetails b digest startedNs deadlineNs)
      [lit "max_duration_seconds", lit "time_budget_seconds", lit "time_seconds"] =
        b.maxDurationSeconds.getD .null := rfl
  rw [RunBudget.fromMapping, hi, hb, hd, budgetLimit_intOrNull, budgetLimit_intOrNull,
    budgetDuration_accepted h]
  rfl

/-- What `from_mapping` returns has passed the check of its duration. -/
theorem accepted_of_fromMapping {F : Floats} {budget : Option Members} {b : RunBudget}
    (h : RunBudget.fromMapping F budget = .ok b) : b.Accepted F := by
  intro d hd
  cases budget with
  | none =>
    rw [RunBudget.fromMapping, Except.ok.injEq] at h
    rw [← h] at hd
    cases hd
  | some members =>
    rw [RunBudget.fromMapping, bind_eq_ok] at h
    obtain ⟨i, -, h⟩ := h
    rw [bind_eq_ok] at h
    obtain ⟨y, -, h⟩ := h
    rw [bind_eq_ok] at h
    obtain ⟨t, ht, h⟩ := h
    rw [pure_eq_ok] at h
    rw [← h] at hd
    obtain rfl : t = some d := hd
    -- a checked duration is returned as it was given, so checking it again gives it again
    revert ht
    generalize firstOf members _ = v
    intro ht
    cases v with
    | int n =>
      simp only [budgetDuration] at ht
      split_ifs at ht with h1 h2
      rw [Except.ok.injEq, Option.some.injEq] at ht
      rw [← ht, budgetDuration, if_neg h1, if_neg h2]
    | float l =>
      simp only [budgetDuration] at ht
      cases hv : F.value l with
      | none => rw [hv] at ht; cases ht
      | some q =>
        rw [hv] at ht
        simp only at ht
        split_ifs at ht with h1
        rw [Except.ok.injEq, Option.some.injEq] at ht
        rw [← ht]
        simp only [budgetDuration, hv]
        rw [if_neg h1]
    | null => cases ht
    | bool b => cases ht
    | str s => cases ht
    | arr l => cases ht
    | obj l => cases ht

variable {F} in
/-- The first row of a budget gives the ledger of its baseline. -/
theorem replayBaseline_baselineDetails (h : b.Accepted F) (run : ℤ) (id : ℕ) :
    replayBaseline F run (id, baselineDetails b digest startedNs deadlineNs) =
      .ok ((Ledger.opened b digest startedNs deadlineNs).replay id) := by
  rw [replayBaseline, fromMapping_baselineDetails digest startedNs deadlineNs h]
  rfl

end Details

/-! ## Events that record a ledger -/

/-- A row as `_budget_rows` returns it. -/
def Event.row (e : Event) : ℕ × Members := (e.eventId, e.details)

/-- A row with the schema and a bounded key passes the checks of `_budget_rows`. -/
theorem budgetRow_eq_ok {run : ℤ} {e : Event} {key : Text}
    (hs : Json.get e.details (lit "schema") = .str runBudgetSchema)
    (hk : Json.get e.details (lit "idempotency_key") = .str key)
    (hbound : ¬ (key = [] ∨ 256 < key.length)) : budgetRow run e = .ok e.row := by
  rw [budgetRow, hs, hk, bind_eq_ok]
  refine ⟨(), by simp [Json.asStr?], ?_⟩
  rw [bind_eq_ok]
  exact ⟨(), by simpa using hbound, rfl⟩

/-- The budget events of one run replay to the ledger: a baseline, and then rows that do not
pose as one. -/
structure Records (F : Floats) (run : ℤ) (events : List Event) (L : Ledger) : Prop where
  accepted : L.budget.Accepted F
  readable : ∀ e ∈ events, budgetRow run e = .ok e.row
  replayed : ∃ first rest digest last, events = first :: rest ∧
    first.message = budgetInitialized ∧
    first.details = baselineDetails L.budget digest L.startedNs L.deadlineNs ∧
    (∀ e ∈ rest, e.message ≠ budgetInitialized) ∧
    (rest.map Event.row).foldlM (replayEvent run)
      ((Ledger.opened L.budget digest L.startedNs L.deadlineNs).replay first.eventId) =
        .ok (L.replay last)

namespace Records

variable {F : Floats} {run : ℤ} {events : List Event} {L : Ledger} {db : Database}

/-- The replay returns the snapshot of the ledger. -/
theorem read (h : Records F run (db.eventsOf run .budget) L) :
    ∃ last, ∀ now, db.readRunBudget F run now =
      .ok (some (L.snapshot last (db.runs[run]?.bind RunRow.completedNs) now)) := by
  obtain ⟨first, rest, digest, last, hev, -, hfirst, -, hfold⟩ := h.replayed
  have hrows : db.budgetRows run = .ok ((db.eventsOf run .budget).map Event.row) :=
    mapM_eq_ok h.readable
  have hbase : replayBaseline F run first.row = .ok
      ((Ledger.opened L.budget digest L.startedNs L.deadlineNs).replay first.eventId) := by
    rw [Event.row, hfirst]
    exact replayBaseline_baselineDetails digest _ _ h.accepted run _
  refine ⟨last, fun now => ?_⟩
  rw [Database.readRunBudget, bind_eq_ok]
  refine ⟨_, hrows, ?_⟩
  rw [hev, List.map_cons]
  show (replayBaseline F run first.row >>= _) = _
  rw [bind_eq_ok]
  refine ⟨_, hbase, ?_⟩
  rw [bind_eq_ok]
  refine ⟨_, hfold, ?_⟩
  rw [bind_eq_ok]
  exact ⟨_, L.observe_replay last _ now, rfl⟩

/-- One more event. -/
theorem append {L' : Ledger} {e : Event} (h : Records F run events L)
    (hb : L'.budget = L.budget) (hs : L'.startedNs = L.startedNs)
    (hd : L'.deadlineNs = L.deadlineNs) (hrow : budgetRow run e = .ok e.row)
    (hm : e.message ≠ budgetInitialized)
    (hstep : ∀ last, replayEvent run (L.replay last) e.row = .ok (L'.replay e.eventId)) :
    Records F run (events ++ [e]) L' := by
  obtain ⟨first, rest, digest, last, hev, hfm, hfirst, hrest, hfold⟩ := h.replayed
  refine ⟨?_, ?_, first, rest ++ [e], digest, e.eventId, ?_, hfm, ?_, ?_, ?_⟩
  · rw [hb]; exact h.accepted
  · intro x hx
    rcases List.mem_append.mp hx with hx | hx
    · exact h.readable x hx
    · rw [List.mem_singleton.mp hx]; exact hrow
  · rw [hev, List.cons_append]
  · rw [hb, hs, hd]; exact hfirst
  · intro x hx
    rcases List.mem_append.mp hx with hx | hx
    · exact hrest x hx
    · rw [List.mem_singleton.mp hx]; exact hm
  · rw [hb, hs, hd, List.map_append, List.foldlM_append, bind_eq_ok]
    refine ⟨_, hfold, ?_⟩
    rw [List.map_singleton, List.foldlM_cons, bind_eq_ok]
    exact ⟨_, hstep last, rfl⟩

/-- The baseline of a recorded budget is its first event. -/
theorem baselines (h : Records F run (db.eventsOf run .budget) L) :
    ∃ first digest, db.baselines run = [first] ∧
      first.details = baselineDetails L.budget digest L.startedNs L.deadlineNs := by
  obtain ⟨first, rest, digest, last, hev, hfm, hfirst, hrest, -⟩ := h.replayed
  refine ⟨first, digest, ?_, hfirst⟩
  rw [Database.baselines, hev, List.filter_cons_of_pos (by simp [hfm]), List.filter_eq_nil_iff.mpr]
  intro e he
  simpa using hrest e he

/-- A baseline on its own records the ledger it opens. -/
theorem opened {b : RunBudget} (h : b.Accepted F) (digest : Option Text) (startedNs : ℤ)
    (deadlineNs : Option ℤ) {e : Event} (hm : e.message = budgetInitialized)
    (he : e.details = baselineDetails b digest startedNs deadlineNs) :
    Records F run [e] (Ledger.opened b digest startedNs deadlineNs) := by
  refine ⟨h, ?_, e, [], digest, e.eventId, rfl, hm, he, by simp, rfl⟩
  intro x hx
  rw [List.mem_singleton.mp hx]
  refine @budgetRow_eq_ok run e (lit "baseline") ?_ ?_ (by decide)
  · rw [he]; rfl
  · rw [he]; rfl

end Records

/-! ## The events that the calls append -/

/-- A reservation as an event stores it. -/
def Request.reservation (r : Request) (eventId : Option ℕ) : Reservation :=
  ⟨r.items, r.bytes, textOrNull r.worker, r.stage, eventId⟩

/-- The arguments have passed the checks of `reserve_run_budget`. -/
structure Request.Valid (r : Request) : Prop where
  id_ne : r.reservationId ≠ []
  id_le : r.reservationId.length ≤ 256
  items_nonneg : 0 ≤ r.items
  bytes_nonneg : 0 ≤ r.bytes
  stage_ok : ∀ s ∈ r.stage, IsLifecycleName s

theorem stageArgument_eq_ok {stage s : Option Text} (h : stageArgument stage = .ok s) :
    s = stage ∧ ∀ t ∈ s, IsLifecycleName t := by
  cases stage with
  | none =>
    obtain rfl : none = s := by simpa [stageArgument] using h
    simp
  | some u =>
    simp only [stageArgument, boundedLifecycleName] at h
    by_cases hu : IsLifecycleName u
    · rw [if_pos hu] at h
      obtain rfl : some u = s := by simpa [Functor.map, Except.map] using h
      simpa using hu
    · rw [if_neg hu] at h
      cases h

theorem ReserveCall.request_valid {c : ReserveCall} {r : Request} (h : c.request = .ok r) :
    r.Valid ∧ r.run = c.run ∧ r.reservationId = c.reservationId := by
  simp only [ReserveCall.request, bind_eq_ok, raiseIf_eq_ok, pure_eq_ok, not_or, Int.not_lt] at h
  obtain ⟨i, -, y, -, -, ⟨hne, hlen⟩, s, hs, -, ⟨hi, hy⟩, rfl⟩ := h
  exact ⟨⟨hne, Nat.not_lt.mp hlen, hi, hy, (stageArgument_eq_ok hs).2⟩, rfl, rfl⟩

theorem eventStage_consumedDetails {r : Request} (h : r.Valid) (s : Snapshot) :
    eventStage (consumedDetails s r) = .ok r.stage := by
  have hget : Json.get (consumedDetails s r) (lit "stage") = textOrNull r.stage := rfl
  rw [eventStage, hget]
  cases hs : r.stage with
  | none => rfl
  | some t =>
    show some <$> boundedLifecycleName (.str t) "budget stage" = _
    rw [boundedLifecycleName_str (h.stage_ok t hs)]
    rfl

/-- A consumed event adds its reservation. -/
theorem replayEvent_consumed {r : Request} (h : r.Valid) (run : ℤ) (s : Snapshot) (L : Ledger)
    (last id : ℕ) (hnew : L.reservations.lookup r.reservationId = none) :
    replayEvent run (L.replay last) (id, consumedDetails s r) =
      .ok ((L.reserve r.reservationId (r.reservation (some id))).replay id) := by
  have hi : eventAmount (consumedDetails s r) (lit "items")
      (.runtime s!"run {run} lifecycle budget has invalid items") = .ok r.items := by
    show (if r.items < 0 then _ else _) = _
    rw [if_neg (Int.not_lt.mpr h.items_nonneg)]
  have hy : eventAmount (consumedDetails s r) (lit "bytes")
      (.runtime s!"run {run} lifecycle budget has invalid bytes") = .ok r.bytes := by
    show (if r.bytes < 0 then _ else _) = _
    rw [if_neg (Int.not_lt.mpr h.bytes_nonneg)]
  show replayConsumed run (L.replay id) (id, consumedDetails s r) = _
  have hid : (Json.get (consumedDetails s r) (lit "reservation_id")).asStr?.getD [] =
      r.reservationId := rfl
  have hbound : ¬ (r.reservationId = [] ∨ 256 < r.reservationId.length) := by
    rintro (hne | hlt)
    · exact h.id_ne hne
    · exact absurd h.id_le (Nat.not_le.mpr hlt)
  have hlook : ((L.replay id).reservations.lookup r.reservationId).isSome = false := by
    show (L.reservations.lookup r.reservationId).isSome = false
    rw [hnew]
    rfl
  simp only [replayConsumed, hid, hlook]
  rw [hi, hy, eventStage_consumedDetails h, raiseIf, if_neg hbound]
  show Except.ok _ = _
  congr 1
  simp only [Ledger.replay, Ledger.items_reserve, Ledger.bytes_reserve]
  rfl

/-- The reason of a cancellation that `request_run_cancellation` accepts. -/
def IsReason (t : Text) : Prop := ¬ (t = [] ∨ 512 < t.length)

instance (t : Text) : Decidable (IsReason t) := inferInstanceAs (Decidable (¬ _))

theorem replayEvent_cancelled {reason : Text} (h : IsReason reason) (run : ℤ) (m : Json)
    (L : Ledger) (last id : ℕ) :
    replayEvent run (L.replay last) (id, cancelledDetails m reason) =
      .ok ((L.cancel reason).replay id) := by
  show (if reason = [] ∨ 512 < reason.length then _ else _) = _
  rw [if_neg h]
  rfl

theorem replayEvent_bound {digest : Text} (h : startsSha256 digest = true) (run : ℤ)
    (L : Ledger) (last id : ℕ) :
    replayEvent run (L.replay last)
        (id, boundDetails digest ++ [(lit "idempotency_key", .str (lit "manifest-binding"))]) =
      .ok ((L.bind digest).replay id) := by
  show (if startsSha256 digest = true then _ else _) = _
  rw [if_pos h]
  rfl

end Framework
end Neocortex
