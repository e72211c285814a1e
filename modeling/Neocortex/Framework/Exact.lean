import Neocortex.Framework.Evolution

/-!
# The run budget is exact

Whole histories of calls.  `Database.after` runs a list of calls, each with the readings of
the clock it makes, and `accepted` collects the requests that were accepted for one run.

* `perform_advances`: one call, for every run of the database at once;
* `history_inv`: a history, by induction;
* `budget_exact`: the totals are the sums over the accepted reservations and within the
  limits, a repeated reservation is reported and changes nothing, a conflicting one raises,
  and nothing new is accepted once work has been stopped;
* `unreadable_binding_loses_reservations`: what a binding to another digest does.
-/

namespace Neocortex
namespace Framework

open Python Checks

/-! ## One call -/

/-- The reservation that a call asks for. -/
def Call.reserveCall? : Call → Option ReserveCall
  | .reserve c => some c
  | .consume c => some c
  | .reserveStage run stage reservationId items bytes worker =>
    some { run := run, reservationId := reservationId, items := items, bytes := bytes,
           worker := worker, stage := some stage }
  | .consumeStage run stage reservationId items bytes worker =>
    some { run := run, reservationId := reservationId, items := items, bytes := bytes,
           worker := worker, stage := some stage }
  | _ => none

/-- The request that a call has had accepted for `run`. -/
def acceptedBy (run : ℤ) (call : Call) (out : Outcome) : List Request :=
  match call.reserveCall?, out with
  | some c, .report rep =>
    match c.request with
    | .ok r => if r.run = run ∧ rep.replayed = false then [r] else []
    | .error _ => []
  | _, _ => []

/-- The call does not bind a budget that waits for its manifest to a digest that no replay
accepts. -/
def Call.Readable (F : Floats) (db : Database) : Call → Prop
  | .publishBudget run budget digest => Bindable F db run budget digest
  | _ => True

/-- From the ledger of each run to its next one. -/
def Advances (F : Floats) (db db' : Database) (done : ℤ → List Request) : Prop :=
  ∀ run o, Recorded F run (db.eventsOf run .budget) o →
    ∃ o', Recorded F run (db'.eventsOf run .budget) o' ∧ Evolves o (done run) o'

/-- The only change to a row is that a running run ends. -/
def RunsKept (db db' : Database) : Prop :=
  ∀ run : ℤ, db'.runs[run]? = db.runs[run]? ∨
    ∃ row row', db.runs[run]? = some row ∧ db'.runs[run]? = some row' ∧
      row.status = .running ∧ row'.status ≠ .running

theorem RunsKept.of_eq {db db' : Database} (h : db'.runs = db.runs) : RunsKept db db' :=
  fun run => .inl (by rw [h])

theorem RunsKept.trans {db db' db'' : Database} (h : RunsKept db db') (h' : RunsKept db' db'') :
    RunsKept db db'' := by
  intro run
  rcases h run with heq | ⟨row, row₁, hrow, hrow₁, hlive, hend⟩
  · rw [← heq]
    exact h' run
  · rcases h' run with heq' | ⟨row₂, -, hrow₂, -, hlive', -⟩
    · exact .inr ⟨row, row₁, hrow, heq'.trans hrow₁, hlive, hend⟩
    · rw [hrow₁, Option.some.injEq] at hrow₂
      subst hrow₂
      exact absurd hlive' hend

theorem RunsKept.finishRun {db db' : Database} {run : ℤ} {status : RunStatus} {now : ℤ}
    {matching : RunRow → Bool} (hs : status ≠ .running)
    (h : db.finishRun run status now matching = some db') : RunsKept db db' := by
  obtain ⟨row, hrow, hrunning, hruns, -⟩ := Database.finishRun_eq_some h
  intro r
  rw [hruns, Table.getElem?_insert_eq]
  by_cases hr : run = r
  · subst hr
    rw [if_pos rfl]
    exact .inr ⟨row, _, hrow, rfl, hrunning, hs⟩
  · rw [if_neg hr]
    exact .inl rfl

/-- A row that is there stays there. -/
theorem RunsKept.exists_row {db db' : Database} (h : RunsKept db db') {run : ℤ} {row : RunRow}
    (hrow : db.runs[run]? = some row) : ∃ row', db'.runs[run]? = some row' := by
  rcases h run with heq | ⟨-, row', -, hrow', -⟩
  · exact ⟨row, heq.trans hrow⟩
  · exact ⟨row', hrow'⟩

/-- A run that has ended stays as it is. -/
theorem RunsKept.ended {db db' : Database} (h : RunsKept db db') {run : ℤ} {row : RunRow}
    (hrow : db.runs[run]? = some row) (hend : row.status ≠ .running) :
    db'.runs[run]? = some row := by
  rcases h run with heq | ⟨row₁, -, hrow₁, -, hlive, -⟩
  · exact heq.trans hrow
  · rw [hrow, Option.some.injEq] at hrow₁
    subst hrow₁
    exact absurd hlive hend

section Advance

variable {F : Floats} {db db' db'' : Database}

/-- The budgets are as they were. -/
theorem Advances.quiet (h : ∀ run, db'.eventsOf run .budget = db.eventsOf run .budget) :
    Advances F db db' fun _ => [] :=
  fun run o hrec => ⟨o, by rw [h]; exact hrec, .refl o⟩

theorem Advances.trans {done done' : ℤ → List Request} (h : Advances F db db' done)
    (h' : Advances F db' db'' done') : Advances F db db'' fun run => done run ++ done' run := by
  intro run o hrec
  obtain ⟨o₁, hrec₁, hev₁⟩ := h run o hrec
  obtain ⟨o₂, hrec₂, hev₂⟩ := h' run o₁ hrec₁
  exact ⟨o₂, hrec₂, hev₁.trans hev₂⟩

/-- A writer of one run, from what it does to that run. -/
theorem Advances.own {r : ℤ} {done : ℤ → List Request} (helse : Elsewhere r db db')
    (hdone : ∀ run, run ≠ r → done run = [])
    (hown : ∀ o, Recorded F r (db.eventsOf r .budget) o →
      ∃ o', Recorded F r (db'.eventsOf r .budget) o' ∧ Evolves o (done r) o') :
    Advances F db db' done := by
  intro run o hrec
  by_cases hr : run = r
  · subst hr
    exact hown o hrec
  · rw [hdone run hr, helse.events run hr]
    exact ⟨o, hrec, .refl o⟩

theorem advances_append {run : ℤ} {phase : Phase} {message : Text} {details : Members}
    (hp : phase ≠ .budget) : Advances F db (db.append run phase message details) fun _ => [] :=
  Advances.quiet fun _ => db.eventsOf_append_of_ne run phase message details fun h => hp h.2

theorem advances_appendOnce {run : ℤ} {phase : Phase} {message key : Text} {details : Members}
    {b : Bool} (hp : phase ≠ .budget)
    (h : db.appendLifecycleEventOnce run phase message key details = .ok (b, db')) :
    Advances F db db' (fun _ => []) ∧ RunsKept db db' := by
  rcases Database.appendOnce_cases h with rfl | ⟨-, rfl⟩
  · exact ⟨Advances.quiet fun _ => rfl, RunsKept.of_eq rfl⟩
  · exact ⟨advances_append hp, RunsKept.of_eq rfl⟩

theorem advances_transition {run : ℤ} {status : RunStatus} {b : Bool}
    (h : db.recordTransition run status = .ok (b, db')) :
    Advances F db db' (fun _ => []) ∧ RunsKept db db' := by
  simp only [Database.recordTransition, bind_eq_ok, pure_eq_ok, Prod.mk.injEq] at h
  obtain ⟨⟨c, db₁⟩, h₁, -, rfl⟩ := h
  exact advances_appendOnce (by decide) h₁

theorem advances_finish {run : ℤ} {status : RunStatus} {now : ℤ} {matching : RunRow → Bool}
    (hs : status ≠ .running) (h : db.finishRun run status now matching = some db') :
    Advances F db db' (fun _ => []) ∧ RunsKept db db' := by
  obtain ⟨row, -, -, -, hev⟩ := Database.finishRun_eq_some h
  refine ⟨Advances.quiet fun r => ?_, RunsKept.finishRun hs h⟩
  rw [Database.eventsOf, hev]
  rfl

theorem advances_end {run : ℤ} {status : RunStatus} {now : ℤ} {b : Bool}
    (hs : status ≠ .running) (h : db.endRun run status now = .ok (b, db')) :
    Advances F db db' (fun _ => []) ∧ RunsKept db db' := by
  unfold Database.endRun at h
  split at h
  next db₁ hfin =>
    obtain ⟨ha, hk⟩ := advances_finish (F := F) hs hfin
    obtain ⟨ha', hk'⟩ := advances_transition (F := F) h
    exact ⟨ha.trans ha', hk.trans hk'⟩
  next =>
    simp only [Except.ok.injEq, Prod.mk.injEq] at h
    obtain ⟨-, rfl⟩ := h
    exact ⟨Advances.quiet fun _ => rfl, RunsKept.of_eq rfl⟩

theorem advances_complete {run : ℤ} {matching : RunRow → Bool} {organization : Checked Unit}
    {message : String} {clock : ℕ → ℤ} {b : Bool}
    (h : db.completeRun F run matching organization message clock = .ok (b, db')) :
    Advances F db db' (fun _ => []) ∧ RunsKept db db' := by
  simp only [Database.completeRun, bind_eq_ok] at h
  obtain ⟨-, -, -, -, h⟩ := h
  split at h
  next db₁ hfin =>
    obtain ⟨ha, hk⟩ := advances_finish (F := F) (by decide) hfin
    obtain ⟨ha', hk'⟩ := advances_transition (F := F) h
    exact ⟨ha.trans ha', hk.trans hk'⟩
  next =>
    simp only [bind_eq_ok, pure_eq_ok, Prod.mk.injEq] at h
    obtain ⟨-, -, -, rfl⟩ := h
    exact ⟨Advances.quiet fun _ => rfl, RunsKept.of_eq rfl⟩

/-- Every budget of the database can be replayed. -/
def Replayable (F : Floats) (db : Database) : Prop :=
  ∀ run, ∃ o, Recorded F run (db.eventsOf run .budget) o

theorem Advances.replayable {done : ℤ → List Request} (h : Advances F db db' done)
    (hr : Replayable F db) : Replayable F db' := by
  intro run
  obtain ⟨o, ho⟩ := hr run
  obtain ⟨o', ho', -⟩ := h run o ho
  exact ⟨o', ho'⟩

theorem advances_ensure {run : ℤ} {budget : Option Members} {digest : Option Text} {now : ℤ}
    {b : Bool} (hr : Replayable F db) (hbind : Bindable F db run budget digest)
    (h : db.ensureRunBudgetEvent F run budget digest now = .ok (b, db')) :
    Advances F db db' (fun _ => []) ∧ RunsKept db db' := by
  obtain ⟨o, ho⟩ := hr run
  have helse := (Database.ensure_evolves ho hbind h).1
  exact ⟨Advances.own helse (fun _ _ => rfl) fun o ho => (Database.ensure_evolves ho hbind h).2,
    RunsKept.of_eq helse.runs⟩

theorem advances_cancellation {run : ℤ} {reason : Text} {clock : ℕ → ℤ} {b : Bool}
    (hr : Replayable F db) (h : db.requestRunCancellation F run reason clock = .ok (b, db')) :
    Advances F db db' (fun _ => []) ∧ RunsKept db db' := by
  obtain ⟨o, ho⟩ := hr run
  have helse := (Database.requestRunCancellation_evolves ho h).1
  refine ⟨Advances.own helse (fun _ _ => rfl) fun o ho => ?_, RunsKept.of_eq helse.runs⟩
  obtain ⟨-, L, hL, hev, -⟩ := Database.requestRunCancellation_evolves ho h
  exact ⟨some L, hL, hev⟩

theorem advances_abandonBudget {run now : ℤ} (hr : Replayable F db)
    (h : db.abandonBudget F now run = .ok db') :
    Advances F db db' (fun _ => []) ∧ db'.runs = db.runs := by
  obtain ⟨o, ho⟩ := hr run
  rw [Database.abandonBudget, bind_eq_ok] at h
  obtain ⟨s, hs, h⟩ := h
  cases o with
  | none =>
    rw [Database.read_none ho, Except.ok.injEq] at hs
    subst hs
    obtain rfl := pure_eq_ok.mp h
    exact ⟨Advances.quiet fun _ => rfl, rfl⟩
  | some L =>
    obtain ⟨last, hread⟩ := Records.read ho
    rw [hread, Except.ok.injEq] at hs
    subst hs
    simp only at h
    split at h
    next =>
      obtain rfl := pure_eq_ok.mp h
      exact ⟨Advances.quiet fun _ => rfl, rfl⟩
    next =>
      rw [Database.insert_eq_ok h]
      refine ⟨Advances.own (Elsewhere.append _ _ _ _ _) (fun _ _ => rfl) fun o ho' => ?_, rfl⟩
      cases o with
      | none =>
        have hnil : db.eventsOf run .budget = [] := ho'
        obtain ⟨first, rest, -, -, hev, -⟩ := ho.replayed
        rw [hnil] at hev
        cases hev
      | some K => exact ⟨some (K.cancel _), Records.cancelled ho' (by decide), .cancelled K _⟩

theorem advances_abandonBudgets {now : ℤ} : ∀ {runs : List ℤ} {db db' : Database},
    Replayable F db → runs.foldlM (Database.abandonBudget F now) db = .ok db' →
    Advances F db db' (fun _ => []) ∧ db'.runs = db.runs
  | [], db, db', _, h => by
    obtain rfl := pure_eq_ok.mp h
    exact ⟨Advances.quiet fun _ => rfl, rfl⟩
  | run :: runs, db, db', hr, h => by
    rw [List.foldlM_cons, bind_eq_ok] at h
    obtain ⟨db₁, h₁, h⟩ := h
    obtain ⟨ha, hruns⟩ := advances_abandonBudget hr h₁
    obtain ⟨ha', hruns'⟩ := advances_abandonBudgets (ha.replayable hr) h
    exact ⟨ha.trans ha', hruns'.trans hruns⟩

theorem advances_interrupt (now : ℤ) : ∀ (runs : List ℤ) (db : Database),
    Advances F db (runs.foldl (fun db run =>
      (db.finishRun run .interrupted now fun _ => true).getD db) db) (fun _ => []) ∧
    RunsKept db (runs.foldl (fun db run =>
      (db.finishRun run .interrupted now fun _ => true).getD db) db)
  | [], db => ⟨Advances.quiet fun _ => rfl, RunsKept.of_eq rfl⟩
  | run :: runs, db => by
    rw [List.foldl_cons]
    obtain ⟨ha, hk⟩ := advances_interrupt now runs
      ((db.finishRun run .interrupted now fun _ => true).getD db)
    cases hfin : db.finishRun run .interrupted now fun _ => true with
    | none =>
      rw [hfin] at ha hk
      exact ⟨ha, hk⟩
    | some db₁ =>
      rw [hfin] at ha hk
      obtain ⟨ha', hk'⟩ := advances_finish (F := F) (by decide) hfin
      exact ⟨ha'.trans ha, hk'.trans hk⟩

theorem advances_abandoned {receipts : Checked Unit} {now : ℤ} {b : Bool} (hr : Replayable F db)
    (h : db.markAbandonedRuns F receipts now = .ok (b, db')) :
    Advances F db db' (fun _ => []) ∧ RunsKept db db' := by
  simp only [Database.markAbandonedRuns, bind_eq_ok, pure_eq_ok, Prod.mk.injEq] at h
  obtain ⟨db₁, h₁, -, -, -, rfl⟩ := h
  obtain ⟨ha, hk⟩ := advances_interrupt (F := F) now db.activeRuns db
  obtain ⟨ha', hruns⟩ := advances_abandonBudgets (ha.replayable hr) h₁
  exact ⟨ha.trans ha', hk.trans (RunsKept.of_eq hruns)⟩

/-- The digest of a verified manifest starts as a binding has to. -/
theorem startsSha256_of_verified {digestOf : CanonicalDigest} {payload verified : Members}
    (h : verifyEventPayload digestOf payload = .ok verified) :
    startsSha256 ((Json.get verified (lit "digest")).asStr?.getD []) = true := by
  have hdigest : verified = payload ∧ isManifestDigest (Json.get payload (lit "digest")) = true := by
    simp only [verifyEventPayload, bind_eq_ok, raiseIf_eq_ok, Bool.not_eq_false] at h
    obtain ⟨-, -, -, hd, -, -, -, -, -, -, -, -, -, -, h⟩ := h
    refine ⟨?_, hd⟩
    split at h
    next => cases h
    next =>
      simp only [bind_eq_ok] at h
      obtain ⟨-, -, -, -, -, -, -, -, h⟩ := h
      split at h
      next => exact (pure_eq_ok.mp h).symm
      next =>
        rw [bind_eq_ok] at h
        obtain ⟨-, -, h⟩ := h
        exact (pure_eq_ok.mp h).symm
  obtain ⟨rfl, hd⟩ := hdigest
  cases hv : Json.get verified (lit "digest") with
  | str t =>
    rw [hv] at hd
    simp only [isManifestDigest, Bool.and_eq_true] at hd
    exact hd.1.2
  | null => rw [hv] at hd; cases hd
  | bool b => rw [hv] at hd; cases hd
  | int n => rw [hv] at hd; cases hd
  | float l => rw [hv] at hd; cases hd
  | arr l => rw [hv] at hd; cases hd
  | obj l => rw [hv] at hd; cases hd

theorem advances_manifest {digestOf : CanonicalDigest} {run : ℤ} {manifest : Members} {now : ℤ}
    {b : Bool} (hr : Replayable F db)
    (h : db.publishRunManifest F digestOf run manifest now = .ok (b, db')) :
    Advances F db db' (fun _ => []) ∧ RunsKept db db' := by
  simp only [Database.publishRunManifest, bind_eq_ok] at h
  obtain ⟨verified, hv, -, -, -, -, -, -, -, -, h⟩ := h
  have hsha := startsSha256_of_verified hv
  -- the budget of the manifest, from any database
  have hensure : ∀ {db db' : Database}, Replayable F db →
      db.ensureManifestBudget F run verified now = .ok db' →
      Advances F db db' (fun _ => []) ∧ RunsKept db db' := by
    intro db db' hr h
    simp only [Database.ensureManifestBudget, bind_eq_ok, pure_eq_ok] at h
    obtain ⟨budget, -, ⟨c, db₁⟩, h₁, rfl⟩ := h
    refine advances_ensure hr ?_ h₁
    intro t ht
    obtain rfl : _ = t := Option.some.inj ht
    exact .inl hsha
  split at h
  next existing =>
    simp only [bind_eq_ok, pure_eq_ok, Prod.mk.injEq] at h
    obtain ⟨-, -, db₁, h₁, -, rfl⟩ := h
    exact hensure hr h₁
  next =>
    simp only [bind_eq_ok, pure_eq_ok, Prod.mk.injEq] at h
    obtain ⟨db₁, h₁, db₂, h₂, -, rfl⟩ := h
    have hdb := Database.insert_eq_ok h₁
    subst hdb
    have ha : Advances F db (db.append run .manifest manifestPublished verified) fun _ => [] :=
      advances_append (by decide)
    have hk : RunsKept db (db.append run .manifest manifestPublished verified) := RunsKept.of_eq rfl
    obtain ⟨ha', hk'⟩ := hensure (ha.replayable hr) h₂
    exact ⟨ha.trans ha', hk.trans hk'⟩

theorem advances_reserve {c : ReserveCall} {clock : ℕ → ℤ} {rep : Report} {call : Call}
    (hc : call.reserveCall? = some c) (hr : Replayable F db)
    (h : db.reserveRunBudget F c clock = .ok (rep, db')) :
    Advances F db db' (fun run => acceptedBy run call (.report rep)) ∧ RunsKept db db' ∧
      ∃ row, db.runs[c.run]? = some row := by
  rw [Database.reserveRunBudget, bind_eq_ok] at h
  obtain ⟨r, hreq, h⟩ := h
  obtain ⟨hvalid, hrun, -⟩ := ReserveCall.request_valid hreq
  have hby : ∀ run, acceptedBy run call (.report rep) =
      if r.run = run ∧ rep.replayed = false then [r] else [] := by
    intro run
    simp only [acceptedBy, hc, hreq]
  obtain ⟨o, ho⟩ := hr r.run
  obtain ⟨helse, hrow, -⟩ := Database.reserve_cases hvalid ho h
  refine ⟨Advances.own helse (fun run hne => ?_) fun o ho => ?_, RunsKept.of_eq helse.runs, ?_⟩
  · rw [hby, if_neg fun hh => hne hh.1.symm]
  · obtain ⟨-, -, o', ho', hev⟩ := Database.reserve_cases hvalid ho h
    refine ⟨o', ho', ?_⟩
    rw [hby]
    cases hrep : rep.replayed <;> rw [hrep] at hev
    · rw [if_pos ⟨rfl, rfl⟩]
      exact hev
    · rw [if_neg fun hh => Bool.noConfusion hh.2]
      exact hev
  · rw [← hrun]
    exact hrow

end Advance

theorem reported_eq_ok {x : Checked (Report × Database)} {out : Outcome} {db' : Database}
    (h : reported x = .ok (out, db')) : ∃ rep, out = .report rep ∧ x = .ok (rep, db') := by
  cases x with
  | error e => cases h
  | ok y =>
    obtain ⟨rep, db₁⟩ := y
    simp only [reported, Functor.map, Except.map, Except.ok.injEq, Prod.mk.injEq] at h
    exact ⟨rep, h.1.symm, by rw [h.2]⟩

theorem flagged_eq_ok {x : Checked (Bool × Database)} {out : Outcome} {db' : Database}
    (h : flagged x = .ok (out, db')) : ∃ b, out = .flag b ∧ x = .ok (b, db') := by
  cases x with
  | error e => cases h
  | ok y =>
    obtain ⟨b, db₁⟩ := y
    simp only [flagged, Functor.map, Except.map, Except.ok.injEq, Prod.mk.injEq] at h
    exact ⟨b, h.1.symm, by rw [h.2]⟩

/-- A call that asks for a reservation is `reserve_run_budget`, under any of its names. -/
theorem perform_reserveCall {F : Floats} {digestOf : CanonicalDigest} {db : Database}
    {clock : ℕ → ℤ} {call : Call} {c : ReserveCall} (hc : call.reserveCall? = some c) :
    db.perform F digestOf clock call = reported (db.reserveRunBudget F c clock) := by
  cases call <;> first | (obtain rfl := Option.some.inj hc; rfl) | cases hc

/-- One call, for every run of the database. -/
theorem perform_advances {F : Floats} {digestOf : CanonicalDigest} {db db' : Database}
    {clock : ℕ → ℤ} {call : Call} {out : Outcome} (hr : Replayable F db)
    (hread : call.Readable F db) (h : db.perform F digestOf clock call = .ok (out, db')) :
    Advances F db db' (fun run => acceptedBy run call out) ∧ RunsKept db db' := by
  cases hc : call.reserveCall? with
  | some c =>
    rw [perform_reserveCall hc] at h
    obtain ⟨rep, rfl, hres⟩ := reported_eq_ok h
    obtain ⟨ha, hk, -⟩ := advances_reserve hc hr hres
    exact ⟨ha, hk⟩
  | none =>
    have hby : (fun run => acceptedBy run call out) = fun _ => [] := by
      funext run
      simp only [acceptedBy, hc]
    rw [hby]
    cases call with
    | reserve c => cases hc
    | consume c => cases hc
    | reserveStage => cases hc
    | consumeStage => cases hc
    | requestCancellation run reason =>
      obtain ⟨b, -, h⟩ := flagged_eq_ok h
      exact advances_cancellation hr h
    | publishBudget run budget digest =>
      obtain ⟨b, -, h⟩ := flagged_eq_ok h
      exact advances_ensure hr hread h
    | publishManifest run manifest =>
      obtain ⟨b, -, h⟩ := flagged_eq_ok h
      exact advances_manifest hr h
    | completeInitial run binding hasCursor organization =>
      obtain ⟨b, -, h⟩ := flagged_eq_ok h
      simp only [Database.completeInitialRun, bind_eq_ok] at h
      obtain ⟨-, -, -, -, -, -, h⟩ := h
      exact advances_complete h
    | completeOperational run organization =>
      obtain ⟨b, -, h⟩ := flagged_eq_ok h
      exact advances_complete h
    | fail run =>
      obtain ⟨b, -, h⟩ := flagged_eq_ok h
      exact advances_end (by decide) h
    | cancel run =>
      obtain ⟨b, -, h⟩ := flagged_eq_ok h
      exact advances_end (by decide) h
    | markAbandoned receipts =>
      obtain ⟨b, -, h⟩ := flagged_eq_ok h
      exact advances_abandoned hr h

/-! ## Histories -/

/-- A call together with the clock it reads. -/
abbrev Timed := Call × (ℕ → ℤ)

section History

variable (F : Floats) (digestOf : CanonicalDigest)

/-- The database after the calls. -/
def Database.after : Database → List Timed → Database
  | db, [] => db
  | db, (call, clock) :: rest => (db.next F digestOf clock call).after rest

/-- The requests that the calls have had accepted for `run`. -/
def accepted (run : ℤ) : Database → List Timed → List Request
  | _, [] => []
  | db, (call, clock) :: rest =>
    (match db.perform F digestOf clock call with
      | .ok (out, _) => acceptedBy run call out
      | .error _ => []) ++ accepted run (db.next F digestOf clock call) rest

/-- Every call of the history is readable where it is made. -/
def ReadableHistory : Database → List Timed → Prop
  | _, [] => True
  | db, (call, clock) :: rest =>
    call.Readable F db ∧ ReadableHistory (db.next F digestOf clock call) rest

variable {F digestOf}

theorem Database.after_append {db : Database} {before rest : List Timed} :
    db.after F digestOf (before ++ rest) = (db.after F digestOf before).after F digestOf rest := by
  induction before generalizing db with
  | nil => rfl
  | cons x before ih => exact ih

theorem accepted_append {run : ℤ} {db : Database} {before rest : List Timed} :
    accepted F digestOf run db (before ++ rest) =
      accepted F digestOf run db before ++
        accepted F digestOf run (db.after F digestOf before) rest := by
  induction before generalizing db with
  | nil => rfl
  | cons x before ih =>
    obtain ⟨call, clock⟩ := x
    rw [List.cons_append, accepted, accepted, ih, List.append_assoc]
    rfl

theorem ReadableHistory.split {db : Database} {before rest : List Timed}
    (h : ReadableHistory F digestOf db (before ++ rest)) :
    ReadableHistory F digestOf db before ∧
      ReadableHistory F digestOf (db.after F digestOf before) rest := by
  induction before generalizing db with
  | nil => exact ⟨trivial, h⟩
  | cons x before ih =>
    obtain ⟨h₁, h₂⟩ := ih h.2
    exact ⟨⟨h.1, h₁⟩, h₂⟩

/-- A whole history, for every run of the database. -/
theorem history_advances {calls : List Timed} : ∀ {db : Database}, Replayable F db →
    ReadableHistory F digestOf db calls →
    Advances F db (db.after F digestOf calls) (fun run => accepted F digestOf run db calls) ∧
      RunsKept db (db.after F digestOf calls) := by
  induction calls with
  | nil =>
    intro db _ _
    exact ⟨Advances.quiet fun _ => rfl, RunsKept.of_eq rfl⟩
  | cons x calls ih =>
    obtain ⟨call, clock⟩ := x
    intro db hr hread
    have hstep : Advances F db (db.next F digestOf clock call) (fun run =>
        match db.perform F digestOf clock call with
        | .ok (out, _) => acceptedBy run call out
        | .error _ => []) ∧ RunsKept db (db.next F digestOf clock call) := by
      unfold Database.next
      cases hp : db.perform F digestOf clock call with
      | ok y => exact perform_advances hr hread.1 hp
      | error e => exact ⟨Advances.quiet fun _ => rfl, RunsKept.of_eq rfl⟩
    obtain ⟨ha, hk⟩ := ih (hstep.1.replayable hr) hread.2
    exact ⟨hstep.1.trans ha, hstep.2.trans hk⟩

end History

/-! ## Reservations on a recorded ledger -/

section Reserve

variable {F : Floats} {db : Database} {L : Ledger} {r : Request} {done : List Request}

theorem lookup_of_mem_nodup {α β : Type} [BEq α] [LawfulBEq α] :
    ∀ {l : List (α × β)} {x : α × β}, (l.map Prod.fst).Nodup → x ∈ l → l.lookup x.1 = some x.2
  | y :: l, x, hnd, hx => by
    rw [List.map_cons, List.nodup_cons] at hnd
    rcases List.mem_cons.mp hx with rfl | hx
    · simp [List.lookup]
    · have hne : x.1 ≠ y.1 := by
        intro heq
        exact hnd.1 (heq ▸ List.mem_map_of_mem hx)
      have hfalse : (x.1 == y.1) = false := by simpa using hne
      rw [List.lookup, hfalse]
      exact lookup_of_mem_nodup hnd.2 hx

theorem lookup_of_accepted (hm : Matches (some L) done) (hr : r ∈ done) :
    ∃ x, L.reservations.lookup r.reservationId = some x ∧ x.items = r.items ∧
      x.bytes = r.bytes ∧ x.worker = textOrNull r.worker ∧ x.stage = r.stage := by
  have hmem : r.entry ∈ L.reservations.map storedEntry := by
    rw [hm.2]
    exact List.mem_map_of_mem hr
  obtain ⟨y, hy, hentry⟩ := List.mem_map.mp hmem
  simp only [storedEntry, Request.entry, Prod.mk.injEq] at hentry
  obtain ⟨hid, hi, hb, hw, hs⟩ := hentry
  refine ⟨y.2, ?_, hi, hb, hw, hs⟩
  rw [← hid]
  exact lookup_of_mem_nodup hm.1.distinct hy

theorem lookup_of_not_accepted (hm : Matches (some L) done)
    (hr : r.reservationId ∉ done.map Request.reservationId) :
    L.reservations.lookup r.reservationId = none := by
  rw [List.lookup_eq_none_iff]
  intro x hx
  rw [bne_iff_ne]
  intro heq
  have hmem : storedEntry x ∈ done.map Request.entry := by
    rw [← hm.2]
    exact List.mem_map_of_mem hx
  obtain ⟨q, hq, hentry⟩ := List.mem_map.mp hmem
  refine hr (List.mem_map.mpr ⟨q, hq, ?_⟩)
  have hid : q.reservationId = x.1 := congrArg Prod.fst hentry
  rw [hid, heq]

/-- A reservation on a budget that exists, and that holds it. -/
theorem reserve_held {row : RunRow} {x : Reservation}
    (h : Records F r.run (db.eventsOf r.run .budget) L) (hrow : db.runs[r.run]? = some row)
    (hx : L.reservations.lookup r.reservationId = some x) :
    ∃ last, ∀ clock, db.reserve F r clock = (do
      raiseIf (x.items ≠ r.items ∨ x.bytes ≠ r.bytes ∨ x.stage ≠ r.stage)
        (.value s!"run {r.run} reservation {String.ofList r.reservationId} conflicts")
      pure ({ toSnapshot := L.snapshot last row.completedNs (clock 0), replayed := true,
              reservation := x }, db)) := by
  obtain ⟨last, hopen⟩ := Records.openRunBudget h
  refine ⟨last, fun clock => ?_⟩
  have hres : (L.snapshot last row.completedNs (clock 0)).reservations.lookup r.reservationId =
      some x := hx
  rw [hrow] at hopen
  rw [Database.reserve, hrow, hopen]
  simp only [ok_bind, Option.bind_some, hres]

/-- A reservation on a budget that exists, and that does not hold it. -/
theorem reserve_unheld {row : RunRow} (h : Records F r.run (db.eventsOf r.run .budget) L)
    (hrow : db.runs[r.run]? = some row)
    (hx : L.reservations.lookup r.reservationId = none) :
    ∃ last, ∀ clock, db.reserve F r clock =
      db.reserveNew F row (L.snapshot last row.completedNs (clock 0)) r clock := by
  obtain ⟨last, hopen⟩ := Records.openRunBudget h
  refine ⟨last, fun clock => ?_⟩
  have hres : (L.snapshot last row.completedNs (clock 0)).reservations.lookup r.reservationId =
      none := hx
  rw [hrow] at hopen
  rw [Database.reserve, hrow, hopen]
  simp only [ok_bind, Option.bind_some, hres]

/-- A reservation that was accepted is reported again, and nothing changes. -/
theorem reserve_repeated {row : RunRow} {q : Request}
    (h : Records F q.run (db.eventsOf q.run .budget) L) (hm : Matches (some L) done)
    (hrow : db.runs[q.run]? = some row) (hr : r ∈ done)
    (hid : q.reservationId = r.reservationId) (hi : q.items = r.items) (hb : q.bytes = r.bytes)
    (hs : q.stage = r.stage) (clock : ℕ → ℤ) :
    ∃ rep, db.reserve F q clock = .ok (rep, db) ∧ rep.replayed = true ∧
      rep.reservation.items = r.items ∧ rep.reservation.bytes = r.bytes ∧
      rep.reservation.worker = textOrNull r.worker ∧ rep.reservation.stage = r.stage ∧
      rep.consumedItems = L.items ∧ rep.consumedBytes = L.bytes := by
  obtain ⟨x, hx, hxi, hxb, hxw, hxs⟩ := lookup_of_accepted hm hr
  obtain ⟨last, hres⟩ := reserve_held h hrow (hid ▸ hx)
  have hsame : ¬ (x.items ≠ q.items ∨ x.bytes ≠ q.bytes ∨ x.stage ≠ q.stage) := by
    rw [hi, hb, hs, hxi, hxb, hxs]
    simp
  refine ⟨{ toSnapshot := L.snapshot last row.completedNs (clock 0), replayed := true,
            reservation := x }, ?_, rfl, hxi, hxb, hxw, hxs, rfl, rfl⟩
  rw [hres, raiseIf, if_neg hsame]
  rfl

/-- A reservation that was accepted with other amounts, or for another stage, raises. -/
theorem reserve_conflicting {row : RunRow} {q : Request}
    (h : Records F q.run (db.eventsOf q.run .budget) L) (hm : Matches (some L) done)
    (hrow : db.runs[q.run]? = some row) (hr : r ∈ done)
    (hid : q.reservationId = r.reservationId)
    (hne : q.items ≠ r.items ∨ q.bytes ≠ r.bytes ∨ q.stage ≠ r.stage) (clock : ℕ → ℤ) :
    ∃ e, db.reserve F q clock = .error e := by
  obtain ⟨x, hx, hxi, hxb, hxw, hxs⟩ := lookup_of_accepted hm hr
  obtain ⟨last, hres⟩ := reserve_held h hrow (hid ▸ hx)
  have hother : x.items ≠ q.items ∨ x.bytes ≠ q.bytes ∨ x.stage ≠ q.stage := by
    rw [hxi, hxb, hxs]
    exact hne.imp Ne.symm (Or.imp Ne.symm Ne.symm)
  refine ⟨.value s!"run {q.run} reservation {String.ofList q.reservationId} conflicts", ?_⟩
  rw [hres, raiseIf, if_pos hother]
  rfl

theorem reserve_missing (hrow : db.runs[r.run]? = none) (clock : ℕ → ℤ) :
    ∃ e, db.reserve F r clock = .error e := by
  refine ⟨.value s!"run {r.run} does not exist", ?_⟩
  rw [Database.reserve, hrow]

/-- A cancelled or expired ledger refuses what is new. -/
theorem refusal_of_stopped {s : Snapshot} (h : s.cancelRequested = true ∨ s.expired = true) :
    ∃ reason, refusal s r = some reason := by
  unfold refusal
  by_cases hc : s.cancelRequested = true
  · exact ⟨_, if_pos hc⟩
  · rw [if_neg hc, if_pos (h.resolve_left hc)]
    exact ⟨_, rfl⟩

/-- Nothing new is accepted on a ledger that is cancelled or past its deadline. -/
theorem reserve_stopped {row : RunRow} {clock : ℕ → ℤ}
    (h : Records F r.run (db.eventsOf r.run .budget) L) (hm : Matches (some L) done)
    (hrow : db.runs[r.run]? = some row) (hnew : r.reservationId ∉ done.map Request.reservationId)
    (hstop : row.status ≠ .running ∨ L.cancelled.isSome = true ∨
      L.expired (row.completedNs.getD (clock 0)) = true) :
    ∃ e, db.reserve F r clock = .error e := by
  obtain ⟨last, hres⟩ := reserve_unheld h hrow (lookup_of_not_accepted hm hnew)
  rw [hres, Database.reserveNew]
  by_cases hrun : row.status = .running
  · have hs : (L.snapshot last row.completedNs (clock 0)).cancelRequested = true ∨
        (L.snapshot last row.completedNs (clock 0)).expired = true :=
      hstop.resolve_left (not_not_intro hrun)
    obtain ⟨reason, hreason⟩ := @refusal_of_stopped r _ hs
    rw [hreason, raiseIf, if_neg (not_not_intro hrun)]
    exact ⟨_, rfl⟩
  · rw [raiseIf, if_pos hrun]
    exact ⟨_, rfl⟩

/-- Nothing new is accepted for a run that has ended, even one without a budget. -/
theorem reserve_ended {row : RunRow} {o : Option Ledger} {clock : ℕ → ℤ}
    (h : Recorded F r.run (db.eventsOf r.run .budget) o) (hm : Matches o done)
    (hrow : db.runs[r.run]? = some row) (hnew : r.reservationId ∉ done.map Request.reservationId)
    (hend : row.status ≠ .running) : ∃ e, db.reserve F r clock = .error e := by
  cases hx : db.reserve F r clock with
  | error e => exact ⟨e, rfl⟩
  | ok y =>
    exfalso
    rw [Database.reserve, hrow] at hx
    simp only [bind_eq_ok] at hx
    obtain ⟨⟨s, db₁⟩, ho, hx⟩ := hx
    obtain ⟨-, L, last, now, -, hev, rfl⟩ := Database.open_cases h ho
    have hmL := hev.matches_append hm
    rw [List.append_nil] at hmL
    have hnone : (L.snapshot last (db.runs[r.run]?.bind RunRow.completedNs) now).reservations.lookup
        r.reservationId = none := lookup_of_not_accepted hmL hnew
    simp only [hnone, Database.reserveNew, bind_eq_ok, raiseIf_eq_ok] at hx
    obtain ⟨-, hlive, -⟩ := hx
    exact hlive hend

end Reserve

/-! ## The claim over histories -/

/-- Work on the run has been stopped for good: the run has ended, or was cancelled. -/
def Stopped (F : Floats) (db : Database) (run : ℤ) : Prop :=
  (∃ row, db.runs[run]? = some row ∧ row.status ≠ .running) ∨
    ∃ now s, db.readRunBudget F run now = .ok (some s) ∧ s.cancelRequested = true

/-- The budget of `run` after a history: what it says of the requests that were accepted, and
how it answers every further reservation. -/
structure BudgetExact (F : Floats) (digestOf : CanonicalDigest) (run : ℤ) (db₀ : Database)
    (calls : List Timed) : Prop where
  /-- The totals are the sums over the accepted reservations, within the limits. -/
  totals : ∀ now,
    ((db₀.after F digestOf calls).readRunBudget F run now = .ok none ∧
      accepted F digestOf run db₀ calls = []) ∨
    ∃ s, (db₀.after F digestOf calls).readRunBudget F run now = .ok (some s) ∧
      s.consumedItems = ((accepted F digestOf run db₀ calls).map Request.items).sum ∧
      s.consumedBytes = ((accepted F digestOf run db₀ calls).map Request.bytes).sum ∧
      (∀ m ∈ s.budget.maxItems, s.consumedItems ≤ m) ∧
      ∀ m ∈ s.budget.maxBytes, s.consumedBytes ≤ m
  /-- No reservation is accepted twice. -/
  distinct : ((accepted F digestOf run db₀ calls).map Request.reservationId).Nodup
  /-- A repeated reservation is reported as it is stored, and the database stays as it is. -/
  repeated : ∀ r ∈ accepted F digestOf run db₀ calls, ∀ call c q clock,
    call.reserveCall? = some c → c.request = .ok q → q.run = run →
    q.reservationId = r.reservationId → q.items = r.items → q.bytes = r.bytes →
    q.stage = r.stage →
    ∃ rep, (db₀.after F digestOf calls).perform F digestOf clock call =
        .ok (.report rep, db₀.after F digestOf calls) ∧ rep.replayed = true ∧
      rep.reservation.items = r.items ∧ rep.reservation.bytes = r.bytes ∧
      rep.reservation.worker = textOrNull r.worker ∧ rep.reservation.stage = r.stage
  /-- A repeated reservation with other amounts, or another stage, raises. -/
  conflicting : ∀ r ∈ accepted F digestOf run db₀ calls, ∀ call c q clock,
    call.reserveCall? = some c → c.request = .ok q → q.run = run →
    q.reservationId = r.reservationId →
    (q.items ≠ r.items ∨ q.bytes ≠ r.bytes ∨ q.stage ≠ r.stage) →
    ∃ e, (db₀.after F digestOf calls).perform F digestOf clock call = .error e
  /-- A call that raises leaves the database as it is. -/
  unchanged : ∀ call clock e,
    (db₀.after F digestOf calls).perform F digestOf clock call = .error e →
    (db₀.after F digestOf calls).next F digestOf clock call = db₀.after F digestOf calls
  /-- A cancellation that returns has stopped the run. -/
  cancels : ∀ reason clock out db',
    (db₀.after F digestOf calls).perform F digestOf clock (.requestCancellation run reason) =
      .ok (out, db') → Stopped F db' run
  /-- After the run was stopped, nothing new is accepted. -/
  stopped : ∀ before rest, calls = before ++ rest → Stopped F (db₀.after F digestOf before) run →
    ∀ call c clock, call.reserveCall? = some c → c.run = run →
      c.reservationId ∉ (accepted F digestOf run db₀ calls).map Request.reservationId →
      ∃ e, (db₀.after F digestOf calls).perform F digestOf clock call = .error e
  /-- After the deadline has passed, nothing new is accepted. -/
  expired : ∀ before rest, calls = before ++ rest → ∀ now s,
    (db₀.after F digestOf before).readRunBudget F run now = .ok (some s) → s.expired = true →
    ∀ call c clock, call.reserveCall? = some c → c.run = run → now ≤ clock 0 →
      c.reservationId ∉ (accepted F digestOf run db₀ calls).map Request.reservationId →
      ∃ e, (db₀.after F digestOf calls).perform F digestOf clock call = .error e

section Exact

variable {F : Floats} {digestOf : CanonicalDigest} {db₀ : Database} {calls : List Timed}

/-- A database without budgets. -/
theorem replayable_of_fresh (h₀ : ∀ r, db₀.eventsOf r .budget = []) : Replayable F db₀ :=
  fun r => ⟨none, h₀ r⟩

/-- The ledger of a run at two points of a history, and the requests it holds at the second. -/
theorem history_split {before rest : List Timed} (h₀ : ∀ r, db₀.eventsOf r .budget = [])
    (hread : ReadableHistory F digestOf db₀ (before ++ rest)) (run : ℤ) :
    ∃ o o' d, Recorded F run ((db₀.after F digestOf before).eventsOf run .budget) o ∧
      Recorded F run ((db₀.after F digestOf (before ++ rest)).eventsOf run .budget) o' ∧
      Evolves o d o' ∧ Matches o' (accepted F digestOf run db₀ (before ++ rest)) ∧
      RunsKept (db₀.after F digestOf before) (db₀.after F digestOf (before ++ rest)) := by
  obtain ⟨hread₁, hread₂⟩ := hread.split
  obtain ⟨ha, -⟩ := history_advances (replayable_of_fresh h₀) hread₁
  obtain ⟨ha', hk⟩ := history_advances (ha.replayable (replayable_of_fresh h₀)) hread₂
  obtain ⟨o, ho, hev⟩ := ha run none (h₀ run)
  obtain ⟨o', ho', hev'⟩ := ha' run o ho
  have hm : Matches o ([] ++ accepted F digestOf run db₀ before) := hev.matches_append rfl
  rw [accepted_append, Database.after_append]
  exact ⟨o, o', _, ho, ho', hev', hev'.matches_append hm, hk⟩

/-- The ledger of a run after a history, and the requests it holds. -/
theorem history_inv (h₀ : ∀ r, db₀.eventsOf r .budget = [])
    (hread : ReadableHistory F digestOf db₀ calls) (run : ℤ) :
    ∃ o, Recorded F run ((db₀.after F digestOf calls).eventsOf run .budget) o ∧
      Matches o (accepted F digestOf run db₀ calls) := by
  obtain ⟨-, o, -, -, ho, -, hm, -⟩ := @history_split F digestOf db₀ [] calls h₀ hread run
  exact ⟨o, ho, hm⟩

theorem acceptedBy_ne_nil {run : ℤ} {call : Call} {out : Outcome} {r : Request}
    (h : r ∈ acceptedBy run call out) :
    ∃ c rep, call.reserveCall? = some c ∧ out = .report rep ∧ c.run = run := by
  unfold acceptedBy at h
  split at h
  next c rep hc =>
    split at h
    next q hq =>
      split at h
      next hif => exact ⟨c, rep, hc, rfl, (ReserveCall.request_valid hq).2.1 ▸ hif.1⟩
      next => cases h
    next => cases h
  next => cases h

/-- A run that has had a reservation accepted has its row. -/
theorem exists_row_of_accepted {run : ℤ} {r : Request} : ∀ {calls : List Timed} {db : Database},
    Replayable F db → ReadableHistory F digestOf db calls →
    r ∈ accepted F digestOf run db calls →
    ∃ row, (db.after F digestOf calls).runs[run]? = some row
  | (call, clock) :: calls, db, hr, hread, hmem => by
    have hr' : Replayable F (db.next F digestOf clock call) :=
      (@history_advances F digestOf [(call, clock)] db hr ⟨hread.1, trivial⟩).1.replayable hr
    rcases List.mem_append.mp hmem with hhead | hrest
    · cases hp : db.perform F digestOf clock call with
      | error e =>
        rw [hp] at hhead
        cases hhead
      | ok y =>
        rw [hp] at hhead
        obtain ⟨c, rep, hc, hout, hrun⟩ := acceptedBy_ne_nil hhead
        rw [perform_reserveCall hc] at hp
        obtain ⟨rep', -, hres⟩ := reported_eq_ok hp
        obtain ⟨-, -, row, hrow⟩ := advances_reserve hc hr hres
        rw [hrun] at hrow
        exact (history_advances hr hread).2.exists_row hrow
    · show ∃ row, ((db.next F digestOf clock call).after F digestOf calls).runs[run]? = some row
      exact exists_row_of_accepted hr' hread.2 hrest

theorem reserveRunBudget_of_request {db : Database} {c : ReserveCall} {q : Request}
    (h : c.request = .ok q) (clock : ℕ → ℤ) :
    db.reserveRunBudget F c clock = db.reserve F q clock := by
  rw [Database.reserveRunBudget, h]
  rfl

/-- A call raises when its reservation does. -/
theorem perform_error_of_reserve {db : Database} {call : Call} {c : ReserveCall} {clock : ℕ → ℤ}
    (hc : call.reserveCall? = some c)
    (h : ∀ q, c.request = .ok q → ∃ e, db.reserve F q clock = .error e) :
    ∃ e, db.perform F digestOf clock call = .error e := by
  rw [perform_reserveCall hc]
  cases hq : c.request with
  | error e =>
    refine ⟨e, ?_⟩
    rw [Database.reserveRunBudget, hq]
    rfl
  | ok q =>
    obtain ⟨e, he⟩ := h q hq
    refine ⟨e, ?_⟩
    rw [reserveRunBudget_of_request hq, he]
    rfl

/-- A snapshot that was read is the snapshot of the ledger that is recorded. -/
theorem snapshot_of_read {db : Database} {run now : ℤ} {o : Option Ledger} {s : Snapshot}
    (h : Recorded F run (db.eventsOf run .budget) o)
    (hread : db.readRunBudget F run now = .ok (some s)) :
    ∃ L last, o = some L ∧
      s = L.snapshot last (db.runs[run]?.bind RunRow.completedNs) now := by
  cases o with
  | none =>
    rw [Database.read_none h] at hread
    cases hread
  | some L =>
    obtain ⟨last, hlast⟩ := Records.read h
    rw [hlast, Except.ok.injEq, Option.some.injEq] at hread
    exact ⟨L, last, rfl, hread.symm⟩

/-- **The run budget is exact.**  From a database without budgets, after any history whose
calls are readable where they are made. -/
theorem budget_exact (run : ℤ) (h₀ : ∀ r, db₀.eventsOf r .budget = [])
    (hread : ReadableHistory F digestOf db₀ calls) : BudgetExact F digestOf run db₀ calls := by
  obtain ⟨o, ho, hm⟩ := history_inv h₀ hread run
  -- a run with an accepted reservation has a row and a ledger
  have hheld : ∀ r ∈ accepted F digestOf run db₀ calls, ∃ row L,
      (db₀.after F digestOf calls).runs[run]? = some row ∧ o = some L := by
    intro r hr
    obtain ⟨row, hrow⟩ := exists_row_of_accepted (replayable_of_fresh h₀) hread hr
    cases o with
    | none =>
      rw [show accepted F digestOf run db₀ calls = [] from hm] at hr
      cases hr
    | some L => exact ⟨row, L, hrow, rfl⟩
  refine ⟨?_, ?_, ?_, ?_, ?_, ?_, ?_, ?_⟩
  · intro now
    cases o with
    | none => exact .inl ⟨Database.read_none ho now, hm⟩
    | some L =>
      obtain ⟨last, hlast⟩ := Records.read ho
      refine .inr ⟨_, hlast now, ?_, ?_, hm.1.items_le, hm.1.bytes_le⟩
      · have := congrArg (List.map fun x => x.2.1) hm.2
        rw [List.map_map, List.map_map] at this
        exact congrArg List.sum this
      · have := congrArg (List.map fun x => x.2.2.1) hm.2
        rw [List.map_map, List.map_map] at this
        exact congrArg List.sum this
  · cases o with
    | none =>
      rw [show accepted F digestOf run db₀ calls = [] from hm]
      exact List.nodup_nil
    | some L =>
      have := congrArg (List.map Prod.fst) hm.2
      rw [List.map_map, List.map_map] at this
      exact this ▸ hm.1.distinct
  · intro r hr call c q clock hc hq hrun hid hi hb hs
    obtain ⟨row, L, hrow, rfl⟩ := hheld r hr
    subst hrun
    obtain ⟨rep, hrep, hreplayed, hri, hrb, hrw, hrs, -⟩ :=
      reserve_repeated ho hm hrow hr hid hi hb hs clock
    refine ⟨rep, ?_, hreplayed, hri, hrb, hrw, hrs⟩
    rw [perform_reserveCall hc, reserveRunBudget_of_request hq, hrep]
    rfl
  · intro r hr call c q clock hc hq hrun hid hne
    obtain ⟨row, L, hrow, rfl⟩ := hheld r hr
    subst hrun
    obtain ⟨e, he⟩ := reserve_conflicting ho hm hrow hr hid hne clock
    refine ⟨e, ?_⟩
    rw [perform_reserveCall hc, reserveRunBudget_of_request hq, he]
    rfl
  · intro call clock e he
    rw [Database.next, he]
  · intro reason clock out db' hp
    obtain ⟨b, -, hc⟩ := flagged_eq_ok hp
    obtain ⟨-, L, hL, -, hcancel⟩ := Database.requestRunCancellation_evolves ho hc
    obtain ⟨last, hlast⟩ := hL.read
    exact .inr ⟨0, _, hlast 0, hcancel⟩
  · rintro before rest rfl hstop call c clock hc hrun hnew
    obtain ⟨o₁, o₂, d, ho₁, ho₂, hev, hm₂, hk⟩ := history_split h₀ hread run
    refine perform_error_of_reserve hc fun q hq => ?_
    obtain ⟨-, hqrun, hqid⟩ := ReserveCall.request_valid hq
    rw [← hqid] at hnew
    obtain rfl : q.run = run := hqrun.trans hrun
    rcases hstop with ⟨row, hrow, hend⟩ | ⟨now, s, hs, hcancel⟩
    · exact reserve_ended ho₂ hm₂ (hk.ended hrow hend) hnew hend
    · obtain ⟨L, last, rfl, rfl⟩ := snapshot_of_read ho₁ hs
      obtain ⟨L', rfl, -, hkept⟩ := hev.kept rfl
      cases hrow : (db₀.after F digestOf (before ++ rest)).runs[q.run]? with
      | none => exact reserve_missing hrow clock
      | some row => exact reserve_stopped ho₂ hm₂ hrow hnew (.inr (.inl (hkept hcancel)))
  · rintro before rest rfl now s hs hexp call c clock hc hrun hle hnew
    obtain ⟨o₁, o₂, d, ho₁, ho₂, hev, hm₂, hk⟩ := history_split h₀ hread run
    refine perform_error_of_reserve hc fun q hq => ?_
    obtain ⟨-, hqrun, hqid⟩ := ReserveCall.request_valid hq
    rw [← hqid] at hnew
    obtain rfl : q.run = run := hqrun.trans hrun
    obtain ⟨L, last, rfl, rfl⟩ := snapshot_of_read ho₁ hs
    obtain ⟨L', rfl, hdeadline, -⟩ := hev.kept rfl
    cases hrow : (db₀.after F digestOf (before ++ rest)).runs[q.run]? with
    | none => exact reserve_missing hrow clock
    | some row =>
      refine reserve_stopped ho₂ hm₂ hrow hnew ?_
      rcases hk q.run with heq | ⟨-, row', -, hrow', -, hend⟩
      · -- the same row: the deadline is still behind
        refine .inr (.inr ?_)
        have hexp' : L.expired ((row.completedNs).getD now) = true := by
          rw [heq] at hrow
          simpa [Ledger.snapshot, hrow] using hexp
        unfold Ledger.expired at hexp' ⊢
        rw [hdeadline]
        cases hd : L.deadlineNs with
        | none =>
          rw [hd] at hexp'
          cases hexp'
        | some t =>
          rw [hd] at hexp'
          simp only [Option.any_some, decide_eq_true_eq] at hexp' ⊢
          cases hcomp : row.completedNs with
          | none =>
            rw [hcomp] at hexp'
            exact le_trans hexp' hle
          | some n =>
            rw [hcomp] at hexp'
            exact hexp'
      · rw [hrow, Option.some.injEq] at hrow'
        subst hrow'
        exact .inl hend

end Exact

/-! ## Bindings that no replay accepts -/

/-- No floating-point value. -/
def noFloats : Floats := ⟨fun _ => none, fun _ => false, fun _ => none⟩

/-- A database with one running run. -/
def oneRun : Database where
  runs := (∅ : Table ℤ RunRow).insert 1 ⟨.running, .initial, none, none⟩
  events := []
  ordered := ordered_nil

/-- A budget without limits, a reservation of one item, and a binding to a digest that is not
written `sha256:`. -/
def unreadableBinding : List Timed :=
  [(.publishBudget 1 none none, fun _ => 0),
   (.reserve { run := 1, reservationId := lit "a", items := 1 }, fun _ => 1),
   (.publishBudget 1 none (some (lit "abc")), fun _ => 2)]

/-- The reservation was accepted, and repeating it raises. -/
theorem unreadable_binding_loses_reservations :
    (accepted noFloats (fun _ => []) 1 oneRun unreadableBinding).map Request.reservationId =
        [lit "a"] ∧
      (match (oneRun.after noFloats (fun _ => []) unreadableBinding).perform noFloats (fun _ => [])
          (fun _ => 3) (.reserve { run := 1, reservationId := lit "a", items := 1 }) with
        | .ok _ => none
        | .error e => some e) =
        some (.runtime "run 1 lifecycle budget binding is invalid") := by
  decide +kernel

/-- The same history without the binding meets the conditions of `budget_exact`. -/
theorem budget_exact_oneRun :
    (∀ r, oneRun.eventsOf r .budget = []) ∧
      ReadableHistory noFloats (fun _ => []) oneRun (unreadableBinding.take 2) ∧
      BudgetExact noFloats (fun _ => []) 1 oneRun (unreadableBinding.take 2) := by
  have hread : ReadableHistory noFloats (fun _ => []) oneRun (unreadableBinding.take 2) := by
    refine ⟨?_, trivial, trivial⟩
    intro t ht
    cases ht
  exact ⟨fun _ => rfl, hread, budget_exact 1 (fun _ => rfl) hread⟩

end Framework
end Neocortex
