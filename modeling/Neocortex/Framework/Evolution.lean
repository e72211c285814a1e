import Neocortex.Framework.Ledger

/-!
# What the calls do to the ledger

`Evolves` is the ledger as a machine of its own: it may be opened once, take a reservation
that is new and within its limits while it is not cancelled, be cancelled, or be bound to a
manifest.  Every call that succeeds is a run of that machine on the events of each run, as
long as it does not bind a ledger to a digest that the replay refuses.

* `Evolves.matches_append`, `Evolves.kept`: what a run of the machine keeps;
* `Database.ensure_cases`, `Database.open_cases`, `Database.reserve_cases`: what each
  writer appends;
* `Database.perform_evolves`: every call.
-/

namespace Neocortex
namespace Framework

open Python Checks

/-! ## The machine -/

/-- The changes of a ledger, with the requests that are accepted on the way. -/
inductive Evolves : Option Ledger → List Request → Option Ledger → Prop where
  | refl (o : Option Ledger) : Evolves o [] o
  | opened (b : RunBudget) (digest : Option Text) (startedNs : ℤ) (deadlineNs : Option ℤ) :
      Evolves none [] (some (Ledger.opened b digest startedNs deadlineNs))
  | reserved {L : Ledger} {r : Request} (id : ℕ)
      (new : L.reservations.lookup r.reservationId = none) (live : L.cancelled = none)
      (items : ∀ m ∈ L.budget.maxItems, L.items + r.items ≤ m)
      (bytes : ∀ m ∈ L.budget.maxBytes, L.bytes + r.bytes ≤ m) :
      Evolves (some L) [r] (some (L.reserve r.reservationId (r.reservation (some id))))
  | cancelled (L : Ledger) (reason : Text) : Evolves (some L) [] (some (L.cancel reason))
  | bound (L : Ledger) (digest : Text) : Evolves (some L) [] (some (L.bind digest))
  | trans {o o' o'' : Option Ledger} {done done' : List Request} :
      Evolves o done o' → Evolves o' done' o'' → Evolves o (done ++ done') o''

/-- What a reservation of the ledger says, apart from the event that holds it. -/
def storedEntry (x : Text × Reservation) : Text × ℤ × ℤ × Json × Option Text :=
  (x.1, x.2.items, x.2.bytes, x.2.worker, x.2.stage)

/-- What a request says. -/
def Request.entry (r : Request) : Text × ℤ × ℤ × Json × Option Text :=
  (r.reservationId, r.items, r.bytes, textOrNull r.worker, r.stage)

/-- The ledger holds exactly the accepted requests, within its limits. -/
def Matches : Option Ledger → List Request → Prop
  | none, done => done = []
  | some L, done => L.Sound ∧ L.reservations.map storedEntry = done.map Request.entry

theorem notMem_of_lookup_eq_none {α β : Type} [BEq α] [LawfulBEq α] {l : List (α × β)} {a : α}
    (h : l.lookup a = none) : a ∉ l.map Prod.fst := by
  intro hmem
  obtain ⟨x, hx, rfl⟩ := List.mem_map.mp hmem
  have := List.lookup_eq_none_iff.mp h x hx
  simp at this

theorem Evolves.matches_append {o o' : Option Ledger} {d done : List Request}
    (h : Evolves o d o') (hm : Matches o done) : Matches o' (done ++ d) := by
  induction h generalizing done with
  | refl o => rwa [List.append_nil]
  | opened b digest s dl =>
    obtain rfl : done = [] := hm
    exact ⟨Ledger.sound_opened b digest s dl, rfl⟩
  | @reserved L r id new live items bytes =>
    refine ⟨⟨?_, ?_, ?_⟩, ?_⟩
    · show ((L.reservations ++ [_]).map Prod.fst).Nodup
      rw [List.map_append, List.nodup_append]
      refine ⟨hm.1.distinct, List.nodup_singleton _, fun a ha b hb hab => ?_⟩
      rw [List.map_singleton, List.mem_singleton] at hb
      subst hb hab
      exact notMem_of_lookup_eq_none new ha
    · intro m hmem
      rw [Ledger.items_reserve]
      exact items m hmem
    · intro m hmem
      rw [Ledger.bytes_reserve]
      exact bytes m hmem
    · show (L.reservations ++ [_]).map storedEntry = _
      rw [List.map_append, List.map_append, hm.2]
      rfl
  | cancelled L reason =>
    rw [List.append_nil]
    exact ⟨⟨hm.1.distinct, hm.1.items_le, hm.1.bytes_le⟩, hm.2⟩
  | bound L digest =>
    rw [List.append_nil]
    exact ⟨⟨hm.1.distinct, hm.1.items_le, hm.1.bytes_le⟩, hm.2⟩
  | trans _ _ ih ih' =>
    rw [← List.append_assoc]
    exact ih' (ih hm)

/-- A cancellation is not taken back and a deadline does not move. -/
theorem Evolves.kept {o o' : Option Ledger} {d : List Request} (h : Evolves o d o') :
    ∀ {L : Ledger}, o = some L → ∃ L', o' = some L' ∧ L'.deadlineNs = L.deadlineNs ∧
      (L.cancelled.isSome → L'.cancelled.isSome) := by
  induction h with
  | refl o =>
    intro L hL
    exact ⟨L, hL, rfl, fun h => h⟩
  | opened b digest s dl =>
    intro L hL
    cases hL
  | @reserved K r id new live items bytes =>
    rintro L ⟨⟩
    exact ⟨_, rfl, rfl, fun h => h⟩
  | cancelled K reason =>
    rintro L ⟨⟩
    exact ⟨_, rfl, rfl, fun _ => rfl⟩
  | bound K digest =>
    rintro L ⟨⟩
    exact ⟨_, rfl, rfl, fun h => h⟩
  | trans _ _ ih ih' =>
    intro L hL
    obtain ⟨M, hM, hd, hc⟩ := ih hL
    obtain ⟨N, hN, hd', hc'⟩ := ih' hM
    exact ⟨N, hN, hd'.trans hd, fun h => hc' (hc h)⟩

/-! ## Appended events -/

/-- The budget events of a run record its ledger, if it has one. -/
def Recorded (F : Floats) (run : ℤ) (events : List Event) : Option Ledger → Prop
  | none => events = []
  | some L => Records F run events L

/-- Only the budget of `run` may differ. -/
structure Elsewhere (run : ℤ) (db db' : Database) : Prop where
  runs : db'.runs = db.runs
  events : ∀ r, r ≠ run → db'.eventsOf r .budget = db.eventsOf r .budget

theorem Elsewhere.refl (run : ℤ) (db : Database) : Elsewhere run db db := ⟨rfl, fun _ _ => rfl⟩

theorem Elsewhere.trans {run : ℤ} {db db' db'' : Database} (h : Elsewhere run db db')
    (h' : Elsewhere run db' db'') : Elsewhere run db db'' :=
  ⟨h'.runs.trans h.runs, fun r hr => (h'.events r hr).trans (h.events r hr)⟩

section Append

variable (db : Database) (run : ℤ) (phase : Phase) (message : Text) (details : Members)

theorem Database.eventsOf_append_self :
    (db.append run phase message details).eventsOf run phase =
      db.eventsOf run phase ++ [db.newEvent run phase message details] := by
  rw [Database.eventsOf_append, if_pos ⟨rfl, rfl⟩]

theorem Database.eventsOf_append_of_ne {r : ℤ} {p : Phase} (h : ¬ (run = r ∧ phase = p)) :
    (db.append run phase message details).eventsOf r p = db.eventsOf r p := by
  rw [Database.eventsOf_append, if_neg h, List.append_nil]

theorem Elsewhere.append : Elsewhere run db (db.append run phase message details) := by
  refine ⟨rfl, fun r hr => db.eventsOf_append_of_ne run phase message details ?_⟩
  rintro ⟨rfl, -⟩
  exact hr rfl

variable {db run phase message details} in
theorem Database.insert_eq_ok {db' : Database}
    (h : db.insert run phase message details = .ok db') :
    db' = db.append run phase message details := by
  unfold Database.insert at h
  split_ifs at h
  exact (Except.ok.inj h).symm

end Append

/-- Appending once: nothing, or the details with their key. -/
theorem Database.appendOnce_cases {db db' : Database} {run : ℤ} {phase : Phase}
    {message key : Text} {details : Members} {b : Bool}
    (h : db.appendLifecycleEventOnce run phase message key details = .ok (b, db')) :
    db' = db ∨ (db.lifecycleEvent? run phase message key = none ∧
      db' = db.append run phase message (details ++ [(lit "idempotency_key", .str key)])) := by
  simp only [Database.appendLifecycleEventOnce] at h
  split at h
  next => cases h
  next =>
    split at h
    next =>
      split at h
      next => cases h
      next =>
        simp only [Except.ok.injEq, Prod.mk.injEq] at h
        exact .inl h.2.symm
    next hnone =>
      rw [bind_eq_ok] at h
      obtain ⟨db₁, h₁, h⟩ := h
      simp only [pure_eq_ok, Prod.mk.injEq] at h
      refine .inr ⟨hnone, ?_⟩
      rw [← h.2, Database.insert_eq_ok h₁]

/-! ## The baseline -/

/-- The run has a baseline with these limits and no digest, and no binding yet. -/
def Database.awaitsBinding (F : Floats) (db : Database) (run : ℤ) (budget : Option Members) :
    Bool :=
  match RunBudget.fromMapping F budget, (db.baselines run).getLast? with
  | .ok normalized, some existing =>
    (normalized.payload.all fun m => F.equal (Json.get existing.details m.1) m.2) &&
      (match Json.get existing.details (lit "manifest_digest") with
        | .null => true
        | _ => false) &&
      (db.lifecycleEvent? run .budget budgetBound (lit "manifest-binding")).isNone
  | _, _ => false

/-- `_ensure_run_budget_event` writes nothing, a baseline, or a binding. -/
theorem Database.ensure_cases {F : Floats} {db db' : Database} {run : ℤ}
    {budget : Option Members} {digest : Option Text} {now : ℤ} {b : Bool}
    (h : db.ensureRunBudgetEvent F run budget digest now = .ok (b, db')) :
    db' = db ∨
    (∃ n d, RunBudget.fromMapping F budget = .ok n ∧ db.baselines run = [] ∧
      db' = db.append run .budget budgetInitialized (baselineDetails n digest now d)) ∨
    (∃ t, digest = some t ∧ db.awaitsBinding F run budget = true ∧
      db' = db.append run .budget budgetBound
        (boundDetails t ++ [(lit "idempotency_key", .str (lit "manifest-binding"))])) := by
  rw [Database.ensureRunBudgetEvent, bind_eq_ok] at h
  obtain ⟨n, hn, h⟩ := h
  rw [bind_eq_ok] at h
  obtain ⟨-, -, h⟩ := h
  cases hlast : (db.baselines run).getLast? with
  | none =>
    rw [hlast] at h
    simp only [bind_eq_ok, pure_eq_ok, Prod.mk.injEq] at h
    obtain ⟨d, -, db₁, h₁, -, rfl⟩ := h
    refine .inr (.inl ⟨n, d, hn, List.getLast?_eq_none_iff.mp hlast, Database.insert_eq_ok h₁⟩)
  | some existing =>
    rw [hlast] at h
    simp only [bind_eq_ok, raiseIf_eq_ok] at h
    obtain ⟨-, hall, h⟩ := h
    cases digest with
    | none =>
      simp only [pure_eq_ok, Prod.mk.injEq] at h
      exact .inl h.2.symm
    | some t =>
      simp only at h
      split at h
      next hnull =>
        rw [bind_eq_ok] at h
        obtain ⟨⟨c, db₁⟩, h₁, h⟩ := h
        simp only [pure_eq_ok, Prod.mk.injEq] at h
        obtain ⟨-, rfl⟩ := h
        rcases Database.appendOnce_cases h₁ with rfl | ⟨hfree, rfl⟩
        · exact .inl rfl
        · refine .inr (.inr ⟨t, rfl, ?_, rfl⟩)
          rw [Database.awaitsBinding, hn, hlast]
          simp only [hnull, hfree, Bool.not_eq_false] at hall ⊢
          rw [hall]
          rfl
      next bound hbound =>
        simp only [bind_eq_ok, raiseIf_eq_ok, pure_eq_ok, Prod.mk.injEq] at h
        obtain ⟨-, -, -, rfl⟩ := h
        exact .inl rfl
      next => cases h

section Writers

variable {F : Floats} {db db' : Database} {run : ℤ} {o : Option Ledger}

/-- A digest that the replay of a binding accepts, unless no binding is written. -/
def Bindable (F : Floats) (db : Database) (run : ℤ) (budget : Option Members)
    (digest : Option Text) : Prop :=
  ∀ t ∈ digest, startsSha256 t = true ∨ db.awaitsBinding F run budget = false

theorem Database.baselines_ne_nil {L : Ledger} (h : Records F run (db.eventsOf run .budget) L) :
    db.baselines run ≠ [] := by
  obtain ⟨first, digest, hb, -⟩ := h.baselines
  rw [hb]
  exact List.cons_ne_nil _ _

theorem Database.ensure_evolves {budget : Option Members} {digest : Option Text} {now : ℤ}
    {b : Bool} (h : Recorded F run (db.eventsOf run .budget) o)
    (hbind : Bindable F db run budget digest)
    (he : db.ensureRunBudgetEvent F run budget digest now = .ok (b, db')) :
    Elsewhere run db db' ∧
      ∃ o', Recorded F run (db'.eventsOf run .budget) o' ∧ Evolves o [] o' := by
  rcases Database.ensure_cases he with rfl | ⟨n, d, hn, hnil, rfl⟩ | ⟨t, rfl, hawait, rfl⟩
  · exact ⟨Elsewhere.refl run db', o, h, .refl o⟩
  · refine ⟨Elsewhere.append _ _ _ _ _, some (Ledger.opened n digest now d), ?_, ?_⟩
    · cases o with
      | some L => exact absurd hnil (Database.baselines_ne_nil h)
      | none =>
        have hev : db.eventsOf run .budget = [] := h
        rw [Database.eventsOf_append_self, hev]
        exact Records.opened (accepted_of_fromMapping hn) digest now d rfl rfl
    · cases o with
      | some L => exact absurd hnil (Database.baselines_ne_nil h)
      | none => exact .opened n digest now d
  · have hsha : startsSha256 t = true := by
      rcases hbind t rfl with hsha | hno
      · exact hsha
      · rw [hawait] at hno
        cases hno
    cases o with
    | none =>
      -- a binding is only written behind a baseline
      have hev : db.eventsOf run .budget = [] := h
      rw [Database.awaitsBinding, Database.baselines, hev] at hawait
      cases hf : RunBudget.fromMapping F budget <;> rw [hf] at hawait <;> cases hawait
    | some L =>
      refine ⟨Elsewhere.append _ _ _ _ _, some (L.bind t), ?_, .bound L t⟩
      rw [Database.eventsOf_append_self]
      refine Records.append h rfl rfl rfl ?_ ?_ fun last => replayEvent_bound hsha run L last _
      · exact @budgetRow_eq_ok run _ (lit "manifest-binding") rfl rfl (by decide)
      · show budgetBound ≠ budgetInitialized
        decide

theorem Database.read_none (h : Recorded F run (db.eventsOf run .budget) none) (now : ℤ) :
    db.readRunBudget F run now = .ok none := by
  have hev : db.eventsOf run .budget = [] := h
  rw [Database.readRunBudget, Database.budgetRows, hev]
  rfl

/-- A budget that exists is opened as it is. -/
theorem Records.openRunBudget {L : Ledger} (h : Records F run (db.eventsOf run .budget) L) :
    ∃ last, ∀ clock, db.openRunBudget F run clock =
      .ok (L.snapshot last (db.runs[run]?.bind RunRow.completedNs) (clock 0), db) := by
  obtain ⟨last, hread⟩ := h.read
  refine ⟨last, fun clock => ?_⟩
  rw [Database.openRunBudget, hread]
  rfl

theorem Database.open_cases {clock : ℕ → ℤ} {s : Snapshot}
    (h : Recorded F run (db.eventsOf run .budget) o)
    (ho : db.openRunBudget F run clock = .ok (s, db')) :
    Elsewhere run db db' ∧ ∃ L last now, Records F run (db'.eventsOf run .budget) L ∧
      Evolves o [] (some L) ∧
      s = L.snapshot last (db.runs[run]?.bind RunRow.completedNs) now := by
  cases o with
  | some L =>
    obtain ⟨last, hopen⟩ := Records.openRunBudget h
    rw [hopen, Except.ok.injEq, Prod.mk.injEq] at ho
    obtain ⟨rfl, rfl⟩ := ho
    exact ⟨Elsewhere.refl run db, L, last, clock 0, h, .refl _, rfl⟩
  | none =>
    rw [Database.openRunBudget, bind_eq_ok] at ho
    obtain ⟨r, hr, ho⟩ := ho
    rw [Database.read_none h, Except.ok.injEq] at hr
    subst hr
    simp only [bind_eq_ok] at ho
    obtain ⟨⟨b, db₁⟩, hens, r, hr, ho⟩ := ho
    obtain ⟨helse, o', hrec, hev⟩ := Database.ensure_evolves h (fun t ht => by cases ht) hens
    cases o' with
    | none =>
      rw [Database.read_none hrec, Except.ok.injEq] at hr
      subst hr
      cases ho
    | some L =>
      obtain ⟨last, hread⟩ := Records.read hrec
      rw [hread, Except.ok.injEq] at hr
      subst hr
      simp only [pure_eq_ok, Prod.mk.injEq] at ho
      obtain ⟨rfl, rfl⟩ := ho
      rw [helse.runs]
      exact ⟨helse, L, last, clock 2, hrec, hev, rfl⟩

/-- A cancellation is recorded. -/
theorem Records.cancelled {L : Ledger} {reason : Text} {m : Json}
    (h : Records F run (db.eventsOf run .budget) L) (hr : IsReason reason) :
    Records F run ((db.append run .budget cancellationRequested
      (cancelledDetails m reason)).eventsOf run .budget) (L.cancel reason) := by
  rw [Database.eventsOf_append_self]
  refine h.append rfl rfl rfl ?_ ?_ fun last => replayEvent_cancelled hr run m L last _
  · exact @budgetRow_eq_ok run _ (lit "cancellation") rfl rfl (by decide)
  · show cancellationRequested ≠ budgetInitialized
    decide

theorem Database.requestRunCancellation_evolves {reason : Text} {clock : ℕ → ℤ} {b : Bool}
    (h : Recorded F run (db.eventsOf run .budget) o)
    (hc : db.requestRunCancellation F run reason clock = .ok (b, db')) :
    Elsewhere run db db' ∧ ∃ L, Records F run (db'.eventsOf run .budget) L ∧
      Evolves o [] (some L) ∧ L.cancelled.isSome = true := by
  simp only [Database.requestRunCancellation, bind_eq_ok, raiseIf_eq_ok] at hc
  obtain ⟨-, hreason, -, -, ⟨s, db₁⟩, ho, hc⟩ := hc
  obtain ⟨helse, L, last, now, hrec, hev, rfl⟩ := Database.open_cases h ho
  simp only at hc
  split at hc
  next hcancel =>
    simp only [pure_eq_ok, Prod.mk.injEq] at hc
    obtain ⟨-, rfl⟩ := hc
    exact ⟨helse, L, hrec, hev, hcancel⟩
  next hlive =>
    simp only [bind_eq_ok, pure_eq_ok, Prod.mk.injEq] at hc
    obtain ⟨db₂, hins, -, rfl⟩ := hc
    rw [Database.insert_eq_ok hins]
    exact ⟨helse.trans (Elsewhere.append _ _ _ _ _), L.cancel reason, hrec.cancelled hreason,
      hev.trans (.cancelled L reason), rfl⟩

/-- `mapM` succeeds on a list only if it does on each of its items. -/
theorem mapM_eq_ok_mem {ε α β : Type} {f : α → Except ε β} :
    ∀ {l : List α} {r : List β}, l.mapM f = .ok r → ∀ a ∈ l, ∃ b, f a = .ok b
  | a :: l, r, h, x, hx => by
    rw [List.mapM_cons, bind_eq_ok] at h
    obtain ⟨b, hb, h⟩ := h
    rw [bind_eq_ok] at h
    obtain ⟨bs, hbs, -⟩ := h
    rcases List.mem_cons.mp hx with rfl | hx
    · exact ⟨b, hb⟩
    · exact mapM_eq_ok_mem hbs x hx

theorem budgetRow_eq_row {e : Event} {x : ℕ × Members} (h : budgetRow run e = .ok x) :
    x = e.row := by
  rw [budgetRow, bind_eq_ok] at h
  obtain ⟨-, -, h⟩ := h
  split at h
  next => exact (pure_eq_ok.mp h).symm
  next =>
    rw [bind_eq_ok] at h
    obtain ⟨-, -, h⟩ := h
    exact (pure_eq_ok.mp h).symm
  next => cases h

/-- A budget that can be read passes the checks of `_budget_rows` on every row. -/
theorem Database.budgetRow_of_read {now : ℤ} {r : Option Snapshot}
    (h : db.readRunBudget F run now = .ok r) {e : Event} (he : e ∈ db.eventsOf run .budget) :
    budgetRow run e = .ok e.row := by
  rw [Database.readRunBudget, bind_eq_ok] at h
  obtain ⟨rows, hrows, -⟩ := h
  obtain ⟨x, hx⟩ := mapM_eq_ok_mem hrows e he
  rw [hx, budgetRow_eq_row hx]

theorem refusal_eq_none {s : Snapshot} {r : Request} (h : refusal s r = none) :
    s.cancelRequested = false ∧ s.expired = false ∧
      (∀ m ∈ s.budget.maxItems, s.consumedItems + r.items ≤ m) ∧
      ∀ m ∈ s.budget.maxBytes, s.consumedBytes + r.bytes ≤ m := by
  unfold refusal at h
  split_ifs at h with h1 h2 h3 h4
  refine ⟨by simpa using h1, by simpa using h2, fun m hm => ?_, fun m hm => ?_⟩
  · rw [hm] at h3
    simpa using h3
  · rw [hm] at h4
    simpa using h4

/-- A reservation: the report of one the ledger holds, or one more. -/
theorem Database.reserve_cases {r : Request} {clock : ℕ → ℤ} {rep : Report} (hr : r.Valid)
    (h : Recorded F r.run (db.eventsOf r.run .budget) o)
    (hres : db.reserve F r clock = .ok (rep, db')) :
    Elsewhere r.run db db' ∧ (∃ row, db.runs[r.run]? = some row) ∧
      ∃ o', Recorded F r.run (db'.eventsOf r.run .budget) o' ∧
        Evolves o (if rep.replayed then [] else [r]) o' := by
  rw [Database.reserve] at hres
  cases hrow : db.runs[r.run]? with
  | none =>
    rw [hrow] at hres
    cases hres
  | some row =>
    rw [hrow] at hres
    simp only [bind_eq_ok] at hres
    obtain ⟨⟨s, db₁⟩, ho, hres⟩ := hres
    obtain ⟨helse, L, last, now, hrec, hev, rfl⟩ := Database.open_cases h ho
    simp only at hres
    split at hres
    next existing hex =>
      simp only [bind_eq_ok, pure_eq_ok, Prod.mk.injEq] at hres
      obtain ⟨-, -, rfl, rfl⟩ := hres
      exact ⟨helse, ⟨row, rfl⟩, some L, hrec, hev⟩
    next hnew =>
      rw [Database.reserveNew, bind_eq_ok] at hres
      obtain ⟨-, -, hres⟩ := hres
      split at hres
      next => cases hres
      next hok =>
        simp only [bind_eq_ok] at hres
        obtain ⟨db₂, hins, result, hread, hres⟩ := hres
        have hdb := Database.insert_eq_ok hins
        subst hdb
        cases result with
        | none => cases hres
        | some result =>
          simp only [pure_eq_ok, Prod.mk.injEq] at hres
          obtain ⟨rfl, rfl⟩ := hres
          obtain ⟨hlive, -, hi, hb⟩ := refusal_eq_none hok
          have hcancel : L.cancelled = none := by
            have : L.cancelled.isSome = false := hlive
            simpa using this
          refine ⟨helse.trans (Elsewhere.append _ _ _ _ _), ⟨row, rfl⟩, some _, ?_,
            hev.trans (.reserved (db₁.nextEventId) hnew hcancel hi hb)⟩
          -- the read after the insert has checked the new row
          have hrow := fun e => @Database.budgetRow_of_read F _ r.run _ _ hread e
          show Records F r.run _ _
          rw [Database.eventsOf_append_self] at hrow ⊢
          refine hrec.append rfl rfl rfl
            (hrow _ (List.mem_append_right _ (List.mem_singleton_self _))) ?_
            fun l => replayEvent_consumed hr r.run _ L l _ hnew
          show budgetConsumed ≠ budgetInitialized
          decide

end Writers

end Framework
end Neocortex
