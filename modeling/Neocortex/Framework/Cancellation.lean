import Neocortex.Framework.Statements
import Neocortex.Framework.Exact

/-!
# Cancellation from other connections

What a commit has to keep for a cancellation to be final, and that every call keeps it where
nothing it has read is changed before its first write.

* `cancelDiscipline` is the discipline, `Tidy` what the budget events of a run look like;
* the `holds_` lemmas say what a call knows after its statements, the `_sound` theorems that it
  ends well;
* `cancellation_final` is the result for every run, and `overtaken` the race it leaves out.
-/

namespace Neocortex
namespace Framework

open Python Checks Connections

/-! ## What every commit keeps -/

/-- The consumed reservations of a run. -/
def Database.consumptions (db : Database) (run : ℤ) : List Event :=
  (db.eventsOf run .budget).filter fun e => e.message == budgetConsumed

/-- The budget events of a run: a baseline comes first and is the only one, there is at most
one cancellation, and nothing is consumed after it. -/
structure Tidy (events : List Event) : Prop where
  first : ∀ e ∈ events.head?, e.message = budgetInitialized
  baselines : (events.filter fun e => e.message == budgetInitialized).length ≤ 1
  cancellations : (events.filter fun e => e.message == cancellationRequested).length ≤ 1
  kinds : ∀ e ∈ events, e.message = cancellationRequested →
    Json.get e.details (lit "kind") = .str (lit "cancelled")
  order : events.Pairwise fun a b =>
    ¬ (a.message = cancellationRequested ∧ b.message = budgetConsumed)

def Database.Tidy (db : Database) : Prop := ∀ run, Framework.Tidy (db.eventsOf run .budget)

/-- The run is completed. -/
def Database.Completed (db : Database) (run : ℤ) : Prop :=
  (db.runs[run]?.map RunRow.status) = some .completed

/-- What a call depends on: the budget of a run, or also whether the run has ended. -/
inductive Matter where
  | budget (run : ℤ)
  | completion (run : ℤ)

def Matter.run : Matter → ℤ
  | .budget run => run
  | .completion run => run

/-- The baseline and the cancellation of a run are the same. -/
def SameMarks (run : ℤ) (a b : Database) : Prop :=
  b.baselines run = a.baselines run ∧ b.cancellations run = a.cancellations run

def SameStatus (run : ℤ) (a b : Database) : Prop :=
  (b.runs[run]?.map RunRow.status) = a.runs[run]?.map RunRow.status

def Matter.Same : Matter → Database → Database → Prop
  | .budget run, a, b => SameMarks run a b
  | .completion run, a, b => SameMarks run a b ∧ SameStatus run a b

/-- Events are only appended, and a run that is not running stays as it is. -/
structure Later (a b : Database) : Prop where
  events : a.events <+: b.events
  runs : ∀ run : ℤ, (a.runs[run]?.map RunRow.status) ≠ some .running → b.runs[run]? = a.runs[run]?

/-- A commit that is tidy, and completes no run that was cancelled before. -/
structure LegalCommit (a b : Database) : Prop where
  tidy : b.Tidy
  later : Later a b
  completed : ∀ run, a.cancellations run ≠ [] → b.Completed run → a.Completed run

theorem Later.refl (a : Database) : Later a a := ⟨List.prefix_rfl, fun _ _ => rfl⟩

theorem Later.trans {a b c : Database} (h : Later a b) (h' : Later b c) : Later a c := by
  refine ⟨h.events.trans h'.events, fun run hrun => ?_⟩
  have heq := h.runs run hrun
  rw [h'.runs run (by rw [heq]; exact hrun), heq]

/-- Lists that only grow and are the same in the end were the same all the time. -/
theorem filter_eq_of_between {α : Type} {p : α → Bool} {a b c : List α} (hab : a <+: b)
    (hbc : b <+: c) (h : c.filter p = a.filter p) : b.filter p = a.filter p := by
  have hab' := hab.filter p
  have hbc' := (hbc.filter p).length_le
  rw [h] at hbc'
  exact (hab'.eq_of_length_le hbc').symm

theorem SameMarks.between {run : ℤ} {a b c : Database} (hab : Later a b) (hbc : Later b c)
    (h : SameMarks run a c) : SameMarks run a b := by
  have hfilter : ∀ p : Event → Bool,
      ((c.eventsOf run .budget).filter p = (a.eventsOf run .budget).filter p) →
        (b.eventsOf run .budget).filter p = (a.eventsOf run .budget).filter p :=
    fun p => filter_eq_of_between (hab.events.filter _) (hbc.events.filter _)
  exact ⟨hfilter _ h.1, hfilter _ h.2⟩

theorem SameStatus.between {run : ℤ} {a b c : Database} (hab : Later a b) (hbc : Later b c)
    (h : SameStatus run a c) : SameStatus run a b := by
  by_cases ha : (a.runs[run]?.map RunRow.status) = some .running
  · by_contra hne
    have hb : (b.runs[run]?.map RunRow.status) ≠ some .running := fun hb =>
      hne (hb.trans ha.symm)
    have hcb := hbc.runs run hb
    unfold SameStatus at h hne
    rw [hcb] at h
    exact hne h
  · exact congrArg (Option.map RunRow.status) (hab.runs run ha)

/-- The discipline of the cancellation. -/
def cancelDiscipline : Discipline Matter Database where
  Inv := Database.Tidy
  Legal := LegalCommit
  le := Later
  Same := Matter.Same
  le_refl := Later.refl
  le_trans := Later.trans
  inv_of_legal _ h := h.tidy
  le_of_legal h := h.later
  same_of_le {i a b c} hab hbc h := by
    cases i with
    | budget run => exact h.between hab hbc
    | completion run => exact ⟨h.1.between hab hbc, h.2.between hab hbc⟩

/-! ## Legal commits -/

theorem Tidy.eq_nil {events : List Event} (h : Framework.Tidy events)
    (hb : events.filter (fun e => e.message == budgetInitialized) = []) : events = [] := by
  cases events with
  | nil => rfl
  | cons e events =>
    have hfirst := h.first e rfl
    simp [hfirst] at hb

/-- One more event of a tidy run. -/
theorem Tidy.concat {events : List Event} {e : Event} (h : Tidy events)
    (hfirst : events = [] → e.message = budgetInitialized)
    (hb : e.message = budgetInitialized → events = [])
    (hc : e.message = cancellationRequested →
      events.filter (fun e => e.message == cancellationRequested) = [] ∧
        Json.get e.details (lit "kind") = .str (lit "cancelled"))
    (ho : e.message = budgetConsumed →
      events.filter (fun e => e.message == cancellationRequested) = []) :
    Tidy (events ++ [e]) := by
  refine ⟨?_, ?_, ?_, ?_, ?_⟩
  · intro a ha
    cases events with
    | nil =>
      obtain rfl : e = a := Option.some_inj.mp ha
      exact hfirst rfl
    | cons first events => exact h.first a ha
  · rw [List.filter_append, List.length_append]
    by_cases hmessage : e.message = budgetInitialized
    · simp [hb hmessage, hmessage]
    · simpa [hmessage] using h.baselines
  · rw [List.filter_append, List.length_append]
    by_cases hmessage : e.message = cancellationRequested
    · simp [(hc hmessage).1, hmessage]
    · simpa [hmessage] using h.cancellations
  · intro a ha hmessage
    rcases List.mem_append.mp ha with ha | ha
    · exact h.kinds a ha hmessage
    · obtain rfl := List.mem_singleton.mp ha
      exact (hc hmessage).2
  · refine List.pairwise_append.mpr ⟨h.order, List.pairwise_singleton _ _, ?_⟩
    rintro a ha b hb' ⟨hcancel, hconsumed⟩
    obtain rfl := List.mem_singleton.mp hb'
    have hmem : a ∈ events.filter fun e => e.message == cancellationRequested :=
      List.mem_filter.mpr ⟨ha, by simpa using hcancel⟩
    rw [ho hconsumed] at hmem
    exact nomatch hmem

theorem LegalCommit.refl {a : Database} (h : a.Tidy) : LegalCommit a a :=
  ⟨h, Later.refl a, fun _ _ h => h⟩

theorem LegalCommit.trans {a b c : Database} (h : LegalCommit a b) (h' : LegalCommit b c) :
    LegalCommit a c := by
  refine ⟨h'.tidy, h.later.trans h'.later, fun run hcancel hcompleted => ?_⟩
  refine h.completed run hcancel (h'.completed run (fun hnil => hcancel ?_) hcompleted)
  have hgrow : a.cancellations run <+: b.cancellations run :=
    (h.later.events.filter _).filter _
  rw [hnil] at hgrow
  exact List.prefix_nil.mp hgrow

variable {db : Database} {run : ℤ}

/-- An appended event is legal, if the events of its run stay tidy. -/
theorem legalCommit_append (h : db.Tidy) {phase : Phase} {message : Text} {details : Members}
    (htidy : phase = .budget →
      Tidy (db.eventsOf run .budget ++ [db.newEvent run phase message details])) :
    LegalCommit db (db.append run phase message details) := by
  refine ⟨fun r => ?_, ⟨List.prefix_append _ _, fun _ _ => rfl⟩, fun _ _ hcompleted => hcompleted⟩
  rw [Database.eventsOf_append]
  split_ifs with hrun
  · obtain ⟨rfl, rfl⟩ := hrun
    exact htidy rfl
  · rw [List.append_nil]
    exact h r

section Holding

variable {i : Matter} {start : Database} {m : Mode Database}

theorem Matter.Same.marks {a b : Database} (h : i.Same a b) : SameMarks i.run a b := by
  cases i with
  | budget run => exact h
  | completion run => exact h.1

/-- Two statements of a call see the same marks. -/
theorem marks_of_sees {v v' : Database} (hv : cancelDiscipline.Sees i start m v)
    (hv' : cancelDiscipline.Sees i start m v') : SameMarks i.run v v' := by
  cases m with
  | outside =>
    have hmarks := Matter.Same.marks hv.2
    have hmarks' := Matter.Same.marks hv'.2
    exact ⟨hmarks'.1.trans hmarks.1.symm, hmarks'.2.trans hmarks.2.symm⟩
  | inside base db =>
    obtain rfl : v = db := hv
    obtain rfl : v' = v := hv'
    exact ⟨rfl, rfl⟩

theorem tidy_of_sees {v : Database} (hm : cancelDiscipline.Ends m)
    (hv : cancelDiscipline.Sees i start m v) : v.Tidy := by
  cases m with
  | outside => exact hv.1
  | inside base db =>
    obtain rfl : v = db := hv
    exact LegalCommit.tidy hm

/-- A write that is legal. -/
theorem ends_after {v v' : Database} (hm : cancelDiscipline.Ends m)
    (hv : cancelDiscipline.Sees i start m v) (h : LegalCommit v v') :
    cancelDiscipline.Ends (m.after v v') := by
  cases m with
  | outside => exact h
  | inside base db =>
    obtain rfl : v = db := hv
    exact LegalCommit.trans hm h

theorem sees_after {v v' x : Database} :
    cancelDiscipline.Sees i start (m.after v v') x ↔ x = v' := by
  cases m <;> exact Iff.rfl

/-- Whatever a call sees, its run has no cancellation. -/
def Uncancelled (i : Matter) (start : Database) (m : Mode Database) : Prop :=
  ∀ v, cancelDiscipline.Sees i start m v → v.cancellations i.run = []

/-- Whatever a call sees, its run has a baseline. -/
def Opened (i : Matter) (start : Database) (m : Mode Database) : Prop :=
  ∀ v, cancelDiscipline.Sees i start m v → v.baselines i.run ≠ []

theorem uncancelled_of_sees {v : Database} (hv : cancelDiscipline.Sees i start m v)
    (h : v.cancellations i.run = []) : Uncancelled i start m := fun _ hv' =>
  (marks_of_sees hv hv').2.trans h

theorem opened_of_sees {v : Database} (hv : cancelDiscipline.Sees i start m v)
    (h : v.baselines i.run ≠ []) : Opened i start m := fun _ hv' heq =>
  h ((marks_of_sees hv hv').1.symm.trans heq)

/-! ## What the statements see -/

theorem holds_insertEvent {phase : Phase} {message : Text} {details : Members}
    {Q : Mode Database → Unit → Prop}
    (h : ∀ v, cancelDiscipline.Sees i start m v → Q (m.after v (v.append run phase message details)) ()) :
    cancelDiscipline.Holds i start (insertEvent run phase message details) m Q := by
  unfold insertEvent
  rw [Discipline.holds_bind, Discipline.holds_ofExcept]
  exact fun _ _ v hv => h v hv

/-- An event that is replayed keeps a cancellation, and one of its own is seen. -/
theorem replayEvent_cancelRequested {state state' : Replay} {row : ℕ × Members}
    (h : replayEvent run state row = .ok state') :
    (state.cancelRequested = true ∨ Json.get row.2 (lit "kind") = .str (lit "cancelled")) →
      state'.cancelRequested = true := by
  intro hcancel
  unfold replayEvent at h
  split at h
  next kind hkind =>
    split_ifs at h with hconsumed hcancelled hbound
    · have hold : state.cancelRequested = true := by
        rcases hcancel with hold | hrow
        · exact hold
        · rw [hrow] at hkind
          obtain rfl := Option.some_inj.mp hkind
          exact absurd hconsumed (by decide)
      simp only [replayConsumed, bind_eq_ok, raiseIf_eq_ok] at h
      obtain ⟨-, -, h⟩ := h
      split_ifs at h
      · rw [pure_eq_ok] at h
        rw [← h]
        exact hold
      · simp only [bind_eq_ok, pure_eq_ok] at h
        obtain ⟨_, -, _, -, _, -, rfl⟩ := h
        exact hold
    · unfold replayCancelled at h
      split at h
      · split_ifs at h
        rw [← Except.ok.inj h]
      · cases h
    · have hold : state.cancelRequested = true := by
        rcases hcancel with hold | hrow
        · exact hold
        · rw [hrow] at hkind
          exact absurd (Option.some_inj.mp hkind).symm hcancelled
      unfold replayBound at h
      split at h
      · split_ifs at h
        rw [← Except.ok.inj h]
        exact hold
      · cases h
    · rcases hcancel with hold | hrow
      · rw [← Except.ok.inj h]
        exact hold
      · rw [hrow] at hkind
        exact absurd (Option.some_inj.mp hkind).symm hcancelled
  next hkind =>
    rcases hcancel with hold | hrow
    · rw [← Except.ok.inj h]
      exact hold
    · rw [hrow] at hkind
      cases hkind

theorem foldlM_cancelRequested {rows : List (ℕ × Members)} {state state' : Replay}
    (h : rows.foldlM (replayEvent run) state = .ok state')
    (hcancel : state.cancelRequested = true ∨
      ∃ row ∈ rows, Json.get row.2 (lit "kind") = .str (lit "cancelled")) :
    state'.cancelRequested = true := by
  induction rows generalizing state with
  | nil =>
    rw [List.foldlM_nil, pure_eq_ok] at h
    subst h
    simpa using hcancel
  | cons row rows ih =>
    rw [List.foldlM_cons, bind_eq_ok] at h
    obtain ⟨next, hnext, h⟩ := h
    refine ih h ?_
    rcases hcancel with hold | ⟨row', hrow', hkind⟩
    · exact .inl (replayEvent_cancelRequested hnext (.inl hold))
    · rcases List.mem_cons.mp hrow' with rfl | hrow'
      · exact .inl (replayEvent_cancelRequested hnext (.inr hkind))
      · exact .inr ⟨row', hrow', hkind⟩

/-- The rows of a replay are the events. -/
theorem budgetRows_eq {rows : List (ℕ × Members)} (h : db.budgetRows run = .ok rows) :
    rows = (db.eventsOf run .budget).map fun e => (e.eventId, e.details) := by
  unfold Database.budgetRows at h
  generalize db.eventsOf run .budget = events at h
  induction events generalizing rows with
  | nil =>
    rw [List.mapM_nil, pure_eq_ok] at h
    exact h.symm
  | cons e events ih =>
    simp only [List.mapM_cons, bind_eq_ok, pure_eq_ok] at h
    obtain ⟨row, hrow, rest, hrest, rfl⟩ := h
    rw [ih hrest, budgetRow_eq_row hrow]
    rfl

/-- What a replay of tidy events says of them. -/
theorem replayRows_tidy {F : Floats} {state? : Option Replay}
    (h : db.replayRows F run = .ok state?) (htidy : Tidy (db.eventsOf run .budget)) :
    (state? = none → db.eventsOf run .budget = []) ∧
      ∀ state, state? = some state → db.baselines run ≠ [] ∧
        (state.cancelRequested = false → db.cancellations run = []) := by
  rw [Database.replayRows, bind_eq_ok] at h
  obtain ⟨rows, hrows, h⟩ := h
  have hrows := budgetRows_eq hrows
  cases hevents : db.eventsOf run .budget with
  | nil =>
    rw [hevents] at hrows
    subst hrows
    obtain rfl := pure_eq_ok.mp h
    refine ⟨fun _ => rfl, fun _ h => ?_⟩
    cases h
  | cons first rest =>
    rw [hevents] at hrows htidy
    subst hrows
    simp only [List.map_cons, bind_eq_ok, pure_eq_ok] at h
    obtain ⟨state, -, state', hfold, rfl⟩ := h
    have hfirst : first.message = budgetInitialized := htidy.first first rfl
    refine ⟨fun h => ?_, fun s hs => ⟨?_, fun hcancel => ?_⟩⟩
    · cases h
    · rw [Database.baselines, hevents]
      simp [hfirst]
    · obtain rfl := Option.some_inj.mp hs
      rw [Database.cancellations, hevents, List.filter_eq_nil_iff]
      intro e he hmessage
      have hmessage : e.message = cancellationRequested := by simpa using hmessage
      rcases List.mem_cons.mp he with rfl | hrest
      · rw [hmessage] at hfirst
        exact absurd hfirst (by decide)
      · have hseen := foldlM_cancelRequested hfold (.inr ⟨(e.eventId, e.details),
          List.mem_map.mpr ⟨e, hrest, rfl⟩, htidy.kinds e he hmessage⟩)
        rw [hcancel] at hseen
        cases hseen

theorem observe_toReplay {state : Replay} {completedNs : Option ℤ} {now : ℤ} {s : Snapshot}
    (h : state.observe completedNs now = .ok s) : s.toReplay = state := by
  rw [Replay.observe, bind_eq_ok] at h
  obtain ⟨_, -, h⟩ := h
  -- a deadline only decides whether the budget has expired
  cases hdeadline : state.deadlineNs <;>
    simp only [hdeadline, bind_eq_ok, pure_eq_ok] at h <;> grind

/-- What a call knows after it has read the budget. -/
theorem holds_readRunBudget {F : Floats} {now : ℤ} {Q : Mode Database → Option Snapshot → Prop}
    (hm : cancelDiscipline.Ends m)
    (hnone : Uncancelled i start m → Q m none)
    (hsome : ∀ s : Snapshot, Opened i start m →
      (s.cancelRequested = false → Uncancelled i start m) → Q m (some s)) :
    cancelDiscipline.Holds i start (readRunBudget F i.run now) m Q := by
  unfold readRunBudget
  rw [Discipline.holds_bind, Discipline.holds_query]
  intro v hv state? hstate
  obtain ⟨hempty, hfacts⟩ := replayRows_tidy hstate (tidy_of_sees hm hv i.run)
  cases state? with
  | none =>
    refine hnone (uncancelled_of_sees hv ?_)
    rw [Database.cancellations, hempty rfl]
    rfl
  | some state =>
    obtain ⟨hopened, hcancelled⟩ := hfacts state rfl
    rw [Discipline.holds_bind, Discipline.holds_query]
    intro v' _ completedNs _
    rw [Discipline.holds_ofExcept]
    intro s hs
    obtain ⟨snapshot, hsnapshot, rfl⟩ := map_eq_ok.mp hs
    refine hsome snapshot (opened_of_sees hv hopened) fun hcancel => ?_
    refine uncancelled_of_sees hv (hcancelled ?_)
    rw [← observe_toReplay hsnapshot]
    exact hcancel

/-- An event of the budget that is appended where it may be. -/
theorem ends_append {v : Database} (hm : cancelDiscipline.Ends m)
    (hv : cancelDiscipline.Sees i start m v) {message : Text} {details : Members}
    (hfirst : v.baselines i.run = [] → message = budgetInitialized)
    (hb : message = budgetInitialized → v.baselines i.run = [])
    (hc : message = cancellationRequested → v.cancellations i.run = [] ∧
      Json.get details (lit "kind") = .str (lit "cancelled"))
    (ho : message = budgetConsumed → v.cancellations i.run = []) :
    cancelDiscipline.Ends (m.after v (v.append i.run .budget message details)) := by
  have htidy := tidy_of_sees hm hv
  refine ends_after hm hv (legalCommit_append htidy fun _ => ?_)
  refine (htidy i.run).concat (fun hnil => hfirst ?_) (fun h => (htidy i.run).eq_nil (hb h)) hc ho
  rw [Database.baselines, hnil]
  rfl

/-- Appending once to the budget of a run that has a baseline. -/
theorem holds_bind_budget {key : Text} {details : Members} {Q : Mode Database → Bool → Prop}
    (hm : cancelDiscipline.Ends m) (hopened : Opened i start m)
    (hQ : ∀ m b, cancelDiscipline.Ends m → Q m b) :
    cancelDiscipline.Holds i start
      (appendLifecycleEventOnce i.run .budget budgetBound key details) m Q := by
  unfold appendLifecycleEventOnce
  dsimp only
  rw [Discipline.holds_bind, Discipline.holds_ofExcept]
  intro _ _
  rw [Discipline.holds_bind, Discipline.holds_query]
  intro v hv e? _
  cases e? with
  | some e =>
    rw [Discipline.holds_bind, Discipline.holds_ofExcept]
    exact fun _ _ => hQ m false hm
  | none =>
    rw [Discipline.holds_bind]
    refine holds_insertEvent fun v' hv' => hQ _ true (ends_append hm hv' ?_ ?_ ?_ ?_)
    · exact fun h => absurd h (hopened v' hv')
    · exact fun h => absurd h (by decide)
    · exact fun h => absurd h (by decide)
    · exact fun h => absurd h (by decide)

theorem holds_ensureRunBudgetEvent {F : Floats} {budget : Option Members} {digest : Option Text}
    {now : ℤ} {Q : Mode Database → Bool → Prop} (hm : cancelDiscipline.Ends m)
    (hQ : ∀ m b, cancelDiscipline.Ends m → Q m b) :
    cancelDiscipline.Holds i start (ensureRunBudgetEvent F i.run budget digest now) m Q := by
  unfold ensureRunBudgetEvent
  rw [Discipline.holds_bind, Discipline.holds_ofExcept]
  intro normalized _
  rw [Discipline.holds_bind, Discipline.holds_query]
  intro v hv rows hrows
  obtain rfl := Except.ok.inj hrows
  rw [Discipline.holds_bind, Discipline.holds_ofExcept]
  intro _ _
  cases hlast : (v.baselines i.run).getLast? with
  | some existing =>
    have hopened : Opened i start m := by
      refine opened_of_sees hv fun hnil => ?_
      rw [hnil] at hlast
      cases hlast
    dsimp only
    rw [Discipline.holds_bind, Discipline.holds_ofExcept]
    intro _ _
    cases digest with
    | none => exact hQ m false hm
    | some digest =>
      dsimp only
      split
      · rw [Discipline.holds_bind]
        exact holds_bind_budget hm hopened fun m _ hm => hQ m false hm
      · rw [Discipline.holds_bind, Discipline.holds_ofExcept]
        exact fun _ _ => hQ m false hm
      · trivial
  | none =>
    have hempty : v.baselines i.run = [] := List.getLast?_eq_none_iff.mp hlast
    dsimp only
    rw [Discipline.holds_bind, Discipline.holds_ofExcept]
    intro deadlineNs _
    rw [Discipline.holds_bind]
    refine holds_insertEvent fun v' hv' => hQ _ true (ends_append hm hv' ?_ ?_ ?_ ?_)
    · exact fun _ => rfl
    · exact fun _ => (marks_of_sees hv hv').1.trans hempty
    · exact fun h => absurd h (by decide)
    · exact fun h => absurd h (by decide)

theorem holds_openRunBudget {F : Floats} {clock : ℕ → ℤ} {Q : Mode Database → Snapshot → Prop}
    (hm : cancelDiscipline.Ends m)
    (hQ : ∀ m s, cancelDiscipline.Ends m → Opened i start m →
      (s.cancelRequested = false → Uncancelled i start m) → Q m s) :
    cancelDiscipline.Holds i start (openRunBudget F i.run clock) m Q := by
  unfold openRunBudget
  rw [Discipline.holds_bind]
  refine holds_readRunBudget hm (fun _ => ?_) fun s hopened hs => hQ m s hm hopened hs
  rw [Discipline.holds_bind]
  refine holds_ensureRunBudgetEvent hm fun m' _ hm' => ?_
  rw [Discipline.holds_bind]
  refine holds_readRunBudget hm' (fun _ => trivial) fun s hopened hs => hQ m' s hm' hopened hs

end Holding

/-! ## The calls end well -/

section Sound

variable {F : Floats} {clock : ℕ → ℤ}

theorem reserveRunBudget_sound (c : ReserveCall) :
    cancelDiscipline.Sound (.budget c.run) (reserveRunBudget F c clock) := by
  intro start
  unfold reserveRunBudget
  rw [Discipline.holds_bind, Discipline.holds_ofExcept]
  intro r hr
  obtain ⟨-, hrun, -⟩ := ReserveCall.request_valid hr
  rw [← hrun]
  unfold reserve
  rw [Discipline.holds_bind, Discipline.holds_query]
  intro v hv row? _
  cases row? with
  | none => trivial
  | some row =>
    dsimp only
    rw [Discipline.holds_bind]
    refine holds_openRunBudget (i := .budget r.run) trivial fun m s hm hopened hs => ?_
    cases s.reservations.lookup r.reservationId with
    | some existing =>
      dsimp only
      rw [Discipline.holds_bind, Discipline.holds_ofExcept]
      exact fun _ _ => hm
    | none =>
      dsimp only
      rw [Discipline.holds_bind, Discipline.holds_ofExcept]
      intro _ _
      cases hrefusal : refusal s r with
      | some reason => trivial
      | none =>
        have huncancelled := hs (refusal_eq_none hrefusal).1
        dsimp only
        rw [Discipline.holds_bind]
        refine holds_insertEvent fun v' hv' => ?_
        have hm' : cancelDiscipline.Ends (m.after v'
            (v'.append r.run .budget budgetConsumed (consumedDetails s r))) :=
          ends_append hm hv' (fun h => absurd h (hopened v' hv')) (fun h => absurd h (by decide))
            (fun h => absurd h (by decide)) fun _ => huncancelled v' hv'
        rw [Discipline.holds_bind]
        exact holds_readRunBudget hm' (fun _ => trivial) fun _ _ _ => hm'

theorem requestRunCancellation_sound (run : ℤ) (reason : Text) :
    cancelDiscipline.Sound (.budget run) (requestRunCancellation F run reason clock) := by
  intro start
  unfold requestRunCancellation
  rw [Discipline.holds_bind, Discipline.holds_ofExcept]
  intro _ _
  rw [Discipline.holds_bind, Discipline.holds_query]
  intro v hv _ _
  rw [Discipline.holds_bind]
  refine holds_openRunBudget (i := .budget run) trivial fun m s hm hopened hs => ?_
  by_cases hcancel : s.cancelRequested = true
  · rw [if_pos hcancel]
    exact hm
  · rw [if_neg hcancel, Discipline.holds_bind]
    have huncancelled := hs (by simpa using hcancel)
    refine holds_insertEvent fun v' hv' => ends_append hm hv' ?_ ?_ ?_ ?_
    · exact fun h => absurd h (hopened v' hv')
    · exact fun h => absurd h (by decide)
    · exact fun _ => ⟨huncancelled v' hv', rfl⟩
    · exact fun h => absurd h (by decide)

theorem publishRunBudget_sound (run now : ℤ) (budget : Option Members) (digest : Option Text) :
    cancelDiscipline.Sound (.budget run) (publishRunBudget F run budget digest now) := by
  intro start
  exact holds_ensureRunBudgetEvent (i := .budget run) trivial fun _ _ hm => hm

theorem requestRunCancellationExternal_sound (run now : ℤ) (reason : Text) :
    cancelDiscipline.Sound (.budget run) (requestRunCancellationExternal run reason now) := by
  intro start
  unfold requestRunCancellationExternal
  rw [Discipline.holds_bind, Discipline.holds_ofExcept]
  intro _ _
  rw [Discipline.holds_bind, Discipline.holds_query]
  intro _ _ _ _
  rw [Discipline.holds_bind, Discipline.holds_query]
  intro v hv row hrow
  obtain rfl := Except.ok.inj hrow
  dsimp only
  rw [Discipline.holds_bind, Discipline.holds_query]
  intro v' hv' existing hexisting
  obtain rfl := Except.ok.inj hexisting
  -- the cancellation, in a transaction or as its first statement
  have hcancel : ∀ m, cancelDiscipline.Ends m → Opened (.budget run) start m →
      Uncancelled (.budget run) start m → ∀ details,
      Json.get details (lit "kind") = .str (lit "cancelled") →
      cancelDiscipline.Holds (.budget run) start
        (do insertEvent run .budget cancellationRequested details; pure true) m
        fun m _ => cancelDiscipline.Ends m := by
    intro m hm hopened huncancelled details hkind
    rw [Discipline.holds_bind]
    refine holds_insertEvent fun x hx => ends_append (i := .budget run) hm hx ?_ ?_ ?_ ?_
    · exact fun h => absurd h (hopened x hx)
    · exact fun h => absurd h (by decide)
    · exact fun _ => ⟨huncancelled x hx, hkind⟩
    · exact fun h => absurd h (by decide)
  by_cases hsome : (v'.cancellations run).getLast?.isSome = true
  · rw [if_pos hsome]
    trivial
  · rw [if_neg hsome]
    have hnone : v'.cancellations run = [] := by
      simpa using hsome
    have huncancelled : Uncancelled (.budget run) start .outside := uncancelled_of_sees hv' hnone
    cases hlast : (v.baselines run).getLast? with
    | some e =>
      refine hcancel .outside trivial (opened_of_sees hv fun hnil => ?_) huncancelled _ rfl
      rw [show v.baselines run = [] from hnil] at hlast
      cases hlast
    | none =>
      have hempty : v.baselines run = [] := List.getLast?_eq_none_iff.mp hlast
      show cancelDiscipline.Holds (.budget run) start (insertEvent run .budget budgetInitialized
        (baselineDetails ⟨none, none, none⟩ none now none) >>= _) .outside _
      rw [Discipline.holds_bind]
      refine holds_insertEvent fun x hx => ?_
      have hm : cancelDiscipline.Ends (Mode.outside.after x (x.append run .budget
          budgetInitialized (baselineDetails ⟨none, none, none⟩ none now none))) :=
        ends_append (i := .budget run) (m := .outside) trivial hx (fun _ => rfl)
          (fun _ => (marks_of_sees hv hx).1.trans hempty) (fun h => absurd h (by decide))
          (fun h => absurd h (by decide))
      refine hcancel _ hm (fun y hy => ?_) (fun y hy => ?_) _ rfl
      · obtain rfl := sees_after.mp hy
        show Database.baselines _ run ≠ []
        rw [Database.baselines, Database.eventsOf_append_self, List.filter_append]
        exact List.append_ne_nil_of_right_ne_nil _ (List.cons_ne_nil _ _)
      · obtain rfl := sees_after.mp hy
        show Database.cancellations _ run = []
        rw [Database.cancellations, Database.eventsOf_append_self, List.filter_append]
        exact List.append_eq_nil_iff.mpr ⟨huncancelled x hx, rfl⟩

/-- Whatever a call sees, its run has no cancellation as long as it is running. -/
def UncancelledWhileRunning (run : ℤ) (start : Database) (m : Mode Database) : Prop :=
  ∀ v, cancelDiscipline.Sees (.completion run) start m v →
    (v.runs[run]?.map RunRow.status) = some .running → v.cancellations run = []

/-- A call of the completion sees one status until it writes. -/
theorem status_of_sees {run : ℤ} {start v v' : Database} {m : Mode Database}
    (hv : cancelDiscipline.Sees (.completion run) start m v)
    (hv' : cancelDiscipline.Sees (.completion run) start m v') : SameStatus run v v' := by
  cases m with
  | outside => exact hv'.2.2.trans hv.2.2.symm
  | inside base db =>
    obtain rfl : v = db := hv
    obtain rfl : v' = v := hv'
    rfl

/-- The check of the budget lets no run pass that is running and cancelled. -/
theorem holds_checkRunCompletionBudget {run now : ℤ} {start : Database}
    {Q : Mode Database → Unit → Prop}
    (hQ : UncancelledWhileRunning run start .outside → Q .outside ()) :
    cancelDiscipline.Holds (.completion run) start (checkRunCompletionBudget F run now)
      .outside Q := by
  unfold checkRunCompletionBudget
  rw [Discipline.holds_bind, Discipline.holds_query]
  intro v hv row? hrow
  obtain rfl := Except.ok.inj hrow
  rw [Discipline.holds_bind]
  refine holds_readRunBudget (i := .completion run) trivial (fun huncancelled => ?_)
    fun s _ hs => ?_
  · have hpass : Q .outside () := hQ fun x hx _ => huncancelled x hx
    cases v.runs[run]? with
    | none => exact hpass
    | some row => exact hpass
  · cases hrow : v.runs[run]? with
    | none =>
      refine hQ fun x hx hrunning => ?_
      have hstatus := status_of_sees hv hx
      rw [SameStatus, hrunning, hrow] at hstatus
      cases hstatus
    | some row =>
      dsimp only
      rw [Discipline.holds_bind, Discipline.holds_ofExcept]
      intro _ hpass
      rw [Discipline.holds_ofExcept]
      intro _ _
      refine hQ fun x hx hrunning => ?_
      have hstatus := status_of_sees hv hx
      rw [SameStatus, hrunning, hrow] at hstatus
      refine hs ?_ x hx
      have hnot := raiseIf_eq_ok.mp hpass
      simpa [(Option.some_inj.mp hstatus).symm] using hnot

/-- A run that is completed is not one that was cancelled. -/
theorem legalCommit_finishRun {v : Database} {run now : ℤ} {matching : RunRow → Bool}
    (htidy : v.Tidy)
    (huncancelled : (v.runs[run]?.map RunRow.status) = some .running → v.cancellations run = []) :
    LegalCommit v ((v.finishRun run .completed now matching).getD v) := by
  cases hfinish : v.finishRun run .completed now matching with
  | none => exact LegalCommit.refl htidy
  | some db =>
    obtain ⟨row, hrow, hrunning, hruns, hevents⟩ := Database.finishRun_eq_some hfinish
    have hstatus : (v.runs[run]?.map RunRow.status) = some .running := by
      rw [hrow, Option.map_some, hrunning]
    have hof : ∀ r p, db.eventsOf r p = v.eventsOf r p := fun r p => by
      rw [Database.eventsOf, Database.eventsOf, hevents]
    have hother : ∀ r : ℤ, r ≠ run → db.runs[r]? = v.runs[r]? := fun r hr => by
      rw [hruns, Table.getElem?_insert_eq, if_neg (Ne.symm hr)]
    refine ⟨fun r => ?_, ⟨hevents ▸ List.prefix_rfl, fun r hr => ?_⟩, fun r hcancel hcompleted => ?_⟩
    · show Framework.Tidy (db.eventsOf r .budget)
      rw [hof]
      exact htidy r
    · exact hother r fun h => hr (h ▸ hstatus)
    · have hr : r ≠ run := fun h => hcancel (h ▸ huncancelled hstatus)
      show (v.runs[r]?.map RunRow.status) = some .completed
      rw [← hother r hr]
      exact hcompleted

theorem completeRun_sound (run : ℤ) (matching : RunRow → Bool) (organization : Checked Unit)
    (message : String) :
    cancelDiscipline.Sound (.completion run)
      (completeRun F run matching organization message clock) := by
  intro start
  unfold completeRun
  rw [Discipline.holds_bind]
  refine holds_checkRunCompletionBudget fun huncancelled => ?_
  rw [Discipline.holds_bind, Discipline.holds_query]
  intro _ _ _ _
  rw [Discipline.holds_bind]
  intro v hv
  have hm : cancelDiscipline.Ends (Mode.outside.after v
      ((v.finishRun run .completed (clock 1) matching).getD v)) :=
    ends_after (m := .outside) trivial hv (legalCommit_finishRun hv.1 (huncancelled v hv))
  by_cases hfinished : (v.finishRun run .completed (clock 1) matching).isSome = true
  · show cancelDiscipline.Holds _ _ (if (v.finishRun run .completed (clock 1) matching).isSome = true
      then _ else _) _ _
    rw [if_pos hfinished, Discipline.holds_bind]
    unfold appendLifecycleEventOnce
    dsimp only
    rw [Discipline.holds_bind, Discipline.holds_ofExcept]
    intro _ _
    rw [Discipline.holds_bind, Discipline.holds_query]
    intro x hx e? _
    cases e? with
    | some e =>
      rw [Discipline.holds_bind, Discipline.holds_ofExcept]
      exact fun _ _ => hm
    | none =>
      rw [Discipline.holds_bind]
      refine holds_insertEvent fun y hy => ends_after hm hy ?_
      exact legalCommit_append (tidy_of_sees hm hy) fun h => nomatch h
  · show cancelDiscipline.Holds _ _ (if (v.finishRun run .completed (clock 1) matching).isSome = true
      then _ else _) _ _
    rw [if_neg hfinished, Discipline.holds_bind, Discipline.holds_query]
    exact fun _ _ _ _ => hm

end Sound

/-! ## Races -/

/-- The calls that race: those of the owner, and the cancellation from another connection. -/
inductive RacingCall where
  | reserve (c : ReserveCall) (clock : ℕ → ℤ)
  | cancel (run : ℤ) (reason : Text) (clock : ℕ → ℤ)
  | publish (run : ℤ) (budget : Option Members) (manifestDigest : Option Text) (now : ℤ)
  | complete (run : ℤ) (matching : RunRow → Bool) (organization : Checked Unit) (message : String)
      (clock : ℕ → ℤ)
  | cancelExternal (run : ℤ) (reason : Text) (now : ℤ)

/-- What the call depends on. -/
def RacingCall.matter : RacingCall → Matter
  | .reserve c _ => .budget c.run
  | .cancel run _ _ => .budget run
  | .publish run _ _ _ => .budget run
  | .complete run _ _ _ _ => .completion run
  | .cancelExternal run _ _ => .budget run

/-- The statements of the call. -/
def RacingCall.statements (F : Floats) : RacingCall → Statements Unit
  | .reserve c clock => do
    let _ ← reserveRunBudget F c clock
  | .cancel run reason clock => do
    let _ ← requestRunCancellation F run reason clock
  | .publish run budget manifestDigest now => do
    let _ ← publishRunBudget F run budget manifestDigest now
  | .complete run matching organization message clock => do
    let _ ← completeRun F run matching organization message clock
  | .cancelExternal run reason now => do
    let _ ← requestRunCancellationExternal run reason now

def Racing (F : Floats) (i : Matter) (p : Statements Unit) : Prop :=
  ∃ c : RacingCall, i = c.matter ∧ p = c.statements F

/-- Connections to the database of the framework. -/
abbrev Connected (κ : Type) := World κ Matter Database RunError Unit

theorem Racing.sound {F : Floats} {i : Matter} {p : Statements Unit} (h : Racing F i p) :
    cancelDiscipline.Sound i p := by
  obtain ⟨c, rfl, rfl⟩ := h
  cases c with
  | reserve c clock => exact Discipline.sound_discard (reserveRunBudget_sound c)
  | cancel run reason clock => exact Discipline.sound_discard (requestRunCancellation_sound run reason)
  | publish run budget digest now =>
    exact Discipline.sound_discard (publishRunBudget_sound run now budget digest)
  | complete run matching organization message clock =>
    exact Discipline.sound_discard (completeRun_sound run matching organization message)
  | cancelExternal run reason now =>
    exact Discipline.sound_discard (requestRunCancellationExternal_sound run now reason)

/-- The events of a cancellation that is final: one baseline, one cancellation, and nothing
consumed after it. -/
structure FinalEvents (db : Database) (run : ℤ) : Prop where
  baselines : (db.baselines run).length ≤ 1
  cancellations : (db.cancellations run).length ≤ 1
  consumed : ∀ c ∈ db.cancellations run, ∀ e ∈ db.consumptions run, e.eventId < c.eventId

/-- A run that was cancelled and not completed is not completed by the step. -/
def KeepsUncompleted {κ : Type} (run : ℤ) (w w' : Connected κ) : Prop :=
  w.committed.cancellations run ≠ [] → w'.committed.Completed run → w.committed.Completed run

/-- Events in two places of a list that is ordered. -/
theorem eventId_lt_of_tidy {db : Database} {run : ℤ} (h : Tidy (db.eventsOf run .budget))
    {c e : Event} (hc : c ∈ db.cancellations run) (he : e ∈ db.consumptions run) :
    e.eventId < c.eventId := by
  obtain ⟨hc, hcancel⟩ := List.mem_filter.mp hc
  obtain ⟨he, hconsumed⟩ := List.mem_filter.mp he
  have hcancel : c.message = cancellationRequested := by simpa using hcancel
  have hconsumed : e.message = budgetConsumed := by simpa using hconsumed
  obtain ⟨m, hm, rfl⟩ := List.mem_iff_getElem.mp hc
  obtain ⟨n, hn, rfl⟩ := List.mem_iff_getElem.mp he
  rcases lt_trichotomy n m with hlt | rfl | hlt
  · exact List.pairwise_iff_getElem.mp (db.ordered.filter _) n m hn hm hlt
  · rw [hcancel] at hconsumed
    exact absurd hconsumed (by decide)
  · exact absurd ⟨hcancel, hconsumed⟩ (List.pairwise_iff_getElem.mp h.order m n hm hn hlt)

/-- **The cancellation is final in every undisturbed run.**  Where the first write of each call
finds the baseline and the cancellation of its run as they were when the call began, and the
status too if it completes the run, no race breaks it. -/
theorem cancellation_final {F : Floats} {κ : Type} [DecidableEq κ] {db : Database}
    (hdb : db.Tidy) {w : Connected κ}
    (hrun : Relation.ReflTransGen (Step cancelDiscipline (Racing F)) (idle db) w) (run : ℤ) :
    FinalEvents w.committed run ∧
      ∀ w', Step cancelDiscipline (Racing F) w w' → KeepsUncompleted run w w' := by
  have hsound := reachable_sound (fun _ _ => Racing.sound) hdb hrun
  have htidy : Tidy (w.committed.eventsOf run .budget) := hsound.inv run
  refine ⟨⟨htidy.baselines, htidy.cancellations, ?_⟩, ?_⟩
  · exact fun c hc e he => eventId_lt_of_tidy htidy hc he
  · intro w' hstep hcancel hcompleted
    rcases (hstep.sound (fun _ _ => Racing.sound) hsound).2 with heq | hlegal
    · rwa [heq] at hcompleted
    · exact LegalCommit.completed hlegal run hcancel hcompleted

/-- As many baselines and cancellations are committed as when a budget call began. -/
def CountsKept (r : Running Matter Database RunError Unit) (db : Database) : Prop :=
  match r.label with
  | .budget run => (r.start.baselines run).length = (db.baselines run).length ∧
      (r.start.cancellations run).length = (db.cancellations run).length
  | .completion _ => False

instance (r : Running Matter Database RunError Unit) (db : Database) :
    Decidable (CountsKept r db) := by
  unfold CountsKept
  split <;> infer_instance

/-- Events are only appended, so they are counted instead of compared. -/
theorem settled_of_counts {κ : Type} [DecidableEq κ] {w : Connected κ} (h : w.Sound cancelDiscipline)
    {c : κ} (hcounts : ∀ r ∈ w.calls c, CountsKept r w.committed) :
    w.Settled cancelDiscipline c := by
  intro r hr
  have hlater : Later r.start w.committed := h.started c r hr
  have hkept := hcounts r hr
  unfold CountsKept at hkept
  split at hkept
  next run hlabel =>
    have hgrown := hlater.events.filter fun e => e.runId == run && e.phase == .budget
    rw [hlabel]
    exact ⟨((hgrown.filter _).eq_of_length hkept.1).symm,
      ((hgrown.filter _).eq_of_length hkept.2).symm⟩
  next => exact hkept.elim

/-- The owner publishes a budget and begins to reserve, then another connection begins to cancel. -/
def contended : Connected ℕ :=
  (((fun w => w.advance 0)^[4] ((idle oneRun).call 0 (.budget 1)
    (RacingCall.statements noFloats (.publish 1 none none 0)))).call 0 (.budget 1)
    (RacingCall.statements noFloats
      (.reserve { run := 1, reservationId := lit "a", items := 1 } fun _ => 1))).call 1 (.budget 1)
    (RacingCall.statements noFloats (.cancelExternal 1 (lit "stop") 2))

/-- The reservation is committed, then the cancellation. -/
def cancelledOnce : Connected ℕ :=
  (fun w => w.advance 1)^[6] ((fun w => w.advance 0)^[8] contended)

theorem cancellation_final_cancelledOnce :
    oneRun.Tidy ∧ (cancelledOnce.committed.consumptions 1).length = 1 ∧
      (cancelledOnce.committed.cancellations 1).length = 1 ∧
      FinalEvents cancelledOnce.committed 1 := by
  have htidy : oneRun.Tidy := fun _ =>
    ⟨(fun _ h => nomatch h), Nat.zero_le _, Nat.zero_le _, (fun _ h => nomatch h), .nil⟩
  have hsettled {w : Connected ℕ} (c : ℕ)
      (h : Relation.ReflTransGen (Step cancelDiscipline (Racing noFloats)) (idle oneRun) w) :
      (∀ r ∈ w.calls c, CountsKept r w.committed) → w.Settled cancelDiscipline c :=
    settled_of_counts (reachable_sound (fun _ _ => Racing.sound) htidy h)
  have hcalled := Relation.ReflTransGen.refl (r := Step cancelDiscipline (Racing noFloats))
    (a := (idle oneRun : Connected ℕ)) |>.tail (.call 0 _ _ ⟨.publish 1 none none 0, rfl, rfl⟩)
  have hpublished := hcalled.trans ((hsettled 0 hcalled (by decide +kernel)).reachable 4)
  have hcontended := (hpublished.tail (.call 0 _ _ ⟨.reserve
    { run := 1, reservationId := lit "a", items := 1 } fun _ => 1, rfl, rfl⟩)).tail
      (.call 1 _ _ ⟨.cancelExternal 1 (lit "stop") 2, rfl, rfl⟩)
  have hreserved := hcontended.trans ((hsettled 0 hcontended (by decide +kernel)).reachable 8)
  have hreach := hreserved.trans ((hsettled 1 hreserved (by decide +kernel)).reachable 6)
  exact ⟨htidy, by decide +kernel, by decide +kernel, (cancellation_final htidy hreach 1).1⟩

/-! ## A reservation that a cancellation overtakes -/

/-- The owner publishes a budget, and reserves up to its `INSERT`. -/
def reserving : Connected ℕ :=
  (fun w => w.advance 0)^[3] (((fun w => w.advance 0)^[3] ((idle oneRun).call 0 (.budget 1)
    (RacingCall.statements noFloats (.publish 1 none none 0)))).call 0 (.budget 1)
    (RacingCall.statements noFloats
      (.reserve { run := 1, reservationId := lit "a", items := 1 } fun _ => 1)))

/-- Another connection cancels the run and commits, then the owner goes on. -/
def overtaken : Connected ℕ :=
  (fun w => w.advance 0)^[4] ((fun w => w.advance 1)^[5] (reserving.call 1 (.budget 1)
    (RacingCall.statements noFloats (.cancelExternal 1 (lit "stop") 2))))

theorem overtaken_reachable :
    Relation.ReflTransGen (Step (anyOrder Matter Database) (Racing noFloats)) (idle oneRun)
      overtaken := by
  refine .head (.call 0 _ _ ⟨.publish 1 none none 0, rfl, rfl⟩)
    ((anyOrder_reachable _ 0 3).trans ?_)
  refine .head (.call 0 _ _ ⟨.reserve { run := 1, reservationId := lit "a", items := 1 }
    fun _ => 1, rfl, rfl⟩) ((anyOrder_reachable _ 0 3).trans ?_)
  exact .head (.call 1 _ _ ⟨.cancelExternal 1 (lit "stop") 2, rfl, rfl⟩)
    ((anyOrder_reachable _ 1 5).trans (anyOrder_reachable _ 0 4))

/-- The reservation has the larger event id, though the cancellation was committed before it. -/
theorem reservation_overtakes_cancellation :
    ¬ ∀ w : Connected ℕ,
      Relation.ReflTransGen (Step (anyOrder Matter Database) (Racing noFloats)) (idle oneRun) w →
        FinalEvents w.committed 1 := by
  intro h
  have hoverlap : ∃ c ∈ overtaken.committed.cancellations 1,
      ∃ e ∈ overtaken.committed.consumptions 1, ¬ e.eventId < c.eventId := by
    decide +kernel
  obtain ⟨c, hc, e, he, hlt⟩ := hoverlap
  exact hlt ((h overtaken overtaken_reachable).consumed c hc e he)

end Framework
end Neocortex
