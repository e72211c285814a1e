import Neocortex.Actions.Reconciliation

/-!
# One history of evidence for each action

* `Store.next_cases`: a transaction keeps the events, or appends the one that the call made;
* `Store.Linear`: the events of an action are numbered and linked;
* `Store.Keyed`: an event that a call of this release wrote is found by its key;
* `reconciliation_history`: what holds along every run.
-/

namespace Neocortex
namespace Actions

open Python Checks

/-! ## Chains -/

/-- Events that are numbered from `n`, each naming the one before it; the first names `p`. -/
def LinearFrom : Option ℤ → ℤ → List Recorded → Prop
  | _, _, [] => True
  | p, n, e :: es =>
    e.sequence = n ∧ e.previousEventId = p ∧ LinearFrom (some e.eventId) (n + 1) es

theorem LinearFrom.concat {e : Recorded} : ∀ {es : List Recorded} {p : Option ℤ} {n : ℤ},
    LinearFrom p n es → e.sequence = n + es.length →
      e.previousEventId = (es.getLast?.map fun d => (d.eventId : ℤ)).or p →
      LinearFrom p n (es ++ [e])
  | [], p, n, _, hsequence, hprevious => by
    refine ⟨?_, ?_, trivial⟩
    · simpa using hsequence
    · simpa using hprevious
  | d :: es, p, n, h, hsequence, hprevious => by
    refine ⟨h.1, h.2.1, h.2.2.concat ?_ ?_⟩
    · rw [hsequence, List.length_cons]
      push_cast
      ring
    · rw [hprevious]
      cases es with
      | nil => rfl
      | cons d' es => simp [List.getLast?_cons]

/-- The number of the last event. -/
theorem LinearFrom.getLast_sequence {es : List Recorded} {p : Option ℤ} {n : ℤ}
    (h : LinearFrom p n es) {d : Recorded} (hd : es.getLast? = some d) :
    d.sequence + 1 = n + es.length := by
  induction es generalizing p n with
  | nil => cases hd
  | cons e es ih =>
    cases es with
    | nil =>
      obtain rfl : e = d := by simpa using hd
      simp [h.1]
    | cons e' es =>
      rw [List.getLast?_cons_cons] at hd
      rw [ih h.2.2 hd, List.length_cons (a := e)]
      push_cast
      ring

namespace Store

variable {codec : Codec} {keyOf : ℤ → ActionSpec → Text} {s s' : Store}

/-- The events of every action are one numbered and linked history, in the order of their ids. -/
structure Linear (s : Store) : Prop where
  ordered : s.events.Pairwise fun a b => a.eventId < b.eventId
  linear : ∀ actionId, LinearFrom none 1 (s.eventsOf actionId)

/-! ## What a call does -/

theorem existing_congr {r r' : Request} (hi : r.toIdentity = r'.toIdentity)
    (hk : r.reconciliationKey = r'.reconciliationKey) : s.existing r = s.existing r' := by
  unfold existing
  rw [hi, hk]

/-- A call that finds no event has none with its key. -/
theorem find?_of_existing_none {r : Request} (h : s.existing r = .ok none) :
    (s.events.find? fun e => e.reconciliationKey == r.reconciliationKey) = none := by
  unfold existing at h
  split at h
  · simp only [bind_eq_ok, pure_eq_ok, reduceCtorEq, and_false, exists_false] at h
  next hnone => exact hnone

/-- The event that a call finds, by its key or by its columns. -/
theorem existing_eq_some {r : Request} {e : Recorded} (h : s.existing r = .ok (some e)) :
    e ∈ s.events ∧ validateExisting e r.toIdentity = .ok () ∧
      ((s.events.find? fun e => e.reconciliationKey == r.reconciliationKey) = some e ∨
        (s.events.find? fun e => e.reconciliationKey == r.reconciliationKey) = none ∧
          bindInteger r.reconciliation.actionId = .ok () ∧
          (r.expectedPreviousEventId.toList).forM bindInteger = .ok () ∧
          (s.events.find? fun e => e.sameColumns r.toIdentity) = some e) := by
  unfold existing at h
  split at h
  next e' hfind =>
    simp only [bind_eq_ok, pure_eq_ok, Option.some.injEq] at h
    obtain ⟨_, hvalid, rfl⟩ := h
    exact ⟨List.mem_of_find?_eq_some hfind, hvalid, .inl hfind⟩
  next hnone =>
    simp only [bind_eq_ok] at h
    obtain ⟨_, hbind, _, hbind', h⟩ := h
    split at h
    · simp at h
    next e' hfind =>
      simp only [bind_eq_ok, pure_eq_ok, Option.some.injEq] at h
      obtain ⟨_, hvalid, rfl⟩ := h
      exact ⟨List.mem_of_find?_eq_some hfind, hvalid, .inr ⟨hnone, hbind, hbind', hfind⟩⟩

/-- What a call writes. -/
structure Inserts (s : Store) (around : Surroundings) (r : Request) (e : Recorded) : Prop where
  new : s.existing r = .ok none
  action : ∃ a, s.actionSnapshot r.reconciliation = .ok a ∧ ∃ sequence,
    s.nextSequence r = .ok sequence ∧ e = s.newEvent r a sequence around.recordedNow

theorem recordInTransaction_cases {around : Surroundings} {r : Request} {e : Recorded}
    (h : s.recordInTransaction around r = .ok (e, s')) :
    s.existing r = .ok (some e) ∧ s' = s ∨
      s.Inserts around r e ∧ s' = { s with events := s.events ++ [e] } := by
  simp only [recordInTransaction, bind_eq_ok] at h
  obtain ⟨found, hfound, h⟩ := h
  cases found with
  | some d =>
    obtain ⟨rfl, rfl⟩ := Prod.mk.inj (pure_eq_ok.mp h)
    exact .inl ⟨hfound, rfl⟩
  | none =>
    simp only [bind_eq_ok] at h
    obtain ⟨a, ha, sequence, hsequence, h⟩ := h
    simp only [insertReconciliation, bind_eq_ok, raiseIf_eq_ok, pure_eq_ok] at h
    obtain ⟨_, -, _, -, _, -, h⟩ := h
    obtain ⟨rfl, rfl⟩ := Prod.mk.inj h
    exact .inr ⟨⟨hfound, a, ha, sequence, hsequence, rfl⟩, rfl⟩

theorem record_cases {around : Surroundings} {c : RecordCall} {e : Recorded}
    (h : s.recordFileActionReconciliation codec around c = .ok (e, s')) :
    ∃ r, prepareRequest codec around c = .ok r ∧
      (s.existing r = .ok (some e) ∧ s' = s ∨
        s.Inserts around r e ∧ s' = { s with events := s.events ++ [e] }) := by
  simp only [recordFileActionReconciliation, bind_eq_ok, pure_eq_ok] at h
  obtain ⟨r, hr, result, hresult, _, -, rfl⟩ := h
  exact ⟨r, hr, recordInTransaction_cases hresult⟩

variable (codec keyOf s) in
/-- A transaction keeps the events, or appends the one that its call made. -/
theorem next_cases (step : Step) :
    (s.next codec keyOf step).events = s.events ∨
      ∃ around c r e, step = .record around c ∧ prepareRequest codec around c = .ok r ∧
        s.Inserts around r e ∧ s.next codec keyOf step = { s with events := s.events ++ [e] } := by
  cases step with
  | ledger t =>
    left
    rw [next]
    split <;> rfl
  | record around c =>
    cases h : s.recordFileActionReconciliation codec around c with
    | error e =>
      left
      simp [next, h]
    | ok result =>
      obtain ⟨e, s'⟩ := result
      have hnext : s.next codec keyOf (.record around c) = s' := by simp [next, h]
      obtain ⟨r, hr, ⟨-, rfl⟩ | ⟨hinserts, rfl⟩⟩ := record_cases h
      · exact .inl (by rw [hnext])
      · exact .inr ⟨around, c, r, e, rfl, hr, hinserts, hnext⟩

/-! ## Requests -/

/-- What a call is identified by does not depend on when it is made. -/
theorem prepareRequest_eq_ok {around : Surroundings} {c : RecordCall} {r : Request}
    (h : prepareRequest codec around c = .ok r) :
    r.reconciliationKey = codec.key r.toIdentity ∧ r.reconciliation = c.reconciliation ∧
      ∀ {around' r'}, prepareRequest codec around' c = .ok r' → r'.toIdentity = r.toIdentity := by
  simp only [prepareRequest, bind_eq_ok, raiseIf_eq_ok, pure_eq_ok] at h
  obtain ⟨_, -, _, -, provenance, hprovenance, _, -, _, -, _, -, rfl⟩ := h
  refine ⟨rfl, rfl, fun {around' r'} h' => ?_⟩
  simp only [prepareRequest, bind_eq_ok, raiseIf_eq_ok, pure_eq_ok] at h'
  obtain ⟨_, -, _, -, provenance', hprovenance', _, -, _, -, _, -, rfl⟩ := h'
  rw [hprovenance, Except.ok.injEq] at hprovenance'
  subst hprovenance'
  rfl

/-- Nothing outside the tables stands in the way of a call. -/
structure Quiet (around : Surroundings) : Prop where
  connection : around.connection = .ok ()
  now : 0 ≤ around.now
  commit : around.commit = .ok ()

theorem prepareRequest_quiet {around around' : Surroundings} {c : RecordCall} {r : Request}
    (h : prepareRequest codec around c = .ok r) (hquiet : Quiet around') :
    ∃ r', prepareRequest codec around' c = .ok r' := by
  simp only [prepareRequest, bind_eq_ok, raiseIf_eq_ok, pure_eq_ok] at h ⊢
  obtain ⟨_, hvalid, _, hactor, provenance, hprovenance, _, hprevious, _, hobserved, _, -, -⟩ := h
  refine ⟨_, (), hvalid, (), hactor, provenance, hprovenance, (), hprevious, (), ?_, (),
    hquiet.connection, rfl⟩
  cases hc : c.observedNs with
  | none =>
    rw [Option.getD_none, not_lt]
    exact hquiet.now
  | some n =>
    rw [hc] at hobserved
    exact hobserved

/-! ## Numbered and linked -/

theorem eventId_lt_nextEventId {e : Recorded} (h : e ∈ s.events) : e.eventId < s.nextEventId := by
  have hle : ∀ {l : List ℕ} {n : ℕ}, n ∈ l → n ≤ l.foldr max 0 := by
    intro l n hn
    induction l with
    | nil => cases hn
    | cons a l ih =>
      rcases List.mem_cons.mp hn with rfl | hn
      · exact le_max_left _ _
      · exact le_trans (ih hn) (le_max_right _ _)
  exact Nat.lt_succ_of_le (hle (List.mem_map_of_mem h))

theorem Inserts.linear {around : Surroundings} {r : Request} {e : Recorded}
    (h : s.Inserts around r e) (hs : s.Linear) :
    ({ s with events := s.events ++ [e] } : Store).Linear := by
  obtain ⟨-, a, -, sequence, hsequence, rfl⟩ := h
  refine ⟨?_, fun actionId => ?_⟩
  · refine List.pairwise_append.mpr ⟨hs.ordered, List.pairwise_singleton _ _, fun d hd e he => ?_⟩
    obtain rfl := List.mem_singleton.mp he
    exact eventId_lt_nextEventId hd
  · show LinearFrom none 1 ((s.events ++ [s.newEvent r a sequence around.recordedNow]).filter _)
    rw [List.filter_append]
    by_cases hid : r.reconciliation.actionId = actionId
    · subst hid
      rw [List.filter_cons_of_pos (by simp [newEvent]), List.filter_nil]
      have hlinear := hs.linear r.reconciliation.actionId
      -- the compare-and-swap: the expected previous event is the last one
      unfold nextSequence at hsequence
      dsimp only at hsequence
      split_ifs at hsequence with hlatest
      rw [not_not] at hlatest
      refine hlinear.concat ?_ ?_
      · show sequence = _
        rw [← Except.ok.inj hsequence]
        cases hlast : (s.eventsOf r.reconciliation.actionId).getLast? with
        | none => simp [List.getLast?_eq_none_iff.mp hlast]
        | some d => exact hlinear.getLast_sequence hlast
      · show r.expectedPreviousEventId = _
        rw [← hlatest, Option.or_none]
    · rw [List.filter_cons_of_neg (by simpa [newEvent] using hid), List.filter_nil,
        List.append_nil]
      exact hs.linear actionId

theorem Linear.next (hs : s.Linear) (step : Step) : (s.next codec keyOf step).Linear := by
  rcases next_cases codec keyOf s step with
    heq | ⟨around, c, r, e, -, -, hinserts, heq⟩
  · refine ⟨?_, fun actionId => ?_⟩
    · rw [heq]
      exact hs.ordered
    · rw [eventsOf, heq]
      exact hs.linear actionId
  · rw [heq]
    exact hinserts.linear hs

/-- An event that is appended has the status that its action has. -/
theorem Inserts.status {around : Surroundings} {r : Request} {e : Recorded}
    (h : s.Inserts around r e) : ∃ a ∈ s.ledger.actions, (a.actionId : ℤ) = e.actionId ∧
      a.status = e.actionStatus := by
  obtain ⟨-, snapshot, hsnapshot, sequence, -, rfl⟩ := h
  unfold actionSnapshot at hsnapshot
  split at hsnapshot
  · cases hsnapshot
  next a hfind =>
    simp only [bind_eq_ok, raiseIf_eq_ok, not_not] at hsnapshot
    obtain ⟨_, hstatus, -⟩ := hsnapshot
    refine ⟨a, List.mem_of_find?_eq_some hfind, ?_, hstatus⟩
    show (a.actionId : ℤ) = r.reconciliation.actionId
    simpa using List.find?_some hfind

/-! ## Replays -/

/-- The requests of some steps. -/
def requests (codec : Codec) (steps : List Step) : List Identity :=
  steps.filterMap fun
    | .record around c => (prepareRequest codec around c).toOption.map Request.toIdentity
    | .ledger _ => none

/-- No request shares its key with a different request that repeats an event of the table: two
texts that the hash does not tell apart. -/
def KeysApart (codec : Codec) (events : List Recorded) (identities : List Identity) : Prop :=
  ∀ e ∈ events, ∀ i ∈ identities, ∀ j ∈ identities, validateExisting e i = .ok () →
    codec.key j = codec.key i → j = i

/-- An event is one of the older ones, or has the key of every request that it answers. -/
def Keyed (codec : Codec) (older : List Recorded) (s : Store) : Prop :=
  ∀ e ∈ s.events, e ∈ older ∨
    ∀ i, validateExisting e i = .ok () → codec.key i = e.reconciliationKey

/-- The event of a request answers this request, and no other. -/
theorem validateExisting_newEvent {r : Request} {a : ActionSnapshot} {sequence now : ℤ}
    {i : Identity} : validateExisting (s.newEvent r a sequence now) i = .ok () ↔
      i = r.toIdentity := by
  simp only [validateExisting, bind_eq_ok, raiseIf_eq_ok]
  constructor
  · rintro ⟨_, -, h⟩
    rw [not_or, not_not] at h
    obtain ⟨hcolumns, hreconciliation⟩ := h
    rw [Bool.not_eq_false] at hcolumns
    simp only [Recorded.sameColumns, Bool.and_eq_true, beq_iff_eq, newEvent] at hcolumns
    obtain ⟨⟨⟨⟨⟨⟨⟨⟨⟨-, hprevious⟩, -⟩, -⟩, -⟩, hactor⟩, hprovenance⟩, -⟩, -⟩, -⟩ := hcolumns
    have hreconciliation : r.reconciliation = i.reconciliation := Option.some_inj.mp hreconciliation
    obtain ⟨reconciliation, actor, provenanceJson, expectedPreviousEventId⟩ := i
    obtain rfl : r.reconciliation = reconciliation := hreconciliation
    obtain rfl : r.actor = actor := hactor
    obtain rfl : r.provenanceJson = provenanceJson := hprovenance
    obtain rfl : r.expectedPreviousEventId = expectedPreviousEventId := hprevious
    rfl
  · rintro rfl
    refine ⟨(), by simp [newEvent], ?_⟩
    simp [newEvent, Recorded.sameColumns, Evidence.reconciliation?]

theorem Keyed.next {older : List Recorded} (hs : Keyed codec older s) (step : Step) :
    Keyed codec older (s.next codec keyOf step) := by
  rcases next_cases codec keyOf s step with
    heq | ⟨around, c, r, e, -, hr, hinserts, heq⟩
  · intro e he
    rw [heq] at he
    exact hs e he
  · intro d hd
    rw [heq] at hd
    rcases List.mem_append.mp hd with hd | hd
    · exact hs d hd
    · obtain rfl := List.mem_singleton.mp hd
      obtain ⟨-, a, -, sequence, -, rfl⟩ := hinserts
      right
      intro i hi
      rw [validateExisting_newEvent.mp hi]
      exact (prepareRequest_eq_ok hr).1.symm

/-- An event that a call finds is found after every other call, too. -/
theorem existing_next {older : List Recorded} {r : Request} {e : Recorded} (hs : Keyed codec older s)
    (hkey : r.reconciliationKey = codec.key r.toIdentity) (h : s.existing r = .ok (some e))
    {identities : List Identity} (hapart : KeysApart codec older identities)
    (hr : r.toIdentity ∈ identities) {step : Step}
    (hstep : ∀ around c r', step = .record around c → prepareRequest codec around c = .ok r' →
      r'.toIdentity ∈ identities) :
    (s.next codec keyOf step).existing r = .ok (some e) := by
  rcases next_cases codec keyOf s step with
    heq | ⟨around, c, r', d, hrecord, hr', hinserts, heq⟩
  · unfold existing
    rw [heq]
    exact h
  · rw [heq]
    obtain ⟨he, hvalid, hfind⟩ := existing_eq_some h
    have hgrow : ∀ (p : Recorded → Bool) {x : Recorded}, s.events.find? p = some x →
        (s.events ++ [d]).find? p = some x := fun p x hx => by
      rw [List.find?_append, hx]
      rfl
    rcases hfind with hbyKey | ⟨hnone, hbind, hbind', hbyColumns⟩
    · simp only [existing, hgrow _ hbyKey, hvalid]
      rfl
    · -- a new event with the key of the request would be the event of a request like it
      have hd : (d.reconciliationKey == r.reconciliationKey) = false := by
        rw [beq_eq_false_iff_ne]
        intro hd
        obtain ⟨hnew, a, -, sequence, -, rfl⟩ := hinserts
        have hd : r'.reconciliationKey = r.reconciliationKey := hd
        have hkey' := (prepareRequest_eq_ok hr').1
        have hsame : r'.toIdentity = r.toIdentity := by
          rcases hs e he with hold | hown
          · refine hapart e hold _ hr _ (hstep around c r' hrecord hr') hvalid ?_
            rw [← hkey, ← hkey', hd]
          · have hfound := List.find?_eq_none.mp hnone e he
            rw [beq_iff_eq, ← hown _ hvalid] at hfound
            exact absurd hkey.symm hfound
        rw [existing_congr hsame hd, h] at hnew
        cases hnew
      have hnone' : ((s.events ++ [d]).find? fun e => e.reconciliationKey == r.reconciliationKey) =
          none := by
        rw [List.find?_append, hnone]
        simp [hd]
      simp only [existing, hnone', hbind, hbind', hgrow _ hbyColumns, hvalid]
      rfl

/-! ## Runs -/

@[simp] theorem run_nil : s.run codec keyOf [] = s := rfl

/-- The events stay, or one is appended that has the status of its action. -/
def AppendsWithStatus (s s' : Store) : Prop :=
  s'.events = s.events ∨ ∃ e, s'.events = s.events ++ [e] ∧
    ∃ a ∈ s.ledger.actions, (a.actionId : ℤ) = e.actionId ∧ a.status = e.actionStatus

theorem next_appendsWithStatus (step : Step) : AppendsWithStatus s (s.next codec keyOf step) := by
  rcases next_cases codec keyOf s step with
    heq | ⟨around, c, r, e, -, -, hinserts, heq⟩
  · exact .inl heq
  · exact .inr ⟨e, by rw [heq], hinserts.status⟩

theorem run_linear (hs : s.Linear) (steps : List Step) : (s.run codec keyOf steps).Linear := by
  induction steps generalizing s with
  | nil => exact hs
  | cons step steps ih => exact ih (hs.next step)

theorem run_keyed {older : List Recorded} (hs : Keyed codec older s) (steps : List Step) :
    Keyed codec older (s.run codec keyOf steps) := by
  induction steps generalizing s with
  | nil => exact hs
  | cons step steps ih => exact ih (hs.next step)

theorem mem_requests {steps : List Step} {around : Surroundings} {c : RecordCall} {r : Request}
    (hstep : .record around c ∈ steps) (hr : prepareRequest codec around c = .ok r) :
    r.toIdentity ∈ requests codec steps := by
  refine List.mem_filterMap.mpr ⟨_, hstep, ?_⟩
  show (prepareRequest codec around c).toOption.map Request.toIdentity = _
  rw [hr]
  rfl

/-- An event that a call finds is found at any later time. -/
theorem existing_run {older : List Recorded} {r : Request} {e : Recorded}
    (hs : Keyed codec older s) (hkey : r.reconciliationKey = codec.key r.toIdentity)
    (h : s.existing r = .ok (some e)) {identities : List Identity}
    (hapart : KeysApart codec older identities) (hr : r.toIdentity ∈ identities)
    {steps : List Step} (hsteps : requests codec steps ⊆ identities) :
    (s.run codec keyOf steps).existing r = .ok (some e) := by
  induction steps generalizing s with
  | nil => exact h
  | cons step steps ih =>
    have hfirst : ∀ around c r', step = .record around c → prepareRequest codec around c = .ok r' →
        r'.toIdentity ∈ identities := by
      rintro around c r' rfl hr'
      exact hsteps (mem_requests List.mem_cons_self hr')
    refine ih (hs.next step) (existing_next hs hkey h hapart hr hfirst) fun i hi => hsteps ?_
    obtain ⟨step', hstep', hi⟩ := List.mem_filterMap.mp hi
    exact List.mem_filterMap.mpr ⟨step', List.mem_cons_of_mem _ hstep', hi⟩

/-- What a call returns is found from then on. -/
theorem existing_of_record {around : Surroundings} {c : RecordCall} {e : Recorded}
    (h : s.recordFileActionReconciliation codec around c = .ok (e, s')) :
    ∃ r, prepareRequest codec around c = .ok r ∧ s'.existing r = .ok (some e) := by
  obtain ⟨r, hr, ⟨hfound, rfl⟩ | ⟨hinserts, rfl⟩⟩ := record_cases h
  · exact ⟨r, hr, hfound⟩
  · refine ⟨r, hr, ?_⟩
    obtain ⟨hnew, a, -, sequence, -, rfl⟩ := hinserts
    have hfind : ((s.events ++ [s.newEvent r a sequence around.recordedNow]).find? fun e =>
        e.reconciliationKey == r.reconciliationKey) =
          some (s.newEvent r a sequence around.recordedNow) := by
      rw [List.find?_append, find?_of_existing_none hnew]
      simp [newEvent]
    simp only [existing, hfind, validateExisting_newEvent.mpr]
    rfl

/-- A call whose request finds an event returns it and writes nothing. -/
theorem record_of_existing {around : Surroundings} {c : RecordCall} {r : Request} {e : Recorded}
    (hr : prepareRequest codec around c = .ok r) (h : s.existing r = .ok (some e))
    (hcommit : around.commit = .ok ()) :
    s.recordFileActionReconciliation codec around c = .ok (e, s) := by
  rw [recordFileActionReconciliation, hr, ok_bind, recordInTransaction, h, ok_bind, hcommit]
  rfl

/-- A repeated call changes nothing, whatever it meets. -/
theorem next_of_existing {around : Surroundings} {c : RecordCall} {e : Recorded}
    (h : ∀ r, prepareRequest codec around c = .ok r → s.existing r = .ok (some e)) :
    s.next codec keyOf (.record around c) = s := by
  rw [next]
  split
  next e' s' hrecord =>
    obtain ⟨r, hr, ⟨-, rfl⟩ | ⟨hinserts, -⟩⟩ := record_cases hrecord
    · rfl
    · have hfound := h r hr
      rw [hinserts.new] at hfound
      cases hfound
  next => rfl

/-- **The evidence of an action is one linear history.**  Along every run the events are numbered
and linked; every step that appends an event does so with the status of its action; a call that
raises leaves the events; and once a call has returned an event, the same request returns it at
any later time and writes nothing. -/
theorem reconciliation_history (codec : Codec) (keyOf : ℤ → ActionSpec → Text) {s₀ : Store}
    (h₀ : s₀.Linear) (before after : List Step) (around : Surroundings) (c : RecordCall)
    (hapart : KeysApart codec s₀.events
      (requests codec (before ++ .record around c :: after))) :
    (s₀.run codec keyOf before).Linear ∧
      (∀ step, AppendsWithStatus (s₀.run codec keyOf before)
        ((s₀.run codec keyOf before).next codec keyOf step)) ∧
      (∀ error, (s₀.run codec keyOf before).recordFileActionReconciliation codec around c =
          .error error →
        ((s₀.run codec keyOf before).next codec keyOf (.record around c)).events =
          (s₀.run codec keyOf before).events) ∧
      ∀ e s', (s₀.run codec keyOf before).recordFileActionReconciliation codec around c =
          .ok (e, s') →
        e ∈ s'.events ∧
          (∀ around', Quiet around' →
            (s'.run codec keyOf after).recordFileActionReconciliation codec around' c =
              .ok (e, s'.run codec keyOf after)) ∧
          ∀ around', (s'.run codec keyOf after).next codec keyOf (.record around' c) =
            s'.run codec keyOf after := by
  refine ⟨run_linear h₀ before, next_appendsWithStatus, fun error herror => ?_,
    fun e s' h => ?_⟩
  · rw [next, herror]
  · obtain ⟨r, hr, hfound⟩ := existing_of_record h
    have hkeyed : Keyed codec s₀.events s' := by
      have hbefore : Keyed codec s₀.events (s₀.run codec keyOf before) :=
        run_keyed (fun e he => .inl he) before
      have hnext : Keyed codec s₀.events
          ((s₀.run codec keyOf before).next codec keyOf (.record around c)) :=
        hbefore.next (.record around c)
      rwa [next, h] at hnext
    obtain ⟨hkey, -, hsame⟩ := prepareRequest_eq_ok hr
    have hmem : r.toIdentity ∈ requests codec (before ++ .record around c :: after) :=
      mem_requests (List.mem_append_right _ List.mem_cons_self) hr
    have hafter : requests codec after ⊆ requests codec (before ++ .record around c :: after) := by
      intro i hi
      obtain ⟨step, hstep, hi⟩ := List.mem_filterMap.mp hi
      exact List.mem_filterMap.mpr
        ⟨step, List.mem_append_right _ (List.mem_cons_of_mem _ hstep), hi⟩
    have hlater : (s'.run codec keyOf after).existing r = .ok (some e) :=
      existing_run hkeyed hkey hfound hapart hmem hafter
    -- the request of another call with the same arguments finds the same event
    have hrepeat : ∀ around' r', prepareRequest codec around' c = .ok r' →
        (s'.run codec keyOf after).existing r' = .ok (some e) := by
      intro around' r' hr'
      have hi := hsame hr'
      rw [existing_congr hi ?_, hlater]
      rw [(prepareRequest_eq_ok hr').1, hkey, hi]
    refine ⟨(existing_eq_some hfound).1, fun around' hquiet => ?_, fun around' => ?_⟩
    · obtain ⟨r', hr'⟩ := prepareRequest_quiet hr hquiet
      exact record_of_existing hr' (hrepeat around' r' hr') hquiet.commit
    · exact next_of_existing (hrepeat around')

/-! ## An action that is left applying -/

/-- One action, interrupted while it was applied. -/
def interrupted : Store where
  ledger :=
    { actions := [{
        actionId := 1
        runId := 1
        spec := ⟨lit "trash_duplicate", lit "/a", none, none, none, true⟩
        policy := ⟨lit "normal", none, none, none, none⟩
        idempotencyKey := none
        status := .applying
        detail := none
        expectedIdentityJson := none
        effectReceiptJson := none }]
      events := [] }
  events := []

/-- It is still at its source. -/
def notPerformed : RecordCall where
  reconciliation :=
    { actionId := 1
      runId := 1
      idempotencyKey := none
      actionType := lit "trash_duplicate"
      sourcePath := lit "/a"
      targetPath := none
      recordedStatus := .applying
      reconcilerSignature := lit "file-action-reconciler-v1"
      classification := .notPerformed
      recommendation := .reviewBeforeNewAuthorizedAttempt
      detail := lit "the expected source identity remains at the source path" }
  actor := lit "operator"
  provenanceJson := lit "{}"
  expectedPreviousEventId := none
  observedNs := some 5

/-- No fault. -/
def calm : Surroundings := ⟨.ok (), 7, 7, .ok (), .ok ()⟩

/-- The digest and the canonical text of this call. -/
def notPerformedCodec : Codec := ⟨fun _ => lit "7034d764163fb81fbc0bcfbb98cdb707", .ok⟩

/-- The action goes to recovery between two records of one observation. -/
def recovers : List Step := [.ledger (.finish [1] .recoveryRequired none)]

theorem reconciliation_history_interrupted :
    ∃ e s', interrupted.recordFileActionReconciliation notPerformedCodec calm notPerformed =
        .ok (e, s') ∧ s'.events = [e] ∧
      (s'.run notPerformedCodec (fun _ _ => []) recovers).recordFileActionReconciliation
          notPerformedCodec calm notPerformed =
        .ok (e, s'.run notPerformedCodec (fun _ _ => []) recovers) := by
  have hlinear : interrupted.Linear := ⟨List.Pairwise.nil, fun _ => trivial⟩
  have hquiet : Quiet calm := ⟨rfl, by decide, rfl⟩
  have h := reconciliation_history notPerformedCodec (fun _ _ => []) hlinear [] recovers calm
    notPerformed fun _ he => nomatch he
  refine ⟨_, _, rfl, rfl, ?_⟩
  exact (h.2.2.2 _ _ rfl).2.1 calm hquiet

end Store

end Actions
end Neocortex
