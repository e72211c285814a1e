import Neocortex.Actions.WriteAhead

/-!
# What the answers foretell of a turn

A turn of the one-by-one loop ends with a verdict, or an exception leaves the loop.
`Candidate.foretold` reads off the answers about the candidate alone, without a ledger, which of
these it is and whether the member is confirmed.  The ledger itself refuses with exceptions that the
handlers isolate (`escapes_finish`, `mark_foretold`), so it never makes a turn leave the loop.

* `Foretold`, `Foretells`: a stretch of a turn beside what is foretold of it, with a rule for each
  construction;
* `foretells_applyOne`: a turn that confirms its member, and one that raises, were foretold.
-/

namespace Neocortex
namespace Actions

open Python Checks Durable

/-- The handlers around one member let the exception out. -/
def Kind.escapes (k : Kind) : Bool := k.stops || !k.isolated

/-! ## What the ledger refuses -/

/-- What the boundary of a run answers inside a transaction. -/
def Ledger.Boundary.answers (boundary : Ledger.Boundary) (run : ℤ) : Checked Unit := do
  let _ ← boundary.policy run
  boundary.before
  boundary.after

namespace Ledger

variable {l : Ledger} {e : Raised}

theorem escapes_transition {id : ℕ} {status : ActionStatus} {detail : Option Text} {stage : Stage}
    {evidenceJson receipt : Option Text}
    (h : l.transition id status detail stage evidenceJson receipt = .error e) :
    e.kind.escapes = false := by
  unfold transition at h
  cases hr : l.action? id with
  | none =>
    simp only [hr] at h
    obtain rfl := Except.error.inj h
    rfl
  | some r =>
    simp only [hr] at h
    split_ifs at h
    all_goals
      obtain rfl := Except.error.inj h
      rfl

theorem escapes_finish {ids : List ℕ} {status : ActionStatus} {detail : Option Text}
    (h : l.finishFileActions ids status detail = .error e) : e.kind.escapes = false := by
  unfold finishFileActions at h
  rcases bind_eq_error.mp h with h | ⟨-, -, h⟩
  · unfold raiseIf Checks.raiseIf at h
    split_ifs at h
    obtain rfl := Except.error.inj h
    rfl
  · exact of_foldlM_eq_error (fun _ _ _ => escapes_transition) h

theorem escapes_requireJsonObject {text : Text} {label : String}
    (h : requireJsonObject text label = .error e) : e.kind.escapes = false := by
  unfold requireJsonObject at h
  split at h
  · obtain rfl := Except.error.inj h
    rfl
  · cases h
  · obtain rfl := Except.error.inj h
    rfl

theorem escapes_confirm {id : ℕ} {receipt : Text}
    (h : l.confirmFileActionsApplied [(id, receipt)] = .error e) : e.kind.escapes = false := by
  unfold confirmFileActionsApplied at h
  rcases bind_eq_error.mp h with h | ⟨-, -, h⟩
  · rcases bind_eq_error.mp h with h | ⟨-, -, h⟩
    · exact escapes_requireJsonObject h
    · cases h
  · exact of_foldlM_eq_error (fun _ _ _ => escapes_transition) h

theorem escapes_markApplying {action : ℕ × Text} (h : markApplying l action = .error e) :
    e.kind.escapes = false := by
  unfold markApplying at h
  cases hr : l.action? action.1 with
  | none =>
    simp only [hr] at h
    obtain rfl := Except.error.inj h
    rfl
  | some r =>
    simp only [hr] at h
    split_ifs at h
    obtain rfl := Except.error.inj h
    rfl

/-- The guard of a row passes on what its boundary answers of the policy. -/
theorem actionGuard_foretold (hids : l.Ids) {r : ActionRow} (hr : r ∈ l.actions)
    (boundary : Boundary) :
    (∀ e, l.actionGuard boundary r.actionId = .error e → e.kind.escapes = true →
      boundary.policy r.runId = .error e) ∧
    (l.actionGuard boundary r.actionId = .ok () →
      ∃ policy, boundary.policy r.runId = .ok policy) := by
  have hkind : ∀ {c : Prop} [Decidable c] {text : String} {e : Raised},
      raiseIf c .boundary text = .error e → e.kind.escapes = false := by
    intro c _ text e h
    unfold raiseIf Checks.raiseIf at h
    split_ifs at h
    obtain rfl := Except.error.inj h
    rfl
  unfold actionGuard
  rw [(action?_eq_some hids).mpr ⟨hr, rfl⟩]
  dsimp only
  constructor
  · intro e h hescapes
    rcases bind_eq_error.mp h with h | ⟨policy, -, h⟩
    · exact h
    · rcases bind_eq_error.mp h with h | ⟨-, -, h⟩
      all_goals
        rw [hkind h] at hescapes
        cases hescapes
  · intro h
    obtain ⟨policy, hpolicy, -⟩ := bind_eq_ok.mp h
    exact ⟨policy, hpolicy⟩

/-- Crossing the frontier passes on what the boundary answers. -/
theorem mark_foretold (hids : l.Ids) {r : ActionRow} (hr : r ∈ l.actions) {boundary : Boundary}
    {text : Text} :
    (∀ e, l.markFileActionsApplying boundary [(r.actionId, text)] = .error e →
      e.kind.escapes = true → boundary.answers r.runId = .error e) ∧
    ∀ l', l.markFileActionsApplying boundary [(r.actionId, text)] = .ok l' →
      boundary.answers r.runId = .ok () := by
  obtain ⟨hguard, hpassed⟩ := actionGuard_foretold hids hr boundary
  have hone : ∀ {f : ℕ × Text → Checked Unit} {x : ℕ × Text},
      List.forM [x] f = f x := by
    intro f x
    show f x >>= _ = f x
    cases f x <;> rfl
  unfold markFileActionsApplying Boundary.answers
  rw [if_neg (List.cons_ne_nil _ _), hone, hone]
  constructor
  · intro e h hescapes
    rcases bind_eq_error.mp h with h | ⟨-, -, h⟩
    · rw [escapes_requireJsonObject h] at hescapes
      cases hescapes
    rcases bind_eq_error.mp h with h | ⟨⟨⟩, hguarded, h⟩
    · rw [hguard e h hescapes]
      rfl
    obtain ⟨policy, hpolicy⟩ := hpassed hguarded
    rw [hpolicy, ok_bind]
    rcases bind_eq_error.mp h with h | ⟨⟨⟩, hbefore, h⟩
    · rw [h]
      rfl
    rw [hbefore, ok_bind]
    rcases bind_eq_error.mp h with h | ⟨marked, hmarked, h⟩
    · have hkind : e.kind.escapes = false := of_foldlM_eq_error (fun _ _ _ => escapes_markApplying) h
      rw [hkind] at hescapes
      cases hescapes
    -- the row keeps its run, so that the policy has not changed
    obtain ⟨-, hrows⟩ := mark_rows hids hmarked
    obtain ⟨q, hq, hqid, -, hqmarked⟩ := hrows _ (List.mem_singleton.mpr rfl)
    obtain rfl := hids.unique.eq hq hr hqid
    have hids' : marked.Ids :=
      (edits_foldlM (fun _ _ _ hl ha hmark => edits_markApplying hl ha hmark) hids hmarked).ids hids
    rcases bind_eq_error.mp h with h | ⟨-, -, h⟩
    · rw [hone] at h
      have hagain := (actionGuard_foretold hids' hqmarked boundary).1 e h hescapes
      exact absurd (hpolicy.symm.trans hagain) (by simp)
    rcases bind_eq_error.mp h with h | ⟨-, -, h⟩
    · exact h
    · cases h
  · intro l' h
    simp only [bind_eq_ok, pure_eq_ok] at h
    obtain ⟨-, -, ⟨⟩, hguarded, ⟨⟩, hbefore, -, -, -, -, ⟨⟩, hafter, -⟩ := h
    obtain ⟨policy, hpolicy⟩ := hpassed hguarded
    rw [hpolicy, ok_bind, hbefore, ok_bind, hafter]

end Ledger

namespace TrashCall

/-! ## What is foretold -/

/-- What a write of the ledger raises: its fault, behind what the world answers inside it if the
write becomes durable. -/
def written (fault : Option Fault) (own : Checked Unit) : Checked Unit :=
  match fault with
  | some (.rolledBack e) => .error e
  | some (.committed e) => do
    own
    .error e
  | none => own

variable (o : Outside) (call : TrashCall)

/-- `settleOutcome`, by the answers: whether the member is confirmed. -/
def foretoldOutcome (c : Candidate) (planned : FileSnapshot) (sourceDigest : Text)
    (outcome : BackendOutcome) : Checked Bool :=
  match outcome.status with
  | .applied =>
    match outcome.receiptJson with
    | some receipt =>
      match validateTrashReceipt o.pathKey o.floatIsOne c.answers.verify receipt planned
          sourceDigest with
      | .ok () => do
        written (c.answers.fault .confirmation) (.ok ())
        pure true
      | .error e => if e.kind.uncertain then pure false else .error e
    | none => do
      written (c.answers.fault .recovery) (.ok ())
      pure false
  | .recoveryRequired => do
    written (c.answers.fault .recovery) (.ok ())
    pure false
  | .blocked => pure false

/-- `attempt`, by the answers. -/
def foretoldAttempt (c : Candidate) (planned : FileSnapshot) : Checked Bool := do
  let sourceDigest ← sourceEvidence c
  let _ ← planned.identityText c.path
  written (c.answers.fault .frontier) (c.answers.boundary.answers call.runId)
  match c.answers.reply with
  | .raises e => .error e
  | .unsupported => .error ⟨.runtime, lit "trash backend returned an unsupported outcome"⟩
  | .outcome outcome => foretoldOutcome o c planned sourceDigest outcome

/-- A turn of the loop, by the answers about its candidate: the exception that leaves the loop, or
whether the member is confirmed.  A candidate without snapshot counts as one that raises: the
write that fails it stands outside the `try`, and the ledger may refuse it. -/
def foretold (c : Candidate) : Checked Bool := do
  c.answers.checkpoint
  match c.expected with
  | none => .error ⟨.runtime, lit "trash candidate has no expected snapshot"⟩
  | some planned =>
    match foretoldAttempt o call c planned with
    | .ok confirmed => pure confirmed
    | .error e => if e.kind.escapes then .error e else pure false

/-! ## Stretches of a turn -/

variable {o call} {w u : World} {m : Ready} {rest ready : List Ready} {planned : FileSnapshot}

/-- The stretch does what `own` says of it, or raises what the handlers isolate. -/
def Foretold {α β : Type} (x : Trash α) (u : World) (own : Checked β) (P : α → β → World → Prop) :
    Prop :=
  wp x u (fun _ => True) (onEnd (fun a t => ∃ b, own = .ok b ∧ P a b t)
    fun e _ => e.kind.escapes = true → own = .error e)

/-- A stretch that ends the turn: if it confirms the member, or raises what the handlers let out,
that was foretold. -/
def Foretells (x : Trash Verdict) (u : World) (own : Checked Bool) : Prop :=
  wp x u (fun _ => True) (onEnd (fun verdict _ => verdict = .applied → own = .ok true)
    fun e _ => e.kind.escapes = true → own = .error e)

/-- The program does not raise. -/
def Returns {α : Type} (x : Trash α) (u : World) (P : α → Prop) : Prop :=
  wp x u (fun _ => True) (onEnd (fun a _ => P a) fun _ _ => False)

theorem wp_trivial {α : Type} (x : Trash α) (u : World) :
    wp x u (fun _ => True) fun _ _ => True := ⟨fun _ _ => trivial, trivial⟩

theorem returns_dropped (x : Trash Unit) (u : World) :
    Returns (x.handle fun _ => pure ()) u fun _ => True := by
  rw [Returns, wp_handle]
  refine wp_mono (fun _ ht => ht) (fun r t _ => ?_) (wp_trivial x u)
  cases r with
  | ok _ => exact trivial
  | error e => exact wp_pure.mpr trivial

theorem returns_bestEffort (m : Ready) (detail : Text) (u : World) :
    Returns (bestEffortRequireRecovery m detail) u fun _ => True := returns_dropped _ u

theorem Returns.bind {α β : Type} {x : Trash α} {f : α → Trash β} {P : α → Prop} {Q : β → Prop}
    (hx : Returns x u P) (hf : ∀ a v, P a → Returns (f a) v Q) : Returns (x >>= f) u Q :=
  wp_seq hx (fun a v ha => hf a v ha) fun _ _ he => he.elim

theorem Returns.handle {α : Type} {x : Trash α} {h : Raised → Trash α} {P : α → Prop}
    (hx : wp x u (fun _ => True) (onEnd (fun a _ => P a) fun _ _ => True))
    (hh : ∀ e v, Returns (h e) v P) : Returns (x.handle h) u P := by
  rw [Returns, wp_handle]
  refine wp_mono (fun _ ht => ht) (fun r t hr => ?_) hx
  cases r with
  | ok a => exact hr
  | error e => exact hh e t

theorem returns_finishUninvoked (e : Raised) (u : World) :
    Returns (finishUninvokedTrashActions call ready e) u fun _ => True := by
  unfold finishUninvokedTrashActions
  split_ifs
  · exact wp_pure.mpr trivial
  · refine Returns.handle ?_ fun failure v => returns_dropped _ v
    refine wp_mono (fun _ ht => ht) (fun r t _ => ?_) (wp_trivial _ u)
    cases r <;> trivial

theorem returns_settleBlocked (m : Ready) (detail : Text) (u : World) :
    Returns (settleBlocked call m detail) u fun verdict => verdict ≠ .applied := by
  refine Returns.handle ?_ fun failure v =>
    (returns_bestEffort m _ v).bind fun _ _ _ => wp_pure.mpr (by simp)
  refine wp_seq (P := fun _ _ => True) (E := fun _ _ => True) ?_ (fun _ v _ => ?_) fun _ _ _ => trivial
  · refine wp_mono (fun _ ht => ht) (fun r t _ => ?_) (wp_trivial _ u)
    cases r <;> trivial
  · refine wp_pure.mpr ?_
    split_ifs <;> simp

/-- A stretch that does not raise ends the turn without a confirmation. -/
theorem foretells_of_returns {x : Trash Verdict} {own : Checked Bool}
    (h : Returns x u fun verdict => verdict ≠ .applied) : Foretells x u own := by
  refine wp_mono (fun _ ht => ht) (fun r t hr => ?_) h
  cases r with
  | ok verdict => exact fun happlied => absurd happlied hr
  | error e => exact hr.elim

theorem foretells_raise {e : Raised} {own : Checked Bool}
    (h : e.kind.escapes = true → own = .error e) : Foretells (raise e) u own := wp_lift.mpr h

theorem foretold_lift {α : Type} (r : Checked α) :
    Foretold (liftM r) u r fun a b v => a = b ∧ v = u := by
  rw [Foretold, wp_lift]
  cases r with
  | ok a => exact ⟨a, rfl, rfl, rfl⟩
  | error e => exact fun _ => rfl

/-- A write of the ledger, from what the ledger passes on. -/
theorem foretold_commit {fault : Option Fault} {f : Ledger → Checked Ledger} {own : Checked Unit}
    (hrefused : ∀ e, f u.ledger = .error e → e.kind.escapes = true → own = .error e)
    (hdone : ∀ l, f u.ledger = .ok l → own = .ok ()) :
    Foretold (commit fault f) u (written fault own) fun _ _ _ => True := by
  unfold commit transact
  cases fault with
  | none =>
    rw [Foretold, wp_read_bind, wp_bind, wp_lift]
    cases hf : f u.ledger with
    | error e =>
      simp only [hf, Except.map, onEnd_error]
      exact hrefused e hf
    | ok l =>
      simp only [hf, Except.map, onEnd_ok, wp_write_bind]
      exact ⟨trivial, wp_pure.mpr ⟨(), hdone l hf, trivial⟩⟩
  | some fault =>
    cases fault with
    | rolledBack e => exact wp_lift.mpr fun _ => rfl
    | committed e =>
      rw [Foretold, wp_read_bind, wp_bind, wp_lift]
      cases hf : f u.ledger with
      | error failure =>
        simp only [hf, Except.map, onEnd_error, written]
        intro hescapes
        rw [hrefused failure hf hescapes, error_bind]
      | ok l =>
        simp only [hf, Except.map, onEnd_ok, wp_write_bind, written]
        refine ⟨trivial, wp_lift.mpr fun _ => ?_⟩
        rw [hdone l hf, ok_bind]

/-- A write inside which the world answers nothing. -/
theorem foretold_write {fault : Option Fault} {f : Ledger → Checked Ledger}
    (h : ∀ e, f u.ledger = .error e → e.kind.escapes = false) :
    Foretold (commit fault f) u (written fault (.ok ())) fun _ _ _ => True := by
  refine foretold_commit (fun e he hescapes => ?_) fun _ _ => rfl
  rw [h e he] at hescapes
  cases hescapes

theorem Foretold.bind {α β : Type} {x : Trash α} {f : α → Trash Verdict} {own : Checked β}
    {next : β → Checked Bool} {P : α → β → World → Prop} (hx : Foretold x u own P)
    (hf : ∀ a b v, P a b v → own = .ok b → Foretells (f a) v (next b)) :
    Foretells (x >>= f) u (own >>= next) := by
  refine wp_seq hx (fun a v ⟨b, hown, hP⟩ => ?_) fun e _ he hescapes => ?_
  · rw [hown, ok_bind]
    exact hf a b v hP hown
  · rw [he hescapes, error_bind]

theorem foretells_skip {α : Type} {x : Trash α} {f : α → Trash Verdict} {own : Checked Bool}
    {P : α → Prop} (hx : Returns x u P) (hf : ∀ a v, P a → Foretells (f a) v own) :
    Foretells (x >>= f) u own :=
  wp_seq hx (fun a v ha => hf a v ha) fun _ _ he => he.elim

/-! ## A turn -/

theorem foretells_settleOutcome (m : Ready) (sourceDigest : Text) (outcome : BackendOutcome) :
    Foretells (settleOutcome o call m planned sourceDigest outcome) u
      (foretoldOutcome o m.toCandidate planned sourceDigest outcome) := by
  have hrecovery : ∀ detail : Text, Foretells
      (do
        commit (m.answers.fault .recovery) fun ledger =>
          ledger.requireFileActionRecovery [m.actionId] detail
        pure .failed) u
      (do
        written (m.answers.fault .recovery) (.ok ())
        pure false) := fun detail =>
    (foretold_write fun _ => Ledger.escapes_finish).bind fun _ _ _ _ _ =>
      wp_pure.mpr fun happlied => nomatch happlied
  unfold settleOutcome foretoldOutcome
  cases outcome.status with
  | applied =>
    cases outcome.receiptJson with
    | none => exact hrecovery _
    | some receipt =>
      dsimp only
      cases validateTrashReceipt o.pathKey o.floatIsOne m.answers.verify receipt planned
          sourceDigest with
      | ok _ =>
        exact (foretold_write fun _ => Ledger.escapes_confirm).bind fun _ _ _ _ _ =>
          wp_pure.mpr fun _ => rfl
      | error e =>
        dsimp only
        split_ifs
        · exact foretells_skip (returns_bestEffort m _ u) fun _ _ _ =>
            wp_pure.mpr fun happlied => nomatch happlied
        · exact foretells_raise fun _ => rfl
  | recoveryRequired => exact hrecovery _
  | blocked => exact foretells_of_returns (returns_settleBlocked m _ u)

theorem returns_invoke (id : ℕ) (removes : Bool) (u : World) :
    Returns (invoke id planned removes) u fun _ => True := by
  unfold invoke
  split_ifs
  · rw [Returns, wp_read_bind]
    exact wp_write.mpr ⟨trivial, trivial⟩
  · exact wp_pure.mpr trivial

theorem foretells_attempt (hids : w.ledger.Ids) {r : ActionRow} (hr : r ∈ w.ledger.actions)
    (hrow : call.IsRow m r) :
    Foretells (attempt o call m planned) w (foretoldAttempt o call m.toCandidate planned) := by
  unfold attempt foretoldAttempt
  refine (foretold_lift _).bind fun sourceDigest _ v ⟨hdigest, hv⟩ _ => ?_
  subst hdigest hv
  refine (foretold_lift _).bind fun expectedJson _ v ⟨_, hv⟩ _ => ?_
  subst hv
  have hmark : Foretold
      (commit (m.answers.fault .frontier) fun ledger =>
        ledger.markFileActionsApplying m.answers.boundary [(m.actionId, expectedJson)]) v
      (written (m.answers.fault .frontier) (m.answers.boundary.answers call.runId))
      fun _ _ _ => True := by
    rw [← hrow.runId, ← hrow.actionId]
    obtain ⟨hrefused, hdone⟩ := Ledger.mark_foretold hids hr
    exact foretold_commit hrefused hdone
  refine hmark.bind fun _ _ v _ _ => foretells_skip (returns_invoke _ _ v) fun _ t _ => ?_
  cases m.answers.reply with
  | raises e => exact foretells_raise fun _ => rfl
  | unsupported => exact foretells_raise fun hescapes => nomatch hescapes
  | outcome outcome => exact foretells_settleOutcome m sourceDigest outcome

/-- The `try` with its handlers raises what they let out. -/
theorem foretells_attemptHandled (hids : w.ledger.Ids) {r : ActionRow} (hr : r ∈ w.ledger.actions)
    (hrow : call.IsRow m r) :
    wp (attemptHandled o call m rest planned) w (fun _ => True)
      (onEnd (fun verdict _ => verdict = .applied →
          foretoldAttempt o call m.toCandidate planned = .ok true)
        fun e _ => e.kind.escapes = true ∧
          foretoldAttempt o call m.toCandidate planned = .error e) := by
  rw [attemptHandled, wp_handle]
  refine wp_mono (fun _ ht => ht) (fun result t hend => ?_) (foretells_attempt hids hr hrow)
  cases result with
  | ok verdict => exact hend
  | error e =>
    rw [onEnd_error] at hend ⊢
    split_ifs with hstops hisolated
    · have hescapes : e.kind.escapes = true := by simp [Kind.escapes, hstops]
      refine wp_seq (returns_bestEffort m _ t) (fun _ v _ => ?_) fun _ _ he => he.elim
      refine wp_seq (returns_finishUninvoked e v) (fun _ x _ => ?_) fun _ _ he => he.elim
      exact wp_lift.mpr ⟨hescapes, hend hescapes⟩
    · refine wp_seq (returns_dropped _ t) (fun _ v _ => ?_) fun _ _ he => he.elim
      exact wp_pure.mpr fun happlied => nomatch happlied
    · have hescapes : e.kind.escapes = true := by simp [Kind.escapes, hisolated]
      exact wp_lift.mpr ⟨hescapes, hend hescapes⟩

/-- **A turn.**  If it confirms its member, the answers foretold it, and if an exception leaves it,
they foretold one. -/
theorem foretells_applyOne (hids : w.ledger.Ids) {r : ActionRow} (hr : r ∈ w.ledger.actions)
    (hrow : call.IsRow m r) :
    wp (applyOne o call m rest) w (fun _ => True)
      (onEnd (fun verdict _ => verdict = .applied → foretold o call m.toCandidate = .ok true)
        fun _ _ => ∃ e, foretold o call m.toCandidate = .error e) := by
  unfold applyOne foretold checkpointBefore
  cases m.answers.checkpoint with
  | error e =>
    refine wp_seq (P := fun _ _ => False) (E := fun _ _ => True) ?_ (fun _ _ h => h.elim)
      fun _ _ _ => ⟨e, rfl⟩
    dsimp only
    split_ifs
    · exact wp_seq (returns_finishUninvoked e w) (fun _ v _ => wp_lift.mpr trivial) fun _ _ he =>
        he.elim
    · exact wp_lift.mpr trivial
  | ok _ =>
    refine wp_seq (P := fun _ v => v = w) (E := fun _ _ => False) (wp_pure.mpr rfl)
      (fun _ v hv => ?_) fun _ _ he => he.elim
    subst hv
    rw [ok_bind]
    cases m.expected with
    | none =>
      refine wp_seq (P := fun _ _ => True) (E := fun _ _ => True) ?_ (fun _ v _ => ?_)
        fun _ _ _ => ⟨_, rfl⟩
      · refine wp_mono (fun _ ht => ht) (fun r t _ => ?_) (wp_trivial _ v)
        cases r <;> trivial
      · exact wp_pure.mpr fun happlied => nomatch happlied
    | some planned =>
      refine wp_mono (fun _ ht => ht) (fun result t hend => ?_)
        (foretells_attemptHandled hids hr hrow)
      cases result with
      | ok verdict =>
        intro happlied
        dsimp only
        rw [hend happlied]
        rfl
      | error e =>
        obtain ⟨hescapes, hforetold⟩ := hend
        refine ⟨e, ?_⟩
        dsimp only
        rw [hforetold]
        exact if_pos hescapes

end TrashCall

end Actions
end Neocortex
