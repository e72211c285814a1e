import Neocortex.Actions.Trash
import Neocortex.Actions.Transitions

/-!
# The ledger is ahead of the Trash

Whenever the backend has removed a file, the row of its action says so: it is `applying`,
`applied` or `recovery_required` and has the identity of the file.  `Holds` is this invariant, and
with it what a call may not undo and why a row is `applied`; every piece of `_apply_trash_batch`
keeps it.

The one dangerous transition is from `applying` to `skipped`.  `Pending` says of a candidate that
the backend has not been given that the transition would be right; a call begins with pending
candidates if it does not take up an action whose file is gone already (`Fresh`).

* `keeps_commit_finish`, `keeps_commit_mark`, `keeps_commit_confirm`: the transactions;
* `keeps_applyOne`, `keeps_applyTrashBackendBatch`: the two ways to the backend;
* `write_ahead`: every run, cut anywhere.
-/

namespace Neocortex
namespace Actions

open Python Checks Durable

/-! ## The invariant -/

/-- The row says that the frontier has been crossed. -/
def ActionStatus.Crossed (s : ActionStatus) : Prop :=
  s = .applying ∨ s = .applied ∨ s = .recoveryRequired

/-- The backend has removed the file of the action. -/
def World.Removed (w : World) (id : ℕ) : Prop := id ∈ w.removed.map Prod.fst

/-- The ledger is sound and ahead of the backend. -/
structure World.Ahead (w : World) : Prop where
  sound : w.ledger.Sound
  removals : ∀ x ∈ w.removed, ∃ r ∈ w.ledger.actions, r.actionId = x.1 ∧ r.status.Crossed ∧
    ∃ text, x.2.identityText? r.spec.sourcePath = some text ∧ r.expectedIdentityJson = some text

namespace TrashCall

variable (o : Outside) (call : TrashCall)

/-- A candidate of the call. -/
def Offers (c : Candidate) : Prop :=
  ∃ expected references, call.normalizeTrashSnapshots = .ok (expected, references) ∧
    c ∈ call.candidates expected references

/-- The row has a receipt that passed `_validate_trash_receipt` for its own candidate. -/
def Receipted (r : ActionRow) : Prop :=
  ∃ c planned sourceDigest receipt, call.Offers c ∧ r.runId = call.runId ∧ r.spec = call.specOf c ∧
    c.expected = some planned ∧ sourceEvidence c = .ok sourceDigest ∧
    r.effectReceiptJson = some receipt ∧
    validateTrashReceipt o.pathKey o.floatIsOne c.answers.verify receipt planned sourceDigest =
      .ok ()

/-- What holds all along a call that began in `w₀`. -/
structure Holds (w₀ w : World) : Prop where
  ahead : w.Ahead
  kept : w₀.ledger.Extends w.ledger
  receipted : ∀ r ∈ w.ledger.actions, r.status = .applied →
    r ∈ w₀.ledger.actions ∨ call.Receipted o r

/-- The row of a candidate. -/
structure IsRow (m : Ready) (r : ActionRow) : Prop where
  actionId : r.actionId = m.actionId
  runId : r.runId = call.runId
  spec : r.spec = call.specOf m.toCandidate

/-- The candidate has its row, and the row is not open on a file that is gone. -/
structure Pending (w : World) (m : Ready) : Prop where
  offered : call.Offers m.toCandidate
  row : ∃ r ∈ w.ledger.actions, call.IsRow m r ∧ (r.status = .applying → ¬ w.Removed m.actionId)

variable {o call} {w₀ w : World} {l : Ledger} {P : ActionRow → ActionRow → Prop}

/-- The moves that keep the invariant. -/
structure Tame (o : Outside) (call : TrashCall) (w : World) (P : ActionRow → ActionRow → Prop) :
    Prop where
  skipped : ∀ r r', P r r' → r.status = .applying → r'.status = .skipped → ¬ w.Removed r.actionId
  identity : ∀ r r', P r r' → r.status = .applying →
    r'.expectedIdentityJson = r.expectedIdentityJson
  applied : ∀ r r', P r r' → r'.status = .applied → call.Receipted o r'

/-- A row on the safe side stays there. -/
theorem crossed_of_move {r r' : ActionRow} (hstep : r'.status ∈ r.status.transitions)
    (hr : r.status.Crossed) : r.status = .applying ∧ (r'.status.Crossed ∨ r'.status = .skipped) := by
  rcases hr with hr | hr | hr
  · rw [hr] at hstep
    simp only [ActionStatus.transitions, List.mem_cons, List.not_mem_nil, or_false] at hstep
    rcases hstep with h | h | h <;> simp [hr, h, ActionStatus.Crossed]
  · rw [hr] at hstep
    cases hstep
  · rw [hr] at hstep
    cases hstep

theorem Holds.edit (h : Holds o call w₀ w) (hP : Tame o call w P)
    (hedit : Ledger.Edit P w.ledger l) : Holds o call w₀ { w with ledger := l } := by
  refine ⟨⟨hedit.sound h.ahead.sound, fun x hx => ?_⟩, h.kept.trans hedit.extends,
    fun a ha happlied => ?_⟩
  · obtain ⟨a, ha, hid, hcrossed, hidentity⟩ := h.ahead.removals x hx
    have hremoved : w.Removed a.actionId := hid ▸ List.mem_map_of_mem hx
    generalize hl : w.ledger = old at *
    cases hedit with
    | @move before after events r r' e same step eid source target holds =>
      simp only [List.mem_append, List.mem_cons] at ha ⊢
      rcases ha with ha | rfl | ha
      · exact ⟨a, .inl ha, hid, hcrossed, hidentity⟩
      · obtain ⟨happlying, hto | hto⟩ := crossed_of_move step hcrossed
        · refine ⟨r', .inr (.inl rfl), same.actionId.trans hid, hto, ?_⟩
          rw [hP.identity a r' holds happlying, same.spec]
          exact hidentity
        · exact absurd hremoved (hP.skipped a r' holds happlying hto)
      · exact ⟨a, .inr (.inr ha), hid, hcrossed, hidentity⟩
    | opened fresh status eid source target =>
      exact ⟨a, List.mem_append_left _ ha, hid, hcrossed, hidentity⟩
  · have hrec := h.receipted
    generalize hl : w.ledger = old at *
    cases hedit with
    | @move before after events r r' e same step eid source target holds =>
      simp only [List.mem_append, List.mem_cons] at ha hrec
      rcases ha with ha | rfl | ha
      · exact hrec a (.inl ha) happlied
      · exact .inr (hP.applied r a holds happlied)
      · exact hrec a (.inr (.inr ha)) happlied
    | opened fresh status eid source target =>
      rcases List.mem_append.mp ha with ha | ha
      · exact hrec a ha happlied
      · rw [List.mem_singleton.mp ha, status] at happlied
        cases happlied

theorem Holds.edits (h : Holds o call w₀ w) (hP : Tame o call w P)
    (hedits : Ledger.Edits P w.ledger l) : Holds o call w₀ { w with ledger := l } := by
  induction hedits with
  | refl => exact h
  | tail _ hedit ih =>
    exact ih.edit (w := { w with ledger := _ }) ⟨hP.skipped, hP.identity, hP.applied⟩ hedit

/-! ## Transactions -/

theorem wp_transact {α : Type} {fault : Option Fault} {f : Ledger → Checked (α × Ledger)}
    {C : World → Prop} {Q : Except Raised α → World → Prop} (herr : ∀ e, Q (.error e) w)
    (hok : ∀ a l, f w.ledger = .ok (a, l) →
      C { w with ledger := l } ∧ Q (.ok a) { w with ledger := l } ∧
        ∀ e, fault = some (.committed e) → Q (.error e) { w with ledger := l }) :
    wp (transact fault f) w C Q := by
  unfold transact
  cases fault with
  | some fault =>
    cases fault with
    | rolledBack e => exact wp_lift.mpr (herr e)
    | committed e =>
      rw [wp_read_bind]
      refine wp_check herr fun x hx => ?_
      obtain ⟨hC, -, hlate⟩ := hok x.1 x.2 hx
      rw [wp_write_bind]
      exact ⟨hC, wp_lift.mpr (hlate e rfl)⟩
  | none =>
    rw [wp_read_bind]
    refine wp_check herr fun x hx => ?_
    obtain ⟨hC, hQ, -⟩ := hok x.1 x.2 hx
    rw [wp_write_bind]
    exact ⟨hC, wp_pure.mpr hQ⟩

theorem wp_commit {fault : Option Fault} {f : Ledger → Checked Ledger} {C : World → Prop}
    {Q : Except Raised Unit → World → Prop} (herr : ∀ e, Q (.error e) w)
    (hok : ∀ l, f w.ledger = .ok l →
      C { w with ledger := l } ∧ Q (.ok ()) { w with ledger := l } ∧
        ∀ e, fault = some (.committed e) → Q (.error e) { w with ledger := l }) :
    wp (commit fault f) w C Q := by
  refine wp_transact herr fun a l h => hok l ?_
  cases hf : f w.ledger with
  | error e => simp [hf, Except.map] at h
  | ok l' =>
    simp only [hf, Except.map, Except.ok.injEq, Prod.mk.injEq] at h
    rw [h.2]

/-- Finishing is tame, if a skip is right. -/
theorem tame_finish {ids : List ℕ} {status : ActionStatus} {detail : Option Text}
    (happlied : status ≠ .applied)
    (hskip : status = .skipped → ∀ r ∈ w.ledger.actions, r.actionId ∈ ids →
      r.status = .applying → ¬ w.Removed r.actionId) :
    Tame o call w (Ledger.Traced (Ledger.Finished ids status detail) w.ledger) := by
  refine ⟨fun r r' h hr hr' => ?_, fun r r' h _ => ?_, fun r r' h hr' => ?_⟩
  · obtain ⟨hid, rfl⟩ := h.move
    rcases h.origin with hmem | ⟨q, -, rfl⟩ | hstarted
    · exact hskip hr' r hmem hid hr
    · exact absurd (hr.symm.trans hr') (by decide)
    · exact absurd (hr.symm.trans hstarted) (by decide)
  · rw [h.move.2]
  · rw [h.move.2] at hr'
    exact absurd hr' happlied

theorem tame_mark {actions : List (ℕ × Text)} : Tame o call w (Ledger.Marked actions) := by
  refine ⟨?_, ?_, ?_⟩
  · rintro r r' ⟨json, -, -, rfl⟩ - h
    cases h
  · rintro r r' ⟨json, -, hstarted, -⟩ h
    exact absurd (h.symm.trans hstarted) (by decide)
  · rintro r r' ⟨json, -, -, rfl⟩ h
    cases h

/-- Confirming is tame, if the receipts are accepted. -/
theorem tame_confirm {actions : List (ℕ × Text)}
    (hreceipts : ∀ r ∈ w.ledger.actions, ∀ receipt, (r.actionId, receipt) ∈ actions →
      call.Receipted o { r with
        status := .applied, detail := none, effectReceiptJson := some receipt }) :
    Tame o call w (Ledger.Traced (Ledger.Confirmed actions) w.ledger) := by
  refine ⟨fun r r' h _ hr' => ?_, fun r r' h _ => ?_, fun r r' h _ => ?_⟩
  · obtain ⟨receipt, -, -, rfl⟩ := h.move
    cases hr'
  · obtain ⟨receipt, -, -, rfl⟩ := h.move
    rfl
  · obtain ⟨receipt, hmem, happlying, rfl⟩ := h.move
    rcases h.origin with hr | ⟨q, receipt', -, -, rfl⟩ | hstarted
    · exact hreceipts r hr receipt hmem
    · cases happlying
    · exact absurd (happlying.symm.trans hstarted) (by decide)

/-- Opening actions is tame. -/
theorem tame_unmoved : Tame o call w Ledger.Unmoved :=
  ⟨fun _ _ h => h.elim, fun _ _ h => h.elim, fun _ _ h => h.elim⟩

/-! ## One member -/

/-- Nothing but the rows and the files of some actions has changed. -/
def Touches (ids : List ℕ) (w t : World) : Prop :=
  (∃ P, Ledger.Edits P w.ledger t.ledger ∧ ∀ q r, P q r → r.actionId ∈ ids) ∧
    ∀ x ∈ t.removed, x ∈ w.removed ∨ x.1 ∈ ids

theorem Touches.refl (ids : List ℕ) (w : World) : Touches ids w w :=
  ⟨⟨Ledger.Unmoved, .refl, fun _ _ h => h.elim⟩, fun _ hx => .inl hx⟩

theorem Touches.mono {ids ids' : List ℕ} {t : World} (h : Touches ids w t) (hsub : ids ⊆ ids') :
    Touches ids' w t :=
  ⟨h.1.imp fun _ hP => ⟨hP.1, fun q r hqr => hsub (hP.2 q r hqr)⟩,
    fun x hx => (h.2 x hx).imp_right fun hid => hsub hid⟩

theorem Touches.trans {ids : List ℕ} {u v : World} (h : Touches ids w u) (h' : Touches ids u v) :
    Touches ids w v := by
  obtain ⟨⟨P, hP, hPid⟩, hremoved⟩ := h
  obtain ⟨⟨Q, hQ, hQid⟩, hremoved'⟩ := h'
  refine ⟨⟨fun q r => P q r ∨ Q q r, (hP.mono fun _ _ => .inl).trans (hQ.mono fun _ _ => .inr),
    fun q r hqr => hqr.elim (hPid q r) (hQid q r)⟩, fun x hx => ?_⟩
  rcases hremoved' x hx with hx | hx
  · exact hremoved x hx
  · exact .inr hx

/-- Another candidate stays pending. -/
theorem Pending.touches {m : Ready} {ids : List ℕ} {t : World} (h : Pending call w m)
    (hne : m.actionId ∉ ids) (ht : Touches ids w t) : Pending call t m := by
  obtain ⟨⟨P, hedits, hP⟩, hremoved⟩ := ht
  obtain ⟨r, hr, hrow, hopen⟩ := h.row
  obtain ⟨r', hr', hsame, hwhy⟩ := Ledger.Edits.row hedits r hr
  have hid : r'.actionId = m.actionId := hsame.actionId.trans hrow.actionId
  refine ⟨h.offered, r', hr', ⟨hid, hsame.runId.trans hrow.runId, hsame.spec.trans hrow.spec⟩,
    fun happlying hgone => ?_⟩
  rcases hwhy with rfl | ⟨q, hq⟩
  · obtain ⟨x, hx, hxid⟩ := List.mem_map.mp hgone
    rcases hremoved x hx with hx | hx
    · exact hopen happlying (List.mem_map.mpr ⟨x, hx, hxid⟩)
    · exact hne (hxid ▸ hx)
  · exact hne (hid ▸ hP q r' hq)

/-- The invariant, while one member is worked on. -/
structure Near (o : Outside) (call : TrashCall) (w₀ w : World) (id : ℕ) (t : World) : Prop where
  holds : Holds o call w₀ t
  touches : Touches [id] w t

/-- The row of a member that is worked on. -/
theorem Near.row {m : Ready} {t : World} (h : Near o call w₀ w m.actionId t)
    (hm : Pending call w m) : ∃ r ∈ t.ledger.actions, call.IsRow m r := by
  obtain ⟨⟨P, hedits, hP⟩, -⟩ := h.touches
  obtain ⟨r, hr, hrow, -⟩ := hm.row
  obtain ⟨r', hr', hsame, -⟩ := Ledger.Edits.row hedits r hr
  exact ⟨r', hr', hsame.actionId.trans hrow.actionId, hsame.runId.trans hrow.runId,
    hsame.spec.trans hrow.spec⟩

theorem Near.edits {id : ℕ} {t : World} (h : Near o call w₀ w id t) (hP : Tame o call t P)
    (hedits : Ledger.Edits P t.ledger l) (hid : ∀ q r, P q r → r.actionId = id) :
    Near o call w₀ w id { t with ledger := l } :=
  ⟨h.holds.edits hP hedits, h.touches.trans
    ⟨⟨P, hedits, fun q r hqr => List.mem_singleton.mpr (hid q r hqr)⟩, fun _ hx => .inl hx⟩⟩

theorem near_finish {id : ℕ} {t : World} {fault : Option Fault} {detail : Option Text}
    (status : ActionStatus) (h : Near o call w₀ w id t) (happlied : status ≠ .applied)
    (hskip : status = .skipped → ∀ r ∈ t.ledger.actions, r.actionId = id → r.status = .applying →
      ¬ t.Removed id) :
    wp (commit fault fun ledger => ledger.finishFileActions [id] status detail) t
      (Near o call w₀ w id)
      (onEnd (fun _ u => Near o call w₀ w id u) fun _ u => Near o call w₀ w id u) := by
  refine wp_commit (fun _ => h) fun l hl => ?_
  have hids := h.holds.ahead.sound.ids
  have hnear : Near o call w₀ w id { t with ledger := l } := by
    refine h.edits (tame_finish happlied fun hstatus r hmem hr happlying => ?_)
      (Ledger.Edits.traced hids (Ledger.edits_finish hids hl)) fun q r hqr => ?_
    · have hid := List.mem_singleton.mp hr
      exact hid ▸ hskip hstatus r hmem hid happlying
    · rw [hqr.move.2]
      exact List.mem_singleton.mp hqr.move.1
  exact ⟨hnear, hnear, fun _ _ => hnear⟩

section Member

variable {m : Ready} {rest : List Ready} {t : World} {planned : FileSnapshot} {sourceDigest : Text}

theorem keeps_raise {α : Type} {I : World → Prop} {Q : α → World → Prop} {e : Raised} (h : I t) :
    Keeps I (raise e : Trash α) t Q :=
  Keeps.lift h fun _ hok => nomatch hok

theorem keeps_bestEffort {detail : Text} (h : Near o call w₀ w m.actionId t) :
    Keeps (Near o call w₀ w m.actionId) (bestEffortRequireRecovery m detail) t
      fun _ _ => True := by
  refine Keeps.handle (E := fun _ u => Near o call w₀ w m.actionId u) ?_ fun _ _ hu =>
    Keeps.pure hu trivial
  refine wp_mono (fun _ hu => hu) (fun r u hr => ?_)
    (near_finish .recoveryRequired h (by decide) fun hstatus => nomatch hstatus)
  cases r with
  | error e => exact hr
  | ok a => exact ⟨hr, trivial⟩

/-- A member that the backend blocked. -/
theorem keeps_settleBlocked {detail : Text} (h : Near o call w₀ w m.actionId t)
    (hkept : ¬ t.Removed m.actionId) :
    Keeps (Near o call w₀ w m.actionId) (settleBlocked call m detail) t
      fun verdict _ => (verdict = .uncounted → call.isRedlist = true) ∧ verdict ≠ .applied := by
  refine Keeps.handle (E := fun _ u => Near o call w₀ w m.actionId u) ?_ fun _ u hu => ?_
  · refine wp_seq (near_finish .skipped h (by decide) fun _ _ _ _ _ => hkept) (fun _ u hu => ?_) fun e u hu => hu
    refine wp_pure.mpr ⟨hu, ?_⟩
    by_cases hred : call.isRedlist = true
    · rw [if_pos hred]
      exact ⟨fun _ => hred, by decide⟩
    · rw [if_neg hred]
      exact ⟨fun hverdict => (nomatch hverdict), by decide⟩
  · refine (keeps_bestEffort hu).bind fun _ v hv _ => ?_
    exact Keeps.pure hv ⟨fun hverdict => (nomatch hverdict), by decide⟩

/-- The receipt of a member is accepted. -/
theorem receipted_of_valid {r : ActionRow} {receipt : Text} (hoffer : call.Offers m.toCandidate)
    (hrow : call.IsRow m r) (hplanned : m.expected = some planned)
    (hdigest : sourceEvidence m.toCandidate = .ok sourceDigest)
    (hvalid : validateTrashReceipt o.pathKey o.floatIsOne m.answers.verify receipt planned
      sourceDigest = .ok ()) :
    call.Receipted o { r with
      status := .applied, detail := none, effectReceiptJson := some receipt } :=
  ⟨m.toCandidate, planned, sourceDigest, receipt, hoffer, hrow.runId, hrow.spec, hplanned, hdigest,
    rfl, hvalid⟩

theorem near_confirm {receipt : Text} {fault : Option Fault} (hm : Pending call w m)
    (h : Near o call w₀ w m.actionId t) (hplanned : m.expected = some planned)
    (hdigest : sourceEvidence m.toCandidate = .ok sourceDigest)
    (hvalid : validateTrashReceipt o.pathKey o.floatIsOne m.answers.verify receipt planned
      sourceDigest = .ok ()) :
    Keeps (Near o call w₀ w m.actionId)
      (commit fault fun ledger => ledger.confirmFileActionsApplied [(m.actionId, receipt)]) t
      fun _ _ => True := by
  refine wp_commit (fun _ => h) fun l hl => ?_
  have hids := h.holds.ahead.sound.ids
  obtain ⟨row, hrow, hisRow⟩ := h.row hm
  have hnear : Near o call w₀ w m.actionId { t with ledger := l } := by
    refine h.edits (tame_confirm fun r hr receipt' hmem => ?_)
      (Ledger.Edits.traced hids (Ledger.edits_confirm hids hl)) fun q r hqr => ?_
    · obtain ⟨hid, rfl⟩ := Prod.mk.inj (List.mem_singleton.mp hmem)
      obtain rfl := hids.unique.eq hr hrow (hid.trans hisRow.actionId.symm)
      exact receipted_of_valid hm.offered hisRow hplanned hdigest hvalid
    · obtain ⟨receipt', hmem, -, rfl⟩ := hqr.move
      exact (Prod.mk.inj (List.mem_singleton.mp hmem)).1
  exact ⟨hnear, ⟨hnear, trivial⟩, fun _ _ => hnear⟩

/-- The member is given to recovery. -/
theorem keeps_recovery {fault : Option Fault} {detail : Text}
    (h : Near o call w₀ w m.actionId t) :
    Keeps (Near o call w₀ w m.actionId)
      (commit fault fun ledger => ledger.requireFileActionRecovery [m.actionId] detail) t
      fun _ _ => True := by
  refine wp_mono (fun _ hu => hu) (fun r u hr => ?_)
    (near_finish .recoveryRequired h (by decide) fun hstatus => nomatch hstatus)
  cases r with
  | error e => exact hr
  | ok a => exact ⟨hr, trivial⟩

/-- A failure keeps the invariant: only an action that has not crossed the frontier can fail. -/
theorem keeps_failed {fault : Option Fault} {detail : Option Text}
    (h : Near o call w₀ w m.actionId t) :
    Keeps (Near o call w₀ w m.actionId)
      (commit fault fun ledger => ledger.finishFileActions [m.actionId] .failed detail) t
      fun _ _ => True := by
  refine wp_mono (fun _ hu => hu) (fun r u hr => ?_)
    (near_finish .failed h (by decide) fun hstatus => nomatch hstatus)
  cases r with
  | error e => exact hr
  | ok a => exact ⟨hr, trivial⟩

/-- A candidate that is pending may be skipped. -/
theorem keeps_skipped {fault : Option Fault} {detail : Option Text} (h : Holds o call w₀ w)
    (hm : Pending call w m) :
    Keeps (Near o call w₀ w m.actionId)
      (commit fault fun ledger => ledger.finishFileActions [m.actionId] .skipped detail) w
      fun _ _ => True := by
  have hnear : Near o call w₀ w m.actionId w := ⟨h, .refl _ _⟩
  refine wp_mono (fun _ hu => hu) (fun r u hr => ?_)
    (near_finish .skipped hnear (by decide) fun _ r hr hid happlying => ?_)
  · cases r with
    | error e => exact hr
    | ok a => exact ⟨hr, trivial⟩
  · obtain ⟨row, hrow, hisRow, hopen⟩ := hm.row
    obtain rfl := h.ahead.sound.ids.unique.eq hr hrow (hid.trans hisRow.actionId.symm)
    exact hopen happlying

theorem keeps_settleOutcome {outcome : BackendOutcome} (hm : Pending call w m)
    (h : Near o call w₀ w m.actionId t) (hplanned : m.expected = some planned)
    (hdigest : sourceEvidence m.toCandidate = .ok sourceDigest)
    (hkept : outcome.status = .blocked → ¬ t.Removed m.actionId) :
    Keeps (Near o call w₀ w m.actionId) (settleOutcome o call m planned sourceDigest outcome) t
      fun verdict _ => verdict = .uncounted → call.isRedlist = true := by
  unfold settleOutcome
  cases hstatus : outcome.status with
  | applied =>
    cases hreceipt : outcome.receiptJson with
    | none =>
      refine (keeps_recovery h).bind fun _ u hu _ => ?_
      exact Keeps.pure hu fun hverdict => nomatch hverdict
    | some receipt =>
      dsimp only
      cases hvalid : validateTrashReceipt o.pathKey o.floatIsOne m.answers.verify receipt planned
          sourceDigest with
      | ok _ =>
        refine (near_confirm hm h hplanned hdigest hvalid).bind fun _ u hu _ => ?_
        exact Keeps.pure hu fun hverdict => nomatch hverdict
      | error e =>
        dsimp only
        split_ifs
        · refine (keeps_bestEffort h).bind fun _ u hu _ => ?_
          exact Keeps.pure hu fun hverdict => nomatch hverdict
        · exact keeps_raise h
  | recoveryRequired =>
    refine (keeps_recovery h).bind fun _ u hu _ => ?_
    exact Keeps.pure hu fun hverdict => nomatch hverdict
  | blocked => exact (keeps_settleBlocked h (hkept hstatus)).mono fun _ _ _ hverdict => hverdict.1

/-- A member whose row is at the frontier, for a file that is still there. -/
structure AtFrontier (call : TrashCall) (m : Ready) (planned : FileSnapshot) (t : World) : Prop where
  kept : ¬ t.Removed m.actionId
  row : ∃ r ∈ t.ledger.actions, call.IsRow m r ∧ r.status = .applying ∧
    ∃ text, planned.identityText? m.path = some text ∧ r.expectedIdentityJson = some text

theorem identityText_eq_ok {text path : Text} (h : planned.identityText path = .ok text) :
    planned.identityText? path = some text := by
  unfold FileSnapshot.identityText at h
  cases htext : planned.identityText? path with
  | none => simp [htext] at h
  | some text' =>
    simp only [htext, Except.ok.injEq] at h
    rw [h]

/-- A row that has started is not that of a file that is gone. -/
theorem Holds.kept_of_started (h : Holds o call w₀ w) {r : ActionRow} (hr : r ∈ w.ledger.actions)
    (hstarted : r.status = .started) : ¬ w.Removed r.actionId := by
  intro hremoved
  obtain ⟨x, hx, hid⟩ := List.mem_map.mp hremoved
  obtain ⟨a, ha, haid, hcrossed, -⟩ := h.ahead.removals x hx
  obtain rfl := h.ahead.sound.ids.unique.eq ha hr (haid.trans hid)
  rcases hcrossed with hc | hc | hc <;> exact absurd (hstarted.symm.trans hc) (by decide)

/-- One member crosses the frontier. -/
theorem keeps_frontier {text : Text} {fault : Option Fault} {boundary : Ledger.Boundary}
    (hm : Pending call w m) (h : Near o call w₀ w m.actionId t)
    (htext : planned.identityText m.path = .ok text) :
    Keeps (Near o call w₀ w m.actionId)
      (commit fault fun ledger => ledger.markFileActionsApplying boundary [(m.actionId, text)]) t
      fun _ u => AtFrontier call m planned u := by
  refine wp_commit (fun _ => h) fun l hl => ?_
  have hids := h.holds.ahead.sound.ids
  have hnear : Near o call w₀ w m.actionId { t with ledger := l } := by
    refine h.edits tame_mark (Ledger.edits_mark hids hl) ?_
    rintro q r ⟨json, hmem, -, rfl⟩
    exact (Prod.mk.inj (List.mem_singleton.mp hmem)).1
  obtain ⟨-, hrows⟩ := Ledger.mark_rows hids (Ledger.markFileActionsApplying_eq_ok hl)
  obtain ⟨r, hr, hid, hstarted, hmarked⟩ := hrows _ (List.mem_singleton.mpr rfl)
  obtain ⟨row, hrow, hisRow⟩ := h.row hm
  obtain rfl := hids.unique.eq hr hrow (hid.trans hisRow.actionId.symm)
  refine ⟨hnear, ⟨hnear, ?_, _, hmarked, ⟨hisRow.actionId, hisRow.runId, hisRow.spec⟩, rfl, text,
    identityText_eq_ok htext, rfl⟩, fun _ _ => hnear⟩
  rw [← hisRow.actionId]
  exact h.holds.kept_of_started hr hstarted

/-- The backend takes a member that is at the frontier. -/
theorem Holds.invoked (h : Holds o call w₀ t) (hm : AtFrontier call m planned t) :
    Holds o call w₀ { t with removed := t.removed ++ [(m.actionId, planned)] } := by
  refine ⟨⟨h.ahead.sound, fun x hx => ?_⟩, h.kept, h.receipted⟩
  rcases List.mem_append.mp hx with hx | hx
  · exact h.ahead.removals x hx
  · obtain rfl := List.mem_singleton.mp hx
    obtain ⟨r, hr, hrow, happlying, text, htext, hidentity⟩ := hm.row
    refine ⟨r, hr, hrow.actionId, .inl happlying, text, ?_, hidentity⟩
    rw [hrow.spec]
    exact htext

theorem keeps_invoke {removes : Bool} (h : Near o call w₀ w m.actionId t)
    (hm : AtFrontier call m planned t) :
    Keeps (Near o call w₀ w m.actionId) (invoke m.actionId planned removes) t
      fun _ u => removes = false → ¬ u.Removed m.actionId := by
  unfold invoke
  cases removes with
  | false => exact Keeps.pure h fun _ => hm.kept
  | true =>
    rw [if_pos rfl, Keeps, wp_read_bind]
    refine Keeps.write ⟨h.holds.invoked hm, h.touches.trans
      ⟨⟨Ledger.Unmoved, .refl, fun _ _ hP => hP.elim⟩, fun x hx => ?_⟩⟩ fun hremoves => ?_
    · rcases List.mem_append.mp hx with hx | hx
      · exact .inl hx
      · exact .inr (List.mem_singleton.mpr (congrArg Prod.fst (List.mem_singleton.mp hx)))
    · cases hremoves

/-- A backend for single candidates says `blocked` only of files that it leaves. -/
def HonestReply (a : Answers) : Prop :=
  ∀ outcome, a.reply = .outcome outcome →
    (outcome.status = .blocked → a.removes = false) ∧
      (outcome.status = .applied → a.removes = true)

theorem keeps_attempt (hm : Pending call w m) (h : Near o call w₀ w m.actionId t)
    (hplanned : m.expected = some planned) (hhonest : HonestReply m.answers) :
    Keeps (Near o call w₀ w m.actionId) (attempt o call m planned) t
      fun verdict _ => verdict = .uncounted → call.isRedlist = true := by
  unfold attempt
  refine (Keeps.lift (P := fun d _ => sourceEvidence m.toCandidate = .ok d) h
    fun _ hd => hd).bind fun sourceDigest u hu hdigest => ?_
  refine (Keeps.lift (P := fun text _ => planned.identityText m.path = .ok text) hu
    fun _ ht => ht).bind fun text u hu htext => ?_
  refine (keeps_frontier hm hu htext).bind fun _ u hu hfrontier => ?_
  refine (keeps_invoke hu hfrontier).bind fun _ u hu hremoved => ?_
  cases hreply : m.answers.reply with
  | raises e => exact keeps_raise hu
  | unsupported => exact keeps_raise hu
  | outcome outcome =>
    exact keeps_settleOutcome hm hu hplanned hdigest fun hblocked =>
      hremoved ((hhonest outcome hreply).1 hblocked)

theorem keeps_closeFailed {e : Raised} (h : Near o call w₀ w m.actionId t) :
    Keeps (Near o call w₀ w m.actionId) (closeFailed m e) t fun _ _ => True := by
  unfold closeFailed
  rw [Keeps, wp_read_bind]
  split
  · exact keeps_recovery h
  · exact keeps_failed h
  · exact Keeps.pure h trivial

theorem keeps_isolate {e : Raised} (h : Near o call w₀ w m.actionId t) :
    Keeps (Near o call w₀ w m.actionId) (isolate m e) t fun _ _ => True := by
  refine Keeps.handle (E := fun _ u => Near o call w₀ w m.actionId u) ?_
    fun _ u hu => Keeps.pure hu trivial
  cases m.answers.fault .read with
  | some failure => exact keeps_raise h
  | none => exact keeps_closeFailed h

/-- Candidates that the backend has not been given are skipped, or left to recovery. -/
theorem keeps_finishUninvoked {ready : List Ready} {e : Raised} (h : Holds o call w₀ t)
    (hready : ∀ m ∈ ready, Pending call t m) :
    Keeps (Holds o call w₀) (finishUninvokedTrashActions call ready e) t fun _ _ => True := by
  have hids := h.ahead.sound.ids
  unfold finishUninvokedTrashActions
  split_ifs
  · exact Keeps.pure h trivial
  · refine Keeps.handle (E := fun _ u => Holds o call w₀ u) ?_ fun failure u hu => ?_
    · refine wp_commit (fun _ => h) fun l hl => ?_
      have hnext : Holds o call w₀ { t with ledger := l } := by
        refine h.edits (tame_finish (by decide) fun _ r hr hmem happlying => ?_)
          (Ledger.Edits.traced hids (Ledger.edits_finish hids hl))
        obtain ⟨m, hm, hid⟩ := List.mem_map.mp hmem
        obtain ⟨row, hrow, hisRow, hopen⟩ := (hready m hm).row
        obtain rfl := hids.unique.eq hr hrow (hid.symm.trans hisRow.actionId.symm)
        exact hid ▸ hopen happlying
      exact ⟨hnext, ⟨hnext, trivial⟩, fun _ _ => hnext⟩
    · have huids := hu.ahead.sound.ids
      refine Keeps.handle (E := fun _ v => Holds o call w₀ v) ?_
        fun _ v hv => Keeps.pure hv trivial
      refine wp_commit (fun _ => hu) fun l hl => ?_
      have hnext : Holds o call w₀ { u with ledger := l } := by
        refine hu.edits ?_ (Ledger.Edits.traced huids
          (@Ledger.edits_finish _ _ huids _ .recoveryRequired _ hl))
        exact tame_finish (by decide) fun hstatus => nomatch hstatus
      exact ⟨hnext, ⟨hnext, trivial⟩, fun _ _ => hnext⟩

/-- What is near the invariant keeps it. -/
theorem keeps_near {α : Type} {x : Trash α} {id : ℕ} {s : World} {Q : α → World → Prop}
    (h : Keeps (Near o call w₀ w id) x s Q) :
    Keeps (Holds o call w₀) x s fun a u => Near o call w₀ w id u ∧ Q a u := by
  refine wp_mono (fun _ hu => hu.holds) (fun r u hr => ?_) h
  cases r with
  | error e => exact hr.holds
  | ok a => exact ⟨hr.1.holds, hr.1, hr.2⟩

/-- The member and the rest of the loop. -/
structure Queued (call : TrashCall) (w : World) (m : Ready) (rest : List Ready) : Prop where
  pending : Pending call w m
  others : ∀ a ∈ rest, Pending call w a ∧ a.actionId ≠ m.actionId

theorem Queued.rest_pending (hq : Queued call w m rest) (ht : Touches [m.actionId] w t) :
    ∀ a ∈ rest, Pending call t a :=
  fun a ha => (hq.others a ha).1.touches (fun hid => (hq.others a ha).2 (List.mem_singleton.mp hid)) ht

theorem keeps_attemptHandled (hq : Queued call w m rest) (h : Holds o call w₀ w)
    (hplanned : m.expected = some planned) (hhonest : HonestReply m.answers) :
    Keeps (Holds o call w₀) (attemptHandled o call m rest planned) w
      fun verdict t => Touches [m.actionId] w t ∧
        (verdict = .uncounted → call.isRedlist = true) := by
  have hnear : Near o call w₀ w m.actionId w := ⟨h, .refl _ _⟩
  refine Keeps.handle (E := fun _ u => Near o call w₀ w m.actionId u) ?_ fun e u hu => ?_
  · refine wp_mono (fun _ hu => hu.holds) (fun r u hr => ?_)
      (keeps_attempt hq.pending hnear hplanned hhonest)
    cases r with
    | error e => exact hr
    | ok a => exact ⟨hr.1.holds, hr.1.touches, hr.2⟩
  · split_ifs
    · refine (keeps_near (keeps_bestEffort hu)).bind fun _ v _ hv => ?_
      refine (keeps_finishUninvoked hv.1.holds (hq.rest_pending hv.1.touches)).bind
        fun _ x hx _ => keeps_raise hx
    · refine (keeps_near (keeps_isolate hu)).bind fun _ v hv hnear => ?_
      exact Keeps.pure hv ⟨hnear.1.touches, fun hverdict => nomatch hverdict⟩
    · exact keeps_raise hu.holds

theorem keeps_checkpointBefore {checkpoint : Checked Unit} {ready : List Ready}
    (h : Holds o call w₀ w) (hready : ∀ m ∈ ready, Pending call w m) :
    Keeps (Holds o call w₀) (checkpointBefore call checkpoint ready) w fun _ u => u = w := by
  unfold checkpointBefore
  cases checkpoint with
  | ok _ => exact Keeps.pure h rfl
  | error e =>
    dsimp only
    split_ifs
    · exact (keeps_finishUninvoked h hready).bind fun _ u hu _ => keeps_raise hu
    · exact keeps_raise h

theorem keeps_applyOne (hq : Queued call w m rest) (h : Holds o call w₀ w)
    (hhonest : HonestReply m.answers) :
    Keeps (Holds o call w₀) (applyOne o call m rest) w
      fun verdict t => Touches [m.actionId] w t ∧
        (verdict = .uncounted → call.isRedlist = true) := by
  unfold applyOne
  have hready : ∀ a ∈ m :: rest, Pending call w a := by
    intro a ha
    rcases List.mem_cons.mp ha with rfl | ha
    · exact hq.pending
    · exact (hq.others a ha).1
  refine (keeps_checkpointBefore h hready).bind fun _ u hu huw => ?_
  subst huw
  cases hexpected : m.expected with
  | none =>
    have hnear : Near o call w₀ u m.actionId u := ⟨h, .refl _ _⟩
    refine (keeps_near (keeps_failed hnear)).bind fun _ v hv hnear => ?_
    exact Keeps.pure hv ⟨hnear.1.touches, fun hverdict => nomatch hverdict⟩
  | some planned => exact keeps_attemptHandled hq h hexpected hhonest

end Member

/-! ## Loops -/

/-- Candidates that wait for the backend, each with a row of its own. -/
structure Waiting (call : TrashCall) (w : World) (ready : List Ready) : Prop where
  pending : ∀ m ∈ ready, Pending call w m
  nodup : (ready.map Ready.actionId).Nodup

section Loops

variable {m : Ready} {ready more : List Ready} {t : World}

theorem Waiting.queued (h : Waiting call w (m :: more)) : Queued call w m more := by
  have hnodup := List.nodup_cons.mp h.nodup
  refine ⟨h.pending m List.mem_cons_self, fun a ha => ⟨h.pending a (List.mem_cons_of_mem _ ha), ?_⟩⟩
  exact fun hsame => hnodup.1 (hsame ▸ List.mem_map_of_mem ha)

theorem Waiting.rest (h : Waiting call w (m :: more)) (ht : Touches [m.actionId] w t) :
    Waiting call t more :=
  ⟨h.queued.rest_pending ht, (List.nodup_cons.mp h.nodup).2⟩

/-- A candidate that does not take part keeps its place in front. -/
theorem Waiting.cons (h : Waiting call w (m :: more)) (ht : Touches (more.map Ready.actionId) w t)
    {going : List Ready} (hgoing : Waiting call t going) (hsub : going.Sublist more) :
    Waiting call t (m :: going) := by
  have hnew : m.actionId ∉ more.map Ready.actionId := (List.nodup_cons.mp h.nodup).1
  refine ⟨fun a ha => ?_, List.nodup_cons.mpr ⟨fun hmem => ?_, hgoing.nodup⟩⟩
  · rcases List.mem_cons.mp ha with rfl | ha
    · exact (h.pending a List.mem_cons_self).touches hnew ht
    · exact hgoing.pending a ha
  · exact hnew ((hsub.map Ready.actionId).subset hmem)

/-- A pass over the candidates: those that go on, and all of them counted. -/
structure PassOf (call : TrashCall) (w : World) (ready : List Ready) (pass : Pass) (t : World) :
    Prop where
  waiting : Waiting call t pass.going
  sub : pass.going.Sublist ready
  touches : Touches (ready.map Ready.actionId) w t
  count : pass.going.length + pass.failures + pass.protections = ready.length

theorem keeps_validateEach {check : Answers → Checked Unit} {site : Site} (h : Holds o call w₀ w)
    (hready : Waiting call w ready) :
    Keeps (Holds o call w₀) (validateEach o call check site ready) w (PassOf call w ready) := by
  induction ready generalizing w with
  | nil => exact Keeps.pure h ⟨hready, .slnil, .refl _ _, rfl⟩
  | cons m rest ih =>
    have hsub : rest.map Ready.actionId ⊆ (m :: rest).map Ready.actionId :=
      List.subset_cons_self _ _
    have hfirst : [m.actionId] ⊆ (m :: rest).map Ready.actionId := by simp
    have hnear : Near o call w₀ w m.actionId w := ⟨h, .refl _ _⟩
    unfold validateEach
    cases check m.answers with
    | ok _ =>
      refine (ih h ⟨fun a ha => hready.pending a (List.mem_cons_of_mem _ ha),
        (List.nodup_cons.mp hready.nodup).2⟩).bind fun pass u hu hpass => ?_
      refine Keeps.pure hu ⟨hready.cons hpass.touches hpass.waiting hpass.sub,
        hpass.sub.cons_cons m, hpass.touches.mono hsub, ?_⟩
      have := hpass.count
      simp only [List.length_cons]
      omega
    | error e =>
      -- the row of the candidate is closed, and the rest of the pass follows
      have hclosed : ∀ u : World, Near o call w₀ w m.actionId u →
          Keeps (Holds o call w₀) (validateEach o call check site rest) u
            fun pass v => PassOf call u rest pass v ∧ Touches [m.actionId] w u := by
        intro u hu
        refine (ih hu.holds (hready.rest hu.touches)).mono fun pass v _ hpass => ?_
        exact ⟨hpass, hu.touches⟩
      dsimp only
      split_ifs
      · exact keeps_raise h
      · refine (keeps_near (keeps_skipped h (hready.pending m List.mem_cons_self))).bind
          fun _ u _ hu => ?_
        refine (hclosed u hu.1).bind fun pass v hv hpass => ?_
        refine Keeps.pure hv ⟨hpass.1.waiting, hpass.1.sub.cons m,
          (hpass.2.mono hfirst).trans (hpass.1.touches.mono hsub), ?_⟩
        have := hpass.1.count
        simp only [List.length_cons]
        omega
      · refine (keeps_near (keeps_failed hnear)).bind fun _ u _ hu => ?_
        refine (hclosed u hu.1).bind fun pass v hv hpass => ?_
        refine Keeps.pure hv ⟨hpass.1.waiting, hpass.1.sub.cons m,
          (hpass.2.mono hfirst).trans (hpass.1.touches.mono hsub), ?_⟩
        have := hpass.1.count
        simp only [List.length_cons]
        omega
      · exact keeps_raise h

/-- How many candidates a tally has counted. -/
def Tally.total (tally : Tally) : ℕ := tally.applied + tally.failed + tally.protections

theorem Tally.total_count {tally : Tally} {path : Text} {verdict : Verdict}
    (h : verdict ≠ .uncounted) : (tally.count path verdict).total = tally.total + 1 := by
  cases verdict with
  | applied =>
    simp only [count, total]
    omega
  | failed =>
    simp only [count, total]
    omega
  | preserved =>
    simp only [count, total]
    omega
  | uncounted => exact absurd rfl h

theorem keeps_applyEach {tally : Tally} (h : Holds o call w₀ w) (hready : Waiting call w ready)
    (hhonest : ∀ m ∈ ready, HonestReply m.answers) :
    Keeps (Holds o call w₀) (applyEach o call ready tally) w
      fun tally' _ => call.isRedlist = false → tally'.total = tally.total + ready.length := by
  induction ready generalizing w tally with
  | nil => exact Keeps.pure h fun _ => rfl
  | cons m rest ih =>
    unfold applyEach
    refine (keeps_applyOne hready.queued h (hhonest m List.mem_cons_self)).bind
      fun verdict u hu hone => ?_
    refine (ih hu (hready.rest hone.1) fun a ha => hhonest a (List.mem_cons_of_mem _ ha)).mono
      fun tally' v _ htotal hred => ?_
    have hcounted : verdict ≠ .uncounted := by
      intro hverdict
      rw [hone.2 hverdict] at hred
      cases hred
    rw [htotal hred, Tally.total_count hcounted, List.length_cons]
    omega

/-- What the inventory is given does not concern the ledger. -/
theorem keeps_reconcile {paths : List Text} (h : Holds o call w₀ w) :
    Keeps (Holds o call w₀) (reconcile call paths) w fun _ _ => True := by
  have hsame : ∀ reconciled deferred, Holds o call w₀
      { w with reconciled := reconciled, deferred := deferred } :=
    fun _ _ => ⟨⟨h.ahead.sound, h.ahead.removals⟩, h.kept, h.receipted⟩
  unfold reconcile
  split_ifs
  · exact Keeps.pure h trivial
  · rw [Keeps, wp_read_bind]
    exact Keeps.write (hsame w.reconciled _) trivial
  · rw [Keeps, wp_read_bind]
    refine (Keeps.write (R := fun _ _ => True) (hsame _ w.deferred) trivial).bind
      fun _ u hu _ => ?_
    exact Keeps.lift hu fun _ _ => trivial

theorem keeps_applyOneByOne {failed protections : ℕ} (h : Holds o call w₀ w)
    (hready : Waiting call w ready) (hhonest : ∀ m ∈ ready, HonestReply m.answers) :
    Keeps (Holds o call w₀) (applyOneByOne o call ready failed protections) w
      fun n _ => call.isRedlist = false →
        n.1 + n.2.1 + n.2.2 = failed + protections + ready.length := by
  unfold applyOneByOne
  refine (keeps_applyEach h hready hhonest).bind fun tally u hu htotal => ?_
  refine (keeps_reconcile hu).bind fun _ v hv _ => ?_
  refine Keeps.pure hv fun hred => ?_
  have := htotal hred
  simp only [Tally.total] at this ⊢
  omega

/-! ## The batch backend -/

/-- A member that has been prepared from a candidate. -/
structure PreparedFrom (m : Prepared) : Prop where
  expected : m.expected = some m.planned
  digest : sourceEvidence m.toCandidate = .ok m.sourceDigest
  identity : m.planned.identityText m.path = .ok m.expectedJson

/-- What the preparation leaves: the members that go on, and all of them counted. -/
structure PreparationOf (call : TrashCall) (w : World) (ready : List Ready)
    (x : List Prepared × ℕ) (t : World) : Prop where
  waiting : Waiting call t (x.1.map Prepared.toReady)
  sub : (x.1.map Prepared.toReady).Sublist ready
  from_candidates : ∀ m ∈ x.1, PreparedFrom m
  touches : Touches (ready.map Ready.actionId) w t
  count : x.1.length + x.2 = ready.length

theorem keeps_prepareEach (h : Holds o call w₀ w) (hready : Waiting call w ready) :
    Keeps (Holds o call w₀) (prepareEach ready) w (PreparationOf call w ready) := by
  induction ready generalizing w with
  | nil => exact Keeps.pure h ⟨hready, .slnil, (fun _ hm => nomatch hm), .refl _ _, rfl⟩
  | cons m rest ih =>
    have hsub : rest.map Ready.actionId ⊆ (m :: rest).map Ready.actionId :=
      List.subset_cons_self _ _
    have hfirst : [m.actionId] ⊆ (m :: rest).map Ready.actionId := by simp
    have hnear : Near o call w₀ w m.actionId w := ⟨h, .refl _ _⟩
    -- a member that fails is closed, and the others are prepared
    have hfailed : ∀ {fault : Option Fault} {detail : Option Text}, Keeps (Holds o call w₀)
        (do
          commit fault fun ledger => ledger.finishFileActions [m.actionId] .failed detail
          let x ← prepareEach rest
          pure (x.1, x.2 + 1)) w (PreparationOf call w (m :: rest)) := by
      intro fault detail
      refine (keeps_near (keeps_failed hnear)).bind fun _ u _ hu => ?_
      refine (ih hu.1.holds (hready.rest hu.1.touches)).bind fun x v hv hx => ?_
      refine Keeps.pure hv ⟨hx.waiting, hx.sub.cons m, hx.from_candidates,
        (hu.1.touches.mono hfirst).trans (hx.touches.mono hsub), ?_⟩
      have := hx.count
      simp only [List.length_cons]
      omega
    unfold prepareEach
    cases hexpected : m.expected with
    | none => exact hfailed
    | some planned =>
      dsimp only
      split
      · next sourceDigest expectedJson hevidence =>
        simp only [bind_eq_ok, pure_eq_ok] at hevidence
        obtain ⟨digest, hdigest, json, hjson, hpair⟩ := hevidence
        obtain ⟨rfl, rfl⟩ := Prod.mk.inj hpair
        refine (ih h ⟨fun a ha => hready.pending a (List.mem_cons_of_mem _ ha),
          (List.nodup_cons.mp hready.nodup).2⟩).bind fun x u hu hx => ?_
        refine Keeps.pure hu ⟨hready.cons hx.touches hx.waiting hx.sub, hx.sub.cons_cons m,
          fun a ha => ?_, hx.touches.mono hsub, ?_⟩
        · rcases List.mem_cons.mp ha with rfl | ha
          · exact ⟨hexpected, hdigest, hjson⟩
          · exact hx.from_candidates a ha
        · have := hx.count
          simp only [List.length_cons]
          omega
      · split_ifs
        · exact hfailed
        · exact keeps_raise h

/-- A member that has its row. -/
structure Reached (call : TrashCall) (w : World) (m : Ready) : Prop where
  offered : call.Offers m.toCandidate
  row : ∃ r ∈ w.ledger.actions, call.IsRow m r

theorem Pending.reached (h : Pending call w m) : Reached call w m :=
  ⟨h.offered, h.row.imp fun _ hr => ⟨hr.1, hr.2.1⟩⟩

theorem Reached.touches {ids : List ℕ} (h : Reached call w m) (ht : Touches ids w t) :
    Reached call t m := by
  obtain ⟨⟨P, hedits, -⟩, -⟩ := ht
  obtain ⟨r, hr, hrow⟩ := h.row
  obtain ⟨r', hr', hsame, -⟩ := Ledger.Edits.row hedits r hr
  exact ⟨h.offered, r', hr', hsame.actionId.trans hrow.actionId, hsame.runId.trans hrow.runId,
    hsame.spec.trans hrow.spec⟩

theorem Touches.kept {ids : List ℕ} {id : ℕ} (ht : Touches ids w t) (hid : id ∉ ids)
    (h : ¬ w.Removed id) : ¬ t.Removed id := by
  intro hgone
  obtain ⟨x, hx, rfl⟩ := List.mem_map.mp hgone
  rcases ht.2 x hx with hx | hx
  · exact h (List.mem_map_of_mem hx)
  · exact hid hx

/-- The batch crosses the frontier. -/
theorem keeps_batchFrontier {prepared : List Prepared} (h : Holds o call w₀ w)
    (hready : Waiting call w (prepared.map Prepared.toReady))
    (hfrom : ∀ m ∈ prepared, PreparedFrom m) :
    Keeps (Holds o call w₀)
      (commit (call.fault .frontier) fun ledger =>
        ledger.markFileActionsApplying call.batchBoundary
          (prepared.map fun m => (m.actionId, m.expectedJson))) w
      fun _ t => ∀ m ∈ prepared, call.Offers m.toCandidate ∧
        AtFrontier call m.toReady m.planned t := by
  refine wp_commit (fun _ => h) fun l hl => ?_
  have hids := h.ahead.sound.ids
  have hnext : Holds o call w₀ { w with ledger := l } :=
    h.edits tame_mark (Ledger.edits_mark hids hl)
  obtain ⟨-, hrows⟩ := Ledger.mark_rows hids (Ledger.markFileActionsApplying_eq_ok hl)
  refine ⟨hnext, ⟨hnext, fun m hm => ?_⟩, fun _ _ => hnext⟩
  obtain ⟨r, hr, hid, hstarted, hmarked⟩ :=
    hrows (m.actionId, m.expectedJson) (List.mem_map.mpr ⟨m, hm, rfl⟩)
  have hpending := hready.pending m.toReady (List.mem_map_of_mem hm)
  obtain ⟨row, hrow, hisRow, -⟩ := hpending.row
  obtain rfl := hids.unique.eq hr hrow (hid.trans hisRow.actionId.symm)
  refine ⟨hpending.offered, ?_, _, hmarked, ⟨hisRow.actionId, hisRow.runId, hisRow.spec⟩, rfl, _,
    identityText_eq_ok (hfrom m hm).identity, rfl⟩
  rw [← hisRow.actionId]
  exact h.kept_of_started hr hstarted

theorem zip_sublist {α β : Type} (l : List α) (l' : List β) :
    ((l.zip l').map Prod.fst).Sublist l := by
  induction l generalizing l' with
  | nil => exact .slnil
  | cons a l ih =>
    cases l' with
    | nil => exact List.nil_sublist _
    | cons b l' => exact (ih l').cons_cons a

/-- The backend removes files of the batch, each of them at the frontier. -/
theorem keeps_invokeEach {backend : BatchBackend} {prepared : List Prepared}
    (h : Holds o call w₀ w) (hnodup : (prepared.map fun m => m.actionId).Nodup)
    (hfrontier : ∀ m ∈ prepared, AtFrontier call m.toReady m.planned w) :
    Keeps (Holds o call w₀) (invokeEach backend prepared) w
      fun _ t => t.ledger = w.ledger ∧
        ∀ x ∈ t.removed, x ∈ w.removed ∨
          ∃ y ∈ prepared.zip backend.removes, y.2 = true ∧ x.1 = y.1.actionId := by
  have hzip : ((prepared.zip backend.removes).map fun y => y.1.actionId).Nodup := by
    have hsub := (zip_sublist prepared backend.removes).map fun m => m.actionId
    rw [List.map_map] at hsub
    exact hnodup.sublist hsub
  refine Keeps.each (J := fun (done : List (Prepared × Bool)) t => t.ledger = w.ledger ∧
    ∀ x ∈ t.removed, x ∈ w.removed ∨ ∃ y ∈ done, y.2 = true ∧ x.1 = y.1.actionId) h
    ⟨rfl, fun x hx => .inl hx⟩ fun done y after u hl hu hJ => ?_
  have hmem : y.1 ∈ prepared := by
    have hy : y ∈ prepared.zip backend.removes :=
      hl ▸ List.mem_append_right _ List.mem_cons_self
    exact (zip_sublist _ _).subset (List.mem_map_of_mem hy)
  -- no file of this member has been removed yet
  have hat : AtFrontier call y.1.toReady y.1.planned u := by
    obtain ⟨hkept, hrow⟩ := hfrontier y.1 hmem
    refine ⟨fun hgone => ?_, hJ.1 ▸ hrow⟩
    obtain ⟨x, hx, hid⟩ := List.mem_map.mp hgone
    rcases hJ.2 x hx with hx | ⟨z, hz, -, hxz⟩
    · exact hkept (List.mem_map.mpr ⟨x, hx, hid⟩)
    · rw [← hl, List.map_append, List.map_cons] at hzip
      have hapart := (List.nodup_append.mp hzip).2.2
      exact hapart _ (List.mem_map_of_mem hz) _ List.mem_cons_self (hxz.symm.trans hid)
  unfold invoke
  cases hremoves : y.2 with
  | false =>
    rw [if_neg (by decide)]
    refine Keeps.pure hu ⟨hJ.1, fun x hx => (hJ.2 x hx).imp_right ?_⟩
    rintro ⟨z, hz, htrue⟩
    exact ⟨z, List.mem_append_left _ hz, htrue⟩
  | true =>
    rw [if_pos rfl, Keeps, wp_read_bind]
    refine Keeps.write (hu.invoked hat) ⟨hJ.1, fun x hx => ?_⟩
    rcases List.mem_append.mp hx with hx | hx
    · refine (hJ.2 x hx).imp_right ?_
      rintro ⟨z, hz, htrue⟩
      exact ⟨z, List.mem_append_left _ hz, htrue⟩
    · exact .inr ⟨y, List.mem_append_right _ (List.mem_singleton.mpr rfl), hremoves,
        congrArg Prod.fst (List.mem_singleton.mp hx)⟩

theorem keeps_requireRecoveryEach {members : List Prepared} {detail : Text}
    (h : Holds o call w₀ w) :
    Keeps (Holds o call w₀) (requireRecoveryEach members detail) w fun _ _ => True := by
  refine Keeps.each (J := fun _ _ => True) h trivial fun _ m _ u _ hu _ => ?_
  have hnear : Near o call w₀ u m.actionId u := ⟨hu, .refl _ _⟩
  exact (keeps_near (keeps_bestEffort hnear)).mono fun _ _ _ _ => trivial

/-- What the outcomes leave: the receipts that are accepted, and all of them counted. -/
structure SettlementOf (o : Outside) (call : TrashCall) (w : World)
    (pairs : List (Prepared × Option BackendOutcome)) (x : List Confirmation × ℕ × ℕ)
    (t : World) : Prop where
  valid : ∀ c ∈ x.1, c.member ∈ pairs.map Prod.fst ∧
    validateTrashReceipt o.pathKey o.floatIsOne c.member.answers.verify c.receipt c.member.planned
      c.member.sourceDigest = .ok ()
  touches : Touches (pairs.map fun p => p.1.actionId) w t
  count : call.isRedlist = false → x.1.length + x.2.1 + x.2.2 = pairs.length

theorem keeps_settleEach {pairs : List (Prepared × Option BackendOutcome)}
    (h : Holds o call w₀ w) (hnodup : (pairs.map fun p => p.1.actionId).Nodup)
    (hkept : ∀ p ∈ pairs, ∀ outcome, p.2 = some outcome → outcome.status = .blocked →
      ¬ w.Removed p.1.actionId) :
    Keeps (Holds o call w₀) (settleEach o call pairs) w (SettlementOf o call w pairs) := by
  induction pairs generalizing w with
  | nil => exact Keeps.pure h ⟨fun _ hc => absurd hc List.not_mem_nil, .refl _ _, fun _ => rfl⟩
  | cons p rest ih =>
    obtain ⟨m, outcome⟩ := p
    have hsub : (rest.map fun p => p.1.actionId) ⊆
        ((m, outcome) :: rest).map fun p => p.1.actionId := List.subset_cons_self _ _
    have hfirst : [m.actionId] ⊆ ((m, outcome) :: rest).map fun p => p.1.actionId := by simp
    have hnear : Near o call w₀ w m.actionId w := ⟨h, .refl _ _⟩
    obtain ⟨hnew, hnodup⟩ := List.nodup_cons.mp hnodup
    -- the rest of the loop, behind what was done for this member
    have hrest : ∀ u : World, Near o call w₀ w m.actionId u →
        Keeps (Holds o call w₀) (settleEach o call rest) u (SettlementOf o call u rest) := by
      intro u hu
      refine ih hu.holds hnodup fun p hp outcome hout hblocked => ?_
      refine hu.touches.kept (fun hid => hnew ?_)
        (hkept p (List.mem_cons_of_mem _ hp) outcome hout hblocked)
      exact List.mem_map.mpr ⟨p, hp, List.mem_singleton.mp hid⟩
    have hdone : ∀ {u v : World} {x : List Confirmation × ℕ × ℕ} {n k : ℕ},
        Near o call w₀ w m.actionId u → SettlementOf o call u rest x v →
        (call.isRedlist = false → n + k = x.2.1 + x.2.2 + 1) →
        SettlementOf o call w ((m, outcome) :: rest) (x.1, n, k) v := by
      intro u v x n k hu hx hcount
      refine ⟨fun c hc => ⟨List.mem_cons_of_mem _ (hx.valid c hc).1, (hx.valid c hc).2⟩,
        (hu.touches.mono hfirst).trans (hx.touches.mono hsub), fun hred => ?_⟩
      have h₁ := hx.count hred
      have h₂ := hcount hred
      simp only [List.length_cons]
      omega
    have hrecover : ∀ detail : Text, Keeps (Holds o call w₀)
        (do
          bestEffortRequireRecovery m.toReady detail
          let x ← settleEach o call rest
          pure (x.1, x.2.1 + 1, x.2.2)) w
        (SettlementOf o call w ((m, outcome) :: rest)) := by
      intro detail
      refine (keeps_near (keeps_bestEffort hnear)).bind fun _ u _ hu => ?_
      refine (hrest u hu.1).bind fun x v hv hx => ?_
      obtain ⟨confirmations, failed, protections⟩ := x
      refine Keeps.pure hv (hdone hu.1 hx fun _ => ?_)
      dsimp only
      omega
    unfold settleEach
    cases outcome with
    | none => exact hrecover _
    | some outcome =>
      dsimp only
      cases hstatus : outcome.status with
      | applied =>
        cases hreceipt : outcome.receiptJson with
        | none => exact hrecover _
        | some receipt =>
          dsimp only
          cases hvalid : validateTrashReceipt o.pathKey o.floatIsOne m.answers.verify receipt
              m.planned m.sourceDigest with
          | ok _ =>
            refine (hrest w hnear).bind fun x v hv hx => ?_
            obtain ⟨confirmations, failed, protections⟩ := x
            refine Keeps.pure hv ⟨fun c hc => ?_, hx.touches.mono hsub, fun hred => ?_⟩
            · rcases List.mem_cons.mp hc with rfl | hc
              · exact ⟨List.mem_cons_self, hvalid⟩
              · exact ⟨List.mem_cons_of_mem _ (hx.valid c hc).1, (hx.valid c hc).2⟩
            · have := hx.count hred
              simp only [List.length_cons] at this ⊢
              omega
          | error e =>
            dsimp only
            split_ifs
            · exact hrecover _
            · exact keeps_raise h
      | recoveryRequired => exact hrecover _
      | blocked =>
        refine (keeps_near (keeps_settleBlocked hnear
          (hkept _ List.mem_cons_self outcome rfl hstatus))).bind fun verdict u _ hu => ?_
        refine (hrest u hu.1).bind fun x v hv hx => ?_
        obtain ⟨confirmations, failed, protections⟩ := x
        refine Keeps.pure hv (hdone hu.1 hx fun hred => ?_)
        obtain ⟨huncounted, happlied⟩ := hu.2
        cases verdict with
        | applied => exact absurd rfl happlied
        | failed =>
          simp
          omega
        | preserved => simp [add_assoc]
        | uncounted =>
          rw [huncounted rfl] at hred
          cases hred

/-- The confirmation of a batch. -/
theorem keeps_confirmAll {confirmations : List Confirmation} (h : Holds o call w₀ w)
    (hmembers : ∀ c ∈ confirmations, Reached call w c.member.toReady ∧ PreparedFrom c.member)
    (hvalid : ∀ c ∈ confirmations, validateTrashReceipt o.pathKey o.floatIsOne
      c.member.answers.verify c.receipt c.member.planned c.member.sourceDigest = .ok ()) :
    Keeps (Holds o call w₀) (confirmAll call confirmations) w
      fun x _ => x.1.length + x.2 = confirmations.length := by
  have hids := h.ahead.sound.ids
  unfold confirmAll
  split_ifs with hempty
  · exact Keeps.pure h (by simp [hempty])
  · refine Keeps.handle (E := fun _ u => Holds o call w₀ u) ?_ fun e u hu => ?_
    · rw [wp_bind]
      refine wp_commit (fun _ => h) fun l hl => ?_
      have hnext : Holds o call w₀ { w with ledger := l } := by
        refine h.edits (tame_confirm fun r hr receipt hmem => ?_)
          (Ledger.Edits.traced hids (Ledger.edits_confirm hids hl))
        obtain ⟨c, hc, hpair⟩ := List.mem_map.mp hmem
        obtain ⟨hid, rfl⟩ := Prod.mk.inj hpair
        obtain ⟨hreached, hfrom⟩ := hmembers c hc
        obtain ⟨row, hrow, hisRow⟩ := hreached.row
        obtain rfl := hids.unique.eq hr hrow (hid.symm.trans hisRow.actionId.symm)
        exact receipted_of_valid hreached.offered hisRow hfrom.expected hfrom.digest (hvalid c hc)
      refine ⟨hnext, wp_pure.mpr ⟨hnext, ?_⟩, fun _ _ => hnext⟩
      simp
    · refine (keeps_requireRecoveryEach hu).bind fun _ v hv _ => ?_
      split_ifs
      · exact Keeps.pure hv (by simp)
      · exact keeps_raise hv

/-- A backend for batches says `blocked` only of files that it leaves. -/
def HonestBatch (backend : BatchBackend) : Prop :=
  ∀ outcomes, backend.reply = .outcomes outcomes → ∀ x ∈ outcomes.zip backend.removes,
    ∀ outcome, x.1 = some outcome →
      (outcome.status = .blocked → x.2 = false) ∧ (outcome.status = .applied → x.2 = true)

theorem batchOutcomes_eq_ok {backend : BatchBackend} {count : ℕ}
    {outcomes : List (Option BackendOutcome)} (h : batchOutcomes backend count = .ok outcomes) :
    backend.reply = .outcomes outcomes ∧ outcomes.length = count := by
  unfold batchOutcomes at h
  cases hreply : backend.reply with
  | raises e => simp [hreply] at h
  | noOutcomes => simp [hreply] at h
  | outcomes l =>
    simp only [hreply] at h
    split_ifs at h with hlength
    obtain rfl := Except.ok.inj h
    exact ⟨rfl, hlength⟩

/-- Two lists beside one whose keys are distinct. -/
theorem zip_aligned {α β γ κ : Type} {key : α → κ} {l : List α} {l' : List β} {l'' : List γ}
    {x : α × β} {y : α × γ} (hnodup : (l.map key).Nodup) (hx : x ∈ l.zip l') (hy : y ∈ l.zip l'')
    (hkey : key x.1 = key y.1) : (x.2, y.2) ∈ l'.zip l'' := by
  induction l generalizing l' l'' with
  | nil => cases hx
  | cons a l ih =>
    cases l' with
    | nil => cases hx
    | cons b l' =>
      cases l'' with
      | nil => cases hy
      | cons c l'' =>
        obtain ⟨hnew, hnodup⟩ := List.nodup_cons.mp hnodup
        have hother : ∀ {δ : Type} {z : α × δ} {m : List δ}, z ∈ l.zip m → key z.1 ≠ key a := by
          intro δ z m hz hsame
          have hmem := (zip_sublist _ _).subset (List.mem_map_of_mem hz)
          exact hnew (hsame ▸ List.mem_map_of_mem hmem)
        rcases List.mem_cons.mp hx with rfl | hx <;> rcases List.mem_cons.mp hy with rfl | hy
        · exact List.mem_cons_self
        · exact absurd hkey.symm (hother hy)
        · exact absurd hkey (hother hx)
        · exact List.mem_cons_of_mem _ (ih hnodup hx hy)

theorem keeps_applyTrashBackendBatch {backend : BatchBackend} {failed protections : ℕ}
    (h : Holds o call w₀ w) (hready : Waiting call w ready) (hhonest : HonestBatch backend) :
    Keeps (Holds o call w₀) (applyTrashBackendBatch o call backend ready failed protections) w
      fun n _ => call.isRedlist = false →
        n.1 + n.2.1 + n.2.2 = failed + protections + ready.length := by
  unfold applyTrashBackendBatch
  refine (keeps_prepareEach h hready).bind fun x u hu hx => ?_
  obtain ⟨prepared, stale⟩ := x
  have hcount := hx.count
  dsimp only at hcount ⊢
  split_ifs with hempty
  · refine Keeps.pure hu fun _ => ?_
    rw [List.isEmpty_iff] at hempty
    simp only [hempty, List.length_nil] at hcount
    dsimp only
    omega
  · refine (keeps_batchFrontier hu hx.waiting hx.from_candidates).bind fun _ v hv hat => ?_
    have hnodup : (prepared.map fun m => m.actionId).Nodup := by
      have := hx.waiting.nodup
      rwa [List.map_map] at this
    refine (keeps_invokeEach hv hnodup fun m hm => (hat m hm).2).bind fun _ t ht hinvoked => ?_
    split
    · next e he =>
      split_ifs
      · exact (keeps_requireRecoveryEach ht).bind fun _ s hs _ => keeps_raise hs
      · refine (keeps_requireRecoveryEach ht).bind fun _ s hs _ => Keeps.pure hs fun _ => ?_
        dsimp only
        omega
      · exact (keeps_requireRecoveryEach ht).bind fun _ s hs _ => keeps_raise hs
    · next outcomes houtcomes =>
      obtain ⟨hreply, hlength⟩ := batchOutcomes_eq_ok houtcomes
      have hpairs : ((prepared.zip outcomes).map fun p => p.1.actionId).Nodup := by
        have hsub := (zip_sublist prepared outcomes).map fun m => m.actionId
        rw [List.map_map] at hsub
        exact hnodup.sublist hsub
      refine (keeps_settleEach ht hpairs fun p hp outcome hout hblocked hgone => ?_).bind
        fun ⟨confirmations, recovered, blocked⟩ s hs hsettled => ?_
      · -- the file of a blocked member is not among those that were removed
        have hmem : p.1 ∈ prepared := (zip_sublist _ _).subset (List.mem_map_of_mem hp)
        obtain ⟨x, hx, hid⟩ := List.mem_map.mp hgone
        rcases hinvoked.2 x hx with hx | ⟨y, hy, htrue, hxy⟩
        · exact (hat p.1 hmem).2.kept (List.mem_map.mpr ⟨x, hx, hid⟩)
        · have hzip := zip_aligned hnodup hp hy (hid.symm.trans hxy)
          have hfalse := ((hhonest outcomes hreply _ hzip) outcome hout).1 hblocked
          rw [htrue] at hfalse
          cases hfalse
      · have hmembers : ∀ c ∈ confirmations,
            Reached call s c.member.toReady ∧ PreparedFrom c.member := by
          intro c hc
          obtain ⟨p, hp, hpc⟩ := List.mem_map.mp (hsettled.valid c hc).1
          have hmem : c.member ∈ prepared :=
            hpc ▸ (zip_sublist _ _).subset (List.mem_map_of_mem hp)
          have hreached : Reached call t c.member.toReady := by
            obtain ⟨hoffer, -, r, hr, hrow, -⟩ := hat c.member hmem
            exact ⟨hoffer, r, hinvoked.1 ▸ hr, hrow⟩
          exact ⟨hreached.touches hsettled.touches, hx.from_candidates c.member hmem⟩
        refine (keeps_confirmAll hs hmembers fun c hc => (hsettled.valid c hc).2).bind
          fun ⟨appliedPaths, unconfirmed⟩ s' hs' hconfirmed => ?_
        refine (keeps_reconcile hs').bind fun _ s'' hs'' _ => Keeps.pure hs'' fun hred => ?_
        have h₁ := hsettled.count hred
        rw [List.length_zip, hlength, min_self] at h₁
        dsimp only at h₁ hconfirmed ⊢
        omega

end Loops

/-! ## The call -/

/-- The call does not list a candidate twice, and takes up no action whose file is gone already. -/
structure Fresh (call : TrashCall) (w : World) : Prop where
  distinct : call.batch.Nodup
  unopened : ∀ r ∈ w.ledger.actions, ∀ c, call.Offers c → r.runId = call.runId →
    r.spec = call.specOf c → r.status = .applying → ¬ w.Removed r.actionId

/-- `blocked` means no effect, `applied` means that the effect happened. -/
structure Honest (call : TrashCall) : Prop where
  replies : ∀ i, HonestReply (call.answers i)
  batches : ∀ backend, call.backend = some backend → ∀ batch, backend.batch = some batch →
    HonestBatch batch

theorem Offers.honest {c : Candidate} (h : call.Offers c) (hhonest : Honest call) :
    HonestReply c.answers := by
  obtain ⟨expected, references, -, hmem⟩ := h
  obtain ⟨x, -, rfl⟩ := List.mem_map.mp hmem
  exact hhonest.replies x.2

/-- A candidate that is finished stays pending. -/
theorem Pending.finished {m : Ready} {ids : List ℕ} {status : ActionStatus} {detail : Option Text}
    (h : Pending call w m) (hstatus : status ≠ .applying)
    (hedits : Ledger.Edits (Ledger.Finished ids status detail) w.ledger l) :
    Pending call { w with ledger := l } m := by
  obtain ⟨r, hr, hrow, hopen⟩ := h.row
  obtain ⟨r', hr', hsame, hwhy⟩ := Ledger.Edits.row hedits r hr
  refine ⟨h.offered, r', hr', ⟨hsame.actionId.trans hrow.actionId, hsame.runId.trans hrow.runId,
    hsame.spec.trans hrow.spec⟩, fun happlying => ?_⟩
  rcases hwhy with rfl | ⟨q, -, rfl⟩
  · exact hopen happlying
  · exact absurd happlying hstatus

/-- Pending candidates may be finished, all of them at once. -/
theorem keeps_finishPending {ready : List Ready} {status : ActionStatus} {detail : Option Text}
    {fault : Option Fault} {ids : List ℕ} (h : Holds o call w₀ w) (happlied : status ≠ .applied)
    (happlying : status ≠ .applying) (hready : ∀ m ∈ ready, Pending call w m)
    (hids : ids ⊆ ready.map Ready.actionId) :
    Keeps (Holds o call w₀)
      (commit fault fun ledger => ledger.finishFileActions ids status detail) w
      fun _ t => ∀ m ∈ ready, Pending call t m := by
  refine wp_commit (fun _ => h) fun l hl => ?_
  have hunique := h.ahead.sound.ids
  have hedits := Ledger.edits_finish hunique hl
  have hnext : Holds o call w₀ { w with ledger := l } := by
    refine h.edits (tame_finish happlied fun _ r hr hmem hr' => ?_)
      (Ledger.Edits.traced hunique hedits)
    obtain ⟨m, hm, hid⟩ := List.mem_map.mp (hids hmem)
    obtain ⟨row, hrow, hisRow, hopen⟩ := (hready m hm).row
    obtain rfl := hunique.unique.eq hr hrow (hid.symm.trans hisRow.actionId.symm)
    exact hid ▸ hopen hr'
  exact ⟨hnext, ⟨hnext, fun m hm => (hready m hm).finished happlying hedits⟩, fun _ _ => hnext⟩

section Call

variable {ready : List Ready} {cs : List Candidate}

theorem keeps_applyReady {failed protections : ℕ} (h : Holds o call w₀ w)
    (hready : Waiting call w ready) (hhonest : Honest call) :
    Keeps (Holds o call w₀) (applyReady o call ready failed protections) w
      fun n _ => call.isRedlist = false →
        n.1 + n.2.1 + n.2.2 = failed + protections + ready.length := by
  have hunavailable : ∀ detail : Text, Keeps (Holds o call w₀)
      (do
        commit (call.fault .unavailable) fun ledger =>
          ledger.finishFileActions (ready.map Ready.actionId) .skipped (some detail)
        pure (0, failed, protections + ready.length)) w
      fun n _ => call.isRedlist = false →
        n.1 + n.2.1 + n.2.2 = failed + protections + ready.length := by
    intro detail
    refine (keeps_finishPending h (by decide) (by decide) hready.pending
      (List.Subset.refl _)).bind fun _ u hu _ => Keeps.pure hu fun _ => ?_
    dsimp only
    omega
  unfold applyReady
  cases hbackend : call.backend with
  | none => exact hunavailable _
  | some backend =>
    dsimp only
    split_ifs
    · exact hunavailable _
    · cases hbatch : backend.batch with
      | none =>
        refine keeps_applyOneByOne h hready fun m hm => ?_
        exact (hready.pending m hm).offered.honest hhonest
      | some batch =>
        refine (keeps_checkpointBefore h hready.pending).bind fun _ u hu huw => ?_
        subst huw
        exact keeps_applyTrashBackendBatch hu hready (hhonest.batches backend hbackend batch hbatch)

/-- The ids of distinct actions are distinct. -/
theorem nodup_of_rows {ids : List ℕ} {specs : List ActionSpec} {run : ℤ} (hl : l.Ids)
    (h : List.Forall₂ (fun id spec =>
      ∃ r ∈ l.actions, r.actionId = id ∧ r.runId = run ∧ r.spec = spec) ids specs)
    (hspecs : specs.Nodup) : ids.Nodup := by
  induction h with
  | nil => exact List.nodup_nil
  | @cons id spec ids specs hrow hrows ih =>
    obtain ⟨hnew, hspecs⟩ := List.nodup_cons.mp hspecs
    refine List.nodup_cons.mpr ⟨fun hmem => ?_, ih hspecs⟩
    obtain ⟨i, hi, hget⟩ := List.getElem_of_mem hmem
    have hlt : i < specs.length := hrows.length_eq ▸ hi
    obtain ⟨r, hr, hid, -, hspec⟩ := hrow
    obtain ⟨r', hr', hid', -, hspec'⟩ := hrows.get hi hlt
    have hids : r'.actionId = r.actionId := by
      rw [hid', hid]
      exact hget
    obtain rfl := hl.unique.eq hr' hr hids
    refine hnew ?_
    rw [← hspec, hspec']
    exact List.getElem_mem _

theorem evaluate_eq_some {c : Candidate} {e : Candidate × Option Text}
    (h : call.evaluate c = some e) : e.1 = c := by
  unfold evaluate at h
  cases hreason : c.answers.protectedPathReason with
  | some reason =>
    simp only [hreason] at h
    split_ifs at h
    rw [← Option.some.inj h]
  | none =>
    simp only [hreason] at h
    split_ifs at h
    rw [← Option.some.inj h]

/-- The candidates of the call, as it admits them. -/
structure Batched (call : TrashCall) (cs : List Candidate) : Prop where
  offered : ∀ c ∈ cs, call.Offers c
  distinct : (cs.map fun c => (c.path, c.evidence)).Nodup

theorem evaluated_sublist (call : TrashCall) (cs : List Candidate) :
    ((cs.filterMap call.evaluate).map Prod.fst).Sublist cs := by
  induction cs with
  | nil => exact .slnil
  | cons c cs ih =>
    cases he : call.evaluate c with
    | none =>
      rw [List.filterMap_cons_none he]
      exact ih.cons c
    | some e =>
      rw [List.filterMap_cons_some he, List.map_cons, evaluate_eq_some he]
      exact ih.cons_cons c

/-- The actions of the batch are found or opened, and each has its own row. -/
theorem keeps_begin (h : Holds o call w₀ w) (hcs : Batched call cs) (hfresh : Fresh call w) :
    Keeps (Holds o call w₀) (beginTrashCandidates o call cs) w
      fun x t => Waiting call t x.1 ∧ x.1.length + x.2 = cs.length := by
  have hids := h.ahead.sound.ids
  have hsub := evaluated_sublist call cs
  have hlength : (cs.filterMap call.evaluate).length ≤ cs.length := by
    simpa using hsub.length_le
  unfold beginTrashCandidates
  refine (Keeps.lift (P := fun _ u => u = w) h fun _ _ => rfl).bind fun _ u _ huw => ?_
  subst huw
  dsimp only
  generalize cs.filterMap call.evaluate = evaluated at hsub hlength ⊢
  split_ifs with hempty
  · refine Keeps.pure h ⟨⟨fun _ hm => (nomatch hm), List.nodup_nil⟩, ?_⟩
    simp [hempty]
  · -- the specifications of distinct candidates are distinct
    have hspecs : (evaluated.map fun e => call.specOf e.1).Nodup := by
      have hpairs : (evaluated.map fun e => (e.1.path, e.1.evidence)).Nodup := by
        have := hcs.distinct.sublist (hsub.map fun c => (c.path, c.evidence))
        rwa [List.map_map] at this
      refine (List.pairwise_map.mp hpairs).imp ?_ |> List.pairwise_map.mpr
      intro a b hne hspec
      have hpath : a.1.path = b.1.path := congrArg ActionSpec.sourcePath hspec
      have hevidence : a.1.evidence = b.1.evidence :=
        Option.some.inj (congrArg ActionSpec.evidence hspec)
      exact hne (by rw [hpath, hevidence])
    have hbegin : Keeps (Holds o call w₀)
        (transact (call.fault .begin) fun ledger =>
          ledger.beginFileActions o.keyOf call.beginBoundary call.runId
            (evaluated.map fun e => call.specOf e.1)) u
        fun ids t => ids.length = evaluated.length ∧ ids.Nodup ∧
          ∀ x ∈ ids.zip evaluated, Pending call t { x.2.1 with actionId := x.1 } := by
      refine wp_transact (fun _ => h) fun ids l hl => ?_
      obtain ⟨hedits, hrows⟩ := Ledger.edits_begin hids hl
      have hnext : Holds o call w₀ { u with ledger := l } := h.edits tame_unmoved hedits
      refine ⟨hnext, ⟨hnext, ?_, nodup_of_rows (hedits.ids hids) hrows hspecs, fun x hx => ?_⟩,
        fun _ _ => hnext⟩
      · simpa using hrows.length_eq
      · rw [List.forall₂_map_right_iff] at hrows
        obtain ⟨r, hr, hid, hrun, hspec⟩ := (List.forall₂_iff_zip.mp hrows).2 hx
        have hoffer : call.Offers x.2.1 :=
          hcs.offered _ (hsub.subset (List.mem_map_of_mem (List.of_mem_zip hx).2))
        refine ⟨hoffer, r, hr, ⟨hid, hrun, hspec⟩, fun happlying hgone => ?_⟩
        rcases hedits.unmoved.2 r hr with hold | hstarted
        · exact hfresh.unopened r hold _ hoffer hrun hspec happlying (hid ▸ hgone)
        · exact absurd (happlying.symm.trans hstarted) (by decide)
    refine hbegin.bind fun ids t ht ⟨hlen, hnodup, hpending⟩ => ?_
    generalize hrows : ids.zip evaluated = rows at hpending ⊢
    have hfst : (rows.map Prod.fst).Nodup := by
      rw [← hrows]
      exact hnodup.sublist (zip_sublist _ _)
    have hcount : rows.length = evaluated.length := by
      rw [← hrows, List.length_zip, hlen, min_self]
    -- the rows with a reason are skipped, reason by reason; all candidates stay pending
    refine (Keeps.each (J := fun _ s => ∀ x ∈ rows, Pending call s { x.2.1 with actionId := x.1 })
      ht hpending fun _ reason _ s _ hs hJ => ?_).bind fun _ s hs hJ => ?_
    · have hall : ∀ m ∈ rows.map fun x => ({ x.2.1 with actionId := x.1 } : Ready),
          Pending call s m := by
        intro m hm
        obtain ⟨x, hx, rfl⟩ := List.mem_map.mp hm
        exact hJ x hx
      refine (keeps_finishPending hs (by decide) (by decide) hall fun id hid => ?_).mono
        fun _ v _ hv x hx => hv _ (List.mem_map_of_mem hx)
      obtain ⟨x, hx, rfl⟩ := List.mem_map.mp hid
      rw [List.map_map]
      exact List.mem_map_of_mem (List.mem_filter.mp hx).1
    · refine Keeps.pure hs ⟨⟨fun m hm => ?_, ?_⟩, ?_⟩
      · obtain ⟨x, hx, rfl⟩ := List.mem_map.mp hm
        exact hJ x (List.mem_filter.mp hx).1
      · rw [List.map_map]
        exact hfst.sublist ((List.filter_sublist (l := rows)).map Prod.fst)
      · have hsplit := List.length_eq_length_filter_add (l := rows) fun r => r.2.2.isNone
        have hsome : (rows.filter fun r => !r.2.2.isNone) = rows.filter fun r => r.2.2.isSome := by
          simp
        rw [hsome] at hsplit
        simp only [List.length_map]
        omega

/-- What has been returned counts all candidates, or the rest of them is ready. -/
def Counted (call : TrashCall) (count : ℕ) (x : (ℕ × ℕ × ℕ) ⊕ (List Ready × ℕ × ℕ)) (t : World) :
    Prop :=
  match x with
  | .inl n => call.apply = true → n.1 + n.2.1 + n.2.2 = count
  | .inr (ready, failed, protections) =>
    Waiting call t ready ∧ failed + protections + ready.length = count

theorem keeps_admitBatch (h : Holds o call w₀ w) (hcs : Batched call cs) (hfresh : Fresh call w) :
    Keeps (Holds o call w₀) (admitBatch o call cs) w (Counted call cs.length) := by
  unfold admitBatch
  refine (Keeps.lift (P := fun _ u => u = w) h fun _ _ => rfl).bind fun _ u _ huw => ?_
  subst huw
  refine (keeps_begin h hcs hfresh).bind fun ⟨eligible, protections⟩ u hu ⟨heligible, hcount⟩ => ?_
  dsimp only at heligible hcount ⊢
  split_ifs with happly
  · refine (keeps_finishPending hu (by decide) (by decide) heligible.pending
      (List.Subset.refl _)).bind fun _ v hv _ => Keeps.pure hv fun htrue => ?_
    rw [happly] at htrue
    cases htrue
  · refine (keeps_validateEach hu heligible).bind fun first v hv hfirst => ?_
    have h₁ := hfirst.count
    split_ifs with hnone
    · refine Keeps.pure hv fun _ => ?_
      rw [List.isEmpty_iff] at hnone
      rw [hnone, List.length_nil] at h₁
      dsimp only
      omega
    · refine (Keeps.lift (P := fun _ t => t = v) hv fun _ _ => rfl).bind fun _ t _ htv => ?_
      subst htv
      refine (keeps_validateEach hv hfirst.waiting).bind fun second s hs hsecond => ?_
      have h₂ := hsecond.count
      split_ifs with hnone
      · refine Keeps.pure hs fun _ => ?_
        rw [List.isEmpty_iff] at hnone
        rw [hnone, List.length_nil] at h₂
        dsimp only
        omega
      · refine Keeps.pure hs ⟨hsecond.waiting, ?_⟩
        omega

/-- The candidates that are admitted by their size. -/
def admittedBatch (call : TrashCall) : List Candidate :=
  match call.normalizeTrashSnapshots with
  | .ok (expected, references) => call.admitted (call.candidates expected references)
  | .error _ => []

theorem batched_admitted {expected references : List (Option FileSnapshot)}
    (hdistinct : call.batch.Nodup)
    (hnormal : call.normalizeTrashSnapshots = .ok (expected, references)) :
    Batched call (call.admitted (call.candidates expected references)) := by
  have hsub : (call.admitted (call.candidates expected references)).Sublist
      (call.candidates expected references) := by
    unfold admitted
    cases call.maxFileBytes with
    | none => exact List.Sublist.refl _
    | some limit => exact List.filter_sublist
  refine ⟨fun c hc => ⟨expected, references, hnormal, hsub.subset hc⟩, ?_⟩
  have hpairs : ((call.candidates expected references).map fun c => (c.path, c.evidence)).Sublist
      call.batch := by
    have hzip := zip_sublist call.batch (expected.zip references)
    have hidx : ((call.batch.zip (expected.zip references)).zipIdx.map Prod.fst) =
        call.batch.zip (expected.zip references) := List.zipIdx_map_fst _ _
    rw [← hidx, List.map_map] at hzip
    rw [candidates, List.map_map]
    exact hzip
  exact hdistinct.sublist ((hsub.map _).trans hpairs)

theorem keeps_readyBatch (h : Holds o call w₀ w) (hfresh : Fresh call w) :
    Keeps (Holds o call w₀) (readyBatch o call) w
      (Counted call call.admittedBatch.length) := by
  unfold readyBatch
  refine (Keeps.lift (P := fun _ u => u = w) h fun _ _ => rfl).bind fun _ u _ huw => ?_
  subst huw
  refine (Keeps.lift (P := fun x s => call.normalizeTrashSnapshots = .ok x ∧ s = u) h
    fun x hx => ⟨hx, rfl⟩).bind fun ⟨expected, references⟩ s _ ⟨hnormal, hsu⟩ => ?_
  subst hsu
  have hadmitted : call.admittedBatch = call.admitted (call.candidates expected references) := by
    unfold admittedBatch
    rw [hnormal]
  rw [hadmitted]
  dsimp only
  split_ifs with hnone
  · rw [Bool.and_eq_true, List.isEmpty_iff] at hnone
    exact Keeps.pure h fun _ => by rw [hnone.2]; rfl
  · exact keeps_admitBatch h (batched_admitted hfresh.distinct hnormal) hfresh

theorem keeps_applyTrashBatch (h : Holds o call w₀ w) (hfresh : Fresh call w)
    (hhonest : Honest call) :
    Keeps (Holds o call w₀) (applyTrashBatch o call) w
      fun n _ => call.apply = true → call.isRedlist = false →
        n.1 + n.2.1 + n.2.2 = call.admittedBatch.length := by
  unfold applyTrashBatch
  refine (keeps_readyBatch h hfresh).bind fun x u hu hx => ?_
  cases x with
  | inl returned => exact Keeps.pure hu fun happly _ => hx happly
  | inr next =>
    obtain ⟨ready, failed, protections⟩ := next
    obtain ⟨hready, hcount⟩ := hx
    exact (keeps_applyReady hu hready hhonest).mono fun n _ _ hn _ hred => (hn hred).trans hcount

end Call

end TrashCall
end Actions
end Neocortex
