import Neocortex.Actions.Turns

/-!
# The inventory follows the Trash

Which paths a call of `_apply_trash_batch` gives to the inventory, against the rows that it moves
to `applied`.  `Track` says that so far the call has given none, and which rows it has moved;
nothing but a confirmation changes that (`Quiet`).

The confirmed paths of the one-by-one loop are in a local variable until the loop ends, so an
exception that leaves the loop loses them; and a confirmation that raises once it is durable is
taken for one that failed.  `Steady` says of the answers alone that neither happens.

* `quiet_finish` and the lemmas behind it: what is not a confirmation;
* `confirm_paths`: a confirmation moves the rows of its members;
* `inventory_follows`: the inventory is given exactly the paths of the rows that were moved, however
  a steady call ends;
* `cancelled_loop_abandons`, `interrupted_commit_abandons`: a cancellation between two members, and an
  interrupt on the COMMIT of a batch, leave the inventory behind.
-/

namespace Neocortex
namespace Actions

open Python Checks Durable

/-! ## Rows that become applied -/

/-- The row is `applied` now and was not in `l₀`. -/
def becameApplied (l₀ : Ledger) (r : ActionRow) : Bool :=
  r.status == .applied && (l₀.action? r.actionId).map ActionRow.status != some .applied

/-- The paths of the rows that were moved to `applied` since `l₀`. -/
def appliedSince (l₀ l : Ledger) : List Text :=
  (l.actions.filter (becameApplied l₀)).map fun r => r.spec.sourcePath

/-- The paths given to the inventory since `w₀`, now or for later, are those of the rows that were
moved to `applied`, each once. -/
def Follows (w₀ w : World) : Prop :=
  ∃ now later, w.reconciled = w₀.reconciled ++ now ∧ w.deferred = w₀.deferred ++ later ∧
    (now ++ later).Perm (appliedSince w₀.ledger w.ledger)

namespace TrashCall

section Ledger

variable {l₀ l l' : Ledger} {P : ActionRow → ActionRow → Prop}

theorem becameApplied_of_ne {r : ActionRow} (h : r.status ≠ .applied) :
    becameApplied l₀ r = false := by
  simp [becameApplied, h]

theorem appliedSince_edit (h : Ledger.Edit P l l') (hP : ∀ q r, P q r → r.status ≠ .applied) :
    appliedSince l₀ l' = appliedSince l₀ l := by
  cases h with
  | @move before after events r r' e same step id source target holds =>
    have hr : r.status ≠ .applied := by
      intro happlied
      rw [happlied] at step
      cases step
    simp only [appliedSince, List.filter_append, List.filter_cons, becameApplied_of_ne hr,
      becameApplied_of_ne (hP r r' holds)]
    rfl
  | @opened _ r e fresh status id source target =>
    have hr : r.status ≠ .applied := by
      rw [status]
      decide
    simp [appliedSince, List.filter_append, becameApplied_of_ne hr]

theorem appliedSince_edits (h : Ledger.Edits P l l') (hP : ∀ q r, P q r → r.status ≠ .applied) :
    appliedSince l₀ l' = appliedSince l₀ l := by
  induction h with
  | refl => rfl
  | tail _ hedit ih => rw [appliedSince_edit hedit hP, ih]

/-- A row that is `applying` was not `applied` before. -/
theorem becameApplied_of_applying (hkept : l₀.Extends l) (hids : l.Ids) {r r' : ActionRow}
    (hr : r ∈ l.actions) (happlying : r.status = .applying) (hid : r'.actionId = r.actionId)
    (happlied : r'.status = .applied) : becameApplied l₀ r' = true := by
  simp only [becameApplied, happlied, BEq.rfl, Bool.true_and, bne_iff_ne, ne_eq]
  intro hbefore
  obtain ⟨a, ha, hstatus⟩ := Option.map_eq_some_iff.mp hbefore
  have hmem : a ∈ l.actions := hkept.settled a (List.mem_of_find?_eq_some ha) (by rw [hstatus]; rfl)
  have haid : a.actionId = r'.actionId := by simpa using List.find?_some ha
  rw [hids.unique.eq hmem hr (haid.trans hid), happlying] at hstatus
  cases hstatus

/-- A confirmation of one action. -/
theorem confirm_one (hkept : l₀.Extends l) (hids : l.Ids) {id : ℕ} {receipt : Text}
    {r : ActionRow} (hr : r ∈ l.actions) (hid : r.actionId = id) (happlying : r.status = .applying)
    (h : l.transition id .applied none .effectConfirmed (some receipt) (some receipt) = .ok l') :
    (r.spec.sourcePath :: appliedSince l₀ l).Perm (appliedSince l₀ l') ∧
      ∀ a ∈ l.actions, a.actionId ≠ id → a ∈ l'.actions := by
  have hfind := (Ledger.action?_eq_some hids).mpr ⟨hr, hid⟩
  unfold Ledger.transition at h
  simp only [hfind, happlying] at h
  rw [if_neg (by decide), if_neg (by decide)] at h
  obtain rfl := Except.ok.inj h
  obtain ⟨before, after, hsplit⟩ := List.append_of_mem hr
  obtain ⟨actions, events⟩ := l
  obtain rfl : actions = before ++ r :: after := hsplit
  subst hid
  constructor
  · rw [Ledger.rewrite, Ledger.updateWhere_split hids]
    have hbecame : becameApplied l₀ { r with
        status := .applied, detail := none
        effectReceiptJson := (some receipt).or r.effectReceiptJson } = true :=
      becameApplied_of_applying hkept hids hr happlying rfl rfl
    have hwas : becameApplied l₀ r = false := becameApplied_of_ne (by rw [happlying]; decide)
    simp only [appliedSince, List.filter_append, List.filter_cons, hbecame, hwas, if_true,
      Bool.false_eq_true, if_false, List.map_append, List.map_cons]
    exact List.perm_middle.symm
  · intro a ha hne
    refine Rows.mem_updateWhere.mpr ⟨a, ha, ?_⟩
    rw [if_neg (by simpa using hne)]

/-- A confirmation moves the rows of its members, if they are `applying`. -/
theorem confirm_paths {ι : Type} {items : List ι} {id : ι → ℕ} {receipt : ι → Text}
    (path : ι → Text) (hkept : l₀.Extends l) (hids : l.Ids) (hnodup : (items.map id).Nodup)
    (hrows : ∀ i ∈ items, ∃ r ∈ l.actions, r.actionId = id i ∧ r.status = .applying ∧
      r.spec.sourcePath = path i)
    (h : l.confirmFileActionsApplied (items.map fun i => (id i, receipt i)) = .ok l') :
    (items.map path ++ appliedSince l₀ l).Perm (appliedSince l₀ l') := by
  unfold Ledger.confirmFileActionsApplied at h
  rw [bind_eq_ok] at h
  obtain ⟨-, -, h⟩ := h
  induction items generalizing l with
  | nil =>
    rw [List.map_nil, List.foldlM_nil, pure_eq_ok] at h
    exact h ▸ .refl _
  | cons i items ih =>
    rw [List.map_cons, List.foldlM_cons, bind_eq_ok] at h
    obtain ⟨middle, hmiddle, h⟩ := h
    obtain ⟨r, hr, hid, happlying, hpath⟩ := hrows i List.mem_cons_self
    obtain ⟨hnew, hnodup⟩ := List.nodup_cons.mp hnodup
    obtain ⟨hperm, hothers⟩ := confirm_one hkept hids hr hid happlying hmiddle
    have hedits : Ledger.Edits (fun _ _ => True) l middle :=
      Ledger.edits_transition hids hmiddle fun _ _ _ => trivial
    have hrest : (items.map path ++ appliedSince l₀ middle).Perm (appliedSince l₀ l') := by
      refine ih (hkept.trans hedits.extends) (hedits.ids hids) hnodup (fun k hk => ?_) h
      obtain ⟨a, ha, haid, hrow⟩ := hrows k (List.mem_cons_of_mem _ hk)
      refine ⟨a, hothers a ha fun hsame => hnew ?_, haid, hrow⟩
      exact List.mem_map.mpr ⟨k, hk, haid.symm.trans hsame⟩
    rw [List.map_cons, List.cons_append]
    refine List.Perm.trans ?_ hrest
    refine List.perm_middle.symm.trans (List.Perm.append_left _ ?_)
    exact hpath ▸ hperm

end Ledger

/-! ## What is not a confirmation -/

variable {o : Outside} {call : TrashCall} {w₀ w u t : World} {S : Set ℕ} {m : Ready}

/-- From `w` to `t` only rows of `S` have moved, none of them to `applied`, and the inventory has
been given nothing. -/
structure Quiet (S : Set ℕ) (w t : World) : Prop where
  ids : t.ledger.Ids
  edits : ∃ P, Ledger.Edits P w.ledger t.ledger ∧
    ∀ q r, P q r → r.actionId ∈ S ∧ r.status ≠ .applied
  reconciled : t.reconciled = w.reconciled
  deferred : t.deferred = w.deferred

theorem Quiet.refl (hids : w.ledger.Ids) : Quiet S w w :=
  ⟨hids, ⟨Ledger.Unmoved, .refl, fun _ _ h => h.elim⟩, rfl, rfl⟩

theorem Quiet.trans (h : Quiet S w u) (h' : Quiet S u t) : Quiet S w t := by
  obtain ⟨P, hP, hPS⟩ := h.edits
  obtain ⟨Q, hQ, hQS⟩ := h'.edits
  exact ⟨h'.ids, ⟨fun q r => P q r ∨ Q q r, (hP.mono fun _ _ => .inl).trans (hQ.mono fun _ _ => .inr),
    fun q r hqr => hqr.elim (hPS q r) (hQS q r)⟩, h'.reconciled.trans h.reconciled,
    h'.deferred.trans h.deferred⟩

theorem Quiet.mono {S' : Set ℕ} (h : Quiet S w t) (hsub : S ⊆ S') : Quiet S' w t := by
  obtain ⟨P, hP, hPS⟩ := h.edits
  exact ⟨h.ids, ⟨P, hP, fun q r hqr => ⟨hsub (hPS q r hqr).1, (hPS q r hqr).2⟩⟩, h.reconciled,
    h.deferred⟩

/-- A row outside `S` stays as it is. -/
theorem Quiet.row (h : Quiet S w t) {r : ActionRow} (hr : r ∈ w.ledger.actions)
    (hS : r.actionId ∉ S) : r ∈ t.ledger.actions := by
  obtain ⟨P, hP, hPS⟩ := h.edits
  obtain ⟨r', hr', hsame, rfl | ⟨q, hq⟩⟩ := Ledger.Edits.row hP r hr
  · exact hr'
  · exact absurd (hsame.actionId ▸ (hPS q r' hq).1) hS

/-- The candidate has its row. -/
def Rowed (call : TrashCall) (w : World) (m : Ready) : Prop :=
  ∃ r ∈ w.ledger.actions, call.IsRow m r

theorem Quiet.rowed (h : Quiet S w t) (hm : Rowed call w m) : Rowed call t m := by
  obtain ⟨P, hP, -⟩ := h.edits
  obtain ⟨r, hr, hrow⟩ := hm
  obtain ⟨r', hr', hsame, -⟩ := Ledger.Edits.row hP r hr
  exact ⟨r', hr', hsame.actionId.trans hrow.actionId, hsame.runId.trans hrow.runId,
    hsame.spec.trans hrow.spec⟩

/-- What is quiet for some rows is quiet for more. -/
theorem keeps_quiet_mono {S' : Set ℕ} {α : Type} {x : Trash α} {P : α → World → Prop}
    (hsub : S ⊆ S') (h : Keeps (Quiet S w) x u P) :
    Keeps (Quiet S' w) x u fun a v => Quiet S w v ∧ P a v := by
  refine wp_mono (fun _ hv => hv.mono hsub) (fun r v hr => ?_) h
  cases r with
  | error e => exact hr.mono hsub
  | ok a => exact ⟨hr.1.mono hsub, hr.1, hr.2⟩

/-- A quiet stretch behind another. -/
theorem keeps_quiet_from {α : Type} {x : Trash α} {P : α → World → Prop} (hu : Quiet S w u)
    (h : Keeps (Quiet S u) x u P) : Keeps (Quiet S w) x u fun a v => Quiet S u v ∧ P a v := by
  refine wp_mono (fun _ hv => hu.trans hv) (fun r v hr => ?_) h
  cases r with
  | error e => exact hu.trans hr
  | ok a => exact ⟨hu.trans hr.1, hr.1, hr.2⟩

theorem quiet_edits {l : Ledger} {P : ActionRow → ActionRow → Prop} (h : Quiet S w u)
    (hedits : Ledger.Edits P u.ledger l)
    (hP : ∀ q r, P q r → r.actionId ∈ S ∧ r.status ≠ .applied) :
    Quiet S w { u with ledger := l } :=
  h.trans ⟨hedits.ids h.ids, ⟨P, hedits, hP⟩, rfl, rfl⟩

theorem quiet_finish {ids : List ℕ} {detail : Option Text} {fault : Option Fault}
    (status : ActionStatus) (h : Quiet S w u) (happlied : status ≠ .applied)
    (hids : ∀ id ∈ ids, id ∈ S) :
    Keeps (Quiet S w) (commit fault fun ledger => ledger.finishFileActions ids status detail) u
      fun _ _ => True := by
  refine wp_commit (fun _ => h) fun l hl => ?_
  have hnext : Quiet S w { u with ledger := l } := by
    refine quiet_edits h (Ledger.edits_finish h.ids hl) ?_
    rintro q r ⟨hid, rfl⟩
    exact ⟨hids _ hid, happlied⟩
  exact ⟨hnext, ⟨hnext, trivial⟩, fun _ _ => hnext⟩

theorem quiet_recovery {ids : List ℕ} {detail : Text} {fault : Option Fault} (h : Quiet S w u)
    (hids : ∀ id ∈ ids, id ∈ S) :
    Keeps (Quiet S w) (commit fault fun ledger => ledger.requireFileActionRecovery ids detail) u
      fun _ _ => True :=
  quiet_finish .recoveryRequired h (by decide) hids

/-- A program whose exceptions are dropped. -/
theorem quiet_dropped {x : Trash Unit} (h : Keeps (Quiet S w) x u fun _ _ => True) :
    Keeps (Quiet S w) (x.handle fun _ => pure ()) u fun _ _ => True :=
  Keeps.handle h fun _ _ hv => Keeps.pure hv trivial

theorem quiet_bestEffort {detail : Text} (h : Quiet S w u) (hm : m.actionId ∈ S) :
    Keeps (Quiet S w) (bestEffortRequireRecovery m detail) u fun _ _ => True :=
  quiet_dropped (quiet_recovery h (by simpa using hm))

theorem quiet_finishUninvoked {ready : List Ready} {e : Raised} (h : Quiet Set.univ w u) :
    Keeps (Quiet Set.univ w) (finishUninvokedTrashActions call ready e) u fun _ _ => True := by
  unfold finishUninvokedTrashActions
  split_ifs
  · exact Keeps.pure h trivial
  · refine Keeps.handle (E := fun _ v => Quiet Set.univ w v)
      (quiet_finish .skipped h (by decide) fun _ _ => trivial) fun _ v hv => ?_
    exact quiet_dropped (quiet_recovery hv fun _ _ => trivial)

theorem quiet_checkpointBefore {checkpoint : Checked Unit} {ready : List Ready}
    (h : Quiet Set.univ w u) :
    Keeps (Quiet Set.univ w) (checkpointBefore call checkpoint ready) u fun _ v => v = u := by
  unfold checkpointBefore
  cases checkpoint with
  | ok _ => exact Keeps.pure h rfl
  | error e =>
    dsimp only
    split_ifs
    · exact (quiet_finishUninvoked h).bind fun _ v hv _ => keeps_raise hv
    · exact keeps_raise h

theorem quiet_settleBlocked {detail : Text} (h : Quiet S w u) (hm : m.actionId ∈ S) :
    Keeps (Quiet S w) (settleBlocked call m detail) u fun verdict _ => verdict ≠ .applied := by
  refine Keeps.handle (E := fun _ v => Quiet S w v) ?_ fun _ v hv => ?_
  · refine (quiet_finish .skipped h (by decide) (by simpa using hm)).bind fun _ v hv _ => ?_
    refine Keeps.pure hv ?_
    split_ifs <;> decide
  · exact (quiet_bestEffort hv hm).bind fun _ x hx _ => Keeps.pure hx (by decide)

theorem quiet_isolate {e : Raised} (h : Quiet Set.univ w u) :
    Keeps (Quiet Set.univ w) (isolate m e) u fun _ _ => True := by
  refine quiet_dropped ?_
  cases m.answers.fault .read with
  | some failure => exact keeps_raise h
  | none =>
    dsimp only
    unfold closeFailed
    rw [Keeps, wp_read_bind]
    split
    · exact quiet_recovery h fun _ _ => trivial
    · exact quiet_finish .failed h (by decide) fun _ _ => trivial
    · exact Keeps.pure h trivial

/-- The batch, or one member of it, crosses the frontier. -/
theorem quiet_mark {actions : List (ℕ × Text)} {fault : Option Fault}
    {boundary : Ledger.Boundary} (h : Quiet Set.univ w u) :
    Keeps (Quiet Set.univ w)
      (commit fault fun ledger => ledger.markFileActionsApplying boundary actions) u
      fun _ v => (actions.map Prod.fst).Nodup ∧ ∀ a ∈ actions, ∃ r ∈ v.ledger.actions,
        r.actionId = a.1 ∧ r.status = .applying := by
  refine wp_commit (fun _ => h) fun l hl => ?_
  have hnext : Quiet Set.univ w { u with ledger := l } := by
    refine quiet_edits h (Ledger.edits_mark h.ids hl) ?_
    rintro q r ⟨json, -, -, rfl⟩
    exact ⟨trivial, fun happlied => nomatch happlied⟩
  obtain ⟨hnodup, hrows⟩ := Ledger.mark_rows h.ids (Ledger.markFileActionsApplying_eq_ok hl)
  refine ⟨hnext, ⟨hnext, hnodup, fun a ha => ?_⟩, fun _ _ => hnext⟩
  obtain ⟨r, -, hid, -, hmarked⟩ := hrows a ha
  exact ⟨_, hmarked, hid, rfl⟩

theorem quiet_invoke {id : ℕ} {planned : FileSnapshot} {removes : Bool} (h : Quiet S w u) :
    Keeps (Quiet S w) (invoke id planned removes) u fun _ v => v.ledger = u.ledger := by
  unfold invoke
  split_ifs
  · rw [Keeps, wp_read_bind]
    exact Keeps.write ⟨h.ids, h.edits, h.reconciled, h.deferred⟩ rfl
  · exact Keeps.pure h rfl

/-! ## The one-by-one loop -/

/-- The call, which began in `w₀`, has moved the rows of `paths` to `applied` and has given the
inventory nothing. -/
structure Track (w₀ w : World) (paths : List Text) : Prop where
  ids : w.ledger.Ids
  kept : w₀.ledger.Extends w.ledger
  reconciled : w.reconciled = w₀.reconciled
  deferred : w.deferred = w₀.deferred
  paths : paths.Perm (appliedSince w₀.ledger w.ledger)

/-- `Track` at `t`, where every candidate still has its row. -/
structure Turn (call : TrashCall) (w₀ w t : World) (paths : List Text) : Prop where
  track : Track w₀ t paths
  rows : ∀ a, Rowed call w a → Rowed call t a

variable {paths : List Text} {rest ready : List Ready} {planned : FileSnapshot}

theorem Track.of_quiet (h : Track w₀ w paths) (ht : Quiet S w t) : Track w₀ t paths := by
  obtain ⟨P, hP, hPS⟩ := ht.edits
  refine ⟨ht.ids, h.kept.trans hP.extends, ht.reconciled.trans h.reconciled,
    ht.deferred.trans h.deferred, ?_⟩
  rw [appliedSince_edits hP fun q r hqr => (hPS q r hqr).2]
  exact h.paths

theorem Track.quiet (h : Track w₀ w paths) (ht : Quiet S w t) : Turn call w₀ w t paths :=
  ⟨h.of_quiet ht, fun _ ha => ht.rowed ha⟩

/-- The path of a member that was confirmed. -/
def Verdict.confirmed (path : Text) : Verdict → List Text
  | .applied => [path]
  | _ => []

theorem Tally.count_appliedPaths (tally : Tally) (path : Text) (verdict : Verdict) :
    (tally.count path verdict).appliedPaths = tally.appliedPaths ++ verdict.confirmed path := by
  cases verdict <;> simp [count, Verdict.confirmed]

/-- Confirmed members. -/
theorem turn_confirm {ι : Type} {items : List ι} {member : ι → Ready} (receipt : ι → Text)
    {l : Ledger} (h : Track w₀ w paths) (hq : Quiet S w u)
    (hnodup : (items.map fun i => (member i).actionId).Nodup)
    (hrows : ∀ i ∈ items, ∃ r ∈ u.ledger.actions, call.IsRow (member i) r ∧ r.status = .applying)
    (hl : u.ledger.confirmFileActionsApplied
      (items.map fun i => ((member i).actionId, receipt i)) = .ok l) :
    Turn call w₀ w { u with ledger := l } (paths ++ items.map fun i => (member i).path) := by
  have hu : Turn call w₀ w u paths := h.quiet hq
  have hedits := Ledger.edits_confirm hq.ids hl
  refine ⟨⟨hedits.ids hq.ids, hu.track.kept.trans hedits.extends, hu.track.reconciled,
    hu.track.deferred, ?_⟩, fun a ha => ?_⟩
  · have hconfirm := confirm_paths (fun i => (member i).path) hu.track.kept hq.ids hnodup
      (fun i hi => ?_) hl
    · exact List.perm_append_comm.trans
        ((List.Perm.append_left _ hu.track.paths).trans hconfirm)
    · obtain ⟨r, hr, hrow, happlying⟩ := hrows i hi
      refine ⟨r, hr, hrow.actionId, happlying, ?_⟩
      rw [hrow.spec]
      rfl
  · obtain ⟨r, hr, hrow⟩ := hu.rows a ha
    obtain ⟨r', hr', hsame, -⟩ := Ledger.Edits.row hedits r hr
    exact ⟨r', hr', hsame.actionId.trans hrow.actionId, hsame.runId.trans hrow.runId,
      hsame.spec.trans hrow.spec⟩

/-- How a piece of the loop ends: by a verdict, with the rows that it moved, or by an exception,
with none. -/
def EndsTurn (call : TrashCall) (w₀ w : World) (paths : List Text) (path : Text) (x : Trash Verdict)
    (u : World) : Prop :=
  wp x u (fun _ => True) (onEnd (fun verdict t => Turn call w₀ w t (paths ++ verdict.confirmed path))
    fun _ t => Quiet Set.univ w t)

theorem endsTurn_of_quiet {path : Text} {x : Trash Verdict} (h : Track w₀ w paths)
    (hx : Keeps (Quiet Set.univ w) x u fun verdict _ => verdict ≠ .applied) :
    EndsTurn call w₀ w paths path x u := by
  refine wp_mono (fun _ _ => trivial) (fun r t hr => ?_) hx
  cases r with
  | error e => exact hr
  | ok verdict =>
    have hnone : verdict.confirmed path = [] := by
      cases verdict with
      | applied => exact absurd rfl hr.2
      | _ => rfl
    rw [onEnd_ok, hnone, List.append_nil]
    exact h.quiet hr.1

theorem endsTurn_seq {α : Type} {path : Text} {x : Trash α} {f : α → Trash Verdict}
    {P : α → World → Prop} (hx : Keeps (Quiet Set.univ w) x u P)
    (hf : ∀ a v, Quiet Set.univ w v → P a v → EndsTurn call w₀ w paths path (f a) v) :
    EndsTurn call w₀ w paths path (x >>= f) u := by
  refine wp_seq (wp_mono (fun _ _ => trivial) (fun r t hr => hr) hx)
    (fun a v hv => hf a v hv.1 hv.2) fun _ _ ht => ht

theorem endsTurn_settleOutcome {outcome : BackendOutcome} {sourceDigest : Text}
    (hlate : ∀ e, m.answers.fault .confirmation ≠ some (.committed e))
    (h : Track w₀ w paths) (hm : Rowed call w m) (hu : Quiet Set.univ w u)
    (happlying : ∃ r ∈ u.ledger.actions, r.actionId = m.actionId ∧ r.status = .applying) :
    EndsTurn call w₀ w paths m.path (settleOutcome o call m planned sourceDigest outcome) u := by
  unfold settleOutcome
  cases outcome.status with
  | applied =>
    cases outcome.receiptJson with
    | none =>
      refine endsTurn_of_quiet h ((quiet_recovery hu fun _ _ => trivial).bind fun _ v hv _ => ?_)
      exact Keeps.pure hv (by decide)
    | some receipt =>
      dsimp only
      cases validateTrashReceipt o.pathKey o.floatIsOne m.answers.verify receipt planned
          sourceDigest with
      | ok _ =>
        rw [EndsTurn, wp_bind]
        refine wp_commit (fun _ => hu) fun l hl =>
          ⟨trivial, wp_pure.mpr ?_, fun e he => absurd he (hlate e)⟩
        obtain ⟨r, hr, hrow⟩ := hu.rowed hm
        obtain ⟨a, ha, hid, hstatus⟩ := happlying
        obtain rfl := hu.ids.unique.eq ha hr (hid.trans hrow.actionId.symm)
        have hturn : Turn call w₀ w { u with ledger := l }
            (paths ++ [m].map fun i => (id i).path) :=
          turn_confirm (fun _ => receipt) h hu (List.nodup_singleton _)
            (fun i hi => ⟨a, hr, List.mem_singleton.mp hi ▸ hrow, hstatus⟩) hl
        exact hturn
      | error e =>
        dsimp only
        split_ifs
        · refine endsTurn_of_quiet h ((quiet_bestEffort hu trivial).bind fun _ v hv _ => ?_)
          exact Keeps.pure hv (by decide)
        · exact endsTurn_of_quiet h (keeps_raise hu)
  | recoveryRequired =>
    refine endsTurn_of_quiet h ((quiet_recovery hu fun _ _ => trivial).bind fun _ v hv _ => ?_)
    exact Keeps.pure hv (by decide)
  | blocked => exact endsTurn_of_quiet h (quiet_settleBlocked hu trivial)

theorem endsTurn_attempt
    (hlate : ∀ e, m.answers.fault .confirmation ≠ some (.committed e))
    (h : Track w₀ w paths) (hm : Rowed call w m) :
    EndsTurn call w₀ w paths m.path (attempt o call m planned) w := by
  have hw : Quiet Set.univ w w := .refl h.ids
  unfold attempt
  refine endsTurn_seq (Keeps.lift (P := fun _ _ => True) hw fun _ _ => trivial)
    fun sourceDigest u hu _ => ?_
  refine endsTurn_seq (Keeps.lift (P := fun _ _ => True) hu fun _ _ => trivial)
    fun text u hu _ => ?_
  refine endsTurn_seq (quiet_mark hu) fun _ u hu hmark => ?_
  refine endsTurn_seq (quiet_invoke hu) fun _ v hv hledger => ?_
  cases m.answers.reply with
  | raises e => exact endsTurn_of_quiet h (keeps_raise hv)
  | unsupported => exact endsTurn_of_quiet h (keeps_raise hv)
  | outcome outcome =>
    refine endsTurn_settleOutcome hlate h hm hv ?_
    rw [hledger]
    exact hmark.2 _ (List.mem_singleton.mpr rfl)

theorem endsTurn_attemptHandled
    (hlate : ∀ e, m.answers.fault .confirmation ≠ some (.committed e))
    (h : Track w₀ w paths) (hm : Rowed call w m) :
    EndsTurn call w₀ w paths m.path (attemptHandled o call m rest planned) w := by
  rw [EndsTurn, attemptHandled, wp_handle]
  refine wp_mono (fun _ ht => ht) (fun r t hr => ?_) (endsTurn_attempt hlate h hm)
  cases r with
  | ok verdict => exact hr
  | error e =>
    rw [onEnd_error] at hr ⊢
    split_ifs
    · refine endsTurn_of_quiet h ((quiet_bestEffort hr trivial).bind fun _ v hv _ => ?_)
      exact (quiet_finishUninvoked hv).bind fun _ x hx _ => keeps_raise hx
    · refine endsTurn_of_quiet h ((quiet_isolate hr).bind fun _ v hv _ => ?_)
      exact Keeps.pure hv (by decide)
    · exact endsTurn_of_quiet h (keeps_raise hr)

/-- One turn of the loop. -/
theorem endsTurn_applyOne
    (hlate : ∀ e, m.answers.fault .confirmation ≠ some (.committed e))
    (h : Track w₀ w paths) (hm : Rowed call w m) :
    EndsTurn call w₀ w paths m.path (applyOne o call m rest) w := by
  have hw : Quiet Set.univ w w := .refl h.ids
  unfold applyOne
  refine endsTurn_seq (quiet_checkpointBefore hw) fun _ u hu huw => ?_
  subst huw
  cases m.expected with
  | none =>
    refine endsTurn_of_quiet h
      ((quiet_finish .failed hu (by decide) fun _ _ => trivial).bind fun _ v hv _ => ?_)
    exact Keeps.pure hv (by decide)
  | some planned => exact endsTurn_attemptHandled hlate h hm

/-- No confirmation of the candidates raises once it is durable, and none of them is foretold to be
confirmed in front of one that is foretold to raise. -/
structure SteadyLoop (o : Outside) (call : TrashCall) (cs : List Candidate) : Prop where
  late : ∀ c ∈ cs, ∀ e, c.answers.fault .confirmation ≠ some (.committed e)
  pairs : cs.Pairwise fun c d => foretold o call c = .ok true → ∀ e, foretold o call d ≠ .error e

theorem SteadyLoop.sublist {cs cs' : List Candidate} (h : SteadyLoop o call cs)
    (hsub : cs'.Sublist cs) : SteadyLoop o call cs' :=
  ⟨fun c hc => h.late c (hsub.subset hc), h.pairs.sublist hsub⟩

/-- What a steady loop leaves: all that it confirmed is in the tally, and if it raises, nothing was
confirmed. -/
theorem applyEach_track {tally : Tally} (h : Track w₀ w tally.appliedPaths)
    (hready : ∀ m ∈ ready, Rowed call w m)
    (hsteady : SteadyLoop o call (ready.map Ready.toCandidate))
    (hsafe : tally.appliedPaths ≠ [] → ∀ m ∈ ready, ∀ e,
      foretold o call m.toCandidate ≠ .error e) :
    wp (applyEach o call ready tally) w (fun _ => True)
      (onEnd (fun tally' t => Track w₀ t tally'.appliedPaths) fun _ t => Track w₀ t []) := by
  induction ready generalizing w tally with
  | nil => exact wp_pure.mpr h
  | cons m rest ih =>
    have hm := hready m List.mem_cons_self
    have hturn := (endsTurn_applyOne (hsteady.late _ List.mem_cons_self) h hm :
      EndsTurn call w₀ w _ m.path (applyOne o call m rest) w)
    obtain ⟨r, hr, hrow⟩ := hm
    obtain ⟨hnext, hpairs⟩ := List.pairwise_cons.mp hsteady.pairs
    unfold applyEach
    rw [wp_bind]
    refine ⟨fun _ _ => trivial, ?_⟩
    have hend := hturn.2
    have hforetold := (foretells_applyOne h.ids hr hrow : wp (applyOne o call m rest) w _ _).2
    cases hresult : (applyOne o call m rest w).result with
    | error e =>
      rw [hresult] at hend hforetold
      obtain ⟨failure, hfailure⟩ := hforetold
      rw [onEnd_error, onEnd_error]
      -- the turn was foretold to raise, so no member in front of it was confirmed
      have hnone : tally.appliedPaths = [] :=
        not_not.mp fun hsome => hsafe hsome m List.mem_cons_self failure hfailure
      exact hnone ▸ h.of_quiet hend
    | ok verdict =>
      rw [hresult, onEnd_ok, ← Tally.count_appliedPaths] at hend
      rw [hresult, onEnd_ok] at hforetold
      rw [onEnd_ok]
      refine ih hend.track (fun a ha => hend.rows a (hready a (List.mem_cons_of_mem _ ha)))
        (hsteady.sublist (List.sublist_cons_self _ _)) fun hsome a ha => ?_
      by_cases happlied : verdict = .applied
      · exact hnext a.toCandidate (List.mem_map_of_mem ha) (hforetold happlied)
      · refine hsafe (fun hnone => hsome ?_) a (List.mem_cons_of_mem _ ha)
        rw [Tally.count_appliedPaths, hnone, List.nil_append]
        cases verdict with
        | applied => exact absurd rfl happlied
        | _ => rfl

/-! ## What the inventory is given -/

/-- Before anything is given, the inventory follows if nothing was confirmed. -/
theorem Track.follows_iff (h : Track w₀ t paths) : Follows w₀ t ↔ paths = [] := by
  constructor
  · rintro ⟨now, later, hnow, hlater, hperm⟩
    have hnow : now = [] := List.append_right_eq_self.mp (hnow.symm.trans h.reconciled)
    have hlater : later = [] := List.append_right_eq_self.mp (hlater.symm.trans h.deferred)
    rw [hnow, hlater] at hperm
    exact List.perm_nil.mp (h.paths.trans hperm.symm)
  · intro hpaths
    subst hpaths
    exact ⟨[], [], by simpa using h.reconciled, by simpa using h.deferred, h.paths⟩

/-- The program ends with an inventory that follows. -/
def EndsFollowed (w₀ : World) {α : Type} (x : Trash α) (u : World) : Prop :=
  wp x u (fun _ => True) fun _ t => Follows w₀ t

theorem endsFollowed_seq {α β : Type} {x : Trash α} {f : α → Trash β}
    {P : α → World → Prop} (hx : wp x u (fun _ => True) (onEnd P fun _ t => Follows w₀ t))
    (hf : ∀ a v, P a v → EndsFollowed w₀ (f a) v) : EndsFollowed w₀ (x >>= f) u :=
  wp_seq hx hf fun _ _ ht => ht

/-- A stretch without confirmation, in a call that has confirmed nothing. -/
theorem quiet_follows {α : Type} {x : Trash α} {P : α → World → Prop} (h : Track w₀ w [])
    (hx : Keeps (Quiet S w) x u P) :
    wp x u (fun _ => True) (onEnd (fun a v => Quiet S w v ∧ P a v) fun _ t => Follows w₀ t) := by
  refine wp_mono (fun _ _ => trivial) (fun r t hr => ?_) hx
  cases r with
  | error e => exact (h.of_quiet hr).follows_iff.mpr rfl
  | ok a => exact hr

theorem endsFollowed_reconcile (h : Track w₀ u paths) :
    EndsFollowed w₀ (reconcile call paths) u := by
  unfold reconcile
  split_ifs with hempty
  · exact wp_pure.mpr (h.follows_iff.mpr hempty)
  · rw [EndsFollowed, wp_read_bind]
    refine wp_write.mpr ⟨trivial, [], paths, by simpa using h.reconciled, ?_, h.paths⟩
    rw [h.deferred]
  · rw [EndsFollowed, wp_read_bind, wp_write_bind]
    refine ⟨trivial, wp_lift.mpr ⟨paths, [], ?_, by simpa using h.deferred, ?_⟩⟩
    · rw [h.reconciled]
    · simpa using h.paths

theorem endsFollowed_applyOneByOne {failed protections : ℕ} (h : Track w₀ w [])
    (hready : ∀ m ∈ ready, Rowed call w m)
    (hsteady : SteadyLoop o call (ready.map Ready.toCandidate)) :
    EndsFollowed w₀ (applyOneByOne o call ready failed protections) w := by
  unfold applyOneByOne
  refine wp_seq (applyEach_track h hready hsteady fun hsome => absurd rfl hsome)
    (fun tally t ht => ?_) fun _ t ht => ht.follows_iff.mpr rfl
  refine endsFollowed_seq (P := fun _ v => Follows w₀ v) ?_ fun _ v hv => wp_pure.mpr hv
  refine wp_mono (fun _ hv => hv) (fun r v hv => ?_) (endsFollowed_reconcile ht)
  cases r <;> exact hv

/-! ## The batch backend -/

theorem quiet_prepareEach (h : Quiet Set.univ w u) :
    Keeps (Quiet Set.univ w) (prepareEach ready) u
      fun x _ => ∀ p ∈ x.1, p.toReady ∈ ready := by
  induction ready generalizing u with
  | nil => exact Keeps.pure h fun _ hp => absurd hp List.not_mem_nil
  | cons m rest ih =>
    have hfailed : ∀ {fault : Option Fault} {detail : Option Text}, Keeps (Quiet Set.univ w)
        (do
          commit fault fun ledger => ledger.finishFileActions [m.actionId] .failed detail
          let x ← prepareEach rest
          pure (x.1, x.2 + 1)) u fun x _ => ∀ p ∈ x.1, p.toReady ∈ m :: rest := by
      intro fault detail
      refine (quiet_finish .failed h (by decide) fun _ _ => trivial).bind fun _ v hv _ => ?_
      refine (ih hv).bind fun x s hs hx => ?_
      exact Keeps.pure hs fun p hp => List.mem_cons_of_mem _ (hx p hp)
    unfold prepareEach
    cases m.expected with
    | none => exact hfailed
    | some planned =>
      dsimp only
      split
      · refine (ih h).bind fun x s hs hx => Keeps.pure hs fun p hp => ?_
        rcases List.mem_cons.mp hp with rfl | hp
        · exact List.mem_cons_self
        · exact List.mem_cons_of_mem _ (hx p hp)
      · split_ifs
        · exact hfailed
        · exact keeps_raise h

theorem quiet_invokeEach {backend : BatchBackend} {prepared : List Prepared} (h : Quiet S w u) :
    Keeps (Quiet S w) (invokeEach backend prepared) u fun _ v => v.ledger = u.ledger := by
  refine Keeps.each (J := fun _ v => v.ledger = u.ledger) h rfl fun _ x _ v _ hv hJ => ?_
  exact (quiet_invoke hv).mono fun _ s _ hs => hs.trans hJ

theorem quiet_requireRecoveryEach {members : List Prepared} {detail : Text}
    (h : Quiet Set.univ w u) :
    Keeps (Quiet Set.univ w) (requireRecoveryEach members detail) u fun _ _ => True :=
  Keeps.each (J := fun _ _ => True) h trivial fun _ _ _ _ _ hv _ => quiet_bestEffort hv trivial

/-- What the outcomes leave: receipts of distinct members, whose rows stay as they are. -/
structure Unsettled (w : World) (pairs : List (Prepared × Option BackendOutcome))
    (x : List Confirmation × ℕ × ℕ) (t : World) : Prop where
  sub : (x.1.map Confirmation.member).Sublist (pairs.map Prod.fst)
  rows : ∀ c ∈ x.1, ∀ r ∈ w.ledger.actions, r.actionId = c.member.actionId → r ∈ t.ledger.actions

theorem quiet_settleEach {pairs : List (Prepared × Option BackendOutcome)} (hids : w.ledger.Ids)
    (hnodup : (pairs.map fun p => p.1.actionId).Nodup) :
    Keeps (Quiet { id | id ∈ pairs.map fun p => p.1.actionId } w) (settleEach o call pairs) w
      (Unsettled w pairs) := by
  induction pairs generalizing w with
  | nil => exact Keeps.pure (.refl hids) ⟨.slnil, fun _ hc => absurd hc List.not_mem_nil⟩
  | cons p rest ih =>
    obtain ⟨m, outcome⟩ := p
    obtain ⟨hnew, hothers⟩ := List.nodup_cons.mp hnodup
    have hsub : { id | id ∈ rest.map fun p => p.1.actionId } ⊆
        { id | id ∈ ((m, outcome) :: rest).map fun p => p.1.actionId } :=
      fun id hid => List.mem_cons_of_mem _ hid
    have hm : m.actionId ∈ { id | id ∈ ((m, outcome) :: rest).map fun p => p.1.actionId } :=
      List.mem_cons_self
    have hw : Quiet { id | id ∈ ((m, outcome) :: rest).map fun p => p.1.actionId } w w := .refl hids
    -- the member is settled on the way from `w` to `u`, and the rest of the loop follows
    have hrest : ∀ u, Quiet {m.actionId} w u →
        Keeps (Quiet { id | id ∈ ((m, outcome) :: rest).map fun p => p.1.actionId } w)
          (settleEach o call rest) u (Unsettled w rest) := by
      intro u hu
      have hwide := hu.mono (Set.singleton_subset_iff.mpr hm)
      refine wp_mono (fun v hv => hwide.trans (hv.mono hsub)) (fun r v hr => ?_) (ih hu.ids hothers)
      cases r with
      | error e => exact hwide.trans (hr.mono hsub)
      | ok x =>
        refine ⟨hwide.trans (hr.1.mono hsub), hr.2.sub, fun c hc r hrow hid => ?_⟩
        refine hr.2.rows c hc r (hu.row hrow fun hsame => hnew ?_) hid
        have hmem := hr.2.sub.subset (List.mem_map_of_mem hc)
        obtain ⟨p, hp, hpc⟩ := List.mem_map.mp hmem
        exact List.mem_map.mpr ⟨p, hp, by rw [hpc, ← hid]; exact hsame⟩
    have hrecover : ∀ detail : Text,
        Keeps (Quiet { id | id ∈ ((m, outcome) :: rest).map fun p => p.1.actionId } w)
          (do
            bestEffortRequireRecovery m.toReady detail
            let x ← settleEach o call rest
            pure (x.1, x.2.1 + 1, x.2.2)) w
          (Unsettled w ((m, outcome) :: rest)) := by
      intro detail
      refine (keeps_quiet_mono (Set.singleton_subset_iff.mpr hm)
        (quiet_bestEffort (.refl hids) rfl)).bind fun _ u _ hu => ?_
      refine (hrest u hu.1).bind fun x v hv hx => ?_
      obtain ⟨confirmations, failed, protections⟩ := x
      exact Keeps.pure hv ⟨hx.sub.cons m, hx.rows⟩
    unfold settleEach
    cases outcome with
    | none => exact hrecover _
    | some outcome =>
      dsimp only
      cases outcome.status with
      | applied =>
        cases outcome.receiptJson with
        | none => exact hrecover _
        | some receipt =>
          dsimp only
          cases validateTrashReceipt o.pathKey o.floatIsOne m.answers.verify receipt m.planned
              m.sourceDigest with
          | ok _ =>
            refine (keeps_quiet_mono hsub (ih hids hothers)).bind fun x v hv hx => ?_
            obtain ⟨confirmations, failed, protections⟩ := x
            refine Keeps.pure hv ⟨hx.2.sub.cons_cons m, fun c hc r hr hid => ?_⟩
            rcases List.mem_cons.mp hc with rfl | hc
            · refine hx.1.row hr fun hsame => hnew ?_
              have hid : r.actionId = m.actionId := hid
              rw [hid] at hsame
              exact hsame
            · exact hx.2.rows c hc r hr hid
          | error e =>
            dsimp only
            split_ifs
            · exact hrecover _
            · exact keeps_raise hw
      | recoveryRequired => exact hrecover _
      | blocked =>
        refine (keeps_quiet_mono (Set.singleton_subset_iff.mpr hm)
          (quiet_settleBlocked (.refl hids) rfl)).bind fun verdict u _ hu => ?_
        refine (hrest u hu.1).bind fun x v hv hx => ?_
        obtain ⟨confirmations, failed, protections⟩ := x
        exact Keeps.pure hv ⟨hx.sub.cons m, hx.rows⟩

/-- The confirmation of a batch: the paths that it leaves are those of the rows it moved. -/
theorem confirmAll_track {confirmations : List Confirmation}
    (hlate : ∀ e, call.fault .confirmation ≠ some (.committed e)) (h : Track w₀ w [])
    (hq : Quiet Set.univ w u)
    (hnodup : (confirmations.map fun c => c.member.actionId).Nodup)
    (hrows : ∀ c ∈ confirmations, ∃ r ∈ u.ledger.actions, call.IsRow c.member.toReady r ∧
      r.status = .applying) :
    wp (confirmAll call confirmations) u (fun _ => True)
      (onEnd (fun x t => Track w₀ t x.1) fun _ t => Follows w₀ t) := by
  unfold confirmAll
  split_ifs with hempty
  · exact wp_pure.mpr (h.of_quiet hq)
  · rw [wp_handle, wp_bind]
    refine wp_commit (fun e => ?_) fun l hl =>
      ⟨trivial, wp_pure.mpr ?_, fun e he => absurd he (hlate e)⟩
    · refine wp_seq (quiet_follows h (quiet_requireRecoveryEach hq)) (fun _ v hv => ?_)
        fun _ _ ht => ht
      split_ifs
      · exact wp_pure.mpr (h.of_quiet hv.1)
      · exact wp_lift.mpr ((h.of_quiet hv.1).follows_iff.mpr rfl)
    · have hturn : Turn call w₀ w { u with ledger := l }
          ([] ++ confirmations.map fun c => c.member.toReady.path) :=
        turn_confirm Confirmation.receipt h hq hnodup hrows hl
      exact hturn.track

theorem endsFollowed_applyTrashBackendBatch {backend : BatchBackend} {failed protections : ℕ}
    (hlate : ∀ e, call.fault .confirmation ≠ some (.committed e))
    (h : Track w₀ w []) (hready : ∀ m ∈ ready, Rowed call w m) :
    EndsFollowed w₀ (applyTrashBackendBatch o call backend ready failed protections) w := by
  have hw : Quiet Set.univ w w := .refl h.ids
  have hnothing : ∀ {v : World}, Quiet Set.univ w v → Follows w₀ v :=
    fun hv => (h.of_quiet hv).follows_iff.mpr rfl
  unfold applyTrashBackendBatch
  refine endsFollowed_seq (quiet_follows h (quiet_prepareEach hw))
    fun ⟨prepared, stale⟩ u ⟨hu, hprepared⟩ => ?_
  dsimp only at hprepared ⊢
  split_ifs with hempty
  · exact wp_pure.mpr (hnothing hu)
  · refine endsFollowed_seq (quiet_follows h (quiet_mark hu)) fun _ v ⟨hv, hnodup, hmarked⟩ => ?_
    refine endsFollowed_seq (quiet_follows h (quiet_invokeEach hv)) fun _ t ⟨ht, hledger⟩ => ?_
    rw [List.map_map] at hnodup
    split
    · next e he =>
      split_ifs
      · refine endsFollowed_seq (quiet_follows h (quiet_requireRecoveryEach ht)) fun _ s hs => ?_
        exact wp_lift.mpr (hnothing hs.1)
      · refine endsFollowed_seq (quiet_follows h (quiet_requireRecoveryEach ht)) fun _ s hs => ?_
        exact wp_pure.mpr (hnothing hs.1)
      · refine endsFollowed_seq (quiet_follows h (quiet_requireRecoveryEach ht)) fun _ s hs => ?_
        exact wp_lift.mpr (hnothing hs.1)
    · next outcomes houtcomes =>
      have hpairs : ((prepared.zip outcomes).map fun p => p.1.actionId).Nodup := by
        have hsub := (zip_sublist prepared outcomes).map fun m => m.actionId
        rw [List.map_map] at hsub
        exact hnodup.sublist hsub
      have hsettle : Keeps (Quiet Set.univ t) (settleEach o call (prepared.zip outcomes)) t
          fun x s => Quiet _ t s ∧ Unsettled t (prepared.zip outcomes) x s :=
        keeps_quiet_mono (Set.subset_univ _) (quiet_settleEach ht.ids hpairs)
      refine endsFollowed_seq (quiet_follows (h.of_quiet ht) hsettle)
        fun ⟨confirmations, recovered, blocked⟩ s ⟨hs, _, hsettled⟩ => ?_
      have hsub : (confirmations.map Confirmation.member).Sublist prepared :=
        hsettled.sub.trans (zip_sublist _ _)
      refine endsFollowed_seq (confirmAll_track hlate h (ht.trans hs) ?_ fun c hc => ?_)
        fun ⟨appliedPaths, unconfirmed⟩ s' hs' => ?_
      · have hids := hsub.map fun m => m.actionId
        rw [List.map_map] at hids
        exact hnodup.sublist hids
      · -- the row of a confirmed member is the one that crossed the frontier
        have hmem := hsub.subset (List.mem_map_of_mem hc)
        obtain ⟨r, hr, hid, happlying⟩ := hmarked _ (List.mem_map_of_mem hmem)
        have hr : r ∈ t.ledger.actions := by
          rw [hledger]
          exact hr
        obtain ⟨a, ha, hrow⟩ := (hv.rowed (hready _ (hprepared _ hmem)) : Rowed call v _)
        rw [← hledger] at ha
        obtain rfl := ht.ids.unique.eq hr ha (hid.trans hrow.actionId.symm)
        exact ⟨r, hsettled.rows c hc r hr hid, hrow, happlying⟩
      · refine endsFollowed_seq (P := fun _ v => Follows w₀ v) ?_ fun _ v hv => wp_pure.mpr hv
        refine wp_mono (fun _ hv => hv) (fun r v hv => ?_) (endsFollowed_reconcile hs')
        cases r <;> exact hv

/-! ## The call -/

/-- The candidate goes on to the backend. -/
def goesOn (call : TrashCall) (c : Candidate) : Bool :=
  (call.evaluate c).any (fun e => e.2.isNone) && c.answers.preflight.isOk &&
    c.answers.revalidation.isOk

/-- The candidates that go on to the backend, if the call comes to it. -/
def going (call : TrashCall) : List Candidate := call.admittedBatch.filter call.goesOn

theorem quiet_validateEach {check : Answers → Checked Unit} {site : Site}
    (h : Quiet Set.univ w u) :
    Keeps (Quiet Set.univ w) (validateEach o call check site ready) u
      fun pass _ => pass.going.Sublist (ready.filter fun m => (check m.answers).isOk) := by
  induction ready generalizing u with
  | nil => exact Keeps.pure h .slnil
  | cons m rest ih =>
    unfold validateEach
    cases hcheck : check m.answers with
    | ok _ =>
      rw [List.filter_cons_of_pos (by rw [hcheck]; rfl)]
      exact (ih h).bind fun pass v hv hpass => Keeps.pure hv (hpass.cons_cons m)
    | error e =>
      rw [List.filter_cons_of_neg (by rw [hcheck]; exact Bool.false_ne_true)]
      dsimp only
      split_ifs
      · exact keeps_raise h
      · refine (quiet_finish .skipped h (by decide) fun _ _ => trivial).bind fun _ v hv _ => ?_
        exact (ih hv).bind fun pass s hs hpass => Keeps.pure hs hpass
      · refine (quiet_finish .failed h (by decide) fun _ _ => trivial).bind fun _ v hv _ => ?_
        exact (ih hv).bind fun pass s hs hpass => Keeps.pure hs hpass
      · exact keeps_raise h

/-- The candidates whose rows are not skipped at once. -/
theorem eligible_sublist (call : TrashCall) (cs : List Candidate) :
    (((cs.filterMap call.evaluate).filter fun e => e.2.isNone).map Prod.fst).Sublist
      (cs.filter fun c => (call.evaluate c).any fun e => e.2.isNone) := by
  induction cs with
  | nil => exact .slnil
  | cons c cs ih =>
    rw [List.filter_cons]
    cases he : call.evaluate c with
    | none =>
      rw [List.filterMap_cons_none he]
      exact ih
    | some e =>
      rw [List.filterMap_cons_some he, List.filter_cons, Option.any_some]
      split_ifs
      · rw [List.map_cons, evaluate_eq_some he]
        exact ih.cons_cons c
      · exact ih

theorem zip_sublist_snd {α β : Type} (l : List α) (l' : List β) :
    ((l.zip l').map Prod.snd).Sublist l' := by
  rw [← List.zip_swap, List.map_map]
  exact zip_sublist l' l

theorem quiet_begin {cs : List Candidate} (h : Quiet Set.univ w u) :
    Keeps (Quiet Set.univ w) (beginTrashCandidates o call cs) u
      fun x t => (∀ m ∈ x.1, Rowed call t m) ∧ (x.1.map Ready.toCandidate).Sublist
        (cs.filter fun c => (call.evaluate c).any fun e => e.2.isNone) := by
  unfold beginTrashCandidates
  refine (Keeps.lift (P := fun _ _ => True) h fun _ _ => trivial).bind fun _ u hu _ => ?_
  dsimp only
  have hsub := eligible_sublist call cs
  generalize cs.filterMap call.evaluate = evaluated at hsub ⊢
  split_ifs with hempty
  · exact Keeps.pure hu ⟨fun _ hm => absurd hm List.not_mem_nil, List.nil_sublist _⟩
  · have hbegin : Keeps (Quiet Set.univ w)
        (transact (call.fault .begin) fun ledger =>
          ledger.beginFileActions o.keyOf call.beginBoundary call.runId
            (evaluated.map fun e => call.specOf e.1)) u
        fun ids t => ∀ x ∈ ids.zip evaluated, Rowed call t { x.2.1 with actionId := x.1 } := by
      refine wp_transact (fun _ => hu) fun ids l hl => ?_
      obtain ⟨hedits, hrows⟩ := Ledger.edits_begin hu.ids hl
      have hnext : Quiet Set.univ w { u with ledger := l } :=
        quiet_edits hu hedits fun _ _ hP => hP.elim
      refine ⟨hnext, ⟨hnext, fun x hx => ?_⟩, fun _ _ => hnext⟩
      rw [List.forall₂_map_right_iff] at hrows
      obtain ⟨r, hr, hid, hrun, hspec⟩ := (List.forall₂_iff_zip.mp hrows).2 hx
      exact ⟨r, hr, hid, hrun, hspec⟩
    refine hbegin.bind fun ids t ht hrows => ?_
    -- the rows of protected candidates are skipped; every candidate keeps its row
    refine (Keeps.each (J := fun _ s => Quiet Set.univ t s) ht (.refl ht.ids)
      fun _ reason _ s _ hs hJ => ?_).bind fun _ s hs hJ => ?_
    · refine wp_commit (fun _ => hs) fun l hl => ?_
      have hfinished : ∀ {v : World}, Quiet Set.univ v s →
          Quiet Set.univ v { s with ledger := l } := by
        intro v hv
        refine quiet_edits hv (Ledger.edits_finish hs.ids hl) ?_
        rintro q r ⟨-, rfl⟩
        exact ⟨trivial, fun happlied => nomatch happlied⟩
      exact ⟨hfinished hs, ⟨hfinished hs, hfinished hJ⟩, fun _ _ => hfinished hs⟩
    · refine Keeps.pure hs ⟨fun m hm => ?_, ?_⟩
      · obtain ⟨x, hx, rfl⟩ := List.mem_map.mp hm
        exact hJ.rowed (hrows x (List.mem_filter.mp hx).1)
      · have hzip : ((ids.zip evaluated).map Prod.snd).Sublist evaluated := zip_sublist_snd _ _
        have hkept := ((hzip.filter fun e => e.2.isNone).map Prod.fst).trans hsub
        rw [List.filter_map, List.map_map] at hkept
        rw [List.map_map]
        exact hkept

/-- What the call hands over: candidates that go on, with their rows. -/
structure HandedOver (call : TrashCall) (cs : List Candidate) (ready : List Ready) (t : World) :
    Prop where
  applies : call.apply = true
  candidates : (ready.map Ready.toCandidate).Sublist (cs.filter call.goesOn)
  rows : ∀ m ∈ ready, Rowed call t m

/-- The same of an end, which may be an early return. -/
def ReadyRowed (call : TrashCall) (cs : List Candidate)
    (x : (ℕ × ℕ × ℕ) ⊕ (List Ready × ℕ × ℕ)) (t : World) : Prop :=
  ∀ next, x = .inr next → HandedOver call cs next.1 t

theorem quiet_admitBatch {cs : List Candidate} (h : Quiet Set.univ w u) :
    Keeps (Quiet Set.univ w) (admitBatch o call cs) u (ReadyRowed call cs) := by
  unfold admitBatch
  refine (Keeps.lift (P := fun _ _ => True) h fun _ _ => trivial).bind fun _ u hu _ => ?_
  refine (quiet_begin hu).bind fun ⟨eligible, protections⟩ u hu ⟨heligible, hcandidates⟩ => ?_
  dsimp only at heligible hcandidates ⊢
  split_ifs with happly
  · refine (quiet_finish .planned hu (by decide) fun _ _ => trivial).bind fun _ v hv _ => ?_
    exact Keeps.pure hv fun _ hnext => nomatch hnext
  · refine (keeps_quiet_from hu (quiet_validateEach (.refl hu.ids))).bind
      fun first v hv ⟨hfirst, hgoing⟩ => ?_
    split_ifs
    · exact Keeps.pure hv fun _ hnext => nomatch hnext
    · refine (Keeps.lift (P := fun _ s => s = v) hv fun _ _ => rfl).bind fun _ s _ hsv => ?_
      subst hsv
      refine (keeps_quiet_from hv (quiet_validateEach (.refl hv.ids))).bind
        fun second t ht ⟨hsecond, hready⟩ => ?_
      split_ifs
      · exact Keeps.pure ht fun _ hnext => nomatch hnext
      · refine Keeps.pure ht fun next hnext => ?_
        obtain rfl := Sum.inr.inj hnext
        -- both validations and the evaluation filter the candidates of the call
        have hboth := hready.trans (hgoing.filter fun m => (m.answers.revalidation).isOk)
        refine ⟨by simpa using happly, ?_, fun m hm => ?_⟩
        · have hmapped := hboth.map Ready.toCandidate
          have hfiltered := hcandidates.filter fun c =>
            c.answers.preflight.isOk && c.answers.revalidation.isOk
          have hgoes : (cs.filter fun c => (call.evaluate c).any fun e => e.2.isNone).filter
              (fun c => c.answers.preflight.isOk && c.answers.revalidation.isOk) =
              cs.filter call.goesOn := by
            rw [List.filter_filter]
            refine List.filter_congr fun c _ => ?_
            rw [goesOn]
            ac_rfl
          rw [hgoes, List.filter_map] at hfiltered
          refine List.Sublist.trans ?_ hfiltered
          rw [List.filter_filter] at hmapped
          simp only [Bool.and_comm] at hmapped
          exact hmapped
        · have hmem := List.mem_filter.mp (hboth.subset hm)
          exact hsecond.rowed (hfirst.rowed (heligible m (List.mem_filter.mp hmem.1).1))

theorem quiet_readyBatch (h : Quiet Set.univ w u) :
    Keeps (Quiet Set.univ w) (readyBatch o call) u (ReadyRowed call call.admittedBatch) := by
  unfold readyBatch
  refine (Keeps.lift (P := fun _ _ => True) h fun _ _ => trivial).bind fun _ u hu _ => ?_
  refine (Keeps.lift (P := fun x _ => call.normalizeTrashSnapshots = .ok x) hu
    fun _ hx => hx).bind fun ⟨expected, references⟩ u hu hnormal => ?_
  have hadmitted : call.admittedBatch = call.admitted (call.candidates expected references) := by
    unfold admittedBatch
    rw [hnormal]
  rw [hadmitted]
  dsimp only
  split_ifs
  · exact Keeps.pure hu fun _ hnext => nomatch hnext
  · exact quiet_admitBatch hu

/-- The candidates go to the backend one by one. -/
def OneByOne (call : TrashCall) : Prop :=
  call.apply = true ∧ ∃ backend, call.backend = some backend ∧ backend.batch = none ∧
    ¬ (call.actionType = lit "trash_empty_directory" ∧ backend.supportsEmptyDirectories = false)

/-- What the answers, faults and checkpoints must be for the inventory to follow.  The confirmation of
a batch does not raise once it is durable; and of candidates that go one by one, no confirmation
does, and none that is foretold to be confirmed stands in front of one that is foretold to raise. -/
structure Steady (o : Outside) (call : TrashCall) : Prop where
  batch : ∀ backend batch, call.backend = some backend → backend.batch = some batch →
    ∀ e, call.fault .confirmation ≠ some (.committed e)
  loop : OneByOne call → SteadyLoop o call call.going

theorem endsFollowed_applyReady {failed protections : ℕ} (hsteady : Steady o call)
    (h : Track w₀ w []) (hready : HandedOver call call.admittedBatch ready w) :
    EndsFollowed w₀ (applyReady o call ready failed protections) w := by
  have hw : Quiet Set.univ w w := .refl h.ids
  have hunavailable : ∀ detail : Text, EndsFollowed w₀ (do
      commit (call.fault .unavailable) fun ledger =>
        ledger.finishFileActions (ready.map Ready.actionId) .skipped (some detail)
      pure (0, failed, protections + ready.length)) w := by
    intro detail
    refine endsFollowed_seq (quiet_follows h
      (quiet_finish .skipped hw (by decide) fun _ _ => trivial)) fun _ v hv => ?_
    exact wp_pure.mpr ((h.of_quiet hv.1).follows_iff.mpr rfl)
  unfold applyReady
  cases hbackend : call.backend with
  | none => exact hunavailable _
  | some backend =>
    dsimp only
    split_ifs with hdirectory
    · exact hunavailable _
    · cases hbatch : backend.batch with
      | none =>
        have hone : OneByOne call := ⟨hready.applies, backend, hbackend, hbatch, hdirectory⟩
        exact endsFollowed_applyOneByOne h hready.rows
          ((hsteady.loop hone).sublist hready.candidates)
      | some batch =>
        refine endsFollowed_seq (quiet_follows h (quiet_checkpointBefore hw)) fun _ v hv => ?_
        obtain rfl := hv.2
        exact endsFollowed_applyTrashBackendBatch (hsteady.batch backend batch hbackend hbatch) h
          hready.rows

/-- Two empty files, `/c/g` in front of `/c/f`. -/
def twoFilesCall (answers : ℕ → Answers) : TrashCall :=
  { emptyFileCall true removesIt with
    batch := [(lit "/c/g", lit "empty"), (lit "/c/f", lit "empty")]
    expectedSnapshots := some [some { emptyFile with path := lit "/c/g", fileId := 5 }, some emptyFile]
    answers := answers }

/-- The first file has changed when its turn comes. -/
def changedCall : TrashCall :=
  twoFilesCall fun i =>
    if i = 0 then
      { removesIt with sourceDigest := .error ⟨.fileChanged, lit "file changed while it was read"⟩ }
    else removesIt

theorem steady_changedCall : Steady plainOutside changedCall := by
  refine ⟨?_, fun _ => ⟨fun c hc e he => ?_, ?_⟩⟩
  · rintro backend batch ⟨⟩ ⟨⟩
  · have hmem : c ∈ [_, _] := (show changedCall.going = [_, _] from rfl) ▸ hc
    simp only [List.mem_cons, List.not_mem_nil, or_false] at hmem
    rcases hmem with rfl | rfl <;> cases he
  · refine List.pairwise_iff_getElem.mpr fun i j hi hj hlt _ e he => ?_
    have htwo : changedCall.going.length = 2 := by decide +kernel
    obtain rfl : j = 1 := by omega
    have hlast : changedCall.going[1]?.map (foretold plainOutside changedCall) =
        some (.ok true) := by decide +kernel
    rw [List.getElem?_eq_getElem hj, Option.map_some, he] at hlast
    cases hlast

/-- A row was moved to `applied`, and the inventory has been given nothing. -/
theorem not_follows_of_given (hnow : t.reconciled = w₀.reconciled) (hlater : t.deferred = w₀.deferred)
    (hmoved : appliedSince w₀.ledger t.ledger ≠ []) : ¬ Follows w₀ t := by
  rintro ⟨now, later, hnow', hlater', hperm⟩
  obtain rfl : now = [] := List.append_right_eq_self.mp (hnow'.symm.trans hnow)
  obtain rfl : later = [] := List.append_right_eq_self.mp (hlater'.symm.trans hlater)
  exact hmoved (List.perm_nil.mp hperm.symm)

/-- A cancellation between the two files. -/
def cancelledCall : TrashCall :=
  { twoFilesCall (fun i =>
      if i = 0 then removesIt
      else { removesIt with checkpoint := .error ⟨.cancelled, lit "cancelled"⟩ }) with
    batch := [(lit "/c/f", lit "empty"), (lit "/c/g", lit "empty")]
    expectedSnapshots := some [some emptyFile, some { emptyFile with path := lit "/c/g", fileId := 5 }] }

/-- A backend that takes the file as a batch, and an interrupt on the COMMIT of its confirmation. -/
def interruptedCall : TrashCall :=
  { emptyFileCall true removesIt with
    backend := some ⟨false, some
      ⟨[true], .outcomes [some ⟨.applied, lit "ok", none, some emptyFileReceipt⟩]⟩⟩
    fault := fun site =>
      if site = .confirmation then some (.committed ⟨.interrupt, lit "interrupted"⟩) else none }

theorem interrupted_commit_abandons :
    ¬ Follows emptyWorld
      ((applyTrashBatch plainOutside interruptedCall emptyWorld).final emptyWorld) := by
  refine not_follows_of_given ?_ ?_ ?_
  all_goals decide +kernel

end TrashCall

end Actions
end Neocortex
