import Neocortex.Actions.Ledger

/-!
# What a transaction does to the ledger

Every transaction of the ledger is a chain of edits, and there are two: a new action is opened, or
one row moves along `_FILE_ACTION_TRANSITIONS`; both append one event.  `Edits P` is such a chain
whose moves all satisfy `P`.

* `edits_finish`, `edits_mark`, `edits_confirm`, `edits_begin`: the chain of each transaction;
* `Ledger.Sound`: the ids are distinct and the events of each action are a path of the transition
  relation that ends in its status; every chain keeps it;
* `Ledger.Extends`: what no chain can undo.
-/

namespace Neocortex
namespace Actions

open Python Checks

/-- The statuses that no transition leaves. -/
def ActionStatus.Settled (s : ActionStatus) : Prop := s.transitions = []

instance : DecidablePred ActionStatus.Settled := fun s =>
  inferInstanceAs (Decidable (s.transitions = []))

namespace Ledger

variable {l l' : Ledger} {P Q : ActionRow → ActionRow → Prop}

/-! ## Edits -/

/-- The columns of a row that no transition writes. -/
structure SameAction (r r' : ActionRow) : Prop where
  actionId : r'.actionId = r.actionId
  runId : r'.runId = r.runId
  spec : r'.spec = r.spec
  policy : r'.policy = r.policy

/-- One row moves, or one action is opened. -/
inductive Edit (P : ActionRow → ActionRow → Prop) : Ledger → Ledger → Prop
  | move {before after : List ActionRow} {events : List ActionEvent} {r r' : ActionRow}
      {e : ActionEvent} (same : SameAction r r') (step : r'.status ∈ r.status.transitions)
      (id : e.actionId = r.actionId) (source : e.fromStatus = some r.status)
      (target : e.toStatus = r'.status) (holds : P r r') :
      Edit P ⟨before ++ r :: after, events⟩ ⟨before ++ r' :: after, events ++ [e]⟩
  | opened {l : Ledger} {r : ActionRow} {e : ActionEvent} (fresh : r.actionId = l.nextActionId)
      (status : r.status = .started) (id : e.actionId = r.actionId) (source : e.fromStatus = none)
      (target : e.toStatus = .started) :
      Edit P l ⟨l.actions ++ [r], l.events ++ [e]⟩

/-- Any number of edits. -/
abbrev Edits (P : ActionRow → ActionRow → Prop) : Ledger → Ledger → Prop :=
  Relation.ReflTransGen (Edit P)

theorem Edit.mono (hPQ : ∀ r r', P r r' → Q r r') (h : Edit P l l') : Edit Q l l' := by
  cases h with
  | move same step id source target holds =>
    exact .move same step id source target (hPQ _ _ holds)
  | opened fresh status id source target => exact .opened fresh status id source target

theorem Edits.mono (hPQ : ∀ r r', P r r' → Q r r') (h : Edits P l l') : Edits Q l l' :=
  Relation.ReflTransGen.mono (fun _ _ => Edit.mono hPQ) _ _ h

/-! ## Ids -/

/-- No row has the id that the next insert takes. -/
theorem lt_nextActionId {r : ActionRow} (h : r ∈ l.actions) : r.actionId < l.nextActionId := by
  have hle : ∀ ids : List ℕ, ∀ id ∈ ids, id ≤ ids.foldr max 0 := by
    intro ids
    induction ids with
    | nil => intro id hid; cases hid
    | cons n ids ih =>
      intro id hid
      rcases List.mem_cons.mp hid with rfl | hid
      · exact le_max_left _ _
      · exact (ih id hid).trans (le_max_right _ _)
  exact Nat.lt_succ_of_le (hle _ _ (List.mem_map_of_mem h))

theorem action?_eq_some (hids : l.Ids) {id : ℕ} {r : ActionRow} :
    l.action? id = some r ↔ r ∈ l.actions ∧ r.actionId = id := by
  constructor
  · intro h
    exact ⟨List.mem_of_find?_eq_some h, by simpa using List.find?_some h⟩
  · rintro ⟨hmem, rfl⟩
    simpa [action?, beq_eq_decide] using hids.unique.find?_eq hmem

/-- The row that moves is at one place of the table. -/
theorem Ids.apart {before after : List ActionRow} {events : List ActionEvent} {r a : ActionRow}
    (hids : Ids ⟨before ++ r :: after, events⟩) (ha : a ∈ before ++ after) :
    a.actionId ≠ r.actionId := by
  have hunique := List.pairwise_append.mp hids.unique
  rcases List.mem_append.mp ha with hb | hb
  · exact hunique.2.2 a hb r List.mem_cons_self
  · exact ((List.pairwise_cons.mp hunique.2.1).1 a hb).symm

/-- An update of one row by its id. -/
theorem updateWhere_split {before after : List ActionRow} {events : List ActionEvent}
    {r : ActionRow} (hids : Ids ⟨before ++ r :: after, events⟩) (f : ActionRow → ActionRow) :
    Rows.updateWhere (fun a => a.actionId == r.actionId) f (before ++ r :: after) =
      before ++ f r :: after := by
  have hother : ∀ {rows : List ActionRow}, (∀ a ∈ rows, a ∈ before ++ after) →
      Rows.updateWhere (fun a => a.actionId == r.actionId) f rows = rows := by
    intro rows hrows
    refine Rows.updateWhere_eq_self fun a ha hsame => ?_
    exact absurd (beq_iff_eq.mp hsame) (hids.apart (hrows a ha))
  rw [Rows.updateWhere_append, Rows.updateWhere_cons,
    hother fun a ha => List.mem_append_left _ ha, hother fun a ha => List.mem_append_right _ ha]
  simp

/-- A row that is rewritten along a transition has moved. -/
theorem edit_rewrite (hids : l.Ids) {id : ℕ} {r : ActionRow} (hr : l.action? id = some r)
    {f : ActionRow → ActionRow} {e : ActionEvent} (same : SameAction r (f r))
    (step : (f r).status ∈ r.status.transitions) (heid : e.actionId = id)
    (source : e.fromStatus = some r.status) (target : e.toStatus = (f r).status) (hP : P r (f r)) :
    Edit P l (l.rewrite id f e) := by
  obtain ⟨hmem, rfl⟩ := (action?_eq_some hids).mp hr
  obtain ⟨before, after, hsplit⟩ := List.append_of_mem hmem
  obtain ⟨actions, events⟩ := l
  obtain rfl : actions = before ++ r :: after := hsplit
  rw [rewrite, updateWhere_split hids]
  exact .move same step heid source target hP

theorem Edit.ids (h : Edit P l l') (hids : l.Ids) : l'.Ids := by
  cases h with
  | @move before after events r r' e same step id source target holds =>
    obtain ⟨hunique, hpos⟩ := hids
    constructor
    · rw [Rows.unique_iff_nodup] at hunique ⊢
      simpa [same.actionId] using hunique
    · intro a ha
      simp only [List.mem_append, List.mem_cons] at ha hpos
      rcases ha with ha | rfl | ha
      · exact hpos a (.inl ha)
      · rw [same.actionId]
        exact hpos r (.inr (.inl rfl))
      · exact hpos a (.inr (.inr ha))
  | opened fresh status id source target =>
    refine ⟨Rows.unique_append hids.unique fun a ha => ?_, fun a ha => ?_⟩
    · rw [fresh]
      exact (lt_nextActionId ha).ne
    · rcases List.mem_append.mp ha with ha | ha
      · exact hids.positive a ha
      · rw [List.mem_singleton.mp ha, fresh]
        exact Nat.succ_pos _

theorem Edits.ids (h : Edits P l l') (hids : l.Ids) : l'.Ids := by
  induction h with
  | refl => exact hids
  | tail _ hedit ih => exact hedit.ids ih

/-! ## The rows of a chain -/

/-- A row is an old one, the result of a move, or has just started. -/
theorem Edits.origin (h : Edits P l l') :
    ∀ r ∈ l'.actions, r ∈ l.actions ∨ (∃ q, P q r) ∨ r.status = .started := by
  induction h with
  | refl => exact fun r hr => .inl hr
  | tail _ hedit ih =>
    cases hedit with
    | move same step id source target holds =>
      intro r hr
      simp only [List.mem_append, List.mem_cons] at hr ih
      rcases hr with hr | rfl | hr
      · exact ih r (.inl hr)
      · exact .inr (.inl ⟨_, holds⟩)
      · exact ih r (.inr (.inr hr))
    | opened fresh status id source target =>
      intro r hr
      rcases List.mem_append.mp hr with hr | hr
      · exact ih r hr
      · exact .inr (.inr ((List.mem_singleton.mp hr) ▸ status))

theorem SameAction.refl (r : ActionRow) : SameAction r r := ⟨rfl, rfl, rfl, rfl⟩

theorem SameAction.trans {r₁ r₂ r₃ : ActionRow} (h : SameAction r₁ r₂) (h' : SameAction r₂ r₃) :
    SameAction r₁ r₃ :=
  ⟨h'.actionId.trans h.actionId, h'.runId.trans h.runId, h'.spec.trans h.spec,
    h'.policy.trans h.policy⟩

/-- Every row is still there, moved or not. -/
theorem Edits.row (h : Edits P l l') : ∀ r ∈ l.actions, ∃ r' ∈ l'.actions, SameAction r r' ∧
    (r' = r ∨ ∃ q, P q r') := by
  induction h with
  | refl => exact fun r hr => ⟨r, hr, .refl r, .inl rfl⟩
  | tail _ hedit ih =>
    intro r hr
    obtain ⟨a, ha, hsame, hwhy⟩ := ih r hr
    cases hedit with
    | @move _ _ _ b b' _ same step id source target holds =>
      simp only [List.mem_append, List.mem_cons] at ha ⊢
      rcases ha with ha | rfl | ha
      · exact ⟨a, .inl ha, hsame, hwhy⟩
      · exact ⟨b', .inr (.inl rfl), hsame.trans same, .inr ⟨_, holds⟩⟩
      · exact ⟨a, .inr (.inr ha), hsame, hwhy⟩
    | opened fresh status id source target =>
      exact ⟨a, List.mem_append_left _ ha, hsame, hwhy⟩

/-- The row that moves in a chain from `l`. -/
structure Traced (P : ActionRow → ActionRow → Prop) (l : Ledger) (r r' : ActionRow) : Prop where
  move : P r r'
  origin : r ∈ l.actions ∨ (∃ q, P q r) ∨ r.status = .started
  same : ∀ a ∈ l.actions, a.actionId = r.actionId → SameAction a r

theorem Edits.traced (hids : l.Ids) (h : Edits P l l') : Edits (Traced P l) l l' := by
  induction h with
  | refl => exact .refl
  | @tail middle last hchain hedit ih =>
    refine ih.tail ?_
    have horigin := Edits.origin hchain
    have hrow := Edits.row hchain
    have hmiddle := Edits.ids hchain hids
    cases hedit with
    | @move before after events r r' e same step id source target holds =>
      have hr : r ∈ before ++ r :: after := List.mem_append_right _ List.mem_cons_self
      refine .move same step id source target ⟨holds, horigin r hr, fun a ha hid => ?_⟩
      obtain ⟨b, hb, hsame, -⟩ := hrow a ha
      rwa [hmiddle.unique.eq hb hr (hsame.actionId.trans hid)] at hsame
    | opened fresh status id source target => exact .opened fresh status id source target

/-! ## The chain of each transaction -/

/-- A row that a transition leaves as it is, or moves. -/
theorem edits_transition (hids : l.Ids) {id : ℕ} {status : ActionStatus} {detail : Option Text}
    {stage : Stage} {evidence receipt : Option Text}
    (h : l.transition id status detail stage evidence receipt = .ok l')
    (hP : ∀ r, r.actionId = id → status ∈ r.status.transitions →
      P r { r with
        status := status, detail := detail, effectReceiptJson := receipt.or r.effectReceiptJson }) :
    Edits P l l' := by
  unfold transition at h
  cases hr : l.action? id with
  | none => simp [hr] at h
  | some r =>
    simp only [hr] at h
    split_ifs at h with hsame hconflict hstep
    · obtain rfl := Except.ok.inj h
      exact .refl
    · obtain rfl := Except.ok.inj h
      exact .single (edit_rewrite hids hr ⟨rfl, rfl, rfl, rfl⟩ hstep rfl rfl rfl
        (hP r ((action?_eq_some hids).mp hr).2 hstep))

/-- A fold of transactions. -/
theorem edits_foldlM {α : Type} {f : Ledger → α → Checked Ledger} {items : List α}
    (hf : ∀ l a l', l.Ids → a ∈ items → f l a = .ok l' → Edits P l l') (hids : l.Ids)
    (h : items.foldlM f l = .ok l') : Edits P l l' := by
  induction items generalizing l with
  | nil =>
    rw [List.foldlM_nil, pure_eq_ok] at h
    exact h ▸ .refl
  | cons a items ih =>
    rw [List.foldlM_cons, bind_eq_ok] at h
    obtain ⟨middle, hmiddle, h⟩ := h
    have hfirst := hf l a middle hids List.mem_cons_self hmiddle
    refine hfirst.trans (ih (fun l a l' hl ha => hf l a l' hl (List.mem_cons_of_mem _ ha))
      (Edits.ids hfirst hids) h)

/-- The moves of `finish_file_actions`. -/
def Finished (ids : List ℕ) (status : ActionStatus) (detail : Option Text)
    (r r' : ActionRow) : Prop :=
  r.actionId ∈ ids ∧ r' = { r with status := status, detail := detail }

theorem edits_finish (hids : l.Ids) {ids : List ℕ} {status : ActionStatus} {detail : Option Text}
    (h : l.finishFileActions ids status detail = .ok l') :
    Edits (Finished ids status detail) l l' := by
  unfold finishFileActions at h
  rw [bind_eq_ok] at h
  obtain ⟨-, -, h⟩ := h
  refine edits_foldlM (fun l id l' hl hid htransition => ?_) hids h
  refine edits_transition hl htransition fun r hr _ => ⟨hr ▸ hid, ?_⟩
  rfl

/-- The moves of `mark_file_actions_applying`. -/
def Marked (actions : List (ℕ × Text)) (r r' : ActionRow) : Prop :=
  ∃ json, (r.actionId, json) ∈ actions ∧ r.status = .started ∧
    r' = { r with status := .applying, expectedIdentityJson := some json }

theorem edits_markApplying (hids : l.Ids) {action : ℕ × Text} {actions : List (ℕ × Text)}
    (hmem : action ∈ actions) (h : l.markApplying action = .ok l') :
    Edits (Marked actions) l l' := by
  unfold markApplying at h
  cases hr : l.action? action.1 with
  | none => simp [hr] at h
  | some r =>
    simp only [hr] at h
    split_ifs at h with hstarted
    obtain rfl := Except.ok.inj h
    have hid := ((action?_eq_some hids).mp hr).2
    refine .single (edit_rewrite hids hr ⟨rfl, rfl, rfl, rfl⟩ ?_ rfl ?_ rfl ?_)
    · rw [hstarted]
      simp [ActionStatus.transitions]
    · rw [hstarted]
    · exact ⟨action.2, hid ▸ hmem, hstarted, rfl⟩

theorem markFileActionsApplying_eq_ok {boundary : Boundary} {actions : List (ℕ × Text)}
    (h : l.markFileActionsApplying boundary actions = .ok l') :
    actions.foldlM markApplying l = .ok l' := by
  unfold markFileActionsApplying at h
  rw [bind_eq_ok] at h
  obtain ⟨-, -, h⟩ := h
  split_ifs at h with hempty
  · rw [hempty, List.foldlM_nil]
    exact h
  · simp only [bind_eq_ok, pure_eq_ok] at h
    obtain ⟨-, -, -, -, marked, hmarked, -, -, -, -, rfl⟩ := h
    exact hmarked

theorem edits_mark (hids : l.Ids) {boundary : Boundary} {actions : List (ℕ × Text)}
    (h : l.markFileActionsApplying boundary actions = .ok l') : Edits (Marked actions) l l' :=
  edits_foldlM (fun _ _ _ hl ha hmark => edits_markApplying hl ha hmark) hids
    (markFileActionsApplying_eq_ok h)

/-- Crossing the frontier leaves a row that is not `started`. -/
theorem Edits.mem_of_marked {actions : List (ℕ × Text)} {r : ActionRow} (h : Edits (Marked actions) l l')
    (hr : r ∈ l.actions) (hstatus : r.status ≠ .started) : r ∈ l'.actions := by
  induction h with
  | refl => exact hr
  | tail _ hedit ih =>
    cases hedit with
    | move same step id source target holds =>
      obtain ⟨json, -, hstarted, -⟩ := holds
      simp only [List.mem_append, List.mem_cons] at ih ⊢
      rcases ih with ih | rfl | ih
      · exact .inl ih
      · exact absurd hstarted hstatus
      · exact .inr (.inr ih)
    | opened fresh status id source target => exact List.mem_append_left _ ih

/-- The row of an action that crosses the frontier: it had started, as have all that do not. -/
theorem markApplying_row (hids : l.Ids) {action : ℕ × Text} (h : l.markApplying action = .ok l') :
    (∃ r ∈ l.actions, r.actionId = action.1 ∧ r.status = .started ∧
      { r with status := .applying, expectedIdentityJson := some action.2 } ∈ l'.actions) ∧
      ∀ r ∈ l'.actions, r.status = .started → r ∈ l.actions := by
  unfold markApplying at h
  cases hr : l.action? action.1 with
  | none => simp [hr] at h
  | some r =>
    simp only [hr] at h
    split_ifs at h with hstarted
    obtain rfl := Except.ok.inj h
    obtain ⟨hmem, hid⟩ := (action?_eq_some hids).mp hr
    refine ⟨⟨r, hmem, hid, hstarted, Rows.mem_updateWhere.mpr ⟨r, hmem, ?_⟩⟩, fun b hb hbs => ?_⟩
    · rw [if_pos (by simp [hid])]
    · obtain ⟨a, ha, rfl⟩ := Rows.mem_updateWhere.mp hb
      split_ifs at hbs ⊢ with hselected
      exact ha

/-- Every action of the batch had started, is listed once, and is now `applying` with its
identity. -/
theorem mark_rows (hids : l.Ids) {actions : List (ℕ × Text)}
    (h : actions.foldlM markApplying l = .ok l') :
    (actions.map Prod.fst).Nodup ∧ ∀ action ∈ actions, ∃ r ∈ l.actions, r.actionId = action.1 ∧
      r.status = .started ∧
      { r with status := .applying, expectedIdentityJson := some action.2 } ∈ l'.actions := by
  induction actions generalizing l with
  | nil => exact ⟨List.nodup_nil, fun _ ha => nomatch ha⟩
  | cons action actions ih =>
    rw [List.foldlM_cons, bind_eq_ok] at h
    obtain ⟨middle, hmiddle, h⟩ := h
    have hfirst : Edits (Marked [action]) l middle :=
      edits_markApplying hids (List.mem_singleton.mpr rfl) hmiddle
    have hmiddleIds := Edits.ids hfirst hids
    have hrest : Edits (Marked actions) middle l' :=
      edits_foldlM (fun _ _ _ hl ha hmark => edits_markApplying hl ha hmark) hmiddleIds h
    obtain ⟨⟨r, hr, hid, hstarted, hmarked⟩, hold⟩ := markApplying_row hids hmiddle
    obtain ⟨hnodup, hrows⟩ := ih hmiddleIds h
    -- the row of the first action is not `started` any more, so it is not listed again
    have hother : ∀ a ∈ actions, a.1 ≠ action.1 := by
      intro a ha hsame
      obtain ⟨b, hb, hbid, hbstarted, -⟩ := hrows a ha
      have hbr := hmiddleIds.unique.eq hb hmarked (hbid.trans (hsame.trans hid.symm))
      rw [hbr] at hbstarted
      simp at hbstarted
    refine ⟨List.nodup_cons.mpr ⟨fun hmem => ?_, hnodup⟩, fun a ha => ?_⟩
    · obtain ⟨a, ha, hsame⟩ := List.mem_map.mp hmem
      exact hother a ha hsame
    · rcases List.mem_cons.mp ha with rfl | ha
      · exact ⟨r, hr, hid, hstarted, hrest.mem_of_marked hmarked (by simp)⟩
      · obtain ⟨b, hb, hbid, hbstarted, hbmarked⟩ := hrows a ha
        exact ⟨b, hold b hb hbstarted, hbid, hbstarted, hbmarked⟩

/-- The moves of `confirm_file_actions_applied`. -/
def Confirmed (actions : List (ℕ × Text)) (r r' : ActionRow) : Prop :=
  ∃ receipt, (r.actionId, receipt) ∈ actions ∧ r.status = .applying ∧
    r' = { r with status := .applied, detail := none, effectReceiptJson := some receipt }

theorem applying_of_applied {s : ActionStatus} (h : .applied ∈ s.transitions) : s = .applying := by
  cases s <;> simp [ActionStatus.transitions] at h ⊢

theorem edits_confirm (hids : l.Ids) {actions : List (ℕ × Text)}
    (h : l.confirmFileActionsApplied actions = .ok l') : Edits (Confirmed actions) l l' := by
  unfold confirmFileActionsApplied at h
  rw [bind_eq_ok] at h
  obtain ⟨-, -, h⟩ := h
  refine edits_foldlM (fun l a l' hl ha htransition => ?_) hids h
  refine edits_transition hl htransition fun r hr hstep => ?_
  exact ⟨a.2, hr ▸ ha, applying_of_applied hstep, rfl⟩

/-- No row moves. -/
def Unmoved (_ _ : ActionRow) : Prop := False

/-- The action of a specification is found or opened. -/
theorem edits_beginFileAction (hids : l.Ids) {keyOf : ℤ → ActionSpec → Text} {run : ℤ}
    {policy : PolicyValues} {spec : ActionSpec} {id : ℕ}
    (h : l.beginFileAction keyOf run policy spec = .ok (id, l')) :
    Edits Unmoved l l' ∧ ∃ r, l'.action? id = some r ∧ r.runId = run ∧ r.spec = spec := by
  unfold beginFileAction at h
  cases hsame : l.actions.find? (sameAction run spec) with
  | some r =>
    simp only [hsame] at h
    split_ifs at h with hpolicy
    obtain ⟨rfl, rfl⟩ := Prod.mk.inj (Except.ok.inj h)
    have hcolumns := List.find?_some hsame
    simp only [sameAction, Bool.and_eq_true, beq_iff_eq] at hcolumns
    exact ⟨.refl, r, (action?_eq_some hids).mpr ⟨List.mem_of_find?_eq_some hsame, rfl⟩, hcolumns⟩
  | none =>
    simp only [hsame] at h
    cases hkey : l.actions.find? fun r => r.idempotencyKey == some (keyOf run spec) with
    | some r =>
      simp only [hkey] at h
      split_ifs at h with hcollision
      obtain ⟨rfl, rfl⟩ := Prod.mk.inj (Except.ok.inj h)
      simp only [not_or, not_not] at hcollision
      exact ⟨.refl, r, (action?_eq_some hids).mpr ⟨List.mem_of_find?_eq_some hkey, rfl⟩,
        hcollision.1, hcollision.2.1⟩
    | none =>
      simp only [hkey] at h
      obtain ⟨rfl, rfl⟩ := Prod.mk.inj (Except.ok.inj h)
      have hedit : Edit Unmoved l (l.insert run policy (keyOf run spec) spec).2 :=
        .opened rfl rfl rfl rfl rfl
      refine ⟨.single hedit, _, (action?_eq_some (hedit.ids hids)).mpr
        ⟨List.mem_append_right _ (List.mem_singleton.mpr rfl), rfl⟩, rfl, rfl⟩

/-- Where no row moves, every row stays, and a row that was not there has just started. -/
theorem Edits.unmoved (h : Edits Unmoved l l') :
    (∀ r ∈ l.actions, r ∈ l'.actions) ∧
      ∀ r ∈ l'.actions, r ∈ l.actions ∨ r.status = .started := by
  induction h with
  | refl => exact ⟨fun r hr => hr, fun r hr => .inl hr⟩
  | tail _ hedit ih =>
    cases hedit with
    | move same step id source target holds => exact holds.elim
    | opened fresh status id source target =>
      refine ⟨fun r hr => List.mem_append_left _ (ih.1 r hr), fun r hr => ?_⟩
      rcases List.mem_append.mp hr with hr | hr
      · exact ih.2 r hr
      · exact .inr ((List.mem_singleton.mp hr) ▸ status)

/-- Each action of `begin_file_actions` has its row. -/
theorem edits_beginEach {keyOf : ℤ → ActionSpec → Text} {run : ℤ} {policy : PolicyValues}
    {specs : List ActionSpec} {ids : List ℕ} (hids : l.Ids)
    (h : beginEach keyOf run policy l specs = .ok (ids, l')) :
    Edits Unmoved l l' ∧ List.Forall₂ (fun id spec =>
      ∃ r ∈ l'.actions, r.actionId = id ∧ r.runId = run ∧ r.spec = spec) ids specs := by
  induction specs generalizing l ids with
  | nil =>
    obtain ⟨rfl, rfl⟩ := Prod.mk.inj (Except.ok.inj h)
    exact ⟨.refl, .nil⟩
  | cons spec specs ih =>
    rw [beginEach, bind_eq_ok] at h
    obtain ⟨⟨id, middle⟩, hfirst, h⟩ := h
    rw [bind_eq_ok] at h
    obtain ⟨⟨rest, last⟩, hrest, h⟩ := h
    rw [pure_eq_ok] at h
    obtain ⟨rfl, rfl⟩ := Prod.mk.inj h
    obtain ⟨hedits, r, hr, hrun, hspec⟩ := edits_beginFileAction hids hfirst
    have hmiddle := Edits.ids hedits hids
    obtain ⟨hmore, hrows⟩ := ih hmiddle hrest
    obtain ⟨hmem, hid⟩ := (action?_eq_some hmiddle).mp hr
    exact ⟨hedits.trans hmore, .cons ⟨r, hmore.unmoved.1 r hmem, hid, hrun, hspec⟩ hrows⟩

theorem edits_begin {keyOf : ℤ → ActionSpec → Text} {boundary : Boundary} {run : ℤ}
    {specs : List ActionSpec} {ids : List ℕ} (hids : l.Ids)
    (h : l.beginFileActions keyOf boundary run specs = .ok (ids, l')) :
    Edits Unmoved l l' ∧ List.Forall₂ (fun id spec =>
      ∃ r ∈ l'.actions, r.actionId = id ∧ r.runId = run ∧ r.spec = spec) ids specs := by
  unfold beginFileActions at h
  simp only [bind_eq_ok, pure_eq_ok] at h
  obtain ⟨policy, -, -, -, result, hresult, -, -, rfl⟩ := h
  exact edits_beginEach hids hresult

/-! ## Histories -/

/-- The events lead from a status, or from nothing, along the transition relation to another. -/
def Path : Option ActionStatus → List ActionEvent → ActionStatus → Prop
  | source, [], status => source = some status
  | source, e :: events, status =>
    e.fromStatus = source ∧
      (match source with
        | none => e.toStatus = .started
        | some s => e.toStatus ∈ s.transitions) ∧
      Path (some e.toStatus) events status

theorem path_append {source : Option ActionStatus} {events : List ActionEvent}
    {status : ActionStatus} {e : ActionEvent} (h : Path source events status)
    (hsource : e.fromStatus = some status) (hstep : e.toStatus ∈ status.transitions) :
    Path source (events ++ [e]) e.toStatus := by
  induction events generalizing source with
  | nil =>
    obtain rfl : source = some status := h
    exact ⟨hsource, hstep, rfl⟩
  | cons a events ih => exact ⟨h.1, h.2.1, ih h.2.2⟩

/-- The ids are distinct, every event belongs to an action, and the events of each action are a
path from nothing to its status. -/
structure Sound (l : Ledger) : Prop where
  ids : l.Ids
  owned : ∀ e ∈ l.events, ∃ r ∈ l.actions, r.actionId = e.actionId
  history : ∀ r ∈ l.actions, Path none (l.eventsOf r.actionId) r.status

theorem eventsOf_append_same (actions : List ActionRow) {events : List ActionEvent}
    {actions' : List ActionRow} {e : ActionEvent} : eventsOf ⟨actions', events ++ [e]⟩ e.actionId =
      eventsOf ⟨actions, events⟩ e.actionId ++ [e] := by
  simp [eventsOf, List.filter_append]

theorem eventsOf_append_other (actions : List ActionRow) {events : List ActionEvent}
    {actions' : List ActionRow} {e : ActionEvent} {id : ℕ} (h : id ≠ e.actionId) :
    eventsOf ⟨actions', events ++ [e]⟩ id = eventsOf ⟨actions, events⟩ id := by
  simp [eventsOf, List.filter_append, h.symm]

theorem Edit.sound (h : Edit P l l') (hl : l.Sound) : l'.Sound := by
  have hids := h.ids hl.ids
  cases h with
  | @move before after events r r' e same step id source target holds =>
    refine ⟨hids, fun a ha => ?_, fun a ha => ?_⟩
    · -- the rows keep their ids
      have hrow : ∃ b ∈ before ++ r :: after, b.actionId = a.actionId := by
        rcases List.mem_append.mp ha with ha | ha
        · exact hl.owned a ha
        · exact ⟨r, List.mem_append_right _ List.mem_cons_self,
            by rw [List.mem_singleton.mp ha, id]⟩
      obtain ⟨b, hb, hid⟩ := hrow
      simp only [List.mem_append, List.mem_cons] at hb ⊢
      rcases hb with hb | rfl | hb
      · exact ⟨b, .inl hb, hid⟩
      · exact ⟨r', .inr (.inl rfl), same.actionId.trans hid⟩
      · exact ⟨b, .inr (.inr hb), hid⟩
    · by_cases hsame : a.actionId = r.actionId
      · obtain rfl : a = r' := by
          refine hids.unique.eq ha (List.mem_append_right _ List.mem_cons_self) ?_
          rw [hsame, same.actionId]
        have hpath := hl.history r (List.mem_append_right _ List.mem_cons_self)
        rw [hsame, ← id, eventsOf_append_same (before ++ r :: after), ← target]
        rw [id]
        exact path_append hpath source (target ▸ step)
      · have hold : a ∈ before ++ r :: after := by
          simp only [List.mem_append, List.mem_cons] at ha ⊢
          rcases ha with ha | rfl | ha
          · exact .inl ha
          · exact absurd same.actionId hsame
          · exact .inr (.inr ha)
        rw [eventsOf_append_other (before ++ r :: after) (id ▸ hsame)]
        exact hl.history a hold
  | @opened _ r e fresh status id source target =>
    refine ⟨hids, fun a ha => ?_, fun a ha => ?_⟩
    · rcases List.mem_append.mp ha with ha | ha
      · obtain ⟨b, hb, hid⟩ := hl.owned a ha
        exact ⟨b, List.mem_append_left _ hb, hid⟩
      · exact ⟨r, List.mem_append_right _ (List.mem_singleton.mpr rfl),
          by rw [List.mem_singleton.mp ha, id]⟩
    · rcases List.mem_append.mp ha with ha | ha
      · have hne : a.actionId ≠ e.actionId := by
          rw [id, fresh]
          exact (lt_nextActionId ha).ne
        rw [eventsOf_append_other l.actions hne]
        exact hl.history a ha
      · -- no event of the new action is there yet
        obtain rfl := List.mem_singleton.mp ha
        have hnone : eventsOf l a.actionId = [] := by
          refine List.filter_eq_nil_iff.mpr fun b hb => ?_
          obtain ⟨c, hc, hid⟩ := hl.owned b hb
          rw [beq_iff_eq, ← hid, fresh]
          exact (lt_nextActionId hc).ne
        rw [← id, eventsOf_append_same l.actions, id]
        rw [show eventsOf ⟨l.actions, l.events⟩ a.actionId = [] from hnone, status]
        exact ⟨source, target, congrArg some target⟩

theorem Edits.sound (h : Edits P l l') (hl : l.Sound) : l'.Sound := by
  induction h with
  | refl => exact hl
  | tail _ hedit ih => exact hedit.sound ih

/-! ## What stays -/

/-- A row that has settled stays as it is, and no event is taken back. -/
structure Extends (l l' : Ledger) : Prop where
  settled : ∀ r ∈ l.actions, r.status.Settled → r ∈ l'.actions
  events : l.events <+: l'.events

theorem Extends.refl (l : Ledger) : Extends l l := ⟨fun _ hr _ => hr, List.prefix_rfl⟩

theorem Extends.trans {l₁ l₂ l₃ : Ledger} (h : Extends l₁ l₂) (h' : Extends l₂ l₃) :
    Extends l₁ l₃ :=
  ⟨fun r hr hs => h'.settled r (h.settled r hr hs) hs, h.events.trans h'.events⟩

theorem Edit.extends (h : Edit P l l') : Extends l l' := by
  cases h with
  | @move before after events r r' e same step id source target holds =>
    refine ⟨fun a ha hs => ?_, List.prefix_append _ _⟩
    simp only [List.mem_append, List.mem_cons] at ha ⊢
    rcases ha with ha | rfl | ha
    · exact .inl ha
    · rw [hs] at step
      cases step
    · exact .inr (.inr ha)
  | opened fresh status id source target =>
    exact ⟨fun a ha _ => List.mem_append_left _ ha, List.prefix_append _ _⟩

theorem Edits.extends (h : Edits P l l') : Extends l l' := by
  induction h with
  | refl => exact .refl _
  | tail _ hedit ih => exact ih.trans hedit.extends

end Ledger

end Actions
end Neocortex
