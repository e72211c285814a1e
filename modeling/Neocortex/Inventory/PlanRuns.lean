import Neocortex.Inventory.Plans
import Neocortex.Inventory.Successors

/-!
# Published plans

What readers see of a plan in a run of the transactions of any callers, in any order, among steps of
other components, transactions that create a successor and transactions that are rolled back.  A
`Plan` is what the transactions on a scan leave: the groups that were stored since the plan began,
and the publication.

* `plansAfter`: the plans after a trace of transactions;
* `Tracks`: the tables hold the plans;
* `iterDuplicateGroups_run`: readers see the groups of a published plan, and nothing else;
* `published_plan_complete`: a published plan is complete evidence.
-/

namespace Neocortex
namespace Inventory

open Python Checks

/-! ## Lists and tables -/

section Lists

theorem orderedInsert_congr {α : Type} {r s : α → α → Prop} [DecidableRel r] [DecidableRel s]
    {a : α} : ∀ {l : List α}, (∀ b ∈ l, r a b ↔ s a b) → l.orderedInsert r a = l.orderedInsert s a
  | [], _ => rfl
  | b :: l, h => by
    have hhead : r a b ↔ s a b := h b List.mem_cons_self
    have htail := orderedInsert_congr fun c hc => h c (List.mem_cons_of_mem _ hc)
    rw [List.orderedInsert_cons, List.orderedInsert_cons, htail]
    simp only [hhead]

/-- Sorting asks of an element only how it compares with later ones. -/
theorem insertionSort_congr {α : Type} {r s : α → α → Prop} [DecidableRel r] [DecidableRel s] :
    ∀ {l : List α}, (l.Pairwise fun a b => r a b ↔ s a b) → l.insertionSort r = l.insertionSort s
  | [], _ => rfl
  | a :: l, h => by
    obtain ⟨hhead, htail⟩ := List.pairwise_cons.mp h
    rw [List.insertionSort_cons, List.insertionSort_cons, insertionSort_congr htail]
    exact orderedInsert_congr fun b hb => hhead b ((List.mem_insertionSort s).mp hb)

variable {α : Type}

/-- The rows of a table are listed by their keys. -/
theorem pairwise_toList (t : Table ℕ α) : t.toList.Pairwise fun a b => a.1 < b.1 :=
  t.ordered_keys_toList.imp fun h => Nat.compare_eq_lt.mp h

/-- A row with the greatest key comes last. -/
theorem toList_insert_of_lt {t : Table ℕ α} {k : ℕ} {v : α} (h : ∀ r ∈ t.toList, r.1 < k) :
    (t.insert k v).toList = t.toList ++ [(k, v)] := by
  have hsorted : (t.toList ++ [(k, v)]).Pairwise fun a b => a.1 < b.1 := by
    rw [List.pairwise_append]
    refine ⟨pairwise_toList t, List.pairwise_singleton _ _, ?_⟩
    intro a ha b hb
    rw [List.mem_singleton.mp hb]
    exact h a ha
  have hnodup : (t.toList ++ [(k, v)]).Nodup := hsorted.imp fun hlt heq => by
    rw [heq] at hlt
    exact lt_irrefl _ hlt
  have hperm : (t.insert k v).toList.Perm (t.toList ++ [(k, v)]) := by
    refine Table.toList_perm_of_mem_iff hnodup fun k' v' => ?_
    rw [Table.getElem?_insert_eq, List.mem_append, List.mem_singleton, Prod.mk.injEq,
      Std.ExtTreeMap.mem_toList_iff_getElem?_eq_some]
    constructor
    · intro hget
      split_ifs at hget with hk
      · exact Or.inr ⟨hk.symm, (Option.some.inj hget).symm⟩
      · exact Or.inl hget
    · rintro (hget | ⟨rfl, rfl⟩)
      · rw [if_neg, hget]
        rintro rfl
        exact lt_irrefl _ (h _ (Std.ExtTreeMap.mem_toList_iff_getElem?_eq_some.mpr hget))
      · exact if_pos rfl
  refine hperm.eq_of_pairwise ?_ (pairwise_toList _) hsorted
  intro a b _ _ hab hba
  exact absurd hab (not_lt.mpr hba.le)

end Lists

/-! ## Plans -/

/-- What the transactions on a scan leave. -/
structure Plan where
  groups : List DuplicateGroup := []
  /-- The inventory that the plan was published for, and its summary. -/
  published : Option (Bytes × PlanSummary) := none

/-- A transaction that was committed. -/
inductive PlanEvent where
  | begun
  | stored (groups : List DuplicateGroup)
  | completed (inventory : Bytes) (summary : PlanSummary)
  | superseded

/-- A plan after a transaction on its scan. -/
def Plan.after (p : Plan) : PlanEvent → Plan
  | .begun => {}
  | .stored groups => { p with groups := p.groups ++ groups }
  | .completed inventory summary => { p with published := some (inventory, summary) }
  | .superseded => { p with published := none }

/-- The plans of all scans after a transaction. -/
def planned (plans : ℕ → Plan) (e : ℕ × PlanEvent) : ℕ → Plan :=
  Function.update plans e.1 ((plans e.1).after e.2)

/-- The plans after a trace. -/
def plansAfter (trace : List (ℕ × PlanEvent)) : ℕ → Plan := trace.foldl planned fun _ => {}

/-- A group as it is read back: a group without a proof has no verification mode, and a member
without a proof has the empty one. -/
def DuplicateGroup.readBack (g : DuplicateGroup) : DuplicateGroup :=
  { g with
    verificationMode := if g.proof.isSome then g.verificationMode else .legacyUnknown
    memberProofs := g.members.mapIdx fun position _ => (g.memberProofs[position]?).getD {} }

/-- The order in which a plan is shown. -/
def DuplicateGroup.planOrder (g : DuplicateGroup) : ℕᵒᵈ ×ₗ List ℕ :=
  toLex (OrderDual.toDual g.reclaimableBytes, g.keep.path.codes)

/-- What a plan is for: its groups, once it is published for the inventory that stands. -/
def Plan.shown (p : Plan) (inventory : Option Bytes) : List DuplicateGroup :=
  if p.published.any fun q => inventory = some q.1 then
    (p.groups.insertionSort fun a b => a.planOrder ≤ b.planOrder).map DuplicateGroup.readBack
  else []

/-! ## Runs -/

/-- A complete scan with planned groups stays complete, with its rows. -/
def KeepsPlanned (db db' : Database) : Prop :=
  ∀ s, db.isComplete s = true → db.plans.ofScan s ≠ [] →
    db'.isComplete s = true ∧ db'.files s = db.files s

/-- A step: a transaction of any caller, one that is rolled back, one that gives a scan a successor
and supersedes the head of its plan, or a step of another component, which leaves the tables of the
plans. -/
inductive PlanStep (db : Database) : List (ℕ × PlanEvent) → Database → Prop
  | begun {scanId s : ℕ} {db' : Database} : resolveScanId db scanId = .ok s →
      beginDuplicatePlan db scanId = .ok db' → PlanStep db [(s, .begun)] db'
  | stored {scanId s : ℕ} {groups : List DuplicateGroup} {db' : Database} :
      resolveScanId db scanId = .ok s → storeDuplicateGroups db scanId groups = .ok db' →
      PlanStep db [(s, .stored groups)] db'
  | completed {scanId s : ℕ} {c : PlanSummary} {digest : Bytes} {db' : Database} :
      resolveScanId db scanId = .ok s → db.heads[s]? = some digest →
      completeDuplicatePlan db scanId c = .ok db' → PlanStep db [(s, .completed digest c)] db'
  | superseded {s : ℕ} {db' : Database} : db'.plans = db.plans.supersede s → KeepsPlanned db db' →
      PlanStep db [(s, .superseded)] db'
  | rolledBack : PlanStep db [] db
  | other {db' : Database} : db'.plans = db.plans → KeepsPlanned db db' → PlanStep db [] db'

/-- A run from a database, with its trace. -/
inductive PlanRun (db₀ : Database) : List (ℕ × PlanEvent) → Database → Prop
  | start : PlanRun db₀ [] db₀
  | step {trace events : List (ℕ × PlanEvent)} {db db' : Database} :
      PlanRun db₀ trace db → PlanStep db events db' → PlanRun db₀ (trace ++ events) db'

/-- Groups are only stored in plans that are not published: the planner begins before it stores. -/
def Disciplined (trace : List (ℕ × PlanEvent)) : Prop :=
  ∀ before s groups after, trace = before ++ (s, .stored groups) :: after →
    (plansAfter before s).published = none

/-! ## Transactions -/

theorem lt_nextGroupId (plans : PlanTables) : ∀ r ∈ plans.groups.toList, r.1 < plans.nextGroupId := by
  intro r hr
  have hkey : r.1 ∈ plans.groups.keys := by
    rw [← Std.ExtTreeMap.map_fst_toList_eq_keys]
    exact List.mem_map_of_mem hr
  exact Nat.lt_succ_of_le (le_foldl_max (Or.inr hkey))

theorem mem_ofScan {plans : PlanTables} {s : ℕ} {r : ℕ × PlannedGroup} :
    r ∈ plans.ofScan s ↔ plans.groups[r.1]? = some r.2 ∧ r.2.scanId = s := by
  rw [PlanTables.ofScan, List.mem_filter, decide_eq_true_eq,
    Std.ExtTreeMap.mem_toList_iff_getElem?_eq_some]

theorem ofScan_insertGroup (plans : PlanTables) (s s' : ℕ) (g : DuplicateGroup) :
    (plans.insertGroup s g).ofScan s' =
      plans.ofScan s' ++ if s = s' then [(plans.nextGroupId, g.plannedGroup s)] else [] := by
  have hlist : (plans.insertGroup s g).groups.toList =
      plans.groups.toList ++ [(plans.nextGroupId, g.plannedGroup s)] :=
    toList_insert_of_lt (lt_nextGroupId plans)
  rw [PlanTables.ofScan, hlist, List.filter_append]
  congr 1
  by_cases hs : s = s'
  · simp [hs, DuplicateGroup.plannedGroup]
  · simp [hs, DuplicateGroup.plannedGroup]

/-- The rows of the members of earlier groups stay. -/
theorem members_insertGroup {plans : PlanTables} {s : ℕ} {g : DuplicateGroup}
    {r : ℕ × PlannedGroup} (hr : r ∈ plans.groups.toList) :
    (plans.insertGroup s g).members r.1 = plans.members r.1 :=
  Function.update_of_ne (lt_nextGroupId plans r hr).ne _ _

theorem members_insertGroup_self (plans : PlanTables) (s : ℕ) (g : DuplicateGroup) :
    (plans.insertGroup s g).members plans.nextGroupId = g.plannedMembers :=
  Function.update_self _ _ _

/-- The plan of a scan as rows. -/
def PlanTables.rows (plans : PlanTables) (s : ℕ) : List (PlannedGroup × List PlannedMember) :=
  (plans.ofScan s).map fun r => (r.2, plans.members r.1)

/-- The rows of a group. -/
def DuplicateGroup.rows (s : ℕ) (g : DuplicateGroup) : PlannedGroup × List PlannedMember :=
  (g.plannedGroup s, g.plannedMembers)

theorem rows_insertGroup (plans : PlanTables) (s s' : ℕ) (g : DuplicateGroup) :
    (plans.insertGroup s g).rows s' = plans.rows s' ++ if s = s' then [g.rows s] else [] := by
  have hold : ∀ r ∈ plans.ofScan s', (r.2, (plans.insertGroup s g).members r.1) =
      (r.2, plans.members r.1) := by
    intro r hr
    rw [members_insertGroup (List.mem_filter.mp hr).1]
  rw [PlanTables.rows, ofScan_insertGroup, List.map_append, List.map_congr_left hold]
  congr 1
  split_ifs
  · rw [List.map_singleton, members_insertGroup_self]
    rfl
  · rfl

/-- The loop of `store_duplicate_groups`. -/
theorem foldlM_storeGroup {files : Files} {s : ℕ} : ∀ {groups : List DuplicateGroup}
    {plans plans' : PlanTables}, groups.foldlM (storeGroup files s) plans = .ok plans' →
    (∀ s', plans'.rows s' = plans.rows s' ++ if s = s' then groups.map (DuplicateGroup.rows s) else [])
      ∧ plans'.summaries = plans.summaries ∧ plans'.heads = plans.heads ∧
      ∀ g ∈ groups, g.check files = .ok ()
  | [], plans, plans', h => by
    rw [List.foldlM_nil, pure_eq_ok] at h
    rw [← h]
    exact ⟨fun s' => by simp, rfl, rfl, by simp⟩
  | g :: groups, plans, plans', h => by
    rw [List.foldlM_cons, bind_eq_ok] at h
    obtain ⟨middle, hfirst, hrest⟩ := h
    unfold storeGroup at hfirst
    rw [bind_eq_ok] at hfirst
    obtain ⟨_, hcheck, hmiddle⟩ := hfirst
    rw [pure_eq_ok] at hmiddle
    obtain ⟨hrows, hsummaries, hheads, hchecks⟩ := foldlM_storeGroup hrest
    rw [← hmiddle] at hrows hsummaries hheads
    refine ⟨?_, hsummaries, hheads, ?_⟩
    · intro s'
      rw [hrows, rows_insertGroup, List.append_assoc]
      congr 1
      split_ifs <;> rfl
    · intro g' hg'
      rcases List.mem_cons.mp hg' with rfl | hg'
      · exact hcheck
      · exact hchecks g' hg'

theorem storeDuplicateGroups_spec {db db' : Database} {scanId s : ℕ} {groups : List DuplicateGroup}
    (hs : resolveScanId db scanId = .ok s) (h : storeDuplicateGroups db scanId groups = .ok db') :
    (∀ s', db'.plans.rows s' =
        db.plans.rows s' ++ if s = s' then groups.map (DuplicateGroup.rows s) else []) ∧
      db'.plans.summaries = db.plans.summaries ∧ db'.plans.heads = db.plans.heads ∧
      db' = { db with plans := db'.plans } ∧ ∀ g ∈ groups, g.check (db.files s) = .ok () := by
  unfold storeDuplicateGroups at h
  rw [hs, ok_bind, bind_eq_ok] at h
  obtain ⟨plans, hrun, hdb⟩ := h
  rw [pure_eq_ok] at hdb
  obtain ⟨hrows, hsummaries, hheads, hchecks⟩ := foldlM_storeGroup hrun
  rw [← hdb]
  exact ⟨hrows, hsummaries, hheads, rfl, hchecks⟩

theorem beginDuplicatePlan_spec {db db' : Database} {scanId s : ℕ}
    (hs : resolveScanId db scanId = .ok s) (h : beginDuplicatePlan db scanId = .ok db') :
    db'.plans.rows s = [] ∧ (∀ s', s' ≠ s → db'.plans.rows s' = db.plans.rows s') ∧
      db'.plans.summaries = db.plans.summaries.erase s ∧
      (∀ s', s' ≠ s → db'.plans.heads[s']? = db.plans.heads[s']?) ∧
      db' = { db with plans := db'.plans } := by
  unfold beginDuplicatePlan at h
  rw [hs, ok_bind, bind_eq_ok] at h
  obtain ⟨-, -, hdb⟩ := h
  rw [pure_eq_ok] at hdb
  have hlist : ∀ s', db'.plans.ofScan s' =
      (db.plans.groups.toList.filter fun r => r.2.scanId ≠ s).filter fun r => r.2.scanId = s' := by
    intro s'
    rw [← hdb, PlanTables.ofScan, Std.ExtTreeMap.toList_filter]
  refine ⟨?_, ?_, ?_, ?_, ?_⟩
  · rw [PlanTables.rows, hlist, List.map_eq_nil_iff, List.filter_eq_nil_iff]
    intro r hr
    have := (List.mem_filter.mp hr).2
    simpa using this
  · intro s' hne
    have hsame : db'.plans.ofScan s' = db.plans.ofScan s' := by
      rw [hlist, PlanTables.ofScan, List.filter_filter]
      refine List.filter_congr fun r _ => ?_
      by_cases hr : r.2.scanId = s'
      · simp [hr, hne]
      · simp [hr]
    rw [PlanTables.rows, hsame]
    refine List.map_congr_left fun r hr => ?_
    obtain ⟨hget, hscan⟩ := mem_ofScan.mp hr
    have hkept : db'.plans.members r.1 = db.plans.members r.1 := by
      rw [← hdb]
      refine if_neg ?_
      rw [hget, Option.any_some, decide_eq_true_eq, hscan]
      exact hne
    rw [hkept]
  · rw [← hdb]
  · intro s' hne
    rw [← hdb]
    dsimp only
    cases db.plans.heads[s]? with
    | none => rfl
    | some head =>
      rw [Table.getElem?_insert_eq, if_neg hne.symm]
  · rw [← hdb]

/-- The totals of a plan. -/
def PlanSummary.Totals (c : PlanSummary) (rows : List (PlannedGroup × List PlannedMember)) : Prop :=
  c.groupCount = rows.length ∧ c.redundantFiles = (rows.map fun r => r.1.redundantCount).sum ∧
    c.reclaimableBytes = (rows.map fun r => r.1.reclaimableBytes).sum

/-- What `complete_duplicate_plan` asks of the rows of a plan. -/
def PlanSummary.Covers (c : PlanSummary) (rows : List (PlannedGroup × List PlannedMember)) : Prop :=
  c.requestedPolicy ≠ .legacyUnknown →
    c.coverageConsistent ∧ ∀ r ∈ rows, ¬ missingProof c.requestedPolicy r.1 r.2

theorem completeDuplicatePlan_spec {db db' : Database} {scanId s : ℕ} {c : PlanSummary}
    {digest : Bytes} (hs : resolveScanId db scanId = .ok s) (hdigest : db.heads[s]? = some digest)
    (h : completeDuplicatePlan db scanId c = .ok db') :
    c.Totals (db.plans.rows s) ∧ c.Covers (db.plans.rows s) ∧
      (∀ s', db'.plans.rows s' = db.plans.rows s') ∧
      db'.plans.summaries = db.plans.summaries.insert s c ∧
      db'.plans.heads = db.plans.heads.insert s ⟨digest, .published⟩ ∧
      db' = { db with plans := db'.plans } ∧ db.isComplete s = true ∧
      ∀ row ∈ db.plans.rows s, ¬ malformed (db.files s) row.1 row.2 := by
  unfold completeDuplicatePlan inventoryContentDigestForPlan at h
  rw [hs, ok_bind] at h
  simp only [bind_eq_ok, raiseIf_eq_ok, pure_eq_ok, hdigest, not_or, not_and, not_not,
    not_exists, Bool.not_eq_false] at h
  obtain ⟨-, hcomplete, -, ⟨hcount, hredundant, hreclaim, -⟩, -, hmembers, -, hcoverage, -, hmissing,
    digest', hread, hdb⟩ := h
  obtain ⟨-, -, rfl⟩ := hread
  rw [← hdb]
  refine ⟨⟨?_, ?_, ?_⟩, ?_, fun _ => rfl, rfl, rfl, rfl, hcomplete, ?_⟩
  · rw [← hcount, PlanTables.rows, List.length_map]
  · rw [← hredundant, PlanTables.rows, List.map_map]
    rfl
  · rw [← hreclaim, PlanTables.rows, List.map_map]
    rfl
  · intro hpolicy
    refine ⟨hcoverage hpolicy, ?_⟩
    intro row hrow
    obtain ⟨r, hr, rfl⟩ := List.mem_map.mp hrow
    exact hmissing hpolicy r hr
  · intro row hrow
    obtain ⟨r, hr, rfl⟩ := List.mem_map.mp hrow
    exact hmembers r hr

/-! ## The tables hold the plans -/

@[simp] theorem plansAfter_append_singleton (trace : List (ℕ × PlanEvent)) (e : ℕ × PlanEvent) :
    plansAfter (trace ++ [e]) = planned (plansAfter trace) e := List.foldl_append

theorem planned_self (plans : ℕ → Plan) (s : ℕ) (e : PlanEvent) :
    planned plans (s, e) s = (plans s).after e := Function.update_self _ _ _

theorem planned_of_ne (plans : ℕ → Plan) {s s' : ℕ} (e : PlanEvent) (h : s' ≠ s) :
    planned plans (s, e) s' = plans s' := Function.update_of_ne h _ _

/-- The plan of a scan has no summary, or its head is superseded. -/
def PlanTables.Hidden (plans : PlanTables) (s : ℕ) : Prop :=
  plans.summaries[s]? = none ∨ ∃ head ∈ plans.heads[s]?, head.status = .superseded

theorem getElem?_heads_supersede (plans : PlanTables) (s s' : ℕ) :
    (plans.supersede s).heads[s']? =
      if s = s' then plans.heads[s]?.map fun head => { head with status := .superseded }
      else plans.heads[s']? := by
  unfold PlanTables.supersede
  cases hhead : plans.heads[s]? with
  | none =>
    split_ifs with heq
    · rw [← heq]
      exact hhead
    · rfl
  | some head => exact Table.getElem?_insert_eq

/-- A plan with a head is hidden once it is superseded, and one without a summary stays hidden. -/
theorem PlanTables.Hidden.supersede {plans : PlanTables} {s : ℕ}
    (h : plans.Hidden s ∨ s ∈ plans.heads) : (plans.supersede s).Hidden s := by
  have hheads : (plans.supersede s).heads[s]? =
      plans.heads[s]?.map fun head => { head with status := .superseded } := by
    rw [getElem?_heads_supersede, if_pos rfl]
  have hsuperseded : ∀ head, plans.heads[s]? = some head → (plans.supersede s).Hidden s := by
    intro head hhead
    rw [hhead] at hheads
    exact Or.inr ⟨_, hheads, rfl⟩
  rcases h with (hsummary | ⟨head, hhead, -⟩) | hmem
  · exact Or.inl hsummary
  · exact hsuperseded head hhead
  · exact hsuperseded _ (Std.ExtTreeMap.getElem?_eq_some_getElem hmem)

/-- The tables hold the plans. -/
structure Tracks (db : Database) (plans : ℕ → Plan) : Prop where
  rows : ∀ s, db.plans.rows s = (plans s).groups.map (DuplicateGroup.rows s)
  hidden : ∀ s, (plans s).published = none → db.plans.Hidden s
  published : ∀ s digest c, (plans s).published = some (digest, c) →
    db.plans.summaries[s]? = some c ∧ db.plans.heads[s]? = some ⟨digest, .published⟩

theorem Tracks.begun {db db' : Database} {plans : ℕ → Plan} (h : Tracks db plans) {scanId s : ℕ}
    (hs : resolveScanId db scanId = .ok s) (hbegin : beginDuplicatePlan db scanId = .ok db') :
    Tracks db' (planned plans (s, .begun)) := by
  obtain ⟨hself, hrows, hsummaries, hheads, -⟩ := beginDuplicatePlan_spec hs hbegin
  refine ⟨?_, ?_, ?_⟩ <;> intro s' <;> by_cases hne : s' = s
  · rw [hne, planned_self, hself]
    rfl
  · rw [planned_of_ne _ _ hne, hrows s' hne]
    exact h.rows s'
  · intro _
    refine Or.inl ?_
    rw [hne, hsummaries]
    exact Std.ExtTreeMap.getElem?_erase_self
  · rw [planned_of_ne _ _ hne]
    intro hnone
    rcases h.hidden s' hnone with hsummary | hhead
    · refine Or.inl ?_
      rw [hsummaries, Std.ExtTreeMap.getElem?_erase, hsummary, ite_self]
    · refine Or.inr ?_
      rw [hheads s' hne]
      exact hhead
  · rw [hne, planned_self]
    intro digest c hpublished
    exact absurd hpublished.symm (Option.some_ne_none _)
  · intro digest c
    rw [planned_of_ne _ _ hne, hsummaries, hheads s' hne, Std.ExtTreeMap.getElem?_erase,
      if_neg fun heq => hne (Std.LawfulEqCmp.compare_eq_iff_eq.mp heq).symm]
    exact h.published s' digest c

theorem Tracks.stored {db db' : Database} {plans : ℕ → Plan} (h : Tracks db plans) {scanId s : ℕ}
    {groups : List DuplicateGroup} (hs : resolveScanId db scanId = .ok s)
    (hstore : storeDuplicateGroups db scanId groups = .ok db') :
    Tracks db' (planned plans (s, .stored groups)) := by
  obtain ⟨hrows, hsummaries, hheads, -, -⟩ := storeDuplicateGroups_spec hs hstore
  have hpublished : ∀ s', (planned plans (s, .stored groups) s').published =
      (plans s').published := by
    intro s'
    by_cases hne : s' = s
    · rw [hne, planned_self]
      rfl
    · rw [planned_of_ne _ _ hne]
  refine ⟨?_, ?_, ?_⟩ <;> intro s'
  · rw [hrows, h.rows]
    by_cases hne : s' = s
    · rw [hne, planned_self, if_pos rfl, ← List.map_append]
      rfl
    · rw [planned_of_ne _ _ hne, if_neg fun heq => hne heq.symm, List.append_nil]
  · rw [hpublished, PlanTables.Hidden, hsummaries, hheads]
    exact h.hidden s'
  · rw [hpublished, hsummaries, hheads]
    exact h.published s'

theorem Tracks.completed {db db' : Database} {plans : ℕ → Plan} (h : Tracks db plans)
    {scanId s : ℕ} {c : PlanSummary} {digest : Bytes} (hs : resolveScanId db scanId = .ok s)
    (hdigest : db.heads[s]? = some digest) (hcomplete : completeDuplicatePlan db scanId c = .ok db') :
    Tracks db' (planned plans (s, .completed digest c)) := by
  obtain ⟨-, -, hrows, hsummaries, hheads, -⟩ := completeDuplicatePlan_spec hs hdigest hcomplete
  refine ⟨?_, ?_, ?_⟩ <;> intro s'
  · rw [hrows, h.rows]
    by_cases hne : s' = s
    · rw [hne, planned_self]
      rfl
    · rw [planned_of_ne _ _ hne]
  · by_cases hne : s' = s
    · rw [hne, planned_self]
      intro hnone
      exact absurd hnone (Option.some_ne_none _)
    · rw [planned_of_ne _ _ hne, PlanTables.Hidden, hsummaries, hheads, Table.getElem?_insert_eq,
        Table.getElem?_insert_eq, if_neg fun heq => hne heq.symm, if_neg fun heq => hne heq.symm]
      exact h.hidden s'
  · intro digest' c'
    rw [hsummaries, hheads, Table.getElem?_insert_eq, Table.getElem?_insert_eq]
    by_cases hne : s' = s
    · rw [hne, planned_self, if_pos rfl, if_pos rfl]
      intro hpublished
      obtain ⟨rfl, rfl⟩ := Prod.mk.inj (Option.some.inj hpublished)
      exact ⟨rfl, rfl⟩
    · rw [planned_of_ne _ _ hne, if_neg fun heq => hne heq.symm, if_neg fun heq => hne heq.symm]
      exact h.published s' digest' c'

theorem Tracks.superseded {db db' : Database} {plans : ℕ → Plan} (h : Tracks db plans) {s : ℕ}
    (hplans : db'.plans = db.plans.supersede s) : Tracks db' (planned plans (s, .superseded)) := by
  refine ⟨?_, ?_, ?_⟩ <;> intro s' <;> rw [hplans]
  · refine (h.rows s').trans ?_
    by_cases hne : s' = s
    · rw [hne, planned_self]
      rfl
    · rw [planned_of_ne _ _ hne]
  · by_cases hne : s' = s
    · intro _
      rw [hne]
      refine PlanTables.Hidden.supersede ?_
      cases hpublished : (plans s).published with
      | none => exact Or.inl (h.hidden s hpublished)
      | some q =>
        have hhead := (h.published s q.1 q.2 hpublished).2
        exact Or.inr (Std.ExtTreeMap.mem_iff_isSome_getElem?.mpr (by rw [hhead]; rfl))
    · rw [planned_of_ne _ _ hne, PlanTables.Hidden, getElem?_heads_supersede,
        if_neg fun heq => hne heq.symm]
      exact h.hidden s'
  · intro digest c
    by_cases hne : s' = s
    · rw [hne, planned_self]
      intro hpublished
      exact absurd hpublished.symm (Option.some_ne_none _)
    · rw [planned_of_ne _ _ hne, getElem?_heads_supersede, if_neg fun heq => hne heq.symm]
      exact h.published s' digest c

/-- The tables hold the plans in every run from empty tables. -/
theorem PlanRun.tracks {db₀ db : Database} {trace : List (ℕ × PlanEvent)}
    (hstart : db₀.plans = {}) (h : PlanRun db₀ trace db) : Tracks db (plansAfter trace) := by
  induction h with
  | start =>
    refine ⟨?_, ?_, ?_⟩
    · intro s
      rw [hstart]
      rfl
    · intro s _
      rw [hstart]
      exact Or.inl Std.ExtTreeMap.getElem?_empty
    · intro s digest c hpublished
      exact absurd hpublished.symm (Option.some_ne_none _)
  | step _ hstep ih =>
    cases hstep with
    | begun hs hbegin => rw [plansAfter_append_singleton]; exact ih.begun hs hbegin
    | stored hs hstore => rw [plansAfter_append_singleton]; exact ih.stored hs hstore
    | completed hs hdigest hcomplete =>
      rw [plansAfter_append_singleton]
      exact ih.completed hs hdigest hcomplete
    | superseded hplans _ => rw [plansAfter_append_singleton]; exact ih.superseded hplans
    | rolledBack => rwa [List.append_nil]
    | other hplans _ =>
      rw [List.append_nil]
      exact ⟨fun s => hplans ▸ ih.rows s, fun s => hplans ▸ ih.hidden s,
        fun s => hplans ▸ ih.published s⟩

/-! ## Reading -/

/-- The rows of a group are read back as the group. -/
theorem read_rows (s : ℕ) (g : DuplicateGroup) :
    (g.rows s).1.read (g.rows s).2 = some g.readBack := by
  have hmap : ∀ {α β : Type} (f : ℕ → FileSnapshot → α) (h : α → β),
      (g.redundant.mapIdx f).map h = g.redundant.mapIdx fun i m => h (f i m) := by
    intro α β f h
    refine List.ext_getElem? fun i => ?_
    simp only [List.getElem?_map, List.getElem?_mapIdx, Option.map_map, Function.comp_def]
  have hid : (g.redundant.mapIdx fun _ m => m) = g.redundant := by
    refine List.ext_getElem? fun i => ?_
    rw [List.getElem?_mapIdx, Option.map_id']
  simp [DuplicateGroup.rows, DuplicateGroup.plannedMembers, DuplicateGroup.members,
    DuplicateGroup.plannedGroup, DuplicateGroup.readBack, PlannedGroup.read, List.mapIdx_cons, hmap,
    hid]

/-- The order of the rows of a plan. -/
def rowOrder (r : PlannedGroup × List PlannedMember) : ℕᵒᵈ ×ₗ List ℕ :=
  toLex (OrderDual.toDual r.1.reclaimableBytes, r.1.keepPath.codes)

/-- Among the groups of a scan the identifier only breaks ties, as the list of the groups does. -/
theorem pairwise_groupOrder (plans : PlanTables) (s : ℕ) :
    (plans.ofScan s).Pairwise fun a b => groupOrder a ≤ groupOrder b ↔
      rowOrder (a.2, plans.members a.1) ≤ rowOrder (b.2, plans.members b.1) := by
  refine ((pairwise_toList plans.groups).sublist List.filter_sublist).imp ?_
  intro a b hlt
  simp only [groupOrder, rowOrder, Prod.Lex.toLex_le_toLex, hlt.le, and_true]
  refine or_congr_right (and_congr_right fun _ => ?_)
  exact le_iff_lt_or_eq.symm

theorem sorted_rows (plans : PlanTables) (s : ℕ) :
    ((plans.ofScan s).insertionSort fun a b => groupOrder a ≤ groupOrder b).map
        (fun r => (r.2, plans.members r.1)) =
      (plans.rows s).insertionSort fun a b => rowOrder a ≤ rowOrder b := by
  rw [insertionSort_congr (pairwise_groupOrder plans s), PlanTables.rows]
  exact List.map_insertionSort _ _ _ _ fun _ _ _ _ => Iff.rfl

theorem planVisible_iff {db : Database} {plans : ℕ → Plan} (h : Tracks db plans) (s : ℕ) :
    db.planVisible s = (plans s).published.any fun q => db.heads[s]? = some q.1 := by
  unfold Database.planVisible
  cases hpublished : (plans s).published with
  | none =>
    rcases h.hidden s hpublished with hsummary | ⟨head, hhead, hstatus⟩
    · have hnot : s ∉ db.plans.summaries := by
        rw [Std.ExtTreeMap.mem_iff_isSome_getElem?, hsummary]
        exact Bool.false_ne_true
      simp [hnot]
    · rw [Option.mem_def.mp hhead]
      simp [hstatus]
  | some q =>
    obtain ⟨hsummary, hhead⟩ := h.published s q.1 q.2 hpublished
    have hmem : s ∈ db.plans.summaries := Std.ExtTreeMap.mem_iff_isSome_getElem?.mpr (by rw [hsummary]; rfl)
    simp [hmem, hhead]

theorem iterDuplicateGroups_of_tracks {db : Database} {plans : ℕ → Plan} (h : Tracks db plans)
    {scanId s : ℕ} (hs : resolveScanId db scanId = .ok s) :
    iterDuplicateGroups db scanId = .ok ((plans s).shown db.heads[s]?) := by
  have hmap : ∀ l : List (ℕ × PlannedGroup),
      l.filterMap (fun r => r.2.read (db.plans.members r.1)) =
        (l.map fun r => (r.2, db.plans.members r.1)).filterMap fun r => r.1.read r.2 := by
    intro l
    rw [List.filterMap_map]
    rfl
  unfold iterDuplicateGroups
  rw [hs, ok_bind]
  dsimp only
  rw [hmap, sorted_rows, h.rows, planVisible_iff h]
  have hsort : ((plans s).groups.map (DuplicateGroup.rows s)).insertionSort
      (fun a b => rowOrder a ≤ rowOrder b) =
      ((plans s).groups.insertionSort fun a b => a.planOrder ≤ b.planOrder).map
        (DuplicateGroup.rows s) :=
    (List.map_insertionSort _ _ (DuplicateGroup.rows s) _ fun _ _ _ _ => Iff.rfl).symm
  have hread : (fun g : DuplicateGroup => (g.rows s).1.read (g.rows s).2) =
      fun g => some g.readBack := funext fun g => read_rows s g
  rw [hsort, List.filterMap_map]
  show Except.ok (if _ then (List.filterMap (fun g : DuplicateGroup =>
    (g.rows s).1.read (g.rows s).2) _) else []) = _
  rw [hread, List.filterMap_eq_map']
  rfl

/-- In a run of the transactions of any callers, readers see the groups that were stored in a plan
since it began, in the order of what they reclaim, once the plan is published and while its
inventory stands, and nothing else. -/
theorem iterDuplicateGroups_run (db₀ db : Database) (trace : List (ℕ × PlanEvent)) (scanId s : ℕ)
    (hstart : db₀.plans = {}) (hrun : PlanRun db₀ trace db)
    (hs : resolveScanId db scanId = .ok s) :
    iterDuplicateGroups db scanId = .ok ((plansAfter trace s).shown db.heads[s]?) :=
  iterDuplicateGroups_of_tracks (hrun.tracks hstart) hs

/-! ## Evidence -/

/-- The members of the groups are rows of the inventory. -/
def Observed (files : Files) (groups : List DuplicateGroup) : Prop :=
  ∀ g ∈ groups, ∀ member ∈ g.members, files[member.path]? = some member.row

/-- The plans are evidence: their groups were checked when they were stored, and the published ones
are complete. -/
structure Evident (db : Database) (plans : ℕ → Plan) : Prop where
  checked : ∀ s, ∀ g ∈ (plans s).groups, ∃ files, g.check files = .ok ()
  published : ∀ s digest c, (plans s).published = some (digest, c) →
    c.Totals ((plans s).groups.map (DuplicateGroup.rows s)) ∧
      c.Covers ((plans s).groups.map (DuplicateGroup.rows s))
  observed : ∀ s digest c, (plans s).published = some (digest, c) →
    ((plans s).groups ≠ [] → db.isComplete s = true) ∧ Observed (db.files s) (plans s).groups

/-- The members that `complete_duplicate_plan` finds. -/
theorem observed_of_not_malformed {files : Files} {s : ℕ} {groups : List DuplicateGroup}
    (h : ∀ row ∈ groups.map (DuplicateGroup.rows s), ¬ malformed files row.1 row.2) :
    Observed files groups := by
  intro g hg member hmember
  have hrows := h _ (List.mem_map_of_mem hg)
  unfold malformed at hrows
  simp only [not_or, not_exists, not_and, not_not] at hrows
  obtain ⟨-, -, -, -, -, -, -, hfiles⟩ := hrows
  obtain ⟨i, hi, rfl⟩ := List.mem_iff_getElem.mp hmember
  refine hfiles ⟨roleAt i, g.members[i], g.memberProofs[i]?⟩ ?_
  exact List.mem_mapIdx.mpr ⟨i, hi, rfl⟩

/-- What a step leaves of the plans that it does not touch. -/
theorem Evident.kept {db db' : Database} {plans : ℕ → Plan} (h : Evident db plans)
    (ht : Tracks db plans) (hkept : KeepsPlanned db db') {s : ℕ} {digest : Bytes} {c : PlanSummary}
    (hpublished : (plans s).published = some (digest, c)) :
    ((plans s).groups ≠ [] → db'.isComplete s = true) ∧ Observed (db'.files s) (plans s).groups := by
  obtain ⟨hcomplete, hobserved⟩ := h.observed s digest c hpublished
  by_cases hgroups : (plans s).groups = []
  · refine ⟨fun hne => absurd hgroups hne, ?_⟩
    intro g hg
    rw [hgroups] at hg
    exact absurd hg List.not_mem_nil
  · have hplanned : db.plans.ofScan s ≠ [] := by
      intro hnil
      have hrows := ht.rows s
      rw [PlanTables.rows, hnil, List.map_nil, eq_comm, List.map_eq_nil_iff] at hrows
      exact hgroups hrows
    obtain ⟨hcomplete', hfiles⟩ := hkept s (hcomplete hgroups) hplanned
    rw [hfiles]
    exact ⟨fun _ => hcomplete', hobserved⟩

/-- A transaction on the plans leaves the scans. -/
theorem keepsPlanned_of_eq {db db' : Database} (h : db' = { db with plans := db'.plans }) :
    KeepsPlanned db db' := by
  intro s hcomplete _
  rw [h]
  exact ⟨hcomplete, rfl⟩

theorem Evident.begun {db db' : Database} {plans : ℕ → Plan} (h : Evident db plans)
    (ht : Tracks db plans) {scanId s : ℕ} (hs : resolveScanId db scanId = .ok s)
    (hbegin : beginDuplicatePlan db scanId = .ok db') : Evident db' (planned plans (s, .begun)) := by
  obtain ⟨-, -, -, -, hdb⟩ := beginDuplicatePlan_spec hs hbegin
  refine ⟨?_, ?_, ?_⟩ <;> intro s' <;> by_cases hne : s' = s
  · rw [hne, planned_self]
    intro g hg
    exact absurd hg List.not_mem_nil
  · rw [planned_of_ne _ _ hne]
    exact h.checked s'
  · rw [hne, planned_self]
    intro digest c hpublished
    exact absurd hpublished.symm (Option.some_ne_none _)
  · rw [planned_of_ne _ _ hne]
    exact h.published s'
  · rw [hne, planned_self]
    intro digest c hpublished
    exact absurd hpublished.symm (Option.some_ne_none _)
  · rw [planned_of_ne _ _ hne]
    intro digest c hpublished
    exact h.kept ht (keepsPlanned_of_eq hdb) hpublished

theorem Evident.stored {db db' : Database} {plans : ℕ → Plan} (h : Evident db plans)
    (ht : Tracks db plans) {scanId s : ℕ} {groups : List DuplicateGroup}
    (hnew : (plans s).published = none) (hs : resolveScanId db scanId = .ok s)
    (hstore : storeDuplicateGroups db scanId groups = .ok db') :
    Evident db' (planned plans (s, .stored groups)) := by
  obtain ⟨-, -, -, hdb, hchecks⟩ := storeDuplicateGroups_spec hs hstore
  refine ⟨?_, ?_, ?_⟩ <;> intro s' <;> by_cases hne : s' = s
  · rw [hne, planned_self]
    intro g hg
    rcases List.mem_append.mp hg with hg | hg
    · exact h.checked s g hg
    · exact ⟨_, hchecks g hg⟩
  · rw [planned_of_ne _ _ hne]
    exact h.checked s'
  · rw [hne, planned_self]
    intro digest c hpublished
    exact absurd (hnew.symm.trans hpublished).symm (Option.some_ne_none _)
  · rw [planned_of_ne _ _ hne]
    exact h.published s'
  · rw [hne, planned_self]
    intro digest c hpublished
    exact absurd (hnew.symm.trans hpublished).symm (Option.some_ne_none _)
  · rw [planned_of_ne _ _ hne]
    intro digest c hpublished
    exact h.kept ht (keepsPlanned_of_eq hdb) hpublished

theorem Evident.completed {db db' : Database} {plans : ℕ → Plan} (h : Evident db plans)
    (ht : Tracks db plans) {scanId s : ℕ} {c : PlanSummary} {digest : Bytes}
    (hs : resolveScanId db scanId = .ok s) (hdigest : db.heads[s]? = some digest)
    (hcomplete : completeDuplicatePlan db scanId c = .ok db') :
    Evident db' (planned plans (s, .completed digest c)) := by
  obtain ⟨htotals, hcovers, -, -, -, hdb, hscan, hmembers⟩ :=
    completeDuplicatePlan_spec hs hdigest hcomplete
  rw [ht.rows] at htotals hcovers hmembers
  refine ⟨?_, ?_, ?_⟩ <;> intro s' <;> by_cases hne : s' = s
  · rw [hne, planned_self]
    exact h.checked s
  · rw [planned_of_ne _ _ hne]
    exact h.checked s'
  · rw [hne, planned_self]
    intro digest' c' hpublished
    obtain ⟨-, rfl⟩ := Prod.mk.inj (Option.some.inj hpublished)
    exact ⟨htotals, hcovers⟩
  · rw [planned_of_ne _ _ hne]
    exact h.published s'
  · rw [hne, planned_self, hdb]
    intro digest' c' _
    exact ⟨fun _ => hscan, observed_of_not_malformed hmembers⟩
  · rw [planned_of_ne _ _ hne]
    intro digest' c' hpublished
    exact h.kept ht (keepsPlanned_of_eq hdb) hpublished

theorem Evident.superseded {db db' : Database} {plans : ℕ → Plan} (h : Evident db plans)
    (ht : Tracks db plans) (hkept : KeepsPlanned db db') (s : ℕ) :
    Evident db' (planned plans (s, .superseded)) := by
  refine ⟨?_, ?_, ?_⟩ <;> intro s' <;> by_cases hne : s' = s
  · rw [hne, planned_self]
    exact h.checked s
  · rw [planned_of_ne _ _ hne]
    exact h.checked s'
  · rw [hne, planned_self]
    intro digest c hpublished
    exact absurd hpublished.symm (Option.some_ne_none _)
  · rw [planned_of_ne _ _ hne]
    exact h.published s'
  · rw [hne, planned_self]
    intro digest c hpublished
    exact absurd hpublished.symm (Option.some_ne_none _)
  · rw [planned_of_ne _ _ hne]
    intro digest c hpublished
    exact h.kept ht hkept hpublished

theorem Disciplined.left {trace events : List (ℕ × PlanEvent)} (h : Disciplined (trace ++ events)) :
    Disciplined trace := by
  intro before s groups after heq
  refine h before s groups (after ++ events) ?_
  rw [heq, List.append_assoc, List.cons_append]

/-- The plans are evidence in every disciplined run from empty tables. -/
theorem PlanRun.evident {db₀ db : Database} {trace : List (ℕ × PlanEvent)}
    (hstart : db₀.plans = {}) (h : PlanRun db₀ trace db) (hd : Disciplined trace) :
    Evident db (plansAfter trace) := by
  induction h with
  | start =>
    refine ⟨?_, ?_, ?_⟩
    · intro s g hg
      exact absurd hg List.not_mem_nil
    · intro s digest c hpublished
      exact absurd hpublished.symm (Option.some_ne_none _)
    · intro s digest c hpublished
      exact absurd hpublished.symm (Option.some_ne_none _)
  | @step trace events db db' hrun hstep ih =>
    have hbefore := ih hd.left
    have htracks := hrun.tracks hstart
    cases hstep with
    | begun hs hbegin => rw [plansAfter_append_singleton]; exact hbefore.begun htracks hs hbegin
    | @stored _ s groups _ hs hstore =>
      rw [plansAfter_append_singleton]
      exact hbefore.stored htracks (hd trace s groups [] rfl) hs hstore
    | completed hs hdigest hcomplete =>
      rw [plansAfter_append_singleton]
      exact hbefore.completed htracks hs hdigest hcomplete
    | @superseded s _ _ hkept =>
      rw [plansAfter_append_singleton]
      exact hbefore.superseded htracks hkept s
    | rolledBack => rwa [List.append_nil]
    | other _ hkept =>
      rw [List.append_nil]
      exact ⟨hbefore.checked, hbefore.published, fun s digest c hpublished =>
        hbefore.kept htracks hkept hpublished⟩

/-! ## What a check says -/

theorem DuplicateGroup.check_spec {files : Files} {g : DuplicateGroup}
    (h : g.check files = .ok ()) :
    g.membersConsistent ∧
      (g.memberProofs ≠ [] → g.memberProofs.length = g.members.length) ∧
      g.checkProofs = .ok () := by
  unfold DuplicateGroup.check at h
  simp only [bind_eq_ok, raiseIf_eq_ok, not_not, not_and] at h
  obtain ⟨_, hmembers, _, -, _, hcount, _, -, _, hproofs, -⟩ := h
  refine ⟨hmembers, ?_, hproofs⟩
  intro hne
  rw [hcount hne, DuplicateGroup.members, List.length_cons, Nat.add_comm]

/-- A group all of whose members have proofs is read back as it was stored. -/
theorem readBack_eq_self {g : DuplicateGroup} (hproof : g.proof.isSome)
    (hlength : g.memberProofs.length = g.members.length) : g.readBack = g := by
  have hmembers : (g.members.mapIdx fun position _ => (g.memberProofs[position]?).getD {}) =
      g.memberProofs := by
    refine List.ext_getElem (by rw [List.length_mapIdx, hlength]) fun i hi hi' => ?_
    rw [List.getElem_mapIdx, List.getElem?_eq_getElem hi', Option.getD_some]
  unfold DuplicateGroup.readBack
  rw [if_pos hproof, hmembers]

/-- A group without a missing proof. -/
theorem proofs_of_covered {files : Files} {g : DuplicateGroup} {s : ℕ} {policy : DedupPolicy}
    (hcheck : g.check files = .ok ()) (h : ¬ missingProof policy (g.rows s).1 (g.rows s).2) :
    g.readBack = g ∧ g.verificationMode = policy.expectedMode ∧
      ∀ r ∈ (g.members.zip g.memberProofs).zipIdx,
        proofMatches g.keep policy.expectedMode r.2 r.1.1 r.1.2 := by
  obtain ⟨-, hlength, hproofs⟩ := DuplicateGroup.check_spec hcheck
  -- the keeper is a member
  have hkeep : (⟨roleAt 0, g.keep, g.memberProofs[0]?⟩ : PlannedMember) ∈ (g.rows s).2 := by
    simp [DuplicateGroup.rows, DuplicateGroup.plannedMembers, DuplicateGroup.members,
      List.mapIdx_cons]
  unfold missingProof at h
  rw [not_exists] at h
  have hkept : ¬ (_ ∨ _ ∨ _) := fun hother => h _ ⟨hkeep, hother⟩
  rw [not_or, not_or, not_not] at hkept
  obtain ⟨hproof, -, hmode⟩ := hkept
  unfold DuplicateGroup.checkProofs at hproofs
  cases hgroup : g.proof with
  | none => exact absurd hgroup hproof
  | some proof =>
    rw [hgroup] at hproofs
    simp only [bind_eq_ok, raiseIf_eq_ok, not_not, not_or] at hproofs
    obtain ⟨_, ⟨hsame, hne⟩, hmatches⟩ := hproofs
    have hmode' : g.verificationMode = policy.expectedMode := by
      rw [← hmode]
      simp [DuplicateGroup.rows, DuplicateGroup.plannedGroup, hgroup]
    refine ⟨readBack_eq_self (by rw [hgroup]; rfl) (hlength hne), hmode', ?_⟩
    rw [← hmode', hsame]
    exact hmatches

/-- In a disciplined run, a published plan is complete evidence: its summary counts its groups, each
group is of several files of the inventory with one size and distinct identities, and under a
policy each member has the proof that the policy asks for, and the groups are read as they were
stored. -/
theorem published_plan_complete (db₀ db : Database) (trace : List (ℕ × PlanEvent)) (s : ℕ)
    (digest : Bytes) (c : PlanSummary) (hstart : db₀.plans = {}) (hrun : PlanRun db₀ trace db)
    (hd : Disciplined trace) (hpublished : (plansAfter trace s).published = some (digest, c)) :
    let groups := (plansAfter trace s).groups
    db.plans.summaries[s]? = some c ∧ c.groupCount = groups.length ∧
      c.redundantFiles = (groups.map fun g => g.redundant.length).sum ∧
      c.reclaimableBytes = (groups.map DuplicateGroup.reclaimableBytes).sum ∧
      (∀ g ∈ groups, g.membersConsistent ∧
        ∀ member ∈ g.members, (db.files s)[member.path]? = some member.row) ∧
      (c.requestedPolicy ≠ .legacyUnknown → c.coverageConsistent ∧ ∀ g ∈ groups,
        g.readBack = g ∧ g.verificationMode = c.requestedPolicy.expectedMode ∧
        ∀ r ∈ (g.members.zip g.memberProofs).zipIdx,
          proofMatches g.keep c.requestedPolicy.expectedMode r.2 r.1.1 r.1.2) := by
  intro groups
  have hevident := hrun.evident hstart hd
  obtain ⟨⟨hcount, hredundant, hreclaim⟩, hcovers⟩ := hevident.published s digest c hpublished
  refine ⟨((hrun.tracks hstart).published s digest c hpublished).1, ?_, ?_, ?_, ?_, ?_⟩
  · rw [hcount, List.length_map]
  · rw [hredundant, List.map_map]
    rfl
  · rw [hreclaim, List.map_map]
    rfl
  · intro g hg
    obtain ⟨files, hcheck⟩ := hevident.checked s g hg
    exact ⟨(DuplicateGroup.check_spec hcheck).1, (hevident.observed s digest c hpublished).2 g hg⟩
  · intro hpolicy
    obtain ⟨hcoverage, hproofs⟩ := hcovers hpolicy
    refine ⟨hcoverage, fun g hg => ?_⟩
    obtain ⟨files, hcheck⟩ := hevident.checked s g hg
    exact proofs_of_covered hcheck (hproofs _ (List.mem_map_of_mem hg))

/-! ## A published plan -/

theorem Disciplined.append_singleton {trace : List (ℕ × PlanEvent)} (h : Disciplined trace)
    {e : ℕ × PlanEvent}
    (he : ∀ groups, e.2 = .stored groups → (plansAfter trace e.1).published = none) :
    Disciplined (trace ++ [e]) := by
  intro before s groups after heq
  rcases List.eq_nil_or_concat after with rfl | ⟨after, last, rfl⟩
  · obtain ⟨rfl, hlast⟩ := List.append_inj' heq rfl
    obtain rfl := List.singleton_injective hlast
    exact he groups rfl
  · rw [List.concat_eq_append, ← List.cons_append, ← List.append_assoc] at heq
    obtain ⟨rfl, -⟩ := List.append_inj' heq rfl
    exact h before s groups after rfl

def exampleKeep : FileSnapshot := ⟨[⟨[107], by decide⟩], 1, 2, 5, 0, 0⟩

def exampleCopy : FileSnapshot := ⟨[⟨[108], by decide⟩], 1, 3, 5, 0, 0⟩

/-- A complete scan of two files of one size. -/
def exampleDatabase : Database where
  scans := ({} : Table ℕ Scan).insert 1 ⟨⟨[], 1, 1, 0⟩, true, some {}, .complete, []⟩
  files := Function.update (fun _ => ∅) 1
    ((({} : Files).insert exampleKeep.path exampleKeep.row).insert exampleCopy.path exampleCopy.row)
  heads := ({} : Table ℕ Bytes).insert 1 [7]

def exampleProof (result : ComparisonResult) (path : Path) : DuplicateMemberProof where
  proofVersion := proofVersion
  comparisonMethod := .sha256Full
  comparisonResult := result
  comparedToIdentity := if result = .reference then none else some exampleKeep.identity
  fingerprintAlgorithm := some ['s']
  fingerprintSource := .computed
  missingChecks := [lit "byte_for_byte_comparison"]
  aliases := [path]
  aliasCount := some 1
  observedLinkCount := some 1

/-- The two files as a group of the fast policy. -/
def exampleGroup : DuplicateGroup where
  size := 5
  keep := exampleKeep
  redundant := [exampleCopy]
  fullFingerprint := ['f']
  verificationMode := .fast
  proof := some
    { proofVersion := proofVersion
      requestedPolicy := .fast
      comparisonMethod := .sha256Full
      comparisonResult := .fingerprintMatch }
  memberProofs := [exampleProof .reference exampleKeep.path,
    exampleProof .fingerprintMatch exampleCopy.path]

def exampleSummary : PlanSummary := ⟨1, 1, 5, .fast, .fast, .complete, some 0, some 0⟩

/-- The databases of a run that publishes the group. -/
def exampleBegun : Database := (beginDuplicatePlan exampleDatabase 1).toOption.getD {}

def exampleStored : Database := (storeDuplicateGroups exampleBegun 1 [exampleGroup]).toOption.getD {}

def examplePublished : Database :=
  (completeDuplicatePlan exampleStored 1 exampleSummary).toOption.getD {}

def exampleTrace : List (ℕ × PlanEvent) :=
  [(1, .begun), (1, .stored [exampleGroup]), (1, .completed [7] exampleSummary)]

theorem exampleRun : PlanRun exampleDatabase exampleTrace examplePublished := by
  have hbegun : PlanStep exampleDatabase [(1, .begun)] exampleBegun :=
    .begun (show resolveScanId exampleDatabase 1 = .ok 1 from rfl) rfl
  have hstored : PlanStep exampleBegun [(1, .stored [exampleGroup])] exampleStored :=
    .stored (show resolveScanId exampleBegun 1 = .ok 1 from rfl) rfl
  have hcompleted : PlanStep exampleStored [(1, .completed [7] exampleSummary)] examplePublished :=
    .completed (show resolveScanId exampleStored 1 = .ok 1 from rfl) rfl rfl
  exact ((PlanRun.start.step hbegun).step hstored).step hcompleted

theorem exampleTrace_disciplined : Disciplined exampleTrace := by
  have hnil : Disciplined [] := fun before _ _ _ heq => by cases before <;> cases heq
  have hbegun : Disciplined [(1, .begun)] := hnil.append_singleton fun _ heq => by cases heq
  have hstored : Disciplined [(1, .begun), (1, .stored [exampleGroup])] :=
    hbegun.append_singleton fun _ _ => rfl
  exact hstored.append_singleton fun _ heq => by cases heq

/-- The scan of the published plan has a successor. -/
def exampleSucceeded : Database :=
  ((createInventorySuccessor (fun _ => [7]) examplePublished 1).toOption.getD (0, {})).2

theorem exampleSuperseded : PlanStep examplePublished [(1, .superseded)] exampleSucceeded := by
  refine .superseded (show exampleSucceeded.plans = examplePublished.plans.supersede 1 from rfl) ?_
  intro s hcomplete _
  have hne : s ≠ 2 := by
    rintro rfl
    exact Bool.false_ne_true hcomplete
  refine ⟨?_, Function.update_of_ne hne _ _⟩
  rw [← hcomplete]
  change ((examplePublished.scans.insert 2 _)[s]?).any _ = (examplePublished.scans[s]?).any _
  rw [Table.getElem?_insert_eq, if_neg hne.symm]

/-- A reader sees the published group, and nothing of it once the scan has a successor. -/
theorem iterDuplicateGroups_run_example :
    iterDuplicateGroups examplePublished 1 =
        .ok ((plansAfter exampleTrace 1).shown examplePublished.heads[1]?) ∧
      (plansAfter exampleTrace 1).shown examplePublished.heads[1]? = [exampleGroup] ∧
      iterDuplicateGroups exampleSucceeded 1 =
        .ok ((plansAfter (exampleTrace ++ [(1, .superseded)]) 2).shown exampleSucceeded.heads[2]?) ∧
      (plansAfter (exampleTrace ++ [(1, .superseded)]) 2).shown exampleSucceeded.heads[2]? = [] :=
  ⟨iterDuplicateGroups_run exampleDatabase examplePublished exampleTrace 1 1 rfl exampleRun rfl, rfl,
    iterDuplicateGroups_run exampleDatabase exampleSucceeded (exampleTrace ++ [(1, .superseded)]) 1 2
      rfl (exampleRun.step exampleSuperseded) rfl, rfl⟩

theorem published_plan_complete_example :
    examplePublished.plans.summaries[1]? = some exampleSummary ∧ 1 = [exampleGroup].length ∧
      1 = ([exampleGroup].map fun g => g.redundant.length).sum ∧
      5 = ([exampleGroup].map DuplicateGroup.reclaimableBytes).sum ∧
      (∀ g ∈ [exampleGroup], g.membersConsistent ∧
        ∀ member ∈ g.members, (examplePublished.files 1)[member.path]? = some member.row) ∧
      (DedupPolicy.fast ≠ .legacyUnknown → exampleSummary.coverageConsistent ∧
        ∀ g ∈ [exampleGroup], g.readBack = g ∧
          g.verificationMode = DedupPolicy.fast.expectedMode ∧
          ∀ r ∈ (g.members.zip g.memberProofs).zipIdx,
            proofMatches g.keep DedupPolicy.fast.expectedMode r.2 r.1.1 r.1.2) :=
  published_plan_complete exampleDatabase examplePublished exampleTrace 1 [7] exampleSummary rfl
    exampleRun exampleTrace_disciplined rfl

end Inventory
end Neocortex
