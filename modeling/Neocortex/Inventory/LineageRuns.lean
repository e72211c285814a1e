import Neocortex.Inventory.Lineage
import Neocortex.Inventory.Scanner

/-!
# Runs over the lineage of a scan

What a run of the transactions of `inventory/` keeps, in any order and among steps of the scanner on
scans that are not complete: a complete scan keeps its rows for ever, a superseded one keeps all of
its history, and the identity of a generation is the digest of its rows.

* `LineageStep`: a transaction, or a step of the scanner;
* `lineage_run`: runs;
* `exists_planRun`: a run is one of the plans;
* `applyReconciliation_rows`: what a reconciliation leaves of the observations.
-/

namespace Neocortex
namespace Inventory

open Python Checks

variable {sha256 : Bytes → Bytes} {db db' : Database}

/-! ## Counters and checkpoints -/

/-- Only the row of one scan has changed, and the plans. -/
theorem updateScan_getElem? (db : Database) (scanId other : ℕ) (f : Scan → Scan) :
    (db.updateScan scanId f).scans[other]? =
      if scanId = other then db.scans[other]?.map f else db.scans[other]? := by
  unfold Database.updateScan
  cases hscan : db.scans[scanId]? with
  | none =>
    split_ifs with heq
    · rw [← heq, hscan]
      rfl
    · rfl
  | some scan =>
    change (db.scans.insert scanId (f scan))[other]? = _
    rw [Table.getElem?_insert_eq]
    split_ifs with heq
    · rw [← heq, hscan]
      rfl
    · rfl

theorem updateScan_eq (db : Database) (scanId : ℕ) (f : Scan → Scan) :
    db.updateScan scanId f = { db with scans := (db.updateScan scanId f).scans } := by
  unfold Database.updateScan
  cases db.scans[scanId]? <;> rfl

theorem Scan.Publishable.recounted {scan : Scan} {files : Files} (h : scan.Publishable files) :
    Scan.Publishable { scan with counters := scan.counters.map fun c => c.recounted files }
      files := by
  obtain ⟨hstatus, hcompleted, c, hc, herrors, -, -⟩ := h
  refine ⟨hstatus, hcompleted, c.recounted files, ?_, herrors, rfl, rfl⟩
  change scan.counters.map _ = _
  rw [Option.mem_def.mp hc]
  rfl

/-- Counting the rows of a current scan again. -/
theorem Database.Sound.recount (hs : db.Sound sha256) {current : ℕ}
    (hend : db.successors[current]? = none) :
    (db.recount current).Sound sha256 ∧ KeepsPast db (db.recount current) := by
  have hscans : ∀ other : ℕ, (db.recount current).scans[other]? = if current = other then
      db.scans[other]?.map fun scan =>
        { scan with counters := scan.counters.map fun c => c.recounted (db.files current) }
      else db.scans[other]? := fun other => updateScan_getElem? db current other _
  have hrest : db.recount current = { db with scans := (db.recount current).scans } :=
    updateScan_eq db current _
  have hcomplete : ∀ {other : ℕ}, db.Complete other → (db.recount current).Complete other := by
    rintro other ⟨scan, hscan, hstatus⟩
    by_cases heq : current = other
    · refine ⟨{ scan with
        counters := scan.counters.map fun c => c.recounted (db.files current) }, ?_, hstatus⟩
      rw [hscans, if_pos heq, Option.mem_def.mp hscan]
      rfl
    · refine ⟨scan, ?_, hstatus⟩
      rw [hscans, if_neg heq]
      exact hscan
  have hfiles : (db.recount current).files = db.files := by rw [hrest]
  have hversions : (db.recount current).changeVersions = db.changeVersions := by rw [hrest]
  have hedges : (db.recount current).successors = db.successors := by rw [hrest]
  have hheads : (db.recount current).heads = db.heads := by rw [hrest]
  have hpublished : (db.recount current).published = db.published := by rw [hrest]
  have hplans : (db.recount current).plans = db.plans := by rw [hrest]
  refine ⟨⟨?_, ?_, ?_, ?_⟩, ⟨?_, ?_, ?_⟩⟩
  · intro a b hab
    rw [hedges] at hab
    obtain ⟨hlt, ha, hb⟩ := hs.edges a b hab
    exact ⟨hlt, hcomplete ha, hcomplete hb⟩
  · intro scanId digest hd
    rw [hheads] at hd
    obtain ⟨hc, hdigest⟩ := hs.heads scanId digest hd
    rw [hfiles]
    exact ⟨hcomplete hc, hdigest⟩
  · intro root p hp
    rw [hpublished] at hp
    obtain ⟨scan, hscan, hpub, hroot⟩ := hs.published root p hp
    rw [hscans, hfiles, Option.mem_def.mp hscan]
    split_ifs with heq
    · refine ⟨_, rfl, ?_, hroot⟩
      rw [heq]
      exact hpub.recounted
    · exact ⟨scan, rfl, hpub, hroot⟩
  · intro a b head hab hplan
    rw [hedges] at hab
    rw [hplans] at hplan
    exact hs.plans a b head hab hplan
  · intro scanId hc
    rw [hfiles, hversions]
    exact ⟨hcomplete hc, rfl, rfl⟩
  · intro a b hab
    have hne : current ≠ a := by
      rintro rfl
      rw [hend] at hab
      cases hab
    rw [hedges, hscans, if_neg hne]
    exact ⟨hab, rfl⟩
  · intro scanId digest hd
    rw [hheads]
    exact hd

/-- A checkpoint of a publishable scan is written. -/
theorem writeInventoryCheckpoint_eq_ok (hs : db.Sound sha256) {c : InventoryCheckpoint}
    (h : writeInventoryCheckpoint db c = .ok db')
    (hpublishable : ∀ current, resolveScanId db c.scanId = .ok current →
      ∃ scan ∈ db.scans[current]?, scan.Publishable (db.files current) ∧ scan.root.path = c.root) :
    db'.Sound sha256 ∧ KeepsPast db db' := by
  simp only [writeInventoryCheckpoint, bind_eq_ok, pure_eq_ok] at h
  obtain ⟨signature, -, current, hcurrent, _, -, rfl⟩ := h
  refine ⟨⟨hs.edges, hs.heads, ?_, hs.plans⟩,
    ⟨fun _ hc => ⟨hc, rfl, rfl⟩, fun _ _ he => ⟨he, rfl⟩, fun _ _ hd => hd⟩⟩
  intro root p hp
  change (db.published.insert c.root ⟨current, c.valid⟩)[root]? = some p at hp
  rw [Table.getElem?_insert_eq] at hp
  split_ifs at hp with hroot
  · subst hroot
    rw [← Option.some.inj hp]
    exact hpublishable current hcurrent
  · exact hs.published root p hp

/-- A checkpoint is bound to a publishable scan without a successor. -/
theorem policyBoundCheckpoint_eq_ok {c bound : InventoryCheckpoint}
    (h : policyBoundCheckpoint db c = .ok bound) :
    ∃ scan, resolveScanId db c.scanId = .ok bound.scanId ∧
      db.successors[bound.scanId]? = none ∧ db.scans[bound.scanId]? = some scan ∧
      scan.Publishable (db.files bound.scanId) ∧ scan.root.path = bound.root := by
  simp only [policyBoundCheckpoint, bind_eq_ok, requirePublishableScan] at h
  obtain ⟨current, hcurrent, ⟨root, signature⟩, ⟨found, hfound, hroot⟩, _, hsame, _, -, h⟩ := h
  obtain ⟨hend, -⟩ := resolveScanId_eq_ok hcurrent
  obtain rfl : found = current := eq_of_resolveScanId hend hfound
  cases hscan : db.scans[found]? with
  | none =>
    rw [hscan] at hroot
    cases hroot
  | some scan =>
    rw [hscan] at hroot
    simp only [bind_eq_ok, raiseIf_eq_ok, not_not, pure_eq_ok] at hroot
    obtain ⟨_, hpub, s, -, hpair⟩ := hroot
    obtain ⟨rfl, rfl⟩ := Prod.mk.inj hpair
    rw [raiseIf_eq_ok, not_not] at hsame
    rw [pure_eq_ok] at h
    subst h
    exact ⟨scan, hcurrent, hend, hscan, hpub, hsame.symm⟩

theorem bindInventoryCheckpoint_eq_ok (hs : db.Sound sha256) {c : InventoryCheckpoint}
    (h : bindInventoryCheckpoint db c = .ok db') : db'.Sound sha256 ∧ KeepsPast db db' := by
  simp only [bindInventoryCheckpoint, bind_eq_ok] at h
  obtain ⟨_, -, bound, hbound, hwrite⟩ := h
  obtain ⟨scan, -, hend, hscan, hpub, hroot⟩ := policyBoundCheckpoint_eq_ok hbound
  refine writeInventoryCheckpoint_eq_ok hs hwrite fun current hcurrent => ?_
  obtain rfl : current = bound.scanId := eq_of_resolveScanId hend hcurrent
  exact ⟨scan, hscan, hpub, hroot⟩

theorem refreshScanAggregates_eq_ok (hs : db.Sound sha256) {scanId : ℕ}
    (h : refreshScanAggregates db scanId = .ok db') : db'.Sound sha256 ∧ KeepsPast db db' := by
  simp only [refreshScanAggregates, bind_eq_ok, pure_eq_ok] at h
  obtain ⟨current, hcurrent, _, -, rfl⟩ := h
  exact hs.recount (resolveScanId_eq_ok hcurrent).1

/-- The end of a reconciliation, at a scan without a successor. -/
theorem publishReconciliation_eq_ok (hs : db.Sound sha256) {current : ℕ}
    (hend : db.successors[current]? = none) {checkpoint : Option InventoryCheckpoint}
    (hcheckpoint : ∀ c ∈ checkpoint, c.scanId = current ∧
      ∃ scan ∈ db.scans[current]?, scan.root.path = c.root)
    (h : applyReconciliation.publishReconciliation db current checkpoint = .ok db') :
    db'.Sound sha256 ∧ KeepsPast db db' := by
  cases checkpoint with
  | none =>
    rw [applyReconciliation.publishReconciliation, pure_eq_ok] at h
    subst h
    exact ⟨hs, .refl db⟩
  | some c =>
    obtain ⟨hid, scan, hscan, hroot⟩ := hcheckpoint c rfl
    simp only [applyReconciliation.publishReconciliation, refreshReconciliationAggregates,
      bind_eq_ok, raiseIf_eq_ok, not_not, pure_eq_ok] at h
    obtain ⟨_, ⟨_, ⟨scan', hscan', hcompleted, hstatus, counters, hcounters, herrors⟩, rfl⟩,
      hwrite⟩ := h
    obtain rfl : scan = scan' := Option.some.inj (hscan.symm.trans hscan')
    obtain ⟨hs', hkept⟩ := hs.recount hend
    have hrest : db.recount current = { db with scans := (db.recount current).scans } :=
      updateScan_eq db current _
    have hend' : (db.recount current).successors[c.scanId]? = none := by
      rw [hrest, hid]
      exact hend
    obtain ⟨hs'', hkept'⟩ := writeInventoryCheckpoint_eq_ok hs' hwrite fun found hfound => by
      obtain rfl : found = c.scanId := eq_of_resolveScanId hend' hfound
      have hrow : (db.recount current).scans[c.scanId]? = some { scan with
          counters := scan.counters.map fun c => c.recounted (db.files current) } := by
        rw [Database.recount, updateScan_getElem?, if_pos hid.symm, hid, Option.mem_def.mp hscan]
        rfl
      refine ⟨_, hrow, ⟨hstatus, hcompleted, counters.recounted (db.files current), ?_, herrors,
        ?_, ?_⟩, hroot⟩
      · change scan.counters.map _ = _
        rw [Option.mem_def.mp hcounters]
        rfl
      · rw [hrest, hid]
        rfl
      · rw [hrest, hid]
        rfl
    exact ⟨hs'', hkept.trans hkept'⟩

/-- The end of a reconciliation writes neither edges nor plans. -/
theorem publishReconciliation_rest {current : ℕ} {checkpoint : Option InventoryCheckpoint}
    (h : applyReconciliation.publishReconciliation db current checkpoint = .ok db') :
    db'.successors = db.successors ∧ db'.plans = db.plans := by
  cases checkpoint with
  | none =>
    rw [applyReconciliation.publishReconciliation, pure_eq_ok] at h
    rw [h]
    exact ⟨rfl, rfl⟩
  | some c =>
    simp only [applyReconciliation.publishReconciliation, refreshReconciliationAggregates,
      writeInventoryCheckpoint, bind_eq_ok, pure_eq_ok] at h
    obtain ⟨_, ⟨_, -, rfl⟩, _, -, _, -, _, -, rfl⟩ := h
    change (db.updateScan current _).successors = _ ∧ (db.updateScan current _).plans = _
    rw [updateScan_eq]
    exact ⟨rfl, rfl⟩

/-! ## Reconciliation -/

/-- The checkpoint that a reconciliation binds is one of the scan that it resolves. -/
theorem boundCheckpoint_spec {scanId source : ℕ} {c bound : Option InventoryCheckpoint}
    (hsource : resolveScanId db scanId = .ok source) (hids : ∀ x ∈ c, x.scanId = scanId)
    (h : c.mapM (policyBoundCheckpoint db) = .ok bound) :
    ∀ b ∈ bound, b.scanId = source ∧ ∃ scan ∈ db.scans[source]?, scan.root.path = b.root := by
  cases c with
  | none =>
    obtain rfl : none = bound := pure_eq_ok.mp h
    intro b hb
    cases hb
  | some c =>
    obtain ⟨b, hb, rfl⟩ := map_eq_ok.mp h
    intro x hx
    obtain rfl : b = x := Option.some.inj hx
    obtain ⟨scan, hresolve, -, hscan, -, hroot⟩ := policyBoundCheckpoint_eq_ok hb
    rw [hids c rfl, hsource] at hresolve
    obtain rfl : source = b.scanId := by injection hresolve
    exact ⟨rfl, scan, hscan, hroot⟩

/-- A reconciliation that changes something: the successor, its rows and the publication. -/
theorem applyReconciliation_changes {scanId : ℕ} {r : Reconciliation} (hs : db.Sound sha256)
    (hchanges : r.Changes) (h : applyReconciliation sha256 db scanId r = .ok db') :
    ∃ source current db₁, resolveScanId db scanId = .ok source ∧
      Succeeds sha256 source current db db₁ ∧ db'.Sound sha256 ∧
      KeepsPast (db₁.reconcileRows sha256 current r) db' ∧
      KeepsPast db (db₁.reconcileRows sha256 current r) ∧ db'.successors = db₁.successors ∧
      db'.plans = db₁.plans := by
  simp only [applyReconciliation, bind_eq_ok, raiseIf_eq_ok, if_pos hchanges] at h
  obtain ⟨_, hids, source, hsource, bound, hbound, ⟨current, db₁⟩, hcreate, hpublish⟩ := h
  obtain ⟨found, hfound, hsucceeds⟩ := createInventorySuccessor_eq_ok hs hcreate
  obtain ⟨hend, -⟩ := resolveScanId_eq_ok hsource
  obtain rfl : found = source := eq_of_resolveScanId hend hfound
  obtain ⟨hs₂, hkept₂⟩ := hsucceeds.reconcileRows hs r
  have hsame : SameBut current db₁ (db₁.reconcileRows sha256 current r) :=
    sameBut_reconcileRows db₁ current r
  have hlast : (db₁.reconcileRows sha256 current r).successors[current]? = none := by
    rw [hsame.successors]
    exact hsucceeds.last
  have hids' : ∀ c ∈ r.checkpoint, c.scanId = scanId := fun c hc =>
    by_contra fun hne => hids ⟨c, hc, hne⟩
  have hspec := boundCheckpoint_spec hsource hids' hbound
  obtain ⟨hs', hkept'⟩ := publishReconciliation_eq_ok hs₂ hlast (fun c hc => by
    obtain ⟨b, hb, rfl⟩ := Option.map_eq_some_iff.mp hc
    obtain ⟨-, scan, hscan, hroot⟩ := hspec b hb
    obtain ⟨scan', hscan', hnew⟩ := hsucceeds.scans
    obtain rfl : scan = scan' := Option.some.inj (hscan.symm.trans hscan')
    refine ⟨rfl, { scan with completed := true, status := .complete }, ?_, hroot⟩
    rw [hsame.scans]
    exact hnew) hpublish
  obtain ⟨hsuccessors, hplans⟩ := publishReconciliation_rest hpublish
  exact ⟨found, current, db₁, hsource, hsucceeds, hs', hkept', hkept₂,
    hsuccessors.trans hsame.successors, hplans.trans hsame.plans⟩

theorem applyReconciliation_eq_ok {scanId : ℕ} {r : Reconciliation} (hs : db.Sound sha256)
    (h : applyReconciliation sha256 db scanId r = .ok db') :
    db'.Sound sha256 ∧ KeepsPast db db' := by
  by_cases hchanges : r.Changes
  · obtain ⟨_, _, _, _, _, hs', hkept', hkept, -⟩ := applyReconciliation_changes hs hchanges h
    exact ⟨hs', hkept.trans hkept'⟩
  · simp only [applyReconciliation, bind_eq_ok, raiseIf_eq_ok, if_neg hchanges] at h
    obtain ⟨_, hids, source, hsource, bound, hbound, hpublish⟩ := h
    have hids' : ∀ c ∈ r.checkpoint, c.scanId = scanId := fun c hc =>
      by_contra fun hne => hids ⟨c, hc, hne⟩
    exact publishReconciliation_eq_ok hs (resolveScanId_eq_ok hsource).1
      (boundCheckpoint_spec hsource hids' hbound) hpublish

/-! ## Other transactions -/

/-- `mark_abandoned_scans` touches no complete scan, so it invalidates no published inventory. -/
theorem markAbandonedScans_spec (hs : db.Sound sha256) :
    (markAbandonedScans db).Sound sha256 ∧ KeepsPast db (markAbandonedScans db) := by
  have hscan : ∀ {scanId : ℕ} {scan : Scan}, scan ∈ db.scans[scanId]? → scan.status = .complete →
      (markAbandonedScans db).scans[scanId]? = some scan := by
    intro scanId scan hscan hstatus
    change (db.scans.map _)[scanId]? = _
    rw [Std.ExtTreeMap.getElem?_map, Option.mem_def.mp hscan, Option.map_some, hstatus,
      if_neg (by simp)]
  have hcomplete : ∀ {scanId : ℕ}, db.Complete scanId →
      (markAbandonedScans db).Complete scanId := by
    rintro scanId ⟨scan, hmem, hstatus⟩
    exact ⟨scan, hscan hmem hstatus, hstatus⟩
  refine ⟨⟨?_, ?_, ?_, hs.plans⟩, ⟨fun _ hc => ⟨hcomplete hc, rfl, rfl⟩, ?_, fun _ _ hd => hd⟩⟩
  · intro a b hab
    obtain ⟨hlt, ha, hb⟩ := hs.edges a b hab
    exact ⟨hlt, hcomplete ha, hcomplete hb⟩
  · intro scanId digest hd
    obtain ⟨hc, hdigest⟩ := hs.heads scanId digest hd
    exact ⟨hcomplete hc, hdigest⟩
  · intro root p hp
    change (db.published.map _)[root]? = some p at hp
    rw [Std.ExtTreeMap.getElem?_map, Option.map_eq_some_iff] at hp
    obtain ⟨q, hq, rfl⟩ := hp
    obtain ⟨scan, hmem, hpub, hroot⟩ := hs.published root q hq
    have hopen : (db.scans[q.scanId]?.any fun scan => decide (scan.status = .building)) = false := by
      rw [Option.mem_def.mp hmem, Option.any_some, hpub.1]
      rfl
    rw [if_neg fun htrue => Bool.false_ne_true (hopen.symm.trans htrue)]
    exact ⟨scan, hscan hmem hpub.1, hpub, hroot⟩
  · intro a b hab
    obtain ⟨-, ⟨scan, hmem, hstatus⟩, -⟩ := hs.edges a b hab
    exact ⟨hab, (hscan hmem hstatus).trans (Option.mem_def.mp hmem).symm⟩

/-- A transaction on the plan tables that publishes no plan of a superseded scan. -/
theorem Database.Sound.withPlans (hs : db.Sound sha256) {plans : PlanTables}
    (h : ∀ (a b : ℕ) head, db.successors[a]? = some b → plans.heads[a]? = some head →
      head.status = .superseded) :
    Database.Sound sha256 { db with plans } ∧ KeepsPast db { db with plans } :=
  ⟨⟨hs.edges, hs.heads, hs.published, h⟩,
    ⟨fun _ hc => ⟨hc, rfl, rfl⟩, fun _ _ he => ⟨he, rfl⟩, fun _ _ hd => hd⟩⟩

theorem beginDuplicatePlan_eq_ok (hs : db.Sound sha256) {scanId : ℕ}
    (h : beginDuplicatePlan db scanId = .ok db') : db'.Sound sha256 ∧ KeepsPast db db' := by
  simp only [beginDuplicatePlan, bind_eq_ok, pure_eq_ok] at h
  obtain ⟨current, -, _, -, rfl⟩ := h
  refine hs.withPlans fun a b head hab hhead => ?_
  cases hget : db.plans.heads[current]? with
  | none =>
    rw [hget] at hhead
    exact hs.plans a b head hab hhead
  | some found =>
    rw [hget] at hhead
    simp only [Table.getElem?_insert_eq] at hhead
    split_ifs at hhead with ha
    · rw [← Option.some.inj hhead]
    · exact hs.plans a b head hab hhead

theorem heads_insertGroup (plans : PlanTables) (scanId : ℕ) (g : DuplicateGroup) :
    (plans.insertGroup scanId g).heads = plans.heads := rfl

theorem heads_storeGroups {files : Files} {scanId : ℕ} :
    ∀ {groups : List DuplicateGroup} {plans plans' : PlanTables},
      groups.foldlM (storeGroup files scanId) plans = .ok plans' → plans'.heads = plans.heads
  | [], plans, plans', h => by
    rw [List.foldlM_nil, pure_eq_ok] at h
    rw [h]
  | g :: groups, plans, plans', h => by
    simp only [List.foldlM_cons, bind_eq_ok, storeGroup, pure_eq_ok] at h
    obtain ⟨_, ⟨_, -, rfl⟩, h⟩ := h
    rw [heads_storeGroups h, heads_insertGroup]

theorem storeDuplicateGroups_eq_ok (hs : db.Sound sha256) {scanId : ℕ}
    {groups : List DuplicateGroup} (h : storeDuplicateGroups db scanId groups = .ok db') :
    db'.Sound sha256 ∧ KeepsPast db db' := by
  simp only [storeDuplicateGroups, bind_eq_ok, pure_eq_ok] at h
  obtain ⟨current, -, plans, hplans, rfl⟩ := h
  refine hs.withPlans fun a b head hab hhead => ?_
  rw [heads_storeGroups hplans] at hhead
  exact hs.plans a b head hab hhead

/-- A plan is published for a scan without a successor. -/
theorem completeDuplicatePlan_eq_ok (hs : db.Sound sha256) {scanId : ℕ} {c : PlanSummary}
    (h : completeDuplicatePlan db scanId c = .ok db') : db'.Sound sha256 ∧ KeepsPast db db' := by
  simp only [completeDuplicatePlan, bind_eq_ok, pure_eq_ok] at h
  obtain ⟨current, hcurrent, _, -, _, -, _, -, _, -, _, -, digest, -, rfl⟩ := h
  refine hs.withPlans fun a b head hab hhead => ?_
  rw [Table.getElem?_insert_eq] at hhead
  split_ifs at hhead with ha
  · subst ha
    rw [(resolveScanId_eq_ok hcurrent).1] at hab
    cases hab
  · exact hs.plans a b head hab hhead

/-! ## The scanner -/

/-- What the scanner may do to a scan: one that is new or not complete yet, which it may fill and
may complete with the digest of its rows. -/
structure ScannerStep (sha256 : Bytes → Bytes) (scanId : ℕ) (db db' : Database) : Prop where
  unfinished : ¬ db.Complete scanId
  scans : ∀ other : ℕ, other ≠ scanId → db'.scans[other]? = db.scans[other]?
  files : ∀ other : ℕ, other ≠ scanId → db'.files other = db.files other
  changeVersions : ∀ other : ℕ, other ≠ scanId → db'.changeVersions other = db.changeVersions other
  heads : ∀ other : ℕ, other ≠ scanId → db'.heads[other]? = db.heads[other]?
  successors : db'.successors = db.successors
  published : db'.published = db.published
  plans : db'.plans = db.plans
  digest : ∀ digest, db'.heads[scanId]? = some digest →
    db'.Complete scanId ∧ digest = inventoryContentDigest sha256 (db'.files scanId)

theorem ScannerStep.sound {scanId : ℕ} (hs : db.Sound sha256)
    (h : ScannerStep sha256 scanId db db') :
    db'.Sound sha256 ∧ KeepsPast db db' := by
  have hne : ∀ {other : ℕ}, db.Complete other → other ≠ scanId := by
    rintro other hc rfl
    exact h.unfinished hc
  have hcomplete : ∀ {other : ℕ}, db.Complete other → db'.Complete other := fun hc =>
    hc.of_eq (h.scans _ (hne hc))
  refine ⟨⟨?_, ?_, ?_, ?_⟩, ⟨?_, ?_, ?_⟩⟩
  · intro a b hab
    rw [h.successors] at hab
    obtain ⟨hlt, ha, hb⟩ := hs.edges a b hab
    exact ⟨hlt, hcomplete ha, hcomplete hb⟩
  · intro other digest hd
    by_cases heq : other = scanId
    · subst heq
      exact h.digest digest hd
    · rw [h.heads other heq] at hd
      obtain ⟨hc, hdigest⟩ := hs.heads other digest hd
      rw [h.files other heq]
      exact ⟨hcomplete hc, hdigest⟩
  · intro root p hp
    rw [h.published] at hp
    obtain ⟨scan, hscan, hpub, hroot⟩ := hs.published root p hp
    have hother := hne ⟨scan, hscan, hpub.1⟩
    rw [h.scans _ hother, h.files _ hother]
    exact ⟨scan, hscan, hpub, hroot⟩
  · intro a b head hab hplan
    rw [h.successors] at hab
    rw [h.plans] at hplan
    exact hs.plans a b head hab hplan
  · intro other hc
    exact ⟨hcomplete hc, h.files _ (hne hc), h.changeVersions _ (hne hc)⟩
  · intro a b hab
    rw [h.successors]
    exact ⟨hab, h.scans _ (hne (hs.edges a b hab).2.1)⟩
  · intro other digest hd
    rw [h.heads _ (hne (hs.heads _ _ hd).1)]
    exact hd

/-- `_begin_scan` is a step of the scanner. -/
theorem scannerStep_beginScan (hs : db.Sound sha256) {w : World} (hw : w.db = db)
    (root : RootIdentity) (signature : Text) :
    ScannerStep sha256 db.nextOperationalIdentity db (w.beginScan root signature).db := by
  subst hw
  have hfresh : w.db.nextOperationalIdentity ∉ w.db.scans := fun h =>
    lt_irrefl _ (lt_nextOperationalIdentity h)
  refine ⟨fun hc => hfresh hc.mem, fun other hne => ?_, fun _ _ => rfl, fun _ _ => rfl,
    fun _ _ => rfl, rfl, rfl, rfl, fun digest hd => absurd (hs.heads _ _ hd).1.mem hfresh⟩
  change (w.db.scans.insert _ _)[other]? = _
  rw [Table.getElem?_insert_eq, if_neg hne.symm]

/-- `_complete_scan` is a step of the scanner on a scan that is not complete. -/
theorem scannerStep_completeScan (hs : db.Sound sha256) {w : World} (hw : w.db = db) {scanId : ℕ}
    (counters : ScanCounters) (hmem : scanId ∈ db.scans) (hopen : ¬ db.Complete scanId) :
    ScannerStep sha256 scanId db (w.completeScan sha256 scanId counters).db := by
  subst hw
  set done : Scan → Scan := fun scan =>
    { scan with
      completed := true
      counters := some counters
      status := if counters.errors = 0 then .complete else .partialScan } with hdone
  have hrest : w.db.updateScan scanId done =
      { w.db with scans := (w.db.updateScan scanId done).scans } := updateScan_eq w.db scanId done
  have hscans : ∀ other : ℕ, other ≠ scanId →
      (w.db.updateScan scanId done).scans[other]? = w.db.scans[other]? := fun other hne => by
    rw [updateScan_getElem?, if_neg hne.symm]
  have hhead : w.db.heads[scanId]? = none := by
    cases hget : w.db.heads[scanId]? with
    | none => rfl
    | some digest => exact absurd (hs.heads _ _ hget).1 hopen
  by_cases herrors : counters.errors = 0
  · have hdb : (w.completeScan sha256 scanId counters).db =
        { w.db.updateScan scanId done with
          heads := (w.db.updateScan scanId done).heads.insert scanId
            (inventoryContentDigest sha256 ((w.db.updateScan scanId done).files scanId)) } :=
      if_pos herrors
    rw [hdb, hrest]
    refine ⟨hopen, hscans, fun _ _ => rfl, fun _ _ => rfl, fun other hne => ?_, rfl, rfl, rfl,
      fun digest hd => ⟨?_, ?_⟩⟩
    · change (w.db.heads.insert _ _)[other]? = _
      rw [Table.getElem?_insert_eq, if_neg hne.symm]
    · obtain ⟨scan, hscan⟩ := Option.isSome_iff_exists.mp
        (Std.ExtTreeMap.mem_iff_isSome_getElem?.mp hmem)
      refine ⟨done scan, ?_, by rw [hdone]; exact if_pos herrors⟩
      change (w.db.updateScan scanId done).scans[scanId]? = _
      rw [updateScan_getElem?, if_pos rfl, hscan]
      rfl
    · change (w.db.heads.insert _ _)[scanId]? = _ at hd
      rw [Table.getElem?_insert_eq, if_pos rfl] at hd
      exact (Option.some.inj hd).symm
  · have hdb : (w.completeScan sha256 scanId counters).db = w.db.updateScan scanId done :=
      if_neg herrors
    rw [hdb, hrest]
    exact ⟨hopen, hscans, fun _ _ => rfl, fun _ _ => rfl, fun _ _ => rfl, rfl, rfl, rfl,
      fun digest hd => absurd (hhead.symm.trans hd) (by simp)⟩

/-- Writing rows is a step of the scanner on a scan that is not complete. -/
theorem ScannerStep.of_sameBut (hs : db.Sound sha256) {scanId : ℕ} (hopen : ¬ db.Complete scanId)
    (h : SameBut scanId db db') (hheads : db'.heads = db.heads) :
    ScannerStep sha256 scanId db db' where
  unfinished := hopen
  scans _ _ := by rw [h.scans]
  files := h.files
  changeVersions := h.changeVersions
  heads := h.heads
  successors := h.successors
  published := h.published
  plans := h.plans
  digest digest hd := by
    rw [hheads] at hd
    exact absurd (hs.heads _ _ hd).1 hopen

theorem scannerStep_deletePaths (hs : db.Sound sha256) {w : World} (hw : w.db = db) {scanId : ℕ}
    (paths : List Path) (hopen : ¬ db.Complete scanId) :
    ScannerStep sha256 scanId db (w.deletePaths scanId paths).db := by
  subst hw
  exact .of_sameBut hs hopen (sameBut_deleteFiles scanId w.db _) rfl

theorem scannerStep_upsert (hs : db.Sound sha256) {w : World} (hw : w.db = db) {scanId : ℕ}
    (observations : List FileObservation) (hopen : ¬ db.Complete scanId) :
    ScannerStep sha256 scanId db (w.upsert scanId observations).db := by
  subst hw
  exact .of_sameBut hs hopen
    ((sameBut_setFiles scanId w.db _).trans (sameBut_setChangeVersions scanId _ _)) rfl

/-! ## Runs -/

/-- A committed transaction of any caller, or a step of the scanner.  A reconciliation that raises
leaves the database, or the head that `_ensure_inventory_content_digest` has committed. -/
inductive LineageStep (sha256 : Bytes → Bytes) (db : Database) : Database → Prop
  | scanner {scanId db'} : ScannerStep sha256 scanId db db' → LineageStep sha256 db db'
  | digest {scanId digest db'} : ensureInventoryContentDigest sha256 db scanId = .ok (digest, db') →
      LineageStep sha256 db db'
  | reconcile {scanId r db'} : applyReconciliation sha256 db scanId r = .ok db' →
      LineageStep sha256 db db'
  | bind {c db'} : bindInventoryCheckpoint db c = .ok db' → LineageStep sha256 db db'
  | refresh {scanId db'} : refreshScanAggregates db scanId = .ok db' → LineageStep sha256 db db'
  | abandon : LineageStep sha256 db (markAbandonedScans db)
  | beginPlan {scanId db'} : beginDuplicatePlan db scanId = .ok db' → LineageStep sha256 db db'
  | storeGroups {scanId groups db'} : storeDuplicateGroups db scanId groups = .ok db' →
      LineageStep sha256 db db'
  | completePlan {scanId c db'} : completeDuplicatePlan db scanId c = .ok db' →
      LineageStep sha256 db db'

theorem LineageStep.sound (hs : db.Sound sha256) (h : LineageStep sha256 db db') :
    db'.Sound sha256 ∧ KeepsPast db db' := by
  cases h with
  | scanner h => exact h.sound hs
  | digest h =>
    obtain ⟨_, -, -, -, -, -, -, hs', hkept⟩ := ensureInventoryContentDigest_eq_ok hs h
    exact ⟨hs', hkept⟩
  | reconcile h => exact applyReconciliation_eq_ok hs h
  | bind h => exact bindInventoryCheckpoint_eq_ok hs h
  | refresh h => exact refreshScanAggregates_eq_ok hs h
  | abandon => exact markAbandonedScans_spec hs
  | beginPlan h => exact beginDuplicatePlan_eq_ok hs h
  | storeGroups h => exact storeDuplicateGroups_eq_ok hs h
  | completePlan h => exact completeDuplicatePlan_eq_ok hs h

/-- In every run the invariant holds and the past is kept, and every handle resolves, to a scan
without a successor. -/
theorem lineage_run (hs : db.Sound sha256)
    (hrun : Relation.ReflTransGen (LineageStep sha256) db db') :
    db'.Sound sha256 ∧ KeepsPast db db' ∧ ∀ scanId, 1 ≤ scanId →
      ∃ current, resolveScanId db' scanId = .ok current ∧ db'.successors[current]? = none := by
  have hall : db'.Sound sha256 ∧ KeepsPast db db' := by
    induction hrun with
    | refl => exact ⟨hs, .refl db⟩
    | tail _ hstep ih =>
      obtain ⟨hmid, hkept⟩ := ih
      obtain ⟨hs', hkept'⟩ := hstep.sound hmid
      exact ⟨hs', hkept.trans hkept'⟩
  refine ⟨hall.1, hall.2, fun scanId hpos => ?_⟩
  obtain ⟨current, hcurrent⟩ := exists_resolveScanId (fun a b h => (hall.1.edges a b h).1) hpos
  exact ⟨current, hcurrent, (resolveScanId_eq_ok hcurrent).1⟩

/-! ## Plans in a run -/

theorem isComplete_iff {scanId : ℕ} : db.isComplete scanId = true ↔ db.Complete scanId := by
  unfold Database.isComplete Database.Complete
  rw [Option.any_eq_true]
  simp only [decide_eq_true_eq, Option.mem_def]

theorem KeepsPast.keepsPlanned (h : KeepsPast db db') : KeepsPlanned db db' := by
  intro s hcomplete _
  obtain ⟨hcomplete', hfiles, -⟩ := h.complete s (isComplete_iff.mp hcomplete)
  exact ⟨isComplete_iff.mpr hcomplete', hfiles⟩

/-- A reconciliation supersedes the plan of the scan that it gives a successor. -/
theorem planStep_applyReconciliation {scanId : ℕ} {r : Reconciliation} (hs : db.Sound sha256)
    (h : applyReconciliation sha256 db scanId r = .ok db') : ∃ events, PlanStep db events db' := by
  have hkept : KeepsPlanned db db' := (applyReconciliation_eq_ok hs h).2.keepsPlanned
  by_cases hchanges : r.Changes
  · obtain ⟨source, _, _, -, hnew, -, -, -, -, hplans⟩ := applyReconciliation_changes hs hchanges h
    exact ⟨[(source, .superseded)], .superseded (hplans.trans hnew.plans) hkept⟩
  · simp only [applyReconciliation, bind_eq_ok, if_neg hchanges] at h
    obtain ⟨_, -, _, -, _, -, hpublish⟩ := h
    exact ⟨[], .other (publishReconciliation_rest hpublish).2 hkept⟩

/-- Every transaction of a run is a step of the plans, whose trace says what it did to them. -/
theorem LineageStep.planStep (hs : db.Sound sha256) (h : LineageStep sha256 db db') :
    ∃ events, PlanStep db events db' := by
  have hkept : KeepsPlanned db db' := (h.sound hs).2.keepsPlanned
  cases h with
  | scanner h => exact ⟨[], .other h.plans hkept⟩
  | digest h =>
    obtain ⟨_, -, -, -, hsame, -⟩ := ensureInventoryContentDigest_eq_ok hs h
    exact ⟨[], .other hsame.plans hkept⟩
  | reconcile h => exact planStep_applyReconciliation hs h
  | bind h =>
    simp only [bindInventoryCheckpoint, writeInventoryCheckpoint, bind_eq_ok, pure_eq_ok] at h
    obtain ⟨_, -, _, -, _, -, _, -, _, -, rfl⟩ := h
    exact ⟨[], .other rfl hkept⟩
  | refresh h =>
    simp only [refreshScanAggregates, bind_eq_ok, pure_eq_ok] at h
    obtain ⟨current, -, _, -, rfl⟩ := h
    refine ⟨[], .other ?_ hkept⟩
    rw [Database.recount, updateScan_eq]
  | abandon => exact ⟨[], .other rfl hkept⟩
  | beginPlan h =>
    have hbegin := h
    simp only [beginDuplicatePlan, bind_eq_ok] at hbegin
    obtain ⟨s, hresolve, -⟩ := hbegin
    exact ⟨_, .begun hresolve h⟩
  | storeGroups h =>
    have hstore := h
    simp only [storeDuplicateGroups, bind_eq_ok] at hstore
    obtain ⟨s, hresolve, -⟩ := hstore
    exact ⟨_, .stored hresolve h⟩
  | completePlan h =>
    have hcomplete := h
    simp only [completeDuplicatePlan, bind_eq_ok, inventoryContentDigestForPlan] at hcomplete
    obtain ⟨s, hresolve, _, -, _, -, _, -, _, -, _, -, digest, ⟨_, -, hread⟩, -⟩ := hcomplete
    cases hdigest : db.heads[s]? with
    | none =>
      rw [hdigest] at hread
      cases hread
    | some digest => exact ⟨_, .completed hresolve hdigest h⟩

/-- The transactions of a run, as a run of the plans. -/
theorem exists_planRun (hs : db.Sound sha256)
    (hrun : Relation.ReflTransGen (LineageStep sha256) db db') : ∃ trace, PlanRun db trace db' := by
  have hall : db'.Sound sha256 ∧ ∃ trace, PlanRun db trace db' := by
    induction hrun with
    | refl => exact ⟨hs, [], .start⟩
    | tail _ hstep ih =>
      obtain ⟨hmid, trace, hplans⟩ := ih
      obtain ⟨events, hevents⟩ := hstep.planStep hmid
      exact ⟨(hstep.sound hmid).1, _, hplans.step hevents⟩
  exact hall.2

/-! ## The rows of a reconciliation -/

/-- Rows of one file agree in everything but their path. -/
def Files.AliasesAgree (files : Files) : Prop :=
  ∀ (p q : Path) a b, files[p]? = some a → files[q]? = some b →
    (a.volumeId, a.fileId) = (b.volumeId, b.fileId) → a = b

/-- The observation is still the one of the source: its row is unchanged. -/
def Fresh (source : Files) (observed : Table Path ℤ) (files : Files) (versions : Table Path ℤ) :
    Prop :=
  ∀ (p : Path) v, versions[p]? = some v → observed[p]? = some v ∧ files[p]? = source[p]?

variable {source : Files} {observed : Table Path ℤ} {scanId : ℕ}

theorem files_deleteFiles (db : Database) (scanId : ℕ) (gone : Path → FileRow → Bool) :
    (db.deleteFiles scanId gone).files scanId =
      (db.files scanId).filter fun path row => !gone path row := Function.update_self _ _ _

theorem changeVersions_deleteFiles (db : Database) (scanId : ℕ) (gone : Path → FileRow → Bool) :
    (db.deleteFiles scanId gone).changeVersions scanId = (db.changeVersions scanId).filter
      fun path _ => ((db.files scanId).filter fun path row => !gone path row).contains path :=
  Function.update_self _ _ _

theorem files_upsert (scanId : ℕ) (db : Database) (s : FileSnapshot) :
    (upsertReconciledSnapshot scanId db s).files scanId =
      ((db.files scanId).map fun _ row => s.refresh row).insert s.path s.row :=
  Function.update_self _ _ _

theorem changeVersions_upsert (scanId : ℕ) (db : Database) (s : FileSnapshot) :
    (upsertReconciledSnapshot scanId db s).changeVersions scanId =
      (db.changeVersions scanId).filter fun path _ => !(decide (path = s.path) ||
        (db.files scanId)[path]?.any fun row => decide (s.Shows row)) :=
  Function.update_self _ _ _

theorem getElem?_filter_eq {α : Type} {t : Table Path α} {f : Path → α → Bool} {p : Path} {a : α} :
    (t.filter f)[p]? = some a ↔ t[p]? = some a ∧ f p a = true := by
  rw [Std.ExtTreeMap.getElem?_filter', Option.filter_eq_some_iff]

theorem Files.AliasesAgree.deleteFiles (h : (db.files scanId).AliasesAgree)
    (gone : Path → FileRow → Bool) : ((db.deleteFiles scanId gone).files scanId).AliasesAgree := by
  intro p q a b ha hb hab
  rw [files_deleteFiles, getElem?_filter_eq] at ha hb
  exact h p q a b ha.1 hb.1 hab

/-- A deletion leaves the other rows with their observations. -/
theorem Fresh.deleteFiles (h : Fresh source observed (db.files scanId) (db.changeVersions scanId))
    (gone : Path → FileRow → Bool) :
    Fresh source observed ((db.deleteFiles scanId gone).files scanId)
      ((db.deleteFiles scanId gone).changeVersions scanId) := by
  intro p v hv
  rw [changeVersions_deleteFiles, getElem?_filter_eq] at hv
  obtain ⟨hobserved, hfile⟩ := h p v hv.1
  refine ⟨hobserved, ?_⟩
  have hkept : p ∈ (db.files scanId).filter fun path row => !gone path row := by
    simpa using hv.2
  obtain ⟨row, hrow⟩ := Option.isSome_iff_exists.mp
    (Std.ExtTreeMap.mem_iff_isSome_getElem?.mp hkept)
  rw [files_deleteFiles, hrow, ← hfile, (getElem?_filter_eq.mp hrow).1]

/-- A row of the file that a snapshot shows is the row of the snapshot. -/
theorem FileSnapshot.refresh_of_shows {s : FileSnapshot} {row : FileRow} (h : s.Shows row) :
    s.refresh row = s.row := by
  obtain ⟨hvolume, hfile⟩ := Prod.mk.inj h
  rw [FileSnapshot.refresh, if_pos h, FileSnapshot.row, ← hvolume, ← hfile]

theorem FileSnapshot.refresh_of_not_shows {s : FileSnapshot} {row : FileRow} (h : ¬ s.Shows row) :
    s.refresh row = row := if_neg h

/-- A row after an upsert is the one of the snapshot, or an old row of another file. -/
theorem getElem?_upsert {db : Database} {s : FileSnapshot} {p : Path} {row : FileRow}
    (h : ((upsertReconciledSnapshot scanId db s).files scanId)[p]? = some row) :
    row = s.row ∨ (¬ s.Shows row ∧ p ≠ s.path ∧ (db.files scanId)[p]? = some row) := by
  rw [files_upsert, Table.getElem?_insert_eq] at h
  split_ifs at h with hp
  · exact Or.inl (Option.some.inj h).symm
  · rw [Std.ExtTreeMap.getElem?_map, Option.map_eq_some_iff] at h
    obtain ⟨old, hold, rfl⟩ := h
    by_cases hshows : s.Shows old
    · exact Or.inl (FileSnapshot.refresh_of_shows hshows)
    · rw [FileSnapshot.refresh_of_not_shows hshows]
      exact Or.inr ⟨hshows, Ne.symm hp, hold⟩

/-- An upsert gives all rows of its file the same observation. -/
theorem Files.AliasesAgree.upsert (h : (db.files scanId).AliasesAgree) (s : FileSnapshot) :
    ((upsertReconciledSnapshot scanId db s).files scanId).AliasesAgree := by
  intro p q a b ha hb hab
  rcases getElem?_upsert ha with rfl | ⟨hnot, -, hold⟩
  · rcases getElem?_upsert hb with rfl | ⟨hnot', -, -⟩
    · rfl
    · exact absurd hab.symm hnot'
  · rcases getElem?_upsert hb with rfl | ⟨-, -, hold'⟩
    · exact absurd hab hnot
    · exact h p q a b hold hold' hab

/-- An upsert drops the change versions of all rows of its file. -/
theorem Fresh.upsert (h : Fresh source observed (db.files scanId) (db.changeVersions scanId))
    (s : FileSnapshot) :
    Fresh source observed ((upsertReconciledSnapshot scanId db s).files scanId)
      ((upsertReconciledSnapshot scanId db s).changeVersions scanId) := by
  intro p v hv
  rw [changeVersions_upsert, getElem?_filter_eq] at hv
  obtain ⟨hobserved, hfile⟩ := h p v hv.1
  have hkept := hv.2
  simp only [Bool.not_eq_true', Bool.or_eq_false_iff, decide_eq_false_iff_not] at hkept
  obtain ⟨hpath, hshows⟩ := hkept
  refine ⟨hobserved, ?_⟩
  rw [← hfile, files_upsert, Table.getElem?_insert_eq, if_neg (Ne.symm hpath),
    Std.ExtTreeMap.getElem?_map]
  cases hrow : (db.files scanId)[p]? with
  | none => rfl
  | some row =>
    rw [hrow, Option.any_some, decide_eq_false_iff_not] at hshows
    rw [Option.map_some, FileSnapshot.refresh_of_not_shows hshows]

/-- What deletions and upserts keep, a reconciliation of the rows keeps. -/
theorem reconcileRows_induction {P : Files → Table Path ℤ → Prop} {current : ℕ}
    (hdelete : ∀ (db : Database) gone, P (db.files current) (db.changeVersions current) →
      P ((db.deleteFiles current gone).files current)
        ((db.deleteFiles current gone).changeVersions current))
    (hupsert : ∀ db s, P (db.files current) (db.changeVersions current) →
      P ((upsertReconciledSnapshot current db s).files current)
        ((upsertReconciledSnapshot current db s).changeVersions current))
    (r : Reconciliation) (h : P (db.files current) (db.changeVersions current)) :
    P ((db.reconcileRows sha256 current r).files current)
      ((db.reconcileRows sha256 current r).changeVersions current) := by
  have hupserts : ∀ (upserts : List FileSnapshot) (db : Database),
      P (db.files current) (db.changeVersions current) →
      P ((upserts.foldl (upsertReconciledSnapshot current) db).files current)
        ((upserts.foldl (upsertReconciledSnapshot current) db).changeVersions current) := by
    intro upserts
    induction upserts with
    | nil => exact fun _ h => h
    | cons s upserts ih => exact fun db h => ih _ (hupsert db s h)
  exact hupserts r.upserts _ (hdelete _ _ (hdelete _ _ h))

/-- A longer run of edges. -/
theorem Leads.mono {a b : ℕ} {edges edges' : Table ℕ ℕ}
    (hsub : ∀ x y : ℕ, edges[x]? = some y → edges'[x]? = some y) (h : Leads edges a b) :
    Leads edges' a b :=
  Relation.ReflTransGen.mono hsub _ _ h

/-- A reconciliation that changes something gives the handle a successor: rows of one file still
agree, and a change version that it holds was observed of a row that is unchanged. -/
theorem applyReconciliation_rows {r : Reconciliation} {handle : ℕ} (hs : db.Sound sha256)
    (hchanges : r.Changes) (h : applyReconciliation sha256 db handle r = .ok db') :
    ∃ source current, resolveScanId db handle = .ok source ∧
      resolveScanId db' handle = .ok current ∧ source < current ∧
      ((db.files source).AliasesAgree → (db'.files current).AliasesAgree) ∧
      Fresh (db.files source) (db.changeVersions source) (db'.files current)
        (db'.changeVersions current) := by
  obtain ⟨source, current, db₁, hsource, hnew, hs', hkept', hkept, hsuccessors, -⟩ :=
    applyReconciliation_changes hs hchanges h
  have hsame : SameBut current db₁ (db₁.reconcileRows sha256 current r) :=
    sameBut_reconcileRows db₁ current r
  -- the rows of the successor are not touched by the publication
  obtain ⟨scan, -, hscan⟩ := hnew.scans
  have hcomplete : (db₁.reconcileRows sha256 current r).Complete current :=
    hsame.complete ⟨_, hscan, rfl⟩
  obtain ⟨-, hfiles, hversions⟩ := hkept'.complete current hcomplete
  -- the handle leads to the source, and from there to the successor
  have hedge : db'.successors[source]? = some current := by
    rw [hsuccessors]
    exact hnew.edge
  have hend : db'.successors[current]? = none := by
    rw [hsuccessors]
    exact hnew.last
  obtain ⟨-, hleads⟩ := resolveScanId_eq_ok hsource
  have hleads' : Leads db'.successors handle current :=
    (hleads.mono fun x y hxy => (hkept'.history x y (hkept.history x y hxy).1).1).tail hedge
  obtain ⟨found, hfound⟩ := exists_resolveScanId (fun a b hab => (hs'.edges a b hab).1)
    (one_le_of_resolveScanId hsource)
  obtain ⟨hfoundEnd, hfoundLeads⟩ := resolveScanId_eq_ok hfound
  have heq : found = current := hleads'.eq_of_ends hend hfoundLeads hfoundEnd
  subst heq
  refine ⟨source, found, hsource, hfound, hnew.later, fun hagree => ?_, ?_⟩
  · have hstart : (db₁.files found).AliasesAgree := by
      rw [hnew.files]
      exact hagree
    have hrows : ((db₁.reconcileRows sha256 found r).files found).AliasesAgree :=
      reconcileRows_induction (P := fun files _ => files.AliasesAgree)
        (fun _ gone hp => Files.AliasesAgree.deleteFiles hp gone)
        (fun _ s hp => Files.AliasesAgree.upsert hp s) r hstart
    rw [hfiles]
    exact hrows
  · have hstart : Fresh (db.files source) (db.changeVersions source) (db₁.files found)
        (db₁.changeVersions found) := by
      rw [hnew.files, hnew.changeVersions]
      exact fun p v hv => ⟨hv, rfl⟩
    rw [hfiles, hversions]
    exact reconcileRows_induction (P := Fresh (db.files source) (db.changeVersions source))
      (fun _ gone hp => Fresh.deleteFiles hp gone) (fun _ s hp => Fresh.upsert hp s) r hstart

/-! ## A reconciliation -/

/-- The second file has grown, and the first one is gone. -/
def exampleReconciliation : Reconciliation where
  upserts := [{ exampleCopy with size := 6 }]
  removePaths := [exampleKeep.path]

def exampleReconciled : Database :=
  (applyReconciliation (fun _ => [7]) exampleDatabase 1 exampleReconciliation).toOption.getD {}

theorem exampleDatabase_sound : exampleDatabase.Sound fun _ => [7] where
  edges a b h := by simp [exampleDatabase] at h
  heads scanId digest h := by
    simp only [exampleDatabase, Table.getElem?_insert_eq, Std.ExtTreeMap.getElem?_empty] at h
    split_ifs at h with hid
    subst hid
    exact ⟨⟨_, rfl, rfl⟩, (Option.some.inj h).symm⟩
  published root p h := by simp [exampleDatabase] at h
  plans a b _ h := by simp [exampleDatabase] at h

theorem lineage_run_example : exampleReconciled.Sound (fun _ => [7]) ∧
    KeepsPast exampleDatabase exampleReconciled ∧ ∀ scanId, 1 ≤ scanId →
      ∃ current, resolveScanId exampleReconciled scanId = .ok current ∧
        exampleReconciled.successors[current]? = none :=
  lineage_run exampleDatabase_sound (.single (.reconcile
    (show applyReconciliation (fun _ => [7]) exampleDatabase 1 exampleReconciliation =
      .ok exampleReconciled from rfl)))

/-- The same files with their change versions. -/
def exampleVersioned : Database :=
  { exampleDatabase with
    changeVersions := Function.update (fun _ => ∅) 1
      (((∅ : Table Path ℤ).insert exampleKeep.path 3).insert exampleCopy.path 4) }

/-- The second file has grown. -/
def exampleGrowth : Reconciliation where
  upserts := [{ exampleCopy with size := 6 }]

def exampleGrown : Database :=
  (applyReconciliation (fun _ => [7]) exampleVersioned 1 exampleGrowth).toOption.getD {}

theorem exampleVersioned_sound : exampleVersioned.Sound fun _ => [7] :=
  ⟨exampleDatabase_sound.edges, exampleDatabase_sound.heads, exampleDatabase_sound.published,
    exampleDatabase_sound.plans⟩

/-- The version of the file that has grown is gone, and the other one is kept. -/
theorem applyReconciliation_rows_example :
    (exampleGrown.changeVersions 2)[exampleKeep.path]? = some 3 ∧
    (exampleGrown.changeVersions 2)[exampleCopy.path]? = none ∧
    ∃ source current, resolveScanId exampleVersioned 1 = .ok source ∧
      resolveScanId exampleGrown 1 = .ok current ∧ source < current ∧
      ((exampleVersioned.files source).AliasesAgree →
        (exampleGrown.files current).AliasesAgree) ∧
      Fresh (exampleVersioned.files source) (exampleVersioned.changeVersions source)
        (exampleGrown.files current) (exampleGrown.changeVersions current) :=
  ⟨by decide +kernel, by decide +kernel,
    applyReconciliation_rows exampleVersioned_sound (Or.inl (List.cons_ne_nil _ _))
    (show applyReconciliation (fun _ => [7]) exampleVersioned 1 exampleGrowth =
      .ok exampleGrown from rfl)⟩

end Inventory
end Neocortex
