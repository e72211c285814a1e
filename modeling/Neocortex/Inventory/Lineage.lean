import Mathlib.Logic.Relation
import Neocortex.Inventory.PlanRuns
import Neocortex.Inventory.Successors

/-!
# The lineage of a scan

The chain of successors that a handle resolves through, the invariant of the generations, and what
the creation of a successor does to it.

* `exists_resolveScanId`: every handle resolves, to a scan without a successor;
* `Database.Sound`, `KeepsPast`: the invariant, and what a step leaves of the past;
* `Succeeds`: the creation of a successor;
* `Succeeds.reconcileRows`: the successor with its reconciled rows.
-/

namespace Neocortex
namespace Inventory

open Python Checks

/-! ## Resolving a handle -/

section Resolve

variable {successors : Table ℕ ℕ}

/-- The chain of successors leads from one scan to another. -/
def Leads (successors : Table ℕ ℕ) : ℕ → ℕ → Prop :=
  Relation.ReflTransGen fun a b => successors[a]? = some b

/-- A chain that ends meets every chain from the same scan. -/
theorem Leads.ends {a b c : ℕ} (hb : Leads successors a b) (hend : successors[b]? = none)
    (hc : Leads successors a c) : Leads successors c b := by
  have hunique : Relator.RightUnique fun a b : ℕ => successors[a]? = some b :=
    fun x y z hy hz => Option.some.inj (hy.symm.trans hz)
  rcases Relation.ReflTransGen.total_of_right_unique hunique hb hc with h | h
  · rcases Relation.ReflTransGen.cases_head h with rfl | ⟨d, hd, -⟩
    · exact .refl
    · rw [hend] at hd
      cases hd
  · exact h

/-- Two chains from the same scan end in the same scan. -/
theorem Leads.eq_of_ends {a b c : ℕ} (hb : Leads successors a b) (hend : successors[b]? = none)
    (hc : Leads successors a c) (hend' : successors[c]? = none) : c = b := by
  rcases Relation.ReflTransGen.cases_head (hb.ends hend hc) with rfl | ⟨d, hd, -⟩
  · rfl
  · rw [hend'] at hd
    cases hd

/-- What the loop returns has no successor. -/
theorem resolveFrom_eq_ok : ∀ {fuel current : ℕ} {seen : List ℕ} {found : ℕ},
    resolveFrom successors fuel seen current = .ok found →
      successors[found]? = none ∧ Leads successors current found
  | 0, _, _, _, h => by cases h
  | fuel + 1, current, seen, found, h => by
    rw [resolveFrom] at h
    split_ifs at h with hseen
    cases hnext : successors[current]? with
    | none =>
      rw [hnext] at h
      obtain rfl : current = found := pure_eq_ok.mp h
      exact ⟨hnext, .refl⟩
    | some next =>
      rw [hnext] at h
      obtain ⟨hend, hleads⟩ := resolveFrom_eq_ok h
      exact ⟨hend, .head hnext hleads⟩

/-- The loop meets no cycle when successors are later scans. -/
theorem exists_resolveFrom (hedges : ∀ a b : ℕ, successors[a]? = some b → a < b) :
    ∀ {fuel current : ℕ} {seen : List ℕ}, (∀ k ∈ seen, k < current ∧ k ∈ successors) →
      seen.Nodup → successors.size < seen.length + fuel →
      ∃ found, resolveFrom successors fuel seen current = .ok found
  | 0, current, seen, hseen, hnodup, hsize => by
    have hsub : seen ⊆ successors.keys := fun k hk =>
      Std.ExtTreeMap.mem_keys.mpr (hseen k hk).2
    have hlength := (hnodup.subperm hsub).length_le
    rw [Std.ExtTreeMap.length_keys] at hlength
    omega
  | fuel + 1, current, seen, hseen, hnodup, hsize => by
    have hnot : current ∉ seen := fun hmem => lt_irrefl _ (hseen current hmem).1
    rw [resolveFrom, if_neg hnot]
    cases hnext : successors[current]? with
    | none => exact ⟨current, rfl⟩
    | some next =>
      have hlt := hedges current next hnext
      have hkey : current ∈ successors := by
        rw [Std.ExtTreeMap.mem_iff_isSome_getElem?, hnext]
        rfl
      refine exists_resolveFrom hedges (fun k hk => ?_) (List.nodup_cons.mpr ⟨hnot, hnodup⟩) ?_
      · rcases List.mem_cons.mp hk with rfl | hk
        · exact ⟨hlt, hkey⟩
        · exact ⟨(hseen k hk).1.trans hlt, (hseen k hk).2⟩
      · rw [List.length_cons]
        omega

end Resolve

theorem resolveScanId_eq_ok {db : Database} {scanId current : ℕ}
    (h : resolveScanId db scanId = .ok current) :
    db.successors[current]? = none ∧ Leads db.successors scanId current := by
  simp only [resolveScanId, bind_eq_ok] at h
  obtain ⟨_, -, h⟩ := h
  exact resolveFrom_eq_ok h

theorem one_le_of_resolveScanId {db : Database} {scanId current : ℕ}
    (h : resolveScanId db scanId = .ok current) : 1 ≤ scanId := by
  simp only [resolveScanId, bind_eq_ok, raiseIf_eq_ok, not_lt] at h
  obtain ⟨_, hpos, -⟩ := h
  exact hpos

/-- The current scan resolves to itself. -/
theorem eq_of_resolveScanId {db : Database} {scanId current : ℕ}
    (hend : db.successors[scanId]? = none) (h : resolveScanId db scanId = .ok current) :
    current = scanId := by
  obtain ⟨-, hleads⟩ := resolveScanId_eq_ok h
  rcases Relation.ReflTransGen.cases_head hleads with rfl | ⟨next, hnext, -⟩
  · rfl
  · rw [hend] at hnext
    cases hnext

/-- Every handle resolves when successors are later scans. -/
theorem exists_resolveScanId {db : Database}
    (hedges : ∀ a b : ℕ, db.successors[a]? = some b → a < b) {scanId : ℕ} (hpos : 1 ≤ scanId) :
    ∃ current, resolveScanId db scanId = .ok current := by
  obtain ⟨found, hfound⟩ : ∃ found,
      resolveFrom db.successors (db.successors.size + 1) [] scanId = .ok found :=
    exists_resolveFrom hedges (by simp) List.nodup_nil (by simp)
  refine ⟨found, ?_⟩
  rw [resolveScanId, raiseIf, if_neg (by omega)]
  exact hfound

/-! ## The invariant -/

section Sound

variable (sha256 : Bytes → Bytes)

/-- The scan is complete. -/
def Database.Complete (db : Database) (scanId : ℕ) : Prop :=
  ∃ scan ∈ db.scans[scanId]?, scan.status = .complete

/-- What holds between the transactions. -/
structure Database.Sound (db : Database) : Prop where
  /-- A successor is a later scan, and only complete scans have one. -/
  edges : ∀ a b : ℕ, db.successors[a]? = some b → a < b ∧ db.Complete a ∧ db.Complete b
  /-- The identity of a generation is the digest of its rows. -/
  heads : ∀ (scanId : ℕ) digest, db.heads[scanId]? = some digest →
    db.Complete scanId ∧ digest = inventoryContentDigest sha256 (db.files scanId)
  /-- A published inventory is complete, without errors, and counted. -/
  published : ∀ (root : Path) p, db.published[root]? = some p → ∃ scan ∈ db.scans[p.scanId]?,
    scan.Publishable (db.files p.scanId) ∧ scan.root.path = root
  /-- No plan of a superseded scan is published. -/
  plans : ∀ (a b : ℕ) head, db.successors[a]? = some b → db.plans.heads[a]? = some head →
    head.status = .superseded

/-- What a step leaves of the past. -/
structure KeepsPast (db db' : Database) : Prop where
  complete : ∀ scanId, db.Complete scanId → db'.Complete scanId ∧
    db'.files scanId = db.files scanId ∧ db'.changeVersions scanId = db.changeVersions scanId
  history : ∀ a b : ℕ, db.successors[a]? = some b →
    db'.successors[a]? = some b ∧ db'.scans[a]? = db.scans[a]?
  heads : ∀ (scanId : ℕ) digest, db.heads[scanId]? = some digest → db'.heads[scanId]? = some digest

theorem KeepsPast.refl (db : Database) : KeepsPast db db :=
  ⟨fun _ h => ⟨h, rfl, rfl⟩, fun _ _ h => ⟨h, rfl⟩, fun _ _ h => h⟩

theorem KeepsPast.trans {a b c : Database} (hab : KeepsPast a b) (hbc : KeepsPast b c) :
    KeepsPast a c where
  complete scanId h := by
    obtain ⟨hb, hfiles, hversions⟩ := hab.complete scanId h
    obtain ⟨hc, hfiles', hversions'⟩ := hbc.complete scanId hb
    exact ⟨hc, hfiles'.trans hfiles, hversions'.trans hversions⟩
  history x y h := by
    obtain ⟨hb, hscan⟩ := hab.history x y h
    obtain ⟨hc, hscan'⟩ := hbc.history x y hb
    exact ⟨hc, hscan'.trans hscan⟩
  heads scanId digest h := hbc.heads _ _ (hab.heads _ _ h)

theorem sound_empty : ({} : Database).Sound sha256 where
  edges a b h := by simp at h
  heads a b h := by simp at h
  published a b h := by simp at h
  plans a b _ h := by simp at h

end Sound

variable {sha256 : Bytes → Bytes} {db db' : Database}

theorem Database.Complete.mem {scanId : ℕ} (h : db.Complete scanId) : scanId ∈ db.scans := by
  obtain ⟨scan, hscan, -⟩ := h
  rw [Std.ExtTreeMap.mem_iff_isSome_getElem?, Option.mem_def.mp hscan]
  rfl

/-- A new identifier is later than all scans. -/
theorem lt_nextOperationalIdentity {scanId : ℕ} (h : scanId ∈ db.scans) :
    scanId < db.nextOperationalIdentity := by
  have hmax : scanId ≤ db.maxScanId :=
    le_foldl_max (Or.inr (Std.ExtTreeMap.mem_keys.mpr h))
  exact Nat.lt_succ_of_le (hmax.trans (le_max_left _ _))

/-- Other scans are as complete as before. -/
theorem Database.Complete.of_eq {scanId : ℕ} (h : db.Complete scanId)
    (hscans : db'.scans[scanId]? = db.scans[scanId]?) : db'.Complete scanId := by
  obtain ⟨scan, hscan, hstatus⟩ := h
  exact ⟨scan, hscans.trans hscan, hstatus⟩

/-! ## One identity -/

/-- The two databases differ in the rows and the head of one scan only. -/
structure SameBut (scanId : ℕ) (db db' : Database) : Prop where
  scans : db'.scans = db.scans
  successors : db'.successors = db.successors
  published : db'.published = db.published
  plans : db'.plans = db.plans
  files : ∀ other : ℕ, other ≠ scanId → db'.files other = db.files other
  changeVersions : ∀ other : ℕ, other ≠ scanId → db'.changeVersions other = db.changeVersions other
  heads : ∀ other : ℕ, other ≠ scanId → db'.heads[other]? = db.heads[other]?

theorem SameBut.trans {scanId : ℕ} {a b c : Database} (hab : SameBut scanId a b)
    (hbc : SameBut scanId b c) : SameBut scanId a c where
  scans := hbc.scans.trans hab.scans
  successors := hbc.successors.trans hab.successors
  published := hbc.published.trans hab.published
  plans := hbc.plans.trans hab.plans
  files other h := (hbc.files other h).trans (hab.files other h)
  changeVersions other h := (hbc.changeVersions other h).trans (hab.changeVersions other h)
  heads other h := (hbc.heads other h).trans (hab.heads other h)

theorem SameBut.complete {scanId other : ℕ} (h : SameBut scanId db db') (hc : db.Complete other) :
    db'.Complete other := hc.of_eq (by rw [h.scans])

/-- A head that holds the digest of its rows makes the rows of its scan sound again. -/
theorem Database.Sound.sameBut {scanId : ℕ} (hs : db.Sound sha256) (h : SameBut scanId db db')
    (hpublished : ∀ (root : Path) p, db.published[root]? = some p → p.scanId ≠ scanId)
    (hhead : ∀ digest, db'.heads[scanId]? = some digest →
      db.Complete scanId ∧ digest = inventoryContentDigest sha256 (db'.files scanId)) :
    db'.Sound sha256 where
  edges a b hab := by
    rw [h.successors] at hab
    obtain ⟨hlt, ha, hb⟩ := hs.edges a b hab
    exact ⟨hlt, h.complete ha, h.complete hb⟩
  heads other digest ho := by
    by_cases heq : other = scanId
    · subst heq
      obtain ⟨hc, hd⟩ := hhead digest ho
      exact ⟨h.complete hc, hd⟩
    · rw [h.heads other heq] at ho
      obtain ⟨hc, hd⟩ := hs.heads other digest ho
      rw [h.files other heq]
      exact ⟨h.complete hc, hd⟩
  published root p hp := by
    rw [h.published] at hp
    rw [h.scans, h.files _ (hpublished root p hp)]
    exact hs.published root p hp
  plans a b head hab hplan := by
    rw [h.successors] at hab
    rw [h.plans] at hplan
    exact hs.plans a b head hab hplan

/-- `_ensure_inventory_content_digest`: the head is written when it is missing. -/
theorem ensureInventoryContentDigest_eq_ok (hs : db.Sound sha256) {scanId : ℕ} {digest : Bytes}
    (h : ensureInventoryContentDigest sha256 db scanId = .ok (digest, db')) :
    ∃ current, resolveScanId db scanId = .ok current ∧ db'.heads[current]? = some digest ∧
      db.Complete current ∧ SameBut current db db' ∧ db'.files = db.files ∧
      db'.changeVersions = db.changeVersions ∧ db'.Sound sha256 ∧ KeepsPast db db' := by
  simp only [ensureInventoryContentDigest, bind_eq_ok] at h
  obtain ⟨current, hcurrent, _, -, h⟩ := h
  refine ⟨current, hcurrent, ?_⟩
  cases hhead : db.heads[current]? with
  | some found =>
    rw [hhead] at h
    obtain ⟨rfl, rfl⟩ := Prod.mk.inj (pure_eq_ok.mp h)
    exact ⟨hhead, (hs.heads _ _ hhead).1, ⟨rfl, rfl, rfl, rfl, fun _ _ => rfl, fun _ _ => rfl,
      fun _ _ => rfl⟩, rfl, rfl, hs, .refl db⟩
  | none =>
    rw [hhead] at h
    cases hscan : db.scans[current]? with
    | none =>
      rw [hscan] at h
      cases h
    | some scan =>
      rw [hscan] at h
      simp only [bind_eq_ok, raiseIf_eq_ok, not_not, pure_eq_ok] at h
      obtain ⟨_, hstatus, h⟩ := h
      obtain ⟨rfl, rfl⟩ := Prod.mk.inj h
      have hcomplete : db.Complete current := ⟨scan, hscan, hstatus⟩
      have hother : ∀ other : ℕ, other ≠ current → (db.heads.insert current
          (inventoryContentDigest sha256 (db.files current)))[other]? = db.heads[other]? := by
        intro other hne
        rw [Table.getElem?_insert_eq, if_neg hne.symm]
      have hself : (db.heads.insert current
          (inventoryContentDigest sha256 (db.files current)))[current]? =
          some (inventoryContentDigest sha256 (db.files current)) := by
        rw [Table.getElem?_insert_eq, if_pos rfl]
      refine ⟨hself, hcomplete,
        ⟨rfl, rfl, rfl, rfl, fun _ _ => rfl, fun _ _ => rfl, hother⟩, rfl, rfl,
        ⟨hs.edges, ?_, hs.published, hs.plans⟩,
        ⟨fun _ hc => ⟨hc, rfl, rfl⟩, fun _ _ he => ⟨he, rfl⟩, ?_⟩⟩
      · intro other digest ho
        by_cases heq : other = current
        · subst heq
          exact ⟨hcomplete, (Option.some.inj (hself.symm.trans ho)).symm⟩
        · exact hs.heads other digest ((hother other heq).symm.trans ho)
      · intro other digest ho
        have hne : other ≠ current := by
          rintro rfl
          rw [hhead] at ho
          cases ho
        exact (hother other hne).trans ho

/-! ## The successor -/

/-- What the creation of a successor does. -/
structure Succeeds (sha256 : Bytes → Bytes) (source current : ℕ) (db db' : Database) : Prop where
  sound : db'.Sound sha256
  kept : KeepsPast db db'
  fresh : current ∉ db.scans
  later : source < current
  scans : ∃ scan ∈ db.scans[source]?,
    db'.scans[current]? = some { scan with completed := true, status := .complete }
  edge : db'.successors[source]? = some current
  last : db'.successors[current]? = none
  published : db'.published = db.published
  plans : db'.plans = db.plans.supersede source
  files : db'.files current = db.files source
  changeVersions : db'.changeVersions current = db.changeVersions source

theorem insertSuccessor_succeeds (hs : db.Sound sha256) {source : ℕ} {scan : Scan} {digest : Bytes}
    (hscan : db.scans[source]? = some scan) (hstatus : scan.status = .complete)
    (hend : db.successors[source]? = none) (hhead : db.heads[source]? = some digest) :
    Succeeds sha256 source db.nextOperationalIdentity db
      (db.insertSuccessor source scan digest) := by
  set new := db.nextOperationalIdentity with hnew
  have hcomplete : db.Complete source := ⟨scan, hscan, hstatus⟩
  have hlt : ∀ {scanId : ℕ}, db.Complete scanId → scanId < new := fun h =>
    lt_nextOperationalIdentity h.mem
  have hfresh : new ∉ db.scans := fun h => lt_irrefl _ (lt_nextOperationalIdentity h)
  have hscans : ∀ scanId : ℕ, (db.insertSuccessor source scan digest).scans[scanId]? =
      if new = scanId then some { scan with completed := true, status := .complete }
      else db.scans[scanId]? := fun _ => Table.getElem?_insert_eq
  have hheads : ∀ scanId : ℕ, (db.insertSuccessor source scan digest).heads[scanId]? =
      if new = scanId then some digest else db.heads[scanId]? := fun _ => Table.getElem?_insert_eq
  have hedges : ∀ scanId : ℕ, (db.insertSuccessor source scan digest).successors[scanId]? =
      if source = scanId then some new else db.successors[scanId]? :=
    fun _ => Table.getElem?_insert_eq
  have hfiles : ∀ scanId : ℕ, (db.insertSuccessor source scan digest).files scanId =
      if scanId = new then db.files source else db.files scanId := fun scanId =>
    Function.update_apply _ _ _ _
  have hversions : ∀ scanId : ℕ, (db.insertSuccessor source scan digest).changeVersions scanId =
      if scanId = new then db.changeVersions source else db.changeVersions scanId := fun scanId =>
    Function.update_apply _ _ _ _
  have hold : ∀ {scanId : ℕ}, db.Complete scanId →
      (db.insertSuccessor source scan digest).Complete scanId := fun h =>
    h.of_eq (by rw [hscans, if_neg (hlt h).ne'])
  have hlast : db.successors[new]? = none := by
    cases hget : db.successors[new]? with
    | none => rfl
    | some b => exact absurd (hs.edges _ _ hget).2.1.mem hfresh
  refine ⟨⟨?_, ?_, ?_, ?_⟩, ⟨?_, ?_, ?_⟩, hfresh, hlt hcomplete, ⟨scan, hscan, ?_⟩, ?_, ?_, rfl,
    rfl, ?_, ?_⟩
  · intro a b hab
    rw [hedges] at hab
    split_ifs at hab with ha
    · subst ha
      obtain rfl : new = b := Option.some.inj hab
      exact ⟨hlt hcomplete, hold hcomplete, _, (hscans _).trans (if_pos rfl), rfl⟩
    · obtain ⟨hle, hca, hcb⟩ := hs.edges a b hab
      exact ⟨hle, hold hca, hold hcb⟩
  · intro scanId d hd
    rw [hheads] at hd
    split_ifs at hd with hid
    · subst hid
      obtain rfl : digest = d := Option.some.inj hd
      rw [hfiles, if_pos rfl]
      exact ⟨⟨_, (hscans _).trans (if_pos rfl), rfl⟩, (hs.heads _ _ hhead).2⟩
    · obtain ⟨hc, hdigest⟩ := hs.heads scanId d hd
      rw [hfiles, if_neg (Ne.symm hid)]
      exact ⟨hold hc, hdigest⟩
  · intro root p hp
    obtain ⟨s, hsome, hpub, hroot⟩ := hs.published root p hp
    have hne : p.scanId ≠ new := by
      intro heq
      have hc : db.Complete p.scanId := ⟨s, hsome, hpub.1⟩
      exact hfresh (heq ▸ hc.mem)
    rw [hscans, hfiles, if_neg (Ne.symm hne), if_neg hne]
    exact ⟨s, hsome, hpub, hroot⟩
  · intro a b head hab hplan
    change (db.plans.supersede source).heads[a]? = some head at hplan
    rw [hedges] at hab
    simp only [PlanTables.supersede] at hplan
    by_cases ha : source = a
    · subst ha
      cases hget : db.plans.heads[source]? with
      | none => simp [hget] at hplan
      | some found =>
        simp only [hget, Table.getElem?_insert_eq, if_pos, Option.some.injEq] at hplan
        rw [← hplan]
    · rw [if_neg ha] at hab
      cases hget : db.plans.heads[source]? with
      | none =>
        simp only [hget] at hplan
        exact hs.plans a b head hab hplan
      | some found =>
        simp only [hget, Table.getElem?_insert_eq, if_neg ha] at hplan
        exact hs.plans a b head hab hplan
  · intro scanId hc
    rw [hfiles, hversions, if_neg (hlt hc).ne, if_neg (hlt hc).ne]
    exact ⟨hold hc, rfl, rfl⟩
  · intro a b hab
    have hne : source ≠ a := by
      rintro rfl
      rw [hend] at hab
      cases hab
    rw [hedges, hscans, if_neg hne, if_neg (hlt (hs.edges a b hab).2.1).ne']
    exact ⟨hab, rfl⟩
  · intro scanId d hd
    rw [hheads, if_neg (hlt (hs.heads _ _ hd).1).ne']
    exact hd
  · rw [hscans, if_pos rfl]
  · rw [hedges, if_pos rfl]
  · rw [hedges, if_neg (hlt hcomplete).ne, hlast]
  · rw [hfiles, if_pos rfl]
  · rw [hversions, if_pos rfl]

/-- A scan that is resolved has no successor yet, so it is given one. -/
theorem createInventorySuccessor_eq_ok (hs : db.Sound sha256) {scanId current : ℕ}
    (h : createInventorySuccessor sha256 db scanId = .ok (current, db')) :
    ∃ source, resolveScanId db scanId = .ok source ∧ Succeeds sha256 source current db db' := by
  simp only [createInventorySuccessor, bind_eq_ok] at h
  obtain ⟨source, hsource, _, -, h⟩ := h
  obtain ⟨hend, -⟩ := resolveScanId_eq_ok hsource
  rw [hend] at h
  cases hscan : db.scans[source]? with
  | none =>
    rw [hscan] at h
    cases h
  | some scan =>
    rw [hscan] at h
    simp only [bind_eq_ok, raiseIf_eq_ok, not_or, not_not] at h
    obtain ⟨_, ⟨hstatus, -⟩, ⟨digest, db₀⟩, hdigest, h⟩ := h
    obtain ⟨rfl, rfl⟩ := Prod.mk.inj (pure_eq_ok.mp h)
    obtain ⟨found, hfound, hhead, -, hsame, hfiles, hversions, hs₀, hkept⟩ :=
      ensureInventoryContentDigest_eq_ok hs hdigest
    obtain rfl : found = source := eq_of_resolveScanId hend hfound
    have hscan₀ : db₀.scans[found]? = some scan := by rw [hsame.scans, hscan]
    have hend₀ : db₀.successors[found]? = none := by rw [hsame.successors, hend]
    have hnew := insertSuccessor_succeeds hs₀ hscan₀ hstatus hend₀ hhead
    refine ⟨found, hsource, hnew.sound, hkept.trans hnew.kept, ?_, hnew.later, ?_, hnew.edge,
      hnew.last, hnew.published.trans hsame.published, ?_, ?_, ?_⟩
    · rw [← hsame.scans]
      exact hnew.fresh
    · rw [← hsame.scans]
      exact hnew.scans
    · rw [hnew.plans, hsame.plans]
    · rw [hnew.files, hfiles]
    · rw [hnew.changeVersions, hversions]

/-! ## The rows of a successor -/

theorem sameBut_setFiles (scanId : ℕ) (db : Database) (files : Files) :
    SameBut scanId db (db.setFiles scanId files) :=
  ⟨rfl, rfl, rfl, rfl, fun _ h => Function.update_of_ne h _ _, fun _ _ => rfl, fun _ _ => rfl⟩

theorem sameBut_setChangeVersions (scanId : ℕ) (db : Database) (versions : Table Path ℤ) :
    SameBut scanId db (db.setChangeVersions scanId versions) :=
  ⟨rfl, rfl, rfl, rfl, fun _ _ => rfl, fun _ h => Function.update_of_ne h _ _, fun _ _ => rfl⟩

theorem sameBut_deleteFiles (scanId : ℕ) (db : Database) (gone : Path → FileRow → Bool) :
    SameBut scanId db (db.deleteFiles scanId gone) :=
  (sameBut_setFiles scanId db _).trans (sameBut_setChangeVersions scanId _ _)

theorem sameBut_upsert (scanId : ℕ) (db : Database) (s : FileSnapshot) :
    SameBut scanId db (upsertReconciledSnapshot scanId db s) :=
  (sameBut_setChangeVersions scanId db _).trans (sameBut_setFiles scanId _ _)

theorem SameBut.refl (scanId : ℕ) (db : Database) : SameBut scanId db db :=
  ⟨rfl, rfl, rfl, rfl, fun _ _ => rfl, fun _ _ => rfl, fun _ _ => rfl⟩

theorem sameBut_upserts (scanId : ℕ) : ∀ (upserts : List FileSnapshot) (db : Database),
    SameBut scanId db (upserts.foldl (upsertReconciledSnapshot scanId) db)
  | [], db => .refl scanId db
  | s :: upserts, db =>
    (sameBut_upsert scanId db s).trans (sameBut_upserts scanId upserts _)

/-- A reconciliation touches the rows and the head of its successor only. -/
theorem sameBut_reconcileRows (db : Database) (current : ℕ) (r : Reconciliation) :
    SameBut current db (db.reconcileRows sha256 current r) := by
  have hrows : SameBut current db (r.upserts.foldl (upsertReconciledSnapshot current)
      (removeReconciledRows db current r.removePaths r.removeIdentities)) :=
    ((sameBut_deleteFiles current db _).trans (sameBut_deleteFiles current _ _)).trans
      (sameBut_upserts current r.upserts _)
  refine hrows.trans ⟨rfl, rfl, rfl, rfl, fun _ _ => rfl, fun _ _ => rfl, fun other h => ?_⟩
  change (if current ∈ _ then _ else _ : Table ℕ Bytes)[other]? = _
  split_ifs
  · rw [Table.getElem?_insert_eq, if_neg h.symm]
  · rfl

/-- The head of the successor is the digest of its rows. -/
theorem head_reconcileRows (db : Database) (current : ℕ) (r : Reconciliation) (digest : Bytes)
    (h : (db.reconcileRows sha256 current r).heads[current]? = some digest) :
    digest = inventoryContentDigest sha256 ((db.reconcileRows sha256 current r).files current) := by
  simp only [Database.reconcileRows] at h
  split_ifs at h with hmem
  · rw [Table.getElem?_insert_eq, if_pos rfl] at h
    exact (Option.some.inj h).symm
  · rw [Std.ExtTreeMap.mem_iff_isSome_getElem?, h] at hmem
    exact absurd rfl hmem

/-- The successor with its reconciled rows. -/
theorem Succeeds.reconcileRows {source current : ℕ} (h : Succeeds sha256 source current db db')
    (hs : db.Sound sha256) (r : Reconciliation) :
    (db'.reconcileRows sha256 current r).Sound sha256 ∧
      KeepsPast db (db'.reconcileRows sha256 current r) := by
  have hsame : SameBut current db' (db'.reconcileRows sha256 current r) :=
    sameBut_reconcileRows db' current r
  have hne : ∀ {scanId : ℕ}, db.Complete scanId → scanId ≠ current := by
    rintro scanId hc rfl
    exact h.fresh hc.mem
  obtain ⟨scan, -, hscan⟩ := h.scans
  refine ⟨h.sound.sameBut hsame ?_ fun digest hd => ⟨⟨_, hscan, rfl⟩, head_reconcileRows _ _ _ _ hd⟩,
    ?_, ?_, ?_⟩
  · intro root p hp
    rw [h.published] at hp
    obtain ⟨s, hsome, hpub, -⟩ := hs.published root p hp
    exact hne ⟨s, hsome, hpub.1⟩
  · intro scanId hc
    obtain ⟨hc', hfiles, hversions⟩ := h.kept.complete scanId hc
    rw [hsame.files _ (hne hc), hsame.changeVersions _ (hne hc)]
    exact ⟨hsame.complete hc', hfiles, hversions⟩
  · intro a b hab
    rw [hsame.successors, hsame.scans]
    exact h.kept.history a b hab
  · intro scanId digest hd
    rw [hsame.heads _ (hne (hs.heads _ _ hd).1)]
    exact h.kept.heads scanId digest hd

end Inventory
end Neocortex
