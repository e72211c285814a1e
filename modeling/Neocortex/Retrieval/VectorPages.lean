import Neocortex.Retrieval.ExactSearch

/-!
# Vector backends

The dispatch of a search to a vector backend, `_search_exact_page` of
`semantic/semantic_search_repository.py`, and the contract of `semantic/semantic_vector_search.py`.

A backend is any function of a request and a budget.  It may decline before it scans, and the exact
scan takes its place; what it returns is checked, and refused when it is malformed.

* `validateVectorPage`: the checks;
* `validateVectorPage_eq_ok`: the pages that they accept;
* `searchExactPage`: the dispatch;
* `searchExactPage_contract`: what a search returns is in order, and the exact scan passes the
  checks.
-/

namespace Neocortex
namespace Retrieval

open Python Checks TopGroups

/-! ## The contract -/

/-- `VectorSearchRequest`.  `admits` decides on the fields of a hit that the query fixes: its vector
space, its modality, the two model signatures, and a finite score between -1 and 1. -/
structure VectorSearchRequest (S : Type) where
  snapshotId : Text
  afterRefId : ℕ
  evidenceMode : Bool
  admits : SearchHit S → Bool

/-- `VectorSearchBudget`. -/
structure VectorSearchBudget where
  limit : ℕ
  maxVectors : ℕ
  batchSize : ℕ

/-- The coverage of a page. -/
inductive Coverage where
  | complete
  | partialCoverage
  deriving DecidableEq

/-- The coverage that a page states. -/
def ExactSearchPage.coverage {S : Type} (page : ExactSearchPage S) : Coverage :=
  if page.complete then .complete else .partialCoverage

/-- `VectorSearchPage`. -/
structure VectorSearchPage (S : Type) where
  page : ExactSearchPage S
  backendId : Text
  snapshotId : Text
  coverage : Coverage

/-- What a backend answers: a page, or `VectorSearchUnavailable`. -/
inductive BackendAnswer (S : Type) where
  | unavailable (backendId reason : Text) (prescan : Bool)
  | page (result : VectorSearchPage S)

/-- `raise` unless the check holds. -/
def need (check : Prop) [Decidable check] (message : String) : Except Text Unit :=
  if check then .ok () else .error message.toList

theorem need_eq_ok {check : Prop} [Decidable check] {message : String} {u : Unit} :
    need check message = .ok u ↔ check := by
  unfold need
  split_ifs with h <;> simp [h]

section Contract

variable {S : Type}

/-- The key of a ranked group. -/
def VectorSearchRequest.key (request : VectorSearchRequest S) (hit : SearchHit S) : Text × Text :=
  (hit.itemId, if request.evidenceMode then hit.entityId else [])

/-- What the query asks of a hit, up to the cursor of its page. -/
def VectorSearchRequest.Bounds (request : VectorSearchRequest S) (cursor : Option ℕ)
    (hit : SearchHit S) : Prop :=
  request.afterRefId < hit.refId ∧ 1 ≤ hit.generationId ∧ request.admits hit = true ∧
    hit.itemId ≠ [] ∧ hit.entityId ≠ [] ∧ hit.indexedModelSignature ≠ [] ∧
    ∀ c ∈ cursor, hit.refId ≤ c

instance (request : VectorSearchRequest S) (cursor : Option ℕ) (hit : SearchHit S) :
    Decidable (request.Bounds cursor hit) := inferInstanceAs (Decidable (_ ∧ _))

/-- The loop of `validate_vector_page` over the hits. -/
def checkHits (request : VectorSearchRequest S) (cursor : Option ℕ) :
    List (Text × Text) → List (SearchHit S) → Except Text Unit
  | _, [] => .ok ()
  | seen, hit :: hits => do
    need (request.Bounds cursor hit) "backend candidate violates the query boundary"
    need (seen.contains (request.key hit) = false) "backend returned duplicate ranked groups"
    checkHits request cursor (request.key hit :: seen) hits

/-- The scan budget and the coverage of a page. -/
def VectorSearchPage.Consistent (result : VectorSearchPage S) (request : VectorSearchRequest S)
    (budget : VectorSearchBudget) : Prop :=
  result.page.scanned ≤ budget.maxVectors ∧
    result.page.hits.length ≤ min budget.limit result.page.scanned ∧
    result.coverage = result.page.coverage ∧
    (result.page.complete = true → result.page.nextCursor = none) ∧
    (result.page.complete = false → ∃ c ∈ result.page.nextCursor, request.afterRefId < c)

instance (result : VectorSearchPage S) (request : VectorSearchRequest S)
    (budget : VectorSearchBudget) : Decidable (result.Consistent request budget) := by
  unfold VectorSearchPage.Consistent
  infer_instance

theorem checkHits_eq_ok {request : VectorSearchRequest S} {cursor : Option ℕ} :
    ∀ {hits : List (SearchHit S)} {seen : List (Text × Text)},
      checkHits request cursor seen hits = .ok () ↔ (∀ hit ∈ hits, request.Bounds cursor hit) ∧
        (hits.map request.key).Nodup ∧ ∀ hit ∈ hits, request.key hit ∉ seen
  | [], seen => by simp [checkHits]
  | hit :: hits, seen => by
    rw [checkHits, bind_eq_ok]
    simp only [bind_eq_ok, need_eq_ok, checkHits_eq_ok, List.map_cons, List.nodup_cons,
      List.mem_cons, List.mem_map, not_or]
    constructor
    · rintro ⟨_, hbounds, _, hnew, hrest, hnodup, hseen⟩
      have hnew : request.key hit ∉ seen := by simpa using hnew
      refine ⟨?_, ⟨?_, hnodup⟩, ?_⟩
      · rintro other (rfl | hother)
        · exact hbounds
        · exact hrest other hother
      · rintro ⟨other, hother, heq⟩
        exact (hseen other hother).1 heq
      · rintro other (rfl | hother)
        · exact hnew
        · exact (hseen other hother).2
    · rintro ⟨hbounds, ⟨hhead, hnodup⟩, hseen⟩
      refine ⟨(), hbounds hit (Or.inl rfl), (), ?_,
        fun other hother => hbounds other (Or.inr hother), hnodup, fun other hother => ⟨fun heq => hhead ⟨other, hother, heq⟩,
          hseen other (Or.inr hother)⟩⟩
      simpa using hseen hit (Or.inl rfl)

variable [LinearOrder S]

/-- `validate_vector_page`. -/
def validateVectorPage (result : VectorSearchPage S) (request : VectorSearchRequest S)
    (budget : VectorSearchBudget) : Except Text Unit := do
  need (result.backendId ≠ []) "backend identity is missing"
  need (result.snapshotId = request.snapshotId) "backend returned a different owner snapshot"
  need (result.Consistent request budget) "backend coverage or scan budget is inconsistent"
  checkHits request result.page.nextCursor [] result.page.hits
  let orders := result.page.hits.map exactSearchOrder
  need (orders.insertionSort (· ≤ ·) = orders) "backend candidates violate the exact total order"

/-! ## The dispatch -/

/-- A backend. -/
abbrev VectorBackend (S : Type) :=
  VectorSearchRequest S → VectorSearchBudget → Except Text (BackendAnswer S)

/-- `NativeExactVectorSearch.search_page`. -/
def nativeSearchPage (scope : PublishedScope S) (request : VectorSearchRequest S)
    (budget : VectorSearchBudget) : Except Text (VectorSearchPage S) := do
  let page ← scanExactPage scope budget.limit budget.maxVectors request.afterRefId budget.batchSize
    request.evidenceMode
  .ok ⟨page, "native_exact".toList, request.snapshotId, page.coverage⟩

/-- Whether the owner still has the fence of the request, before the fallback and at the end. -/
structure OwnerFence where
  atFallback : Bool
  atEnd : Bool

/-- The answer of the selected backend, or that of the exact scan when the backend declines. -/
def answer (scope : PublishedScope S) (backend : Option (VectorBackend S)) (fence : OwnerFence)
    (request : VectorSearchRequest S) (budget : VectorSearchBudget) :
    Except Text (VectorSearchPage S) :=
  match backend with
  | none => nativeSearchPage scope request budget
  | some search => do
    match ← search request budget with
    | .page result => .ok result
    | .unavailable backendId reason prescan => do
      need (prescan = true ∧ reason ≠ [] ∧ backendId ≠ [])
        "backend decline is not a valid pre-scan outcome"
      need (fence.atFallback = true)
        "semantic owner changed before exact fallback; no implicit retry"
      nativeSearchPage scope request budget

/-- `_search_exact_page`. -/
def searchExactPage (scope : PublishedScope S) (backend : Option (VectorBackend S))
    (fence : OwnerFence) (request : VectorSearchRequest S) (budget : VectorSearchBudget) :
    Except Text (ExactSearchPage S) := do
  checkScan budget.limit budget.maxVectors budget.batchSize
  let result ← answer scope backend fence request budget
  validateVectorPage result request budget
  need (fence.atEnd = true) "semantic owner changed during vector query; no implicit retry"
  .ok result.page

/-! ## Pages in order -/

/-- What is asked of a page. -/
structure ExactSearchPage.InOrder (page : ExactSearchPage S) (request : VectorSearchRequest S)
    (budget : VectorSearchBudget) : Prop where
  scanned_le : page.scanned ≤ budget.maxVectors
  length_le : page.hits.length ≤ min budget.limit page.scanned
  sorted : (page.hits.map exactSearchOrder).Pairwise (· ≤ ·)
  groups : (page.hits.map request.key).Nodup
  bounds : ∀ hit ∈ page.hits, request.Bounds page.nextCursor hit
  cursor : page.complete = false → ∃ c ∈ page.nextCursor, request.afterRefId < c
  last : page.complete = true → page.nextCursor = none

/-- The checks accept the pages in order of the right backend, snapshot and coverage. -/
theorem validateVectorPage_eq_ok {result : VectorSearchPage S} {request : VectorSearchRequest S}
    {budget : VectorSearchBudget} : validateVectorPage result request budget = .ok () ↔
      result.page.InOrder request budget ∧ result.backendId ≠ [] ∧
        result.snapshotId = request.snapshotId ∧ result.coverage = result.page.coverage := by
  simp only [validateVectorPage, bind_eq_ok, need_eq_ok]
  constructor
  · rintro ⟨_, hbackend, _, hsnapshot, _, ⟨hscanned, hlength, hcoverage, hlast, hcursor⟩, _,
      hhits, hsorted⟩
    obtain ⟨hbounds, hgroups, -⟩ := checkHits_eq_ok.mp hhits
    refine ⟨⟨hscanned, hlength, ?_, hgroups, hbounds, hcursor, hlast⟩, hbackend, hsnapshot,
      hcoverage⟩
    rw [← hsorted]
    exact List.pairwise_insertionSort _ _
  · rintro ⟨h, hbackend, hsnapshot, hcoverage⟩
    exact ⟨(), hbackend, (), hsnapshot, (),
      ⟨h.scanned_le, h.length_le, hcoverage, h.last, h.cursor⟩, (), checkHits_eq_ok.mpr ⟨h.bounds, h.groups, fun _ _ => List.not_mem_nil⟩,
      h.sorted.insertionSort_eq⟩

/-! ## The exact scan -/

/-- The rows of the scope hold what a request asks of a hit. -/
def PublishedScope.Admits (scope : PublishedScope S) (request : VectorSearchRequest S) : Prop :=
  ∀ hit ∈ scope.rows, 1 ≤ hit.generationId ∧ request.admits hit = true ∧ hit.itemId ≠ [] ∧
    hit.entityId ≠ [] ∧ hit.indexedModelSignature ≠ []

theorem topGroups_inOrder {γ : Type} [DecidableEq γ] {group : SearchHit S → γ}
    {rows : List (SearchHit S)} (hrows : rows.Pairwise fun a b => a.refId < b.refId) (limit : ℕ) :
    (topGroups group exactSearchOrder limit rows).length ≤ min limit rows.length ∧
      ((topGroups group exactSearchOrder limit rows).map exactSearchOrder).Pairwise (· ≤ ·) ∧
      ((topGroups group exactSearchOrder limit rows).map group).Nodup := by
  have hkeys := nodup_orders hrows
  have hrepresentatives : ((representatives group exactSearchOrder rows).map
      exactSearchOrder).Nodup := nodup_representatives_keys hkeys
  have hsorted := sorted_keys hrepresentatives
  refine ⟨?_, ?_, ?_⟩
  · rw [topGroups, List.length_take, List.length_insertionSort]
    exact min_le_min_left _ (List.length_filter_le _ _)
  · rw [List.pairwise_map]
    exact (hsorted.sublist (List.take_sublist _ _)).imp le_of_lt
  · have hnodup : (topGroups group exactSearchOrder limit rows).Nodup :=
      (hsorted.sublist (List.take_sublist _ _)).imp fun hlt heq => hlt.ne (congrArg _ heq)
    refine hnodup.map_on fun a ha b hb heq => ?_
    have hrep : ∀ {c}, c ∈ topGroups group exactSearchOrder limit rows →
        c ∈ representatives group exactSearchOrder rows := fun hc =>
      ((mem_topGroups_iff hkeys).mp hc).1
    exact representatives_unique hkeys (hrep ha) (hrep hb) heq

/-- The best hits of some rows are in order. -/
theorem topHits_inOrder {rows : List (SearchHit S)}
    (hrows : rows.Pairwise fun a b => a.refId < b.refId) (limit : ℕ)
    (request : VectorSearchRequest S) :
    (topHits request.evidenceMode limit rows).length ≤ min limit rows.length ∧
      ((topHits request.evidenceMode limit rows).map exactSearchOrder).Pairwise (· ≤ ·) ∧
      ((topHits request.evidenceMode limit rows).map request.key).Nodup := by
  cases hmode : request.evidenceMode with
  | true =>
    have hkey : request.key = SearchHit.evidence := by
      funext hit
      rw [VectorSearchRequest.key, hmode]
      rfl
    rw [hkey]
    exact topGroups_inOrder hrows limit
  | false =>
    obtain ⟨hlength, hsorted, hgroups⟩ :
        (topGroups SearchHit.itemId exactSearchOrder limit rows).length ≤ min limit rows.length ∧
          ((topGroups SearchHit.itemId exactSearchOrder limit rows).map
            exactSearchOrder).Pairwise (· ≤ ·) ∧
          ((topGroups SearchHit.itemId exactSearchOrder limit rows).map
            SearchHit.itemId).Nodup := topGroups_inOrder hrows limit
    refine ⟨hlength, hsorted, ?_⟩
    have hkey : request.key = fun hit => (hit.itemId, []) := by
      funext hit
      rw [VectorSearchRequest.key, hmode]
      rfl
    have hmap := hgroups.map (f := fun item => (item, ([] : Text)))
      fun a b heq => (Prod.mk.inj heq).1
    rw [List.map_map] at hmap
    rw [hkey]
    exact hmap

/-- A page of the exact scan is in order. -/
theorem plainPage_inOrder {scope : PublishedScope S} {request : VectorSearchRequest S}
    (hscope : scope.Admits request) {budget : VectorSearchBudget}
    (hvectors : 0 < budget.maxVectors) :
    (plainPage scope budget.limit budget.maxVectors request.afterRefId
      request.evidenceMode).InOrder request budget := by
  set rows := (scope.after request.afterRefId).take budget.maxVectors with hrowsDef
  have hafter := sorted_after scope request.afterRefId
  have hrows : rows.Pairwise fun a b => a.refId < b.refId :=
    hafter.sublist (List.take_sublist _ _)
  obtain ⟨hlength, hsorted, hgroups⟩ := topHits_inOrder hrows budget.limit request
  have hmem : ∀ hit ∈ rows, hit ∈ scope.rows ∧ request.afterRefId < hit.refId := fun hit hhit => by
    have := List.mem_filter.mp (List.mem_of_mem_take hhit)
    exact ⟨this.1, of_decide_eq_true this.2⟩
  have hcursor : ∀ c ∈ (plainPage scope budget.limit budget.maxVectors request.afterRefId
      request.evidenceMode).nextCursor, ∃ last ∈ rows.getLast?, last.refId = c := by
    intro c hc
    rw [plainPage, Option.mem_def] at hc
    split_ifs at hc
    exact Option.map_eq_some_iff.mp hc
  refine ⟨List.length_take_le _ _, hlength, hsorted, hgroups, ?_, ?_, ?_⟩
  · intro hit hhit
    have hrow : hit ∈ rows := mem_of_mem_topHits hrows hhit
    obtain ⟨hin, hlt⟩ := hmem hit hrow
    obtain ⟨hgeneration, hadmits, hitem, hentity, hmodel⟩ := hscope hit hin
    refine ⟨hlt, hgeneration, hadmits, hitem, hentity, hmodel, fun c hc => ?_⟩
    obtain ⟨last, hlast, rfl⟩ := hcursor c hc
    obtain ⟨front, hfront⟩ := List.getLast?_eq_some_iff.mp hlast
    rw [hfront] at hrow
    rw [hfront, List.pairwise_append] at hrows
    rcases List.mem_append.mp hrow with hfirst | hsame
    · exact (hrows.2.2 hit hfirst last (List.mem_singleton_self _)).le
    · rw [List.mem_singleton.mp hsame]
  · intro hpartial
    have hlong : ¬ (scope.after request.afterRefId).length ≤ budget.maxVectors :=
      of_decide_eq_false hpartial
    cases hlast : rows.getLast? with
    | none =>
      have hzero := congrArg List.length (List.getLast?_eq_none_iff.mp hlast)
      rw [hrowsDef, List.length_take, List.length_nil] at hzero
      omega
    | some last =>
      refine ⟨last.refId, ?_, (hmem last (List.mem_of_getLast? hlast)).2⟩
      rw [plainPage, Option.mem_def, if_neg hlong, ← hrowsDef, hlast]
      rfl
  · intro hcomplete
    exact if_pos (of_decide_eq_true hcomplete)

/-! ## The dispatch -/

/-- A backend that is asked declines before its scan. -/
def Declines (backend : Option (VectorBackend S)) (request : VectorSearchRequest S)
    (budget : VectorSearchBudget) : Prop :=
  ∀ search ∈ backend, ∃ backendId reason, backendId ≠ [] ∧ reason ≠ [] ∧
    search request budget = .ok (.unavailable backendId reason true)

end Contract

section Dispatch

variable {S : Type} [LinearOrder S]

/-- The exact scan passes the checks. -/
theorem nativeSearchPage_valid {scope : PublishedScope S} {request : VectorSearchRequest S}
    {budget : VectorSearchBudget} (hscope : scope.Admits request)
    (hcheck : checkScan budget.limit budget.maxVectors budget.batchSize = .ok ()) :
    ∃ result, nativeSearchPage scope request budget = .ok result ∧
      result.page = plainPage scope budget.limit budget.maxVectors request.afterRefId
        request.evidenceMode ∧
      validateVectorPage result request budget = .ok () := by
  rw [nativeSearchPage, scanExactPage_eq_ok scope request.afterRefId request.evidenceMode hcheck]
  refine ⟨_, rfl, rfl, validateVectorPage_eq_ok.mpr ?_⟩
  exact ⟨plainPage_inOrder hscope (checkScan_eq_ok hcheck).2.1, List.cons_ne_nil _ _, rfl, rfl⟩

/-- When the backend declines and the owner keeps its fence, the exact scan answers. -/
theorem answer_of_declines (scope : PublishedScope S) {backend : Option (VectorBackend S)}
    {request : VectorSearchRequest S} {budget : VectorSearchBudget}
    (hdeclines : Declines backend request budget) :
    answer scope backend ⟨true, true⟩ request budget = nativeSearchPage scope request budget := by
  cases backend with
  | none => rfl
  | some search =>
    obtain ⟨backendId, reason, hid, hreason, hsearch⟩ := hdeclines search rfl
    have hprescan : need (true = true ∧ reason ≠ [] ∧ backendId ≠ [])
        "backend decline is not a valid pre-scan outcome" = .ok () :=
      need_eq_ok.mpr ⟨rfl, hreason, hid⟩
    rw [answer, hsearch, ok_bind]
    show (need _ _ >>= fun _ => _) = _
    rw [hprescan]
    rfl

/-- When there is no backend, or it declines, a search returns the plain page. -/
theorem searchExactPage_of_declines {scope : PublishedScope S} {backend : Option (VectorBackend S)}
    {request : VectorSearchRequest S} {budget : VectorSearchBudget} (hscope : scope.Admits request)
    (hcheck : checkScan budget.limit budget.maxVectors budget.batchSize = .ok ())
    (hdeclines : Declines backend request budget) :
    searchExactPage scope backend ⟨true, true⟩ request budget = .ok
      (plainPage scope budget.limit budget.maxVectors request.afterRefId request.evidenceMode) := by
  obtain ⟨result, hnative, hpage, hvalid⟩ := nativeSearchPage_valid hscope hcheck
  have hanswer := (answer_of_declines scope hdeclines).trans hnative
  rw [searchExactPage, hcheck, ok_bind, hanswer, ok_bind, hvalid, ok_bind, ← hpage]
  rfl

/-- Whatever the backend, a page that a search returns is in order, and the owner kept its fence.
When there is no backend, or it declines, and the owner keeps its fence, the search returns the
plain page: the checks never refuse the exact scan. -/
theorem searchExactPage_contract (scope : PublishedScope S) (backend : Option (VectorBackend S))
    (fence : OwnerFence) (request : VectorSearchRequest S) (budget : VectorSearchBudget) :
    (∀ page, searchExactPage scope backend fence request budget = .ok page →
      page.InOrder request budget ∧ fence.atEnd = true) ∧
    (scope.Admits request → checkScan budget.limit budget.maxVectors budget.batchSize = .ok () →
      Declines backend request budget → fence = ⟨true, true⟩ →
      searchExactPage scope backend fence request budget = .ok
        (plainPage scope budget.limit budget.maxVectors request.afterRefId
          request.evidenceMode)) := by
  constructor
  · intro page h
    simp only [searchExactPage, bind_eq_ok, need_eq_ok] at h
    obtain ⟨_, -, result, -, u, hvalid, _, hend, hpage⟩ := h
    rw [← Except.ok.inj hpage]
    exact ⟨(validateVectorPage_eq_ok.mp hvalid).1, hend⟩
  · rintro hscope hcheck hdeclines rfl
    exact searchExactPage_of_declines hscope hcheck hdeclines

end Dispatch

/-! ## A search -/

/-- A request of every passage. -/
def exampleRequest : VectorSearchRequest ℕ := ⟨['s'], 0, false, fun _ => true⟩

/-- A backend that always declines. -/
def exampleBackend : VectorBackend ℕ := fun _ _ => .ok (.unavailable ['i'] ['r'] true)

theorem searchExactPage_contract_example :
    searchExactPage exampleScope (some exampleBackend) ⟨true, true⟩ exampleRequest ⟨2, 3, 2⟩ =
      .ok (plainPage exampleScope 2 3 0 false) := by
  have hscope : exampleScope.Admits exampleRequest := by
    unfold PublishedScope.Admits
    decide
  have hdeclines : Declines (some exampleBackend) exampleRequest ⟨2, 3, 2⟩ := by
    rintro search ⟨⟩
    exact ⟨['i'], ['r'], by decide, by decide, rfl⟩
  exact (searchExactPage_contract exampleScope _ _ exampleRequest ⟨2, 3, 2⟩).2 hscope rfl hdeclines
    rfl

end Retrieval
end Neocortex
