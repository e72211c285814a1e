import Neocortex.Retrieval.NumericSearch
import Neocortex.Retrieval.VectorPages

/-!
# Searches over a prepared index

The adapter of `semantic/semantic_exact_index.py`: a handle over a sealed view answers a search with
the numeric fast path, or declines before it scans.  A handle that saw its artifact change is
invalid from then on.

What a search finds outside the handle, from the owner to the scorer, are its conditions.

* `tryExactIndexPage`: a search of a handle;
* `numericBatches_ok`: the test of the last batch is exact;
* `searchWithIndex_quiet`: without a change of the artifact a search returns the plain page;
* `runSearches_spec`: over a run of searches, one at most does not return the plain page.
-/

namespace Neocortex
namespace Retrieval

open Python Checks TopGroups Winners

section Handle

variable {S : Type}

/-! ## The handle -/

/-- `ExactIndexHandle`.  A view is prepared for the pair and the text scope of its owner, so that
every row of it is selected. -/
structure ExactIndexHandle (S : Type) where
  view : NumericView S
  closed : Bool := false
  invalid : Option Text := none
  used : ℕ := 0
  fallbacks : ℕ := 0
  scanned : ℕ := 0
  lastFallback : Option Text := none
  whole : ∀ a ∈ view.rows, view.selected a = true

/-- What a request asks for and the index was not prepared for. -/
inductive Mismatch where
  | modality
  | textScope
  | pairs
  | diagnostics

/-- The reason of a fallback. -/
def Mismatch.reason : Mismatch → Text
  | modality => "unsupported_modality".toList
  | textScope => "scope_mismatch".toList
  | pairs => "published_pairs_mismatch".toList
  | diagnostics => "target_diagnostics".toList

/-- What a search finds: the owner, whether it and the artifact are stable before the scan, what the
request asks for, the control of native threads, the scorer, and a change during the query. -/
structure IndexConditions (S : Type) where
  sameOwner : Bool
  unstable : Option Text
  mismatch : Option Mismatch
  threadControl : Bool
  refuses : List (SearchHit S) → Option Text
  changed : Bool
  unstable_ne : ∀ reason ∈ unstable, reason ≠ []

/-- A view whose batches are scored under some conditions. -/
def NumericView.scoredBy (view : NumericView S) (refuses : List (SearchHit S) → Option Text) :
    NumericView S := { view with refuses }

/-- `_fallback`. -/
def ExactIndexHandle.fallback (handle : ExactIndexHandle S) (reason : Text) : ExactIndexHandle S :=
  { handle with fallbacks := handle.fallbacks + 1, lastFallback := some reason }

/-- `handle._invalid = reason`. -/
def ExactIndexHandle.invalidate (handle : ExactIndexHandle S) (reason : Text) :
    ExactIndexHandle S :=
  { handle with invalid := some reason }

/-- The loop of `_remaining_rows`. -/
def searchRow (rows : List (SearchHit S)) (afterRefId : ℕ) : ℕ → ℕ → ℕ → ℕ
  | 0, low, _ => low
  | fuel + 1, low, high =>
    if low < high then
      let middle := (low + high) / 2
      if (rows[middle]?.any fun hit => hit.refId ≤ afterRefId) then
        searchRow rows afterRefId fuel (middle + 1) high
      else searchRow rows afterRefId fuel low middle
    else low

/-- `_remaining_rows`. -/
def NumericView.remainingRows (view : NumericView S) (afterRefId : ℕ) : ℕ :=
  view.rows.length - searchRow view.rows afterRefId view.rows.length 0 view.rows.length

/-- The reason to decline before the scan. -/
def ExactIndexHandle.declines (handle : ExactIndexHandle S) (conditions : IndexConditions S)
    (request : VectorSearchRequest S) (budget : VectorSearchBudget) : Option Text :=
  match conditions.mismatch with
  | some mismatch => some mismatch.reason
  | none =>
    let count := min budget.maxVectors (handle.view.remainingRows request.afterRefId)
    if ¬ (8 ≤ budget.batchSize ∧ budget.batchSize ≤ 512) then some "batch_not_numeric".toList
    else if count < 8 ∨ (0 < count % budget.batchSize ∧ count % budget.batchSize < 8) then
      some "scalar_page_or_tail".toList
    else if conditions.threadControl = false then
      some "native_thread_control_unavailable".toList
    else none

/-- The message of an `ExactIndexUnavailable` after the scan. -/
def indexChanged : Text := "exact index changed during query; no implicit retry".toList

variable [LinearOrder S]

/-- `_try_exact_index_page`. -/
def ExactIndexHandle.tryExactIndexPage (handle : ExactIndexHandle S)
    (conditions : IndexConditions S) (request : VectorSearchRequest S)
    (budget : VectorSearchBudget) :
    ExactIndexHandle S × Except Text (Option (ExactSearchPage S)) :=
  if handle.closed = true ∨ handle.invalid ≠ none then
    let reason := handle.invalid.getD []
    (handle.fallback (if reason = [] then "handle_closed".toList else reason), .ok none)
  else if conditions.sameOwner = false then
    (handle.fallback "different_owner".toList, .ok none)
  else
    match conditions.unstable with
    | some reason => ((handle.invalidate reason).fallback reason, .ok none)
    | none =>
      match handle.declines conditions request budget with
      | some reason => (handle.fallback reason, .ok none)
      | none =>
        match queryNumeric (handle.view.scoredBy conditions.refuses) budget.limit
            budget.maxVectors request.afterRefId budget.batchSize request.evidenceMode with
        | .error _ => (handle.invalidate "query_artifact_changed".toList, .error indexChanged)
        | .ok page =>
          if conditions.changed = true then
            (handle.invalidate "query_artifact_changed".toList, .error indexChanged)
          else
            ({ handle with used := handle.used + 1, scanned := handle.scanned + page.scanned },
              .ok (some page))

/-- `PersistedExactVectorSearch.search_page`. -/
def ExactIndexHandle.searchPage (handle : ExactIndexHandle S) (conditions : IndexConditions S) :
    VectorBackend S := fun request budget =>
  match handle.tryExactIndexPage conditions request budget with
  | (_, .error e) => .error e
  | (after, .ok none) =>
    .ok (.unavailable "persisted_exact".toList (after.lastFallback.getD "None".toList) true)
  | (_, .ok (some page)) =>
    .ok (.page ⟨page, "persisted_exact".toList, request.snapshotId, page.coverage⟩)

/-- A search with an index, of an owner that keeps its fence: the handle after it, and what it
returns. -/
def searchWithIndex (scope : PublishedScope S) (handle : ExactIndexHandle S)
    (conditions : IndexConditions S) (request : VectorSearchRequest S)
    (budget : VectorSearchBudget) : ExactIndexHandle S × Except Text (ExactSearchPage S) :=
  ((handle.tryExactIndexPage conditions request budget).1,
    searchExactPage scope (some (handle.searchPage conditions)) ⟨true, true⟩ request budget)

end Handle

section Rows

variable {S : Type}

/-! ## The rows behind a cursor -/

/-- In a sorted list, the rows up to a cursor are those before the first one behind it. -/
theorem any_refId {rows : List (SearchHit S)} (h : rows.Pairwise fun a b => a.refId < b.refId)
    {k i : ℕ} (hi : i < rows.length) :
    (rows[i]?.any fun hit => hit.refId ≤ k) = true ↔
      i < (rows.takeWhile fun hit => hit.refId ≤ k).length := by
  have hsplit : (rows.takeWhile fun hit => hit.refId ≤ k) ++
      (rows.dropWhile fun hit => hit.refId ≤ k) = rows := List.takeWhile_append_dropWhile
  have hget : rows[i]? = ((rows.takeWhile fun hit => hit.refId ≤ k) ++
      rows.dropWhile fun hit => hit.refId ≤ k)[i]? := by rw [hsplit]
  by_cases hfront : i < (rows.takeWhile fun hit => hit.refId ≤ k).length
  · refine iff_of_true ?_ hfront
    have hle := List.mem_takeWhile_imp (List.getElem_mem hfront)
    rw [hget, List.getElem?_append_left hfront, List.getElem?_eq_getElem hfront, Option.any_some]
    exact hle
  · refine iff_of_false ?_ hfront
    have hback : i - (rows.takeWhile fun hit => hit.refId ≤ k).length <
        (rows.dropWhile fun hit => hit.refId ≤ k).length := by
      have hlength := congrArg List.length hsplit
      rw [List.length_append] at hlength
      omega
    have hbehind : ∀ hit ∈ rows.dropWhile fun hit => hit.refId ≤ k, k < hit.refId := by
      intro hit hhit
      rw [dropWhile_refId h] at hhit
      exact of_decide_eq_true (List.mem_filter.mp hhit).2
    rw [hget, List.getElem?_append_right (not_lt.mp hfront), List.getElem?_eq_getElem hback,
      Option.any_some, decide_eq_true_eq]
    exact not_le.mpr (hbehind _ (List.getElem_mem hback))

/-- The search by halves finds the first row behind a cursor. -/
theorem searchRow_eq {rows : List (SearchHit S)} (h : rows.Pairwise fun a b => a.refId < b.refId)
    {k : ℕ} : ∀ {fuel low high : ℕ}, low ≤ (rows.takeWhile fun hit => hit.refId ≤ k).length →
      (rows.takeWhile fun hit => hit.refId ≤ k).length ≤ high → high ≤ rows.length →
      high - low ≤ fuel →
      searchRow rows k fuel low high = (rows.takeWhile fun hit => hit.refId ≤ k).length
  | 0, low, high, hlow, hhigh, _, hfuel => by
    rw [searchRow]
    omega
  | fuel + 1, low, high, hlow, hhigh, hlength, hfuel => by
    rw [searchRow]
    split_ifs with hlt
    · have hany := any_refId h (k := k) (i := (low + high) / 2) (by omega)
      dsimp only
      split_ifs with hfront
      · exact searchRow_eq h (hany.mp hfront) hhigh hlength (by omega)
      · have hback : ¬ (low + high) / 2 < (rows.takeWhile fun hit => hit.refId ≤ k).length :=
          fun hlt => hfront (hany.mpr hlt)
        exact searchRow_eq h hlow (by omega) (by omega) (by omega)
    · omega

theorem NumericView.remainingRows_eq (view : NumericView S) (k : ℕ) :
    view.remainingRows k = (view.rows.dropWhile fun hit => hit.refId ≤ k).length := by
  have hlength := congrArg List.length
    (List.takeWhile_append_dropWhile (p := fun hit => decide (hit.refId ≤ k)) (l := view.rows))
  rw [List.length_append] at hlength
  rw [NumericView.remainingRows, searchRow_eq view.sorted (Nat.zero_le _) (by omega) le_rfl
    (Nat.sub_le _ _)]
  omega

theorem declines_ne {handle : ExactIndexHandle S} {conditions : IndexConditions S}
    {request : VectorSearchRequest S} {budget : VectorSearchBudget} {reason : Text}
    (h : handle.declines conditions request budget = some reason) : reason ≠ [] := by
  unfold ExactIndexHandle.declines at h
  cases hmismatch : conditions.mismatch with
  | some mismatch =>
    rw [hmismatch] at h
    rw [← Option.some.inj h]
    cases mismatch <;> exact List.cons_ne_nil _ _
  | none =>
    rw [hmismatch] at h
    dsimp only at h
    split_ifs at h <;> rw [← Option.some.inj h] <;> exact List.cons_ne_nil _ _

theorem mismatch_of_declines {handle : ExactIndexHandle S} {conditions : IndexConditions S}
    {request : VectorSearchRequest S} {budget : VectorSearchBudget}
    (h : handle.declines conditions request budget = none) : conditions.mismatch = none := by
  unfold ExactIndexHandle.declines at h
  cases hmismatch : conditions.mismatch with
  | some mismatch =>
    rw [hmismatch] at h
    exact absurd h (Option.some_ne_none _)
  | none => rfl

end Rows

section Tail

variable {S κ : Type} [LinearOrder S] [DecidableEq κ]

/-! ## The test of the last batch -/

/-- When every row is selected and the scorer refuses no batch, the loop falls back at no batch: the
last one is as large as the rest of the count. -/
theorem numericBatches_ok {view : NumericView S} {code : SearchHit S → ℕ} {evidenceMode : Bool}
    {maxVectors batchSize : ℕ} (hbatch : 8 ≤ batchSize)
    (hrefuses : ∀ rows, view.refuses rows = none) :
    ∀ {fuel : ℕ} {rows : List (SearchHit S)} {s : NumericState S},
      (∀ a ∈ rows, view.selected a = true) →
      (0 < min (maxVectors - s.scanned) rows.length % batchSize →
        8 ≤ min (maxVectors - s.scanned) rows.length % batchSize) →
      ∃ s', numericBatches view code evidenceMode maxVectors batchSize fuel rows s = .ok s'
  | 0, rows, s, _, _ => ⟨s, rfl⟩
  | fuel + 1, rows, s, hall, htail => by
    have heligible : (rows.take batchSize).filter view.selected = rows.take batchSize := by
      rw [List.filter_eq_self]
      exact fun a ha => hall a (List.mem_of_mem_take ha)
    have hlength : (rows.take batchSize).length = min batchSize rows.length := List.length_take
    unfold numericBatches
    dsimp only
    rw [heligible]
    by_cases hempty : rows.take batchSize = []
    · rw [if_pos hempty]
      exact ⟨s, rfl⟩
    rw [if_neg hempty, if_neg hempty]
    by_cases hfull : maxVectors - s.scanned = 0
    · rw [if_pos hfull]
      exact ⟨_, rfl⟩
    rw [if_neg hfull]
    have hpos : 0 < (rows.take batchSize).length := List.length_pos_iff.mpr hempty
    have hbig : 8 ≤ ((rows.take batchSize).take (maxVectors - s.scanned)).length := by
      rw [List.length_take, hlength]
      by_cases hwhole : batchSize ≤ min (maxVectors - s.scanned) rows.length
      · omega
      · rw [Nat.mod_eq_of_lt (not_le.mp hwhole)] at htail
        omega
    have hscore : view.score ((rows.take batchSize).take (maxVectors - s.scanned)) = .ok () := by
      rw [NumericView.score, if_neg (not_lt.mpr hbig), hrefuses]
    rw [hscore, ok_bind]
    split_ifs with hlong
    · exact ⟨_, rfl⟩
    · refine numericBatches_ok hbatch hrefuses (fun a ha => hall a (List.mem_of_mem_drop ha)) ?_
      have hscanned : (enterBatch code evidenceMode s
          ((rows.take batchSize).take (maxVectors - s.scanned))).scanned =
          s.scanned + min batchSize rows.length := by
        rw [List.take_of_length_le (not_lt.mp hlong), ← hlength]
        rfl
      rw [hscanned, List.length_drop]
      by_cases hwhole : batchSize ≤ rows.length
      · have hcount : min (maxVectors - (s.scanned + min batchSize rows.length))
            (rows.length - batchSize) = min (maxVectors - s.scanned) rows.length - batchSize := by
          omega
        rw [hcount, ← Nat.mod_eq_sub_mod (by omega)]
        exact htail
      · have hcount : min (maxVectors - (s.scanned + min batchSize rows.length))
            (rows.length - batchSize) = 0 := by omega
        rw [hcount, Nat.zero_mod]
        exact fun hlt => absurd hlt (lt_irrefl 0)

end Tail

section Searches

variable {S : Type} [LinearOrder S]

/-- The fast path has a page when the tests before the scan pass and the scorer refuses no batch. -/
theorem queryNumeric_ok {view : NumericView S} {limit maxVectors afterRefId batchSize : ℕ}
    (evidenceMode : Bool) (hall : ∀ a ∈ view.rows, view.selected a = true)
    (hrefuses : ∀ rows, view.refuses rows = none)
    (hcheck : checkScan limit maxVectors batchSize = .ok ())
    (hbatch : 8 ≤ batchSize ∧ batchSize ≤ 512)
    (hcount : ¬ (min maxVectors (view.remainingRows afterRefId) < 8 ∨
      (0 < min maxVectors (view.remainingRows afterRefId) % batchSize ∧
        min maxVectors (view.remainingRows afterRefId) % batchSize < 8))) :
    ∃ page, queryNumeric view limit maxVectors afterRefId batchSize evidenceMode = .ok page := by
  rw [NumericView.remainingRows_eq, not_or, not_and, not_lt, not_lt] at hcount
  obtain ⟨hmany, htail⟩ := hcount
  have hgroups : ∀ (γ : Type) [DecidableEq γ] (group : SearchHit S → γ), ∃ page,
      queryGroups view group limit maxVectors afterRefId batchSize evidenceMode = .ok page := by
    intro γ _ group
    obtain ⟨s, hs⟩ : ∃ s, numericBatches view (view.code group) evidenceMode maxVectors batchSize
        (view.rows.dropWhile fun hit => hit.refId ≤ afterRefId).length
        (view.rows.dropWhile fun hit => hit.refId ≤ afterRefId) { lastRefId := afterRefId } =
          .ok s :=
      numericBatches_ok hbatch.1 hrefuses
        (fun a ha => hall a ((List.dropWhile_sublist _).mem ha)) htail
    rw [queryGroups, hs]
    exact ⟨_, rfl⟩
  have hbounds : checkNumeric maxVectors batchSize = .ok () := by
    rw [checkNumeric, if_neg (not_lt.mpr hbatch.2), if_neg]
    omega
  rw [queryNumeric, hcheck, ok_bind]
  split_ifs
  · exact ⟨_, rfl⟩
  · rw [hbounds, ok_bind]
    subst_vars
    exact hgroups _ SearchHit.evidence
  · rw [hbounds, ok_bind]
    have hmode : evidenceMode = false := by simpa using ‹¬ evidenceMode = true›
    subst hmode
    exact hgroups _ SearchHit.itemId

/-! ## What a search of a handle does -/

/-- The outcomes of a search of a handle. -/
inductive Tried (handle : ExactIndexHandle S) (conditions : IndexConditions S)
    (request : VectorSearchRequest S) (budget : VectorSearchBudget) :
    ExactIndexHandle S × Except Text (Option (ExactSearchPage S)) → Prop
  | declined {after : ExactIndexHandle S} {reason : Text} (hreason : reason ≠ [])
      (hlast : after.lastFallback = some reason) (hview : after.view = handle.view)
      (hinvalid : handle.invalid ≠ none → after.invalid ≠ none) :
      Tried handle conditions request budget (after, .ok none)
  | answered {after : ExactIndexHandle S} {page : ExactSearchPage S} (hopen : handle.invalid = none)
      (howner : conditions.sameOwner = true)
      (hdeclines : handle.declines conditions request budget = none)
      (hquery : queryNumeric (handle.view.scoredBy conditions.refuses) budget.limit
        budget.maxVectors request.afterRefId budget.batchSize request.evidenceMode = .ok page)
      (hview : after.view = handle.view) :
      Tried handle conditions request budget (after, .ok (some page))
  | failed {after : ExactIndexHandle S} (hopen : handle.invalid = none)
      (hdeclines : handle.declines conditions request budget = none)
      (hcause : conditions.changed = true ∨ ∃ e,
        queryNumeric (handle.view.scoredBy conditions.refuses) budget.limit
          budget.maxVectors request.afterRefId budget.batchSize request.evidenceMode = .error e)
      (hview : after.view = handle.view) (hafter : after.invalid ≠ none) :
      Tried handle conditions request budget (after, .error indexChanged)

theorem tryExactIndexPage_tried (handle : ExactIndexHandle S) (conditions : IndexConditions S)
    (request : VectorSearchRequest S) (budget : VectorSearchBudget) :
    Tried handle conditions request budget
      (handle.tryExactIndexPage conditions request budget) := by
  unfold ExactIndexHandle.tryExactIndexPage
  by_cases hclosed : handle.closed = true ∨ handle.invalid ≠ none
  · rw [if_pos hclosed]
    refine Tried.declined ?_ rfl rfl id
    split_ifs with hreason
    · exact List.cons_ne_nil _ _
    · exact hreason
  have hopen : handle.invalid = none := not_not.mp fun h => hclosed (Or.inr h)
  rw [if_neg hclosed]
  by_cases howner : conditions.sameOwner = false
  · rw [if_pos howner]
    exact Tried.declined (List.cons_ne_nil _ _) rfl rfl id
  rw [if_neg howner]
  cases hunstable : conditions.unstable with
  | some reason =>
    exact Tried.declined (conditions.unstable_ne reason hunstable) rfl rfl
      fun _ => Option.some_ne_none reason
  | none =>
    dsimp only
    cases hdeclines : handle.declines conditions request budget with
    | some reason => exact Tried.declined (declines_ne hdeclines) rfl rfl id
    | none =>
      dsimp only
      cases hquery : queryNumeric (handle.view.scoredBy conditions.refuses) budget.limit
          budget.maxVectors request.afterRefId budget.batchSize request.evidenceMode with
      | error e =>
        exact Tried.failed hopen hdeclines (Or.inr ⟨e, hquery⟩) rfl (Option.some_ne_none _)
      | ok page =>
        dsimp only
        split_ifs with hchanged
        · exact Tried.failed hopen hdeclines (Or.inl hchanged) rfl (Option.some_ne_none _)
        · rw [Bool.not_eq_false] at howner
          exact Tried.answered hopen howner hdeclines hquery rfl

/-! ## Searches with an index -/

theorem searchExactPage_of_page {scope : PublishedScope S} {backend : VectorBackend S}
    {request : VectorSearchRequest S} {budget : VectorSearchBudget} {result : VectorSearchPage S}
    (hcheck : checkScan budget.limit budget.maxVectors budget.batchSize = .ok ())
    (hbackend : backend request budget = .ok (.page result))
    (hvalid : validateVectorPage result request budget = .ok ()) :
    searchExactPage scope (some backend) ⟨true, true⟩ request budget = .ok result.page := by
  rw [searchExactPage, hcheck, ok_bind, answer, hbackend, ok_bind]
  show (validateVectorPage result request budget >>= _) = _
  rw [hvalid]
  rfl

/-- A search of an index, with what it finds. -/
structure IndexSearch (S : Type) where
  scope : PublishedScope S
  conditions : IndexConditions S
  request : VectorSearchRequest S
  budget : VectorSearchBudget

/-- The page of a search without an index. -/
def IndexSearch.plain (search : IndexSearch S) : ExactSearchPage S :=
  plainPage search.scope search.budget.limit search.budget.maxVectors search.request.afterRefId
    search.request.evidenceMode

/-- A search whose arguments are in their bounds, over a scope that is the one of the view unless
the request has another owner or another contract: the rows of a view are verified when a handle
is made. -/
structure IndexSearch.Verified (search : IndexSearch S) (view : NumericView S) : Prop where
  admits : search.scope.Admits search.request
  check : checkScan search.budget.limit search.budget.maxVectors search.budget.batchSize = .ok ()
  rows : search.conditions.sameOwner = true → search.conditions.mismatch = none →
    search.scope = view.scope

/-- A search on a handle. -/
def IndexSearch.run (search : IndexSearch S) (handle : ExactIndexHandle S) :
    ExactIndexHandle S × Except Text (ExactSearchPage S) :=
  searchWithIndex search.scope handle search.conditions search.request search.budget

/-- A search returns the plain page, or it fails at the scan and leaves an invalid handle. -/
theorem IndexSearch.run_spec {search : IndexSearch S} {handle : ExactIndexHandle S}
    (h : search.Verified handle.view) :
    (search.run handle).1.view = handle.view ∧
      (handle.invalid ≠ none → (search.run handle).1.invalid ≠ none) ∧
      ((search.run handle).2 = .ok search.plain ∨
        (search.run handle).2 = .error indexChanged ∧ handle.invalid = none ∧
          (search.run handle).1.invalid ≠ none ∧
          handle.declines search.conditions search.request search.budget = none ∧
          (search.conditions.changed = true ∨ ∃ e,
            queryNumeric (handle.view.scoredBy search.conditions.refuses) search.budget.limit
              search.budget.maxVectors search.request.afterRefId search.budget.batchSize
              search.request.evidenceMode = .error e)) := by
  have htried := tryExactIndexPage_tried handle search.conditions search.request search.budget
  unfold IndexSearch.run searchWithIndex
  generalize htry : handle.tryExactIndexPage search.conditions search.request search.budget = tried
  rw [htry] at htried
  cases htried with
  | @declined after reason hreason hlast hview hinvalid =>
    refine ⟨hview, hinvalid, Or.inl (searchExactPage_of_declines h.admits h.check ?_)⟩
    intro backend hbackend
    rw [← Option.some.inj hbackend]
    refine ⟨"persisted_exact".toList, reason, List.cons_ne_nil _ _, hreason, ?_⟩
    rw [ExactIndexHandle.searchPage, htry]
    dsimp only
    rw [hlast]
    rfl
  | @answered after page hopen howner hdeclines hquery hview =>
    refine ⟨hview, fun hinvalid => absurd hopen hinvalid, Or.inl ?_⟩
    obtain ⟨-, hpage⟩ := queryNumeric_page hquery
    have hscope := h.rows howner (mismatch_of_declines hdeclines)
    have hplain : page = search.plain := by
      rw [hpage, IndexSearch.plain, hscope]
      rfl
    have hbackend : handle.searchPage search.conditions search.request search.budget =
        .ok (.page ⟨page, "persisted_exact".toList, search.request.snapshotId, page.coverage⟩) := by
      rw [ExactIndexHandle.searchPage, htry]
    rw [← hplain]
    refine searchExactPage_of_page h.check hbackend (validateVectorPage_eq_ok.mpr ?_)
    refine ⟨?_, List.cons_ne_nil _ _, rfl, rfl⟩
    rw [hplain]
    exact plainPage_inOrder h.admits (checkScan_eq_ok h.check).2.1
  | @failed after hopen hdeclines hcause hview hafter =>
    refine ⟨hview, fun hinvalid => absurd hopen hinvalid, Or.inr ⟨?_, hopen, hafter, hdeclines,
      hcause⟩⟩
    have hbackend : handle.searchPage search.conditions search.request search.budget =
        .error indexChanged := by
      rw [ExactIndexHandle.searchPage, htry]
    dsimp only
    rw [searchExactPage, h.check, ok_bind, answer, hbackend]
    rfl

/-- Without a change of the artifact, and with a scorer that scores every batch, a search on a
handle in any state returns the plain page: the tests before the scan leave nothing to fall back
from. -/
theorem searchWithIndex_quiet (search : IndexSearch S) (handle : ExactIndexHandle S)
    (h : search.Verified handle.view) (hchanged : search.conditions.changed = false)
    (hrefuses : ∀ rows, search.conditions.refuses rows = none) :
    (search.run handle).2 = .ok search.plain := by
  obtain ⟨-, -, hplain | ⟨-, -, -, hdeclines, hcause⟩⟩ := IndexSearch.run_spec h
  · exact hplain
  obtain ⟨page, hpage⟩ : ∃ page, queryNumeric (handle.view.scoredBy search.conditions.refuses)
      search.budget.limit search.budget.maxVectors search.request.afterRefId
      search.budget.batchSize search.request.evidenceMode = .ok page := by
    have hmismatch := mismatch_of_declines hdeclines
    unfold ExactIndexHandle.declines at hdeclines
    rw [hmismatch] at hdeclines
    dsimp only at hdeclines
    split_ifs at hdeclines with hbatch hcount
    exact queryNumeric_ok _ handle.whole hrefuses h.check hbatch hcount
  rcases hcause with hcause | ⟨e, he⟩
  · rw [hchanged] at hcause
    exact absurd hcause Bool.false_ne_true
  · rw [hpage] at he
    exact absurd he (by simp)

/-! ## Runs -/

/-- What the searches on a handle return, one after another. -/
def runSearches (handle : ExactIndexHandle S) :
    List (IndexSearch S) → List (Except Text (ExactSearchPage S))
  | [] => []
  | search :: searches =>
    (search.run handle).2 :: runSearches (search.run handle).1 searches

/-- An invalid handle fails no search. -/
theorem runSearches_invalid : ∀ {searches : List (IndexSearch S)} {handle : ExactIndexHandle S},
    handle.invalid ≠ none → (∀ search ∈ searches, search.Verified handle.view) →
      runSearches handle searches = searches.map fun search => .ok search.plain
  | [], _, _, _ => rfl
  | search :: searches, handle, hinvalid, h => by
    obtain ⟨hview, hkeeps, hplain⟩ := IndexSearch.run_spec (h search List.mem_cons_self)
    have hrest := runSearches_invalid (hkeeps hinvalid) fun next hnext =>
      hview ▸ h next (List.mem_cons_of_mem _ hnext)
    rw [runSearches, hrest, List.map_cons]
    rcases hplain with hplain | ⟨-, hopen, -⟩
    · rw [hplain]
    · exact absurd hopen hinvalid

/-- Over a run of searches on one handle, whatever each of them finds, every search returns the
plain page, but for one at most, which raises. -/
theorem runSearches_spec (handle : ExactIndexHandle S) (searches : List (IndexSearch S))
    (h : ∀ search ∈ searches, search.Verified handle.view) :
    List.Forall₂ (fun search result => result = .ok search.plain ∨ result = .error indexChanged)
      searches (runSearches handle searches) ∧
    (runSearches handle searches).countP (fun result => result.toOption.isNone) ≤ 1 := by
  induction searches generalizing handle with
  | nil => exact ⟨List.Forall₂.nil, Nat.zero_le 1⟩
  | cons search searches ih =>
    obtain ⟨hview, -, hplain⟩ := IndexSearch.run_spec (h search List.mem_cons_self)
    have hrest : ∀ next ∈ searches, next.Verified (search.run handle).1.view := fun next hnext =>
      hview ▸ h next (List.mem_cons_of_mem _ hnext)
    obtain ⟨hall, hcount⟩ := ih (search.run handle).1 hrest
    rw [runSearches]
    rcases hplain with hplain | ⟨hfailed, -, hinvalid, -⟩
    · refine ⟨List.Forall₂.cons (Or.inl hplain) hall, ?_⟩
      rw [hplain, List.countP_cons_of_neg]
      · exact hcount
      · exact Bool.false_ne_true
    · refine ⟨List.Forall₂.cons (Or.inr hfailed) hall, ?_⟩
      have hnone : (runSearches (search.run handle).1 searches).countP
          (fun result => result.toOption.isNone) = 0 := by
        rw [runSearches_invalid hinvalid hrest, List.countP_map, List.countP_eq_zero]
        exact fun _ _ => Bool.false_ne_true
      rw [List.countP_cons, hnone]
      split_ifs
      · exact le_rfl
      · exact Nat.zero_le 1

end Searches

/-! ## A run -/

/-- A handle over eight passages. -/
def exampleHandle : ExactIndexHandle ℕ where
  view := exampleView
  whole _ _ := rfl

/-- A search that finds everything in order, or a change during the query. -/
def exampleSearch (changed : Bool) : IndexSearch ℕ where
  scope := exampleView.scope
  conditions := ⟨true, none, none, true, fun _ => none, changed, fun _ h => absurd h.symm
    (Option.some_ne_none _)⟩
  request := exampleRequest
  budget := ⟨1, 8, 8⟩

theorem exampleSearch_verified (changed : Bool) : (exampleSearch changed).Verified exampleView where
  admits := by
    change exampleView.scope.Admits exampleRequest
    unfold PublishedScope.Admits
    decide
  check := rfl
  rows _ _ := rfl

theorem searchWithIndex_quiet_example :
    ((exampleSearch false).run exampleHandle).2 = .ok (exampleSearch false).plain :=
  searchWithIndex_quiet _ exampleHandle (exampleSearch_verified false) rfl fun _ => rfl

theorem runSearches_spec_example :
    List.Forall₂ (fun search result => result = .ok search.plain ∨ result = .error indexChanged)
      [exampleSearch true, exampleSearch false]
      (runSearches exampleHandle [exampleSearch true, exampleSearch false]) ∧
    (runSearches exampleHandle [exampleSearch true, exampleSearch false]).countP
      (fun result => result.toOption.isNone) ≤ 1 := by
  refine runSearches_spec exampleHandle _ fun search hsearch => ?_
  rcases List.mem_pair.mp hsearch with rfl | rfl
  · exact exampleSearch_verified true
  · exact exampleSearch_verified false

end Retrieval
end Neocortex
