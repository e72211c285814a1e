import Neocortex.Library.Checks
import Neocortex.Library.TopGroups
import Neocortex.Python.Text

/-!
# Exact search

The exact scan of `semantic/semantic_search_repository.py`: the published vectors are read in
batches in the order of their members, and the best hit of each item, or of each passage, is
retained.

A score is an element of a linear order: what the scorer gives a vector.  The rows that the query
selects are a `PublishedScope`, each with its score.

* `scanExactPage`: a page of a scan;
* `scanExactPage_plain`: a page is the plain one, for every size of a batch;
* `searchPages_cover`: the pages that follow a cursor.
-/

namespace Neocortex
namespace Retrieval

open Python Checks TopGroups

/-! ## Hits -/

/-- `SearchHit`, without what it copies from the query and its provenance. -/
structure SearchHit (S : Type) where
  refId : ℕ
  entityId : Text
  itemId : Text
  indexedModelSignature : Text
  score : S
  generationId : ℕ
  deriving DecidableEq

/-- `ExactSearchOrder`. -/
abbrev ExactSearchOrder (S : Type) := Sᵒᵈ ×ₗ Text ×ₗ Text ×ₗ Text ×ₗ ℕᵒᵈ

/-- `exact_search_order`: smaller orders are better hits. -/
def exactSearchOrder {S : Type} (hit : SearchHit S) : ExactSearchOrder S :=
  toLex (OrderDual.toDual hit.score, toLex (hit.itemId, toLex (hit.entityId,
    toLex (hit.indexedModelSignature, OrderDual.toDual hit.refId))))

/-- Hits of one order are of one member. -/
theorem refId_of_order {S : Type} {a b : SearchHit S} (h : exactSearchOrder a = exactSearchOrder b) :
    a.refId = b.refId := by
  have h := toLex.injective h
  have h := toLex.injective (Prod.mk.inj h).2
  have h := toLex.injective (Prod.mk.inj h).2
  have h := toLex.injective (Prod.mk.inj h).2
  exact OrderDual.toDual.injective (Prod.mk.inj h).2

/-- The rows that the query of a search selects, in the order of their members. -/
structure PublishedScope (S : Type) where
  rows : List (SearchHit S)
  sorted : rows.Pairwise fun a b => a.refId < b.refId

/-- `ExactSearchPage`. -/
@[ext] structure ExactSearchPage (S : Type) where
  hits : List (SearchHit S)
  scanned : ℕ
  nextCursor : Option ℕ
  complete : Bool

section Search

variable {S : Type} [LinearOrder S]

/-! ## Retention -/

/-- The size from which on a heap is made again. -/
def heapBound (limit : ℕ) : ℕ := max (limit * 2) (limit + 64)

/-- The retention of a hit by a group. -/
def retainHit {γ : Type} [DecidableEq γ] (group : SearchHit S → γ) (empty : Text) (limit : ℕ)
    (s : Retained (SearchHit S)) (hit : SearchHit S) : Except Text (Retained (SearchHit S)) :=
  match retain group exactSearchOrder limit (heapBound limit) s hit with
  | some s => .ok s
  | none => .error empty

/-- `_retain_exact_search_hit`. -/
def retainExactSearchHit : ℕ → Retained (SearchHit S) → SearchHit S →
    Except Text (Retained (SearchHit S)) :=
  retainHit SearchHit.itemId "exact-search item heap became empty".toList

/-- The key of `_retain_exact_evidence_hit`. -/
def SearchHit.evidence (hit : SearchHit S) : Text × Text := (hit.itemId, hit.entityId)

/-- `_retain_exact_evidence_hit`. -/
def retainExactEvidenceHit : ℕ → Retained (SearchHit S) → SearchHit S →
    Except Text (Retained (SearchHit S)) :=
  retainHit SearchHit.evidence "exact-search evidence heap became empty".toList

/-! ## The scan -/

/-- The variables of the loop of `_scan_exact_page`. -/
structure ScanState (S : Type) where
  retained : Retained (SearchHit S) := {}
  scanned : ℕ := 0
  lastRefId : ℕ
  hasMore : Bool := false

/-- The body of the loop over the hits of a batch. -/
def scanHit (retainHit : Retained (SearchHit S) → SearchHit S → Except Text (Retained (SearchHit S)))
    (s : ScanState S) (hit : SearchHit S) : Except Text (ScanState S) := do
  let retained ← retainHit s.retained hit
  .ok { s with retained, scanned := s.scanned + 1, lastRefId := hit.refId }

/-- The loop over the batches that the cursor yields; each has a row. -/
def scanBatches
    (retainHit : Retained (SearchHit S) → SearchHit S → Except Text (Retained (SearchHit S)))
    (maxVectors batchSize : ℕ) : ℕ → List (SearchHit S) → ScanState S → Except Text (ScanState S)
  | 0, _, s => .ok s
  | fuel + 1, rows, s =>
    let batch := rows.take batchSize
    if batch = [] then .ok s
    else
      let remaining := maxVectors - s.scanned
      if remaining = 0 then .ok { s with hasMore := true }
      else do
        let s ← (batch.take remaining).foldlM (scanHit retainHit) s
        if remaining < batch.length then .ok { s with hasMore := true }
        else scanBatches retainHit maxVectors batchSize fuel (rows.drop batchSize) s

/-- The checks of the arguments of a scan. -/
def checkScan (limit maxVectors batchSize : ℕ) : Except Text Unit :=
  if ¬ (1 ≤ limit ∧ limit ≤ 10000) then .error "limit must be between 1 and 10000".toList
  else if ¬ (1 ≤ maxVectors ∧ maxVectors ≤ 10000000) then
    .error "max_vectors must be between 1 and 10000000".toList
  else if ¬ (1 ≤ batchSize ∧ batchSize ≤ 10000) then
    .error "batch_size must be between 1 and 10000".toList
  else .ok ()

/-- `_scan_exact_page`. -/
def scanExactPage (scope : PublishedScope S) (limit maxVectors afterRefId batchSize : ℕ)
    (evidenceMode : Bool) : Except Text (ExactSearchPage S) := do
  checkScan limit maxVectors batchSize
  let rows := (scope.rows.filter fun hit => afterRefId < hit.refId).take (maxVectors + 1)
  let s ← scanBatches
    (if evidenceMode then retainExactEvidenceHit limit else retainExactSearchHit limit)
    maxVectors batchSize rows.length rows { lastRefId := afterRefId }
  .ok
    { hits := s.retained.best.insertionSort fun a b => exactSearchOrder a ≤ exactSearchOrder b
      scanned := s.scanned
      nextCursor := if s.hasMore then some s.lastRefId else none
      complete := !s.hasMore }

/-- The searches that follow the cursor of a page. -/
def searchPages (scope : PublishedScope S) (limit maxVectors batchSize : ℕ) (evidenceMode : Bool) :
    ℕ → ℕ → Except Text (List (ExactSearchPage S))
  | 0, _ => .ok []
  | fuel + 1, afterRefId => do
    let page ← scanExactPage scope limit maxVectors afterRefId batchSize evidenceMode
    match page.nextCursor with
    | none => .ok [page]
    | some cursor => do
      let pages ← searchPages scope limit maxVectors batchSize evidenceMode fuel cursor
      .ok (page :: pages)

/-! ## The plain page -/

/-- The best hits of some rows. -/
def topHits (evidenceMode : Bool) (limit : ℕ) (rows : List (SearchHit S)) : List (SearchHit S) :=
  if evidenceMode then topGroups SearchHit.evidence exactSearchOrder limit rows
  else topGroups SearchHit.itemId exactSearchOrder limit rows

/-- The rows after a cursor. -/
def PublishedScope.after (scope : PublishedScope S) (afterRefId : ℕ) : List (SearchHit S) :=
  scope.rows.filter fun hit => afterRefId < hit.refId

/-- A page without batches and heaps. -/
def plainPage (scope : PublishedScope S) (limit maxVectors afterRefId : ℕ) (evidenceMode : Bool) :
    ExactSearchPage S where
  hits := topHits evidenceMode limit ((scope.after afterRefId).take maxVectors)
  scanned := ((scope.after afterRefId).take maxVectors).length
  nextCursor :=
    if (scope.after afterRefId).length ≤ maxVectors then none
    else (((scope.after afterRefId).take maxVectors).getLast?).map SearchHit.refId
  complete := (scope.after afterRefId).length ≤ maxVectors

end Search

section Batches

variable {S : Type}

/-! ## The batches -/

theorem foldlM_scanHit
    {retainHit : Retained (SearchHit S) → SearchHit S → Except Text (Retained (SearchHit S))} :
    ∀ {rows : List (SearchHit S)} {s : ScanState S} {t : Retained (SearchHit S)},
      rows.foldlM retainHit s.retained = .ok t →
      rows.foldlM (scanHit retainHit) s = .ok
        { s with
          retained := t
          scanned := s.scanned + rows.length
          lastRefId := (rows.getLast?.map SearchHit.refId).getD s.lastRefId }
  | [], s, t, h => by
    rw [List.foldlM_nil, pure_eq_ok] at h
    rw [← h]
    rfl
  | hit :: rows, s, t, h => by
    rw [List.foldlM_cons, bind_eq_ok] at h
    obtain ⟨middle, hfirst, hrest⟩ := h
    have hstep : scanHit retainHit s hit = .ok
        { s with retained := middle, scanned := s.scanned + 1, lastRefId := hit.refId } := by
      unfold scanHit
      rw [hfirst]
      rfl
    rw [List.foldlM_cons, hstep, ok_bind, foldlM_scanHit hrest]
    have hlast : (rows.getLast?.map SearchHit.refId).getD hit.refId =
        ((hit :: rows).getLast?.map SearchHit.refId).getD s.lastRefId := by
      rw [List.getLast?_cons]
      cases rows.getLast? <;> rfl
    dsimp only
    rw [hlast, List.length_cons, Nat.add_assoc, Nat.add_comm 1]

theorem take_split {α : Type} (l : List α) {n m : ℕ} (h : (l.take n).length ≤ m) :
    l.take m = l.take n ++ (l.drop n).take (m - (l.take n).length) := by
  conv_lhs => rw [← List.take_append_drop n l]
  rw [List.take_append, List.take_of_length_le h]

/-- The loop retains the rows that fit, whatever the size of a batch. -/
theorem scanBatches_eq
    {retainHit : Retained (SearchHit S) → SearchHit S → Except Text (Retained (SearchHit S))}
    {maxVectors batchSize : ℕ} (hbatch : 0 < batchSize) :
    ∀ {fuel : ℕ} {rows : List (SearchHit S)} {s : ScanState S} {t : Retained (SearchHit S)},
      rows.length ≤ fuel → s.hasMore = false →
      (rows.take (maxVectors - s.scanned)).foldlM retainHit s.retained = .ok t →
      scanBatches retainHit maxVectors batchSize fuel rows s = .ok
        { retained := t
          scanned := s.scanned + (rows.take (maxVectors - s.scanned)).length
          lastRefId :=
            (((rows.take (maxVectors - s.scanned)).getLast?).map SearchHit.refId).getD s.lastRefId
          hasMore := decide (maxVectors - s.scanned < rows.length) }
  | 0, rows, s, t, hfuel, hmore, h => by
    obtain rfl := List.length_eq_zero_iff.mp (Nat.le_zero.mp hfuel)
    rw [List.take_nil, List.foldlM_nil, pure_eq_ok] at h
    rw [← h]
    simp [scanBatches, ← hmore]
  | fuel + 1, rows, s, t, hfuel, hmore, h => by
    unfold scanBatches
    dsimp only
    split_ifs with hempty hfull hlong
    · have hnil : rows = [] := by
        rcases List.take_eq_nil_iff.mp hempty with hzero | hnil
        · exact absurd hzero hbatch.ne'
        · exact hnil
      subst hnil
      rw [List.take_nil, List.foldlM_nil, pure_eq_ok] at h
      rw [← h]
      simp [← hmore]
    · rw [hfull, List.take_zero, List.foldlM_nil, pure_eq_ok] at h
      have hne : rows ≠ [] := by
        rintro rfl
        exact hempty List.take_nil
      rw [← h, hfull]
      simp [List.length_pos_iff.mpr hne]
    · -- the batch has a row for which there is no room
      have hlength : (rows.take batchSize).length = min batchSize rows.length := List.length_take
      have htake : (rows.take batchSize).take (maxVectors - s.scanned) =
          rows.take (maxVectors - s.scanned) := by
        rw [List.take_take, min_eq_left (by omega)]
      rw [htake, foldlM_scanHit h, ok_bind]
      have hrows : maxVectors - s.scanned < rows.length := by omega
      simp [hrows]
    · have hle : (rows.take batchSize).length ≤ maxVectors - s.scanned := not_lt.mp hlong
      have hlength : (rows.take batchSize).length = min batchSize rows.length := List.length_take
      have hpos : 0 < (rows.take batchSize).length := List.length_pos_iff.mpr hempty
      have hsplit := take_split rows hle
      rw [hsplit, List.foldlM_append, bind_eq_ok] at h
      obtain ⟨middle, hfirst, hrest⟩ := h
      rw [List.take_of_length_le hle, foldlM_scanHit hfirst, ok_bind]
      have hroom : maxVectors - s.scanned - (rows.take batchSize).length =
          maxVectors - (s.scanned + (rows.take batchSize).length) := by omega
      rw [hroom] at hrest hsplit
      have hrun : scanBatches retainHit maxVectors batchSize fuel (rows.drop batchSize)
          { s with
            retained := middle
            scanned := s.scanned + (rows.take batchSize).length
            lastRefId := ((rows.take batchSize).getLast?.map SearchHit.refId).getD s.lastRefId } =
          _ := scanBatches_eq hbatch (by rw [List.length_drop]; omega) hmore hrest
      rw [hrun, hsplit, List.length_append, List.getLast?_append]
      have hlast : ∀ x y : Option (SearchHit S), (x.map SearchHit.refId).getD
          ((y.map SearchHit.refId).getD s.lastRefId) =
          ((x.or y).map SearchHit.refId).getD s.lastRefId := by
        intro x y
        cases x <;> rfl
      dsimp only
      have hmore' : (maxVectors - (s.scanned + (rows.take batchSize).length) <
          (rows.drop batchSize).length) ↔ maxVectors - s.scanned < rows.length := by
        rw [List.length_drop]
        omega
      rw [hlast, Nat.add_assoc]
      simp only [hmore']

theorem nodup_orders {rows : List (SearchHit S)} (h : rows.Pairwise fun a b => a.refId < b.refId) :
    (rows.map exactSearchOrder).Nodup := by
  rw [List.Nodup, List.pairwise_map]
  exact h.imp fun hlt heq => hlt.ne (refId_of_order heq)

theorem sorted_after (scope : PublishedScope S) (afterRefId : ℕ) :
    (scope.after afterRefId).Pairwise fun a b => a.refId < b.refId :=
  scope.sorted.sublist List.filter_sublist

theorem checkScan_eq_ok {limit maxVectors batchSize : ℕ}
    (h : checkScan limit maxVectors batchSize = .ok ()) :
    0 < limit ∧ 0 < maxVectors ∧ 0 < batchSize := by
  unfold checkScan at h
  split_ifs at h with hlimit hvectors hbatch
  omega

/-- The rows after the last row of a page are those that the page left. -/
theorem after_last {scope : PublishedScope S} {afterRefId maxVectors : ℕ} {last : SearchHit S}
    (h : ((scope.after afterRefId).take maxVectors).getLast? = some last) :
    scope.after last.refId = (scope.after afterRefId).drop maxVectors := by
  obtain ⟨front, hfront⟩ := List.getLast?_eq_some_iff.mp h
  have hsplit : scope.after afterRefId =
      front ++ [last] ++ (scope.after afterRefId).drop maxVectors := by
    rw [← hfront, List.take_append_drop]
  have hsorted := sorted_after scope afterRefId
  rw [hsplit, List.pairwise_append, List.pairwise_append] at hsorted
  obtain ⟨⟨-, -, hbefore⟩, -, hafter⟩ := hsorted
  have hlast : afterRefId < last.refId := by
    have hmem : last ∈ scope.after afterRefId := List.mem_of_mem_take (List.mem_of_getLast? h)
    exact of_decide_eq_true (List.mem_filter.mp hmem).2
  have hfilter : scope.after last.refId =
      (scope.after afterRefId).filter fun hit => last.refId < hit.refId := by
    rw [PublishedScope.after, PublishedScope.after, List.filter_filter]
    refine List.filter_congr fun hit _ => ?_
    rw [← Bool.decide_and, decide_eq_decide]
    exact ⟨fun hlt => ⟨hlt, hlast.trans hlt⟩, And.left⟩
  have hnone : (front ++ [last]).filter (fun hit => last.refId < hit.refId) = [] := by
    refine List.filter_eq_nil_iff.mpr fun hit hhit => ?_
    rw [decide_eq_true_eq, not_lt]
    rcases List.mem_append.mp hhit with hhit | hhit
    · exact (hbefore hit hhit last (by simp)).le
    · rw [List.mem_singleton.mp hhit]
  have hall : ((scope.after afterRefId).drop maxVectors).filter
      (fun hit => last.refId < hit.refId) = (scope.after afterRefId).drop maxVectors := by
    refine List.filter_eq_self.mpr fun hit hhit => decide_eq_true ?_
    exact hafter last (by simp) hit hhit
  rw [hfilter, hsplit, List.filter_append, hnone, List.nil_append, ← hsplit, hall]

end Batches

section Pages

variable {S : Type} [LinearOrder S]

/-! ## The top of the rows -/

/-- The retention of some rows does not fail, and keeps the best of them. -/
theorem foldlM_retainHit {γ : Type} [DecidableEq γ] (group : SearchHit S → γ) (empty : Text)
    {limit : ℕ} (hlimit : 0 < limit) {rows : List (SearchHit S)}
    (hrows : rows.Pairwise fun a b => a.refId < b.refId) :
    ∃ s, rows.foldlM (retainHit group empty limit) {} = .ok s ∧
      (s.best.insertionSort fun a b => exactSearchOrder a ≤ exactSearchOrder b) =
        topGroups group exactSearchOrder limit rows := by
  obtain ⟨s, hs, hholds⟩ : ∃ s, rows.foldlM
      (retain group exactSearchOrder limit (heapBound limit)) {} = some s ∧
      Holds group exactSearchOrder limit rows s :=
    foldlM_retain hlimit (heapBound limit) rows (nodup_orders hrows)
  refine ⟨s, ?_, hholds.sorted_best (nodup_orders hrows)⟩
  have hfold : ∀ (l : List (SearchHit S)) (t t' : Retained (SearchHit S)),
      l.foldlM (retain group exactSearchOrder limit (heapBound limit)) t = some t' →
      l.foldlM (retainHit group empty limit) t = .ok t' := by
    intro l
    induction l with
    | nil =>
      intro t t' h
      rw [List.foldlM_nil, pure_eq_some] at h
      rw [List.foldlM_nil, pure_eq_ok]
      exact h
    | cons hit l ih =>
      intro t t' h
      rw [List.foldlM_cons, bind_eq_some] at h
      obtain ⟨middle, hfirst, hrest⟩ := h
      rw [List.foldlM_cons, bind_eq_ok]
      refine ⟨middle, ?_, ih middle t' hrest⟩
      rw [retainHit, hfirst]
  exact hfold rows {} s hs

/-! ## Pages -/

theorem foldlM_retain_rows (evidenceMode : Bool) {limit : ℕ} (hlimit : 0 < limit)
    {rows : List (SearchHit S)} (hrows : rows.Pairwise fun a b => a.refId < b.refId) :
    ∃ s, rows.foldlM (if evidenceMode then retainExactEvidenceHit limit
        else retainExactSearchHit limit) {} = .ok s ∧
      (s.best.insertionSort fun a b => exactSearchOrder a ≤ exactSearchOrder b) =
        topHits evidenceMode limit rows := by
  cases evidenceMode with
  | true => exact foldlM_retainHit SearchHit.evidence _ hlimit hrows
  | false => exact foldlM_retainHit SearchHit.itemId _ hlimit hrows

/-- The scan and its heap retain the best hits of the rows that fit, whatever the size of a batch,
and neither of the two errors of the heap is raised. -/
theorem scanExactPage_eq_ok (scope : PublishedScope S) {limit maxVectors batchSize : ℕ}
    (afterRefId : ℕ) (evidenceMode : Bool) (hcheck : checkScan limit maxVectors batchSize = .ok ()) :
    scanExactPage scope limit maxVectors afterRefId batchSize evidenceMode =
      .ok (plainPage scope limit maxVectors afterRefId evidenceMode) := by
  unfold scanExactPage
  rw [hcheck]
  obtain ⟨hlimit, hvectors, hbatch⟩ := checkScan_eq_ok hcheck
  have hsorted : ((scope.after afterRefId).take maxVectors).Pairwise
      fun a b => a.refId < b.refId :=
    (sorted_after scope afterRefId).sublist (List.take_sublist _ _)
  obtain ⟨t, ht, htop⟩ := foldlM_retain_rows evidenceMode hlimit hsorted
  have htake : ((scope.after afterRefId).take (maxVectors + 1)).take (maxVectors - 0) =
      (scope.after afterRefId).take maxVectors := by
    rw [List.take_take, Nat.sub_zero, min_eq_left (Nat.le_succ _)]
  rw [← htake] at ht
  have hrun : scanBatches (if evidenceMode then retainExactEvidenceHit limit
      else retainExactSearchHit limit) maxVectors batchSize
      ((scope.after afterRefId).take (maxVectors + 1)).length
      ((scope.after afterRefId).take (maxVectors + 1)) { lastRefId := afterRefId } = _ :=
    scanBatches_eq hbatch le_rfl rfl ht
  rw [htake] at hrun
  have hmore : maxVectors - 0 < ((scope.after afterRefId).take (maxVectors + 1)).length ↔
      ¬ (scope.after afterRefId).length ≤ maxVectors := by
    rw [List.length_take]
    omega
  have hlast : ¬ (scope.after afterRefId).length ≤ maxVectors →
      some ((((scope.after afterRefId).take maxVectors).getLast?.map SearchHit.refId).getD
        afterRefId) = ((scope.after afterRefId).take maxVectors).getLast?.map SearchHit.refId := by
    intro hlong
    cases hget : ((scope.after afterRefId).take maxVectors).getLast? with
    | some hit => rfl
    | none =>
      have hnil := List.getLast?_eq_none_iff.mp hget
      have hlength := congrArg List.length hnil
      rw [List.length_take, List.length_nil] at hlength
      omega
  show (scanBatches _ _ _ _ _ _ >>= _) = Except.ok (plainPage _ _ _ _ _)
  unfold PublishedScope.after at hrun
  rw [hrun, ok_bind]
  refine congrArg Except.ok (ExactSearchPage.ext htop (Nat.zero_add _) ?_ ?_)
  · by_cases hlong : (scope.after afterRefId).length ≤ maxVectors
    · have hmore' := (not_congr hmore).mpr (not_not.mpr hlong)
      simp only [plainPage]
      rw [if_pos hlong, if_neg]
      rw [decide_eq_true_eq]
      exact hmore'
    · simp only [plainPage]
      rw [if_neg hlong, if_pos]
      · exact hlast hlong
      · exact decide_eq_true (hmore.mpr hlong)
  · simp only [plainPage]
    rw [← decide_not]
    exact decide_eq_decide.mpr ((not_congr hmore).trans not_not)

/-- A page is the plain one, for every size of a batch. -/
theorem scanExactPage_plain (scope : PublishedScope S)
    (limit maxVectors afterRefId batchSize : ℕ) (evidenceMode : Bool) :
    scanExactPage scope limit maxVectors afterRefId batchSize evidenceMode =
      (checkScan limit maxVectors batchSize).map fun _ =>
        plainPage scope limit maxVectors afterRefId evidenceMode := by
  cases hcheck : checkScan limit maxVectors batchSize with
  | error e =>
    unfold scanExactPage
    rw [hcheck]
    rfl
  | ok u => exact scanExactPage_eq_ok scope afterRefId evidenceMode hcheck

/-! ## Following the cursor -/

/-- What is on top of some rows is on top of a part of them. -/
theorem mem_topHits_of_subset {evidenceMode : Bool} {limit : ℕ} {rows part : List (SearchHit S)}
    (hrows : rows.Pairwise fun a b => a.refId < b.refId)
    (hpart : part.Pairwise fun a b => a.refId < b.refId) (hsub : ∀ a ∈ part, a ∈ rows)
    {hit : SearchHit S} (htop : hit ∈ topHits evidenceMode limit rows) (hmem : hit ∈ part) :
    hit ∈ topHits evidenceMode limit part := by
  cases evidenceMode with
  | true => exact mem_topGroups_of_subset (nodup_orders hrows) (nodup_orders hpart) hsub htop hmem
  | false => exact mem_topGroups_of_subset (nodup_orders hrows) (nodup_orders hpart) hsub htop hmem

theorem mem_of_mem_topHits {evidenceMode : Bool} {limit : ℕ} {rows : List (SearchHit S)}
    (hrows : rows.Pairwise fun a b => a.refId < b.refId) {hit : SearchHit S}
    (htop : hit ∈ topHits evidenceMode limit rows) : hit ∈ rows := by
  cases evidenceMode with
  | true => exact (mem_representatives.mp ((mem_topGroups_iff (nodup_orders hrows)).mp htop).1).1
  | false => exact (mem_representatives.mp ((mem_topGroups_iff (nodup_orders hrows)).mp htop).1).1

theorem searchPages_of_fuel (scope : PublishedScope S) {limit maxVectors batchSize : ℕ}
    (evidenceMode : Bool) (hcheck : checkScan limit maxVectors batchSize = .ok ()) :
    ∀ {fuel afterRefId : ℕ}, (scope.after afterRefId).length < fuel →
      ∃ pages, searchPages scope limit maxVectors batchSize evidenceMode fuel afterRefId =
          .ok pages ∧
        (pages.map ExactSearchPage.scanned).sum = (scope.after afterRefId).length ∧
        ∀ hit ∈ topHits evidenceMode limit (scope.after afterRefId),
          ∃ page ∈ pages, hit ∈ page.hits
  | fuel + 1, afterRefId, hfuel => by
    obtain ⟨-, hvectors, -⟩ := checkScan_eq_ok hcheck
    have hsorted := sorted_after scope afterRefId
    unfold searchPages
    rw [scanExactPage_eq_ok scope afterRefId evidenceMode hcheck, ok_bind]
    by_cases hlong : (scope.after afterRefId).length ≤ maxVectors
    · have hcursor : (plainPage scope limit maxVectors afterRefId evidenceMode).nextCursor = none :=
        if_pos hlong
      have hall : (scope.after afterRefId).take maxVectors = scope.after afterRefId :=
        List.take_of_length_le hlong
      rw [hcursor]
      refine ⟨_, rfl, ?_, ?_⟩
      · simp [plainPage, hall]
      · intro hit hhit
        refine ⟨_, List.mem_singleton_self _, ?_⟩
        rw [plainPage, hall]
        exact hhit
    · cases hlast : ((scope.after afterRefId).take maxVectors).getLast? with
      | none =>
        have hlength := congrArg List.length (List.getLast?_eq_none_iff.mp hlast)
        rw [List.length_take, List.length_nil] at hlength
        omega
      | some last =>
        have hcursor : (plainPage scope limit maxVectors afterRefId evidenceMode).nextCursor =
            some last.refId := by
          rw [plainPage, if_neg hlong, hlast]
          rfl
        have hrest := after_last hlast
        have hshort : (scope.after last.refId).length < fuel := by
          rw [hrest, List.length_drop]
          omega
        obtain ⟨pages, hpages, hsum, htop⟩ := searchPages_of_fuel scope evidenceMode hcheck hshort
        rw [hcursor]
        dsimp only
        rw [hpages, ok_bind]
        refine ⟨_, rfl, ?_, ?_⟩
        · rw [List.map_cons, List.sum_cons, hsum, hrest, List.length_drop]
          show ((scope.after afterRefId).take maxVectors).length + _ = _
          rw [List.length_take]
          omega
        · intro hit hhit
          have hmem := mem_of_mem_topHits hsorted hhit
          rw [← List.take_append_drop maxVectors (scope.after afterRefId), List.mem_append] at hmem
          rcases hmem with hmem | hmem
          · refine ⟨_, List.mem_cons_self, ?_⟩
            exact mem_topHits_of_subset hsorted (hsorted.sublist (List.take_sublist _ _))
              (fun a ha => List.mem_of_mem_take ha) hhit hmem
          · rw [← hrest] at hmem
            have hpart := mem_topHits_of_subset hsorted (sorted_after scope last.refId)
              (fun a ha => List.mem_of_mem_drop (hrest ▸ ha)) hhit hmem
            obtain ⟨page, hmem', hin⟩ := htop hit hpart
            exact ⟨page, List.mem_cons_of_mem _ hmem', hin⟩

/-- The searches that follow the cursor come to an end, scan every row after the first cursor once,
and find every hit that is among the best of all these rows. -/
theorem searchPages_cover (scope : PublishedScope S)
    (limit maxVectors batchSize afterRefId : ℕ) (evidenceMode : Bool)
    (hcheck : checkScan limit maxVectors batchSize = .ok ()) :
    ∃ pages, searchPages scope limit maxVectors batchSize evidenceMode
        ((scope.after afterRefId).length + 1) afterRefId = .ok pages ∧
      (pages.map ExactSearchPage.scanned).sum = (scope.after afterRefId).length ∧
      ∀ hit ∈ topHits evidenceMode limit (scope.after afterRefId), ∃ page ∈ pages, hit ∈ page.hits :=
  searchPages_of_fuel scope evidenceMode hcheck (Nat.lt_succ_self _)

end Pages

/-! ## A search -/

/-- Three passages of two items. -/
def exampleScope : PublishedScope ℕ where
  rows := [⟨1, ['a'], ['x'], ['m'], 5, 1⟩, ⟨2, ['b'], ['x'], ['m'], 7, 1⟩,
    ⟨4, ['c'], ['y'], ['m'], 6, 1⟩]
  sorted := by decide

theorem searchPages_cover_example : ∃ pages, searchPages exampleScope 1 2 1 false 4 0 = .ok pages ∧
    (pages.map ExactSearchPage.scanned).sum = 3 ∧
    ∀ hit ∈ topHits false 1 exampleScope.rows, ∃ page ∈ pages, hit ∈ page.hits :=
  searchPages_cover exampleScope 1 2 1 0 false rfl

example : topHits false 1 exampleScope.rows = [⟨2, ['b'], ['x'], ['m'], 7, 1⟩] := by decide

end Retrieval
end Neocortex
