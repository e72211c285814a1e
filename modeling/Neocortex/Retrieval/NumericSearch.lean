import Neocortex.Library.Winners
import Neocortex.Retrieval.ExactSearch

/-!
# Numeric search

The numeric fast path of `semantic/semantic_exact_index_format.py`: a sealed view has a code for
each item and each passage, a batch of rows is sorted by code and score at once, and a table has the
best row of each code.

What the matrix product gives a row is its score; a batch that the scorer refuses is a fallback.

* `queryNumeric`: a page of the fast path;
* `NumericView.written_codes`: the codes that a view was written with are places in its codebook;
* `numericBatches_spec`: what the loop has seen;
* `queryNumeric_exact`: a page of the fast path is that of the exact scan.
-/

namespace Neocortex
namespace Retrieval

open Python Checks TopGroups Winners

section View

variable {S κ : Type} [DecidableEq κ]

/-! ## The codes of a view -/

/-- `dict.setdefault(key, len(dict))`: the code of a key is its place in the codebook. -/
def setDefault (codes : List κ) (key : κ) : List κ := if key ∈ codes then codes else codes ++ [key]

/-- `_numeric_codes` over the rows of a view: the codes that are written, and the codebook. -/
def writeCodes (group : SearchHit S → κ) : List κ → List (SearchHit S) → List ℕ × List κ
  | codes, [] => ([], codes)
  | codes, row :: rows =>
    let written := writeCodes group (setDefault codes (group row)) rows
    ((setDefault codes (group row)).idxOf (group row) :: written.1, written.2)

theorem mem_setDefault (codes : List κ) (key : κ) : key ∈ setDefault codes key := by
  unfold setDefault
  split_ifs with h
  · exact h
  · simp

theorem idxOf_setDefault {codes : List κ} {k key : κ} (h : k ∈ codes) :
    (setDefault codes key).idxOf k = codes.idxOf k := by
  unfold setDefault
  split_ifs
  · rfl
  · exact List.idxOf_append_of_mem h

/-- A codebook keeps the codes that it gave. -/
theorem idxOf_writeCodes {group : SearchHit S → κ} : ∀ {rows : List (SearchHit S)} {codes : List κ}
    {k : κ}, k ∈ codes →
      k ∈ (writeCodes group codes rows).2 ∧
        (writeCodes group codes rows).2.idxOf k = codes.idxOf k
  | [], _, _, h => ⟨h, rfl⟩
  | row :: rows, codes, k, h => by
    have hnext : k ∈ setDefault codes (group row) := by
      unfold setDefault
      split_ifs
      · exact h
      · exact List.mem_append_left _ h
    obtain ⟨hmem, hidx⟩ : k ∈ (writeCodes group (setDefault codes (group row)) rows).2 ∧
        (writeCodes group (setDefault codes (group row)) rows).2.idxOf k =
          (setDefault codes (group row)).idxOf k := idxOf_writeCodes hnext
    exact ⟨hmem, hidx.trans (idxOf_setDefault h)⟩

theorem writeCodes_eq (group : SearchHit S → κ) : ∀ (rows : List (SearchHit S)) (codes : List κ),
    (writeCodes group codes rows).1 =
      rows.map fun row => (writeCodes group codes rows).2.idxOf (group row)
  | [], _ => rfl
  | row :: rows, codes => by
    rw [List.map_cons]
    refine congrArg₂ List.cons ?_ (writeCodes_eq group rows _)
    exact (idxOf_writeCodes (mem_setDefault codes (group row))).2.symm

theorem mem_codebook {group : SearchHit S → κ} : ∀ {rows : List (SearchHit S)} {codes : List κ}
    {row : SearchHit S}, row ∈ rows → group row ∈ (writeCodes group codes rows).2
  | first :: rows, codes, row, h => by
    rcases List.mem_cons.mp h with rfl | h
    · exact (idxOf_writeCodes (mem_setDefault codes (group row))).1
    · have hrest : group row ∈ (writeCodes group (setDefault codes (group first)) rows).2 :=
        mem_codebook h
      exact hrest

/-- A sealed view, and the pair and the text scope that a query selects of it.  `refuses` is what
the scorer says of a batch that it does not score as one matrix.  A row has one score: that the
scalar scan and the matrix product compute the same number for it is assumed. -/
structure NumericView (S : Type) where
  rows : List (SearchHit S)
  selected : SearchHit S → Bool
  refuses : List (SearchHit S) → Option Text
  sorted : rows.Pairwise fun a b => a.refId < b.refId
  onePair : ∀ a ∈ rows, ∀ b ∈ rows, selected a = true → selected b = true →
    a.indexedModelSignature = b.indexedModelSignature

/-- The rows that the query of a search selects. -/
def NumericView.scope (view : NumericView S) : PublishedScope S where
  rows := view.rows.filter view.selected
  sorted := view.sorted.sublist List.filter_sublist

/-- The codebook of a view. -/
def NumericView.codebook (view : NumericView S) (group : SearchHit S → κ) : List κ :=
  (writeCodes group [] view.rows).2

/-- The code of a row of a view: the place of its group in the codebook. -/
def NumericView.code (view : NumericView S) (group : SearchHit S → κ) (hit : SearchHit S) : ℕ :=
  (view.codebook group).idxOf (group hit)

/-- The codes that the rows of a view were written with. -/
theorem NumericView.written_codes (view : NumericView S) (group : SearchHit S → κ) :
    (writeCodes group [] view.rows).1 = view.rows.map (view.code group) :=
  writeCodes_eq group view.rows []

theorem NumericView.code_lt (view : NumericView S) (group : SearchHit S → κ) {hit : SearchHit S}
    (h : hit ∈ view.rows) : view.code group hit < (view.codebook group).length :=
  List.idxOf_lt_length_iff.mpr (mem_codebook h)

/-- Rows have the same code when they are of the same group. -/
theorem NumericView.code_inj (view : NumericView S) (group : SearchHit S → κ) {a b : SearchHit S}
    (ha : a ∈ view.rows) : view.code group a = view.code group b ↔ group a = group b :=
  ⟨fun h => (List.idxOf_inj (mem_codebook ha)).mp h,
    fun h => congrArg (fun key => (view.codebook group).idxOf key) h⟩

theorem dropWhile_refId {k : ℕ} : ∀ {rows : List (SearchHit S)},
    (rows.Pairwise fun a b => a.refId < b.refId) →
      (rows.dropWhile fun hit => hit.refId ≤ k) = rows.filter fun hit => k < hit.refId
  | [], _ => rfl
  | a :: rows, h => by
    obtain ⟨hhead, htail⟩ := List.pairwise_cons.mp h
    rw [List.dropWhile_cons, List.filter_cons]
    by_cases ha : a.refId ≤ k
    · rw [if_pos (decide_eq_true ha), dropWhile_refId htail, if_neg]
      simpa using ha
    · have hall : (rows.filter fun hit => k < hit.refId) = rows := by
        rw [List.filter_eq_self]
        exact fun b hb => decide_eq_true ((not_le.mp ha).trans (hhead b hb))
      rw [if_neg (by simpa using ha), if_pos (decide_eq_true (not_le.mp ha)), hall]

/-- The rows behind the cursor, those of them that are selected. -/
theorem after_scope (view : NumericView S) (afterRefId : ℕ) :
    (view.rows.dropWhile fun hit => hit.refId ≤ afterRefId).filter view.selected =
      view.scope.after afterRefId := by
  rw [dropWhile_refId view.sorted, PublishedScope.after, NumericView.scope, List.filter_filter,
    List.filter_filter]
  exact List.filter_congr fun _ _ => Bool.and_comm _ _

end View

section Numeric

variable {S κ : Type} [LinearOrder S] [DecidableEq κ]

/-! ## The fast path -/

/-- The order of `numpy.lexsort` within a code. -/
def lexPlace (hit : SearchHit S) : Sᵒᵈ ×ₗ ℕᵒᵈ :=
  toLex (OrderDual.toDual hit.score, OrderDual.toDual hit.refId)

/-- The variables of the loop of `_query_numeric`. -/
structure NumericState (S : Type) where
  best : ℕ → Option (SearchHit S) := fun _ => none
  scanned : ℕ := 0
  lastRefId : ℕ
  hasMore : Bool := false

/-- The checks of `_numeric_scores`. -/
def NumericView.score (view : NumericView S) (batch : List (SearchHit S)) : Except Text Unit :=
  if batch.length < 8 then .error "numeric path keeps scalar batches below eight rows".toList
  else
    match view.refuses batch with
    | some reason => .error reason
    | none => .ok ()

/-- The rows of a batch enter the table.  A batch has one winner of each code, so that the updates
do not meet. -/
def enterBatch (code : SearchHit S → ℕ) (evidenceMode : Bool) (s : NumericState S)
    (batch : List (SearchHit S)) : NumericState S :=
  { s with
    best :=
      (localWinners code lexPlace SearchHit.score exactSearchOrder (!evidenceMode) batch).foldl
        (enter code SearchHit.score exactSearchOrder) s.best
    scanned := s.scanned + batch.length
    lastRefId := (batch.getLast?.map SearchHit.refId).getD s.lastRefId }

/-- The loop over the batches of the rows, of which some are selected. -/
def numericBatches (view : NumericView S) (code : SearchHit S → ℕ) (evidenceMode : Bool)
    (maxVectors batchSize : ℕ) :
    ℕ → List (SearchHit S) → NumericState S → Except Text (NumericState S)
  | 0, _, s => .ok s
  | fuel + 1, rows, s =>
    let raw := rows.take batchSize
    let eligible := raw.filter view.selected
    let remaining := maxVectors - s.scanned
    if raw = [] then .ok s
    else if eligible = [] then
      numericBatches view code evidenceMode maxVectors batchSize fuel (rows.drop batchSize) s
    else if remaining = 0 then .ok { s with hasMore := true }
    else do
      view.score (eligible.take remaining)
      let s := enterBatch code evidenceMode s (eligible.take remaining)
      if remaining < eligible.length then .ok { s with hasMore := true }
      else numericBatches view code evidenceMode maxVectors batchSize fuel (rows.drop batchSize) s

/-- The bounds of the fast path. -/
def checkNumeric (maxVectors batchSize : ℕ) : Except Text Unit :=
  if 512 < batchSize then .error "numeric batch exceeds the 512-row matrix bound".toList
  else if maxVectors < 8 ∨ batchSize < 8 then
    .error "numeric fast path keeps scalar-sized requests classic".toList
  else .ok ()

/-- `_query_numeric` with the codes of a group. -/
def queryGroups (view : NumericView S) (group : SearchHit S → κ)
    (limit maxVectors afterRefId batchSize : ℕ) (evidenceMode : Bool) :
    Except Text (ExactSearchPage S) := do
  let rows := view.rows.dropWhile fun hit => hit.refId ≤ afterRefId
  let s ← numericBatches view (view.code group) evidenceMode maxVectors batchSize rows.length rows
    { lastRefId := afterRefId }
  let valid := (List.range (view.codebook group).length).filterMap s.best
  .ok
    { hits := ranked exactSearchOrder (selectTop SearchHit.score exactSearchOrder limit valid)
      scanned := s.scanned
      nextCursor := if s.hasMore then some s.lastRefId else none
      complete := !s.hasMore }

/-- `query_exact_view` with `numeric`. -/
def queryNumeric (view : NumericView S) (limit maxVectors afterRefId batchSize : ℕ)
    (evidenceMode : Bool) : Except Text (ExactSearchPage S) := do
  checkScan limit maxVectors batchSize
  if view.rows = [] then .ok ⟨[], 0, none, true⟩
  else do
    checkNumeric maxVectors batchSize
    if evidenceMode then
      queryGroups view SearchHit.evidence limit maxVectors afterRefId batchSize true
    else queryGroups view SearchHit.itemId limit maxVectors afterRefId batchSize false

/-! ## The orders -/

theorem order_of_score {a b : SearchHit S} (h : b.score < a.score) :
    exactSearchOrder a < exactSearchOrder b :=
  Prod.Lex.toLex_lt_toLex.mpr (Or.inl (OrderDual.toDual_lt_toDual.mpr h))

theorem score_of_place {a b : SearchHit S} (h : lexPlace a ≤ lexPlace b) : b.score ≤ a.score := by
  rcases Prod.Lex.toLex_le_toLex.mp h with hlt | ⟨heq, -⟩
  · exact (OrderDual.toDual_lt_toDual.mp hlt).le
  · exact (OrderDual.toDual.injective heq).ge

/-- Among the rows of one passage and one model, the order of `numpy.lexsort` is the exact one. -/
theorem order_of_place {a b : SearchHit S} (hevidence : a.evidence = b.evidence)
    (hmodel : a.indexedModelSignature = b.indexedModelSignature)
    (h : lexPlace a ≤ lexPlace b) : exactSearchOrder a ≤ exactSearchOrder b := by
  obtain ⟨hitem, hentity⟩ := Prod.mk.inj hevidence
  rw [exactSearchOrder, exactSearchOrder, hitem, hentity, hmodel, Prod.Lex.toLex_le_toLex]
  rcases Prod.Lex.toLex_le_toLex.mp h with hlt | ⟨heq, hle⟩
  · exact Or.inl hlt
  · refine Or.inr ⟨heq, ?_⟩
    simp only [Prod.Lex.toLex_le_toLex, lt_irrefl, false_or, true_and]
    exact hle

/-! ## The loop -/

/-- The loop has taken some rows behind those that the table has. -/
structure Scanned (code : SearchHit S → ℕ) (seen taken : List (SearchHit S)) (more : Bool)
    (s s' : NumericState S) : Prop where
  best : BestOf code exactSearchOrder s'.best (seen ++ taken)
  scanned : s'.scanned = s.scanned + taken.length
  lastRefId : s'.lastRefId = (taken.getLast?.map SearchHit.refId).getD s.lastRefId
  hasMore : s'.hasMore = more

theorem Scanned.nothing {code : SearchHit S → ℕ} {seen : List (SearchHit S)} {s s' : NumericState S}
    (h : BestOf code exactSearchOrder s.best seen) (hbest : s'.best = s.best)
    (hscanned : s'.scanned = s.scanned) (hlast : s'.lastRefId = s.lastRefId) :
    Scanned code seen [] s'.hasMore s s' where
  best := by
    rw [List.append_nil, hbest]
    exact h
  scanned := hscanned
  lastRefId := hlast
  hasMore := rfl

theorem Scanned.trans {code : SearchHit S → ℕ} {seen t t' : List (SearchHit S)} {more more' : Bool}
    {s s' s'' : NumericState S} (h : Scanned code seen t more s s')
    (h' : Scanned code (seen ++ t) t' more' s' s'') : Scanned code seen (t ++ t') more' s s'' where
  best := by
    rw [← List.append_assoc]
    exact h'.best
  scanned := by
    rw [h'.scanned, h.scanned, List.length_append, Nat.add_assoc]
  lastRefId := by
    rw [h'.lastRefId, h.lastRefId, List.getLast?_append]
    cases t'.getLast? <;> rfl
  hasMore := h'.hasMore

variable {view : NumericView S} {code : SearchHit S → ℕ} {evidenceMode : Bool}

theorem Scanned.batch
    (hkey : evidenceMode = true → ∀ a ∈ view.scope.rows, ∀ b ∈ view.scope.rows, code a = code b →
      lexPlace a ≤ lexPlace b → exactSearchOrder a ≤ exactSearchOrder b)
    {seen batch : List (SearchHit S)} {s : NumericState S}
    (h : BestOf code exactSearchOrder s.best seen) (hbatch : ∀ a ∈ batch, a ∈ view.scope.rows)
    (hkeys : ((seen ++ batch).map exactSearchOrder).Nodup) :
    Scanned code seen batch s.hasMore s (enterBatch code evidenceMode s batch) where
  best := by
    refine BestOf.addBatch (fun _ _ => order_of_score) (fun _ _ => score_of_place) ?_ hkeys h
    intro hmode a ha b hb
    exact hkey (by simpa using hmode) a (hbatch a ha) b (hbatch b hb)
  scanned := rfl
  lastRefId := rfl
  hasMore := rfl

/-- Unless it falls back, the loop takes the selected rows that fit, whatever the size of a batch. -/
theorem numericBatches_spec {maxVectors batchSize : ℕ} (hbatch : 0 < batchSize)
    (hkey : evidenceMode = true → ∀ a ∈ view.scope.rows, ∀ b ∈ view.scope.rows, code a = code b →
      lexPlace a ≤ lexPlace b → exactSearchOrder a ≤ exactSearchOrder b) :
    ∀ {fuel : ℕ} {rows seen : List (SearchHit S)} {s s' : NumericState S}, rows.length ≤ fuel →
      (∀ a ∈ rows.filter view.selected, a ∈ view.scope.rows) →
      ((seen ++ rows.filter view.selected).map exactSearchOrder).Nodup → s.hasMore = false →
      BestOf code exactSearchOrder s.best seen →
      numericBatches view code evidenceMode maxVectors batchSize fuel rows s = .ok s' →
      Scanned code seen ((rows.filter view.selected).take (maxVectors - s.scanned))
        (decide (maxVectors - s.scanned < (rows.filter view.selected).length)) s s'
  | 0, rows, seen, s, s', hfuel, _, _, hmore, hbest, h => by
    obtain rfl := List.length_eq_zero_iff.mp (Nat.le_zero.mp hfuel)
    rw [← Except.ok.inj h]
    have hnothing := Scanned.nothing hbest rfl rfl rfl
    rw [hmore] at hnothing
    simpa using hnothing
  | fuel + 1, rows, seen, s, s', hfuel, hrows, hkeys, hmore, hbest, h => by
    have hsplit : rows.filter view.selected = (rows.take batchSize).filter view.selected ++
        (rows.drop batchSize).filter view.selected := by
      rw [← List.filter_append, List.take_append_drop]
    have hrest : ∀ a ∈ (rows.drop batchSize).filter view.selected, a ∈ view.scope.rows := by
      intro a ha
      refine hrows a ?_
      rw [hsplit]
      exact List.mem_append_right _ ha
    have htaken : List.Sublist
        (((rows.take batchSize).filter view.selected).take (maxVectors - s.scanned))
        (rows.filter view.selected) := by
      rw [hsplit]
      exact (List.take_sublist _ _).trans (List.sublist_append_left _ _)
    have hbatch' := Scanned.batch hkey hbest (fun a ha => hrows a (htaken.mem ha))
      (hkeys.sublist ((htaken.append_left seen).map exactSearchOrder))
    unfold numericBatches at h
    dsimp only at h
    split_ifs at h with hempty hnone hfull hlong
    · have hnil : rows = [] := (List.take_eq_nil_iff.mp hempty).resolve_left hbatch.ne'
      subst hnil
      rw [← Except.ok.inj h]
      have hnothing := Scanned.nothing hbest rfl rfl rfl
      rw [hmore] at hnothing
      simpa using hnothing
    · have hpos : 0 < (rows.take batchSize).length := List.length_pos_iff.mpr hempty
      rw [List.length_take] at hpos
      rw [hnone, List.nil_append] at hsplit
      rw [hsplit] at hkeys ⊢
      exact numericBatches_spec hbatch hkey (by rw [List.length_drop]; omega) hrest hkeys hmore
        hbest h
    · rw [← Except.ok.inj h, hfull, List.take_zero]
      have hlength : 0 < (rows.filter view.selected).length := by
        rw [hsplit, List.length_append]
        exact Nat.add_pos_left (List.length_pos_iff.mpr hnone) _
      rw [decide_eq_true hlength]
      refine ⟨?_, rfl, rfl, rfl⟩
      rw [List.append_nil]
      exact hbest
    · obtain ⟨u, -, h⟩ := bind_eq_ok.mp h
      rw [← Except.ok.inj h, hsplit, List.take_append_of_le_length hlong.le]
      have hlength : maxVectors - s.scanned < ((rows.take batchSize).filter view.selected ++
          (rows.drop batchSize).filter view.selected).length := by
        rw [List.length_append]
        omega
      rw [decide_eq_true hlength]
      exact ⟨hbatch'.best, hbatch'.scanned, hbatch'.lastRefId, rfl⟩
    · obtain ⟨u, -, h⟩ := bind_eq_ok.mp h
      have hle := not_lt.mp hlong
      have hpos : 0 < (rows.take batchSize).length := List.length_pos_iff.mpr hempty
      rw [List.length_take] at hpos
      rw [List.take_of_length_le hle] at hbatch' h
      rw [hsplit, ← List.append_assoc] at hkeys
      have hrun := numericBatches_spec hbatch hkey (by rw [List.length_drop]; omega) hrest hkeys
        (hbatch'.hasMore.trans hmore) hbatch'.best h
      have hroom : maxVectors - (enterBatch code evidenceMode s
          ((rows.take batchSize).filter view.selected)).scanned =
          maxVectors - s.scanned - ((rows.take batchSize).filter view.selected).length := by
        rw [hbatch'.scanned]
        omega
      rw [hroom] at hrun
      have hmore' : (maxVectors - s.scanned - ((rows.take batchSize).filter view.selected).length <
          ((rows.drop batchSize).filter view.selected).length) ↔
          maxVectors - s.scanned < ((rows.take batchSize).filter view.selected ++
            (rows.drop batchSize).filter view.selected).length := by
        rw [List.length_append]
        omega
      rw [hsplit, List.take_append, List.take_of_length_le hle, ← decide_eq_decide.mpr hmore']
      exact hbatch'.trans hrun

/-! ## The page -/

variable {κ : Type} [DecidableEq κ]

theorem queryGroups_exact (view : NumericView S) (group : SearchHit S → κ)
    {limit maxVectors afterRefId batchSize : ℕ} {evidenceMode : Bool} {page : ExactSearchPage S}
    (hkey : evidenceMode = true → ∀ a ∈ view.scope.rows, ∀ b ∈ view.scope.rows,
      view.code group a = view.code group b → lexPlace a ≤ lexPlace b →
        exactSearchOrder a ≤ exactSearchOrder b)
    (htop : ∀ rows, topHits evidenceMode limit rows = topGroups group exactSearchOrder limit rows)
    (hlimit : 0 < limit) (hvectors : 0 < maxVectors) (hbatch : 0 < batchSize)
    (h : queryGroups view group limit maxVectors afterRefId batchSize evidenceMode = .ok page) :
    page = plainPage view.scope limit maxVectors afterRefId evidenceMode := by
  obtain ⟨s, hrun, hpage⟩ := bind_eq_ok.mp h
  have hafter := after_scope view afterRefId
  have hsorted := sorted_after view.scope afterRefId
  have hrows : ∀ a ∈ view.scope.after afterRefId, a ∈ view.scope.rows :=
    fun a ha => (List.mem_filter.mp ha).1
  have hscanned := numericBatches_spec hbatch hkey le_rfl (hafter.symm ▸ hrows)
    (by rw [hafter, List.nil_append]; exact nodup_orders hsorted) rfl bestOf_nil hrun
  rw [hafter] at hscanned
  obtain ⟨hbest, hcount, hlast, hmore⟩ := hscanned
  rw [List.nil_append] at hbest
  simp only [Nat.sub_zero, Nat.zero_add] at hbest hcount hlast hmore
  set taken := (view.scope.after afterRefId).take maxVectors with htakenDef
  have htaken : taken.Pairwise fun a b => a.refId < b.refId :=
    hsorted.sublist (List.take_sublist _ _)
  have hview : ∀ a ∈ taken, a ∈ view.rows := fun a ha =>
    (List.mem_filter.mp (hrows a (List.mem_of_mem_take ha))).1
  have hhits : ranked exactSearchOrder (selectTop SearchHit.score exactSearchOrder limit
      ((List.range (view.codebook group).length).filterMap s.best)) =
      topHits evidenceMode limit taken := by
    have hcodes : ∀ a ∈ taken, view.code group a ∈ List.range (view.codebook group).length :=
      fun a ha => List.mem_range.mpr (view.code_lt group (hview a ha))
    rw [hbest.ranked_selectTop (fun _ _ => order_of_score) List.nodup_range hcodes
      (nodup_orders htaken) hlimit,
      topGroups_congr fun a ha b hb => view.code_inj group (hview a ha), htop]
  rw [← Except.ok.inj hpage]
  refine ExactSearchPage.ext hhits hcount ?_ ?_
  · by_cases hlong : (view.scope.after afterRefId).length ≤ maxVectors
    · rw [hmore, decide_eq_false (not_lt.mpr hlong), plainPage, if_pos hlong]
      rfl
    · rw [hmore, decide_eq_true (not_le.mp hlong), plainPage, if_neg hlong, ← htakenDef, hlast]
      cases hget : taken.getLast? with
      | some hit => rfl
      | none =>
        have hlength := congrArg List.length (List.getLast?_eq_none_iff.mp hget)
        rw [htakenDef, List.length_take, List.length_nil] at hlength
        omega
  · rw [hmore, plainPage, ← decide_not]
    exact decide_eq_decide.mpr not_lt

/-- A page of the fast path is the plain one. -/
theorem queryNumeric_page {view : NumericView S} {limit maxVectors afterRefId batchSize : ℕ}
    {evidenceMode : Bool} {page : ExactSearchPage S}
    (h : queryNumeric view limit maxVectors afterRefId batchSize evidenceMode = .ok page) :
    checkScan limit maxVectors batchSize = .ok () ∧
      page = plainPage view.scope limit maxVectors afterRefId evidenceMode := by
  obtain ⟨u, hcheck, h⟩ := bind_eq_ok.mp h
  obtain ⟨hlimit, hvectors, hbatch⟩ := checkScan_eq_ok hcheck
  refine ⟨hcheck, ?_⟩
  by_cases hempty : view.rows = []
  · have hnone : view.scope.rows = [] := by
      show view.rows.filter view.selected = []
      rw [hempty]
      rfl
    have hafter : view.scope.after afterRefId = [] := by
      rw [PublishedScope.after, hnone]
      rfl
    rw [if_pos hempty] at h
    rw [← Except.ok.inj h]
    refine ExactSearchPage.ext ?_ ?_ ?_ ?_
    · cases evidenceMode <;> simp [plainPage, hafter, topHits, topGroups, representatives]
    · simp [plainPage, hafter]
    · simp [plainPage, hafter]
    · simp [plainPage, hafter]
  · rw [if_neg hempty] at h
    obtain ⟨_, -, h⟩ := bind_eq_ok.mp h
    cases evidenceMode with
    | true =>
      rw [if_pos rfl] at h
      refine queryGroups_exact view SearchHit.evidence (fun _ a ha b hb hcode => ?_) (fun _ => rfl)
        hlimit hvectors hbatch h
      obtain ⟨ha, hselected⟩ := List.mem_filter.mp ha
      obtain ⟨hb, hselected'⟩ := List.mem_filter.mp hb
      exact order_of_place ((view.code_inj SearchHit.evidence ha).mp hcode)
        (view.onePair a ha b hb hselected hselected')
    | false =>
      rw [if_neg Bool.false_ne_true] at h
      exact queryGroups_exact view SearchHit.itemId (fun hmode => absurd hmode Bool.false_ne_true)
        (fun _ => rfl) hlimit hvectors hbatch h

/-- When the fast path does not fall back, its page is that of the exact scan, where both give a row
one score. -/
theorem queryNumeric_exact (view : NumericView S) (limit maxVectors afterRefId batchSize : ℕ)
    (evidenceMode : Bool) (page : ExactSearchPage S)
    (h : queryNumeric view limit maxVectors afterRefId batchSize evidenceMode = .ok page) :
    scanExactPage view.scope limit maxVectors afterRefId batchSize evidenceMode = .ok page := by
  obtain ⟨hcheck, hpage⟩ := queryNumeric_page h
  rw [scanExactPage_eq_ok view.scope afterRefId evidenceMode hcheck, hpage]

end Numeric

/-! ## A page -/

/-- Eight passages of two items, with ties. -/
def exampleView : NumericView ℕ where
  rows := (List.range 8).map fun i =>
    ⟨i + 1, [Char.ofNat (97 + i)], if i % 2 = 0 then ['x'] else ['y'], ['m'], i / 3, 1⟩
  selected _ := true
  refuses _ := none
  sorted := by decide
  onePair := by decide

theorem queryNumeric_exact_example :
    scanExactPage exampleView.scope 1 8 0 8 false =
      .ok ⟨[⟨7, ['g'], ['x'], ['m'], 2, 1⟩], 8, none, true⟩ :=
  queryNumeric_exact exampleView 1 8 0 8 false _ (by rfl)

end Retrieval
end Neocortex
