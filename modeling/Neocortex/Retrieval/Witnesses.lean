import Mathlib

/-!
# Witness intervals

`semantic.semantic_query_evidence`: the tightest text interval that holds one witness of every
requested constraint, and the verdict that `structured_query_support` draws from it.

The sweep orders the spans of all constraints by their start and takes, for a window of consecutive
spans, the end of the one that starts last.  A span may hold another one, a compound identifier the
date inside it; then the window ends before its longest span, or later than it has to.

* `minimumConstraintSpan`: `_minimum_constraint_span`, with its counters.
* `windows`: the same windows, said without counters; `sweep_eq_windows`.
* `Untangled`: what the windows of the sweep have to be for it to find the tightest interval.
* `Unnested`: spans among which it always does (`minimumConstraintSpan_tightest`).

The spans themselves come from regular expressions over the text and are given here.
-/

namespace Neocortex
namespace Retrieval

/-! ## The sweep -/

/-- A span of a constraint. -/
structure Event where
  start : ℕ
  stop : ℕ
  index : ℕ
  deriving DecidableEq

/-- The order of tuples. -/
def Event.before (a b : Event) : Prop :=
  a.start < b.start ∨ a.start = b.start ∧
    (a.stop < b.stop ∨ a.stop = b.stop ∧ a.index ≤ b.index)

instance (a b : Event) : Decidable (a.before b) := by
  unfold Event.before
  infer_instance

/-- The spans of a constraint, as text positions. -/
abbrev Spans := List (ℕ × ℕ)

/-- The events of some constraints, from the index `i` on. -/
def eventsFrom (i : ℕ) : List Spans → List Event
  | [] => []
  | spans :: rest =>
    (spans.take 32).map (fun span => ⟨span.1, span.2, i⟩) ++ eventsFrom (i + 1) rest

/-- The events in the order of the sweep. -/
def events (constraints : List Spans) : List Event :=
  (eventsFrom 0 constraints).insertionSort Event.before

/-- The state of the sweep; `window` is `events[left : right + 1]`. -/
structure Sweep where
  counts : ℕ → ℕ
  covered : ℕ
  window : List Event
  best : Option (ℕ × ℕ)

/-- `candidate[1] - candidate[0]`. -/
def extent (interval : ℕ × ℕ) : ℤ := (interval.2 : ℤ) - interval.1

/-- The better of two intervals, the older one first. -/
def better (best : Option (ℕ × ℕ)) (candidate : ℕ × ℕ) : Option (ℕ × ℕ) :=
  match best with
  | none => some candidate
  | some interval => if extent candidate < extent interval then some candidate else some interval

/-- The `while` loop behind the event `last`; the list is the window. -/
def shrink (n : ℕ) (last : Event) (counts : ℕ → ℕ) (covered : ℕ) (best : Option (ℕ × ℕ)) :
    List Event → Sweep
  | [] => ⟨counts, covered, [], best⟩
  | first :: rest =>
    if covered = n then
      shrink n last (Function.update counts first.index (counts first.index - 1))
        (if counts first.index - 1 = 0 then covered - 1 else covered)
        (better best (first.start, last.stop)) rest
    else ⟨counts, covered, first :: rest, best⟩

/-- One turn of the `for` loop. -/
def advance (n : ℕ) (s : Sweep) (e : Event) : Sweep :=
  shrink n e (Function.update s.counts e.index (s.counts e.index + 1))
    (if s.counts e.index = 0 then s.covered + 1 else s.covered) s.best (s.window ++ [e])

/-- `_minimum_constraint_span`. -/
def minimumConstraintSpan (constraints : List Spans) : Option (ℕ × ℕ) :=
  ((events constraints).foldl (advance constraints.length) ⟨fun _ => 0, 0, [], none⟩).best

/-- `MAX_STRUCTURED_SPAN_CHARS`. -/
def maxStructuredSpanChars : ℤ := 1024

/-- `coherent` of `structured_query_support`, from the spans of its constraints. -/
def coherent (constraints : List Spans) : Bool :=
  if constraints.any List.isEmpty then false
  else
    match minimumConstraintSpan constraints with
    | none => false
    | some interval => extent interval ≤ maxStructuredSpanChars

/-! ## Windows -/

/-- Every constraint has an event. -/
def Covers (n : ℕ) (l : List Event) : Prop := ∀ i < n, ∃ e ∈ l, e.index = i

instance (n : ℕ) (l : List Event) : Decidable (Covers n l) := by
  unfold Covers
  infer_instance

/-- The event behind which `seen` and the events so far cover everything. -/
def closing (n : ℕ) (seen : List Event) : List Event → Option Event
  | [] => none
  | e :: rest => if Covers n (seen ++ [e]) then some e else closing n (seen ++ [e]) rest

/-- For every event, the interval from its start to the end of the event that closes its window. -/
def windows (n : ℕ) : List Event → List (ℕ × ℕ)
  | [] => []
  | e :: rest =>
    ((closing n [] (e :: rest)).map fun last => (e.start, last.stop)).toList ++ windows n rest

theorem Covers.mono {n : ℕ} {l m : List Event} (h : Covers n l) (hlm : l ⊆ m) : Covers n m := by
  intro i hi
  obtain ⟨e, he, hindex⟩ := h i hi
  exact ⟨e, hlm he, hindex⟩

/-- The event that completes the cover closes the window. -/
theorem closing_eq_some {n : ℕ} {e : Event} {after : List Event} :
    ∀ {seen before : List Event}, ¬ Covers n (seen ++ before) → Covers n (seen ++ (before ++ [e])) →
      closing n seen (before ++ e :: after) = some e
  | seen, [], _, hyes => by
    rw [List.nil_append, closing, if_pos (by simpa using hyes)]
  | seen, a :: before, hno, hyes => by
    have hfirst : ¬ Covers n (seen ++ [a]) := fun h => hno (h.mono (by simp))
    rw [List.cons_append, closing, if_neg hfirst]
    refine closing_eq_some ?_ ?_
    · simpa using hno
    · simpa using hyes

/-- Without a cover there is no window. -/
theorem closing_eq_none {n : ℕ} :
    ∀ {seen l : List Event}, ¬ Covers n (seen ++ l) → closing n seen l = none
  | _, [], _ => rfl
  | seen, a :: l, hno => by
    have hfirst : ¬ Covers n (seen ++ [a]) := fun h => hno (h.mono (by simp))
    rw [closing, if_neg hfirst]
    refine closing_eq_none ?_
    simpa using hno

theorem windows_eq_nil {n : ℕ} : ∀ {l : List Event}, ¬ Covers n l → windows n l = []
  | [], _ => rfl
  | a :: l, hno => by
    have hrest : ¬ Covers n l := fun h => hno (h.mono (by simp))
    rw [windows, closing_eq_none (by simpa using hno), windows_eq_nil hrest]
    rfl

/-! ## The counters -/

/-- The counters say what is in the window. -/
structure Counted (n : ℕ) (counts : ℕ → ℕ) (covered : ℕ) (window : List Event) : Prop where
  counts_eq : ∀ i, counts i = window.countP fun e => e.index = i
  covered_eq : covered = ((Finset.range n).filter fun i => 0 < counts i).card

theorem Counted.covered_iff {n : ℕ} {counts : ℕ → ℕ} {covered : ℕ} {window : List Event}
    (h : Counted n counts covered window) : covered = n ↔ Covers n window := by
  have hpos : ∀ i, 0 < counts i ↔ ∃ e ∈ window, e.index = i := by
    intro i
    rw [h.counts_eq i, List.countP_pos_iff]
    simp
  rw [h.covered_eq]
  constructor
  · intro hcard i hi
    have hall : ((Finset.range n).filter fun i => 0 < counts i) = Finset.range n :=
      Finset.eq_of_subset_of_card_le (Finset.filter_subset _ _) (by rw [hcard, Finset.card_range])
    have hmem : i ∈ (Finset.range n).filter fun i => 0 < counts i := by
      rw [hall]
      exact Finset.mem_range.mpr hi
    exact (hpos i).mp (Finset.mem_filter.mp hmem).2
  · intro hcovers
    rw [Finset.filter_true_of_mem, Finset.card_range]
    intro i hi
    exact (hpos i).mpr (hcovers i (Finset.mem_range.mp hi))

/-- An event enters the window. -/
theorem Counted.push {n : ℕ} {counts : ℕ → ℕ} {covered : ℕ} {window : List Event}
    (h : Counted n counts covered window) {e : Event} (he : e.index < n) :
    Counted n (Function.update counts e.index (counts e.index + 1))
      (if counts e.index = 0 then covered + 1 else covered) (window ++ [e]) where
  counts_eq i := by
    rw [List.countP_append, ← h.counts_eq i]
    by_cases hi : i = e.index
    · rw [hi, Function.update_self]
      simp
    · rw [Function.update_of_ne hi]
      simp [Ne.symm hi]
  covered_eq := by
    have hset : ((Finset.range n).filter fun i =>
        0 < Function.update counts e.index (counts e.index + 1) i) =
        insert e.index ((Finset.range n).filter fun i => 0 < counts i) := by
      ext i
      by_cases hi : i = e.index
      · simp [hi, he]
      · simp [hi]
    rw [hset]
    split_ifs with hzero
    · rw [Finset.card_insert_of_notMem (by simp [hzero]), h.covered_eq]
    · rw [Finset.insert_eq_of_mem (by simp [he]; omega), h.covered_eq]

/-- The first event leaves the window. -/
theorem Counted.pop {n : ℕ} {counts : ℕ → ℕ} {covered : ℕ} {first : Event} {rest : List Event}
    (h : Counted n counts covered (first :: rest)) (hfirst : first.index < n) :
    Counted n (Function.update counts first.index (counts first.index - 1))
      (if counts first.index - 1 = 0 then covered - 1 else covered) rest where
  counts_eq i := by
    have hi := h.counts_eq i
    by_cases heq : i = first.index
    · rw [heq, List.countP_cons_of_pos (by simp)] at hi
      rw [heq, Function.update_self, hi]
      omega
    · rw [List.countP_cons_of_neg (by simpa using Ne.symm heq)] at hi
      rw [Function.update_of_ne heq, hi]
  covered_eq := by
    have hpos : 0 < counts first.index := by
      rw [h.counts_eq, List.countP_pos_iff]
      exact ⟨first, List.mem_cons_self, by simp⟩
    split_ifs with hzero
    · have hset : ((Finset.range n).filter fun i =>
          0 < Function.update counts first.index (counts first.index - 1) i) =
          ((Finset.range n).filter fun i => 0 < counts i).erase first.index := by
        ext i
        by_cases hi : i = first.index
        · simp [hi, hzero]
        · simp [hi]
      rw [hset, Finset.card_erase_of_mem (by simp [hfirst, hpos]), h.covered_eq]
    · rw [h.covered_eq]
      congr 1
      ext i
      by_cases hi : i = first.index
      · simp [hi]
        omega
      · simp [Function.update_of_ne hi]

/-! ## What the sweep has found -/

/-- Some events have been swept: the windows from those that left are found, the others are open. -/
structure Swept (n : ℕ) (all : List Event) (s : Sweep) (rest : List Event) : Prop where
  counted : Counted n s.counts s.covered s.window
  indices : ∀ e ∈ s.window, e.index < n
  uncovered : ¬ Covers n s.window
  found : ∃ found, windows n all = found ++ windows n (s.window ++ rest) ∧
    s.best = found.foldl better none

/-- The `while` loop, from a window that only its last event may complete. -/
theorem swept_shrink {n : ℕ} {all rest : List Event} {last : Event} :
    ∀ {window : List Event} {counts : ℕ → ℕ} {covered : ℕ} {found : List (ℕ × ℕ)},
      Counted n counts covered (window ++ [last]) → (∀ e ∈ window ++ [last], e.index < n) →
      ¬ Covers n window → windows n all = found ++ windows n (window ++ last :: rest) →
      Swept n all (shrink n last counts covered (found.foldl better none) (window ++ [last])) rest
  | [], counts, covered, found, hcounted, hindices, huncovered, hwindows => by
    rw [List.nil_append, shrink]
    by_cases hcovered : covered = n
    · rw [if_pos hcovered]
      have hcovers := hcounted.covered_iff.mp hcovered
      have hclosing : closing n [] (last :: rest) = some last :=
        @closing_eq_some _ _ _ _ [] huncovered (by simpa using hcovers)
      refine ⟨hcounted.pop (hindices last (by simp)), by simp [shrink], huncovered,
        found ++ [(last.start, last.stop)], ?_, ?_⟩
      · rw [hwindows, List.nil_append, windows, hclosing]
        simp [shrink]
      · rw [List.foldl_append]
        rfl
    · rw [if_neg hcovered]
      refine ⟨hcounted, hindices, fun h => hcovered (hcounted.covered_iff.mpr h), found, ?_, rfl⟩
      simpa using hwindows
  | first :: window, counts, covered, found, hcounted, hindices, huncovered, hwindows => by
    rw [List.cons_append, shrink]
    by_cases hcovered : covered = n
    · rw [if_pos hcovered]
      have hcovers := hcounted.covered_iff.mp hcovered
      have hclosing : closing n [] (first :: (window ++ last :: rest)) = some last :=
        @closing_eq_some _ _ _ _ (first :: window) huncovered (by simpa using hcovers)
      have hbest : better (found.foldl better none) (first.start, last.stop) =
          (found ++ [(first.start, last.stop)]).foldl better none := by
        rw [List.foldl_append]
        rfl
      rw [hbest]
      refine swept_shrink (hcounted.pop (hindices first (by simp)))
        (fun e he => hindices e (List.mem_cons_of_mem _ he))
        (fun h => huncovered (h.mono (List.subset_cons_self _ _))) ?_
      rw [hwindows, List.cons_append, windows, hclosing]
      simp
    · rw [if_neg hcovered]
      refine ⟨hcounted, hindices, fun h => hcovered (hcounted.covered_iff.mpr h), found, ?_, rfl⟩
      simpa using hwindows

/-- One turn of the sweep. -/
theorem Swept.advance {n : ℕ} {all rest : List Event} {s : Sweep} {e : Event}
    (h : Swept n all s (e :: rest)) (he : e.index < n) : Swept n all (advance n s e) rest := by
  obtain ⟨found, hwindows, hbest⟩ := h.found
  rw [Retrieval.advance, hbest]
  refine swept_shrink (h.counted.push he) ?_ h.uncovered hwindows
  intro a ha
  rcases List.mem_append.mp ha with ha | ha
  · exact h.indices a ha
  · rw [List.mem_singleton.mp ha]
    exact he

theorem swept_foldl {n : ℕ} {all rest : List Event} {s : Sweep} (h : Swept n all s rest)
    (hindices : ∀ e ∈ rest, e.index < n) : Swept n all (rest.foldl (advance n) s) [] := by
  induction rest generalizing s with
  | nil => exact h
  | cons e rest ih =>
    exact ih (h.advance (hindices e List.mem_cons_self))
      fun a ha => hindices a (List.mem_cons_of_mem _ ha)

/-- The sweep finds the first least window. -/
theorem best_sweep {n : ℕ} (hn : 0 < n) {all : List Event} (hindices : ∀ e ∈ all, e.index < n) :
    (all.foldl (advance n) ⟨fun _ => 0, 0, [], none⟩).best = (windows n all).foldl better none := by
  have hempty : ¬ Covers n ([] : List Event) := fun h => by simpa using h 0 hn
  have hstart : Swept n all ⟨fun _ => 0, 0, [], none⟩ all :=
    ⟨⟨by simp, by simp⟩, by simp, hempty, [], by simp, rfl⟩
  have hend := swept_foldl hstart hindices
  obtain ⟨found, hwindows, hbest⟩ := hend.found
  rw [List.append_nil, windows_eq_nil hend.uncovered, List.append_nil] at hwindows
  rw [hbest, hwindows]

/-! ## The least window -/

/-- The first least interval of a list. -/
def IsFirstLeast (w : ℕ × ℕ) (l : List (ℕ × ℕ)) : Prop :=
  ∃ before after, l = before ++ w :: after ∧ (∀ v ∈ before, extent w < extent v) ∧
    ∀ v ∈ after, extent w ≤ extent v

theorem IsFirstLeast.le {w v : ℕ × ℕ} {l : List (ℕ × ℕ)} (h : IsFirstLeast w l) (hv : v ∈ l) :
    extent w ≤ extent v := by
  obtain ⟨before, after, rfl, hbefore, hafter⟩ := h
  rcases List.mem_append.mp hv with hv | hv
  · exact (hbefore v hv).le
  · rcases List.mem_cons.mp hv with rfl | hv
    · exact le_rfl
    · exact hafter v hv

theorem IsFirstLeast.mem {w : ℕ × ℕ} {l : List (ℕ × ℕ)} (h : IsFirstLeast w l) : w ∈ l := by
  obtain ⟨before, after, rfl, -, -⟩ := h
  simp

/-- The fold keeps the first least interval. -/
theorem isFirstLeast_foldl {w : ℕ × ℕ} :
    ∀ {rest before after : List (ℕ × ℕ)}, (∀ v ∈ before, extent w < extent v) →
      (∀ v ∈ after, extent w ≤ extent v) →
      ∃ u, rest.foldl better (some w) = some u ∧ IsFirstLeast u (before ++ w :: after ++ rest)
  | [], before, after, hbefore, hafter =>
    ⟨w, rfl, before, after, by simp, hbefore, hafter⟩
  | v :: rest, before, after, hbefore, hafter => by
    by_cases hlt : extent v < extent w
    · have hstep : better (some w) v = some v := if_pos hlt
      have hall : ∀ x ∈ before ++ w :: after, extent v < extent x := by
        intro x hx
        rcases List.mem_append.mp hx with hx | hx
        · exact hlt.trans (hbefore x hx)
        · rcases List.mem_cons.mp hx with rfl | hx
          · exact hlt
          · exact lt_of_lt_of_le hlt (hafter x hx)
      obtain ⟨u, hu, hleast⟩ := @isFirstLeast_foldl _ rest _ [] hall (by simp)
      refine ⟨u, ?_, ?_⟩
      · rw [List.foldl_cons, hstep, hu]
      · simpa using hleast
    · have hstep : better (some w) v = some w := if_neg hlt
      have hall : ∀ x ∈ after ++ [v], extent w ≤ extent x := by
        intro x hx
        rcases List.mem_append.mp hx with hx | hx
        · exact hafter x hx
        · rw [List.mem_singleton.mp hx]
          omega
      obtain ⟨u, hu, hleast⟩ := @isFirstLeast_foldl _ rest _ _ hbefore hall
      refine ⟨u, ?_, ?_⟩
      · rw [List.foldl_cons, hstep, hu]
      · simpa using hleast

theorem exists_isFirstLeast {l : List (ℕ × ℕ)} (hl : l ≠ []) :
    ∃ w, l.foldl better none = some w ∧ IsFirstLeast w l := by
  obtain ⟨v, rest, rfl⟩ := List.exists_cons_of_ne_nil hl
  obtain ⟨w, hw, hleast⟩ := @isFirstLeast_foldl v rest [] [] (by simp) (by simp)
  exact ⟨w, hw, by simpa using hleast⟩

/-! ## The events of some constraints -/

theorem mem_eventsFrom {i : ℕ} {constraints : List Spans} {e : Event} :
    e ∈ eventsFrom i constraints ↔
      ∃ k spans, constraints[k]? = some spans ∧ (e.start, e.stop) ∈ spans.take 32 ∧ e.index = i + k := by
  induction constraints generalizing i with
  | nil => simp [eventsFrom]
  | cons spans rest ih =>
    rw [eventsFrom, List.mem_append, ih, List.mem_map]
    constructor
    · rintro (⟨span, hspan, rfl⟩ | ⟨k, found, hk, hspan, hindex⟩)
      · exact ⟨0, spans, rfl, hspan, rfl⟩
      · exact ⟨k + 1, found, hk, hspan, by omega⟩
    · rintro ⟨k, found, hk, hspan, hindex⟩
      cases k with
      | zero =>
        obtain rfl := Option.some.inj hk
        refine .inl ⟨(e.start, e.stop), hspan, ?_⟩
        rw [← Nat.add_zero i, ← hindex]
      | succ k => exact .inr ⟨k, found, hk, hspan, by omega⟩

theorem mem_events {constraints : List Spans} {e : Event} :
    e ∈ events constraints ↔
      ∃ spans, constraints[e.index]? = some spans ∧ (e.start, e.stop) ∈ spans.take 32 := by
  rw [events, List.mem_insertionSort, mem_eventsFrom]
  constructor
  · rintro ⟨k, spans, hk, hspan, hindex⟩
    rw [Nat.zero_add] at hindex
    exact ⟨spans, hindex ▸ hk, hspan⟩
  · rintro ⟨spans, hk, hspan⟩
    exact ⟨e.index, spans, hk, hspan, (Nat.zero_add _).symm⟩

instance : Std.Total Event.before where
  total a b := by
    unfold Event.before
    omega

instance : IsTrans Event Event.before where
  trans a b c := by
    unfold Event.before
    omega

/-- The events come by their start. -/
theorem pairwise_events (constraints : List Spans) :
    (events constraints).Pairwise fun a b => a.start ≤ b.start := by
  refine (List.pairwise_insertionSort Event.before _).imp fun h => ?_
  rcases h with h | h
  · exact h.le
  · exact h.1.le

theorem mem_windows {n : ℕ} {l : List Event} {w : ℕ × ℕ} :
    w ∈ windows n l ↔ ∃ e rest last, e :: rest <:+ l ∧ closing n [] (e :: rest) = some last ∧
      w = (e.start, last.stop) := by
  induction l with
  | nil => simp [windows]
  | cons a l ih =>
    rw [windows, List.mem_append, ih]
    constructor
    · rintro (hw | ⟨e, rest, last, hsuffix, hclosing, hw⟩)
      · obtain ⟨last, hclosing, hw⟩ := Option.map_eq_some_iff.mp (Option.mem_toList.mp hw)
        exact ⟨a, l, last, List.suffix_rfl, hclosing, hw.symm⟩
      · exact ⟨e, rest, last, hsuffix.trans (List.suffix_cons a l), hclosing, hw⟩
    · rintro ⟨e, rest, last, hsuffix, hclosing, rfl⟩
      rcases List.suffix_cons_iff.mp hsuffix with heq | hsuffix
      · obtain ⟨rfl, rfl⟩ := List.cons.inj heq
        left
        rw [hclosing]
        simp
      · exact .inr ⟨e, rest, last, hsuffix, hclosing, rfl⟩

/-- A cover is closed by one of its events. -/
theorem exists_closing {n : ℕ} :
    ∀ {seen l : List Event}, ¬ Covers n seen → Covers n (seen ++ l) →
      ∃ last ∈ l, closing n seen l = some last
  | seen, [], hno, hyes => absurd (by simpa using hyes) hno
  | seen, a :: l, _, hyes => by
    by_cases hfirst : Covers n (seen ++ [a])
    · exact ⟨a, List.mem_cons_self, by rw [closing, if_pos hfirst]⟩
    · obtain ⟨last, hmem, hclosing⟩ := exists_closing hfirst (by simpa using hyes)
      exact ⟨last, List.mem_cons_of_mem _ hmem, by rw [closing, if_neg hfirst, hclosing]⟩

theorem index_lt {constraints : List Spans} {e : Event} (he : e ∈ events constraints) :
    e.index < constraints.length := by
  obtain ⟨spans, hi, -⟩ := mem_events.mp he
  exact (List.getElem?_eq_some_iff.mp hi).1

/-! ## The tightest interval -/

/-- Between 1 and 32 spans for every constraint, none of them empty. -/
structure Requested (constraints : List Spans) : Prop where
  nonempty : constraints ≠ []
  spans : ∀ spans ∈ constraints, spans ≠ [] ∧ spans.length ≤ 32 ∧ ∀ span ∈ spans, span.1 < span.2

/-- The interval holds a whole span of every constraint. -/
def HoldsAll (constraints : List Spans) (interval : ℕ × ℕ) : Prop :=
  ∀ spans ∈ constraints, ∃ span ∈ spans, interval.1 ≤ span.1 ∧ span.2 ≤ interval.2

/-- The result holds a whole span of every constraint, no shorter interval does, and the verdict is
that such an interval fits. -/
def FindsTightest (constraints : List Spans) : Prop :=
  (∃ interval, minimumConstraintSpan constraints = some interval ∧ HoldsAll constraints interval ∧
      ∀ other, HoldsAll constraints other → extent interval ≤ extent other) ∧
    (coherent constraints ↔
      ∃ interval, HoldsAll constraints interval ∧ extent interval ≤ maxStructuredSpanChars)

/-- What the windows may be.  A window may be overhung, the span that starts last ending before a span
of every constraint has ended, and then an honest one beats it: a shorter one, or one as short that
comes earlier.  A window may be overlong, spans of every constraint ending before the span that closes
it, and then some window is no longer than these take. -/
structure Untangled (constraints : List Spans) : Prop where
  overhung : ∀ before w after, windows constraints.length (events constraints) =
      before ++ w :: after → ¬ HoldsAll constraints w →
    ∃ v, HoldsAll constraints v ∧
      (v ∈ before ∧ extent v ≤ extent w ∨ v ∈ after ∧ extent v < extent w)
  overlong : ∀ e rest last, e :: rest <:+ events constraints →
      closing constraints.length [] (e :: rest) = some last → ∀ stop < last.stop,
      (∀ i < constraints.length, ∃ a ∈ e :: rest, a.index = i ∧ a.stop ≤ stop) →
    ∃ w ∈ windows constraints.length (events constraints), extent w ≤ extent (e.start, stop)

section Tightest

variable {constraints : List Spans} (h : Requested constraints)
include h

theorem Requested.mem_events {i s t : ℕ} :
    (⟨s, t, i⟩ : Event) ∈ events constraints ↔
      ∃ spans, constraints[i]? = some spans ∧ (s, t) ∈ spans := by
  rw [Retrieval.mem_events]
  constructor
  · rintro ⟨spans, hi, hspan⟩
    exact ⟨spans, hi, List.mem_of_mem_take hspan⟩
  · rintro ⟨spans, hi, hspan⟩
    have hlength := (h.spans spans (List.mem_of_getElem? hi)).2.1
    exact ⟨spans, hi, by rwa [List.take_of_length_le hlength]⟩

theorem Requested.covers : Covers constraints.length (events constraints) := by
  intro i hi
  have hspans := (h.spans constraints[i] (List.getElem_mem hi)).1
  obtain ⟨span, hspan⟩ := List.exists_mem_of_ne_nil _ hspans
  exact ⟨⟨span.1, span.2, i⟩, h.mem_events.mpr ⟨_, List.getElem?_eq_getElem hi, hspan⟩, rfl⟩

theorem Requested.uncovered_nil : ¬ Covers constraints.length ([] : List Event) := by
  intro hcovers
  simpa using hcovers 0 (List.length_pos_iff.mpr h.nonempty)

theorem minimumConstraintSpan_eq :
    minimumConstraintSpan constraints =
      (windows constraints.length (events constraints)).foldl better none := by
  rw [minimumConstraintSpan]
  exact best_sweep (List.length_pos_iff.mpr h.nonempty) fun e he => index_lt he

theorem exists_window : ∃ w, minimumConstraintSpan constraints = some w ∧
    IsFirstLeast w (windows constraints.length (events constraints)) := by
  rw [minimumConstraintSpan_eq h]
  refine exists_isFirstLeast ?_
  obtain ⟨last, -, hclosing⟩ := exists_closing (l := events constraints) h.uncovered_nil
    (by simpa using h.covers)
  cases hevents : events constraints with
  | nil =>
    rw [hevents] at hclosing
    cases hclosing
  | cons e rest =>
    rw [hevents] at hclosing
    intro hnil
    have hmem : (e.start, last.stop) ∈ windows constraints.length (e :: rest) :=
      mem_windows.mpr ⟨e, rest, last, List.suffix_rfl, hclosing, rfl⟩
    rw [hnil] at hmem
    cases hmem

theorem coherent_iff {w : ℕ × ℕ} (hw : minimumConstraintSpan constraints = some w) :
    coherent constraints ↔ extent w ≤ maxStructuredSpanChars := by
  have hany : constraints.any List.isEmpty = false := by
    rw [List.any_eq_false]
    intro spans hspans
    simpa using (h.spans spans hspans).1
  rw [coherent, hany, hw]
  simp

/-- An interval that holds all holds them behind some event. -/
theorem exists_suffix {interval : ℕ × ℕ} (hall : HoldsAll constraints interval) :
    ∃ e rest, e :: rest <:+ events constraints ∧ interval.1 ≤ e.start ∧
      ∀ i < constraints.length, ∃ a ∈ e :: rest, a.index = i ∧ a.stop ≤ interval.2 := by
  have hevents : ∀ i < constraints.length, ∃ a ∈ events constraints,
      a.index = i ∧ interval.1 ≤ a.start ∧ a.stop ≤ interval.2 := by
    intro i hi
    obtain ⟨span, hspan, hstart, hstop⟩ := hall _ (List.getElem_mem hi)
    exact ⟨⟨span.1, span.2, i⟩, h.mem_events.mpr ⟨_, List.getElem?_eq_getElem hi, hspan⟩, rfl,
      hstart, hstop⟩
  have hpos : 0 < constraints.length := List.length_pos_iff.mpr h.nonempty
  generalize events constraints = l at hevents
  induction l with
  | nil =>
    obtain ⟨a, ha, -⟩ := hevents 0 hpos
    cases ha
  | cons e rest ih =>
    by_cases he : interval.1 ≤ e.start
    · refine ⟨e, rest, List.suffix_rfl, he, fun i hi => ?_⟩
      obtain ⟨a, ha, hindex, -, hstop⟩ := hevents i hi
      exact ⟨a, ha, hindex, hstop⟩
    · -- The first event starts too early to be one of the witnesses.
      have hrest : ∀ i < constraints.length, ∃ a ∈ rest,
          a.index = i ∧ interval.1 ≤ a.start ∧ a.stop ≤ interval.2 := by
        intro i hi
        obtain ⟨a, ha, hindex, hstart, hstop⟩ := hevents i hi
        rcases List.mem_cons.mp ha with rfl | ha
        · exact absurd hstart he
        · exact ⟨a, ha, hindex, hstart, hstop⟩
      obtain ⟨f, more, hsuffix, hf⟩ := ih hrest
      exact ⟨f, more, hsuffix.trans (List.suffix_cons e rest), hf⟩

/-- Behind an event there are spans of every constraint, and the interval up to their end holds
them. -/
theorem holdsAll_of_suffix {e : Event} {rest : List Event} {stop : ℕ}
    (hsuffix : e :: rest <:+ events constraints)
    (hstop : ∀ i < constraints.length, ∃ a ∈ e :: rest, a.index = i ∧ a.stop ≤ stop) :
    HoldsAll constraints (e.start, stop) := by
  intro spans hspans
  obtain ⟨i, hi, rfl⟩ := List.getElem_of_mem hspans
  obtain ⟨a, ha, hindex, hle⟩ := hstop i hi
  have hstart : e.start ≤ a.start := by
    rcases List.mem_cons.mp ha with rfl | ha
    · exact le_rfl
    · have hsorted := (pairwise_events constraints).sublist hsuffix.sublist
      exact (List.pairwise_cons.mp hsorted).1 a ha
  obtain ⟨spans, hspans, hspan⟩ := h.mem_events.mp (hsuffix.subset ha)
  rw [hindex, List.getElem?_eq_getElem hi] at hspans
  rw [Option.some.inj hspans]
  exact ⟨(a.start, a.stop), hspan, hstart, hle⟩

/-- A window is no longer than any interval that holds all. -/
theorem Untangled.exists_window_le (hspans : Untangled constraints) {interval : ℕ × ℕ}
    (hall : HoldsAll constraints interval) :
    ∃ w ∈ windows constraints.length (events constraints), extent w ≤ extent interval := by
  obtain ⟨e, rest, hsuffix, hstart, hstop⟩ := exists_suffix h hall
  have hcovers : Covers constraints.length ([] ++ e :: rest) := by
    intro i hi
    obtain ⟨a, ha, hindex, -⟩ := hstop i hi
    exact ⟨a, ha, hindex⟩
  obtain ⟨last, -, hclosing⟩ := exists_closing h.uncovered_nil hcovers
  by_cases hlast : last.stop ≤ interval.2
  · refine ⟨(e.start, last.stop), mem_windows.mpr ⟨e, rest, last, hsuffix, hclosing, rfl⟩, ?_⟩
    simp only [extent]
    omega
  · obtain ⟨w, hw, hle⟩ := hspans.overlong e rest last hsuffix hclosing interval.2
      (not_le.mp hlast) hstop
    refine ⟨w, hw, hle.trans ?_⟩
    simp only [extent]
    omega

theorem findsTightest_of_untangled (hspans : Untangled constraints) :
    FindsTightest constraints := by
  obtain ⟨w, hw, hleast⟩ := exists_window h
  have hall : HoldsAll constraints w := by
    by_contra hno
    obtain ⟨before, after, hwindows, hbefore, hafter⟩ := hleast
    obtain ⟨v, -, ⟨hv, hle⟩ | ⟨hv, hlt⟩⟩ := hspans.overhung before w after hwindows hno
    · have := hbefore v hv
      omega
    · have := hafter v hv
      omega
  have htightest : ∀ other, HoldsAll constraints other → extent w ≤ extent other := by
    intro other hother
    obtain ⟨v, hv, hle⟩ := hspans.exists_window_le h hother
    exact (hleast.le hv).trans hle
  refine ⟨⟨w, hw, hall, htightest⟩, ?_⟩
  rw [coherent_iff h hw]
  constructor
  · intro hle
    exact ⟨w, hall, hle⟩
  · rintro ⟨other, hother, hle⟩
    exact (htightest other hother).trans hle

theorem untangled_of_findsTightest (hfinds : FindsTightest constraints) :
    Untangled constraints := by
  obtain ⟨⟨w, hw, hall, htightest⟩, -⟩ := hfinds
  obtain ⟨w', hw', hleast⟩ := exists_window h
  obtain rfl : w = w' := Option.some.inj (hw.symm.trans hw')
  refine ⟨?_, ?_⟩
  · intro before u after hwindows hu
    have hne : u ≠ w := by
      rintro rfl
      exact hu hall
    obtain ⟨first, others, hfirst, hbefore, hafter⟩ := hleast
    rw [hfirst] at hwindows
    refine ⟨w, hall, ?_⟩
    rcases List.append_eq_append_iff.mp hwindows with ⟨c, rfl, hc⟩ | ⟨c, rfl, hc⟩
    · cases c with
      | nil => exact absurd (List.cons.inj hc).1.symm hne
      | cons v c =>
        obtain ⟨rfl, rfl⟩ := List.cons.inj hc
        exact .inl ⟨by simp, hafter u (by simp)⟩
    · cases c with
      | nil => exact absurd (List.cons.inj hc).1 hne
      | cons v c =>
        obtain ⟨rfl, rfl⟩ := List.cons.inj hc
        exact .inr ⟨by simp, hbefore u (by simp)⟩
  · intro e rest last hsuffix _ stop _ hstop
    exact ⟨w, hleast.mem, htightest _ (holdsAll_of_suffix h hsuffix hstop)⟩

/-- The sweep finds the tightest interval when its windows are untangled, and not otherwise. -/
theorem findsTightest_iff_untangled : FindsTightest constraints ↔ Untangled constraints :=
  ⟨untangled_of_findsTightest h, findsTightest_of_untangled h⟩

end Tightest

/-- A span inside the first one: the interval found ends before that one does. -/
theorem minimumConstraintSpan_nested : Requested [[(0, 10)], [(2, 4)]] ∧
    minimumConstraintSpan [[(0, 10)], [(2, 4)]] = some (0, 4) ∧
    ¬ HoldsAll [[(0, 10)], [(2, 4)]] (0, 4) ∧ ¬ FindsTightest [[(0, 10)], [(2, 4)]] := by
  have hfound : minimumConstraintSpan [[(0, 10)], [(2, 4)]] = some (0, 4) := by decide +kernel
  have hno : ¬ HoldsAll [[(0, 10)], [(2, 4)]] (0, 4) := by
    unfold HoldsAll
    decide
  refine ⟨⟨by decide, by decide⟩, hfound, hno, ?_⟩
  rintro ⟨⟨w, hw, hall, -⟩, -⟩
  rw [hfound] at hw
  rw [← Option.some.inj hw] at hall
  exact hno hall

/-! ## Spans side by side -/

/-- No span starts later and ends earlier than another one. -/
def Unnested (constraints : List Spans) : Prop :=
  ∀ spans ∈ constraints, ∀ span ∈ spans, ∀ others ∈ constraints, ∀ other ∈ others,
    span.1 < other.1 → span.2 ≤ other.2

/-- The events of such spans end in the order in which they start. -/
theorem Unnested.pairwise_stop {constraints : List Spans} (h : Unnested constraints) :
    (events constraints).Pairwise fun a b => a.stop ≤ b.stop := by
  have hspan : ∀ a ∈ events constraints, ∃ spans ∈ constraints, (a.start, a.stop) ∈ spans := by
    rintro ⟨start, stop, index⟩ ha
    obtain ⟨spans, hindex, hmem⟩ := mem_events.mp ha
    exact ⟨spans, List.mem_of_getElem? hindex, List.mem_of_mem_take hmem⟩
  have hsorted : (events constraints).Pairwise Event.before := List.pairwise_insertionSort _ _
  refine hsorted.imp_of_mem fun {a b} ha hb hbefore => ?_
  rcases hbefore with hlt | ⟨-, hlt | ⟨heq, -⟩⟩
  · obtain ⟨spans, hspans, ha⟩ := hspan a ha
    obtain ⟨others, hothers, hb⟩ := hspan b hb
    exact h spans hspans _ ha others hothers _ hb hlt
  · exact hlt.le
  · exact heq.le

/-- An event closes a window that does not cover without it. -/
theorem exists_append_of_closing {n : ℕ} {last : Event} :
    ∀ {seen l : List Event}, ¬ Covers n seen → closing n seen l = some last →
      ∃ before after, l = before ++ last :: after ∧ Covers n (seen ++ (before ++ [last])) ∧
        ¬ Covers n (seen ++ before)
  | seen, [], _, h => by cases h
  | seen, a :: l, hseen, h => by
    rw [closing] at h
    by_cases hfirst : Covers n (seen ++ [a])
    · rw [if_pos hfirst] at h
      obtain rfl := Option.some.inj h
      exact ⟨[], l, rfl, hfirst, by simpa using hseen⟩
    · rw [if_neg hfirst] at h
      obtain ⟨before, after, rfl, hyes, hno⟩ := exists_append_of_closing hfirst h
      exact ⟨a :: before, after, rfl, by simpa using hyes, by simpa using hno⟩

/-- The windows of spans side by side are untangled. -/
theorem untangled_of_unnested {constraints : List Spans} (h : Requested constraints)
    (hspans : Unnested constraints) : Untangled constraints := by
  refine ⟨?_, ?_⟩
  · intro first w others hwindows hw
    have hmem : w ∈ windows constraints.length (events constraints) := by
      rw [hwindows]
      simp
    obtain ⟨e, rest, last, hsuffix, hclosing, rfl⟩ := mem_windows.mp hmem
    obtain ⟨before, after, heq, hcovers, -⟩ := exists_append_of_closing h.uncovered_nil hclosing
    rw [List.nil_append] at hcovers
    have hsorted := List.Pairwise.sublist hsuffix.sublist hspans.pairwise_stop
    rw [heq, List.pairwise_append] at hsorted
    refine absurd (holdsAll_of_suffix h hsuffix fun i hi => ?_) hw
    obtain ⟨a, ha, hindex⟩ := hcovers i hi
    rw [heq]
    rcases List.mem_append.mp ha with ha | ha
    · exact ⟨a, List.mem_append_left _ ha, hindex, hsorted.2.2 a ha last List.mem_cons_self⟩
    · rw [List.mem_singleton] at ha
      subst ha
      exact ⟨a, by simp, hindex, le_rfl⟩
  · intro e rest last hsuffix hclosing stop hstop hall
    obtain ⟨before, after, heq, -, hno⟩ := exists_append_of_closing h.uncovered_nil hclosing
    have hsorted := List.Pairwise.sublist hsuffix.sublist hspans.pairwise_stop
    rw [heq, List.pairwise_append, List.pairwise_cons] at hsorted
    -- What ends before the closing event comes before it.
    refine absurd (fun i hi => ?_) hno
    obtain ⟨a, ha, hindex, hle⟩ := hall i hi
    rw [heq] at ha
    rcases List.mem_append.mp ha with ha | ha
    · exact ⟨a, ha, hindex⟩
    · rcases List.mem_cons.mp ha with rfl | ha
      · omega
      · have := hsorted.2.1.1 a ha
        omega

/-- Among spans of which none starts later and ends earlier than another one, the sweep finds the
tightest interval. -/
theorem minimumConstraintSpan_tightest {constraints : List Spans} (h : Requested constraints)
    (hspans : Unnested constraints) : FindsTightest constraints :=
  findsTightest_of_untangled h (untangled_of_unnested h hspans)

/-- Three constraints whose spans overlap, one of them with two spans. -/
theorem minimumConstraintSpan_tightest_overlapping :
    FindsTightest [[(0, 4), (9, 12)], [(2, 6)], [(5, 6), (20, 30)]] :=
  minimumConstraintSpan_tightest ⟨by decide, by decide⟩ (by unfold Unnested; decide)

end Retrieval
end Neocortex
