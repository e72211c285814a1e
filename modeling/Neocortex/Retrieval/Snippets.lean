import Mathlib.Data.Finset.Card
import Neocortex.Retrieval.Literal

/-!
# The window of a snippet

The window of `analyze_literal_text` moves over the wanted words of a text.  It drops a word at its
front when it has become too wide, or when the term of the word stands in it once more.  Its best
state places the snippet that `query_centered_snippet` cuts out.

* `popLeft_spec`: what the loop leaves of a window;
* `Windowed`: what the window and the best window say of the words seen so far;
* `snippet_has_most_terms`: no other stretch of the text of the same length has more of the terms.
-/

namespace Neocortex
namespace Retrieval

open Python Runs

/-! ## Windows -/

/-- The terms of some wanted words. -/
def termsOf (l : List Wanted) : Finset Text := (l.map Wanted.term).toFinset

theorem mem_termsOf {l : List Wanted} {t : Text} : t ∈ termsOf l ↔ ∃ w ∈ l, w.term = t := by
  rw [termsOf, List.mem_toFinset, List.mem_map]

theorem termsOf_cons (w : Wanted) (l : List Wanted) : termsOf (w :: l) = insert w.term (termsOf l) := by
  simp [termsOf]

theorem termsOf_append (l m : List Wanted) : termsOf (l ++ m) = termsOf l ∪ termsOf m := by
  simp [termsOf, List.toFinset_append]

theorem termsOf_mono {l m : List Wanted} (h : l ⊆ m) : termsOf l ⊆ termsOf m := by
  intro t ht
  obtain ⟨w, hw, rfl⟩ := mem_termsOf.mp ht
  exact mem_termsOf.mpr ⟨w, h hw, rfl⟩

/-- The words stand in the text one behind another. -/
def Ordered (l : List Wanted) : Prop :=
  (∀ w ∈ l, w.start < w.stop) ∧ l.Pairwise fun v w => v.stop < w.start

/-- The words begin at most `chars` characters in front of `stop`. -/
def Near (chars stop : ℕ) (l : List Wanted) : Prop := ∀ w ∈ l.head?, stop - w.start ≤ chars

/-- The counters of a window. -/
structure Counts (l : List Wanted) (counts : Text → ℕ) (distinct : ℕ) : Prop where
  counts : ∀ t, counts t = (l.map Wanted.term).count t
  distinct : distinct = (termsOf l).card

theorem Counts.push {l : List Wanted} {counts : Text → ℕ} {distinct : ℕ}
    (h : Counts l counts distinct) (w : Wanted) :
    Counts (l ++ [w]) (Function.update counts w.term (counts w.term + 1))
      (if counts w.term = 0 then distinct + 1 else distinct) := by
  constructor
  · intro t
    rw [List.map_append, List.count_append, List.map_singleton, List.count_singleton,
      Function.update_apply]
    split_ifs with ht hw hw
    · rw [ht, h.counts]
    · simp [ht] at hw
    · simp at hw
      exact absurd hw.symm ht
    · rw [h.counts, Nat.add_zero]
  · have hterms : termsOf (l ++ [w]) = insert w.term (termsOf l) := by
      rw [termsOf_append, termsOf_cons, Finset.union_insert]
      simp [termsOf]
    have hzero : counts w.term = 0 ↔ w.term ∉ termsOf l := by
      rw [h.counts, List.count_eq_zero, termsOf, List.mem_toFinset]
    rw [hterms]
    split_ifs with hnew
    · rw [Finset.card_insert_of_notMem (hzero.mp hnew), h.distinct]
    · rw [Finset.insert_eq_of_mem (not_not.mp fun hmem => hnew (hzero.mpr hmem)), h.distinct]

theorem Counts.pop {w : Wanted} {l : List Wanted} {counts : Text → ℕ} {distinct : ℕ}
    (h : Counts (w :: l) counts distinct) :
    Counts l (Function.update counts w.term (counts w.term - 1))
      (if counts w.term - 1 = 0 then distinct - 1 else distinct) := by
  have hown : counts w.term = (l.map Wanted.term).count w.term + 1 := by
    rw [h.counts, List.map_cons, List.count_cons_self]
  constructor
  · intro t
    rw [Function.update_apply]
    split_ifs with ht
    · rw [ht, hown, Nat.add_sub_cancel]
    · rw [h.counts, List.map_cons, List.count_cons_of_ne (Ne.symm ht)]
  · have hzero : counts w.term - 1 = 0 ↔ w.term ∉ termsOf l := by
      rw [hown, Nat.add_sub_cancel, List.count_eq_zero, termsOf, List.mem_toFinset]
    rw [h.distinct, termsOf_cons]
    split_ifs with hlast
    · rw [Finset.card_insert_of_notMem (hzero.mp hlast), Nat.add_sub_cancel]
    · rw [Finset.insert_eq_of_mem (not_not.mp fun hmem => hlast (hzero.mpr hmem))]

/-- What the loop leaves: an end of the window that is near enough, with all terms of every end
of the window that is near enough. -/
theorem popLeft_spec (chars stop : ℕ) (l : List Wanted) {counts : Text → ℕ} {distinct : ℕ}
    (h : Counts l counts distinct) (hstarts : l.Pairwise fun v w => v.start ≤ w.start) :
    (popLeft chars stop counts distinct l).1 <:+ l ∧
      Near chars stop (popLeft chars stop counts distinct l).1 ∧
      Counts (popLeft chars stop counts distinct l).1 (popLeft chars stop counts distinct l).2.1
        (popLeft chars stop counts distinct l).2.2 ∧
      ∀ v, v <:+ l → Near chars stop v →
        termsOf v ⊆ termsOf (popLeft chars stop counts distinct l).1 := by
  induction l generalizing counts distinct with
  | nil =>
    refine ⟨List.suffix_refl _, by simp [popLeft, Near], h, ?_⟩
    intro v hv _
    rw [List.suffix_nil.mp hv]
    exact Finset.Subset.refl _
  | cons w l ih =>
    rw [popLeft]
    by_cases hpop : chars < stop - w.start ∨ 1 < counts w.term
    · rw [if_pos hpop]
      obtain ⟨h₁, h₂, h₃, h₄⟩ := ih h.pop hstarts.of_cons
      refine ⟨h₁.trans (List.suffix_cons _ _), h₂, h₃, ?_⟩
      intro v hv hnear
      rcases List.suffix_cons_iff.mp hv with rfl | hv
      · -- the window was near enough, so the term of its first word stands in it once more
        have hnarrow := hnear w rfl
        have htwice := hpop.resolve_left (by omega)
        rw [h.counts, List.map_cons, List.count_cons_self] at htwice
        have hmem : w.term ∈ termsOf l := by
          rw [termsOf, List.mem_toFinset]
          exact List.count_pos_iff.mp (by omega)
        rw [termsOf_cons, Finset.insert_eq_of_mem hmem]
        refine h₄ l (List.suffix_refl _) ?_
        intro b hb
        have hle := List.rel_of_pairwise_cons hstarts (List.mem_of_mem_head? hb)
        omega
      · exact h₄ v hv hnear
    · rw [if_neg hpop]
      refine ⟨List.suffix_refl _, ?_, h, fun v hv _ => termsOf_mono hv.subset⟩
      rintro v ⟨⟩
      omega

/-! ## The sweep -/

/-- The best window: its bounds hold a stretch of the words seen, with so many terms. -/
def Achieves (chars : ℕ) (seen : List Wanted) (key : WindowKey) (bounds : ℕ × ℕ) : Prop :=
  bounds.2 - bounds.1 ≤ chars ∧ ∃ z, z <:+: seen ∧ (termsOf z).card = key.distinct ∧
    ∀ w ∈ z, bounds.1 ≤ w.start ∧ w.stop ≤ bounds.2

/-- What the window and the best window say of the words `seen`. -/
structure Windowed (chars : ℕ) (seen : List Wanted) (s : WindowSearch) : Prop where
  suffix : s.window <:+ seen
  counts : Counts s.window s.counts s.distinct
  /-- The window has all terms of every end of the words that is near enough to their end. -/
  covers : ∀ last ∈ seen.getLast?, ∀ v, v <:+ seen → Near chars last.stop v →
    termsOf v ⊆ termsOf s.window
  /-- So has the best window of every stretch that is short enough. -/
  best : ∀ front, front <+: seen → ∀ last ∈ front.getLast?, ∀ v, v <:+ front → v ≠ [] →
    Near chars last.stop v → ∃ key, s.best = some key ∧ (termsOf v).card ≤ key.distinct
  achieved : ∀ key, s.best = some key → ∃ bounds, s.bestBounds = some bounds ∧
    Achieves chars seen key bounds

theorem windowed_nil (chars : ℕ) : Windowed chars [] {} := by
  refine ⟨List.suffix_refl _, ⟨by simp, by simp [termsOf]⟩, by simp, ?_, by simp⟩
  intro front hfront last hlast
  rw [List.prefix_nil.mp hfront] at hlast
  simp at hlast

theorem Achieves.append {chars : ℕ} {seen : List Wanted} {key : WindowKey} {bounds : ℕ × ℕ}
    (h : Achieves chars seen key bounds) (w : Wanted) : Achieves chars (seen ++ [w]) key bounds := by
  obtain ⟨hwidth, z, hz, hrest⟩ := h
  exact ⟨hwidth, z, hz.trans (List.prefix_append _ _).isInfix, hrest⟩

section See

variable {chars : ℕ} {seen : List Wanted} {s : WindowSearch} {w : Wanted}

theorem Ordered.starts {l : List Wanted} (h : Ordered l) :
    l.Pairwise fun v w => v.start ≤ w.start := by
  refine List.Pairwise.imp_of_mem ?_ h.2
  intro v w hv hw hvw
  have := h.1 v hv
  omega

theorem Ordered.stops {l : List Wanted} (h : Ordered l) :
    l.Pairwise fun v w => v.stop ≤ w.stop := by
  refine List.Pairwise.imp_of_mem ?_ h.2
  intro v w hv hw hvw
  have := h.1 w hw
  omega

/-- An end of the words, and the words with one more behind them. -/
theorem Windowed.popped_spec (h : Windowed chars seen s) (hordered : Ordered (seen ++ [w])) :
    (popped chars s w).1 <:+ seen ++ [w] ∧ Near chars w.stop (popped chars s w).1 ∧
      Counts (popped chars s w).1 (popped chars s w).2.1 (popped chars s w).2.2 ∧
      ∀ v, v <:+ seen ++ [w] → Near chars w.stop v → termsOf v ⊆ termsOf (popped chars s w).1 := by
  have hwindow : s.window ++ [w] <:+ seen ++ [w] := by
    obtain ⟨front, hfront⟩ := h.suffix
    exact ⟨front, by rw [← List.append_assoc, hfront]⟩
  have hstarts := hordered.starts
  obtain ⟨h₁, h₂, h₃, h₄⟩ := popLeft_spec chars w.stop _ (h.counts.push w)
    (hstarts.sublist hwindow.sublist)
  refine ⟨h₁.trans hwindow, h₂, h₃, ?_⟩
  intro v hv hnear
  rcases List.suffix_or_suffix_of_suffix hv hwindow with hshort | hlong
  · exact h₄ v hshort hnear
  · -- the window is an end of `v`, which was near enough before the last word, too
    obtain ⟨v', rfl⟩ : ∃ v', v = v' ++ [w] := by
      obtain ⟨front, hfront⟩ := hlong
      exact ⟨front ++ s.window, by rw [← hfront, List.append_assoc]⟩
    have hv' : v' <:+ seen := by
      obtain ⟨front, hfront⟩ := hv
      rw [← List.append_assoc] at hfront
      exact ⟨front, (List.append_inj' hfront rfl).1⟩
    have hterms : termsOf v' ⊆ termsOf s.window := by
      cases v' with
      | nil => simp [termsOf]
      | cons b v' =>
        have hne : seen ≠ [] := by
          rintro rfl
          exact absurd (List.suffix_nil.mp hv') (List.cons_ne_nil _ _)
        refine h.covers _ (List.getLast?_eq_getLast_of_ne_nil hne) _ hv' ?_
        rintro c ⟨⟩
        have hb := hnear b rfl
        have hstop := (List.pairwise_append.mp hordered.stops).2.2 _ (List.getLast_mem hne) w
          (List.mem_singleton.mpr rfl)
        omega
    have hwide : Near chars w.stop (s.window ++ [w]) := by
      intro b hb
      obtain ⟨front, hfront⟩ := hlong
      cases front with
      | nil =>
        rw [List.nil_append] at hfront
        exact hnear b (hfront ▸ hb)
      | cons c front =>
        have hc := hnear c (by rw [← hfront]; rfl)
        have hle : c.start ≤ b.start := by
          have hsorted := hstarts.sublist hv.sublist
          rw [← hfront, List.cons_append] at hsorted
          exact List.rel_of_pairwise_cons hsorted
            (List.mem_append_right _ (List.mem_of_mem_head? hb))
        omega
    have hall := h₄ _ (List.suffix_refl _) hwide
    refine Finset.Subset.trans ?_ hall
    rw [termsOf_append, termsOf_append]
    exact Finset.union_subset_union_left hterms

theorem see_window (chars : ℕ) (s : WindowSearch) (w : Wanted) :
    (s.see chars w).window = (popped chars s w).1 ∧
    (s.see chars w).counts = (popped chars s w).2.1 ∧
    (s.see chars w).distinct = (popped chars s w).2.2 := by
  rw [WindowSearch.see]
  generalize popped chars s w = p
  unfold WindowSearch.settle
  cases p.1.head? with
  | none => exact ⟨rfl, rfl, rfl⟩
  | some head =>
    dsimp only
    split_ifs <;> exact ⟨rfl, rfl, rfl⟩

/-- The best window behind a word: the window, if it is not empty and better, or the one before. -/
theorem see_best (chars : ℕ) (s : WindowSearch) (w : Wanted) :
    (∃ head, (popped chars s w).1.head? = some head ∧
      (s.best.all fun best => (keyOf w head (popped chars s w).2.2).before best) = true ∧
      (s.see chars w).best = some (keyOf w head (popped chars s w).2.2) ∧
      (s.see chars w).bestBounds = some (head.start, w.stop)) ∨
    ((∀ head, (popped chars s w).1.head? = some head →
        (s.best.all fun best => (keyOf w head (popped chars s w).2.2).before best) = false) ∧
      (s.see chars w).best = s.best ∧
      (s.see chars w).bestBounds = some (s.bestBounds.getD (w.start, w.stop))) := by
  rw [WindowSearch.see]
  generalize popped chars s w = p
  unfold WindowSearch.settle
  cases p.1.head? with
  | none => exact Or.inr ⟨by simp, rfl, rfl⟩
  | some head =>
    dsimp only
    split_ifs with hbetter
    · exact Or.inl ⟨head, rfl, hbetter, rfl, rfl⟩
    · refine Or.inr ⟨?_, rfl, rfl⟩
      intro head' hhead'
      obtain rfl := Option.some.inj hhead'
      exact Bool.not_eq_true _ ▸ hbetter

/-- The best window has no fewer terms than the one before and the window itself. -/
theorem see_best_ge (key : WindowKey) (hkey : (s.see chars w).best = some key) :
    (∀ old, s.best = some old → old.distinct ≤ key.distinct) ∧
    ((popped chars s w).1 ≠ [] → (popped chars s w).2.2 ≤ key.distinct) := by
  rcases see_best chars s w with
    ⟨head, hhead, hbetter, hbest, -⟩ | ⟨hworse, hbest, -⟩
  · rw [hbest, Option.some.injEq] at hkey
    rw [← hkey]
    refine ⟨?_, fun _ => Nat.le_refl _⟩
    intro old hold
    rw [hold, Option.all_some, decide_eq_true_eq] at hbetter
    rcases hbetter with hlt | ⟨heq, -⟩
    · exact hlt.le
    · exact heq.ge
  · rw [hbest] at hkey
    constructor
    · intro old hold
      rw [hkey, Option.some.injEq] at hold
      rw [hold]
    · intro hne
      obtain ⟨head, rest, hcons⟩ := List.exists_cons_of_ne_nil hne
      have hnot := hworse head (by rw [hcons]; rfl)
      rw [hkey, Option.all_some, decide_eq_false_iff_not] at hnot
      by_contra hlt
      exact hnot (Or.inl (not_le.mp hlt))

theorem Windowed.see (h : Windowed chars seen s) (hordered : Ordered (seen ++ [w])) :
    Windowed chars (seen ++ [w]) (s.see chars w) := by
  obtain ⟨hsuffix, hnear, hcounts, hcovers⟩ := h.popped_spec hordered
  obtain ⟨hw₁, hw₂, hw₃⟩ := see_window chars s w
  have hbest := see_best chars s w
  -- there is a best window where there was one, or where the window is not empty
  have hexists : (∃ old, s.best = some old) ∨ (popped chars s w).1 ≠ [] →
      ∃ key, (s.see chars w).best = some key := by
    rcases hbest with ⟨head, -, -, hsome, -⟩ | ⟨hworse, hsame, -⟩
    · exact fun _ => ⟨_, hsome⟩
    · rintro (⟨old, hold⟩ | hne)
      · exact ⟨old, hsame.trans hold⟩
      · obtain ⟨head, rest, hcons⟩ := List.exists_cons_of_ne_nil hne
        have hnot := hworse head (by rw [hcons]; rfl)
        cases hold : s.best with
        | none =>
          rw [hold] at hnot
          exact absurd hnot.symm Bool.false_ne_true
        | some old => exact ⟨old, hsame.trans hold⟩
  refine ⟨hw₁ ▸ hsuffix, by rw [hw₁, hw₂, hw₃]; exact hcounts, ?_, ?_, ?_⟩
  · intro last hlast v hv hvnear
    obtain rfl : w = last := by simpa using hlast
    rw [hw₁]
    exact hcovers v hv hvnear
  · intro front hfront last hlast v hv hne hvnear
    rcases List.prefix_concat_iff.mp hfront with rfl | hfront
    · obtain rfl : w = last := by simpa using hlast
      have hterms := hcovers v hv hvnear
      have hpopped : (popped chars s w).1 ≠ [] := by
        intro hnil
        obtain ⟨b, v', rfl⟩ := List.exists_cons_of_ne_nil hne
        have hb := hterms (mem_termsOf.mpr ⟨b, List.mem_cons_self, rfl⟩)
        rw [hnil] at hb
        simp [termsOf] at hb
      obtain ⟨key, hkey⟩ := hexists (Or.inr hpopped)
      refine ⟨key, hkey, ?_⟩
      calc (termsOf v).card ≤ (termsOf (popped chars s w).1).card := Finset.card_le_card hterms
        _ = (popped chars s w).2.2 := hcounts.distinct.symm
        _ ≤ key.distinct := (see_best_ge key hkey).2 hpopped
    · obtain ⟨old, hold, hcard⟩ := h.best front hfront last hlast v hv hne hvnear
      obtain ⟨key, hkey⟩ := hexists (Or.inl ⟨old, hold⟩)
      exact ⟨key, hkey, hcard.trans ((see_best_ge key hkey).1 old hold)⟩
  · intro key hkey
    rcases hbest with ⟨head, hhead, -, hsome, hbounds⟩ | ⟨-, hsame, hbounds⟩
    · rw [hsome, Option.some.injEq] at hkey
      rw [← hkey]
      refine ⟨_, hbounds, hnear head hhead, _, hsuffix.isInfix, hcounts.distinct.symm, ?_⟩
      intro b hb
      have hstarts := hordered.starts.sublist hsuffix.sublist
      obtain ⟨rest, hcons⟩ : ∃ rest, (popped chars s w).1 = head :: rest :=
        List.head?_eq_some_iff.mp hhead
      constructor
      · rw [hcons] at hb hstarts
        rcases List.mem_cons.mp hb with rfl | hb
        · exact Nat.le_refl _
        · exact List.rel_of_pairwise_cons hstarts hb
      · rcases List.mem_append.mp (hsuffix.subset hb) with hb | hb
        · exact (List.pairwise_append.mp hordered.stops).2.2 b hb w (List.mem_singleton.mpr rfl)
        · rw [List.mem_singleton.mp hb]
    · rw [hsame] at hkey
      obtain ⟨bounds, hold, hachieves⟩ := h.achieved key hkey
      exact ⟨bounds, by rw [hbounds, hold, Option.getD_some], hachieves.append w⟩

theorem windowed_foldl (l : List Wanted) (hordered : Ordered l) :
    Windowed chars l (l.foldl (WindowSearch.see chars) {}) := by
  induction l using List.reverseRecOn with
  | nil => exact windowed_nil chars
  | append_singleton l w ih =>
    have hfront : Ordered l := ⟨fun v hv => hordered.1 v (List.mem_append_left _ hv),
      (List.pairwise_append.mp hordered.2).1⟩
    rw [List.foldl_append]
    exact (ih hfront).see hordered

end See

/-! ## The snippet -/

/-- The terms of the query among the words between two offsets of the text. -/
def termsWithin (u : CharacterData) (prepared : PreparedLiteralQuery) (text : Text)
    (start stop : ℕ) : Finset Text :=
  ((((runs u.word 0 text).filter fun r => start ≤ r.start ∧ r.stop ≤ stop).map fun r =>
    u.foldRetrievalTerm r.elems).filter fun t => t ∈ prepared.terms).toFinset

section Snippet

variable (u : CharacterData) (prepared : PreparedLiteralQuery) (text : Text)

/-- The wanted word of a token. -/
def wantedOf (t : LiteralToken) : Option Wanted :=
  (wantedTerm prepared t).map fun folded => ⟨t.start, t.stop, folded⟩

/-- The wanted words of a text. -/
def wantedWords : List Wanted :=
  (literalTokens u prepared.maxFoldedTermChars text).filterMap (wantedOf prepared)

variable {u prepared text}

theorem wantedWords_eq : wantedWords u prepared text =
    (runs u.word 0 text).filterMap fun r =>
      wantedOf prepared (tokenOf u prepared.maxFoldedTermChars 0 r) := by
  rw [wantedWords, literal_tokens]
  generalize runs u.word 0 text = l
  induction l using List.reverseRecOn with
  | nil => rfl
  | append_singleton l r ih =>
    rw [List.mapIdx_append, List.filterMap_append, List.filterMap_append, ih]
    rfl

theorem wantedOf_eq_some {i : ℕ} {r : Run Char} {w : Wanted}
    (h : wantedOf prepared (tokenOf u prepared.maxFoldedTermChars i r) = some w) :
    w.start = r.start ∧ w.stop = r.stop ∧ w.term = u.foldRetrievalTerm r.elems ∧
      w.term ∈ prepared.terms := by
  obtain ⟨folded, hfolded, rfl⟩ := Option.map_eq_some_iff.mp h
  obtain ⟨hshort, hmem⟩ := Option.filter_eq_some_iff.mp hfolded
  have hsame : u.foldRetrievalTerm r.elems = folded := by
    have hdef : shortFolding u prepared.maxFoldedTermChars r.elems = some folded := hshort
    unfold shortFolding at hdef
    split_ifs at hdef
    exact Option.some.inj hdef
  exact ⟨rfl, rfl, hsame.symm, of_decide_eq_true hmem⟩

theorem ordered_wantedWords : Ordered (wantedWords u prepared text) := by
  rw [wantedWords_eq]
  constructor
  · intro w hw
    obtain ⟨r, hr, hsome⟩ := List.mem_filterMap.mp hw
    obtain ⟨hstart, hstop, -⟩ := wantedOf_eq_some hsome
    obtain ⟨-, -, -, -, hne, -⟩ := (mem_runs_iff 0 text r).mp hr
    have hpos := List.length_pos_iff.mpr hne
    rw [hstart, hstop, Run.stop]
    omega
  · rw [List.pairwise_filterMap]
    refine (runs_pairwise 0 text).imp ?_
    intro r r' hr w hw w' hw'
    rw [(wantedOf_eq_some hw).2.1, (wantedOf_eq_some hw').1]
    exact hr

theorem stop_le_of_mem {r : Run Char} (hr : r ∈ runs u.word 0 text) : r.stop ≤ text.length := by
  obtain ⟨before, after, htext, hstart, -⟩ := (mem_runs_iff 0 text r).mp hr
  rw [Run.stop, hstart, htext, List.length_append, List.length_append]
  omega

/-- The terms within some bounds are those of the wanted words within them. -/
theorem mem_termsWithin
    (hbound : ∀ t ∈ prepared.terms, t.length ≤ prepared.maxFoldedTermChars) {start stop : ℕ}
    {t : Text} : t ∈ termsWithin u prepared text start stop ↔
      ∃ w ∈ wantedWords u prepared text, start ≤ w.start ∧ w.stop ≤ stop ∧ w.term = t := by
  rw [termsWithin, List.mem_toFinset, List.mem_filter, List.mem_map, decide_eq_true_eq,
    wantedWords_eq]
  constructor
  · rintro ⟨⟨r, hr, rfl⟩, hmem⟩
    obtain ⟨hr, hwithin⟩ := List.mem_filter.mp hr
    rw [decide_eq_true_eq] at hwithin
    refine ⟨⟨r.start, r.stop, u.foldRetrievalTerm r.elems⟩, List.mem_filterMap.mpr ⟨r, hr, ?_⟩,
      hwithin.1, hwithin.2, rfl⟩
    have hshort : shortFolding u prepared.maxFoldedTermChars r.elems =
        some (u.foldRetrievalTerm r.elems) := if_pos (hbound _ hmem)
    simp [wantedOf, wantedTerm, tokenOf, hshort, Option.filter, hmem]
  · rintro ⟨w, hw, hstart, hstop, rfl⟩
    obtain ⟨r, hr, hsome⟩ := List.mem_filterMap.mp hw
    obtain ⟨h₁, h₂, h₃, h₄⟩ := wantedOf_eq_some hsome
    refine ⟨⟨r, List.mem_filter.mpr ⟨hr, ?_⟩, h₃.symm⟩, h₄⟩
    rw [decide_eq_true_eq, ← h₁, ← h₂]
    exact ⟨hstart, hstop⟩

theorem foldl_step_window {includeSupport : Bool} {windowChars : ℕ} (tokens : List LiteralToken)
    (s : Pass) :
    (tokens.foldl (Pass.step prepared includeSupport windowChars true) s).window =
      (tokens.filterMap (wantedOf prepared)).foldl (WindowSearch.see windowChars) s.window := by
  induction tokens generalizing s with
  | nil => rfl
  | cons t tokens ih =>
    rw [List.foldl_cons, ih, step_window, List.filterMap_cons, wantedOf]
    cases wantedTerm prepared t <;> rfl

/-- The pass of an analysis whose snippet is shorter than the text. -/
theorem literalPass_window {includeSupport : Bool} {chars : ℕ} (hpos : 0 < chars)
    (hlen : chars < text.length) :
    (literalPass u prepared (some chars) includeSupport text).window =
      (wantedWords u prepared text).foldl (WindowSearch.see chars) {} := by
  have hselect : ((some chars).getD 0 != 0 && decide ((some chars).getD 0 < text.length)) = true := by
    simp [hlen]
    omega
  unfold literalPass
  dsimp only
  rw [hselect]
  split_ifs with hsought
  · exact foldl_step_window _ _
  · rw [not_or, not_not] at hsought
    have hnone : wantedWords u prepared text = [] := by
      rw [wantedWords_eq, List.filterMap_eq_nil_iff]
      intro r hr
      by_contra hsome
      obtain ⟨w, hw⟩ := Option.ne_none_iff_exists'.mp hsome
      have hmem := (wantedOf_eq_some hw).2.2.2
      rw [hsought.1] at hmem
      exact absurd hmem List.not_mem_nil
    rw [hnone]
    rfl

/-- A window that fits lies in the snippet. -/
theorem snippetStart_spec {chars length : ℕ} {bounds : ℕ × ℕ} (hwidth : bounds.2 - bounds.1 ≤ chars)
    {stop : ℕ} (hstop : stop ≤ bounds.2) (hlength : stop ≤ length) :
    snippetStart (some chars) (some bounds) length ≤ bounds.1 ∧
      stop ≤ snippetStart (some chars) (some bounds) length + chars := by
  simp only [snippetStart]
  omega

theorem snippetStart_le (chars length : ℕ) (bounds : Option (ℕ × ℕ)) :
    snippetStart (some chars) bounds length ≤ length - chars := by
  cases bounds with
  | none => exact Nat.zero_le _
  | some bounds => exact Nat.min_le_right _ _

/-- The words in front of an offset, of words in their order. -/
theorem mem_takeWhile_stop {l : List Wanted} (hordered : Ordered l) {stop : ℕ} {w : Wanted}
    (hw : w ∈ l) (hstop : w.stop ≤ stop) : w ∈ l.takeWhile fun v => v.stop ≤ stop := by
  have hstops := hordered.stops
  clear hordered
  induction l with
  | nil => exact hw
  | cons v l ih =>
    have hv : v.stop ≤ stop := by
      rcases List.mem_cons.mp hw with rfl | hw
      · exact hstop
      · exact (List.rel_of_pairwise_cons hstops hw).trans hstop
    rw [List.takeWhile_cons_of_pos (by simpa using hv)]
    rcases List.mem_cons.mp hw with rfl | hw
    · exact List.mem_cons_self
    · exact List.mem_cons_of_mem _ (ih hw hstops.of_cons)

theorem mem_dropWhile_start {l : List Wanted} {start : ℕ} {w : Wanted} (hw : w ∈ l)
    (hstart : start ≤ w.start) : w ∈ l.dropWhile fun v => v.start < start := by
  rw [← List.takeWhile_append_dropWhile (p := fun v : Wanted => decide (v.start < start)) (l := l)]
    at hw
  refine (List.mem_append.mp hw).resolve_left fun hfront => ?_
  have hlt := List.mem_takeWhile_imp hfront
  simp only [decide_eq_true_eq] at hlt
  omega

/-- The words within an interval of `chars` characters: the best window has as many terms. -/
theorem Windowed.best_ge {chars : ℕ} {l : List Wanted} {s : WindowSearch}
    (h : Windowed chars l s) (hordered : Ordered l) {start : ℕ} {w₀ : Wanted} (hw₀ : w₀ ∈ l)
    (hstart₀ : start ≤ w₀.start) (hstop₀ : w₀.stop ≤ start + chars) :
    ∃ key, s.best = some key ∧ ∃ v : List Wanted, (termsOf v).card ≤ key.distinct ∧
      ∀ w ∈ l, start ≤ w.start → w.stop ≤ start + chars → w ∈ v := by
  have hinside : ∀ w ∈ l, start ≤ w.start → w.stop ≤ start + chars →
      w ∈ (l.takeWhile fun v => v.stop ≤ start + chars).dropWhile fun v => v.start < start :=
    fun w hw hstart hstop => mem_dropWhile_start (mem_takeWhile_stop hordered hw hstop) hstart
  have hfirst := hinside w₀ hw₀ hstart₀ hstop₀
  have hne : (l.takeWhile fun v => v.stop ≤ start + chars) ≠ [] :=
    List.ne_nil_of_mem (List.dropWhile_suffix _ |>.subset hfirst)
  obtain ⟨key, hkey, hcard⟩ := h.best _ (List.takeWhile_prefix _) _
    (List.getLast?_eq_getLast_of_ne_nil hne) _ (List.dropWhile_suffix _)
    (List.ne_nil_of_mem hfirst) (by
      intro w hw
      have hlast := List.mem_takeWhile_imp (List.getLast_mem hne)
      have hhead := List.head?_dropWhile_not (fun v : Wanted => decide (v.start < start))
        (l.takeWhile fun v => v.stop ≤ start + chars)
      rw [Option.mem_def.mp hw] at hhead
      simp only [decide_eq_true_eq, decide_eq_false_iff_not] at hlast hhead
      omega)
  exact ⟨key, hkey, _, hcard, hinside⟩

end Snippet

/-- For every query, text and length: the snippet begins where the text goes on for so long, and no
stretch of the text of that length has more terms of the query among its words than the snippet. -/
theorem snippet_has_most_terms (u : CharacterData) (lists : WordLists) (query text : Text)
    (chars : ℕ) (includeSupport : Bool) :
    let prepared := prepareLiteralQuery u lists query
    let start := (analyzeLiteralText u prepared (some chars) includeSupport text).snippetStart
    start ≤ text.length - chars ∧
      ∀ other, (termsWithin u prepared text other (other + chars)).card ≤
        (termsWithin u prepared text start (start + chars)).card := by
  intro prepared start
  have hbound : ∀ t ∈ prepared.terms, t.length ≤ prepared.maxFoldedTermChars := fun t ht =>
    prepareLiteralQuery_bound u lists query t (List.mem_append_left _ ht)
  have hstart : start ≤ text.length - chars := snippetStart_le _ _ _
  have hordered : Ordered (wantedWords u prepared text) := ordered_wantedWords
  have hinside : ∀ w ∈ wantedWords u prepared text, w.stop ≤ text.length := by
    intro w hw
    rw [wantedWords_eq] at hw
    obtain ⟨r, hr, hsome⟩ := List.mem_filterMap.mp hw
    rw [(wantedOf_eq_some hsome).2.1]
    exact stop_le_of_mem hr
  refine ⟨hstart, ?_⟩
  intro other
  rcases Finset.eq_empty_or_nonempty (termsWithin u prepared text other (other + chars)) with
    hempty | ⟨t, ht⟩
  · rw [hempty, Finset.card_empty]
    exact Nat.zero_le _
  obtain ⟨w₀, hw₀, hstart₀, hstop₀, -⟩ := (mem_termsWithin hbound).mp ht
  have hlt₀ := hordered.1 w₀ hw₀
  rcases Nat.lt_or_ge chars text.length with hlen | hlen
  · have hwindow : Windowed chars (wantedWords u prepared text)
        (literalPass u prepared (some chars) includeSupport text).window := by
      rw [literalPass_window (by omega) hlen]
      exact windowed_foldl _ hordered
    obtain ⟨key, hkey, v, hcard, hv⟩ := hwindow.best_ge hordered hw₀ hstart₀ hstop₀
    obtain ⟨bounds, hbounds, hwidth, z, hz, hzcard, hzwithin⟩ := hwindow.achieved key hkey
    have hsnippet : start = snippetStart (some chars) (some bounds) text.length := by
      rw [← hbounds]
      rfl
    have hleft : termsWithin u prepared text other (other + chars) ⊆ termsOf v := by
      intro t ht
      obtain ⟨w, hw, hstart, hstop, rfl⟩ := (mem_termsWithin hbound).mp ht
      exact mem_termsOf.mpr ⟨w, hv w hw hstart hstop, rfl⟩
    have hright : termsOf z ⊆ termsWithin u prepared text start (start + chars) := by
      intro t ht
      obtain ⟨w, hw, rfl⟩ := mem_termsOf.mp ht
      have hmem := hz.subset hw
      obtain ⟨hfrom, hto⟩ := hzwithin w hw
      have hspec := snippetStart_spec hwidth hto (hinside w hmem)
      rw [← hsnippet] at hspec
      exact (mem_termsWithin hbound).mpr ⟨w, hmem, hspec.1.trans hfrom, hspec.2, rfl⟩
    calc (termsWithin u prepared text other (other + chars)).card ≤ (termsOf v).card :=
          Finset.card_le_card hleft
      _ ≤ key.distinct := hcard
      _ = (termsOf z).card := hzcard.symm
      _ ≤ (termsWithin u prepared text start (start + chars)).card := Finset.card_le_card hright
  · -- the snippet is the whole text
    refine Finset.card_le_card ?_
    intro t ht
    obtain ⟨w, hw, -, -, rfl⟩ := (mem_termsWithin hbound).mp ht
    have hstop := hinside w hw
    exact (mem_termsWithin hbound).mpr ⟨w, hw, by omega, by omega, rfl⟩

/-- Ten characters of a longer text: `room cafe` has both terms, and no other stretch has more. -/
theorem snippet_has_most_terms_twoTerms :
    (analyzeLiteralText CharacterData.sample sampleQuery (some 10) false
        (lit "cafe one two room cafe end")).snippetStart = 13 ∧
      (termsWithin CharacterData.sample sampleQuery (lit "cafe one two room cafe end") 13 23).card =
        2 ∧
      ∀ other, (termsWithin CharacterData.sample sampleQuery (lit "cafe one two room cafe end") other
        (other + 10)).card ≤ 2 := by
  obtain ⟨-, hmost⟩ := snippet_has_most_terms CharacterData.sample sampleLists
    (lit "What is the café room") (lit "cafe one two room cafe end") 10 false
  have hstart : (analyzeLiteralText CharacterData.sample sampleQuery (some 10) false
      (lit "cafe one two room cafe end")).snippetStart = 13 := by decide +kernel
  have htwo : (termsWithin CharacterData.sample sampleQuery (lit "cafe one two room cafe end") 13
      23).card = 2 := by decide +kernel
  refine ⟨hstart, htwo, fun other => (hmost other).trans (le_of_eq ?_)⟩
  show (termsWithin CharacterData.sample sampleQuery _ (analyzeLiteralText CharacterData.sample
    sampleQuery (some 10) false _).snippetStart _).card = 2
  rw [hstart]
  exact htwo

end Retrieval
end Neocortex
