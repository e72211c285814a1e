import Neocortex.Chunking.Coverage

/-!
# The spans of consecutive chunks

The next window starts inside the one before, by the overlap, and chooses its natural boundary
anew.  It never ends before the one before, but it may choose the same boundary again: that takes an
overlap that leaves `min_natural_break_chars` in front of the boundary.

* `terms_overlap_le`: the overlap has at most `overlap_terms` terms.
* `windowEnd_le_next`: the next window does not end before this one.
* `chunkWindows_chain`: how the chunks of a section follow each other.
* `spans_advance`: the spans of an item's chunks.
* `boundary_chosen_again`: a text whose chunks repeat a boundary.
-/

namespace Neocortex
namespace Chunking

open Python Checks

/-! ## The overlap -/

section Overlap

variable {text : Text} {config : TextChunkingConfig}

/-- Behind a later start there is at most one match that is not one of the earlier matches. -/
theorem length_termStarts_later {start start' stop : ℕ} (h : start ≤ start') :
    (termStarts text start' stop).length ≤
      ((termStarts text start stop).filter (start' < ·)).length + 1 := by
  have hnodup : (termStarts text start' stop).Nodup :=
    (termStarts_sorted text start' stop).imp fun hlt => Nat.ne_of_lt hlt
  have hsub : termStarts text start' stop ⊆
      start' :: (termStarts text start stop).filter (start' < ·) := by
    intro q hq
    obtain ⟨hle, hlt, hvisible, hprev⟩ := mem_termStarts.mp hq
    rcases Nat.eq_or_lt_of_le hle with rfl | hlater
    · exact List.mem_cons_self
    · refine List.mem_cons_of_mem _ (List.mem_filter.mpr ⟨?_, by simpa using hlater⟩)
      exact mem_termStarts.mpr ⟨by omega, hlt, hvisible, fun _ => hprev hlater⟩
  simpa using (hnodup.subperm hsub).length_le

/-- Where the next window starts if it overlaps this one. -/
theorem nextStart_cases {start stop : ℕ} (hstart : start < stop) (hvisible : Visible text start)
    (hlt : nextStart text start stop config < stop) (hstop : stop ≤ text.length) :
    config.overlapChars ≠ 0 ∧ config.overlapTerms ≠ 0 ∧
      Visible text (nextStart text start stop config) ∧
      stop ≤ nextStart text start stop config + config.overlapChars ∧
      ((termStarts text start stop).filter
        (nextStart text start stop config < ·)).length < config.overlapTerms := by
  have hmem : start ∈ termStarts text start stop :=
    mem_termStarts.mpr ⟨Nat.le_refl _, hstart, hvisible, fun h => absurd h (Nat.lt_irrefl _)⟩
  rw [nextStart] at hlt ⊢
  split_ifs at hlt ⊢ with hnone
  · exact absurd hlt (Nat.lt_irrefl _)
  obtain ⟨hchars, hterms⟩ := not_or.mp hnone
  dsimp only at hlt ⊢
  refine ⟨hchars, hterms, visible_skipSpaces hstop hlt, ?_, ?_⟩
  · have := le_skipSpaces text (max (max (stop - config.overlapChars)
      ((((termStarts text start stop).rtake config.overlapTerms).head?).getD stop)) (start + 1)) stop
    omega
  · -- the last matches begin with `first`, and the next start is not before it
    have hsorted := termStarts_sorted text start stop
    have hsplit : termStarts text start stop =
        (termStarts text start stop).take
          ((termStarts text start stop).length - config.overlapTerms) ++
        (termStarts text start stop).rtake config.overlapTerms := by
      rw [List.rtake, List.take_append_drop]
    have hlength : ((termStarts text start stop).rtake config.overlapTerms).length ≤
        config.overlapTerms := by
      rw [List.rtake, List.length_drop]
      omega
    cases hlast : (termStarts text start stop).rtake config.overlapTerms with
    | nil =>
      rw [List.rtake, List.drop_eq_nil_iff] at hlast
      have := List.length_pos_of_mem hmem
      omega
    | cons first others =>
      rw [hlast] at hsplit hlength
      have hfewer : ∀ next, first ≤ next →
          ((termStarts text start stop).filter (next < ·)).length < config.overlapTerms := by
        intro next hnext
        rw [hsplit] at hsorted ⊢
        obtain ⟨-, -, hcross⟩ := List.pairwise_append.mp hsorted
        rw [List.filter_append, List.filter_eq_nil_iff.mpr, List.nil_append,
          List.filter_cons_of_neg (by simpa using hnext)]
        · have := List.length_filter_le (fun x => decide (next < x)) others
          rw [List.length_cons] at hlength
          omega
        · intro q hq
          have := hcross q hq first List.mem_cons_self
          simp
          omega
      refine hfewer _ ?_
      have := le_skipSpaces text (max (max (stop - config.overlapChars) first) (start + 1)) stop
      rw [List.head?_cons, Option.getD_some]
      omega

/-- The overlap has at most `overlap_terms` terms. -/
theorem terms_overlap_le {start stop : ℕ} (hstart : start < stop) (hvisible : Visible text start)
    (hlt : nextStart text start stop config < stop) (hstop : stop ≤ text.length) :
    (termStarts text (nextStart text start stop config) stop).length ≤ config.overlapTerms := by
  obtain ⟨-, -, -, -, hfilter⟩ := nextStart_cases hstart hvisible hlt hstop
  have := @length_termStarts_later text start (nextStart text start stop config) stop
    (nextStart_bounds config hstart).1.le
  omega

/-- The next window does not end before this one; if it ends where this one does, it starts at least
`min_natural_break_chars` before. -/
theorem windowEnd_le_next {start next : ℕ} (hvisible : Visible text start)
    (hend : windowEnd text start config < text.length)
    (hnext : next = skipSpaces text (nextStart text start (windowEnd text start config) config)
      text.length) (hnextlt : next < text.length) :
    windowEnd text start config ≤ windowEnd text next config ∧
      (windowEnd text start config = windowEnd text next config →
        next + config.minNaturalBreakChars ≤ windowEnd text start config) := by
  obtain ⟨hlt, hle⟩ := windowEnd_bounds config hvisible.lt
  obtain ⟨-, hcap, hchars⟩ := cappedEnd_bounds config hvisible.lt
  obtain ⟨hlt', hle'⟩ := windowEnd_bounds config hnextlt
  obtain ⟨-, hcap', -⟩ := cappedEnd_bounds config hnextlt
  obtain ⟨hstep, hstepend⟩ := @nextStart_bounds text config _ _ hlt
  have hskip := le_skipSpaces text (nextStart text start (windowEnd text start config) config)
    text.length
  by_cases hover : windowEnd text start config ≤ next
  · exact ⟨by omega, fun h => by omega⟩
  -- the next start lies in this window, so the caps of the next window end behind this one
  have hover' : nextStart text start (windowEnd text start config) config <
      windowEnd text start config := by omega
  obtain ⟨-, -, hvis, -, -⟩ := nextStart_cases hlt hvisible hover' hend.le
  have hnexteq : next = nextStart text start (windowEnd text start config) config := by
    rw [hnext]
    refine Nat.le_antisymm ?_ hskip
    by_contra hne
    exact not_visible_of_skipped (Nat.le_refl _) (not_le.mp hne) hvis
  have hcapped : windowEnd text start config < cappedEnd text next config := by
    refine lt_termLimitedEnd (by omega) ?_
    have hterms := terms_overlap_le hlt hvisible hover' hend.le
    rw [← hnexteq] at hterms
    exact lt_of_le_of_lt hterms config.overlapTerms_lt
  have hends : windowEnd text next config =
      if cappedEnd text next config < text.length then
        naturalEnd text next (cappedEnd text next config) config.minNaturalBreakChars
      else cappedEnd text next config := windowEnd_eq config hnextlt
  by_cases hlong : cappedEnd text next config < text.length ∧
      next + config.minNaturalBreakChars < cappedEnd text next config
  · obtain ⟨hlen', hmin'⟩ := hlong
    rw [if_pos hlen'] at hends
    have hspec' := naturalEnd_spec (m := config.minNaturalBreakChars) hcap' hmin'
    rw [← hends] at hspec'
    by_cases hafter : windowEnd text start config < windowEnd text next config
    · exact ⟨hafter.le, fun h => by omega⟩
    -- the next window chooses a boundary of this one
    obtain ⟨p', hp', hbreak'⟩ : ∃ p, next ≤ p ∧ IsBreak text p (windowEnd text next config) := by
      rcases hspec'.kind with hbreak | ⟨hcapend, -⟩
      · exact hbreak
      · omega
    have hmin := hspec'.ge
    have hwhole := windowEnd_eq config hvisible.lt
    by_cases hshort : cappedEnd text start config < text.length ∧
        start + config.minNaturalBreakChars < cappedEnd text start config
    · obtain ⟨hlen, hminimum⟩ := hshort
      rw [if_pos hlen] at hwhole
      have hspec := naturalEnd_spec (m := config.minNaturalBreakChars) hcap hminimum
      rw [← hwhole] at hspec
      rcases hspec.kind with ⟨p, hp, hbreak⟩ | ⟨-, hno⟩
      · have hnextp : next ≤ p := by
          by_contra hpn
          exact hbreak.not_visible (not_le.mp hpn) (by omega) (hnexteq ▸ hvis)
        have := hspec'.latest p _ hnextp hbreak (by omega) hcapped.le
        exact ⟨this, fun _ => by omega⟩
      · exact absurd (by omega) (hno p' _ (by omega) hbreak' (by omega))
    · exfalso
      by_cases hlen : cappedEnd text start config < text.length
      · rw [if_pos hlen, naturalEnd_of_le (by omega)] at hwhole
        omega
      · rw [if_neg hlen] at hwhole
        omega
  · have hsame : windowEnd text next config = cappedEnd text next config := by
      rw [hends]
      split_ifs with hlen
      · exact naturalEnd_of_le (by omega)
      · rfl
    exact ⟨by omega, fun h => by omega⟩

end Overlap

/-! ## The chunks of a section -/

/-- How the loop gets from one chunk to the next; `E` is what is known of the end of a window. -/
structure Follows (s : TextSection) (config : TextChunkingConfig) (E : ℕ → ℕ → Prop)
    (c d : TextChunk) : Prop where
  start : d.startChar = skipSpaces s.text (nextStart s.text c.startChar c.endChar config)
    s.text.length
  inside : c.startChar < c.endChar ∧ c.endChar < s.text.length
  inside' : d.startChar < d.endChar ∧ d.endChar ≤ s.text.length
  visible : Visible s.text c.startChar
  stop : E c.startChar c.endChar
  stop' : E d.startChar d.endChar

section Chain

variable {σ : Type} {D : Digests} {itemId : Text} {s : TextSection} {config : TextChunkingConfig}
  {measure : Measure σ} {I : σ → Prop} {accepted : Text → Prop} {E : ℕ → ℕ → Prop}

/-- What the loop yields first, and how its chunks follow each other. -/
structure WindowsChain (s : TextSection) (config : TextChunkingConfig) (E : ℕ → ℕ → Prop)
    (cursor : ℕ) (chunks : List TextChunk) : Prop where
  chain : chunks.IsChain (Follows s config E)
  first : ∀ c, chunks.head? = some c → c.startChar = skipSpaces s.text cursor s.text.length ∧
    c.startChar < c.endChar ∧ c.endChar ≤ s.text.length ∧ E c.startChar c.endChar

theorem chunkWindows_chain (h : measure.Fits s.text config I accepted)
    (hE : ∀ {cache cursor e t cache'}, I cache →
      measure cache cursor (windowEnd s.text cursor config) = .ok (e, t, cache') → E cursor e)
    (fuel : ℕ) : ∀ {cursor ordinal : ℕ} {cache : σ}, I cache →
      WindowsChain s config E cursor
        (chunkWindows D itemId s config measure fuel cursor cache ordinal).yielded := by
  induction fuel with
  | zero =>
    intro cursor ordinal cache _
    exact ⟨.nil, fun c hc => by cases hc⟩
  | succ fuel ih =>
    intro cursor ordinal cache hI
    obtain ⟨-, hg⟩ | ⟨hstart, ⟨e, hg, -⟩ | ⟨stop, normalized, cache', c, hm, hc, hg⟩⟩ :=
      @chunkWindows_cases σ D itemId s config measure fuel cursor ordinal cache
        (fun hstart _ _ _ hm => h.text_ne hI hstart (visible_skipSpaces (Nat.le_refl _) hstart) hm)
    · rw [hg]
      exact ⟨.nil, fun c hc => by cases hc⟩
    · rw [hg]
      exact ⟨.nil, fun c hc => by cases hc⟩
    · have hvisible := visible_skipSpaces (Nat.le_refl _) hstart
      obtain ⟨hlt, -, hlen, -, -, -, hI'⟩ := h.window hI hstart hm
      have hstop := hE hI hm
      rw [← hc.start, ← hc.stop] at hlt hstop
      rw [← hc.stop] at hlen
      have hfirst : ∀ b, some c = some b →
          b.startChar = skipSpaces s.text cursor s.text.length ∧
          b.startChar < b.endChar ∧ b.endChar ≤ s.text.length ∧ E b.startChar b.endChar := by
        intro b hb
        obtain rfl := Option.some_inj.mp hb
        exact ⟨hc.start, hlt, hlen, hstop⟩
      obtain ⟨-, hg⟩ | ⟨hmore, hg⟩ := hg
      · rw [hg]
        exact ⟨List.isChain_singleton _, hfirst⟩
      · have hrest := @ih (nextStart s.text (skipSpaces s.text cursor s.text.length) stop config)
          (ordinal + 1) cache' hI'
        rw [hg]
        refine ⟨List.isChain_cons.mpr ⟨fun d hd => ?_, hrest.chain⟩, hfirst⟩
        obtain ⟨hdstart, hdlt, hdlen, hdstop⟩ := hrest.first d hd
        refine ⟨?_, ⟨hlt, by rw [hc.stop]; exact hmore⟩, ⟨hdlt, hdlen⟩, ?_, hstop, hdstop⟩
        · rw [hc.start, hc.stop]
          exact hdstart
        · rw [hc.start]
          exact hvisible

/-- The chunks of an item, section by section. -/
theorem chunkSections_groups {measure : TextSection → Measure σ} {cache : σ}
    {P : TextSection → List TextChunk → Prop}
    (hP : ∀ (s : TextSection) (ordinal : ℕ), P s (chunkWindows D itemId s config (measure s)
      (s.text.length + 1) 0 cache ordinal).yielded)
    (sections : List TextSection) (ordinal : ℕ) :
    ∃ groups, (chunkSections D itemId config measure cache sections ordinal).yielded =
        groups.flatten ∧ groups.length ≤ sections.length ∧
      List.Forall₂ P (sections.take groups.length) groups := by
  induction sections generalizing ordinal with
  | nil => exact ⟨[], rfl, Nat.le_refl _, .nil⟩
  | cons s sections ih =>
    rw [chunkSections]
    cases hres : (chunkWindows D itemId s config (measure s) (s.text.length + 1) 0 cache
      ordinal).result with
    | error e =>
      rw [Generator.bind_of_error hres]
      refine ⟨[(chunkWindows D itemId s config (measure s) (s.text.length + 1) 0 cache
        ordinal).yielded], by simp, by simp, ?_⟩
      exact .cons (hP s ordinal) .nil
    | ok n =>
      obtain ⟨groups, hyielded, hlen, hall⟩ := ih n
      rw [Generator.bind_of_ok hres]
      refine ⟨_ :: groups, by rw [List.flatten_cons, ← hyielded], ?_, .cons (hP s ordinal) hall⟩
      simpa using hlen

end Chain

theorem plain_stop {source : Text} {config : TextChunkingConfig} {cache cache' : Cache}
    {cursor stop e : ℕ} {t : Text}
    (h : measureWindow source config none cache cursor stop = .ok (e, t, cache')) : e = stop := by
  simp only [measureWindow, pure_eq_ok, Prod.mk.injEq] at h
  exact h.1.symm

/-! ## The result -/

/-- How far a chunk of a section gets behind the chunk before. -/
structure Advances (config : TextChunkingConfig) (c d : TextChunk) : Prop where
  /-- It starts behind the start of the chunk before. -/
  start : c.startChar < d.startChar
  /-- Without an overlap it ends behind the end of the chunk before. -/
  disjoint : config.overlapChars = 0 ∨ config.overlapTerms = 0 → c.endChar < d.endChar
  /-- Without a token contract it does not end before the chunk before. -/
  stop : config.modelTokenLimit = none → c.endChar ≤ d.endChar
  /-- Without a token contract it ends where the chunk before does only if it starts so far in front
  of that end. -/
  again : config.modelTokenLimit = none → c.endChar = d.endChar →
    d.startChar + config.minNaturalBreakChars ≤ c.endChar
  /-- So its end is later whenever the overlap is shorter than that. -/
  later : config.modelTokenLimit = none → config.overlapChars < config.minNaturalBreakChars →
    c.endChar < d.endChar

theorem Follows.advances {s : TextSection} {config : TextChunkingConfig} {E : ℕ → ℕ → Prop}
    {c d : TextChunk} (h : Follows s config E c d)
    (hE : config.modelTokenLimit = none →
      ∀ start stop, E start stop → stop = windowEnd s.text start config) : Advances config c d := by
  obtain ⟨hlt, hlen⟩ := h.inside
  obtain ⟨hlt', hlen'⟩ := h.inside'
  obtain ⟨hnext, hnextle⟩ := @nextStart_bounds s.text config _ _ hlt
  have hskip := le_skipSpaces s.text (nextStart s.text c.startChar c.endChar config) s.text.length
  have hstart := h.start
  have hspan : c.endChar ≤ d.startChar + config.overlapChars := by
    by_cases hover : nextStart s.text c.startChar c.endChar config < c.endChar
    · have := (nextStart_cases hlt h.visible hover hlen.le).2.2.2.1
      omega
    · omega
  have hends : config.modelTokenLimit = none → c.endChar ≤ d.endChar ∧
      (c.endChar = d.endChar → d.startChar + config.minNaturalBreakChars ≤ c.endChar) := by
    intro hnone
    have hc := hE hnone _ _ h.stop
    have hd := hE hnone _ _ h.stop'
    have hboth := @windowEnd_le_next s.text config c.startChar d.startChar h.visible
      (by omega) (by rw [← hc]; exact hstart) (by omega)
    rwa [← hc, ← hd] at hboth
  refine ⟨by omega, fun hnone => ?_, fun hnone => (hends hnone).1, fun hnone => (hends hnone).2,
    fun hnone hshort => ?_⟩
  · have : nextStart s.text c.startChar c.endChar config = c.endChar := by
      rw [nextStart, if_pos hnone]
    omega
  · obtain ⟨hle, hagain⟩ := hends hnone
    rcases Nat.eq_or_lt_of_le hle with heq | hlt
    · have := hagain heq
      omega
    · exact hlt

/-- The chunks of an item fall into groups, one for each section that was reached, and in each group
every chunk advances on the one before. -/
theorem spans_advance (D : Digests) (itemId : Text) (sections : List TextSection)
    (config : Option TextChunkingConfig) (tokenCounter : Option TextTokenCounter)
    (count : Text → Answer)
    (hcounter : ∀ counter limit, tokenCounter = some counter →
      (config.getD .default).modelTokenLimit = some limit → PerText count limit counter) :
    ∃ groups, (iterTextChunks D itemId sections config tokenCounter).yielded = groups.flatten ∧
      groups.length ≤ sections.length ∧
      List.Forall₂ (fun s chunks => (∀ c ∈ chunks, Cut s (config.getD .default) (fun _ => True) c) ∧
        chunks.IsChain (Advances (config.getD .default))) (sections.take groups.length) groups := by
  obtain ⟨e, -, hiter⟩ | ⟨-, -, hiter⟩ | ⟨counter, limit, hsome, hlimit, hiter⟩ :=
    iterTextChunks_cases D itemId sections config tokenCounter
  · rw [hiter]
    exact ⟨[], rfl, Nat.zero_le _, .nil⟩
  · rw [hiter]
    refine chunkSections_groups (fun s ordinal => ?_) sections 0
    have hfits := @measureWindow_fits_plain s.text (config.getD .default)
    have hrun := @chunkWindows_spec Cache D itemId s (config.getD .default) _ _ _ hfits
      (s.text.length + 1) 0 ordinal ⟨[], 32⟩ (by omega) trivial
    have hchain := @chunkWindows_chain Cache D itemId s (config.getD .default) _ _ _
      (fun start stop => stop = windowEnd s.text start (config.getD .default)) hfits
      (fun _ h => plain_stop h) (s.text.length + 1) 0 ordinal ⟨[], 32⟩ trivial
    exact ⟨hrun.cut, hchain.chain.imp fun a b hab => hab.advances fun _ _ _ h => h⟩
  · rw [hiter]
    refine chunkSections_groups (fun s ordinal => ?_) sections 0
    have hfits := @measureWindow_fits count limit counter s.text (config.getD .default)
      (hcounter counter limit hsome hlimit)
    have hrun := @chunkWindows_spec Cache D itemId s (config.getD .default) _ _ _ hfits
      (s.text.length + 1) 0 ordinal ⟨[], 32⟩ (by omega) (countsExact_nil count s.text)
    have hchain := @chunkWindows_chain Cache D itemId s (config.getD .default) _ _ _
      (fun _ _ => True) hfits (fun _ _ => trivial) (s.text.length + 1) 0 ordinal ⟨[], 32⟩
      (countsExact_nil count s.text)
    refine ⟨fun d hd => (hrun.cut d hd).mono fun _ _ => trivial, ?_⟩
    refine hchain.chain.imp fun a b hab => hab.advances fun hnone => ?_
    rw [hlimit] at hnone
    cases hnone

/-- Short windows with a short overlap. -/
def shortWindows : TextChunkingConfig :=
  { TextChunkingConfig.default with
    maxChars := 64
    overlapChars := 5
    minNaturalBreakChars := 5
    maxChars_range := by decide
    overlapChars_lt := by decide
    minNaturalBreakChars_range := by decide }

/-- Two words before a token that is as long as a window. -/
def unbrokenToken : TextSection :=
  { greeting with text := lit "alpha beta " ++ List.replicate 60 'z' }

/-- Digests of the right form; no span depends on them. -/
def formalDigests : Digests := ⟨fun _ => List.replicate 32 '0', fun _ _ => List.replicate 16 '0'⟩

/-- The second chunk of the text ends where the first does: nothing behind the boundary fits. -/
theorem boundary_chosen_again :
    (iterTextChunks formalDigests (lit "item") [unbrokenToken] (some shortWindows) none).yielded.map
        (fun c => (c.startChar, c.endChar)) = [(0, 11), (6, 11), (7, 71)] ∧
      ¬ (iterTextChunks formalDigests (lit "item") [unbrokenToken] (some shortWindows)
        none).yielded.IsChain fun c d => c.endChar < d.endChar := by
  have hspans : (iterTextChunks formalDigests (lit "item") [unbrokenToken] (some shortWindows)
      none).yielded.map (fun c => (c.startChar, c.endChar)) = [(0, 11), (6, 11), (7, 71)] := by
    decide +kernel
  refine ⟨hspans, fun hchain => ?_⟩
  have hends := (List.isChain_map (fun c : TextChunk => (c.startChar, c.endChar))
    (R := fun a b : ℕ × ℕ => a.2 < b.2)).mpr hchain
  rw [hspans] at hends
  revert hends
  decide

theorem spans_advance_unbrokenToken :
    ∃ groups, (iterTextChunks formalDigests (lit "item") [unbrokenToken] (some shortWindows)
        none).yielded = groups.flatten ∧ groups.length ≤ [unbrokenToken].length ∧
      List.Forall₂ (fun s chunks => (∀ c ∈ chunks, Cut s shortWindows (fun _ => True) c) ∧
        chunks.IsChain (Advances shortWindows)) ([unbrokenToken].take groups.length) groups :=
  spans_advance formalDigests (lit "item") [unbrokenToken] (some shortWindows) none
    (fun _ => .foreign) fun counter _ h => by cases h

/-- Windows with a long overlap, and a contract for a tokenizer that counts words. -/
def longOverlap : TextChunkingConfig :=
  { wordContract with
    maxChars := 64
    overlapChars := 40
    overlapTerms := 48
    minNaturalBreakChars := 5
    maxChars_range := by decide
    overlapChars_lt := by decide
    overlapTerms_lt := by decide
    minNaturalBreakChars_range := by decide }

/-- A long token before short words. -/
def denseEnd : TextSection :=
  { greeting with text := List.replicate 60 'z' ++ lit " a b c d e f g h" }

/-- With a token counter even `≤` fails: the second window has nine tokens and is shrunk. -/
theorem shrunk_chunk_ends_before :
    ¬ (iterTextChunks formalDigests (lit "item") [denseEnd] (some longOverlap)
      (some wordCounter)).yielded.IsChain fun c d => c.endChar ≤ d.endChar := by
  have hspans : (((iterTextChunks formalDigests (lit "item") [denseEnd] (some longOverlap)
      (some wordCounter)).yielded.map fun c => (c.startChar, c.endChar)).take 2) =
        [(0, 63), (23, 46)] := by
    decide +kernel
  intro hchain
  have hends := ((List.isChain_map (fun c : TextChunk => (c.startChar, c.endChar))
    (R := fun a b : ℕ × ℕ => a.2 ≤ b.2)).mpr hchain).take 2
  rw [hspans] at hends
  revert hends
  decide

end Chunking
end Neocortex
