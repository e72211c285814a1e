import Neocortex.Python.Words

/-!
# Windows of a text

`semantic_chunking`, region 02: where the next window of a section ends and where the one behind it
starts.  The end comes from a cap on the characters, a cap on the terms and the latest natural
boundary; the start goes back by an overlap.

* `TextChunkingConfig`: a configuration, with what `__post_init__` checks.
* `termLimitedEnd`, `naturalEnd`, `windowEnd`, `nextStart`: as in the source.
* `IsBreak`: what a natural boundary is, said of the text alone.
* `naturalEnd_spec`: `naturalEnd` is the latest boundary of the window, if there is one.
* `windowEnd_spec`, `nextStart_spec`: a window ends behind its start and within the caps, and the
  next start lies in it.
-/

namespace Neocortex
namespace Chunking

open Python

/-! ## Configuration -/

/-- Limits for a natural text window that `__post_init__` accepts. -/
structure TextChunkingConfig where
  maxChars : ℕ
  maxTerms : ℕ
  overlapChars : ℕ
  overlapTerms : ℕ
  minNaturalBreakChars : ℕ
  maxChunksPerItem : ℕ
  algorithmVersion : Text
  modelTokenLimit : Option ℕ
  tokenizerSignature : Option Text
  maxChars_range : 64 ≤ maxChars ∧ maxChars ≤ 1000000
  maxTerms_range : 1 ≤ maxTerms ∧ maxTerms ≤ 100000
  overlapChars_lt : overlapChars < maxChars
  overlapTerms_lt : overlapTerms < maxTerms
  minNaturalBreakChars_range : 1 ≤ minNaturalBreakChars ∧ minNaturalBreakChars ≤ maxChars
  maxChunksPerItem_range : 1 ≤ maxChunksPerItem ∧ maxChunksPerItem ≤ 10000000
  algorithmVersion_visible : strip algorithmVersion ≠ []
  together : modelTokenLimit.isNone = tokenizerSignature.isNone
  modelTokenLimit_range : ∀ n, modelTokenLimit = some n → 1 ≤ n ∧ n ≤ 1000000
  tokenizerSignature_visible : ∀ s, tokenizerSignature = some s → strip s ≠ []

/-- The configuration of the dataclass's defaults. -/
def TextChunkingConfig.default : TextChunkingConfig where
  maxChars := 2048
  maxTerms := 384
  overlapChars := 256
  overlapTerms := 48
  minNaturalBreakChars := 160
  maxChunksPerItem := 100000
  algorithmVersion := lit "natural-window-v2"
  modelTokenLimit := none
  tokenizerSignature := none
  maxChars_range := by decide
  maxTerms_range := by decide
  overlapChars_lt := by decide
  overlapTerms_lt := by decide
  minNaturalBreakChars_range := by decide
  maxChunksPerItem_range := by decide
  algorithmVersion_visible := by decide
  together := rfl
  modelTokenLimit_range := by simp
  tokenizerSignature_visible := by simp

/-! ## The end of a window -/

/-- `_term_limited_end`: the loop returns at the first match behind `max_terms` others. -/
def termLimitedEnd (text : Text) (start hardEnd maxTerms : ℕ) : ℕ :=
  ((termStarts text start hardEnd)[maxTerms]?).getD hardEnd

/-- `[.!?;:]`. -/
def isStop (c : Char) : Bool := c == '.' || c == '!' || c == '?' || c == ';' || c == ':'

/-- `[\N{IDEOGRAPHIC FULL STOP}\N{FULLWIDTH EXCLAMATION MARK}\N{FULLWIDTH QUESTION MARK}]`. -/
def isWideStop (c : Char) : Bool := c == '\u3002' || c == '\uFF01' || c == '\uFF1F'

/-- `match.end()` of the matches of `_SENTENCE_BREAK.finditer(window)`, in order.  The whitespace
of a match begins no other match, so the scan goes on at the next character. -/
def sentenceEnds (p : ℕ) : Text → List ℕ
  | [] => []
  | c :: cs =>
    if (isStop c && 0 < leading cs) || isWideStop c then
      (p + 1 + leading cs) :: sentenceEnds (p + 1) cs
    else sentenceEnds (p + 1) cs

/-- The boundaries `_natural_end` chooses from: the last paragraph, sentence, line and word. -/
def naturalCandidates (start : ℕ) (window : Text) : List ℕ :=
  ((rfind ['\n', '\n'] window).map fun i => start + i + 2).toList ++
    (((sentenceEnds 0 window).getLast?).map fun i => start + i).toList ++
    ((rfind ['\n'] window).map fun i => start + i + 1).toList ++
    ((rfind [' '] window).map fun i => start + i + 1).toList

/-- `_natural_end`. -/
def naturalEnd (text : Text) (start stop minimumSpan : ℕ) : ℕ :=
  let minimum := start + minimumSpan
  if stop ≤ minimum then stop
  else
    let eligible := (naturalCandidates start (slice text start stop)).filter
      fun c => minimum ≤ c && c ≤ stop
    eligible.max?.getD stop

/-- `_window_end`. -/
def windowEnd (source : Text) (cursor : ℕ) (config : TextChunkingConfig) : ℕ :=
  let hardEnd := min source.length (cursor + config.maxChars)
  let limited := termLimitedEnd source cursor hardEnd config.maxTerms
  let stop :=
    if limited < source.length then
      naturalEnd source cursor limited config.minNaturalBreakChars
    else limited
  if cursor < stop then stop else hardEnd

/-! ## The next start -/

/-- `_next_start`.  The deque keeps the last `overlap_terms` matches; the difference may be
negative in the source, where `start + 1` is larger in any case. -/
def nextStart (text : Text) (start stop : ℕ) (config : TextChunkingConfig) : ℕ :=
  if config.overlapChars = 0 ∨ config.overlapTerms = 0 then stop
  else
    let starts := (termStarts text start stop).rtake config.overlapTerms
    let termStart := starts.head?.getD stop
    let next := max (max (stop - config.overlapChars) termStart) (start + 1)
    skipSpaces text next stop

/-! ## Natural boundaries -/

/-- The characters that a natural boundary ends. -/
inductive BreakShape : Text → Prop where
  | paragraph : BreakShape ['\n', '\n']
  | line : BreakShape ['\n']
  | word : BreakShape [' ']
  | sentence {c : Char} {gap : Text} (hstop : isStop c = true) (hne : gap ≠ [])
      (hgap : ∀ d ∈ gap, isSpace d = true) : BreakShape (c :: gap)
  | wide {c : Char} {gap : Text} (hstop : isWideStop c = true)
      (hgap : ∀ d ∈ gap, isSpace d = true) : BreakShape (c :: gap)

/-- There is a natural boundary at `c`, and the characters that make it one begin at `p`. -/
structure IsBreak (text : Text) (p c : ℕ) : Prop where
  lt : p < c
  le : c ≤ text.length
  shape : BreakShape (slice text p c)

/-- Behind the first character of a boundary there is only whitespace. -/
theorem BreakShape.tail_space {b : Text} (h : BreakShape b) : ∀ d ∈ b.tail, isSpace d = true := by
  cases h with
  | paragraph => simp [isSpace]
  | line => simp
  | word => simp
  | sentence _ _ hgap => exact hgap
  | wide _ hgap => exact hgap

theorem IsBreak.not_visible {text : Text} {p c i : ℕ} (h : IsBreak text p c) (hp : p < i)
    (hc : i < c) : ¬ Visible text i := by
  rintro ⟨d, hd, hspace⟩
  have hget : (slice text p c).tail[i - p - 1]? = some d := by
    rw [List.getElem?_tail, getElem?_slice, show p + (i - p - 1 + 1) = i by omega, if_pos hc, hd]
  have := h.shape.tail_space d (List.mem_of_getElem? hget)
  rw [hspace] at this
  cases this

theorem isBreak_slice {text : Text} {start stop i j : ℕ} (hstop : stop ≤ text.length) :
    IsBreak (slice text start stop) i j ↔
      start + j ≤ stop ∧ IsBreak text (start + i) (start + j) := by
  constructor
  · rintro ⟨hlt, hle, hshape⟩
    rw [length_slice] at hle
    rw [slice_slice _ _ _ (by omega)] at hshape
    exact ⟨by omega, by omega, by omega, hshape⟩
  · rintro ⟨hle, hlt, hlen, hshape⟩
    refine ⟨by omega, by rw [length_slice]; omega, ?_⟩
    rwa [slice_slice _ _ _ hle]

theorem isBreak_cons {c : Char} {cs : Text} {i j : ℕ} :
    IsBreak (c :: cs) (i + 1) (j + 1) ↔ IsBreak cs i j := by
  constructor
  · rintro ⟨hlt, hle, hshape⟩
    exact ⟨by omega, by simpa using hle, hshape⟩
  · rintro ⟨hlt, hle, hshape⟩
    exact ⟨by omega, by simpa using hle, hshape⟩

theorem take_leading (cs : Text) : cs.take (leading cs) = cs.takeWhile isSpace :=
  (List.prefix_iff_eq_take.mp (List.takeWhile_prefix isSpace)).symm

theorem leading_pos_iff {cs : Text} : 0 < leading cs ↔ cs.takeWhile isSpace ≠ [] :=
  List.length_pos_iff

/-- The end of a sentence is a boundary. -/
theorem isBreak_of_mem_sentenceEnds {p : ℕ} {w : Text} {q : ℕ} (h : q ∈ sentenceEnds p w) :
    ∃ i j, q = p + j ∧ IsBreak w i j := by
  induction w generalizing p with
  | nil => cases h
  | cons c cs ih =>
    have hlater : q ∈ sentenceEnds (p + 1) cs → ∃ i j, q = p + j ∧ IsBreak (c :: cs) i j := by
      intro h
      obtain ⟨i, j, rfl, hbreak⟩ := ih h
      exact ⟨i + 1, j + 1, by omega, isBreak_cons.mpr hbreak⟩
    rw [sentenceEnds] at h
    split_ifs at h with hstop
    · rcases List.mem_cons.mp h with rfl | h
      · refine ⟨0, leading cs + 1, by omega, by omega, ?_, ?_⟩
        · have := leading_le cs
          simp
          omega
        · rw [slice, List.drop_zero, List.take_succ_cons, take_leading]
          have hgap : ∀ d ∈ cs.takeWhile isSpace, isSpace d = true :=
            fun d hd => List.mem_takeWhile_imp hd
          rcases Bool.or_eq_true _ _ ▸ hstop with hstop | hstop
          · obtain ⟨hstop, hpos⟩ := Bool.and_eq_true _ _ ▸ hstop
            exact .sentence hstop (leading_pos_iff.mp (by simpa using hpos)) hgap
          · exact .wide hstop hgap
      · exact hlater h
    · exact hlater h

/-- A stop with whitespace behind it ends a sentence. -/
theorem exists_sentenceEnd {w : Text} {i j : ℕ} {c : Char} {gap : Text} (hij : i < j)
    (hj : j ≤ w.length) (hslice : slice w i j = c :: gap) (hgap : ∀ d ∈ gap, isSpace d = true)
    (hstop : isStop c = true ∧ gap ≠ [] ∨ isWideStop c = true) (p : ℕ) :
    ∃ q ∈ sentenceEnds p w, p + j ≤ q := by
  induction w generalizing i j p with
  | nil => simp at hj; omega
  | cons d cs ih =>
    obtain ⟨j, rfl⟩ : ∃ k, j = k + 1 := ⟨j - 1, by omega⟩
    have hj : j ≤ cs.length := by simpa using hj
    rw [sentenceEnds]
    cases i with
    | zero =>
      obtain ⟨rfl, rfl⟩ : d = c ∧ cs.take j = gap := by
        simpa [slice] using hslice
      have hall : cs.takeWhile isSpace = cs.take j ++ (cs.drop j).takeWhile isSpace := by
        conv_lhs => rw [← List.take_append_drop j cs, List.takeWhile_append_of_pos hgap]
      have hlead : j ≤ leading cs := by
        rw [leading, hall, List.length_append, List.length_take]
        omega
      rw [if_pos]
      · exact ⟨_, List.mem_cons_self, by omega⟩
      · rcases hstop with ⟨hstop, hne⟩ | hstop
        · have : j ≠ 0 := by
            rintro rfl
            simp at hne
          simp only [hstop, Bool.true_and, Bool.or_eq_true, decide_eq_true_eq]
          exact .inl (by omega)
        · simp [hstop]
    | succ i =>
      obtain ⟨q, hq, hle⟩ := ih (by omega) hj hslice (p + 1)
      split_ifs
      · exact ⟨q, List.mem_cons_of_mem _ hq, by omega⟩
      · exact ⟨q, hq, by omega⟩

theorem isSpace_of_isStop {c : Char} (h : isStop c = true ∨ isWideStop c = true) :
    isSpace c = false := by
  simp only [isStop, isWideStop, Bool.or_eq_true, beq_iff_eq] at h
  rcases h with ((((rfl | rfl) | rfl) | rfl) | rfl) | ((rfl | rfl) | rfl) <;> rfl

/-- A sentence ends behind the whitespace that the text begins with. -/
theorem leading_lt_of_mem_sentenceEnds {p : ℕ} {w : Text} {q : ℕ} (h : q ∈ sentenceEnds p w) :
    p + leading w < q := by
  induction w generalizing p with
  | nil => cases h
  | cons c cs ih =>
    rw [sentenceEnds] at h
    split_ifs at h with hstop
    · have hspace : isSpace c = false := by
        rcases Bool.or_eq_true _ _ ▸ hstop with hstop | hstop
        · exact isSpace_of_isStop (.inl (Bool.and_eq_true _ _ ▸ hstop).1)
        · exact isSpace_of_isStop (.inr hstop)
      have hlead : leading (c :: cs) = 0 := by simp [leading, hspace]
      rcases List.mem_cons.mp h with rfl | h
      · omega
      · have := ih h
        omega
    · have hle : leading (c :: cs) ≤ 1 + leading cs := by
        rw [leading, leading, List.takeWhile_cons]
        split_ifs <;> simp [Nat.add_comm]
      have := ih h
      omega

theorem sentenceEnds_sorted (p : ℕ) (w : Text) : (sentenceEnds p w).Pairwise (· < ·) := by
  induction w generalizing p with
  | nil => exact List.Pairwise.nil
  | cons c cs ih =>
    rw [sentenceEnds]
    split_ifs
    · exact List.pairwise_cons.mpr ⟨fun q hq => leading_lt_of_mem_sentenceEnds hq, ih _⟩
    · exact ih _

/-- The last sentence of a window ends behind the others. -/
theorem le_getLast_sentenceEnds {p : ℕ} {w : Text} {q : ℕ} (h : q ∈ sentenceEnds p w) :
    ∃ m, (sentenceEnds p w).getLast? = some m ∧ q ≤ m := by
  have hsorted := sentenceEnds_sorted p w
  rcases List.eq_nil_or_concat (sentenceEnds p w) with hnil | ⟨l, m, hl⟩
  · rw [hnil] at h
    cases h
  · rw [hl, List.concat_eq_append] at h hsorted ⊢
    refine ⟨m, by simp, ?_⟩
    rcases List.mem_append.mp h with h | h
    · exact ((List.pairwise_append.mp hsorted).2.2 q h m List.mem_cons_self).le
    · exact (List.mem_singleton.mp h).le

/-- What `_natural_end` chooses from are boundaries of the window. -/
theorem isBreak_of_mem_candidates {start : ℕ} {w : Text} {q : ℕ}
    (h : q ∈ naturalCandidates start w) : ∃ i j, q = start + j ∧ IsBreak w i j := by
  simp only [naturalCandidates, List.mem_append, Option.mem_toList, Option.map_eq_some_iff] at h
  rcases h with ((⟨i, hi, rfl⟩ | ⟨i, hi, rfl⟩) | ⟨i, hi, rfl⟩) | ⟨i, hi, rfl⟩
  · obtain ⟨heq, hle⟩ := rfind_eq_some hi
    exact ⟨i, i + 2, by omega, by omega, hle, heq ▸ .paragraph⟩
  · obtain ⟨k, j, rfl, hbreak⟩ := isBreak_of_mem_sentenceEnds (List.mem_of_getLast? hi)
    exact ⟨k, j, by omega, hbreak⟩
  · obtain ⟨heq, hle⟩ := rfind_eq_some hi
    exact ⟨i, i + 1, by omega, by omega, hle, heq ▸ .line⟩
  · obtain ⟨heq, hle⟩ := rfind_eq_some hi
    exact ⟨i, i + 1, by omega, by omega, hle, heq ▸ .word⟩

/-- No boundary of the window is behind all of them. -/
theorem le_candidate (start : ℕ) {w : Text} {i j : ℕ} (h : IsBreak w i j) :
    ∃ q ∈ naturalCandidates start w, start + j ≤ q := by
  have hsentence : ∀ {c : Char} {gap : Text}, slice w i j = c :: gap →
      (∀ d ∈ gap, isSpace d = true) → (isStop c = true ∧ gap ≠ [] ∨ isWideStop c = true) →
      ∃ q ∈ naturalCandidates start w, start + j ≤ q := by
    intro c gap hslice hgap hstop
    obtain ⟨q, hq, hle⟩ := exists_sentenceEnd h.lt h.le hslice hgap hstop 0
    obtain ⟨m, hm, hqm⟩ := le_getLast_sentenceEnds hq
    refine ⟨start + m, ?_, by omega⟩
    simp [naturalCandidates, hm]
  have hlen : (slice w i j).length = j - i := by
    rw [length_slice, min_eq_left h.le]
  have hlt := h.lt
  have hle := h.le
  generalize hb : slice w i j = b at hlen
  have hshape := h.shape
  rw [hb] at hshape
  cases hshape with
  | paragraph =>
    obtain rfl : j = i + 2 := by simp at hlen; omega
    obtain ⟨k, hk, hik⟩ := @le_rfind ['\n', '\n'] w i hb hle
    exact ⟨start + k + 2, by simp [naturalCandidates, hk], by omega⟩
  | line =>
    obtain rfl : j = i + 1 := by simp at hlen; omega
    obtain ⟨k, hk, hik⟩ := @le_rfind ['\n'] w i hb hle
    exact ⟨start + k + 1, by simp [naturalCandidates, hk], by omega⟩
  | word =>
    obtain rfl : j = i + 1 := by simp at hlen; omega
    obtain ⟨k, hk, hik⟩ := @le_rfind [' '] w i hb hle
    exact ⟨start + k + 1, by simp [naturalCandidates, hk], by omega⟩
  | sentence hstop hne hgap => exact hsentence hb hgap (.inl ⟨hstop, hne⟩)
  | wide hstop hgap => exact hsentence hb hgap (.inr hstop)

/-- What `_natural_end` returns for a window that is longer than the minimum: the latest boundary
that leaves the minimum, or the end of a window without one. -/
structure NaturalEnd (text : Text) (start stop minimum e : ℕ) : Prop where
  ge : minimum ≤ e
  le : e ≤ stop
  latest : ∀ p c, start ≤ p → IsBreak text p c → minimum ≤ c → c ≤ stop → c ≤ e
  kind : (∃ p, start ≤ p ∧ IsBreak text p e) ∨
    e = stop ∧ ∀ p c, start ≤ p → IsBreak text p c → minimum ≤ c → ¬ c ≤ stop

theorem naturalEnd_of_le {text : Text} {start stop m : ℕ} (h : stop ≤ start + m) :
    naturalEnd text start stop m = stop := by
  rw [naturalEnd, if_pos h]

theorem naturalEnd_spec {text : Text} {start stop m : ℕ} (hstop : stop ≤ text.length)
    (hm : start + m < stop) :
    NaturalEnd text start stop (start + m) (naturalEnd text start stop m) := by
  have hcand : ∀ p c, start ≤ p → IsBreak text p c → c ≤ stop →
      ∃ q ∈ naturalCandidates start (slice text start stop), c ≤ q := by
    intro p c hp hbreak hc
    have hlt := hbreak.lt
    have hwindow : IsBreak (slice text start stop) (p - start) (c - start) := by
      rw [isBreak_slice hstop, show start + (p - start) = p by omega,
        show start + (c - start) = c by omega]
      exact ⟨hc, hbreak⟩
    obtain ⟨q, hq, hle⟩ := le_candidate start hwindow
    exact ⟨q, hq, by omega⟩
  have hbound : ∀ q ∈ naturalCandidates start (slice text start stop), q ≤ stop := by
    intro q hq
    obtain ⟨i, j, rfl, hbreak⟩ := isBreak_of_mem_candidates hq
    exact ((isBreak_slice hstop).mp hbreak).1
  rw [naturalEnd, if_neg (by omega)]
  dsimp only
  generalize heligible : (naturalCandidates start (slice text start stop)).filter
    (fun c => decide (start + m ≤ c) && decide (c ≤ stop)) = eligible
  have hmem : ∀ q, q ∈ eligible ↔
      q ∈ naturalCandidates start (slice text start stop) ∧ start + m ≤ q ∧ q ≤ stop := by
    intro q
    rw [← heligible, List.mem_filter]
    simp
  have hreach : ∀ p c, start ≤ p → IsBreak text p c → start + m ≤ c → c ≤ stop →
      ∃ q ∈ eligible, c ≤ q := by
    intro p c hp hbreak hmin hc
    obtain ⟨q, hq, hle⟩ := hcand p c hp hbreak hc
    exact ⟨q, (hmem q).mpr ⟨hq, by omega, hbound q hq⟩, hle⟩
  cases hmax : eligible.max? with
  | none =>
    rw [List.max?_eq_none_iff] at hmax
    have hnone : ∀ p c, start ≤ p → IsBreak text p c → start + m ≤ c → ¬ c ≤ stop := by
      intro p c hp hbreak hmin hc
      obtain ⟨q, hq, -⟩ := hreach p c hp hbreak hmin hc
      rw [hmax] at hq
      cases hq
    refine ⟨hm.le, Nat.le_refl _, fun p c _ _ _ hc => hc, .inr ⟨rfl, hnone⟩⟩
  | some e =>
    obtain ⟨he, hle⟩ := List.max?_eq_some_iff.mp hmax
    obtain ⟨hcandidate, hmin, hstop'⟩ := (hmem e).mp he
    obtain ⟨i, j, rfl, hbreak⟩ := isBreak_of_mem_candidates hcandidate
    refine ⟨hmin, hstop', fun p c hp hbreak hmin hc => ?_, .inl ⟨start + i, by omega, ?_⟩⟩
    · obtain ⟨q, hq, hcq⟩ := hreach p c hp hbreak hmin hc
      exact hcq.trans (hle q hq)
    · exact ((isBreak_slice hstop).mp hbreak).2

/-- A natural end leaves at least one character. -/
theorem naturalEnd_bounds {text : Text} {start stop m : ℕ} (hstop : stop ≤ text.length)
    (hm : 1 ≤ m) (hlt : start < stop) :
    start < naturalEnd text start stop m ∧ naturalEnd text start stop m ≤ stop := by
  by_cases h : stop ≤ start + m
  · rw [naturalEnd_of_le h]
    exact ⟨hlt, Nat.le_refl _⟩
  · have hspec := naturalEnd_spec (m := m) hstop (by omega : start + m < stop)
    exact ⟨by have := hspec.ge; omega, hspec.le⟩

/-! ## The caps -/

/-- The entries of a sorted list below its entry of index `n` are `n`. -/
theorem length_filter_lt_of_getElem? {l : List ℕ} (hl : l.Pairwise (· < ·)) {n q : ℕ}
    (h : l[n]? = some q) : (l.filter (· < q)).length = n := by
  induction l generalizing n with
  | nil => simp at h
  | cons a l ih =>
    obtain ⟨ha, hl⟩ := List.pairwise_cons.mp hl
    cases n with
    | zero =>
      obtain rfl : a = q := by simpa using h
      rw [List.length_eq_zero_iff, List.filter_eq_nil_iff]
      intro b hb
      rcases List.mem_cons.mp hb with rfl | hb
      · simp
      · have := ha b hb
        simp
        omega
    | succ n =>
      rw [List.getElem?_cons_succ] at h
      have := ha q (List.mem_of_getElem? h)
      rw [List.filter_cons_of_pos (by simpa using this), List.length_cons, ih hl h]

/-- No slice that ends within the cap has more terms. -/
theorem termLimitedEnd_terms {text : Text} {start hardEnd maxTerms e : ℕ}
    (he : e ≤ termLimitedEnd text start hardEnd maxTerms) (hhard : e ≤ hardEnd) :
    (termStarts text start e).length ≤ maxTerms := by
  rw [termStarts_of_le text hhard]
  rw [termLimitedEnd] at he
  cases hget : (termStarts text start hardEnd)[maxTerms]? with
  | none =>
    rw [List.getElem?_eq_none_iff] at hget
    exact (List.length_filter_le _ _).trans hget
  | some q =>
    rw [hget, Option.getD_some] at he
    rw [← length_filter_lt_of_getElem? (termStarts_sorted _ _ _) hget]
    refine (List.monotone_filter_right _ fun a ha => ?_).length_le
    simp only [decide_eq_true_eq] at ha ⊢
    omega

/-- The cap is not before an offset up to which there are fewer terms. -/
theorem lt_termLimitedEnd {text : Text} {start hardEnd maxTerms e : ℕ} (hhard : e < hardEnd)
    (hterms : (termStarts text start e).length < maxTerms) :
    e < termLimitedEnd text start hardEnd maxTerms := by
  rw [termLimitedEnd]
  cases hget : (termStarts text start hardEnd)[maxTerms]? with
  | none => exact hhard
  | some q =>
    rw [Option.getD_some]
    by_contra hq
    have hcount := length_filter_lt_of_getElem? (termStarts_sorted _ _ _) hget
    rw [termStarts_of_le text hhard.le] at hterms
    have hle : ((termStarts text start hardEnd).filter (· < q)).length ≤
        ((termStarts text start hardEnd).filter (· < e)).length := by
      refine (List.monotone_filter_right _ fun a ha => ?_).length_le
      simp only [decide_eq_true_eq] at ha ⊢
      omega
    omega

theorem termLimitedEnd_le {text : Text} {start hardEnd maxTerms : ℕ} :
    termLimitedEnd text start hardEnd maxTerms ≤ hardEnd := by
  rw [termLimitedEnd]
  cases hget : (termStarts text start hardEnd)[maxTerms]? with
  | none => exact Nat.le_refl _
  | some q => exact (mem_termStarts.mp (List.mem_of_getElem? hget)).2.1.le

/-- Where the window ends before the natural boundary is chosen. -/
def cappedEnd (source : Text) (cursor : ℕ) (config : TextChunkingConfig) : ℕ :=
  termLimitedEnd source cursor (min source.length (cursor + config.maxChars)) config.maxTerms

theorem termStarts_self (text : Text) (start : ℕ) : termStarts text start start = [] := by
  rw [List.eq_nil_iff_forall_not_mem]
  intro q hq
  obtain ⟨hle, hlt, -⟩ := mem_termStarts.mp hq
  omega

variable {source : Text} {cursor : ℕ}

theorem cappedEnd_bounds (config : TextChunkingConfig) (h : cursor < source.length) :
    cursor < cappedEnd source cursor config ∧ cappedEnd source cursor config ≤ source.length ∧
      cappedEnd source cursor config ≤ cursor + config.maxChars := by
  have hchars := config.maxChars_range.1
  have hterms := config.maxTerms_range.1
  have hle : cappedEnd source cursor config ≤ min source.length (cursor + config.maxChars) :=
    termLimitedEnd_le
  refine ⟨lt_termLimitedEnd (by omega) ?_, by omega, by omega⟩
  rw [termStarts_self]
  exact hterms

/-- The window ends at the latest natural boundary within its caps; the last fallback of
`_window_end` is never taken. -/
theorem windowEnd_eq (config : TextChunkingConfig) (h : cursor < source.length) :
    windowEnd source cursor config =
      if cappedEnd source cursor config < source.length then
        naturalEnd source cursor (cappedEnd source cursor config) config.minNaturalBreakChars
      else cappedEnd source cursor config := by
  obtain ⟨hlt, hlen, -⟩ := cappedEnd_bounds config h
  have hnatural := naturalEnd_bounds hlen config.minNaturalBreakChars_range.1 hlt
  show (if cursor < (if cappedEnd source cursor config < source.length then _ else _) then _
    else _) = _
  rw [if_pos]
  · rfl
  · split_ifs
    · exact hnatural.1
    · exact hlt

theorem windowEnd_bounds (config : TextChunkingConfig) (h : cursor < source.length) :
    cursor < windowEnd source cursor config ∧
      windowEnd source cursor config ≤ cappedEnd source cursor config := by
  obtain ⟨hlt, hlen, -⟩ := cappedEnd_bounds config h
  rw [windowEnd_eq config h]
  split_ifs
  · exact naturalEnd_bounds hlen config.minNaturalBreakChars_range.1 hlt
  · exact ⟨hlt, Nat.le_refl _⟩

/-- A window, or a shorter one with its start, has at most so many terms. -/
theorem terms_le {config : TextChunkingConfig} (h : cursor < source.length) {e : ℕ} (he : e ≤ windowEnd source cursor config) :
    (words (slice source cursor e)).length ≤ config.maxTerms := by
  have hcap := (windowEnd_bounds config h).2
  rw [← length_termStarts]
  exact termLimitedEnd_terms (he.trans hcap) (he.trans (hcap.trans termLimitedEnd_le))

/-- The next window starts inside this one, or behind it. -/
theorem nextStart_bounds (config : TextChunkingConfig) {start stop : ℕ} (h : start < stop) :
    start < nextStart source start stop config ∧ nextStart source start stop config ≤ stop := by
  rw [nextStart]
  split_ifs
  · exact ⟨h, Nat.le_refl _⟩
  · dsimp only
    generalize hterm : (((termStarts source start stop).rtake config.overlapTerms).head?).getD stop =
      termStart
    have hle : termStart ≤ stop := by
      rw [← hterm]
      cases hhead : ((termStarts source start stop).rtake config.overlapTerms).head? with
      | none => exact Nat.le_refl _
      | some q =>
        have hmem := List.mem_of_mem_drop (List.mem_of_head? hhead)
        exact (mem_termStarts.mp hmem).2.1.le
    have hnext := le_skipSpaces source
      (max (max (stop - config.overlapChars) termStart) (start + 1)) stop
    exact ⟨by omega, skipSpaces_le (by omega)⟩

end Chunking
end Neocortex
