import Neocortex.Library.Tables
import Neocortex.Library.Borders
import Neocortex.Retrieval.Tokens

/-!
# Literal evidence in one pass

`analyze_literal_text` of `semantic.semantic_lexical`: which terms of a prepared query occur in a
text, whether its phrase does, how close together its terms stand, and where a snippet begins.
One pass over the tokens computes all of it; the four parts do not look at each other.

* `prepareLiteralQuery`, `analyzeLiteralText`: the functions of the source;
* `phrase_match_iff`: the phrase is found just when its words stand in the text one behind another;
* `support_exact`: the observed terms, and the shortest stretch of words that has all of them.

The word lists of the query's language are a parameter.
-/

namespace Neocortex
namespace Retrieval

open Python Runs Borders

/-! ## Queries -/

/-- `MAX_QUERY_CHARS`. -/
def maxQueryChars : ℕ := 4096

/-- `MAX_QUERY_TERMS`. -/
def maxQueryTerms : ℕ := 64

/-- `_NATURAL_STOPWORDS`, `_QUESTION_PREFIX_TERMS` and `_QUESTION_AUXILIARIES`. -/
structure WordLists where
  naturalStopwords : List Text
  questionPrefixTerms : List Text
  questionAuxiliaries : List Text

/-- `PreparedLiteralQuery`; its `wanted` is the set of its terms. -/
structure PreparedLiteralQuery where
  original : Text
  terms : List Text
  phraseTerms : List Text
  phraseFailure : List ℕ
  maxFoldedTermChars : ℕ

section Query

variable (u : CharacterData) (lists : WordLists)

/-- `term.casefold()`. -/
def casefold (term : Text) : Text := term.flatMap u.casefold

/-- `_NATURAL_TERM.findall(query[:MAX_QUERY_CHARS])`. -/
def naturalTerms (query : Text) : List Text :=
  (runs u.word 0 (query.take maxQueryChars)).map Run.elems

/-- `_query_support_terms`. -/
def querySupportTerms (query : Text) : List Text :=
  let rawTerms := naturalTerms u query
  let question := rawTerms.head?.any fun term => casefold u term ∈ lists.questionPrefixTerms
  let content := rawTerms.filter fun term =>
    casefold u term ∉ lists.naturalStopwords ∧
      ¬ (question ∧ casefold u term ∈ lists.questionAuxiliaries)
  ((content.map u.foldRetrievalTerm).eraseDups).take maxQueryTerms

/-- `prepare_literal_query`. -/
def prepareLiteralQuery (query : Text) : PreparedLiteralQuery :=
  let terms := querySupportTerms u lists query
  let phrase := ((naturalTerms u query).map u.foldRetrievalTerm).take maxQueryTerms
  { original := query
    terms
    phraseTerms := phrase
    phraseFailure := failureTable phrase
    maxFoldedTermChars := ((terms ++ phrase).map List.length).foldl max 0 }

end Query

/-! ## The pass -/

/-- The search for the phrase; `matched` is `prefix`. -/
structure PhraseSearch where
  matched : ℕ := 0
  phraseMatch : Bool := false

/-- The terms that were seen; `latest` is the ordered dictionary in its order. -/
structure SupportSearch where
  observed : List Text := []
  latest : List (Text × ℕ) := []
  minimumSpan : Option ℕ := none

/-- A wanted token. -/
structure Wanted where
  start : ℕ
  stop : ℕ
  term : Text

/-- `(-len(counts), end - window[0][0], window[0][0])`. -/
structure WindowKey where
  distinct : ℕ
  width : ℕ
  start : ℕ

/-- The order of the keys. -/
def WindowKey.before (a b : WindowKey) : Prop :=
  b.distinct < a.distinct ∨ a.distinct = b.distinct ∧
    (a.width < b.width ∨ a.width = b.width ∧ a.start < b.start)

instance WindowKey.decidableBefore (a b : WindowKey) : Decidable (a.before b) := by
  unfold WindowKey.before
  infer_instance

/-- The window for the snippet; a term without a count is not in `counts`, and `distinct` is
`len(counts)`. -/
structure WindowSearch where
  window : List Wanted := []
  counts : Text → ℕ := fun _ => 0
  distinct : ℕ := 0
  best : Option WindowKey := none
  bestBounds : Option (ℕ × ℕ) := none

/-- The variables of the pass. -/
structure Pass where
  phrase : PhraseSearch := {}
  support : SupportSearch := {}
  window : WindowSearch := {}

/-- The phrase behind one token. -/
def PhraseSearch.step (phrase : List Text) (failure : List ℕ) (s : PhraseSearch)
    (folded : Option Text) : PhraseSearch :=
  if phrase ≠ [] ∧ s.phraseMatch = false then
    let matched := follow failure (places (phrase.map some) folded) s.matched
    ⟨matched, matched = phrase.length⟩
  else s

/-- The terms behind a wanted token. -/
def SupportSearch.see (includeSupport : Bool) (s : SupportSearch) (index : ℕ) (folded : Text) :
    SupportSearch :=
  let observed := if folded ∈ s.observed then s.observed else s.observed ++ [folded]
  if includeSupport then
    let newTerm := folded ∉ s.latest.map Prod.fst
    let latest := (s.latest.filter fun e => e.1 ≠ folded) ++ [(folded, index)]
    let span := index - (latest.head?.map Prod.snd).getD index + 1
    ⟨observed, latest, if newTerm then some span else
      some (s.minimumSpan.elim span fun least => min least span)⟩
  else { s with observed }

/-- The `while` loop of the window; the list is the window. -/
def popLeft (windowChars stop : ℕ) (counts : Text → ℕ) (distinct : ℕ) :
    List Wanted → List Wanted × (Text → ℕ) × ℕ
  | [] => ([], counts, distinct)
  | first :: rest =>
    if windowChars < stop - first.start ∨ 1 < counts first.term then
      popLeft windowChars stop (Function.update counts first.term (counts first.term - 1))
        (if counts first.term - 1 = 0 then distinct - 1 else distinct) rest
    else (first :: rest, counts, distinct)

/-- The window with the wanted token behind it, when the loop has run. -/
def popped (windowChars : ℕ) (s : WindowSearch) (w : Wanted) : List Wanted × (Text → ℕ) × ℕ :=
  popLeft windowChars w.stop (Function.update s.counts w.term (s.counts w.term + 1))
    (if s.counts w.term = 0 then s.distinct + 1 else s.distinct) (s.window ++ [w])

/-- `key`. -/
def keyOf (w head : Wanted) (distinct : ℕ) : WindowKey :=
  ⟨distinct, w.stop - head.start, head.start⟩

/-- The best window behind a wanted token. -/
def WindowSearch.settle (s : WindowSearch) (w : Wanted) (p : List Wanted × (Text → ℕ) × ℕ) :
    WindowSearch :=
  match p.1.head? with
  | none => ⟨p.1, p.2.1, p.2.2, s.best, some (s.bestBounds.getD (w.start, w.stop))⟩
  | some head =>
    if s.best.all (fun best => (keyOf w head p.2.2).before best) then
      ⟨p.1, p.2.1, p.2.2, some (keyOf w head p.2.2), some (head.start, w.stop)⟩
    else ⟨p.1, p.2.1, p.2.2, s.best, some (s.bestBounds.getD (w.start, w.stop))⟩

/-- The window behind a wanted token. -/
def WindowSearch.see (windowChars : ℕ) (s : WindowSearch) (w : Wanted) : WindowSearch :=
  s.settle w (popped windowChars s w)

/-- `LiteralTextAnalysis`, without its arguments. -/
structure LiteralTextAnalysis where
  observed : List Text
  phraseMatch : Bool
  minimumSpanTerms : Option ℕ
  snippetStart : ℕ

section Analysis

variable (u : CharacterData) (prepared : PreparedLiteralQuery) (snippetChars : Option ℕ)
  (includeSupport : Bool)

/-- The phrase that is looked for. -/
def soughtPhrase : List Text := if includeSupport then prepared.phraseTerms else []

/-- The body of the loop over the tokens. -/
def Pass.step (windowChars : ℕ) (selectWindow : Bool) (s : Pass) (t : LiteralToken) : Pass :=
  let s := { s with
    phrase := s.phrase.step (soughtPhrase prepared includeSupport) prepared.phraseFailure t.folded }
  match t.folded with
  | none => s
  | some folded =>
    if folded ∈ prepared.terms then
      { s with
        support := s.support.see includeSupport t.index folded
        window := if selectWindow then s.window.see windowChars ⟨t.start, t.stop, folded⟩
          else s.window }
    else s

/-- The pass over a text. -/
def literalPass (text : Text) : Pass :=
  let windowChars := snippetChars.getD 0
  let selectWindow := windowChars != 0 && windowChars < text.length
  if prepared.terms ≠ [] ∨ soughtPhrase prepared includeSupport ≠ [] then
    (literalTokens u prepared.maxFoldedTermChars text).foldl
      (Pass.step prepared includeSupport windowChars selectWindow) {}
  else {}

/-- Where the snippet begins. -/
def snippetStart (bestBounds : Option (ℕ × ℕ)) (length : ℕ) : ℕ :=
  match bestBounds, snippetChars with
  | some bounds, some chars =>
    min (bounds.1 - (chars - (bounds.2 - bounds.1)) / 2) (length - chars)
  | _, _ => 0

/-- `analyze_literal_text`. -/
def analyzeLiteralText (text : Text) : LiteralTextAnalysis :=
  let pass := literalPass u prepared snippetChars includeSupport text
  { observed := pass.support.observed
    phraseMatch := pass.phrase.phraseMatch
    minimumSpanTerms := pass.support.minimumSpan
    snippetStart := snippetStart snippetChars pass.window.bestBounds text.length }

end Analysis

/-! ## The parts of a pass -/

section Parts

variable {prepared : PreparedLiteralQuery} {includeSupport : Bool} {windowChars : ℕ}
  {selectWindow : Bool}

/-- The wanted term of a token. -/
def wantedTerm (prepared : PreparedLiteralQuery) (t : LiteralToken) : Option Text :=
  t.folded.filter fun folded => folded ∈ prepared.terms

theorem step_phrase (s : Pass) (t : LiteralToken) :
    (s.step prepared includeSupport windowChars selectWindow t).phrase =
      s.phrase.step (soughtPhrase prepared includeSupport) prepared.phraseFailure t.folded := by
  unfold Pass.step
  cases t.folded with
  | none => rfl
  | some folded =>
    dsimp only
    split_ifs <;> rfl

theorem step_support (s : Pass) (t : LiteralToken) :
    (s.step prepared includeSupport windowChars selectWindow t).support =
      match wantedTerm prepared t with
      | none => s.support
      | some folded => s.support.see includeSupport t.index folded := by
  unfold Pass.step wantedTerm
  cases t.folded with
  | none => rfl
  | some folded =>
    dsimp only
    split_ifs with h <;> simp [Option.filter, h]

theorem step_window (s : Pass) (t : LiteralToken) :
    (s.step prepared includeSupport windowChars selectWindow t).window =
      match wantedTerm prepared t with
      | none => s.window
      | some folded =>
        if selectWindow then s.window.see windowChars ⟨t.start, t.stop, folded⟩ else s.window := by
  unfold Pass.step wantedTerm
  cases t.folded with
  | none => rfl
  | some folded =>
    dsimp only
    split_ifs with h <;> simp [Option.filter, *]

end Parts

/-! ## The phrase -/

/-- The search behind the tokens `seen`: it has not found the phrase and knows how much of it ends
what was seen, or it has. -/
def Searched (phrase : List (Option Text)) (seen : List (Option Text)) (s : PhraseSearch) : Prop :=
  (s.phraseMatch = true ∧ phrase <:+: seen) ∨
  (s.phraseMatch = false ∧ ¬ phrase <:+: seen ∧ s.matched < phrase.length ∧
    Overlap phrase seen s.matched)

theorem Searched.step {phrase : List Text} (hphrase : phrase ≠ []) {seen : List (Option Text)}
    {s : PhraseSearch} (h : Searched (phrase.map some) seen s) (folded : Option Text) :
    Searched (phrase.map some) (seen ++ [folded])
      (s.step phrase (failureTable phrase) folded) := by
  rcases h with ⟨hfound, hin⟩ | ⟨hnot, hout, hlt, hover⟩
  · rw [PhraseSearch.step, if_neg (by simp [hfound])]
    exact Or.inl ⟨hfound, hin.trans (List.prefix_append _ _).isInfix⟩
  · rw [PhraseSearch.step, if_pos ⟨hphrase, hnot⟩]
    have htable := table_failureTable (phrase.map some)
    rw [failureTable_map (Option.some_injective _)] at htable
    have hnext := follow_overlap folded hlt hover fun i hi => htable i (by omega)
    have hend := hnext.eq_length_iff
    have hjoin : phrase.map some <:+: seen ++ [folded] ↔
        phrase.map some <:+ seen ++ [folded] ∨ phrase.map some <:+: seen := List.infix_concat_iff
    have hle := hnext.1.1
    rw [List.length_map] at hend
    by_cases hwhole : follow (failureTable phrase) (places (phrase.map some) folded) s.matched =
        phrase.length
    · exact Or.inl ⟨by simpa using hwhole, hjoin.mpr (Or.inl (hend.mp hwhole))⟩
    · refine Or.inr ⟨by simpa using hwhole, ?_, ?_, hnext⟩
      · rw [hjoin]
        rintro (hs | hs)
        · exact hwhole (hend.mpr hs)
        · exact hout hs
      · rw [List.length_map] at hle
        have hshort : follow (failureTable phrase) (places (phrase.map some) folded) s.matched <
            phrase.length := by omega
        rwa [List.length_map]

theorem searched_foldl {phrase : List Text} (hphrase : phrase ≠ []) (tokens : List (Option Text)) :
    Searched (phrase.map some) tokens
      (tokens.foldl (PhraseSearch.step phrase (failureTable phrase)) {}) := by
  induction tokens using List.reverseRecOn with
  | nil =>
    refine Or.inr ⟨rfl, ?_, ?_, overlap_nil _⟩
    · simpa [List.infix_nil] using hphrase
    · simpa [List.length_pos_iff] using hphrase
  | append_singleton tokens folded ih =>
    rw [List.foldl_append]
    exact ih.step hphrase folded

/-- The folded words of a text. -/
def foldedWords (u : CharacterData) (text : Text) : List Text :=
  (runs u.word 0 text).map fun r => u.foldRetrievalTerm r.elems

/-- A word that is no longer than a term. -/
def short (maxFoldedChars : ℕ) (word : Text) : Option Text :=
  if word.length ≤ maxFoldedChars then some word else none

/-- The foldings of the tokens are the folded words, without those that are too long. -/
theorem map_folded_literalTokens (u : CharacterData) (m : ℕ) (text : Text) :
    (literalTokens u m text).map LiteralToken.folded = (foldedWords u text).map (short m) := by
  rw [literal_tokens u m text, foldedWords]
  apply List.ext_getElem?
  intro i
  simp only [List.getElem?_map, List.getElem?_mapIdx, Option.map_map]
  rfl

theorem short_eq_some_iff {m : ℕ} {word w : Text} (hw : w.length ≤ m) :
    short m word = some w ↔ word = w := by
  unfold short
  split_ifs with h
  · rw [Option.some.injEq]
  · constructor
    · exact False.elim
    · rintro rfl
      exact absurd hw h

/-- Words that are too long do not hide a phrase of short ones. -/
theorem map_some_infix_iff {m : ℕ} {phrase words : List Text} (hphrase : ∀ w ∈ phrase, w.length ≤ m) :
    phrase.map some <:+: words.map (short m) ↔ phrase <:+: words := by
  have hshort : phrase.map some = phrase.map (short m) := by
    apply List.map_congr_left
    intro w hw
    exact ((short_eq_some_iff (hphrase w hw)).mpr rfl).symm
  constructor
  · rintro ⟨before, after, h⟩
    obtain ⟨front, back, rfl, hfront, rfl⟩ := List.map_eq_append_iff.mp h.symm
    obtain ⟨first, middle, rfl, rfl, hmiddle⟩ := List.map_eq_append_iff.mp hfront
    have hsame : middle = phrase := by
      apply List.ext_getElem?
      intro i
      have hi := congrArg (fun l => l[i]?) hmiddle
      simp only [List.getElem?_map] at hi
      cases hp : phrase[i]? with
      | none =>
        rw [hp, Option.map_none, Option.map_eq_none_iff] at hi
        exact hi
      | some w =>
        rw [hp, Option.map_some, Option.map_eq_some_iff] at hi
        obtain ⟨word, hword, hshort⟩ := hi
        rw [hword, (short_eq_some_iff (hphrase w (List.mem_of_getElem? hp))).mp hshort]
    exact ⟨first, back, by rw [hsame]⟩
  · rintro ⟨before, after, rfl⟩
    exact ⟨before.map (short m), after.map (short m), by rw [hshort]; simp⟩

/-- No term of a prepared query is longer than its bound. -/
theorem prepareLiteralQuery_bound (u : CharacterData) (lists : WordLists) (query : Text) :
    ∀ w ∈ (prepareLiteralQuery u lists query).terms ++
      (prepareLiteralQuery u lists query).phraseTerms,
      w.length ≤ (prepareLiteralQuery u lists query).maxFoldedTermChars := by
  intro w hw
  exact le_foldl_max (Or.inr (List.mem_map_of_mem hw))

theorem foldl_step_phrase {prepared : PreparedLiteralQuery} {includeSupport : Bool}
    {windowChars : ℕ} {selectWindow : Bool} (tokens : List LiteralToken) (s : Pass) :
    (tokens.foldl (Pass.step prepared includeSupport windowChars selectWindow) s).phrase =
      (tokens.map LiteralToken.folded).foldl
        (PhraseSearch.step (soughtPhrase prepared includeSupport) prepared.phraseFailure)
        s.phrase := by
  induction tokens generalizing s with
  | nil => rfl
  | cons t tokens ih => rw [List.foldl_cons, ih, step_phrase, List.map_cons, List.foldl_cons]

/-- For every query and text: an analysis with support finds the phrase just when the folded words
of the query's beginning stand in the text one directly behind another. -/
theorem phrase_match_iff (u : CharacterData) (lists : WordLists) (query text : Text)
    (snippetChars : Option ℕ) :
    (analyzeLiteralText u (prepareLiteralQuery u lists query) snippetChars true text).phraseMatch
        = true ↔
      (prepareLiteralQuery u lists query).phraseTerms ≠ [] ∧
        (prepareLiteralQuery u lists query).phraseTerms <:+: foldedWords u text := by
  set prepared := prepareLiteralQuery u lists query with hprepared
  have hfailure : prepared.phraseFailure = failureTable prepared.phraseTerms := rfl
  have hshort : ∀ w ∈ prepared.phraseTerms, w.length ≤ prepared.maxFoldedTermChars := fun w hw =>
    prepareLiteralQuery_bound u lists query w (List.mem_append_right _ hw)
  show (literalPass u prepared snippetChars true text).phrase.phraseMatch = true ↔ _
  by_cases hphrase : prepared.phraseTerms = []
  · -- nothing is looked for
    have hnone : (literalPass u prepared snippetChars true text).phrase.phraseMatch = false := by
      unfold literalPass
      dsimp only
      split_ifs
      · rw [foldl_step_phrase]
        have hstay : ∀ (l : List (Option Text)) (s : PhraseSearch), l.foldl (PhraseSearch.step
            (soughtPhrase prepared true) prepared.phraseFailure) s = s := by
          intro l
          induction l with
          | nil => exact fun s => rfl
          | cons f l ih =>
            intro s
            rw [List.foldl_cons, PhraseSearch.step, if_neg (by simp [soughtPhrase, hphrase]), ih]
        rw [hstay]
      · rfl
    simp [hnone, hphrase]
  · have hpass : (literalPass u prepared snippetChars true text).phrase =
        ((foldedWords u text).map (short prepared.maxFoldedTermChars)).foldl
          (PhraseSearch.step prepared.phraseTerms (failureTable prepared.phraseTerms)) {} := by
      unfold literalPass
      dsimp only
      rw [if_pos (Or.inr (by simpa [soughtPhrase] using hphrase)), foldl_step_phrase,
        map_folded_literalTokens, hfailure]
      rfl
    rw [hpass, ← map_some_infix_iff hshort]
    have hsearched := searched_foldl hphrase
      ((foldedWords u text).map (short prepared.maxFoldedTermChars))
    rcases hsearched with ⟨hfound, hin⟩ | ⟨hnot, hout, -⟩
    · exact iff_of_true hfound ⟨hphrase, hin⟩
    · simp [hnot, hout]

/-! ## The terms -/

/-- The words have all of the terms. -/
def HasTerms (terms : List Text) (words : List (Option Text)) : Prop := ∀ t ∈ terms, some t ∈ words

/-- `n` is the length of the shortest stretch of words that has all of the terms. -/
def ShortestCover (terms : List Text) (words : List (Option Text)) (n : ℕ) : Prop :=
  IsLeast {n | ∃ w, w <:+: words ∧ w.length = n ∧ HasTerms terms w} n

/-- What is known behind the words `seen`: the terms among them, for each where it was seen last,
and the shortest stretch that has them all. -/
structure Supports (wanted : List Text) (seen : List (Option Text)) (s : SupportSearch) :
    Prop where
  observed : ∀ t, t ∈ s.observed ↔ t ∈ wanted ∧ some t ∈ seen
  latest : ∀ t, t ∈ s.latest.map Prod.fst ↔ t ∈ s.observed
  sorted : (s.latest.map Prod.snd).Pairwise (· < ·)
  last : ∀ e ∈ s.latest, e.2 < seen.length ∧
    ∀ n ≤ seen.length, some e.1 ∈ seen.drop (seen.length - n) ↔ seen.length ≤ e.2 + n
  unspanned : s.minimumSpan = none → s.observed = []
  spanned : ∀ n, s.minimumSpan = some n → s.observed ≠ [] ∧ ShortestCover s.observed seen n

theorem supports_nil (wanted : List Text) : Supports wanted [] {} :=
  ⟨by simp, by simp, List.Pairwise.nil, by simp, fun _ => rfl, by simp⟩

/-- Words behind a stretch that has the terms. -/
theorem ShortestCover.append_singleton {terms : List Text} {words : List (Option Text)} {n : ℕ}
    {x : Option Text} (h : ShortestCover terms words n) (hterms : terms ≠ [])
    (hx : ∀ t ∈ terms, x ≠ some t) : ShortestCover terms (words ++ [x]) n := by
  obtain ⟨⟨w, hw, hlen, hcovers⟩, hleast⟩ := h
  refine ⟨⟨w, hw.trans (List.prefix_append _ _).isInfix, hlen, hcovers⟩, ?_⟩
  rintro m ⟨v, hv, rfl, hvcovers⟩
  rcases List.infix_concat_iff.mp hv with hs | hi
  · -- without its last word the stretch still has all terms
    obtain ⟨t, ht⟩ := List.exists_mem_of_ne_nil _ hterms
    have hvne : v ≠ [] := List.ne_nil_of_mem (hvcovers t ht)
    obtain ⟨v, y, rfl⟩ := (List.eq_nil_or_concat' v).resolve_left hvne
    obtain ⟨front, hfront⟩ := hs
    rw [← List.append_assoc] at hfront
    obtain ⟨h₁, h₂⟩ := List.append_inj' hfront rfl
    have hy : y = x := List.singleton_inj.mp h₂
    have hle := hleast ⟨v, ⟨front, [], by rw [List.append_nil, h₁]⟩, rfl, fun t ht => by
      rcases List.mem_append.mp (hvcovers t ht) with hmem | hmem
      · exact hmem
      · rw [List.mem_singleton, hy] at hmem
        exact absurd hmem.symm (hx t ht)⟩
    rw [List.length_append]
    exact Nat.le_add_right_of_le hle
  · exact hleast ⟨v, hi, rfl, hvcovers⟩

/-- A word that is not wanted. -/
theorem Supports.skip {wanted : List Text} {seen : List (Option Text)} {s : SupportSearch}
    {x : Option Text} (h : Supports wanted seen s) (hx : ∀ t ∈ wanted, x ≠ some t) :
    Supports wanted (seen ++ [x]) s := by
  have hobserved : ∀ t ∈ s.observed, x ≠ some t := fun t ht => hx t ((h.observed t).mp ht).1
  refine ⟨?_, h.latest, h.sorted, ?_, h.unspanned, ?_⟩
  · intro t
    rw [h.observed t, List.mem_append, List.mem_singleton]
    constructor
    · exact fun ht => ⟨ht.1, Or.inl ht.2⟩
    · rintro ⟨ht, hmem | hmem⟩
      · exact ⟨ht, hmem⟩
      · exact absurd hmem.symm (hx t ht)
  · intro e he
    obtain ⟨hlt, hlast⟩ := h.last e he
    have hne : x ≠ some e.1 := hobserved e.1 ((h.latest e.1).mp (List.mem_map_of_mem he))
    rw [List.length_append, List.length_singleton]
    refine ⟨by omega, ?_⟩
    intro n hn
    cases n with
    | zero =>
      rw [Nat.sub_zero, List.drop_eq_nil_of_le (by simp)]
      simp
      omega
    | succ n =>
      have hdrop : seen.length + 1 - (n + 1) = seen.length - n := by omega
      rw [hdrop, List.drop_append_of_le_length (by omega), List.mem_append, List.mem_singleton,
        or_iff_left hne.symm, hlast n (by omega)]
      omega
  · intro n hn
    obtain ⟨hne, hcover⟩ := h.spanned n hn
    exact ⟨hne, hcover.append_singleton hne hobserved⟩

section See

variable {wanted : List Text} {seen : List (Option Text)} {s : SupportSearch} {x : Text}

/-- The dictionary behind a wanted word. -/
def seenLatest (s : SupportSearch) (index : ℕ) (x : Text) : List (Text × ℕ) :=
  (s.latest.filter fun e => e.1 ≠ x) ++ [(x, index)]

/-- The terms behind a wanted word. -/
def seenTerms (s : SupportSearch) (x : Text) : List Text :=
  if x ∈ s.observed then s.observed else s.observed ++ [x]

theorem mem_seenTerms (t : Text) : t ∈ seenTerms s x ↔ t ∈ s.observed ∨ t = x := by
  unfold seenTerms
  split_ifs with h
  · constructor
    · exact Or.inl
    · rintro (ht | rfl)
      · exact ht
      · exact h
  · rw [List.mem_append, List.mem_singleton]

theorem Supports.mem_seenLatest (h : Supports wanted seen s) (index : ℕ) (t : Text) :
    t ∈ (seenLatest s index x).map Prod.fst ↔ t ∈ seenTerms s x := by
  have hlatest := h.latest t
  rw [mem_seenTerms, ← hlatest, seenLatest, List.map_append, List.mem_append]
  constructor
  · rintro (ht | ht)
    · obtain ⟨e, he, rfl⟩ := List.mem_map.mp ht
      exact Or.inl (List.mem_map_of_mem (List.mem_filter.mp he).1)
    · exact Or.inr (by simpa using ht)
  · rintro (ht | rfl)
    · obtain ⟨e, he, rfl⟩ := List.mem_map.mp ht
      by_cases hx : e.1 = x
      · exact Or.inr (by simp [hx])
      · exact Or.inl (List.mem_map_of_mem (List.mem_filter.mpr ⟨he, by simpa using hx⟩))
    · exact Or.inr (by simp)

theorem Supports.sorted_seenLatest (h : Supports wanted seen s) :
    ((seenLatest s seen.length x).map Prod.snd).Pairwise (· < ·) := by
  rw [seenLatest, List.map_append, List.pairwise_append]
  refine ⟨h.sorted.sublist (List.filter_sublist.map _), by simp, ?_⟩
  intro i hi j hj
  obtain ⟨e, he, rfl⟩ := List.mem_map.mp hi
  obtain rfl : j = seen.length := by simpa using hj
  exact (h.last e (List.mem_filter.mp he).1).1

/-- Where the terms were seen last, behind one more wanted word. -/
theorem Supports.last_seenLatest (h : Supports wanted seen s) :
    ∀ e ∈ seenLatest s seen.length x, e.2 < (seen ++ [some x]).length ∧
      ∀ n ≤ (seen ++ [some x]).length,
        some e.1 ∈ (seen ++ [some x]).drop ((seen ++ [some x]).length - n) ↔
          (seen ++ [some x]).length ≤ e.2 + n := by
  intro e he
  rw [List.length_append, List.length_singleton]
  rcases List.mem_append.mp he with he | he
  · obtain ⟨he, hne⟩ := List.mem_filter.mp he
    have hx : e.1 ≠ x := by simpa using hne
    obtain ⟨hlt, hlast⟩ := h.last e he
    refine ⟨by omega, ?_⟩
    intro n hn
    cases n with
    | zero =>
      rw [Nat.sub_zero, List.drop_eq_nil_of_le (by simp)]
      simp
      omega
    | succ n =>
      have hdrop : seen.length + 1 - (n + 1) = seen.length - n := by omega
      have hother : some e.1 ≠ some x := fun h => hx (Option.some.inj h)
      rw [hdrop, List.drop_append_of_le_length (by omega), List.mem_append, List.mem_singleton,
        or_iff_left hother, hlast n (by omega)]
      omega
  · obtain rfl : e = (x, seen.length) := by simpa using he
    refine ⟨by omega, ?_⟩
    intro n hn
    cases n with
    | zero =>
      rw [Nat.sub_zero, List.drop_eq_nil_of_le (by simp)]
      simp
    | succ n =>
      have hdrop : seen.length + 1 - (n + 1) = seen.length - n := by omega
      rw [hdrop, List.drop_append_of_le_length (by omega)]
      simp

/-- The span of the terms that were seen, behind a wanted word. -/
def seenSpan (s : SupportSearch) (index : ℕ) (x : Text) : ℕ :=
  index - ((seenLatest s index x).head?.map Prod.snd).getD index + 1

/-- A stretch that ends with the wanted word has all terms just when it is as long as the span. -/
theorem Supports.covers_suffix_iff (h : Supports wanted seen s) {v : List (Option Text)}
    (hv : v <:+ seen ++ [some x]) :
    HasTerms (seenTerms s x) v ↔ seenSpan s seen.length x ≤ v.length := by
  have hlast := h.last_seenLatest (x := x)
  have hsorted := h.sorted_seenLatest (x := x)
  have hle := hv.length_le
  have hdrop : v = (seen ++ [some x]).drop ((seen ++ [some x]).length - v.length) :=
    List.suffix_iff_eq_drop.mp hv
  have hall : HasTerms (seenTerms s x) v ↔
      ∀ e ∈ seenLatest s seen.length x, (seen ++ [some x]).length ≤ e.2 + v.length := by
    constructor
    · intro hcovers e he
      have hmem := hcovers e.1 ((h.mem_seenLatest seen.length e.1).mp (List.mem_map_of_mem he))
      rw [hdrop] at hmem
      exact ((hlast e he).2 _ hle).mp hmem
    · intro hfar t ht
      obtain ⟨e, he, rfl⟩ := List.mem_map.mp ((h.mem_seenLatest seen.length t).mpr ht)
      rw [hdrop]
      exact ((hlast e he).2 _ hle).mpr (hfar e he)
  rw [hall, seenSpan]
  have hne : seenLatest s seen.length x ≠ [] := by simp [seenLatest]
  generalize seenLatest s seen.length x = latest at hlast hsorted hne ⊢
  obtain ⟨first, rest, rfl⟩ := List.exists_cons_of_ne_nil hne
  have hfirst := (hlast first List.mem_cons_self).1
  rw [List.length_append, List.length_singleton] at hfirst hle ⊢
  rw [List.head?_cons, Option.map_some, Option.getD_some]
  constructor
  · intro hfar
    have := hfar first List.mem_cons_self
    omega
  · intro hspan e he
    rcases List.mem_cons.mp he with rfl | he
    · omega
    · have hbefore := List.rel_of_pairwise_cons hsorted (List.mem_map_of_mem he)
      omega

theorem Supports.seenSpan_le (h : Supports wanted seen s) :
    seenSpan s seen.length x ≤ (seen ++ [some x]).length := by
  refine (h.covers_suffix_iff (List.suffix_refl _)).mp ?_
  intro t ht
  rcases (mem_seenTerms t).mp ht with ht | rfl
  · exact List.mem_append_left _ ((h.observed t).mp ht).2
  · simp

/-- The span is the shortest stretch among those that end with the wanted word. -/
theorem Supports.seenSpan_suffix (h : Supports wanted seen s) :
    ∃ v, v <:+ seen ++ [some x] ∧ v.length = seenSpan s seen.length x ∧
      HasTerms (seenTerms s x) v := by
  have hle := h.seenSpan_le (x := x)
  refine ⟨(seen ++ [some x]).drop ((seen ++ [some x]).length - seenSpan s seen.length x),
    List.drop_suffix _ _, ?_, ?_⟩
  · rw [List.length_drop]
    omega
  · rw [h.covers_suffix_iff (List.drop_suffix _ _), List.length_drop]
    omega

theorem shortestCover_congr {terms terms' : List Text} (hterms : ∀ t, t ∈ terms ↔ t ∈ terms')
    {words : List (Option Text)} {n : ℕ} :
    ShortestCover terms words n ↔ ShortestCover terms' words n := by
  have hcovers : ∀ w, HasTerms terms w ↔ HasTerms terms' w := fun w =>
    ⟨fun hw t ht => hw t ((hterms t).mpr ht), fun hw t ht => hw t ((hterms t).mp ht)⟩
  unfold ShortestCover
  simp only [hcovers]

/-- A term that was not seen before: only stretches that end with it have all terms. -/
theorem Supports.shortest_new (h : Supports wanted seen s) (hwanted : x ∈ wanted)
    (hnew : x ∉ s.observed) :
    ShortestCover (seenTerms s x) (seen ++ [some x]) (seenSpan s seen.length x) := by
  obtain ⟨v, hv, hlen, hcovers⟩ := h.seenSpan_suffix (x := x)
  refine ⟨⟨v, hv.isInfix, hlen, hcovers⟩, ?_⟩
  rintro m ⟨w, hw, rfl, hwcovers⟩
  rcases List.infix_concat_iff.mp hw with hs | hi
  · exact (h.covers_suffix_iff hs).mp hwcovers
  · have hx := hwcovers x ((mem_seenTerms x).mpr (Or.inr rfl))
    exact absurd ((h.observed x).mpr ⟨hwanted, hi.subset hx⟩) hnew

/-- A term that was seen before. -/
theorem Supports.shortest_old (h : Supports wanted seen s) (hold : x ∈ s.observed) {n : ℕ}
    (hn : ShortestCover s.observed seen n) :
    ShortestCover (seenTerms s x) (seen ++ [some x]) (min n (seenSpan s seen.length x)) := by
  have hterms : ∀ t, t ∈ seenTerms s x ↔ t ∈ s.observed := by
    intro t
    rw [mem_seenTerms]
    exact or_iff_left_of_imp fun ht => ht ▸ hold
  rw [shortestCover_congr hterms]
  obtain ⟨v, hv, hlen, hcovers⟩ := h.seenSpan_suffix (x := x)
  obtain ⟨⟨w, hw, hwlen, hwcovers⟩, hleast⟩ := hn
  constructor
  · rcases Nat.le_total n (seenSpan s seen.length x) with hle | hle
    · rw [Nat.min_eq_left hle]
      exact ⟨w, hw.trans (List.prefix_append _ _).isInfix, hwlen, hwcovers⟩
    · rw [Nat.min_eq_right hle]
      exact ⟨v, hv.isInfix, hlen, fun t ht => hcovers t ((hterms t).mpr ht)⟩
  · rintro m ⟨y, hy, rfl, hycovers⟩
    rcases List.infix_concat_iff.mp hy with hs | hi
    · have hspan := (h.covers_suffix_iff hs).mp fun t ht => hycovers t ((hterms t).mp ht)
      omega
    · have hle := hleast ⟨y, hi, rfl, hycovers⟩
      omega

/-- A wanted word. -/
theorem Supports.see (h : Supports wanted seen s) (hwanted : x ∈ wanted) :
    Supports wanted (seen ++ [some x]) (s.see true seen.length x) := by
  have hsee : s.see true seen.length x = ⟨seenTerms s x, seenLatest s seen.length x,
      if x ∉ s.latest.map Prod.fst then some (seenSpan s seen.length x) else
        some (s.minimumSpan.elim (seenSpan s seen.length x) fun least =>
          min least (seenSpan s seen.length x))⟩ := rfl
  rw [hsee]
  have hne : seenTerms s x ≠ [] := List.ne_nil_of_mem ((mem_seenTerms x).mpr (Or.inr rfl))
  refine ⟨?_, h.mem_seenLatest _, h.sorted_seenLatest, h.last_seenLatest, ?_, ?_⟩
  · intro t
    show t ∈ seenTerms s x ↔ _
    rw [mem_seenTerms, h.observed t, List.mem_append, List.mem_singleton, Option.some.injEq]
    constructor
    · rintro (⟨ht, hmem⟩ | rfl)
      · exact ⟨ht, Or.inl hmem⟩
      · exact ⟨hwanted, Or.inr rfl⟩
    · rintro ⟨ht, hmem | rfl⟩
      · exact Or.inl ⟨ht, hmem⟩
      · exact Or.inr rfl
  · intro hnone
    split_ifs at hnone
  · intro n hn
    refine ⟨hne, ?_⟩
    by_cases hold : x ∈ s.observed
    · rw [if_neg (not_not.mpr ((h.latest x).mpr hold))] at hn
      cases hmin : s.minimumSpan with
      | none =>
        rw [h.unspanned hmin] at hold
        exact absurd hold List.not_mem_nil
      | some least =>
        rw [hmin, Option.elim_some, Option.some.injEq] at hn
        rw [← hn]
        exact h.shortest_old hold (h.spanned least hmin).2
    · rw [if_pos (fun hmem => hold ((h.latest x).mp hmem)), Option.some.injEq] at hn
      rw [← hn]
      exact h.shortest_new hwanted hold

end See

/-- The terms behind any tokens of a text. -/
theorem supports_foldl {prepared : PreparedLiteralQuery} {windowChars : ℕ} {selectWindow : Bool}
    (u : CharacterData) (m : ℕ) (words : List (Run Char)) :
    Supports prepared.terms (words.map fun r => short m (u.foldRetrievalTerm r.elems))
      ((words.mapIdx (tokenOf u m)).foldl (Pass.step prepared true windowChars selectWindow)
        {}).support := by
  induction words using List.reverseRecOn with
  | nil => exact supports_nil _
  | append_singleton words r ih =>
    rw [List.mapIdx_append, List.foldl_append, List.map_append]
    show Supports _ _ (Pass.step prepared true windowChars selectWindow _
      (tokenOf u m (0 + words.length) r)).support
    rw [step_support, Nat.zero_add]
    have hfolded : (tokenOf u m words.length r).folded = short m (u.foldRetrievalTerm r.elems) := rfl
    rw [wantedTerm, hfolded]
    cases hshort : short m (u.foldRetrievalTerm r.elems) with
    | none =>
      rw [List.map_singleton, hshort]
      exact ih.skip (by simp)
    | some x =>
      rw [List.map_singleton, hshort]
      by_cases hx : x ∈ prepared.terms
      · have hsee := ih.see hx
        rw [List.length_map] at hsee
        simpa [Option.filter, hx, tokenOf] using hsee
      · have hskip := ih.skip (x := some x) fun t ht heq => hx (Option.some.inj heq ▸ ht)
        simpa [Option.filter, hx] using hskip

/-- Words that are too long do not change the shortest stretch. -/
theorem shortestCover_map_iff {m n : ℕ} {terms words : List Text}
    (hterms : ∀ t ∈ terms, t.length ≤ m) :
    ShortestCover terms (words.map (short m)) n ↔
      IsLeast {n | ∃ w, w <:+: words ∧ w.length = n ∧ ∀ t ∈ terms, t ∈ w} n := by
  have hset : {n | ∃ w, w <:+: words.map (short m) ∧ w.length = n ∧ HasTerms terms w} =
      {n | ∃ w, w <:+: words ∧ w.length = n ∧ ∀ t ∈ terms, t ∈ w} := by
    have hmem : ∀ (w : List Text), ∀ t ∈ terms, some t ∈ w.map (short m) ↔ t ∈ w := by
      intro w t ht
      rw [List.mem_map]
      constructor
      · rintro ⟨word, hword, hshort⟩
        rwa [← (short_eq_some_iff (hterms t ht)).mp hshort]
      · intro hw
        exact ⟨t, hw, (short_eq_some_iff (hterms t ht)).mpr rfl⟩
    ext k
    constructor
    · rintro ⟨v, hv, hlen, hcovers⟩
      obtain ⟨w, hw, rfl⟩ := List.infix_map_iff.mp hv
      exact ⟨w, hw, by simpa using hlen, fun t ht => (hmem w t ht).mp (hcovers t ht)⟩
    · rintro ⟨w, hw, hlen, hcovers⟩
      exact ⟨w.map (short m), List.infix_map_iff.mpr ⟨w, hw, rfl⟩, by simpa using hlen,
        fun t ht => (hmem w t ht).mpr (hcovers t ht)⟩
  rw [ShortestCover, hset]

/-- Some of the words that carry no content. -/
def sampleLists : WordLists := ⟨[lit "what", lit "the"], [lit "what"], [lit "is"]⟩

/-- The third `a` of the text falls back to a shorter beginning of the phrase. -/
theorem phrase_match_iff_fallback :
    (prepareLiteralQuery CharacterData.sample sampleLists (lit "A a B")).phraseFailure = [0, 1, 0] ∧
      (analyzeLiteralText CharacterData.sample
        (prepareLiteralQuery CharacterData.sample sampleLists (lit "A a B")) none true
        (lit "a a a b")).phraseMatch = true := by
  refine ⟨by decide +kernel, (phrase_match_iff _ _ _ _ _).mpr ?_⟩
  have hphrase : (prepareLiteralQuery CharacterData.sample sampleLists (lit "A a B")).phraseTerms =
      [lit "a", lit "a", lit "b"] := by decide +kernel
  have hwords : foldedWords CharacterData.sample (lit "a a a b") =
      [lit "a", lit "a", lit "a", lit "b"] := by decide +kernel
  rw [hphrase, hwords]
  exact ⟨List.cons_ne_nil _ _, [lit "a"], [], rfl⟩

/-- For every query and text: an analysis with support observes the terms of the query that are
words of the text, no others, and finds the length of the shortest stretch of consecutive words
that has all of the observed terms. -/
theorem support_exact (u : CharacterData) (lists : WordLists) (query text : Text)
    (snippetChars : Option ℕ) :
    let prepared := prepareLiteralQuery u lists query
    let analysis := analyzeLiteralText u prepared snippetChars true text
    (∀ t, t ∈ analysis.observed ↔ t ∈ prepared.terms ∧ t ∈ foldedWords u text) ∧
    (analysis.minimumSpanTerms = none → analysis.observed = []) ∧
    ∀ n, analysis.minimumSpanTerms = some n → analysis.observed ≠ [] ∧
      IsLeast {n | ∃ w, w <:+: foldedWords u text ∧ w.length = n ∧
        ∀ t ∈ analysis.observed, t ∈ w} n := by
  intro prepared analysis
  have hbound : ∀ t ∈ prepared.terms, t.length ≤ prepared.maxFoldedTermChars := fun t ht =>
    prepareLiteralQuery_bound u lists query t (List.mem_append_left _ ht)
  have hsupports : Supports prepared.terms
      ((foldedWords u text).map (short prepared.maxFoldedTermChars))
      (literalPass u prepared snippetChars true text).support := by
    unfold literalPass
    dsimp only
    split_ifs with hsought
    · rw [literal_tokens u prepared.maxFoldedTermChars text, foldedWords, List.map_map]
      exact supports_foldl u _ _
    · rw [not_or, not_not] at hsought
      exact ⟨by simp [hsought.1], by simp, List.Pairwise.nil, by simp, fun _ => rfl, by simp⟩
  have hobserved : ∀ t, t ∈ analysis.observed ↔ t ∈ prepared.terms ∧ t ∈ foldedWords u text := by
    intro t
    show t ∈ (literalPass u prepared snippetChars true text).support.observed ↔ _
    rw [hsupports.observed t]
    refine and_congr_right fun ht => ?_
    rw [List.mem_map]
    constructor
    · rintro ⟨word, hword, hshort⟩
      rwa [← (short_eq_some_iff (hbound t ht)).mp hshort]
    · intro hmem
      exact ⟨t, hmem, (short_eq_some_iff (hbound t ht)).mpr rfl⟩
  refine ⟨hobserved, hsupports.unspanned, ?_⟩
  intro n hn
  obtain ⟨hne, hcover⟩ := hsupports.spanned n hn
  exact ⟨hne, (shortestCover_map_iff fun t ht => hbound t ((hobserved t).mp ht).1).mp hcover⟩

/-- A question with two terms of content. -/
def sampleQuery : PreparedLiteralQuery :=
  prepareLiteralQuery CharacterData.sample sampleLists (lit "What is the café room")

/-- Both terms are words of the text, at last one directly behind the other. -/
theorem support_exact_twoTerms :
    let analysis := analyzeLiteralText CharacterData.sample sampleQuery none true
      (lit "room one cafe two cafe room")
    lit "cafe" ∈ analysis.observed ∧ lit "room" ∈ analysis.observed ∧
      analysis.minimumSpanTerms = some 2 ∧
      IsLeast {n | ∃ w, w <:+: foldedWords CharacterData.sample (lit "room one cafe two cafe room") ∧
        w.length = n ∧ ∀ t ∈ analysis.observed, t ∈ w} 2 := by
  intro analysis
  obtain ⟨hobserved, -, hspan⟩ := support_exact CharacterData.sample sampleLists
    (lit "What is the café room") (lit "room one cafe two cafe room") none
  have htwo : analysis.minimumSpanTerms = some 2 := by decide +kernel
  exact ⟨(hobserved _).mpr (by decide +kernel), (hobserved _).mpr (by decide +kernel), htwo,
    (hspan 2 htwo).2⟩

end Retrieval
end Neocortex
