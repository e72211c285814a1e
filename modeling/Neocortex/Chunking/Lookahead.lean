import Neocortex.Chunking.Coverage

/-!
# Counting windows ahead

`iter_text_chunks` asks the tokenizer for the counts of several windows at once and keeps those it
has not reached.  With a tokenizer that counts each text by itself this changes nothing: a kept
count is the count of its window, whatever the loop has accepted or shrunk since, and the window
that is asked for is always among those counted.

* `measureSingly`, `iterTextChunksSingly`: the same algorithm, one window at a time.
* `Measure.Simulates`, `chunkWindows_eq`: two steps that agree yield the same chunks.
* `lookahead_changes_nothing`: the source's step agrees with the other.
-/

namespace Neocortex
namespace Chunking

open Python Checks

/-! ## One window at a time -/

/-- The step that counts the window it is asked for and keeps nothing. -/
def measureSingly (source : Text) (config : TextChunkingConfig) (counter : TextTokenCounter)
    (tokenLimit : ℕ) : Measure Unit := fun _ cursor stop => do
  let (fitted, normalized) ← fitExactTokenBudget source cursor config counter tokenLimit
    (stop - cursor + 1) stop none
  pure (fitted, normalized, ())

/-- `iter_text_chunks` with an exact token contract, without looking ahead. -/
def iterTextChunksSingly (D : Digests) (itemId : Text) (sections : List TextSection)
    (config : TextChunkingConfig) (counter : TextTokenCounter) (tokenLimit : ℕ) :
    Generator ChunkError TextChunk Unit := do
  .lift (raiseIf (strip itemId = []) (.value "item_id cannot be blank"))
  chunkSections D itemId config
    (fun section_ => measureSingly section_.text config counter tokenLimit) () sections 0

/-! ## Steps that agree -/

/-- On the windows of the text the first step does what the second does; `I` is what it keeps. -/
def Measure.Simulates {σ τ : Type} (source : Text) (config : TextChunkingConfig) (I : σ → Prop)
    (m₁ : Measure σ) (m₂ : Measure τ) : Prop :=
  ∀ (a : σ) (b : τ) (cursor : ℕ), I a → Visible source cursor →
    (∃ e, m₁ a cursor (windowEnd source cursor config) = .error e ∧
      m₂ b cursor (windowEnd source cursor config) = .error e) ∨
    ∃ stop t a' b', m₁ a cursor (windowEnd source cursor config) = .ok (stop, t, a') ∧
      m₂ b cursor (windowEnd source cursor config) = .ok (stop, t, b') ∧ I a'

section Agree

variable {σ τ : Type} {D : Digests} {itemId : Text} {config : TextChunkingConfig}

theorem chunkWindows_eq {s : TextSection} {I : σ → Prop} {m₁ : Measure σ} {m₂ : Measure τ}
    (h : Measure.Simulates s.text config I m₁ m₂) (fuel : ℕ) :
    ∀ {cursor ordinal : ℕ} {a : σ} (b : τ), I a →
      chunkWindows D itemId s config m₁ fuel cursor a ordinal =
        chunkWindows D itemId s config m₂ fuel cursor b ordinal := by
  induction fuel with
  | zero =>
    intro cursor ordinal a b _
    rfl
  | succ fuel ih =>
    intro cursor ordinal a b ha
    rw [chunkWindows, chunkWindows]
    dsimp only
    split_ifs with hstart
    · have hvisible := visible_skipSpaces (Nat.le_refl _) hstart
      obtain ⟨e, h₁, h₂⟩ | ⟨stop, t, a', b', h₁, h₂, ha'⟩ := h a b _ ha hvisible
      · rw [h₁, h₂, Generator.lift_error_bind, Generator.lift_error_bind]
      · rw [h₁, h₂, Generator.lift_ok_bind, Generator.lift_ok_bind]
        dsimp only
        simp only [ih b' ha']
    · rfl

theorem chunkSections_eq {I : TextSection → σ → Prop} {m₁ : TextSection → Measure σ}
    {m₂ : TextSection → Measure τ} {a : σ} (b : τ)
    (h : ∀ s, Measure.Simulates s.text config (I s) (m₁ s) (m₂ s)) (ha : ∀ s, I s a)
    (sections : List TextSection) (ordinal : ℕ) :
    chunkSections D itemId config m₁ a sections ordinal =
      chunkSections D itemId config m₂ b sections ordinal := by
  induction sections generalizing ordinal with
  | nil => rfl
  | cons s sections ih =>
    rw [chunkSections, chunkSections, chunkWindows_eq (h s) _ b (ha s)]
    simp only [ih]

end Agree

/-! ## The counts that are kept -/

section Counts

variable {count : Text → ℕ} {limit : ℕ} {counter : TextTokenCounter} {source : Text}
  {config : TextChunkingConfig}

/-- A tokenizer that counts passes every check. -/
theorem exactTokenCounts_of_perText (hpure : PerText (fun t => .int (count t)) limit counter)
    (hlimit : 1 ≤ limit) (texts : List Text) :
    exactTokenCounts texts counter limit = .ok (texts.map count) := by
  simp only [exactTokenCounts, hpure texts, bind_eq_ok, raiseIf_eq_ok, pure_eq_ok]
  refine ⟨(), ?_, (), by simp, texts.map count, ?_, (), by simp, rfl⟩
  · simp only [isTokenLimit, decide_eq_false_iff_not, not_not]
    omega
  · rw [List.mapM_map]
    refine mapM_eq_ok fun t _ => ?_
    simp [tokenCount]

/-- A window whose count is known is fitted as if it were counted again. -/
theorem fitExactTokenBudget_known (hpure : PerText (fun t => .int (count t)) limit counter)
    (hlimit : 1 ≤ limit) {start stop n fuel : ℕ}
    (hn : Answer.int (count (normalize (slice source start stop))) = .int n) :
    fitExactTokenBudget source start config counter limit fuel stop (some n) =
      fitExactTokenBudget source start config counter limit fuel stop none := by
  have hcount : exactTokenCount (normalize (slice source start stop)) counter limit = .ok n := by
    rw [exactTokenCount, exactTokenCounts_of_perText hpure hlimit, ok_bind]
    simpa using hn
  cases fuel with
  | zero => rfl
  | succ fuel =>
    unfold fitExactTokenBudget
    dsimp only
    rw [knownOrCounted, knownOrCounted, hcount]

theorem refreshedCounts_of_perText (hpure : PerText (fun t => .int (count t)) limit counter)
    (hlimit : 1 ≤ limit) (cache : Cache) (cursor stop : ℕ) :
    ∃ counts, refreshedCounts source config counter limit cache cursor stop = .ok counts := by
  rw [refreshedCounts]
  split
  · exact ⟨_, rfl⟩
  · rw [countWindowLookahead, exactTokenCounts_of_perText hpure hlimit, ok_bind]
    exact ⟨_, rfl⟩

/-- Looking ahead gives the window that counting it gives. -/
theorem measureWindow_simulates (hpure : PerText (fun t => .int (count t)) limit counter)
    (hlimit : 1 ≤ limit) :
    Measure.Simulates source config
      (fun cache => CountsExact (fun t => .int (count t)) source cache.exactCounts)
      (measureWindow source config (some (counter, limit)))
      (measureSingly source config counter limit) := by
  intro cache _ cursor hI hvisible
  obtain ⟨counts, hcounts⟩ := @refreshedCounts_of_perText count limit counter source config hpure
    hlimit cache cursor (windowEnd source cursor config)
  obtain ⟨n, hn⟩ := lookup_refreshedCounts hvisible hcounts
  have hexact := countsExact_refreshed hpure hI hcounts
  have hpop : popCount counts cursor (windowEnd source cursor config) =
      .ok (n, counts.filter fun entry => entry.1 ≠ (cursor, windowEnd source cursor config)) := by
    rw [popCount, hn]
  obtain ⟨-, hexact'⟩ := hexact.popCount hpop
  rw [measureWindow, measureSingly]
  dsimp only
  rw [hcounts, ok_bind, hpop, ok_bind]
  dsimp only
  rw [fitExactTokenBudget_known hpure hlimit (hexact.lookup hn)]
  cases hfit : fitExactTokenBudget source cursor config counter limit
    (windowEnd source cursor config - cursor + 1) (windowEnd source cursor config) none with
  | error e => exact .inl ⟨e, rfl, rfl⟩
  | ok r =>
    obtain ⟨fitted, normalized⟩ := r
    rw [ok_bind, ok_bind]
    dsimp only
    refine .inr ?_
    by_cases hsame : fitted ≠ windowEnd source cursor config
    · rw [if_pos hsame]
      exact ⟨fitted, normalized, _, (), rfl, rfl, countsExact_nil _ source⟩
    · rw [if_neg hsame]
      exact ⟨fitted, normalized, _, (), rfl, rfl, hexact'⟩

end Counts

/-! ## The result -/

/-- With an exact token contract and a tokenizer that counts each text by itself, counting windows
ahead yields the chunks, and ends as, counting them one at a time; no count is missed. -/
theorem lookahead_changes_nothing (D : Digests) (itemId : Text) (sections : List TextSection)
    (config : TextChunkingConfig) (counter : TextTokenCounter) (count : Text → ℕ) (limit : ℕ)
    (hcontract : config.modelTokenLimit = some limit)
    (hpure : PerText (fun t => .int (count t)) limit counter) :
    iterTextChunks D itemId sections (some config) (some counter) =
        iterTextChunksSingly D itemId sections config counter limit ∧
      ∀ cursor stop, (iterTextChunks D itemId sections (some config) (some counter)).result ≠
        .error (.key cursor stop) := by
  have hlimit : 1 ≤ limit := (config.modelTokenLimit_range limit hcontract).1
  rw [iterTextChunks, iterTextChunksSingly]
  by_cases hblank : strip itemId = []
  · rw [raiseIf, if_pos hblank, Generator.lift_error_bind, Generator.lift_error_bind]
    exact ⟨rfl, by simp⟩
  have hsame : (some config).getD TextChunkingConfig.default = config := rfl
  rw [raiseIf, if_neg hblank, Generator.lift_ok_bind, Generator.lift_ok_bind, hsame]
  dsimp only
  rw [hcontract, raiseIf, if_neg (by simp), Generator.lift_ok_bind]
  dsimp only
  refine ⟨chunkSections_eq () (fun s => measureWindow_simulates hpure hlimit)
    (fun s => countsExact_nil _ s.text) sections 0, ?_⟩
  intro cursor stop hkey
  have hends := (@chunkSections_spec Cache D itemId config _ _ _ ⟨[], 32⟩
    (fun s => @measureWindow_fits _ limit counter s.text config hpure)
    (fun s => countsExact_nil _ s.text) sections 0).1
  cases hends _ hkey

theorem lookahead_changes_nothing_greeting :
    iterTextChunks greetingDigests (lit "item") [greeting] (some wordContract)
        (some wordCounter) =
      iterTextChunksSingly greetingDigests (lit "item") [greeting] wordContract wordCounter 8 :=
  (lookahead_changes_nothing greetingDigests (lit "item") [greeting] wordContract wordCounter
    (fun t => (words t).length) 8 rfl fun _ => rfl).1

end Chunking
end Neocortex
