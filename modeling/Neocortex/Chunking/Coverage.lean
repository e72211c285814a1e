import Neocortex.Chunking.Chunks

/-!
# The chunks cover the text

Every turn of the loop over the windows of a section starts behind the turn before and ends its
chunk behind its start, so the loop ends and leaves out nothing but whitespace.

* `chunkWindows_cases`: what one turn of the loop does.
* `Measure.Fits`: what a step that measures a window has to keep; `measureWindow_fits`: the source's
  step does.
* `Section.Chunks`: what the chunks of a section are, and `chunkWindows_spec`, `chunkSections_spec`.
* `chunks_cover`: the chunks of an item cover its sections.
-/

namespace Neocortex
namespace Chunking

open Python Checks

/-! ## One turn -/

section Turn

variable {σ : Type} {D : Digests} {itemId : Text} {s : TextSection} {config : TextChunkingConfig}
  {measure : Measure σ}

/-- The fields of a chunk that is built. -/
structure BuiltFrom (s : TextSection) (ordinal cursor stop : ℕ) (normalized : Text)
    (c : TextChunk) : Prop where
  ordinal : c.ordinal = ordinal
  kind : c.sectionKind = s.sectionKind
  id : c.sectionId = s.sectionId
  provenance : c.provenance = s.provenance
  start : c.startChar = cursor
  stop : c.endChar = stop
  text : c.text = normalized

theorem checked_eq_ok {c c' : TextChunk} (h : TextChunk.checked D c = .ok c') : c' = c := by
  simp only [TextChunk.checked, requireNonBlankString, bind_eq_ok, raiseIf_eq_ok, pure_eq_ok] at h
  obtain ⟨-, -, -, -, -, -, -, -, -, -, -, -, -, -, -, -, -, -, -, -, -, -, h⟩ := h
  exact h.symm

theorem buildChunk_eq_ok {ordinal cursor stop : ℕ} {normalized : Text} {c : TextChunk}
    (h : buildChunk D itemId s config ordinal cursor stop normalized = .ok c) :
    BuiltFrom s ordinal cursor stop normalized c := by
  simp only [buildChunk, bind_eq_ok, raiseIf_eq_ok] at h
  obtain ⟨-, -, fingerprint, -, chunkId, -, h⟩ := h
  obtain rfl := checked_eq_ok h
  exact ⟨rfl, rfl, rfl, rfl, rfl, rfl, rfl⟩

/-- What one turn of the loop does, for a measure that leaves some text. -/
theorem chunkWindows_cases {fuel cursor ordinal : ℕ} {cache : σ}
    (hne : skipSpaces s.text cursor s.text.length < s.text.length → ∀ stop normalized cache',
      measure cache (skipSpaces s.text cursor s.text.length)
        (windowEnd s.text (skipSpaces s.text cursor s.text.length) config) =
          .ok (stop, normalized, cache') → normalized ≠ []) :
    let start := skipSpaces s.text cursor s.text.length
    let g := chunkWindows D itemId s config measure (fuel + 1) cursor cache ordinal
    (s.text.length ≤ start ∧ g = pure ordinal) ∨
    start < s.text.length ∧
      ((∃ e, g = ⟨[], .error e⟩ ∧
        (measure cache start (windowEnd s.text start config) = .error e ∨
          ∃ stop normalized,
            buildChunk D itemId s config ordinal start stop normalized = .error e)) ∨
      ∃ stop normalized cache' c,
        measure cache start (windowEnd s.text start config) = .ok (stop, normalized, cache') ∧
        BuiltFrom s ordinal start stop normalized c ∧
        ((s.text.length ≤ stop ∧ g = ⟨[c], .ok (ordinal + 1)⟩) ∨
          stop < s.text.length ∧ g =
            ⟨c :: (chunkWindows D itemId s config measure fuel
                (nextStart s.text start stop config) cache' (ordinal + 1)).yielded,
              (chunkWindows D itemId s config measure fuel
                (nextStart s.text start stop config) cache' (ordinal + 1)).result⟩)) := by
  intro start g
  have hg : g = chunkWindows D itemId s config measure (fuel + 1) cursor cache ordinal := rfl
  rw [chunkWindows] at hg
  dsimp only at hg
  by_cases hstart : start < s.text.length
  · rw [if_pos hstart] at hg
    refine .inr ⟨hstart, ?_⟩
    cases hmeasure : measure cache start (windowEnd s.text start config) with
    | error e =>
      rw [hmeasure, Generator.lift_error_bind] at hg
      exact .inl ⟨e, hg, .inl rfl⟩
    | ok r =>
      obtain ⟨stop, normalized, cache'⟩ := r
      rw [hmeasure, Generator.lift_ok_bind] at hg
      dsimp only at hg
      rw [if_pos (hne hstart stop normalized cache' hmeasure)] at hg
      cases hbuild : buildChunk D itemId s config ordinal start stop normalized with
      | error e =>
        rw [hbuild, Generator.lift_error_bind] at hg
        exact .inl ⟨e, hg, .inr ⟨stop, normalized, hbuild⟩⟩
      | ok c =>
        rw [hbuild, Generator.lift_ok_bind, Generator.emit_bind, Generator.pure_bind] at hg
        refine .inr ⟨stop, normalized, cache', c, rfl, buildChunk_eq_ok hbuild, ?_⟩
        by_cases hstop : s.text.length ≤ stop
        · rw [if_pos hstop] at hg
          exact .inl ⟨hstop, hg⟩
        · rw [if_neg hstop] at hg
          exact .inr ⟨by omega, hg⟩
  · rw [if_neg hstart] at hg
    exact .inl ⟨by omega, hg⟩

end Turn

/-! ## Loops that end -/

/-- The errors that no input is meant to cause: a loop that does not end, and a count that is
missing from the counts kept. -/
def ChunkError.internal : ChunkError → Bool
  | .key _ _ => true
  | .diverged => true
  | _ => false

/-- The computation runs to its end: it returns, or raises one of the declared errors. -/
def Ends {α : Type} (x : Checked α) : Prop := ∀ e, x = .error e → e.internal = false

theorem ends_ok {α : Type} (a : α) : Ends (.ok a) := by
  intro e h
  cases h

theorem ends_error {α : Type} {e : ChunkError} (h : e.internal = false) :
    Ends (.error e : Checked α) := by
  intro e' h'
  obtain rfl := Except.error.inj h'
  exact h

/-- What a computation that ends raises is raised by another one too. -/
theorem Ends.error {α β : Type} {x : Checked α} {e : ChunkError} (h : Ends x) (hx : x = .error e) :
    Ends (.error e : Checked β) :=
  ends_error (h e hx)

theorem ends_raiseIf {c : Prop} [Decidable c] {e : ChunkError} (h : e.internal = false) :
    Ends (raiseIf c e) := by
  rw [raiseIf]
  split_ifs
  · exact ends_error h
  · exact ends_ok _

theorem Ends.bind {α β : Type} {x : Checked α} {f : α → Checked β} (hx : Ends x)
    (hf : ∀ a, x = .ok a → Ends (f a)) : Ends (x >>= f) := by
  cases x with
  | error e =>
    rw [error_bind]
    exact hx.error rfl
  | ok a =>
    rw [ok_bind]
    exact hf a rfl

theorem ends_fingerprintText (D : Digests) (t : Text) : Ends (fingerprintText D t) := by
  refine (ends_raiseIf rfl).bind fun _ _ => ?_
  exact (ends_raiseIf rfl).bind fun _ _ => ends_ok _

theorem ends_canonicalJson (v : Json) : Ends (canonicalJson v) := by
  rw [canonicalJson]
  split
  · exact ends_ok _
  · exact ends_error rfl

theorem ends_requireNonBlankString (name : String) (t : Text) :
    Ends (requireNonBlankString name t) :=
  ends_raiseIf rfl

theorem ends_checked (D : Digests) (c : TextChunk) : Ends (TextChunk.checked D c) := by
  refine (ends_requireNonBlankString _ _).bind fun _ _ => ?_
  refine (ends_requireNonBlankString _ _).bind fun _ _ => ?_
  refine (ends_requireNonBlankString _ _).bind fun _ _ => ?_
  refine (ends_requireNonBlankString _ _).bind fun _ _ => ?_
  refine (ends_requireNonBlankString _ _).bind fun _ _ => ?_
  refine (ends_raiseIf rfl).bind fun _ _ => ?_
  refine (ends_raiseIf rfl).bind fun _ _ => ?_
  refine (ends_raiseIf rfl).bind fun _ _ => ?_
  refine (ends_fingerprintText D _).bind fun _ _ => ?_
  refine (ends_raiseIf rfl).bind fun _ _ => ?_
  exact (ends_canonicalJson _).bind fun _ _ => ends_ok _

theorem ends_buildChunk (D : Digests) (itemId : Text) (s : TextSection)
    (config : TextChunkingConfig) (ordinal cursor stop : ℕ) (normalized : Text) :
    Ends (buildChunk D itemId s config ordinal cursor stop normalized) := by
  refine (ends_raiseIf rfl).bind fun _ _ => ?_
  refine (ends_fingerprintText D _).bind fun _ _ => ?_
  refine Ends.bind ?_ fun _ _ => ends_checked D _
  exact (ends_canonicalJson _).bind fun _ _ => ends_ok _

/-! ## The chunks of a section -/

/-- What a step that measures windows keeps: it ends, it shrinks a window at most down to one
character, and its texts are accepted.  `I` is what it keeps of its cache. -/
structure Measure.Fits {σ : Type} (source : Text) (config : TextChunkingConfig) (I : σ → Prop)
    (accepted : Text → Prop) (measure : Measure σ) : Prop where
  ends : ∀ {cache cursor}, I cache → Visible source cursor →
    Ends (measure cache cursor (windowEnd source cursor config))
  fits : ∀ {cache cursor stop e t cache'}, I cache → cursor < stop → stop ≤ source.length →
    measure cache cursor stop = .ok (e, t, cache') →
    cursor < e ∧ e ≤ stop ∧ t = normalize (slice source cursor e) ∧ accepted t ∧ I cache'

/-- A chunk of a section. -/
structure Cut (s : TextSection) (config : TextChunkingConfig) (accepted : Text → Prop)
    (c : TextChunk) : Prop where
  kind : c.sectionKind = s.sectionKind
  id : c.sectionId = s.sectionId
  provenance : c.provenance = s.provenance
  inside : c.endChar ≤ s.text.length
  text : c.text = normalize (slice s.text c.startChar c.endChar)
  text_ne : c.text ≠ []
  chars : c.endChar - c.startChar ≤ config.maxChars
  terms : (words (slice s.text c.startChar c.endChar)).length ≤ config.maxTerms
  accepted : accepted c.text

/-- Every visible character from `start` on lies in one of the chunks. -/
def Covered (s : TextSection) (start : ℕ) (chunks : List TextChunk) : Prop :=
  ∀ i, start ≤ i → Visible s.text i → ∃ c ∈ chunks, c.startChar ≤ i ∧ i < c.endChar

/-- The chunks are numbered one after the other. -/
def Numbered (n : ℕ) (chunks : List TextChunk) : Prop :=
  chunks.map TextChunk.ordinal = List.range' n chunks.length

/-- What the loop over the windows of a section yields from `cursor` on, and how it ends. -/
structure WindowsRun (s : TextSection) (config : TextChunkingConfig) (accepted : Text → Prop)
    (cursor ordinal : ℕ) (g : Generator ChunkError TextChunk ℕ) : Prop where
  ends : Ends g.result
  numbered : Numbered ordinal g.yielded
  cut : ∀ c ∈ g.yielded, Cut s config accepted c
  covered : ∀ n, g.result = .ok n → n = ordinal + g.yielded.length ∧ Covered s cursor g.yielded

section Loop

variable {σ : Type} {D : Digests} {itemId : Text} {s : TextSection} {config : TextChunkingConfig}
  {measure : Measure σ} {I : σ → Prop} {accepted : Text → Prop}

/-- The window that a turn measures, and what it becomes. -/
theorem Measure.Fits.window (h : measure.Fits s.text config I accepted) {cache cache' : σ} {cursor e : ℕ}
    {t : Text} (hI : I cache) (hcursor : cursor < s.text.length)
    (hm : measure cache cursor (windowEnd s.text cursor config) = .ok (e, t, cache')) :
    cursor < e ∧ e ≤ windowEnd s.text cursor config ∧ e ≤ s.text.length ∧
      e ≤ cursor + config.maxChars ∧ t = normalize (slice s.text cursor e) ∧ accepted t ∧
      I cache' := by
  obtain ⟨hlt, hle⟩ := windowEnd_bounds config hcursor
  obtain ⟨-, hlen, hchars⟩ := cappedEnd_bounds config hcursor
  obtain ⟨h₁, h₂, h₃, h₄, h₅⟩ := h.fits hI hlt (by omega) hm
  exact ⟨h₁, h₂, by omega, by omega, h₃, h₄, h₅⟩

/-- A window starts at a visible character, so its text is not empty. -/
theorem Measure.Fits.text_ne (h : measure.Fits s.text config I accepted) {cache cache' : σ}
    {cursor e : ℕ} {t : Text} (hI : I cache) (hcursor : cursor < s.text.length)
    (hvisible : Visible s.text cursor)
    (hm : measure cache cursor (windowEnd s.text cursor config) = .ok (e, t, cache')) : t ≠ [] := by
  obtain ⟨hlt, -, -, -, rfl, -⟩ := h.window hI hcursor hm
  refine normalize_ne_nil (i := 0) (visible_slice.mpr ⟨by omega, ?_⟩)
  exact hvisible

theorem chunkWindows_spec (h : measure.Fits s.text config I accepted) (fuel : ℕ) :
    ∀ {cursor ordinal : ℕ} {cache : σ}, s.text.length - cursor < fuel → I cache →
      WindowsRun s config accepted cursor ordinal
        (chunkWindows D itemId s config measure fuel cursor cache ordinal) := by
  induction fuel with
  | zero =>
    intro cursor ordinal cache hfuel hI
    omega
  | succ fuel ih =>
    intro cursor ordinal cache hfuel hI
    have hskip := le_skipSpaces s.text cursor s.text.length
    have hskipped : ∀ i, cursor ≤ i → Visible s.text i →
        skipSpaces s.text cursor s.text.length ≤ i := by
      intro i hi hv
      by_contra hlt
      exact not_visible_of_skipped hi (not_le.mp hlt) hv
    obtain ⟨hend, hg⟩ | ⟨hstart, ⟨e, hg, he⟩ | ⟨stop, normalized, cache', c, hm, hc, hg⟩⟩ :=
      @chunkWindows_cases σ D itemId s config measure fuel cursor ordinal cache
        (fun hstart _ _ _ hm => h.text_ne hI hstart (visible_skipSpaces (Nat.le_refl _) hstart) hm)
    · rw [hg]
      refine ⟨ends_ok _, rfl, by simp, fun n hn => ⟨?_, fun i hi hv => ?_⟩⟩
      · simpa using hn.symm
      · have := hskipped i hi hv
        have := hv.lt
        omega
    · rw [hg]
      refine ⟨?_, rfl, by simp, by simp⟩
      rcases he with he | ⟨stop, normalized, he⟩
      · exact (h.ends hI (visible_skipSpaces (Nat.le_refl _) hstart)).error he
      · exact (ends_buildChunk D itemId s config ordinal _ stop normalized).error he
    · have hvisible := visible_skipSpaces (Nat.le_refl _) hstart
      have hne := h.text_ne hI hstart hvisible hm
      obtain ⟨hlt, hle, hlen, hchars, htext, hacc, hI'⟩ := h.window hI hstart hm
      have hcut : Cut s config accepted c := by
        refine ⟨hc.kind, hc.id, hc.provenance, ?_, ?_, ?_, ?_, ?_, ?_⟩
        · rw [hc.stop]
          exact hlen
        · rw [hc.text, hc.start, hc.stop]
          exact htext
        · rw [hc.text]
          exact hne
        · rw [hc.start, hc.stop]
          omega
        · rw [hc.start, hc.stop]
          exact terms_le hstart hle
        · rw [hc.text]
          exact hacc
      obtain ⟨hstop, hg⟩ | ⟨hstop, hg⟩ := hg
      · rw [hg]
        refine ⟨ends_ok _, by simp [Numbered, hc.ordinal], ?_, fun n hn => ⟨?_, fun i hi hv => ?_⟩⟩
        · intro d hd
          rw [List.mem_singleton.mp hd]
          exact hcut
        · simpa using hn.symm
        · have := hskipped i hi hv
          have := hv.lt
          exact ⟨c, List.mem_singleton.mpr rfl, by rw [hc.start]; omega, by rw [hc.stop]; omega⟩
      · obtain ⟨hnext, hnextle⟩ := @nextStart_bounds s.text config _ _ hlt
        have hrest := @ih (nextStart s.text (skipSpaces s.text cursor s.text.length) stop config)
          (ordinal + 1) cache' (by omega) hI'
        rw [hg]
        refine ⟨hrest.ends, ?_, ?_, fun n hn => ⟨?_, fun i hi hv => ?_⟩⟩
        · simpa [Numbered, hc.ordinal, List.range'_succ] using hrest.numbered
        · intro d hd
          rcases List.mem_cons.mp hd with rfl | hd
          · exact hcut
          · exact hrest.cut d hd
        · have := (hrest.covered n hn).1
          simp
          omega
        · have := hskipped i hi hv
          by_cases hi' : i < stop
          · exact ⟨c, List.mem_cons_self, by rw [hc.start]; omega, by rw [hc.stop]; omega⟩
          · obtain ⟨d, hd, hd'⟩ := (hrest.covered n hn).2 i (by omega) hv
            exact ⟨d, List.mem_cons_of_mem _ hd, hd'⟩

end Loop

/-! ## The chunks of an item -/

/-- The chunks of one section. -/
structure SectionChunks (config : TextChunkingConfig) (accepted : Text → Prop) (s : TextSection)
    (chunks : List TextChunk) : Prop where
  cut : ∀ c ∈ chunks, Cut s config accepted c
  covered : Covered s 0 chunks

theorem Numbered.append {n : ℕ} {l r : List TextChunk} (hl : Numbered n l)
    (hr : Numbered (n + l.length) r) : Numbered n (l ++ r) := by
  rw [Numbered, List.map_append, hl, hr, List.length_append, ← List.range'_append_1]

theorem chunkSections_spec {σ : Type} {D : Digests} {itemId : Text} {config : TextChunkingConfig}
    {measure : TextSection → Measure σ} {I : TextSection → σ → Prop} {accepted : Text → Prop}
    {cache : σ} (h : ∀ s, (measure s).Fits s.text config (I s) accepted) (hI : ∀ s, I s cache)
    (sections : List TextSection) (ordinal : ℕ) :
    let g := chunkSections D itemId config measure cache sections ordinal
    Ends g.result ∧ Numbered ordinal g.yielded ∧ (g.result = .ok () →
      ∃ groups, g.yielded = groups.flatten ∧
        List.Forall₂ (SectionChunks config accepted) sections groups) := by
  induction sections generalizing ordinal with
  | nil => exact ⟨ends_ok _, rfl, fun _ => ⟨[], rfl, .nil⟩⟩
  | cons s sections ih =>
    intro g
    have hrun := @chunkWindows_spec σ D itemId s config (measure s) (I s) accepted (h s)
      (s.text.length + 1) 0 ordinal cache (by omega) (hI s)
    have hg : g = chunkSections D itemId config measure cache (s :: sections) ordinal := rfl
    rw [chunkSections] at hg
    cases hres : (chunkWindows D itemId s config (measure s) (s.text.length + 1) 0 cache
      ordinal).result with
    | error e =>
      rw [Generator.bind_of_error hres] at hg
      rw [hg]
      refine ⟨hrun.ends.error hres, hrun.numbered, fun hok => ?_⟩
      cases hok
    | ok n =>
      rw [Generator.bind_of_ok hres] at hg
      obtain ⟨hn, hcovered⟩ := hrun.covered n hres
      obtain ⟨hends, hnumbered, hgroups⟩ := ih n
      rw [hg]
      refine ⟨hends, hrun.numbered.append (hn ▸ hnumbered), fun hok => ?_⟩
      obtain ⟨groups, hyielded, hall⟩ := hgroups hok
      exact ⟨_ :: groups, by rw [List.flatten_cons, ← hyielded], .cons ⟨hrun.cut, hcovered⟩ hall⟩

/-! ## Token budgets -/

/-- The tokenizer counts each text by itself, and reports the configured limit. -/
def PerText (count : Text → Answer) (limit : ℕ) (counter : TextTokenCounter) : Prop :=
  ∀ texts, counter texts = (texts.map count, .int limit)

/-- The text has a token count, and it is within the limit. -/
def WithinBudget (count : Text → Answer) (limit : ℕ) (t : Text) : Prop :=
  ∃ n : ℕ, count t = .int n ∧ n ≤ limit

section Budget

variable {count : Text → Answer} {limit : ℕ} {counter : TextTokenCounter} {text : Text}
  {start : ℕ} {config : TextChunkingConfig}

theorem tokenCount_eq_ok {a : Answer} {n : ℕ} (h : tokenCount a = .ok n) : a = .int n := by
  cases a with
  | foreign => cases h
  | int k =>
    rw [tokenCount] at h
    split_ifs at h with hk
    obtain rfl := Except.ok.inj h
    rw [Int.toNat_of_nonneg (not_lt.mp hk)]

theorem ends_mapM {α β : Type} {f : α → Checked β} (hf : ∀ a, Ends (f a)) (l : List α) :
    Ends (l.mapM f) := by
  induction l with
  | nil => exact ends_ok _
  | cons a l ih =>
    rw [List.mapM_cons]
    exact (hf a).bind fun _ _ => ih.bind fun _ _ => ends_ok _

theorem ends_tokenCount (a : Answer) : Ends (tokenCount a) := by
  cases a with
  | foreign => exact ends_error rfl
  | int n =>
    rw [tokenCount]
    split_ifs
    · exact ends_error rfl
    · exact ends_ok _

theorem ends_exactTokenCounts (texts : List Text) (counter : TextTokenCounter) (limit : ℕ) :
    Ends (exactTokenCounts texts counter limit) := by
  refine (ends_raiseIf rfl).bind fun _ _ => ?_
  refine (ends_raiseIf rfl).bind fun _ _ => ?_
  refine (ends_mapM ends_tokenCount _).bind fun _ _ => ?_
  exact (ends_raiseIf rfl).bind fun _ _ => ends_ok _

theorem exactTokenCounts_eq_ok (hpure : PerText count limit counter) {texts : List Text}
    {ns : List ℕ} (h : exactTokenCounts texts counter limit = .ok ns) :
    ns.map (fun n : ℕ => Answer.int n) = texts.map count := by
  simp only [exactTokenCounts, hpure texts, bind_eq_ok, raiseIf_eq_ok, pure_eq_ok] at h
  obtain ⟨-, -, -, -, ns', hcounts, -, -, rfl⟩ := h
  exact map_of_mapM_eq_ok (g := fun n : ℕ => Answer.int n)
    (fun a b hab => (tokenCount_eq_ok hab).symm) hcounts

theorem exactTokenCount_eq_ok (hpure : PerText count limit counter) {t : Text} {n : ℕ}
    (h : exactTokenCount t counter limit = .ok n) : count t = .int n := by
  simp only [exactTokenCount, bind_eq_ok, pure_eq_ok] at h
  obtain ⟨ns, hns, rfl⟩ := h
  have hmap := exactTokenCounts_eq_ok hpure hns
  cases ns with
  | nil => simp at hmap
  | cons k ks =>
    rw [List.map_cons, List.map_cons] at hmap
    exact (List.cons.inj hmap).1.symm

/-- A rejected window of more than one character becomes shorter, and keeps its first one. -/
theorem shrunkEnd_bounds {stop k : ℕ} (h : 1 < stop - start) :
    start < shrunkEnd text start stop config k limit ∧
      shrunkEnd text start stop config k limit < stop := by
  rw [shrunkEnd]
  generalize hspan : min (min (stop - start - 1) (max 1 ((stop - start) *
    max 1 (limit - max 4 (limit / 20)) / max 1 k)))
      (max 1 (stop - start - max 1 ((stop - start) / 20))) = span
  have hpos : 1 ≤ span := by omega
  have hlt : span < stop - start := by omega
  split_ifs with hnatural
  · exact hnatural
  · exact ⟨by omega, by omega⟩

theorem fitExactTokenBudget_spec (config : TextChunkingConfig)
    (hpure : PerText count limit counter) (fuel : ℕ) :
    ∀ {stop : ℕ} {initial : Option ℕ}, start < stop → stop ≤ text.length → stop - start < fuel →
      (∀ n, initial = some n → count (normalize (slice text start stop)) = .int n) →
      Ends (fitExactTokenBudget text start config counter limit fuel stop initial) ∧
      ∀ e t, fitExactTokenBudget text start config counter limit fuel stop initial = .ok (e, t) →
        start < e ∧ e ≤ stop ∧ t = normalize (slice text start e) ∧ WithinBudget count limit t := by
  induction fuel with
  | zero =>
    intro stop initial _ _ hfuel
    omega
  | succ fuel ih =>
    intro stop initial hlt hstop hfuel hinitial
    have hends : Ends (knownOrCounted (normalize (slice text start stop)) counter limit initial) := by
      cases initial with
      | none => exact (ends_exactTokenCounts _ _ _).bind fun _ _ => ends_ok _
      | some n => exact ends_ok _
    unfold fitExactTokenBudget
    dsimp only
    cases hcount : knownOrCounted (normalize (slice text start stop)) counter limit initial with
    | error e =>
      rw [error_bind]
      refine ⟨hends.error hcount, fun e t h => ?_⟩
      cases h
    | ok k =>
      have hsound : count (normalize (slice text start stop)) = .int k := by
        cases initial with
        | none => exact exactTokenCount_eq_ok hpure hcount
        | some n =>
          obtain rfl := Except.ok.inj hcount
          exact hinitial n rfl
      rw [ok_bind]
      split_ifs with hle
      · refine ⟨ends_ok _, fun e t h => ?_⟩
        obtain ⟨rfl, rfl⟩ := Prod.mk.inj (pure_eq_ok.mp h)
        exact ⟨hlt, Nat.le_refl _, rfl, k, hsound, hle⟩
      · by_cases hone : stop - start ≤ 1
        · rw [raiseIf, if_pos hone, error_bind]
          refine ⟨ends_error rfl, fun e t h => ?_⟩
          cases h
        · rw [raiseIf, if_neg hone, ok_bind]
          obtain ⟨h₁, h₂⟩ := @shrunkEnd_bounds limit text start config stop k (by omega)
          obtain ⟨hends', hfit⟩ := @ih (shrunkEnd text start stop config k limit) none h₁ (by omega)
            (by omega) (fun _ hn => absurd hn (by simp))
          refine ⟨hends', fun e t h => ?_⟩
          obtain ⟨h₃, h₄, h₅⟩ := hfit e t h
          exact ⟨h₃, by omega, h₅⟩

end Budget

/-! ## The source's step -/

/-- Every count that is kept is the count of its window. -/
def CountsExact (count : Text → Answer) (source : Text) (counts : ExactCounts) : Prop :=
  ∀ entry ∈ counts, count (normalize (slice source entry.1.1 entry.1.2)) = .int entry.2

theorem countsExact_nil (count : Text → Answer) (source : Text) : CountsExact count source [] :=
  fun _ hentry => absurd hentry List.not_mem_nil

section Step

variable {count : Text → Answer} {limit : ℕ} {counter : TextTokenCounter} {source : Text}
  {config : TextChunkingConfig}

theorem CountsExact.lookup {counts : ExactCounts} (h : CountsExact count source counts)
    {cursor stop n : ℕ} (hn : counts.lookup (cursor, stop) = some n) :
    count (normalize (slice source cursor stop)) = .int n := by
  obtain ⟨l₁, l₂, rfl, -⟩ := List.lookup_eq_some_iff.mp hn
  exact h _ (List.mem_append_right _ List.mem_cons_self)

theorem countsExact_lookahead (hpure : PerText count limit counter) {cursor maxWindows : ℕ}
    {counts : ExactCounts}
    (h : countWindowLookahead source cursor config counter limit maxWindows = .ok counts) :
    CountsExact count source counts := by
  simp only [countWindowLookahead, bind_eq_ok, pure_eq_ok] at h
  obtain ⟨ns, hns, rfl⟩ := h
  have hmap := exactTokenCounts_eq_ok hpure hns
  intro entry hentry
  obtain ⟨i, hi⟩ := List.mem_iff_getElem?.mp hentry
  obtain ⟨hwindow, hcount⟩ := List.getElem?_zip_eq_some.mp hi
  have hget := congrArg (fun l => l[i]?) hmap
  simp only [List.getElem?_map, hwindow, hcount, Option.map_some, Option.some_inj] at hget
  exact hget.symm

theorem ends_refreshedCounts (cache : Cache) (cursor stop : ℕ) :
    Ends (refreshedCounts source config counter limit cache cursor stop) := by
  rw [refreshedCounts]
  split
  · exact ends_ok _
  · exact (ends_exactTokenCounts _ _ _).bind fun _ _ => ends_ok _

theorem countsExact_refreshed (hpure : PerText count limit counter) {cache : Cache}
    {cursor stop : ℕ} (hI : CountsExact count source cache.exactCounts) {counts : ExactCounts}
    (h : refreshedCounts source config counter limit cache cursor stop = .ok counts) :
    CountsExact count source counts := by
  rw [refreshedCounts] at h
  split at h
  · obtain rfl := Except.ok.inj h
    exact hI
  · exact countsExact_lookahead hpure h

/-- The first of the windows counted ahead is the one that is asked for. -/
theorem lookaheadWindows_cons {cursor : ℕ} (hvisible : Visible source cursor) (n : ℕ) :
    ∃ later, lookaheadWindows source config (n + 1) cursor =
      (cursor, windowEnd source cursor config) :: later := by
  have hskip : skipSpaces source cursor source.length = cursor := by
    refine Nat.le_antisymm ?_ (le_skipSpaces source cursor source.length)
    by_contra hlt
    exact not_visible_of_skipped (Nat.le_refl _) (not_le.mp hlt) hvisible
  rw [lookaheadWindows, hskip]
  dsimp only
  rw [if_pos hvisible.lt]
  exact ⟨_, rfl⟩

theorem length_exactTokenCounts {texts : List Text} {ns : List ℕ}
    (h : exactTokenCounts texts counter limit = .ok ns) : ns.length = texts.length := by
  simp only [exactTokenCounts, bind_eq_ok, raiseIf_eq_ok, pure_eq_ok, not_not] at h
  obtain ⟨-, -, -, hlen, ns', hcounts, -, -, rfl⟩ := h
  rw [← hlen, ← map_of_mapM_eq_ok (g := fun n : ℕ => Answer.int n)
    (fun a b hab => (tokenCount_eq_ok hab).symm) hcounts, List.length_map]

/-- The count of the window is at hand. -/
theorem lookup_refreshedCounts {cache : Cache} {cursor : ℕ} (hvisible : Visible source cursor)
    {counts : ExactCounts} (h : refreshedCounts source config counter limit cache cursor
      (windowEnd source cursor config) = .ok counts) :
    ∃ n, counts.lookup (cursor, windowEnd source cursor config) = some n := by
  rw [refreshedCounts] at h
  cases hkept : cache.exactCounts.lookup (cursor, windowEnd source cursor config) with
  | some n =>
    rw [hkept] at h
    obtain rfl := Except.ok.inj h
    exact ⟨n, hkept⟩
  | none =>
    rw [hkept] at h
    obtain ⟨m, hm⟩ : ∃ m, max 1 (min cache.lookahead (2 * 1024 * 1024 / config.maxChars)) = m + 1 :=
      ⟨max 1 (min cache.lookahead (2 * 1024 * 1024 / config.maxChars)) - 1, by omega⟩
    obtain ⟨later, hwindows⟩ := @lookaheadWindows_cons source config cursor hvisible m
    simp only [countWindowLookahead, hm, hwindows, bind_eq_ok, pure_eq_ok] at h
    obtain ⟨ns, hns, rfl⟩ := h
    have hlen := length_exactTokenCounts hns
    cases ns with
    | nil => simp at hlen
    | cons n ns =>
      refine ⟨n, ?_⟩
      rw [List.zip_cons_cons, List.lookup_cons_self]

theorem ends_popCount {counts : ExactCounts} {cursor stop n : ℕ}
    (h : counts.lookup (cursor, stop) = some n) : Ends (popCount counts cursor stop) := by
  rw [popCount, h]
  exact ends_ok _

theorem CountsExact.popCount {counts counts' : ExactCounts} {cursor stop n : ℕ}
    (h : CountsExact count source counts) (hpop : popCount counts cursor stop = .ok (n, counts')) :
    count (normalize (slice source cursor stop)) = .int n ∧ CountsExact count source counts' := by
  rw [Chunking.popCount] at hpop
  cases hn : counts.lookup (cursor, stop) with
  | none =>
    rw [hn] at hpop
    cases hpop
  | some k =>
    rw [hn] at hpop
    obtain ⟨rfl, rfl⟩ := Prod.mk.inj (Except.ok.inj hpop)
    exact ⟨h.lookup hn, fun entry hentry => h entry (List.mem_filter.mp hentry).1⟩

theorem measureWindow_fits (hpure : PerText count limit counter) :
    (measureWindow source config (some (counter, limit))).Fits source config
      (fun cache => CountsExact count source cache.exactCounts) (WithinBudget count limit) := by
  refine ⟨fun {cache cursor} hI hvisible => ?_,
    fun {cache cursor stop e t cache'} hI hlt hstop h => ?_⟩
  · obtain ⟨hlt, hle⟩ := windowEnd_bounds config hvisible.lt
    have hstop := hle.trans (cappedEnd_bounds config hvisible.lt).2.1
    refine (ends_refreshedCounts cache cursor _).bind fun counts hcounts => ?_
    obtain ⟨n, hlookup⟩ := lookup_refreshedCounts hvisible hcounts
    refine (ends_popCount hlookup).bind fun popped hpopped => ?_
    obtain ⟨n, counts'⟩ := popped
    obtain ⟨hn, -⟩ := (countsExact_refreshed hpure hI hcounts).popCount hpopped
    refine Ends.bind ?_ fun _ _ => ?_
    · refine (fitExactTokenBudget_spec config hpure _ hlt hstop (by omega) fun k hk => ?_).1
      obtain rfl := Option.some_inj.mp hk
      exact hn
    · dsimp only
      split_ifs
      · exact ends_ok _
      · exact ends_ok _
  · simp only [measureWindow, bind_eq_ok, Prod.exists] at h
    obtain ⟨counts, hcounts, n, counts', hpopped, fitted, normalized, hfit, h⟩ := h
    obtain ⟨hn, hexact⟩ := (countsExact_refreshed hpure hI hcounts).popCount hpopped
    obtain ⟨-, hspec⟩ := fitExactTokenBudget_spec config hpure (stop - cursor + 1) hlt hstop
      (by omega) (fun k hk => by obtain rfl := Option.some_inj.mp hk; exact hn)
    obtain ⟨h₁, h₂, h₃, h₄⟩ := hspec fitted normalized hfit
    split_ifs at h with hsame
    · obtain ⟨rfl, rfl, rfl⟩ : fitted = e ∧ normalized = t ∧ _ = cache' := by
        simpa [Prod.mk.injEq] using h
      exact ⟨h₁, h₂, h₃, h₄, countsExact_nil count source⟩
    · obtain ⟨rfl, rfl, rfl⟩ : fitted = e ∧ normalized = t ∧ _ = cache' := by
        simpa [Prod.mk.injEq] using h
      exact ⟨h₁, h₂, h₃, h₄, hexact⟩

theorem measureWindow_fits_plain :
    (measureWindow source config none).Fits source config (fun _ => True) (fun _ => True) := by
  refine ⟨fun _ _ => ends_ok _, fun {cache cursor stop e t cache'} _ hlt _ h => ?_⟩
  simp only [measureWindow, pure_eq_ok, Prod.mk.injEq] at h
  obtain ⟨rfl, rfl, -⟩ := h
  exact ⟨hlt, Nat.le_refl _, rfl, trivial, trivial⟩

end Step

/-! ## The result -/

/-- With a token contract, the text has a token count within its limit. -/
def Accepted (config : TextChunkingConfig) (count : Text → Answer) (t : Text) : Prop :=
  ∀ limit, config.modelTokenLimit = some limit → WithinBudget count limit t

theorem Cut.mono {s : TextSection} {config : TextChunkingConfig} {A B : Text → Prop}
    (hAB : ∀ t, A t → B t) {c : TextChunk} (h : Cut s config A c) : Cut s config B c :=
  { h with accepted := hAB _ h.accepted }

theorem SectionChunks.mono {s : TextSection} {config : TextChunkingConfig} {A B : Text → Prop}
    (hAB : ∀ t, A t → B t) {chunks : List TextChunk} (h : SectionChunks config A s chunks) :
    SectionChunks config B s chunks :=
  ⟨fun c hc => (h.cut c hc).mono hAB, h.covered⟩

/-- The iteration refuses its arguments, or goes through the sections with or without a token
contract. -/
theorem iterTextChunks_cases (D : Digests) (itemId : Text) (sections : List TextSection)
    (config : Option TextChunkingConfig) (tokenCounter : Option TextTokenCounter) :
    (∃ e, e.internal = false ∧
      iterTextChunks D itemId sections config tokenCounter = ⟨[], .error e⟩) ∨
    (tokenCounter = none ∧ (config.getD .default).modelTokenLimit = none ∧
      iterTextChunks D itemId sections config tokenCounter =
        chunkSections D itemId (config.getD .default)
          (fun s => measureWindow s.text (config.getD .default) none) ⟨[], 32⟩ sections 0) ∨
    ∃ counter limit, tokenCounter = some counter ∧
      (config.getD .default).modelTokenLimit = some limit ∧
      iterTextChunks D itemId sections config tokenCounter =
        chunkSections D itemId (config.getD .default)
          (fun s => measureWindow s.text (config.getD .default) (some (counter, limit))) ⟨[], 32⟩
          sections 0 := by
  generalize hc : config.getD .default = c
  rw [iterTextChunks, hc]
  by_cases hblank : strip itemId = []
  · rw [raiseIf, if_pos hblank, Generator.lift_error_bind]
    exact .inl ⟨_, rfl, rfl⟩
  rw [raiseIf, if_neg hblank, Generator.lift_ok_bind]
  dsimp only
  by_cases hcontract : c.modelTokenLimit.isSome ≠ tokenCounter.isSome
  · rw [raiseIf, if_pos hcontract, Generator.lift_error_bind]
    exact .inl ⟨_, rfl, rfl⟩
  rw [raiseIf, if_neg hcontract, Generator.lift_ok_bind]
  have hcontract := not_not.mp hcontract
  cases tokenCounter with
  | none =>
    have hnone : c.modelTokenLimit = none := by simpa using hcontract
    exact .inr (.inl ⟨rfl, hnone, by rw [hnone]⟩)
  | some counter =>
    obtain ⟨limit, hlimit⟩ : ∃ limit, c.modelTokenLimit = some limit :=
      Option.isSome_iff_exists.mp hcontract
    exact .inr (.inr ⟨counter, limit, rfl, hlimit, by rw [hlimit]⟩)

/-- The chunks of an item cover its sections: the iteration ends, and if it does not raise, its
chunks are numbered from zero and fall into groups, one for each section, whose chunks are bounded
and cover every visible character of the section. -/
theorem chunks_cover (D : Digests) (itemId : Text) (sections : List TextSection)
    (config : Option TextChunkingConfig) (tokenCounter : Option TextTokenCounter)
    (count : Text → Answer)
    (hcounter : ∀ counter limit, tokenCounter = some counter →
      (config.getD .default).modelTokenLimit = some limit → PerText count limit counter) :
    Ends (iterTextChunks D itemId sections config tokenCounter).result ∧
      ((iterTextChunks D itemId sections config tokenCounter).result = .ok () →
        Numbered 0 (iterTextChunks D itemId sections config tokenCounter).yielded ∧
        ∃ groups,
          (iterTextChunks D itemId sections config tokenCounter).yielded = groups.flatten ∧
          List.Forall₂ (SectionChunks (config.getD .default)
            (Accepted (config.getD .default) count)) sections groups) := by
  obtain ⟨e, he, hiter⟩ | ⟨-, hnone, hiter⟩ | ⟨counter, limit, hsome, hlimit, hiter⟩ :=
    iterTextChunks_cases D itemId sections config tokenCounter
  · rw [hiter]
    exact ⟨ends_error he, by simp⟩
  · rw [hiter]
    obtain ⟨hends, hnumbered, hgroups⟩ := @chunkSections_spec Cache D itemId (config.getD .default) _
      (fun _ _ => True) (fun _ => True) ⟨[], 32⟩
      (fun s => @measureWindow_fits_plain s.text (config.getD .default)) (fun _ => trivial) sections 0
    refine ⟨hends, fun hok => ⟨hnumbered, ?_⟩⟩
    obtain ⟨groups, hyielded, hall⟩ := hgroups hok
    refine ⟨groups, hyielded, hall.imp fun s chunks h => h.mono fun t _ limit hlimit => ?_⟩
    rw [hnone] at hlimit
    cases hlimit
  · rw [hiter]
    have hpure := hcounter counter limit hsome hlimit
    obtain ⟨hends, hnumbered, hgroups⟩ := @chunkSections_spec Cache D itemId (config.getD .default) _
      (fun s cache => CountsExact count s.text cache.exactCounts) (WithinBudget count limit) ⟨[], 32⟩
      (fun s => @measureWindow_fits count limit counter s.text (config.getD .default) hpure)
      (fun s => countsExact_nil count s.text) sections 0
    refine ⟨hends, fun hok => ⟨hnumbered, ?_⟩⟩
    obtain ⟨groups, hyielded, hall⟩ := hgroups hok
    refine ⟨groups, hyielded, hall.imp fun s chunks h => h.mono fun t ht limit' hlimit' => ?_⟩
    obtain rfl : limit = limit' := Option.some_inj.mp (hlimit.symm.trans hlimit')
    exact ht

/-- A short overlap, and a contract for a tokenizer that counts words. -/
def wordContract : TextChunkingConfig :=
  { TextChunkingConfig.default with
    overlapChars := 8
    overlapTerms := 1
    modelTokenLimit := some 8
    tokenizerSignature := some (lit "words")
    overlapChars_lt := by decide
    overlapTerms_lt := by decide
    together := rfl
    modelTokenLimit_range := by simp
    tokenizerSignature_visible := by
      intro s hs
      obtain rfl := Option.some_inj.mp hs
      decide }

/-- One token for each word. -/
def wordCount (t : Text) : Answer := .int (words t).length

def wordCounter : TextTokenCounter := fun texts => (texts.map wordCount, .int 8)

def greeting : TextSection where
  sectionKind := lit "page"
  sectionId := lit "1"
  text := lit " hello  world, it is a fine day to walk along the river"
  provenance := []
  sectionKind_visible := by decide
  sectionId_visible := by decide
  provenance_writable := by decide +kernel

/-- The digests of the three chunks of the greeting and of their identities. -/
def greetingDigests : Digests where
  hex128 b :=
    if b = encodeUtf8 (lit "hello world, it i") then lit "5172b9242aaddc9be94400334acee43a"
    else if b = encodeUtf8 (lit "is a fine day to") then lit "ac555bf766aa97b9ea570eafc3c824e6"
    else if b = encodeUtf8 (lit "to walk along the river") then
      lit "585ac73d7119cb3dc1832947243a4b4c"
    else if encodeUtf8 (lit "\"ordinal\":0") <:+: b then lit "46585e72501e3ea2f3f56295aea337b0"
    else if encodeUtf8 (lit "\"ordinal\":1") <:+: b then lit "fc20c186e2bba3ce9c21220c73ca53e1"
    else lit "63f074d1f2a60960ca1fd956b5d8a652"
  hex64 _ b :=
    if b = encodeUtf8 (lit "hello world, it i") then lit "e8d72afb74c9be30"
    else if b = encodeUtf8 (lit "is a fine day to") then lit "d34822be508db132"
    else lit "8a47b6ce1f531190"

theorem eq_ok_of_isOk {ε : Type} {x : Except ε Unit} (h : x.isOk = true) : x = .ok () := by
  cases x with
  | error e => cases h
  | ok u => rfl

theorem chunks_cover_greeting :
    (iterTextChunks greetingDigests (lit "item") [greeting] (some wordContract)
      (some wordCounter)).yielded.map (fun c => (c.startChar, c.endChar)) =
        [(1, 19), (18, 34), (32, 55)] ∧
    ∃ groups, (iterTextChunks greetingDigests (lit "item") [greeting] (some wordContract)
        (some wordCounter)).yielded = groups.flatten ∧
      List.Forall₂ (SectionChunks wordContract (Accepted wordContract wordCount)) [greeting]
        groups := by
  have hok : (iterTextChunks greetingDigests (lit "item") [greeting] (some wordContract)
      (some wordCounter)).result = .ok () := eq_ok_of_isOk (by decide +kernel)
  refine ⟨by decide +kernel, ((chunks_cover greetingDigests (lit "item") [greeting]
    (some wordContract) (some wordCounter) wordCount ?_).2 hok).2⟩
  intro counter limit hcounter hlimit texts
  obtain rfl := Option.some_inj.mp hcounter
  obtain rfl : 8 = limit := Option.some_inj.mp hlimit
  rfl

end Chunking
end Neocortex
