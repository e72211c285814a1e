import Neocortex.Python.Text

/-!
# Slices, words and searches of Python text

What a program that cuts a text into windows uses of `str` and `re`: slices, `str.split`, the
matches of `\S+` in a slice, `str.rfind`, and the loop that skips whitespace.

* `slice`: `text[start:stop]` for offsets that are not negative.
* `words`, `normalize`: `text.split()` and `" ".join(text.split())`.
* `termStarts`: the offsets at which the matches of `\S+` in a slice begin; there are as many as
  words (`length_termStarts`), and a shorter slice has those below its end
  (`termStarts_of_le`).
* `rfind`: the last occurrence, with `rfind_eq_some` and `le_rfind`.
* `skipSpaces`: the first offset that is not whitespace.
-/

namespace Neocortex
namespace Python

/-! ## Slices -/

/-- `text[start:stop]`. -/
def slice (text : Text) (start stop : ℕ) : Text := (text.take stop).drop start

@[simp] theorem length_slice (text : Text) (start stop : ℕ) :
    (slice text start stop).length = min stop text.length - start := by
  simp [slice]

theorem getElem?_slice (text : Text) (start stop i : ℕ) :
    (slice text start stop)[i]? = if start + i < stop then text[start + i]? else none := by
  rw [slice, List.getElem?_drop, List.getElem?_take]

/-- A slice of a slice. -/
theorem slice_slice (text : Text) (start stop : ℕ) {i j : ℕ} (h : start + j ≤ stop) :
    slice (slice text start stop) i j = slice text (start + i) (start + j) := by
  apply List.ext_getElem?
  intro k
  rw [getElem?_slice, getElem?_slice, getElem?_slice]
  by_cases hk : i + k < j
  · rw [if_pos hk, if_pos (by omega), if_pos (by omega), Nat.add_assoc]
  · rw [if_neg hk, if_neg (by omega)]

theorem slice_all (text : Text) : slice text 0 text.length = text := by
  simp [slice]

/-! ## Words -/

/-- `text.split()`. -/
def words (text : Text) : List Text := (text.splitOnP isSpace).filter fun w => !w.isEmpty

/-- `" ".join(text.split())`. -/
def normalize (text : Text) : Text := List.intercalate [' '] (words text)

/-- The offsets at which the matches of `\S+` begin; `inside` says that the character before the
text belongs to a match. -/
def startsFrom (inside : Bool) (p : ℕ) : Text → List ℕ
  | [] => []
  | c :: cs =>
    if isSpace c then startsFrom false (p + 1) cs
    else if inside then startsFrom true (p + 1) cs
    else p :: startsFrom true (p + 1) cs

/-- The offsets of `re.compile(r"\S+").finditer(text, start, stop)`. -/
def termStarts (text : Text) (start stop : ℕ) : List ℕ :=
  startsFrom false start (slice text start stop)

theorem startsFrom_ge (inside : Bool) (p : ℕ) (l : Text) : ∀ q ∈ startsFrom inside p l, p ≤ q := by
  induction l generalizing inside p with
  | nil => simp [startsFrom]
  | cons c cs ih =>
    intro q hq
    rw [startsFrom] at hq
    split_ifs at hq
    · exact Nat.le_of_succ_le (ih _ _ q hq)
    · exact Nat.le_of_succ_le (ih _ _ q hq)
    · rcases List.mem_cons.mp hq with rfl | hq
      · exact Nat.le_refl _
      · exact Nat.le_of_succ_le (ih _ _ q hq)

theorem startsFrom_sorted (inside : Bool) (p : ℕ) (l : Text) :
    (startsFrom inside p l).Pairwise (· < ·) := by
  induction l generalizing inside p with
  | nil => exact List.Pairwise.nil
  | cons c cs ih =>
    rw [startsFrom]
    split_ifs
    · exact ih _ _
    · exact ih _ _
    · exact List.pairwise_cons.mpr ⟨fun q hq => startsFrom_ge _ _ _ q hq, ih _ _⟩

/-- A shorter text has the matches that begin before its end. -/
theorem startsFrom_take (inside : Bool) (p : ℕ) (l : Text) (k : ℕ) :
    startsFrom inside p (l.take k) = (startsFrom inside p l).filter (· < p + k) := by
  induction l generalizing inside p k with
  | nil => simp [startsFrom]
  | cons c cs ih =>
    cases k with
    | zero =>
      rw [List.take_zero, startsFrom, eq_comm, List.filter_eq_nil_iff]
      intro q hq
      have := startsFrom_ge _ _ _ q hq
      simp
      omega
    | succ k =>
      have hk : p + (k + 1) = p + 1 + k := by omega
      rw [List.take_succ_cons, startsFrom, startsFrom, ih, ih, hk]
      split_ifs
      · rfl
      · rfl
      · rw [List.filter_cons_of_pos (by simp; omega)]

/-- There is a character at the offset, and it is not whitespace. -/
def Visible (text : Text) (i : ℕ) : Prop := ∃ c, text[i]? = some c ∧ isSpace c = false

theorem Visible.lt {text : Text} {i : ℕ} (h : Visible text i) : i < text.length := by
  obtain ⟨c, hc, -⟩ := h
  exact (List.getElem?_eq_some_iff.mp hc).1

@[simp] theorem visible_zero_cons (c : Char) (cs : Text) :
    Visible (c :: cs) 0 ↔ isSpace c = false := by
  simp [Visible]

@[simp] theorem visible_succ_cons (c : Char) (cs : Text) (i : ℕ) :
    Visible (c :: cs) (i + 1) ↔ Visible cs i := by
  simp [Visible]

theorem visible_slice {text : Text} {start stop i : ℕ} :
    Visible (slice text start stop) i ↔ start + i < stop ∧ Visible text (start + i) := by
  simp only [Visible, getElem?_slice]
  split_ifs with h
  · simp [h]
  · simp [h]

theorem mem_startsFrom {inside : Bool} {p : ℕ} {l : Text} {q : ℕ} :
    q ∈ startsFrom inside p l ↔
      ∃ i, q = p + i ∧ Visible l i ∧ (i = 0 → inside = false) ∧ ∀ j, i = j + 1 → ¬ Visible l j := by
  induction l generalizing inside p with
  | nil =>
    simp only [startsFrom, List.not_mem_nil, false_iff, not_exists, not_and]
    rintro i - ⟨c, hc, -⟩
    simp at hc
  | cons c cs ih =>
    have hlater : ∀ b : Bool, (b = !isSpace c) → (q ∈ startsFrom b (p + 1) cs ↔
        ∃ i, q = p + (i + 1) ∧ Visible (c :: cs) (i + 1) ∧
          ∀ j, i + 1 = j + 1 → ¬ Visible (c :: cs) j) := by
      intro b hb
      rw [ih]
      refine exists_congr fun i => ?_
      rw [visible_succ_cons]
      refine and_congr (by omega) (and_congr_right fun _ => ?_)
      constructor
      · rintro ⟨hzero, hsucc⟩ j hj
        cases j with
        | zero =>
          have := hzero (by omega)
          rw [visible_zero_cons]
          simpa [hb] using this
        | succ j =>
          rw [visible_succ_cons]
          exact hsucc j (by omega)
      · intro h
        refine ⟨?_, ?_⟩
        · rintro rfl
          have := h 0 rfl
          rw [visible_zero_cons] at this
          simpa [hb] using this
        · rintro j rfl
          have := h (j + 1) rfl
          rwa [visible_succ_cons] at this
    rw [startsFrom]
    split_ifs with hspace hinside
    · rw [hlater false (by simp [hspace])]
      constructor
      · rintro ⟨i, rfl, hvis, hprev⟩
        exact ⟨i + 1, rfl, hvis, fun h => absurd h (by omega), hprev⟩
      · rintro ⟨i, rfl, hvis, hzero, hprev⟩
        cases i with
        | zero =>
          rw [visible_zero_cons, hspace] at hvis
          cases hvis
        | succ i => exact ⟨i, rfl, hvis, hprev⟩
    · rw [hlater true (by simpa using hspace)]
      constructor
      · rintro ⟨i, rfl, hvis, hprev⟩
        exact ⟨i + 1, rfl, hvis, fun h => absurd h (by omega), hprev⟩
      · rintro ⟨i, rfl, hvis, hzero, hprev⟩
        cases i with
        | zero =>
          rw [hinside] at hzero
          cases hzero rfl
        | succ i => exact ⟨i, rfl, hvis, hprev⟩
    · rw [List.mem_cons, hlater true (by simpa using hspace)]
      constructor
      · rintro (rfl | ⟨i, rfl, hvis, hprev⟩)
        · refine ⟨0, rfl, ?_, fun _ => by simpa using hinside, fun j h => absurd h (by omega)⟩
          simpa using hspace
        · exact ⟨i + 1, rfl, hvis, fun h => absurd h (by omega), hprev⟩
      · rintro ⟨i, rfl, hvis, hzero, hprev⟩
        cases i with
        | zero => exact .inl rfl
        | succ i => exact .inr ⟨i, rfl, hvis, hprev⟩

/-- The matches of a slice, by their offsets in the text. -/
theorem mem_termStarts {text : Text} {start stop q : ℕ} :
    q ∈ termStarts text start stop ↔
      start ≤ q ∧ q < stop ∧ Visible text q ∧ (start < q → ¬ Visible text (q - 1)) := by
  rw [termStarts, mem_startsFrom]
  constructor
  · rintro ⟨i, rfl, hvis, -, hprev⟩
    obtain ⟨hlt, hvis⟩ := visible_slice.mp hvis
    refine ⟨by omega, hlt, hvis, fun hi hv => ?_⟩
    obtain ⟨j, rfl⟩ : ∃ j, i = j + 1 := ⟨i - 1, by omega⟩
    exact hprev j rfl (visible_slice.mpr ⟨by omega, hv⟩)
  · rintro ⟨hle, hlt, hvis, hprev⟩
    refine ⟨q - start, by omega, ?_, fun _ => rfl, ?_⟩
    · rw [visible_slice, show start + (q - start) = q by omega]
      exact ⟨hlt, hvis⟩
    · intro j hj hv
      obtain ⟨-, hv⟩ := visible_slice.mp hv
      have := hprev (by omega)
      rw [show q - 1 = start + j by omega] at this
      exact this hv

theorem termStarts_sorted (text : Text) (start stop : ℕ) :
    (termStarts text start stop).Pairwise (· < ·) :=
  startsFrom_sorted _ _ _

/-- A shorter slice has the matches that begin before its end. -/
theorem termStarts_of_le (text : Text) {start stop stop' : ℕ} (h : stop' ≤ stop) :
    termStarts text start stop' = (termStarts text start stop).filter (· < stop') := by
  have hslice : slice text start stop' = (slice text start stop).take (stop' - start) := by
    rw [slice, slice, ← List.drop_take, List.take_take, min_eq_left h]
  rw [termStarts, hslice, startsFrom_take, termStarts]
  refine List.filter_congr fun q hq => ?_
  have := startsFrom_ge _ _ _ q hq
  simp only [decide_eq_decide]
  omega

/-- A match for each word. -/
theorem length_startsFrom (inside : Bool) (p : ℕ) (l : Text) :
    (startsFrom inside p l).length =
      ((if inside then (l.splitOnP isSpace).tail else l.splitOnP isSpace).filter
        fun w => !w.isEmpty).length := by
  induction l generalizing inside p with
  | nil => cases inside <;> simp [startsFrom]
  | cons c cs ih =>
    obtain ⟨w, ws, hws⟩ := List.exists_cons_of_ne_nil (List.splitOnP_ne_nil isSpace cs)
    rw [startsFrom, List.splitOnP_cons_eq_if_modifyHead]
    cases hspace : isSpace c with
    | true =>
      rw [if_pos rfl, if_pos rfl, ih]
      cases inside <;> simp
    | false =>
      have hrest := ih true (p + 1)
      rw [hws] at hrest ⊢
      cases inside <;> simp_all

theorem length_termStarts (text : Text) (start stop : ℕ) :
    (termStarts text start stop).length = (words (slice text start stop)).length := by
  rw [termStarts, length_startsFrom]
  rfl

/-- Text with something visible is not blank after its whitespace is collapsed. -/
theorem normalize_ne_nil {text : Text} {i : ℕ} (h : Visible text i) : normalize text ≠ [] := by
  have hne : words text ≠ [] := by
    intro hnil
    have hlen := length_termStarts text 0 text.length
    rw [slice_all, hnil, List.length_nil, List.length_eq_zero_iff] at hlen
    -- the first visible character begins a match
    have hfirst : ∃ q, Visible text q := ⟨i, h⟩
    classical
    have hmem : Nat.find hfirst ∈ termStarts text 0 text.length := by
      refine mem_termStarts.mpr ⟨Nat.zero_le _, (Nat.find_spec hfirst).lt, Nat.find_spec hfirst, ?_⟩
      intro hpos
      exact Nat.find_min hfirst (by omega)
    rw [hlen] at hmem
    cases hmem
  obtain ⟨w, ws, hws⟩ := List.exists_cons_of_ne_nil hne
  have hw : w ≠ [] := by
    have hmem : w ∈ words text := hws ▸ List.mem_cons_self
    rw [words, List.mem_filter] at hmem
    simpa using hmem.2
  rw [normalize, hws]
  cases ws with
  | nil => simpa using hw
  | cons v vs => simp [List.intercalate, hw]

/-! ## Searches -/

/-- `text.rfind(pattern)`; `none` is minus one. -/
def rfind (pattern : Text) : Text → Option ℕ
  | [] => if pattern = [] then some 0 else none
  | c :: cs =>
    match rfind pattern cs with
    | some i => some (i + 1)
    | none => if pattern.isPrefixOf (c :: cs) then some 0 else none

theorem rfind_eq_some {pattern text : Text} {i : ℕ} (h : rfind pattern text = some i) :
    slice text i (i + pattern.length) = pattern ∧ i + pattern.length ≤ text.length := by
  induction text generalizing i with
  | nil =>
    rw [rfind] at h
    split_ifs at h with hp
    obtain rfl := Option.some_inj.mp h
    simp [hp, slice]
  | cons c cs ih =>
    rw [rfind] at h
    cases hrest : rfind pattern cs with
    | some j =>
      rw [hrest] at h
      obtain rfl := Option.some_inj.mp h
      obtain ⟨heq, hle⟩ := ih hrest
      refine ⟨?_, by simp; omega⟩
      rw [show j + 1 + pattern.length = j + pattern.length + 1 by omega]
      exact heq
    | none =>
      rw [hrest] at h
      dsimp only at h
      split_ifs at h with hp
      obtain rfl := Option.some_inj.mp h
      have hpre := List.isPrefixOf_iff_prefix.mp hp
      refine ⟨?_, by simpa using hpre.length_le⟩
      rw [slice, List.drop_zero, Nat.zero_add]
      exact (List.prefix_iff_eq_take.mp hpre).symm

/-- No occurrence is behind the last one. -/
theorem le_rfind {pattern text : Text} {i : ℕ}
    (heq : slice text i (i + pattern.length) = pattern) (hle : i + pattern.length ≤ text.length) :
    ∃ j, rfind pattern text = some j ∧ i ≤ j := by
  induction text generalizing i with
  | nil =>
    rw [List.length_nil] at hle
    have hp : pattern = [] := List.length_eq_zero_iff.mp (by omega)
    exact ⟨0, by rw [rfind, if_pos hp], by omega⟩
  | cons c cs ih =>
    rw [rfind]
    cases i with
    | zero =>
      cases hrest : rfind pattern cs with
      | some j => exact ⟨j + 1, rfl, Nat.zero_le _⟩
      | none =>
        refine ⟨0, ?_, Nat.le_refl _⟩
        dsimp only
        rw [if_pos]
        rw [List.isPrefixOf_iff_prefix, List.prefix_iff_eq_take]
        simpa [slice] using heq.symm
    | succ i =>
      rw [show i + 1 + pattern.length = i + pattern.length + 1 by omega] at heq hle
      obtain ⟨j, hj, hij⟩ := ih heq (by simpa using hle)
      exact ⟨j + 1, by rw [hj], by omega⟩

/-! ## Skipping whitespace -/

/-- How many whitespace characters a text begins with. -/
def leading (text : Text) : ℕ := (text.takeWhile isSpace).length

theorem leading_le (text : Text) : leading text ≤ text.length :=
  (List.takeWhile_prefix isSpace).length_le

/-- The leading characters are whitespace. -/
theorem not_visible_of_lt_leading {text : Text} {k : ℕ} (h : k < leading text) :
    ¬ Visible text k := by
  induction text generalizing k with
  | nil => exact absurd h (Nat.not_lt_zero k)
  | cons c cs ih =>
    rw [leading, List.takeWhile_cons] at h
    split_ifs at h with hspace
    · cases k with
      | zero =>
        rw [visible_zero_cons, hspace]
        exact Bool.noConfusion
      | succ k =>
        rw [visible_succ_cons]
        exact ih (Nat.lt_of_succ_lt_succ h)
    · exact absurd h (Nat.not_lt_zero k)

/-- The character behind them is not. -/
theorem visible_leading {text : Text} (h : leading text < text.length) :
    Visible text (leading text) := by
  induction text with
  | nil => exact absurd h (Nat.not_lt_zero _)
  | cons c cs ih =>
    rw [leading, List.takeWhile_cons] at h ⊢
    split_ifs at h ⊢ with hspace
    · rw [List.length_cons, visible_succ_cons]
      exact ih (Nat.lt_of_succ_lt_succ h)
    · rw [List.length_nil, visible_zero_cons]
      simpa using hspace

/-- `while i < stop and text[i].isspace(): i += 1`. -/
def skipSpaces (text : Text) (i stop : ℕ) : ℕ := i + leading (slice text i stop)

theorem le_skipSpaces (text : Text) (i stop : ℕ) : i ≤ skipSpaces text i stop :=
  Nat.le_add_right _ _

theorem skipSpaces_le {text : Text} {i stop : ℕ} (h : i ≤ stop) : skipSpaces text i stop ≤ stop := by
  have := leading_le (slice text i stop)
  rw [length_slice] at this
  rw [skipSpaces]
  omega

/-- Only whitespace is skipped. -/
theorem not_visible_of_skipped {text : Text} {i stop k : ℕ} (hik : i ≤ k)
    (hk : k < skipSpaces text i stop) : ¬ Visible text k := by
  rw [skipSpaces] at hk
  have hlt : k - i < leading (slice text i stop) := by omega
  have hle := leading_le (slice text i stop)
  rw [length_slice] at hle
  have hnot := not_visible_of_lt_leading hlt
  rw [visible_slice, show i + (k - i) = k by omega] at hnot
  exact fun hv => hnot ⟨by omega, hv⟩

/-- What the skipping stops at. -/
theorem visible_skipSpaces {text : Text} {i stop : ℕ} (hlen : stop ≤ text.length)
    (h : skipSpaces text i stop < stop) : Visible text (skipSpaces text i stop) := by
  rw [skipSpaces] at h ⊢
  have hlt : leading (slice text i stop) < (slice text i stop).length := by
    rw [length_slice]
    omega
  exact (visible_slice.mp (visible_leading hlt)).2

end Python
end Neocortex
