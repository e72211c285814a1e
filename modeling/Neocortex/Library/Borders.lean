import Mathlib.Data.List.Infix
import Mathlib.Order.Bounds.Basic

/-!
# Searching a word by its borders

The search for a word in a sequence of symbols that never looks back: after every symbol the
state is the length of the longest beginning of the word that ends the sequence read so far
(`Overlap`), and a symbol that does not go on falls back along the borders of the word.

* `descend`, `follow`: one symbol, with a table of borders;
* `follow_overlap`: a symbol keeps `Overlap`, if the table is right below the state;
* `table_failureTable`: the table of a word is what the search finds in the word itself;
* `failureTable_map`: the table depends on the equality of the symbols alone.
-/

namespace Neocortex
namespace Borders

variable {α : Type*}

/-! ## Overlaps -/

/-- The beginnings of the word that end the text, by their lengths. -/
def ends (word text : List α) : Set ℕ := {k | k ≤ word.length ∧ word.take k <:+ text}

/-- The longest beginning of the word that ends the text has length `k`. -/
def Overlap (word text : List α) (k : ℕ) : Prop := IsGreatest (ends word text) k

theorem overlap_nil (word : List α) : Overlap word [] 0 := by
  refine ⟨⟨Nat.zero_le _, by simp⟩, ?_⟩
  rintro k ⟨hk, hs⟩
  have hlen := hs.length_le
  rw [List.length_take, List.length_nil] at hlen
  omega

/-- A beginning goes on by one symbol just when the text does. -/
theorem take_succ_suffix_iff {word text : List α} {x : α} {k : ℕ} (hk : k < word.length) :
    word.take (k + 1) <:+ text ++ [x] ↔ word.take k <:+ text ∧ word[k]? = some x := by
  rw [List.take_add_one, List.getElem?_eq_getElem hk, Option.toList_some]
  constructor
  · rintro ⟨before, h⟩
    rw [← List.append_assoc] at h
    obtain ⟨h₁, h₂⟩ := List.append_inj' h rfl
    exact ⟨⟨before, h₁⟩, congrArg some (List.singleton_inj.mp h₂)⟩
  · rintro ⟨⟨before, rfl⟩, hx⟩
    rw [Option.some.injEq] at hx
    exact ⟨before, by rw [hx, List.append_assoc]⟩

/-- Two beginnings that end one text: the shorter ends the longer. -/
theorem take_suffix_take {word text : List α} {j k : ℕ} (hjk : j ≤ k) (hk : k ≤ word.length)
    (hj : word.take j <:+ text) (h : word.take k <:+ text) : word.take j <:+ word.take k := by
  apply List.suffix_of_suffix_length_le hj h
  rw [List.length_take, List.length_take]
  omega

/-- A proper beginning that ends another one ends its tail. -/
theorem suffix_tail {word : List α} {j k : ℕ} (hjk : j < k) (hk : k ≤ word.length)
    (h : word.take j <:+ word.take k) : word.take j <:+ (word.take k).tail := by
  apply List.suffix_of_suffix_length_le h (List.tail_suffix _)
  rw [List.length_take, List.length_tail, List.length_take]
  omega

/-! ## One symbol -/

/-- `while prefix and not hit(prefix): prefix = failure[prefix - 1]`, in at most `fuel` turns. -/
def descend (failure : List ℕ) (hit : ℕ → Bool) : ℕ → ℕ → ℕ
  | 0, k => k
  | fuel + 1, k =>
    if k = 0 ∨ hit k then k else descend failure hit fuel (failure.getD (k - 1) 0)

/-- The state behind one symbol; `hit k` says that the symbol stands at place `k` of the word. -/
def follow (failure : List ℕ) (hit : ℕ → Bool) (k : ℕ) : ℕ :=
  let k := descend failure hit k k
  if hit k then k + 1 else k

/-- The entries below `n` are the borders of the beginnings of the word. -/
def Table (word : List α) (failure : List ℕ) (n : ℕ) : Prop :=
  ∀ i < n, Overlap word (word.take (i + 1)).tail (failure.getD i 0)

theorem Overlap.tail_lt {word : List α} {k f : ℕ} (hk : k ≠ 0) (hkw : k ≤ word.length)
    (h : Overlap word (word.take k).tail f) : f < k := by
  have hlen := h.1.2.length_le
  have hf := h.1.1
  rw [List.length_take, List.length_tail, List.length_take] at hlen
  omega

variable [DecidableEq α]

/-- The places of a symbol in the word. -/
def places (word : List α) (x : α) (k : ℕ) : Bool := decide (word[k]? = some x)

/-- What `descend` finds: a beginning that ends the text, no shorter than any that goes on with
the symbol. -/
theorem descend_spec {word text : List α} {failure : List ℕ} {x : α} (fuel k : ℕ)
    (hfuel : k ≤ fuel) (hk : k < word.length) (hends : word.take k <:+ text)
    (htable : Table word failure k) :
    word.take (descend failure (places word x) fuel k) <:+ text ∧
      descend failure (places word x) fuel k ≤ k ∧
      (descend failure (places word x) fuel k = 0 ∨
        places word x (descend failure (places word x) fuel k) = true) ∧
      ∀ j ≤ k, word.take j <:+ text → word[j]? = some x →
        j ≤ descend failure (places word x) fuel k := by
  induction fuel generalizing k with
  | zero =>
    obtain rfl : k = 0 := by omega
    exact ⟨hends, Nat.le_refl _, Or.inl rfl, fun j hj _ _ => hj⟩
  | succ fuel ih =>
    rw [descend]
    split_ifs with hstop
    · exact ⟨hends, Nat.le_refl _, hstop, fun j hj _ _ => hj⟩
    · rw [not_or] at hstop
      have hover : Overlap word (word.take k).tail (failure.getD (k - 1) 0) := by
        have h := htable (k - 1) (by omega)
        rwa [Nat.sub_add_cancel (by omega)] at h
      have hlt := hover.tail_lt hstop.1 hk.le
      have hfall : word.take (failure.getD (k - 1) 0) <:+ text :=
        (hover.1.2.trans (List.tail_suffix _)).trans hends
      obtain ⟨h₁, h₂, h₃, h₄⟩ := ih (failure.getD (k - 1) 0) (by omega) (by omega) hfall
        fun i hi => htable i (by omega)
      refine ⟨h₁, by omega, h₃, ?_⟩
      intro j hj hjends hx
      -- the state itself does not go on, so `j` is a border of it
      have hne : j ≠ k := by
        rintro rfl
        exact hstop.2 (decide_eq_true hx)
      have hjk : j < k := by omega
      have hborder := suffix_tail hjk hk.le (take_suffix_take hjk.le hk.le hjends hends)
      exact h₄ j (hover.2 ⟨by omega, hborder⟩) hjends hx

/-- A symbol keeps the overlap. -/
theorem follow_overlap {word text : List α} {failure : List ℕ} {k : ℕ} (x : α)
    (hk : k < word.length) (h : Overlap word text k) (htable : Table word failure k) :
    Overlap word (text ++ [x]) (follow failure (places word x) k) := by
  obtain ⟨h₁, h₂, h₃, h₄⟩ := descend_spec (x := x) k k (Nat.le_refl _) hk h.1.2 htable
  -- a beginning that ends the longer text is a symbol longer than one that ends the text
  have hnext : ∀ j, j + 1 ∈ ends word (text ++ [x]) →
      j ≤ descend failure (places word x) k k ∧ word[j]? = some x := by
    rintro j ⟨hj, hs⟩
    obtain ⟨hj₁, hj₂⟩ := (take_succ_suffix_iff (by omega)).mp hs
    exact ⟨h₄ j (h.2 ⟨by omega, hj₁⟩) hj₁ hj₂, hj₂⟩
  simp only [follow]
  split_ifs with hit
  · refine ⟨⟨by omega, (take_succ_suffix_iff (by omega)).mpr ⟨h₁, of_decide_eq_true hit⟩⟩, ?_⟩
    intro j hj
    cases j with
    | zero => exact Nat.zero_le _
    | succ j => exact Nat.succ_le_succ (hnext j hj).1
  · have hzero := h₃.resolve_right hit
    rw [hzero] at hit hnext ⊢
    refine ⟨⟨Nat.zero_le _, by simp⟩, ?_⟩
    intro j hj
    cases j with
    | zero => exact Nat.le_refl _
    | succ j =>
      obtain ⟨hj₁, hj₂⟩ := hnext j hj
      obtain rfl : j = 0 := by omega
      exact absurd (decide_eq_true hj₂) hit

/-! ## The table of a word -/

/-- The table and the state when the entries up to `index` are filled in. -/
def build (word : List α) : ℕ → List ℕ × ℕ
  | 0 => (List.replicate word.length 0, 0)
  | index + 1 =>
    let filled := build word index
    let k := follow filled.1 (fun j => decide (word[j]? = word[index + 1]?)) filled.2
    (filled.1.set (index + 1) k, k)

/-- The table of a word. -/
def failureTable (word : List α) : List ℕ := (build word (word.length - 1)).1

theorem length_build (word : List α) (i : ℕ) : (build word i).1.length = word.length := by
  induction i with
  | zero => simp [build]
  | succ i ih => simp [build, ih]

/-- The search in the tail of the word fills in its table. -/
theorem build_spec (word : List α) (i : ℕ) (hi : i < word.length) :
    Table word (build word i).1 (i + 1) ∧ (build word i).1.getD i 0 = (build word i).2 := by
  induction i with
  | zero =>
    have h₀ : (build word 0).1.getD 0 0 = 0 := by
      rw [build, List.getD_eq_getElem?_getD, List.getElem?_replicate, if_pos hi, Option.getD_some]
    refine ⟨?_, by rw [h₀, build]⟩
    intro j hj
    obtain rfl : j = 0 := by omega
    have hnil : (word.take 1).tail = [] := by cases word <;> simp
    rw [h₀, Nat.zero_add, hnil]
    exact overlap_nil word
  | succ i ih =>
    obtain ⟨htable, hstate⟩ := ih (by omega)
    have hover : Overlap word (word.take (i + 1)).tail (build word i).2 := by
      rw [← hstate]
      exact htable i (by omega)
    have hlt := hover.tail_lt (by omega) (by omega)
    have hlonger : (word.take (i + 1 + 1)).tail = (word.take (i + 1)).tail ++ [word[i + 1]] := by
      have hne : word.take (i + 1) ≠ [] := by
        rw [← List.length_pos_iff, List.length_take]
        omega
      rw [List.take_succ_eq_append_getElem hi, List.tail_append_of_ne_nil hne]
    have hplaces : (fun j => decide (word[j]? = word[i + 1]?)) = places word word[i + 1] := by
      funext j
      rw [List.getElem?_eq_getElem hi, places]
    have hnext : Overlap word (word.take (i + 1 + 1)).tail (build word (i + 1)).2 := by
      rw [hlonger, build, hplaces]
      exact follow_overlap _ (by omega) hover fun j hj => htable j (by omega)
    have hlast : (build word (i + 1)).1.getD (i + 1) 0 = (build word (i + 1)).2 := by
      rw [build, List.getD_eq_getElem?_getD, List.getElem?_set_self (by rw [length_build]; omega),
        Option.getD_some]
    refine ⟨?_, hlast⟩
    intro j hj
    rcases Nat.lt_succ_iff_lt_or_eq.mp hj with hj | rfl
    · have hsame : (build word (i + 1)).1.getD j 0 = (build word i).1.getD j 0 := by
        rw [build, List.getD_eq_getElem?_getD, List.getElem?_set_ne (by omega),
          List.getD_eq_getElem?_getD]
      rw [hsame]
      exact htable j hj
    · rw [hlast]
      exact hnext

theorem table_failureTable (word : List α) : Table word (failureTable word) word.length := by
  intro i hi
  have h := (build_spec word (word.length - 1) (by omega)).1
  rw [Nat.sub_add_cancel (by omega)] at h
  exact h i hi

/-- Other names for the symbols do not change the table. -/
theorem failureTable_map {β : Type*} [DecidableEq β] {f : α → β} (hf : Function.Injective f)
    (word : List α) : failureTable (word.map f) = failureTable word := by
  have hbuild : ∀ i, build (word.map f) i = build word i := by
    intro i
    induction i with
    | zero => simp [build]
    | succ i ih =>
      have hit : (fun j : ℕ => decide ((word.map f)[j]? = (word.map f)[i + 1]?)) =
          fun j : ℕ => decide (word[j]? = word[i + 1]?) := by
        funext j
        have hsame : (word.map f)[j]? = (word.map f)[i + 1]? ↔ word[j]? = word[i + 1]? := by
          rw [List.getElem?_map, List.getElem?_map]
          exact (Option.map_injective hf).eq_iff
        exact decide_eq_decide.mpr hsame
      rw [build, build, ih, hit]
  rw [failureTable, failureTable, hbuild, List.length_map]

omit [DecidableEq α] in
/-- The whole word ends the text just when the overlap is the whole word. -/
theorem Overlap.eq_length_iff {word text : List α} {k : ℕ} (h : Overlap word text k) :
    k = word.length ↔ word <:+ text := by
  constructor
  · rintro rfl
    simpa using h.1.2
  · intro hs
    exact Nat.le_antisymm h.1.1 (h.2 ⟨Nat.le_refl _, by simpa using hs⟩)

end Borders
end Neocortex
