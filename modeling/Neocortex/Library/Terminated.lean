import Mathlib

/-!
# Words closed by an end mark

Words over a linear order in which one symbol, the end mark, is smaller than every
symbol that a word may use.  Closing every word by the mark makes the lexicographic
order of the words independent of what follows them, and a sequence of closed words is
ordered by its first difference.

* `append_mark_lt`: a smaller word stays smaller with anything behind its mark;
* `closed_lt_of_lt`, `closed_lt_append`: sequences of closed words;
* `closed_inj`: a closed sequence is cut into its words in one way.
-/

namespace Neocortex
namespace Terminated

variable {α : Type} {mark : α}

/-- The words of a sequence, each closed by the mark. -/
def closed (mark : α) (words : List (List α)) : List α := words.flatMap (· ++ [mark])

@[simp] theorem closed_nil : closed mark [] = [] := rfl

@[simp] theorem closed_cons (w : List α) (ws : List (List α)) :
    closed mark (w :: ws) = w ++ mark :: closed mark ws := by
  simp [closed]

@[simp] theorem closed_append (ws vs : List (List α)) :
    closed mark (ws ++ vs) = closed mark ws ++ closed mark vs := by
  simp [closed]

/-- A word ends at the first mark. -/
theorem append_mark_inj {x y : List α} : ∀ {w v : List α}, mark ∉ w → mark ∉ v →
    w ++ mark :: x = v ++ mark :: y → w = v ∧ x = y
  | [], [], _, _, h => ⟨rfl, (List.cons.inj h).2⟩
  | [], b :: v, _, hv, h => by
    obtain ⟨rfl, -⟩ := List.cons.inj h
    exact absurd List.mem_cons_self hv
  | a :: w, [], hw, _, h => by
    obtain ⟨rfl, -⟩ := List.cons.inj h
    exact absurd List.mem_cons_self hw
  | a :: w, b :: v, hw, hv, h => by
    obtain ⟨rfl, hrest⟩ := List.cons.inj h
    obtain ⟨rfl, hxy⟩ := append_mark_inj (fun hm => hw (List.mem_cons_of_mem _ hm))
      (fun hm => hv (List.mem_cons_of_mem _ hm)) hrest
    exact ⟨rfl, hxy⟩

/-- The marks of a closed sequence say where its words end. -/
theorem closed_inj : ∀ {ws vs : List (List α)}, (∀ w ∈ ws, mark ∉ w) → (∀ v ∈ vs, mark ∉ v) →
    closed mark ws = closed mark vs → ws = vs
  | [], [], _, _, _ => rfl
  | [], v :: vs, _, _, h => by
    rw [closed_nil, closed_cons] at h
    simp at h
  | w :: ws, [], _, _, h => by
    rw [closed_nil, closed_cons] at h
    simp at h
  | w :: ws, v :: vs, hw, hv, h => by
    rw [closed_cons, closed_cons] at h
    obtain ⟨rfl, hrest⟩ :=
      append_mark_inj (hw w List.mem_cons_self) (hv v List.mem_cons_self) h
    rw [closed_inj (fun u hu => hw u (List.mem_cons_of_mem _ hu))
      (fun u hu => hv u (List.mem_cons_of_mem _ hu)) hrest]

variable [LinearOrder α]

/-- A word is smaller than each of its proper extensions. -/
theorem lt_append_of_ne_nil {x : List α} (hx : x ≠ []) : ∀ w : List α, w < w ++ x
  | [] => by
    cases x with
    | nil => exact absurd rfl hx
    | cons a x => exact List.nil_lt_cons a x
  | a :: w => by
    rw [List.cons_append, List.cons_lt_cons_iff]
    exact .inr ⟨rfl, lt_append_of_ne_nil hx w⟩

/-- A common beginning does not matter. -/
theorem append_lt_append_iff {x y : List α} : ∀ w : List α, w ++ x < w ++ y ↔ x < y
  | [] => Iff.rfl
  | a :: w => by
    rw [List.cons_append, List.cons_append, List.cons_lt_cons_iff]
    simp only [lt_irrefl, true_and, false_or]
    exact append_lt_append_iff w

/-- The order of two closed words is the order of the words, whatever stands behind. -/
theorem append_mark_lt {x y : List α} :
    ∀ {v w : List α}, (∀ a ∈ w, mark < a) → v < w → v ++ mark :: x < w ++ mark :: y
  | v, [], _, h => absurd h (List.not_lt_nil v)
  | [], b :: w, hw, _ => by
    rw [List.nil_append, List.cons_append, List.cons_lt_cons_iff]
    exact .inl (hw b List.mem_cons_self)
  | a :: v, b :: w, hw, h => by
    rw [List.cons_append, List.cons_append, List.cons_lt_cons_iff]
    rcases List.cons_lt_cons_iff.mp h with hab | ⟨rfl, hvw⟩
    · exact .inl hab
    · exact .inr ⟨rfl, append_mark_lt (fun c hc => hw c (List.mem_cons_of_mem _ hc)) hvw⟩

/-- Two sequences that part at one word. -/
theorem closed_lt_of_lt {ws vs us : List (List α)} {v w : List α} (hw : ∀ a ∈ w, mark < a)
    (h : v < w) : closed mark (ws ++ v :: vs) < closed mark (ws ++ w :: us) := by
  rw [closed_append, closed_append, append_lt_append_iff, closed_cons, closed_cons]
  exact append_mark_lt hw h

/-- A sequence is smaller than each of its proper extensions. -/
theorem closed_lt_append {ws vs : List (List α)} (h : vs ≠ []) :
    closed mark ws < closed mark (ws ++ vs) := by
  rw [closed_append]
  refine lt_append_of_ne_nil ?_ _
  cases vs with
  | nil => exact absurd rfl h
  | cons v vs => simp

end Terminated
end Neocortex
