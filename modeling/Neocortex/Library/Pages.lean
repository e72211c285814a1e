import Mathlib

/-!
# Keyset pages

Rows in the order of a key are listed page by page: a page has the first rows whose key is larger
than the cursor, and the key of its last row is the next cursor.

* `flatten_pages`: the pages, one after the other, are the rows behind the first cursor.
-/

namespace Neocortex
namespace Pages

variable {α : Type} (key : α → ℤ)

/-- `SELECT … WHERE key>? ORDER BY key LIMIT ?`. -/
def page (rows : List α) (after : ℤ) (limit : ℕ) : List α :=
  (rows.filter fun a => after < key a).take limit

/-- The cursor behind a page. -/
def cursor (after : ℤ) (p : List α) : ℤ := (p.getLast?.map key).getD after

/-- Pages of these sizes. -/
def pages (rows : List α) : List ℕ → ℤ → List (List α)
  | [], _ => []
  | limit :: limits, after =>
    page key rows after limit :: pages rows limits (cursor key after (page key rows after limit))

variable {key}

/-- The rows behind the last of some rows. -/
theorem filter_lt_of_append {p q : List α} {a : α}
    (h : ((p ++ [a]) ++ q).Pairwise fun a b => key a < key b) :
    (((p ++ [a]) ++ q).filter fun b => key a < key b) = q := by
  obtain ⟨hfront, -, hcross⟩ := List.pairwise_append.mp h
  rw [List.filter_append]
  have hp : (p ++ [a]).filter (fun b => key a < key b) = [] := by
    rw [List.filter_eq_nil_iff]
    intro b hb
    rw [decide_eq_true_eq, not_lt]
    rcases List.mem_append.mp hb with hb | hb
    · exact le_of_lt ((List.pairwise_append.mp hfront).2.2 b hb a List.mem_cons_self)
    · rw [List.mem_singleton.mp hb]
  have hq : q.filter (fun b => key a < key b) = q := by
    rw [List.filter_eq_self]
    intro b hb
    rw [decide_eq_true_eq]
    exact hcross a (List.mem_append_right _ List.mem_cons_self) b hb
  rw [hp, hq, List.nil_append]

/-- The cursor behind a page leaves the rows that the page did not list. -/
theorem filter_cursor {rows : List α} (h : rows.Pairwise fun a b => key a < key b) (after : ℤ)
    (limit : ℕ) :
    (rows.filter fun a => cursor key after (page key rows after limit) < key a) =
      (rows.filter fun a => after < key a).drop limit := by
  have hsorted := h.filter fun a => after < key a
  unfold page
  generalize hbehind : (rows.filter fun a => after < key a) = behind at hsorted ⊢
  rcases List.eq_nil_or_concat (behind.take limit) with hnil | ⟨p, a, hp⟩
  · rw [hnil]
    show (rows.filter fun a => after < key a) = _
    rw [hbehind]
    rcases List.take_eq_nil_iff.mp hnil with rfl | rfl
    · rfl
    · simp
  · rw [List.concat_eq_append] at hp
    have hsplit : (p ++ [a]) ++ behind.drop limit = behind := by
      rw [← hp, List.take_append_drop]
    have ha : after < key a := by
      have hmem : a ∈ rows.filter fun a => after < key a := by
        rw [hbehind, ← hsplit]
        simp
      exact of_decide_eq_true (List.mem_filter.mp hmem).2
    have hcursor : cursor key after (behind.take limit) = key a := by
      rw [hp, cursor, List.getLast?_concat]
      rfl
    rw [hcursor]
    -- rows behind the cursor are behind the old one
    have hfilter : (rows.filter fun b => key a < key b) = behind.filter fun b => key a < key b := by
      rw [← hbehind, List.filter_filter]
      refine List.filter_congr fun b _ => ?_
      by_cases hb : key a < key b
      · simp [hb, lt_trans ha hb]
      · simp [hb]
    rw [hfilter]
    have hrest := filter_lt_of_append (p := p) (a := a) (q := behind.drop limit) (by
      rw [hsplit]
      exact hsorted)
    rwa [hsplit] at hrest

/-- **Pages list every row once, in order.** -/
theorem flatten_pages {rows : List α} (h : rows.Pairwise fun a b => key a < key b)
    (limits : List ℕ) (after : ℤ) :
    (pages key rows limits after).flatten =
      (rows.filter fun a => after < key a).take limits.sum := by
  induction limits generalizing after with
  | nil => rfl
  | cons limit limits ih =>
    rw [pages, List.flatten_cons, ih, filter_cursor h, page, List.sum_cons, List.take_add]

end Pages
end Neocortex
