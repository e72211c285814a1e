import Mathlib

/-!
# Claims that are shared under a key

A list of claims, each with an amount and perhaps a key.  Claims without a key add up;
claims under one key are charged once, at the greatest of their amounts.

* `total_cons`: what one more claim adds to the total (`marginal`), so also what is given
  back when it goes;
* `keyMax_cons`: the greatest amount under a key;
* `total_perm`: the total does not depend on the order of the claims.
-/

namespace Neocortex
namespace SharedClaims

variable {κ : Type} [DecidableEq κ]

/-- The greatest amount claimed under a key, and zero if there is none. -/
def keyMax (l : List (Option κ × ℤ)) (k : κ) : ℤ :=
  ((l.filter fun c => decide (c.1 = some k)).map Prod.snd).foldr max 0

/-- The keys that are in use. -/
def keys (l : List (Option κ × ℤ)) : Finset κ := (l.filterMap Prod.fst).toFinset

/-- The charge of all claims. -/
def total (l : List (Option κ × ℤ)) : ℤ :=
  ((l.filter fun c => decide (c.1 = none)).map Prod.snd).sum + ∑ k ∈ keys l, keyMax l k

/-- What a claim adds to the others. -/
def marginal (c : Option κ × ℤ) (l : List (Option κ × ℤ)) : ℤ :=
  match c.1 with
  | none => c.2
  | some k => max 0 (c.2 - keyMax l k)

@[simp] theorem total_nil : total ([] : List (Option κ × ℤ)) = 0 := rfl

theorem keyMax_cons (c : Option κ × ℤ) (l : List (Option κ × ℤ)) (k : κ) :
    keyMax (c :: l) k = if c.1 = some k then max c.2 (keyMax l k) else keyMax l k := by
  by_cases h : c.1 = some k
  · simp [keyMax, h]
  · simp [keyMax, h]

theorem keyMax_nonneg (l : List (Option κ × ℤ)) (k : κ) : 0 ≤ keyMax l k := by
  induction l with
  | nil => exact le_rfl
  | cons c l ih =>
    rw [keyMax_cons]
    split_ifs
    · exact le_trans ih (le_max_right _ _)
    · exact ih

theorem keyMax_eq_zero_of_notMem {l : List (Option κ × ℤ)} {k : κ} (h : k ∉ keys l) :
    keyMax l k = 0 := by
  have hnil : (l.filter fun c => decide (c.1 = some k)) = [] := by
    rw [List.filter_eq_nil_iff]
    intro c hc hk
    refine h (List.mem_toFinset.mpr (List.mem_filterMap.mpr ⟨c, hc, ?_⟩))
    simpa using hk
  rw [keyMax, hnil]
  rfl

theorem keys_cons_some (k : κ) (a : ℤ) (l : List (Option κ × ℤ)) :
    keys ((some k, a) :: l) = insert k (keys l) := by
  simp [keys]

/-- The sum over more keys than are in use. -/
theorem sum_insert_keys (k : κ) (l : List (Option κ × ℤ)) :
    ∑ j ∈ insert k (keys l), keyMax l j = ∑ j ∈ keys l, keyMax l j := by
  refine (Finset.sum_subset (Finset.subset_insert k (keys l)) ?_).symm
  intro j _ hj
  exact keyMax_eq_zero_of_notMem hj

/-- One more claim. -/
theorem total_cons (c : Option κ × ℤ) (l : List (Option κ × ℤ)) :
    total (c :: l) = marginal c l + total l := by
  obtain ⟨o, a⟩ := c
  cases o with
  | none =>
    have hkeys : keys ((none, a) :: l) = keys l := by simp [keys]
    have hmax : ∀ j, keyMax ((none, a) :: l) j = keyMax l j := by
      intro j
      simp [keyMax_cons]
    simp only [total, marginal, hkeys, hmax]
    simp [add_assoc]
  | some k =>
    have hmax : ∀ j, keyMax ((some k, a) :: l) j =
        keyMax l j + if j = k then max 0 (a - keyMax l k) else 0 := by
      intro j
      rw [keyMax_cons]
      by_cases hj : j = k
      · subst hj
        simp only [if_true]
        omega
      · rw [if_neg fun h => hj (Option.some.inj h).symm, if_neg hj, add_zero]
    simp only [total, marginal, keys_cons_some, hmax]
    rw [Finset.sum_add_distrib, sum_insert_keys, Finset.sum_ite_eq' , if_pos (Finset.mem_insert_self _ _)]
    have hfilter : ((some k, a) :: l).filter (fun c => decide (c.1 = none)) =
        l.filter fun c => decide (c.1 = none) := by simp
    rw [hfilter]
    ring

theorem keyMax_perm {l l' : List (Option κ × ℤ)} (h : l.Perm l') (k : κ) :
    keyMax l k = keyMax l' k := by
  induction h with
  | nil => rfl
  | cons c _ ih => rw [keyMax_cons, keyMax_cons, ih]
  | swap c d l =>
    simp only [keyMax_cons]
    split_ifs <;> omega
  | trans _ _ ih ih' => exact ih.trans ih'

theorem total_perm {l l' : List (Option κ × ℤ)} (h : l.Perm l') : total l = total l' := by
  have hkeys : keys l = keys l' := List.toFinset_eq_of_perm _ _ (h.filterMap _)
  have hsum : ((l.filter fun c => decide (c.1 = none)).map Prod.snd).sum =
      ((l'.filter fun c => decide (c.1 = none)).map Prod.snd).sum :=
    ((h.filter _).map _).sum_eq
  rw [total, total, hkeys, hsum]
  congr 1
  exact Finset.sum_congr rfl fun k _ => keyMax_perm h k

theorem marginal_nonneg {c : Option κ × ℤ} (h : 0 ≤ c.2) (l : List (Option κ × ℤ)) :
    0 ≤ marginal c l := by
  unfold marginal
  split
  · exact h
  · exact le_max_left _ _

theorem total_nonneg {l : List (Option κ × ℤ)} (h : ∀ c ∈ l, 0 ≤ c.2) : 0 ≤ total l := by
  induction l with
  | nil => exact le_rfl
  | cons c l ih =>
    rw [total_cons]
    exact add_nonneg (marginal_nonneg (h c List.mem_cons_self) l)
      (ih fun d hd => h d (List.mem_cons_of_mem _ hd))

/-- What the greatest claim of a key loses when one claim goes is what that claim had added. -/
theorem keyMax_sub (k : κ) (a : ℤ) (l : List (Option κ × ℤ)) :
    keyMax ((some k, a) :: l) k - keyMax l k = marginal (some k, a) l := by
  rw [keyMax_cons, if_pos rfl, marginal]
  simp only
  omega

end SharedClaims
end Neocortex
