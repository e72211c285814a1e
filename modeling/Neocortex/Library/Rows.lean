import Mathlib

/-!
# Rows of a table

A table as the list of its rows, in the order of their insertion: the statements
`UPDATE … WHERE` and `DELETE … WHERE`, and how they change counts, lookups and uniqueness.

* `count_updateWhere_cons`: what an update does to a count;
* `updateWhere_congr`: an update that selects the same rows and writes the same values;
* `unique_updateWhere`, `unique_append`: keys that stay distinct.
-/

namespace Neocortex
namespace Rows

variable {α κ : Type}

/-- `UPDATE … SET f WHERE p`. -/
def updateWhere (p : α → Bool) (f : α → α) (rows : List α) : List α :=
  rows.map fun a => if p a then f a else a

/-- `DELETE … WHERE p`. -/
def deleteWhere (p : α → Bool) (rows : List α) : List α := rows.filter fun a => !p a

/-- No two rows have the same key. -/
def Unique (key : α → κ) (rows : List α) : Prop := rows.Pairwise fun a b => key a ≠ key b

@[simp] theorem updateWhere_nil (p : α → Bool) (f : α → α) : updateWhere p f [] = [] := rfl

theorem updateWhere_cons (p : α → Bool) (f : α → α) (a : α) (rows : List α) :
    updateWhere p f (a :: rows) = (if p a then f a else a) :: updateWhere p f rows := rfl

@[simp] theorem updateWhere_append (p : α → Bool) (f : α → α) (rows more : List α) :
    updateWhere p f (rows ++ more) = updateWhere p f rows ++ updateWhere p f more :=
  List.map_append

theorem mem_updateWhere {p : α → Bool} {f : α → α} {rows : List α} {b : α} :
    b ∈ updateWhere p f rows ↔ ∃ a ∈ rows, b = if p a then f a else a := by
  simp only [updateWhere, List.mem_map, eq_comm]

theorem mem_deleteWhere {p : α → Bool} {rows : List α} {a : α} :
    a ∈ deleteWhere p rows ↔ a ∈ rows ∧ p a = false := by
  simp [deleteWhere, List.mem_filter]

/-- An update of rows none of which is selected. -/
theorem updateWhere_eq_self {p : α → Bool} {f : α → α} {rows : List α}
    (h : ∀ a ∈ rows, p a = true → f a = a) : updateWhere p f rows = rows := by
  refine (List.map_congr_left fun a ha => ?_).trans (List.map_id rows)
  by_cases hp : p a = true
  · simp [hp, h a ha hp]
  · simp [hp]

theorem updateWhere_congr {p q : α → Bool} {f g : α → α} {rows : List α}
    (hp : ∀ a ∈ rows, p a = q a) (hf : ∀ a ∈ rows, p a = true → f a = g a) :
    updateWhere p f rows = updateWhere q g rows := by
  refine List.map_congr_left fun a ha => ?_
  by_cases h : p a = true
  · rw [← hp a ha, if_pos h, if_pos h, hf a ha h]
  · rw [← hp a ha, if_neg h, if_neg h]

/-- What is written does not concern a map that forgets it. -/
theorem map_updateWhere {p : α → Bool} {f : α → α} {g : α → κ} {rows : List α}
    (h : ∀ a ∈ rows, p a = true → g (f a) = g a) : (updateWhere p f rows).map g = rows.map g := by
  rw [updateWhere, List.map_map]
  refine List.map_congr_left fun a ha => ?_
  by_cases hp : p a = true
  · simp [hp, h a ha hp]
  · simp [hp]

/-- A lookup by columns that an update leaves. -/
theorem find?_updateWhere {p : α → Bool} {f : α → α} {q : α → Bool} {rows : List α}
    (h : ∀ a ∈ rows, p a = true → q (f a) = q a) :
    (updateWhere p f rows).find? q = (rows.find? q).map fun a => if p a then f a else a := by
  induction rows with
  | nil => rfl
  | cons a rows ih =>
    have hrest := ih fun b hb => h b (List.mem_cons_of_mem a hb)
    have hq : q (if p a then f a else a) = q a := by
      split_ifs with hp
      · exact h a List.mem_cons_self hp
      · rfl
    rw [updateWhere_cons, List.find?_cons, List.find?_cons, hq]
    cases q a with
    | true => rfl
    | false => exact hrest

/-- A lookup of rows that are not deleted. -/
theorem find?_deleteWhere {p q : α → Bool} {rows : List α}
    (h : ∀ a ∈ rows, q a = true → p a = false) : (deleteWhere p rows).find? q = rows.find? q := by
  induction rows with
  | nil => rfl
  | cons a rows ih =>
    have hrest := ih fun b hb => h b (List.mem_cons_of_mem a hb)
    rw [deleteWhere] at hrest ⊢
    cases hq : q a with
    | true => simp [h a List.mem_cons_self hq, hq]
    | false =>
      rw [List.find?_cons_of_neg (by simp [hq]), ← hrest, List.filter_cons]
      split_ifs
      · rw [List.find?_cons_of_neg (by simp [hq])]
      · rfl

/-- An update of rows outside a selection. -/
theorem filter_updateWhere {p : α → Bool} {f : α → α} {q : α → Bool} {rows : List α}
    (h : ∀ a ∈ rows, p a = true → q a = false ∧ q (f a) = false) :
    (updateWhere p f rows).filter q = rows.filter q := by
  induction rows with
  | nil => rfl
  | cons a rows ih =>
    have hrest := ih fun b hb => h b (List.mem_cons_of_mem a hb)
    rw [updateWhere_cons]
    split_ifs with hp
    · obtain ⟨hq, hq'⟩ := h a List.mem_cons_self hp
      simp [hq, hq', hrest]
    · rw [List.filter_cons, List.filter_cons, hrest]

/-- A deletion of rows outside a selection. -/
theorem filter_deleteWhere {p q : α → Bool} {rows : List α}
    (h : ∀ a ∈ rows, q a = true → p a = false) :
    (deleteWhere p rows).filter q = rows.filter q := by
  rw [deleteWhere, List.filter_filter]
  refine List.filter_congr fun a ha => ?_
  cases hq : q a with
  | true => simp [h a ha hq]
  | false => rfl

/-- Two selections that yield the same rows. -/
theorem flatMap_filter_congr {β : Type} {p q : α → Bool} {f g : α → List β} {rows : List α}
    (h : ∀ a ∈ rows, (if p a then f a else []) = if q a then g a else []) :
    (rows.filter p).flatMap f = (rows.filter q).flatMap g := by
  induction rows with
  | nil => rfl
  | cons a rows ih =>
    have hrest := ih fun b hb => h b (List.mem_cons_of_mem _ hb)
    have ha := h a List.mem_cons_self
    by_cases hp : p a = true <;> by_cases hq : q a = true <;> simp_all

theorem unique_iff_nodup {key : α → κ} {rows : List α} : Unique key rows ↔ (rows.map key).Nodup :=
  List.pairwise_map.symm

@[simp] theorem unique_nil (key : α → κ) : Unique key [] := List.Pairwise.nil

theorem unique_map {β : Type} {key : α → κ} {f : β → α} {rows : List β} :
    Unique key (rows.map f) ↔ Unique (fun b => key (f b)) rows := List.pairwise_map

theorem unique_updateWhere {key : α → κ} {p : α → Bool} {f : α → α} {rows : List α}
    (h : Unique key rows) (hf : ∀ a ∈ rows, p a = true → key (f a) = key a) :
    Unique key (updateWhere p f rows) := by
  rw [unique_iff_nodup, map_updateWhere hf, ← unique_iff_nodup]
  exact h

theorem unique_deleteWhere {key : α → κ} {p : α → Bool} {rows : List α} (h : Unique key rows) :
    Unique key (deleteWhere p rows) := List.Pairwise.filter _ h

theorem unique_append {key : α → κ} {rows : List α} {a : α} (h : Unique key rows)
    (ha : ∀ b ∈ rows, key b ≠ key a) : Unique key (rows ++ [a]) := by
  refine List.pairwise_append.mpr ⟨h, List.pairwise_singleton _ _, ?_⟩
  intro b hb c hc
  rw [List.mem_singleton.mp hc]
  exact ha b hb

/-- An update of one row to a key that no other row has. -/
theorem unique_replace [DecidableEq κ] {key : α → κ} {rows : List α}
    (h : Unique key rows) {id : κ} {new : α}
    (hfree : ¬(key new ≠ id ∧ (rows.any fun a => decide (key a = key new)) = true)) :
    Unique key (updateWhere (fun a => decide (key a = id)) (fun _ => new) rows) := by
  by_cases hid : key new = id
  · refine unique_updateWhere h fun a _ hp => ?_
    exact hid.trans (of_decide_eq_true hp).symm
  · have hnone : ∀ a ∈ rows, key a ≠ key new := by
      intro a ha hkey
      exact hfree ⟨hid, List.any_eq_true.mpr ⟨a, ha, decide_eq_true hkey⟩⟩
    refine List.pairwise_map.mpr (h.imp_of_mem fun {a b} ha hb hne => ?_)
    by_cases hpa : key a = id <;> by_cases hpb : key b = id
    · exact absurd (hpa.trans hpb.symm) hne
    · simpa [hpa, hpb] using (hnone b hb).symm
    · simpa [hpa, hpb] using hnone a ha
    · simpa [hpa, hpb] using hne

theorem Unique.eq {key : α → κ} {rows : List α} (h : Unique key rows) {a b : α} (ha : a ∈ rows)
    (hb : b ∈ rows) (hk : key a = key b) : a = b :=
  List.inj_on_of_nodup_map (unique_iff_nodup.mp h) ha hb hk

/-- A row that is looked up by its key. -/
theorem Unique.find?_eq [DecidableEq κ] {key : α → κ} {rows : List α} (h : Unique key rows)
    {a : α} (ha : a ∈ rows) : rows.find? (fun b => decide (key b = key a)) = some a := by
  cases hfind : rows.find? fun b => decide (key b = key a) with
  | none =>
    have hnone := List.find?_eq_none.mp hfind a ha
    simp at hnone
  | some b =>
    have hb := List.find?_some hfind
    rw [h.eq (List.mem_of_find?_eq_some hfind) ha (of_decide_eq_true hb)]

/-- `dict.fromkeys` leaves no duplicate. -/
theorem nodup_eraseDups [BEq α] [LawfulBEq α] (l : List α) : l.eraseDups.Nodup := by
  -- the tail is first filtered, so the induction is on the length
  induction hn : l.length using Nat.strong_induction_on generalizing l with
  | _ n ih =>
    cases l with
    | nil => exact List.nodup_nil
    | cons a l =>
      rw [List.eraseDups_cons, List.nodup_cons]
      refine ⟨fun ha => ?_, ih _ ?_ _ rfl⟩
      · have hmem := List.mem_eraseDups.mp ha
        simp at hmem
      · rw [← hn, List.length_cons]
        exact Nat.lt_succ_of_le (List.length_filter_le _ _)

/-! ## Counts -/

/-- One, if the test holds. -/
def oneIf (b : Bool) : ℤ := if b then 1 else 0

@[simp] theorem oneIf_true : oneIf true = 1 := rfl

@[simp] theorem oneIf_false : oneIf false = 0 := rfl

/-- The number of rows that pass a test, as an integer. -/
def count (q : α → Bool) (rows : List α) : ℤ := (rows.map fun a => oneIf (q a)).sum

@[simp] theorem count_nil (q : α → Bool) : count q [] = 0 := rfl

@[simp] theorem count_cons (q : α → Bool) (a : α) (rows : List α) :
    count q (a :: rows) = oneIf (q a) + count q rows := rfl

@[simp] theorem count_append (q : α → Bool) (rows more : List α) :
    count q (rows ++ more) = count q rows + count q more := by
  simp [count]

theorem count_eq_countP (q : α → Bool) (rows : List α) : count q rows = rows.countP q := by
  induction rows with
  | nil => rfl
  | cons a rows ih =>
    rw [count_cons, ih, List.countP_cons]
    by_cases h : q a = true
    · simp [h, add_comm]
    · simp [h]

theorem count_nonneg (q : α → Bool) (rows : List α) : 0 ≤ count q rows := by
  rw [count_eq_countP]
  exact Int.natCast_nonneg _

/-- What one selected row changes. -/
theorem count_updateWhere_cons (q p : α → Bool) (f : α → α) (a : α) (rows : List α) :
    count q (updateWhere p f (a :: rows)) =
      (if p a then oneIf (q (f a)) else oneIf (q a)) + count q (updateWhere p f rows) := by
  rw [updateWhere_cons, count_cons]
  by_cases h : p a = true <;> simp [h]

end Rows
end Neocortex
