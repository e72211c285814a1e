import Mathlib

/-!
# Tables with a primary key

`Std.ExtTreeMap` as a table: writing a list of rows, the rows of a table as a list, and the greatest
of their keys.

* `toList_perm_of_mem_iff`: the rows of a table, from what its lookups say.
-/

namespace Neocortex

/-- A table with a primary key. -/
abbrev Table (κ α : Type) [Ord κ] := Std.ExtTreeMap κ α

/-- The greatest number of a list, from a start. -/
theorem le_foldl_max {l : List ℕ} {n : ℕ} : ∀ {m : ℕ}, n ≤ m ∨ n ∈ l → n ≤ l.foldl max m := by
  induction l with
  | nil => simp
  | cons k l ih =>
    intro m h
    refine ih ?_
    rcases h with h | h
    · exact Or.inl (h.trans (le_max_left _ _))
    · rcases List.mem_cons.mp h with rfl | h
      · exact Or.inl (le_max_right _ _)
      · exact Or.inr h

theorem le_foldr_max {n : ℕ} : ∀ {l : List ℕ}, n ∈ l → n ≤ l.foldr max 0
  | a :: l, h => by
    rcases List.mem_cons.mp h with rfl | hl
    · exact le_max_left _ _
    · exact le_trans (le_foldr_max hl) (le_max_right _ _)

namespace Table

variable {κ α : Type} [Ord κ] [Std.TransOrd κ] [Std.LawfulEqOrd κ] [DecidableEq κ]

/-- `INSERT OR REPLACE` of some rows, in order. -/
def putAll (t : Table κ α) (rows : List (κ × α)) : Table κ α :=
  rows.foldl (fun t r => t.insert r.1 r.2) t

theorem getElem?_insert_eq {t : Table κ α} {k k' : κ} {v : α} :
    (t.insert k v)[k']? = if k = k' then some v else t[k']? := by
  rw [Std.ExtTreeMap.getElem?_insert]
  simp only [Std.LawfulEqCmp.compare_eq_iff_eq]

omit [DecidableEq κ] in
theorem nodup_toList_map_fst (t : Table κ α) : (t.toList.map Prod.fst).Nodup := by
  rw [List.Nodup, List.pairwise_map]
  exact t.distinct_keys_toList.imp fun h heq => h (Std.LawfulEqCmp.compare_eq_iff_eq.mpr heq)

omit [DecidableEq κ] in
theorem nodup_toList (t : Table κ α) : t.toList.Nodup :=
  List.Nodup.of_map Prod.fst (nodup_toList_map_fst t)

omit [DecidableEq κ] in
/-- The rows of a table are the rows that its lookups return. -/
theorem toList_perm_of_mem_iff {t : Table κ α} {rows : List (κ × α)} (hnodup : rows.Nodup)
    (h : ∀ k v, t[k]? = some v ↔ (k, v) ∈ rows) : t.toList.Perm rows := by
  refine (List.perm_ext_iff_of_nodup (nodup_toList t) hnodup).mpr fun r => ?_
  rw [← h r.1 r.2, ← Std.ExtTreeMap.mem_toList_iff_getElem?_eq_some]

end Table
end Neocortex
