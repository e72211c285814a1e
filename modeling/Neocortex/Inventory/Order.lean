import Neocortex.Inventory.Tree

/-!
# The order of the resume keys

A resumed scan keeps what lies before its cursor and looks again at what lies behind it, and
it tells the two apart by `dfs_order_key` alone.  The keys of distinct paths are distinct, and
a deterministic traversal meets its entries in the order of their keys; so a cursor cuts the
traversal in two.

* `dfsOrderKeyOf`: the function of the source on absolute paths, with what it refuses;
* `dfsOrderKey_injective`: a key belongs to one relative path;
* `filter_key_eq_visitedAfter`: behind a cursor are the entries with a greater key.

The traversal may end early, so the results are about every beginning of its visits.
-/

namespace Neocortex
namespace Inventory

open Python

/-! ## The function of the source -/

/-- `MAX_RESUME_CURSOR_BYTES`. -/
def maxResumeCursorBytes : ℕ := 4 * 1024

/-- The length of `os.fsdecode(bytes).encode("utf-8", "surrogatepass")`.  A byte that UTF-8
cannot read is a lone surrogate in the text, of three bytes; the first argument bounds the
number of characters. -/
def cursorBytesFrom : ℕ → Bytes → ℕ
  | _, [] => 0
  | 0, _ :: _ => 0
  | n + 1, b :: bs =>
    match ((b :: bs).take 4).toByteArray.utf8DecodeChar? 0 with
    | none => 3 + cursorBytesFrom n bs
    | some c => c.utf8Size + cursorBytesFrom n ((b :: bs).drop c.utf8Size)

def cursorBytes (b : Bytes) : ℕ := cursorBytesFrom b.length b

/-- The exceptions of `relative_cursor`. -/
inductive CursorError where
  /-- `InventoryResumeConflictError`. -/
  | conflict (message : String)
  /-- `InventoryResumeCorruptError`. -/
  | corrupt (message : String)
  deriving DecidableEq

/-- `dfs_order_key`.  The path of the root itself is `"."` relative to the root, which is not
normalized. -/
def dfsOrderKeyOf (root path : Path) : Except CursorError (List ℕ) :=
  if root <+: path then
    let relative := path.drop root.length
    if relative = [] then .error (.corrupt "last_relative_cursor is not normalized")
    else if maxResumeCursorBytes < cursorBytes (Path.posix relative) then
      .error (.corrupt "last_relative_cursor exceeds its bound")
    else .ok (dfsOrderKey relative)
  else .error (.conflict "inventory cursor escapes its root")

/-- A key is returned for every path below the root within the bound, and it is the key of that
path. -/
theorem dfsOrderKeyOf_eq_ok {root path : Path} {key : List ℕ} :
    dfsOrderKeyOf root path = .ok key ↔ ∃ relative, path = root ++ relative ∧ relative ≠ [] ∧
      cursorBytes (Path.posix relative) ≤ maxResumeCursorBytes ∧ key = dfsOrderKey relative := by
  constructor
  · intro h
    rw [dfsOrderKeyOf] at h
    by_cases hroot : root <+: path
    · obtain ⟨relative, rfl⟩ := hroot
      simp only [List.prefix_append, if_true, List.drop_left] at h
      split_ifs at h with hempty hlong
      exact ⟨relative, rfl, hempty, not_lt.mp hlong, (Except.ok.inj h).symm⟩
    · rw [if_neg hroot] at h
      cases h
  · rintro ⟨relative, rfl, hvisible, hbound, rfl⟩
    rw [dfsOrderKeyOf, if_pos (List.prefix_append _ _), List.drop_left, if_neg hvisible,
      if_neg (not_lt.mpr hbound)]

/-- No byte of a name is the mark that closes it. -/
theorem Name.mark_notMem (n : Name) : 0 ∉ n.codes := fun h => absurd (n.mark_lt 0 h) (by decide)

theorem dfsOrderKey_injective : Function.Injective dfsOrderKey := by
  intro p q h
  have hfree : ∀ r : Path, ∀ w ∈ r.map Name.codes, 0 ∉ w := by
    intro r w hw
    obtain ⟨n, -, rfl⟩ := List.mem_map.mp hw
    exact n.mark_notMem
  exact List.map_injective_iff.mpr Name.codes_injective
    (Terminated.closed_inj (hfree p) (hfree q) h)

/-- Two paths below one root with one key are one path. -/
theorem dfsOrderKeyOf_inj {root p q : Path} {key : List ℕ} (hp : dfsOrderKeyOf root p = .ok key)
    (hq : dfsOrderKeyOf root q = .ok key) : p = q := by
  obtain ⟨r, rfl, -, -, hr⟩ := dfsOrderKeyOf_eq_ok.mp hp
  obtain ⟨s, rfl, -, -, hs⟩ := dfsOrderKeyOf_eq_ok.mp hq
  rw [dfsOrderKey_injective (hr.symm.trans hs)]

/-! ## A cursor cuts the traversal -/

/-- The entries visited after the cursor. -/
def visitedAfter (cursor : Path) (seen : List Path) : List Path :=
  (seen.dropWhile (· ≠ cursor)).drop 1

theorem visitedAfter_append {cursor : Path} {before after : List Path} (h : cursor ∉ before) :
    visitedAfter cursor (before ++ cursor :: after) = after := by
  have hbefore : ∀ p ∈ before, decide (p ≠ cursor) = true := by
    intro p hp
    exact decide_eq_true fun heq => h (heq ▸ hp)
  rw [visitedAfter, List.dropWhile_append_of_pos hbefore, List.dropWhile_cons_of_neg (by simp)]
  rfl

section Cut

variable {seen : List Path}

/-- The entries whose key is not greater come first. -/
theorem filter_append_filter_of_sorted
    (h : seen.Pairwise fun p q => dfsOrderKey p < dfsOrderKey q) (key : List ℕ) :
    (seen.filter fun p => dfsOrderKey p ≤ key) ++ (seen.filter fun p => key < dfsOrderKey p) =
      seen := by
  induction seen with
  | nil => rfl
  | cons p rest ih =>
    rw [List.pairwise_cons] at h
    by_cases hp : dfsOrderKey p ≤ key
    · rw [List.filter_cons_of_pos (by simpa using hp),
        List.filter_cons_of_neg (by simpa using hp), List.cons_append, ih h.2]
    · -- from here on every key is greater
      have hlt : key < dfsOrderKey p := not_le.mp hp
      have hrest : ∀ q ∈ rest, key < dfsOrderKey q := fun q hq => hlt.trans (h.1 q hq)
      have hnone : (rest.filter fun q => dfsOrderKey q ≤ key) = [] := by
        rw [List.filter_eq_nil_iff]
        intro q hq
        simpa using hrest q hq
      rw [List.filter_cons_of_neg (by simpa using hlt), hnone, List.nil_append,
        List.filter_cons_of_pos (by simpa using hlt), List.filter_eq_self.mpr]
      intro q hq
      simpa using hrest q hq

/-- The entries behind the cursor are those with a greater key. -/
theorem filter_key_eq_visitedAfter
    (h : seen.Pairwise fun p q => dfsOrderKey p < dfsOrderKey q) {cursor : Path}
    (hcursor : cursor ∈ seen) :
    (seen.filter fun p => dfsOrderKey cursor < dfsOrderKey p) = visitedAfter cursor seen := by
  obtain ⟨before, after, rfl⟩ := List.append_of_mem hcursor
  rw [List.pairwise_append, List.pairwise_cons] at h
  obtain ⟨-, ⟨hafter, -⟩, hbefore⟩ := h
  have hless : ∀ p ∈ before, dfsOrderKey p < dfsOrderKey cursor :=
    fun p hp => hbefore p hp cursor List.mem_cons_self
  have hnotMem : cursor ∉ before := fun hmem => lt_irrefl _ (hless cursor hmem)
  have hnone : (before.filter fun p => dfsOrderKey cursor < dfsOrderKey p) = [] := by
    rw [List.filter_eq_nil_iff]
    intro p hp
    simpa using (hless p hp).le
  have hall : (after.filter fun p => dfsOrderKey cursor < dfsOrderKey p) = after := by
    rw [List.filter_eq_self]
    intro p hp
    simpa using hafter p hp
  rw [visitedAfter_append hnotMem, List.filter_append, hnone, List.nil_append,
    List.filter_cons_of_neg (by simp), hall]

end Cut

/-- **The keys are the order of the traversal.**  Along every beginning of a deterministic
traversal the keys increase, no two paths have one key, and a cursor that was visited has the
greater keys behind it; any other cursor cuts the visits in two as well.  The function of the
source returns these keys, for every path below the root but one that is too long for a cursor. -/
theorem dfs_order_key_is_visit_order (policy : InventoryExclusionPolicy) (t : Tree)
    (seen : List Path) (h : seen <+: entryPaths (t.visits policy true)) :
    (seen.Pairwise fun p q => dfsOrderKey p < dfsOrderKey q) ∧
      Function.Injective dfsOrderKey ∧
      (∀ cursor ∈ seen,
        (seen.filter fun p => dfsOrderKey cursor < dfsOrderKey p) = visitedAfter cursor seen) ∧
      (∀ cursor : Path,
        (seen.filter fun p => dfsOrderKey p ≤ dfsOrderKey cursor) ++
          (seen.filter fun p => dfsOrderKey cursor < dfsOrderKey p) = seen) ∧
      ∀ (p : Path) (key : List ℕ), dfsOrderKeyOf t.root (t.root ++ p) = .ok key ↔
        p ≠ [] ∧ cursorBytes (Path.posix p) ≤ maxResumeCursorBytes ∧ key = dfsOrderKey p := by
  have hsorted : seen.Pairwise fun p q => dfsOrderKey p < dfsOrderKey q :=
    (visits_sorted t).sublist h.sublist
  refine ⟨hsorted, dfsOrderKey_injective,
    fun cursor hcursor => filter_key_eq_visitedAfter hsorted hcursor,
    fun cursor => filter_append_filter_of_sorted hsorted (dfsOrderKey cursor),
    fun p key => ?_⟩
  rw [dfsOrderKeyOf_eq_ok]
  constructor
  · rintro ⟨relative, hp, hkey⟩
    rwa [List.append_cancel_left hp]
  · exact fun hkey => ⟨p, rfl, hkey⟩

/-! ### The directory `a` beside the file `a.txt` -/

/-- `/`, with a directory `a` that holds a file `z`, and a file `a.txt`. -/
def slashBesideDot : Tree where
  root := []
  stat := ⟨0, 0, 0⟩
  entries :=
    [(⟨[97, 46, 116, 120, 116], by decide⟩, .file ⟨0, 1, 0, 0, 0, 0⟩),
      (⟨[97], by decide⟩, .directory ⟨0, 2, 0⟩ [(⟨[122], by decide⟩, .file ⟨0, 3, 0, 0, 0, 0⟩)])]
  distinct := by decide

/-- `a/z` comes before `a.txt`, although a slash is greater than a full stop. -/
theorem slash_before_dot :
    let a : Name := ⟨[97], by decide⟩
    let z : Name := ⟨[122], by decide⟩
    let text : Name := ⟨[97, 46, 116, 120, 116], by decide⟩
    let seen : List Path := [[a], [a, z], [text]]
    seen <+: entryPaths (slashBesideDot.visits ⟨fun _ => false, fun _ => false, []⟩ true) ∧
      (seen.filter fun p => dfsOrderKey [a, z] < dfsOrderKey p) = visitedAfter [a, z] seen := by
  have hseen : [[⟨[97], by decide⟩], [⟨[97], by decide⟩, ⟨[122], by decide⟩],
      [⟨[97, 46, 116, 120, 116], by decide⟩]] <+: entryPaths
        (slashBesideDot.visits ⟨fun _ => false, fun _ => false, []⟩ true) := by
    decide +kernel
  exact ⟨hseen, (dfs_order_key_is_visit_order _ slashBesideDot _ hseen).2.2.1 _ (by simp)⟩

end Inventory
end Neocortex
