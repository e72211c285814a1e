import Neocortex.Library.Terminated
import Neocortex.Python.Text

/-!
# Paths of the inventory

Linux paths as sequences of names.  A name is what `os.scandir` can return: a non-empty
byte string without NUL and without a slash, other than `.` and `..`.

* `dfsOrderKey`: the byte key of `resume.dfs_order_key`;
* `dfsOrderKey_lt_of_name_lt`, `dfsOrderKey_lt_descendant`: the order of the keys is the
  order in which a depth-first search with sorted directories meets the entries.
-/

namespace Neocortex
namespace Inventory

open Python

/-- What a directory entry may be called. -/
def IsName (bytes : Bytes) : Prop :=
  bytes ≠ [] ∧ 0 ∉ bytes ∧ 47 ∉ bytes ∧ bytes ≠ [46] ∧ bytes ≠ [46, 46]

instance (bytes : Bytes) : Decidable (IsName bytes) := inferInstanceAs (Decidable (_ ∧ _))

/-- The name of a directory entry, `os.fsencode(entry.name)`. -/
structure Name where
  bytes : Bytes
  isName : IsName bytes
  deriving DecidableEq

namespace Name

/-- The bytes of a name as the numbers by which Python compares them. -/
def codes (n : Name) : List ℕ := n.bytes.map UInt8.toNat

theorem codes_injective : Function.Injective codes := by
  rintro ⟨a, ha⟩ ⟨b, hb⟩ h
  have hab : a = b := List.map_injective_iff.mpr (fun _ _ => UInt8.toNat_inj.mp) h
  cases hab
  rfl

/-- Names are ordered by their bytes. -/
instance : LinearOrder Name := LinearOrder.lift' codes codes_injective

instance : Std.TransOrd (List Name) := inferInstance

instance : Std.LawfulEqOrd Name := ⟨fun h => compare_eq_iff_eq.mp h⟩

theorem lt_iff {a b : Name} : a < b ↔ a.codes < b.codes := Iff.rfl

/-- The end mark of a key is smaller than every byte of a name. -/
theorem mark_lt (n : Name) : ∀ a ∈ n.codes, 0 < a := by
  intro a ha
  rcases Nat.eq_zero_or_pos a with rfl | h
  · obtain ⟨b, hb, hz⟩ := List.mem_map.mp ha
    have hb0 : b = 0 := UInt8.toNat_inj.mp (by rw [hz]; rfl)
    exact absurd (hb0 ▸ hb) n.isName.2.1
  · exact h

end Name

/-- An absolute path, or a path relative to the root of a scan. -/
abbrev Path := List Name

namespace Path

/-- `Path.as_posix`, without the leading slash. -/
def posix (p : Path) : Bytes := List.intercalate [47] (p.map Name.bytes)

/-- The path as the text that JSON and SQLite receive.  Only paths that UTF-8 can hold
reach them. -/
def text (p : Path) : Text := (decodeUtf8 p.posix).getD []

/-- `_supports_inventory_path`. -/
def supported (p : Path) : Bool := (decodeUtf8 p.posix).isSome

end Path

/-- `relative_cursor` of a path below the root. -/
def relativeCursor (root path : Path) : Option Path :=
  if root <+: path ∧ root ≠ path then some (path.drop root.length) else none

/-- `dfs_order_key` of a path relative to the root: every name closed by a NUL. -/
def dfsOrderKey (relative : Path) : List ℕ := Terminated.closed 0 (relative.map Name.codes)

@[simp] theorem relativeCursor_append {root relative : Path} (h : relative ≠ []) :
    relativeCursor root (root ++ relative) = some relative := by
  rw [relativeCursor, if_pos, List.drop_left]
  refine ⟨List.prefix_append _ _, fun hr => h ?_⟩
  exact List.append_right_eq_self.mp hr.symm

/-- Entries of one directory and everything below them: the order of the names decides. -/
theorem dfsOrderKey_lt_of_name_lt {parent p q : Path} {m n : Name} (h : m < n) :
    dfsOrderKey (parent ++ m :: p) < dfsOrderKey (parent ++ n :: q) := by
  simp only [dfsOrderKey, List.map_append, List.map_cons]
  exact Terminated.closed_lt_of_lt n.mark_lt (Name.lt_iff.mp h)

/-- A directory comes before what it holds. -/
theorem dfsOrderKey_lt_descendant {p q : Path} (h : q ≠ []) :
    dfsOrderKey p < dfsOrderKey (p ++ q) := by
  rw [dfsOrderKey, dfsOrderKey, List.map_append]
  exact Terminated.closed_lt_append (by simpa using h)

end Inventory
end Neocortex
