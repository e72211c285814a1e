import Neocortex.Python.JsonRoundTrip

/-!
# Equality of JSON values

`==` on what `json.loads` returns: a `dict` is equal to one with the same members in any order, and a
truth value is equal to the number that it is.  Floats are compared by their text: `1` and `1.0`, or
`0.0` and `-0.0`, which Python takes for equal, count as different.

* `equal`: the test; `equal_iff` says what it compares.
* `equal_get`: equal objects have equal members.
-/

namespace Neocortex
namespace Python

/-! ## The test -/

mutual
/-- Two values are the same, their members in their own order. -/
def same : Json → Json → Bool
  | .null, .null => true
  | .bool a, .bool b => a = b
  | .int a, .int b => a = b
  | .float a, .float b => a = b
  | .str a, .str b => a = b
  | .arr a, .arr b => sameItems a b
  | .obj a, .obj b => sameMembers a b
  | _, _ => false

/-- `same` on the items of an array. -/
def sameItems : List Json → List Json → Bool
  | [], [] => true
  | a :: as, b :: bs => same a b && sameItems as bs
  | _, _ => false

/-- `same` on the members of an object. -/
def sameMembers : List (Text × Json) → List (Text × Json) → Bool
  | [], [] => true
  | (k, a) :: as, (k', b) :: bs => k = k' && same a b && sameMembers as bs
  | _, _ => false
end

mutual
theorem same_iff (a b : Json) : same a b = true ↔ a = b := by
  cases a with
  | arr as =>
    cases b with
    | arr bs => simp only [same, sameItems_iff as bs, Json.arr.injEq]
    | _ => simp [same]
  | obj as =>
    cases b with
    | obj bs => simp only [same, sameMembers_iff as bs, Json.obj.injEq]
    | _ => simp [same]
  | _ => cases b <;> simp [same]

theorem sameItems_iff (as bs : List Json) : sameItems as bs = true ↔ as = bs := by
  cases as with
  | nil => cases bs <;> simp [sameItems]
  | cons a as =>
    cases bs with
    | nil => simp [sameItems]
    | cons b bs => simp [sameItems, same_iff a b, sameItems_iff as bs]

theorem sameMembers_iff (as bs : List (Text × Json)) : sameMembers as bs = true ↔ as = bs := by
  cases as with
  | nil => cases bs <;> simp [sameMembers]
  | cons a as =>
    cases a with
    | mk k a =>
      cases bs with
      | nil => simp [sameMembers]
      | cons b bs =>
        cases b with
        | mk k' b => simp [sameMembers, same_iff a b, sameMembers_iff as bs]
end

mutual
/-- The value with its truth values as numbers. -/
def numbered : Json → Json
  | .bool b => .int (if b then 1 else 0)
  | .arr items => .arr (numberedItems items)
  | .obj members => .obj (numberedMembers members)
  | .null => .null
  | .int n => .int n
  | .float lexeme => .float lexeme
  | .str s => .str s

/-- `numbered` on the items of an array. -/
def numberedItems : List Json → List Json
  | [] => []
  | v :: vs => numbered v :: numberedItems vs

/-- `numbered` on the values of an object. -/
def numberedMembers : List (Text × Json) → List (Text × Json)
  | [] => []
  | (k, v) :: ms => (k, numbered v) :: numberedMembers ms
end

/-- `a == b`. -/
def equal (a b : Json) : Bool := same (numbered (sortKeys a)) (numbered (sortKeys b))

theorem equal_iff {a b : Json} :
    equal a b = true ↔ numbered (sortKeys a) = numbered (sortKeys b) := same_iff _ _

@[simp] theorem equal_self (a : Json) : equal a a = true := equal_iff.mpr rfl

theorem equal_symm {a b : Json} (h : equal a b = true) : equal b a = true :=
  equal_iff.mpr (equal_iff.mp h).symm

theorem equal_trans {a b c : Json} (h : equal a b = true) (h' : equal b c = true) :
    equal a c = true := equal_iff.mpr ((equal_iff.mp h).trans (equal_iff.mp h'))

/-! ## Scalars -/

theorem eq_str_of_equal {s : Text} {b : Json} (h : equal (.str s) b = true) : b = .str s := by
  rw [equal_iff] at h
  cases b <;> simp_all [sortKeys, numbered]

theorem eq_null_of_equal {b : Json} (h : equal .null b = true) : b = .null := by
  rw [equal_iff] at h
  cases b <;> simp_all [sortKeys, numbered]

theorem eq_obj_of_equal {ms : List (Text × Json)} {b : Json} (h : equal (.obj ms) b = true) :
    ∃ ms', b = .obj ms' := by
  rw [equal_iff] at h
  cases b <;> simp_all [sortKeys, numbered]

theorem eq_of_equal_int {n m : ℤ} (h : equal (.int n) (.int m) = true) : n = m := by
  rw [equal_iff] at h
  simpa [sortKeys, numbered] using h

/-! ## Members -/

/-- The last member of a key is what it reads. -/
theorem Json.get_eq_getLast? (ms : List (Text × Json)) (k : Text) :
    Json.get ms k = ((ms.filter fun m => m.1 = k).getLast?.map Prod.snd).getD .null := by
  have hlookup : ∀ l : List (Text × Json),
      l.lookup k = (l.filter fun m => m.1 = k).head?.map Prod.snd := by
    intro l
    induction l with
    | nil => rfl
    | cons m l ih =>
      by_cases hm : m.1 = k
      · have hb : (k == m.1) = true := by simp [hm]
        rw [List.filter_cons_of_pos (by simpa using hm), List.lookup, hb]
        rfl
      · have hb : (k == m.1) = false := by simpa using Ne.symm hm
        rw [List.filter_cons_of_neg (by simpa using hm), List.lookup, hb]
        exact ih
  rw [Json.get, hlookup, List.filter_reverse, List.head?_reverse]

/-- A map of the values that keeps `null` maps what a key reads. -/
theorem Json.get_map (f : Json → Json) (hf : f .null = .null) (ms : List (Text × Json)) (k : Text) :
    Json.get (ms.map fun m => (m.1, f m.2)) k = f (Json.get ms k) := by
  rw [Json.get_eq_getLast?, Json.get_eq_getLast?, List.filter_map, List.getLast?_map]
  have hfilter : (fun m : Text × Json => decide (m.1 = k)) ∘ (fun m : Text × Json => (m.1, f m.2)) =
      fun m => decide (m.1 = k) := rfl
  rw [hfilter]
  cases (ms.filter fun m => decide (m.1 = k)).getLast? with
  | none => simp [hf]
  | some m => rfl

/-- Sorting by keys is stable: a key reads what it read. -/
theorem Json.get_insertionSort (ms : List (Text × Json)) (k : Text) :
    Json.get (ms.insertionSort fun a b => a.1 ≤ b.1) k = Json.get ms k := by
  have hpairwise : (ms.filter fun m => m.1 = k).Pairwise fun a b => a.1 ≤ b.1 := by
    refine List.pairwise_iff_forall_sublist.mpr fun {a b} hab => ?_
    have ha := List.of_mem_filter (hab.subset (by simp : a ∈ [a, b]))
    have hb := List.of_mem_filter (hab.subset (by simp : b ∈ [a, b]))
    simp only [decide_eq_true_eq] at ha hb
    rw [ha, hb]
  have hsub := (List.sublist_insertionSort hpairwise List.filter_sublist).filter fun m => m.1 = k
  rw [List.filter_filter] at hsub
  have hlength := ((List.perm_insertionSort (fun a b : Text × Json => a.1 ≤ b.1) ms).filter
    fun m => m.1 = k).length_eq
  have hfilter : (ms.filter fun m => m.1 = k) =
      (ms.insertionSort fun a b => a.1 ≤ b.1).filter fun m => m.1 = k := by
    refine List.Sublist.eq_of_length ?_ hlength.symm
    simpa using hsub
  rw [Json.get_eq_getLast?, ← hfilter, ← Json.get_eq_getLast?]

theorem numberedMembers_eq_map (ms : List (Text × Json)) :
    numberedMembers ms = ms.map fun m => (m.1, numbered m.2) := by
  induction ms with
  | nil => rfl
  | cons m ms ih => rw [numberedMembers, List.map_cons, ih]

/-- Equal objects have equal members. -/
theorem equal_get {as bs : List (Text × Json)} (h : equal (.obj as) (.obj bs) = true) (k : Text) :
    equal (Json.get as k) (Json.get bs k) = true := by
  have hread : ∀ ms : List (Text × Json), Json.get (numberedMembers
      ((sortKeysMembers ms).insertionSort fun a b => a.1 ≤ b.1)) k =
      numbered (sortKeys (Json.get ms k)) := by
    intro ms
    rw [numberedMembers_eq_map, Json.get_map numbered (by rw [numbered]), Json.get_insertionSort,
      sortKeysMembers_eq_map, Json.get_map sortKeys (by rw [sortKeys])]
  rw [equal_iff, sortKeys, sortKeys, numbered, numbered, Json.obj.injEq] at h
  rw [equal_iff, ← hread, ← hread, h]

end Python
end Neocortex
