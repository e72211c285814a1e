import Mathlib.Data.List.Basic
import Mathlib.Data.List.TakeWhile

/-!
# Maximal runs

The maximal runs of a list's elements with some property, each with the place where it begins.  A
list is read from the left with the run that is still open; what is read of a list in two parts is
what is read of the whole, with the open run carried over.

* `scan`, `runs`: the runs that are closed inside the list and the one that is open at its end;
* `scan_append`: a list in two parts;
* `scan_some_hit`, `scan_some_miss`: what a carried run does to the runs of the rest;
* `lt_of_mem_closed`, `stop_of_open`: where the runs of a part end;
* `mem_runs_iff`: the runs are the stretches that cannot be made longer.
-/

namespace Neocortex

variable {α : Type*}

/-- A run: where it begins, and its elements. -/
structure Run (α : Type*) where
  start : ℕ
  elems : List α

/-- Behind the last element of a run. -/
def Run.stop (r : Run α) : ℕ := r.start + r.elems.length

namespace Runs

/-- The open run with one more element, which stands at `pos`. -/
def extend (carried : Option (Run α)) (pos : ℕ) (a : α) : Run α :=
  match carried with
  | none => ⟨pos, [a]⟩
  | some r => ⟨r.start, r.elems ++ [a]⟩

/-- The runs that are closed in the list, whose first element stands at `pos`, and the one that is
open at its end. -/
def scan (p : α → Bool) (carried : Option (Run α)) (pos : ℕ) :
    List α → List (Run α) × Option (Run α)
  | [] => ([], carried)
  | a :: l =>
    if p a then scan p (some (extend carried pos a)) (pos + 1) l
    else (carried.toList ++ (scan p none (pos + 1) l).1, (scan p none (pos + 1) l).2)

/-- The maximal runs of a list whose first element stands at `pos`. -/
def runs (p : α → Bool) (pos : ℕ) (l : List α) : List (Run α) :=
  (scan p none pos l).1 ++ (scan p none pos l).2.toList

variable {p : α → Bool}

/-- A list in two parts. -/
theorem scan_append (carried : Option (Run α)) (pos : ℕ) (l m : List α) :
    scan p carried pos (l ++ m) =
      ((scan p carried pos l).1 ++ (scan p (scan p carried pos l).2 (pos + l.length) m).1,
        (scan p (scan p carried pos l).2 (pos + l.length) m).2) := by
  induction l generalizing carried pos with
  | nil => simp [scan]
  | cons a l ih =>
    have hpos : pos + (a :: l).length = pos + 1 + l.length := by
      rw [List.length_cons]
      omega
    rw [List.cons_append, scan, scan, hpos]
    split_ifs
    · rw [ih]
    · rw [ih, List.append_assoc]

/-- What is closed, with the first run moved to `start` and begun by `front`. -/
def attach (start : ℕ) (front : List α) (s : List (Run α) × Option (Run α)) :
    List (Run α) × Option (Run α) :=
  match s.1 with
  | [] => ([], s.2.map fun r => ⟨start, front ++ r.elems⟩)
  | r :: rest => (⟨start, front ++ r.elems⟩ :: rest, s.2)

/-- What is read behind an open run depends on its beginning in the first run only. -/
theorem scan_carried (start start' pos : ℕ) (front elems l : List α) :
    scan p (some ⟨start, front ++ elems⟩) pos l =
      attach start front (scan p (some ⟨start', elems⟩) pos l) := by
  induction l generalizing elems pos with
  | nil => rfl
  | cons a l ih =>
    rw [scan, scan]
    split_ifs
    · simp only [extend]
      rw [List.append_assoc]
      exact ih (pos + 1) (elems ++ [a])
    · rfl

/-- A carried run goes on with an element. -/
theorem scan_some_hit {a : α} (ha : p a = true) (r : Run α) (pos : ℕ) (l : List α) :
    scan p (some r) pos (a :: l) = attach r.start r.elems (scan p none pos (a :: l)) := by
  rw [scan, scan, if_pos ha, if_pos ha]
  exact scan_carried r.start pos (pos + 1) r.elems [a] l

/-- A carried run is closed by any other element. -/
theorem scan_some_miss {a : α} (ha : p a = false) (r : Run α) (pos : ℕ) (l : List α) :
    scan p (some r) pos (a :: l) =
      (r :: (scan p none pos (a :: l)).1, (scan p none pos (a :: l)).2) := by
  rw [scan, scan, if_neg (by simp [ha]), if_neg (by simp [ha])]
  rfl

/-! ## Where runs begin and end -/

theorem extend_stop {carried : Option (Run α)} {pos : ℕ} (a : α)
    (h : ∀ r ∈ carried, r.stop = pos) : (extend carried pos a).stop = pos + 1 := by
  cases carried with
  | none => simp [extend, Run.stop]
  | some r =>
    have hr := h r rfl
    simp only [extend, Run.stop, List.length_append, List.length_cons, List.length_nil] at hr ⊢
    omega

/-- A run that is open at the end of the list ends there. -/
theorem stop_of_open {carried : Option (Run α)} {pos : ℕ} (l : List α)
    (h : ∀ r ∈ carried, r.stop = pos) :
    ∀ r ∈ (scan p carried pos l).2, r.stop = pos + l.length := by
  induction l generalizing carried pos with
  | nil => exact h
  | cons a l ih =>
    have hpos : pos + (a :: l).length = pos + 1 + l.length := by
      rw [List.length_cons]
      omega
    rw [scan, hpos]
    split_ifs
    · refine ih ?_
      rintro r ⟨⟩
      exact extend_stop a h
    · exact ih (by simp)

/-- A run that is closed in the list ends in front of its last element, or before. -/
theorem lt_of_mem_closed {carried : Option (Run α)} {pos : ℕ} (l : List α)
    (h : ∀ r ∈ carried, r.stop = pos) :
    ∀ r ∈ (scan p carried pos l).1, r.stop < pos + l.length := by
  induction l generalizing carried pos with
  | nil => simp [scan]
  | cons a l ih =>
    have hpos : pos + (a :: l).length = pos + 1 + l.length := by
      rw [List.length_cons]
      omega
    rw [scan, hpos]
    split_ifs
    · refine ih ?_
      rintro r ⟨⟩
      exact extend_stop a h
    · intro r hr
      rcases List.mem_append.mp hr with hr | hr
      · rw [h r (Option.mem_toList.mp hr)]
        omega
      · exact ih (by simp) r hr

/-- The first run of a list begins with the list just when its first element belongs to one. -/
theorem start_of_hit {a : α} (ha : p a = true) (pos : ℕ) (l : List α) :
    ∃ r rest, runs p pos (a :: l) = r :: rest ∧ r.start = pos := by
  have hkeep : ∀ (l : List α) (s : Run α) (pos : ℕ), ∃ r rest,
      (scan p (some s) pos l).1 ++ (scan p (some s) pos l).2.toList = r :: rest ∧
        r.start = s.start := by
    intro l
    induction l with
    | nil => exact fun s _ => ⟨s, [], rfl, rfl⟩
    | cons b l ih =>
      intro s pos
      rw [scan]
      split_ifs
      · exact ih _ _
      · exact ⟨s, _, rfl, rfl⟩
  rw [runs, scan, if_pos ha]
  exact hkeep l _ _

theorem lt_start_of_miss {a : α} (ha : p a = false) (pos : ℕ) (l : List α) :
    ∀ r ∈ runs p pos (a :: l), pos < r.start := by
  have hkeep : ∀ (l : List α) (carried : Option (Run α)) (pos : ℕ),
      (∀ s ∈ carried, pos ≤ s.start) → ∀ pos', pos ≤ pos' →
        ∀ r ∈ (scan p carried pos' l).1 ++ (scan p carried pos' l).2.toList, pos ≤ r.start := by
    intro l
    induction l with
    | nil =>
      intro carried pos h pos' _ r hr
      exact h r (by simpa [scan] using hr)
    | cons b l ih =>
      intro carried pos h pos' hp r hr
      rw [scan] at hr
      split_ifs at hr
      · refine ih _ pos ?_ (pos' + 1) (by omega) r hr
        rintro s ⟨⟩
        cases carried with
        | none => exact hp
        | some s => exact h s rfl
      · rw [List.append_assoc] at hr
        rcases List.mem_append.mp hr with hr | hr
        · exact h r (Option.mem_toList.mp hr)
        · exact ih none pos (by simp) (pos' + 1) (by omega) r hr
  intro r hr
  rw [runs, scan, if_neg (by simp [ha])] at hr
  exact hkeep l none (pos + 1) (by simp) (pos + 1) (Nat.le_refl _) r (by simpa using hr)

/-! ## MaximalRun stretches -/

/-- `r` is a stretch of the list, whose first element stands at `pos`, with the property in all its
elements, and in neither of the elements beside it. -/
def MaximalRun (p : α → Bool) (pos : ℕ) (l : List α) (r : Run α) : Prop :=
  ∃ before after, l = before ++ r.elems ++ after ∧ r.start = pos + before.length ∧ r.elems ≠ [] ∧
    (∀ a ∈ r.elems, p a = true) ∧ (∀ a ∈ before.getLast?, p a = false) ∧
    ∀ a ∈ after.head?, p a = false

theorem runs_miss {a : α} (ha : p a = false) (pos : ℕ) (l : List α) :
    runs p pos (a :: l) = runs p (pos + 1) l := by
  simp [runs, scan, ha]

theorem scan_stretch {w : List α} (hw : ∀ a ∈ w, p a = true) (r : Run α) (pos : ℕ) (l : List α) :
    scan p (some r) pos (w ++ l) = scan p (some ⟨r.start, r.elems ++ w⟩) (pos + w.length) l := by
  induction w generalizing r pos with
  | nil => simp
  | cons a w ih =>
    have hpos : pos + (a :: w).length = pos + 1 + w.length := by
      rw [List.length_cons]
      omega
    rw [List.cons_append, scan, if_pos (hw a List.mem_cons_self),
      ih (fun b hb => hw b (List.mem_cons_of_mem _ hb)), hpos]
    simp [extend]

theorem runs_stretch {w rest : List α} (hne : w ≠ []) (hw : ∀ a ∈ w, p a = true)
    (hrest : ∀ a ∈ rest.head?, p a = false) (pos : ℕ) :
    runs p pos (w ++ rest) = ⟨pos, w⟩ :: runs p (pos + w.length) rest := by
  obtain ⟨a, w, rfl⟩ := List.exists_cons_of_ne_nil hne
  have hfirst : scan p none pos (a :: w ++ rest) =
      scan p (some ⟨pos, a :: w⟩) (pos + (a :: w).length) rest := by
    have hpos : pos + (a :: w).length = pos + 1 + w.length := by
      rw [List.length_cons]
      omega
    rw [List.cons_append, scan, if_pos (hw a List.mem_cons_self),
      scan_stretch fun b hb => hw b (List.mem_cons_of_mem _ hb), hpos]
    rfl
  rw [runs, hfirst, runs]
  cases rest with
  | nil => rfl
  | cons b rest =>
    rw [scan_some_miss (hrest b rfl)]
    rfl

/-- The stretch in front of the first element without the property. -/
theorem maximal_cons_miss {a : α} (ha : p a = false) (pos : ℕ) (l : List α) (r : Run α) :
    MaximalRun p pos (a :: l) r ↔ MaximalRun p (pos + 1) l r := by
  constructor
  · rintro ⟨before, after, hl, hstart, hne, hall, hbefore, hafter⟩
    cases before with
    | nil =>
      obtain ⟨b, w, hw⟩ := List.exists_cons_of_ne_nil hne
      rw [hw, List.nil_append, List.cons_append, List.cons.injEq] at hl
      have hb := hall b (by rw [hw]; exact List.mem_cons_self)
      rw [← hl.1, ha] at hb
      exact absurd hb Bool.false_ne_true
    | cons b before =>
      rw [List.cons_append, List.cons_append, List.cons.injEq] at hl
      refine ⟨before, after, hl.2, ?_, hne, hall, ?_, hafter⟩
      · rw [hstart, List.length_cons]
        omega
      · intro c hc
        refine hbefore c ?_
        rw [List.getLast?_cons, Option.mem_def.mp hc]
        rfl
  · rintro ⟨before, after, rfl, hstart, hne, hall, hbefore, hafter⟩
    refine ⟨a :: before, after, rfl, ?_, hne, hall, ?_, hafter⟩
    · rw [hstart, List.length_cons]
      omega
    · intro c hc
      cases before with
      | nil =>
        obtain rfl : a = c := by simpa using hc
        exact ha
      | cons b before =>
        rw [List.getLast?_cons_cons] at hc
        exact hbefore c hc

theorem maximal_stretch {w rest : List α} (hne : w ≠ []) (hw : ∀ a ∈ w, p a = true)
    (hrest : ∀ a ∈ rest.head?, p a = false) (pos : ℕ) (r : Run α) :
    MaximalRun p pos (w ++ rest) r ↔ r = ⟨pos, w⟩ ∨ MaximalRun p (pos + w.length) rest r := by
  constructor
  · rintro ⟨before, after, hl, hstart, hrne, hall, hbefore, hafter⟩
    rw [List.append_assoc] at hl
    rcases List.append_eq_append_iff.mp hl with ⟨s, rfl, hs⟩ | ⟨s, rfl, hs⟩
    · -- the stretch lies behind `w`
      right
      have hsne : s ≠ [] := by
        rintro rfl
        rw [List.append_nil, List.getLast?_eq_some_getLast hne] at hbefore
        have hlast := hbefore _ rfl
        rw [hw _ (List.getLast_mem hne)] at hlast
        exact absurd hlast.symm Bool.false_ne_true
      refine ⟨s, after, by rw [hs, List.append_assoc], ?_, hrne, hall, ?_, hafter⟩
      · rw [hstart, List.length_append]
        omega
      · rwa [List.getLast?_append_of_ne_nil _ hsne] at hbefore
    · -- the stretch begins in `w`, so it is `w`
      left
      obtain rfl : before = [] := by
        by_contra hbne
        rw [List.getLast?_eq_some_getLast hbne] at hbefore
        have hlast := hbefore _ rfl
        rw [hw _ (List.mem_append_left _ (List.getLast_mem hbne))] at hlast
        exact absurd hlast.symm Bool.false_ne_true
      rw [List.nil_append] at hw hne ⊢
      have helems : r.elems = s := by
        rcases List.append_eq_append_iff.mp hs with ⟨t, rfl, ht⟩ | ⟨t, ht, rfl⟩
        · cases t with
          | nil => rw [List.append_nil]
          | cons b t =>
            have hb := hafter b (by rw [ht]; rfl)
            rw [hw b (by simp)] at hb
            exact absurd hb.symm Bool.false_ne_true
        · cases t with
          | nil => rw [ht, List.append_nil]
          | cons b t =>
            have hb := hrest b rfl
            rw [hall b (by rw [ht]; simp)] at hb
            exact absurd hb.symm Bool.false_ne_true
      cases r
      simp_all
  · rintro (rfl | ⟨before, after, rfl, hstart, hrne, hall, hbefore, hafter⟩)
    · exact ⟨[], rest, by simp, rfl, hne, hw, by simp, hrest⟩
    · refine ⟨w ++ before, after, by simp, ?_, hrne, hall, ?_, hafter⟩
      · rw [hstart, List.length_append]
        omega
      · intro c hc
        cases before with
        | nil =>
          -- the stretch would go on with the one in front of it
          obtain ⟨b, v, hv⟩ := List.exists_cons_of_ne_nil hrne
          have hb := hrest b (by rw [hv]; rfl)
          rw [hall b (by rw [hv]; exact List.mem_cons_self)] at hb
          exact absurd hb.symm Bool.false_ne_true
        | cons b before =>
          rw [List.getLast?_append_of_ne_nil _ (List.cons_ne_nil b before)] at hc
          exact hbefore c hc

/-- A list with the property at its front: its first run, and the rest. -/
theorem exists_cut {a : α} (ha : p a = true) (l : List α) :
    ∃ w rest, a :: l = w ++ rest ∧ w ≠ [] ∧ (∀ b ∈ w, p b = true) ∧
      ∀ b ∈ rest.head?, p b = false := by
  refine ⟨(a :: l).takeWhile p, (a :: l).dropWhile p, List.takeWhile_append_dropWhile.symm,
    by simp [ha], fun b hb => List.mem_takeWhile_imp hb, ?_⟩
  intro b hb
  have h := List.head?_dropWhile_not p (a :: l)
  rw [Option.mem_def.mp hb] at h
  simpa using h

/-- The runs of a list are its maximal stretches. -/
theorem mem_runs_iff (pos : ℕ) (l : List α) (r : Run α) :
    r ∈ runs p pos l ↔ MaximalRun p pos l r := by
  induction hn : l.length using Nat.strongRecOn generalizing pos l with
  | ind n ih =>
    cases l with
    | nil =>
      constructor
      · simp [runs, scan]
      · rintro ⟨before, after, hl, -, hne, -⟩
        simp [hne] at hl
    | cons a l =>
      cases ha : p a with
      | false =>
        rw [runs_miss ha, maximal_cons_miss ha]
        exact ih l.length (by rw [← hn, List.length_cons]; omega) (pos + 1) l rfl
      | true =>
        obtain ⟨w, rest, hcut, hne, hw, hrest⟩ := exists_cut ha l
        have hlt : rest.length < n := by
          have hpos := List.length_pos_iff.mpr hne
          rw [← hn, hcut, List.length_append]
          omega
        rw [hcut, runs_stretch hne hw hrest, maximal_stretch hne hw hrest, List.mem_cons,
          ih _ hlt _ _ rfl]

/-- A run ends in front of the next. -/
theorem runs_pairwise (pos : ℕ) (l : List α) :
    (runs p pos l).Pairwise fun r r' => r.stop < r'.start := by
  induction hn : l.length using Nat.strongRecOn generalizing pos l with
  | ind n ih =>
    cases l with
    | nil => exact List.Pairwise.nil
    | cons a l =>
      cases ha : p a with
      | false =>
        rw [runs_miss ha]
        exact ih l.length (by rw [← hn, List.length_cons]; omega) (pos + 1) l rfl
      | true =>
        obtain ⟨w, rest, hcut, hne, hw, hrest⟩ := exists_cut ha l
        have hlt : rest.length < n := by
          have hpos := List.length_pos_iff.mpr hne
          rw [← hn, hcut, List.length_append]
          omega
        rw [hcut, runs_stretch hne hw hrest]
        refine List.pairwise_cons.mpr ⟨?_, ih _ hlt _ _ rfl⟩
        cases rest with
        | nil => simp [runs, scan]
        | cons b rest => exact lt_start_of_miss (hrest b rfl) _ rest

end Runs
end Neocortex
