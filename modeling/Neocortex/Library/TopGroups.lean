import Mathlib

/-!
# The best items of each group

Items come with a group and a key; smaller keys are better.  A stream of items is cut to the best
item of each of the `limit` best groups, with a dictionary of the items that are retained and a heap
that has the worst of them first and whose outdated entries are dropped when they come up.

* `representatives`: the items that no other one of their group precedes;
* `topGroups`: the best representatives in their order;
* `retain`: a step of the stream;
* `foldlM_retain`: the stream retains `topGroups`;
* `mem_topGroups_of_subset`: what is on top stays on top of a part.
-/

namespace Neocortex
namespace TopGroups

section Lists

variable {α : Type}

theorem mem_dropWhile {p : α → Bool} {a : α} (ha : p a = false) :
    ∀ {l : List α}, a ∈ l → a ∈ l.dropWhile p
  | b :: l, hmem => by
    rw [List.dropWhile_cons]
    split_ifs with hb
    · rcases List.mem_cons.mp hmem with rfl | hmem
      · rw [ha] at hb
        exact absurd hb Bool.false_ne_true
      · exact mem_dropWhile ha hmem
    · exact hmem

theorem head_dropWhile {p : α → Bool} {a : α} {rest : List α} :
    ∀ {l : List α}, l.dropWhile p = a :: rest → p a = false
  | b :: l, h => by
    rw [List.dropWhile_cons] at h
    split_ifs at h with hb
    · exact head_dropWhile h
    · obtain ⟨rfl, -⟩ := List.cons.inj h
      exact Bool.eq_false_iff.mpr hb

end Lists

section Keys

variable {α ω : Type} {key : α → ω}

theorem eq_of_key {l : List α} (h : (l.map key).Nodup) {a b : α} (ha : a ∈ l) (hb : b ∈ l)
    (hkey : key a = key b) : a = b := List.inj_on_of_nodup_map h ha hb hkey

theorem nodup_of_keys {l : List α} (h : (l.map key).Nodup) : l.Nodup := List.Nodup.of_map key h

variable [LinearOrder ω]

/-- A list of distinct keys, sorted: the keys increase strictly. -/
theorem sorted_keys {l : List α} (h : (l.map key).Nodup) :
    (l.insertionSort fun a b => key a ≤ key b).Pairwise fun a b => key a < key b := by
  have hperm := List.perm_insertionSort (fun a b => key a ≤ key b) l
  have hdistinct : (l.insertionSort fun a b => key a ≤ key b).Pairwise fun a b => key a ≠ key b :=
    List.pairwise_map.mp ((hperm.map key).nodup_iff.mpr h)
  have hsorted : (l.insertionSort fun a b => key a ≤ key b).Pairwise fun a b => key a ≤ key b :=
    List.pairwise_insertionSort _ l
  exact hsorted.imp₂ (fun _ _ hle hne => lt_of_le_of_ne hle hne) hdistinct

theorem eq_of_sorted {l m : List α} (hl : l.Pairwise fun a b => key a < key b)
    (hm : m.Pairwise fun a b => key a < key b) (h : l.Perm m) : l = m := by
  refine h.eq_of_pairwise ?_ hl hm
  intro a b _ _ hab hba
  exact absurd hab (not_lt.mpr hba.le)

/-- In a sorted list, the first items are those with few better ones. -/
theorem mem_take_iff {a : α} : ∀ {l : List α} {n : ℕ}, (l.Pairwise fun a b => key a < key b) →
    (a ∈ l.take n ↔ a ∈ l ∧ l.countP (fun b => key b < key a) < n)
  | [], n, _ => by simp
  | b :: l, 0, _ => by simp
  | b :: l, n + 1, h => by
    obtain ⟨hhead, htail⟩ := List.pairwise_cons.mp h
    rw [List.take_succ_cons, List.mem_cons, List.mem_cons, mem_take_iff htail, List.countP_cons]
    by_cases hab : a = b
    · have hnone : l.countP (fun c => key c < key b) = 0 := by
        rw [List.countP_eq_zero]
        intro c hc
        simpa using (hhead c hc).le
      simp [hab, hnone]
    · constructor
      · rintro (heq | ⟨ha, hcount⟩)
        · exact absurd heq hab
        · refine ⟨Or.inr ha, ?_⟩
          rw [if_pos (decide_eq_true (hhead a ha))]
          omega
      · rintro ⟨heq | ha, hcount⟩
        · exact absurd heq hab
        · rw [if_pos (decide_eq_true (hhead a ha))] at hcount
          exact Or.inr ⟨ha, by omega⟩

end Keys

section Groups

variable {α γ ω : Type} [DecidableEq γ] [LinearOrder ω] {group : α → γ} {key : α → ω}

/-! ## The best representatives -/

/-- The items that no other one of their group precedes. -/
def representatives (group : α → γ) (key : α → ω) (l : List α) : List α :=
  l.filter fun a => ∀ b ∈ l, group b = group a → key a ≤ key b

/-- The best representatives in their order. -/
def topGroups (group : α → γ) (key : α → ω) (limit : ℕ) (l : List α) : List α :=
  ((representatives group key l).insertionSort fun a b => key a ≤ key b).take limit

theorem mem_representatives {l : List α} {a : α} : a ∈ representatives group key l ↔
    a ∈ l ∧ ∀ b ∈ l, group b = group a → key a ≤ key b := by
  rw [representatives, List.mem_filter, decide_eq_true_eq]

/-- A group has one representative. -/
theorem representatives_unique {l : List α} (h : (l.map key).Nodup) {a b : α}
    (ha : a ∈ representatives group key l) (hb : b ∈ representatives group key l)
    (hgroup : group a = group b) : a = b := by
  obtain ⟨hal, hamin⟩ := mem_representatives.mp ha
  obtain ⟨hbl, hbmin⟩ := mem_representatives.mp hb
  exact eq_of_key h hal hbl (le_antisymm (hamin b hbl hgroup.symm) (hbmin a hal hgroup))

theorem exists_representative {l : List α} {a : α} (ha : a ∈ l) :
    ∃ r ∈ representatives group key l, group r = group a ∧ key r ≤ key a := by
  have hmem : a ∈ l.filter fun b => group b = group a :=
    List.mem_filter.mpr ⟨ha, decide_eq_true rfl⟩
  cases hmin : (l.filter fun b => group b = group a).argmin key with
  | none =>
    rw [List.argmin_eq_none.mp hmin] at hmem
    exact absurd hmem List.not_mem_nil
  | some r =>
    obtain ⟨hr, hgroup⟩ := List.mem_filter.mp (List.argmin_mem hmin)
    rw [decide_eq_true_eq] at hgroup
    refine ⟨r, mem_representatives.mpr ⟨hr, ?_⟩, hgroup, List.le_of_mem_argmin hmem hmin⟩
    intro b hb hsame
    exact List.le_of_mem_argmin
      (List.mem_filter.mpr ⟨hb, decide_eq_true (hsame.trans hgroup)⟩) hmin

theorem nodup_representatives_keys {l : List α} (h : (l.map key).Nodup) :
    ((representatives group key l).map key).Nodup := h.sublist (List.filter_sublist.map key)

/-- An item is on top when it represents its group and few representatives are better. -/
theorem mem_topGroups_iff {l : List α} (h : (l.map key).Nodup) {limit : ℕ} {a : α} :
    a ∈ topGroups group key limit l ↔ a ∈ representatives group key l ∧
      (representatives group key l).countP (fun b => key b < key a) < limit := by
  have hperm := List.perm_insertionSort (fun a b => key a ≤ key b) (representatives group key l)
  rw [topGroups, mem_take_iff (sorted_keys (nodup_representatives_keys h)), hperm.mem_iff,
    hperm.countP_eq]

/-- What is on top of a list is on top of every part that has it. -/
theorem mem_topGroups_of_subset {l m : List α} (h : (l.map key).Nodup) (hm : (m.map key).Nodup)
    (hsub : ∀ a ∈ m, a ∈ l) {limit : ℕ} {a : α} (ha : a ∈ topGroups group key limit l)
    (ham : a ∈ m) : a ∈ topGroups group key limit m := by
  rw [mem_topGroups_iff h] at ha
  obtain ⟨hrep, hcount⟩ := ha
  obtain ⟨-, hmin⟩ := mem_representatives.mp hrep
  rw [mem_topGroups_iff hm]
  refine ⟨mem_representatives.mpr ⟨ham, fun b hb => hmin b (hsub b hb)⟩, lt_of_le_of_lt ?_ hcount⟩
  rw [List.countP_eq_length_filter, List.countP_eq_length_filter]
  -- a better representative of the part has a better one of its group in the list
  have hgroups : (((representatives group key m).filter fun b => key b < key a).map group).Subperm
      (((representatives group key l).filter fun b => key b < key a).map group) := by
    refine List.subperm_of_subset ?_ ?_
    · refine (List.nodup_map_iff_inj_on (((nodup_of_keys hm).filter _).filter _)).mpr ?_
      intro b hb c hc hsame
      exact representatives_unique hm (List.mem_filter.mp hb).1 (List.mem_filter.mp hc).1 hsame
    · intro g hg
      obtain ⟨b, hb, rfl⟩ := List.mem_map.mp hg
      obtain ⟨hbrep, hbetter⟩ := List.mem_filter.mp hb
      rw [decide_eq_true_eq] at hbetter
      obtain ⟨r, hr, hgroup, hle⟩ : ∃ r ∈ representatives group key l, group r = group b ∧
          key r ≤ key b := exists_representative (hsub b (mem_representatives.mp hbrep).1)
      rw [← hgroup]
      exact List.mem_map_of_mem
        (List.mem_filter.mpr ⟨hr, decide_eq_true (lt_of_le_of_lt hle hbetter)⟩)
  have hlength := hgroups.length_le
  rwa [List.length_map, List.length_map] at hlength

/-- A representative stays one next to a worse item. -/
theorem mem_representatives_append {seen : List α} {a b : α}
    (hb : b ∈ representatives group key seen) (ha : group a = group b → key b ≤ key a) :
    b ∈ representatives group key (seen ++ [a]) := by
  obtain ⟨hmem, hmin⟩ := mem_representatives.mp hb
  refine mem_representatives.mpr ⟨List.mem_append_left _ hmem, ?_⟩
  intro c hc hsame
  rcases List.mem_append.mp hc with hc | hc
  · exact hmin c hc hsame
  · rw [List.mem_singleton.mp hc] at hsame ⊢
    exact ha hsame

theorem mem_representatives_last {seen : List α} {a : α}
    (h : ∀ b ∈ seen, group b = group a → key a ≤ key b) :
    a ∈ representatives group key (seen ++ [a]) := by
  refine mem_representatives.mpr ⟨by simp, ?_⟩
  intro c hc hsame
  rcases List.mem_append.mp hc with hc | hc
  · exact h c hc hsame
  · rw [List.mem_singleton.mp hc]

end Groups

section Stream

variable {α γ ω : Type} [DecidableEq γ] [LinearOrder ω]

/-! ## The stream -/

/-- The items that are retained, one for each group, and a heap of them with its outdated entries,
worst first. -/
structure Retained (α : Type) where
  best : List α := []
  heap : List α := []

/-- The retained item of a group. -/
def Retained.get (group : α → γ) (s : Retained α) (g : γ) : Option α :=
  s.best.find? fun b => group b = g

/-- A heap with one more item. -/
def push (key : α → ω) (heap : List α) (a : α) : List α :=
  heap.orderedInsert (fun b c => key c ≤ key b) a

/-- A long heap is made again. -/
def Retained.compact (key : α → ω) (bound : ℕ) (s : Retained α) : Retained α :=
  if bound < s.heap.length then { s with heap := s.best.insertionSort fun b c => key c ≤ key b }
  else s

variable {group : α → γ} {key : α → ω}

/-- What is retained of the items `seen`. -/
structure Holds (group : α → γ) (key : α → ω) (limit : ℕ) (seen : List α) (s : Retained α) :
    Prop where
  groups : (s.best.map group).Nodup
  rep : ∀ b ∈ s.best, b ∈ representatives group key seen
  sorted : s.heap.Pairwise fun b c => key c ≤ key b
  live : ∀ b ∈ s.best, b ∈ s.heap
  length_le : s.best.length ≤ limit
  /-- The items of the other groups are worse than all that is retained. -/
  others : ∀ a ∈ seen, (∀ b ∈ s.best, group b ≠ group a) →
    s.best.length = limit ∧ ∀ b ∈ s.best, key b < key a

theorem get_eq_none {s : Retained α} {g : γ} :
    s.get group g = none ↔ ∀ b ∈ s.best, group b ≠ g := by
  simp [Retained.get]

theorem get_eq_some {s : Retained α} (h : (s.best.map group).Nodup) {g : γ} {a : α} :
    s.get group g = some a ↔ a ∈ s.best ∧ group a = g := by
  constructor
  · intro hget
    exact ⟨List.mem_of_find?_eq_some hget, by simpa using List.find?_some hget⟩
  · rintro ⟨ha, rfl⟩
    cases hget : s.get group (group a) with
    | none => exact absurd rfl (get_eq_none.mp hget a ha)
    | some b =>
      have hb : b ∈ s.best := List.mem_of_find?_eq_some hget
      have hgroup : group b = group a := by simpa using List.find?_some hget
      rw [List.inj_on_of_nodup_map h hb ha hgroup]

theorem mem_push {heap : List α} {a b : α} : b ∈ push key heap a ↔ b = a ∨ b ∈ heap :=
  List.mem_orderedInsert _

theorem sorted_push {heap : List α} (h : heap.Pairwise fun b c => key c ≤ key b) (a : α) :
    (push key heap a).Pairwise fun b c => key c ≤ key b := List.Pairwise.orderedInsert a heap h

theorem holds_nil (group : α → γ) (key : α → ω) (limit : ℕ) : Holds group key limit [] {} :=
  ⟨List.nodup_nil, by simp, List.Pairwise.nil, by simp, Nat.zero_le _, by simp⟩

theorem Holds.compact {limit : ℕ} {seen : List α} {s : Retained α}
    (h : Holds group key limit seen s) (bound : ℕ) :
    Holds group key limit seen (s.compact key bound) := by
  unfold Retained.compact
  split_ifs
  · exact ⟨h.groups, h.rep, List.pairwise_insertionSort _ _,
      fun b hb => (List.mem_insertionSort _).mpr hb, h.length_le, h.others⟩
  · exact h

/-- A better item of a group that is retained. -/
theorem Holds.replace {limit : ℕ} {seen : List α} {s : Retained α}
    (h : Holds group key limit seen s) {a prior : α} (hprior : prior ∈ s.best)
    (hgroup : group prior = group a) (hbetter : key a < key prior) :
    Holds group key limit (seen ++ [a])
      ⟨s.best.map fun b => if group b = group a then a else b, push key s.heap a⟩ := by
  have hgroups : (s.best.map fun b => if group b = group a then a else b).map group =
      s.best.map group := by
    rw [List.map_map]
    refine List.map_congr_left fun b _ => ?_
    rw [Function.comp_apply]
    split_ifs with hb
    · exact hb.symm
    · rfl
  have hmem : ∀ b, b ∈ (s.best.map fun b => if group b = group a then a else b) →
      b = a ∨ b ∈ s.best ∧ group b ≠ group a := by
    intro b hb
    obtain ⟨old, hold, rfl⟩ := List.mem_map.mp hb
    split_ifs with hsame
    · exact Or.inl rfl
    · exact Or.inr ⟨hold, hsame⟩
  have hmin := (mem_representatives.mp (h.rep prior hprior)).2
  refine ⟨hgroups ▸ h.groups, ?_, sorted_push h.sorted a, ?_, ?_, ?_⟩
  · intro b hb
    rcases hmem b hb with rfl | ⟨hold, hother⟩
    · exact mem_representatives_last fun c hc hsame =>
        hbetter.le.trans (hmin c hc (hsame.trans hgroup.symm))
    · exact mem_representatives_append (h.rep b hold) fun hsame => absurd hsame.symm hother
  · intro b hb
    rcases hmem b hb with rfl | ⟨hold, -⟩
    · exact mem_push.mpr (Or.inl rfl)
    · exact mem_push.mpr (Or.inr (h.live b hold))
  · rw [List.length_map]
    exact h.length_le
  · intro c hc hother
    have hold : ∀ b ∈ s.best, group b ≠ group c := by
      intro b hb
      have hb' : group b ∈ (s.best.map fun b => if group b = group a then a else b).map group := by
        rw [hgroups]
        exact List.mem_map_of_mem hb
      obtain ⟨b', hmem', hsame⟩ := List.mem_map.mp hb'
      rw [← hsame]
      exact hother b' hmem'
    rcases List.mem_append.mp hc with hc | hc
    · obtain ⟨hlength, hworse⟩ := h.others c hc hold
      refine ⟨by rw [List.length_map]; exact hlength, ?_⟩
      intro b hb
      rcases hmem b hb with rfl | ⟨hb, -⟩
      · exact hbetter.trans (hworse prior hprior)
      · exact hworse b hb
    · rw [List.mem_singleton.mp hc] at hold
      exact absurd hgroup (hold prior hprior)

/-- An item that is no better than the retained one of its group. -/
theorem Holds.skip {limit : ℕ} {seen : List α} {s : Retained α}
    (h : Holds group key limit seen s) {a prior : α} (hprior : prior ∈ s.best)
    (hgroup : group prior = group a) (hworse : key prior ≤ key a) :
    Holds group key limit (seen ++ [a]) s := by
  refine ⟨h.groups, ?_, h.sorted, h.live, h.length_le, ?_⟩
  · intro b hb
    refine mem_representatives_append (h.rep b hb) fun hsame => ?_
    have hsame' : b = prior :=
      List.inj_on_of_nodup_map h.groups hb hprior (hsame.symm.trans hgroup.symm)
    rw [hsame']
    exact hworse
  · intro c hc hother
    rcases List.mem_append.mp hc with hc | hc
    · exact h.others c hc hother
    · rw [List.mem_singleton.mp hc] at hother
      exact absurd hgroup (hother prior hprior)

/-- An item of a new group while there is room. -/
theorem Holds.insert {limit : ℕ} {seen : List α} {s : Retained α}
    (h : Holds group key limit seen s) {a : α} (hnew : ∀ b ∈ s.best, group b ≠ group a)
    (hroom : s.best.length < limit) :
    Holds group key limit (seen ++ [a]) ⟨s.best ++ [a], push key s.heap a⟩ := by
  -- with room left, every group is retained
  have hall : ∀ c ∈ seen, ∃ b ∈ s.best, group b = group c := by
    intro c hc
    by_contra hnone
    exact hroom.ne (h.others c hc fun b hb hsame => hnone ⟨b, hb, hsame⟩).1
  refine ⟨?_, ?_, sorted_push h.sorted a, ?_, ?_, ?_⟩
  · rw [List.map_append, List.nodup_append]
    refine ⟨h.groups, List.nodup_singleton _, ?_⟩
    intro g hg g' hg'
    obtain ⟨b, hb, rfl⟩ := List.mem_map.mp hg
    rw [List.map_singleton, List.mem_singleton] at hg'
    rw [hg']
    exact hnew b hb
  · intro b hb
    rcases List.mem_append.mp hb with hb | hb
    · exact mem_representatives_append (h.rep b hb) fun hsame => absurd hsame.symm (hnew b hb)
    · rw [List.mem_singleton.mp hb]
      refine mem_representatives_last fun c hc hsame => ?_
      obtain ⟨b', hb', hgroup⟩ := hall c hc
      exact absurd (hgroup.trans hsame) (hnew b' hb')
  · intro b hb
    rcases List.mem_append.mp hb with hb | hb
    · exact mem_push.mpr (Or.inr (h.live b hb))
    · exact mem_push.mpr (Or.inl (List.mem_singleton.mp hb))
  · rw [List.length_append, List.length_singleton]
    exact hroom
  · intro c hc hother
    rcases List.mem_append.mp hc with hc | hc
    · obtain ⟨b, hb, hgroup⟩ := hall c hc
      exact absurd hgroup (hother b (List.mem_append_left _ hb))
    · rw [List.mem_singleton.mp hc] at hother
      exact absurd rfl (hother a (by simp))

/-- A better item than the worst, which makes room for it. -/
theorem Holds.evict {limit : ℕ} {seen : List α} {s : Retained α}
    (h : Holds group key limit seen s) (hkeys : (seen.map key).Nodup) {a worst : α} {rest : List α}
    (hnew : ∀ b ∈ s.best, group b ≠ group a) (hfull : s.best.length = limit)
    (hworst : worst ∈ s.best) (hlive : ∀ b ∈ s.best, b ∈ worst :: rest)
    (hsorted : (worst :: rest).Pairwise fun b c => key c ≤ key b) (hbetter : key a < key worst) :
    Holds group key limit (seen ++ [a])
      ⟨(s.best.filter fun b => group b ≠ group worst) ++ [a], push key rest a⟩ := by
  have hmem : ∀ b, b ∈ (s.best.filter fun b => group b ≠ group worst) ++ [a] →
      b = a ∨ b ∈ s.best ∧ b ≠ worst := by
    intro b hb
    rcases List.mem_append.mp hb with hb | hb
    · obtain ⟨hold, hother⟩ := List.mem_filter.mp hb
      rw [decide_eq_true_eq] at hother
      refine Or.inr ⟨hold, ?_⟩
      rintro rfl
      exact hother rfl
    · exact Or.inl (List.mem_singleton.mp hb)
  have hkept : ∀ b ∈ s.best, b ≠ worst →
      b ∈ (s.best.filter fun b => group b ≠ group worst) ++ [a] := by
    intro b hb hne
    refine List.mem_append_left _ (List.mem_filter.mpr ⟨hb, decide_eq_true ?_⟩)
    intro hsame
    exact hne (List.inj_on_of_nodup_map h.groups hb hworst hsame)
  have hle : ∀ b ∈ s.best, key b ≤ key worst := by
    intro b hb
    rcases List.mem_cons.mp (hlive b hb) with rfl | hb
    · exact le_rfl
    · exact (List.pairwise_cons.mp hsorted).1 b hb
  have hseen : ∀ b ∈ s.best, b ∈ seen := fun b hb => (mem_representatives.mp (h.rep b hb)).1
  have hlt : ∀ b ∈ s.best, b ≠ worst → key b < key worst := fun b hb hne =>
    lt_of_le_of_ne (hle b hb) fun heq => hne (eq_of_key hkeys (hseen b hb) (hseen worst hworst) heq)
  have hlength : (s.best.filter fun b => group b ≠ group worst).length + 1 = s.best.length := by
    have hperm : s.best.Perm (worst :: s.best.filter fun b => group b ≠ group worst) := by
      have hbest : s.best.Nodup := List.Nodup.of_map group h.groups
      refine (List.perm_ext_iff_of_nodup hbest (List.nodup_cons.mpr ⟨?_, hbest.filter _⟩)).mpr ?_
      · simp
      · intro b
        rw [List.mem_cons, List.mem_filter, decide_eq_true_eq]
        constructor
        · intro hb
          by_cases hsame : group b = group worst
          · exact Or.inl (List.inj_on_of_nodup_map h.groups hb hworst hsame)
          · exact Or.inr ⟨hb, hsame⟩
        · rintro (rfl | ⟨hb, -⟩)
          · exact hworst
          · exact hb
    rw [hperm.length_eq, List.length_cons]
  refine ⟨?_, ?_, sorted_push (List.pairwise_cons.mp hsorted).2 a, ?_, ?_, ?_⟩
  · rw [List.map_append, List.nodup_append]
    refine ⟨h.groups.sublist (List.filter_sublist.map group), List.nodup_singleton _, ?_⟩
    intro g hg g' hg'
    obtain ⟨b, hb, rfl⟩ := List.mem_map.mp hg
    rw [List.map_singleton, List.mem_singleton] at hg'
    rw [hg']
    exact hnew b (List.mem_filter.mp hb).1
  · intro b hb
    rcases hmem b hb with rfl | ⟨hold, -⟩
    · refine mem_representatives_last fun c hc hsame => ?_
      have hother : ∀ b' ∈ s.best, group b' ≠ group c := fun b' hb' heq =>
        hnew b' hb' (heq.trans hsame)
      exact (hbetter.trans ((h.others c hc hother).2 worst hworst)).le
    · exact mem_representatives_append (h.rep b hold) fun hsame => absurd hsame.symm (hnew b hold)
  · intro b hb
    rcases hmem b hb with rfl | ⟨hold, hne⟩
    · exact mem_push.mpr (Or.inl rfl)
    · exact mem_push.mpr (Or.inr ((List.mem_cons.mp (hlive b hold)).resolve_left hne))
  · rw [List.length_append, List.length_singleton, hlength, hfull]
  · intro c hc hother
    rcases List.mem_append.mp hc with hc | hc
    · have hworse : key worst ≤ key c := by
        by_cases hgroup : group worst = group c
        · exact (mem_representatives.mp (h.rep worst hworst)).2 c hc hgroup.symm
        · refine ((h.others c hc fun b hb hsame => ?_).2 worst hworst).le
          refine hother b (hkept b hb ?_) hsame
          rintro rfl
          exact hgroup hsame
      refine ⟨by rw [List.length_append, List.length_singleton, hlength, hfull], ?_⟩
      intro b hb
      rcases hmem b hb with rfl | ⟨hold, hne⟩
      · exact hbetter.trans_le hworse
      · exact (hlt b hold hne).trans_le hworse
    · rw [List.mem_singleton.mp hc] at hother
      exact absurd rfl (hother a (by simp))

/-- An item that is worse than all that is retained. -/
theorem Holds.leave {limit : ℕ} {seen : List α} {s : Retained α}
    (h : Holds group key limit seen s) {a worst : α} {rest : List α}
    (hkeys : ((seen ++ [a]).map key).Nodup) (hnew : ∀ b ∈ s.best, group b ≠ group a)
    (hfull : s.best.length = limit) (hworst : worst ∈ s.best)
    (hlive : ∀ b ∈ s.best, b ∈ worst :: rest)
    (hsorted : (worst :: rest).Pairwise fun b c => key c ≤ key b) (hworse : key worst ≤ key a) :
    Holds group key limit (seen ++ [a]) { s with heap := worst :: rest } := by
  have hle : ∀ b ∈ s.best, key b ≤ key worst := by
    intro b hb
    rcases List.mem_cons.mp (hlive b hb) with rfl | hb
    · exact le_rfl
    · exact (List.pairwise_cons.mp hsorted).1 b hb
  refine ⟨h.groups, ?_, hsorted, hlive, h.length_le, ?_⟩
  · exact fun b hb => mem_representatives_append (h.rep b hb) fun hsame =>
      absurd hsame.symm (hnew b hb)
  · intro c hc hother
    rcases List.mem_append.mp hc with hc | hc
    · exact h.others c hc hother
    · rw [List.mem_singleton.mp hc]
      refine ⟨hfull, fun b hb => lt_of_le_of_ne ((hle b hb).trans hworse) fun heq => ?_⟩
      have hb' : b ∈ seen ++ [a] :=
        List.mem_append_left _ (mem_representatives.mp (h.rep b hb)).1
      exact hnew b hb (congrArg group (eq_of_key hkeys hb' (by simp) heq))

variable [DecidableEq α]

/-- The heap from its first entry on that is retained. -/
def Retained.live (group : α → γ) (s : Retained α) : List α :=
  s.heap.dropWhile fun a => s.get group (group a) ≠ some a

/-- A step of the stream, which fails when the heap has no retained entry. -/
def retainItem (group : α → γ) (key : α → ω) (limit : ℕ) (s : Retained α) (a : α) :
    Option (Retained α) :=
  match s.get group (group a) with
  | some prior =>
    if key a < key prior then
      some ⟨s.best.map fun b => if group b = group a then a else b, push key s.heap a⟩
    else some s
  | none =>
    if s.best.length < limit then some ⟨s.best ++ [a], push key s.heap a⟩
    else
      match s.live group with
      | [] => none
      | worst :: rest =>
        if key a < key worst then
          some ⟨(s.best.filter fun b => group b ≠ group worst) ++ [a], push key rest a⟩
        else some { s with heap := worst :: rest }

/-- A step, with the heap in its bound. -/
def retain (group : α → γ) (key : α → ω) (limit bound : ℕ) (s : Retained α) (a : α) :
    Option (Retained α) :=
  (retainItem group key limit s a).map (Retained.compact key bound)

/-- The heap always has a retained entry, and the first one is the worst. -/
theorem Holds.live_eq {limit : ℕ} {seen : List α} {s : Retained α}
    (h : Holds group key limit seen s) (hne : s.best ≠ []) :
    ∃ worst rest, s.live group = worst :: rest ∧ worst ∈ s.best ∧
      (∀ b ∈ s.best, b ∈ worst :: rest) ∧
      (worst :: rest).Pairwise fun b c => key c ≤ key b := by
  have hretained : ∀ b, (decide (s.get group (group b) ≠ some b) = false) ↔ b ∈ s.best := by
    intro b
    rw [decide_eq_false_iff_not, not_not, get_eq_some h.groups, and_iff_left rfl]
  have hmem : ∀ b ∈ s.best, b ∈ s.live group := fun b hb =>
    mem_dropWhile (p := fun a => decide (s.get group (group a) ≠ some a)) ((hretained b).mpr hb)
      (h.live b hb)
  cases hlive : s.live group with
  | nil =>
    obtain ⟨b, hb⟩ := List.exists_mem_of_ne_nil _ hne
    have := hmem b hb
    rw [hlive] at this
    exact absurd this List.not_mem_nil
  | cons worst rest =>
    refine ⟨worst, rest, rfl, (hretained worst).mp ?_, ?_, ?_⟩
    · exact head_dropWhile (p := fun a => decide (s.get group (group a) ≠ some a)) hlive
    · intro b hb
      rw [← hlive]
      exact hmem b hb
    · rw [← hlive]
      exact h.sorted.sublist (List.dropWhile_sublist _)

/-- A step retains the best of what was seen, and does not fail. -/
theorem Holds.retain {limit : ℕ} {seen : List α} {s : Retained α}
    (h : Holds group key limit seen s) (hlimit : 0 < limit) (bound : ℕ) {a : α}
    (hkeys : ((seen ++ [a]).map key).Nodup) :
    ∃ s', retain group key limit bound s a = some s' ∧ Holds group key limit (seen ++ [a]) s' := by
  have hseen : (seen.map key).Nodup := hkeys.sublist ((List.sublist_append_left _ _).map key)
  suffices hitem : ∃ s', retainItem group key limit s a = some s' ∧
      Holds group key limit (seen ++ [a]) s' by
    obtain ⟨s', hs', hholds⟩ := hitem
    exact ⟨s'.compact key bound, by rw [TopGroups.retain, hs', Option.map_some], hholds.compact bound⟩
  unfold retainItem
  cases hget : s.get group (group a) with
  | some prior =>
    obtain ⟨hprior, hgroup⟩ := (get_eq_some h.groups).mp hget
    dsimp only
    split_ifs with hbetter
    · exact ⟨_, rfl, h.replace hprior hgroup hbetter⟩
    · exact ⟨_, rfl, h.skip hprior hgroup (not_lt.mp hbetter)⟩
  | none =>
    have hnew := get_eq_none.mp hget
    dsimp only
    split_ifs with hroom
    · exact ⟨_, rfl, h.insert hnew hroom⟩
    · have hfull : s.best.length = limit := le_antisymm h.length_le (not_lt.mp hroom)
      have hne : s.best ≠ [] := by
        rintro hnil
        rw [hnil, List.length_nil] at hfull
        exact hlimit.ne hfull
      obtain ⟨worst, rest, hlive, hworst, hmem, hsorted⟩ := h.live_eq hne
      rw [hlive]
      dsimp only
      split_ifs with hbetter
      · exact ⟨_, rfl, h.evict hseen hnew hfull hworst hmem hsorted hbetter⟩
      · exact ⟨_, rfl, h.leave hkeys hnew hfull hworst hmem hsorted (not_lt.mp hbetter)⟩

/-- What is retained, sorted, is the top of what was seen. -/
theorem Holds.sorted_best {limit : ℕ} {seen : List α} {s : Retained α}
    (h : Holds group key limit seen s) (hkeys : (seen.map key).Nodup) :
    (s.best.insertionSort fun a b => key a ≤ key b) = topGroups group key limit seen := by
  have hreps : ((representatives group key seen).map key).Nodup := nodup_representatives_keys hkeys
  have hbest : s.best.Nodup := List.Nodup.of_map group h.groups
  have hbestKeys : (s.best.map key).Nodup := by
    refine (List.nodup_map_iff_inj_on hbest).mpr fun b hb c hc heq => ?_
    exact eq_of_key hreps (h.rep b hb) (h.rep c hc) heq
  set rest := (representatives group key seen).filter fun a => a ∉ s.best with hrest
  have hrestKeys : (rest.map key).Nodup := hreps.sublist (List.filter_sublist.map key)
  -- a representative that is not retained is worse than all that is, and the list is full
  have hworse : ∀ a ∈ rest, s.best.length = limit ∧ ∀ b ∈ s.best, key b < key a := by
    intro a ha
    obtain ⟨hrep, hout⟩ := List.mem_filter.mp ha
    rw [decide_eq_true_eq] at hout
    refine h.others a (mem_representatives.mp hrep).1 fun b hb hsame => ?_
    exact hout (representatives_unique hkeys (h.rep b hb) hrep hsame ▸ hb)
  have hperm : (representatives group key seen).Perm (s.best ++ rest) := by
    refine (List.perm_ext_iff_of_nodup (nodup_of_keys hreps) ?_).mpr fun a => ?_
    · rw [List.nodup_append]
      refine ⟨hbest, nodup_of_keys hrestKeys, ?_⟩
      rintro b hb c hc rfl
      exact of_decide_eq_true (List.mem_filter.mp hc).2 hb
    · rw [List.mem_append, hrest, List.mem_filter, decide_eq_true_eq]
      constructor
      · intro ha
        by_cases hin : a ∈ s.best
        · exact Or.inl hin
        · exact Or.inr ⟨ha, hin⟩
      · rintro (ha | ⟨ha, -⟩)
        · exact h.rep a ha
        · exact ha
  have hsorted : (representatives group key seen).insertionSort (fun a b => key a ≤ key b) =
      (s.best.insertionSort fun a b => key a ≤ key b) ++
        rest.insertionSort fun a b => key a ≤ key b := by
    refine eq_of_sorted (sorted_keys hreps) ?_ ?_
    · rw [List.pairwise_append]
      refine ⟨sorted_keys hbestKeys, sorted_keys hrestKeys, fun b hb c hc => ?_⟩
      rw [List.mem_insertionSort] at hb hc
      exact (hworse c hc).2 b hb
    · exact (List.perm_insertionSort _ _).trans (hperm.trans
        ((List.perm_insertionSort _ _).symm.append (List.perm_insertionSort _ _).symm))
  rw [topGroups, hsorted]
  have hlength : (s.best.insertionSort fun a b => key a ≤ key b).length = s.best.length :=
    (List.perm_insertionSort _ _).length_eq
  by_cases hnil : rest = []
  · rw [hnil, List.insertionSort_nil, List.append_nil, List.take_of_length_le]
    rw [hlength]
    exact h.length_le
  · obtain ⟨a, ha⟩ := List.exists_mem_of_ne_nil _ hnil
    rw [List.take_append_of_le_length (by rw [hlength, (hworse a ha).1]), List.take_of_length_le]
    rw [hlength]
    exact h.length_le

/-- The stream does not fail, and retains the top of the items. -/
theorem foldlM_retain {limit : ℕ} (hlimit : 0 < limit) (bound : ℕ) (l : List α)
    (hkeys : (l.map key).Nodup) :
    ∃ s, l.foldlM (retain group key limit bound) {} = some s ∧ Holds group key limit l s := by
  induction l using List.reverseRecOn with
  | nil => exact ⟨{}, rfl, holds_nil group key limit⟩
  | append_singleton l a ih =>
    obtain ⟨s, hs, hholds⟩ := ih (hkeys.sublist ((List.sublist_append_left _ _).map key))
    obtain ⟨s', hs', hholds'⟩ := hholds.retain hlimit bound hkeys
    refine ⟨s', ?_, hholds'⟩
    rw [List.foldlM_append, hs]
    show (List.foldlM _ s [a] : Option _) = _
    rw [List.foldlM_cons, hs']
    rfl

end Stream
end TopGroups
end Neocortex
