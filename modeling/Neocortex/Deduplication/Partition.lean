import Mathlib
import Neocortex.Library.Checks
import Neocortex.Deduplication.Grouping

/-!
# Grouping is a partition

What becomes of a member is decided by the keepers of its digest before it: it fails a comparison, it
is equal to one of them, it becomes a keeper itself, or it is refused because there are too many.
`annotate` says so without chunks, batches and counters; `Grouped` is what the builder and the
accumulator have made of the members so far.

* `Grouped.add`: one member.
-/

namespace Neocortex
namespace Deduplication

open Python Checks

/-! ## Verdicts -/

/-- What becomes of a member. -/
inductive Verdict where
  | failed
  | refused
  | keeper
  | redundant (keeper : FileSnapshot)
  deriving DecidableEq

/-- The member is compared with the keepers in turn. -/
def exactVerdict (cfg : Config) (snapshot : FileSnapshot) (room : Bool) :
    List FileSnapshot → Verdict
  | [] => if room then .keeper else .refused
  | keeper :: rest =>
    match cfg.exactMatcher keeper snapshot with
    | .error _ => .failed
    | .ok true => .redundant keeper
    | .ok false => exactVerdict cfg snapshot room rest

/-- The verdict on a member, from the keepers of its digest. -/
def verdict (cfg : Config) (keepers : List FileSnapshot) (snapshot : FileSnapshot) : Verdict :=
  match cfg.exactCompare, keepers with
  | true, keepers =>
    exactVerdict cfg snapshot (keepers.length < maxExactHashCollisionSets) keepers
  | false, [] => .keeper
  | false, keeper :: _ => .redundant keeper

/-- The keepers with one more member. -/
def addKeeper (cfg : Config) (keepers : List FileSnapshot) (snapshot : FileSnapshot) :
    List FileSnapshot :=
  if verdict cfg keepers snapshot = .keeper then keepers ++ [snapshot] else keepers

/-- The keepers among the members of one digest. -/
def keepersAt (cfg : Config) (members : List (Bytes × FileSnapshot)) (digest : Bytes) :
    List FileSnapshot :=
  ((members.filter fun m => m.1 = digest).map Prod.snd).foldl (addKeeper cfg) []

/-- A member with its digest, and its verdict. -/
abbrev Annotated := (Bytes × FileSnapshot) × Verdict

/-- The members of `rest`, each with its verdict. -/
def annotateFrom (cfg : Config) (before : List (Bytes × FileSnapshot)) :
    List (Bytes × FileSnapshot) → List Annotated
  | [] => []
  | m :: rest =>
    (m, verdict cfg (keepersAt cfg before m.1) m.2) :: annotateFrom cfg (before ++ [m]) rest

def annotate (cfg : Config) (members : List (Bytes × FileSnapshot)) : List Annotated :=
  annotateFrom cfg [] members

theorem annotateFrom_append (cfg : Config) : ∀ before first second,
    annotateFrom cfg before (first ++ second) =
      annotateFrom cfg before first ++ annotateFrom cfg (before ++ first) second
  | before, [], second => by simp [annotateFrom]
  | before, m :: first, second => by
    rw [List.cons_append, annotateFrom, annotateFrom_append cfg, annotateFrom, List.cons_append,
      List.append_assoc]
    rfl

theorem annotate_append_cons (cfg : Config) (before after : List (Bytes × FileSnapshot))
    (m : Bytes × FileSnapshot) : annotate cfg (before ++ m :: after) =
      annotate cfg before ++ (m, verdict cfg (keepersAt cfg before m.1) m.2) ::
        annotateFrom cfg (before ++ [m]) after := by
  rw [annotate, annotateFrom_append]
  rfl

theorem map_fst_annotateFrom (cfg : Config) : ∀ before members,
    (annotateFrom cfg before members).map Prod.fst = members
  | _, [] => rfl
  | before, m :: rest => by rw [annotateFrom, List.map_cons, map_fst_annotateFrom cfg]

theorem map_fst_annotate (cfg : Config) (members : List (Bytes × FileSnapshot)) :
    (annotate cfg members).map Prod.fst = members :=
  map_fst_annotateFrom cfg [] members

/-- An annotated member stands somewhere, with the verdict from the keepers before it. -/
theorem exists_of_mem_annotate {cfg : Config} {members : List (Bytes × FileSnapshot)}
    {p : Annotated} (h : p ∈ annotate cfg members) :
    ∃ before after, members = before ++ p.1 :: after ∧
      p.2 = verdict cfg (keepersAt cfg before p.1.1) p.1.2 := by
  obtain ⟨l, r, hsplit⟩ := List.append_of_mem h
  have hmembers : members = l.map Prod.fst ++ p.1 :: r.map Prod.fst := by
    rw [← map_fst_annotate cfg members, hsplit, List.map_append, List.map_cons]
  refine ⟨_, _, hmembers, ?_⟩
  rw [hmembers, annotate_append_cons] at hsplit
  have hlength : (annotate cfg (l.map Prod.fst)).length = l.length := by
    rw [← List.length_map Prod.fst, map_fst_annotate, List.length_map]
  have hrest := (List.append_inj hsplit hlength).2
  rw [List.cons.injEq] at hrest
  rw [← hrest.1]

theorem keepersAt_append_self (cfg : Config) (members : List (Bytes × FileSnapshot))
    (digest : Bytes) (snapshot : FileSnapshot) :
    keepersAt cfg (members ++ [(digest, snapshot)]) digest =
      addKeeper cfg (keepersAt cfg members digest) snapshot := by
  simp [keepersAt]

theorem keepersAt_eq_nil {cfg : Config} {members : List (Bytes × FileSnapshot)} {digest : Bytes}
    (h : ∀ m ∈ members, m.1 ≠ digest) : keepersAt cfg members digest = [] := by
  have hfilter : members.filter (fun m => m.1 = digest) = [] := by
    rw [List.filter_eq_nil_iff]
    intro m hm
    simpa using h m hm
  rw [keepersAt, hfilter]
  rfl

/-- The members that are redundant, each behind its keeper. -/
def redundantPairs (l : List Annotated) : List (FileSnapshot × FileSnapshot) :=
  l.filterMap fun p =>
    match p.2 with
    | .redundant keeper => some (keeper, p.1.2)
    | _ => none

theorem mem_redundantPairs {l : List Annotated} {k s : FileSnapshot} :
    (k, s) ∈ redundantPairs l ↔ ∃ digest, ((digest, s), .redundant k) ∈ l := by
  rw [redundantPairs, List.mem_filterMap]
  constructor
  · rintro ⟨⟨⟨digest, t⟩, v⟩, hmem, hv⟩
    cases v with
    | redundant keeper =>
      obtain ⟨rfl, rfl⟩ := Prod.mk.inj (Option.some.inj hv)
      exact ⟨digest, hmem⟩
    | _ => cases hv
  · rintro ⟨digest, hmem⟩
    exact ⟨_, hmem, rfl⟩

/-- A member that neither keeps nor is redundant. -/
def Verdict.Lost (v : Verdict) : Prop := v = .failed ∨ v = .refused

instance (v : Verdict) : Decidable v.Lost := inferInstanceAs (Decidable (_ ∨ _))

def lost (l : List Annotated) : ℕ := l.countP fun p => p.2.Lost

/-! ## Stored groups -/

/-- The redundant members of some groups, each behind its keeper. -/
def groupPairs (groups : List DuplicateGroup) : List (FileSnapshot × FileSnapshot) :=
  groups.flatMap fun g => g.redundant.map fun m => (g.keep, m)

/-- The redundant members of the open sets, each behind its representative. -/
def setPairs (sets : List MemberSet) : List (FileSnapshot × FileSnapshot) :=
  sets.flatMap fun set => set.2.map fun m => (set.1, m)

/-- A group that may be stored: not empty, not too long, and with at most one explicit identity. -/
structure Valid (cfg : Config) (g : DuplicateGroup) : Prop where
  nonempty : g.redundant ≠ []
  length_le : g.redundant.length ≤ maxRedundantMembersPerGroup
  size : g.size = g.keep.size
  explicit : ∀ a ∈ g.keep :: g.redundant, ∀ b ∈ g.keep :: g.redundant,
    a.identity ∈ cfg.explicitKeepIdentities → b.identity ∈ cfg.explicitKeepIdentities →
    a.identity = b.identity

/-- The totals are those of the stored groups. -/
structure Totals (a : Accumulator) : Prop where
  groupCount : a.groupCount = a.stored.length
  redundantFiles : a.redundantFiles = (a.stored.map fun g => g.redundant.length).sum
  reclaimableBytes : a.reclaimableBytes = (a.stored.map DuplicateGroup.reclaimableBytes).sum

@[simp] theorem stored_flush (a : Accumulator) : a.flush.stored = a.stored := by
  unfold Accumulator.flush
  split_ifs with h
  · rfl
  · simp [Accumulator.stored]

@[simp] theorem stored_flushIf (c : Prop) [Decidable c] (a : Accumulator) :
    (a.flushIf c).stored = a.stored := by
  unfold Accumulator.flushIf
  split_ifs
  · exact stored_flush a
  · rfl

theorem Totals.flushIf {c : Prop} [Decidable c] {a : Accumulator} (h : Totals a) :
    Totals (a.flushIf c) := by
  have hcounts : (a.flushIf c).groupCount = a.groupCount ∧
      (a.flushIf c).redundantFiles = a.redundantFiles ∧
      (a.flushIf c).reclaimableBytes = a.reclaimableBytes := by
    unfold Accumulator.flushIf Accumulator.flush
    split_ifs
    all_goals exact ⟨rfl, rfl, rfl⟩
  obtain ⟨h1, h2, h3⟩ := hcounts
  refine ⟨?_, ?_, ?_⟩
  · rw [h1, stored_flushIf, h.groupCount]
  · rw [h2, stored_flushIf, h.redundantFiles]
  · rw [h3, stored_flushIf, h.reclaimableBytes]

@[simp] theorem stored_push (a : Accumulator) (g : DuplicateGroup) (m n : ℕ) :
    (a.push g m n).stored = a.stored ++ [g] := by
  simp [Accumulator.push, Accumulator.stored]

theorem Totals.push {a : Accumulator} (h : Totals a) (g : DuplicateGroup) (m n : ℕ) :
    Totals (a.push g m n) := by
  refine ⟨?_, ?_, ?_⟩
  · rw [stored_push, List.length_append, List.length_singleton, ← h.groupCount]
    rfl
  · rw [stored_push, List.map_append, List.sum_append, ← h.redundantFiles]
    simp [Accumulator.push]
  · rw [stored_push, List.map_append, List.sum_append, ← h.reclaimableBytes]
    simp [Accumulator.push]

/-- At most one identity is left of a selection. -/
theorem eq_of_dedup_length {α : Type} [DecidableEq α] {l : List α} (h : ¬ 1 < l.dedup.length)
    {a b : α} (ha : a ∈ l) (hb : b ∈ l) : a = b := by
  rw [← List.mem_dedup] at ha hb
  match hl : l.dedup, ha, hb with
  | [c], ha, hb =>
    rw [List.mem_singleton] at ha hb
    rw [ha, hb]
  | c :: d :: rest, _, _ =>
    rw [hl] at h
    simp at h
  | [], ha, _ => cases ha

section Store

variable {cfg : Config} {digest : Bytes} {keep : FileSnapshot} {redundant : List FileSnapshot}
  {a a' : Accumulator}

/-- What a store does: nothing for an empty chunk, else one more group. -/
theorem store_eq_ok (h : a.store cfg digest keep redundant = .ok a') :
    (redundant = [] ∧ a' = a) ∨
      (redundant ≠ [] ∧ a'.stored = a.stored ++ [⟨keep.size, keep, redundant, digest⟩] ∧
        (Totals a → Totals a') ∧
        ¬ 1 < (selected cfg (keep :: redundant)).dedup.length) := by
  by_cases hempty : redundant = []
  · rw [Accumulator.store, if_pos hempty] at h
    exact Or.inl ⟨hempty, (Except.ok.inj h).symm⟩
  rw [Accumulator.store, if_neg hempty] at h
  by_cases hconflict : 1 < (selected cfg (keep :: redundant)).dedup.length
  · simp only [hconflict, if_true] at h
    cases h
  · simp only [hconflict, if_false] at h
    refine Or.inr ⟨hempty, ?_, fun ht => ?_, hconflict⟩
    · rw [← Except.ok.inj h]
      simp
    · rw [← Except.ok.inj h]
      exact ((ht.flushIf.flushIf).push _ _ _).flushIf

theorem mem_selected {members : List FileSnapshot} {s : FileSnapshot} (hs : s ∈ members)
    (he : s.identity ∈ cfg.explicitKeepIdentities) : s.identity ∈ selected cfg members := by
  rw [selected, List.mem_filter]
  exact ⟨List.mem_map_of_mem hs, by simpa using he⟩

/-- Some groups were stored, with these redundant members behind their keepers. -/
def Stored (cfg : Config) (a a' : Accumulator)
    (pairs : List (FileSnapshot × FileSnapshot)) : Prop :=
  ∃ groups, a'.stored = a.stored ++ groups ∧ groupPairs groups = pairs ∧
    (∀ g ∈ groups, Valid cfg g) ∧ (Totals a → Totals a')

theorem Stored.refl (cfg : Config) (a : Accumulator) : Stored cfg a a [] :=
  ⟨[], by simp, rfl, by simp, id⟩

theorem Stored.trans {a a' a'' : Accumulator} {p q : List (FileSnapshot × FileSnapshot)}
    (h : Stored cfg a a' p) (h' : Stored cfg a' a'' q) :
    Stored cfg a a'' (p ++ q) := by
  obtain ⟨groups, hstored, hpairs, hvalid, htotals⟩ := h
  obtain ⟨groups', hstored', hpairs', hvalid', htotals'⟩ := h'
  refine ⟨groups ++ groups', ?_, ?_, ?_, htotals' ∘ htotals⟩
  · rw [hstored', hstored, List.append_assoc]
  · rw [groupPairs, List.flatMap_append, ← hpairs, ← hpairs']
    rfl
  · intro g hg
    rcases List.mem_append.mp hg with hg | hg
    · exact hvalid g hg
    · exact hvalid' g hg

theorem store_spec (h : a.store cfg digest keep redundant = .ok a')
    (hlength : redundant.length ≤ maxRedundantMembersPerGroup) :
    Stored cfg a a' (redundant.map fun m => (keep, m)) := by
  rcases store_eq_ok h with ⟨rfl, rfl⟩ | ⟨hne, hstored, ht, hexplicit⟩
  · exact Stored.refl cfg a'
  · refine ⟨_, hstored, by simp [groupPairs], fun g hg => ?_, ht⟩
    rw [List.mem_singleton] at hg
    subst hg
    refine ⟨hne, hlength, rfl, fun x hx y hy hex hey => ?_⟩
    exact eq_of_dedup_length hexplicit (mem_selected hx hex) (mem_selected hy hey)

end Store

/-! ## The sets of a digest -/

theorem setPairs_cons (set : MemberSet) (rest : List MemberSet) :
    setPairs (set :: rest) = set.2.map (fun m => (set.1, m)) ++ setPairs rest := rfl

/-- Every chunk still fits into a group. -/
def Short (sets : List MemberSet) : Prop :=
  ∀ set ∈ sets, set.2.length < maxRedundantMembersPerGroup

/-- One set has got one more member. -/
structure Extended (sets sets' : List MemberSet) (keeper snapshot : FileSnapshot) : Prop where
  keepers : sets'.map Prod.fst = sets.map Prod.fst
  pairs : (setPairs sets').Perm (setPairs sets ++ [(keeper, snapshot)])
  length_le : Short sets → ∀ set ∈ sets', set.2.length ≤ maxRedundantMembersPerGroup

theorem Extended.head (representative : FileSnapshot) (chunk : List FileSnapshot)
    (rest : List MemberSet) (snapshot : FileSnapshot) :
    Extended ((representative, chunk) :: rest) ((representative, chunk ++ [snapshot]) :: rest)
      representative snapshot := by
  refine ⟨rfl, ?_, fun hshort set hset => ?_⟩
  · rw [setPairs_cons, setPairs_cons, List.map_append, List.append_assoc, List.append_assoc]
    exact List.Perm.append_left _ List.perm_append_comm
  · rw [List.mem_cons] at hset
    rcases hset with rfl | hset
    · have hlt := hshort _ List.mem_cons_self
      show (chunk ++ [snapshot]).length ≤ _
      rw [List.length_append, List.length_singleton]
      exact hlt
    · exact (hshort set (List.mem_cons_of_mem _ hset)).le

theorem Extended.cons {sets sets' : List MemberSet} {keeper snapshot : FileSnapshot}
    (h : Extended sets sets' keeper snapshot) (set : MemberSet) :
    Extended (set :: sets) (set :: sets') keeper snapshot := by
  refine ⟨?_, ?_, fun hshort other hother => ?_⟩
  · rw [List.map_cons, List.map_cons, h.keepers]
  · rw [setPairs_cons, setPairs_cons, List.append_assoc]
    exact List.Perm.append_left _ h.pairs
  · rw [List.mem_cons] at hother
    rcases hother with rfl | hother
    · exact (hshort other List.mem_cons_self).le
    · exact h.length_le (fun s hs => hshort s (List.mem_cons_of_mem _ hs)) other hother

/-- A placement does what the verdict says. -/
def Agrees (sets : List MemberSet) (snapshot : FileSnapshot) (v : Verdict) :
    Placement → Prop
  | .failed => v = .failed
  | .nowhere => v = .keeper ∨ v = .refused
  | .into sets' => ∃ keeper, v = .redundant keeper ∧ Extended sets sets' keeper snapshot

theorem placeExact_agrees (cfg : Config) (snapshot : FileSnapshot) (room : Bool) :
    ∀ sets, Agrees sets snapshot (exactVerdict cfg snapshot room (sets.map Prod.fst))
      (placeExact cfg snapshot sets)
  | [] => by cases room <;> simp [placeExact, exactVerdict, Agrees]
  | (representative, chunk) :: rest => by
    have ih := placeExact_agrees cfg snapshot room rest
    simp only [placeExact, List.map_cons, exactVerdict]
    cases hmatch : cfg.exactMatcher representative snapshot with
    | error e => rfl
    | ok equal =>
      cases equal with
      | true => exact ⟨representative, rfl, Extended.head representative chunk rest snapshot⟩
      | false =>
        cases hplace : placeExact cfg snapshot rest with
        | failed => rw [hplace] at ih; exact ih
        | nowhere => rw [hplace] at ih; exact ih
        | into sets =>
          rw [hplace] at ih
          obtain ⟨keeper, hverdict, hext⟩ := ih
          exact ⟨keeper, hverdict, hext.cons (representative, chunk)⟩

theorem placeWithRepresentative_agrees (cfg : Config) (snapshot : FileSnapshot)
    (sets : List MemberSet) : Agrees sets snapshot (verdict cfg (sets.map Prod.fst) snapshot)
      (placeWithRepresentative cfg snapshot sets) := by
  unfold verdict placeWithRepresentative
  cases cfg.exactCompare with
  | true => exact placeExact_agrees cfg snapshot _ sets
  | false =>
    cases sets with
    | nil => exact Or.inl rfl
    | cons set rest => exact ⟨set.1, rfl, Extended.head set.1 set.2 rest snapshot⟩

theorem room_of_exactVerdict {cfg : Config} {snapshot : FileSnapshot} {room : Bool} :
    ∀ {keepers}, (exactVerdict cfg snapshot room keepers = .keeper → room = true) ∧
      (exactVerdict cfg snapshot room keepers = .refused → room = false)
  | [] => by cases room <;> simp [exactVerdict]
  | keeper :: rest => by
    unfold exactVerdict
    cases cfg.exactMatcher keeper snapshot with
    | error e => simp
    | ok equal =>
      cases equal with
      | true => simp
      | false => exact room_of_exactVerdict

/-- A member that no keeper takes is refused where there are too many. -/
theorem verdict_eq_keeper_iff {cfg : Config} {snapshot : FileSnapshot}
    {keepers : List FileSnapshot}
    (h : verdict cfg keepers snapshot = .keeper ∨ verdict cfg keepers snapshot = .refused) :
    verdict cfg keepers snapshot = .keeper ↔
      ¬ (cfg.exactCompare ∧ maxExactHashCollisionSets ≤ keepers.length) := by
  unfold verdict at h ⊢
  cases hexact : cfg.exactCompare with
  | true =>
    rw [hexact] at h
    obtain ⟨hkeeper, hrefused⟩ := @room_of_exactVerdict cfg snapshot
      (keepers.length < maxExactHashCollisionSets) keepers
    simp only [decide_eq_true_eq, decide_eq_false_iff_not] at hkeeper hrefused
    rcases h with h | h
    · have hroom := hkeeper h
      simp only [h, true_and, true_iff]
      omega
    · have hroom := hrefused h
      simp only [h, true_and]
      simp only [reduceCtorEq, false_iff, not_not]
      omega
  | false =>
    rw [hexact] at h
    cases keepers with
    | nil => simp
    | cons keeper rest => simp at h

/-! ## Chunks -/

theorem setPairs_append (first second : List MemberSet) :
    setPairs (first ++ second) = setPairs first ++ setPairs second :=
  List.flatMap_append

theorem flushCompleteChunks_spec {cfg : Config} {digest : Bytes} :
    ∀ {sets sets' : List MemberSet} {a a' : Accumulator},
      flushCompleteChunks cfg digest sets a = .ok (sets', a') →
      (∀ set ∈ sets, set.2.length ≤ maxRedundantMembersPerGroup) →
      sets'.map Prod.fst = sets.map Prod.fst ∧ Short sets' ∧
        ∃ pairs, Stored cfg a a' pairs ∧ (pairs ++ setPairs sets').Perm (setPairs sets)
  | [], sets', a, a', h, _ => by
    obtain ⟨rfl, rfl⟩ := Prod.mk.inj (Except.ok.inj h)
    exact ⟨rfl, fun set hset => (List.not_mem_nil hset).elim, [], Stored.refl cfg a, List.Perm.nil⟩
  | (representative, chunk) :: rest, sets', a, a', h, hlength => by
    have hrest := fun set hset => hlength set (List.mem_cons_of_mem _ hset)
    by_cases hfull : chunk.length < maxRedundantMembersPerGroup
    · rw [flushCompleteChunks, if_pos hfull] at h
      obtain ⟨⟨sets₁, a₁⟩, hflush, h⟩ := bind_eq_ok.mp h
      obtain ⟨rfl, rfl⟩ := Prod.mk.inj (Except.ok.inj h)
      obtain ⟨hkeepers, hshort, pairs, hstored, hperm⟩ := flushCompleteChunks_spec hflush hrest
      refine ⟨by rw [List.map_cons, List.map_cons, hkeepers], ?_, pairs, hstored, ?_⟩
      · intro set hset
        rcases List.mem_cons.mp hset with rfl | hset
        · exact hfull
        · exact hshort set hset
      · rw [setPairs_cons, setPairs_cons]
        exact List.perm_append_comm_assoc _ _ _ |>.trans (List.Perm.append_left _ hperm)
    · rw [flushCompleteChunks, if_neg hfull] at h
      obtain ⟨a₁, hstore, h⟩ := bind_eq_ok.mp h
      obtain ⟨⟨sets₂, a₂⟩, hflush, h⟩ := bind_eq_ok.mp h
      obtain ⟨rfl, rfl⟩ := Prod.mk.inj (Except.ok.inj h)
      obtain ⟨hkeepers, hshort, pairs, hstored, hperm⟩ := flushCompleteChunks_spec hflush hrest
      have hchunk := store_spec hstore (hlength _ List.mem_cons_self)
      refine ⟨by rw [List.map_cons, List.map_cons, hkeepers], ?_, _, hchunk.trans hstored, ?_⟩
      · intro set hset
        rcases List.mem_cons.mp hset with rfl | hset
        · show 0 < maxRedundantMembersPerGroup
          decide
        · exact hshort set hset
      · rw [setPairs_cons, setPairs_cons, List.append_assoc]
        exact List.Perm.append_left _ hperm

theorem storeSets_spec {cfg : Config} {digest : Bytes} :
    ∀ {sets : List MemberSet} {a a' : Accumulator}, storeSets cfg digest sets a = .ok a' →
      Short sets → Stored cfg a a' (setPairs sets)
  | [], a, a', h, _ => by
    rw [← Except.ok.inj h]
    exact Stored.refl cfg a
  | (keep, redundant) :: rest, a, a', h, hshort => by
    obtain ⟨a₁, hstore, h⟩ := bind_eq_ok.mp h
    have hchunk := store_spec hstore (hshort _ List.mem_cons_self).le
    exact hchunk.trans (storeSets_spec h fun set hset => hshort set (List.mem_cons_of_mem _ hset))

/-! ## The invariant -/

/-- What the builder and the accumulator hold of the members so far. -/
structure Held (cfg : Config) (a₀ : Accumulator) (before : List (Bytes × FileSnapshot))
    (b : Builder) (a : Accumulator) : Prop where
  short : Short b.sets
  stored : ∃ pairs, Stored cfg a₀ a pairs ∧
    (pairs ++ setPairs b.sets).Perm (redundantPairs (annotate cfg before))
  failures : b.failures = lost (annotate cfg before)

/-- The open sets are those of the last digest. -/
structure Grouped (cfg : Config) (a₀ : Accumulator) (before : List (Bytes × FileSnapshot))
    (b : Builder) (a : Accumulator) : Prop extends Held cfg a₀ before b a where
  active : b.activeDigest = before.getLast?.map Prod.fst
  keepers : ∀ digest, b.activeDigest = some digest →
    b.sets.map Prod.fst = keepersAt cfg before digest
  idle : b.activeDigest = none → b.sets = []

theorem Grouped.empty (cfg : Config) (a₀ : Accumulator) : Grouped cfg a₀ [] Builder.empty a₀ where
  active := rfl
  keepers := fun digest h => by cases h
  idle := fun _ => rfl
  short := fun set hset => by cases hset
  stored := ⟨[], Stored.refl cfg a₀, List.Perm.nil⟩
  failures := rfl

theorem redundantPairs_append (first second : List Annotated) :
    redundantPairs (first ++ second) = redundantPairs first ++ redundantPairs second :=
  List.filterMap_append

theorem lost_append (first second : List Annotated) :
    lost (first ++ second) = lost first + lost second :=
  List.countP_append

theorem annotate_append_singleton (cfg : Config) (before : List (Bytes × FileSnapshot))
    (m : Bytes × FileSnapshot) : annotate cfg (before ++ [m]) =
      annotate cfg before ++ [(m, verdict cfg (keepersAt cfg before m.1) m.2)] :=
  annotate_append_cons cfg before [] m

section Step

variable {cfg : Config} {a₀ a a' : Accumulator} {before : List (Bytes × FileSnapshot)}
  {b b' : Builder} {digest : Bytes} {snapshot : FileSnapshot}

theorem Held.addActive (h : Held cfg a₀ before b a)
    (hkeepers : b.sets.map Prod.fst = keepersAt cfg before digest)
    (hadd : b.addActive cfg digest snapshot a = .ok (b', a')) :
    Held cfg a₀ (before ++ [(digest, snapshot)]) b' a' ∧
      b'.sets.map Prod.fst = keepersAt cfg (before ++ [(digest, snapshot)]) digest ∧
      b'.activeDigest = b.activeDigest := by
  obtain ⟨pairs, hstored, hperm⟩ := h.stored
  have hagrees := placeWithRepresentative_agrees cfg snapshot b.sets
  rw [hkeepers] at hagrees
  have hannotate := annotate_append_singleton cfg before (digest, snapshot)
  rw [keepersAt_append_self, addKeeper]
  unfold Builder.addActive at hadd
  cases hplace : placeWithRepresentative cfg snapshot b.sets with
  | failed =>
    rw [hplace] at hadd hagrees
    have hverdict : verdict cfg (keepersAt cfg before digest) snapshot = .failed := hagrees
    obtain ⟨rfl, rfl⟩ := Prod.mk.inj (Except.ok.inj hadd)
    refine ⟨⟨h.short, ⟨pairs, hstored, ?_⟩, ?_⟩, ?_, rfl⟩
    · rw [hannotate, redundantPairs_append, hverdict]
      simpa [redundantPairs] using hperm
    · rw [hannotate, lost_append, hverdict, ← h.failures]
      rfl
    · rw [if_neg (by rw [hverdict]; simp), ← hkeepers]
  | nowhere =>
    rw [hplace] at hadd hagrees
    obtain ⟨rfl, rfl⟩ := Prod.mk.inj (Except.ok.inj hadd)
    have hlength : b.sets.length = (keepersAt cfg before digest).length := by
      rw [← hkeepers, List.length_map]
    have hiff := verdict_eq_keeper_iff hagrees
    rw [← hlength] at hiff
    unfold Builder.addRepresentative
    by_cases hfull : cfg.exactCompare ∧ maxExactHashCollisionSets ≤ b.sets.length
    · have hverdict : verdict cfg (keepersAt cfg before digest) snapshot = .refused :=
        hagrees.resolve_left fun hk => hiff.mp hk hfull
      rw [if_pos hfull]
      refine ⟨⟨h.short, ⟨pairs, hstored, ?_⟩, ?_⟩, ?_, rfl⟩
      · rw [hannotate, redundantPairs_append, hverdict]
        simpa [redundantPairs] using hperm
      · rw [hannotate, lost_append, hverdict, ← h.failures]
        rfl
      · rw [if_neg (by rw [hverdict]; simp), ← hkeepers]
    · have hverdict : verdict cfg (keepersAt cfg before digest) snapshot = .keeper :=
        hiff.mpr hfull
      rw [if_neg hfull]
      refine ⟨⟨?_, ⟨pairs, hstored, ?_⟩, ?_⟩, ?_, rfl⟩
      · intro set hset
        rcases List.mem_append.mp hset with hset | hset
        · exact h.short set hset
        · rw [List.mem_singleton.mp hset]
          show 0 < maxRedundantMembersPerGroup
          decide
      · show (pairs ++ setPairs (b.sets ++ [(snapshot, [])])).Perm _
        rw [hannotate, redundantPairs_append, hverdict, setPairs_append]
        simpa [redundantPairs, setPairs] using hperm
      · rw [hannotate, lost_append, hverdict, ← h.failures]
        rfl
      · rw [if_pos hverdict, ← hkeepers, List.map_append]
        rfl
  | into sets =>
    rw [hplace] at hadd hagrees
    obtain ⟨keeper, hverdict, hext⟩ := hagrees
    obtain ⟨⟨sets₁, a₁⟩, hflush, hadd⟩ := bind_eq_ok.mp hadd
    obtain ⟨rfl, rfl⟩ := Prod.mk.inj (Except.ok.inj hadd)
    obtain ⟨hmap, hshort, new, hnew, hnewperm⟩ :=
      flushCompleteChunks_spec hflush (hext.length_le h.short)
    refine ⟨⟨hshort, ⟨pairs ++ new, hstored.trans hnew, ?_⟩, ?_⟩, ?_, rfl⟩
    · rw [hannotate, redundantPairs_append, hverdict, List.append_assoc]
      have hflushed : (pairs ++ (new ++ setPairs sets₁)).Perm (pairs ++ setPairs sets) :=
        List.Perm.append_left _ hnewperm
      have hplaced : (pairs ++ setPairs sets).Perm
          (pairs ++ (setPairs b.sets ++ [(keeper, snapshot)])) :=
        List.Perm.append_left _ hext.pairs
      rw [← List.append_assoc] at hplaced
      exact (hflushed.trans hplaced).trans (List.Perm.append_right _ hperm)
    · rw [hannotate, lost_append, hverdict, ← h.failures]
      rfl
    · rw [if_neg (by rw [hverdict]; simp), ← hkeepers]
      exact hmap.trans hext.keepers

theorem Grouped.flush (h : Grouped cfg a₀ before b a) (hflush : b.flush cfg a = .ok (b', a')) :
    b'.failures = b.failures ∧
      ∃ pairs, Stored cfg a₀ a' pairs ∧ pairs.Perm (redundantPairs (annotate cfg before)) := by
  obtain ⟨pairs, hstored, hperm⟩ := h.stored
  unfold Builder.flush at hflush
  cases hactive : b.activeDigest with
  | none =>
    rw [hactive] at hflush
    obtain ⟨rfl, rfl⟩ := Prod.mk.inj (Except.ok.inj hflush)
    rw [h.idle hactive] at hperm
    exact ⟨rfl, pairs, hstored, by simpa [setPairs] using hperm⟩
  | some digest =>
    rw [hactive] at hflush
    obtain ⟨a₁, hstore, hflush⟩ := bind_eq_ok.mp hflush
    obtain ⟨rfl, rfl⟩ := Prod.mk.inj (Except.ok.inj hflush)
    exact ⟨rfl, _, hstored.trans (storeSets_spec hstore h.short), hperm⟩

/-- One member, whose digest is the last one or a new one. -/
theorem Grouped.add (h : Grouped cfg a₀ before b a)
    (hfresh : ∀ m ∈ before, m.1 = digest → before.getLast?.map Prod.fst = some digest)
    (hadd : b.add cfg digest snapshot a = .ok (b', a')) :
    Grouped cfg a₀ (before ++ [(digest, snapshot)]) b' a' := by
  have hlast : some digest = (before ++ [(digest, snapshot)]).getLast?.map Prod.fst := by simp
  unfold Builder.add at hadd
  by_cases hactive : b.activeDigest = some digest
  · rw [if_pos hactive] at hadd
    obtain ⟨hheld, hkeepers, hsame⟩ := h.toHeld.addActive (h.keepers digest hactive) hadd
    rw [hactive] at hsame
    refine ⟨hheld, by rw [hsame, hlast], fun d hd => ?_, fun hd => ?_⟩
    · rw [hsame] at hd
      rw [← Option.some.inj hd]
      exact hkeepers
    · rw [hsame] at hd
      cases hd
  · rw [if_neg hactive] at hadd
    obtain ⟨⟨b₁, a₁⟩, hflush, hadd⟩ := bind_eq_ok.mp hadd
    obtain ⟨hfailures, pairs, hstored, hperm⟩ := h.flush hflush
    have hnew : keepersAt cfg before digest = [] := by
      refine keepersAt_eq_nil fun m hm hd => hactive ?_
      rw [h.active]
      exact hfresh m hm hd
    have hheld : Held cfg a₀ before { b₁ with activeDigest := some digest, sets := [] } a₁ := by
      refine ⟨fun set hset => (List.not_mem_nil hset).elim, ⟨pairs, hstored, ?_⟩, ?_⟩
      · simpa [setPairs] using hperm
      · exact hfailures.trans h.failures
    obtain ⟨hheld', hkeepers, hsame⟩ := hheld.addActive hnew.symm hadd
    have hsome : b'.activeDigest = some digest := hsame
    refine ⟨hheld', by rw [hsome, hlast], fun d hd => ?_, fun hd => ?_⟩
    · rw [hsome] at hd
      rw [← Option.some.inj hd]
      exact hkeepers
    · rw [hsome] at hd
      cases hd

end Step

/-- Members come digest by digest: a digest that was met before is the last one. -/
def Contiguous (members : List (Bytes × FileSnapshot)) : Prop :=
  ∀ before m after, members = before ++ m :: after →
    ∀ n ∈ before, n.1 = m.1 → before.getLast?.map Prod.fst = some m.1

theorem contiguous_of_sorted {members : List (Bytes × FileSnapshot)}
    {r : Bytes → Bytes → Prop} (hrefl : ∀ d, r d d) (hantisymm : ∀ d d', r d d' → r d' d → d = d')
    (hsorted : (members.map Prod.fst).Pairwise r) : Contiguous members := by
  intro before m after hsplit n hn heq
  obtain ⟨init, last, rfl⟩ : ∃ init last, before = init ++ [last] := by
    refine ⟨before.dropLast, before.getLast (List.ne_nil_of_mem hn), ?_⟩
    exact (List.dropLast_append_getLast _).symm
  rw [hsplit, List.map_append, List.map_append, List.pairwise_append] at hsorted
  obtain ⟨hbefore, -, hcross⟩ := hsorted
  have hle : r last.1 m.1 := hcross _ (by simp) _ (by simp)
  have hge : r m.1 last.1 := by
    rcases List.mem_append.mp hn with hn | hn
    · rw [← heq]
      exact (List.pairwise_append.mp hbefore).2.2 _ (List.mem_map_of_mem hn) _ (by simp)
    · rw [← heq, ← List.mem_singleton.mp hn]
      exact hrefl n.1
  rw [List.getLast?_concat]
  exact congrArg some (hantisymm _ _ hle hge)

theorem Grouped.addAll {cfg : Config} {a₀ : Accumulator}
    {members : List (Bytes × FileSnapshot)} (hcontiguous : Contiguous members) :
    ∀ {before after : List (Bytes × FileSnapshot)} {b b' : Builder} {a a' : Accumulator},
      members = before ++ after → Grouped cfg a₀ before b a →
      addAll cfg after b a = .ok (b', a') → Grouped cfg a₀ members b' a'
  | before, [], b, b', a, a', hsplit, h, hadd => by
    obtain ⟨rfl, rfl⟩ := Prod.mk.inj (Except.ok.inj hadd)
    rw [hsplit, List.append_nil]
    exact h
  | before, (digest, snapshot) :: rest, b, b', a, a', hsplit, h, hadd => by
    obtain ⟨⟨b₁, a₁⟩, hfirst, hadd⟩ := bind_eq_ok.mp hadd
    have hstep := h.add (hcontiguous before _ rest hsplit) hfirst
    exact Grouped.addAll hcontiguous (by rw [hsplit, List.append_assoc]; rfl) hstep hadd

/-- A run that raises no conflict stores the redundant members, each behind its keeper. -/
theorem groupFullCollisions_spec {cfg : Config} {members : List (Bytes × FileSnapshot)}
    {b : Builder} {a₀ a : Accumulator} (hcontiguous : Contiguous members)
    (h : groupFullCollisions cfg members a₀ = .ok (b, a)) :
    b.failures = lost (annotate cfg members) ∧
      ∃ pairs, Stored cfg a₀ a pairs ∧ pairs.Perm (redundantPairs (annotate cfg members)) := by
  obtain ⟨⟨b₁, a₁⟩, hadd, hflush⟩ := bind_eq_ok.mp h
  have hgrouped := Grouped.addAll hcontiguous rfl (Grouped.empty cfg a₀) hadd
  obtain ⟨hfailures, hstored⟩ := hgrouped.flush hflush
  exact ⟨hfailures.trans hgrouped.failures, hstored⟩

end Deduplication
end Neocortex
