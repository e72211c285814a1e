import Mathlib
import Neocortex.Library.Checks
import Neocortex.Deduplication.Partition

/-!
# Classes of equal content

In exact mode the keepers of a digest have pairwise different contents, and a member is redundant
behind the keeper of its content. `Partition` is what the stored groups are then; the only other
outcome of a run is a conflict of the keeper policy.

* `groupFullCollisions_partition`: the stored groups, the totals and the failures of a run.
-/

namespace Neocortex
namespace Deduplication

open Python Checks

/-! ## Verdicts and contents -/

section Content

variable {κ : Type} {cfg : Config} {content : FileSnapshot → κ}
  {members before : List (Bytes × FileSnapshot)} {digest : Bytes} {k s : FileSnapshot}

theorem exactVerdict_redundant {room : Bool} : ∀ {keepers : List FileSnapshot},
    exactVerdict cfg s room keepers = .redundant k →
      k ∈ keepers ∧ cfg.exactMatcher k s = .ok true
  | [], h => by cases room <;> simp [exactVerdict] at h
  | keeper :: rest, h => by
    unfold exactVerdict at h
    cases hmatch : cfg.exactMatcher keeper s with
    | error e =>
      rw [hmatch] at h
      cases h
    | ok equal =>
      rw [hmatch] at h
      cases equal with
      | true =>
        cases h
        exact ⟨List.mem_cons_self, hmatch⟩
      | false =>
        obtain ⟨hmem, hk⟩ := exactVerdict_redundant h
        exact ⟨List.mem_cons_of_mem _ hmem, hk⟩

theorem exactVerdict_keeper {room : Bool} : ∀ {keepers : List FileSnapshot},
    exactVerdict cfg s room keepers = .keeper → ∀ k ∈ keepers, cfg.exactMatcher k s = .ok false
  | [], _ => by simp
  | keeper :: rest, h => by
    unfold exactVerdict at h
    cases hmatch : cfg.exactMatcher keeper s with
    | error e =>
      rw [hmatch] at h
      cases h
    | ok equal =>
      rw [hmatch] at h
      cases equal with
      | true => cases h
      | false =>
        intro k hk
        rcases List.mem_cons.mp hk with rfl | hk
        · exact hmatch
        · exact exactVerdict_keeper h k hk

/-- A redundant member stands behind one of the keepers. -/
theorem keeper_mem_of_redundant (h : verdict cfg (keepersAt cfg before digest) s = .redundant k) :
    k ∈ keepersAt cfg before digest := by
  unfold verdict at h
  cases hexact : cfg.exactCompare with
  | true =>
    rw [hexact] at h
    exact (exactVerdict_redundant h).1
  | false =>
    rw [hexact] at h
    cases hkeepers : keepersAt cfg before digest with
    | nil =>
      rw [hkeepers] at h
      cases h
    | cons keeper rest =>
      rw [hkeepers] at h
      cases h
      exact List.mem_cons_self

/-- The keepers of a digest are the members with that verdict. -/
theorem mem_keepersAt : k ∈ keepersAt cfg members digest ↔
    ((digest, k), .keeper) ∈ annotate cfg members := by
  induction members using List.reverseRecOn with
  | nil => simp [keepersAt, annotate, annotateFrom]
  | append_singleton before m ih =>
    obtain ⟨d, s⟩ := m
    rw [annotate_append_singleton, List.mem_append, List.mem_singleton]
    by_cases hd : d = digest
    · subst hd
      rw [keepersAt_append_self, addKeeper]
      split_ifs with hverdict
      · rw [List.mem_append, List.mem_singleton, ih, hverdict]
        simp
      · rw [ih]
        simp only [Prod.mk.injEq, true_and, iff_self_or, and_imp]
        intro _ hkeeper
        exact absurd hkeeper.symm hverdict
    · have hsame : keepersAt cfg (before ++ [(d, s)]) digest = keepersAt cfg before digest := by
        simp [keepersAt, hd]
      rw [hsame, ih]
      simp only [Prod.mk.injEq, iff_self_or, and_imp]
      intro hdigest
      exact absurd hdigest.symm hd

theorem annotate_subset {after : List (Bytes × FileSnapshot)} (hsplit : members = before ++ after) :
    ∀ p ∈ annotate cfg before, p ∈ annotate cfg members := by
  intro p hp
  rw [hsplit, annotate, annotateFrom_append]
  exact List.mem_append_left _ hp

variable (hexact : cfg.exactCompare = true)
  (hmatcher : ∀ x y e, cfg.exactMatcher x y = .ok e → (e = true ↔ content x = content y))

include hexact hmatcher

theorem content_of_redundant (h : verdict cfg (keepersAt cfg before digest) s = .redundant k) :
    content k = content s := by
  unfold verdict at h
  rw [hexact] at h
  exact (hmatcher k s true (exactVerdict_redundant h).2).mp rfl

theorem content_of_keeper (h : verdict cfg (keepersAt cfg before digest) s = .keeper) :
    ∀ k ∈ keepersAt cfg before digest, content k ≠ content s := by
  intro k hk heq
  unfold verdict at h
  rw [hexact] at h
  have hfalse := (hmatcher k s false (exactVerdict_keeper h k hk)).mpr heq
  cases hfalse

/-- A member that was placed has the content of a keeper of its digest. -/
theorem exists_keeper_of_placed {p : Annotated} (hp : p ∈ annotate cfg members)
    (hplaced : ¬ p.2.Lost) : ∃ k ∈ keepersAt cfg members p.1.1, content k = content p.1.2 := by
  obtain ⟨before, after, hsplit, hverdict⟩ := exists_of_mem_annotate hp
  cases hv : p.2 with
  | failed => exact absurd (Or.inl hv) hplaced
  | refused => exact absurd (Or.inr hv) hplaced
  | keeper =>
    refine ⟨p.1.2, mem_keepersAt.mpr ?_, rfl⟩
    rw [← hv]
    exact hp
  | redundant k =>
    rw [hv] at hverdict
    have hk := keeper_mem_of_redundant hverdict.symm
    refine ⟨k, ?_, content_of_redundant hexact hmatcher hverdict.symm⟩
    exact mem_keepersAt.mpr (annotate_subset hsplit _ (mem_keepersAt.mp hk))

end Content

/-! ## The only error -/

/-- At least two explicit identities met in one group. -/
def Conflict (cfg : Config) (e : PlanError) : Prop :=
  ∃ identities digest, e = .keeperConflict identities digest ∧ 1 < identities.dedup.length ∧
    ∀ i ∈ identities, i ∈ cfg.explicitKeepIdentities

section Errors

variable {cfg : Config} {digest : Bytes} {e : PlanError}

theorem store_error {keep : FileSnapshot} {redundant : List FileSnapshot} {a : Accumulator}
    (h : a.store cfg digest keep redundant = .error e) : Conflict cfg e := by
  by_cases hempty : redundant = []
  · rw [Accumulator.store, if_pos hempty] at h
    cases h
  rw [Accumulator.store, if_neg hempty] at h
  by_cases hconflict : 1 < (selected cfg (keep :: redundant)).dedup.length
  · simp only [hconflict, if_true] at h
    refine ⟨_, _, (Except.error.inj h).symm, hconflict, fun i hi => ?_⟩
    simpa using (List.mem_filter.mp hi).2
  · simp only [hconflict, if_false] at h
    cases h

theorem flushCompleteChunks_error : ∀ {sets : List MemberSet} {a : Accumulator},
    flushCompleteChunks cfg digest sets a = .error e → Conflict cfg e
  | [], _, h => by cases h
  | (representative, chunk) :: rest, a, h => by
    rw [flushCompleteChunks] at h
    split_ifs at h
    · rcases bind_eq_error.mp h with h | ⟨_, -, h⟩
      · exact flushCompleteChunks_error h
      · cases h
    · rcases bind_eq_error.mp h with h | ⟨a₁, -, h⟩
      · exact store_error h
      · rcases bind_eq_error.mp h with h | ⟨_, -, h⟩
        · exact flushCompleteChunks_error h
        · cases h

theorem storeSets_error : ∀ {sets : List MemberSet} {a : Accumulator},
    storeSets cfg digest sets a = .error e → Conflict cfg e
  | [], _, h => by cases h
  | (keep, redundant) :: rest, a, h => by
    rw [storeSets] at h
    rcases bind_eq_error.mp h with h | ⟨a₁, -, h⟩
    · exact store_error h
    · exact storeSets_error h

theorem flush_error {b : Builder} {a : Accumulator} (h : b.flush cfg a = .error e) :
    Conflict cfg e := by
  unfold Builder.flush at h
  cases hactive : b.activeDigest with
  | none =>
    rw [hactive] at h
    cases h
  | some digest =>
    rw [hactive] at h
    rcases bind_eq_error.mp h with h | ⟨_, -, h⟩
    · exact storeSets_error h
    · cases h

theorem addActive_error {snapshot : FileSnapshot} {b : Builder} {a : Accumulator}
    (h : b.addActive cfg digest snapshot a = .error e) : Conflict cfg e := by
  unfold Builder.addActive at h
  cases hplace : placeWithRepresentative cfg snapshot b.sets with
  | failed =>
    rw [hplace] at h
    cases h
  | nowhere =>
    rw [hplace] at h
    cases h
  | into sets =>
    rw [hplace] at h
    rcases bind_eq_error.mp h with h | ⟨_, -, h⟩
    · exact flushCompleteChunks_error h
    · cases h

theorem addAll_error : ∀ {members : List (Bytes × FileSnapshot)} {b : Builder} {a : Accumulator},
    addAll cfg members b a = .error e → Conflict cfg e
  | [], _, _, h => by cases h
  | (digest, snapshot) :: rest, b, a, h => by
    rw [addAll] at h
    rcases bind_eq_error.mp h with h | ⟨⟨b₁, a₁⟩, -, h⟩
    · unfold Builder.add at h
      split_ifs at h
      · exact addActive_error h
      · rcases bind_eq_error.mp h with h | ⟨⟨b₂, a₂⟩, -, h⟩
        · exact flush_error h
        · exact addActive_error h
    · exact addAll_error h

theorem groupFullCollisions_error {members : List (Bytes × FileSnapshot)} {a : Accumulator}
    (h : groupFullCollisions cfg members a = .error e) : Conflict cfg e := by
  rcases bind_eq_error.mp h with h | ⟨⟨b, a₁⟩, -, h⟩
  · exact addAll_error h
  · exact flush_error h

end Errors

/-! ## The partition -/

section Partition

variable {κ : Type}

/-- The keeper is the first placed member of the digest with the content of this one. -/
def FirstEqual (cfg : Config) (content : FileSnapshot → κ) (members : List (Bytes × FileSnapshot))
    (m : Bytes × FileSnapshot) (keeper : FileSnapshot) : Prop :=
  ∃ before between after, members = before ++ (m.1, keeper) :: (between ++ m :: after) ∧
    content keeper = content m.2 ∧
    ((m.1, keeper), .keeper) ∈ annotate cfg members ∧
    ∀ p ∈ annotate cfg before, p.1.1 = m.1 → ¬ p.2.Lost → content p.1.2 ≠ content m.2

/-- The groups are a partition of the members that were placed. -/
structure Partition (cfg : Config) (content : FileSnapshot → κ)
    (members : List (Bytes × FileSnapshot)) (groups : List DuplicateGroup) : Prop where
  equal : ∀ g ∈ groups, ∀ m ∈ g.redundant, content g.keep = content m
  length_le : ∀ g ∈ groups, g.redundant.length ≤ maxRedundantMembersPerGroup
  once : ((groups.flatMap DuplicateGroup.redundant).map FileSnapshot.identity).Nodup
  roles : ∀ g ∈ groups, ∀ g' ∈ groups, ∀ m ∈ g'.redundant, g.keep.identity ≠ m.identity
  excluded : ∀ p ∈ annotate cfg members, p.2.Lost → ∀ g ∈ groups,
    p.1.2.identity ≠ g.keep.identity ∧ ∀ m ∈ g.redundant, p.1.2.identity ≠ m.identity
  placed : ∀ p ∈ annotate cfg members, ¬ p.2.Lost → p.2 = .keeper ∨
    ∃ g ∈ groups, p.1.2 ∈ g.redundant ∧ FirstEqual cfg content members p.1 g.keep

theorem mem_groupPairs {groups : List DuplicateGroup} {k s : FileSnapshot} :
    (k, s) ∈ groupPairs groups ↔ ∃ g ∈ groups, g.keep = k ∧ s ∈ g.redundant := by
  simp only [groupPairs, List.mem_flatMap, List.mem_map, Prod.mk.injEq]
  constructor
  · rintro ⟨g, hg, m, hm, hk, rfl⟩
    exact ⟨g, hg, hk, hm⟩
  · rintro ⟨g, hg, hk, hm⟩
    exact ⟨g, hg, s, hm, hk, rfl⟩

theorem map_snd_groupPairs (groups : List DuplicateGroup) :
    (groupPairs groups).map Prod.snd = groups.flatMap DuplicateGroup.redundant := by
  induction groups with
  | nil => rfl
  | cons g rest ih =>
    rw [groupPairs, List.flatMap_cons, List.map_append, ← groupPairs, ih, List.flatMap_cons]
    simp [Function.comp_def]

theorem map_snd_redundantPairs_sublist (l : List Annotated) :
    ((redundantPairs l).map Prod.snd).Sublist (l.map fun p => p.1.2) := by
  induction l with
  | nil => exact List.Sublist.slnil
  | cons p rest ih =>
    obtain ⟨m, v⟩ := p
    cases v with
    | redundant k => exact ih.cons_cons m.2
    | _ => exact ih.cons m.2

variable {cfg : Config} {content : FileSnapshot → κ} {members : List (Bytes × FileSnapshot)}
  {groups : List DuplicateGroup}

/-- Members with different identities are annotated once. -/
theorem eq_of_identity (hdistinct : (members.map fun m => m.2.identity).Nodup)
    {p q : Annotated} (hp : p ∈ annotate cfg members) (hq : q ∈ annotate cfg members)
    (h : p.1.2.identity = q.1.2.identity) : p = q := by
  rw [← map_fst_annotate cfg members, List.map_map] at hdistinct
  exact List.inj_on_of_nodup_map hdistinct hp hq h

theorem partition_of_perm (hexact : cfg.exactCompare = true)
    (hmatcher : ∀ x y e, cfg.exactMatcher x y = .ok e → (e = true ↔ content x = content y))
    (hdistinct : (members.map fun m => m.2.identity).Nodup)
    (hvalid : ∀ g ∈ groups, Valid cfg g)
    (hperm : (groupPairs groups).Perm (redundantPairs (annotate cfg members))) :
    Partition cfg content members groups := by
  have hpair : ∀ {k s}, (k, s) ∈ groupPairs groups ↔
      ∃ digest, ((digest, s), .redundant k) ∈ annotate cfg members := by
    intro k s
    rw [hperm.mem_iff, mem_redundantPairs]
  -- the keeper of a stored group has the verdict of a keeper
  have hkeep : ∀ g ∈ groups, ∃ digest, ((digest, g.keep), .keeper) ∈ annotate cfg members := by
    intro g hg
    obtain ⟨s, hs⟩ := List.exists_mem_of_ne_nil _ (hvalid g hg).nonempty
    obtain ⟨digest, hmem⟩ := hpair.mp (mem_groupPairs.mpr ⟨g, hg, rfl, hs⟩)
    obtain ⟨before, after, hsplit, hverdict⟩ := exists_of_mem_annotate hmem
    refine ⟨digest, annotate_subset hsplit _ (mem_keepersAt.mp ?_)⟩
    exact keeper_mem_of_redundant hverdict.symm
  have hredundant : ∀ g ∈ groups, ∀ m ∈ g.redundant,
      ∃ digest, ((digest, m), .redundant g.keep) ∈ annotate cfg members :=
    fun g hg m hm => hpair.mp (mem_groupPairs.mpr ⟨g, hg, rfl, hm⟩)
  refine ⟨?_, fun g hg => (hvalid g hg).length_le, ?_, ?_, ?_, ?_⟩
  · intro g hg m hm
    obtain ⟨digest, hmem⟩ := hredundant g hg m hm
    obtain ⟨before, after, hsplit, hverdict⟩ := exists_of_mem_annotate hmem
    exact content_of_redundant hexact hmatcher hverdict.symm
  · rw [← map_snd_groupPairs]
    have hsub := (map_snd_redundantPairs_sublist (annotate cfg members)).map FileSnapshot.identity
    refine (((hperm.map Prod.snd).map FileSnapshot.identity).nodup_iff).mpr (hsub.nodup ?_)
    rw [← map_fst_annotate cfg members, List.map_map] at hdistinct
    rw [List.map_map]
    exact hdistinct
  · intro g hg g' hg' m hm heq
    obtain ⟨d, hk⟩ := hkeep g hg
    obtain ⟨d', hr⟩ := hredundant g' hg' m hm
    cases eq_of_identity hdistinct hk hr heq
  · intro p hp hlost g hg
    refine ⟨fun heq => ?_, fun m hm heq => ?_⟩
    · obtain ⟨d, hk⟩ := hkeep g hg
      rw [eq_of_identity hdistinct hp hk heq] at hlost
      rcases hlost with hlost | hlost <;> cases hlost
    · obtain ⟨d, hr⟩ := hredundant g hg m hm
      rw [eq_of_identity hdistinct hp hr heq] at hlost
      rcases hlost with hlost | hlost <;> cases hlost
  · intro p hp hplaced
    obtain ⟨⟨digest, s⟩, v⟩ := p
    cases v with
    | failed => exact absurd (Or.inl rfl) hplaced
    | refused => exact absurd (Or.inr rfl) hplaced
    | keeper => exact Or.inl rfl
    | redundant k =>
      obtain ⟨g, hg, rfl, hs⟩ := mem_groupPairs.mp (hpair.mpr ⟨digest, hp⟩)
      refine Or.inr ⟨g, hg, hs, ?_⟩
      obtain ⟨before, after, hsplit, hverdict⟩ := exists_of_mem_annotate hp
      have hk := mem_keepersAt.mp (keeper_mem_of_redundant hverdict.symm)
      obtain ⟨first, between, hbefore, hkverdict⟩ := exists_of_mem_annotate hk
      have hcontent := content_of_redundant hexact hmatcher hverdict.symm
      refine ⟨first, between, after, ?_, hcontent, annotate_subset hsplit _ hk, ?_⟩
      · rw [hsplit, hbefore, List.append_assoc]
        rfl
      · intro q hq hd hqplaced heq
        obtain ⟨k', hk', hsame⟩ := exists_keeper_of_placed hexact hmatcher hq hqplaced
        rw [hd] at hk'
        refine content_of_keeper hexact hmatcher hkverdict.symm k' hk' ?_
        rw [hsame, heq]
        exact hcontent.symm

theorem persisted_flush (a : Accumulator) : a.flush.persisted = a.stored := by
  unfold Accumulator.flush Accumulator.stored
  split_ifs with h
  · rw [h, List.append_nil]
  · rfl

theorem lost_add_placed (l : List Annotated) :
    lost l + l.countP (fun p => ¬ p.2.Lost) = l.length := by
  rw [lost, List.length_eq_countP_add_countP (fun p : Annotated => decide p.2.Lost)]
  simp

end Partition

/-- Whatever the groups of earlier sizes: a run raises a conflict of the keeper policy, or it stores
the classes of the members it has placed. -/
theorem groupFullCollisions_partition {κ : Type} (cfg : Config) (content : FileSnapshot → κ)
    (members : List (Bytes × FileSnapshot)) (a₀ : Accumulator)
    (hexact : cfg.exactCompare = true)
    (hmatcher : ∀ x y e, cfg.exactMatcher x y = .ok e → (e = true ↔ content x = content y))
    (hsorted : (members.map Prod.fst).Pairwise (· ≤ ·))
    (hdistinct : (members.map fun m => m.2.identity).Nodup) (htotals : Totals a₀) :
    (∀ e, groupFullCollisions cfg members a₀ = .error e → Conflict cfg e) ∧
      ∀ b a, groupFullCollisions cfg members a₀ = .ok (b, a) →
        ∃ groups, a.flush.persisted = a₀.stored ++ groups ∧
          Partition cfg content members groups ∧
          a.redundantFiles = (a.flush.persisted.map fun g => g.redundant.length).sum ∧
          a.reclaimableBytes = (a.flush.persisted.map DuplicateGroup.reclaimableBytes).sum ∧
          b.failures + (annotate cfg members).countP (fun p => ¬ p.2.Lost) = members.length := by
  refine ⟨fun e hrun => groupFullCollisions_error hrun, fun b a hrun => ?_⟩
  have hcontiguous := contiguous_of_sorted List.le_refl (fun _ _ => List.le_antisymm) hsorted
  obtain ⟨hfailures, pairs, ⟨groups, hstored, hpairs, hvalid, hkept⟩, hperm⟩ :=
    groupFullCollisions_spec hcontiguous hrun
  rw [← hpairs] at hperm
  have htotals' := hkept htotals
  rw [persisted_flush]
  refine ⟨groups, hstored, ?_, htotals'.redundantFiles, htotals'.reclaimableBytes, ?_⟩
  · exact partition_of_perm hexact hmatcher hdistinct hvalid hperm
  · rw [hfailures, lost_add_placed, ← List.length_map Prod.fst, map_fst_annotate]

/-! A matcher that compares sizes and fails on the third file. -/

def sampleFile (fileId size : ℕ) : FileSnapshot := ⟨[], 0, fileId, size, 0, 0⟩

def sampleConfig : Config where
  exactCompare := true
  explicitKeepIdentities := []
  aliases := fun _ => 0
  exactMatcher := fun x y => if y.fileId = 3 then .error () else .ok (x.size = y.size)

def sampleMembers : List (Bytes × FileSnapshot) :=
  [([1], sampleFile 1 7), ([1], sampleFile 2 8), ([1], sampleFile 3 7), ([1], sampleFile 4 7),
    ([2], sampleFile 5 8)]

theorem groupFullCollisions_partition_sample :
    ∃ b a groups, groupFullCollisions sampleConfig sampleMembers Accumulator.empty = .ok (b, a) ∧
      groups = [⟨7, sampleFile 1 7, [sampleFile 4 7], [1]⟩] ∧ a.flush.persisted = groups ∧
      Partition sampleConfig FileSnapshot.size sampleMembers groups ∧ a.redundantFiles = 1 ∧
      b.failures = 1 := by
  have hmatcher : ∀ x y e, sampleConfig.exactMatcher x y = .ok e →
      (e = true ↔ x.size = y.size) := by
    intro x y e h
    simp only [sampleConfig] at h
    split_ifs at h
    rw [← Except.ok.inj h]
    exact decide_eq_true_iff
  obtain ⟨-, hok⟩ := groupFullCollisions_partition sampleConfig FileSnapshot.size sampleMembers
    Accumulator.empty rfl hmatcher (by decide) (by decide) ⟨rfl, rfl, rfl⟩
  obtain ⟨groups, hgroups, hpartition, -⟩ := hok _ _ rfl
  refine ⟨_, _, _, rfl, rfl, rfl, ?_, rfl, rfl⟩
  have hsame : groups = [⟨7, sampleFile 1 7, [sampleFile 4 7], [1]⟩] := hgroups.symm
  rw [← hsame]
  exact hpartition

end Deduplication
end Neocortex
