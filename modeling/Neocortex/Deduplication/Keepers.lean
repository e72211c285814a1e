import Mathlib
import Neocortex.Library.Checks
import Neocortex.Deduplication.Classes

/-!
# Explicitly kept files

`deduplication.planning.keeper` and the stages of `PlanningSession.run`: the members of a size are
captured with their ranks, one alias speaks for an identity, the members of a digest come in the order
of the ranks, and the groups are stored.

* `explicit_not_redundant`: no group of a completed plan lists an explicit identity as redundant, and
  two of them in one class end the run.

The paths' absolute forms, the copy suffix, the captured and fingerprinted files and the comparisons
are what the host answers. Link counts, progress and callbacks are left out.
-/

namespace Neocortex
namespace Deduplication

open Python Checks

/-! ## Ranks -/

/-- `KeeperPolicy`, without the evidence of its references. -/
structure KeeperPolicy where
  explicitKeepIdentities : List Identity
  preferredRoots : List Text
  verifiedReferenceIdentities : List Identity

/-- What planning asks of the host; an error is an `OSError` or a `FileChangedError`. -/
structure Host where
  abspath : Text → Text
  copySuffix : Text → Bool
  captureSnapshot : Text → Except Unit FileSnapshot
  fingerprint : FileSnapshot → Except Unit Bytes
  exactMatcher : FileSnapshot → FileSnapshot → Except Unit Bool

/-- `KeeperRank`. -/
structure KeeperRank where
  explicitRank : ℕ
  locationRank : ℕ
  referenceRank : ℕ
  nameRank : ℕ
  identityRank : Text
  path : Text
  deriving DecidableEq

/-- The components of an absolute path, as `os.path.commonpath` takes them. -/
def components (path : Text) : List Text :=
  (path.splitOn '/').filter fun c => c ≠ [] ∧ c ≠ ['.']

def commonComponents : List Text → List Text → List Text
  | c :: cs, d :: ds => if c = d then c :: commonComponents cs ds else []
  | _, _ => []

/-- `os.path.commonpath` of two absolute paths. -/
def commonpath (path preferred : Text) : Text :=
  '/' :: List.intercalate ['/'] (commonComponents (components path) (components preferred))

def identityText (i : Identity) : Text :=
  (Nat.toDigits 16 i.1).leftpad 32 '0' ++ ':' :: (Nat.toDigits 16 i.2).leftpad 32 '0'

/-- The ordinal of the first preferred root that holds the path. -/
def locationRank (host : Host) (policy : KeeperPolicy) (path : Text) : ℕ :=
  policy.preferredRoots.findIdx fun root =>
    commonpath (host.abspath path) (host.abspath root) = host.abspath root

/-- `keeper_rank`. -/
def keeperRank (host : Host) (snapshot : FileSnapshot) (policy : KeeperPolicy) : KeeperRank where
  explicitRank := if policy.explicitKeepIdentities.contains snapshot.identity then 0 else 1
  locationRank := locationRank host policy snapshot.path
  referenceRank := if policy.verifiedReferenceIdentities.contains snapshot.identity then 0 else 1
  nameRank := if host.copySuffix snapshot.path then 1 else 0
  identityRank := identityText snapshot.identity
  path := snapshot.path

/-- A row of `planning_observations`. -/
structure Observation where
  snapshot : FileSnapshot
  rank : KeeperRank
  deriving DecidableEq

/-! ## Orders -/

/-- The columns of an `ORDER BY`, each a list of numbers; `NULL` is the empty list. -/
abbrev SortKey := List (List ℕ)

def textKey (t : Text) : List ℕ := t.map Char.toNat

def bytesKey (b : Bytes) : List ℕ := b.map UInt8.toNat

/-- The ranks that the table holds. -/
def KeeperRank.key (r : KeeperRank) : SortKey :=
  [[r.explicitRank], [r.locationRank], [r.referenceRank], [r.nameRank], textKey r.identityRank]

def orderBy {α : Type} (key : α → SortKey) (l : List α) : List α :=
  l.insertionSort fun a b => key a ≤ key b

theorem perm_orderBy {α : Type} (key : α → SortKey) (l : List α) : (orderBy key l).Perm l :=
  List.perm_insertionSort _ _

theorem pairwise_orderBy {α : Type} (key : α → SortKey) (l : List α) :
    (orderBy key l).Pairwise fun a b => key a ≤ key b := by
  have : Std.Total fun a b : α => key a ≤ key b := ⟨fun a b => le_total _ _⟩
  have : IsTrans α fun a b => key a ≤ key b := ⟨fun a b c => le_trans⟩
  exact List.pairwise_insertionSort _ _

/-- The first column decides, and the rest where it is the same. -/
theorem of_cons_le_cons {α : Type} [LinearOrder α] {a b : α} {l l' : List α}
    (h : a :: l ≤ b :: l') : a ≤ b ∧ (a = b → l ≤ l') := by
  rcases h.lt_or_eq with hlt | heq
  · have hlex : List.Lex (· < ·) (a :: l) (b :: l') := hlt
    cases hlex with
    | rel hab => exact ⟨hab.le, fun heq => absurd heq hab.ne⟩
    | cons hrest => exact ⟨le_refl a, fun _ => le_of_lt (show l < l' from hrest)⟩
  · obtain ⟨rfl, rfl⟩ := List.cons.inj heq
    exact ⟨le_refl a, fun _ => le_refl l⟩

/-! ## The stages of a size -/

/-- `iter_planning_identities`: the alias of the least rank speaks for its identity. -/
def iterPlanningIdentities (observations : List Observation) : List FileSnapshot :=
  let ranked := orderBy (fun o => o.rank.key ++ [textKey o.snapshot.path]) observations
  let chosen := ranked.filter fun o =>
    ranked.find? (fun o' => o'.snapshot.identity = o.snapshot.identity) = some o
  orderBy (fun s => [textKey s.path]) (chosen.map Observation.snapshot)

/-- A row of `planning_fingerprints`. -/
abbrev FingerprintRow := Bytes × FileSnapshot

/-- The order of `iter_planning_collision_members`, whose join may find no observation. -/
def collisionKey (observations : List Observation) (w : FingerprintRow) : SortKey :=
  let ranks := match observations.find? fun o => o.snapshot.path = w.2.path with
    | some o => o.rank.key
    | none => [[], [], [], [], []]
  bytesKey w.1 :: (ranks ++ [textKey w.2.path])

/-- `iter_planning_collision_members`. -/
def iterPlanningCollisionMembers (observations : List Observation) (rows : List FingerprintRow) :
    List FingerprintRow :=
  orderBy (collisionKey observations)
    (rows.filter fun w => 1 < (rows.map Prod.fst).count w.1)

/-- What a plan is made with. -/
structure Request where
  exactCompare : Bool
  maxFileBytes : Option ℕ
  keeperPolicy : KeeperPolicy

/-- `size_is_admitted`. -/
def Request.admits (req : Request) (size : ℕ) : Prop := ∀ limit ∈ req.maxFileBytes, size ≤ limit

instance (req : Request) (size : ℕ) : Decidable (req.admits size) := by
  unfold Request.admits
  infer_instance

/-- `_matches_recorded`. -/
def matchesRecorded (snapshot recorded : FileSnapshot) : Prop :=
  snapshot.identity = recorded.identity ∧ snapshot.size = recorded.size ∧
    snapshot.mtimeNs = recorded.mtimeNs ∧ snapshot.birthtimeNs = recorded.birthtimeNs

instance (snapshot recorded : FileSnapshot) : Decidable (matchesRecorded snapshot recorded) :=
  inferInstanceAs (Decidable (_ ∧ _))

/-- `snapshots_by_size`. -/
def snapshotsBySize (inventory : List FileSnapshot) (size : ℕ) : List FileSnapshot :=
  orderBy (fun s => [textKey s.path]) (inventory.filter fun s => s.size = size)

/-- `_capture_size_members`, with the failures it counts. -/
def captureSizeMembers (host : Host) (req : Request) : List FileSnapshot → List Observation × ℕ
  | [] => ([], 0)
  | recorded :: rest =>
    let (observations, failures) := captureSizeMembers host req rest
    if ¬ req.admits recorded.size then (observations, failures)
    else
      match host.captureSnapshot recorded.path with
      | .error _ => (observations, failures + 1)
      | .ok snapshot =>
        if matchesRecorded snapshot recorded then
          (⟨snapshot, keeperRank host snapshot req.keeperPolicy⟩ :: observations, failures)
        else (observations, failures + 1)

/-- The loop of `_fingerprint_size_members`, with the failures it counts; no row replaces another,
as every identity is given once. -/
def fingerprintRows (host : Host) : List FileSnapshot → List FingerprintRow × ℕ
  | [] => ([], 0)
  | snapshot :: rest =>
    let (rows, failures) := fingerprintRows host rest
    match host.fingerprint snapshot with
    | .error _ => (rows, failures + 1)
    | .ok digest => ((digest, snapshot) :: rows, failures)

/-- `MAX_PLANNING_ALIAS_SAMPLE`. -/
def maxPlanningAliasSample : ℕ := 128

/-- The grouping of a size. -/
def Request.config (req : Request) (host : Host) (observations : List Observation) : Config where
  exactCompare := req.exactCompare
  explicitKeepIdentities := req.keeperPolicy.explicitKeepIdentities
  aliases := fun s =>
    min maxPlanningAliasSample (observations.countP fun o => o.snapshot.identity = s.identity)
  exactMatcher := host.exactMatcher

/-- The members of a size that collide. -/
def collisionMembers (host : Host) (req : Request) (recorded : List FileSnapshot) :
    List FingerprintRow :=
  let observations := (captureSizeMembers host req recorded).1
  iterPlanningCollisionMembers observations
    (fingerprintRows host (iterPlanningIdentities observations)).1

/-! ## A plan -/

/-- Why a plan is not completed: two observations of one path, or a conflict. -/
inductive PlanningError where
  | integrity
  | keeper (e : PlanError)
  deriving DecidableEq

/-- The groups of a session and its counted failures. -/
structure Session where
  groups : Accumulator
  failures : ℕ

/-- `_plan_size`, over the members that the inventory has recorded. -/
def planSize (host : Host) (req : Request) (inventory : List FileSnapshot) (size : ℕ)
    (s : Session) : Except PlanningError Session :=
  if ¬ req.admits size then .ok s
  else
    let recorded := snapshotsBySize inventory size
    let (observations, unread) := captureSizeMembers host req recorded
    if ¬ (observations.map fun o => o.snapshot.path).Nodup then .error .integrity
    else if (observations.map fun o => o.snapshot.identity).dedup.length ≤ 1 then
      .ok { s with failures := s.failures + unread }
    else
      match groupFullCollisions (req.config host observations)
        (collisionMembers host req recorded) s.groups with
      | .error e => .error (.keeper e)
      | .ok (b, groups) =>
        .ok ⟨groups, s.failures + unread +
          (fingerprintRows host (iterPlanningIdentities observations)).2 + b.failures⟩

/-- The loop of `run`, over the sizes that the inventory yields. -/
def planSizes (host : Host) (req : Request) (inventory : List FileSnapshot) :
    List ℕ → Session → Except PlanningError Session
  | [], s => .ok s
  | size :: rest, s => do
    let s ← planSize host req inventory size s
    planSizes host req inventory rest s

def Session.start : Session := ⟨Accumulator.empty, 0⟩

/-- `PlanningSession.run`: the groups that the index holds in the end. -/
def run (host : Host) (req : Request) (inventory : List FileSnapshot) (sizes : List ℕ) :
    Except PlanningError (List DuplicateGroup) := do
  let s ← planSizes host req inventory sizes Session.start
  pure s.groups.flush.persisted

/-! ## The order of the members -/

section Members

variable {host : Host} {req : Request} {observations : List Observation}

theorem captureSizeMembers_rank : ∀ {recorded : List FileSnapshot},
    ∀ o ∈ (captureSizeMembers host req recorded).1,
      o.rank = keeperRank host o.snapshot req.keeperPolicy
  | [] => by simp [captureSizeMembers]
  | r :: rest => by
    have ih := @captureSizeMembers_rank rest
    intro o ho
    simp only [captureSizeMembers] at ho
    by_cases hadmit : req.admits r.size
    · rw [if_neg (not_not.mpr hadmit)] at ho
      cases hcapture : host.captureSnapshot r.path with
      | error e =>
        rw [hcapture] at ho
        exact ih o ho
      | ok snapshot =>
        rw [hcapture] at ho
        simp only at ho
        split_ifs at ho
        · rcases List.mem_cons.mp ho with rfl | ho
          · rfl
          · exact ih o ho
        · exact ih o ho
    · rw [if_pos hadmit] at ho
      exact ih o ho

theorem fingerprintRows_sublist : ∀ snapshots : List FileSnapshot,
    ((fingerprintRows host snapshots).1.map Prod.snd).Sublist snapshots
  | [] => List.Sublist.slnil
  | s :: rest => by
    have ih := fingerprintRows_sublist rest
    simp only [fingerprintRows]
    cases host.fingerprint s with
    | error e => exact ih.cons s
    | ok digest => exact ih.cons_cons s

/-- One alias is chosen of every identity. -/
theorem iterPlanningIdentities_spec
    (hpaths : (observations.map fun o => o.snapshot.path).Nodup) :
    (∀ s ∈ iterPlanningIdentities observations, ∃ o ∈ observations, o.snapshot = s) ∧
      ((iterPlanningIdentities observations).map FileSnapshot.identity).Nodup := by
  unfold iterPlanningIdentities
  set ranked := orderBy (fun o : Observation => o.rank.key ++ [textKey o.snapshot.path])
    observations with hranked
  have hperm : ranked.Perm observations := perm_orderBy _ _
  constructor
  · intro s hs
    rw [(perm_orderBy _ _).mem_iff, List.mem_map] at hs
    obtain ⟨o, ho, rfl⟩ := hs
    exact ⟨o, hperm.mem_iff.mp (List.mem_of_mem_filter ho), rfl⟩
  · rw [((perm_orderBy _ _).map FileSnapshot.identity).nodup_iff, List.map_map]
    refine List.Nodup.map_on ?_ ((hperm.nodup_iff.mpr (List.Nodup.of_map _ hpaths)).filter _)
    intro o ho o' ho' heq
    have hsame : o.snapshot.identity = o'.snapshot.identity := heq
    have hfound := (List.mem_filter.mp ho).2
    have hfound' := (List.mem_filter.mp ho').2
    rw [decide_eq_true_eq] at hfound hfound'
    rw [hsame] at hfound
    exact Option.some.inj (hfound.symm.trans hfound')

variable {recorded : List FileSnapshot}

theorem identity_nodup_collisionMembers
    (hpaths : ((captureSizeMembers host req recorded).1.map fun o => o.snapshot.path).Nodup) :
    ((collisionMembers host req recorded).map fun m => m.2.identity).Nodup := by
  unfold collisionMembers iterPlanningCollisionMembers
  rw [((perm_orderBy _ _).map fun m : FingerprintRow => m.2.identity).nodup_iff]
  have hrows := @fingerprintRows_sublist host
    (iterPlanningIdentities (captureSizeMembers host req recorded).1)
  have hall := (hrows.map FileSnapshot.identity).nodup (iterPlanningIdentities_spec hpaths).2
  rw [List.map_map] at hall
  exact (List.filter_sublist.map _).nodup hall

theorem exists_observation
    (hpaths : ((captureSizeMembers host req recorded).1.map fun o => o.snapshot.path).Nodup)
    {m : FingerprintRow} (hm : m ∈ collisionMembers host req recorded) :
    ∃ o ∈ (captureSizeMembers host req recorded).1, o.snapshot = m.2 := by
  unfold collisionMembers iterPlanningCollisionMembers at hm
  rw [(perm_orderBy _ _).mem_iff] at hm
  have hrow := List.mem_of_mem_filter hm
  have hsnapshot := (fingerprintRows_sublist _).subset (List.mem_map_of_mem hrow)
  exact (iterPlanningIdentities_spec hpaths).1 _ hsnapshot

/-- The rank that the join finds is that of the member's identity. -/
theorem collisionKey_eq
    (hpaths : ((captureSizeMembers host req recorded).1.map fun o => o.snapshot.path).Nodup)
    {m : FingerprintRow} (hm : m ∈ collisionMembers host req recorded) :
    ∃ rest, collisionKey (captureSizeMembers host req recorded).1 m = bytesKey m.1 ::
      [if m.2.identity ∈ req.keeperPolicy.explicitKeepIdentities then 0 else 1] :: rest := by
  obtain ⟨o, ho, hsame⟩ := exists_observation hpaths hm
  have hfind : (captureSizeMembers host req recorded).1.find?
      (fun o' => o'.snapshot.path = m.2.path) = some o := by
    rw [← hsame]
    cases hf : (captureSizeMembers host req recorded).1.find?
        (fun o' => o'.snapshot.path = o.snapshot.path) with
    | none =>
      rw [List.find?_eq_none] at hf
      simpa using hf o ho
    | some o' =>
      have hpath : o'.snapshot.path = o.snapshot.path := by simpa using List.find?_some hf
      rw [List.inj_on_of_nodup_map hpaths (List.mem_of_find?_eq_some hf) ho hpath]
  unfold collisionKey
  rw [hfind, ← hsame]
  simp only [KeeperRank.key, captureSizeMembers_rank o ho, keeperRank, List.contains_iff_mem]
  exact ⟨_, rfl⟩

theorem bytesKey_injective : Function.Injective bytesKey :=
  List.map_injective_iff.mpr fun _ _ => UInt8.toNat_inj.mp

/-- The members of a digest follow each other, and an explicit one follows only explicit ones. -/
theorem collisionMembers_order
    (hpaths : ((captureSizeMembers host req recorded).1.map fun o => o.snapshot.path).Nodup) :
    Contiguous (collisionMembers host req recorded) ∧
      ∀ before m after, collisionMembers host req recorded = before ++ m :: after →
        ∀ n ∈ before, n.1 = m.1 → m.2.identity ∈ req.keeperPolicy.explicitKeepIdentities →
          n.2.identity ∈ req.keeperPolicy.explicitKeepIdentities := by
  have hsorted : (collisionMembers host req recorded).Pairwise fun a b =>
      collisionKey (captureSizeMembers host req recorded).1 a ≤
        collisionKey (captureSizeMembers host req recorded).1 b := pairwise_orderBy _ _
  constructor
  · refine @contiguous_of_sorted _ (fun d d' => bytesKey d ≤ bytesKey d') (fun d => le_refl _)
      (fun d d' h h' => bytesKey_injective (le_antisymm h h')) ?_
    rw [List.pairwise_map]
    refine hsorted.imp fun {a b} hle => ?_
    exact (of_cons_le_cons hle).1
  · intro before m after hsplit n hn hdigest hm
    have hmem : m ∈ collisionMembers host req recorded := by
      rw [hsplit]
      exact List.mem_append_right _ List.mem_cons_self
    have hmem' : n ∈ collisionMembers host req recorded := by
      rw [hsplit]
      exact List.mem_append_left _ hn
    rw [hsplit, List.pairwise_append] at hsorted
    have hle := hsorted.2.2 n hn m List.mem_cons_self
    obtain ⟨rest, hkey⟩ := collisionKey_eq hpaths hmem
    obtain ⟨rest', hkey'⟩ := collisionKey_eq hpaths hmem'
    rw [hkey, hkey', hdigest, if_pos hm] at hle
    by_contra hn'
    rw [if_neg hn'] at hle
    have hranks := (of_cons_le_cons ((of_cons_le_cons hle).2 rfl)).1
    exact absurd (of_cons_le_cons hranks).1 (by decide)

end Members

/-! ## Explicit identities -/

/-- The keeper whose class a placed member belongs to. -/
def Annotated.keeper (p : Annotated) : Option FileSnapshot :=
  match p.2 with
  | .keeper => some p.1.2
  | .redundant keeper => some keeper
  | _ => none

/-- Two explicit identities were placed in one class. -/
def Clash (cfg : Config) (members : List (Bytes × FileSnapshot)) : Prop :=
  ∃ p ∈ annotate cfg members, ∃ q ∈ annotate cfg members, p.1.1 = q.1.1 ∧
    p.keeper.isSome ∧ p.keeper = q.keeper ∧ p.1.2.identity ≠ q.1.2.identity ∧
    p.1.2.identity ∈ cfg.explicitKeepIdentities ∧ q.1.2.identity ∈ cfg.explicitKeepIdentities

section Explicit

variable {cfg : Config} {members : List (Bytes × FileSnapshot)} {groups : List DuplicateGroup}

/-- A redundant explicit member would have an explicit keeper, and they would be a conflict. -/
theorem explicit_not_mem_redundant
    (hdistinct : (members.map fun m => m.2.identity).Nodup)
    (hfirst : ∀ before m after, members = before ++ m :: after →
      ∀ n ∈ before, n.1 = m.1 → m.2.identity ∈ cfg.explicitKeepIdentities →
        n.2.identity ∈ cfg.explicitKeepIdentities)
    (hvalid : ∀ g ∈ groups, Valid cfg g)
    (hperm : (groupPairs groups).Perm (redundantPairs (annotate cfg members))) :
    ∀ g ∈ groups, ∀ m ∈ g.redundant, m.identity ∉ cfg.explicitKeepIdentities := by
  intro g hg m hm hexplicit
  have hpair := hperm.mem_iff.mp (mem_groupPairs.mpr ⟨g, hg, rfl, hm⟩)
  obtain ⟨digest, hmem⟩ := mem_redundantPairs.mp hpair
  obtain ⟨before, after, hsplit, hverdict⟩ := exists_of_mem_annotate hmem
  have hkeeper := mem_keepersAt.mp (keeper_mem_of_redundant hverdict.symm)
  have hbefore : (digest, g.keep) ∈ before := by
    rw [← map_fst_annotate cfg before]
    exact List.mem_map_of_mem hkeeper
  have hkeep := hfirst before _ after hsplit _ hbefore rfl hexplicit
  have hsame := (hvalid g hg).explicit g.keep List.mem_cons_self m
    (List.mem_cons_of_mem _ hm) hkeep hexplicit
  cases eq_of_identity hdistinct (annotate_subset hsplit _ hkeeper) hmem hsame

/-- Two members of one class are not both its keeper. -/
theorem exists_redundant_of_clash (h : Clash cfg members) :
    ∃ k s, (k, s) ∈ redundantPairs (annotate cfg members) ∧
      s.identity ∈ cfg.explicitKeepIdentities := by
  obtain ⟨p, hp, q, hq, -, hsome, hsame, hne, hpe, hqe⟩ := h
  obtain ⟨⟨d, s⟩, v⟩ := p
  obtain ⟨⟨d', s'⟩, v'⟩ := q
  cases v with
  | failed => cases hsome
  | refused => cases hsome
  | redundant k => exact ⟨k, s, mem_redundantPairs.mpr ⟨d, hp⟩, hpe⟩
  | keeper =>
    cases v' with
    | failed => cases hsame
    | refused => cases hsame
    | redundant k => exact ⟨k, s', mem_redundantPairs.mpr ⟨d', hq⟩, hqe⟩
    | keeper =>
      have hss : s = s' := Option.some.inj hsame
      exact absurd (congrArg FileSnapshot.identity hss) hne

end Explicit

section Plan

variable {host : Host} {req : Request} {inventory : List FileSnapshot} {size : ℕ}

/-- No stored group lists an explicit identity as redundant. -/
def Kept (policy : KeeperPolicy) (a : Accumulator) : Prop :=
  ∀ g ∈ a.stored, ∀ m ∈ g.redundant, m.identity ∉ policy.explicitKeepIdentities

theorem planSize_kept {s s' : Session} (h : planSize host req inventory size s = .ok s')
    (hs : Kept req.keeperPolicy s.groups) : Kept req.keeperPolicy s'.groups := by
  unfold planSize at h
  generalize snapshotsBySize inventory size = recorded at h
  by_cases hadmit : req.admits size
  · rw [if_neg (not_not.mpr hadmit)] at h
    by_cases hpaths : ((captureSizeMembers host req recorded).1.map fun o => o.snapshot.path).Nodup
    · simp only [hpaths, not_true_eq_false, if_false] at h
      split_ifs at h
      · rw [← Except.ok.inj h]
        exact hs
      · cases hrun : groupFullCollisions
          (req.config host (captureSizeMembers host req recorded).1)
          (collisionMembers host req recorded) s.groups with
        | error e =>
          rw [hrun] at h
          cases h
        | ok r =>
          obtain ⟨b, a⟩ := r
          rw [hrun] at h
          rw [← Except.ok.inj h]
          obtain ⟨hcontiguous, hfirst⟩ := collisionMembers_order hpaths
          obtain ⟨-, pairs, ⟨groups, hstored, hpairs, hvalid, -⟩, hperm⟩ :=
            groupFullCollisions_spec hcontiguous hrun
          rw [← hpairs] at hperm
          intro g hg
          rw [hstored, List.mem_append] at hg
          rcases hg with hg | hg
          · exact hs g hg
          · exact explicit_not_mem_redundant (identity_nodup_collisionMembers hpaths) hfirst
              hvalid hperm g hg
    · simp only [hpaths, not_false_eq_true, if_true] at h
      cases h
  · rw [if_pos hadmit] at h
    rw [← Except.ok.inj h]
    exact hs

theorem planSizes_kept : ∀ {sizes : List ℕ} {s s' : Session},
    planSizes host req inventory sizes s = .ok s' → Kept req.keeperPolicy s.groups →
    Kept req.keeperPolicy s'.groups
  | [], s, s', h, hs => by
    rw [← Except.ok.inj h]
    exact hs
  | size :: rest, s, s', h, hs => by
    obtain ⟨s₁, hfirst, h⟩ := bind_eq_ok.mp h
    exact planSizes_kept h (planSize_kept hfirst hs)

theorem planSizes_append : ∀ (before after : List ℕ) (s : Session),
    planSizes host req inventory (before ++ after) s =
      (planSizes host req inventory before s >>= planSizes host req inventory after)
  | [], after, s => rfl
  | size :: before, after, s => by
    rw [List.cons_append, planSizes, planSizes]
    cases planSize host req inventory size s with
    | error e => rfl
    | ok s₁ => exact planSizes_append before after s₁

/-- The observations of a size were stored, and among the members that collide two explicit
identities were placed in one class. -/
def ClashAt (host : Host) (req : Request) (inventory : List FileSnapshot) (size : ℕ) : Prop :=
  let recorded := snapshotsBySize inventory size
  ((captureSizeMembers host req recorded).1.map fun o => o.snapshot.path).Nodup ∧
    Clash (req.config host (captureSizeMembers host req recorded).1)
      (collisionMembers host req recorded)

theorem captureSizeMembers_eq_nil : ∀ {recorded : List FileSnapshot},
    (∀ r ∈ recorded, ¬ req.admits r.size) → (captureSizeMembers host req recorded).1 = []
  | [], _ => rfl
  | r :: rest, h => by
    have ih := captureSizeMembers_eq_nil fun r' hr' => h r' (List.mem_cons_of_mem _ hr')
    simp only [captureSizeMembers, if_pos (h r List.mem_cons_self)]
    exact ih

/-- Members of a size that is not admitted are not observed. -/
theorem admits_of_observed {o : Observation}
    (ho : o ∈ (captureSizeMembers host req (snapshotsBySize inventory size)).1) :
    req.admits size := by
  by_contra hadmit
  rw [captureSizeMembers_eq_nil fun r hr => ?_] at ho
  · cases ho
  · unfold snapshotsBySize at hr
    rw [(perm_orderBy _ _).mem_iff, List.mem_filter, decide_eq_true_eq] at hr
    rw [hr.2]
    exact hadmit

/-- A clash among the members of a size ends its planning. -/
theorem planSize_clash (hclash : ClashAt host req inventory size) (s : Session) :
    ∃ identities digest, planSize host req inventory size s =
        .error (.keeper (.keeperConflict identities digest)) ∧
      1 < identities.dedup.length ∧
      ∀ i ∈ identities, i ∈ req.keeperPolicy.explicitKeepIdentities := by
  obtain ⟨hpaths, hmet⟩ := hclash
  have ⟨p, hp, q, hq, _, _, _, hne, _⟩ := hmet
  have hmember : ∀ p ∈ annotate
      (req.config host (captureSizeMembers host req (snapshotsBySize inventory size)).1)
      (collisionMembers host req (snapshotsBySize inventory size)),
      p.1 ∈ collisionMembers host req (snapshotsBySize inventory size) := by
    intro p hp
    rw [← map_fst_annotate (req.config host _) (collisionMembers host req _)]
    exact List.mem_map_of_mem hp
  obtain ⟨o, ho, hop⟩ := exists_observation hpaths (hmember p hp)
  obtain ⟨o', ho', hoq⟩ := exists_observation hpaths (hmember q hq)
  have hmany : 1 < ((captureSizeMembers host req (snapshotsBySize inventory size)).1.map
      fun o => o.snapshot.identity).dedup.length := by
    by_contra hfew
    refine hne ?_
    rw [← hop, ← hoq]
    exact eq_of_dedup_length hfew (List.mem_map_of_mem ho) (List.mem_map_of_mem ho')
  unfold planSize
  rw [if_neg (not_not.mpr (admits_of_observed ho))]
  simp only [hpaths, not_true_eq_false, if_false, not_le.mpr hmany]
  cases hrun : groupFullCollisions
      (req.config host (captureSizeMembers host req (snapshotsBySize inventory size)).1)
      (collisionMembers host req (snapshotsBySize inventory size)) s.groups with
  | error e =>
    obtain ⟨identities, digest, rfl, hconflict⟩ := groupFullCollisions_error hrun
    exact ⟨identities, digest, rfl, hconflict⟩
  | ok r =>
    obtain ⟨b, a⟩ := r
    obtain ⟨hcontiguous, hfirst⟩ := collisionMembers_order hpaths
    obtain ⟨-, pairs, ⟨groups, -, hpairs, hvalid, -⟩, hperm⟩ :=
      groupFullCollisions_spec hcontiguous hrun
    rw [← hpairs] at hperm
    obtain ⟨k, t, hmem, hexplicit⟩ := exists_redundant_of_clash hmet
    obtain ⟨g, hg, -, ht⟩ := mem_groupPairs.mp (hperm.mem_iff.mpr hmem)
    exact absurd hexplicit (explicit_not_mem_redundant (identity_nodup_collisionMembers hpaths)
      hfirst hvalid hperm g hg t ht)

end Plan

/-- Whatever the inventory, the policy, the aliases and the outcomes of the comparisons. -/
theorem explicit_not_redundant (host : Host) (req : Request) (inventory : List FileSnapshot)
    (sizes : List ℕ) :
    (∀ groups, run host req inventory sizes = .ok groups →
      ∀ g ∈ groups, ∀ m ∈ g.redundant, m.identity ∉ req.keeperPolicy.explicitKeepIdentities) ∧
    ∀ before size after s, sizes = before ++ size :: after →
      planSizes host req inventory before Session.start = .ok s →
      ClashAt host req inventory size →
      ∃ identities digest, run host req inventory sizes =
          .error (.keeper (.keeperConflict identities digest)) ∧
        1 < identities.dedup.length ∧
        ∀ i ∈ identities, i ∈ req.keeperPolicy.explicitKeepIdentities := by
  constructor
  · intro groups h
    obtain ⟨s, hplan, h⟩ := bind_eq_ok.mp h
    rw [← Except.ok.inj h, persisted_flush]
    exact planSizes_kept hplan fun g hg => (List.not_mem_nil hg).elim
  · intro before size after s hsizes hbefore hclash
    obtain ⟨identities, digest, hsize, hconflict⟩ := planSize_clash hclash s
    refine ⟨identities, digest, ?_, hconflict⟩
    rw [run, hsizes, planSizes_append, hbefore, ok_bind, planSizes, hsize]
    rfl

/-! Three files of one content, the second and the third of them to be kept. -/

def sampleHost : Host where
  abspath := id
  copySuffix := fun _ => false
  captureSnapshot := fun path => .ok ⟨path, 0, path.length, 7, 0, 0⟩
  fingerprint := fun _ => .ok [1]
  exactMatcher := fun _ _ => .ok true

def sampleInventory : List FileSnapshot :=
  [⟨['a'], 0, 1, 7, 0, 0⟩, ⟨['a', 'b'], 0, 2, 7, 0, 0⟩, ⟨['a', 'b', 'c'], 0, 3, 7, 0, 0⟩]

def sampleRequest (kept : List Identity) : Request := ⟨true, none, ⟨kept, [], []⟩⟩

theorem explicit_not_redundant_sample :
    (∃ groups, run sampleHost (sampleRequest [(0, 2)]) sampleInventory [7] = .ok groups ∧
      groups.map (fun g => (g.keep.fileId, g.redundant.map FileSnapshot.fileId)) =
        [(2, [1, 3])] ∧
      ∀ g ∈ groups, ∀ m ∈ g.redundant, m.identity ∉ [(0, 2)]) ∧
    ∃ identities digest, run sampleHost (sampleRequest [(0, 2), (0, 3)]) sampleInventory [7] =
        .error (.keeper (.keeperConflict identities digest)) ∧
      1 < identities.dedup.length ∧ ∀ i ∈ identities, i ∈ [(0, 2), (0, 3)] := by
  constructor
  · obtain ⟨hkept, -⟩ := explicit_not_redundant sampleHost (sampleRequest [(0, 2)])
      sampleInventory [7]
    have hrun : run sampleHost (sampleRequest [(0, 2)]) sampleInventory [7] =
        .ok [⟨7, ⟨['a', 'b'], 0, 2, 7, 0, 0⟩,
          [⟨['a'], 0, 1, 7, 0, 0⟩, ⟨['a', 'b', 'c'], 0, 3, 7, 0, 0⟩], [1]⟩] := by
      decide +kernel
    exact ⟨_, hrun, rfl, hkept _ hrun⟩
  · obtain ⟨-, hraises⟩ := explicit_not_redundant sampleHost (sampleRequest [(0, 2), (0, 3)])
      sampleInventory [7]
    refine hraises [] 7 [] Session.start rfl rfl ⟨by decide +kernel, ?_⟩
    refine ⟨(([1], ⟨['a', 'b'], 0, 2, 7, 0, 0⟩), .keeper), by decide +kernel,
      (([1], ⟨['a', 'b', 'c'], 0, 3, 7, 0, 0⟩), .redundant ⟨['a', 'b'], 0, 2, 7, 0, 0⟩),
      by decide +kernel, rfl, rfl, rfl, by decide, by decide, by decide⟩

end Deduplication
end Neocortex
