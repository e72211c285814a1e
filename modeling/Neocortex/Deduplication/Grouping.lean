import Neocortex.Python.Text

/-!
# Duplicate groups

`deduplication.planning.pipeline`: how the planner separates the members of one digest into sets of
equal files, and how it stores them.

* `Accumulator`: `_PlanAccumulator`, the stored groups, the open batch and the totals.
* `Builder`: `_CollisionGroupBuilder`, the representatives of the active digest, each with its chunk
  of redundant members.

What the index says of a member's aliases is an argument, the number of them in its sample. The texts
of the proofs, the progress events and the index's own checks of a stored batch (members of one size
that the inventory has recorded, with different paths and identities) are left out.
-/

namespace Neocortex
namespace Deduplication

open Python

/-! ## Values -/

/-- `FileSnapshot`. -/
structure FileSnapshot where
  path : Text
  volumeId : ℕ
  fileId : ℕ
  size : ℕ
  mtimeNs : ℤ
  birthtimeNs : ℤ
  deriving DecidableEq

/-- `(volume_id, file_id)`. -/
abbrev Identity := ℕ × ℕ

def FileSnapshot.identity (s : FileSnapshot) : Identity := (s.volumeId, s.fileId)

/-- `DuplicateGroup`; the fingerprint is the digest that its hexadecimal text stands for. -/
structure DuplicateGroup where
  size : ℕ
  keep : FileSnapshot
  redundant : List FileSnapshot
  fullFingerprint : Bytes
  deriving DecidableEq

/-- `nominal_redundant_bytes`. -/
def DuplicateGroup.reclaimableBytes (g : DuplicateGroup) : ℕ := g.size * g.redundant.length

/-- `KeeperConflictError`, with its identities and its fingerprint. -/
inductive PlanError where
  | keeperConflict (identities : List Identity) (fullFingerprint : Bytes)
  deriving DecidableEq

def planGroupBatchSize : ℕ := 256
def planMemberBatchSize : ℕ := 2048
def planAliasBatchSize : ℕ := 4096
def maxRedundantMembersPerGroup : ℕ := 1024
def maxExactHashCollisionSets : ℕ := 128

/-- What a planning run is given: the explicit identities of its keeper policy, the number of aliases
in a member's sample, and the matcher, which may raise `FileChangedError`. -/
structure Config where
  exactCompare : Bool
  explicitKeepIdentities : List Identity
  aliases : FileSnapshot → ℕ
  exactMatcher : FileSnapshot → FileSnapshot → Except Unit Bool

/-! ## The accumulator -/

/-- `_PlanAccumulator`. -/
structure Accumulator where
  persisted : List DuplicateGroup
  batch : List DuplicateGroup
  batchMemberCount : ℕ
  batchAliasCount : ℕ
  groupCount : ℕ
  redundantFiles : ℕ
  reclaimableBytes : ℕ

def Accumulator.empty : Accumulator := ⟨[], [], 0, 0, 0, 0, 0⟩

/-- The groups of the plan, those of the open batch last. -/
def Accumulator.stored (a : Accumulator) : List DuplicateGroup := a.persisted ++ a.batch

/-- `_PlanAccumulator.flush`. -/
def Accumulator.flush (a : Accumulator) : Accumulator :=
  if a.batch = [] then a
  else { a with
    persisted := a.persisted ++ a.batch
    batch := []
    batchMemberCount := 0
    batchAliasCount := 0 }

/-- `flush` under a condition. -/
def Accumulator.flushIf (c : Prop) [Decidable c] (a : Accumulator) : Accumulator :=
  if c then a.flush else a

/-- The explicit identities among some members. -/
def selected (cfg : Config) (members : List FileSnapshot) : List Identity :=
  (members.map FileSnapshot.identity).filter (· ∈ cfg.explicitKeepIdentities)

/-- The accumulator with one more group. -/
def Accumulator.push (a : Accumulator) (group : DuplicateGroup) (memberCount aliasCount : ℕ) :
    Accumulator :=
  { a with
    batch := a.batch ++ [group]
    batchMemberCount := a.batchMemberCount + memberCount
    batchAliasCount := a.batchAliasCount + aliasCount
    groupCount := a.groupCount + 1
    redundantFiles := a.redundantFiles + group.redundant.length
    reclaimableBytes := a.reclaimableBytes + group.reclaimableBytes }

/-- `_PlanAccumulator.store`. -/
def Accumulator.store (cfg : Config) (digest : Bytes) (keep : FileSnapshot)
    (redundant : List FileSnapshot) (a : Accumulator) : Except PlanError Accumulator :=
  if redundant = [] then .ok a
  else
    let members := keep :: redundant
    if 1 < (selected cfg members).dedup.length then
      .error (.keeperConflict (selected cfg members) digest)
    else
      let a := a.flushIf (planMemberBatchSize < a.batchMemberCount + members.length)
      let group := ⟨keep.size, keep, redundant, digest⟩
      let aliasCount := (members.map cfg.aliases).sum
      let a := a.flushIf (planAliasBatchSize < a.batchAliasCount + aliasCount)
      let a := a.push group members.length aliasCount
      .ok (a.flushIf (planGroupBatchSize ≤ a.batch.length ∨
        planMemberBatchSize ≤ a.batchMemberCount ∨ planAliasBatchSize ≤ a.batchAliasCount))

/-! ## The builder -/

/-- A representative with its chunk of redundant members. -/
abbrev MemberSet := FileSnapshot × List FileSnapshot

/-- `_CollisionGroupBuilder`, with the failures it has counted. -/
structure Builder where
  activeDigest : Option Bytes
  sets : List MemberSet
  failures : ℕ

def Builder.empty : Builder := ⟨none, [], 0⟩

/-- What `_place_with_representative` returns: `None`, `False`, or `True` with the sets it has
changed. -/
inductive Placement where
  | failed
  | nowhere
  | into (sets : List MemberSet)

/-- The loop of `_place_with_representative`. -/
def placeExact (cfg : Config) (snapshot : FileSnapshot) : List MemberSet → Placement
  | [] => .nowhere
  | (representative, chunk) :: rest =>
    match cfg.exactMatcher representative snapshot with
    | .error _ => .failed
    | .ok true => .into ((representative, chunk ++ [snapshot]) :: rest)
    | .ok false =>
      match placeExact cfg snapshot rest with
      | .into sets => .into ((representative, chunk) :: sets)
      | placement => placement

/-- `_place_with_representative`. -/
def placeWithRepresentative (cfg : Config) (snapshot : FileSnapshot) (sets : List MemberSet) :
    Placement :=
  match cfg.exactCompare, sets with
  | false, (representative, chunk) :: rest =>
    .into ((representative, chunk ++ [snapshot]) :: rest)
  | _, sets => placeExact cfg snapshot sets

/-- `_add_representative`. -/
def Builder.addRepresentative (cfg : Config) (snapshot : FileSnapshot) (b : Builder) : Builder :=
  if cfg.exactCompare ∧ maxExactHashCollisionSets ≤ b.sets.length then
    { b with failures := b.failures + 1 }
  else { b with sets := b.sets ++ [(snapshot, [])] }

/-- `_flush_complete_chunks`. -/
def flushCompleteChunks (cfg : Config) (digest : Bytes) :
    List MemberSet → Accumulator → Except PlanError (List MemberSet × Accumulator)
  | [], a => .ok ([], a)
  | (representative, chunk) :: rest, a => do
    if chunk.length < maxRedundantMembersPerGroup then
      let (sets, a) ← flushCompleteChunks cfg digest rest a
      pure ((representative, chunk) :: sets, a)
    else
      let a ← a.store cfg digest representative chunk
      let (sets, a) ← flushCompleteChunks cfg digest rest a
      pure ((representative, []) :: sets, a)

/-- The loop of `_CollisionGroupBuilder.flush`. -/
def storeSets (cfg : Config) (digest : Bytes) :
    List MemberSet → Accumulator → Except PlanError Accumulator
  | [], a => .ok a
  | (keep, redundant) :: rest, a => do
    let a ← a.store cfg digest keep redundant
    storeSets cfg digest rest a

/-- `_CollisionGroupBuilder.flush`; the chunks are cleared. -/
def Builder.flush (cfg : Config) (b : Builder) (a : Accumulator) :
    Except PlanError (Builder × Accumulator) :=
  match b.activeDigest with
  | none => .ok (b, a)
  | some digest => do
    let a ← storeSets cfg digest b.sets a
    pure ({ b with sets := b.sets.map fun set => (set.1, []) }, a)

/-- The part of `add` behind the change of the digest. -/
def Builder.addActive (cfg : Config) (digest : Bytes) (snapshot : FileSnapshot) (b : Builder)
    (a : Accumulator) : Except PlanError (Builder × Accumulator) :=
  match placeWithRepresentative cfg snapshot b.sets with
  | .failed => .ok ({ b with failures := b.failures + 1 }, a)
  | .nowhere => .ok (b.addRepresentative cfg snapshot, a)
  | .into sets => do
    let (sets, a) ← flushCompleteChunks cfg digest sets a
    pure ({ b with sets := sets }, a)

/-- `_CollisionGroupBuilder.add`. -/
def Builder.add (cfg : Config) (digest : Bytes) (snapshot : FileSnapshot) (b : Builder)
    (a : Accumulator) : Except PlanError (Builder × Accumulator) :=
  if b.activeDigest = some digest then b.addActive cfg digest snapshot a
  else do
    let (b, a) ← b.flush cfg a
    Builder.addActive cfg digest snapshot { b with activeDigest := some digest, sets := [] } a

/-- The loop of `_group_full_collisions`. -/
def addAll (cfg : Config) :
    List (Bytes × FileSnapshot) → Builder → Accumulator → Except PlanError (Builder × Accumulator)
  | [], b, a => .ok (b, a)
  | (digest, snapshot) :: rest, b, a => do
    let (b, a) ← b.add cfg digest snapshot a
    addAll cfg rest b a

/-- `_group_full_collisions`, over the members that the index yields. -/
def groupFullCollisions (cfg : Config) (members : List (Bytes × FileSnapshot)) (a : Accumulator) :
    Except PlanError (Builder × Accumulator) := do
  let (b, a) ← addAll cfg members Builder.empty a
  b.flush cfg a

end Deduplication
end Neocortex
