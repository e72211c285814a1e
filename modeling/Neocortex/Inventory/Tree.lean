import Neocortex.Inventory.Paths

/-!
# Directory trees and their traversal

The tree below the root of a scan, as the system calls of `inventory/traversal.py` show
it, and the order in which `InventoryTraversal` visits it.

The loop of `_run_admitted` keeps a stack of directories with their iterators.  Which
directories it opens and which entries it takes up next depends on the tree and on the
exclusion policy alone, never on what is done with the entries; so the loop is split into
the machine below, which only says what is visited, and the programs of
`Inventory.Traversal`, which say what a visit does.

* `advance`, `schedule`: the stack machine of the source;
* `walk`: the same visits by recursion over the tree;
* `schedule_eq_walk`: the machine visits exactly that, and its fuel is enough.
-/

namespace Neocortex
namespace Inventory

/-- What `os.DirEntry.stat` says about a file. -/
structure FileStat where
  dev : UInt64
  ino : UInt64
  size : ℕ
  mtimeNs : ℤ
  birthtimeNs : ℤ
  ctimeNs : ℤ
  deriving DecidableEq

/-- The identity of a directory.  Its times are compared with themselves only, and the
tree does not change while it is scanned. -/
structure DirectoryStat where
  dev : UInt64
  ino : UInt64
  birthtimeNs : ℤ
  deriving DecidableEq

/-- An entry of a directory.  The last four constructors before `directory` are entries
at which a system call fails with `OSError`. -/
inductive Node where
  | file (stat : FileStat)
  | link
  /-- A socket, a device, a pipe. -/
  | other
  /-- Its type cannot be read. -/
  | untyped
  | unstatableFile
  | unstatableDirectory
  /-- A directory that cannot be opened. -/
  | unopenable
  | directory (stat : DirectoryStat) (entries : List (Name × Node))

namespace Node

/-- `entry.is_file(follow_symlinks=False)`. -/
def isFile : Node → Bool
  | .file _ => true
  | .unstatableFile => true
  | _ => false

mutual
/-- The names in every directory are distinct. -/
def namesDistinct : Node → Bool
  | .directory _ entries => decide (entries.map Prod.fst).Nodup && namesDistinctEntries entries
  | _ => true

def namesDistinctEntries : List (Name × Node) → Bool
  | [] => true
  | (_, child) :: rest => namesDistinct child && namesDistinctEntries rest
end

theorem namesDistinct_of_mem {entries : List (Name × Node)}
    (h : namesDistinctEntries entries = true) {e : Name × Node} (he : e ∈ entries) :
    e.2.namesDistinct = true := by
  induction entries with
  | nil => simp at he
  | cons f rest ih =>
    rw [namesDistinctEntries, Bool.and_eq_true] at h
    rcases List.mem_cons.mp he with rfl | he
    · exact h.1
    · exact ih h.2 he

mutual
/-- A bound on the calls of `_advance` that a directory costs. -/
def turns : Node → ℕ
  | .directory _ entries => 1 + turnsEntries entries
  | _ => 1

def turnsEntries : List (Name × Node) → ℕ
  | [] => 0
  | (_, child) :: rest => turns child + 1 + turnsEntries rest
end

end Node

/-- The compiled exclusion policy: what it decides about a path, and its signature. -/
structure InventoryExclusionPolicy where
  excludesDirectory : Path → Bool
  excludesFile : Path → Bool
  signature : Python.Text

/-- A root directory as one scan finds it. -/
structure Tree where
  root : Path
  stat : DirectoryStat
  entries : List (Name × Node)
  distinct : (Node.directory stat entries).namesDistinct = true

/-- The root as a node. -/
def Tree.node (t : Tree) : Node := .directory t.stat t.entries

/-- What the traversal does, one visit at a time.  Paths are relative to the root. -/
inductive Visit where
  /-- The work check at the start of `_advance`. -/
  | advance
  /-- `_open_directory` succeeds on a directory with that many entries. -/
  | opened (directory : Path) (stat : DirectoryStat) (count : ℕ)
  /-- `_open_directory` fails. -/
  | refused (directory : Path)
  /-- `_process_entry`. -/
  | entry (path : Path) (node : Node)

/-- Whether `_process_directory` pushes the entry at an absolute path. -/
def descends (policy : InventoryExclusionPolicy) (path : Path) : Node → Bool
  | .directory _ _ => !policy.excludesDirectory path && path.supported
  | .unopenable => !policy.excludesDirectory path && path.supported
  | _ => false

/-- The entries of a directory in the order of its iterator: by name in deterministic
mode, as the system lists them otherwise. -/
def ordered {α : Type} (deterministic : Bool) (entries : List (Name × α)) : List (Name × α) :=
  if deterministic then entries.insertionSort (fun a b => a.1 ≤ b.1) else entries

/-! ## The stack machine -/

/-- One element of the stack: a directory, and its iterator once it is open. -/
structure Frame where
  directory : Path
  node : Node
  iterator : Option (List (Name × Node))

section Machine

variable (root : Path) (policy : InventoryExclusionPolicy) (deterministic : Bool)

/-- `_next_entry` and the part of `_process_entry` that changes the stack. -/
def nextEntry (frame : Frame) (below : List Frame) :
    List (Name × Node) → List Visit × List Frame
  | [] => ([], below)
  | (name, child) :: rest =>
    let path := frame.directory ++ [name]
    let stack := { frame with iterator := some rest } :: below
    ([.entry path child],
      if descends policy (root ++ path) child then ⟨path, child, none⟩ :: stack else stack)

/-- One call of `_advance` on a stack that is not empty. -/
def advance (frame : Frame) (below : List Frame) : List Visit × List Frame :=
  match frame.iterator with
  | some rest =>
    let next := nextEntry root policy frame below rest
    (.advance :: next.1, next.2)
  | none =>
    match frame.node with
    | .directory stat entries =>
      let next := nextEntry root policy frame below (ordered deterministic entries)
      (.advance :: .opened frame.directory stat entries.length :: next.1, next.2)
    | _ => ([.advance, .refused frame.directory], below)

/-- The loop `while stack: self._advance(stack)`. -/
def schedule : ℕ → List Frame → List Visit
  | 0, _ => []
  | _ + 1, [] => []
  | fuel + 1, frame :: below =>
    let next := advance root policy deterministic frame below
    next.1 ++ schedule fuel next.2

/-! ## The same visits by recursion -/

mutual
/-- The visits of a directory that is pushed. -/
def walk (directory : Path) : Node → List Visit
  | .directory stat entries =>
    .advance :: .opened directory stat entries.length ::
      (ordered deterministic (walkEntries directory entries)).flatMap Prod.snd
  | _ => [.advance, .refused directory]

/-- The visits of each entry, up to the call of `_advance` that leaves it. -/
def walkEntries (directory : Path) : List (Name × Node) → List (Name × List Visit)
  | [] => []
  | (name, child) :: rest =>
    (name, .entry (directory ++ [name]) child ::
      ((if descends policy (root ++ (directory ++ [name])) child
        then walk (directory ++ [name]) child else []) ++ [.advance])) ::
      walkEntries directory rest
end

/-- The visits of one entry. -/
def walkEntry (directory : Path) (e : Name × Node) : Name × List Visit :=
  (e.1, .entry (directory ++ [e.1]) e.2 ::
    ((if descends policy (root ++ (directory ++ [e.1])) e.2
      then walk root policy deterministic (directory ++ [e.1]) e.2 else []) ++ [.advance]))

theorem walkEntries_eq_map (directory : Path) (entries : List (Name × Node)) :
    walkEntries root policy deterministic directory entries =
      entries.map (walkEntry root policy deterministic directory) := by
  induction entries with
  | nil => rw [walkEntries]; rfl
  | cons e rest ih =>
    obtain ⟨name, child⟩ := e
    rw [walkEntries, ih]
    rfl

/-- Sorting the entries and sorting their visits is the same. -/
theorem map_ordered {α β : Type} (f : Name × α → Name × β) (hf : ∀ e, (f e).1 = e.1)
    (entries : List (Name × α)) :
    (ordered deterministic entries).map f = ordered deterministic (entries.map f) := by
  cases deterministic with
  | false => rfl
  | true =>
    refine List.map_insertionSort _ _ f entries fun a _ b _ => ?_
    rw [hf, hf]

@[simp] theorem mem_ordered {α : Type} {entries : List (Name × α)} {e : Name × α} :
    e ∈ ordered deterministic entries ↔ e ∈ entries := by
  cases deterministic with
  | false => rfl
  | true => exact List.mem_insertionSort _

theorem walk_directory (directory : Path) (stat : DirectoryStat)
    (entries : List (Name × Node)) :
    walk root policy deterministic directory (.directory stat entries) =
      .advance :: .opened directory stat entries.length ::
        (ordered deterministic entries).flatMap
          fun e => (walkEntry root policy deterministic directory e).2 := by
  rw [walk, walkEntries_eq_map, ← map_ordered, List.flatMap_map]
  exact fun _ => rfl

/-- What a stack still has to visit. -/
def Frame.visits (frame : Frame) : List Visit :=
  match frame.iterator with
  | none => walk root policy deterministic frame.directory frame.node
  | some rest =>
    .advance :: (walkEntries root policy deterministic frame.directory rest).flatMap Prod.snd

/-- The calls of `_advance` that a stack may still need. -/
def Frame.turns (frame : Frame) : ℕ :=
  match frame.iterator with
  | none => frame.node.turns
  | some rest => 1 + Node.turnsEntries rest

theorem Node.turnsEntries_eq_sum (entries : List (Name × Node)) :
    Node.turnsEntries entries = (entries.map fun e => e.2.turns + 1).sum := by
  induction entries with
  | nil => rw [Node.turnsEntries]; rfl
  | cons e rest ih =>
    rw [Node.turnsEntries, ih, List.map_cons, List.sum_cons]

theorem turnsEntries_ordered (entries : List (Name × Node)) :
    Node.turnsEntries (ordered deterministic entries) = Node.turnsEntries entries := by
  cases deterministic with
  | false => rfl
  | true =>
    rw [Node.turnsEntries_eq_sum, Node.turnsEntries_eq_sum, ordered, if_pos rfl]
    exact ((List.perm_insertionSort _ entries).map _).sum_eq

theorem nextEntry_visits (frame : Frame) (below : List Frame) (rest : List (Name × Node)) :
    let next := nextEntry root policy frame below rest
    next.1 ++ next.2.flatMap (Frame.visits root policy deterministic) =
      (walkEntries root policy deterministic frame.directory rest).flatMap Prod.snd ++
        below.flatMap (Frame.visits root policy deterministic) := by
  cases rest with
  | nil => simp [nextEntry, walkEntries]
  | cons e rest =>
    obtain ⟨name, child⟩ := e
    by_cases h : descends policy (root ++ (frame.directory ++ [name])) child = true
    · simp [nextEntry, walkEntries, h, Frame.visits]
    · simp [nextEntry, walkEntries, h, Frame.visits]

theorem nextEntry_turns (frame : Frame) (below : List Frame) (rest : List (Name × Node)) :
    ((nextEntry root policy frame below rest).2.map Frame.turns).sum ≤
      Node.turnsEntries rest + (below.map Frame.turns).sum := by
  cases rest with
  | nil => simp [nextEntry]
  | cons e rest =>
    obtain ⟨name, child⟩ := e
    by_cases h : descends policy (root ++ (frame.directory ++ [name])) child = true
    · simp only [nextEntry, h, if_true, List.map_cons, List.sum_cons, Frame.turns,
        Node.turnsEntries]
      omega
    · simp only [nextEntry, h, Bool.false_eq_true, if_false, List.map_cons, List.sum_cons,
        Frame.turns, Node.turnsEntries]
      omega

theorem advance_visits (frame : Frame) (below : List Frame) :
    let next := advance root policy deterministic frame below
    next.1 ++ next.2.flatMap (Frame.visits root policy deterministic) =
      (frame :: below).flatMap (Frame.visits root policy deterministic) := by
  obtain ⟨directory, node, iterator⟩ := frame
  cases iterator with
  | some rest =>
    simp only [advance, List.flatMap_cons, Frame.visits, List.cons_append]
    rw [nextEntry_visits]
  | none =>
    cases node with
    | directory stat entries =>
      simp only [advance, List.flatMap_cons, Frame.visits, walk, List.cons_append]
      rw [nextEntry_visits, walkEntries_eq_map, walkEntries_eq_map, map_ordered]
      exact fun e => rfl
    | _ => simp [advance, Frame.visits, walk]

theorem advance_turns (frame : Frame) (below : List Frame) :
    ((advance root policy deterministic frame below).2.map Frame.turns).sum + 1 ≤
      ((frame :: below).map Frame.turns).sum := by
  obtain ⟨directory, node, iterator⟩ := frame
  cases iterator with
  | some rest =>
    have := nextEntry_turns root policy ⟨directory, node, some rest⟩ below rest
    simp only [advance, List.map_cons, List.sum_cons, Frame.turns]
    omega
  | none =>
    cases node with
    | directory stat entries =>
      have := nextEntry_turns root policy ⟨directory, .directory stat entries, none⟩ below
        (ordered deterministic entries)
      rw [turnsEntries_ordered] at this
      simp only [advance, List.map_cons, List.sum_cons, Frame.turns, Node.turns]
      omega
    | _ => simp [advance, Frame.turns, Node.turns]

/-- Every frame needs at least one call of `_advance`. -/
theorem Frame.turns_pos (frame : Frame) : 0 < frame.turns := by
  obtain ⟨directory, node, iterator⟩ := frame
  cases iterator with
  | some rest => simp [Frame.turns]
  | none => cases node <;> simp [Frame.turns, Node.turns]

/-- With enough fuel the loop visits what its stack stands for. -/
theorem schedule_eq_flatMap (fuel : ℕ) : ∀ stack : List Frame,
    (stack.map Frame.turns).sum ≤ fuel →
    schedule root policy deterministic fuel stack =
      stack.flatMap (Frame.visits root policy deterministic) := by
  induction fuel with
  | zero =>
    intro stack h
    cases stack with
    | nil => rfl
    | cons frame below =>
      have := frame.turns_pos
      simp only [List.map_cons, List.sum_cons] at h
      omega
  | succ fuel ih =>
    intro stack h
    cases stack with
    | nil => rfl
    | cons frame below =>
      have hturns := advance_turns root policy deterministic frame below
      rw [schedule, ih _ (by omega), advance_visits]

end Machine

/-- The visits of a traversal of the tree. -/
def Tree.visits (policy : InventoryExclusionPolicy) (deterministic : Bool) (t : Tree) :
    List Visit :=
  schedule t.root policy deterministic t.node.turns [⟨[], t.node, none⟩]

/-- The loop of the source visits the tree depth first, and ends. -/
theorem schedule_eq_walk (policy : InventoryExclusionPolicy) (deterministic : Bool)
    (t : Tree) : t.visits policy deterministic = walk t.root policy deterministic [] t.node := by
  rw [Tree.visits, schedule_eq_flatMap _ _ _ _ _ (by simp [Frame.turns])]
  simp [Frame.visits]

/-! ## The order of the entries -/

/-- The entry that a visit takes up. -/
def Visit.entryPath : Visit → Option Path
  | .entry path _ => some path
  | _ => none

/-- The entries of a list of visits, in order. -/
def entryPaths (visits : List Visit) : List Path := visits.filterMap Visit.entryPath

@[simp] theorem entryPaths_append (vs ws : List Visit) :
    entryPaths (vs ++ ws) = entryPaths vs ++ entryPaths ws := List.filterMap_append

section Order

variable {root : Path} {policy : InventoryExclusionPolicy} {deterministic : Bool}

@[simp] theorem entryPaths_walkEntry (directory : Path) (e : Name × Node) :
    entryPaths (walkEntry root policy deterministic directory e).2 =
      (directory ++ [e.1]) :: entryPaths
        (if descends policy (root ++ (directory ++ [e.1])) e.2
          then walk root policy deterministic (directory ++ [e.1]) e.2 else []) := by
  simp [walkEntry, entryPaths, Visit.entryPath]

theorem entryPaths_walk_directory (directory : Path) (stat : DirectoryStat)
    (entries : List (Name × Node)) :
    entryPaths (walk root policy deterministic directory (.directory stat entries)) =
      (ordered deterministic entries).flatMap
        fun e => entryPaths (walkEntry root policy deterministic directory e).2 := by
  rw [walk_directory, entryPaths, List.filterMap_cons, List.filterMap_cons]
  simp only [Visit.entryPath, List.filterMap_flatMap]
  rfl

/-- A node below a directory is smaller than the directory. -/
theorem sizeOf_child_lt (stat : DirectoryStat) {entries : List (Name × Node)}
    {e : Name × Node} (h : e ∈ entries) : sizeOf e.2 < sizeOf (Node.directory stat entries) := by
  have := List.sizeOf_lt_of_mem h
  obtain ⟨name, child⟩ := e
  simp only [Node.directory.sizeOf_spec, Prod.mk.sizeOf_spec] at this ⊢
  omega

/-- Everything visited below a directory is below it. -/
theorem exists_of_mem_walk : ∀ (node : Node) (directory : Path),
    ∀ p ∈ entryPaths (walk root policy deterministic directory node),
      ∃ q, q ≠ [] ∧ p = directory ++ q
  | .directory stat entries, directory => by
    intro p hp
    rw [entryPaths_walk_directory, List.mem_flatMap] at hp
    obtain ⟨e, he, hp⟩ := hp
    have hlt := sizeOf_child_lt stat ((mem_ordered deterministic).mp he)
    rw [entryPaths_walkEntry] at hp
    rcases List.mem_cons.mp hp with rfl | hp
    · exact ⟨[e.1], by simp, rfl⟩
    · split at hp
      · obtain ⟨q, -, rfl⟩ := exists_of_mem_walk e.2 (directory ++ [e.1]) p hp
        exact ⟨e.1 :: q, by simp, by simp⟩
      · simp [entryPaths] at hp
  | .file _, _ | .link, _ | .other, _ | .untyped, _ | .unstatableFile, _
  | .unstatableDirectory, _ | .unopenable, _ => by
    simp [walk, entryPaths, Visit.entryPath]
termination_by node => sizeOf node
decreasing_by exact hlt

/-- The entries that one entry of a directory brings are below it. -/
theorem exists_of_mem_walkEntry {directory : Path} {e : Name × Node} {p : Path}
    (hp : p ∈ entryPaths (walkEntry root policy deterministic directory e).2) :
    ∃ q, p = directory ++ e.1 :: q := by
  rw [entryPaths_walkEntry] at hp
  rcases List.mem_cons.mp hp with rfl | hp
  · exact ⟨[], rfl⟩
  · split at hp
    · obtain ⟨q, -, rfl⟩ := exists_of_mem_walk e.2 (directory ++ [e.1]) p hp
      exact ⟨q, by simp⟩
    · simp [entryPaths] at hp

/-- A relation that holds between siblings in the order of the iterator, and between a
directory and what it holds, holds along the whole traversal. -/
theorem walk_pairwise {R : Path → Path → Prop} {r : Name → Name → Prop}
    (hordered : ∀ entries : List (Name × Node), (entries.map Prod.fst).Nodup →
      ((ordered deterministic entries).map Prod.fst).Pairwise r)
    (hsibling : ∀ (parent p q : Path) (m n : Name), r m n →
      R (parent ++ m :: p) (parent ++ n :: q))
    (hbelow : ∀ p q : Path, q ≠ [] → R p (p ++ q)) :
    ∀ (node : Node) (directory : Path), node.namesDistinct = true →
      (entryPaths (walk root policy deterministic directory node)).Pairwise R
  | .directory stat entries, directory => by
    intro hd
    rw [Node.namesDistinct, Bool.and_eq_true, decide_eq_true_eq] at hd
    rw [entryPaths_walk_directory]
    have hnames := hordered entries hd.1
    rw [List.pairwise_map] at hnames
    rw [List.pairwise_flatMap]
    refine ⟨fun e he => ?_, hnames.imp fun {a b} hab p hp q hq => ?_⟩
    · rw [mem_ordered] at he
      have hlt := sizeOf_child_lt stat he
      have hchild : e.2.namesDistinct = true := Node.namesDistinct_of_mem hd.2 he
      rw [entryPaths_walkEntry, List.pairwise_cons]
      refine ⟨fun p hp => ?_, ?_⟩
      · split at hp
        · obtain ⟨q, hq, rfl⟩ := exists_of_mem_walk e.2 (directory ++ [e.1]) p hp
          exact hbelow _ q hq
        · simp [entryPaths] at hp
      · split
        · exact walk_pairwise hordered hsibling hbelow e.2 (directory ++ [e.1]) hchild
        · simp [entryPaths]
    · obtain ⟨p', rfl⟩ := exists_of_mem_walkEntry hp
      obtain ⟨q', rfl⟩ := exists_of_mem_walkEntry hq
      exact hsibling directory p' q' a.1 b.1 hab
  | .file _, _ | .link, _ | .other, _ | .untyped, _ | .unstatableFile, _
  | .unstatableDirectory, _ | .unopenable, _ => by
    intro _
    simp only [walk]
    exact List.Pairwise.nil
termination_by node => sizeOf node
decreasing_by exact hlt

/-- A deterministic traversal meets its entries in the order of their keys. -/
theorem visits_sorted (t : Tree) :
    (entryPaths (t.visits policy true)).Pairwise fun p q => dfsOrderKey p < dfsOrderKey q := by
  rw [schedule_eq_walk]
  refine walk_pairwise (r := (· < ·)) (fun entries h => ?_)
    (fun parent p q m n h => dfsOrderKey_lt_of_name_lt h)
    (fun p q h => dfsOrderKey_lt_descendant h) t.node [] t.distinct
  have hsorted := List.pairwise_insertionSort (fun a b : Name × Node => a.1 ≤ b.1) entries
  have hnodup : ((ordered true entries).map Prod.fst).Nodup :=
    ((List.perm_insertionSort _ entries).map Prod.fst).nodup_iff.mpr h
  rw [List.pairwise_map] at *
  exact (hsorted.and (List.pairwise_map.mp hnodup)).imp fun hab => lt_of_le_of_ne hab.1 hab.2

/-- No traversal meets an entry twice. -/
theorem visits_nodup (t : Tree) : (entryPaths (t.visits policy deterministic)).Nodup := by
  rw [schedule_eq_walk]
  refine walk_pairwise (r := (· ≠ ·)) (fun entries h => ?_) (fun parent p q m n h heq => h ?_)
    (fun p q h heq => h ?_) t.node [] t.distinct
  · cases deterministic with
    | false => exact h
    | true => exact ((List.perm_insertionSort _ entries).map Prod.fst).nodup_iff.mpr h
  · have := List.append_cancel_left heq
    exact (List.cons.inj this).1
  · exact List.append_right_eq_self.mp heq.symm

end Order

end Inventory
end Neocortex
