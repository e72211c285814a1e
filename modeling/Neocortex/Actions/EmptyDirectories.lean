import Neocortex.Python.Text

/-!
# Empty directories

`_trash_empty_directories` of `workflow.actions.action_effects` and `postorder_directories` of
`workflow.actions.action_policy`: the directories of a tree, children first, each handed to the trash
when nothing is left in it.

A path is the list of its names below the root, the last one first, so the parent of a path is its
tail.  Everything that is not a directory to go into is `other`.  No process changes the tree but the
trash, and what it takes was already yielded, so a directory is scanned as it was.

`_apply_trash_batch` drops a snapshot above the ceiling `-S`, a directory like a file, without a row and
without a call; the dry run has counted it.

* `postorderDirectories`: the stack of open directories; `postorder`: the same list by recursion.
* `Pass`, `flush`, `visit`, `trashEmptyDirectories`: the bookkeeping, with or without `apply`.
* `vacant`: a directory with nothing but vacant directories in it; `admittedBelow`: one without a
  directory above the ceiling in it.
* `Ordered`: what the proofs use of the list of directories.
* `Books`: what the bookkeeping says behind every directory.
* `trashEmptyDirectories_iff`: the dry run, the effects, and what the trash is handed.
-/

namespace Neocortex
namespace Actions
namespace EmptyDirectories

open Python

/-! ## Trees -/

/-- An entry of a directory. -/
inductive Node where
  /-- A file, a link, a junction: anything but a directory. -/
  | other
  | directory (entries : List (Text × Node))

/-- The entries of a directory, as `os.scandir` yields them. -/
abbrev Entries := List (Text × Node)

/-- The names below the root, the last one first. -/
abbrev Path := List Text

/-- The entries of a directory of the tree. -/
def entriesAt (root : Entries) : Path → Entries
  | [] => root
  | name :: parent =>
    match (entriesAt root parent).lookup name with
    | some (.directory entries) => entries
    | _ => []

mutual
/-- No directory has two entries of one name. -/
def distinctNode : Node → Bool
  | .other => true
  | .directory entries => distinctEntries entries

def distinctEntries : Entries → Bool
  | [] => true
  | (name, node) :: rest =>
    !(rest.map Prod.fst).contains name && distinctNode node && distinctEntries rest
end

variable (excludes : Path → Bool)

/-! ## The order of the directories -/

mutual
/-- The number of entries of a tree, each counted for its own and its iterator's end. -/
def nodeSize : Node → ℕ
  | .other => 1
  | .directory entries => 2 + entriesSize entries

def entriesSize : Entries → ℕ
  | [] => 0
  | (_, node) :: rest => nodeSize node + entriesSize rest
end

/-- The turns that a stack of `postorder_directories` takes. -/
def stackSize (stack : List (Path × Entries)) : ℕ :=
  (stack.map fun top => 1 + entriesSize top.2).sum

/-- The loop of `postorder_directories`: the open directories with the entries that their iterators
still have. -/
def walk : List (Path × Entries) → List Path
  | [] => []
  | (path, []) :: rest => if rest.isEmpty then walk rest else path :: walk rest
  | (path, (_, .other) :: entries) :: rest => walk ((path, entries) :: rest)
  | (path, (name, .directory inner) :: entries) :: rest =>
    if excludes (name :: path) then walk ((path, entries) :: rest)
    else walk ((name :: path, inner) :: (path, entries) :: rest)
termination_by stack => stackSize stack
decreasing_by
  all_goals simp [stackSize, entriesSize, nodeSize]
  all_goals omega

/-- `postorder_directories`. -/
def postorderDirectories (root : Entries) : List Path := walk excludes [([], root)]

mutual
/-- The directories of an entry, children first. -/
def postorderNode (path : Path) : Node → List Path
  | .other => []
  | .directory entries => if excludes path then [] else postorder path entries ++ [path]

/-- The directories below a directory, children first. -/
def postorder (path : Path) : Entries → List Path
  | [] => []
  | (name, node) :: rest => postorderNode (name :: path) node ++ postorder path rest
end

mutual
/-- A directory to go into, with nothing but such directories below it. -/
def vacantNode (path : Path) : Node → Bool
  | .other => false
  | .directory entries => !excludes path && vacant path entries

/-- Nothing but vacant directories. -/
def vacant (path : Path) : Entries → Bool
  | [] => true
  | (name, node) :: rest => vacantNode (name :: path) node && vacant path rest
end

variable (admits : Path → Bool)

mutual
/-- A directory that the ceiling admits, as it does all below it. -/
def admittedNode (path : Path) : Node → Bool
  | .other => true
  | .directory entries => admits path && admittedBelow path entries

/-- The ceiling admits all directories below. -/
def admittedBelow (path : Path) : Entries → Bool
  | [] => true
  | (name, node) :: rest => admittedNode (name :: path) node && admittedBelow path rest
end

/-- `size_is_admitted` of the snapshot of a directory, with its `st_size`. -/
def sizeIsAdmitted (ceiling : Option ℕ) (size : Path → ℕ) (path : Path) : Bool :=
  match ceiling with
  | none => true
  | some limit => decide (size path ≤ limit)

/-! ## The bookkeeping -/

/-- What the trash does with a directory: its answer to a directory of the batch that starts behind so
many others, with the number of entries that the directory then has. -/
abbrev Backend := ℕ → Path → Option ℕ → Bool

/-- The trash takes every directory without entries. -/
def Succeeds (backend : Backend) : Prop := ∀ n path, backend n path (some 0) = true

/-- The variables of `_trash_empty_directories`.  `offered` are the directories that were given to
`_apply_trash_batch`, and `handed` those that it gave to the backend, each with the number of its
entries at that time. -/
structure Pass where
  removed : List Path
  pending : List Path
  /-- `logical_child_counts`; a key that is missing counts zero. -/
  counts : Path → ℕ
  candidates : ℕ
  offered : List Path
  handed : List (Path × Option ℕ)

variable (root : Entries) (backend : Backend) (applying : Bool) (batchSize : ℕ)

/-- `_directory_entry_count`; `none` is `FileNotFoundError`. -/
def directoryEntryCount (removed : List Path) (path : Path) : Option ℕ :=
  if removed.contains path then none
  else some ((entriesAt root path).countP fun entry => !removed.contains (entry.1 :: path))

/-- The loop over `pending` in `flush`: the parents of what is gone count one child less. -/
def forgetRemoved (removed pending : List Path) (counts : Path → ℕ) : Path → ℕ :=
  pending.foldl (fun counts path =>
    if removed.contains path then Function.update counts path.tail (counts path.tail - 1)
    else counts) counts

/-- `admitted_batch`, as the trash sees it. -/
def batchOf (pass : Pass) : List (Path × Option ℕ) :=
  (pass.pending.filter admits).map fun path => (path, directoryEntryCount root pass.removed path)

/-- The directories of the batch that the trash takes. -/
def takenOf (pass : Pass) : List Path :=
  ((batchOf admits root pass).filter fun item => backend pass.handed.length item.1 item.2).map Prod.fst

/-- `flush`; a dry run ends in front of the backend. -/
def flush (pass : Pass) : Pass :=
  if pass.pending.isEmpty then pass
  else if applying then
    let removed := pass.removed ++ takenOf admits root backend pass
    { pass with
      removed
      pending := []
      counts := forgetRemoved removed pass.pending pass.counts
      offered := pass.offered ++ pass.pending
      handed := pass.handed ++ batchOf admits root pass }
  else { pass with pending := [], offered := pass.offered ++ pass.pending }

/-- `_empty_directory_snapshot`: the pass behind it, and whether the directory is a candidate. -/
def emptyDirectorySnapshot (pass : Pass) (path : Path) : Pass × Bool :=
  match directoryEntryCount root pass.removed path with
  | none => (pass, false)
  | some count =>
    let scheduled := pass.counts path
    let popped := { pass with counts := Function.update pass.counts path 0 }
    if count ≠ scheduled then (popped, false)
    else if applying && scheduled ≠ 0 then
      let flushed := flush admits root backend applying popped
      (flushed, directoryEntryCount root flushed.removed path = some 0)
    else (popped, true)

/-- The candidate joins the pending ones. -/
def schedule (pass : Pass) (path : Path) : Pass :=
  { pass with
    pending := pass.pending ++ [path]
    counts := Function.update pass.counts path.tail (pass.counts path.tail + 1)
    candidates := pass.candidates + 1 }

/-- One turn of the loop of `_trash_empty_directories`. -/
def visit (pass : Pass) (path : Path) : Pass :=
  let snapshot := emptyDirectorySnapshot admits root backend applying pass path
  if snapshot.2 then
    let scheduled := schedule snapshot.1 path
    if batchSize ≤ scheduled.pending.length then flush admits root backend applying scheduled
    else scheduled
  else snapshot.1

/-- The pass that `_trash_empty_directories` starts with. -/
def Pass.start : Pass := ⟨[], [], fun _ => 0, 0, [], []⟩

/-- `_trash_empty_directories`. -/
def trashEmptyDirectories : Pass :=
  flush admits root backend applying
    ((postorderDirectories excludes root).foldl (visit admits root backend applying batchSize)
      Pass.start)

/-! ## The order of the directories, by recursion -/

section Order

variable {excludes : Path → Bool} {root : Entries}

/-- The stack empties the directory on top, yields it unless it is the root, and goes on. -/
theorem walk_cons (n : ℕ) :
    ∀ (path : Path) (entries : Entries) (rest : List (Path × Entries)),
      entriesSize entries ≤ n →
      walk excludes ((path, entries) :: rest) =
        postorder excludes path entries ++
          if rest.isEmpty then walk excludes rest else path :: walk excludes rest := by
  induction n using Nat.strong_induction_on with
  | _ n ih =>
    intro path entries rest hsize
    cases entries with
    | nil => rw [walk, postorder, List.nil_append]
    | cons first entries =>
      obtain ⟨name, node⟩ := first
      cases node with
      | other =>
        rw [entriesSize, nodeSize] at hsize
        rw [walk, postorder, postorderNode, List.nil_append,
          ih (n - 1) (by omega) path entries rest (by omega)]
      | directory inner =>
        rw [entriesSize, nodeSize] at hsize
        rw [walk, postorder, postorderNode]
        by_cases hexcluded : excludes (name :: path) = true
        · rw [if_pos hexcluded, if_pos hexcluded, List.nil_append,
            ih (n - 1) (by omega) path entries rest (by omega)]
        · rw [if_neg hexcluded, if_neg hexcluded,
            ih (n - 1) (by omega) (name :: path) inner ((path, entries) :: rest) (by omega),
            ih (n - 1) (by omega) path entries rest (by omega)]
          simp

theorem postorderDirectories_eq (root : Entries) :
    postorderDirectories excludes root = postorder excludes [] root := by
  rw [postorderDirectories, walk_cons _ [] root [] le_rfl]
  simp [walk]

theorem lookup_of_mem {entries : Entries} {name : Text} {node : Node}
    (h : distinctEntries entries = true) (hmem : (name, node) ∈ entries) :
    entries.lookup name = some node ∧ distinctNode node = true := by
  induction entries with
  | nil => exact absurd hmem (by simp)
  | cons first rest ih =>
    obtain ⟨other, found⟩ := first
    rw [distinctEntries, Bool.and_eq_true, Bool.and_eq_true] at h
    obtain ⟨⟨hfresh, hfirst⟩, hrest⟩ := h
    rcases List.mem_cons.mp hmem with e | hlater
    · obtain ⟨rfl, rfl⟩ := Prod.mk.inj e
      exact ⟨by simp, hfirst⟩
    · obtain ⟨hlookup, hnode⟩ := ih hrest hlater
      have hne : name ≠ other := by
        rintro rfl
        have hin : name ∈ rest.map Prod.fst := List.mem_map_of_mem hlater
        simp only [Bool.not_eq_true', List.contains_eq_mem, decide_eq_false_iff_not] at hfresh
        exact hfresh hin
      exact ⟨by rw [List.lookup_cons, beq_false_of_ne hne]; exact hlookup, hnode⟩

theorem nodup_names {entries : Entries} (h : distinctEntries entries = true) :
    (entries.map Prod.fst).Nodup := by
  induction entries with
  | nil => exact List.nodup_nil
  | cons first rest ih =>
    obtain ⟨name, node⟩ := first
    rw [distinctEntries, Bool.and_eq_true, Bool.and_eq_true] at h
    have hfresh : name ∉ rest.map Prod.fst := by
      have := h.1.1
      simpa only [Bool.not_eq_true', List.contains_eq_mem, decide_eq_false_iff_not] using this
    rw [List.map_cons, List.nodup_cons]
    exact ⟨hfresh, ih h.2⟩

/-- A directory that is reached has the entries that the tree has there, and their names differ. -/
structure At (root : Entries) (path : Path) (entries : Entries) : Prop where
  found : entriesAt root path = entries
  distinct : distinctEntries entries = true

theorem At.child {path : Path} {entries inner : Entries} {name : Text} (h : At root path entries)
    (hmem : (name, .directory inner) ∈ entries) : At root (name :: path) inner := by
  obtain ⟨hlookup, hnode⟩ := lookup_of_mem h.distinct hmem
  refine ⟨?_, by rwa [distinctNode] at hnode⟩
  rw [entriesAt, h.found, hlookup]

/-- The directories that are gone into: none of those on the way from the root is excluded. -/
inductive Reached (excludes : Path → Bool) (root : Entries) : Path → Prop where
  | start : Reached excludes root []
  | enter {parent : Path} {name : Text} {inner : Entries} (h : Reached excludes root parent)
      (hmem : (name, .directory inner) ∈ entriesAt root parent)
      (hkept : excludes (name :: parent) = false) : Reached excludes root (name :: parent)

/-- What the proofs use of a list of directories. -/
structure Ordered (excludes : Path → Bool) (root : Entries) (path : Path) (dirs : List Path) :
    Prop where
  nodup : dirs.Nodup
  below : ∀ d ∈ dirs, path <:+ d
  reached : ∀ d ∈ dirs, ∃ name parent inner, d = name :: parent ∧
    (name, .directory inner) ∈ entriesAt root parent ∧ At root d inner ∧ excludes d = false ∧
    Reached excludes root parent
  children : ∀ before d after, dirs = before ++ d :: after →
    ∀ entry ∈ entriesAt root d, vacantNode excludes (entry.1 :: d) entry.2 = true →
      entry.1 :: d ∈ before

theorem ordered_nil (path : Path) : Ordered excludes root path [] where
  nodup := List.nodup_nil
  below := by simp
  reached := by simp
  children before d after h := absurd h (by simp)

/-- Two lists of directories without a common one, one behind the other. -/
theorem Ordered.append {path : Path} {first second : List Path}
    (hfirst : Ordered excludes root path first) (hsecond : Ordered excludes root path second)
    (hdisjoint : ∀ d ∈ first, d ∉ second) : Ordered excludes root path (first ++ second) where
  nodup := List.nodup_append.mpr ⟨hfirst.nodup, hsecond.nodup, fun a ha b hb e =>
    hdisjoint a ha (e ▸ hb)⟩
  below d hd := (List.mem_append.mp hd).elim (hfirst.below d) (hsecond.below d)
  reached d hd := (List.mem_append.mp hd).elim (hfirst.reached d) (hsecond.reached d)
  children before d after h entry hentry hvacant := by
    rcases List.append_eq_append_iff.mp h with ⟨middle, hbefore, hrest⟩ | ⟨middle, hall, hrest⟩
    · -- the directory is in the second list
      rw [hbefore]
      exact List.mem_append_right _ (hsecond.children middle d after hrest entry hentry hvacant)
    · cases middle with
      | nil =>
        rw [List.append_nil] at hall
        rw [List.nil_append] at hrest
        rw [← hall]
        exact absurd (hsecond.children [] d after hrest.symm entry hentry hvacant) (by simp)
      | cons x middle =>
        rw [List.cons_append] at hrest
        obtain ⟨rfl, -⟩ := List.cons.inj hrest
        exact hfirst.children before d middle hall entry hentry hvacant

theorem Ordered.mono {path parent : Path} {dirs : List Path} (h : Ordered excludes root path dirs)
    (hsuffix : parent <:+ path) : Ordered excludes root parent dirs :=
  ⟨h.nodup, fun d hd => hsuffix.trans (h.below d hd), h.reached, h.children⟩

/-- A directory is yielded behind the directories below it. -/
theorem ordered_directory {parent : Path} {name : Text} {inner : Entries} {dirs : List Path}
    (h : Ordered excludes root (name :: parent) dirs) (hfresh : name :: parent ∉ dirs)
    (hat : At root (name :: parent) inner)
    (hmem : (name, .directory inner) ∈ entriesAt root parent)
    (hkept : excludes (name :: parent) = false) (hreached : Reached excludes root parent)
    (hvacant : ∀ entry ∈ inner, vacantNode excludes (entry.1 :: name :: parent) entry.2 = true →
      entry.1 :: name :: parent ∈ dirs) :
    Ordered excludes root (name :: parent) (dirs ++ [name :: parent]) where
  nodup := List.nodup_append.mpr ⟨h.nodup, List.nodup_singleton _, fun a ha b hb e =>
    hfresh (List.mem_singleton.mp hb ▸ e ▸ ha)⟩
  below d hd := (List.mem_append.mp hd).elim (h.below d)
    fun hm => List.mem_singleton.mp hm ▸ List.suffix_rfl
  reached d hd := by
    rcases List.mem_append.mp hd with hd | hd
    · exact h.reached d hd
    · rw [List.mem_singleton.mp hd]
      exact ⟨name, parent, inner, rfl, hmem, hat, hkept, hreached⟩
  children before d after hsplit entry hentry hentryvacant := by
    have hlast : d = name :: parent → before = dirs → entry.1 :: d ∈ before := by
      rintro rfl rfl
      rw [hat.found] at hentry
      exact hvacant entry hentry hentryvacant
    rcases List.append_eq_append_iff.mp hsplit with ⟨middle, hbefore, hrest⟩ | ⟨middle, hall, hrest⟩
    · cases middle with
      | nil => exact hlast (List.cons.inj hrest).1.symm (by rw [hbefore, List.append_nil])
      | cons x middle => exact absurd (List.cons.inj hrest).2 (by simp)
    · cases middle with
      | nil => exact hlast (List.cons.inj hrest).1 (by rw [hall, List.append_nil])
      | cons x middle =>
        rw [List.cons_append] at hrest
        obtain ⟨rfl, -⟩ := List.cons.inj hrest
        exact h.children before d middle hall entry hentry hentryvacant

theorem eq_of_suffix {a b : Text} {path d : Path} (ha : a :: path <:+ d) (hb : b :: path <:+ d) :
    a = b :=
  (List.cons.inj ((List.suffix_of_suffix_length_le ha hb le_rfl).eq_of_length rfl)).1

/-- The directories below a directory, children first, each below one of its entries. -/
theorem ordered_postorder (n : ℕ) :
    ∀ (path : Path) (entries whole : Entries), entriesSize entries ≤ n → At root path whole →
      Reached excludes root path → (∀ entry ∈ entries, entry ∈ whole) → (entries.map Prod.fst).Nodup →
      Ordered excludes root path (postorder excludes path entries) ∧
        (∀ d ∈ postorder excludes path entries, ∃ name ∈ entries.map Prod.fst, name :: path <:+ d) ∧
        ∀ entry ∈ entries, vacantNode excludes (entry.1 :: path) entry.2 = true →
          entry.1 :: path ∈ postorder excludes path entries := by
  induction n using Nat.strong_induction_on with
  | _ n ih =>
    intro path entries whole hsize hat hreached hsub hnames
    cases entries with
    | nil => exact ⟨by rw [postorder]; exact ordered_nil path, by simp [postorder], by simp⟩
    | cons first rest =>
      obtain ⟨name, node⟩ := first
      have hsubrest : ∀ entry ∈ rest, entry ∈ whole := fun entry he =>
        hsub entry (List.mem_cons_of_mem _ he)
      obtain ⟨hnew, hnamesrest⟩ := List.nodup_cons.mp hnames
      cases node with
      | other =>
        rw [entriesSize, nodeSize] at hsize
        obtain ⟨hord, hbelow, hvac⟩ := ih (n - 1) (by omega) path rest whole (by omega) hat hreached
          hsubrest hnamesrest
        rw [postorder, postorderNode, List.nil_append]
        refine ⟨hord, fun d hd => ?_, fun entry he hv => ?_⟩
        · obtain ⟨other, hother, hsuffix⟩ := hbelow d hd
          exact ⟨other, List.mem_cons_of_mem _ hother, hsuffix⟩
        · rcases List.mem_cons.mp he with rfl | he
          · rw [vacantNode] at hv
            exact absurd hv (by simp)
          · exact hvac entry he hv
      | directory inner =>
        rw [entriesSize, nodeSize] at hsize
        have hmem : (name, .directory inner) ∈ whole := hsub _ List.mem_cons_self
        have hatinner := hat.child hmem
        obtain ⟨hord, hbelow, hvac⟩ := ih (n - 1) (by omega) path rest whole (by omega) hat hreached
          hsubrest hnamesrest
        rw [postorder, postorderNode]
        by_cases hexcluded : excludes (name :: path) = true
        · rw [if_pos hexcluded, List.nil_append]
          refine ⟨hord, fun d hd => ?_, fun entry he hv => ?_⟩
          · obtain ⟨other, hother, hsuffix⟩ := hbelow d hd
            exact ⟨other, List.mem_cons_of_mem _ hother, hsuffix⟩
          · rcases List.mem_cons.mp he with rfl | he
            · rw [vacantNode] at hv
              simp [hexcluded] at hv
            · exact hvac entry he hv
        · have hkept : excludes (name :: path) = false := Bool.eq_false_iff.mpr hexcluded
          have henter : (name, .directory inner) ∈ entriesAt root path := by
            rw [hat.found]
            exact hmem
          obtain ⟨hordinner, hbelowinner, hvacinner⟩ := ih (n - 1) (by omega) (name :: path) inner
            inner (by omega) hatinner (hreached.enter henter hkept) (fun _ he => he)
            (nodup_names hatinner.distinct)
          rw [if_neg hexcluded]
          have hfresh : name :: path ∉ postorder excludes (name :: path) inner := by
            intro hd
            obtain ⟨other, -, hsuffix⟩ := hbelowinner _ hd
            have := hsuffix.length_le
            simp at this
          have hfirst := ordered_directory hordinner hfresh hatinner henter hkept hreached
            hvacinner
          have hdisjoint : ∀ d ∈ postorder excludes (name :: path) inner ++ [name :: path],
              d ∉ postorder excludes path rest := by
            intro d hd hd'
            obtain ⟨other, hother, hsuffix⟩ := hbelow d hd'
            rw [← eq_of_suffix (hfirst.below d hd) hsuffix] at hother
            exact hnew hother
          refine ⟨(hfirst.mono (List.suffix_cons _ _)).append hord hdisjoint, fun d hd => ?_,
            fun entry he hv => ?_⟩
          · rcases List.mem_append.mp hd with hd | hd
            · exact ⟨name, List.mem_cons_self, hfirst.below d hd⟩
            · obtain ⟨other, hother, hsuffix⟩ := hbelow d hd
              exact ⟨other, List.mem_cons_of_mem _ hother, hsuffix⟩
          · rcases List.mem_cons.mp he with rfl | he
            · exact List.mem_append_left _ (by simp)
            · exact List.mem_append_right _ (hvac entry he hv)

theorem ordered_directories (h : distinctEntries root = true) :
    Ordered excludes root [] (postorderDirectories excludes root) := by
  rw [postorderDirectories_eq]
  exact (ordered_postorder _ [] root root le_rfl ⟨rfl, h⟩ .start (fun _ he => he)
    (nodup_names h)).1

theorem vacant_iff {path : Path} {entries : Entries} :
    vacant excludes path entries = true ↔
      ∀ entry ∈ entries, vacantNode excludes (entry.1 :: path) entry.2 = true := by
  induction entries with
  | nil => simp [vacant]
  | cons first rest ih =>
    obtain ⟨name, node⟩ := first
    rw [vacant, Bool.and_eq_true, ih, List.forall_mem_cons]

/-- A directory of the list is vacant when all its entries come before it, and are. -/
theorem Ordered.vacant_iff {dirs before after : List Path} {d : Path}
    (h : Ordered excludes root [] dirs) (hsplit : dirs = before ++ d :: after) :
    vacant excludes d (entriesAt root d) = true ↔
      ∀ name ∈ (entriesAt root d).map Prod.fst,
        name :: d ∈ before ∧ vacant excludes (name :: d) (entriesAt root (name :: d)) = true := by
  have hmemd : d ∈ dirs := by rw [hsplit]; simp
  obtain ⟨-, -, inner, -, -, hatd, -, -⟩ := h.reached d hmemd
  rw [EmptyDirectories.vacant_iff]
  constructor
  · intro hall name hname
    obtain ⟨entry, hentry, rfl⟩ := List.mem_map.mp hname
    have hbefore := h.children before d after hsplit entry hentry (hall entry hentry)
    refine ⟨hbefore, ?_⟩
    have hv := hall entry hentry
    obtain ⟨name, node⟩ := entry
    cases node with
    | other =>
      rw [vacantNode] at hv
      exact absurd hv (by simp)
    | directory below =>
      rw [vacantNode, Bool.and_eq_true] at hv
      rw [hatd.found] at hentry
      rw [(hatd.child hentry).found]
      exact hv.2
  · intro hall entry hentry
    obtain ⟨hbefore, hv⟩ := hall entry.1 (List.mem_map_of_mem hentry)
    obtain ⟨name, parent, below, e, hmem, hat, hkept, -⟩ := h.reached (entry.1 :: d)
      (by rw [hsplit]; exact List.mem_append_left _ hbefore)
    obtain ⟨rfl, rfl⟩ := List.cons.inj e
    -- one name, one entry
    obtain ⟨name, node⟩ := entry
    rw [hatd.found] at hentry hmem
    have hnode := (lookup_of_mem hatd.distinct hentry).1
    rw [(lookup_of_mem hatd.distinct hmem).1] at hnode
    obtain rfl := Option.some.inj hnode
    rw [hat.found] at hv
    rw [vacantNode, hkept, hv]
    rfl

theorem admittedBelow_iff {admits : Path → Bool} {path : Path} {entries : Entries} :
    admittedBelow admits path entries = true ↔
      ∀ entry ∈ entries, admittedNode admits (entry.1 :: path) entry.2 = true := by
  induction entries with
  | nil => simp [admittedBelow]
  | cons first rest ih =>
    obtain ⟨name, node⟩ := first
    rw [admittedBelow, Bool.and_eq_true, ih, List.forall_mem_cons]

/-- The directories below a vacant directory, by its entries. -/
theorem Ordered.admittedBelow_iff {admits : Path → Bool} {dirs : List Path} {d : Path}
    (h : Ordered excludes root [] dirs) (hmem : d ∈ dirs)
    (hvacant : vacant excludes d (entriesAt root d) = true) :
    admittedBelow admits d (entriesAt root d) = true ↔
      ∀ name ∈ (entriesAt root d).map Prod.fst,
        admits (name :: d) = true ∧
          admittedBelow admits (name :: d) (entriesAt root (name :: d)) = true := by
  obtain ⟨-, -, inner, -, -, hatd, -, -⟩ := h.reached d hmem
  rw [EmptyDirectories.admittedBelow_iff, List.forall_mem_map]
  refine forall₂_congr fun entry hentry => ?_
  have hv := EmptyDirectories.vacant_iff.mp hvacant entry hentry
  obtain ⟨name, node⟩ := entry
  cases node with
  | other =>
    rw [vacantNode] at hv
    exact absurd hv (by simp)
  | directory below =>
    rw [hatd.found] at hentry
    rw [admittedNode, Bool.and_eq_true, (hatd.child hentry).found]

theorem postorderNode_subset {path : Path} {entries : Entries} {entry : Text × Node}
    (hmem : entry ∈ entries) :
    postorderNode excludes (entry.1 :: path) entry.2 ⊆ postorder excludes path entries := by
  induction entries with
  | nil => exact absurd hmem (by simp)
  | cons first rest ih =>
    obtain ⟨name, node⟩ := first
    rw [postorder]
    rcases List.mem_cons.mp hmem with rfl | hrest
    · exact List.subset_append_left _ _
    · exact List.Subset.trans (ih hrest) (List.subset_append_right _ _)

/-- The directories that are gone into, but the root, are those of the list. -/
theorem mem_postorderDirectories (h : distinctEntries root = true) {d : Path} :
    d ∈ postorderDirectories excludes root ↔ d ≠ [] ∧ Reached excludes root d := by
  constructor
  · intro hd
    obtain ⟨name, parent, inner, rfl, hmem, -, hkept, hreached⟩ := (ordered_directories h).reached d hd
    exact ⟨List.cons_ne_nil _ _, hreached.enter hmem hkept⟩
  · rintro ⟨hne, hreached⟩
    -- with a directory, the list has all directories below it
    have hall : ∃ inner, At root d inner ∧
        postorder excludes d inner ⊆ postorderDirectories excludes root ∧
        (d ≠ [] → d ∈ postorderDirectories excludes root) := by
      rw [postorderDirectories_eq]
      induction hreached with
      | start => exact ⟨root, ⟨rfl, h⟩, fun _ hp => hp, fun hnil => absurd rfl hnil⟩
      | @enter parent name inner hparent hmem hkept ih =>
        obtain ⟨outer, hat, hsubset, -⟩ : ∃ outer, At root parent outer ∧
            postorder excludes parent outer ⊆ postorder excludes [] root ∧
            (parent ≠ [] → parent ∈ postorder excludes [] root) := by
          by_cases hnil : parent = []
          · subst hnil
            exact ⟨root, ⟨rfl, h⟩, fun _ hp => hp, fun hne => absurd rfl hne⟩
          · exact ih hnil
        rw [hat.found] at hmem
        have hsub : postorderNode excludes (name :: parent) (.directory inner) ⊆
            postorder excludes [] root :=
          List.Subset.trans (postorderNode_subset hmem) hsubset
        rw [postorderNode, hkept, if_neg Bool.false_ne_true] at hsub
        exact ⟨inner, hat.child hmem, List.Subset.trans (List.subset_append_left _ _) hsub,
          fun _ => hsub (List.mem_append_right _ (List.mem_singleton.mpr rfl))⟩
    obtain ⟨-, -, -, hmem⟩ := hall
    exact hmem hne

end Order

/-! ## What the trash is handed -/

section Handed

variable {admits : Path → Bool} {root : Entries} {backend : Backend} {batchSize : ℕ} {pass : Pass}
  {path : Path}

/-- With `apply`, whatever the trash answers: pending directories are empty, as were those that were
handed over, and all entries of a removed directory were removed before it. -/
structure Empty (root : Entries) (pass : Pass) : Prop where
  pending : ∀ p ∈ pass.pending, directoryEntryCount root pass.removed p = some 0
  handed : ∀ item ∈ pass.handed, item.2 = some 0
  before : ∀ first p later, pass.removed = first ++ p :: later →
    ∀ entry ∈ entriesAt root p, entry.1 :: p ∈ first

/-- All entries of an empty directory have been removed. -/
theorem mem_removed_of_count {removed : List Path} {p : Path}
    (h : directoryEntryCount root removed p = some 0) :
    ∀ entry ∈ entriesAt root p, entry.1 :: p ∈ removed := by
  rw [directoryEntryCount] at h
  intro entry hentry
  by_cases hgone : removed.contains p = true
  · rw [if_pos hgone] at h
    exact absurd h (by simp)
  · rw [if_neg hgone] at h
    have hzero := List.countP_eq_zero.mp (Option.some.inj h) entry hentry
    simpa using hzero

theorem mem_batchOf {item : Path × Option ℕ} :
    item ∈ batchOf admits root pass ↔ ∃ p ∈ pass.pending, admits p = true ∧
      item = (p, directoryEntryCount root pass.removed p) := by
  simp only [batchOf, List.mem_map, List.mem_filter, and_assoc, eq_comm]

/-- What a batch takes was pending. -/
theorem mem_pending_of_taken {p : Path} (h : p ∈ takenOf admits root backend pass) :
    p ∈ pass.pending := by
  obtain ⟨item, hitem, rfl⟩ := List.mem_map.mp h
  obtain ⟨q, hq, -, e⟩ := mem_batchOf.mp (List.mem_filter.mp hitem).1
  rw [e]
  exact hq

theorem Empty.flush (h : Empty root pass) : Empty root (flush admits root backend true pass) := by
  rw [EmptyDirectories.flush]
  by_cases hnil : pass.pending.isEmpty = true
  · rwa [if_pos hnil]
  · rw [if_neg hnil, if_pos rfl]
    refine ⟨by simp, fun item hitem => ?_, fun first p later hsplit entry hentry => ?_⟩
    · rcases List.mem_append.mp hitem with hitem | hitem
      · exact h.handed item hitem
      · obtain ⟨p, hp, -, rfl⟩ := mem_batchOf.mp hitem
        exact h.pending p hp
    · have hall : pass.removed ++ takenOf admits root backend pass = first ++ p :: later := hsplit
      rcases List.append_eq_append_iff.mp hall with ⟨middle, hfirst, hrest⟩ | ⟨middle, hold, hrest⟩
      · -- taken with this batch, so empty before it
        have hmem : p ∈ takenOf admits root backend pass := by rw [hrest]; simp
        have hp : p ∈ pass.pending := mem_pending_of_taken hmem
        rw [hfirst]
        exact List.mem_append_left _ (mem_removed_of_count (h.pending p hp) entry hentry)
      · cases middle with
        | nil =>
          rw [List.append_nil] at hold
          have hmem : p ∈ takenOf admits root backend pass := by
            rw [← List.nil_append (takenOf admits root backend pass), ← hrest]
            exact List.mem_cons_self
          have hp : p ∈ pass.pending := mem_pending_of_taken hmem
          rw [← hold]
          exact mem_removed_of_count (h.pending p hp) entry hentry
        | cons x middle =>
          obtain ⟨rfl, -⟩ := List.cons.inj hrest
          exact h.before first p middle hold entry hentry

/-- A candidate is empty when it is scheduled. -/
theorem emptyDirectorySnapshot_empty (admits : Path → Bool) (backend : Backend) (path : Path) (h : Empty root pass) :
    Empty root (emptyDirectorySnapshot admits root backend true pass path).1 ∧
      ((emptyDirectorySnapshot admits root backend true pass path).2 = true →
        directoryEntryCount root (emptyDirectorySnapshot admits root backend true pass path).1.removed path =
          some 0) := by
  rw [emptyDirectorySnapshot]
  cases hcount : directoryEntryCount root pass.removed path with
  | none => exact ⟨h, fun hf => absurd hf (by simp)⟩
  | some count =>
    have hpopped : Empty root { pass with counts := Function.update pass.counts path 0 } :=
      ⟨h.pending, h.handed, h.before⟩
    simp only
    by_cases hne : count ≠ pass.counts path
    · rw [if_pos hne]
      exact ⟨hpopped, fun hf => absurd hf (by simp)⟩
    · rw [if_neg hne]
      by_cases hzero : pass.counts path = 0
      · rw [if_neg (by simp [hzero])]
        refine ⟨hpopped, fun _ => ?_⟩
        show directoryEntryCount root pass.removed path = some 0
        rw [hcount, show count = 0 by omega]
      · rw [if_pos (by simp [hzero])]
        exact ⟨hpopped.flush, fun hf => by simpa using hf⟩

theorem Empty.visit (h : Empty root pass) :
    Empty root (visit admits root backend true batchSize pass path) := by
  obtain ⟨hsnapshot, hempty⟩ := emptyDirectorySnapshot_empty admits backend path h
  rw [EmptyDirectories.visit]
  generalize emptyDirectorySnapshot admits root backend true pass path = snapshot at hsnapshot hempty
  simp only
  by_cases hcandidate : snapshot.2 = true
  · rw [if_pos hcandidate]
    have hscheduled : Empty root (schedule snapshot.1 path) := by
      refine ⟨fun p hp => ?_, hsnapshot.handed, hsnapshot.before⟩
      rcases List.mem_append.mp hp with hp | hp
      · exact hsnapshot.pending p hp
      · rw [List.mem_singleton.mp hp]
        exact hempty hcandidate
    by_cases hfull : batchSize ≤ (schedule snapshot.1 path).pending.length
    · rw [if_pos hfull]
      exact hscheduled.flush
    · rwa [if_neg hfull]
  · rwa [if_neg hcandidate]

theorem empty_foldl (dirs : List Path) :
    ∀ {pass : Pass}, Empty root pass →
      Empty root (dirs.foldl (EmptyDirectories.visit admits root backend true batchSize) pass) := by
  induction dirs with
  | nil => exact fun {pass} h => h
  | cons d dirs ih => exact fun {pass} h => ih h.visit

end Handed

/-! ## The books -/

section Books

variable {excludes admits : Path → Bool} {root : Entries} {backend : Backend} {applying : Bool}
  {batchSize : ℕ} {pass : Pass} {before seen : List Path}

/-- The directories that a dry run counts. -/
def isVacant (excludes : Path → Bool) (root : Entries) (path : Path) : Bool :=
  vacant excludes path (entriesAt root path)

/-- A directory that a pass schedules: with `apply`, all below it must have gone. -/
def isCandidate (excludes admits : Path → Bool) (root : Entries) (applying : Bool) (path : Path) :
    Bool :=
  isVacant excludes root path && (!applying || admittedBelow admits path (entriesAt root path))

/-- A scheduled directory that is gone behind its batch, with a trash that succeeds. -/
def gone (admits : Path → Bool) (applying : Bool) (path : Path) : Bool := applying && admits path

/-- The children that a parent has not lost yet. -/
def Pass.present (admits : Path → Bool) (applying : Bool) (pass : Pass) : List Path :=
  pass.offered.filter (fun p => !gone admits applying p) ++ pass.pending

/-- The bookkeeping behind the directories `before`, with a trash that succeeds; the counts of the
directories `seen` are no longer read. -/
structure Books (excludes admits : Path → Bool) (root : Entries) (applying : Bool)
    (before seen : List Path) (pass : Pass) : Prop where
  scheduled : pass.offered ++ pass.pending = before.filter (isCandidate excludes admits root applying)
  removed : pass.removed = pass.offered.filter (gone admits applying)
  counts : ∀ q ∉ seen, pass.counts q = (pass.present admits applying).countP fun p => p.tail = q
  candidates : pass.candidates = (before.filter (isCandidate excludes admits root applying)).length

theorem forgetRemoved_apply {removed : List Path} (pending : List Path) (q : Path) :
    ∀ counts : Path → ℕ, forgetRemoved removed pending counts q =
      counts q - pending.countP fun p => removed.contains p && p.tail = q := by
  induction pending with
  | nil => exact fun counts => rfl
  | cons p pending ih =>
    intro counts
    rw [forgetRemoved, List.foldl_cons, List.countP_cons]
    by_cases hp : removed.contains p = true
    · rw [if_pos hp]
      have hrest := ih (Function.update counts p.tail (counts p.tail - 1))
      rw [forgetRemoved] at hrest
      rw [hrest]
      by_cases e : p.tail = q
      · rw [e, Function.update_self, if_pos (by simpa [e] using hp)]
        omega
      · rw [Function.update_of_ne (Ne.symm e), if_neg (by simp [e])]
        omega
    · rw [if_neg hp, if_neg (by rw [Bool.and_eq_true]; exact fun h => hp h.1)]
      exact ih counts

theorem takenOf_eq (admits : Path → Bool) (hbackend : Succeeds backend)
    (hempty : ∀ p ∈ pass.pending, directoryEntryCount root pass.removed p = some 0) :
    takenOf admits root backend pass = pass.pending.filter admits := by
  have hall : (batchOf admits root pass).filter
      (fun item => backend pass.handed.length item.1 item.2) = batchOf admits root pass := by
    refine List.filter_eq_self.mpr fun item hitem => ?_
    obtain ⟨p, hp, -, rfl⟩ := mem_batchOf.mp hitem
    show backend pass.handed.length p (directoryEntryCount root pass.removed p) = true
    rw [hempty p hp]
    exact hbackend _ _
  rw [takenOf, hall, batchOf, List.map_map]
  exact List.map_id _

/-- What a batch takes no longer counts for its parent. -/
theorem countP_present (pending offered : List Path) (q : Path) :
    (offered.filter (fun p => !admits p) ++ pending).countP (fun p => p.tail = q) -
        pending.countP (fun p => admits p && p.tail = q) =
      ((offered ++ pending).filter fun p => !admits p).countP fun p => p.tail = q := by
  rw [List.filter_append, List.countP_append, List.countP_append]
  have hsplit : pending.countP (fun p => decide (p.tail = q)) =
      pending.countP (fun p => admits p && decide (p.tail = q)) +
        (pending.filter fun p => !admits p).countP fun p => decide (p.tail = q) := by
    rw [List.countP_filter]
    induction pending with
    | nil => rfl
    | cons p pending ih =>
      rw [List.countP_cons, List.countP_cons, List.countP_cons, ih]
      cases admits p <;> cases decide (p.tail = q) <;> simp <;> omega
  omega

theorem Books.flush (h : Books excludes admits root applying before seen pass)
    (hbackend : applying = true → Succeeds backend) (hempty : applying = true → Empty root pass) :
    Books excludes admits root applying before seen (flush admits root backend applying pass) ∧
      (flush admits root backend applying pass).pending = [] := by
  rw [EmptyDirectories.flush]
  by_cases hnil : pass.pending = []
  · rw [if_pos (by simp [hnil])]
    exact ⟨h, hnil⟩
  · rw [if_neg (by simpa using hnil)]
    have hscheduled : pass.offered ++ pass.pending ++ [] =
        before.filter (isCandidate excludes admits root applying) := by
      rw [List.append_nil]
      exact h.scheduled
    have hremoved := h.removed
    cases applying with
    | false =>
      refine ⟨⟨hscheduled, ?_, fun q hq => ?_, h.candidates⟩, rfl⟩
      · show pass.removed = (pass.offered ++ pass.pending).filter (gone admits false)
        rw [hremoved, List.filter_append]
        simp [gone]
      · rw [if_neg Bool.false_ne_true]
        have hcount := h.counts q hq
        simp only [Pass.present, gone, Bool.false_and, Bool.not_false, List.filter_true] at hcount ⊢
        rw [hcount, List.append_nil]
    | true =>
      have htaken := takenOf_eq admits (hbackend rfl) (hempty rfl).pending
      rw [if_pos rfl]
      refine ⟨⟨hscheduled, ?_, fun q hq => ?_, h.candidates⟩, rfl⟩
      · show pass.removed ++ takenOf admits root backend pass =
          (pass.offered ++ pass.pending).filter (gone admits true)
        rw [htaken, hremoved, List.filter_append]
        rfl
      · have hcount := h.counts q hq
        simp only [Pass.present, gone, Bool.true_and, List.append_nil] at hcount ⊢
        rw [htaken, forgetRemoved_apply, hcount, ← countP_present]
        refine congrArg _ (List.countP_congr fun p hp => ?_)
        have hmem : (pass.removed ++ pass.pending.filter admits).contains p = admits p := by
          rw [hremoved, Bool.eq_iff_iff, List.contains_iff_mem, List.mem_append, List.mem_filter,
            List.mem_filter]
          constructor
          · rintro (⟨-, hg⟩ | ⟨-, ha⟩)
            · simpa [gone] using hg
            · exact ha
          · exact fun ha => .inr ⟨hp, ha⟩
        rw [hmem]

/-- The children of a directory in a list of directories, counted by its entries. -/
theorem countP_children {dirs : List Path} {d : Path} {names : List Text} (hnodup : dirs.Nodup)
    (hnames : names.Nodup) (h : ∀ p ∈ dirs, p.tail = d → ∃ name ∈ names, p = name :: d) :
    dirs.countP (fun p => p.tail = d) = names.countP fun name => dirs.contains (name :: d) := by
  rw [List.countP_eq_length_filter, List.countP_eq_length_filter]
  have hperm : (dirs.filter fun p => p.tail = d).Perm
      ((names.filter fun name => dirs.contains (name :: d)).map fun name => name :: d) := by
    refine (List.perm_ext_iff_of_nodup (hnodup.filter _) ?_).mpr fun p => ?_
    · exact (hnames.filter _).map fun a b e => (List.cons.inj e).1
    · rw [List.mem_filter, List.mem_map]
      constructor
      · rintro ⟨hp, htail⟩
        obtain ⟨name, hname, rfl⟩ := h p hp (of_decide_eq_true htail)
        exact ⟨name, List.mem_filter.mpr ⟨hname, by simpa using hp⟩, rfl⟩
      · rintro ⟨name, hname, rfl⟩
        have hin := (List.mem_filter.mp hname).2
        exact ⟨by simpa using hin, by simp⟩
  rw [hperm.length_eq, List.length_map]

theorem countP_append_contains {first second : List Path} {d : Path} (names : List Text)
    (h : (first ++ second).Nodup) :
    names.countP (fun name => first.contains (name :: d)) +
        names.countP (fun name => second.contains (name :: d)) =
      names.countP fun name => (first ++ second).contains (name :: d) := by
  induction names with
  | nil => rfl
  | cons name names ih =>
    have hdisjoint := (List.nodup_append.mp h).2.2
    rw [List.countP_cons, List.countP_cons, List.countP_cons, ← ih]
    by_cases ha : name :: d ∈ first
    · have hb : name :: d ∉ second := fun hb => hdisjoint _ ha _ hb rfl
      simp [ha, hb]
      omega
    · by_cases hb : name :: d ∈ second
      · simp [ha, hb]
        omega
      · simp [ha, hb]

variable {dirs after : List Path} {d : Path}

/-- The entries of a directory that are left. -/
theorem directoryEntryCount_eq {removed : List Path} (h : d ∉ removed) :
    directoryEntryCount root removed d = some (((entriesAt root d).map
      Prod.fst).countP fun name => !removed.contains (name :: d)) := by
  rw [directoryEntryCount, if_neg (by simpa using h), List.countP_map]
  rfl

/-- The number of entries is the number of scheduled children exactly when all entries were
scheduled. -/
theorem Books.count_iff (h : Books excludes admits root applying before before pass)
    (hdirs : Ordered excludes root [] dirs) (hsplit : dirs = before ++ d :: after) :
    ∃ count, directoryEntryCount root pass.removed d = some count ∧
      (count = pass.counts d ↔ ∀ name ∈ (entriesAt root d).map Prod.fst,
        name :: d ∈ before.filter (isCandidate excludes admits root applying)) := by
  have hnodup := hdirs.nodup
  rw [hsplit, List.nodup_append] at hnodup
  obtain ⟨hbefore, -, hdisjoint⟩ := hnodup
  have hfresh : d ∉ before := fun hd => hdisjoint d hd d List.mem_cons_self rfl
  have hsub : ∀ p ∈ pass.offered ++ pass.pending, p ∈ before := by
    intro p hp
    rw [h.scheduled] at hp
    exact (List.mem_filter.mp hp).1
  obtain ⟨-, -, inner, -, -, hat, -, -⟩ := hdirs.reached d (by rw [hsplit]; simp)
  have hnames : ((entriesAt root d).map Prod.fst).Nodup := by
    rw [hat.found]
    exact nodup_names hat.distinct
  have hremoved : d ∉ pass.removed := by
    rw [h.removed]
    exact fun hd => hfresh (hsub d (List.mem_append_left _ (List.mem_filter.mp hd).1))
  refine ⟨_, directoryEntryCount_eq hremoved, ?_⟩
  -- what is present and what is gone are the scheduled directories, each once
  have hperm : (pass.present admits applying ++ pass.removed).Perm
      (before.filter (isCandidate excludes admits root applying)) := by
    rw [← h.scheduled, h.removed, Pass.present, List.append_assoc]
    refine ((List.perm_append_comm.append_left _).trans ?_)
    rw [← List.append_assoc]
    refine List.Perm.append_right _ (List.perm_append_comm.trans ?_)
    exact List.filter_append_perm _ _
  have hsched : (pass.present admits applying ++ pass.removed).Nodup :=
    hperm.nodup_iff.mpr (hbefore.filter _)
  -- every scheduled child of the directory is one of its entries
  have hchild : ∀ p ∈ pass.present admits applying, p.tail = d →
      ∃ name ∈ (entriesAt root d).map Prod.fst, p = name :: d := by
    intro p hp htail
    have hp' : p ∈ before :=
      (List.mem_filter.mp (hperm.mem_iff.mp (List.mem_append_left _ hp))).1
    obtain ⟨name, parent, below, e, hmem, -, -, -⟩ := hdirs.reached p
      (by rw [hsplit]; exact List.mem_append_left _ hp')
    subst e
    obtain rfl : parent = d := htail
    exact ⟨name, List.mem_map_of_mem hmem, rfl⟩
  have hlength := List.length_eq_countP_add_countP (p := fun name => pass.removed.contains (name :: d))
    (l := (entriesAt root d).map Prod.fst)
  have htotal : pass.counts d + ((entriesAt root d).map Prod.fst).countP
      (fun name => pass.removed.contains (name :: d)) =
      ((entriesAt root d).map Prod.fst).countP fun name =>
        (pass.present admits applying ++ pass.removed).contains (name :: d) := by
    rw [h.counts d hfresh, countP_children hsched.of_append_left hnames hchild]
    exact countP_append_contains _ hsched
  have hall : (∀ name ∈ (entriesAt root d).map Prod.fst,
      name :: d ∈ before.filter (isCandidate excludes admits root applying)) ↔
      ∀ name ∈ (entriesAt root d).map Prod.fst,
        (pass.present admits applying ++ pass.removed).contains (name :: d) = true :=
    forall₂_congr fun name _ => by rw [List.contains_iff_mem, hperm.mem_iff]
  rw [hall, ← List.countP_eq_length]
  simp only [Bool.not_eq_true] at hlength
  have hnot : ((entriesAt root d).map Prod.fst).countP (fun name => !pass.removed.contains (name :: d)) =
      ((entriesAt root d).map Prod.fst).countP
        (fun name => decide (pass.removed.contains (name :: d) = false)) :=
    List.countP_congr fun name _ => by simp
  rw [hnot]
  omega

/-- A directory of the list is a candidate when its entries are, and will have gone. -/
theorem Ordered.isCandidate_iff (admits : Path → Bool) (applying : Bool) (hdirs : Ordered excludes root [] dirs)
    (hsplit : dirs = before ++ d :: after) : isCandidate excludes admits root applying d = true ↔
      ∀ name ∈ (entriesAt root d).map Prod.fst,
        name :: d ∈ before.filter (isCandidate excludes admits root applying) ∧
          (applying = true → admits (name :: d) = true) := by
  have hvacant := hdirs.vacant_iff hsplit
  have hmem : d ∈ dirs := by rw [hsplit]; simp
  simp only [List.mem_filter, isCandidate, Bool.and_eq_true, Bool.or_eq_true, Bool.not_eq_true',
    isVacant]
  constructor
  · rintro ⟨hv, hbelow⟩ name hname
    obtain ⟨hbefore, hchild⟩ := hvacant.mp hv name hname
    rcases hbelow with hdry | hbelow
    · exact ⟨⟨hbefore, hchild, .inl hdry⟩, fun happly => by simp [hdry] at happly⟩
    · obtain ⟨hadmits, hrest⟩ := (hdirs.admittedBelow_iff hmem hv).mp hbelow name hname
      exact ⟨⟨hbefore, hchild, .inr hrest⟩, fun _ => hadmits⟩
  · intro hall
    have hv : vacant excludes d (entriesAt root d) = true :=
      hvacant.mpr fun name hname => ⟨(hall name hname).1.1, (hall name hname).1.2.1⟩
    refine ⟨hv, ?_⟩
    cases happly : applying with
    | false => exact .inl rfl
    | true =>
      refine .inr ((hdirs.admittedBelow_iff hmem hv).mpr fun name hname => ?_)
      obtain ⟨⟨-, -, hchild⟩, hadmits⟩ := hall name hname
      exact ⟨hadmits happly, hchild.resolve_left (by simp [happly])⟩

theorem filter_candidate_append (hcandidate : isCandidate excludes admits root applying d = true) :
    (before ++ [d]).filter (isCandidate excludes admits root applying) =
      before.filter (isCandidate excludes admits root applying) ++ [d] := by
  rw [List.filter_append]
  simp [hcandidate]

/-- The count of the directory is popped. -/
theorem Books.pop (h : Books excludes admits root applying before before pass) :
    Books excludes admits root applying before (before ++ [d])
      { pass with counts := Function.update pass.counts d 0 } := by
  refine ⟨h.scheduled, h.removed, fun q hq => ?_, h.candidates⟩
  rw [List.mem_append, List.mem_singleton, not_or] at hq
  show Function.update pass.counts d 0 q = _
  rw [Function.update_of_ne hq.2]
  exact h.counts q hq.1

theorem Books.schedule (h : Books excludes admits root applying before (before ++ [d]) pass)
    (hcandidate : isCandidate excludes admits root applying d = true) :
    Books excludes admits root applying (before ++ [d]) (before ++ [d]) (schedule pass d) := by
  refine ⟨?_, h.removed, fun q hq => ?_, ?_⟩
  · show pass.offered ++ (pass.pending ++ [d]) = _
    rw [← List.append_assoc, h.scheduled, filter_candidate_append hcandidate]
  · have hpresent : (EmptyDirectories.schedule pass d).present admits applying =
        pass.present admits applying ++ [d] := (List.append_assoc _ _ _).symm
    have hcount := h.counts q hq
    rw [hpresent, List.countP_append, List.countP_singleton]
    show Function.update pass.counts d.tail (pass.counts d.tail + 1) q = _
    by_cases e : d.tail = q
    · rw [← e, Function.update_self, if_pos (by simp)]
      rw [← e] at hcount
      omega
    · rw [Function.update_of_ne (Ne.symm e), if_neg (by simpa using e)]
      omega
  · show pass.candidates + 1 = _
    rw [h.candidates, filter_candidate_append hcandidate, List.length_append, List.length_singleton]

/-- A directory that is no candidate leaves the books as they are. -/
theorem Books.skip (h : Books excludes admits root applying before (before ++ [d]) pass)
    (hcandidate : ¬ isCandidate excludes admits root applying d = true) :
    Books excludes admits root applying (before ++ [d]) (before ++ [d]) pass := by
  have hfilter : (before ++ [d]).filter (isCandidate excludes admits root applying) =
      before.filter (isCandidate excludes admits root applying) := by
    rw [List.filter_append]
    simp [hcandidate]
  exact ⟨by rw [hfilter]; exact h.scheduled, h.removed, h.counts,
    by rw [hfilter]; exact h.candidates⟩

/-- The pass without the count of a directory. -/
def Pass.popped (pass : Pass) (path : Path) : Pass :=
  { pass with counts := Function.update pass.counts path 0 }

theorem snapshot_occupied {count : ℕ}
    (hcount : directoryEntryCount root pass.removed d = some count) (hne : count ≠ pass.counts d) :
    emptyDirectorySnapshot admits root backend applying pass d = (pass.popped d, false) := by
  simp only [emptyDirectorySnapshot, hcount]
  rw [if_pos hne]
  rfl

theorem snapshot_flushed (hcount : directoryEntryCount root pass.removed d = some (pass.counts d))
    (hflush : (applying && decide (pass.counts d ≠ 0)) = true) :
    emptyDirectorySnapshot admits root backend applying pass d =
      (EmptyDirectories.flush admits root backend applying (pass.popped d),
        decide (directoryEntryCount root
          (EmptyDirectories.flush admits root backend applying (pass.popped d)).removed d =
            some 0)) := by
  simp only [emptyDirectorySnapshot, hcount]
  rw [if_neg (by simp), if_pos hflush]
  rfl

theorem snapshot_empty (hcount : directoryEntryCount root pass.removed d = some (pass.counts d))
    (hflush : ¬ (applying && decide (pass.counts d ≠ 0)) = true) :
    emptyDirectorySnapshot admits root backend applying pass d = (pass.popped d, true) := by
  simp only [emptyDirectorySnapshot, hcount]
  rw [if_neg (by simp), if_neg hflush]
  rfl

/-- A scheduled candidate, and the batch that it may fill. -/
theorem Books.scheduleFlush (h : Books excludes admits root applying before (before ++ [d]) pass)
    (hcandidate : isCandidate excludes admits root applying d = true) (hbackend : applying = true → Succeeds backend)
    (hempty : applying = true → Empty root pass ∧ directoryEntryCount root pass.removed d = some 0) :
    Books excludes admits root applying (before ++ [d]) (before ++ [d])
      (if batchSize ≤ (EmptyDirectories.schedule pass d).pending.length then
        EmptyDirectories.flush admits root backend applying (EmptyDirectories.schedule pass d)
      else EmptyDirectories.schedule pass d) := by
  have hscheduled : applying = true → Empty root (EmptyDirectories.schedule pass d) := by
    intro happly
    obtain ⟨hpass, hd⟩ := hempty happly
    refine ⟨fun q hq => ?_, hpass.handed, hpass.before⟩
    rcases List.mem_append.mp hq with hq | hq
    · exact hpass.pending q hq
    · rw [List.mem_singleton.mp hq]
      exact hd
  by_cases hfull : batchSize ≤ (EmptyDirectories.schedule pass d).pending.length
  · rw [if_pos hfull]
    exact ((h.schedule hcandidate).flush hbackend hscheduled).1
  · rw [if_neg hfull]
    exact h.schedule hcandidate

/-- When nothing is pending, a directory whose entries were all scheduled is empty exactly if it is a
candidate. -/
theorem Books.emptied_iff (h : Books excludes admits root applying before seen pass)
    (hnone : pass.pending = []) (hdirs : Ordered excludes root [] dirs)
    (hsplit : dirs = before ++ d :: after) (happly : applying = true)
    (hall : ∀ name ∈ (entriesAt root d).map Prod.fst,
      name :: d ∈ before.filter (isCandidate excludes admits root applying)) :
    directoryEntryCount root pass.removed d = some 0 ↔
      isCandidate excludes admits root applying d = true := by
  have hoffered := h.scheduled
  rw [hnone, List.append_nil] at hoffered
  have hnodup := hdirs.nodup
  rw [hsplit, List.nodup_append] at hnodup
  have hfresh : d ∉ pass.removed := by
    rw [h.removed, hoffered]
    exact fun hd => hnodup.2.2 d (List.mem_filter.mp (List.mem_filter.mp hd).1).1 d
      List.mem_cons_self rfl
  rw [directoryEntryCount_eq hfresh, Option.some.injEq, List.countP_eq_zero,
    Ordered.isCandidate_iff admits applying hdirs hsplit]
  refine forall₂_congr fun name hname => ?_
  rw [Bool.not_eq_true, Bool.not_eq_false', List.contains_iff_mem, h.removed, hoffered,
    List.mem_filter, gone, happly]
  simp [← happly, hall name hname]

/-- One more directory. -/
theorem Books.visit (h : Books excludes admits root applying before before pass)
    (hdirs : Ordered excludes root [] dirs) (hsplit : dirs = before ++ d :: after)
    (hbackend : applying = true → Succeeds backend) (hempty : applying = true → Empty root pass) :
    Books excludes admits root applying (before ++ [d]) (before ++ [d])
      (visit admits root backend applying batchSize pass d) := by
  obtain ⟨count, hcount, hiff⟩ := h.count_iff hdirs hsplit
  have hcandidate := Ordered.isCandidate_iff admits applying hdirs hsplit
  have hpop : Books excludes admits root applying before (before ++ [d]) (pass.popped d) := h.pop
  have hpopempty : applying = true → Empty root (pass.popped d) := fun happly =>
    ⟨(hempty happly).pending, (hempty happly).handed, (hempty happly).before⟩
  by_cases heq : count = pass.counts d
  · have hall := hiff.mp heq
    rw [heq] at hcount
    by_cases hflush : (applying && decide (pass.counts d ≠ 0)) = true
    · -- the children are trashed first; one above the ceiling is left
      obtain ⟨happly, -⟩ := Bool.and_eq_true_iff.mp hflush
      obtain ⟨hflushed, hnone⟩ := hpop.flush hbackend hpopempty
      have hgone := hflushed.emptied_iff hnone hdirs hsplit happly hall
      rw [EmptyDirectories.visit, snapshot_flushed hcount hflush]
      by_cases hd : isCandidate excludes admits root applying d = true
      · simp only [hgone.mpr hd, decide_true, if_true]
        refine hflushed.scheduleFlush hd hbackend fun _ => ⟨?_, hgone.mpr hd⟩
        subst happly
        exact (hpopempty rfl).flush
      · simp only [mt hgone.mp hd, decide_false, Bool.false_eq_true, if_false]
        exact hflushed.skip hd
    · -- a dry run, or a directory without an entry
      have hzero : applying = true → pass.counts d = 0 := fun happly => by
        simpa [happly] using hflush
      have hd : isCandidate excludes admits root applying d = true := by
        refine hcandidate.mpr fun name hname => ⟨hall name hname, fun happly => ?_⟩
        rw [hzero happly] at hcount
        have hmem : name :: d ∈ pass.removed := by
          obtain ⟨entry, hentry, rfl⟩ := List.mem_map.mp hname
          exact mem_removed_of_count hcount entry hentry
        rw [h.removed] at hmem
        exact (Bool.and_eq_true_iff.mp (List.mem_filter.mp hmem).2).2
      rw [EmptyDirectories.visit, snapshot_empty hcount hflush]
      simp only [if_true]
      refine hpop.scheduleFlush hd hbackend fun happly => ⟨hpopempty happly, ?_⟩
      show directoryEntryCount root pass.removed d = some 0
      rw [hcount, hzero happly]
  · rw [EmptyDirectories.visit, snapshot_occupied hcount heq]
    simp only [Bool.false_eq_true, if_false]
    exact hpop.skip fun hd => heq (hiff.mpr fun name hname => (hcandidate.mp hd name hname).1)

theorem books_foldl (hdirs : Ordered excludes root [] dirs) (hbackend : applying = true → Succeeds backend)
    (after : List Path) :
    ∀ {before : List Path} {pass : Pass}, dirs = before ++ after →
      Books excludes admits root applying before before pass → (applying = true → Empty root pass) →
      Books excludes admits root applying dirs dirs
          (after.foldl (EmptyDirectories.visit admits root backend applying batchSize) pass) ∧
        (applying = true → Empty root
          (after.foldl (EmptyDirectories.visit admits root backend applying batchSize) pass)) := by
  induction after with
  | nil =>
    intro before pass hsplit h hempty
    rw [List.append_nil] at hsplit
    rw [hsplit]
    exact ⟨h, hempty⟩
  | cons d after ih =>
    intro before pass hsplit h hempty
    refine ih (by simpa using hsplit) (h.visit hdirs hsplit hbackend hempty) fun happly => ?_
    subst happly
    exact (hempty rfl).visit

end Books

/-! ## The result -/

variable {root : Entries} {excludes admits : Path → Bool}

/-- The directories without anything but such directories. -/
def vacantDirectories (excludes : Path → Bool) (root : Entries) : List Path :=
  (postorderDirectories excludes root).filter (isVacant excludes root)

/-- The directories below the root that are gone into, with nothing but such directories in them. -/
theorem mem_vacantDirectories (h : distinctEntries root = true) {d : Path} :
    d ∈ vacantDirectories excludes root ↔
      d ≠ [] ∧ Reached excludes root d ∧ vacant excludes d (entriesAt root d) = true := by
  rw [vacantDirectories, List.mem_filter, mem_postorderDirectories h, and_assoc]
  rfl

/-- The ceiling admits the directory and all below it. -/
def withinCeiling (admits : Path → Bool) (root : Entries) (path : Path) : Bool :=
  admits path && admittedBelow admits path (entriesAt root path)

theorem books_start (excludes admits : Path → Bool) (root : Entries) (applying : Bool) :
    Books excludes admits root applying [] [] Pass.start where
  scheduled := rfl
  removed := rfl
  counts _ _ := rfl
  candidates := rfl

theorem empty_start (root : Entries) : Empty root Pass.start where
  pending := by simp [Pass.start]
  handed := by simp [Pass.start]
  before first p later h := absurd h (by simp [Pass.start])

/-- What a pass with a trash that succeeds has offered, and what is gone. -/
theorem books_result (h : distinctEntries root = true) (excludes admits : Path → Bool)
    (backend : Backend) (applying : Bool) (hbackend : applying = true → Succeeds backend)
    (batchSize : ℕ) :
    let pass := trashEmptyDirectories excludes admits root backend applying batchSize
    pass.offered =
        (postorderDirectories excludes root).filter (isCandidate excludes admits root applying) ∧
      pass.removed = pass.offered.filter (gone admits applying) ∧
      pass.candidates = pass.offered.length := by
  obtain ⟨hbooks, hempty⟩ := books_foldl (ordered_directories h) hbackend
    (postorderDirectories excludes root) (List.nil_append _).symm
    (books_start excludes admits root applying) fun _ => empty_start root
  obtain ⟨hflushed, hnone⟩ := hbooks.flush hbackend hempty
  have hall := hflushed.scheduled
  rw [hnone, List.append_nil] at hall
  refine ⟨hall, hflushed.removed, ?_⟩
  have hcandidates := hflushed.candidates
  rw [← hall] at hcandidates
  exact hcandidates

/-- A dry run schedules the vacant directories, whatever the ceiling. -/
theorem dryRun_result (h : distinctEntries root = true) (excludes admits : Path → Bool)
    (backend : Backend) (batchSize : ℕ) :
    (trashEmptyDirectories excludes admits root backend false batchSize).offered =
        vacantDirectories excludes root ∧
      (trashEmptyDirectories excludes admits root backend false batchSize).candidates =
        (vacantDirectories excludes root).length := by
  obtain ⟨hoffered, -, hcandidates⟩ := books_result h excludes admits backend false
    (fun happly => absurd happly Bool.false_ne_true) batchSize
  have hvacant : (postorderDirectories excludes root).filter
      (isCandidate excludes admits root false) = vacantDirectories excludes root :=
    List.filter_congr fun d _ => by simp [isCandidate]
  rw [hvacant] at hoffered
  rw [hoffered] at hcandidates
  exact ⟨hoffered, hcandidates⟩

/-- With `apply`, the vacant directories go that the ceiling admits, with all below them. -/
theorem applied_result (h : distinctEntries root = true) (excludes admits : Path → Bool)
    {backend : Backend} (hbackend : Succeeds backend) (batchSize : ℕ) :
    (trashEmptyDirectories excludes admits root backend true batchSize).removed =
      (vacantDirectories excludes root).filter (withinCeiling admits root) := by
  obtain ⟨hoffered, hremoved, -⟩ := books_result h excludes admits backend true
    (fun _ => hbackend) batchSize
  rw [hremoved, hoffered, vacantDirectories, List.filter_filter, List.filter_filter]
  refine List.filter_congr fun d _ => ?_
  rw [gone, isCandidate, withinCeiling, Bool.true_and, Bool.not_true, Bool.false_or]
  ac_rfl

/-- When the ceiling admits all vacant directories, it admits what is below them. -/
theorem Ordered.admittedBelow_of_vacant {dirs : List Path} (hdirs : Ordered excludes root [] dirs)
    (hall : ∀ d ∈ dirs, isVacant excludes root d = true → admits d = true) (n : ℕ) :
    ∀ (before : List Path) (d : Path) (after : List Path), before.length = n →
      dirs = before ++ d :: after → isVacant excludes root d = true →
      admittedBelow admits d (entriesAt root d) = true := by
  induction n using Nat.strong_induction_on with
  | _ n ih =>
    intro before d after hn hsplit hv
    have hmem : d ∈ dirs := by rw [hsplit]; simp
    refine (hdirs.admittedBelow_iff hmem hv).mpr fun name hname => ?_
    obtain ⟨hbefore, hchild⟩ := (hdirs.vacant_iff hsplit).mp hv name hname
    obtain ⟨first, later, rfl⟩ := List.append_of_mem hbefore
    have hsplit' : dirs = first ++ (name :: d) :: (later ++ d :: after) := by
      rw [hsplit, List.append_assoc, List.cons_append]
    have hlt : first.length < n := by
      rw [← hn, List.length_append, List.length_cons]
      omega
    exact ⟨hall _ (by rw [hsplit']; simp) hchild, ih _ hlt first _ _ rfl hsplit' hchild⟩

theorem filter_withinCeiling_iff (h : distinctEntries root = true) :
    (vacantDirectories excludes root).filter (withinCeiling admits root) =
        vacantDirectories excludes root ↔
      ∀ d ∈ vacantDirectories excludes root, admits d = true := by
  rw [List.filter_eq_self]
  constructor
  · exact fun hall d hd => (Bool.and_eq_true_iff.mp (hall d hd)).1
  · intro hall d hd
    obtain ⟨hmem, hv⟩ := List.mem_filter.mp hd
    obtain ⟨before, after, hsplit⟩ := List.append_of_mem hmem
    refine Bool.and_eq_true_iff.mpr ⟨hall d hd, ?_⟩
    exact (ordered_directories h).admittedBelow_of_vacant
      (fun p hp hpv => hall p (List.mem_filter.mpr ⟨hp, hpv⟩)) _ before d after rfl hsplit hv

/-- **The empty directories.**  The dry run counts the vacant directories of the tree, whatever the
ceiling.  With `apply`, a trash that succeeds on empty directories takes those that the ceiling admits
with all below them, so exactly the counted ones if and only if it admits each of these.  Whatever the
trash answers, no directory is handed to it that has an entry, and none is removed before all that was
in it. -/
theorem trashEmptyDirectories_iff (h : distinctEntries root = true) (excludes : Path → Bool)
    (batchSize : ℕ) (ceiling : Option ℕ) (size : Path → ℕ) :
    (∀ d, d ∈ vacantDirectories excludes root ↔
      d ≠ [] ∧ Reached excludes root d ∧ vacant excludes d (entriesAt root d) = true) ∧
    (∀ backend size',
      (trashEmptyDirectories excludes (sizeIsAdmitted ceiling size') root backend false
          batchSize).offered = vacantDirectories excludes root ∧
        (trashEmptyDirectories excludes (sizeIsAdmitted ceiling size') root backend false
          batchSize).candidates = (vacantDirectories excludes root).length) ∧
    (∀ backend, Succeeds backend →
      (trashEmptyDirectories excludes (sizeIsAdmitted ceiling size) root backend true
          batchSize).removed =
        (vacantDirectories excludes root).filter
          (withinCeiling (sizeIsAdmitted ceiling size) root) ∧
      ((trashEmptyDirectories excludes (sizeIsAdmitted ceiling size) root backend true
          batchSize).removed = vacantDirectories excludes root ↔
        ∀ d ∈ vacantDirectories excludes root, sizeIsAdmitted ceiling size d = true)) ∧
    ∀ backend,
      (∀ item ∈ (trashEmptyDirectories excludes (sizeIsAdmitted ceiling size) root backend true
          batchSize).handed, item.2 = some 0) ∧
      ∀ first d later,
        (trashEmptyDirectories excludes (sizeIsAdmitted ceiling size) root backend true
          batchSize).removed = first ++ d :: later →
        ∀ entry ∈ entriesAt root d, entry.1 :: d ∈ first := by
  refine ⟨fun d => mem_vacantDirectories h, fun backend size' => dryRun_result h _ _ _ _,
    fun backend hbackend => ?_, fun backend => ?_⟩
  · have hremoved := applied_result h excludes (sizeIsAdmitted ceiling size) hbackend batchSize
    refine ⟨hremoved, ?_⟩
    rw [hremoved]
    exact filter_withinCeiling_iff h
  · have hempty : Empty root (trashEmptyDirectories excludes (sizeIsAdmitted ceiling size) root
        backend true batchSize) :=
      (empty_foldl (postorderDirectories excludes root) (empty_start root)).flush
    exact ⟨hempty.handed, hempty.before⟩

/-- `a/b/c` without files, and `d` with one. -/
def smallTree : Entries :=
  [(lit "a", .directory [(lit "b", .directory [(lit "c", .directory [])])]),
    (lit "d", .directory [(lit "file", .other)])]

/-- The `st_size` of the directories of the tree. -/
def smallSizes (path : Path) : ℕ := if path = [lit "b", lit "a"] then 8192 else 4096

/-- A trash that takes nothing but empty directories. -/
def emptyOnly : Backend := fun _ _ count => count = some 0

theorem emptyOnly_succeeds : Succeeds emptyOnly := fun _ _ => rfl

theorem vacantDirectories_small : vacantDirectories (fun _ => false) smallTree =
    [[lit "c", lit "b", lit "a"], [lit "b", lit "a"], [lit "a"]] := by
  rw [vacantDirectories, postorderDirectories_eq]
  decide +kernel

/-- A ceiling of 5000 bytes leaves `b`, so that `a` is not empty; the dry run counts all three. -/
theorem trashEmptyDirectories_iff_small :
    (trashEmptyDirectories (fun _ => false) (sizeIsAdmitted (some 5000) smallSizes) smallTree
        emptyOnly false 2).candidates = 3 ∧
      (trashEmptyDirectories (fun _ => false) (sizeIsAdmitted (some 5000) smallSizes) smallTree
        emptyOnly true 2).removed = [[lit "c", lit "b", lit "a"]] := by
  obtain ⟨-, hdry, happly, -⟩ := trashEmptyDirectories_iff
    (by decide : distinctEntries smallTree = true) (fun _ => false) 2 (some 5000) smallSizes
  rw [(hdry emptyOnly smallSizes).2, (happly emptyOnly emptyOnly_succeeds).1,
    vacantDirectories_small]
  decide +kernel

/-- One empty directory of 4096 bytes under `-S 0.003`: the dry run counts it, and `apply` leaves it. -/
theorem oversize_directory_left :
    ¬ ∀ (root : Entries) (excludes : Path → Bool) (batchSize : ℕ) (ceiling : Option ℕ)
      (size : Path → ℕ) (backend : Backend), distinctEntries root = true → Succeeds backend →
      (trashEmptyDirectories excludes (sizeIsAdmitted ceiling size) root backend true
          batchSize).removed.length =
        (trashEmptyDirectories excludes (sizeIsAdmitted ceiling size) root backend false
          batchSize).candidates := by
  intro hclaim
  have hfalse := hclaim [(lit "a", .directory [])] (fun _ => false) 256 (some 3000) (fun _ => 4096)
    emptyOnly (by decide) emptyOnly_succeeds
  rw [applied_result (by decide) _ _ emptyOnly_succeeds, (dryRun_result (by decide) _ _ _ _).2,
    vacantDirectories, postorderDirectories_eq] at hfalse
  exact absurd hfalse (by decide +kernel)

end EmptyDirectories
end Actions
end Neocortex
