import Neocortex.Library.Durable
import Neocortex.Python.Text

/-!
# Extraction under one budget

`_extract_zip_tree` of the archive intake: the members of an archive are streamed into a staging tree,
and every archive among the extracted files is extracted in its turn, next to its file, under the same
limits and the same budget.

What an archive holds is not decided here: the decision on a nested candidate, the chunks that a member
yields, the clock and the free space are answers of the environment, and nothing is assumed of them.

* `streamMember`: one member, with the checks in front of, between and behind its chunks.
* `extractZipTree`: the recursion over the archives that it finds in its own output.
* `Within`: the limits, at one moment; `extraction_within_budgets`: they hold at every moment.
-/

namespace Neocortex
namespace Archive
namespace Extraction

open Python Durable

/-! ## Values -/

/-- An exception, a `ZipIntakeError` by its status and reason. -/
inductive Raised where
  | intake (status reason : String)
  | other (name : String)

/-- `raise error` if the check fails. -/
def need (ok : Bool) (error : Raised) : Except Raised Unit := if ok then .ok () else .error error

@[simp] theorem need_eq_ok {ok : Bool} {error : Raised} {u : Unit} :
    need ok error = .ok u ↔ ok = true := by
  cases ok <;> simp [need]

/-- The limits that an extraction reads; `depth_limit` is one of them. -/
structure Limits where
  maxMemberBytes : ℕ
  maxTotalUncompressedBytes : ℕ
  maxTotalTempBytes : ℕ
  minFreeBytes : ℕ
  depthLimit : ℕ

/-- A member of an archive, as it is declared. -/
structure Member where
  relativeName : Text
  isDirectory : Bool
  fileSize : ℕ
  crc : ℕ

structure Preflight where
  members : List Member
  totalUncompressedBytes : ℕ

inductive Kind where
  | invalid
  | genericZip
  | atomicPackage
  deriving DecidableEq

structure ZipDecision where
  kind : Kind
  status : String
  preflight : Option Preflight

/-- A path below the staging root. -/
abbrev Path := List Text

/-- `_ExtractionBudget`, without the start. -/
structure Budget where
  members : ℕ
  totalUncompressedBytes : ℕ
  tempBytes : ℕ

/-- The staging tree with the budget, and what was done so far. -/
structure Stage where
  directories : List Path
  files : List (Path × Bytes)
  budget : Budget
  /-- The bytes that were ever written to a file. -/
  written : ℕ
  /-- The sizes of the members that are complete, nested archives and their members alike. -/
  completed : List ℕ
  /-- The depths of the extractions that were begun. -/
  entered : List ℕ

namespace Stage

/-- A staging tree without files, and an empty budget. -/
def start (directories : List Path) : Stage := ⟨directories, [], ⟨0, 0, 0⟩, 0, [], []⟩

def content (s : Stage) (path : Path) : Option Bytes := s.files.lookup path

/-- `os.path.lexists`. -/
def lexists (s : Stage) (path : Path) : Bool :=
  (s.content path).isSome || path ∈ s.directories || path.getLast? = some (lit "..")

def mkdir (s : Stage) (path : Path) : Stage := { s with directories := path :: s.directories }

def create (s : Stage) (path : Path) : Stage := { s with files := (path, []) :: s.files }

/-- `budget.temp_bytes += n`. -/
def count (s : Stage) (n : ℕ) : Stage :=
  { s with budget := { s.budget with tempBytes := s.budget.tempBytes + n } }

/-- The file at a path has grown by `n` bytes to `content`. -/
def grow (s : Stage) (path : Path) (content : Bytes) (n : ℕ) : Stage :=
  { s with
    files := s.files.map fun file => if file.1 = path then (path, content) else file
    written := s.written + n }

/-- A member of `n` bytes is complete. -/
def complete (s : Stage) (n : ℕ) : Stage :=
  { s with
    budget := { s.budget with
      members := s.budget.members + 1
      totalUncompressedBytes := s.budget.totalUncompressedBytes + n }
    completed := s.completed ++ [n] }

def unlink (s : Stage) (path : Path) : Stage :=
  { s with files := s.files.filter fun file => file.1 ≠ path }

def enter (s : Stage) (depth : ℕ) : Stage := { s with entered := s.entered ++ [depth] }

/-- The files below a directory. -/
def below (s : Stage) (root : Path) : List (Path × Bytes) :=
  s.files.filter fun file => root.isPrefixOf file.1 && file.1 ≠ root

/-- `sorted(destination.rglob("*"), ...)`, its files: by depth, then by name. -/
def children (s : Stage) (root : Path) : List Path :=
  ((s.below root).map Prod.fst).mergeSort fun a b =>
    a.length < b.length ||
      (a.length = b.length &&
        (compare ([ '/' ].intercalate a) ([ '/' ].intercalate b)).isLE)

end Stage

/-- What the extraction does not decide. -/
structure Environment where
  /-- `deadline.check()`. -/
  deadline : Stage → Except Raised Unit
  /-- `shutil.disk_usage(path).free`; `none` is `OSError`. -/
  free : Stage → Option ℕ
  /-- `zipfile.ZipFile(path, "r")`. -/
  opens : Bytes → Except Raised Unit
  /-- The chunks that a member yields, and how its reader ends. -/
  stream : Bytes → Member → List Bytes × Except Raised Unit
  crc32 : Bytes → ℕ
  /-- `_nested_zip_decision`. -/
  nestedDecision : Path → Bytes → Except Raised (Option ZipDecision)
  /-- `_preflight_zip`. -/
  preflightZip : Bytes → Except Raised Preflight

/-! ## Members -/

section Run

variable (env : Environment) (limits : Limits)

def checkDeadline : Program Stage Raised Unit := do
  let s ← Program.read
  .ofExcept (env.deadline s)

/-- `_check_disk`. -/
def checkDisk (needed : ℕ) : Program Stage Raised Unit := do
  let s ← Program.read
  .ofExcept (match env.free s with
    | none => .error (.intake "blocked" "disk_space_unavailable")
    | some free => need (needed + limits.minFreeBytes ≤ free) (.intake "budget" "disk_space_budget"))

/-- `_open_directory_child(parent, name, create=True)`. -/
def openDirectoryChild (parent : Path) (name : Text) : Program Stage Raised Unit := do
  .ofExcept (need (name ≠ [] && name ≠ lit "." && name ≠ lit ".." && !name.contains '/' &&
    !name.contains '\x00') (.intake "unsafe" "stage_directory_name_invalid"))
  let s ← Program.read
  if (s.content (parent ++ [name])).isSome then
    .ofExcept (.error (.intake "unsafe" "stage_directory_unavailable"))
  else if parent ++ [name] ∈ s.directories then pure ()
  else .write (s.mkdir (parent ++ [name]))

/-- `_open_member_directory`. -/
def openMemberDirectory : Path → List Text → Program Stage Raised Unit
  | _, [] => pure ()
  | root, component :: rest => do
    openDirectoryChild root component
    openMemberDirectory (root ++ [component]) rest

/-- `_open_output`. -/
def openOutput (output : Path) : Program Stage Raised Unit := do
  let s ← Program.read
  if s.lexists output then .ofExcept (.error (.intake "unsafe" "stage_path_collision"))
  else .write (s.create output)

/-- The loop of `_stream_member`; `content` is what was written before. -/
def streamChunks (member : Member) (output : Path) : Bytes → List Bytes → Program Stage Raised Bytes
  | content, [] => do
    checkDeadline env
    pure content
  | content, chunk :: rest => do
    checkDeadline env
    if chunk = [] then pure content
    else do
      let s ← Program.read
      .write (s.count chunk.length)
      .ofExcept (need (content.length + chunk.length ≤ member.fileSize &&
        content.length + chunk.length ≤ limits.maxMemberBytes &&
        s.budget.tempBytes + chunk.length ≤ limits.maxTotalTempBytes)
        (.intake "budget" "extraction_budget"))
      .ofExcept (need (s.budget.totalUncompressedBytes + (content.length + chunk.length) ≤
        limits.maxTotalUncompressedBytes) (.intake "budget" "total_uncompressed_budget"))
      checkDisk env limits (member.fileSize - (content.length + chunk.length))
      .write ((s.count chunk.length).grow output (content ++ chunk) chunk.length)
      streamChunks member output (content ++ chunk) rest

/-- `_stream_member`. -/
def streamMember (archive : Bytes) (member : Member) (output : Path) : Program Stage Raised Unit := do
  let s ← Program.read
  .ofExcept (need (member.fileSize ≤ limits.maxMemberBytes &&
    s.budget.totalUncompressedBytes + member.fileSize ≤ limits.maxTotalUncompressedBytes)
    (.intake "budget" "member_or_total_budget"))
  checkDisk env limits member.fileSize
  openOutput output
  let content ← streamChunks env limits member output [] (env.stream archive member).1
  .ofExcept (env.stream archive member).2
  .ofExcept (need (content.length = member.fileSize && env.crc32 content = member.crc)
    (.intake "corrupt" "member_integrity_failed"))
  let s ← Program.read
  .write (s.complete content.length)

/-- One turn of the loop over the members. -/
def extractMember (archive : Bytes) (destination : Path) (member : Member) :
    Program Stage Raised Unit := do
  checkDeadline env
  let components := member.relativeName.splitOn '/'
  if member.isDirectory then openMemberDirectory destination components
  else do
    openMemberDirectory destination components.dropLast
    streamMember env limits archive member (destination ++ components)

/-- `_verify_tree`; the staged entries are private files and directories. -/
def verifyTree (destination : Path) : Program Stage Raised Unit := do
  checkDeadline env
  let s ← Program.read
  .ofExcept (need (((s.below destination).map fun file => file.2.length).sum ≤
    limits.maxTotalUncompressedBytes) (.intake "budget" "staged_tree_budget"))

/-! ## Nested archives -/

/-- `child.suffix.casefold() == ".zip"`. -/
def hasZipSuffix (name : Text) : Bool :=
  4 < name.length &&
    (match name.drop (name.length - 4) with
      | [dot, z, i, p] => dot = '.' && (z = 'z' || z = 'Z') && (i = 'i' || i = 'I') &&
          (p = 'p' || p = 'P')
      | _ => false)

/-- The sibling that a nested archive is extracted to; `with_name(".")` raises. -/
def nestedDestination (child : Path) : Except Raised Path :=
  let name := child.getLast?.getD []
  let sibling := if hasZipSuffix name then name.take (name.length - 4) else name ++ lit ".extracted"
  if sibling = lit "." then .error (.other "ValueError") else .ok (child.dropLast ++ [sibling])

/-- The status of an archive that is refused inside another one. -/
def nestedStatus (status : String) : String :=
  if status ∈ ["corrupt", "unsafe", "ambiguous", "password", "budget", "timeout", "blocked"] then
    status
  else "corrupt"

/-- What becomes of a file with a decision on it; `nested` is the recursive call. -/
def extractDecided (depth : ℕ)
    (nested : depth < limits.depthLimit → Bytes → Path → Option Preflight → Program Stage Raised ℕ)
    (child : Path) (content : Bytes) (decision : ZipDecision) : Program Stage Raised Unit :=
  match decision.kind with
  | .invalid => .ofExcept (.error (.intake (nestedStatus decision.status) "nested_zip_invalid"))
  | .atomicPackage => pure ()
  | .genericZip =>
    if h : depth < limits.depthLimit then do
      let target ← Program.ofExcept (nestedDestination child)
      let s ← Program.read
      .ofExcept (need (!s.lexists target) (.intake "collision" "nested_destination_collision"))
      let _ ← nested h content target decision.preflight
      let s ← Program.read
      .write (s.unlink child)
    else .ofExcept (.error (.intake "budget" "nested_depth_budget"))

/-- One turn of the loop over the extracted files. -/
def extractChild (depth : ℕ)
    (nested : depth < limits.depthLimit → Bytes → Path → Option Preflight → Program Stage Raised ℕ)
    (child : Path) : Program Stage Raised Unit := do
  checkDeadline env
  let s ← Program.read
  match s.content child with
  | none => pure ()
  | some content => do
    let decision ← Program.ofExcept (env.nestedDecision child content)
    match decision with
    | none => pure ()
    | some decision => extractDecided limits depth nested child content decision

/-- The preflight that the caller has, or a new one. -/
def effectivePreflight (archive : Bytes) : Option Preflight → Except Raised Preflight
  | some preflight => .ok preflight
  | none => env.preflightZip archive

/-- The staged destination is made in a directory that is there. -/
def openDestination (destination : Path) : Program Stage Raised Unit := do
  let s ← Program.read
  .ofExcept (need (destination.dropLast = [] || destination.dropLast ∈ s.directories)
    (.intake "dependency" "staged destination parent_unavailable"))
  openDirectoryChild destination.dropLast (destination.getLast?.getD [])

/-- `_extract_zip_tree`. -/
def extractZipTree (depth : ℕ) (archive : Bytes) (destination : Path) (preflight : Option Preflight) :
    Program Stage Raised ℕ := do
  checkDeadline env
  .ofExcept (need (depth ≤ limits.depthLimit) (.intake "budget" "nested_depth_budget"))
  let s ← Program.read
  .write (s.enter depth)
  let preflight ← Program.ofExcept (effectivePreflight env archive preflight)
  let s ← Program.read
  .ofExcept (need (preflight.totalUncompressedBytes + s.budget.totalUncompressedBytes ≤
    limits.maxTotalUncompressedBytes) (.intake "budget" "nested_total_uncompressed_budget"))
  openDestination destination
  .ofExcept (env.opens archive)
  Program.each (extractMember env limits archive destination) preflight.members
  verifyTree env limits destination
  let s ← Program.read
  Program.each
    (extractChild env limits depth fun h content target preflight =>
      extractZipTree (depth + 1) content target preflight)
    (s.children destination)
  verifyTree env limits destination
  let s ← Program.read
  pure s.budget.members
termination_by limits.depthLimit - depth
decreasing_by omega

end Run

/-! ## The limits -/

/-- The limits hold of what was done so far. -/
structure Within (limits : Limits) (s : Stage) : Prop where
  total : s.budget.totalUncompressedBytes = s.completed.sum
  completed : s.completed.sum ≤ limits.maxTotalUncompressedBytes
  counted : s.written ≤ s.budget.tempBytes
  written : s.written ≤ limits.maxTotalTempBytes
  files : ∀ file ∈ s.files, file.2.length ≤ limits.maxMemberBytes
  entered : ∀ depth ∈ s.entered, depth ≤ limits.depthLimit

section Within

variable {env : Environment} {limits : Limits} {s : Stage}

theorem within_start (limits : Limits) (directories : List Path) :
    Within limits (.start directories) where
  total := rfl
  completed := Nat.zero_le _
  counted := le_rfl
  written := Nat.zero_le _
  files := by simp [Stage.start]
  entered := by simp [Stage.start]

theorem Within.mkdir (h : Within limits s) (path : Path) : Within limits (s.mkdir path) :=
  ⟨h.total, h.completed, h.counted, h.written, h.files, h.entered⟩

theorem Within.create (h : Within limits s) (path : Path) : Within limits (s.create path) := by
  refine ⟨h.total, h.completed, h.counted, h.written, ?_, h.entered⟩
  intro file hfile
  rcases List.mem_cons.mp hfile with rfl | hfile
  · exact Nat.zero_le _
  · exact h.files file hfile

theorem Within.count (h : Within limits s) (n : ℕ) : Within limits (s.count n) :=
  ⟨h.total, h.completed, h.counted.trans (Nat.le_add_right _ _), h.written, h.files, h.entered⟩

/-- A chunk that was counted and admitted is written. -/
theorem Within.grow (h : Within limits s) {n : ℕ} {content : Bytes} (path : Path)
    (htemp : s.budget.tempBytes + n ≤ limits.maxTotalTempBytes)
    (hmember : content.length ≤ limits.maxMemberBytes) :
    Within limits ((s.count n).grow path content n) := by
  have hcounted : s.written + n ≤ s.budget.tempBytes + n := Nat.add_le_add_right h.counted n
  refine ⟨h.total, h.completed, hcounted, hcounted.trans htemp, ?_, h.entered⟩
  intro file hfile
  obtain ⟨old, hold, rfl⟩ := List.mem_map.mp hfile
  split_ifs
  · exact hmember
  · exact h.files old hold

theorem Within.complete (h : Within limits s) {n : ℕ}
    (hn : s.budget.totalUncompressedBytes + n ≤ limits.maxTotalUncompressedBytes) :
    Within limits (s.complete n) := by
  have hsum : (s.completed ++ [n]).sum = s.completed.sum + n := by simp
  refine ⟨?_, ?_, h.counted, h.written, h.files, h.entered⟩
  · rw [Stage.complete, hsum, h.total]
  · rw [Stage.complete, hsum, ← h.total]
    exact hn

theorem Within.unlink (h : Within limits s) (path : Path) : Within limits (s.unlink path) :=
  ⟨h.total, h.completed, h.counted, h.written,
    fun file hfile => h.files file (List.mem_of_mem_filter hfile), h.entered⟩

theorem Within.enter (h : Within limits s) {depth : ℕ} (hdepth : depth ≤ limits.depthLimit) :
    Within limits (s.enter depth) := by
  refine ⟨h.total, h.completed, h.counted, h.written, h.files, ?_⟩
  intro other hother
  rcases List.mem_append.mp hother with hother | hother
  · exact h.entered other hother
  · rw [List.mem_singleton.mp hother]
    exact hdepth

end Within

/-! ## The steps -/

section Steps

variable {env : Environment} {limits : Limits} {s : Stage} {C : Stage → Prop}
  {Q : Except Raised Unit → Stage → Prop}

/-- A step that reads the state and may raise changes nothing. -/
theorem wp_guard {g : Stage → Except Raised Unit} {β : Type} {f : Unit → Program Stage Raised β}
    {Q : Except Raised β → Stage → Prop} (herr : ∀ e, Q (.error e) s) (hok : wp (f ()) s C Q) :
    wp ((do
      let s ← Program.read
      Program.ofExcept (g s) : Program Stage Raised Unit) >>= f) s C Q := by
  rw [wp_bind, wp_read_bind, wp_ofExcept]
  cases g s with
  | error e => exact herr e
  | ok u => exact hok

theorem keeps_checkDeadline {β : Type} {f : Unit → Program Stage Raised β} {P : β → Stage → Prop}
    (h : Within limits s) (hf : Keeps (Within limits) (f ()) s P) :
    Keeps (Within limits) (checkDeadline env >>= f) s P :=
  wp_guard (fun _ => h) hf

theorem keeps_checkDisk {needed : ℕ} {β : Type} {f : Unit → Program Stage Raised β}
    {P : β → Stage → Prop} (h : Within limits s) (hf : Keeps (Within limits) (f ()) s P) :
    Keeps (Within limits) (checkDisk env limits needed >>= f) s P :=
  wp_guard (fun _ => h) hf

/-- A check in front of a program. -/
theorem keeps_need {ok : Bool} {e : Raised} {β : Type} {f : Unit → Program Stage Raised β}
    {P : β → Stage → Prop} (h : Within limits s)
    (hf : ok = true → Keeps (Within limits) (f ()) s P) :
    Keeps (Within limits) (Program.ofExcept (need ok e) >>= f) s P :=
  wp_ofExcept_bind (fun _ _ => h) fun _ hok => hf (need_eq_ok.mp hok)

theorem keeps_ofExcept {α β : Type} {r : Except Raised α} {f : α → Program Stage Raised β}
    {P : β → Stage → Prop} (h : Within limits s)
    (hf : ∀ a, r = .ok a → Keeps (Within limits) (f a) s P) :
    Keeps (Within limits) (Program.ofExcept r >>= f) s P :=
  wp_ofExcept_bind (fun _ _ => h) hf

theorem keeps_error {α : Type} {e : Raised} {P : α → Stage → Prop} (h : Within limits s) :
    Keeps (Within limits) (Program.ofExcept (.error e) : Program Stage Raised α) s P :=
  wp_ofExcept.mpr h

theorem keeps_read {β : Type} {f : Stage → Program Stage Raised β} {P : β → Stage → Prop}
    (hf : Keeps (Within limits) (f s) s P) :
    Keeps (Within limits) (Program.read >>= f) s P := wp_read_bind.mpr hf

theorem keeps_write {t : Stage} {β : Type} {f : Unit → Program Stage Raised β}
    {P : β → Stage → Prop} (h : Within limits t) (hf : Keeps (Within limits) (f ()) t P) :
    Keeps (Within limits) (Program.write t >>= f) s P := wp_write_bind.mpr ⟨h, hf⟩

theorem keeps_openDirectoryChild (h : Within limits s) (parent : Path) (name : Text) :
    Keeps (Within limits) (openDirectoryChild parent name) s fun _ _ => True := by
  refine keeps_need h fun _ => keeps_read ?_
  split_ifs
  · exact keeps_error h
  · exact Keeps.pure h trivial
  · exact Keeps.write (h.mkdir _) trivial

theorem keeps_openMemberDirectory (components : List Text) :
    ∀ {s : Stage} (root : Path), Within limits s →
      Keeps (Within limits) (openMemberDirectory root components) s fun _ _ => True := by
  induction components with
  | nil =>
    intro s root h
    exact Keeps.pure h trivial
  | cons component rest ih =>
    intro s root h
    exact (keeps_openDirectoryChild h root component).bind fun _ _ ht _ => ih _ ht

/-- A new file leaves the budget. -/
theorem keeps_openOutput (h : Within limits s) (output : Path) :
    Keeps (Within limits) (openOutput output) s fun _ t =>
      t.budget.totalUncompressedBytes = s.budget.totalUncompressedBytes := by
  refine keeps_read ?_
  split_ifs
  · exact keeps_error h
  · exact Keeps.write (h.create output) rfl

/-- The chunks of a member stay within the limits, and what they add up to fits the total. -/
theorem keeps_streamChunks (member : Member) (output : Path) (chunks : List Bytes) :
    ∀ {s : Stage} (content : Bytes), Within limits s →
      s.budget.totalUncompressedBytes + content.length ≤ limits.maxTotalUncompressedBytes →
      Keeps (Within limits) (streamChunks env limits member output content chunks) s fun all t =>
        t.budget.totalUncompressedBytes + all.length ≤ limits.maxTotalUncompressedBytes := by
  induction chunks with
  | nil =>
    intro s content h hfits
    exact keeps_checkDeadline h (Keeps.pure h hfits)
  | cons chunk rest ih =>
    intro s content h hfits
    rw [streamChunks]
    refine keeps_checkDeadline h ?_
    split_ifs
    · exact Keeps.pure h hfits
    · refine keeps_read (keeps_write (h.count _) ?_)
      refine keeps_need (h.count _) fun hsize => keeps_need (h.count _) fun htotal => ?_
      refine keeps_checkDisk (h.count _) ?_
      simp only [Bool.and_eq_true, decide_eq_true_eq] at hsize htotal
      have hlength : (content ++ chunk).length = content.length + chunk.length :=
        List.length_append
      have hgrown := h.grow output hsize.2 (hlength.le.trans hsize.1.2)
      refine keeps_write hgrown (ih _ hgrown ?_)
      rw [hlength]
      exact htotal

theorem keeps_streamMember (h : Within limits s) (archive : Bytes) (member : Member) (output : Path) :
    Keeps (Within limits) (streamMember env limits archive member output) s fun _ _ => True := by
  refine keeps_read (keeps_need h fun _ => keeps_checkDisk h ?_)
  refine (keeps_openOutput h output).bind fun _ t ht hsame => ?_
  have hfits : t.budget.totalUncompressedBytes + ([] : Bytes).length ≤
      limits.maxTotalUncompressedBytes := by
    rw [List.length_nil, Nat.add_zero, ht.total]
    exact ht.completed
  refine (keeps_streamChunks member output _ [] ht hfits).bind fun content u hu hcontent => ?_
  refine keeps_ofExcept hu fun _ _ => keeps_need hu fun _ => keeps_read ?_
  exact Keeps.write (hu.complete hcontent) trivial

theorem keeps_extractMember (h : Within limits s) (archive : Bytes) (destination : Path)
    (member : Member) :
    Keeps (Within limits) (extractMember env limits archive destination member) s
      fun _ _ => True := by
  refine keeps_checkDeadline h ?_
  split_ifs
  · exact keeps_openMemberDirectory _ _ h
  · exact (keeps_openMemberDirectory _ _ h).bind fun _ _ ht _ => keeps_streamMember ht _ _ _

/-- A state that stays where it is, however the computation ends. -/
theorem onEnd_same (r : Except Raised Unit) :
    onEnd (fun _ t => t = s) (fun _ t => t = s) r s := by
  cases r <;> rfl

theorem keeps_verifyTree {β : Type} {f : Unit → Program Stage Raised β} {P : β → Stage → Prop}
    (h : Within limits s) (destination : Path) (hf : Keeps (Within limits) (f ()) s P) :
    Keeps (Within limits) (verifyTree env limits destination >>= f) s P := by
  refine wp_seq (P := fun _ t => t = s) (E := fun _ t => t = s) ?_ ?_ ?_
  · refine wp_guard (fun _ => rfl) ?_
    rw [wp_read_bind, wp_ofExcept]
    exact onEnd_same _
  · rintro _ _ rfl
    exact hf
  · rintro _ _ rfl
    exact h

/-- A loop whose turns keep the limits keeps them. -/
theorem keeps_each {β : Type} {f : β → Program Stage Raised Unit} (l : List β) (h : Within limits s)
    (hf : ∀ b t, Within limits t → Keeps (Within limits) (f b) t fun _ _ => True) :
    Keeps (Within limits) (Program.each f l) s fun _ _ => True :=
  Keeps.each (J := fun _ _ => True) h trivial fun _ b _ t _ ht _ => hf b t ht

theorem keeps_openDestination (h : Within limits s) (destination : Path) :
    Keeps (Within limits) (openDestination destination) s fun _ _ => True :=
  keeps_read (keeps_need h fun _ => keeps_openDirectoryChild h _ _)

/-- A nested archive keeps the limits if the recursive call does. -/
theorem keeps_extractDecided {depth : ℕ}
    {nested : depth < limits.depthLimit → Bytes → Path → Option Preflight → Program Stage Raised ℕ}
    (hnested : ∀ hdepth content target preflight t, Within limits t →
      Keeps (Within limits) (nested hdepth content target preflight) t fun _ _ => True)
    (h : Within limits s) (child : Path) (content : Bytes) (decision : ZipDecision) :
    Keeps (Within limits) (extractDecided limits depth nested child content decision) s
      fun _ _ => True := by
  rw [extractDecided]
  cases decision.kind with
  | invalid => exact keeps_error h
  | atomicPackage => exact Keeps.pure h trivial
  | genericZip =>
    by_cases hdepth : depth < limits.depthLimit
    · simp only [dif_pos hdepth]
      refine keeps_ofExcept h fun target _ => keeps_read (keeps_need h fun _ => ?_)
      refine (hnested hdepth content target decision.preflight s h).bind fun _ t ht _ => ?_
      exact keeps_read (Keeps.write (ht.unlink child) trivial)
    · simp only [dif_neg hdepth]
      exact keeps_error h

theorem keeps_extractChild {depth : ℕ}
    {nested : depth < limits.depthLimit → Bytes → Path → Option Preflight → Program Stage Raised ℕ}
    (hnested : ∀ hdepth content target preflight t, Within limits t →
      Keeps (Within limits) (nested hdepth content target preflight) t fun _ _ => True)
    (h : Within limits s) (child : Path) :
    Keeps (Within limits) (extractChild env limits depth nested child) s fun _ _ => True := by
  refine keeps_checkDeadline h (keeps_read ?_)
  cases s.content child with
  | none => exact Keeps.pure h trivial
  | some content =>
    refine keeps_ofExcept h fun decision _ => ?_
    cases decision with
    | none => exact Keeps.pure h trivial
    | some decision => exact keeps_extractDecided hnested h child content decision

/-- The extraction keeps the limits, by induction on the levels that are left. -/
theorem keeps_extractZipTree (env : Environment) (limits : Limits) (levels : ℕ) :
    ∀ (depth : ℕ) (archive : Bytes) (destination : Path) (preflight : Option Preflight) (s : Stage),
      limits.depthLimit - depth = levels → Within limits s →
      Keeps (Within limits) (extractZipTree env limits depth archive destination preflight) s
        fun _ _ => True := by
  induction levels using Nat.strong_induction_on with
  | _ levels ih =>
    intro depth archive destination preflight s hlevels h
    rw [extractZipTree]
    refine keeps_checkDeadline h (keeps_need h fun hdepth => keeps_read ?_)
    have hentered : Within limits (s.enter depth) := h.enter (by simpa using hdepth)
    refine keeps_write hentered (keeps_ofExcept hentered fun admitted _ => keeps_read ?_)
    refine keeps_need hentered fun _ => ?_
    refine (keeps_openDestination hentered destination).bind fun _ t ht _ => ?_
    refine keeps_ofExcept ht fun _ _ => ?_
    refine (keeps_each _ ht fun member u hu => keeps_extractMember hu _ _ member).bind
      fun _ u hu _ => ?_
    refine keeps_verifyTree hu destination (keeps_read ?_)
    refine (keeps_each _ hu fun child v hv => ?_).bind fun _ v hv _ => ?_
    · refine keeps_extractChild (fun hless content target nestedPreflight w hw => ?_) hv child
      exact ih (limits.depthLimit - (depth + 1)) (by omega) (depth + 1) content target
        nestedPreflight w rfl hw
    · exact keeps_verifyTree hv destination (keeps_read (Keeps.pure hv trivial))

end Steps

/-! ## The guarantee -/

/-- At every moment of an extraction that starts with an empty budget, whatever the archives yield: no
extraction was begun deeper than the limit, the bytes ever written fit the temporary budget, no file is
larger than a member may be, and the members completed so far, a nested archive and its own members
alike, fit the total. -/
theorem extraction_within_budgets (env : Environment) (limits : Limits) (archive : Bytes)
    (destination : Path) (preflight : Option Preflight) (directories : List Path) :
    ∀ t ∈ (extractZipTree env limits 0 archive destination preflight (.start directories)).writes,
      (∀ depth ∈ t.entered, depth ≤ limits.depthLimit) ∧
        t.written ≤ limits.maxTotalTempBytes ∧
        (∀ file ∈ t.files, file.2.length ≤ limits.maxMemberBytes) ∧
        t.completed.sum ≤ limits.maxTotalUncompressedBytes := by
  intro t ht
  have hkeeps := keeps_extractZipTree env limits _ 0 archive destination preflight
    (.start directories) rfl (within_start limits directories)
  have h := hkeeps.1 t ht
  exact ⟨h.entered, h.written, h.files, h.completed⟩

/-- An environment in which `a.zip` holds the archive `b` of two bytes. -/
def oneNested : Environment where
  deadline _ := .ok ()
  free _ := some 1000
  opens _ := .ok ()
  stream archive _ := if archive = [0] then ([[1]], .ok ()) else ([[2], [3]], .ok ())
  crc32 _ := 0
  nestedDecision path _ :=
    .ok (if path.getLast? = some (lit "a.zip") then
      some ⟨.genericZip, "validated", some ⟨[⟨lit "b", false, 2, 0⟩], 2⟩⟩ else none)
  preflightZip _ := .ok ⟨[⟨lit "a.zip", false, 1, 0⟩], 1⟩

/-- The last state of an extraction with one nested archive: the archive counts beside its member. -/
theorem extraction_within_budgets_nested :
    ∃ t, (extractZipTree oneNested ⟨10, 10, 10, 0, 1⟩ 0 [0] [lit "out"] none
        (.start [])).writes.getLast? = some t ∧
      t.completed = [1, 2] ∧ t.written ≤ 10 ∧ t.completed.sum ≤ 10 := by
  have hlast : (extractZipTree oneNested ⟨10, 10, 10, 0, 1⟩ 0 [0] [lit "out"] none
      (.start [])).writes.getLast?.map Stage.completed = some [1, 2] := by
    decide +kernel
  obtain ⟨t, ht, hcompleted⟩ := Option.map_eq_some_iff.mp hlast
  have hwithin := extraction_within_budgets oneNested ⟨10, 10, 10, 0, 1⟩ [0] [lit "out"] none [] t
    (List.mem_of_getLast? ht)
  exact ⟨t, ht, hcompleted, hwithin.2.1, hwithin.2.2.2⟩

end Extraction
end Archive
end Neocortex
