import Neocortex.Actions.Ledger
import Neocortex.Python.JsonRoundTrip

/-!
# Evidence in the Trash

`verify_trash_receipt_evidence` of `safety/kio_trash.py` with what it calls: the paths of a receipt,
the walk of `validate_mutation_path` from the root of the Trash, and the `.trashinfo` beside the
object.  All of it reads the disk and raises, or returns.

A `Disk` is what an observer meets: the entries, their contents, and the errors of looking.  An inode
looks the same under all of its names (`Disk.same`).  The functions of `os.path` and `urllib` that
depend on more than their argument, or that decode, are parameters (`Paths`).

* `verifyTrashReceiptEvidence_eq_ok`: what is accepted is an object with the expected identity, in the
  `files` of a Trash, beside a `.trashinfo` that names the source.
-/

namespace Neocortex
namespace Actions

open Python Checks

/-! ## The disk -/

inductive EntryKind where
  | regular
  | directory
  | link
  | other
  deriving DecidableEq, Repr

/-- What `lstat` and `snapshot_path` say of an entry. -/
structure Entry where
  kind : EntryKind
  nlink : ℕ
  volumeId : ℕ
  fileId : ℕ
  size : ℕ
  mtimeNs : ℤ
  birthtimeNs : ℤ
  deriving DecidableEq, Repr

/-- `_ExpectedIdentity`. -/
structure ExpectedIdentity where
  volumeId : ℤ
  fileId : ℤ
  size : ℤ
  mtimeNs : ℤ
  birthtimeNs : ℤ
  sourceDigest : Option Text
  deriving DecidableEq, Repr

structure Disk where
  at? : Text → Option Entry
  /-- The `OSError` of examining a path, but for `FileNotFoundError`. -/
  fault : Text → Option Text
  /-- `metadata_binding` or `full_fingerprint`, by the form of the expected digest. -/
  binding : Entry → Text → Except Text Text
  /-- The bytes of a regular file. -/
  content : Text → Bytes
  /-- The names in a directory. -/
  names : Text → List Text
  same : ∀ p q c d, at? p = some c → at? q = some d → c.volumeId = d.volumeId →
    c.fileId = d.fileId → c = d

/-- The five numbers that identify an object. -/
def Entry.matches (c : Entry) (e : ExpectedIdentity) : Bool :=
  (c.volumeId : ℤ) == e.volumeId && (c.fileId : ℤ) == e.fileId && (c.size : ℤ) == e.size &&
  c.mtimeNs == e.mtimeNs && c.birthtimeNs == e.birthtimeNs

/-! ## Paths -/

/-- What the code takes from `os.path`, `str`, `float` and `urllib.parse`. -/
structure Paths where
  /-- `os.path.normcase(os.path.abspath(path))`. -/
  pathKey : Text → Text
  /-- `os.path.normpath`. -/
  normpath : Text → Text
  casefold : Text → Text
  /-- `os.fsdecode(unquote_to_bytes(value))`. -/
  unquote : Text → Text
  /-- `float(lexeme) == 1`. -/
  floatIsOne : Text → Bool

/-- `pathlib.PurePosixPath`: its root, empty for a relative path, and the parts behind it. -/
structure PurePath where
  root : Text
  parts : List Text
  deriving DecidableEq, Repr

namespace PurePath

/-- `Path(value)`. -/
def of (value : Text) : PurePath where
  root :=
    if lit "//" <+: value ∧ ¬ lit "///" <+: value then lit "//"
    else if lit "/" <+: value then lit "/"
    else []
  parts := (value.splitOn '/').filter fun part => part ≠ [] ∧ part ≠ lit "."

/-- `os.fspath(path)`. -/
def text (p : PurePath) : Text := p.root ++ (lit "/").intercalate p.parts

def isAbsolute (p : PurePath) : Bool := p.root ≠ []

def parent (p : PurePath) : PurePath := { p with parts := p.parts.dropLast }

def name (p : PurePath) : Text := p.parts.getLast?.getD []

/-- `path / name`, for one name. -/
def child (p : PurePath) (name : Text) : PurePath := { p with parts := p.parts ++ [name] }

/-- A path below another is the child of its parent. -/
theorem eq_child_of_parent {p q : PurePath} {part : Text} (h : p.parent = q.child part) :
    p = (q.child part).child p.name := by
  have hne : p.parts ≠ [] := by
    intro hnil
    have hparts := congrArg PurePath.parts h
    simp [parent, child, hnil] at hparts
  have hlast : p.name = p.parts.getLast hne := by
    rw [name, List.getLast?_eq_some_getLast hne, Option.getD_some]
  rw [← h]
  unfold child parent
  rw [hlast, List.dropLast_append_getLast]

end PurePath

/-! ## Reading a receipt -/

/-- `document.get(key)`, where a missing key is told from `None`. -/
def member? (members : List (Text × Json)) (key : String) : Option Json :=
  members.reverse.lookup (lit key)

/-- `value == 1`, for the numbers that a receipt can hold; `float(lexeme) == 1` is a parameter. -/
def equalsOne (floatIsOne : Text → Bool) : Json → Bool
  | .int n => n == 1
  | .bool b => b
  | .float lexeme => floatIsOne lexeme
  | _ => false

/-- The value is the text. -/
def isText (t : Text) : Json → Bool
  | .str s => s == t
  | _ => false

/-- `type(value) is int and value == n`. -/
def equalsInteger (value : Json) (n : ℤ) : Bool :=
  match value with
  | .int m => m = n
  | _ => false

/-- A path of the evidence. -/
def evidencePath (evidence : List (Text × Json)) (field : String) : Checked PurePath :=
  match Json.get evidence (lit field) with
  | .str value =>
    if value = [] ∨ '\x00' ∈ value then .error ⟨.value, lit "trash receipt paths are invalid"⟩
    else do
      raiseIf ((PurePath.of value).isAbsolute = false ∨ lit ".." ∈ (PurePath.of value).parts) .value
        "trash receipt paths are not absolute descendants"
      pure (PurePath.of value)
  | _ => .error ⟨.value, lit "trash receipt paths are invalid"⟩

/-- The evidence has the birth time of the object, if it has one. -/
def birthtimeAgrees (evidence : List (Text × Json)) (e : ExpectedIdentity) : Bool :=
  match member? evidence "birthtime_ns" with
  | none => true
  | some value => equalsInteger value e.birthtimeNs

/-- `_curation_trash_paths`. -/
def curationTrashPaths (evidence : List (Text × Json)) (sourcePath : Text) (e : ExpectedIdentity)
    (sourceDigest : Text) : Checked (PurePath × PurePath × PurePath) := do
  let root ← evidencePath evidence "trash_root"
  let trashPath ← evidencePath evidence "trash_path"
  let infoPath ← evidencePath evidence "info_path"
  raiseIf (trashPath.parent ≠ root.child (lit "files") ∨ infoPath.parent ≠ root.child (lit "info") ∨
      infoPath.name ≠ trashPath.name ++ lit ".trashinfo" ∨
      PurePath.of sourcePath ∈ [trashPath, infoPath]) .value
    "trash receipt paths are outside the declared Trash layout"
  raiseIf (isText (hexadecimal e.volumeId.toNat) (Json.get evidence (lit "volume_id")) = false ∨
      isText (hexadecimal e.fileId.toNat) (Json.get evidence (lit "file_id")) = false ∨
      equalsInteger (Json.get evidence (lit "size")) e.size = false ∨
      isText sourceDigest (Json.get evidence (lit "digest")) = false ∨
      birthtimeAgrees evidence e = false) .value
    "trash receipt identity or digest differs from the source"
  pure (root, trashPath, infoPath)

/-! ## Walking the disk -/

variable (paths : Paths) (disk : Disk)

/-- `os.lstat`. -/
def lstat (path : Text) : Checked Entry :=
  match disk.fault path with
  | some text => .error ⟨.os, text⟩
  | none =>
    match disk.at? path with
    | none => .error ⟨.os, lit "No such file or directory"⟩
    | some c => .ok c

/-- `os.path.lexists`. -/
def lexists (path : Text) : Bool := (lstat disk path).isOk

/-- `root.resolve(strict=True) != root`: no directory on the way is missing, and none is a link. -/
def resolveRoot (root : PurePath) : Checked Unit :=
  (root.parts.inits.tail).forM fun parts => do
    let c ← lstat disk (PurePath.text ⟨root.root, parts⟩)
    raiseIf (c.kind = .link) .value "trash root traverses a symbolic link"

/-- The `lstat` of a component. -/
def component (role path : Text) : Checked Entry :=
  match disk.fault path with
  | some text => .error ⟨.runtime,
      role ++ lit " component cannot be inspected safely: " ++ path ++ lit ": " ++ text⟩
  | none =>
    match disk.at? path with
    | none => .error ⟨.runtime,
        role ++ lit " component no longer exists inside the inventory root: " ++ path⟩
    | some c => .ok c

/-- The loop of `validate_mutation_path` over the parts below the root. -/
def validateParts (role : Text) (current : PurePath) : List Text → Option Entry →
    Checked (Option Entry)
  | [], leaf => .ok leaf
  | part :: rest, _ => do
    let next := current.child part
    let c ← component disk role next.text
    if c.kind = .link then
      .error ⟨.runtime,
        role ++ lit " traverses a symlink, junction, or reparse point: " ++ next.text⟩
    else if rest ≠ [] ∧ c.kind ≠ .directory then
      .error ⟨.runtime, role ++ lit " has a non-directory intermediate component: " ++ next.text⟩
    else validateParts role next rest (some c)

/-- The `lstat` of the root of `validate_mutation_path`. -/
def inspectRoot (role : Text) (root : PurePath) : Checked Unit :=
  match lstat disk root.text with
  | .error e => .error ⟨.runtime, lit "inventory root cannot be inspected for " ++ role ++ lit ": " ++
      root.text ++ lit ": " ++ e.text⟩
  | .ok c =>
    if c.kind = .link then
      .error ⟨.runtime,
        lit "inventory root became a symlink, junction, or reparse point: " ++ root.text⟩
    else if c.kind ≠ .directory then
      .error ⟨.runtime, lit "inventory root is not a directory: " ++ root.text⟩
    else .ok ()

/-- `validate_mutation_path(root, path)`, for a path below a root that resolves to itself: the physical
containment that it checks last then holds, as no part is a link. -/
def validateMutationPath (root path : PurePath) (role : Text) : Checked (Option Entry) := do
  inspectRoot disk role root
  validateParts disk role root (path.parts.drop root.parts.length) none

/-! ## The `.trashinfo` -/

/-- `_resolve_trash_info_path`. -/
def resolveTrashInfoPath (value : Text) (base : PurePath) : Text :=
  let decoded := paths.unquote value
  if lit "/" <+: decoded then paths.normpath decoded
  else if lit ".." ∈ (PurePath.of decoded).parts then []
  else paths.normpath (PurePath.text ⟨base.root, base.parts ++ (PurePath.of decoded).parts⟩)

/-- The values of the `Path=` lines. -/
def trashInfoPaths (lines : List Text) : List Text :=
  (lines.filter fun line =>
    lit "path=" <+: paths.casefold (strip line) ∧ '=' ∈ line).map fun line =>
      (line.dropWhile (· ≠ '=')).drop 1

/-- `MAX_TRASH_INFO_BYTES`. -/
def maxTrashInfoBytes : ℕ := 8192

/-- `_validate_trash_info`. -/
def validateTrashInfo (info : PurePath) (sourcePath : Text) (base : PurePath) : Checked Unit := do
  let c ← lstat disk info.text
  raiseIf (c.kind ≠ .regular ∨ c.nlink ≠ 1) .value "trash info is not a regular unique file"
  raiseIf (maxTrashInfoBytes < (disk.content info.text).length) .value "trash info exceeds its bound"
  match decodeUtf8 (disk.content info.text) with
  | none => .error ⟨.value, lit "trash info is not valid UTF-8"⟩
  | some text => do
    raiseIf (¬ ∃ line ∈ splitlines text, strip line = lit "[Trash Info]") .value
      "trash info section is missing"
    match trashInfoPaths paths (splitlines text) with
    | [value] =>
      raiseIf (resolveTrashInfoPath paths value base ≠ paths.normpath sourcePath) .value
        "trash info source path differs from the grant effect"
    | _ => .error ⟨.value, lit "trash info source path differs from the grant effect"⟩

/-! ## The verification -/

/-- `KIO_OBJECT_FILE` and `KIO_OBJECT_EMPTY_DIRECTORY`. -/
def objectKinds : List (Text × EntryKind) :=
  [(lit "regular_file", .regular), (lit "empty_directory", .directory)]

/-- `_validate_object_kind`, and the kind of entry that it stands for; the error leaves out the `repr`. -/
def validateObjectKind (value : Json) : Checked EntryKind :=
  match value.asStr?.bind fun name => objectKinds.lookup name with
  | some kind => .ok kind
  | none => .error ⟨.type, lit "unsupported KIO object kind"⟩

/-- `verify_trash_receipt_evidence`. -/
def verifyTrashReceiptEvidence (evidence : Json) (sourcePath : Text) (e : ExpectedIdentity)
    (sourceDigest : Text) : Checked Entry :=
  match evidence with
  | .obj evidence => do
    let kind ← validateObjectKind
      ((member? evidence "object_kind").getD (.str (lit "regular_file")))
    let (root, trashPath, infoPath) ← curationTrashPaths evidence sourcePath e sourceDigest
    resolveRoot disk root
    let metadata ← validateMutationPath disk root trashPath (lit "trash file")
    let infoMetadata ← validateMutationPath disk root infoPath (lit "trash info")
    match metadata with
    | none => .error ⟨.value, lit "trash destination does not match the admitted object kind"⟩
    | some c => do
      raiseIf (c.kind ≠ kind ∨ kind = .regular ∧ c.nlink ≠ 1) .value
        "trash destination does not match the admitted object kind"
      raiseIf (¬ ∃ info ∈ infoMetadata, info.kind = .regular ∧ info.nlink = 1) .value
        "trash info is not a regular unique file"
      raiseIf (c.matches e = false) .value
        "trash destination no longer identifies the original source"
      match disk.binding c sourceDigest with
      | .error text => .error ⟨.os, text⟩
      | .ok digest => do
        raiseIf (digest ≠ sourceDigest) .value "trash destination digest changed"
        raiseIf (kind = .directory ∧ disk.names trashPath.text ≠ []) .value
          "trashed directory is no longer empty"
        validateTrashInfo paths disk infoPath sourcePath root.parent
        raiseIf (lexists disk sourcePath) .value "trash source is present"
        pure c
  | _ => .error ⟨.value, lit "trash evidence is not an object"⟩

/-! ## What is accepted -/

/-- `<root>/files/<name>` and `<root>/info/<name>.trashinfo`. -/
def trashFile (root : PurePath) (name : Text) : PurePath := (root.child (lit "files")).child name

def trashInfo (root : PurePath) (name : Text) : PurePath :=
  (root.child (lit "info")).child (name ++ lit ".trashinfo")

/-- The `.trashinfo` of a name has one `Path`, and it is that of the source. -/
def NamesSource (root : PurePath) (name sourcePath : Text) : Prop :=
  ∃ text value, decodeUtf8 (disk.content (trashInfo root name).text) = some text ∧
    trashInfoPaths paths (splitlines text) = [value] ∧
    resolveTrashInfoPath paths value root.parent = paths.normpath sourcePath

/-- An object in a Trash, beside a `.trashinfo` that names its source. -/
structure InTrash (sourcePath : Text) (c : Entry) (root : PurePath) (name : Text) : Prop where
  isAbsolute : root.isAbsolute = true
  place : disk.at? (trashFile root name).text = some c
  source : NamesSource paths disk root name sourcePath

variable {paths disk} {evidence : List (Text × Json)} {sourcePath sourceDigest : Text}
  {e : ExpectedIdentity} {c : Entry}

theorem evidencePath_eq_ok {field : String} {path : PurePath}
    (h : evidencePath evidence field = .ok path) : path.isAbsolute = true := by
  unfold evidencePath at h
  split at h
  · split_ifs at h
    simp only [bind_eq_ok, raiseIf_eq_ok, pure_eq_ok, not_or, Bool.not_eq_false] at h
    obtain ⟨-, ⟨habsolute, -⟩, rfl⟩ := h
    exact habsolute
  · cases h

/-- The paths of a receipt lie in one Trash, side by side. -/
theorem curationTrashPaths_eq_ok {root trashPath infoPath : PurePath}
    (h : curationTrashPaths evidence sourcePath e sourceDigest = .ok (root, trashPath, infoPath)) :
    root.isAbsolute = true ∧ trashPath = trashFile root trashPath.name ∧
      infoPath = trashInfo root trashPath.name := by
  simp only [curationTrashPaths, bind_eq_ok, raiseIf_eq_ok, pure_eq_ok, Prod.mk.injEq, not_or,
    not_not] at h
  obtain ⟨_, hroot, _, -, _, -, -, ⟨hfiles, hinfo, hname, -⟩, -, -, rfl, rfl, rfl⟩ := h
  refine ⟨evidencePath_eq_ok hroot, PurePath.eq_child_of_parent hfiles, ?_⟩
  rw [trashInfo, ← hname]
  exact PurePath.eq_child_of_parent hinfo

theorem component_eq_ok {role path : Text} (h : component disk role path = .ok c) :
    disk.at? path = some c := by
  unfold component at h
  split at h
  · cases h
  · split at h
    · cases h
    next hat => exact (Except.ok.inj h) ▸ hat

/-- The walk ends with the entry of the path. -/
theorem validateMutationPath_eq_ok {root path : PurePath} {role : Text} (names : List Text)
    {name : Text} (hpath : path = ⟨root.root, root.parts ++ (names ++ [name])⟩)
    (h : validateMutationPath disk root path role = .ok (some c)) :
    disk.at? path.text = some c := by
  have hwalk : ∀ (names : List Text) (current : PurePath) (leaf : Option Entry),
      validateParts disk role current (names ++ [name]) leaf = .ok (some c) →
        disk.at? (PurePath.text ⟨current.root, current.parts ++ (names ++ [name])⟩) = some c := by
    intro names
    induction names with
    | nil =>
      intro current leaf h
      simp only [List.nil_append, validateParts, bind_eq_ok] at h
      obtain ⟨d, hd, h⟩ := h
      split_ifs at h
      obtain rfl := Option.some.inj (Except.ok.inj h)
      exact component_eq_ok hd
    | cons part names ih =>
      intro current leaf h
      simp only [List.cons_append, validateParts, bind_eq_ok] at h
      obtain ⟨d, -, h⟩ := h
      split_ifs at h
      have hnext := ih _ _ h
      simpa [PurePath.child] using hnext
  simp only [validateMutationPath, bind_eq_ok] at h
  obtain ⟨-, -, h⟩ := h
  subst hpath
  rw [List.drop_left] at h
  exact hwalk names root none h

theorem validateTrashInfo_eq_ok {root : PurePath} {name : Text}
    (h : validateTrashInfo paths disk (trashInfo root name) sourcePath root.parent = .ok ()) :
    NamesSource paths disk root name sourcePath := by
  simp only [validateTrashInfo, bind_eq_ok, raiseIf_eq_ok] at h
  obtain ⟨-, -, -, -, -, -, h⟩ := h
  cases htext : decodeUtf8 (disk.content (trashInfo root name).text) with
  | none =>
    rw [htext] at h
    cases h
  | some text =>
    rw [htext] at h
    simp only [bind_eq_ok, raiseIf_eq_ok] at h
    obtain ⟨-, -, h⟩ := h
    split at h
    next value hvalue =>
      exact ⟨text, value, htext, hvalue, not_not.mp (raiseIf_eq_ok.mp h)⟩
    next => cases h

/-- **What the verification accepts** is an object with the expected identity in a Trash, and the
source is not there. -/
theorem verifyTrashReceiptEvidence_eq_ok {evidence : Json}
    (h : verifyTrashReceiptEvidence paths disk evidence sourcePath e sourceDigest = .ok c) :
    c.matches e = true ∧ ∃ root name, InTrash paths disk sourcePath c root name := by
  unfold verifyTrashReceiptEvidence at h
  split at h
  · simp only [bind_eq_ok] at h
    obtain ⟨kind, -, ⟨root, trashPath, infoPath⟩, hpaths, -, -, metadata, hmetadata, info, -, h⟩ := h
    obtain ⟨habsolute, htrash, hinfo⟩ := curationTrashPaths_eq_ok hpaths
    cases metadata with
    | none => cases h
    | some d =>
      simp only [bind_eq_ok, raiseIf_eq_ok] at h
      obtain ⟨-, -, -, -, -, hmatches, h⟩ := h
      split at h
      · cases h
      · simp only [bind_eq_ok, raiseIf_eq_ok, pure_eq_ok] at h
        obtain ⟨-, -, -, -, _, htrashinfo, -, -, rfl⟩ := h
        rw [hinfo] at htrashinfo
        refine ⟨by simpa using hmatches, root, trashPath.name, habsolute, ?_,
          validateTrashInfo_eq_ok htrashinfo⟩
        have hparts : trashPath =
            ⟨root.root, root.parts ++ ([lit "files"] ++ [trashPath.name])⟩ :=
          htrash.trans (by simp [trashFile, PurePath.child])
        rw [← htrash]
        exact validateMutationPath_eq_ok [lit "files"] hparts hmetadata
  · cases h

end Actions
end Neocortex
