import Neocortex.Artifacts.Records
import Neocortex.Library.Durable

/-!
# Manifest files

`runtime.artifact_storage` and `runtime.artifact_manifest`: the registry directory with its names and
inodes, the publication of a manifest as a sequence of durable steps, and the checks of a reader.

A `Directory` is a list of names with inode numbers and the table of the inodes; the link count of an
inode is the number of its names.  A manifest file holds the object that its JSON text spells.

* `writeJsonAtomic`: `_write_json_atomic`; each file-system step is one write of the program.
* `readManifestPayload`, `loadRecord`: the way back, with every check in its order.
* `safeManifestName`, `temporaryName`: the two kinds of names that a publication uses.
-/

namespace Neocortex
namespace Artifacts

open Python Durable

/-! ## Documents -/

/-- `ARTIFACT_REGISTRY_SCHEMA`. -/
def registrySchema : Text := lit "neocortex.artifact-registry/v1"

/-- The object in a manifest file. -/
structure Payload where
  schema : Text
  record : Record
  manifestDigest : Text

def ArtifactKind.text : ArtifactKind → Text
  | .canonical => lit "canonical"
  | .operational => lit "operational"
  | .rebuildable => lit "rebuildable"
  | .temporary => lit "temporary"
  | .cache => lit "cache"
  | .external => lit "external"

def ArtifactState.text : ArtifactState → Text
  | .active => lit "active"
  | .completed => lit "completed"
  | .failed => lit "failed"
  | .recoveryRequired => lit "recovery_required"
  | .retired => lit "retired"

/-- A number or `null`. -/
def intJson : Option ℤ → Json
  | none => .null
  | some n => .int n

/-- A text or `null`. -/
def textJson : Option Text → Json
  | none => .null
  | some t => .str t

def runIdJson : Option RunId → Json
  | none => .null
  | some (.number n) => .int n
  | some (.text t) => .str t

/-- An identity or `null`. -/
def identityOrNull : Option Identity → Json
  | none => .null
  | some identity => identityJson (some identity)

/-- The members of a manifest without its digest. -/
def unsignedMembers (schema : Text) (record : Record) : Members :=
  [(lit "schema", .str schema),
    (lit "artifact_id", .str record.artifactId),
    (lit "owner", .str record.owner),
    (lit "producer", .str record.producer),
    (lit "run_id", runIdJson record.runId),
    (lit "purpose", .str record.purpose),
    (lit "path", .str record.path),
    (lit "root", .str record.root),
    (lit "path_identity", identityOrNull record.pathIdentity),
    (lit "root_identity", identityOrNull record.rootIdentity),
    (lit "kind", .str record.kind.text),
    (lit "state", .str record.state.text),
    (lit "created_ns", .int record.createdNs),
    (lit "updated_ns", .int record.updatedNs),
    (lit "source_ref", record.sourceRef),
    (lit "digest", textJson record.digest),
    (lit "dependencies", .arr (record.dependencies.map Json.str)),
    (lit "retain_until_ns", intJson record.retainUntilNs),
    (lit "ttl_ns", intJson record.ttlNs),
    (lit "disposable", .bool record.disposable),
    (lit "metadata", .obj record.metadata),
    (lit "path_size_bytes", .int record.pathSizeBytes),
    (lit "path_mtime_ns", .int record.pathMtimeNs)]

/-- `_canonical_json`. -/
def canonicalJson (value : Json) : Except Raised Text :=
  match dumpsUnicode value with
  | none => .error (.value "artifact values must be finite JSON")
  | some text => .ok text

/-- `hashlib.sha256(data).hexdigest()`. -/
abbrev Sha256 := Bytes → Text

variable (sha256 : Sha256)

/-- `_manifest_digest`. -/
def manifestDigest (schema : Text) (record : Record) : Except Raised Text := do
  let text ← canonicalJson (.obj (unsignedMembers schema record))
  .ok (lit "sha256:" ++ sha256 (encodeUtf8 text))

/-- `_payload_from_record`. -/
def payloadFromRecord (record : Record) : Except Raised Payload := do
  let digest ← manifestDigest sha256 registrySchema record
  .ok ⟨registrySchema, record, digest⟩

/-- `len(_canonical_json(payload).encode("utf-8"))`. -/
def Payload.encodedSize (payload : Payload) : ℕ :=
  match dumpsUnicode (.obj (unsignedMembers payload.schema payload.record ++
    [(lit "manifest_digest", .str payload.manifestDigest)])) with
  | none => 0
  | some text => utf8Len text

/-! ## The directory -/

/-- What a file holds. -/
inductive Content where
  | manifest (payload : Payload)
  /-- Anything else, with its size. -/
  | other (size : ℕ)

def Content.size : Content → ℕ
  | .manifest payload => payload.encodedSize
  | .other size => size

structure Node where
  type : FileType
  owned : Bool
  unshared : Bool
  content : Content

/-- The registry root. -/
structure Directory where
  entries : List (Text × ℕ)
  nodes : List Node

namespace Directory

/-- The inode of a name. -/
def find (d : Directory) (name : Text) : Option ℕ := d.entries.lookup name

/-- `st_nlink`. -/
def links (d : Directory) (i : ℕ) : ℕ := d.entries.countP fun entry => entry.2 = i

/-- `os.open(name, O_CREAT | O_EXCL, 0o600)`, for a new name. -/
def create (d : Directory) (name : Text) : Directory :=
  ⟨d.entries ++ [(name, d.nodes.length)], d.nodes ++ [⟨.regular, true, true, .other 0⟩]⟩

/-- The file of an inode is written and synced. -/
def fill (d : Directory) (i : ℕ) (content : Content) : Directory :=
  ⟨d.entries, d.nodes.modify i fun node => { node with content := content }⟩

/-- `os.link`, to a new name. -/
def link (d : Directory) (i : ℕ) (name : Text) : Directory :=
  ⟨d.entries ++ [(name, i)], d.nodes⟩

def unlink (d : Directory) (name : Text) : Directory :=
  ⟨d.entries.filter fun entry => entry.1 ≠ name, d.nodes⟩

/-- `os.replace(old, new)` of the inode `i`. -/
def replace (d : Directory) (i : ℕ) (old new : Text) : Directory :=
  ⟨d.entries.filter (fun entry => entry.1 ≠ old ∧ entry.1 ≠ new) ++ [(new, i)], d.nodes⟩

end Directory

/-! ## Publication -/

/-- `f".{path.name}.{uuid4().hex}.tmp"`. -/
def temporaryName (name token : Text) : Text :=
  lit "." ++ name ++ lit "." ++ token ++ lit ".tmp"

/-- The steps behind the write of the temporary. -/
def publishTemporary (i : ℕ) (temporary name : Text) (exclusive : Bool) :
    Program Directory Raised Unit := do
  let d ← Program.read
  if exclusive then
    if (d.find name).isSome then .ofExcept (.error .fileExists)
    else do
      .write (d.link i name)
      .write ((d.link i name).unlink temporary)
  else .write (d.replace i temporary name)

/-- `temporary.unlink(missing_ok=True)`, and the exception goes on. -/
def discardTemporary (temporary : Text) (e : Raised) : Program Directory Raised Unit := do
  let d ← Program.read
  .write (d.unlink temporary)
  .ofExcept (.error e)

/-- The body of the `try` block of `_write_json_atomic`. -/
def fillAndPublish (i : ℕ) (temporary name : Text) (payload : Payload) (exclusive : Bool) :
    Program Directory Raised Unit := do
  let d ← Program.read
  .write (d.fill i (.manifest payload))
  publishTemporary i temporary name exclusive

/-- `_write_json_atomic(root / name, payload, exclusive=exclusive)`; `token` is `uuid4().hex`. -/
def writeJsonAtomic (name token : Text) (payload : Payload) (exclusive : Bool) :
    Program Directory Raised Unit := do
  .ofExcept (need (payload.encodedSize ≤ maxManifestBytes)
    (.value "artifact manifest exceeds the durable size limit"))
  let d ← Program.read
  .ofExcept (need ((d.find (temporaryName name token)).isNone) .fileExists)
  .write (d.create (temporaryName name token))
  Program.handle
    (fillAndPublish d.nodes.length (temporaryName name token) name payload exclusive)
    (discardTemporary (temporaryName name token))

/-! ## Reading -/

/-- `_manifest_file_issue`. -/
def manifestFileIssue (node : Node) (links : ℕ) : Option String :=
  if node.type ≠ .regular then some "manifest_type_drift"
  else if !node.owned || !node.unshared || links ≠ 1 then some "manifest_protection_drift"
  else none

/-- `lstat` of a name. -/
def Directory.stat (d : Directory) (name : Text) : Option (Node × ℕ) := do
  let i ← d.find name
  let node ← d.nodes[i]?
  pure (node, d.links i)

/-- The document in a file, behind its `lstat`. -/
def readContent (registry : Registry) (node : Node) (links : ℕ) : Except Raised Payload := do
  match manifestFileIssue node links with
  | some issue => .error (.manifest ("artifact manifest failed safety check: " ++ issue))
  | none =>
    need (node.content.size ≤ registry.maxManifestBytes)
      (.manifest "artifact manifest is too large")
    match node.content with
    | .other _ => .error (.manifest "artifact manifest is not valid UTF-8 JSON")
    | .manifest payload =>
      need (payload.schema = registrySchema) (.manifest "unsupported artifact registry schema")
      let expected ← manifestDigest sha256 payload.schema payload.record
      need (payload.manifestDigest = expected) (.manifest "artifact manifest digest mismatch")
      need (payload.encodedSize ≤ maxManifestBytes)
        (.manifest "artifact manifest exceeds the hard size limit")
      .ok payload

/-- `read_manifest_payload`. -/
def readManifestPayload (registry : Registry) (d : Directory) (name : Text) :
    Except Raised Payload :=
  match d.stat name with
  | none => .error (.manifest "artifact manifest is unavailable")
  | some (node, links) => readContent sha256 registry node links

/-- `_normalize_dependencies`. -/
def normalizeDependencies (values : List Text) : Except Raised (List Text) := do
  let values ← values.mapM (boundedText "artifact dependency" maxDependencyBytes)
  need (values.length ≤ maxDependencies) (.value "artifact dependencies exceed the durable limit")
  .ok (values.dedup.mergeSort fun a b => (compare a b).isLE)

/-- A number that is absent or not negative. -/
def nonNegative (value : Option ℤ) : Bool := value.all (0 ≤ ·)

/-- The checks of `record_from_payload`. -/
def checkRecord (registry : Registry) (record : Record) : Except Raised Unit := do
  let _ ← boundedText "artifact_id" maxArtifactIdBytes record.artifactId
  let _ ← boundedText "artifact owner" maxTextBytes record.owner
  let _ ← boundedText "artifact producer" maxTextBytes record.producer
  let _ ← boundedText "artifact purpose" maxTextBytes record.purpose
  need record.pathIdentity.isSome (.value "artifact path_identity must contain three integers")
  let _ ← record.pathIdentity.mapM (boundedIdentity "artifact path_identity")
  need record.rootIdentity.isSome (.value "artifact root_identity must contain three integers")
  let _ ← record.rootIdentity.mapM (boundedIdentity "artifact root_identity")
  let _ ← boundedRunId record.runId
  need (0 ≤ record.createdNs) (.manifest "artifact created_ns is invalid")
  need (record.createdNs ≤ record.updatedNs) (.manifest "artifact updated_ns is invalid")
  let _ ← boundedJson "artifact source_ref" maxTextBytes record.sourceRef
  let _ ← record.digest.mapM (boundedText "artifact digest" maxTextBytes)
  let dependencies ← normalizeDependencies record.dependencies
  need (dependencies = record.dependencies) (.manifest "artifact dependencies are not canonical")
  need (nonNegative record.retainUntilNs) (.manifest "artifact retain_until_ns is invalid")
  need (nonNegative record.ttlNs) (.manifest "artifact ttl_ns is invalid")
  let _ ← boundedMapping "artifact metadata" registry.maxMetadataBytes record.metadata
  need (0 ≤ record.pathSizeBytes) (.manifest "artifact path_size_bytes is invalid")
  need (0 ≤ record.pathMtimeNs) (.manifest "artifact path_mtime_ns is invalid")

/-- `_read_manifest_payload` and `_record_from_payload(..., revalidate=False)`. -/
def readRecord (registry : Registry) (d : Directory) (name : Text) : Except Raised Record := do
  let payload ← readManifestPayload sha256 registry d name
  checkRecord registry payload.record
  .ok payload.record

/-- `_load_record`. -/
def loadRecord (registry : Registry) (disk : Disk) (d : Directory) (name : Text) :
    Except Raised Observed := do
  let record ← readRecord sha256 registry d name
  .ok (revalidateRecord registry disk record)

/-! ## Names -/

/-- One character of `[A-Za-z0-9_.-]`. -/
def safeCharacter (c : Char) : Bool :=
  ('a' ≤ c ∧ c ≤ 'z') ∨ ('A' ≤ c ∧ c ≤ 'Z') ∨ ('0' ≤ c ∧ c ≤ '9') ∨ c = '_' ∨ c = '.' ∨ c = '-'

/-- `_SAFE_ID.fullmatch(artifact_id)`. -/
def safeId : Text → Bool
  | [] => false
  | c :: rest => safeCharacter c && c ≠ '_' && c ≠ '.' && c ≠ '-' && rest.all safeCharacter &&
      rest.length ≤ 159

/-- `_safe_manifest_name`. -/
def safeManifestName (artifactId : Text) : Text :=
  if safeId artifactId then lit "artifact-" ++ artifactId ++ lit ".json"
  else lit "artifact-" ++ sha256 (encodeUtf8 artifactId) ++ lit ".json"

end Artifacts
end Neocortex
