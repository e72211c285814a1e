import Neocortex.Library.Checks
import Neocortex.Python.Json

/-!
# Publication records

The values of `persistence/state_publication.py` and their checks: owner heads, the
publication event, the epoch, their JSON payloads and the parsers that read the
payloads back.

SHA-256 enters as `Sha256`: any function from bytes to 64 lower-case hexadecimal
digits.  Nothing below assumes more of it.

A field that Python reads from untyped JSON is a `Json` here until it is checked; an
argument that the caller's type annotation fixes has that type.
-/

namespace Neocortex
namespace Publication

open Python
open Checks (raiseIf)

/-! ## Constants -/

def statePublicationSchema : Text := lit "neocortex.state-publication/v1"
def stateContentPublicationManifestSchema : Text :=
  lit "neocortex.content-publication-manifest/v1"
def stateContentPublicationManifestPrefix : Text := lit "content-publication-manifest."
def maxPublicationJournalBytes : ℕ := 16 * 1024 * 1024
def maxPublicationRecordBytes : ℕ := 256 * 1024
def maxOwnerHeads : ℕ := 1024

/-! ## Errors -/

/-- What the module raises.  `StatePublicationCommitError` is not here: it reports a failed
system call behind a durable write, and leaves what a crash at that point leaves. -/
inductive PublicationError where
  /-- `ValueError`. -/
  | value (message : String)
  /-- `StatePublicationError`. -/
  | publication (message : String)
  /-- `StatePublicationConflictError`. -/
  | conflict (message : String)
  deriving DecidableEq, Repr

abbrev Checked := Except PublicationError

/-! ## Checked text -/

/-- What `_required_text` accepts: non-empty trimmed text of at most `maximum` bytes. -/
def IsRequiredText (maximum : ℕ) (t : Text) : Prop :=
  t ≠ [] ∧ strip t = t ∧ utf8Len t ≤ maximum

instance (maximum : ℕ) (t : Text) : Decidable (IsRequiredText maximum t) :=
  inferInstanceAs (Decidable (_ ∧ _ ∧ _))

/-- `_required_text`. -/
def requiredText (value : Json) (label : String) (maximum : ℕ) : Checked Text :=
  match value.asStr? with
  | some t =>
    if t = [] ∨ strip t ≠ t then .error (.value s!"{label} must be non-empty trimmed text")
    else if maximum < utf8Len t then .error (.value s!"{label} exceeds its bound")
    else .ok t
  | none => .error (.value s!"{label} must be non-empty trimmed text")

/-- One of `0123456789abcdef`. -/
def isLowerHex (c : Char) : Bool := ('0' ≤ c && c ≤ '9') || ('a' ≤ c && c ≤ 'f')

/-- One of `0123456789abcdefABCDEF`. -/
def isHex (c : Char) : Bool := isLowerHex c || ('A' ≤ c && c ≤ 'F')

/-- A lower-case SHA-256 hexadecimal digest. -/
def IsSha256 (t : Text) : Prop := t.length = 64 ∧ ∀ c ∈ t, isLowerHex c = true

instance (t : Text) : Decidable (IsSha256 t) :=
  decidable_of_iff (t.length = 64 ∧ t.all isLowerHex = true) (by rw [List.all_eq_true, IsSha256])

/-- `hashlib.sha256(data).hexdigest()`. -/
structure Sha256 where
  hexdigest : Bytes → Text
  isSha256 : ∀ b, IsSha256 (hexdigest b)

/-- `_required_sha256`. -/
def requiredSha256 (value : Json) (label : String) : Checked Text := do
  let selected ← requiredText value label 64
  raiseIf (selected.length ≠ 64 ∨ (selected.any fun c => !isHex c) = true)
    (.value s!"{label} must be a SHA-256 hexadecimal digest")
  pure (selected.map Char.toLower)

/-- `_optional_sha256`. -/
def optionalSha256 (value : Option Text) : Checked (Option Text) :=
  match value with
  | none => pure none
  | some t => do
    let digest ← requiredSha256 (.str t) "manifest_sha256"
    pure (some digest)

/-- `_owners`. -/
def owners (values : List Text) : Checked (List Text) := do
  let result ← values.mapM fun value => requiredText (.str value) "owner" 128
  raiseIf (¬ result.Nodup) (.value "owners cannot repeat")
  pure result

/-! ## Owner heads -/

/-- `StateOwnerHead`.  The checks of `__post_init__` are the proof fields. -/
structure StateOwnerHead where
  owner : Text
  revision : ℕ
  digestSha256 : Text
  schemaVersion : Option ℕ
  owner_ok : IsRequiredText 128 owner
  digest_ok : IsSha256 digestSha256
  schema_ok : ∀ v ∈ schemaVersion, 1 ≤ v
  deriving DecidableEq

/-- `None` or a number, as JSON. -/
def optNat : Option ℕ → Json
  | none => .null
  | some n => .int n

/-- The members of `StateOwnerHead.as_payload`. -/
def StateOwnerHead.members (h : StateOwnerHead) : List (Text × Json) :=
  [(lit "owner", .str h.owner),
    (lit "revision", .int h.revision),
    (lit "digest_sha256", .str h.digestSha256),
    (lit "schema_version", optNat h.schemaVersion)]

/-- `StateOwnerHead.as_payload`. -/
def StateOwnerHead.asPayload (h : StateOwnerHead) : Json := .obj h.members

/-- `type(value) is int and value >= bound`. -/
def natAtLeast (bound : ℕ) : Json → Option ℕ
  | .int n => if (bound : ℤ) ≤ n then some n.toNat else none
  | _ => none

/-- The schema version of a head: absent, or a positive integer. -/
def schemaVersionOf : Json → Checked {v : Option ℕ // ∀ n ∈ v, 1 ≤ n}
  | .null => .ok ⟨none, by simp⟩
  | value =>
    match natAtLeast 1 value with
    | some n =>
      if h : 1 ≤ n then .ok ⟨some n, by simpa using h⟩
      else .error (.value "owner head schema version must be a positive integer")
    | none => .error (.value "owner head schema version must be a positive integer")

/-- `StateOwnerHead.__post_init__`. -/
def StateOwnerHead.postInit (owner revision digest schema : Json) : Checked StateOwnerHead := do
  let owner ← requiredText owner "owner" 128
  let revision ←
    match natAtLeast 0 revision with
    | some n => pure n
    | none => .error (.value "owner head revision must be a non-negative integer")
  let digest ← requiredSha256 digest "owner head digest"
  let schema ← schemaVersionOf schema
  if h : IsRequiredText 128 owner ∧ IsSha256 digest then
    pure ⟨owner, revision, digest, schema.1, h.1, h.2, schema.2⟩
  else .error (.value "owner head digest must be a SHA-256 hexadecimal digest")

/-- `canonical_owner_heads`: at most `maxOwnerHeads` heads of distinct owners, by owner. -/
def canonicalOwnerHeads (values : List StateOwnerHead) : Checked (List StateOwnerHead) := do
  raiseIf (maxOwnerHeads < values.length) (.value "owner heads exceed their bound")
  raiseIf (¬ (values.map StateOwnerHead.owner).Nodup) (.value "owner heads cannot repeat")
  pure (values.insertionSort fun a b => a.owner ≤ b.owner)

/-- One entry of a list of owner heads. -/
def parseOwnerHead (label : String) : Json → Checked StateOwnerHead
  | .obj item =>
    match StateOwnerHead.postInit (Json.get item (lit "owner")) (Json.get item (lit "revision"))
        (Json.get item (lit "digest_sha256")) (Json.get item (lit "schema_version")) with
    | .ok h => .ok h
    | .error _ => .error (.publication s!"{label} contain an invalid entry")
  | _ => .error (.publication s!"{label} contain an invalid entry")

/-- `_parse_owner_heads`. -/
def parseOwnerHeads (raw : Json) (label : String) : Checked (List StateOwnerHead) :=
  match raw with
  | .null => pure []
  | .arr items => do
    raiseIf (maxOwnerHeads < items.length) (.publication s!"{label} exceed their bound")
    let values ← items.mapM (parseOwnerHead label)
    match canonicalOwnerHeads values with
    | .ok heads => pure heads
    | .error _ => .error (.publication s!"{label} are invalid")
  | _ => .error (.publication s!"{label} are invalid")

/-! ## Epochs and events -/

/-- Where an epoch was read. -/
inductive EpochSource where
  | absent
  | pointer
  | journal
  deriving DecidableEq, Repr

/-- `StateEpoch`. -/
structure StateEpoch where
  epoch : ℕ
  eventId : Option Text
  operation : Option Text
  owners : List Text
  manifestSha256 : Option Text
  source : EpochSource
  ownerHeads : List StateOwnerHead
  contentManifestSha256 : Option Text
  contentManifestName : Option Text
  deriving DecidableEq

/-- `PublicationStatus`. -/
inductive PublicationStatus where
  | complete
  | partial_
  | failed
  deriving DecidableEq, Repr

def PublicationStatus.text : PublicationStatus → Text
  | .complete => lit "complete"
  | .partial_ => lit "partial"
  | .failed => lit "failed"

/-- `StatePublication`: one append-only publication event. -/
structure StatePublication where
  eventId : Text
  epoch : ℕ
  operation : Text
  owners : List Text
  status : PublicationStatus
  createdNs : ℕ
  idempotencyKey : Text
  manifestSha256 : Option Text
  detail : Option Text
  ownerHeads : List StateOwnerHead
  contentManifestSha256 : Option Text
  contentManifestName : Option Text
  deriving DecidableEq

/-- `None` or a string, as JSON. -/
def optText (t : Option Text) : Json := (t.map Json.str).getD .null

def textList (ts : List Text) : Json := .arr (ts.map Json.str)

def headList (hs : List StateOwnerHead) : Json := .arr (hs.map StateOwnerHead.asPayload)

/-- The members of `StatePublication.as_payload`. -/
def StatePublication.members (p : StatePublication) : List (Text × Json) :=
  [(lit "schema", .str statePublicationSchema),
    (lit "event_id", .str p.eventId),
    (lit "epoch", .int p.epoch),
    (lit "operation", .str p.operation),
    (lit "owners", textList p.owners),
    (lit "status", .str p.status.text),
    (lit "created_ns", .int p.createdNs),
    (lit "idempotency_key", .str p.idempotencyKey),
    (lit "manifest_sha256", optText p.manifestSha256),
    (lit "detail", optText p.detail),
    (lit "owner_heads", headList p.ownerHeads),
    (lit "content_manifest_sha256", optText p.contentManifestSha256),
    (lit "content_manifest_name", optText p.contentManifestName)]

/-- `StatePublication.as_payload`. -/
def StatePublication.asPayload (p : StatePublication) : Json := .obj p.members

/-- The members of the epoch pointer that a complete event writes. -/
def StatePublication.pointerMembers (p : StatePublication) : List (Text × Json) :=
  [(lit "schema", .str statePublicationSchema),
    (lit "epoch", .int p.epoch),
    (lit "event_id", .str p.eventId),
    (lit "operation", .str p.operation),
    (lit "owners", textList p.owners),
    (lit "manifest_sha256", optText p.manifestSha256),
    (lit "owner_heads", headList p.ownerHeads),
    (lit "content_manifest_sha256", optText p.contentManifestSha256),
    (lit "content_manifest_name", optText p.contentManifestName)]

/-- The epoch pointer of a complete event. -/
def StatePublication.pointerPayload (p : StatePublication) : Json := .obj p.pointerMembers

/-- The members of `_content_manifest_payload`. -/
def StatePublication.manifestMembers (p : StatePublication) : List (Text × Json) :=
  [(lit "schema", .str stateContentPublicationManifestSchema),
    (lit "status", .str (lit "complete")),
    (lit "event_id", .str p.eventId),
    (lit "epoch", .int p.epoch),
    (lit "operation", .str p.operation),
    (lit "owners", textList p.owners),
    (lit "owner_heads", headList p.ownerHeads),
    (lit "idempotency_key", .str p.idempotencyKey),
    (lit "source_manifest_sha256", optText p.manifestSha256)]

/-- `_content_manifest_payload`. -/
def contentManifestPayload (p : StatePublication) : Json := .obj p.manifestMembers

/-- What the constructor of `StateEpoch` makes of a complete event. -/
def StatePublication.toEpoch (p : StatePublication) (source : EpochSource) : StateEpoch where
  epoch := p.epoch
  eventId := some p.eventId
  operation := some p.operation
  owners := p.owners
  manifestSha256 := p.manifestSha256
  source := source
  ownerHeads := p.ownerHeads
  contentManifestSha256 := p.contentManifestSha256
  contentManifestName := p.contentManifestName

/-! ## Parsing -/

/-- The check of `_content_manifest_path`. -/
def contentManifestPath (name : Text) : Checked Text := do
  raiseIf ('/' ∈ name ∨ ¬ stateContentPublicationManifestPrefix <+: name ∨
      ¬ lit ".json" <:+ name)
    (.publication "content publication manifest name is invalid")
  pure name

/-- A member that is `None` or a string; `message` is the error for anything else. -/
def optionalStr (value : Json) (message : String) : Checked (Option Text) :=
  match value with
  | .null => pure none
  | .str s => pure (some s)
  | _ => .error (.publication message)

/-- A list whose items are all strings. -/
def strItems (value : Json) (message : String) : Checked (List Text) :=
  match value with
  | .arr items =>
    match items.mapM Json.asStr? with
    | some ts => pure ts
    | none => .error (.publication message)
  | _ => .error (.publication message)

def natOr (bound : ℕ) (value : Json) (message : String) : Checked ℕ :=
  match natAtLeast bound value with
  | some n => pure n
  | none => .error (.publication message)

/-- `None`, or text that passes `_required_text`. -/
def optionalRequiredText (value : Json) (label : String) (maximum : ℕ) :
    Checked (Option Text) :=
  match value with
  | .null => pure none
  | value => do
    let t ← requiredText value label maximum
    pure (some t)

/-- The name of a content manifest, when the payload has one. -/
def contentNameOf (value : Json) (message : String) : Checked (Option Text) := do
  let name ← optionalStr value message
  match name with
  | none => pure none
  | some n => do
    let n ← contentManifestPath n
    pure (some n)

/-- `_parse_epoch`. -/
def parseEpoch (value : List (Text × Json)) (source : EpochSource) : Checked StateEpoch := do
  raiseIf ((Json.get value (lit "schema")).asStr? ≠ some statePublicationSchema)
    (.publication "publication epoch schema is incompatible")
  let epoch ← natOr 0 (Json.get value (lit "epoch")) "publication epoch is invalid"
  let eventId ← optionalRequiredText (Json.get value (lit "event_id")) "event_id" 256
  let operation ← optionalRequiredText (Json.get value (lit "operation")) "operation" 512
  let rawOwners ← strItems (Json.get value (lit "owners")) "publication epoch owners are invalid"
  let owners ← Publication.owners rawOwners
  let manifest ← optionalStr (Json.get value (lit "manifest_sha256"))
    "publication epoch manifest digest is invalid"
  let contentManifest ← optionalStr (Json.get value (lit "content_manifest_sha256"))
    "publication epoch content manifest digest is invalid"
  let contentName ← contentNameOf (Json.get value (lit "content_manifest_name"))
    "publication epoch content manifest name is invalid"
  let manifest ← optionalSha256 manifest
  let heads ← parseOwnerHeads (Json.get value (lit "owner_heads")) "publication epoch owner heads"
  let contentManifest ← optionalSha256 contentManifest
  pure {
    epoch := epoch
    eventId := eventId
    operation := operation
    owners := owners
    manifestSha256 := manifest
    source := source
    ownerHeads := heads
    contentManifestSha256 := contentManifest
    contentManifestName := contentName }

/-- The status named by a member. -/
def statusOf (value : Json) : Checked PublicationStatus :=
  if value.asStr? = some (lit "complete") then pure .complete
  else if value.asStr? = some (lit "partial") then pure .partial_
  else if value.asStr? = some (lit "failed") then pure .failed
  else .error (.publication "publication journal status is invalid")

/-- `_parse_publication`. -/
def parsePublication (value : List (Text × Json)) : Checked StatePublication := do
  raiseIf ((Json.get value (lit "schema")).asStr? ≠ some statePublicationSchema)
    (.publication "publication journal schema is incompatible")
  let eventId ← requiredText (Json.get value (lit "event_id")) "event_id" 256
  let operation ← requiredText (Json.get value (lit "operation")) "operation" 512
  let idempotencyKey ←
    requiredText (Json.get value (lit "idempotency_key")) "idempotency_key" 256
  let epoch ← natOr 0 (Json.get value (lit "epoch")) "publication journal epoch is invalid"
  let created ←
    natOr 1 (Json.get value (lit "created_ns")) "publication journal timestamp is invalid"
  let rawOwners ← strItems (Json.get value (lit "owners")) "publication journal owners are invalid"
  let status ← statusOf (Json.get value (lit "status"))
  let manifest ← optionalStr (Json.get value (lit "manifest_sha256"))
    "publication journal manifest digest is invalid"
  let detail ← optionalRequiredText (Json.get value (lit "detail")) "detail" 4096
  let contentManifest ← optionalStr (Json.get value (lit "content_manifest_sha256"))
    "publication journal content manifest digest is invalid"
  let contentName ← contentNameOf (Json.get value (lit "content_manifest_name"))
    "publication journal content manifest name is invalid"
  let owners ← Publication.owners rawOwners
  let manifest ← optionalSha256 manifest
  let heads ←
    parseOwnerHeads (Json.get value (lit "owner_heads")) "publication journal owner heads"
  let contentManifest ← optionalSha256 contentManifest
  pure {
    eventId := eventId
    epoch := epoch
    operation := operation
    owners := owners
    status := status
    createdNs := created
    idempotencyKey := idempotencyKey
    manifestSha256 := manifest
    detail := detail
    ownerHeads := heads
    contentManifestSha256 := contentManifest
    contentManifestName := contentName }

end Publication
end Neocortex
