import Neocortex.Publication.Records

/-!
# The state directory and its readers

A state directory holds the publication journal, the epoch pointer, the immutable
content manifests by name and the convenience pointer to the last of them.  Each is a
regular file or absent.

The readers are those of `persistence/state_publication.py`.  They run under the
publication lock or on an unchanging directory, so the file fences of
`_read_publication_observation` always agree and are left out.
-/

namespace Neocortex
namespace Publication

open Python
open Checks (raiseIf)

/-- The files of a state directory. -/
structure StateDirectory where
  /-- `state-publication-journal.jsonl`. -/
  journal : Option Bytes
  /-- `state-epoch.json`. -/
  epochPointer : Option Bytes
  /-- `content-publication-manifest.json`. -/
  contentPointer : Option Bytes
  /-- `content-publication-manifest.<digest>.json`, by file name. -/
  contentManifests : Text → Option Bytes

/-- A directory without any publication file. -/
def StateDirectory.empty : StateDirectory := ⟨none, none, none, fun _ => none⟩

/-! ## Reading files -/

/-- `_read_json_file`: the members of the object in the file, or `none` when it is missing. -/
def readJsonFile (file : Option Bytes) (name : String) :
    Checked (Option (List (Text × Json))) :=
  match file with
  | none => pure none
  | some raw =>
    if maxPublicationRecordBytes < raw.length then
      .error (.publication s!"publication metadata is too large: {name}")
    else
      match (readText raw).bind loads with
      | none => .error (.publication s!"publication metadata is malformed: {name}")
      | some (.obj members) => pure (some members)
      | some _ => .error (.publication s!"publication metadata is not an object: {name}")

/-- One non-blank line of the journal. -/
def readJournalLine (line : Text) : Checked StatePublication :=
  if maxPublicationRecordBytes < utf8Len line then
    .error (.publication "publication journal record exceeds its bound")
  else
    match loads line with
    | none => .error (.publication "publication journal contains malformed JSON")
    | some (.obj members) => parsePublication members
    | some _ => .error (.publication "publication journal record is not an object")

/-- The loop of `_read_journal` over the lines. -/
def readJournalLines : List Text → Checked (List StatePublication)
  | [] => pure []
  | line :: lines =>
    if strip line = [] then readJournalLines lines
    else do
      let p ← readJournalLine line
      let ps ← readJournalLines lines
      pure (p :: ps)

/-- `_read_journal` on the contents of the journal file. -/
def readJournalFile (file : Option Bytes) : Checked (List StatePublication) :=
  match file with
  | none => pure []
  | some raw =>
    if maxPublicationJournalBytes < raw.length then
      .error (.publication "publication journal exceeds its bound")
    else
      match readText raw with
      | none => .error (.publication "publication journal cannot be read")
      | some text => readJournalLines (splitlines text)

/-- `_read_journal`. -/
def readJournal (d : StateDirectory) : Checked (List StatePublication) :=
  readJournalFile d.journal

/-! ## The epoch -/

/-- The records of a status, in journal order. -/
def completeRecords (journal : List StatePublication) : List StatePublication :=
  journal.filter fun item => item.status = .complete

/-- The order of `max(..., key=lambda item: (item.epoch, item.created_ns))`. -/
def epochKeyLt (a b : StatePublication) : Prop :=
  a.epoch < b.epoch ∨ (a.epoch = b.epoch ∧ a.createdNs < b.createdNs)

instance (a b : StatePublication) : Decidable (epochKeyLt a b) :=
  inferInstanceAs (Decidable (_ ∨ (_ ∧ _)))

/-- `max(items, key=..., default=None)`: the first of the largest items. -/
def maxByEpoch (items : List StatePublication) : Option StatePublication :=
  items.foldl (fun best item =>
    match best with
    | none => some item
    | some b => if epochKeyLt b item then some item else some b) none

/-- `_state_epoch_from_observation`. -/
def stateEpochFromObservation (pointerEpoch : Option StateEpoch)
    (journal : List StatePublication) : Checked StateEpoch :=
  let journalEpoch := (maxByEpoch (completeRecords journal)).map fun p => p.toEpoch .journal
  match pointerEpoch, journalEpoch with
  | none, none => pure ⟨0, none, none, [], none, .absent, [], none, none⟩
  | none, some j => pure j
  | some p, none =>
    if p.epoch ≠ 0 ∨ p.eventId ≠ none then
      .error (.publication "publication epoch pointer has no matching journal event")
    else pure p
  | some p, some j =>
    if j.epoch < p.epoch then
      .error (.publication "publication epoch pointer is ahead of the complete journal")
    else if p.epoch = j.epoch then
      if { p with source := .journal } ≠ j then
        .error (.publication "publication epoch pointer disagrees with the complete journal")
      else pure p
    else pure j

/-- The epoch in the pointer file. -/
def readEpochPointer (d : StateDirectory) : Checked (Option StateEpoch) := do
  let pointer ← readJsonFile d.epochPointer "state-epoch.json"
  match pointer with
  | none => pure none
  | some members => do
    let e ← parseEpoch members .pointer
    pure (some e)

/-- `_read_publication_observation`. -/
def readPublicationObservation (d : StateDirectory) :
    Checked (StateEpoch × List StatePublication) := do
  let pointerEpoch ← readEpochPointer d
  let journal ← readJournal d
  let epoch ← stateEpochFromObservation pointerEpoch journal
  pure (epoch, journal)

/-- `read_state_epoch`. -/
def readStateEpoch (d : StateDirectory) : Checked StateEpoch := do
  let observation ← readPublicationObservation d
  pure observation.1

/-! ## Content manifests -/

/-- `_content_manifest_event_name`. -/
def contentManifestEventName (H : Sha256) (eventId : Text) : Text :=
  stateContentPublicationManifestPrefix ++ H.hexdigest (encodeUtf8 eventId) ++ lit ".json"

/-- Python's `value != n` for a JSON value and an `int`, negated: `True` counts as one. -/
def equalsNat (value : Json) (n : ℕ) : Bool :=
  match value with
  | .int m => m = n
  | .bool b => b.toNat = n
  | _ => false

/-- The checks of `_read_content_manifest_for_publication` on a manifest that was read. -/
def checkContentManifest (payload : List (Text × Json)) (p : StatePublication) :
    Checked Unit := do
  raiseIf ((Json.get payload (lit "schema")).asStr? ≠ some stateContentPublicationManifestSchema)
    (.publication "publication content manifest schema is incompatible")
  raiseIf ((Json.get payload (lit "status")).asStr? ≠ some (lit "complete"))
    (.publication "publication content manifest is not complete")
  raiseIf ((Json.get payload (lit "event_id")).asStr? ≠ some p.eventId ∨
      equalsNat (Json.get payload (lit "epoch")) p.epoch = false)
    (.publication "publication content manifest event is inconsistent")
  raiseIf ((Json.get payload (lit "operation")).asStr? ≠ some p.operation ∨
      strItems (Json.get payload (lit "owners")) "" ≠ .ok p.owners)
    (.publication "publication content manifest scope is inconsistent")
  raiseIf ((Json.get payload (lit "idempotency_key")).asStr? ≠ some p.idempotencyKey)
    (.publication "publication content manifest idempotency is inconsistent")
  raiseIf (optionalStr (Json.get payload (lit "source_manifest_sha256")) "" ≠
      .ok p.manifestSha256)
    (.publication "publication content manifest source is inconsistent")
  let heads ← parseOwnerHeads (Json.get payload (lit "owner_heads"))
    "content publication manifest owner heads"
  raiseIf (heads ≠ p.ownerHeads)
    (.publication "publication content manifest owner heads are inconsistent")

/-- `_read_content_manifest_for_publication`. -/
def readContentManifestForPublication (H : Sha256) (d : StateDirectory) (p : StatePublication) :
    Checked Unit :=
  if p.ownerHeads = [] then
    raiseIf (p.contentManifestName ≠ none ∨ p.contentManifestSha256 ≠ none)
      (.publication "publication content manifest metadata is incomplete")
  else
    match p.contentManifestName, p.contentManifestSha256 with
    | some name, some digest => do
      raiseIf (name ≠ contentManifestEventName H p.eventId)
        (.publication "publication content manifest event does not match journal")
      let path ← contentManifestPath name
      let payload ← readJsonFile (d.contentManifests path) "content-publication-manifest"
      match payload, d.contentManifests path with
      | some payload, some raw => do
        raiseIf (H.hexdigest raw ≠ digest)
          (.publication "publication content manifest digest mismatch")
        checkContentManifest payload p
      | _, _ => .error (.publication "complete publication content manifest is missing")
    | _, _ => .error (.publication "complete publication lacks content manifest metadata")

/-! ## The publication gate -/

/-- `latest_by_key.get(key)`: the last record of the key. -/
def latestFor (journal : List StatePublication) (key : Text) : Option StatePublication :=
  journal.reverse.find? fun item => item.idempotencyKey = key

/-- `{item.idempotency_key: item for item in journal}.values()`: one record for each key, the
keys in the order in which they first occur. -/
def latestByKey (journal : List StatePublication) : List StatePublication :=
  (journal.map StatePublication.idempotencyKey).eraseDups.filterMap (latestFor journal)

/-- The unresolved prepares, by creation time and event. -/
def pendingRecords (journal : List StatePublication) : List StatePublication :=
  ((latestByKey journal).filter fun item => item.status = .partial_).insertionSort
    fun a b => a.createdNs < b.createdNs ∨ (a.createdNs = b.createdNs ∧ a.eventId ≤ b.eventId)

/-- `PublicationViewStatus`. -/
inductive PublicationViewStatus where
  | absent
  | complete
  | blocked
  | inconsistent
  deriving DecidableEq, Repr

/-- `StatePublicationView`; the reason of an inconsistent view is the error it reports. -/
structure StatePublicationView where
  epoch : StateEpoch
  status : PublicationViewStatus
  publication : Option StatePublication
  pending : List StatePublication
  reason : Option PublicationError

/-- `read_state_publication_state`. -/
def readStatePublicationState (H : Sha256) (d : StateDirectory) :
    Checked StatePublicationView := do
  let (epoch, publications) ← readPublicationObservation d
  let pending := pendingRecords publications
  let latestComplete := maxByEpoch (completeRecords publications)
  if pending ≠ [] then
    pure ⟨epoch, .blocked, latestComplete, pending,
      some (.publication "unresolved cross-owner publication is pending recovery")⟩
  else
    match latestComplete with
    | none => pure ⟨epoch, .absent, none, [], none⟩
    | some p =>
      match readContentManifestForPublication H d p with
      | .ok () => pure ⟨epoch, .complete, some p, [], none⟩
      -- only `StatePublicationError` and its subclasses are caught
      | .error (.value m) => .error (.value m)
      | .error e => pure ⟨epoch, .inconsistent, some p, [], some e⟩

/-- `require_complete_state_epoch`. -/
def requireCompleteStateEpoch (H : Sha256) (d : StateDirectory) (expectedEpoch : Option ℤ)
    (ownerHeads : Option (List StateOwnerHead)) : Checked StateEpoch := do
  let view ← readStatePublicationState H d
  if view.status = .absent then
    raiseIf (view.epoch.epoch ≠ 0)
      (.publication "state publication epoch is absent but non-zero")
  else
    raiseIf (view.status ≠ .complete)
      (view.reason.getD (.publication "state publication is not complete"))
  match expectedEpoch with
  | none => pure ()
  | some n => do
    raiseIf (n < 0) (.value "expected_epoch must be a non-negative integer")
    raiseIf ((view.epoch.epoch : ℤ) ≠ n) (.conflict "publication epoch changed")
  match ownerHeads with
  | none => pure ()
  | some heads => do
    let observed ← canonicalOwnerHeads heads
    raiseIf (observed ≠ view.epoch.ownerHeads)
      (.conflict "observed owner heads do not match published epoch")
  pure view.epoch

end Publication
end Neocortex
