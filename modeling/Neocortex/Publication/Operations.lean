import Neocortex.Library.Durable
import Neocortex.Publication.Directory

/-!
# The writers of the state directory

Every writer of `persistence/state_publication.py` as a program with durable writes.
All of them hold the publication lock from their first read to their last write, so a
call is one program; a crash cuts it behind one of its writes.

A write is one of the module's atomic steps: the content manifest, the convenience
pointer to it, the append to the journal or its replacement, and the epoch pointer.

The clock and the verification callbacks of the caller are arguments: `TimeNs` is a
reading of `time.time_ns` after 1970, and a callback is the list it returns or the error
it raises.
-/

namespace Neocortex
namespace Publication

open Python Durable
open Checks (raiseIf)

abbrev Operation := Program StateDirectory PublicationError

/-- A reading of `time.time_ns()`: a positive 64-bit integer. -/
def TimeNs : Type := {n : ℕ // 0 < n ∧ n < 2 ^ 63}

/-! ## Files -/

/-- `_canonical_json_bytes`, and what `_atomic_write_json` writes. -/
def canonicalJsonBytes (value : Json) : Checked Bytes :=
  match dumps value with
  | some text => pure (encodeUtf8 (text ++ ['\n']))
  | none => .error (.value "Exceeds the limit for integer string conversion")

/-- The directory with another content manifest. -/
def StateDirectory.setContentManifest (d : StateDirectory) (name : Text) (raw : Bytes) :
    StateDirectory :=
  { d with contentManifests := fun n => if n = name then some raw else d.contentManifests n }

/-- The convenience pointer to the manifest of `p`. -/
def contentPointerPayload (p : StatePublication) (name digest : Text) : Json :=
  .obj [(lit "schema", .str stateContentPublicationManifestSchema),
    (lit "status", .str (lit "pointer")),
    (lit "epoch", .int p.epoch),
    (lit "event_id", .str p.eventId),
    (lit "manifest_name", .str name),
    (lit "manifest_sha256", .str digest)]

/-- The write of the convenience pointer. -/
def writeContentPointer (p : StatePublication) (name digest : Text) : Operation Unit := do
  let pointer ← canonicalJsonBytes (contentPointerPayload p name digest)
  let d ← Program.read
  Program.write { d with contentPointer := some pointer }

/-- `_write_content_manifest`. -/
def writeContentManifest (H : Sha256) (p : StatePublication) : Operation (Text × Text) := do
  raiseIf (p.ownerHeads = []) (PublicationError.publication "content publication requires owner heads")
  let name := contentManifestEventName H p.eventId
  let destination ← contentManifestPath name
  let encoded ← canonicalJsonBytes (contentManifestPayload p)
  let digest := H.hexdigest encoded
  let d ← Program.read
  match d.contentManifests destination with
  | some raw =>
    raiseIf (raw.length ≠ encoded.length ∨ H.hexdigest raw ≠ digest)
      (PublicationError.conflict
        "content publication manifest event already exists with different bytes")
  | none => Program.write (d.setContentManifest destination encoded)
  writeContentPointer p name digest
  pure (name, digest)

/-- `_append_journal`. -/
def appendJournal (p : StatePublication) : Operation Unit := do
  let encoded ← canonicalJsonBytes p.asPayload
  raiseIf (maxPublicationRecordBytes < encoded.length)
    (PublicationError.publication "publication record exceeds its bound")
  let d ← Program.read
  let current := d.journal.getD []
  raiseIf (maxPublicationJournalBytes < current.length + encoded.length)
    (PublicationError.publication "publication journal would exceed its bound")
  Program.write { d with journal := some (current ++ encoded) }

/-- The epoch pointer of a complete event. -/
def writeEpochPointer (p : StatePublication) : Operation Unit := do
  let encoded ← canonicalJsonBytes p.pointerPayload
  let d ← Program.read
  Program.write { d with epochPointer := some encoded }

/-! ## Keys -/

/-- `_idempotency_digest`. -/
def idempotencyDigest (H : Sha256) (operation : Text) (owners : List Text) (key : Text) : Text :=
  H.hexdigest (encodeUtf8 (render (.arr [.str operation, textList owners, .str key])))

/-- `publication_idempotency_key`. -/
def publicationIdempotencyKey (H : Sha256) (parts : List Json) : Checked Text :=
  match dumps (.arr parts) with
  | none => .error (.value "Exceeds the limit for integer string conversion")
  | some serialized => do
    raiseIf (32768 < utf8Len serialized)
      (.value "publication idempotency input exceeds its bound")
    pure (H.hexdigest (encodeUtf8 serialized))

/-- `f"epoch:{epoch}:{kind}:{created_ns}"`. -/
def eventIdOf (epoch : ℕ) (kind : String) (createdNs : ℕ) : Text :=
  lit "epoch:" ++ decimal epoch ++ lit ":" ++ lit kind ++ lit ":" ++ decimal createdNs

/-! ## `record_state_publication` -/

/-- The arguments of `record_state_publication`. -/
structure RecordRequest where
  operation : Text
  owners : List Text
  status : PublicationStatus
  idempotencyKey : Text
  expectedEpoch : Option ℤ
  manifestSha256 : Option Text
  detail : Option Text
  ownerHeads : Option (List StateOwnerHead)
  /-- What `verify_owner_heads()` returns or raises, when there is a callback. -/
  verifyOwnerHeads : Option (Checked (List StateOwnerHead))
  expectedPendingEventId : Option Text

/-- The arguments after their checks: the key is digested, the heads are canonical. -/
structure CheckedRequest where
  operation : Text
  owners : List Text
  status : PublicationStatus
  digest : Text
  expectedEpoch : Option ℤ
  manifestSha256 : Option Text
  detail : Option Text
  ownerHeads : List StateOwnerHead
  verifyOwnerHeads : Option (Checked (List StateOwnerHead))
  expectedPendingEventId : Option Text

/-- `{item.owner for item in heads} == set(owners)`. -/
def CoversOwners (heads : List StateOwnerHead) (owners : List Text) : Prop :=
  (∀ h ∈ heads, h.owner ∈ owners) ∧ ∀ o ∈ owners, o ∈ heads.map StateOwnerHead.owner

instance (heads : List StateOwnerHead) (owners : List Text) :
    Decidable (CoversOwners heads owners) := inferInstanceAs (Decidable (_ ∧ _))

/-- `None`, or text that passes `_required_text`, of an optional argument. -/
def optionalText (value : Option Text) (label : String) (maximum : ℕ) : Checked (Option Text) :=
  match value with
  | none => pure none
  | some t => do
    let t ← requiredText (.str t) label maximum
    pure (some t)

/-- The checks of `record_state_publication` before the lock. -/
def checkRequest (H : Sha256) (r : RecordRequest) : Checked CheckedRequest := do
  let operation ← requiredText (.str r.operation) "operation" 512
  let owners ← Publication.owners r.owners
  let key ← requiredText (.str r.idempotencyKey) "idempotency_key" 256
  let manifest ← optionalSha256 r.manifestSha256
  let heads ← canonicalOwnerHeads (r.ownerHeads.getD [])
  let pendingEvent ← optionalText r.expectedPendingEventId "pending event" 512
  raiseIf (r.expectedPendingEventId.isSome ∧ r.status ≠ .complete)
    (.value "a pending-event commit guard requires complete status")
  raiseIf (r.verifyOwnerHeads.isSome ∧ r.status ≠ .complete)
    (.value "owner revalidation belongs to a complete publication")
  raiseIf (heads ≠ [] ∧ ¬ CoversOwners heads owners)
    (.value "owner heads must cover exactly the publication owners")
  raiseIf (∃ n ∈ r.expectedEpoch, n < 0) (.value "expected_epoch must be a non-negative integer")
  let detail ← optionalText r.detail "detail" 4096
  pure {
    operation := operation
    owners := owners
    status := r.status
    digest := idempotencyDigest H operation owners key
    expectedEpoch := r.expectedEpoch
    manifestSha256 := manifest
    detail := detail
    ownerHeads := heads
    verifyOwnerHeads := r.verifyOwnerHeads
    expectedPendingEventId := pendingEvent }

/-- What the locked part decides before it writes. -/
inductive Admission where
  /-- The key is settled: its record is returned again. -/
  | replay (prior : StatePublication)
  /-- A new record is due; the argument is the current epoch. -/
  | publish (epoch : ℕ)

/-- The guards of a record against the last record of its key. -/
def checkPrior (q : CheckedRequest) (prior : StatePublication) : Checked Unit := do
  raiseIf (prior.manifestSha256 ≠ q.manifestSha256)
    (.conflict "idempotency key is already bound to a different manifest")
  if prior.status = .partial_ then
    raiseIf (q.status = .failed) (.conflict "a prepared publication requires a verified abort")
    raiseIf (q.status = .partial_ ∧ prior.ownerHeads ≠ q.ownerHeads)
      (.conflict "prepared owner heads cannot be replaced on retry")
    raiseIf (q.status = .complete ∧ prior.ownerHeads ≠ [] ∧ q.ownerHeads = [])
      (.conflict "prepared owner heads require final owner heads")
  raiseIf (prior.status = .complete ∧ prior.ownerHeads ≠ q.ownerHeads)
    (.conflict "idempotency key is already bound to different owner heads")

/-- The decision about a record whose key has the last record `prior`. -/
def admitPrior (q : CheckedRequest) (epoch : ℕ) (prior : Option StatePublication) :
    Checked Admission :=
  match prior with
  | none => pure (.publish epoch)
  | some p => do
    checkPrior q p
    if p.status = .complete ∨ (p.status = q.status ∧ p.ownerHeads = q.ownerHeads) then
      pure (.replay p)
    else pure (.publish epoch)

/-- The check of an epoch that the caller expects. -/
def checkExpectedEpoch (expected : Option ℤ) (observed : ℕ) : Checked Unit :=
  match expected with
  | none => pure ()
  | some n =>
    raiseIf ((observed : ℤ) ≠ n)
      (.conflict s!"publication epoch changed: expected {n}, observed {observed}")

/-- The guard of a commit for a prepared event. -/
def checkPendingEvent (expected : Option Text) (active : Option StatePublication) :
    Checked Unit :=
  match expected with
  | none => pure ()
  | some eventId =>
    raiseIf (¬ ∃ p ∈ active, p.status = .partial_ ∧ p.eventId = eventId)
      (.conflict "prepared event changed before publication commit")

/-- The callback, compared with the heads of the caller. -/
def checkVerified (verify : Option (Checked (List StateOwnerHead))) (heads : List StateOwnerHead)
    (message : String) : Checked Unit :=
  match verify with
  | none => pure ()
  | some observation => do
    let values ← observation
    let observed ← canonicalOwnerHeads values
    raiseIf (observed ≠ heads) (.conflict message)

/-- The locked part of `record_state_publication`, up to its first write. -/
def admitRecord (H : Sha256) (d : StateDirectory) (q : CheckedRequest) : Checked Admission := do
  let (current, journal) ← readPublicationObservation d
  checkExpectedEpoch q.expectedEpoch current.epoch
  checkPendingEvent q.expectedPendingEventId (latestFor journal q.digest)
  raiseIf (∃ item ∈ latestByKey journal, item.status = .partial_ ∧ item.idempotencyKey ≠ q.digest)
    (.conflict "another publication is pending recovery")
  checkVerified q.verifyOwnerHeads q.ownerHeads "owner heads changed before publication commit"
  match (completeRecords journal).getLast? with
  | none => pure ()
  | some latest => readContentManifestForPublication H d latest
  admitPrior q current.epoch (latestFor journal q.digest)

/-- The new record, before it has a content manifest. -/
def CheckedRequest.draft (q : CheckedRequest) (current createdNs : ℕ) : StatePublication :=
  let epoch := current + if q.status = .complete then 1 else 0
  { eventId := eventIdOf epoch "event" createdNs
    epoch := epoch
    operation := q.operation
    owners := q.owners
    status := q.status
    createdNs := createdNs
    idempotencyKey := q.digest
    manifestSha256 := q.manifestSha256
    detail := q.detail
    ownerHeads := q.ownerHeads
    contentManifestSha256 := none
    contentManifestName := none }

/-- The record with the manifest that was written for it. -/
def StatePublication.withManifest (p : StatePublication) (manifest : Text × Text) :
    StatePublication :=
  { p with contentManifestName := some manifest.1, contentManifestSha256 := some manifest.2 }

/-- The record that is appended: a complete one with heads gets its content manifest. -/
def attachManifest (H : Sha256) (p : StatePublication) : Operation StatePublication :=
  if p.status = .complete ∧ p.ownerHeads ≠ [] then do
    let manifest ← writeContentManifest H p
    pure (p.withManifest manifest)
  else pure p

/-- The writes of `record_state_publication`. -/
def publish (H : Sha256) (draft : StatePublication) : Operation StatePublication := do
  let p ← attachManifest H draft
  appendJournal p
  if p.status = .complete then
    writeEpochPointer p
  pure p

/-- `record_state_publication`. -/
def recordStatePublication (H : Sha256) (r : RecordRequest) (now : TimeNs) :
    Operation StatePublication := do
  let q ← checkRequest H r
  let d ← Program.read
  let admission ← admitRecord H d q
  match admission with
  | .replay prior => pure prior
  | .publish current => publish H (q.draft current now.1)

/-! ## Transactions -/

/-- `StatePublicationTransaction`. -/
structure StatePublicationTransaction where
  prepared : StatePublication
  operation : Text
  owners : List Text
  idempotencyKey : Text
  expectedEpoch : ℤ
  manifestSha256 : Option Text

/-- The arguments of `begin_state_publication`. -/
structure BeginRequest where
  operation : Text
  owners : List Text
  idempotencyKey : Text
  expectedEpoch : Option ℤ
  ownerHeads : Option (List StateOwnerHead)
  manifestSha256 : Option Text
  detail : Option Text

/-- The prepare that `begin_state_publication` records; an empty detail counts as none. -/
def BeginRequest.toRecord (r : BeginRequest) (owners : List Text) : RecordRequest where
  operation := r.operation
  owners := owners
  status := .partial_
  idempotencyKey := r.idempotencyKey
  expectedEpoch := r.expectedEpoch
  manifestSha256 := r.manifestSha256
  detail :=
    match r.detail with
    | none => some (lit "cross-owner publication prepared")
    | some t => some (if t = [] then lit "cross-owner publication prepared" else t)
  ownerHeads := r.ownerHeads
  verifyOwnerHeads := none
  expectedPendingEventId := none

/-- `begin_state_publication`. -/
def beginStatePublication (H : Sha256) (r : BeginRequest) (now : TimeNs) :
    Operation StatePublicationTransaction := do
  let owners ← Publication.owners r.owners
  let prepared ← recordStatePublication H (r.toRecord owners) now
  pure {
    prepared := prepared
    operation := r.operation
    owners := owners
    idempotencyKey := r.idempotencyKey
    expectedEpoch := prepared.epoch
    manifestSha256 := r.manifestSha256 }

/-- The record that `StatePublicationTransaction.commit` asks for. -/
def StatePublicationTransaction.toRecord (t : StatePublicationTransaction)
    (ownerHeads : List StateOwnerHead) (manifestSha256 detail : Option Text)
    (verifyOwnerHeads : Option (Checked (List StateOwnerHead))) : RecordRequest where
  operation := t.operation
  owners := t.owners
  status := .complete
  idempotencyKey := t.idempotencyKey
  expectedEpoch := some t.expectedEpoch
  manifestSha256 := manifestSha256.or t.manifestSha256
  detail := detail
  ownerHeads := some ownerHeads
  verifyOwnerHeads := verifyOwnerHeads
  expectedPendingEventId := if t.prepared.status = .partial_ then some t.prepared.eventId else none

/-- `StatePublicationTransaction.commit`. -/
def StatePublicationTransaction.commit (H : Sha256) (t : StatePublicationTransaction)
    (ownerHeads : List StateOwnerHead) (manifestSha256 detail : Option Text)
    (verifyOwnerHeads : Option (Checked (List StateOwnerHead))) (now : TimeNs) :
    Operation StatePublication :=
  recordStatePublication H (t.toRecord ownerHeads manifestSha256 detail verifyOwnerHeads) now

/-! ## Aborts -/

/-- The last record that satisfies a condition. -/
def lastWhere (journal : List StatePublication) (c : StatePublication → Bool) :
    Option StatePublication := journal.reverse.find? c

/-- A failed record that resolves `pending`. -/
def recoveryRecord (pending : StatePublication) (eventId : Text) (epoch createdNs : ℕ)
    (detail : Text) (heads : List StateOwnerHead) : StatePublication where
  eventId := eventId
  epoch := epoch
  operation := pending.operation
  owners := pending.owners
  status := .failed
  createdNs := createdNs
  idempotencyKey := pending.idempotencyKey
  manifestSha256 := pending.manifestSha256
  detail := some detail
  ownerHeads := heads
  contentManifestSha256 := none
  contentManifestName := none

/-- `latest_for_key.event_id == pending.event_id` for the last record of the key. -/
def checkUnresolved (journal : List StatePublication) (pending : StatePublication) :
    Checked Unit :=
  raiseIf (¬ ∃ latest ∈ latestFor journal pending.idempotencyKey,
      latest.eventId = pending.eventId)
    (.conflict "publication prepare event was already resolved")

/-- The prepare that `abort_state_publication` resolves, and the current epoch. -/
def abortTarget (d : StateDirectory) (eventId : Text) (observed : List StateOwnerHead)
    (expectedEpoch : Option ℤ) : Checked (StatePublication × ℕ) := do
  let current ← readStateEpoch d
  checkExpectedEpoch expectedEpoch current.epoch
  let journal ← readJournal d
  match lastWhere journal fun item => item.eventId = eventId ∧ item.status = .partial_ with
  | none => .error (.conflict "publication prepare event is not pending")
  | some pending => do
    checkUnresolved journal pending
    raiseIf (pending.ownerHeads = [])
      (.publication "publication recovery requires baseline owner heads")
    raiseIf (observed ≠ pending.ownerHeads)
      (.conflict "owner heads do not prove rollback to the prepared baseline")
    pure (pending, current.epoch)

/-- `abort_state_publication`. -/
def abortStatePublication (eventId : Text) (observedOwnerHeads : List StateOwnerHead)
    (expectedEpoch : Option ℤ) (detail : Text) (now : TimeNs) : Operation StatePublication := do
  let eventId ← requiredText (.str eventId) "event_id" 256
  let observed ← canonicalOwnerHeads observedOwnerHeads
  let detail ← requiredText (.str detail) "detail" 4096
  let d ← Program.read
  let (pending, epoch) ← abortTarget d eventId observed expectedEpoch
  let failed := recoveryRecord pending (eventIdOf epoch "recovery" now.1) epoch now.1 detail
    pending.ownerHeads
  appendJournal failed
  pure failed

/-- The prepare that `abort_unbound_state_publication` invalidates, and the current epoch. -/
def abortUnboundTarget (d : StateDirectory) (eventId : Text) (expectedEpoch : Option ℤ) :
    Checked (StatePublication × ℕ) := do
  let current ← readStateEpoch d
  checkExpectedEpoch expectedEpoch current.epoch
  raiseIf (current.epoch ≠ 0)
    (.conflict "unbound publication recovery requires the initial publication epoch")
  let journal ← readJournal d
  match lastWhere journal fun item => item.eventId = eventId with
  | none => .error (.conflict "publication prepare event is not pending")
  | some pending => do
    raiseIf (pending.status ≠ .partial_) (.conflict "publication prepare event is not pending")
    raiseIf (pending.ownerHeads ≠ [])
      (.conflict "publication prepare has an owner baseline; use verified abort")
    raiseIf (∃ item ∈ journal, item.status = .complete)
      (.conflict "unbound publication recovery cannot follow a complete publication")
    checkUnresolved journal pending
    pure (pending, current.epoch)

/-- `abort_unbound_state_publication`; it reads the clock twice. -/
def abortUnboundStatePublication (eventId : Text) (expectedEpoch : Option ℤ) (detail : Text)
    (now later : TimeNs) : Operation StatePublication := do
  let eventId ← requiredText (.str eventId) "event_id" 256
  let detail ← requiredText (.str detail) "detail" 4096
  let d ← Program.read
  let (pending, epoch) ← abortUnboundTarget d eventId expectedEpoch
  let failed := recoveryRecord pending (eventIdOf epoch "recovery" now.1) epoch later.1 detail []
  appendJournal failed
  pure failed

/-- The prepare that `reconcile_unbound_state_publication` resolves. -/
def reconcileTarget (H : Sha256) (d : StateDirectory) (eventId : Text) (expectedEpoch : ℤ)
    (expectedPublicationEventId : Text) (verifyOwnerHeads : Checked (List StateOwnerHead)) :
    Checked StatePublication := do
  let view ← readStatePublicationState H d
  match view.publication, view.pending with
  | some publication, pendings => do
    raiseIf ((view.epoch.epoch : ℤ) ≠ expectedEpoch ∨
        publication.eventId ≠ expectedPublicationEventId)
      (.conflict "legacy publication epoch or event changed")
    -- a blocked view has not looked at the manifest
    readContentManifestForPublication H d publication
    match pendings with
    | [pending] => do
      raiseIf (pending.eventId ≠ eventId)
        (.conflict "legacy reconciliation requires one exact pending event")
      raiseIf (pending.operation ≠ lit "framework-all-semantic" ∨ pending.ownerHeads ≠ [] ∨
          (pending.epoch : ℤ) ≠ expectedEpoch ∨ pending.owners ≠ publication.owners ∨
          pending.manifestSha256 = none ∨ view.epoch.ownerHeads = [])
        (.conflict "legacy pending publication has no compatible scope")
      checkVerified (some verifyOwnerHeads) view.epoch.ownerHeads
        "fresh owner heads do not match the legacy publication"
      pure pending
    | _ => .error (.conflict "legacy reconciliation requires one exact pending event")
  | none, _ => .error (.conflict "legacy publication epoch or event changed")

/-- `reconcile_unbound_state_publication`. -/
def reconcileUnboundStatePublication (H : Sha256) (eventId : Text) (expectedEpoch : ℤ)
    (expectedPublicationEventId : Text) (verifyOwnerHeads : Checked (List StateOwnerHead))
    (now : TimeNs) : Operation StatePublication := do
  let eventId ← requiredText (.str eventId) "event_id" 256
  let publicationEventId ←
    requiredText (.str expectedPublicationEventId) "publication event_id" 256
  raiseIf (expectedEpoch < 1)
    (PublicationError.value "legacy reconciliation requires a positive expected epoch")
  let d ← Program.read
  let pending ←
    reconcileTarget H d eventId expectedEpoch publicationEventId verifyOwnerHeads
  let detail := lit "Legacy Semantic prepare reconciled against unchanged published owners; " ++
    lit "publication_event=" ++ publicationEventId ++ lit "; rollback_claimed=false"
  let epoch := expectedEpoch.toNat
  let failed :=
    recoveryRecord pending (eventIdOf epoch "recovery" now.1) epoch now.1 detail []
  appendJournal failed
  pure failed

/-! ## Resuming and restarting -/

/-- The arguments of `resume_state_publication`. -/
structure ResumeRequest where
  eventId : Text
  operation : Text
  owners : List Text
  idempotencyKey : Text
  manifestSha256 : Text
  expectedEpoch : ℤ

/-- `resume_state_publication`. -/
def resumeStatePublication (H : Sha256) (r : ResumeRequest) :
    Operation StatePublicationTransaction := do
  let owners ← Publication.owners r.owners
  let operation ← requiredText (.str r.operation) "operation" 512
  let eventId ← requiredText (.str r.eventId) "event_id" 256
  let manifest ← requiredSha256 (.str r.manifestSha256) "manifest digest"
  let key ← requiredText (.str r.idempotencyKey) "idempotency_key" 256
  raiseIf (r.expectedEpoch < 0) (PublicationError.value "expected_epoch must be a non-negative integer")
  let digest := idempotencyDigest H operation owners key
  let d ← Program.read
  let view ← readStatePublicationState H d
  raiseIf ((view.epoch.epoch : ℤ) ≠ r.expectedEpoch)
    (PublicationError.conflict "publication epoch changed before resume")
  match view.pending with
  | [prepared] => do
    raiseIf (prepared.eventId ≠ eventId)
      (PublicationError.conflict "publication resume requires one exact pending event")
    raiseIf (prepared.operation ≠ operation ∨ prepared.owners ≠ owners ∨
        prepared.idempotencyKey ≠ digest ∨ prepared.manifestSha256 ≠ some manifest ∨
        (prepared.epoch : ℤ) ≠ r.expectedEpoch)
      (PublicationError.conflict "publication resume input contract changed")
    match view.publication with
    | none => pure ()
    | some publication => liftM (readContentManifestForPublication H d publication)
    pure {
      prepared := prepared
      operation := operation
      owners := owners
      idempotencyKey := key
      expectedEpoch := r.expectedEpoch
      manifestSha256 := some manifest }
  | _ =>
    liftM (Except.error (.conflict "publication resume requires one exact pending event") :
      Checked StatePublicationTransaction)

/-- What `restart_state_publication_checkpoint` decides before it writes. -/
inductive RestartDecision where
  /-- The checkpoint is already the current publication. -/
  | replay (p : StatePublication)
  /-- The prepare to abandon, and the epoch that was observed. -/
  | checkpoint (pending : StatePublication) (observed : StateEpoch)

/-- The guards of a restart on the pending prepare and the previous publication. -/
def checkRestart (H : Sha256) (d : StateDirectory) (view : StatePublicationView)
    (pending : StatePublication) (expectedEpoch : ℕ) (owners : List Text) : Checked Unit := do
  raiseIf (pending.ownerHeads ≠ [] ∧ ¬ CoversOwners pending.ownerHeads pending.owners)
    (.conflict "restart pending baseline does not cover its owners exactly")
  match view.publication with
  | some publication => do
    readContentManifestForPublication H d publication
    raiseIf (view.epoch.eventId ≠ some publication.eventId ∨
        view.epoch.ownerHeads ≠ publication.ownerHeads ∨
        view.epoch.manifestSha256 ≠ publication.manifestSha256 ∨
        view.epoch.contentManifestSha256 ≠ publication.contentManifestSha256 ∨
        view.epoch.contentManifestName ≠ publication.contentManifestName)
      (.conflict "restart publication pointer differs from its journal")
    raiseIf (¬ ∀ o ∈ pending.owners ++ publication.owners, o ∈ owners)
      (.conflict "restart cannot reduce the published owner scope")
  | none => do
    raiseIf (expectedEpoch ≠ 0)
      (.conflict "restart has no authenticated previous publication")
    raiseIf (¬ ∀ o ∈ pending.owners, o ∈ owners)
      (.conflict "restart cannot reduce the published owner scope")

/-- The locked part of `restart_state_publication_checkpoint`, up to its first write. -/
def admitRestart (H : Sha256) (d : StateDirectory) (eventId digest : Text) (expectedEpoch : ℕ)
    (heads : List StateOwnerHead) (owners : List Text)
    (verifyOwnerHeads : Checked (List StateOwnerHead)) : Checked RestartDecision := do
  let view ← readStatePublicationState H d
  let journal ← readJournal d
  match view.pending, (latestFor journal digest).filter fun item => item.status = .complete with
  | [], some replay => do
    raiseIf (view.status ≠ .complete ∨ view.publication ≠ some replay ∨
        view.epoch.epoch ≠ replay.epoch ∨ view.epoch.eventId ≠ some replay.eventId)
      (.conflict "restart replay is no longer the current complete checkpoint")
    readContentManifestForPublication H d replay
    pure (.replay replay)
  | [pending], _ => do
    raiseIf (view.epoch.epoch ≠ expectedEpoch ∨ pending.eventId ≠ eventId ∨
        pending.epoch ≠ expectedEpoch ∨ pending.operation ≠ lit "framework-all-semantic")
      (.conflict "restart requires one exact pending Semantic publication")
    checkRestart H d view pending expectedEpoch owners
    checkVerified (some verifyOwnerHeads) heads "owner heads changed before restart preparation"
    pure (.checkpoint pending view.epoch)
  | _, _ => .error (.conflict "restart requires one exact pending Semantic publication")

/-- The failed record of a restart. -/
def abandonedRecord (pending : StatePublication) (epoch createdNs : ℕ)
    (heads : List StateOwnerHead) : StatePublication :=
  recoveryRecord pending (eventIdOf epoch "abandoned" createdNs) epoch createdNs
    (lit "interrupted work abandoned for a new full execution; rollback_claimed=false")
    (heads.filter fun head => head.owner ∈ pending.owners)

/-- The checkpoint of a restart, before it has a content manifest. -/
def checkpointDraft (epoch createdNs : ℕ) (digest : Text) (owners : List Text)
    (heads : List StateOwnerHead) : StatePublication where
  eventId := eventIdOf (epoch + 1) "restart" createdNs
  epoch := epoch + 1
  operation := lit "framework-all-restart-checkpoint"
  owners := owners
  status := .complete
  createdNs := createdNs + 1
  idempotencyKey := digest
  manifestSha256 := none
  detail := some (lit "checkpoint of currently published heads only; " ++
    lit "interrupted_work_completed=false; rollback_claimed=false")
  ownerHeads := heads
  contentManifestSha256 := none
  contentManifestName := none

/-- The journal of a restart: the old bytes, ended by a newline, and both records. -/
def restartJournal (current failed checkpoint : Bytes) : Bytes :=
  let separator := if current = [] ∨ current.getLast? = some 10 then [] else [10]
  current ++ separator ++ (failed ++ checkpoint)

/-- The writes of `restart_state_publication_checkpoint`. -/
def writeRestart (H : Sha256) (failed draft : StatePublication) (observed : StateEpoch)
    (heads : List StateOwnerHead) (verifyOwnerHeads : Checked (List StateOwnerHead)) :
    Operation StatePublication := do
  let manifest ← writeContentManifest H draft
  let checkpoint := draft.withManifest manifest
  let failedBytes ← canonicalJsonBytes failed.asPayload
  let checkpointBytes ← canonicalJsonBytes checkpoint.asPayload
  raiseIf (maxPublicationRecordBytes < failedBytes.length ∨
      maxPublicationRecordBytes < checkpointBytes.length)
    (PublicationError.publication "restart publication record exceeds its bound")
  let d ← Program.read
  let encoded := restartJournal (d.journal.getD []) failedBytes checkpointBytes
  raiseIf (maxPublicationJournalBytes < encoded.length)
    (PublicationError.publication "restart journal would exceed its bound")
  checkVerified (some verifyOwnerHeads) heads "owner heads changed before restart checkpoint"
  let again ← readStateEpoch d
  raiseIf (again ≠ observed) (PublicationError.conflict "restart epoch changed before checkpoint")
  Program.write { d with journal := some encoded }
  writeEpochPointer checkpoint
  pure checkpoint

/-- `restart_state_publication_checkpoint`; the callback is called twice. -/
def restartStatePublicationCheckpoint (H : Sha256) (eventId : Text) (expectedEpoch : ℤ)
    (ownerHeads : List StateOwnerHead) (verifyOwnerHeads verifyAgain : Checked (List StateOwnerHead))
    (now : TimeNs) : Operation StatePublication := do
  let eventId ← requiredText (.str eventId) "event_id" 256
  raiseIf (expectedEpoch < 0) (PublicationError.value "expected_epoch must be a non-negative integer")
  let heads ← canonicalOwnerHeads ownerHeads
  let owners ← Publication.owners (heads.map StateOwnerHead.owner)
  raiseIf (owners ≠ [lit "semantic"])
    (PublicationError.value "restart checkpoint requires the Semantic owner only")
  let key ← publicationIdempotencyKey H [.str eventId, .int expectedEpoch, headList heads]
  let digest := idempotencyDigest H (lit "framework-all-restart-checkpoint") owners key
  let epoch := expectedEpoch.toNat
  let d ← Program.read
  let decision ← admitRestart H d eventId digest epoch heads owners verifyOwnerHeads
  match decision with
  | .replay p => pure p
  | .checkpoint pending observed =>
    writeRestart H (abandonedRecord pending epoch now.1 heads)
      (checkpointDraft epoch now.1 digest owners heads) observed heads verifyAgain

/-! ## Calls -/

/-- One call of the module's interface, with its arguments and clock readings.  A handle may be
of any age: `commit` takes every transaction value. -/
inductive Call where
  | record (r : RecordRequest) (now : TimeNs)
  | begin (r : BeginRequest) (now : TimeNs)
  | commit (t : StatePublicationTransaction) (ownerHeads : List StateOwnerHead)
      (manifestSha256 detail : Option Text)
      (verifyOwnerHeads : Option (Checked (List StateOwnerHead))) (now : TimeNs)
  | abort (eventId : Text) (observedOwnerHeads : List StateOwnerHead) (expectedEpoch : Option ℤ)
      (detail : Text) (now : TimeNs)
  | abortUnbound (eventId : Text) (expectedEpoch : Option ℤ) (detail : Text) (now later : TimeNs)
  | reconcileUnbound (eventId : Text) (expectedEpoch : ℤ) (expectedPublicationEventId : Text)
      (verifyOwnerHeads : Checked (List StateOwnerHead)) (now : TimeNs)
  | resume (r : ResumeRequest)
  | restart (eventId : Text) (expectedEpoch : ℤ) (ownerHeads : List StateOwnerHead)
      (verifyOwnerHeads verifyAgain : Checked (List StateOwnerHead)) (now : TimeNs)

/-- The program of a call, its return value dropped. -/
def Call.program (H : Sha256) : Call → Operation Unit
  | .record r now => do
    let _ ← recordStatePublication H r now
    pure ()
  | .begin r now => do
    let _ ← beginStatePublication H r now
    pure ()
  | .commit t ownerHeads manifestSha256 detail verifyOwnerHeads now => do
    let _ ← t.commit H ownerHeads manifestSha256 detail verifyOwnerHeads now
    pure ()
  | .abort eventId observedOwnerHeads expectedEpoch detail now => do
    let _ ← abortStatePublication eventId observedOwnerHeads expectedEpoch detail now
    pure ()
  | .abortUnbound eventId expectedEpoch detail now later => do
    let _ ← abortUnboundStatePublication eventId expectedEpoch detail now later
    pure ()
  | .reconcileUnbound eventId expectedEpoch expectedPublicationEventId verifyOwnerHeads now => do
    let _ ← reconcileUnboundStatePublication H eventId expectedEpoch expectedPublicationEventId
      verifyOwnerHeads now
    pure ()
  | .resume r => do
    let _ ← resumeStatePublication H r
    pure ()
  | .restart eventId expectedEpoch ownerHeads verifyOwnerHeads verifyAgain now => do
    let _ ← restartStatePublicationCheckpoint H eventId expectedEpoch ownerHeads
      verifyOwnerHeads verifyAgain now
    pure ()

/-- What calls and crashes in any order can make of an empty directory. -/
def Reachable (H : Sha256) (d : StateDirectory) : Prop :=
  Steps (Call.program H) StateDirectory.empty d

end Publication
end Neocortex
