import Neocortex.Actions.Recovery
import Neocortex.Library.Durable

/-!
# Batches for the Trash

`_apply_trash_batch` of `workflow/actions/action_effects.py` with all it calls: the admission of
the candidates, the two validations, the one-by-one loop, the batch backend, and the handlers that
keep an open intent open.

What the world answers about a candidate (validations, checkpoints, the reply of the backend, the
ledger write that fails) is its `Answers`; what it answers about the batch is in `TrashCall`.  A
ledger write that fails is rolled back, unless the exception (an interrupt) comes behind its COMMIT:
then it raises and is durable (`Fault`).  Every commit, every file that the backend
removes and every path given to the inventory is one write of `World`, so a crash may stop the
call behind any of them.

The diagnostics of the redlist are left out: nothing here reads them.
-/

namespace Neocortex
namespace Actions

open Python Checks Durable

/-! ## Candidates -/

/-- `FileSnapshot`. -/
structure FileSnapshot where
  path : Text
  volumeId : ℕ
  fileId : ℕ
  size : ℕ
  mtimeNs : ℤ
  birthtimeNs : ℤ
  deriving DecidableEq, Repr

/-- The identity that `expected_identity_json` writes for a file without target. -/
def FileSnapshot.identityText? (s : FileSnapshot) (sourcePath : Text) : Option Text :=
  expectedIdentityJson
    { kind := .regular, nlink := 1, volumeId := s.volumeId, fileId := s.fileId, size := s.size
      mtimeNs := s.mtimeNs, birthtimeNs := s.birthtimeNs } sourcePath none

/-- `expected_identity_json(planned, source_path=path, target_path=None)`. -/
def FileSnapshot.identityText (s : FileSnapshot) (sourcePath : Text) : Checked Text :=
  match s.identityText? sourcePath with
  | some text => .ok text
  | none => .error ⟨.value, lit "Exceeds the limit for integer string conversion"⟩

inductive BackendStatus where
  | applied
  | blocked
  | recoveryRequired
  deriving DecidableEq, Repr

/-- `BackendOutcome`. -/
structure BackendOutcome where
  status : BackendStatus
  reason : Text
  detail : Option Text
  receiptJson : Option Text
  deriving DecidableEq, Repr

/-- `outcome.detail or outcome.reason`. -/
def BackendOutcome.text (o : BackendOutcome) : Text :=
  match o.detail with
  | some (c :: text) => c :: text
  | _ => o.reason

/-- What a call of the backend does: it returns an outcome, something else, or raises. -/
inductive Reply where
  | outcome (o : BackendOutcome)
  | unsupported
  | raises (e : Raised)

/-- An exception of a ledger write. -/
inductive Fault where
  /-- The transaction is rolled back. -/
  | rolledBack (e : Raised)
  /-- The transaction is durable. -/
  | committed (e : Raised)

def Fault.raised : Fault → Raised
  | .rolledBack e => e
  | .committed e => e

/-- The ledger writes for one candidate, and the read of a handler. -/
inductive Site where
  | preflight
  | revalidation
  | noSnapshot
  | stale
  | frontier
  | confirmation
  | recovery
  | bestEffort
  | skip
  | read
  | closing
  deriving DecidableEq

/-- What the world answers about one candidate. -/
structure Answers where
  /-- `_protected_path_reason`. -/
  protectedPathReason : Option Text
  /-- The path is not below the root of the guard's policy. -/
  outsideRoot : Bool
  /-- `mutation_path_protection_reasons`. -/
  guardReason : Option Text
  /-- `_effect_preservation_reason`. -/
  preservationReason : Option Text
  /-- `_validate_trash_candidate`, in the first pass and in the second. -/
  preflight : Checked Unit
  revalidation : Checked Unit
  /-- `_checkpoint`, in front of the candidate. -/
  checkpoint : Checked Unit
  /-- `metadata_binding` or `_full_fingerprint`. -/
  sourceDigest : Checked Text
  /-- `_files_equal_exact`. -/
  filesEqualExact : Checked Bool
  boundary : Ledger.Boundary
  /-- The backend that takes one candidate removes its file. -/
  removes : Bool
  reply : Reply
  /-- `verify_trash_receipt_evidence`, without the candidate's own arguments. -/
  verify : Json → Json → Checked Unit
  /-- The exception of a ledger write. -/
  fault : Site → Option Fault

/-- One member of a batch. -/
structure Candidate where
  path : Text
  evidence : Text
  expected : Option FileSnapshot
  reference : Option FileSnapshot
  answers : Answers

/-- A candidate with the row of its action. -/
structure Ready extends Candidate where
  actionId : ℕ

/-! ## Calls -/

/-- The ledger writes for several candidates. -/
inductive BatchSite where
  | begin
  | protectedSkip (reason : Text)
  | planned
  | unavailable
  | uninvokedSkip
  | uninvokedRecovery
  | frontier
  | confirmation
  deriving DecidableEq

/-- What a backend that takes a whole batch does. -/
inductive BatchReply where
  | outcomes (l : List (Option BackendOutcome))
  | noOutcomes
  | raises (e : Raised)

structure BatchBackend where
  /-- The files that it removes, by their place in the batch. -/
  removes : List Bool
  reply : BatchReply

/-- `self._trash_backend`. -/
structure Backend where
  supportsEmptyDirectories : Bool
  /-- `_optional_trash_batch_backend`. -/
  batch : Option BatchBackend

/-- The arguments of `_apply_trash_batch`, what it reads of `self`, and what it meets. -/
structure TrashCall where
  runId : ℤ
  apply : Bool
  maxFileBytes : Option ℕ
  backend : Option Backend
  actionType : Text
  batch : List (Text × Text)
  expectedSnapshots : Option (List (Option FileSnapshot))
  referenceSnapshots : Option (List (Option FileSnapshot))
  deferReconciliation : Bool
  answers : ℕ → Answers
  /-- `_effective_mutation_guard` and `_validate_apply_root`. -/
  opening : Checked Unit
  /-- `_reserve_snapshot_work`, if it is called. -/
  reservation : Checked Unit
  /-- The call of `mutation_path_protection_reasons`. -/
  guardReasons : Checked Unit
  beginBoundary : Ledger.Boundary
  /-- `require_paths_allowed` and `_validate_apply_root` at the frontier of the batch. -/
  frontier : Checked Unit
  /-- `_checkpoint` in front of the batch backend. -/
  checkpoint : Checked Unit
  batchBoundary : Ledger.Boundary
  /-- `apply_reconciliation`. -/
  reconciliation : Checked Unit
  fault : BatchSite → Option Fault

/-- The durable state, and the paths that the inventory has been given. -/
structure World where
  ledger : Ledger
  /-- The actions whose file the backend removed, with the snapshot that it was given. -/
  removed : List (ℕ × FileSnapshot)
  /-- The paths passed to `apply_reconciliation`. -/
  reconciled : List Text
  /-- `_deferred_reconciliation_paths`. -/
  deferred : List Text
  deriving DecidableEq

abbrev Trash := Program World Raised

def raise {α : Type} (e : Raised) : Trash α := liftM (Except.error e : Checked α)

/-- One transaction of the ledger. -/
def transact {α : Type} (fault : Option Fault) (f : Ledger → Checked (α × Ledger)) : Trash α :=
  match fault with
  | some (.rolledBack e) => raise e
  | some (.committed e) => do
    let w ← Program.read
    let (_, ledger) ← liftM (f w.ledger)
    Program.write { w with ledger := ledger }
    raise e
  | none => do
    let w ← Program.read
    let (a, ledger) ← liftM (f w.ledger)
    Program.write { w with ledger := ledger }
    pure a

/-- A transaction without result. -/
def commit (fault : Option Fault) (f : Ledger → Checked Ledger) : Trash Unit :=
  transact fault fun ledger => (f ledger).map ((), ·)

/-! ## The exceptions that the handlers tell apart -/

/-- `(CancellationRequested, RunBudgetExceeded, KeyboardInterrupt)`. -/
def Kind.stops : Kind → Bool
  | .cancelled | .budgetExceeded | .interrupt => true
  | _ => false

/-- `(OSError, RuntimeError)`. -/
def Kind.environmental : Kind → Bool
  | .os | .boundary | .runtime | .budgetExceeded => true
  | _ => false

/-- `(OSError, RuntimeError, FileChangedError, ValueError)`. -/
def Kind.isolated (k : Kind) : Bool := k.environmental || k == .fileChanged || k == .value

/-- `(OSError, RuntimeError, TypeError, ValueError, FileChangedError)`. -/
def Kind.uncertain (k : Kind) : Bool := k.isolated || k == .type

/-- `(OSError, RuntimeError, ValueError)`. -/
def Kind.unconfirmed (k : Kind) : Bool := k.environmental || k == .value

/-! ## Receipts -/

/-- The fields of a receipt that bind it to its source. -/
def sourceBound (pathKey : Text → Text) (floatIsOne : Text → Bool) (expected : FileSnapshot)
    (sourceDigest : Text) (receipt : List (Text × Json)) : Bool :=
  equalsOne floatIsOne (Json.get receipt (lit "schema_version")) &&
  isText (lit "successful_return_and_observation") (Json.get receipt (lit "receipt_type")) &&
  isText (lit "trash") (Json.get receipt (lit "operation")) &&
  (match Json.get receipt (lit "source_absent") with
    | .bool b => b
    | _ => false) &&
  (match Json.get receipt (lit "target_path") with
    | .null => true
    | _ => false) &&
  isText sourceDigest (Json.get receipt (lit "source_digest")) &&
  (match Json.get receipt (lit "source_path") with
    | .str path => pathKey path == pathKey expected.path
    | _ => false)

/-- `_validate_trash_receipt`. -/
def validateTrashReceipt (pathKey : Text → Text) (floatIsOne : Text → Bool)
    (verify : Json → Json → Checked Unit) (receiptJson : Text) (expected : FileSnapshot)
    (sourceDigest : Text) : Checked Unit :=
  match loads receiptJson with
  | none => .error ⟨.value, lit "trash backend returned invalid effect receipt JSON"⟩
  | some (.obj receipt) =>
    if sourceBound pathKey floatIsOne expected sourceDigest receipt then
      verify (Json.get receipt (lit "trash"))
        ((member? receipt "object_kind").getD (.str (lit "regular_file")))
    else .error ⟨.value, lit "trash backend receipt is not source-bound Trash evidence"⟩
  | some _ => .error ⟨.value, lit "trash backend returned a non-object effect receipt"⟩

/-- What the code takes from outside: the keys of actions and paths, the folding of texts, and the
numbers of a receipt. -/
structure Outside where
  keyOf : ℤ → ActionSpec → Text
  pathKey : Text → Text
  casefold : Text → Text
  floatIsOne : Text → Bool

namespace TrashCall

variable (o : Outside) (call : TrashCall)

/-! ## Admission -/

/-- `_normalize_trash_snapshots`. -/
def normalizeTrashSnapshots :
    Checked (List (Option FileSnapshot) × List (Option FileSnapshot)) := do
  let expected := call.expectedSnapshots.getD (List.replicate call.batch.length none)
  raiseIf (expected.length ≠ call.batch.length) .value
    "expected snapshot count does not match trash batch"
  let references := call.referenceSnapshots.getD (List.replicate call.batch.length none)
  raiseIf (references.length ≠ call.batch.length) .value
    "reference snapshot count does not match trash batch"
  pure (expected, references)

/-- The batch with its snapshots and the answers about each member. -/
def candidates (expected references : List (Option FileSnapshot)) : List Candidate :=
  ((call.batch.zip (expected.zip references)).zipIdx).map fun x =>
    ⟨x.1.1.1, x.1.1.2, x.1.2.1, x.1.2.2, call.answers x.2⟩

/-- `_size_is_admitted`, for the candidate and its reference. -/
def sizeIsAdmitted (limit : ℕ) (c : Candidate) : Bool :=
  match c.expected with
  | none => false
  | some planned =>
    decide (planned.size ≤ limit) &&
      (match c.reference with
        | none => true
        | some reference => decide (reference.size ≤ limit))

/-- The candidates of the batch that are admitted by their size. -/
def admitted (cs : List Candidate) : List Candidate :=
  match call.maxFileBytes with
  | none => cs
  | some limit => cs.filter (sizeIsAdmitted limit)

/-- The action types whose candidates are bound by their metadata alone. -/
def isUnread : Bool :=
  call.actionType = lit "trash_empty_directory" || call.actionType = lit "trash_redlist"

def isRedlist : Bool := call.actionType = lit "trash_redlist"

/-- The first loop of `_begin_trash_candidates`: a candidate that is kept, with the reason for
which its row is skipped at once. -/
def evaluate (c : Candidate) : Option (Candidate × Option Text) :=
  if c.answers.outsideRoot then none
  else
    match c.answers.protectedPathReason with
    | some reason => some (c, some reason)
    | none =>
      if c.answers.guardReason.isSome then none
      else if c.expected.isSome && !call.isUnread && c.answers.preservationReason.isSome then none
      else some (c, none)

def specOf (c : Candidate) : ActionSpec where
  actionType := call.actionType
  sourcePath := c.path
  targetPath := none
  detectedMime := some (lit "application/octet-stream")
  evidence := some c.evidence
  applyRequested := call.apply

/-- The rows of one reason are skipped. -/
def skipProtected (rows : List (ℕ × Candidate × Option Text)) (reason : Text) : Trash Unit :=
  commit (call.fault (.protectedSkip reason)) fun ledger =>
    ledger.finishFileActions ((rows.filter fun r => r.2.2 == some reason).map Prod.fst) .skipped
      (some reason)

/-- `_begin_trash_candidates`. -/
def beginTrashCandidates (cs : List Candidate) : Trash (List Ready × ℕ) := do
  liftM call.guardReasons
  let evaluated := cs.filterMap call.evaluate
  let filteredProtected := cs.length - evaluated.length
  if evaluated = [] then pure ([], filteredProtected)
  else
    let ids ← transact (call.fault .begin) fun ledger =>
      ledger.beginFileActions o.keyOf call.beginBoundary call.runId
        (evaluated.map fun e => call.specOf e.1)
    let rows := ids.zip evaluated
    Program.each (call.skipProtected rows) (rows.filterMap fun r => r.2.2).eraseDups
    pure ((rows.filter fun r => r.2.2.isNone).map fun r => { r.2.1 with actionId := r.1 },
      filteredProtected + (rows.filter fun r => r.2.2.isSome).length)

/-! ## Validation -/

/-- The texts that `_is_preservation_frontier_failure` looks for. -/
def preservationTokens : List Text :=
  [lit "metadata changed", lit "source changed", lit "source disappeared", lit "escapes root",
    lit "outside", lit "not contained"]

/-- `token in message`. -/
def occursIn (token message : Text) : Bool := message.tails.any fun rest => token.isPrefixOf rest

/-- `_is_preservation_frontier_failure`. -/
def isPreservationFrontierFailure (e : Raised) : Bool :=
  if call.actionType = lit "trash_duplicate" ∨ call.actionType = lit "trash_empty_directory" then
    false
  else
    let message := o.casefold e.text
    if occursIn (lit "reparse") message || occursIn (lit "symbolic link") message then false
    else preservationTokens.any fun token => occursIn token message

/-- What a pass leaves: the candidates that go on, and how many failed or are protected. -/
structure Pass where
  going : List Ready
  failures : ℕ
  protections : ℕ

/-- The loop of `_preflight_trash_candidates` and of `_revalidate_trash_candidates`. -/
def validateEach (check : Answers → Checked Unit) (site : Site) :
    List Ready → Trash Pass
  | [] => pure ⟨[], 0, 0⟩
  | m :: rest =>
    match check m.answers with
    | .ok () => do
      let pass ← validateEach check site rest
      pure { pass with going := m :: pass.going }
    | .error e =>
      if e.kind = .boundary then raise e
      else if e.kind.environmental then
        if isPreservationFrontierFailure o call e then do
          commit (m.answers.fault site) fun ledger =>
            ledger.finishFileActions [m.actionId] .skipped (some e.text)
          let pass ← validateEach check site rest
          pure { pass with protections := pass.protections + 1 }
        else do
          commit (m.answers.fault site) fun ledger =>
            ledger.finishFileActions [m.actionId] .failed (some e.text)
          let pass ← validateEach check site rest
          pure { pass with failures := pass.failures + 1 }
      else raise e

/-- `_preflight_trash_candidates`. -/
def preflightTrashCandidates (eligible : List Ready) : Trash Pass :=
  validateEach o call Answers.preflight .preflight eligible

/-- `_revalidate_trash_candidates`. -/
def revalidateTrashCandidates (active : List Ready) : Trash Pass :=
  validateEach o call Answers.revalidation .revalidation active

/-! ## Handlers -/

/-- `_best_effort_require_recovery`, for one action. -/
def bestEffortRequireRecovery (m : Ready) (detail : Text) : Trash Unit :=
  (commit (m.answers.fault .bestEffort) fun ledger =>
    ledger.requireFileActionRecovery [m.actionId] detail).handle fun _ => pure ()

/-- The detail of `_finish_uninvoked_trash_actions`. -/
def uninvokedDetail (e : Raised) : Text :=
  if e.kind = .budgetExceeded then lit "kio_budget_exhausted_before_effect"
  else lit "kio_cancelled_before_effect"

/-- `_finish_uninvoked_trash_actions`. -/
def finishUninvokedTrashActions (ready : List Ready) (e : Raised) : Trash Unit :=
  if ready = [] then pure ()
  else
    (commit (call.fault .uninvokedSkip) fun ledger =>
      ledger.finishFileActions (ready.map Ready.actionId) .skipped
        (some (uninvokedDetail e))).handle fun failure =>
    (commit (call.fault .uninvokedRecovery) fun ledger =>
      ledger.requireFileActionRecovery (ready.map Ready.actionId)
        (uninvokedDetail e ++ lit "; terminal skip persistence failed: " ++ failure.text)).handle
    fun _ => pure ()

/-- `_checkpoint` in front of candidates that the backend has not seen. -/
def checkpointBefore (checkpoint : Checked Unit) (ready : List Ready) : Trash Unit :=
  match checkpoint with
  | .ok () => pure ()
  | .error e => do
    if e.kind.stops then finishUninvokedTrashActions call ready e
    raise e

/-! ## One by one -/

/-- The local variables of the loop. -/
structure Tally where
  applied : ℕ
  failed : ℕ
  protections : ℕ
  appliedPaths : List Text

/-- How a member of the loop is counted. -/
inductive Verdict where
  | applied
  | failed
  | preserved
  | uncounted
  deriving DecidableEq

def Tally.count (t : Tally) (path : Text) : Verdict → Tally
  | .applied => { t with applied := t.applied + 1, appliedPaths := t.appliedPaths ++ [path] }
  | .failed => { t with failed := t.failed + 1 }
  | .preserved => { t with protections := t.protections + 1 }
  | .uncounted => t

/-- The digest of the source and the comparison with the keeper. -/
def sourceEvidence (m : Candidate) : Checked Text := do
  let sourceDigest ← m.answers.sourceDigest
  if m.reference.isSome then
    let equal ← m.answers.filesEqualExact
    raiseIf (equal = false) .runtime "keeper changed during exact duplicate comparison"
  pure sourceDigest

/-- The backend removes the file, or not. -/
def invoke (id : ℕ) (planned : FileSnapshot) (removes : Bool) : Trash Unit :=
  if removes then do
    let w ← Program.read
    Program.write { w with removed := w.removed ++ [(id, planned)] }
  else pure ()

/-- A blocked outcome is a skip, unless the skip cannot be written. -/
def settleBlocked (m : Ready) (detail : Text) : Trash Verdict :=
  Program.handle (do
    commit (m.answers.fault .skip) fun ledger =>
      ledger.finishFileActions [m.actionId] .skipped (some detail)
    pure (if call.isRedlist then .uncounted else .preserved)) fun e => do
  bestEffortRequireRecovery m
    (lit "blocked outcome persistence failed: " ++ e.text)
  pure .failed

/-- What the loop does with the outcome of the backend. -/
def settleOutcome (m : Ready) (planned : FileSnapshot) (sourceDigest : Text)
    (outcome : BackendOutcome) : Trash Verdict :=
  match outcome.status with
  | .applied =>
    match outcome.receiptJson with
    | some receipt =>
      match validateTrashReceipt o.pathKey o.floatIsOne m.answers.verify receipt planned
          sourceDigest with
      | .ok () => do
        commit (m.answers.fault .confirmation) fun ledger =>
          ledger.confirmFileActionsApplied [(m.actionId, receipt)]
        pure .applied
      | .error e =>
        if e.kind.uncertain then do
          bestEffortRequireRecovery m e.text
          pure .failed
        else raise e
    | none => do
      commit (m.answers.fault .recovery) fun ledger =>
        ledger.requireFileActionRecovery [m.actionId]
          (lit "trash backend reported applied without a receipt")
      pure .failed
  | .recoveryRequired => do
    commit (m.answers.fault .recovery) fun ledger =>
      ledger.requireFileActionRecovery [m.actionId] outcome.text
    pure .failed
  | .blocked => settleBlocked call m outcome.text

/-- The body of the `try`. -/
def attempt (m : Ready) (planned : FileSnapshot) : Trash Verdict := do
  let sourceDigest ← liftM (sourceEvidence m.toCandidate)
  let expectedJson ← liftM (planned.identityText m.path)
  commit (m.answers.fault .frontier) fun ledger =>
    ledger.markFileActionsApplying m.answers.boundary [(m.actionId, expectedJson)]
  invoke m.actionId planned m.answers.removes
  match m.answers.reply with
  | .raises e => raise e
  | .unsupported => raise ⟨.runtime, lit "trash backend returned an unsupported outcome"⟩
  | .outcome outcome => settleOutcome o call m planned sourceDigest outcome

/-- What the handler of one member's failure writes, by the status that it finds. -/
def closeFailed (m : Ready) (e : Raised) : Trash Unit := do
  let w ← Program.read
  match (w.ledger.action? m.actionId).map ActionRow.status with
  | some .applying =>
    commit (m.answers.fault .closing) fun ledger =>
      ledger.requireFileActionRecovery [m.actionId] e.text
  | some .started =>
    commit (m.answers.fault .closing) fun ledger =>
      ledger.finishFileActions [m.actionId] .failed (some e.text)
  | _ => pure ()

/-- The handler that isolates the failure of one member. -/
def isolate (m : Ready) (e : Raised) : Trash Unit :=
  Program.handle
    (match m.answers.fault .read with
      | some failure => raise failure.raised
      | none => closeFailed m e)
    fun _ => pure ()

/-- The `try` with its handlers. -/
def attemptHandled (m : Ready) (rest : List Ready) (planned : FileSnapshot) : Trash Verdict :=
  (attempt o call m planned).handle fun e =>
    if e.kind.stops then do
      bestEffortRequireRecovery m e.text
      finishUninvokedTrashActions call rest e
      raise e
    else if e.kind.isolated then do
      isolate m e
      pure .failed
    else raise e

/-- One turn of the loop. -/
def applyOne (m : Ready) (rest : List Ready) : Trash Verdict := do
  checkpointBefore call m.answers.checkpoint (m :: rest)
  match m.expected with
  | none => do
    commit (m.answers.fault .noSnapshot) fun ledger =>
      ledger.finishFileActions [m.actionId] .failed
        (some (lit "trash candidate has no expected snapshot"))
    pure .failed
  | some planned => attemptHandled o call m rest planned

/-- The loop. -/
def applyEach : List Ready → Tally → Trash Tally
  | [], tally => pure tally
  | m :: rest, tally => do
    let verdict ← applyOne o call m rest
    applyEach rest (tally.count m.path verdict)

/-- The paths go to the inventory, now or later. -/
def reconcile (paths : List Text) : Trash Unit :=
  if paths = [] then pure ()
  else do
    let w ← Program.read
    if call.deferReconciliation || call.actionType = lit "trash_empty_file" then
      Program.write { w with deferred := w.deferred ++ paths }
    else
      Program.write { w with reconciled := w.reconciled ++ paths }
      liftM call.reconciliation

/-- The end of `_apply_trash_batch`, without a batch backend. -/
def applyOneByOne (ready : List Ready) (failed protections : ℕ) : Trash (ℕ × ℕ × ℕ) := do
  let tally ← applyEach o call ready ⟨0, failed, protections, []⟩
  reconcile call tally.appliedPaths
  pure (tally.applied, tally.failed, tally.protections)

/-! ## The batch backend -/

/-- A member that is ready for the backend. -/
structure Prepared extends Ready where
  planned : FileSnapshot
  sourceDigest : Text
  expectedJson : Text

/-- The digests of the batch; a member that fails is failed alone. -/
def prepareEach : List Ready → Trash (List Prepared × ℕ)
  | [] => pure ([], 0)
  | m :: rest =>
    match m.expected with
    | none => do
      commit (m.answers.fault .noSnapshot) fun ledger =>
        ledger.finishFileActions [m.actionId] .failed
          (some (lit "trash candidate has no expected snapshot"))
      let (prepared, failed) ← prepareEach rest
      pure (prepared, failed + 1)
    | some planned =>
      let evidence : Checked (Text × Text) := do
        let sourceDigest ← sourceEvidence m.toCandidate
        let expectedJson ← planned.identityText m.path
        pure (sourceDigest, expectedJson)
      match evidence with
      | .ok (sourceDigest, expectedJson) => do
        let (prepared, failed) ← prepareEach rest
        pure (⟨m, planned, sourceDigest, expectedJson⟩ :: prepared, failed)
      | .error e =>
        if e.kind.isolated then do
          commit (m.answers.fault .stale) fun ledger =>
            ledger.finishFileActions [m.actionId] .failed (some e.text)
          let (prepared, failed) ← prepareEach rest
          pure (prepared, failed + 1)
        else raise e

/-- Every member is left to recovery. -/
def requireRecoveryEach (members : List Prepared) (detail : Text) : Trash Unit :=
  Program.each (fun m => bestEffortRequireRecovery m.toReady detail) members

/-- The files that the backend removes, one after another. -/
def invokeEach (backend : BatchBackend) (prepared : List Prepared) : Trash Unit :=
  Program.each (fun x => invoke x.1.actionId x.1.planned x.2) (prepared.zip backend.removes)

/-- `tuple(outcomes_value)`, as many as there are members. -/
def batchOutcomes (backend : BatchBackend) (count : ℕ) : Checked (List (Option BackendOutcome)) :=
  match backend.reply with
  | .raises e => .error e
  | .noOutcomes => .error ⟨.runtime, lit "trash backend returned no batch outcomes"⟩
  | .outcomes l =>
    if l.length = count then .ok l
    else .error ⟨.runtime,
      lit "trash backend returned an outcome count different from the batch"⟩

/-- A text, or another where it is empty. -/
def orElse (text default : Text) : Text := if text = [] then default else text

/-- A member whose receipt is accepted. -/
structure Confirmation where
  member : Prepared
  receipt : Text

/-- The loop over the outcomes: the confirmations, and how many failed or are protected. -/
def settleEach : List (Prepared × Option BackendOutcome) → Trash (List Confirmation × ℕ × ℕ)
  | [] => pure ([], 0, 0)
  | (m, outcome) :: rest => do
    let recover (detail : Text) : Trash (List Confirmation × ℕ × ℕ) := do
      bestEffortRequireRecovery m.toReady detail
      let (confirmations, failed, protections) ← settleEach rest
      pure (confirmations, failed + 1, protections)
    match outcome with
    | none => recover (lit "trash backend returned an unsupported batch outcome")
    | some outcome =>
      match outcome.status, outcome.receiptJson with
      | .applied, none => recover (lit "trash backend reported applied without a receipt")
      | .applied, some receipt =>
        match validateTrashReceipt o.pathKey o.floatIsOne m.answers.verify receipt m.planned
            m.sourceDigest with
        | .ok () => do
          let (confirmations, failed, protections) ← settleEach rest
          pure (⟨m, receipt⟩ :: confirmations, failed, protections)
        | .error e => if e.kind.uncertain then recover e.text else raise e
      | .recoveryRequired, _ => recover outcome.text
      | .blocked, _ => do
        let verdict ← settleBlocked call m.toReady outcome.text
        let (confirmations, failed, protections) ← settleEach rest
        pure (confirmations, if verdict = .failed then failed + 1 else failed,
          if verdict = .preserved then protections + 1 else protections)

/-- The receipts are confirmed in one transaction: the paths that are, and how many members are
not. -/
def confirmAll (confirmations : List Confirmation) : Trash (List Text × ℕ) :=
  if confirmations = [] then pure ([], 0)
  else
    Program.handle (do
      commit (call.fault .confirmation) fun ledger =>
        ledger.confirmFileActionsApplied
          (confirmations.map fun c => (c.member.actionId, c.receipt))
      pure (confirmations.map fun c => c.member.path, 0)) fun e => do
    requireRecoveryEach (confirmations.map Confirmation.member) e.text
    if e.kind.unconfirmed then pure ([], confirmations.length) else raise e

/-- `_apply_trash_backend_batch`. -/
def applyTrashBackendBatch (backend : BatchBackend) (ready : List Ready)
    (failed protections : ℕ) : Trash (ℕ × ℕ × ℕ) := do
  let (prepared, stale) ← prepareEach ready
  if prepared.isEmpty then pure (0, failed + stale, protections)
  else
    commit (call.fault .frontier) fun ledger =>
      ledger.markFileActionsApplying call.batchBoundary
        (prepared.map fun m => (m.actionId, m.expectedJson))
    invokeEach backend prepared
    match batchOutcomes backend prepared.length with
    | .error e =>
      if e.kind = .budgetExceeded then do
        requireRecoveryEach prepared e.text
        raise e
      else if e.kind.uncertain then do
        requireRecoveryEach prepared
          (orElse e.text (lit "trash backend batch outcome is unavailable"))
        pure (0, failed + stale + prepared.length, protections)
      else do
        requireRecoveryEach prepared
          (orElse e.text (lit "trash backend batch operation was interrupted"))
        raise e
    | .ok outcomes => do
      let (confirmations, recovered, blocked) ← settleEach o call (prepared.zip outcomes)
      let (appliedPaths, unconfirmed) ← confirmAll call confirmations
      reconcile call appliedPaths
      pure (appliedPaths.length, failed + stale + recovered + unconfirmed, protections + blocked)

/-! ## The call -/

/-- `TRASH_IDENTITY_ABSTENTION`. -/
def trashIdentityAbstention : Text :=
  lit "Recycle Bin mutation abstained: the available Send2Trash backends resolve " ++
    lit "the source by path and cannot bind the observed file identity to the syscall"

/-- The candidates that are ready go to the backend. -/
def applyReady (ready : List Ready) (failed protections : ℕ) : Trash (ℕ × ℕ × ℕ) := do
  let unavailable (detail : Text) : Trash (ℕ × ℕ × ℕ) := do
    commit (call.fault .unavailable) fun ledger =>
      ledger.finishFileActions (ready.map Ready.actionId) .skipped (some detail)
    pure (0, failed, protections + ready.length)
  match call.backend with
  | none => unavailable trashIdentityAbstention
  | some backend =>
    if call.actionType = lit "trash_empty_directory" ∧ backend.supportsEmptyDirectories = false then
      unavailable (lit "configured Trash backend does not support empty directories")
    else
      match backend.batch with
      | none => applyOneByOne o call ready failed protections
      | some batch => do
        checkpointBefore call call.checkpoint ready
        applyTrashBackendBatch o call batch ready failed protections

/-- `_apply_trash_batch` up to the backend, behind the admission by size: an early return, or the
candidates that are ready with what has failed and is protected so far. -/
def admitBatch (cs : List Candidate) : Trash ((ℕ × ℕ × ℕ) ⊕ (List Ready × ℕ × ℕ)) := do
  liftM call.reservation
  let (eligible, protections) ← beginTrashCandidates o call cs
  if call.apply = false then
    commit (call.fault .planned) fun ledger =>
      ledger.finishFileActions (eligible.map Ready.actionId) .planned none
    pure (.inl (0, 0, protections))
  else
    let first ← preflightTrashCandidates o call eligible
    if first.going.isEmpty then pure (.inl (0, first.failures, protections + first.protections))
    else
      liftM call.frontier
      let second ← revalidateTrashCandidates o call first.going
      let failed := first.failures + second.failures
      let protections := protections + first.protections + second.protections
      if second.going.isEmpty then pure (.inl (0, failed, protections))
      else pure (.inr (second.going, failed, protections))

/-- `_apply_trash_batch` up to the backend. -/
def readyBatch : Trash ((ℕ × ℕ × ℕ) ⊕ (List Ready × ℕ × ℕ)) := do
  liftM call.opening
  let (expected, references) ← liftM call.normalizeTrashSnapshots
  let cs := call.admitted (call.candidates expected references)
  if call.maxFileBytes.isSome && cs.isEmpty then pure (.inl (0, 0, 0))
  else admitBatch o call cs

/-- `_apply_trash_batch`: applied, failed and protected. -/
def applyTrashBatch : Trash (ℕ × ℕ × ℕ) := do
  match ← readyBatch o call with
  | .inl returned => pure returned
  | .inr (ready, failed, protections) => applyReady o call ready failed protections

end TrashCall

end Actions
end Neocortex
