import Neocortex.Actions.Reconciliation
import Neocortex.Actions.TrashEvidence
import Neocortex.Library.Pages

/-!
# Reconciling interrupted actions

`workflow/actions/file_action_recovery.py`: what `list_file_action_reconciliations` says of an
action that was left `applying` or went to `recovery_required`.

It looks at the source and at the target of an action, and for an action of the Trash at the object
that its receipt names there.
-/

namespace Neocortex
namespace Actions

open Python Checks

/-! ## The identity at the frontier -/

def textOrNull (t : Option Text) : Json := (t.map Json.str).getD .null

/-- The document of `expected_identity_json`. -/
def identityDocument (e : Entry) (sourcePath : Text) (targetPath : Option Text) : Json :=
  .obj [
    (lit "schema_version", .int 1),
    (lit "source", .obj [
      (lit "birthtime_ns", .int e.birthtimeNs),
      (lit "file_id", .str (hexadecimal e.fileId)),
      (lit "mtime_ns", .int e.mtimeNs),
      (lit "path", .str sourcePath),
      (lit "size", .int e.size),
      (lit "volume_id", .str (hexadecimal e.volumeId))]),
    (lit "target_path", textOrNull targetPath)]

/-- `expected_identity_json`. -/
def expectedIdentityJson (e : Entry) (sourcePath : Text) (targetPath : Option Text) :
    Option Text :=
  dumpsUnicode (identityDocument e sourcePath targetPath)

/-- `int(value)`, where the evidence has a number. -/
def asInteger : Json → Option ℤ
  | .int n => some n
  | .bool b => some (if b then 1 else 0)
  | _ => none

/-- `str(value)`, where the evidence has a text or a number. -/
def asText : Json → Text
  | .str s => s
  | .int n => renderInt n
  | .bool b => if b then lit "True" else lit "False"
  | .null => lit "None"
  | v => render v

/-- The members that `_parse_expected_identity` reads before it judges them. -/
def readIdentity (document : Json) : Option (ℤ × ExpectedIdentity) :=
  match document with
  | .obj members =>
    match Json.get members (lit "source") with
    | .obj source => do
      let version ← asInteger (Json.get members (lit "schema_version"))
      let volumeId ← parseHexadecimal (asText (Json.get source (lit "volume_id")))
      let fileId ← parseHexadecimal (asText (Json.get source (lit "file_id")))
      let size ← asInteger (Json.get source (lit "size"))
      let mtimeNs ← asInteger (Json.get source (lit "mtime_ns"))
      let birthtimeNs ← asInteger (Json.get source (lit "birthtime_ns"))
      let sourceDigest ← match Json.get members (lit "source_digest") with
        | .null => some none
        | .str digest => some (some digest)
        | _ => none
      pure (version, ⟨volumeId, fileId, size, mtimeNs, birthtimeNs, sourceDigest⟩)
    | _ => none
  | _ => none

/-- `source.get("path", "")` and `document.get("target_path")`. -/
def readPaths (document : Json) : Text × Option Text :=
  match document with
  | .obj members =>
    (match Json.get members (lit "source") with
      | .obj source => ((member? source "path").map asText).getD []
      | _ => [],
     match Json.get members (lit "target_path") with
      | .null => none
      | v => some (asText v))
  | _ => ([], none)

variable (paths : Paths)

/-- `_parse_expected_identity`; the error is the text of its `ValueError`. -/
def parseExpectedIdentity (raw : Option Text) (sourcePath : Text) (targetPath : Option Text) :
    Except Text ExpectedIdentity :=
  match raw with
  | none => .error (lit "legacy action has no expected physical identity")
  | some raw =>
    match loads raw with
    | none => .error (lit "expected physical identity evidence is malformed")
    | some document =>
      match readIdentity document with
      | none => .error (lit "expected physical identity evidence is malformed")
      | some (version, e) =>
        if version ≠ 1 ∨ e.volumeId < 0 ∨ e.fileId < 0 ∨ e.size < 0 ∨ e.mtimeNs < 0 ∨
            e.birthtimeNs < -1 then
          .error (lit "expected physical identity evidence is unsupported")
        else if paths.pathKey (readPaths document).1 ≠ paths.pathKey sourcePath then
          .error (lit "expected identity source path conflicts with the action")
        else if (readPaths document).2.map paths.pathKey ≠ targetPath.map paths.pathKey then
          .error (lit "expected identity target path conflicts with the action")
        else .ok e

/-! ## Observations -/

inductive Observed where
  | expected
  | missing
  | different (detail : Text)
  | error (detail : Text)
  deriving DecidableEq, Repr

/-- `_observe_path`. -/
def observePath (disk : Disk) (path : Text) (e : ExpectedIdentity) : Observed :=
  match disk.fault path with
  | some text => .error text
  | none =>
    match disk.at? path with
    | none => .missing
    | some c =>
      if c.kind ≠ .regular then .error (lit "observed path is not a regular non-link file")
      else if c.nlink ≠ 1 then .error (lit "observed path has additional hard links")
      else if c.matches e = false then
        .different (lit "observed identity=" ++ hexadecimal c.volumeId ++ lit ":" ++
          hexadecimal c.fileId ++ lit ";size=" ++ decimal c.size ++ lit ";mtime_ns=" ++
          renderInt c.mtimeNs)
      else
        match e.sourceDigest with
        | none => .expected
        | some digest =>
          match disk.binding c digest with
          | .error text => .error (lit "binding observation failed: " ++ text)
          | .ok d =>
            if d ≠ digest then
              .different (lit "observed identity binding differs from the mutation evidence")
            else .expected

/-! ## Classification -/

/-- `FILE_ACTION_RECONCILER_SIGNATURE`. -/
def reconcilerSignature : Text := lit "file-action-reconciler-v1"

/-- `_result`. -/
def result (row : ActionRow) (classification : Classification) (recommendation : Recommendation)
    (detail : Text) : Reconciliation where
  actionId := row.actionId
  runId := row.runId
  idempotencyKey := row.idempotencyKey
  actionType := row.spec.actionType
  sourcePath := row.spec.sourcePath
  targetPath := row.spec.targetPath
  recordedStatus := row.status
  reconcilerSignature := reconcilerSignature
  classification := classification
  recommendation := recommendation
  detail := detail

def confirmedResult (row : ActionRow) : Text → Reconciliation :=
  result row .confirmed .confirmActionRecord

def notPerformedResult (row : ActionRow) : Text → Reconciliation :=
  result row .notPerformed .reviewBeforeNewAuthorizedAttempt

def ambiguousResult (row : ActionRow) : Text → Reconciliation :=
  result row .ambiguous .preserveEvidenceAndReviewManually

def impossibleResult (row : ActionRow) : Text → Reconciliation :=
  result row .impossibleToCheck .preserveEvidenceAndReviewManually

/-- `action_type.startswith("trash_")`. -/
def isTrash (row : ActionRow) : Bool := (lit "trash_").isPrefixOf row.spec.actionType

/-- `_valid_success_receipt`. -/
def validSuccessReceipt (disk : Disk) (operation : String) (row : ActionRow)
    (e : ExpectedIdentity) : Bool :=
  match row.effectReceiptJson with
  | none => false
  | some raw =>
    match loads raw with
    | some (.obj receipt) =>
      let target := match Json.get receipt (lit "target_path") with
        | .null => none
        | v => some (asText v)
      equalsOne paths.floatIsOne (Json.get receipt (lit "schema_version")) &&
      isText (lit operation) (Json.get receipt (lit "operation")) &&
      isText (lit "successful_return_and_observation") (Json.get receipt (lit "receipt_type")) &&
      (match Json.get receipt (lit "source_absent") with
        | .bool b => b
        | _ => false) &&
      paths.pathKey (((member? receipt "source_path").map asText).getD []) ==
        paths.pathKey row.spec.sourcePath &&
      target.map paths.pathKey == row.spec.targetPath.map paths.pathKey &&
      (if isTrash row then
        match Json.get receipt (lit "source_digest") with
        | .str digest =>
          digest ≠ [] && (e.sourceDigest == none || e.sourceDigest == some digest) &&
            (verifyTrashReceiptEvidence paths disk (Json.get receipt (lit "trash"))
              row.spec.sourcePath e digest).isOk
        | _ => false
      else true)
    | _ => false

/-- `_classify_trash`. -/
def classifyTrash (disk : Disk) (row : ActionRow) (source : Observed) (e : ExpectedIdentity) :
    Reconciliation :=
  match source with
  | .expected => notPerformedResult row (lit "the expected source identity remains at the source path")
  | .different detail =>
    ambiguousResult row (lit "source path now names another object; " ++ detail)
  | _ =>
    if validSuccessReceipt paths disk "trash" row e then
      confirmedResult row (lit "source is absent and a successful trash receipt was recorded")
    else
      ambiguousResult row (lit ("source is absent but the Recycle Bin receipt is missing or does " ++
        "not match this action"))

/-- The first member of an observation. -/
def Observed.state : Observed → Text
  | .expected => lit "expected"
  | .missing => lit "missing"
  | .different _ => lit "different"
  | .error _ => lit "error"

/-- The second member of an observation. -/
def Observed.detail : Observed → Text
  | .different detail => detail
  | .error detail => detail
  | _ => []

/-- `_classify_move`. -/
def classifyMove (row : ActionRow) (source target : Observed) : Reconciliation :=
  if source = .missing ∧ target = .expected then
    confirmedResult row (lit "source is absent and target retains the expected identity")
  else if source = .expected ∧ target = .missing then
    notPerformedResult row (lit "source retains the expected identity and target is absent")
  else
    ambiguousResult row (lit "source=" ++ source.state ++ lit "; target=" ++ target.state ++
      (if source.detail = [] then [] else lit "; source_detail=" ++ source.detail) ++
      (if target.detail = [] then [] else lit "; target_detail=" ++ target.detail))

/-- `_classify_restore`. -/
def classifyRestore (row : ActionRow) : Observed → Reconciliation
  | .expected =>
    confirmedResult row (lit "restore destination has the expected identity and digest")
  | .missing =>
    notPerformedResult row (lit "restore destination is absent and the effect remains unresolved")
  | .different detail =>
    ambiguousResult row (lit "restore destination names another object; " ++ detail)
  | .error detail =>
    impossibleResult row
      (if detail = [] then lit "restore destination cannot be checked" else detail)

/-- `_classify_row`. -/
def classifyRow (disk : Disk) (row : ActionRow) : Reconciliation :=
  match parseExpectedIdentity paths row.expectedIdentityJson row.spec.sourcePath
      row.spec.targetPath with
  | .error text => impossibleResult row text
  | .ok e =>
    match observePath disk row.spec.sourcePath e with
    | .error text => impossibleResult row (lit "source observation failed: " ++ text)
    | source =>
      if row.spec.actionType = lit "restore_curation" then classifyRestore row source
      else if isTrash row then classifyTrash paths disk row source e
      else
        match row.spec.targetPath with
        | none => impossibleResult row (lit "non-trash action has no recorded target path")
        | some targetPath =>
          match observePath disk targetPath e with
          | .error text => impossibleResult row (lit "target observation failed: " ++ text)
          | target => classifyMove row source target

/-! ## Pages -/

/-- `RECOVERY_BATCH_LIMIT`. -/
def recoveryBatchLimit : ℤ := 1000

/-- `status IN ('applying','recovery_required')`, and the run if one is given. -/
def isRecoverable (runId : Option ℤ) (row : ActionRow) : Bool :=
  (row.status == .applying || row.status == .recoveryRequired) &&
    (match runId with
      | none => true
      | some run => row.runId == run)

/-- The rows that are listed, in the order of their ids. -/
def Ledger.recoverable (ledger : Ledger) (runId : Option ℤ) : List ActionRow :=
  (ledger.actions.filter (isRecoverable runId)).insertionSort fun a b => a.actionId ≤ b.actionId

/-- `list_file_action_reconciliations`. -/
def listFileActionReconciliations (disk : Disk) (ledger : Ledger) (limit afterActionId : ℤ)
    (runId : Option ℤ) : Checked (List Reconciliation) := do
  raiseIf (limit < 1 ∨ recoveryBatchLimit < limit) .value
    s!"recovery limit must be between 1 and {recoveryBatchLimit}"
  raiseIf (afterActionId < 0) .value "after action identifier cannot be negative"
  raiseIf (runId.any (· < 1)) .value "recovery run identifier must be positive"
  pure ((Pages.page (fun r : ActionRow => (r.actionId : ℤ)) (ledger.recoverable runId) afterActionId
    limit.toNat).map (classifyRow paths disk))

/-- Pages with these limits, each behind the last action of the one before. -/
def listPages (disk : Disk) (ledger : Ledger) (runId : Option ℤ) :
    List ℤ → ℤ → Checked (List Reconciliation)
  | [], _ => .ok []
  | limit :: limits, afterActionId => do
    let page ← listFileActionReconciliations paths disk ledger limit afterActionId runId
    let rest ← listPages disk ledger runId limits
      ((page.getLast?.map Reconciliation.actionId).getD afterActionId)
    pure (page ++ rest)

end Actions
end Neocortex
