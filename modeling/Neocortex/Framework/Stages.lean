import Neocortex.Framework.Lifecycle
import Neocortex.Framework.Evolution

/-!
# Lifecycle stages

`publish_run_stage` appends the transitions of the stages of a run, `read_run_stages` and
`read_run_stage_state` read them back.

A transition is written once for its idempotency key, which defaults to the stage and the
status; the reader refuses a run with more than 64 of them.

`json_extract(details_json,'$.stage')=?` compares the decoded text of the stage.
-/

namespace Neocortex
namespace Framework

open Python Checks

def runStageSchema : Text := lit "neocortex.lifecycle-stage/v1"
def runCheckpointSchema : Text := lit "neocortex.lifecycle-checkpoint/v1"
def stageTransitioned : Text := lit "Lifecycle stage transitioned"
def checkpointPersisted : Text := lit "Lifecycle checkpoint persisted"

/-! ## The size of a value -/

/-- The bytes of one character of a string, with `ensure_ascii=False`. -/
def storedCharLength (c : Char) : ℕ :=
  if c = '"' ∨ c = '\\' ∨ c = '\n' ∨ c = '\r' ∨ c = '\t' ∨ c = '\x08' ∨ c = '\x0c' then 2
  else if c.toNat < 0x20 then 6
  else c.utf8Size

def storedTextLength (t : Text) : ℕ := 2 + (t.map storedCharLength).sum

mutual
/-- The bytes that `json.dumps(value, ensure_ascii=False, separators=(",", ":"))` takes in
UTF-8, whatever the order of the keys. -/
def storedLength : Json → ℕ
  | .null => 4
  | .bool true => 4
  | .bool false => 5
  | .int n => (renderInt n).length
  | .float lexeme => utf8Len lexeme
  | .str s => storedTextLength s
  | .arr items => 2 + (storedItemsLength items - 1)
  | .obj members => 2 + (storedMembersLength members - 1)

/-- The items of an array, each with a comma. -/
def storedItemsLength : List Json → ℕ
  | [] => 0
  | v :: vs => storedLength v + 1 + storedItemsLength vs

/-- The members of an object, each with a comma. -/
def storedMembersLength : List (Text × Json) → ℕ
  | [] => 0
  | (k, v) :: ms => storedTextLength k + 1 + storedLength v + 1 + storedMembersLength ms
end

mutual
/-- `allow_nan=False` accepts the value. -/
def isFinite : Json → Bool
  | .float lexeme => lexeme != lit "NaN" && lexeme != lit "Infinity" && lexeme != lit "-Infinity"
  | .arr items => isFiniteItems items
  | .obj members => isFiniteMembers members
  | .null => true
  | .bool _ => true
  | .int _ => true
  | .str _ => true

/-- `isFinite` on the items of an array. -/
def isFiniteItems : List Json → Bool
  | [] => true
  | v :: vs => isFinite v && isFiniteItems vs

/-- `isFinite` on the values of an object. -/
def isFiniteMembers : List (Text × Json) → Bool
  | [] => true
  | (_, v) :: ms => isFinite v && isFiniteMembers ms
end

/-- The dump of details or of a checkpoint, and the check of its size. -/
def checkStored (members : Members) (message : String) : Checked Unit := do
  raiseIf (isFinite (.obj members) = false) (.value "Out of range float values are not JSON compliant")
  raiseIf (intsFit (.obj members) = false)
    (.value "Exceeds the limit for integer string conversion")
  raiseIf (256 * 1024 < storedLength (.obj members)) (.value message)

/-! ## The manifest of a run -/

/-- `read_run_manifest`. -/
def Database.readRunManifest (digestOf : CanonicalDigest) (db : Database) (run : ℤ) :
    Checked (Option Members) :=
  match (db.eventsOf run .manifest).filter fun e => e.message == manifestPublished with
  | [] => .ok none
  | [e] => some <$> verifyEventPayload digestOf e.details
  | _ => .error (.runtime s!"run {run} has duplicate lifecycle manifests")

/-! ## Writing -/

inductive StageStatus where
  | pending
  | running
  | completed
  | isPartial
  | failed
  | interrupted
  | skipped
  deriving DecidableEq, Repr

def StageStatus.text : StageStatus → Text
  | .pending => lit "pending"
  | .running => lit "running"
  | .completed => lit "completed"
  | .isPartial => lit "partial"
  | .failed => lit "failed"
  | .interrupted => lit "interrupted"
  | .skipped => lit "skipped"

/-- The statuses that `publish_run_stage` supports. -/
def stageStatuses : List StageStatus :=
  [.pending, .running, .completed, .isPartial, .failed, .interrupted, .skipped]

/-- A status that a stage does not leave. -/
def isTerminalStage (status : Text) : Bool :=
  status == StageStatus.completed.text || status == StageStatus.skipped.text

/-- The arguments of `publish_run_stage`. -/
structure StageCall where
  run : ℤ
  stage : Text
  status : Text
  details : Option Members
  idempotencyKey : Option Text
  checkpoint : Option Members

/-- `{} if details is None else dict(details)`. -/
def StageCall.selectedDetails (c : StageCall) : Members := c.details.getD []

/-- `idempotency_key or f"{stage}:{status}"`. -/
def StageCall.key (c : StageCall) : Text :=
  if c.idempotencyKey.getD [] = [] then c.stage ++ lit ":" ++ c.status
  else c.idempotencyKey.getD []

/-- The transitions of a run, in the order in which they were appended. -/
def Database.stageEvents (db : Database) (run : ℤ) : List Event :=
  (db.eventsOf run .stage).filter fun e => e.message == stageTransitioned

/-- An event of a stage. -/
def isOfStage (stage : Text) (e : Event) : Bool :=
  (Json.get e.details (lit "stage")).asStr? == some stage

/-- The latest transition of a stage. -/
def Database.latestStage (db : Database) (run : ℤ) (stage : Text) : Option Event :=
  ((db.stageEvents run).filter (isOfStage stage)).getLast?

/-- The payload of a transition, without the key that is appended to it. -/
def stageDetails (c : StageCall) (digest : Json) : Members :=
  [(lit "schema", .str runStageSchema),
   (lit "run_id", .int c.run),
   (lit "manifest_digest", digest),
   (lit "stage", .str c.stage),
   (lit "status", .str c.status),
   (lit "details", .obj c.selectedDetails)]

/-- `_publish_run_checkpoint_locked`. -/
def Database.publishRunCheckpoint (db : Database) (run : ℤ) (digest : Json) (stage : Text)
    (checkpoint : Members) (key : Text) : Checked Database := do
  checkStored checkpoint "lifecycle checkpoint exceeds the durable limit"
  let (_, db) ← db.appendLifecycleEventOnce run .checkpoint checkpointPersisted key
    [(lit "schema", .str runCheckpointSchema),
     (lit "run_id", .int run),
     (lit "manifest_digest", digest),
     (lit "stage", .str stage),
     (lit "checkpoint", .obj checkpoint)]
  pure db

/-- A stage that is completed or skipped refuses another status. -/
def checkLatest (run : ℤ) (stage status : Text) : Option Event → Checked Unit
  | none => .ok ()
  | some e =>
    match (Json.get e.details (lit "status")).asStr? with
    | none => .ok ()
    | some latest =>
      raiseIf (isTerminalStage latest = true ∧ status ≠ latest)
        (.runtime s!"run {run} lifecycle stage {String.ofList stage} is already {String.ofList latest}")

/-- `publish_run_stage`. -/
def Database.publishRunStage (digestOf : CanonicalDigest) (db : Database) (c : StageCall) :
    Checked (Bool × Database) := do
  raiseIf (c.stage = [] ∨ 128 < c.stage.length)
    (.value "lifecycle stage must be non-empty and bounded")
  raiseIf (c.status ∉ stageStatuses.map StageStatus.text) (.value "unsupported lifecycle stage status")
  checkStored c.selectedDetails "lifecycle stage details exceed the durable limit"
  raiseIf (256 < c.key.length) (.value "lifecycle stage idempotency key is invalid")
  match ← db.readRunManifest digestOf c.run with
  | none => .error (.value s!"run {c.run} has no lifecycle manifest")
  | some manifest =>
    checkLatest c.run c.stage c.status (db.latestStage c.run c.stage)
    let digest := Json.get manifest (lit "digest")
    let (changed, db) ← db.appendLifecycleEventOnce c.run .stage stageTransitioned c.key
      (stageDetails c digest)
    match c.checkpoint with
    | none => pure (changed, db)
    | some checkpoint =>
      let db ← db.publishRunCheckpoint c.run digest c.stage checkpoint (c.key ++ lit ":checkpoint")
      pure (changed, db)

/-! ## Reading -/

/-- One transition that `read_run_stages` returns: its payload and its event. -/
structure StageEvent where
  payload : Members
  eventId : ℕ

/-- The checks of `read_run_stages` on one row. -/
def readStageRow (run : ℤ) (digest : Option Json) (e : Event) : Checked StageEvent := do
  raiseIf ((Json.get e.details (lit "schema")).asStr? ≠ some runStageSchema)
    (.runtime s!"run {run} lifecycle stage schema is unsupported")
  match Json.get e.details (lit "run_id") with
  | .int owner => raiseIf (owner ≠ run) (.runtime s!"run {run} lifecycle stage has an invalid owner")
  | _ => .error (.runtime s!"run {run} lifecycle stage has an invalid owner")
  match digest with
  | none => pure ()
  | some digest =>
    raiseIf ((Json.get e.details (lit "manifest_digest")).asStr? ≠ digest.asStr?)
      (.runtime s!"run {run} lifecycle stage is detached from its manifest")
  match Json.get e.details (lit "details") with
  | .obj _ => pure ⟨e.details, e.eventId⟩
  | _ => .error (.runtime s!"run {run} lifecycle stage details are invalid")

/-- `read_run_stages`. -/
def Database.readRunStages (digestOf : CanonicalDigest) (db : Database) (run : ℤ) :
    Checked (List StageEvent) := do
  let rows := db.stageEvents run
  raiseIf (64 < rows.length) (.runtime s!"run {run} has too many lifecycle stages")
  let manifest ← db.readRunManifest digestOf run
  raiseIf (manifest = none ∧ rows ≠ [])
    (.runtime s!"run {run} lifecycle stages have no manifest")
  rows.mapM (readStageRow run (manifest.map fun m => Json.get m (lit "digest")))

/-- `latest[str(event["stage"])] = dict(event)`. -/
def keepLatest (latest : List (Text × StageEvent)) (e : StageEvent) : List (Text × StageEvent) :=
  let stage := (Json.get e.payload (lit "stage")).asStr?.getD []
  (stage, e) :: latest.filter fun entry => entry.1 != stage

/-- `read_run_stage_state`. -/
def Database.readRunStageState (digestOf : CanonicalDigest) (db : Database) (run : ℤ) :
    Checked (List (Text × StageEvent)) := do
  let events ← db.readRunStages digestOf run
  pure (events.foldl keepLatest [])

/-! ## What a call writes -/

/-- The details of the event that a call appends. -/
def StageCall.written (c : StageCall) (digest : Json) : Members :=
  stageDetails c digest ++ [(lit "idempotency_key", .str c.key)]

section Written

variable (c : StageCall) (digest : Json)

theorem written_schema : Json.get (c.written digest) (lit "schema") = .str runStageSchema := rfl

theorem written_run : Json.get (c.written digest) (lit "run_id") = .int c.run := rfl

theorem written_digest : Json.get (c.written digest) (lit "manifest_digest") = digest := rfl

theorem written_stage : Json.get (c.written digest) (lit "stage") = .str c.stage := rfl

theorem written_status : Json.get (c.written digest) (lit "status") = .str c.status := rfl

theorem written_details : Json.get (c.written digest) (lit "details") = .obj c.selectedDetails := rfl

end Written

variable {digestOf : CanonicalDigest} {db db' : Database} {run : ℤ} {c : StageCall}

/-- The event of the call is there already. -/
def Database.hasStageKey (db : Database) (c : StageCall) : Bool :=
  (db.lifecycleEvent? c.run .stage stageTransitioned c.key).isSome

/-- What a call that returns leaves of the events. -/
structure StageEffect (digestOf : CanonicalDigest) (db db' : Database) (c : StageCall)
    (manifest : Members) : Prop where
  verified : db.readRunManifest digestOf c.run = .ok (some manifest)
  latest : ∀ e ∈ db.latestStage c.run c.stage, ∀ status,
    (Json.get e.details (lit "status")).asStr? = some status → isTerminalStage status = true →
      c.status = status
  manifests : ∀ r, db'.eventsOf r .manifest = db.eventsOf r .manifest
  others : ∀ r, r ≠ c.run → db'.stageEvents r = db.stageEvents r
  events : (db.hasStageKey c = true ∧ db'.stageEvents c.run = db.stageEvents c.run) ∨
    (db.hasStageKey c = false ∧ ∃ e, e.details = c.written (Json.get manifest (lit "digest")) ∧
      db'.stageEvents c.run = db.stageEvents c.run ++ [e])

theorem checkLatest_eq_ok {stage status : Text} {latest : Option Event} {u : Unit}
    (h : checkLatest run stage status latest = .ok u) : ∀ e ∈ latest, ∀ s,
      (Json.get e.details (lit "status")).asStr? = some s → isTerminalStage s = true →
        status = s := by
  rintro e rfl s hs hterminal
  simp only [checkLatest, hs, raiseIf_eq_ok] at h
  by_contra hne
  exact h ⟨hterminal, hne⟩

theorem stageEvents_append (db : Database) (r : ℤ) (phase : Phase) (message : Text)
    (details : Members) :
    (db.append r phase message details).stageEvents run =
      db.stageEvents run ++ if r = run ∧ phase = .stage ∧ message = stageTransitioned then
        [db.newEvent r phase message details] else [] := by
  simp only [Database.stageEvents, Database.eventsOf_append, List.filter_append]
  congr 1
  by_cases hrun : r = run ∧ phase = .stage
  · rw [if_pos hrun]
    by_cases hmessage : message = stageTransitioned
    · simp [hrun.1, hrun.2, hmessage, Database.newEvent]
    · simp [hmessage, Database.newEvent]
  · rw [if_neg hrun, if_neg]
    · rfl
    · exact fun h => hrun ⟨h.1, h.2.1⟩

theorem stageEvents_append_other (db : Database) {r : ℤ} {phase : Phase} {message : Text}
    (details : Members) (h : ¬ (r = run ∧ phase = .stage ∧ message = stageTransitioned)) :
    (db.append r phase message details).stageEvents run = db.stageEvents run := by
  rw [stageEvents_append, if_neg h, List.append_nil]

/-- A checkpoint is no transition. -/
theorem publishRunCheckpoint_events {stage key : Text} {checkpoint : Members} {digest : Json}
    (h : db.publishRunCheckpoint run digest stage checkpoint key = .ok db') (r : ℤ) :
    db'.eventsOf r .manifest = db.eventsOf r .manifest ∧
      db'.stageEvents r = db.stageEvents r := by
  simp only [Database.publishRunCheckpoint, bind_eq_ok, pure_eq_ok, Prod.exists] at h
  obtain ⟨-, -, b, db₁, happend, rfl⟩ := h
  rcases Database.appendOnce_cases happend with rfl | ⟨-, rfl⟩
  · exact ⟨rfl, rfl⟩
  · refine ⟨?_, ?_⟩
    · refine db.eventsOf_append_of_ne _ _ _ _ fun h => ?_
      cases h.2
    · refine stageEvents_append_other db _ fun h => ?_
      cases h.2.1

/-- The event of a transition is appended once. -/
theorem appendStage_effect {details : Members} {b : Bool}
    (h : db.appendLifecycleEventOnce c.run .stage stageTransitioned c.key details = .ok (b, db')) :
    (db.hasStageKey c = true ∧ db' = db) ∨
      (db.hasStageKey c = false ∧ db' = db.append c.run .stage stageTransitioned
        (details ++ [(lit "idempotency_key", .str c.key)])) := by
  simp only [Database.appendLifecycleEventOnce] at h
  split_ifs at h
  unfold Database.hasStageKey
  split at h
  next e hsome =>
    split_ifs at h
    rw [hsome]
    exact .inl ⟨rfl, (Prod.mk.inj (Except.ok.inj h)).2.symm⟩
  next hnone =>
    simp only [bind_eq_ok, pure_eq_ok, Prod.mk.injEq] at h
    obtain ⟨db₁, hinsert, -, rfl⟩ := h
    rw [hnone]
    exact .inr ⟨rfl, Database.insert_eq_ok hinsert⟩

/-- The transition of a call and its checkpoint. -/
theorem publishRunStage_cases {b : Bool} (h : db.publishRunStage digestOf c = .ok (b, db')) :
    ∃ manifest changed db₁,
      db.readRunManifest digestOf c.run = .ok (some manifest) ∧
      checkLatest c.run c.stage c.status (db.latestStage c.run c.stage) = .ok () ∧
      db.appendLifecycleEventOnce c.run .stage stageTransitioned c.key
        (stageDetails c (Json.get manifest (lit "digest"))) = .ok (changed, db₁) ∧
      ∀ r, db'.eventsOf r .manifest = db₁.eventsOf r .manifest ∧
        db'.stageEvents r = db₁.stageEvents r := by
  simp only [Database.publishRunStage, bind_eq_ok, raiseIf_eq_ok] at h
  obtain ⟨-, -, -, -, -, -, -, -, manifest?, hmanifest, h⟩ := h
  cases manifest? with
  | none => cases h
  | some manifest =>
    simp only [bind_eq_ok, Prod.exists] at h
    obtain ⟨u, hlatest, changed, db₁, happend, h⟩ := h
    refine ⟨manifest, changed, db₁, hmanifest, hlatest, happend, fun r => ?_⟩
    cases hcheckpoint : c.checkpoint with
    | none =>
      simp only [hcheckpoint, pure_eq_ok, Prod.mk.injEq] at h
      rw [h.2]
      exact ⟨rfl, rfl⟩
    | some checkpoint =>
      simp only [hcheckpoint, bind_eq_ok, pure_eq_ok, Prod.mk.injEq] at h
      obtain ⟨db₂, hpublish, -, rfl⟩ := h
      exact publishRunCheckpoint_events hpublish r

theorem publishRunStage_effect {b : Bool} (h : db.publishRunStage digestOf c = .ok (b, db')) :
    ∃ manifest, StageEffect digestOf db db' c manifest := by
  obtain ⟨manifest, changed, db₁, hmanifest, hlatest, happend, hsame⟩ := publishRunStage_cases h
  refine ⟨manifest, hmanifest, checkLatest_eq_ok hlatest, fun r => ?_, fun r hr => ?_, ?_⟩
  · rw [(hsame r).1]
    rcases appendStage_effect happend with ⟨-, rfl⟩ | ⟨-, rfl⟩
    · rfl
    · exact db.eventsOf_append_of_ne _ _ _ _ fun h => nomatch h.2
  · rw [(hsame r).2]
    rcases appendStage_effect happend with ⟨-, rfl⟩ | ⟨-, rfl⟩
    · rfl
    · exact stageEvents_append_other db _ fun h => hr h.1.symm
  · rw [(hsame c.run).2]
    rcases appendStage_effect happend with ⟨hkey, rfl⟩ | ⟨hkey, rfl⟩
    · exact .inl ⟨hkey, rfl⟩
    · refine .inr ⟨hkey, db.newEvent c.run .stage stageTransitioned
        (c.written (Json.get manifest (lit "digest"))), rfl, ?_⟩
      rw [stageEvents_append, if_pos ⟨rfl, rfl, rfl⟩]
      rfl

/-! ## The log of a run -/

/-- The manifest of a run is verified, and every transition is one that a call has written
under it. -/
structure Database.StageLog (digestOf : CanonicalDigest) (db : Database) (run : ℤ)
    (manifest : Members) : Prop where
  verified : db.readRunManifest digestOf run = .ok (some manifest)
  written : ∀ e ∈ db.stageEvents run, ∃ c : StageCall, c.run = run ∧
    e.details = c.written (Json.get manifest (lit "digest"))

theorem readRunManifest_congr (h : db'.eventsOf run .manifest = db.eventsOf run .manifest) :
    db'.readRunManifest digestOf run = db.readRunManifest digestOf run := by
  unfold Database.readRunManifest
  rw [h]

theorem StageEffect.stageLog {manifest manifest' : Members}
    (h : StageEffect digestOf db db' c manifest') (hlog : db.StageLog digestOf run manifest) :
    db'.StageLog digestOf run manifest := by
  refine ⟨(readRunManifest_congr (h.manifests run)).trans hlog.verified, fun e he => ?_⟩
  by_cases hrun : run = c.run
  · subst hrun
    obtain rfl : manifest = manifest' := by
      simpa using hlog.verified.symm.trans h.verified
    rcases h.events with ⟨-, heq⟩ | ⟨-, new, hnew, heq⟩
    · exact hlog.written e (heq ▸ he)
    · rw [heq] at he
      rcases List.mem_append.mp he with he | he
      · exact hlog.written e he
      · rw [List.mem_singleton.mp he]
        exact ⟨c, rfl, hnew⟩
  · exact hlog.written e (h.others run hrun ▸ he)

/-! ## Reading back -/

/-- The row that is read for an event. -/
def Event.asStage (e : Event) : StageEvent := ⟨e.details, e.eventId⟩

theorem readStageRow_written {digest : Json} {e : Event} (h : e.details = c.written digest) :
    readStageRow c.run (some digest) e = .ok e.asStage := by
  rw [readStageRow, h]
  simp only [written_schema, written_run, written_digest, written_details]
  simp [raiseIf, Json.asStr?, Event.asStage, h]

/-- The reader returns every transition, if there are at most 64. -/
theorem Database.StageLog.readRunStages {manifest : Members}
    (h : db.StageLog digestOf run manifest) :
    db.readRunStages digestOf run =
      if 64 < (db.stageEvents run).length then
        .error (.runtime s!"run {run} has too many lifecycle stages")
      else .ok ((db.stageEvents run).map Event.asStage) := by
  have hrows : (db.stageEvents run).mapM
      (readStageRow run (some (Json.get manifest (lit "digest")))) =
        .ok ((db.stageEvents run).map Event.asStage) := by
    refine mapM_eq_ok fun e he => ?_
    obtain ⟨c, rfl, hc⟩ := h.written e he
    exact readStageRow_written hc
  unfold Database.readRunStages
  by_cases hmany : 64 < (db.stageEvents run).length
  · simp only [raiseIf, if_pos hmany]
    rfl
  · rw [if_neg hmany]
    simp only [raiseIf, if_neg hmany, h.verified]
    exact hrows

theorem lookup_filter_ne {α β : Type} [BEq α] [LawfulBEq α] {a b : α} (hne : a ≠ b) :
    ∀ l : List (α × β), (l.filter fun entry => entry.1 != a).lookup b = l.lookup b
  | [] => rfl
  | (k, v) :: l => by
    by_cases hk : k = a
    · subst hk
      have hfalse : (b == k) = false := beq_eq_false_iff_ne.mpr (Ne.symm hne)
      simp [List.lookup_cons, lookup_filter_ne hne l, hfalse]
    · rw [List.filter_cons_of_pos (by simpa using hk), List.lookup_cons, List.lookup_cons,
        lookup_filter_ne hne l]

theorem lookup_keepLatest (latest : List (Text × StageEvent)) (e : StageEvent) (stage : Text) :
    (keepLatest latest e).lookup stage =
      if (Json.get e.payload (lit "stage")).asStr?.getD [] = stage then some e
      else latest.lookup stage := by
  unfold keepLatest
  by_cases h : (Json.get e.payload (lit "stage")).asStr?.getD [] = stage
  · simp [h]
  · have hfalse : (stage == (Json.get e.payload (lit "stage")).asStr?.getD []) = false :=
      beq_eq_false_iff_ne.mpr (Ne.symm h)
    rw [if_neg h, List.lookup_cons, hfalse]
    exact lookup_filter_ne h latest

/-- The state of a stage is its latest transition. -/
theorem lookup_foldl_keepLatest {events : List Event} (stage : Text)
    (h : ∀ e ∈ events, (Json.get e.details (lit "stage")).asStr? ≠ none) :
    ((events.map Event.asStage).foldl keepLatest []).lookup stage =
      ((events.filter (isOfStage stage)).getLast?).map Event.asStage := by
  induction events using List.reverseRecOn with
  | nil => rfl
  | append_singleton events e ih =>
    rw [List.map_append, List.foldl_append, List.map_singleton, List.foldl_cons, List.foldl_nil,
      lookup_keepLatest, ih fun e he => h e (List.mem_append_left _ he), List.filter_append]
    obtain ⟨t, ht⟩ := Option.ne_none_iff_exists'.mp (h e (by simp))
    by_cases hstage : t = stage
    · subst hstage
      simp [Event.asStage, isOfStage, ht]
    · simp [Event.asStage, isOfStage, ht, hstage]

theorem Database.StageLog.readRunStageState {manifest : Members}
    (h : db.StageLog digestOf run manifest) {state : List (Text × StageEvent)} :
    db.readRunStageState digestOf run = .ok state ↔
      (db.stageEvents run).length ≤ 64 ∧
        state = ((db.stageEvents run).map Event.asStage).foldl keepLatest [] := by
  unfold Database.readRunStageState
  rw [h.readRunStages]
  by_cases hmany : 64 < (db.stageEvents run).length
  · simp [hmany, Bind.bind, Except.bind]
  · simp only [if_neg hmany, bind_eq_ok, Except.ok.injEq, pure_eq_ok, exists_eq_left']
    exact ⟨fun heq => ⟨not_lt.mp hmany, heq.symm⟩, fun heq => heq.2.symm⟩

theorem Database.StageLog.lookup {manifest : Members} (h : db.StageLog digestOf run manifest)
    {state : List (Text × StageEvent)} (hstate : db.readRunStageState digestOf run = .ok state)
    (stage : Text) : state.lookup stage = (db.latestStage run stage).map Event.asStage := by
  rw [(h.readRunStageState.mp hstate).2, lookup_foldl_keepLatest]
  · rfl
  · intro e he
    obtain ⟨c, -, hc⟩ := h.written e he
    simp [hc, written_stage, Json.asStr?]

/-! ## Sequences of calls -/

/-- The database after a call; a call that raises is rolled back. -/
def Database.afterStage (digestOf : CanonicalDigest) (db : Database) (c : StageCall) : Database :=
  match db.publishRunStage digestOf c with
  | .ok (_, db') => db'
  | .error _ => db

/-- The database after calls, one after another. -/
def Database.publishStages (digestOf : CanonicalDigest) (db : Database) (calls : List StageCall) :
    Database := calls.foldl (Database.afterStage digestOf) db

/-- A call that leaves the database, or one that returns. -/
theorem afterStage_cases (digestOf : CanonicalDigest) (db : Database) (c : StageCall) :
    db.afterStage digestOf c = db ∨
      ∃ manifest, StageEffect digestOf db (db.afterStage digestOf c) c manifest := by
  unfold Database.afterStage
  cases h : db.publishRunStage digestOf c with
  | error e => exact .inl rfl
  | ok r => exact .inr (publishRunStage_effect h)

theorem Database.StageLog.publishStages {manifest : Members}
    (h : db.StageLog digestOf run manifest) (calls : List StageCall) :
    (db.publishStages digestOf calls).StageLog digestOf run manifest := by
  induction calls generalizing db with
  | nil => exact h
  | cons c calls ih =>
    refine ih ?_
    rcases afterStage_cases digestOf db c with heq | ⟨_, heffect⟩
    · rw [heq]
      exact h
    · exact heffect.stageLog h

/-- The state that is read for a stage has the status and the details of the call. -/
def Database.ReadsBack (digestOf : CanonicalDigest) (db : Database) (c : StageCall) : Prop :=
  ∃ state e, db.readRunStageState digestOf c.run = .ok state ∧ state.lookup c.stage = some e ∧
    Json.get e.payload (lit "status") = .str c.status ∧
    Json.get e.payload (lit "details") = .obj c.selectedDetails

/-- What is read for a stage. -/
def Database.readStage (digestOf : CanonicalDigest) (db : Database) (run : ℤ) (stage : Text) :
    Checked (Option StageEvent) := do
  let state ← db.readRunStageState digestOf run
  pure (state.lookup stage)

/-- Before the call there is room for its event; or its key is used, and the latest transition
of the stage has its status and details. -/
def Database.Recordable (db : Database) (c : StageCall) : Prop :=
  if db.hasStageKey c then
    (db.stageEvents c.run).length ≤ 64 ∧ ∃ e ∈ db.latestStage c.run c.stage,
      Json.get e.details (lit "status") = .str c.status ∧
      Json.get e.details (lit "details") = .obj c.selectedDetails
  else (db.stageEvents c.run).length < 64

theorem Database.StageLog.readsBack_iff {manifest : Members}
    (h : db.StageLog digestOf c.run manifest) :
    db.ReadsBack digestOf c ↔ (db.stageEvents c.run).length ≤ 64 ∧
      ∃ e ∈ db.latestStage c.run c.stage, Json.get e.details (lit "status") = .str c.status ∧
        Json.get e.details (lit "details") = .obj c.selectedDetails := by
  constructor
  · rintro ⟨state, e, hread, hlookup, hstatus, hdetails⟩
    rw [h.lookup hread, Option.map_eq_some_iff] at hlookup
    obtain ⟨e, he, rfl⟩ := hlookup
    exact ⟨(h.readRunStageState.mp hread).1, e, he, hstatus, hdetails⟩
  · rintro ⟨hlength, e, he, hstatus, hdetails⟩
    have hread := h.readRunStageState.mpr ⟨hlength, rfl⟩
    refine ⟨_, e.asStage, hread, ?_, hstatus, hdetails⟩
    rw [h.lookup hread, he]
    rfl

theorem latestStage_append {e : Event} {digest : Json} (he : e.details = c.written digest)
    (heq : db'.stageEvents run = db.stageEvents run ++ [e]) (stage : Text) :
    db'.latestStage run stage = if stage = c.stage then some e else db.latestStage run stage := by
  unfold Database.latestStage
  rw [heq, List.filter_append]
  by_cases hstage : stage = c.stage
  · simp [hstage, isOfStage, he, written_stage, Json.asStr?]
  · simp [Ne.symm hstage, hstage, isOfStage, he, written_stage, Json.asStr?]

/-- A call that returns is read back exactly when it is recordable. -/
theorem StageEffect.readsBack_iff {manifest manifest' : Members}
    (h : StageEffect digestOf db db' c manifest') (hlog : db.StageLog digestOf c.run manifest) :
    db'.ReadsBack digestOf c ↔ db.Recordable c := by
  rw [(h.stageLog hlog).readsBack_iff, Database.Recordable]
  rcases h.events with ⟨hkey, heq⟩ | ⟨hkey, e, he, heq⟩
  · rw [if_pos hkey, Database.latestStage, heq]
    rfl
  · rw [if_neg (by simp [hkey]), latestStage_append he heq, if_pos rfl, heq]
    constructor
    · rintro ⟨hlength, -⟩
      simpa using hlength
    · intro hlength
      refine ⟨by simpa using hlength, e, rfl, ?_, ?_⟩
      · rw [he, written_status]
      · rw [he, written_details]

/-- A call leaves the latest transition of every stage but its own, and a terminal status. -/
theorem StageEffect.latest_other {manifest : Members} (h : StageEffect digestOf db db' c manifest)
    {stage : Text} (hne : ¬ (run = c.run ∧ stage = c.stage)) :
    db'.latestStage run stage = db.latestStage run stage := by
  by_cases hrun : run = c.run
  · subst hrun
    rcases h.events with ⟨-, heq⟩ | ⟨-, e, he, heq⟩
    · rw [Database.latestStage, heq]
      rfl
    · rw [latestStage_append he heq, if_neg fun hs => hne ⟨rfl, hs⟩]
  · rw [Database.latestStage, h.others run hrun]
    rfl

/-- The status of the latest transition of a stage. -/
def Database.latestStatus (db : Database) (run : ℤ) (stage : Text) : Option Json :=
  (db.latestStage run stage).map fun e => Json.get e.details (lit "status")

theorem afterStage_terminal {stage status : Text} (hterminal : isTerminalStage status = true)
    (h : db.latestStatus run stage = some (.str status)) (c : StageCall) :
    (db.afterStage digestOf c).latestStatus run stage = some (.str status) := by
  rcases afterStage_cases digestOf db c with heq | ⟨manifest, heffect⟩
  · rw [heq]
    exact h
  · by_cases hown : run = c.run ∧ stage = c.stage
    · obtain ⟨rfl, rfl⟩ := hown
      rcases heffect.events with ⟨-, heq⟩ | ⟨-, e, he, heq⟩
      · rw [Database.latestStatus, Database.latestStage, heq]
        exact h
      · obtain ⟨old, hold, hstatus⟩ := Option.map_eq_some_iff.mp h
        have hsame := heffect.latest old hold status (by rw [hstatus]; rfl) hterminal
        rw [Database.latestStatus, latestStage_append he heq, if_pos rfl, Option.map_some, he,
          written_status, hsame]
    · rw [Database.latestStatus, heffect.latest_other hown]
      exact h

theorem publishStages_terminal {stage status : Text} (hterminal : isTerminalStage status = true)
    (h : db.latestStatus run stage = some (.str status)) (calls : List StageCall) :
    (db.publishStages digestOf calls).latestStatus run stage = some (.str status) := by
  induction calls generalizing db with
  | nil => exact h
  | cons c calls ih => exact ih (afterStage_terminal hterminal h c)

/-- What is read for a stage is its latest transition. -/
theorem Database.StageLog.readStage {manifest : Members} (h : db.StageLog digestOf run manifest)
    (hlength : (db.stageEvents run).length ≤ 64) (stage : Text) :
    db.readStage digestOf run stage = .ok ((db.latestStage run stage).map Event.asStage) := by
  have hread := h.readRunStageState.mpr ⟨hlength, rfl⟩
  rw [Database.readStage, hread]
  exact congrArg Except.ok (h.lookup hread stage)

theorem Database.StageLog.latest_of_readStage {manifest : Members}
    (h : db.StageLog digestOf run manifest) {stage : Text} {found : Option StageEvent}
    (hread : db.readStage digestOf run stage = .ok found) :
    db.latestStatus run stage = found.map fun e => Json.get e.payload (lit "status") := by
  rw [Database.readStage, bind_eq_ok] at hread
  obtain ⟨state, hstate, hread⟩ := hread
  rw [pure_eq_ok, h.lookup hstate] at hread
  rw [← hread, Option.map_map]
  rfl

/-- A call that is recordable leaves room for the reader. -/
theorem StageEffect.length_le {manifest : Members} (h : StageEffect digestOf db db' c manifest)
    (hrec : db.Recordable c) :
    (db.stageEvents c.run).length ≤ 64 ∧ (db'.stageEvents c.run).length ≤ 64 := by
  rw [Database.Recordable] at hrec
  rcases h.events with ⟨hkey, heq⟩ | ⟨hkey, e, -, heq⟩
  · rw [if_pos hkey] at hrec
    exact ⟨hrec.1, heq ▸ hrec.1⟩
  · rw [if_neg (by simp [hkey])] at hrec
    rw [heq, List.length_append, List.length_singleton]
    exact ⟨hrec.le, hrec⟩

/-- **Stages read back as written, up to two limits.**  After any calls, a call that returns is
read back, with every other stage as it was, if and only if there is room for its event, or its
key is used and the latest transition of the stage is the same; a stage that reads completed or
skipped never reads otherwise; and a call leaves what is read of every other run. -/
theorem stages_read_back (digestOf : CanonicalDigest) (start : Database) (run : ℤ)
    (manifest : Members) (hmanifest : start.readRunManifest digestOf run = .ok (some manifest))
    (hnew : start.stageEvents run = []) (calls : List StageCall) :
    let db := start.publishStages digestOf calls
    (∀ c b db', c.run = run → db.publishRunStage digestOf c = .ok (b, db') →
      ((db'.ReadsBack digestOf c ∧ ∀ stage, stage ≠ c.stage →
        db'.readStage digestOf run stage = db.readStage digestOf run stage) ↔ db.Recordable c)) ∧
    (∀ stage e later found, db.readStage digestOf run stage = .ok (some e) →
      ∀ status, Json.get e.payload (lit "status") = .str status →
      isTerminalStage status = true →
      (db.publishStages digestOf later).readStage digestOf run stage = .ok found →
      ∃ e' ∈ found, Json.get e'.payload (lit "status") = .str status) ∧
    ∀ c b db', c.run ≠ run → db.publishRunStage digestOf c = .ok (b, db') →
      ∀ stage, db'.readStage digestOf run stage = db.readStage digestOf run stage := by
  intro db
  have hlog : db.StageLog digestOf run manifest := by
    refine Database.StageLog.publishStages ⟨hmanifest, ?_⟩ calls
    rw [hnew]
    exact fun _ h => nomatch h
  refine ⟨?_, ?_, ?_⟩
  · rintro c b db' rfl hpublish
    obtain ⟨_, heffect⟩ := publishRunStage_effect hpublish
    refine ⟨fun h => (heffect.readsBack_iff hlog).mp h.1, fun hrec => ?_⟩
    obtain ⟨hlength, hlength'⟩ := heffect.length_le hrec
    refine ⟨(heffect.readsBack_iff hlog).mpr hrec, fun stage hne => ?_⟩
    rw [(heffect.stageLog hlog).readStage hlength', hlog.readStage hlength,
      heffect.latest_other fun h => hne h.2]
  · intro stage e later found hread status hstatus hterminal hlater
    have hkept : (db.publishStages digestOf later).latestStatus run stage = some (.str status) :=
      publishStages_terminal hterminal (hstatus ▸ hlog.latest_of_readStage hread) later
    have hnow := (hlog.publishStages later).latest_of_readStage hlater
    exact Option.map_eq_some_iff.mp (hnow.symm.trans hkept)
  · intro c b db' hrun hpublish stage
    obtain ⟨_, heffect⟩ := publishRunStage_effect hpublish
    have hsame : db'.readRunStages digestOf run = db.readRunStages digestOf run := by
      unfold Database.readRunStages
      rw [heffect.others run (Ne.symm hrun), readRunManifest_congr (heffect.manifests run)]
    unfold Database.readStage Database.readRunStageState
    rw [hsame]

/-! ## A status that is entered again -/

/-- The digest of the manifest below. -/
def smallDigest : CanonicalDigest := fun _ =>
  lit "sha256:e9029c072a1ade649f7435a618c84dd87e583135df7d359a5531dd9f8a84fa21"

def smallManifest : Members :=
  [(lit "schema", .str runManifestSchema),
   (lit "run_id", .int 1),
   (lit "run_kind", .str (lit "initial")),
   (lit "root", .str (lit "/corpus")),
   (lit "root_identity", .arr [.int 1, .int 2, .int 3]),
   (lit "selected_routes", .arr []),
   (lit "route_capabilities", .obj []),
   (lit "configuration", .obj []),
   (lit "budget", .obj []),
   (lit "input_snapshot", .obj []),
   (lit "source_run_id", .null),
   (lit "digest", .str (smallDigest []))]

/-- A running run with its manifest. -/
def manifestRun : Database :=
  Database.append ⟨(∅ : Table ℤ RunRow).insert 1 ⟨.running, .initial, none, none⟩, [],
    ordered_nil⟩ 1 .manifest manifestPublished smallManifest

/-- A transition of one stage, with the default key. -/
def semanticStage (status : StageStatus) : StageCall :=
  ⟨1, lit "semantic", status.text, none, none, none⟩

theorem manifestRun_verified :
    manifestRun.readRunManifest smallDigest 1 = .ok (some smallManifest) := by
  have hrows : (manifestRun.eventsOf 1 .manifest).filter (fun e => e.message == manifestPublished) =
      [⟨1, 1, .manifest, manifestPublished, smallManifest⟩] := rfl
  rw [Database.readRunManifest, hrows]
  rfl

theorem manifestRun_log (calls : List StageCall) :
    (manifestRun.publishStages smallDigest calls).StageLog smallDigest 1 smallManifest := by
  refine Database.StageLog.publishStages ⟨manifestRun_verified, ?_⟩ calls
  exact fun _ h => nomatch h

/-- The database in which the stage was interrupted. -/
def interruptedRun : Database :=
  manifestRun.publishStages smallDigest [semanticStage .running, semanticStage .interrupted]

/-- A stage that runs, is interrupted and runs again is read as interrupted: the third call
returns and writes nothing. -/
theorem reentered_stage_not_read_back :
    ∃ db', interruptedRun.publishRunStage smallDigest (semanticStage .running) = .ok (false, db') ∧
      ¬ db'.ReadsBack smallDigest (semanticStage .running) := by
  have hresult : ((interruptedRun.publishRunStage smallDigest (semanticStage .running)).toOption.map
      Prod.fst) = some false := by decide +kernel
  cases hpublish : interruptedRun.publishRunStage smallDigest (semanticStage .running) with
  | error e =>
    rw [hpublish] at hresult
    cases hresult
  | ok r =>
    obtain ⟨b, db'⟩ := r
    rw [hpublish] at hresult
    obtain rfl : b = false := Option.some_inj.mp hresult
    refine ⟨db', rfl, fun hback => ?_⟩
    obtain ⟨_, heffect⟩ := publishRunStage_effect hpublish
    have hrec := (heffect.readsBack_iff (manifestRun_log _)).mp hback
    have hkey : interruptedRun.hasStageKey (semanticStage .running) = true := by decide +kernel
    have hlatest : (interruptedRun.latestStage 1 (lit "semantic")).map (fun e =>
        (Json.get e.details (lit "status")).asStr?) = some (some (lit "interrupted")) := by
      decide +kernel
    rw [Database.Recordable, if_pos hkey] at hrec
    obtain ⟨-, e, he, hstatus, -⟩ := hrec
    rw [show interruptedRun.latestStage 1 (lit "semantic") = some e from he, Option.map_some,
      hstatus, Option.some_inj] at hlatest
    exact absurd hlatest (by decide)

/-- The first two calls are read back. -/
theorem stages_read_back_interrupted :
    (manifestRun.publishStages smallDigest [semanticStage .running]).Recordable
        (semanticStage .interrupted) ∧
      ∃ b db', (manifestRun.publishStages smallDigest [semanticStage .running]).publishRunStage
          smallDigest (semanticStage .interrupted) = .ok (b, db') ∧
        db'.ReadsBack smallDigest (semanticStage .interrupted) := by
  have hkey : (manifestRun.publishStages smallDigest [semanticStage .running]).hasStageKey
      (semanticStage .interrupted) = false := by decide +kernel
  have hroom : ((manifestRun.publishStages smallDigest [semanticStage .running]).stageEvents
      1).length < 64 := by decide +kernel
  have hrec : (manifestRun.publishStages smallDigest [semanticStage .running]).Recordable
      (semanticStage .interrupted) := by
    rw [Database.Recordable, hkey]
    exact hroom
  refine ⟨hrec, ?_⟩
  have hresult : ((manifestRun.publishStages smallDigest [semanticStage .running]).publishRunStage
      smallDigest (semanticStage .interrupted)).toOption.isSome = true := by decide +kernel
  cases hpublish : (manifestRun.publishStages smallDigest [semanticStage .running]).publishRunStage
      smallDigest (semanticStage .interrupted) with
  | error e =>
    rw [hpublish] at hresult
    cases hresult
  | ok r =>
    refine ⟨r.1, r.2, rfl, ?_⟩
    exact (((stages_read_back smallDigest manifestRun 1 smallManifest manifestRun_verified rfl
      [semanticStage .running]).1 (semanticStage .interrupted) r.1 r.2 rfl hpublish).mpr hrec).1

end Framework
end Neocortex
