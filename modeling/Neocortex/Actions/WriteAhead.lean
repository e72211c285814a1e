import Neocortex.Actions.Frontier

/-!
# Runs of Trash batches

Any number of `_apply_trash_batch` calls, each carried to its end or cut behind any of its writes,
with a backend that is honest.

* `ledger_write_ahead`: the ledger stays on the safe side of the Trash along every such run;
* `dry_run_uncounted`: a call that does not apply counts only what is protected;
* `interrupted_action_skipped`: why the calls of a run are fresh.
-/

namespace Neocortex
namespace Actions

open Python Checks Durable TrashCall

/-- One call, carried to its end or cut. -/
def TrashStep (o : Outside) (w t : World) : Prop :=
  ∃ call, Honest call ∧ Fresh call w ∧ t ∈ w :: (applyTrashBatch o call w).writes

/-- Any number of calls. -/
def TrashRun (o : Outside) : World → World → Prop := Relation.ReflTransGen (TrashStep o)

variable {o : Outside} {w₀ w t : World}

/-- The invariant at the beginning of a call. -/
theorem World.Ahead.holds (h : w.Ahead) (call : TrashCall) : Holds o call w w :=
  ⟨h, .refl _, fun _ hr _ => .inl hr⟩

theorem TrashStep.ahead (h : TrashStep o w t) (hw : w.Ahead) :
    t.Ahead ∧ w.ledger.Extends t.ledger := by
  obtain ⟨call, hhonest, hfresh, ht⟩ := h
  rcases List.mem_cons.mp ht with rfl | ht
  · exact ⟨hw, .refl _⟩
  · have hholds := (keeps_applyTrashBatch (hw.holds call) hfresh hhonest).1 t ht
    exact ⟨hholds.ahead, hholds.kept⟩

theorem TrashRun.ahead (h : TrashRun o w t) (hw : w.Ahead) :
    t.Ahead ∧ w.ledger.Extends t.ledger := by
  induction h with
  | refl => exact ⟨hw, .refl _⟩
  | tail _ hstep ih =>
    obtain ⟨hahead, hextends⟩ := hstep.ahead ih.1
    exact ⟨hahead, ih.2.trans hextends⟩

/-- A status without effect is not that of a file that is gone. -/
theorem World.Ahead.kept (h : w.Ahead) {r : ActionRow} (hr : r ∈ w.ledger.actions)
    (hstatus : r.status = .planned ∨ r.status = .skipped ∨ r.status = .failed) :
    ¬ w.Removed r.actionId := by
  intro hgone
  obtain ⟨x, hx, hid⟩ := List.mem_map.mp hgone
  obtain ⟨a, ha, haid, hcrossed, -⟩ := h.removals x hx
  obtain rfl := h.sound.ids.unique.eq ha hr (haid.trans hid)
  rcases hcrossed with hc | hc | hc <;> rw [hc] at hstatus <;> simp at hstatus

/-- **The ledger is write-ahead and faithful.** -/
theorem ledger_write_ahead (hsound : w₀.ledger.Sound) (hnone : w₀.removed = [])
    (hrun : TrashRun o w₀ w) :
    (∀ x ∈ w.removed, ∃ r, w.ledger.action? x.1 = some r ∧ r.status.Crossed ∧
      ∃ text, x.2.identityText? r.spec.sourcePath = some text ∧
        r.expectedIdentityJson = some text) ∧
    (∀ r ∈ w.ledger.actions, r.status = .planned ∨ r.status = .skipped ∨ r.status = .failed →
      ¬ w.Removed r.actionId) ∧
    (∀ r ∈ w.ledger.actions, Ledger.Path none (w.ledger.eventsOf r.actionId) r.status) ∧
    (∀ t, TrashRun o w t → w.ledger.Extends t.ledger) ∧
    ∀ call, Honest call → Fresh call w →
      (∀ t ∈ (applyTrashBatch o call w).writes, ∀ r ∈ t.ledger.actions, r.status = .applied →
        r ∈ w.ledger.actions ∨ call.Receipted o r) ∧
      ∀ n, (applyTrashBatch o call w).result = .ok n → call.apply = true →
        call.isRedlist = false → n.1 + n.2.1 + n.2.2 = call.admittedBatch.length := by
  have hstart : w₀.Ahead := ⟨hsound, fun x hx => by rw [hnone] at hx; cases hx⟩
  have hw : w.Ahead := (hrun.ahead hstart).1
  refine ⟨fun x hx => ?_, fun r hr => hw.kept hr, hw.sound.history, fun t ht => (ht.ahead hw).2,
    fun call hhonest hfresh => ?_⟩
  · obtain ⟨r, hr, hid, hcrossed, hidentity⟩ := hw.removals x hx
    exact ⟨r, (Ledger.action?_eq_some hw.sound.ids).mpr ⟨hr, hid⟩, hcrossed, hidentity⟩
  · obtain ⟨hwrites, hend⟩ := keeps_applyTrashBatch (hw.holds (o := o) call) hfresh hhonest
    refine ⟨fun t ht => (hwrites t ht).receipted, fun n hn => ?_⟩
    rw [hn] at hend
    exact hend.2

/-! ## Calls that show it -/

/-- A parameter for each thing that is taken from outside. -/
def plainOutside : Outside where
  keyOf _ spec := spec.sourcePath
  pathKey := id
  casefold := id
  floatIsOne _ := false

def openBoundary : Ledger.Boundary where
  policy _ := .ok ⟨lit "write", none, none, none, none⟩
  before := .ok ()
  after := .ok ()

/-- The empty file `/c/f`. -/
def emptyFile : FileSnapshot where
  path := lit "/c/f"
  volumeId := 1
  fileId := 2
  size := 0
  mtimeNs := 3
  birthtimeNs := 4

/-- The receipt of its removal. -/
def emptyFileReceipt : Text :=
  lit "\x7b\"schema_version\":1,\"receipt_type\":\"successful_return_and_observation\"," ++
    lit "\"operation\":\"trash\",\"source_absent\":true,\"source_digest\":\"d\"," ++
    lit "\"source_path\":\"/c/f\"\x7d"

/-- The world admits the file, and the backend removes it. -/
def removesIt : Answers where
  protectedPathReason := none
  outsideRoot := false
  guardReason := none
  preservationReason := none
  preflight := .ok ()
  revalidation := .ok ()
  checkpoint := .ok ()
  sourceDigest := .ok (lit "d")
  filesEqualExact := .ok true
  boundary := openBoundary
  removes := true
  reply := .outcome ⟨.applied, lit "ok", none, some emptyFileReceipt⟩
  verify _ _ := .ok ()
  fault _ := none

/-- The file alone, one by one. -/
def emptyFileCall (apply : Bool) (answers : Answers) : TrashCall where
  runId := 1
  apply := apply
  maxFileBytes := none
  backend := some ⟨false, none⟩
  actionType := lit "trash_empty_file"
  batch := [(lit "/c/f", lit "empty")]
  expectedSnapshots := some [some emptyFile]
  referenceSnapshots := none
  deferReconciliation := false
  answers _ := answers
  opening := .ok ()
  reservation := .ok ()
  guardReasons := .ok ()
  beginBoundary := openBoundary
  frontier := .ok ()
  checkpoint := .ok ()
  batchBoundary := openBoundary
  reconciliation := .ok ()
  fault _ := none

def emptyWorld : World := ⟨⟨[], []⟩, [], [], []⟩

/-- The world behind the call. -/
def removedWorld : World :=
  (applyTrashBatch plainOutside (emptyFileCall true removesIt) emptyWorld).final emptyWorld

theorem sound_nil : (⟨[], []⟩ : Ledger).Sound :=
  ⟨⟨List.Pairwise.nil, fun _ hr => nomatch hr⟩, (fun _ he => nomatch he), fun _ hr => nomatch hr⟩

theorem fresh_emptyWorld (apply : Bool) (answers : Answers) :
    Fresh (emptyFileCall apply answers) emptyWorld :=
  ⟨List.nodup_singleton _, fun _ hr => nomatch hr⟩

theorem honest_removesIt (apply : Bool) : Honest (emptyFileCall apply removesIt) := by
  refine ⟨fun _ outcome houtcome => ?_, ?_⟩
  · obtain rfl := Reply.outcome.inj houtcome
    exact ⟨(fun h => nomatch h), fun _ => rfl⟩
  · rintro backend ⟨⟩ batch ⟨⟩

theorem ledger_write_ahead_removed :
    removedWorld.removed = [(1, emptyFile)] ∧
      ∃ r, removedWorld.ledger.action? 1 = some r ∧ r.status.Crossed := by
  have hremoved : removedWorld.removed = [(1, emptyFile)] := by decide +kernel
  have hstep : TrashStep plainOutside emptyWorld removedWorld :=
    ⟨_, honest_removesIt true, fresh_emptyWorld _ _, Outcome.final_mem _ _⟩
  obtain ⟨hremovals, -⟩ := ledger_write_ahead sound_nil rfl (.single hstep)
  obtain ⟨r, hr, hcrossed, -⟩ := hremovals (1, emptyFile) (by rw [hremoved]; exact List.mem_cons_self)
  exact ⟨hremoved, r, hr, hcrossed⟩

/-- Without `apply`, a candidate that is admitted is planned and not counted. -/
theorem dry_run_uncounted :
    ¬ ∀ (o : Outside) (call : TrashCall) (w : World) (n : ℕ × ℕ × ℕ), Honest call →
      Fresh call w → (applyTrashBatch o call w).result = .ok n → call.isRedlist = false →
        n.1 + n.2.1 + n.2.2 = call.admittedBatch.length := by
  intro h
  have hresult : (applyTrashBatch plainOutside (emptyFileCall false removesIt) emptyWorld).result =
      .ok (0, 0, 0) := by
    rfl
  have hcount := h plainOutside (emptyFileCall false removesIt) emptyWorld (0, 0, 0)
    (honest_removesIt false) (fresh_emptyWorld _ _) hresult (by decide)
  exact absurd hcount (by decide)

/-- The file has changed when the second call comes to it. -/
def findsItChanged : Answers :=
  { removesIt with
    preflight := .error ⟨.runtime, lit "metadata changed after the trash candidate was planned"⟩ }

/-- The first call is cut behind the removal, before its receipt is confirmed; a second call takes
the open action up, finds another file at the path, and skips the action.  The row then says that
nothing was done. -/
theorem interrupted_action_skipped :
    ∃ t ∈ (applyTrashBatch plainOutside (emptyFileCall true removesIt) emptyWorld).writes,
      let u := (applyTrashBatch plainOutside (emptyFileCall true findsItChanged) t).final t
      u.Removed 1 ∧ (u.ledger.action? 1).map ActionRow.status = some .skipped := by
  refine ⟨_, List.getElem_mem (n := 2) (by decide +kernel), ?_⟩
  unfold World.Removed
  decide +kernel

end Actions
end Neocortex
