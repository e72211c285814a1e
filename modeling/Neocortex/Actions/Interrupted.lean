import Neocortex.Actions.Recovery

/-!
# What recovery says of an interrupted action

* `parseExpectedIdentity_written`: the identity that was written at the frontier reads back;
* `classification_trash` and `classification_move`: the classification, from what is observed;
* `Place.Step`: the renames of the two effects, behind any of which a crash may leave the object;
* `Interrupted.classification`: the classification is the truth, wherever a crash left the action;
* `listPages_eq`: pages list every open action once.
-/

namespace Neocortex
namespace Actions

open Python Checks

variable {paths : Paths} {disk : Disk} {row : ActionRow} {object : Entry}

/-! ## The identity reads back -/

/-- The identity of an object, as it is written at the frontier. -/
def Entry.identity (o : Entry) : ExpectedIdentity :=
  ⟨o.volumeId, o.fileId, o.size, o.mtimeNs, o.birthtimeNs, none⟩

theorem sortKeys_identityDocument (o : Entry) (sourcePath : Text) (targetPath : Option Text) :
    sortKeys (identityDocument o sourcePath targetPath) =
      identityDocument o sourcePath targetPath := by
  have htarget : sortKeys (textOrNull targetPath) = textOrNull targetPath := by
    cases targetPath <;> rfl
  unfold identityDocument
  simp only [sortKeys, sortKeysMembers, htarget]
  rw [List.Pairwise.insertionSort_eq, List.Pairwise.insertionSort_eq]
  · simp only [List.pairwise_cons, List.mem_cons, List.not_mem_nil, or_false, forall_eq_or_imp,
      forall_eq, false_implies, implies_true, List.Pairwise.nil, and_true]
    decide
  · simp only [List.pairwise_cons, List.mem_cons, List.not_mem_nil, or_false, forall_eq_or_imp,
      forall_eq, false_implies, implies_true, List.Pairwise.nil, and_true]
    decide

theorem readIdentity_identityDocument (o : Entry) (sourcePath : Text) (targetPath : Option Text) :
    readIdentity (identityDocument o sourcePath targetPath) = some (1, o.identity) := by
  have h : readIdentity (identityDocument o sourcePath targetPath) =
      (parseHexadecimal (hexadecimal o.volumeId)).bind fun v =>
        (parseHexadecimal (hexadecimal o.fileId)).bind fun f =>
          some (1, ⟨v, f, o.size, o.mtimeNs, o.birthtimeNs, none⟩) := rfl
  rw [h, parseHexadecimal_hexadecimal, parseHexadecimal_hexadecimal]
  rfl

theorem writable_identityDocument {o : Entry} {sourcePath : Text} {targetPath : Option Text}
    (h : intsFit (identityDocument o sourcePath targetPath) = true) :
    writable (identityDocument o sourcePath targetPath) = true := by
  have htarget : writable (textOrNull targetPath) = true := by cases targetPath <;> rfl
  simp only [identityDocument, intsFit, intsFitMembers, Bool.and_eq_true] at h
  simp only [identityDocument, writable, writableMembers, htarget, Bool.and_eq_true]
  tauto

variable (paths) in
/-- What `_parse_expected_identity` makes of the evidence that was written at the frontier. -/
theorem parseExpectedIdentity_written {sourcePath : Text} {targetPath : Option Text} {text : Text}
    (h : expectedIdentityJson object sourcePath targetPath = some text) :
    parseExpectedIdentity paths (some text) sourcePath targetPath =
      if object.mtimeNs < 0 ∨ object.birthtimeNs < -1 then
        .error (lit "expected physical identity evidence is unsupported")
      else .ok object.identity := by
  have hfit : intsFit (identityDocument object sourcePath targetPath) = true := by
    unfold expectedIdentityJson dumpsUnicode at h
    split_ifs at h with hfit
    exact hfit
  have hloads : loads text = some (identityDocument object sourcePath targetPath) := by
    rw [loads_dumpsUnicode (writable_identityDocument hfit) h, sortKeys_identityDocument]
  have hpaths : readPaths (identityDocument object sourcePath targetPath) =
      (sourcePath, targetPath) := by
    cases targetPath <;> rfl
  simp only [parseExpectedIdentity, hloads, readIdentity_identityDocument, hpaths, ne_eq,
    not_true_eq_false, false_or, if_false]
  have hvolume : ¬ object.identity.volumeId < 0 := not_lt.mpr (Int.natCast_nonneg _)
  have hfile : ¬ object.identity.fileId < 0 := not_lt.mpr (Int.natCast_nonneg _)
  have hsize : ¬ object.identity.size < 0 := not_lt.mpr (Int.natCast_nonneg _)
  simp only [hvolume, hfile, hsize, false_or]
  rfl

/-! ## Observations -/

/-- An object that recovery can recognise. -/
structure Entry.Checkable (o : Entry) : Prop where
  regular : o.kind = .regular
  single : o.nlink = 1
  mtime : 0 ≤ o.mtimeNs
  birthtime : -1 ≤ o.birthtimeNs

theorem Entry.matches_identity (o : Entry) : o.matches o.identity = true := by
  simp [Entry.matches, Entry.identity]

theorem observePath_object {path : Text} (hfault : disk.fault path = none)
    (hat : disk.at? path = some object) (h : object.Checkable) :
    observePath disk path object.identity = .expected := by
  simp [observePath, hfault, hat, h.regular, h.single, object.matches_identity]
  rfl

theorem observePath_missing {path : Text} (hfault : disk.fault path = none)
    (hat : disk.at? path = none) : observePath disk path object.identity = .missing := by
  simp [observePath, hfault, hat]

/-- What is observed to be missing is missing. -/
theorem at?_of_missing {path : Text} {e : ExpectedIdentity}
    (h : observePath disk path e = .missing) : disk.fault path = none ∧ disk.at? path = none := by
  unfold observePath at h
  split at h
  · cases h
  next hfault =>
    split at h
    next hat => exact ⟨hfault, hat⟩
    next =>
      split_ifs at h
      split at h
      · cases h
      · split at h
        · cases h
        · split_ifs at h

/-- What is observed as expected is a regular file with one link that can be examined. -/
theorem checkable_of_expected {path : Text} {e : ExpectedIdentity}
    (h : observePath disk path e = .expected) :
    disk.fault path = none ∧ ∃ c, disk.at? path = some c ∧ c.kind = .regular ∧ c.nlink = 1 ∧
      c.matches e = true := by
  unfold observePath at h
  split at h
  · cases h
  next hfault =>
    split at h
    · cases h
    next c hat =>
      split_ifs at h with hkind hlink hmatches
      refine ⟨hfault, c, hat, not_not.mp hkind, not_not.mp hlink, ?_⟩
      simpa using hmatches

/-! ## Classifications -/

/-- An action of the two kinds that are classified by their effect. -/
inductive Form (row : ActionRow) : Prop where
  | trash (hkind : isTrash row = true) (htarget : row.spec.targetPath = none)
  | move (hkind : isTrash row = false) (hrestore : row.spec.actionType ≠ lit "restore_curation")
      (target : Text) (htarget : row.spec.targetPath = some target)

theorem actionType_ne_of_isTrash (h : isTrash row = true) :
    row.spec.actionType ≠ lit "restore_curation" := by
  intro heq
  rw [isTrash, heq] at h
  exact absurd h (by decide)

variable (disk) in
theorem classification_trash {e : ExpectedIdentity}
    (hparse : parseExpectedIdentity paths row.expectedIdentityJson row.spec.sourcePath
      row.spec.targetPath = .ok e) (hkind : isTrash row = true) :
    ((classifyRow paths disk row).classification = .notPerformed ↔
        observePath disk row.spec.sourcePath e = .expected) ∧
      ((classifyRow paths disk row).classification = .confirmed →
        observePath disk row.spec.sourcePath e = .missing ∧
          validSuccessReceipt paths disk "trash" row e = true) := by
  unfold classifyRow
  rw [hparse]
  dsimp only
  cases hsource : observePath disk row.spec.sourcePath e with
  | error text => simp [impossibleResult, result]
  | expected =>
    dsimp only
    rw [if_neg (actionType_ne_of_isTrash hkind), if_pos hkind]
    simp [classifyTrash, notPerformedResult, result]
  | different detail =>
    dsimp only
    rw [if_neg (actionType_ne_of_isTrash hkind), if_pos hkind]
    simp [classifyTrash, ambiguousResult, result]
  | missing =>
    dsimp only
    rw [if_neg (actionType_ne_of_isTrash hkind), if_pos hkind]
    by_cases hreceipt : validSuccessReceipt paths disk "trash" row e = true
    · simp [classifyTrash, hreceipt, confirmedResult, result]
    · simp [classifyTrash, hreceipt, ambiguousResult, result]

theorem classifyMove_classification {source target : Observed} :
    ((classifyMove row source target).classification = .notPerformed ↔
        source = .expected ∧ target = .missing) ∧
      ((classifyMove row source target).classification = .confirmed →
        source = .missing ∧ target = .expected) := by
  unfold classifyMove
  by_cases hconfirmed : source = .missing ∧ target = .expected
  · obtain ⟨rfl, rfl⟩ := hconfirmed
    simp [confirmedResult, result]
  · rw [if_neg hconfirmed]
    by_cases hnot : source = .expected ∧ target = .missing
    · simp [notPerformedResult, result, hnot]
    · simp [ambiguousResult, result, hnot]

variable (disk) in
theorem classification_move {e : ExpectedIdentity} {target : Text}
    (hparse : parseExpectedIdentity paths row.expectedIdentityJson row.spec.sourcePath
      row.spec.targetPath = .ok e) (hkind : isTrash row = false)
    (hrestore : row.spec.actionType ≠ lit "restore_curation")
    (htarget : row.spec.targetPath = some target) :
    ((classifyRow paths disk row).classification = .notPerformed ↔
        observePath disk row.spec.sourcePath e = .expected ∧
          observePath disk target e = .missing) ∧
      ((classifyRow paths disk row).classification = .confirmed →
        observePath disk row.spec.sourcePath e = .missing ∧
          observePath disk target e = .expected) := by
  unfold classifyRow
  rw [hparse]
  dsimp only
  cases hsource : observePath disk row.spec.sourcePath e with
  | error text => simp [impossibleResult, result]
  | _ =>
    all_goals
      dsimp only
      rw [if_neg hrestore, if_neg (by rw [hkind]; decide), htarget]
      dsimp only
      cases hobserved : observePath disk target e with
      | error text => simp [impossibleResult, result]
      | _ => exact classifyMove_classification

/-- A receipt of the Trash is valid only if its evidence verifies. -/
theorem verified_of_validSuccessReceipt {operation : String} {e : ExpectedIdentity}
    (hkind : isTrash row = true) (h : validSuccessReceipt paths disk operation row e = true) :
    ∃ evidence digest c,
      verifyTrashReceiptEvidence paths disk evidence row.spec.sourcePath e digest = .ok c := by
  unfold validSuccessReceipt at h
  split at h
  · cases h
  · split at h
    next receipt _ =>
      simp only [Bool.and_eq_true, hkind, if_true] at h
      obtain ⟨-, h⟩ := h
      split at h
      next digest _ =>
        simp only [Bool.and_eq_true] at h
        cases hverify : verifyTrashReceiptEvidence paths disk (Json.get receipt (lit "trash"))
            row.spec.sourcePath e digest with
        | ok c => exact ⟨_, digest, c, hverify⟩
        | error failure =>
          rw [hverify] at h
          cases h.2
      next => cases h
    next => cases h

/-! ## Interrupted actions -/

/-- Where an action has its object. -/
inductive Place where
  | source
  /-- In a private directory beside the source. -/
  | claimed (path : Text)
  /-- In the `files` of a Trash. -/
  | trashed (root : PurePath) (name : Text)
  | target (path : Text)

/-- A path that `_claim_source` gives the object of a source. -/
def IsClaim (sourcePath path : Text) : Prop :=
  ∃ suffix, path = (((PurePath.of sourcePath).parent.child
    (lit ".neocortex-kio-claim-" ++ suffix)).child (PurePath.of sourcePath).name).text

/-- One rename of the object. -/
inductive Place.Step (row : ActionRow) : Place → Place → Prop where
  /-- `_claim_source`. -/
  | claim {path : Text} (hkind : isTrash row = true) (hclaim : IsClaim row.spec.sourcePath path) :
      Step row .source (.claimed path)
  /-- `_restore_claim`. -/
  | restore {path : Text} (hkind : isTrash row = true) : Step row (.claimed path) .source
  /-- KIO moves the claim that it is given. -/
  | move {path name : Text} {root : PurePath} (hkind : isTrash row = true)
      (hroot : root.isAbsolute = true) : Step row (.claimed path) (.trashed root name)
  /-- KIO moves the source itself, as `move_to_trash` tells it. -/
  | moveToTrash {name : Text} {root : PurePath} (hkind : isTrash row = true)
      (hroot : root.isAbsolute = true) : Step row .source (.trashed root name)
  /-- The rename of a move. -/
  | rename {target : Text} (hkind : isTrash row = false)
      (htarget : row.spec.targetPath = some target) : Step row .source (.target target)

def Place.path (row : ActionRow) : Place → Text
  | .source => row.spec.sourcePath
  | .claimed path => path
  | .trashed root name => (trashFile root name).text
  | .target path => path

/-- The places of an effect. -/
def Place.Fits (row : ActionRow) : Place → Prop
  | .source => True
  | .claimed path => isTrash row = true ∧ IsClaim row.spec.sourcePath path
  | .trashed root _ => isTrash row = true ∧ root.isAbsolute = true
  | .target path => isTrash row = false ∧ row.spec.targetPath = some path

theorem Place.Step.fits {place place' : Place} (h : Place.Step row place place') :
    place'.Fits row := by
  cases h with
  | claim hkind hclaim => exact ⟨hkind, hclaim⟩
  | restore => trivial
  | move hkind hroot => exact ⟨hkind, hroot⟩
  | moveToTrash hkind hroot => exact ⟨hkind, hroot⟩
  | rename hkind htarget => exact ⟨hkind, htarget⟩

/-- Wherever the renames of an effect leave the object is a place of that effect. -/
theorem Place.fits_of_run {place : Place}
    (h : Relation.ReflTransGen (Place.Step row) .source place) : place.Fits row := by
  cases h with
  | refl => trivial
  | tail _ hstep => exact hstep.fits

/-- The disk has the object at the place, and nothing at the source or at the target otherwise. -/
structure Disk.Shows (disk : Disk) (row : ActionRow) (object : Entry) (place : Place) : Prop where
  here : disk.at? (place.path row) = some object
  source : place ≠ .source → disk.at? row.spec.sourcePath = none
  target : place = .source → ∀ target ∈ row.spec.targetPath, disk.at? target = none

/-- The effect took place: the object is at the target of a move, and in a Trash, beside a
`.trashinfo` that names its source, for an action of the Trash. -/
structure Performed (paths : Paths) (disk : Disk) (row : ActionRow) (object : Entry) : Prop where
  source : disk.at? row.spec.sourcePath = none
  target : ∀ target ∈ row.spec.targetPath, disk.at? target = some object
  trash : isTrash row = true →
    ∃ root name, InTrash paths disk row.spec.sourcePath object root name

/-- The object is still at its source, and not at the target. -/
def AtSource (disk : Disk) (row : ActionRow) (object : Entry) : Prop :=
  disk.at? row.spec.sourcePath = some object ∧
    ∀ target ∈ row.spec.targetPath, disk.at? target ≠ some object

/-- Both paths can be examined. -/
def Readable (disk : Disk) (row : ActionRow) : Prop :=
  disk.fault row.spec.sourcePath = none ∧ ∀ target ∈ row.spec.targetPath, disk.fault target = none

/-- An action on an object that a crash has left behind its frontier, behind any rename. -/
structure Interrupted (disk : Disk) (row : ActionRow) (object : Entry) : Prop where
  form : Form row
  identity : ∃ text, expectedIdentityJson object row.spec.sourcePath row.spec.targetPath =
    some text ∧ row.expectedIdentityJson = some text
  place : ∃ place, Relation.ReflTransGen (Place.Step row) .source place ∧
    disk.Shows row object place

/-- Something at the source is the object, and nothing is at the target then. -/
theorem Interrupted.untouched (h : Interrupted disk row object)
    (hat : disk.at? row.spec.sourcePath ≠ none) :
    disk.at? row.spec.sourcePath = some object ∧
      ∀ target ∈ row.spec.targetPath, disk.at? target = none := by
  obtain ⟨place, -, hshows⟩ := h.place
  by_cases hplace : place = .source
  · subst hplace
    exact ⟨hshows.here, hshows.target rfl⟩
  · exact absurd (hshows.source hplace) hat

/-- A move whose object is not at its source has been performed. -/
theorem Interrupted.performed_move (h : Interrupted disk row object) (hkind : isTrash row = false)
    (hat : disk.at? row.spec.sourcePath = none) : Performed paths disk row object := by
  obtain ⟨place, hrun, hshows⟩ := h.place
  have hnot : ¬ isTrash row = true := by simp [hkind]
  have hfits := Place.fits_of_run hrun
  refine ⟨hat, fun target ht => ?_, fun htrash => absurd htrash hnot⟩
  cases place with
  | source => exact absurd (hshows.here.symm.trans hat) (Option.some_ne_none object)
  | claimed path => exact absurd hfits.1 hnot
  | trashed root name => exact absurd hfits.1 hnot
  | target path =>
    obtain rfl : path = target := Option.some_inj.mp (hfits.2.symm.trans ht)
    exact hshows.here

/-- What was verified in a Trash with the identity of the object is the object. -/
theorem Interrupted.performed_trash (h : Interrupted disk row object)
    (htarget : row.spec.targetPath = none) (hat : disk.at? row.spec.sourcePath = none) {c : Entry}
    {root : PurePath} {name : Text} (hmatches : c.matches object.identity = true)
    (hin : InTrash paths disk row.spec.sourcePath c root name) :
    Performed paths disk row object := by
  obtain ⟨place, -, hshows⟩ := h.place
  simp only [Entry.matches, Entry.identity, Bool.and_eq_true, beq_iff_eq, Nat.cast_inj] at hmatches
  obtain ⟨⟨⟨⟨hvolume, hfile⟩, -⟩, -⟩, -⟩ := hmatches
  obtain rfl : c = object := disk.same _ _ _ _ hin.place hshows.here hvolume hfile
  refine ⟨hat, fun target ht => ?_, fun _ => ⟨root, name, hin⟩⟩
  rw [htarget] at ht
  cases ht

/-- A source that is observed as expected holds the object, which can be recognised. -/
theorem Interrupted.of_expected (h : Interrupted disk row object) (hmtime : 0 ≤ object.mtimeNs)
    (hbirth : -1 ≤ object.birthtimeNs)
    (hsource : observePath disk row.spec.sourcePath object.identity = .expected) :
    AtSource disk row object ∧ object.Checkable ∧ disk.fault row.spec.sourcePath = none := by
  obtain ⟨hfault, c, hat, hregular, hsingle, -⟩ := checkable_of_expected hsource
  obtain ⟨hobject, htarget⟩ := h.untouched (by rw [hat]; exact Option.some_ne_none c)
  obtain rfl : c = object := Option.some_inj.mp (hat.symm.trans hobject)
  refine ⟨⟨hobject, fun target ht => ?_⟩, ⟨hregular, hsingle, hmtime, hbirth⟩, hfault⟩
  rw [htarget target ht]
  exact (Option.some_ne_none c).symm

/-- **Recovery classifies an interrupted action truthfully.** -/
theorem Interrupted.classification (h : Interrupted disk row object) :
    ((classifyRow paths disk row).classification = .notPerformed ↔
        AtSource disk row object ∧ object.Checkable ∧ Readable disk row) ∧
      ((classifyRow paths disk row).classification = .confirmed →
        Performed paths disk row object) := by
  obtain ⟨text, htext, hjson⟩ := h.identity
  have hparse := parseExpectedIdentity_written paths htext
  rw [← hjson] at hparse
  by_cases hunsupported : object.mtimeNs < 0 ∨ object.birthtimeNs < -1
  · -- evidence that the reader does not support
    rw [if_pos hunsupported] at hparse
    have himpossible : (classifyRow paths disk row).classification = .impossibleToCheck := by
      unfold classifyRow
      rw [hparse]
      rfl
    rw [himpossible]
    refine ⟨⟨(fun h => nomatch h), fun ⟨_, hcheckable, _⟩ => ?_⟩, fun h => nomatch h⟩
    rcases hunsupported with hneg | hneg
    · exact absurd hcheckable.mtime (not_le.mpr hneg)
    · exact absurd hcheckable.birthtime (not_le.mpr hneg)
  · rw [if_neg hunsupported] at hparse
    obtain ⟨hmtime, hbirth⟩ := not_or.mp hunsupported
    rw [not_lt] at hmtime hbirth
    cases h.form with
    | trash hkind htarget =>
      obtain ⟨hnot, hconfirmed⟩ := classification_trash disk hparse hkind
      refine ⟨hnot.trans ⟨fun hsource => ?_, fun ⟨hat, hcheckable, hread⟩ => ?_⟩, fun hc => ?_⟩
      · obtain ⟨hat, hcheckable, hfault⟩ := h.of_expected hmtime hbirth hsource
        refine ⟨hat, hcheckable, hfault, fun target ht => ?_⟩
        rw [htarget] at ht
        cases ht
      · exact observePath_object hread.1 hat.1 hcheckable
      · obtain ⟨hmissing, hvalid⟩ := hconfirmed hc
        obtain ⟨evidence, digest, c, hverified⟩ := verified_of_validSuccessReceipt hkind hvalid
        obtain ⟨hmatches, root, name, hin⟩ := verifyTrashReceiptEvidence_eq_ok hverified
        exact h.performed_trash htarget (at?_of_missing hmissing).2 hmatches hin
    | move hkind hrestore target htarget =>
      obtain ⟨hnot, hconfirmed⟩ := classification_move disk hparse hkind hrestore htarget
      have hmem : target ∈ row.spec.targetPath := htarget
      refine ⟨hnot.trans ⟨fun ⟨hsource, hmissing⟩ => ?_, fun ⟨hat, hcheckable, hread⟩ => ?_⟩,
        fun hc => ?_⟩
      · obtain ⟨hat, hcheckable, hfault⟩ := h.of_expected hmtime hbirth hsource
        refine ⟨hat, hcheckable, hfault, fun target' ht => ?_⟩
        obtain rfl : target = target' := Option.some_inj.mp (htarget.symm.trans ht)
        exact (at?_of_missing hmissing).1
      · have huntouched := h.untouched (by rw [hat.1]; exact Option.some_ne_none object)
        exact ⟨observePath_object hread.1 hat.1 hcheckable,
          observePath_missing (hread.2 target hmem) (huntouched.2 target hmem)⟩
      · exact h.performed_move hkind (at?_of_missing (hconfirmed hc).1).2

/-! ## Pages -/

theorem classifyRow_actionId (row : ActionRow) :
    (classifyRow paths disk row).actionId = row.actionId := by
  unfold classifyRow
  split
  · rfl
  · split
    · rfl
    · split_ifs
      · unfold classifyRestore
        split <;> rfl
      · unfold classifyTrash
        split
        · rfl
        · rfl
        · split_ifs <;> rfl
      · split
        · rfl
        · split
          · rfl
          · unfold classifyMove
            split_ifs <;> rfl

theorem mem_recoverable {ledger : Ledger} {runId : Option ℤ} :
    row ∈ ledger.recoverable runId ↔ row ∈ ledger.actions ∧ isRecoverable runId row = true := by
  rw [Ledger.recoverable, List.mem_insertionSort, List.mem_filter]

theorem recoverable_pairwise {ledger : Ledger} (h : ledger.Ids) (runId : Option ℤ) :
    (ledger.recoverable runId).Pairwise fun a b => (a.actionId : ℤ) < b.actionId := by
  have hsorted : (ledger.recoverable runId).Pairwise fun a b => a.actionId ≤ b.actionId :=
    List.pairwise_insertionSort _ _
  have hunique : (ledger.recoverable runId).Pairwise fun a b => a.actionId ≠ b.actionId := by
    refine List.Pairwise.perm (h.unique.filter _) (List.perm_insertionSort _ _).symm ?_
    exact fun hne => hne.symm
  refine (hsorted.and hunique).imp fun {a b} hab => ?_
  have hlt : a.actionId < b.actionId := lt_of_le_of_ne hab.1 hab.2
  exact_mod_cast hlt

/-- The limits of some pages, and a run to list if one is given. -/
structure Listing (limits : List ℤ) (runId : Option ℤ) : Prop where
  limits : ∀ limit ∈ limits, 1 ≤ limit ∧ limit ≤ recoveryBatchLimit
  run : ∀ run ∈ runId, 1 ≤ run

theorem listFileActionReconciliations_eq {ledger : Ledger} {runId : Option ℤ} {limit after : ℤ}
    {limits : List ℤ} (h : Listing (limit :: limits) runId) (hafter : 0 ≤ after) :
    listFileActionReconciliations paths disk ledger limit after runId =
      .ok ((Pages.page (fun r : ActionRow => (r.actionId : ℤ)) (ledger.recoverable runId) after
        limit.toNat).map (classifyRow paths disk)) := by
  obtain ⟨hlow, hhigh⟩ := h.limits limit List.mem_cons_self
  have hrun : ¬ (runId.any (· < 1)) = true := by
    cases hr : runId with
    | none => simp
    | some run => simpa using h.run run hr
  simp only [listFileActionReconciliations, bind_eq_ok, raiseIf_eq_ok, pure_eq_ok]
  refine ⟨(), ?_, (), not_lt.mpr hafter, (), hrun, trivial⟩
  rintro (hlt | hlt)
  · exact absurd hlow (not_le.mpr hlt)
  · exact absurd hhigh (not_le.mpr hlt)

/-- Pages list what is behind the cursor, one after the other. -/
theorem listPages_eq {ledger : Ledger} {runId : Option ℤ} {limits : List ℤ} {after : ℤ}
    (h : Listing limits runId) (hafter : 0 ≤ after) :
    listPages paths disk ledger runId limits after =
      .ok ((Pages.pages (fun r : ActionRow => (r.actionId : ℤ)) (ledger.recoverable runId)
        (limits.map Int.toNat) after).flatten.map (classifyRow paths disk)) := by
  induction limits generalizing after with
  | nil => rfl
  | cons limit limits ih =>
    have hrest : Listing limits runId :=
      ⟨fun l hl => h.limits l (List.mem_cons_of_mem _ hl), h.run⟩
    rw [listPages, listFileActionReconciliations_eq h hafter, ok_bind, List.map_cons, Pages.pages,
      List.flatten_cons, List.map_append]
    -- the last action of a page is its cursor
    have hcursor : ∀ page : List ActionRow,
        (((page.map (classifyRow paths disk)).getLast?.map Reconciliation.actionId).getD after) =
          Pages.cursor (fun r : ActionRow => (r.actionId : ℤ)) after page := by
      intro page
      rw [Pages.cursor, List.getLast?_map, Option.map_map]
      refine congrArg (fun o => Option.getD o after) (Option.map_congr fun r _ => ?_)
      exact classifyRow_actionId r
    have hnonneg : ∀ page : List ActionRow,
        0 ≤ Pages.cursor (fun r : ActionRow => (r.actionId : ℤ)) after page := by
      intro page
      rw [Pages.cursor]
      cases page.getLast? with
      | none => exact hafter
      | some r => exact Int.natCast_nonneg _
    rw [hcursor, ih hrest (hnonneg _), ok_bind]
    rfl

/-- **Listing is complete and truthful.**  Pages that are long enough list every action that is
applying or needs recovery once, whatever their sizes, and what they say of an interrupted action
is so: it was not performed exactly if its object is still at the source, recognisable and
readable, and it is confirmed only if the effect took place. -/
theorem recovery_truthful {ledger : Ledger} (hids : ledger.Ids) {runId : Option ℤ}
    {limits : List ℤ} (h : Listing limits runId)
    (hcover : (ledger.recoverable runId).length ≤ (limits.map Int.toNat).sum) :
    listPages paths disk ledger runId limits 0 =
        .ok ((ledger.recoverable runId).map (classifyRow paths disk)) ∧
      ((ledger.recoverable runId).map ActionRow.actionId).Nodup ∧
      (∀ row, row ∈ ledger.recoverable runId ↔
        row ∈ ledger.actions ∧ isRecoverable runId row = true) ∧
      ∀ row object, Interrupted disk row object →
        ((classifyRow paths disk row).classification = .notPerformed ↔
            AtSource disk row object ∧ object.Checkable ∧ Readable disk row) ∧
          ((classifyRow paths disk row).classification = .confirmed →
            Performed paths disk row object) := by
  have hpairwise := recoverable_pairwise hids runId
  refine ⟨?_, ?_, fun _ => mem_recoverable, fun _ _ hrow => hrow.classification⟩
  · have hall : ((ledger.recoverable runId).filter fun r => (0 : ℤ) < r.actionId) =
        ledger.recoverable runId := by
      rw [List.filter_eq_self]
      intro r hr
      have hpos := hids.positive r (mem_recoverable.mp hr).1
      simpa using hpos
    rw [listPages_eq h le_rfl, Pages.flatten_pages hpairwise, hall, List.take_of_length_le hcover]
  · rw [List.nodup_iff_pairwise_ne, List.pairwise_map]
    refine hpairwise.imp fun {a b} hab heq => ?_
    rw [heq] at hab
    exact lt_irrefl _ hab

/-! ## Actions that show it -/

/-- A parameter for each thing that is taken from outside. -/
def plainPaths : Paths := ⟨id, id, fun text => text.map Char.toLower, id, fun _ => false⟩

/-- A disk with these entries; the files among them have the content. -/
def diskOf (entries : List (Text × Entry)) (content : Text → Bytes)
    (h : ∀ a ∈ entries, ∀ b ∈ entries, a.2.volumeId = b.2.volumeId → a.2.fileId = b.2.fileId →
      a.2 = b.2) : Disk where
  at? path := (entries.find? fun a => a.1 == path).map Prod.snd
  fault _ := none
  binding _ digest := .ok digest
  content := content
  names _ := []
  same p q c d hp hq := by
    obtain ⟨a, ha, rfl⟩ := Option.map_eq_some_iff.mp hp
    obtain ⟨b, hb, rfl⟩ := Option.map_eq_some_iff.mp hq
    exact h a (List.mem_of_find?_eq_some ha) b (List.mem_of_find?_eq_some hb)

/-- An empty directory that is still where it was. -/
def emptyDirectory : Entry := ⟨.directory, 2, 1, 5, 4096, 7, -1⟩

def onlyDirectory : Disk := diskOf [(lit "/c/d", emptyDirectory)] (fun _ => []) (by decide)

/-- An action that is interrupted. -/
def openAction (actionId : ℕ) (actionType sourcePath : Text) (targetPath : Option Text)
    (object : Entry) (receipt : Option Text) : ActionRow where
  actionId := actionId
  runId := 1
  spec := ⟨actionType, sourcePath, targetPath, none, none, true⟩
  policy := ⟨lit "normal", none, none, none, none⟩
  idempotencyKey := none
  status := .applying
  detail := none
  expectedIdentityJson := expectedIdentityJson object sourcePath targetPath
  effectReceiptJson := receipt

/-- The removal of the directory, interrupted before the backend was called. -/
def directoryAction : ActionRow :=
  openAction 1 (lit "trash_empty_directory") (lit "/c/d") none emptyDirectory none

/-- The directory is at its source, and the action is not classified as not performed. -/
theorem directory_impossible_to_check :
    ¬ ∀ (paths : Paths) (disk : Disk) (row : ActionRow) (object : Entry),
      Interrupted disk row object →
        ((classifyRow paths disk row).classification = .notPerformed ↔
          AtSource disk row object) := by
  intro h
  have hinterrupted : Interrupted onlyDirectory directoryAction emptyDirectory :=
    ⟨.trash rfl rfl, ⟨_, rfl, rfl⟩, .source, .refl, rfl, fun hne => absurd rfl hne,
      fun _ _ ht => nomatch ht⟩
  have hnot := (h plainPaths onlyDirectory directoryAction emptyDirectory hinterrupted).mpr
    ⟨rfl, fun _ h => nomatch h⟩
  exact absurd hnot (by decide +kernel)

/-- A file that is still where it was, one in the Trash, and one in a claim. -/
def plainFile : Entry := ⟨.regular, 1, 1, 6, 10, 7, -1⟩

def trashedFile : Entry := ⟨.regular, 1, 1, 8, 10, 7, -1⟩

def claimedFile : Entry := ⟨.regular, 1, 1, 9, 10, 7, -1⟩

/-- The receipt of a removal to `/t`. -/
def trashReceipt : Text :=
  lit "\x7b\"schema_version\":1,\"receipt_type\":\"successful_return_and_observation\"," ++
    lit "\"operation\":\"trash\",\"source_absent\":true,\"source_digest\":\"d\"," ++
    lit "\"source_path\":\"/c/g\",\"trash\":\x7b\"trash_root\":\"/t\"," ++
    lit "\"trash_path\":\"/t/files/g\",\"info_path\":\"/t/info/g.trashinfo\"," ++
    lit "\"volume_id\":\"1\",\"file_id\":\"8\",\"size\":10,\"digest\":\"d\"\x7d\x7d"

def threeFiles : Disk :=
  diskOf [(lit "/c/f", plainFile), (lit "/c/.neocortex-kio-claim-x/h", claimedFile),
      (lit "/t", ⟨.directory, 4, 1, 1, 0, 7, -1⟩), (lit "/t/files", ⟨.directory, 2, 1, 2, 0, 7, -1⟩),
      (lit "/t/info", ⟨.directory, 2, 1, 3, 0, 7, -1⟩), (lit "/t/files/g", trashedFile),
      (lit "/t/info/g.trashinfo", ⟨.regular, 1, 1, 4, 28, 7, -1⟩)]
    (fun _ => encodeUtf8 (lit "[Trash Info]\nPath=/c/g\n")) (by decide)

/-- A move before its rename. -/
def moveAction : ActionRow :=
  openAction 1 (lit "correct_extension") (lit "/c/f") (some (lit "/c/f.txt")) plainFile none

/-- A removal that is done, and one that was cut behind its claim. -/
def trashedAction : ActionRow :=
  openAction 2 (lit "trash_redlist") (lit "/c/g") none trashedFile (some trashReceipt)

def claimedAction : ActionRow :=
  openAction 3 (lit "trash_redlist") (lit "/c/h") none claimedFile (some trashReceipt)

/-- The actions, listed in pages of two and of one. -/
theorem recovery_truthful_three :
    listPages plainPaths threeFiles ⟨[moveAction, trashedAction, claimedAction], []⟩ none [2, 1] 0 =
        .ok ([moveAction, trashedAction, claimedAction].map (classifyRow plainPaths threeFiles)) ∧
      (classifyRow plainPaths threeFiles moveAction).classification = .notPerformed ∧
      (classifyRow plainPaths threeFiles trashedAction).classification = .confirmed ∧
      Performed plainPaths threeFiles trashedAction trashedFile ∧
      (classifyRow plainPaths threeFiles claimedAction).classification = .ambiguous := by
  have hids : (⟨[moveAction, trashedAction, claimedAction], []⟩ : Ledger).Ids := by
    constructor
    · exact Rows.unique_iff_nodup.mpr (by decide)
    · decide
  have hlisting : Listing [2, 1] none := ⟨by simp [recoveryBatchLimit], fun _ h => nomatch h⟩
  obtain ⟨hlist, -, -, htruth⟩ :=
    @recovery_truthful plainPaths threeFiles _ hids none [2, 1] hlisting (by decide)
  have hmove : Interrupted threeFiles moveAction plainFile := by
    refine ⟨.move rfl (by decide) (lit "/c/f.txt") rfl, ⟨_, rfl, rfl⟩, .source, .refl, by decide,
      fun hne => absurd rfl hne, ?_⟩
    rintro - _ ⟨⟩
    decide
  -- the file was claimed, and KIO moved the claim to the Trash
  have htrashed : Interrupted threeFiles trashedAction trashedFile := by
    have hclaim : Place.Step trashedAction .source (.claimed (lit "/c/.neocortex-kio-claim-x/g")) :=
      .claim (by decide) ⟨lit "x", by decide⟩
    have hmoved : Place.Step trashedAction (.claimed (lit "/c/.neocortex-kio-claim-x/g"))
        (.trashed (PurePath.of (lit "/t")) (lit "g")) := .move (by decide) (by decide)
    refine ⟨.trash (by decide) rfl, ⟨_, rfl, rfl⟩, _, .tail (.single hclaim) hmoved, by decide,
      fun _ => by decide, ?_⟩
    rintro ⟨⟩
  have hconfirmed : (classifyRow plainPaths threeFiles trashedAction).classification = .confirmed := by
    decide +kernel
  refine ⟨hlist, (htruth _ _ hmove).1.mpr ⟨⟨by decide, ?_⟩, ?_, rfl, fun _ _ => rfl⟩, hconfirmed,
    (htruth _ _ htrashed).2 hconfirmed, by decide +kernel⟩
  · rintro _ ⟨⟩
    decide
  · exact ⟨rfl, rfl, by decide, by decide⟩

end Actions
end Neocortex
