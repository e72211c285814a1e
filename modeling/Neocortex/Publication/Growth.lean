import Neocortex.Publication.Drafts

/-!
# What a call can append

`Growth L c Δ` lists what the call `c` can append to the journal `L`.  Every invariant of
the journal is a fact about `Growth`; that the programs really do no more is proved once,
here.

* `Call.grows`: wherever a call is cut, the directory stores the old journal followed by
  one of the extensions that `Growth` allows.
-/

namespace Neocortex
namespace Publication

open Python Checks Durable

/-! ## The last record of a key -/

/-- `q` is the last record of its key, and it is a prepare. -/
def Pending (L : List StatePublication) (q : StatePublication) : Prop :=
  latestFor L q.idempotencyKey = some q ∧ q.status = .partial_

theorem key_of_latestFor {L : List StatePublication} {k : Text} {q : StatePublication}
    (h : latestFor L k = some q) : q.idempotencyKey = k := by
  have := List.find?_some h
  simpa using this

theorem mem_of_latestFor {L : List StatePublication} {k : Text} {q : StatePublication}
    (h : latestFor L k = some q) : q ∈ L :=
  List.mem_reverse.mp (List.mem_of_find?_eq_some h)

theorem Pending.mem {L : List StatePublication} {q : StatePublication} (h : Pending L q) :
    q ∈ L := mem_of_latestFor h.1

/-- There is one pending record for a key. -/
theorem Pending.eq_of_key {L : List StatePublication} {q q' : StatePublication}
    (h : Pending L q) (h' : Pending L q') (hk : q.idempotencyKey = q'.idempotencyKey) : q = q' := by
  have e := h.1
  rw [hk, h'.1] at e
  exact (Option.some_inj.mp e).symm

theorem latestFor_append_singleton (L : List StatePublication) (p : StatePublication) (k : Text) :
    latestFor (L ++ [p]) k = if p.idempotencyKey = k then some p else latestFor L k := by
  unfold latestFor
  rw [List.reverse_append, List.reverse_singleton, List.singleton_append, List.find?_cons]
  by_cases h : p.idempotencyKey = k
  · simp [h]
  · simp [h]

theorem mem_latestByKey {L : List StatePublication} {q : StatePublication} :
    q ∈ latestByKey L ↔ latestFor L q.idempotencyKey = some q := by
  rw [latestByKey, List.mem_filterMap]
  constructor
  · rintro ⟨k, -, hk⟩
    rw [key_of_latestFor hk]
    exact hk
  · intro h
    refine ⟨q.idempotencyKey, ?_, h⟩
    rw [List.mem_eraseDups]
    exact List.mem_map_of_mem (mem_of_latestFor h)

theorem mem_pendingRecords {L : List StatePublication} {q : StatePublication} :
    q ∈ pendingRecords L ↔ Pending L q := by
  rw [pendingRecords, List.mem_insertionSort, List.mem_filter, mem_latestByKey,
    decide_eq_true_eq, Pending]

/-! ## Extensions -/

/-- The calls that go through `record_state_publication`. -/
def Call.Records : Call → Prop
  | .record .. => True
  | .begin .. => True
  | .commit .. => True
  | _ => False

/-- A complete record that settles the prepare `q`. -/
structure Commits (q p : StatePublication) : Prop where
  key : p.idempotencyKey = q.idempotencyKey
  status : p.status = .complete
  manifest : p.manifestSha256 = q.manifestSha256
  heads : q.ownerHeads ≠ [] → p.ownerHeads ≠ []

/-- A failed record for the key of `q`, at the current epoch. -/
structure Fails (L : List StatePublication) (q p : StatePublication) : Prop where
  key : p.idempotencyKey = q.idempotencyKey
  status : p.status = .failed
  epoch : p.epoch = epochOf L

/-- `q` is a prepare of the journal, and no other one of its key is pending. -/
structure Targets (L : List StatePublication) (q : StatePublication) : Prop where
  mem : q ∈ L
  status : q.status = .partial_
  only : ∀ q', Pending L q' → q'.idempotencyKey = q.idempotencyKey → q' = q

/-- What a call can append to the journal `L`. -/
inductive Growth (L : List StatePublication) : Call → List StatePublication → Prop
  | unchanged (c : Call) : Growth L c []
  | recorded {c : Call} {p : StatePublication} (hc : c.Records)
      (epoch : p.epoch = epochOf L + p.status.step)
      (commits : ∀ q, Pending L q → Commits q p) : Growth L c [p]
  | aborted {eventId : Text} {observed : List StateOwnerHead} {expectedEpoch : Option ℤ}
      {detail : Text} {now : TimeNs} {q p : StatePublication} (target : Targets L q)
      (heads : canonicalOwnerHeads observed = .ok q.ownerHeads) (bound : q.ownerHeads ≠ [])
      (fails : Fails L q p) : Growth L (.abort eventId observed expectedEpoch detail now) [p]
  | unbound {eventId : Text} {expectedEpoch : Option ℤ} {detail : Text} {now later : TimeNs}
      {q p : StatePublication} (target : Targets L q) (unbound : q.ownerHeads = [])
      (fails : Fails L q p) : Growth L (.abortUnbound eventId expectedEpoch detail now later) [p]
  | reconciled {eventId : Text} {expectedEpoch : ℤ} {publicationEventId : Text}
      {verify : Checked (List StateOwnerHead)} {now : TimeNs} {q p : StatePublication}
      (target : Pending L q) (unbound : q.ownerHeads = []) (fails : Fails L q p) :
      Growth L (.reconcileUnbound eventId expectedEpoch publicationEventId verify now) [p]
  | restarted {eventId : Text} {expectedEpoch : ℤ} {heads : List StateOwnerHead}
      {verify again : Checked (List StateOwnerHead)} {now : TimeNs} {q p c : StatePublication}
      (target : Pending L q) (fails : Fails L q p) (status : c.status = .complete)
      (epoch : c.epoch = epochOf L + 1) :
      Growth L (.restart eventId expectedEpoch heads verify again now) [p, c]

/-- Wherever the call is cut, the directory stores an extension of `L` that is allowed. -/
def Grows (L : List StatePublication) (c : Call) (d : StateDirectory) : Prop :=
  ∃ Δ, Growth L c Δ ∧ Stored d (L ++ Δ)

theorem Stored.grows {d : StateDirectory} {L : List StatePublication} (h : Stored d L) (c : Call) :
    Grows L c d := ⟨[], .unchanged c, by rwa [List.append_nil]⟩

/-! ## `record_state_publication` -/

/-- What the guards against the last record of a key let through. -/
theorem checkPrior_eq_ok {q : CheckedRequest} {prior : StatePublication} {u : Unit}
    (h : checkPrior q prior = .ok u) :
    prior.manifestSha256 = q.manifestSha256 ∧
      (prior.status = .partial_ → q.status ≠ .failed ∧
        (q.status = .partial_ → prior.ownerHeads = q.ownerHeads) ∧
        (q.status = .complete → prior.ownerHeads ≠ [] → q.ownerHeads ≠ [])) := by
  unfold checkPrior at h
  rw [bind_eq_ok] at h
  obtain ⟨_, hm, h⟩ := h
  rw [raiseIf_eq_ok, not_not] at hm
  refine ⟨hm, fun hp => ?_⟩
  rw [if_pos hp] at h
  simp only [bind_eq_ok, raiseIf_eq_ok] at h
  obtain ⟨_, h1, _, h2, _, h3, -⟩ := h
  refine ⟨h1, fun hq => ?_, fun hq hne hnil => h3 ⟨hq, hne, hnil⟩⟩
  by_contra hne
  exact h2 ⟨hq, hne⟩

/-- What `record_state_publication` has seen when it goes on. -/
theorem admitRecord_eq_ok {H : Sha256} {d : StateDirectory} {L : List StatePublication}
    {q : CheckedRequest} {a : Admission} (hs : Stored d L) (h : admitRecord H d q = .ok a) :
    (∀ item, Pending L item → item.idempotencyKey = q.digest) ∧
      (∀ latest, (completeRecords L).getLast? = some latest →
        readContentManifestForPublication H d latest = .ok ()) ∧
      admitPrior q (epochOf L) (latestFor L q.digest) = .ok a := by
  obtain ⟨e, he, hcur⟩ := hs.readPublicationObservation
  unfold admitRecord at h
  rw [he] at h
  simp only [bind_eq_ok] at h
  obtain ⟨_, hw, _, -, _, -, _, hother, _, -, h⟩ := h
  cases hw
  rw [raiseIf_eq_ok] at hother
  refine ⟨fun item hitem => ?_, ?_⟩
  · by_contra hne
    exact hother ⟨item, mem_latestByKey.mpr hitem.1, hitem.2, hne⟩
  · rw [hcur.epoch hs.numbered] at h
    cases hl : (completeRecords L).getLast? with
    | none =>
      rw [hl] at h
      exact ⟨by simp, h⟩
    | some latest =>
      rw [hl] at h
      simp only [bind_eq_ok] at h
      obtain ⟨_, hm, h⟩ := h
      refine ⟨fun l hl => ?_, h⟩
      rw [← Option.some_inj.mp hl]
      exact hm

/-- The decision about a key, read back. -/
theorem admitPrior_eq_ok {q : CheckedRequest} {epoch : ℕ} {prior : Option StatePublication}
    {a : Admission} (h : admitPrior q epoch prior = .ok a) :
    (∃ p, prior = some p ∧ a = .replay p ∧
        (p.status = .complete ∨ p.status = q.status)) ∨
      (a = .publish epoch ∧ ∀ p, prior = some p → p.status = .partial_ →
        q.status = .complete ∧ p.manifestSha256 = q.manifestSha256 ∧
          (p.ownerHeads ≠ [] → q.ownerHeads ≠ [])) := by
  cases prior with
  | none =>
    rw [admitPrior, pure_eq_ok] at h
    exact Or.inr ⟨h.symm, by simp⟩
  | some p =>
    rw [admitPrior, bind_eq_ok] at h
    obtain ⟨_, hc, h⟩ := h
    obtain ⟨hm, hpart⟩ := checkPrior_eq_ok hc
    split_ifs at h with hrep
    · rw [pure_eq_ok] at h
      exact Or.inl ⟨p, rfl, h.symm, hrep.imp id And.left⟩
    · rw [pure_eq_ok] at h
      refine Or.inr ⟨h.symm, fun p' hp' hs => ?_⟩
      obtain rfl := Option.some_inj.mp hp'
      obtain ⟨hnf, hsame, hheads⟩ := hpart hs
      -- a retried prepare with its own heads is a replay, so the record is a commit
      have hcomplete : q.status = .complete := by
        cases hq : q.status with
        | complete => rfl
        | failed => exact absurd hq hnf
        | partial_ => exact absurd (Or.inr ⟨by rw [hs, hq], hsame hq⟩) hrep
      exact ⟨hcomplete, hm, hheads hcomplete⟩

/-- `p'` is the record `p`, possibly with a content manifest. -/
def SameDraft (p p' : StatePublication) : Prop :=
  ∃ name digest, p' = { p with contentManifestName := name, contentManifestSha256 := digest }

/-- What `record_state_publication` has written when it returns `p'`. -/
structure Published (H : Sha256) (L : List StatePublication) (d : StateDirectory)
    (p p' : StatePublication) (d' : StateDirectory) : Prop where
  stored : Stored d' (L ++ [p'])
  draft : SameDraft p p'
  manifest : p.status = .complete →
    (p.ownerHeads = [] ∧ p' = p) ∨ ∃ m, p' = p.withManifest m ∧ ManifestWritten H d p m d'

theorem wp_attachManifest {H : Sha256} {d : StateDirectory} {C : StateDirectory → Prop}
    {p : StatePublication} {Q : Checked StatePublication → StateDirectory → Prop}
    (hC : ∀ d', SameRecords d d' → C d')
    (herr : ∀ e d', SameRecords d d' → Q (.error e) d')
    (hplain : ¬ (p.status = .complete ∧ p.ownerHeads ≠ []) → Q (.ok p) d)
    (hok : ∀ m d', SameRecords d d' → ManifestWritten H d p m d' → Q (.ok (p.withManifest m)) d') :
    wp (attachManifest H p) d C Q := by
  unfold attachManifest
  split_ifs with h
  · rw [wp_bind]
    refine wp_writeContentManifest hC (fun e d' hd => herr e d' hd) fun m d' hd hm => ?_
    rw [onEnd_ok, wp_pure]
    exact hok m d' hd hm
  · rw [wp_pure]
    exact hplain h

/-- The writes of a record keep the invariant and append the record, or nothing; the record is
backed by its manifest from its append on. -/
theorem wp_publish {H : Sha256} {d : StateDirectory} {L : List StatePublication}
    {p : StatePublication} (hs : Stored d L) (hp : p.WellFormed)
    (he : p.epoch = epochOf L + p.status.step) :
    wp (publish H p) d (fun d' => Stored d' L ∨ ∃ p', Published H L d p p' d')
      (onEnd (Published H L d p) fun _ d' => Stored d' L ∨ ∃ p', Published H L d p p' d') := by
  -- behind the manifest: the append and the pointer
  have rest : ∀ p' d1, Stored d1 L → SameDraft p p' → p'.WellFormed →
      (p.status = .complete → (p.ownerHeads = [] ∧ p' = p) ∨
        ∃ m, p' = p.withManifest m ∧
          ∀ d2 : StateDirectory, d2.contentManifests = d1.contentManifests →
            ManifestWritten H d p m d2) →
      wp (appendJournal p' >>= fun _ =>
          if p'.status = .complete then writeEpochPointer p' >>= fun _ => pure p' else pure p') d1
        (fun d' => Stored d' L ∨ ∃ p', Published H L d p p' d')
        (onEnd (Published H L d p) fun _ d' => Stored d' L ∨ ∃ p', Published H L d p p' d') := by
    intro p' d1 hs1 hsame hwf hman
    have hpub : ∀ d2, Stored d2 (L ++ [p']) → d2.contentManifests = d1.contentManifests →
        Published H L d p p' d2 := by
      intro d2 hs2 hsame2
      refine ⟨hs2, hsame, fun hcomplete => ?_⟩
      rcases hman hcomplete with h | ⟨m, hm, hw⟩
      · exact Or.inl h
      · exact Or.inr ⟨m, hm, hw _ hsame2⟩
    rw [wp_bind]
    refine wp_appendJournal (fun e => Or.inl hs1) fun hf hsmall hb => ?_
    have hepoch : p'.epoch = epochOf L + p'.status.step := by
      obtain ⟨_, _, rfl⟩ := hsame
      exact he
    have hs2 := hs1.appendLine ⟨hwf, hf, hsmall⟩ hepoch hb
    refine ⟨Or.inr ⟨p', hpub _ hs2 rfl⟩, ?_⟩
    rw [onEnd_ok]
    split_ifs with hc
    · rw [wp_bind]
      have hmem : p' ∈ completeRecords (L ++ [p']) := by
        rw [completeRecords_append, completeRecords_cons, if_pos hc]
        exact List.mem_append_right _ List.mem_cons_self
      refine wp_writeEpochPointer (fun e => Or.inr ⟨p', hpub _ hs2 rfl⟩) fun raw hr => ?_
      have hs3 := hs2.setPointer hmem hr
      refine ⟨Or.inr ⟨p', hpub _ hs3 rfl⟩, ?_⟩
      rw [onEnd_ok, wp_pure, onEnd_ok]
      exact hpub _ hs3 rfl
    · rw [wp_pure, onEnd_ok]
      exact hpub _ hs2 rfl
  unfold publish
  rw [wp_bind]
  refine wp_attachManifest (fun d' hd => Or.inl (hs.of_sameRecords hd))
    (fun e d' hd => Or.inl (hs.of_sameRecords hd)) (fun hplain => ?_) fun m d' hd hm => ?_
  · refine rest p d hs ⟨_, _, rfl⟩ hp fun hc => Or.inl ⟨?_, rfl⟩
    by_contra hne
    exact hplain ⟨hc, hne⟩
  · refine rest _ d' (hs.of_sameRecords hd) ⟨_, _, rfl⟩ (hp.withManifest hm.manifestName ?_)
      fun _ => Or.inr ⟨m, rfl, fun d2 h2 => ⟨hm.heads, hm.name, hm.manifestName, ?_⟩⟩
    · obtain ⟨encoded, -, -, hsha, -⟩ := hm.file
      rw [hsha]
      exact H.isSha256 _
    · obtain ⟨encoded, raw, hf⟩ := hm.file
      refine ⟨encoded, raw, ?_⟩
      rw [h2]
      exact hf

/-- How a call of `record_state_publication` on the journal `L` ends when it returns `p`. -/
inductive RecordEnd (H : Sha256) (L : List StatePublication) (d : StateDirectory)
    (status : PublicationStatus) (p : StatePublication) (d' : StateDirectory) : Prop
  /-- The last record of the key is returned again. -/
  | replayed (same : d' = d) (latest : latestFor L p.idempotencyKey = some p)
      (settled : p.status = .complete ∨ p.status = status)
      (others : ∀ item, Pending L item → item.idempotencyKey = p.idempotencyKey)
      (authentic : ∀ last, (completeRecords L).getLast? = some last →
        readContentManifestForPublication H d last = .ok ())
  /-- A new record was appended. -/
  | appended (draft : StatePublication) (wellFormed : draft.WellFormed)
      (status : draft.status = status)
      (bare : draft.contentManifestName = none ∧ draft.contentManifestSha256 = none)
      (others : ∀ item, Pending L item → item.idempotencyKey = p.idempotencyKey)
      (published : Published H L d draft p d')

/-- **`record_state_publication`.** -/
theorem wp_recordStatePublication {H : Sha256} {d : StateDirectory} {L : List StatePublication}
    (hs : Stored d L) {c : Call} (hc : c.Records) (r : RecordRequest) (now : TimeNs) :
    wp (recordStatePublication H r now) d (Grows L c)
      (onEnd (RecordEnd H L d r.status) fun _ d' => Grows L c d') := by
  have herr : ∀ e : PublicationError, onEnd (α := StatePublication) (RecordEnd H L d r.status)
      (fun _ d' => Grows L c d') (.error e) d := fun e => hs.grows c
  unfold recordStatePublication
  refine wp_check herr fun q hq => ?_
  obtain ⟨hwf, hstatus⟩ := checkRequest_wellFormed hq
  rw [wp_read_bind]
  refine wp_check herr fun a ha => ?_
  obtain ⟨hothers, hauth, hprior⟩ := admitRecord_eq_ok hs ha
  rcases admitPrior_eq_ok hprior with ⟨p, hp, rfl, hset⟩ | ⟨rfl, hcommit⟩
  · rw [wp_pure, onEnd_ok]
    have hkey := key_of_latestFor hp
    exact .replayed rfl (by rw [hkey, hp]) (by rwa [hstatus] at hset)
      (fun item hi => by rw [hkey]; exact hothers item hi) hauth
  · have hdraft := CheckedRequest.draft_wellFormed hwf hs.epochOf_le now
    have hepoch : (q.draft (epochOf L) now.1).epoch =
        epochOf L + (q.draft (epochOf L) now.1).status.step := rfl
    -- what the new record is to a pending one
    have hgrowth : ∀ p', SameDraft (q.draft (epochOf L) now.1) p' → Growth L c [p'] := by
      rintro p' ⟨_, _, rfl⟩
      refine .recorded hc hepoch fun item hi => ?_
      have hk := hothers item hi
      have hl : latestFor L q.digest = some item := by rw [← hk]; exact hi.1
      obtain ⟨h1, h2, h3⟩ := hcommit item hl hi.2
      exact ⟨hk.symm, h1, h2.symm, h3⟩
    have hgrow : ∀ d', (Stored d' L ∨
        ∃ p', Published H L d (q.draft (epochOf L) now.1) p' d') → Grows L c d' := by
      rintro d' (h | ⟨p', h⟩)
      · exact h.grows c
      · exact ⟨[p'], hgrowth p' h.draft, h.stored⟩
    refine wp_mono hgrow (fun result d' hr => ?_) (wp_publish hs hdraft hepoch)
    cases result with
    | error e => exact hgrow d' hr
    | ok p =>
      rw [onEnd_ok] at hr ⊢
      refine .appended _ hdraft hstatus ⟨rfl, rfl⟩ (fun item hi => ?_) hr
      obtain ⟨_, _, rfl⟩ := hr.draft
      exact hothers item hi

/-! ## Aborts -/

/-- Two searches that find each other's answers find the same item. -/
theorem find?_eq_of_find? {α : Type} {c c' : α → Bool} {a b : α} : ∀ {l : List α},
    l.find? c = some a → l.find? c' = some b → c b = true → c' a = true → a = b
  | [], h, _, _, _ => by simp at h
  | x :: l, ha, hb, hcb, hca => by
    rw [List.find?_cons] at ha hb
    cases hx : c x with
    | true =>
      rw [hx] at ha
      obtain rfl := Option.some_inj.mp ha
      rw [hca] at hb
      exact Option.some_inj.mp hb
    | false =>
      rw [hx] at ha
      cases hx' : c' x with
      | true =>
        rw [hx'] at hb
        obtain rfl := Option.some_inj.mp hb
        rw [hcb] at hx
        cases hx
      | false =>
        rw [hx'] at hb
        exact find?_eq_of_find? ha hb hcb hca

/-- A prepare found by its event id, whose key has a last record with that event id. -/
theorem targets_of_lastWhere {L : List StatePublication} {c : StatePublication → Bool}
    {q : StatePublication} {u : Unit} (hq : lastWhere L c = some q) (hstatus : q.status = .partial_)
    (hc : ∀ p : StatePublication, p.status = .partial_ → p.eventId = q.eventId → c p = true)
    (hu : checkUnresolved L q = .ok u) : Targets L q := by
  refine ⟨List.mem_reverse.mp (List.mem_of_find?_eq_some hq), hstatus, fun q' hq' hk => ?_⟩
  rw [checkUnresolved, raiseIf_eq_ok, not_not] at hu
  obtain ⟨latest, hl, he⟩ := hu
  have hlatest := hq'.1
  rw [hk] at hlatest
  rw [hlatest] at hl
  obtain rfl := Option.some_inj.mp hl
  exact (find?_eq_of_find? hq hlatest (hc q' hq'.2 he) (by simp)).symm

theorem Stored.readStateEpoch {d : StateDirectory} {L : List StatePublication} (hs : Stored d L)
    {e : StateEpoch} (h : readStateEpoch d = .ok e) : e.epoch = epochOf L := by
  obtain ⟨e', he', hcur⟩ := hs.readPublicationObservation
  rw [Publication.readStateEpoch, he', bind_eq_ok] at h
  obtain ⟨_, hw, h⟩ := h
  cases hw
  rw [pure_eq_ok] at h
  subst h
  exact hcur.epoch hs.numbered

theorem abortTarget_eq_ok {d : StateDirectory} {L : List StatePublication} (hs : Stored d L)
    {eventId : Text} {observed : List StateOwnerHead} {expectedEpoch : Option ℤ}
    {q : StatePublication} {epoch : ℕ}
    (h : abortTarget d eventId observed expectedEpoch = .ok (q, epoch)) :
    epoch = epochOf L ∧ Targets L q ∧ q.ownerHeads ≠ [] ∧ observed = q.ownerHeads := by
  unfold abortTarget at h
  simp only [bind_eq_ok] at h
  obtain ⟨current, hcur, _, -, journal, hj, h⟩ := h
  have hepoch := hs.readStateEpoch hcur
  rw [hs.readJournal] at hj
  cases hj
  split at h
  · cases h
  · rename_i pending hp
    simp only [bind_eq_ok, raiseIf_eq_ok, pure_eq_ok] at h
    obtain ⟨_, hu, _, hne, _, hobs, h⟩ := h
    cases h
    have hfound := List.find?_some hp
    simp only [decide_eq_true_eq] at hfound
    refine ⟨hepoch, targets_of_lastWhere hp hfound.2 (fun p hp he => ?_) hu, hne, not_not.mp hobs⟩
    simp only [decide_eq_true_eq]
    exact ⟨he.trans hfound.1, hp⟩

theorem abortUnboundTarget_eq_ok {d : StateDirectory} {L : List StatePublication}
    (hs : Stored d L) {eventId : Text} {expectedEpoch : Option ℤ} {q : StatePublication}
    {epoch : ℕ} (h : abortUnboundTarget d eventId expectedEpoch = .ok (q, epoch)) :
    epoch = epochOf L ∧ Targets L q ∧ q.ownerHeads = [] := by
  unfold abortUnboundTarget at h
  simp only [bind_eq_ok] at h
  obtain ⟨current, hcur, _, -, _, -, journal, hj, h⟩ := h
  have hepoch := hs.readStateEpoch hcur
  rw [hs.readJournal] at hj
  cases hj
  split at h
  · cases h
  · rename_i pending hp
    simp only [bind_eq_ok, raiseIf_eq_ok, pure_eq_ok, not_not] at h
    obtain ⟨_, hstatus, _, hnil, _, -, _, hu, h⟩ := h
    cases h
    have hfound := List.find?_some hp
    simp only [decide_eq_true_eq] at hfound
    refine ⟨hepoch, targets_of_lastWhere hp hstatus (fun p _ he => ?_) hu, hnil⟩
    simp only [decide_eq_true_eq]
    exact he.trans hfound

/-- A recovery record of a target fails it. -/
theorem fails_recoveryRecord (L : List StatePublication) (q : StatePublication) (eventId : Text)
    (createdNs : ℕ) (detail : Text) (heads : List StateOwnerHead) :
    Fails L q (recoveryRecord q eventId (epochOf L) createdNs detail heads) := ⟨rfl, rfl, rfl⟩

/-- The append of a failed record. -/
theorem wp_appendFailed {d : StateDirectory} {L : List StatePublication} (hs : Stored d L)
    {c : Call} {q p : StatePublication} (hf : Fails L q p) (hg : Growth L c [p])
    (hwf : p.WellFormed) :
    wp (appendJournal p >>= fun _ => pure p) d (Grows L c) fun _ _ => True := by
  rw [wp_bind]
  refine wp_appendJournal (fun _ => trivial) fun hfit hsmall hb => ?_
  have hepoch : p.epoch = epochOf L + p.status.step := by
    rw [hf.epoch, hf.status]
    rfl
  refine ⟨⟨[p], hg, hs.appendLine ⟨hwf, hfit, hsmall⟩ hepoch hb⟩, ?_⟩
  rw [onEnd_ok, wp_pure]
  trivial

theorem wp_abortStatePublication {d : StateDirectory} {L : List StatePublication}
    (hs : Stored d L) (eventId : Text) (observed : List StateOwnerHead)
    (expectedEpoch : Option ℤ) (detail : Text) (now : TimeNs) :
    wp (abortStatePublication eventId observed expectedEpoch detail now) d
      (Grows L (.abort eventId observed expectedEpoch detail now)) fun _ _ => True := by
  unfold abortStatePublication
  refine wp_check (fun _ => trivial) fun event _ => ?_
  refine wp_check (fun _ => trivial) fun heads hheads => ?_
  refine wp_check (fun _ => trivial) fun detail' hdetail => ?_
  obtain ⟨rfl, hdetail⟩ := requiredText_str.mp hdetail
  rw [wp_read_bind]
  refine wp_check (fun _ => trivial) fun ⟨q, epoch⟩ ht => ?_
  obtain ⟨rfl, htarget, hne, rfl⟩ := abortTarget_eq_ok hs ht
  have hq := (hs.recorded q htarget.mem).wellFormed
  have hf := fails_recoveryRecord L q (eventIdOf (epochOf L) "recovery" now.1) now.1 detail'
    q.ownerHeads
  exact wp_appendFailed hs hf (.aborted htarget hheads hne hf)
    (recoveryRecord_wellFormed hq (by decide) (by decide) hs.epochOf_le now now.2.1 hdetail
      hq.heads)

theorem wp_abortUnboundStatePublication {d : StateDirectory} {L : List StatePublication}
    (hs : Stored d L) (eventId : Text) (expectedEpoch : Option ℤ) (detail : Text)
    (now later : TimeNs) :
    wp (abortUnboundStatePublication eventId expectedEpoch detail now later) d
      (Grows L (.abortUnbound eventId expectedEpoch detail now later)) fun _ _ => True := by
  unfold abortUnboundStatePublication
  refine wp_check (fun _ => trivial) fun event _ => ?_
  refine wp_check (fun _ => trivial) fun detail' hdetail => ?_
  obtain ⟨rfl, hdetail⟩ := requiredText_str.mp hdetail
  rw [wp_read_bind]
  refine wp_check (fun _ => trivial) fun ⟨q, epoch⟩ ht => ?_
  obtain ⟨rfl, htarget, hnil⟩ := abortUnboundTarget_eq_ok hs ht
  have hq := (hs.recorded q htarget.mem).wellFormed
  have hf := fails_recoveryRecord L q (eventIdOf (epochOf L) "recovery" now.1) later.1 detail' []
  exact wp_appendFailed hs hf (.unbound htarget hnil hf)
    (recoveryRecord_wellFormed hq (by decide) (by decide) hs.epochOf_le now later.2.1 hdetail
      canonicalHeads_nil)

/-! ## Views -/

/-- What a view of a stored journal shows. -/
theorem Stored.view {H : Sha256} {d : StateDirectory} {L : List StatePublication}
    (hs : Stored d L) {view : StatePublicationView} (h : readStatePublicationState H d = .ok view) :
    view.pending = pendingRecords L ∧ view.publication = (completeRecords L).getLast? ∧
      IsCurrentEpoch L view.epoch := by
  obtain ⟨e, he, hcur⟩ := hs.readPublicationObservation
  rw [readStatePublicationState, he, bind_eq_ok] at h
  obtain ⟨_, hw, h⟩ := h
  cases hw
  simp only at h
  rw [hs.numbered.maxByEpoch] at h
  split_ifs at h with hp
  · rw [pure_eq_ok] at h
    subst h
    exact ⟨rfl, rfl, hcur⟩
  · rw [not_not] at hp
    rw [hp]
    cases hl : (completeRecords L).getLast? with
    | none =>
      rw [hl] at h
      simp only [pure_eq_ok] at h
      subst h
      exact ⟨rfl, rfl, hcur⟩
    | some p =>
      rw [hl] at h
      simp only at h
      split at h
      · rw [pure_eq_ok] at h
        subst h
        exact ⟨rfl, rfl, hcur⟩
      · cases h
      · rw [pure_eq_ok] at h
        subst h
        exact ⟨rfl, rfl, hcur⟩

theorem pending_of_singleton {L : List StatePublication} {q : StatePublication}
    (h : pendingRecords L = [q]) : Pending L q :=
  mem_pendingRecords.mp (by rw [h]; exact List.mem_cons_self)

theorem reconcileTarget_eq_ok {H : Sha256} {d : StateDirectory} {L : List StatePublication}
    (hs : Stored d L) {eventId : Text} {expectedEpoch : ℤ} {publicationEventId : Text}
    {verify : Checked (List StateOwnerHead)} {q : StatePublication}
    (h : reconcileTarget H d eventId expectedEpoch publicationEventId verify = .ok q) :
    Pending L q ∧ q.ownerHeads = [] ∧ expectedEpoch.toNat = epochOf L := by
  unfold reconcileTarget at h
  rw [bind_eq_ok] at h
  obtain ⟨view, hv, h⟩ := h
  obtain ⟨hpend, -, hcur⟩ := hs.view hv
  have hepoch := hcur.epoch hs.numbered
  split at h
  · simp only [bind_eq_ok, raiseIf_eq_ok] at h
    obtain ⟨_, hexp, _, -, h⟩ := h
    split at h
    · rename_i pending hsingle
      simp only [bind_eq_ok, raiseIf_eq_ok, pure_eq_ok] at h
      obtain ⟨_, -, _, hscope, _, -, rfl⟩ := h
      rw [not_or, not_or, not_not] at hscope
      rw [not_or, not_not] at hexp
      refine ⟨pending_of_singleton (hpend.symm.trans hsingle), ?_, ?_⟩
      · exact not_not.mp hscope.2.1
      · rw [← hexp.1, Int.toNat_natCast, hepoch]
    · cases h
  · cases h

theorem wp_reconcileUnboundStatePublication {H : Sha256} {d : StateDirectory}
    {L : List StatePublication} (hs : Stored d L) (eventId : Text) (expectedEpoch : ℤ)
    (publicationEventId : Text) (verify : Checked (List StateOwnerHead)) (now : TimeNs) :
    wp (reconcileUnboundStatePublication H eventId expectedEpoch publicationEventId verify now) d
      (Grows L (.reconcileUnbound eventId expectedEpoch publicationEventId verify now))
      fun _ _ => True := by
  unfold reconcileUnboundStatePublication
  refine wp_check (fun _ => trivial) fun event _ => ?_
  refine wp_check (fun _ => trivial) fun publication hpub => ?_
  obtain ⟨rfl, hpub⟩ := requiredText_str.mp hpub
  refine wp_check (fun _ => trivial) fun _ _ => ?_
  rw [wp_read_bind]
  refine wp_check (fun _ => trivial) fun q ht => ?_
  obtain ⟨hpend, hnil, hepoch⟩ := reconcileTarget_eq_ok hs ht
  have hq := (hs.recorded q hpend.mem).wellFormed
  simp only [hepoch]
  have hf := fails_recoveryRecord L q (eventIdOf (epochOf L) "recovery" now.1) now.1
    (lit "Legacy Semantic prepare reconciled against unchanged published owners; " ++
      lit "publication_event=" ++ publication ++ lit "; rollback_claimed=false") []
  exact wp_appendFailed hs hf (.reconciled hpend hnil hf)
    (recoveryRecord_wellFormed hq (by decide) (by decide) hs.epochOf_le now now.2.1
      (isRequiredText_reconcileDetail hpub) canonicalHeads_nil)

/-- Resuming writes nothing. -/
theorem writes_resumeStatePublication (H : Sha256) (r : ResumeRequest) (d : StateDirectory) :
    wp (resumeStatePublication H r) d (fun _ => False) fun _ _ => True := by
  unfold resumeStatePublication
  refine wp_check (fun _ => trivial) fun owners _ => ?_
  refine wp_check (fun _ => trivial) fun operation _ => ?_
  refine wp_check (fun _ => trivial) fun event _ => ?_
  refine wp_check (fun _ => trivial) fun manifest _ => ?_
  refine wp_check (fun _ => trivial) fun key _ => ?_
  refine wp_check (fun _ => trivial) fun _ _ => ?_
  rw [wp_read_bind]
  refine wp_check (fun _ => trivial) fun view _ => ?_
  refine wp_check (fun _ => trivial) fun _ _ => ?_
  split
  · refine wp_check (fun _ => trivial) fun _ _ => ?_
    refine wp_check (fun _ => trivial) fun _ _ => ?_
    split
    · rw [wp_pure]
      trivial
    · refine wp_check (fun _ => trivial) fun _ _ => ?_
      rw [wp_pure]
      trivial
  · rw [wp_lift]
    trivial

/-! ## Restarts -/

theorem admitRestart_eq_ok {H : Sha256} {d : StateDirectory} {L : List StatePublication}
    (hs : Stored d L) {eventId digest : Text} {expectedEpoch : ℕ} {heads : List StateOwnerHead}
    {owners : List Text} {verify : Checked (List StateOwnerHead)} {q : StatePublication}
    {observed : StateEpoch}
    (h : admitRestart H d eventId digest expectedEpoch heads owners verify =
      .ok (.checkpoint q observed)) :
    Pending L q ∧ expectedEpoch = epochOf L := by
  unfold admitRestart at h
  rw [bind_eq_ok] at h
  obtain ⟨view, hv, h⟩ := h
  rw [bind_eq_ok] at h
  obtain ⟨journal, -, h⟩ := h
  obtain ⟨hpend, -, hcur⟩ := hs.view hv
  have hepoch := hcur.epoch hs.numbered
  split at h
  · simp only [bind_eq_ok, pure_eq_ok] at h
    obtain ⟨_, -, _, -, h⟩ := h
    cases h
  · rename_i pending hsingle
    simp only [bind_eq_ok, raiseIf_eq_ok, pure_eq_ok] at h
    obtain ⟨_, hexp, _, -, _, -, h⟩ := h
    cases h
    rw [not_or, not_not] at hexp
    exact ⟨pending_of_singleton (hpend.symm.trans hsingle), hexp.1.symm.trans hepoch⟩
  · cases h

/-- A journal of the writers is empty or ends with a newline. -/
theorem getLast?_journalBytes {L : List StatePublication} (hne : L ≠ []) :
    (journalBytes L).getLast? = some 10 := by
  obtain ⟨M, p, rfl⟩ := (List.eq_nil_or_concat' L).resolve_left hne
  rw [journalBytes_append, journalBytes_singleton, encodeUtf8_append]
  have e : encodeUtf8 ['\n'] = [10] := by decide
  rw [e, ← List.append_assoc, List.getLast?_concat]

/-- The replacement of a restart is a plain extension. -/
theorem restartJournal_journalBytes (L : List StatePublication) (f c : Bytes) :
    restartJournal (journalBytes L) f c = journalBytes L ++ (f ++ c) := by
  have hsep : journalBytes L = [] ∨ (journalBytes L).getLast? = some 10 := by
    by_cases h : L = []
    · subst h
      exact Or.inl rfl
    · exact Or.inr (getLast?_journalBytes h)
  rw [restartJournal, if_pos hsep, List.append_nil]

/-- The writes of a restart leave the journal alone or append both records, and the manifest of the
checkpoint is there before it is. -/
theorem wp_writeRestart {H : Sha256} {d : StateDirectory} {L : List StatePublication}
    (hs : Stored d L) {failed draft : StatePublication} {observed : StateEpoch}
    {heads : List StateOwnerHead} {verify : Checked (List StateOwnerHead)}
    (hfailed : failed.WellFormed) (hdraft : draft.WellFormed)
    (hfe : failed.epoch = epochOf L) (hfs : failed.status = .failed)
    (hde : draft.epoch = epochOf L + 1) (hds : draft.status = .complete) :
    wp (writeRestart H failed draft observed heads verify) d
      (fun d' => Stored d' L ∨ ∃ m, Stored d' (L ++ [failed, draft.withManifest m]) ∧
        ManifestWritten H d draft m d') fun _ _ => True := by
  unfold writeRestart
  rw [wp_bind]
  refine wp_writeContentManifest (fun d' hd => Or.inl (hs.of_sameRecords hd))
    (fun _ _ _ => trivial) fun m d1 hd hm => ?_
  have hs1 := hs.of_sameRecords hd
  have hcheckpoint : (draft.withManifest m).WellFormed := by
    refine hdraft.withManifest hm.manifestName ?_
    obtain ⟨encoded, -, -, hsha, -⟩ := hm.file
    rw [hsha]
    exact H.isSha256 _
  rw [onEnd_ok]
  refine wp_check (fun _ => trivial) fun f hf => ?_
  refine wp_check (fun _ => trivial) fun c hc => ?_
  obtain ⟨hffit, hf⟩ := canonicalJsonBytes_asPayload.mp hf
  obtain ⟨hcfit, hc⟩ := canonicalJsonBytes_asPayload.mp hc
  have hflen : f.length = failed.line.length + 1 := by rw [hf, length_encoded_line hffit]
  have hclen : c.length = (draft.withManifest m).line.length + 1 := by
    rw [hc, length_encoded_line hcfit]
  refine wp_check (fun _ => trivial) fun _ hsmall => ?_
  rw [raiseIf_eq_ok, not_or] at hsmall
  rw [wp_read_bind]
  refine wp_check (fun _ => trivial) fun _ hb => ?_
  rw [raiseIf_eq_ok] at hb
  refine wp_check (fun _ => trivial) fun _ _ => ?_
  refine wp_check (fun _ => trivial) fun _ _ => ?_
  refine wp_check (fun _ => trivial) fun _ _ => ?_
  -- the new file is the old one followed by both lines
  have hfile : restartJournal (d1.journal.getD []) f c =
      journalBytes (L ++ [failed, draft.withManifest m]) := by
    have e : [failed, draft.withManifest m] = [failed] ++ [draft.withManifest m] := rfl
    rw [hs1.getD_journal, restartJournal_journalBytes, journalBytes_append, e,
      journalBytes_append, journalBytes_singleton, journalBytes_singleton, hf, hc]
  rw [hfile] at hb ⊢
  have hs2 := hs1.setJournal (M := [failed, draft.withManifest m]) (by
    intro p hp
    rcases List.mem_cons.mp hp with rfl | hp
    · exact ⟨hfailed, hffit, by omega⟩
    · rw [List.mem_singleton.mp hp]
      exact ⟨hcheckpoint, hcfit, by omega⟩) (by omega) (by
    refine ⟨by rw [hfe, hfs]; rfl, ?_, trivial⟩
    have e1 : (draft.withManifest m).epoch = draft.epoch := rfl
    have e2 : (draft.withManifest m).status = draft.status := rfl
    rw [e1, e2, hde, hds, hfe]
    rfl)
  rw [wp_write_bind]
  refine ⟨Or.inr ⟨m, hs2, hm.heads, hm.name, hm.manifestName, hm.file⟩, ?_⟩
  rw [wp_bind]
  refine wp_writeEpochPointer (fun _ => trivial) fun raw hr => ?_
  have hmem : draft.withManifest m ∈ completeRecords (L ++ [failed, draft.withManifest m]) := by
    rw [completeRecords, List.mem_filter, decide_eq_true_eq]
    exact ⟨by simp, hds⟩
  refine ⟨Or.inr ⟨m, hs2.setPointer hmem hr, hm.heads, hm.name, hm.manifestName, hm.file⟩, ?_⟩
  rw [onEnd_ok, wp_pure]
  trivial

theorem wp_restartStatePublicationCheckpoint {H : Sha256} {d : StateDirectory}
    {L : List StatePublication} (hs : Stored d L) (eventId : Text) (expectedEpoch : ℤ)
    (ownerHeads : List StateOwnerHead) (verify again : Checked (List StateOwnerHead))
    (now : TimeNs) :
    wp (restartStatePublicationCheckpoint H eventId expectedEpoch ownerHeads verify again now) d
      (Grows L (.restart eventId expectedEpoch ownerHeads verify again now)) fun _ _ => True := by
  unfold restartStatePublicationCheckpoint
  refine wp_check (fun _ => trivial) fun event _ => ?_
  refine wp_check (fun _ => trivial) fun _ _ => ?_
  refine wp_check (fun _ => trivial) fun heads hheads => ?_
  refine wp_check (fun _ => trivial) fun owners _ => ?_
  refine wp_check (fun _ => trivial) fun _ hsem => ?_
  rw [raiseIf_eq_ok, not_not] at hsem
  subst hsem
  refine wp_check (fun _ => trivial) fun key _ => ?_
  rw [wp_read_bind]
  refine wp_check (fun _ => trivial) fun decision hdec => ?_
  cases decision with
  | replay p =>
    rw [wp_pure]
    trivial
  | checkpoint q observed =>
    obtain ⟨hpend, hepoch⟩ := admitRestart_eq_ok hs hdec
    have hq := (hs.recorded q hpend.mem).wellFormed
    have hh := canonicalHeads_of_eq_ok hheads
    simp only [hepoch]
    refine wp_mono (fun d' hd => ?_) (fun _ _ h => h)
      (wp_writeRestart hs (abandonedRecord_wellFormed hq hs.epochOf_le now hh)
        (checkpointDraft_wellFormed hs.epochOf_le now _ hh) rfl rfl rfl rfl)
    rcases hd with hd | ⟨m, hd, -⟩
    · exact hd.grows _
    · have hf : Fails L q (abandonedRecord q (epochOf L) now.1 heads) := ⟨rfl, rfl, rfl⟩
      refine ⟨_, .restarted hpend hf ?_ ?_, hd⟩
      · rfl
      · rfl

/-! ## Every call -/

/-- **What a call does.**  Wherever it is cut, the directory stores the old journal followed by
an extension that `Growth` allows. -/
theorem Call.grows {H : Sha256} {d : StateDirectory} {L : List StatePublication}
    (hs : Stored d L) (c : Call) : wp (c.program H) d (Grows L c) fun _ _ => True := by
  have done : ∀ {α : Type} (x : Operation α),
      (wp x d (Grows L c) fun _ _ => True) →
        wp (x >>= fun _ => pure ()) d (Grows L c) fun _ _ => True := by
    intro α x hx
    rw [wp_bind]
    refine wp_mono (fun _ h => h) (fun r t _ => ?_) hx
    cases r with
    | error e => trivial
    | ok a =>
      rw [onEnd_ok, wp_pure]
      trivial
  have record : ∀ r now, c.Records →
      wp (recordStatePublication H r now) d (Grows L c) fun _ _ => True := fun r now hc =>
    wp_mono (fun _ h => h) (fun _ _ _ => trivial) (wp_recordStatePublication hs hc r now)
  cases c with
  | record r now => exact done _ (record r now trivial)
  | begin r now =>
    refine done _ ?_
    unfold beginStatePublication
    refine wp_check (fun _ => trivial) fun owners _ => ?_
    rw [wp_bind]
    refine wp_mono (fun _ h => h) (fun r t _ => ?_) (record (r.toRecord owners) now trivial)
    cases r with
    | error e => trivial
    | ok a =>
      rw [onEnd_ok, wp_pure]
      trivial
  | commit t heads manifest detail verify now => exact done _ (record _ now trivial)
  | abort eventId observed expectedEpoch detail now =>
    exact done _ (wp_abortStatePublication hs eventId observed expectedEpoch detail now)
  | abortUnbound eventId expectedEpoch detail now later =>
    exact done _ (wp_abortUnboundStatePublication hs eventId expectedEpoch detail now later)
  | reconcileUnbound eventId expectedEpoch publicationEventId verify now =>
    exact done _ (wp_reconcileUnboundStatePublication hs eventId expectedEpoch publicationEventId
      verify now)
  | resume r =>
    exact done _ (wp_mono (fun _ h => h.elim) (fun _ _ h => h)
      (writes_resumeStatePublication H r d))
  | restart eventId expectedEpoch heads verify again now =>
    exact done _ (wp_restartStatePublicationCheckpoint hs eventId expectedEpoch heads verify again
      now)

end Publication
end Neocortex
