import Neocortex.Publication.Readable

/-!
# Replays

A complete record settles its idempotency key: `record_state_publication` returns it to every later
call with the arguments of the key, and refuses other heads or another manifest.

* `Named`: event ids carry the epoch, so an abort never finds a settled key by the id of its prepare.
* `Backed`: the content manifest of a complete record stays in the directory.
* `Replayable`: what calls in any order keep, as long as no restart writes its checkpoint under the
  key of a complete record.

`restart_state_publication_checkpoint` looks at its key only while nothing is pending; with a pending
prepare it appends its checkpoint whatever is recorded under the key.
-/

namespace Neocortex
namespace Publication

open Python Checks Durable

/-! ## Event ids -/

theorem takeWhile_decimal (n : ℕ) (t : Text) :
    List.takeWhile (· ≠ ':') (decimal n ++ (lit ":" ++ t)) = decimal n := by
  have hcolon : List.takeWhile (· ≠ ':') (lit ":" ++ t) = [] :=
    List.takeWhile_cons_of_neg (by decide)
  have hdigits : ∀ c ∈ decimal n, decide (c ≠ ':') = true := by
    intro c hc
    have hdigit := isDigit_of_mem_decimal hc
    rw [decide_eq_true_eq]
    intro heq
    rw [heq] at hdigit
    exact absurd hdigit (by decide)
  rw [List.takeWhile_append_of_pos hdigits, hcolon, List.append_nil]

/-- An event id determines its epoch. -/
theorem epoch_of_eventIdOf {epoch epoch' createdNs createdNs' : ℕ} {kind kind' : String}
    (h : eventIdOf epoch kind createdNs = eventIdOf epoch' kind' createdNs') : epoch = epoch' := by
  have split : ∀ e k c, eventIdOf e k c =
      lit "epoch:" ++ (decimal e ++ (lit ":" ++ (lit k ++ (lit ":" ++ decimal c)))) := by
    intro e k c
    unfold eventIdOf
    generalize lit "epoch:" = first
    generalize lit ":" = colon
    simp only [List.append_assoc]
  rw [split, split, List.append_cancel_left_eq] at h
  have hdecimal := congrArg (List.takeWhile (· ≠ ':')) h
  rw [takeWhile_decimal, takeWhile_decimal] at hdecimal
  rw [← decimalVal_decimal epoch, hdecimal, decimalVal_decimal]

/-- The event id of `p` carries its epoch. -/
def Named (p : StatePublication) : Prop :=
  ∃ kind createdNs, p.eventId = eventIdOf p.epoch kind createdNs

/-- The last record of a key, with what comes before it and behind it. -/
theorem exists_append_of_latestFor {L : List StatePublication} {k : Text} {c : StatePublication}
    (h : latestFor L k = some c) :
    ∃ before after, L = before ++ c :: after ∧ ∀ p ∈ after, p.idempotencyKey ≠ k := by
  obtain ⟨-, first, others, hL, hfirst⟩ := List.find?_eq_some_iff_append.mp h
  refine ⟨others.reverse, first.reverse, ?_, ?_⟩
  · rw [← List.reverse_reverse L, hL]
    simp
  · intro p hp
    simpa using hfirst p (List.mem_reverse.mp hp)

/-- A prepare and a complete record of its key that comes last have different event ids. -/
theorem status_ne_complete {L : List StatePublication} (hnumbered : Numbered 0 L)
    (hnamed : ∀ p ∈ L, p.status ≠ .failed → Named p) {q c : StatePublication} (hq : q ∈ L)
    (hstatus : q.status = .partial_) (hc : latestFor L q.idempotencyKey = some c)
    (he : c.eventId = q.eventId) : c.status ≠ .complete := by
  intro hcomplete
  obtain ⟨before, after, rfl, hafter⟩ := exists_append_of_latestFor hc
  obtain ⟨k, t, hcname⟩ := hnamed c (by simp) (by simp [hcomplete])
  obtain ⟨k', t', hqname⟩ := hnamed q hq (by simp [hstatus])
  have hepoch : c.epoch = q.epoch := by
    rw [hcname, hqname] at he
    exact epoch_of_eventIdOf he
  rw [numbered_append] at hnumbered
  have hcepoch := hnumbered.2.1
  rw [hcomplete] at hcepoch
  -- The prepare comes before the record that settles it, at a smaller epoch.
  have hmem : q ∈ before := by
    rcases List.mem_append.mp hq with hq | hq
    · exact hq
    · rcases List.mem_cons.mp hq with rfl | hq
      · rw [hcomplete] at hstatus
        cases hstatus
      · exact absurd rfl (hafter q hq)
  obtain ⟨first, others, rfl⟩ := List.append_of_mem hmem
  have hqepoch := (numbered_append.mp hnumbered.1).2.1
  rw [hstatus] at hqepoch
  rw [epochOf_append] at hcepoch
  simp only [PublicationStatus.step] at hcepoch hqepoch
  simp at hcepoch hqepoch
  omega

/-! ## Manifests stay -/

/-- The manifests of `d` are in `d'`. -/
def Extends (d d' : StateDirectory) : Prop :=
  ∀ name raw, d.contentManifests name = some raw → d'.contentManifests name = some raw

theorem Extends.refl (d : StateDirectory) : Extends d d := fun _ _ h => h

/-- Wherever the program starts and is cut, the manifests stay. -/
def Extending {α : Type} (x : Operation α) : Prop :=
  ∀ d t, Extends d t → Keeps (Extends d) x t fun _ _ => True

section Extending

variable {α β : Type}

theorem Extending.bind {x : Operation α} {f : α → Operation β} (hx : Extending x)
    (hf : ∀ a, Extending (f a)) : Extending (x >>= f) :=
  fun d t ht => Keeps.bind (hx d t ht) fun a u hu _ => hf a d u hu

theorem Extending.lift (r : Checked α) : Extending (liftM r : Operation α) :=
  fun _ _ ht => Keeps.lift ht fun _ _ => trivial

theorem Extending.pure (a : α) : Extending (pure a : Operation α) :=
  fun _ _ ht => Keeps.pure ht trivial

theorem Extending.read : Extending (Program.read : Operation StateDirectory) :=
  fun _ _ ht => Keeps.read ht trivial

/-- A write that leaves the manifests alone. -/
theorem Extending.update {f : StateDirectory → StateDirectory}
    (hf : ∀ s, (f s).contentManifests = s.contentManifests) :
    Extending (Program.read >>= fun s => Program.write (f s) : Operation Unit) := by
  intro d t ht
  rw [Keeps, wp_read_bind]
  refine Keeps.write (fun name raw h => ?_) trivial
  rw [hf]
  exact ht name raw h

theorem extending_writeContentPointer (p : StatePublication) (name digest : Text) :
    Extending (writeContentPointer p name digest) :=
  (Extending.lift _).bind fun pointer =>
    Extending.update (f := fun s => { s with contentPointer := some pointer }) fun _ => rfl

theorem extending_writeContentManifest (H : Sha256) (p : StatePublication) :
    Extending (writeContentManifest H p) := by
  unfold writeContentManifest
  refine (Extending.lift _).bind fun _ => (Extending.lift _).bind fun destination =>
    (Extending.lift _).bind fun encoded => ?_
  have pointer : ∀ name digest, Extending
      (writeContentPointer p name digest >>= fun _ => Pure.pure (name, digest)) := fun name digest =>
    (extending_writeContentPointer p name digest).bind fun _ => Extending.pure _
  intro d t ht
  rw [Keeps, wp_read_bind]
  cases hm : t.contentManifests destination with
  | none =>
    refine Keeps.bind (P := fun _ _ => True) (Keeps.write ?_ trivial) fun _ u hu _ => pointer _ _ d u hu
    intro name raw h
    have hne : name ≠ destination := by
      rintro rfl
      rw [ht name raw h] at hm
      cases hm
    show (if name = destination then some encoded else t.contentManifests name) = some raw
    rw [if_neg hne]
    exact ht name raw h
  | some raw => exact ((Extending.lift _).bind fun _ => pointer _ _) d t ht

theorem extending_appendJournal (p : StatePublication) : Extending (appendJournal p) := by
  unfold appendJournal
  refine (Extending.lift _).bind fun encoded => (Extending.lift _).bind fun _ => ?_
  intro d t ht
  rw [Keeps, wp_read_bind]
  exact wp_check (fun _ => ht) fun _ _ => Keeps.write ht trivial

theorem extending_writeEpochPointer (p : StatePublication) : Extending (writeEpochPointer p) :=
  (Extending.lift _).bind fun encoded =>
    Extending.update (f := fun s => { s with epochPointer := some encoded }) fun _ => rfl

theorem extending_publish (H : Sha256) (p : StatePublication) : Extending (publish H p) := by
  have attach : Extending (attachManifest H p) := by
    unfold attachManifest
    split_ifs
    · exact (extending_writeContentManifest H p).bind fun _ => Extending.pure _
    · exact Extending.pure _
  refine attach.bind fun p' => (extending_appendJournal p').bind fun _ => ?_
  split_ifs
  · exact (extending_writeEpochPointer p').bind fun _ => Extending.pure _
  · exact Extending.pure _

theorem extending_recordStatePublication (H : Sha256) (r : RecordRequest) (now : TimeNs) :
    Extending (recordStatePublication H r now) := by
  refine (Extending.lift _).bind fun q => Extending.read.bind fun d =>
    (Extending.lift _).bind fun admission => ?_
  cases admission with
  | replay prior => exact Extending.pure _
  | publish current => exact extending_publish H _

theorem extending_writeRestart (H : Sha256) (failed draft : StatePublication)
    (observed : StateEpoch) (heads : List StateOwnerHead)
    (verify : Checked (List StateOwnerHead)) :
    Extending (writeRestart H failed draft observed heads verify) := by
  unfold writeRestart
  refine (extending_writeContentManifest H draft).bind fun manifest =>
    (Extending.lift _).bind fun _ => (Extending.lift _).bind fun _ =>
      (Extending.lift _).bind fun _ => ?_
  intro d t ht
  rw [Keeps, wp_read_bind]
  refine wp_check (fun _ => ht) fun _ _ => wp_check (fun _ => ht) fun _ _ =>
    wp_check (fun _ => ht) fun _ _ => wp_check (fun _ => ht) fun _ _ => ?_
  exact Keeps.bind (P := fun _ _ => True) (Keeps.write ht trivial) fun _ u hu _ =>
    ((extending_writeEpochPointer _).bind fun _ => Extending.pure _) d u hu

/-- Every call keeps the manifests. -/
theorem Call.extending (H : Sha256) (c : Call) : Extending (c.program H) := by
  cases c with
  | record r now => exact (extending_recordStatePublication H r now).bind fun _ => Extending.pure _
  | begin r now =>
    refine Extending.bind ?_ fun _ => Extending.pure _
    exact (Extending.lift _).bind fun owners =>
      (extending_recordStatePublication H _ now).bind fun _ => Extending.pure _
  | commit t ownerHeads manifestSha256 detail verify now =>
    exact (extending_recordStatePublication H _ now).bind fun _ => Extending.pure _
  | abort eventId observed expectedEpoch detail now =>
    refine Extending.bind ?_ fun _ => Extending.pure _
    exact (Extending.lift _).bind fun _ => (Extending.lift _).bind fun _ =>
      (Extending.lift _).bind fun _ => Extending.read.bind fun _ =>
        (Extending.lift _).bind fun _ => (extending_appendJournal _).bind fun _ => Extending.pure _
  | abortUnbound eventId expectedEpoch detail now later =>
    refine Extending.bind ?_ fun _ => Extending.pure _
    exact (Extending.lift _).bind fun _ => (Extending.lift _).bind fun _ =>
      Extending.read.bind fun _ => (Extending.lift _).bind fun _ =>
        (extending_appendJournal _).bind fun _ => Extending.pure _
  | reconcileUnbound eventId expectedEpoch publicationEventId verify now =>
    refine Extending.bind ?_ fun _ => Extending.pure _
    exact (Extending.lift _).bind fun _ => (Extending.lift _).bind fun _ =>
      (Extending.lift _).bind fun _ => Extending.read.bind fun _ =>
        (Extending.lift _).bind fun _ => (extending_appendJournal _).bind fun _ => Extending.pure _
  | resume r =>
    refine Extending.bind ?_ fun _ => Extending.pure _
    intro d t ht
    have hwrites := (writes_resumeStatePublication H r t).1
    have hnil : (resumeStatePublication H r t).writes = [] :=
      List.eq_nil_iff_forall_not_mem.mpr hwrites
    refine ⟨fun u hu => (hwrites u hu).elim, ?_⟩
    rw [Outcome.final, hnil]
    cases (resumeStatePublication H r t).result with
    | error e => exact ht
    | ok a => exact ⟨ht, trivial⟩
  | restart eventId expectedEpoch ownerHeads verify again now =>
    refine Extending.bind ?_ fun _ => Extending.pure _
    refine (Extending.lift _).bind fun _ => (Extending.lift _).bind fun _ =>
      (Extending.lift _).bind fun _ => (Extending.lift _).bind fun _ =>
        (Extending.lift _).bind fun _ => (Extending.lift _).bind fun _ =>
          Extending.read.bind fun _ => (Extending.lift _).bind fun decision => ?_
    cases decision with
    | replay p => exact Extending.pure _
    | checkpoint pending observed => exact extending_writeRestart H _ _ _ _ _

end Extending

/-- The content manifest that the complete record `p` names is stored. -/
def Backed (H : Sha256) (d : StateDirectory) (p : StatePublication) : Prop :=
  (p.ownerHeads = [] ∧ p.contentManifestName = none ∧ p.contentManifestSha256 = none) ∨
    ∃ draft m, draft.status = .complete ∧ p = draft.withManifest m ∧ ManifestWritten H d draft m d

theorem ManifestWritten.mono {H : Sha256} {d d' d'' : StateDirectory} {p : StatePublication}
    {m : Text × Text} (h : ManifestWritten H d p m d') (he : Extends d' d'') :
    ManifestWritten H d'' p m d'' := by
  obtain ⟨encoded, raw, henc, hsha, hfile, -, hlength, hhash⟩ := h.file
  exact ⟨h.heads, h.name, h.manifestName,
    encoded, raw, henc, hsha, he _ _ hfile, Or.inr (he _ _ hfile), hlength, hhash⟩

theorem Backed.mono {H : Sha256} {d d' : StateDirectory} {p : StatePublication}
    (h : Backed H d p) (he : Extends d d') : Backed H d' p := by
  rcases h with h | ⟨draft, m, hstatus, hp, hw⟩
  · exact Or.inl h
  · exact Or.inr ⟨draft, m, hstatus, hp, hw.mono he⟩

/-- The manifest of a backed record passes its reader. -/
theorem Backed.read {H : Sha256} {d : StateDirectory} {p : StatePublication} (h : Backed H d p)
    (hp : p.Recorded) (hn : p.ownerHeads ≠ [] → NoManifestCollision H d p) :
    readContentManifestForPublication H d p = .ok () := by
  rcases h with ⟨hnil, hname, hdigest⟩ | ⟨draft, m, hstatus, rfl, hw⟩
  · rw [readContentManifestForPublication, if_pos hnil, raiseIf_eq_ok, hname, hdigest]
    simp
  · exact readContentManifest_written hw (hn hw.heads) hp hstatus

/-! ## What a call appends -/

/-- `d'` stores `L` and behind it `Δ`; under the key `K` only if no complete record settles it. -/
structure Added (H : Sha256) (K : Text) (L : List StatePublication) (d' : StateDirectory)
    (Δ : List StatePublication) : Prop where
  stored : Stored d' (L ++ Δ)
  named : ∀ p ∈ Δ, p.status ≠ .failed → Named p
  backed : ∀ p ∈ Δ, p.status = .complete → Backed H d' p
  last : ∀ p ∈ Δ, p.status = .complete → Δ.getLast? = some p
  other : ∀ c, latestFor L K = some c → c.status = .complete → ∀ p ∈ Δ, p.idempotencyKey ≠ K

/-- What calls keep, for a key `K` under which no restart writes once it is settled. -/
structure Replayable (H : Sha256) (K : Text) (d : StateDirectory) (L : List StatePublication) :
    Prop where
  stored : Stored d L
  named : ∀ p ∈ L, p.status ≠ .failed → Named p
  backed : ∀ p ∈ L, p.status = .complete → Backed H d p
  settled : ∀ c ∈ L, c.idempotencyKey = K → c.status = .complete → latestFor L K = some c

theorem replayable_empty (H : Sha256) (K : Text) : Replayable H K .empty [] :=
  ⟨stored_empty, by simp, by simp, by simp⟩

theorem latestFor_append_of_ne {L Δ : List StatePublication} {k : Text}
    (h : ∀ p ∈ Δ, p.idempotencyKey ≠ k) : latestFor (L ++ Δ) k = latestFor L k := by
  have hnone : Δ.reverse.find? (fun item => item.idempotencyKey = k) = none := by
    rw [List.find?_eq_none]
    intro p hp
    simpa using h p (List.mem_reverse.mp hp)
  rw [latestFor, List.reverse_append, List.find?_append, hnone, Option.none_or, latestFor]

theorem latestFor_of_getLast? {L : List StatePublication} {p : StatePublication}
    (h : L.getLast? = some p) : latestFor L p.idempotencyKey = some p := by
  obtain ⟨M, rfl⟩ := List.getLast?_eq_some_iff.mp h
  rw [latestFor_append_singleton, if_pos rfl]

section Calls

variable {H : Sha256} {K : Text} {d d' : StateDirectory} {L Δ : List StatePublication}

theorem Replayable.added (h : Replayable H K d L) (he : Extends d d') (ha : Added H K L d' Δ) :
    Replayable H K d' (L ++ Δ) where
  stored := ha.stored
  named p hp := (List.mem_append.mp hp).elim (h.named p) (ha.named p)
  backed p hp hcomplete :=
    (List.mem_append.mp hp).elim (fun hp => (h.backed p hp hcomplete).mono he)
      fun hp => ha.backed p hp hcomplete
  settled c hc hkey hcomplete := by
    rcases List.mem_append.mp hc with hc | hc
    · have hlatest := h.settled c hc hkey hcomplete
      rw [latestFor_append_of_ne (ha.other c hlatest hcomplete), hlatest]
    · have hlast : (L ++ Δ).getLast? = some c := by
        rw [List.getLast?_append, ha.last c hc hcomplete, Option.some_or]
      rw [← hkey]
      exact latestFor_of_getLast? hlast

theorem added_nil (hs : Stored d' L) : Added H K L d' [] :=
  ⟨by rwa [List.append_nil], by simp, by simp, by simp, by simp⟩

/-- A failed record, of a key that is not settled. -/
theorem added_failed {q p : StatePublication} (hs : Stored d' (L ++ [p])) (hf : Fails L q p)
    (hq : ∀ c, latestFor L q.idempotencyKey = some c → c.status ≠ .complete) :
    Added H K L d' [p] where
  stored := hs
  named p' hp' hne := by
    rw [List.mem_singleton] at hp'
    subst hp'
    exact absurd hf.status hne
  backed p' hp' hcomplete := by
    rw [List.mem_singleton] at hp'
    subst hp'
    rw [hf.status] at hcomplete
    cases hcomplete
  last p' hp' _ := by
    rw [List.mem_singleton] at hp'
    subst hp'
    rfl
  other c hc hcomplete p' hp' hkey := by
    rw [List.mem_singleton] at hp'
    subst hp'
    rw [← hkey, hf.key] at hc
    exact hq c hc hcomplete

/-- The latest record of a pending key is not complete. -/
theorem Pending.latest_ne_complete {q c : StatePublication} (hq : Pending L q)
    (hc : latestFor L q.idempotencyKey = some c) : c.status ≠ .complete := by
  rw [hq.1] at hc
  rw [← Option.some.inj hc, hq.2]
  decide

/-- A settled key gets no new record. -/
theorem admitPrior_publish {q : CheckedRequest} {epoch epoch' : ℕ} {c : StatePublication}
    (h : admitPrior q epoch (some c) = .ok (.publish epoch')) : c.status ≠ .complete := by
  intro hcomplete
  rw [admitPrior, bind_eq_ok] at h
  obtain ⟨_, -, h⟩ := h
  rw [if_pos (Or.inl hcomplete), pure_eq_ok] at h
  cases h

theorem wp_record_added (hs : Stored d L) (r : RecordRequest) (now : TimeNs) :
    wp (recordStatePublication H r now) d (fun d' => ∃ Δ, Added H K L d' Δ)
      fun _ _ => True := by
  unfold recordStatePublication
  refine wp_check (fun _ => trivial) fun q hq => ?_
  obtain ⟨hwf, -⟩ := checkRequest_wellFormed hq
  rw [wp_read_bind]
  refine wp_check (fun _ => trivial) fun a ha => ?_
  obtain ⟨-, -, hprior⟩ := admitRecord_eq_ok hs ha
  cases a with
  | replay p =>
    rw [wp_pure]
    trivial
  | publish current =>
    obtain rfl : current = epochOf L := by
      rcases admitPrior_eq_ok hprior with ⟨_, -, h, -⟩ | ⟨h, -⟩
      · cases h
      · exact Admission.publish.inj h
    have hdraft := CheckedRequest.draft_wellFormed hwf hs.epochOf_le now
    refine wp_mono (fun d' hd => ?_) (fun _ _ _ => trivial) (wp_publish hs hdraft rfl)
    rcases hd with hd | ⟨p, hd⟩
    · exact ⟨[], added_nil hd⟩
    · obtain ⟨name, digest, hp⟩ := hd.draft
      refine ⟨[p], hd.stored, ?_, ?_, ?_, ?_⟩
      · intro p' hp' _
        rw [List.mem_singleton.mp hp', hp]
        exact ⟨_, _, rfl⟩
      · intro p' hp' hcomplete
        rw [List.mem_singleton] at hp'
        subst hp'
        have hstatus : (q.draft (epochOf L) now.1).status = .complete := by
          rw [hp] at hcomplete
          exact hcomplete
        rcases hd.manifest hstatus with ⟨hnil, rfl⟩ | ⟨m, rfl, hw⟩
        · exact Or.inl ⟨hnil, rfl, rfl⟩
        · exact Or.inr ⟨_, m, hstatus, rfl, hw.mono (Extends.refl d')⟩
      · intro p' hp' _
        rw [List.mem_singleton.mp hp']
        rfl
      · intro c hc hcomplete p' hp' hkey
        rw [List.mem_singleton] at hp'
        subst hp'
        have hdigest : q.digest = K := by
          rw [hp] at hkey
          exact hkey
        rw [hdigest, hc] at hprior
        exact admitPrior_publish hprior hcomplete

/-- The append of a failed record. -/
theorem wp_appendFailed_added (hs : Stored d L) {q p : StatePublication} (hf : Fails L q p)
    (hwf : p.WellFormed) (hq : ∀ c, latestFor L q.idempotencyKey = some c → c.status ≠ .complete) :
    wp (appendJournal p >>= fun _ => pure p) d (fun d' => ∃ Δ, Added H K L d' Δ)
      fun _ _ => True := by
  rw [wp_bind]
  refine wp_appendJournal (fun _ => trivial) fun hfit hsmall hb => ?_
  have hepoch : p.epoch = epochOf L + p.status.step := by
    rw [hf.epoch, hf.status]
    rfl
  refine ⟨⟨[p], added_failed (hs.appendLine ⟨hwf, hfit, hsmall⟩ hepoch hb) hf hq⟩, ?_⟩
  rw [onEnd_ok, wp_pure]
  trivial

/-- What an abort finds under its event id is not settled. -/
theorem Replayable.unresolved (h : Replayable H K d L) {q : StatePublication} {u : Unit}
    (ht : Targets L q) (hu : checkUnresolved L q = .ok u) :
    ∀ c, latestFor L q.idempotencyKey = some c → c.status ≠ .complete := by
  intro c hc
  rw [checkUnresolved, raiseIf_eq_ok, not_not] at hu
  obtain ⟨latest, hlatest, he⟩ := hu
  rw [hc] at hlatest
  obtain rfl := Option.some.inj hlatest
  exact status_ne_complete h.stored.numbered h.named ht.mem ht.status hc he

theorem abortTarget_unresolved (hs : Stored d L) {eventId : Text} {observed : List StateOwnerHead}
    {expectedEpoch : Option ℤ} {q : StatePublication} {epoch : ℕ}
    (h : abortTarget d eventId observed expectedEpoch = .ok (q, epoch)) :
    ∃ u, checkUnresolved L q = .ok u := by
  unfold abortTarget at h
  simp only [bind_eq_ok] at h
  obtain ⟨current, -, _, -, journal, hj, h⟩ := h
  rw [hs.readJournal] at hj
  cases hj
  split at h
  · cases h
  · simp only [bind_eq_ok, raiseIf_eq_ok, pure_eq_ok] at h
    obtain ⟨u, hu, _, -, _, -, h⟩ := h
    cases h
    exact ⟨u, hu⟩

theorem abortUnboundTarget_unresolved (hs : Stored d L) {eventId : Text}
    {expectedEpoch : Option ℤ} {q : StatePublication} {epoch : ℕ}
    (h : abortUnboundTarget d eventId expectedEpoch = .ok (q, epoch)) :
    ∃ u, checkUnresolved L q = .ok u := by
  unfold abortUnboundTarget at h
  simp only [bind_eq_ok] at h
  obtain ⟨current, -, _, -, _, -, journal, hj, h⟩ := h
  rw [hs.readJournal] at hj
  cases hj
  split at h
  · cases h
  · simp only [bind_eq_ok, raiseIf_eq_ok, pure_eq_ok] at h
    obtain ⟨_, -, _, -, _, -, u, hu, h⟩ := h
    cases h
    exact ⟨u, hu⟩

theorem wp_abort_added (h : Replayable H K d L) (eventId : Text) (observed : List StateOwnerHead)
    (expectedEpoch : Option ℤ) (detail : Text) (now : TimeNs) :
    wp (abortStatePublication eventId observed expectedEpoch detail now) d
      (fun d' => ∃ Δ, Added H K L d' Δ) fun _ _ => True := by
  unfold abortStatePublication
  refine wp_check (fun _ => trivial) fun event _ => ?_
  refine wp_check (fun _ => trivial) fun heads hheads => ?_
  refine wp_check (fun _ => trivial) fun detail' hdetail => ?_
  obtain ⟨rfl, hdetail⟩ := requiredText_str.mp hdetail
  rw [wp_read_bind]
  refine wp_check (fun _ => trivial) fun ⟨q, epoch⟩ ht => ?_
  obtain ⟨u, hu⟩ := abortTarget_unresolved h.stored ht
  obtain ⟨rfl, htarget, -, rfl⟩ := abortTarget_eq_ok h.stored ht
  have hq := (h.stored.recorded q htarget.mem).wellFormed
  exact wp_appendFailed_added h.stored (fails_recoveryRecord L q _ _ _ _)
    (recoveryRecord_wellFormed hq (by decide) (by decide) h.stored.epochOf_le now now.2.1 hdetail
      hq.heads) (h.unresolved htarget hu)

theorem wp_abortUnbound_added (h : Replayable H K d L) (eventId : Text)
    (expectedEpoch : Option ℤ) (detail : Text) (now later : TimeNs) :
    wp (abortUnboundStatePublication eventId expectedEpoch detail now later) d
      (fun d' => ∃ Δ, Added H K L d' Δ) fun _ _ => True := by
  unfold abortUnboundStatePublication
  refine wp_check (fun _ => trivial) fun event _ => ?_
  refine wp_check (fun _ => trivial) fun detail' hdetail => ?_
  obtain ⟨rfl, hdetail⟩ := requiredText_str.mp hdetail
  rw [wp_read_bind]
  refine wp_check (fun _ => trivial) fun ⟨q, epoch⟩ ht => ?_
  obtain ⟨u, hu⟩ := abortUnboundTarget_unresolved h.stored ht
  obtain ⟨rfl, htarget, -⟩ := abortUnboundTarget_eq_ok h.stored ht
  have hq := (h.stored.recorded q htarget.mem).wellFormed
  exact wp_appendFailed_added h.stored (fails_recoveryRecord L q _ _ _ _)
    (recoveryRecord_wellFormed hq (by decide) (by decide) h.stored.epochOf_le now later.2.1 hdetail
      canonicalHeads_nil) (h.unresolved htarget hu)

theorem wp_reconcile_added (hs : Stored d L) (eventId : Text) (expectedEpoch : ℤ)
    (publicationEventId : Text) (verify : Checked (List StateOwnerHead)) (now : TimeNs) :
    wp (reconcileUnboundStatePublication H eventId expectedEpoch publicationEventId verify now) d
      (fun d' => ∃ Δ, Added H K L d' Δ) fun _ _ => True := by
  unfold reconcileUnboundStatePublication
  refine wp_check (fun _ => trivial) fun event _ => ?_
  refine wp_check (fun _ => trivial) fun publication hpub => ?_
  obtain ⟨rfl, hpub⟩ := requiredText_str.mp hpub
  refine wp_check (fun _ => trivial) fun _ _ => ?_
  rw [wp_read_bind]
  refine wp_check (fun _ => trivial) fun q ht => ?_
  obtain ⟨hpend, -, hepoch⟩ := reconcileTarget_eq_ok hs ht
  have hq := (hs.recorded q hpend.mem).wellFormed
  simp only [hepoch]
  exact wp_appendFailed_added hs (fails_recoveryRecord L q _ _ _ _)
    (recoveryRecord_wellFormed hq (by decide) (by decide) hs.epochOf_le now now.2.1
      (isRequiredText_reconcileDetail hpub) canonicalHeads_nil) fun c hc => hpend.latest_ne_complete hc

end Calls

/-! ## Restarts -/

/-- The key under which a restart writes its checkpoint. -/
def restartKey (H : Sha256) (eventId : Text) (expectedEpoch : ℤ)
    (ownerHeads : List StateOwnerHead) : Checked Text := do
  let heads ← canonicalOwnerHeads ownerHeads
  let key ← publicationIdempotencyKey H [.str eventId, .int expectedEpoch, headList heads]
  pure (idempotencyDigest H (lit "framework-all-restart-checkpoint") [lit "semantic"] key)

/-- The key `K` is settled in the journal. -/
def Settled (L : List StatePublication) (K : Text) : Prop :=
  ∃ c, latestFor L K = some c ∧ c.status = .complete

/-- The call does not write a checkpoint under the key `K` once that is settled: a restart of this
key finds nothing pending. -/
def Call.Spares (H : Sha256) (K : Text) (d : StateDirectory) : Call → Prop
  | .restart eventId expectedEpoch ownerHeads _ _ _ =>
    restartKey H eventId expectedEpoch ownerHeads = .ok K →
      ∀ L, readJournal d = .ok L → Settled L K → pendingRecords L = []
  | _ => True

theorem wp_restart_added {H : Sha256} {K : Text} {d : StateDirectory} {L : List StatePublication}
    (hs : Stored d L) (eventId : Text) (expectedEpoch : ℤ) (ownerHeads : List StateOwnerHead)
    (verify again : Checked (List StateOwnerHead)) (now : TimeNs)
    (hspares : Call.Spares H K d (.restart eventId expectedEpoch ownerHeads verify again now)) :
    wp (restartStatePublicationCheckpoint H eventId expectedEpoch ownerHeads verify again now) d
      (fun d' => ∃ Δ, Added H K L d' Δ) fun _ _ => True := by
  unfold restartStatePublicationCheckpoint
  refine wp_check (fun _ => trivial) fun event hevent => ?_
  obtain ⟨rfl, -⟩ := requiredText_str.mp hevent
  refine wp_check (fun _ => trivial) fun _ _ => ?_
  refine wp_check (fun _ => trivial) fun heads hheads => ?_
  refine wp_check (fun _ => trivial) fun owners _ => ?_
  refine wp_check (fun _ => trivial) fun _ hsem => ?_
  rw [raiseIf_eq_ok, not_not] at hsem
  subst hsem
  refine wp_check (fun _ => trivial) fun key hkey => ?_
  rw [wp_read_bind]
  refine wp_check (fun _ => trivial) fun decision hdec => ?_
  cases decision with
  | replay p =>
    rw [wp_pure]
    trivial
  | checkpoint q observed =>
    obtain ⟨hpend, hepoch⟩ := admitRestart_eq_ok hs hdec
    have hq := (hs.recorded q hpend.mem).wellFormed
    have hh := canonicalHeads_of_eq_ok hheads
    simp only [hepoch]
    refine wp_mono (fun d' hd => ?_) (fun _ _ h => h)
      (wp_writeRestart hs (abandonedRecord_wellFormed hq hs.epochOf_le now hh)
        (checkpointDraft_wellFormed hs.epochOf_le now _ hh) rfl rfl rfl rfl)
    rcases hd with hd | ⟨m, hd, hw⟩
    · exact ⟨[], added_nil hd⟩
    · refine ⟨_, hd, ?_, ?_, ?_, ?_⟩
      · intro p hp hstatus
        rcases List.mem_cons.mp hp with rfl | hp
        · exact absurd rfl hstatus
        · rw [List.mem_singleton.mp hp]
          exact ⟨_, _, rfl⟩
      · intro p hp hstatus
        rcases List.mem_cons.mp hp with rfl | hp
        · cases hstatus
        · rw [List.mem_singleton.mp hp]
          exact Or.inr ⟨_, m, rfl, rfl, hw.mono (Extends.refl d')⟩
      · intro p hp hstatus
        rcases List.mem_cons.mp hp with rfl | hp
        · cases hstatus
        · rw [List.mem_singleton.mp hp]
          rfl
      · -- The prepare is pending, so its key is not settled, and the key of the restart is spared.
        intro c hc hcomplete p hp hpkey
        rcases List.mem_cons.mp hp with rfl | hp
        · rw [← hpkey] at hc
          exact hpend.latest_ne_complete hc hcomplete
        · rw [List.mem_singleton] at hp
          subst hp
          have hrestart : restartKey H event expectedEpoch ownerHeads = .ok K := by
            rw [restartKey, hheads, ← hpkey]
            show (publicationIdempotencyKey H _ >>= fun key => pure _) = _
            rw [hkey]
            rfl
          have hnil := hspares hrestart L hs.readJournal ⟨c, hc, hcomplete⟩
          have hmem := mem_pendingRecords.mpr hpend
          rw [hnil] at hmem
          cases hmem

/-! ## Runs -/

/-- A call keeps a key replayable, wherever it is cut. -/
theorem Replayable.call {H : Sha256} {K : Text} {d d' : StateDirectory}
    {L : List StatePublication} (h : Replayable H K d L) (c : Call) (hspares : c.Spares H K d)
    (hd' : d' ∈ d :: (c.program H d).writes) : ∃ L', Replayable H K d' L' := by
  rcases List.mem_cons.mp hd' with rfl | hd'
  · exact ⟨L, h⟩
  have hwrites : wp (c.program H) d (fun d' => ∃ Δ, Added H K L d' Δ) fun _ _ => True := by
    have done : ∀ {α : Type} (x : Operation α),
        (wp x d (fun d' => ∃ Δ, Added H K L d' Δ) fun _ _ => True) →
          wp (x >>= fun _ => pure ()) d (fun d' => ∃ Δ, Added H K L d' Δ) fun _ _ => True := by
      intro α x hx
      refine wp_seq (P := fun _ _ => True) (E := fun _ _ => True)
        (wp_mono (fun _ h => h) (fun r t _ => ?_) hx) (fun a t _ => ?_) fun _ _ _ => trivial
      · cases r with
        | error e => trivial
        | ok a => trivial
      · rw [wp_pure]
        trivial
    cases c with
    | record r now => exact done _ (wp_record_added h.stored r now)
    | begin r now =>
      refine done _ (wp_check (fun _ => trivial) fun owners _ => ?_)
      refine wp_seq (P := fun _ _ => True) (E := fun _ _ => True)
        (wp_mono (fun _ h => h) (fun r t _ => ?_) (wp_record_added h.stored _ now))
        (fun a t _ => ?_) fun _ _ _ => trivial
      · cases r with
        | error e => trivial
        | ok a => trivial
      · rw [wp_pure]
        trivial
    | commit t ownerHeads manifestSha256 detail verify now =>
      exact done _ (wp_record_added h.stored _ now)
    | abort eventId observed expectedEpoch detail now =>
      exact done _ (wp_abort_added h eventId observed expectedEpoch detail now)
    | abortUnbound eventId expectedEpoch detail now later =>
      exact done _ (wp_abortUnbound_added h eventId expectedEpoch detail now later)
    | reconcileUnbound eventId expectedEpoch publicationEventId verify now =>
      exact done _ (wp_reconcile_added h.stored eventId expectedEpoch publicationEventId verify now)
    | resume r =>
      exact done _ (wp_mono (fun _ h => h.elim) (fun _ _ h => h)
        (writes_resumeStatePublication H r d))
    | restart eventId expectedEpoch ownerHeads verify again now =>
      exact done _ (wp_restart_added h.stored eventId expectedEpoch ownerHeads verify again now
        hspares)
  obtain ⟨Δ, hadded⟩ := hwrites.1 d' hd'
  exact ⟨L ++ Δ, h.added ((c.extending H d d (Extends.refl d)).1 d' hd') hadded⟩

/-- What calls and crashes make of an empty directory, when no restart writes its checkpoint under
the settled key `K`. -/
def SparingRun (H : Sha256) (K : Text) (d : StateDirectory) : Prop :=
  Relation.ReflTransGen
    (fun d d' => ∃ c : Call, c.Spares H K d ∧ d' ∈ d :: (c.program H d).writes) .empty d

theorem SparingRun.replayable {H : Sha256} {K : Text} {d : StateDirectory}
    (h : SparingRun H K d) : ∃ L, Replayable H K d L := by
  induction h with
  | refl => exact ⟨[], replayable_empty H K⟩
  | tail _ hstep ih =>
    obtain ⟨L, hL⟩ := ih
    obtain ⟨c, hspares, hd'⟩ := hstep
    exact hL.call c hspares hd'

/-! ## Replays -/

/-- The arguments are those of the record `c`. -/
structure CheckedRequest.SameArguments (q : CheckedRequest) (c : StatePublication) : Prop where
  key : q.digest = c.idempotencyKey
  manifest : c.manifestSha256 = q.manifestSha256
  heads : c.ownerHeads = q.ownerHeads

/-- Nothing else stops the call: no epoch and no prepared event is expected, and the callback, when
there is one, returns the heads of the call. -/
structure CheckedRequest.Unguarded (q : CheckedRequest) : Prop where
  epoch : q.expectedEpoch = none
  event : q.expectedPendingEventId = none
  verified : checkVerified q.verifyOwnerHeads q.ownerHeads
    "owner heads changed before publication commit" = .ok ()

section Replay

variable {H : Sha256} {K : Text} {d : StateDirectory} {L : List StatePublication}
  {c : StatePublication} {q : CheckedRequest}

theorem Replayable.admitRecord_replay (h : Replayable H K d L) (hlatest : latestFor L K = some c)
    (hcomplete : c.status = .complete) (hq : q.SameArguments c) (hkey : q.digest = K)
    (hfree : q.Unguarded) (hpending : ∀ p, Pending L p → p.idempotencyKey = K)
    (hmanifest : ∀ last, (completeRecords L).getLast? = some last → last.ownerHeads ≠ [] →
      NoManifestCollision H d last) :
    admitRecord H d q = .ok (.replay c) := by
  obtain ⟨e, he, -⟩ := h.stored.readPublicationObservation
  have hothers : raiseIf (∃ item ∈ latestByKey L, item.status = .partial_ ∧
      item.idempotencyKey ≠ q.digest)
      (PublicationError.conflict "another publication is pending recovery") = .ok () := by
    rw [raiseIf_eq_ok]
    rintro ⟨item, hitem, hstatus, hne⟩
    exact hne ((hpending item ⟨mem_latestByKey.mp hitem, hstatus⟩).trans hkey.symm)
  have hauthentic : ∀ last, (completeRecords L).getLast? = some last →
      readContentManifestForPublication H d last = .ok () := by
    intro last hlast
    have hmem := List.mem_of_getLast? hlast
    rw [completeRecords, List.mem_filter, decide_eq_true_eq] at hmem
    exact (h.backed last hmem.1 hmem.2).read (h.stored.recorded last hmem.1) (hmanifest last hlast)
  have hprior : admitPrior q e.epoch (latestFor L q.digest) = .ok (.replay c) := by
    have hcheck : checkPrior q c = .ok () := by
      have hpartial : c.status ≠ .partial_ := by
        rw [hcomplete]
        decide
      rw [checkPrior, bind_eq_ok]
      refine ⟨(), ?_, ?_⟩
      · rw [raiseIf_eq_ok, not_not]
        exact hq.manifest
      · rw [if_neg hpartial]
        show raiseIf _ _ = .ok ()
        rw [raiseIf_eq_ok]
        rintro ⟨-, hne⟩
        exact hne hq.heads
    rw [hkey, hlatest, admitPrior, hcheck]
    show (if _ then pure _ else pure _) = _
    rw [if_pos (Or.inl hcomplete)]
    rfl
  unfold admitRecord
  rw [he]
  show (checkExpectedEpoch q.expectedEpoch e.epoch >>= fun _ => _) = _
  rw [hfree.epoch, hfree.event, hothers, hfree.verified]
  cases hlast : (completeRecords L).getLast? with
  | none => exact hprior
  | some last =>
    show (readContentManifestForPublication H d last >>= fun _ => _) = _
    rw [hauthentic last hlast]
    exact hprior

theorem Stored.admitRecord_refused (hs : Stored d L) (hlatest : latestFor L q.digest = some c)
    (hcomplete : c.status = .complete)
    (hother : c.manifestSha256 ≠ q.manifestSha256 ∨ c.ownerHeads ≠ q.ownerHeads) :
    ∃ e, admitRecord H d q = .error e := by
  cases hadmit : admitRecord H d q with
  | error e => exact ⟨e, rfl⟩
  | ok a =>
    obtain ⟨-, -, hprior⟩ := admitRecord_eq_ok hs hadmit
    rw [hlatest, admitPrior, bind_eq_ok] at hprior
    obtain ⟨u, hcheck, -⟩ := hprior
    have hmanifest := (checkPrior_eq_ok hcheck).1
    rw [checkPrior] at hcheck
    simp only [bind_eq_ok, raiseIf_eq_ok] at hcheck
    obtain ⟨_, -, hcheck⟩ := hcheck
    have hpartial : c.status ≠ .partial_ := by
      rw [hcomplete]
      decide
    rw [if_neg hpartial, raiseIf_eq_ok] at hcheck
    rcases hother with hne | hne
    · exact absurd hmanifest hne
    · exact absurd ⟨hcomplete, hne⟩ hcheck

/-- Behind the checks of its arguments, a call does what it admits. -/
theorem recordStatePublication_of_checked {r : RecordRequest} (hr : checkRequest H r = .ok q)
    (now : TimeNs) : recordStatePublication H r now d =
      ((liftM (admitRecord H d q) : Operation Admission) >>= fun admission =>
        match admission with
        | .replay prior => pure prior
        | .publish current => publish H (q.draft current now.1)) d := by
  unfold recordStatePublication
  rw [hr]
  rfl

theorem Stored.record_refused (hs : Stored d L) {r : RecordRequest}
    (hr : checkRequest H r = .ok q) (now : TimeNs) (hlatest : latestFor L q.digest = some c)
    (hcomplete : c.status = .complete)
    (hother : c.manifestSha256 ≠ q.manifestSha256 ∨ c.ownerHeads ≠ q.ownerHeads) :
    ∃ e, recordStatePublication H r now d = ⟨[], .error e⟩ := by
  obtain ⟨e, he⟩ := hs.admitRecord_refused (H := H) hlatest hcomplete hother
  rw [recordStatePublication_of_checked hr, he]
  exact ⟨e, rfl⟩

end Replay

/-- **A commit is idempotent**, in every run in which no restart writes its checkpoint under the
settled key. -/
theorem idempotent_commit {H : Sha256} {d : StateDirectory} {L : List StatePublication}
    {c : StatePublication} (hrun : SparingRun H c.idempotencyKey d)
    (hL : readJournal d = .ok L) (hc : c ∈ L) (hcomplete : c.status = .complete) :
    (∀ r q now, checkRequest H r = .ok q → q.SameArguments c → q.Unguarded →
        (∀ p, Pending L p → p.idempotencyKey = c.idempotencyKey) →
        (∀ last, (completeRecords L).getLast? = some last → last.ownerHeads ≠ [] →
          NoManifestCollision H d last) →
        recordStatePublication H r now d = ⟨[], .ok c⟩) ∧
      ∀ r q now, checkRequest H r = .ok q → q.digest = c.idempotencyKey →
        (c.manifestSha256 ≠ q.manifestSha256 ∨ c.ownerHeads ≠ q.ownerHeads) →
        ∃ e, recordStatePublication H r now d = ⟨[], .error e⟩ := by
  obtain ⟨L', h⟩ := hrun.replayable
  obtain rfl : L' = L := by
    have := h.stored.readJournal
    rw [hL] at this
    exact (Except.ok.inj this).symm
  have hlatest := h.settled c hc rfl hcomplete
  refine ⟨?_, ?_⟩
  · intro r q now hr hq hfree hpending hmanifest
    rw [recordStatePublication_of_checked hr,
      h.admitRecord_replay hlatest hcomplete hq hq.key hfree hpending hmanifest]
    rfl
  · intro r q now hr hkey hother
    rw [← hkey] at hlatest
    exact h.stored.record_refused hr now hlatest hcomplete hother

theorem Call.Records.spares {c : Call} (hc : c.Records) (H : Sha256) (K : Text)
    (d : StateDirectory) : c.Spares H K d := by
  cases c with
  | restart eventId expectedEpoch ownerHeads verify again now => exact hc.elim
  | _ => trivial

/-- A run without restarts. -/
theorem sparingRun_runCalls (H : Sha256) (K : Text) {cs : List Call} (hcs : ∀ c ∈ cs, c.Records)
    {d : StateDirectory} (hd : SparingRun H K d) : SparingRun H K (runCalls H d cs) := by
  induction cs generalizing d with
  | nil => exact hd
  | cons c cs ih =>
    refine ih (fun c hc => hcs c (List.mem_cons_of_mem _ hc)) (hd.tail ?_)
    exact ⟨c, (hcs c List.mem_cons_self).spares H K d, Outcome.final_mem _ _⟩

/-- The journal, its first and its last record, and the arguments of a later call. -/
def replayOf (r : RecordRequest) (d : StateDirectory) :
    Checked (List StatePublication × Option (StatePublication × StatePublication) ×
      CheckedRequest) := do
  let L ← readJournal d
  let q ← checkRequest checksum r
  pure (L, L.head?.bind fun c => L.getLast?.map fun last => (c, last), q)

/-- The first record is complete and has the arguments of the call, which nothing else stops; the
last one is complete too. -/
def FirstAnswers :
    List StatePublication × Option (StatePublication × StatePublication) × CheckedRequest → Prop
  | (L, some (c, last), q) => (c.status = .complete ∧ last.status = .complete ∧
      pendingRecords L = []) ∧
      (q.digest = c.idempotencyKey ∧ c.manifestSha256 = q.manifestSha256 ∧
        c.ownerHeads = q.ownerHeads) ∧
      (q.expectedEpoch = none ∧ q.expectedPendingEventId = none ∧ q.verifyOwnerHeads.isNone)
  | _ => False

instance : DecidablePred FirstAnswers
  | (_, some (_, _), _) => inferInstanceAs (Decidable (_ ∧ _))
  | (_, none, _) => inferInstanceAs (Decidable False)

theorem exists_of_firstAnswers {r : RecordRequest} {d : StateDirectory}
    {P : StatePublication → CheckedRequest → Bool}
    (h : (replayOf r d).map (fun f =>
      decide (FirstAnswers f) && f.2.1.all fun ends => P ends.2 f.2.2) = .ok true) :
    ∃ L c last q, readJournal d = .ok L ∧ (c ∈ L ∧ L.getLast? = some last) ∧
      (c.status = .complete ∧ last.status = .complete) ∧ checkRequest checksum r = .ok q ∧
      q.SameArguments c ∧ q.Unguarded ∧ (∀ p, ¬ Pending L p) ∧ P last q = true := by
  obtain ⟨⟨L, ends, q⟩, hrun, hfacts⟩ := exists_of_map_eq_ok h
  rw [replayOf, bind_eq_ok] at hrun
  obtain ⟨L', hL, hrun⟩ := hrun
  rw [bind_eq_ok] at hrun
  obtain ⟨q', hq, hrun⟩ := hrun
  rw [pure_eq_ok] at hrun
  obtain ⟨rfl, hends, rfl⟩ : L' = L ∧ _ = ends ∧ q' = q := by simpa using hrun
  rw [Bool.and_eq_true] at hfacts
  obtain ⟨hfacts, hP⟩ := hfacts
  have hfacts := of_decide_eq_true hfacts
  cases ends with
  | none => exact hfacts.elim
  | some ends =>
    obtain ⟨c, last⟩ := ends
    obtain ⟨⟨hstatus, hlast, hpending⟩, ⟨hkey, hmanifest, hheads⟩, hepoch, hevent, hverify⟩ := hfacts
    obtain ⟨c', hfirst, hends⟩ := Option.bind_eq_some_iff.mp hends
    obtain ⟨last', hgetLast, hends⟩ := Option.map_eq_some_iff.mp hends
    cases hends
    have hverified : checkVerified q'.verifyOwnerHeads q'.ownerHeads
        "owner heads changed before publication commit" = .ok () := by
      rw [Option.isNone_iff_eq_none.mp hverify]
      rfl
    refine ⟨L', c, last, q', hL, ⟨List.mem_of_mem_head? hfirst, hgetLast⟩, ⟨hstatus, hlast⟩, hq,
      ⟨hkey, hmanifest, hheads⟩, ⟨hepoch, hevent, hverified⟩, fun p hp => ?_, hP⟩
    have hmem := mem_pendingRecords.mpr hp
    rw [hpending] at hmem
    cases hmem

/-- The first of two publications answers its call again. -/
theorem idempotent_commit_two : ∃ L c, readJournal twoPublications = .ok L ∧ c ∈ L ∧
    recordStatePublication checksum (plainRequest "a" .complete) (clock 9) twoPublications =
      ⟨[], .ok c⟩ := by
  obtain ⟨L, c, last, q, hL, ⟨hc, hgetLast⟩, ⟨hcomplete, hstatus⟩, hq, hsame, hfree, hpending, hheads⟩ :=
    exists_of_firstAnswers (r := plainRequest "a" .complete) (d := twoPublications)
      (P := fun last _ => last.ownerHeads = []) (by decide +kernel)
  have hrun : SparingRun checksum c.idempotencyKey twoPublications :=
    sparingRun_runCalls checksum _ (by simp [Call.Records]) Relation.ReflTransGen.refl
  refine ⟨L, c, hL, hc, (idempotent_commit hrun hL hc hcomplete).1 _ q _ hq hsame hfree
    (fun p hp => absurd hp (hpending p)) fun last' hlast' hne => ?_⟩
  obtain ⟨M, rfl⟩ := List.getLast?_eq_some_iff.mp hgetLast
  have hlast : completeRecords (M ++ [last]) = completeRecords M ++ [last] := by
    rw [completeRecords_append, completeRecords_cons, if_pos hstatus]
    rfl
  rw [hlast, List.getLast?_concat] at hlast'
  rw [← Option.some.inj hlast'] at hne
  exact absurd (of_decide_eq_true hheads) hne

/-! ## A checkpoint under a settled key -/

/-- A prepare of Semantic work. -/
def preparedWork : BeginRequest where
  operation := lit "framework-all-semantic"
  owners := [lit "semantic"]
  idempotencyKey := lit "work"
  expectedEpoch := none
  ownerHeads := none
  manifestSha256 := none
  detail := none

/-- A complete publication with the operation and the owner of a checkpoint. -/
def checkpointRequest (key : Text) : RecordRequest where
  operation := lit "framework-all-restart-checkpoint"
  owners := [lit "semantic"]
  status := .complete
  idempotencyKey := key
  expectedEpoch := none
  manifestSha256 := none
  detail := none
  ownerHeads := none
  verifyOwnerHeads := none
  expectedPendingEventId := none

/-- The event that the prepare gets. -/
def workEvent : Text := eventIdOf 1 "event" 7

/-- The key of the checkpoint that replaces the prepare. -/
def workKey : Text :=
  (publicationIdempotencyKey checksum
    [.str workEvent, .int 1, headList [semanticHead]]).toOption.getD []

/-- A publication under the key of the checkpoint, the prepare, and the restart. -/
def restartedDirectory : StateDirectory :=
  runCalls checksum .empty [.record (checkpointRequest workKey) (clock 5),
    .begin preparedWork (clock 6),
    .restart workEvent 1 [semanticHead] (.ok [semanticHead]) (.ok [semanticHead]) (clock 8)]

theorem reachable_restartedDirectory : Reachable checksum restartedDirectory := by
  unfold restartedDirectory
  exact steps_runCalls checksum _ _

/-- The restart writes its checkpoint under the key of the publication, and the call that is
recorded there is refused. -/
theorem replay_refused_after_restart : Reachable checksum restartedDirectory ∧
    ∃ L c q e, readJournal restartedDirectory = .ok L ∧ c ∈ L ∧ c.status = .complete ∧
      checkRequest checksum (checkpointRequest workKey) = .ok q ∧ q.SameArguments c ∧
      q.Unguarded ∧ (∀ p, ¬ Pending L p) ∧
      recordStatePublication checksum (checkpointRequest workKey) (clock 9) restartedDirectory =
        ⟨[], .error e⟩ := by
  obtain ⟨L, c, last, q, hL, ⟨hc, hgetLast⟩, ⟨hcomplete, hstatus⟩, hq, hsame, hfree, hpending, hlast⟩ :=
    exists_of_firstAnswers (r := checkpointRequest workKey) (d := restartedDirectory)
      (P := fun last q => last.idempotencyKey = q.digest ∧ last.ownerHeads ≠ q.ownerHeads)
      (by decide +kernel)
  obtain ⟨hkey, hheads⟩ := of_decide_eq_true hlast
  obtain ⟨L', hs⟩ := reachable_restartedDirectory.stored
  obtain rfl : L' = L := by
    have := hs.readJournal
    rw [hL] at this
    exact (Except.ok.inj this).symm
  have hlatest := latestFor_of_getLast? hgetLast
  rw [hkey] at hlatest
  obtain ⟨e, he⟩ := hs.record_refused hq (clock 9) hlatest hstatus (Or.inr hheads)
  exact ⟨reachable_restartedDirectory, L', c, q, e, hL, hc, hcomplete, hq, hsame, hfree, hpending, he⟩

end Publication
end Neocortex
