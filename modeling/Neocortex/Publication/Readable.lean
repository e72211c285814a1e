import Neocortex.Publication.Exclusive

/-!
# A committed publication is readable

When `record_state_publication` returns a complete publication, the directory it leaves is
read as complete.  The publication that the reader shows is the returned one, unless the
call only replayed a key that a newer publication has superseded: then the directory is
untouched and the newer one is shown.

* `readContentManifest_written`: the content manifest passes every check of its reader;
* `Stored.view_complete`: the view of a journal without pending prepares;
* `record_complete_readable`: the result.
-/

namespace Neocortex
namespace Publication

open Python Checks Durable

/-! ## The content manifest -/

theorem writable_manifestPayload {p : StatePublication}
    (h : intsFit (contentManifestPayload p) = true) :
    writable (contentManifestPayload p) = true := by
  refine writable_obj_of_intsFit (fun m hm hf => ?_) h
  simp only [StatePublication.manifestMembers, List.mem_cons, List.not_mem_nil, or_false] at hm
  rcases hm with rfl | rfl | rfl | rfl | rfl | rfl | rfl | rfl | rfl
  all_goals first
    | rfl
    | exact hf
    | exact writable_textList _ hf
    | exact writable_headList _ hf
    | exact writable_optText _

theorem length_renderStr_ge (s : Text) : s.length + 2 ≤ (renderStr s).length := by
  have h : s.length ≤ (s.flatMap escapeChar).length := length_le_escape asciiEscape s
  rw [renderStr, List.length_cons, List.length_append, List.length_singleton]
  omega

/-- The manifest is shorter than the record that carries its digest. -/
theorem length_manifest_lt {p : StatePublication} (hp : p.status = .complete) {m : Text × Text}
    (hm : IsSha256 m.2) :
    (render (sortKeys (contentManifestPayload p))).length < (p.withManifest m).line.length := by
  have hsha := length_renderStr_ge m.2
  rw [hm.1] at hsha
  have e1 : (renderStr (lit "source_manifest_sha256")).length = 24 := by decide
  have e2 : (renderStr (lit "manifest_sha256")).length = 17 := by decide
  have e3 : (renderStr stateContentPublicationManifestSchema).length = 43 := by decide
  have e4 : (renderStr statePublicationSchema).length = 32 := by decide
  have hstatus : (p.withManifest m).status.text = lit "complete" := by
    have e : (p.withManifest m).status = p.status := rfl
    rw [e, hp]
    rfl
  rw [StatePublication.line, length_render_sortKeys, length_render_sortKeys,
    contentManifestPayload, StatePublication.asPayload,
    render_obj_length _ (by simp [StatePublication.manifestMembers]),
    render_obj_length _ (by simp [StatePublication.members])]
  simp only [StatePublication.manifestMembers, StatePublication.members, List.map_cons,
    List.map_nil, List.sum_cons, List.sum_nil, hstatus]
  simp only [StatePublication.withManifest, optText, Option.map_some, Option.getD_some]
  simp only [render, e1, e2, e3, e4]
  omega

/-- SHA-256 does not give the manifest of `p` the digest of another file that is already stored
under its name. -/
def NoManifestCollision (H : Sha256) (d : StateDirectory) (p : StatePublication) : Prop :=
  ∀ raw encoded, d.contentManifests (contentManifestEventName H p.eventId) = some raw →
    canonicalJsonBytes (contentManifestPayload p) = .ok encoded →
    H.hexdigest raw = H.hexdigest encoded → raw = encoded

/-- **The content manifest of a record passes every check of its reader.** -/
theorem readContentManifest_written {H : Sha256} {d d' : StateDirectory} {p : StatePublication}
    {m : Text × Text} (hw : ManifestWritten H d p m d') (hn : NoManifestCollision H d p)
    (hrec : (p.withManifest m).Recorded) (hp : p.status = .complete) :
    readContentManifestForPublication H d' (p.withManifest m) = .ok () := by
  obtain ⟨encoded, raw, henc, hsha, hfile, hold, -, hhash⟩ := hw.file
  have hraw : raw = encoded := by
    rcases hold with h | h
    · exact h
    · rw [hw.name] at h
      exact hn raw encoded h henc hhash
  rw [hraw] at hfile
  have hsmall : encoded.length ≤ maxPublicationRecordBytes := by
    have hm : IsSha256 m.2 := by rw [hsha]; exact H.isSha256 _
    have hlt := length_manifest_lt hp hm
    obtain ⟨hf, he⟩ := canonicalJsonBytes_eq_ok.mp henc
    have hv : writable (sortKeys (contentManifestPayload p)) = true := by
      rw [writable_sortKeys, writable_manifestPayload hf]
    have ha : IsAscii (render (sortKeys (contentManifestPayload p)) ++ ['\n']) :=
      (printable_render _ hv).isAscii.append fun c hc => by rw [List.mem_singleton.mp hc]; decide
    have hlen := utf8Len_of_isAscii ha
    rw [utf8Len, ← he, List.length_append, List.length_singleton] at hlen
    have := hrec.small
    omega
  have hread : readJsonFile (some encoded) "content-publication-manifest" =
      .ok (some (sortedMembers p.manifestMembers)) :=
    readJsonFile_canonical writable_manifestPayload henc hsmall _
  have hheads : (p.withManifest m).ownerHeads ≠ [] := hw.heads
  have hname : (p.withManifest m).contentManifestName = some m.1 := rfl
  have hdigest : (p.withManifest m).contentManifestSha256 = some m.2 := rfl
  rw [readContentManifestForPublication, if_neg hheads, hname, hdigest]
  simp only [bind_eq_ok]
  refine ⟨(), ?_, m.1, contentManifestPath_eq_ok.mpr ⟨rfl, hw.manifestName⟩, ?_⟩
  · rw [raiseIf_eq_ok, not_not]
    exact hw.name
  · rw [hfile, hread]
    refine ⟨_, rfl, ?_⟩
    simp only [bind_eq_ok]
    refine ⟨(), ?_, ?_⟩
    · rw [raiseIf_eq_ok, not_not, hsha]
    · exact checkContentManifest_sorted hrec.wellFormed.heads

/-! ## The view -/

theorem pendingRecords_eq_nil {L : List StatePublication} (h : ∀ q, ¬ Pending L q) :
    pendingRecords L = [] :=
  List.eq_nil_iff_forall_not_mem.mpr fun q hq => h q (mem_pendingRecords.mp hq)

/-- A journal without pending prepares and with an authentic last publication is complete. -/
theorem Stored.view_complete {H : Sha256} {d : StateDirectory} {L : List StatePublication}
    (hs : Stored d L) (hnone : ∀ q, ¬ Pending L q) {last : StatePublication}
    (hlast : (completeRecords L).getLast? = some last)
    (hm : readContentManifestForPublication H d last = .ok ()) :
    ∃ e, readStatePublicationState H d = .ok ⟨e, .complete, some last, [], none⟩ ∧
      ∃ source, e = last.toEpoch source := by
  obtain ⟨e, he, hcur⟩ := hs.readPublicationObservation
  unfold IsCurrentEpoch at hcur
  rw [hlast] at hcur
  refine ⟨e, ?_, hcur⟩
  rw [readStatePublicationState, he, bind_eq_ok]
  refine ⟨_, rfl, ?_⟩
  simp only
  rw [hs.numbered.maxByEpoch, hlast, pendingRecords_eq_nil hnone, if_neg (not_not.mpr rfl)]
  simp only
  rw [hm]
  rfl

/-- `d` is read as complete with the publication `last` and its epoch. -/
structure ReadsComplete (H : Sha256) (d : StateDirectory) (last : StatePublication) : Prop where
  view : ∃ e, readStatePublicationState H d = .ok ⟨e, .complete, some last, [], none⟩ ∧
    ∃ source, e = last.toEpoch source
  manifest : readContentManifestForPublication H d last = .ok ()

/-- **A committed publication is readable.** -/
theorem record_complete_readable {H : Sha256} {d : StateDirectory} (hd : Reachable H d)
    {r : RecordRequest} (hr : r.status = .complete) {now : TimeNs} {p : StatePublication}
    (hok : (recordStatePublication H r now d).result = .ok p) (hn : NoManifestCollision H d p) :
    ∃ L last, readJournal ((recordStatePublication H r now d).final d) = .ok L ∧
      p ∈ completeRecords L ∧
      ReadsComplete H ((recordStatePublication H r now d).final d) last ∧
      (last = p ∨
        ((recordStatePublication H r now d).final d = d ∧ p.epoch < last.epoch)) := by
  obtain ⟨L, hs⟩ := hd.stored
  have hend := (wp_recordStatePublication (H := H) hs (c := .record r now) trivial r now).2
  rw [hok, onEnd_ok] at hend
  generalize (recordStatePublication H r now d).final d = d' at hend ⊢
  rw [hr] at hend
  cases hend with
  | replayed same latest settled others authentic =>
    subst same
    have hcomplete : p.status = .complete := settled.elim id id
    have hmem : p ∈ completeRecords L := by
      rw [completeRecords, List.mem_filter, decide_eq_true_eq]
      exact ⟨mem_of_latestFor latest, hcomplete⟩
    have hnone : ∀ q, ¬ Pending L q := by
      intro q hq
      have hl := hq.1
      rw [others q hq, latest] at hl
      have hstatus := hq.2
      rw [← Option.some_inj.mp hl, hcomplete] at hstatus
      cases hstatus
    obtain ⟨last, hlast⟩ : ∃ last, (completeRecords L).getLast? = some last := by
      cases h : (completeRecords L).getLast? with
      | some last => exact ⟨last, rfl⟩
      | none =>
        rw [List.getLast?_eq_none_iff.mp h] at hmem
        exact absurd hmem List.not_mem_nil
    refine ⟨L, last, hs.readJournal, hmem,
      ⟨hs.view_complete hnone hlast (authentic last hlast), authentic last hlast⟩, ?_⟩
    by_cases he : p.epoch = last.epoch
    · exact Or.inl (hs.numbered.eq_of_epoch_eq hmem (List.mem_of_getLast? hlast) he).symm
    · have h1 := (hs.numbered.epoch_le hmem).2
      have h2 := hs.numbered.epoch_getLast hlast
      exact Or.inr ⟨rfl, by omega⟩
  | appended draft hwf hstatus hbare others hpub =>
    have hpstatus : p.status = .complete := by
      obtain ⟨_, _, rfl⟩ := hpub.draft
      exact hstatus
    have hcr : completeRecords (L ++ [p]) = completeRecords L ++ [p] := by
      rw [completeRecords_append, completeRecords_cons, if_pos hpstatus]
      rfl
    have hlast : (completeRecords (L ++ [p])).getLast? = some p := by
      rw [hcr, List.getLast?_concat]
    have hnone : ∀ q, ¬ Pending (L ++ [p]) q := by
      intro q hq
      rcases pending_append_singleton.mp hq with ⟨-, hs'⟩ | ⟨hne, hq⟩
      · rw [hpstatus] at hs'
        cases hs'
      · exact hne (others q hq).symm
    have hrec : p.Recorded := hpub.stored.recorded p (by simp)
    have hm : readContentManifestForPublication H d' p = .ok () := by
      rcases hpub.manifest hstatus with ⟨hnil, rfl⟩ | ⟨m, rfl, hw⟩
      · rw [readContentManifestForPublication, if_pos hnil, raiseIf_eq_ok, hbare.1, hbare.2]
        simp
      · exact readContentManifest_written hw hn hrec hstatus
    refine ⟨L ++ [p], p, hpub.stored.readJournal, ?_,
      ⟨hpub.stored.view_complete hnone hlast hm, hm⟩, Or.inl rfl⟩
    rw [hcr]
    exact List.mem_append_right _ List.mem_cons_self

/-! ## Two publications -/

/-- A head of the owner of the sample requests. -/
def semanticHead : StateOwnerHead where
  owner := lit "semantic"
  revision := 3
  digestSha256 := List.replicate 64 'a'
  schemaVersion := some 1
  owner_ok := by decide
  digest_ok := by decide
  schema_ok := by simp

theorem exists_of_map_eq_ok {α β : Type} {x : Checked α} {f : α → β} {b : β}
    (h : x.map f = .ok b) : ∃ a, x = .ok a ∧ f a = b := by
  cases x with
  | error e => cases h
  | ok a => exact ⟨a, rfl, Except.ok.inj h⟩

/-- A first publication with owner heads, and so with a content manifest. -/
theorem record_complete_readable_first :
    ∃ p, (recordStatePublication checksum
        { plainRequest "a" .complete with ownerHeads := some [semanticHead] }
        (clock 5) .empty).result = .ok p ∧ p.contentManifestName.isSome = true ∧
      ∃ L last, readJournal ((recordStatePublication checksum
          { plainRequest "a" .complete with ownerHeads := some [semanticHead] }
          (clock 5) .empty).final .empty) = .ok L ∧ p ∈ completeRecords L ∧
        ReadsComplete checksum ((recordStatePublication checksum
          { plainRequest "a" .complete with ownerHeads := some [semanticHead] }
          (clock 5) .empty).final .empty) last ∧
        (last = p ∨ ((recordStatePublication checksum
          { plainRequest "a" .complete with ownerHeads := some [semanticHead] }
          (clock 5) .empty).final .empty = .empty ∧ p.epoch < last.epoch)) := by
  have hrun : (recordStatePublication checksum
      { plainRequest "a" .complete with ownerHeads := some [semanticHead] }
      (clock 5) .empty).result.map (fun p => p.contentManifestName.isSome) =
        .ok true := by decide +kernel
  obtain ⟨p, hp, hname⟩ := exists_of_map_eq_ok hrun
  have hn : NoManifestCollision checksum .empty p := by
    intro raw encoded h
    cases h
  exact ⟨p, hp, hname, record_complete_readable Relation.ReflTransGen.refl rfl hp hn⟩

/-- Publications of the keys `a` and `b`, in this order. -/
def twoPublications : StateDirectory :=
  runCalls checksum .empty [.record (plainRequest "a" .complete) (clock 5),
    .record (plainRequest "b" .complete) (clock 6)]

/-- The replay of `a` behind `b`. -/
def replayOfFirst : Outcome StateDirectory PublicationError StatePublication :=
  recordStatePublication checksum (plainRequest "a" .complete) (clock 7)
    twoPublications

/-- What the replay returns, and what the reader shows behind it. -/
def replayedAndShown : Checked (StatePublication × StatePublicationView) := do
  let p ← replayOfFirst.result
  let view ← readStatePublicationState checksum (replayOfFirst.final twoPublications)
  pure (p, view)

/-- The replay returns the publication of epoch one; nothing is pending, and the reader shows the
publication of epoch two. -/
theorem replay_shows_newer_publication :
    Reachable checksum twoPublications ∧ ∃ p view, replayOfFirst.result = .ok p ∧
      readStatePublicationState checksum (replayOfFirst.final twoPublications) = .ok view ∧
      view.pending = [] ∧ view.publication ≠ some p ∧ view.epoch.epoch ≠ p.epoch := by
  have hrun : replayedAndShown.map (fun r => (r.1.epoch,
      r.2.publication.map StatePublication.epoch, r.2.epoch.epoch, r.2.pending.length)) =
        .ok (1, some 2, 2, 0) := by decide +kernel
  obtain ⟨⟨p, view⟩, h, hvals⟩ := exists_of_map_eq_ok hrun
  simp only [Prod.mk.injEq] at hvals
  obtain ⟨h1, h2, h3, h4⟩ := hvals
  rw [replayedAndShown, bind_eq_ok] at h
  obtain ⟨p', hp, h⟩ := h
  rw [bind_eq_ok] at h
  obtain ⟨view', hv, h⟩ := h
  cases h
  refine ⟨steps_runCalls checksum _ _, p, view, hp, hv, List.length_eq_zero_iff.mp h4, ?_, ?_⟩
  · intro e
    rw [e, Option.map_some, h1] at h2
    exact absurd (Option.some_inj.mp h2) (by decide)
  · rw [h3, h1]
    decide

end Publication
end Neocortex
