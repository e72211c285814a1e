import Neocortex.Artifacts.Outcomes

/-!
# Manifests behind a crash

What `register` and `update` leave when they are cut behind any of their file-system steps.  A new
manifest is published by a link and an unlink, and a reader refuses a file with two links.  So a crash
between these two steps leaves a manifest that is neither absent nor old nor new, and a second
`register` finds an id that is bound to it.  Behind every other step the publication is atomic.

* `Admitted`: a registration passed its checks; `register_published` and its siblings: its outcomes.
* `Settles`: only the manifest in question may have changed, to the new payload under one link.
* `register_again`: the repeated call.
* `CrashAtomic`: the whole guarantee; `publication_crash_atomic`: where it holds.
-/

namespace Neocortex
namespace Artifacts

open Python Durable

variable {sha256 : Sha256} {registry : Registry} {disk : Disk} {d t : Directory}

/-! ## Reading -/

/-- A reader sees of a directory what it says of the name. -/
theorem readManifestPayload_congr {m m' : Text} (h : t.stat m = d.stat m') :
    readManifestPayload sha256 registry t m = readManifestPayload sha256 registry d m' := by
  rw [readManifestPayload, h, readManifestPayload]

theorem loadRecord_congr {m m' : Text} (h : t.stat m = d.stat m') :
    loadRecord sha256 registry disk t m = loadRecord sha256 registry disk d m' := by
  rw [loadRecord, readRecord, readManifestPayload_congr h, loadRecord, readRecord]

/-- A record that loads is the one in its manifest. -/
theorem loadRecord_eq_ok {m : Text} {record : Observed}
    (h : loadRecord sha256 registry disk d m = .ok record) :
    ∃ payload, readManifestPayload sha256 registry d m = .ok payload ∧
      record.toRecord = payload.record := by
  simp only [loadRecord, readRecord, Checks.bind_eq_ok] at h
  obtain ⟨_, ⟨payload, hpayload, _, _, hrecord⟩, h⟩ := h
  obtain rfl := Except.ok.inj hrecord
  obtain rfl := Except.ok.inj h
  exact ⟨payload, hpayload, rfl⟩

theorem replayed_congr {m : Text} {candidate : Record} (h : t.stat m = d.stat m) :
    replayed sha256 registry disk t m candidate = replayed sha256 registry disk d m candidate := by
  rw [replayed, loadRecord_congr h, replayed]

theorem stat_eq_none (hd : d.Wf) {name : Text} : d.stat name = none ↔ d.find name = none := by
  constructor
  · intro h
    cases hf : d.find name with
    | none => rfl
    | some i =>
      have hi : i < d.nodes.length := hd.inodes _ (Directory.mem_of_find hf)
      rw [Directory.stat, hf] at h
      simp [List.getElem?_eq_getElem hi] at h
  · intro h
    rw [Directory.stat, h]
    rfl

theorem payloadFromRecord_record {record : Record} {payload : Payload}
    (h : payloadFromRecord sha256 record = .ok payload) :
    payload.record = record ∧ payload.schema = registrySchema ∧
      manifestDigest sha256 registrySchema record = .ok payload.manifestDigest := by
  simp only [payloadFromRecord, Checks.bind_eq_ok] at h
  obtain ⟨digest, hdigest, hpayload⟩ := h
  obtain rfl := Except.ok.inj hpayload
  exact ⟨rfl, rfl, hdigest⟩

/-- A published manifest reads back. -/
theorem readManifestPayload_of_stat {name : Text} {record : Record} {payload : Payload}
    (hpayload : payloadFromRecord sha256 record = .ok payload)
    (hsize : payload.encodedSize ≤ registry.maxManifestBytes)
    (hdurable : payload.encodedSize ≤ maxManifestBytes)
    (h : d.stat name = some (manifestNode payload, 1)) :
    readManifestPayload sha256 registry d name = .ok payload := by
  obtain ⟨hrecord, hschema, hdigest⟩ := payloadFromRecord_record hpayload
  rw [readManifestPayload, h]
  have hissue : manifestFileIssue (manifestNode payload) 1 = none := rfl
  have hcontent : (manifestNode payload).content = .manifest payload := rfl
  simp only [readContent, hissue, hcontent, Content.size, Checks.bind_eq_ok, need_eq_ok,
    decide_eq_true_eq]
  refine ⟨(), hsize, (), hschema, payload.manifestDigest, ?_, (), rfl, (), hdurable, trivial⟩
  rw [hschema, hrecord]
  exact hdigest

/-- A manifest that is read is the one that was published. -/
theorem eq_of_readManifestPayload {name : Text} {payload read : Payload} {links : ℕ}
    (hread : readManifestPayload sha256 registry d name = .ok read)
    (h : d.stat name = some (manifestNode payload, links)) : read = payload := by
  rw [readManifestPayload, h] at hread
  have hcontent : (manifestNode payload).content = .manifest payload := rfl
  cases hissue : manifestFileIssue (manifestNode payload) links with
  | some issue =>
    simp only [readContent, hissue] at hread
    cases hread
  | none =>
    simp only [readContent, hissue, hcontent, Checks.bind_eq_ok] at hread
    obtain ⟨_, _, _, _, _, _, _, _, _, _, hread⟩ := hread
    exact (Except.ok.inj hread).symm

variable (sha256 registry) in
/-- A file with two links is refused. -/
theorem readManifestPayload_of_two_links {name : Text} {payload : Payload}
    (h : d.stat name = some (manifestNode payload, 2)) :
    readManifestPayload sha256 registry d name =
      .error (.manifest "artifact manifest failed safety check: manifest_protection_drift") := by
  rw [readManifestPayload, h]
  rfl

/-! ## Registration -/

section Registration

variable {args : RegisterArgs} {now now' : ℤ} {token token' : Text} {candidate : Record}
  {payload : Payload}

variable (sha256 registry disk d args now candidate payload) in
/-- The registration passed its checks, up to the size of its manifest. -/
structure Admitted : Prop where
  root : ensureRoot registry disk = .ok ()
  candidate_eq : registerCandidate sha256 registry disk d args now = .ok candidate
  payload_eq : payloadFromRecord sha256 candidate = .ok payload
  size : payload.encodedSize ≤ registry.maxManifestBytes
  durable : payload.encodedSize ≤ maxManifestBytes

/-- A manifest that is too large is not written. -/
theorem publishRegistration_oversized (sha256 : Sha256) (disk : Disk) (d : Directory)
    (token name : Text) (h : ¬ (payload.encodedSize ≤ registry.maxManifestBytes ∧
      payload.encodedSize ≤ maxManifestBytes)) :
    ∃ message, publishRegistration sha256 registry disk name token payload d =
      ⟨[], .error (.value message)⟩ := by
  by_cases hsize : payload.encodedSize ≤ registry.maxManifestBytes
  · have hdurable : ¬ payload.encodedSize ≤ maxManifestBytes := fun hle => h ⟨hsize, hle⟩
    have hwrite : writeRegistration registry name token payload true d =
        ⟨[], .error (.value "artifact manifest exceeds the durable size limit")⟩ := by
      rw [writeRegistration, need, decide_eq_true hsize, if_pos rfl, Program.ok_bind]
      exact Program.bind_of_error (writeJsonAtomic_oversized hdurable)
    exact ⟨_, Program.bind_of_error hwrite⟩
  · have hwrite : writeRegistration registry name token payload true d =
        ⟨[], .error (.value "artifact manifest exceeds the configured size limit")⟩ := by
      rw [writeRegistration, need, decide_eq_false hsize]
      rfl
    exact ⟨_, Program.bind_of_error hwrite⟩

variable (sha256 registry disk d args now token) in
/-- A registration that does not pass its checks changes nothing. -/
theorem register_refused
    (h : ∀ candidate payload, ¬ Admitted sha256 registry disk d args now candidate payload) :
    ∃ e, register sha256 registry disk args now token d = ⟨[], .error e⟩ := by
  rw [register, Program.read_bind]
  cases hroot : ensureRoot registry disk with
  | error e => exact ⟨e, rfl⟩
  | ok u =>
    rw [Program.ok_bind]
    cases hcandidate : registerCandidate sha256 registry disk d args now with
    | error e => exact ⟨e, rfl⟩
    | ok candidate =>
      rw [Program.ok_bind]
      cases hpayload : payloadFromRecord sha256 candidate with
      | error e => exact ⟨e, rfl⟩
      | ok payload =>
        rw [Program.ok_bind]
        have hsize : ¬ (payload.encodedSize ≤ registry.maxManifestBytes ∧
            payload.encodedSize ≤ maxManifestBytes) := fun hs =>
          h candidate payload ⟨hroot, hcandidate, hpayload, hs.1, hs.2⟩
        obtain ⟨message, hmessage⟩ := publishRegistration_oversized sha256 disk d token
          (safeManifestName sha256 candidate.artifactId) hsize
        refine ⟨.value message, ?_⟩
        rw [Program.handle_of_error hmessage, replayRegistration, if_pos (by simp)]
        rfl

/-- The second look behind a publication raises what the first one raised. -/
theorem handle_replay {x : Program Directory Raised Observed} {name : Text} {ws : List Directory}
    (hx : x d = ⟨ws, loadRecord sha256 registry disk (ws.getLast?.getD d) name⟩) :
    x.handle (replayRegistration sha256 registry disk name candidate) d =
      ⟨ws, loadRecord sha256 registry disk (ws.getLast?.getD d) name⟩ := by
  cases hload : loadRecord sha256 registry disk (ws.getLast?.getD d) name with
  | ok r =>
    rw [hload] at hx
    exact Program.handle_of_ok hx
  | error e =>
    rw [hload] at hx
    rw [Program.handle_of_error hx, replayRegistration]
    by_cases he : e = .fileExists
    · rw [if_neg (by simpa using he), Program.read_bind, replayed, hload, he]
      simp [Program.ofExcept, Raised.isRegistryError]
    · rw [if_pos he]
      simp [Program.ofExcept]

variable {name : Text} (h : Admitted sha256 registry disk d args now candidate payload)
  (hname : safeManifestName sha256 candidate.artifactId = name)
include h hname

theorem register_eq :
    register sha256 registry disk args now token d =
      (publishRegistration sha256 registry disk name token payload).handle
        (replayRegistration sha256 registry disk name candidate) d := by
  rw [register, Program.read_bind, h.root, Program.ok_bind, h.candidate_eq, Program.ok_bind,
    h.payload_eq, Program.ok_bind, hname]

omit hname in
theorem writeRegistration_eq (name token : Text) (exclusive : Bool) :
    writeRegistration registry name token payload exclusive d =
      (do writeJsonAtomic name token payload exclusive; checkPublished name) d := by
  rw [writeRegistration, need, decide_eq_true h.size, if_pos rfl, Program.ok_bind]

/-- A registration under a free name. -/
theorem register_published (hd : d.Wf) (ht : d.find (temporaryName name token) = none)
    (hn : d.find name = none) :
    register sha256 registry disk args now token d =
      ⟨[d.create (temporaryName name token), d.staged (temporaryName name token) payload,
        d.linked (temporaryName name token) name payload, d.published name payload],
        loadRecord sha256 registry disk (d.published name payload) name⟩ := by
  have hcheck : checkPublished name (d.published name payload) = ⟨[], .ok ()⟩ := by
    rw [checkPublished, Program.read_bind, stat_published payload hd hn]
    rfl
  have hwrite := writeRegistration_eq h name token true
  rw [Program.bind_of_ok (writeJsonAtomic_published h.durable ht hn)] at hwrite
  simp only [List.getLast?_cons_cons, List.getLast?_singleton, Option.getD_some, hcheck,
    List.append_nil] at hwrite
  rw [register_eq h hname]
  exact handle_replay (Program.bind_of_ok hwrite)

/-- A registration under a name that is in use. -/
theorem register_existing (hd : d.Wf) (ht : d.find (temporaryName name token) = none)
    (hn : d.find name ≠ none) :
    register sha256 registry disk args now token d =
      ⟨[d.create (temporaryName name token), d.staged (temporaryName name token) payload,
        d.discarded payload], replayed sha256 registry disk d name candidate⟩ := by
  have hwrite := writeRegistration_eq h name token true
  rw [Program.bind_of_error (writeJsonAtomic_conflict h.durable ht hn)] at hwrite
  have hpublish : publishRegistration sha256 registry disk name token payload d = _ :=
    Program.bind_of_error hwrite
  rw [register_eq h hname, Program.handle_of_error hpublish, replayRegistration, if_neg (by simp),
    Program.read_bind]
  simp only [List.getLast?_cons_cons, List.getLast?_singleton, Option.getD_some, Program.ofExcept,
    List.append_nil, replayed_congr (stat_discarded hd name)]

/-- A registration whose temporary is in the way. -/
theorem register_taken (ht : d.find (temporaryName name token) ≠ none) :
    register sha256 registry disk args now token d =
      ⟨[], replayed sha256 registry disk d name candidate⟩ := by
  have hwrite := writeRegistration_eq h name token true
  rw [Program.bind_of_error (writeJsonAtomic_taken h.durable ht)] at hwrite
  have hpublish : publishRegistration sha256 registry disk name token payload d = _ :=
    Program.bind_of_error hwrite
  rw [register_eq h hname, Program.handle_of_error hpublish, replayRegistration, if_neg (by simp),
    Program.read_bind]
  rfl

omit h hname in
/-- A dependency that passed has a manifest that loads. -/
theorem load_of_validateDependency {artifactId dependency : Text}
    (hok : validateDependency sha256 registry disk d artifactId dependency = .ok ()) :
    ∃ target, loadRecord sha256 registry disk d (safeManifestName sha256 dependency) = .ok target := by
  rw [validateDependency, Checks.bind_eq_ok] at hok
  obtain ⟨_, _, hok⟩ := hok
  cases hload : loadRecord sha256 registry disk d (safeManifestName sha256 dependency) with
  | error e =>
    rw [hload] at hok
    cases hok
  | ok target => exact ⟨target, rfl⟩

omit h hname in
theorem find_of_loadRecord {name : Text} {record : Observed}
    (hok : loadRecord sha256 registry disk d name = .ok record) : d.find name ≠ none := by
  intro hnone
  have hstat : d.stat name = none := by
    rw [Directory.stat, hnone]
    rfl
  rw [loadRecord, readRecord, readManifestPayload, hstat] at hok
  cases hok

omit h hname in
theorem validateDependency_congr {artifactId dependency : Text}
    (hstat : t.stat (safeManifestName sha256 dependency) =
      d.stat (safeManifestName sha256 dependency)) :
    validateDependency sha256 registry disk t artifactId dependency =
      validateDependency sha256 registry disk d artifactId dependency := by
  rw [validateDependency, loadRecord_congr hstat, validateDependency]

omit h hname in
/-- The candidate depends on the directory by its dependencies, and on the clock by `created_ns`. -/
theorem registerCandidate_congr (hcreated : args.createdNs.isSome)
    (hok : registerCandidate sha256 registry disk d args now = .ok candidate)
    (hstat : ∀ dependency, d.find (safeManifestName sha256 dependency) ≠ none →
      t.stat (safeManifestName sha256 dependency) = d.stat (safeManifestName sha256 dependency)) :
    registerCandidate sha256 registry disk t args now' = .ok candidate := by
  obtain ⟨created, hcreated⟩ := Option.isSome_iff_exists.mp hcreated
  simp only [registerCandidate, Checks.bind_eq_ok, hcreated, Option.getD_some] at hok ⊢
  obtain ⟨id, hid, registryOwner, hregistryOwner, owner, howner, _, hsame, producer, hproducer,
    purpose, hpurpose, _, hgiven, path, hpath, root, hroot, state, hstate, runId, hrunId, ttl, httl, _,
    hretain, _, hlifetime, dependencies, hdependencies, _, hvalid, hrest⟩ := hok
  refine ⟨id, hid, registryOwner, hregistryOwner, owner, howner, _, hsame, producer, hproducer,
    purpose, hpurpose, _, hgiven, path, hpath, root, hroot, state, hstate, runId, hrunId, ttl, httl, _,
    hretain, _, hlifetime, dependencies, hdependencies, (), ?_, hrest⟩
  rw [validateDependencies_eq_ok] at hvalid ⊢
  intro dependency hmem
  obtain ⟨target, htarget⟩ := load_of_validateDependency (hvalid dependency hmem)
  rw [validateDependency_congr (hstat dependency (find_of_loadRecord htarget))]
  exact hvalid dependency hmem

omit h in
/-- What a registration that passes returns, whatever the name of its temporary. -/
theorem register_result (h : Admitted sha256 registry disk d args now candidate payload)
    (hd : d.Wf) {r : Observed}
    (hr : (register sha256 registry disk args now token d).result = .ok r) :
    (d.find name = none → loadRecord sha256 registry disk (d.published name payload) name = .ok r) ∧
      (d.find name ≠ none → replayed sha256 registry disk d name candidate = .ok r) := by
  by_cases ht : d.find (temporaryName name token) = none
  · refine ⟨fun hn => ?_, fun hn => ?_⟩
    · rw [register_published h hname hd ht hn] at hr
      exact hr
    · rw [register_existing h hname hd ht hn] at hr
      exact hr
  · rw [register_taken h hname ht] at hr
    refine ⟨fun hn => ?_, fun _ => hr⟩
    -- without a manifest there is nothing to replay
    have hstat : d.stat name = none := (stat_eq_none hd).mpr hn
    rw [replayed, loadRecord, readRecord, readManifestPayload, hstat] at hr
    cases hr

end Registration

/-! ## The states that a crash leaves -/

/-- Behind a publication, only the manifest of this name may differ: it is new, under one link. -/
structure Settles (d t : Directory) (name temporary : Text) (new : Payload → Prop) : Prop where
  wf : t.Wf
  others : ∀ m, m ≠ temporary → m ≠ name → t.stat m = d.stat m
  own : t.stat name = d.stat name ∨
    ∃ payload, new payload ∧ t.stat name = some (manifestNode payload, 1)

section Settled

variable {name temporary : Text} {payload : Payload} {new : Payload → Prop}

theorem Directory.Wf.append (hd : d.Wf) (entries : List (Text × ℕ)) (nodes : List Node)
    (hnodup : (entries.map Prod.fst).Nodup) (hfresh : ∀ entry ∈ entries, d.find entry.1 = none)
    (hinodes : ∀ entry ∈ entries, entry.2 < d.nodes.length + nodes.length) :
    (⟨d.entries ++ entries, d.nodes ++ nodes⟩ : Directory).Wf where
  names := by
    rw [List.map_append, List.nodup_append]
    refine ⟨hd.names, hnodup, ?_⟩
    intro a ha b hb
    obtain ⟨old, hold, rfl⟩ := List.mem_map.mp ha
    obtain ⟨entry, hentry, rfl⟩ := List.mem_map.mp hb
    exact Directory.find_eq_none.mp (hfresh entry hentry) old hold
  inodes entry hentry := by
    rw [List.length_append]
    rcases List.mem_append.mp hentry with hold | hnew
    · have := hd.inodes entry hold
      omega
    · exact hinodes entry hnew

theorem Settles.refl (hd : d.Wf) : Settles d d name temporary new := ⟨hd, fun _ _ _ => rfl, .inl rfl⟩

variable (hd : d.Wf) (ht : d.find temporary = none) (hne : temporary ≠ name)
include hd

include ht hne in
theorem settles_create : Settles d (d.create temporary) name temporary new where
  wf := hd.append _ _ (by simp) (by simpa using ht) (by simp)
  others m hm _ := stat_create hd hm.symm
  own := .inl (stat_create hd hne)

include ht hne in
theorem settles_staged : Settles d (d.staged temporary payload) name temporary new where
  wf := hd.append _ _ (by simp) (by simpa using ht) (by simp)
  others m hm _ := stat_staged hd hm.symm
  own := .inl (stat_staged hd hne)

theorem settles_discarded : Settles d (d.discarded payload) name temporary new where
  wf := by
    have h := hd.append [] [manifestNode payload] (by simp) (by simp) (by simp)
    rw [List.append_nil] at h
    exact h
  others m _ _ := stat_discarded hd m
  own := .inl (stat_discarded hd name)

theorem settles_published (hn : d.find name = none) (hnew : new payload) :
    Settles d (d.published name payload) name temporary new where
  wf := hd.append _ _ (by simp) (by simpa using hn) (by simp)
  others m _ hm := stat_published_other payload hd hm.symm
  own := .inr ⟨payload, hnew, stat_published payload hd hn⟩

theorem settles_replaced {node : Node} (hn : d.stat name = some (node, 1)) (hnew : new payload) :
    Settles d (d.replaced name payload) name temporary new where
  wf := by
    refine (wf_without hd name).append _ _ (by simp) ?_ (by simp)
    intro entry hentry
    obtain rfl := List.mem_singleton.mp hentry
    rw [Directory.find_eq_none]
    intro old hold
    simpa using (List.mem_filter.mp hold).2
  others m _ hm := stat_replaced_other hd hm.symm hn
  own := .inr ⟨payload, hnew, stat_replaced hd⟩

end Settled

/-! ## A registration that is cut -/

theorem ne_temporaryName {m : Text} (h : lit ".json" <:+ m) (name token : Text) :
    m ≠ temporaryName name token := by
  rintro rfl
  obtain ⟨front, hfront⟩ := h
  have hlast := congrArg List.getLast? hfront
  rw [temporaryName, List.getLast?_append, List.getLast?_append] at hlast
  simp [lit] at hlast

theorem safeManifestName_suffix (sha256 : Sha256) (artifactId : Text) :
    lit ".json" <:+ safeManifestName sha256 artifactId := by
  rw [safeManifestName]
  split_ifs
  all_goals exact List.suffix_append _ _

theorem registrationEqual_self (record : Record) : registrationEqual record record = true := by
  simp [registrationEqual]

section Registration

variable {args : RegisterArgs} {now now' : ℤ} {token token' name : Text} {candidate : Record}
  {payload : Payload} {n : ℕ}

variable (h : Admitted sha256 registry disk d args now candidate payload)
  (hname : safeManifestName sha256 candidate.artifactId = name) (hd : d.Wf)
include h hname hd

/-- Behind every step but the link, the directory is settled. -/
theorem register_settles
    (hcut : (register sha256 registry disk args now token).behind d n = some t)
    (hsafe : ¬ (n = 3 ∧ d.find name = none)) :
    Settles d t name (temporaryName name token)
      (fun new => new = payload ∧ d.find name = none) := by
  rw [Program.behind] at hcut
  by_cases ht : d.find (temporaryName name token) = none
  · have hne := temporaryName_ne name token
    by_cases hn : d.find name = none
    · rw [register_published h hname hd ht hn] at hcut
      match n with
      | 0 => exact Option.some.inj hcut ▸ Settles.refl hd
      | 1 => exact Option.some.inj hcut ▸ settles_create hd ht hne
      | 2 => exact Option.some.inj hcut ▸ settles_staged hd ht hne
      | 3 => exact absurd ⟨rfl, hn⟩ hsafe
      | 4 => exact Option.some.inj hcut ▸ settles_published hd hn ⟨rfl, hn⟩
      | n + 5 => cases hcut
    · rw [register_existing h hname hd ht hn] at hcut
      match n with
      | 0 => exact Option.some.inj hcut ▸ Settles.refl hd
      | 1 => exact Option.some.inj hcut ▸ settles_create hd ht hne
      | 2 => exact Option.some.inj hcut ▸ settles_staged hd ht hne
      | 3 => exact Option.some.inj hcut ▸ settles_discarded hd
      | n + 4 => cases hcut
  · rw [register_taken h hname ht] at hcut
    match n with
    | 0 => exact Option.some.inj hcut ▸ Settles.refl hd
    | n + 1 => cases hcut

/-- Behind the link, the new manifest has two names. -/
theorem register_two_links
    (hcut : (register sha256 registry disk args now token).behind d 3 = some t)
    (hn : d.find name = none) : t.stat name = some (manifestNode payload, 2) := by
  rw [Program.behind] at hcut
  by_cases ht : d.find (temporaryName name token) = none
  · rw [register_published h hname hd ht hn] at hcut
    exact Option.some.inj hcut ▸ stat_linked hd hn
  · rw [register_taken h hname ht] at hcut
    cases hcut

omit hname hd in
/-- From a settled directory, the same call passes the same checks. -/
theorem admitted_again (hcreated : args.createdNs.isSome)
    (hset : Settles d t name (temporaryName name token)
      (fun new => new = payload ∧ d.find name = none)) :
    Admitted sha256 registry disk t args now' candidate payload where
  root := h.root
  candidate_eq := by
    refine registerCandidate_congr hcreated h.candidate_eq fun dependency hfind => ?_
    by_cases heq : safeManifestName sha256 dependency = name
    · rcases hset.own with hown | ⟨_, ⟨_, hn⟩, _⟩
      · rw [heq, hown]
      · rw [heq] at hfind
        exact absurd hn hfind
    · exact hset.others _ (ne_temporaryName (safeManifestName_suffix _ _) _ _) heq
  payload_eq := h.payload_eq
  size := h.size
  durable := h.durable

/-- From a settled directory, the same call returns what it would have returned. -/
theorem register_again (hcreated : args.createdNs.isSome)
    (hset : Settles d t name (temporaryName name token)
      (fun new => new = payload ∧ d.find name = none))
    (ht : t.find (temporaryName name token') = none) {r : Observed}
    (hr : (register sha256 registry disk args now token d).result = .ok r) :
    (register sha256 registry disk args now' token' t).result = .ok r := by
  obtain ⟨hfree, hused⟩ := register_result hname h hd hr
  have hagain : Admitted sha256 registry disk t args now' candidate payload :=
    admitted_again h hcreated hset
  rcases hset.own with hown | ⟨_, ⟨rfl, hn⟩, hown⟩
  · have hiff : t.find name = none ↔ d.find name = none := by
      rw [← stat_eq_none hset.wf, hown, stat_eq_none hd]
    by_cases hn : d.find name = none
    · have hn' := hiff.mpr hn
      rw [register_published hagain hname hset.wf ht hn']
      have hstat := (stat_published payload hset.wf hn').trans
        (stat_published payload hd hn).symm
      exact (loadRecord_congr hstat).trans (hfree hn)
    · rw [register_existing hagain hname hset.wf ht (fun hn' => hn (hiff.mp hn'))]
      exact (replayed_congr hown).trans (hused hn)
  · -- the manifest is there already, and it is this one
    have hload : loadRecord sha256 registry disk t name = .ok r :=
      (loadRecord_congr (hown.trans (stat_published _ hd hn).symm)).trans (hfree hn)
    have hsome : t.find name ≠ none := find_of_loadRecord hload
    rw [register_existing hagain hname hset.wf ht hsome]
    have hrecord : r.toRecord = candidate := by
      obtain ⟨read, hread, hr⟩ := loadRecord_eq_ok hload
      rw [readManifestPayload_of_stat h.payload_eq h.size h.durable hown] at hread
      obtain rfl := Except.ok.inj hread
      rw [hr, (payloadFromRecord_record h.payload_eq).1]
    show replayed sha256 registry disk t name candidate = .ok r
    rw [replayed, hload]
    simp [hrecord, registrationEqual_self]

end Registration

/-! ## An update that is cut -/

section Update

variable {artifactId : Text} {args : UpdateArgs} {now : ℤ} {token name : Text} {n : ℕ}

/-- A manifest that is read is a file under one name. -/
theorem stat_of_readManifestPayload {payload : Payload}
    (hread : readManifestPayload sha256 registry d name = .ok payload) :
    ∃ node, d.stat name = some (node, 1) := by
  rw [readManifestPayload] at hread
  cases hstat : d.stat name with
  | none =>
    rw [hstat] at hread
    cases hread
  | some found =>
    obtain ⟨node, links⟩ := found
    rw [hstat] at hread
    refine ⟨node, ?_⟩
    by_contra hlinks
    have hne : links ≠ 1 := fun h1 => hlinks (by rw [h1])
    have hissue : manifestFileIssue node links ≠ none := by
      rw [manifestFileIssue]
      split_ifs with htype hprotection
      · simp
      · simp
      · simp [hne] at hprotection
    obtain ⟨issue, hissue⟩ := Option.ne_none_iff_exists'.mp hissue
    simp only [readContent, hissue] at hread
    cases hread

variable (sha256 registry disk d name token) in
/-- A publication of an update is refused in front of its steps, or it ends with a look at its
manifest. -/
theorem publishUpdate_cases (record : Record) :
    (∃ e, publishUpdate sha256 registry disk name token record d = ⟨[], .error e⟩) ∨
      ∃ payload, payloadFromRecord sha256 record = .ok payload ∧
        payload.encodedSize ≤ registry.maxManifestBytes ∧ payload.encodedSize ≤ maxManifestBytes ∧
        publishUpdate sha256 registry disk name token record d =
          ⟨[d.create (temporaryName name token), d.staged (temporaryName name token) payload,
            d.replaced name payload], loadRecord sha256 registry disk (d.replaced name payload) name⟩ ∧
        d.find (temporaryName name token) = none := by
  rw [publishUpdate]
  cases hpayload : payloadFromRecord sha256 record with
  | error e => exact .inl ⟨e, rfl⟩
  | ok payload =>
    rw [Program.ok_bind]
    by_cases hsize : payload.encodedSize ≤ registry.maxManifestBytes
    · rw [need, decide_eq_true hsize, if_pos rfl, Program.ok_bind]
      by_cases hdurable : payload.encodedSize ≤ maxManifestBytes
      · by_cases ht : d.find (temporaryName name token) = none
        · refine .inr ⟨payload, rfl, hsize, hdurable, ?_, ht⟩
          rw [Program.bind_of_ok (writeJsonAtomic_replaced hdurable ht)]
          rfl
        · rw [Program.bind_of_error (writeJsonAtomic_taken hdurable ht)]
          exact .inl ⟨_, rfl⟩
      · rw [Program.bind_of_error (writeJsonAtomic_oversized hdurable)]
        exact .inl ⟨_, rfl⟩
    · rw [need, decide_eq_false hsize]
      exact .inl ⟨_, rfl⟩

variable (sha256 registry disk d artifactId args now) in
/-- The payload that an update publishes. -/
def updatePayload : Except Raised (Option Payload) := do
  let current ← loadRecord sha256 registry disk d (safeManifestName sha256 artifactId)
  match ← updateTarget sha256 registry disk d current args now with
  | none => .ok none
  | some record => some <$> payloadFromRecord sha256 record

variable (sha256 registry disk d artifactId args now token) in
/-- An update is refused, decides on no change, or publishes a record. -/
theorem update_cases :
    (∃ e, update sha256 registry disk artifactId args now token d = ⟨[], .error e⟩) ∨
      boundedText "artifact_id" maxArtifactIdBytes artifactId = .ok artifactId ∧
        ensureRoot registry disk = .ok () ∧
        ∃ current,
          loadRecord sha256 registry disk d (safeManifestName sha256 artifactId) = .ok current ∧
          (updateTarget sha256 registry disk d current args now = .ok none ∧
              update sha256 registry disk artifactId args now token d = ⟨[], .ok current⟩ ∨
            ∃ record, updateTarget sha256 registry disk d current args now = .ok (some record) ∧
              update sha256 registry disk artifactId args now token d =
                publishUpdate sha256 registry disk (safeManifestName sha256 artifactId) token record
                  d) := by
  rw [update]
  cases hid : boundedText "artifact_id" maxArtifactIdBytes artifactId with
  | error e => exact .inl ⟨e, rfl⟩
  | ok id =>
    obtain rfl := boundedText_eq_ok hid
    rw [Program.ok_bind]
    cases ensureRoot registry disk with
    | error e => exact .inl ⟨e, rfl⟩
    | ok u =>
      rw [Program.ok_bind, Program.read_bind]
      cases hload : loadRecord sha256 registry disk d (safeManifestName sha256 id) with
      | error e => exact .inl ⟨e, rfl⟩
      | ok current =>
        rw [Program.ok_bind]
        cases htarget : updateTarget sha256 registry disk d current args now with
        | error e => exact .inl ⟨e, rfl⟩
        | ok target =>
          refine .inr ⟨rfl, rfl, current, rfl, ?_⟩
          cases target with
          | none => exact .inl ⟨htarget, rfl⟩
          | some record => exact .inr ⟨record, htarget, rfl⟩

/-- A call without a step leaves the directory. -/
theorem settles_of_writes_eq_nil {α : Type} {x : Program Directory Raised α} (name temporary : Text)
    (new : Payload → Prop) (hd : d.Wf) (hwrites : (x d).writes = [])
    (hcut : x.behind d n = some t) : Settles d t name temporary new := by
  rw [Program.behind, hwrites] at hcut
  match n with
  | 0 => exact Option.some.inj hcut ▸ Settles.refl hd
  | n + 1 => cases hcut

/-- Behind every step of an update, the directory is settled. -/
theorem update_settles (hd : d.Wf) (hname : safeManifestName sha256 artifactId = name)
    (hcut : (update sha256 registry disk artifactId args now token).behind d n = some t) :
    Settles d t name (temporaryName name token) (fun new =>
      updatePayload sha256 registry disk d artifactId args now = .ok (some new) ∧
        readManifestPayload sha256 registry (d.replaced name new) name = .ok new) := by
  subst hname
  rcases update_cases sha256 registry disk d artifactId args now token with
    ⟨e, hrefused⟩ | ⟨-, -, current, hload, ⟨-, hidle⟩ | ⟨record, htarget, hpublish⟩⟩
  · exact settles_of_writes_eq_nil _ _ _ hd (by rw [hrefused]) hcut
  · exact settles_of_writes_eq_nil _ _ _ hd (by rw [hidle]) hcut
  · rcases publishUpdate_cases sha256 registry disk d token (safeManifestName sha256 artifactId)
      record with
      ⟨e, hrefused⟩ | ⟨payload, hpayload, hsize, hdurable, hrun, ht⟩
    · exact settles_of_writes_eq_nil _ _ _ hd (by rw [hpublish, hrefused]) hcut
    · obtain ⟨old, hold, -⟩ := loadRecord_eq_ok hload
      obtain ⟨node, hnode⟩ := stat_of_readManifestPayload hold
      have hne := temporaryName_ne (safeManifestName sha256 artifactId) token
      rw [Program.behind, hpublish, hrun] at hcut
      match n with
      | 0 => exact Option.some.inj hcut ▸ Settles.refl hd
      | 1 => exact Option.some.inj hcut ▸ settles_create hd ht hne
      | 2 => exact Option.some.inj hcut ▸ settles_staged hd ht hne
      | 3 =>
        refine Option.some.inj hcut ▸ settles_replaced hd hnode ⟨?_, ?_⟩
        · rw [updatePayload, hload, Checks.ok_bind, htarget, Checks.ok_bind]
          show some <$> payloadFromRecord sha256 record = .ok (some payload)
          rw [hpayload]
          rfl
        · exact readManifestPayload_of_stat hpayload hsize hdurable (stat_replaced hd)
      | n + 4 => cases hcut

end Update

/-! ## The guarantee -/

/-- A call that publishes a manifest. -/
inductive Call where
  | register (args : RegisterArgs)
  | update (artifactId : Text) (args : UpdateArgs)

namespace Call

variable (sha256 registry disk d)

/-- The name of the manifest. -/
def name : Call → Text
  | .register args => safeManifestName sha256 args.artifactId
  | .update artifactId _ => safeManifestName sha256 artifactId

def run (call : Call) (now : ℤ) (token : Text) : Program Directory Raised Observed :=
  match call with
  | .register args => Artifacts.register sha256 registry disk args now token
  | .update artifactId args => Artifacts.update sha256 registry disk artifactId args now token

/-- The payload that a call publishes. -/
def payload (call : Call) (now : ℤ) : Except Raised (Option Payload) :=
  match call with
  | .register args => do
    let candidate ← registerCandidate sha256 registry disk d args now
    some <$> payloadFromRecord sha256 candidate
  | .update artifactId args => updatePayload sha256 registry disk d artifactId args now

/-- A call that publishes by a link. -/
def isRegister : Call → Bool
  | .register _ => true
  | .update _ _ => false

end Call

/-- What a call that was cut may leave of the directory `d`. -/
structure CrashAtomic (sha256 : Sha256) (registry : Registry) (disk : Disk) (call : Call) (now : ℤ)
    (token : Text) (d t : Directory) : Prop where
  /-- The manifest reads as before the call, or it holds exactly the new payload. -/
  manifest : readManifestPayload sha256 registry t (call.name sha256) =
      readManifestPayload sha256 registry d (call.name sha256) ∨
    ∃ payload, call.payload sha256 registry disk d now = .ok (some payload) ∧
      readManifestPayload sha256 registry t (call.name sha256) = .ok payload
  /-- Every other manifest reads as before. -/
  others : ∀ m, lit ".json" <:+ m → m ≠ call.name sha256 →
    readManifestPayload sha256 registry t m = readManifestPayload sha256 registry d m
  /-- The same registration, repeated at a later time under a new temporary name, returns the record
  that the first one was to return. -/
  again : ∀ args, call = .register args → args.createdNs.isSome → ∀ record,
    (call.run sha256 registry disk now token d).result = .ok record → ∀ later fresh,
    t.find (temporaryName (call.name sha256) fresh) = none →
    (register sha256 registry disk args later fresh t).result = .ok record

section Guarantee

variable {call : Call} {now : ℤ} {token : Text} {n : ℕ}

variable (sha256 registry call) in
/-- What readers find of a settled directory. -/
theorem reads_of_settles {new : Payload → Prop}
    (hset : Settles d t (call.name sha256) (temporaryName (call.name sha256) token) new) :
    (readManifestPayload sha256 registry t (call.name sha256) =
        readManifestPayload sha256 registry d (call.name sha256) ∨
      ∃ payload, new payload ∧ t.stat (call.name sha256) = some (manifestNode payload, 1)) ∧
    ∀ m, lit ".json" <:+ m → m ≠ call.name sha256 →
      readManifestPayload sha256 registry t m = readManifestPayload sha256 registry d m := by
  refine ⟨?_, fun m hm hne => ?_⟩
  · rcases hset.own with hown | hnew
    · exact .inl (readManifestPayload_congr hown)
    · exact .inr hnew
  · exact readManifestPayload_congr (hset.others m (ne_temporaryName hm _ _) hne)

/-- A registration is atomic at each crash but the one between its link and its unlink. -/
theorem register_crash_atomic {args : RegisterArgs} (hd : d.Wf)
    (hcut : (register sha256 registry disk args now token).behind d n = some t)
    (hsafe : ¬ (n = 3 ∧ d.find (safeManifestName sha256 args.artifactId) = none)) :
    CrashAtomic sha256 registry disk (.register args) now token d t := by
  by_cases hadmitted : ∃ candidate payload,
      Admitted sha256 registry disk d args now candidate payload
  · obtain ⟨candidate, payload, h⟩ := hadmitted
    have hname : safeManifestName sha256 candidate.artifactId =
        safeManifestName sha256 args.artifactId := by
      rw [(registerCandidate_spec sha256 h.candidate_eq).artifactId]
    have hset := register_settles h hname hd hcut hsafe
    obtain ⟨hmanifest, hothers⟩ := reads_of_settles sha256 registry (.register args) hset
    refine ⟨?_, hothers, ?_⟩
    · rcases hmanifest with hold | ⟨new, ⟨hnew, _⟩, hstat⟩
      · exact .inl hold
      · rw [hnew] at hstat
        refine .inr ⟨payload, ?_, readManifestPayload_of_stat h.payload_eq h.size h.durable hstat⟩
        rw [Call.payload, h.candidate_eq, Checks.ok_bind, h.payload_eq]
        rfl
    · rintro _ ⟨⟩ hcreated record hrecord later fresh hfresh
      exact register_again h hname hd hcreated hset hfresh hrecord
  · obtain ⟨e, he⟩ := register_refused sha256 registry disk d args now token fun candidate payload h => hadmitted ⟨candidate, payload, h⟩
    have hset := settles_of_writes_eq_nil (safeManifestName sha256 args.artifactId)
      (temporaryName (safeManifestName sha256 args.artifactId) token) (fun _ => False) hd
      (by rw [he]) hcut
    obtain ⟨hmanifest, hothers⟩ := reads_of_settles sha256 registry (.register args) hset
    refine ⟨?_, hothers, ?_⟩
    · rcases hmanifest with hold | ⟨_, hfalse, _⟩
      · exact .inl hold
      · exact hfalse.elim
    · rintro _ ⟨⟩ _ record hrecord
      rw [Call.run, he] at hrecord
      cases hrecord

/-- An update is atomic at each crash. -/
theorem update_crash_atomic {artifactId : Text} {args : UpdateArgs} (hd : d.Wf)
    (hcut : (update sha256 registry disk artifactId args now token).behind d n = some t) :
    CrashAtomic sha256 registry disk (.update artifactId args) now token d t := by
  have hset := update_settles hd rfl hcut
  obtain ⟨hmanifest, hothers⟩ := reads_of_settles sha256 registry (.update artifactId args) hset
  refine ⟨?_, hothers, ?_⟩
  · rcases hmanifest with hold | ⟨payload, ⟨hpayload, hread⟩, hstat⟩
    · exact .inl hold
    · refine .inr ⟨payload, hpayload, ?_⟩
      rw [← hread]
      exact readManifestPayload_congr (hstat.trans (stat_replaced hd).symm)
  · rintro _ ⟨⟩

/-- Behind the link, the new manifest is refused. -/
theorem not_crash_atomic_of_linked {args : RegisterArgs} (hd : d.Wf)
    (hcut : (register sha256 registry disk args now token).behind d 3 = some t)
    (hn : d.find (safeManifestName sha256 args.artifactId) = none) :
    ¬ CrashAtomic sha256 registry disk (.register args) now token d t := by
  intro hatomic
  have hadmitted : ∃ candidate payload,
      Admitted sha256 registry disk d args now candidate payload := by
    by_contra hnone
    obtain ⟨e, he⟩ := register_refused sha256 registry disk d args now token fun candidate payload h => hnone ⟨candidate, payload, h⟩
    rw [Program.behind, he] at hcut
    cases hcut
  obtain ⟨candidate, payload, h⟩ := hadmitted
  have hname : safeManifestName sha256 candidate.artifactId =
      safeManifestName sha256 args.artifactId := by
    rw [(registerCandidate_spec sha256 h.candidate_eq).artifactId]
  have hread := readManifestPayload_of_two_links sha256 registry
    (register_two_links h hname hd hcut hn)
  have hold : readManifestPayload sha256 registry d (safeManifestName sha256 args.artifactId) =
      .error (.manifest "artifact manifest is unavailable") := by
    rw [readManifestPayload, (stat_eq_none hd).mpr hn]
  rcases hatomic.manifest with hsame | ⟨new, _, hnew⟩
  · rw [Call.name, hread, hold] at hsame
    simp at hsame
  · rw [Call.name, hread] at hnew
    cases hnew

/-- The publication of a manifest is atomic, wherever the call is cut, except behind the link of a
new manifest and before the unlink of its temporary. -/
theorem publication_crash_atomic (hd : d.Wf)
    (hcut : (call.run sha256 registry disk now token).behind d n = some t) :
    CrashAtomic sha256 registry disk call now token d t ↔
      ¬ (call.isRegister ∧ n = 3 ∧ d.find (call.name sha256) = none) := by
  cases call with
  | register args =>
    constructor
    · rintro hatomic ⟨-, rfl, hn⟩
      exact not_crash_atomic_of_linked hd hcut hn hatomic
    · intro hsafe
      exact register_crash_atomic hd hcut fun hbad => hsafe ⟨rfl, hbad⟩
  | update artifactId args =>
    constructor
    · rintro - ⟨hregister, -⟩
      cases hregister
    · intro _
      exact update_crash_atomic hd hcut

end Guarantee

/-! ## One registration -/

/-- A registry of the owner `workbench`. -/
def workbench : Registry where
  root := lit "/r"
  owner := some (lit "workbench")
  maxRecords := 100
  maxBytes := 1000000
  maxManifestBytes := maxManifestBytes
  maxMetadataBytes := maxMetadataBytes

/-- A private entry of the disk. -/
def privateStat (type : FileType) (inode : ℤ) : Stat :=
  ⟨type, true, true, 1, (1, inode, -1), 0, 0, none, none⟩

/-- The registry root and one payload. -/
def onePayload : Disk := fun path =>
  if path = lit "/r" then some (privateStat .directory 1)
  else if path = lit "/r/scratch" then some (privateStat .regular 2)
  else none

/-- `register("scratch", path="/r/scratch", created_ns=1)`. -/
def registerScratch : RegisterArgs where
  artifactId := lit "scratch"
  producer := none
  path := some (lit "/r/scratch")
  owner := none
  runId := none
  purpose := none
  root := none
  kind := .temporary
  state := .active
  sourceRef := .null
  digest := none
  dependencies := none
  retainUntilNs := none
  ttlNs := none
  ttl := none
  disposable := true
  metadata := none
  createdNs := some 1
  updatedNs := none
  pathIdentity := none
  identity := none
  rootIdentity := none
  lifecycleState := none
  retention := none
  manifestDigest := none

theorem wf_empty : (⟨[], []⟩ : Directory).Wf := ⟨List.nodup_nil, by simp⟩

/-- The digests of the manifests of `scratch`: as registered at time 1, and at time 2 with the purpose
`cache` or as it was. -/
def scratchDigest : Sha256 := fun manifest =>
  if encodeUtf8 (lit "\"updated_ns\":1") <:+: manifest then
    lit "1c8e3ad5f8e82a6a425f5eb75226318d2fe1fae152c24a4fc033386234a5f6af"
  else if encodeUtf8 (lit "\"purpose\":\"cache\"") <:+: manifest then
    lit "f9f6a62ac77124fb9316d23976ae2596deba94bb2e70777333062ec7a0c8bd5c"
  else lit "7fbcbf7f034dcf6b057a900b67926fdacf6f50ad7103980ce7efcdf20d0392f4"

/-- Behind the write of the temporary, the registration of `scratch` is atomic. -/
theorem publication_crash_atomic_staged :
    ∃ t, ((Call.register registerScratch).run scratchDigest workbench onePayload 1 (lit "0")).behind
        ⟨[], []⟩ 2 = some t ∧
      CrashAtomic scratchDigest workbench onePayload (.register registerScratch) 1 (lit "0") ⟨[], []⟩
        t := by
  have hsome : (((Call.register registerScratch).run scratchDigest workbench onePayload 1
      (lit "0")).behind ⟨[], []⟩ 2).isSome := by
    decide +kernel
  obtain ⟨t, ht⟩ := Option.isSome_iff_exists.mp hsome
  exact ⟨t, ht, (publication_crash_atomic wf_empty ht).mpr (by decide)⟩

/-- Behind its link, it is not: the manifest of `scratch` has two names. -/
theorem publication_torn_at_link :
    ∃ t, ((Call.register registerScratch).run scratchDigest workbench onePayload 1 (lit "0")).behind
        ⟨[], []⟩ 3 = some t ∧
      ¬ CrashAtomic scratchDigest workbench onePayload (.register registerScratch) 1 (lit "0") ⟨[], []⟩
        t := by
  have hsome : (((Call.register registerScratch).run scratchDigest workbench onePayload 1
      (lit "0")).behind ⟨[], []⟩ 3).isSome := by
    decide +kernel
  obtain ⟨t, ht⟩ := Option.isSome_iff_exists.mp hsome
  exact ⟨t, ht, not_crash_atomic_of_linked wf_empty ht rfl⟩

end Artifacts
end Neocortex
