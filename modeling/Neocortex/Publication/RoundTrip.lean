import Neocortex.Library.Checks
import Neocortex.Python.JsonRoundTrip
import Neocortex.Publication.Operations

/-!
# Records survive their JSON images

A record has three images: its journal line, the epoch pointer and the content
manifest.  `StatePublication.WellFormed` collects what the validators of the writers
guarantee of a record; for such a record each image is read back as the record.

* `parsePublication_sorted`: the journal line;
* `parseEpoch_sorted`: the epoch pointer;
* `checkContentManifest_sorted`: the content manifest.
-/

namespace Neocortex
namespace Publication

open Python Checks

/-! ## Checks and what they promise -/

theorem requiredText_str {t t' : Text} {label : String} {maximum : ℕ} :
    requiredText (.str t) label maximum = .ok t' ↔ t' = t ∧ IsRequiredText maximum t := by
  unfold requiredText IsRequiredText
  simp only [Json.asStr?]
  split_ifs with h1 h2
  · constructor
    · intro h; cases h
    · rintro ⟨-, h, h', -⟩
      rcases h1 with h1 | h1
      · exact absurd h1 h
      · exact absurd h' h1
  · constructor
    · intro h; cases h
    · rintro ⟨-, -, -, h⟩
      exact absurd h (by omega)
  · rw [not_or, not_ne_iff] at h1
    constructor
    · intro h
      cases h
      exact ⟨rfl, h1.1, h1.2, by omega⟩
    · rintro ⟨rfl, -⟩
      rfl

/-- A property of the hexadecimal digits can be checked on their code points. -/
theorem forall_isHex {P : Char → Prop}
    (h : ∀ n < 103, isHex (Char.ofNat n) = true → P (Char.ofNat n)) {c : Char}
    (hc : isHex c = true) : P c := by
  have hlt : c.toNat < 103 := by
    simp only [isHex, isLowerHex, Bool.or_eq_true, Bool.and_eq_true, decide_eq_true_eq] at hc
    have e : ∀ a b : Char, a ≤ b ↔ a.toNat ≤ b.toNat := fun a b => Iff.rfl
    simp only [e] at hc
    have h9 : '9'.toNat = 57 := rfl
    have hf : 'f'.toNat = 102 := rfl
    have hF : 'F'.toNat = 70 := rfl
    omega
  have he : Char.ofNat c.toNat = c := Char.ofNat_toNat c
  have hp := h c.toNat hlt
  rw [he] at hp
  exact hp hc

theorem isSpace_of_isHex {c : Char} (h : isHex c = true) : isSpace c = false :=
  forall_isHex (P := fun c => isSpace c = false) (by decide) h

theorem utf8Size_of_isHex {c : Char} (h : isHex c = true) : c.utf8Size = 1 :=
  forall_isHex (P := fun c => c.utf8Size = 1) (by decide) h

theorem isLowerHex_toLower {c : Char} (h : isHex c = true) : isLowerHex c.toLower = true :=
  forall_isHex (P := fun c => isLowerHex c.toLower = true) (by decide) h

theorem isHex_of_isLowerHex {c : Char} (h : isLowerHex c = true) : isHex c = true := by
  simp [isHex, h]

theorem toLower_of_isLowerHex {c : Char} (h : isLowerHex c = true) : c.toLower = c :=
  forall_isHex (P := fun c => isLowerHex c = true → c.toLower = c) (by decide)
    (isHex_of_isLowerHex h) h

/-- Text without spaces is trimmed. -/
theorem strip_of_forall {t : Text} (h : ∀ c ∈ t, isSpace c = false) : strip t = t := by
  have h1 : t.dropWhile isSpace = t := by
    cases t with
    | nil => rfl
    | cons c t => rw [List.dropWhile_cons_of_neg]; simp [h c List.mem_cons_self]
  rw [strip, h1, List.rdropWhile_eq_self_iff]
  intro hne
  simp [h _ (List.getLast_mem hne)]

/-- A digest is text of 64 bytes. -/
theorem IsSha256.isRequiredText {t : Text} (h : IsSha256 t) : IsRequiredText 64 t := by
  have hhex : ∀ c ∈ t, isHex c = true := fun c hc => isHex_of_isLowerHex (h.2 c hc)
  refine ⟨?_, strip_of_forall fun c hc => isSpace_of_isHex (hhex c hc), ?_⟩
  · rintro rfl
    exact absurd h.1 (by decide)
  · rw [utf8Len_of_isAscii fun c hc => utf8Size_of_isHex (hhex c hc), h.1]

theorem IsRequiredText.mono {m n : ℕ} {t : Text} (h : IsRequiredText m t) (hmn : m ≤ n) :
    IsRequiredText n t := ⟨h.1, h.2.1, h.2.2.trans hmn⟩

theorem map_toLower {t : Text} (h : ∀ c ∈ t, isLowerHex c = true) : t.map Char.toLower = t := by
  have e : t.map Char.toLower = t.map id :=
    List.map_congr_left fun c hc => toLower_of_isLowerHex (h c hc)
  rw [e, List.map_id]

/-- A digest passes its check unchanged. -/
theorem requiredSha256_of_isSha256 {t : Text} (h : IsSha256 t) (label : String) :
    requiredSha256 (.str t) label = .ok t := by
  rw [requiredSha256, bind_eq_ok]
  refine ⟨t, requiredText_str.mpr ⟨rfl, h.isRequiredText⟩, ?_⟩
  rw [bind_eq_ok]
  refine ⟨(), ?_, ?_⟩
  · rw [raiseIf_eq_ok, not_or, not_not, List.any_eq_true, not_exists]
    refine ⟨h.1, fun c hc => ?_⟩
    rw [isHex_of_isLowerHex (h.2 c hc.1)] at hc
    exact absurd hc.2 (by decide)
  · rw [map_toLower h.2]
    rfl

/-- What the check returns is a digest. -/
theorem isSha256_of_requiredSha256 {value : Json} {label : String} {t : Text}
    (h : requiredSha256 value label = .ok t) : IsSha256 t := by
  rw [requiredSha256, bind_eq_ok] at h
  obtain ⟨selected, -, h⟩ := h
  rw [bind_eq_ok] at h
  obtain ⟨_, hc, h⟩ := h
  rw [raiseIf_eq_ok, not_or, not_not, List.any_eq_true, not_exists] at hc
  rw [pure_eq_ok] at h
  subst h
  refine ⟨by rw [List.length_map, hc.1], fun c hm => ?_⟩
  obtain ⟨c', hc', rfl⟩ := List.mem_map.mp hm
  refine isLowerHex_toLower ?_
  by_contra hne
  exact hc.2 c' ⟨hc', by rw [Bool.not_eq_true] at hne; rw [hne]; rfl⟩

theorem optionalSha256_of_isSha256 {o : Option Text} (h : ∀ t ∈ o, IsSha256 t) :
    optionalSha256 o = .ok o := by
  cases o with
  | none => rfl
  | some t =>
    rw [optionalSha256, bind_eq_ok]
    exact ⟨t, requiredSha256_of_isSha256 (h t rfl) _, rfl⟩

theorem isSha256_of_optionalSha256 {o r : Option Text} (h : optionalSha256 o = .ok r) :
    ∀ t ∈ r, IsSha256 t := by
  cases o with
  | none =>
    rw [optionalSha256, pure_eq_ok] at h
    subst h
    simp
  | some t =>
    rw [optionalSha256, bind_eq_ok] at h
    obtain ⟨digest, hd, h⟩ := h
    rw [pure_eq_ok] at h
    subst h
    intro t' ht'
    rw [← Option.some_inj.mp ht']
    exact isSha256_of_requiredSha256 hd

theorem owners_eq_ok {values r : List Text} :
    owners values = .ok r ↔
      r = values ∧ (∀ v ∈ values, IsRequiredText 128 v) ∧ values.Nodup := by
  rw [owners, bind_eq_ok]
  constructor
  · rintro ⟨r', hr', h⟩
    rw [bind_eq_ok] at h
    obtain ⟨_, hn, h⟩ := h
    rw [raiseIf_eq_ok, not_not] at hn
    rw [pure_eq_ok] at h
    obtain ⟨rfl, hall⟩ :=
      of_mapM_eq_ok (P := IsRequiredText 128) (fun a b h => requiredText_str.mp h) hr'
    exact ⟨h.symm, hall, hn⟩
  · rintro ⟨rfl, hall, hn⟩
    refine ⟨r, ?_, ?_⟩
    · have h := mapM_eq_ok (f := fun v => requiredText (.str v) "owner" 128) (g := id)
        fun a ha => requiredText_str.mpr ⟨rfl, hall a ha⟩
      rwa [List.map_id] at h
    · rw [bind_eq_ok]
      exact ⟨(), raiseIf_eq_ok.mpr (not_not.mpr hn), rfl⟩

theorem optionalText_eq_ok {o r : Option Text} {label : String} {maximum : ℕ} :
    optionalText o label maximum = .ok r ↔ r = o ∧ ∀ t ∈ o, IsRequiredText maximum t := by
  cases o with
  | none =>
    rw [optionalText, pure_eq_ok, eq_comm]
    simp
  | some t =>
    rw [optionalText, bind_eq_ok]
    constructor
    · rintro ⟨t', ht', h⟩
      obtain ⟨rfl, hok⟩ := requiredText_str.mp ht'
      rw [pure_eq_ok] at h
      exact ⟨h.symm, fun u hu => Option.some_inj.mp hu ▸ hok⟩
    · rintro ⟨rfl, h⟩
      exact ⟨t, requiredText_str.mpr ⟨rfl, h t rfl⟩, rfl⟩

/-! ## Owner heads -/

/-- Heads as `canonical_owner_heads` returns them. -/
structure CanonicalHeads (heads : List StateOwnerHead) : Prop where
  bounded : heads.length ≤ maxOwnerHeads
  nodup : (heads.map StateOwnerHead.owner).Nodup
  sorted : heads.Pairwise fun a b => a.owner ≤ b.owner

theorem canonicalHeads_of_eq_ok {values heads : List StateOwnerHead}
    (h : canonicalOwnerHeads values = .ok heads) : CanonicalHeads heads := by
  rw [canonicalOwnerHeads, bind_eq_ok] at h
  obtain ⟨_, hb, h⟩ := h
  rw [bind_eq_ok] at h
  obtain ⟨_, hn, h⟩ := h
  rw [raiseIf_eq_ok] at hb hn
  rw [pure_eq_ok] at h
  subst h
  have hp := List.perm_insertionSort (fun a b : StateOwnerHead => a.owner ≤ b.owner) values
  refine ⟨by rw [hp.length_eq]; omega, ?_, ?_⟩
  · rw [(hp.map _).nodup_iff]
    exact not_not.mp hn
  · have : Std.Total fun a b : StateOwnerHead => a.owner ≤ b.owner :=
      ⟨fun a b => le_total _ _⟩
    have : IsTrans StateOwnerHead fun a b => a.owner ≤ b.owner :=
      ⟨fun a b c => le_trans⟩
    exact List.pairwise_insertionSort _ _

/-- Canonical heads pass their check unchanged. -/
theorem CanonicalHeads.canonicalOwnerHeads {heads : List StateOwnerHead}
    (h : CanonicalHeads heads) : canonicalOwnerHeads heads = .ok heads := by
  rw [Publication.canonicalOwnerHeads, bind_eq_ok]
  refine ⟨(), raiseIf_eq_ok.mpr (by have := h.bounded; omega), ?_⟩
  rw [bind_eq_ok]
  refine ⟨(), raiseIf_eq_ok.mpr (not_not.mpr h.nodup), ?_⟩
  rw [List.Pairwise.insertionSort_eq h.sorted]
  rfl

/-- Every member of `ms` is what its key reads once the object is written. -/
def ReadsBack (ms : List (Text × Json)) (payload : List (Text × Json)) : Prop :=
  ∀ k v, (k, v) ∈ ms → Json.get payload k = sortKeys v

theorem readsBack_sorted {ms : List (Text × Json)} (hn : (ms.map Prod.fst).Nodup) :
    ReadsBack ms ((sortKeysMembers ms).insertionSort fun a b => a.1 ≤ b.1) :=
  fun _ _ h => Json.get_sorted hn h

theorem natAtLeast_ofNat {bound n : ℕ} (h : bound ≤ n) : natAtLeast bound (.int n) = some n := by
  rw [natAtLeast, if_pos (by exact_mod_cast h)]
  rfl

theorem schemaVersionOf_payload {v : Option ℕ} (h : ∀ n ∈ v, 1 ≤ n) :
    schemaVersionOf (sortKeys (optNat v)) = .ok ⟨v, h⟩ := by
  cases v with
  | none => rfl
  | some n =>
    have h1 : 1 ≤ n := h n rfl
    simp only [optNat, sortKeys, schemaVersionOf, natAtLeast_ofNat h1, dif_pos h1]

/-- A head is read back from its payload. -/
theorem parseOwnerHead_sortKeys (h : StateOwnerHead) (label : String) :
    parseOwnerHead label (sortKeys h.asPayload) = .ok h := by
  have hr : ReadsBack h.members
      ((sortKeysMembers h.members).insertionSort fun a b => a.1 ≤ b.1) :=
    readsBack_sorted
      (by simp only [StateOwnerHead.members, List.map_cons, List.map_nil]; decide)
  have e1 := hr (lit "owner") (.str h.owner) (by simp [StateOwnerHead.members])
  have e2 := hr (lit "revision") (.int h.revision) (by simp [StateOwnerHead.members])
  have e3 := hr (lit "digest_sha256") (.str h.digestSha256) (by simp [StateOwnerHead.members])
  have e4 := hr (lit "schema_version") (optNat h.schemaVersion) (by simp [StateOwnerHead.members])
  have hp : StateOwnerHead.postInit (sortKeys (.str h.owner)) (sortKeys (.int h.revision))
      (sortKeys (.str h.digestSha256)) (sortKeys (optNat h.schemaVersion)) = .ok h := by
    rw [StateOwnerHead.postInit, bind_eq_ok]
    refine ⟨h.owner, requiredText_str.mpr ⟨rfl, h.owner_ok⟩, ?_⟩
    rw [sortKeys, natAtLeast_ofNat (Nat.zero_le _), bind_eq_ok]
    refine ⟨h.revision, rfl, ?_⟩
    rw [bind_eq_ok]
    refine ⟨h.digestSha256, requiredSha256_of_isSha256 h.digest_ok _, ?_⟩
    rw [bind_eq_ok]
    refine ⟨⟨h.schemaVersion, h.schema_ok⟩, schemaVersionOf_payload h.schema_ok, ?_⟩
    rw [dif_pos ⟨h.owner_ok, h.digest_ok⟩]
    rfl
  rw [StateOwnerHead.asPayload, sortKeys, parseOwnerHead, e1, e2, e3, e4, hp]

/-- Canonical heads are read back from their payload. -/
theorem CanonicalHeads.parseOwnerHeads {heads : List StateOwnerHead} (h : CanonicalHeads heads)
    (label : String) : parseOwnerHeads (sortKeys (headList heads)) label = .ok heads := by
  rw [headList, sortKeys, sortKeysItems_eq_map, List.map_map, Publication.parseOwnerHeads,
    bind_eq_ok]
  refine ⟨(), raiseIf_eq_ok.mpr ?_, ?_⟩
  · rw [List.length_map]
    have := h.bounded
    omega
  · rw [bind_eq_ok]
    refine ⟨heads, ?_, ?_⟩
    · rw [List.mapM_map]
      have e := mapM_eq_ok (l := heads) (g := id)
        (f := parseOwnerHead label ∘ sortKeys ∘ StateOwnerHead.asPayload)
        fun a _ => parseOwnerHead_sortKeys a label
      rwa [List.map_id] at e
    · rw [h.canonicalOwnerHeads]
      rfl

/-! ## Records -/

/-- What a content manifest's name satisfies. -/
def IsManifestName (name : Text) : Prop :=
  '/' ∉ name ∧ stateContentPublicationManifestPrefix <+: name ∧ lit ".json" <:+ name

/-- What the validators guarantee of a record that a writer builds. -/
structure StatePublication.WellFormed (p : StatePublication) : Prop where
  eventId : IsRequiredText 256 p.eventId
  operation : IsRequiredText 512 p.operation
  idempotencyKey : IsRequiredText 256 p.idempotencyKey
  createdNs : 1 ≤ p.createdNs
  owners : ∀ o ∈ p.owners, IsRequiredText 128 o
  ownersNodup : p.owners.Nodup
  manifest : ∀ t ∈ p.manifestSha256, IsSha256 t
  detail : ∀ t ∈ p.detail, IsRequiredText 4096 t
  heads : CanonicalHeads p.ownerHeads
  contentManifest : ∀ t ∈ p.contentManifestSha256, IsSha256 t
  contentName : ∀ t ∈ p.contentManifestName, IsManifestName t

theorem contentManifestPath_eq_ok {name r : Text} :
    contentManifestPath name = .ok r ↔ r = name ∧ IsManifestName name := by
  rw [contentManifestPath, bind_eq_ok]
  constructor
  · rintro ⟨_, hc, h⟩
    rw [raiseIf_eq_ok, not_or, not_or, not_not, not_not] at hc
    rw [pure_eq_ok] at h
    exact ⟨h.symm, hc⟩
  · rintro ⟨rfl, h⟩
    refine ⟨(), ?_, rfl⟩
    rw [raiseIf_eq_ok, not_or, not_or, not_not, not_not]
    exact h

theorem contentNameOf_payload {o : Option Text} (h : ∀ t ∈ o, IsManifestName t)
    (message : String) : contentNameOf (sortKeys (optText o)) message = .ok o := by
  rw [contentNameOf, bind_eq_ok]
  refine ⟨o, ?_, ?_⟩
  · cases o <;> rfl
  · cases o with
    | none => rfl
    | some t =>
      rw [bind_eq_ok]
      exact ⟨t, contentManifestPath_eq_ok.mpr ⟨rfl, h t rfl⟩, rfl⟩

theorem optionalStr_payload (o : Option Text) (message : String) :
    optionalStr (sortKeys (optText o)) message = .ok o := by
  cases o <;> rfl

theorem optionalRequiredText_payload {o : Option Text} {maximum : ℕ}
    (h : ∀ t ∈ o, IsRequiredText maximum t) (label : String) :
    optionalRequiredText (sortKeys (optText o)) label maximum = .ok o := by
  cases o with
  | none => rfl
  | some t =>
    have e : sortKeys (optText (some t)) = .str t := rfl
    rw [e, optionalRequiredText, bind_eq_ok]
    · exact ⟨t, requiredText_str.mpr ⟨rfl, h t rfl⟩, rfl⟩
    · intro h
      cases h

theorem strItems_payload (ts : List Text) (message : String) :
    strItems (sortKeys (textList ts)) message = .ok ts := by
  have e : ∀ ts : List Text, (ts.map (sortKeys ∘ Json.str)).mapM Json.asStr? = some ts := by
    intro ts
    induction ts with
    | nil => rfl
    | cons t ts ih => rw [List.map_cons, List.mapM_cons, ih]; rfl
  rw [textList, sortKeys, sortKeysItems_eq_map, List.map_map, strItems, e]
  rfl

theorem statusOf_text (s : PublicationStatus) : statusOf (sortKeys (.str s.text)) = .ok s := by
  cases s <;> rfl

theorem natOr_ofNat {bound n : ℕ} (h : bound ≤ n) (message : String) :
    natOr bound (sortKeys (.int n)) message = .ok n := by
  rw [sortKeys, natOr, natAtLeast_ofNat h]
  rfl

/-- The members of an object as `sort_keys` writes them. -/
def sortedMembers (ms : List (Text × Json)) : List (Text × Json) :=
  (sortKeysMembers ms).insertionSort fun a b => a.1 ≤ b.1

theorem asStr_of_readsBack {ms payload : List (Text × Json)} (hr : ReadsBack ms payload)
    {k t : Text} (h : (k, Json.str t) ∈ ms) : (Json.get payload k).asStr? = some t := by
  rw [hr k _ h]
  rfl

/-- **The journal line.**  A well-formed record is read back from its payload. -/
theorem parsePublication_sorted {p : StatePublication} (hp : p.WellFormed) :
    parsePublication (sortedMembers p.members) = .ok p := by
  have hr : ReadsBack p.members (sortedMembers p.members) :=
    readsBack_sorted
      (by simp only [StatePublication.members, List.map_cons, List.map_nil]; decide)
  have get : ∀ k v, (k, v) ∈ p.members → Json.get (sortedMembers p.members) k = sortKeys v := hr
  unfold parsePublication
  rw [bind_eq_ok]
  refine ⟨(), ?_, ?_⟩
  · rw [raiseIf_eq_ok, not_not]
    exact asStr_of_readsBack hr (by simp [StatePublication.members])
  rw [get (lit "event_id") (.str p.eventId) (by simp [StatePublication.members]),
    get (lit "operation") (.str p.operation) (by simp [StatePublication.members]),
    get (lit "idempotency_key") (.str p.idempotencyKey) (by simp [StatePublication.members]),
    get (lit "epoch") (.int p.epoch) (by simp [StatePublication.members]),
    get (lit "created_ns") (.int p.createdNs) (by simp [StatePublication.members]),
    get (lit "owners") (textList p.owners) (by simp [StatePublication.members]),
    get (lit "status") (.str p.status.text) (by simp [StatePublication.members]),
    get (lit "manifest_sha256") (optText p.manifestSha256) (by simp [StatePublication.members]),
    get (lit "detail") (optText p.detail) (by simp [StatePublication.members]),
    get (lit "content_manifest_sha256") (optText p.contentManifestSha256)
      (by simp [StatePublication.members]),
    get (lit "content_manifest_name") (optText p.contentManifestName)
      (by simp [StatePublication.members]),
    get (lit "owner_heads") (headList p.ownerHeads) (by simp [StatePublication.members])]
  simp only [bind_eq_ok]
  exact ⟨p.eventId, requiredText_str.mpr ⟨rfl, hp.eventId⟩,
    p.operation, requiredText_str.mpr ⟨rfl, hp.operation⟩,
    p.idempotencyKey, requiredText_str.mpr ⟨rfl, hp.idempotencyKey⟩,
    p.epoch, natOr_ofNat (Nat.zero_le _) _,
    p.createdNs, natOr_ofNat hp.createdNs _,
    p.owners, strItems_payload _ _,
    p.status, statusOf_text _,
    p.manifestSha256, optionalStr_payload _ _,
    p.detail, optionalRequiredText_payload hp.detail _,
    p.contentManifestSha256, optionalStr_payload _ _,
    p.contentManifestName, contentNameOf_payload hp.contentName _,
    p.owners, owners_eq_ok.mpr ⟨rfl, hp.owners, hp.ownersNodup⟩,
    p.manifestSha256, optionalSha256_of_isSha256 hp.manifest,
    p.ownerHeads, hp.heads.parseOwnerHeads _,
    p.contentManifestSha256, optionalSha256_of_isSha256 hp.contentManifest, rfl⟩

/-- **The epoch pointer.**  It is read back as the epoch of the record that wrote it. -/
theorem parseEpoch_sorted {p : StatePublication} (hp : p.WellFormed) (source : EpochSource) :
    parseEpoch (sortedMembers p.pointerMembers) source = .ok (p.toEpoch source) := by
  have hr : ReadsBack p.pointerMembers (sortedMembers p.pointerMembers) :=
    readsBack_sorted
      (by simp only [StatePublication.pointerMembers, List.map_cons, List.map_nil]; decide)
  have get : ∀ k v, (k, v) ∈ p.pointerMembers →
      Json.get (sortedMembers p.pointerMembers) k = sortKeys v := hr
  have event : ∀ t ∈ some p.eventId, IsRequiredText 256 t :=
    fun t ht => Option.some_inj.mp ht ▸ hp.eventId
  have operation : ∀ t ∈ some p.operation, IsRequiredText 512 t :=
    fun t ht => Option.some_inj.mp ht ▸ hp.operation
  unfold parseEpoch
  rw [bind_eq_ok]
  refine ⟨(), ?_, ?_⟩
  · rw [raiseIf_eq_ok, not_not]
    exact asStr_of_readsBack hr (by simp [StatePublication.pointerMembers])
  rw [get (lit "epoch") (.int p.epoch) (by simp [StatePublication.pointerMembers]),
    get (lit "event_id") (optText (some p.eventId))
      (by simp [StatePublication.pointerMembers, optText]),
    get (lit "operation") (optText (some p.operation))
      (by simp [StatePublication.pointerMembers, optText]),
    get (lit "owners") (textList p.owners) (by simp [StatePublication.pointerMembers]),
    get (lit "manifest_sha256") (optText p.manifestSha256)
      (by simp [StatePublication.pointerMembers]),
    get (lit "content_manifest_sha256") (optText p.contentManifestSha256)
      (by simp [StatePublication.pointerMembers]),
    get (lit "content_manifest_name") (optText p.contentManifestName)
      (by simp [StatePublication.pointerMembers]),
    get (lit "owner_heads") (headList p.ownerHeads) (by simp [StatePublication.pointerMembers])]
  simp only [bind_eq_ok]
  exact ⟨p.epoch, natOr_ofNat (Nat.zero_le _) _,
    some p.eventId, optionalRequiredText_payload event _,
    some p.operation, optionalRequiredText_payload operation _,
    p.owners, strItems_payload _ _,
    p.owners, owners_eq_ok.mpr ⟨rfl, hp.owners, hp.ownersNodup⟩,
    p.manifestSha256, optionalStr_payload _ _,
    p.contentManifestSha256, optionalStr_payload _ _,
    p.contentManifestName, contentNameOf_payload hp.contentName _,
    p.manifestSha256, optionalSha256_of_isSha256 hp.manifest,
    p.ownerHeads, hp.heads.parseOwnerHeads _,
    p.contentManifestSha256, optionalSha256_of_isSha256 hp.contentManifest, rfl⟩

/-- **The content manifest.**  It passes every check against the record that wrote it. -/
theorem checkContentManifest_sorted {p : StatePublication} (hp : CanonicalHeads p.ownerHeads) :
    checkContentManifest (sortedMembers p.manifestMembers) p = .ok () := by
  have hr : ReadsBack p.manifestMembers (sortedMembers p.manifestMembers) :=
    readsBack_sorted
      (by simp only [StatePublication.manifestMembers, List.map_cons, List.map_nil]; decide)
  have get : ∀ k v, (k, v) ∈ p.manifestMembers →
      Json.get (sortedMembers p.manifestMembers) k = sortKeys v := hr
  unfold checkContentManifest
  rw [get (lit "schema") (.str stateContentPublicationManifestSchema)
      (by simp [StatePublication.manifestMembers]),
    get (lit "status") (.str (lit "complete")) (by simp [StatePublication.manifestMembers]),
    get (lit "event_id") (.str p.eventId) (by simp [StatePublication.manifestMembers]),
    get (lit "epoch") (.int p.epoch) (by simp [StatePublication.manifestMembers]),
    get (lit "operation") (.str p.operation) (by simp [StatePublication.manifestMembers]),
    get (lit "owners") (textList p.owners) (by simp [StatePublication.manifestMembers]),
    get (lit "idempotency_key") (.str p.idempotencyKey)
      (by simp [StatePublication.manifestMembers]),
    get (lit "source_manifest_sha256") (optText p.manifestSha256)
      (by simp [StatePublication.manifestMembers]),
    get (lit "owner_heads") (headList p.ownerHeads) (by simp [StatePublication.manifestMembers]),
    strItems_payload, optionalStr_payload]
  simp only [bind_eq_ok, raiseIf_eq_ok]
  refine ⟨(), ?_, (), ?_, (), ?_, (), ?_, (), ?_, (), ?_, p.ownerHeads, hp.parseOwnerHeads _, ?_⟩
  · simp [sortKeys, Json.asStr?]
  · simp [sortKeys, Json.asStr?]
  · simp [sortKeys, Json.asStr?, equalsNat]
  · simp [sortKeys, Json.asStr?]
  · simp [sortKeys, Json.asStr?]
  · simp
  · simp

end Publication
end Neocortex
