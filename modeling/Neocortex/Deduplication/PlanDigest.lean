import Mathlib
import Neocortex.Python.JsonRoundTrip
import Neocortex.Inventory.Records
import Neocortex.Deduplication.Keepers

/-!
# The identity of a duplicate plan

`deduplication.inventory.generation`: the bytes that `duplicate_plan_digest` feeds to SHA-256. The
groups come in the order of seven columns, each behind a `G` with its members behind `M`s, and a proof
is written again without its `fingerprint_source`.

* `planFeed_eq_iff`: equal bytes are equal groups in equal order.
* `planFeed_canonical_iff`: the bytes identify the plan just when groups that agree in the seven
  columns agree in their members.

A group carries its members here, which the tables join by `group_id`.
-/

namespace Neocortex
namespace Deduplication

open Python Inventory

/-! ## Rows -/

/-- A value of a SQLite row. -/
inductive SqlValue where
  | null
  | int (n : ℤ)
  | text (t : Text)
  | blob (b : Bytes)
  deriving DecidableEq

/-- A row of `planned_duplicate_members`. -/
structure MemberRow where
  memberOrder : ℕ
  role : Text
  path : Text
  volumeId : Bytes
  fileId : Bytes
  size : ℕ
  mtimeNs : ℤ
  birthtimeNs : ℤ
  proofJson : Text
  deriving DecidableEq

/-- A row of `planned_duplicate_groups` with its members. -/
structure GroupRow where
  groupId : ℕ
  size : ℕ
  keepPath : Text
  redundantCount : ℕ
  reclaimableBytes : ℕ
  fullFingerprint : Text
  verificationMode : Text
  proofJson : Text
  members : List MemberRow
  deriving DecidableEq

def MemberRow.values (m : MemberRow) : List SqlValue :=
  [.int m.memberOrder, .text m.role, .text m.path, .blob m.volumeId, .blob m.fileId, .int m.size,
    .int m.mtimeNs, .int m.birthtimeNs, .text m.proofJson]

def GroupRow.values (g : GroupRow) : List SqlValue :=
  [.int g.size, .text g.keepPath, .int g.redundantCount, .int g.reclaimableBytes,
    .text g.fullFingerprint, .text g.verificationMode, .text g.proofJson]

/-! ## Bytes -/

/-- Tag, length and bytes of a value that is not null. -/
def framed (tag : UInt8) (encoded : Bytes) : Bytes := tag :: (toBytes8 encoded.length ++ encoded)

/-- `_update_value`. -/
def updateValue : SqlValue → Bytes
  | .null => [78, 0]
  | .blob b => framed 66 b
  | .text t => framed 84 (encodeUtf8 t)
  | .int n => framed 84 (encodeUtf8 (renderInt n))

def fingerprintSource : Text := "fingerprint_source".toList

/-- `decoded.pop("fingerprint_source", None)`. -/
def without (members : List (Text × Json)) : List (Text × Json) :=
  members.filter fun m => m.1 ≠ fingerprintSource

/-- `_stable_proof_json` of a text. -/
def stableText (t : Text) : Text :=
  if (skipWs t).head? = some '{' then
    match loads t with
    | some (.obj members) => (dumpsUnicode (.obj (without members))).getD t
    | _ => t
  else t

/-- `_stable_proof_json`. -/
def stableProofJson : SqlValue → SqlValue
  | .text t => .text (stableText t)
  | v => v

def MemberRow.feed (m : MemberRow) : Bytes :=
  77 :: m.values.flatMap fun v => updateValue (stableProofJson v)

/-- The members of a group in their order. -/
def GroupRow.orderedMembers (g : GroupRow) : List MemberRow :=
  orderBy (fun m => [[m.memberOrder]]) g.members

def GroupRow.feed (g : GroupRow) : Bytes :=
  71 :: ((g.values.flatMap fun v => updateValue (stableProofJson v)) ++
    g.orderedMembers.flatMap MemberRow.feed)

/-- The seven columns that the groups are ordered by. -/
def GroupRow.key (g : GroupRow) : SortKey :=
  [[g.size], textKey g.keepPath, [g.redundantCount], [g.reclaimableBytes],
    textKey g.fullFingerprint, textKey g.verificationMode, textKey g.proofJson]

/-- The groups in the order of the query; those that tie keep the order of the table. -/
def orderedGroups (groups : List GroupRow) : List GroupRow := orderBy GroupRow.key groups

def planDomain : Bytes := encodeUtf8 "NEOCORTEX_DUPLICATE_PLAN_V1".toList ++ [0]

/-- What `duplicate_plan_digest` feeds to SHA-256. -/
def planFeed (groups : List GroupRow) : Bytes :=
  planDomain ++ (orderedGroups groups).flatMap GroupRow.feed

/-! ## What a plan says -/

/-- A text that is not taken for a proof: a path is absolute, a role and a mode are words. -/
def Plain (t : Text) : Prop := (skipWs t).head? ≠ some '{'

/-- A proof as `encode_proof` writes it. -/
def Encoded (t : Text) (members : List (Text × Json)) : Prop :=
  writable (.obj members) = true ∧ dumps (.obj members) = some t

/-- SQLite holds no longer values. -/
def Fits (b : Bytes) : Prop := b.length < 2 ^ 31

def SqlValue.Fits : SqlValue → Prop
  | .null => True
  | .int n => Deduplication.Fits (encodeUtf8 (renderInt n))
  | .text t => Deduplication.Fits (encodeUtf8 t)
  | .blob b => Deduplication.Fits b

/-- A persisted member. -/
structure MemberRow.Persisted (m : MemberRow) : Prop where
  role : Plain m.role
  path : Plain m.path
  proof : ∃ members, Encoded m.proofJson members
  fits : ∀ v ∈ m.values, (stableProofJson v).Fits

/-- A persisted group; its own proof has no `fingerprint_source`. -/
structure GroupRow.Persisted (g : GroupRow) : Prop where
  keepPath : Plain g.keepPath
  fullFingerprint : Plain g.fullFingerprint
  verificationMode : Plain g.verificationMode
  proof : ∃ members, Encoded g.proofJson members ∧ ∀ m ∈ members, m.1 ≠ fingerprintSource
  fits : ∀ v ∈ g.values, (stableProofJson v).Fits
  members : ∀ m ∈ g.members, m.Persisted

/-- A proof up to its `fingerprint_source`. -/
def proofContent (t : Text) : Option Json :=
  match loads t with
  | some (.obj members) => some (sortKeys (.obj (without members)))
  | _ => none

/-- What a member says. -/
structure MemberContent where
  memberOrder : ℕ
  role : Text
  path : Text
  volumeId : Bytes
  fileId : Bytes
  size : ℕ
  mtimeNs : ℤ
  birthtimeNs : ℤ
  proof : Option Json

/-- What a group says, whatever its `group_id`. -/
structure GroupContent where
  size : ℕ
  keepPath : Text
  redundantCount : ℕ
  reclaimableBytes : ℕ
  fullFingerprint : Text
  verificationMode : Text
  proofJson : Text
  members : List MemberContent

def MemberRow.content (m : MemberRow) : MemberContent :=
  ⟨m.memberOrder, m.role, m.path, m.volumeId, m.fileId, m.size, m.mtimeNs, m.birthtimeNs,
    proofContent m.proofJson⟩

def GroupRow.content (g : GroupRow) : GroupContent :=
  ⟨g.size, g.keepPath, g.redundantCount, g.reclaimableBytes, g.fullFingerprint,
    g.verificationMode, g.proofJson, g.orderedMembers.map MemberRow.content⟩

/-- The same groups with the same members, whatever their order in the table. -/
def SamePlan (groups groups' : List GroupRow) : Prop :=
  (groups.map GroupRow.content).Perm (groups'.map GroupRow.content)

/-! ## Proofs -/

mutual
theorem sortKeys_sortKeys : ∀ v : Json, sortKeys (sortKeys v) = sortKeys v
  | .null => rfl
  | .bool _ => rfl
  | .int _ => rfl
  | .float _ => rfl
  | .str _ => rfl
  | .arr items => by rw [sortKeys, sortKeys, sortKeysItems_sortKeysItems]
  | .obj members => by
    rw [sortKeys, sortKeys, sortKeysMembers_eq_map,
      List.map_insertionSort (fun a b : Text × Json => a.1 ≤ b.1) (fun a b => a.1 ≤ b.1) _ _
        fun _ _ _ _ => Iff.rfl,
      ← sortKeysMembers_eq_map, sortKeysMembers_sortKeysMembers]
    have : Std.Total fun a b : Text × Json => a.1 ≤ b.1 := ⟨fun a b => le_total _ _⟩
    have : IsTrans (Text × Json) fun a b => a.1 ≤ b.1 := ⟨fun a b c => le_trans⟩
    rw [(List.pairwise_insertionSort _ _).insertionSort_eq]

theorem sortKeysItems_sortKeysItems : ∀ vs : List Json,
    sortKeysItems (sortKeysItems vs) = sortKeysItems vs
  | [] => rfl
  | v :: vs => by
    rw [sortKeysItems, sortKeysItems, sortKeys_sortKeys, sortKeysItems_sortKeysItems]

theorem sortKeysMembers_sortKeysMembers : ∀ ms : List (Text × Json),
    sortKeysMembers (sortKeysMembers ms) = sortKeysMembers ms
  | [] => rfl
  | (k, v) :: ms => by
    rw [sortKeysMembers, sortKeysMembers, sortKeys_sortKeys, sortKeysMembers_sortKeysMembers]
end

mutual
theorem intsFit_of_writable : ∀ v : Json, writable v = true → intsFit v = true
  | .null, _ => rfl
  | .bool _, _ => rfl
  | .int _, h => h
  | .float _, _ => rfl
  | .str _, _ => rfl
  | .arr items, h => by
    rw [writable] at h
    rw [intsFit]
    exact intsFitItems_of_writable items h
  | .obj members, h => by
    rw [writable] at h
    rw [intsFit]
    exact intsFitMembers_of_writable members h

theorem intsFitItems_of_writable : ∀ vs : List Json, writableItems vs = true →
    intsFitItems vs = true
  | [], _ => rfl
  | v :: vs, h => by
    rw [writableItems, Bool.and_eq_true] at h
    rw [intsFitItems, intsFit_of_writable v h.1, intsFitItems_of_writable vs h.2]
    rfl

theorem intsFitMembers_of_writable : ∀ ms : List (Text × Json), writableMembers ms = true →
    intsFitMembers ms = true
  | [], _ => rfl
  | (k, v) :: ms, h => by
    rw [writableMembers, Bool.and_eq_true] at h
    rw [intsFitMembers, intsFit_of_writable v h.1, intsFitMembers_of_writable ms h.2]
    rfl
end

theorem stableText_of_plain {t : Text} (h : Plain t) : stableText t = t := if_neg h

theorem writable_without {ms : List (Text × Json)} (h : writable (.obj ms) = true) :
    writable (.obj (without ms)) = true := by
  rw [writable, writableMembers_eq_all, List.all_eq_true] at h ⊢
  exact fun m hm => h m (List.mem_of_mem_filter hm)

/-- The members of an object as they are written. -/
def sortedMembers (ms : List (Text × Json)) : List (Text × Json) :=
  (sortKeysMembers ms).insertionSort fun a b => a.1 ≤ b.1

theorem sortKeys_obj (ms : List (Text × Json)) : sortKeys (.obj ms) = .obj (sortedMembers ms) := by
  rw [sortKeys, sortedMembers]

section Encoded

variable {t t' : Text} {ms ms' : List (Text × Json)}

theorem Encoded.loads_eq (h : Encoded t ms) : loads t = some (.obj (sortedMembers ms)) := by
  rw [loads_dumps h.1 h.2, sortKeys_obj]

theorem Encoded.writable_sorted (h : Encoded t ms) : writable (.obj (sortedMembers ms)) = true := by
  rw [← sortKeys_obj, writable_sortKeys]
  exact h.1

theorem Encoded.text_eq (h : Encoded t ms) : t = render (.obj (sortedMembers ms)) := by
  have hdumps := h.2
  unfold dumps at hdumps
  rw [if_pos (intsFit_of_writable _ h.1), sortKeys_obj] at hdumps
  exact (Option.some.inj hdumps).symm

theorem Encoded.head (h : Encoded t ms) : (skipWs t).head? = some '{' := by
  have hbrace : ∃ rest, t = '{' :: rest := by
    rw [h.text_eq]
    cases sortedMembers ms with
    | nil => exact ⟨_, rfl⟩
    | cons m rest => exact ⟨_, rfl⟩
  obtain ⟨rest, rfl⟩ := hbrace
  rfl

theorem Encoded.stableText_eq (h : Encoded t ms) :
    dumpsUnicode (.obj (without (sortedMembers ms))) = some (stableText t) := by
  have hfit := intsFit_of_writable _ (writable_without h.writable_sorted)
  unfold stableText
  rw [if_pos h.head, h.loads_eq]
  simp only [dumpsUnicode, if_pos hfit, Option.getD_some]

theorem Encoded.proofContent_eq (h : Encoded t ms) :
    proofContent t = loads (stableText t) := by
  rw [loads_dumpsUnicode (writable_without h.writable_sorted) h.stableText_eq]
  unfold proofContent
  rw [h.loads_eq]

/-- A proof is written by what it says. -/
theorem Encoded.stableText_eq_iff (h : Encoded t ms) (h' : Encoded t' ms') :
    stableText t = stableText t' ↔ proofContent t = proofContent t' := by
  constructor
  · intro heq
    rw [h.proofContent_eq, h'.proofContent_eq, heq]
  · intro heq
    have hsame : sortKeys (.obj (without (sortedMembers ms))) =
        sortKeys (.obj (without (sortedMembers ms'))) := by
      rw [h.proofContent_eq, h'.proofContent_eq,
        loads_dumpsUnicode (writable_without h.writable_sorted) h.stableText_eq,
        loads_dumpsUnicode (writable_without h'.writable_sorted) h'.stableText_eq] at heq
      exact Option.some.inj heq
    have hfit := intsFit_of_writable _ (writable_without h.writable_sorted)
    have hfit' := intsFit_of_writable _ (writable_without h'.writable_sorted)
    have hs := h.stableText_eq
    have hs' := h'.stableText_eq
    unfold dumpsUnicode at hs hs'
    rw [if_pos hfit, hsame] at hs
    rw [if_pos hfit'] at hs'
    exact Option.some.inj (hs.symm.trans hs')

theorem without_sortedMembers (h : ∀ m ∈ ms, m.1 ≠ fingerprintSource) :
    without (sortedMembers ms) = sortedMembers ms := by
  refine List.filter_eq_self.mpr fun m hm => ?_
  rw [sortedMembers, (perm_sorted_members ms).mem_iff, List.mem_map] at hm
  obtain ⟨n, hn, rfl⟩ := hm
  exact decide_eq_true (h n hn)

/-- The proof of a group keeps its text apart. -/
theorem Encoded.eq_of_stableText (h : Encoded t ms) (h' : Encoded t' ms')
    (hms : ∀ m ∈ ms, m.1 ≠ fingerprintSource) (hms' : ∀ m ∈ ms', m.1 ≠ fingerprintSource)
    (heq : stableText t = stableText t') : t = t' := by
  have hloads : loads (stableText t) = loads (stableText t') := by rw [heq]
  rw [loads_dumpsUnicode (writable_without h.writable_sorted) h.stableText_eq,
    loads_dumpsUnicode (writable_without h'.writable_sorted) h'.stableText_eq,
    without_sortedMembers hms, without_sortedMembers hms', ← sortKeys_obj, ← sortKeys_obj,
    sortKeys_sortKeys, sortKeys_sortKeys, sortKeys_obj, sortKeys_obj] at hloads
  rw [h.text_eq, h'.text_eq, Option.some.inj hloads]

end Encoded

/-! ## Frames -/

/-- The tag and the bytes that a value is framed with. -/
def SqlValue.frame : SqlValue → Option (UInt8 × Bytes)
  | .null => none
  | .blob b => some (66, b)
  | .text t => some (84, encodeUtf8 t)
  | .int n => some (84, encodeUtf8 (renderInt n))

theorem toBytes8_injective {n m : ℕ} (hn : n < 2 ^ 64) (hm : m < 2 ^ 64)
    (h : toBytes8 n = toBytes8 m) : n = m := by
  simp [toBytes8, List.range_succ, ← UInt8.toNat_inj] at h
  omega

theorem length_toBytes8 (n : ℕ) : (toBytes8 n).length = 8 := by
  simp [toBytes8]

theorem framed_append_inj {tag tag' : UInt8} {b b' r r' : Bytes} (hb : Fits b) (hb' : Fits b')
    (h : framed tag b ++ r = framed tag' b' ++ r') : tag = tag' ∧ b = b' ∧ r = r' := by
  unfold framed at h
  rw [List.cons_append, List.cons_append, List.cons.injEq, List.append_assoc,
    List.append_assoc] at h
  obtain ⟨htag, h⟩ := h
  obtain ⟨hlength, h⟩ := List.append_inj h (by rw [length_toBytes8, length_toBytes8])
  unfold Fits at hb hb'
  have hsame := toBytes8_injective (by omega) (by omega) hlength
  obtain ⟨hbytes, hrest⟩ := List.append_inj h hsame
  exact ⟨htag, hbytes, hrest⟩

/-- One value, whatever follows it. -/
theorem updateValue_append_inj {v v' : SqlValue} {r r' : Bytes} (hv : v.Fits) (hv' : v'.Fits)
    (h : updateValue v ++ r = updateValue v' ++ r') : v.frame = v'.frame ∧ r = r' := by
  cases v with
  | null =>
    cases v' with
    | null =>
      rw [List.append_cancel_left_eq] at h
      exact ⟨rfl, h⟩
    | _ => simp [updateValue, framed] at h
  | blob b =>
    cases v' with
    | null => simp [updateValue, framed] at h
    | blob b' =>
      obtain ⟨-, rfl, rfl⟩ := framed_append_inj hv hv' h
      exact ⟨rfl, rfl⟩
    | text t => exact absurd (framed_append_inj hv hv' h).1 (by decide)
    | int n => exact absurd (framed_append_inj hv hv' h).1 (by decide)
  | text t =>
    cases v' with
    | null => simp [updateValue, framed] at h
    | blob b => exact absurd (framed_append_inj hv hv' h).1 (by decide)
    | text t' =>
      obtain ⟨-, hbytes, hrest⟩ := framed_append_inj hv hv' h
      exact ⟨by rw [SqlValue.frame, SqlValue.frame, hbytes], hrest⟩
    | int n =>
      obtain ⟨-, hbytes, hrest⟩ := framed_append_inj hv hv' h
      exact ⟨by rw [SqlValue.frame, SqlValue.frame, hbytes], hrest⟩
  | int n =>
    cases v' with
    | null => simp [updateValue, framed] at h
    | blob b => exact absurd (framed_append_inj hv hv' h).1 (by decide)
    | text t' =>
      obtain ⟨-, hbytes, hrest⟩ := framed_append_inj hv hv' h
      exact ⟨by rw [SqlValue.frame, SqlValue.frame, hbytes], hrest⟩
    | int n =>
      obtain ⟨-, hbytes, hrest⟩ := framed_append_inj hv hv' h
      exact ⟨by rw [SqlValue.frame, SqlValue.frame, hbytes], hrest⟩

/-- The frames of a row. -/
def frames (values : List SqlValue) : List (Option (UInt8 × Bytes)) :=
  values.map fun v => (stableProofJson v).frame

theorem values_append_inj : ∀ {vs vs' : List SqlValue} {r r' : Bytes},
    vs.length = vs'.length → (∀ v ∈ vs, (stableProofJson v).Fits) →
    (∀ v ∈ vs', (stableProofJson v).Fits) →
    (vs.flatMap fun v => updateValue (stableProofJson v)) ++ r =
      (vs'.flatMap fun v => updateValue (stableProofJson v)) ++ r' →
    frames vs = frames vs' ∧ r = r'
  | [], [], _, _, _, _, _, h => ⟨rfl, h⟩
  | v :: vs, v' :: vs', r, r', hlength, hv, hv', h => by
    rw [List.flatMap_cons, List.flatMap_cons, List.append_assoc, List.append_assoc] at h
    obtain ⟨hframe, hrest⟩ := updateValue_append_inj (hv v List.mem_cons_self)
      (hv' v' List.mem_cons_self) h
    obtain ⟨hframes, hr⟩ := values_append_inj (Nat.succ.inj hlength)
      (fun w hw => hv w (List.mem_cons_of_mem _ hw))
      (fun w hw => hv' w (List.mem_cons_of_mem _ hw)) hrest
    exact ⟨by rw [frames, frames, List.map_cons, List.map_cons, hframe, ← frames, hframes, frames],
      hr⟩

/-! ## Rows and what they say -/

theorem decimal_injective : Function.Injective decimal := by
  intro n m h
  rw [← decimalVal_decimal n, h, decimalVal_decimal]

theorem renderInt_injective : Function.Injective renderInt := by
  have hsign : ∀ n m : ℕ, decimal n ≠ '-' :: decimal (m + 1) := by
    intro n m h
    have hdash : '-' ∈ decimal n := by
      rw [h]
      exact List.mem_cons_self
    exact absurd (isDigit_of_mem_decimal hdash) (by decide)
  intro a b h
  cases a with
  | ofNat n =>
    cases b with
    | ofNat m => rw [decimal_injective h]
    | negSucc m => exact absurd h (hsign n m)
  | negSucc n =>
    cases b with
    | ofNat m => exact absurd h.symm (hsign m n)
    | negSucc m =>
      have hnm := decimal_injective (List.cons.inj h).2
      rw [Nat.succ.inj hnm]

theorem frame_text {t t' : Text} : (SqlValue.text t).frame = (SqlValue.text t').frame ↔ t = t' := by
  simp only [SqlValue.frame, Option.some.injEq, Prod.mk.injEq, true_and]
  exact encodeUtf8_injective.eq_iff

theorem frame_int {n m : ℤ} : (SqlValue.int n).frame = (SqlValue.int m).frame ↔ n = m := by
  simp only [SqlValue.frame, Option.some.injEq, Prod.mk.injEq, true_and]
  rw [encodeUtf8_injective.eq_iff, renderInt_injective.eq_iff]

theorem frame_blob {b b' : Bytes} : (SqlValue.blob b).frame = (SqlValue.blob b').frame ↔ b = b' := by
  simp [SqlValue.frame]

theorem MemberRow.frames_eq_iff {m m' : MemberRow} (h : m.Persisted) (h' : m'.Persisted) :
    frames m.values = frames m'.values ↔ m.content = m'.content := by
  obtain ⟨ms, hms⟩ := h.proof
  obtain ⟨ms', hms'⟩ := h'.proof
  simp only [frames, MemberRow.values, List.map_cons, List.map_nil, List.cons.injEq, and_true,
    stableProofJson, frame_text, frame_int, frame_blob, stableText_of_plain h.role,
    stableText_of_plain h.path, stableText_of_plain h'.role, stableText_of_plain h'.path,
    hms.stableText_eq_iff hms', MemberRow.content, MemberContent.mk.injEq, Nat.cast_inj]

theorem GroupRow.frames_eq_iff {g g' : GroupRow} (h : g.Persisted) (h' : g'.Persisted) :
    frames g.values = frames g'.values ↔ g.size = g'.size ∧ g.keepPath = g'.keepPath ∧
      g.redundantCount = g'.redundantCount ∧ g.reclaimableBytes = g'.reclaimableBytes ∧
      g.fullFingerprint = g'.fullFingerprint ∧ g.verificationMode = g'.verificationMode ∧
      g.proofJson = g'.proofJson := by
  obtain ⟨ms, hms, hno⟩ := h.proof
  obtain ⟨ms', hms', hno'⟩ := h'.proof
  have hproof : stableText g.proofJson = stableText g'.proofJson ↔ g.proofJson = g'.proofJson :=
    ⟨hms.eq_of_stableText hms' hno hno', fun heq => by rw [heq]⟩
  simp only [frames, GroupRow.values, List.map_cons, List.map_nil, List.cons.injEq, and_true,
    stableProofJson, frame_text, frame_int, stableText_of_plain h.keepPath,
    stableText_of_plain h.fullFingerprint, stableText_of_plain h.verificationMode,
    stableText_of_plain h'.keepPath, stableText_of_plain h'.fullFingerprint,
    stableText_of_plain h'.verificationMode, hproof, Nat.cast_inj]

/-- Bytes behind the members of a group: nothing, or the next group. -/
def AtGroup (r : Bytes) : Prop := r = [] ∨ ∃ rest, r = 71 :: rest

theorem members_append_inj : ∀ {ms ms' : List MemberRow} {r r' : Bytes},
    (∀ m ∈ ms, m.Persisted) → (∀ m ∈ ms', m.Persisted) → AtGroup r → AtGroup r' →
    ms.flatMap MemberRow.feed ++ r = ms'.flatMap MemberRow.feed ++ r' →
    ms.map MemberRow.content = ms'.map MemberRow.content ∧ r = r'
  | [], [], _, _, _, _, _, _, h => ⟨rfl, h⟩
  | [], m :: ms', r, r', _, _, hr, _, h => by
    rcases hr with rfl | ⟨rest, rfl⟩
    · simp [MemberRow.feed] at h
    · simp [MemberRow.feed] at h
  | m :: ms, [], r, r', _, _, _, hr', h => by
    rcases hr' with rfl | ⟨rest, rfl⟩
    · simp [MemberRow.feed] at h
    · simp [MemberRow.feed] at h
  | m :: ms, m' :: ms', r, r', hp, hp', hr, hr', h => by
    rw [List.flatMap_cons, List.flatMap_cons, List.append_assoc, List.append_assoc,
      MemberRow.feed, MemberRow.feed, List.cons_append, List.cons_append, List.cons.injEq] at h
    have hm := hp m List.mem_cons_self
    have hm' := hp' m' List.mem_cons_self
    have hlength : m.values.length = m'.values.length := rfl
    obtain ⟨hframes, hrest⟩ := values_append_inj hlength hm.fits hm'.fits h.2
    obtain ⟨hcontents, heq⟩ := members_append_inj
      (fun n hn => hp n (List.mem_cons_of_mem _ hn))
      (fun n hn => hp' n (List.mem_cons_of_mem _ hn)) hr hr' hrest
    rw [List.map_cons, List.map_cons, hcontents, (MemberRow.frames_eq_iff hm hm').mp hframes]
    exact ⟨rfl, heq⟩

theorem mem_orderedMembers {g : GroupRow} {m : MemberRow} :
    m ∈ g.orderedMembers ↔ m ∈ g.members := (perm_orderBy _ _).mem_iff

theorem atGroup_flatMap (gs : List GroupRow) : AtGroup (gs.flatMap GroupRow.feed) := by
  cases gs with
  | nil => exact Or.inl rfl
  | cons g gs => exact Or.inr ⟨_, rfl⟩

theorem content_eq_iff {g g' : GroupRow} : g.content = g'.content ↔
    (g.size = g'.size ∧ g.keepPath = g'.keepPath ∧ g.redundantCount = g'.redundantCount ∧
      g.reclaimableBytes = g'.reclaimableBytes ∧ g.fullFingerprint = g'.fullFingerprint ∧
      g.verificationMode = g'.verificationMode ∧ g.proofJson = g'.proofJson) ∧
    g.orderedMembers.map MemberRow.content = g'.orderedMembers.map MemberRow.content := by
  simp only [GroupRow.content, GroupContent.mk.injEq]
  tauto

theorem groups_inj : ∀ {gs gs' : List GroupRow}, (∀ g ∈ gs, g.Persisted) →
    (∀ g ∈ gs', g.Persisted) → gs.flatMap GroupRow.feed = gs'.flatMap GroupRow.feed →
    gs.map GroupRow.content = gs'.map GroupRow.content
  | [], [], _, _, _ => rfl
  | [], g :: gs', _, _, h => by simp [GroupRow.feed] at h
  | g :: gs, [], _, _, h => by simp [GroupRow.feed] at h
  | g :: gs, g' :: gs', hp, hp', h => by
    rw [List.flatMap_cons, List.flatMap_cons, GroupRow.feed, GroupRow.feed, List.cons_append,
      List.cons_append, List.cons.injEq, List.append_assoc, List.append_assoc] at h
    have hg := hp g List.mem_cons_self
    have hg' := hp' g' List.mem_cons_self
    have hlength : g.values.length = g'.values.length := rfl
    obtain ⟨hframes, hrest⟩ := values_append_inj hlength hg.fits hg'.fits h.2
    obtain ⟨hmembers, heq⟩ := members_append_inj
      (fun m hm => hg.members m (mem_orderedMembers.mp hm))
      (fun m hm => hg'.members m (mem_orderedMembers.mp hm))
      (atGroup_flatMap gs) (atGroup_flatMap gs') hrest
    have hcontents := groups_inj (fun n hn => hp n (List.mem_cons_of_mem _ hn))
      (fun n hn => hp' n (List.mem_cons_of_mem _ hn)) heq
    have hhead := content_eq_iff.mpr ⟨(GroupRow.frames_eq_iff hg hg').mp hframes, hmembers⟩
    rw [List.map_cons, List.map_cons, hcontents, hhead]

/-- What a row says decides its bytes. -/
theorem flatMap_updateValue {vs vs' : List SqlValue} (h : frames vs = frames vs') :
    (vs.flatMap fun v => updateValue (stableProofJson v)) =
      vs'.flatMap fun v => updateValue (stableProofJson v) := by
  have hframe : ∀ v : SqlValue, updateValue v =
      v.frame.elim [78, 0] fun f => framed f.1 f.2 := by
    intro v
    cases v <;> rfl
  have hbytes : ∀ vs : List SqlValue, (vs.flatMap fun v => updateValue (stableProofJson v)) =
      (frames vs).flatMap fun f => f.elim [78, 0] fun f => framed f.1 f.2 := by
    intro vs
    rw [frames, List.flatMap_map]
    simp only [hframe]
  rw [hbytes, hbytes, h]

theorem MemberRow.feed_eq {m m' : MemberRow} (h : m.Persisted) (h' : m'.Persisted)
    (hcontent : m.content = m'.content) : m.feed = m'.feed := by
  rw [MemberRow.feed, MemberRow.feed,
    flatMap_updateValue ((MemberRow.frames_eq_iff h h').mpr hcontent)]

theorem flatMap_eq_of_content {α β : Type} {f : α → Bytes} {c : α → β} : ∀ {l l' : List α},
    (∀ a ∈ l, ∀ a' ∈ l', c a = c a' → f a = f a') → l.map c = l'.map c →
    l.flatMap f = l'.flatMap f
  | [], [], _, _ => rfl
  | a :: l, a' :: l', h, hmap => by
    rw [List.map_cons, List.map_cons, List.cons.injEq] at hmap
    rw [List.flatMap_cons, List.flatMap_cons,
      h a List.mem_cons_self a' List.mem_cons_self hmap.1,
      flatMap_eq_of_content (fun b hb b' hb' =>
        h b (List.mem_cons_of_mem _ hb) b' (List.mem_cons_of_mem _ hb')) hmap.2]

theorem GroupRow.feed_eq {g g' : GroupRow} (h : g.Persisted) (h' : g'.Persisted)
    (hcontent : g.content = g'.content) : g.feed = g'.feed := by
  obtain ⟨hcolumns, hmembers⟩ := content_eq_iff.mp hcontent
  rw [GroupRow.feed, GroupRow.feed,
    flatMap_updateValue ((GroupRow.frames_eq_iff h h').mpr hcolumns)]
  have hfeed := flatMap_eq_of_content (fun m hm m' hm' heq =>
    MemberRow.feed_eq (h.members m (mem_orderedMembers.mp hm))
      (h'.members m' (mem_orderedMembers.mp hm')) heq) hmembers
  rw [hfeed]

/-! ## Plans -/

/-- A persisted plan. -/
def PersistedPlan (groups : List GroupRow) : Prop := ∀ g ∈ groups, g.Persisted

theorem mem_orderedGroups {groups : List GroupRow} {g : GroupRow} :
    g ∈ orderedGroups groups ↔ g ∈ groups := (perm_orderBy _ _).mem_iff

section Plans

variable {groups groups' : List GroupRow}

theorem planFeed_eq_iff (h : PersistedPlan groups) (h' : PersistedPlan groups') :
    planFeed groups = planFeed groups' ↔ (orderedGroups groups).map GroupRow.content =
      (orderedGroups groups').map GroupRow.content := by
  have hp := fun g hg => h g (mem_orderedGroups.mp hg)
  have hp' := fun g hg => h' g (mem_orderedGroups.mp hg)
  rw [planFeed, planFeed, List.append_cancel_left_eq]
  exact ⟨groups_inj hp hp', flatMap_eq_of_content fun g hg g' hg' heq =>
    GroupRow.feed_eq (hp g hg) (hp' g' hg') heq⟩

/-- The plans that feed the same bytes are the same. -/
theorem samePlan_of_planFeed (h : PersistedPlan groups) (h' : PersistedPlan groups')
    (hfeed : planFeed groups = planFeed groups') : SamePlan groups groups' := by
  have hordered := (planFeed_eq_iff h h').mp hfeed
  have hleft := (perm_orderBy GroupRow.key groups).map GroupRow.content
  have hright := (perm_orderBy GroupRow.key groups').map GroupRow.content
  rw [orderedGroups, orderedGroups] at hordered
  rw [hordered] at hleft
  exact hleft.symm.trans hright

/-! ### Groups that tie -/

/-- The columns of the order, as a group says them. -/
def GroupContent.key (c : GroupContent) : SortKey :=
  [[c.size], textKey c.keepPath, [c.redundantCount], [c.reclaimableBytes],
    textKey c.fullFingerprint, textKey c.verificationMode, textKey c.proofJson]

theorem pairwise_content (groups : List GroupRow) :
    ((orderedGroups groups).map GroupRow.content).Pairwise fun a b => a.key ≤ b.key := by
  rw [List.pairwise_map]
  exact pairwise_orderBy GroupRow.key groups

/-- Groups that agree in the seven columns agree in their members. -/
def TiesAgree (groups : List GroupRow) : Prop :=
  ∀ g ∈ groups, ∀ g' ∈ groups, g.key = g'.key → g.content = g'.content

theorem planFeed_eq_of_tiesAgree (h : PersistedPlan groups) (h' : PersistedPlan groups')
    (hties : TiesAgree groups) (hsame : SamePlan groups groups') :
    planFeed groups = planFeed groups' := by
  rw [planFeed_eq_iff h h']
  have hleft := (perm_orderBy GroupRow.key groups).map GroupRow.content
  have hright := (perm_orderBy GroupRow.key groups').map GroupRow.content
  have hperm : ((orderedGroups groups).map GroupRow.content).Perm
      ((orderedGroups groups').map GroupRow.content) := (hleft.trans hsame).trans hright.symm
  refine hperm.eq_of_pairwise ?_ (pairwise_content groups) (pairwise_content groups')
  intro c c' hc hc' hle hge
  obtain ⟨g, hg, rfl⟩ := List.mem_map.mp (hleft.mem_iff.mp hc)
  obtain ⟨g', hg', rfl⟩ := List.mem_map.mp (hleft.mem_iff.mp (hperm.mem_iff.mpr hc'))
  exact hties g hg g' hg' (le_antisymm hle hge)

/-- Two groups that tie change places, and the order of the query keeps them there. -/
theorem exists_swapped {g g' : GroupRow} {first second third : List GroupRow}
    (hsplit : orderedGroups groups = first ++ g :: (second ++ g' :: third))
    (hkey : g.key = g'.key) (hcontent : g.content ≠ g'.content) (h : PersistedPlan groups) :
    ∃ groups', PersistedPlan groups' ∧ SamePlan groups groups' ∧
      planFeed groups ≠ planFeed groups' := by
  have hperm : (orderedGroups groups).Perm groups := perm_orderBy _ _
  have hswap : (first ++ g' :: (second ++ g :: third)).Perm (orderedGroups groups) := by
    rw [hsplit]
    refine List.Perm.append_left first ?_
    have hleft : (g' :: (second ++ g :: third)).Perm (g' :: g :: (second ++ third)) :=
      List.perm_middle.cons g'
    have hright : (g :: (second ++ g' :: third)).Perm (g :: g' :: (second ++ third)) :=
      List.perm_middle.cons g
    exact (hleft.trans (List.Perm.swap g g' _)).trans hright.symm
  have hpersisted : PersistedPlan (first ++ g' :: (second ++ g :: third)) :=
    fun a ha => h a (hperm.mem_iff.mp (hswap.mem_iff.mp ha))
  have hordered : orderedGroups (first ++ g' :: (second ++ g :: third)) =
      first ++ g' :: (second ++ g :: third) := by
    have hsorted := pairwise_orderBy GroupRow.key groups
    rw [orderedGroups] at hsplit
    rw [hsplit] at hsorted
    refine List.Pairwise.insertionSort_eq ?_
    have hkeys : (first ++ g' :: (second ++ g :: third)).map GroupRow.key =
        (first ++ g :: (second ++ g' :: third)).map GroupRow.key := by simp [hkey]
    have hmapped := List.pairwise_map.mpr hsorted
    rw [← hkeys] at hmapped
    exact List.pairwise_map.mp hmapped
  refine ⟨_, hpersisted, ((hswap.trans hperm).symm.map GroupRow.content), fun hfeed => ?_⟩
  rw [planFeed_eq_iff h hpersisted, hordered, hsplit, List.map_append, List.map_append,
    List.append_cancel_left_eq, List.map_cons, List.map_cons, List.cons.injEq] at hfeed
  exact hcontent hfeed.1

/-- The bytes identify this plan among all persisted plans. -/
def Canonical (groups : List GroupRow) : Prop :=
  ∀ groups', PersistedPlan groups' →
    (SamePlan groups groups' → planFeed groups = planFeed groups') ∧
    (¬ SamePlan groups groups' → planFeed groups ≠ planFeed groups')

theorem planFeed_canonical_iff (groups : List GroupRow) (h : PersistedPlan groups) :
    Canonical groups ↔ TiesAgree groups := by
  constructor
  · intro hcanonical g hg g' hg' hkey
    by_contra hcontent
    obtain ⟨groups', hpersisted, hsame, hfeed⟩ : ∃ groups', PersistedPlan groups' ∧
        SamePlan groups groups' ∧ planFeed groups ≠ planFeed groups' := by
      obtain ⟨first, rest, hsplit⟩ := List.append_of_mem (mem_orderedGroups.mpr hg)
      have hmem := mem_orderedGroups.mpr hg'
      rw [hsplit, List.mem_append, List.mem_cons] at hmem
      rcases hmem with hmem | rfl | hmem
      · obtain ⟨init, second, rfl⟩ := List.append_of_mem hmem
        rw [List.append_assoc] at hsplit
        exact exists_swapped hsplit hkey.symm (Ne.symm hcontent) h
      · exact absurd rfl hcontent
      · obtain ⟨second, third, rfl⟩ := List.append_of_mem hmem
        exact exists_swapped hsplit hkey hcontent h
    exact hfeed ((hcanonical groups' hpersisted).1 hsame)
  · intro hties groups' h'
    exact ⟨planFeed_eq_of_tiesAgree h h' hties,
      fun hdiffer hfeed => hdiffer (samePlan_of_planFeed h h' hfeed)⟩

end Plans

/-! One keeper with two groups of one redundant file each. -/

def tiedMember (order fileId : ℕ) (path : Text) : MemberRow where
  memberOrder := order
  role := if order = 0 then "keep".toList else "redundant".toList
  path := path
  volumeId := [0]
  fileId := [UInt8.ofNat fileId]
  size := 7
  mtimeNs := 0
  birthtimeNs := 0
  proofJson := "{}".toList

def tiedGroup (groupId fileId : ℕ) (path : Text) : GroupRow where
  groupId := groupId
  size := 7
  keepPath := "/a".toList
  redundantCount := 1
  reclaimableBytes := 7
  fullFingerprint := "00".toList
  verificationMode := "full_hash".toList
  proofJson := "{}".toList
  members := [tiedMember 0 1 "/a".toList, tiedMember 1 fileId path]

theorem encoded_empty : Encoded "\x7b\x7d".toList [] := ⟨rfl, by decide +kernel⟩

instance (v : SqlValue) : Decidable v.Fits :=
  match v with
  | .null => isTrue trivial
  | .int n => inferInstanceAs (Decidable ((encodeUtf8 (renderInt n)).length < 2 ^ 31))
  | .text t => inferInstanceAs (Decidable ((encodeUtf8 t).length < 2 ^ 31))
  | .blob b => inferInstanceAs (Decidable (b.length < 2 ^ 31))

instance (t : Text) : Decidable (Plain t) := inferInstanceAs (Decidable (_ ≠ _))

theorem persisted_tiedMember {order fileId : ℕ} {path : Text} (hrole : Plain
    (tiedMember order fileId path).role) (hpath : Plain path)
    (hfits : ∀ v ∈ (tiedMember order fileId path).values, (stableProofJson v).Fits) :
    (tiedMember order fileId path).Persisted :=
  ⟨hrole, hpath, ⟨[], encoded_empty⟩, hfits⟩

theorem persisted_tiedGroup {groupId fileId : ℕ} {path : Text} (hpath : Plain path)
    (hfits : ∀ v ∈ (tiedMember 1 fileId path).values, (stableProofJson v).Fits) :
    (tiedGroup groupId fileId path).Persisted := by
  have hkeep : Plain "/a".toList := by decide
  have hfingerprint : Plain "00".toList := by decide
  have hmode : Plain "full_hash".toList := by decide
  have hrole : Plain "redundant".toList := by decide
  refine ⟨hkeep, hfingerprint, hmode, ⟨[], encoded_empty, by simp⟩, ?_, fun m hm => ?_⟩
  · show ∀ v ∈ (tiedGroup 0 0 []).values, (stableProofJson v).Fits
    decide +kernel
  · rcases List.mem_cons.mp hm with rfl | hm
    · exact persisted_tiedMember (by decide) (by decide) (by decide +kernel)
    · rw [List.mem_singleton] at hm
      subst hm
      exact persisted_tiedMember hrole hpath hfits

def tiedPlan : List GroupRow := [tiedGroup 1 2 "/b".toList, tiedGroup 2 3 "/c".toList]

theorem persisted_tiedPlan : PersistedPlan tiedPlan := by
  intro g hg
  rcases List.mem_cons.mp hg with rfl | hg
  · exact persisted_tiedGroup (by decide) (by decide +kernel)
  · rw [List.mem_singleton] at hg
    subst hg
    exact persisted_tiedGroup (by decide) (by decide +kernel)

theorem planFeed_canonical_iff_sample : Canonical [tiedGroup 1 2 "/b".toList] ∧
    ¬ Canonical tiedPlan := by
  constructor
  · have hpersisted : PersistedPlan [tiedGroup 1 2 "/b".toList] :=
      fun g hg => persisted_tiedPlan g (List.mem_cons.mpr (Or.inl (List.mem_singleton.mp hg)))
    rw [planFeed_canonical_iff _ hpersisted]
    intro g hg g' hg' _
    rw [List.mem_singleton.mp hg, List.mem_singleton.mp hg']
  · rw [planFeed_canonical_iff _ persisted_tiedPlan]
    intro hties
    have hsame := hties _ List.mem_cons_self _ (List.mem_cons_of_mem _ List.mem_cons_self) rfl
    have hmembers := (content_eq_iff.mp hsame).2
    have hpaths := congrArg (List.map MemberContent.path) hmembers
    rw [List.map_map, List.map_map] at hpaths
    exact absurd hpaths (by decide +kernel)

/-- The two groups tie, and the table has them the other way round. -/
theorem planFeed_depends_on_insertion : ¬ ∀ groups groups' : List GroupRow,
    PersistedPlan groups → PersistedPlan groups' →
    (SamePlan groups groups' → planFeed groups = planFeed groups') ∧
    (¬ SamePlan groups groups' → planFeed groups ≠ planFeed groups') := by
  intro h
  have hreversed : PersistedPlan tiedPlan.reverse :=
    fun g hg => persisted_tiedPlan g (List.mem_reverse.mp hg)
  have hsame : SamePlan tiedPlan tiedPlan.reverse :=
    (List.reverse_perm tiedPlan).symm.map GroupRow.content
  have hfeed := (h tiedPlan tiedPlan.reverse persisted_tiedPlan hreversed).1 hsame
  exact absurd hfeed (by decide +kernel)

end Deduplication
end Neocortex
