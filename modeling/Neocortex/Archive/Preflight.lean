import Neocortex.Library.Checks
import Neocortex.Archive.Layout

/-!
# What the preflight has checked

A structure that `_inspect_zip_source` returns describes the bytes: its entries are the records of the
central directory, their headers and payloads lie in front of the directory, the directory lies in
front of its end record, and nothing was read outside of the file.

* `Describes`: what an entry says about the record and the local header it was read from.
* `RecordsFrom`: the entries are the records of a stretch of bytes, back to back.
* `inspectZipSource_sound`: the result.
-/

namespace Neocortex
namespace Archive

open Python Checks

/-! ## Scans that succeed -/

section Scan

variable {α β : Type} {reads reads' : List (ℕ × ℕ)}

theorem scan_bind_eq_ok {x : Scan α} {f : α → Scan β} {b : β} :
    (x >>= f) reads = .ok (b, reads') ↔
      ∃ a reads₁, x reads = .ok (a, reads₁) ∧ f a reads₁ = .ok (b, reads') := by
  show (x reads >>= fun r => f r.1 r.2) = _ ↔ _
  rw [bind_eq_ok]
  constructor
  · rintro ⟨⟨a, reads₁⟩, hx, hf⟩
    exact ⟨a, reads₁, hx, hf⟩
  · rintro ⟨a, reads₁, hx, hf⟩
    exact ⟨(a, reads₁), hx, hf⟩

theorem scan_pure_eq_ok {a b : α} :
    (pure a : Scan α) reads = .ok (b, reads') ↔ a = b ∧ reads' = reads := by
  show Except.ok (a, reads) = .ok (b, reads') ↔ _
  constructor
  · intro h
    cases h
    exact ⟨rfl, rfl⟩
  · rintro ⟨rfl, rfl⟩
    rfl

theorem scan_lift_eq_ok {x : Except ZipError α} {a : α} :
    (liftM x : Scan α) reads = .ok (a, reads') ↔ x = .ok a ∧ reads' = reads := by
  show (x >>= fun a => Except.ok (a, reads)) = _ ↔ _
  rw [bind_eq_ok]
  constructor
  · rintro ⟨b, hx, hb⟩
    cases hb
    exact ⟨hx, rfl⟩
  · rintro ⟨rfl, rfl⟩
    exact ⟨a, rfl, rfl⟩

theorem raiseIf_eq_ok {c : Prop} [Decidable c] {message : String} {u : Unit} :
    raiseIf c message = .ok u ↔ ¬ c := Checks.raiseIf_eq_ok

theorem scan_raiseIf_eq_ok {c : Prop} [Decidable c] {message : String} {u : Unit} :
    (liftM (raiseIf c message) : Scan Unit) reads = .ok (u, reads') ↔ ¬ c ∧ reads' = reads := by
  rw [scan_lift_eq_ok, raiseIf_eq_ok]

/-- A check in front of a scan. -/
theorem scan_check_eq_ok {c : Prop} [Decidable c] {message : String} {f : Unit → Scan β} {b : β} :
    ((liftM (raiseIf c message) : Scan Unit) >>= f) reads = .ok (b, reads') ↔
      ¬ c ∧ f () reads = .ok (b, reads') := by
  rw [scan_bind_eq_ok]
  constructor
  · rintro ⟨u, reads₁, hcheck, hf⟩
    obtain ⟨hc, rfl⟩ := scan_raiseIf_eq_ok.mp hcheck
    exact ⟨hc, hf⟩
  · rintro ⟨hc, hf⟩
    exact ⟨(), reads, scan_raiseIf_eq_ok.mpr ⟨hc, rfl⟩, hf⟩

theorem length_slice (source : Bytes) (offset length : ℕ) :
    (slice source offset length).length = min length (source.length - offset) := by
  rw [slice, List.length_take, List.length_drop]

/-- A read that succeeds is the slice, which is there in full. -/
theorem readExact_eq_ok {source payload : Bytes} {offset length : ℕ} :
    readExact source offset length reads = .ok (payload, reads') ↔
      payload = slice source offset length ∧ payload.length = length ∧
        reads' = reads ++ [(offset, length)] := by
  unfold readExact
  rw [scan_bind_eq_ok]
  constructor
  · rintro ⟨u, reads₁, hmodify, h⟩
    obtain rfl : reads ++ [(offset, length)] = reads₁ := by
      cases hmodify
      rfl
    rw [scan_check_eq_ok, not_not, scan_pure_eq_ok] at h
    obtain ⟨hlength, rfl, rfl⟩ := h
    exact ⟨rfl, hlength, rfl⟩
  · rintro ⟨rfl, hlength, rfl⟩
    refine ⟨(), _, rfl, ?_⟩
    rw [scan_check_eq_ok, not_not, scan_pure_eq_ok]
    exact ⟨hlength, rfl, rfl⟩

end Scan

/-- The read lies inside the bytes. -/
def Inside (source : Bytes) (read : ℕ × ℕ) : Prop := read.1 + read.2 ≤ source.length

/-- A read of at least one byte that succeeds lies inside. -/
theorem inside_of_length {source : Bytes} {offset length : ℕ}
    (h : (slice source offset length).length = length) (hpos : 0 < length) :
    Inside source (offset, length) := by
  rw [length_slice] at h
  show offset + length ≤ source.length
  omega

/-! ## One record -/

/-- The header of the directory record at `cursor`. -/
def centralAt (source : Bytes) (cursor : ℕ) : CentralHeader :=
  CentralHeader.unpack (slice source cursor centralHeaderBytes)

/-- The local header at `offset`. -/
def localAt (source : Bytes) (offset : ℕ) : LocalHeader :=
  LocalHeader.unpack (slice source offset localHeaderBytes)

/-- What the entry `e` says of the record at `cursor`, and of the local header that it names. -/
structure Describes (source : Bytes) (offsetAdjustment cursor : ℕ) (e : ZipMemberStructure) :
    Prop where
  signature : (centralAt source cursor).signature = centralSignature
  name : decodeName (centralAt source cursor).flags
    (slice source (cursor + centralHeaderBytes) (centralAt source cursor).nameLength) =
      some e.filename
  noNul : '\x00' ∉ e.filename
  values : ∃ offset, zip64EntryValues (centralAt source cursor)
      (slice source (cursor + centralHeaderBytes + (centralAt source cursor).nameLength)
        (centralAt source cursor).extraLength) =
      .ok ⟨e.compressedSize, e.uncompressedSize, offset, 0⟩ ∧
    e.headerOffset = offset + offsetAdjustment
  crc32 : e.crc32 = (centralAt source cursor).crc32
  compression : e.compressionMethod = (centralAt source cursor).compression
  flags : e.flags = (centralAt source cursor).flags
  isDirectory : e.isDirectory = decide (e.filename.getLast? = some '/')
  localSignature : (localAt source e.headerOffset).signature = localFileSignature
  payload : e.payloadOffset = e.headerOffset + localHeaderBytes +
    (localAt source e.headerOffset).nameLength + (localAt source e.headerOffset).extraLength

/-- Where a member lies: its header and its payload, in front of the directory. -/
structure InFront (centralDirectoryOffset : ℕ) (e : ZipMemberStructure) : Prop where
  header : e.headerOffset + localHeaderBytes ≤ e.payloadOffset
  payload : e.payloadOffset + e.compressedSize ≤ centralDirectoryOffset

theorem validateCentralMember_eq_ok {source : Bytes} {cursor ordinal centralDirectoryOffset
    offsetAdjustment fileSize : ℕ} {e : ZipMemberStructure} {reads reads' : List (ℕ × ℕ)}
    (h : validateCentralMember source (centralAt source cursor) ordinal
      (cursor + centralHeaderBytes)
      (cursor + centralHeaderBytes + (centralAt source cursor).nameLength) centralDirectoryOffset
      offsetAdjustment fileSize reads = .ok (e, reads')) :
    Describes source offsetAdjustment cursor e ∧ InFront centralDirectoryOffset e ∧
      e.ordinal = ordinal ∧ Inside source (e.headerOffset, localHeaderBytes) ∧
      reads' = reads ++
        [(cursor + centralHeaderBytes, (centralAt source cursor).nameLength),
          (cursor + centralHeaderBytes + (centralAt source cursor).nameLength,
            (centralAt source cursor).extraLength),
          (e.headerOffset, localHeaderBytes)] := by
  unfold validateCentralMember at h
  rw [scan_bind_eq_ok] at h
  obtain ⟨rawName, reads₁, hname, h⟩ := h
  obtain ⟨rfl, -, rfl⟩ := readExact_eq_ok.mp hname
  cases hdecode : decodeName (centralAt source cursor).flags
      (slice source (cursor + centralHeaderBytes) (centralAt source cursor).nameLength) with
  | none =>
    rw [hdecode] at h
    cases h
  | some name =>
    rw [hdecode] at h
    simp only [scan_check_eq_ok] at h
    obtain ⟨hnul, hsignature, h⟩ := h
    rw [scan_bind_eq_ok] at h
    obtain ⟨extra, reads₂, hextra, h⟩ := h
    obtain ⟨rfl, -, rfl⟩ := readExact_eq_ok.mp hextra
    rw [scan_bind_eq_ok] at h
    obtain ⟨values, reads₃, hlift, h⟩ := h
    obtain ⟨hvalues, rfl⟩ := scan_lift_eq_ok.mp hlift
    simp only [scan_check_eq_ok] at h
    obtain ⟨hdisk, houtside, htruncated, h⟩ := h
    rw [scan_bind_eq_ok] at h
    obtain ⟨header, reads₄, hheader, h⟩ := h
    obtain ⟨rfl, hlength, rfl⟩ := readExact_eq_ok.mp hheader
    simp only [scan_check_eq_ok] at h
    obtain ⟨hlocal, hextends, hpayload, h⟩ := h
    rw [scan_bind_eq_ok] at h
    obtain ⟨u, reads₅, hsizes, h⟩ := h
    obtain ⟨-, rfl⟩ := scan_lift_eq_ok.mp hsizes
    rw [scan_check_eq_ok, scan_pure_eq_ok] at h
    obtain ⟨-, rfl, rfl⟩ := h
    rw [not_not] at hsignature hdisk hlocal
    obtain ⟨compressed, uncompressed, offset, disk⟩ := values
    simp only at hdisk hextends hpayload hlength houtside
    subst hdisk
    refine ⟨⟨hsignature, hdecode, hnul, ⟨offset, hvalues, rfl⟩, rfl, rfl, rfl, rfl, hlocal, rfl⟩,
      ⟨?_, ?_⟩, rfl, inside_of_length hlength (by decide), ?_⟩
    · show offset + offsetAdjustment + localHeaderBytes ≤
        offset + offsetAdjustment + localHeaderBytes + _ + _
      omega
    · have hbefore : ¬ centralDirectoryOffset < offset + offsetAdjustment + localHeaderBytes +
          (localAt source (offset + offsetAdjustment)).nameLength +
          (localAt source (offset + offsetAdjustment)).extraLength := hextends
      have hfits : ¬ centralDirectoryOffset - (offset + offsetAdjustment + localHeaderBytes +
          (localAt source (offset + offsetAdjustment)).nameLength +
          (localAt source (offset + offsetAdjustment)).extraLength) < compressed := hpayload
      show offset + offsetAdjustment + localHeaderBytes +
          (localAt source (offset + offsetAdjustment)).nameLength +
          (localAt source (offset + offsetAdjustment)).extraLength + compressed ≤
        centralDirectoryOffset
      omega
    · simp only [List.append_assoc, List.cons_append, List.nil_append]

/-! ## All records -/

/-- The entries are the records from `cursor` to `stop`, back to back, with ordinals from `ordinal`
on. -/
inductive RecordsFrom (source : Bytes) (offsetAdjustment centralDirectoryOffset stop : ℕ) :
    ℕ → ℕ → List ZipMemberStructure → Prop
  | nil (ordinal : ℕ) :
      RecordsFrom source offsetAdjustment centralDirectoryOffset stop stop ordinal []
  | cons {cursor ordinal : ℕ} {e : ZipMemberStructure} {es : List ZipMemberStructure}
      (describes : Describes source offsetAdjustment cursor e)
      (inFront : InFront centralDirectoryOffset e) (ordinal_eq : e.ordinal = ordinal)
      (rest : RecordsFrom source offsetAdjustment centralDirectoryOffset stop
        (cursor + (centralAt source cursor).recordLength) (ordinal + 1) es) :
      RecordsFrom source offsetAdjustment centralDirectoryOffset stop cursor ordinal (e :: es)

section Records

variable {source : Bytes} {centralDirectoryOffset centralEnd declaredMembers : ℕ} {maxMembers : ℤ}
  {offsetAdjustment fileSize cursor : ℕ} {entries : List ZipMemberStructure}
  {reads reads' : List (ℕ × ℕ)}

theorem inspectRecord_eq_ok {e : ZipMemberStructure} {next : ℕ}
    (hend : centralEnd ≤ source.length) (hcursor : cursor < centralEnd)
    (h : inspectRecord source centralDirectoryOffset centralEnd declaredMembers maxMembers
      offsetAdjustment fileSize cursor entries reads = .ok ((e, next), reads')) :
    Describes source offsetAdjustment cursor e ∧ InFront centralDirectoryOffset e ∧
      e.ordinal = entries.length ∧ e.headerOffset ∉ entries.map ZipMemberStructure.headerOffset ∧
      next = cursor + (centralAt source cursor).recordLength ∧ next ≤ centralEnd ∧
      ((∀ r ∈ reads, Inside source r) → ∀ r ∈ reads', Inside source r) := by
  unfold inspectRecord at h
  rw [scan_check_eq_ok, scan_bind_eq_ok] at h
  obtain ⟨hremaining, header, reads₁, hheader, h⟩ := h
  obtain ⟨rfl, hlength, rfl⟩ := readExact_eq_ok.mp hheader
  simp only [scan_check_eq_ok] at h
  obtain ⟨-, hrecord, -, -, h⟩ := h
  rw [scan_bind_eq_ok] at h
  obtain ⟨entry, reads₂, hentry, h⟩ := h
  rw [scan_check_eq_ok, scan_pure_eq_ok] at h
  obtain ⟨hshared, heq, rfl⟩ := h
  obtain ⟨rfl, rfl⟩ := Prod.mk.inj heq
  obtain ⟨hdescribes, hfront, hordinal, hlocal, rfl⟩ := validateCentralMember_eq_ok hentry
  have hfits : cursor + (centralAt source cursor).recordLength ≤ centralEnd := by
    have : ¬ centralEnd - cursor < (centralAt source cursor).recordLength := hrecord
    omega
  have hparts : (centralAt source cursor).recordLength = centralHeaderBytes +
      (centralAt source cursor).nameLength + (centralAt source cursor).extraLength +
      (centralAt source cursor).commentLength := rfl
  refine ⟨hdescribes, hfront, hordinal, hshared, rfl, hfits, fun hreads r hr => ?_⟩
  rw [List.append_assoc] at hr
  rcases List.mem_append.mp hr with hr | hr
  · exact hreads r hr
  · simp only [List.cons_append, List.nil_append, List.mem_cons, List.not_mem_nil, or_false] at hr
    rcases hr with rfl | rfl | rfl | rfl
    · exact inside_of_length hlength (by decide)
    · show cursor + centralHeaderBytes + (centralAt source cursor).nameLength ≤ source.length
      omega
    · show cursor + centralHeaderBytes + (centralAt source cursor).nameLength +
        (centralAt source cursor).extraLength ≤ source.length
      omega
    · exact hlocal

theorem inspectRecords_eq_ok {turns stop : ℕ} {all : List ZipMemberStructure}
    (hend : centralEnd ≤ source.length)
    (h : inspectRecords source centralDirectoryOffset centralEnd declaredMembers maxMembers
      offsetAdjustment fileSize turns cursor entries reads = .ok ((stop, all), reads')) :
    ∃ more, all = entries ++ more ∧
      RecordsFrom source offsetAdjustment centralDirectoryOffset stop cursor entries.length more ∧
      ((entries.map ZipMemberStructure.headerOffset).Nodup →
        (all.map ZipMemberStructure.headerOffset).Nodup) ∧
      ((∀ r ∈ reads, Inside source r) → ∀ r ∈ reads', Inside source r) := by
  have done : ∀ {reads reads' : List (ℕ × ℕ)} {cursor : ℕ} {entries : List ZipMemberStructure},
      (pure (cursor, entries) : Scan (ℕ × List ZipMemberStructure)) reads =
        .ok ((stop, all), reads') →
      ∃ more, all = entries ++ more ∧
        RecordsFrom source offsetAdjustment centralDirectoryOffset stop cursor entries.length more ∧
        ((entries.map ZipMemberStructure.headerOffset).Nodup →
          (all.map ZipMemberStructure.headerOffset).Nodup) ∧
        ((∀ r ∈ reads, Inside source r) → ∀ r ∈ reads', Inside source r) := by
    intro reads reads' cursor entries h
    obtain ⟨heq, rfl⟩ := scan_pure_eq_ok.mp h
    obtain ⟨rfl, rfl⟩ := Prod.mk.inj heq
    exact ⟨[], (List.append_nil _).symm, .nil _, id, id⟩
  induction turns generalizing cursor entries reads with
  | zero => exact done h
  | succ turns ih =>
    rw [inspectRecords] at h
    by_cases hcursor : cursor < centralEnd
    · rw [if_pos hcursor, scan_bind_eq_ok] at h
      obtain ⟨⟨e, next⟩, reads₁, hrecord, h⟩ := h
      obtain ⟨hdescribes, hfront, hordinal, hshared, rfl, -, hreads⟩ :=
        inspectRecord_eq_ok hend hcursor hrecord
      obtain ⟨more, rfl, hmore, hnodup, hreads'⟩ := ih h
      rw [List.length_append, List.length_singleton] at hmore
      refine ⟨e :: more, by simp, .cons hdescribes hfront hordinal hmore, fun hn => hnodup ?_,
        fun hr => hreads' (hreads hr)⟩
      rw [List.map_append, List.map_singleton, List.nodup_append]
      refine ⟨hn, List.nodup_singleton _, fun a ha b hb heq => ?_⟩
      rw [List.mem_singleton.mp hb] at heq
      exact hshared (heq ▸ ha)
    · rw [if_neg hcursor] at h
      exact done h

end Records

/-! ## Upper bounds -/

/-- The least header offset behind `offset`, or the start of the directory. -/
def IsNextBoundary (centralDirectoryOffset : ℕ) (offsets : List ℕ) (offset bound : ℕ) : Prop :=
  IsLeast {b | offset < b ∧ (b = centralDirectoryOffset ∨ b ∈ offsets)} bound

/-- Among entries by header offset, all in front of the directory, each is looked up with the next
boundary. -/
theorem isNextBoundary_lookup {centralDirectoryOffset : ℕ} :
    ∀ {l : List ZipMemberStructure}, l.Pairwise (fun a b => a.headerOffset < b.headerOffset) →
      (∀ e ∈ l, e.headerOffset < centralDirectoryOffset) → ∀ e ∈ l, ∃ bound,
        (upperBounds centralDirectoryOffset l).lookup e.headerOffset = some bound ∧
        IsNextBoundary centralDirectoryOffset (l.map ZipMemberStructure.headerOffset)
          e.headerOffset bound
  | [], _, _, e, he => by cases he
  | [item], _, hfront, e, he => by
    obtain rfl := List.mem_singleton.mp he
    refine ⟨centralDirectoryOffset, by simp [upperBounds], ⟨hfront e he, Or.inl rfl⟩, ?_⟩
    rintro b ⟨hlt, rfl | hb⟩
    · exact le_rfl
    · rw [List.map_singleton, List.mem_singleton] at hb
      omega
  | item :: next :: rest, hsorted, hfront, e, he => by
    rw [List.pairwise_cons] at hsorted
    obtain ⟨hitem, hsorted⟩ := hsorted
    by_cases heq : e.headerOffset = item.headerOffset
    · refine ⟨next.headerOffset, by simp [upperBounds, heq], ⟨?_, Or.inr (by simp)⟩, ?_⟩
      · rw [heq]
        exact hitem next List.mem_cons_self
      · rintro b ⟨hlt, rfl | hb⟩
        · exact (hfront next (by simp)).le
        · obtain ⟨f, hf, rfl⟩ := List.mem_map.mp hb
          rcases List.mem_cons.mp hf with rfl | hf
          · omega
          · rcases List.mem_cons.mp hf with rfl | hf
            · exact le_rfl
            · exact ((List.pairwise_cons.mp hsorted).1 f hf).le
    · have hmem : e ∈ next :: rest := by
        rcases List.mem_cons.mp he with rfl | he
        · exact absurd rfl heq
        · exact he
      obtain ⟨bound, hlookup, ⟨hgt, hbound⟩, hleast⟩ :=
        isNextBoundary_lookup hsorted (fun f hf => hfront f (List.mem_cons_of_mem _ hf)) e hmem
      refine ⟨bound, ?_, ⟨hgt, ?_⟩, ?_⟩
      · rw [upperBounds, List.lookup_cons, beq_eq_false_iff_ne.mpr heq]
        exact hlookup
      · rcases hbound with hbound | hbound
        · exact Or.inl hbound
        · exact Or.inr (by simp only [List.map_cons, List.mem_cons] at hbound ⊢; tauto)
      · rintro b ⟨hlt, hb⟩
        refine hleast ⟨hlt, ?_⟩
        rcases hb with hb | hb
        · exact Or.inl hb
        · rw [List.map_cons, List.mem_cons] at hb
          rcases hb with rfl | hb
          · have := hitem e hmem
            omega
          · exact Or.inr hb

/-- The entries with distinct headers in front of the directory get their next boundaries. -/
theorem mem_withUpperBounds {centralDirectoryOffset : ℕ} {entries : List ZipMemberStructure}
    (hnodup : (entries.map ZipMemberStructure.headerOffset).Nodup)
    (hfront : ∀ e ∈ entries, e.headerOffset < centralDirectoryOffset) {e : ZipMemberStructure}
    (he : e ∈ withUpperBounds centralDirectoryOffset entries) :
    ∃ item ∈ entries, ∃ bound, e = { item with upperBound := bound } ∧
      IsNextBoundary centralDirectoryOffset (entries.map ZipMemberStructure.headerOffset)
        item.headerOffset bound := by
  obtain ⟨item, hitem, rfl⟩ := List.mem_map.mp he
  generalize hbyOffset : entries.insertionSort (fun a b => a.headerOffset ≤ b.headerOffset) =
    byOffset
  have hperm : byOffset.Perm entries := hbyOffset ▸ List.perm_insertionSort _ _
  have htotal : Std.Total fun a b : ZipMemberStructure => a.headerOffset ≤ b.headerOffset :=
    ⟨fun a b => le_total _ _⟩
  have htrans : IsTrans ZipMemberStructure fun a b => a.headerOffset ≤ b.headerOffset :=
    ⟨fun a b c => le_trans⟩
  have hsorted : byOffset.Pairwise fun a b => a.headerOffset < b.headerOffset := by
    have hle : byOffset.Pairwise fun a b => a.headerOffset ≤ b.headerOffset :=
      hbyOffset ▸ List.pairwise_insertionSort _ _
    have hne : byOffset.Pairwise fun a b => a.headerOffset ≠ b.headerOffset := by
      have := (hperm.map ZipMemberStructure.headerOffset).nodup_iff.mpr hnodup
      rwa [List.Nodup, List.pairwise_map] at this
    exact (hle.and hne).imp fun h => lt_of_le_of_ne h.1 h.2
  obtain ⟨bound, hlookup, ⟨hgt, hbound⟩, hleast⟩ := isNextBoundary_lookup hsorted
    (fun e he => hfront e (hperm.subset he)) item (hperm.symm.subset hitem)
  have hoffsets : ∀ b, b ∈ byOffset.map ZipMemberStructure.headerOffset ↔
      b ∈ entries.map ZipMemberStructure.headerOffset := fun b => (hperm.map _).mem_iff
  refine ⟨item, hitem, bound, ?_, ⟨hgt, hbound.imp_right (hoffsets _).mp⟩, ?_⟩
  · rw [hlookup, Option.getD_some]
  · rintro b ⟨hlt, hb⟩
    exact hleast ⟨hlt, hb.imp_right (hoffsets _).mpr⟩

/-! ## End records -/

theorem slice_slice {source : Bytes} {offset length inner width : ℕ} (h : inner + width ≤ length) :
    slice (slice source offset length) inner width = slice source (offset + inner) width := by
  rw [slice, slice, slice, List.drop_take, List.drop_drop, List.take_take]
  congr 1
  omega

theorem rfindEocd_eq_some {tail : Bytes} {stop index : ℕ} (h : rfindEocd tail stop = some index) :
    slice tail index 4 = eocdSignature ∧ index + 4 ≤ stop := by
  induction stop with
  | zero => cases h
  | succ stop ih =>
    rw [rfindEocd] at h
    split_ifs at h with hfound
    · obtain rfl := Option.some.inj h
      exact ⟨hfound.2, by omega⟩
    · have := ih h
      exact ⟨this.1, by omega⟩

theorem eocdIndex_eq_ok {tail : Bytes} {turns stop index : ℕ} {e : EndRecord}
    (h : eocdIndex tail turns stop = .ok (index, e)) :
    slice tail index 4 = eocdSignature ∧ e = EndRecord.unpack (slice tail index eocdFixedBytes) ∧
      index + eocdFixedBytes + e.commentLength ≤ tail.length := by
  induction turns generalizing stop with
  | zero => cases h
  | succ turns ih =>
    rw [eocdIndex] at h
    cases hfind : rfindEocd tail stop with
    | none =>
      rw [hfind] at h
      cases h
    | some found =>
      rw [hfind] at h
      simp only at h
      split_ifs at h with hfits
      · obtain ⟨rfl, rfl⟩ := Prod.mk.inj (Except.ok.inj h)
        exact ⟨(rfindEocd_eq_some hfind).1, rfl, hfits.2⟩
      · exact ih h

/-- The end record at `offset`. -/
def endRecordAt (source : Bytes) (offset : ℕ) : EndRecord :=
  EndRecord.unpack (slice source offset eocdFixedBytes)

/-- The ZIP64 end record at `offset`. -/
def zip64RecordAt (source : Bytes) (offset : ℕ) : Zip64Record :=
  Zip64Record.unpack (slice source offset zip64EocdMinBytes)

section EndRecords

variable {source : Bytes} {reads reads' : List (ℕ × ℕ)} {offset recordOffset : ℕ}

theorem findEocd_eq_ok {e : EndRecord}
    (h : findEocd source source.length reads = .ok ((offset, e), reads')) :
    slice source offset 4 = eocdSignature ∧ e = endRecordAt source offset ∧
      offset + eocdFixedBytes + e.commentLength ≤ source.length ∧
      ((∀ r ∈ reads, Inside source r) → ∀ r ∈ reads', Inside source r) := by
  unfold findEocd at h
  rw [scan_bind_eq_ok] at h
  obtain ⟨tail, reads₁, htail, h⟩ := h
  obtain ⟨rfl, hlength, rfl⟩ := readExact_eq_ok.mp htail
  rw [scan_bind_eq_ok] at h
  obtain ⟨⟨index, record⟩, reads₂, hlift, h⟩ := h
  obtain ⟨hindex, rfl⟩ := scan_lift_eq_ok.mp hlift
  obtain ⟨heq, rfl⟩ := scan_pure_eq_ok.mp h
  obtain ⟨rfl, rfl⟩ := Prod.mk.inj heq
  obtain ⟨hsignature, hrecord, hfits⟩ := eocdIndex_eq_ok hindex
  rw [hlength] at hfits
  have hbytes : eocdFixedBytes = 22 := rfl
  rw [slice_slice (by omega)] at hsignature hrecord
  refine ⟨hsignature, hrecord, by omega, fun hreads r hr => ?_⟩
  rcases List.mem_append.mp hr with hr | hr
  · exact hreads r hr
  · rw [List.mem_singleton.mp hr]
    show source.length - _ + _ ≤ source.length
    omega

theorem rawZip64Record_eq_ok {locatorOffset : ℕ} {record : Option Zip64Record}
    (h : rawZip64Record source source.length recordOffset locatorOffset reads =
      .ok (record, reads')) :
    (∀ r ∈ record, r = zip64RecordAt source recordOffset ∧
        recordOffset + 12 + r.recordSize = locatorOffset) ∧
      ((∀ r ∈ reads, Inside source r) → ∀ r ∈ reads', Inside source r) := by
  unfold rawZip64Record at h
  split_ifs at h with hinside
  · rw [scan_bind_eq_ok] at h
    obtain ⟨candidate, reads₁, hcandidate, h⟩ := h
    obtain ⟨rfl, -, rfl⟩ := readExact_eq_ok.mp hcandidate
    have hreads : (∀ r ∈ reads, Inside source r) →
        ∀ r ∈ reads ++ [(recordOffset, zip64EocdMinBytes)], Inside source r := by
      intro hreads r hr
      rcases List.mem_append.mp hr with hr | hr
      · exact hreads r hr
      · rw [List.mem_singleton.mp hr]
        exact hinside
    split_ifs at h with hrecord
    · obtain ⟨rfl, rfl⟩ := scan_pure_eq_ok.mp h
      refine ⟨?_, hreads⟩
      intro r hr
      rw [Option.mem_some_iff] at hr
      subst hr
      exact ⟨rfl, hrecord.2.2⟩
    · obtain ⟨rfl, rfl⟩ := scan_pure_eq_ok.mp h
      exact ⟨by simp, hreads⟩
  · obtain ⟨rfl, rfl⟩ := scan_pure_eq_ok.mp h
    exact ⟨by simp, id⟩

/-- A ZIP64 end record, its locator behind it and the end record behind that. -/
structure Zip64At (source : Bytes) (eocdOffset offset : ℕ) : Prop where
  signature : (zip64RecordAt source offset).signature = zip64EocdSignature
  adjacent : offset + 12 + (zip64RecordAt source offset).recordSize + zip64LocatorBytes = eocdOffset
  locator : slice source (eocdOffset - zip64LocatorBytes) 4 = zip64LocatorSignature

theorem zip64Details_eq_ok {record : Zip64Record} {eocdOffset : ℕ}
    (h : zip64Details source eocdOffset source.length reads = .ok ((record, offset), reads')) :
    record = zip64RecordAt source offset ∧ Zip64At source eocdOffset offset ∧
      ((∀ r ∈ reads, Inside source r) → ∀ r ∈ reads', Inside source r) := by
  unfold zip64Details at h
  rw [scan_check_eq_ok, scan_bind_eq_ok] at h
  obtain ⟨hroom, locator, reads₁, hlocator, h⟩ := h
  obtain ⟨rfl, hlength, rfl⟩ := readExact_eq_ok.mp hlocator
  have hlocatorInside := inside_of_length hlength (by decide)
  simp only [scan_check_eq_ok] at h
  obtain ⟨hsignature, -, h⟩ := h
  rw [not_not, slice_slice (by decide), Nat.add_zero] at hsignature
  rw [scan_bind_eq_ok] at h
  obtain ⟨candidate, reads₂, hraw, h⟩ := h
  obtain ⟨hcandidate, hreads⟩ := rawZip64Record_eq_ok hraw
  have hreads₂ : (∀ r ∈ reads, Inside source r) → ∀ r ∈ reads₂, Inside source r := by
    intro hr
    refine hreads fun r hmem => ?_
    rcases List.mem_append.mp hmem with hmem | hmem
    · exact hr r hmem
    · rw [List.mem_singleton.mp hmem]
      exact hlocatorInside
  rw [scan_bind_eq_ok] at h
  obtain ⟨⟨found, physical⟩, reads₃, hfound, h⟩ := h
  have hphysical : found = zip64RecordAt source physical ∧
      ((∀ r ∈ reads, Inside source r) → ∀ r ∈ reads₃, Inside source r) := by
    cases candidate with
    | some record =>
      obtain ⟨heq, rfl⟩ := scan_pure_eq_ok.mp hfound
      obtain ⟨rfl, rfl⟩ := Prod.mk.inj heq
      exact ⟨(hcandidate record rfl).1, hreads₂⟩
    | none =>
      rw [placedZip64Record, scan_check_eq_ok, scan_bind_eq_ok] at hfound
      obtain ⟨-, bytes, reads₄, hbytes, hfound⟩ := hfound
      obtain ⟨rfl, hlength, rfl⟩ := readExact_eq_ok.mp hbytes
      obtain ⟨heq, rfl⟩ := scan_pure_eq_ok.mp hfound
      obtain ⟨rfl, rfl⟩ := Prod.mk.inj heq
      refine ⟨rfl, fun hr r hmem => ?_⟩
      rcases List.mem_append.mp hmem with hmem | hmem
      · exact hreads₂ hr r hmem
      · rw [List.mem_singleton.mp hmem]
        exact inside_of_length hlength (by decide)
  simp only [scan_check_eq_ok, scan_pure_eq_ok] at h
  obtain ⟨hrecord, hadjacent, -, -, heq, rfl⟩ := h
  obtain ⟨rfl, rfl⟩ := Prod.mk.inj heq
  obtain ⟨rfl, hinside⟩ := hphysical
  rw [not_or, not_not] at hrecord
  rw [not_not] at hadjacent
  refine ⟨rfl, ⟨hrecord.1, ?_, hsignature⟩, hinside⟩
  omega

end EndRecords

/-! ## The structure -/

/-- The directory ends at `stop`, at its end record or at its ZIP64 end record, and the end record
with its comment ends the file. -/
structure EndsAt (source : Bytes) (zip64 : Bool) (stop : ℕ) : Prop where
  exists_end : ∃ eocdOffset, slice source eocdOffset 4 = eocdSignature ∧
    eocdOffset + eocdFixedBytes + (endRecordAt source eocdOffset).commentLength = source.length ∧
    (zip64 = true ↔ (endRecordAt source eocdOffset).IsZip64) ∧
    (zip64 = false → stop = eocdOffset) ∧ (zip64 = true → Zip64At source eocdOffset stop)

/-- What a structure says of the bytes that it was read from. -/
structure Sound (source : Bytes) (maxMembers : ℤ) (s : ZipStructure) (reads : List (ℕ × ℕ)) :
    Prop where
  records : ∃ offsetAdjustment, RecordsFrom source offsetAdjustment s.centralDirectoryOffset
    (s.centralDirectoryOffset + s.centralDirectoryBytes) s.centralDirectoryOffset 0 s.entries
  ordinals : s.entries.map ZipMemberStructure.ordinal = List.range s.members
  members : (s.members : ℤ) ≤ maxMembers
  distinct : (s.entries.map ZipMemberStructure.headerOffset).Nodup
  inFront : ∀ e ∈ s.entries, InFront s.centralDirectoryOffset e
  upperBound : ∀ e ∈ s.entries, e.headerOffset < e.upperBound ∧
    e.upperBound ≤ s.centralDirectoryOffset ∧
    IsNextBoundary s.centralDirectoryOffset (s.entries.map ZipMemberStructure.headerOffset)
      e.headerOffset e.upperBound
  ends : EndsAt source s.zip64 (s.centralDirectoryOffset + s.centralDirectoryBytes)
  inside : ∀ r ∈ reads, Inside source r

section Structure

variable {source : Bytes} {offsetAdjustment centralDirectoryOffset stop cursor ordinal : ℕ}
  {entries : List ZipMemberStructure}

theorem RecordsFrom.mem_inFront
    (h : RecordsFrom source offsetAdjustment centralDirectoryOffset stop cursor ordinal entries) :
    ∀ e ∈ entries, InFront centralDirectoryOffset e := by
  induction h with
  | nil => simp
  | cons _ hfront _ _ ih => exact List.forall_mem_cons.mpr ⟨hfront, ih⟩

theorem RecordsFrom.ordinals
    (h : RecordsFrom source offsetAdjustment centralDirectoryOffset stop cursor ordinal entries) :
    entries.map ZipMemberStructure.ordinal = List.range' ordinal entries.length := by
  induction h with
  | nil => rfl
  | cons _ _ hordinal _ ih =>
    rw [List.map_cons, ih, hordinal, List.length_cons, List.range'_succ]

/-- The upper bounds are no part of the records. -/
theorem RecordsFrom.map_upperBound (f : ZipMemberStructure → ℕ)
    (h : RecordsFrom source offsetAdjustment centralDirectoryOffset stop cursor ordinal entries) :
    RecordsFrom source offsetAdjustment centralDirectoryOffset stop cursor ordinal
      (entries.map fun e => { e with upperBound := f e }) := by
  induction h with
  | nil ordinal => exact .nil ordinal
  | cons hdescribes hfront hordinal _ ih =>
    refine .cons ?_ ⟨hfront.header, hfront.payload⟩ hordinal ih
    obtain ⟨h1, h2, h3, h4, h5, h6, h7, h8, h9, h10⟩ := hdescribes
    exact ⟨h1, h2, h3, h4, h5, h6, h7, h8, h9, h10⟩

end Structure

theorem directoryOf_eq_ok {source : Bytes} {eocdOffset : ℕ} {e : EndRecord} {directory : Directory}
    {reads reads' : List (ℕ × ℕ)}
    (h : directoryOf source eocdOffset source.length e reads = .ok (directory, reads')) :
    (¬ e.IsZip64 → directory.expectedEnd = eocdOffset) ∧
      (e.IsZip64 → Zip64At source eocdOffset directory.expectedEnd) ∧
      ((∀ r ∈ reads, Inside source r) → ∀ r ∈ reads', Inside source r) := by
  unfold directoryOf at h
  split_ifs at h with hzip64
  · rw [scan_bind_eq_ok] at h
    obtain ⟨⟨record, recordOffset⟩, reads₁, hdetails, h⟩ := h
    obtain ⟨rfl, hat, hreads⟩ := zip64Details_eq_ok hdetails
    simp only [scan_check_eq_ok, scan_pure_eq_ok] at h
    obtain ⟨-, -, -, -, rfl, rfl⟩ := h
    exact ⟨fun hno => absurd hzip64 hno, fun _ => hat, hreads⟩
  · rw [scan_check_eq_ok, scan_pure_eq_ok] at h
    obtain ⟨-, rfl, rfl⟩ := h
    exact ⟨fun _ => rfl, fun hyes => absurd hyes hzip64, id⟩

/-- What an accepted archive is, for the results that build on it. -/
theorem sound_of_accepted {source : Bytes} {maxMembers maxCentralDirectoryBytes : ℤ}
    {s : ZipStructure} {reads : List (ℕ × ℕ)}
    (h : inspectZipSource source source.length maxMembers maxCentralDirectoryBytes [] =
      .ok (s, reads)) : Sound source maxMembers s reads := by
  unfold inspectZipSource at h
  rw [scan_bind_eq_ok] at h
  obtain ⟨u, reads₀, hlimits, h⟩ := h
  obtain ⟨-, rfl⟩ := scan_lift_eq_ok.mp hlimits
  rw [scan_check_eq_ok, scan_bind_eq_ok] at h
  obtain ⟨-, ⟨eocdOffset, e⟩, reads₁, heocd, h⟩ := h
  obtain ⟨hsignature, rfl, -, hreads₁⟩ := findEocd_eq_ok heocd
  simp only [scan_check_eq_ok] at h
  obtain ⟨hend, -, h⟩ := h
  rw [not_not] at hend
  rw [scan_bind_eq_ok] at h
  obtain ⟨directory, reads₂, hdirectory, h⟩ := h
  obtain ⟨hplain, hzip64, hreads₂⟩ := directoryOf_eq_ok hdirectory
  simp only [scan_check_eq_ok] at h
  obtain ⟨hmax, -, -, hroom, hoffset, h⟩ := h
  rw [scan_bind_eq_ok] at h
  obtain ⟨entries, reads₃, hentries, h⟩ := h
  obtain ⟨rfl, rfl⟩ := scan_pure_eq_ok.mp h
  unfold inspectCentralDirectory at hentries
  rw [scan_bind_eq_ok] at hentries
  obtain ⟨⟨cursor, found⟩, reads₄, hrecords, hentries⟩ := hentries
  simp only [scan_check_eq_ok, scan_pure_eq_ok] at hentries
  obtain ⟨hcursor, hcount, rfl, rfl⟩ := hentries
  rw [not_not] at hcursor hcount
  have hnone : ∀ r ∈ ([] : List (ℕ × ℕ)), Inside source r := by simp
  have hinside := hreads₂ (hreads₁ hnone)
  obtain ⟨more, hmore, hfrom, hnodup, hreads₃⟩ := inspectRecords_eq_ok (by omega) hrecords
  obtain rfl : found = more := by rwa [List.nil_append] at hmore
  have hdistinct := hnodup List.nodup_nil
  have hfront := hfrom.mem_inFront
  have hheader : ∀ e ∈ found, e.headerOffset < directory.centralOffset +
      (directory.expectedEnd - directory.centralSize - directory.centralOffset) := by
    intro e he
    have h1 := (hfront e he).header
    have h2 := (hfront e he).payload
    have hbytes : localHeaderBytes = 30 := rfl
    omega
  have hstop : directory.centralOffset +
      (directory.expectedEnd - directory.centralSize - directory.centralOffset) +
        directory.centralSize = directory.expectedEnd := by omega
  have hoffsets : (withUpperBounds (directory.centralOffset +
      (directory.expectedEnd - directory.centralSize - directory.centralOffset)) found).map
        ZipMemberStructure.headerOffset = found.map ZipMemberStructure.headerOffset := by
    rw [withUpperBounds, List.map_map]
    rfl
  refine ⟨⟨directory.expectedEnd - directory.centralSize - directory.centralOffset, ?_⟩, ?_,
    not_lt.mp hmax, ?_, ?_, ?_, ⟨⟨eocdOffset, hsignature, hend, ?_, ?_, ?_⟩⟩, ?_⟩
  · rw [hcursor] at hfrom
    exact hfrom.map_upperBound _
  · have hordinals := hfrom.ordinals
    rw [List.length_nil, hcount, ← List.range_eq_range'] at hordinals
    rw [← hordinals]
    show (withUpperBounds _ found).map _ = _
    rw [withUpperBounds, List.map_map]
    rfl
  · rw [hoffsets]
    exact hdistinct
  · intro e he
    obtain ⟨item, hitem, bound, rfl, -⟩ := mem_withUpperBounds hdistinct hheader he
    exact ⟨(hfront item hitem).header, (hfront item hitem).payload⟩
  · intro e he
    obtain ⟨item, hitem, bound, rfl, hbound⟩ := mem_withUpperBounds hdistinct hheader he
    refine ⟨hbound.1.1, hbound.2 ⟨hheader item hitem, Or.inl rfl⟩, ?_⟩
    rw [hoffsets]
    exact hbound
  · exact decide_eq_true_iff
  · intro hplain'
    rw [hstop]
    exact hplain (of_decide_eq_false hplain')
  · intro hzip64'
    rw [hstop]
    exact hzip64 (of_decide_eq_true hzip64')
  · exact hreads₃ hinside

/-- **The preflight is sound.** -/
theorem inspectZipSource_sound {source : Bytes} {maxMembers maxCentralDirectoryBytes : ℤ}
    {s : ZipStructure} {reads : List (ℕ × ℕ)}
    (h : inspectZipSource source source.length maxMembers maxCentralDirectoryBytes [] =
      .ok (s, reads)) : Sound source maxMembers s reads :=
  sound_of_accepted h

/-- Two stored members, `a` and `b`, behind a stub of two bytes; the directory keeps the sizes of `b` in
a ZIP64 extra field. -/
def sampleArchive : Bytes :=
  [0x23, 0x21] ++ packLocal 0 1 1 [0x61] ++ [0x78] ++ packLocal 0 2 2 [0x62] ++ [0x79, 0x7a] ++
    packCentral 0 1 1 0 [0x61] ++ packCentralZip64 0 2 2 32 [0x62] ++ packEnd 2 114 65

theorem inspectZipSource_sound_sample : ∃ s reads,
    inspectZipSource sampleArchive sampleArchive.length 10 1000 [] = .ok (s, reads) ∧
      s.entries.map (fun e => (e.headerOffset, e.compressedSize, e.upperBound)) =
        [(2, 1, 34), (34, 2, 67)] ∧
      Sound sampleArchive 10 s reads := by
  have hrun : (inspectZipSource sampleArchive sampleArchive.length 10 1000 []).toOption.map
      (fun r => r.1.entries.map fun e => (e.headerOffset, e.compressedSize, e.upperBound)) =
        some [(2, 1, 34), (34, 2, 67)] := by decide +kernel
  cases h : inspectZipSource sampleArchive sampleArchive.length 10 1000 [] with
  | error e =>
    rw [h] at hrun
    cases hrun
  | ok r =>
    rw [h] at hrun
    exact ⟨r.1, r.2, rfl, Option.some.inj hrun, inspectZipSource_sound h⟩

end Archive
end Neocortex
