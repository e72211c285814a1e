import Neocortex.Archive.Preflight

/-!
# Members that share bytes

The preflight bounds every member by the directory, not by the next local header: a payload may run
over the members behind it.  `upper_bound` is where the next header begins, and the raw recovery of a
member does not read behind it.

* `recovery_reads`: a recovery reads between the header of its member and its upper bound.
* `extents_disjoint`: what the preflight promises of extents, and that recoveries of two members share
  no byte.
-/

namespace Neocortex
namespace Archive

open Python Checks

/-! ## Reads of a recovery -/

section Recovery

variable {source : Bytes} {reads reads' : List (ℕ × ℕ)}

theorem readChunks_eq_ok {turns position remaining : ℕ} {payload : Bytes}
    (h : readChunks source turns position remaining reads = .ok (payload, reads')) :
    ∃ more, reads' = reads ++ more ∧
      ∀ r ∈ more, position ≤ r.1 ∧ r.1 + r.2 ≤ position + remaining := by
  induction turns generalizing position remaining payload reads with
  | zero =>
    obtain ⟨-, rfl⟩ := scan_pure_eq_ok.mp h
    exact ⟨[], by simp, by simp⟩
  | succ turns ih =>
    cases remaining with
    | zero =>
      obtain ⟨-, rfl⟩ := scan_pure_eq_ok.mp h
      exact ⟨[], by simp, by simp⟩
    | succ remaining =>
      rw [readChunks, scan_bind_eq_ok] at h
      obtain ⟨u, reads₁, hmodify, h⟩ := h
      obtain rfl : reads ++ [(position, min (64 * 1024) (remaining + 1))] = reads₁ := by
        cases hmodify
        rfl
      rw [scan_check_eq_ok, scan_bind_eq_ok] at h
      obtain ⟨-, rest, reads₂, hrest, h⟩ := h
      obtain ⟨-, rfl⟩ := scan_pure_eq_ok.mp h
      obtain ⟨more, rfl, hmore⟩ := ih hrest
      have hchunk := length_slice source position (min (64 * 1024) (remaining + 1))
      refine ⟨(position, min (64 * 1024) (remaining + 1)) :: more, by simp, ?_⟩
      intro r hr
      rcases List.mem_cons.mp hr with rfl | hr
      · exact ⟨le_rfl, by show position + min _ _ ≤ _; omega⟩
      · have := hmore r hr
        omega

theorem rawMemberPayloadOffset_eq_ok {headerOffset compressedSize upperBound payloadOffset : ℕ}
    (h : rawMemberPayloadOffset source headerOffset compressedSize upperBound reads =
      .ok (payloadOffset, reads')) :
    payloadOffset = headerOffset + localHeaderBytes + (localAt source headerOffset).nameLength +
        (localAt source headerOffset).extraLength ∧
      payloadOffset + compressedSize ≤ upperBound ∧
      reads' = reads ++ [(headerOffset, localHeaderBytes)] := by
  unfold rawMemberPayloadOffset at h
  rw [scan_bind_eq_ok] at h
  obtain ⟨header, reads₁, hheader, h⟩ := h
  obtain ⟨rfl, -, rfl⟩ := readExact_eq_ok.mp hheader
  simp only [scan_check_eq_ok, scan_pure_eq_ok] at h
  obtain ⟨-, -, -, -, hfits, rfl, rfl⟩ := h
  exact ⟨rfl, not_lt.mp hfits, rfl⟩

/-- A recovery reads between the header and the upper bound. -/
theorem recovery_reads {inflate : Bytes → ℤ → Except ZipError Bytes}
    {headerOffset compressedSize upperBound : ℕ} {maxCompressedBytes maxOutputBytes : ℤ}
    {payload : Bytes}
    (h : readRawDeflateMember inflate source headerOffset compressedSize upperBound
      maxCompressedBytes maxOutputBytes [] = .ok (payload, reads)) :
    headerOffset + localHeaderBytes + (localAt source headerOffset).nameLength +
        (localAt source headerOffset).extraLength + compressedSize ≤ upperBound ∧
      ∀ r ∈ reads, headerOffset ≤ r.1 ∧ r.1 + r.2 ≤ upperBound := by
  unfold readRawDeflateMember at h
  simp only [Int.toNat_natCast] at h
  rw [scan_bind_eq_ok] at h
  obtain ⟨u, reads₀, hbounds, h⟩ := h
  obtain ⟨-, rfl⟩ := scan_lift_eq_ok.mp hbounds
  rw [scan_bind_eq_ok] at h
  obtain ⟨payloadOffset, reads₁, hoffset, h⟩ := h
  obtain ⟨rfl, hfits, rfl⟩ := rawMemberPayloadOffset_eq_ok hoffset
  rw [scan_bind_eq_ok] at h
  obtain ⟨compressed, reads₂, hchunks, h⟩ := h
  obtain ⟨more, rfl, hmore⟩ := readChunks_eq_ok hchunks
  obtain ⟨-, rfl⟩ := scan_lift_eq_ok.mp h
  refine ⟨hfits, fun r hr => ?_⟩
  rcases List.mem_append.mp hr with hr | hr
  · rw [List.nil_append, List.mem_singleton] at hr
    subst hr
    exact ⟨le_rfl, by show headerOffset + localHeaderBytes ≤ upperBound; omega⟩
  · have := hmore r hr
    omega

theorem eq_ok_of_toOption {α : Type} {x : Except ZipError α} {a : α} (h : x.toOption = some a) :
    x = .ok a := by
  cases x with
  | error e => cases h
  | ok b => rw [Option.some.inj h]

end Recovery

/-! ## Extents -/

/-- The reads share no byte. -/
def Apart (r t : ℕ × ℕ) : Prop := r.1 + r.2 ≤ t.1 ∨ t.1 + t.2 ≤ r.1

/-- A recovery of the entry that returns, with its reads. -/
def Recovers (inflate : Bytes → ℤ → Except ZipError Bytes) (source : Bytes)
    (maxCompressedBytes maxOutputBytes : ℤ) (e : ZipMemberStructure) (reads : List (ℕ × ℕ)) : Prop :=
  ∃ payload, readRawDeflateMember inflate source e.headerOffset e.compressedSize e.upperBound
    maxCompressedBytes maxOutputBytes [] = .ok (payload, reads)

theorem RecordsFrom.mem_describes {source : Bytes}
    {offsetAdjustment centralDirectoryOffset stop cursor ordinal : ℕ}
    {entries : List ZipMemberStructure}
    (h : RecordsFrom source offsetAdjustment centralDirectoryOffset stop cursor ordinal entries) :
    ∀ e ∈ entries, ∃ c, Describes source offsetAdjustment c e := by
  induction h with
  | nil => simp
  | cons hdescribes _ _ _ ih => exact List.forall_mem_cons.mpr ⟨⟨_, hdescribes⟩, ih⟩

section Extents

variable {source : Bytes} {maxMembers : ℤ} {s : ZipStructure} {reads : List (ℕ × ℕ)}

theorem Sound.upperBound_le (h : Sound source maxMembers s reads) {e f : ZipMemberStructure}
    (he : e ∈ s.entries) (hf : f ∈ s.entries) (hlt : e.headerOffset < f.headerOffset) :
    e.upperBound ≤ f.headerOffset :=
  (h.upperBound e he).2.2.2 ⟨hlt, Or.inr (List.mem_map_of_mem hf)⟩

theorem Sound.headerOffset_ne (h : Sound source maxMembers s reads) {e f : ZipMemberStructure}
    (he : e ∈ s.entries) (hf : f ∈ s.entries) (hne : e ≠ f) : e.headerOffset ≠ f.headerOffset :=
  fun heq => hne (List.inj_on_of_nodup_map h.distinct he hf heq)

theorem Sound.recoveries_apart (h : Sound source maxMembers s reads)
    {inflate inflate' : Bytes → ℤ → Except ZipError Bytes}
    {maxCompressedBytes maxOutputBytes maxCompressedBytes' maxOutputBytes' : ℤ}
    {e f : ZipMemberStructure} {ereads freads : List (ℕ × ℕ)} (he : e ∈ s.entries)
    (hf : f ∈ s.entries) (hlt : e.headerOffset < f.headerOffset)
    (here : Recovers inflate source maxCompressedBytes maxOutputBytes e ereads)
    (hfre : Recovers inflate' source maxCompressedBytes' maxOutputBytes' f freads) :
    ∀ r ∈ ereads, ∀ t ∈ freads, r.1 + r.2 ≤ t.1 := by
  obtain ⟨_, here⟩ := here
  obtain ⟨_, hfre⟩ := hfre
  intro r hr t ht
  have hbound := h.upperBound_le he hf hlt
  have hr' := ((recovery_reads here).2 r hr).2
  have ht' := ((recovery_reads hfre).2 t ht).1
  omega

end Extents

/-- **Extents.**  They end in front of the directory; a member that ends by its upper bound shares no
byte with a member behind it; and the recoveries of two members share none. -/
theorem extents_disjoint {source : Bytes} {maxMembers maxCentralDirectoryBytes : ℤ}
    {s : ZipStructure} {reads : List (ℕ × ℕ)}
    (h : inspectZipSource source source.length maxMembers maxCentralDirectoryBytes [] =
      .ok (s, reads)) :
    (∀ e ∈ s.entries, e.payloadOffset + e.compressedSize ≤ s.centralDirectoryOffset) ∧
      (∀ e ∈ s.entries, ∀ f ∈ s.entries, e.headerOffset < f.headerOffset →
        e.payloadOffset + e.compressedSize ≤ e.upperBound →
        e.payloadOffset + e.compressedSize ≤ f.headerOffset) ∧
      ∀ inflate maxCompressedBytes maxOutputBytes,
        (∀ e ∈ s.entries, ∀ ereads,
          Recovers inflate source maxCompressedBytes maxOutputBytes e ereads →
          e.payloadOffset + e.compressedSize ≤ e.upperBound) ∧
        ∀ maxCompressedBytes' maxOutputBytes', ∀ e ∈ s.entries, ∀ f ∈ s.entries, e ≠ f →
          ∀ ereads freads,
            Recovers inflate source maxCompressedBytes maxOutputBytes e ereads →
            Recovers inflate source maxCompressedBytes' maxOutputBytes' f freads →
            ∀ r ∈ ereads, ∀ t ∈ freads, Apart r t := by
  have hsound := sound_of_accepted h
  refine ⟨fun e he => (hsound.inFront e he).payload, ?_, ?_⟩
  · intro e he f hf hlt hend
    exact hend.trans (hsound.upperBound_le he hf hlt)
  · intro inflate maxCompressedBytes maxOutputBytes
    refine ⟨?_, ?_⟩
    · intro e he ereads hre
      obtain ⟨_, hre⟩ := hre
      obtain ⟨_, hrecords⟩ := hsound.records
      obtain ⟨_, hdescribes⟩ := hrecords.mem_describes e he
      rw [hdescribes.payload]
      exact (recovery_reads hre).1
    · intro maxCompressedBytes' maxOutputBytes' e he f hf hne ereads freads here hfre r hr t ht
      rcases lt_or_gt_of_ne (hsound.headerOffset_ne he hf hne) with hlt | hlt
      · exact Or.inl (hsound.recoveries_apart he hf hlt here hfre r hr t ht)
      · exact Or.inr (hsound.recoveries_apart hf he hlt hfre here t ht r hr)

/-- Two DEFLATE members, `a` and `b`. -/
def deflatedArchive : Bytes :=
  packLocal 8 3 1 [0x61] ++ [0x4b, 0x04, 0x00] ++ packLocal 8 3 1 [0x62] ++ [0x4b, 0x02, 0x00] ++
    packCentral 8 3 1 0 [0x61] ++ packCentral 8 3 1 34 [0x62] ++ packEnd 2 94 68

/-- zlib on the two payloads. -/
def inflateSample (compressed : Bytes) (maxOutputBytes : ℤ) : Except ZipError Bytes :=
  if maxOutputBytes < 1 then .error (.structure_ "ZIP member exceeds its output limit")
  else if compressed = [0x4b, 0x04, 0x00] then .ok [0x61]
  else if compressed = [0x4b, 0x02, 0x00] then .ok [0x62]
  else .error (.zlib "invalid block type")

/-- The member of a header offset in the sample. -/
def deflatedMember (name : Text) (ordinal headerOffset upperBound : ℕ) : ZipMemberStructure where
  ordinal := ordinal
  filename := name
  headerOffset := headerOffset
  payloadOffset := headerOffset + 31
  compressedSize := 3
  uncompressedSize := 1
  crc32 := 0
  compressionMethod := 8
  flags := 0
  upperBound := upperBound
  isDirectory := false

theorem extents_disjoint_sample : ∃ s reads,
    inspectZipSource deflatedArchive deflatedArchive.length 10 1000 [] = .ok (s, reads) ∧
      s.entries = [deflatedMember (lit "a") 0 0 34, deflatedMember (lit "b") 1 34 68] ∧
      Recovers inflateSample deflatedArchive 3 1 (deflatedMember (lit "a") 0 0 34)
        [(0, 30), (31, 3)] ∧
      Recovers inflateSample deflatedArchive 100 10 (deflatedMember (lit "b") 1 34 68)
        [(34, 30), (65, 3)] ∧
      (∀ e ∈ s.entries, e.payloadOffset + e.compressedSize ≤ s.centralDirectoryOffset) ∧
      (deflatedMember (lit "a") 0 0 34).payloadOffset + 3 ≤ 34 ∧
      ∀ r ∈ [(0, 30), (31, 3)], ∀ t ∈ [(34, 30), (65, 3)], Apart r t := by
  have hrun : (inspectZipSource deflatedArchive deflatedArchive.length 10 1000 []).toOption.map
      (fun r => r.1.entries) =
        some [deflatedMember (lit "a") 0 0 34, deflatedMember (lit "b") 1 34 68] := by
    decide +kernel
  have hrecovered : (readRawDeflateMember inflateSample deflatedArchive 0 3 34 3 1 []).toOption =
        some ([0x61], [(0, 30), (31, 3)]) ∧
      (readRawDeflateMember inflateSample deflatedArchive 34 3 68 100 10 []).toOption =
        some ([0x62], [(34, 30), (65, 3)]) := by decide +kernel
  have ha : Recovers inflateSample deflatedArchive 3 1 (deflatedMember (lit "a") 0 0 34)
      [(0, 30), (31, 3)] := ⟨_, eq_ok_of_toOption hrecovered.1⟩
  have hb : Recovers inflateSample deflatedArchive 100 10 (deflatedMember (lit "b") 1 34 68)
      [(34, 30), (65, 3)] := ⟨_, eq_ok_of_toOption hrecovered.2⟩
  cases h : inspectZipSource deflatedArchive deflatedArchive.length 10 1000 [] with
  | error e =>
    rw [h] at hrun
    cases hrun
  | ok r =>
    rw [h] at hrun
    have hentries : r.1.entries =
        [deflatedMember (lit "a") 0 0 34, deflatedMember (lit "b") 1 34 68] := Option.some.inj hrun
    have hmem : deflatedMember (lit "a") 0 0 34 ∈ r.1.entries ∧
        deflatedMember (lit "b") 1 34 68 ∈ r.1.entries := by simp [hentries]
    obtain ⟨hfront, -, hrecoveries⟩ := extents_disjoint h
    obtain ⟨hbound, hapart⟩ := hrecoveries inflateSample 3 1
    exact ⟨r.1, r.2, rfl, hentries, ha, hb, hfront, hbound _ hmem.1 _ ha,
      hapart 100 10 _ hmem.1 _ hmem.2 (by decide) _ _ ha hb⟩

/-- Two members, the header and the payload of the second one inside the payload of the first. -/
def nestedArchive : Bytes :=
  packLocal 0 32 32 [0x61] ++ (packLocal 0 1 1 [0x62] ++ [0x78]) ++
    packCentral 0 32 32 0 [0x61] ++ packCentral 0 1 1 31 [0x62] ++ packEnd 2 94 63

/-- The preflight accepts it, and the extents of the two entries share bytes. -/
theorem nestedArchive_accepted : ∃ s reads,
    inspectZipSource nestedArchive nestedArchive.length 10 1000 [] = .ok (s, reads) ∧
      ∃ e ∈ s.entries, ∃ f ∈ s.entries, e ≠ f ∧ e.headerOffset < f.headerOffset ∧
        f.payloadOffset + f.compressedSize ≤ e.payloadOffset + e.compressedSize ∧
        e.upperBound < e.payloadOffset + e.compressedSize := by
  have hrun : (inspectZipSource nestedArchive nestedArchive.length 10 1000 []).toOption.map
      (fun r => decide (∃ e ∈ r.1.entries, ∃ f ∈ r.1.entries, e ≠ f ∧
        e.headerOffset < f.headerOffset ∧
        f.payloadOffset + f.compressedSize ≤ e.payloadOffset + e.compressedSize ∧
        e.upperBound < e.payloadOffset + e.compressedSize)) = some true := by decide +kernel
  cases h : inspectZipSource nestedArchive nestedArchive.length 10 1000 [] with
  | error e =>
    rw [h] at hrun
    cases hrun
  | ok r =>
    rw [h] at hrun
    exact ⟨r.1, r.2, rfl, of_decide_eq_true (Option.some.inj hrun)⟩

end Archive
end Neocortex
