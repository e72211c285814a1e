import Neocortex.Artifacts.Registration

/-!
# What a publication leaves

The outcome of `writeJsonAtomic` in each of its cases, and what a reader finds behind each of its
steps.  A publication makes one inode, the next free one, and gives it at most two names: its
temporary name, and the name of the manifest.  So a look at any other name finds what it found before
(`stat_append`), unless the manifest that is replaced has further names, which no reader accepts.

* `writeJsonAtomic_published`, `writeJsonAtomic_conflict`, `writeJsonAtomic_replaced`: the steps.
* `stat_staged`, `stat_linked`, `stat_published`, `stat_replaced`: the looks behind them.
-/

namespace Neocortex
namespace Artifacts

open Python Durable

/-! ## Directories -/

namespace Directory

/-- What a file system keeps: one entry for a name, and an inode behind every entry. -/
structure Wf (d : Directory) : Prop where
  names : (d.entries.map Prod.fst).Nodup
  inodes : ∀ entry ∈ d.entries, entry.2 < d.nodes.length

variable {d : Directory} {name m : Text} {i : ℕ}

theorem find_eq_none : d.find name = none ↔ ∀ entry ∈ d.entries, entry.1 ≠ name := by
  rw [find, List.lookup_eq_none_iff]
  constructor
  · intro h entry hentry heq
    have := h entry hentry
    rw [heq] at this
    simp at this
  · intro h entry hentry
    have := h entry hentry
    simpa using Ne.symm this

theorem mem_of_find (h : d.find name = some i) : (name, i) ∈ d.entries := by
  obtain ⟨l₁, l₂, hl, -⟩ := List.lookup_eq_some_iff.mp h
  rw [hl]
  simp

/-- Two entries of one name are the same. -/
theorem Wf.entry_eq (hd : d.Wf) {a b : Text × ℕ} (ha : a ∈ d.entries) (hb : b ∈ d.entries)
    (h : a.1 = b.1) : a = b := List.inj_on_of_nodup_map hd.names ha hb h

theorem find_eq_some (hd : d.Wf) : d.find name = some i ↔ (name, i) ∈ d.entries := by
  refine ⟨mem_of_find, fun h => ?_⟩
  cases hf : d.find name with
  | none => exact absurd rfl (find_eq_none.mp hf _ h)
  | some j =>
    have hsame := hd.entry_eq h (mem_of_find hf) rfl
    rw [(Prod.mk.inj hsame).2]

/-- A file that is written holds the payload, and no other inode changes. -/
theorem fill_create (name : Text) (content : Content) :
    (d.create name).fill d.nodes.length content =
      ⟨d.entries ++ [(name, d.nodes.length)], d.nodes ++ [⟨.regular, true, true, content⟩]⟩ := by
  rw [fill, create]
  congr 1
  refine List.ext_getElem? fun k => ?_
  rw [List.getElem?_modify]
  rcases lt_trichotomy k d.nodes.length with hk | rfl | hk
  · have hne : d.nodes.length ≠ k := by omega
    rw [List.getElem?_append_left hk, List.getElem?_append_left hk]
    simp [hne]
  · simp
  · rw [List.getElem?_eq_none (by simp; omega), List.getElem?_eq_none (by simp; omega)]
    rfl

theorem filter_names_of_find_eq_none (h : d.find name = none) :
    (d.entries.filter fun entry => entry.1 ≠ name) = d.entries := by
  rw [List.filter_eq_self]
  intro entry hentry
  simpa using find_eq_none.mp h entry hentry

/-- A publication that only adds names of its own inode changes no other name. -/
theorem stat_append (hd : d.Wf) (entries : List (Text × ℕ)) (nodes : List Node)
    (hm : ∀ entry ∈ entries, entry.1 ≠ m) (hi : ∀ entry ∈ entries, entry.2 = d.nodes.length) :
    (⟨d.entries ++ entries, d.nodes ++ nodes⟩ : Directory).stat m = d.stat m := by
  have hfind : (⟨d.entries ++ entries, d.nodes ++ nodes⟩ : Directory).find m = d.find m := by
    have hnone : entries.lookup m = none := find_eq_none (d := ⟨entries, []⟩).mpr hm
    rw [find, List.lookup_append, hnone, Option.or_none, find]
  rw [stat, stat, hfind]
  cases hf : d.find m with
  | none => rfl
  | some j =>
    have hj : j < d.nodes.length := hd.inodes _ (mem_of_find hf)
    have hlinks : (⟨d.entries ++ entries, d.nodes ++ nodes⟩ : Directory).links j = d.links j := by
      have hnew : (entries.countP fun entry => entry.2 = j) = 0 := by
        rw [List.countP_eq_zero]
        intro entry hentry
        have := hi entry hentry
        simp only [decide_eq_true_eq]
        omega
      rw [links, List.countP_append, hnew, Nat.add_zero, links]
    simp only [Option.bind_eq_bind, Option.bind_some, List.getElem?_append_left hj, hlinks]

/-- No entry of a directory leads to the next free inode. -/
theorem links_length (hd : d.Wf) : d.links d.nodes.length = 0 := by
  rw [links, List.countP_eq_zero]
  intro entry hentry
  have := hd.inodes entry hentry
  simp only [decide_eq_true_eq]
  omega

/-- The new inode of a publication, under a name that no older entry has. -/
theorem stat_new (hd : d.Wf) (hname : d.find name = none) (before after : List (Text × ℕ))
    (node : Node) (hbefore : ∀ entry ∈ before, entry.1 ≠ name) :
    (⟨d.entries ++ (before ++ (name, d.nodes.length) :: after), d.nodes ++ [node]⟩ : Directory).stat name =
      some (node, (before ++ (name, d.nodes.length) :: after).countP fun entry =>
        entry.2 = d.nodes.length) := by
  have hnone : before.lookup name = none := find_eq_none (d := ⟨before, []⟩).mpr hbefore
  have hold : d.entries.lookup name = none := hname
  have hlinks : (d.entries.countP fun entry => entry.2 = d.nodes.length) = 0 := links_length hd
  rw [stat, find, List.lookup_append, List.lookup_append, hold, hnone]
  simp [links, List.countP_append, hlinks]

end Directory

/-! ## The steps of a publication -/

section Steps

variable {d : Directory} {name m token : Text} {payload : Payload} {exclusive : Bool}

/-- The new inode of a publication. -/
def manifestNode (payload : Payload) : Node := ⟨.regular, true, true, .manifest payload⟩

/-- The temporary is written. -/
def Directory.staged (d : Directory) (temporary : Text) (payload : Payload) : Directory :=
  ⟨d.entries ++ [(temporary, d.nodes.length)], d.nodes ++ [manifestNode payload]⟩

/-- The manifest has its name, next to the temporary one. -/
def Directory.linked (d : Directory) (temporary name : Text) (payload : Payload) : Directory :=
  ⟨d.entries ++ [(temporary, d.nodes.length), (name, d.nodes.length)],
    d.nodes ++ [manifestNode payload]⟩

/-- The manifest is published. -/
def Directory.published (d : Directory) (name : Text) (payload : Payload) : Directory :=
  ⟨d.entries ++ [(name, d.nodes.length)], d.nodes ++ [manifestNode payload]⟩

/-- The temporary of a publication that was refused is gone again. -/
def Directory.discarded (d : Directory) (payload : Payload) : Directory :=
  ⟨d.entries, d.nodes ++ [manifestNode payload]⟩

/-- The manifest is published over an older one. -/
def Directory.replaced (d : Directory) (name : Text) (payload : Payload) : Directory :=
  ⟨(d.entries.filter fun entry => entry.1 ≠ name) ++ [(name, d.nodes.length)],
    d.nodes ++ [manifestNode payload]⟩

theorem temporaryName_ne (name token : Text) : temporaryName name token ≠ name := by
  intro h
  have := congrArg List.length h
  simp [temporaryName, lit] at this
  omega

/-- The directory behind the write of the temporary. -/
theorem fill_create_eq_staged (d : Directory) (temporary : Text) (payload : Payload) :
    (d.create temporary).fill d.nodes.length (.manifest payload) = d.staged temporary payload :=
  Directory.fill_create temporary (.manifest payload)

theorem find_staged (hm : temporaryName name token ≠ m) :
    (d.staged (temporaryName name token) payload).find m = d.find m := by
  have hnone : [(temporaryName name token, d.nodes.length)].lookup m = none :=
    Directory.find_eq_none (d := ⟨_, []⟩).mpr (by simpa using hm)
  rw [Directory.find, Directory.staged, List.lookup_append, hnone, Option.or_none, Directory.find]

theorem link_staged : (d.staged (temporaryName name token) payload).link d.nodes.length name =
    d.linked (temporaryName name token) name payload := by
  simp [Directory.link, Directory.staged, Directory.linked]

theorem unlink_staged (ht : d.find (temporaryName name token) = none) :
    (d.staged (temporaryName name token) payload).unlink (temporaryName name token) =
      d.discarded payload := by
  rw [Directory.unlink, Directory.staged, List.filter_append, Directory.filter_names_of_find_eq_none ht]
  simp [Directory.discarded]

theorem unlink_linked (ht : d.find (temporaryName name token) = none) :
    (d.linked (temporaryName name token) name payload).unlink (temporaryName name token) =
      d.published name payload := by
  have hne : name ≠ temporaryName name token := (temporaryName_ne name token).symm
  rw [Directory.unlink, Directory.linked, List.filter_append, Directory.filter_names_of_find_eq_none ht]
  simp [Directory.published, hne]

theorem replace_staged (ht : d.find (temporaryName name token) = none) :
    (d.staged (temporaryName name token) payload).replace d.nodes.length (temporaryName name token)
      name = d.replaced name payload := by
  have hold : (d.entries.filter fun entry =>
      decide (entry.1 ≠ temporaryName name token ∧ entry.1 ≠ name)) =
      d.entries.filter fun entry => entry.1 ≠ name := by
    refine List.filter_congr fun entry hentry => ?_
    have := Directory.find_eq_none.mp ht entry hentry
    simp [this]
  rw [Directory.replace, Directory.staged, List.filter_append, hold]
  simp [Directory.replaced]

/-! ### Its outcomes -/

theorem writeJsonAtomic_oversized (h : ¬ payload.encodedSize ≤ maxManifestBytes) :
    writeJsonAtomic name token payload exclusive d =
      ⟨[], .error (.value "artifact manifest exceeds the durable size limit")⟩ := by
  rw [writeJsonAtomic, need, decide_eq_false h]
  rfl

/-- The behaviour behind the checks. -/
theorem writeJsonAtomic_admitted (h : payload.encodedSize ≤ maxManifestBytes)
    (ht : d.find (temporaryName name token) = none) :
    writeJsonAtomic name token payload exclusive d =
      ⟨d.create (temporaryName name token) ::
        ((fillAndPublish d.nodes.length (temporaryName name token) name payload exclusive).handle
          (discardTemporary (temporaryName name token)) (d.create (temporaryName name token))).writes,
        ((fillAndPublish d.nodes.length (temporaryName name token) name payload exclusive).handle
          (discardTemporary (temporaryName name token)) (d.create (temporaryName name token))).result⟩ := by
  rw [writeJsonAtomic, need, decide_eq_true h, if_pos rfl, Program.ok_bind, Program.read_bind, ht]
  rfl

theorem writeJsonAtomic_taken (h : payload.encodedSize ≤ maxManifestBytes)
    (ht : d.find (temporaryName name token) ≠ none) :
    writeJsonAtomic name token payload exclusive d = ⟨[], .error .fileExists⟩ := by
  obtain ⟨i, hi⟩ := Option.ne_none_iff_exists'.mp ht
  rw [writeJsonAtomic, need, decide_eq_true h, if_pos rfl, Program.ok_bind, Program.read_bind, hi]
  rfl

theorem fillAndPublish_eq (d : Directory) (temporary name : Text) (payload : Payload)
    (exclusive : Bool) :
    fillAndPublish d.nodes.length temporary name payload exclusive (d.create temporary) =
      ⟨d.staged temporary payload ::
        (publishTemporary d.nodes.length temporary name exclusive (d.staged temporary payload)).writes,
        (publishTemporary d.nodes.length temporary name exclusive
          (d.staged temporary payload)).result⟩ := by
  rw [fillAndPublish, Program.read_bind, fill_create_eq_staged, Program.write_bind]

/-- An exclusive publication under a free name: temporary, content, link, unlink. -/
theorem writeJsonAtomic_published (h : payload.encodedSize ≤ maxManifestBytes)
    (ht : d.find (temporaryName name token) = none) (hn : d.find name = none) :
    writeJsonAtomic name token payload true d =
      ⟨[d.create (temporaryName name token), d.staged (temporaryName name token) payload,
        d.linked (temporaryName name token) name payload, d.published name payload], .ok ()⟩ := by
  have hpublish : publishTemporary d.nodes.length (temporaryName name token) name true
      (d.staged (temporaryName name token) payload) =
      ⟨[d.linked (temporaryName name token) name payload, d.published name payload], .ok ()⟩ := by
    rw [publishTemporary, Program.read_bind, if_pos rfl, find_staged (temporaryName_ne name token), hn,
      if_neg (by simp), Program.write_bind, link_staged, unlink_linked ht]
    rfl
  have hfill := fillAndPublish_eq d (temporaryName name token) name payload true
  rw [hpublish] at hfill
  rw [writeJsonAtomic_admitted h ht, Program.handle_of_ok hfill]

/-- An exclusive publication under a name that is in use: the temporary is discarded. -/
theorem writeJsonAtomic_conflict (h : payload.encodedSize ≤ maxManifestBytes)
    (ht : d.find (temporaryName name token) = none) (hn : d.find name ≠ none) :
    writeJsonAtomic name token payload true d =
      ⟨[d.create (temporaryName name token), d.staged (temporaryName name token) payload,
        d.discarded payload], .error .fileExists⟩ := by
  have hpublish : publishTemporary d.nodes.length (temporaryName name token) name true
      (d.staged (temporaryName name token) payload) = ⟨[], .error .fileExists⟩ := by
    rw [publishTemporary, Program.read_bind, if_pos rfl, find_staged (temporaryName_ne name token),
      if_pos (Option.isSome_iff_ne_none.mpr hn)]
    rfl
  have hfill := fillAndPublish_eq d (temporaryName name token) name payload true
  rw [hpublish] at hfill
  rw [writeJsonAtomic_admitted h ht, Program.handle_of_error hfill, discardTemporary,
    Program.read_bind, Program.write_bind, List.getLast?_singleton, Option.getD_some, unlink_staged ht]
  rfl

/-- A publication over an older manifest: temporary, content, rename. -/
theorem writeJsonAtomic_replaced (h : payload.encodedSize ≤ maxManifestBytes)
    (ht : d.find (temporaryName name token) = none) :
    writeJsonAtomic name token payload false d =
      ⟨[d.create (temporaryName name token), d.staged (temporaryName name token) payload,
        d.replaced name payload], .ok ()⟩ := by
  have hpublish : publishTemporary d.nodes.length (temporaryName name token) name false
      (d.staged (temporaryName name token) payload) = ⟨[d.replaced name payload], .ok ()⟩ := by
    rw [publishTemporary, Program.read_bind, if_neg Bool.false_ne_true, replace_staged ht]
    rfl
  have hfill := fillAndPublish_eq d (temporaryName name token) name payload false
  rw [hpublish] at hfill
  rw [writeJsonAtomic_admitted h ht, Program.handle_of_ok hfill]

/-! ### What a reader finds behind them -/

theorem stat_create (hd : d.Wf) {temporary : Text} (hm : temporary ≠ m) :
    (d.create temporary).stat m = d.stat m :=
  Directory.stat_append hd _ _ (by simpa using hm) (by simp)

theorem stat_staged (hd : d.Wf) {temporary : Text} (hm : temporary ≠ m) :
    (d.staged temporary payload).stat m = d.stat m :=
  Directory.stat_append hd _ _ (by simpa using hm) (by simp)

theorem stat_discarded (hd : d.Wf) (m : Text) : (d.discarded payload).stat m = d.stat m := by
  have h := Directory.stat_append hd (m := m) [] [manifestNode payload] (by simp) (by simp)
  rw [List.append_nil] at h
  exact h

variable (payload) in
theorem stat_published_other (hd : d.Wf) (hm : name ≠ m) :
    (d.published name payload).stat m = d.stat m :=
  Directory.stat_append hd _ _ (by simpa using hm) (by simp)

/-- Between the link and the unlink the manifest has two names. -/
theorem stat_linked (hd : d.Wf) (hn : d.find name = none) :
    (d.linked (temporaryName name token) name payload).stat name = some (manifestNode payload, 2) := by
  have h := Directory.stat_new hd hn [(temporaryName name token, d.nodes.length)] []
    (manifestNode payload) (by simpa using temporaryName_ne name token)
  rw [Directory.linked]
  simpa using h

variable (payload) in
theorem stat_published (hd : d.Wf) (hn : d.find name = none) :
    (d.published name payload).stat name = some (manifestNode payload, 1) := by
  have h := Directory.stat_new hd hn [] [] (manifestNode payload) (by simp)
  rw [Directory.published]
  simpa using h

/-- The directory without the entry of a name. -/
theorem wf_without (hd : d.Wf) (name : Text) :
    (⟨d.entries.filter fun entry => entry.1 ≠ name, d.nodes⟩ : Directory).Wf where
  names := hd.names.sublist ((List.filter_sublist).map Prod.fst)
  inodes entry hentry := hd.inodes entry (List.mem_of_mem_filter hentry)

theorem stat_replaced (hd : d.Wf) : (d.replaced name payload).stat name =
    some (manifestNode payload, 1) := by
  have hn : (⟨d.entries.filter fun entry => entry.1 ≠ name, d.nodes⟩ : Directory).find name = none := by
    rw [Directory.find_eq_none]
    intro entry hentry
    simpa using (List.mem_filter.mp hentry).2
  have h := stat_published payload (wf_without hd name) hn
  exact h

theorem links_of_stat {node : Node} {n : ℕ} (h : d.stat name = some (node, n)) :
    ∃ i, d.find name = some i ∧ d.links i = n := by
  simp only [Directory.stat, Checks.bind_eq_some, Checks.pure_eq_some, Prod.mk.injEq] at h
  obtain ⟨i, hi, _, _, _, hn⟩ := h
  exact ⟨i, hi, hn⟩

/-- An inode with one link has one name. -/
theorem name_eq_of_links {i : ℕ} (h : d.links i = 1) (hn : (name, i) ∈ d.entries)
    (hm : (m, i) ∈ d.entries) : name = m := by
  rw [Directory.links, List.countP_eq_length_filter, List.length_eq_one_iff] at h
  obtain ⟨entry, hentry⟩ := h
  have hn' : (name, i) ∈ d.entries.filter fun entry => entry.2 = i := by simpa using hn
  have hm' : (m, i) ∈ d.entries.filter fun entry => entry.2 = i := by simpa using hm
  rw [hentry, List.mem_singleton] at hn' hm'
  exact congrArg Prod.fst (hn'.trans hm'.symm)

/-- A rename over a file with one name changes no other name. -/
theorem stat_replaced_other (hd : d.Wf) (hm : name ≠ m) {node : Node}
    (hn : d.stat name = some (node, 1)) : (d.replaced name payload).stat m = d.stat m := by
  have hnew := stat_published_other payload (wf_without hd name) hm
  refine Eq.trans hnew ?_
  obtain ⟨k, hk, hlinks⟩ := links_of_stat hn
  have hfind : (⟨d.entries.filter fun entry => entry.1 ≠ name, d.nodes⟩ : Directory).find m =
      d.find m := by
    refine Option.ext fun j => ?_
    rw [Directory.find_eq_some (wf_without hd name),
      Directory.find_eq_some hd, List.mem_filter]
    simp [hm.symm]
  rw [Directory.stat, Directory.stat, hfind]
  cases hj : d.find m with
  | none => rfl
  | some j =>
    -- the one entry that goes leads to another inode than that of `m`
    have hne : k ≠ j := by
      rintro rfl
      exact hm (name_eq_of_links hlinks (Directory.mem_of_find hk) (Directory.mem_of_find hj))
    have hcount : (⟨d.entries.filter fun entry => entry.1 ≠ name, d.nodes⟩ : Directory).links j =
        d.links j := by
      rw [Directory.links, List.countP_filter, Directory.links]
      refine List.countP_congr fun entry hentry => ?_
      simp only [Bool.and_eq_true, decide_eq_true_eq, and_iff_left_iff_imp]
      intro heq hname
      have hsame := hd.entry_eq hentry (Directory.mem_of_find hk) hname
      rw [hsame] at heq
      exact hne heq
    simp only [Option.bind_eq_bind, Option.bind_some, hcount]

end Steps

end Artifacts
end Neocortex
