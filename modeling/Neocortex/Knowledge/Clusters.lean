import Neocortex.Knowledge.Fusion

/-!
# What fusion keeps

No vote is counted twice and none is lost: a hit has at most one signal of each source, and every
aggregate is a hit or was merged into one that has a signal of each of its sources, of a rank that
is no worse.  No two clusters of one revision overlap.  The list that is shown is cut greedily.

* `Grouped`: the aggregates, and the candidates that they were made of;
* `Clustered`: the clusters, and the aggregates that they were made of;
* `fusion_counts_once`: the clusters of a fusion;
* `diversity_greedy`: the hits that are shown of any clusters.
-/

namespace Neocortex
namespace Knowledge

open Python Checks

/-! ## Dictionaries -/

section Dictionaries

variable {κ α : Type} [DecidableEq κ]

theorem mem_of_lookup {items : List (κ × α)} {key : κ} {value : α}
    (h : lookup items key = some value) : (key, value) ∈ items := by
  obtain ⟨item, hitem, rfl⟩ := Option.map_eq_some_iff.mp h
  have hkey := List.find?_some hitem
  rw [decide_eq_true_eq] at hkey
  rw [← hkey]
  exact List.mem_of_find?_eq_some hitem

theorem lookup_eq_none_iff {items : List (κ × α)} {key : κ} :
    lookup items key = none ↔ key ∉ items.map Prod.fst := by
  rw [lookup, Option.map_eq_none_iff, List.find?_eq_none]
  simp only [List.mem_map, decide_eq_true_eq, not_exists, not_and]

theorem map_fst_assign (items : List (κ × α)) (key : κ) (value : α) :
    (assign items key value).map Prod.fst =
      if key ∈ items.map Prod.fst then items.map Prod.fst else items.map Prod.fst ++ [key] := by
  unfold assign
  split_ifs with h
  · rw [List.map_map]
    refine List.map_congr_left fun item _ => ?_
    simp only [Function.comp_apply]
    split_ifs with hitem
    · exact hitem.symm
    · rfl
  · rw [List.map_append, List.map_singleton]

/-- The keys of a dictionary stay distinct. -/
theorem nodup_assign {items : List (κ × α)} (h : (items.map Prod.fst).Nodup) (key : κ) (value : α) :
    ((assign items key value).map Prod.fst).Nodup := by
  rw [map_fst_assign]
  split_ifs with hkey
  · exact h
  · rw [List.nodup_append]
    refine ⟨h, List.nodup_singleton _, ?_⟩
    intro a ha b hb
    rw [List.mem_singleton.mp hb]
    rintro rfl
    exact hkey ha

/-- An item of a dictionary is the assigned one or was there before. -/
theorem mem_assign {items : List (κ × α)} {key : κ} {value : α} {item : κ × α}
    (h : item ∈ assign items key value) :
    item = (key, value) ∨ item ∈ items ∧ item.1 ≠ key := by
  unfold assign at h
  split_ifs at h with hkey
  · obtain ⟨old, hold, rfl⟩ := List.mem_map.mp h
    split_ifs with hne
    · exact Or.inl rfl
    · exact Or.inr ⟨hold, hne⟩
  · rcases List.mem_append.mp h with hold | hnew
    · refine Or.inr ⟨hold, ?_⟩
      rintro rfl
      exact hkey (List.mem_map_of_mem hold)
    · exact Or.inl (List.mem_singleton.mp hnew)

theorem mem_assign_self (items : List (κ × α)) (key : κ) (value : α) :
    (key, value) ∈ assign items key value := by
  unfold assign
  split_ifs with h
  · obtain ⟨item, hitem, hkey⟩ := List.mem_map.mp h
    exact List.mem_map.mpr ⟨item, hitem, if_pos hkey⟩
  · simp

theorem mem_assign_of_ne {items : List (κ × α)} {key : κ} {value : α} {item : κ × α}
    (hitem : item ∈ items) (hne : item.1 ≠ key) : item ∈ assign items key value := by
  unfold assign
  split_ifs with h
  · exact List.mem_map.mpr ⟨item, hitem, if_neg hne⟩
  · exact List.mem_append_left _ hitem

/-- With distinct keys, an item is what a lookup finds. -/
theorem lookup_of_mem {items : List (κ × α)} (h : (items.map Prod.fst).Nodup) {key : κ} {value : α}
    (hmem : (key, value) ∈ items) : lookup items key = some value := by
  induction items with
  | nil => simp at hmem
  | cons item items ih =>
    rw [List.map_cons, List.nodup_cons] at h
    rcases List.mem_cons.mp hmem with rfl | hmem
    · simp [lookup]
    · have hne : item.1 ≠ key := by
        intro heq
        exact h.1 (heq ▸ List.mem_map_of_mem hmem)
      have hrest := ih h.2 hmem
      simpa [lookup, hne] using hrest

end Dictionaries

section Signals

variable {S : Type}

/-! ## Signals of a hit -/

/-- The signals have distinct sources. -/
def SourcesOnce (signals : List (RankingSignal S)) : Prop :=
  (signals.map fun signal => signal.source).Nodup

/-- Among the signals is one of the source, of a rank that is no worse. -/
def Votes (signals : List (RankingSignal S)) (source : Text) (rank : ℕ) : Prop :=
  ∃ signal ∈ signals, signal.source = source ∧ signal.sourceRank ≤ rank

theorem perm_sortedSignals (signals : List (RankingSignal S)) :
    (sortedSignals signals).Perm signals := List.perm_insertionSort _ _

theorem SourcesOnce.perm {signals signals' : List (RankingSignal S)} (h : SourcesOnce signals)
    (hperm : signals'.Perm signals) : SourcesOnce signals' :=
  (hperm.map _).nodup_iff.mpr h

/-- The items of a dictionary of signals by their sources. -/
structure BySource (best : List (Text × RankingSignal S)) : Prop where
  nodup : (best.map Prod.fst).Nodup
  source : ∀ item ∈ best, item.2.source = item.1

theorem BySource.assign {best : List (Text × RankingSignal S)} (h : BySource best)
    (signal : RankingSignal S) : BySource (assign best signal.source signal) := by
  refine ⟨nodup_assign h.nodup _ _, ?_⟩
  intro item hitem
  rcases mem_assign hitem with rfl | ⟨hold, -⟩
  · rfl
  · exact h.source item hold

theorem BySource.keepBest {best : List (Text × RankingSignal S)} (h : BySource best)
    (signal : RankingSignal S) : BySource (keepBest best signal) := by
  unfold Knowledge.keepBest
  split_ifs
  · exact h.assign signal
  · exact h

theorem BySource.sourcesOnce {best : List (Text × RankingSignal S)} (h : BySource best) :
    SourcesOnce (best.map Prod.snd) := by
  have hsame : (best.map Prod.snd).map (fun signal => signal.source) = best.map Prod.fst := by
    rw [List.map_map]
    exact List.map_congr_left fun item hitem => h.source item hitem
  rw [SourcesOnce, hsame]
  exact h.nodup

/-- A merge step takes no vote away. -/
theorem votes_keepBest {best : List (Text × RankingSignal S)} (h : BySource best)
    (signal : RankingSignal S) {source : Text} {rank : ℕ}
    (hvotes : Votes (best.map Prod.snd) source rank ∨
      signal.source = source ∧ signal.sourceRank ≤ rank) :
    Votes ((keepBest best signal).map Prod.snd) source rank := by
  have hcurrent : ∀ current, lookup best signal.source = some current →
      (signal.source, current) ∈ best := fun current => mem_of_lookup
  unfold keepBest
  split_ifs with hbetter
  · rcases hvotes with ⟨old, hold, hsource, hrank⟩ | ⟨hsource, hrank⟩
    · obtain ⟨item, hitem, rfl⟩ := List.mem_map.mp hold
      by_cases hkey : item.1 = signal.source
      · -- the vote is replaced by one of a better rank
        have hlookup : lookup best signal.source = some item.2 :=
          lookup_of_mem h.nodup (hkey ▸ hitem)
        rw [hlookup, Option.all_some, decide_eq_true_eq] at hbetter
        refine ⟨signal, List.mem_map.mpr ⟨_, mem_assign_self _ _ _, rfl⟩, ?_, by omega⟩
        rw [← hsource, h.source item hitem, hkey]
      · exact ⟨item.2, List.mem_map_of_mem (mem_assign_of_ne hitem hkey), hsource, hrank⟩
    · exact ⟨signal, List.mem_map.mpr ⟨_, mem_assign_self _ _ _, rfl⟩, hsource, hrank⟩
  · rcases hvotes with hvotes | ⟨hsource, hrank⟩
    · exact hvotes
    · cases hlookup : lookup best signal.source with
      | none => simp [hlookup] at hbetter
      | some current =>
        rw [hlookup, Option.all_some, decide_eq_true_eq] at hbetter
        have hmem := hcurrent current hlookup
        refine ⟨current, List.mem_map.mpr ⟨_, hmem, rfl⟩, ?_, by omega⟩
        rw [← hsource]
        exact h.source _ hmem

theorem bySource_foldl_keepBest (more : List (RankingSignal S)) :
    ∀ {best : List (Text × RankingSignal S)}, BySource best → BySource (more.foldl keepBest best) := by
  induction more with
  | nil => exact fun h => h
  | cons signal more ih => exact fun h => ih (h.keepBest signal)

theorem votes_foldl_keepBest {source : Text} {rank : ℕ} (more : List (RankingSignal S)) :
    ∀ {best : List (Text × RankingSignal S)}, BySource best →
      (Votes (best.map Prod.snd) source rank ∨ Votes more source rank) →
      Votes ((more.foldl keepBest best).map Prod.snd) source rank := by
  induction more with
  | nil =>
    rintro best - (hvotes | ⟨signal, hsignal, -⟩)
    · exact hvotes
    · simp at hsignal
  | cons first more ih =>
    intro best h hvotes
    refine ih (h.keepBest first) ?_
    rcases hvotes with hvotes | ⟨signal, hsignal, hsource⟩
    · exact Or.inl (votes_keepBest h first (Or.inl hvotes))
    · rcases List.mem_cons.mp hsignal with rfl | hsignal
      · exact Or.inl (votes_keepBest h signal (Or.inr hsource))
      · exact Or.inr ⟨signal, hsignal, hsource⟩

/-- Signals of distinct sources, as a dictionary by their sources. -/
theorem foldl_assign_source (signals : List (RankingSignal S)) (h : SourcesOnce signals) :
    signals.foldl (fun best signal => assign best signal.source signal) [] =
      signals.map fun signal => (signal.source, signal) := by
  induction signals using List.reverseRecOn with
  | nil => rfl
  | append_singleton signals signal ih =>
    rw [SourcesOnce, List.map_append, List.nodup_append] at h
    obtain ⟨hfront, -, hapart⟩ := h
    rw [List.foldl_append, ih hfront, List.map_append]
    show assign _ _ _ = _
    unfold assign
    rw [if_neg]
    · rfl
    · rw [List.map_map]
      intro hmem
      obtain ⟨old, hold, heq⟩ := List.mem_map.mp hmem
      exact hapart old.source (List.mem_map_of_mem hold) signal.source (by simp) heq

/-- The signals of a merged hit: one for each source, and none is lost. -/
theorem mergedSignals_spec {signals : List (RankingSignal S)} (h : SourcesOnce signals)
    (more : List (RankingSignal S)) :
    SourcesOnce (mergedSignals signals more) ∧ ∀ source rank,
      Votes signals source rank ∨ Votes more source rank →
        Votes (mergedSignals signals more) source rank := by
  have hbest : BySource (signals.map fun signal => (signal.source, signal)) := by
    refine ⟨?_, ?_⟩
    · rw [List.map_map]
      exact h
    · intro item hitem
      obtain ⟨signal, -, rfl⟩ := List.mem_map.mp hitem
      rfl
  have hsnd : (signals.map fun signal => (signal.source, signal)).map Prod.snd = signals := by
    rw [List.map_map]
    exact List.map_id' _
  rw [mergedSignals, foldl_assign_source signals h]
  constructor
  · exact (bySource_foldl_keepBest more hbest).sourcesOnce.perm (perm_sortedSignals _)
  · intro source rank hvotes
    have hfolded : Votes ((more.foldl keepBest (signals.map fun signal =>
        (signal.source, signal))).map Prod.snd) source rank := by
      refine votes_foldl_keepBest more hbest ?_
      rw [hsnd]
      exact hvotes
    obtain ⟨signal, hsignal, hrest⟩ := hfolded
    exact ⟨signal, (perm_sortedSignals _).mem_iff.mpr hsignal, hrest⟩

/-! ## Collecting -/

/-- The candidates that wait: those of a ranking have distinct keys. -/
structure Distinct (earlier : List Text) (name : Text) (s : Collection S) : Prop where
  nodup : (s.pending.map fun p => (p.rankingName, p.key)).Nodup
  from_ranking : ∀ p ∈ s.pending, p.rankingName ∈ earlier ∨ p.rankingName = name ∧ p.key ∈ s.seen

theorem Distinct.take {earlier : List Text} {name : Text} (hname : name ∉ earlier)
    {s : Collection S} (h : Distinct earlier name s) (casefold : Text → Text) (includeHistory : Bool)
    (c : KnowledgeCandidate S) : Distinct earlier name (s.take casefold includeHistory name c) := by
  unfold Collection.take
  dsimp only
  split_ifs with hvisible hseen
  · exact ⟨h.nodup, h.from_ranking⟩
  · constructor
    · rw [List.map_append, List.nodup_append]
      refine ⟨h.nodup, List.nodup_singleton _, ?_⟩
      intro a ha b hb
      obtain ⟨p, hp, rfl⟩ := List.mem_map.mp ha
      rw [List.map_singleton, List.mem_singleton] at hb
      rw [hb]
      intro heq
      obtain ⟨hsame, hkey⟩ : p.rankingName = name ∧
          p.key = (canonicalEvidenceKey casefold s.aliases c).1 := Prod.mk.inj heq
      rcases h.from_ranking p hp with hearlier | ⟨-, hold⟩
      · exact hname (hsame ▸ hearlier)
      · exact hseen (hkey ▸ hold)
    · intro p hp
      rcases List.mem_append.mp hp with hp | hp
      · rcases h.from_ranking p hp with hearlier | ⟨hsame, hold⟩
        · exact Or.inl hearlier
        · exact Or.inr ⟨hsame, List.mem_append_left _ hold⟩
      · rw [List.mem_singleton.mp hp]
        exact Or.inr ⟨rfl, by simp⟩
  · exact h

theorem Distinct.foldl {earlier : List Text} {name : Text} (hname : name ∉ earlier)
    (casefold : Text → Text) (includeHistory : Bool) (candidates : List (KnowledgeCandidate S)) :
    ∀ {s : Collection S}, Distinct earlier name s →
      Distinct earlier name (candidates.foldl (Collection.take casefold includeHistory name) s) := by
  induction candidates with
  | nil => exact fun h => h
  | cons c candidates ih => exact fun h => ih (h.take hname casefold includeHistory c)

/-- The candidates of rankings with distinct names. -/
theorem distinct_foldlM (casefold : Text → Text) (includeHistory : Bool)
    (rankings : List (Text × List (KnowledgeCandidate S))) :
    ∀ {earlier : List Text} {s s' : Collection S},
      (earlier ++ rankings.map Prod.fst).Nodup →
      (s.pending.map fun p => (p.rankingName, p.key)).Nodup →
      (∀ p ∈ s.pending, p.rankingName ∈ earlier) →
      rankings.foldlM (Collection.takeRanking casefold includeHistory) s = .ok s' →
      (s'.pending.map fun p => (p.rankingName, p.key)).Nodup ∧
        ∀ p ∈ s'.pending, p.rankingName ∈ earlier ++ rankings.map Prod.fst := by
  induction rankings with
  | nil =>
    intro earlier s s' _ hnodup hfrom hrun
    rw [List.foldlM_nil, pure_eq_ok] at hrun
    rw [← hrun]
    exact ⟨hnodup, fun p hp => by simpa using hfrom p hp⟩
  | cons ranking rankings ih =>
    intro earlier s s' hnames hnodup hfrom hrun
    rw [List.foldlM_cons, bind_eq_ok] at hrun
    obtain ⟨middle, hfirst, hrest⟩ := hrun
    unfold Collection.takeRanking at hfirst
    split_ifs at hfirst
    obtain rfl := Except.ok.inj hfirst
    have hsplit : earlier ++ (ranking :: rankings).map Prod.fst =
        earlier ++ [ranking.1] ++ rankings.map Prod.fst := by simp
    rw [hsplit] at hnames ⊢
    have hname : ranking.1 ∉ earlier := by
      intro hmem
      rw [List.append_assoc, List.nodup_append] at hnames
      exact hnames.2.2 _ hmem _ (by simp) rfl
    have hdistinct := Distinct.foldl hname casefold includeHistory ranking.2
      (s := { s with seen := [] }) ⟨hnodup, fun p hp => Or.inl (hfrom p hp)⟩
    refine ih hnames hdistinct.nodup ?_ hrest
    intro p hp
    rcases hdistinct.from_ranking p hp with hearlier | ⟨hsame, -⟩
    · exact List.mem_append_left _ hearlier
    · rw [hsame]
      simp

/-- The recorded candidates: those of a ranking have distinct keys. -/
theorem recordedCandidates_spec {casefold : Text → Text} {includeHistory : Bool}
    {rankings : List (Text × List (KnowledgeCandidate S))} (hnames : (rankings.map Prod.fst).Nodup)
    {recorded : List (PendingCandidate S)}
    (h : recordedCandidates casefold includeHistory rankings = .ok recorded) :
    (recorded.map fun p => (p.rankingName, p.key)).Nodup ∧
      ∀ p ∈ recorded, p.rankingName ∈ rankings.map Prod.fst := by
  unfold recordedCandidates at h
  rw [bind_eq_ok] at h
  obtain ⟨collection, hcollection, hfilter⟩ := h
  obtain rfl := Except.ok.inj hfilter
  have hperm : ((sortedRankings rankings).map Prod.fst).Perm (rankings.map Prod.fst) :=
    (List.perm_insertionSort _ _).map _
  have hstart : ([] ++ (sortedRankings rankings).map Prod.fst).Nodup :=
    hperm.nodup_iff.mpr hnames
  obtain ⟨hnodup, hfrom⟩ := distinct_foldlM casefold includeHistory (sortedRankings rankings)
    hstart (by simp) (by simp) hcollection
  constructor
  · exact hnodup.sublist (List.filter_sublist.map _)
  · intro p hp
    exact hperm.mem_iff.mp (by simpa using hfrom p (List.mem_filter.mp hp).1)

/-! ## Aggregates -/

/-- A candidate's vote is a signal of an aggregate of its resource and revision. -/
def Aggregated (aggregates : Aggregates S) (p : PendingCandidate S) : Prop :=
  ∃ item ∈ aggregates, item.2.candidate.resource = p.candidate.resource ∧
    item.2.candidate.revision = p.candidate.revision ∧
    ∃ signal ∈ item.2.signals, signal.source = p.rankingName ∧
      signal.sourceRank = p.candidate.signal.sourceRank

/-- The aggregates of some recorded candidates. -/
structure Grouped (done : List (PendingCandidate S)) (aggregates : Aggregates S) : Prop where
  keys : (aggregates.map Prod.fst).Nodup
  once : ∀ item ∈ aggregates, SourcesOnce item.2.signals
  sources : ∀ item ∈ aggregates, ∀ signal ∈ item.2.signals, ∃ p ∈ done,
    p.rankingName = signal.source ∧ p.key = item.1
  votes : ∀ p ∈ done, Aggregated aggregates p

theorem grouped_nil : Grouped (S := S) [] [] :=
  ⟨List.nodup_nil, by simp, by simp, by simp⟩

theorem Grouped.record {scores : Scores S} {done : List (PendingCandidate S)}
    {aggregates aggregates' : Aggregates S} {p : PendingCandidate S} (h : Grouped done aggregates)
    (hnew : (p.rankingName, p.key) ∉ done.map fun p => (p.rankingName, p.key))
    (hrecord : recordCandidate scores aggregates p = .ok aggregates') :
    Grouped (done ++ [p]) aggregates' := by
  unfold recordCandidate at hrecord
  dsimp only at hrecord
  split_ifs at hrecord with hclaims hother
  obtain rfl := Except.ok.inj hrecord
  rw [not_or, not_not, not_not] at hother
  set old := (lookup aggregates p.key).getD ⟨p.candidate, [], [], [], []⟩ with hold
  -- the signals of the aggregate so far
  have holdSignals : SourcesOnce old.signals ∧ ∀ signal ∈ old.signals, ∃ q ∈ done,
      q.rankingName = signal.source ∧ q.key = p.key := by
    cases hlookup : lookup aggregates p.key with
    | none =>
      rw [hlookup] at hold
      rw [hold]
      exact ⟨List.nodup_nil, by simp⟩
    | some a =>
      rw [hlookup] at hold
      rw [hold]
      have hmem := mem_of_lookup hlookup
      exact ⟨h.once _ hmem, h.sources _ hmem⟩
  have hfresh : p.rankingName ∉ old.signals.map fun signal => signal.source := by
    intro hmem
    obtain ⟨signal, hsignal, hsource⟩ := List.mem_map.mp hmem
    obtain ⟨q, hq, hname, hkey⟩ := holdSignals.2 signal hsignal
    exact hnew (List.mem_map.mpr ⟨q, hq, by rw [hname, hkey, hsource]⟩)
  refine ⟨nodup_assign h.keys _ _, ?_, ?_, ?_⟩
  · intro item hitem
    rcases mem_assign hitem with rfl | ⟨hitem, -⟩
    · show ((old.signals ++ [recordedSignal scores p]).map fun signal => signal.source).Nodup
      rw [List.map_append, List.nodup_append]
      refine ⟨holdSignals.1, List.nodup_singleton _, ?_⟩
      intro a ha b hb
      rw [List.map_singleton, List.mem_singleton] at hb
      rw [hb]
      rintro rfl
      exact hfresh ha
    · exact h.once item hitem
  · intro item hitem signal hsignal
    rcases mem_assign hitem with rfl | ⟨hitem, -⟩
    · rcases List.mem_append.mp hsignal with hsignal | hsignal
      · obtain ⟨q, hq, hrest⟩ := holdSignals.2 signal hsignal
        exact ⟨q, List.mem_append_left _ hq, hrest⟩
      · rw [List.mem_singleton.mp hsignal]
        exact ⟨p, by simp, rfl, rfl⟩
    · obtain ⟨q, hq, hrest⟩ := h.sources item hitem signal hsignal
      exact ⟨q, List.mem_append_left _ hq, hrest⟩
  · intro q hq
    rcases List.mem_append.mp hq with hq | hq
    · obtain ⟨item, hitem, hresource, hrevision, signal, hsignal, hsource⟩ := h.votes q hq
      by_cases hkey : item.1 = p.key
      · have hlookup : lookup aggregates p.key = some item.2 := lookup_of_mem h.keys (hkey ▸ hitem)
        rw [hlookup, Option.getD_some] at hold
        refine ⟨_, mem_assign_self _ _ _, ?_, ?_, signal, ?_, hsource⟩
        · rw [← hresource, hold]
        · rw [← hrevision, hold]
        · rw [hold]
          exact List.mem_append_left _ hsignal
      · exact ⟨item, mem_assign_of_ne hitem hkey, hresource, hrevision, signal, hsignal, hsource⟩
    · rw [List.mem_singleton.mp hq]
      exact ⟨_, mem_assign_self _ _ _, hother.1, hother.2, recordedSignal scores p, by simp, rfl, rfl⟩

theorem Grouped.foldlM {scores : Scores S} (recorded : List (PendingCandidate S)) :
    ∀ {done : List (PendingCandidate S)} {aggregates aggregates' : Aggregates S},
      Grouped done aggregates →
      ((done ++ recorded).map fun p => (p.rankingName, p.key)).Nodup →
      recorded.foldlM (recordCandidate scores) aggregates = .ok aggregates' →
      Grouped (done ++ recorded) aggregates' := by
  induction recorded with
  | nil =>
    intro done aggregates aggregates' h _ hrun
    rw [List.foldlM_nil, pure_eq_ok] at hrun
    rw [← hrun, List.append_nil]
    exact h
  | cons p recorded ih =>
    intro done aggregates aggregates' h hnodup hrun
    rw [List.foldlM_cons, bind_eq_ok] at hrun
    obtain ⟨middle, hfirst, hrest⟩ := hrun
    have hsplit : done ++ p :: recorded = done ++ [p] ++ recorded := by simp
    rw [hsplit] at hnodup ⊢
    refine ih (h.record ?_ hfirst) hnodup hrest
    intro hmem
    rw [List.append_assoc, List.map_append, List.nodup_append] at hnodup
    exact hnodup.2.2 _ hmem _ (by simp) rfl

end Signals

section Discoveries

variable {S : Type} [LinearOrder S]

/-! ## Discoveries -/

/-- The aggregates with the discoveries that were looked at. -/
structure Boosted (names : List Text) (before : Aggregates S) (s : Discovering S) : Prop where
  keys : (s.aggregates.map Prod.fst).Nodup
  once : ∀ item ∈ s.aggregates, SourcesOnce item.2.signals
  sources : ∀ item ∈ s.aggregates, ∀ signal ∈ item.2.signals, signal.source ∈ names ∨
    (signal.source, item.2.resourceRevision) ∈ s.seen
  /-- An aggregate keeps its candidate and its signals. -/
  kept : ∀ item ∈ before, ∃ a, (item.1, a) ∈ s.aggregates ∧ a.candidate = item.2.candidate ∧
    ∀ signal ∈ item.2.signals, signal ∈ a.signals

theorem mem_of_bestKey {scores : Scores S} {aggregates : Aggregates S}
    {resourceRevision : Text × Text} {key : EvidenceKey}
    (h : bestKey scores aggregates resourceRevision = some key) :
    ∃ item ∈ aggregates, item.1 = key ∧ item.2.resourceRevision = resourceRevision := by
  obtain ⟨item, hitem, rfl⟩ := Option.map_eq_some_iff.mp h
  have hmem := List.argmin_mem hitem
  rw [List.mem_filter, decide_eq_true_eq] at hmem
  exact ⟨item, hmem.1, rfl, hmem.2⟩

theorem Boosted.take {names : List Text} {before : Aggregates S} {s : Discovering S}
    (h : Boosted names before s) (scores : Scores S) (d : ResourceDiscoverySignal S)
    (hd : d.signal.source ∉ names) : Boosted names before (s.take scores d) := by
  unfold Discovering.take
  dsimp only
  split_ifs with hseen
  · exact h
  cases hbest : bestKey scores s.aggregates d.resourceRevisionKey with
  | none =>
    refine ⟨h.keys, h.once, ?_, h.kept⟩
    intro item hitem signal hsignal
    exact (h.sources item hitem signal hsignal).imp_right fun hmem => List.mem_append_left _ hmem
  | some key =>
    obtain ⟨chosen, hchosen, hkey, hrevision⟩ := mem_of_bestKey hbest
    -- only one aggregate has the key
    have hunique : ∀ item ∈ s.aggregates, item.1 = key → item = chosen := by
      intro item hitem hitemKey
      exact List.inj_on_of_nodup_map h.keys hitem hchosen (hitemKey.trans hkey.symm)
    have hfresh : d.signal.source ∉ chosen.2.signals.map fun signal => signal.source := by
      intro hmem
      obtain ⟨signal, hsignal, hsource⟩ := List.mem_map.mp hmem
      rcases h.sources chosen hchosen signal hsignal with hname | hold
      · exact hd (hsource ▸ hname)
      · rw [hsource, hrevision] at hold
        exact hseen hold
    have hmem : ∀ item, item ∈ s.aggregates.map (fun item =>
        if item.1 = key then (key, item.2.boost scores d) else item) →
        item = (key, chosen.2.boost scores d) ∨ item ∈ s.aggregates ∧ item.1 ≠ key := by
      intro item hitem
      obtain ⟨old, hold, rfl⟩ := List.mem_map.mp hitem
      split_ifs with holdKey
      · rw [hunique old hold holdKey]
        exact Or.inl rfl
      · exact Or.inr ⟨hold, holdKey⟩
    refine ⟨?_, ?_, ?_, ?_⟩
    · rw [List.map_map]
      have hsame : s.aggregates.map (Prod.fst ∘ fun item =>
          if item.1 = key then (key, item.2.boost scores d) else item) =
          s.aggregates.map Prod.fst := by
        refine List.map_congr_left fun item _ => ?_
        simp only [Function.comp_apply]
        split_ifs with hitemKey
        · exact hitemKey.symm
        · rfl
      rw [hsame]
      exact h.keys
    · intro item hitem
      rcases hmem item hitem with rfl | ⟨hold, -⟩
      · show ((chosen.2.signals ++ [_]).map fun signal : RankingSignal S => signal.source).Nodup
        rw [List.map_append, List.nodup_append]
        refine ⟨h.once chosen hchosen, List.nodup_singleton _, ?_⟩
        intro a ha b hb
        rw [List.map_singleton, List.mem_singleton] at hb
        rw [hb]
        rintro rfl
        exact hfresh ha
      · exact h.once item hold
    · intro item hitem signal hsignal
      rcases hmem item hitem with rfl | ⟨hold, -⟩
      · rcases List.mem_append.mp hsignal with hsignal | hsignal
        · exact (h.sources chosen hchosen signal hsignal).imp_right fun hold =>
            List.mem_append_left _ hold
        · rw [List.mem_singleton.mp hsignal]
          right
          show (d.signal.source, chosen.2.resourceRevision) ∈ s.seen ++ _
          rw [hrevision]
          simp
      · exact (h.sources item hold signal hsignal).imp_right fun hmem =>
          List.mem_append_left _ hmem
    · intro item hitem
      obtain ⟨a, ha, hcandidate, hsignals⟩ := h.kept item hitem
      by_cases hitemKey : item.1 = key
      · refine ⟨a.boost scores d, List.mem_map.mpr ⟨_, ha, by rw [if_pos hitemKey, hitemKey]⟩,
          hcandidate, fun signal hsignal => List.mem_append_left _ (hsignals signal hsignal)⟩
      · exact ⟨a, List.mem_map.mpr ⟨_, ha, if_neg hitemKey⟩, hcandidate, hsignals⟩

theorem Boosted.foldl {names : List Text} {before : Aggregates S} (scores : Scores S)
    (discoveries : List (ResourceDiscoverySignal S))
    (hsources : ∀ d ∈ discoveries, d.signal.source ∉ names) :
    ∀ {s : Discovering S}, Boosted names before s →
      Boosted names before (discoveries.foldl (Discovering.take scores) s) := by
  induction discoveries with
  | nil => exact fun h => h
  | cons d discoveries ih =>
    exact fun h => ih (fun d' hd' => hsources d' (List.mem_cons_of_mem _ hd'))
      (h.take scores d (hsources d List.mem_cons_self))

end Discoveries

section Clustering

variable {S : Type} [LinearOrder S] [Zero S]

/-! ## Clusters -/

/-- What a merge does not change of a hit. -/
def KnowledgeHit.place (hit : KnowledgeHit S) : Text × Text × EvidenceRef :=
  (hit.resource.resourceId, hit.revision.revisionId, hit.evidence)

/-- Two clusters in their order: those of one revision do not overlap. -/
def Apart (overlapCheck : OverlapCheck) (distance : ℕ) (a b : Text × Text × EvidenceRef) : Prop :=
  a.1 = b.1 → a.2.1 = b.2.1 → overlapCheck a.2.2 b.2.2 distance = false

/-- A hit has the votes of an aggregate. -/
def Represents (hit : KnowledgeHit S) (a : EvidenceAggregate S) : Prop :=
  hit.resource.resourceId = a.candidate.resource.resourceId ∧
    hit.revision.revisionId = a.candidate.revision.revisionId ∧
    ∀ signal ∈ a.signals, Votes hit.signals signal.source signal.sourceRank

/-- The clusters of the aggregates `done`. -/
structure Clustered (overlapCheck : OverlapCheck) (distance : ℕ) (done : List (EvidenceAggregate S))
    (s : Clustering S) : Prop where
  indices : ∀ resource index, index ∈ s.selectedByResource resource ↔
    ((s.selected.map KnowledgeHit.place)[index]?.map Prod.fst) = some resource
  apart : (s.selected.map KnowledgeHit.place).Pairwise (Apart overlapCheck distance)
  once : ∀ hit ∈ s.selected, SourcesOnce hit.signals
  votes : ∀ a ∈ done, ∃ hit ∈ s.selected, Represents hit a

theorem map_modify_of {α β : Type} {g : α → β} {f : α → α} (h : ∀ a, g (f a) = g a) (l : List α) :
    ∀ i, (l.modify i f).map g = l.map g := by
  induction l with
  | nil => exact fun i => by simp
  | cons a l ih =>
    intro i
    cases i with
    | zero => simp [h]
    | succ i => simp [ih i]

theorem mem_modify {α : Type} {f : α → α} {b : α} (l : List α) :
    ∀ {i}, b ∈ l.modify i f → b ∈ l ∨ ∃ a ∈ l, b = f a := by
  induction l with
  | nil => simp
  | cons a l ih =>
    intro i hb
    cases i with
    | zero =>
      rw [List.modify_zero_cons] at hb
      rcases List.mem_cons.mp hb with rfl | hb
      · exact Or.inr ⟨a, List.mem_cons_self, rfl⟩
      · exact Or.inl (List.mem_cons_of_mem _ hb)
    | succ i =>
      rw [List.modify_succ_cons] at hb
      rcases List.mem_cons.mp hb with rfl | hb
      · exact Or.inl List.mem_cons_self
      · rcases ih hb with hb | ⟨a', ha', rfl⟩
        · exact Or.inl (List.mem_cons_of_mem _ hb)
        · exact Or.inr ⟨a', List.mem_cons_of_mem _ ha', rfl⟩

theorem mem_or_mem_modify {α : Type} {f : α → α} {a : α} (l : List α) :
    ∀ i, a ∈ l → a ∈ l.modify i f ∨ f a ∈ l.modify i f := by
  induction l with
  | nil => simp
  | cons b l ih =>
    intro i ha
    cases i with
    | zero =>
      rw [List.modify_zero_cons]
      rcases List.mem_cons.mp ha with rfl | ha
      · exact Or.inr List.mem_cons_self
      · exact Or.inl (List.mem_cons_of_mem _ ha)
    | succ i =>
      rw [List.modify_succ_cons]
      rcases List.mem_cons.mp ha with rfl | ha
      · exact Or.inl List.mem_cons_self
      · exact (ih i ha).imp (List.mem_cons_of_mem _) (List.mem_cons_of_mem _)

theorem Clustered.take {overlapCheck : OverlapCheck} {distance : ℕ}
    {done : List (EvidenceAggregate S)} {s : Clustering S}
    (h : Clustered overlapCheck distance done s) (scores : Scores S) (a : EvidenceAggregate S)
    (ha : SourcesOnce a.signals) :
    Clustered overlapCheck distance (done ++ [a]) (s.take scores overlapCheck distance a) := by
  unfold Clustering.take
  dsimp only
  cases hfind : (s.selectedByResource a.candidate.resource.resourceId).find?
      (overlapsAt overlapCheck distance s.selected a.candidate) with
  | some index =>
    -- the aggregate is merged into a hit of its revision
    have hplace : ∀ hit : KnowledgeHit S,
        (mergedOverlapHit scores hit a).place = hit.place := fun _ => rfl
    have hplaces := map_modify_of hplace s.selected index
    have hmerged : ∀ hit ∈ s.selected, SourcesOnce (mergedSignals hit.signals a.signals) ∧
        ∀ source rank, Votes hit.signals source rank ∨ Votes a.signals source rank →
          Votes (mergedSignals hit.signals a.signals) source rank :=
      fun hit hhit => mergedSignals_spec (h.once hit hhit) a.signals
    refine ⟨?_, ?_, ?_, ?_⟩
    · intro resource i
      rw [hplaces]
      exact h.indices resource i
    · rw [hplaces]
      exact h.apart
    · intro hit hhit
      rcases mem_modify s.selected hhit with hhit | ⟨old, hold, rfl⟩
      · exact h.once hit hhit
      · exact (hmerged old hold).1
    · intro b hb
      rcases List.mem_append.mp hb with hb | hb
      · obtain ⟨hit, hhit, hresource, hrevision, hvotes⟩ := h.votes b hb
        rcases mem_or_mem_modify s.selected index hhit with hmem | hmem
        · exact ⟨hit, hmem, hresource, hrevision, hvotes⟩
        · exact ⟨_, hmem, hresource, hrevision, fun signal hsignal =>
            (hmerged hit hhit).2 _ _ (Or.inl (hvotes signal hsignal))⟩
      · rw [List.mem_singleton.mp hb]
        have hindex := (h.indices _ _).mp (List.mem_of_find?_eq_some hfind)
        have htest := List.find?_some hfind
        unfold overlapsAt at htest
        rw [List.getElem?_map, Option.map_map] at hindex
        cases hhit : s.selected[index]? with
        | none =>
          rw [hhit] at htest
          simp at htest
        | some hit =>
          rw [hhit, Option.any_some, Bool.and_eq_true, decide_eq_true_eq] at htest
          rw [hhit, Option.map_some, Option.some.injEq] at hindex
          refine ⟨mergedOverlapHit scores hit a, ?_, hindex, htest.1, fun signal hsignal =>
            (hmerged hit (List.mem_of_getElem? hhit)).2 _ _ (Or.inr ⟨signal, hsignal, rfl, le_rfl⟩)⟩
          refine List.mem_of_getElem? (i := index) ?_
          rw [List.getElem?_modify, hhit]
          simp
  | none =>
    have hnone := List.find?_eq_none.mp hfind
    refine ⟨?_, ?_, ?_, ?_⟩
    · intro resource i
      simp only [List.map_append, List.map_singleton, Function.update_apply]
      have hlength : (s.selected.map KnowledgeHit.place).length = s.selected.length :=
        List.length_map _
      rcases Nat.lt_trichotomy i s.selected.length with hlt | rfl | hgt
      · rw [List.getElem?_append_left (by omega), ← h.indices]
        split_ifs with hresource
        · rw [hresource, List.mem_append, List.mem_singleton, or_iff_left (by omega)]
        · rfl
      · have hnot : s.selected.length ∉ s.selectedByResource resource := by
          rw [h.indices, List.getElem?_eq_none (by omega)]
          simp
        rw [List.getElem?_append_right (by omega), hlength, Nat.sub_self]
        split_ifs with hresource
        · rw [hresource] at hnot ⊢
          simp [newHit, KnowledgeHit.place]
        · simp only [hnot, false_iff]
          intro heq
          exact hresource (Option.some.inj heq).symm
      · have hnot : i ∉ s.selectedByResource resource := by
          rw [h.indices, List.getElem?_eq_none (by omega)]
          simp
        rw [List.getElem?_eq_none (by simp; omega)]
        split_ifs with hresource
        · rw [hresource] at hnot
          simp [hnot]
          omega
        · simp [hnot]
    · simp only [List.map_append]
      rw [List.pairwise_append]
      refine ⟨h.apart, by simp, ?_⟩
      intro place hplace place' hplace' hresource hrevision
      obtain ⟨hit, hhit, rfl⟩ := List.mem_map.mp hplace
      obtain rfl : place' = (newHit scores a (s.selected.length + 1)).place := by
        simpa using hplace'
      obtain ⟨i, hi, hget⟩ := List.getElem_of_mem hhit
      have hindex : i ∈ s.selectedByResource a.candidate.resource.resourceId := by
        rw [h.indices, List.getElem?_map, List.getElem?_eq_getElem hi, hget]
        exact congrArg some hresource
      have htest := hnone i hindex
      rw [overlapsAt, List.getElem?_eq_getElem hi, hget, Option.any_some, Bool.and_eq_true,
        decide_eq_true_eq, not_and] at htest
      exact Bool.eq_false_iff.mpr (htest hrevision)
    · intro hit hhit
      rcases List.mem_append.mp hhit with hhit | hhit
      · exact h.once hit hhit
      · rw [List.mem_singleton.mp hhit]
        exact ha.perm (perm_sortedSignals _)
    · intro b hb
      rcases List.mem_append.mp hb with hb | hb
      · obtain ⟨hit, hhit, hrepresents⟩ := h.votes b hb
        exact ⟨hit, List.mem_append_left _ hhit, hrepresents⟩
      · rw [List.mem_singleton.mp hb]
        exact ⟨newHit scores a (s.selected.length + 1), by simp, rfl, rfl, fun signal hsignal =>
          ⟨signal, (perm_sortedSignals _).mem_iff.mpr hsignal, rfl, le_rfl⟩⟩

theorem Clustered.foldl {overlapCheck : OverlapCheck} {distance : ℕ} (scores : Scores S)
    (aggregates : List (EvidenceAggregate S)) (honce : ∀ a ∈ aggregates, SourcesOnce a.signals) :
    Clustered overlapCheck distance aggregates
      (aggregates.foldl (Clustering.take scores overlapCheck distance) {}) := by
  induction aggregates using List.reverseRecOn with
  | nil => exact ⟨by simp, by simp, by simp, by simp⟩
  | append_singleton aggregates a ih =>
    rw [List.foldl_append]
    exact (ih fun b hb => honce b (List.mem_append_left _ hb)).take scores a (honce a (by simp))

/-- The clusters of the aggregates of some recorded candidates, with discoveries from other
sources. -/
theorem clusterEvidence_spec {scores : Scores S} {overlapCheck : OverlapCheck} {distance : ℕ}
    {names : List Text} {recorded : List (PendingCandidate S)} {aggregates : Aggregates S}
    (h : Grouped recorded aggregates) (hnames : ∀ p ∈ recorded, p.rankingName ∈ names)
    {discoveries : List (ResourceDiscoverySignal S)}
    (hsources : ∀ d ∈ discoveries, d.signal.source ∉ names) :
    let clusters := clusterEvidence scores overlapCheck distance
      (applyDiscoverySignals scores aggregates discoveries)
    (∀ hit ∈ clusters, SourcesOnce hit.signals) ∧
      (clusters.map KnowledgeHit.place).Pairwise (Apart overlapCheck distance) ∧
      ∀ p ∈ recorded, ∃ hit ∈ clusters,
        hit.resource.resourceId = p.candidate.resource.resourceId ∧
        hit.revision.revisionId = p.candidate.revision.revisionId ∧
        Votes hit.signals p.rankingName p.candidate.signal.sourceRank := by
  intro clusters
  have hperm : (orderedDiscoveries discoveries).Perm discoveries := List.perm_insertionSort _ _
  have hstart : Boosted names aggregates ⟨aggregates, []⟩ := by
    refine ⟨h.keys, h.once, ?_, fun item hitem => ⟨item.2, hitem, rfl, fun _ hs => hs⟩⟩
    intro item hitem signal hsignal
    obtain ⟨p, hp, hsource, -⟩ := h.sources item hitem signal hsignal
    exact Or.inl (hsource ▸ hnames p hp)
  have hboosted := hstart.foldl scores (orderedDiscoveries discoveries)
    fun d hd => hsources d (hperm.mem_iff.mp hd)
  have hordered : ((orderedAggregates scores
      (applyDiscoverySignals scores aggregates discoveries)).map Prod.snd).Perm
      ((applyDiscoverySignals scores aggregates discoveries).map Prod.snd) :=
    (List.perm_insertionSort _ _).map _
  have honce : ∀ a ∈ (orderedAggregates scores
      (applyDiscoverySignals scores aggregates discoveries)).map Prod.snd,
      SourcesOnce a.signals := by
    intro a ha
    obtain ⟨item, hitem, rfl⟩ := List.mem_map.mp (hordered.mem_iff.mp ha)
    exact hboosted.once item hitem
  have hclustered : Clustered overlapCheck distance _ _ := Clustered.foldl scores _ honce
  refine ⟨hclustered.once, hclustered.apart, ?_⟩
  intro p hp
  obtain ⟨item, hitem, hresource, hrevision, signal, hsignal, hsource, hrank⟩ := h.votes p hp
  obtain ⟨a, ha, hcandidate, hsignals⟩ := hboosted.kept item hitem
  obtain ⟨hit, hhit, hres, hrev, hvotes⟩ := hclustered.votes a
    (hordered.mem_iff.mpr (List.mem_map_of_mem ha))
  refine ⟨hit, hhit, ?_, ?_, ?_⟩
  · rw [hres, hcandidate, hresource]
  · rw [hrev, hcandidate, hrevision]
  · have hvote := hvotes signal (hsignals signal hsignal)
    rwa [hsource, hrank] at hvote

end Clustering

section Diversity

variable {S : Type}

/-! ## Diversity -/

/-- A hit without its rank. -/
def KnowledgeHit.unranked (hit : KnowledgeHit S) : KnowledgeHit S := { hit with rank := 0 }

/-- How many hits are of a resource. -/
def ofResource (hits : List (KnowledgeHit S)) (resource : Text) : ℕ :=
  hits.countP fun hit => hit.resource.resourceId = resource

/-- What was accepted of the clusters `done`. -/
structure Cut (limit maxPerResource : ℕ) (done : List (KnowledgeHit S)) (s : Diversity S) :
    Prop where
  accepted : ∀ resource, s.acceptedPerResource resource = ofResource s.diverse resource
  quota : ∀ resource, ofResource s.diverse resource ≤ maxPerResource
  length_le : s.diverse.length ≤ limit
  total : s.diverse.length + s.omitted = done.length
  ranks : s.diverse.map KnowledgeHit.rank = List.range' 1 s.diverse.length
  sublist : (s.diverse.map KnowledgeHit.unranked).Sublist (done.map KnowledgeHit.unranked)
  /-- Nothing is omitted while there is room. -/
  greedy : ∀ c ∈ done, ofResource s.diverse c.resource.resourceId < maxPerResource →
    s.diverse.length < limit → c.unranked ∈ s.diverse.map KnowledgeHit.unranked

/-- A cluster for which there is no room. -/
theorem Cut.omit {limit maxPerResource : ℕ} {done : List (KnowledgeHit S)} {s : Diversity S}
    (h : Cut limit maxPerResource done s) (c : KnowledgeHit S)
    (hfull : maxPerResource ≤ ofResource s.diverse c.resource.resourceId ∨
      limit ≤ s.diverse.length) :
    Cut limit maxPerResource (done ++ [c]) { s with omitted := s.omitted + 1 } := by
  refine ⟨h.accepted, h.quota, h.length_le, ?_, h.ranks, ?_, ?_⟩
  · show s.diverse.length + (s.omitted + 1) = _
    rw [List.length_append, List.length_singleton, ← h.total, Nat.add_assoc]
  · rw [List.map_append]
    exact h.sublist.trans (List.sublist_append_left _ _)
  · intro d hd hquota hlimit
    rcases List.mem_append.mp hd with hd | hd
    · exact h.greedy d hd hquota hlimit
    · rw [List.mem_singleton.mp hd] at hquota
      rcases hfull with hfull | hfull
      · exact absurd hquota (not_lt.mpr hfull)
      · exact absurd hlimit (not_lt.mpr hfull)

theorem Cut.take {limit maxPerResource : ℕ} {done : List (KnowledgeHit S)} {s : Diversity S}
    (h : Cut limit maxPerResource done s) (c : KnowledgeHit S) :
    Cut limit maxPerResource (done ++ [c]) (s.take limit maxPerResource c) := by
  unfold Diversity.take
  dsimp only
  rw [h.accepted]
  split_ifs with hquota hlimit
  · exact h.omit c (Or.inl hquota)
  · exact h.omit c (Or.inr hlimit)
  have hcount : ∀ resource, ofResource (s.diverse ++ [{ c with rank := s.diverse.length + 1 }])
      resource = ofResource s.diverse resource +
        if c.resource.resourceId = resource then 1 else 0 := by
    intro resource
    simp [ofResource, List.countP_append, List.countP_singleton]
  refine ⟨?_, ?_, ?_, ?_, ?_, ?_, ?_⟩
  · intro resource
    show Function.update _ _ _ _ = _
    rw [hcount, Function.update_apply]
    split_ifs with hsame hsame' hsame'
    · rw [hsame]
    · exact absurd hsame.symm hsame'
    · exact absurd hsame'.symm hsame
    · exact h.accepted resource
  · intro resource
    have := h.quota resource
    rw [hcount]
    split_ifs with hsame
    · rw [← hsame]
      omega
    · omega
  · rw [List.length_append, List.length_singleton]
    omega
  · show (s.diverse ++ [_]).length + s.omitted = _
    rw [List.length_append, List.length_append, List.length_singleton, List.length_singleton,
      ← h.total]
    omega
  · rw [List.map_append, h.ranks, List.length_append, List.length_singleton, List.range'_concat]
    simp [Nat.add_comm]
  · rw [List.map_append, List.map_append]
    exact h.sublist.append (List.Sublist.refl _)
  · intro d hd hroom hlength
    rw [hcount] at hroom
    rw [List.length_append, List.length_singleton] at hlength
    rw [List.map_append]
    rcases List.mem_append.mp hd with hd | hd
    · exact List.mem_append_left _ (h.greedy d hd (by omega) (by omega))
    · rw [List.mem_singleton.mp hd]
      exact List.mem_append_right _ (by simp [KnowledgeHit.unranked])

theorem cut_foldl (limit maxPerResource : ℕ) (clusters : List (KnowledgeHit S)) :
    Cut limit maxPerResource clusters
      (clusters.foldl (Diversity.take limit maxPerResource) {}) := by
  induction clusters using List.reverseRecOn with
  | nil => exact ⟨by simp [ofResource], by simp [ofResource], by simp, by simp, by simp, by simp,
      by simp⟩
  | append_singleton clusters c ih =>
    rw [List.foldl_append]
    exact ih.take c

end Diversity

section Fusion

variable {S : Type} [LinearOrder S] [Zero S]

/-- The list that is shown of any clusters: bounded, ranked from one, within the quota of each
resource, in the order of the clusters, and maximal. -/
theorem diversity_greedy (limit maxPerResource : ℕ) (clusters : List (KnowledgeHit S)) :
    let hits := (applyDiversity limit maxPerResource clusters).1
    let omitted := (applyDiversity limit maxPerResource clusters).2
    hits.length ≤ limit ∧ hits.length + omitted = clusters.length ∧
      hits.map KnowledgeHit.rank = List.range' 1 hits.length ∧
      (∀ resource, ofResource hits resource ≤ maxPerResource) ∧
      (hits.map KnowledgeHit.unranked).Sublist
        ((clusteredHits clusters).map KnowledgeHit.unranked) ∧
      ∀ c ∈ clusters, ofResource hits c.resource.resourceId < maxPerResource →
        hits.length < limit → c.unranked ∈ hits.map KnowledgeHit.unranked := by
  have hperm : (clusteredHits clusters).Perm clusters := List.perm_insertionSort _ _
  have h := cut_foldl limit maxPerResource (clusteredHits clusters)
  refine ⟨h.length_le, ?_, h.ranks, h.quota, h.sublist, ?_⟩
  · rw [← hperm.length_eq]
    exact h.total
  · intro c hc
    exact h.greedy c (hperm.mem_iff.mpr hc)

/-! ## The whole -/

theorem fuseEvidenceRankings_eq_ok {scores : Scores S} {casefold : Text → Text}
    {overlapCheck : OverlapCheck} {rankings : List (Text × List (KnowledgeCandidate S))}
    {discoveries : List (ResourceDiscoverySignal S)} {limit maxPerResource distance : ℕ}
    {includeHistory : Bool} {result : List (KnowledgeHit S) × ℕ}
    (h : fuseEvidenceRankings scores casefold overlapCheck rankings discoveries limit
      maxPerResource distance includeHistory = .ok result) :
    ∃ recorded aggregates, recordedCandidates casefold includeHistory rankings = .ok recorded ∧
      recorded.foldlM (recordCandidate scores) [] = .ok aggregates ∧
      applyDiversity limit maxPerResource (clusterEvidence scores overlapCheck distance
        (applyDiscoverySignals scores aggregates discoveries)) = result := by
  unfold fuseEvidenceRankings collectAggregates at h
  rw [bind_eq_ok] at h
  obtain ⟨_, -, h⟩ := h
  rw [bind_eq_ok] at h
  obtain ⟨aggregates, haggregates, h⟩ := h
  rw [bind_eq_ok] at haggregates
  obtain ⟨recorded, hrecorded, hgrouped⟩ := haggregates
  exact ⟨recorded, aggregates, hrecorded, hgrouped, Except.ok.inj h⟩

/-- No vote is counted twice and none is lost: the hits of a fusion are cut from clusters that have
one signal of each source and do not overlap, and for each recorded candidate there is a cluster of
its revision with a signal of its ranking of a rank that is no worse. -/
theorem fusion_counts_once (scores : Scores S) (casefold : Text → Text)
    (overlapCheck : OverlapCheck) (rankings : List (Text × List (KnowledgeCandidate S)))
    (discoveries : List (ResourceDiscoverySignal S)) (limit maxPerResource distance : ℕ)
    (includeHistory : Bool) (hits : List (KnowledgeHit S)) (omitted : ℕ)
    (hnames : (rankings.map Prod.fst).Nodup)
    (hsources : ∀ d ∈ discoveries, d.signal.source ∉ rankings.map Prod.fst)
    (h : fuseEvidenceRankings scores casefold overlapCheck rankings discoveries limit
      maxPerResource distance includeHistory = .ok (hits, omitted)) :
    ∃ recorded clusters, recordedCandidates casefold includeHistory rankings = .ok recorded ∧
      applyDiversity limit maxPerResource clusters = (hits, omitted) ∧
      (∀ hit ∈ clusters, SourcesOnce hit.signals) ∧
      (clusters.map KnowledgeHit.place).Pairwise (Apart overlapCheck distance) ∧
      ∀ p ∈ recorded, ∃ hit ∈ clusters,
        hit.resource.resourceId = p.candidate.resource.resourceId ∧
        hit.revision.revisionId = p.candidate.revision.revisionId ∧
        Votes hit.signals p.rankingName p.candidate.signal.sourceRank := by
  obtain ⟨recorded, aggregates, hrecorded, hrun, hresult⟩ := fuseEvidenceRankings_eq_ok h
  obtain ⟨hnodup, hfrom⟩ := recordedCandidates_spec hnames hrecorded
  have hgrouped : Grouped recorded aggregates := Grouped.foldlM recorded grouped_nil hnodup hrun
  exact ⟨recorded, _, hrecorded, hresult, clusterEvidence_spec hgrouped hfrom hsources⟩

end Fusion

/-! ## A fusion -/

def exampleResource : ResourceRef := ⟨['r'], ['f'], ['o'], none, none, none, none⟩

def exampleRevision : RevisionRef := ⟨['r'], ['v'], ['p'], ['s'], none, .current, none⟩

def exampleEvidence : EvidenceRef where
  evidenceId := ['e']
  resourceId := ['r']
  revisionId := ['v']
  method := .extracted

/-- A candidate of the second rank. -/
def exampleCandidate : KnowledgeCandidate ℕ where
  resource := exampleResource
  revision := exampleRevision
  evidence := exampleEvidence
  signal := ⟨['x'], 2, none, none, {}⟩
  reason := ['y']
  confidence := none
  warnings := []
  revision_resource := rfl
  evidence_resource := rfl
  evidence_revision := rfl

/-- A discovery of the resource of `exampleCandidate`. -/
def exampleDiscovery : ResourceDiscoverySignal ℕ :=
  ⟨exampleResource, exampleRevision, ⟨['t'], 1, none, none, {}⟩, ['z'], 1, []⟩

def exampleScores : Scores ℕ := ⟨fun rank => 60 - rank, fun _ rank => 30 - rank, List.sum⟩

/-- The hit of `exampleCandidate` in two rankings. -/
def exampleHit : KnowledgeHit ℕ where
  rank := 1
  resource := exampleResource
  revision := exampleRevision
  evidence := exampleEvidence
  signals := [⟨['a'], 2, some 58, some exampleEvidence, {}⟩,
    ⟨['b'], 2, some 58, some exampleEvidence, {}⟩, ⟨['t'], 1, some 29, none, {}⟩]
  fusedScore := 145
  reasons := [['y'], ['z']]
  confidence := none
  warnings := []

theorem fusion_counts_once_example :
    ∃ recorded clusters, recordedCandidates id false
        [(['b'], [exampleCandidate]), (['a'], [exampleCandidate, exampleCandidate])] =
          .ok recorded ∧
      applyDiversity 5 5 clusters = ([exampleHit], 0) ∧
      (∀ hit ∈ clusters, SourcesOnce hit.signals) ∧
      (clusters.map KnowledgeHit.place).Pairwise (Apart (fun _ _ _ => true) 0) ∧
      ∀ p ∈ recorded, ∃ hit ∈ clusters,
        hit.resource.resourceId = p.candidate.resource.resourceId ∧
        hit.revision.revisionId = p.candidate.revision.revisionId ∧
        Votes hit.signals p.rankingName p.candidate.signal.sourceRank :=
  fusion_counts_once exampleScores id (fun _ _ _ => true)
    [(['b'], [exampleCandidate]), (['a'], [exampleCandidate, exampleCandidate])]
    [exampleDiscovery] 5 5 0 false [exampleHit] 0 (by decide) (by decide) rfl
end Knowledge
end Neocortex
