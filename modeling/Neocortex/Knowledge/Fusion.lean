import Mathlib
import Neocortex.Library.Checks
import Neocortex.Python.Words
import Neocortex.Python.Json

/-!
# Fusing evidence rankings

`fuse_evidence_rankings` of `knowledge/knowledge_search_fusion.py`: the candidates of several
rankings are collected by their evidence, boosted by discoveries of their resources, clustered where
their passages overlap, and cut to a diverse list.

Floating point enters through `Scores`: what a rank contributes, and `math.fsum`.  Nothing is
assumed of them.  What the query support of a signal says is a `QuerySupport`, the members that are
read, decoded; the overlap check is an argument, as in the source.

* `collectAggregates`, `applyDiscoverySignals`, `clusterEvidence`, `applyDiversity`: the four parts;
* `fuseEvidenceRankings`: the whole.

The checkpoints, which may end a call, are left out, and so are the checks of the constructor of
a hit.
-/

namespace Neocortex
namespace Knowledge

open Python

/-! ## Records -/

/-- `ResourceDisposition`. -/
inductive ResourceDisposition where
  | canonical
  | duplicate
  | superseded
  | derived
  deriving DecidableEq

/-- `RevisionState`. -/
inductive RevisionState where
  | current
  | historical
  | superseded
  | incomplete
  | ambiguous
  deriving DecidableEq

/-- `EvidenceMethod`. -/
inductive EvidenceMethod where
  | structural
  | extracted
  | inferred
  | humanConfirmed
  | ambiguous
  deriving DecidableEq

/-- `ResourceRef`; its physical identity is three texts. -/
structure ResourceRef where
  resourceId : Text
  sourceKind : Text
  owner : Text
  physicalIdentity : Option (Text × Text × ℕ) := none
  currentPath : Option Text := none
  disposition : Option ResourceDisposition := none
  canonicalResourceId : Option Text := none
  deriving DecidableEq

/-- `RevisionRef`. -/
structure RevisionRef where
  resourceId : Text
  revisionId : Text
  producer : Text
  processingSignature : Text
  generation : Option ℕ
  state : RevisionState
  observedAtUtc : Option Text := none
  deriving DecidableEq

/-- `EvidenceRef`, without the members that fusion only passes on. -/
structure EvidenceRef where
  evidenceId : Text
  resourceId : Text
  revisionId : Text
  method : EvidenceMethod
  page : Option ℕ := none
  startLine : Option ℕ := none
  endLine : Option ℕ := none
  startMs : Option ℕ := none
  endMs : Option ℕ := none
  startChar : Option ℕ := none
  endChar : Option ℕ := none
  sectionKind : Option Text := none
  sectionId : Option Text := none
  snippet : Option Text := none
  deriving DecidableEq

/-- `structured_support` of a query support, when it is a mapping: `coherent is True`,
`status == "mismatch"` and `hard_mismatch is True`. -/
structure StructuredSupport where
  coherent : Bool := false
  mismatch : Bool := false
  hardMismatch : Bool := false

/-- What is read of `query_support`. -/
structure QuerySupport (S : Type) where
  structured : Option StructuredSupport := none
  termCoverage : Option S := none
  minimumSpanTerms : Option ℤ := none
  phraseMatch : Bool := false
  roleCounterevidence : Bool := false

/-- `RankingSignal`, without its model and score kind. -/
structure RankingSignal (S : Type) where
  source : Text
  sourceRank : ℕ
  contribution : Option S
  evidence : Option EvidenceRef
  querySupport : QuerySupport S

/-- `KnowledgeCandidate`, with what its constructor checks. -/
structure KnowledgeCandidate (S : Type) where
  resource : ResourceRef
  revision : RevisionRef
  evidence : EvidenceRef
  signal : RankingSignal S
  reason : Text
  confidence : Option S
  warnings : List Text
  revision_resource : revision.resourceId = resource.resourceId
  evidence_resource : evidence.resourceId = resource.resourceId
  evidence_revision : evidence.revisionId = revision.revisionId

/-- `ResourceDiscoverySignal`. -/
structure ResourceDiscoverySignal (S : Type) where
  resource : ResourceRef
  revision : RevisionRef
  signal : RankingSignal S
  reason : Text
  fusionWeight : S
  warnings : List Text

/-- `KnowledgeHit`. -/
structure KnowledgeHit (S : Type) where
  rank : ℕ
  resource : ResourceRef
  revision : RevisionRef
  evidence : EvidenceRef
  signals : List (RankingSignal S)
  fusedScore : S
  reasons : List Text
  confidence : Option S
  warnings : List Text

/-- `_EvidenceKey`, in the order of tuples. -/
abbrev EvidenceKey := Text ×ₗ Text ×ₗ Text

/-- `KnowledgeCandidate.evidence_key`. -/
def KnowledgeCandidate.evidenceKey {S : Type} (c : KnowledgeCandidate S) : EvidenceKey :=
  toLex (c.resource.resourceId, toLex (c.revision.revisionId, c.evidence.evidenceId))

/-- `_EvidenceAliasKey`. -/
structure EvidenceAliasKey where
  resourceId : Text
  revisionId : Text
  processingSignature : Text
  generation : Option ℕ
  locator : Text
  deriving DecidableEq

/-- `_EvidenceAggregate`. -/
structure EvidenceAggregate (S : Type) where
  candidate : KnowledgeCandidate S
  contributions : List S := []
  signals : List (RankingSignal S) := []
  reasons : List Text := []
  warnings : List Text := []

/-- The aggregates, as the items of a dictionary. -/
abbrev Aggregates (S : Type) := List (EvidenceKey × EvidenceAggregate S)

/-- The arithmetic of the scores. -/
structure Scores (S : Type) where
  /-- `1.0 / (rrf_k + rank)`. -/
  contribution : ℕ → S
  /-- `weight / (rrf_k + rank)`. -/
  weighted : S → ℕ → S
  /-- `math.fsum`. -/
  fsum : List S → S

/-! ## Dictionaries -/

section Dictionaries

variable {κ α : Type} [DecidableEq κ]

/-- `items.get(key)`. -/
def lookup (items : List (κ × α)) (key : κ) : Option α :=
  (items.find? fun item => item.1 = key).map Prod.snd

/-- `items[key] = value`. -/
def assign (items : List (κ × α)) (key : κ) (value : α) : List (κ × α) :=
  if key ∈ items.map Prod.fst then items.map fun item => if item.1 = key then (key, value) else item
  else items ++ [(key, value)]

end Dictionaries

section Fusion

variable {S : Type} [LinearOrder S] [Zero S]

/-! ## Collecting -/

/-- `_candidate_is_visible`. -/
def candidateIsVisible (includeHistory : Bool) (c : KnowledgeCandidate S) : Bool :=
  if c.resource.disposition = some .duplicate then false
  else if includeHistory then true
  else !(c.resource.disposition = some .superseded || c.revision.state = .historical ||
    c.revision.state = .superseded)

/-- `str(value)` of an optional value. -/
def strOption (value : Option Text) : Text := value.getD "None".toList

def strNat (value : Option ℕ) : Text := strOption (value.map fun n => renderInt n)

/-- The locator of `_canonical_evidence_key`. -/
def locatorOf (e : EvidenceRef) : Text :=
  List.intercalate ['|'] [strOption e.sectionKind, strOption e.sectionId, strNat e.page,
    strNat e.startLine, strNat e.endLine, strNat e.startMs, strNat e.endMs, strNat e.startChar,
    strNat e.endChar]

/-- The alias under which `_canonical_evidence_key` looks a candidate up, if it has one. -/
def aliasOf (casefold : Text → Text) (c : KnowledgeCandidate S) : Option EvidenceAliasKey := do
  let snippet ← c.evidence.snippet
  guard (snippet ≠ [] ∧ c.evidence.sectionKind.isSome ∧ c.evidence.sectionId.isSome)
  let normalized := casefold (normalize snippet)
  guard (normalized ≠ [])
  some ⟨c.resource.resourceId, c.revision.revisionId, c.revision.processingSignature,
    c.revision.generation, locatorOf c.evidence ++ '|' :: normalized⟩

/-- `_canonical_evidence_key`: the key, and the aliases behind it. -/
def canonicalEvidenceKey (casefold : Text → Text)
    (aliases : List (EvidenceAliasKey × EvidenceKey)) (c : KnowledgeCandidate S) :
    EvidenceKey × List (EvidenceAliasKey × EvidenceKey) :=
  match aliasOf casefold c with
  | none => (c.evidenceKey, aliases)
  | some aliasKey =>
    match lookup aliases aliasKey with
    | some key => (key, aliases)
    | none => (c.evidenceKey, aliases ++ [(aliasKey, c.evidenceKey)])

/-- A candidate that waits for the end of the rankings. -/
structure PendingCandidate (S : Type) where
  rankingName : Text
  candidate : KnowledgeCandidate S
  key : EvidenceKey

/-- The variables of the first loop of `_collect_aggregates`. -/
structure Collection (S : Type) where
  aliases : List (EvidenceAliasKey × EvidenceKey) := []
  pending : List (PendingCandidate S) := []
  structuredCoherent : Bool := false
  seen : List EvidenceKey := []

/-- The body of the loop over the candidates of a ranking. -/
def Collection.take (casefold : Text → Text) (includeHistory : Bool) (rankingName : Text)
    (s : Collection S) (c : KnowledgeCandidate S) : Collection S :=
  if candidateIsVisible includeHistory c then
    let canonical := canonicalEvidenceKey casefold s.aliases c
    if canonical.1 ∈ s.seen then { s with aliases := canonical.2 }
    else
      { aliases := canonical.2
        pending := s.pending ++ [⟨rankingName, c, canonical.1⟩]
        structuredCoherent := s.structuredCoherent ||
          (c.signal.querySupport.structured.any fun support => support.coherent)
        seen := s.seen ++ [canonical.1] }
  else s

/-- The body of the loop over the rankings. -/
def Collection.takeRanking (casefold : Text → Text) (includeHistory : Bool) (s : Collection S)
    (ranking : Text × List (KnowledgeCandidate S)) : Except Text (Collection S) :=
  if strip ranking.1 = [] then .error "Knowledge ranking names cannot be blank".toList
  else .ok (ranking.2.foldl (Collection.take casefold includeHistory ranking.1)
    { s with seen := [] })

/-- `1.0 / (rrf_k + rank)` and the signal that records it. -/
def recordedSignal (scores : Scores S) (p : PendingCandidate S) : RankingSignal S :=
  { p.candidate.signal with
    source := p.rankingName
    contribution := some (scores.contribution p.candidate.signal.sourceRank)
    evidence := some (p.candidate.signal.evidence.getD p.candidate.evidence) }

/-- A signal that names another witness than the evidence it scores. -/
def claimsOther (c : KnowledgeCandidate S) : Bool :=
  c.signal.evidence.any fun e => e ≠ c.evidence

/-- `_record_candidate`. -/
def recordCandidate (scores : Scores S) (aggregates : Aggregates S) (p : PendingCandidate S) :
    Except Text (Aggregates S) :=
  if claimsOther p.candidate then
    .error "one ranking signal claims a witness different from its scored evidence".toList
  else
    let aggregate := (lookup aggregates p.key).getD ⟨p.candidate, [], [], [], []⟩
    if aggregate.candidate.resource ≠ p.candidate.resource ∨
        aggregate.candidate.revision ≠ p.candidate.revision then
      .error "one evidence identity resolved to incompatible records".toList
    else
      .ok (assign aggregates p.key
        { aggregate with
          contributions := aggregate.contributions ++
            [scores.contribution p.candidate.signal.sourceRank]
          signals := aggregate.signals ++ [recordedSignal scores p]
          reasons := aggregate.reasons ++ [p.candidate.reason]
          warnings := aggregate.warnings ++ p.candidate.warnings })

/-- A hard negative beside a coherent witness. -/
def isMismatch (c : KnowledgeCandidate S) : Bool :=
  c.signal.querySupport.structured.any fun support => support.mismatch || support.hardMismatch

/-- The rankings of a mapping in the order of their names. -/
def sortedRankings (rankings : List (Text × List (KnowledgeCandidate S))) :
    List (Text × List (KnowledgeCandidate S)) :=
  rankings.insertionSort fun a b => a.1 ≤ b.1

/-- The candidates that the second loop of `_collect_aggregates` records. -/
def recordedCandidates (casefold : Text → Text) (includeHistory : Bool)
    (rankings : List (Text × List (KnowledgeCandidate S))) :
    Except Text (List (PendingCandidate S)) := do
  let collection ← (sortedRankings rankings).foldlM
    (Collection.takeRanking casefold includeHistory) {}
  .ok (collection.pending.filter fun p =>
    !(collection.structuredCoherent && isMismatch p.candidate))

/-- `_collect_aggregates`. -/
def collectAggregates (scores : Scores S) (casefold : Text → Text) (includeHistory : Bool)
    (rankings : List (Text × List (KnowledgeCandidate S))) : Except Text (Aggregates S) := do
  let recorded ← recordedCandidates casefold includeHistory rankings
  recorded.foldlM (recordCandidate scores) []

/-! ## Discoveries -/

/-- The score of an aggregate. -/
def EvidenceAggregate.score (scores : Scores S) (a : EvidenceAggregate S) : S :=
  scores.fsum (a.contributions.insertionSort (· ≤ ·))

/-- The resource and the revision of an aggregate. -/
def EvidenceAggregate.resourceRevision (a : EvidenceAggregate S) : Text × Text :=
  (a.candidate.resource.resourceId, a.candidate.revision.revisionId)

/-- `resource_revision_key`. -/
def ResourceDiscoverySignal.resourceRevisionKey (d : ResourceDiscoverySignal S) : Text × Text :=
  (d.resource.resourceId, d.revision.revisionId)

/-- The discoveries in the order of their sources, ranks and resources. -/
def orderedDiscoveries (discoveries : List (ResourceDiscoverySignal S)) :
    List (ResourceDiscoverySignal S) :=
  discoveries.insertionSort fun a b =>
    (toLex (a.signal.source, toLex (a.signal.sourceRank,
      toLex (a.resource.resourceId, a.revision.revisionId))) : Text ×ₗ ℕ ×ₗ Text ×ₗ Text) ≤
    toLex (b.signal.source, toLex (b.signal.sourceRank,
      toLex (b.resource.resourceId, b.revision.revisionId)))

/-- The eligible aggregate with the best score. -/
def bestKey (scores : Scores S) (aggregates : Aggregates S) (resourceRevision : Text × Text) :
    Option EvidenceKey :=
  ((aggregates.filter fun item => item.2.resourceRevision = resourceRevision).argmin fun item =>
    (toLex (OrderDual.toDual (item.2.score scores), item.1) : Sᵒᵈ ×ₗ EvidenceKey)).map Prod.fst

/-- The aggregates, and the discoveries that were looked at. -/
structure Discovering (S : Type) where
  aggregates : Aggregates S
  seen : List (Text × Text × Text) := []

/-- An aggregate with a discovery of its resource. -/
def EvidenceAggregate.boost (scores : Scores S) (a : EvidenceAggregate S)
    (d : ResourceDiscoverySignal S) : EvidenceAggregate S :=
  { a with
    contributions := a.contributions ++ [scores.weighted d.fusionWeight d.signal.sourceRank]
    signals := a.signals ++
      [{ d.signal with contribution := some (scores.weighted d.fusionWeight d.signal.sourceRank) }]
    reasons := a.reasons ++ [d.reason]
    warnings := a.warnings ++ d.warnings }

/-- The body of the loop over the discoveries. -/
def Discovering.take (scores : Scores S) (s : Discovering S) (d : ResourceDiscoverySignal S) :
    Discovering S :=
  let identity := (d.signal.source, d.resourceRevisionKey)
  if identity ∈ s.seen then s
  else
    match bestKey scores s.aggregates d.resourceRevisionKey with
    | none => { s with seen := s.seen ++ [identity] }
    | some key =>
      { aggregates := s.aggregates.map fun item =>
          if item.1 = key then (key, item.2.boost scores d) else item
        seen := s.seen ++ [identity] }

/-- `_apply_discovery_signals`. -/
def applyDiscoverySignals (scores : Scores S) (aggregates : Aggregates S)
    (discoveries : List (ResourceDiscoverySignal S)) : Aggregates S :=
  ((orderedDiscoveries discoveries).foldl (Discovering.take scores) ⟨aggregates, []⟩).aggregates

/-! ## Clusters -/

/-- `support_order` of `_ordered_keys`. -/
abbrev SupportOrder (S : Type) := ℕ ×ₗ Sᵒᵈ ×ₗ ℕ ×ₗ ℤ

/-- The tier of a structured support. -/
def structuredTier (coherent hardMismatch : Bool) : ℕ :=
  if coherent then 0 else if hardMismatch then 2 else 1

/-- `support_order` of an aggregate. -/
def EvidenceAggregate.supportOrder (a : EvidenceAggregate S) : SupportOrder S :=
  let support := a.candidate.signal.querySupport
  let structured := support.structured.getD {}
  toLex (structuredTier structured.coherent structured.hardMismatch,
    toLex (OrderDual.toDual (support.termCoverage.getD 0),
      toLex (if support.phraseMatch then 0 else 1, support.minimumSpanTerms.getD 1000000)))

/-- `_ordered_keys`, with the aggregates. -/
def orderedAggregates (scores : Scores S) (aggregates : Aggregates S) : Aggregates S :=
  aggregates.insertionSort fun a b =>
    (toLex (OrderDual.toDual (a.2.score scores), toLex (a.2.supportOrder, a.1)) :
      Sᵒᵈ ×ₗ SupportOrder S ×ₗ EvidenceKey) ≤
    toLex (OrderDual.toDual (b.2.score scores), toLex (b.2.supportOrder, b.1))

/-- `tuple(sorted(set(texts)))`. -/
def sortedSet (texts : List Text) : List Text := texts.dedup.insertionSort (· ≤ ·)

/-- Signals in the order of their sources and ranks. -/
def sortedSignals (signals : List (RankingSignal S)) : List (RankingSignal S) :=
  signals.insertionSort fun a b =>
    (toLex (a.source, a.sourceRank) : Text ×ₗ ℕ) ≤ toLex (b.source, b.sourceRank)

/-- A signal beside the best ones of each source. -/
def keepBest (best : List (Text × RankingSignal S)) (signal : RankingSignal S) :
    List (Text × RankingSignal S) :=
  if (lookup best signal.source).all fun current => signal.sourceRank < current.sourceRank then
    assign best signal.source signal
  else best

/-- The signals of `_merged_overlap_hit`. -/
def mergedSignals (signals more : List (RankingSignal S)) : List (RankingSignal S) :=
  let best := signals.foldl (fun best signal => assign best signal.source signal) []
  sortedSignals ((more.foldl keepBest best).map Prod.snd)

/-- `_merged_overlap_hit`. -/
def mergedOverlapHit (scores : Scores S) (hit : KnowledgeHit S) (a : EvidenceAggregate S) :
    KnowledgeHit S :=
  let signals := mergedSignals hit.signals a.signals
  { hit with
    signals
    fusedScore := scores.fsum (signals.map fun signal => signal.contribution.getD 0)
    reasons := sortedSet (hit.reasons ++ a.reasons)
    warnings := sortedSet (hit.warnings ++ a.warnings ++ ["overlapping_evidence_merged".toList]) }

/-- `_new_hit`. -/
def newHit (scores : Scores S) (a : EvidenceAggregate S) (rank : ℕ) : KnowledgeHit S where
  rank
  resource := a.candidate.resource
  revision := a.candidate.revision
  evidence := a.candidate.evidence
  signals := sortedSignals a.signals
  fusedScore := a.score scores
  reasons := sortedSet a.reasons
  confidence := a.candidate.confidence
  warnings := sortedSet a.warnings

/-- The overlap check of the caller. -/
abbrev OverlapCheck := EvidenceRef → EvidenceRef → ℕ → Bool

/-- The document as a whole, of which a passage is no duplicate. -/
def isFulltext (e : EvidenceRef) : Bool :=
  e.sectionKind = some "document".toList && e.sectionId = some "fulltext".toList

/-- `overlaps_or_too_close`; a passage with a start has an end. -/
def overlapsOrTooClose : OverlapCheck := fun selected candidate minimumDistance =>
  if selected.resourceId ≠ candidate.resourceId ∨ selected.revisionId ≠ candidate.revisionId ∨
      selected.sectionKind ≠ candidate.sectionKind ∨ selected.sectionId ≠ candidate.sectionId then
    false
  else
    match selected.startChar, candidate.startChar with
    | some start, some start' =>
      let stop := selected.endChar.getD 0
      let stop' := candidate.endChar.getD 0
      if start' < stop ∧ start < stop' then true
      else decide (((max start' start : ℕ) : ℤ) - (min stop' stop : ℕ) < minimumDistance)
    | none, none => true
    | _, _ => !(isFulltext selected || isFulltext candidate)

/-- The variables of `_cluster_evidence`; `selectedByResource` is empty for a resource without a
hit. -/
structure Clustering (S : Type) where
  selected : List (KnowledgeHit S) := []
  selectedByResource : Text → List ℕ := fun _ => []

/-- The test of `_find_overlap_index` at one index. -/
def overlapsAt (overlapCheck : OverlapCheck) (minSectionDistance : ℕ)
    (selected : List (KnowledgeHit S)) (c : KnowledgeCandidate S) (index : ℕ) : Bool :=
  selected[index]?.any fun hit => hit.revision.revisionId = c.revision.revisionId &&
    overlapCheck hit.evidence c.evidence minSectionDistance

/-- The body of the loop of `_cluster_evidence`. -/
def Clustering.take (scores : Scores S) (overlapCheck : OverlapCheck) (minSectionDistance : ℕ)
    (s : Clustering S) (a : EvidenceAggregate S) : Clustering S :=
  let resource := a.candidate.resource.resourceId
  match (s.selectedByResource resource).find?
      (overlapsAt overlapCheck minSectionDistance s.selected a.candidate) with
  | some index =>
    { s with selected := s.selected.modify index fun hit => mergedOverlapHit scores hit a }
  | none =>
    { selected := s.selected ++ [newHit scores a (s.selected.length + 1)]
      selectedByResource := Function.update s.selectedByResource resource
        (s.selectedByResource resource ++ [s.selected.length]) }

/-- `_cluster_evidence`. -/
def clusterEvidence (scores : Scores S) (overlapCheck : OverlapCheck) (minSectionDistance : ℕ)
    (aggregates : Aggregates S) : List (KnowledgeHit S) :=
  (((orderedAggregates scores aggregates).map Prod.snd).foldl
    (Clustering.take scores overlapCheck minSectionDistance) {}).selected

/-! ## Diversity -/

/-- `scoped_counterevidence`. -/
def scopedCounterevidence (hit : KnowledgeHit S) : Bool :=
  let witnesses := hit.signals.filter fun signal => signal.evidence.isSome
  !witnesses.isEmpty && witnesses.all fun signal => signal.querySupport.roleCounterevidence

/-- `support_order` of a hit. -/
def KnowledgeHit.supportOrder (hit : KnowledgeHit S) : SupportOrder S :=
  let supports := hit.signals.map fun signal => signal.querySupport
  let structured := supports.filterMap fun support => support.structured
  let coverages := supports.filterMap fun support => support.termCoverage
  let spans := supports.filterMap fun support => support.minimumSpanTerms
  toLex (structuredTier (structured.any fun value => value.coherent)
      (structured.any fun value => value.hardMismatch),
    toLex (OrderDual.toDual (coverages.max?.getD 0),
      toLex (if supports.any fun support => support.phraseMatch then 0 else 1,
        spans.min?.getD 1000000)))

/-- The sort key of `_apply_diversity`. -/
def KnowledgeHit.clusterOrder (hit : KnowledgeHit S) :
    Bool ×ₗ Sᵒᵈ ×ₗ SupportOrder S ×ₗ Text ×ₗ Text ×ₗ Text :=
  toLex (scopedCounterevidence hit, toLex (OrderDual.toDual hit.fusedScore,
    toLex (hit.supportOrder, toLex (hit.resource.resourceId,
      toLex (hit.revision.revisionId, hit.evidence.evidenceId)))))

/-- The clusters in the order in which `_apply_diversity` looks at them. -/
def clusteredHits (selected : List (KnowledgeHit S)) : List (KnowledgeHit S) :=
  selected.insertionSort fun a b => a.clusterOrder ≤ b.clusterOrder

/-- The variables of `_apply_diversity`. -/
structure Diversity (S : Type) where
  diverse : List (KnowledgeHit S) := []
  acceptedPerResource : Text → ℕ := fun _ => 0
  omitted : ℕ := 0

/-- The body of the loop of `_apply_diversity`. -/
def Diversity.take (limit maxPerResource : ℕ) (s : Diversity S) (hit : KnowledgeHit S) :
    Diversity S :=
  let resource := hit.resource.resourceId
  if maxPerResource ≤ s.acceptedPerResource resource then { s with omitted := s.omitted + 1 }
  else if limit ≤ s.diverse.length then { s with omitted := s.omitted + 1 }
  else
    { s with
      acceptedPerResource := Function.update s.acceptedPerResource resource
        (s.acceptedPerResource resource + 1)
      diverse := s.diverse ++ [{ hit with rank := s.diverse.length + 1 }] }

/-- `_apply_diversity`. -/
def applyDiversity (limit maxPerResource : ℕ) (selected : List (KnowledgeHit S)) :
    List (KnowledgeHit S) × ℕ :=
  let s := (clusteredHits selected).foldl (Diversity.take limit maxPerResource) {}
  (s.diverse, s.omitted)

/-! ## The whole -/

/-- `_validate_options`. -/
def validateOptions (limit maxPerResource minSectionDistance : ℕ) : Except Text Unit :=
  if ¬ (1 ≤ limit ∧ limit ≤ 1000) then
    .error "Knowledge fusion limit must be between 1 and 1000".toList
  else if ¬ (1 ≤ maxPerResource ∧ maxPerResource ≤ 100) then
    .error "max_per_resource must be between 1 and 100".toList
  else if ¬ minSectionDistance ≤ 1000000 then
    .error "min_section_distance is outside its supported bound".toList
  else .ok ()

/-- `fuse_evidence_rankings`. -/
def fuseEvidenceRankings (scores : Scores S) (casefold : Text → Text) (overlapCheck : OverlapCheck)
    (rankings : List (Text × List (KnowledgeCandidate S)))
    (discoveries : List (ResourceDiscoverySignal S)) (limit maxPerResource minSectionDistance : ℕ)
    (includeHistory : Bool) : Except Text (List (KnowledgeHit S) × ℕ) := do
  validateOptions limit maxPerResource minSectionDistance
  let aggregates ← collectAggregates scores casefold includeHistory rankings
  let boosted := applyDiscoverySignals scores aggregates discoveries
  .ok (applyDiversity limit maxPerResource
    (clusterEvidence scores overlapCheck minSectionDistance boosted))

end Fusion
end Knowledge
end Neocortex
