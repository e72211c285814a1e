import Neocortex.Python.Text

/-!
# Isolating a failure inside a batch

`embed_requests_isolated` of `semantic_generation_worker.py`: a batch that the backend refuses
for the sake of one payload is cut in two, and the halves are submitted on their own.

The backend is a function of the batch.  The recursion is bounded by a depth; `none` says that
the depth was used up, and a call returns when some depth is enough.

* `submit_placed`: what a call adds to the two lists, wherever it was cut from;
* `submit_returns`: a batch of at most `2 ^ d` requests needs the depth `d + 1`;
* `failures_eq_badIndices`: the failures are the bad requests, for a backend that fails by them;
* `embed_requests_isolated_spec`: the three together.
-/

namespace Neocortex
namespace Semantic

open Python

/-! ## The backend -/

/-- An `Exception` of a batch. -/
inductive BatchError where
  /-- `SourceRevisionMismatchError`. -/
  | sourceRevisionMismatch (message : String)
  /-- `TextTokenLimitExceededError`. -/
  | textTokenLimitExceeded (message : String)
  /-- `RuntimeError`. -/
  | runtime (message : String)
  /-- Any other `Exception`. -/
  | other (message : String)
  deriving DecidableEq

/-- The errors that concern one payload. -/
def BatchError.payloadLocal : BatchError → Bool
  | .sourceRevisionMismatch _ => true
  | .textTokenLimitExceeded _ => true
  | _ => false

/-- What a call of the backend may raise. -/
inductive Raised where
  /-- `SemanticIndexDeadlineExceeded`, which every level raises again. -/
  | deadline
  /-- A `BaseException` that is no `Exception`. -/
  | interrupted
  | error (e : BatchError)
  deriving DecidableEq

/-- The part of an `EmbeddingRequest` that the isolation reads, and its payload. -/
structure EmbeddingRequest (Payload : Type) where
  requestId : Text
  payload : Payload
  deriving DecidableEq

/-- A `BackendEmbedding`. -/
structure BackendEmbedding (Vector : Type) where
  requestId : Text
  vector : Vector
  deriving DecidableEq

section Isolation

variable {Payload Vector : Type}

/-- `backend.embed`. -/
abbrev Backend (Payload Vector : Type) :=
  List (EmbeddingRequest Payload) → Except Raised (List (BackendEmbedding Vector))

/-- The body of the `try` block of `submit`. -/
def attempt (embed : Backend Payload Vector) (batch : List (EmbeddingRequest Payload)) :
    Except Raised (List (BackendEmbedding Vector)) := do
  let outputs ← embed batch
  if outputs.length ≠ batch.length then
    throw (.error (.runtime "embedding backend returned an incomplete batch"))
  else if (batch.zip outputs).any fun pair => pair.2.requestId ≠ pair.1.requestId then
    throw (.error (.runtime "embedding backend changed request order"))
  else pure outputs

/-- The lists `successes` and `failures`. -/
structure EmbeddingOutcome (Vector : Type) where
  successes : List (ℕ × BackendEmbedding Vector)
  failures : List (ℕ × BatchError)
  deriving DecidableEq

namespace EmbeddingOutcome

/-- What two calls add, one after the other. -/
def append (a b : EmbeddingOutcome Vector) : EmbeddingOutcome Vector :=
  ⟨a.successes ++ b.successes, a.failures ++ b.failures⟩

theorem append_assoc (a b c : EmbeddingOutcome Vector) :
    (a.append b).append c = a.append (b.append c) := by
  simp [append, List.append_assoc]

end EmbeddingOutcome

/-- `((start + offset, output) for offset, output in enumerate(outputs))`. -/
def answered (start : ℕ) (outputs : List (BackendEmbedding Vector)) : EmbeddingOutcome Vector :=
  ⟨outputs.zipIdx.map fun output => (start + output.2, output.1), []⟩

/-- `((start + offset, exc) for offset in range(len(batch)))`. -/
def refused (start length : ℕ) (e : BatchError) : EmbeddingOutcome Vector :=
  ⟨[], (List.range length).map fun offset => (start + offset, e)⟩

/-- The result of a call of `submit`: the two lists as the call leaves them, or what it raises. -/
abbrev Result (Vector : Type) := Option (Except Raised (EmbeddingOutcome Vector))

/-- A call after another one. -/
def andThen (first : Result Vector) (next : EmbeddingOutcome Vector → Result Vector) :
    Result Vector :=
  match first with
  | none => none
  | some (.error raised) => some (.error raised)
  | some (.ok done) => next done

/-- `submit`, to a depth of the recursion. -/
def submit (embed : Backend Payload Vector) : ℕ → ℕ → List (EmbeddingRequest Payload) →
    EmbeddingOutcome Vector → Result Vector
  | 0, _, _, _ => none
  | depth + 1, start, batch, done =>
    match attempt embed batch with
    | .ok outputs => some (.ok (done.append (answered start outputs)))
    | .error (.error e) =>
      if batch.length = 1 ∨ e.payloadLocal = false then
        some (.ok (done.append (refused start batch.length e)))
      else
        let midpoint := batch.length / 2
        andThen (submit embed depth start (batch.take midpoint) done)
          (submit embed depth (start + midpoint) (batch.drop midpoint))
    | .error raised => some (.error raised)

/-- `list.sort(key=lambda value: value[0])`. -/
def sortByIndex {α : Type} (values : List (ℕ × α)) : List (ℕ × α) :=
  values.insertionSort fun a b => a.1 ≤ b.1

/-- `embed_requests_isolated`. -/
def embedRequestsIsolated (embed : Backend Payload Vector) (depth : ℕ)
    (requests : List (EmbeddingRequest Payload)) : Result Vector :=
  (submit embed depth 0 requests ⟨[], []⟩).map fun result => result.map fun done =>
    ⟨sortByIndex done.successes, sortByIndex done.failures⟩

/-! ## One call -/

section Step

variable {embed : Backend Payload Vector} {depth start : ℕ}
  {batch : List (EmbeddingRequest Payload)} {done : EmbeddingOutcome Vector}

theorem submit_ok {outputs : List (BackendEmbedding Vector)}
    (h : attempt embed batch = .ok outputs) : submit embed (depth + 1) start batch done =
      some (.ok (done.append (answered start outputs))) := by
  rw [submit, h]

theorem submit_refused {e : BatchError} (h : attempt embed batch = .error (.error e))
    (hwhole : batch.length = 1 ∨ e.payloadLocal = false) :
    submit embed (depth + 1) start batch done =
      some (.ok (done.append (refused start batch.length e))) := by
  rw [submit, h]
  exact if_pos hwhole

theorem submit_halves {e : BatchError} (h : attempt embed batch = .error (.error e))
    (hcut : ¬ (batch.length = 1 ∨ e.payloadLocal = false)) :
    submit embed (depth + 1) start batch done =
      andThen (submit embed depth start (batch.take (batch.length / 2)) done)
        (submit embed depth (start + batch.length / 2) (batch.drop (batch.length / 2))) := by
  rw [submit, h]
  exact if_neg hcut

theorem submit_raised {raised : Raised} (h : attempt embed batch = .error raised)
    (hraised : ∀ e, raised ≠ .error e) :
    submit embed (depth + 1) start batch done = some (.error raised) := by
  rw [submit, h]
  cases raised with
  | deadline => rfl
  | interrupted => rfl
  | error e => exact absurd rfl (hraised e)

theorem andThen_eq_ok {first : Result Vector} {next : EmbeddingOutcome Vector → Result Vector}
    {done : EmbeddingOutcome Vector} (h : andThen first next = some (.ok done)) :
    ∃ middle, first = some (.ok middle) ∧ next middle = some (.ok done) := by
  cases first with
  | none => cases h
  | some result =>
    cases result with
    | error raised => cases h
    | ok middle => exact ⟨middle, rfl, h⟩

theorem andThen_ne_none {first : Result Vector} {next : EmbeddingOutcome Vector → Result Vector}
    (hfirst : first ≠ none) (hnext : ∀ done, next done ≠ none) : andThen first next ≠ none := by
  cases first with
  | none => exact absurd rfl hfirst
  | some result =>
    cases result with
    | error raised => exact Option.some_ne_none _
    | ok middle => exact hnext middle

/-- What a call that returns has done: taken the outputs, given the batch up, or cut it. -/
theorem submit_eq_ok {done' : EmbeddingOutcome Vector}
    (h : submit embed (depth + 1) start batch done = some (.ok done')) :
    (∃ outputs, attempt embed batch = .ok outputs ∧ done' = done.append (answered start outputs)) ∨
      ∃ e, attempt embed batch = .error (.error e) ∧
        (((batch.length = 1 ∨ e.payloadLocal = false) ∧
            done' = done.append (refused start batch.length e)) ∨
          (¬ (batch.length = 1 ∨ e.payloadLocal = false) ∧ ∃ middle,
            submit embed depth start (batch.take (batch.length / 2)) done = some (.ok middle) ∧
            submit embed depth (start + batch.length / 2) (batch.drop (batch.length / 2)) middle =
              some (.ok done'))) := by
  cases hattempt : attempt embed batch with
  | ok outputs =>
    rw [submit_ok hattempt] at h
    exact .inl ⟨outputs, rfl, (Except.ok.inj (Option.some.inj h)).symm⟩
  | error raised =>
    cases raised with
    | deadline =>
      rw [submit_raised hattempt fun e he => by cases he] at h
      cases h
    | interrupted =>
      rw [submit_raised hattempt fun e he => by cases he] at h
      cases h
    | error e =>
      refine .inr ⟨e, rfl, ?_⟩
      by_cases hwhole : batch.length = 1 ∨ e.payloadLocal = false
      · rw [submit_refused hattempt hwhole] at h
        exact .inl ⟨hwhole, (Except.ok.inj (Option.some.inj h)).symm⟩
      · rw [submit_halves hattempt hwhole] at h
        exact .inr ⟨hwhole, andThen_eq_ok h⟩

end Step

/-! ## Every index once -/

/-- What the calls for a batch that was cut off at `start` add to the lists. -/
structure Placed (start : ℕ) (batch : List (EmbeddingRequest Payload))
    (added : EmbeddingOutcome Vector) : Prop where
  covered : (added.successes.map Prod.fst ++ added.failures.map Prod.fst).Perm
    (List.range' start batch.length)
  successes : (added.successes.map Prod.fst).Pairwise (· < ·)
  failures : (added.failures.map Prod.fst).Pairwise (· < ·)
  own : ∀ success ∈ added.successes, ∃ request, batch[success.1 - start]? = some request ∧
    success.2.requestId = request.requestId

section Placed

variable {embed : Backend Payload Vector} {start : ℕ} {batch : List (EmbeddingRequest Payload)}

theorem attempt_of_ok {results : List (BackendEmbedding Vector)} (h : embed batch = .ok results) :
    attempt embed batch =
      if results.length ≠ batch.length then
        .error (.error (.runtime "embedding backend returned an incomplete batch"))
      else if (batch.zip results).any fun pair => pair.2.requestId ≠ pair.1.requestId then
        .error (.error (.runtime "embedding backend changed request order"))
      else .ok results := by
  rw [attempt, h]
  rfl

/-- Outputs that are accepted answer the requests one by one. -/
theorem attempt_eq_ok {outputs : List (BackendEmbedding Vector)}
    (h : attempt embed batch = .ok outputs) : embed batch = .ok outputs ∧
      outputs.map BackendEmbedding.requestId = batch.map EmbeddingRequest.requestId := by
  cases hembed : embed batch with
  | error raised =>
    rw [attempt, hembed] at h
    cases h
  | ok results =>
    rw [attempt_of_ok hembed] at h
    split_ifs at h with hlength horder
    obtain rfl : results = outputs := Except.ok.inj h
    refine ⟨rfl, List.ext_getElem (by simpa using hlength) fun i hi hi' => ?_⟩
    rw [List.length_map] at hi hi'
    rw [List.getElem_map, List.getElem_map]
    by_contra hne
    refine horder (List.any_eq_true.mpr ⟨(batch[i], results[i]), ?_, decide_eq_true hne⟩)
    exact List.mem_iff_getElem.mpr ⟨i, by rw [List.length_zip]; omega, List.getElem_zip⟩

theorem map_fst_answered (outputs : List (BackendEmbedding Vector)) :
    (answered start outputs).successes.map Prod.fst = List.range' start outputs.length := by
  have hindices : outputs.zipIdx.map Prod.snd = List.range outputs.length := by
    rw [List.zipIdx_map_snd, List.range_eq_range']
  rw [answered, List.map_map, List.range'_eq_map_range, ← hindices, List.map_map]
  rfl

theorem map_fst_refused (e : BatchError) (length : ℕ) :
    (refused start length e : EmbeddingOutcome Vector).failures.map Prod.fst =
      List.range' start length := by
  rw [refused, List.map_map, List.range'_eq_map_range]
  rfl

theorem Placed.answered {outputs : List (BackendEmbedding Vector)}
    (h : attempt embed batch = .ok outputs) : Placed start batch (answered start outputs) := by
  have hids := (attempt_eq_ok h).2
  have hlength : outputs.length = batch.length := by
    simpa using congrArg List.length hids
  refine ⟨?_, ?_, List.Pairwise.nil, fun success hsuccess => ?_⟩
  · rw [map_fst_answered, hlength]
    exact List.Perm.of_eq (List.append_nil _)
  · rw [map_fst_answered]
    exact List.pairwise_lt_range'
  · obtain ⟨output, houtput, rfl⟩ := List.mem_map.mp hsuccess
    have hget := List.mem_zipIdx_iff_getElem?.mp houtput
    have hid := congrArg (fun ids => ids[output.2]?) hids
    simp only [List.getElem?_map, hget, Option.map_some] at hid
    obtain ⟨request, hrequest, hid⟩ := Option.map_eq_some_iff.mp hid.symm
    exact ⟨request, by rw [Nat.add_sub_cancel_left, hrequest], hid.symm⟩

theorem Placed.refused (e : BatchError) :
    Placed start batch (refused start batch.length e : EmbeddingOutcome Vector) := by
  refine ⟨?_, List.Pairwise.nil, ?_, fun success hsuccess => ?_⟩
  · rw [map_fst_refused]
    exact List.Perm.refl _
  · rw [map_fst_refused]
    exact List.pairwise_lt_range'
  · exact absurd hsuccess List.not_mem_nil

/-- The indices of a call lie in its batch. -/
theorem Placed.bounds {added : EmbeddingOutcome Vector} (h : Placed start batch added) {i : ℕ}
    (hi : i ∈ added.successes.map Prod.fst ∨ i ∈ added.failures.map Prod.fst) :
    start ≤ i ∧ i < start + batch.length := by
  have hmem := h.covered.mem_iff.mp (List.mem_append.mpr hi)
  rw [List.mem_range'_1] at hmem
  exact hmem

/-- The calls for the two halves of a batch, at the two halves of its indices. -/
theorem Placed.append {m : ℕ} (hm : m ≤ batch.length) {a b : EmbeddingOutcome Vector}
    (ha : Placed start (batch.take m) a) (hb : Placed (start + m) (batch.drop m) b) :
    Placed start batch (a.append b) := by
  have hlength : (batch.take m).length = m := List.length_take_of_le hm
  have hbelow : ∀ i j, (i ∈ a.successes.map Prod.fst ∨ i ∈ a.failures.map Prod.fst) →
      (j ∈ b.successes.map Prod.fst ∨ j ∈ b.failures.map Prod.fst) → i < j := by
    intro i j hi hj
    have := ha.bounds hi
    have := hb.bounds hj
    omega
  refine ⟨?_, ?_, ?_, fun success hsuccess => ?_⟩
  · have hcut : List.range' start batch.length =
        List.range' start m ++ List.range' (start + m) (batch.length - m) := by
      rw [List.range'_append_1, Nat.add_sub_cancel' hm]
    have hcovered := ha.covered.append hb.covered
    rw [hlength, List.length_drop, ← hcut] at hcovered
    refine List.Perm.trans ?_ hcovered
    simp only [EmbeddingOutcome.append, List.map_append, List.append_assoc]
    refine List.Perm.append_left _ ?_
    rw [← List.append_assoc, ← List.append_assoc]
    exact List.perm_append_comm.append_right _
  · rw [EmbeddingOutcome.append, List.map_append, List.pairwise_append]
    exact ⟨ha.successes, hb.successes, fun i hi j hj => hbelow i j (.inl hi) (.inl hj)⟩
  · rw [EmbeddingOutcome.append, List.map_append, List.pairwise_append]
    exact ⟨ha.failures, hb.failures, fun i hi j hj => hbelow i j (.inr hi) (.inr hj)⟩
  · rcases List.mem_append.mp hsuccess with hs | hs
    · obtain ⟨request, hrequest, hid⟩ := ha.own success hs
      refine ⟨request, ?_, hid⟩
      rw [List.getElem?_take] at hrequest
      split_ifs at hrequest with hlt
      · exact hrequest
    · obtain ⟨request, hrequest, hid⟩ := hb.own success hs
      have := (hb.bounds (.inl (List.mem_map_of_mem hs))).1
      refine ⟨request, ?_, hid⟩
      rw [List.getElem?_drop] at hrequest
      rw [← hrequest]
      congr 1
      omega

end Placed

/-- **One call.**  Whatever the backend does, a call that returns has put every index of its
batch into one of the lists. -/
theorem submit_placed {embed : Backend Payload Vector} {depth : ℕ} :
    ∀ {start : ℕ} {batch : List (EmbeddingRequest Payload)} {done done' : EmbeddingOutcome Vector},
      submit embed depth start batch done = some (.ok done') →
      ∃ added, done' = done.append added ∧ Placed start batch added := by
  induction depth with
  | zero =>
    intro start batch done done' h
    cases h
  | succ depth ih =>
    intro start batch done done' h
    obtain ⟨outputs, hattempt, rfl⟩ | ⟨e, hattempt, ⟨-, rfl⟩ | ⟨-, middle, hfirst, hsecond⟩⟩ :=
      submit_eq_ok h
    · exact ⟨_, rfl, Placed.answered hattempt⟩
    · exact ⟨_, rfl, Placed.refused e⟩
    · obtain ⟨a, rfl, ha⟩ := ih hfirst
      obtain ⟨b, rfl, hb⟩ := ih hsecond
      exact ⟨a.append b, EmbeddingOutcome.append_assoc done a b,
        ha.append (Nat.div_le_self _ _) hb⟩

section Results

variable {embed : Backend Payload Vector} {depth start : ℕ}
  {batch requests : List (EmbeddingRequest Payload)} {done outcome : EmbeddingOutcome Vector}

theorem sortByIndex_of_pairwise {α : Type} {values : List (ℕ × α)}
    (h : (values.map Prod.fst).Pairwise (· < ·)) : sortByIndex values = values := by
  rw [List.pairwise_map] at h
  exact (h.imp fun hab => Nat.le_of_lt hab).insertionSort_eq

/-- The lists are in order before they are sorted. -/
theorem embedRequestsIsolated_eq_ok
    (h : embedRequestsIsolated embed depth requests = some (.ok outcome)) :
    submit embed depth 0 requests ⟨[], []⟩ = some (.ok outcome) ∧ Placed 0 requests outcome := by
  rw [embedRequestsIsolated] at h
  obtain ⟨result, hresult, h⟩ := Option.map_eq_some_iff.mp h
  cases result with
  | error raised => cases h
  | ok done =>
    obtain ⟨added, rfl, hadded⟩ := submit_placed hresult
    have hsorted : (⟨sortByIndex added.successes, sortByIndex added.failures⟩ :
        EmbeddingOutcome Vector) = outcome := Except.ok.inj h
    rw [sortByIndex_of_pairwise hadded.successes, sortByIndex_of_pairwise hadded.failures]
      at hsorted
    subst hsorted
    exact ⟨hresult, hadded⟩

/-! ## The recursion ends -/

/-- The depth that a batch needs is logarithmic. -/
theorem submit_returns {d : ℕ} : ∀ {start : ℕ} {batch : List (EmbeddingRequest Payload)}
    {done : EmbeddingOutcome Vector}, batch ≠ [] → batch.length ≤ 2 ^ d →
      submit embed (d + 1) start batch done ≠ none := by
  induction d with
  | zero =>
    intro start batch done hne hlength
    have hone : batch.length = 1 := by
      have := List.length_pos_of_ne_nil hne
      omega
    intro hnone
    cases hattempt : attempt embed batch with
    | ok outputs =>
      rw [submit_ok hattempt] at hnone
      cases hnone
    | error raised =>
      cases raised with
      | error e =>
        rw [submit_refused hattempt (.inl hone)] at hnone
        cases hnone
      | _ =>
        rw [submit_raised hattempt fun e he => by cases he] at hnone
        cases hnone
  | succ d ih =>
    intro start batch done hne hlength
    cases hattempt : attempt embed batch with
    | ok outputs =>
      rw [submit_ok hattempt]
      exact Option.some_ne_none _
    | error raised =>
      cases raised with
      | error e =>
        by_cases hwhole : batch.length = 1 ∨ e.payloadLocal = false
        · rw [submit_refused hattempt hwhole]
          exact Option.some_ne_none _
        · rw [submit_halves hattempt hwhole]
          -- two or more requests: both halves are shorter, and neither is empty
          have hpos := List.length_pos_of_ne_nil hne
          have htwo : 2 ≤ batch.length := by
            have hnotOne : batch.length ≠ 1 := fun hone => hwhole (.inl hone)
            omega
          have hpow : 2 ^ (d + 1) = 2 * 2 ^ d := by rw [pow_succ, Nat.mul_comm]
          refine andThen_ne_none (ih ?_ ?_) fun middle => ih ?_ ?_
          · rw [← List.length_pos_iff, List.length_take]
            omega
          · rw [List.length_take]
            omega
          · rw [← List.length_pos_iff, List.length_drop]
            omega
          · rw [List.length_drop]
            omega
      | _ =>
        rw [submit_raised hattempt fun e he => by cases he]
        exact Option.some_ne_none _

/-- A payload-local error is one that the backend raised. -/
theorem attempt_eq_payloadLocal {e : BatchError} (he : e.payloadLocal = true) :
    attempt embed batch = .error (.error e) ↔ embed batch = .error (.error e) := by
  constructor
  · intro h
    cases hembed : embed batch with
    | error raised =>
      rw [attempt, hembed] at h
      exact h
    | ok results =>
      rw [attempt_of_ok hembed] at h
      split_ifs at h with hlength horder
      · obtain rfl := Raised.error.inj (Except.error.inj h)
        cases he
      · obtain rfl := Raised.error.inj (Except.error.inj h)
        cases he
  · intro h
    rw [attempt, h]
    rfl

/-- The backend blames a payload of the batch without payloads. -/
def RefusesEmpty (embed : Backend Payload Vector) : Prop :=
  ∃ e, embed [] = .error (.error e) ∧ e.payloadLocal = true

/-- Such a batch is its own halves. -/
theorem submit_empty_eq_none (h : RefusesEmpty embed) :
    ∀ (depth start : ℕ) (done : EmbeddingOutcome Vector),
      submit embed depth start [] done = none := by
  obtain ⟨e, hembed, he⟩ := h
  have hattempt := (attempt_eq_payloadLocal he).mpr hembed
  intro depth
  induction depth with
  | zero => exact fun _ _ => rfl
  | succ depth ih =>
    intro start done
    have hcut : ¬ (([] : List (EmbeddingRequest Payload)).length = 1 ∨
        e.payloadLocal = false) := by simp [he]
    rw [submit_halves hattempt hcut, List.take_nil, ih]
    rfl

theorem submit_empty_returns (h : ¬ RefusesEmpty embed) :
    submit embed 1 start [] done ≠ none := by
  cases hattempt : attempt embed [] with
  | ok outputs =>
    rw [submit_ok hattempt]
    exact Option.some_ne_none _
  | error raised =>
    cases raised with
    | error e =>
      cases he : e.payloadLocal with
      | true => exact absurd ⟨e, (attempt_eq_payloadLocal he).mp hattempt, he⟩ h
      | false =>
        rw [submit_refused hattempt (.inr he)]
        exact Option.some_ne_none _
    | _ =>
      rw [submit_raised hattempt fun e he => by cases he]
      exact Option.some_ne_none _

theorem embedRequestsIsolated_ne_none :
    embedRequestsIsolated embed depth requests ≠ none ↔
      submit embed depth 0 requests ⟨[], []⟩ ≠ none := by
  rw [embedRequestsIsolated, ne_eq, ne_eq, Option.map_eq_none_iff]

/-- The recursion ends but on an empty batch that the backend blames on a payload. -/
theorem embedRequestsIsolated_returns_iff :
    (∃ depth, embedRequestsIsolated embed depth requests ≠ none) ↔
      requests ≠ [] ∨ ¬ RefusesEmpty embed := by
  simp only [embedRequestsIsolated_ne_none]
  constructor
  · rintro ⟨depth, hdepth⟩
    by_contra hnot
    rw [not_or, not_not, not_not] at hnot
    obtain ⟨rfl, hrefuses⟩ := hnot
    exact hdepth (submit_empty_eq_none hrefuses _ _ _)
  · intro h
    by_cases hempty : requests = []
    · subst hempty
      exact ⟨1, submit_empty_returns (h.resolve_left fun hne => hne rfl)⟩
    · exact ⟨_, submit_returns hempty (Nat.lt_two_pow_self).le⟩

end Results

/-! ## The failures are the bad requests -/

/-- A backend that fails by its payloads: a payload-local error says that the batch holds a bad
request, and a batch without one is answered. -/
structure FailsByPayload (embed : Backend Payload Vector) (bad : EmbeddingRequest Payload → Bool) :
    Prop where
  fails : ∀ batch, (∃ e, embed batch = .error (.error e) ∧ e.payloadLocal = true) ↔
    ∃ request ∈ batch, bad request = true
  answers : ∀ batch, (∀ request ∈ batch, bad request = false) → ∃ outputs,
    embed batch = .ok outputs ∧
      outputs.map BackendEmbedding.requestId = batch.map EmbeddingRequest.requestId

/-- The indices of the bad requests of a batch that was cut off at `start`. -/
def badIndices (bad : EmbeddingRequest Payload → Bool) (start : ℕ)
    (batch : List (EmbeddingRequest Payload)) : List ℕ :=
  ((batch.zipIdx start).filter fun request => bad request.1).map Prod.snd

section Bad

variable {embed : Backend Payload Vector} {bad : EmbeddingRequest Payload → Bool}
  {depth start : ℕ} {batch requests : List (EmbeddingRequest Payload)}

theorem badIndices_append (b c : List (EmbeddingRequest Payload)) :
    badIndices bad start (b ++ c) = badIndices bad start b ++ badIndices bad (start + b.length) c := by
  simp [badIndices, List.zipIdx_append]

theorem badIndices_of_good (h : ∀ request ∈ batch, bad request = false) :
    badIndices bad start batch = [] := by
  rw [badIndices, List.map_eq_nil_iff, List.filter_eq_nil_iff]
  intro request hrequest
  rw [h request.1 (List.fst_mem_of_mem_zipIdx hrequest)]
  exact Bool.false_ne_true

theorem attempt_of_answers {outputs : List (BackendEmbedding Vector)}
    (h : embed batch = .ok outputs)
    (hids : outputs.map BackendEmbedding.requestId = batch.map EmbeddingRequest.requestId) :
    attempt embed batch = .ok outputs := by
  have hlength : outputs.length = batch.length := by
    simpa using congrArg List.length hids
  have horder : ¬ ((batch.zip outputs).any fun pair =>
      pair.2.requestId ≠ pair.1.requestId) = true := by
    intro hany
    obtain ⟨pair, hpair, hne⟩ := List.any_eq_true.mp hany
    obtain ⟨i, hi, rfl⟩ := List.mem_iff_getElem.mp hpair
    have hid := congrArg (fun ids => ids[i]?) hids
    rw [List.length_zip] at hi
    simp only [List.getElem?_map, List.getElem?_eq_getElem (show i < outputs.length by omega),
      List.getElem?_eq_getElem (show i < batch.length by omega), Option.map_some,
      Option.some.injEq] at hid
    rw [List.getElem_zip] at hne
    exact of_decide_eq_true hne hid
  rw [attempt_of_ok h, if_neg (not_not.mpr hlength), if_neg horder]

namespace FailsByPayload

variable (h : FailsByPayload embed bad)

include h

/-- The two things that happen to a batch. -/
theorem attempt_cases (batch : List (EmbeddingRequest Payload)) :
    ((∀ request ∈ batch, bad request = false) ∧ ∃ outputs, attempt embed batch = .ok outputs) ∨
      ((∃ request ∈ batch, bad request = true) ∧
        ∃ e, attempt embed batch = .error (.error e) ∧ e.payloadLocal = true) := by
  by_cases hbad : ∃ request ∈ batch, bad request = true
  · obtain ⟨e, hembed, he⟩ := (h.fails batch).mpr hbad
    exact .inr ⟨hbad, e, (attempt_eq_payloadLocal he).mpr hembed, he⟩
  · have hgood : ∀ request ∈ batch, bad request = false := by
      intro request hrequest
      exact Bool.eq_false_iff.mpr fun hb => hbad ⟨request, hrequest, hb⟩
    obtain ⟨outputs, hembed, hids⟩ := h.answers batch hgood
    exact .inl ⟨hgood, outputs, attempt_of_answers hembed hids⟩

theorem not_refusesEmpty : ¬ RefusesEmpty embed := by
  intro hrefuses
  obtain ⟨request, hrequest, -⟩ := (h.fails []).mp hrefuses
  exact absurd hrequest List.not_mem_nil

/-- No call raises. -/
theorem submit_ne_raised (raised : Raised) : ∀ {start : ℕ}
    {batch : List (EmbeddingRequest Payload)} {done : EmbeddingOutcome Vector},
    submit embed depth start batch done ≠ some (.error raised) := by
  induction depth with
  | zero =>
    intro start batch done hraised
    cases hraised
  | succ depth ih =>
    intro start batch done hraised
    obtain ⟨-, outputs, hattempt⟩ | ⟨-, e, hattempt, he⟩ := h.attempt_cases batch
    · rw [submit_ok hattempt] at hraised
      cases hraised
    · by_cases hwhole : batch.length = 1 ∨ e.payloadLocal = false
      · rw [submit_refused hattempt hwhole] at hraised
        cases hraised
      · rw [submit_halves hattempt hwhole] at hraised
        cases hfirst : submit embed depth start (batch.take (batch.length / 2)) done with
        | none =>
          rw [hfirst] at hraised
          cases hraised
        | some result =>
          cases result with
          | error raised' =>
            rw [hfirst] at hraised
            obtain rfl := Except.error.inj (Option.some.inj hraised)
            exact ih hfirst
          | ok middle =>
            rw [hfirst] at hraised
            exact ih hraised

/-- **One call.**  The failures that a call adds are the bad requests of its batch. -/
theorem submit_failures : ∀ {start : ℕ} {batch : List (EmbeddingRequest Payload)}
    {done done' : EmbeddingOutcome Vector}, submit embed depth start batch done = some (.ok done') →
      done'.failures.map Prod.fst = done.failures.map Prod.fst ++ badIndices bad start batch := by
  induction depth with
  | zero =>
    intro start batch done done' hdone
    cases hdone
  | succ depth ih =>
    intro start batch done done' hdone
    obtain ⟨outputs, hattempt, rfl⟩ | ⟨e, hattempt, ⟨hwhole, rfl⟩ |
      ⟨-, middle, hfirst, hsecond⟩⟩ := submit_eq_ok hdone
    · obtain ⟨hgood, -⟩ | ⟨-, e, he, -⟩ := h.attempt_cases batch
      · rw [badIndices_of_good hgood, EmbeddingOutcome.append, answered]
        simp
      · cases hattempt.symm.trans he
    · obtain ⟨-, outputs, hok⟩ | ⟨hbad, e', he', hlocal⟩ := h.attempt_cases batch
      · cases hattempt.symm.trans hok
      · obtain rfl := Raised.error.inj (Except.error.inj (hattempt.symm.trans he'))
        obtain ⟨request, rfl⟩ :=
          List.length_eq_one_iff.mp (hwhole.resolve_right (by simp [hlocal]))
        obtain ⟨request', hmem, hb⟩ := hbad
        obtain rfl := List.mem_singleton.mp hmem
        rw [EmbeddingOutcome.append, List.map_append, map_fst_refused]
        simp [badIndices, hb]
    · have hmid : (batch.take (batch.length / 2)).length = batch.length / 2 :=
        List.length_take_of_le (Nat.div_le_self _ _)
      rw [ih hsecond, ih hfirst, List.append_assoc]
      conv_rhs => rw [← List.take_append_drop (batch.length / 2) batch, badIndices_append, hmid]

/-- The call returns. -/
theorem returns (requests : List (EmbeddingRequest Payload)) :
    ∃ depth outcome, embedRequestsIsolated embed depth requests = some (.ok outcome) := by
  obtain ⟨depth, hdepth⟩ :=
    embedRequestsIsolated_returns_iff.mpr (.inr h.not_refusesEmpty : requests ≠ [] ∨ _)
  refine ⟨depth, ?_⟩
  rw [embedRequestsIsolated_ne_none] at hdepth
  obtain ⟨result, hresult⟩ := Option.ne_none_iff_exists'.mp hdepth
  cases result with
  | error raised => exact absurd hresult (h.submit_ne_raised raised)
  | ok done =>
    rw [embedRequestsIsolated, hresult]
    exact ⟨_, rfl⟩

theorem failures_eq_badIndices {outcome : EmbeddingOutcome Vector}
    (hok : embedRequestsIsolated embed depth requests = some (.ok outcome)) :
    outcome.failures.map Prod.fst = badIndices bad 0 requests :=
  h.submit_failures (embedRequestsIsolated_eq_ok hok).1

end FailsByPayload

end Bad

/-- **Failure isolation.**  Whatever the backend does, a call that returns has put every index
into one of the two sorted lists, the outputs at their own requests; the recursion ends but on
an empty batch that the backend blames on a payload, and a batch of at most `2 ^ d` requests
needs the depth `d + 1`; and for a backend that fails by its payloads the failures are the bad
requests. -/
theorem embed_requests_isolated_spec (embed : Backend Payload Vector)
    (requests : List (EmbeddingRequest Payload)) :
    (∀ depth outcome, embedRequestsIsolated embed depth requests = some (.ok outcome) →
      Placed 0 requests outcome) ∧
      ((∃ depth, embedRequestsIsolated embed depth requests ≠ none) ↔
        requests ≠ [] ∨ ¬ RefusesEmpty embed) ∧
      (∀ d, requests ≠ [] → requests.length ≤ 2 ^ d →
        embedRequestsIsolated embed (d + 1) requests ≠ none) ∧
      ∀ bad, FailsByPayload embed bad →
        (∃ depth outcome, embedRequestsIsolated embed depth requests = some (.ok outcome)) ∧
          ∀ depth outcome, embedRequestsIsolated embed depth requests = some (.ok outcome) →
            outcome.failures.map Prod.fst = badIndices bad 0 requests :=
  ⟨fun _ _ h => (embedRequestsIsolated_eq_ok h).2, embedRequestsIsolated_returns_iff,
    fun _ hne hlength => embedRequestsIsolated_ne_none.mpr (submit_returns hne hlength),
    fun _ h => ⟨h.returns requests, fun _ _ hok => h.failures_eq_badIndices hok⟩⟩

end Isolation

/-! ### A mutable source between two stable ones -/

/-- A backend that refuses a batch with a marked payload. -/
def markedBackend : Backend Bool Unit := fun batch =>
  if batch.any EmbeddingRequest.payload then
    .error (.error (.sourceRevisionMismatch "source changed"))
  else .ok (batch.map fun request => ⟨request.requestId, ()⟩)

theorem markedBackend_failsByPayload :
    FailsByPayload markedBackend EmbeddingRequest.payload := by
  constructor
  · intro batch
    rw [markedBackend, ← List.any_eq_true]
    by_cases hany : batch.any EmbeddingRequest.payload = true
    · rw [if_pos hany]
      exact iff_of_true ⟨_, rfl, rfl⟩ hany
    · rw [if_neg hany]
      refine iff_of_false ?_ hany
      rintro ⟨e, he, -⟩
      cases he
  · intro batch hgood
    have hany : ¬ batch.any EmbeddingRequest.payload = true := by
      intro h
      obtain ⟨request, hrequest, hb⟩ := List.any_eq_true.mp h
      rw [hgood request hrequest] at hb
      cases hb
    refine ⟨_, if_neg hany, ?_⟩
    rw [List.map_map]
    rfl

theorem markedBackend_isolates :
    let requests : List (EmbeddingRequest Bool) :=
      [⟨lit "stable-1", false⟩, ⟨lit "mutable", true⟩, ⟨lit "stable-2", false⟩]
    let outcome : EmbeddingOutcome Unit :=
      ⟨[(0, ⟨lit "stable-1", ()⟩), (2, ⟨lit "stable-2", ()⟩)],
        [(1, .sourceRevisionMismatch "source changed")]⟩
    embedRequestsIsolated markedBackend 3 requests = some (.ok outcome) ∧
      Placed 0 requests outcome ∧ outcome.failures.map Prod.fst = [1] := by
  have hok : embedRequestsIsolated markedBackend 3
      [⟨lit "stable-1", false⟩, ⟨lit "mutable", true⟩, ⟨lit "stable-2", false⟩] =
        some (.ok ⟨[(0, ⟨lit "stable-1", ()⟩), (2, ⟨lit "stable-2", ()⟩)],
          [(1, .sourceRevisionMismatch "source changed")]⟩) := by
    decide +kernel
  have hspec := embed_requests_isolated_spec markedBackend
    [⟨lit "stable-1", false⟩, ⟨lit "mutable", true⟩, ⟨lit "stable-2", false⟩]
  exact ⟨hok, hspec.1 3 _ hok,
    (hspec.2.2.2 _ markedBackend_failsByPayload).2 3 _ hok⟩

/-- Two backends outside the conditions above: one that blames the empty batch on a payload, for
which no depth is enough, and one that raises a systemic error at every batch, so that a request
fails although none is bad. -/
theorem isolation_needs_conditions :
    (∀ depth, embedRequestsIsolated (fun _ : List (EmbeddingRequest Unit) =>
      (.error (.error (.sourceRevisionMismatch "source changed")) :
        Except Raised (List (BackendEmbedding Unit)))) depth [] = none) ∧
      let systemic : Backend Unit Unit := fun _ => .error (.error (.other "systemic failure"))
      (∀ batch, (∃ e, systemic batch = .error (.error e) ∧ e.payloadLocal = true) ↔
        ∃ request ∈ batch, (fun _ => false : EmbeddingRequest Unit → Bool) request = true) ∧
        embedRequestsIsolated systemic 1 [⟨lit "request-0", ()⟩] =
          some (.ok ⟨[], [(0, .other "systemic failure")]⟩) ∧
        badIndices (fun _ => false) 0 [(⟨lit "request-0", ()⟩ : EmbeddingRequest Unit)] = [] := by
  refine ⟨fun depth => ?_, fun batch => ?_, by decide +kernel, rfl⟩
  · rw [embedRequestsIsolated, submit_empty_eq_none ⟨_, rfl, rfl⟩]
    rfl
  · refine iff_of_false ?_ (by simp)
    rintro ⟨e, he, hlocal⟩
    obtain rfl := Raised.error.inj (Except.error.inj he)
    cases hlocal

end Semantic
end Neocortex
