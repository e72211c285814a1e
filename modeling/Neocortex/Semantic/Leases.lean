import Neocortex.Semantic.Attempts

/-!
# Leases

Workers claim batches of jobs, complete them with vectors, prolong, fail or release them, while
other transactions expire, requeue, rebind or mark them stale.  A lease carries no token: a
completion is checked by the worker's name and the time only.  Beside the database, `World`
records what the workers know and what has happened: every lease that a claim has returned, the
batches that are outstanding, the leases that still stand, and the completions that were
accepted.

A claim of a worker is allowed only when none of its batches is outstanding.
-/

namespace Neocortex
namespace Semantic

open Python Rows Checks

variable {s : Scope} {db db' : Database}

/-! ## What the statements leave of the leases -/

/-- Every lease is one that was there. -/
def LeasesKept (db db' : Database) : Prop :=
  ∀ j' ∈ db'.jobs, j'.status = .leased → ∃ j ∈ db.jobs, j.status = .leased ∧
    j'.identity = j.identity ∧ j'.fingerprint = j.fingerprint ∧ j'.leaseOwner = j.leaseOwner ∧
    j'.leaseUntilNs = j.leaseUntilNs

theorem LeasesKept.refl (db : Database) : LeasesKept db db :=
  fun j hj hleased => ⟨j, hj, hleased, rfl, rfl, rfl, rfl⟩

theorem LeasesKept.trans {db₁ db₂ db₃ : Database} (h : LeasesKept db₁ db₂)
    (h' : LeasesKept db₂ db₃) : LeasesKept db₁ db₃ := by
  intro j₃ hj₃ hleased
  obtain ⟨j₂, hj₂, hleased₂, hid, hfinger, howner, huntil⟩ := h' j₃ hj₃ hleased
  obtain ⟨j₁, hj₁, hleased₁, hid', hfinger', howner', huntil'⟩ := h j₂ hj₂ hleased₂
  exact ⟨j₁, hj₁, hleased₁, hid.trans hid', hfinger.trans hfinger', howner.trans howner',
    huntil.trans huntil'⟩

/-- The columns that the trigger on updates leaves. -/
theorem afterUpdate_lease (db : Database) (old new : EmbeddingJob) :
    (db.afterUpdate old new).status = new.status ∧
      (db.afterUpdate old new).fingerprint = new.fingerprint ∧
      (db.afterUpdate old new).leaseOwner = new.leaseOwner ∧
      (db.afterUpdate old new).leaseUntilNs = new.leaseUntilNs := by
  unfold Database.afterUpdate
  split_ifs <;> exact ⟨rfl, rfl, rfl, rfl⟩

theorem Statement.leasesKept (hs : s ≠ .leases) (hstep : Statement s db db') :
    LeasesKept db db' := by
  intro j' hj' hleased
  rcases hstep.jobs_cases with ⟨f, hf, hjobs⟩ | ⟨j, hj, rfl⟩ | ⟨p, f, hrow, hlease, -, rfl⟩ | ⟨p, rfl⟩
  · rw [hjobs] at hj'
    obtain ⟨j, hj, rfl⟩ := List.mem_map.mp hj'
    obtain ⟨_, _, hmark⟩ := hf j
    rw [hmark] at hleased ⊢
    exact ⟨j, hj, hleased, rfl, rfl, rfl, rfl⟩
  · rcases List.mem_append.mp hj' with hj' | hj'
    · exact ⟨j', hj', hleased, rfl, rfl, rfl, rfl⟩
    · rw [List.mem_singleton.mp hj'] at hleased
      exact absurd hleased hj.status
  · obtain ⟨j, hj, rfl⟩ := mem_updateWhere.mp hj'
    refine ⟨j, hj, ?_⟩
    by_cases hp : p j = true
    · obtain ⟨hstatus, hfinger, howner, huntil⟩ := afterUpdate_lease db j (f j)
      rw [if_pos hp] at hleased ⊢
      obtain ⟨hold, hfinger', howner', huntil'⟩ := hlease hs j hj hp (hstatus ▸ hleased)
      exact ⟨hold, (identity_afterUpdate _ _ _).trans (hrow j hj hp).identity,
        hfinger.trans hfinger', howner.trans howner', huntil.trans huntil'⟩
    · rw [if_neg hp] at hleased ⊢
      exact ⟨hleased, rfl, rfl, rfl, rfl⟩
  · exact ⟨j', (mem_deleteWhere.mp hj').1, hleased, rfl, rfl, rfl, rfl⟩

theorem Transaction.leasesKept (hs : s ≠ .leases) (ht : Transaction s db db') :
    LeasesKept db db' := by
  induction ht with
  | refl => exact LeasesKept.refl db
  | tail _ hstep ih => exact ih.trans (hstep.leasesKept hs)

/-- Only a completion writes a payload. -/
theorem Statement.payloads (hs : s ≠ .results) (hstep : Statement s db db') :
    db'.payloads = db.payloads := by
  have hsource : SourceWrite db db' → db'.payloads = db.payloads := by
    rintro ⟨items, chunks, rfl | ⟨p, rfl⟩⟩ <;> rfl
  cases hstep with
  | registerModel m =>
    unfold Database.registerModel
    split_ifs <;> rfl
  | insertItem i => exact hsource (sourceWrite_insertItem db i)
  | updateItem id new => exact hsource (sourceWrite_updateItem db id new)
  | deleteItem id => exact hsource (sourceWrite_deleteItem db id)
  | insertChunk c => exact hsource (sourceWrite_insertChunk db c)
  | updateChunk id new => exact hsource (sourceWrite_updateChunk db id new)
  | deleteChunk id => exact hsource (sourceWrite_deleteChunk db id)
  | insertPayload signature fingerprint blob hs' _ => exact absurd hs' hs
  | insertMember m _ =>
    unfold Database.insertMember
    split_ifs <;> rfl
  | upsertMember m _ =>
    unfold Database.upsertMember Database.insertMember
    dsimp only
    split_ifs <;> rfl
  | publish signature expected id _ _ =>
    unfold Database.publishHead
    split <;> rfl
  | _ => rfl

theorem Transaction.payloads (hs : s ≠ .results) (ht : Transaction s db db') :
    db'.payloads = db.payloads := by
  induction ht with
  | refl => rfl
  | tail _ hstep ih => exact (hstep.payloads hs).trans ih

/-! ## Workers -/

/-- A lease as a claim has returned it to a worker; `claim` numbers the claims. -/
structure Grant where
  claim : ℕ
  workerId : Text
  lease : EmbeddingJobLease

/-- A lease that has neither been taken away nor been given back. -/
structure Standing where
  claim : ℕ
  jobId : ℕ
  workerId : Text
  untilNs : ℕ

/-- A completion that was accepted. -/
structure Accepted where
  grant : Grant
  blob : List UInt8
  nowNs : ℕ

/-- One lease of one claim. -/
def Grant.token (g : Grant) : ℕ × ℕ := (g.claim, g.lease.jobId)

def Standing.token (l : Standing) : ℕ × ℕ := (l.claim, l.jobId)

structure World where
  db : Database
  issued : List Grant
  held : List Grant
  standing : List Standing
  accepted : List Accepted
  claims : ℕ

def World.initial : World := ⟨Database.empty, [], [], [], [], 0⟩

/-- A lease stands as long as its job is leased. -/
def Database.stands (db : Database) (l : Standing) : Bool :=
  db.jobs.any fun j => j.jobId == l.jobId && decide (j.status = .leased)

/-- What a heartbeat does to a lease that stands. -/
def prolong (jobIds : List ℕ) (workerId : Text) (leaseNs nowNs : ℕ) (l : Standing) : Standing :=
  if jobIds.contains l.jobId && l.workerId == workerId && decide (nowNs < l.untilNs) then
    { l with untilNs := max l.untilNs (nowNs + leaseNs) }
  else l

def prolonged (standing : List Standing) : Op → List Standing
  | .heartbeat jobIds workerId leaseNs nowNs =>
    standing.map (prolong jobIds workerId leaseNs nowNs)
  | _ => standing

inductive Action where
  /-- Any transaction but a claim or a completion. -/
  | op (o : Op)
  | claim (call : ClaimCall)
  /-- A worker completes one of its leases with a vector. -/
  | complete (g : Grant) (blob : List UInt8) (nowNs : ℕ) (a : Attachment)
  /-- A worker is done with its batch. -/
  | finish (workerId : Text)

/-- No worker has two outstanding batches, and a completion is one of its own leases. -/
def World.Allowed (w : World) : Action → Prop
  | .op o => (∀ call, o ≠ .claim call) ∧ ∀ id worker blob now a, o ≠ .complete id worker blob now a
  | .claim call => ∀ g ∈ w.held, g.workerId ≠ call.workerId
  | .complete g _ _ _ => g ∈ w.held
  | .finish _ => True

/-- The leases of a batch, as grants. -/
def World.grants (w : World) (workerId : Text) (leases : List EmbeddingJobLease) : List Grant :=
  leases.map fun l => ⟨w.claims, workerId, l⟩

def World.afterClaim (w : World) (workerId : Text) (db : Database)
    (leases : List EmbeddingJobLease) : World where
  db := db
  issued := w.issued ++ w.grants workerId leases
  held := w.held ++ w.grants workerId leases
  standing :=
    (w.standing.filter fun l => !(leases.any fun lease => lease.jobId == l.jobId) && db.stands l) ++
      leases.map fun lease => ⟨w.claims, lease.jobId, workerId, lease.leaseUntilNs⟩
  accepted := w.accepted
  claims := w.claims + 1

/-- The leases that no longer stand go. -/
def World.settle (w : World) (db : Database) : World :=
  { w with db := db, standing := w.standing.filter db.stands }

def World.step (w : World) : Action → World
  | .op o =>
    match w.db.perform o with
    | none => w
    | some (db, _) => { w with standing := prolonged w.standing o }.settle db
  | .claim call =>
    match w.db.claimEmbeddingJobs call with
    | none => w
    | some (db, leases) => w.afterClaim call.workerId db leases
  | .complete g blob nowNs a =>
    match w.db.completeEmbeddingJob g.lease.jobId g.workerId blob nowNs a with
    | none => w
    | some (db, .stale) => w.settle db
    | some (db, .accepted) =>
      { w.settle db with accepted := w.accepted ++ [⟨g, blob, nowNs⟩] }
  | .finish workerId => { w with held := w.held.filter fun g => g.workerId != workerId }

/-- The worlds that allowed actions lead to. -/
inductive Reachable : World → Prop where
  | initial : Reachable World.initial
  | step {w : World} (h : Reachable w) (a : Action) (ha : w.Allowed a) : Reachable (w.step a)

/-! ## The invariant -/

/-- At most one lease covers a key of a generation. -/
def Database.Exclusive (db : Database) : Prop :=
  ∀ j ∈ db.jobs, ∀ other ∈ db.jobs, j.status = .leased → other.status = .leased →
    j.generationId = other.generationId → j.workKey = other.workKey → j = other

/-- The leases in the database are those that stand, and those that stand are the latest of
their workers. -/
structure World.Leased (w : World) : Prop where
  rows : w.db.JobRows
  exclusive : w.db.Exclusive
  standing : ∀ j ∈ w.db.jobs, j.status = .leased → ∃ l ∈ w.standing, l.jobId = j.jobId ∧
    j.leaseOwner = some l.workerId ∧ j.leaseUntilNs = some l.untilNs
  unique : Unique Standing.jobId w.standing
  claims : ∀ g ∈ w.issued, g.claim < w.claims
  issued : Unique Grant.token w.issued
  granted : ∀ l ∈ w.standing, ∃ g ∈ w.issued, g.token = l.token ∧ g.workerId = l.workerId ∧
    ∀ j ∈ w.db.jobs, j.jobId = l.jobId → j.status = .leased →
      j.fingerprint = g.lease.fingerprint ∧ j.modelSignature = g.lease.modelSignature
  held : ∀ g ∈ w.held, g ∈ w.issued
  latest : ∀ g ∈ w.held, ∀ l ∈ w.standing, l.jobId = g.lease.jobId → l.workerId = g.workerId →
    l.claim = g.claim

/-- The accepted completions are of leases that are spent, and account for the payloads. -/
structure World.Ledger (w : World) : Prop where
  spent : ∀ c ∈ w.accepted, ∀ l ∈ w.standing, l.token ≠ c.grant.token
  once : Unique (fun c : Accepted => c.grant.token) w.accepted
  issued : ∀ c ∈ w.accepted, c.grant ∈ w.issued
  payloads : ∀ p ∈ w.db.payloads, ∃ c ∈ w.accepted, p.vectorBlob = c.blob ∧
    p.modelSignature = c.grant.lease.modelSignature ∧ p.fingerprint = c.grant.lease.fingerprint

theorem leased_initial : World.initial.Leased where
  rows := jobRows_empty
  exclusive := fun _ h => nomatch h
  standing := fun _ h => nomatch h
  unique := unique_nil _
  claims := fun _ h => nomatch h
  issued := unique_nil _
  granted := fun _ h => nomatch h
  held := fun _ h => nomatch h
  latest := fun _ h => nomatch h

theorem ledger_initial : World.initial.Ledger where
  spent := fun _ h => nomatch h
  once := unique_nil _
  issued := fun _ h => nomatch h
  payloads := fun _ h => nomatch h

/-- A job that is leased makes the lease that it has stand. -/
theorem stands_of_leased {j : EmbeddingJob} (hj : j ∈ db.jobs) (hleased : j.status = .leased)
    {l : Standing} (hid : l.jobId = j.jobId) : db.stands l = true := by
  refine List.any_eq_true.mpr ⟨j, hj, ?_⟩
  simp [hid, hleased]

theorem workKey_congr {j j' : EmbeddingJob} (hid : j'.identity = j.identity)
    (hfinger : j'.fingerprint = j.fingerprint) : j'.workKey = j.workKey := by
  rw [EmbeddingJob.workKey, EmbeddingJob.workKey, hfinger]
  exact congrArg (·, j.fingerprint) (congrArg JobIdentity.modelSignature hid)

/-- Leases that were there before, of the same jobs and the same content. -/
theorem Database.Exclusive.of_kept (h : db.Exclusive) (hrows : db'.JobRows)
    (hkept : ∀ j' ∈ db'.jobs, j'.status = .leased → ∃ j ∈ db.jobs, j.status = .leased ∧
      j'.identity = j.identity ∧ j'.fingerprint = j.fingerprint) : db'.Exclusive := by
  intro j' hj' other' hother' hleased hleased' hgeneration hkey
  obtain ⟨j, hj, hjl, hjid, hjf⟩ := hkept j' hj' hleased
  obtain ⟨other, hother, hol, hoid, hof⟩ := hkept other' hother' hleased'
  have hsame : j = other := by
    refine h j hj other hother hjl hol ?_ ?_
    · exact (congrArg JobIdentity.generationId hjid).symm.trans
        (hgeneration.trans (congrArg JobIdentity.generationId hoid))
    · exact (workKey_congr hjid hjf).symm.trans (hkey.trans (workKey_congr hoid hof))
  refine hrows.unique_jobs.eq hj' hother' ?_
  exact (congrArg JobIdentity.jobId hjid).trans
    ((congrArg EmbeddingJob.jobId hsame).trans (congrArg JobIdentity.jobId hoid).symm)

/-- A transaction that leases nothing. -/
theorem World.Leased.settle {w : World} (h : w.Leased) (hkept : LeasesKept w.db db)
    (hrows : db.JobRows) : (w.settle db).Leased where
  rows := hrows
  exclusive := Database.Exclusive.of_kept h.exclusive hrows fun j' hj' hleased => by
    obtain ⟨j, hj, hjl, hjid, hjf, -, -⟩ := hkept j' hj' hleased
    exact ⟨j, hj, hjl, hjid, hjf⟩
  standing j' hj' hleased := by
    obtain ⟨j, hj, hjl, hjid, -, howner, huntil⟩ := hkept j' hj' hleased
    obtain ⟨l, hl, hlid, hlowner, hluntil⟩ := h.standing j hj hjl
    have hid : l.jobId = j'.jobId := hlid.trans (congrArg JobIdentity.jobId hjid).symm
    exact ⟨l, List.mem_filter.mpr ⟨hl, stands_of_leased hj' hleased hid⟩, hid,
      howner.trans hlowner, huntil.trans hluntil⟩
  unique := List.Pairwise.filter _ h.unique
  claims := h.claims
  issued := h.issued
  granted l hl := by
    obtain ⟨g, hg, htoken, hworker, hcontent⟩ := h.granted l (List.mem_filter.mp hl).1
    refine ⟨g, hg, htoken, hworker, fun j' hj' hid hleased => ?_⟩
    obtain ⟨j, hj, hjl, hjid, hjf, -, -⟩ := hkept j' hj' hleased
    obtain ⟨hf, hm⟩ := hcontent j hj ((congrArg JobIdentity.jobId hjid).symm.trans hid) hjl
    exact ⟨hjf.trans hf, (congrArg JobIdentity.modelSignature hjid).trans hm⟩
  held := h.held
  latest g hg l hl := h.latest g hg l (List.mem_filter.mp hl).1

theorem World.Ledger.settle {w : World} (h : w.Ledger) (hpayloads : db.payloads = w.db.payloads) :
    (w.settle db).Ledger where
  spent c hc l hl := h.spent c hc l (List.mem_filter.mp hl).1
  once := h.once
  issued := h.issued
  payloads p hp := h.payloads p (hpayloads ▸ hp)

/-! ## Heartbeats -/

/-- A row of a heartbeat. -/
theorem heartbeat_row {jobIds : List ℕ} {workerId : Text} {leaseNs nowNs : ℕ}
    (h : db.heartbeatEmbeddingJobs jobIds workerId leaseNs nowNs = some db') {j' : EmbeddingJob}
    (hj' : j' ∈ db'.jobs) :
    ∃ j ∈ db.jobs, j'.identity = j.identity ∧ j'.status = j.status ∧
      j'.fingerprint = j.fingerprint ∧ j'.leaseOwner = j.leaseOwner ∧
      j'.leaseUntilNs =
        if jobIds.contains j.jobId && j.heldBy workerId nowNs then
          j.leaseUntilNs.map fun until_ => max until_ (nowNs + leaseNs)
        else j.leaseUntilNs := by
  rw [heartbeat_cases h] at hj'
  obtain ⟨j, hj, rfl⟩ := mem_updateWhere.mp hj'
  refine ⟨j, hj, ?_⟩
  by_cases hp : (jobIds.contains j.jobId && j.heldBy workerId nowNs) = true
  · rw [if_pos hp, if_pos hp]
    obtain ⟨hstatus, hfinger, howner, huntil⟩ := afterUpdate_lease db j
      { j with leaseUntilNs := j.leaseUntilNs.map fun until_ => max until_ (nowNs + leaseNs) }
    exact ⟨identity_afterUpdate _ _ _, hstatus, hfinger, howner, huntil⟩
  · rw [if_neg hp, if_neg hp]
    exact ⟨rfl, rfl, rfl, rfl, rfl⟩

theorem token_prolong (jobIds : List ℕ) (workerId : Text) (leaseNs nowNs : ℕ) (l : Standing) :
    (prolong jobIds workerId leaseNs nowNs l).claim = l.claim ∧
      (prolong jobIds workerId leaseNs nowNs l).jobId = l.jobId ∧
      (prolong jobIds workerId leaseNs nowNs l).workerId = l.workerId := by
  unfold prolong
  split_ifs <;> exact ⟨rfl, rfl, rfl⟩

/-- A heartbeat prolongs a lease as it prolongs the row of its job. -/
theorem World.Leased.heartbeat {w : World} (h : w.Leased) {jobIds : List ℕ} {workerId : Text}
    {leaseNs nowNs : ℕ}
    (hbeat : w.db.heartbeatEmbeddingJobs jobIds workerId leaseNs nowNs = some db)
    (hrows : db.JobRows) :
    { w with db := db
             standing := w.standing.map (prolong jobIds workerId leaseNs nowNs) }.Leased where
  rows := hrows
  exclusive := Database.Exclusive.of_kept h.exclusive hrows fun j' hj' hleased => by
    obtain ⟨j, hj, hjid, hjs, hjf, -, -⟩ := heartbeat_row hbeat hj'
    exact ⟨j, hj, hjs ▸ hleased, hjid, hjf⟩
  standing j' hj' hleased := by
    obtain ⟨j, hj, hjid, hjs, -, howner, huntil⟩ := heartbeat_row hbeat hj'
    obtain ⟨l, hl, hlid, hlowner, hluntil⟩ := h.standing j hj (hjs ▸ hleased)
    obtain ⟨-, hpid, hpworker⟩ := token_prolong jobIds workerId leaseNs nowNs l
    refine ⟨_, List.mem_map_of_mem hl, ?_, ?_, ?_⟩
    · exact hpid.trans (hlid.trans (congrArg JobIdentity.jobId hjid).symm)
    · rw [howner, hlowner, hpworker]
    · have hheld : j.heldBy workerId nowNs =
          (l.workerId == workerId && decide (nowNs < l.untilNs)) := by
        simp [EmbeddingJob.heldBy, hjs ▸ hleased, hlowner, hluntil]
      rw [huntil, hheld, ← hlid, hluntil, prolong, ← Bool.and_assoc]
      split_ifs <;> rfl
  unique := by
    refine List.pairwise_map.mpr (h.unique.imp fun {l l'} hne => ?_)
    rw [(token_prolong _ _ _ _ l).2.1, (token_prolong _ _ _ _ l').2.1]
    exact hne
  claims := h.claims
  issued := h.issued
  granted l' hl' := by
    obtain ⟨l, hl, rfl⟩ := List.mem_map.mp hl'
    obtain ⟨hpclaim, hpid, hpworker⟩ := token_prolong jobIds workerId leaseNs nowNs l
    obtain ⟨g, hg, htoken, hworker, hcontent⟩ := h.granted l hl
    refine ⟨g, hg, ?_, hworker.trans hpworker.symm, fun j' hj' hid hleased => ?_⟩
    · rw [Standing.token, hpclaim, hpid]
      exact htoken
    · obtain ⟨j, hj, hjid, hjs, hjf, -, -⟩ := heartbeat_row hbeat hj'
      obtain ⟨hf, hm⟩ := hcontent j hj ((congrArg JobIdentity.jobId hjid).symm.trans
        (hid.trans hpid)) (hjs ▸ hleased)
      exact ⟨hjf.trans hf, (congrArg JobIdentity.modelSignature hjid).trans hm⟩
  held := h.held
  latest g hg l' hl' hid hworker := by
    obtain ⟨l, hl, rfl⟩ := List.mem_map.mp hl'
    obtain ⟨hpclaim, hpid, hpworker⟩ := token_prolong jobIds workerId leaseNs nowNs l
    exact hpclaim.trans (h.latest g hg l hl (hpid.symm.trans hid) (hpworker.symm.trans hworker))

/-! ## Claims -/

/-- What a claim does: the leases of the database in which it chooses its rows stay, and the
rows are leased to the worker. -/
structure ClaimStep (db db' : Database) (call : ClaimCall) (leases : List EmbeddingJobLease)
    (mid : Database) (rows : List EmbeddingJob) : Prop where
  kept : LeasesKept db mid
  midRows : mid.JobRows
  leasable : Leasable mid call.generationId call.nowNs rows
  payloads : db'.payloads = db.payloads
  jobs : ∀ j' ∈ db'.jobs, ∃ j ∈ mid.jobs, j'.identity = j.identity ∧
    j'.fingerprint = j.fingerprint ∧
    ((j ∈ rows ∧ j'.leaseOwner = some call.workerId ∧
        j'.leaseUntilNs = some (call.nowNs + call.leaseNs)) ∨
      (j ∉ rows ∧ j' = j))
  ids : leases.map EmbeddingJobLease.jobId = rows.map EmbeddingJob.jobId
  content : ∀ lease ∈ leases, lease.leaseUntilNs = call.nowNs + call.leaseNs ∧
    ∃ j ∈ rows, j.jobId = lease.jobId ∧ j.fingerprint = lease.fingerprint ∧
      j.modelSignature = lease.modelSignature

theorem claim_step (hrows : db.JobRows) {call : ClaimCall} {leases : List EmbeddingJobLease}
    (h : db.claimEmbeddingJobs call = some (db', leases)) :
    ∃ mid rows, ClaimStep db db' call leases mid rows := by
  obtain ⟨g, m, hgm, rfl, rfl⟩ := claim_cases h
  have ht : Transaction .plain db (db.reconciled call m) := transaction_reconciled hgm
  have hmid := jobRows_reconciled hrows hgm
  have hleasable := leasable_claimedRows hrows hgm
  have hkept : LeasesKept db (db.reconciled call m) := by
    refine ht.leasesKept ?_
    decide
  have hpayloads : (db.reconciled call m).payloads = db.payloads := by
    refine ht.payloads ?_
    decide
  refine ⟨db.reconciled call m, db.claimedRows call m, hkept, hmid, hleasable, hpayloads, ?_, ?_,
    ?_⟩
  · intro j' hj'
    obtain ⟨j, hj, rfl⟩ := mem_updateWhere.mp hj'
    refine ⟨j, hj, ?_⟩
    by_cases hp : ((db.claimedRows call m).map EmbeddingJob.jobId).contains j.jobId = true
    · obtain ⟨-, hfinger, howner, huntil⟩ :=
        afterUpdate_lease (db.reconciled call m) j (j.toLeased call)
      rw [if_pos hp]
      exact ⟨identity_afterUpdate _ _ _, hfinger,
        .inl ⟨claimed_row hmid.unique_jobs hleasable.mem hj hp, howner, huntil⟩⟩
    · rw [if_neg hp]
      refine ⟨rfl, rfl, .inr ⟨fun hrow => hp ?_, rfl⟩⟩
      rw [List.contains_eq_mem, decide_eq_true_eq]
      exact List.mem_map_of_mem hrow
  · rw [List.map_map]
    rfl
  · intro lease hlease
    obtain ⟨j, hj, rfl⟩ := List.mem_map.mp hlease
    refine ⟨rfl, j, hj, rfl, rfl, ?_⟩
    -- the model of the lease is the one of the generation, and so of its jobs
    have hg := (generationModel_cases hgm).1
    have hcore : SameCore db (db.reconciled call m) :=
      (sameCore_reconcileExpiredLeases _ _ _).trans (sameCore_markStaleJobs _ _ _ _)
    have hgmem : g.identity ∈ (db.reconciled call m).generations.map
        EmbeddingGeneration.identity := by
      rw [map_identity_of_core hcore.generations]
      exact List.mem_map_of_mem (generation_spec hg).1
    have hclaimable := hleasable.claimable j hj
    simp only [EmbeddingJob.claimable, Bool.and_eq_true, beq_iff_eq] at hclaimable
    refine (hmid.signature _ (List.mem_map_of_mem (hleasable.mem j hj)) _ hgmem ?_).symm
    exact (generation_spec hg).2.trans hclaimable.1.1.1.symm

/-- The identifiers of the leased rows are distinct. -/
theorem ClaimStep.unique {call : ClaimCall} {leases : List EmbeddingJobLease} {mid : Database}
    {rows : List EmbeddingJob} (h : ClaimStep db db' call leases mid rows) :
    Unique EmbeddingJobLease.jobId leases := by
  rw [unique_iff_nodup, h.ids, ← unique_iff_nodup]
  refine h.leasable.keys.imp_of_mem fun {j other} hj hother hne hid => hne ?_
  rw [h.midRows.unique_jobs.eq (h.leasable.mem j hj) (h.leasable.mem other hother) hid]

/-- A row of the claim has a lease of its identifier, and only such a row has. -/
theorem ClaimStep.mem_rows_iff {call : ClaimCall} {leases : List EmbeddingJobLease}
    {mid : Database} {rows : List EmbeddingJob} (h : ClaimStep db db' call leases mid rows)
    {j : EmbeddingJob} (hj : j ∈ mid.jobs) :
    j ∈ rows ↔ ∃ lease ∈ leases, lease.jobId = j.jobId := by
  constructor
  · intro hrow
    have hid : j.jobId ∈ leases.map EmbeddingJobLease.jobId :=
      h.ids ▸ List.mem_map_of_mem hrow
    exact List.mem_map.mp hid
  · rintro ⟨lease, hlease, hid⟩
    obtain ⟨-, row, hrow, hrowId, -⟩ := h.content lease hlease
    exact h.midRows.unique_jobs.eq (h.leasable.mem row hrow) hj (hrowId.trans hid) ▸ hrow

theorem ClaimStep.exclusive {call : ClaimCall} {leases : List EmbeddingJobLease} {mid : Database}
    {rows : List EmbeddingJob} (h : ClaimStep db db' call leases mid rows) (hrows : db'.JobRows)
    (hmid : mid.Exclusive) : db'.Exclusive := by
  intro j' hj' other' hother' hleased hleased' hgeneration hkey
  obtain ⟨j, hj, hjid, hjf, hjcase⟩ := h.jobs j' hj'
  obtain ⟨other, hother, hoid, hof, hocase⟩ := h.jobs other' hother'
  have hkey' : j.workKey = other.workKey :=
    (workKey_congr hjid hjf).symm.trans (hkey.trans (workKey_congr hoid hof))
  have hgeneration' : j.generationId = other.generationId :=
    (congrArg JobIdentity.generationId hjid).symm.trans
      (hgeneration.trans (congrArg JobIdentity.generationId hoid))
  have hclaimed : ∀ {k : EmbeddingJob}, k ∈ rows → k.generationId = call.generationId := by
    intro k hk
    have hclaimable := h.leasable.claimable k hk
    simp only [EmbeddingJob.claimable, Bool.and_eq_true, beq_iff_eq] at hclaimable
    exact hclaimable.1.1.1
  have hsame : j = other := by
    rcases hjcase with ⟨hjrow, -, -⟩ | ⟨-, rfl⟩ <;> rcases hocase with ⟨horow, -, -⟩ | ⟨-, rfl⟩
    · exact h.leasable.keys.eq hjrow horow hkey'
    · -- a new lease and one that was there
      exact absurd hkey'.symm (h.leasable.free j hjrow other' hother
        (hgeneration'.symm.trans (hclaimed hjrow)) hleased')
    · exact absurd hkey' (h.leasable.free other horow j' hj
        (hgeneration'.trans (hclaimed horow)) hleased)
    · exact hmid j' hj other' hother hleased hleased' hgeneration' hkey'
  refine hrows.unique_jobs.eq hj' hother' ?_
  exact (congrArg JobIdentity.jobId hjid).trans
    ((congrArg EmbeddingJob.jobId hsame).trans (congrArg JobIdentity.jobId hoid).symm)

theorem World.Leased.claim {w : World} (h : w.Leased) {call : ClaimCall}
    {leases : List EmbeddingJobLease} {mid : Database} {rows : List EmbeddingJob}
    (hstep : ClaimStep w.db db call leases mid rows) (hrows : db.JobRows)
    (hallowed : ∀ g ∈ w.held, g.workerId ≠ call.workerId) :
    (w.afterClaim call.workerId db leases).Leased := by
  have hmid : (w.settle mid).Leased := h.settle hstep.kept hstep.midRows
  have hold : ∀ {l : Standing},
      l ∈ (w.standing.filter fun l =>
        !(leases.any fun lease => lease.jobId == l.jobId) && db.stands l) →
      l ∈ w.standing ∧ ∀ lease ∈ leases, lease.jobId ≠ l.jobId := by
    intro l hl
    rw [List.mem_filter, Bool.and_eq_true] at hl
    exact ⟨hl.1, by simpa using hl.2.1⟩
  -- a leased job whose lease is not one of the claim was leased before
  have hkept : ∀ {j' : EmbeddingJob}, j' ∈ db.jobs → (∀ lease ∈ leases, lease.jobId ≠ j'.jobId) →
      j' ∈ mid.jobs := by
    intro j' hj' hnone
    obtain ⟨j, hj, hjid, -, ⟨hrow, -, -⟩ | ⟨-, rfl⟩⟩ := hstep.jobs j' hj'
    · obtain ⟨lease, hlease, hid⟩ := (hstep.mem_rows_iff hj).mp hrow
      exact absurd (hid.trans (congrArg JobIdentity.jobId hjid).symm) (hnone lease hlease)
    · exact hj
  refine ⟨hrows, hstep.exclusive hrows hmid.exclusive, ?_, ?_, ?_, ?_, ?_, ?_, ?_⟩
  · intro j' hj' hleased
    obtain ⟨j, hj, hjid, -, ⟨hrow, howner, huntil⟩ | ⟨hrow, rfl⟩⟩ := hstep.jobs j' hj'
    · obtain ⟨lease, hlease, hid⟩ := (hstep.mem_rows_iff hj).mp hrow
      refine ⟨_, List.mem_append_right _ (List.mem_map_of_mem hlease), ?_, howner, ?_⟩
      · exact hid.trans (congrArg JobIdentity.jobId hjid).symm
      · rw [huntil, (hstep.content lease hlease).1]
    · obtain ⟨l, hl, hlid, howner, huntil⟩ := hmid.standing j' hj hleased
      refine ⟨l, List.mem_append_left _ (List.mem_filter.mpr ⟨(List.mem_filter.mp hl).1, ?_⟩), hlid,
        howner, huntil⟩
      rw [Bool.and_eq_true]
      refine ⟨?_, stands_of_leased hj' hleased hlid⟩
      rw [Bool.not_eq_true', List.any_eq_false]
      intro lease hlease hid
      exact hrow ((hstep.mem_rows_iff hj).mpr ⟨lease, hlease, (beq_iff_eq.mp hid).trans hlid⟩)
  · refine List.pairwise_append.mpr ⟨List.Pairwise.filter _ h.unique, ?_, ?_⟩
    · exact List.pairwise_map.mpr hstep.unique
    · intro l hl l' hl' hid
      obtain ⟨lease, hlease, rfl⟩ := List.mem_map.mp hl'
      exact (hold hl).2 lease hlease hid.symm
  · intro g hg
    rcases List.mem_append.mp hg with hg | hg
    · exact Nat.lt_succ_of_lt (h.claims g hg)
    · obtain ⟨lease, -, rfl⟩ := List.mem_map.mp hg
      exact Nat.lt_succ_self _
  · refine List.pairwise_append.mpr ⟨h.issued, ?_, ?_⟩
    · refine List.pairwise_map.mpr (hstep.unique.imp fun {a b} hne htoken => hne ?_)
      exact (Prod.mk.inj htoken).2
    · intro g hg g' hg' htoken
      obtain ⟨lease, -, rfl⟩ := List.mem_map.mp hg'
      exact (h.claims g hg).ne (Prod.mk.inj htoken).1
  · intro l hl
    rcases List.mem_append.mp hl with hl | hl
    · obtain ⟨hl, hnone⟩ := hold hl
      obtain ⟨g, hg, htoken, hworker, hcontent⟩ := h.granted l hl
      refine ⟨g, List.mem_append_left _ hg, htoken, hworker, fun j' hj' hid hleased => ?_⟩
      have hjmid := hkept hj' fun lease hlease => hid ▸ hnone lease hlease
      obtain ⟨j, hj, hjl, hjid, hjf, -, -⟩ := hstep.kept j' hjmid hleased
      obtain ⟨hf, hm⟩ := hcontent j hj ((congrArg JobIdentity.jobId hjid).symm.trans hid) hjl
      exact ⟨hjf.trans hf, (congrArg JobIdentity.modelSignature hjid).trans hm⟩
    · obtain ⟨lease, hlease, rfl⟩ := List.mem_map.mp hl
      refine ⟨⟨w.claims, call.workerId, lease⟩,
        List.mem_append_right _ (List.mem_map_of_mem hlease), rfl, rfl, fun j' hj' hid _ => ?_⟩
      obtain ⟨-, row, hrow, hrowId, hfinger, hmodel⟩ := hstep.content lease hlease
      obtain ⟨j, hj, hjid, hjf, -⟩ := hstep.jobs j' hj'
      obtain rfl := hstep.midRows.unique_jobs.eq (hstep.leasable.mem row hrow) hj
        (hrowId.trans (hid.symm.trans (congrArg JobIdentity.jobId hjid)))
      exact ⟨hjf.trans hfinger, (congrArg JobIdentity.modelSignature hjid).trans hmodel⟩
  · intro g hg
    rcases List.mem_append.mp hg with hg | hg
    · exact List.mem_append_left _ (h.held g hg)
    · exact List.mem_append_right _ hg
  · intro g hg l hl hid hworker
    rcases List.mem_append.mp hg with hg | hg <;> rcases List.mem_append.mp hl with hl | hl
    · exact h.latest g hg l (hold hl).1 hid hworker
    · -- the worker of the claim has no other batch
      obtain ⟨lease, -, rfl⟩ := List.mem_map.mp hl
      exact absurd hworker.symm (hallowed g hg)
    · obtain ⟨lease, hlease, rfl⟩ := List.mem_map.mp hg
      exact absurd hid.symm ((hold hl).2 lease hlease)
    · obtain ⟨lease, -, rfl⟩ := List.mem_map.mp hg
      obtain ⟨lease', -, rfl⟩ := List.mem_map.mp hl
      rfl

theorem World.Ledger.claim {w : World} (h : w.Ledger) (hleased : w.Leased) {call : ClaimCall}
    {leases : List EmbeddingJobLease} {mid : Database} {rows : List EmbeddingJob}
    (hstep : ClaimStep w.db db call leases mid rows) :
    (w.afterClaim call.workerId db leases).Ledger where
  spent c hc l hl := by
    rcases List.mem_append.mp hl with hl | hl
    · exact h.spent c hc l (List.mem_filter.mp hl).1
    · obtain ⟨lease, -, rfl⟩ := List.mem_map.mp hl
      intro htoken
      exact (hleased.claims _ (h.issued c hc)).ne (Prod.mk.inj htoken).1.symm
  once := h.once
  issued c hc := List.mem_append_left _ (h.issued c hc)
  payloads p hp := h.payloads p (hstep.payloads ▸ hp)

/-! ## Completions -/

/-- A completion that is accepted is of a lease that stands, the one that the worker holds. -/
theorem World.Leased.standing_of_held {w : World} (h : w.Leased) {g : Grant} (hg : g ∈ w.held)
    {j : EmbeddingJob} (hj : j ∈ w.db.jobs) (hid : j.jobId = g.lease.jobId) {nowNs : ℕ}
    (hheld : j.heldBy g.workerId nowNs = true) :
    (∃ l ∈ w.standing, l.token = g.token ∧ nowNs < l.untilNs) ∧
      j.fingerprint = g.lease.fingerprint ∧ j.modelSignature = g.lease.modelSignature := by
  simp only [EmbeddingJob.heldBy, Bool.and_eq_true, decide_eq_true_eq, beq_iff_eq] at hheld
  obtain ⟨⟨hleased, howner⟩, huntil⟩ := hheld
  obtain ⟨l, hl, hlid, hlowner, hluntil⟩ := h.standing j hj hleased
  have hworker : l.workerId = g.workerId := Option.some_inj.mp (hlowner.symm.trans howner)
  have hclaim := h.latest g hg l hl (hlid.trans hid) hworker
  have htoken : l.token = g.token := by
    rw [Standing.token, Grant.token, hclaim, hlid.trans hid]
  refine ⟨⟨l, hl, htoken, ?_⟩, ?_⟩
  · simpa [hluntil] using huntil
  · -- the grant of the lease that stands is the one of the worker
    obtain ⟨g', hg', htoken', -, hcontent⟩ := h.granted l hl
    obtain rfl := h.issued.eq hg' (h.held g hg) (htoken'.trans htoken)
    exact hcontent j hj hlid.symm hleased

/-- What an accepted completion writes: the job is done, and a payload is there only if it was
or if it is the vector of the completion. -/
theorem complete_accepted {jobId : ℕ} {workerId : Text} {blob : List UInt8}
    {nowNs : ℕ} {a : Attachment}
    (h : db.completeEmbeddingJob jobId workerId blob nowNs a = some (db', .accepted)) :
    ∃ j ∈ db.jobs, j.jobId = jobId ∧ j.heldBy workerId nowNs = true ∧
      (∀ j' ∈ db'.jobs, j'.jobId = jobId → j'.status ≠ .leased) ∧
      ∀ p ∈ db'.payloads, p ∈ db.payloads ∨ (p.vectorBlob = blob ∧
        p.modelSignature = j.modelSignature ∧ p.fingerprint = j.fingerprint) := by
  obtain ⟨j, hj, hheld, ⟨-, payloadId, attached, hattached, rfl⟩ | ⟨hstale, -⟩⟩ := complete_cases h
  · refine ⟨j, (job_spec hj).1, (job_spec hj).2, hheld, ?_, ?_⟩
    · intro j' hj' hid
      obtain ⟨old, -, rfl⟩ := mem_updateWhere.mp hj'
      by_cases hp : (old.jobId == jobId) = true
      · rw [if_pos hp, (afterUpdate_lease _ _ _).1]
        exact fun hleased => nomatch hleased
      · rw [if_neg hp] at hid
        exact absurd (beq_iff_eq.mpr hid) hp
    · intro p hp
      obtain ⟨_, m, -, -, -, -, -, -, -, -, -, rfl⟩ := attachPayload_cases hattached
      have hp : p ∈ (db.storePayload j blob).payloads := by
        have hsame : ((db.storePayload j blob).upsertMember m).payloads =
            (db.storePayload j blob).payloads := by
          unfold Database.upsertMember Database.insertMember
          dsimp only
          split_ifs <;> rfl
        exact hsame ▸ hp
      unfold Database.storePayload at hp
      split_ifs at hp
      · exact .inl hp
      · rcases List.mem_append.mp hp with hp | hp
        · exact .inl hp
        · rw [List.mem_singleton.mp hp]
          exact .inr ⟨rfl, rfl, rfl⟩
  · exact nomatch hstale

theorem World.Ledger.complete {w : World} (h : w.Ledger) (hleased : w.Leased) {g : Grant}
    (hg : g ∈ w.held) {blob : List UInt8} {nowNs : ℕ} {a : Attachment}
    (hcomplete : w.db.completeEmbeddingJob g.lease.jobId g.workerId blob nowNs a =
      some (db, .accepted)) :
    { w.settle db with accepted := w.accepted ++ [Accepted.mk g blob nowNs] }.Ledger := by
  obtain ⟨j, hj, hid, hheld, hdone, hpayloads⟩ := complete_accepted hcomplete
  obtain ⟨⟨l, hl, htoken, -⟩, hfinger, hmodel⟩ := hleased.standing_of_held hg hj hid hheld
  refine ⟨fun c hc l' hl' => ?_, ?_, fun c hc => ?_, fun p hp => ?_⟩
  · rcases List.mem_append.mp hc with hc | hc
    · exact h.spent c hc l' (List.mem_filter.mp hl').1
    · rw [List.mem_singleton.mp hc]
      intro htoken'
      -- the job of the completion is no longer leased
      obtain ⟨j', hj', hstands⟩ := List.any_eq_true.mp (List.mem_filter.mp hl').2
      simp only [Bool.and_eq_true, beq_iff_eq, decide_eq_true_eq] at hstands
      exact hdone j' hj' (hstands.1.trans (Prod.mk.inj htoken').2) hstands.2
  · refine unique_append h.once fun c hc hsame => ?_
    exact h.spent c hc l hl (htoken.trans hsame.symm)
  · rcases List.mem_append.mp hc with hc | hc
    · exact h.issued c hc
    · rw [List.mem_singleton.mp hc]
      exact hleased.held g hg
  · rcases hpayloads p hp with hold | ⟨hblob, hsignature, hcontent⟩
    · obtain ⟨c, hc, hrest⟩ := h.payloads p hold
      exact ⟨c, List.mem_append_left _ hc, hrest⟩
    · exact ⟨_, List.mem_append_right _ List.mem_cons_self, hblob, hsignature.trans hmodel,
        hcontent.trans hfinger⟩

/-! ## Every world -/

/-- What holds of every world that allowed actions lead to. -/
structure World.Sound (w : World) : Prop where
  leased : w.Leased
  ledger : w.Ledger
  within : w.db.Within

theorem World.Sound.op {w : World} (h : w.Sound) {o : Op} {outcome : Outcome}
    (ha : w.Allowed (.op o)) (hperform : w.db.perform o = some (db, outcome)) :
    ({ w with standing := prolonged w.standing o }.settle db).Sound := by
  have ht := perform_transaction h.leased.rows.unique_generations hperform
  have hrows : db.JobRows := ht.induction (fun hstep => hstep.jobRows) h.leased.rows
  have hwithin := perform_within h.within h.leased.rows hperform
  have hplain : ∀ {s : Scope}, Transaction s w.db db → s ≠ .leases → s ≠ .results →
      (w.settle db).Sound := fun ht hs hs' =>
    ⟨h.leased.settle (ht.leasesKept hs) hrows, h.ledger.settle (ht.payloads hs'), hwithin⟩
  cases o with
  | claim call => exact absurd rfl (ha.1 call)
  | complete jobId workerId blob nowNs a => exact absurd rfl (ha.2 jobId workerId blob nowNs a)
  | heartbeat jobIds workerId leaseNs nowNs =>
    obtain ⟨r, hr, heq⟩ := Option.map_eq_some_iff.mp hperform
    obtain ⟨rfl, -⟩ := Prod.mk.inj heq
    have hbeat := (h.leased.heartbeat hr hrows).settle (LeasesKept.refl r) hrows
    refine ⟨hbeat, ⟨fun c hc l hl => ?_, h.ledger.once, h.ledger.issued, fun p hp => ?_⟩, hwithin⟩
    · obtain ⟨l₀, hl₀, rfl⟩ := List.mem_map.mp (List.mem_filter.mp hl).1
      obtain ⟨hclaim, hid, -⟩ := token_prolong jobIds workerId leaseNs nowNs l₀
      rw [Standing.token, hclaim, hid]
      exact h.ledger.spent c hc l₀ hl₀
    · rw [heartbeat_cases hr] at hp
      exact h.ledger.payloads p hp
  | enqueue call => exact hplain ht (fun hs => nomatch hs) fun hs => nomatch hs
  | clonePage id validateExtent => exact hplain ht (fun hs => nomatch hs) fun hs => nomatch hs
  | _ => exact hplain ht (fun hs => nomatch hs) fun hs => nomatch hs

theorem step_sound {w : World} (h : w.Sound) {a : Action} (ha : w.Allowed a) :
    (w.step a).Sound := by
  cases a with
  | op o =>
    simp only [World.step]
    split
    · exact h
    · rename_i hperform
      exact h.op ha hperform
  | claim call =>
    simp only [World.step]
    split
    · exact h
    · rename_i db leases hclaim
      obtain ⟨mid, rows, hstep⟩ := claim_step h.leased.rows hclaim
      have hperform : w.db.perform (.claim call) = some (db, .claimed leases) := by
        rw [Database.perform, hclaim]
        rfl
      have hrows : db.JobRows :=
        (perform_transaction h.leased.rows.unique_generations hperform).induction
          (fun hstep => hstep.jobRows) h.leased.rows
      exact ⟨h.leased.claim hstep hrows ha, h.ledger.claim h.leased hstep,
        within_claim h.within h.leased.rows hclaim⟩
  | complete g blob nowNs a =>
    have hfacts : ∀ {db : Database} {result : Completion},
        w.db.completeEmbeddingJob g.lease.jobId g.workerId blob nowNs a = some (db, result) →
        (w.settle db).Leased ∧ db.Within := by
      intro db result hcomplete
      have ht := transaction_complete hcomplete
      have hkept : LeasesKept w.db db := by
        refine ht.leasesKept ?_
        decide
      exact ⟨h.leased.settle hkept (ht.induction (fun hstep => hstep.jobRows) h.leased.rows),
        ht.within (by decide) h.within⟩
    simp only [World.step]
    split
    · exact h
    · rename_i db hcomplete
      obtain ⟨j, -, -, ⟨hresult, -⟩ | ⟨-, hdb⟩⟩ := complete_cases hcomplete
      · cases hresult
      · exact ⟨(hfacts hcomplete).1, h.ledger.settle (by rw [hdb]; rfl), (hfacts hcomplete).2⟩
    · rename_i db hcomplete
      obtain ⟨hleased, hwithin⟩ := hfacts hcomplete
      refine ⟨?_, h.ledger.complete h.leased ha hcomplete, hwithin⟩
      exact ⟨hleased.rows, hleased.exclusive, hleased.standing, hleased.unique, hleased.claims,
        hleased.issued, hleased.granted, hleased.held, hleased.latest⟩
  | finish workerId =>
    refine ⟨?_, ⟨h.ledger.spent, h.ledger.once, h.ledger.issued, h.ledger.payloads⟩, h.within⟩
    exact { h.leased with
      held := fun g hg => h.leased.held g (List.mem_filter.mp hg).1
      latest := fun g hg => h.leased.latest g (List.mem_filter.mp hg).1 }

theorem reachable_sound {w : World} (h : Reachable w) : w.Sound := by
  induction h with
  | initial => exact ⟨leased_initial, ledger_initial, fun _ h => nomatch h⟩
  | step _ a ha ih => exact step_sound ih ha

/-- **Leases are exclusive and results are never misattributed**, in every world that allowed
actions lead to: one lease at most covers the content of a model in a generation, every payload
is the vector of an accepted completion whose lease had its model and content, no lease of a
claim is accepted twice or after it was taken away or has expired, and no job is tried more
often than its bound. -/
theorem leases_exclusive {w : World} (h : Reachable w) :
    (∀ j ∈ w.db.jobs, ∀ other ∈ w.db.jobs, j.status = .leased → other.status = .leased →
      j.generationId = other.generationId → j.modelSignature = other.modelSignature →
      j.fingerprint = other.fingerprint → j = other) ∧
    (∀ p ∈ w.db.payloads, ∃ c ∈ w.accepted, c.grant ∈ w.issued ∧ p.vectorBlob = c.blob ∧
      p.modelSignature = c.grant.lease.modelSignature ∧
      p.fingerprint = c.grant.lease.fingerprint) ∧
    (w.accepted.map fun c => c.grant.token).Nodup ∧
    (∀ g ∈ w.held, ∀ blob nowNs a db,
      w.db.completeEmbeddingJob g.lease.jobId g.workerId blob nowNs a = some (db, .accepted) →
      (∃ l ∈ w.standing, l.token = g.token ∧ nowNs < l.untilNs) ∧
        ∀ c ∈ w.accepted, c.grant.token ≠ g.token) ∧
    ∀ j ∈ w.db.jobs, j.attempts ≤ j.maxAttempts := by
  have hsound := reachable_sound h
  refine ⟨?_, ?_, unique_iff_nodup.mp hsound.ledger.once, ?_, hsound.within⟩
  · intro j hj other hother hleased hleased' hgeneration hmodel hfinger
    refine hsound.leased.exclusive j hj other hother hleased hleased' hgeneration ?_
    rw [EmbeddingJob.workKey, EmbeddingJob.workKey, hmodel, hfinger]
  · intro p hp
    obtain ⟨c, hc, hrest⟩ := hsound.ledger.payloads p hp
    exact ⟨c, hc, hsound.ledger.issued c hc, hrest⟩
  · intro g hg blob nowNs a db hcomplete
    obtain ⟨j, hj, hid, hheld, -, -⟩ := complete_accepted hcomplete
    obtain ⟨⟨l, hl, htoken, huntil⟩, -, -⟩ := hsound.leased.standing_of_held hg hj hid hheld
    refine ⟨⟨l, hl, htoken, huntil⟩, fun c hc hsame => ?_⟩
    exact hsound.ledger.spent c hc l hl (htoken.trans hsame.symm)

/-- A model, a chunk, a generation and its job. -/
def queuedOps : List Op :=
  [.registerModel ⟨['m'], .text, [.passage], true⟩,
    .insertItem ⟨['i'], ['k'], ['s'], ['1'], none, ⟨['a'], 1, ['b']⟩, true⟩,
    .insertChunk ⟨['c'], ['i'], ⟨['a'], 1, ['b']⟩, true⟩,
    .start ⟨['m'], ['p'], [], none, false, false⟩,
    .enqueue ⟨1, [['c']], .text, .passage, 3, 10, none, fun _ => .different⟩]

def queuedWorld : World := queuedOps.foldl (fun w o => w.step (.op o)) World.initial

/-- The world after a worker claimed the job. -/
def claimedWorld : World := queuedWorld.step (.claim ⟨1, ['w'], 5, 100, 20, fun _ => true⟩)

theorem reachable_foldl {ops : List Op} (hops : ∀ o ∈ ops, ∀ w : World, w.Allowed (.op o))
    {w : World} (h : Reachable w) : Reachable (ops.foldl (fun w o => w.step (.op o)) w) := by
  induction ops generalizing w with
  | nil => exact h
  | cons o ops ih =>
    refine ih (fun o' ho' => hops o' (List.mem_cons_of_mem o ho')) ?_
    exact h.step _ (hops o List.mem_cons_self w)

theorem claimedWorld_reachable : Reachable claimedWorld := by
  have hqueued : Reachable queuedWorld := by
    refine reachable_foldl (fun o ho w => ?_) Reachable.initial
    refine ⟨?_, ?_⟩
    · rintro call rfl
      simp [queuedOps] at ho
    · rintro id worker blob now a rfl
      simp [queuedOps] at ho
  refine hqueued.step _ (fun g hg => ?_)
  have hnone : queuedWorld.held = [] := rfl
  exact absurd (hnone ▸ hg) List.not_mem_nil

/-- The completion of the claimed lease is accepted. -/
theorem leases_exclusive_claimed :
    (claimedWorld.held.map fun g => (g.token, g.lease.attempt)) = [((0, 1), 1)] ∧
    (∀ g ∈ claimedWorld.held, ∀ blob nowNs a db,
      claimedWorld.db.completeEmbeddingJob g.lease.jobId g.workerId blob nowNs a =
        some (db, .accepted) →
      (∃ l ∈ claimedWorld.standing, l.token = g.token ∧ nowNs < l.untilNs) ∧
        ∀ c ∈ claimedWorld.accepted, c.grant.token ≠ g.token) ∧
    (∀ g ∈ claimedWorld.held,
      (claimedWorld.db.completeEmbeddingJob g.lease.jobId g.workerId [7] 30 ⟨1, some 1, []⟩).map
        Prod.snd = some .accepted) :=
  ⟨by decide, (leases_exclusive claimedWorld_reachable).2.2.2.1, by decide⟩

end Semantic
end Neocortex
