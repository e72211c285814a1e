import Mathlib

/-!
# The elastic map

`runtime.control.elastic_workers.ElasticMap`: one owner thread pulls items, prepares them and hands
out their results, and one worker for each item asks for admission, computes and keeps its result
until the owner takes it back.  The two sides share flags that are only ever set.

A `World` is the state of a map, and a `Step` what the owner or one worker does between two looks at
the other side.  The owner's place in `__next__`, `_fill`, `_prepare_submitted`, `_prepare_ready`
and `close` is a `Pc`; the loops over the pending window carry the works they have not looked at.
Waking up and polling are steps that change nothing, so a wait may end at any time.

* `WorkStep`: `_run` and `_execute` of one worker, from its admission on.
* `Step`: every step of the owner, of a worker, and a cancellation from outside.
* `Reachable`: the worlds of a map's runs.

In process mode a worker may ask for admission several times before it is admitted and computes in a
child; both are inside a worker's step.  The scopes that `close` leaves raise nothing.
-/

namespace Neocortex
namespace Elastic

variable {ι π ω ε : Type}

/-- What a worker, the gate or a callback raises. -/
inductive Fault (ε : Type) where
  /-- `MemoryBudgetExceeded`. -/
  | memory (e : ε)
  /-- `CancellationRequested`. -/
  | cancelled
  /-- Any other exception. -/
  | other (e : ε)
  /-- The worker function was called without a payload. -/
  | missing

/-- What `prepare` returns: a payload for the worker, or an `ImmediateResult`. -/
inductive Prepared (π ω : Type) where
  | payload (p : π)
  | immediate (v : ω)

/-- The arguments of a map. -/
structure Call (ι π ω ε : Type) where
  items : List ι
  prepare : ι → Except (Fault ε) (Prepared π ω)
  function : π → Except (Fault ε) ω
  /-- `on_admission_error(item, error)`: the value of its `ImmediateResult`, or what it raises. -/
  onAdmissionError : Option (ι → ε → Except (Fault ε) ω)
  /-- `self._gate is not None`. -/
  gated : Bool
  /-- The gate has a coordinator and `producer_mode` is `"admission"`. -/
  coordinated : Bool
  /-- `callable(self._estimate)`. -/
  callableEstimate : Bool
  completionOrder : Bool

/-- The result of an item. -/
def Call.resultOf (call : Call ι π ω ε) (item : ι) : Except (Fault ε) ω :=
  match call.prepare item with
  | .error f => .error f
  | .ok (.immediate v) => .ok v
  | .ok (.payload p) => call.function p

/-! ## Workers -/

/-- The place of a worker in `_run` and `_execute`. -/
inductive Phase (ω ε : Type) where
  /-- In the window, not submitted. -/
  | created
  /-- Before or in `gate.admit`. -/
  | waiting
  /-- Admitted; waits for `prepared`. -/
  | preparing
  /-- The worker function has returned or raised. -/
  | computed (r : Except (Fault ε) ω)
  /-- The result is published; waits for `release`. -/
  | retaining
  /-- Leaves `with admission`, with what was raised. -/
  | leaving (f : Option (Fault ε))
  /-- Before the `finally` block of `_run`. -/
  | left (f : Option (Fault ε))
  | done

/-- `_Work`, and the place of its worker. -/
structure Work (π ω ε : Type) where
  phase : Phase ω ε
  admitted : Bool
  prepared : Bool
  ready : Bool
  release : Bool
  finished : Bool
  /-- `none` is `_MISSING`. -/
  value : Option ω
  payload : Option (Prepared π ω)
  error : Option (Fault ε)
  prepareError : Option (Fault ε)
  holdsGrant : Bool

/-- `_Work(item, estimate, device)`. -/
def Work.new (phase : Phase ω ε) : Work π ω ε :=
  ⟨phase, false, false, false, false, false, none, none, none, none, false⟩

/-- The payload of a prepared work as the worker uses it. -/
def Call.compute (call : Call ι π ω ε) : Option (Prepared π ω) → Except (Fault ε) ω
  | none => .error .missing
  | some (.immediate v) => .ok v
  | some (.payload p) => call.function p

/-- The worker function is called for this payload. -/
def appliesFunction : Option (Prepared π ω) → Bool
  | some (.immediate _) => false
  | _ => true

/-- A step of one worker; `cancelled` is `self._stop.is_cancelled` and `applied` says that the worker
function was called. -/
inductive WorkStep (call : Call ι π ω ε) (closed cancelled : Bool) :
    Work π ω ε → Work π ω ε → (applied : Bool) → Prop where
  /-- `with admission as grant`, `work.admitted.set()`. -/
  | admitted {x} (h : x.phase = .waiting) : WorkStep call closed cancelled x
      { x with phase := .preparing, admitted := true, holdsGrant := call.gated } false
  /-- The executor is shut down before the task has started. -/
  | drop {x} (h : x.phase = .waiting) (hclosed : closed = true) :
      WorkStep call closed cancelled x { x with phase := .done } false
  /-- `self._stop.checkpoint()` while waiting for the preparation. -/
  | stopPreparing {x} (h : x.phase = .preparing) (hcancel : cancelled = true) :
      WorkStep call closed cancelled x { x with phase := .leaving (some .cancelled) } false
  /-- `raise work.prepare_error`. -/
  | refusePrepared {x} (f) (h : x.phase = .preparing) (hprepared : x.prepared = true)
      (hcancel : cancelled = false) (herror : x.prepareError = some f) :
      WorkStep call closed cancelled x { x with phase := .leaving (some f) } false
  /-- `value = self._function(payload)`. -/
  | compute {x} (h : x.phase = .preparing) (hprepared : x.prepared = true)
      (hcancel : cancelled = false) (herror : x.prepareError = none) :
      WorkStep call closed cancelled x
        { x with phase := .computed (call.compute x.payload), payload := none }
        (appliesFunction x.payload)
  /-- The worker function has raised, or the map was cancelled behind it. -/
  | fail {x} (f) (h : x.phase = .computed (.error f)) :
      WorkStep call closed cancelled x { x with phase := .leaving (some f) } false
  | stopComputed {x} (v) (h : x.phase = .computed (.ok v)) (hcancel : cancelled = true) :
      WorkStep call closed cancelled x { x with phase := .leaving (some .cancelled) } false
  /-- `work.value = value`, `work.ready.set()`. -/
  | publish {x} (v) (h : x.phase = .computed (.ok v)) (hcancel : cancelled = false) :
      WorkStep call closed cancelled x
        { x with phase := .retaining, value := some v, ready := true } false
  /-- `self._stop.checkpoint()` while waiting for the release. -/
  | stopRetaining {x} (h : x.phase = .retaining) (hcancel : cancelled = true) :
      WorkStep call closed cancelled x { x with phase := .leaving (some .cancelled) } false
  /-- `work.value = _MISSING` behind `work.release`. -/
  | finish {x} (h : x.phase = .retaining) (hrelease : x.release = true) :
      WorkStep call closed cancelled x { x with phase := .leaving none, value := none } false
  /-- The grant is given back; that may raise too. -/
  | exit {x} (f) (g : Option (Fault ε)) (h : x.phase = .leaving f) :
      WorkStep call closed cancelled x { x with phase := .left (g.or f), holdsGrant := false } false
  /-- The `finally` block of `_run`, with the error in front of it. -/
  | conclude {x} (f) (h : x.phase = .left f) : WorkStep call closed cancelled x
      { x with
        phase := .done
        error := f
        payload := none
        prepareError := none
        value := if cancelled then none else x.value
        ready := true
        finished := true } false

/-! ## The owner -/

/-- Where `_prepare_submitted` goes on after it returns `True`. -/
inductive Back where
  /-- `for pending in self._pending` of `_fill`. -/
  | pendingLoop (rest : List ℕ) (limit : ℕ)
  /-- `while not self._exhausted` of `_fill`. -/
  | fillLoop (limit : ℕ)

/-- Where `_prepare_ready` was called. -/
inductive Resume where
  | pendingLoop (limit : ℕ)
  | submitted (k : ℕ) (back : Back)
  | select

/-- How a map ended. -/
inductive Ending (ε : Type) where
  /-- `StopIteration`, with nothing pending. -/
  | exhausted
  /-- `close()`, or the end of a `with` block. -/
  | user
  /-- `__next__` raised the error of an item. -/
  | item (k : ℕ) (f : Fault ε)
  /-- `__next__` raised something else. -/
  | owner (f : Fault ε)

/-- The place of the owner. -/
inductive Pc (ε : Type) where
  | idle
  /-- `work.finished.wait()` of `_release_current`. -/
  | releasing (k : ℕ)
  /-- `while True` of `__next__`. -/
  | top
  /-- `target = self._admission_target()` of `_fill`. -/
  | fill
  /-- `for work in self._pending` of `_prepare_ready`. -/
  | prepare (rest : List ℕ) (resume : Resume)
  | pendingLoop (rest : List ℕ) (limit : ℕ)
  /-- The two loops of `_prepare_submitted`. -/
  | awaitAdmission (k : ℕ) (back : Back)
  | awaitReady (k : ℕ) (back : Back)
  | fillLoop (limit : ℕ)
  /-- The target after an item with its own estimate. -/
  | refill (k : ℕ)
  | select
  /-- `for index, pending in enumerate(self._pending)`. -/
  | scan (rest : List ℕ)
  | take (k : ℕ)
  /-- The consumer scope, in front of `return work.value`. -/
  | giving (k : ℕ)
  /-- `for pending in self._pending` in front of the wait. -/
  | errors (rest : List ℕ)
  /-- `close()`: before the flags of the works are set. -/
  | closing (ending : Ending ε)
  /-- `self._supervisors.close()`. -/
  | draining (ending : Ending ε)

/-- The state of a map, with what it has done. -/
structure World (ι π ω ε : Type) where
  works : List (Work π ω ε)
  pending : List ℕ
  current : Option ℕ
  exhausted : Bool
  closed : Bool
  cancelled : Bool
  pc : Pc ε
  /-- The largest target reported so far. -/
  largest : ℕ
  yielded : List (ℕ × Option ω)
  prepareLog : List ℕ
  functionLog : List ℕ
  callbackLog : List ℕ
  /-- What `gate.admit` has raised, with the item. -/
  refusals : List (ℕ × Fault ε)
  ended : Option (Ending ε)

def World.initial : World ι π ω ε :=
  ⟨[], [], none, false, false, false, .idle, 0, [], [], [], [], [], none⟩

namespace World

/-- Change one work. -/
def modify (w : World ι π ω ε) (k : ℕ) (f : Work π ω ε → Work π ω ε) : World ι π ω ε :=
  { w with works := w.works.modify k f }

/-- `self._closed = True`, `self._stop.cancel()`. -/
def beginClose (w : World ι π ω ε) (ending : Ending ε) : World ι π ω ε :=
  { w with closed := true, cancelled := true, pc := .closing ending }

/-- The flag of a work. -/
def isReady (w : World ι π ω ε) (k : ℕ) : Bool := (w.works[k]?).any Work.ready

/-- A work in front of `k` in the window has a result. -/
def priorReady (w : World ι π ω ε) (k : ℕ) : Bool :=
  (w.pending.takeWhile fun j => j ≠ k).any w.isReady

/-- `_prepare_ready()`, from its first work on. -/
def toPrepare (w : World ι π ω ε) (resume : Resume) : World ι π ω ε :=
  { w with pc := .prepare w.pending resume }

end World

/-- `limit` of `_fill`. -/
def Call.limit (call : Call ι π ω ε) (target : ℕ) : ℕ :=
  if call.gated then max 1 target else target

/-- `work.value = _MISSING`, `work.release.set()`. -/
def Work.released (x : Work π ω ε) : Work π ω ε := { x with value := none, release := true }

/-- The flags that `close()` sets. -/
def Work.shut (x : Work π ω ε) : Work π ω ε :=
  { x with value := none, release := true, prepared := true }

/-- The work after `on_admission_error` has returned. -/
def Work.converted (x : Work π ω ε) (v : ω) : Work π ω ε :=
  { x with value := some v, error := none }

/-- The work after `prepare`; `r` is what it returned or raised. -/
def Work.preparedWith (x : Work π ω ε) (r : Except (Fault ε) (Prepared π ω)) : Work π ω ε :=
  match r with
  | .ok p => { x with payload := some p, prepared := true }
  | .error f => { x with prepareError := some f, prepared := true }

/-- The admission of the work has failed for lack of memory, and the callback has not seen it. -/
def Work.refused (x : Work π ω ε) (e : ε) : Prop :=
  x.ready = true ∧ x.error = some (.memory e) ∧ x.admitted = false

/-- The place behind `_prepare_submitted`. -/
def Back.pc : Back → Pc ε
  | .pendingLoop rest limit => .pendingLoop rest limit
  | .fillLoop limit => .fillLoop limit

/-- The place behind a new work that was submitted. -/
def Call.afterSubmit (call : Call ι π ω ε) (k limit : ℕ) : Pc ε :=
  if call.coordinated then .awaitAdmission k (.fillLoop limit) else .fillLoop limit

/-- The places at which a checkpoint, the gate, the source or a scope may raise. -/
def Pc.mayFail : Pc ε → Bool
  | .top => true
  | .fill => true
  | .awaitAdmission _ _ => true
  | .awaitReady _ _ => true
  | .fillLoop _ => true
  | .refill _ => true
  | .take _ => true
  | .giving _ => true
  | _ => false

/-- What `_admission_target` makes of a reported target; `none` is `MemoryBudgetExceeded`, which
counts as one if the callback is there to take it. -/
def Call.target? (call : Call ι π ω ε) : Option ℕ → Option ℕ
  | some target => some target
  | none => if call.onAdmissionError.isSome then some 1 else none

/-- One step of the owner, of a worker, or a cancellation from outside. -/
inductive Step (call : Call ι π ω ε) : World ι π ω ε → World ι π ω ε → Prop where
  | worker {w} (k x x' applied) (hx : w.works[k]? = some x)
      (h : WorkStep call w.closed w.cancelled x x' applied) : Step call w
        { w with
          works := w.works.set k x'
          functionLog := if applied then w.functionLog ++ [k] else w.functionLog }
  /-- `gate.admit` raises, or the claim of a process does. -/
  | refuse {w} (k x f) (hx : w.works[k]? = some x) (hwaiting : x.phase = .waiting) : Step call w
      { w with
        works := w.works.set k { x with phase := .left (some f) }
        refusals := w.refusals ++ [(k, f)] }
  /-- The token of the caller is cancelled. -/
  | cancel {w} : Step call w { w with cancelled := true }
  /-- `__next__` with nothing to release. -/
  | next {w} (hpc : w.pc = .idle) (hopen : w.closed = false) (hcurrent : w.current = none) :
      Step call w { w with pc := .top }
  /-- `__next__`, with `work.release.set()` of `_release_current`. -/
  | nextReleases {w} (k) (hpc : w.pc = .idle) (hopen : w.closed = false)
      (hcurrent : w.current = some k) :
      Step call w { w.modify k Work.released with current := none, pc := .releasing k }
  /-- A scope raises in front of `work.release.set()`. -/
  | releaseFails {w} (k f) (hpc : w.pc = .idle) (hopen : w.closed = false)
      (hcurrent : w.current = some k) :
      Step call w (World.beginClose { w with current := none } (.owner f))
  /-- `close()`, or an early break out of the `with` block. -/
  | close {w} (hpc : w.pc = .idle) (hopen : w.closed = false) : Step call w (w.beginClose .user)
  | released {w} (k x) (hpc : w.pc = .releasing k) (hx : w.works[k]? = some x)
      (hfinished : x.finished = true) (hok : x.error = none ∨ w.cancelled = true) :
      Step call w { w with pc := .top }
  | releasedError {w} (k x f) (hpc : w.pc = .releasing k) (hx : w.works[k]? = some x)
      (hfinished : x.finished = true) (herror : x.error = some f) (hcancel : w.cancelled = false) :
      Step call w (w.beginClose (.item k f))
  /-- A checkpoint, the gate, the source or a scope raises. -/
  | ownerFails {w} (f) (hpc : w.pc.mayFail = true) : Step call w (w.beginClose (.owner f))
  | checkpoint {w} (hpc : w.pc = .top) (hcancel : w.cancelled = false) :
      Step call w { w with pc := .fill }
  -- `_fill`
  | reportedWindow {w} (t target) (hpc : w.pc = .fill) (ht : call.target? t = some target)
      (hproducer : call.coordinated = true) (hpending : w.pending ≠ []) :
      Step call w { w.toPrepare (.pendingLoop (call.limit target)) with
        largest := max w.largest (t.getD 0) }
  | reported {w} (t target) (hpc : w.pc = .fill) (ht : call.target? t = some target)
      (hproducer : call.coordinated = false ∨ w.pending = []) :
      Step call w { w with
        pc := .fillLoop (call.limit target)
        largest := max w.largest (t.getD 0) }
  | pendingDone {w} (limit) (hpc : w.pc = .pendingLoop [] limit) :
      Step call w { w with pc := .fillLoop limit }
  | pendingSkip {w} (k rest limit x) (hpc : w.pc = .pendingLoop (k :: rest) limit)
      (hx : w.works[k]? = some x) (hseen : x.prepared = true ∨ x.ready = true) :
      Step call w { w with pc := .pendingLoop rest limit }
  | pendingAwait {w} (k rest limit x) (hpc : w.pc = .pendingLoop (k :: rest) limit)
      (hx : w.works[k]? = some x) (hprepared : x.prepared = false) (hready : x.ready = false) :
      Step call w { w with pc := .awaitAdmission k (.pendingLoop rest limit) }
  | fillStops {w} (limit) (hpc : w.pc = .fillLoop limit)
      (hfull : w.exhausted = true ∨ limit ≤ w.pending.length ∨
        call.coordinated = true ∧ w.pending.any w.isReady = true) :
      Step call w (w.toPrepare .select)
  | sourceEnds {w} (limit) (hpc : w.pc = .fillLoop limit) (hmore : w.exhausted = false)
      (hroom : w.pending.length < limit) (hcancel : w.cancelled = false)
      (hend : call.items.length ≤ w.works.length) :
      Step call w (World.toPrepare { w with exhausted := true } .select)
  | pull {w} (limit) (hpc : w.pc = .fillLoop limit) (hmore : w.exhausted = false)
      (hroom : w.pending.length < limit) (hcancel : w.cancelled = false)
      (hitem : w.works.length < call.items.length) (hestimate : call.callableEstimate = false) :
      Step call w { w with
        works := w.works ++ [Work.new .waiting]
        pending := w.pending ++ [w.works.length]
        pc := call.afterSubmit w.works.length limit }
  | pullEstimated {w} (limit) (hpc : w.pc = .fillLoop limit) (hmore : w.exhausted = false)
      (hroom : w.pending.length < limit) (hcancel : w.cancelled = false)
      (hitem : w.works.length < call.items.length) (hestimate : call.callableEstimate = true) :
      Step call w { w with
        works := w.works ++ [Work.new .created]
        pending := w.pending ++ [w.works.length]
        pc := .refill w.works.length }
  | refilled {w} (k t target) (hpc : w.pc = .refill k) (ht : call.target? t = some target) :
      Step call w { w.modify k (fun x => { x with phase := .waiting }) with
        pc := call.afterSubmit k (call.limit target)
        largest := max w.largest (t.getD 0) }
  -- `_prepare_submitted`
  | admissionSeen {w} (k back x) (hpc : w.pc = .awaitAdmission k back)
      (hx : w.works[k]? = some x) (hseen : x.admitted = true ∨ x.ready = true) :
      Step call w (w.toPrepare (.submitted k back))
  | admissionYields {w} (k back) (hpc : w.pc = .awaitAdmission k back)
      (hprior : w.priorReady k = true) : Step call w (w.toPrepare .select)
  | readySeen {w} (k back x) (hpc : w.pc = .awaitReady k back) (hx : w.works[k]? = some x)
      (hready : x.ready = true) : Step call w { w with pc := back.pc }
  | readyYields {w} (k back) (hpc : w.pc = .awaitReady k back) (hprior : w.priorReady k = true) :
      Step call w (w.toPrepare .select)
  -- `_prepare_ready`
  | convert {w} (k rest resume x item e callback v) (hpc : w.pc = .prepare (k :: rest) resume)
      (hx : w.works[k]? = some x) (hrefused : x.refused e)
      (hcallback : call.onAdmissionError = some callback) (hcancel : w.cancelled = false)
      (hitem : call.items[k]? = some item) (hvalue : callback item e = .ok v) :
      Step call w { w.modify k (Work.converted · v) with
        pc := .prepare rest resume
        callbackLog := w.callbackLog ++ [k] }
  | convertFails {w} (k rest resume x item e callback f) (hpc : w.pc = .prepare (k :: rest) resume)
      (hx : w.works[k]? = some x) (hrefused : x.refused e)
      (hcallback : call.onAdmissionError = some callback) (hcancel : w.cancelled = false)
      (hitem : call.items[k]? = some item) (hvalue : callback item e = .error f) :
      Step call w (World.beginClose { w with callbackLog := w.callbackLog ++ [k] } (.owner f))
  | convertCancelled {w} (k rest resume x e) (hpc : w.pc = .prepare (k :: rest) resume)
      (hx : w.works[k]? = some x) (hrefused : x.refused e)
      (hcallback : call.onAdmissionError.isSome = true) (hcancel : w.cancelled = true) :
      Step call w (w.beginClose (.owner .cancelled))
  | prepareWork {w} (k rest resume x item) (hpc : w.pc = .prepare (k :: rest) resume)
      (hx : w.works[k]? = some x) (hprepared : x.prepared = false) (hadmitted : x.admitted = true)
      (hready : x.ready = false) (hcancel : w.cancelled = false)
      (hitem : call.items[k]? = some item) :
      Step call w { w.modify k (Work.preparedWith · (call.prepare item)) with
        pc := .prepare rest resume
        prepareLog := w.prepareLog ++ [k] }
  | prepareCancelled {w} (k rest resume x) (hpc : w.pc = .prepare (k :: rest) resume)
      (hx : w.works[k]? = some x) (hprepared : x.prepared = false) (hadmitted : x.admitted = true)
      (hready : x.ready = false) (hcancel : w.cancelled = true) :
      Step call w { w.modify k (Work.preparedWith · (.error .cancelled)) with
        pc := .prepare rest resume }
  | prepareSkip {w} (k rest resume x) (hpc : w.pc = .prepare (k :: rest) resume)
      (hx : w.works[k]? = some x)
      (hseen : x.prepared = true ∨ x.admitted = false ∨ x.ready = true)
      (hrefused : call.onAdmissionError.isSome = true → ∀ e, ¬ x.refused e) :
      Step call w { w with pc := .prepare rest resume }
  | prepareWindow {w} (limit) (hpc : w.pc = .prepare [] (.pendingLoop limit)) :
      Step call w { w with pc := .pendingLoop w.pending limit }
  | prepareReady {w} (k back x) (hpc : w.pc = .prepare [] (.submitted k back))
      (hx : w.works[k]? = some x) (hready : x.ready = true) : Step call w { w with pc := back.pc }
  | prepareAwait {w} (k back x) (hpc : w.pc = .prepare [] (.submitted k back))
      (hx : w.works[k]? = some x) (hready : x.ready = false) :
      Step call w { w with pc := .awaitReady k back }
  | prepareSelect {w} (hpc : w.pc = .prepare [] .select) : Step call w { w with pc := .select }
  -- the choice of `__next__`
  | exhaust {w} (hpc : w.pc = .select) (hpending : w.pending = []) (hend : w.exhausted = true) :
      Step call w (w.beginClose .exhausted)
  | selectScan {w} (hpc : w.pc = .select) (hmore : w.pending ≠ [] ∨ w.exhausted = false)
      (horder : call.completionOrder = true) : Step call w { w with pc := .scan w.pending }
  | selectHead {w} (k rest x) (hpc : w.pc = .select) (hpending : w.pending = k :: rest)
      (horder : call.completionOrder = false) (hx : w.works[k]? = some x)
      (hready : x.ready = true) : Step call w { w with pc := .take k }
  | selectWaits {w} (k rest x) (hpc : w.pc = .select) (hpending : w.pending = k :: rest)
      (horder : call.completionOrder = false) (hx : w.works[k]? = some x)
      (hready : x.ready = false) : Step call w { w with pc := .errors w.pending }
  | selectNothing {w} (hpc : w.pc = .select) (hpending : w.pending = [])
      (hmore : w.exhausted = false) (horder : call.completionOrder = false) :
      Step call w { w with pc := .errors [] }
  | scanHit {w} (k rest x) (hpc : w.pc = .scan (k :: rest)) (hx : w.works[k]? = some x)
      (hready : x.ready = true) : Step call w { w with pc := .take k }
  | scanMiss {w} (k rest x) (hpc : w.pc = .scan (k :: rest)) (hx : w.works[k]? = some x)
      (hready : x.ready = false) : Step call w { w with pc := .scan rest }
  | scanEnds {w} (hpc : w.pc = .scan []) : Step call w { w with pc := .errors w.pending }
  | takeError {w} (k x f) (hpc : w.pc = .take k) (hcancel : w.cancelled = false)
      (hx : w.works[k]? = some x) (herror : x.error = some f) :
      Step call w (World.beginClose
        { w with pending := w.pending.erase k, current := some k } (.item k f))
  | takeValue {w} (k x) (hpc : w.pc = .take k) (hcancel : w.cancelled = false)
      (hx : w.works[k]? = some x) (herror : x.error = none) :
      Step call w { w with
        pending := w.pending.erase k
        current := some k
        pc := .giving k }
  | give {w} (k x) (hpc : w.pc = .giving k) (hx : w.works[k]? = some x) :
      Step call w { w with yielded := w.yielded ++ [(k, x.value)], pc := .idle }
  | errorHit {w} (k rest x f) (hpc : w.pc = .errors (k :: rest)) (hx : w.works[k]? = some x)
      (hready : x.ready = true) (herror : x.error = some f) :
      Step call w (w.beginClose (.item k f))
  | errorMiss {w} (k rest x) (hpc : w.pc = .errors (k :: rest)) (hx : w.works[k]? = some x)
      (hok : x.ready = false ∨ x.error = none) : Step call w { w with pc := .errors rest }
  /-- The wait for a wakeup, which may end at any time. -/
  | wait {w} (hpc : w.pc = .errors []) : Step call w { w with pc := .top }
  -- `close`
  | shut {w} (ending) (hpc : w.pc = .closing ending) : Step call w
      { w with
        works := w.works.mapIdx fun k x =>
          if k ∈ w.pending ∨ w.current = some k then x.shut else x
        pc := .draining ending }
  | drained {w} (ending) (hpc : w.pc = .draining ending)
      (hdone : ∀ x ∈ w.works, x.phase = .done ∨ x.phase = .created) : Step call w
      { w with pending := [], current := none, pc := .idle, ended := some ending }

/-- The worlds of the runs of a map. -/
def Reachable (call : Call ι π ω ε) : World ι π ω ε → Prop :=
  Relation.ReflTransGen (Step call) World.initial

end Elastic
end Neocortex
