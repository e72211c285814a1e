import Neocortex.Resources.Scheduling

/-!
# The critical sections of the coordinator

Every change of the coordinator happens while its condition is held.  `Op` lists these
critical sections: the ones of an admission (`resource_admission.py`), of the release and
clean-up of a request (`global_resources.py`) and of a held grant (`resource_grants.py`).
A thread's program, a nested renewal included, is a sequence of them; an interleaving of
threads is a list of `Op`.

The GPU capacities are those of the configuration: `register_gpu_device`, which replaces an
entry of that table and touches no counter, is not among the sections.

A section that raises before it has changed anything leaves the coordinator as it is.  The
event list of a step says which reservation it granted or released.
-/

namespace Neocortex
namespace Resources

open Python
open Checks (raiseIf)

/-! ## Admission -/

/-- The arguments of `admission_scope`. -/
structure AdmitCall where
  routeName : Text
  memoryBytes : Option ℤ := none
  cpuSlots : ℤ := 1
  residentBytes : ℤ := 0
  transientBytes : Option ℤ := none
  tempBytes : ℤ := 0
  nativeThreads : ℤ := 0
  phase : Option Text := none
  residentKey : Option Text := none
  ioSlots : ℤ := 0
  ioDevice : DeviceValue := .absent
  gpuBytes : ℤ := 0
  gpuDevice : Option Text := none
  drainingFrom : Option ℕ := none
  renewingFrom : Option ℕ := none
  adaptiveNativeThreads : Bool := false
  nativeThreadLimit : Option ℤ := none

/-- The memory, transient and temporary bytes that a call asks for. -/
def AdmitCall.components (c : AdmitCall) : Checked (ℤ × ℤ × ℤ) := do
  let aggregate := c.memoryBytes.getD 0
  raiseIf (aggregate < 0) (.value "global memory reservation cannot be negative")
  raiseIf (c.residentBytes < 0 ∨ c.tempBytes < 0 ∨ c.nativeThreads < 0 ∨ c.ioSlots < 0 ∨
      c.gpuBytes < 0) (.value "global resource components cannot be negative")
  raiseIf (c.transientBytes.any fun t => decide (t < 0))
    (.value "global transient reservation cannot be negative")
  if 0 < c.residentBytes ∨ 0 < c.tempBytes ∨ 0 < c.nativeThreads ∨ c.transientBytes.isSome ∨
      c.phase.isSome ∨ c.residentKey.isSome then
    let transient := c.transientBytes.getD (max 0 (aggregate - c.residentBytes - c.tempBytes))
    raiseIf (aggregate ≠ 0 ∧ aggregate ≠ c.residentBytes + transient + c.tempBytes)
      (.value "memory_bytes is an aggregate alias when resource components are supplied")
    pure (c.residentBytes, transient, c.tempBytes)
  else
    pure (0, max 1 aggregate, 0)

/-- `str(value).strip()` of an optional name, which may not be empty. -/
def optionalName (value : Option Text) (message : String) : Checked (Option Text) :=
  match value with
  | none => .ok none
  | some t => if strip t = [] then .error (.value message) else .ok (some (strip t))

/-- The request of `admission_scope`, and its checks before the condition is taken.  They read
the ceilings of the coordinator without holding the condition: `view` is the coordinator as
it was then. -/
def AdmitCall.request (view : Coordinator) (c : AdmitCall) : Checked Request := do
  raiseIf (c.routeName ∉ view.routeOrder) (.value "route is not coordinated")
  let (resident, transient, temp) ← c.components
  let ioDevice ← asValue (canonicalIoDevice c.ioDevice)
  raiseIf (c.renewingFrom.isSome ∧ (resident + transient ≠ 0 ∨ temp ≠ 0 ∨ c.gpuBytes ≠ 0 ∨
      c.drainingFrom.isSome ∨ c.adaptiveNativeThreads))
    (.value "execution renewal cannot grow memory or change its native width")
  raiseIf (c.cpuSlots < 0) (.value "CPU slots cannot be negative")
  let memoryCeiling :=
    if view.limits.memoryBudgetBytes.isNone then view.lastMemoryBudget else view.memoryBudgetBytes
  let cpuCeiling :=
    if view.limits.cpuSlots.isNone then view.lastCpuCapacity else view.cpuSlots
  raiseIf (memoryCeiling < resident + transient) (.budget "the global budget is exceeded")
  raiseIf ((view.limits.routeMemoryBudgets.lookup c.routeName).any fun b =>
      decide (b < resident + transient)) (.budget "the route budget is exceeded")
  raiseIf (cpuCeiling < c.cpuSlots ∧ (c.renewingFrom.isNone ∨ view.limits.cpuSlots.isSome))
    (.budget "more CPU slots than configured")
  raiseIf (view.nativeThreadSlots < c.nativeThreads ∧
      (c.renewingFrom.isNone ∨ view.limits.nativeThreadSlots.isSome))
    (.budget "more native threads than configured")
  raiseIf (view.tempBudgetBytes < temp) (.budget "more temporary bytes than configured")
  raiseIf (view.ioCapacity (orDefault ioDevice) < c.ioSlots)
    (.budget "one request exceeds the device I/O concurrency limit")
  raiseIf (view.gpuCapacity (orDefault c.gpuDevice) < c.gpuBytes)
    (.budget "GPU device is unregistered or its memory budget is exceeded")
  let _ ← optionalName c.phase "global resource phase cannot be empty"
  let residentKey ← optionalName c.residentKey "global resident key cannot be empty"
  pure {
    routeName := c.routeName
    memoryBytes := resident + transient
    cpuSlots := c.cpuSlots
    residentBytes := resident
    transientBytes := transient
    tempBytes := temp
    nativeThreads := c.nativeThreads
    residentKey := residentKey
    ioSlots := c.ioSlots
    ioDevice := ioDevice
    gpuBytes := c.gpuBytes
    gpuDevice := c.gpuDevice
    drainingFrom := c.drainingFrom
    renewingFrom := c.renewingFrom
    adaptiveNativeThreads := c.adaptiveNativeThreads
    nativeThreadLimit := c.nativeThreadLimit }

/-- The request `i` is active and belongs to `route`. -/
def Coordinator.isLive (s : Coordinator) (route : Text) (i : ℕ) : Bool :=
  s.activeReservations.contains i && (s.requests i).routeName == route

/-- The start of the critical section of an admission: the request joins its queue. -/
def Coordinator.enqueue (s : Coordinator) (r : Request) : Checked Coordinator := do
  raiseIf (r.renewingFrom.any fun i => !s.isLive r.routeName i)
    (.runtime "execution renewal requires its original live lease")
  raiseIf (r.drainingFrom.any fun i => !s.isLive r.routeName i ||
      decide (r.memoryBytes ≠ 0 ∨ r.tempBytes ≠ 0 ∨ r.gpuBytes ≠ 0 ∨
        1 < r.cpuSlots ∨ 1 < r.nativeThreads ∨ 1 < r.ioSlots))
    (.value "drain admission must finalize a live lease without resource growth")
  let queue :=
    if r.drainingFrom.isSome || r.renewingFrom.isSome then s.nextId :: s.queues r.routeName
    else s.queues r.routeName ++ [s.nextId]
  pure { s with
    requests := Function.update s.requests s.nextId { r with queued := true }
    nextId := s.nextId + 1
    queues := Function.update s.queues r.routeName queue }

/-! ## Grant -/

/-- `bool(request.cpu_slots or request.native_threads or request.io_slots)`. -/
def Request.executes (r : Request) : Bool :=
  decide (r.cpuSlots ≠ 0 ∨ r.nativeThreads ≠ 0 ∨ r.ioSlots ≠ 0)

/-- One, if the flag is set. -/
def oneIf (b : Bool) : ℤ := if b then 1 else 0

/-- The counters after `r` is charged with `memory` bytes, `resident` of them resident. -/
def Counters.charge (c : Counters) (r : Request) (memory resident : ℤ) : Counters where
  reservedBytes := c.reservedBytes + memory
  residentBytes := c.residentBytes + resident
  transientBytes := c.transientBytes + r.transientBytes
  tempBytes := c.tempBytes + r.tempBytes
  cpuSlots := c.cpuSlots + r.cpuSlots
  nativeThreads := c.nativeThreads + r.nativeThreads
  activeRequests := c.activeRequests + 1
  activeExecutionRequests := c.activeExecutionRequests + oneIf r.executes

/-- The state that `_grant_request_locked` commits for the head of a queue. -/
def Coordinator.commitGrant (s : Coordinator) (i : ℕ) (routeIndex : ℤ) : Coordinator :=
  let r := s.requests i
  let charge := s.residentCharge r
  let memory := charge + r.transientBytes
  let m := s.metrics r.routeName
  let claims := match r.claimKey with
    | none => s.residentClaims
    | some key =>
      Function.update s.residentClaims key (s.residentClaims key ++ [(i, r.residentBytes)])
  let charged : RouteMetrics :=
    { toCounters := m.toCounters.charge r memory charge
      ioSlots := m.ioSlots + r.ioSlots
      gpuBytes := m.gpuBytes + r.gpuBytes }
  let granted : Request :=
    { r with
      queued := false
      residentChargeBytes := charge
      memoryBytes := memory
      admitted := true
      released := false
      executionActive := r.executes }
  { s with
    queues := Function.update s.queues r.routeName (s.queues r.routeName).tail
    lastGrantedIndex := routeIndex
    counters := s.counters.charge r memory charge
    residentClaims := claims
    metrics := Function.update s.metrics r.routeName charged
    requests := Function.update s.requests i granted
    activeReservations := s.activeReservations ++ [i]
    ioInUse := Function.update s.ioInUse r.ioKey (s.ioInUse r.ioKey + r.ioSlots)
    gpuInUse := Function.update s.gpuInUse r.gpuKey (s.gpuInUse r.gpuKey + r.gpuBytes) }

/-- The state that the rollback of `_grant_request_locked` leaves: everything but the queue
and the marks of the request is put back. -/
def Coordinator.rollbackGrant (s : Coordinator) (i : ℕ) : Coordinator :=
  let r := s.requests i
  let failed :=
    { r with queued := false, executionActive := false, admitted := false, released := false }
  { s with
    queues := Function.update s.queues r.routeName (s.queues r.routeName).tail
    requests := Function.update s.requests i failed }

/-! ## Release -/

/-- The counters after `r` has given back `memory` bytes, `resident` of them resident. -/
def Counters.discharge (c : Counters) (r : Request) (memory resident : ℤ) : Counters where
  reservedBytes := c.reservedBytes - memory
  residentBytes := c.residentBytes - resident
  transientBytes := c.transientBytes - r.transientBytes
  tempBytes := c.tempBytes - r.tempBytes
  cpuSlots := c.cpuSlots - r.cpuSlots
  nativeThreads := c.nativeThreads - r.nativeThreads
  activeRequests := c.activeRequests - 1
  activeExecutionRequests := c.activeExecutionRequests - oneIf r.executionActive

/-- `resident_released` of `_release_admission_locked`. -/
def Coordinator.residentReleased (s : Coordinator) (i : ℕ) : ℤ :=
  match (s.requests i).claimKey with
  | none => (s.requests i).residentChargeBytes
  | some key =>
    let claims := s.residentClaims key
    if claims = [] then (s.requests i).residentChargeBytes
    else max 0 (claimMax claims - claimMax (claims.filter fun c => c.1 != i))

/-- `_release_admission_locked`. -/
def Coordinator.releaseAdmission (s : Coordinator) (i : ℕ) : Coordinator :=
  let r := s.requests i
  if !r.admitted || r.released then s
  else
    let resident := s.residentReleased i
    let memory := resident + r.transientBytes
    let m := s.metrics r.routeName
    let claims := match r.claimKey with
      | none => s.residentClaims
      | some key =>
        Function.update s.residentClaims key
          ((s.residentClaims key).filter fun c => c.1 != i)
    let discharged : RouteMetrics :=
      { toCounters := m.toCounters.discharge r memory resident
        ioSlots := m.ioSlots - r.ioSlots
        gpuBytes := m.gpuBytes - r.gpuBytes }
    let ended := { r with admitted := false, released := true, executionActive := false }
    { s with
      residentClaims := claims
      counters := s.counters.discharge r memory resident
      metrics := Function.update s.metrics r.routeName discharged
      ioInUse := Function.update s.ioInUse r.ioKey (s.ioInUse r.ioKey - r.ioSlots)
      gpuInUse := Function.update s.gpuInUse r.gpuKey (s.gpuInUse r.gpuKey - r.gpuBytes)
      requests := Function.update s.requests i ended
      activeReservations := s.activeReservations.filter fun j => j != i }

/-- `_discard_queued_request_locked`. -/
def Coordinator.discardQueued (s : Coordinator) (i : ℕ) : Coordinator :=
  let r := s.requests i
  if !r.queued then s
  else
    { s with
      queues := Function.update s.queues r.routeName ((s.queues r.routeName).erase i)
      requests := Function.update s.requests i { r with queued := false } }

/-- `_cleanup_request`. -/
def Coordinator.cleanup (s : Coordinator) (i : ℕ) : Coordinator :=
  if (s.requests i).queued then s.discardQueued i
  else if (s.requests i).admitted && !(s.requests i).released then s.releaseAdmission i
  else s

/-- The counters after `r` has stopped executing. -/
def Counters.stopExecution (c : Counters) (r : Request) : Counters :=
  { c with
    cpuSlots := c.cpuSlots - r.cpuSlots
    nativeThreads := c.nativeThreads - r.nativeThreads
    activeExecutionRequests := c.activeExecutionRequests - 1 }

/-- `_release_execution`. -/
def Coordinator.releaseExecution (s : Coordinator) (i : ℕ) : Coordinator :=
  let r := s.requests i
  if !r.admitted || r.released || !r.executionActive then s
  else
    let m := s.metrics r.routeName
    let stopped :=
      { m with toCounters := m.toCounters.stopExecution r, ioSlots := m.ioSlots - r.ioSlots }
    let idle := { r with cpuSlots := 0, nativeThreads := 0, ioSlots := 0, executionActive := false }
    { s with
      counters := s.counters.stopExecution r
      metrics := Function.update s.metrics r.routeName stopped
      ioInUse := Function.update s.ioInUse r.ioKey (s.ioInUse r.ioKey - r.ioSlots)
      requests := Function.update s.requests i idle }

/-! ## Held grants -/

/-- The counters after `released` transient bytes were returned. -/
def Counters.shrink (c : Counters) (released : ℤ) : Counters :=
  { c with
    reservedBytes := c.reservedBytes - released
    transientBytes := c.transientBytes - released }

/-- `shrink_transient_bytes`. -/
def Coordinator.shrinkTransient (s : Coordinator) (i : ℕ) (amount : ℤ) : Checked Coordinator := do
  let r := s.requests i
  raiseIf (!r.admitted || r.released) (.runtime "cannot shrink a released resource grant")
  raiseIf (amount < 0 ∨ r.transientBytes < amount)
    (.value "transient reduction cannot grow a reservation")
  let released := r.transientBytes - amount
  let m := s.metrics r.routeName
  let shrunk := { r with transientBytes := amount, memoryBytes := r.memoryBytes - released }
  let reduced := { m with toCounters := m.toCounters.shrink released }
  pure { s with
    requests := Function.update s.requests i shrunk
    counters := s.counters.shrink released
    metrics := Function.update s.metrics r.routeName reduced }

/-- `os.fstat` of the descriptor that a grant's spool is written through. -/
structure SpoolFile where
  isRegular : Bool
  identity : ℤ × ℤ
  size : ℤ

/-- The checks of a descriptor, and the bytes it has materialised. -/
def Coordinator.spoolMaterialized (s : Coordinator) (i : ℕ) :
    Option SpoolFile → Checked ℤ
  | none => .ok 0
  | some file => do
    let r := s.requests i
    raiseIf (file.isRegular = false)
      (.value "temporary resource descriptor must be a regular file")
    raiseIf (r.tempFileIdentity.any fun identity => decide (identity ≠ file.identity))
      (.value "temporary resource descriptor changed identity")
    raiseIf (s.activeReservations.any fun j => j != i && decide ((s.requests j).tempBytes ≠ 0) &&
        (s.requests j).tempFileIdentity == some file.identity)
      (.value "temporary file already belongs to another live grant")
    pure (min r.tempBytes (max 0 file.size))

/-- The other active requests. -/
def Coordinator.liveExcept (s : Coordinator) (i : ℕ) : List Request :=
  (s.activeReservations.filter fun j => j != i).map s.requests

/-- `resize_temp_bytes`; `free` is what the file system has available. -/
def Coordinator.resizeTemp (s : Coordinator) (i : ℕ) (amount : ℤ) (file : Option SpoolFile)
    (free : ℤ) : Checked Coordinator := do
  raiseIf (amount < 0) (.value "temporary resource size cannot be negative")
  let r := s.requests i
  raiseIf (!r.admitted || r.released) (.runtime "cannot resize a released resource grant")
  let materialized ← s.spoolMaterialized i file
  let delta := amount - r.tempBytes
  let future := s.counters.tempBytes + delta
  raiseIf (0 < delta ∧ s.limits.tempBudgetBytes.any fun explicit => decide (explicit < future))
    (.budget "temporary storage budget exceeded")
  raiseIf (0 < delta ∧
      free < max 0 (amount - materialized) + pendingTemporary (s.liveExcept i))
    (.budget "insufficient filesystem capacity for temporary growth")
  let m := s.metrics r.routeName
  let resized :=
    { r with
      tempMaterializedBytes := min amount materialized
      tempFileIdentity := if amount ≠ 0 then file.map SpoolFile.identity else none
      tempBytes := amount }
  pure { s with
    tempBudgetBytes :=
      if 0 < delta ∧ s.limits.tempBudgetBytes.isNone then
        ((s.liveExcept i).map Request.tempMaterializedBytes).sum + materialized + free
      else s.tempBudgetBytes
    requests := Function.update s.requests i resized
    counters := { s.counters with tempBytes := future }
    metrics := Function.update s.metrics r.routeName { m with tempBytes := m.tempBytes + delta } }

/-- The part of `register_process` under the condition. -/
def Coordinator.registerProcess (s : Coordinator) (i : ℕ) (p : ProcessIdentity) :
    Checked Coordinator := do
  let r := s.requests i
  raiseIf (!r.admitted || r.released) (.runtime "cannot register a process on a released grant")
  let registered := { r with processIdentities := p :: r.processIdentities }
  pure { s with requests := Function.update s.requests i registered }

/-- `register_route`, of a stripped name. -/
def Coordinator.registerRoute (s : Coordinator) (name : Text) : Coordinator :=
  if name = [] ∨ name ∈ s.routeOrder then s else { s with routeOrder := s.routeOrder ++ [name] }

/-- The refresh of an automatic temporary budget in `admission_scope`. -/
def Coordinator.refreshTemporary (s : Coordinator) (free : ℤ) : Coordinator :=
  if s.limits.tempBudgetBytes.isNone then
    { s with tempBudgetBytes := free + (s.live.map Request.tempMaterializedBytes).sum }
  else s

/-! ## Steps -/

/-- What happens to a reservation in a step. -/
inductive Event where
  | granted (i : ℕ)
  | released (i : ℕ)
  deriving DecidableEq

/-- What one turn of the waiting loop of an admission meets. -/
structure Turn where
  observation : Observation
  surroundings : Surroundings
  /-- A checkpoint or a token reports cancellation before the observation. -/
  cancelledBefore : Bool := false
  /-- A token reports cancellation between the choice and the grant. -/
  cancelledAtGrant : Bool := false
  /-- The clock raises inside the grant of a request that has waited. -/
  clockRaises : Bool := false

/-- One turn of the waiting loop of `admission_scope`. -/
def Coordinator.attempt (s : Coordinator) (i : ℕ) (t : Turn) : Coordinator × List Event :=
  let r := s.requests i
  if t.cancelledBefore then (s, [])
  else if r.renewingFrom.any fun j => !s.activeReservations.contains j then (s, [])
  else
    let effective := s.effectiveCpuSlots t.observation
    let (s, selected) := (s.observe t.observation).nextRoute t.observation t.surroundings effective
    let r := s.requests i
    if selected = some r.routeName ∧ (s.queues r.routeName).head? = some i then
      if t.cancelledAtGrant then (s, [])
      else if r.waited ∧ t.clockRaises then (s.rollbackGrant i, [])
      else (s.commitGrant i (s.routeOrder.idxOf r.routeName), [.granted i])
    else ({ s with requests := Function.update s.requests i { r with waited := true } }, [])

/-- The critical sections. -/
inductive Op where
  | admission (view : Coordinator) (call : AdmitCall)
  | attempt (i : ℕ) (turn : Turn)
  | cleanup (i : ℕ)
  | releaseExecution (i : ℕ)
  | shrink (i : ℕ) (amount : ℤ)
  | resize (i : ℕ) (amount : ℤ) (file : Option SpoolFile) (free : ℤ)
  | registerProcess (i : ℕ) (p : ProcessIdentity)
  | registerRoute (name : Text)
  | observe (observation : Observation)
  | refreshTemporary (free : ℤ)

/-- A section that may raise. -/
def orUnchanged (s : Coordinator) : Checked Coordinator → Coordinator
  | .ok s' => s'
  | .error _ => s

/-- The release of a reservation, as an event. -/
def Coordinator.releaseEvents (s : Coordinator) (i : ℕ) : List Event :=
  if !(s.requests i).queued && (s.requests i).admitted && !(s.requests i).released then
    [.released i]
  else []

/-- One critical section. -/
def Coordinator.step (s : Coordinator) : Op → Coordinator × List Event
  | .admission view call =>
    (orUnchanged s (do let r ← call.request view; s.enqueue r), [])
  | .attempt i turn => s.attempt i turn
  | .cleanup i => (s.cleanup i, s.releaseEvents i)
  | .releaseExecution i => (s.releaseExecution i, [])
  | .shrink i amount => (orUnchanged s (s.shrinkTransient i amount), [])
  | .resize i amount file free => (orUnchanged s (s.resizeTemp i amount file free), [])
  | .registerProcess i p => (orUnchanged s (s.registerProcess i p), [])
  | .registerRoute name => (s.registerRoute (strip name), [])
  | .observe o => (s.observe o, [])
  | .refreshTemporary free => (s.refreshTemporary free, [])

/-- A run: the coordinator after the sections, and everything that was granted or released. -/
def Coordinator.run (s : Coordinator) : List Op → Coordinator × List Event
  | [] => (s, [])
  | op :: ops =>
    let (s', events) := s.step op
    let (s'', more) := s'.run ops
    (s'', events ++ more)

end Resources
end Neocortex
