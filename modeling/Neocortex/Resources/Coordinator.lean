import Neocortex.Resources.Devices

/-!
# The resource coordinator

The state of `GlobalResourceCoordinator` (`runtime/control/global_resources.py`), the
requests it owns (`resource_models.py`) and what it observes of the machine
(`resource_observation.py`).

Requests are objects with an identity and mutable fields: `requests` is the store of these
objects, and a queue, a claim or an active reservation names one by its identity.  Python
integers are `ℤ`, so that nothing but a proof keeps a counter from becoming negative.

Floating point stays outside: an `Observation` carries what the computations with loads,
cores and pressures came to (`math.ceil` of a capacity, a flag), and any such values may
come.  The peaks, the counts of admissions and waits and the wait times, which only
`summary` reads, are left out.
-/

namespace Neocortex
namespace Resources

open Python
open Checks (raiseIf)

/-! ## Requests -/

/-- A process, by its identifier and start time. -/
abbrev ProcessIdentity := ℤ × ℤ

/-- `_Request`. -/
structure Request where
  routeName : Text := []
  memoryBytes : ℤ := 0
  cpuSlots : ℤ := 0
  residentBytes : ℤ := 0
  transientBytes : ℤ := 0
  tempBytes : ℤ := 0
  nativeThreads : ℤ := 0
  residentKey : Option Text := none
  residentChargeBytes : ℤ := 0
  waited : Bool := false
  queued : Bool := false
  admitted : Bool := false
  released : Bool := false
  ioSlots : ℤ := 0
  ioDevice : Option Text := none
  gpuBytes : ℤ := 0
  gpuDevice : Option Text := none
  executionActive : Bool := false
  processIdentities : List ProcessIdentity := []
  tempMaterializedBytes : ℤ := 0
  tempFileIdentity : Option (ℤ × ℤ) := none
  drainingFrom : Option ℕ := none
  renewingFrom : Option ℕ := none
  adaptiveNativeThreads : Bool := false
  nativeThreadLimit : Option ℤ := none
  deriving DecidableEq

/-- `(request.route_name, request.resident_key)`. -/
def Request.claimKey (r : Request) : Option (Text × Text) :=
  r.residentKey.map fun k => (r.routeName, k)

/-- `request.io_device or "default"`. -/
def Request.ioKey (r : Request) : Text := orDefault r.ioDevice

/-- `request.gpu_device or "default"`. -/
def Request.gpuKey (r : Request) : Text := orDefault r.gpuDevice

/-! ## Counters -/

/-- The counters that the coordinator keeps for itself and again for each route. -/
@[ext] structure Counters where
  reservedBytes : ℤ := 0
  residentBytes : ℤ := 0
  transientBytes : ℤ := 0
  tempBytes : ℤ := 0
  cpuSlots : ℤ := 0
  nativeThreads : ℤ := 0
  activeRequests : ℤ := 0
  activeExecutionRequests : ℤ := 0
  deriving DecidableEq

/-- The counters of `_MutableRouteMetrics`. -/
@[ext] structure RouteMetrics extends Counters where
  ioSlots : ℤ := 0
  gpuBytes : ℤ := 0
  deriving DecidableEq

/-! ## Configuration -/

/-- `GlobalResourceLimits`, its device table normalised; `none` is automatic. -/
structure Limits where
  memoryBudgetBytes : Option ℤ
  minFreeMemoryBytes : Option ℤ
  minFreeCommitBytes : Option ℤ
  cpuSlots : Option ℤ
  nativeThreadSlots : Option ℤ
  tempBudgetBytes : Option ℤ
  ioSlots : Option ℤ
  ioDeviceSlots : List (Text × ℤ)
  gpuMemoryBytes : List (Text × ℤ)
  routeMemoryBudgets : List (Text × ℤ)

/-- The coordinator.  The functions of its dictionaries are total: a missing entry reads as
empty or zero, as with `get` and its default. -/
structure Coordinator where
  limits : Limits
  memoryBudgetBytes : ℤ
  minFreeMemoryBytes : ℤ
  minFreeCommitBytes : ℤ
  cpuSlots : ℤ
  nativeThreadSlots : ℤ
  tempBudgetBytes : ℤ
  routeOrder : List Text
  queues : Text → List ℕ
  requests : ℕ → Request
  nextId : ℕ
  lastGrantedIndex : ℤ
  counters : Counters
  metrics : Text → RouteMetrics
  residentClaims : Text × Text → List (ℕ × ℤ)
  activeReservations : List ℕ
  ioInUse : Text → ℤ
  gpuInUse : Text → ℤ
  lastMemoryBudget : ℤ
  lastCpuCapacity : ℤ
  lastEffectiveCpuSlots : ℤ
  memoryPressure : Bool
  cpuPressure : Bool
  ioPressure : Bool
  processMemory : List (ProcessIdentity × ℤ)

/-- What `__init__` finds on the machine, for the limits that are automatic. -/
structure Machine where
  memoryBudget : ℤ
  headroom : ℤ
  cpuSlots : ℤ
  freeTemporary : ℤ

/-- What the constructor or an admission raises. -/
inductive ResourceError where
  /-- `ValueError`. -/
  | value (message : String)
  /-- `MemoryBudgetExceeded` and `NativeThreadBudgetExceeded`. -/
  | budget (message : String)
  /-- `RuntimeError`. -/
  | runtime (message : String)
  /-- `CancellationRequested`, or what a checkpoint callback raises. -/
  | cancelled
  /-- `ResourceWaitTimeout`. -/
  | timeout
  /-- What the clock raises inside a grant. -/
  | interrupted
  deriving DecidableEq, Repr

abbrev Checked := Except ResourceError

/-- The route budgets under their stripped names. -/
def normalizeRouteBudgets (configured : List (Text × ℤ)) : Checked (List (Text × ℤ)) :=
  configured.foldlM (fun budgets entry => do
    let name := strip entry.1
    raiseIf (name = []) (.value "route memory budgets require nonempty route names")
    raiseIf (entry.2 < 1) (.value "route memory budgets must be positive integers")
    raiseIf ((budgets.lookup name).isSome)
      (.value "route memory budgets require unique route names")
    pure (budgets ++ [(name, entry.2)])) []

/-- The limits of a call of `__init__`, as they are given. -/
structure GivenLimits where
  memoryBudgetBytes : Option ℤ := none
  minFreeMemoryBytes : Option ℤ := none
  minFreeCommitBytes : Option ℤ := none
  cpuSlots : Option ℤ := none
  nativeThreadSlots : Option ℤ := none
  tempBudgetBytes : Option ℤ := none
  ioSlots : Option ℤ := none
  ioDeviceSlots : List (DeviceValue × ℤ) := []
  gpuMemoryBytes : List (Text × ℤ) := []
  routeMemoryBudgets : List (Text × ℤ) := []

/-- `ValueError` of the device table. -/
def asValue {α : Type} : Except String α → Checked α
  | .ok a => .ok a
  | .error message => .error (.value message)

/-- `GlobalResourceCoordinator.__init__`.  The checks of timeouts, intervals and percentages,
which nothing below uses, are left out. -/
def Coordinator.create (routeOrder : List Text) (given : GivenLimits) (machine : Machine) :
    Checked Coordinator := do
  raiseIf (routeOrder = [] ∨ ¬ routeOrder.Nodup) (.value "route_order must contain unique route names")
  let ioDeviceSlots ← asValue (normalizeIoDeviceSlots given.ioDeviceSlots)
  raiseIf (given.nativeThreadSlots.any fun n => decide (n < 1))
    (.value "global native thread slots must be positive")
  raiseIf (given.tempBudgetBytes.any fun n => decide (n < 1))
    (.value "global temporary resource budget must be positive")
  raiseIf (given.ioSlots.any fun n => decide (n < 1))
    (.value "global I/O concurrency must be positive")
  raiseIf (ioDeviceSlots.any fun e => decide (e.2 < 1))
    (.value "device I/O concurrency must be positive")
  raiseIf (given.gpuMemoryBytes.any fun e => decide (e.2 < 1))
    (.value "GPU memory capacities must be positive")
  let routeMemoryBudgets ← normalizeRouteBudgets given.routeMemoryBudgets
  let memoryBudgetBytes := given.memoryBudgetBytes.getD machine.memoryBudget
  let minFreeMemoryBytes := given.minFreeMemoryBytes.getD machine.headroom
  let minFreeCommitBytes := given.minFreeCommitBytes.getD machine.headroom
  let cpuSlots := given.cpuSlots.getD machine.cpuSlots
  raiseIf (memoryBudgetBytes < 1) (.value "global memory budget must be positive")
  raiseIf (minFreeMemoryBytes < 0 ∨ minFreeCommitBytes < 0)
    (.value "global memory headroom cannot be negative")
  raiseIf (cpuSlots < 1) (.value "global CPU slots must be positive")
  pure {
    limits := ⟨given.memoryBudgetBytes, given.minFreeMemoryBytes, given.minFreeCommitBytes,
      given.cpuSlots, given.nativeThreadSlots, given.tempBudgetBytes, given.ioSlots,
      ioDeviceSlots, given.gpuMemoryBytes, routeMemoryBudgets⟩
    memoryBudgetBytes := memoryBudgetBytes
    minFreeMemoryBytes := minFreeMemoryBytes
    minFreeCommitBytes := minFreeCommitBytes
    cpuSlots := cpuSlots
    nativeThreadSlots := given.nativeThreadSlots.getD cpuSlots
    tempBudgetBytes := given.tempBudgetBytes.getD machine.freeTemporary
    routeOrder := routeOrder
    queues := fun _ => []
    requests := fun _ => {}
    nextId := 0
    lastGrantedIndex := -1
    counters := {}
    metrics := fun _ => {}
    residentClaims := fun _ => []
    activeReservations := []
    ioInUse := fun _ => 0
    gpuInUse := fun _ => 0
    lastMemoryBudget := memoryBudgetBytes
    lastCpuCapacity := cpuSlots
    lastEffectiveCpuSlots := cpuSlots
    memoryPressure := false
    cpuPressure := false
    ioPressure := false
    processMemory := [] }

/-! ## Observation -/

/-- What one call of `_observe_live_resources` reads. -/
structure Observation where
  availablePhysical : Option ℤ
  availableCommit : Option ℤ
  /-- `_adaptive_memory_budget(snapshot.total_physical)`. -/
  automaticMemoryBudget : ℤ
  /-- `math.ceil` of the detected capacity; `none` if the probe raised. -/
  detectedCpu : Option ℤ
  /-- `math.ceil` of the capacity that an explicit load leaves; `none` without such a load. -/
  loadCapacity : Option ℤ
  /-- `math.ceil(available_cores)`; `none` if no external load was observed. -/
  externalSlots : Option ℤ
  /-- An external load was attributed before, and no explicit load is given. -/
  attributionLost : Bool
  /-- `cpu_load is None`. -/
  loadUnknown : Bool
  memoryPressure : Bool
  cpuPressure : Bool
  ioPressure : Bool
  /-- `process_memory_bytes` of the last owned snapshot. -/
  processMemory : List (ProcessIdentity × ℤ)

/-- `_effective_cpu_capacity`. -/
def effectiveCpuCapacity (loadCapacity : Option ℤ) (cpuSlots : ℤ) : ℤ :=
  let availableSlots := max 1 cpuSlots
  match loadCapacity with
  | none => availableSlots
  | some capacity => max 1 (min availableSlots capacity)

/-- `cpu_capacity` of `observe_live_resources`. -/
def Coordinator.cpuCapacity (s : Coordinator) (o : Observation) : ℤ :=
  let detected := (o.detectedCpu.map (max 1)).getD s.lastCpuCapacity
  if s.limits.cpuSlots.isNone then detected else min s.cpuSlots detected

/-- `effective_cpu_slots` of `observe_live_resources`. -/
def Coordinator.effectiveCpuSlots (s : Coordinator) (o : Observation) : ℤ :=
  let effective := effectiveCpuCapacity o.loadCapacity (s.cpuCapacity o)
  let effective := match o.externalSlots with
    | some slots => min effective (max 0 slots)
    | none => if o.attributionLost then min effective s.lastEffectiveCpuSlots else effective
  if o.loadUnknown && o.cpuPressure then min effective (max 1 s.lastEffectiveCpuSlots)
  else effective

/-- `_observe_live_resources`, its effect on the coordinator. -/
def Coordinator.observe (s : Coordinator) (o : Observation) : Coordinator :=
  { s with
    lastMemoryBudget :=
      if s.limits.memoryBudgetBytes.isNone then o.automaticMemoryBudget else s.memoryBudgetBytes
    nativeThreadSlots :=
      if s.limits.nativeThreadSlots.isNone then s.cpuCapacity o else s.nativeThreadSlots
    lastCpuCapacity := s.cpuCapacity o
    lastEffectiveCpuSlots := s.effectiveCpuSlots o
    memoryPressure := o.memoryPressure
    cpuPressure := o.cpuPressure
    ioPressure := o.ioPressure
    processMemory := o.processMemory }

/-! ## Queries -/

/-- The active requests, in the order of their grants. -/
def Coordinator.live (s : Coordinator) : List Request := s.activeReservations.map s.requests

/-- `max(claims.values(), default=0)`. -/
def claimMax (claims : List (ℕ × ℤ)) : ℤ := ((claims.map Prod.snd).max?).getD 0

/-- `_resident_charge_for_request_locked`. -/
def Coordinator.residentCharge (s : Coordinator) (r : Request) : ℤ :=
  match r.claimKey with
  | none => r.residentBytes
  | some key =>
    if r.residentBytes ≤ 0 then r.residentBytes
    else max 0 (r.residentBytes - claimMax (s.residentClaims key))

/-- `_io_capacity`. -/
def Coordinator.ioCapacity (s : Coordinator) (device : Text) : ℤ :=
  match ioDeviceKey (.label device) with
  | .error _ => max 1 s.lastCpuCapacity
  | .ok key =>
    match s.limits.ioDeviceSlots.lookup key with
    | some configured => max 1 configured
    | none =>
      match s.limits.ioSlots with
      | some slots => max 1 slots
      | none => max 1 s.lastCpuCapacity

/-- `_gpu_capacity.get(device, 0)`. -/
def Coordinator.gpuCapacity (s : Coordinator) (device : Text) : ℤ :=
  (s.limits.gpuMemoryBytes.lookup device).getD 0

/-- The bytes that are credited to the live requests, each process once: `measured` gives
what a process holds, `bound` what a request may be credited at most. -/
def materialized (measured : List (ProcessIdentity × ℤ)) (bound : Request → ℤ) :
    List Request → List ProcessIdentity → ℤ
  | [], _ => 0
  | r :: rest, seen =>
    let fresh := r.processIdentities.dedup.filter fun p =>
      !seen.contains p && (measured.lookup p).isSome
    let own := (fresh.map fun p => max 0 ((measured.lookup p).getD 0)).sum
    min (bound r) own + materialized measured bound rest (fresh ++ seen)

/-- `_materialized_credit_locked`. -/
def Coordinator.materializedCredit (s : Coordinator) : ℤ :=
  min s.counters.reservedBytes (materialized s.processMemory Request.memoryBytes s.live [])

/-- `_gpu_materialized_credit_locked`. -/
def Coordinator.gpuMaterializedCredit (s : Coordinator) (measured : List (ProcessIdentity × ℤ))
    (device : Text) : ℤ :=
  min (s.gpuInUse device)
    (materialized measured Request.gpuBytes (s.live.filter fun r => r.gpuKey == device) [])

end Resources
end Neocortex
