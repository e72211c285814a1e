import Neocortex.Resources.Coordinator

/-!
# Which request is granted next

`runtime/control/resource_scheduling.py`: the test that a queued request fits, and the
choice of a route.  Both run while the condition of the coordinator is held; the choice
also sets the width of adaptive requests at the head of a queue.

* `nextRoute_fits`: the head of the chosen route fits.
-/

namespace Neocortex
namespace Resources

open Python

/-- What the scheduling predicates read outside the coordinator. -/
structure Surroundings where
  /-- `shutil.disk_usage(tempfile.gettempdir()).free`. -/
  freeTemporary : ℤ
  /-- The current observation of each GPU that has a probe; `some none` is an unknown or
  expired one. -/
  gpuAvailable : Text → Option (Option ℤ)
  /-- The bytes that the processes hold on a GPU. -/
  gpuMeasured : Text → List (ProcessIdentity × ℤ)

/-- `sum(max(0, active.temp_bytes - active.temp_materialized_bytes) ...)`. -/
def pendingTemporary (live : List Request) : ℤ :=
  (live.map fun r => max 0 (r.tempBytes - r.tempMaterializedBytes)).sum

/-- The test of the GPU a request asks for. -/
def Coordinator.gpuFits (s : Coordinator) (r : Request) (env : Surroundings) : Bool :=
  if r.gpuBytes = 0 then true
  else if s.gpuCapacity r.gpuKey < s.gpuInUse r.gpuKey + r.gpuBytes then false
  else
    match env.gpuAvailable r.gpuKey with
    | none => true
    | some none => false
    | some (some available) =>
      decide (s.gpuInUse r.gpuKey - s.gpuMaterializedCredit (env.gpuMeasured r.gpuKey) r.gpuKey +
        r.gpuBytes ≤ available)

/-- The key under which `fits` looks a device up. -/
def Request.ioLookupKey (r : Request) : Text :=
  (ioDeviceKey (storedDevice r.ioDevice)).toOption.getD r.ioKey

/-- The test of the device a request asks for. -/
def Coordinator.ioFits (s : Coordinator) (r : Request) : Bool :=
  if r.ioSlots = 0 then true
  else if s.ioPressure ∧ r.drainingFrom.isNone then false
  else decide (s.ioInUse r.ioLookupKey + r.ioSlots ≤ s.ioCapacity r.ioLookupKey)

/-- The test of the memory that the request would add to the machine. -/
def Coordinator.headroomFits (s : Coordinator) (r : Request) (o : Observation) : Bool :=
  let future := s.counters.reservedBytes + s.residentCharge r + r.transientBytes
  let incremental := max 0 (future - s.materializedCredit)
  (o.availablePhysical.all fun a => decide (s.minFreeMemoryBytes + incremental ≤ a)) &&
    o.availableCommit.all fun a => decide (s.minFreeCommitBytes + incremental ≤ a)

/-- The CPU capacity that a request may use: one finalizer may run under pressure. -/
def Coordinator.capacityFor (s : Coordinator) (r : Request) (effective : ℤ) : ℤ :=
  if r.drainingFrom.isSome ∧ (s.memoryPressure ∨ s.cpuPressure ∨ s.ioPressure) then max 1 effective
  else effective

/-- `fits`. -/
def Coordinator.fits (s : Coordinator) (r : Request) (o : Observation) (env : Surroundings)
    (effective : ℤ) : Bool :=
  let draining := r.drainingFrom.isSome
  let charge := s.residentCharge r
  let pressure := s.memoryPressure || s.cpuPressure || s.ioPressure
  let execution := decide (0 < r.cpuSlots ∨ 0 < r.nativeThreads ∨ 0 < r.ioSlots)
  let capacity := s.capacityFor r effective
  if r.drainingFrom.any fun i => !s.activeReservations.contains i then false
  else if !draining && decide
      (s.lastMemoryBudget < s.counters.reservedBytes + charge + r.transientBytes) then false
  else if !draining && (s.limits.routeMemoryBudgets.lookup r.routeName).any fun budget =>
      decide (budget < (s.metrics r.routeName).reservedBytes + charge + r.transientBytes) then false
  else if !draining && (s.memoryPressure || (s.cpuPressure && execution)) then false
  else if draining && pressure && s.live.any fun a => a.drainingFrom.isSome && a.executionActive then
    false
  else if capacity < s.counters.cpuSlots + r.cpuSlots then false
  else if min s.nativeThreadSlots capacity < s.counters.nativeThreads + r.nativeThreads then false
  else if s.tempBudgetBytes < r.tempBytes + s.counters.tempBytes then false
  else if r.tempBytes ≠ 0 ∧ env.freeTemporary < pendingTemporary s.live + r.tempBytes then false
  else if !s.ioFits r then false
  else if !s.gpuFits r env then false
  else draining || s.headroomFits r o

/-! ## The choice of a route -/

/-- The routes, from the one after the last that was granted. -/
def Coordinator.orderedRoutes (s : Coordinator) : List Text :=
  (List.range s.routeOrder.length).map fun k =>
    s.routeOrder.getD ((s.lastGrantedIndex + (k + 1)) % s.routeOrder.length).toNat []

/-- The width of an adaptive request, from the capacity that is free now. -/
def Coordinator.adaptiveWidth (s : Coordinator) (r : Request) (effective : ℤ) : ℤ :=
  let available := min (effective - s.counters.cpuSlots)
    (min s.nativeThreadSlots effective - s.counters.nativeThreads)
  max 1 ((r.nativeThreadLimit.map fun limit => min available limit).getD available)

/-- The head of a queue takes its width, if it is adaptive. -/
def Coordinator.adaptHead (effective : ℤ) (s : Coordinator) (route : Text) : Coordinator :=
  match (s.queues route).head? with
  | none => s
  | some i =>
    let r := s.requests i
    if r.adaptiveNativeThreads then
      let width := s.adaptiveWidth r effective
      let adapted := { r with cpuSlots := width, nativeThreads := width }
      { s with requests := Function.update s.requests i adapted }
    else s

/-- The heads of all queues take their widths. -/
def Coordinator.adapt (s : Coordinator) (effective : ℤ) : Coordinator :=
  s.orderedRoutes.foldl (Coordinator.adaptHead effective) s

/-- The routes whose head fits. -/
def Coordinator.fittingRoutes (s : Coordinator) (o : Observation) (env : Surroundings)
    (effective : ℤ) : List Text :=
  s.orderedRoutes.filter fun route =>
    (s.queues route).head?.any fun i => s.fits (s.requests i) o env effective

/-- The choice of `next_route` among the routes that fit. -/
def Coordinator.chooseRoute (s : Coordinator) (fitting : List Text) : Option Text :=
  ((fitting.find? fun route =>
      (s.queues route).head?.any fun i => (s.requests i).drainingFrom.isSome).or
    (fitting.find? fun route => (s.metrics route).cpuSlots == 0)).or fitting.head?

/-- `next_route`: the coordinator with the widths it has set, and the chosen route. -/
def Coordinator.nextRoute (s : Coordinator) (o : Observation) (env : Surroundings)
    (effective : ℤ) : Coordinator × Option Text :=
  let s := s.adapt effective
  (s, s.chooseRoute (s.fittingRoutes o env effective))

theorem Coordinator.chooseRoute_mem {s : Coordinator} {fitting : List Text} {route : Text}
    (h : s.chooseRoute fitting = some route) : route ∈ fitting := by
  unfold Coordinator.chooseRoute at h
  rw [Option.or_eq_some_iff, Option.or_eq_some_iff] at h
  rcases h with (h | ⟨-, h⟩) | ⟨-, h⟩
  · exact List.mem_of_find?_eq_some h
  · exact List.mem_of_find?_eq_some h
  · exact List.mem_of_head? h

/-- The head of the chosen route fits. -/
theorem Coordinator.nextRoute_fits {s s' : Coordinator} {o : Observation} {env : Surroundings}
    {effective : ℤ} {route : Text} {i : ℕ} (h : s.nextRoute o env effective = (s', some route))
    (hi : (s'.queues route).head? = some i) :
    s'.fits (s'.requests i) o env effective = true := by
  simp only [Coordinator.nextRoute, Prod.mk.injEq] at h
  obtain ⟨rfl, h⟩ := h
  have hmem := Coordinator.chooseRoute_mem h
  have hfit := (List.mem_filter.mp hmem).2
  rw [hi] at hfit
  exact hfit

end Resources
end Neocortex
