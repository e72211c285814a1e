import Neocortex.Resources.Conservation

/-!
# Explicit ceilings

A limit that the configuration gives is never exceeded: not by a normal request, not by an
adaptive one that takes its width while it waits, not by a renewal or a finalizer that may
run under pressure.

* `fits_spec`: what the fit test has compared;
* `Configured`: the settings that an explicit limit fixes;
* `Within`: what is in use stays below the limits;
* `ceilings_respected`: a whole run.
-/

namespace Neocortex
namespace Resources

open Python Checks

variable {s s' : Coordinator} {i : ℕ} {r : Request} {limits : Limits}

/-! ## The fit test -/

theorem refuseIf_eq_true {c : Prop} [Decidable c] {b : Bool} :
    (if c then false else b) = true ↔ ¬ c ∧ b = true := by
  by_cases h : c <;> simp [h]

/-- What a request that fits was compared with. -/
theorem Coordinator.fits_spec {o : Observation} {env : Surroundings} {effective : ℤ}
    (h : s.fits r o env effective = true) :
    (r.drainingFrom = none →
      s.counters.reservedBytes + s.residentCharge r + r.transientBytes ≤ s.lastMemoryBudget ∧
      ∀ budget, s.limits.routeMemoryBudgets.lookup r.routeName = some budget →
        (s.metrics r.routeName).reservedBytes + s.residentCharge r + r.transientBytes ≤ budget) ∧
    s.counters.cpuSlots + r.cpuSlots ≤ s.capacityFor r effective ∧
    s.counters.nativeThreads + r.nativeThreads ≤ s.nativeThreadSlots ∧
    r.tempBytes + s.counters.tempBytes ≤ s.tempBudgetBytes ∧
    s.ioFits r = true ∧ s.gpuFits r env = true := by
  simp only [Coordinator.fits, refuseIf_eq_true] at h
  obtain ⟨-, hmemory, hroute, -, -, hcpu, hnative, htemp, -, hio, hgpu, -⟩ := h
  refine ⟨?_, not_lt.mp hcpu, ?_, not_lt.mp htemp, ?_, ?_⟩
  · intro hnone
    have hdraining : r.drainingFrom.isSome = false := by rw [hnone]; rfl
    simp only [hdraining, Bool.not_false, Bool.true_and, decide_eq_true_eq] at hmemory hroute
    refine ⟨not_lt.mp hmemory, ?_⟩
    intro budget hbudget
    rw [hbudget] at hroute
    simpa using hroute
  · exact le_trans (not_lt.mp hnative) (min_le_left _ _)
  · simpa using hio
  · simpa using hgpu

/-! ## Settings -/

/-- What an explicit limit fixes. -/
structure Configured (limits : Limits) (s : Coordinator) : Prop where
  same : s.limits = limits
  memory : ∀ b, limits.memoryBudgetBytes = some b → s.memoryBudgetBytes = b ∧ s.lastMemoryBudget = b
  cpu : ∀ n, limits.cpuSlots = some n → s.cpuSlots = n ∧ 1 ≤ n
  native : ∀ n, limits.nativeThreadSlots = some n → s.nativeThreadSlots = n
  temp : ∀ b, limits.tempBudgetBytes = some b → s.tempBudgetBytes = b

/-- The settings, as a whole. -/
def Coordinator.settings (s : Coordinator) : Limits × ℤ × ℤ × ℤ × ℤ × ℤ :=
  (s.limits, s.memoryBudgetBytes, s.lastMemoryBudget, s.cpuSlots, s.nativeThreadSlots,
    s.tempBudgetBytes)

theorem Configured.congr (h : Configured limits s) (hs : s'.settings = s.settings) :
    Configured limits s' := by
  simp only [Coordinator.settings, Prod.mk.injEq] at hs
  obtain ⟨hlimits, hmemory, hlast, hcpu, hnative, htemp⟩ := hs
  constructor
  · rw [hlimits, h.same]
  · rw [hmemory, hlast]
    exact h.memory
  · rw [hcpu]
    exact h.cpu
  · rw [hnative]
    exact h.native
  · rw [htemp]
    exact h.temp

theorem Configured.observe (h : Configured limits s) (o : Observation) :
    Configured limits (s.observe o) := by
  constructor
  · exact h.same
  · intro b hb
    obtain ⟨hmemory, -⟩ := h.memory b hb
    refine ⟨hmemory, ?_⟩
    simp [Coordinator.observe, h.same, hb, hmemory]
  · exact h.cpu
  · intro n hn
    simp [Coordinator.observe, h.same, hn, h.native n hn]
  · exact h.temp

/-- An explicit number of CPU slots bounds what a sample leaves of them. -/
theorem Configured.effectiveCpuSlots_le (h : Configured limits s) {n : ℤ}
    (hn : limits.cpuSlots = some n) (o : Observation) : s.effectiveCpuSlots o ≤ n := by
  obtain ⟨hcpu, hpos⟩ := h.cpu n hn
  have hcapacity : s.cpuCapacity o ≤ n := by
    simp only [Coordinator.cpuCapacity, h.same, hn, Option.isNone_some, Bool.false_eq_true,
      if_false, hcpu]
    exact min_le_left _ _
  have heffective : effectiveCpuCapacity o.loadCapacity (s.cpuCapacity o) ≤ n := by
    unfold effectiveCpuCapacity
    simp only
    split <;> omega
  unfold Coordinator.effectiveCpuSlots
  simp only
  split_ifs <;> split <;> omega

/-- The widths of waiting requests are not settings. -/
theorem Coordinator.adapt_eq (s : Coordinator) (effective : ℤ) :
    ∃ f, s.adapt effective = { s with requests := f } := by
  unfold Coordinator.adapt
  generalize s.orderedRoutes = routes
  induction routes generalizing s with
  | nil => exact ⟨s.requests, rfl⟩
  | cons route routes ih =>
    obtain ⟨f, hf⟩ := ih (s.adaptHead effective route)
    refine ⟨f, ?_⟩
    rw [List.foldl_cons, hf]
    unfold Coordinator.adaptHead
    split
    · rfl
    · simp only
      split_ifs <;> rfl

theorem Configured.adapt (h : Configured limits s) (effective : ℤ) :
    Configured limits (s.adapt effective) := by
  obtain ⟨f, hf⟩ := s.adapt_eq effective
  rw [hf]
  exact h.congr rfl

/-! ## Requests -/

/-- What the checks of an admission ensure of the requests: the device is charged under its
key, and a finalizer asks for no memory. -/
structure Regular (s : Coordinator) : Prop where
  canonical : ∀ i, ioDeviceKey (storedDevice (s.requests i).ioDevice) = .ok (s.requests i).ioKey
  draining : ∀ i, (s.requests i).drainingFrom.isSome → (s.requests i).queued = true →
    (s.requests i).residentBytes = 0 ∧ (s.requests i).transientBytes = 0 ∧
      (s.requests i).gpuBytes = 0

/-- A request changes in a field that `Regular` does not mention, or leaves its queue. -/
theorem Regular.update (h : Regular s) {f : ℕ → Request}
    (hf : ∀ j, (f j).ioDevice = (s.requests j).ioDevice ∧
      (f j).drainingFrom = (s.requests j).drainingFrom ∧
      ((f j).queued = true → (s.requests j).queued = true ∧
        (f j).residentBytes = (s.requests j).residentBytes ∧
        (f j).transientBytes = (s.requests j).transientBytes ∧
        (f j).gpuBytes = (s.requests j).gpuBytes))
    (hs : s'.requests = f) : Regular s' := by
  constructor
  · intro j
    rw [hs, Request.ioKey, (hf j).1]
    exact h.canonical j
  · intro j hdraining hqueued
    rw [hs] at *
    obtain ⟨-, hsame, hwaiting⟩ := hf j
    obtain ⟨hold, hresident, htransient, hgpu⟩ := hwaiting hqueued
    rw [hsame] at hdraining
    rw [hresident, htransient, hgpu]
    exact h.draining j hdraining hold

theorem Regular.set (h : Regular s) {r' : Request} (hdevice : r'.ioDevice = (s.requests i).ioDevice)
    (hdraining : r'.drainingFrom = (s.requests i).drainingFrom)
    (hqueued : r'.queued = true → (s.requests i).queued = true ∧
      r'.residentBytes = (s.requests i).residentBytes ∧
      r'.transientBytes = (s.requests i).transientBytes ∧
      r'.gpuBytes = (s.requests i).gpuBytes)
    (hs : s'.requests = Function.update s.requests i r') : Regular s' := by
  refine h.update (fun j => ?_) hs
  by_cases hj : j = i
  · subst hj
    rw [Function.update_self]
    exact ⟨hdevice, hdraining, hqueued⟩
  · rw [Function.update_of_ne hj]
    exact ⟨rfl, rfl, fun hq => ⟨hq, rfl, rfl, rfl⟩⟩

theorem Regular.congr (h : Regular s) (hs : s'.requests = s.requests) : Regular s' :=
  h.update (fun _ => ⟨rfl, rfl, fun hq => ⟨hq, rfl, rfl, rfl⟩⟩) hs

theorem Regular.adapt (h : Regular s) (effective : ℤ) : Regular (s.adapt effective) := by
  unfold Coordinator.adapt
  generalize s.orderedRoutes = routes
  induction routes generalizing s with
  | nil => exact h
  | cons route routes ih =>
    refine ih ?_
    unfold Coordinator.adaptHead
    split
    · exact h
    · simp only
      split_ifs
      · refine h.set ?_ ?_ ?_ rfl
        · rfl
        · rfl
        · exact fun hq => ⟨hq, rfl, rfl, rfl⟩
      · exact h

/-- The key that a request is charged under is its own key. -/
theorem Regular.ioDeviceKey_ioKey (h : Regular s) (i : ℕ) :
    ioDeviceKey (.label (s.requests i).ioKey) = .ok (s.requests i).ioKey := by
  have hkey := h.canonical i
  unfold Request.ioKey at *
  cases hd : (s.requests i).ioDevice with
  | none => rfl
  | some t =>
    cases t with
    | nil => rfl
    | cons c t =>
      rw [hd] at hkey
      exact hkey

theorem Regular.ioLookupKey (h : Regular s) (i : ℕ) :
    (s.requests i).ioLookupKey = (s.requests i).ioKey := by
  rw [Request.ioLookupKey, h.canonical i]
  rfl

/-! ## What is in use -/

/-- The explicit limit of a device key: its own, or the common one. -/
def Limits.ioLimit (limits : Limits) (key : Text) : Option ℤ :=
  (limits.ioDeviceSlots.lookup key).or limits.ioSlots

/-- The explicit limits allow something. -/
structure Limits.Positive (limits : Limits) : Prop where
  memory : ∀ b, limits.memoryBudgetBytes = some b → 1 ≤ b
  route : ∀ route b, limits.routeMemoryBudgets.lookup route = some b → 1 ≤ b
  cpu : ∀ n, limits.cpuSlots = some n → 1 ≤ n
  native : ∀ n, limits.nativeThreadSlots = some n → 1 ≤ n
  temp : ∀ b, limits.tempBudgetBytes = some b → 1 ≤ b
  io : ∀ key n, limits.ioLimit key = some n → 1 ≤ n
  gpu : ∀ device b, limits.gpuMemoryBytes.lookup device = some b → 1 ≤ b

/-- Nothing is above its limit. -/
structure Within (limits : Limits) (s : Coordinator) : Prop where
  memory : ∀ b, limits.memoryBudgetBytes = some b → s.counters.reservedBytes ≤ b
  route : ∀ route b, limits.routeMemoryBudgets.lookup route = some b →
    (s.metrics route).reservedBytes ≤ b
  cpu : ∀ n, limits.cpuSlots = some n → s.counters.cpuSlots ≤ n
  native : ∀ n, limits.nativeThreadSlots = some n → s.counters.nativeThreads ≤ n
  temp : ∀ b, limits.tempBudgetBytes = some b → s.counters.tempBytes ≤ b
  io : ∀ key n, limits.ioLimit key = some n → s.ioInUse key ≤ n
  gpu : ∀ device, s.gpuInUse device ≤ (limits.gpuMemoryBytes.lookup device).getD 0

/-- No more is in use than before. -/
structure Lower (s' s : Coordinator) : Prop where
  memory : s'.counters.reservedBytes ≤ s.counters.reservedBytes
  route : ∀ route, (s'.metrics route).reservedBytes ≤ (s.metrics route).reservedBytes
  cpu : s'.counters.cpuSlots ≤ s.counters.cpuSlots
  native : s'.counters.nativeThreads ≤ s.counters.nativeThreads
  temp : s'.counters.tempBytes ≤ s.counters.tempBytes
  io : ∀ key, s'.ioInUse key ≤ s.ioInUse key
  gpu : ∀ device, s'.gpuInUse device ≤ s.gpuInUse device

theorem Within.lower (h : Within limits s) (hs : Lower s' s) : Within limits s' where
  memory b hb := le_trans hs.memory (h.memory b hb)
  route route b hb := le_trans (hs.route route) (h.route route b hb)
  cpu n hn := le_trans hs.cpu (h.cpu n hn)
  native n hn := le_trans hs.native (h.native n hn)
  temp b hb := le_trans hs.temp (h.temp b hb)
  io key n hn := le_trans (hs.io key) (h.io key n hn)
  gpu device := le_trans (hs.gpu device) (h.gpu device)

/-- The counters that are limited. -/
def Coordinator.usage (s : Coordinator) :
    Counters × (Text → RouteMetrics) × (Text → ℤ) × (Text → ℤ) :=
  (s.counters, s.metrics, s.ioInUse, s.gpuInUse)

theorem Within.congr (h : Within limits s) (hs : s'.usage = s.usage) : Within limits s' := by
  simp only [Coordinator.usage, Prod.mk.injEq] at hs
  obtain ⟨hcounters, hmetrics, hio, hgpu⟩ := hs
  constructor
  · rw [hcounters]
    exact h.memory
  · rw [hmetrics]
    exact h.route
  · rw [hcounters]
    exact h.cpu
  · rw [hcounters]
    exact h.native
  · rw [hcounters]
    exact h.temp
  · rw [hio]
    exact h.io
  · rw [hgpu]
    exact h.gpu

/-! ## Grants -/

/-- A finalizer charges no memory. -/
theorem Regular.drainCharge (h : Regular s) (hqueued : (s.requests i).queued = true)
    (hdraining : (s.requests i).drainingFrom ≠ none) :
    s.residentCharge (s.requests i) + (s.requests i).transientBytes = 0 := by
  have hsome : (s.requests i).drainingFrom.isSome = true := Option.isSome_iff_ne_none.mpr hdraining
  obtain ⟨hresident, htransient, -⟩ := h.draining i hsome hqueued
  unfold Coordinator.residentCharge
  split <;> simp [hresident, htransient]

theorem Configured.capacityFor_le (h : Configured limits s) {n effective : ℤ}
    (hn : limits.cpuSlots = some n) (heffective : effective ≤ n) (r : Request) :
    s.capacityFor r effective ≤ n := by
  obtain ⟨-, hpos⟩ := h.cpu n hn
  unfold Coordinator.capacityFor
  split_ifs <;> omega

/-- The capacity that is compared with is the explicit limit of the device. -/
theorem Configured.ioCapacity_eq (h : Configured limits s) (hpos : limits.Positive)
    (hregular : Regular s) {n : ℤ} (hn : limits.ioLimit (s.requests i).ioKey = some n) :
    s.ioCapacity (s.requests i).ioKey = n := by
  have hone : 1 ≤ n := hpos.io _ _ hn
  unfold Coordinator.ioCapacity
  rw [hregular.ioDeviceKey_ioKey i]
  simp only [h.same]
  unfold Limits.ioLimit at hn
  cases hlookup : limits.ioDeviceSlots.lookup (s.requests i).ioKey with
  | some m =>
    rw [hlookup, Option.some_or, Option.some.injEq] at hn
    subst hn
    exact max_eq_right hone
  | none =>
    rw [hlookup, Option.none_or] at hn
    simp only [hn]
    exact max_eq_right hone

theorem Regular.ioFits_le (h : Regular s) (hc : Configured limits s) (hpos : limits.Positive)
    (hwithin : Within limits s) (hfits : s.ioFits (s.requests i) = true) {n : ℤ}
    (hn : limits.ioLimit (s.requests i).ioKey = some n) :
    s.ioInUse (s.requests i).ioKey + (s.requests i).ioSlots ≤ n := by
  unfold Coordinator.ioFits at hfits
  rw [h.ioLookupKey i] at hfits
  split_ifs at hfits with hzero
  · rw [hzero, add_zero]
    exact hwithin.io _ _ hn
  · rw [decide_eq_true_eq, hc.ioCapacity_eq hpos h hn] at hfits
    exact hfits

theorem Configured.gpuFits_le (hc : Configured limits s) (hwithin : Within limits s)
    {env : Surroundings} (hfits : s.gpuFits r env = true) :
    s.gpuInUse r.gpuKey + r.gpuBytes ≤ (limits.gpuMemoryBytes.lookup r.gpuKey).getD 0 := by
  unfold Coordinator.gpuFits at hfits
  split_ifs at hfits with hzero hover
  · rw [hzero, add_zero]
    exact hwithin.gpu _
  · rw [Coordinator.gpuCapacity, hc.same] at hover
    exact not_lt.mp hover

/-- The head of a queue that fits is granted. -/
theorem Within.commitGrant (h : Within limits s) (hc : Configured limits s)
    (hpos : limits.Positive) (hregular : Regular s) (hqueued : (s.requests i).queued = true)
    {o : Observation} {env : Surroundings} {effective : ℤ}
    (heffective : ∀ n, limits.cpuSlots = some n → effective ≤ n)
    (hfits : s.fits (s.requests i) o env effective = true) (routeIndex : ℤ) :
    Within limits (s.commitGrant i routeIndex) := by
  obtain ⟨hmemory, hcpu, hnative, htemp, hio, hgpu⟩ := Coordinator.fits_spec hfits
  constructor
  · intro b hb
    simp only [Coordinator.commitGrant, Counters.charge]
    by_cases hdraining : (s.requests i).drainingFrom = none
    · obtain ⟨hfit, -⟩ := hmemory hdraining
      rw [(hc.memory b hb).2] at hfit
      omega
    · rw [hregular.drainCharge hqueued hdraining, add_zero]
      exact h.memory b hb
  · intro route b hb
    simp only [Coordinator.commitGrant]
    by_cases hroute : route = (s.requests i).routeName
    · subst hroute
      simp only [Function.update_self, Counters.charge]
      by_cases hdraining : (s.requests i).drainingFrom = none
      · have hfit := (hmemory hdraining).2 b (by rw [hc.same, hb])
        omega
      · rw [hregular.drainCharge hqueued hdraining, add_zero]
        exact h.route _ b hb
    · rw [Function.update_of_ne hroute]
      exact h.route route b hb
  · intro n hn
    exact le_trans hcpu (hc.capacityFor_le hn (heffective n hn) _)
  · intro n hn
    exact le_of_le_of_eq hnative (hc.native n hn)
  · intro b hb
    simp only [Coordinator.commitGrant, Counters.charge]
    rw [hc.temp b hb] at htemp
    omega
  · intro key n hn
    simp only [Coordinator.commitGrant]
    by_cases hkey : key = (s.requests i).ioKey
    · subst hkey
      rw [Function.update_self]
      exact hregular.ioFits_le hc hpos h hio hn
    · rw [Function.update_of_ne hkey]
      exact h.io key n hn
  · intro device
    simp only [Coordinator.commitGrant]
    by_cases hkey : device = (s.requests i).gpuKey
    · subst hkey
      rw [Function.update_self]
      exact hc.gpuFits_le h hgpu
    · rw [Function.update_of_ne hkey]
      exact h.gpu device

/-! ## Releases -/

theorem update_le {f : Text → ℤ} {key : Text} {a : ℤ} (h : a ≤ f key) (key' : Text) :
    Function.update f key a key' ≤ f key' := by
  by_cases hkey : key' = key
  · subst hkey
    rw [Function.update_self]
    exact h
  · rw [Function.update_of_ne hkey]

theorem update_reserved_le {f : Text → RouteMetrics} {route : Text} {m : RouteMetrics}
    (h : m.reservedBytes ≤ (f route).reservedBytes) (route' : Text) :
    (Function.update f route m route').reservedBytes ≤ (f route').reservedBytes := by
  by_cases hroute : route' = route
  · subst hroute
    rw [Function.update_self]
    exact h
  · rw [Function.update_of_ne hroute]

theorem Accounted.releaseAdmission_lower (h : Accounted s) (i : ℕ) :
    Lower (s.releaseAdmission i) s := by
  by_cases hnot : (!(s.requests i).admitted || (s.requests i).released) = true
  · rw [Coordinator.releaseAdmission]
    simp only [hnot, if_true]
    exact ⟨le_rfl, fun _ => le_rfl, le_rfl, le_rfl, le_rfl, fun _ => le_rfl, fun _ => le_rfl⟩
  · have hadmitted : (s.requests i).admitted = true := by
      rw [Bool.not_eq_true, Bool.or_eq_false_iff] at hnot
      simpa using hnot.1
    have hs := h.sound i
    have htransient := hs.transientBytes
    have hresident : 0 ≤ s.residentReleased i := by
      rw [h.residentReleased ((h.active i).mpr hadmitted)]
      exact SharedClaims.marginal_nonneg hs.residentBytes _
    unfold Coordinator.releaseAdmission
    simp only
    rw [if_neg hnot]
    constructor
    · simp only [Counters.discharge]
      omega
    · refine update_reserved_le ?_
      simp only [Counters.discharge]
      omega
    · exact sub_le_self _ hs.cpuSlots
    · exact sub_le_self _ hs.nativeThreads
    · exact sub_le_self _ hs.tempBytes
    · exact update_le (sub_le_self _ hs.ioSlots)
    · exact update_le (sub_le_self _ hs.gpuBytes)

theorem Accounted.releaseExecution_lower (h : Accounted s) (i : ℕ) :
    Lower (s.releaseExecution i) s := by
  have hs := h.sound i
  unfold Coordinator.releaseExecution
  simp only
  split_ifs
  · exact ⟨le_rfl, fun _ => le_rfl, le_rfl, le_rfl, le_rfl, fun _ => le_rfl, fun _ => le_rfl⟩
  · constructor
    · exact le_rfl
    · exact update_reserved_le le_rfl
    · exact sub_le_self _ hs.cpuSlots
    · exact sub_le_self _ hs.nativeThreads
    · exact le_rfl
    · exact update_le (sub_le_self _ hs.ioSlots)
    · exact fun _ => le_rfl

/-! ## Steps -/

/-- The invariant of a coordinator with explicit limits. -/
structure Bounded (limits : Limits) (s : Coordinator) : Prop where
  accounted : Accounted s
  configured : Configured limits s
  regular : Regular s
  within : Within limits s

theorem Bounded.orUnchanged (h : Bounded limits s) {x : Checked Coordinator}
    (hx : ∀ s', x = .ok s' → Accounted s' → Bounded limits s')
    (ha : Accounted (orUnchanged s x)) : Bounded limits (orUnchanged s x) := by
  cases x with
  | ok s' => exact hx s' rfl ha
  | error e => exact h

theorem Bounded.admission (h : Bounded limits s) {view : Coordinator} {call : AdmitCall}
    (hr : call.request view = .ok r) (hs : s.enqueue r = .ok s') (ha : Accounted s') :
    Bounded limits s' := by
  obtain ⟨hsound, -, -, hmemory, hdevice⟩ := AdmitCall.request_spec hr
  simp only [Coordinator.enqueue, bind_eq_ok, raiseIf_eq_ok, exists_and_left, exists_const,
    pure_eq_ok] at hs
  obtain ⟨-, hdrain, rfl⟩ := hs
  refine ⟨ha, h.configured.congr rfl, ?_, h.within.congr rfl⟩
  constructor
  · intro j
    by_cases hj : j = s.nextId
    · subst hj
      simp only [Function.update_self, ioDeviceKey]
      rw [canonicalIoDevice_idempotent hdevice]
      rfl
    · simp only [Function.update_of_ne hj]
      exact h.regular.canonical j
  · intro j hdraining hqueued
    by_cases hj : j = s.nextId
    · subst hj
      simp only [Function.update_self] at *
      obtain ⟨k, hk⟩ := Option.isSome_iff_exists.mp hdraining
      rw [hk] at hdrain
      simp only [Option.any_some, Bool.or_eq_true, decide_eq_true_eq, not_or, not_not] at hdrain
      obtain ⟨-, hnone, -, hgpu, -⟩ := hdrain
      have hresident := hsound.residentBytes
      have htransient := hsound.transientBytes
      simp only at hresident htransient
      refine ⟨?_, ?_, hgpu⟩ <;> omega
    · simp only [Function.update_of_ne hj] at *
      exact h.regular.draining j hdraining hqueued

theorem Bounded.attempt (h : Bounded limits s) (hpos : limits.Positive) (i : ℕ) (t : Turn) :
    Bounded limits (s.attempt i t).1 := by
  have haccounted := h.accounted.attempt i t
  have hcpu : ∀ n, limits.cpuSlots = some n → s.effectiveCpuSlots t.observation ≤ n :=
    fun n hn => h.configured.effectiveCpuSlots_le hn t.observation
  generalize heffective : s.effectiveCpuSlots t.observation = effective at hcpu
  have hadapted : Bounded limits ((s.observe t.observation).adapt effective) := by
    have hregular : Regular (s.observe t.observation) := h.regular.congr rfl
    refine ⟨(h.accounted.observe _).adapt _, (h.configured.observe _).adapt _,
      hregular.adapt _, ?_⟩
    obtain ⟨f, hf⟩ := (s.observe t.observation).adapt_eq effective
    rw [hf]
    exact h.within.congr rfl
  unfold Coordinator.attempt at *
  simp only [heffective] at *
  split_ifs at * with hcancelled hrenewal hhead hcancelledNow hclock
  · exact h
  · exact h
  · exact hadapted
  · refine ⟨haccounted, hadapted.configured.congr rfl, ?_, hadapted.within.congr rfl⟩
    refine hadapted.regular.set ?_ ?_ ?_ rfl
    · rfl
    · rfl
    · exact fun hq => absurd hq Bool.false_ne_true
  · have hfits := Coordinator.nextRoute_fits (Prod.ext rfl hhead.1) hhead.2
    have hqueued := (hadapted.accounted.queued _ i (List.mem_of_head? hhead.2)).1
    refine ⟨haccounted, hadapted.configured.congr rfl, ?_,
      hadapted.within.commitGrant hadapted.configured hpos hadapted.regular hqueued hcpu hfits _⟩
    refine hadapted.regular.set ?_ ?_ ?_ rfl
    · rfl
    · rfl
    · exact fun hq => absurd hq Bool.false_ne_true
  · refine ⟨haccounted, hadapted.configured.congr rfl, ?_, hadapted.within.congr rfl⟩
    refine hadapted.regular.set ?_ ?_ ?_ rfl
    · rfl
    · rfl
    · exact fun hq => ⟨hq, rfl, rfl, rfl⟩

theorem Bounded.cleanup (h : Bounded limits s) (i : ℕ) : Bounded limits (s.cleanup i) := by
  have haccounted := h.accounted.cleanup i
  unfold Coordinator.cleanup at *
  split_ifs at *
  · refine ⟨haccounted, ?_, ?_, ?_⟩ <;> unfold Coordinator.discardQueued <;> simp only <;> split_ifs
    · exact h.configured
    · exact h.configured.congr rfl
    · exact h.regular
    · refine h.regular.set ?_ ?_ ?_ rfl
      · rfl
      · rfl
      · exact fun hq => absurd hq Bool.false_ne_true
    · exact h.within
    · exact h.within.congr rfl
  · refine ⟨haccounted, ?_, ?_, h.within.lower (h.accounted.releaseAdmission_lower i)⟩ <;>
      unfold Coordinator.releaseAdmission <;> simp only <;> split_ifs
    · exact h.configured
    · exact h.configured.congr rfl
    · exact h.regular
    · refine h.regular.set ?_ ?_ ?_ rfl
      · rfl
      · rfl
      · exact fun hq => ⟨hq, rfl, rfl, rfl⟩
  · exact h

theorem Bounded.releaseExecution (h : Bounded limits s) (i : ℕ) :
    Bounded limits (s.releaseExecution i) := by
  refine ⟨h.accounted.releaseExecution i, ?_, ?_,
    h.within.lower (h.accounted.releaseExecution_lower i)⟩ <;>
    unfold Coordinator.releaseExecution <;> simp only <;> split_ifs
  · exact h.configured
  · exact h.configured.congr rfl
  · exact h.regular
  · refine h.regular.set ?_ ?_ ?_ rfl
    · rfl
    · rfl
    · exact fun hq => ⟨hq, rfl, rfl, rfl⟩

theorem Bounded.shrinkTransient (h : Bounded limits s) {amount : ℤ}
    (hs : s.shrinkTransient i amount = .ok s') (ha : Accounted s') : Bounded limits s' := by
  have hsound := (h.accounted.sound i)
  simp only [Coordinator.shrinkTransient, bind_eq_ok, raiseIf_eq_ok, exists_and_left, exists_const,
    pure_eq_ok] at hs
  obtain ⟨hactive, hamount, rfl⟩ := hs
  push Not at hamount
  simp only [Bool.or_eq_true, Bool.not_eq_true', not_or, Bool.not_eq_false] at hactive
  refine ⟨ha, h.configured.congr rfl, ?_, h.within.lower ?_⟩
  · refine h.regular.set ?_ ?_ ?_ rfl
    · rfl
    · rfl
    · intro hq
      have hwaiting := (hsound.waiting hq).1
      rw [hactive.1] at hwaiting
      cases hwaiting
  · constructor
    · simp only [Counters.shrink]
      omega
    · refine update_reserved_le ?_
      simp only [Counters.shrink]
      omega
    · exact le_rfl
    · exact le_rfl
    · exact le_rfl
    · exact fun _ => le_rfl
    · exact fun _ => le_rfl

theorem Bounded.resizeTemp (h : Bounded limits s) {amount free : ℤ} {file : Option SpoolFile}
    (hs : s.resizeTemp i amount file free = .ok s') (ha : Accounted s') : Bounded limits s' := by
  simp only [Coordinator.resizeTemp, bind_eq_ok, raiseIf_eq_ok, exists_and_left, exists_const,
    pure_eq_ok] at hs
  obtain ⟨-, -, materialized, -, hbudget, -, rfl⟩ := hs
  have hc := h.configured
  refine ⟨ha, ?_, ?_, ?_⟩
  · refine ⟨hc.same, hc.memory, hc.cpu, hc.native, ?_⟩
    intro b hb
    simp [hc.same, hb, hc.temp b hb]
  · refine h.regular.set ?_ ?_ ?_ rfl
    · rfl
    · rfl
    · exact fun hq => ⟨hq, rfl, rfl, rfl⟩
  · have hw := h.within
    refine ⟨hw.memory, ?_, hw.cpu, hw.native, ?_, hw.io, hw.gpu⟩
    · intro route b hb
      refine le_trans (update_reserved_le ?_ route) (hw.route route b hb)
      exact le_rfl
    · intro b hb
      have hold := hw.temp b hb
      simp only [hc.same, hb, Option.any_some, decide_eq_true_eq, not_and, not_lt] at hbudget
      simp only
      by_cases hgrow : 0 < amount - (s.requests i).tempBytes
      · exact hbudget hgrow
      · omega

/-- One critical section. -/
theorem Bounded.step (h : Bounded limits s) (hpos : limits.Positive) (op : Op) :
    Bounded limits (s.step op).1 := by
  have haccounted := h.accounted.step op
  cases op with
  | admission view call =>
    refine h.orUnchanged (fun s' hs ha => ?_) haccounted
    obtain ⟨r, hr, hs⟩ := bind_eq_ok.mp hs
    exact h.admission hr hs ha
  | attempt i turn => exact h.attempt hpos i turn
  | cleanup i => exact h.cleanup i
  | releaseExecution i => exact h.releaseExecution i
  | shrink i amount => exact h.orUnchanged (fun s' hs ha => h.shrinkTransient hs ha) haccounted
  | resize i amount file free =>
    exact h.orUnchanged (fun s' hs ha => h.resizeTemp hs ha) haccounted
  | registerProcess i p =>
    refine h.orUnchanged (fun s' hs ha => ?_) haccounted
    simp only [Coordinator.registerProcess, bind_eq_ok, raiseIf_eq_ok, exists_and_left,
      exists_const, pure_eq_ok] at hs
    obtain ⟨-, rfl⟩ := hs
    refine ⟨ha, h.configured.congr rfl, ?_, h.within.congr rfl⟩
    refine h.regular.set ?_ ?_ ?_ rfl
    · rfl
    · rfl
    · exact fun hq => ⟨hq, rfl, rfl, rfl⟩
  | registerRoute name =>
    refine ⟨haccounted, ?_, ?_, ?_⟩ <;> simp only [Coordinator.step, Coordinator.registerRoute] <;>
      split_ifs
    · exact h.configured
    · exact h.configured.congr rfl
    · exact h.regular
    · exact h.regular.congr rfl
    · exact h.within
    · exact h.within.congr rfl
  | observe o =>
    exact ⟨haccounted, h.configured.observe o, h.regular.congr rfl, h.within.congr rfl⟩
  | refreshTemporary free =>
    refine ⟨haccounted, ?_, ?_, ?_⟩ <;>
      simp only [Coordinator.step, Coordinator.refreshTemporary] <;> split_ifs with hnone
    · have hc := h.configured
      refine ⟨hc.same, hc.memory, hc.cpu, hc.native, ?_⟩
      intro b hb
      rw [hc.same, hb] at hnone
      cases hnone
    · exact h.configured
    · exact h.regular.congr rfl
    · exact h.regular
    · exact h.within.congr rfl
    · exact h.within

theorem Bounded.run (h : Bounded limits s) (hpos : limits.Positive) (ops : List Op) :
    Bounded limits (s.run ops).1 := by
  induction ops generalizing s with
  | nil => exact h
  | cons op ops ih => exact ih (h.step hpos op)

/-! ## The new coordinator -/

/-- A fold that keeps the entries it has keeps the entry of every item. -/
theorem foldlM_lookup {α : Type} {ε : Type} {f : List (Text × ℤ) → α → Except ε (List (Text × ℤ))}
    {P : α → Text → ℤ → Prop}
    (hkeep : ∀ acc a acc', f acc a = .ok acc' → ∀ key n, acc.lookup key = some n →
      acc'.lookup key = some n)
    (hnew : ∀ acc a acc', f acc a = .ok acc' → ∀ key n, P a key n → acc'.lookup key = some n)
    {items : List α} {acc result : List (Text × ℤ)} (h : items.foldlM f acc = .ok result) :
    (∀ key n, acc.lookup key = some n → result.lookup key = some n) ∧
      ∀ a ∈ items, ∀ key n, P a key n → result.lookup key = some n := by
  induction items generalizing acc with
  | nil =>
    rw [List.foldlM_nil, pure_eq_ok] at h
    subst h
    exact ⟨fun _ _ hk => hk, by simp⟩
  | cons a items ih =>
    rw [List.foldlM_cons, bind_eq_ok] at h
    obtain ⟨acc', ha, h⟩ := h
    obtain ⟨hold, hitems⟩ := ih h
    refine ⟨fun key n hk => hold key n (hkeep acc a acc' ha key n hk), ?_⟩
    intro b hb key n hp
    rcases List.mem_cons.mp hb with rfl | hb
    · exact hold key n (hnew acc b acc' ha key n hp)
    · exact hitems b hb key n hp

theorem lookup_append_of_some {l l' : List (Text × ℤ)} {key : Text} {n : ℤ}
    (h : l.lookup key = some n) : (l ++ l').lookup key = some n := by
  rw [List.lookup_append, h]
  rfl

theorem lookup_append_new {l : List (Text × ℤ)} {key : Text} {n : ℤ} (h : l.lookup key = none) :
    (l ++ [(key, n)]).lookup key = some n := by
  rw [List.lookup_append, h]
  simp

/-- Every configured device has its limit under its key. -/
theorem normalizeIoDeviceSlots_lookup {configured : List (DeviceValue × ℤ)}
    {slots : List (Text × ℤ)} (h : normalizeIoDeviceSlots configured = .ok slots)
    {e : DeviceValue × ℤ} (he : e ∈ configured) {key : Text} (hkey : ioDeviceKey e.1 = .ok key) :
    slots.lookup key = some e.2 := by
  refine (@foldlM_lookup _ _ _ (fun e key n => ioDeviceKey e.1 = .ok key ∧ e.2 = n) ?_ ?_ _ _ _ h).2
    e he key e.2 ⟨hkey, rfl⟩
  · intro acc a acc' ha key n hn
    rw [bind_eq_ok] at ha
    obtain ⟨k, -, ha⟩ := ha
    split at ha
    · split_ifs at ha
      rw [pure_eq_ok] at ha
      rwa [← ha]
    · rw [pure_eq_ok] at ha
      rw [← ha]
      exact lookup_append_of_some hn
  · rintro acc a acc' ha key n ⟨hk, rfl⟩
    rw [bind_eq_ok] at ha
    obtain ⟨k, hk', ha⟩ := ha
    obtain rfl : k = key := by
      rw [hk] at hk'
      exact (Except.ok.inj hk').symm
    split at ha
    · next previous hprevious =>
      split_ifs at ha with hsame
      rw [pure_eq_ok] at ha
      rw [← ha, hprevious, not_not.mp hsame]
    · next hnone =>
      rw [pure_eq_ok] at ha
      rw [← ha]
      exact lookup_append_new hnone

/-- Every route budget stands under its stripped name. -/
theorem normalizeRouteBudgets_lookup {configured budgets : List (Text × ℤ)}
    (h : normalizeRouteBudgets configured = .ok budgets) {e : Text × ℤ} (he : e ∈ configured) :
    budgets.lookup (strip e.1) = some e.2 := by
  refine (@foldlM_lookup _ _ _ (fun e key n => strip e.1 = key ∧ e.2 = n) ?_ ?_ _ _ _ h).2
    e he _ _ ⟨rfl, rfl⟩
  · intro acc a acc' ha key n hn
    simp only [bind_eq_ok, raiseIf_eq_ok, exists_and_left, exists_const, pure_eq_ok] at ha
    obtain ⟨-, -, -, rfl⟩ := ha
    exact lookup_append_of_some hn
  · rintro acc a acc' ha key n ⟨rfl, rfl⟩
    simp only [bind_eq_ok, raiseIf_eq_ok, exists_and_left, exists_const, pure_eq_ok] at ha
    obtain ⟨-, -, hnone, rfl⟩ := ha
    exact lookup_append_new (Option.not_isSome_iff_eq_none.mp hnone)

/-- What a fold says of every entry. -/
theorem foldlM_forall {α : Type} {ε : Type} {f : List (Text × ℤ) → α → Except ε (List (Text × ℤ))}
    {Q : Text × ℤ → Prop} {items : List α}
    (hstep : ∀ acc, ∀ a ∈ items, ∀ acc', f acc a = .ok acc' → (∀ e ∈ acc, Q e) → ∀ e ∈ acc', Q e)
    {acc result : List (Text × ℤ)} (h : items.foldlM f acc = .ok result) (hacc : ∀ e ∈ acc, Q e) :
    ∀ e ∈ result, Q e := by
  induction items generalizing acc with
  | nil =>
    rw [List.foldlM_nil, pure_eq_ok] at h
    rwa [← h]
  | cons a items ih =>
    rw [List.foldlM_cons, bind_eq_ok] at h
    obtain ⟨acc', ha, h⟩ := h
    refine ih (fun acc b hb => hstep acc b (List.mem_cons_of_mem _ hb)) h ?_
    exact hstep acc a List.mem_cons_self acc' ha hacc

theorem normalizeIoDeviceSlots_mem {configured : List (DeviceValue × ℤ)}
    {slots : List (Text × ℤ)} (h : normalizeIoDeviceSlots configured = .ok slots) :
    ∀ entry ∈ slots, ∃ e ∈ configured, ioDeviceKey e.1 = .ok entry.1 := by
  refine foldlM_forall ?_ h (by simp)
  intro acc a ha acc' hstep hacc
  rw [bind_eq_ok] at hstep
  obtain ⟨k, hk, hstep⟩ := hstep
  split at hstep
  · split_ifs at hstep
    rw [pure_eq_ok] at hstep
    rwa [← hstep]
  · rw [pure_eq_ok] at hstep
    subst hstep
    intro e he
    rcases List.mem_append.mp he with he | he
    · exact hacc e he
    · rw [List.mem_singleton.mp he]
      exact ⟨a, ha, hk⟩

theorem normalizeRouteBudgets_pos {configured budgets : List (Text × ℤ)}
    (h : normalizeRouteBudgets configured = .ok budgets) : ∀ e ∈ budgets, 1 ≤ e.2 := by
  refine foldlM_forall ?_ h (by simp)
  intro acc a _ acc' hstep hacc
  simp only [bind_eq_ok, raiseIf_eq_ok, exists_and_left, exists_const, pure_eq_ok] at hstep
  obtain ⟨-, hpos, -, rfl⟩ := hstep
  intro e he
  rcases List.mem_append.mp he with he | he
  · exact hacc e he
  · rw [List.mem_singleton.mp he]
    exact not_lt.mp hpos

theorem mem_of_lookup {l : List (Text × ℤ)} {key : Text} {n : ℤ} (h : l.lookup key = some n) :
    (key, n) ∈ l := by
  obtain ⟨l₁, l₂, rfl, -⟩ := List.lookup_eq_some_iff.mp h
  simp

/-- The limits of a new coordinator are the given ones, and its settings follow them. -/
theorem Coordinator.create_limits {order : List Text} {given : GivenLimits} {machine : Machine}
    (h : Coordinator.create order given machine = .ok s) :
    ∃ slots budgets, normalizeIoDeviceSlots given.ioDeviceSlots = .ok slots ∧
      normalizeRouteBudgets given.routeMemoryBudgets = .ok budgets ∧
      s.limits = ⟨given.memoryBudgetBytes, given.minFreeMemoryBytes, given.minFreeCommitBytes,
        given.cpuSlots, given.nativeThreadSlots, given.tempBudgetBytes, given.ioSlots, slots,
        given.gpuMemoryBytes, budgets⟩ ∧
      s.limits.Positive ∧ Configured s.limits s := by
  rw [Coordinator.create] at h
  simp only [bind_eq_ok, raiseIf_eq_ok, exists_and_left, exists_const, pure_eq_ok] at h
  obtain ⟨-, slots, hslots, hnative, htemp, hio, hdevices, hgpu, budgets, hbudgets, hmemory, -, hcpu,
    rfl⟩ := h
  have hslots' : normalizeIoDeviceSlots given.ioDeviceSlots = .ok slots := by
    cases hx : normalizeIoDeviceSlots given.ioDeviceSlots with
    | ok d =>
      rw [hx] at hslots
      cases hslots
      rfl
    | error e =>
      rw [hx] at hslots
      cases hslots
  refine ⟨slots, budgets, hslots', hbudgets, rfl, ?_, ?_⟩
  · constructor
    · intro b hb
      simp only at hb
      simpa [hb] using hmemory
    · intro route b hb
      exact normalizeRouteBudgets_pos hbudgets _ (mem_of_lookup hb)
    · intro n hn
      simp only at hn
      simpa [hn] using hcpu
    · intro n hn
      simp only at hn
      simpa [hn] using hnative
    · intro b hb
      simp only at hb
      simpa [hb] using htemp
    · intro key n hn
      simp only [Limits.ioLimit] at hn
      cases hlookup : slots.lookup key with
      | some m =>
        rw [hlookup, Option.some_or, Option.some.injEq] at hn
        subst hn
        by_contra hneg
        exact hdevices (List.any_eq_true.mpr ⟨_, mem_of_lookup hlookup, by simpa using not_le.mp hneg⟩)
      | none =>
        rw [hlookup, Option.none_or] at hn
        simpa [hn] using hio
    · intro device b hb
      by_contra hneg
      exact hgpu (List.any_eq_true.mpr ⟨_, mem_of_lookup hb, by simpa using not_le.mp hneg⟩)
  · constructor
    · rfl
    · intro b hb
      simp only at hb
      simp [hb]
    · intro n hn
      simp only at hn
      simpa [hn] using hcpu
    · intro n hn
      simp only at hn
      simp [hn]
    · intro b hb
      simp only at hb
      simp [hb]

theorem Bounded.create {order : List Text} {given : GivenLimits} {machine : Machine}
    (h : Coordinator.create order given machine = .ok s) : Bounded s.limits s := by
  obtain ⟨slots, budgets, -, -, -, hpos, hconfigured⟩ := Coordinator.create_limits h
  obtain ⟨-, hrequests, hcounters, hmetrics, hio, hgpu, -, -⟩ := Coordinator.create_spec h
  refine ⟨Accounted.create h, hconfigured, ?_, ?_⟩
  · constructor
    · intro i
      rw [hrequests]
      rfl
    · intro i hdraining
      rw [hrequests] at hdraining
      cases hdraining
  · constructor
    · intro b hb
      rw [hcounters]
      exact le_trans zero_le_one (hpos.memory b hb)
    · intro route b hb
      rw [hmetrics]
      exact le_trans zero_le_one (hpos.route route b hb)
    · intro n hn
      rw [hcounters]
      exact le_trans zero_le_one (hpos.cpu n hn)
    · intro n hn
      rw [hcounters]
      exact le_trans zero_le_one (hpos.native n hn)
    · intro b hb
      rw [hcounters]
      exact le_trans zero_le_one (hpos.temp b hb)
    · intro key n hn
      rw [hio]
      exact le_trans zero_le_one (hpos.io key n hn)
    · intro device
      rw [hgpu]
      cases hlookup : s.limits.gpuMemoryBytes.lookup device with
      | none => exact le_rfl
      | some b => exact le_trans zero_le_one (hpos.gpu device b hlookup)

/-! ## Ceilings -/

/-- What is in use is at most what the limits of the configuration allow. -/
structure WithinCeilings (given : GivenLimits) (s : Coordinator) : Prop where
  memory : ∀ b, given.memoryBudgetBytes = some b → s.counters.reservedBytes ≤ b
  routes : ∀ name b, (name, b) ∈ given.routeMemoryBudgets →
    (s.metrics (strip name)).reservedBytes ≤ b
  cpu : ∀ n, given.cpuSlots = some n → s.counters.cpuSlots ≤ n
  native : ∀ n, given.nativeThreadSlots = some n → s.counters.nativeThreads ≤ n
  temp : ∀ b, given.tempBudgetBytes = some b → s.counters.tempBytes ≤ b
  /-- A device with a limit of its own, under whatever alias it is configured. -/
  devices : ∀ value n key, (value, n) ∈ given.ioDeviceSlots → ioDeviceKey value = .ok key →
    s.ioInUse key ≤ n
  /-- The other devices. -/
  otherDevices : ∀ n, given.ioSlots = some n →
    ∀ key, (∀ e ∈ given.ioDeviceSlots, ioDeviceKey e.1 ≠ .ok key) → s.ioInUse key ≤ n
  /-- A reservation is charged under the key of its device. -/
  aliases : ∀ i ∈ s.activeReservations,
    ioDeviceKey (storedDevice (s.requests i).ioDevice) = .ok (s.requests i).ioKey
  gpu : ∀ device, s.gpuInUse device ≤ (given.gpuMemoryBytes.lookup device).getD 0

/-- **Explicit ceilings are never exceeded.**  Whatever samples the coordinator sees and
whatever critical sections the threads take, in whatever order. -/
theorem ceilings_respected {order : List Text} {given : GivenLimits} {machine : Machine}
    {s : Coordinator} (h : Coordinator.create order given machine = .ok s) (ops : List Op) :
    WithinCeilings given (s.run ops).1 := by
  obtain ⟨slots, budgets, hslots, hbudgets, hlimits, hpos, -⟩ := Coordinator.create_limits h
  obtain ⟨-, -, hregular, hwithin⟩ := (Bounded.create h).run hpos ops
  rw [hlimits] at hwithin
  constructor
  · exact hwithin.memory
  · intro name b hmem
    exact hwithin.route (strip name) b (normalizeRouteBudgets_lookup hbudgets hmem)
  · exact hwithin.cpu
  · exact hwithin.native
  · exact hwithin.temp
  · intro value n key hmem hkey
    refine hwithin.io key n ?_
    rw [Limits.ioLimit, normalizeIoDeviceSlots_lookup hslots hmem hkey]
    rfl
  · intro n hn key hother
    refine hwithin.io key n ?_
    rw [Limits.ioLimit]
    cases hlookup : slots.lookup key with
    | none => exact hn
    | some m =>
      obtain ⟨e, he, hkey⟩ := normalizeIoDeviceSlots_mem hslots _ (mem_of_lookup hlookup)
      exact absurd hkey (hother e he)
  · exact fun i _ => hregular.canonical i
  · exact hwithin.gpu

/-- One device, limited under its decimal number and asked for under two other aliases. -/
theorem ceilings_respected_aliases :
    ∃ s, Coordinator.create [lit "docs"]
        { memoryBudgetBytes := some 100, cpuSlots := some 4, nativeThreadSlots := some 4,
          tempBudgetBytes := some 50, ioDeviceSlots := [(.label (lit "2049"), 1)],
          gpuMemoryBytes := [(lit "cuda:0", 10)], routeMemoryBudgets := [(lit "docs", 60)] }
        ⟨100, 0, 4, 100⟩ = .ok s ∧
      (s.run
        [.admission s { routeName := lit "docs", ioSlots := 1, ioDevice := .number 2049 },
          .admission s { routeName := lit "docs", ioSlots := 1, ioDevice := .label (lit "dev:801") },
          .attempt 0 idleTurn, .attempt 1 idleTurn]).1.ioInUse (lit "dev:801") ≤ 1 := by
  refine ⟨_, rfl, ?_⟩
  exact (@ceilings_respected [lit "docs"]
    { memoryBudgetBytes := some 100, cpuSlots := some 4, nativeThreadSlots := some 4,
      tempBudgetBytes := some 50, ioDeviceSlots := [(.label (lit "2049"), 1)],
      gpuMemoryBytes := [(lit "cuda:0", 10)], routeMemoryBudgets := [(lit "docs", 60)] }
    ⟨100, 0, 4, 100⟩ _ rfl _).devices (.label (lit "2049")) 1 (lit "dev:801")
      List.mem_cons_self (by decide +kernel)

end Resources
end Neocortex
