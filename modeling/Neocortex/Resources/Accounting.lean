import Neocortex.Library.SharedClaims
import Neocortex.Resources.Operations

/-!
# The accounts of the coordinator

The counters are the sums over the active reservations.  `Balanced` says so for a list of
requests and the counters; the resident bytes of one `(route, key)` count once, at the
greatest claim (`SharedClaims.total`).

* `Balanced.charge`, `Balanced.discharge`, `Balanced.replace`: what a grant, a release and a
  change of a held grant do to the counters is what they do to the sums;
* `Accounted`: the invariant of the coordinator;
* `Accounted.residentCharge`, `Accounted.residentReleased`: what a grant charges and a
  release gives back is what the request adds to the others, whatever the charge was then.
-/

namespace Neocortex
namespace Resources

open Python

/-! ## Sums over requests -/

/-- What a request claims of the resident memory. -/
def Request.claim (r : Request) : Option (Text × Text) × ℤ := (r.claimKey, r.residentBytes)

/-- The requests of a route. -/
def onRoute (route : Text) (l : List Request) : List Request :=
  l.filter fun r => r.routeName == route

/-- The resident bytes of all requests, those of one key counted once. -/
def residentTotal (l : List Request) : ℤ := SharedClaims.total (l.map Request.claim)

/-- The sums that the counters stand for. -/
def totals (l : List Request) : Counters where
  reservedBytes := residentTotal l + (l.map Request.transientBytes).sum
  residentBytes := residentTotal l
  transientBytes := (l.map Request.transientBytes).sum
  tempBytes := (l.map Request.tempBytes).sum
  cpuSlots := (l.map Request.cpuSlots).sum
  nativeThreads := (l.map Request.nativeThreads).sum
  activeRequests := l.length
  activeExecutionRequests := (l.map fun r => oneIf r.executionActive).sum

/-- The sums that the counters of a route stand for. -/
def routeTotals (l : List Request) : RouteMetrics where
  toCounters := totals l
  ioSlots := (l.map Request.ioSlots).sum
  gpuBytes := (l.map Request.gpuBytes).sum

/-- The I/O slots that the requests hold on a device. -/
def ioTotal (l : List Request) (device : Text) : ℤ :=
  ((l.filter fun r => r.ioKey == device).map Request.ioSlots).sum

/-- The bytes that the requests hold on a GPU. -/
def gpuTotal (l : List Request) (device : Text) : ℤ :=
  ((l.filter fun r => r.gpuKey == device).map Request.gpuBytes).sum

/-- What a request adds to the resident bytes of the others. -/
def Request.share (r : Request) (l : List Request) : ℤ :=
  SharedClaims.marginal r.claim (l.map Request.claim)

theorem residentTotal_cons (r : Request) (l : List Request) :
    residentTotal (r :: l) = r.share l + residentTotal l :=
  SharedClaims.total_cons r.claim (l.map Request.claim)

theorem residentTotal_perm {l l' : List Request} (h : l.Perm l') :
    residentTotal l = residentTotal l' :=
  SharedClaims.total_perm (h.map _)

/-- The claims under a key all stand on its route. -/
theorem keyMax_onRoute (route key : Text) (l : List Request) :
    SharedClaims.keyMax (l.map Request.claim) (route, key) =
      SharedClaims.keyMax ((onRoute route l).map Request.claim) (route, key) := by
  induction l with
  | nil => rfl
  | cons r l ih =>
    by_cases h : r.routeName = route
    · have hcons : onRoute route (r :: l) = r :: onRoute route l := by simp [onRoute, h]
      rw [hcons, List.map_cons, List.map_cons, SharedClaims.keyMax_cons,
        SharedClaims.keyMax_cons, ih]
    · have hcons : onRoute route (r :: l) = onRoute route l := by simp [onRoute, h]
      have hkey : r.claim.1 ≠ some (route, key) := by
        intro hk
        obtain ⟨k, -, hk⟩ := Option.map_eq_some_iff.mp hk
        exact h (Prod.mk.inj hk).1
      rw [hcons, List.map_cons, SharedClaims.keyMax_cons, if_neg hkey, ih]

theorem Request.share_onRoute (r : Request) (l : List Request) :
    r.share (onRoute r.routeName l) = r.share l := by
  unfold Request.share SharedClaims.marginal
  match hk : r.residentKey with
  | none =>
    have hclaim : r.claim.1 = none := by simp [Request.claim, Request.claimKey, hk]
    rw [hclaim]
  | some k =>
    have hclaim : r.claim.1 = some (r.routeName, k) := by
      simp [Request.claim, Request.claimKey, hk]
    rw [hclaim]
    simp only
    rw [keyMax_onRoute r.routeName k l]

theorem totals_perm {l l' : List Request} (h : l.Perm l') : totals l = totals l' := by
  ext
  · simp only [totals, residentTotal_perm h, (h.map _).sum_eq]
  · simp only [totals, residentTotal_perm h]
  all_goals simp only [totals, (h.map _).sum_eq, h.length_eq]

theorem routeTotals_perm {l l' : List Request} (h : l.Perm l') :
    routeTotals l = routeTotals l' := by
  simp only [routeTotals, totals_perm h, (h.map _).sum_eq]

/-- One more request. -/
theorem totals_cons {r : Request} (hr : r.executionActive = r.executes) (l : List Request) :
    totals (r :: l) = (totals l).charge r (r.share l + r.transientBytes) (r.share l) := by
  ext
  all_goals
    simp only [totals, Counters.charge, residentTotal_cons, List.map_cons, List.sum_cons,
      List.length_cons, hr]
  all_goals push_cast
  all_goals omega

/-- A release gives back what the grant took. -/
theorem Counters.discharge_charge {r : Request} (hr : r.executionActive = r.executes)
    (c : Counters) (memory resident : ℤ) :
    (c.charge r memory resident).discharge r memory resident = c := by
  ext <;> simp [Counters.charge, Counters.discharge, hr]

/-! ## Balanced counters -/

/-- The counters are the sums over a list of requests. -/
structure Balanced (l : List Request) (c : Counters) (m : Text → RouteMetrics)
    (io gpu : Text → ℤ) : Prop where
  counters : c = totals l
  metrics : ∀ route, m route = routeTotals (onRoute route l)
  io : ∀ device, io device = ioTotal l device
  gpu : ∀ device, gpu device = gpuTotal l device

section

variable {l l' : List Request} {c : Counters} {m : Text → RouteMetrics} {io gpu : Text → ℤ}
  {r r' : Request}

theorem Balanced.nil : Balanced [] {} (fun _ => {}) (fun _ => 0) (fun _ => 0) :=
  ⟨rfl, fun _ => rfl, fun _ => rfl, fun _ => rfl⟩

theorem Balanced.perm (h : Balanced l c m io gpu) (hl : l.Perm l') : Balanced l' c m io gpu where
  counters := h.counters.trans (totals_perm hl)
  metrics route := (h.metrics route).trans (routeTotals_perm (hl.filter _))
  io device := (h.io device).trans ((hl.filter _).map _).sum_eq
  gpu device := (h.gpu device).trans ((hl.filter _).map _).sum_eq

/-- A grant. -/
theorem Balanced.charge (h : Balanced l c m io gpu) (hr : r.executionActive = r.executes) :
    Balanced (r :: l) (c.charge r (r.share l + r.transientBytes) (r.share l))
      (Function.update m r.routeName
        { toCounters :=
            (m r.routeName).toCounters.charge r (r.share l + r.transientBytes) (r.share l)
          ioSlots := (m r.routeName).ioSlots + r.ioSlots
          gpuBytes := (m r.routeName).gpuBytes + r.gpuBytes })
      (Function.update io r.ioKey (io r.ioKey + r.ioSlots))
      (Function.update gpu r.gpuKey (gpu r.gpuKey + r.gpuBytes)) where
  counters := by rw [h.counters, totals_cons hr]
  metrics route := by
    by_cases hroute : r.routeName = route
    · subst hroute
      have hcons : onRoute r.routeName (r :: l) = r :: onRoute r.routeName l := by simp [onRoute]
      rw [Function.update_self, hcons, h.metrics]
      simp only [routeTotals, totals_cons hr, Request.share_onRoute, List.map_cons, List.sum_cons]
      rw [add_comm r.ioSlots, add_comm r.gpuBytes]
    · have hcons : onRoute route (r :: l) = onRoute route l := by simp [onRoute, hroute]
      rw [Function.update_of_ne (Ne.symm hroute), hcons, h.metrics]
  io device := by
    by_cases hd : r.ioKey = device
    · subst hd
      simp only [Function.update_self, h.io, ioTotal, List.filter_cons, beq_self_eq_true, if_true,
        List.map_cons, List.sum_cons]
      exact add_comm _ _
    · rw [Function.update_of_ne (Ne.symm hd), h.io]
      simp [ioTotal, hd]
  gpu device := by
    by_cases hd : r.gpuKey = device
    · subst hd
      simp only [Function.update_self, h.gpu, gpuTotal, List.filter_cons, beq_self_eq_true, if_true,
        List.map_cons, List.sum_cons]
      exact add_comm _ _
    · rw [Function.update_of_ne (Ne.symm hd), h.gpu]
      simp [gpuTotal, hd]

/-- A release. -/
theorem Balanced.discharge (h : Balanced (r :: l) c m io gpu)
    (hr : r.executionActive = r.executes) :
    Balanced l (c.discharge r (r.share l + r.transientBytes) (r.share l))
      (Function.update m r.routeName
        { toCounters :=
            (m r.routeName).toCounters.discharge r (r.share l + r.transientBytes) (r.share l)
          ioSlots := (m r.routeName).ioSlots - r.ioSlots
          gpuBytes := (m r.routeName).gpuBytes - r.gpuBytes })
      (Function.update io r.ioKey (io r.ioKey - r.ioSlots))
      (Function.update gpu r.gpuKey (gpu r.gpuKey - r.gpuBytes)) where
  counters := by
    rw [h.counters, totals_cons hr, Counters.discharge_charge hr]
  metrics route := by
    by_cases hroute : r.routeName = route
    · subst hroute
      have hcons : onRoute r.routeName (r :: l) = r :: onRoute r.routeName l := by simp [onRoute]
      rw [Function.update_self, h.metrics, hcons]
      simp only [routeTotals, totals_cons hr, Request.share_onRoute, Counters.discharge_charge hr,
        List.map_cons, List.sum_cons, add_sub_cancel_left]
    · have hcons : onRoute route (r :: l) = onRoute route l := by simp [onRoute, hroute]
      rw [Function.update_of_ne (Ne.symm hroute), h.metrics, hcons]
  io device := by
    by_cases hd : r.ioKey = device
    · subst hd
      simp [h.io, ioTotal]
    · rw [Function.update_of_ne (Ne.symm hd), h.io]
      simp [ioTotal, hd]
  gpu device := by
    by_cases hd : r.gpuKey = device
    · subst hd
      simp [h.gpu, gpuTotal]
    · rw [Function.update_of_ne (Ne.symm hd), h.gpu]
      simp [gpuTotal, hd]

/-- The counters after a held request `r` has become `r'`, with the same claim. -/
def Counters.move (c : Counters) (r r' : Request) : Counters where
  reservedBytes := c.reservedBytes + (r'.transientBytes - r.transientBytes)
  residentBytes := c.residentBytes
  transientBytes := c.transientBytes + (r'.transientBytes - r.transientBytes)
  tempBytes := c.tempBytes + (r'.tempBytes - r.tempBytes)
  cpuSlots := c.cpuSlots + (r'.cpuSlots - r.cpuSlots)
  nativeThreads := c.nativeThreads + (r'.nativeThreads - r.nativeThreads)
  activeRequests := c.activeRequests
  activeExecutionRequests :=
    c.activeExecutionRequests + (oneIf r'.executionActive - oneIf r.executionActive)

/-- What a change of a held grant keeps: where and on which devices it is charged, and its
claim on the resident and on the GPU memory. -/
structure SameLease (r r' : Request) : Prop where
  routeName : r'.routeName = r.routeName
  residentKey : r'.residentKey = r.residentKey
  residentBytes : r'.residentBytes = r.residentBytes
  ioDevice : r'.ioDevice = r.ioDevice
  gpuDevice : r'.gpuDevice = r.gpuDevice
  gpuBytes : r'.gpuBytes = r.gpuBytes

theorem SameLease.claim (h : SameLease r r') : r'.claim = r.claim := by
  simp only [Request.claim, Request.claimKey, h.routeName, h.residentKey, h.residentBytes]

theorem SameLease.share (h : SameLease r r') (l : List Request) : r'.share l = r.share l := by
  rw [Request.share, Request.share, h.claim]

theorem totals_replace (h : SameLease r r') (l : List Request) :
    totals (r' :: l) = (totals (r :: l)).move r r' := by
  ext
  all_goals
    simp only [totals, Counters.move, residentTotal_cons, h.share, List.map_cons, List.sum_cons,
      List.length_cons]
  all_goals omega

/-- A change of a held grant. -/
theorem Balanced.replace (h : Balanced (r :: l) c m io gpu) (hr : SameLease r r') :
    Balanced (r' :: l) (c.move r r')
      (Function.update m r.routeName
        { m r.routeName with
          toCounters := (m r.routeName).toCounters.move r r'
          ioSlots := (m r.routeName).ioSlots + (r'.ioSlots - r.ioSlots) })
      (Function.update io r.ioKey (io r.ioKey + (r'.ioSlots - r.ioSlots))) gpu where
  counters := by rw [h.counters, totals_replace hr]
  metrics route := by
    by_cases hroute : r.routeName = route
    · subst hroute
      have hcons : onRoute r.routeName (r :: l) = r :: onRoute r.routeName l := by simp [onRoute]
      have hcons' : onRoute r.routeName (r' :: l) = r' :: onRoute r.routeName l := by
        simp [onRoute, hr.routeName]
      rw [Function.update_self, h.metrics, hcons, hcons']
      simp only [routeTotals, totals_replace hr, List.map_cons, List.sum_cons, hr.gpuBytes]
      congr 1
      omega
    · have hroute' : r'.routeName ≠ route := by rwa [hr.routeName]
      rw [Function.update_of_ne (Ne.symm hroute), h.metrics]
      simp [onRoute, hroute, hroute']
  io device := by
    have hkey : r'.ioKey = r.ioKey := by rw [Request.ioKey, Request.ioKey, hr.ioDevice]
    by_cases hd : r.ioKey = device
    · subst hd
      simp only [Function.update_self, h.io, ioTotal, List.filter_cons, hkey, beq_self_eq_true,
        if_true, List.map_cons, List.sum_cons]
      omega
    · rw [Function.update_of_ne (Ne.symm hd), h.io]
      simp [ioTotal, hd, hkey]
  gpu device := by
    have hkey : r'.gpuKey = r.gpuKey := by rw [Request.gpuKey, Request.gpuKey, hr.gpuDevice]
    rw [h.gpu]
    simp only [gpuTotal, List.filter_cons, hkey]
    split_ifs
    · simp only [List.map_cons, List.sum_cons, hr.gpuBytes]
    · rfl

end

/-! ## The invariant -/

/-- No amount of a request is negative. -/
structure Amounts (r : Request) : Prop where
  residentBytes : 0 ≤ r.residentBytes
  transientBytes : 0 ≤ r.transientBytes
  tempBytes : 0 ≤ r.tempBytes
  cpuSlots : 0 ≤ r.cpuSlots
  nativeThreads : 0 ≤ r.nativeThreads
  ioSlots : 0 ≤ r.ioSlots
  gpuBytes : 0 ≤ r.gpuBytes

/-- The marks of a request are no amounts. -/
theorem Amounts.mark {r : Request} (h : Amounts r)
    (queued admitted released executionActive : Bool) (charge memory : ℤ) :
    Amounts
      { r with
        queued := queued
        admitted := admitted
        released := released
        executionActive := executionActive
        residentChargeBytes := charge
        memoryBytes := memory } :=
  ⟨h.residentBytes, h.transientBytes, h.tempBytes, h.cpuSlots, h.nativeThreads, h.ioSlots,
    h.gpuBytes⟩

/-- What holds of every request: its amounts are not negative, and its marks agree. -/
structure Sound (r : Request) : Prop extends Amounts r where
  waiting : r.queued = true → r.admitted = false ∧ r.released = false
  ended : r.released = true → r.admitted = false
  executing : r.admitted = true → r.executionActive = r.executes
  unshared : r.admitted = true → r.residentKey = none → r.residentChargeBytes = r.residentBytes

/-- The claims that some requests make under a key. -/
def claimsAmong (requests : ℕ → Request) (ids : List ℕ) (key : Text × Text) : List (ℕ × ℤ) :=
  (ids.filter fun i => decide ((requests i).claimKey = some key)).map fun i =>
    (i, (requests i).residentBytes)

/-- The invariant of the coordinator. -/
structure Accounted (s : Coordinator) : Prop where
  balanced : Balanced s.live s.counters s.metrics s.ioInUse s.gpuInUse
  claims : ∀ key, s.residentClaims key = claimsAmong s.requests s.activeReservations key
  nodup : s.activeReservations.Nodup
  active : ∀ i, i ∈ s.activeReservations ↔ (s.requests i).admitted = true
  fresh : ∀ i, s.nextId ≤ i →
    (s.requests i).queued = false ∧ (s.requests i).admitted = false ∧
      (s.requests i).released = false
  queued : ∀ route, ∀ i ∈ s.queues route,
    (s.requests i).queued = true ∧ (s.requests i).routeName = route
  queuesNodup : ∀ route, (s.queues route).Nodup
  sound : ∀ i, Sound (s.requests i)

theorem Sound.default : Sound {} := by
  constructor
  · constructor <;> exact le_rfl
  all_goals simp

theorem Coordinator.create_spec {order : List Text} {given : GivenLimits} {machine : Machine}
    {s : Coordinator} (h : Coordinator.create order given machine = .ok s) :
    s.activeReservations = [] ∧ s.requests = (fun _ => {}) ∧ s.counters = {} ∧
      s.metrics = (fun _ => {}) ∧ s.ioInUse = (fun _ => 0) ∧ s.gpuInUse = (fun _ => 0) ∧
      s.residentClaims = (fun _ => []) ∧ s.queues = fun _ => [] := by
  unfold Coordinator.create at h
  simp only [bind, Except.bind, pure, Except.pure] at h
  repeat' split at h
  all_goals cases h
  exact ⟨rfl, rfl, rfl, rfl, rfl, rfl, rfl, rfl⟩

/-- The new coordinator. -/
theorem Accounted.create {order : List Text} {given : GivenLimits} {machine : Machine}
    {s : Coordinator} (h : Coordinator.create order given machine = .ok s) : Accounted s := by
  obtain ⟨hactive, hrequests, hcounters, hmetrics, hio, hgpu, hclaims, hqueues⟩ :=
    Coordinator.create_spec h
  constructor
  · rw [Coordinator.live, hactive, hcounters, hmetrics, hio, hgpu]
    exact Balanced.nil
  · intro key
    simp [hclaims, claimsAmong, hactive]
  · simp [hactive]
  · simp [hactive, hrequests]
  · simp [hrequests]
  · simp [hqueues]
  · simp [hqueues]
  · intro i
    rw [hrequests]
    exact Sound.default

/-! ## What is charged and what is given back -/

theorem getD_max?_eq_foldr {l : List ℤ} (h : ∀ a ∈ l, 0 ≤ a) : l.max?.getD 0 = l.foldr max 0 := by
  induction l with
  | nil => rfl
  | cons a l ih =>
    have ha : 0 ≤ a := h a List.mem_cons_self
    have hl := ih fun b hb => h b (List.mem_cons_of_mem _ hb)
    rw [List.max?_cons, List.foldr_cons, ← hl, Option.getD_some]
    cases l.max? with
    | none => simp [ha]
    | some b => rfl

/-- The greatest of the claims under a key. -/
theorem claimMax_claimsAmong {requests : ℕ → Request} (h : ∀ i, Sound (requests i)) (ids : List ℕ)
    (key : Text × Text) :
    claimMax (claimsAmong requests ids key) =
      SharedClaims.keyMax ((ids.map requests).map Request.claim) key := by
  have hmap : (claimsAmong requests ids key).map Prod.snd =
      (((ids.map requests).map Request.claim).filter fun c => decide (c.1 = some key)).map
        Prod.snd := by
    simp only [claimsAmong, List.map_map, List.filter_map]
    rfl
  rw [claimMax, SharedClaims.keyMax, hmap]
  refine getD_max?_eq_foldr ?_
  rw [← hmap]
  intro a ha
  simp only [claimsAmong, List.map_map, List.mem_map] at ha
  obtain ⟨i, -, rfl⟩ := ha
  exact (h i).residentBytes

/-- A grant charges what the request adds to the active ones. -/
theorem Accounted.residentCharge {s : Coordinator} (h : Accounted s) {r : Request}
    (hr : 0 ≤ r.residentBytes) : s.residentCharge r = r.share s.live := by
  unfold Coordinator.residentCharge Request.share SharedClaims.marginal Request.claim
  cases r.claimKey with
  | none => rfl
  | some key =>
    simp only [h.claims, claimMax_claimsAmong h.sound]
    change _ = max 0 (r.residentBytes - SharedClaims.keyMax (s.live.map Request.claim) key)
    split_ifs with hpos
    · have hmax := SharedClaims.keyMax_nonneg (s.live.map Request.claim) key
      omega
    · rfl

theorem Coordinator.live_perm {s : Coordinator} {i : ℕ} (hn : s.activeReservations.Nodup)
    (hi : i ∈ s.activeReservations) : s.live.Perm (s.requests i :: s.liveExcept i) := by
  have hperm := List.perm_cons_erase hi
  rw [hn.erase_eq_filter] at hperm
  exact hperm.map s.requests

theorem filter_claimsAmong (requests : ℕ → Request) (ids : List ℕ) (key : Text × Text) (i : ℕ) :
    (claimsAmong requests ids key).filter (fun c => c.1 != i) =
      claimsAmong requests (ids.filter fun j => j != i) key := by
  simp only [claimsAmong, List.filter_map, List.filter_filter]
  congr 1
  exact List.filter_congr fun j _ => Bool.and_comm _ _

/-- A release gives back what the request added to the other active ones. -/
theorem Accounted.residentReleased {s : Coordinator} (h : Accounted s) {i : ℕ}
    (hi : i ∈ s.activeReservations) :
    s.residentReleased i = (s.requests i).share (s.liveExcept i) := by
  have hadmitted := (h.active i).mp hi
  unfold Coordinator.residentReleased
  cases hkey : (s.requests i).claimKey with
  | none =>
    have hunshared := (h.sound i).unshared hadmitted (Option.map_eq_none_iff.mp hkey)
    simp only [Request.share, SharedClaims.marginal, Request.claim, hkey, hunshared]
  | some key =>
    have hmem : (i, (s.requests i).residentBytes) ∈ s.residentClaims key := by
      rw [h.claims]
      exact List.mem_map_of_mem (List.mem_filter.mpr ⟨hi, by simp [hkey]⟩)
    have hbefore : claimMax (s.residentClaims key) =
        SharedClaims.keyMax ((s.requests i).claim :: (s.liveExcept i).map Request.claim) key := by
      rw [h.claims, claimMax_claimsAmong h.sound]
      exact SharedClaims.keyMax_perm ((Coordinator.live_perm h.nodup hi).map _) key
    have hafter : claimMax ((s.residentClaims key).filter fun c => c.1 != i) =
        SharedClaims.keyMax ((s.liveExcept i).map Request.claim) key := by
      rw [h.claims, filter_claimsAmong, claimMax_claimsAmong h.sound]
      rfl
    have hclaim : (s.requests i).claim = (some key, (s.requests i).residentBytes) := by
      rw [Request.claim, hkey]
    simp only [if_neg (List.ne_nil_of_mem hmem)]
    rw [hbefore, hafter, Request.share, hclaim, SharedClaims.keyMax_sub]
    exact max_eq_right (SharedClaims.marginal_nonneg (h.sound i).residentBytes _)

end Resources
end Neocortex
