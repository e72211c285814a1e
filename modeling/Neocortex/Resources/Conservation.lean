import Neocortex.Library.Checks
import Neocortex.Resources.Accounting

/-!
# The accounts are conserved

Every critical section keeps `Accounted`, so the counters are the sums over the active
reservations after every run, in whatever order the sections of the threads come.

* `Accounted.setInactive`, `Accounted.setActive`: the two ways in which a section changes
  one request;
* `Accounted.step`: a section;
* `Recorded`: how often a reservation was granted and released, from its marks;
* `accounts_conserved`: a whole run.
-/

namespace Neocortex
namespace Resources

open Python Checks

variable {s : Coordinator} {i : ℕ} {r' : Request}

/-! ## Changes of one request -/

theorem map_update_of_notMem {ids : List ℕ} (f : ℕ → Request) (h : i ∉ ids) :
    ids.map (Function.update f i r') = ids.map f := by
  refine List.map_congr_left fun j hj => ?_
  have hne : j ≠ i := by
    rintro rfl
    exact h hj
  exact Function.update_of_ne hne _ _

theorem claimsAmong_update {ids : List ℕ} {f : ℕ → Request}
    (h : i ∈ ids → r'.claim = (f i).claim) (key : Text × Text) :
    claimsAmong (Function.update f i r') ids key = claimsAmong f ids key := by
  have hclaim : ∀ j ∈ ids, (Function.update f i r' j).claim = (f j).claim := by
    intro j hj
    by_cases hji : j = i
    · subst hji
      rw [Function.update_self, h hj]
    · rw [Function.update_of_ne hji]
  have hfilter : (ids.filter fun j => decide ((Function.update f i r' j).claimKey = some key)) =
      ids.filter fun j => decide ((f j).claimKey = some key) := by
    refine List.filter_congr fun j hj => ?_
    rw [show (Function.update f i r' j).claimKey = (f j).claimKey from
      congrArg Prod.fst (hclaim j hj)]
  rw [claimsAmong, claimsAmong, hfilter]
  refine List.map_congr_left fun j hj => ?_
  rw [show (Function.update f i r' j).residentBytes = (f j).residentBytes from
    congrArg Prod.snd (hclaim j (List.mem_of_mem_filter hj))]

theorem claimsAmong_append (f : ℕ → Request) (ids ids' : List ℕ) (key : Text × Text) :
    claimsAmong f (ids ++ ids') key = claimsAmong f ids key ++ claimsAmong f ids' key := by
  simp [claimsAmong]

theorem claimsAmong_singleton (f : ℕ → Request) (key : Text × Text) :
    claimsAmong (Function.update f i r') [i] key =
      if r'.claimKey = some key then [(i, r'.residentBytes)] else [] := by
  by_cases h : r'.claimKey = some key <;> simp [claimsAmong, h]

theorem Accounted.not_mem (h : Accounted s) (hi : (s.requests i).admitted = false) :
    i ∉ s.activeReservations := by
  intro hmem
  rw [(h.active i).mp hmem] at hi
  cases hi

/-- A request that is not active changes, and perhaps leaves its queue. -/
theorem Accounted.setInactive (h : Accounted s) (hi : (s.requests i).admitted = false)
    (hr' : r'.admitted = false) (hsound : Sound r')
    (hfresh : s.nextId ≤ i → r'.queued = false ∧ r'.released = false) {queues : Text → List ℕ}
    (hqueues : ∀ route, ∀ j ∈ queues route,
      j ∈ s.queues route ∧ (j = i → r'.queued = true ∧ r'.routeName = route))
    (hnodup : ∀ route, (queues route).Nodup) :
    Accounted { s with requests := Function.update s.requests i r', queues := queues } := by
  have hnot : i ∉ s.activeReservations := h.not_mem hi
  constructor
  · have hlive : s.activeReservations.map (Function.update s.requests i r') = s.live :=
      map_update_of_notMem s.requests hnot
    simp only [Coordinator.live, hlive]
    exact h.balanced
  · intro key
    rw [h.claims]
    exact (claimsAmong_update (fun hmem => absurd hmem hnot) key).symm
  · exact h.nodup
  · intro j
    by_cases hj : j = i
    · subst hj
      simp [hnot, hr']
    · simp only [Function.update_of_ne hj]
      exact h.active j
  · intro j hle
    by_cases hj : j = i
    · subst hj
      simp only [Function.update_self]
      exact ⟨(hfresh hle).1, hr', (hfresh hle).2⟩
    · simp only [Function.update_of_ne hj]
      exact h.fresh j hle
  · intro route j hmem
    obtain ⟨hold, hnew⟩ := hqueues route j hmem
    by_cases hj : j = i
    · subst hj
      simp only [Function.update_self]
      exact hnew rfl
    · simp only [Function.update_of_ne hj]
      exact h.queued route j hold
  · exact hnodup
  · intro j
    by_cases hj : j = i
    · subst hj
      simpa using hsound
    · simpa [Function.update_of_ne hj] using h.sound j

/-- A held grant changes, and the counters with it. -/
theorem Accounted.setActive (h : Accounted s) (hi : (s.requests i).admitted = true)
    (hlease : SameLease (s.requests i) r') (hr' : r'.admitted = true) (hsound : Sound r') :
    Accounted
      { s with
        requests := Function.update s.requests i r'
        counters := s.counters.move (s.requests i) r'
        metrics := Function.update s.metrics (s.requests i).routeName
          { s.metrics (s.requests i).routeName with
            toCounters := (s.metrics (s.requests i).routeName).toCounters.move (s.requests i) r'
            ioSlots := (s.metrics (s.requests i).routeName).ioSlots +
              (r'.ioSlots - (s.requests i).ioSlots) }
        ioInUse := Function.update s.ioInUse (s.requests i).ioKey
          (s.ioInUse (s.requests i).ioKey + (r'.ioSlots - (s.requests i).ioSlots)) } := by
  have hmem : i ∈ s.activeReservations := (h.active i).mpr hi
  have hwaiting : (s.requests i).queued = false := by
    by_contra hq
    have hnot := ((h.sound i).waiting (by simpa using hq)).1
    rw [hi] at hnot
    cases hnot
  constructor
  · have hrest : (s.activeReservations.filter fun j => j != i).map
        (Function.update s.requests i r') = s.liveExcept i :=
      map_update_of_notMem s.requests (by simp)
    have hperm : (s.activeReservations.map (Function.update s.requests i r')).Perm
        (r' :: s.liveExcept i) := by
      have hids := List.perm_cons_erase hmem
      rw [h.nodup.erase_eq_filter] at hids
      have hmap := hids.map (Function.update s.requests i r')
      rw [List.map_cons, Function.update_self, hrest] at hmap
      exact hmap
    have hbal := (h.balanced.perm (Coordinator.live_perm h.nodup hmem)).replace hlease
    exact hbal.perm hperm.symm
  · intro key
    rw [h.claims]
    exact (claimsAmong_update (fun _ => hlease.claim) key).symm
  · exact h.nodup
  · intro j
    by_cases hj : j = i
    · subst hj
      simp [hmem, hr']
    · simp only [Function.update_of_ne hj]
      exact h.active j
  · intro j hle
    have hj : j ≠ i := by
      intro hj
      subst hj
      have hnot := (h.fresh j hle).2.1
      rw [hi] at hnot
      cases hnot
    simp only [Function.update_of_ne hj]
    exact h.fresh j hle
  · intro route j hj
    have hne : j ≠ i := by
      intro e
      subst e
      rw [(h.queued route j hj).1] at hwaiting
      cases hwaiting
    simp only [Function.update_of_ne hne]
    exact h.queued route j hj
  · exact h.queuesNodup
  · intro j
    by_cases hj : j = i
    · subst hj
      simpa using hsound
    · simpa [Function.update_of_ne hj] using h.sound j

/-- A request changes in a field that nothing is charged by. -/
theorem Accounted.keep (h : Accounted s) (hlease : SameLease (s.requests i) r')
    (htransient : r'.transientBytes = (s.requests i).transientBytes)
    (htemp : r'.tempBytes = (s.requests i).tempBytes)
    (hcpu : r'.cpuSlots = (s.requests i).cpuSlots)
    (hnative : r'.nativeThreads = (s.requests i).nativeThreads)
    (hio : r'.ioSlots = (s.requests i).ioSlots)
    (hexecution : r'.executionActive = (s.requests i).executionActive)
    (hcharge : r'.residentChargeBytes = (s.requests i).residentChargeBytes)
    (hqueued : r'.queued = (s.requests i).queued)
    (hadmitted : r'.admitted = (s.requests i).admitted)
    (hreleased : r'.released = (s.requests i).released) :
    Accounted { s with requests := Function.update s.requests i r' } := by
  have hsound : Sound r' := by
    have hs := h.sound i
    constructor
    · exact ⟨hlease.residentBytes ▸ hs.residentBytes, htransient ▸ hs.transientBytes,
        htemp ▸ hs.tempBytes, hcpu ▸ hs.cpuSlots, hnative ▸ hs.nativeThreads, hio ▸ hs.ioSlots,
        hlease.gpuBytes ▸ hs.gpuBytes⟩
    · rw [hqueued, hadmitted, hreleased]
      exact hs.waiting
    · rw [hadmitted, hreleased]
      exact hs.ended
    · rw [hadmitted, hexecution, Request.executes, hcpu, hnative, hio]
      exact hs.executing
    · rw [hadmitted, hlease.residentKey, hcharge, hlease.residentBytes]
      exact hs.unshared
  cases hi : (s.requests i).admitted with
  | false =>
    refine h.setInactive hi (hadmitted.trans hi) hsound ?_ ?_ h.queuesNodup
    · intro hle
      rw [hqueued, hreleased]
      exact ⟨(h.fresh i hle).1, (h.fresh i hle).2.2⟩
    · intro route j hj
      refine ⟨hj, ?_⟩
      rintro rfl
      rw [hqueued, hlease.routeName]
      exact h.queued route j hj
  | true =>
    have hmove : ∀ c : Counters, c.move (s.requests i) r' = c := by
      intro c
      ext <;> simp [Counters.move, htransient, htemp, hcpu, hnative, hexecution]
    have hset := h.setActive hi hlease (hadmitted.trans hi) hsound
    simpa only [hmove, hio, sub_self, add_zero, Function.update_eq_self] using hset

/-! ## The sections of an admission -/

/-- The amounts of a request that the checks have let through. -/
theorem AdmitCall.components_nonneg {c : AdmitCall} {resident transient temp : ℤ}
    (h : c.components = .ok (resident, transient, temp)) :
    0 ≤ resident ∧ 0 ≤ transient ∧ 0 ≤ temp ∧ 0 ≤ c.nativeThreads ∧ 0 ≤ c.ioSlots ∧
      0 ≤ c.gpuBytes := by
  simp only [AdmitCall.components, bind_eq_ok, raiseIf_eq_ok, exists_and_left, exists_const] at h
  obtain ⟨-, hneg, htransient, h⟩ := h
  push Not at hneg
  obtain ⟨hresident, htemp, hnative, hio, hgpu⟩ := hneg
  split_ifs at h
  · simp only [bind_eq_ok, raiseIf_eq_ok, exists_and_left, exists_const, pure_eq_ok,
      Prod.mk.injEq] at h
    obtain ⟨-, rfl, rfl, rfl⟩ := h
    refine ⟨hresident, ?_, htemp, hnative, hio, hgpu⟩
    cases ht : c.transientBytes with
    | none => exact le_max_left _ _
    | some t => simpa [ht] using htransient
  · simp only [pure_eq_ok, Prod.mk.injEq] at h
    obtain ⟨rfl, rfl, rfl⟩ := h
    exact ⟨le_rfl, le_trans zero_le_one (le_max_left _ _), le_rfl, hnative, hio, hgpu⟩

/-- The request of an admission. -/
theorem AdmitCall.request_spec {view : Coordinator} {c : AdmitCall} {r : Request}
    (h : c.request view = .ok r) :
    Sound { r with queued := true } ∧ r.admitted = false ∧ r.released = false ∧
      r.memoryBytes = r.residentBytes + r.transientBytes ∧
      canonicalIoDevice c.ioDevice = .ok r.ioDevice := by
  rw [AdmitCall.request, bind_eq_ok] at h
  obtain ⟨-, -, h⟩ := h
  rw [bind_eq_ok] at h
  obtain ⟨⟨resident, transient, temp⟩, hcomponents, h⟩ := h
  obtain ⟨hresident, htransient, htemp, hnative, hio, hgpu⟩ :=
    AdmitCall.components_nonneg hcomponents
  simp only [bind_eq_ok, raiseIf_eq_ok, exists_and_left, exists_const, pure_eq_ok] at h
  obtain ⟨device, hdevice, -, hcpu, -, -, -, -, -, -, -, -, -, key, -, rfl⟩ := h
  refine ⟨?_, rfl, rfl, rfl, ?_⟩
  · constructor
    · exact ⟨hresident, htransient, htemp, not_lt.mp hcpu, hnative, hio, hgpu⟩
    all_goals simp
  · cases hc : canonicalIoDevice c.ioDevice with
    | ok d =>
      rw [hc] at hdevice
      cases hdevice
      rfl
    | error e =>
      rw [hc] at hdevice
      cases hdevice

/-- A new request joins its queue. -/
theorem Accounted.enqueue (h : Accounted s) {r : Request} {s' : Coordinator}
    (hsound : Sound { r with queued := true }) (hadmitted : r.admitted = false)
    (hs : s.enqueue r = .ok s') : Accounted s' := by
  simp only [Coordinator.enqueue, bind_eq_ok, raiseIf_eq_ok, exists_and_left, exists_const,
    pure_eq_ok] at hs
  obtain ⟨-, -, rfl⟩ := hs
  have hnew := h.fresh s.nextId le_rfl
  have hnot : s.nextId ∉ s.activeReservations := h.not_mem hnew.2.1
  have hnotQueued : ∀ route, s.nextId ∉ s.queues route := by
    intro route hmem
    have hq := (h.queued route _ hmem).1
    rw [hnew.1] at hq
    cases hq
  have hqueue : ∀ route j, j ∈ Function.update s.queues r.routeName
      (if r.drainingFrom.isSome || r.renewingFrom.isSome then s.nextId :: s.queues r.routeName
        else s.queues r.routeName ++ [s.nextId]) route →
      j ∈ s.queues route ∨ j = s.nextId ∧ route = r.routeName := by
    intro route j hj
    by_cases hroute : route = r.routeName
    · subst hroute
      rw [Function.update_self] at hj
      split_ifs at hj
      · rcases List.mem_cons.mp hj with hj | hj
        · exact .inr ⟨hj, rfl⟩
        · exact .inl hj
      · rcases List.mem_append.mp hj with hj | hj
        · exact .inl hj
        · exact .inr ⟨List.mem_singleton.mp hj, rfl⟩
    · rw [Function.update_of_ne hroute] at hj
      exact .inl hj
  constructor
  · have hlive : s.activeReservations.map
        (Function.update s.requests s.nextId { r with queued := true }) = s.live :=
      map_update_of_notMem s.requests hnot
    simp only [Coordinator.live, hlive]
    exact h.balanced
  · intro key
    rw [h.claims]
    exact (claimsAmong_update (fun hmem => absurd hmem hnot) key).symm
  · exact h.nodup
  · intro j
    by_cases hj : j = s.nextId
    · subst hj
      simp [hnot, hadmitted]
    · simp only [Function.update_of_ne hj]
      exact h.active j
  · intro j hle
    have hj : j ≠ s.nextId := Nat.ne_of_gt hle
    simp only [Function.update_of_ne hj]
    exact h.fresh j (Nat.le_of_lt hle)
  · intro route j hmem
    rcases hqueue route j hmem with hold | ⟨rfl, rfl⟩
    · have hj : j ≠ s.nextId := by
        rintro rfl
        exact hnotQueued route hold
      simp only [Function.update_of_ne hj]
      exact h.queued route j hold
    · simp
  · intro route
    by_cases hroute : route = r.routeName
    · subst hroute
      simp only [Function.update_self]
      have hold := h.queuesNodup r.routeName
      split_ifs
      · exact List.nodup_cons.mpr ⟨hnotQueued _, hold⟩
      · rw [List.nodup_append]
        refine ⟨hold, List.nodup_singleton _, ?_⟩
        intro a ha b hb
        rw [List.mem_singleton.mp hb]
        rintro rfl
        exact hnotQueued _ ha
    · simp only [Function.update_of_ne hroute]
      exact h.queuesNodup route
  · intro j
    by_cases hj : j = s.nextId
    · subst hj
      simpa using hsound
    · simpa [Function.update_of_ne hj] using h.sound j

theorem Accounted.observe (h : Accounted s) (o : Observation) : Accounted (s.observe o) :=
  ⟨h.balanced, h.claims, h.nodup, h.active, h.fresh, h.queued, h.queuesNodup, h.sound⟩

theorem Accounted.adaptHead (h : Accounted s) (effective : ℤ) (route : Text) :
    Accounted (s.adaptHead effective route) := by
  unfold Coordinator.adaptHead
  split
  · exact h
  · next i hi =>
    have hmem : i ∈ s.queues route := List.mem_of_head? hi
    obtain ⟨hqueued, hroute⟩ := h.queued route i hmem
    obtain ⟨hadmitted, hreleased⟩ := (h.sound i).waiting hqueued
    simp only
    split_ifs
    · have hs := h.sound i
      have hwidth : 0 ≤ s.adaptiveWidth (s.requests i) effective :=
        le_trans zero_le_one (le_max_left _ _)
      refine h.setInactive hadmitted ?_ ?_ ?_ ?_ h.queuesNodup
      · exact hadmitted
      · exact
          { residentBytes := hs.residentBytes
            transientBytes := hs.transientBytes
            tempBytes := hs.tempBytes
            cpuSlots := hwidth
            nativeThreads := hwidth
            ioSlots := hs.ioSlots
            gpuBytes := hs.gpuBytes
            waiting := hs.waiting
            ended := hs.ended
            executing := fun ha => absurd (hadmitted.symm.trans ha) Bool.false_ne_true
            unshared := hs.unshared }
      · intro hle
        exact ⟨(h.fresh i hle).1, hreleased⟩
      · intro route' j hj
        refine ⟨hj, ?_⟩
        rintro rfl
        exact h.queued route' j hj
    · exact h

theorem Accounted.adapt (h : Accounted s) (effective : ℤ) : Accounted (s.adapt effective) := by
  unfold Coordinator.adapt
  generalize s.orderedRoutes = routes
  induction routes generalizing s with
  | nil => exact h
  | cons route routes ih => exact ih (h.adaptHead effective route)

/-- What is left of a queue when its head is taken. -/
theorem Accounted.mem_tail (h : Accounted s) {route : Text} (hi : (s.queues route).head? = some i)
    {route' : Text} {j : ℕ}
    (hj : j ∈ Function.update s.queues route (s.queues route).tail route') :
    j ∈ s.queues route' ∧ j ≠ i := by
  have hqueue : s.queues route = i :: (s.queues route).tail := List.eq_cons_of_mem_head? hi
  have hnodup := h.queuesNodup route
  rw [hqueue] at hnodup
  by_cases hroute : route' = route
  · subst hroute
    rw [Function.update_self] at hj
    refine ⟨List.mem_of_mem_tail hj, ?_⟩
    rintro rfl
    exact (List.nodup_cons.mp hnodup).1 hj
  · rw [Function.update_of_ne hroute] at hj
    refine ⟨hj, ?_⟩
    rintro rfl
    exact hroute ((h.queued route' j hj).2.symm.trans (h.queued route j (List.mem_of_head? hi)).2)

theorem Accounted.nodup_tail (h : Accounted s) (route route' : Text) :
    (Function.update s.queues route (s.queues route).tail route').Nodup := by
  by_cases hroute : route' = route
  · subst hroute
    rw [Function.update_self]
    exact (h.queuesNodup route').tail
  · rw [Function.update_of_ne hroute]
    exact h.queuesNodup route'

theorem Accounted.rollbackGrant (h : Accounted s)
    (hi : (s.queues (s.requests i).routeName).head? = some i) : Accounted (s.rollbackGrant i) := by
  have hadmitted := ((h.sound i).waiting (h.queued _ i (List.mem_of_head? hi)).1).1
  refine h.setInactive hadmitted rfl ?_ (fun _ => ⟨rfl, rfl⟩) ?_ (h.nodup_tail _)
  · constructor
    · exact (h.sound i).toAmounts.mark _ _ _ _ _ _
    all_goals simp
  · intro route j hj
    obtain ⟨hold, hne⟩ := h.mem_tail hi hj
    exact ⟨hold, fun e => absurd e hne⟩

/-- The head of a queue is granted. -/
theorem Accounted.commitGrant (h : Accounted s)
    (hi : (s.queues (s.requests i).routeName).head? = some i) (routeIndex : ℤ) :
    Accounted (s.commitGrant i routeIndex) := by
  have hmem := List.mem_of_head? hi
  have hwaiting := (h.queued _ i hmem).1
  have hadmitted := ((h.sound i).waiting hwaiting).1
  have hnot : i ∉ s.activeReservations := h.not_mem hadmitted
  have hcharge : s.residentCharge (s.requests i) = (s.requests i).share s.live :=
    h.residentCharge (h.sound i).residentBytes
  constructor
  · have hlive : (s.commitGrant i routeIndex).live =
        s.live ++ [(s.commitGrant i routeIndex).requests i] := by
      rw [Coordinator.live, Coordinator.commitGrant]
      simp only [List.map_append, map_update_of_notMem s.requests hnot, List.map_cons,
        List.map_nil, Coordinator.live]
    rw [hlive]
    refine Balanced.perm ?_ (List.perm_append_singleton _ _).symm
    simp only [Coordinator.commitGrant, Function.update_self, hcharge]
    exact h.balanced.charge rfl
  · intro key
    rw [Coordinator.commitGrant]
    simp only [claimsAmong_append, claimsAmong_update (fun e => absurd e hnot) key, ← h.claims key]
    cases hclaim : (s.requests i).claimKey with
    | none =>
      rw [claimsAmong_singleton, if_neg]
      · exact (List.append_nil _).symm
      · change (s.requests i).claimKey ≠ _
        simp [hclaim]
    | some key' =>
      rw [claimsAmong_singleton]
      change _ = _ ++ if (s.requests i).claimKey = some key then _ else _
      by_cases hkey : key = key'
      · subst hkey
        rw [if_pos hclaim]
        simp
      · rw [if_neg (by simpa [hclaim] using Ne.symm hkey)]
        simp [Function.update_of_ne hkey]
  · have hcons : (i :: s.activeReservations).Nodup := List.nodup_cons.mpr ⟨hnot, h.nodup⟩
    exact (List.perm_append_singleton i s.activeReservations).nodup_iff.mpr hcons
  · intro j
    by_cases hj : j = i
    · subst hj
      simp [Coordinator.commitGrant]
    · simp only [Coordinator.commitGrant, Function.update_of_ne hj, List.mem_append,
        List.mem_singleton, hj, or_false]
      exact h.active j
  · intro j hle
    have hj : j ≠ i := by
      rintro rfl
      rw [(h.fresh j hle).1] at hwaiting
      cases hwaiting
    simp only [Coordinator.commitGrant, Function.update_of_ne hj]
    exact h.fresh j hle
  · intro route j hj
    obtain ⟨hold, hne⟩ := h.mem_tail hi hj
    simp only [Coordinator.commitGrant, Function.update_of_ne hne]
    exact h.queued route j hold
  · exact h.nodup_tail _
  · intro j
    by_cases hj : j = i
    · subst hj
      simp only [Coordinator.commitGrant, Function.update_self]
      constructor
      · exact (h.sound j).toAmounts.mark _ _ _ _ _ _
      · simp
      · simp
      · exact fun _ => rfl
      · intro _ hkey
        have hclaim : (s.requests j).claimKey = none := Option.map_eq_none_iff.mpr hkey
        simp [Coordinator.residentCharge, hclaim]
    · simp only [Coordinator.commitGrant, Function.update_of_ne hj]
      exact h.sound j

/-- One turn of the waiting loop. -/
theorem Accounted.attempt (h : Accounted s) (i : ℕ) (t : Turn) : Accounted (s.attempt i t).1 := by
  unfold Coordinator.attempt
  simp only
  split_ifs
  · exact h
  · exact h
  all_goals
    have hadapted := (h.observe t.observation).adapt (s.effectiveCpuSlots t.observation)
    simp only [Coordinator.nextRoute] at *
  · exact hadapted
  · next hhead _ _ => exact hadapted.rollbackGrant hhead.2
  · next hhead _ _ => exact hadapted.commitGrant hhead.2 _
  · exact hadapted.keep ⟨rfl, rfl, rfl, rfl, rfl, rfl⟩ rfl rfl rfl rfl rfl rfl rfl rfl rfl rfl

/-! ## Release -/

theorem Accounted.discardQueued (h : Accounted s) (i : ℕ) : Accounted (s.discardQueued i) := by
  unfold Coordinator.discardQueued
  simp only
  split_ifs with hq
  · exact h
  · have hqueued : (s.requests i).queued = true := by simpa using hq
    obtain ⟨hadmitted, hreleased⟩ := (h.sound i).waiting hqueued
    refine h.setInactive hadmitted ?_ ?_ ?_ ?_ ?_
    · exact hadmitted
    · constructor
      · exact (h.sound i).toAmounts.mark _ _ _ _ _ _
      · simp
      · exact (h.sound i).ended
      · exact (h.sound i).executing
      · exact (h.sound i).unshared
    · exact fun _ => ⟨rfl, hreleased⟩
    · intro route j hj
      by_cases hroute : route = (s.requests i).routeName
      · subst hroute
        rw [Function.update_self, (h.queuesNodup _).mem_erase_iff] at hj
        exact ⟨hj.2, fun e => absurd e hj.1⟩
      · rw [Function.update_of_ne hroute] at hj
        refine ⟨hj, ?_⟩
        rintro rfl
        exact absurd (h.queued route j hj).2.symm hroute
    · intro route
      by_cases hroute : route = (s.requests i).routeName
      · subst hroute
        rw [Function.update_self]
        exact (h.queuesNodup _).erase i
      · rw [Function.update_of_ne hroute]
        exact h.queuesNodup route

/-- Nothing goes from the claims under other keys. -/
theorem Accounted.filter_claims (h : Accounted s) {key : Text × Text}
    (hkey : (s.requests i).claimKey ≠ some key) :
    (s.residentClaims key).filter (fun c => c.1 != i) = s.residentClaims key := by
  rw [List.filter_eq_self, h.claims]
  intro c hc
  obtain ⟨j, hj, rfl⟩ := List.mem_map.mp hc
  have hclaim := (List.mem_filter.mp hj).2
  rw [decide_eq_true_eq] at hclaim
  rw [bne_iff_ne]
  rintro rfl
  exact hkey hclaim

/-- A reservation is released. -/
theorem Accounted.releaseAdmission (h : Accounted s) (i : ℕ) :
    Accounted (s.releaseAdmission i) := by
  by_cases hnot : (!(s.requests i).admitted || (s.requests i).released) = true
  · rw [Coordinator.releaseAdmission]
    simp only [hnot, if_true]
    exact h
  · have hadmitted : (s.requests i).admitted = true := by
      rw [Bool.not_eq_true, Bool.or_eq_false_iff] at hnot
      simpa using hnot.1
    have hmem : i ∈ s.activeReservations := (h.active i).mpr hadmitted
    have hqueued : (s.requests i).queued = false := by
      by_contra hq
      have hno := ((h.sound i).waiting (by simpa using hq)).1
      rw [hadmitted] at hno
      cases hno
    have hnotMem : i ∉ s.activeReservations.filter fun j => j != i := by simp
    unfold Coordinator.releaseAdmission
    simp only
    rw [if_neg hnot]
    constructor
    · simp only [Coordinator.live, map_update_of_notMem s.requests hnotMem,
        h.residentReleased hmem]
      exact (h.balanced.perm (Coordinator.live_perm h.nodup hmem)).discharge
        ((h.sound i).executing hadmitted)
    · intro key
      simp only
      rw [claimsAmong_update (fun e => absurd e hnotMem) key, ← filter_claimsAmong, ← h.claims key]
      cases hclaim : (s.requests i).claimKey with
      | none => exact (h.filter_claims (by simp [hclaim])).symm
      | some key' =>
        by_cases hkey : key = key'
        · subst hkey
          simp
        · simp only [Function.update_of_ne hkey]
          exact (h.filter_claims (by simpa [hclaim] using Ne.symm hkey)).symm
    · exact h.nodup.filter _
    · intro j
      by_cases hj : j = i
      · subst hj
        simp
      · simp only [Function.update_of_ne hj, List.mem_filter, bne_iff_ne, ne_eq, hj,
          not_false_eq_true, and_true]
        exact h.active j
    · intro j hle
      have hj : j ≠ i := by
        rintro rfl
        rw [(h.fresh j hle).2.1] at hadmitted
        cases hadmitted
      simp only [Function.update_of_ne hj]
      exact h.fresh j hle
    · intro route j hj
      have hne : j ≠ i := by
        rintro rfl
        rw [(h.queued route j hj).1] at hqueued
        cases hqueued
      simp only [Function.update_of_ne hne]
      exact h.queued route j hj
    · exact h.queuesNodup
    · intro j
      by_cases hj : j = i
      · subst hj
        simp only [Function.update_self]
        constructor
        · exact (h.sound j).toAmounts.mark _ _ _ _ _ _
        · simp [hqueued]
        all_goals simp
      · simp only [Function.update_of_ne hj]
        exact h.sound j

theorem Accounted.cleanup (h : Accounted s) (i : ℕ) : Accounted (s.cleanup i) := by
  unfold Coordinator.cleanup
  split_ifs
  · exact h.discardQueued i
  · exact h.releaseAdmission i
  · exact h

/-! ## Held grants -/

theorem Accounted.releaseExecution (h : Accounted s) (i : ℕ) :
    Accounted (s.releaseExecution i) := by
  unfold Coordinator.releaseExecution
  simp only
  split_ifs with hnot
  · exact h
  · simp only [Bool.or_eq_true, Bool.not_eq_true', not_or, Bool.not_eq_false,
      Bool.not_eq_true] at hnot
    obtain ⟨⟨hadmitted, -⟩, hexecution⟩ := hnot
    have hs := h.sound i
    have hset := @Accounted.setActive s i
      { s.requests i with
        cpuSlots := 0, nativeThreads := 0, ioSlots := 0, executionActive := false }
      h hadmitted ⟨rfl, rfl, rfl, rfl, rfl, rfl⟩ hadmitted
      { residentBytes := hs.residentBytes
        transientBytes := hs.transientBytes
        tempBytes := hs.tempBytes
        cpuSlots := le_rfl
        nativeThreads := le_rfl
        ioSlots := le_rfl
        gpuBytes := hs.gpuBytes
        waiting := hs.waiting
        ended := hs.ended
        executing := fun _ => rfl
        unshared := hs.unshared }
    have hmove : ∀ c : Counters, c.move (s.requests i) { s.requests i with
        cpuSlots := 0, nativeThreads := 0, ioSlots := 0, executionActive := false } =
        c.stopExecution (s.requests i) := by
      intro c
      ext <;> simp [Counters.move, Counters.stopExecution, hexecution, oneIf, sub_eq_add_neg]
    simp only [hmove, zero_sub, ← sub_eq_add_neg] at hset
    exact hset

theorem Accounted.shrinkTransient (h : Accounted s) {amount : ℤ} {s' : Coordinator}
    (hs : s.shrinkTransient i amount = .ok s') : Accounted s' := by
  simp only [Coordinator.shrinkTransient, bind_eq_ok, raiseIf_eq_ok, exists_and_left, exists_const,
    pure_eq_ok] at hs
  obtain ⟨hnot, hamount, rfl⟩ := hs
  simp only [Bool.or_eq_true, Bool.not_eq_true', not_or, Bool.not_eq_false] at hnot
  push Not at hamount
  have hsound := h.sound i
  have hset := @Accounted.setActive s i
    { s.requests i with
      transientBytes := amount
      memoryBytes := (s.requests i).memoryBytes - ((s.requests i).transientBytes - amount) }
    h hnot.1 ⟨rfl, rfl, rfl, rfl, rfl, rfl⟩ hnot.1
    { residentBytes := hsound.residentBytes
      transientBytes := hamount.1
      tempBytes := hsound.tempBytes
      cpuSlots := hsound.cpuSlots
      nativeThreads := hsound.nativeThreads
      ioSlots := hsound.ioSlots
      gpuBytes := hsound.gpuBytes
      waiting := hsound.waiting
      ended := hsound.ended
      executing := hsound.executing
      unshared := hsound.unshared }
  have hmove : ∀ c : Counters, c.move (s.requests i) { s.requests i with
      transientBytes := amount
      memoryBytes := (s.requests i).memoryBytes - ((s.requests i).transientBytes - amount) } =
      c.shrink ((s.requests i).transientBytes - amount) := by
    intro c
    ext <;> simp only [Counters.move, Counters.shrink] <;> omega
  simp only [hmove, sub_self, add_zero, Function.update_eq_self] at hset
  exact hset

theorem Accounted.resizeTemp (h : Accounted s) {amount free : ℤ} {file : Option SpoolFile}
    {s' : Coordinator} (hs : s.resizeTemp i amount file free = .ok s') : Accounted s' := by
  simp only [Coordinator.resizeTemp, bind_eq_ok, raiseIf_eq_ok, exists_and_left, exists_const,
    pure_eq_ok] at hs
  obtain ⟨hamount, hnot, materialized, -, -, -, rfl⟩ := hs
  simp only [Bool.or_eq_true, Bool.not_eq_true', not_or, Bool.not_eq_false] at hnot
  have hsound := h.sound i
  have hset := @Accounted.setActive s i
    { s.requests i with
      tempMaterializedBytes := min amount materialized
      tempFileIdentity := if amount ≠ 0 then file.map SpoolFile.identity else none
      tempBytes := amount }
    h hnot.1 ⟨rfl, rfl, rfl, rfl, rfl, rfl⟩ hnot.1
    { residentBytes := hsound.residentBytes
      transientBytes := hsound.transientBytes
      tempBytes := not_lt.mp hamount
      cpuSlots := hsound.cpuSlots
      nativeThreads := hsound.nativeThreads
      ioSlots := hsound.ioSlots
      gpuBytes := hsound.gpuBytes
      waiting := hsound.waiting
      ended := hsound.ended
      executing := hsound.executing
      unshared := hsound.unshared }
  have hmove : ∀ c : Counters, c.move (s.requests i) { s.requests i with
      tempMaterializedBytes := min amount materialized
      tempFileIdentity := if amount ≠ 0 then file.map SpoolFile.identity else none
      tempBytes := amount } =
      { c with tempBytes := c.tempBytes + (amount - (s.requests i).tempBytes) } := by
    intro c
    ext <;> simp [Counters.move]
  simp only [hmove, sub_self, add_zero, Function.update_eq_self] at hset
  exact ⟨hset.balanced, hset.claims, hset.nodup, hset.active, hset.fresh, hset.queued,
    hset.queuesNodup, hset.sound⟩

theorem Accounted.registerProcess (h : Accounted s) {p : ProcessIdentity} {s' : Coordinator}
    (hs : s.registerProcess i p = .ok s') : Accounted s' := by
  simp only [Coordinator.registerProcess, bind_eq_ok, raiseIf_eq_ok, exists_and_left, exists_const,
    pure_eq_ok] at hs
  obtain ⟨-, rfl⟩ := hs
  exact h.keep ⟨rfl, rfl, rfl, rfl, rfl, rfl⟩ rfl rfl rfl rfl rfl rfl rfl rfl rfl rfl

theorem Accounted.orUnchanged (h : Accounted s) {x : Checked Coordinator}
    (hx : ∀ s', x = .ok s' → Accounted s') : Accounted (orUnchanged s x) := by
  cases x with
  | ok s' => exact hx s' rfl
  | error e => exact h

/-! ## Runs -/

/-- One critical section. -/
theorem Accounted.step (h : Accounted s) (op : Op) : Accounted (s.step op).1 := by
  cases op with
  | admission view call =>
    refine h.orUnchanged fun s' hs => ?_
    obtain ⟨r, hr, hs⟩ := bind_eq_ok.mp hs
    obtain ⟨hsound, hadmitted, -⟩ := AdmitCall.request_spec hr
    exact h.enqueue hsound hadmitted hs
  | attempt i turn => exact h.attempt i turn
  | cleanup i => exact h.cleanup i
  | releaseExecution i => exact h.releaseExecution i
  | shrink i amount => exact h.orUnchanged fun s' hs => h.shrinkTransient hs
  | resize i amount file free => exact h.orUnchanged fun s' hs => h.resizeTemp hs
  | registerProcess i p => exact h.orUnchanged fun s' hs => h.registerProcess hs
  | registerRoute name =>
    change Accounted (s.registerRoute (strip name))
    unfold Coordinator.registerRoute
    split_ifs
    · exact h
    · exact ⟨h.balanced, h.claims, h.nodup, h.active, h.fresh, h.queued, h.queuesNodup, h.sound⟩
  | observe o => exact h.observe o
  | refreshTemporary free =>
    change Accounted (s.refreshTemporary free)
    unfold Coordinator.refreshTemporary
    split_ifs
    · exact ⟨h.balanced, h.claims, h.nodup, h.active, h.fresh, h.queued, h.queuesNodup, h.sound⟩
    · exact h

theorem Accounted.run (h : Accounted s) (ops : List Op) : Accounted (s.run ops).1 := by
  induction ops generalizing s with
  | nil => exact h
  | cons op ops ih => exact ih (h.step op)

/-! ## Grants and releases -/

/-- How often a request was granted and released, as its marks say. -/
def Request.grantCount (r : Request) : ℕ := if r.admitted || r.released then 1 else 0

def Request.releaseCount (r : Request) : ℕ := if r.released then 1 else 0

/-- The events so far are those that the marks of the requests record. -/
def Recorded (s : Coordinator) (events : List Event) : Prop :=
  ∀ i, events.count (.granted i) = (s.requests i).grantCount ∧
    events.count (.released i) = (s.requests i).releaseCount

/-- The marks that record grants and releases. -/
def Request.marks (r : Request) : Bool × Bool := (r.admitted, r.released)

theorem Request.counts_of_marks {r r' : Request} (h : r'.marks = r.marks) :
    r'.grantCount = r.grantCount ∧ r'.releaseCount = r.releaseCount := by
  obtain ⟨ha, hr⟩ := Prod.mk.inj h
  simp only [Request.grantCount, Request.releaseCount, ha, hr, and_self]

/-- A section after which the marks are as before. -/
theorem Recorded.of_marks {events : List Event} {s' : Coordinator} (h : Recorded s events)
    (hm : ∀ j, (s'.requests j).marks = (s.requests j).marks) : Recorded s' events := by
  intro j
  obtain ⟨hg, hr⟩ := Request.counts_of_marks (hm j)
  rw [hg, hr]
  exact h j

theorem marks_update {f : ℕ → Request} (h : r'.marks = (f i).marks) (j : ℕ) :
    (Function.update f i r' j).marks = (f j).marks := by
  by_cases hj : j = i
  · subst hj
    rw [Function.update_self, h]
  · rw [Function.update_of_ne hj]

theorem adapt_marks (s : Coordinator) (effective : ℤ) (j : ℕ) :
    ((s.adapt effective).requests j).marks = (s.requests j).marks := by
  unfold Coordinator.adapt
  generalize s.orderedRoutes = routes
  induction routes generalizing s with
  | nil => rfl
  | cons route routes ih =>
    refine (ih (s.adaptHead effective route)).trans ?_
    unfold Coordinator.adaptHead
    split
    · rfl
    · simp only
      split_ifs
      · refine marks_update ?_ j
        rfl
      · rfl

/-- One more event, of a request whose marks now record it. -/
theorem Recorded.granted {events : List Event} {s' : Coordinator} (h : Recorded s events)
    (hi : (s.requests i).marks = (false, false)) (hi' : (s'.requests i).marks = (true, false))
    (hm : ∀ j, j ≠ i → (s'.requests j).marks = (s.requests j).marks) :
    Recorded s' (events ++ [.granted i]) := by
  intro j
  obtain ⟨hgranted, hreleased⟩ := h j
  by_cases hj : j = i
  · subst hj
    obtain ⟨ha, hr⟩ := Prod.mk.inj hi
    obtain ⟨ha', hr'⟩ := Prod.mk.inj hi'
    simp only [Request.grantCount, Request.releaseCount, ha, hr, ha', hr'] at *
    simp [hgranted, hreleased]
  · obtain ⟨hg, hr⟩ := Request.counts_of_marks (hm j hj)
    rw [hg, hr, ← hgranted, ← hreleased]
    simp [List.count_append, Ne.symm hj]

theorem Recorded.released {events : List Event} {s' : Coordinator} (h : Recorded s events)
    (hi : (s.requests i).marks = (true, false)) (hi' : (s'.requests i).marks = (false, true))
    (hm : ∀ j, j ≠ i → (s'.requests j).marks = (s.requests j).marks) :
    Recorded s' (events ++ [.released i]) := by
  intro j
  obtain ⟨hgranted, hreleased⟩ := h j
  by_cases hj : j = i
  · subst hj
    obtain ⟨ha, hr⟩ := Prod.mk.inj hi
    obtain ⟨ha', hr'⟩ := Prod.mk.inj hi'
    simp only [Request.grantCount, Request.releaseCount, ha, hr, ha', hr'] at *
    simp [hgranted, hreleased]
  · obtain ⟨hg, hr⟩ := Request.counts_of_marks (hm j hj)
    rw [hg, hr, ← hgranted, ← hreleased]
    simp [List.count_append, Ne.symm hj]

theorem Recorded.attempt {events : List Event} (h : Recorded s events) (hs : Accounted s) (i : ℕ)
    (t : Turn) : Recorded (s.attempt i t).1 (events ++ (s.attempt i t).2) := by
  unfold Coordinator.attempt
  simp only
  split_ifs
  · simpa using h
  · simpa using h
  all_goals
    have hadapted := (hs.observe t.observation).adapt (s.effectiveCpuSlots t.observation)
    have hmarks := adapt_marks (s.observe t.observation) (s.effectiveCpuSlots t.observation)
    have hrecorded := h.of_marks hmarks
    simp only [Coordinator.nextRoute, List.append_nil] at *
  · exact hrecorded
  · next hhead _ _ =>
    have hqueued := (hadapted.queued _ i (List.mem_of_head? hhead.2)).1
    obtain ⟨ha, hr⟩ := (hadapted.sound i).waiting hqueued
    refine hrecorded.of_marks fun j => marks_update ?_ j
    simp only [Request.marks, ha, hr]
  · next hhead _ _ =>
    have hqueued := (hadapted.queued _ i (List.mem_of_head? hhead.2)).1
    obtain ⟨ha, hr⟩ := (hadapted.sound i).waiting hqueued
    refine hrecorded.granted (Prod.ext ha hr) ?_ ?_
    · simp [Coordinator.commitGrant, Request.marks]
    · intro j hj
      simp only [Coordinator.commitGrant, Function.update_of_ne hj]
  · refine hrecorded.of_marks fun j => marks_update ?_ j
    rfl

theorem Recorded.cleanup {events : List Event} (h : Recorded s events) (i : ℕ) :
    Recorded (s.cleanup i) (events ++ s.releaseEvents i) := by
  unfold Coordinator.cleanup Coordinator.releaseEvents
  cases hq : (s.requests i).queued with
  | true =>
    simp only [if_true, Bool.not_true, Bool.false_and, Bool.false_eq_true, if_false,
      List.append_nil]
    unfold Coordinator.discardQueued
    simp only [hq, Bool.not_true, Bool.false_eq_true, if_false]
    refine h.of_marks fun j => marks_update ?_ j
    rfl
  | false =>
    simp only [Bool.false_eq_true, if_false, Bool.not_false, Bool.true_and]
    split_ifs with hactive
    · rw [Bool.and_eq_true, Bool.not_eq_true'] at hactive
      have hnot : ¬ (!(s.requests i).admitted || (s.requests i).released) = true := by
        simp [hactive.1, hactive.2]
      refine h.released (Prod.ext hactive.1 hactive.2) ?_ ?_
      · unfold Coordinator.releaseAdmission
        simp only
        rw [if_neg hnot]
        simp [Request.marks]
      · intro j hj
        unfold Coordinator.releaseAdmission
        simp only
        rw [if_neg hnot]
        simp only [Function.update_of_ne hj]
    · simpa using h

/-- The sections that may raise grant and release nothing. -/
theorem Recorded.orUnchanged {events : List Event} (h : Recorded s events)
    {x : Checked Coordinator}
    (hx : ∀ s', x = .ok s' → ∀ j, (s'.requests j).marks = (s.requests j).marks) :
    Recorded (orUnchanged s x) events := by
  cases x with
  | ok s' => exact h.of_marks (hx s' rfl)
  | error e => exact h

theorem Recorded.step {events : List Event} (h : Recorded s events) (hs : Accounted s) (op : Op) :
    Recorded (s.step op).1 (events ++ (s.step op).2) := by
  cases op with
  | attempt i turn => exact h.attempt hs i turn
  | cleanup i => exact h.cleanup i
  | admission view call =>
    simp only [Coordinator.step, List.append_nil]
    refine h.orUnchanged fun s' hs' => ?_
    obtain ⟨r, hr, hs'⟩ := bind_eq_ok.mp hs'
    obtain ⟨-, hadmitted, hreleased, -⟩ := AdmitCall.request_spec hr
    simp only [Coordinator.enqueue, bind_eq_ok, raiseIf_eq_ok, exists_and_left, exists_const,
      pure_eq_ok] at hs'
    obtain ⟨-, -, rfl⟩ := hs'
    have hnew := (hs.fresh s.nextId le_rfl).2
    refine marks_update ?_
    simp only [Request.marks, hadmitted, hreleased, hnew.1, hnew.2]
  | releaseExecution i =>
    simp only [Coordinator.step, List.append_nil]
    refine h.of_marks fun j => ?_
    unfold Coordinator.releaseExecution
    simp only
    split_ifs
    · rfl
    · refine marks_update ?_ j
      rfl
  | shrink i amount =>
    simp only [Coordinator.step, List.append_nil]
    refine h.orUnchanged fun s' hs' => ?_
    simp only [Coordinator.shrinkTransient, bind_eq_ok, raiseIf_eq_ok, exists_and_left,
      exists_const, pure_eq_ok] at hs'
    obtain ⟨-, -, rfl⟩ := hs'
    refine marks_update ?_
    rfl
  | resize i amount file free =>
    simp only [Coordinator.step, List.append_nil]
    refine h.orUnchanged fun s' hs' => ?_
    simp only [Coordinator.resizeTemp, bind_eq_ok, raiseIf_eq_ok, exists_and_left, exists_const,
      pure_eq_ok] at hs'
    obtain ⟨-, -, materialized, -, -, -, rfl⟩ := hs'
    refine marks_update ?_
    rfl
  | registerProcess i p =>
    simp only [Coordinator.step, List.append_nil]
    refine h.orUnchanged fun s' hs' => ?_
    simp only [Coordinator.registerProcess, bind_eq_ok, raiseIf_eq_ok, exists_and_left,
      exists_const, pure_eq_ok] at hs'
    obtain ⟨-, rfl⟩ := hs'
    refine marks_update ?_
    rfl
  | registerRoute name =>
    simp only [Coordinator.step, List.append_nil]
    refine h.of_marks fun j => ?_
    unfold Coordinator.registerRoute
    split_ifs <;> rfl
  | observe o =>
    simp only [Coordinator.step, List.append_nil]
    exact h.of_marks fun j => rfl
  | refreshTemporary free =>
    simp only [Coordinator.step, List.append_nil]
    refine h.of_marks fun j => ?_
    unfold Coordinator.refreshTemporary
    split_ifs <;> rfl

theorem Recorded.run {events : List Event} (h : Recorded s events) (hs : Accounted s)
    (ops : List Op) : Recorded (s.run ops).1 (events ++ (s.run ops).2) := by
  induction ops generalizing s events with
  | nil => simpa [Coordinator.run] using h
  | cons op ops ih =>
    have hnext := ih (h.step hs op) (hs.step op)
    rwa [List.append_assoc] at hnext

/-! ## Conservation -/

/-- No counter is negative. -/
structure Counters.Nonneg (c : Counters) : Prop where
  reservedBytes : 0 ≤ c.reservedBytes
  residentBytes : 0 ≤ c.residentBytes
  transientBytes : 0 ≤ c.transientBytes
  tempBytes : 0 ≤ c.tempBytes
  cpuSlots : 0 ≤ c.cpuSlots
  nativeThreads : 0 ≤ c.nativeThreads
  activeRequests : 0 ≤ c.activeRequests
  activeExecutionRequests : 0 ≤ c.activeExecutionRequests

theorem sum_map_nonneg {l : List Request} {f : Request → ℤ} (h : ∀ r ∈ l, 0 ≤ f r) :
    0 ≤ (l.map f).sum := by
  refine List.sum_nonneg fun a ha => ?_
  obtain ⟨r, hr, rfl⟩ := List.mem_map.mp ha
  exact h r hr

theorem totals_nonneg {l : List Request} (h : ∀ r ∈ l, Sound r) : (totals l).Nonneg := by
  have hresident : 0 ≤ residentTotal l := by
    refine SharedClaims.total_nonneg fun c hc => ?_
    obtain ⟨r, hr, rfl⟩ := List.mem_map.mp hc
    exact (h r hr).residentBytes
  have htransient := sum_map_nonneg fun r hr => (h r hr).transientBytes
  constructor
  · exact add_nonneg hresident htransient
  · exact hresident
  · exact htransient
  · exact sum_map_nonneg fun r hr => (h r hr).tempBytes
  · exact sum_map_nonneg fun r hr => (h r hr).cpuSlots
  · exact sum_map_nonneg fun r hr => (h r hr).nativeThreads
  · exact Int.natCast_nonneg _
  · refine sum_map_nonneg fun r _ => ?_
    unfold oneIf
    split_ifs <;> decide

/-- What the coordinator and the events of its run satisfy at the end of every critical
section. -/
structure Conserved (s : Coordinator) (events : List Event) : Prop where
  /-- Every counter is its sum over the active reservations. -/
  sums : Balanced s.live s.counters s.metrics s.ioInUse s.gpuInUse
  nonneg : s.counters.Nonneg
  routesNonneg : ∀ route, (s.metrics route).Nonneg ∧ 0 ≤ (s.metrics route).ioSlots ∧
    0 ≤ (s.metrics route).gpuBytes
  devicesNonneg : ∀ device, 0 ≤ s.ioInUse device ∧ 0 ≤ s.gpuInUse device
  /-- A reservation is granted at most once; it is active, or it was released once. -/
  once : ∀ i, events.count (.granted i) ≤ 1 ∧
    events.count (.released i) + (if i ∈ s.activeReservations then 1 else 0) =
      events.count (.granted i)
  /-- The clean-up of a request, with which its scope ends, leaves it inactive. -/
  ends : ∀ i, i ∉ (s.cleanup i).activeReservations
  /-- Nothing is left when nothing is active. -/
  zero : s.activeReservations = [] →
    s.counters = {} ∧ (∀ route, s.metrics route = {}) ∧ ∀ device, s.ioInUse device = 0 ∧
      s.gpuInUse device = 0

theorem Accounted.cleanup_ends (h : Accounted s) (i : ℕ) :
    i ∉ (s.cleanup i).activeReservations := by
  have hclean := h.cleanup i
  rw [hclean.active i]
  unfold Coordinator.cleanup
  split_ifs with hqueued hactive
  · have hadmitted := ((h.sound i).waiting hqueued).1
    simp [Coordinator.discardQueued, hqueued, hadmitted]
  · rw [Bool.and_eq_true, Bool.not_eq_true'] at hactive
    have hnot : ¬ (!(s.requests i).admitted || (s.requests i).released) = true := by
      simp [hactive.1, hactive.2]
    unfold Coordinator.releaseAdmission
    simp only
    rw [if_neg hnot]
    simp
  · intro hadmitted
    cases hreleased : (s.requests i).released with
    | false => exact hactive (by simp [hadmitted, hreleased])
    | true =>
      rw [(h.sound i).ended hreleased] at hadmitted
      cases hadmitted

theorem Accounted.conserved {events : List Event} (h : Accounted s) (hr : Recorded s events) :
    Conserved s events := by
  have hlive : ∀ r ∈ s.live, Sound r := by
    intro r hmem
    obtain ⟨i, -, rfl⟩ := List.mem_map.mp hmem
    exact h.sound i
  constructor
  · exact h.balanced
  · rw [h.balanced.counters]
    exact totals_nonneg hlive
  · intro route
    have hroute : ∀ r ∈ onRoute route s.live, Sound r := fun r hmem =>
      hlive r (List.mem_of_mem_filter hmem)
    rw [h.balanced.metrics route]
    exact ⟨totals_nonneg hroute, sum_map_nonneg fun r hmem => (hroute r hmem).ioSlots,
      sum_map_nonneg fun r hmem => (hroute r hmem).gpuBytes⟩
  · intro device
    rw [h.balanced.io device, h.balanced.gpu device]
    exact ⟨sum_map_nonneg fun r hmem => (hlive r (List.mem_of_mem_filter hmem)).ioSlots,
      sum_map_nonneg fun r hmem => (hlive r (List.mem_of_mem_filter hmem)).gpuBytes⟩
  · intro i
    obtain ⟨hgranted, hreleased⟩ := hr i
    have hended := (h.sound i).ended
    simp only [hgranted, hreleased, h.active i, Request.grantCount, Request.releaseCount]
    cases ha : (s.requests i).admitted <;> cases hr : (s.requests i).released <;> simp_all
  · exact h.cleanup_ends
  · intro hnil
    have hempty : s.live = [] := by rw [Coordinator.live, hnil, List.map_nil]
    have hbal := h.balanced
    rw [hempty] at hbal
    exact ⟨hbal.counters, hbal.metrics, fun device => ⟨hbal.io device, hbal.gpu device⟩⟩

/-- **Resource accounting is conserved.**  Whatever critical sections the threads take, in
whatever order: every counter is the sum over the active reservations, the resident bytes of
one `(route, key)` counted once at the greatest claim; no counter is negative; every
reservation is released exactly once; and all counters are zero when none is active. -/
theorem accounts_conserved {order : List Text} {given : GivenLimits} {machine : Machine}
    {s : Coordinator} (h : Coordinator.create order given machine = .ok s) (ops : List Op) :
    Conserved (s.run ops).1 (s.run ops).2 := by
  have hstart : Recorded s [] := by
    intro i
    rw [(Coordinator.create_spec h).2.1]
    exact ⟨rfl, rfl⟩
  have haccounted := Accounted.create h
  have hrecorded := hstart.run haccounted ops
  rw [List.nil_append] at hrecorded
  exact (haccounted.run ops).conserved hrecorded

/-- An idle machine, as one turn of the waiting loop finds it. -/
def idleTurn : Turn where
  observation :=
    { availablePhysical := none
      availableCommit := none
      automaticMemoryBudget := 100
      detectedCpu := some 4
      loadCapacity := none
      externalSlots := none
      attributionLost := false
      loadUnknown := false
      memoryPressure := false
      cpuPressure := false
      ioPressure := false
      processMemory := [] }
  surroundings :=
    { freeTemporary := 100
      gpuAvailable := fun _ => none
      gpuMeasured := fun _ => [] }

/-- Two requests share a resident key; the one that claimed more is released first. -/
theorem accounts_conserved_shared :
    ∃ s, Coordinator.create [lit "docs"] {} ⟨100, 0, 4, 100⟩ = .ok s ∧
      Conserved
        (s.run
          [.admission s { routeName := lit "docs", residentBytes := 8, residentKey := lit "m" },
            .attempt 0 idleTurn,
            .admission s { routeName := lit "docs", residentBytes := 5, residentKey := lit "m" },
            .attempt 1 idleTurn, .cleanup 0]).1
        [.granted 0, .granted 1, .released 0] := by
  refine ⟨_, rfl, ?_⟩
  exact @accounts_conserved [lit "docs"] {} ⟨100, 0, 4, 100⟩ _ rfl _

end Resources
end Neocortex
