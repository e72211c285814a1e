import Neocortex.Elastic.Map

/-!
# What holds of one work

The flags of a work and the place of its worker belong together: a work that is not admitted has no
result of its own, a published result stays until it is released or the map is cancelled, and a work
without an error is behind its worker only if it was released, the map was cancelled or the callback
gave it a value.  `Work.Fits` says so for each place, and `Work.Sound` adds where a value is from.

* `WorkStep.sound`: the worker keeps it.
* `Work.Sound.released`, `.shut`, `.converted`, `.preparedWith`: so does the owner.
* `Work.Later`: what no step takes back.
-/

namespace Neocortex
namespace Elastic

variable {ι π ω ε : Type}

/-- The value of an item: its result if its work was admitted, and the value of the callback
otherwise. -/
def Call.Gives (call : Call ι π ω ε) (calls : List ℕ) (refusals : List (ℕ × Fault ε)) (k : ℕ) (v : ω)
    (admitted : Bool) : Prop :=
  ∃ item, call.items[k]? = some item ∧
    (admitted = true → call.resultOf item = .ok v) ∧
    (admitted = false → k ∈ calls ∧ ∃ e callback, (k, .memory e) ∈ refusals ∧
      call.onAdmissionError = some callback ∧ callback item e = .ok v)

/-- No one has touched the work, `close` apart. -/
def Work.Fresh (cancelled : Bool) (x : Work π ω ε) : Prop :=
  x.admitted = false ∧ x.ready = false ∧ x.error = none ∧ x.value = none ∧ x.payload = none ∧
    x.holdsGrant = false ∧ (x.prepared = true → cancelled = true)

/-- The flags of a work at each place of its worker. -/
def Work.Fits (call : Call ι π ω ε) (refusals : List (ℕ × Fault ε)) (k : ℕ) (cancelled : Bool)
    (x : Work π ω ε) : Prop :=
  match x.phase with
  | .created => x.Fresh cancelled
  | .waiting => x.Fresh cancelled
  | .preparing =>
      x.admitted = true ∧ x.ready = false ∧ x.error = none ∧
        (∀ p, x.payload = some p → ∃ item, call.items[k]? = some item ∧ call.prepare item = .ok p) ∧
        (x.prepared = true → cancelled = false → x.prepareError = none → x.payload.isSome = true)
  | .computed r =>
      x.admitted = true ∧ x.ready = false ∧ x.error = none ∧
        ∀ v, r = .ok v → ∃ item, call.items[k]? = some item ∧ call.resultOf item = .ok v
  | .retaining =>
      x.admitted = true ∧ x.ready = true ∧ x.error = none ∧
        (cancelled = false → x.release = false → x.value.isSome = true)
  | .leaving f =>
      x.admitted = true ∧ x.error = none ∧ (f = none → x.release = true) ∧
        (x.ready = true → x.release = true ∨ cancelled = true)
  | .left f =>
      x.error = none ∧ x.holdsGrant = false ∧ (f = none → x.release = true) ∧
        (x.ready = true → x.release = true ∨ cancelled = true) ∧
        (x.admitted = false → x.ready = false ∧ ∃ g, f = some g ∧ (k, g) ∈ refusals)
  | .done =>
      x.holdsGrant = false ∧
        (x.error = none →
          x.release = true ∨ cancelled = true ∨ x.admitted = false ∧ x.value.isSome = true) ∧
        (x.admitted = false → ∀ f, x.error = some f → (k, f) ∈ refusals)

/-- What holds of a work, at its index. -/
structure Work.Sound (call : Call ι π ω ε) (calls : List ℕ) (refusals : List (ℕ × Fault ε)) (k : ℕ)
    (cancelled : Bool) (x : Work π ω ε) : Prop where
  fits : x.Fits call refusals k cancelled
  value : ∀ v, x.value = some v → call.Gives calls refusals k v x.admitted

section Sound

variable {call : Call ι π ω ε} {calls calls' : List ℕ} {refusals refusals' : List (ℕ × Fault ε)}
  {k : ℕ} {closed cancelled cancelled' applied : Bool} {x x' : Work π ω ε}

theorem Call.Gives.mono {v : ω} {admitted : Bool} (h : call.Gives calls refusals k v admitted)
    (hcalls : calls ⊆ calls') (hrefusals : refusals ⊆ refusals') :
    call.Gives calls' refusals' k v admitted := by
  obtain ⟨item, hitem, hresult, hcallback⟩ := h
  refine ⟨item, hitem, hresult, fun hadmitted => ?_⟩
  obtain ⟨hk, e, callback, he, hvalue⟩ := hcallback hadmitted
  exact ⟨hcalls hk, e, callback, hrefusals he, hvalue⟩

/-- More calls, more refusals and a cancellation take nothing away. -/
theorem Work.Sound.mono (h : x.Sound call calls refusals k cancelled) (hcalls : calls ⊆ calls')
    (hrefusals : refusals ⊆ refusals') (hcancel : cancelled = true → cancelled' = true) :
    x.Sound call calls' refusals' k cancelled' := by
  have hopen : cancelled' = false → cancelled = false := by
    intro hfalse
    cases cancelled with
    | false => rfl
    | true => simp [hcancel rfl] at hfalse
  refine ⟨?_, fun v hv => (h.value v hv).mono hcalls hrefusals⟩
  have hfits := h.fits
  unfold Work.Fits at hfits ⊢
  split <;> rename_i hphase <;> simp only [hphase] at hfits
  · obtain ⟨ha, hr, he, hv, hp, hg, hprepared⟩ := hfits
    exact ⟨ha, hr, he, hv, hp, hg, fun hx => hcancel (hprepared hx)⟩
  · obtain ⟨ha, hr, he, hv, hp, hg, hprepared⟩ := hfits
    exact ⟨ha, hr, he, hv, hp, hg, fun hx => hcancel (hprepared hx)⟩
  · obtain ⟨ha, hr, he, hp, hprepared⟩ := hfits
    exact ⟨ha, hr, he, hp, fun hx hc => hprepared hx (hopen hc)⟩
  · exact hfits
  · obtain ⟨ha, hr, he, hv⟩ := hfits
    exact ⟨ha, hr, he, fun hc => hv (hopen hc)⟩
  · obtain ⟨ha, he, hf, hr⟩ := hfits
    exact ⟨ha, he, hf, fun hx => (hr hx).imp_right hcancel⟩
  · obtain ⟨he, hg, hf, hr, ha⟩ := hfits
    refine ⟨he, hg, hf, fun hx => (hr hx).imp_right hcancel, fun hx => ?_⟩
    obtain ⟨hready, g, hg, hmem⟩ := ha hx
    exact ⟨hready, g, hg, hrefusals hmem⟩
  · obtain ⟨hg, he, ha⟩ := hfits
    exact ⟨hg, fun hx => (he hx).imp_right (Or.imp_left hcancel),
      fun hx f hf => hrefusals (ha hx f hf)⟩

/-! ## The worker -/

theorem compute_eq_ok {p : Option (Prepared π ω)} {v : ω} {item : ι}
    (hp : ∀ q, p = some q → call.prepare item = .ok q) (h : call.compute p = .ok v) :
    call.resultOf item = .ok v := by
  match p with
  | none => simp [Call.compute] at h
  | some (.immediate u) => simpa [Call.resultOf, hp _ rfl, Call.compute] using h
  | some (.payload q) => simpa [Call.resultOf, hp _ rfl, Call.compute] using h

/-- **The worker keeps its work sound.** -/
theorem WorkStep.sound (h : WorkStep call closed cancelled x x' applied)
    (hclosed : closed = true → cancelled = true) (hx : x.Sound call calls refusals k cancelled) :
    x'.Sound call calls refusals k cancelled := by
  obtain ⟨hfits, hvalue⟩ := hx
  unfold Work.Fits at hfits
  cases h with
  | admitted h =>
    rw [h] at hfits
    obtain ⟨-, hr, he, hv, hp, -, hprepared⟩ := hfits
    refine ⟨⟨rfl, hr, he, ?_, ?_⟩, ?_⟩
    · intro p hpayload
      simp [hp] at hpayload
    · intro hx hc
      simp [hprepared hx] at hc
    · intro v hsome
      simp [hv] at hsome
  | drop h hc =>
    rw [h] at hfits
    obtain ⟨-, -, he, -, -, hg, -⟩ := hfits
    refine ⟨⟨hg, fun _ => .inr (.inl (hclosed hc)), ?_⟩, hvalue⟩
    intro _ f hf
    simp [he] at hf
  | stopPreparing h hc =>
    rw [h] at hfits
    obtain ⟨ha, -, he, -⟩ := hfits
    exact ⟨⟨ha, he, by simp, fun _ => .inr hc⟩, hvalue⟩
  | refusePrepared f h =>
    rw [h] at hfits
    obtain ⟨ha, hr, he, -⟩ := hfits
    exact ⟨⟨ha, he, by simp, by simp [hr]⟩, hvalue⟩
  | compute h hprepared hc herror =>
    rw [h] at hfits
    obtain ⟨ha, hr, he, hp, hpayload⟩ := hfits
    obtain ⟨p, hsome⟩ := Option.isSome_iff_exists.mp (hpayload hprepared hc herror)
    obtain ⟨item, hitem, hprepare⟩ := hp p hsome
    refine ⟨⟨ha, hr, he, fun v hv => ⟨item, hitem, compute_eq_ok ?_ hv⟩⟩, hvalue⟩
    intro q hq
    rw [hsome, Option.some_inj] at hq
    exact hq ▸ hprepare
  | fail f h =>
    rw [h] at hfits
    obtain ⟨ha, hr, he, -⟩ := hfits
    exact ⟨⟨ha, he, by simp, by simp [hr]⟩, hvalue⟩
  | stopComputed v h hc =>
    rw [h] at hfits
    obtain ⟨ha, -, he, -⟩ := hfits
    exact ⟨⟨ha, he, by simp, fun _ => .inr hc⟩, hvalue⟩
  | publish v h =>
    rw [h] at hfits
    obtain ⟨ha, -, he, hresult⟩ := hfits
    obtain ⟨item, hitem, hok⟩ := hresult v rfl
    refine ⟨⟨ha, rfl, he, fun _ _ => rfl⟩, fun u hu => ⟨item, hitem, ?_, ?_⟩⟩
    · intro _
      exact Option.some_inj.mp hu ▸ hok
    · intro hfalse
      simp [ha] at hfalse
  | stopRetaining h hc =>
    rw [h] at hfits
    obtain ⟨ha, -, he, -⟩ := hfits
    exact ⟨⟨ha, he, by simp, fun _ => .inr hc⟩, hvalue⟩
  | finish h hrelease =>
    rw [h] at hfits
    obtain ⟨ha, -, he, -⟩ := hfits
    exact ⟨⟨ha, he, fun _ => hrelease, fun _ => .inl hrelease⟩, by simp⟩
  | exit f g h =>
    rw [h] at hfits
    obtain ⟨ha, he, hf, hr⟩ := hfits
    refine ⟨⟨he, rfl, fun hnone => hf ?_, hr, by simp [ha]⟩, hvalue⟩
    exact (Option.or_eq_none_iff.mp hnone).2
  | conclude f h =>
    rw [h] at hfits
    obtain ⟨-, hg, hf, -, ha⟩ := hfits
    refine ⟨⟨hg, fun hnone => .inl (hf hnone), ?_⟩, ?_⟩
    · intro hadmitted e he
      obtain ⟨-, g, hg, hmem⟩ := ha hadmitted
      obtain rfl : g = e := Option.some_inj.mp (hg.symm.trans he)
      exact hmem
    · intro v hv
      refine hvalue v ?_
      cases cancelled with
      | true => simp at hv
      | false => simpa using hv

/-! ## The owner -/

theorem Work.Sound.new {phase : Phase ω ε} (h : phase = .created ∨ phase = .waiting) :
    (Work.new phase : Work π ω ε).Sound call calls refusals k cancelled := by
  obtain rfl | rfl := h
  · exact ⟨⟨rfl, rfl, rfl, rfl, rfl, rfl, by simp [Work.new]⟩, by simp [Work.new]⟩
  · exact ⟨⟨rfl, rfl, rfl, rfl, rfl, rfl, by simp [Work.new]⟩, by simp [Work.new]⟩

/-- The work is submitted. -/
theorem Work.Sound.submitted (h : x.Sound call calls refusals k cancelled)
    (hphase : x.phase = .created) :
    ({ x with phase := .waiting } : Work π ω ε).Sound call calls refusals k cancelled := by
  have hfits := h.fits
  unfold Work.Fits at hfits
  rw [hphase] at hfits
  exact ⟨hfits, h.value⟩

/-- `gate.admit` raises. -/
theorem Work.Sound.refuse (h : x.Sound call calls refusals k cancelled)
    (hphase : x.phase = .waiting) (f : Fault ε) (hmem : (k, f) ∈ refusals) :
    ({ x with phase := .left (some f) } : Work π ω ε).Sound call calls refusals k cancelled := by
  have hfits := h.fits
  unfold Work.Fits at hfits
  rw [hphase] at hfits
  obtain ⟨ha, hr, he, -, -, hg, -⟩ := hfits
  exact ⟨⟨he, hg, by simp, by simp [hr], fun _ => ⟨hr, f, rfl, hmem⟩⟩, h.value⟩

theorem Work.Sound.released (h : x.Sound call calls refusals k cancelled) :
    x.released.Sound call calls refusals k cancelled := by
  refine ⟨?_, by simp [Work.released]⟩
  have hfits := h.fits
  unfold Work.Fits at hfits ⊢
  dsimp only [Work.released]
  split <;> rename_i hphase <;> rw [hphase] at hfits
  · obtain ⟨ha, hr, he, -, hp, hg⟩ := hfits
    exact ⟨ha, hr, he, rfl, hp, hg⟩
  · obtain ⟨ha, hr, he, -, hp, hg⟩ := hfits
    exact ⟨ha, hr, he, rfl, hp, hg⟩
  · exact hfits
  · exact hfits
  · exact ⟨hfits.1, hfits.2.1, hfits.2.2.1, by simp⟩
  · exact ⟨hfits.1, hfits.2.1, fun _ => rfl, fun _ => .inl rfl⟩
  · exact ⟨hfits.1, hfits.2.1, fun _ => rfl, fun _ => .inl rfl, hfits.2.2.2.2⟩
  · exact ⟨hfits.1, fun _ => .inl rfl, hfits.2.2⟩

/-- `close` sets `prepared` too, behind the cancellation. -/
theorem Work.Sound.shut (h : x.Sound call calls refusals k cancelled) (hcancel : cancelled = true) :
    x.shut.Sound call calls refusals k cancelled := by
  refine ⟨?_, by simp [Work.shut]⟩
  have hfits := h.released.fits
  unfold Work.Fits at hfits ⊢
  dsimp only [Work.released, Work.shut] at hfits ⊢
  split <;> rename_i hphase <;> rw [hphase] at hfits
  · obtain ⟨ha, hr, he, hv, hp, hg, -⟩ := hfits
    exact ⟨ha, hr, he, hv, hp, hg, fun _ => hcancel⟩
  · obtain ⟨ha, hr, he, hv, hp, hg, -⟩ := hfits
    exact ⟨ha, hr, he, hv, hp, hg, fun _ => hcancel⟩
  · obtain ⟨ha, hr, he, hp, -⟩ := hfits
    exact ⟨ha, hr, he, hp, by simp [hcancel]⟩
  all_goals exact hfits

/-- Only a worker that has left can have an error. -/
theorem Work.Sound.phase_of_error (h : x.Sound call calls refusals k cancelled) {f : Fault ε}
    (herror : x.error = some f) : x.phase = .done := by
  have hfits := h.fits
  unfold Work.Fits at hfits
  cases hphase : x.phase with
  | done => rfl
  | created => simp_all [Work.Fresh]
  | waiting => simp_all [Work.Fresh]
  | preparing => simp_all
  | computed r => simp_all
  | retaining => simp_all
  | leaving f => simp_all
  | left f => simp_all

/-- The callback gives a refused work its value. -/
theorem Work.Sound.converted (h : x.Sound call calls refusals k cancelled) {e : ε} {v : ω}
    (hrefused : x.refused e) (hk : k ∈ calls) {item : ι} (hitem : call.items[k]? = some item)
    {callback : ι → ε → Except (Fault ε) ω} (hcallback : call.onAdmissionError = some callback)
    (hvalue : callback item e = .ok v) :
    (x.converted v).Sound call calls refusals k cancelled := by
  obtain ⟨-, herror, hadmitted⟩ := hrefused
  have hphase := h.phase_of_error herror
  have hfits := h.fits
  unfold Work.Fits at hfits
  rw [hphase] at hfits
  obtain ⟨hg, -, hmem⟩ := hfits
  constructor
  · unfold Work.Fits
    dsimp only [Work.converted]
    rw [hphase]
    exact ⟨hg, fun _ => .inr (.inr ⟨hadmitted, rfl⟩), by simp⟩
  · intro u hu
    obtain rfl : v = u := Option.some_inj.mp hu
    refine ⟨item, hitem, ?_, fun _ => ⟨hk, e, callback, hmem hadmitted _ herror, hcallback, hvalue⟩⟩
    intro htrue
    simp [Work.converted, hadmitted] at htrue

/-- The owner prepares an admitted work. -/
theorem Work.Sound.preparedWith (h : x.Sound call calls refusals k cancelled)
    (hadmitted : x.admitted = true) {item : ι} (hitem : call.items[k]? = some item)
    {r : Except (Fault ε) (Prepared π ω)}
    (hr : ∀ p, r = .ok p → call.prepare item = .ok p) :
    (x.preparedWith r).Sound call calls refusals k cancelled := by
  have hvalue : (x.preparedWith r).value = x.value := by
    unfold Work.preparedWith
    split <;> rfl
  have hsame : (x.preparedWith r).admitted = x.admitted := by
    unfold Work.preparedWith
    split <;> rfl
  refine ⟨?_, by rw [hvalue, hsame]; exact h.value⟩
  have hfits := h.fits
  unfold Work.Fits at hfits ⊢
  cases r with
  | error f =>
    dsimp only [Work.preparedWith]
    split <;> rename_i hphase <;> rw [hphase] at hfits
    · simp [Work.Fresh, hadmitted] at hfits
    · simp [Work.Fresh, hadmitted] at hfits
    · exact ⟨hfits.1, hfits.2.1, hfits.2.2.1, hfits.2.2.2.1, by simp⟩
    all_goals exact hfits
  | ok p =>
    dsimp only [Work.preparedWith]
    split <;> rename_i hphase <;> rw [hphase] at hfits
    · simp [Work.Fresh, hadmitted] at hfits
    · simp [Work.Fresh, hadmitted] at hfits
    · refine ⟨hfits.1, hfits.2.1, hfits.2.2.1, ?_, by simp⟩
      intro q hq
      exact ⟨item, hitem, hr q (by rw [Option.some_inj.mp hq])⟩
    all_goals exact hfits

/-! ## Published results -/

/-- A published value that nobody has taken back. -/
def Work.Settled (x : Work π ω ε) : Prop :=
  x.ready = true ∧ x.value.isSome = true ∧
    (x.phase = .retaining ∧ x.release = false ∨ x.phase = .done)

/-- A published work without an error has its value until it is released or the map cancelled. -/
theorem Work.Sound.settled (h : x.Sound call calls refusals k false) (hready : x.ready = true)
    (herror : x.error = none) (hrelease : x.release = false) : x.Settled := by
  have hfits := h.fits
  unfold Work.Fits at hfits
  refine ⟨hready, ?_⟩
  cases hphase : x.phase with
  | created => simp_all [Work.Fresh]
  | waiting => simp_all [Work.Fresh]
  | preparing => simp_all
  | computed r => simp_all
  | retaining => simp_all
  | leaving f => simp_all
  | left f => simp_all
  | done => simp_all

/-- The worker leaves a settled work alone. -/
theorem WorkStep.not_settled (h : WorkStep call closed false x x' applied) : ¬ x.Settled := by
  rintro ⟨-, -, hphase⟩
  cases h <;> simp_all

end Sound

/-! ## What no step takes back -/

/-- The worker is behind the call of its function. -/
def Phase.past : Phase ω ε → Bool
  | .created => false
  | .waiting => false
  | .preparing => false
  | _ => true

/-- A later state of the same work. -/
structure Work.Later (x x' : Work π ω ε) : Prop where
  ready : x.ready = true → x'.ready = true ∧ x'.admitted = x.admitted
  prepared : x.prepared = true → x'.prepared = true
  past : x.phase.past = true → x'.phase.past = true
  left : ∀ f, x.phase = .left f → x.admitted = false →
    x'.admitted = false ∧ (x'.phase = .left f ∨ x'.phase = .done)
  done : x.phase = .done →
    x'.phase = .done ∧ x'.admitted = x.admitted ∧ (x.error = none → x'.error = none)

theorem Work.Later.refl (x : Work π ω ε) : x.Later x :=
  ⟨fun h => ⟨h, rfl⟩, id, id, fun _ hf ha => ⟨ha, .inl hf⟩, fun hd => ⟨hd, rfl, id⟩⟩

section Later

variable {call : Call ι π ω ε} {calls : List ℕ} {refusals : List (ℕ × Fault ε)}
  {k : ℕ} {closed cancelled applied : Bool} {x x' : Work π ω ε}

theorem WorkStep.later (h : WorkStep call closed cancelled x x' applied)
    (hx : x.Sound call calls refusals k cancelled) : x.Later x' := by
  have hfits := hx.fits
  unfold Work.Fits at hfits
  cases h with
  | admitted h =>
    rw [h] at hfits
    exact ⟨by simp [hfits.2.1], id, by simp [h, Phase.past], by simp [h], by simp [h]⟩
  | drop h => exact ⟨fun hr => ⟨hr, rfl⟩, id, fun _ => rfl, by simp [h], by simp [h]⟩
  | stopPreparing h => exact ⟨fun hr => ⟨hr, rfl⟩, id, fun _ => rfl, by simp [h], by simp [h]⟩
  | refusePrepared f h => exact ⟨fun hr => ⟨hr, rfl⟩, id, fun _ => rfl, by simp [h], by simp [h]⟩
  | compute h => exact ⟨fun hr => ⟨hr, rfl⟩, id, fun _ => rfl, by simp [h], by simp [h]⟩
  | fail f h => exact ⟨fun hr => ⟨hr, rfl⟩, id, fun _ => rfl, by simp [h], by simp [h]⟩
  | stopComputed v h => exact ⟨fun hr => ⟨hr, rfl⟩, id, fun _ => rfl, by simp [h], by simp [h]⟩
  | publish v h => exact ⟨fun _ => ⟨rfl, rfl⟩, id, fun _ => rfl, by simp [h], by simp [h]⟩
  | stopRetaining h => exact ⟨fun hr => ⟨hr, rfl⟩, id, fun _ => rfl, by simp [h], by simp [h]⟩
  | finish h => exact ⟨fun hr => ⟨hr, rfl⟩, id, fun _ => rfl, by simp [h], by simp [h]⟩
  | exit f g h => exact ⟨fun hr => ⟨hr, rfl⟩, id, fun _ => rfl, by simp [h], by simp [h]⟩
  | conclude f h =>
    exact ⟨fun _ => ⟨rfl, rfl⟩, id, fun _ => rfl, fun g hg ha => ⟨ha, .inr rfl⟩, by simp [h]⟩

/-- A worker that is not submitted, or is behind its end, does nothing. -/
theorem WorkStep.phase (h : WorkStep call closed cancelled x x' applied) :
    x.phase ≠ .created ∧ x.phase ≠ .done := by
  cases h <;> simp_all

theorem Work.released_later (x : Work π ω ε) : x.Later x.released :=
  ⟨fun h => ⟨h, rfl⟩, id, id, fun _ hf ha => ⟨ha, .inl hf⟩, fun hd => ⟨hd, rfl, id⟩⟩

theorem Work.shut_later (x : Work π ω ε) : x.Later x.shut :=
  ⟨fun h => ⟨h, rfl⟩, fun _ => rfl, id, fun _ hf ha => ⟨ha, .inl hf⟩, fun hd => ⟨hd, rfl, id⟩⟩

theorem Work.converted_later (x : Work π ω ε) (v : ω) : x.Later (x.converted v) :=
  ⟨fun h => ⟨h, rfl⟩, id, id, fun _ hf ha => ⟨ha, .inl hf⟩, fun hd => ⟨hd, rfl, fun _ => rfl⟩⟩

theorem Work.preparedWith_later (x : Work π ω ε) (r : Except (Fault ε) (Prepared π ω)) :
    x.Later (x.preparedWith r) := by
  cases r with
  | ok p =>
    exact ⟨fun h => ⟨h, rfl⟩, fun _ => rfl, id, fun _ hf ha => ⟨ha, .inl hf⟩, fun hd => ⟨hd, rfl, id⟩⟩
  | error f =>
    exact ⟨fun h => ⟨h, rfl⟩, fun _ => rfl, id, fun _ hf ha => ⟨ha, .inl hf⟩, fun hd => ⟨hd, rfl, id⟩⟩

theorem Work.submitted_later (hphase : x.phase = .created) :
    x.Later { x with phase := .waiting } :=
  ⟨fun h => ⟨h, rfl⟩, id, by simp [hphase, Phase.past], by simp [hphase], by simp [hphase]⟩

theorem Work.refuse_later (hphase : x.phase = .waiting) (f : Fault ε) :
    x.Later { x with phase := .left (some f) } :=
  ⟨fun h => ⟨h, rfl⟩, id, fun _ => rfl, by simp [hphase], by simp [hphase]⟩

end Later

end Elastic
end Neocortex
