import Neocortex.Elastic.Results

/-!
# Refused admissions

An item whose admission is refused for lack of memory goes to `on_admission_error`: `_prepare_ready`
passes it on, and `__next__` then hands out the value of the callback.  But `__next__` looks at the
same window again behind `_prepare_ready`, and a worker that publishes its refusal in between is
seen there first: its error is raised, and the callback is never asked.

* `Pc.looksBehind`: the places behind the look of `_prepare_ready` at a work.
* `refusal_raised`: the race, on a map over one item.
* `refusals_are_decided`: without it every refusal is decided by the callback.
-/

namespace Neocortex
namespace Elastic

variable {ι π ω ε : Type}

/-- The owner is behind its look at the work `k` in `_prepare_ready`, and looks at it once more in
this turn. -/
def Pc.looksBehind (k : ℕ) : Pc ε → Prop
  | .prepare rest .select => k ∉ rest
  | .select => True
  | .scan _ => True
  | .take j => j = k
  | .errors rest => k ∈ rest
  | _ => False

/-- The refusal of the work is published, and the callback has not seen it. -/
def World.Refused (w : World ι π ω ε) (k : ℕ) : Prop :=
  ∃ x e, w.works[k]? = some x ∧ x.refused e

/-- No worker publishes a refusal between the two looks of the owner. -/
def PromptStep (call : Call ι π ω ε) (w w' : World ι π ω ε) : Prop :=
  Step call w w' ∧ ∀ k, ¬ w.Refused k → w'.Refused k → ¬ w.pc.looksBehind k

/-- The worlds of the runs without such a publication. -/
def PromptReachable (call : Call ι π ω ε) : World ι π ω ε → Prop :=
  Relation.ReflTransGen (PromptStep call) World.initial

variable {call : Call ι π ω ε} {w w' : World ι π ω ε}

theorem PromptReachable.reachable (h : PromptReachable call w) : Reachable call w := by
  induction h with
  | refl => exact .refl
  | tail _ hstep ih => exact ih.tail hstep.1

/-! ## Refused works -/

theorem refused_modify {works : List (Work π ω ε)} {j : ℕ} {f : Work π ω ε → Work π ω ε}
    {k : ℕ} {y : Work π ω ε} {e : ε} (hy : (works.modify j f)[k]? = some y)
    (hrefused : y.refused e) (hf : ∀ x, (f x).refused e → x.refused e) :
    ∃ x, works[k]? = some x ∧ x.refused e := by
  rw [List.getElem?_modify] at hy
  obtain ⟨x, hx, rfl⟩ := Option.map_eq_some_iff.mp hy
  refine ⟨x, hx, ?_⟩
  split at hrefused
  · exact hf x hrefused
  · exact hrefused

theorem preparedWith_refused {x : Work π ω ε} {r : Except (Fault ε) (Prepared π ω)} {e : ε}
    (h : (x.preparedWith r).refused e) : x.refused e := by
  cases r <;> exact h

/-- Only a worker publishes a refusal. -/
theorem Move.refused (h : Move call w w') {k : ℕ} (hk : w'.Refused k) :
    w.Refused k ∨ w'.pc = w.pc := by
  obtain ⟨x, e, hx, hrefused⟩ := hk
  cases h with
  | worker => exact .inr rfl
  | refuse => exact .inr rfl
  | cancel => exact .inr rfl
  | release j =>
    obtain ⟨y, hy, hy'⟩ := refused_modify hx hrefused (fun _ h => h)
    exact .inl ⟨y, e, hy, hy'⟩
  | pull limit phase pc =>
    rw [List.getElem?_append] at hx
    split at hx
    · exact .inl ⟨x, e, hx, hrefused⟩
    · rw [List.getElem?_singleton] at hx
      split at hx
      · rw [← Option.some_inj.mp hx] at hrefused
        cases hrefused.1
      · cases hx
  | submit j n limit =>
    obtain ⟨y, hy, hy'⟩ := refused_modify hx hrefused (fun _ h => h)
    exact .inl ⟨y, e, hy, hy'⟩
  | convert j rest resume y item e' callback v =>
    obtain ⟨y, hy, hy'⟩ := refused_modify hx hrefused (fun _ h => by cases h.2.1)
    exact .inl ⟨y, e, hy, hy'⟩
  | prepare j rest resume y item =>
    obtain ⟨y, hy, hy'⟩ := refused_modify hx hrefused (fun _ h => preparedWith_refused h)
    exact .inl ⟨y, e, hy, hy'⟩
  | unprepare j rest resume y =>
    obtain ⟨y, hy, hy'⟩ := refused_modify hx hrefused (fun _ h => preparedWith_refused h)
    exact .inl ⟨y, e, hy, hy'⟩
  | shut ending hpc =>
    rw [List.getElem?_mapIdx] at hx
    obtain ⟨y, hy, rfl⟩ := Option.map_eq_some_iff.mp hx
    refine .inl ⟨y, e, hy, ?_⟩
    split at hrefused
    · exact hrefused
    · exact hrefused
  | _ => exact .inl ⟨x, e, hx, hrefused⟩

theorem not_looksBehind_back (back : Back) (k : ℕ) : ¬ (back.pc : Pc ε).looksBehind k := by
  cases back <;> exact id

theorem not_looksBehind_afterSubmit (j limit k : ℕ) :
    ¬ (call.afterSubmit j limit : Pc ε).looksBehind k := by
  unfold Call.afterSubmit
  split <;> exact id

/-- In the loop of `_prepare_ready`, behind a work that is not refused. -/
theorem not_looksBehind_rest {rest : List ℕ} {resume : Resume} {j k : ℕ} (hjk : k ≠ j)
    (hlook : ¬ (Pc.prepare (j :: rest) resume : Pc ε).looksBehind k) :
    ¬ (Pc.prepare rest resume : Pc ε).looksBehind k := by
  cases resume with
  | select =>
    intro hrest
    exact hlook (List.not_mem_cons_of_ne_of_not_mem hjk hrest)
  | pendingLoop limit => exact id
  | submitted i back => exact id

theorem ne_of_refused {j k : ℕ} {x : Work π ω ε} (hk : w.Refused k) (hx : w.works[j]? = some x)
    (h : ∀ e, ¬ x.refused e) : k ≠ j := by
  rintro rfl
  obtain ⟨y, e, hy, hrefused⟩ := hk
  obtain rfl : x = y := Option.some_inj.mp (hx.symm.trans hy)
  exact h e hrefused

/-- The owner comes behind a look at a work only if it did not find its refusal. -/
theorem Step.looksBehind (h : Step call w w') (hcallback : call.onAdmissionError.isSome = true)
    {k : ℕ} (hk : w.Refused k) (hk' : w'.Refused k) (hpending : k ∈ w.pending)
    (hlook : ¬ w.pc.looksBehind k) : ¬ w'.pc.looksBehind k := by
  cases h with
  | worker => exact hlook
  | refuse => exact hlook
  | cancel => exact hlook
  | fillStops => exact fun hrest => hrest hpending
  | sourceEnds => exact fun hrest => hrest hpending
  | admissionYields => exact fun hrest => hrest hpending
  | readyYields => exact fun hrest => hrest hpending
  | pull => exact not_looksBehind_afterSubmit _ _ _
  | refilled => exact not_looksBehind_afterSubmit _ _ _
  | readySeen => exact not_looksBehind_back _ _
  | prepareReady => exact not_looksBehind_back _ _
  | convert j rest resume x item e callback v hpc hx =>
    rw [hpc] at hlook
    refine not_looksBehind_rest ?_ hlook
    rintro rfl
    obtain ⟨y, e, hy, hrefused⟩ := hk'
    have hy' : (w.works.modify k (Work.converted · v))[k]? = some y := hy
    rw [List.getElem?_modify_eq, hx] at hy'
    obtain rfl : x.converted v = y := Option.some_inj.mp hy'
    cases hrefused.2.1
  | prepareWork j rest resume x item hpc hx hprepared hadmitted =>
    rw [hpc] at hlook
    refine not_looksBehind_rest (ne_of_refused hk hx fun e hrefused => ?_) hlook
    cases hadmitted.symm.trans hrefused.2.2
  | prepareCancelled j rest resume x hpc hx hprepared hadmitted =>
    rw [hpc] at hlook
    refine not_looksBehind_rest (ne_of_refused hk hx fun e hrefused => ?_) hlook
    cases hadmitted.symm.trans hrefused.2.2
  | prepareSkip j rest resume x hpc hx hseen hrefused =>
    rw [hpc] at hlook
    exact not_looksBehind_rest (ne_of_refused hk hx (hrefused hcallback)) hlook
  | prepareSelect hpc =>
    rw [hpc] at hlook
    exact absurd List.not_mem_nil hlook
  | selectScan hpc =>
    rw [hpc] at hlook
    exact absurd trivial hlook
  | selectHead j rest x hpc =>
    rw [hpc] at hlook
    exact absurd trivial hlook
  | selectWaits j rest x hpc =>
    rw [hpc] at hlook
    exact absurd trivial hlook
  | selectNothing hpc =>
    rw [hpc] at hlook
    exact absurd trivial hlook
  | scanHit j rest x hpc =>
    rw [hpc] at hlook
    exact absurd trivial hlook
  | scanMiss j rest x hpc =>
    rw [hpc] at hlook
    exact absurd trivial hlook
  | scanEnds hpc =>
    rw [hpc] at hlook
    exact absurd trivial hlook
  | errorMiss j rest x hpc =>
    rw [hpc] at hlook
    exact fun hrest => hlook (List.mem_cons_of_mem j hrest)
  | _ => exact id

/-! ## Runs without the race -/

/-- What holds of the refusals of a map without the race. -/
structure World.Decided (w : World ι π ω ε) : Prop where
  /-- The owner finds every refusal in `_prepare_ready`. -/
  looks : w.closed = false → ∀ k, w.Refused k → ¬ w.pc.looksBehind k
  /-- A work that was refused is handed out without an error. -/
  handed : ∀ k ∈ w.yielded.map Prod.fst ++ w.inHand, ∃ x, w.works[k]? = some x ∧ x.ready = true ∧
    (x.admitted = false → x.error = none)
  releasing : ∀ k, w.pc = .releasing k → k ∈ w.yielded.map Prod.fst
  raised : ∀ k f, w.ending = some (.item k f) → ∃ x, w.works[k]? = some x ∧ x.ready = true ∧
    ∀ e, (k, .memory e) ∉ w.refusals

theorem World.Decided.initial : (World.initial : World ι π ω ε).Decided := by
  constructor <;> simp [World.initial, World.ending, World.inHand]
  · rintro k ⟨x, e, hx, -⟩
    simp at hx

/-- A published work without an admission is behind its worker. -/
theorem Work.Sound.done_of_ready {calls : List ℕ} {refusals : List (ℕ × Fault ε)} {k : ℕ}
    {cancelled : Bool} {x : Work π ω ε} (h : x.Sound call calls refusals k cancelled)
    (hready : x.ready = true) (hadmitted : x.admitted = false) : x.phase = .done := by
  have hfits := h.fits
  unfold Work.Fits at hfits
  cases hphase : x.phase with
  | done => rfl
  | created => simp_all [Work.Fresh]
  | waiting => simp_all [Work.Fresh]
  | preparing => simp_all
  | computed r => simp_all
  | retaining => simp_all
  | leaving f => simp_all
  | left f => simp_all

/-- A refused work of an open map is in its window. -/
theorem World.Decided.mem_pending (hw : w.Decided) (hline : w.Line call) (hopen : w.closed = false)
    {k : ℕ} (hk : w.Refused k) : k ∈ w.pending := by
  obtain ⟨x, e, hx, hrefused⟩ := hk
  have hmem : k ∈ w.line := by
    rw [(hline.arranged hopen).perm.mem_iff, List.mem_range]
    exact (List.getElem?_eq_some_iff.mp hx).1
  obtain hgiven | hpending := List.mem_append.mp hmem
  · obtain ⟨y, hy, -, herror⟩ := hw.handed k hgiven
    obtain rfl : x = y := Option.some_inj.mp (hx.symm.trans hy)
    cases hrefused.2.1.symm.trans (herror hrefused.2.2)
  · exact hpending

theorem PromptStep.looks (h : PromptStep call w w')
    (hcallback : call.onAdmissionError.isSome = true) (hsound : w.Sound call)
    (hw : w.Decided) (hopen' : w'.closed = false) (k : ℕ) (hk' : w'.Refused k) :
    ¬ w'.pc.looksBehind k := by
  obtain ⟨hstep, hprompt⟩ := h
  have hopen : w.closed = false := by
    by_contra hclosed
    have := hstep.closed hsound.control (by simpa using hclosed)
    rw [this.1] at hopen'
    cases hopen'
  by_cases hk : w.Refused k
  · exact hstep.looksBehind hcallback hk hk' (hw.mem_pending hsound.line hopen hk)
      (hw.looks hopen k hk)
  · obtain hold | hpc := (hstep.move hsound.control).refused hk'
    · exact absurd hold hk
    · rw [hpc]
      exact hprompt k hk hk'

theorem mem_given_of_inHand {k : ℕ} (hk : k ∈ w'.yielded.map Prod.fst ++ w'.inHand)
    (hyielded : w'.yielded = w.yielded) (hhand : w'.inHand = []) :
    k ∈ w.yielded.map Prod.fst ++ w.inHand := by
  rw [hyielded, hhand, List.append_nil] at hk
  exact List.mem_append_left _ hk

/-- A work comes into the hand of the owner without an error. -/
theorem Move.mem_given (h : Move call w w') {k : ℕ}
    (hk : k ∈ w'.yielded.map Prod.fst ++ w'.inHand) :
    k ∈ w.yielded.map Prod.fst ++ w.inHand ∨
      ∃ x, w.pc = .take k ∧ w.works[k]? = some x ∧ x.error = none := by
  cases h with
  | worker => exact .inl hk
  | refuse => exact .inl hk
  | cancel => exact .inl hk
  | walk pc n hopen hleft hplain =>
    exact .inl (mem_given_of_inHand hk rfl (inHand_eq_nil (ne_giving_of_plain hplain)))
  | pull limit phase pc hopen hfrom hmore hroom hitem hphase =>
    refine .inl (mem_given_of_inHand hk rfl (inHand_eq_nil fun j => ?_))
    obtain ⟨-, rfl⟩ | ⟨-, rfl⟩ := hphase
    · exact ne_giving_of_plain (afterSubmit_plain _ _) j
    · simp
  | submit j n limit =>
    exact .inl (mem_given_of_inHand hk rfl
      (inHand_eq_nil (ne_giving_of_plain (afterSubmit_plain _ _))))
  | take j x hopen hfrom hcancel hx herror =>
    obtain hk | hk := List.mem_append.mp hk
    · exact .inl (List.mem_append_left _ hk)
    · obtain rfl : k = j := List.mem_singleton.mp hk
      exact .inr ⟨x, hfrom, hx, herror⟩
  | give j x hopen hfrom =>
    left
    rw [World.inHand, hfrom]
    simpa [World.inHand] using hk
  | _ => exact .inl (mem_given_of_inHand hk rfl rfl)

/-- The works that were handed out, or are in hand. -/
theorem Move.handed (h : Move call w w') (hworks : w.Works call) (hplace : w.Place call)
    (hw : w.Decided) (k : ℕ) (hk : k ∈ w'.yielded.map Prod.fst ++ w'.inHand) :
    ∃ x, w'.works[k]? = some x ∧ x.ready = true ∧ (x.admitted = false → x.error = none) := by
  have hnow : ∃ x, w.works[k]? = some x ∧ x.ready = true ∧
      (x.admitted = false → x.error = none) := by
    obtain hk | ⟨x, hpc, hx, herror⟩ := h.mem_given hk
    · exact hw.handed k hk
    · rw [World.Place, hpc] at hplace
      obtain ⟨y, hy, hready⟩ := hplace.2.1
      obtain rfl : x = y := Option.some_inj.mp (hx.symm.trans hy)
      exact ⟨x, hx, hready, fun _ => herror⟩
  obtain ⟨x, hx, hready, herror⟩ := hnow
  obtain ⟨x', hx', hlater⟩ := h.later hworks k x hx
  obtain ⟨hready', hsame⟩ := hlater.ready hready
  refine ⟨x', hx', hready', fun hadmitted => ?_⟩
  rw [hsame] at hadmitted
  have hdone := (hworks.sound k x hx).done_of_ready hready hadmitted
  exact (hlater.done hdone).2.2 (herror hadmitted)

theorem Step.releasing (h : Step call w w') (hline : w.Line call) (hw : w.Decided) (k : ℕ)
    (hpc : w'.pc = .releasing k) : k ∈ w'.yielded.map Prod.fst := by
  have hback : ∀ back : Back, (back.pc : Pc ε) ≠ .releasing k := by
    rintro (_ | _) <;> simp [Back.pc]
  have hsubmit : ∀ j limit, (call.afterSubmit j limit : Pc ε) ≠ .releasing k := by
    intro j limit
    unfold Call.afterSubmit
    split <;> simp
  cases h with
  | worker => exact hw.releasing k hpc
  | refuse => exact hw.releasing k hpc
  | cancel => exact hw.releasing k hpc
  | nextReleases j hidle hopen hcurrent =>
    obtain rfl : j = k := by simpa using hpc
    have hmem := hline.current hopen j hcurrent
    rw [World.inHand, hidle, List.append_nil] at hmem
    exact hmem
  | pull => exact absurd hpc (hsubmit _ _)
  | refilled => exact absurd hpc (hsubmit _ _)
  | readySeen => exact absurd hpc (hback _)
  | prepareReady => exact absurd hpc (hback _)
  | _ => cases hpc

/-- Where `__next__` raises the error of an item. -/
theorem Step.raises (h : Step call w w') (hcontrol : w.Control) {k : ℕ} {f : Fault ε}
    (hending : w'.ending = some (.item k f)) : w.ending = some (.item k f) ∨
      w'.works = w.works ∧ w'.refusals = w.refusals ∧
      ∃ x, w.works[k]? = some x ∧ x.error = some f ∧
        (w.pc = .releasing k ∨ w.pc = .take k ∨ x.ready = true ∧ ∃ rest, w.pc = .errors (k :: rest)) := by
  have hclosed' : w'.closed = true := by
    rw [((h.move hcontrol).control hcontrol).closed, hending]
    rfl
  by_cases hclosed : w.closed = true
  · obtain ⟨hopen, -⟩ | ⟨hsame, -⟩ | ⟨_, -, -, -, hopen, -⟩ := (h.move hcontrol).ending
    · simp [hopen] at hclosed'
    · exact .inl (hsame ▸ hending)
    · simp [hopen] at hclosed
  cases h with
  | releasedError j x g hpc hx hfinished herror =>
    obtain ⟨rfl, rfl⟩ : j = k ∧ g = f := by simpa [World.ending, World.beginClose] using hending
    exact .inr ⟨rfl, rfl, x, hx, herror, .inl hpc⟩
  | takeError j x g hpc hcancel hx herror =>
    obtain ⟨rfl, rfl⟩ : j = k ∧ g = f := by simpa [World.ending, World.beginClose] using hending
    exact .inr ⟨rfl, rfl, x, hx, herror, .inr (.inl hpc)⟩
  | errorHit j rest x g hpc hx hready herror =>
    obtain ⟨rfl, rfl⟩ : j = k ∧ g = f := by simpa [World.ending, World.beginClose] using hending
    exact .inr ⟨rfl, rfl, x, hx, herror, .inr (.inr ⟨hready, rest, hpc⟩)⟩
  | _ => first | exact absurd hclosed' hclosed | simp [World.ending, World.beginClose] at hending

/-- A new refusal is of a work that has nothing published. -/
theorem Move.refusals (h : Move call w w') (hworks : w.Works call) {k : ℕ} {x : Work π ω ε}
    (hx : w.works[k]? = some x) (hready : x.ready = true) {f : Fault ε}
    (hk : (k, f) ∈ w'.refusals) : (k, f) ∈ w.refusals := by
  cases h with
  | refuse j y g hy hwaiting =>
    obtain hk | hk := List.mem_append.mp hk
    · exact hk
    · obtain ⟨rfl, rfl⟩ : k = j ∧ f = g := by simpa using hk
      obtain rfl : x = y := Option.some_inj.mp (hx.symm.trans hy)
      have hfits := (hworks.sound k x hx).fits
      rw [Work.Fits, hwaiting] at hfits
      cases hready.symm.trans hfits.2.1
  | _ => exact hk

/-- The error of a refused work is its refusal. -/
theorem World.Sound.error_of_refusal (h : w.Sound call) {k : ℕ} {x : Work π ω ε} {e : ε} {f : Fault ε}
    (hx : w.works[k]? = some x) (hk : (k, .memory e) ∈ w.refusals) (herror : x.error = some f) :
    x.admitted = false ∧ f = .memory e := by
  obtain ⟨y, hy, hadmitted, -⟩ := h.logs.isRefused _ hk
  obtain rfl : x = y := Option.some_inj.mp (hx.symm.trans hy)
  have hsound := h.works.sound k x hx
  have hfits := hsound.fits
  rw [Work.Fits, hsound.phase_of_error herror] at hfits
  have hmem := hfits.2.2 hadmitted f herror
  have hsame := List.inj_on_of_nodup_map h.logs.refusals hk hmem rfl
  exact ⟨hadmitted, (Prod.mk.inj hsame).2.symm⟩

/-- `__next__` raises no refusal. -/
theorem PromptStep.raised (h : PromptStep call w w') (hsound : w.Sound call) (hw : w.Decided)
    (k : ℕ) (f : Fault ε) (hending : w'.ending = some (.item k f)) :
    ∃ x, w'.works[k]? = some x ∧ x.ready = true ∧ ∀ e, (k, .memory e) ∉ w'.refusals := by
  have hmove := h.1.move hsound.control
  obtain hold | ⟨hworks, hrefusals, x, hx, herror, hpc⟩ := h.1.raises hsound.control hending
  · obtain ⟨x, hx, hready, hnone⟩ := hw.raised k f hold
    obtain ⟨x', hx', hlater⟩ := hmove.later hsound.works k x hx
    exact ⟨x', hx', (hlater.ready hready).1, fun e he =>
      hnone e (hmove.refusals hsound.works hx hready he)⟩
  · have hopen : w.closed = false := hsound.control.open_of_running (by
      obtain hpc | hpc | ⟨-, _, hpc⟩ := hpc <;> rw [hpc] <;> rfl)
    have hready : x.ready = true := by
      obtain hpc | hpc | ⟨hready, -⟩ := hpc
      · obtain ⟨y, hy, hready, -⟩ := hw.handed k (List.mem_append_left _ (hw.releasing k hpc))
        obtain rfl : x = y := Option.some_inj.mp (hx.symm.trans hy)
        exact hready
      · have hplace := hsound.place
        rw [World.Place, hpc] at hplace
        obtain ⟨y, hy, hready⟩ := hplace.2.1
        obtain rfl : x = y := Option.some_inj.mp (hx.symm.trans hy)
        exact hready
      · exact hready
    rw [hworks, hrefusals]
    refine ⟨x, hx, hready, fun e he => ?_⟩
    obtain ⟨hadmitted, rfl⟩ := hsound.error_of_refusal hx he herror
    have hrefused : w.Refused k := ⟨x, e, hx, hready, herror, hadmitted⟩
    have hlook := hw.looks hopen k hrefused
    obtain hpc | hpc | ⟨-, rest, hpc⟩ := hpc
    · -- a work that was handed out has no error to raise
      obtain ⟨y, hy, -, hnone⟩ := hw.handed k (List.mem_append_left _ (hw.releasing k hpc))
      obtain rfl : x = y := Option.some_inj.mp (hx.symm.trans hy)
      cases herror.symm.trans (hnone hadmitted)
    · rw [hpc] at hlook
      exact hlook rfl
    · rw [hpc] at hlook
      exact hlook List.mem_cons_self

theorem PromptStep.decided (h : PromptStep call w w')
    (hcallback : call.onAdmissionError.isSome = true) (hsound : w.Sound call) (hw : w.Decided) :
    w'.Decided where
  looks := h.looks hcallback hsound hw
  handed := (h.1.move hsound.control).handed hsound.works hsound.place hw
  releasing := h.1.releasing hsound.line hw
  raised := h.raised hsound hw

theorem PromptReachable.decided (hcallback : call.onAdmissionError.isSome = true)
    (h : PromptReachable call w) : w.Decided := by
  induction h with
  | refl => exact .initial
  | tail hrun hstep ih =>
    exact hstep.decided hcallback (PromptReachable.reachable hrun).sound ih

/-- What the callback makes of a refusal is what the map hands out. -/
theorem World.Sound.value_of_refusal (h : w.Sound call) {k : ℕ} {e : ε} {v : ω}
    (hk : (k, .memory e) ∈ w.refusals) (hv : (k, some v) ∈ w.yielded) :
    k ∈ w.callbackLog ∧ ∃ item callback, call.items[k]? = some item ∧
      call.onAdmissionError = some callback ∧ callback item e = .ok v := by
  obtain ⟨x, hx, -, hgives⟩ := h.given.values _ hv
  obtain ⟨y, hy, hadmitted, -⟩ := h.logs.isRefused _ hk
  obtain rfl : x = y := Option.some_inj.mp (hx.symm.trans hy)
  obtain ⟨item, hitem, -, hcallback⟩ := hgives v rfl
  obtain ⟨hmem, e', callback, he', hcall, hvalue⟩ := hcallback hadmitted
  have hsame := List.inj_on_of_nodup_map h.logs.refusals hk he' rfl
  obtain rfl : e = e' := by simpa using hsame
  exact ⟨hmem, item, callback, hitem, hcall, hvalue⟩

/-- A map that is exhausted has handed out every refused item. -/
theorem World.Sound.handed_of_exhausted (h : w.Sound call) {k : ℕ} {f : Fault ε}
    (hk : (k, f) ∈ w.refusals) (hended : w.ended = some .exhausted) :
    ∃ v, (k, some v) ∈ w.yielded := by
  obtain ⟨x, hx, -⟩ := h.logs.isRefused _ hk
  have hlt : k < call.items.length :=
    lt_of_lt_of_le (List.getElem?_eq_some_iff.mp hx).1 h.works.count
  have hmem : k ∈ w.yielded.map Prod.fst := by
    rw [(h.given.complete (h.control.ending_of_ended hended)).perm.mem_iff, List.mem_range]
    exact hlt
  obtain ⟨y, hy, rfl⟩ := List.mem_map.mp hmem
  obtain ⟨v, -, hv, -⟩ := h.isResult hended rfl y hy
  exact ⟨v, hv ▸ hy⟩

/-- **Refusals are decided by the callback**, in every run in which no worker publishes a refusal
between the two looks of the owner.  The callback is asked at most once for an item, and a refused
item is never raised: its value is the callback's, at its place, and a map that is exhausted has
handed all of them out. -/
theorem refusals_are_decided (call : Call ι π ω ε)
    (hcallback : call.onAdmissionError.isSome = true) (w : World ι π ω ε)
    (h : PromptReachable call w) :
    w.callbackLog.Nodup ∧
    (call.completionOrder = false → w.yielded.map Prod.fst = List.range w.yielded.length) ∧
    ∀ k e, (k, .memory e) ∈ w.refusals →
      (∀ f, w.ending ≠ some (.item k f)) ∧
      ((k, none) ∈ w.yielded → w.cancelled = true) ∧
      (∀ v, (k, some v) ∈ w.yielded → k ∈ w.callbackLog ∧
        ∃ item callback, call.items[k]? = some item ∧ call.onAdmissionError = some callback ∧
          callback item e = .ok v) ∧
      (w.ended = some .exhausted → ∃ v, (k, some v) ∈ w.yielded) := by
  have hsound := h.reachable.sound
  refine ⟨hsound.logs.callbackLog, hsound.given.ordered, fun k e hk => ⟨fun f hf => ?_, ?_, ?_, ?_⟩⟩
  · obtain ⟨_, _, _, hnone⟩ := (h.decided hcallback).raised k f hf
    exact hnone e hk
  · exact fun hnone => hsound.given.missing _ hnone rfl
  · exact fun v hv => hsound.value_of_refusal hk hv
  · exact hsound.handed_of_exhausted hk

/-- A map over one number whose memory may be refused. -/
def refusing : Call ℕ ℕ ℕ ℕ where
  items := [7]
  prepare n := .ok (.payload n)
  function n := .ok (n + 1)
  onAdmissionError := some fun _ e => .ok e
  gated := true
  coordinated := false
  callableEstimate := false
  completionOrder := false

/-- A step of the owner publishes nothing. -/
theorem PromptReachable.owner (h : PromptReachable call w) (hstep : Step call w w')
    (hpc : w'.pc ≠ w.pc) : PromptReachable call w' := by
  refine h.tail ⟨hstep, fun k hk hk' => ?_⟩
  obtain hold | hsame := (hstep.move h.reachable.sound.control).refused hk'
  · exact absurd hold hk
  · exact absurd hsame hpc

/-- A step of a worker that the owner does not miss. -/
theorem PromptReachable.seen (h : PromptReachable call w) (hstep : Step call w w')
    (hpc : ∀ k, ¬ w.pc.looksBehind k) : PromptReachable call w' :=
  h.tail ⟨hstep, fun k _ _ => hpc k⟩

/-- The refusal is published in front of `_prepare_ready`. -/
theorem refusing_prompt : ∃ w, PromptReachable refusing w ∧ (0, .memory 3) ∈ w.refusals ∧
    w.ended = some .exhausted := by
  have h : PromptReachable refusing World.initial := .refl
  replace h := h.seen (.next rfl rfl rfl) (fun _ => id)
  replace h := h.seen (.checkpoint rfl rfl) (fun _ => id)
  replace h := h.seen (.reported (some 1) 1 rfl rfl (.inl rfl)) (fun _ => id)
  replace h := h.seen (.pull 1 rfl rfl (by decide) rfl (by decide) rfl) (fun _ => id)
  replace h := h.seen (.refuse 0 _ (.memory 3) rfl rfl) (fun _ => id)
  replace h := h.seen (.worker 0 _ _ _ rfl (.conclude _ rfl)) (fun _ => id)
  replace h := h.seen (.fillStops 1 rfl (.inr (.inl le_rfl))) (fun _ => id)
  replace h := h.owner (.convert 0 [] .select _ 7 3 _ 3 rfl rfl ⟨rfl, rfl, rfl⟩ rfl rfl rfl rfl)
    (fun hpc => by cases hpc)
  replace h := h.owner (.prepareSelect rfl) (fun hpc => by cases hpc)
  replace h := h.owner (.selectHead 0 [] _ rfl rfl rfl rfl rfl) (fun hpc => by cases hpc)
  replace h := h.owner (.takeValue 0 _ rfl rfl rfl rfl) (fun hpc => by cases hpc)
  replace h := h.seen (.give 0 _ rfl rfl) (fun _ => id)
  replace h := h.seen (.nextReleases 0 rfl rfl rfl) (fun _ => id)
  replace h := h.seen (.released 0 _ rfl rfl rfl (.inl rfl)) (fun _ => id)
  replace h := h.seen (.checkpoint rfl rfl) (fun _ => id)
  replace h := h.seen (.reported (some 1) 1 rfl rfl (.inl rfl)) (fun _ => id)
  replace h := h.seen (.sourceEnds 1 rfl rfl (by decide) rfl (by decide)) (fun _ => id)
  replace h := h.owner (.prepareSelect rfl) (fun hpc => by cases hpc)
  replace h := h.owner (.exhaust rfl rfl rfl) (fun hpc => by cases hpc)
  replace h := h.seen (.shut _ rfl) (fun _ => id)
  replace h := h.seen (.drained _ rfl (List.forall_mem_singleton.mpr (.inl rfl))) (fun _ => id)
  exact ⟨_, h, List.mem_singleton.mpr rfl, rfl⟩

theorem refusals_are_decided_refusing : ∃ w, PromptReachable refusing w ∧
    (0, .memory 3) ∈ w.refusals ∧ w.ended = some .exhausted ∧ 0 ∈ w.callbackLog ∧
    (0, some 3) ∈ w.yielded := by
  obtain ⟨w, h, hmem, hended⟩ := refusing_prompt
  obtain ⟨-, -, hall⟩ := refusals_are_decided refusing rfl w h
  obtain ⟨-, -, hvalue, hexhausted⟩ := hall 0 3 hmem
  obtain ⟨v, hv⟩ := hexhausted hended
  obtain ⟨hcalls, item, callback, -, hcallback, hok⟩ := hvalue v hv
  obtain rfl : (fun _ e => .ok e) = callback := Option.some_inj.mp hcallback
  obtain rfl : 3 = v := by simpa using hok
  exact ⟨w, h, hmem, hended, hcalls, hv⟩

/-- **A refusal is raised.**  The worker publishes it behind `_prepare_ready`: the map is open and not
cancelled, the next step raises the error of the item, and the callback was not asked. -/
theorem refusal_raised : ∃ w w', Reachable refusing w ∧ w.closed = false ∧ w.cancelled = false ∧
    Step refusing w w' ∧ (0, .memory 3) ∈ w'.refusals ∧
    w'.ending = some (.item 0 (.memory 3)) ∧ w'.callbackLog = [] := by
  have h : Reachable refusing World.initial := .refl
  replace h := h.tail (.next rfl rfl rfl)
  replace h := h.tail (.checkpoint rfl rfl)
  replace h := h.tail (.reported (some 1) 1 rfl rfl (.inl rfl))
  replace h := h.tail (.pull 1 rfl rfl (by decide) rfl (by decide) rfl)
  replace h := h.tail (.fillStops 1 rfl (.inr (.inl le_rfl)))
  replace h := h.tail (.prepareSkip 0 [] .select _ rfl rfl (.inr (.inl rfl))
    (fun _ _ hrefused => by cases hrefused.1))
  replace h := h.tail (.prepareSelect rfl)
  replace h := h.tail (.refuse 0 _ (.memory 3) rfl rfl)
  replace h := h.tail (.worker 0 _ _ _ rfl (.conclude _ rfl))
  replace h := h.tail (.selectHead 0 [] _ rfl rfl rfl rfl rfl)
  exact ⟨_, _, h, rfl, rfl, .takeError 0 _ (.memory 3) rfl rfl rfl rfl, List.mem_singleton.mpr rfl,
    rfl, rfl⟩

end Elastic
end Neocortex
