import Neocortex.Elastic.Works

/-!
# What a step of a map can do

Most steps of the owner only move it to its next place.  `Move` says what the others do, without the
places in between: a work is pulled, submitted, prepared, converted, taken, given or released, and a
map is closed and drained.  `Step.move` is the inversion every invariant goes through.

* `World.Control`: a map is closed exactly when its owner is on the way to an end or behind one.
* `Step.move`, `Move.control`: the moves, and that they keep the flags.
-/

namespace Neocortex
namespace Elastic

variable {ι π ω ε : Type}

/-! ## Open and closed maps -/

/-- How the map ends or has ended. -/
def World.ending (w : World ι π ω ε) : Option (Ending ε) :=
  match w.pc with
  | .closing ending => some ending
  | .draining ending => some ending
  | _ => w.ended

/-- Places inside `__next__`. -/
def Pc.running : Pc ε → Bool
  | .idle => false
  | .closing _ => false
  | .draining _ => false
  | _ => true

/-- Places between the checkpoint of a turn of `__next__` and its end. -/
def Pc.checked : Pc ε → Bool
  | .releasing _ => false
  | .top => false
  | pc => pc.running

/-- Places inside `__next__` with no work in hand. -/
def Pc.plain : Pc ε → Bool
  | .refill _ => false
  | .giving _ => false
  | pc => pc.running

/-- The flags of a map and the place of its owner. -/
structure World.Control (w : World ι π ω ε) : Prop where
  closed : w.closed = w.ending.isSome
  ended : w.ended.isSome = true → w.pc = .idle
  cancelled : w.closed = true → w.cancelled = true

section Control

variable {w : World ι π ω ε}

theorem World.Control.ended_of_open (h : w.Control) (hopen : w.closed = false) :
    w.ended = none := by
  by_contra hne
  have hpc := h.ended (Option.isSome_iff_ne_none.mpr hne)
  have hclosed := h.closed
  rw [hopen, World.ending, hpc] at hclosed
  exact hne (by simpa using hclosed.symm)

theorem World.Control.open_of_running (h : w.Control) (hpc : w.pc.running = true) :
    w.closed = false := by
  have hended : w.ended = none := by
    by_contra hne
    have := h.ended (Option.isSome_iff_ne_none.mpr hne)
    simp [this, Pc.running] at hpc
  rw [h.closed, World.ending]
  split <;> simp_all [Pc.running]

theorem World.Control.of_running (hopen : w.closed = false) (hended : w.ended = none)
    (hpc : w.pc.running = true) : w.Control := by
  refine ⟨?_, by simp [hended], by simp [hopen]⟩
  rw [hopen, World.ending]
  split <;> simp_all [Pc.running]

theorem World.Control.initial : (World.initial : World ι π ω ε).Control :=
  ⟨rfl, by simp [World.initial], by simp [World.initial]⟩

end Control

/-! ## The moves -/

/-- What a step does. -/
inductive Move (call : Call ι π ω ε) : World ι π ω ε → World ι π ω ε → Prop where
  | worker {w} (k x x' applied) (hx : w.works[k]? = some x)
      (h : WorkStep call w.closed w.cancelled x x' applied) : Move call w
        { w with
          works := w.works.set k x'
          functionLog := if applied then w.functionLog ++ [k] else w.functionLog }
  | refuse {w} (k x f) (hx : w.works[k]? = some x) (hwaiting : x.phase = .waiting) : Move call w
      { w with
        works := w.works.set k { x with phase := .left (some f) }
        refusals := w.refusals ++ [(k, f)] }
  | cancel {w} : Move call w { w with cancelled := true }
  /-- The owner goes on; a target may be reported on the way. -/
  | walk {w} (pc n) (hopen : w.closed = false) (hleft : ∀ k, w.pc ≠ .giving k)
      (hpc : pc.plain = true) (hn : w.largest ≤ n)
      (hchecked : pc.checked = true → w.pc.checked = true ∨ w.cancelled = false) :
      Move call w { w with pc := pc, largest := n }
  | exhaust {w} (limit resume) (hopen : w.closed = false) (hfrom : w.pc = .fillLoop limit)
      (hend : call.items.length ≤ w.works.length) :
      Move call w (World.toPrepare { w with exhausted := true } resume)
  | release {w} (k) (hpc : w.pc = .idle) (hopen : w.closed = false) (hcurrent : w.current = some k) :
      Move call w { w.modify k Work.released with current := none, pc := .releasing k }
  | pull {w} (limit phase pc) (hopen : w.closed = false) (hfrom : w.pc = .fillLoop limit)
      (hmore : w.exhausted = false) (hroom : w.pending.length < limit)
      (hitem : w.works.length < call.items.length)
      (hphase : phase = .waiting ∧ pc = call.afterSubmit w.works.length limit ∨
        phase = .created ∧ pc = .refill w.works.length) :
      Move call w { w with
        works := w.works ++ [Work.new phase]
        pending := w.pending ++ [w.works.length]
        pc := pc }
  | submit {w} (k n limit) (hopen : w.closed = false) (hfrom : w.pc = .refill k)
      (hn : w.largest ≤ n) :
      Move call w { w.modify k (fun x => { x with phase := .waiting }) with
        pc := call.afterSubmit k limit
        largest := n }
  | convert {w} (k rest resume x item e callback v) (hopen : w.closed = false)
      (hfrom : w.pc = .prepare (k :: rest) resume)
      (hx : w.works[k]? = some x) (hrefused : x.refused e)
      (hcallback : call.onAdmissionError = some callback) (hcancel : w.cancelled = false)
      (hitem : call.items[k]? = some item) (hvalue : callback item e = .ok v) :
      Move call w { w.modify k (Work.converted · v) with
        pc := .prepare rest resume
        callbackLog := w.callbackLog ++ [k] }
  | prepare {w} (k rest resume x item) (hopen : w.closed = false)
      (hfrom : w.pc = .prepare (k :: rest) resume)
      (hx : w.works[k]? = some x) (hprepared : x.prepared = false) (hadmitted : x.admitted = true)
      (hready : x.ready = false) (hitem : call.items[k]? = some item) :
      Move call w { w.modify k (Work.preparedWith · (call.prepare item)) with
        pc := .prepare rest resume
        prepareLog := w.prepareLog ++ [k] }
  /-- A cancelled map prepares its works with an error. -/
  | unprepare {w} (k rest resume x) (hopen : w.closed = false)
      (hfrom : w.pc = .prepare (k :: rest) resume)
      (hx : w.works[k]? = some x) (hprepared : x.prepared = false) (hadmitted : x.admitted = true) :
      Move call w { w.modify k (Work.preparedWith · (.error .cancelled)) with
        pc := .prepare rest resume }
  | take {w} (k x) (hopen : w.closed = false) (hfrom : w.pc = .take k) (hcancel : w.cancelled = false)
      (hx : w.works[k]? = some x) (herror : x.error = none) :
      Move call w { w with
        pending := w.pending.erase k
        current := some k
        pc := .giving k }
  | give {w} (k x) (hopen : w.closed = false) (hfrom : w.pc = .giving k) (hx : w.works[k]? = some x) :
      Move call w { w with yielded := w.yielded ++ [(k, x.value)], pc := .idle }
  /-- The map is closed, with an error or without one. -/
  | stop {w} (pending current calls ending) (hopen : w.closed = false)
      (hcalls : calls = w.callbackLog ∨ ∃ k x e, calls = w.callbackLog ++ [k] ∧
        w.works[k]? = some x ∧ x.refused e)
      (hend : ending = .exhausted → w.pc = .select ∧ w.pending = [] ∧ w.exhausted = true)
      (hitem : ∀ k f, ending = .item k f → w.pc.checked = true ∨ w.cancelled = false) :
      Move call w (World.beginClose
        { w with pending := pending, current := current, callbackLog := calls } ending)
  | shut {w} (ending) (hpc : w.pc = .closing ending) : Move call w
      { w with
        works := w.works.mapIdx fun k x =>
          if k ∈ w.pending ∨ w.current = some k then x.shut else x
        pc := .draining ending }
  | drained {w} (ending) (hpc : w.pc = .draining ending)
      (hdone : ∀ x ∈ w.works, x.phase = .done ∨ x.phase = .created) : Move call w
      { w with pending := [], current := none, pc := .idle, ended := some ending }

section Moves

variable {call : Call ι π ω ε} {w w' : World ι π ω ε}

theorem running_of_plain {pc : Pc ε} (h : pc.plain = true) : pc.running = true := by
  cases pc <;> simp_all [Pc.plain, Pc.running]

theorem ne_giving_of_plain {pc : Pc ε} (h : pc.plain = true) (k : ℕ) : pc ≠ .giving k := by
  rintro rfl
  cases h

theorem ne_refill_of_plain {pc : Pc ε} (h : pc.plain = true) (k : ℕ) : pc ≠ .refill k := by
  rintro rfl
  cases h

theorem afterSubmit_plain (k limit : ℕ) : (call.afterSubmit k limit : Pc ε).plain = true := by
  unfold Call.afterSubmit
  split <;> rfl

theorem back_plain (back : Back) : (back.pc : Pc ε).plain = true := by
  cases back <;> rfl

/-- The owner only goes to another place. -/
theorem World.Control.walk (hw : w.Control) {pc pc' : Pc ε} (hpc : w.pc = pc)
    (hplain : pc.plain = true) (hplain' : pc'.plain = true)
    (hchecked : pc'.checked = true → pc.checked = true ∨ w.cancelled = false) :
    Move call w { w with pc := pc' } := by
  subst hpc
  exact .walk _ w.largest (hw.open_of_running (running_of_plain hplain))
    (ne_giving_of_plain hplain) hplain' le_rfl hchecked

/-- An error of an item ends a map. -/
theorem Move.stop_error (hopen : w.closed = false) (ending : Ending ε)
    (hend : ending ≠ .exhausted)
    (hitem : ∀ k f, ending = .item k f → w.pc.checked = true ∨ w.cancelled = false) :
    Move call w (w.beginClose ending) :=
  .stop w.pending w.current w.callbackLog ending hopen (.inl rfl) (fun h => absurd h hend) hitem

theorem running_of_mayFail {pc : Pc ε} (h : pc.mayFail = true) : pc.running = true := by
  cases pc <;> simp_all [Pc.mayFail, Pc.running]

/-- **What a step can do.** -/
theorem Step.move (h : Step call w w') (hw : w.Control) : Move call w w' := by
  have hrun := hw.open_of_running
  cases h with
  | worker k x x' applied hx h => exact .worker k x x' applied hx h
  | refuse k x f hx hwaiting => exact .refuse k x f hx hwaiting
  | cancel => exact .cancel
  | next hpc hopen =>
    exact .walk .top w.largest hopen (by simp [hpc]) rfl le_rfl (by simp [Pc.checked])
  | nextReleases k hpc hopen hcurrent => exact .release k hpc hopen hcurrent
  | releaseFails k f hpc hopen =>
    exact .stop w.pending none w.callbackLog _ hopen (.inl rfl) (by simp) (by simp)
  | close hpc hopen => exact .stop_error hopen _ (by simp) (by simp)
  | released k x hpc => exact hw.walk hpc rfl rfl (by simp [Pc.checked])
  | releasedError k x f hpc hx hfinished herror hcancel =>
    exact .stop_error (hrun (by rw [hpc]; rfl)) _ (by simp) (fun _ _ _ => .inr hcancel)
  | ownerFails f hpc => exact .stop_error (hrun (running_of_mayFail hpc)) _ (by simp) (by simp)
  | checkpoint hpc hcancel => exact hw.walk hpc rfl rfl (fun _ => .inr hcancel)
  | reportedWindow t target hpc =>
    exact .walk _ _ (hrun (by rw [hpc]; rfl)) (by simp [hpc]) rfl (le_max_left _ _)
      (fun _ => .inl (by rw [hpc]; rfl))
  | reported t target hpc =>
    exact .walk _ _ (hrun (by rw [hpc]; rfl)) (by simp [hpc]) rfl (le_max_left _ _)
      (fun _ => .inl (by rw [hpc]; rfl))
  | pendingDone limit hpc => exact hw.walk hpc rfl rfl (fun _ => .inl rfl)
  | pendingSkip k rest limit x hpc => exact hw.walk hpc rfl rfl (fun _ => .inl rfl)
  | pendingAwait k rest limit x hpc => exact hw.walk hpc rfl rfl (fun _ => .inl rfl)
  | fillStops limit hpc => exact hw.walk hpc rfl rfl (fun _ => .inl rfl)
  | sourceEnds limit hpc hmore hroom hcancel hend =>
    exact .exhaust limit _ (hrun (by rw [hpc]; rfl)) hpc hend
  | pull limit hpc hmore hroom hcancel hitem =>
    exact .pull limit _ _ (hrun (by rw [hpc]; rfl)) hpc hmore hroom hitem (.inl ⟨rfl, rfl⟩)
  | pullEstimated limit hpc hmore hroom hcancel hitem =>
    exact .pull limit _ _ (hrun (by rw [hpc]; rfl)) hpc hmore hroom hitem (.inr ⟨rfl, rfl⟩)
  | refilled k t target hpc =>
    exact .submit k _ _ (hrun (by rw [hpc]; rfl)) hpc (le_max_left _ _)
  | admissionSeen k back x hpc => exact hw.walk hpc rfl rfl (fun _ => .inl rfl)
  | admissionYields k back hpc => exact hw.walk hpc rfl rfl (fun _ => .inl rfl)
  | readySeen k back x hpc => exact hw.walk hpc rfl (back_plain back) (fun _ => .inl rfl)
  | readyYields k back hpc => exact hw.walk hpc rfl rfl (fun _ => .inl rfl)
  | convert k rest resume x item e callback v hpc hx hrefused hcallback hcancel hitem hvalue =>
    exact .convert k rest resume x item e callback v (hrun (by rw [hpc]; rfl)) hpc hx hrefused
      hcallback hcancel hitem hvalue
  | convertFails k rest resume x item e callback f hpc hx hrefused =>
    exact .stop w.pending w.current _ _ (hrun (by rw [hpc]; rfl)) (.inr ⟨k, x, e, rfl, hx, hrefused⟩)
      (by simp) (by simp)
  | convertCancelled k rest resume x e hpc =>
    exact .stop_error (hrun (by rw [hpc]; rfl)) _ (by simp) (by simp)
  | prepareWork k rest resume x item hpc hx hprepared hadmitted hready hcancel hitem =>
    exact .prepare k rest resume x item (hrun (by rw [hpc]; rfl)) hpc hx hprepared hadmitted hready
      hitem
  | prepareCancelled k rest resume x hpc hx hprepared hadmitted =>
    exact .unprepare k rest resume x (hrun (by rw [hpc]; rfl)) hpc hx hprepared hadmitted
  | prepareSkip k rest resume x hpc => exact hw.walk hpc rfl rfl (fun _ => .inl rfl)
  | prepareWindow limit hpc => exact hw.walk hpc rfl rfl (fun _ => .inl rfl)
  | prepareReady k back x hpc => exact hw.walk hpc rfl (back_plain back) (fun _ => .inl rfl)
  | prepareAwait k back x hpc => exact hw.walk hpc rfl rfl (fun _ => .inl rfl)
  | prepareSelect hpc => exact hw.walk hpc rfl rfl (fun _ => .inl rfl)
  | exhaust hpc hpending hend =>
    exact .stop w.pending w.current w.callbackLog _ (hrun (by rw [hpc]; rfl)) (.inl rfl)
      (fun _ => ⟨hpc, hpending, hend⟩) (by simp)
  | selectScan hpc => exact hw.walk hpc rfl rfl (fun _ => .inl rfl)
  | selectHead k rest x hpc => exact hw.walk hpc rfl rfl (fun _ => .inl rfl)
  | selectWaits k rest x hpc => exact hw.walk hpc rfl rfl (fun _ => .inl rfl)
  | selectNothing hpc => exact hw.walk hpc rfl rfl (fun _ => .inl rfl)
  | scanHit k rest x hpc => exact hw.walk hpc rfl rfl (fun _ => .inl rfl)
  | scanMiss k rest x hpc => exact hw.walk hpc rfl rfl (fun _ => .inl rfl)
  | scanEnds hpc => exact hw.walk hpc rfl rfl (fun _ => .inl rfl)
  | takeError k x f hpc hcancel =>
    exact .stop _ _ w.callbackLog _ (hrun (by rw [hpc]; rfl)) (.inl rfl) (by simp)
      (fun _ _ _ => .inr hcancel)
  | takeValue k x hpc hcancel hx herror =>
    exact .take k x (hrun (by rw [hpc]; rfl)) hpc hcancel hx herror
  | give k x hpc hx => exact .give k x (hrun (by rw [hpc]; rfl)) hpc hx
  | errorHit k rest x f hpc =>
    exact .stop_error (hrun (by rw [hpc]; rfl)) _ (by simp) (fun _ _ _ => .inl (by rw [hpc]; rfl))
  | errorMiss k rest x hpc => exact hw.walk hpc rfl rfl (fun _ => .inl rfl)
  | wait hpc => exact hw.walk hpc rfl rfl (fun _ => .inl rfl)
  | shut ending hpc => exact .shut ending hpc
  | drained ending hpc hdone => exact .drained ending hpc hdone

/-! ## The flags -/

theorem Move.control (h : Move call w w') (hw : w.Control) : w'.Control := by
  cases h with
  | worker => exact ⟨hw.closed, hw.ended, hw.cancelled⟩
  | refuse => exact ⟨hw.closed, hw.ended, hw.cancelled⟩
  | cancel => exact ⟨hw.closed, hw.ended, fun _ => rfl⟩
  | walk pc n hopen hleft hplain =>
    exact .of_running hopen (hw.ended_of_open hopen) (running_of_plain hplain)
  | exhaust limit resume hopen => exact .of_running hopen (hw.ended_of_open hopen) rfl
  | release k hpc hopen => exact .of_running hopen (hw.ended_of_open hopen) rfl
  | pull limit phase pc hopen hfrom hmore hroom hitem hphase =>
    refine .of_running hopen (hw.ended_of_open hopen) ?_
    obtain ⟨-, rfl⟩ | ⟨-, rfl⟩ := hphase
    · exact running_of_plain (afterSubmit_plain _ _)
    · rfl
  | submit k n limit hopen =>
    exact .of_running hopen (hw.ended_of_open hopen) (running_of_plain (afterSubmit_plain _ _))
  | convert k rest resume x item e callback v hopen =>
    exact .of_running hopen (hw.ended_of_open hopen) rfl
  | prepare k rest resume x item hopen => exact .of_running hopen (hw.ended_of_open hopen) rfl
  | unprepare k rest resume x hopen => exact .of_running hopen (hw.ended_of_open hopen) rfl
  | take k x hopen => exact .of_running hopen (hw.ended_of_open hopen) rfl
  | give k x hopen =>
    have hended := hw.ended_of_open hopen
    exact ⟨by simp [World.ending, hopen, hended], by simp [hended], by simp [hopen]⟩
  | stop pending current calls ending hopen =>
    have hended := hw.ended_of_open hopen
    exact ⟨rfl, by simp [World.beginClose, hended], fun _ => rfl⟩
  | shut ending hpc =>
    have hclosed : w.closed = true := by rw [hw.closed, World.ending, hpc]; rfl
    refine ⟨hclosed, fun hended => ?_, hw.cancelled⟩
    simp [hw.ended hended] at hpc
  | drained ending hpc =>
    have hclosed : w.closed = true := by rw [hw.closed, World.ending, hpc]; rfl
    exact ⟨hclosed, fun _ => rfl, hw.cancelled⟩

end Moves

end Elastic
end Neocortex
