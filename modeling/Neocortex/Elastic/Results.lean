import Neocortex.Elastic.Window

/-!
# The elastic map loses, repeats and reorders nothing

Every value that `__next__` returns is the value of its item, and no item is returned twice.  A map
that is exhausted has returned all of them; one that raises the error of an item returns nothing
afterwards, and one that has ended holds no grant.

* `World.Given`: what holds of the values that were returned.
* `Reachable.sound`: the invariants, in every run.
* `map_keeps_every_item`: the contract of a map.
-/

namespace Neocortex
namespace Elastic

variable {ι π ω ε : Type} {call : Call ι π ω ε} {w w' : World ι π ω ε}

/-! ## What was handed out -/

/-- An ending behind the checkpoint of its turn. -/
def Ending.regular : Ending ε → Bool
  | .exhausted => true
  | .item _ _ => true
  | _ => false

/-- What holds of the values that `__next__` has returned. -/
structure World.Given (call : Call ι π ω ε) (w : World ι π ω ε) : Prop where
  nodup : (w.yielded.map Prod.fst).Nodup
  ordered : call.completionOrder = false →
    w.yielded.map Prod.fst = List.range w.yielded.length
  complete : w.ending = some .exhausted →
    Arranged call.completionOrder (w.yielded.map Prod.fst) call.items.length
  values : ∀ y ∈ w.yielded, ∃ x, w.works[y.1]? = some x ∧ x.ready = true ∧
    ∀ v, y.2 = some v → call.Gives w.callbackLog w.refusals y.1 v x.admitted
  missing : ∀ y ∈ w.yielded, y.2 = none → w.cancelled = true
  present : w.pc.checked = true ∨ w.ending.any Ending.regular = true →
    ∀ y ∈ w.yielded, y.2.isSome = true

theorem World.Given.initial : (World.initial : World ι π ω ε).Given call := by
  constructor <;> simp [World.initial, World.ending, Pc.checked, Pc.running]

theorem Arranged.eq_range {l l' : List ℕ} {n : ℕ} (h : Arranged false (l ++ l') n) :
    l = List.range l.length := by
  have hl : l ++ l' = List.range n := h
  have htake := congrArg (List.take l.length) hl
  rw [List.take_left, List.take_range] at htake
  have hle : l.length ≤ n := by
    have := congrArg List.length hl
    simp at this
    omega
  rwa [Nat.min_eq_left hle] at htake

/-- What is handed out is a part of the line. -/
theorem World.Line.given (h : w.Line call) (hopen : w.closed = false) :
    (w.yielded.map Prod.fst).Nodup ∧ (call.completionOrder = false →
      w.yielded.map Prod.fst = List.range w.yielded.length) := by
  have hline := h.arranged hopen
  rw [World.line, List.append_assoc] at hline
  refine ⟨(List.nodup_append.mp hline.nodup).1, fun horder => ?_⟩
  rw [horder] at hline
  simpa using hline.eq_range

/-- The logs only grow. -/
theorem Move.callbackLog_subset (h : Move call w w') : w.callbackLog ⊆ w'.callbackLog := by
  cases h with
  | convert => exact List.subset_append_left _ _
  | stop pending current calls ending hopen hcalls =>
    obtain rfl | ⟨_, _, _, rfl, -⟩ := hcalls
    · exact List.Subset.refl _
    · exact List.subset_append_left _ _
  | _ => exact List.Subset.refl _

theorem Move.refusals_subset (h : Move call w w') : w.refusals ⊆ w'.refusals := by
  cases h with
  | refuse => exact List.subset_append_left _ _
  | _ => exact List.Subset.refl _

theorem Move.cancelled_mono (h : Move call w w') (hcancel : w.cancelled = true) :
    w'.cancelled = true := by
  cases h <;> first | exact hcancel | rfl

/-- A step hands out one value or none, and none if the map is closed. -/
theorem Move.yielded (h : Move call w w') : w'.yielded = w.yielded ∨
    ∃ k x, w.pc = .giving k ∧ w.works[k]? = some x ∧ w'.yielded = w.yielded ++ [(k, x.value)] ∧
      w'.closed = false ∧ w'.works = w.works ∧ w'.pc = .idle := by
  cases h with
  | give k x hopen hfrom hx => exact .inr ⟨k, x, hfrom, hx, rfl, hopen, rfl, rfl⟩
  | _ => exact .inl rfl

/-- How a step changes the way a map ends. -/
theorem Move.ending (h : Move call w w') :
    w'.closed = false ∧ (w'.pc.checked = true → w.pc.checked = true ∨ w.cancelled = false) ∨
      w'.ending = w.ending ∧ w'.pc.checked = w.pc.checked ∧ w'.yielded = w.yielded ∨
      ∃ ending, w'.ending = some ending ∧ w'.yielded = w.yielded ∧ w'.pc.checked = false ∧
        w.closed = false ∧
        (ending = .exhausted → w.pc = .select ∧ w.pending = [] ∧ w.exhausted = true) ∧
        (ending.regular = true → w.pc.checked = true ∨ w.cancelled = false) := by
  cases h with
  | worker => exact .inr (.inl ⟨rfl, rfl, rfl⟩)
  | refuse => exact .inr (.inl ⟨rfl, rfl, rfl⟩)
  | cancel => exact .inr (.inl ⟨rfl, rfl, rfl⟩)
  | walk pc n hopen hleft hplain hn hchecked => exact .inl ⟨hopen, hchecked⟩
  | exhaust limit resume hopen hfrom => exact .inl ⟨hopen, fun _ => .inl (by rw [hfrom]; rfl)⟩
  | release k hpc hopen => exact .inl ⟨hopen, by simp [Pc.checked]⟩
  | pull limit phase pc hopen hfrom => exact .inl ⟨hopen, fun _ => .inl (by rw [hfrom]; rfl)⟩
  | submit k n limit hopen hfrom => exact .inl ⟨hopen, fun _ => .inl (by rw [hfrom]; rfl)⟩
  | convert k rest resume x item e callback v hopen hfrom =>
    exact .inl ⟨hopen, fun _ => .inl (by rw [hfrom]; rfl)⟩
  | prepare k rest resume x item hopen hfrom =>
    exact .inl ⟨hopen, fun _ => .inl (by rw [hfrom]; rfl)⟩
  | unprepare k rest resume x hopen hfrom =>
    exact .inl ⟨hopen, fun _ => .inl (by rw [hfrom]; rfl)⟩
  | take k x hopen hfrom => exact .inl ⟨hopen, fun _ => .inl (by rw [hfrom]; rfl)⟩
  | give k x hopen hfrom => exact .inl ⟨hopen, fun _ => .inl (by rw [hfrom]; rfl)⟩
  | stop pending current calls ending hopen hcalls hend hitem =>
    refine .inr (.inr ⟨ending, rfl, rfl, rfl, hopen, hend, fun hregular => ?_⟩)
    cases ending with
    | exhausted =>
      obtain ⟨hpc, -, -⟩ := hend rfl
      exact .inl (by rw [hpc]; rfl)
    | item k f => exact hitem k f rfl
    | user => cases hregular
    | owner f => cases hregular
  | shut ending hpc =>
    refine .inr (.inl ⟨?_, ?_, rfl⟩)
    · rw [World.ending, World.ending, hpc]
    · rw [hpc]
      rfl
  | drained ending hpc =>
    refine .inr (.inl ⟨?_, ?_, rfl⟩)
    · rw [World.ending, World.ending, hpc]
    · rw [hpc]
      rfl

theorem World.Given.present_of (hw : w.Given call)
    (h : w.pc.checked = true ∨ w.cancelled = false) : ∀ y ∈ w.yielded, y.2.isSome = true := by
  obtain hchecked | hcancel := h
  · exact hw.present (.inl hchecked)
  · intro y hy
    rw [Option.isSome_iff_ne_none]
    intro hnone
    rw [hw.missing y hy hnone] at hcancel
    cases hcancel

/-- The value that the owner holds is the value of its item. -/
theorem World.Place.giving (hplace : w.Place call) (hworks : w.Works call) {k : ℕ} {x : Work π ω ε}
    (hpc : w.pc = .giving k) (hx : w.works[k]? = some x) : x.ready = true ∧
      (w.cancelled = false → x.value.isSome = true) ∧
      ∀ v, x.value = some v → call.Gives w.callbackLog w.refusals k v x.admitted := by
  rw [World.Place, hpc] at hplace
  obtain ⟨-, ⟨y, hy, hready⟩, hsettled⟩ := hplace
  obtain rfl : x = y := Option.some_inj.mp (hx.symm.trans hy)
  refine ⟨hready, fun hcancel => ?_, (hworks.sound k x hx).value⟩
  obtain ⟨z, hz, -, hvalue, -⟩ := hsettled hcancel
  obtain rfl : x = z := Option.some_inj.mp (hx.symm.trans hz)
  exact hvalue

section Given

variable (h : Move call w w')

include h

theorem Move.complete (hcontrol' : w'.Control) (hworks : w.Works call) (hline : w.Line call)
    (hw : w.Given call) (hexhausted : w'.ending = some .exhausted) :
    Arranged call.completionOrder (w'.yielded.map Prod.fst) call.items.length := by
  obtain ⟨hopen, -⟩ | ⟨hsame, -, hyielded⟩ | ⟨ending, hending, hyielded, -, hopen, hend, -⟩ :=
    h.ending
  · have hclosed := hcontrol'.closed
    rw [hopen, hexhausted] at hclosed
    cases hclosed
  · rw [hyielded]
    exact hw.complete (hsame ▸ hexhausted)
  · obtain rfl : ending = .exhausted := Option.some_inj.mp (hending.symm.trans hexhausted)
    obtain ⟨hpc, hpending, hall⟩ := hend rfl
    have harranged := hline.arranged hopen
    rw [World.line, World.inHand, hpc, hpending, List.append_nil, List.append_nil,
      hworks.exhausted hall] at harranged
    rw [hyielded]
    exact harranged

theorem Move.values (hworks : w.Works call) (hplace : w.Place call) (hw : w.Given call)
    (y : ℕ × Option ω) (hy : y ∈ w'.yielded) : ∃ x, w'.works[y.1]? = some x ∧ x.ready = true ∧
      ∀ v, y.2 = some v → call.Gives w'.callbackLog w'.refusals y.1 v x.admitted := by
  have hnow : ∃ x, w.works[y.1]? = some x ∧ x.ready = true ∧
      ∀ v, y.2 = some v → call.Gives w.callbackLog w.refusals y.1 v x.admitted := by
    obtain hsame | ⟨k, x, hpc, hx, hyielded, -⟩ := h.yielded
    · exact hw.values y (hsame ▸ hy)
    · rw [hyielded] at hy
      obtain hy | hy := List.mem_append.mp hy
      · exact hw.values y hy
      · rw [List.mem_singleton.mp hy]
        obtain ⟨hready, -, hvalue⟩ := hplace.giving hworks hpc hx
        exact ⟨x, hx, hready, hvalue⟩
  obtain ⟨x, hx, hready, hvalue⟩ := hnow
  obtain ⟨x', hx', hlater⟩ := h.later hworks _ x hx
  obtain ⟨hready', hsame⟩ := hlater.ready hready
  refine ⟨x', hx', hready', fun v hv => ?_⟩
  rw [hsame]
  exact (hvalue v hv).mono h.callbackLog_subset h.refusals_subset

theorem Move.missing (hworks : w.Works call) (hplace : w.Place call) (hw : w.Given call)
    (y : ℕ × Option ω) (hy : y ∈ w'.yielded) (hnone : y.2 = none) : w'.cancelled = true := by
  apply h.cancelled_mono
  obtain hsame | ⟨k, x, hpc, hx, hyielded, -⟩ := h.yielded
  · exact hw.missing y (hsame ▸ hy) hnone
  · rw [hyielded] at hy
    obtain hy | hy := List.mem_append.mp hy
    · exact hw.missing y hy hnone
    · -- a value in hand is there unless the map is cancelled
      by_contra hcancel
      have hsome := (hplace.giving hworks hpc hx).2.1 (by simpa using hcancel)
      have hvalue : x.value = none := by
        rw [List.mem_singleton.mp hy] at hnone
        exact hnone
      rw [hvalue] at hsome
      cases hsome

theorem Move.present (hcontrol' : w'.Control) (hw : w.Given call)
    (hend : w'.pc.checked = true ∨ w'.ending.any Ending.regular = true) :
    ∀ y ∈ w'.yielded, y.2.isSome = true := by
  obtain ⟨hopen, hchecked⟩ | ⟨hsame, hpc, hyielded⟩ | ⟨ending, hending, hyielded, hpc, -, -, hclean⟩ :=
    h.ending
  · have hending : w'.ending = none := by simpa [hopen] using hcontrol'.closed
    have hcheck : w'.pc.checked = true := by simpa [hending] using hend
    obtain hyielded | ⟨_, _, _, _, _, _, _, hidle⟩ := h.yielded
    · rw [hyielded]
      exact hw.present_of (hchecked hcheck)
    · rw [hidle] at hcheck
      cases hcheck
  · rw [hyielded]
    rw [hsame, hpc] at hend
    exact hw.present hend
  · rw [hyielded]
    exact hw.present_of (hclean (by simpa [hpc, hending] using hend))

/-- **Every step hands out values of their items.** -/
theorem Move.given (hcontrol' : w'.Control) (hworks : w.Works call) (hplace : w.Place call)
    (hline : w.Line call) (hline' : w'.Line call) (hw : w.Given call) : w'.Given call where
  nodup := by
    obtain hsame | ⟨_, _, _, _, _, hopen, -⟩ := h.yielded
    · rw [hsame]
      exact hw.nodup
    · exact (hline'.given hopen).1
  ordered := by
    obtain hsame | ⟨_, _, _, _, _, hopen, -⟩ := h.yielded
    · rw [hsame]
      exact hw.ordered
    · exact (hline'.given hopen).2
  complete := h.complete hcontrol' hworks hline hw
  values := h.values hworks hplace hw
  missing := h.missing hworks hplace hw
  present := h.present hcontrol' hw

end Given

/-! ## Runs -/

/-- What holds of a map in every run. -/
structure World.Sound (call : Call ι π ω ε) (w : World ι π ω ε) : Prop where
  control : w.Control
  works : w.Works call
  logs : w.Logs
  bounded : w.Bounded
  place : w.Place call
  line : w.Line call
  given : w.Given call

theorem Step.sound (h : Step call w w') (hw : w.Sound call) : w'.Sound call := by
  obtain ⟨hcontrol, hworks, hlogs, hbounded, hplace, hline, hgiven⟩ := hw
  have hmove := h.move hcontrol
  have hcontrol' := hmove.control hcontrol
  have hline' := hmove.line hcontrol hplace hline
  exact ⟨hcontrol', hmove.works hcontrol hworks, hmove.logs hworks hlogs, h.bounded hbounded,
    h.place hcontrol hworks hline.unreleased hplace, hline',
    hmove.given hcontrol' hworks hplace hline hline' hgiven⟩

theorem Reachable.sound (h : Reachable call w) : w.Sound call := by
  induction h with
  | refl => exact ⟨.initial, .initial, .initial, .initial, trivial, .initial, .initial⟩
  | tail _ hstep ih => exact hstep.sound ih

/-- A closed map stays closed and hands out nothing. -/
theorem Step.closed (h : Step call w w') (hw : w.Control) (hclosed : w.closed = true) :
    w'.closed = true ∧ w'.yielded = w.yielded := by
  cases h.move hw <;> simp_all

theorem yielded_of_closed (h : Relation.ReflTransGen (Step call) w w') (hw : w.Control)
    (hclosed : w.closed = true) : w'.yielded = w.yielded := by
  suffices hall : w'.Control ∧ w'.closed = true ∧ w'.yielded = w.yielded from hall.2.2
  induction h with
  | refl => exact ⟨hw, hclosed, rfl⟩
  | tail _ hstep ih =>
    obtain ⟨hcontrol, hclosed', hsame⟩ := ih
    obtain ⟨hclosed'', hsame'⟩ := hstep.closed hcontrol hclosed'
    exact ⟨(hstep.move hcontrol).control hcontrol, hclosed'', hsame'.trans hsame⟩

/-! ## The contract -/

/-- What a map has returned, as results. -/
def World.results (w : World ι π ω ε) : List (Option (Except (Fault ε) ω)) :=
  w.yielded.map fun y => y.2.map Except.ok

/-- The value is the result of its item, or what the callback made of its refusal. -/
def World.IsResult (call : Call ι π ω ε) (w : World ι π ω ε) (y : ℕ × Option ω) : Prop :=
  ∃ v admitted, y.2 = some v ∧ call.Gives w.callbackLog w.refusals y.1 v admitted

theorem World.Control.ending_of_ended (h : w.Control) {ending : Ending ε}
    (hended : w.ended = some ending) : w.ending = some ending := by
  rw [World.ending, h.ended (by simp [hended])]
  exact hended

/-- A map that ends at its checkpoint has returned values only. -/
theorem World.Sound.isResult (h : w.Sound call) {ending : Ending ε} (hended : w.ended = some ending)
    (hregular : ending.regular = true) (y : ℕ × Option ω) (hy : y ∈ w.yielded) :
    w.IsResult call y := by
  have hending := h.control.ending_of_ended hended
  have hsome := h.given.present (.inr (by simpa [hending] using hregular)) y hy
  obtain ⟨v, hv⟩ := Option.isSome_iff_exists.mp hsome
  obtain ⟨x, -, -, hgives⟩ := h.given.values y hy
  exact ⟨v, x.admitted, hv, hgives v hv⟩

/-- Without the callback a value is the result of its item. -/
theorem result_of_isResult {y : ℕ × Option ω} (h : w.IsResult call y) (hcalls : w.callbackLog = []) :
    y.2.map Except.ok = (call.items[y.1]?).map call.resultOf := by
  obtain ⟨v, admitted, hv, item, hitem, hresult, hcallback⟩ := h
  cases admitted with
  | true => rw [hv, hitem, Option.map_some, Option.map_some, hresult rfl]
  | false =>
    have hmem := (hcallback rfl).1
    rw [hcalls] at hmem
    exact absurd hmem List.not_mem_nil

theorem map_range_items (call : Call ι π ω ε) :
    ((List.range call.items.length).map fun k => (call.items[k]?).map call.resultOf) =
      call.items.map fun item => some (call.resultOf item) := by
  apply List.ext_getElem
  · simp
  · intro k hk hk'
    simp only [List.length_map] at hk'
    simp [hk']

/-- The results of a map that is exhausted, at their indices. -/
theorem World.Sound.results_eq (h : w.Sound call) (hended : w.ended = some .exhausted)
    (hcalls : w.callbackLog = []) :
    w.results = (w.yielded.map Prod.fst).map fun k => (call.items[k]?).map call.resultOf := by
  rw [World.results, List.map_map]
  refine List.map_congr_left fun y hy => ?_
  exact result_of_isResult (h.isResult hended rfl y hy) hcalls

/-- The grants of a map that has ended are given back. -/
theorem World.Sound.no_grant (h : w.Sound call) (hended : w.ended.isSome = true)
    (x : Work π ω ε) (hx : x ∈ w.works) : x.holdsGrant = false := by
  obtain ⟨k, hk⟩ := List.getElem?_of_mem hx
  have hfits := (h.works.sound k x hk).fits
  unfold Work.Fits at hfits
  obtain hphase | hphase := h.works.drained hended x hx
  · rw [hphase] at hfits
    exact hfits.1
  · rw [hphase] at hfits
    exact hfits.2.2.2.2.2.1

/-- **An elastic map loses, repeats and reorders nothing.**  In every run the function and `prepare`
are applied at most once to an item and the window is within the largest target.  A map that is
exhausted without a failure has returned the results of all items, in their order or, in completion
order, each once.  One that raises the error of an item returns nothing behind it, and what it
returned are results of different items, of the first ones unless it is in completion order.  A map
that has ended holds no grant. -/
theorem map_keeps_every_item (call : Call ι π ω ε) (w : World ι π ω ε) (h : Reachable call w) :
    (w.prepareLog.Nodup ∧ w.functionLog.Nodup) ∧
    (w.ended = some .exhausted → w.callbackLog = [] →
      (call.completionOrder = false →
        w.results = call.items.map fun item => some (call.resultOf item)) ∧
      (w.yielded.map Prod.fst).Perm (List.range call.items.length) ∧
      w.results.Perm (call.items.map fun item => some (call.resultOf item))) ∧
    w.pending.length ≤ max 1 w.largest ∧
    (∀ k f, w.ended = some (.item k f) →
      (∀ w', Relation.ReflTransGen (Step call) w w' → w'.yielded = w.yielded) ∧
      (w.yielded.map Prod.fst).Nodup ∧
      (call.completionOrder = false → w.yielded.map Prod.fst = List.range w.yielded.length) ∧
      ∀ y ∈ w.yielded, w.IsResult call y) ∧
    (w.ended.isSome = true → ∀ x ∈ w.works, x.holdsGrant = false) := by
  have hsound := h.sound
  refine ⟨⟨hsound.logs.prepareLog, hsound.logs.functionLog⟩, ?_, hsound.bounded.pending, ?_,
    hsound.no_grant⟩
  · intro hended hcalls
    have harranged := hsound.given.complete (hsound.control.ending_of_ended hended)
    rw [hsound.results_eq hended hcalls, ← map_range_items]
    refine ⟨fun horder => ?_, harranged.perm, harranged.perm.map _⟩
    rw [horder] at harranged
    rw [show w.yielded.map Prod.fst = List.range call.items.length from harranged]
  · intro k f hended
    have hclosed : w.closed = true := by
      rw [hsound.control.closed, hsound.control.ending_of_ended hended]
      rfl
    exact ⟨fun w' hrun => yielded_of_closed hrun hsound.control hclosed, hsound.given.nodup,
      hsound.given.ordered, hsound.isResult hended rfl⟩

/-- A map over two numbers in completion order, with a gate; zero is refused. -/
def pair (second : ℕ) : Call ℕ ℕ ℕ ℕ where
  items := [7, second]
  prepare n := .ok (.payload n)
  function n := if n = 0 then .error (.other n) else .ok (n + 1)
  onAdmissionError := none
  gated := true
  coordinated := false
  callableEstimate := false
  completionOrder := true

/-- Both items in the window, admitted and prepared. -/
def pairPrepared (second : ℕ) : World ℕ ℕ ℕ ℕ :=
  let x : Work ℕ ℕ ℕ :=
    { (Work.new .preparing : Work ℕ ℕ ℕ) with admitted := true, prepared := true, holdsGrant := true }
  { (World.initial : World ℕ ℕ ℕ ℕ) with
    works := [{ x with payload := some (.payload 7) }, { x with payload := some (.payload second) }]
    pending := [0, 1]
    pc := .select
    largest := 2
    prepareLog := [0, 1] }

theorem pair_prepared (second : ℕ) : Reachable (pair second) (pairPrepared second) := by
  have h := Relation.ReflTransGen.refl (r := Step (pair second)) (a := World.initial)
  replace h := h.tail (.next rfl rfl rfl)
  replace h := h.tail (.checkpoint rfl rfl)
  replace h := h.tail (.reported (some 2) 2 rfl rfl (.inl rfl))
  replace h := h.tail (.pull 2 rfl rfl Nat.two_pos rfl Nat.two_pos rfl)
  replace h := h.tail (.pull 2 rfl rfl Nat.one_lt_two rfl Nat.one_lt_two rfl)
  replace h := h.tail (.fillStops 2 rfl (.inr (.inl le_rfl)))
  replace h := h.tail (.worker 0 _ _ _ rfl (.admitted rfl))
  replace h := h.tail (.worker 1 _ _ _ rfl (.admitted rfl))
  replace h := h.tail (.prepareWork 0 [1] .select _ 7 rfl rfl rfl rfl rfl rfl rfl)
  replace h := h.tail (.prepareWork 1 [] .select _ second rfl rfl rfl rfl rfl rfl rfl)
  exact h.tail (.prepareSelect rfl)

/-- A run to the end, in which the second item is ready first. -/
theorem pair_run : ∃ w, Reachable (pair 4) w ∧ w.ended = some .exhausted ∧ w.callbackLog = [] ∧
    w.yielded.map Prod.fst = [1, 0] := by
  have h := pair_prepared 4
  replace h := h.tail (.worker 1 _ _ _ rfl (.compute rfl rfl rfl rfl))
  replace h := h.tail (.worker 1 _ _ _ rfl (.publish 5 rfl rfl))
  replace h := h.tail (.selectScan rfl (.inl (by decide)) rfl)
  replace h := h.tail (.scanMiss 0 [1] _ rfl rfl rfl)
  replace h := h.tail (.scanHit 1 [] _ rfl rfl rfl)
  replace h := h.tail (.takeValue 1 _ rfl rfl rfl rfl)
  replace h := h.tail (.give 1 _ rfl rfl)
  replace h := h.tail (.nextReleases 1 rfl rfl rfl)
  replace h := h.tail (.worker 1 _ _ _ rfl (.finish rfl rfl))
  replace h := h.tail (.worker 1 _ _ _ rfl (.exit none none rfl))
  replace h := h.tail (.worker 1 _ _ _ rfl (.conclude none rfl))
  replace h := h.tail (.released 1 _ rfl rfl rfl (.inl rfl))
  replace h := h.tail (.checkpoint rfl rfl)
  replace h := h.tail (.reported (some 2) 2 rfl rfl (.inl rfl))
  replace h := h.tail (.sourceEnds 2 rfl rfl (by decide) rfl (by decide))
  replace h := h.tail (.prepareSkip 0 [] .select _ rfl rfl (.inl rfl)
    fun h => absurd h Bool.false_ne_true)
  replace h := h.tail (.prepareSelect rfl)
  replace h := h.tail (.worker 0 _ _ _ rfl (.compute rfl rfl rfl rfl))
  replace h := h.tail (.worker 0 _ _ _ rfl (.publish 8 rfl rfl))
  replace h := h.tail (.selectScan rfl (.inl (by decide)) rfl)
  replace h := h.tail (.scanHit 0 [] _ rfl rfl rfl)
  replace h := h.tail (.takeValue 0 _ rfl rfl rfl rfl)
  replace h := h.tail (.give 0 _ rfl rfl)
  replace h := h.tail (.nextReleases 0 rfl rfl rfl)
  replace h := h.tail (.worker 0 _ _ _ rfl (.finish rfl rfl))
  replace h := h.tail (.worker 0 _ _ _ rfl (.exit none none rfl))
  replace h := h.tail (.worker 0 _ _ _ rfl (.conclude none rfl))
  replace h := h.tail (.released 0 _ rfl rfl rfl (.inl rfl))
  replace h := h.tail (.checkpoint rfl rfl)
  replace h := h.tail (.reported (some 2) 2 rfl rfl (.inl rfl))
  replace h := h.tail (.fillStops 2 rfl (.inl rfl))
  replace h := h.tail (.prepareSelect rfl)
  replace h := h.tail (.exhaust rfl rfl rfl)
  replace h := h.tail (.shut _ rfl)
  replace h := h.tail (.drained _ rfl
    (List.forall_mem_cons.mpr ⟨.inl rfl, List.forall_mem_singleton.mpr (.inl rfl)⟩))
  exact ⟨_, h, rfl, rfl, rfl⟩

/-- A run that returns the first item and raises the error of the second. -/
theorem pair_refused : ∃ w, Reachable (pair 0) w ∧ w.ended = some (.item 1 (.other 0)) ∧
    w.yielded = [(0, some 8)] := by
  have h := pair_prepared 0
  replace h := h.tail (.worker 0 _ _ _ rfl (.compute rfl rfl rfl rfl))
  replace h := h.tail (.worker 0 _ _ _ rfl (.publish 8 rfl rfl))
  replace h := h.tail (.worker 1 _ _ _ rfl (.compute rfl rfl rfl rfl))
  replace h := h.tail (.worker 1 _ _ _ rfl (.fail (.other 0) rfl))
  replace h := h.tail (.worker 1 _ _ _ rfl (.exit _ none rfl))
  replace h := h.tail (.worker 1 _ _ _ rfl (.conclude _ rfl))
  replace h := h.tail (.selectScan rfl (.inl (by decide)) rfl)
  replace h := h.tail (.scanHit 0 [1] _ rfl rfl rfl)
  replace h := h.tail (.takeValue 0 _ rfl rfl rfl rfl)
  replace h := h.tail (.give 0 _ rfl rfl)
  replace h := h.tail (.nextReleases 0 rfl rfl rfl)
  replace h := h.tail (.worker 0 _ _ _ rfl (.finish rfl rfl))
  replace h := h.tail (.worker 0 _ _ _ rfl (.exit none none rfl))
  replace h := h.tail (.worker 0 _ _ _ rfl (.conclude none rfl))
  replace h := h.tail (.released 0 _ rfl rfl rfl (.inl rfl))
  replace h := h.tail (.checkpoint rfl rfl)
  replace h := h.tail (.reported (some 2) 2 rfl rfl (.inl rfl))
  replace h := h.tail (.sourceEnds 2 rfl rfl (by decide) rfl (by decide))
  replace h := h.tail (.prepareSkip 1 [] .select _ rfl rfl (.inl rfl)
    fun h => absurd h Bool.false_ne_true)
  replace h := h.tail (.prepareSelect rfl)
  replace h := h.tail (.selectScan rfl (.inl (by decide)) rfl)
  replace h := h.tail (.scanHit 1 [] _ rfl rfl rfl)
  replace h := h.tail (.takeError 1 _ (.other 0) rfl rfl rfl rfl)
  replace h := h.tail (.shut _ rfl)
  replace h := h.tail (.drained _ rfl
    (List.forall_mem_cons.mpr ⟨.inl rfl, List.forall_mem_singleton.mpr (.inl rfl)⟩))
  exact ⟨_, h, rfl, rfl⟩

theorem map_keeps_every_item_pair :
    (∃ w, Reachable (pair 4) w ∧ w.yielded.map Prod.fst = [1, 0] ∧
      w.results.Perm [some (.ok 8), some (.ok 5)] ∧ ∀ x ∈ w.works, x.holdsGrant = false) ∧
    ∃ w, Reachable (pair 0) w ∧ w.yielded = [(0, some 8)] ∧
      ∀ w', Relation.ReflTransGen (Step (pair 0)) w w' → w'.yielded = w.yielded := by
  obtain ⟨w, h, hended, hcalls, horder⟩ := pair_run
  obtain ⟨w', h', hended', hyielded⟩ := pair_refused
  obtain ⟨-, hexhausted, -, -, hgrants⟩ := map_keeps_every_item (pair 4) w h
  obtain ⟨-, -, -, hraised, -⟩ := map_keeps_every_item (pair 0) w' h'
  exact ⟨⟨w, h, horder, (hexhausted hended hcalls).2.2, hgrants (by rw [hended]; rfl)⟩,
    w', h', hyielded, (hraised 1 _ hended').1⟩

end Elastic
end Neocortex
