import Neocortex.Elastic.Moves

/-!
# The works and the logs of a map

* `Move.later`: the works of a map only go forward.
* `Move.works`: every work is sound, and a map that has ended has no worker left.
* `Move.logs`: an item is prepared, computed, passed to the callback and refused at most once.
-/

namespace Neocortex
namespace Elastic

variable {ι π ω ε : Type}

/-- The works of a map. -/
structure World.Works (call : Call ι π ω ε) (w : World ι π ω ε) : Prop where
  sound : ∀ k (x : Work π ω ε), w.works[k]? = some x →
  x.Sound call w.callbackLog w.refusals k w.cancelled
  count : w.works.length ≤ call.items.length
  exhausted : w.exhausted = true → w.works.length = call.items.length
  /-- The work in front of its target is not submitted. -/
  refill : ∀ k, w.pc = .refill k → ∃ x, w.works[k]? = some x ∧ x.phase = .created
  drained : w.ended.isSome = true → ∀ x ∈ w.works, x.phase = .done ∨ x.phase = .created

variable {call : Call ι π ω ε} {w w' : World ι π ω ε}

/-! ## The works go forward -/

theorem later_set {works : List (Work π ω ε)} {k : ℕ} {x x' : Work π ω ε}
    (hx : works[k]? = some x) (h : x.Later x') (j : ℕ) (y : Work π ω ε) (hy : works[j]? = some y) :
    ∃ y', (works.set k x')[j]? = some y' ∧ y.Later y' := by
  by_cases hkj : k = j
  · subst hkj
    obtain rfl : x = y := Option.some_inj.mp (hx.symm.trans hy)
    obtain ⟨hlt, -⟩ := List.getElem?_eq_some_iff.mp hx
    exact ⟨x', by simp [hlt], h⟩
  · exact ⟨y, by simpa [hkj] using hy, .refl y⟩

theorem later_modify {works : List (Work π ω ε)} {k : ℕ} {f : Work π ω ε → Work π ω ε}
    (h : ∀ x, works[k]? = some x → x.Later (f x)) (j : ℕ) (y : Work π ω ε)
    (hy : works[j]? = some y) : ∃ y', (works.modify k f)[j]? = some y' ∧ y.Later y' := by
  by_cases hkj : k = j
  · subst hkj
    exact ⟨f y, by simp [hy], h y hy⟩
  · exact ⟨y, by simp [hkj, hy], .refl y⟩

/-- Every work of the first map is there in the second, in a later state. -/
def World.Forward (w w' : World ι π ω ε) : Prop :=
  ∀ (k : ℕ) (x : Work π ω ε), w.works[k]? = some x → ∃ x', w'.works[k]? = some x' ∧ x.Later x'

/-- **The works of a map only go forward.** -/
theorem Move.later (h : Move call w w') (hw : w.Works call) : w.Forward w' := by
  intro j y hy
  cases h with
  | worker k x x' applied hx h => exact later_set hx (h.later (hw.sound k x hx)) j y hy
  | refuse k x f hx hwaiting => exact later_set hx (Work.refuse_later hwaiting f) j y hy
  | release k => exact later_modify (fun x _ => x.released_later) j y hy
  | pull =>
    refine ⟨y, ?_, .refl y⟩
    rw [List.getElem?_append_left (List.getElem?_eq_some_iff.mp hy).1]
    exact hy
  | submit k n limit hopen hfrom =>
    obtain ⟨x, hx, hcreated⟩ := hw.refill k hfrom
    refine later_modify (fun x' hx' => ?_) j y hy
    obtain rfl : x = x' := Option.some_inj.mp (hx.symm.trans hx')
    exact Work.submitted_later hcreated
  | convert k rest resume x item e callback v =>
    exact later_modify (fun x _ => x.converted_later v) j y hy
  | prepare k rest resume x item =>
    exact later_modify (fun x _ => x.preparedWith_later _) j y hy
  | unprepare => exact later_modify (fun x _ => x.preparedWith_later _) j y hy
  | shut =>
    refine ⟨_, by simp [List.getElem?_mapIdx, hy]; rfl, ?_⟩
    split
    · exact y.shut_later
    · exact .refl y
  | _ => exact ⟨y, hy, .refl y⟩

/-! ## The works -/

theorem World.Works.initial : (World.initial : World ι π ω ε).Works call :=
  ⟨by simp [World.initial], by simp [World.initial], by simp [World.initial],
    by simp [World.initial], by simp [World.initial]⟩

theorem sound_set {works : List (Work π ω ε)} {k : ℕ} {x' : Work π ω ε} {calls refusals cancelled}
    (h : ∀ k (x : Work π ω ε), works[k]? = some x → x.Sound call calls refusals k cancelled)
    (hx' : x'.Sound call calls refusals k cancelled) (j : ℕ) (y : Work π ω ε)
    (hy : (works.set k x')[j]? = some y) : y.Sound call calls refusals j cancelled := by
  by_cases hkj : k = j
  · subst hkj
    rw [List.getElem?_set_self'] at hy
    obtain ⟨x, -, rfl⟩ := Option.map_eq_some_iff.mp hy
    exact hx'
  · rw [List.getElem?_set_ne hkj] at hy
    exact h j y hy

theorem sound_modify {works : List (Work π ω ε)} {k : ℕ} {f : Work π ω ε → Work π ω ε}
    {calls refusals cancelled}
    (h : ∀ k (x : Work π ω ε), works[k]? = some x → x.Sound call calls refusals k cancelled)
    (hf : ∀ x, works[k]? = some x → (f x).Sound call calls refusals k cancelled) (j : ℕ)
    (y : Work π ω ε) (hy : (works.modify k f)[j]? = some y) :
    y.Sound call calls refusals j cancelled := by
  rw [List.getElem?_modify] at hy
  obtain ⟨x, hx, rfl⟩ := Option.map_eq_some_iff.mp hy
  by_cases hkj : k = j
  · subst hkj
    simpa using hf x hx
  · simpa [hkj] using h j x hx

/-- Every step keeps the works sound. -/
theorem Move.sound (h : Move call w w') (hcontrol : w.Control) (hw : w.Works call) (k : ℕ)
    (x : Work π ω ε) (hx : w'.works[k]? = some x) :
    x.Sound call w'.callbackLog w'.refusals k w'.cancelled := by
  cases h with
  | worker j y y' applied hy h =>
    exact sound_set hw.sound (h.sound hcontrol.cancelled (hw.sound j y hy)) k x hx
  | refuse j y f hy hwaiting =>
    have hmono : ∀ k (x : Work π ω ε), w.works[k]? = some x →
        x.Sound call w.callbackLog (w.refusals ++ [(j, f)]) k w.cancelled := fun k x hx =>
      (hw.sound k x hx).mono (List.Subset.refl _) (List.subset_append_left _ _) id
    exact sound_set hmono ((hmono j y hy).refuse hwaiting f (by simp)) k x hx
  | cancel =>
    exact (hw.sound k x hx).mono (List.Subset.refl _) (List.Subset.refl _) (fun _ => rfl)
  | release j => exact sound_modify hw.sound (fun y hy => (hw.sound j y hy).released) k x hx
  | pull limit phase pc hopen hfrom hmore hroom hitem hphase =>
    rw [List.getElem?_append] at hx
    split at hx
    · exact hw.sound k x hx
    · obtain rfl : Work.new phase = x := by
        rw [List.getElem?_singleton] at hx
        split at hx
        · exact Option.some_inj.mp hx
        · cases hx
      exact .new (hphase.elim (fun h => .inr h.1) (fun h => .inl h.1))
  | submit j n limit hopen hfrom =>
    obtain ⟨y, hy, hcreated⟩ := hw.refill j hfrom
    refine sound_modify hw.sound (fun y' hy' => ?_) k x hx
    obtain rfl : y = y' := Option.some_inj.mp (hy.symm.trans hy')
    exact (hw.sound j y hy).submitted hcreated
  | convert j rest resume y item e callback v hopen hfrom hy hrefused hcallback hcancel hitem
      hvalue =>
    have hmono : ∀ k (x : Work π ω ε), w.works[k]? = some x →
        x.Sound call (w.callbackLog ++ [j]) w.refusals k w.cancelled := fun k x hx =>
      (hw.sound k x hx).mono (List.subset_append_left _ _) (List.Subset.refl _) id
    refine sound_modify hmono (fun y' hy' => ?_) k x hx
    obtain rfl : y = y' := Option.some_inj.mp (hy.symm.trans hy')
    exact (hmono j y hy).converted hrefused (by simp) hitem hcallback hvalue
  | prepare j rest resume y item hopen hfrom hy hprepared hadmitted hready hitem =>
    refine sound_modify hw.sound (fun y' hy' => ?_) k x hx
    obtain rfl : y = y' := Option.some_inj.mp (hy.symm.trans hy')
    exact (hw.sound j y hy).preparedWith hadmitted hitem (fun p hp => hp)
  | unprepare j rest resume y hopen hfrom hy hprepared hadmitted =>
    refine sound_modify hw.sound (fun y' hy' => ?_) k x hx
    obtain rfl : y = y' := Option.some_inj.mp (hy.symm.trans hy')
    have hj : j < call.items.length :=
      lt_of_lt_of_le (List.getElem?_eq_some_iff.mp hy).1 hw.count
    exact (hw.sound j y hy).preparedWith hadmitted (List.getElem?_eq_getElem hj) (by simp)
  | stop pending current calls ending hopen hcalls =>
    refine (hw.sound k x hx).mono ?_ (List.Subset.refl _) (fun _ => rfl)
    obtain rfl | ⟨_, _, _, rfl, -⟩ := hcalls
    · exact List.Subset.refl _
    · exact List.subset_append_left _ _
  | shut ending hpc =>
    have hcancel : w.cancelled = true := hcontrol.cancelled (by
      rw [hcontrol.closed, World.ending, hpc]; rfl)
    rw [List.getElem?_mapIdx] at hx
    obtain ⟨y, hy, rfl⟩ := Option.map_eq_some_iff.mp hx
    split
    · exact (hw.sound k y hy).shut hcancel
    · exact hw.sound k y hy
  | _ => exact hw.sound k x hx

/-- The worker of a work that is not submitted does nothing. -/
theorem refill_set {works : List (Work π ω ε)} {j k : ℕ} {x x' : Work π ω ε}
    (hx : works[j]? = some x) (hphase : x.phase ≠ .created)
    (h : ∃ y, works[k]? = some y ∧ y.phase = .created) :
    ∃ y, (works.set j x')[k]? = some y ∧ y.phase = .created := by
  obtain ⟨y, hy, hcreated⟩ := h
  by_cases hjk : j = k
  · subst hjk
    obtain rfl : x = y := Option.some_inj.mp (hx.symm.trans hy)
    exact absurd hcreated hphase
  · exact ⟨y, by simpa [hjk] using hy, hcreated⟩

theorem Move.refill (h : Move call w w') (hw : w.Works call) (k : ℕ) (hpc : w'.pc = .refill k) :
    ∃ x, w'.works[k]? = some x ∧ x.phase = .created := by
  cases h with
  | worker j x x' applied hx h =>
    refine refill_set hx ?_ (hw.refill k hpc)
    cases h <;> simp_all
  | refuse j x f hx hwaiting =>
    exact refill_set hx (by simp [hwaiting]) (hw.refill k hpc)
  | cancel => exact hw.refill k hpc
  | walk pc n hopen hleft hplain => exact absurd hpc (ne_refill_of_plain hplain k)
  | pull limit phase pc hopen hfrom hmore hroom hitem hphase =>
    obtain ⟨rfl, rfl⟩ | ⟨rfl, rfl⟩ := hphase
    · exact absurd hpc (ne_refill_of_plain (afterSubmit_plain _ _) k)
    · obtain rfl : w.works.length = k := by simpa using hpc
      exact ⟨Work.new .created, by simp, rfl⟩
  | submit j n limit => exact absurd hpc (ne_refill_of_plain (afterSubmit_plain _ _) k)
  | _ => cases hpc

/-- A map that has ended has no worker left. -/
theorem Move.phases_of_ended (h : Move call w w') (hcontrol : w.Control) (hw : w.Works call)
    (hended : w'.ended.isSome = true) (x : Work π ω ε) (hx : x ∈ w'.works) :
    x.phase = .done ∨ x.phase = .created := by
  have hopen : w.closed = false → ¬ w.ended.isSome = true := fun hopen => by
    simp [hcontrol.ended_of_open hopen]
  cases h with
  | worker k y y' applied hy h =>
    obtain ⟨hcreated, hdone⟩ := h.phase
    obtain hphase | hphase := hw.drained hended y (List.mem_of_getElem? hy)
    · exact absurd hphase hdone
    · exact absurd hphase hcreated
  | refuse k y f hy hwaiting =>
    have hphase := hw.drained hended y (List.mem_of_getElem? hy)
    simp [hwaiting] at hphase
  | cancel => exact hw.drained hended x hx
  | walk pc n h => exact absurd hended (hopen h)
  | exhaust limit resume h => exact absurd hended (hopen h)
  | release k hpc h => exact absurd hended (hopen h)
  | pull limit phase pc h => exact absurd hended (hopen h)
  | submit k n limit h => exact absurd hended (hopen h)
  | convert k rest resume y item e callback v h => exact absurd hended (hopen h)
  | prepare k rest resume y item h => exact absurd hended (hopen h)
  | unprepare k rest resume y h => exact absurd hended (hopen h)
  | take k y h => exact absurd hended (hopen h)
  | give k y h => exact absurd hended (hopen h)
  | stop pending current calls ending h => exact absurd hended (hopen h)
  | shut ending hpc =>
    have hidle := hcontrol.ended hended
    simp [hpc] at hidle
  | drained ending hpc hdone => exact hdone x hx

/-- **Every step keeps the works.** -/
theorem Move.works (h : Move call w w') (hcontrol : w.Control) (hw : w.Works call) :
    w'.Works call := by
  refine ⟨h.sound hcontrol hw, ?_, ?_, h.refill hw, h.phases_of_ended hcontrol hw⟩
  · have hcount := hw.count
    cases h <;> simp_all [World.modify, World.toPrepare, World.beginClose]
  · have hcount := hw.count
    have hexhausted := hw.exhausted
    cases h <;> simp_all [World.modify, World.toPrepare, World.beginClose]
    omega

/-! ## The logs -/

/-- What a map has done, and how its works show it. -/
structure World.Logs (w : World ι π ω ε) : Prop where
  prepareLog : w.prepareLog.Nodup
  isPrepared : ∀ k ∈ w.prepareLog, ∃ x, w.works[k]? = some x ∧ x.prepared = true
  functionLog : w.functionLog.Nodup
  isPast : ∀ k ∈ w.functionLog, ∃ x, w.works[k]? = some x ∧ x.phase.past = true
  callbackLog : w.callbackLog.Nodup
  isConverted : ∀ k ∈ w.callbackLog, ∃ x, w.works[k]? = some x ∧ x.phase = .done ∧
    (w.closed = false → x.error = none)
  refusals : (w.refusals.map Prod.fst).Nodup
  isRefused : ∀ y ∈ w.refusals, ∃ x, w.works[y.1]? = some x ∧ x.admitted = false ∧
    (x.phase = .left (some y.2) ∨ x.phase = .done)

theorem World.Logs.initial : (World.initial : World ι π ω ε).Logs := by
  constructor <;> simp [World.initial]

/-- A log that is written to at most once, with what the new work shows. -/
def Grows {α : Type} (works : List (Work π ω ε)) (index : α → ℕ) (p : α → Work π ω ε → Prop)
    (l l' : List α) : Prop :=
  l' = l ∨ ∃ a, l' = l ++ [a] ∧ index a ∉ l.map index ∧ ∃ x, works[index a]? = some x ∧ p a x

section Grows

variable {α : Type} {index : α → ℕ} {p p' : α → Work π ω ε → Prop} {l l' : List α}

theorem Grows.nodup (h : Grows w'.works index p l l') (hl : (l.map index).Nodup) :
    (l'.map index).Nodup := by
  obtain rfl | ⟨a, rfl, ha, -⟩ := h
  · exact hl
  · rw [List.map_append, List.map_singleton, List.nodup_append]
    refine ⟨hl, List.nodup_singleton _, fun b hb c hc hbc => ha ?_⟩
    rw [← List.mem_singleton.mp hc, ← hbc]
    exact hb

theorem Grows.all (h : Grows w'.works index p' l l') (hlater : w.Forward w')
    (hp : ∀ a (x x' : Work π ω ε), x.Later x' → p a x → p' a x')
    (hl : ∀ a ∈ l, ∃ x, w.works[index a]? = some x ∧ p a x) :
    ∀ a ∈ l', ∃ x, w'.works[index a]? = some x ∧ p' a x := by
  have hold : ∀ a ∈ l, ∃ x, w'.works[index a]? = some x ∧ p' a x := fun a ha => by
    obtain ⟨x, hx, hpx⟩ := hl a ha
    obtain ⟨x', hx', hxx'⟩ := hlater _ x hx
    exact ⟨x', hx', hp a x x' hxx' hpx⟩
  obtain rfl | ⟨b, rfl, -, hb⟩ := h
  · exact hold
  · intro a ha
    obtain ha | ha := List.mem_append.mp ha
    · exact hold a ha
    · rw [List.mem_singleton.mp ha]
      exact hb

end Grows

/-- The logs behind a step that writes to each of them at most once. -/
theorem World.Logs.grow (hw : w.Logs) (hlater : w.Forward w')
    (hopen : w'.closed = false → w.closed = false)
    (hprepare : Grows w'.works id (fun _ x => x.prepared = true) w.prepareLog w'.prepareLog)
    (hfunction : Grows w'.works id (fun _ x => x.phase.past = true) w.functionLog w'.functionLog)
    (hcalls : Grows w'.works id (fun _ x => x.phase = .done ∧ (w'.closed = false → x.error = none))
      w.callbackLog w'.callbackLog)
    (hrefusals : Grows w'.works Prod.fst
      (fun y x => x.admitted = false ∧ (x.phase = .left (some y.2) ∨ x.phase = .done))
      w.refusals w'.refusals) : w'.Logs where
  prepareLog := by simpa using hprepare.nodup (by simpa using hw.prepareLog)
  isPrepared := hprepare.all hlater (fun _ _ _ h hx => h.prepared hx) hw.isPrepared
  functionLog := by simpa using hfunction.nodup (by simpa using hw.functionLog)
  isPast := hfunction.all hlater (fun _ _ _ h hx => h.past hx) hw.isPast
  callbackLog := by simpa using hcalls.nodup (by simpa using hw.callbackLog)
  isConverted := hcalls.all hlater
    (fun _ _ _ h hx => ⟨(h.done hx.1).1, fun hclosed => (h.done hx.1).2.2 (hx.2 (hopen hclosed))⟩)
    hw.isConverted
  refusals := hrefusals.nodup hw.refusals
  isRefused := by
    refine hrefusals.all hlater (fun y x x' h hx => ?_) hw.isRefused
    obtain ⟨hadmitted, hleft | hdone⟩ := hx
    · exact h.left _ hleft hadmitted
    · obtain ⟨hdone', hsame, -⟩ := h.done hdone
      exact ⟨hsame.trans hadmitted, .inr hdone'⟩

/-- A refused work is not in the log of the callback. -/
theorem World.Logs.not_mem_of_refused (hw : w.Logs) (hopen : w.closed = false) {k : ℕ}
    {x : Work π ω ε} {e : ε} (hx : w.works[k]? = some x) (hrefused : x.refused e) :
    k ∉ w.callbackLog := by
  intro hk
  obtain ⟨y, hy, -, herror⟩ := hw.isConverted k hk
  obtain rfl : x = y := Option.some_inj.mp (hx.symm.trans hy)
  simp [hrefused.2.1] at herror
  simp [hopen] at herror

/-- A worker calls its function behind its preparation only. -/
theorem WorkStep.phase_of_applied {closed cancelled : Bool} {x x' : Work π ω ε}
    (h : WorkStep call closed cancelled x x' true) :
    x.phase = .preparing ∧ x'.phase.past = true := by
  generalize happlied : true = applied at h
  cases h with
  | compute h => exact ⟨h, happlied ▸ rfl⟩
  | _ => cases happlied

/-- **Every step writes to the logs once.** -/
theorem Move.logs (h : Move call w w') (hw : w.Works call) (hlogs : w.Logs) : w'.Logs := by
  have hlater := h.later hw
  cases h with
  | worker k x x' applied hx h =>
    refine hlogs.grow hlater id (.inl rfl) ?_ (.inl rfl) (.inl rfl)
    cases applied with
    | false => exact .inl rfl
    | true =>
      obtain ⟨hphase, hpast⟩ := h.phase_of_applied
      refine .inr ⟨k, rfl, ?_, x', ?_, hpast⟩
      · rw [List.map_id]
        intro hk
        obtain ⟨y, hy, hpast'⟩ := hlogs.isPast k hk
        obtain rfl : x = y := Option.some_inj.mp (hx.symm.trans hy)
        simp [hphase, Phase.past] at hpast'
      · simp [(List.getElem?_eq_some_iff.mp hx).1]
  | refuse k x f hx hwaiting =>
    refine hlogs.grow hlater id (.inl rfl) (.inl rfl) (.inl rfl) (.inr ⟨(k, f), rfl, ?_, ?_⟩)
    · intro hk
      obtain ⟨y, hy, rfl⟩ := List.mem_map.mp hk
      obtain ⟨x', hx', -, hphase⟩ := hlogs.isRefused y hy
      obtain rfl : x = x' := Option.some_inj.mp (hx.symm.trans hx')
      simp [hwaiting] at hphase
    · have hfits := (hw.sound k x hx).fits
      rw [Work.Fits, hwaiting] at hfits
      refine ⟨{ x with phase := .left (some f) }, ?_, hfits.1, .inl rfl⟩
      simp [(List.getElem?_eq_some_iff.mp hx).1]
  | convert k rest resume x item e callback v hopen hfrom hx hrefused =>
    refine hlogs.grow hlater id (.inl rfl) (.inl rfl) (.inr ⟨k, rfl, ?_, x.converted v, ?_, ?_⟩)
      (.inl rfl)
    · rw [List.map_id]
      exact hlogs.not_mem_of_refused hopen hx hrefused
    · simp [World.modify, hx]
    · exact ⟨(hw.sound k x hx).phase_of_error hrefused.2.1, fun _ => rfl⟩
  | prepare k rest resume x item hopen hfrom hx hprepared =>
    refine hlogs.grow hlater id (.inr ⟨k, rfl, ?_, x.preparedWith (call.prepare item), ?_, ?_⟩)
      (.inl rfl) (.inl rfl) (.inl rfl)
    · rw [List.map_id]
      intro hk
      obtain ⟨y, hy, hprepared'⟩ := hlogs.isPrepared k hk
      obtain rfl : x = y := Option.some_inj.mp (hx.symm.trans hy)
      simp [hprepared] at hprepared'
    · simp [World.modify, hx]
    · unfold Work.preparedWith
      split <;> rfl
  | stop pending current calls ending hopen hcalls =>
    refine hlogs.grow hlater (fun h => by cases h) (.inl rfl) (.inl rfl) ?_ (.inl rfl)
    obtain rfl | ⟨k, x, e, rfl, hx, hrefused⟩ := hcalls
    · exact .inl rfl
    · refine .inr ⟨k, rfl, ?_, x, hx, ?_, fun h => by cases h⟩
      · rw [List.map_id]
        exact hlogs.not_mem_of_refused hopen hx hrefused
      · exact (hw.sound k x hx).phase_of_error hrefused.2.1
  | _ => exact hlogs.grow hlater id (.inl rfl) (.inl rfl) (.inl rfl) (.inl rfl)

end Elastic
end Neocortex
