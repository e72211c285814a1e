import Neocortex.Elastic.Invariant

/-!
# The window of a map

The window of an elastic map holds the items that were pulled and not handed out.  With those that
were handed out it is the list of all pulled items, in their order unless the map was asked for the
first that is done; and it is never larger than the largest target.

* `Step.bounded`: the size of the window.
* `Step.place`: what the owner knows of the window where it is.
* `Move.line`: the items that were handed out, the one in hand and the window.
-/

namespace Neocortex
namespace Elastic

variable {ι π ω ε : Type} {call : Call ι π ω ε} {w w' : World ι π ω ε}

/-! ## The size of the window -/

/-- The limit of a caller of `_prepare_submitted`. -/
def Back.limit : Back → ℕ
  | .pendingLoop _ limit => limit
  | .fillLoop limit => limit

/-- The limit of a caller of `_prepare_ready`. -/
def Resume.limits : Resume → List ℕ
  | .pendingLoop limit => [limit]
  | .submitted _ back => [back.limit]
  | .select => []

/-- The limit of `_fill` at a place of the owner. -/
def Pc.limits : Pc ε → List ℕ
  | .prepare _ resume => resume.limits
  | .pendingLoop _ limit => [limit]
  | .awaitAdmission _ back => [back.limit]
  | .awaitReady _ back => [back.limit]
  | .fillLoop limit => [limit]
  | _ => []

/-- The window is not larger than the largest target. -/
structure World.Bounded (w : World ι π ω ε) : Prop where
  pending : w.pending.length ≤ max 1 w.largest
  limits : ∀ n ∈ w.pc.limits, n ≤ max 1 w.largest

theorem limit_le {t : Option ℕ} {target : ℕ} (h : call.target? t = some target) (n : ℕ) :
    call.limit target ≤ max 1 (max n (t.getD 0)) := by
  have htarget : target ≤ max 1 (t.getD 0) := by
    cases t with
    | some m =>
      obtain rfl : m = target := Option.some_inj.mp h
      exact le_max_right _ _
    | none =>
      simp only [Call.target?] at h
      split at h
      · obtain rfl : 1 = target := Option.some_inj.mp h
        exact le_max_left _ _
      · cases h
  unfold Call.limit
  split <;> omega

theorem limits_back (back : Back) : (back.pc : Pc ε).limits = [back.limit] := by
  cases back <;> rfl

theorem limits_afterSubmit (k limit : ℕ) :
    (call.afterSubmit k limit : Pc ε).limits = [limit] := by
  unfold Call.afterSubmit
  split <;> rfl

theorem World.Bounded.initial : (World.initial : World ι π ω ε).Bounded :=
  ⟨by simp [World.initial], by simp [World.initial, Pc.limits]⟩

/-- **The window stays within the largest target.** -/
theorem Step.bounded (h : Step call w w') (hw : w.Bounded) : w'.Bounded := by
  obtain ⟨hpending, hlimits⟩ := hw
  cases h with
  | reportedWindow t target hpc ht =>
    refine ⟨?_, ?_⟩
    · show w.pending.length ≤ max 1 (max w.largest (t.getD 0))
      omega
    · simp only [World.toPrepare, Pc.limits, Resume.limits, List.mem_singleton]
      rintro n rfl
      exact limit_le ht _
  | reported t target hpc ht =>
    refine ⟨?_, ?_⟩
    · show w.pending.length ≤ max 1 (max w.largest (t.getD 0))
      omega
    · simp only [Pc.limits, List.mem_singleton]
      rintro n rfl
      exact limit_le ht _
  | refilled k t target hpc ht =>
    refine ⟨?_, ?_⟩
    · show w.pending.length ≤ max 1 (max w.largest (t.getD 0))
      omega
    · simp only [limits_afterSubmit, List.mem_singleton]
      rintro n rfl
      exact limit_le ht _
  | pull limit hpc hmore hroom =>
    have hlimit := hlimits limit (by simp [hpc, Pc.limits])
    refine ⟨?_, ?_⟩
    · simp only [List.length_append, List.length_singleton]
      omega
    · simpa [limits_afterSubmit] using hlimit
  | pullEstimated limit hpc hmore hroom =>
    have hlimit := hlimits limit (by simp [hpc, Pc.limits])
    refine ⟨?_, by simp [Pc.limits]⟩
    simp only [List.length_append, List.length_singleton]
    omega
  | takeError k x f hpc =>
    refine ⟨?_, by simp [World.beginClose, Pc.limits]⟩
    exact le_trans (List.erase_sublist.length_le) hpending
  | takeValue k x hpc =>
    refine ⟨?_, by simp [Pc.limits]⟩
    exact le_trans (List.erase_sublist.length_le) hpending
  | drained => exact ⟨by simp, by simp [Pc.limits]⟩
  | readySeen k back x hpc =>
    rw [hpc] at hlimits
    exact ⟨hpending, by rw [limits_back]; exact hlimits⟩
  | prepareReady k back x hpc =>
    rw [hpc] at hlimits
    exact ⟨hpending, by rw [limits_back]; exact hlimits⟩
  | _ =>
    refine ⟨hpending, ?_⟩
    simp_all [World.modify, World.toPrepare, World.beginClose, Pc.limits, Resume.limits, Back.limit]

/-! ## The places of the owner -/

/-- What the owner has seen of the window where it is. -/
def World.Place (call : Call ι π ω ε) (w : World ι π ω ε) : Prop :=
  match w.pc with
  | .scan rest => rest ⊆ w.pending ∧ call.completionOrder = true
  | .take k => k ∈ w.pending ∧ (∃ x, w.works[k]? = some x ∧ x.ready = true) ∧
      (call.completionOrder = false → w.pending.head? = some k)
  | .giving k => w.current = some k ∧ (∃ x, w.works[k]? = some x ∧ x.ready = true) ∧
      (w.cancelled = false → ∃ x, w.works[k]? = some x ∧ x.Settled)
  | _ => True

/-- The works of the window are not released. -/
def World.Unreleased (w : World ι π ω ε) : Prop :=
  w.closed = false → ∀ k ∈ w.pending, ∀ x, w.works[k]? = some x → x.release = false

/-- A step of a worker leaves the place of the owner as it is. -/
theorem World.Place.keep (hw : w.Place call) (hlater : w.Forward w') (hpc : w'.pc = w.pc)
    (hpending : w'.pending = w.pending) (hcurrent : w'.current = w.current)
    (hsettled : w'.cancelled = false → w.cancelled = false ∧ ∀ (k : ℕ) (x : Work π ω ε),
      w.works[k]? = some x → x.Settled → ∃ x', w'.works[k]? = some x' ∧ x'.Settled) :
    w'.Place call := by
  have hready : ∀ k : ℕ, (∃ x, w.works[k]? = some x ∧ x.ready = true) →
      ∃ x, w'.works[k]? = some x ∧ x.ready = true := by
    rintro k ⟨x, hx, hready⟩
    obtain ⟨x', hx', hlater⟩ := hlater k x hx
    exact ⟨x', hx', (hlater.ready hready).1⟩
  unfold World.Place at hw ⊢
  rw [hpc, hpending, hcurrent]
  cases hplace : w.pc with
  | scan rest =>
    rw [hplace] at hw
    exact hw
  | take k =>
    rw [hplace] at hw
    exact ⟨hw.1, hready k hw.2.1, hw.2.2⟩
  | giving k =>
    rw [hplace] at hw
    refine ⟨hw.1, hready k hw.2.1, fun hcancel => ?_⟩
    obtain ⟨hcancelled, hkeep⟩ := hsettled hcancel
    obtain ⟨x, hx, hx'⟩ := hw.2.2 hcancelled
    exact hkeep k x hx hx'
  | _ => trivial

/-- A settled work is left alone while the map is not cancelled. -/
theorem settled_set {j k : ℕ} {x x' y : Work π ω ε} (hx : w.works[j]? = some x)
    (hx' : ¬ x.Settled) (hy : w.works[k]? = some y) (hsettled : y.Settled) :
    ∃ y', (w.works.set j x')[k]? = some y' ∧ y'.Settled := by
  by_cases hjk : j = k
  · subst hjk
    obtain rfl : x = y := Option.some_inj.mp (hx.symm.trans hy)
    exact absurd hsettled hx'
  · exact ⟨y, by simpa [hjk] using hy, hsettled⟩

theorem place_afterSubmit {k limit : ℕ} (hpc : w.pc = call.afterSubmit k limit) :
    w.Place call := by
  unfold Call.afterSubmit at hpc
  split at hpc <;> rw [World.Place, hpc] <;> trivial

theorem place_back {back : Back} (hpc : w.pc = back.pc) : w.Place call := by
  cases back <;> rw [World.Place, hpc] <;> trivial

theorem Step.place (h : Step call w w') (hcontrol : w.Control) (hworks : w.Works call)
    (hrelease : w.Unreleased) (hw : w.Place call) : w'.Place call := by
  have hlater := (h.move hcontrol).later hworks
  cases h with
  | worker k x x' applied hx h =>
    refine hw.keep hlater rfl rfl rfl fun hcancel => ⟨hcancel, fun j y hy hsettled => ?_⟩
    rw [show w.cancelled = false from hcancel] at h
    exact settled_set hx h.not_settled hy hsettled
  | refuse k x f hx hwaiting =>
    refine hw.keep hlater rfl rfl rfl fun hcancel => ⟨hcancel, fun j y hy hsettled => ?_⟩
    refine settled_set hx ?_ hy hsettled
    rintro ⟨-, -, hphase⟩
    simp [hwaiting] at hphase
  | cancel => exact hw.keep hlater rfl rfl rfl (by simp)
  | selectScan hpc hmore horder => exact ⟨List.Subset.refl _, horder⟩
  | selectHead k rest x hpc hpending horder hx hready =>
    refine ⟨?_, ⟨x, hx, hready⟩, fun _ => ?_⟩
    · simp [hpending]
    · simp [hpending]
  | scanHit k rest x hpc hx hready =>
    rw [World.Place, hpc] at hw
    refine ⟨hw.1 (by simp), ⟨x, hx, hready⟩, fun hfalse => ?_⟩
    simp [hw.2] at hfalse
  | scanMiss k rest x hpc =>
    rw [World.Place, hpc] at hw
    exact ⟨fun j hj => hw.1 (by simp [hj]), hw.2⟩
  | takeValue k x hpc hcancel hx herror =>
    rw [World.Place, hpc] at hw
    obtain ⟨hk, hready, -⟩ := hw
    refine ⟨rfl, hready, fun _ => ⟨x, hx, ?_⟩⟩
    obtain ⟨y, hy, hyready⟩ := hready
    obtain rfl : x = y := Option.some_inj.mp (hx.symm.trans hy)
    have hopen := hcontrol.open_of_running (by rw [hpc]; rfl)
    have hsound := hworks.sound k x hx
    rw [hcancel] at hsound
    exact hsound.settled hyready herror (hrelease hopen k hk x hx)
  | pull => exact place_afterSubmit rfl
  | refilled => exact place_afterSubmit rfl
  | readySeen => exact place_back rfl
  | prepareReady => exact place_back rfl
  | _ => trivial

/-! ## The line of the items -/

/-- The list has every index below `n` once, in order unless the map hands out what is first done. -/
def Arranged (completionOrder : Bool) (l : List ℕ) (n : ℕ) : Prop :=
  if completionOrder then l.Perm (List.range n) else l = List.range n

theorem Arranged.perm {completionOrder : Bool} {l : List ℕ} {n : ℕ}
    (h : Arranged completionOrder l n) : l.Perm (List.range n) := by
  unfold Arranged at h
  split at h
  · exact h
  · rw [h]

theorem Arranged.nodup {completionOrder : Bool} {l : List ℕ} {n : ℕ}
    (h : Arranged completionOrder l n) : l.Nodup :=
  h.perm.nodup_iff.mpr List.nodup_range

theorem Arranged.concat {completionOrder : Bool} {l : List ℕ} {n : ℕ}
    (h : Arranged completionOrder l n) : Arranged completionOrder (l ++ [n]) (n + 1) := by
  unfold Arranged at h ⊢
  split
  · rw [if_pos (by assumption)] at h
    rw [List.range_succ]
    exact h.append_right [n]
  · rw [if_neg (by assumption)] at h
    rw [List.range_succ, h]

/-- The work that `__next__` has taken and not returned. -/
def World.inHand (w : World ι π ω ε) : List ℕ :=
  match w.pc with
  | .giving k => [k]
  | _ => []

theorem inHand_eq_nil (h : ∀ k, w.pc ≠ .giving k) : w.inHand = [] := by
  unfold World.inHand
  split
  · exact absurd ‹_› (h _)
  · rfl

/-- The items that were handed out, the one in hand and the window. -/
def World.line (w : World ι π ω ε) : List ℕ :=
  w.yielded.map Prod.fst ++ w.inHand ++ w.pending

/-- What holds of the window of an open map. -/
structure World.Line (call : Call ι π ω ε) (w : World ι π ω ε) : Prop where
  arranged : w.closed = false → Arranged call.completionOrder w.line w.works.length
  current : w.closed = false → ∀ k, w.current = some k → k ∈ w.yielded.map Prod.fst ++ w.inHand
  unreleased : w.Unreleased

theorem World.Line.initial : (World.initial : World ι π ω ε).Line call := by
  refine ⟨fun _ => ?_, by simp [World.initial], by simp [World.Unreleased, World.initial]⟩
  unfold Arranged
  split <;> simp [World.line, World.inHand, World.initial]

/-- A step that leaves the line as it is. -/
theorem World.Line.keep (hw : w.Line call) (hopen : w'.closed = false → w.closed = false)
    (hyielded : w'.yielded = w.yielded) (hhand : w'.inHand = w.inHand)
    (hpending : w'.pending = w.pending) (hlength : w'.works.length = w.works.length)
    (hcurrent : w'.current = w.current)
    (hrelease : ∀ (k : ℕ) (x : Work π ω ε), k ∈ w.pending → w'.works[k]? = some x →
      ∃ y, w.works[k]? = some y ∧ x.release = y.release) : w'.Line call where
  arranged h := by
    rw [World.line, hyielded, hhand, hpending, hlength]
    exact hw.arranged (hopen h)
  current h k hk := by
    rw [hyielded, hhand]
    exact hw.current (hopen h) k (hcurrent ▸ hk)
  unreleased h k hk x hx := by
    rw [hpending] at hk
    obtain ⟨y, hy, hsame⟩ := hrelease k x hk hx
    exact hsame.trans (hw.unreleased (hopen h) k hk y hy)

/-- A step behind which the map is closed. -/
theorem World.Line.of_closed (h : w.closed = true) : w.Line call :=
  ⟨by simp [h], by simp [h], by simp [World.Unreleased, h]⟩

theorem release_set {works : List (Work π ω ε)} {j : ℕ} {x x' : Work π ω ε}
    (hx : works[j]? = some x) (h : x'.release = x.release) (k : ℕ) (y : Work π ω ε)
    (hy : (works.set j x')[k]? = some y) : ∃ z, works[k]? = some z ∧ y.release = z.release := by
  by_cases hjk : j = k
  · subst hjk
    rw [List.getElem?_set_self'] at hy
    obtain ⟨z, hz, rfl⟩ := Option.map_eq_some_iff.mp hy
    exact ⟨x, hx, h⟩
  · rw [List.getElem?_set_ne hjk] at hy
    exact ⟨y, hy, rfl⟩

theorem release_modify {works : List (Work π ω ε)} {j : ℕ} {f : Work π ω ε → Work π ω ε}
    (h : ∀ x, (f x).release = x.release) (k : ℕ) (y : Work π ω ε)
    (hy : (works.modify j f)[k]? = some y) : ∃ z, works[k]? = some z ∧ y.release = z.release := by
  rw [List.getElem?_modify] at hy
  obtain ⟨z, hz, rfl⟩ := Option.map_eq_some_iff.mp hy
  refine ⟨z, hz, ?_⟩
  split
  · exact h z
  · rfl

theorem preparedWith_release (x : Work π ω ε) (r : Except (Fault ε) (Prepared π ω)) :
    (x.preparedWith r).release = x.release := by
  cases r <;> rfl

theorem WorkStep.release {closed cancelled applied : Bool} {x x' : Work π ω ε}
    (h : WorkStep call closed cancelled x x' applied) : x'.release = x.release := by
  cases h <;> rfl

/-- **Every step keeps the line of the items.** -/
theorem Move.line (h : Move call w w') (hcontrol : w.Control) (hplace : w.Place call)
    (hw : w.Line call) : w'.Line call := by
  cases h with
  | worker k x x' applied hx h =>
    exact hw.keep id rfl rfl rfl (List.length_set ..) rfl
      (fun j y _ hy => release_set hx h.release j y hy)
  | refuse k x f hx hwaiting =>
    refine hw.keep id rfl rfl rfl (List.length_set ..) rfl
      (fun j y _ hy => release_set hx ?_ j y hy)
    rfl
  | cancel => exact hw.keep id rfl rfl rfl rfl rfl (fun j y _ hy => ⟨y, hy, rfl⟩)
  | walk pc n hopen hleft hplain =>
    refine hw.keep id rfl ?_ rfl rfl rfl (fun j y _ hy => ⟨y, hy, rfl⟩)
    rw [inHand_eq_nil hleft, inHand_eq_nil (ne_giving_of_plain hplain)]
  | exhaust limit resume hopen hfrom =>
    refine hw.keep id rfl ?_ rfl rfl rfl (fun j y _ hy => ⟨y, hy, rfl⟩)
    rw [World.inHand, World.inHand, hfrom]
    rfl
  | release k hpc hopen hcurrent =>
    have hline := hw.arranged hopen
    have hhand : w.inHand = [] := by rw [World.inHand, hpc]
    have hk := hw.current hopen k hcurrent
    refine ⟨fun _ => ?_, by simp, fun _ j hj x hx => ?_⟩
    · show Arranged call.completionOrder (w.yielded.map Prod.fst ++ [] ++ w.pending)
        (w.works.modify k Work.released).length
      rwa [List.length_modify, ← hhand]
    · have hkj : k ≠ j := by
        rintro rfl
        exact (List.nodup_append.mp hline.nodup).2.2 k hk k hj rfl
      have hx' : (w.works.modify k Work.released)[j]? = some x := hx
      rw [List.getElem?_modify_ne _ _ hkj] at hx'
      exact hw.unreleased hopen j hj x hx'
  | pull limit phase pc hopen hfrom hmore hroom hitem hphase =>
    have hline := hw.arranged hopen
    have hhand : w.inHand = [] := by rw [World.inHand, hfrom]
    have hhand' : ∀ k, pc ≠ .giving k := by
      obtain ⟨-, rfl⟩ | ⟨-, rfl⟩ := hphase
      · exact ne_giving_of_plain (afterSubmit_plain _ _)
      · simp
    refine ⟨fun _ => ?_, fun _ k hk => ?_, fun _ j hj x hx => ?_⟩
    · rw [World.line, hhand] at hline
      rw [World.line, inHand_eq_nil hhand', List.length_append, List.length_singleton,
        ← List.append_assoc]
      exact hline.concat
    · rw [inHand_eq_nil hhand', ← hhand]
      exact hw.current hopen k hk
    · rw [List.getElem?_append] at hx
      split at hx
      · obtain hj | hj := List.mem_append.mp hj
        · exact hw.unreleased hopen j hj x hx
        · have := List.mem_singleton.mp hj
          omega
      · rw [List.getElem?_singleton] at hx
        split at hx
        · rw [← Option.some_inj.mp hx]
          rfl
        · cases hx
  | submit k n limit hopen hfrom =>
    refine hw.keep id rfl ?_ rfl (List.length_modify ..) rfl
      (fun j y _ hy => release_modify ?_ j y hy)
    · rw [inHand_eq_nil (ne_giving_of_plain (afterSubmit_plain _ _)), World.inHand, hfrom]
    · exact fun _ => rfl
  | convert k rest resume x item e callback v hopen hfrom =>
    refine hw.keep id rfl ?_ rfl (List.length_modify ..) rfl
      (fun j y _ hy => release_modify ?_ j y hy)
    · rw [World.inHand, World.inHand, hfrom]
    · exact fun _ => rfl
  | prepare k rest resume x item hopen hfrom =>
    refine hw.keep id rfl ?_ rfl (List.length_modify ..) rfl
      (fun j y _ hy => release_modify ?_ j y hy)
    · rw [World.inHand, World.inHand, hfrom]
    · exact fun _ => preparedWith_release _ _
  | unprepare k rest resume x hopen hfrom =>
    refine hw.keep id rfl ?_ rfl (List.length_modify ..) rfl
      (fun j y _ hy => release_modify ?_ j y hy)
    · rw [World.inHand, World.inHand, hfrom]
    · exact fun _ => preparedWith_release _ _
  | take k x hopen hfrom =>
    have hline := hw.arranged hopen
    rw [World.line, World.inHand, hfrom] at hline
    rw [World.Place, hfrom] at hplace
    obtain ⟨hk, -, hhead⟩ := hplace
    refine ⟨fun _ => ?_, ?_, fun _ j hj y hy => ?_⟩
    · show Arranged call.completionOrder (w.yielded.map Prod.fst ++ [k] ++ w.pending.erase k)
        w.works.length
      rw [List.append_nil] at hline
      rw [List.append_assoc, List.singleton_append]
      cases horder : call.completionOrder with
      | true =>
        rw [horder] at hline
        exact ((List.perm_cons_erase hk).symm.append_left _).trans hline.perm
      | false =>
        obtain ⟨rest, hrest⟩ : ∃ rest, w.pending = k :: rest :=
          ⟨_, List.eq_cons_of_mem_head? (hhead horder)⟩
        rw [horder, hrest] at hline
        rw [hrest, List.erase_cons_head]
        exact hline
    · intro _ j hj
      obtain rfl : k = j := Option.some_inj.mp hj
      simp [World.inHand]
    · exact hw.unreleased hopen j (List.mem_of_mem_erase hj) y hy
  | give k x hopen hfrom =>
    have hline := hw.arranged hopen
    have hcurrent := hw.current hopen
    rw [World.line, World.inHand, hfrom] at hline
    rw [World.inHand, hfrom] at hcurrent
    refine ⟨fun _ => ?_, fun _ j hj => ?_, fun _ j hj y hy => hw.unreleased hopen j hj y hy⟩
    · show Arranged call.completionOrder
        ((w.yielded ++ [(k, x.value)]).map Prod.fst ++ [] ++ w.pending) w.works.length
      simpa using hline
    · simpa [World.inHand] using hcurrent j hj
  | stop pending current calls ending hopen => exact .of_closed rfl
  | shut ending hpc =>
    refine .of_closed ?_
    show w.closed = true
    rw [hcontrol.closed, World.ending, hpc]
    rfl
  | drained ending hpc =>
    refine .of_closed ?_
    show w.closed = true
    rw [hcontrol.closed, World.ending, hpc]
    rfl

end Elastic
end Neocortex
