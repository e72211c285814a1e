import Mathlib

/-!
# Programs with durable writes

A program of this kind reads a state, replaces it by durable writes and ends with a
value or an error.  Its outcome keeps the state after *every* write, since a crash may
stop the program right behind any of them: what a crash can leave is the starting
state or a member of `Outcome.writes`.

`wp x s C Q` says of the program `x` started in `s` that every state a crash can leave
satisfies `C` and that the end satisfies `Q`.  The rules below compute it, one for each
way to build a program, so that a proof about a program follows its text.

* `wp_bind`, `wp_seq`: sequencing;
* `wp_check`: a check that may raise;
* `wp_handle`: an exception handler;
* `wp_each`: a loop over a list, from an invariant;
* `wp_hide`: a program whose volatile state is lost when it ends;
* `wp_mono`: weakening both conditions;
* `Keeps`: an invariant behind every write, with its own rules for the same constructions;
* `Step.invariant`: a condition that every program of a family keeps holds in every
  state that any number of calls and crashes can reach.
-/

namespace Neocortex
namespace Durable

variable {σ τ ε α β ι : Type}

/-- The states after the durable writes of a program, oldest first, and how it ended. -/
structure Outcome (σ ε α : Type) where
  writes : List σ
  result : Except ε α

/-- The state at the end of a program started in `s`. -/
def Outcome.final (o : Outcome σ ε α) (s : σ) : σ := o.writes.getLast?.getD s

/-- A program over the durable state `σ` with errors `ε`. -/
def Program (σ ε α : Type) : Type := σ → Outcome σ ε α

namespace Program

/-- The current state. -/
def read : Program σ ε σ := fun s => ⟨[], .ok s⟩

/-- One durable write: the whole state at once. -/
def write (t : σ) : Program σ ε Unit := fun _ => ⟨[t], .ok ()⟩

/-- A computation without effect. -/
def ofExcept (r : Except ε α) : Program σ ε α := fun _ => ⟨[], r⟩

def bind (x : Program σ ε α) (f : α → Program σ ε β) : Program σ ε β := fun s =>
  match (x s).result with
  | .error e => ⟨(x s).writes, .error e⟩
  | .ok a =>
    let o := f a ((x s).final s)
    ⟨(x s).writes ++ o.writes, o.result⟩

/-- `try: x; except e: h(e)`.  What `x` wrote before it raised stays written. -/
def handle (x : Program σ ε α) (h : ε → Program σ ε α) : Program σ ε α := fun s =>
  match (x s).result with
  | .ok a => ⟨(x s).writes, .ok a⟩
  | .error e =>
    let o := h e ((x s).final s)
    ⟨(x s).writes ++ o.writes, o.result⟩

/-- A program with volatile state: it starts from `start s`, and of each of its states
only `durable t` is left. -/
def hide (start : σ → τ) (durable : τ → σ) (x : Program τ ε α) : Program σ ε α := fun s =>
  ⟨(x (start s)).writes.map durable, (x (start s)).result⟩

instance : Monad (Program σ ε) where
  pure a := ofExcept (.ok a)
  bind := bind

instance : MonadLift (Except ε) (Program σ ε) where
  monadLift := ofExcept

/-- `for b in l: f(b)`. -/
def each (f : β → Program σ ε Unit) : List β → Program σ ε Unit
  | [] => pure ()
  | b :: rest => do
    f b
    each f rest

/-- The state that a crash behind the first `n` writes leaves. -/
def behind (x : Program σ ε α) (s : σ) (n : ℕ) : Option σ := (s :: (x s).writes)[n]?

/-! ### The outcome of a program -/

variable {x : Program σ ε α} {f : α → Program σ ε β} {h : ε → Program σ ε α} {s : σ} {ws : List σ}
  {a : α} {e : ε}

theorem read_bind (f : σ → Program σ ε β) (s : σ) : (read >>= f) s = f s s := rfl

theorem write_bind (t : σ) (f : Unit → Program σ ε β) (s : σ) :
    (write t >>= f) s = ⟨t :: (f () t).writes, (f () t).result⟩ := rfl

theorem ok_bind (a : α) (f : α → Program σ ε β) (s : σ) : (ofExcept (.ok a) >>= f) s = f a s := rfl

theorem error_bind (e : ε) (f : α → Program σ ε β) (s : σ) :
    (ofExcept (.error e) >>= f) s = ⟨[], .error e⟩ := rfl

theorem bind_of_ok (hx : x s = ⟨ws, .ok a⟩) :
    (x >>= f) s =
      ⟨ws ++ (f a (ws.getLast?.getD s)).writes, (f a (ws.getLast?.getD s)).result⟩ := by
  have hb : (x >>= f) = Program.bind x f := rfl
  rw [hb, Program.bind, hx]
  rfl

theorem bind_of_error (hx : x s = ⟨ws, .error e⟩) : (x >>= f) s = ⟨ws, .error e⟩ := by
  have hb : (x >>= f) = Program.bind x f := rfl
  rw [hb, Program.bind, hx]

theorem handle_of_ok (hx : x s = ⟨ws, .ok a⟩) : x.handle h s = ⟨ws, .ok a⟩ := by
  rw [Program.handle, hx]

theorem handle_of_error (hx : x s = ⟨ws, .error e⟩) :
    x.handle h s =
      ⟨ws ++ (h e (ws.getLast?.getD s)).writes, (h e (ws.getLast?.getD s)).result⟩ := by
  rw [Program.handle, hx]
  rfl

end Program

/-! ## Weakest preconditions -/

/-- From `s`, every state that `x` writes satisfies `C`, and its end satisfies `Q`. -/
def wp (x : Program σ ε α) (s : σ) (C : σ → Prop) (Q : Except ε α → σ → Prop) : Prop :=
  (∀ t ∈ (x s).writes, C t) ∧ Q (x s).result ((x s).final s)

/-- A condition on the end of a program, by how it ended. -/
def onEnd (P : α → σ → Prop) (E : ε → σ → Prop) : Except ε α → σ → Prop
  | .ok a, t => P a t
  | .error e, t => E e t

@[simp] theorem onEnd_ok {P : α → σ → Prop} {E : ε → σ → Prop} (a : α) (t : σ) :
    onEnd P E (.ok a) t ↔ P a t := Iff.rfl

@[simp] theorem onEnd_error {P : α → σ → Prop} {E : ε → σ → Prop} (e : ε) (t : σ) :
    onEnd P E (.error e) t ↔ E e t := Iff.rfl

variable {s : σ} {C : σ → Prop} {l : List β}

theorem wp_mono {x : Program σ ε α} {C' : σ → Prop} {Q Q' : Except ε α → σ → Prop}
    (hC : ∀ t, C t → C' t) (hQ : ∀ r t, Q r t → Q' r t) (h : wp x s C Q) : wp x s C' Q' :=
  ⟨fun t ht => hC t (h.1 t ht), hQ _ _ h.2⟩

@[simp] theorem wp_pure {a : α} {Q : Except ε α → σ → Prop} :
    wp (pure a : Program σ ε α) s C Q ↔ Q (.ok a) s := by
  simp [wp, pure, Program.ofExcept, Outcome.final]

@[simp] theorem wp_read {Q : Except ε σ → σ → Prop} :
    wp (Program.read : Program σ ε σ) s C Q ↔ Q (.ok s) s := by
  simp [wp, Program.read, Outcome.final]

@[simp] theorem wp_write {t : σ} {Q : Except ε Unit → σ → Prop} :
    wp (Program.write t : Program σ ε Unit) s C Q ↔ C t ∧ Q (.ok ()) t := by
  simp [wp, Program.write, Outcome.final]

@[simp] theorem wp_lift {r : Except ε α} {Q : Except ε α → σ → Prop} :
    wp (liftM r : Program σ ε α) s C Q ↔ Q r s := by
  simp [wp, liftM, monadLift, MonadLift.monadLift, Program.ofExcept, Outcome.final]

/-- The end of a program in two parts is the end of the second part. -/
theorem final_append (x : Program σ ε α) (s : σ) (ws : List σ) :
    ((x s).writes ++ ws).getLast?.getD s = ws.getLast?.getD ((x s).final s) := by
  rw [List.getLast?_append, Outcome.final]
  cases ws.getLast? <;> rfl

@[simp] theorem wp_bind {x : Program σ ε α} {f : α → Program σ ε β}
    {Q : Except ε β → σ → Prop} :
    wp (x >>= f) s C Q ↔
      wp x s C (onEnd (fun a t => wp (f a) t C Q) fun e t => Q (.error e) t) := by
  have hb : (x >>= f) = Program.bind x f := rfl
  rw [hb, wp, wp, Program.bind]
  cases hr : (x s).result with
  | error e => rfl
  | ok a =>
    simp only [wp, Outcome.final, List.mem_append]
    rw [final_append x s]
    constructor
    · rintro ⟨hw, hq⟩
      exact ⟨fun t ht => hw t (.inl ht), fun t ht => hw t (.inr ht), hq⟩
    · rintro ⟨h1, h2, hq⟩
      refine ⟨fun t ht => ?_, hq⟩
      rcases ht with ht | ht
      · exact h1 t ht
      · exact h2 t ht

theorem wp_handle {x : Program σ ε α} {h : ε → Program σ ε α} {Q : Except ε α → σ → Prop} :
    wp (x.handle h) s C Q ↔
      wp x s C (onEnd (fun a t => Q (.ok a) t) fun e t => wp (h e) t C Q) := by
  rw [wp, wp, Program.handle]
  cases hr : (x s).result with
  | ok a => rfl
  | error e =>
    simp only [onEnd_error, wp, Outcome.final, List.mem_append]
    rw [final_append x s]
    constructor
    · rintro ⟨hw, hq⟩
      exact ⟨fun t ht => hw t (.inl ht), fun t ht => hw t (.inr ht), hq⟩
    · rintro ⟨h1, h2, hq⟩
      refine ⟨fun t ht => ?_, hq⟩
      rcases ht with ht | ht
      · exact h1 t ht
      · exact h2 t ht

theorem wp_hide {start : σ → τ} {durable : τ → σ} {x : Program τ ε α}
    {Q : Except ε α → σ → Prop} (hstart : durable (start s) = s) :
    wp (x.hide start durable) s C Q ↔
      wp x (start s) (fun t => C (durable t)) fun r t => Q r (durable t) := by
  have hfinal : ((x (start s)).writes.map durable).getLast?.getD s =
      durable ((x (start s)).final (start s)) := by
    rw [List.getLast?_map, Outcome.final]
    cases (x (start s)).writes.getLast? with
    | none => exact hstart.symm
    | some t => rfl
  simp only [wp, Program.hide, List.forall_mem_map]
  rw [Outcome.final, hfinal]

/-- A check in front of a program: when it raises, nothing has happened yet. -/
theorem wp_check {r : Except ε α} {f : α → Program σ ε β} {Q : Except ε β → σ → Prop}
    (herr : ∀ e, Q (.error e) s) (hok : ∀ a, r = .ok a → wp (f a) s C Q) :
    wp (liftM r >>= f) s C Q := by
  rw [wp_bind, wp_lift]
  cases r with
  | error e => exact herr e
  | ok a => exact hok a rfl

@[simp] theorem wp_ofExcept {r : Except ε α} {Q : Except ε α → σ → Prop} :
    wp (Program.ofExcept r : Program σ ε α) s C Q ↔ Q r s := by
  simp [wp, Program.ofExcept, Outcome.final]

/-- A computation in front of a program: when it raises, nothing has happened yet. -/
theorem wp_ofExcept_bind {r : Except ε α} {f : α → Program σ ε β} {Q : Except ε β → σ → Prop}
    (herr : ∀ e, r = .error e → Q (.error e) s) (hok : ∀ a, r = .ok a → wp (f a) s C Q) :
    wp (Program.ofExcept r >>= f) s C Q := by
  rw [wp_bind, wp_ofExcept]
  cases r with
  | error e => exact herr e rfl
  | ok a => exact hok a rfl

theorem wp_read_bind {f : σ → Program σ ε β} {Q : Except ε β → σ → Prop} :
    wp (Program.read >>= f) s C Q ↔ wp (f s) s C Q := by
  rw [wp_bind, wp_read, onEnd_ok]

theorem wp_write_bind {t : σ} {f : Unit → Program σ ε β} {Q : Except ε β → σ → Prop} :
    wp (Program.write t >>= f) s C Q ↔ C t ∧ wp (f ()) t C Q := by
  rw [wp_bind, wp_write, onEnd_ok]

/-- Sequencing, from what the first part leaves. -/
theorem wp_seq {x : Program σ ε α} {f : α → Program σ ε β} {Q : Except ε β → σ → Prop}
    {P : α → σ → Prop} {E : ε → σ → Prop} (h : wp x s C (onEnd P E))
    (hok : ∀ a t, P a t → wp (f a) t C Q) (herr : ∀ e t, E e t → Q (.error e) t) :
    wp (x >>= f) s C Q := by
  rw [wp_bind]
  refine wp_mono (fun _ ht => ht) (fun r t hr => ?_) h
  cases r with
  | error e => exact herr e t hr
  | ok a => exact hok a t hr

/-- A loop over a list, from an invariant over the part that is done. -/
theorem wp_each {f : β → Program σ ε Unit} {I : List β → σ → Prop} {E : ε → σ → Prop}
    (hstep : ∀ before b after t, before ++ b :: after = l → I before t →
      wp (f b) t C (onEnd (fun _ u => I (before ++ [b]) u) E))
    (hs : I [] s) : wp (Program.each f l) s C (onEnd (fun _ t => I l t) E) := by
  suffices h : ∀ rest before s, before ++ rest = l → I before s →
      wp (Program.each f rest) s C (onEnd (fun _ t => I l t) E) from h l [] s rfl hs
  intro rest
  induction rest with
  | nil =>
    intro before s hl hI
    rw [List.append_nil] at hl
    rw [Program.each, wp_pure, onEnd_ok, ← hl]
    exact hI
  | cons b rest ih =>
    intro before s hl hI
    refine wp_seq (hstep before b rest s hl hI) (fun _ t ht => ?_) fun e t he => he
    exact ih (before ++ [b]) t (by rw [← hl, List.append_assoc]; rfl) ht

/-! ## Invariants of a program -/

/-- From `s`, `x` keeps `I` behind every write and to its end; if it returns, `P` holds there. -/
def Keeps (I : σ → Prop) (x : Program σ ε α) (s : σ) (P : α → σ → Prop) : Prop :=
  wp x s I (onEnd (fun a t => I t ∧ P a t) fun _ t => I t)

namespace Keeps

variable {I : σ → Prop} {P P' : α → σ → Prop} {x : Program σ ε α}

theorem mono (h : Keeps I x s P) (hP : ∀ a t, I t → P a t → P' a t) : Keeps I x s P' := by
  refine wp_mono (fun _ ht => ht) (fun r t hr => ?_) h
  cases r with
  | error e => exact hr
  | ok a => exact ⟨hr.1, hP a t hr.1 hr.2⟩

theorem pure {a : α} (hs : I s) (h : P a s) : Keeps I (pure a : Program σ ε α) s P :=
  wp_pure.mpr ⟨hs, h⟩

theorem bind {f : α → Program σ ε β} {R : β → σ → Prop} (h : Keeps I x s P)
    (hf : ∀ a t, I t → P a t → Keeps I (f a) t R) : Keeps I (x >>= f) s R :=
  wp_seq h (fun a t ha => hf a t ha.1 ha.2) fun _ _ ht => ht

/-- A computation without effect. -/
theorem lift {r : Except ε α} (hs : I s) (h : ∀ a, r = .ok a → P a s) :
    Keeps I (liftM r : Program σ ε α) s P := by
  rw [Keeps, wp_lift]
  cases r with
  | error e => exact hs
  | ok a => exact ⟨hs, h a rfl⟩

theorem read {R : σ → σ → Prop} (hs : I s) (h : R s s) :
    Keeps I (Program.read : Program σ ε σ) s R := wp_read.mpr ⟨hs, h⟩

theorem write {t : σ} {R : Unit → σ → Prop} (ht : I t) (h : R () t) :
    Keeps I (Program.write t : Program σ ε Unit) s R := wp_write.mpr ⟨ht, ht, h⟩

/-- A handler that keeps the invariant wherever the program raises. -/
theorem handle {h : ε → Program σ ε α} {E : ε → σ → Prop}
    (hx : wp x s I (onEnd (fun a t => I t ∧ P a t) E))
    (hh : ∀ e t, E e t → Keeps I (h e) t P) : Keeps I (x.handle h) s P := by
  rw [Keeps, wp_handle]
  refine wp_mono (fun _ ht => ht) (fun r t hr => ?_) hx
  cases r with
  | error e => exact hh e t hr
  | ok a => exact hr

/-- A loop over a list, from an invariant over the part that is done. -/
theorem each {f : β → Program σ ε Unit} {J : List β → σ → Prop} (hs : I s) (hJ : J [] s)
    (hstep : ∀ before b after t, before ++ b :: after = l → I t → J before t →
      Keeps I (f b) t fun _ u => J (before ++ [b]) u) :
    Keeps I (Program.each f l) s fun _ t => J l t := by
  have hloop : wp (Program.each f l) s I
      (onEnd (fun _ t => I t ∧ J l t) fun _ t => I t) :=
    wp_each (I := fun before t => I t ∧ J before t)
      (fun before b after t hl ht => hstep before b after t hl ht.1 ht.2) ⟨hs, hJ⟩
  exact hloop

end Keeps

/-! ## Runs -/

/-- One call of a family of programs, carried to its end or cut behind any of its writes. -/
def Step (prog : ι → Program σ ε α) (s t : σ) : Prop := ∃ i, t ∈ s :: (prog i s).writes

/-- Any number of calls, each of them possibly cut. -/
def Steps (prog : ι → Program σ ε α) : σ → σ → Prop := Relation.ReflTransGen (Step prog)

/-- The end of a program is where it began or behind a write. -/
theorem Outcome.final_mem (o : Outcome σ ε α) (s : σ) : o.final s ∈ s :: o.writes := by
  rw [Outcome.final]
  cases h : o.writes.getLast? with
  | none => exact List.mem_cons_self
  | some t => exact List.mem_cons_of_mem _ (List.mem_of_getLast? h)

/-- A call carried to its end is a step. -/
theorem Step.final (prog : ι → Program σ ε α) (i : ι) (s : σ) :
    Step prog s ((prog i s).final s) := ⟨i, (prog i s).final_mem s⟩

/-- A condition that every call keeps, wherever it is cut, holds along every run. -/
theorem Step.invariant {prog : ι → Program σ ε α} {I : σ → Prop}
    (h : ∀ i s, I s → wp (prog i) s I fun _ _ => True) {s t : σ} (hs : I s)
    (hst : Steps prog s t) : I t := by
  induction hst with
  | refl => exact hs
  | tail _ hstep ih =>
    obtain ⟨i, hi⟩ := hstep
    rcases List.mem_cons.mp hi with rfl | hw
    · exact ih
    · exact (h i _ ih).1 _ hw

end Durable
end Neocortex
