import Mathlib

/-!
# Computations that may raise

Inversion of `Except` and `Option` blocks: what a block that succeeds has gone through.
-/

namespace Neocortex
namespace Checks

variable {ε α β : Type}

@[simp] theorem bind_eq_ok {x : Except ε α} {f : α → Except ε β} {b : β} :
    (x >>= f) = .ok b ↔ ∃ a, x = .ok a ∧ f a = .ok b := by
  cases x <;> simp [Bind.bind, Except.bind]

@[simp] theorem pure_eq_ok {a b : α} : (pure a : Except ε α) = .ok b ↔ a = b := by
  simp [pure, Except.pure]

theorem bind_eq_error {x : Except ε α} {f : α → Except ε β} {e : ε} :
    (x >>= f) = .error e ↔ x = .error e ∨ ∃ a, x = .ok a ∧ f a = .error e := by
  cases x <;> simp [Bind.bind, Except.bind]

theorem ok_bind (a : α) (f : α → Except ε β) : (Except.ok a >>= f) = f a := rfl

theorem error_bind (e : ε) (f : α → Except ε β) : (Except.error e >>= f) = .error e := rfl

theorem map_ok (f : α → β) (a : α) : f <$> (Except.ok a : Except ε α) = .ok (f a) := rfl

/-- `if c: raise e`. -/
def raiseIf (c : Prop) [Decidable c] (e : ε) : Except ε Unit := if c then .error e else .ok ()

@[simp] theorem raiseIf_eq_ok {c : Prop} [Decidable c] {e : ε} {u : Unit} :
    raiseIf c e = .ok u ↔ ¬ c := by
  by_cases h : c <;> simp [raiseIf, h]

theorem raiseIf_bind {c : Prop} [Decidable c] {e : ε} {f : Unit → Except ε α} :
    (raiseIf c e >>= f) = if c then .error e else f () := by
  unfold raiseIf
  split_ifs <;> rfl

theorem map_eq_ok {f : α → β} {x : Except ε α} {b : β} :
    f <$> x = .ok b ↔ ∃ a, x = .ok a ∧ f a = b := by
  cases x <;> simp [Functor.map, Except.map]

/-- A check of every item that changes none of them. -/
theorem mapM_eq_ok {f : α → Except ε β} {g : α → β} :
    ∀ {l : List α}, (∀ a ∈ l, f a = .ok (g a)) → l.mapM f = .ok (l.map g)
  | [], _ => by rw [List.mapM_nil]; rfl
  | a :: l, h => by
    rw [List.mapM_cons, bind_eq_ok]
    refine ⟨g a, h a List.mem_cons_self, ?_⟩
    rw [bind_eq_ok]
    exact ⟨l.map g, mapM_eq_ok fun b hb => h b (List.mem_cons_of_mem _ hb), rfl⟩

/-- Items that pass a check, each of which the check returns. -/
theorem of_mapM_eq_ok {f : α → Except ε α} {P : α → Prop}
    (hf : ∀ a b, f a = .ok b → b = a ∧ P a) :
    ∀ {l r : List α}, l.mapM f = .ok r → r = l ∧ ∀ a ∈ l, P a
  | [], r, h => by
    rw [List.mapM_nil, pure_eq_ok] at h
    exact ⟨h.symm, by simp⟩
  | a :: l, r, h => by
    rw [List.mapM_cons, bind_eq_ok] at h
    obtain ⟨b, hb, h⟩ := h
    rw [bind_eq_ok] at h
    obtain ⟨bs, hbs, h⟩ := h
    rw [pure_eq_ok] at h
    obtain ⟨rfl, ha⟩ := hf a b hb
    obtain ⟨rfl, hl⟩ := of_mapM_eq_ok hf hbs
    refine ⟨h.symm, fun c hc => ?_⟩
    rcases List.mem_cons.mp hc with rfl | hc
    · exact ha
    · exact hl c hc

/-- Items that a check returns in another form. -/
theorem map_of_mapM_eq_ok {f : α → Except ε β} {g : β → α} (hf : ∀ a b, f a = .ok b → g b = a) :
    ∀ {l : List α} {r : List β}, l.mapM f = .ok r → r.map g = l
  | [], r, h => by
    rw [List.mapM_nil, pure_eq_ok] at h
    rw [← h, List.map_nil]
  | a :: l, r, h => by
    simp only [List.mapM_cons, bind_eq_ok, pure_eq_ok] at h
    obtain ⟨b, hb, bs, hbs, rfl⟩ := h
    rw [List.map_cons, hf a b hb, map_of_mapM_eq_ok hf hbs]

/-- What holds of every exception that a step of a fold raises. -/
theorem of_foldlM_eq_error {f : β → α → Except ε β} {P : ε → Prop}
    (hf : ∀ b a e, f b a = .error e → P e) :
    ∀ {l : List α} {b : β} {e : ε}, l.foldlM f b = .error e → P e
  | [], _, _, h => nomatch h
  | a :: l, b, e, h => by
    rw [List.foldlM_cons] at h
    rcases bind_eq_error.mp h with h | ⟨c, -, h⟩
    · exact hf b a e h
    · exact of_foldlM_eq_error hf h

/-! ## Blocks that only succeed or fail -/

theorem bind_eq_some {x : Option α} {f : α → Option β} {b : β} :
    (x >>= f) = some b ↔ ∃ a, x = some a ∧ f a = some b := Option.bind_eq_some_iff

theorem guard_eq_some {p : Prop} [Decidable p] {u : Unit} : guard p = some u ↔ p := by
  by_cases h : p <;> simp [h, guard]

theorem pure_eq_some {a b : α} : (pure a : Option α) = some b ↔ a = b := Option.some_inj

/-- A relation that holds along a fold whose steps all succeed. -/
theorem foldlM_induction {f : β → α → Option β} {R : β → Prop} (hf : ∀ b a c, R b → f b a = some c → R c) :
    ∀ {l : List α} {b c : β}, R b → l.foldlM f b = some c → R c
  | [], b, c, hb, h => by
    rw [List.foldlM_nil, pure_eq_some] at h
    exact h ▸ hb
  | a :: l, b, c, hb, h => by
    rw [List.foldlM_cons, bind_eq_some] at h
    obtain ⟨d, hd, h⟩ := h
    exact foldlM_induction hf (hf b a d hb hd) h

end Checks
end Neocortex
