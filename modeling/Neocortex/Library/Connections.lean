import Mathlib

/-!
# Connections to one database

A call on a connection is a `Program`: statements that read, statements that write, and an end.
A connection has no transaction until its first write.  A statement outside a transaction sees
what is committed when it runs; the first write takes the only write lock and starts from what
is committed then; the end of the call commits, and an exception, a lock that is not given or a
crash rolls back.

* `World.advance` is the next statement of one connection, `Step` any step of any of them;
* `Holds` says of a program that it ends well, whatever it reads outside its transaction, as
  long as nothing that matters to it was committed since its call began;
* `Reachable.sound` is the rule: if every program holds, then every commit is legal, along every
  run in which the first write of a call finds nothing that matters to it changed.
-/

namespace Neocortex
namespace Connections

variable {δ ε α β κ ι : Type}

/-- What a call does on its connection, statement by statement. -/
inductive Program (δ ε α : Type) where
  | done (result : α)
  | raise (error : ε)
  /-- A `SELECT`: what follows depends on what it sees. -/
  | select (next : δ → Program δ ε α)
  /-- A write, and what follows; its row count depends on what it saw. -/
  | write (change : δ → δ) (next : δ → Program δ ε α)

namespace Program

def bind : Program δ ε α → (α → Program δ ε β) → Program δ ε β
  | done a, f => f a
  | raise e, _ => raise e
  | select next, f => select fun v => (next v).bind f
  | write change next, f => write change fun v => (next v).bind f

instance : Monad (Program δ ε) where
  pure := done
  bind := bind

/-- A result that is computed without the database. -/
def ofExcept : Except ε α → Program δ ε α
  | .ok a => done a
  | .error e => raise e

/-- A `SELECT` and what is computed from it. -/
def query (f : δ → Except ε α) : Program δ ε α := select fun v => ofExcept (f v)

/-- The call with no other connection about. -/
def alone : Program δ ε α → δ → Except ε (α × δ)
  | done a, db => .ok (a, db)
  | raise e, _ => .error e
  | select next, db => (next db).alone db
  | write change next, db => (next db).alone (change db)

@[simp] theorem alone_bind (p : Program δ ε α) (f : α → Program δ ε β) (db : δ) :
    (p >>= f).alone db = p.alone db >>= fun r => (f r.1).alone r.2 := by
  induction p generalizing db with
  | done a => rfl
  | raise e => rfl
  | select next ih => exact ih db db
  | write change next ih => exact ih db (change db)

@[simp] theorem alone_pure (a : α) (db : δ) : (pure a : Program δ ε α).alone db = .ok (a, db) := rfl

@[simp] theorem alone_raise (e : ε) (db : δ) : (raise e : Program δ ε α).alone db = .error e := rfl

@[simp] theorem alone_ofExcept (x : Except ε α) (db : δ) :
    (ofExcept x : Program δ ε α).alone db = (·, db) <$> x := by
  cases x <;> rfl

@[simp] theorem alone_query (f : δ → Except ε α) (db : δ) :
    (query f).alone db = (·, db) <$> f db := alone_ofExcept (f db) db

/-- The next statement writes. -/
def Writes : Program δ ε α → Prop
  | write _ _ => True
  | _ => False

end Program

/-! ## Worlds -/

/-- A call that is under way. -/
structure Running (ι δ ε α : Type) where
  /-- What the call is about. -/
  label : ι
  program : Program δ ε α
  /-- What was committed when the call began. -/
  start : δ

/-- What is committed, the transaction that holds the write lock, and the calls under way. -/
structure World (κ ι δ ε α : Type) where
  committed : δ
  transaction : Option (κ × δ)
  calls : κ → Option (Running ι δ ε α)

namespace World

variable [DecidableEq κ]

/-- The transaction of a connection. -/
def own (w : World κ ι δ ε α) (c : κ) : Option δ :=
  match w.transaction with
  | some (d, db) => if d = c then some db else none
  | none => none

/-- What a statement of a connection sees. -/
def view (w : World κ ι δ ε α) (c : κ) : δ := (w.own c).getD w.committed

def set (w : World κ ι δ ε α) (c : κ) (r : Option (Running ι δ ε α)) : World κ ι δ ε α :=
  { w with calls := Function.update w.calls c r }

/-- A call begins on a connection that is idle. -/
def call (w : World κ ι δ ε α) (c : κ) (label : ι) (p : Program δ ε α) : World κ ι δ ε α :=
  match w.calls c with
  | none => w.set c (some ⟨label, p, w.committed⟩)
  | some _ => w

/-- The transaction of a connection is given up, and its call ends. -/
def rollback (w : World κ ι δ ε α) (c : κ) : World κ ι δ ε α :=
  { w.set c none with transaction := w.transaction.filter fun t => decide (t.1 ≠ c) }

/-- A call goes on with another program, and perhaps another transaction. -/
def proceed (w : World κ ι δ ε α) (c : κ) (r : Running ι δ ε α) (p : Program δ ε α)
    (t : Option (κ × δ)) : World κ ι δ ε α :=
  { w.set c (some { r with program := p }) with transaction := t }

/-- The next statement of a connection.  A write waits while another connection has the lock. -/
def advance (w : World κ ι δ ε α) (c : κ) : World κ ι δ ε α :=
  match w.calls c with
  | none => w
  | some r =>
    match r.program with
    | .done _ => { w.rollback c with committed := w.view c }
    | .raise _ => w.rollback c
    | .select next => w.proceed c r (next (w.view c)) w.transaction
    | .write change next =>
      if w.transaction = none ∨ (w.own c).isSome then
        w.proceed c r (next (w.view c)) (some (c, change (w.view c)))
      else w

end World

/-! ## Programs that end well -/

/-- What a development asks of its commits, and what of the database matters to a call. -/
structure Discipline (ι δ : Type) where
  /-- What is committed always has this. -/
  Inv : δ → Prop
  /-- A commit may replace the first database by the second. -/
  Legal : δ → δ → Prop
  /-- What is committed later. -/
  le : δ → δ → Prop
  /-- Nothing that matters to a call has changed since it began. -/
  Same : ι → δ → δ → Prop
  le_refl : ∀ a, le a a
  le_trans : ∀ {a b c}, le a b → le b c → le a c
  inv_of_legal : ∀ {a b}, Inv a → Legal a b → Inv b
  le_of_legal : ∀ {a b}, Legal a b → le a b
  /-- What is the same in the end was the same all the time. -/
  same_of_le : ∀ {i a b c}, le a b → le b c → Same i a c → Same i a b

/-- A call has no transaction yet, or one that started from `base` and has come to `db`. -/
inductive Mode (δ : Type) where
  | outside
  | inside (base db : δ)

/-- The mode after a write of what was seen. -/
def Mode.after (m : Mode δ) (v db : δ) : Mode δ :=
  match m with
  | .outside => .inside v db
  | .inside base _ => .inside base db

namespace Discipline

variable (D : Discipline ι δ)

/-- What a statement may see. -/
def Sees (i : ι) (start : δ) (m : Mode δ) (v : δ) : Prop :=
  match m with
  | .outside => D.Inv v ∧ D.Same i start v
  | .inside _ db => v = db

/-- A program that returns does so with the postcondition. -/
def Holds (i : ι) (start : δ) : Program δ ε α → Mode δ → (Mode δ → α → Prop) → Prop
  | .done a, m, Q => Q m a
  | .raise _, _, _ => True
  | .select next, m, Q => ∀ v, D.Sees i start m v → Holds i start (next v) m Q
  | .write change next, m, Q =>
    ∀ v, D.Sees i start m v → Holds i start (next v) (m.after v (change v)) Q

/-- A transaction that has written has come to something legal. -/
def Ends (m : Mode δ) : Prop :=
  match m with
  | .outside => True
  | .inside base db => D.Legal base db

/-- A call that ends well, whenever it begins. -/
def Sound (i : ι) (p : Program δ ε α) : Prop :=
  ∀ start, D.Holds i start p .outside fun m _ => D.Ends m

variable {D} {i : ι} {start : δ} {m : Mode δ}

theorem Holds.mono {Q Q' : Mode δ → α → Prop} {p : Program δ ε α}
    (h : D.Holds i start p m Q) (hQ : ∀ m a, Q m a → Q' m a) : D.Holds i start p m Q' := by
  induction p generalizing m with
  | done a => exact hQ m a h
  | raise e => trivial
  | select next ih => exact fun v hv => ih v (h v hv)
  | write change next ih => exact fun v hv => ih v (h v hv)

theorem holds_bind {p : Program δ ε α} {f : α → Program δ ε β} {Q : Mode δ → β → Prop} :
    D.Holds i start (p >>= f) m Q ↔
      D.Holds i start p m fun m a => D.Holds i start (f a) m Q := by
  induction p generalizing m with
  | done a => exact Iff.rfl
  | raise e => exact Iff.rfl
  | select next ih => exact forall_congr' fun v => forall_congr' fun _ => ih v
  | write change next ih => exact forall_congr' fun v => forall_congr' fun _ => ih v

@[simp] theorem holds_pure {a : α} {Q : Mode δ → α → Prop} :
    D.Holds i start (pure a : Program δ ε α) m Q ↔ Q m a := Iff.rfl

theorem holds_ofExcept {x : Except ε α} {Q : Mode δ → α → Prop} :
    D.Holds i start (Program.ofExcept x : Program δ ε α) m Q ↔ ∀ a, x = .ok a → Q m a := by
  cases x with
  | error e => simp [Program.ofExcept, Holds]
  | ok a => simp [Program.ofExcept, Holds]

/-- A query leaves the mode, and what is computed comes from something it may see. -/
theorem holds_query {f : δ → Except ε α} {Q : Mode δ → α → Prop} :
    D.Holds i start (Program.query f) m Q ↔
      ∀ v, D.Sees i start m v → ∀ a, f v = .ok a → Q m a :=
  forall_congr' fun _ => forall_congr' fun _ => holds_ofExcept

theorem sound_discard {p : Program δ ε α} (h : D.Sound i p) :
    D.Sound i (p >>= fun _ => (pure () : Program δ ε Unit)) := by
  intro start
  rw [holds_bind]
  exact h start

end Discipline

/-! ## Runs -/

section Runs

variable [DecidableEq κ] (D : Discipline ι δ) (Calls : ι → Program δ ε α → Prop)

/-- Where the next statement of a connection takes the lock, nothing that matters to its call
has changed since the call began. -/
def World.Undisturbed (w : World κ ι δ ε α) (c : κ) : Prop :=
  w.transaction = none → ∀ r, w.calls c = some r → r.program.Writes →
    D.Same r.label r.start w.committed

/-- One step of one connection. -/
inductive Step (w : World κ ι δ ε α) : World κ ι δ ε α → Prop where
  | call (c : κ) (label : ι) (p : Program δ ε α) (h : Calls label p) : Step w (w.call c label p)
  | advance (c : κ) (h : w.Undisturbed D c) : Step w (w.advance c)
  /-- An exception, a lock that is not given, or a crash. -/
  | rollback (c : κ) : Step w (w.rollback c)

/-- What the calls under way will do is sound. -/
structure World.Sound (w : World κ ι δ ε α) : Prop where
  inv : D.Inv w.committed
  started : ∀ c r, w.calls c = some r → D.le r.start w.committed
  inside : ∀ c db, w.transaction = some (c, db) → ∃ r, w.calls c = some r ∧
    D.Holds r.label r.start r.program (.inside w.committed db) fun m _ => D.Ends m
  outside : ∀ c r, w.calls c = some r → w.own c = none → D.Same r.label r.start w.committed →
    D.Holds r.label r.start r.program .outside fun m _ => D.Ends m

variable {D Calls} {w w' : World κ ι δ ε α} {c : κ}

theorem World.own_eq_some {db : δ} : w.own c = some db ↔ w.transaction = some (c, db) := by
  unfold World.own
  cases w.transaction with
  | none => simp
  | some t =>
    by_cases h : t.1 = c
    · simp [h, Prod.ext_iff]
    · simp [h, Prod.ext_iff]

theorem World.own_eq_none {db : δ} {d : κ} (h : w.transaction = some (c, db)) (hne : d ≠ c) :
    w.own d = none := by
  unfold World.own
  rw [h]
  exact if_neg (Ne.symm hne)

theorem World.set_of_ne {r : Option (Running ι δ ε α)} {d : κ} (hne : d ≠ c) :
    (w.set c r).calls d = w.calls d := Function.update_of_ne hne _ _

theorem World.set_self (r : Option (Running ι δ ε α)) : (w.set c r).calls c = r :=
  Function.update_self _ _ _

theorem World.own_rollback {d : κ} (hne : d ≠ c) : (w.rollback c).own d = w.own d := by
  unfold World.own World.rollback
  cases w.transaction with
  | none => rfl
  | some t =>
    by_cases ht : t.1 = c
    · simp [Option.filter, ht, Ne.symm hne]
    · simp [Option.filter, ht]

/-- A call that is under way after its connection is given up is another one. -/
theorem World.ne_of_rollback {d : κ} {r : Running ι δ ε α}
    (h : (w.rollback c).calls d = some r) : d ≠ c ∧ w.calls d = some r := by
  have hne : d ≠ c := by
    rintro rfl
    rw [show (w.rollback d).calls d = none from World.set_self none] at h
    cases h
  exact ⟨hne, (World.set_of_ne (r := none) hne).symm.trans h⟩

theorem World.Sound.rollback (h : w.Sound D) (c : κ) : (w.rollback c).Sound D := by
  refine ⟨h.inv, fun d r hd => ?_, fun d db hd => ?_, fun d r hd hown => ?_⟩
  · exact h.started d r (World.ne_of_rollback hd).2
  · obtain ⟨hd, hne⟩ := Option.filter_eq_some_iff.mp hd
    obtain ⟨r, hr, hholds⟩ := h.inside d db hd
    exact ⟨r, (World.set_of_ne (by simpa using hne)).trans hr, hholds⟩
  · obtain ⟨hne, hd⟩ := World.ne_of_rollback hd
    exact h.outside d r hd ((World.own_rollback hne).symm.trans hown)

theorem World.Sound.call (h : w.Sound D) (c : κ) {label : ι} {p : Program δ ε α}
    (hp : D.Sound label p) : (w.call c label p).Sound D := by
  unfold World.call
  split
  next hidle =>
    refine ⟨h.inv, fun d r hd => ?_, fun d db hd => ?_, fun d r hd hown => ?_⟩
    · by_cases hne : d = c
      · subst hne
        rw [World.set_self, Option.some_inj] at hd
        subst hd
        exact D.le_refl _
      · exact h.started d r ((World.set_of_ne hne).symm.trans hd)
    · obtain ⟨r, hr, hholds⟩ := h.inside d db hd
      have hne : d ≠ c := by
        rintro rfl
        rw [hidle] at hr
        cases hr
      exact ⟨r, (World.set_of_ne hne).trans hr, hholds⟩
    · by_cases hne : d = c
      · subst hne
        rw [World.set_self, Option.some_inj] at hd
        subst hd
        exact fun _ => hp _
      · exact h.outside d r ((World.set_of_ne hne).symm.trans hd) hown
  next => exact h

/-- A call that ends commits its transaction. -/
theorem World.Sound.commit (h : w.Sound D) {r : Running ι δ ε α} (hr : w.calls c = some r)
    {a : α} (hdone : r.program = .done a) :
    { w.rollback c with committed := w.view c }.Sound D ∧
      (w.view c = w.committed ∨ D.Legal w.committed (w.view c)) := by
  cases hown : w.own c with
  | none =>
    have hview : w.view c = w.committed := by rw [World.view, hown]; rfl
    rw [hview]
    exact ⟨h.rollback c, .inl rfl⟩
  | some db =>
    have hview : w.view c = db := by rw [World.view, hown]; rfl
    have htransaction := World.own_eq_some.mp hown
    obtain ⟨r', hr', hholds⟩ := h.inside c db htransaction
    obtain rfl : r = r' := Option.some_inj.mp (hr.symm.trans hr')
    rw [hdone] at hholds
    have hlegal : D.Legal w.committed db := hholds
    rw [hview]
    have hclosed : (w.rollback c).transaction = none := by
      show w.transaction.filter _ = none
      rw [htransaction]
      simp [Option.filter]
    refine ⟨⟨D.inv_of_legal h.inv hlegal, fun d r hd => ?_, fun d db' hd => ?_,
      fun d r hd _ hsame => ?_⟩, .inr hlegal⟩
    · exact D.le_trans (h.started d r (World.ne_of_rollback hd).2) (D.le_of_legal hlegal)
    · rw [show (w.rollback c).transaction = some (d, db') from hd] at hclosed
      cases hclosed
    · obtain ⟨hne, hd⟩ := World.ne_of_rollback hd
      refine h.outside d r hd (World.own_eq_none htransaction hne) ?_
      exact D.same_of_le (h.started d r hd) (D.le_of_legal hlegal) hsame

theorem World.proceed_self (r : Running ι δ ε α) (p : Program δ ε α) (t : Option (κ × δ)) :
    (w.proceed c r p t).calls c = some { r with program := p } := World.set_self _

/-- A call that goes on with another program. -/
theorem World.Sound.proceed (h : w.Sound D) {r : Running ι δ ε α} (hr : w.calls c = some r)
    {p : Program δ ε α} {t : Option (κ × δ)}
    (ht : t = w.transaction ∨ (∀ d db, w.transaction = some (d, db) → d = c) ∧ ∃ db, t = some (c, db))
    (hinside : ∀ db, t = some (c, db) →
      D.Holds r.label r.start p (.inside w.committed db) fun m _ => D.Ends m)
    (houtside : (∀ db, t ≠ some (c, db)) → D.Same r.label r.start w.committed →
      D.Holds r.label r.start p .outside fun m _ => D.Ends m) :
    (w.proceed c r p t).Sound D := by
  refine ⟨h.inv, fun d r' hd => ?_, fun d db hd => ?_, fun d r' hd hown => ?_⟩
  · by_cases hne : d = c
    · subst hne
      rw [World.proceed_self, Option.some_inj] at hd
      subst hd
      exact h.started d r hr
    · exact h.started d r' ((World.set_of_ne hne).symm.trans hd)
  · by_cases hne : d = c
    · subst hne
      exact ⟨_, World.set_self _, hinside db hd⟩
    · have hold : w.transaction = some (d, db) := by
        rcases ht with rfl | ⟨-, db', rfl⟩
        · exact hd
        · exact absurd (Prod.mk.inj (Option.some_inj.mp hd)).1.symm hne
      obtain ⟨r', hr', hholds⟩ := h.inside d db hold
      exact ⟨r', (World.set_of_ne hne).trans hr', hholds⟩
  · by_cases hne : d = c
    · subst hne
      rw [World.proceed_self, Option.some_inj] at hd
      subst hd
      refine houtside fun db hdb => ?_
      have hsome : (w.proceed d r p t).own d = some db := World.own_eq_some.mpr hdb
      rw [hown] at hsome
      cases hsome
    · refine h.outside d r' ((World.set_of_ne hne).symm.trans hd) ?_
      rcases ht with rfl | ⟨honly, -⟩
      · exact hown
      · cases hd' : w.own d with
        | none => rfl
        | some db => exact absurd (honly d db (World.own_eq_some.mp hd')) hne

/-- The next statement of a connection keeps the world sound, and commits only what is legal. -/
theorem World.Sound.advance (h : w.Sound D) (c : κ) (hundisturbed : w.Undisturbed D c) :
    (w.advance c).Sound D ∧
      ((w.advance c).committed = w.committed ∨ D.Legal w.committed (w.advance c).committed) := by
  unfold World.advance
  split
  next => exact ⟨h, .inl rfl⟩
  next r hr =>
    -- what the call sees, inside and outside its transaction
    have hin : ∀ db, w.transaction = some (c, db) →
        D.Holds r.label r.start r.program (.inside w.committed db) fun m _ => D.Ends m := by
      intro db hdb
      obtain ⟨r', hr', hholds⟩ := h.inside c db hdb
      obtain rfl : r = r' := Option.some_inj.mp (hr.symm.trans hr')
      exact hholds
    have hview : ∀ db, w.transaction = some (c, db) → w.view c = db := by
      intro db hdb
      rw [World.view, World.own_eq_some.mpr hdb]
      rfl
    have hcommitted : w.own c = none → w.view c = w.committed := by
      intro hown
      rw [World.view, hown]
      rfl
    split
    next a hdone => exact h.commit hr hdone
    next => exact ⟨h.rollback c, .inl rfl⟩
    next next hselect =>
      refine ⟨h.proceed hr (.inl rfl) (fun db hdb => ?_) (fun hnot hsame => ?_), .inl rfl⟩
      · have hholds := hin db hdb
        rw [hselect] at hholds
        exact hholds _ (hview db hdb)
      · have hown : w.own c = none := by
          cases hown : w.own c with
          | none => rfl
          | some db => exact absurd (World.own_eq_some.mp hown) (hnot db)
        have hholds := h.outside c r hr hown hsame
        rw [hselect] at hholds
        exact hholds _ (hcommitted hown ▸ ⟨h.inv, hsame⟩)
    next change next hwrite =>
      split_ifs with hlock
      · refine ⟨h.proceed hr (.inr ⟨?_, _, rfl⟩) (fun db hdb => ?_) (fun hnot => ?_), .inl rfl⟩
        · intro d db hd
          rcases hlock with hnone | hsome
          · rw [hnone] at hd
            cases hd
          · obtain ⟨db', hdb'⟩ := Option.isSome_iff_exists.mp hsome
            have heq := hd.symm.trans (World.own_eq_some.mp hdb')
            exact (Prod.mk.inj (Option.some_inj.mp heq)).1
        · obtain rfl := (Prod.mk.inj (Option.some_inj.mp hdb)).2
          rcases hlock with hnone | hsome
          · have hown : w.own c = none := by
              rw [World.own, hnone]
            have hsame := hundisturbed hnone r hr (by rw [hwrite]; trivial)
            have hholds := h.outside c r hr hown hsame
            rw [hwrite] at hholds
            rw [hcommitted hown]
            exact hholds _ ⟨h.inv, hsame⟩
          · obtain ⟨db', hdb'⟩ := Option.isSome_iff_exists.mp hsome
            have hheld := World.own_eq_some.mp hdb'
            have hholds := hin db' hheld
            rw [hwrite] at hholds
            exact hholds _ (hview db' hheld)
        · exact absurd rfl (hnot _)
      · exact ⟨h, .inl rfl⟩

/-- **The rule of connections.**  If every call ends well, a step keeps the world sound and
commits only what is legal. -/
theorem Step.sound (hcalls : ∀ label p, Calls label p → D.Sound label p) (h : w.Sound D)
    (hstep : Step D Calls w w') :
    w'.Sound D ∧ (w'.committed = w.committed ∨ D.Legal w.committed w'.committed) := by
  cases hstep with
  | call c label p hp =>
    refine ⟨h.call c (hcalls label p hp), .inl ?_⟩
    unfold World.call
    split <;> rfl
  | advance c hundisturbed => exact h.advance c hundisturbed
  | rollback c => exact ⟨h.rollback c, .inl rfl⟩

/-- A world before any call. -/
def idle (db : δ) : World κ ι δ ε α := ⟨db, none, fun _ => none⟩

theorem idle_sound {db : δ} (h : D.Inv db) : (idle db : World κ ι δ ε α).Sound D :=
  ⟨h, (fun _ _ h => nomatch h), (fun _ _ h => nomatch h), fun _ _ h => nomatch h⟩

theorem reachable_sound (hcalls : ∀ label p, Calls label p → D.Sound label p) {db : δ}
    (hinv : D.Inv db) (h : Relation.ReflTransGen (Step D Calls) (idle db) w) : w.Sound D := by
  induction h with
  | refl => exact idle_sound hinv
  | tail _ hstep ih => exact (hstep.sound hcalls ih).1

/-- Nothing that matters to the call of a connection has changed since it began. -/
def World.Settled (D : Discipline ι δ) (w : World κ ι δ ε α) (c : κ) : Prop :=
  ∀ r, w.calls c = some r → D.Same r.label r.start w.committed

theorem World.Settled.proceed (h : w.Settled D c) {r : Running ι δ ε α} (hr : w.calls c = some r)
    (p : Program δ ε α) (t : Option (κ × δ)) : (w.proceed c r p t).Settled D c := by
  intro r' hd
  rw [World.proceed_self, Option.some_inj] at hd
  subst hd
  exact h r hr

theorem World.Settled.advance (h : w.Settled D c) : (w.advance c).Settled D c := by
  have hended : ∀ (u : World κ ι δ ε α) (r : Running ι δ ε α), (u.rollback c).calls c ≠ some r :=
    fun u r hr => absurd rfl (World.ne_of_rollback hr).1
  unfold World.advance
  split
  next => exact h
  next r hr =>
    split
    next => exact fun r' hd => absurd hd (hended w r')
    next => exact fun r' hd => absurd hd (hended w r')
    next => exact h.proceed hr _ _
    next =>
      split_ifs
      · exact h.proceed hr _ _
      · exact h

/-- A call goes on undisturbed while no other connection makes a step. -/
theorem World.Settled.reachable (h : w.Settled D c) (n : ℕ) :
    Relation.ReflTransGen (Step D Calls) w ((fun w => w.advance c)^[n] w) := by
  induction n generalizing w with
  | zero => exact .refl
  | succ n ih =>
    rw [Function.iterate_succ_apply]
    exact .head (.advance c fun _ r hr _ => h r hr) (ih h.advance)

/-- Nothing matters to a call: its statements come between any others. -/
def anyOrder (ι δ : Type) : Discipline ι δ where
  Inv _ := True
  Legal _ _ := True
  le _ _ := True
  Same _ _ _ := True
  le_refl _ := trivial
  le_trans _ _ := trivial
  inv_of_legal _ _ := trivial
  le_of_legal _ := trivial
  same_of_le _ _ _ := trivial

theorem anyOrder_reachable (w : World κ ι δ ε α) (c : κ) (n : ℕ) :
    Relation.ReflTransGen (Step (anyOrder ι δ) Calls) w ((fun w => w.advance c)^[n] w) := by
  induction n generalizing w with
  | zero => exact .refl
  | succ n ih =>
    rw [Function.iterate_succ_apply]
    exact .head (.advance c fun _ _ _ _ => trivial) (ih _)

end Runs
end Connections
end Neocortex
