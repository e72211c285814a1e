import Neocortex.Python.Render

/-!
# What `loads` makes of written text

Three facts about text that `dumps` has written carry every store built on it.

* `loads_dumps`: it reads back, with the keys sorted.
* `loads_of_torn`: an object that is cut short does not read at all.  The argument
  is that a value which has been read stays as it was read when more text follows
  (`scanValue_append`), so a cut object that did read would leave the cut-off rest
  behind in the whole one, and the whole one leaves nothing.
* `loads_of_glued`: two objects on one line do not read either.

`Printable` is what the writer guarantees of its text: with it a record is one line
of ASCII.  `length_render_sortKeys` and `render_obj_length` measure the text, and
`Json.get_sorted` looks a key up in it.
-/

namespace Neocortex
namespace Python

/-- `scanValue_render` for the text of `render`. -/
theorem scanValue_ascii (v : Json) (hv : writable v = true) (n : ℕ) (t : Text)
    (hn : (render v).length ≤ n) (ht : Stops t) : scanValue n (render v ++ t) = some (v, t) := by
  rw [← render_asciiEscape] at hn ⊢
  exact scanValue_render asciiEscape v hv n t hn ht

/-! ## Written text is printable ASCII -/

/-- Every character lies between the space and the tilde. -/
def Printable (t : Text) : Prop := ∀ c ∈ t, 0x20 ≤ c.toNat ∧ c.toNat < 0x7F

theorem printable_nil : Printable [] := by simp [Printable]

/-- Printing is checked character by character. -/
theorem printable_of_all {t : Text}
    (h : (t.all fun c => 0x20 ≤ c.toNat && c.toNat < 0x7F) = true) : Printable t := by
  intro c hc
  have hb := List.all_eq_true.mp h c hc
  rw [Bool.and_eq_true, decide_eq_true_eq, decide_eq_true_eq] at hb
  exact hb

theorem printable_cons {c : Char} {t : Text} :
    Printable (c :: t) ↔ (0x20 ≤ c.toNat ∧ c.toNat < 0x7F) ∧ Printable t := by
  simp [Printable]

theorem printable_append {s t : Text} : Printable (s ++ t) ↔ Printable s ∧ Printable t := by
  simp only [Printable, List.mem_append]
  exact ⟨fun h => ⟨fun c hc => h c (Or.inl hc), fun c hc => h c (Or.inr hc)⟩,
    fun h c hc => hc.elim (h.1 c) (h.2 c)⟩

theorem printable_hexDigit (n : ℕ) : 0x20 ≤ (hexDigit n).toNat ∧ (hexDigit n).toNat < 0x7F := by
  have h : ∀ m < 16, 0x20 ≤ (Nat.digitChar m).toNat ∧ (Nat.digitChar m).toNat < 0x7F := by decide
  exact h _ (Nat.mod_lt _ (by decide))

theorem printable_escapeUnit (n : ℕ) : Printable (escapeUnit n) := by
  simp only [escapeUnit, printable_cons, printable_hexDigit, printable_nil, and_true]
  decide

theorem printable_escapeChar (c : Char) : Printable (escapeChar c) := by
  unfold escapeChar
  split_ifs with h1 h2 h3 h4 h5 h6 h7 h8
  · simp [printable_cons, printable_nil]
  · simp [printable_cons, printable_nil]
  · simp [printable_cons, printable_nil]
  · simp [printable_cons, printable_nil]
  · simp [printable_cons, printable_nil]
  · simp [printable_cons, printable_nil]
  · simp [printable_cons, printable_nil]
  · exact printable_cons.mpr ⟨h8, printable_nil⟩
  · exact printable_escapeUnit _
  · exact printable_append.mpr ⟨printable_escapeUnit _, printable_escapeUnit _⟩

theorem printable_renderStr (s : Text) : Printable (renderStr s) := by
  rw [renderStr, printable_cons, printable_append]
  refine ⟨by decide, ?_, by simp [printable_cons, printable_nil]⟩
  intro c hc
  obtain ⟨d, -, hd⟩ := List.mem_flatMap.mp hc
  exact printable_escapeChar d c hd

theorem printable_decimal (n : ℕ) : Printable (decimal n) := by
  intro c hc
  have h := isDigit_of_mem_decimal hc
  simp only [Char.isDigit, Bool.and_eq_true, decide_eq_true_eq] at h
  have h0 : 48 ≤ c.toNat := h.1
  have h9 : c.toNat ≤ 57 := h.2
  omega

theorem printable_renderInt : ∀ n : ℤ, Printable (renderInt n)
  | .ofNat n => printable_decimal n
  | .negSucc n => printable_cons.mpr ⟨by decide, printable_decimal (n + 1)⟩

mutual
theorem printable_render : ∀ (v : Json), writable v = true → Printable (render v)
  | .null, _ => by
    rw [render]
    exact printable_of_all (by decide)
  | .bool true, _ => by
    rw [render]
    exact printable_of_all (by decide)
  | .bool false, _ => by
    rw [render]
    exact printable_of_all (by decide)
  | .int n, _ => by rw [render]; exact printable_renderInt n
  | .float l, hv => absurd hv (by simp [writable])
  | .str s, _ => by rw [render]; exact printable_renderStr s
  | .arr [], _ => by simp [render, printable_cons, printable_nil]
  | .arr (v :: vs), hv => by
    rw [writable, writableItems, Bool.and_eq_true] at hv
    rw [render, printable_cons, printable_append, printable_append]
    exact ⟨by decide, printable_render v hv.1, printable_renderItems vs hv.2,
      by simp [printable_cons, printable_nil]⟩
  | .obj [], _ => by simp [render, printable_cons, printable_nil]
  | .obj ((k, v) :: ms), hv => by
    rw [writable, writableMembers, Bool.and_eq_true] at hv
    rw [render, printable_cons, printable_append, printable_cons, printable_append,
      printable_append]
    exact ⟨by decide, printable_renderStr k, by decide, printable_render v hv.1,
      printable_renderMembers ms hv.2, by simp [printable_cons, printable_nil]⟩

theorem printable_renderItems : ∀ (vs : List Json), writableItems vs = true →
    Printable (renderItems vs)
  | [], _ => by rw [renderItems]; exact printable_nil
  | v :: vs, hv => by
    rw [writableItems, Bool.and_eq_true] at hv
    rw [renderItems, printable_cons, printable_append]
    exact ⟨by decide, printable_render v hv.1, printable_renderItems vs hv.2⟩

theorem printable_renderMembers : ∀ (ms : List (Text × Json)), writableMembers ms = true →
    Printable (renderMembers ms)
  | [], _ => by rw [renderMembers]; exact printable_nil
  | (k, v) :: ms, hv => by
    rw [writableMembers, Bool.and_eq_true] at hv
    rw [renderMembers, printable_cons, printable_append, printable_cons, printable_append]
    exact ⟨by decide, printable_renderStr k, by decide, printable_render v hv.1,
      printable_renderMembers ms hv.2⟩
end

theorem Printable.isAscii {t : Text} (h : Printable t) : IsAscii t := by
  intro c hc
  have hlt := (h c hc).2
  rw [Char.utf8Size_eq_one_iff, UInt32.le_iff_toNat_le]
  have e : c.val.toNat = c.toNat := rfl
  have e' : (127 : UInt32).toNat = 127 := rfl
  omega

theorem Printable.oneLine {t : Text} (h : Printable t) : OneLine t := by
  intro c hc
  have hb := h c hc
  simp only [isLineBreak, Bool.or_eq_false_iff, Bool.and_eq_false_iff, decide_eq_false_iff_not,
    beq_eq_false_iff_ne]
  omega

/-- A written value is read back as it was written, also in front of white space. -/
theorem loads_render_append {v : Json} (hv : writable v = true) {w : Text} (hstop : Stops w)
    (hw : skipWs w = []) : loads (render v ++ w) = some v := by
  obtain ⟨c, r, hc, hws, -⟩ := render_cons asciiEscape v hv
  rw [render_asciiEscape] at hc
  have hbom : (render v ++ w).head? ≠ some '\ufeff' := by
    intro e
    rw [List.head?_append_of_ne_nil _ (by rw [hc]; simp)] at e
    have hp := (printable_render v hv) '\ufeff' (List.mem_of_mem_head? e)
    exact absurd hp.2 (by decide)
  have h := scanValue_ascii v hv ((render v ++ w).length + 1) w
    (by rw [List.length_append]; omega) hstop
  have hskip : skipWs (render v ++ w) = render v ++ w := by
    rw [hc, List.cons_append, skipWs_of_head hws]
  rw [loads, if_neg hbom, hskip, h]
  simp only [hw, if_true]

/-- **Round trip.**  A written value is read back as it was written. -/
theorem loads_render {v : Json} (hv : writable v = true) : loads (render v) = some v := by
  have h := loads_render_append hv stops_nil rfl
  rwa [List.append_nil] at h

/-! ## Text after a complete value -/

/-- The text goes on with a character that does not continue a number. -/
def Stopped (t : Text) : Prop := t ≠ [] ∧ Stops t

theorem Stopped.append {t : Text} (h : Stopped t) (u : Text) : Stopped (t ++ u) := by
  obtain ⟨hne, hs⟩ := h
  refine ⟨by simp [hne], fun c hc => hs c ?_⟩
  rwa [List.head?_append_of_ne_nil _ hne] at hc

theorem scanUnit_append {k : ℕ} {t r : Text} {c : Char} (h : scanUnit k t = some (c, r))
    (u : Text) : scanUnit k (t ++ u) = some (c, r ++ u) := by
  unfold scanUnit at h
  split_ifs at h with h1 h2
  · split at h
    · rename_i a b d e rest
      split at h
      · rename_i l hl
        split_ifs at h with h3
        simp only [Option.some.injEq, Prod.mk.injEq] at h
        obtain ⟨rfl, rfl⟩ := h
        simp [scanUnit, h1, hl, h3]
      · exact absurd h (by simp)
    · exact absurd h (by simp)
  · simp only [Option.some.injEq, Prod.mk.injEq] at h
    obtain ⟨rfl, rfl⟩ := h
    unfold scanUnit
    rw [if_neg h1, if_neg h2]

theorem scanEscape_append {t r : Text} {c : Char} (h : scanEscape t = some (c, r)) (u : Text) :
    scanEscape (t ++ u) = some (c, r ++ u) := by
  unfold scanEscape at h
  split at h
  · rename_i a b d e rest
    split at h
    · rename_i k hk
      simp only [List.cons_append, scanEscape, hk]
      exact scanUnit_append h u
    · exact absurd h (by simp)
  · rename_i e rest hnot
    split at h
    · rename_i d hd
      simp only [Option.some.injEq, Prod.mk.injEq] at h
      obtain ⟨rfl, rfl⟩ := h
      have hu : e ≠ 'u' := by
        rintro rfl
        have hnone : shortEscape 'u' = none := by decide
        rw [hnone] at hd
        exact absurd hd (by simp)
      unfold scanEscape
      split
      · rename_i heq
        exact absurd (List.cons.inj heq).1 hu
      · rename_i heq
        obtain ⟨rfl, rfl⟩ := List.cons.inj heq
        simp [hd]
      · rename_i heq
        exact absurd heq (by simp)
    · exact absurd h (by simp)
  · exact absurd h (by simp)

/-- A string that is closed stays as it was read. -/
theorem scanString_append : ∀ {n : ℕ} {t r s : Text}, scanString n t = some (s, r) →
    ∀ {m : ℕ}, n ≤ m → ∀ u, scanString m (t ++ u) = some (s, r ++ u)
  | 0, _, _, _, h, _, _, _ => absurd h (by simp [scanString])
  | n + 1, [], _, _, h, _, _, _ => absurd h (by simp [scanString])
  | n + 1, c :: t, r, s, h, m, hm, u => by
    obtain ⟨m, rfl⟩ : ∃ k, m = k + 1 := ⟨m - 1, by omega⟩
    have hm' : n ≤ m := by omega
    rw [scanString] at h
    rw [List.cons_append, scanString]
    split_ifs at h with h1 h2 h3
    · simp only [Option.some.injEq, Prod.mk.injEq] at h
      obtain ⟨rfl, rfl⟩ := h
      rw [if_pos h1]
    · rw [if_neg h1, if_pos h2]
      cases he : scanEscape t with
      | none => simp [he] at h
      | some q =>
        obtain ⟨d, t'⟩ := q
        simp only [he, Option.map_eq_some_iff, Prod.mk.injEq] at h
        obtain ⟨⟨s', r'⟩, hs, rfl, rfl⟩ := h
        simp only [scanEscape_append he u, scanString_append hs hm' u, Option.map_some]
    · rw [if_neg h1, if_neg h2, if_neg h3]
      simp only [Option.map_eq_some_iff, Prod.mk.injEq] at h
      obtain ⟨⟨s', r'⟩, hs, rfl, rfl⟩ := h
      simp only [scanString_append hs hm' u, Option.map_some]

theorem digits_append {t : Text} (h : t.dropWhile Char.isDigit ≠ []) (u : Text) :
    (t ++ u).takeWhile Char.isDigit = t.takeWhile Char.isDigit ∧
      (t ++ u).dropWhile Char.isDigit = t.dropWhile Char.isDigit ++ u := by
  induction t with
  | nil => exact absurd rfl h
  | cons c t ih =>
    by_cases hc : c.isDigit = true
    · simp only [List.cons_append, List.takeWhile_cons, List.dropWhile_cons, hc, if_true] at h ⊢
      exact ⟨by rw [(ih h).1], (ih h).2⟩
    · simp [hc]

theorem scanIntPart_append {t ds r : Text} (h : scanIntPart t = some (ds, r)) (hr : r ≠ [])
    (u : Text) : scanIntPart (t ++ u) = some (ds, r ++ u) := by
  cases t with
  | nil => exact absurd h (by simp [scanIntPart])
  | cons c t =>
    rw [scanIntPart] at h
    rw [List.cons_append, scanIntPart]
    split_ifs at h with h1 h2
    · simp only [Option.some.injEq, Prod.mk.injEq] at h
      obtain ⟨rfl, rfl⟩ := h
      rw [if_pos h1]
    · simp only [Option.some.injEq, Prod.mk.injEq] at h
      obtain ⟨rfl, rfl⟩ := h
      rw [if_neg h1, if_pos h2, (digits_append hr u).1, (digits_append hr u).2]

theorem scanExpDigits_append {mark t x r : Text} (h : scanExpDigits mark t = some (x, r))
    (hr : r ≠ []) (u : Text) : scanExpDigits mark (t ++ u) = some (x, r ++ u) := by
  cases t with
  | nil => exact absurd h (by simp [scanExpDigits])
  | cons d t =>
    rw [scanExpDigits] at h
    rw [List.cons_append, scanExpDigits]
    split_ifs at h with hd
    simp only [Option.some.injEq, Prod.mk.injEq] at h
    obtain ⟨rfl, rfl⟩ := h
    rw [if_pos hd, (digits_append hr u).1, (digits_append hr u).2]

theorem scanExp_append {t x r : Text} (h : scanExp t = (x, r)) (hr : Stopped r) (u : Text) :
    scanExp (t ++ u) = (x, r ++ u) := by
  cases t with
  | nil =>
    simp only [scanExp, Prod.mk.injEq] at h
    exact absurd h.2.symm hr.1
  | cons e t =>
    by_cases he : e = 'e' ∨ e = 'E'
    · cases t with
      | nil =>
        simp only [scanExp, if_pos he, Option.getD_none, Prod.mk.injEq] at h
        obtain ⟨-, rfl⟩ := h
        have := hr.2 e rfl
        rcases he with rfl | rfl
        · exact absurd rfl this.2.2.1
        · exact absurd rfl this.2.2.2
      | cons s t =>
        simp only [scanExp, if_pos he] at h
        simp only [List.cons_append, scanExp, if_pos he]
        have bad : ∀ {x' r' : Text}, (none : Option (Text × Text)).getD ([], e :: s :: t) = (x', r') →
            Stopped r' → False := by
          intro x' r' h' hs
          simp only [Option.getD_none, Prod.mk.injEq] at h'
          obtain ⟨-, rfl⟩ := h'
          have := hs.2 e rfl
          rcases he with rfl | rfl
          · exact this.2.2.1 rfl
          · exact this.2.2.2 rfl
        split_ifs at h ⊢ with hs
        · cases hd : scanExpDigits [e, s] t with
          | none => rw [hd] at h; exact (bad h hr).elim
          | some p =>
            obtain ⟨y, q⟩ := p
            rw [hd] at h
            simp only [Option.getD_some, Prod.mk.injEq] at h
            obtain ⟨rfl, rfl⟩ := h
            rw [scanExpDigits_append hd hr.1 u]
            rfl
        · cases hd : scanExpDigits [e] (s :: t) with
          | none => rw [hd] at h; exact (bad h hr).elim
          | some p =>
            obtain ⟨y, q⟩ := p
            rw [hd] at h
            simp only [Option.getD_some, Prod.mk.injEq] at h
            obtain ⟨rfl, rfl⟩ := h
            have h' := scanExpDigits_append hd hr.1 u
            rw [List.cons_append] at h'
            rw [h']
            rfl
    · simp only [scanExp, if_neg he, Prod.mk.injEq] at h
      obtain ⟨rfl, rfl⟩ := h
      simp only [List.cons_append, scanExp, if_neg he]

theorem scanExp_snd_of_dot (t : Text) : scanExp ('.' :: t) = ([], '.' :: t) := by
  simp [scanExp]

theorem scanFrac_append {t : Text} (hr : Stopped (scanExp (scanFrac t).2).2) (u : Text) :
    scanFrac (t ++ u) = ((scanFrac t).1, (scanFrac t).2 ++ u) := by
  cases t with
  | nil => exact absurd rfl hr.1
  | cons c t =>
    by_cases hc : c = '.'
    · subst hc
      cases t with
      | nil =>
        have e : scanFrac ['.'] = ([], ['.']) := rfl
        rw [e, scanExp_snd_of_dot] at hr
        exact absurd rfl (hr.2 '.' rfl).2.1
      | cons d t =>
        rw [scanFrac] at hr ⊢
        rw [List.cons_append, List.cons_append, scanFrac]
        split_ifs at hr ⊢ with hd
        · have hne : t.dropWhile Char.isDigit ≠ [] := by
            intro e
            rw [e] at hr
            exact hr.1 rfl
          rw [(digits_append hne u).1, (digits_append hne u).2]
        · rw [scanExp_snd_of_dot] at hr
          exact absurd rfl (hr.2 '.' rfl).2.1
    · have key : ∀ s : Text, scanFrac (c :: s) = ([], c :: s) := by
        intro s
        unfold scanFrac
        split
        · rename_i heq
          exact absurd (List.cons.inj heq).1 hc
        · rfl
      rw [List.cons_append, key, key]
      rfl

theorem scanUnsigned_append {neg : Bool} {t r : Text} {v : Json}
    (h : scanUnsigned neg t = some (v, r)) (hr : Stopped r) (u : Text) :
    scanUnsigned neg (t ++ u) = some (v, r ++ u) := by
  unfold scanUnsigned at h
  cases hi : scanIntPart t with
  | none => simp [hi] at h
  | some p =>
    obtain ⟨ds, rest⟩ := p
    simp only [hi] at h
    obtain ⟨w, hw, hwr⟩ := Option.map_eq_some_iff.mp h
    obtain ⟨rfl, rfl⟩ := Prod.mk.inj hwr
    have hne : rest ≠ [] := by
      rintro rfl
      exact hr.1 rfl
    have hexp : scanExp ((scanFrac rest).2 ++ u) =
        ((scanExp (scanFrac rest).2).1, (scanExp (scanFrac rest).2).2 ++ u) :=
      scanExp_append Prod.mk.eta.symm hr u
    rw [scanUnsigned, scanIntPart_append hi hne u]
    simp only [scanFrac_append hr u, hexp, hw, Option.map_some]

theorem stripWord_append_of_some {w t r : Text} (h : stripWord w t = some r) (u : Text) :
    stripWord w (t ++ u) = some (r ++ u) := by
  rw [stripWord] at h
  split_ifs at h with hp
  obtain ⟨t', rfl⟩ := hp
  simp only [List.drop_left, Option.some.injEq] at h
  subst h
  rw [List.append_assoc, stripWord_append]

theorem scanUnsigned_head {neg : Bool} {t r : Text} {v : Json}
    (h : scanUnsigned neg t = some (v, r)) : ∃ c s, t = c :: s ∧ c ≠ 'I' := by
  cases t with
  | nil => exact absurd h (by simp [scanUnsigned, scanIntPart])
  | cons c s =>
    refine ⟨c, s, rfl, ?_⟩
    rintro rfl
    have e : scanIntPart ('I' :: s) = none := by simp [scanIntPart]
    rw [scanUnsigned, e] at h
    exact absurd h (by simp)

theorem scanScalar_append {t r : Text} {v : Json} (h : scanScalar t = some (v, r))
    (hr : Stopped r) (u : Text) : scanScalar (t ++ u) = some (v, r ++ u) := by
  have word : ∀ {w s : Text} {x : Json},
      (stripWord w s).map (fun r => (x, r)) = some (v, r) →
        (stripWord w (s ++ u)).map (fun r => (x, r)) = some (v, r ++ u) := by
    intro w s x hw
    obtain ⟨r', hr', e⟩ := Option.map_eq_some_iff.mp hw
    obtain ⟨rfl, rfl⟩ := Prod.mk.inj e
    rw [stripWord_append_of_some hr' u]
    rfl
  cases t with
  | nil => exact absurd h (by simp [scanScalar])
  | cons c t =>
    simp only [scanScalar] at h
    simp only [List.cons_append, scanScalar]
    split_ifs at h ⊢
    · exact word h
    · exact word h
    · exact word h
    · exact word h
    · exact word h
    · rename_i hc
      cases hs : stripWord (lit "-Infinity") (c :: t) with
      | some q =>
        simp only [hs, Option.some.injEq, Prod.mk.injEq] at h
        obtain ⟨rfl, rfl⟩ := h
        have h' := stripWord_append_of_some hs u
        rw [List.cons_append] at h'
        simp only [h']
      | none =>
        simp only [hs] at h
        -- the sign is followed by a digit, so the longer text spells no `-Infinity` either
        obtain ⟨d, s, rfl, hd⟩ := scanUnsigned_head h
        have hnone : stripWord (lit "-Infinity") (c :: (d :: s ++ u)) = none := by
          rw [stripWord, if_neg]
          intro hp
          have e : lit "-Infinity" = '-' :: 'I' :: lit "nfinity" := rfl
          rw [e, List.cons_append, List.cons_prefix_cons, List.cons_prefix_cons] at hp
          exact hd hp.2.1.symm
        simp only [hnone]
        exact scanUnsigned_append h hr u
    · exact scanUnsigned_append h hr u

theorem skipWs_append {t : Text} (h : skipWs t ≠ []) (u : Text) :
    skipWs (t ++ u) = skipWs t ++ u := by
  induction t with
  | nil => exact absurd rfl h
  | cons c t ih =>
    unfold skipWs at h ih ⊢
    by_cases hc : isWs c = true
    · simp only [List.cons_append, List.dropWhile_cons, hc, if_true] at h ⊢
      exact ih h
    · simp [hc]

/-- A value that is followed by a delimiter has stopped. -/
theorem stopped_of_skipWs {r rest : Text} {d : Char} (h : skipWs r = d :: rest)
    (hd : d = ',' ∨ d = ']' ∨ d = '}') : Stopped r := by
  cases r with
  | nil => exact absurd h (by simp [skipWs])
  | cons c r =>
    refine ⟨by simp, stops_cons ?_⟩
    by_cases hc : isWs c = true
    · simp only [isWs, Bool.or_eq_true, beq_iff_eq] at hc
      rcases hc with ((rfl | rfl) | rfl) | rfl <;> decide
    · rw [skipWs_of_head (by simpa using hc)] at h
      obtain ⟨rfl, -⟩ := List.cons.inj h
      rcases hd with rfl | rfl | rfl <;> decide

mutual
/-- A value that was read stays as it was read when more text follows. -/
theorem scanValue_append : ∀ {n : ℕ} {t r : Text} {v : Json}, scanValue n t = some (v, r) →
    (Stopped r ∨ ∃ s, t = '{' :: s) →
      ∀ {m : ℕ}, n ≤ m → ∀ u, scanValue m (t ++ u) = some (v, r ++ u)
  | 0, _, _, _, h, _, _, _, _ => absurd h (by simp [scanValue])
  | n + 1, [], _, _, h, _, _, _, _ => absurd h (by simp [scanValue])
  | n + 1, c :: t, r, v, h, hr, m, hm, u => by
    obtain ⟨m, rfl⟩ : ∃ k, m = k + 1 := ⟨m - 1, by omega⟩
    have hm' : n ≤ m := by omega
    rw [scanValue] at h
    rw [List.cons_append, scanValue]
    split_ifs at h ⊢ with h1 h2 h3
    · obtain ⟨⟨s, r'⟩, hs, e⟩ := Option.map_eq_some_iff.mp h
      obtain ⟨rfl, rfl⟩ := Prod.mk.inj e
      rw [scanString_append hs hm' u]
      rfl
    · cases hw : skipWs t with
      | nil => simp [hw] at h
      | cons d t' =>
        rw [skipWs_append (by simp [hw]) u, hw]
        simp only [hw] at h
        simp only [List.cons_append]
        split_ifs at h ⊢ with hd
        · simp only [Option.some.injEq, Prod.mk.injEq] at h
          obtain ⟨rfl, rfl⟩ := h
          rfl
        · obtain ⟨⟨ms, r'⟩, hms, e⟩ := Option.map_eq_some_iff.mp h
          obtain ⟨rfl, rfl⟩ := Prod.mk.inj e
          have h' := scanMembers_append hms hm' u
          rw [List.cons_append] at h'
          rw [h']
          rfl
    · cases hw : skipWs t with
      | nil => simp [hw] at h
      | cons d t' =>
        rw [skipWs_append (by simp [hw]) u, hw]
        simp only [hw] at h
        simp only [List.cons_append]
        split_ifs at h ⊢ with hd
        · simp only [Option.some.injEq, Prod.mk.injEq] at h
          obtain ⟨rfl, rfl⟩ := h
          rfl
        · obtain ⟨⟨ms, r'⟩, hms, e⟩ := Option.map_eq_some_iff.mp h
          obtain ⟨rfl, rfl⟩ := Prod.mk.inj e
          have h' := scanItems_append hms hm' u
          rw [List.cons_append] at h'
          rw [h']
          rfl
    · have hr' : Stopped r := by
        rcases hr with hr | ⟨s, hs⟩
        · exact hr
        · exact absurd (List.cons.inj hs).1 h2
      have h' := scanScalar_append h hr' u
      rwa [List.cons_append] at h'

theorem scanMembers_append : ∀ {n : ℕ} {t r : Text} {ms : List (Text × Json)},
    scanMembers n t = some (ms, r) →
      ∀ {m : ℕ}, n ≤ m → ∀ u, scanMembers m (t ++ u) = some (ms, r ++ u)
  | 0, _, _, _, h, _, _, _ => absurd h (by simp [scanMembers])
  | n + 1, [], _, _, h, _, _, _ => absurd h (by simp [scanMembers])
  | n + 1, q :: t, r, ms, h, m, hm, u => by
    obtain ⟨m, rfl⟩ : ∃ k, m = k + 1 := ⟨m - 1, by omega⟩
    have hm' : n ≤ m := by omega
    rw [scanMembers] at h
    rw [List.cons_append, scanMembers]
    split_ifs at h ⊢ with h1
    cases hk : scanString n t with
    | none => simp [hk] at h
    | some p =>
      obtain ⟨k, t1⟩ := p
      simp only [hk] at h
      simp only [scanString_append hk hm' u]
      cases hc : skipWs t1 with
      | nil => simp [hc] at h
      | cons colon t2 =>
        rw [skipWs_append (by simp [hc]) u, hc]
        simp only [hc] at h
        simp only [List.cons_append]
        split_ifs at h ⊢ with h2
        cases hv : scanValue n (skipWs t2) with
        | none => simp [hv] at h
        | some p =>
          obtain ⟨v, t3⟩ := p
          simp only [hv] at h
          have hne : skipWs t2 ≠ [] := by
            intro e
            rw [e] at hv
            cases n <;> exact absurd hv (by simp [scanValue])
          cases hd : skipWs t3 with
          | nil => simp [hd] at h
          | cons d t4 =>
            simp only [hd] at h
            have hstop : Stopped t3 := by
              apply stopped_of_skipWs hd
              split_ifs at h with hb hcm
              · exact Or.inr (Or.inr hb)
              · exact Or.inl hcm
            rw [skipWs_append hne u]
            simp only [scanValue_append hv (Or.inl hstop) hm' u]
            rw [skipWs_append (by simp [hd]) u, hd]
            simp only [List.cons_append]
            split_ifs at h ⊢ with hb hcm
            · simp only [Option.some.injEq, Prod.mk.injEq] at h
              obtain ⟨rfl, rfl⟩ := h
              rfl
            · obtain ⟨⟨ms', r'⟩, hms, e⟩ := Option.map_eq_some_iff.mp h
              obtain ⟨rfl, rfl⟩ := Prod.mk.inj e
              have hne' : skipWs t4 ≠ [] := by
                intro e
                rw [e] at hms
                cases n <;> exact absurd hms (by simp [scanMembers])
              rw [skipWs_append hne' u, scanMembers_append hms hm' u]
              rfl

theorem scanItems_append : ∀ {n : ℕ} {t r : Text} {vs : List Json},
    scanItems n t = some (vs, r) →
      ∀ {m : ℕ}, n ≤ m → ∀ u, scanItems m (t ++ u) = some (vs, r ++ u)
  | 0, _, _, _, h, _, _, _ => absurd h (by simp [scanItems])
  | n + 1, t, r, vs, h, m, hm, u => by
    obtain ⟨m, rfl⟩ : ∃ k, m = k + 1 := ⟨m - 1, by omega⟩
    have hm' : n ≤ m := by omega
    rw [scanItems] at h
    rw [scanItems]
    cases hv : scanValue n t with
    | none => simp [hv] at h
    | some p =>
      obtain ⟨v, t3⟩ := p
      simp only [hv] at h
      cases hd : skipWs t3 with
      | nil => simp [hd] at h
      | cons d t4 =>
        simp only [hd] at h
        have hstop : Stopped t3 := by
          apply stopped_of_skipWs hd
          split_ifs at h with hb hcm
          · exact Or.inr (Or.inl hb)
          · exact Or.inl hcm
        simp only [scanValue_append hv (Or.inl hstop) hm' u]
        rw [skipWs_append (by simp [hd]) u, hd]
        simp only [List.cons_append]
        split_ifs at h ⊢ with hb hcm
        · simp only [Option.some.injEq, Prod.mk.injEq] at h
          obtain ⟨rfl, rfl⟩ := h
          rfl
        · obtain ⟨⟨ms', r'⟩, hms, e⟩ := Option.map_eq_some_iff.mp h
          obtain ⟨rfl, rfl⟩ := Prod.mk.inj e
          have hne' : skipWs t4 ≠ [] := by
            intro e
            rw [e] at hms
            cases n with
            | zero => exact absurd hms (by simp [scanItems])
            | succ n => cases n <;> exact absurd hms (by simp [scanItems, scanValue])
          rw [skipWs_append hne' u, scanItems_append hms hm' u]
          rfl
end

/-- Text in which an object is cut short is not JSON. -/
theorem loads_of_torn {v : Json} (hv : writable v = true) {p q s : Text}
    (hobj : render v = '{' :: s) (hp : p ≠ []) (hq : q ≠ []) (h : render v = p ++ q) :
    loads p = none := by
  obtain ⟨c, p', rfl⟩ := List.exists_cons_of_ne_nil hp
  have hc : c = '{' := by
    rw [h, List.cons_append] at hobj
    exact (List.cons.inj hobj).1
  subst hc
  have hskip : skipWs ('{' :: p') = '{' :: p' := skipWs_of_head (by decide)
  rw [loads, if_neg (by simp), hskip]
  cases hs : scanValue (('{' :: p').length + 1) ('{' :: p') with
  | none => rfl
  | some r =>
    obtain ⟨w, r⟩ := r
    have hlong := scanValue_append hs (Or.inr ⟨p', rfl⟩)
      (m := (render v).length + 1) (by rw [h, List.length_append]; omega) q
    have hwhole := scanValue_ascii v hv ((render v).length + 1) [] (by omega) stops_nil
    rw [← h] at hlong
    rw [List.append_nil, hlong] at hwhole
    simp only [Option.some.injEq, Prod.mk.injEq, List.append_eq_nil_iff] at hwhole
    exact absurd hwhole.2.2 hq

/-- An object with more than whitespace after it is not JSON. -/
theorem loads_of_glued {v : Json} (hv : writable v = true) {c : Char} {s t : Text}
    (hobj : render v = '{' :: s) (hc : isWs c = false) (hstop : Stops (c :: t)) :
    loads (render v ++ c :: t) = none := by
  have h := scanValue_ascii v hv ((render v ++ c :: t).length + 1) (c :: t)
    (by rw [List.length_append]; omega) hstop
  have hskip : skipWs (render v ++ c :: t) = render v ++ c :: t := by
    rw [hobj]
    exact skipWs_of_head (by decide)
  rw [loads, if_neg (by rw [hobj]; simp), hskip, h]
  simp [skipWs_of_head hc]

/-! ## Sorted keys -/

theorem render_obj_length (ms : List (Text × Json)) (h : ms ≠ []) :
    (render (.obj ms)).length =
      1 + (ms.map fun m => (renderStr m.1).length + (render m.2).length + 2).sum := by
  have key : ∀ ms : List (Text × Json), (renderMembers ms).length =
      (ms.map fun m => (renderStr m.1).length + (render m.2).length + 2).sum := by
    intro ms
    induction ms with
    | nil => rfl
    | cons m ms ih =>
      obtain ⟨k, v⟩ := m
      simp only [renderMembers, List.length_cons, List.length_append, ih, List.map_cons,
        List.sum_cons]
      omega
  cases ms with
  | nil => exact absurd rfl h
  | cons m ms =>
    obtain ⟨k, v⟩ := m
    simp only [render, List.length_cons, List.length_append, List.length_nil, key, List.map_cons,
      List.sum_cons]
    omega

theorem sortKeysItems_eq_map (vs : List Json) : sortKeysItems vs = vs.map sortKeys := by
  induction vs with
  | nil => rfl
  | cons v vs ih => rw [sortKeysItems, ih, List.map_cons]

theorem sortKeysMembers_eq_map (ms : List (Text × Json)) :
    sortKeysMembers ms = ms.map fun m => (m.1, sortKeys m.2) := by
  induction ms with
  | nil => rfl
  | cons m ms ih => obtain ⟨k, v⟩ := m; rw [sortKeysMembers, ih, List.map_cons]

theorem writableMembers_eq_all (ms : List (Text × Json)) :
    writableMembers ms = ms.all fun m => writable m.2 := by
  induction ms with
  | nil => rfl
  | cons m ms ih => obtain ⟨k, v⟩ := m; rw [writableMembers, ih, List.all_cons]

/-- The members that `sort_keys` writes are those of the object, each with its keys sorted. -/
theorem perm_sorted_members (ms : List (Text × Json)) :
    ((sortKeysMembers ms).insertionSort fun a b => a.1 ≤ b.1).Perm
      (ms.map fun m => (m.1, sortKeys m.2)) := by
  rw [← sortKeysMembers_eq_map]
  exact List.perm_insertionSort _ _

/-- Members without floats can be written when their integers fit. -/
theorem writable_obj_of_intsFit {ms : List (Text × Json)}
    (h : ∀ m ∈ ms, intsFit m.2 = true → writable m.2 = true) (hf : intsFit (.obj ms) = true) :
    writable (.obj ms) = true := by
  rw [intsFit] at hf
  rw [writable]
  induction ms with
  | nil => rfl
  | cons m ms ih =>
    obtain ⟨k, v⟩ := m
    rw [intsFitMembers, Bool.and_eq_true] at hf
    rw [writableMembers, Bool.and_eq_true]
    exact ⟨h _ List.mem_cons_self hf.1, ih (fun m hm => h m (List.mem_cons_of_mem _ hm)) hf.2⟩

/-- Items without floats can be written when their integers fit. -/
theorem writable_arr_of_intsFit {vs : List Json} (h : ∀ v ∈ vs, intsFit v = true → writable v = true)
    (hf : intsFit (.arr vs) = true) : writable (.arr vs) = true := by
  rw [intsFit] at hf
  rw [writable]
  induction vs with
  | nil => rfl
  | cons v vs ih =>
    rw [intsFitItems, Bool.and_eq_true] at hf
    rw [writableItems, Bool.and_eq_true]
    exact ⟨h _ List.mem_cons_self hf.1, ih (fun m hm => h m (List.mem_cons_of_mem _ hm)) hf.2⟩

mutual
theorem writable_sortKeys : ∀ v : Json, writable (sortKeys v) = writable v
  | .null => rfl
  | .bool _ => rfl
  | .int _ => rfl
  | .float _ => rfl
  | .str _ => rfl
  | .arr items => by
    rw [sortKeys, writable, writable, writableItems_sortKeys]
  | .obj members => by
    rw [sortKeys, writable, writable, writableMembers_eq_all, (List.perm_insertionSort _ _).all_eq,
      ← writableMembers_eq_all, writableMembers_sortKeys]

theorem writableItems_sortKeys : ∀ vs : List Json, writableItems (sortKeysItems vs) = writableItems vs
  | [] => rfl
  | v :: vs => by
    rw [sortKeysItems, writableItems, writableItems, writable_sortKeys v, writableItems_sortKeys vs]

theorem writableMembers_sortKeys : ∀ ms : List (Text × Json),
    writableMembers (sortKeysMembers ms) = writableMembers ms
  | [] => rfl
  | (k, v) :: ms => by
    rw [sortKeysMembers, writableMembers, writableMembers, writable_sortKeys v,
      writableMembers_sortKeys ms]
end

mutual
/-- Sorting the keys does not change how long the text is. -/
theorem length_render_sortKeys : ∀ v : Json, (render (sortKeys v)).length = (render v).length
  | .null => rfl
  | .bool _ => rfl
  | .int _ => rfl
  | .float _ => rfl
  | .str _ => rfl
  | .arr [] => rfl
  | .arr (v :: vs) => by
    simp only [sortKeys, sortKeysItems, render, List.length_cons, List.length_append,
      length_render_sortKeys v, length_renderItems_sortKeys vs]
  | .obj [] => rfl
  | .obj ((k, v) :: ms) => by
    have hne : (k, v) :: ms ≠ [] := by simp
    rw [sortKeys, render_obj_length _ (by
      intro e
      have := congrArg List.length e
      rw [List.length_insertionSort] at this
      simp [sortKeysMembers] at this), render_obj_length _ hne,
      ((List.perm_insertionSort _ _).map _).sum_eq]
    simp only [sortKeysMembers, List.map_cons, List.sum_cons, length_render_sortKeys v,
      sum_renderMembers_sortKeys ms]

theorem length_renderItems_sortKeys : ∀ vs : List Json,
    (renderItems (sortKeysItems vs)).length = (renderItems vs).length
  | [] => rfl
  | v :: vs => by
    simp only [sortKeysItems, renderItems, List.length_cons, List.length_append,
      length_render_sortKeys v, length_renderItems_sortKeys vs]

theorem sum_renderMembers_sortKeys : ∀ ms : List (Text × Json),
    ((sortKeysMembers ms).map fun m => (renderStr m.1).length + (render m.2).length + 2).sum =
      (ms.map fun m => (renderStr m.1).length + (render m.2).length + 2).sum
  | [] => rfl
  | (k, v) :: ms => by
    simp only [sortKeysMembers, List.map_cons, List.sum_cons, length_render_sortKeys v,
      sum_renderMembers_sortKeys ms]
end

/-! ## Looking a key up -/

theorem lookup_eq_some_of_mem {ms : List (Text × Json)} (hn : (ms.map Prod.fst).Nodup)
    {k : Text} {v : Json} (h : (k, v) ∈ ms) : ms.lookup k = some v := by
  induction ms with
  | nil => exact absurd h (by simp)
  | cons m ms ih =>
    obtain ⟨k', v'⟩ := m
    rw [List.map_cons, List.nodup_cons] at hn
    rcases List.mem_cons.mp h with e | h'
    · obtain ⟨rfl, rfl⟩ := Prod.mk.inj e
      simp [List.lookup]
    · have hne : k ≠ k' := by
        rintro rfl
        exact hn.1 (List.mem_map.mpr ⟨(k, v), h', rfl⟩)
      have hb : (k == k') = false := by simpa using hne
      rw [List.lookup, hb]
      exact ih hn.2 h'

/-- A member of an object without repeated keys is what its key reads. -/
theorem Json.get_of_mem {ms : List (Text × Json)} (hn : (ms.map Prod.fst).Nodup) {k : Text}
    {v : Json} (h : (k, v) ∈ ms) : Json.get ms k = v := by
  have hrev : (ms.reverse.map Prod.fst).Nodup := by
    rw [List.map_reverse]
    exact List.nodup_reverse.mpr hn
  rw [Json.get, lookup_eq_some_of_mem hrev (List.mem_reverse.mpr h)]
  rfl

/-- What a key reads in a written object is the member that was written, its keys sorted. -/
theorem Json.get_sorted {ms : List (Text × Json)} (hn : (ms.map Prod.fst).Nodup) {k : Text}
    {v : Json} (h : (k, v) ∈ ms) :
    Json.get ((sortKeysMembers ms).insertionSort fun a b => a.1 ≤ b.1) k = sortKeys v := by
  have hp := perm_sorted_members ms
  apply Json.get_of_mem
  · rw [(hp.map Prod.fst).nodup_iff, List.map_map]
    exact hn
  · exact hp.mem_iff.mpr (List.mem_map.mpr ⟨(k, v), h, rfl⟩)

/-- **Round trip of `dumps`.** -/
theorem loads_dumps {v : Json} {t : Text} (hv : writable v = true) (h : dumps v = some t) :
    loads t = some (sortKeys v) := by
  unfold dumps at h
  split_ifs at h
  rw [← Option.some_inj.mp h]
  exact loads_render (by rw [writable_sortKeys, hv])

/-- **Round trip of `dumpsUnicode`.** -/
theorem loads_dumpsUnicode {v : Json} {t : Text} (hv : writable v = true)
    (h : dumpsUnicode v = some t) : loads t = some (sortKeys v) := by
  unfold dumpsUnicode at h
  split_ifs at h
  rw [← Option.some_inj.mp h]
  exact loads_escape unicodeEscape (by rw [writable_sortKeys, hv])

end Python
end Neocortex
