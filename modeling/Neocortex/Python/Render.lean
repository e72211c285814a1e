import Neocortex.Python.Json

/-!
# Writing with one escaping or another

`json.dumps` escapes strings in two ways, by `ensure_ascii`.  An `Escape` is such a way, with
what the reader needs of it: an escaped character reads back as itself.  `Escape.render` writes
a value with it, and `scanValue_render` is the round trip for every escaping.

* `asciiEscape` is `ensure_ascii=True`; it writes what `render` writes (`render_asciiEscape`);
* `unicodeEscape` is `ensure_ascii=False`.
-/

namespace Neocortex
namespace Python

/-! ## Strings -/

theorem hexVal_hexDigit (n : ℕ) : hexVal (hexDigit n) = some (n % 16) := by
  have h : ∀ m < 16, hexVal (Nat.digitChar m) = some m := by decide
  exact h _ (Nat.mod_lt _ (by decide))

theorem hexUnit_digits {n : ℕ} (h : n < 0x10000) :
    hexUnit (hexDigit (n / 4096)) (hexDigit (n / 256)) (hexDigit (n / 16)) (hexDigit n) =
      some n := by
  simp only [hexUnit, hexVal_hexDigit]
  congr 1
  omega

theorem scanEscape_unit {u : ℕ} (h : u < 0x10000) (t : Text) :
    scanEscape ('u' :: hexDigit (u / 4096) :: hexDigit (u / 256) :: hexDigit (u / 16) ::
      hexDigit u :: t) = scanUnit u t := by
  simp only [scanEscape, hexUnit_digits h]

theorem scanUnit_of_scalar {u : ℕ} (h : u < 0xD800 ∨ 0xE000 ≤ u) (t : Text) :
    scanUnit u t = some (Char.ofNat u, t) := by
  unfold scanUnit
  rw [if_neg (by omega), if_neg (by omega)]

theorem scanUnit_of_pair {x : ℕ} (hx : x < 0x100000) (t : Text) :
    scanUnit (0xD800 + x / 1024) (escapeUnit (0xDC00 + x % 1024) ++ t) =
      some (Char.ofNat (0x10000 + x), t) := by
  unfold scanUnit
  rw [if_pos (by omega)]
  simp only [escapeUnit, List.cons_append, List.nil_append]
  rw [hexUnit_digits (by omega)]
  simp only
  rw [if_pos (by omega)]
  have e : 0x10000 + (0xD800 + x / 1024 - 0xD800) * 1024 + (0xDC00 + x % 1024 - 0xDC00) =
      0x10000 + x := by omega
  rw [e]

theorem scanString_backslash (n : ℕ) (t : Text) :
    scanString (n + 1) ('\\' :: t) =
      (scanEscape t).bind fun q => (scanString n q.2).map fun p => (q.1 :: p.1, p.2) := by
  rw [scanString, if_neg (by decide), if_pos rfl]
  cases scanEscape t <;> rfl

/-- A way to write the characters of a string. -/
structure Escape where
  char : Char → Text
  /-- What is written for a character reads back as the character. -/
  scan : ∀ (n : ℕ) (c : Char) (t : Text),
    scanString (n + 1) (char c ++ t) = (scanString n t).map fun p => (c :: p.1, p.2)
  pos : ∀ c, 0 < (char c).length

namespace Escape

variable (E : Escape)

/-- A string between its quotes. -/
def renderStr (s : Text) : Text := '"' :: (s.flatMap E.char ++ ['"'])

mutual
/-- The text of a value, its members in their own order. -/
def render : Json → Text
  | .null => lit "null"
  | .bool true => lit "true"
  | .bool false => lit "false"
  | .int n => renderInt n
  | .float lexeme => lexeme
  | .str s => E.renderStr s
  | .arr [] => ['[', ']']
  | .arr (v :: vs) => '[' :: (render v ++ (renderItems vs ++ [']']))
  | .obj [] => ['{', '}']
  | .obj ((k, v) :: ms) =>
    '{' :: (E.renderStr k ++ ':' :: (render v ++ (renderMembers ms ++ ['}'])))

/-- The items after the first one, each behind its comma. -/
def renderItems : List Json → Text
  | [] => []
  | v :: vs => ',' :: (render v ++ renderItems vs)

/-- The members after the first one, each behind its comma. -/
def renderMembers : List (Text × Json) → Text
  | [] => []
  | (k, v) :: ms => ',' :: (E.renderStr k ++ ':' :: (render v ++ renderMembers ms))
end

end Escape

/-- An escaped string reads back up to its closing quote. -/
theorem scanString_escape (E : Escape) (s : Text) :
    ∀ (n : ℕ) (t : Text), s.length < n →
      scanString n (s.flatMap E.char ++ '"' :: t) = some (s, t) := by
  induction s with
  | nil =>
    intro n t hn
    obtain ⟨m, rfl⟩ := Nat.exists_eq_add_of_lt hn
    simp [scanString]
  | cons c s ih =>
    intro n t hn
    obtain ⟨m, rfl⟩ : ∃ m, n = m + 1 := ⟨n - 1, by simp only [List.length_cons] at hn; omega⟩
    rw [List.flatMap_cons, List.append_assoc, E.scan,
      ih m t (by simp only [List.length_cons] at hn; omega)]
    rfl

theorem length_le_escape (E : Escape) (s : Text) : s.length ≤ (s.flatMap E.char).length := by
  induction s with
  | nil => exact Nat.le_refl _
  | cons c s ih =>
    have h := E.pos c
    rw [List.flatMap_cons, List.length_append, List.length_cons]
    omega

/-! ## Numbers -/

theorem isDigit_digitChar {d : ℕ} (h : d < 10) : (Nat.digitChar d).isDigit = true := by
  have key : ∀ d < 10, (Nat.digitChar d).isDigit = true := by decide
  exact key d h

theorem toNat_digitChar {d : ℕ} (h : d < 10) : (Nat.digitChar d).toNat - 48 = d := by
  have key : ∀ d < 10, (Nat.digitChar d).toNat - 48 = d := by decide
  exact key d h

theorem decimalVal_map (ds : List ℕ) (h : ∀ d ∈ ds, d < 10) :
    decimalVal (ds.map Nat.digitChar) = Nat.ofDigits 10 ds.reverse := by
  unfold decimalVal
  induction ds using List.reverseRecOn with
  | nil => rfl
  | append_singleton ds d ih =>
    have hd : d < 10 := h d (by simp)
    rw [List.map_append, List.foldl_append, ih fun e he => h e (List.mem_append_left _ he),
      List.reverse_append]
    simp only [List.map_cons, List.map_nil, List.foldl_cons, List.foldl_nil,
      List.reverse_singleton, List.singleton_append, Nat.ofDigits_cons, toNat_digitChar hd]
    ring

theorem decimalVal_decimal (n : ℕ) : decimalVal (decimal n) = n := by
  unfold decimal
  split_ifs with h
  · subst h; rfl
  · rw [decimalVal_map, List.reverse_reverse, Nat.ofDigits_digits]
    intro d hd
    exact Nat.digits_lt_base (by decide) (List.mem_reverse.mp hd)

/-- No character at the start of the text continues a number. -/
def Stops (t : Text) : Prop :=
  ∀ c ∈ t.head?, c.isDigit = false ∧ c ≠ '.' ∧ c ≠ 'e' ∧ c ≠ 'E'

theorem stops_nil : Stops [] := by simp [Stops]

theorem stops_cons {c : Char} {t : Text}
    (h : c.isDigit = false ∧ c ≠ '.' ∧ c ≠ 'e' ∧ c ≠ 'E') : Stops (c :: t) := by
  simpa [Stops] using h

theorem isDigit_of_mem_decimal {n : ℕ} {c : Char} (h : c ∈ decimal n) : c.isDigit = true := by
  unfold decimal at h
  split_ifs at h with h0
  · rw [List.mem_singleton] at h; subst h; rfl
  · obtain ⟨d, hd, rfl⟩ := List.mem_map.mp h
    exact isDigit_digitChar (Nat.digits_lt_base (by decide) (List.mem_reverse.mp hd))

/-- The first digit is not a zero, but for zero itself. -/
theorem decimal_cons {n : ℕ} (h : n ≠ 0) : ∃ (c : Char) (t : Text), decimal n = c :: t ∧
    '1' ≤ c ∧ c ≤ '9' := by
  have hne : Nat.digits 10 n ≠ [] := Nat.digits_ne_nil_iff_ne_zero.mpr h
  have hlast : (Nat.digits 10 n).getLast hne ≠ 0 := Nat.getLast_digit_ne_zero 10 h
  have hlt : (Nat.digits 10 n).getLast hne < 10 :=
    Nat.digits_lt_base (by decide) (List.getLast_mem hne)
  have hrev : (Nat.digits 10 n).reverse ≠ [] := by simpa using hne
  refine ⟨Nat.digitChar ((Nat.digits 10 n).getLast hne),
    ((Nat.digits 10 n).reverse.tail).map Nat.digitChar, ?_, ?_⟩
  · rw [decimal, if_neg h, ← List.map_cons, ← List.head_reverse hrev, List.cons_head_tail]
  · have key : ∀ d < 10, d ≠ 0 → '1' ≤ Nat.digitChar d ∧ Nat.digitChar d ≤ '9' := by decide
    exact key _ hlt hlast

theorem takeWhile_digits {ds t : Text} (hds : ∀ c ∈ ds, c.isDigit = true)
    (ht : ∀ c ∈ t.head?, c.isDigit = false) :
    (ds ++ t).takeWhile Char.isDigit = ds ∧ (ds ++ t).dropWhile Char.isDigit = t := by
  rw [List.takeWhile_append_of_pos hds, List.dropWhile_append_of_pos hds]
  cases t with
  | nil => simp
  | cons c t =>
    have hc : c.isDigit = false := ht c rfl
    simp [hc]

theorem scanIntPart_decimal (n : ℕ) {t : Text} (ht : Stops t) :
    scanIntPart (decimal n ++ t) = some (decimal n, t) := by
  by_cases h : n = 0
  · subst h; rfl
  · obtain ⟨c, ds, hc, h1, h9⟩ := decimal_cons h
    have hds : ∀ d ∈ ds, d.isDigit = true :=
      fun d hd => isDigit_of_mem_decimal (n := n) (hc ▸ List.mem_cons_of_mem _ hd)
    obtain ⟨htake, hdrop⟩ := takeWhile_digits hds fun d hd => (ht d hd).1
    have hc0 : c ≠ '0' := by
      rintro rfl
      exact absurd h1 (by decide)
    rw [hc, List.cons_append, scanIntPart, if_neg hc0, if_pos ⟨h1, h9⟩, htake, hdrop]

theorem scanFrac_of_stops {t : Text} (ht : Stops t) : scanFrac t = ([], t) := by
  unfold scanFrac
  split
  · exact absurd rfl (ht '.' rfl).2.1
  · rfl

theorem scanExp_of_stops {t : Text} (ht : Stops t) : scanExp t = ([], t) := by
  unfold scanExp
  cases t with
  | nil => rfl
  | cons c t =>
    have h := ht c rfl
    simp [h.2.2.1, h.2.2.2]

theorem scanUnsigned_decimal (neg : Bool) (n : ℕ) {t : Text} (ht : Stops t)
    (hn : (decimal n).length ≤ maxStrDigits) :
    scanUnsigned neg (decimal n ++ t) = some (.int (if neg then -(n : ℤ) else n), t) := by
  rw [scanUnsigned, scanIntPart_decimal n ht]
  simp only [scanFrac_of_stops ht, scanExp_of_stops ht, numberValue, and_self, if_true, if_pos hn,
    decimalVal_decimal, Option.map_some]

theorem scanScalar_decimal (n : ℕ) {t : Text} (ht : Stops t)
    (hn : (decimal n).length ≤ maxStrDigits) :
    scanScalar (decimal n ++ t) = some (.int n, t) := by
  have h := scanUnsigned_decimal false n ht hn
  have hne : decimal n ≠ [] := by
    unfold decimal
    split_ifs with h0
    · simp
    · simpa [Nat.digits_eq_nil_iff_eq_zero] using h0
  obtain ⟨c, ds, hc⟩ := List.exists_cons_of_ne_nil hne
  have hd : c.isDigit = true := isDigit_of_mem_decimal (n := n) (hc ▸ List.mem_cons_self)
  have hcne : c ≠ 'n' ∧ c ≠ 't' ∧ c ≠ 'f' ∧ c ≠ 'N' ∧ c ≠ 'I' ∧ c ≠ '-' := by
    refine ⟨?_, ?_, ?_, ?_, ?_, ?_⟩ <;> (rintro rfl; exact absurd hd (by decide))
  rw [hc, List.cons_append] at h ⊢
  simp only [scanScalar, if_neg hcne.1, if_neg hcne.2.1, if_neg hcne.2.2.1, if_neg hcne.2.2.2.1,
    if_neg hcne.2.2.2.2.1, if_neg hcne.2.2.2.2.2, h]
  rfl

theorem scanScalar_renderInt (n : ℤ) {t : Text} (ht : Stops t)
    (hn : (decimal n.natAbs).length ≤ maxStrDigits) :
    scanScalar (renderInt n ++ t) = some (.int n, t) := by
  cases n with
  | ofNat n => exact scanScalar_decimal n ht hn
  | negSucc n =>
    have h := scanUnsigned_decimal true (n + 1) ht hn
    obtain ⟨c, ds, hc, h1, h9⟩ := decimal_cons (n := n + 1) (by omega)
    have hI : c ≠ 'I' := by
      rintro rfl
      exact absurd h9 (by decide)
    have hword : stripWord (lit "-Infinity") ('-' :: (decimal (n + 1) ++ t)) = none := by
      rw [stripWord, hc, if_neg]
      intro hp
      rw [List.cons_append] at hp
      have e : lit "-Infinity" = '-' :: 'I' :: lit "nfinity" := rfl
      rw [e, List.cons_prefix_cons, List.cons_prefix_cons] at hp
      exact hI hp.2.1.symm
    rw [renderInt, List.cons_append]
    simp only [scanScalar, hword, h]
    rfl

/-! ## Values -/

mutual
/-- The values that survive a round trip: no float, and no oversized integer. -/
def writable : Json → Bool
  | .int n => decide ((decimal n.natAbs).length ≤ maxStrDigits)
  | .arr items => writableItems items
  | .obj members => writableMembers members
  | .null => true
  | .bool _ => true
  | .float _ => false
  | .str _ => true

/-- `writable` on the items of an array. -/
def writableItems : List Json → Bool
  | [] => true
  | v :: vs => writable v && writableItems vs

/-- `writable` on the values of an object. -/
def writableMembers : List (Text × Json) → Bool
  | [] => true
  | (_, v) :: ms => writable v && writableMembers ms
end

theorem scanValue_str (E : Escape) (n : ℕ) (s t : Text) (hn : (E.renderStr s).length ≤ n) :
    scanValue n (E.renderStr s ++ t) = some (.str s, t) := by
  have hs := length_le_escape E s
  simp only [Escape.renderStr, List.length_cons, List.length_append, List.length_nil] at hn
  obtain ⟨m, rfl⟩ : ∃ m, n = m + 1 := ⟨n - 1, by omega⟩
  rw [Escape.renderStr, List.cons_append, scanValue, if_pos rfl, List.append_assoc,
    List.singleton_append, scanString_escape E s m t (by omega)]
  rfl

theorem skipWs_of_head {c : Char} {t : Text} (h : isWs c = false) : skipWs (c :: t) = c :: t := by
  simp [skipWs, h]

/-- The first character of a written value is no whitespace and closes nothing. -/
theorem render_cons (E : Escape) (v : Json) (hv : writable v = true) :
    ∃ c t, E.render v = c :: t ∧ isWs c = false ∧ c ≠ ']' ∧ c ≠ '}' ∧
      c ≠ '\ufeff' := by
  cases v with
  | null => exact ⟨'n', lit "ull", rfl, by decide, by decide, by decide, by decide⟩
  | bool b =>
    cases b
    · exact ⟨'f', lit "alse", rfl, by decide, by decide, by decide, by decide⟩
    · exact ⟨'t', lit "rue", rfl, by decide, by decide, by decide, by decide⟩
  | int n =>
    cases n with
    | ofNat n =>
      by_cases h : n = 0
      · subst h
        exact ⟨'0', [], rfl, by decide, by decide, by decide, by decide⟩
      · obtain ⟨c, t, hc, h1, h9⟩ := decimal_cons h
        refine ⟨c, t, hc, ?_, ?_, ?_, ?_⟩
        · have hd : c.isDigit = true := isDigit_of_mem_decimal (n := n) (hc ▸ List.mem_cons_self)
          by_contra hw
          simp only [isWs, Bool.not_eq_false, Bool.or_eq_true, beq_iff_eq] at hw
          rcases hw with ((rfl | rfl) | rfl) | rfl <;> exact absurd hd (by decide)
        · rintro rfl
          exact absurd h9 (by decide)
        · rintro rfl
          exact absurd h9 (by decide)
        · rintro rfl
          exact absurd h9 (by decide)
    | negSucc n => exact ⟨'-', decimal (n + 1), rfl, by decide, by decide, by decide, by decide⟩
  | float l => exact absurd hv (by simp [writable])
  | str s => exact ⟨'"', _, rfl, by decide, by decide, by decide, by decide⟩
  | arr items =>
    cases items with
    | nil => exact ⟨'[', _, rfl, by decide, by decide, by decide, by decide⟩
    | cons v vs => exact ⟨'[', _, by rw [Escape.render], by decide, by decide, by decide, by decide⟩
  | obj members =>
    cases members with
    | nil => exact ⟨'{', _, rfl, by decide, by decide, by decide, by decide⟩
    | cons m ms => exact ⟨'{', _, by rw [Escape.render], by decide, by decide, by decide, by decide⟩

theorem stops_close (c : Char) (t : Text) (h : c = ',' ∨ c = ']' ∨ c = '}') : Stops (c :: t) := by
  apply stops_cons
  rcases h with rfl | rfl | rfl <;> decide

theorem stripWord_append (w t : Text) : stripWord w (w ++ t) = some t := by
  rw [stripWord, if_pos (List.prefix_append w t), List.drop_left]

theorem scanValue_scalar {c : Char} (h : c ≠ '"' ∧ c ≠ '{' ∧ c ≠ '[') (n : ℕ) (t : Text) :
    scanValue (n + 1) (c :: t) = scanScalar (c :: t) := by
  rw [scanValue, if_neg h.1, if_neg h.2.1, if_neg h.2.2]

theorem scanValue_word {c : Char} {w : Text} {v : Json} (h : c ≠ '"' ∧ c ≠ '{' ∧ c ≠ '[')
    (hs : ∀ t, scanScalar (c :: w ++ t) = (stripWord (c :: w) (c :: w ++ t)).map fun r => (v, r))
    (n : ℕ) (t : Text) : scanValue (n + 1) (c :: w ++ t) = some (v, t) := by
  rw [List.cons_append, scanValue_scalar h, ← List.cons_append, hs, stripWord_append]
  rfl

theorem scanValue_obj {c : Char} (hw : isWs c = false) (hc : c ≠ '}') (n : ℕ) (t : Text) :
    scanValue (n + 1) ('{' :: c :: t) =
      (scanMembers n (c :: t)).map fun p => (.obj p.1, p.2) := by
  rw [scanValue, if_neg (by decide), if_pos rfl, skipWs_of_head hw]
  simp only [if_neg hc]

theorem scanValue_arr {c : Char} (hw : isWs c = false) (hc : c ≠ ']') (n : ℕ) (t : Text) :
    scanValue (n + 1) ('[' :: c :: t) =
      (scanItems n (c :: t)).map fun p => (.arr p.1, p.2) := by
  rw [scanValue, if_neg (by decide), if_neg (by decide), if_pos rfl, skipWs_of_head hw]
  simp only [if_neg hc]

theorem scanValue_renderInt (m : ℤ) (hm : (decimal m.natAbs).length ≤ maxStrDigits) (n : ℕ)
    (t : Text) (ht : Stops t) : scanValue (n + 1) (renderInt m ++ t) = some (.int m, t) := by
  have hhead : ∃ c r, renderInt m = c :: r ∧ c ≠ '"' ∧ c ≠ '{' ∧ c ≠ '[' := by
    cases m with
    | negSucc k => exact ⟨'-', decimal (k + 1), rfl, by decide⟩
    | ofNat k =>
      by_cases hk : k = 0
      · subst hk
        exact ⟨'0', [], rfl, by decide⟩
      · obtain ⟨c, r, hc, -, h9⟩ := decimal_cons hk
        refine ⟨c, r, hc, ?_, ?_, ?_⟩
        · rintro rfl
          have hd := isDigit_of_mem_decimal (n := k) (hc ▸ List.mem_cons_self)
          exact absurd hd (by decide)
        · rintro rfl
          exact absurd h9 (by decide)
        · rintro rfl
          exact absurd h9 (by decide)
  obtain ⟨c, r, hc, hne⟩ := hhead
  have h := scanScalar_renderInt m ht hm
  rw [hc, List.cons_append] at h ⊢
  rw [scanValue_scalar hne, h]

/-- The first member of an object, up to what follows its value. -/
theorem scanMembers_cons (E : Escape) (n : ℕ) (k : Text) (v : Json) (t : Text) (hk : (E.renderStr k).length ≤ n)
    (hv : scanValue n (E.render v ++ t) = some (v, t)) (hw : writable v = true) :
    scanMembers (n + 1) (E.renderStr k ++ ':' :: (E.render v ++ t)) =
      match skipWs t with
      | [] => none
      | d :: rest =>
        if d = '}' then some ([(k, v)], rest)
        else if d = ',' then (scanMembers n (skipWs rest)).map fun p => ((k, v) :: p.1, p.2)
        else none := by
  have hs := length_le_escape E k
  simp only [Escape.renderStr, List.length_cons, List.length_append, List.length_nil] at hk
  obtain ⟨c, r, hc, hws, -⟩ := render_cons E v hw
  have hskip : skipWs (E.render v ++ t) = E.render v ++ t := by
    rw [hc, List.cons_append, skipWs_of_head hws]
  have hcolon : skipWs (':' :: (E.render v ++ t)) = ':' :: (E.render v ++ t) :=
    skipWs_of_head (by decide)
  rw [Escape.renderStr, List.cons_append, scanMembers, if_pos rfl, List.append_assoc,
    List.singleton_append, scanString_escape E k n _ (by omega)]
  cases hr : skipWs t with
  | nil => simp only [hcolon, if_true, hskip, hv, hr]
  | cons d rest => simp only [hcolon, if_true, hskip, hv, hr]

section Values

variable (E : Escape)

mutual
/-- A written value reads back, whatever text follows it. -/
theorem scanValue_render : ∀ (v : Json) (_ : writable v = true) (n : ℕ) (t : Text),
    (E.render v).length ≤ n → Stops t → scanValue n (E.render v ++ t) = some (v, t)
  | v, hv, 0, t, hn, _ => by
    obtain ⟨c, r, hc, -⟩ := render_cons E v hv
    rw [hc] at hn
    exact absurd hn (by simp)
  | .null, _, n + 1, t, _, _ =>
    scanValue_word (c := 'n') (w := lit "ull") (by decide) (fun _ => rfl) n t
  | .bool true, _, n + 1, t, _, _ =>
    scanValue_word (c := 't') (w := lit "rue") (by decide) (fun _ => rfl) n t
  | .bool false, _, n + 1, t, _, _ =>
    scanValue_word (c := 'f') (w := lit "alse") (by decide) (fun _ => rfl) n t
  | .int m, hv, n + 1, t, _, ht => by
    rw [writable, decide_eq_true_eq] at hv
    rw [Escape.render]
    exact scanValue_renderInt m hv n t ht
  | .float l, hv, _, _, _, _ => absurd hv (by simp [writable])
  | .str s, _, n + 1, t, hn, _ => by
    rw [Escape.render] at hn ⊢
    exact scanValue_str E _ s t hn
  | .arr [], _, n + 1, t, _, _ => rfl
  | .arr (v :: vs), hv, n + 1, t, hn, _ => by
    rw [writable, writableItems, Bool.and_eq_true] at hv
    obtain ⟨c, r, hc, hws, hclose, -⟩ := render_cons E v hv.1
    have h := scanItems_render v vs hv.1 hv.2 n t (by
      rw [Escape.render] at hn
      simp only [List.length_cons, List.length_append, List.length_nil] at hn
      omega)
    rw [hc, List.cons_append] at h
    rw [Escape.render]
    simp only [List.cons_append, List.append_assoc, List.nil_append, hc]
    rw [scanValue_arr hws hclose, h]
    rfl
  | .obj [], _, n + 1, t, _, _ => rfl
  | .obj ((k, v) :: ms), hv, n + 1, t, hn, _ => by
    rw [writable, writableMembers, Bool.and_eq_true] at hv
    have h := scanMembers_render k v ms hv.1 hv.2 n t (by
      rw [Escape.render] at hn
      simp only [List.length_cons, List.length_append, List.length_nil] at hn
      omega)
    rw [Escape.renderStr, List.cons_append] at h
    rw [Escape.render, Escape.renderStr]
    simp only [List.cons_append, List.append_assoc, List.nil_append] at h ⊢
    rw [scanValue_obj (by decide) (by decide), h]
    rfl

/-- The items of a written array read back up to its closing bracket. -/
theorem scanItems_render : ∀ (v : Json) (vs : List Json) (_ : writable v = true)
    (_ : writableItems vs = true) (n : ℕ) (t : Text),
    (E.render v).length + (E.renderItems vs).length < n →
      scanItems n (E.render v ++ (E.renderItems vs ++ ']' :: t)) = some (v :: vs, t)
  | _, _, _, _, 0, _, hn => absurd hn (by omega)
  | v, [], hv, _, n + 1, t, hn => by
    have h := scanValue_render v hv n (']' :: t) (by omega) (stops_close _ _ (by decide))
    rw [Escape.renderItems, List.nil_append, scanItems, h]
    rfl
  | v, w :: ws, hv, hvs, n + 1, t, hn => by
    rw [writableItems, Bool.and_eq_true] at hvs
    rw [Escape.renderItems, List.length_cons, List.length_append] at hn
    have h := scanValue_render v hv n (',' :: (E.render w ++ (E.renderItems ws ++ ']' :: t)))
      (by omega) (stops_close _ _ (by decide))
    have hw := scanItems_render w ws hvs.1 hvs.2 n t (by omega)
    obtain ⟨c, r, hc, hws, -⟩ := render_cons E w hvs.1
    have hskip : skipWs (E.render w ++ (E.renderItems ws ++ ']' :: t)) =
        E.render w ++ (E.renderItems ws ++ ']' :: t) := by
      rw [hc, List.cons_append, skipWs_of_head hws]
    rw [Escape.renderItems, List.cons_append, List.append_assoc, scanItems, h]
    simp only [skipWs_of_head (c := ',') (by decide), if_true, hskip, hw]
    rfl

/-- The members of a written object read back up to its closing brace. -/
theorem scanMembers_render : ∀ (k : Text) (v : Json) (ms : List (Text × Json))
    (_ : writable v = true) (_ : writableMembers ms = true) (n : ℕ) (t : Text),
    (E.renderStr k).length + (E.render v).length + (E.renderMembers ms).length < n →
      scanMembers n (E.renderStr k ++ ':' :: (E.render v ++ (E.renderMembers ms ++ '}' :: t))) =
        some ((k, v) :: ms, t)
  | _, _, _, _, _, 0, _, hn => absurd hn (by omega)
  | k, v, [], hv, _, n + 1, t, hn => by
    have h := scanValue_render v hv n ('}' :: t) (by omega) (stops_close _ _ (by decide))
    rw [Escape.renderMembers, List.nil_append, scanMembers_cons E n k v _ (by omega) h hv]
    rfl
  | k, v, (k', w) :: ms, hv, hms, n + 1, t, hn => by
    rw [writableMembers, Bool.and_eq_true] at hms
    simp only [Escape.renderMembers, List.length_cons, List.length_append] at hn
    have h := scanValue_render v hv n
      (',' :: (E.renderStr k' ++ ':' :: (E.render w ++ (E.renderMembers ms ++ '}' :: t))))
      (by omega) (stops_close _ _ (by decide))
    have hw := scanMembers_render k' w ms hms.1 hms.2 n t (by omega)
    have hskip : ∀ r, skipWs (E.renderStr k' ++ r) = E.renderStr k' ++ r :=
      fun r => skipWs_of_head (by decide)
    rw [Escape.renderMembers]
    simp only [List.cons_append, List.append_assoc]
    rw [scanMembers_cons E n k v _ (by omega) h hv]
    simp only [skipWs_of_head (c := ',') (by decide), if_true, hskip, hw]
    rfl
end

end Values

/-! ## The two escapings -/

/-- Reading one escaped character. -/
theorem scanString_escapeChar (n : ℕ) (c : Char) (t : Text) :
    scanString (n + 1) (escapeChar c ++ t) = (scanString n t).map fun p => (c :: p.1, p.2) := by
  have hv : c.toNat < 0xD800 ∨ 0xDFFF < c.toNat ∧ c.toNat < 0x110000 := c.valid
  unfold escapeChar
  split_ifs with h1 h2 h3 h4 h5 h6 h7 h8 h9
  · subst h1; rfl
  · subst h2; rfl
  · subst h3; rfl
  · subst h4; rfl
  · subst h5; rfl
  · subst h6; rfl
  · subst h7; rfl
  · rw [List.singleton_append, scanString, if_neg h1, if_neg h2, if_neg (by omega)]
  · rw [escapeUnit, List.cons_append, scanString_backslash]
    simp only [List.cons_append, List.nil_append]
    rw [scanEscape_unit h9, scanUnit_of_scalar (by omega), Char.ofNat_toNat]
    rfl
  · have hx : c.toNat = 0x10000 + (c.toNat - 0x10000) := by omega
    rw [escapeUnit, List.append_assoc, List.cons_append, scanString_backslash]
    simp only [List.cons_append, List.nil_append]
    rw [scanEscape_unit (by omega), scanUnit_of_pair (by omega), ← hx, Char.ofNat_toNat]
    rfl

theorem length_escapeChar_pos (c : Char) : 0 < (escapeChar c).length := by
  unfold escapeChar
  split_ifs <;> simp [escapeUnit]

/-- `ensure_ascii=True`. -/
def asciiEscape : Escape := ⟨escapeChar, scanString_escapeChar, length_escapeChar_pos⟩

mutual
theorem render_asciiEscape : ∀ v : Json, asciiEscape.render v = render v
  | .null => rfl
  | .bool true => rfl
  | .bool false => rfl
  | .int _ => rfl
  | .float _ => rfl
  | .str _ => rfl
  | .arr [] => rfl
  | .arr (v :: vs) => by
    rw [Escape.render, render, render_asciiEscape v, renderItems_asciiEscape vs]
  | .obj [] => rfl
  | .obj ((k, v) :: ms) => by
    rw [Escape.render, render, render_asciiEscape v, renderMembers_asciiEscape ms]
    rfl

theorem renderItems_asciiEscape : ∀ vs : List Json, asciiEscape.renderItems vs = renderItems vs
  | [] => rfl
  | v :: vs => by
    rw [Escape.renderItems, renderItems, render_asciiEscape v, renderItems_asciiEscape vs]

theorem renderMembers_asciiEscape : ∀ ms : List (Text × Json),
    asciiEscape.renderMembers ms = renderMembers ms
  | [] => rfl
  | (k, v) :: ms => by
    rw [Escape.renderMembers, renderMembers, render_asciiEscape v, renderMembers_asciiEscape ms]
    rfl
end

/-- How `ensure_ascii=False` writes one character: only what a string may not hold is escaped. -/
def escapeControl (c : Char) : Text :=
  if c = '"' then ['\\', '"']
  else if c = '\\' then ['\\', '\\']
  else if c = '\n' then ['\\', 'n']
  else if c = '\r' then ['\\', 'r']
  else if c = '\t' then ['\\', 't']
  else if c = '\x08' then ['\\', 'b']
  else if c = '\x0c' then ['\\', 'f']
  else if c.toNat < 0x20 then escapeUnit c.toNat
  else [c]

theorem scanString_escapeControl (n : ℕ) (c : Char) (t : Text) :
    scanString (n + 1) (escapeControl c ++ t) =
      (scanString n t).map fun p => (c :: p.1, p.2) := by
  unfold escapeControl
  split_ifs with h1 h2 h3 h4 h5 h6 h7 h8
  · subst h1; rfl
  · subst h2; rfl
  · subst h3; rfl
  · subst h4; rfl
  · subst h5; rfl
  · subst h6; rfl
  · subst h7; rfl
  · rw [escapeUnit, List.cons_append, scanString_backslash]
    simp only [List.cons_append, List.nil_append]
    rw [scanEscape_unit (by omega), scanUnit_of_scalar (by omega), Char.ofNat_toNat]
    rfl
  · rw [List.singleton_append, scanString, if_neg h1, if_neg h2, if_neg h8]

theorem length_escapeControl_pos (c : Char) : 0 < (escapeControl c).length := by
  unfold escapeControl
  split_ifs <;> simp [escapeUnit]

/-- `ensure_ascii=False`. -/
def unicodeEscape : Escape :=
  ⟨escapeControl, scanString_escapeControl, length_escapeControl_pos⟩

/-- Written text reads back. -/
theorem loads_escape (E : Escape) {v : Json} (hv : writable v = true) :
    loads (E.render v) = some v := by
  obtain ⟨c, r, hc, hws, -, -, hbom⟩ := render_cons E v hv
  have hbom : (E.render v).head? ≠ some '\ufeff' := by
    rw [hc]
    exact fun h => hbom (Option.some_inj.mp h)
  have h := scanValue_render E v hv ((E.render v).length + 1) [] (by omega) stops_nil
  rw [List.append_nil] at h
  rw [loads, if_neg hbom, hc, skipWs_of_head hws, ← hc, h]
  rfl

/-- `json.dumps(value, ensure_ascii=False, sort_keys=True, separators=(",", ":"))`; `none` is
the `ValueError` of an integer with too many digits. -/
def dumpsUnicode (v : Json) : Option Text :=
  if intsFit v then some (unicodeEscape.render (sortKeys v)) else none

/-! ## Hexadecimal numbers -/

/-- `f"{n:x}"`. -/
def hexadecimal (n : ℕ) : Text :=
  if n = 0 then ['0'] else ((Nat.digits 16 n).reverse).map Nat.digitChar

/-- The value of hexadecimal digits behind those that are worth `n`. -/
def hexadecimalVal : ℕ → Text → Option ℕ
  | n, [] => some n
  | n, c :: t =>
    match hexVal c with
    | some d => hexadecimalVal (n * 16 + d) t
    | none => none

/-- `int(t, 16)`, for digits with an optional sign. -/
def parseHexadecimal (t : Text) : Option ℤ :=
  match t with
  | [] => none
  | c :: digits =>
    if c = '-' then if digits = [] then none else (hexadecimalVal 0 digits).map fun n => -(n : ℤ)
    else (hexadecimalVal 0 t).map fun n => (n : ℤ)

theorem hexVal_digitChar {d : ℕ} (h : d < 16) : hexVal (Nat.digitChar d) = some d := by
  have hall : ∀ d < 16, hexVal (Nat.digitChar d) = some d := by decide
  exact hall d h

theorem hexadecimalVal_append (n : ℕ) (s t : Text) :
    hexadecimalVal n (s ++ t) = (hexadecimalVal n s).bind fun m => hexadecimalVal m t := by
  induction s generalizing n with
  | nil => rfl
  | cons c s ih =>
    rw [List.cons_append, hexadecimalVal, hexadecimalVal]
    cases hexVal c with
    | none => rfl
    | some d => exact ih _

theorem hexadecimalVal_digits (ds : List ℕ) (h : ∀ d ∈ ds, d < 16) :
    hexadecimalVal 0 (ds.reverse.map Nat.digitChar) = some (Nat.ofDigits 16 ds) := by
  induction ds with
  | nil => rfl
  | cons d ds ih =>
    rw [List.reverse_cons, List.map_append, hexadecimalVal_append,
      ih fun e he => h e (List.mem_cons_of_mem _ he), Option.bind_some, List.map_singleton,
      hexadecimalVal, hexVal_digitChar (h d List.mem_cons_self)]
    show some (Nat.ofDigits 16 ds * 16 + d) = _
    rw [Nat.ofDigits_cons]
    congr 1
    ring

theorem hexadecimalVal_hexadecimal (n : ℕ) : hexadecimalVal 0 (hexadecimal n) = some n := by
  unfold hexadecimal
  split_ifs with h
  · rw [h]
    rfl
  · rw [hexadecimalVal_digits _ fun d hd => Nat.digits_lt_base (by decide) hd, Nat.ofDigits_digits]

/-- **Round trip of hexadecimal numbers.** -/
theorem parseHexadecimal_hexadecimal (n : ℕ) : parseHexadecimal (hexadecimal n) = some (n : ℤ) := by
  have hval := hexadecimalVal_hexadecimal n
  unfold parseHexadecimal
  split
  next hnil =>
    rw [hnil] at hval
    unfold hexadecimal at hnil
    split_ifs at hnil with h
    exact absurd (List.map_eq_nil_iff.mp hnil) (by simpa using Nat.digits_ne_nil_iff_ne_zero.mpr h)
  next c digits hcons =>
    have hc : c ≠ '-' := by
      rintro rfl
      rw [hcons, hexadecimalVal] at hval
      cases hval
    rw [if_neg hc, hval]
    rfl

end Python
end Neocortex
