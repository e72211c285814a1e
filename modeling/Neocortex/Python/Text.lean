import Mathlib

/-!
# Python text and UTF-8 files

The pieces of Python's `str` and of text-mode files that a line-oriented store
relies on: the UTF-8 codec, `str.strip`, `str.splitlines` and the newline
translation of text-mode reads.

Text is a list of `Char`.  Python's `str` may also hold a lone surrogate, which
has no UTF-8 encoding; a `Char` cannot, so the type already excludes the strings
on which `str.encode("utf-8")` raises.

* `encodeUtf8`, `decodeUtf8`: the strict codec, with `decodeUtf8_encodeUtf8`.
* `strip`, `splitlines`, `universalNewlines`: as documented for `str` and `open`.
* `splitlines_append_newline`: the first line of a text that starts with one.
* `take_encodeUtf8`: a byte prefix of an ASCII file is the file of a text prefix.
-/

namespace Neocortex
namespace Python

/-- A Python `str` without lone surrogates. -/
abbrev Text := List Char

instance : LawfulBEq Text := inferInstance

/-- The contents of a file. -/
abbrev Bytes := List UInt8

/-- A string literal as text. -/
abbrev lit (s : String) : Text := s.toList

/-! ## The UTF-8 codec -/

/-- `str.encode("utf-8")`. -/
def encodeUtf8 (t : Text) : Bytes := t.flatMap String.utf8EncodeChar

/-- The text of the bytes, one character at a time; the first argument bounds the number of
characters. -/
def decodeUtf8From : ℕ → Bytes → Option Text
  | _, [] => some []
  | 0, _ :: _ => none
  | n + 1, b :: bs =>
    -- a character takes at most four bytes
    match ((b :: bs).take 4).toByteArray.utf8DecodeChar? 0 with
    | none => none
    | some c => (decodeUtf8From n ((b :: bs).drop c.utf8Size)).map fun t => c :: t

/-- `bytes.decode("utf-8")`; `none` is `UnicodeDecodeError`. -/
def decodeUtf8 (b : Bytes) : Option Text := decodeUtf8From b.length b

/-- `len(value.encode("utf-8"))`. -/
def utf8Len (t : Text) : ℕ := (encodeUtf8 t).length

@[simp] theorem encodeUtf8_nil : encodeUtf8 [] = [] := rfl

@[simp] theorem encodeUtf8_append (s t : Text) :
    encodeUtf8 (s ++ t) = encodeUtf8 s ++ encodeUtf8 t := by
  simp [encodeUtf8]

theorem utf8Len_append (s t : Text) : utf8Len (s ++ t) = utf8Len s + utf8Len t := by
  simp [utf8Len]

theorem encodeUtf8_cons (c : Char) (t : Text) :
    encodeUtf8 (c :: t) = String.utf8EncodeChar c ++ encodeUtf8 t := rfl

/-- The first character of encoded text. -/
theorem utf8DecodeChar?_take (c : Char) (bs : Bytes) :
    ((String.utf8EncodeChar c ++ bs).take 4).toByteArray.utf8DecodeChar? 0 = some c := by
  have hle := c.utf8Size_le_four
  rw [List.take_append, String.length_utf8EncodeChar, List.take_of_length_le
    (by rw [String.length_utf8EncodeChar]; exact hle), List.toByteArray_append]
  exact ByteArray.utf8DecodeChar?_utf8EncodeChar_append

theorem decodeUtf8From_encodeUtf8 (t : Text) :
    ∀ n, t.length ≤ n → decodeUtf8From n (encodeUtf8 t) = some t := by
  induction t with
  | nil =>
    intro n _
    rw [encodeUtf8_nil, decodeUtf8From]
  | cons c t ih =>
    intro n hn
    obtain ⟨n, rfl⟩ : ∃ m, n = m + 1 := ⟨n - 1, by rw [List.length_cons] at hn; omega⟩
    have hlen := String.length_utf8EncodeChar c
    have hpos := c.utf8Size_pos
    have hfirst := utf8DecodeChar?_take c (encodeUtf8 t)
    have hdrop : (String.utf8EncodeChar c ++ encodeUtf8 t).drop c.utf8Size = encodeUtf8 t := by
      rw [← hlen, List.drop_left]
    obtain ⟨b, bs, hb⟩ := List.exists_cons_of_ne_nil
      (l := String.utf8EncodeChar c ++ encodeUtf8 t)
      (by
        intro e
        have := congrArg List.length e
        rw [List.length_append, List.length_nil] at this
        omega)
    rw [hb] at hfirst hdrop
    rw [List.length_cons] at hn
    rw [encodeUtf8_cons, hb, decodeUtf8From, hfirst]
    simp only
    rw [hdrop, ih n (by omega)]
    rfl

theorem length_le_encodeUtf8 (t : Text) : t.length ≤ (encodeUtf8 t).length := by
  induction t with
  | nil => exact Nat.le_refl _
  | cons c t ih =>
    have hpos := c.utf8Size_pos
    rw [encodeUtf8_cons, List.length_append, String.length_utf8EncodeChar, List.length_cons]
    omega

@[simp] theorem decodeUtf8_encodeUtf8 (t : Text) : decodeUtf8 (encodeUtf8 t) = some t :=
  decodeUtf8From_encodeUtf8 t _ (length_le_encodeUtf8 t)

theorem encodeUtf8_injective : Function.Injective encodeUtf8 := by
  intro s t h
  have h' := congrArg decodeUtf8 h
  rw [decodeUtf8_encodeUtf8, decodeUtf8_encodeUtf8] at h'
  exact Option.some_inj.mp h'

/-! ## ASCII text -/

/-- Every character is ASCII. -/
def IsAscii (t : Text) : Prop := ∀ c ∈ t, c.utf8Size = 1

theorem IsAscii.append {s t : Text} (hs : IsAscii s) (ht : IsAscii t) : IsAscii (s ++ t) := by
  intro c hc
  rcases List.mem_append.mp hc with h | h
  · exact hs c h
  · exact ht c h

theorem IsAscii.cons {c : Char} {t : Text} (hc : c.utf8Size = 1) (ht : IsAscii t) :
    IsAscii (c :: t) := by
  intro d hd
  rcases List.mem_cons.mp hd with rfl | h
  · exact hc
  · exact ht d h

theorem IsAscii.tail {c : Char} {t : Text} (h : IsAscii (c :: t)) : IsAscii t :=
  fun d hd => h d (List.mem_cons_of_mem _ hd)

/-- ASCII text takes one byte a character. -/
theorem utf8Len_of_isAscii {t : Text} (h : IsAscii t) : utf8Len t = t.length := by
  induction t with
  | nil => rfl
  | cons c t ih =>
    have hc : c.utf8Size = 1 := h c List.mem_cons_self
    have ht := ih h.tail
    rw [utf8Len] at ht
    simp [utf8Len, encodeUtf8, hc]
    rw [encodeUtf8, List.length_flatMap] at ht
    simp at ht
    omega

/-- A byte prefix of ASCII text is the encoding of a text prefix. -/
theorem take_encodeUtf8 {t : Text} (h : IsAscii t) (k : ℕ) :
    (encodeUtf8 t).take k = encodeUtf8 (t.take k) := by
  induction t generalizing k with
  | nil => simp
  | cons c t ih =>
    have hc : c.utf8Size = 1 := h c List.mem_cons_self
    have hlen : (String.utf8EncodeChar c).length = 1 := by
      rw [String.length_utf8EncodeChar, hc]
    obtain ⟨b, hb⟩ := List.length_eq_one_iff.mp hlen
    cases k with
    | zero => simp
    | succ k =>
      have hcons : ∀ s : Text, encodeUtf8 (c :: s) = b :: encodeUtf8 s := by
        intro s
        simp [encodeUtf8, hb]
      rw [hcons, List.take_succ_cons, List.take_succ_cons, hcons, ih h.tail]

/-! ## Whitespace -/

/-- `str.isspace` of one character. -/
def isSpace (c : Char) : Bool :=
  let n := c.toNat
  (9 ≤ n && n ≤ 13) || (28 ≤ n && n ≤ 32) || n == 0x85 || n == 0xA0 || n == 0x1680 ||
    (0x2000 ≤ n && n ≤ 0x200A) || n == 0x2028 || n == 0x2029 || n == 0x202F || n == 0x205F ||
    n == 0x3000

/-- `str.strip()`. -/
def strip (t : Text) : Text := (t.dropWhile isSpace).rdropWhile isSpace

/-- Text without whitespace is its own `strip`. -/
theorem strip_of_no_space {t : Text} (h : ∀ c ∈ t, isSpace c = false) : strip t = t := by
  have hdrop : t.dropWhile isSpace = t := by
    cases t with
    | nil => rfl
    | cons c t =>
      have hc : ¬ isSpace c = true := by simp [h c List.mem_cons_self]
      rw [List.dropWhile_cons_of_neg hc]
  rw [strip, hdrop, List.rdropWhile_eq_self_iff]
  intro hne
  simp [h _ (List.getLast_mem hne)]

/-- What is left of a text starts and ends outside the whitespace. -/
theorem strip_strip (t : Text) : strip (strip t) = strip t := by
  have hdrop : (strip t).dropWhile isSpace = strip t := by
    rw [List.dropWhile_eq_self_iff]
    intro hlen
    have hpre : strip t <+: t.dropWhile isSpace := List.rdropWhile_prefix _ _
    have hpos : 0 < (t.dropWhile isSpace).length := lt_of_lt_of_le hlen hpre.length_le
    have hget : (strip t).get ⟨0, hlen⟩ = (t.dropWhile isSpace).get ⟨0, hpos⟩ :=
      hpre.getElem hlen
    show ¬ isSpace ((strip t).get ⟨0, hlen⟩) = true
    rw [hget]
    exact List.dropWhile_get_zero_not isSpace t hpos
  rw [strip, hdrop]
  exact List.rdropWhile_idempotent isSpace _

/-! ## Lines -/

/-- The line boundaries of `str.splitlines`. -/
def isLineBreak (c : Char) : Bool :=
  let n := c.toNat
  (10 ≤ n && n ≤ 13) || (0x1C ≤ n && n ≤ 0x1E) || n == 0x85 || n == 0x2028 || n == 0x2029

/-- The lines of the text that follows the unfinished line `cur`, held in reverse. -/
def splitlinesFrom (cur : Text) : Text → List Text
  | [] => if cur = [] then [] else [cur.reverse]
  | '\r' :: '\n' :: rest => cur.reverse :: splitlinesFrom [] rest
  | c :: rest =>
    if isLineBreak c then cur.reverse :: splitlinesFrom [] rest else splitlinesFrom (c :: cur) rest

/-- `str.splitlines()`. -/
def splitlines (t : Text) : List Text := splitlinesFrom [] t

/-- The newline translation of a text-mode read: `\r\n` and `\r` become `\n`. -/
def universalNewlines : Text → Text
  | [] => []
  | '\r' :: '\n' :: rest => '\n' :: universalNewlines rest
  | c :: rest => (if c = '\r' then '\n' else c) :: universalNewlines rest

/-- `Path.read_text(encoding="utf-8")`. -/
def readText (b : Bytes) : Option Text := (decodeUtf8 b).map universalNewlines

theorem universalNewlines_of_notMem : ∀ {t : Text}, '\r' ∉ t → universalNewlines t = t
  | [], _ => rfl
  | c :: rest, h => by
    have hc : c ≠ '\r' := fun e => h (e ▸ List.mem_cons_self)
    have hrest : '\r' ∉ rest := fun e => h (List.mem_cons_of_mem _ e)
    rw [universalNewlines, if_neg hc, universalNewlines_of_notMem hrest]
    intro _ e
    exact absurd e hc

/-- A file whose text has no carriage return reads back as that text. -/
theorem readText_encodeUtf8 {t : Text} (h : '\r' ∉ t) : readText (encodeUtf8 t) = some t := by
  rw [readText, decodeUtf8_encodeUtf8, Option.map_some, universalNewlines_of_notMem h]

/-- No character of the text ends a line. -/
def OneLine (t : Text) : Prop := ∀ c ∈ t, isLineBreak c = false

theorem OneLine.append {s t : Text} (hs : OneLine s) (ht : OneLine t) : OneLine (s ++ t) := by
  intro c hc
  rcases List.mem_append.mp hc with h | h
  · exact hs c h
  · exact ht c h

theorem OneLine.notMem_cr {t : Text} (h : OneLine t) : '\r' ∉ t :=
  fun hm => absurd (h _ hm) (by decide)

theorem OneLine.take {t : Text} (h : OneLine t) (k : ℕ) : OneLine (t.take k) :=
  fun c hc => h c (List.mem_of_mem_take hc)

theorem splitlinesFrom_append {t : Text} (h : OneLine t) (cur rest : Text) :
    splitlinesFrom cur (t ++ rest) = splitlinesFrom (t.reverse ++ cur) rest := by
  induction t generalizing cur with
  | nil => rfl
  | cons c t ih =>
    have hc : isLineBreak c = false := h c List.mem_cons_self
    have hcr : c ≠ '\r' := by
      rintro rfl
      exact absurd hc (by decide)
    rw [List.cons_append, splitlinesFrom, hc]
    · rw [if_neg Bool.false_ne_true, ih fun d hd => h d (List.mem_cons_of_mem _ hd)]
      simp
    · intro _ e
      exact absurd e hcr

/-- A line that is ended by a newline is the first line of the text. -/
theorem splitlines_append_newline {line : Text} (h : OneLine line) (rest : Text) :
    splitlines (line ++ '\n' :: rest) = line :: splitlines rest := by
  rw [splitlines, splitlinesFrom_append h, splitlinesFrom]
  · have hn : isLineBreak '\n' = true := by decide
    simp [hn, splitlines]
  · intro _ e
    exact absurd e (by decide)

/-- Text without a line boundary is one line, or none when it is empty. -/
theorem splitlines_of_oneLine {line : Text} (h : OneLine line) :
    splitlines line = if line = [] then [] else [line] := by
  have e := splitlinesFrom_append h [] []
  rw [List.append_nil] at e
  rw [splitlines, e, splitlinesFrom]
  simp

end Python
end Neocortex
