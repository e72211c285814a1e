import Neocortex.Python.Text

/-!
# The `json` module

`dumps` is `json.dumps(value, ensure_ascii=True, sort_keys=True, separators=(",", ":"))`
and `loads` is `json.loads` with the default strict decoder.

An object keeps its members as a list of pairs, in the order in which they were
built or read; `Json.get` is `dict.get`, so the last of several members with one
key is the one that counts.  A float keeps its lexeme: nothing here computes with it.

Integers of more than `maxStrDigits` digits are refused in both directions, as by
`int.__repr__` and `int()`.  A lone surrogate escape has no `Char`; `loads` refuses it.
-/

namespace Neocortex
namespace Python

/-- A decoded JSON value. -/
inductive Json where
  | null
  | bool (b : Bool)
  | int (n : ℤ)
  | float (lexeme : Text)
  | str (s : Text)
  | arr (items : List Json)
  | obj (members : List (Text × Json))

namespace Json

/-- `dict.get(key)`; a missing key reads as `None`. -/
def get (members : List (Text × Json)) (key : Text) : Json :=
  (members.reverse.lookup key).getD .null

/-- The text of a string value. -/
def asStr? : Json → Option Text
  | .str s => some s
  | _ => none

end Json

/-! ## Writing -/

/-- `sys.int_info.default_max_str_digits`. -/
def maxStrDigits : ℕ := 4300

/-- One hexadecimal digit, in lower case. -/
def hexDigit (n : ℕ) : Char := Nat.digitChar (n % 16)

/-- `"\\u{0:04x}"`. -/
def escapeUnit (n : ℕ) : Text :=
  ['\\', 'u', hexDigit (n / 4096), hexDigit (n / 256), hexDigit (n / 16), hexDigit n]

/-- How `ensure_ascii` writes one character of a string. -/
def escapeChar (c : Char) : Text :=
  if c = '"' then ['\\', '"']
  else if c = '\\' then ['\\', '\\']
  else if c = '\n' then ['\\', 'n']
  else if c = '\r' then ['\\', 'r']
  else if c = '\t' then ['\\', 't']
  else if c = '\x08' then ['\\', 'b']
  else if c = '\x0c' then ['\\', 'f']
  else if 0x20 ≤ c.toNat ∧ c.toNat < 0x7F then [c]
  else if c.toNat < 0x10000 then escapeUnit c.toNat
  else
    escapeUnit (0xD800 + (c.toNat - 0x10000) / 1024) ++
      escapeUnit (0xDC00 + (c.toNat - 0x10000) % 1024)

/-- A string between its quotes. -/
def renderStr (s : Text) : Text := '"' :: (s.flatMap escapeChar ++ ['"'])

/-- The decimal digits of a natural number, most significant first. -/
def decimal (n : ℕ) : Text :=
  if n = 0 then ['0'] else ((Nat.digits 10 n).reverse).map Nat.digitChar

/-- `int.__repr__`. -/
def renderInt : ℤ → Text
  | .ofNat n => decimal n
  | .negSucc n => '-' :: decimal (n + 1)

mutual
/-- The text of a value, its members in their own order. -/
def render : Json → Text
  | .null => lit "null"
  | .bool true => lit "true"
  | .bool false => lit "false"
  | .int n => renderInt n
  | .float lexeme => lexeme
  | .str s => renderStr s
  | .arr [] => ['[', ']']
  | .arr (v :: vs) => '[' :: (render v ++ (renderItems vs ++ [']']))
  | .obj [] => ['{', '}']
  | .obj ((k, v) :: ms) => '{' :: (renderStr k ++ ':' :: (render v ++ (renderMembers ms ++ ['}'])))

/-- The items after the first one, each behind its comma. -/
def renderItems : List Json → Text
  | [] => []
  | v :: vs => ',' :: (render v ++ renderItems vs)

/-- The members after the first one, each behind its comma. -/
def renderMembers : List (Text × Json) → Text
  | [] => []
  | (k, v) :: ms => ',' :: (renderStr k ++ ':' :: (render v ++ renderMembers ms))
end

mutual
/-- The value that `sort_keys=True` writes: every object with its members by key. -/
def sortKeys : Json → Json
  | .arr items => .arr (sortKeysItems items)
  | .obj members => .obj ((sortKeysMembers members).insertionSort fun a b => a.1 ≤ b.1)
  | .null => .null
  | .bool b => .bool b
  | .int n => .int n
  | .float lexeme => .float lexeme
  | .str s => .str s

/-- `sortKeys` on the items of an array. -/
def sortKeysItems : List Json → List Json
  | [] => []
  | v :: vs => sortKeys v :: sortKeysItems vs

/-- `sortKeys` on the values of an object. -/
def sortKeysMembers : List (Text × Json) → List (Text × Json)
  | [] => []
  | (k, v) :: ms => (k, sortKeys v) :: sortKeysMembers ms
end

mutual
/-- Every integer of the value can be written. -/
def intsFit : Json → Bool
  | .int n => decide ((decimal n.natAbs).length ≤ maxStrDigits)
  | .arr items => intsFitItems items
  | .obj members => intsFitMembers members
  | .null => true
  | .bool _ => true
  | .float _ => true
  | .str _ => true

/-- `intsFit` on the items of an array. -/
def intsFitItems : List Json → Bool
  | [] => true
  | v :: vs => intsFit v && intsFitItems vs

/-- `intsFit` on the values of an object. -/
def intsFitMembers : List (Text × Json) → Bool
  | [] => true
  | (_, v) :: ms => intsFit v && intsFitMembers ms
end

/-- `json.dumps(value, ensure_ascii=True, sort_keys=True, separators=(",", ":"))`; `none` is
the `ValueError` of an integer with too many digits. -/
def dumps (v : Json) : Option Text := if intsFit v then some (render (sortKeys v)) else none

/-! ## Reading -/

/-- The whitespace of JSON. -/
def isWs (c : Char) : Bool := c == ' ' || c == '\t' || c == '\n' || c == '\r'

def skipWs (t : Text) : Text := t.dropWhile isWs

/-- The value of a hexadecimal digit, in either case. -/
def hexVal (c : Char) : Option ℕ :=
  if '0' ≤ c ∧ c ≤ '9' then some (c.toNat - 48)
  else if 'a' ≤ c ∧ c ≤ 'f' then some (c.toNat - 87)
  else if 'A' ≤ c ∧ c ≤ 'F' then some (c.toNat - 55)
  else none

/-- The code unit of four hexadecimal digits. -/
def hexUnit (a b c d : Char) : Option ℕ :=
  match hexVal a, hexVal b, hexVal c, hexVal d with
  | some w, some x, some y, some z => some (w * 4096 + x * 256 + y * 16 + z)
  | _, _, _, _ => none

/-- The one-letter escapes. -/
def shortEscape (c : Char) : Option Char :=
  if c = '"' then some '"'
  else if c = '\\' then some '\\'
  else if c = '/' then some '/'
  else if c = 'b' then some '\x08'
  else if c = 'f' then some '\x0c'
  else if c = 'n' then some '\n'
  else if c = 'r' then some '\r'
  else if c = 't' then some '\t'
  else none

/-- The character of a `\u` escape whose unit is `u`, before the text `rest`; a high surrogate
takes its low half from `rest`. -/
def scanUnit (u : ℕ) (rest : Text) : Option (Char × Text) :=
  if 0xD800 ≤ u ∧ u < 0xDC00 then
    match rest with
    | '\\' :: 'u' :: a :: b :: c :: d :: rest =>
      match hexUnit a b c d with
      | some l =>
        if 0xDC00 ≤ l ∧ l < 0xE000 then
          some (Char.ofNat (0x10000 + (u - 0xD800) * 1024 + (l - 0xDC00)), rest)
        else none
      | none => none
    | _ => none
  else if 0xDC00 ≤ u ∧ u < 0xE000 then none
  else some (Char.ofNat u, rest)

/-- What follows a backslash. -/
def scanEscape : Text → Option (Char × Text)
  | 'u' :: a :: b :: c :: d :: rest =>
    match hexUnit a b c d with
    | some u => scanUnit u rest
    | none => none
  | e :: rest =>
    match shortEscape e with
    | some c => some (c, rest)
    | none => none
  | [] => none

/-- The rest of a string, after its opening quote. -/
def scanString : ℕ → Text → Option (Text × Text)
  | 0, _ => none
  | _ + 1, [] => none
  | n + 1, c :: rest =>
    if c = '"' then some ([], rest)
    else if c = '\\' then
      match scanEscape rest with
      | some (d, rest) => (scanString n rest).map fun p => (d :: p.1, p.2)
      | none => none
    else if c.toNat < 0x20 then none
    else (scanString n rest).map fun p => (c :: p.1, p.2)

/-- The value of a run of decimal digits. -/
def decimalVal (ds : Text) : ℕ := ds.foldl (fun acc c => acc * 10 + (c.toNat - 48)) 0

/-- The digits of the integer part, and the text after them. -/
def scanIntPart : Text → Option (Text × Text)
  | [] => none
  | c :: rest =>
    if c = '0' then some (['0'], rest)
    else if '1' ≤ c ∧ c ≤ '9' then
      some (c :: rest.takeWhile Char.isDigit, rest.dropWhile Char.isDigit)
    else none

/-- The fraction, when there is one. -/
def scanFrac : Text → Text × Text
  | '.' :: d :: rest =>
    if d.isDigit then ('.' :: d :: rest.takeWhile Char.isDigit, rest.dropWhile Char.isDigit)
    else ([], '.' :: d :: rest)
  | t => ([], t)

/-- The digits of an exponent behind its letter and sign `mark`. -/
def scanExpDigits (mark : Text) : Text → Option (Text × Text)
  | d :: rest =>
    if d.isDigit then
      some (mark ++ d :: rest.takeWhile Char.isDigit, rest.dropWhile Char.isDigit)
    else none
  | [] => none

/-- The exponent, when there is one. -/
def scanExp (t : Text) : Text × Text :=
  match t with
  | e :: rest =>
    if e = 'e' ∨ e = 'E' then
      let found :=
        match rest with
        | s :: rest' =>
          if s = '+' ∨ s = '-' then scanExpDigits [e, s] rest' else scanExpDigits [e] rest
        | [] => none
      found.getD ([], t)
    else ([], t)
  | [] => ([], t)

/-- The value of a number from its integer digits, fraction and exponent. -/
def numberValue (negative : Bool) (ds frac exp : Text) : Option Json :=
  if frac = [] ∧ exp = [] then
    if ds.length ≤ maxStrDigits then
      some (.int (if negative then -(decimalVal ds : ℤ) else (decimalVal ds : ℤ)))
    else none
  else some (.float ((if negative then ['-'] else []) ++ ds ++ frac ++ exp))

/-- A number without its sign. -/
def scanUnsigned (negative : Bool) (t : Text) : Option (Json × Text) :=
  match scanIntPart t with
  | none => none
  | some (ds, rest) =>
    let frac := scanFrac rest
    let exp := scanExp frac.2
    (numberValue negative ds frac.1 exp.1).map fun v => (v, exp.2)

def stripWord (word t : Text) : Option Text := if word <+: t then some (t.drop word.length) else none

/-- A number or one of the words of the decoder. -/
def scanScalar (t : Text) : Option (Json × Text) :=
  match t with
  | [] => none
  | c :: rest =>
    if c = 'n' then (stripWord (lit "null") t).map fun r => (.null, r)
    else if c = 't' then (stripWord (lit "true") t).map fun r => (.bool true, r)
    else if c = 'f' then (stripWord (lit "false") t).map fun r => (.bool false, r)
    else if c = 'N' then (stripWord (lit "NaN") t).map fun r => (.float (lit "NaN"), r)
    else if c = 'I' then (stripWord (lit "Infinity") t).map fun r => (.float (lit "Infinity"), r)
    else if c = '-' then
      match stripWord (lit "-Infinity") t with
      | some r => some (.float (lit "-Infinity"), r)
      | none => scanUnsigned true rest
    else scanUnsigned false t

mutual
/-- `scan_once`: a value at the start of the text. -/
def scanValue : ℕ → Text → Option (Json × Text)
  | 0, _ => none
  | _ + 1, [] => none
  | n + 1, c :: rest =>
    if c = '"' then (scanString n rest).map fun p => (.str p.1, p.2)
    else if c = '{' then
      match skipWs rest with
      | [] => none
      | d :: rest' =>
        if d = '}' then some (.obj [], rest')
        else (scanMembers n (d :: rest')).map fun p => (.obj p.1, p.2)
    else if c = '[' then
      match skipWs rest with
      | [] => none
      | d :: rest' =>
        if d = ']' then some (.arr [], rest')
        else (scanItems n (d :: rest')).map fun p => (.arr p.1, p.2)
    else scanScalar (c :: rest)

/-- The members of an object up to its closing brace. -/
def scanMembers : ℕ → Text → Option (List (Text × Json) × Text)
  | 0, _ => none
  | _ + 1, [] => none
  | n + 1, q :: rest =>
    if q = '"' then
      match scanString n rest with
      | none => none
      | some (k, rest) =>
        match skipWs rest with
        | [] => none
        | colon :: rest =>
          if colon = ':' then
            match scanValue n (skipWs rest) with
            | none => none
            | some (v, rest) =>
              match skipWs rest with
              | [] => none
              | d :: rest =>
                if d = '}' then some ([(k, v)], rest)
                else if d = ',' then
                  (scanMembers n (skipWs rest)).map fun p => ((k, v) :: p.1, p.2)
                else none
          else none
    else none

/-- The items of an array up to its closing bracket. -/
def scanItems : ℕ → Text → Option (List Json × Text)
  | 0, _ => none
  | n + 1, t =>
    match scanValue n t with
    | none => none
    | some (v, rest) =>
      match skipWs rest with
      | [] => none
      | d :: rest =>
        if d = ']' then some ([v], rest)
        else if d = ',' then (scanItems n (skipWs rest)).map fun p => (v :: p.1, p.2)
        else none
end

/-- `json.loads`; `none` is `JSONDecodeError`, or the `ValueError` of an oversized integer. -/
def loads (t : Text) : Option Json :=
  if t.head? = some '\ufeff' then none
  else
    match scanValue (t.length + 1) (skipWs t) with
    | some (v, rest) => if skipWs rest = [] then some v else none
    | none => none

end Python
end Neocortex
