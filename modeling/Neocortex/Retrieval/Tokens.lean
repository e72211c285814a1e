import Neocortex.Library.Runs
import Neocortex.Python.Words

/-!
# Folded words of a text

`semantic.semantic_lexical`: the folding of a term, and `_literal_tokens`, which reads a text in
blocks of `_LITERAL_SCAN_BLOCK_CHARS` characters and gives its words with their places.  A word may
go over the end of a block, over any number of blocks; it is given once, and without its folding
when that is longer than any term of the query.

* `foldRetrievalTerm_eq`: folding goes character by character, although `NFKD` reorders marks.
* `Follows`: what the scan has given and what it holds, said of the runs of the text so far.
* `literal_tokens`, `literal_tokens_exact`: the tokens are the maximal runs of the whole text.

The checkpoints between the blocks, which may end the scan, are left out.
-/

namespace Neocortex
namespace Retrieval

open Python Runs

/-! ## Folding -/

/-- What `str.casefold`, `unicodedata` and the pattern `[^\W_]` say of one character. -/
structure CharacterData where
  casefold : Char → Text
  /-- The full compatibility decomposition. -/
  decomposition : Char → Text
  /-- `unicodedata.combining`, the canonical combining class. -/
  combining : Char → ℕ
  /-- `[^\W_]`. -/
  word : Char → Bool
  ascii_decomposition : ∀ c, c.toNat < 128 → decomposition c = [c]
  ascii_combining : ∀ c, c.toNat < 128 → combining c = 0

namespace CharacterData

variable (u : CharacterData)

/-- The canonical ordering: a mark goes behind the marks of smaller classes that follow it. -/
def place (c : Char) : Text → Text
  | [] => [c]
  | d :: t => if 0 < u.combining d ∧ u.combining d < u.combining c then d :: place c t else c :: d :: t

def reorder : Text → Text
  | [] => []
  | c :: t => u.place c (reorder t)

/-- `unicodedata.normalize("NFKD", text)`. -/
def nfkd (text : Text) : Text := u.reorder (text.flatMap u.decomposition)

def isascii (text : Text) : Bool := text.all fun c => c.toNat < 128

/-- `not unicodedata.combining(character)`. -/
def isStarter (c : Char) : Bool := u.combining c = 0

/-- `_fold_retrieval_term`. -/
def foldRetrievalTerm (term : Text) : Text :=
  let folded := term.flatMap u.casefold
  if isascii folded then folded else (u.nfkd folded).filter u.isStarter

/-- The folding of one character. -/
def foldChar (c : Char) : Text :=
  (u.casefold c).flatMap fun d => (u.decomposition d).filter u.isStarter

theorem filter_place (c : Char) (t : Text) :
    (u.place c t).filter u.isStarter = (c :: t).filter u.isStarter := by
  induction t with
  | nil => rfl
  | cons d t ih =>
    rw [place]
    split_ifs with h
    · have hc : u.isStarter c = false := by simp [isStarter]; omega
      have hd : u.isStarter d = false := by simp [isStarter]; omega
      rw [List.filter_cons, ih]
      simp [hc, hd]
    · rfl

/-- Only characters that are dropped change their places. -/
theorem filter_reorder (t : Text) :
    (u.reorder t).filter u.isStarter = t.filter u.isStarter := by
  induction t with
  | nil => rfl
  | cons c t ih => rw [reorder, filter_place, List.filter_cons, List.filter_cons, ih]

/-- Folding goes character by character. -/
theorem foldRetrievalTerm_eq (term : Text) : u.foldRetrievalTerm term = term.flatMap u.foldChar := by
  have hchars : term.flatMap u.foldChar =
      ((term.flatMap u.casefold).flatMap u.decomposition).filter u.isStarter := by
    rw [List.filter_flatMap, List.flatMap_assoc]
    rfl
  rw [foldRetrievalTerm, hchars]
  split_ifs with hascii
  · generalize term.flatMap u.casefold = folded at hascii ⊢
    induction folded with
    | nil => rfl
    | cons c t ih =>
      rw [isascii, List.all_cons, Bool.and_eq_true, decide_eq_true_eq] at hascii
      have hc : u.isStarter c = true := by simp [isStarter, u.ascii_combining c hascii.1]
      rw [List.flatMap_cons, u.ascii_decomposition c hascii.1, List.singleton_append,
        List.filter_cons_of_pos hc, ← ih hascii.2]
  · rw [nfkd, filter_reorder]

@[simp] theorem foldRetrievalTerm_append (s t : Text) :
    u.foldRetrievalTerm (s ++ t) = u.foldRetrievalTerm s ++ u.foldRetrievalTerm t := by
  rw [foldRetrievalTerm_eq, foldRetrievalTerm_eq, foldRetrievalTerm_eq, List.flatMap_append]

/-- The data of ASCII, and of `é`, which decomposes into `e` and an accent. -/
def sample : CharacterData where
  casefold c := if c = 'É' then ['é'] else [c.toLower]
  decomposition c := if c = 'é' then ['e', '\u0301'] else [c]
  combining c := if c = '\u0301' then 230 else 0
  word c := c.isAlphanum || c = 'é' || c = 'É'
  ascii_decomposition c h := if_neg fun e => absurd h (by rw [e]; decide)
  ascii_combining c h := if_neg fun e => absurd h (by rw [e]; decide)

example : sample.foldRetrievalTerm (lit "CafÉ") = lit "cafe" := by decide +kernel

end CharacterData

/-! ## Tokens -/

/-- A token of `_literal_tokens`. -/
structure LiteralToken where
  index : ℕ
  start : ℕ
  stop : ℕ
  folded : Option Text
  deriving DecidableEq

/-- The variables of `_literal_tokens`, and what it has yielded; `start` is `none` for `-1`. -/
structure TokenScan where
  index : ℕ := 0
  start : Option ℕ := none
  stop : ℕ := 0
  pieces : List Text := []
  foldedChars : ℕ := 0
  yielded : List LiteralToken := []

section Scan

variable (u : CharacterData) (maxFoldedChars : ℕ)

/-- The token is yielded if one is begun and `done` says that it is over. -/
def TokenScan.yieldIf (done : Bool) (s : TokenScan) : TokenScan :=
  match s.start with
  | none => s
  | some start =>
    if done then
      { index := s.index + 1
        stop := s.stop
        yielded := s.yielded ++ [⟨s.index, start, s.stop,
          if s.foldedChars ≤ maxFoldedChars then some s.pieces.flatten else none⟩] }
    else s

/-- The folding of a match is kept while it is no longer than a term. -/
def TokenScan.addPiece (matched : Text) (s : TokenScan) : TokenScan :=
  if s.foldedChars ≤ maxFoldedChars then
    let folded := u.foldRetrievalTerm matched
    let foldedChars := s.foldedChars + folded.length
    { s with
      foldedChars
      pieces := if foldedChars ≤ maxFoldedChars then s.pieces ++ [folded] else [] }
  else s

/-- The body of the loop over the matches of a block. -/
def TokenScan.takeMatch (blockEnd : ℕ) (s : TokenScan) (r : Run Char) : TokenScan :=
  let s := s.yieldIf maxFoldedChars (r.start != s.stop)
  let s := { s with start := some (s.start.getD r.start), stop := r.stop }
  let s := s.addPiece u maxFoldedChars r.elems
  s.yieldIf maxFoldedChars (s.stop < blockEnd)

/-- The body of the loop over the blocks; `block` stands at `blockStart`. -/
def TokenScan.takeBlock (s : TokenScan) (blockStart : ℕ) (block : Text) : TokenScan :=
  let blockEnd := blockStart + block.length
  let s := (runs u.word blockStart block).foldl (TokenScan.takeMatch u maxFoldedChars blockEnd) s
  s.yieldIf maxFoldedChars (s.stop < blockEnd)

/-- The number of blocks of `range(0, len(text), size)`. -/
def blockCount (size length : ℕ) : ℕ := (length + size - 1) / size

/-- The scan behind its first `n` blocks. -/
def TokenScan.afterBlocks (size : ℕ) (text : Text) (n : ℕ) : TokenScan :=
  (List.range n).foldl (fun s i => s.takeBlock u maxFoldedChars (i * size)
    (slice text (i * size) (i * size + size))) {}

/-- `_LITERAL_SCAN_BLOCK_CHARS`. -/
def literalScanBlockChars : ℕ := 4096

/-- `_literal_tokens`. -/
def literalTokens (text : Text) : List LiteralToken :=
  ((TokenScan.afterBlocks u maxFoldedChars literalScanBlockChars text
    (blockCount literalScanBlockChars text.length)).yieldIf maxFoldedChars true).yielded

/-! ## The tokens of a text -/

/-- A folding that is no longer than a term. -/
def shortFolding (elems : Text) : Option Text :=
  if (u.foldRetrievalTerm elems).length ≤ maxFoldedChars then some (u.foldRetrievalTerm elems)
  else none

/-- The token of a run. -/
def tokenOf (index : ℕ) (r : Run Char) : LiteralToken :=
  ⟨index, r.start, r.stop, shortFolding u maxFoldedChars r.elems⟩

/-- The pieces of a run: its folding, or nothing when it is too long. -/
def Folded (elems : Text) (pieces : List Text) (foldedChars : ℕ) : Prop :=
  (foldedChars ≤ maxFoldedChars ∧ pieces.flatten = u.foldRetrievalTerm elems ∧
    foldedChars = (u.foldRetrievalTerm elems).length) ∨
  (maxFoldedChars < foldedChars ∧ maxFoldedChars < (u.foldRetrievalTerm elems).length)

/-- What the scan holds of a run that is not over. -/
def Carries (s : TokenScan) : Option (Run Char) → Prop
  | none => s.start = none ∧ s.pieces = [] ∧ s.foldedChars = 0
  | some r => s.start = some r.start ∧ s.stop = r.stop ∧
      Folded u maxFoldedChars r.elems s.pieces s.foldedChars

/-- The scan has given the tokens of the runs `done`, and holds the run `carried`. -/
structure Follows (done : List (Run Char)) (carried : Option (Run Char)) (s : TokenScan) : Prop where
  yielded : s.yielded = done.mapIdx (tokenOf u maxFoldedChars)
  index : s.index = done.length
  carries : Carries u maxFoldedChars s carried

variable {u maxFoldedChars}

theorem Folded.short {elems : Text} {pieces : List Text} {foldedChars : ℕ}
    (h : Folded u maxFoldedChars elems pieces foldedChars) :
    (if foldedChars ≤ maxFoldedChars then some pieces.flatten else none) =
      shortFolding u maxFoldedChars elems := by
  unfold shortFolding
  rcases h with ⟨h₁, h₂, h₃⟩ | ⟨h₁, h₂⟩
  · rw [if_pos h₁, if_pos (h₃ ▸ h₁), h₂]
  · rw [if_neg (by omega), if_neg (by omega)]

/-- One more piece of a run. -/
theorem Folded.addPiece {elems matched : Text} {s : TokenScan}
    (h : Folded u maxFoldedChars elems s.pieces s.foldedChars) :
    Folded u maxFoldedChars (elems ++ matched) (s.addPiece u maxFoldedChars matched).pieces
      (s.addPiece u maxFoldedChars matched).foldedChars := by
  unfold TokenScan.addPiece Folded
  rw [u.foldRetrievalTerm_append, List.length_append]
  rcases h with ⟨h₁, h₂, h₃⟩ | ⟨h₁, h₂⟩
  · rw [if_pos h₁]
    by_cases hfits : s.foldedChars + (u.foldRetrievalTerm matched).length ≤ maxFoldedChars
    · left
      simp only [if_pos hfits, List.flatten_append, List.flatten_singleton, h₂]
      exact ⟨hfits, trivial, by rw [h₃]⟩
    · right
      exact ⟨by simpa using hfits, by omega⟩
  · rw [if_neg (by omega)]
    exact Or.inr ⟨h₁, by omega⟩

@[simp] theorem addPiece_start (matched : Text) (s : TokenScan) :
    (s.addPiece u maxFoldedChars matched).start = s.start := by
  unfold TokenScan.addPiece
  split_ifs <;> rfl

@[simp] theorem addPiece_stop (matched : Text) (s : TokenScan) :
    (s.addPiece u maxFoldedChars matched).stop = s.stop := by
  unfold TokenScan.addPiece
  split_ifs <;> rfl

@[simp] theorem addPiece_index (matched : Text) (s : TokenScan) :
    (s.addPiece u maxFoldedChars matched).index = s.index := by
  unfold TokenScan.addPiece
  split_ifs <;> rfl

@[simp] theorem addPiece_yielded (matched : Text) (s : TokenScan) :
    (s.addPiece u maxFoldedChars matched).yielded = s.yielded := by
  unfold TokenScan.addPiece
  split_ifs <;> rfl

variable {done : List (Run Char)} {s : TokenScan}

/-- A run that is over is yielded. -/
theorem Follows.yieldIf_true {r : Run Char} (h : Follows u maxFoldedChars done (some r) s) :
    Follows u maxFoldedChars (done ++ [r]) none (s.yieldIf maxFoldedChars true) := by
  obtain ⟨hstart, hstop, hfolded⟩ := h.carries
  have hyield : s.yieldIf maxFoldedChars true =
      { index := s.index + 1, stop := s.stop,
        yielded := s.yielded ++ [tokenOf u maxFoldedChars done.length r] } := by
    rw [TokenScan.yieldIf, hstart, tokenOf, ← hfolded.short, ← hstop, ← h.index]
    rfl
  rw [hyield]
  refine ⟨?_, ?_, rfl, rfl, rfl⟩
  · rw [List.mapIdx_append, ← h.yielded]
    simp
  · rw [List.length_append, h.index]
    rfl

theorem Follows.yieldIf_false {carried : Option (Run Char)}
    (h : Follows u maxFoldedChars done carried s) :
    Follows u maxFoldedChars done carried (s.yieldIf maxFoldedChars false) := by
  have hsame : s.yieldIf maxFoldedChars false = s := by
    unfold TokenScan.yieldIf
    cases s.start <;> rfl
  rwa [hsame]

theorem Follows.yieldIf_none (h : Follows u maxFoldedChars done none s) (b : Bool) :
    Follows u maxFoldedChars done none (s.yieldIf maxFoldedChars b) := by
  have hsame : s.yieldIf maxFoldedChars b = s := by
    rw [TokenScan.yieldIf, h.carries.1]
  rwa [hsame]

/-- A match that begins a run. -/
theorem Follows.begin {r : Run Char} (h : Follows u maxFoldedChars done none s) :
    Follows u maxFoldedChars done (some r)
      (TokenScan.addPiece u maxFoldedChars r.elems
        { s with start := some (s.start.getD r.start), stop := r.stop }) := by
  obtain ⟨hstart, hpieces, hchars⟩ := h.carries
  refine ⟨by simpa using h.yielded, by simpa using h.index, by simp [hstart], by simp, ?_⟩
  have hempty : Folded u maxFoldedChars [] s.pieces s.foldedChars := by
    left
    rw [hpieces, hchars, u.foldRetrievalTerm_eq]
    exact ⟨Nat.zero_le _, rfl, rfl⟩
  exact Folded.addPiece (s := { s with start := some (s.start.getD r.start), stop := r.stop }) hempty

/-- A match that goes on with the run of the last block. -/
theorem Follows.continue {c r : Run Char} (h : Follows u maxFoldedChars done (some c) s)
    (hr : r.start = c.stop) :
    Follows u maxFoldedChars done (some ⟨c.start, c.elems ++ r.elems⟩)
      (TokenScan.addPiece u maxFoldedChars r.elems
        { s with start := some (s.start.getD r.start), stop := r.stop }) := by
  obtain ⟨hstart, -, hfolded⟩ := h.carries
  refine ⟨by simpa using h.yielded, by simpa using h.index, by simp [hstart], ?_, ?_⟩
  · rw [Run.stop] at hr
    simp only [addPiece_stop, Run.stop, List.length_append, hr]
    omega
  · exact Folded.addPiece
      (s := { s with start := some (s.start.getD r.start), stop := r.stop }) hfolded

/-- A match behind a run that is over: the run is yielded first. -/
theorem Follows.takeMatch_apart {c r : Run Char}
    (h : Follows u maxFoldedChars done (some c) s) (blockEnd : ℕ) (hr : r.start ≠ c.stop) :
    ∃ s', Follows u maxFoldedChars (done ++ [c]) none s' ∧
      s.takeMatch u maxFoldedChars blockEnd r = s'.takeMatch u maxFoldedChars blockEnd r := by
  have hne : (r.start != s.stop) = true := by
    rw [h.carries.2.1]
    simpa using hr
  refine ⟨s.yieldIf maxFoldedChars true, h.yieldIf_true, ?_⟩
  have hsame : ∀ b, (s.yieldIf maxFoldedChars true).yieldIf maxFoldedChars b =
      s.yieldIf maxFoldedChars true := by
    intro b
    rw [TokenScan.yieldIf, h.yieldIf_true.carries.1]
  rw [TokenScan.takeMatch, TokenScan.takeMatch, hne, hsame]

/-- A match that ends inside the block is a whole run, with what was carried. -/
theorem Follows.takeMatch_closed {r : Run Char} {blockEnd : ℕ}
    (h : Follows u maxFoldedChars done none s) (hr : r.stop < blockEnd) :
    Follows u maxFoldedChars (done ++ [r]) none (s.takeMatch u maxFoldedChars blockEnd r) := by
  have hbegin := (h.yieldIf_none (r.start != s.stop)).begin (r := r)
  rw [TokenScan.takeMatch]
  simp only [addPiece_stop, decide_eq_true hr]
  exact hbegin.yieldIf_true

/-- A match that ends with the block is carried. -/
theorem Follows.takeMatch_open {r : Run Char} {blockEnd : ℕ}
    (h : Follows u maxFoldedChars done none s) (hr : r.stop = blockEnd) :
    Follows u maxFoldedChars done (some r) (s.takeMatch u maxFoldedChars blockEnd r) := by
  have hbegin := (h.yieldIf_none (r.start != s.stop)).begin (r := r)
  rw [TokenScan.takeMatch]
  simp only [addPiece_stop, hr, Nat.lt_irrefl, decide_false]
  rw [← hr]
  exact hbegin.yieldIf_false

/-- A match that goes on with the carried run. -/
theorem Follows.takeMatch_joined {c r : Run Char}
    (h : Follows u maxFoldedChars done (some c) s) (blockEnd : ℕ) (hr : r.start = c.stop) :
    Follows u maxFoldedChars (done ++ if r.stop < blockEnd then [⟨c.start, c.elems ++ r.elems⟩] else [])
      (if r.stop < blockEnd then none else some ⟨c.start, c.elems ++ r.elems⟩)
      (s.takeMatch u maxFoldedChars blockEnd r) := by
  have hsame : (r.start != s.stop) = false := by
    rw [h.carries.2.1, hr]
    simp
  have hgoes := h.yieldIf_false.continue hr
  rw [TokenScan.takeMatch, hsame]
  simp only [addPiece_stop]
  split_ifs with hstop
  · simpa [hstop] using hgoes.yieldIf_true
  · simpa [hstop] using hgoes.yieldIf_false

/-- Matches that end inside the block are whole runs. -/
theorem Follows.foldl_closed {blockEnd : ℕ} (closed : List (Run Char))
    (hclosed : ∀ r ∈ closed, r.stop < blockEnd) :
    ∀ {done : List (Run Char)} {s : TokenScan}, Follows u maxFoldedChars done none s →
      Follows u maxFoldedChars (done ++ closed) none
        (closed.foldl (TokenScan.takeMatch u maxFoldedChars blockEnd) s) := by
  induction closed with
  | nil =>
    intro done s h
    simpa using h
  | cons r closed ih =>
    intro done s h
    have hone := h.takeMatch_closed (hclosed r List.mem_cons_self)
    have hrest := ih (fun r' hr' => hclosed r' (List.mem_cons_of_mem _ hr')) hone
    rwa [List.append_assoc] at hrest

/-- The matches of a block in front of which nothing is carried. -/
theorem Follows.foldl_runs {blockEnd : ℕ} (closed : List (Run Char)) (opened : Option (Run Char))
    (hclosed : ∀ r ∈ closed, r.stop < blockEnd) (hopened : ∀ r ∈ opened, r.stop = blockEnd)
    (h : Follows u maxFoldedChars done none s) :
    Follows u maxFoldedChars (done ++ closed) opened
      ((closed ++ opened.toList).foldl (TokenScan.takeMatch u maxFoldedChars blockEnd) s) := by
  have hfirst := h.foldl_closed closed hclosed
  rw [List.foldl_append]
  cases opened with
  | none => exact hfirst
  | some r => exact hfirst.takeMatch_open (hopened r rfl)

/-- What is left of a carried run behind a block. -/
theorem Follows.yieldIf_lt {carried : Option (Run Char)} {blockEnd : ℕ}
    (h : Follows u maxFoldedChars done carried s) (hstop : ∀ r ∈ carried, r.stop = blockEnd) :
    Follows u maxFoldedChars done carried (s.yieldIf maxFoldedChars (s.stop < blockEnd)) := by
  cases carried with
  | none => exact h.yieldIf_none _
  | some r =>
    have hnot : decide (s.stop < blockEnd) = false := by
      rw [h.carries.2.1, hstop r rfl]
      simp
    rw [hnot]
    exact h.yieldIf_false

/-- The matches of a block whose first character goes on with the carried run. -/
theorem Follows.foldl_attach {c : Run Char} {blockEnd : ℕ} {r : Run Char}
    {rest closed : List (Run Char)} {opened : Option (Run Char)}
    (hclosed : ∀ r ∈ closed, r.stop < blockEnd) (hopened : ∀ r ∈ opened, r.stop = blockEnd)
    (hruns : closed ++ opened.toList = r :: rest) (hr : r.start = c.stop)
    (h : Follows u maxFoldedChars done (some c) s) :
    Follows u maxFoldedChars (done ++ (attach c.start c.elems (closed, opened)).1)
      (attach c.start c.elems (closed, opened)).2
      ((r :: rest).foldl (TokenScan.takeMatch u maxFoldedChars blockEnd) s) := by
  have hjoin := h.takeMatch_joined blockEnd hr
  rw [List.foldl_cons]
  cases closed with
  | nil =>
    rw [List.nil_append] at hruns
    obtain ⟨rfl, rfl⟩ : opened = some r ∧ rest = [] := by
      cases opened with
      | none => simp at hruns
      | some r' => simpa using hruns
    rw [if_neg (by simp [hopened r rfl]), if_neg (by simp [hopened r rfl])] at hjoin
    exact hjoin
  | cons r' closed =>
    rw [List.cons_append, List.cons.injEq] at hruns
    obtain ⟨rfl, rfl⟩ := hruns
    have hstop := hclosed r' List.mem_cons_self
    rw [if_pos hstop, if_pos hstop] at hjoin
    have hrest := hjoin.foldl_runs closed opened
      (fun r hr => hclosed r (List.mem_cons_of_mem _ hr)) hopened
    rwa [List.append_assoc] at hrest

/-- A block: what was given and carried, and the runs of the block read behind it. -/
theorem Follows.takeBlock {carried : Option (Run Char)} {blockStart : ℕ} {block : Text}
    (hblock : block ≠ []) (h : Follows u maxFoldedChars done carried s)
    (hcarried : ∀ r ∈ carried, r.stop = blockStart) :
    Follows u maxFoldedChars (done ++ (scan u.word carried blockStart block).1)
      (scan u.word carried blockStart block).2 (s.takeBlock u maxFoldedChars blockStart block) := by
  have hclosed : ∀ r ∈ (scan u.word none blockStart block).1, r.stop < blockStart + block.length :=
    lt_of_mem_closed block (by simp)
  have hopened : ∀ r ∈ (scan u.word none blockStart block).2, r.stop = blockStart + block.length :=
    stop_of_open block (by simp)
  have hends := stop_of_open (p := u.word) block hcarried
  rw [TokenScan.takeBlock]
  cases carried with
  | none => exact Follows.yieldIf_lt (h.foldl_runs _ _ hclosed hopened) hends
  | some c =>
    have hc : c.stop = blockStart := hcarried c rfl
    obtain ⟨a, l, rfl⟩ := List.exists_cons_of_ne_nil hblock
    cases ha : u.word a with
    | true =>
      refine Follows.yieldIf_lt ?_ hends
      obtain ⟨r, rest, hruns, hr⟩ := start_of_hit ha blockStart l
      rw [scan_some_hit ha, hruns]
      exact h.foldl_attach hclosed hopened hruns (hr.trans hc.symm)
    | false =>
      rw [scan_some_miss ha] at hends ⊢
      have happart : done ++ c :: (scan u.word none blockStart (a :: l)).1 =
          done ++ [c] ++ (scan u.word none blockStart (a :: l)).1 := by simp
      simp only [happart]
      rcases hruns : runs u.word blockStart (a :: l) with _ | ⟨r, rest⟩
      · -- no match: the carried run is over at the end of the block
        obtain ⟨h₁, h₂⟩ := List.append_eq_nil_iff.mp hruns
        rw [h₁, Option.toList_eq_nil_iff.mp h₂, List.append_nil]
        have hlt : decide (s.stop < blockStart + (a :: l).length) = true := by
          rw [h.carries.2.1, hc]
          simp
        have hyield := h.yieldIf_true
        rw [← hlt] at hyield
        exact hyield
      · have hr := lt_start_of_miss ha blockStart l r (hruns ▸ List.mem_cons_self)
        obtain ⟨s', hs', hsame⟩ :=
          h.takeMatch_apart (blockStart + (a :: l).length) (r := r) (by omega)
        refine Follows.yieldIf_lt ?_ hends
        rw [List.foldl_cons, hsame, ← List.foldl_cons, ← hruns]
        exact hs'.foldl_runs _ _ hclosed hopened

/-! ## The whole text -/

/-- The blocks in front of the block `n`. -/
theorem take_block (text : Text) (size n : ℕ) :
    text.take (n * size) ++ slice text (n * size) (n * size + size) =
      text.take ((n + 1) * size) := by
  have hnext : (n + 1) * size = n * size + size := by ring
  have hfirst : text.take (n * size) = (text.take (n * size + size)).take (n * size) := by
    rw [List.take_take, Nat.min_eq_left (by omega)]
  rw [slice, hfirst, hnext, List.take_append_drop]

/-- The scan behind some blocks has read the text in front of the next. -/
theorem follows_afterBlocks (size : ℕ) (text : Text) (n : ℕ) (hn : n ≤ blockCount size text.length)
    (hsize : 0 < size) :
    Follows u maxFoldedChars (scan u.word none 0 (text.take (n * size))).1
      (scan u.word none 0 (text.take (n * size))).2
      (TokenScan.afterBlocks u maxFoldedChars size text n) := by
  induction n with
  | zero => exact ⟨by simp [scan, TokenScan.afterBlocks], by simp [scan, TokenScan.afterBlocks],
      by simp [scan, TokenScan.afterBlocks, Carries]⟩
  | succ n ih =>
    have hinside : n * size < text.length := by
      have h₁ : (n + 1) * size ≤ (text.length + size - 1) / size * size :=
        Nat.mul_le_mul_right size hn
      have h₂ := Nat.div_mul_le_self (text.length + size - 1) size
      have h₃ : (n + 1) * size = n * size + size := by ring
      omega
    have hlen : (text.take (n * size)).length = n * size := by
      rw [List.length_take]
      omega
    have hblock : slice text (n * size) (n * size + size) ≠ [] := by
      rw [← List.length_pos_iff, length_slice]
      omega
    have hcarried : ∀ r ∈ (scan u.word none 0 (text.take (n * size))).2,
        r.stop = 0 + (text.take (n * size)).length := stop_of_open _ (by simp)
    rw [hlen, Nat.zero_add] at hcarried
    have hone := (ih (by omega)).takeBlock hblock hcarried
    rw [TokenScan.afterBlocks, List.range_succ, List.foldl_append, ← take_block, scan_append, hlen,
      Nat.zero_add]
    exact hone

/-- The tokens of a text are those of its runs. -/
theorem literal_tokens (u : CharacterData) (maxFoldedChars : ℕ) (text : Text) :
    literalTokens u maxFoldedChars text =
      (runs u.word 0 text).mapIdx (tokenOf u maxFoldedChars) := by
  have hsize : 0 < literalScanBlockChars := by decide
  have hall : text.take (blockCount literalScanBlockChars text.length * literalScanBlockChars) =
      text := by
    apply List.take_of_length_le
    unfold blockCount literalScanBlockChars
    omega
  have h : Follows u maxFoldedChars _ _ _ := follows_afterBlocks literalScanBlockChars text
    (blockCount literalScanBlockChars text.length) (Nat.le_refl _) hsize
  rw [hall] at h
  rw [literalTokens, runs]
  generalize scan u.word none 0 text = read at h ⊢
  obtain ⟨closed, opened⟩ := read
  cases opened with
  | none => simpa using (h.yieldIf_none true).yielded
  | some r => exact h.yieldIf_true.yielded

/-- For every text, the tokens that the scan of the blocks yields are its maximal runs of word
characters in their order, each with its number, its extent and its folding if that is no longer
than a term; every maximal stretch of word characters is one of them, wherever the blocks end; and
folding goes character by character. -/
theorem literal_tokens_exact (u : CharacterData) (maxFoldedChars : ℕ) (text : Text) :
    literalTokens u maxFoldedChars text =
      (runs u.word 0 text).mapIdx (tokenOf u maxFoldedChars) ∧
    ((literalTokens u maxFoldedChars text).map LiteralToken.start).Pairwise (· < ·) ∧
    (∀ start stop, (∃ t ∈ literalTokens u maxFoldedChars text, t.start = start ∧ t.stop = stop) ↔
      ∃ elems, MaximalRun u.word 0 text ⟨start, elems⟩ ∧ stop = start + elems.length) ∧
    ∀ term, u.foldRetrievalTerm term = term.flatMap u.foldChar := by
  have htokens := literal_tokens u maxFoldedChars text
  have hstarts : (literalTokens u maxFoldedChars text).map LiteralToken.start =
      (runs u.word 0 text).map Run.start := by
    rw [htokens]
    apply List.ext_getElem?
    intro i
    simp only [List.getElem?_map, List.getElem?_mapIdx, Option.map_map]
    rfl
  refine ⟨htokens, ?_, ?_, u.foldRetrievalTerm_eq⟩
  · rw [hstarts, List.pairwise_map]
    refine (runs_pairwise 0 text).imp ?_
    intro r r' h
    rw [Run.stop] at h
    omega
  · intro start stop
    rw [htokens]
    constructor
    · rintro ⟨t, ht, rfl, rfl⟩
      obtain ⟨i, hi, rfl⟩ := List.mem_mapIdx.mp ht
      exact ⟨_, (mem_runs_iff 0 text _).mp (List.getElem_mem hi), rfl⟩
    · rintro ⟨elems, hmax, rfl⟩
      obtain ⟨i, hi, hget⟩ := List.getElem_of_mem ((mem_runs_iff 0 text _).mpr hmax)
      refine ⟨_, List.mem_mapIdx.mpr ⟨i, hi, rfl⟩, ?_⟩
      rw [hget]
      exact ⟨rfl, rfl⟩

/-- A text whose first word goes over the end of the first block. -/
def overBlock : Text := List.replicate 4094 ' ' ++ lit "CafÉ b"

theorem runs_overBlock : runs CharacterData.sample.word 0 overBlock =
    [⟨4094, lit "CafÉ"⟩, ⟨4099, lit "b"⟩] := by
  have hblanks : ∀ n pos, scan CharacterData.sample.word none pos (List.replicate n ' ') =
      ([], none) := by
    intro n
    induction n with
    | zero => exact fun pos => rfl
    | succ n ih =>
      intro pos
      rw [List.replicate_succ, scan, if_neg (by decide), ih]
      rfl
  rw [runs, overBlock, scan_append, hblanks, List.length_replicate]
  rfl

theorem literal_tokens_exact_overBlock : literalTokens CharacterData.sample 4 overBlock =
      [⟨0, 4094, 4098, some (lit "cafe")⟩, ⟨1, 4099, 4100, some (lit "b")⟩] ∧
    CharacterData.sample.foldRetrievalTerm (lit "CafÉ") =
      (lit "CafÉ").flatMap CharacterData.sample.foldChar := by
  obtain ⟨htokens, -, -, hfold⟩ := literal_tokens_exact CharacterData.sample 4 overBlock
  rw [htokens, runs_overBlock]
  exact ⟨by decide +kernel, hfold _⟩

end Scan
end Retrieval
end Neocortex
