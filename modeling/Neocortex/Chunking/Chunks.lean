import Neocortex.Library.Checks
import Neocortex.Library.Generator
import Neocortex.Python.Render
import Neocortex.Chunking.Windows

/-!
# The chunks of an item

`semantic_chunking.iter_text_chunks` and the records of `semantic_models` it builds.  The loop over
the windows of a section takes the step that measures one window as a parameter, so that the
source's step (`measureWindow`, which keeps counts of windows ahead) can be compared with one that
counts each window by itself.

The two digests of `hash_compat` are parameters.
-/

namespace Neocortex
namespace Chunking

open Python Checks

/-- What the functions of this module raise. -/
inductive ChunkError where
  /-- `ValueError`. -/
  | value (message : String)
  /-- `RuntimeError`. -/
  | runtime (message : String)
  /-- `ChunkLimitExceeded("one source character exceeds the production tokenizer limit")`. -/
  | oversizedCharacter
  /-- `ChunkLimitExceeded(f"item {item_id!r} exceeds {max_chunks_per_item} chunks")`. -/
  | tooManyChunks (itemId : Text) (maxChunksPerItem : ℕ)
  /-- `KeyError`, from `exact_counts.pop`. -/
  | key (cursor stop : ℕ)
  /-- A loop has not ended within the turns the model grants it. -/
  | diverged
  deriving DecidableEq

abbrev Checked := Except ChunkError

/-! ## Records -/

/-- `sha256_128_hexdigest` and `sha256_64_hexdigest` with its seed. -/
structure Digests where
  hex128 : Bytes → Text
  hex64 : ℕ → Bytes → Text

structure ContentFingerprint where
  xxh3_128 : Text
  byteCount : ℕ
  xxh3_64_guard : Text
  deriving DecidableEq

/-- `character in "0123456789abcdef"`. -/
def isHexCharacter (c : Char) : Bool := c ∈ lit "0123456789abcdef"

/-- `ContentFingerprint.__post_init__`. -/
def ContentFingerprint.checked (f : ContentFingerprint) : Checked ContentFingerprint := do
  raiseIf (f.xxh3_128.length ≠ 32 ∨ f.xxh3_128.all isHexCharacter = false)
    (.value "primary digest must be 32 lowercase hexadecimal characters")
  raiseIf (f.xxh3_64_guard.length ≠ 16 ∨ f.xxh3_64_guard.all isHexCharacter = false)
    (.value "compact guard must be 16 lowercase hexadecimal characters")
  pure f

/-- `_FINGERPRINT_GUARD_SEED`. -/
def fingerprintGuardSeed : ℕ := 0x4E454F43

/-- `fingerprint_text`. -/
def fingerprintText (D : Digests) (text : Text) : Checked ContentFingerprint :=
  let payload := encodeUtf8 text
  ContentFingerprint.checked
    ⟨D.hex128 payload, payload.length, D.hex64 fingerprintGuardSeed payload⟩

/-- `canonical_json`. -/
def canonicalJson (v : Json) : Checked Text :=
  match dumpsUnicode v with
  | some t => .ok t
  | none => .error (.value "Exceeds the limit for integer string conversion")

/-- A natural source boundary that `__post_init__` accepts. -/
structure TextSection where
  sectionKind : Text
  sectionId : Text
  text : Text
  provenance : List (Text × Json)
  sectionKind_visible : strip sectionKind ≠ []
  sectionId_visible : strip sectionId ≠ []
  provenance_writable : (canonicalJson (.obj provenance)).toBool = true

structure TextChunk where
  chunkId : Text
  itemId : Text
  ordinal : ℕ
  sectionKind : Text
  sectionId : Text
  startChar : ℕ
  endChar : ℕ
  text : Text
  fingerprint : ContentFingerprint
  chunkingSignature : Text
  provenance : List (Text × Json)

/-- `_require_non_blank_string`. -/
def requireNonBlankString (name : String) (value : Text) : Checked Unit :=
  raiseIf (strip value = []) (.value s!"{name} cannot be blank")

/-- `TextChunk.__post_init__`. -/
def TextChunk.checked (D : Digests) (c : TextChunk) : Checked TextChunk := do
  requireNonBlankString "chunk_id" c.chunkId
  requireNonBlankString "item_id" c.itemId
  requireNonBlankString "section_kind" c.sectionKind
  requireNonBlankString "section_id" c.sectionId
  requireNonBlankString "chunking_signature" c.chunkingSignature
  raiseIf (c.endChar ≤ c.startChar) (.value "chunk offsets must describe a non-empty range")
  raiseIf (c.text = []) (.value "text cannot be empty")
  raiseIf (c.endChar - c.startChar < c.text.length)
    (.value "chunk locator span cannot be shorter than normalized text")
  let fingerprint ← fingerprintText D c.text
  raiseIf (fingerprint ≠ c.fingerprint) (.value "fingerprint does not match chunk text")
  let _ ← canonicalJson (.obj c.provenance)
  pure c

/-- `TextChunkingConfig.signature`. -/
def TextChunkingConfig.signature (config : TextChunkingConfig) : Text :=
  config.algorithmVersion ++ lit "|chars=" ++ decimal config.maxChars ++
    lit "|terms=" ++ decimal config.maxTerms ++
    lit "|overlap-chars=" ++ decimal config.overlapChars ++
    lit "|overlap-terms=" ++ decimal config.overlapTerms ++
    lit "|natural-min=" ++ decimal config.minNaturalBreakChars ++
    lit "|max-chunks=" ++ decimal config.maxChunksPerItem ++
    match config.modelTokenLimit with
    | none => []
    | some limit => lit "|model-token-limit=" ++ decimal limit ++
        lit "|tokenizer=" ++ config.tokenizerSignature.getD (lit "None")

/-- `_chunk_identifier`. -/
def chunkIdentifier (D : Digests) (itemId : Text) (ordinal : ℕ) (section_ : TextSection)
    (start stop : ℕ) (fingerprint : ContentFingerprint) (chunkingSignature : Text) :
    Checked Text := do
  let identity ← canonicalJson (.obj
    [(lit "schema", .str (lit "semantic-text-chunk-identity-v2")),
      (lit "item_id", .str itemId),
      (lit "ordinal", .int ordinal),
      (lit "section_kind", .str section_.sectionKind),
      (lit "section_id", .str section_.sectionId),
      (lit "start_char", .int start),
      (lit "end_char", .int stop),
      (lit "content_xxh3_128", .str fingerprint.xxh3_128),
      (lit "content_bytes", .int fingerprint.byteCount),
      (lit "content_xxh3_64_guard", .str fingerprint.xxh3_64_guard),
      (lit "chunking_signature", .str chunkingSignature),
      (lit "provenance", .obj section_.provenance)])
  pure (lit "chunk-sha256_128:" ++ D.hex128 (encodeUtf8 identity))

/-! ## Token counts -/

/-- A value of a tokenizer's answer: an integer, or something that `isinstance` refuses. -/
inductive Answer where
  | int (n : ℤ)
  | foreign
  deriving DecidableEq

/-- The counts of some texts, and the tokenizer's limit. -/
abbrev TextTokenCounter := List Text → List Answer × Answer

/-- The check of one count. -/
def tokenCount : Answer → Checked ℕ
  | .foreign => .error (.runtime "text tokenizer returned a non-integer token count")
  | .int n => if n < 0 then .error (.runtime "text tokenizer returned a negative token count")
      else .ok n.toNat

/-- `isinstance(token_limit, int) and token_limit >= 1`. -/
def isTokenLimit : Answer → Bool
  | .int n => 1 ≤ n
  | .foreign => false

/-- `_exact_token_counts`. -/
def exactTokenCounts (texts : List Text) (counter : TextTokenCounter) (expected : ℕ) :
    Checked (List ℕ) := do
  let (counts, tokenLimit) := counter texts
  raiseIf (isTokenLimit tokenLimit = false)
    (.runtime "text tokenizer returned an invalid token limit")
  raiseIf (counts.length ≠ texts.length)
    (.runtime "text tokenizer returned an invalid result count")
  let counts ← counts.mapM tokenCount
  raiseIf (tokenLimit ≠ .int expected) (.runtime "text tokenizer limit changed during chunking")
  pure counts

/-- `_exact_token_count`. -/
def exactTokenCount (text : Text) (counter : TextTokenCounter) (expected : ℕ) : Checked ℕ := do
  let counts ← exactTokenCounts [text] counter expected
  pure (counts.headD 0)

/-- The count of a window: the one that is already known, or the tokenizer's. -/
def knownOrCounted (normalized : Text) (counter : TextTokenCounter) (tokenLimit : ℕ) :
    Option ℕ → Checked ℕ
  | none => exactTokenCount normalized counter tokenLimit
  | some n => .ok n

/-- The end that `_fit_exact_token_budget` tries after a rejected window. -/
def shrunkEnd (text : Text) (start stop : ℕ) (config : TextChunkingConfig)
    (tokenCount tokenLimit : ℕ) : ℕ :=
  let span := stop - start
  let tokenReserve := max 4 (tokenLimit / 20)
  let targetTokens := max 1 (tokenLimit - tokenReserve)
  let proportionalSpan := max 1 (span * targetTokens / max 1 tokenCount)
  let forcedReductionSpan := max 1 (span - max 1 (span / 20))
  let nextSpan := min (min (span - 1) proportionalSpan) forcedReductionSpan
  let proposedEnd := start + nextSpan
  let natural := naturalEnd text start proposedEnd (min config.minNaturalBreakChars nextSpan)
  if start < natural ∧ natural < stop then natural else proposedEnd

/-- `_fit_exact_token_budget`; the first argument bounds the number of rejections. -/
def fitExactTokenBudget (text : Text) (start : ℕ) (config : TextChunkingConfig)
    (counter : TextTokenCounter) (tokenLimit : ℕ) : ℕ → ℕ → Option ℕ → Checked (ℕ × Text)
  | 0, _, _ => .error .diverged
  | fuel + 1, stop, initialCount => do
    let normalized := normalize (slice text start stop)
    let tokenCount ← knownOrCounted normalized counter tokenLimit initialCount
    if tokenCount ≤ tokenLimit then pure (stop, normalized)
    else do
      raiseIf (stop - start ≤ 1) .oversizedCharacter
      fitExactTokenBudget text start config counter tokenLimit fuel
        (shrunkEnd text start stop config tokenCount tokenLimit) none

/-- The windows `_count_window_lookahead` counts ahead. -/
def lookaheadWindows (source : Text) (config : TextChunkingConfig) : ℕ → ℕ → List (ℕ × ℕ)
  | 0, _ => []
  | n + 1, cursor =>
    let cursor := skipSpaces source cursor source.length
    if cursor < source.length then
      let stop := windowEnd source cursor config
      (cursor, stop) ::
        if stop < source.length then
          lookaheadWindows source config n (nextStart source cursor stop config)
        else []
    else []

/-- A dictionary of the token counts of windows. -/
abbrev ExactCounts := List ((ℕ × ℕ) × ℕ)

/-- `_count_window_lookahead`. -/
def countWindowLookahead (source : Text) (cursor : ℕ) (config : TextChunkingConfig)
    (counter : TextTokenCounter) (tokenLimit maxWindows : ℕ) : Checked ExactCounts := do
  let limit := max 1 (min maxWindows (2 * 1024 * 1024 / config.maxChars))
  let windows := lookaheadWindows source config limit cursor
  let counts ← exactTokenCounts (windows.map fun w => normalize (slice source w.1 w.2)) counter
    tokenLimit
  pure (windows.zip counts)

/-! ## The loop -/

/-- What the loop keeps from window to window. -/
structure Cache where
  exactCounts : ExactCounts
  lookahead : ℕ

/-- A step that decides where a window ends: it returns the end, the text and what to keep. -/
abbrev Measure (σ : Type) := σ → (cursor stop : ℕ) → Checked (ℕ × Text × σ)

/-- `if (cursor, end) not in exact_counts: exact_counts = _count_window_lookahead(...)`. -/
def refreshedCounts (source : Text) (config : TextChunkingConfig) (counter : TextTokenCounter)
    (tokenLimit : ℕ) (cache : Cache) (cursor stop : ℕ) : Checked ExactCounts :=
  match cache.exactCounts.lookup (cursor, stop) with
  | some _ => .ok cache.exactCounts
  | none => countWindowLookahead source cursor config counter tokenLimit cache.lookahead

/-- `exact_counts.pop((cursor, end))`. -/
def popCount (exactCounts : ExactCounts) (cursor stop : ℕ) : Checked (ℕ × ExactCounts) :=
  match exactCounts.lookup (cursor, stop) with
  | none => .error (.key cursor stop)
  | some n => .ok (n, exactCounts.filter fun entry => entry.1 ≠ (cursor, stop))

/-- The end and the text of the window from `cursor` to `stop`. -/
def measureWindow (source : Text) (config : TextChunkingConfig)
    (counter : Option (TextTokenCounter × ℕ)) : Measure Cache := fun cache cursor stop =>
  match counter with
  | none => pure (stop, normalize (slice source cursor stop), cache)
  | some (counter, tokenLimit) => do
    let exactCounts ← refreshedCounts source config counter tokenLimit cache cursor stop
    let (initial, exactCounts) ← popCount exactCounts cursor stop
    let (fitted, normalized) ← fitExactTokenBudget source cursor config counter tokenLimit
      (stop - cursor + 1) stop (some initial)
    if fitted ≠ stop then pure (fitted, normalized, ⟨[], 1⟩)
    else pure (fitted, normalized, ⟨exactCounts, min 32 (cache.lookahead * 2)⟩)

/-- The chunk of a window. -/
def buildChunk (D : Digests) (itemId : Text) (section_ : TextSection) (config : TextChunkingConfig)
    (ordinal cursor stop : ℕ) (normalized : Text) : Checked TextChunk := do
  raiseIf (config.maxChunksPerItem ≤ ordinal) (.tooManyChunks itemId config.maxChunksPerItem)
  let fingerprint ← fingerprintText D normalized
  let chunkId ← chunkIdentifier D itemId ordinal section_ cursor stop fingerprint config.signature
  TextChunk.checked D
    { chunkId := chunkId
      itemId := itemId
      ordinal := ordinal
      sectionKind := section_.sectionKind
      sectionId := section_.sectionId
      startChar := cursor
      endChar := stop
      text := normalized
      fingerprint := fingerprint
      chunkingSignature := config.signature
      provenance := section_.provenance }

section Loop

variable {σ : Type} (D : Digests) (itemId : Text) (section_ : TextSection)
  (config : TextChunkingConfig) (measure : Measure σ)

/-- `while cursor < len(source)`; the first argument bounds the number of turns.  It returns the
ordinal of the next chunk. -/
def chunkWindows : ℕ → (cursor : ℕ) → (cache : σ) → (ordinal : ℕ) →
    Generator ChunkError TextChunk ℕ
  | 0, _, _, _ => .lift (.error .diverged)
  | fuel + 1, cursor, cache, ordinal =>
    let source := section_.text
    let cursor := skipSpaces source cursor source.length
    if cursor < source.length then do
      let (stop, normalized, cache) ← .lift (measure cache cursor (windowEnd source cursor config))
      let ordinal ←
        if normalized ≠ [] then do
          .emit (← .lift (buildChunk D itemId section_ config ordinal cursor stop normalized))
          pure (ordinal + 1)
        else pure ordinal
      if source.length ≤ stop then pure ordinal
      else chunkWindows fuel (nextStart source cursor stop config) cache ordinal
    else pure ordinal

end Loop

/-- `for section in sections`, with the measure of each section. -/
def chunkSections {σ : Type} (D : Digests) (itemId : Text) (config : TextChunkingConfig)
    (measure : TextSection → Measure σ) (cache : σ) :
    List TextSection → ℕ → Generator ChunkError TextChunk Unit
  | [], _ => pure ()
  | section_ :: sections, ordinal => do
    let ordinal ← chunkWindows D itemId section_ config (measure section_)
      (section_.text.length + 1) 0 cache ordinal
    chunkSections D itemId config measure cache sections ordinal

/-- `iter_text_chunks`. -/
def iterTextChunks (D : Digests) (itemId : Text) (sections : List TextSection)
    (config : Option TextChunkingConfig) (tokenCounter : Option TextTokenCounter) :
    Generator ChunkError TextChunk Unit := do
  .lift (raiseIf (strip itemId = []) (.value "item_id cannot be blank"))
  let config := config.getD .default
  .lift (raiseIf (config.modelTokenLimit.isSome ≠ tokenCounter.isSome)
    (.runtime "exact tokenizer counter and signed token contract must be used together"))
  let counter := match tokenCounter, config.modelTokenLimit with
    | some counter, some limit => some (counter, limit)
    | _, _ => none
  chunkSections D itemId config (fun section_ => measureWindow section_.text config counter)
    ⟨[], 32⟩ sections 0

end Chunking
end Neocortex
