import Neocortex.Library.Terminated
import Neocortex.Python.Render
import Neocortex.Resources.Devices

/-!
# The text of a file identity

`foundation/file_identity.py`: a file is named by two unsigned numbers of 128 bits, and the
pair is written in one of two ways, as fixed-width hexadecimal or as decimal.  The two ways
overlap, so reading a key without knowing how it was written has to refuse some keys.

* `FileIdentity`, `FileIdentity.encode`, `decodeFileIdentity`: the codec of the source;
* `HasForm`: the two grammars, stated without the tests of the decoder;
* `decode_encode`: each way of writing is lossless;
* `decode_auto`: what automatic detection does with a key, by the forms that the key has;
* `readOnce_iff`: on which keys it keeps its promise.
-/

namespace Neocortex
namespace Foundation

open Python Resources

/-! ## The identity -/

/-- `PACKED_HEX_COMPONENT_WIDTH`. -/
def packedHexComponentWidth : ℕ := 32

/-- `MAX_FILE_IDENTITY_COMPONENT`. -/
def maxFileIdentityComponent : ℕ := 2 ^ (packedHexComponentWidth * 4) - 1

/-- `FileIdentityEncoding`; `_coerce_encoding` leaves a member as it is. -/
inductive FileIdentityEncoding where
  | packedHexV1
  | legacyDecimal
  | auto
  deriving DecidableEq

/-- What the codec may raise. -/
inductive IdentityError where
  /-- `FileIdentityError`. -/
  | invalid (message : String)
  /-- `AmbiguousFileIdentityError`, a `FileIdentityError`. -/
  | ambiguous (message : String)
  /-- A `ValueError` of `int()`, which is no `FileIdentityError`. -/
  | value (message : String)
  deriving DecidableEq

abbrev Checked := Except IdentityError

/-- A component that `_validated_component` accepts. -/
abbrev Component := {n : ℕ // n ≤ maxFileIdentityComponent}

/-- `_validated_component`. -/
def validatedComponent (value : ℤ) (name : String) : Checked Component :=
  if h : 0 ≤ value ∧ value ≤ maxFileIdentityComponent then .ok ⟨value.toNat, by omega⟩
  else .error (.invalid
    (name ++ " must be between 0 and " ++ toString maxFileIdentityComponent))

/-- `FileIdentity`. -/
structure FileIdentity where
  volumeId : Component
  fileId : Component
  deriving DecidableEq

namespace FileIdentity

/-- `FileIdentity(volume_id, file_id)`. -/
def make (volumeId fileId : ℤ) : Checked FileIdentity := do
  let volumeId ← validatedComponent volumeId "volume_id"
  let fileId ← validatedComponent fileId "file_id"
  pure ⟨volumeId, fileId⟩

/-- `f"{n:032x}"`. -/
def packedComponent (n : ℕ) : Text := (hexText n).leftpad packedHexComponentWidth '0'

/-- `packed_key`. -/
def packedKey (identity : FileIdentity) : Text :=
  packedComponent identity.volumeId ++ ':' :: packedComponent identity.fileId

/-- `decimal_components`. -/
def decimalComponents (identity : FileIdentity) : Text × Text :=
  (decimal identity.volumeId, decimal identity.fileId)

/-- `FileIdentity.encode`. -/
def encode (identity : FileIdentity) : FileIdentityEncoding → Checked Text
  | .packedHexV1 => .ok identity.packedKey
  | .legacyDecimal =>
    .ok (identity.decimalComponents.1 ++ ':' :: identity.decimalComponents.2)
  | .auto => .error (.invalid "AUTO is decode-only for file identities")

end FileIdentity

/-! ## Reading -/

/-- `_split_key`. -/
def splitKey (key : Text) : Checked (Text × Text) :=
  if key.count ':' ≠ 1 then
    .error (.invalid "file identity key must contain exactly one ':' separator")
  else
    let volumeId := key.takeWhile (· ≠ ':')
    let fileId := (key.dropWhile (· ≠ ':')).drop 1
    if volumeId = [] ∨ fileId = [] then
      .error (.invalid "file identity components cannot be empty")
    else .ok (volumeId, fileId)

/-- `_is_packed_hex_component`. -/
def isPackedHexComponent (value : Text) : Bool :=
  value.length = packedHexComponentWidth && value.all isHexDigit

/-- `_is_canonical_decimal_component`, of a component that is not empty. -/
def isCanonicalDecimalComponent (value : Text) : Bool :=
  value = ['0'] ||
    (value.head?.any (fun c => '1' ≤ c && c ≤ '9') && value.all (fun c => c.toNat < 128) &&
      value.all Char.isDigit)

/-- `int(value, 10)`, of decimal digits. -/
def decimalInt (value : Text) : Checked ℕ :=
  if maxStrDigits < value.length then
    .error (.value ("Exceeds the limit (4300 digits) for integer string conversion: value has " ++
      toString value.length ++
      " digits; use sys.set_int_max_str_digits() to increase the limit"))
  else .ok (Python.decimalVal value)

/-- `_decode_packed_hex`. -/
def decodePackedHex (volumeId fileId : Text) : Checked FileIdentity :=
  if ¬ (isPackedHexComponent volumeId ∧ isPackedHexComponent fileId) then
    .error (.invalid "packed-hex-v1 identities require two 32-character hexadecimal components")
  else FileIdentity.make (hexNumber volumeId) (hexNumber fileId)

/-- `_decode_legacy_decimal`. -/
def decodeLegacyDecimal (volumeId fileId : Text) : Checked FileIdentity :=
  if ¬ (isCanonicalDecimalComponent volumeId ∧ isCanonicalDecimalComponent fileId) then
    .error (.invalid "legacy-decimal identities require canonical unsigned decimal components")
  else do
    let volumeId ← decimalInt volumeId
    let fileId ← decimalInt fileId
    FileIdentity.make volumeId fileId

/-- The automatic detection at the end of `decode_file_identity`. -/
def detect (volumeId fileId : Text) : Checked FileIdentity :=
  let packed := isPackedHexComponent volumeId && isPackedHexComponent fileId
  let decimal := isCanonicalDecimalComponent volumeId && isCanonicalDecimalComponent fileId
  if packed && decimal then
    .error (.ambiguous ("file identity is valid as both packed-hex-v1 and legacy-decimal; " ++
      "provide an explicit encoding"))
  else if packed then decodePackedHex volumeId fileId
  else if decimal then decodeLegacyDecimal volumeId fileId
  else .error (.invalid "file identity is neither packed-hex-v1 nor canonical legacy-decimal")

/-- `decode_file_identity`. -/
def decodeFileIdentity (key : Text) (encoding : FileIdentityEncoding) : Checked FileIdentity := do
  let parts ← splitKey key
  match encoding with
  | .packedHexV1 => decodePackedHex parts.1 parts.2
  | .legacyDecimal => decodeLegacyDecimal parts.1 parts.2
  | .auto => detect parts.1 parts.2

/-- `encode_file_identity`. -/
def encodeFileIdentity (volumeId fileId : ℤ) : Checked Text :=
  FileIdentity.packedKey <$> FileIdentity.make volumeId fileId

/-! ## Cutting a key -/

theorem splitKey_append {a b : Text} (ha : ':' ∉ a) (hb : ':' ∉ b) (hna : a ≠ []) (hnb : b ≠ []) :
    splitKey (a ++ ':' :: b) = .ok (a, b) := by
  have hcount : (a ++ ':' :: b).count ':' = 1 := by
    rw [List.count_append, List.count_cons_self, List.count_eq_zero_of_not_mem ha,
      List.count_eq_zero_of_not_mem hb]
  have hnot : ∀ c ∈ a, decide (c ≠ ':') = true := by
    intro c hc
    exact decide_eq_true fun h => ha (h ▸ hc)
  have htake : (a ++ ':' :: b).takeWhile (· ≠ ':') = a := by
    rw [List.takeWhile_append_of_pos hnot, List.takeWhile_cons_of_neg (by simp), List.append_nil]
  have hdrop : ((a ++ ':' :: b).dropWhile (· ≠ ':')).drop 1 = b := by
    rw [List.dropWhile_append_of_pos hnot, List.dropWhile_cons_of_neg (by simp)]
    rfl
  rw [splitKey, if_neg (by simp [hcount])]
  simp only [htake, hdrop]
  rw [if_neg (by simp [hna, hnb])]

/-- A key is cut at its only colon, and neither part is empty. -/
theorem splitKey_eq_ok {key a b : Text} (h : splitKey key = .ok (a, b)) :
    key = a ++ ':' :: b ∧ ':' ∉ a ∧ ':' ∉ b ∧ a ≠ [] ∧ b ≠ [] := by
  by_cases hcount : key.count ':' = 1
  · have hmem : ':' ∈ key := List.count_pos_iff.mp (by omega)
    obtain ⟨x, y, rfl, hx⟩ := List.eq_append_cons_of_mem hmem
    have hy : ':' ∉ y := by
      rw [List.count_append, List.count_cons_self, List.count_eq_zero_of_not_mem hx] at hcount
      exact List.count_eq_zero.mp (by omega)
    have hnot : ∀ c ∈ x, decide (c ≠ ':') = true := by
      intro c hc
      exact decide_eq_true fun h => hx (h ▸ hc)
    rw [splitKey, if_neg (not_not.mpr hcount)] at h
    simp only [List.takeWhile_append_of_pos hnot, List.dropWhile_append_of_pos hnot] at h
    rw [List.takeWhile_cons_of_neg (by simp), List.dropWhile_cons_of_neg (by simp),
      List.append_nil, List.drop_one, List.tail_cons] at h
    split_ifs at h with hempty
    obtain ⟨rfl, rfl⟩ := Prod.mk.inj (Except.ok.inj h)
    rw [not_or] at hempty
    exact ⟨rfl, hx, hy, hempty⟩
  · rw [splitKey, if_pos hcount] at h
    cases h

/-- A key that cannot be cut is refused. -/
theorem splitKey_eq_error {key : Text} {e : IdentityError} (h : splitKey key = .error e) :
    ∃ message, e = .invalid message := by
  simp only [splitKey] at h
  split_ifs at h <;> exact ⟨_, (Except.error.inj h).symm⟩

/-! ## The two grammars -/

/-- The forms of a key: two groups of thirty-two hexadecimal digits, or two numbers as `str`
writes them. -/
def HasForm (key : Text) : FileIdentityEncoding → Prop
  | .packedHexV1 => ∃ a b : Text, key = a ++ ':' :: b ∧
      (a.length = packedHexComponentWidth ∧ ∀ c ∈ a, isHexDigit c = true) ∧
      b.length = packedHexComponentWidth ∧ ∀ c ∈ b, isHexDigit c = true
  | .legacyDecimal => ∃ m n : ℕ, key = decimal m ++ ':' :: decimal n
  | .auto => False

theorem isPackedHexComponent_iff {value : Text} : isPackedHexComponent value = true ↔
    value.length = packedHexComponentWidth ∧ ∀ c ∈ value, isHexDigit c = true := by
  simp [isPackedHexComponent]

theorem isCanonical_decimal (n : ℕ) : isCanonicalDecimalComponent (decimal n) = true := by
  by_cases h : n = 0
  · subst h
    rfl
  · obtain ⟨c, t, ht, hlow, hhigh⟩ := decimal_cons h
    have hdigits : (decimal n).all Char.isDigit = true :=
      List.all_eq_true.mpr fun d hd => isDigit_of_mem_decimal hd
    have hascii : ((decimal n).all fun d => d.toNat < 128) = true := by
      rw [List.all_eq_true]
      intro d hd
      have hdigit := isDigit_of_mem_decimal hd
      simp only [Char.isDigit, Bool.and_eq_true, decide_eq_true_eq] at hdigit
      exact decide_eq_true (lt_of_le_of_lt (UInt32.le_iff_toNat_le.mp hdigit.2) (by decide))
    have hhead : ((decimal n).head?.any fun d => '1' ≤ d && d ≤ '9') = true := by
      rw [ht]
      simp [hlow, hhigh]
    rw [isCanonicalDecimalComponent, hdigits, hascii, hhead]
    simp

theorem digitChar_toNat {c : Char} (h : c.isDigit = true) :
    c.toNat - 48 < 10 ∧ Nat.digitChar (c.toNat - 48) = c := by
  simp only [Char.isDigit, Bool.and_eq_true, decide_eq_true_eq] at h
  have hlow : 48 ≤ c.toNat := UInt32.le_iff_toNat_le.mp h.1
  have hhigh : c.toNat ≤ 57 := UInt32.le_iff_toNat_le.mp h.2
  refine ⟨by omega, ?_⟩
  rw [← Char.ofNat_toNat c]
  interval_cases c.toNat <;> rfl

/-- Digits without a leading zero are the text of their value. -/
theorem decimal_decimalVal {c : Char} {rest : Text} (hc : '1' ≤ c ∧ c ≤ '9')
    (hdigits : ∀ d ∈ c :: rest, d.isDigit = true) :
    decimal (Python.decimalVal (c :: rest)) = c :: rest := by
  set ds : List ℕ := (c :: rest).map fun d => d.toNat - 48 with hds
  have htext : ds.map Nat.digitChar = c :: rest := by
    rw [hds, List.map_map]
    refine (List.map_congr_left fun d hd => ?_).trans (List.map_id _)
    exact (digitChar_toNat (hdigits d hd)).2
  have hlt : ∀ d ∈ ds, d < 10 := by
    intro d hd
    obtain ⟨e, he, rfl⟩ := List.mem_map.mp hd
    exact (digitChar_toNat (hdigits e he)).1
  have hfirst : c.toNat - 48 ≠ 0 := by
    have hlow : 49 ≤ c.toNat := UInt32.le_iff_toNat_le.mp hc.1
    omega
  have hvalue : Nat.digits 10 (Python.decimalVal (c :: rest)) = ds.reverse := by
    rw [← htext, decimalVal_map ds hlt]
    refine Nat.digits_ofDigits 10 (by decide) _ (fun d hd => hlt d (List.mem_reverse.mp hd))
      fun hne => ?_
    rw [List.getLast_reverse]
    exact hfirst
  have hne : Python.decimalVal (c :: rest) ≠ 0 := by
    intro hzero
    rw [hzero, Nat.digits_zero] at hvalue
    exact absurd (List.reverse_eq_nil_iff.mp hvalue.symm) (by simp [hds])
  rw [decimal, if_neg hne, hvalue, List.reverse_reverse, htext]

theorem isCanonicalDecimalComponent_cons {c : Char} {rest : Text}
    (h : isCanonicalDecimalComponent (c :: rest) = true) (hzero : c :: rest ≠ ['0']) :
    ('1' ≤ c ∧ c ≤ '9') ∧ ∀ d ∈ c :: rest, d.isDigit = true := by
  rw [isCanonicalDecimalComponent, decide_eq_false hzero, Bool.false_or, Bool.and_eq_true,
    Bool.and_eq_true] at h
  refine ⟨?_, List.all_eq_true.mp h.2⟩
  simpa using h.1.1

/-- A canonical component is the text of its value. -/
theorem eq_decimal_of_canonical {value : Text} (h : isCanonicalDecimalComponent value = true) :
    value = decimal (Python.decimalVal value) := by
  cases value with
  | nil => simp [isCanonicalDecimalComponent] at h
  | cons c rest =>
    by_cases hzero : c :: rest = ['0']
    · rw [hzero]
      rfl
    · obtain ⟨hc, hdigits⟩ := isCanonicalDecimalComponent_cons h hzero
      exact (decimal_decimalVal hc hdigits).symm

theorem isCanonicalDecimalComponent_iff {value : Text} :
    isCanonicalDecimalComponent value = true ↔ ∃ n, value = decimal n := by
  constructor
  · exact fun h => ⟨_, eq_decimal_of_canonical h⟩
  · rintro ⟨n, rfl⟩
    exact isCanonical_decimal n

theorem colon_notMem_of_hex {value : Text} (h : ∀ c ∈ value, isHexDigit c = true) :
    ':' ∉ value := fun hmem => absurd (h ':' hmem) (by decide)

theorem colon_notMem_decimal (n : ℕ) : ':' ∉ decimal n := fun hmem =>
  absurd (isDigit_of_mem_decimal hmem) (by decide)

theorem decimal_ne_nil (n : ℕ) : decimal n ≠ [] := by
  intro h
  have hcanonical := isCanonical_decimal n
  rw [h] at hcanonical
  exact absurd hcanonical (by decide)

theorem ne_nil_of_width {value : Text} (h : value.length = packedHexComponentWidth) :
    value ≠ [] := by
  rintro rfl
  exact absurd h (by decide)

/-- A key with either form can be cut. -/
theorem splitKey_of_hasForm {key : Text} {encoding : FileIdentityEncoding}
    (h : HasForm key encoding) : ∃ parts, splitKey key = .ok parts := by
  cases encoding with
  | packedHexV1 =>
    obtain ⟨a, b, rfl, ⟨hla, ha⟩, hlb, hb⟩ := h
    exact ⟨_, splitKey_append (colon_notMem_of_hex ha) (colon_notMem_of_hex hb)
      (ne_nil_of_width hla) (ne_nil_of_width hlb)⟩
  | legacyDecimal =>
    obtain ⟨m, n, rfl⟩ := h
    exact ⟨_, splitKey_append (colon_notMem_decimal m) (colon_notMem_decimal n)
      (decimal_ne_nil m) (decimal_ne_nil n)⟩
  | auto => exact h.elim

section Parts

variable {key a b : Text}

/-- The test of the decoder for the packed form. -/
theorem hasForm_packed_iff (h : splitKey key = .ok (a, b)) : HasForm key .packedHexV1 ↔
    (isPackedHexComponent a && isPackedHexComponent b) = true := by
  obtain ⟨rfl, ha, hb, -, -⟩ := splitKey_eq_ok h
  rw [Bool.and_eq_true, isPackedHexComponent_iff, isPackedHexComponent_iff]
  constructor
  · rintro ⟨x, y, hxy, hx, hy⟩
    obtain ⟨rfl, rfl⟩ := Terminated.append_mark_inj ha (colon_notMem_of_hex hx.2) hxy
    exact ⟨hx, hy⟩
  · exact fun hab => ⟨a, b, rfl, hab⟩

/-- The test of the decoder for the decimal form. -/
theorem hasForm_decimal_iff (h : splitKey key = .ok (a, b)) : HasForm key .legacyDecimal ↔
    (isCanonicalDecimalComponent a && isCanonicalDecimalComponent b) = true := by
  obtain ⟨rfl, ha, hb, -, -⟩ := splitKey_eq_ok h
  rw [Bool.and_eq_true, isCanonicalDecimalComponent_iff, isCanonicalDecimalComponent_iff]
  constructor
  · rintro ⟨m, n, hmn⟩
    obtain ⟨rfl, rfl⟩ := Terminated.append_mark_inj ha (colon_notMem_decimal m) hmn
    exact ⟨⟨m, rfl⟩, n, rfl⟩
  · rintro ⟨⟨m, rfl⟩, n, rfl⟩
    exact ⟨m, n, rfl⟩

theorem decode_eq_packed (h : splitKey key = .ok (a, b)) :
    decodeFileIdentity key .packedHexV1 = decodePackedHex a b := by
  rw [decodeFileIdentity, h]
  rfl

theorem decode_eq_legacy (h : splitKey key = .ok (a, b)) :
    decodeFileIdentity key .legacyDecimal = decodeLegacyDecimal a b := by
  rw [decodeFileIdentity, h]
  rfl

theorem decode_eq_detect (h : splitKey key = .ok (a, b)) :
    decodeFileIdentity key .auto = detect a b := by
  rw [decodeFileIdentity, h]
  rfl

end Parts

/-! ## Writing loses nothing -/

theorem validatedComponent_coe (n : Component) (name : String) :
    validatedComponent (n : ℕ) name = .ok n := by
  rw [validatedComponent, dif_pos ⟨by omega, by exact_mod_cast n.2⟩]
  rfl

/-- The constructor accepts the components of an identity. -/
theorem make_coe (identity : FileIdentity) :
    FileIdentity.make (identity.volumeId : ℕ) (identity.fileId : ℕ) = .ok identity := by
  rw [FileIdentity.make, validatedComponent_coe, validatedComponent_coe]
  rfl

theorem hexNumber_replicate (k : ℕ) (t : Text) :
    hexNumber (List.replicate k '0' ++ t) = hexNumber t := by
  induction k with
  | zero => rfl
  | succ k ih =>
    rw [List.replicate_succ, List.cons_append]
    exact ih

/-- A padded component is thirty-two digits, and reads as the number. -/
theorem packedComponent_spec (n : Component) :
    isPackedHexComponent (FileIdentity.packedComponent n) = true ∧
      hexNumber (FileIdentity.packedComponent n) = n := by
  have hlength : (hexText n).length ≤ packedHexComponentWidth := by
    have hlt : (n : ℕ) < 16 ^ packedHexComponentWidth := by
      have hle := n.2
      have hmax : maxFileIdentityComponent < 16 ^ packedHexComponentWidth := by decide
      exact lt_of_le_of_lt hle hmax
    exact (Nat.length_toDigits_le_iff (by decide) (by decide)).mpr hlt
  rw [FileIdentity.packedComponent, isPackedHexComponent_iff, List.leftpad, List.length_append,
    List.length_replicate, hexNumber_replicate, hexNumber_hexText]
  refine ⟨⟨Nat.sub_add_cancel hlength, fun c hc => ?_⟩, rfl⟩
  rcases List.mem_append.mp hc with hc | hc
  · rw [List.eq_of_mem_replicate hc]
    rfl
  · exact hexText_hexDigits n c hc

theorem splitKey_packedKey (identity : FileIdentity) : splitKey identity.packedKey =
    .ok (FileIdentity.packedComponent identity.volumeId,
      FileIdentity.packedComponent identity.fileId) := by
  obtain ⟨hwidth, hdigits⟩ :=
    isPackedHexComponent_iff.mp (packedComponent_spec identity.volumeId).1
  obtain ⟨hwidth', hdigits'⟩ :=
    isPackedHexComponent_iff.mp (packedComponent_spec identity.fileId).1
  exact splitKey_append (colon_notMem_of_hex hdigits) (colon_notMem_of_hex hdigits')
    (ne_nil_of_width hwidth) (ne_nil_of_width hwidth')

theorem decode_packedKey (identity : FileIdentity) :
    decodeFileIdentity identity.packedKey .packedHexV1 = .ok identity := by
  obtain ⟨hvolume, hvolumeNumber⟩ := packedComponent_spec identity.volumeId
  obtain ⟨hfile, hfileNumber⟩ := packedComponent_spec identity.fileId
  rw [decode_eq_packed (splitKey_packedKey identity), decodePackedHex,
    if_neg (not_not.mpr ⟨hvolume, hfile⟩), hvolumeNumber, hfileNumber, make_coe]

/-- A component has at most thirty-nine decimal digits. -/
theorem decimalInt_decimal (n : Component) : decimalInt (decimal n) = .ok n := by
  have hlength : (decimal n).length ≤ maxStrDigits := by
    by_cases h : (n : ℕ) = 0
    · rw [decimal, if_pos h]
      decide
    · rw [decimal, if_neg h, List.length_map, List.length_reverse]
      have hlt : (n : ℕ) < 10 ^ 39 := lt_of_le_of_lt n.2 (by decide)
      have hdigits := (Nat.digits_length_le_iff (by decide : 1 < 10) (n : ℕ)).mpr hlt
      exact hdigits.trans (by decide)
  rw [decimalInt, if_neg (Nat.not_lt.mpr hlength), decimalVal_decimal]

theorem splitKey_decimal (m n : ℕ) :
    splitKey (decimal m ++ ':' :: decimal n) = .ok (decimal m, decimal n) :=
  splitKey_append (colon_notMem_decimal m) (colon_notMem_decimal n) (decimal_ne_nil m)
    (decimal_ne_nil n)

theorem decode_decimal (identity : FileIdentity) :
    decodeFileIdentity (decimal identity.volumeId ++ ':' :: decimal identity.fileId)
      .legacyDecimal = .ok identity := by
  rw [decode_eq_legacy (splitKey_decimal _ _), decodeLegacyDecimal,
    if_neg (not_not.mpr ⟨isCanonical_decimal _, isCanonical_decimal _⟩), decimalInt_decimal,
    decimalInt_decimal]
  exact make_coe identity

/-- Each explicit encoding is lossless. -/
theorem decode_encode (identity : FileIdentity) {encoding : FileIdentityEncoding}
    (h : encoding ≠ .auto) :
    ∃ text, identity.encode encoding = .ok text ∧
      decodeFileIdentity text encoding = .ok identity := by
  cases encoding with
  | packedHexV1 => exact ⟨_, rfl, decode_packedKey identity⟩
  | legacyDecimal => exact ⟨_, rfl, decode_decimal identity⟩
  | auto => exact absurd rfl h

theorem packedKey_injective : Function.Injective FileIdentity.packedKey := by
  intro x y h
  have hx := decode_packedKey x
  rw [h, decode_packedKey y] at hx
  exact (Except.ok.inj hx).symm

/-! ## Automatic detection -/

/-- A decimal key with a number that `int()` does not read. -/
def ExceedsDigits (key : Text) : Prop :=
  ∃ m n : ℕ, key = decimal m ++ ':' :: decimal n ∧
    (maxStrDigits < (decimal m).length ∨ maxStrDigits < (decimal n).length)

/-- What is promised of reading a key without its encoding. -/
structure ReadOnce (key : Text) : Prop where
  /-- It reads what one explicit decoder reads, if the key has the form of that one alone. -/
  success : ∀ identity, decodeFileIdentity key .auto = .ok identity ↔
    (HasForm key .packedHexV1 ∧ ¬ HasForm key .legacyDecimal ∧
        decodeFileIdentity key .packedHexV1 = .ok identity) ∨
      (HasForm key .legacyDecimal ∧ ¬ HasForm key .packedHexV1 ∧
        decodeFileIdentity key .legacyDecimal = .ok identity)
  /-- A key with both forms is ambiguous. -/
  ambiguous : (∃ message, decodeFileIdentity key .auto = .error (.ambiguous message)) ↔
    HasForm key .packedHexV1 ∧ HasForm key .legacyDecimal
  /-- Every other failure is a `FileIdentityError`. -/
  otherwise : ∀ e, decodeFileIdentity key .auto = .error e →
    (∃ message, e = .ambiguous message) ∨ ∃ message, e = .invalid message

/-- The constructor refuses with a `FileIdentityError`. -/
theorem make_eq_error {volumeId fileId : ℤ} {e : IdentityError}
    (h : FileIdentity.make volumeId fileId = .error e) : ∃ message, e = .invalid message := by
  have hcomponent : ∀ (value : ℤ) (name : String) (e : IdentityError),
      validatedComponent value name = .error e → ∃ message, e = .invalid message := by
    intro value name e he
    rw [validatedComponent] at he
    split_ifs at he
    exact ⟨_, (Except.error.inj he).symm⟩
  rw [FileIdentity.make] at h
  cases hv : validatedComponent volumeId "volume_id" with
  | error e' =>
    rw [hv] at h
    obtain rfl : e' = e := Except.error.inj h
    exact hcomponent _ _ _ hv
  | ok v =>
    rw [hv] at h
    cases hf : validatedComponent fileId "file_id" with
    | error e' =>
      have h' : (validatedComponent fileId "file_id" >>= fun f =>
          (pure ⟨v, f⟩ : Checked FileIdentity)) = .error e := h
      rw [hf] at h'
      obtain rfl : e' = e := Except.error.inj h'
      exact hcomponent _ _ _ hf
    | ok f =>
      have h' : (validatedComponent fileId "file_id" >>= fun f =>
          (pure ⟨v, f⟩ : Checked FileIdentity)) = .error e := h
      rw [hf] at h'
      cases h'

theorem decodePackedHex_eq_error {a b : Text} {e : IdentityError}
    (h : decodePackedHex a b = .error e) : ∃ message, e = .invalid message := by
  rw [decodePackedHex] at h
  split_ifs at h
  · exact make_eq_error h
  · exact ⟨_, (Except.error.inj h).symm⟩

/-- Within the limit of `int()` the decimal decoder is the constructor. -/
theorem decodeLegacyDecimal_decimal {m n : ℕ} (hm : (decimal m).length ≤ maxStrDigits)
    (hn : (decimal n).length ≤ maxStrDigits) :
    decodeLegacyDecimal (decimal m) (decimal n) = FileIdentity.make m n := by
  rw [decodeLegacyDecimal, if_neg (not_not.mpr ⟨isCanonical_decimal m, isCanonical_decimal n⟩),
    decimalInt, if_neg (Nat.not_lt.mpr hm), decimalInt, if_neg (Nat.not_lt.mpr hn),
    decimalVal_decimal, decimalVal_decimal]
  rfl

/-- Beyond it the exception is that of `int()`. -/
theorem decodeLegacyDecimal_exceeds {m n : ℕ}
    (h : maxStrDigits < (decimal m).length ∨ maxStrDigits < (decimal n).length) :
    ∃ message, decodeLegacyDecimal (decimal m) (decimal n) = .error (.value message) := by
  rw [decodeLegacyDecimal, if_neg (not_not.mpr ⟨isCanonical_decimal m, isCanonical_decimal n⟩)]
  by_cases hm : maxStrDigits < (decimal m).length
  · rw [decimalInt, if_pos hm]
    exact ⟨_, rfl⟩
  · have hn := h.resolve_left hm
    rw [decimalInt, if_neg hm, decimalInt, if_pos hn]
    exact ⟨_, rfl⟩

/-- A key that exceeds the limit is too long for the packed form. -/
theorem not_packed_of_exceeds {key : Text} (h : ExceedsDigits key) :
    ¬ HasForm key .packedHexV1 := by
  obtain ⟨m, n, rfl, hlong⟩ := h
  rintro ⟨a, b, hab, ⟨hla, ha⟩, hlb, -⟩
  obtain ⟨rfl, rfl⟩ := Terminated.append_mark_inj (colon_notMem_decimal m)
    (colon_notMem_of_hex ha) hab
  rw [hla, hlb] at hlong
  exact absurd hlong (by decide)

section Detection

variable {key : Text}

theorem decode_auto_both (hp : HasForm key .packedHexV1) (hd : HasForm key .legacyDecimal) :
    ∃ message, decodeFileIdentity key .auto = .error (.ambiguous message) := by
  obtain ⟨⟨a, b⟩, hsplit⟩ := splitKey_of_hasForm hp
  rw [hasForm_packed_iff hsplit] at hp
  rw [hasForm_decimal_iff hsplit] at hd
  rw [decode_eq_detect hsplit, detect, hp, hd]
  exact ⟨_, rfl⟩

theorem decode_auto_packed (hp : HasForm key .packedHexV1) (hd : ¬ HasForm key .legacyDecimal) :
    decodeFileIdentity key .auto = decodeFileIdentity key .packedHexV1 := by
  obtain ⟨⟨a, b⟩, hsplit⟩ := splitKey_of_hasForm hp
  rw [hasForm_packed_iff hsplit] at hp
  rw [hasForm_decimal_iff hsplit, Bool.not_eq_true] at hd
  rw [decode_eq_detect hsplit, decode_eq_packed hsplit, detect, hp, hd]
  rfl

theorem decode_auto_decimal (hp : ¬ HasForm key .packedHexV1) (hd : HasForm key .legacyDecimal) :
    decodeFileIdentity key .auto = decodeFileIdentity key .legacyDecimal := by
  obtain ⟨⟨a, b⟩, hsplit⟩ := splitKey_of_hasForm hd
  rw [hasForm_packed_iff hsplit, Bool.not_eq_true] at hp
  rw [hasForm_decimal_iff hsplit] at hd
  rw [decode_eq_detect hsplit, decode_eq_legacy hsplit, detect, hp, hd]
  rfl

theorem decode_auto_neither (hp : ¬ HasForm key .packedHexV1)
    (hd : ¬ HasForm key .legacyDecimal) :
    ∃ message, decodeFileIdentity key .auto = .error (.invalid message) := by
  cases hsplit : splitKey key with
  | error e =>
    obtain ⟨message, rfl⟩ := splitKey_eq_error hsplit
    rw [decodeFileIdentity, hsplit]
    exact ⟨message, rfl⟩
  | ok parts =>
    obtain ⟨a, b⟩ := parts
    rw [hasForm_packed_iff hsplit, Bool.not_eq_true] at hp
    rw [hasForm_decimal_iff hsplit, Bool.not_eq_true] at hd
    rw [decode_eq_detect hsplit, detect, hp, hd]
    exact ⟨_, rfl⟩

/-- What an explicit decoder raises at a key with its form. -/
theorem decode_packed_eq_error {e : IdentityError} (hp : HasForm key .packedHexV1)
    (h : decodeFileIdentity key .packedHexV1 = .error e) : ∃ message, e = .invalid message := by
  obtain ⟨⟨a, b⟩, hsplit⟩ := splitKey_of_hasForm hp
  rw [decode_eq_packed hsplit] at h
  exact decodePackedHex_eq_error h

theorem decode_decimal_eq_error {e : IdentityError} (hd : HasForm key .legacyDecimal)
    (hfits : ¬ ExceedsDigits key) (h : decodeFileIdentity key .legacyDecimal = .error e) :
    ∃ message, e = .invalid message := by
  obtain ⟨m, n, rfl⟩ := hd
  have hboth : ¬ (maxStrDigits < (decimal m).length ∨ maxStrDigits < (decimal n).length) :=
    fun hlong => hfits ⟨m, n, rfl, hlong⟩
  rw [not_or, Nat.not_lt, Nat.not_lt] at hboth
  rw [decode_eq_legacy (splitKey_decimal m n),
    decodeLegacyDecimal_decimal hboth.1 hboth.2] at h
  exact make_eq_error h

/-- Beyond the limit of `int()` the exception is not one of the codec. -/
theorem decode_auto_exceeds (h : ExceedsDigits key) :
    ∃ message, decodeFileIdentity key .auto = .error (.value message) := by
  have hp := not_packed_of_exceeds h
  obtain ⟨m, n, rfl, hlong⟩ := h
  rw [decode_auto_decimal hp ⟨m, n, rfl⟩, decode_eq_legacy (splitKey_decimal m n)]
  exact decodeLegacyDecimal_exceeds hlong

/-- Detection keeps its promise but for numbers beyond the limit of `int()`. -/
theorem readOnce_iff (key : Text) : ReadOnce key ↔ ¬ ExceedsDigits key := by
  constructor
  · intro hread hlong
    obtain ⟨message, hvalue⟩ := decode_auto_exceeds hlong
    rcases hread.otherwise _ hvalue with ⟨_, h⟩ | ⟨_, h⟩ <;> cases h
  · intro hfits
    by_cases hp : HasForm key .packedHexV1
    · by_cases hd : HasForm key .legacyDecimal
      · obtain ⟨message, hboth⟩ := decode_auto_both hp hd
        refine ⟨fun v => ?_, ?_, fun e he => ?_⟩
        · simp [hboth, hp, hd]
        · simp [hboth, hp, hd]
        · exact .inl ⟨message, (Except.error.inj (hboth.symm.trans he)).symm⟩
      · have heq := decode_auto_packed hp hd
        refine ⟨fun v => ?_, ?_, fun e he => ?_⟩
        · simp [heq, hp, hd]
        · refine iff_of_false ?_ fun h => hd h.2
          rintro ⟨message, hm⟩
          obtain ⟨_, h⟩ := decode_packed_eq_error hp (heq.symm.trans hm)
          cases h
        · exact .inr (decode_packed_eq_error hp (heq.symm.trans he))
    · by_cases hd : HasForm key .legacyDecimal
      · have heq := decode_auto_decimal hp hd
        refine ⟨fun v => ?_, ?_, fun e he => ?_⟩
        · simp [heq, hp, hd]
        · refine iff_of_false ?_ fun h => hp h.1
          rintro ⟨message, hm⟩
          obtain ⟨_, h⟩ := decode_decimal_eq_error hd hfits (heq.symm.trans hm)
          cases h
        · exact .inr (decode_decimal_eq_error hd hfits (heq.symm.trans he))
      · obtain ⟨message, hneither⟩ := decode_auto_neither hp hd
        refine ⟨fun v => ?_, ?_, fun e he => ?_⟩
        · simp [hneither, hp, hd]
        · simp [hneither, hp, hd]
        · exact .inr ⟨message, (Except.error.inj (hneither.symm.trans he)).symm⟩

end Detection

/-- A packed key is never read as another file. -/
theorem decode_auto_packedKey (identity : FileIdentity) :
    decodeFileIdentity identity.packedKey .auto = .ok identity ∨
      ∃ e, decodeFileIdentity identity.packedKey .auto = .error e := by
  have hp : HasForm identity.packedKey .packedHexV1 :=
    (hasForm_packed_iff (splitKey_packedKey identity)).mpr (by
      rw [(packedComponent_spec identity.volumeId).1, (packedComponent_spec identity.fileId).1]
      rfl)
  by_cases hd : HasForm identity.packedKey .legacyDecimal
  · obtain ⟨message, hboth⟩ := decode_auto_both hp hd
    exact .inr ⟨_, hboth⟩
  · exact .inl ((decode_auto_packed hp hd).trans (decode_packedKey identity))

/-- **The text of a file identity.**  Both encodings are lossless, packed keys are distinct and
are never read as another file, and detection keeps its promise at exactly the keys without a
decimal number beyond the limit of `int()`. -/
theorem file_identity_text_iff (identity : FileIdentity) (key : Text) :
    ((∃ text, identity.encode .packedHexV1 = .ok text ∧
        decodeFileIdentity text .packedHexV1 = .ok identity) ∧
      ∃ text, identity.encode .legacyDecimal = .ok text ∧
        decodeFileIdentity text .legacyDecimal = .ok identity) ∧
      (∀ other : FileIdentity, other.packedKey = identity.packedKey → other = identity) ∧
      (decodeFileIdentity identity.packedKey .auto = .ok identity ∨
        ∃ e, decodeFileIdentity identity.packedKey .auto = .error e) ∧
      (ReadOnce key ↔ ¬ ExceedsDigits key) :=
  ⟨⟨decode_encode identity (by decide), decode_encode identity (by decide)⟩,
    fun _ h => packedKey_injective h, decode_auto_packedKey identity, readOnce_iff key⟩

/-- `1` and 4300 zeros, as the volume of a key. -/
def longKey : Text := ('1' :: List.replicate maxStrDigits '0') ++ ':' :: ['1']

/-- The failure at a key with a number of 4301 digits is not a `FileIdentityError`. -/
theorem longKey_not_readOnce :
    (∃ message, decodeFileIdentity longKey .auto = .error (.value message)) ∧
      ¬ ReadOnce longKey := by
  have hdigits : ∀ d ∈ '1' :: List.replicate maxStrDigits '0', d.isDigit = true := by
    intro d hd
    rcases List.mem_cons.mp hd with rfl | hd
    · rfl
    · rw [List.eq_of_mem_replicate hd]
      rfl
  have hvolume := decimal_decimalVal (by decide) hdigits
  have hlong : ExceedsDigits longKey := by
    refine ⟨Python.decimalVal ('1' :: List.replicate maxStrDigits '0'), 1, ?_, .inl ?_⟩
    · rw [hvolume]
      rfl
    · rw [hvolume, List.length_cons, List.length_replicate]
      exact Nat.lt_succ_self _
  exact ⟨decode_auto_exceeds hlong, fun h => (readOnce_iff longKey).mp h hlong⟩

end Foundation
end Neocortex
