import Neocortex.Library.Checks
import Neocortex.Python.Render

/-!
# Identities of I/O devices

`runtime/control/io_identity.py`: one key for the spellings of a device number, and the
per-device limits under their keys.

* `canonicalIoDevice_idempotent`: a key is its own key, so a device that was normalised at
  admission is looked up under the name it was charged to;
* `ioDeviceKey_aliases`: the integer, the `dev:` and the decimal spelling of one number have
  one key.
-/

namespace Neocortex
namespace Resources

open Python

/-! ## Digits -/

/-- One of `0123456789abcdefABCDEF`. -/
def isHexDigit (c : Char) : Bool := (hexVal c).isSome

/-- `int(token, 16)`, of a text of hexadecimal digits. -/
def hexNumber (t : Text) : ℕ := t.foldl (fun n c => 16 * n + (hexVal c).getD 0) 0

/-- `f"{n:x}"`. -/
def hexText (n : ℕ) : Text := Nat.toDigits 16 n

/-- The code points at which a run of ten decimal digits begins (Unicode 15.1, category Nd). -/
def decimalStarts : List ℕ :=
  [0x30, 0x660, 0x6F0, 0x7C0, 0x966, 0x9E6, 0xA66, 0xAE6, 0xB66, 0xBE6, 0xC66, 0xCE6, 0xD66,
   0xDE6, 0xE50, 0xED0, 0xF20, 0x1040, 0x1090, 0x17E0, 0x1810, 0x1946, 0x19D0, 0x1A80, 0x1A90,
   0x1B50, 0x1BB0, 0x1C40, 0x1C50, 0xA620, 0xA8D0, 0xA900, 0xA9D0, 0xA9F0, 0xAA50, 0xABF0,
   0xFF10, 0x104A0, 0x10D30, 0x11066, 0x110F0, 0x11136, 0x111D0, 0x112F0, 0x11450, 0x114D0,
   0x11650, 0x116C0, 0x11730, 0x118E0, 0x11950, 0x11C50, 0x11D50, 0x11DA0, 0x11F50, 0x16A60,
   0x16AC0, 0x16B50, 0x1D7CE, 0x1D7D8, 0x1D7E2, 0x1D7EC, 0x1D7F6, 0x1E140, 0x1E2F0, 0x1E4F0,
   0x1E950, 0x1FBF0]

/-- The value of a decimal digit; `none` where `str.isdecimal` is false. -/
def decimalDigitVal (c : Char) : Option ℕ :=
  (decimalStarts.find? fun s => s ≤ c.toNat && c.toNat < s + 10).map fun s => c.toNat - s

/-- `int(raw, 10)`, of a text of decimal digits. -/
def decimalNumber (t : Text) : ℕ := t.foldl (fun n c => 10 * n + (decimalDigitVal c).getD 0) 0

/-! ## Keys -/

/-- What a caller passes as a device. -/
inductive DeviceValue where
  | absent
  | flag (b : Bool)
  | number (n : ℤ)
  | label (t : Text)
  deriving DecidableEq

/-- `"True"` or `"False"`. -/
def flagText (b : Bool) : Text := if b then lit "True" else lit "False"

/-- Lower case of the ASCII letters.  No other letter has `d`, `e`, `v` or `x` as its lower
case, so this decides the two prefixes below as `str.lower` does. -/
def asciiLower (t : Text) : Text := t.map Char.toLower

/-- `raw[4:].strip()` without a leading `0x`. -/
def deviceToken (raw : Text) : Text :=
  let token := strip (raw.drop 4)
  if asciiLower (token.take 2) = lit "0x" then token.drop 2 else token

/-- `f"dev:{n:x}"`. -/
def deviceName (n : ℕ) : Text := lit "dev:" ++ hexText n

/-- The part of `canonical_io_device` about text. -/
def canonicalLabel (t : Text) : Except String (Option Text) :=
  let raw := strip t
  if raw = [] then .ok none
  else if asciiLower (raw.take 4) = lit "dev:" then
    let token := deviceToken raw
    if token ≠ [] ∧ token.all isHexDigit then .ok (some (deviceName (hexNumber token)))
    else .ok (some raw)
  else if raw.all fun c => (decimalDigitVal c).isSome then
    if maxStrDigits < raw.length then .error "Exceeds the limit for integer string conversion"
    else .ok (some (deviceName (decimalNumber raw)))
  else .ok (some raw)

/-- `canonical_io_device`. -/
def canonicalIoDevice : DeviceValue → Except String (Option Text)
  | .absent => .ok none
  | .flag b => .ok (some (flagText b))
  | .number n =>
    if n < 0 then .error "I/O device numbers cannot be negative"
    else .ok (some (deviceName n.toNat))
  | .label t => canonicalLabel t

/-- The explicit default. -/
def defaultDevice : Text := lit "default"

/-- `value or "default"`. -/
def orDefault : Option Text → Text
  | none => defaultDevice
  | some [] => defaultDevice
  | some (c :: t) => c :: t

/-- `io_device_key`. -/
def ioDeviceKey (value : DeviceValue) : Except String Text := orDefault <$> canonicalIoDevice value

/-- The value that a stored device is. -/
def storedDevice : Option Text → DeviceValue
  | none => .absent
  | some t => .label t

/-- `normalize_io_device_slots`. -/
def normalizeIoDeviceSlots (configured : List (DeviceValue × ℤ)) :
    Except String (List (Text × ℤ)) :=
  configured.foldlM (fun normalized entry => do
    let key ← ioDeviceKey entry.1
    match normalized.lookup key with
    | some previous =>
      if previous ≠ entry.2 then .error "I/O device limits contain conflicting aliases"
      else pure normalized
    | none => pure (normalized ++ [(key, entry.2)])) []

/-! ## A key is its own key -/

theorem hexNumber_append (t : Text) (c : Char) :
    hexNumber (t ++ [c]) = 16 * hexNumber t + (hexVal c).getD 0 := by
  simp [hexNumber]

theorem hexText_step {n : ℕ} (h : 16 ≤ n) :
    hexText n = hexText (n / 16) ++ [Nat.digitChar (n % 16)] := by
  rw [hexText, Nat.toDigits_of_base_le (by decide) h]
  rfl

theorem hexText_small {n : ℕ} (h : n < 16) : hexText n = [Nat.digitChar n] :=
  Nat.toDigits_of_lt_base h

theorem hexNumber_hexText (n : ℕ) : hexNumber (hexText n) = n := by
  induction n using Nat.strong_induction_on with
  | _ n ih =>
    by_cases h : n < 16
    · rw [hexText_small h]
      simp [hexNumber, hexVal_digitChar h]
    · have h16 : 16 ≤ n := Nat.not_lt.mp h
      rw [hexText_step h16, hexNumber_append, ih _ (Nat.div_lt_self (by omega) (by decide)),
        hexVal_digitChar (Nat.mod_lt _ (by decide))]
      exact Nat.div_add_mod n 16

theorem hexText_hexDigits (n : ℕ) : ∀ c ∈ hexText n, isHexDigit c = true := by
  induction n using Nat.strong_induction_on with
  | _ n ih =>
    by_cases h : n < 16
    · rw [hexText_small h]
      intro c hc
      rw [List.mem_singleton.mp hc, isHexDigit, hexVal_digitChar h]
      rfl
    · have h16 : 16 ≤ n := Nat.not_lt.mp h
      rw [hexText_step h16]
      intro c hc
      rcases List.mem_append.mp hc with hc | hc
      · exact ih _ (Nat.div_lt_self (by omega) (by decide)) c hc
      · rw [List.mem_singleton.mp hc, isHexDigit, hexVal_digitChar (Nat.mod_lt _ (by decide))]
        rfl

theorem hexText_ne_nil (n : ℕ) : hexText n ≠ [] := Nat.toDigits_ne_nil

/-- A hexadecimal digit is one of twenty-two characters. -/
theorem isHexDigit_cases {c : Char} (h : isHexDigit c = true) :
    (48 ≤ c.toNat ∧ c.toNat ≤ 57) ∨ (97 ≤ c.toNat ∧ c.toNat ≤ 102) ∨
      (65 ≤ c.toNat ∧ c.toNat ≤ 70) := by
  unfold isHexDigit hexVal at h
  split_ifs at h with h1 h2 h3
  · exact .inl h1
  · exact .inr (.inl h2)
  · exact .inr (.inr h3)
  · cases h

theorem isSpace_of_isHexDigit {c : Char} (h : isHexDigit c = true) : isSpace c = false := by
  have hc := isHexDigit_cases h
  simp only [isSpace, Bool.or_eq_false_iff, Bool.and_eq_false_iff, decide_eq_false_iff_not,
    beq_eq_false_iff_ne]
  omega

theorem deviceName_no_space (n : ℕ) : ∀ c ∈ deviceName n, isSpace c = false := by
  intro c hc
  rcases List.mem_append.mp hc with hc | hc
  · have hdev : ((lit "dev:").all fun d => !isSpace d) = true := by decide
    simpa using List.all_eq_true.mp hdev c hc
  · exact isSpace_of_isHexDigit (hexText_hexDigits n c hc)

theorem strip_hexText (n : ℕ) : strip (hexText n) = hexText n :=
  strip_of_no_space fun c hc => isSpace_of_isHexDigit (hexText_hexDigits n c hc)

/-- The second character of a number is not the `x` of a prefix. -/
theorem hexText_not_prefixed (n : ℕ) : asciiLower ((hexText n).take 2) ≠ lit "0x" := by
  intro h
  match ht : hexText n with
  | [] => exact hexText_ne_nil n ht
  | [c] =>
    rw [ht] at h
    cases (congrArg List.length h : 1 = 2)
  | c :: d :: rest =>
    rw [ht] at h
    have hd : isHexDigit d = true := hexText_hexDigits n d (by rw [ht]; simp)
    have hx : d.toLower = 'x' := by
      exact (List.cons.inj (List.cons.inj h).2).1
    rcases isHexDigit_cases hd with hc | hc | hc
    all_goals
      have hd' : d = Char.ofNat d.toNat := (Char.ofNat_toNat d).symm
      rw [hd'] at hx
      obtain ⟨h1, h2⟩ := hc
      interval_cases d.toNat <;> exact absurd hx (by decide)

theorem deviceToken_deviceName (n : ℕ) : deviceToken (deviceName n) = hexText n := by
  have hdrop : (deviceName n).drop 4 = hexText n := rfl
  rw [deviceToken, hdrop, strip_hexText]
  exact if_neg (hexText_not_prefixed n)

theorem canonicalLabel_deviceName (n : ℕ) :
    canonicalLabel (deviceName n) = .ok (some (deviceName n)) := by
  have hstrip : strip (deviceName n) = deviceName n := strip_of_no_space (deviceName_no_space n)
  have hne : deviceName n ≠ [] := by
    rw [deviceName]
    exact List.cons_ne_nil _ _
  have hdev : asciiLower ((deviceName n).take 4) = lit "dev:" := rfl
  have hhex : hexText n ≠ [] ∧ (hexText n).all isHexDigit = true :=
    ⟨hexText_ne_nil n, List.all_eq_true.mpr (hexText_hexDigits n)⟩
  simp only [canonicalLabel, hstrip]
  rw [if_neg hne, if_pos hdev, deviceToken_deviceName, if_pos hhex, hexNumber_hexText]

/-- A stripped label that is no device number stays as it is. -/
theorem canonicalLabel_of_label {t : Text} (h : canonicalLabel t = .ok (some (strip t))) :
    canonicalLabel (strip t) = .ok (some (strip t)) := by
  simp only [canonicalLabel] at h ⊢
  rw [strip_strip]
  exact h

theorem canonicalLabel_idempotent {t d : Text} (h : canonicalLabel t = .ok (some d)) :
    canonicalLabel d = .ok (some d) := by
  have hcopy := h
  simp only [canonicalLabel] at h
  split_ifs at h with h1 h2 h3 h4 h5
  · cases h
  · rw [Except.ok.injEq, Option.some.injEq] at h
    rw [← h]
    exact canonicalLabel_deviceName _
  · rw [Except.ok.injEq, Option.some.injEq] at h
    subst h
    exact canonicalLabel_of_label hcopy
  · rw [Except.ok.injEq, Option.some.injEq] at h
    rw [← h]
    exact canonicalLabel_deviceName _
  · rw [Except.ok.injEq, Option.some.injEq] at h
    subst h
    exact canonicalLabel_of_label hcopy

/-- A device that was normalised is its own normal form. -/
theorem canonicalIoDevice_idempotent {v : DeviceValue} {o : Option Text}
    (h : canonicalIoDevice v = .ok o) : canonicalIoDevice (storedDevice o) = .ok o := by
  cases o with
  | none => rfl
  | some d =>
    show canonicalLabel d = .ok (some d)
    cases v with
    | absent => cases h
    | flag b =>
      rw [canonicalIoDevice, Except.ok.injEq, Option.some.injEq] at h
      subst h
      cases b <;> decide
    | number n =>
      rw [canonicalIoDevice] at h
      split_ifs at h with hn
      rw [Except.ok.injEq, Option.some.injEq] at h
      subst h
      exact canonicalLabel_deviceName _
    | label t => exact canonicalLabel_idempotent h

/-! ## One number, one key -/

theorem ioDeviceKey_number (n : ℕ) : ioDeviceKey (.number n) = .ok (deviceName n) := by
  rw [ioDeviceKey, canonicalIoDevice, if_neg (by omega)]
  rfl

theorem decimalNumber_toDigits (n : ℕ) : decimalNumber (Nat.toDigits 10 n) = n := by
  have hval : ∀ {d : ℕ}, d < 10 → decimalDigitVal (Nat.digitChar d) = some d := by decide
  induction n using Nat.strong_induction_on with
  | _ n ih =>
    by_cases h : n < 10
    · rw [Nat.toDigits_of_lt_base h]
      simp [decimalNumber, hval h]
    · have h10 : 10 ≤ n := Nat.not_lt.mp h
      have hdiv := ih _ (Nat.div_lt_self (by omega) (by decide : 1 < 10))
      rw [Nat.toDigits_of_base_le (by decide) h10]
      simp only [decimalNumber, List.foldl_append, List.foldl_cons, List.foldl_nil] at hdiv ⊢
      rw [hdiv, hval (Nat.mod_lt _ (by decide))]
      exact Nat.div_add_mod n 10

theorem ioDeviceKey_decimal {n : ℕ} (h : (Nat.toDigits 10 n).length ≤ maxStrDigits) :
    ioDeviceKey (.label (Nat.toDigits 10 n)) = .ok (deviceName n) := by
  have hdigit : ∀ c ∈ Nat.toDigits 10 n, 48 ≤ c.toNat ∧ c.toNat ≤ 57 := by
    intro c hc
    have hd := Nat.isDigit_of_mem_toDigits (by decide) (by decide) hc
    simp only [Char.isDigit, Bool.and_eq_true, decide_eq_true_eq] at hd
    exact hd
  have hstrip : strip (Nat.toDigits 10 n) = Nat.toDigits 10 n := by
    refine strip_of_no_space fun c hc => ?_
    have hd := hdigit c hc
    simp only [isSpace, Bool.or_eq_false_iff, Bool.and_eq_false_iff, decide_eq_false_iff_not,
      beq_eq_false_iff_ne]
    omega
  have hne : Nat.toDigits 10 n ≠ [] := Nat.toDigits_ne_nil
  have hdev : asciiLower ((Nat.toDigits 10 n).take 4) ≠ lit "dev:" := by
    intro heq
    cases ht : Nat.toDigits 10 n with
    | nil => exact hne ht
    | cons c rest =>
      rw [ht] at heq
      obtain ⟨h1, h2⟩ := hdigit c (by rw [ht]; exact List.mem_cons_self)
      have hc : c.toLower = 'd' := (List.cons.inj heq).1
      rw [← Char.ofNat_toNat c] at hc
      interval_cases c.toNat <;> exact absurd hc (by decide)
  have hall : ((Nat.toDigits 10 n).all fun c => (decimalDigitVal c).isSome) = true := by
    rw [List.all_eq_true]
    intro c hc
    obtain ⟨h1, h2⟩ := hdigit c hc
    rw [decimalDigitVal, Option.isSome_map]
    simp only [decimalStarts, List.find?_cons]
    rw [show (decide (0x30 ≤ c.toNat) && decide (c.toNat < 0x30 + 10)) = true by
      simp only [Bool.and_eq_true, decide_eq_true_eq]; omega]
    rfl
  rw [ioDeviceKey, canonicalIoDevice, canonicalLabel]
  simp only [hstrip]
  rw [if_neg hne, if_neg hdev, if_pos hall, if_neg (Nat.not_lt.mpr h), decimalNumber_toDigits]
  rfl

theorem ioDeviceKey_hex (n : ℕ) : ioDeviceKey (.label (deviceName n)) = .ok (deviceName n) := by
  rw [ioDeviceKey, canonicalIoDevice, canonicalLabel_deviceName]
  rfl

/-- A device has one key under its number, under the decimal text of the number and under its own
name. -/
theorem ioDeviceKey_aliases {n : ℕ} (h : (Nat.toDigits 10 n).length ≤ maxStrDigits) :
    ioDeviceKey (.label (Nat.toDigits 10 n)) = ioDeviceKey (.number n) ∧
      ioDeviceKey (.label (deviceName n)) = ioDeviceKey (.number n) := by
  rw [ioDeviceKey_decimal h, ioDeviceKey_hex, ioDeviceKey_number]
  exact ⟨rfl, rfl⟩

end Resources
end Neocortex
