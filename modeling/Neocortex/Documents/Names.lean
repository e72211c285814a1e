import Neocortex.Python.Text

/-!
# Generated names

`document_organization_planning` turns a title into a path segment (`_safe_segment`) or into the stem
of a file name (`_safe_filename_stem`): normalise, strip, replace what a file system refuses, collapse
the whitespace, escape the names of the Windows devices, cut.  The cut comes last, and can bring back
what the steps before it took away.

* `safeName`: the steps; `safeSegment` and `safeFilenameStem` are its two instances.
* `Component`: what a file system accepts as one component of a path.
* `padded`, `DeviceCut`: the texts whose cut leaves nothing, or the name of a device.
* `cut_eq_nil_iff`, `reserved_cut_iff`: what the cut leaves, read off the text.
* `component_safeName_iff`: when the name is a component and a fixed point.
-/

namespace Neocortex
namespace Documents

open Python

/-! ## The steps -/

/-- `_WINDOWS_RESERVED_NAMES`. -/
def windowsReservedNames : List Text :=
  [lit "CON", lit "PRN", lit "AUX", lit "NUL"] ++
    ((lit "123456789").map fun d => lit "COM" ++ [d]) ++
    (lit "123456789").map fun d => lit "LPT" ++ [d]

/-- `str.upper()`, where it is compared with the device names: `ı` and `ſ` are the only characters
outside ASCII with an ASCII uppercase, and no device name has an `I` or an `S`. -/
def upper (t : Text) : Text := t.map Char.toUpper

/-- `text.upper() in _WINDOWS_RESERVED_NAMES`. -/
def reserved (t : Text) : Bool := windowsReservedNames.contains (upper t)

/-- The class of characters that both functions replace. -/
def replaced (c : Char) : Bool :=
  decide (c.toNat < 0x20) || ['<', '>', ':', '"', '/', '\\', '|', '?', '*'].contains c

/-- The first `re.sub`: an underscore for each replaced character. -/
def substitute (t : Text) : Text := t.map fun c => if replaced c then '_' else c

/-- The second `re.sub`, inside or outside a run of whitespace. -/
def collapseFrom : Bool → Text → Text
  | _, [] => []
  | inside, c :: t =>
    if isSpace c then
      if inside then collapseFrom true t else ' ' :: collapseFrom true t
    else c :: collapseFrom false t

/-- `re.sub(r"\s+", " ", text)`. -/
def collapse (t : Text) : Text := collapseFrom false t

/-- The characters of `rstrip(" .")`. -/
def edge (c : Char) : Bool := c == ' ' || c == '.'

/-- `text.rstrip(" .")`. -/
def rstrip (t : Text) : Text := t.rdropWhile edge

/-- The steps that `_safe_segment` and `_safe_filename_stem` share. -/
def safeName (nfkc : Text → Text) (fallback : Text) (limit : ℕ) (value : Text) : Text :=
  let normalized := strip (nfkc value)
  let stripped := rstrip (collapse (substitute normalized))
  let named := if stripped = [] then fallback else stripped
  let clean := if reserved named then '_' :: named else named
  let cut := rstrip (clean.take limit)
  if cut = [] then fallback else cut

/-- `ORGANIZATION_FILENAME_LIMIT`. -/
def organizationFilenameLimit : ℕ := 240

/-- `_safe_segment`. -/
def safeSegment (nfkc : Text → Text) (value : Text) : Text :=
  safeName nfkc (lit "Sin_clasificar") 80 value

/-- `_safe_filename_stem`. -/
def safeFilenameStem (nfkc : Text → Text) (value extension : Text) : Text :=
  safeName nfkc (lit "Documento tecnico") (max 1 (organizationFilenameLimit - extension.length)) value

/-! ## What the names should be -/

/-- A component of a path within `room` characters. -/
structure Component (room : ℤ) (name : Text) : Prop where
  ne_nil : name ≠ []
  kept : ∀ c ∈ name, replaced c = false
  leading : ∀ c ∈ name.head?, isSpace c = false
  trailing : ∀ c ∈ name.getLast?, isSpace c = false ∧ c ≠ '.'
  notDevice : upper name ∉ windowsReservedNames
  fits : (name.length : ℤ) ≤ room

/-- What the two functions rely on of `unicodedata.normalize("NFKC", text)`: normal text stays normal
in its parts and on both sides of an underscore or a space, neither of which takes part in a
composition, and ASCII text is normal. -/
structure NfkcLaws (nfkc : Text → Text) : Prop where
  idem : ∀ t, nfkc (nfkc t) = nfkc t
  part : ∀ s t, s <:+: t → nfkc t = t → nfkc s = s
  join : ∀ c s t, c = '_' ∨ c = ' ' → nfkc s = s → nfkc t = t → nfkc (s ++ c :: t) = s ++ c :: t
  ascii : ∀ t, IsAscii t → nfkc t = t

/-- A dot, or whitespace that is not a control character: what `rstrip` takes of the cleaned text. -/
def pads (c : Char) : Bool := c == '.' || (isSpace c && !replaced c)

/-- The text starts with padding that is cleaned to `n` characters, and shows something later.  The
flag says whether a run of whitespace is open, which counts once. -/
def padded : Bool → ℕ → Text → Prop
  | _, 0, t => ∃ c ∈ t, pads c = false
  | _, _ + 1, [] => False
  | inside, n + 1, c :: t =>
    if c = '.' then padded false n t
    else if pads c then
      if inside then padded true (n + 1) t else padded true n t
    else False

/-- The text starts with the name of a device, which padding continues up to the limit; it shows
something behind the limit. -/
def DeviceCut (limit : ℕ) (t : Text) : Prop :=
  ∃ device rest, t = device ++ rest ∧ upper device ∈ windowsReservedNames ∧
    device.length ≤ limit ∧ padded false (limit - device.length) rest

/-! ## The names of the devices -/

theorem reserved_iff {t : Text} : reserved t = true ↔ upper t ∈ windowsReservedNames := by
  rw [reserved, List.contains_iff_mem]

/-- The letters and digits of the device names, in either case. -/
def plain (c : Char) : Bool :=
  let n := c.toNat
  (65 ≤ n && n ≤ 90) || (97 ≤ n && n ≤ 122) || (49 ≤ n && n ≤ 57)

theorem plain_of_plain_toUpper {c : Char} (h : plain c.toUpper = true) : plain c = true := by
  by_cases hc : c.val ≥ 'a'.val ∧ c.val ≤ 'z'.val
  · have h97 : 97 ≤ c.toNat := UInt32.le_iff_toNat_le.mp hc.1
    have h122 : c.toNat ≤ 122 := UInt32.le_iff_toNat_le.mp hc.2
    simp [plain, h97, h122]
  · rwa [Char.toUpper, dif_neg hc] at h

/-- A plain character is none of those that the steps look at. -/
theorem of_plain {c : Char} (h : plain c = true) :
    isSpace c = false ∧ replaced c = false ∧ edge c = false ∧ pads c = false ∧ c ≠ '_' := by
  have hn : (65 ≤ c.toNat ∧ c.toNat ≤ 90) ∨ (97 ≤ c.toNat ∧ c.toNat ≤ 122) ∨
      (49 ≤ c.toNat ∧ c.toNat ≤ 57) := by
    simp only [plain, Bool.or_eq_true, Bool.and_eq_true, decide_eq_true_eq] at h
    omega
  have hne : ∀ d : Char, ¬ ((65 ≤ d.toNat ∧ d.toNat ≤ 90) ∨ (97 ≤ d.toNat ∧ d.toNat ≤ 122) ∨
      (49 ≤ d.toNat ∧ d.toNat ≤ 57)) → c ≠ d := by
    rintro d hd rfl
    exact hd hn
  have hspace : isSpace c = false := by
    simp only [isSpace, Bool.or_eq_false_iff, Bool.and_eq_false_iff, decide_eq_false_iff_not,
      beq_eq_false_iff_ne]
    omega
  have hdot : c ≠ '.' := hne '.' (by decide)
  refine ⟨hspace, ?_, ?_, ?_, hne '_' (by decide)⟩
  · simp only [replaced, Bool.or_eq_false_iff, decide_eq_false_iff_not, List.contains_cons,
      List.contains_nil, beq_eq_false_iff_ne, Bool.or_false]
    refine ⟨by omega, ?_⟩
    refine ⟨hne _ (by decide), hne _ (by decide), hne _ (by decide), hne _ (by decide),
      hne _ (by decide), hne _ (by decide), hne _ (by decide), hne _ (by decide),
      hne _ (by decide)⟩
  · simp [edge, hdot, hne ' ' (by decide)]
  · simp [pads, hdot, hspace]

theorem devices_plain :
    (windowsReservedNames.all fun name => !name.isEmpty && name.length ≤ 4 && name.all plain) =
      true := by
  decide +kernel

theorem devices_take :
    (windowsReservedNames.all fun name => [0, 1, 2, 3].all fun n =>
      decide (name.length ≤ n) || !windowsReservedNames.contains (name.take n)) = true := by
  decide +kernel

theorem devices_head :
    (windowsReservedNames.all fun name => name.head?.all
      fun c => ['C', 'P', 'A', 'N', 'L'].contains c) = true := by
  decide +kernel

theorem of_mem_device {name : Text} (h : name ∈ windowsReservedNames) :
    name ≠ [] ∧ name.length ≤ 4 ∧ ∀ c ∈ name, plain c = true := by
  have hall := List.all_eq_true.mp devices_plain name h
  simpa [and_assoc] using hall

/-- No device name starts another. -/
theorem not_device_take {name : Text} (h : name ∈ windowsReservedNames) {n : ℕ}
    (hn : n < name.length) : name.take n ∉ windowsReservedNames := by
  have hlen := (of_mem_device h).2.1
  have hmem : n ∈ [0, 1, 2, 3] := by
    simp only [List.mem_cons, List.not_mem_nil, or_false]
    omega
  have hall := List.all_eq_true.mp (List.all_eq_true.mp devices_take name h) n hmem
  intro hm
  rw [Bool.or_eq_true, decide_eq_true_eq, List.contains_iff_mem.mpr hm] at hall
  rcases hall with hle | hfalse
  · omega
  · exact absurd hfalse (by simp)

theorem head_of_mem_device {name : Text} (h : name ∈ windowsReservedNames) :
    ∀ c ∈ name.head?, c ∈ ['C', 'P', 'A', 'N', 'L'] := by
  intro c hc
  have hall := List.all_eq_true.mp devices_head name h
  rw [Option.mem_def.mp hc] at hall
  exact List.contains_iff_mem.mp hall

theorem ne_nil_of_device {t : Text} (h : upper t ∈ windowsReservedNames) : t ≠ [] := by
  rintro rfl
  exact (of_mem_device h).1 rfl

theorem plain_of_device {t : Text} (h : upper t ∈ windowsReservedNames) :
    ∀ c ∈ t, plain c = true := by
  intro c hc
  exact plain_of_plain_toUpper ((of_mem_device h).2.2 _ (List.mem_map_of_mem hc))

/-- A text that starts like no device is none. -/
theorem not_device_of_head {c : Char} {t : Text} (h : c.toUpper ∉ ['C', 'P', 'A', 'N', 'L']) :
    upper (c :: t) ∉ windowsReservedNames :=
  fun hm => h (head_of_mem_device hm _ rfl)

/-! ## Padding -/

section Collapse

@[simp] theorem collapseFrom_nil (inside : Bool) : collapseFrom inside [] = [] := by
  rw [collapseFrom]

theorem collapseFrom_space {c : Char} (h : isSpace c = true) (inside : Bool) (t : Text) :
    collapseFrom inside (c :: t) =
      if inside then collapseFrom true t else ' ' :: collapseFrom true t := by
  rw [collapseFrom, if_pos h]

theorem collapseFrom_other {c : Char} (h : isSpace c = false) (inside : Bool) (t : Text) :
    collapseFrom inside (c :: t) = c :: collapseFrom false t := by
  rw [collapseFrom, if_neg (by simp [h])]

theorem length_collapseFrom_le (t : Text) :
    ∀ inside, (collapseFrom inside t).length ≤ t.length := by
  induction t with
  | nil => simp
  | cons c t ih =>
    intro inside
    cases hc : isSpace c with
    | false =>
      rw [collapseFrom_other hc, List.length_cons, List.length_cons]
      have := ih false
      omega
    | true =>
      rw [collapseFrom_space hc]
      have := ih true
      cases inside <;> simp <;> omega

/-- The whitespace of collapsed text is the space. -/
theorem eq_space_of_mem_collapseFrom {t : Text} :
    ∀ {inside : Bool}, ∀ c ∈ collapseFrom inside t, isSpace c = true → c = ' ' := by
  induction t with
  | nil => simp
  | cons d t ih =>
    intro inside c hc hs
    cases hd : isSpace d with
    | false =>
      rw [collapseFrom_other hd, List.mem_cons] at hc
      rcases hc with rfl | hc
      · rw [hs] at hd
        exact absurd hd (by simp)
      · exact ih c hc hs
    | true =>
      rw [collapseFrom_space hd] at hc
      cases inside with
      | true => exact ih c (by simpa using hc) hs
      | false =>
        have hc' : c = ' ' ∨ c ∈ collapseFrom true t := by simpa using hc
        exact hc'.elim id fun h => ih c h hs

/-- Characters of collapsed text are spaces or come from the text. -/
theorem mem_of_mem_collapseFrom {t : Text} :
    ∀ {inside : Bool}, ∀ c ∈ collapseFrom inside t, c = ' ' ∨ c ∈ t := by
  induction t with
  | nil => simp
  | cons d t ih =>
    intro inside c hc
    cases hd : isSpace d with
    | false =>
      rw [collapseFrom_other hd, List.mem_cons] at hc
      rcases hc with rfl | hc
      · exact .inr List.mem_cons_self
      · exact (ih c hc).imp_right (List.mem_cons_of_mem _)
    | true =>
      rw [collapseFrom_space hd] at hc
      have hc' : c = ' ' ∨ c ∈ collapseFrom true t := by
        cases inside with
        | true => exact .inr (by simpa using hc)
        | false => simpa using hc
      exact hc'.elim .inl fun h => (ih c h).imp_right (List.mem_cons_of_mem _)

/-- The parts of collapsed text that start it are collapsed. -/
theorem collapseFrom_take {t : Text} :
    ∀ {inside : Bool}, collapseFrom inside t = t →
      ∀ n, collapseFrom inside (t.take n) = t.take n := by
  induction t with
  | nil => simp
  | cons c t ih =>
    intro inside h n
    cases n with
    | zero => rw [List.take_zero, collapseFrom_nil]
    | succ n =>
      rw [List.take_succ_cons]
      cases hc : isSpace c with
      | false =>
        rw [collapseFrom_other hc] at h ⊢
        rw [ih (List.cons.inj h).2 n]
      | true =>
        rw [collapseFrom_space hc] at h ⊢
        cases inside with
        | true =>
          have hlen := congrArg List.length h
          have hle := length_collapseFrom_le t true
          simp at hlen
          omega
        | false =>
          have h' : ' ' :: collapseFrom true t = c :: t := by simpa using h
          rw [← (List.cons.inj h').1] at hc ⊢
          simp [ih (List.cons.inj h').2 n]

theorem collapseFrom_collapseFrom (t : Text) :
    ∀ inside, collapseFrom inside (collapseFrom inside t) = collapseFrom inside t := by
  induction t with
  | nil => simp
  | cons c t ih =>
    intro inside
    cases hc : isSpace c with
    | false => rw [collapseFrom_other hc, collapseFrom_other hc, ih false]
    | true =>
      rw [collapseFrom_space hc]
      cases inside with
      | true => simpa using ih true
      | false => simp [collapseFrom_space (show isSpace ' ' = true by decide), ih true]

end Collapse

/-! ## Reading the cut off the text -/

section Padding

/-- The text behind the two substitutions. -/
def cleaned (inside : Bool) (t : Text) : Text := collapseFrom inside (substitute t)

theorem cleaned_nil (inside : Bool) : cleaned inside [] = [] := collapseFrom_nil inside

theorem cleaned_dot (inside : Bool) (t : Text) :
    cleaned inside ('.' :: t) = '.' :: cleaned false t :=
  collapseFrom_other (by decide) inside _

theorem cleaned_pad {c : Char} (hdot : c ≠ '.') (h : pads c = true) (inside : Bool) (t : Text) :
    cleaned inside (c :: t) = if inside then cleaned true t else ' ' :: cleaned true t := by
  have hc : isSpace c = true ∧ replaced c = false := by simpa [pads, hdot] using h
  have hsub : substitute (c :: t) = c :: substitute t := by simp [substitute, hc.2]
  rw [cleaned, hsub]
  exact collapseFrom_space hc.1 inside _

/-- A character that is no padding shows as one that `rstrip` keeps. -/
theorem cleaned_shown {c : Char} (h : pads c = false) (inside : Bool) (t : Text) :
    ∃ d, edge d = false ∧ isSpace d = false ∧ cleaned inside (c :: t) = d :: cleaned false t ∧
      (d = '_' ∨ d = c) := by
  have hc : c ≠ '.' ∧ (isSpace c = true → replaced c = true) := by simpa [pads] using h
  cases hr : replaced c with
  | true =>
    have hsub : substitute (c :: t) = '_' :: substitute t := by simp [substitute, hr]
    exact ⟨'_', by decide, by decide,
      by rw [cleaned, hsub, collapseFrom_other (by decide)]; rfl, .inl rfl⟩
  | false =>
    have hs : isSpace c = false := by
      cases hs : isSpace c with
      | false => rfl
      | true => rw [hc.2 hs] at hr; exact absurd hr (by simp)
    have hspace : c ≠ ' ' := by
      rintro rfl
      exact absurd hs (by decide)
    have hsub : substitute (c :: t) = c :: substitute t := by simp [substitute, hr]
    exact ⟨c, by simp [edge, hc.1, hspace], hs, by rw [cleaned, hsub, collapseFrom_other hs]; rfl,
      .inr rfl⟩

theorem shows_iff (t : Text) :
    ∀ inside, (∃ c ∈ t, pads c = false) ↔ ∃ c ∈ cleaned inside t, edge c = false := by
  induction t with
  | nil => simp [cleaned_nil]
  | cons c t ih =>
    intro inside
    cases hp : pads c with
    | false =>
      obtain ⟨d, hd, -, e, -⟩ := cleaned_shown hp inside t
      rw [e]
      exact ⟨fun _ => ⟨d, List.mem_cons_self, hd⟩, fun _ => ⟨c, List.mem_cons_self, hp⟩⟩
    | true =>
      have hleft : (∃ x ∈ c :: t, pads x = false) ↔ ∃ x ∈ t, pads x = false := by simp [hp]
      rw [hleft]
      by_cases hdot : c = '.'
      · rw [hdot, cleaned_dot, ih false]
        simp [show edge '.' = true by decide]
      · rw [cleaned_pad hdot hp, ih true]
        cases inside <;> simp [show edge ' ' = true by decide]

/-- `padded` in the words of the cleaned text: a first part that `rstrip` would take, and something
behind it that it would not. -/
theorem padded_iff (t : Text) :
    ∀ inside n, padded inside n t ↔
      (∀ c ∈ (cleaned inside t).take n, edge c = true) ∧
        ∃ c ∈ (cleaned inside t).drop n, edge c = false := by
  induction t with
  | nil =>
    intro inside n
    cases n <;> simp [padded, cleaned_nil]
  | cons c t ih =>
    intro inside n
    cases n with
    | zero =>
      have e := shows_iff (c :: t) inside
      simpa [padded] using e
    | succ n =>
      by_cases hdot : c = '.'
      · rw [hdot, cleaned_dot, padded, if_pos rfl, ih false n]
        simp [show edge '.' = true by decide]
      · cases hp : pads c with
        | false =>
          obtain ⟨d, hd, -, e, -⟩ := cleaned_shown hp inside t
          rw [e, padded, if_neg hdot, if_neg (by simp [hp])]
          simp [hd]
        | true =>
          rw [cleaned_pad hdot hp, padded, if_neg hdot, if_pos hp]
          cases inside with
          | true => simpa using ih true (n + 1)
          | false => simpa [show edge ' ' = true by decide] using ih true n

/-- Plain text is cleaned to itself, and what is cleaned to it is it. -/
theorem cleaned_append {device : Text} (h : ∀ c ∈ device, plain c = true) (hne : device ≠ [])
    (rest : Text) : ∀ inside, cleaned inside (device ++ rest) = device ++ cleaned false rest := by
  induction device with
  | nil => exact absurd rfl hne
  | cons c device ih =>
    intro inside
    obtain ⟨hs, hr, -⟩ := of_plain (h c List.mem_cons_self)
    have hsub : substitute (c :: device ++ rest) = c :: substitute (device ++ rest) := by
      simp [substitute, hr]
    rw [cleaned, hsub, collapseFrom_other hs]
    show c :: cleaned false (device ++ rest) = c :: (device ++ cleaned false rest)
    cases device with
    | nil => rfl
    | cons d device =>
      rw [ih (fun x hx => h x (List.mem_cons_of_mem _ hx)) (List.cons_ne_nil _ _) false]

theorem exists_of_cleaned_eq_append {device : Text} (h : ∀ c ∈ device, plain c = true)
    {w : Text} : ∀ {t : Text} , cleaned false t = device ++ w →
      ∃ rest, t = device ++ rest ∧ cleaned false rest = w := by
  induction device with
  | nil => exact fun {t} e => ⟨t, rfl, e⟩
  | cons c device ih =>
    intro t e
    obtain ⟨-, -, hedge, -, hunder⟩ := of_plain (h c List.mem_cons_self)
    cases t with
    | nil =>
      rw [cleaned_nil] at e
      exact absurd e (by simp)
    | cons x t =>
      by_cases hdot : x = '.'
      · rw [hdot, cleaned_dot] at e
        have hc : '.' = c := (List.cons.inj e).1
        rw [← hc] at hedge
        exact absurd hedge (by decide)
      · cases hp : pads x with
        | true =>
          rw [cleaned_pad hdot hp] at e
          have hc : ' ' = c := (List.cons.inj (by simpa using e)).1
          rw [← hc] at hedge
          exact absurd hedge (by decide)
        | false =>
          obtain ⟨d, -, -, ex, hd⟩ := cleaned_shown hp false t
          rw [ex] at e
          have hc : d = c := (List.cons.inj e).1
          have hx : x = c := by
            rcases hd with hd | hd
            · exact absurd (hc.symm.trans hd) hunder
            · exact hd.symm.trans hc
          obtain ⟨rest, ht, hw⟩ := ih (fun y hy => h y (List.mem_cons_of_mem _ hy))
            (List.cons.inj e).2
          exact ⟨rest, by rw [hx, ht, List.cons_append], hw⟩

end Padding

/-! ## The cut -/

section Cut

theorem exists_rstrip (x : Text) : ∃ z, x = rstrip x ++ z ∧ ∀ c ∈ z, edge c = true :=
  ⟨x.rtakeWhile edge, List.rdropWhile_append_rtakeWhile.symm, fun _ hc => List.mem_rtakeWhile_imp hc⟩

theorem rstrip_isPrefix (x : Text) : rstrip x <+: x := List.rdropWhile_prefix _ _

theorem rstrip_eq_nil_iff {x : Text} : rstrip x = [] ↔ ∀ c ∈ x, edge c = true :=
  List.rdropWhile_eq_nil_iff

theorem last_rstrip {x : Text} : ∀ c ∈ (rstrip x).getLast?, edge c = false := by
  intro c hc
  have hne : rstrip x ≠ [] := by
    intro e
    rw [e] at hc
    exact absurd hc (by simp)
  rw [List.getLast?_eq_some_getLast hne, Option.mem_some_iff] at hc
  rw [← hc]
  exact Bool.eq_false_iff.mpr (List.rdropWhile_last_not edge x hne)

theorem rstrip_of_last {x : Text} (h : ∀ c ∈ x.getLast?, edge c = false) : rstrip x = x := by
  rw [rstrip, List.rdropWhile_eq_self_iff]
  intro hne
  rw [h _ (List.getLast?_eq_some_getLast hne)]
  exact Bool.false_ne_true

theorem rstrip_append {y z : Text} (hy : ∀ c ∈ y.getLast?, edge c = false)
    (hz : ∀ c ∈ z, edge c = true) : rstrip (y ++ z) = y := by
  induction z using List.reverseRecOn with
  | nil => rw [List.append_nil, rstrip_of_last hy]
  | append_singleton z c ih =>
    rw [← List.append_assoc, rstrip, List.rdropWhile_concat_pos _ _ _ (hz c (by simp))]
    exact ih fun d hd => hz d (List.mem_append_left _ hd)

/-- What shows behind the limit keeps the text up to it from `rstrip`. -/
theorem take_rstrip {x : Text} {n : ℕ} (h : ∃ c ∈ x.drop n, edge c = false) :
    n < (rstrip x).length ∧ (rstrip x).take n = x.take n := by
  obtain ⟨z, hx, hz⟩ := exists_rstrip x
  have hlt : n < (rstrip x).length := by
    by_contra hle
    obtain ⟨c, hc, hedge⟩ := h
    rw [hx, List.drop_append, List.drop_eq_nil_of_le (by omega), List.nil_append] at hc
    rw [hz c (List.mem_of_mem_drop hc)] at hedge
    exact absurd hedge (by simp)
  refine ⟨hlt, ?_⟩
  conv_rhs => rw [hx]
  rw [List.take_append_of_le_length (by omega)]

theorem exists_shown {x : Text} {n : ℕ} (h : n < (rstrip x).length) :
    ∃ c ∈ x.drop n, edge c = false := by
  have hne : rstrip x ≠ [] := List.ne_nil_of_length_pos (by omega)
  have hdrop : (rstrip x).drop n ≠ [] := by
    intro e
    have := List.drop_eq_nil_iff.mp e
    omega
  refine ⟨(rstrip x).getLast hne, ?_, last_rstrip _ (List.getLast?_eq_some_getLast hne)⟩
  have hmem : (rstrip x).getLast hne ∈ (rstrip x).drop n := by
    rw [← List.getLast_drop hdrop]
    exact List.getLast_mem hdrop
  obtain ⟨z, hx, -⟩ := exists_rstrip x
  have hdropx : x.drop n = (rstrip x).drop n ++ z := by
    conv_lhs => rw [hx]
    rw [List.drop_append_of_le_length (by omega)]
  rw [hdropx]
  exact List.mem_append_left _ hmem

/-- The cut leaves nothing of a text that is padding up to the limit. -/
theorem cut_eq_nil_iff (limit : ℕ) {t : Text} (hne : rstrip (cleaned false t) ≠ []) :
    rstrip ((rstrip (cleaned false t)).take limit) = [] ↔ padded false limit t := by
  rw [padded_iff, rstrip_eq_nil_iff]
  constructor
  · intro h
    have hlt : limit < (rstrip (cleaned false t)).length := by
      by_contra hle
      rw [List.take_of_length_le (by omega)] at h
      have hlast := last_rstrip (x := cleaned false t) _ (List.getLast?_eq_some_getLast hne)
      rw [h _ (List.getLast_mem hne)] at hlast
      exact absurd hlast (by simp)
    have hshown := exists_shown hlt
    rw [(take_rstrip hshown).2] at h
    exact ⟨h, hshown⟩
  · rintro ⟨h, hshown⟩
    rw [(take_rstrip hshown).2]
    exact h

theorem last_plain {t : Text} (h : ∀ c ∈ t, plain c = true) : ∀ c ∈ t.getLast?, edge c = false :=
  fun c hc => (of_plain (h c (List.mem_of_getLast? hc))).2.2.1

/-- A device cut, in the words of the cleaned text. -/
theorem DeviceCut.cleaned {limit : ℕ} {t : Text} (h : DeviceCut limit t) :
    ∃ device pads, (cleaned false t).take limit = device ++ pads ∧ (∀ c ∈ pads, edge c = true) ∧
      upper device ∈ windowsReservedNames ∧
      ∃ c ∈ (Documents.cleaned false t).drop limit, edge c = false := by
  obtain ⟨device, rest, rfl, hdevice, hlen, hpad⟩ := h
  obtain ⟨hedge, c, hc, hshown⟩ := (padded_iff rest false _).mp hpad
  have hplain := plain_of_device hdevice
  have e := cleaned_append hplain (ne_nil_of_device hdevice) rest false
  refine ⟨device, _, ?_, hedge, hdevice, c, ?_, hshown⟩
  · rw [e, List.take_append, List.take_of_length_le hlen]
  · rw [e, List.drop_append, List.drop_eq_nil_of_le hlen, List.nil_append]
    exact hc

/-- A text whose cleaned form is a device name is not cut. -/
theorem not_deviceCut_of_reserved {limit : ℕ} {t : Text}
    (h : upper (rstrip (cleaned false t)) ∈ windowsReservedNames) : ¬ DeviceCut limit t := by
  intro hcut
  obtain ⟨device, pads, htake, -, hdevice, hshown⟩ := hcut.cleaned
  obtain ⟨hlt, e⟩ := take_rstrip hshown
  rw [htake] at e
  have hlen : device.length + pads.length ≤ limit := by
    have := congrArg List.length e
    rw [List.length_take, List.length_append] at this
    omega
  have hupper : (upper (rstrip (cleaned false t))).take device.length = upper device := by
    rw [upper, ← List.map_take]
    have h' := congrArg (List.take device.length) e
    rw [List.take_take, List.take_append_of_le_length le_rfl, List.take_length,
      Nat.min_eq_left (by omega)] at h'
    rw [h', upper]
  have hnot := not_device_take h (n := device.length)
    (by rw [upper, List.length_map]; omega)
  rw [hupper] at hnot
  exact hnot hdevice

/-- The cut leaves the name of a device exactly of a text that starts with one and its padding. -/
theorem reserved_cut_iff (limit : ℕ) {t : Text}
    (h : upper (rstrip (cleaned false t)) ∉ windowsReservedNames) :
    upper (rstrip ((rstrip (cleaned false t)).take limit)) ∈ windowsReservedNames ↔
      DeviceCut limit t := by
  constructor
  · intro hcut
    have hlt : limit < (rstrip (cleaned false t)).length := by
      by_contra hle
      rw [List.take_of_length_le (by omega), rstrip_of_last last_rstrip] at hcut
      exact h hcut
    have hshown := exists_shown hlt
    rw [(take_rstrip hshown).2] at hcut
    obtain ⟨pads, htake, hpads⟩ := exists_rstrip ((cleaned false t).take limit)
    have hsplit : cleaned false t =
        rstrip ((cleaned false t).take limit) ++ (pads ++ (cleaned false t).drop limit) := by
      rw [← List.append_assoc, ← htake, List.take_append_drop]
    obtain ⟨rest, ht, hrest⟩ := exists_of_cleaned_eq_append (plain_of_device hcut) hsplit
    have hlen := congrArg List.length htake
    have hmin : ((cleaned false t).take limit).length = limit := by
      obtain ⟨c, hc, -⟩ := hshown
      have hpos := List.length_pos_of_mem hc
      rw [List.length_drop] at hpos
      rw [List.length_take]
      omega
    rw [List.length_append, hmin] at hlen
    refine ⟨_, rest, ht, hcut, by omega, (padded_iff rest false _).mpr ?_⟩
    have hpad : limit - (rstrip ((cleaned false t).take limit)).length = pads.length := by omega
    rw [hrest, hpad, List.take_append_of_le_length le_rfl, List.take_length,
      List.drop_append_of_le_length le_rfl, List.drop_length, List.nil_append]
    exact ⟨hpads, hshown⟩
  · intro hcut
    obtain ⟨device, pads, htake, hpads, hdevice, hshown⟩ := hcut.cleaned
    rw [(take_rstrip hshown).2, htake, rstrip_append (last_plain (plain_of_device hdevice)) hpads]
    exact hdevice

end Cut

/-! ## Names that are kept -/

/-- What the steps before the cut establish, and the cut keeps. -/
structure Draft (nfkc : Text → Text) (s : Text) : Prop where
  kept : ∀ c ∈ s, replaced c = false
  collapsed : collapse s = s
  leading : ∀ c ∈ s.head?, isSpace c = false
  normal : nfkc s = s

/-- The name given to a text of which nothing is left. -/
structure Fallback (s : Text) : Prop where
  kept : (s.all fun c => !replaced c) = true
  collapsed : collapse s = s
  first : (s.head?.any fun c => !isSpace c && !edge c &&
    !List.contains ['C', 'P', 'A', 'N', 'L'] c.toUpper) = true
  last : (s.getLast?.all fun c => !edge c) = true
  ascii : (s.all fun c => c.utf8Size == 1) = true

theorem fallback_segment : Fallback (lit "Sin_clasificar") where
  kept := by decide +kernel
  collapsed := by decide +kernel
  first := by decide +kernel
  last := by decide +kernel
  ascii := by decide +kernel

theorem fallback_stem : Fallback (lit "Documento tecnico") where
  kept := by decide +kernel
  collapsed := by decide +kernel
  first := by decide +kernel
  last := by decide +kernel
  ascii := by decide +kernel

theorem Fallback.exists_cons {s : Text} (h : Fallback s) :
    ∃ c t, s = c :: t ∧ isSpace c = false ∧ edge c = false ∧
      c.toUpper ∉ ['C', 'P', 'A', 'N', 'L'] := by
  have hfirst := h.first
  cases s with
  | nil => exact absurd hfirst (by simp)
  | cons c t =>
    rw [List.head?_cons, Option.any_some, Bool.and_eq_true, Bool.and_eq_true] at hfirst
    obtain ⟨⟨hspace, hedge⟩, hletter⟩ := hfirst
    refine ⟨c, t, rfl, by simpa using hspace, by simpa using hedge, fun hm => ?_⟩
    rw [List.contains_iff_mem.mpr hm] at hletter
    exact absurd hletter (by simp)

theorem Fallback.last_edge {s : Text} (h : Fallback s) : ∀ c ∈ s.getLast?, edge c = false := by
  intro c hc
  have hlast := h.last
  rw [Option.mem_def.mp hc, Option.all_some] at hlast
  simpa using hlast

section Kept

variable {nfkc : Text → Text} {fallback : Text} {limit : ℕ}

/-- A first part of a draft is one. -/
theorem Draft.of_prefix (laws : NfkcLaws nfkc) {s r : Text} (h : Draft nfkc s) (hr : r <+: s) :
    Draft nfkc r where
  kept c hc := h.kept c (hr.subset hc)
  collapsed := by
    rw [List.prefix_iff_eq_take.mp hr]
    exact collapseFrom_take h.collapsed _
  leading c hc := by
    obtain ⟨t, rfl⟩ := hr
    refine h.leading c ?_
    cases r with
    | nil => exact absurd hc (by simp)
    | cons d r => exact hc
  normal := laws.part r s hr.isInfix h.normal

theorem Draft.cut (laws : NfkcLaws nfkc) {s : Text} (h : Draft nfkc s) (n : ℕ) :
    Draft nfkc (rstrip (s.take n)) :=
  h.of_prefix laws ((rstrip_isPrefix _).trans (List.take_prefix n s))

theorem Fallback.draft (laws : NfkcLaws nfkc) (h : Fallback fallback) : Draft nfkc fallback where
  kept c hc := by simpa using List.all_eq_true.mp h.kept c hc
  collapsed := h.collapsed
  leading c hc := by
    obtain ⟨d, t, rfl, hd, -⟩ := h.exists_cons
    rw [List.head?_cons, Option.mem_some_iff] at hc
    rwa [← hc]
  normal := laws.ascii _ fun c hc => by simpa using List.all_eq_true.mp h.ascii c hc

theorem substitute_normal (laws : NfkcLaws nfkc) (b : Text) :
    ∀ a, nfkc (a ++ b) = a ++ b → nfkc (a ++ substitute b) = a ++ substitute b := by
  induction b with
  | nil => exact fun a h => h
  | cons c b ih =>
    intro a h
    cases hc : replaced c with
    | false =>
      have e : a ++ substitute (c :: b) = (a ++ [c]) ++ substitute b := by simp [substitute, hc]
      rw [e]
      exact ih (a ++ [c]) (by simpa using h)
    | true =>
      have e : substitute (c :: b) = '_' :: substitute b := by simp [substitute, hc]
      rw [e]
      have hb : nfkc ([] ++ b) = [] ++ b :=
        laws.part b _ (((List.suffix_cons c b).trans (List.suffix_append a _)).isInfix) h
      exact laws.join '_' a _ (.inl rfl) (laws.part a _ (List.prefix_append a _).isInfix h)
        (ih [] hb)

theorem collapse_normal (laws : NfkcLaws nfkc) (b : Text) :
    (nfkc b = b → nfkc (collapseFrom true b) = collapseFrom true b) ∧
      ∀ a, nfkc (a ++ b) = a ++ b →
        nfkc (a ++ collapseFrom false b) = a ++ collapseFrom false b := by
  induction b with
  | nil => simp
  | cons c b ih =>
    cases hc : isSpace c with
    | false =>
      rw [collapseFrom_other hc, collapseFrom_other hc]
      refine ⟨fun h => ih.2 [c] h, fun a h => ?_⟩
      have h' := ih.2 (a ++ [c]) (by simpa using h)
      simpa using h'
    | true =>
      have hpart : ∀ a, nfkc (a ++ c :: b) = a ++ c :: b → nfkc b = b := fun a h =>
        laws.part b _ (((List.suffix_cons c b).trans (List.suffix_append a _)).isInfix) h
      rw [collapseFrom_space hc, collapseFrom_space hc, if_pos rfl, if_neg (by simp)]
      refine ⟨fun h => ih.1 (hpart [] h), fun a h => ?_⟩
      exact laws.join ' ' a _ (.inr rfl) (laws.part a _ (List.prefix_append a _).isInfix h)
        (ih.1 (hpart a h))

theorem strip_isInfix (t : Text) : strip t <:+: t :=
  (List.rdropWhile_prefix _ _).isInfix.trans (List.dropWhile_suffix _).isInfix

theorem strip_head (t : Text) : ∀ c ∈ (strip t).head?, isSpace c = false := by
  intro c hc
  have hdrop : c ∈ (t.dropWhile isSpace).head? := by
    obtain ⟨z, hz⟩ := List.rdropWhile_prefix isSpace (t.dropWhile isSpace)
    rw [← hz]
    cases h : strip t with
    | nil =>
      rw [h] at hc
      exact absurd hc (by simp)
    | cons d s =>
      rw [h] at hc
      show c ∈ (strip t ++ z).head?
      rw [h]
      exact hc
  have hnot := List.head?_dropWhile_not isSpace t
  rw [Option.mem_def.mp hdrop] at hnot
  simpa using hnot

/-- The cleaned form of a trimmed normal text is a draft. -/
theorem draft_cleaned (laws : NfkcLaws nfkc) (value : Text) :
    Draft nfkc (cleaned false (strip (nfkc value))) := by
  have hnormal : nfkc (strip (nfkc value)) = strip (nfkc value) :=
    laws.part _ _ (strip_isInfix _) (laws.idem value)
  have hhead := strip_head (nfkc value)
  generalize strip (nfkc value) = t at hnormal hhead
  refine ⟨fun c hc => ?_, collapseFrom_collapseFrom _ false, fun c hc => ?_, ?_⟩
  · rcases mem_of_mem_collapseFrom c hc with rfl | hm
    · decide
    · obtain ⟨d, -, rfl⟩ := List.mem_map.mp hm
      by_cases hd : replaced d = true
      · rw [if_pos hd]
        decide
      · rw [if_neg hd]
        exact Bool.eq_false_iff.mpr hd
  · cases t with
    | nil =>
      rw [cleaned_nil] at hc
      exact absurd hc (by simp)
    | cons d t =>
      have hd : isSpace d = false := hhead d rfl
      by_cases hdot : d = '.'
      · rw [hdot, cleaned_dot, List.head?_cons, Option.mem_some_iff] at hc
        rw [← hc]
        decide
      · have hp : pads d = false := by simp [pads, hdot, hd]
        obtain ⟨x, -, hx, e, -⟩ := cleaned_shown hp false t
        rw [e, List.head?_cons, Option.mem_some_iff] at hc
        rwa [← hc]
  · have hsub := substitute_normal laws t [] hnormal
    exact (collapse_normal laws (substitute t)).2 [] hsub

/-- A draft of one character or more that ends outside the edges is a component, if it fits and is no
device. -/
theorem Draft.component_iff {s : Text} (h : Draft nfkc s) (hne : s ≠ [])
    (hlast : ∀ c ∈ s.getLast?, edge c = false) (hlen : s.length ≤ limit) :
    Component limit s ↔ upper s ∉ windowsReservedNames := by
  refine ⟨fun hs => hs.notDevice, fun hs => ⟨hne, h.kept, h.leading, fun c hc => ?_, hs, ?_⟩⟩
  · have hedge : c ≠ ' ' ∧ c ≠ '.' := by simpa [edge] using hlast c hc
    refine ⟨?_, hedge.2⟩
    cases hspace : isSpace c with
    | false => rfl
    | true =>
      have hmem : c ∈ collapseFrom false s := by
        show c ∈ collapse s
        rw [h.collapsed]
        exact List.mem_of_getLast? hc
      exact absurd (eq_space_of_mem_collapseFrom c hmem hspace) hedge.1
  · exact_mod_cast hlen

theorem strip_of_ends {s : Text} (hhead : ∀ c ∈ s.head?, isSpace c = false)
    (hlast : ∀ c ∈ s.getLast?, isSpace c = false) : strip s = s := by
  have hdrop : s.dropWhile isSpace = s := by
    cases s with
    | nil => rfl
    | cons c s => rw [List.dropWhile_cons_of_neg (by simp [hhead c rfl])]
  rw [strip, hdrop, List.rdropWhile_eq_self_iff]
  intro hne
  simp [hlast _ (List.getLast?_eq_some_getLast hne)]

/-- A component that is a draft is its own name. -/
theorem Component.safeName_eq {s : Text} (hs : Component limit s) (h : Draft nfkc s) :
    safeName nfkc fallback limit s = s := by
  have hlast : ∀ c ∈ s.getLast?, edge c = false := by
    intro c hc
    obtain ⟨hspace, hdot⟩ := hs.trailing c hc
    have hne : c ≠ ' ' := by
      rintro rfl
      exact absurd hspace (by decide)
    simp [edge, hne, hdot]
  have hstrip : strip s = s := strip_of_ends hs.leading fun c hc => (hs.trailing c hc).1
  have hsub : substitute s = s := by
    have hmap : s.map (fun c => if replaced c then '_' else c) = s.map id :=
      List.map_congr_left fun c hc => by rw [h.kept c hc]; rfl
    rw [substitute, hmap, List.map_id]
  have hnot : reserved s = false := by
    rw [Bool.eq_false_iff]
    exact fun hr => hs.notDevice (reserved_iff.mp hr)
  have hfits : s.length ≤ limit := by exact_mod_cast hs.fits
  rw [safeName, h.normal, hstrip, hsub, h.collapsed, rstrip_of_last hlast]
  simp only [hs.ne_nil, if_false, hnot, Bool.false_eq_true, List.take_of_length_le hfits,
    rstrip_of_last hlast]

theorem not_deviceCut_of_nil (limit : ℕ) {t : Text} (h : rstrip (cleaned false t) = []) :
    ¬ padded false limit t ∧ ¬ DeviceCut limit t := by
  have hnone : ¬ ∃ c ∈ (cleaned false t).drop limit, edge c = false := by
    rintro ⟨c, hc, hedge⟩
    rw [rstrip_eq_nil_iff.mp h c (List.mem_of_mem_drop hc)] at hedge
    exact absurd hedge (by simp)
  refine ⟨fun hp => hnone ((padded_iff t false limit).mp hp).2, fun hcut => ?_⟩
  obtain ⟨-, -, -, -, -, hshown⟩ := hcut.cleaned
  exact hnone hshown

/-- The cut of a text whose first character stays. -/
theorem cut_ne_nil {c : Char} {s : Text} (hc : edge c = false) (hlimit : 0 < limit) :
    ∃ r, rstrip ((c :: s).take limit) = c :: r := by
  obtain ⟨n, rfl⟩ : ∃ n, limit = n + 1 := ⟨limit - 1, by omega⟩
  rw [List.take_succ_cons]
  obtain ⟨z, hz, hedge⟩ := exists_rstrip (c :: s.take n)
  cases hr : rstrip (c :: s.take n) with
  | nil =>
    rw [hr, List.nil_append] at hz
    have := hedge c (by rw [← hz]; exact List.mem_cons_self)
    rw [hc] at this
    exact absurd this (by simp)
  | cons d r =>
    rw [hr, List.cons_append] at hz
    exact ⟨r, by rw [(List.cons.inj hz).1]⟩

theorem Draft.escape (laws : NfkcLaws nfkc) {s : Text} (h : Draft nfkc s) :
    Draft nfkc ('_' :: s) where
  kept c hc := by
    rcases List.mem_cons.mp hc with rfl | hc
    · decide
    · exact h.kept c hc
  collapsed := by
    rw [collapse, collapseFrom_other (by decide)]
    exact congrArg (List.cons '_') h.collapsed
  leading c hc := by
    rw [List.head?_cons, Option.mem_some_iff] at hc
    rw [← hc]
    decide
  normal := laws.join '_' [] s (.inl rfl) (laws.part [] s (List.nil_infix) h.normal) h.normal

/-- A text whose cleaned form is a device name starts with a character that is no padding. -/
theorem not_padded_of_reserved {t : Text} (hlimit : 0 < limit)
    (h : upper (rstrip (cleaned false t)) ∈ windowsReservedNames) : ¬ padded false limit t := by
  intro hp
  obtain ⟨hedge, hshown⟩ := (padded_iff t false limit).mp hp
  rw [← (take_rstrip hshown).2] at hedge
  obtain ⟨c, r, hr⟩ := List.exists_cons_of_ne_nil (ne_nil_of_device h)
  have hc : c ∈ (rstrip (cleaned false t)).take limit := by
    obtain ⟨n, rfl⟩ : ∃ n, limit = n + 1 := ⟨limit - 1, by omega⟩
    rw [hr, List.take_succ_cons]
    exact List.mem_cons_self
  have hplain := (of_plain (plain_of_device h c (by rw [hr]; exact List.mem_cons_self))).2.2.1
  rw [hedge c hc] at hplain
  exact absurd hplain (by simp)

/-- **The cut.**  The name is a component, and its own name, exactly when the text neither is padding up
to a limit under the length of the fallback, nor starts with a device that its padding continues up
to the limit. -/
theorem component_safeName_iff (laws : NfkcLaws nfkc) (hfallback : Fallback fallback)
    (hlimit : 0 < limit) (value : Text) :
    (Component limit (safeName nfkc fallback limit value) ∧
        safeName nfkc fallback limit (safeName nfkc fallback limit value) =
          safeName nfkc fallback limit value) ↔
      (limit < fallback.length → ¬ padded false limit (strip (nfkc value))) ∧
        ¬ DeviceCut limit (strip (nfkc value)) := by
  have hdraft := draft_cleaned laws value
  generalize ht : strip (nfkc value) = t at hdraft
  obtain ⟨f, ft, hf, -, hfedge, hfletter⟩ := hfallback.exists_cons
  -- the second half of the left side follows from the first
  have hidem : ∀ s, Draft nfkc s → safeName nfkc fallback limit value = s →
      (Component limit s ↔ (limit < fallback.length → ¬ padded false limit t) ∧
        ¬ DeviceCut limit t) →
      ((Component limit (safeName nfkc fallback limit value) ∧
        safeName nfkc fallback limit (safeName nfkc fallback limit value) =
          safeName nfkc fallback limit value) ↔
      (limit < fallback.length → ¬ padded false limit t) ∧ ¬ DeviceCut limit t) := by
    intro s hs e hiff
    rw [e, ← hiff]
    exact ⟨fun h => h.1, fun h => ⟨h, h.safeName_eq hs⟩⟩
  have hname : safeName nfkc fallback limit value =
      (let named := if rstrip (cleaned false t) = [] then fallback else rstrip (cleaned false t)
       let clean := if reserved named then '_' :: named else named
       if rstrip (clean.take limit) = [] then fallback else rstrip (clean.take limit)) := by
    rw [safeName, ht]
    rfl
  by_cases hnil : rstrip (cleaned false t) = []
  · -- nothing is left: the fallback, cut
    obtain ⟨r, hr⟩ := cut_ne_nil (s := ft) hfedge hlimit
    have hnot : reserved fallback = false := by
      rw [Bool.eq_false_iff]
      intro hres
      rw [hf] at hres
      exact not_device_of_head hfletter (reserved_iff.mp hres)
    refine hidem (rstrip (fallback.take limit)) ((hfallback.draft laws).cut laws limit) ?_ ?_
    · rw [hname, if_pos hnil]
      simp only [hnot, Bool.false_eq_true, if_false]
      rw [if_neg (by rw [hf, hr]; exact List.cons_ne_nil _ _)]
    · obtain ⟨hpad, hcut⟩ := not_deviceCut_of_nil limit hnil
      rw [((hfallback.draft laws).cut laws limit).component_iff
        (by rw [hf, hr]; exact List.cons_ne_nil _ _) last_rstrip
        ((rstrip_isPrefix _).length_le.trans (List.length_take_le _ _))]
      refine ⟨fun _ => ⟨fun _ => hpad, hcut⟩, fun _ => ?_⟩
      rw [hf, hr]
      exact not_device_of_head hfletter
  · have hy := hdraft.of_prefix laws (rstrip_isPrefix _)
    by_cases hres : upper (rstrip (cleaned false t)) ∈ windowsReservedNames
    · -- a device, escaped
      obtain ⟨r, hr⟩ := cut_ne_nil (s := rstrip (cleaned false t)) (show edge '_' = false by decide)
        hlimit
      have hescaped : Draft nfkc ('_' :: rstrip (cleaned false t)) := hy.escape laws
      refine hidem (rstrip (('_' :: rstrip (cleaned false t)).take limit))
        (hescaped.cut laws limit) ?_ ?_
      · rw [hname, if_neg hnil]
        simp only [reserved_iff.mpr hres, if_true]
        rw [if_neg (by rw [hr]; exact List.cons_ne_nil _ _)]
      · rw [(hescaped.cut laws limit).component_iff (by rw [hr]; exact List.cons_ne_nil _ _)
          last_rstrip ((rstrip_isPrefix _).length_le.trans (List.length_take_le _ _))]
        refine ⟨fun _ => ⟨fun _ => not_padded_of_reserved hlimit hres,
          not_deviceCut_of_reserved hres⟩, fun _ => ?_⟩
        rw [hr]
        exact not_device_of_head (by decide)
    · have hnot : reserved (rstrip (cleaned false t)) = false := by
        rw [Bool.eq_false_iff]
        exact fun h => hres (reserved_iff.mp h)
      have hcutiff := reserved_cut_iff limit hres
      have hpadiff := cut_eq_nil_iff limit hnil
      by_cases hcut : rstrip ((rstrip (cleaned false t)).take limit) = []
      · -- the cut leaves nothing: the fallback, uncut
        refine hidem fallback (hfallback.draft laws) ?_ ?_
        · rw [hname, if_neg hnil]
          simp only [hnot, Bool.false_eq_true, if_false, hcut, if_true]
        · have hdevice : ¬ DeviceCut limit t := by
            rw [← hcutiff, hcut]
            exact fun h => ne_nil_of_device h rfl
          by_cases hlen : fallback.length ≤ limit
          · rw [(hfallback.draft laws).component_iff (by rw [hf]; exact List.cons_ne_nil _ _)
              hfallback.last_edge hlen]
            refine ⟨fun _ => ⟨fun h => by omega, hdevice⟩, fun _ => ?_⟩
            rw [hf]
            exact not_device_of_head hfletter
          · refine ⟨fun h => ?_, fun h => absurd (hpadiff.mp hcut) (h.1 (by omega))⟩
            have hfits : fallback.length ≤ limit := by exact_mod_cast h.fits
            omega
      · refine hidem (rstrip ((rstrip (cleaned false t)).take limit)) (hy.cut laws limit) ?_ ?_
        · rw [hname, if_neg hnil]
          simp only [hnot, Bool.false_eq_true, if_false, hcut]
        · rw [(hy.cut laws limit).component_iff hcut last_rstrip
            ((rstrip_isPrefix _).length_le.trans (List.length_take_le _ _)), hcutiff]
          exact ⟨fun h => ⟨fun _ hp => hcut (hpadiff.mpr hp), h⟩, fun h => h.2⟩

end Kept

/-! ## The two functions -/

/-- A name as it should be: a component of a path within `room` characters, and unchanged when the
function is applied to it. -/
def Sound (room : ℤ) (f : Text → Text) (value : Text) : Prop :=
  Component room (f value) ∧ f (f value) = f value

/-- Both functions, for every text and extension. -/
theorem safe_names_iff {nfkc : Text → Text} (laws : NfkcLaws nfkc) (value : Text) :
    (Sound 80 (safeSegment nfkc) value ↔ ¬ DeviceCut 80 (strip (nfkc value))) ∧
      ∀ extension : Text,
        Sound (organizationFilenameLimit - extension.length)
            (fun v => safeFilenameStem nfkc v extension) value ↔
          extension.length < organizationFilenameLimit ∧
          (organizationFilenameLimit < extension.length + 17 →
            ¬ padded false (organizationFilenameLimit - extension.length) (strip (nfkc value))) ∧
          ¬ DeviceCut (organizationFilenameLimit - extension.length) (strip (nfkc value)) := by
  constructor
  · have h := component_safeName_iff laws fallback_segment (show 0 < 80 by decide) value
    have hlen : (lit "Sin_clasificar").length = 14 := by decide
    rw [hlen] at h
    simpa [Sound, safeSegment] using h
  · intro extension
    have hlen : (lit "Documento tecnico").length = 17 := by decide
    by_cases hroom : extension.length < organizationFilenameLimit
    · have hlimit : max 1 (organizationFilenameLimit - extension.length) =
          organizationFilenameLimit - extension.length := by omega
      have h := component_safeName_iff laws fallback_stem
        (show 0 < organizationFilenameLimit - extension.length by omega) value
      have hcast : (organizationFilenameLimit : ℤ) - extension.length =
          ((organizationFilenameLimit - extension.length : ℕ) : ℤ) := by omega
      have hseventeen : organizationFilenameLimit - extension.length < 17 ↔
          organizationFilenameLimit < extension.length + 17 := by omega
      rw [hlen, hseventeen] at h
      simp only [Sound, safeFilenameStem, hlimit, hcast, hroom, true_and]
      exact h
    · refine ⟨fun h => ?_, fun h => absurd h.1 hroom⟩
      have hfits := h.1.fits
      have hpos := List.length_pos_of_ne_nil h.1.ne_nil
      omega

/-- A normalisation that has nothing to do, as NFKC on ASCII text. -/
theorem nfkcLaws_id : NfkcLaws fun t => t :=
  ⟨fun _ => rfl, fun _ _ _ _ => rfl, fun _ _ _ _ _ _ => rfl, fun _ _ => rfl⟩

theorem safe_names_iff_acta :
    (Sound 80 (safeSegment fun t => t) (lit "acta: mayo") ↔
        ¬ DeviceCut 80 (strip (lit "acta: mayo"))) ∧
      ∀ extension : Text,
        Sound (organizationFilenameLimit - extension.length)
            (fun v => safeFilenameStem (fun t => t) v extension) (lit "acta: mayo") ↔
          extension.length < organizationFilenameLimit ∧
          (organizationFilenameLimit < extension.length + 17 →
            ¬ padded false (organizationFilenameLimit - extension.length)
              (strip (lit "acta: mayo"))) ∧
          ¬ DeviceCut (organizationFilenameLimit - extension.length) (strip (lit "acta: mayo")) :=
  safe_names_iff nfkcLaws_id (lit "acta: mayo")

/-- `CON`, dots up to the limit, and one more letter: the cut strips it down to the device, and a
second application escapes it. -/
theorem dotted_device_unsafe :
    safeSegment (fun t => t) (lit "CON" ++ List.replicate 77 '.' ++ lit "x") = lit "CON" ∧
      safeSegment (fun t => t) (lit "CON") = lit "_CON" ∧
      ¬ Sound 80 (safeSegment fun t => t) (lit "CON" ++ List.replicate 77 '.' ++ lit "x") := by
  have hname : safeSegment (fun t => t) (lit "CON" ++ List.replicate 77 '.' ++ lit "x") =
      lit "CON" := by
    decide +kernel
  refine ⟨hname, by decide +kernel, fun h => ?_⟩
  have hdevice := h.1.notDevice
  rw [hname] at hdevice
  exact hdevice (reserved_iff.mp (by decide +kernel))

end Documents
end Neocortex
