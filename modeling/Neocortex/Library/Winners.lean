import Neocortex.Library.TopGroups

/-!
# Winners by code

The best items of the best groups, with a table in place of a dictionary and a heap.  A group has a
code.  A list is sorted by code and by score, the first item of each code is compared with the one
in the table, and the order of the keys is consulted at ties only.  The items on top are then cut
out by the score of the last of them.

* `heads`: the first items of each code, with those of the same code behind them;
* `mem_localWinners`: the winners of a list are its representatives;
* `BestOf.addBatch`: the table has the best item of each code;
* `ranked_selectTop`: the items on top, by a threshold;
* `BestOf.ranked_selectTop`: what is selected from the table is on top.
-/

namespace Neocortex
namespace Winners

open TopGroups

section Selection

variable {α ω σ : Type} [LinearOrder ω] [LinearOrder σ] {score : α → σ} {key : α → ω}

/-! ## Selection by a threshold -/

/-- The items in the order of their keys. -/
def ranked (key : α → ω) (l : List α) : List α := l.insertionSort fun a b => key a ≤ key b

theorem perm_ranked (l : List α) : (ranked key l).Perm l :=
  List.perm_insertionSort _ l

@[simp]
theorem mem_ranked {l : List α} {a : α} : a ∈ ranked key l ↔ a ∈ l := (perm_ranked l).mem_iff

theorem sorted_ranked {l : List α} (h : (l.map key).Nodup) :
    (ranked key l).Pairwise fun a b => key a < key b := sorted_keys h

theorem nodup_keys_of_sorted {l : List α} (h : l.Pairwise fun a b => key a < key b) :
    (l.map key).Nodup := List.pairwise_map.mpr (h.imp ne_of_lt)

theorem ranked_eq_of_perm {l m : List α} (h : (l.map key).Nodup) (hperm : l.Perm m) :
    ranked key l = ranked key m :=
  eq_of_sorted (sorted_ranked h) (sorted_ranked ((hperm.map key).nodup_iff.mp h))
    ((perm_ranked l).trans (hperm.trans (perm_ranked m).symm))

theorem ranked_eq_of_sorted {l m : List α} (h : l.Pairwise fun a b => key a < key b)
    (hperm : m.Perm l) : ranked key m = l :=
  eq_of_sorted (sorted_ranked ((hperm.map key).nodup_iff.mpr (nodup_keys_of_sorted h))) h
    ((perm_ranked m).trans hperm)

/-- The best items, as the score of the last of them cuts them out; the keys are asked for the items
of this score only. -/
def selectTop (score : α → σ) (key : α → ω) (limit : ℕ) (l : List α) : List α :=
  if l.length ≤ limit then l
  else
    match ((l.map score).insertionSort (· ≤ ·))[l.length - limit]? with
    | none => []
    | some threshold =>
      let above := l.filter fun a => threshold < score a
      let ties := l.filter fun a => score a = threshold
      let needed := limit - above.length
      above ++ if needed < ties.length then (ranked key ties).take needed else ties

/-- Fewer than `limit` scores are above the threshold, and at least `limit` of them reach it. -/
theorem countP_threshold {l : List σ} {limit : ℕ} {t : σ} (hlong : limit < l.length)
    (ht : (l.insertionSort (· ≤ ·))[l.length - limit]? = some t) :
    l.countP (fun s => t < s) < limit ∧ limit ≤ l.countP (fun s => t ≤ s) := by
  have hperm := List.perm_insertionSort (· ≤ ·) l
  have hsorted : (l.insertionSort (· ≤ ·)).Pairwise (· ≤ ·) := List.pairwise_insertionSort _ l
  have hlength : (l.insertionSort (· ≤ ·)).length = l.length := List.length_insertionSort _ l
  set asc := l.insertionSort (· ≤ ·)
  obtain ⟨hlt, hget⟩ := List.getElem?_eq_some_iff.mp ht
  have hsplit : asc = asc.take (l.length - limit) ++ t :: asc.drop (l.length - limit + 1) := by
    rw [← hget, List.cons_getElem_drop_succ, List.take_append_drop]
  have hdrop : (asc.drop (l.length - limit + 1)).length + 1 = limit := by
    rw [List.length_drop]
    omega
  rw [hsplit, List.pairwise_append, List.pairwise_cons] at hsorted
  obtain ⟨-, ⟨hafter, -⟩, hbefore⟩ := hsorted
  rw [← hperm.countP_eq, ← hperm.countP_eq, hsplit, List.countP_append, List.countP_append,
    List.countP_cons, List.countP_cons]
  constructor
  · have hzero : (asc.take (l.length - limit)).countP (fun s => t < s) = 0 := by
      rw [List.countP_eq_zero]
      intro s hs
      simpa using hbefore s hs t List.mem_cons_self
    have hle : (asc.drop (l.length - limit + 1)).countP (fun s => t < s) ≤
        (asc.drop (l.length - limit + 1)).length := List.countP_le_length
    rw [hzero, if_neg (by simp)]
    omega
  · have hall : (asc.drop (l.length - limit + 1)).countP (fun s => t ≤ s) =
        (asc.drop (l.length - limit + 1)).length := by
      rw [List.countP_eq_length]
      intro s hs
      exact decide_eq_true (hafter s hs)
    rw [hall, if_pos (by simp)]
    omega

/-- The selection has the items on top. -/
theorem ranked_selectTop (hmono : ∀ a b, score b < score a → key a < key b) {l : List α}
    (h : (l.map key).Nodup) {limit : ℕ} (hlimit : 0 < limit) :
    ranked key (selectTop score key limit l) = (ranked key l).take limit := by
  unfold selectTop
  split_ifs with hshort
  · rw [List.take_of_length_le]
    rw [(perm_ranked l).length_eq]
    exact hshort
  · have hlong : limit < (l.map score).length := by
      rw [List.length_map]
      omega
    cases ht : ((l.map score).insertionSort (· ≤ ·))[l.length - limit]? with
    | none =>
      rw [List.getElem?_eq_none_iff, List.length_insertionSort, List.length_map] at ht
      omega
    | some t =>
      obtain ⟨habove, hreach⟩ := countP_threshold hlong (by rw [List.length_map]; exact ht)
      dsimp only
      set above := l.filter fun a => t < score a with haboveDef
      set ties := l.filter fun a => score a = t with htiesDef
      set below := l.filter fun a => score a < t with hbelowDef
      have hsub : ∀ p : α → Bool, ((l.filter p).map key).Nodup := fun p =>
        h.sublist (List.filter_sublist.map key)
      have hsorted : (ranked key above ++ (ranked key ties ++ ranked key below)).Pairwise
          fun a b => key a < key b := by
        rw [List.pairwise_append, List.pairwise_append]
        refine ⟨sorted_ranked (hsub _), ⟨sorted_ranked (hsub _), sorted_ranked (hsub _), ?_⟩, ?_⟩
        · intro a ha b hb
          have hat := of_decide_eq_true (List.mem_filter.mp (mem_ranked.mp ha)).2
          have hbt := of_decide_eq_true (List.mem_filter.mp (mem_ranked.mp hb)).2
          exact hmono a b (hbt.trans_eq hat.symm)
        · intro a ha b hb
          have hat := of_decide_eq_true (List.mem_filter.mp (mem_ranked.mp ha)).2
          rcases List.mem_append.mp hb with hb | hb
          · have hbt := of_decide_eq_true (List.mem_filter.mp (mem_ranked.mp hb)).2
            exact hmono a b (hbt.trans_lt hat)
          · have hbt := of_decide_eq_true (List.mem_filter.mp (mem_ranked.mp hb)).2
            exact hmono a b (hbt.trans hat)
      have hperm : l.Perm (ranked key above ++ (ranked key ties ++ ranked key below)) := by
        rw [List.perm_ext_iff_of_nodup (nodup_of_keys h)
          (nodup_of_keys (nodup_keys_of_sorted hsorted))]
        intro a
        simp only [List.mem_append, mem_ranked, haboveDef, htiesDef, hbelowDef, List.mem_filter,
          decide_eq_true_eq]
        rcases lt_trichotomy t (score a) with hlt | heq | hgt
        · simp [hlt, hlt.ne', hlt.not_gt]
        · simp [heq]
        · simp [hgt, hgt.ne, hgt.not_gt]
      have habove' : above.length < limit := by
        rw [haboveDef, ← List.countP_eq_length_filter]
        rwa [List.countP_map] at habove
      have hreach' : limit ≤ above.length + ties.length := by
        have hbelow : (ranked key below).countP ((fun s => decide (t ≤ s)) ∘ score) = 0 := by
          rw [List.countP_eq_zero]
          intro b hb
          have hbt := of_decide_eq_true (List.mem_filter.mp (mem_ranked.mp hb)).2
          simpa using hbt
        rw [List.countP_map, hperm.countP_eq, List.countP_append, List.countP_append, hbelow,
          Nat.add_zero] at hreach
        refine hreach.trans (Nat.add_le_add ?_ ?_)
        · exact List.countP_le_length.trans_eq (perm_ranked above).length_eq
        · exact List.countP_le_length.trans_eq (perm_ranked ties).length_eq
      have hall : ranked key l = ranked key above ++ (ranked key ties ++ ranked key below) :=
        ranked_eq_of_sorted hsorted hperm
      have hties : (limit - above.length) - ties.length = 0 := by omega
      have htake : (ranked key l).take limit =
          ranked key above ++ (ranked key ties).take (limit - above.length) := by
        rw [hall, List.take_append, List.take_append, (perm_ranked above).length_eq,
          (perm_ranked ties).length_eq, hties, List.take_zero, List.append_nil,
          List.take_of_length_le]
        rw [(perm_ranked above).length_eq]
        omega
      rw [htake]
      refine ranked_eq_of_sorted ?_ ((perm_ranked above).symm.append ?_)
      · rw [← htake]
        exact (sorted_ranked h).sublist (List.take_sublist _ _)
      · split_ifs with hneeded
        · exact List.Perm.refl _
        · rw [List.take_of_length_le]
          · exact (perm_ranked ties).symm
          · rw [(perm_ranked ties).length_eq]
            omega

end Selection

section Heads

variable {α γ ρ : Type} [LinearOrder γ] [LinearOrder ρ] {code : α → γ} {place : α → ρ}

/-! ## The first items of each code -/

/-- The items in the order of their codes, and in the order of their places within a code. -/
def byCode (code : α → γ) (place : α → ρ) (l : List α) : List α :=
  l.insertionSort fun a b => toLex (code a, place a) ≤ toLex (code b, place b)

/-- The items whose code is not that of the item before them, each with the rest of its code. -/
def heads (code : α → γ) (before : Option γ) : List α → List (α × List α)
  | [] => []
  | a :: l =>
    if before = some (code a) then heads code (some (code a)) l
    else (a, l.takeWhile fun b => code b = code a) :: heads code (some (code a)) l

theorem perm_byCode (l : List α) : (byCode code place l).Perm l := List.perm_insertionSort _ l

theorem sorted_byCode (l : List α) : (byCode code place l).Pairwise
    fun a b => toLex (code a, place a) ≤ toLex (code b, place b) := List.pairwise_insertionSort _ l

theorem sorted_codes {l : List α}
    (h : l.Pairwise fun a b => toLex (code a, place a) ≤ toLex (code b, place b)) :
    l.Pairwise fun a b => code a ≤ code b :=
  h.imp fun hle => (Prod.Lex.le_iff'.mp hle).1

/-- In a list that is sorted by code, the items of the first code are in front. -/
theorem takeWhile_eq_filter {c : γ} : ∀ {l : List α}, l.Pairwise (fun a b => code a ≤ code b) →
    (∀ a ∈ l, c ≤ code a) → (l.takeWhile fun b => code b = c) = l.filter fun b => code b = c
  | [], _, _ => rfl
  | a :: l, h, hle => by
    obtain ⟨hhead, htail⟩ := List.pairwise_cons.mp h
    rw [List.takeWhile_cons, List.filter_cons]
    by_cases ha : code a = c
    · rw [if_pos (decide_eq_true ha), if_pos (decide_eq_true ha), takeWhile_eq_filter htail
        fun b hb => hle b (List.mem_cons_of_mem _ hb)]
    · have hlt : c < code a := lt_of_le_of_ne (hle a List.mem_cons_self) (Ne.symm ha)
      have hnone : (l.filter fun b => code b = c) = [] := by
        rw [List.filter_eq_nil_iff]
        intro b hb
        simpa using (hlt.trans_le (hhead b hb)).ne'
      rw [hnone]
      simp [ha]

/-- A head comes with all the items of its code. -/
theorem heads_sound : ∀ {l : List α} {before : Option γ},
    l.Pairwise (fun a b => code a ≤ code b) → (∀ a ∈ l, ∀ c ∈ before, c ≤ code a) →
    ∀ {a : α} {rest : List α}, (a, rest) ∈ heads code before l →
      before ≠ some (code a) ∧ (l.filter fun b => code b = code a) = a :: rest
  | [], _, _, _, _, _, hmem => absurd hmem List.not_mem_nil
  | b :: l, before, h, hbefore, a, rest, hmem => by
    obtain ⟨hhead, htail⟩ := List.pairwise_cons.mp h
    have hnext : ∀ a ∈ l, ∀ c ∈ some (code b), c ≤ code a := by
      rintro a ha c hc
      rw [← Option.some.inj hc]
      exact hhead a ha
    rw [heads] at hmem
    split_ifs at hmem with hsame
    · obtain ⟨hne, hfilter⟩ := heads_sound htail hnext hmem
      refine ⟨hsame ▸ hne, ?_⟩
      rw [List.filter_cons_of_neg, hfilter]
      simpa using fun heq : code b = code a => hne (congrArg some heq)
    · rcases List.mem_cons.mp hmem with heq | hmem
      · obtain ⟨rfl, rfl⟩ := Prod.mk.inj heq
        refine ⟨hsame, ?_⟩
        rw [List.filter_cons, if_pos (decide_eq_true rfl), takeWhile_eq_filter htail hhead]
      · obtain ⟨hne, hfilter⟩ := heads_sound htail hnext hmem
        have hcode : code b ≠ code a := fun heq => hne (congrArg some heq)
        refine ⟨?_, ?_⟩
        · rintro rfl
          have hle : code a ≤ code b := hbefore b List.mem_cons_self _ rfl
          have hmem' : a ∈ l.filter fun b => code b = code a := by
            rw [hfilter]
            exact List.mem_cons_self
          exact hcode (le_antisymm (hhead a (List.mem_filter.mp hmem').1) hle)
        · rw [List.filter_cons_of_neg (by simpa using hcode), hfilter]

/-- Every code has a head, but the one before. -/
theorem heads_complete : ∀ {l : List α} {before : Option γ} {a : α}, a ∈ l →
    before ≠ some (code a) → ∃ head ∈ heads code before l, code head.1 = code a
  | b :: l, before, a, hmem, hne => by
    rw [heads]
    by_cases hcode : code b = code a
    · rw [if_neg (hcode ▸ hne)]
      exact ⟨_, List.mem_cons_self, hcode⟩
    · have hl : a ∈ l := (List.mem_cons.mp hmem).resolve_left fun heq => hcode (heq ▸ rfl)
      obtain ⟨head, hhead, heq⟩ := heads_complete hl
        fun heq : some (code b) = some (code a) => hcode (Option.some.inj heq)
      split_ifs
      · exact ⟨head, hhead, heq⟩
      · exact ⟨head, List.mem_cons_of_mem _ hhead, heq⟩

end Heads

section Winners

variable {α γ ω ρ σ : Type} [LinearOrder γ] [LinearOrder ω] [LinearOrder ρ] [LinearOrder σ]
  {code : α → γ} {place : α → ρ} {score : α → σ} {key : α → ω}

/-! ## The winners of a list -/

/-- The winner of a code: its first item, or the best of those that tie with it when the ties are to
be resolved. -/
def winner (score : α → σ) (key : α → ω) (resolve : Bool) (a : α) (rest : List α) : α :=
  if resolve && (rest.head?.any fun b => score b = score a) then
    (((a :: rest).filter fun b => score b = score a).argmin key).getD a
  else a

/-- The winners of a list. -/
def localWinners (code : α → γ) (place : α → ρ) (score : α → σ) (key : α → ω) (resolve : Bool)
    (l : List α) : List α :=
  (heads code none (byCode code place l)).map fun head => winner score key resolve head.1 head.2

/-- The winner is the best item of a list in which the score does not increase; without a resolution
of the ties, the key does not decrease. -/
theorem winner_spec (hmono : ∀ a b, score b < score a → key a < key b) {resolve : Bool} {a : α}
    {rest : List α} (hscore : (a :: rest).Pairwise fun x y => score y ≤ score x)
    (hkey : resolve = false → ∀ x ∈ rest, key a ≤ key x) :
    winner score key resolve a rest ∈ a :: rest ∧
      ∀ x ∈ a :: rest, key (winner score key resolve a rest) ≤ key x := by
  obtain ⟨hfirst, hrest⟩ := List.pairwise_cons.mp hscore
  unfold winner
  split_ifs with hties
  · cases hmin : ((a :: rest).filter fun b => score b = score a).argmin key with
    | none =>
      have hnil := List.argmin_eq_none.mp hmin
      rw [List.filter_cons, if_pos (decide_eq_true rfl)] at hnil
      exact absurd hnil (List.cons_ne_nil _ _)
    | some w =>
      obtain ⟨hw, htie⟩ := List.mem_filter.mp (List.argmin_mem hmin)
      rw [decide_eq_true_eq] at htie
      refine ⟨hw, fun x hx => ?_⟩
      by_cases hsame : score x = score a
      · exact List.le_of_mem_argmin (List.mem_filter.mpr ⟨hx, decide_eq_true hsame⟩) hmin
      · have hle : score x ≤ score a := by
          rcases List.mem_cons.mp hx with rfl | hx
          · exact le_rfl
          · exact hfirst x hx
        exact (hmono w x (htie ▸ lt_of_le_of_ne hle hsame)).le
  · refine ⟨List.mem_cons_self, fun x hx => ?_⟩
    rcases List.mem_cons.mp hx with rfl | hx
    · exact le_rfl
    cases resolve with
    | false => exact hkey rfl x hx
    | true =>
      -- the second item has a smaller score, and so has every other one
      cases rest with
      | nil => exact absurd hx List.not_mem_nil
      | cons b rest =>
        rw [Bool.true_and, List.head?_cons, Option.any_some, decide_eq_true_eq] at hties
        have hb : score b < score a := lt_of_le_of_ne (hfirst b List.mem_cons_self) hties
        have hxb : score x ≤ score b := by
          rcases List.mem_cons.mp hx with rfl | hx
          · exact le_rfl
          · exact (List.pairwise_cons.mp hrest).1 x hx
        exact (hmono a x (hxb.trans_lt hb)).le

/-- The winners of a list are its representatives. -/
theorem mem_localWinners (hmono : ∀ a b, score b < score a → key a < key b)
    (hplace : ∀ a b, place a ≤ place b → score b ≤ score a) {resolve : Bool} {l : List α}
    (hkey : resolve = false → ∀ a ∈ l, ∀ b ∈ l, code a = code b → place a ≤ place b → key a ≤ key b)
    (h : (l.map key).Nodup) {w : α} :
    w ∈ localWinners code place score key resolve l ↔ w ∈ representatives code key l := by
  have hsorted : (byCode code place l).Pairwise
      fun a b => toLex (code a, place a) ≤ toLex (code b, place b) := sorted_byCode l
  have hcodes := sorted_codes hsorted
  have hmem : ∀ {x}, x ∈ byCode code place l ↔ x ∈ l := (perm_byCode l).mem_iff
  -- a head stands for the items of its code
  have hwinner : ∀ {a rest}, (a, rest) ∈ heads code none (byCode code place l) →
      winner score key resolve a rest ∈ representatives code key l ∧
        code (winner score key resolve a rest) = code a := by
    intro a rest hhead
    obtain ⟨-, hrun⟩ := heads_sound hcodes (by simp) hhead
    have hin : ∀ {x}, x ∈ a :: rest ↔ x ∈ l ∧ code x = code a := by
      intro x
      rw [← hrun, List.mem_filter, decide_eq_true_eq, hmem]
    have hplaces : (a :: rest).Pairwise fun x y => place x ≤ place y := by
      rw [← hrun, List.pairwise_filter]
      refine hsorted.imp fun {x y} hle hx hy => ?_
      have hsame : code x = code y := (of_decide_eq_true hx).trans (of_decide_eq_true hy).symm
      exact (Prod.Lex.le_iff'.mp hle).2 hsame
    have hfirst : resolve = false → ∀ x ∈ rest, key a ≤ key x := by
      intro hresolve x hx
      obtain ⟨hxl, hcode⟩ := hin.mp (List.mem_cons_of_mem _ hx)
      exact hkey hresolve a (hin.mp List.mem_cons_self).1 x hxl hcode.symm
        ((List.pairwise_cons.mp hplaces).1 x hx)
    obtain ⟨hw, hmin⟩ := winner_spec hmono (hplaces.imp fun {x y} => hplace x y) hfirst
    obtain ⟨hwl, hcode⟩ := hin.mp hw
    exact ⟨mem_representatives.mpr ⟨hwl, fun b hb hsame =>
      hmin b (hin.mpr ⟨hb, hsame.trans hcode⟩)⟩, hcode⟩
  rw [localWinners, List.mem_map]
  constructor
  · rintro ⟨⟨a, rest⟩, hhead, rfl⟩
    exact (hwinner hhead).1
  · intro hw
    obtain ⟨⟨a, rest⟩, hhead, hcode⟩ :
        ∃ head ∈ heads code none (byCode code place l), code head.1 = code w :=
      heads_complete (hmem.mpr (mem_representatives.mp hw).1) (by simp)
    obtain ⟨hrep, hsame⟩ := hwinner hhead
    exact ⟨_, hhead, representatives_unique h hrep hw (hsame.trans hcode)⟩

end Winners

section Table

variable {α γ ω ρ σ : Type} [LinearOrder γ] [LinearOrder ω] [LinearOrder ρ] [LinearOrder σ]
  {code : α → γ} {place : α → ρ} {score : α → σ} {key : α → ω}

/-! ## The table -/

/-- Whether an item is better than the one of its code in the table; the keys are asked for items of
one score only. -/
def better (score : α → σ) (key : α → ω) (old : Option α) (a : α) : Bool :=
  match old with
  | none => true
  | some b => score b < score a || (score a = score b && key a < key b)

/-- A winner enters the table. -/
def enter (code : α → γ) (score : α → σ) (key : α → ω) (best : γ → Option α) (a : α) :
    γ → Option α :=
  if better score key (best (code a)) a then Function.update best (code a) (some a) else best

/-- The table has the representatives. -/
def BestOf (code : α → γ) (key : α → ω) (best : γ → Option α) (seen : List α) : Prop :=
  ∀ c a, best c = some a ↔ a ∈ representatives code key seen ∧ code a = c

theorem better_some (hmono : ∀ a b, score b < score a → key a < key b) {a b : α} :
    better score key (some b) a = true ↔ key a < key b := by
  simp only [better, Bool.or_eq_true, Bool.and_eq_true, decide_eq_true_eq]
  constructor
  · rintro (hlt | ⟨-, hlt⟩)
    · exact hmono a b hlt
    · exact hlt
  · intro hlt
    rcases lt_trichotomy (score b) (score a) with hscore | hscore | hscore
    · exact Or.inl hscore
    · exact Or.inr ⟨hscore.symm, hlt⟩
    · exact absurd hlt (hmono b a hscore).not_gt

theorem bestOf_nil : BestOf code key (fun _ => none) [] := by
  intro c a
  simp [representatives]

theorem BestOf.absent {best : γ → Option α} {seen : List α} (h : BestOf code key best seen) {c : γ}
    (hnone : best c = none) {a : α} (ha : a ∈ seen) : code a ≠ c := by
  intro hcode
  obtain ⟨r, hr, hsame, -⟩ : ∃ r ∈ representatives code key seen, code r = code a ∧ key r ≤ key a :=
    exists_representative ha
  have hsome := (h c r).mpr ⟨hr, hsame.trans hcode⟩
  rw [hnone] at hsome
  exact absurd hsome (Option.some_ne_none r).symm

/-- One more item. -/
theorem BestOf.enter (hmono : ∀ a b, score b < score a → key a < key b) {best : γ → Option α}
    {seen : List α} {w : α} (h : BestOf code key best seen)
    (hinj : ∀ a ∈ seen ++ [w], ∀ b ∈ seen ++ [w], key a = key b → a = b) :
    BestOf code key (enter code score key best w) (seen ++ [w]) := by
  intro c a
  have hmem : a ∈ representatives code key (seen ++ [w]) →
      (a ∈ seen ∨ a = w) ∧ (∀ b ∈ seen, code b = code a → key a ≤ key b) ∧
        (code w = code a → key a ≤ key w) := by
    intro ha
    obtain ⟨ha, hmin⟩ := mem_representatives.mp ha
    exact ⟨by simpa using ha, fun b hb => hmin b (List.mem_append_left _ hb),
      hmin w (List.mem_append_right _ (List.mem_singleton_self w))⟩
  unfold Winners.enter
  by_cases hc : code w = c
  · subst hc
    cases hold : best (code w) with
    | none =>
      have hseen := fun {b} (hb : b ∈ seen) => h.absent hold hb
      have hfirst : better score key none w = true := rfl
      rw [if_pos hfirst, Function.update_self]
      constructor
      · intro heq
        rw [← Option.some.inj heq]
        exact ⟨mem_representatives_last fun b hb hsame => absurd hsame (hseen hb), rfl⟩
      · rintro ⟨ha, hcode⟩
        rcases (hmem ha).1 with hin | rfl
        · exact absurd hcode (hseen hin)
        · rfl
    | some o =>
      obtain ⟨ho, hcodeo⟩ := (h _ o).mp hold
      obtain ⟨hoin, homin⟩ := mem_representatives.mp ho
      by_cases hlt : key w < key o
      · rw [if_pos ((better_some hmono).mpr hlt), Function.update_self]
        constructor
        · intro heq
          rw [← Option.some.inj heq]
          exact ⟨mem_representatives_last fun b hb hsame =>
            hlt.le.trans (homin b hb (hsame.trans hcodeo.symm)), rfl⟩
        · rintro ⟨ha, hcode⟩
          obtain ⟨hin | rfl, -, hw⟩ := hmem ha
          · have hle := (homin a hin (hcode.trans hcodeo.symm)).trans (hw hcode.symm)
            exact absurd hlt (not_lt.mpr hle)
          · rfl
      · rw [if_neg fun hbetter => hlt ((better_some hmono).mp hbetter), hold]
        have hrep : o ∈ representatives code key (seen ++ [w]) :=
          mem_representatives_append ho fun _ => not_lt.mp hlt
        constructor
        · intro heq
          rw [← Option.some.inj heq]
          exact ⟨hrep, hcodeo⟩
        · rintro ⟨ha, hcode⟩
          obtain ⟨hain, hamin⟩ := mem_representatives.mp ha
          obtain ⟨hoin', homin'⟩ := mem_representatives.mp hrep
          have hkey := le_antisymm (homin' a hain (hcode.trans hcodeo.symm))
            (hamin o hoin' (hcodeo.trans hcode.symm))
          rw [hinj o hoin' a hain hkey]
  · have hother : (if better score key (best (code w)) w then
        Function.update best (code w) (some w) else best) c = best c := by
      split_ifs
      · exact Function.update_of_ne (Ne.symm hc) _ _
      · rfl
    rw [hother, h c a]
    constructor
    · rintro ⟨ha, rfl⟩
      exact ⟨mem_representatives_append ha fun hsame => absurd hsame hc, rfl⟩
    · rintro ⟨ha, rfl⟩
      obtain ⟨hin | rfl, hmin, -⟩ := hmem ha
      · exact ⟨mem_representatives.mpr ⟨hin, hmin⟩, rfl⟩
      · exact absurd rfl hc

theorem BestOf.enterAll (hmono : ∀ a b, score b < score a → key a < key b) :
    ∀ {ws : List α} {best : γ → Option α} {seen : List α}, BestOf code key best seen →
      (∀ a ∈ seen ++ ws, ∀ b ∈ seen ++ ws, key a = key b → a = b) →
      BestOf code key (ws.foldl (Winners.enter code score key) best) (seen ++ ws)
  | [], _, _, h, _ => by
    rw [List.append_nil]
    exact h
  | w :: ws, best, seen, h, hinj => by
    have hsplit : seen ++ w :: ws = seen ++ [w] ++ ws := List.append_cons _ _ _
    rw [hsplit] at hinj ⊢
    rw [List.foldl_cons]
    exact BestOf.enterAll hmono (BestOf.enter hmono h fun a ha b hb =>
      hinj a (List.mem_append_left _ ha) b (List.mem_append_left _ hb)) hinj

/-- The representatives of a list stand for it. -/
theorem representatives_winners {seen batch ws : List α}
    (hws : ∀ a, a ∈ ws ↔ a ∈ representatives code key batch) {a : α} :
    a ∈ representatives code key (seen ++ ws) ↔ a ∈ representatives code key (seen ++ batch) := by
  simp only [mem_representatives, List.mem_append]
  constructor
  · rintro ⟨ha, hmin⟩
    refine ⟨ha.imp_right fun ha => (mem_representatives.mp ((hws a).mp ha)).1, ?_⟩
    rintro b (hb | hb) hsame
    · exact hmin b (Or.inl hb) hsame
    · obtain ⟨r, hr, hgroup, hle⟩ :
          ∃ r ∈ representatives code key batch, code r = code b ∧ key r ≤ key b :=
        exists_representative hb
      exact (hmin r (Or.inr ((hws r).mpr hr)) (hgroup.trans hsame)).trans hle
  · rintro ⟨ha, hmin⟩
    refine ⟨ha.imp_right fun ha => (hws a).mpr (mem_representatives.mpr
      ⟨ha, fun b hb => hmin b (Or.inr hb)⟩), ?_⟩
    rintro b (hb | hb) hsame
    · exact hmin b (Or.inl hb) hsame
    · exact hmin b (Or.inr (mem_representatives.mp ((hws b).mp hb)).1) hsame

/-- The winners of a batch enter the table. -/
theorem BestOf.addBatch (hmono : ∀ a b, score b < score a → key a < key b)
    (hplace : ∀ a b, place a ≤ place b → score b ≤ score a) {resolve : Bool} {seen batch : List α}
    {best : γ → Option α}
    (hkey : resolve = false →
      ∀ a ∈ batch, ∀ b ∈ batch, code a = code b → place a ≤ place b → key a ≤ key b)
    (h : ((seen ++ batch).map key).Nodup) (hbest : BestOf code key best seen) :
    BestOf code key ((localWinners code place score key resolve batch).foldl
      (Winners.enter code score key) best) (seen ++ batch) := by
  have hbatch : (batch.map key).Nodup := h.sublist ((List.sublist_append_right _ _).map key)
  have hws : ∀ a, a ∈ localWinners code place score key resolve batch ↔
      a ∈ representatives code key batch := fun a => mem_localWinners hmono hplace hkey hbatch
  have hsub : ∀ a ∈ seen ++ localWinners code place score key resolve batch,
      a ∈ seen ++ batch := by
    intro a ha
    rw [List.mem_append] at ha ⊢
    exact ha.imp_right fun ha => (mem_representatives.mp ((hws a).mp ha)).1
  intro c a
  rw [BestOf.enterAll hmono hbest fun a ha b hb => eq_of_key h (hsub a ha) (hsub b hb),
    representatives_winners hws]

/-- The entries of the table are the representatives. -/
theorem BestOf.perm {best : γ → Option α} {seen : List α} {codes : List γ} (hcodes : codes.Nodup)
    (hall : ∀ a ∈ seen, code a ∈ codes) (h : (seen.map key).Nodup)
    (hbest : BestOf code key best seen) :
    (codes.filterMap best).Perm (representatives code key seen) := by
  have hnodup : (codes.filterMap best).Nodup := by
    refine hcodes.filterMap fun c d a hc hd => ?_
    exact ((hbest c a).mp hc).2.symm.trans ((hbest d a).mp hd).2
  refine (List.perm_ext_iff_of_nodup hnodup
    (nodup_of_keys (nodup_representatives_keys h))).mpr fun a => ?_
  rw [List.mem_filterMap]
  constructor
  · rintro ⟨c, -, hc⟩
    exact ((hbest c a).mp hc).1
  · intro ha
    exact ⟨code a, hall a (mem_representatives.mp ha).1, (hbest _ a).mpr ⟨ha, rfl⟩⟩

/-- What is selected from the table is on top. -/
theorem BestOf.ranked_selectTop (hmono : ∀ a b, score b < score a → key a < key b)
    {best : γ → Option α} {seen : List α} {codes : List γ} (hcodes : codes.Nodup)
    (hall : ∀ a ∈ seen, code a ∈ codes) (h : (seen.map key).Nodup)
    (hbest : BestOf code key best seen) {limit : ℕ} (hlimit : 0 < limit) :
    ranked key (selectTop score key limit (codes.filterMap best)) =
      topGroups code key limit seen := by
  have hperm := hbest.perm hcodes hall h
  have hkeys : ((codes.filterMap best).map key).Nodup :=
    (hperm.map key).nodup_iff.mpr (nodup_representatives_keys h)
  rw [Winners.ranked_selectTop hmono hkeys hlimit, ranked_eq_of_perm hkeys hperm]
  rfl

/-- Codes that tell the same groups apart give the same groups on top. -/
theorem topGroups_congr {κ : Type} [DecidableEq κ] {group : α → κ} {limit : ℕ} {l : List α}
    (h : ∀ a ∈ l, ∀ b ∈ l, code a = code b ↔ group a = group b) :
    topGroups code key limit l = topGroups group key limit l := by
  have hrep : representatives code key l = representatives group key l := by
    refine List.filter_congr fun a ha => ?_
    rw [decide_eq_decide]
    exact forall₂_congr fun b hb => imp_congr (h b hb a ha) Iff.rfl
  rw [topGroups, hrep]
  rfl

end Table

end Winners
end Neocortex
