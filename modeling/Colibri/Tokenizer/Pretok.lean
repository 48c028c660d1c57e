import Colibri.Lib.Regex

/-!
# The two pre-tokenizer splits

`split_cl100k` and `k3_piece_ends` cut a text, as code points, into the pieces the merges
then run on. Both are loops that take one piece off the rest of the text at a time; the
loop bodies are `cl100kStep` and `k3Step`, the length of the piece the rest starts with.
The Unicode tables are given, with the facts about the shipped ones that the splits rest
on.

A split loses nothing: its pieces are not empty and make up the text
(`cl100kSpans_lossless`, `k3Spans_lossless`).

`Fits` says of a branch that what it takes is not empty and in the text; there is a lemma for each
branch, and `cl100kStep_fits` and `k3Step_fits` are the steps.
-/

namespace Colibri.Tokenizer

open Rx

def isNl (c : Nat) : Bool := c == 13 || c == 10

/-- The code point of `'`. -/
def quote : Nat := 39

/-- The letters of `(?i:'s|'t|'re|'ve|'m|'ll|'d)`, in both cases. -/
def contractionLetters : List Nat :=
  ['s', 't', 'r', 'e', 'v', 'm', 'l', 'd', 'S', 'T', 'R', 'E', 'V', 'M', 'L', 'D'].map Char.toNat

/-- U+017F, the long s: a lower-case letter whose case folding is `s`. -/
def longS : Nat := 0x17F

/-- The Unicode tables, `\p{L}`, `\p{N}` and `\s` and the three of the Kimi-K3 pattern. -/
structure Tables where
  isL : Nat → Bool
  isN : Nat → Bool
  isS : Nat → Bool
  isHan : Nat → Bool
  isK3Upper : Nat → Bool
  isK3Lower : Nat → Bool
  nl_isS : ∀ c, isNl c = true → isS c = true
  space_isS : isS 32 = true
  isS_notL : ∀ c, isS c = true → isL c = false
  isN_notL : ∀ c, isN c = true → isL c = false
  quote_notL : isL quote = false
  quote_notN : isN quote = false
  longS_isL : isL longS = true
  contraction_lower : ∀ c ∈ contractionLetters, isK3Upper c = true ∨ isK3Lower c = true

/-- The shipped tables on ASCII and the long s. -/
def asciiTables : Tables where
  isL c := (65 ≤ c && c ≤ 90) || (97 ≤ c && c ≤ 122) || c == longS
  isN c := 48 ≤ c && c ≤ 57
  isS c := (9 ≤ c && c ≤ 13) || c == 32
  isHan _ := false
  isK3Upper c := 65 ≤ c && c ≤ 90
  isK3Lower c := (97 ≤ c && c ≤ 122) || c == longS
  nl_isS := by
    intro c h
    simp only [isNl, Bool.or_eq_true, beq_iff_eq] at h
    rcases h with rfl | rfl <;> rfl
  space_isS := rfl
  isS_notL := by
    intro c h
    simp only [Bool.or_eq_true, Bool.and_eq_true, decide_eq_true_eq, beq_iff_eq] at h
    simp only [longS, Bool.or_eq_false_iff, Bool.and_eq_false_iff, decide_eq_false_iff_not,
      beq_eq_false_iff_ne]
    omega
  isN_notL := by
    intro c h
    simp only [Bool.and_eq_true, decide_eq_true_eq] at h
    simp only [longS, Bool.or_eq_false_iff, Bool.and_eq_false_iff, decide_eq_false_iff_not,
      beq_eq_false_iff_ne]
    omega
  quote_notL := rfl
  quote_notN := rfl
  longS_isL := rfl
  contraction_lower := by decide

variable (T : Tables)

/-- A letter of the `\p{L}` table that is in none of the pattern's three classes is not
covered by the pattern. The tables were not made from one Unicode version, and the
shipped ones have such letters. -/
def Tables.covered (c : Nat) : Bool :=
  !T.isL c || T.isHan c || T.isK3Upper c || T.isK3Lower c

/-! ## What both splits look for -/

/-- `low`: ASCII letters to lower case. -/
def low (c : Nat) : Nat := if 65 ≤ c ∧ c ≤ 90 then c + 32 else c

/-- The length of a contraction at the start of the rest, letters compared by `fold`. -/
def contractionLenBy (fold : Nat → Nat) : List Nat → Nat
  | q :: d :: rest =>
    if q ≠ quote then 0
    else
      let two := match rest with
        | d2 :: _ => (fold d == 'r'.toNat && fold d2 == 'e'.toNat)
          || (fold d == 'v'.toNat && fold d2 == 'e'.toNat)
          || (fold d == 'l'.toNat && fold d2 == 'l'.toNat)
        | [] => false
      if two then 3
      else if fold d == 's'.toNat || fold d == 't'.toNat || fold d == 'm'.toNat
          || fold d == 'd'.toNat then 2
      else 0
  | _ => 0

/-- `contraction_len`; `split_cl100k` makes the same comparisons. -/
def contractionLen (xs : List Nat) : Nat := contractionLenBy low xs

/-- A character that is not white space, a letter or a number. -/
def Tables.isPunct (c : Nat) : Bool := !T.isS c && !T.isL c && !T.isN c

/-- The space before a run of punctuation. -/
def spaceBefore : List Nat → Nat
  | c :: d :: _ => if c == 32 && T.isPunct d then 1 else 0
  | _ => 0

/-- ` ?[^\s\p{L}\p{N}]+[\r\n]*` -/
def punctStep (xs : List Nat) : Option Nat :=
  let j := spaceBefore T xs
  let ys := xs.drop j
  let run := runLen T.isPunct ys
  if run = 0 then none else some (j + run + runLen isNl (ys.drop run))

/-- `rposition`: where the last letter of a class is. -/
def rposition {σ : Type} (p : σ → Bool) : List σ → Option Nat
  | [] => none
  | x :: xs => match rposition p xs with
    | some k => some (k + 1)
    | none => if p x then some 0 else none

/-- `\s*[\r\n]+`, then `\s+(?!\S)`, then `\s+`: up to the last newline of the white space,
or all but its last character, or that one. -/
def spaceStep (xs : List Nat) : Option Nat :=
  let r := runLen T.isS xs
  if r = 0 then none
  else match rposition isNl (xs.take r) with
    | some last => some (last + 1)
    | none =>
      let stop := if r < xs.length then r - 1 else r
      some (if stop = 0 then 1 else stop)

/-- `\p{N}{1,3}` -/
def numberStep (xs : List Nat) : Option Nat :=
  let run := runLen T.isN xs
  if run = 0 then none else some (min run 3)

/-- Where nothing matched: "shouldn't happen". -/
def safetyNet : Nat := 1

/-! ## cl100k -/

/-- `[^\r\n\p{L}\p{N}]? \p{L}+` -/
def cl100kLetters : List Nat → Option Nat
  | [] => none
  | c :: rest =>
    if !T.isL c && !isNl c && !T.isN c then
      let run := runLen T.isL rest
      if run = 0 then none else some (1 + run)
    else if T.isL c then some (runLen T.isL (c :: rest))
    else none

/-- The body of `split_cl100k`'s loop: the length of the piece the rest starts with. -/
def cl100kStep (xs : List Nat) : Nat :=
  let contraction := contractionLen xs
  if contraction ≠ 0 then contraction
  else (cl100kLetters T xs <|> numberStep T xs <|> punctStep T xs <|> spaceStep T xs).getD
    safetyNet

/-- `split_cl100k`: the pieces it hands to `bpe_piece`, as spans of the text. -/
def cl100kSpans (cp : List Nat) : List (Nat × Nat) := cutFrom (cl100kStep T) cp.length 0 cp

/-! ## Kimi-K3 -/

/-- `k3_alt2`, its loop: the longest upper-ish prefix, or a shorter one, with a lower-ish
character behind it. -/
def k3Alt2From (xs : List Nat) : Nat → Option Nat
  | 0 =>
    let run := runLen T.isK3Lower xs
    if run = 0 then none else some run
  | k + 1 =>
    let run := runLen T.isK3Lower (xs.drop (k + 1))
    if run = 0 then k3Alt2From xs k else some (k + 1 + run)

/-- `k3_alt2`: `[U]* [L]+`. -/
def k3Alt2 (xs : List Nat) : Option Nat := k3Alt2From T xs (runLen T.isK3Upper xs)

/-- `k3_alt3`: `[U]+ [L]*`. -/
def k3Alt3 (xs : List Nat) : Option Nat :=
  let run := runLen T.isK3Upper xs
  if run = 0 then none else some (run + runLen T.isK3Lower (xs.drop run))

/-- The alternatives 2 and 3 without their contraction: each with the prefix, then bare. -/
def k3Letters : List Nat → Option Nat
  | [] => none
  | c :: rest =>
    let canPrefix := !isNl c && !T.isL c && !T.isN c
    (if canPrefix then (k3Alt2 T rest).map (1 + ·) else none) <|> k3Alt2 T (c :: rest) <|>
      (if canPrefix then (k3Alt3 T rest).map (1 + ·) else none) <|> k3Alt3 T (c :: rest)

/-- The body of `k3_piece_ends`'s loop: the length of the piece the rest starts with. -/
def k3Step (xs : List Nat) : Nat :=
  let han := runLen T.isHan xs
  if han ≠ 0 then han
  else match k3Letters T xs with
    | some stop => stop + contractionLen (xs.drop stop)
    | none => (numberStep T xs <|> punctStep T xs <|> spaceStep T xs).getD safetyNet

/-- `k3_piece_ends`, each end with the one before it: the spans of the pieces. -/
def k3Spans (cp : List Nat) : List (Nat × Nat) := cutFrom (k3Step T) cp.length 0 cp

def k3PieceEnds (cp : List Nat) : List Nat := (k3Spans T cp).map Prod.snd

/-! ## Every piece fits -/

/-- The length of a piece: not empty, and within the rest of the text. -/
def Fits (xs : List Nat) (n : Nat) : Prop := 0 < n ∧ n ≤ xs.length

variable {xs : List Nat} {n : Nat}

theorem Fits.of_drop {j : Nat} (hn : 0 < n) (h : n ≤ (xs.drop j).length) :
    Fits xs (j + n) := by
  rw [List.length_drop] at h
  exact ⟨by omega, by omega⟩

theorem contractionLenBy_le (fold : Nat → Nat) (xs : List Nat) :
    contractionLenBy fold xs ≤ xs.length := by
  match xs with
  | [] => exact Nat.le_refl _
  | [_] => exact Nat.zero_le _
  | [q, d] =>
    simp only [contractionLenBy, Bool.false_eq_true, if_false, List.length_cons, List.length_nil]
    repeat' split
    all_goals omega
  | q :: d :: d2 :: rest =>
    simp only [contractionLenBy, List.length_cons]
    repeat' split
    all_goals omega

variable {T}

theorem punctStep_fits (h : punctStep T xs = some n) : Fits xs n := by
  unfold punctStep at h
  dsimp only at h
  split at h
  · cases h
  next hrun =>
    cases h
    rw [Nat.add_assoc]
    refine Fits.of_drop (Nat.add_pos_left (Nat.pos_of_ne_zero hrun) _) ?_
    have hrest := runLen_le isNl
      ((xs.drop (spaceBefore T xs)).drop (runLen T.isPunct (xs.drop (spaceBefore T xs))))
    have hle := runLen_le T.isPunct (xs.drop (spaceBefore T xs))
    rw [List.length_drop] at hrest
    omega

theorem rposition_lt {σ : Type} {p : σ → Bool} {xs : List σ} {k : Nat}
    (h : rposition p xs = some k) : k < xs.length := by
  induction xs generalizing k with
  | nil => cases h
  | cons x xs ih =>
    rw [rposition] at h
    split at h
    next j hj =>
      cases h
      exact Nat.succ_lt_succ (ih hj)
    · split at h
      · cases h
        exact Nat.succ_pos _
      · cases h

/-- What the branch for white space takes fits. -/
theorem spaceStep_fits (h : spaceStep T xs = some n) : Fits xs n := by
  unfold spaceStep at h
  dsimp only at h
  have hle := runLen_le T.isS xs
  split at h
  · cases h
  next hrun =>
    split at h
    next last hlast =>
      cases h
      have hlt := rposition_lt hlast
      rw [List.length_take] at hlt
      exact ⟨Nat.succ_pos _, by omega⟩
    next =>
      cases h
      have hstop : (if runLen T.isS xs < xs.length then runLen T.isS xs - 1 else runLen T.isS xs)
          ≤ xs.length := by
        split <;> omega
      generalize (if runLen T.isS xs < xs.length then runLen T.isS xs - 1
        else runLen T.isS xs) = stop at hstop ⊢
      split
      · exact ⟨Nat.one_pos, by omega⟩
      next hne => exact ⟨Nat.pos_of_ne_zero hne, hstop⟩

theorem numberStep_fits (h : numberStep T xs = some n) : Fits xs n := by
  unfold numberStep at h
  dsimp only at h
  have hle := runLen_le T.isN xs
  split at h
  · cases h
  · cases h
    exact ⟨by omega, by omega⟩

theorem cl100kLetters_fits (h : cl100kLetters T xs = some n) :
    Fits xs n := by
  cases xs with
  | nil => cases h
  | cons c rest =>
    rw [cl100kLetters] at h
    split at h
    · dsimp only at h
      split at h
      · cases h
      · cases h
        have hle := runLen_le T.isL rest
        exact ⟨by omega, by rw [List.length_cons]; omega⟩
    · split at h
      next hL =>
        cases h
        refine ⟨?_, runLen_le _ _⟩
        rw [runLen_cons, if_pos hL]
        exact Nat.succ_pos _
      · cases h

theorem k3Alt2From_fits {k : Nat} (h : k3Alt2From T xs k = some n) :
    Fits xs n := by
  induction k with
  | zero =>
    simp only [k3Alt2From] at h
    split at h
    · cases h
    · cases h
      exact ⟨by omega, runLen_le _ _⟩
  | succ k ih =>
    simp only [k3Alt2From] at h
    split at h
    · exact ih h
    · cases h
      exact Fits.of_drop (by omega) (runLen_le _ _)

theorem k3Alt3_fits (h : k3Alt3 T xs = some n) : Fits xs n := by
  unfold k3Alt3 at h
  dsimp only at h
  split at h
  · cases h
  next hrun =>
    cases h
    have hrest := runLen_le T.isK3Lower (xs.drop (runLen T.isK3Upper xs))
    have hle := runLen_le T.isK3Upper xs
    rw [List.length_drop] at hrest
    exact ⟨by omega, by omega⟩

theorem Fits.cons {c : Nat} (h : Fits xs n) : Fits (c :: xs) (1 + n) :=
  ⟨by omega, by rw [List.length_cons]; have := h.2; omega⟩

theorem of_orElse {σ : Type} {P : σ → Prop} {n : σ} {a b : Option σ} (ha : ∀ m, a = some m → P m)
    (hb : ∀ m, b = some m → P m) (h : (a <|> b) = some n) : P n := by
  cases a with
  | none => exact hb n h
  | some m => exact ha n h

/-- The prefix and then a letter run. -/
theorem Fits.of_prefix {c : Nat} {b : Bool} {a : Option Nat}
    (ha : ∀ m, a = some m → Fits xs m) (h : (if b then a.map (1 + ·) else none) = some n) :
    Fits (c :: xs) n := by
  split at h
  · obtain ⟨m, hm, rfl⟩ := Option.map_eq_some_iff.mp h
    exact (ha m hm).cons
  · cases h

theorem k3Letters_fits (h : k3Letters T xs = some n) : Fits xs n := by
  cases xs with
  | nil => cases h
  | cons c rest =>
    refine of_orElse (fun m => Fits.of_prefix fun _ => k3Alt2From_fits) (fun m => ?_) h
    refine of_orElse (fun _ => k3Alt2From_fits) (fun m => ?_)
    exact of_orElse (fun _ => Fits.of_prefix fun _ => k3Alt3_fits) (fun _ => k3Alt3_fits)

theorem tail_fits (c : Nat) (xs : List Nat) : Fits (c :: xs)
    ((numberStep T (c :: xs) <|> punctStep T (c :: xs) <|> spaceStep T (c :: xs)).getD
      safetyNet) := by
  cases h : (numberStep T (c :: xs) <|> punctStep T (c :: xs) <|> spaceStep T (c :: xs)) with
  | none => exact ⟨Nat.one_pos, Nat.succ_pos _⟩
  | some n =>
    refine of_orElse (fun _ => numberStep_fits) (fun m => ?_) h
    exact of_orElse (fun _ => punctStep_fits) (fun _ => spaceStep_fits)

/-- **A piece of cl100k** fits. -/
theorem cl100kStep_fits (c : Nat) (xs : List Nat) :
    Fits (c :: xs) (cl100kStep T (c :: xs)) := by
  unfold cl100kStep
  dsimp only
  split
  next h => exact ⟨Nat.pos_of_ne_zero h, contractionLenBy_le _ _⟩
  next =>
    cases h : cl100kLetters T (c :: xs) with
    | none => exact tail_fits c xs
    | some n => exact cl100kLetters_fits h

/-- **A piece of K3** fits. -/
theorem k3Step_fits (c : Nat) (xs : List Nat) : Fits (c :: xs) (k3Step T (c :: xs)) := by
  unfold k3Step
  dsimp only
  split
  next h => exact ⟨Nat.pos_of_ne_zero h, runLen_le _ _⟩
  next =>
    split
    next stop h =>
      have hfits := k3Letters_fits h
      have hle : contractionLen ((c :: xs).drop stop) ≤ ((c :: xs).drop stop).length :=
        contractionLenBy_le _ _
      rw [List.length_drop] at hle
      have h₁ := hfits.1
      have h₂ := hfits.2
      exact ⟨by omega, by omega⟩
    next => exact tail_fits c xs

/-- **Nothing is lost by `split_cl100k`**, and no piece is empty. -/
theorem cl100kSpans_lossless (cp : List Nat) :
    ((cl100kSpans T cp).map (spanText cp)).flatten = cp ∧ ∀ s ∈ cl100kSpans T cp, s.1 < s.2 :=
  cutFrom_lossless cl100kStep_fits (Nat.le_refl _) rfl

/-- **Nothing is lost by `k3_piece_ends`**, and no piece is empty. -/
theorem k3Spans_lossless (cp : List Nat) :
    ((k3Spans T cp).map (spanText cp)).flatten = cp ∧ ∀ s ∈ k3Spans T cp, s.1 < s.2 :=
  cutFrom_lossless k3Step_fits (Nat.le_refl _) rfl

end Colibri.Tokenizer
