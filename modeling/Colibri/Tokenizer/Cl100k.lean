import Colibri.Tokenizer.Pattern

/-!
# The cl100k split and its pattern

`split_cl100k` names, alternative by alternative, the pattern it stands for. The two cut a
text alike but for one thing: the pattern's contractions are matched with the case
ignored, so `'ſ` is one, and where a letter comes after it the pattern starts a new piece
that the code takes into this one (`split_cl100k_iff`).

* `first_cl100kLetters` is the alternative for letters, the one that the two patterns do not share;
  the others are in `Tokenizer.Pattern`.
* `cl100kMatch_longS` is the difference: the pattern takes `'ſ` off, the code does not.
-/

namespace Colibri.Tokenizer

open Rx

variable (T : Tables)

/-- `(?i:'s|'t|'re|'ve|'m|'ll|'d)|[^\r\n\p{L}\p{N}]?\p{L}+|\p{N}{1,3}|…` -/
def cl100kRegex : Regex Nat :=
  .alt contraction
    (.alt (.seq (.opt (letterPrefix T)) (.plus (.cls T.isL))) (commonAlternatives T))

/-- `'ſ` and then a letter. -/
def LongSWord (xs : List Nat) : Prop := ∃ c rest, xs = quote :: longS :: c :: rest ∧ T.isL c = true

variable {T}

/-- The alternative for letters takes what the code's branch takes. -/
theorem first_cl100kLetters (xs : List Nat) :
    (Regex.seq (.opt (letterPrefix T)) (.plus (.cls T.isL))).first xs
      = restAfter xs (cl100kLetters T xs) := by
  rw [first_seq_opt]
  cases xs with
  | nil => rfl
  | cons c rest =>
    rw [letterPrefix, first_seq_cls_cons, first_plus_cls, first_plus_cls, cl100kLetters,
      runLen_cons T.isL c rest]
    cases hL : T.isL c with
    | true =>
      -- a letter is no prefix
      have hno : ¬ (!isNl c && !true && !T.isN c) = true := by simp
      have hno' : ¬ (!true && !isNl c && !T.isN c) = true := by simp
      rw [if_neg hno, if_neg hno', if_pos rfl, if_pos rfl, if_neg (Nat.succ_ne_zero _)]
      rfl
    | false =>
      have hflip : (!isNl c && !false && !T.isN c) = (!false && !isNl c && !T.isN c) := by
        rw [Bool.and_comm (!isNl c)]
      rw [hflip]
      split
      · dsimp only
        split
        · rfl
        · rw [restAfter, Option.map_some, Nat.add_comm 1]
          rfl
      · rfl

/-- The length of the pattern's match. -/
def cl100kMatch (T : Tables) (xs : List Nat) : Nat :=
  let contraction := contractionLenBy simpleFold xs
  if contraction ≠ 0 then contraction
  else (cl100kLetters T xs <|> numberStep T xs <|> punctStep T xs <|> spaceStep T xs).getD
    safetyNet

/-- The pattern matches wherever there is something to match. -/
theorem first_cl100k (c : Nat) (rest : List Nat) :
    (cl100kRegex T).first (c :: rest) = some ((c :: rest).drop (cl100kMatch T (c :: rest))) := by
  rw [cl100kRegex, first_alt, first_alt, first_contraction, first_cl100kLetters, first_common,
    ← restAfter_or, cl100kMatch]
  split
  next h =>
    rw [if_neg (fun hne => hne h), Option.none_or]
    have hsome : (cl100kLetters T (c :: rest) <|> numberStep T (c :: rest) <|>
        punctStep T (c :: rest) <|> spaceStep T (c :: rest)).isSome := by
      rw [isSome_orElse, Bool.or_eq_true]
      cases hL : T.isL c with
      | true =>
        left
        rw [cl100kLetters, hL]
        rfl
      | false => exact Or.inr (common_covers hL rest)
    obtain ⟨n, hn⟩ := Option.isSome_iff_exists.mp hsome
    rw [hn]
    rfl
  next => rw [Option.some_or]

/-- The code's piece where a contraction `'ſ` starts: the quote as a prefix, and every
letter after it. -/
theorem cl100kStep_longS (rest : List Nat) :
    cl100kStep T (quote :: longS :: rest) = 2 + runLen T.isL rest := by
  have hprefix : (!T.isL quote && !isNl quote && !T.isN quote) = true := by
    rw [T.quote_notL, T.quote_notN]
    rfl
  have hrun : runLen T.isL (longS :: rest) = runLen T.isL rest + 1 := by
    rw [runLen_cons, if_pos T.longS_isL]
  have hletters : cl100kLetters T (quote :: longS :: rest) = some (2 + runLen T.isL rest) := by
    rw [cl100kLetters, if_pos hprefix, hrun]
    dsimp only
    rw [if_neg (Nat.succ_ne_zero _)]
    exact congrArg some (by omega)
  rw [cl100kStep, (contractionLenBy_longS rest).2, hletters]
  rfl

theorem cl100kMatch_longS (rest : List Nat) : cl100kMatch T (quote :: longS :: rest) = 2 := by
  rw [cl100kMatch, (contractionLenBy_longS rest).1]
  rfl

/-- **Where the match is the code's piece**: everywhere but at `'ſ` and a letter. -/
theorem cl100kMatch_eq_step_iff (xs : List Nat) :
    cl100kMatch T xs = cl100kStep T xs ↔ ¬ LongSWord T xs := by
  by_cases hlong : ∃ rest, xs = quote :: longS :: rest
  · obtain ⟨rest, rfl⟩ := hlong
    rw [cl100kMatch_longS, cl100kStep_longS]
    constructor
    · intro hlen hword
      obtain ⟨c, tail, hxs, hc⟩ := hword
      cases hxs
      rw [runLen_cons, if_pos hc] at hlen
      omega
    · intro hword
      cases rest with
      | nil => rfl
      | cons c tail =>
        rw [runLen_cons, if_neg (fun hc => hword ⟨c, tail, rfl, hc⟩)]
  · refine iff_of_true ?_ ?_
    · rw [cl100kMatch, cl100kStep,
        contractionLenBy_simpleFold fun rest h => hlong ⟨rest, h⟩]
    · intro hword
      obtain ⟨c, tail, hxs, -⟩ := hword
      exact hlong ⟨_, hxs⟩

/-- **When `split_cl100k` cuts as its pattern matches**: exactly if no match of the
pattern starts with `'ſ` and a letter after it; and it never loses anything. -/
theorem split_cl100k_iff (cp : List Nat) :
    (findAll (cl100kRegex T) cp = cl100kSpans T cp ↔
        ∀ s ∈ findAll (cl100kRegex T) cp, ¬ LongSWord T (cp.drop s.1)) ∧
      ((cl100kSpans T cp).map (spanText cp)).flatten = cp := by
  refine ⟨?_, (cl100kSpans_lossless cp).1⟩
  have hgood : ∀ x xs, ¬ LongSWord T (x :: xs) →
      (cl100kRegex T).first (x :: xs) = some ((x :: xs).drop (cl100kStep T (x :: xs))) := by
    intro x xs h
    rw [first_cl100k, (cl100kMatch_eq_step_iff _).mpr h]
  have hiff : findAll (cl100kRegex T) cp = cl100kSpans T cp ↔
      AllGood (cl100kStep T) (fun xs => ¬ LongSWord T xs) cp.length cp := by
    refine findFrom_eq_cutFrom_iff cl100kStep_fits hgood ?_ cp.length 0 cp
    intro x xs h rest hrest hlen
    obtain ⟨c, tail, hxs, hc⟩ := Classical.not_not.mp h
    rw [first_cl100k, hxs, cl100kMatch_longS] at hrest
    cases hrest
    rw [hxs, cl100kStep_longS, runLen_cons, if_pos hc] at hlen
    simp only [List.length_cons, List.length_drop] at hlen
    omega
  rw [hiff]
  constructor
  · intro hall
    rw [hiff.mpr hall]
    exact (allGood_iff cl100kStep_fits cp (Nat.le_refl cp.length) rfl).mp hall
  · intro h
    refine allGood_of_findFrom cl100kStep_fits hgood cp ?_ rfl h
    intro x xs _ _
    rw [first_cl100k]
    rfl

/-- `'ſx` is a contraction and a letter to the pattern, and one piece to the code. -/
theorem split_cl100k_longS :
    findAll (cl100kRegex asciiTables) [quote, longS, 'x'.toNat] = [(0, 2), (2, 3)] ∧
      cl100kSpans asciiTables [quote, longS, 'x'.toNat] = [(0, 3)] ∧
      findAll (cl100kRegex asciiTables) [quote, longS, 'x'.toNat]
        ≠ cl100kSpans asciiTables [quote, longS, 'x'.toNat] := by
  decide

end Colibri.Tokenizer
