import Colibri.Tokenizer.Pattern

/-!
# The Kimi-K3 split and its pattern

`k3_piece_ends` matches the eight alternatives of the documented pattern by hand. It cuts
as a backtracking engine does, but for two things: a contraction `'ſ`, which the pattern
takes with the letters before it, and letters that are in none of the pattern's classes,
where the pattern does not match at all (`k3_piece_ends_iff`).

`first_k3` is what the pattern matches, alternative by alternative, and `CoveredUpTo` says that the
letters of a match are in the classes: the `..._covered` lemmas are about the code's branches, and
`allGood_covered` about a whole text.
-/

namespace Colibri.Tokenizer

open Rx

variable (T : Tables)

/-- `[U]*[L]+(?i:'s|'t|'re|'ve|'m|'ll|'d)?` -/
def alt2Body : Regex Nat :=
  .seq (.star (.cls T.isK3Upper)) (.seq (.plus (.cls T.isK3Lower)) (.opt contraction))

/-- `[U]+[L]*(?i:'s|'t|'re|'ve|'m|'ll|'d)?` -/
def alt3Body : Regex Nat :=
  .seq (.plus (.cls T.isK3Upper)) (.seq (.star (.cls T.isK3Lower)) (.opt contraction))

/-- The eight alternatives. -/
def k3Regex : Regex Nat :=
  .alt (.plus (.cls T.isHan))
    (.alt (.seq (.opt (letterPrefix T)) (alt2Body T))
      (.alt (.seq (.opt (letterPrefix T)) (alt3Body T)) (commonAlternatives T)))

/-- The letters of alternative 2 or 3, and then `'ſ`. -/
def LettersThenLongS (xs : List Nat) : Prop :=
  runLen T.isHan xs = 0 ∧
    ∃ stop rest, k3Letters T xs = some stop ∧ xs.drop stop = quote :: longS :: rest

/-- The length of the pattern's contraction. -/
def contractionMatch (xs : List Nat) : Nat := contractionLenBy simpleFold xs

/-- What is left after `n` letters and a contraction. -/
def afterLetters (xs : List Nat) (n : Nat) : List Nat :=
  xs.drop (n + contractionMatch (xs.drop n))

theorem afterLetters_drop (xs : List Nat) (k n : Nat) :
    afterLetters (xs.drop k) n = afterLetters xs (k + n) := by
  rw [afterLetters, afterLetters, List.drop_drop, List.drop_drop, Nat.add_assoc]

variable {T}

/-! ## Letters -/

theorem first_opt_contraction (xs : List Nat) :
    (Regex.opt contraction).first xs = some (xs.drop (contractionMatch xs)) := by
  rw [first_opt, first_contraction, contractionMatch]
  split
  next h =>
    rw [h]
    rfl
  next => rfl

theorem first_lowerRun (xs : List Nat) :
    (Regex.seq (.plus (.cls T.isK3Lower)) (.opt contraction)).first xs
      = if runLen T.isK3Lower xs = 0 then none
        else some (afterLetters xs (runLen T.isK3Lower xs)) := by
  rw [first_seq_plus_cls_total _ (total_opt _), first_opt_contraction, List.drop_drop]
  rfl

/-- `k3_alt2` is what giving back upper-ish characters finds. -/
theorem giveBack_lowerRun (xs : List Nat) (k : Nat) :
    giveBack (Regex.seq (.plus (.cls T.isK3Lower)) (.opt contraction)).first xs k
      = (k3Alt2From T xs k).map (afterLetters xs) := by
  induction k with
  | zero =>
    rw [giveBack, first_lowerRun, k3Alt2From]
    split <;> rfl
  | succ k ih =>
    rw [giveBack, first_lowerRun, ih, k3Alt2From]
    split
    · rfl
    · rw [Option.some_or, Option.map_some, afterLetters_drop]

theorem first_alt2Body (xs : List Nat) :
    (alt2Body T).first xs = (k3Alt2 T xs).map (afterLetters xs) := by
  rw [alt2Body, first_seq_star_cls, giveBack_lowerRun, k3Alt2]

theorem first_alt3Body (xs : List Nat) :
    (alt3Body T).first xs = (k3Alt3 T xs).map (afterLetters xs) := by
  have htotal : (Regex.seq (.star (.cls T.isK3Lower)) (.opt contraction)).Total := by
    intro ys
    rw [first_seq_star_cls_total _ (total_opt _), first_opt_contraction]
    rfl
  rw [alt3Body, first_seq_plus_cls_total _ htotal, k3Alt3]
  split
  · rfl
  · rw [first_seq_star_cls_total _ (total_opt _), first_opt_contraction, Option.map_some,
      ← afterLetters_drop, afterLetters, List.drop_drop]

theorem first_prefixed (body : Regex Nat) (c : Nat) (rest : List Nat) :
    (Regex.seq (.opt (letterPrefix T)) body).first (c :: rest)
      = (if !isNl c && !T.isL c && !T.isN c then body.first rest else none).or
          (body.first (c :: rest)) := by
  rw [first_seq_opt, letterPrefix, first_seq_cls_cons]

/-- Alternatives 2 and 3. -/
theorem first_letters (c : Nat) (rest : List Nat) :
    ((Regex.seq (.opt (letterPrefix T)) (alt2Body T)).first (c :: rest)).or
        ((Regex.seq (.opt (letterPrefix T)) (alt3Body T)).first (c :: rest))
      = (k3Letters T (c :: rest)).map (afterLetters (c :: rest)) := by
  have hshift : ∀ a : Option Nat, a.map (afterLetters rest)
      = (a.map (1 + ·)).map (afterLetters (c :: rest)) := by
    intro a
    rw [Option.map_map]
    exact congrArg (a.map ·) (funext fun n => afterLetters_drop (c :: rest) 1 n)
  rw [first_prefixed, first_prefixed, first_alt2Body, first_alt2Body, first_alt3Body,
    first_alt3Body, hshift, hshift, k3Letters]
  cases !isNl c && !T.isL c && !T.isN c
  · cases k3Alt2 T (c :: rest) <;> rfl
  · cases k3Alt2 T rest with
    | some n => rfl
    | none =>
      cases k3Alt2 T (c :: rest) with
      | some n => rfl
      | none => cases k3Alt3 T rest <;> rfl

/-- The length of the pattern's match. -/
def k3Match (T : Tables) (xs : List Nat) : Option Nat :=
  let han := runLen T.isHan xs
  if han ≠ 0 then some han
  else match k3Letters T xs with
    | some stop => some (stop + contractionMatch (xs.drop stop))
    | none => numberStep T xs <|> punctStep T xs <|> spaceStep T xs

/-- **The pattern's match** at a place. -/
theorem first_k3 (c : Nat) (rest : List Nat) :
    (k3Regex T).first (c :: rest) = restAfter (c :: rest) (k3Match T (c :: rest)) := by
  have hmiddle : ∀ a b d e : Option (List Nat), a.or (b.or (d.or e)) = a.or ((b.or d).or e) := by
    intro a b d e
    rw [Option.or_assoc]
  rw [k3Regex, first_alt, first_alt, first_alt, hmiddle, first_letters, first_common,
    first_plus_cls, k3Match]
  split
  next h =>
    rw [if_neg (fun hne => hne h), Option.none_or]
    cases k3Letters T (c :: rest) <;> rfl
  next => rw [Option.some_or, restAfter, Option.map_some]

/-! ## Match and piece -/

variable {c n : Nat} {xs : List Nat}

/-- The code takes letters that are in a class. -/
theorem k3Letters_isSome (hc : T.isK3Upper c = true ∨ T.isK3Lower c = true)
    (rest : List Nat) : (k3Letters T (c :: rest)).isSome := by
  have hbare : (k3Alt2 T (c :: rest)).isSome ∨ (k3Alt3 T (c :: rest)).isSome := by
    rcases hc with hU | hL
    · right
      rw [k3Alt3, runLen_cons, if_pos hU]
      rfl
    · left
      rw [k3Alt2]
      generalize runLen T.isK3Upper (c :: rest) = k
      induction k with
      | zero =>
        rw [k3Alt2From, runLen_cons, if_pos hL]
        rfl
      | succ k ih =>
        rw [k3Alt2From]
        split
        · exact ih
        · rfl
  rw [k3Letters, isSome_orElse, isSome_orElse, isSome_orElse]
  rcases hbare with h | h
  · rw [h, Bool.true_or, Bool.or_true]
  · rw [h, Bool.or_true, Bool.or_true, Bool.or_true]

/-- Where the pattern covers the text and no `'ſ` follows, the match is the code's piece. -/
theorem k3Match_eq_step {x : Nat} (hx : T.covered x = true)
    (h : ¬ LettersThenLongS T (x :: xs)) : k3Match T (x :: xs) = some (k3Step T (x :: xs)) := by
  rw [k3Match, k3Step]
  split
  next => rfl
  next hhan =>
    have hhan : runLen T.isHan (x :: xs) = 0 := Decidable.not_not.mp hhan
    cases hletters : k3Letters T (x :: xs) with
    | some stop =>
      have hfold : contractionMatch ((x :: xs).drop stop) = contractionLen ((x :: xs).drop stop) :=
        contractionLenBy_simpleFold fun rest hrest => h ⟨hhan, stop, rest, hletters, hrest⟩
      dsimp only
      rw [hfold]
    | none =>
      -- no letter starts here, so one of the shared alternatives does
      have hL : T.isL x = false := by
        cases hL : T.isL x with
        | false => rfl
        | true =>
          have hnoHan : T.isHan x = false := by
            rw [runLen_cons] at hhan
            split at hhan
            · cases hhan
            next hno => exact eq_false_of_ne_true hno
          rw [Tables.covered, hL, hnoHan, Bool.not_true, Bool.false_or, Bool.false_or,
            Bool.or_eq_true] at hx
          have hsome := k3Letters_isSome hx xs
          rw [hletters] at hsome
          cases hsome
      obtain ⟨n, hn⟩ := Option.isSome_iff_exists.mp (common_covers hL xs)
      dsimp only
      rw [hn]
      rfl

/-- Where `'ſ` follows, the code leaves it and the match takes it. -/
theorem k3Match_longS (h : LettersThenLongS T xs) :
    k3Match T xs = some (k3Step T xs + 2) ∧ k3Step T xs + 2 ≤ xs.length := by
  obtain ⟨hhan, stop, rest, hletters, hrest⟩ := h
  have hstep : k3Step T xs = stop := by
    rw [k3Step, hhan, hletters]
    dsimp only
    rw [if_neg (fun hne => hne rfl), hrest, (contractionLenBy_longS rest).2, Nat.add_zero]
  have hmatch : k3Match T xs = some (stop + 2) := by
    rw [k3Match, hhan, hletters]
    dsimp only
    rw [if_neg (fun hne => hne rfl), hrest, contractionMatch, (contractionLenBy_longS rest).1]
  have hlen := congrArg List.length hrest
  rw [List.length_drop, List.length_cons, List.length_cons] at hlen
  rw [hstep, hmatch]
  exact ⟨rfl, by omega⟩

/-- A letter outside the pattern's classes: the pattern does not match there. -/
theorem k3Match_uncovered {x : Nat} (hx : T.covered x = false) :
    k3Match T (x :: xs) = none := by
  rw [Tables.covered, Bool.or_eq_false_iff, Bool.or_eq_false_iff, Bool.or_eq_false_iff,
    Bool.not_eq_false'] at hx
  obtain ⟨⟨⟨hL, hhan⟩, hU⟩, hLow⟩ := hx
  have hN : T.isN x = false := by
    cases h : T.isN x with
    | false => rfl
    | true =>
      rw [T.isN_notL x h] at hL
      cases hL
  have hS : T.isS x = false := by
    cases h : T.isS x with
    | false => rfl
    | true =>
      rw [T.isS_notL x h] at hL
      cases hL
  have hnone : ∀ {p : Nat → Bool}, p x = false → runLen p (x :: xs) = 0 := by
    intro p hp
    rw [runLen_cons, hp]
    rfl
  have hpunct : T.isPunct x = false := by
    rw [Tables.isPunct, hL, Bool.not_true, Bool.and_false, Bool.false_and]
  have hspace : spaceBefore T (x :: xs) = 0 := by
    have hx : x ≠ 32 := by
      intro hx
      rw [hx, T.space_isS] at hS
      cases hS
    cases xs with
    | nil => rfl
    | cons d rest =>
      rw [spaceBefore, beq_false_of_ne hx]
      rfl
  have halt2 : k3Alt2 T (x :: xs) = none := by
    rw [k3Alt2, hnone hU, k3Alt2From, hnone hLow]
    rfl
  have halt3 : k3Alt3 T (x :: xs) = none := by
    rw [k3Alt3, hnone hU]
    rfl
  have hletters : k3Letters T (x :: xs) = none := by
    rw [k3Letters, halt2, halt3, hL, Bool.not_true, Bool.and_false, Bool.false_and]
    rfl
  rw [k3Match, hnone hhan, hletters, numberStep, hnone hN, punctStep, hspace, List.drop_zero,
    hnone hpunct, spaceStep, hnone hS]
  rfl

/-! ## What a piece is made of -/

/-- The pattern covers the first `n` characters. -/
def CoveredUpTo (T : Tables) (xs : List Nat) (n : Nat) : Prop :=
  ∀ c ∈ xs.take n, T.covered c = true

theorem CoveredUpTo.add {a b : Nat} (ha : CoveredUpTo T xs a)
    (hb : CoveredUpTo T (xs.drop a) b) : CoveredUpTo T xs (a + b) := by
  intro c hc
  rw [List.take_add] at hc
  rcases List.mem_append.mp hc with hc | hc
  · exact ha c hc
  · exact hb c hc

theorem CoveredUpTo.of_run {p : Nat → Bool} (hp : ∀ c, p c = true → T.covered c = true)
    (hn : n ≤ runLen p xs) : CoveredUpTo T xs n :=
  fun c hc => hp c (of_mem_take_run hn hc)

theorem CoveredUpTo.zero (xs : List Nat) : CoveredUpTo T xs 0 := fun c hc => by cases hc

theorem CoveredUpTo.cons (hc : T.covered c = true)
    (h : CoveredUpTo T xs n) : CoveredUpTo T (c :: xs) (n + 1) := by
  intro d hd
  rw [List.take_succ_cons] at hd
  rcases List.mem_cons.mp hd with rfl | hd
  · exact hc
  · exact h d hd

theorem CoveredUpTo.head (hc : T.covered c = true) (xs : List Nat) :
    CoveredUpTo T (c :: xs) 1 :=
  (CoveredUpTo.zero xs).cons hc

theorem covered_of_notL (h : T.isL c = false) : T.covered c = true := by
  rw [Tables.covered, h]
  rfl

theorem covered_of_han (h : T.isHan c = true) : T.covered c = true := by
  rw [Tables.covered, h, Bool.or_true]
  rfl

theorem covered_of_upper (h : T.isK3Upper c = true) : T.covered c = true := by
  rw [Tables.covered, h, Bool.or_true]
  rfl

theorem covered_of_lower (h : T.isK3Lower c = true) : T.covered c = true := by
  rw [Tables.covered, h, Bool.or_true]

theorem covered_of_space (h : T.isS c = true) : T.covered c = true :=
  covered_of_notL (T.isS_notL c h)

theorem covered_of_punct (h : T.isPunct c = true) : T.covered c = true := by
  rw [Tables.isPunct, Bool.and_eq_true, Bool.and_eq_true, Bool.not_eq_true'] at h
  exact covered_of_notL (by simpa using h.1.2)

theorem k3Alt2From_covered {k : Nat} (hk : k ≤ runLen T.isK3Upper xs)
    (h : k3Alt2From T xs k = some n) : CoveredUpTo T xs n := by
  induction k with
  | zero =>
    rw [k3Alt2From] at h
    split at h
    · cases h
    · cases h
      exact CoveredUpTo.of_run (fun _ => covered_of_lower) (Nat.le_refl _)
  | succ k ih =>
    rw [k3Alt2From] at h
    split at h
    · exact ih (Nat.le_of_succ_le hk) h
    · cases h
      exact (CoveredUpTo.of_run (fun _ => covered_of_upper) hk).add
        (CoveredUpTo.of_run (fun _ => covered_of_lower) (Nat.le_refl _))

theorem k3Alt3_covered (h : k3Alt3 T xs = some n) :
    CoveredUpTo T xs n := by
  rw [k3Alt3] at h
  split at h
  · cases h
  · cases h
    exact (CoveredUpTo.of_run (fun _ => covered_of_upper) (Nat.le_refl _)).add
      (CoveredUpTo.of_run (fun _ => covered_of_lower) (Nat.le_refl _))

/-- What the branches for letters take is covered. -/
theorem k3Letters_covered (h : k3Letters T xs = some n) :
    CoveredUpTo T xs n := by
  cases xs with
  | nil => cases h
  | cons c rest =>
    -- the prefix is no letter
    have hlead : ∀ {a : Option Nat}, (∀ m, a = some m → CoveredUpTo T rest m) → ∀ m,
        (if !isNl c && !T.isL c && !T.isN c then a.map (1 + ·) else none) = some m →
        CoveredUpTo T (c :: rest) m := by
      intro a ha m h
      split at h
      next hc =>
        obtain ⟨m, hm, rfl⟩ := Option.map_eq_some_iff.mp h
        have hL : T.isL c = false := by
          rw [Bool.and_eq_true, Bool.and_eq_true, Bool.not_eq_true', Bool.not_eq_true'] at hc
          exact hc.1.2
        exact (CoveredUpTo.head (covered_of_notL hL) rest).add (ha m hm)
      · cases h
    have halt2 : ∀ ys m, k3Alt2 T ys = some m → CoveredUpTo T ys m :=
      fun ys m => k3Alt2From_covered (Nat.le_refl _)
    have halt3 : ∀ ys m, k3Alt3 T ys = some m → CoveredUpTo T ys m :=
      fun ys m => k3Alt3_covered
    rw [k3Letters] at h
    refine of_orElse (hlead (halt2 rest)) (fun m => ?_) h
    refine of_orElse (halt2 (c :: rest)) (fun m => ?_)
    exact of_orElse (hlead (halt3 rest)) (halt3 (c :: rest))

theorem covered_of_low {k : Nat} (hk : k ∈ contractionLetters) (h : (low c == k) = true) :
    T.covered c = true := by
  have hc : c ∈ contractionLetters := by
    rw [beq_iff_eq, low] at h
    simp only [contractionLetters, List.map_cons, List.map_nil, List.mem_cons, List.not_mem_nil,
      Char.reduceToNat, or_false] at hk ⊢
    split at h
    · omega
    · rw [h]
      exact hk
  rcases T.contraction_lower c hc with h | h
  · exact covered_of_upper h
  · exact covered_of_lower h

/-- The letters of a contraction are covered, and so is the quote. -/
theorem contraction_covered (xs : List Nat) : CoveredUpTo T xs (contractionLen xs) := by
  have hquote : T.covered quote = true := covered_of_notL T.quote_notL
  have hlast : ∀ d rest, ((low d == 's'.toNat || low d == 't'.toNat || low d == 'm'.toNat
      || low d == 'd'.toNat) = true) → CoveredUpTo T (quote :: d :: rest) 2 := by
    intro d rest h
    simp only [Bool.or_eq_true] at h
    refine (CoveredUpTo.head ?_ rest).cons hquote
    rcases h with ((h | h) | h) | h
    · exact covered_of_low (by decide) h
    · exact covered_of_low (by decide) h
    · exact covered_of_low (by decide) h
    · exact covered_of_low (by decide) h
  match xs with
  | [] => exact CoveredUpTo.zero _
  | [_] => exact CoveredUpTo.zero _
  | q :: d :: rest =>
    simp only [contractionLen, contractionLenBy]
    split
    · exact CoveredUpTo.zero _
    next hq =>
      rw [Decidable.not_not.mp hq]
      cases rest with
      | nil =>
        dsimp only
        rw [if_neg Bool.false_ne_true]
        split
        next h => exact hlast d [] h
        next => exact CoveredUpTo.zero _
      | cons d2 rest =>
        dsimp only
        split
        next h =>
          simp only [Bool.or_eq_true, Bool.and_eq_true] at h
          refine ((CoveredUpTo.head ?_ rest).cons ?_).cons hquote
          · rcases h with (h | h) | h
            · exact covered_of_low (by decide) h.2
            · exact covered_of_low (by decide) h.2
            · exact covered_of_low (by decide) h.2
          · rcases h with (h | h) | h
            · exact covered_of_low (by decide) h.1
            · exact covered_of_low (by decide) h.1
            · exact covered_of_low (by decide) h.1
        next =>
          split
          next h => exact hlast d (d2 :: rest) h
          next => exact CoveredUpTo.zero _

theorem numberStep_covered (h : numberStep T xs = some n) :
    CoveredUpTo T xs n := by
  rw [numberStep] at h
  split at h
  · cases h
  · cases h
    exact CoveredUpTo.of_run (fun c hc => covered_of_notL (T.isN_notL c hc)) (Nat.min_le_left _ _)

theorem spaceBefore_covered (xs : List Nat) : CoveredUpTo T xs (spaceBefore T xs) := by
  match xs with
  | [] => exact CoveredUpTo.zero _
  | [_] => exact CoveredUpTo.zero _
  | c :: d :: rest =>
    rw [spaceBefore]
    split
    next h =>
      rw [Bool.and_eq_true, beq_iff_eq] at h
      rw [h.1]
      exact CoveredUpTo.head (covered_of_space T.space_isS) _
    next => exact CoveredUpTo.zero _

theorem punctStep_covered (h : punctStep T xs = some n) :
    CoveredUpTo T xs n := by
  rw [punctStep] at h
  split at h
  · cases h
  · cases h
    rw [Nat.add_assoc]
    refine (spaceBefore_covered xs).add ?_
    exact (CoveredUpTo.of_run (fun _ => covered_of_punct) (Nat.le_refl _)).add
      (CoveredUpTo.of_run (fun c hc => covered_of_space (T.nl_isS c hc)) (Nat.le_refl _))

theorem spaceStep_covered (h : spaceStep T xs = some n) :
    CoveredUpTo T xs n := by
  rw [spaceStep] at h
  dsimp only at h
  split at h
  · cases h
  next hrun =>
    refine CoveredUpTo.of_run (p := T.isS) (fun _ => covered_of_space) ?_
    split at h
    next last hlast =>
      cases h
      have hlt := rposition_lt hlast
      rw [List.length_take] at hlt
      omega
    next =>
      cases h
      split
      · split <;> omega
      · omega

/-- **A piece of the code that starts covered is covered.** -/
theorem k3Step_covered {x : Nat} (hx : T.covered x = true) :
    CoveredUpTo T (x :: xs) (k3Step T (x :: xs)) := by
  rw [k3Step]
  split
  · exact CoveredUpTo.of_run (fun _ => covered_of_han) (Nat.le_refl _)
  · split
    next stop h => exact (k3Letters_covered h).add (contraction_covered _)
    next =>
      cases h : (numberStep T (x :: xs) <|> punctStep T (x :: xs) <|> spaceStep T (x :: xs)) with
      | none => exact CoveredUpTo.head hx xs
      | some n =>
        refine of_orElse (fun m => numberStep_covered) (fun m => ?_) h
        exact of_orElse (fun m => punctStep_covered) (fun m => spaceStep_covered)

/-! ## The two splits -/

/-- A start where the code cuts as the pattern matches. -/
def GoodStart (T : Tables) (xs : List Nat) : Prop :=
  (∀ c, xs.head? = some c → T.covered c = true) ∧ ¬ LettersThenLongS T xs

/-- **A text that the two cut alike is covered**, all of it. -/
theorem allGood_covered (hn : xs.length ≤ n)
    (h : AllGood (k3Step T) (GoodStart T) n xs) : ∀ c ∈ xs, T.covered c = true := by
  induction n generalizing xs with
  | zero =>
    rw [List.length_eq_zero_iff.mp (Nat.le_zero.mp hn)]
    exact fun c hc => by cases hc
  | succ n ih =>
    cases xs with
    | nil => exact fun c hc => by cases hc
    | cons x xs =>
      obtain ⟨hstart, hrest⟩ := h
      have hfits := k3Step_fits (T := T) x xs
      have hshort : ((x :: xs).drop (k3Step T (x :: xs))).length ≤ n := by
        rw [List.length_drop]
        have hpos := hfits.1
        omega
      intro c hc
      rw [← List.take_append_drop (k3Step T (x :: xs)) (x :: xs)] at hc
      rcases List.mem_append.mp hc with hc | hc
      · exact k3Step_covered (hstart.1 x rfl) c hc
      · exact ih hshort hrest c hc

/-- **When `k3_piece_ends` cuts as its pattern matches**: exactly if every letter of the
text is in a class of the pattern, and no match has its letters followed by `'ſ`. Its ends
are always strictly increasing, and its pieces not empty and the text together. -/
theorem k3_piece_ends_iff (cp : List Nat) :
    (findAll (k3Regex T) cp = k3Spans T cp ↔
        (∀ c ∈ cp, T.covered c = true) ∧
          ∀ s ∈ findAll (k3Regex T) cp, ¬ LettersThenLongS T (cp.drop s.1)) ∧
      (k3PieceEnds T cp).Pairwise (· < ·) ∧
      (∀ s ∈ k3Spans T cp, s.1 < s.2) ∧ ((k3Spans T cp).map (spanText cp)).flatten = cp := by
  refine ⟨?_, (cutFrom_increasing k3Step_fits cp.length 0 cp).1, (k3Spans_lossless cp).2,
    (k3Spans_lossless cp).1⟩
  have hgood : ∀ x xs, GoodStart T (x :: xs) →
      (k3Regex T).first (x :: xs) = some ((x :: xs).drop (k3Step T (x :: xs))) := by
    intro x xs h
    rw [first_k3, k3Match_eq_step (h.1 x rfl) h.2]
    rfl
  have hiff : findAll (k3Regex T) cp = k3Spans T cp ↔
      AllGood (k3Step T) (GoodStart T) cp.length cp := by
    refine findFrom_eq_cutFrom_iff k3Step_fits hgood ?_ cp.length 0 cp
    intro x xs h rest hrest hlen
    rw [first_k3] at hrest
    cases hx : T.covered x with
    | false =>
      rw [k3Match_uncovered hx] at hrest
      cases hrest
    | true =>
      have hlong : LettersThenLongS T (x :: xs) := by
        refine Classical.not_not.mp fun hlong => h ⟨?_, hlong⟩
        intro c hc
        cases hc
        exact hx
      obtain ⟨hmatch, hle⟩ := k3Match_longS hlong
      rw [hmatch] at hrest
      cases hrest
      rw [List.length_drop] at hlen
      omega
  rw [hiff]
  constructor
  · intro hall
    refine ⟨allGood_covered (Nat.le_refl _) hall, ?_⟩
    rw [hiff.mpr hall]
    intro s hs
    exact ((allGood_iff k3Step_fits cp (Nat.le_refl cp.length) rfl).mp hall s hs).2
  · intro h
    obtain ⟨hcov, hlong⟩ := h
    refine allGood_of_findFrom k3Step_fits hgood cp ?_ rfl fun s hs => ⟨?_, hlong s hs⟩
    · intro x xs hsuffix hbad
      -- every letter is covered, so a bad start is one with `'ſ`, where the pattern matches
      have hx : T.covered x = true := hcov x (hsuffix.subset (List.mem_cons_self ..))
      have hstart : LettersThenLongS T (x :: xs) := by
        refine Classical.not_not.mp fun hno => hbad ⟨?_, hno⟩
        intro c hc
        cases hc
        exact hx
      rw [first_k3, (k3Match_longS hstart).1]
      rfl
    · intro c hc
      exact hcov c (List.mem_of_mem_drop (List.mem_of_mem_head? hc))

/-- In `a'ſ` the contraction belongs to the match, and not to the code's first piece. -/
theorem k3_piece_ends_longS :
    findAll (k3Regex asciiTables) ['a'.toNat, quote, longS] = [(0, 3)] ∧
      k3PieceEnds asciiTables ['a'.toNat, quote, longS] = [1, 3] ∧
      findAll (k3Regex asciiTables) ['a'.toNat, quote, longS]
        ≠ k3Spans asciiTables ['a'.toNat, quote, longS] := by
  decide

end Colibri.Tokenizer
