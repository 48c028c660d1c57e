import Colibri.Tokenizer.Pretok

/-!
# The alternatives both patterns share

The patterns the two splits document, as regular expressions, are made of the same
alternatives but for the letters. Here are those alternatives, each with what its first
match is: numbers, punctuation and white space match what `numberStep`, `punctStep` and
`spaceStep` take. A contraction does not: `(?i:'s)` compares letters after case folding,
and the fold of U+017F is `s`, while `low` knows ASCII only.

`restAfter` turns what a branch of the code takes into what a match leaves, so that each lemma has
the form: the first match of the alternative is `restAfter` of the branch.
-/

namespace Colibri.Tokenizer

open Rx

/-- Simple case folding, on the code points whose fold is an ASCII letter. The last two
are the long s and the kelvin sign; no other code point folds to ASCII. -/
def simpleFold (c : Nat) : Nat :=
  if 65 ≤ c ∧ c ≤ 90 then c + 32
  else if c = longS then 's'.toNat
  else if c = 0x212A then 'k'.toNat
  else c

/-- A character in `(?i:…)`. -/
def ci (ch : Char) : Regex Nat := .cls fun c => simpleFold c == ch.toNat

/-- A character. -/
def chr (c : Nat) : Regex Nat := .cls (· == c)

/-- `(?i:'s|'t|'re|'ve|'m|'ll|'d)` -/
def contraction : Regex Nat :=
  .alt (.seq (chr quote) (ci 's'))
    (.alt (.seq (chr quote) (ci 't'))
      (.alt (.seq (chr quote) (.seq (ci 'r') (ci 'e')))
        (.alt (.seq (chr quote) (.seq (ci 'v') (ci 'e')))
          (.alt (.seq (chr quote) (ci 'm'))
            (.alt (.seq (chr quote) (.seq (ci 'l') (ci 'l')))
              (.seq (chr quote) (ci 'd')))))))

variable (T : Tables)

/-- `[^\r\n\p{L}\p{N}]` -/
def letterPrefix : Regex Nat := .cls fun c => !isNl c && !T.isL c && !T.isN c

/-- `\p{N}{1,3}` -/
def number : Regex Nat := .upToThree (.cls T.isN)

/-- ` ?[^\s\p{L}\p{N}]+[\r\n]*` -/
def punct : Regex Nat :=
  .seq (.opt (chr 32)) (.seq (.plus (.cls T.isPunct)) (.star (.cls isNl)))

/-- `\s*[\r\n]+` -/
def newlines : Regex Nat := .seq (.star (.cls T.isS)) (.plus (.cls isNl))

/-- `\s+(?!\S)|\s+` -/
def spaces : Regex Nat :=
  .alt (.seq (.plus (.cls T.isS)) (.notAhead fun c => !T.isS c)) (.plus (.cls T.isS))

/-- What both patterns end with. -/
def commonAlternatives : Regex Nat :=
  .alt (number T) (.alt (punct T) (.alt (newlines T) (spaces T)))

/-- The rest after a match of `n?` characters. -/
def restAfter (xs : List Nat) (n : Option Nat) : Option (List Nat) := n.map (xs.drop ·)

theorem restAfter_or (xs : List Nat) (a b : Option Nat) :
    restAfter xs (a <|> b) = (restAfter xs a).or (restAfter xs b) := by
  cases a <;> rfl

theorem isSome_orElse {σ : Type} (a b : Option σ) : (a <|> b).isSome = (a.isSome || b.isSome) := by
  cases a <;> rfl

/-! ## Contractions -/

/-- **A contraction**, with folded letters. -/
theorem first_contraction (xs : List Nat) :
    contraction.first xs = if contractionLenBy simpleFold xs = 0 then none
      else some (xs.drop (contractionLenBy simpleFold xs)) := by
  match xs with
  | [] => rfl
  | [q] =>
    simp only [contraction, chr, ci, first_alt, first_seq_cls_cons, contractionLenBy]
    cases q == quote <;> rfl
  | q :: d :: rest =>
    simp only [contraction, chr, ci, first_alt, first_seq_cls_cons, first_cls_cons,
      contractionLenBy]
    by_cases hq : q = quote
    · subst hq
      generalize simpleFold d = fd
      -- the letter after the quote decides between the alternatives
      by_cases hone : fd = 115 ∨ fd = 116 ∨ fd = 109 ∨ fd = 100
      · rcases hone with rfl | rfl | rfl | rfl <;> cases rest <;> simp
      by_cases htwo : fd = 114 ∨ fd = 118
      · cases rest with
        | nil => rcases htwo with rfl | rfl <;> simp [first_cls_nil]
        | cons d2 rest =>
          rcases htwo with rfl | rfl <;>
            by_cases he : simpleFold d2 = 101 <;> simp [first_cls_cons, he]
      by_cases hl : fd = 108
      · subst hl
        cases rest with
        | nil => simp [first_cls_nil]
        | cons d2 rest => by_cases hl2 : simpleFold d2 = 108 <;> simp [first_cls_cons, hl2]
      simp only [not_or] at hone htwo
      cases rest <;> simp [hone, htwo, hl]
    · simp [hq]

/-- Folding and `low` agree on a letter but for the long s and the kelvin sign. -/
theorem simpleFold_beq {c k : Nat} (hlt : k < longS) (hk : k ≠ 107) (hs : k = 115 → c ≠ longS) :
    (simpleFold c == k) = (low c == k) := by
  rw [simpleFold, low]
  by_cases hup : 65 ≤ c ∧ c ≤ 90
  · rw [if_pos hup, if_pos hup]
  · rw [if_neg hup, if_neg hup]
    split
    next hc =>
      rw [beq_false_of_ne (fun h : 's'.toNat = k => hs h.symm hc), beq_false_of_ne (by omega)]
    next =>
      split
      next hc =>
        have hsign : longS < 0x212A := by decide
        rw [beq_false_of_ne (fun h : 'k'.toNat = k => hk h.symm), beq_false_of_ne (by omega)]
      next => rfl

/-- The long s right after the quote is all that folding changes. -/
theorem contractionLenBy_simpleFold {xs : List Nat}
    (h : ∀ rest, xs ≠ quote :: longS :: rest) :
    contractionLenBy simpleFold xs = contractionLen xs := by
  match xs, h with
  | [], _ => rfl
  | [_], _ => rfl
  | q :: d :: rest, h =>
    simp only [contractionLen, contractionLenBy]
    split
    · rfl
    next hq =>
      have hquote : q = quote := Decidable.not_not.mp hq
      have hd : d ≠ longS := fun hd => h rest (by rw [hquote, hd])
      have hany : ∀ (c : Nat) {k : Nat}, k < longS → k ≠ 107 → k ≠ 115 →
          (simpleFold c == k) = (low c == k) :=
        fun c k hlt hk hs => simpleFold_beq hlt hk fun h => absurd h hs
      have hds : (simpleFold d == 's'.toNat) = (low d == 's'.toNat) :=
        simpleFold_beq (by decide) (by decide) fun _ => hd
      have hdt : (simpleFold d == 't'.toNat) = (low d == 't'.toNat) :=
        hany d (by decide) (by decide) (by decide)
      have hdm : (simpleFold d == 'm'.toNat) = (low d == 'm'.toNat) :=
        hany d (by decide) (by decide) (by decide)
      have hdd : (simpleFold d == 'd'.toNat) = (low d == 'd'.toNat) :=
        hany d (by decide) (by decide) (by decide)
      have hdr : (simpleFold d == 'r'.toNat) = (low d == 'r'.toNat) :=
        hany d (by decide) (by decide) (by decide)
      have hdv : (simpleFold d == 'v'.toNat) = (low d == 'v'.toNat) :=
        hany d (by decide) (by decide) (by decide)
      have hdl : ∀ c, (simpleFold c == 'l'.toNat) = (low c == 'l'.toNat) :=
        fun c => hany c (by decide) (by decide) (by decide)
      have hde : ∀ c, (simpleFold c == 'e'.toNat) = (low c == 'e'.toNat) :=
        fun c => hany c (by decide) (by decide) (by decide)
      cases rest with
      | nil => simp only [hds, hdt, hdm, hdd]
      | cons d2 rest => simp only [hds, hdt, hdm, hdd, hdr, hdv, hdl, hde]

theorem contractionLenBy_longS (rest : List Nat) :
    contractionLenBy simpleFold (quote :: longS :: rest) = 2 ∧
      contractionLen (quote :: longS :: rest) = 0 := by
  cases rest <;> exact ⟨rfl, rfl⟩

/-! ## Numbers, punctuation, white space -/

variable {T}

/-- **Numbers** match what the code takes. -/
theorem first_number (xs : List Nat) :
    (number T).first xs = restAfter xs (numberStep T xs) := by
  rw [number, first_upToThree_cls, numberStep]
  split <;> rfl

theorem first_punctRun (xs : List Nat) :
    (Regex.seq (.plus (.cls T.isPunct)) (.star (.cls isNl))).first xs
      = if runLen T.isPunct xs = 0 then none
        else some (xs.drop
          (runLen T.isPunct xs + runLen isNl (xs.drop (runLen T.isPunct xs)))) := by
  rw [first_seq_plus_cls_total _ (total_star_cls _), first_star_cls, List.drop_drop]

theorem space_notPunct : T.isPunct 32 = false := by
  rw [Tables.isPunct, T.space_isS]
  rfl

/-- **Punctuation** matches what the code takes. -/
theorem first_punct (xs : List Nat) : (punct T).first xs = restAfter xs (punctStep T xs) := by
  rw [punct, first_seq_opt, punctStep]
  cases xs with
  | nil => rfl
  | cons c rest =>
    rw [chr, first_seq_cls_cons, first_punctRun, first_punctRun]
    by_cases hc : c = 32
    · -- a space: with it before a punctuation run, and not at all otherwise
      subst hc
      have hbare : runLen T.isPunct (32 :: rest) = 0 := by
        rw [runLen_cons, space_notPunct]
        rfl
      rw [if_pos (beq_self_eq_true 32), if_pos hbare, Option.or_none]
      cases rest with
      | nil =>
        have hspace : spaceBefore T [32] = 0 := rfl
        rw [hspace, List.drop_zero, hbare]
        rfl
      | cons d rest =>
        cases hd : T.isPunct d with
        | true =>
          have hspace : spaceBefore T (32 :: d :: rest) = 1 := by
            rw [spaceBefore, hd]
            rfl
          rw [hspace, List.drop_succ_cons, List.drop_zero]
          split
          · rfl
          · rw [restAfter, Option.map_some, Nat.add_assoc, Nat.add_comm 1, List.drop_succ_cons]
        | false =>
          have hspace : spaceBefore T (32 :: d :: rest) = 0 := by
            rw [spaceBefore, hd]
            rfl
          have hrun : runLen T.isPunct (d :: rest) = 0 := by
            rw [runLen_cons, hd]
            rfl
          rw [hspace, List.drop_zero, hrun, hbare]
          rfl
    · have hspace : spaceBefore T (c :: rest) = 0 := by
        cases rest with
        | nil => rfl
        | cons d rest => rw [spaceBefore, beq_false_of_ne hc]; rfl
      rw [hspace, if_neg (by simpa using hc), Option.none_or, List.drop_zero, Nat.zero_add]
      split <;> rfl

theorem rposition_eq_none {σ : Type} {p : σ → Bool} {xs : List σ} (h : rposition p xs = none) :
    ∀ x ∈ xs, p x = false := by
  induction xs with
  | nil => exact fun x hx => by cases hx
  | cons x xs ih =>
    rw [rposition] at h
    split at h
    · cases h
    next hnone =>
      split at h
      · cases h
      next hx =>
        intro y hy
        rcases List.mem_cons.mp hy with rfl | hy
        · exact eq_false_of_ne_true hx
        · exact ih hnone y hy

/-- `\s*[\r\n]+` takes the white space up to its last newline. -/
theorem first_newlines (xs : List Nat) : (newlines T).first xs
    = restAfter xs ((rposition isNl (xs.take (runLen T.isS xs))).map (· + 1)) := by
  rw [newlines, first_seq_star_cls]
  induction xs with
  | nil => rfl
  | cons x xs ih =>
    rw [runLen_cons]
    split
    next hx =>
      rw [giveBack_cons, ih, List.take_succ_cons, rposition]
      cases hpos : rposition isNl (xs.take (runLen T.isS xs)) with
      | some k => rfl
      | none =>
        -- no newline further on, so a newline here is a run of one
        have hrun : runLen isNl xs = 0 := by
          cases xs with
          | nil => rfl
          | cons y ys =>
            rw [runLen_cons]
            split
            next hy =>
              rw [runLen_cons, if_pos (T.nl_isS y hy), List.take_succ_cons] at hpos
              rw [rposition_eq_none hpos y (List.mem_cons_self ..)] at hy
              cases hy
            next => rfl
        rw [first_plus_cls, runLen_cons, hrun]
        cases isNl x <;> rfl
    next hx =>
      have hnl : isNl x = false := by
        cases h : isNl x with
        | false => rfl
        | true => exact absurd (T.nl_isS x h) hx
      rw [giveBack, first_plus_cls, runLen_cons, hnl]
      rfl

/-- `\s+(?!\S)` gives back one character of the run, if something comes after it. -/
theorem giveBack_notAhead (p : Nat → Bool) (xs : List Nat) :
    giveBack (Regex.notAhead fun c => !p c).first xs (runLen p xs)
      = if runLen p xs < xs.length then
          (if runLen p xs = 0 then none else some (xs.drop (runLen p xs - 1)))
        else some (xs.drop (runLen p xs)) := by
  by_cases hlt : runLen p xs < xs.length
  · obtain ⟨y, ys, hdrop, hy⟩ := drop_runLen_of_lt hlt
    have hstop : (Regex.notAhead fun c => !p c).first (xs.drop (runLen p xs)) = none := by
      rw [hdrop, Regex.first, Regex.run, hy]
      rfl
    rw [if_pos hlt]
    generalize hrun : runLen p xs = m at hstop
    cases m with
    | zero => exact hstop
    | succ k =>
      have hwithin : k < runLen p xs := by omega
      obtain ⟨z, zs, hk, hz⟩ := drop_of_lt_runLen hwithin
      have hgo : (Regex.notAhead fun c => !p c).first (xs.drop k) = some (xs.drop k) := by
        rw [hk, Regex.first, Regex.run, hz]
        rfl
      rw [giveBack, hstop, Option.none_or, giveBack_of_isSome (by rw [hgo]; rfl), hgo,
        if_neg (Nat.succ_ne_zero k), Nat.add_sub_cancel]
  · have hend : xs.drop (runLen p xs) = [] := List.drop_eq_nil_of_le (Nat.le_of_not_lt hlt)
    rw [if_neg hlt, giveBack_of_isSome (by rw [hend]; rfl), hend]
    rfl

/-- White space gives its last character back to what follows. -/
theorem first_spaces (xs : List Nat) : (spaces T).first xs
    = if runLen T.isS xs = 0 then none
      else
        let stop := if runLen T.isS xs < xs.length then runLen T.isS xs - 1 else runLen T.isS xs
        some (xs.drop (if stop = 0 then 1 else stop)) := by
  rw [spaces, first_alt, first_plus_cls, Regex.plus, first_seq_seq]
  cases xs with
  | nil => rfl
  | cons x xs =>
    rw [first_seq_cls_cons, first_seq_star_cls, giveBack_notAhead, runLen_cons]
    split
    next =>
      dsimp only
      rw [if_neg (Nat.succ_ne_zero _), if_neg (Nat.succ_ne_zero _), List.length_cons,
        Nat.add_sub_cancel]
      generalize runLen T.isS xs = m
      by_cases hlt : m < xs.length
      · rw [if_pos hlt, if_pos (Nat.succ_lt_succ hlt)]
        cases m with
        | zero => rfl
        | succ k => rfl
      · rw [if_neg hlt, if_neg (fun h => hlt (Nat.lt_of_succ_lt_succ h))]
        rfl
    next => rfl

/-- **White space** matches what the code takes. -/
theorem first_newlines_spaces (xs : List Nat) :
    (Regex.alt (newlines T) (spaces T)).first xs = restAfter xs (spaceStep T xs) := by
  rw [first_alt, first_newlines, first_spaces, spaceStep]
  dsimp only
  by_cases hr : runLen T.isS xs = 0
  · rw [hr]
    rfl
  · rw [if_neg hr, if_neg hr]
    cases rposition isNl (xs.take (runLen T.isS xs)) <;> rfl

/-- **The shared alternatives** match what the code takes. -/
theorem first_common (xs : List Nat) : (commonAlternatives T).first xs
    = restAfter xs (numberStep T xs <|> punctStep T xs <|> spaceStep T xs) := by
  rw [commonAlternatives, first_alt, first_alt, first_number, first_punct,
    first_newlines_spaces, restAfter_or, restAfter_or]

/-- Whatever is not a letter starts one of the shared alternatives. -/
theorem common_covers {c : Nat} (hL : T.isL c = false) (rest : List Nat) :
    (numberStep T (c :: rest) <|> punctStep T (c :: rest) <|> spaceStep T (c :: rest)).isSome := by
  rw [isSome_orElse, isSome_orElse, Bool.or_eq_true, Bool.or_eq_true]
  by_cases hN : T.isN c = true
  · left
    rw [numberStep, runLen_cons, if_pos hN, if_neg (Nat.succ_ne_zero _)]
    rfl
  by_cases hS : T.isS c = true
  · right; right
    rw [spaceStep, runLen_cons, if_pos hS]
    dsimp only
    rw [if_neg (Nat.succ_ne_zero _)]
    split <;> rfl
  · right; left
    have hc : c ≠ 32 := by
      intro hc
      rw [hc] at hS
      exact hS T.space_isS
    have hspace : spaceBefore T (c :: rest) = 0 := by
      cases rest with
      | nil => rfl
      | cons d rest =>
        rw [spaceBefore, beq_false_of_ne hc]
        rfl
    have hpunct : T.isPunct c = true := by
      rw [Tables.isPunct, hL, eq_false_of_ne_true hN, eq_false_of_ne_true hS]
      rfl
    rw [punctStep, hspace, List.drop_zero, runLen_cons, if_pos hpunct, if_neg (Nat.succ_ne_zero _)]
    rfl

end Colibri.Tokenizer
