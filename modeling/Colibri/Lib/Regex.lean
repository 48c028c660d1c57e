import Mathlib.Data.List.Basic
import Mathlib.Data.List.TakeWhile

/-!
# Backtracking regular expressions

A pattern over letters of any kind, with the meaning a backtracking engine gives it:
`run` lists what is left of the input after each way to match, in the order the engine
tries them, and the match is the first (`first`). Alternatives are tried in order,
quantifiers take as much as they can and then give back.

For quantified classes the first match has a closed form: a starred class followed by a
pattern gives back letter by letter until the pattern matches (`first_seq_star_cls`), and
not at all before a pattern that always matches.

`giveBack` is that closed form. `findFrom` goes on from match to match, and `findAll` is all of
them, as spans of the text.
-/

namespace Rx

inductive Regex (σ : Type) where
  /-- one letter of a class -/
  | cls (p : σ → Bool)
  | seq (r s : Regex σ)
  | alt (r s : Regex σ)
  /-- `r?` -/
  | opt (r : Regex σ)
  /-- `r*` -/
  | star (r : Regex σ)
  /-- `(?!p)`: the next letter, if there is one, is not of the class -/
  | notAhead (p : σ → Bool)

section

variable {σ : Type}

/-- `r+` -/
def Regex.plus (r : Regex σ) : Regex σ := .seq r (.star r)

/-- `r{1,3}` -/
def Regex.upToThree (r : Regex σ) : Regex σ := .seq r (.opt (.seq r (.opt r)))

/-- Any number of rounds of `f`, more of them first; a round that takes nothing is the
last. -/
def rounds (f : List σ → List (List σ)) : Nat → List σ → List (List σ)
  | 0, xs => [xs]
  | n + 1, xs => ((f xs).filter fun ys => ys.length < xs.length).flatMap (rounds f n) ++ [xs]

/-- What is left after each way to match, in the order they are tried. -/
def Regex.run : Regex σ → List σ → List (List σ)
  | .cls _, [] => []
  | .cls p, x :: xs => if p x then [xs] else []
  | .seq r s, xs => (r.run xs).flatMap s.run
  | .alt r s, xs => r.run xs ++ s.run xs
  | .opt r, xs => r.run xs ++ [xs]
  | .star r, xs => rounds r.run xs.length xs
  | .notAhead _, [] => [[]]
  | .notAhead p, x :: xs => if p x then [] else [x :: xs]

theorem rounds_succ (f : List σ → List (List σ)) (n : Nat) (xs : List σ) :
    rounds f (n + 1) xs
      = ((f xs).filter fun ys => ys.length < xs.length).flatMap (rounds f n) ++ [xs] := rfl

theorem run_cls_cons (p : σ → Bool) (x : σ) (xs : List σ) :
    (Regex.cls p).run (x :: xs) = if p x then [xs] else [] := rfl

theorem run_opt (r : Regex σ) (xs : List σ) : (Regex.opt r).run xs = r.run xs ++ [xs] := rfl

theorem run_star (r : Regex σ) (xs : List σ) :
    (Regex.star r).run xs = rounds r.run xs.length xs := rfl

/-- The match at the start of the input: what it leaves. -/
def Regex.first (r : Regex σ) (xs : List σ) : Option (List σ) := (r.run xs).head?

/-- A pattern that matches any input, if only the empty way. -/
def Regex.Total (r : Regex σ) : Prop := ∀ xs, (r.first xs).isSome

/-- How long the run of a class is that the input starts with. -/
def runLen (p : σ → Bool) (xs : List σ) : Nat := (xs.takeWhile p).length

@[simp] theorem runLen_nil (p : σ → Bool) : runLen p [] = 0 := rfl

theorem runLen_cons (p : σ → Bool) (x : σ) (xs : List σ) :
    runLen p (x :: xs) = if p x then runLen p xs + 1 else 0 := by
  rw [runLen, List.takeWhile_cons]
  split <;> rfl

theorem runLen_le (p : σ → Bool) (xs : List σ) : runLen p xs ≤ xs.length :=
  (List.takeWhile_prefix p).length_le

theorem take_runLen (p : σ → Bool) (xs : List σ) : xs.take (runLen p xs) = xs.takeWhile p :=
  (List.prefix_iff_eq_take.mp (List.takeWhile_prefix p)).symm

variable {xs : List σ}

theorem of_mem_take_run {p : σ → Bool} {n : Nat} (hn : n ≤ runLen p xs) {c : σ}
    (h : c ∈ xs.take n) : p c = true := by
  have hrun : c ∈ xs.take (runLen p xs) := List.take_subset_take_left xs hn h
  rw [take_runLen] at hrun
  exact List.mem_takeWhile_imp hrun

/-- What comes right after a run is not of the class. -/
theorem drop_runLen_of_lt {p : σ → Bool} (h : runLen p xs < xs.length) :
    ∃ y ys, xs.drop (runLen p xs) = y :: ys ∧ p y = false := by
  induction xs with
  | nil => exact absurd h (Nat.lt_irrefl 0)
  | cons x xs ih =>
    rw [runLen_cons] at h ⊢
    split at h
    next hx =>
      rw [if_pos hx]
      exact ih (Nat.lt_of_succ_lt_succ h)
    next hx =>
      rw [if_neg hx]
      exact ⟨x, xs, rfl, eq_false_of_ne_true hx⟩

/-- What is within a run is of the class. -/
theorem drop_of_lt_runLen {p : σ → Bool} {k : Nat} (h : k < runLen p xs) :
    ∃ y ys, xs.drop k = y :: ys ∧ p y = true := by
  induction xs generalizing k with
  | nil => exact absurd h (Nat.not_lt_zero k)
  | cons x xs ih =>
    rw [runLen_cons] at h
    split at h
    next hx =>
      cases k with
      | zero => exact ⟨x, xs, rfl, hx⟩
      | succ k => exact ih (Nat.lt_of_succ_lt_succ h)
    · exact absurd h (Nat.not_lt_zero k)

/-! ## First matches -/

theorem first_alt (r s : Regex σ) (xs : List σ) :
    (Regex.alt r s).first xs = (r.first xs).or (s.first xs) :=
  List.head?_append

theorem first_opt (r : Regex σ) (xs : List σ) :
    (Regex.opt r).first xs = (r.first xs).or (some xs) :=
  List.head?_append

theorem first_seq (r s : Regex σ) (xs : List σ) :
    (Regex.seq r s).first xs = (r.run xs).findSome? s.first :=
  List.head?_flatMap

theorem run_seq_seq (r s t : Regex σ) (xs : List σ) :
    (Regex.seq (.seq r s) t).run xs = (Regex.seq r (.seq s t)).run xs :=
  List.flatMap_assoc

theorem first_seq_seq (r s t : Regex σ) (xs : List σ) :
    (Regex.seq (.seq r s) t).first xs = (Regex.seq r (.seq s t)).first xs :=
  congrArg List.head? (run_seq_seq r s t xs)

theorem first_cls_nil (p : σ → Bool) : (Regex.cls p).first [] = none := rfl

theorem first_cls_cons (p : σ → Bool) (x : σ) (xs : List σ) :
    (Regex.cls p).first (x :: xs) = if p x then some xs else none := by
  rw [Regex.first, run_cls_cons]
  split <;> rfl

theorem first_seq_cls_cons (p : σ → Bool) (s : Regex σ) (x : σ) (xs : List σ) :
    (Regex.seq (.cls p) s).first (x :: xs) = if p x then s.first xs else none := by
  rw [first_seq, run_cls_cons]
  split
  · rw [List.findSome?_singleton]
  · rfl

theorem first_seq_opt (r s : Regex σ) (xs : List σ) :
    (Regex.seq (.opt r) s).first xs = ((Regex.seq r s).first xs).or (s.first xs) := by
  rw [first_seq, first_seq, run_opt, List.findSome?_append, List.findSome?_singleton]

/-- Taking `k` letters of the input, then fewer, until `f` accepts the rest. -/
def giveBack {β : Type} (f : List σ → Option β) (xs : List σ) : Nat → Option β
  | 0 => f xs
  | k + 1 => (f (xs.drop (k + 1))).or (giveBack f xs k)

theorem giveBack_cons {β : Type} (f : List σ → Option β) (x : σ) (xs : List σ) (k : Nat) :
    giveBack f (x :: xs) (k + 1) = (giveBack f xs k).or (f (x :: xs)) := by
  induction k with
  | zero => rfl
  | succ k ih => rw [giveBack, ih, giveBack, ← Option.or_assoc, List.drop_succ_cons]

/-- Where the rest is accepted at once, nothing is given back. -/
theorem giveBack_of_isSome {β : Type} {f : List σ → Option β} {k : Nat}
    (h : (f (xs.drop k)).isSome) : giveBack f xs k = f (xs.drop k) := by
  cases k with
  | zero => rfl
  | succ k =>
    obtain ⟨b, hb⟩ := Option.isSome_iff_exists.mp h
    rw [giveBack, hb, Option.some_or]

theorem findSome?_rounds_cls {β : Type} (p : σ → Bool) (f : List σ → Option β) (xs : List σ) :
    (rounds (Regex.cls p).run xs.length xs).findSome? f = giveBack f xs (runLen p xs) := by
  induction xs with
  | nil =>
    exact List.findSome?_singleton
  | cons x xs ih =>
    rw [List.length_cons, rounds_succ, List.findSome?_append, List.findSome?_singleton,
      run_cls_cons, runLen_cons]
    split
    · have hlt : decide (xs.length < (x :: xs).length) = true :=
        decide_eq_true (Nat.lt_succ_self xs.length)
      rw [List.filter_singleton, hlt, giveBack_cons, ← ih]
      simp only [cond_true, List.flatMap_singleton]
    · rfl

/-- **A starred class and then a pattern**: the class gives back until the pattern
matches. -/
theorem first_seq_star_cls (p : σ → Bool) (s : Regex σ) (xs : List σ) :
    (Regex.seq (.star (.cls p)) s).first xs = giveBack s.first xs (runLen p xs) := by
  rw [first_seq, run_star, findSome?_rounds_cls]

theorem first_seq_star_cls_total (p : σ → Bool) {s : Regex σ} (hs : s.Total) (xs : List σ) :
    (Regex.seq (.star (.cls p)) s).first xs = s.first (xs.drop (runLen p xs)) := by
  rw [first_seq_star_cls, giveBack_of_isSome (hs _)]

theorem first_star_cls (p : σ → Bool) (xs : List σ) :
    (Regex.star (.cls p)).first xs = some (xs.drop (runLen p xs)) := by
  have hhead : ∀ l : List (List σ), l.head? = l.findSome? some := by
    intro l
    cases l <;> rfl
  rw [Regex.first, run_star, hhead, findSome?_rounds_cls, giveBack_of_isSome rfl]

theorem total_star_cls (p : σ → Bool) : (Regex.star (.cls p)).Total := by
  intro xs
  rw [first_star_cls]
  rfl

theorem total_opt (r : Regex σ) : (Regex.opt r).Total := by
  intro xs
  rw [first_opt]
  cases r.first xs <;> rfl

/-- `p+` before a pattern that always matches takes the whole run. -/
theorem first_seq_plus_cls_total (p : σ → Bool) {s : Regex σ} (hs : s.Total) (xs : List σ) :
    (Regex.seq (.plus (.cls p)) s).first xs
      = if runLen p xs = 0 then none else s.first (xs.drop (runLen p xs)) := by
  rw [Regex.plus, first_seq_seq]
  cases xs with
  | nil => rfl
  | cons x xs =>
    rw [first_seq_cls_cons, runLen_cons]
    split
    · rw [first_seq_star_cls_total p hs, if_neg (Nat.succ_ne_zero _), List.drop_succ_cons]
    · rfl

theorem first_plus_cls (p : σ → Bool) (xs : List σ) :
    (Regex.plus (.cls p)).first xs
      = if runLen p xs = 0 then none else some (xs.drop (runLen p xs)) := by
  rw [Regex.plus]
  cases xs with
  | nil => rfl
  | cons x xs =>
    rw [first_seq_cls_cons, runLen_cons]
    split
    · rw [first_star_cls, if_neg (Nat.succ_ne_zero _), List.drop_succ_cons]
    · rfl

/-- `p{1,3}` takes up to three. -/
theorem first_upToThree_cls (p : σ → Bool) (xs : List σ) :
    (Regex.upToThree (.cls p)).first xs
      = if runLen p xs = 0 then none else some (xs.drop (min (runLen p xs) 3)) := by
  rw [Regex.upToThree]
  cases xs with
  | nil => rfl
  | cons x xs =>
    rw [first_seq_cls_cons, runLen_cons]
    cases p x with
    | false => rfl
    | true =>
      rw [if_pos rfl, if_pos rfl, if_neg (Nat.succ_ne_zero _), first_opt]
      cases xs with
      | nil => rfl
      | cons y ys =>
        rw [first_seq_cls_cons, runLen_cons]
        cases p y with
        | false => rfl
        | true =>
          rw [if_pos rfl, if_pos rfl, first_opt]
          cases ys with
          | nil => rfl
          | cons z zs =>
            rw [first_cls_cons, runLen_cons]
            cases p z with
            | false => rfl
            | true =>
              rw [if_pos rfl, if_pos rfl]
              have hmin : min (runLen p zs + 1 + 1 + 1) 3 = 3 := by omega
              rw [hmin]
              rfl

end

/-! ## All matches of a text -/

section

variable {σ : Type}

/-- The matches of a text from position `pos` on, as spans: each search starts where the
last match ended, and a letter where none starts is passed over. -/
def findFrom (r : Regex σ) : Nat → Nat → List σ → List (Nat × Nat)
  | 0, _, _ => []
  | _ + 1, _, [] => []
  | n + 1, pos, x :: xs =>
    match r.first (x :: xs) with
    | none => findFrom r n (pos + 1) xs
    | some rest =>
      let len := (x :: xs).length - rest.length
      if len = 0 then (pos, pos) :: findFrom r n (pos + 1) xs
      else (pos, pos + len) :: findFrom r n (pos + len) rest

/-- The matches of a text. -/
def findAll (r : Regex σ) (xs : List σ) : List (Nat × Nat) := findFrom r xs.length 0 xs

variable {r : Regex σ} {pos : Nat}

theorem findFrom_none {x : σ} {xs : List σ} (h : r.first (x :: xs) = none)
    (n pos : Nat) : findFrom r (n + 1) pos (x :: xs) = findFrom r n (pos + 1) xs := by
  rw [findFrom, h]

/-- A match of `len` letters. -/
theorem findFrom_match {xs : List σ} {len : Nat} (hpos : 0 < len)
    (hle : len ≤ xs.length) (h : r.first xs = some (xs.drop len)) (n pos : Nat) :
    findFrom r (n + 1) pos xs = (pos, pos + len) :: findFrom r n (pos + len) (xs.drop len) := by
  cases xs with
  | nil => exact absurd hle (by rw [List.length_nil]; omega)
  | cons x xs =>
    have hlen : (x :: xs).length - ((x :: xs).drop len).length = len := by
      rw [List.length_drop]
      omega
    rw [findFrom, h]
    dsimp only
    rw [hlen, if_neg (by omega)]

/-- Matches start where the search does or later. -/
theorem le_of_mem_findFrom {n : Nat} {xs : List σ} {s : Nat × Nat}
    (h : s ∈ findFrom r n pos xs) : pos ≤ s.1 := by
  induction n generalizing pos xs with
  | zero => cases h
  | succ n ih =>
    cases xs with
    | nil => cases h
    | cons x xs =>
      rw [findFrom] at h
      split at h
      · exact Nat.le_of_succ_le (ih h)
      · dsimp only at h
        split at h
        · rcases List.mem_cons.mp h with rfl | h
          · exact Nat.le_refl _
          · exact Nat.le_of_succ_le (ih h)
        · rcases List.mem_cons.mp h with rfl | h
          · exact Nat.le_refl _
          · exact Nat.le_trans (Nat.le_add_right _ _) (ih h)

/-! ## Cutting a text into pieces

A splitter takes `step xs` letters off the input at a time. -/

/-- The pieces of a splitter from position `pos` on, as spans. -/
def cutFrom (step : List σ → Nat) : Nat → Nat → List σ → List (Nat × Nat)
  | 0, _, _ => []
  | _ + 1, _, [] => []
  | n + 1, pos, x :: xs =>
    let len := step (x :: xs)
    (pos, pos + len) :: cutFrom step n (pos + len) ((x :: xs).drop len)

/-- `Good` at the start of every piece. -/
def AllGood (step : List σ → Nat) (Good : List σ → Prop) : Nat → List σ → Prop
  | 0, _ => True
  | _ + 1, [] => True
  | n + 1, x :: xs => Good (x :: xs) ∧ AllGood step Good n ((x :: xs).drop (step (x :: xs)))

/-- The letters of a span. -/
def spanText (xs : List σ) (s : Nat × Nat) : List σ := (xs.drop s.1).take (s.2 - s.1)

/-- Two spans that meet. -/
theorem spanText_append (xs : List σ) {a b c : Nat} (hab : a ≤ b) (hbc : b ≤ c) :
    spanText xs (a, b) ++ spanText xs (b, c) = spanText xs (a, c) := by
  have hdrop : xs.drop b = (xs.drop a).drop (b - a) := by
    rw [List.drop_drop, Nat.add_sub_cancel' hab]
  have hlen : c - a = (b - a) + (c - b) := by omega
  simp only [spanText]
  rw [hdrop, hlen, List.take_add]

theorem spanText_to_end (xs : List σ) (a : Nat) : spanText xs (a, xs.length) = xs.drop a := by
  rw [spanText, List.take_of_length_le]
  rw [List.length_drop]

variable {step : List σ → Nat}

/-- **The pieces make up the text**, and none is empty. -/
theorem cutFrom_lossless (hstep : ∀ x xs, 0 < step (x :: xs) ∧ step (x :: xs) ≤ (x :: xs).length)
    {text xs : List σ} {n : Nat} (hn : xs.length ≤ n) (hpos : text.drop pos = xs) :
    ((cutFrom step n pos xs).map (spanText text)).flatten = xs ∧
      ∀ s ∈ cutFrom step n pos xs, s.1 < s.2 := by
  induction n generalizing pos xs with
  | zero =>
    rw [List.length_eq_zero_iff.mp (Nat.le_zero.mp hn)]
    exact ⟨rfl, fun s hs => by cases hs⟩
  | succ n ih =>
    cases xs with
    | nil => exact ⟨rfl, fun s hs => by cases hs⟩
    | cons x xs =>
      obtain ⟨hlo, hhi⟩ := hstep x xs
      have hshort : ((x :: xs).drop (step (x :: xs))).length ≤ n := by
        rw [List.length_drop]
        omega
      have hnext : text.drop (pos + step (x :: xs)) = (x :: xs).drop (step (x :: xs)) := by
        rw [← List.drop_drop, hpos]
      obtain ⟨hflat, hlt⟩ := ih hshort hnext
      rw [cutFrom]
      constructor
      · rw [List.map_cons, List.flatten_cons, hflat, spanText, hpos, Nat.add_sub_cancel_left,
          List.take_append_drop]
      · intro s hs
        rcases List.mem_cons.mp hs with rfl | hs
        · exact Nat.lt_add_of_pos_right hlo
        · exact hlt s hs

/-- The pieces of a text whose letters stand for spans of another: the spans together. -/
theorem cutFrom_spans {τ : Type} (text : List τ) (off : Nat → Nat)
    (hstep : ∀ x xs, 0 < step (x :: xs) ∧ step (x :: xs) ≤ (x :: xs).length)
    {n : Nat} {xs : List σ} (hn : xs.length ≤ n)
    (hoff : ∀ i j, i ≤ j → j ≤ pos + xs.length → off i ≤ off j) :
    (cutFrom step n pos xs).flatMap (fun s => spanText text (off s.1, off s.2))
      = spanText text (off pos, off (pos + xs.length)) := by
  have hempty : ∀ a, ([] : List τ) = spanText text (a, a) := by
    intro a
    rw [spanText, Nat.sub_self, List.take_zero]
  induction n generalizing pos xs with
  | zero =>
    rw [List.length_eq_zero_iff.mp (Nat.le_zero.mp hn)]
    exact hempty _
  | succ n ih =>
    cases xs with
    | nil => exact hempty _
    | cons x xs =>
      obtain ⟨hlo, hhi⟩ := hstep x xs
      have hlen : ((x :: xs).drop (step (x :: xs))).length = (x :: xs).length - step (x :: xs) :=
        List.length_drop
      have hstop : pos + step (x :: xs) + ((x :: xs).drop (step (x :: xs))).length
          = pos + (x :: xs).length := by omega
      have hrest : (cutFrom step n (pos + step (x :: xs)) ((x :: xs).drop (step (x :: xs)))).flatMap
            (fun s => spanText text (off s.1, off s.2))
          = spanText text (off (pos + step (x :: xs)),
              off (pos + step (x :: xs) + ((x :: xs).drop (step (x :: xs))).length)) :=
        ih (by omega) fun i j hij hj => hoff i j hij (by omega)
      rw [cutFrom, List.flatMap_cons, hrest, hstop]
      exact spanText_append text (hoff _ _ (Nat.le_add_right ..) (by omega))
        (hoff _ _ (by omega) (Nat.le_refl _))

/-- The ends of the pieces are strictly increasing. -/
theorem cutFrom_increasing
    (hstep : ∀ x xs, 0 < step (x :: xs) ∧ step (x :: xs) ≤ (x :: xs).length) (n pos : Nat)
    (xs : List σ) :
    ((cutFrom step n pos xs).map Prod.snd).Pairwise (· < ·) ∧
      ∀ stop ∈ (cutFrom step n pos xs).map Prod.snd, pos < stop := by
  induction n generalizing pos xs with
  | zero => exact ⟨List.Pairwise.nil, fun stop hs => by cases hs⟩
  | succ n ih =>
    cases xs with
    | nil => exact ⟨List.Pairwise.nil, fun stop hs => by cases hs⟩
    | cons x xs =>
      have hpos := (hstep x xs).1
      obtain ⟨hpair, hlt⟩ := ih (pos + step (x :: xs)) ((x :: xs).drop (step (x :: xs)))
      rw [cutFrom, List.map_cons]
      refine ⟨List.pairwise_cons.mpr ⟨hlt, hpair⟩, ?_⟩
      intro stop hs
      rcases List.mem_cons.mp hs with rfl | hs
      · exact Nat.lt_add_of_pos_right hpos
      · exact Nat.lt_trans (Nat.lt_add_of_pos_right hpos) (hlt stop hs)

/-- **When a splitter cuts as a pattern matches**: exactly if every piece starts well,
where `Good` says that the match and the piece that start there are the same. -/
theorem findFrom_eq_cutFrom_iff {Good : List σ → Prop}
    (hstep : ∀ x xs, 0 < step (x :: xs) ∧ step (x :: xs) ≤ (x :: xs).length)
    (hgood : ∀ x xs, Good (x :: xs) →
      r.first (x :: xs) = some ((x :: xs).drop (step (x :: xs))))
    (hbad : ∀ x xs, ¬ Good (x :: xs) → ∀ rest, r.first (x :: xs) = some rest →
      (x :: xs).length - rest.length ≠ step (x :: xs)) (n pos : Nat) (xs : List σ) :
    findFrom r n pos xs = cutFrom step n pos xs ↔ AllGood step Good n xs := by
  induction n generalizing pos xs with
  | zero => exact iff_of_true rfl trivial
  | succ n ih =>
    cases xs with
    | nil => exact iff_of_true rfl trivial
    | cons x xs =>
      obtain ⟨hlo, hhi⟩ := hstep x xs
      rw [cutFrom, AllGood]
      by_cases hg : Good (x :: xs)
      · rw [findFrom_match hlo hhi (hgood x xs hg), List.cons.injEq]
        exact ⟨fun h => ⟨hg, (ih _ _).mp h.2⟩, fun h => ⟨rfl, (ih _ _).mpr h.2⟩⟩
      · -- the match that starts here, if there is one, is another
        refine iff_of_false (fun h => ?_) fun h => hg h.1
        cases hfirst : r.first (x :: xs) with
        | none =>
          rw [findFrom_none hfirst] at h
          have hmem : (pos, pos + step (x :: xs)) ∈ findFrom r n (pos + 1) xs := by
            rw [h]
            exact List.mem_cons_self ..
          exact Nat.not_succ_le_self pos (le_of_mem_findFrom hmem)
        | some rest =>
          have hne := hbad x xs hg rest hfirst
          rw [findFrom, hfirst] at h
          dsimp only at h
          split at h
          · have hhead := congrArg Prod.snd (List.cons.inj h).1
            dsimp only at hhead
            omega
          · have hhead := congrArg Prod.snd (List.cons.inj h).1
            dsimp only at hhead
            omega

/-- `AllGood`, read off the pieces. -/
theorem allGood_iff {Good : List σ → Prop}
    (hstep : ∀ x xs, 0 < step (x :: xs) ∧ step (x :: xs) ≤ (x :: xs).length)
    (text : List σ) {xs : List σ} {n : Nat} (hn : xs.length ≤ n) (hpos : text.drop pos = xs) :
    AllGood step Good n xs ↔ ∀ s ∈ cutFrom step n pos xs, Good (text.drop s.1) := by
  induction n generalizing pos xs with
  | zero => exact iff_of_true trivial fun s hs => by cases hs
  | succ n ih =>
    cases xs with
    | nil => exact iff_of_true trivial fun s hs => by cases hs
    | cons x xs =>
      obtain ⟨hlo, hhi⟩ := hstep x xs
      have hshort : ((x :: xs).drop (step (x :: xs))).length ≤ n := by
        rw [List.length_drop]
        omega
      have hnext : text.drop (pos + step (x :: xs)) = (x :: xs).drop (step (x :: xs)) := by
        rw [← List.drop_drop, hpos]
      rw [AllGood, cutFrom, List.forall_mem_cons, ih hshort hnext, hpos]

/-- Where every match starts well, every piece does: a piece that does not start well
starts where a match does. -/
theorem allGood_of_findFrom {Good : List σ → Prop}
    (hstep : ∀ x xs, 0 < step (x :: xs) ∧ step (x :: xs) ≤ (x :: xs).length)
    (hgood : ∀ x xs, Good (x :: xs) →
      r.first (x :: xs) = some ((x :: xs).drop (step (x :: xs)))) (text : List σ)
    (hmatch : ∀ x xs, (x :: xs) <:+ text → ¬ Good (x :: xs) → (r.first (x :: xs)).isSome)
    {xs : List σ} {n : Nat} (hpos : text.drop pos = xs)
    (h : ∀ s ∈ findFrom r n pos xs, Good (text.drop s.1)) : AllGood step Good n xs := by
  induction n generalizing pos xs with
  | zero => trivial
  | succ n ih =>
    cases xs with
    | nil => trivial
    | cons x xs =>
      obtain ⟨hlo, hhi⟩ := hstep x xs
      by_cases hg : Good (x :: xs)
      · rw [findFrom_match hlo hhi (hgood x xs hg)] at h
        have hnext : text.drop (pos + step (x :: xs)) = (x :: xs).drop (step (x :: xs)) := by
          rw [← List.drop_drop, hpos]
        exact ⟨hg, ih hnext fun s hs => h s (List.mem_cons_of_mem _ hs)⟩
      · have hsuffix : (x :: xs) <:+ text := by
          rw [← hpos]
          exact List.drop_suffix pos text
        obtain ⟨rest, hrest⟩ := Option.isSome_iff_exists.mp (hmatch x xs hsuffix hg)
        have hstart : ∃ stop, (pos, stop) ∈ findFrom r (n + 1) pos (x :: xs) := by
          rw [findFrom, hrest]
          dsimp only
          split
          · exact ⟨_, List.mem_cons_self ..⟩
          · exact ⟨_, List.mem_cons_self ..⟩
        obtain ⟨stop, hmem⟩ := hstart
        have hbad := h _ hmem
        rw [hpos] at hbad
        exact absurd hbad hg

end

end Rx
