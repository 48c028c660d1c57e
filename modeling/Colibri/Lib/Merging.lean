import Mathlib.Data.List.Basic
import Mathlib.Order.Lattice

/-!
# Merging neighbours by rank

A list is rewritten: of all pairs of neighbours that have a rank, one of least rank, and of
those the leftmost, is replaced by what it merges into; and so on, until no pair has a rank.
A `Result` is what is left where no pair has one.

Overlapping pairs and ranks that appear with a merge need no thought here: a step looks at
the list as it is.

A step leaves no choice (`Step.det`, from `Best.unique`) and shortens the list
(`Step.length_lt`); a step can be taken wherever some pair has a rank (`exists_best`).
-/

namespace Colibri.Merging

variable {σ κ : Type} [LinearOrder κ] (rank : σ → σ → Option κ) (join : σ → σ → σ)

/-- The rank of the pair at position `i`. -/
def pairRank : List σ → Nat → Option κ
  | [], _ => none
  | l :: syms, 0 => syms.head?.bind (rank l)
  | _ :: syms, i + 1 => pairRank syms i

/-- The pair at `i` has rank `k`, no pair has a lower one, and none before it the same. -/
structure Best (syms : List σ) (i : Nat) (k : κ) : Prop where
  here : pairRank rank syms i = some k
  least : ∀ j k', pairRank rank syms j = some k' → k < k' ∨ (k = k' ∧ i ≤ j)

/-- One merge. -/
inductive Step : List σ → List σ → Prop
  | merge {pre : List σ} {l r : σ} {post : List σ} {k : κ}
      (h : Best rank (pre ++ l :: r :: post) pre.length k) :
      Step (pre ++ l :: r :: post) (pre ++ join l r :: post)

/-- No pair of neighbours has a rank. -/
def Done (syms : List σ) : Prop := ∀ i, pairRank rank syms i = none

/-- Merges from `syms` to `out`, until there is nothing to merge. -/
def Result (syms out : List σ) : Prop :=
  Relation.ReflTransGen (Step rank join) syms out ∧ Done rank out

variable {rank join} {syms out : List σ}

omit [LinearOrder κ] in
theorem pairRank_eq_some {i : Nat} {k : κ} (h : pairRank rank syms i = some k) :
    ∃ pre l r post, syms = pre ++ l :: r :: post ∧ i = pre.length ∧ rank l r = some k := by
  induction syms generalizing i with
  | nil => cases i <;> cases h
  | cons x syms ih =>
    cases i with
    | zero =>
      cases syms with
      | nil => cases h
      | cons y syms => exact ⟨[], x, y, syms, rfl, rfl, h⟩
    | succ i =>
      obtain ⟨pre, l, r, post, hsyms, hi, hk⟩ := ih h
      exact ⟨x :: pre, l, r, post, by rw [hsyms]; rfl, by rw [hi]; rfl, hk⟩

theorem Best.unique {i i' : Nat} {k k' : κ} (h : Best rank syms i k) (h' : Best rank syms i' k') :
    i = i' ∧ k = k' := by
  rcases h.least i' k' h'.here with hlt | ⟨heq, hle⟩
  · rcases h'.least i k h.here with hlt' | ⟨heq', -⟩
    · exact absurd hlt' (lt_asymm hlt)
    · exact absurd hlt (by rw [heq']; exact lt_irrefl _)
  · rcases h'.least i k h.here with hlt' | ⟨-, hle'⟩
    · exact absurd hlt' (by rw [heq]; exact lt_irrefl _)
    · exact ⟨Nat.le_antisymm hle hle', heq⟩

/-- The best pair stays the best if the pair put in front of it has a higher rank. -/
theorem Best.shift {x : σ} {i : Nat} {k : κ} (h : Best rank syms i k)
    (hfront : ∀ k', pairRank rank (x :: syms) 0 = some k' → k < k') :
    Best rank (x :: syms) (i + 1) k := by
  refine ⟨h.here, fun j k' hk' => ?_⟩
  cases j with
  | zero => exact Or.inl (hfront k' hk')
  | succ j =>
    rcases h.least j k' hk' with hlt | ⟨heq, hle⟩
    · exact Or.inl hlt
    · exact Or.inr ⟨heq, Nat.succ_le_succ hle⟩

/-- A step leaves no choice. -/
theorem Step.det {t t' : List σ} (h : Step rank join syms t) (h' : Step rank join syms t') :
    t = t' := by
  obtain ⟨hbest⟩ := h
  generalize hsyms : _ ++ _ :: _ :: _ = syms' at h'
  obtain ⟨hbest'⟩ := h'
  rw [hsyms] at hbest
  obtain ⟨hlen, -⟩ := hbest.unique hbest'
  obtain ⟨rfl, htail⟩ := List.append_inj hsyms hlen
  cases htail
  rfl

theorem Step.length_lt {t : List σ} (h : Step rank join syms t) : t.length < syms.length := by
  obtain ⟨-⟩ := h
  simp only [List.length_append, List.length_cons]
  omega

/-- Some pair is the best, if any has a rank. -/
theorem exists_best {i : Nat} {k : κ} (h : pairRank rank syms i = some k) :
    ∃ i k, Best rank syms i k := by
  induction syms generalizing i k with
  | nil => cases i <;> cases h
  | cons x syms ih =>
    -- the best of the tail, one to the right, against the pair in front
    by_cases htail : ∃ j k', pairRank rank syms j = some k'
    · obtain ⟨j, k', hk'⟩ := htail
      obtain ⟨j, k', hbest⟩ := ih hk'
      by_cases hfront : ∃ k₀, pairRank rank (x :: syms) 0 = some k₀ ∧ k₀ ≤ k'
      · obtain ⟨k₀, hk₀, hle⟩ := hfront
        refine ⟨0, k₀, hk₀, fun j₁ k₁ h₁ => ?_⟩
        cases j₁ with
        | zero => exact Or.inr ⟨Option.some.inj (hk₀.symm.trans h₁), Nat.le_refl _⟩
        | succ j₁ =>
          have hle₁ : k₀ ≤ k₁ := by
            rcases hbest.least j₁ k₁ h₁ with hlt | ⟨heq, -⟩
            · exact le_trans hle (le_of_lt hlt)
            · exact heq ▸ hle
          rcases lt_or_eq_of_le hle₁ with hlt | heq
          · exact Or.inl hlt
          · exact Or.inr ⟨heq, Nat.zero_le _⟩
      · exact ⟨j + 1, k', hbest.shift fun k₁ h₁ =>
          not_le.mp fun hle => hfront ⟨k₁, h₁, hle⟩⟩
    · cases i with
      | zero =>
        refine ⟨0, k, h, fun j₁ k₁ h₁ => ?_⟩
        cases j₁ with
        | zero => exact Or.inr ⟨Option.some.inj (h.symm.trans h₁), Nat.le_refl _⟩
        | succ j₁ => exact absurd ⟨j₁, k₁, h₁⟩ htail
      | succ i => exact absurd ⟨i, k, h⟩ htail

theorem best_pair {l r : σ} {k : κ} (h : rank l r = some k) : Best rank [l, r] 0 k := by
  refine ⟨h, fun j k' hk' => ?_⟩
  cases j with
  | zero => exact Or.inr ⟨Option.some.inj (h.symm.trans hk'), Nat.le_refl _⟩
  | succ j => cases j <;> cases hk'

end Colibri.Merging
