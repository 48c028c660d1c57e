import Mathlib.Algebra.Order.Ring.Nat
import Mathlib.Data.List.Basic

/-!
# As many from the front as fit

A loop takes entries from the front of a list while their sizes fit a budget, of which some may
be used; the first entry of all is taken whether it fits or not. `Cut` says where such a loop
stops. It is built along the loop: `Cut.done` at the end of the list, `Cut.stop` where an entry
does not fit, `Cut.take` for each entry that is taken.

It is a relation of the loop's input, with the budget that is used up already, to the entries kept
and the entries left. A proof about such a loop goes by its own recursion and gives one of the
three in each branch.
-/

namespace Colibri.Budget

variable {α : Type}

/-- What a list of entries takes. -/
def total (size : α → Nat) (xs : List α) : Nat := (xs.map size).sum

theorem total_cons (size : α → Nat) (x : α) (xs : List α) :
    total size (x :: xs) = size x + total size xs := by
  rw [total, List.map_cons, List.sum_cons, ← total]

theorem total_of_forall {size : α → Nat} {xs : List α} {c : Nat} (h : ∀ x ∈ xs, size x = c) :
    total size xs = xs.length * c := by
  induction xs with
  | nil => rw [List.length_nil, Nat.zero_mul]; rfl
  | cons x xs ih =>
    rw [total_cons, h x List.mem_cons_self, ih fun y hy => h y (List.mem_cons_of_mem _ hy),
      List.length_cons, Nat.succ_mul, Nat.add_comm]

/-- `xs` is cut into what is kept and the rest, with `used` of the budget gone; `first` is
whether nothing has been taken before. -/
structure Cut (size : α → Nat) (budget used : Nat) (first : Prop) (xs kept rest : List α) :
    Prop where
  split : xs = kept ++ rest
  /-- at least one -/
  one : first → xs ≠ [] → kept ≠ []
  /-- what is kept fits, unless it is just that one -/
  fits : kept ≠ [] → used + total size kept ≤ budget ∨ first ∧ kept.length = 1
  /-- all are kept if all fit -/
  all : used + total size xs ≤ budget → rest = []

variable {size : α → Nat} {budget used : Nat} {first : Prop} {x : α} {xs kept rest : List α}

theorem Cut.done : Cut size budget used first [] [] [] where
  split := rfl
  one := fun _ h => absurd rfl h
  fits := fun h => absurd rfl h
  all := fun _ => rfl

theorem Cut.stop (hfirst : ¬ first) (h : budget < used + size x) :
    Cut size budget used first (x :: xs) [] (x :: xs) where
  split := rfl
  one := fun hf => absurd hf hfirst
  fits := fun hne => absurd rfl hne
  all := by
    intro hle
    rw [total_cons] at hle
    omega

theorem Cut.take (hfits : first ∨ used + size x ≤ budget)
    (h : Cut size budget (used + size x) False xs kept rest) :
    Cut size budget used first (x :: xs) (x :: kept) rest where
  split := by rw [h.split, List.cons_append]
  one := fun _ _ => List.cons_ne_nil _ _
  fits := by
    intro _
    rw [total_cons, ← Nat.add_assoc]
    by_cases hkept : kept = []
    · -- it is the only one that is kept
      subst hkept
      exact hfits.symm.imp id fun hf => ⟨hf, rfl⟩
    · exact (h.fits hkept).imp id fun hfalse => hfalse.1.elim
  all := by
    intro hle
    rw [total_cons, ← Nat.add_assoc] at hle
    exact h.all hle

end Colibri.Budget
