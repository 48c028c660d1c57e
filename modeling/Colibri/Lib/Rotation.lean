import Mathlib.Algebra.BigOperators.Intervals
import Mathlib.Tactic.LinearCombination
import Mathlib.Tactic.Ring

/-!
# Turning pairs of coordinates

`turn off r` turns coordinates `off + 2k` and `off + 2k + 1` of a vector by the angle whose
cosine and sine are `r k`, and leaves those before `off` alone. Turns compose (`turn_turn`),
are linear (`turn_sum`), and keep inner products where `r k` is of length 1 (`dot_turn`).

An angle is a pair of cosine and sine. `comp` adds two of them and `conj` turns back, so a turn by
an angle of length 1 can be undone.
-/

namespace Colibri.Rotation

variable {α β : Type} [CommRing α]

/-- A vector is a function of the coordinate. -/
def turn (off : Nat) (r : Nat → α × α) (x : Nat → α) (u : Nat) : α :=
  if u < off then x u
  else if (u - off) % 2 = 0 then
    x u * (r ((u - off) / 2)).1 - x (u + 1) * (r ((u - off) / 2)).2
  else x (u - 1) * (r ((u - off) / 2)).2 + x u * (r ((u - off) / 2)).1

/-- One angle after another. -/
def comp (r r' : α × α) : α × α := (r.1 * r'.1 - r.2 * r'.2, r.1 * r'.2 + r.2 * r'.1)

/-- The angle the other way. -/
def conj (r : α × α) : α × α := (r.1, -r.2)

/-- A cosine and a sine of one angle. -/
def IsUnit (r : α × α) : Prop := r.1 * r.1 + r.2 * r.2 = 1

theorem comp_conj {r : α × α} (h : IsUnit r) : comp (conj r) r = (1, 0) := by
  have hone : r.1 * r.1 + r.2 * r.2 = 1 := h
  refine Prod.ext ?_ ?_
  · show r.1 * r.1 - -r.2 * r.2 = 1
    linear_combination hone
  · show r.1 * r.2 + -r.2 * r.1 = 0
    ring

theorem conj_comp (r r' : α × α) : conj (comp r r') = comp (conj r') (conj r) := by
  refine Prod.ext ?_ ?_ <;>
  · simp only [conj, comp]
    ring

variable {off : Nat}

theorem turn_before {r : Nat → α × α} (x : Nat → α) {u : Nat} (h : u < off) :
    turn off r x u = x u :=
  if_pos h

theorem turn_first (r : Nat → α × α) (x : Nat → α) (k : Nat) :
    turn off r x (off + 2 * k) =
      x (off + 2 * k) * (r k).1 - x (off + 2 * k + 1) * (r k).2 := by
  rw [turn, if_neg (by omega), if_pos (by omega), show (off + 2 * k - off) / 2 = k by omega]

theorem turn_second (r : Nat → α × α) (x : Nat → α) (k : Nat) :
    turn off r x (off + 2 * k + 1) =
      x (off + 2 * k) * (r k).2 + x (off + 2 * k + 1) * (r k).1 := by
  rw [turn, if_neg (by omega), if_neg (by omega), show (off + 2 * k + 1 - off) / 2 = k by omega,
    Nat.add_sub_cancel]

/-- A pair whose angle is none stays as it is. -/
theorem turn_of_one {r : Nat → α × α} {u : Nat} (h : r ((u - off) / 2) = (1, 0)) (x : Nat → α) :
    turn off r x u = x u := by
  unfold turn
  rw [h]
  split
  · rfl
  · split <;> simp

theorem cases_coord (off u : Nat) : u < off ∨ ∃ k, u = off + 2 * k ∨ u = off + 2 * k + 1 := by
  rcases Nat.lt_or_ge u off with h | h
  · exact .inl h
  · exact .inr ⟨(u - off) / 2, by omega⟩

/-- **Turns compose.** -/
theorem turn_turn (r r' : Nat → α × α) (x : Nat → α) :
    turn off r (turn off r' x) = turn off (fun k => comp (r k) (r' k)) x := by
  funext u
  rcases cases_coord off u with h | ⟨k, rfl | rfl⟩
  · rw [turn_before _ h, turn_before _ h, turn_before _ h]
  · simp only [turn_first, turn_second, comp]
    ring
  · simp only [turn_first, turn_second, comp]
    ring

/-- A turn and its inverse. -/
theorem turn_conj {r : Nat → α × α} (h : ∀ k, IsUnit (r k)) (x : Nat → α) :
    turn off (fun k => conj (r k)) (turn off r x) = x := by
  rw [turn_turn]
  funext u
  rcases cases_coord off u with hu | ⟨k, rfl | rfl⟩
  · rw [turn_before _ hu]
  · rw [turn_first, comp_conj (h k)]
    ring
  · rw [turn_second, comp_conj (h k)]
    ring

/-- **Turns are linear.** -/
theorem turn_sum (r : Nat → α × α) (l : List β) (w : β → α) (x : β → Nat → α) :
    turn off r (fun u => (l.map fun j => w j * x j u).sum) =
      fun u => (l.map fun j => w j * turn off r (x j) u).sum := by
  funext u
  induction l with
  | nil => simp [turn]
  | cons j l ih =>
    rw [List.map_cons, List.sum_cons, ← ih]
    rcases cases_coord off u with hu | ⟨k, rfl | rfl⟩
    · simp only [turn_before _ hu, List.map_cons, List.sum_cons]
    · simp only [turn_first, List.map_cons, List.sum_cons]
      ring
    · simp only [turn_second, List.map_cons, List.sum_cons]
      ring

/-- A sum over the coordinates, pair by pair. -/
theorem sum_pairs (off h : Nat) (f : Nat → α) :
    ∑ u ∈ Finset.range (off + 2 * h), f u =
      ∑ u ∈ Finset.range off, f u +
        ∑ k ∈ Finset.range h, (f (off + 2 * k) + f (off + 2 * k + 1)) := by
  induction h with
  | zero => simp
  | succ h ih =>
    rw [show off + 2 * (h + 1) = off + 2 * h + 1 + 1 by omega, Finset.sum_range_succ,
      Finset.sum_range_succ, ih, Finset.sum_range_succ]
    ring

/-- Turned alike, two vectors have the inner product they had. -/
theorem dot_turn {r : Nat → α × α} (hr : ∀ k, IsUnit (r k)) (h : Nat) (x y : Nat → α) :
    ∑ u ∈ Finset.range (off + 2 * h), turn off r x u * turn off r y u =
      ∑ u ∈ Finset.range (off + 2 * h), x u * y u := by
  rw [sum_pairs, sum_pairs]
  refine congrArg₂ _ (Finset.sum_congr rfl fun u hu => ?_) (Finset.sum_congr rfl fun k _ => ?_)
  · rw [turn_before _ (Finset.mem_range.mp hu), turn_before _ (Finset.mem_range.mp hu)]
  · have hone : (r k).1 * (r k).1 + (r k).2 * (r k).2 = 1 := hr k
    simp only [turn_first, turn_second]
    linear_combination (x (off + 2 * k) * y (off + 2 * k) +
      x (off + 2 * k + 1) * y (off + 2 * k + 1)) * hone

end Colibri.Rotation
