import Mathlib.Algebra.Order.Ring.Nat
import Mathlib.Data.List.Basic

/-!
# Dealing round robin

The numbers below `k` are dealt to `n` hands, one after the other: number `i` goes to hand
`i % n`, and is its entry `i / n`. What hand `f` has then, in the order it was dealt, is
`dealt n k f`, the numbers `j * n + f` (`dealt_eq_map`).

`turns` counts how many a hand has had. `div_lt_turns` and `mem_dealt_of_lt` are the two ways
between a number and its place: the entry `i / n` of a hand is there, and an entry that is there
is a number that was dealt.
-/

namespace Colibri.Deal

/-- What hand `f` of `n` has when the numbers below `k` are dealt. -/
def dealt (n k f : Nat) : List Nat := (List.range k).filter fun i => i % n = f

/-- How many that are. -/
def turns (n k f : Nat) : Nat := (k + (n - 1 - f)) / n

variable {n k f : Nat}

@[simp] theorem dealt_zero : dealt n 0 f = [] := rfl

theorem dealt_succ : dealt n (k + 1) f = dealt n k f ++ if k % n = f then [k] else [] := by
  rw [dealt, List.range_succ, List.filter_append, ← dealt, List.filter_singleton]
  by_cases h : k % n = f <;> simp [h]

theorem mem_dealt {i : Nat} : i ∈ dealt n k f ↔ i < k ∧ i % n = f := by
  rw [dealt, List.mem_filter, List.mem_range, decide_eq_true_eq]

theorem turns_self (hn : 0 < n) : turns n k (k % n) = k / n := by
  have hlt := Nat.mod_lt k hn
  have hsplit : k + (n - 1 - k % n) = n - 1 + n * (k / n) := by
    have hdiv := Nat.div_add_mod k n
    omega
  rw [turns, hsplit, Nat.add_mul_div_left _ _ hn, Nat.div_eq_of_lt (by omega), Nat.zero_add]

theorem turns_succ (hf : f < n) :
    turns n (k + 1) f = turns n k f + if k % n = f then 1 else 0 := by
  have hdvd : n ∣ k + (n - 1 - f) + 1 ↔ k % n = f := by
    have hshift : k + (n - 1 - f) + 1 = k + (n - f) := by omega
    rw [hshift, Nat.dvd_iff_mod_eq_zero]
    constructor
    · intro h
      have hback : (k + (n - f) + f) % n = k % n := by
        rw [Nat.add_assoc, Nat.sub_add_cancel (Nat.le_of_lt hf), Nat.add_mod_right]
      rw [← hback, Nat.add_mod, h, Nat.zero_add, Nat.mod_mod, Nat.mod_eq_of_lt hf]
    · intro h
      have hsum : k + (n - f) = n * (k / n + 1) := by
        have hdiv := Nat.div_add_mod k n
        rw [Nat.mul_add, Nat.mul_one]
        omega
      rw [hsum, Nat.mul_mod_right]
  rw [turns, Nat.add_right_comm, Nat.succ_div, ← turns]
  simp only [hdvd]

/-- **What a hand has.** -/
theorem dealt_eq_map (hf : f < n) (k : Nat) :
    dealt n k f = (List.range (turns n k f)).map fun j => j * n + f := by
  induction k with
  | zero =>
    have hzero : turns n 0 f = 0 := Nat.div_eq_of_lt (by omega)
    rw [hzero]
    rfl
  | succ k ih =>
    rw [dealt_succ, turns_succ hf, ih]
    by_cases h : k % n = f
    · subst h
      have hk : turns n k (k % n) * n + k % n = k := by
        rw [turns_self (Nat.zero_lt_of_lt hf), Nat.mul_comm, Nat.div_add_mod]
      rw [if_pos rfl, if_pos rfl, List.range_succ, List.map_append, List.map_singleton, hk]
    · rw [if_neg h, if_neg h, List.append_nil, Nat.add_zero]

theorem length_dealt (hf : f < n) (k : Nat) : (dealt n k f).length = turns n k f := by
  rw [dealt_eq_map hf, List.length_map, List.length_range]

theorem div_lt_turns {i : Nat} (hf : f < n) (h : i ∈ dealt n k f) : i / n < turns n k f := by
  rw [dealt_eq_map hf] at h
  obtain ⟨j, hj, rfl⟩ := List.mem_map.mp h
  rw [Nat.mul_comm, Nat.mul_add_div (Nat.zero_lt_of_lt hf), Nat.div_eq_of_lt hf, Nat.add_zero]
  exact List.mem_range.mp hj

theorem mem_dealt_of_lt {j : Nat} (hf : f < n) (h : j < turns n k f) :
    j * n + f ∈ dealt n k f := by
  rw [dealt_eq_map hf]
  exact List.mem_map.mpr ⟨j, List.mem_range.mpr h, rfl⟩

end Colibri.Deal
