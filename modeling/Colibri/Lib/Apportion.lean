import Mathlib.Algebra.BigOperators.Group.Finset.Basic
import Mathlib.Algebra.Order.BigOperators.Group.List
import Mathlib.Algebra.Order.Ring.Nat

/-!
# Apportionment by the largest remainder

`n` seats are given out in proportion to claims: each claimant gets the whole part of its
share, and what is left over goes to those with the largest remainders, one each. The
remainders add up to `total` times the seats left over, and each is below `total`: so there
are enough claimants with a remainder (`take_pos`), every seat is given out (`sum_seats`), and
no claimant is off by a whole seat (`seats_le`).

`sum_parts` is the identity that all of it rests on: the whole parts, times `total`, and the
remainders are the claims times the seats. `left_spec` counts the claimants with a remainder, and
`remainder_le_of_more` says that one more seat never goes to a smaller remainder.
-/

namespace Apportion

section

variable {ι : Type} (claim : ι → Nat) (total n : Nat)

/-- The whole part of a share. -/
def whole (i : ι) : Nat := claim i * n / total

def remainder (i : ι) : Nat := claim i * n % total

/-- The seats left over. -/
def left (ids : List ι) : Nat := n - (ids.map (whole claim total n)).sum

/-- The seats of a claimant, with the remainders `ranked`. -/
def seats [DecidableEq ι] (ids ranked : List ι) (i : ι) : Nat :=
  whole claim total n i + (ranked.take (left claim total n ids)).count i

variable {claim total n} {ids ranked : List ι}

theorem sum_parts : total * (ids.map (whole claim total n)).sum +
    (ids.map (remainder claim total n)).sum = (ids.map claim).sum * n := by
  induction ids with
  | nil => simp
  | cons i ids ih =>
    have h : total * whole claim total n i + remainder claim total n i = claim i * n :=
      Nat.div_add_mod _ _
    rw [List.map_cons, List.map_cons, List.map_cons, List.sum_cons, List.sum_cons, List.sum_cons,
      Nat.mul_add, Nat.add_mul]
    omega

section

variable (hpos : 0 < total) (hsum : (ids.map claim).sum = total)

include hpos hsum

theorem sum_whole_le : (ids.map (whole claim total n)).sum ≤ n := by
  have h := @sum_parts ι claim total n ids
  rw [hsum] at h
  refine Nat.le_of_mul_le_mul_left ?_ hpos
  omega

theorem sum_remainder : (ids.map (remainder claim total n)).sum = total * left claim total n ids := by
  have h := @sum_parts ι claim total n ids
  have hle := Nat.mul_le_mul_left total (sum_whole_le (n := n) hpos hsum)
  rw [hsum] at h
  rw [left, Nat.mul_sub]
  omega

end

/-- At most `total` each, sorted, and `total * k` together: the first `k` are there and are
not zero. -/
theorem take_pos {rems : List Nat} {k : Nat} (hpos : 0 < total) (hle : ∀ r ∈ rems, r ≤ total)
    (hsort : rems.Pairwise fun a b => b ≤ a) (hsum : rems.sum = total * k) :
    k ≤ rems.length ∧ ∀ r ∈ rems.take k, 0 < r := by
  have hbound : ∀ l : List Nat, (∀ r ∈ l, r ≤ total) → l.sum ≤ total * l.length := by
    intro l hl
    rw [Nat.mul_comm]
    exact List.sum_le_card_nsmul l total hl
  constructor
  · have h := hbound rems hle
    rw [hsum] at h
    exact Nat.le_of_mul_le_mul_left h hpos
  · intro r hr
    by_contra hzero
    obtain ⟨before, after, hsplit⟩ := List.append_of_mem hr
    -- from the first zero on there are only zeros
    have hrems : rems = before ++ r :: (after ++ rems.drop k) := by
      rw [← List.cons_append, ← List.append_assoc, ← hsplit, List.take_append_drop]
    have hrest : (r :: (after ++ rems.drop k)).sum = 0 := by
      rw [hrems] at hsort
      have hcons := (List.pairwise_append.mp hsort).2.1
      rw [List.pairwise_cons] at hcons
      rw [List.sum_eq_zero_iff]
      intro x hx
      rcases List.mem_cons.mp hx with rfl | hx
      · omega
      · have := hcons.1 x hx
        omega
    have hlen : before.length < k := by
      have := congrArg List.length hsplit
      rw [List.length_append, List.length_cons, List.length_take] at this
      omega
    have hb := hbound before fun x hx => hle x (by rw [hrems]; simp [hx])
    rw [hrems, List.sum_append, hrest, Nat.add_zero] at hsum
    rw [hsum] at hb
    exact absurd (Nat.le_of_mul_le_mul_left hb hpos) (by omega)

/-- How often each occurs, together. -/
theorem sum_count [DecidableEq ι] (hnodup : ids.Nodup) {l : List ι} (hl : ∀ i ∈ l, i ∈ ids) :
    (ids.map fun i => l.count i).sum = l.length := by
  rw [← List.sum_toFinset _ hnodup]
  have h : ∀ i ∈ (l : Multiset ι), i ∈ ids.toFinset := by
    intro i hi
    rw [List.mem_toFinset]
    exact hl i hi
  simpa using Multiset.sum_count_eq_card h

section

variable (hpos : 0 < total) (hsum : (ids.map claim).sum = total)
  (hperm : ranked.Perm ids)
  (hsort : ranked.Pairwise fun i j => remainder claim total n j ≤ remainder claim total n i)

include hpos hsum hperm hsort

/-- There are as many claimants with a remainder as seats left over. -/
theorem left_spec : left claim total n ids ≤ ranked.length ∧
    ∀ i ∈ ranked.take (left claim total n ids), 0 < remainder claim total n i := by
  have h := @take_pos total (ranked.map (remainder claim total n)) (left claim total n ids) hpos
    ?_ ?_ ?_
  · refine ⟨by simpa using h.1, fun i hi => h.2 _ ?_⟩
    rw [← List.map_take]
    exact List.mem_map_of_mem hi
  · intro r hr
    obtain ⟨i, -, rfl⟩ := List.mem_map.mp hr
    exact (Nat.mod_lt _ hpos).le
  · rw [List.pairwise_map]
    exact hsort
  · rw [(hperm.map _).sum_eq]
    exact sum_remainder hpos hsum

variable [DecidableEq ι]

/-- **Every seat is given out.** -/
theorem sum_seats (hnodup : ids.Nodup) :
    (ids.map (seats claim total n ids ranked)).sum = n := by
  obtain ⟨hlen, -⟩ := left_spec hpos hsum hperm hsort
  have hle := sum_whole_le (n := n) hpos hsum
  have hsplit : (ids.map (seats claim total n ids ranked)).sum =
      (ids.map (whole claim total n)).sum +
        (ids.map fun i => (ranked.take (left claim total n ids)).count i).sum :=
    List.sum_map_add
  rw [hsplit, sum_count hnodup fun i hi => hperm.mem_iff.mp (List.mem_of_mem_take hi),
    List.length_take, Nat.min_eq_left hlen, left]
  omega

theorem seats_eq_whole {i : ι} (h : remainder claim total n i = 0) :
    seats claim total n ids ranked i = whole claim total n i := by
  have hnot : i ∉ ranked.take (left claim total n ids) := fun hi => by
    have := (left_spec hpos hsum hperm hsort).2 i hi
    omega
  rw [seats, List.count_eq_zero_of_not_mem hnot, Nat.add_zero]

theorem seats_eq_zero {i : ι} (h : claim i = 0) : seats claim total n ids ranked i = 0 := by
  rw [seats_eq_whole hpos hsum hperm hsort (by rw [remainder, h, Nat.zero_mul, Nat.zero_mod]),
    whole, h, Nat.zero_mul, Nat.zero_div]

end

section

variable [DecidableEq ι] (hnodup : ranked.Nodup)

include hnodup

theorem seats_eq (i : ι) : seats claim total n ids ranked i =
    whole claim total n i + if i ∈ ranked.take (left claim total n ids) then 1 else 0 := by
  rw [seats, (hnodup.sublist (List.take_sublist _ _)).count]

/-- One more is for the largest remainders. -/
theorem remainder_le_of_more {i j : ι}
    (hsort : ranked.Pairwise fun i j => remainder claim total n j ≤ remainder claim total n i)
    (hj : j ∈ ranked) (hmore : whole claim total n i < seats claim total n ids ranked i)
    (hless : seats claim total n ids ranked j = whole claim total n j) :
    remainder claim total n j ≤ remainder claim total n i := by
  have hi : i ∈ ranked.take (left claim total n ids) := by
    by_contra hi
    rw [seats_eq hnodup, if_neg hi] at hmore
    omega
  have hj' : j ∉ ranked.take (left claim total n ids) := fun hj' => by
    rw [seats_eq hnodup, if_pos hj'] at hless
    omega
  rw [← List.take_append_drop (left claim total n ids) ranked] at hj hsort
  have hdrop := (List.mem_append.mp hj).resolve_left hj'
  exact (List.pairwise_append.mp hsort).2.2 i hi j hdrop

end

end

end Apportion
