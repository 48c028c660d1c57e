import Colibri.Cluster.Balanced
import Mathlib.Algebra.BigOperators.Fin

/-!
# Maps by capacity

`capacity_weighted` gives each node a quota of the experts, its capacity's share by the
largest remainder, and places the experts like `balanced` on the nodes that are still under
their quota. The quotas are as many as the experts, so a node is always found
(`capacityWeighted_apportions`).

The products are `u128`s of a `u64` and a `u32` and do not overflow; a quota is at most the
number of experts.

`sum_quota` is that the quotas are as many as the experts, and `countOn_eq_quota` that a placement
under them uses them up. The result gives each node its quota, and on the way the rule of the
largest remainder: a node whose remainder is larger has not been passed over for one whose is less.
-/

namespace Colibri.Cluster

open Makespan Apportion

/-- `capacity.get(n)`, 0 past the end. -/
def capacityOf (capacity : List Nat) (node : Nat) : Nat := capacity.getD node 0

def totalCapacity (numNodes : Nat) (capacity : List Nat) : Nat :=
  ((List.range numNodes).map (capacityOf capacity)).sum

/-- `rem`: the nodes, biggest remainder first, ties by id. -/
def ranked (numNodes nExperts : Nat) (capacity : List Nat) : List Nat :=
  (((List.range numNodes).map fun i =>
      (capacityOf capacity i * nExperts % totalCapacity numNodes capacity, i)).mergeSort
    fun a b => b.1 < a.1 || (a.1 == b.1 && a.2 ≤ b.2)).map Prod.snd

/-- The whole parts. -/
def floorQuota (numNodes nExperts : Nat) (capacity : List Nat) (i : Nat) : Nat :=
  capacityOf capacity i * nExperts / totalCapacity numNodes capacity

/-- `quota`: the whole parts, and one more for the biggest remainders. -/
def quota (numNodes nExperts : Nat) (capacity : List Nat) : Nat → Nat :=
  let assigned := ((List.range numNodes).map (floorQuota numNodes nExperts capacity)).sum
  ((ranked numNodes nExperts capacity).take (nExperts - assigned)).foldl
    (fun q i => Function.update q i (q i + 1)) (floorQuota numNodes nExperts capacity)

/-- `ExpertSharding::capacity_weighted` -/
def capacityWeighted (numNodes nExperts : Nat) (capacity weights : List Nat) (hn : 1 ≤ numNodes)
    (he : 1 ≤ nExperts) : Option ExpertSharding :=
  if numNodes = 1 ∨ totalCapacity numNodes capacity = 0 then
    balanced numNodes nExperts weights hn he
  else
    (place (weightOf weights) (fun i u => u < quota numNodes nExperts capacity i)
      (order nExperts (weightOf weights)) (.start hn)).map (ofPlacing nExperts he)

section

variable {numNodes nExperts : Nat} {capacity : List Nat}

theorem ranked_perm : (ranked numNodes nExperts capacity).Perm (List.range numNodes) := by
  unfold ranked
  refine ((List.mergeSort_perm _ _).map Prod.snd).trans ?_
  rw [List.map_map]
  exact List.Perm.of_eq (List.map_id _)

theorem ranked_nodup : (ranked numNodes nExperts capacity).Nodup :=
  ranked_perm.nodup_iff.mpr List.nodup_range

/-- It is by remainder, the largest first. -/
theorem ranked_sorted : (ranked numNodes nExperts capacity).Pairwise fun i j =>
    remainder (capacityOf capacity) (totalCapacity numNodes capacity) nExperts j ≤
      remainder (capacityOf capacity) (totalCapacity numNodes capacity) nExperts i := by
  unfold ranked
  rw [List.pairwise_map]
  have hmem : ∀ a ∈ ((List.range numNodes).map fun i =>
        (capacityOf capacity i * nExperts % totalCapacity numNodes capacity, i)).mergeSort
      (fun a b => b.1 < a.1 || (a.1 == b.1 && a.2 ≤ b.2)),
      a.1 = remainder (capacityOf capacity) (totalCapacity numNodes capacity) nExperts a.2 := by
    intro a ha
    rw [List.mem_mergeSort, List.mem_map] at ha
    obtain ⟨i, -, rfl⟩ := ha
    rfl
  refine List.Pairwise.imp_of_mem ?_ (List.pairwise_mergeSort ?_ ?_ _)
  · intro a b ha hb h
    rw [← hmem a ha, ← hmem b hb]
    simp only [Bool.or_eq_true, decide_eq_true_eq, Bool.and_eq_true, beq_iff_eq] at h
    omega
  · intro a b c
    simp only [Bool.or_eq_true, decide_eq_true_eq, Bool.and_eq_true, beq_iff_eq]
    omega
  · intro a b
    simp only [Bool.or_eq_true, decide_eq_true_eq, Bool.and_eq_true, beq_iff_eq]
    omega

/-- One more for each. -/
theorem foldl_bump (is : List Nat) (q : Nat → Nat) (i : Nat) :
    is.foldl (fun q i => Function.update q i (q i + 1)) q i = q i + is.count i := by
  induction is generalizing q with
  | nil => rfl
  | cons j is ih =>
    rw [List.foldl_cons, ih, List.count_cons]
    by_cases h : i = j
    · subst h
      simp
      omega
    · rw [Function.update_of_ne h, if_neg (by simpa using Ne.symm h), Nat.add_zero]

/-- A quota is the share of the capacity, and one of the seats left over for the first of the
ranking. -/
theorem quota_eq (i : Nat) : quota numNodes nExperts capacity i =
    seats (capacityOf capacity) (totalCapacity numNodes capacity) nExperts (List.range numNodes)
      (ranked numNodes nExperts capacity) i := foldl_bump _ _ i

/-- The experts of a node. -/
def owned (s : ExpertSharding) (i : Nat) : Nat :=
  ((List.range s.nExperts).filter fun e => s.owner e = i).length

/-- What a map by capacity is. -/
structure Apportions (numNodes nExperts : Nat) (capacity weights : List Nat)
    (s : ExpertSharding) : Prop where
  nodes : s.numNodes = numNodes
  experts : s.nExperts = nExperts
  owner_lt : ∀ e < nExperts, s.owner e < numNodes
  /-- the whole part of the share, or the next number where there is a remainder -/
  share : ∀ i < numNodes,
    owned s i = capacityOf capacity i * nExperts / totalCapacity numNodes capacity ∨
      owned s i = (capacityOf capacity i * nExperts + totalCapacity numNodes capacity - 1) /
        totalCapacity numNodes capacity
  sum : ((List.range numNodes).map (owned s)).sum = nExperts
  /-- up is for the largest remainders -/
  largest : ∀ i < numNodes, ∀ j < numNodes,
    capacityOf capacity i * nExperts / totalCapacity numNodes capacity < owned s i →
    owned s j = capacityOf capacity j * nExperts / totalCapacity numNodes capacity →
    capacityOf capacity j * nExperts % totalCapacity numNodes capacity ≤
      capacityOf capacity i * nExperts % totalCapacity numNodes capacity
  empty : ∀ i < numNodes, capacityOf capacity i = 0 → owned s i = 0
  /-- heaviest first, each on a node with least to do among those under their quota -/
  greedy : Listed (weightOf weights) (Finset.range numNodes)
    (fun before i => load (fun _ => 1) s.owner before i < owned s i) s.owner
    (order nExperts (weightOf weights))

/-- The next number after a quotient with a remainder. -/
theorem succ_div_of_mod {a b : Nat} (hb : 0 < b) (h : a % b ≠ 0) : a / b + 1 = (a + b - 1) / b := by
  have hdiv := Nat.div_add_mod a b
  have hlt := Nat.mod_lt a hb
  have hsplit : a + b - 1 = b * (a / b + 1) + (a % b - 1) := by
    rw [Nat.mul_add_one]
    omega
  rw [hsplit, Nat.mul_add_div hb, Nat.div_eq_of_lt (a := a % b - 1) (by omega), Nat.add_zero]

/-- The quotas are as many as the experts. -/
theorem sum_quota (hpos : 0 < totalCapacity numNodes capacity) :
    ∑ k : Fin numNodes, quota numNodes nExperts capacity k = nExperts := by
  have h := sum_seats (n := nExperts) hpos rfl ranked_perm ranked_sorted List.nodup_range
  simp only [quota_eq]
  rw [Fin.sum_univ_eq_sum_range (seats (capacityOf capacity) (totalCapacity numNodes capacity)
    nExperts (List.range numNodes) (ranked numNodes nExperts capacity))]
  exact h

/-- A placement under the quotas uses them up. -/
theorem countOn_eq_quota {weights : List Nat} {hn : 1 ≤ numNodes} {p : Placing numNodes}
    (hpos : 0 < totalCapacity numNodes capacity)
    (h : place (weightOf weights) (fun i u => u < quota numNodes nExperts capacity i)
      (order nExperts (weightOf weights)) (.start hn) = some p)
    (hle : ∀ k, p.used k ≤ quota numNodes nExperts capacity k) (k : Fin numNodes) :
    countOn p.table (order nExperts (weightOf weights)) k =
      quota numNodes nExperts capacity k := by
  have hused : ∀ k, countOn p.table (order nExperts (weightOf weights)) k = p.used k := by
    intro k
    rw [place_used order_nodup h k]
    exact (Nat.zero_add _).symm
  have hsum : ∑ k, countOn p.table (order nExperts (weightOf weights)) k =
      ∑ k : Fin numNodes, quota numNodes nExperts capacity k := by
    rw [sum_quota hpos]
    unfold countOn
    rw [sum_load fun e _ => Finset.mem_univ _, List.map_const', List.sum_replicate,
      order_perm.length_eq, List.length_range, Nat.nsmul_eq_mul, Nat.mul_one]
  exact (Finset.sum_eq_sum_iff_of_le fun k _ => (hused k).trans_le (hle k)).mp hsum k
    (Finset.mem_univ k)

theorem owned_ofPlacing {weights : List Nat} {he : 1 ≤ nExperts} {p : Placing numNodes}
    (k : Fin numNodes) : owned (ofPlacing nExperts he p) k =
      countOn p.table (order nExperts (weightOf weights)) k := by
  unfold owned countOn
  rw [← load_one, load_perm (order_perm (w := weightOf weights)).symm]
  exact ofPlacing_load (fun e he => order_lt he) k

/-- **A map by capacity** exists where there is a capacity, and is one. -/
theorem capacityWeighted_apportions (capacity weights : List Nat) (hn : 2 ≤ numNodes)
    (he : 1 ≤ nExperts) (hpos : 0 < totalCapacity numNodes capacity) :
    ∃ s, capacityWeighted numNodes nExperts capacity weights (Nat.le_of_succ_le hn) he = some s ∧
      Apportions numNodes nExperts capacity weights s := by
  have hn' := Nat.le_of_succ_le hn
  unfold capacityWeighted
  rw [if_neg (by omega)]
  obtain ⟨p, hp, hle⟩ := @place_quota _ (weightOf weights)
    (fun k => quota numNodes nExperts capacity k) (order nExperts (weightOf weights)) (.start hn')
    (fun _ => Nat.zero_le _) (by
      rw [sum_quota hpos, order_perm.length_eq, List.length_range]
      simp [Placing.start])
  rw [hp]
  refine ⟨_, rfl, ?_⟩
  -- every node is full in the end, since the quotas add up to the experts
  have howned : ∀ i < numNodes, owned (ofPlacing nExperts he p) i =
      quota numNodes nExperts capacity i := by
    intro i hi
    have hcount : owned (ofPlacing nExperts he p) i =
        countOn p.table (order nExperts (weightOf weights)) ⟨i, hi⟩ := owned_ofPlacing ⟨i, hi⟩
    rw [hcount]
    exact countOn_eq_quota hpos hp hle ⟨i, hi⟩
  have hseats : ∀ i < numNodes, owned (ofPlacing nExperts he p) i =
      seats (capacityOf capacity) (totalCapacity numNodes capacity) nExperts
        (List.range numNodes) (ranked numNodes nExperts capacity) i := by
    intro i hi
    rw [howned i hi, quota_eq]
  constructor
  case nodes => rfl
  case experts => rfl
  case owner_lt =>
    intro e he'
    rw [ofPlacing_owner he']
    exact (p.table e).isLt
  case share =>
    intro i hi
    rw [hseats i hi]
    by_cases hzero : remainder (capacityOf capacity) (totalCapacity numNodes capacity) nExperts i = 0
    · exact .inl (seats_eq_whole hpos rfl ranked_perm ranked_sorted hzero)
    · rw [seats_eq ranked_nodup]
      split
      next =>
        exact .inr (succ_div_of_mod hpos hzero)
      next => exact .inl rfl
  case sum =>
    have h := sum_seats (n := nExperts) hpos rfl ranked_perm ranked_sorted List.nodup_range
    refine Eq.trans (congrArg List.sum (List.map_congr_left fun i hi => ?_)) h
    exact hseats i (List.mem_range.mp hi)
  case largest =>
    intro i hi j hj hmore hless
    rw [hseats i hi] at hmore
    rw [hseats j hj] at hless
    exact remainder_le_of_more ranked_nodup ranked_sorted
      (ranked_perm.mem_iff.mpr (List.mem_range.mpr hj)) hmore hless
  case empty =>
    intro i hi hzero
    rw [hseats i hi]
    exact seats_eq_zero hpos rfl ranked_perm ranked_sorted hzero
  case greedy =>
    intro before e after hes
    have hlt : ∀ x ∈ before ++ e :: after, x < nExperts := fun x hx => order_lt (hes ▸ hx)
    have hbefore : ∀ x ∈ before, x < nExperts := fun x hx => hlt x (List.mem_append_left _ hx)
    obtain ⟨-, htakes, hleast⟩ := place_listed order_nodup hp before e after hes
    rw [ofPlacing_owner (hlt e (by simp))]
    refine ⟨Finset.mem_range.mpr (p.table e).isLt, ?_, fun k hk hroom => ?_⟩
    · show load (fun _ => 1) (ofPlacing nExperts he p).owner before (p.table e) <
        owned (ofPlacing nExperts he p) (p.table e)
      rw [ofPlacing_load hbefore, howned _ (p.table e).isLt]
      exact of_decide_eq_true htakes
    · have hk' := Finset.mem_range.mp hk
      rw [ofPlacing_load hbefore]
      have hroom' : load (fun _ => 1) p.table before ⟨k, hk'⟩ <
          quota numNodes nExperts capacity k := by
        have hload : load (fun _ => 1) (ofPlacing nExperts he p).owner before k =
            load (fun _ => 1) p.table before ⟨k, hk'⟩ := ofPlacing_load hbefore ⟨k, hk'⟩
        rw [← howned k hk', ← hload]
        exact hroom
      refine (hleast ⟨k, hk'⟩ (Finset.mem_univ _) (decide_eq_true hroom')).trans ?_
      exact (ofPlacing_load hbefore ⟨k, hk'⟩).ge

/-- Three nodes, one of them with no room, and a capacity too many. -/
theorem capacityWeighted_apportions_three : ∃ s,
    capacityWeighted 3 4 [5, 0, 3, 7] [1, 1] (Nat.le_of_succ_le (by decide)) (by decide) = some s ∧
      Apportions 3 4 [5, 0, 3, 7] [1, 1] s :=
  capacityWeighted_apportions [5, 0, 3, 7] [1, 1] (by decide) (by decide) (by decide)

end

end Colibri.Cluster
