import Colibri.Cluster.Sharding
import Colibri.Lib.Apportion
import Colibri.Lib.Makespan
import Mathlib.Tactic.FieldSimp

/-!
# Maps that balance the load

Both constructors place the experts heaviest first, each on a node with least to do:
`balanced` on any node, `capacity_weighted` on one that is under its quota. The quotas are
the capacities' largest-remainder shares of the experts.

Loads are counted without the 64-bit bound. `balanced` keeps no count of the experts on a
node; here both do, and only one asks for it.

* `place_spec` and `place_listed`: each expert as it comes goes to a node with least to do among
  those that may take it, so the placement is a list schedule in the sense of `Lib.Makespan`.
* `place_any` and `place_quota`: a node is always found.
* `order_heaviest`: the experts come heaviest first, which is what the bound rests on.
* `balanced_within` is the result: every expert has an owner, and the busiest node has at most
  `4/3 - 1/(3m)` of what the busiest node of any other assignment has.
-/

namespace Colibri.Cluster

open Makespan

/-! ## Placing -/

/-- The loads and counts of the nodes, and the owners so far. -/
structure Placing (numNodes : Nat) where
  load : Fin numNodes → Nat
  used : Fin numNodes → Nat
  table : Nat → Fin numNodes

/-- Nothing is placed; the table is all zeros. -/
def Placing.start {numNodes : Nat} (hn : 1 ≤ numNodes) : Placing numNodes :=
  ⟨fun _ => 0, fun _ => 0, fun _ => ⟨0, hn⟩⟩

/-- `table[e] = node`, and the node has one more. -/
def Placing.put {numNodes : Nat} (p : Placing numNodes) (e : Nat) (node : Fin numNodes)
    (weight : Nat) : Placing numNodes where
  load := Function.update p.load node (p.load node + weight)
  used := Function.update p.used node (p.used node + 1)
  table := Function.update p.table e node

/-- `weights.get(e)`, 0 past the end. -/
def weightOf (weights : List Nat) (e : Nat) : Nat := weights.getD e 0

/-- Heaviest expert first, ties by id. -/
def heavier (w : Nat → Nat) (a b : Nat) : Bool := w b < w a || (w a == w b && a ≤ b)

def order (nExperts : Nat) (w : Nat → Nat) : List Nat :=
  (List.range nExperts).mergeSort (heavier w)

section

variable {numNodes : Nat}

/-- The lightest of these nodes, ties to the first. -/
def lightest (load : Fin numNodes → Nat) (nodes : List (Fin numNodes)) : Option (Fin numNodes) :=
  nodes.argmin load

/-- The loop over the experts. `takes` says whether a node with so many experts may take one
more; `none` is where no node may. -/
def place (w : Nat → Nat) (takes : Fin numNodes → Nat → Bool) :
    List Nat → Placing numNodes → Option (Placing numNodes)
  | [], p => some p
  | e :: rest, p =>
    match lightest p.load ((List.finRange numNodes).filter fun i => takes i (p.used i)) with
    | none => none
    | some node => place w takes rest (p.put e node (w e))

/-- The experts of a node, of some. -/
def countOn (f : Nat → Fin numNodes) (es : List Nat) (i : Fin numNodes) : Nat :=
  Makespan.load (fun _ => 1) f es i

theorem countOn_cons (f : Nat → Fin numNodes) (e : Nat) (es : List Nat) (i : Fin numNodes) :
    countOn f (e :: es) i = (if f e = i then 1 else 0) + countOn f es i := load_cons e es i

variable {w : Nat → Nat} {takes : Fin numNodes → Nat → Bool} {p p' : Placing numNodes}

theorem put_load (e : Nat) (node k : Fin numNodes) (x : Nat) :
    (p.put e node x).load k = p.load k + if node = k then x else 0 := by
  unfold Placing.put
  dsimp only
  by_cases h : k = node
  · subst h
    simp
  · rw [Function.update_of_ne h, if_neg fun h' => h h'.symm, Nat.add_zero]

theorem put_used (e : Nat) (node k : Fin numNodes) (x : Nat) :
    (p.put e node x).used k = p.used k + if node = k then 1 else 0 := by
  unfold Placing.put
  dsimp only
  by_cases h : k = node
  · subst h
    simp
  · rw [Function.update_of_ne h, if_neg fun h' => h h'.symm, Nat.add_zero]

/-- One expert placed: on a node that may take it, with least to do among those. -/
theorem place_cons {e : Nat} {rest : List Nat} (h : place w takes (e :: rest) p = some p') :
    ∃ node, takes node (p.used node) = true ∧
      (∀ k, takes k (p.used k) = true → p.load node ≤ p.load k) ∧
      place w takes rest (p.put e node (w e)) = some p' := by
  rw [place] at h
  split at h
  next => cases h
  next node hnode =>
    have hmem := List.argmin_mem hnode
    rw [List.mem_filter] at hmem
    refine ⟨node, hmem.2, fun k hk => ?_, h⟩
    exact List.le_of_mem_argmin (List.mem_filter.mpr ⟨List.mem_finRange k, hk⟩) hnode

/-- Who is not placed keeps its owner. -/
theorem place_table {es : List Nat} (h : place w takes es p = some p') {e : Nat} (he : e ∉ es) :
    p'.table e = p.table e := by
  induction es generalizing p with
  | nil =>
    obtain rfl : p = p' := by simpa [place] using h
    rfl
  | cons x es ih =>
    obtain ⟨node, -, -, hrest⟩ := place_cons h
    have hne := List.ne_of_not_mem_cons he
    rw [ih hrest (List.not_mem_of_not_mem_cons he)]
    exact Function.update_of_ne hne _ _

theorem place_owner {e : Nat} {rest : List Nat} {node : Fin numNodes} (hnot : e ∉ rest)
    (h : place w takes rest (p.put e node (w e)) = some p') : p'.table e = node := by
  rw [place_table h hnot]
  exact Function.update_self ..

/-- The counts are kept with the table. -/
theorem place_used {es : List Nat} (hnodup : es.Nodup) (h : place w takes es p = some p')
    (k : Fin numNodes) : p'.used k = p.used k + countOn p'.table es k := by
  induction es generalizing p with
  | nil =>
    obtain rfl : p = p' := by simpa [place] using h
    rfl
  | cons e es ih =>
    obtain ⟨hnot, hes⟩ := List.nodup_cons.mp hnodup
    obtain ⟨node, -, -, hrest⟩ := place_cons h
    rw [ih hes hrest, put_used, countOn_cons, place_owner hnot hrest, Nat.add_assoc]

/-- **Each expert as it comes** goes to a node that has least to do among those that may take
it: of what was there, and what came before. -/
theorem place_spec {es : List Nat} (hnodup : es.Nodup) (h : place w takes es p = some p')
    {before after : List Nat} {e : Nat} (hes : es = before ++ e :: after) :
    takes (p'.table e) (p.used (p'.table e) + countOn p'.table before (p'.table e)) = true ∧
      ∀ k, takes k (p.used k + countOn p'.table before k) = true →
        p.load (p'.table e) + Makespan.load w p'.table before (p'.table e) ≤
          p.load k + Makespan.load w p'.table before k := by
  induction before generalizing es p with
  | nil =>
    subst hes
    obtain ⟨hnot, -⟩ := List.nodup_cons.mp hnodup
    obtain ⟨node, htakes, hleast, hrest⟩ := place_cons h
    rw [place_owner hnot hrest]
    exact ⟨htakes, hleast⟩
  | cons x before ih =>
    subst hes
    obtain ⟨hnot, hnd⟩ := List.nodup_cons.mp hnodup
    obtain ⟨node, -, -, hrest⟩ := place_cons h
    obtain ⟨htakes, hleast⟩ := ih hnd hrest rfl
    have hx := place_owner hnot hrest
    have hload : ∀ k, p.load k + Makespan.load w p'.table (x :: before) k =
        (p.put x node (w x)).load k + Makespan.load w p'.table before k := by
      intro k
      rw [put_load, load_cons, hx, Nat.add_assoc]
    have hused : ∀ k, p.used k + countOn p'.table (x :: before) k =
        (p.put x node (w x)).used k + countOn p'.table before k := by
      intro k
      rw [put_used, countOn_cons, hx, Nat.add_assoc]
    simp only [hload, hused]
    exact ⟨htakes, hleast⟩

/-- From nothing, the placement is a list schedule. -/
theorem place_listed {es : List Nat} {hn : 1 ≤ numNodes} (hnodup : es.Nodup)
    (h : place w takes es (.start hn) = some p') :
    Listed w Finset.univ (fun before k => takes k (countOn p'.table before k) = true) p'.table es := by
  intro before e after hes
  obtain ⟨htakes, hleast⟩ := place_spec hnodup h hes
  simp only [Placing.start, Nat.zero_add] at htakes hleast
  exact ⟨Finset.mem_univ _, htakes, fun k _ hk => hleast k hk⟩

/-- Where every node may always take one more, every expert finds a node. -/
theorem place_any (hn : 1 ≤ numNodes) (es : List Nat) (p : Placing numNodes) :
    ∃ p', place w (fun _ _ => true) es p = some p' := by
  induction es generalizing p with
  | nil => exact ⟨p, rfl⟩
  | cons e es ih =>
    rw [place]
    split
    next hnone =>
      have hmem : (⟨0, hn⟩ : Fin numNodes) ∈
          (List.finRange numNodes).filter fun i => (fun _ _ => true : Fin numNodes → Nat → Bool) i
            (p.used i) := by
        simp
      rw [List.argmin_eq_none.mp hnone] at hmem
      cases hmem
    next node hnode => exact ih _

/-- With quotas that are enough, every expert finds a node, and no node gets more. -/
theorem place_quota {q : Fin numNodes → Nat} {es : List Nat} {p : Placing numNodes}
    (hused : ∀ k, p.used k ≤ q k) (hroom : ∑ k, p.used k + es.length ≤ ∑ k, q k) :
    ∃ p', place w (fun i u => u < q i) es p = some p' ∧ ∀ k, p'.used k ≤ q k := by
  induction es generalizing p with
  | nil => exact ⟨p, rfl, hused⟩
  | cons e es ih =>
    rw [List.length_cons] at hroom
    rw [place]
    split
    next hnone =>
      -- the quotas are not used up
      obtain ⟨k, -, hk⟩ : ∃ k ∈ Finset.univ, p.used k < q k := by
        refine Finset.exists_lt_of_sum_lt ?_
        omega
      have hmem : k ∈ (List.finRange numNodes).filter fun i => decide (p.used i < q i) :=
        List.mem_filter.mpr ⟨List.mem_finRange k, decide_eq_true hk⟩
      rw [List.argmin_eq_none.mp hnone] at hmem
      cases hmem
    next node hnode =>
      have hmem := List.argmin_mem hnode
      rw [List.mem_filter, decide_eq_true_iff] at hmem
      refine ih (fun k => ?_) ?_
      · rw [put_used]
        split
        next hk =>
          subst hk
          exact hmem.2
        next => exact hused k
      · simp only [put_used, Finset.sum_add_distrib, Finset.sum_ite_eq, Finset.mem_univ, if_true]
        omega

end

/-! ## The order -/

section

variable {nExperts : Nat} {w : Nat → Nat}

theorem order_perm : (order nExperts w).Perm (List.range nExperts) := List.mergeSort_perm ..

theorem order_nodup : (order nExperts w).Nodup := order_perm.nodup_iff.mpr List.nodup_range

theorem order_lt {e : Nat} (h : e ∈ order nExperts w) : e < nExperts :=
  List.mem_range.mp (order_perm.mem_iff.mp h)

/-- No expert is heavier than one before it. -/
theorem order_heaviest : (order nExperts w).Pairwise fun a b => w b ≤ w a := by
  refine List.Pairwise.imp ?_ (List.pairwise_mergeSort ?_ ?_ _)
  · intro a b h
    simp only [heavier, Bool.or_eq_true, decide_eq_true_eq, Bool.and_eq_true, beq_iff_eq] at h
    omega
  · intro a b c
    simp only [heavier, Bool.or_eq_true, decide_eq_true_eq, Bool.and_eq_true, beq_iff_eq]
    omega
  · intro a b
    simp only [heavier, Bool.or_eq_true, decide_eq_true_eq, Bool.and_eq_true, beq_iff_eq]
    omega

end

/-! ## The maps -/

section

variable {numNodes nExperts : Nat} {weights : List Nat}

theorem placing_wf (p : Placing numNodes) (t : List Nat)
    (h : some ((List.range nExperts).map fun e => (p.table e).val) = some t) :
    t.length = nExperts ∧ ∀ node ∈ t, node < numNodes := by
  obtain rfl := Option.some.inj h
  refine ⟨by simp, fun node hnode => ?_⟩
  obtain ⟨e, -, rfl⟩ := List.mem_map.mp hnode
  exact (p.table e).isLt

/-- The map of a finished table. -/
def ofPlacing (nExperts : Nat) (he : 1 ≤ nExperts) (p : Placing numNodes) : ExpertSharding where
  numNodes := numNodes
  nExperts := nExperts
  table := some ((List.range nExperts).map fun e => (p.table e).val)
  numNodes_pos := Fin.pos (p.table 0)
  nExperts_pos := he
  table_wf := placing_wf p

theorem ofPlacing_owner {he : 1 ≤ nExperts} {p : Placing numNodes} {e : Nat} (h : e < nExperts) :
    (ofPlacing nExperts he p).owner e = p.table e := by
  unfold ExpertSharding.owner ofPlacing
  dsimp only
  rw [List.getD_eq_getElem?_getD, List.getElem?_map, List.getElem?_range h]
  rfl

/-- Loads by number of the node. -/
theorem ofPlacing_load {he : 1 ≤ nExperts} {p : Placing numNodes} {w : Nat → Nat} {es : List Nat}
    (hes : ∀ e ∈ es, e < nExperts) (k : Fin numNodes) :
    load w (ofPlacing nExperts he p).owner es k = load w p.table es k := by
  unfold load
  refine congrArg (fun l => (List.map w l).sum) (List.filter_congr fun e he => ?_)
  rw [ofPlacing_owner (hes e he), decide_eq_decide]
  exact Fin.val_inj

/-- `ExpertSharding::balanced`; a single node has them all. -/
def balanced (numNodes nExperts : Nat) (weights : List Nat) (hn : 1 ≤ numNodes)
    (he : 1 ≤ nExperts) : Option ExpertSharding :=
  if numNodes = 1 then some (.new 1 nExperts (Nat.le_refl 1) he)
  else
    (place (weightOf weights) (fun _ _ => true) (order nExperts (weightOf weights))
      (.start hn)).map (ofPlacing nExperts he)

/-- The load of the busiest node. -/
def busiest (weights : List Nat) (numNodes nExperts : Nat) (owner : Nat → Nat) : Nat :=
  makespan (weightOf weights) owner (List.range nExperts) (Finset.range numNodes)

/-- The bound in whole numbers. -/
theorem within_of_mul_le {m a c : Nat} (hm : 0 < m) (h : 3 * m * a ≤ (4 * m - 1) * c) :
    (a : ℚ) ≤ (4 / 3 - 1 / (3 * m)) * c := by
  have hm' : (0 : ℚ) < m := by exact_mod_cast hm
  have hq : (3 * m * a : ℚ) ≤ (4 * m - 1) * c := by
    have := (Nat.cast_le (α := ℚ)).mpr h
    rw [Nat.cast_mul, Nat.cast_mul, Nat.cast_mul, Nat.cast_sub (by omega)] at this
    exact_mod_cast this
  have hfrac : (4 / 3 - 1 / (3 * m) : ℚ) = (4 * m - 1) / (3 * m) := by
    field_simp
  rw [hfrac, div_mul_eq_mul_div, le_div_iff₀ (by linarith)]
  linarith

/-- A placement on any node is within the bound. -/
theorem busiest_ofPlacing (he : 1 ≤ nExperts) {hn : 1 ≤ numNodes} {p : Placing numNodes}
    (h : place (weightOf weights) (fun _ _ => true) (order nExperts (weightOf weights))
      (.start hn) = some p) {other : Nat → Nat} (hother : ∀ e < nExperts, other e < numNodes) :
    3 * numNodes * busiest weights numNodes nExperts (ofPlacing nExperts he p).owner ≤
      (4 * numNodes - 1) * busiest weights numNodes nExperts other := by
  have hlisted : Listed (weightOf weights) (Finset.range numNodes) (fun _ _ => True)
      (ofPlacing nExperts he p).owner (order nExperts (weightOf weights)) := by
    intro before e after hes
    have hlt : ∀ x ∈ before ++ e :: after, x < nExperts := fun x hx => order_lt (hes ▸ hx)
    have hbefore : ∀ x ∈ before, x < nExperts := fun x hx =>
      hlt x (List.mem_append_left _ hx)
    obtain ⟨-, -, hleast⟩ := place_listed order_nodup h before e after hes
    rw [ofPlacing_owner (hlt e (by simp))]
    refine ⟨Finset.mem_range.mpr (p.table e).isLt, trivial, fun k hk _ => ?_⟩
    have hk' := hleast ⟨k, Finset.mem_range.mp hk⟩ (Finset.mem_univ _) rfl
    rw [ofPlacing_load hbefore]
    refine hk'.trans (Nat.le_of_eq ?_)
    exact (ofPlacing_load hbefore ⟨k, Finset.mem_range.mp hk⟩).symm
  obtain ⟨k, hk, hmax⟩ := Finset.exists_mem_eq_sup (Finset.range numNodes)
    ⟨0, Finset.mem_range.mpr hn⟩ (load (weightOf weights) (ofPlacing nExperts he p).owner
      (List.range nExperts))
  have hgraham := hlisted.le_of_heaviest order_heaviest (g := other)
    (c := busiest weights numNodes nExperts other)
    (fun e he => Finset.mem_range.mpr (hother e (order_lt he))) (fun k hk => ?_) hk
  · rw [Finset.card_range, load_perm order_perm] at hgraham
    rw [busiest, makespan, hmax]
    exact hgraham
  · rw [load_perm order_perm]
    exact load_le_makespan hk

/-- **The balanced map** gives every expert a node, and its busiest node has at most
`4/3 - 1/(3m)` of what the busiest has under any other map. -/
theorem balanced_within (weights : List Nat) (hn : 1 ≤ numNodes) (he : 1 ≤ nExperts) :
    ∃ s, balanced numNodes nExperts weights hn he = some s ∧
      s.numNodes = numNodes ∧ s.nExperts = nExperts ∧
      (∀ e < nExperts, s.owner e < numNodes) ∧
      ∀ other : Nat → Nat, (∀ e < nExperts, other e < numNodes) →
        (busiest weights numNodes nExperts s.owner : ℚ) ≤
          (4 / 3 - 1 / (3 * numNodes)) * busiest weights numNodes nExperts other := by
  unfold balanced
  by_cases hone : numNodes = 1
  · subst hone
    have howner : ∀ e < nExperts, (ExpertSharding.new 1 nExperts (Nat.le_refl 1) he).owner e < 1 :=
      fun e he' => ExpertSharding.owner_lt he'
    refine ⟨_, if_pos rfl, rfl, rfl, howner, fun other hother => ?_⟩
    have hsame : busiest weights 1 nExperts
        (ExpertSharding.new 1 nExperts (Nat.le_refl 1) he).owner =
        busiest weights 1 nExperts other := by
      unfold busiest makespan
      refine Finset.sup_congr rfl fun k _ => load_congr (fun e he' => ?_) k
      have hlt := List.mem_range.mp he'
      have h1 := howner e hlt
      have h2 := hother e hlt
      omega
    rw [hsame]
    exact within_of_mul_le Nat.one_pos (Nat.le_of_eq (by omega))
  · rw [if_neg hone]
    obtain ⟨p, hp⟩ := @place_any _ (weightOf weights) hn (order nExperts (weightOf weights))
      (.start hn)
    rw [hp]
    refine ⟨_, rfl, rfl, rfl, fun e he' => ?_, fun other hother => ?_⟩
    · rw [ofPlacing_owner he']
      exact (p.table e).isLt
    · exact within_of_mul_le hn (busiest_ofPlacing he hp hother)

/-- Five experts on two nodes. -/
theorem balanced_within_five : ∃ s, balanced 2 5 [3, 3, 2, 2, 2] (by decide) (by decide) = some s ∧
    s.numNodes = 2 ∧ s.nExperts = 5 ∧ (∀ e < 5, s.owner e < 2) ∧
    ∀ other : Nat → Nat, (∀ e < 5, other e < 2) →
      (busiest [3, 3, 2, 2, 2] 2 5 s.owner : ℚ) ≤
        (4 / 3 - 1 / (3 * (2 : Nat))) * busiest [3, 3, 2, 2, 2] 2 5 other :=
  balanced_within [3, 3, 2, 2, 2] (by decide) (by decide)

end

end Colibri.Cluster
