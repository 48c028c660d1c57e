import Mathlib.Data.List.Induction
import Mathlib.Algebra.BigOperators.Group.List.Basic
import Mathlib.Order.Lattice

/-!
# Grouping by a key, in an ordered map

The items of a list are pushed one after another onto the group of their key, the
groups kept in ascending order of key, as an ordered map holds them. The groups
split the list: each item is in the one group of its key (`Grouped`), so a sum
over the groups is the sum over the list.

`push` is one item, `groupBy` the list; `push_sorted` and `push_perm` are the step, and
`Grouped.push` puts both together with what a group holds.
-/

namespace Colibri.GroupBy

variable {κ α : Type} [LinearOrder κ]

/-- Push `x` onto the group of `k`, which is made where there is none. -/
def push (k : κ) (x : α) : List (κ × List α) → List (κ × List α)
  | [] => [(k, [x])]
  | (k', xs) :: gs =>
    if k < k' then (k, [x]) :: (k', xs) :: gs
    else if k = k' then (k', xs ++ [x]) :: gs
    else (k', xs) :: push k x gs

/-- The items of `xs` by key, keys ascending. -/
def groupBy (key : α → κ) (xs : List α) : List (κ × List α) :=
  xs.foldl (fun gs x => push (key x) x gs) []

/-- `gs` is `xs` by key: the keys ascend strictly, no group is empty, a group holds
items of its key, and the groups together are `xs`. -/
structure Grouped (key : α → κ) (xs : List α) (gs : List (κ × List α)) : Prop where
  sorted : (gs.map Prod.fst).Pairwise (· < ·)
  nonempty : ∀ k g, (k, g) ∈ gs → g ≠ []
  key_eq : ∀ k g, (k, g) ∈ gs → ∀ x ∈ g, key x = k
  perm : (gs.flatMap Prod.snd).Perm xs

theorem push_cons (k : κ) (x : α) (g : κ × List α) (gs : List (κ × List α)) :
    push k x (g :: gs) = if k < g.1 then (k, [x]) :: g :: gs
      else if k = g.1 then (g.1, g.2 ++ [x]) :: gs
      else g :: push k x gs := rfl

variable {gs : List (κ × List α)}

theorem mem_keys_push {k k' : κ} {x : α}
    (h : k' ∈ (push k x gs).map Prod.fst) : k' = k ∨ k' ∈ gs.map Prod.fst := by
  induction gs with
  | nil => exact Or.inl (List.mem_singleton.mp h)
  | cons g gs ih =>
    rw [push_cons] at h
    split at h
    · exact List.mem_cons.mp h
    · split at h
      · exact Or.inr h
      · rcases List.mem_cons.mp h with rfl | h
        · exact Or.inr (List.mem_cons_self ..)
        · rcases ih h with h | h
          · exact Or.inl h
          · exact Or.inr (List.mem_cons_of_mem _ h)

/-- The keys stay in ascending order. -/
theorem push_sorted {k : κ} {x : α}
    (h : (gs.map Prod.fst).Pairwise (· < ·)) : ((push k x gs).map Prod.fst).Pairwise (· < ·) := by
  induction gs with
  | nil => exact List.pairwise_singleton _ _
  | cons g gs ih =>
    obtain ⟨hhead, htail⟩ := List.pairwise_cons.mp h
    rw [push_cons]
    split
    next hlt =>
      refine List.pairwise_cons.mpr ⟨fun k' hk' => ?_, h⟩
      rcases List.mem_cons.mp hk' with rfl | hk'
      · exact hlt
      · exact lt_trans hlt (hhead k' hk')
    next hnlt =>
      split
      · exact h
      next hne =>
        refine List.pairwise_cons.mpr ⟨fun k' hk' => ?_, ih htail⟩
        rcases mem_keys_push hk' with rfl | hk'
        · exact lt_of_le_of_ne (not_lt.mp hnlt) (Ne.symm hne)
        · exact hhead k' hk'

theorem push_perm (k : κ) (x : α) (gs : List (κ × List α)) :
    ((push k x gs).flatMap Prod.snd).Perm (x :: gs.flatMap Prod.snd) := by
  induction gs with
  | nil => exact List.Perm.refl _
  | cons g gs ih =>
    rw [push_cons]
    split
    · exact List.Perm.refl _
    · split
      · show ((g.2 ++ [x]) ++ gs.flatMap Prod.snd).Perm _
        rw [List.append_assoc]
        exact List.perm_middle
      · show (g.2 ++ (push k x gs).flatMap Prod.snd).Perm _
        exact (ih.append_left g.2).trans List.perm_middle

/-- A group after a push is an old one, or the one of the pushed item. -/
theorem mem_push {k k' : κ} {x : α} {g : List α}
    (h : (k', g) ∈ push k x gs) :
    (k', g) ∈ gs ∨ (k' = k ∧ (g = [x] ∨ ∃ old, (k, old) ∈ gs ∧ g = old ++ [x])) := by
  induction gs with
  | nil =>
    obtain ⟨hk, hg⟩ := Prod.mk.inj (List.mem_singleton.mp h)
    exact Or.inr ⟨hk, Or.inl hg⟩
  | cons g₀ gs ih =>
    rw [push_cons] at h
    split at h
    · rcases List.mem_cons.mp h with h | h
      · rw [Prod.mk.injEq] at h
        exact Or.inr ⟨h.1, Or.inl h.2⟩
      · exact Or.inl h
    · split at h
      next heq =>
        rcases List.mem_cons.mp h with h | h
        · rw [Prod.mk.injEq] at h
          refine Or.inr ⟨h.1.trans heq.symm, Or.inr ⟨g₀.2, ?_, h.2⟩⟩
          rw [heq]
          exact List.mem_cons_self ..
        · exact Or.inl (List.mem_cons_of_mem _ h)
      · rcases List.mem_cons.mp h with h | h
        · rw [h]
          exact Or.inl (List.mem_cons_self ..)
        · rcases ih h with h | ⟨hk, h | ⟨old, hold, h⟩⟩
          · exact Or.inl (List.mem_cons_of_mem _ h)
          · exact Or.inr ⟨hk, Or.inl h⟩
          · exact Or.inr ⟨hk, Or.inr ⟨old, List.mem_cons_of_mem _ hold, h⟩⟩

/-- **A push** keeps the groups those of their keys. -/
theorem Grouped.push {key : α → κ} {xs : List α}
    (h : Grouped key xs gs) (x : α) : Grouped key (xs ++ [x]) (push (key x) x gs) where
  sorted := push_sorted h.sorted
  nonempty := by
    intro k g hg
    rcases mem_push hg with hg | ⟨_, rfl | ⟨old, _, rfl⟩⟩
    · exact h.nonempty k g hg
    · exact List.cons_ne_nil _ _
    · exact List.append_ne_nil_of_right_ne_nil _ (List.cons_ne_nil _ _)
  key_eq := by
    intro k g hg y hy
    rcases mem_push hg with hg | ⟨rfl, rfl | ⟨old, hold, rfl⟩⟩
    · exact h.key_eq k g hg y hy
    · rw [List.mem_singleton.mp hy]
    · rcases List.mem_append.mp hy with hy | hy
      · exact h.key_eq _ old hold y hy
      · rw [List.mem_singleton.mp hy]
  perm := by
    refine (push_perm _ _ _).trans ?_
    refine (h.perm.cons x).trans ?_
    exact (List.perm_append_singleton x xs).symm

/-- **What grouping gives.** -/
theorem groupBy_grouped (key : α → κ) (xs : List α) : Grouped key xs (groupBy key xs) := by
  induction xs using List.reverseRecOn with
  | nil => exact ⟨List.Pairwise.nil, fun _ _ h => absurd h (List.not_mem_nil),
      fun _ _ h => absurd h (List.not_mem_nil), List.Perm.refl _⟩
  | append_singleton xs x ih =>
    have hstep : groupBy key (xs ++ [x]) = push (key x) x (groupBy key xs) := by
      rw [groupBy, List.foldl_append]
      rfl
    rw [hstep]
    exact ih.push x

theorem Grouped.nodup {key : α → κ} {xs : List α}
    (h : Grouped key xs gs) : (gs.map Prod.fst).Nodup :=
  h.sorted.imp fun hlt => ne_of_lt hlt

theorem Grouped.flatMap_perm {β : Type} {key : α → κ} {xs : List α}
    (h : Grouped key xs gs) (f : α → List β) :
    (gs.flatMap (fun g => g.2.flatMap f)).Perm (xs.flatMap f) := by
  rw [← List.flatMap_assoc]
  exact h.perm.flatMap_right f

end Colibri.GroupBy
