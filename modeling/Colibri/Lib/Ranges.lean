import Mathlib.Algebra.Order.Ring.Nat
import Mathlib.Order.Interval.Finset.Nat

/-!
# Ranges of memory

An allocation is an address and a number of bytes. Ranges that share no byte fit side by
side, so what they add up to is bounded by the space they are in. A vector's
`swap_remove` keeps the other elements, in another order.

`card_union` counts the bytes of ranges that are apart, and `union_subset` puts them in the space
from address 1 on, as no allocation is at address 0.
-/

structure Range where
  addr : Nat
  cap : Nat
deriving DecidableEq

namespace Range

/-- The bytes of a range. -/
def cells (r : Range) : Finset Nat := Finset.Ico r.addr (r.addr + r.cap)

/-- No byte in common. -/
def Apart (r q : Range) : Prop := Disjoint r.cells q.cells

theorem Apart.symm {r q : Range} (h : r.Apart q) : q.Apart r := Disjoint.symm h

theorem Apart.addr_ne {r q : Range} (h : r.Apart q) (hr : 0 < r.cap) (hq : 0 < q.cap) :
    r.addr ≠ q.addr := by
  intro heq
  have hin : r.addr ∈ r.cells := Finset.mem_Ico.mpr ⟨Nat.le_refl _, by omega⟩
  have hin' : r.addr ∈ q.cells := Finset.mem_Ico.mpr ⟨heq ▸ Nat.le_refl _, by omega⟩
  exact Finset.disjoint_left.mp h hin hin'

/-- Different members of a list of ranges apart from each other. -/
theorem apart_of_mem {l : List Range} (h : l.Pairwise Apart) {r q : Range} (hr : r ∈ l) (hq : q ∈ l)
    (hne : r ≠ q) : r.Apart q := by
  induction l with
  | nil => cases hr
  | cons x l ih =>
    obtain ⟨hx, hl⟩ := List.pairwise_cons.mp h
    rcases List.mem_cons.mp hr with hrx | hr <;> rcases List.mem_cons.mp hq with hqx | hq
    · exact absurd (hrx.trans hqx.symm) hne
    · exact hrx ▸ hx q hq
    · exact (hqx ▸ hx r hr : q.Apart r).symm
    · exact ih hl hr hq

/-- All the bytes of a list of ranges. -/
def union (l : List Range) : Finset Nat := l.foldr (fun r acc => r.cells ∪ acc) ∅

theorem union_disjoint {r : Range} {l : List Range} (h : ∀ q ∈ l, r.Apart q) :
    Disjoint r.cells (union l) := by
  induction l with
  | nil => exact Finset.disjoint_empty_right _
  | cons q l ih =>
    refine Finset.disjoint_union_right.mpr ⟨h q (List.mem_cons_self ..), ih fun x hx => ?_⟩
    exact h x (List.mem_cons_of_mem _ hx)

theorem card_union {l : List Range} (h : l.Pairwise Apart) :
    (union l).card = (l.map cap).sum := by
  induction l with
  | nil => rfl
  | cons r l ih =>
    obtain ⟨hr, hl⟩ := List.pairwise_cons.mp h
    show (r.cells ∪ union l).card = _
    rw [Finset.card_union_of_disjoint (union_disjoint hr), ih hl, List.map_cons, List.sum_cons,
      cells, Nat.card_Ico, Nat.add_sub_cancel_left]

theorem union_subset {l : List Range} {n : Nat}
    (h : ∀ r ∈ l, 0 < r.addr ∧ r.addr + r.cap ≤ n) : union l ⊆ Finset.Ico 1 n := by
  induction l with
  | nil => exact Finset.empty_subset _
  | cons r l ih =>
    refine Finset.union_subset ?_ (ih fun x hx => h x (List.mem_cons_of_mem _ hx))
    obtain ⟨hpos, hle⟩ := h r (List.mem_cons_self ..)
    exact Finset.Ico_subset_Ico hpos hle

theorem sum_cap_lt {l : List Range} {n : Nat} (h : l.Pairwise Apart)
    (hin : ∀ r ∈ l, 0 < r.addr ∧ r.addr + r.cap ≤ n) (hn : 0 < n) : (l.map cap).sum < n := by
  have hle := Finset.card_le_card (union_subset hin)
  rw [card_union h, Nat.card_Ico] at hle
  omega

end Range

/-- `Vec::swap_remove`: the last element takes the place of the one removed. -/
def swapRemove {α : Type} (l : List α) (i : Nat) : List α :=
  match l.getLast? with
  | none => []
  | some x => (l.set i x).dropLast

/-- `swap_remove` takes out one element and keeps the others. -/
theorem swapRemove_perm {α : Type} {l : List α} {i : Nat} {a : α} (h : l[i]? = some a) :
    (a :: swapRemove l i).Perm l := by
  obtain ⟨hi, -⟩ := List.getElem?_eq_some_iff.mp h
  obtain ⟨l, x, rfl⟩ : ∃ init x, l = init ++ [x] :=
    ⟨_, _, (List.dropLast_append_getLast (List.ne_nil_of_length_pos (by omega))).symm⟩
  rw [swapRemove, List.getLast?_concat]
  show (a :: ((l ++ [x]).set i x).dropLast).Perm _
  rw [List.length_append, List.length_singleton] at hi
  by_cases hlast : i = l.length
  · subst hlast
    rw [List.getElem?_concat_length, Option.some.injEq] at h
    rw [List.set_append_right _ _ (Nat.le_refl _), Nat.sub_self, List.set_cons_zero,
      List.dropLast_concat, h]
    exact (List.perm_append_singleton a l).symm
  · have hlt : i < l.length := by omega
    rw [List.getElem?_append_left hlt] at h
    obtain ⟨_, hl⟩ := List.getElem?_eq_some_iff.mp h
    rw [List.set_append_left _ _ hlt, List.dropLast_concat]
    have hset := List.set_perm_cons_eraseIdx hlt x
    have hrest := List.getElem_cons_eraseIdx_perm hlt
    rw [hl] at hrest
    calc (a :: l.set i x).Perm (a :: x :: l.eraseIdx i) := hset.cons a
      _ |>.Perm (x :: a :: l.eraseIdx i) := List.Perm.swap x a _
      _ |>.Perm (x :: l) := hrest.cons x
      _ |>.Perm (l ++ [x]) := (List.perm_append_singleton x l).symm
