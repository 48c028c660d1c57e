import Mathlib.Algebra.Order.Ring.Nat
import Mathlib.Data.List.Basic

/-!
# Runs of a labelled transition system

A run is the states a system goes through and the labels of its steps. What one step
keeps, a run keeps (`Run.inv`); an invariant may speak of the labels so far
(`Run.trace_inv`), and of steps that are known to meet a condition.

A pool of tasks is a list where a step replaces one task or adds one; what holds of
every task is kept if it holds of the new one.
-/

namespace Lts

section

variable {σ ε : Type} {Step : σ → ε → σ → Prop}

/-- A run from `init`: the labels of its steps, the first in front, and where it ends. -/
inductive Run (Step : σ → ε → σ → Prop) (init : σ) : List ε → σ → Prop where
  | start : Run Step init [] init
  | next {trace : List ε} {s t : σ} {e : ε} :
    Run Step init trace s → Step s e t → Run Step init (trace ++ [e]) t

theorem Run.trace_inv {init : σ} {I : List ε → σ → Prop} (h0 : I [] init)
    (hstep : ∀ trace s e t, I trace s → Step s e t → I (trace ++ [e]) t) {trace : List ε} {s : σ}
    (h : Run Step init trace s) : I trace s := by
  induction h with
  | start => exact h0
  | next _ hs ih => exact hstep _ _ _ _ ih hs

theorem Run.inv {init : σ} {I : σ → Prop} (h0 : I init)
    (hstep : ∀ s e t, I s → Step s e t → I t) {trace : List ε} {s : σ}
    (h : Run Step init trace s) : I s :=
  h.trace_inv h0 fun _ s e t hi hs => hstep s e t hi hs

theorem Run.mono {Step' : σ → ε → σ → Prop} (hle : ∀ s e t, Step s e t → Step' s e t) {init s : σ}
    {trace : List ε} (h : Run Step init trace s) : Run Step' init trace s := by
  induction h with
  | start => exact .start
  | next _ hs ih => exact .next ih (hle _ _ _ hs)

end

section

variable {τ : Type} {P : τ → Prop} {tasks : List τ}

theorem forall_set (h : ∀ t ∈ tasks, P t) {t : τ} (ht : P t) (i : Nat) :
    ∀ u ∈ tasks.set i t, P u := by
  intro u hu
  rcases List.mem_or_eq_of_mem_set hu with hu | rfl
  · exact h u hu
  · exact ht

theorem forall_concat (h : ∀ t ∈ tasks, P t) {t : τ} (ht : P t) : ∀ u ∈ tasks ++ [t], P u := by
  intro u hu
  rcases List.mem_append.mp hu with hu | hu
  · exact h u hu
  · rw [List.mem_singleton] at hu
    rw [hu]
    exact ht

/-- A task after a step: the one that went on, or another as it was. -/
theorem set_cases {i j : Nat} {t u v : τ} (hi : tasks[i]? = some t)
    (hj : (tasks.set i u)[j]? = some v) : i = j ∧ v = u ∨ i ≠ j ∧ tasks[j]? = some v := by
  by_cases hij : i = j
  · subst hij
    rw [List.getElem?_set_self (List.getElem?_eq_some_iff.mp hi).1, Option.some.injEq] at hj
    exact Or.inl ⟨rfl, hj.symm⟩
  · rw [List.getElem?_set_ne hij] at hj
    exact Or.inr ⟨hij, hj⟩

/-- Replacing one task moves a count by what the two tasks count. -/
theorem countP_set {p : τ → Bool} {i : Nat} {t u : τ} (h : tasks[i]? = some t) :
    (tasks.set i u).countP p + (if p t then 1 else 0)
      = tasks.countP p + (if p u then 1 else 0) := by
  induction tasks generalizing i with
  | nil => cases h
  | cons v tasks ih =>
    cases i with
    | zero =>
      rw [List.getElem?_cons_zero, Option.some.injEq] at h
      rw [h, List.set_cons_zero, List.countP_cons, List.countP_cons]
      omega
    | succ i =>
      have hrest := ih (i := i) h
      rw [List.set_cons_succ, List.countP_cons, List.countP_cons]
      omega

/-- Replacing one task moves a sum by what the two tasks add. -/
theorem sum_set {f : τ → Nat} {i : Nat} {t u : τ} (h : tasks[i]? = some t) :
    ((tasks.set i u).map f).sum + f t = (tasks.map f).sum + f u := by
  induction tasks generalizing i with
  | nil => cases h
  | cons v tasks ih =>
    cases i with
    | zero =>
      rw [List.getElem?_cons_zero, Option.some.injEq] at h
      rw [h, List.set_cons_zero, List.map_cons, List.map_cons, List.sum_cons, List.sum_cons]
      omega
    | succ i =>
      have hrest := ih (i := i) h
      rw [List.set_cons_succ, List.map_cons, List.map_cons, List.sum_cons, List.sum_cons]
      omega

/-- Replacing one task moves what the tasks hold by what the two hold. -/
theorem flatMap_set_perm {α : Type} {f : τ → List α} {i : Nat} {t u : τ}
    (h : tasks[i]? = some t) :
    (f t ++ (tasks.set i u).flatMap f).Perm (f u ++ tasks.flatMap f) := by
  induction tasks generalizing i with
  | nil => cases h
  | cons v tasks ih =>
    cases i with
    | zero =>
      rw [List.getElem?_cons_zero, Option.some.injEq] at h
      rw [h, List.set_cons_zero, List.flatMap_cons, List.flatMap_cons, ← List.append_assoc,
        ← List.append_assoc]
      exact (List.perm_append_comm).append_right _
    | succ i =>
      have hrest := ih (i := i) h
      rw [List.set_cons_succ, List.flatMap_cons, List.flatMap_cons]
      calc (f t ++ (f v ++ (tasks.set i u).flatMap f)).Perm
            (f v ++ (f t ++ (tasks.set i u).flatMap f)) := List.perm_append_comm_assoc ..
        _ |>.Perm (f v ++ (f u ++ tasks.flatMap f)) := hrest.append_left _
        _ |>.Perm (f u ++ (f v ++ tasks.flatMap f)) := List.perm_append_comm_assoc ..

theorem sum_concat {f : τ → Nat} {t : τ} :
    ((tasks ++ [t]).map f).sum = (tasks.map f).sum + f t := by
  rw [List.map_append, List.sum_append, List.map_singleton, List.sum_singleton]

end

end Lts
