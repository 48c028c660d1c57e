import Colibri.Lib.Batch

/-!
# Work handed out in slices

A list of calls is cut into slices, each slice is run by a thread of its own, one call after
the other up to the first error, and the results are joined in order. All threads are waited
for before any error is looked at, so a panic anywhere comes first.

What comes out is what a single thread would have returned (`run_ok_iff`), with the same
error (`error_of_run`). Only a panic may be seen that a single thread would not have
reached; it is still one of a call (`panic_of_run`).
-/

namespace Fanout

open Batch

variable {ε σ τ : Type}

/-- What the threads have, in order: all of it, or the first error. -/
def collect : List (Outcome ε (List τ)) → Outcome ε (List τ)
  | [] => .ok []
  | part :: parts => part.bind fun ys => (collect parts).bind fun rest => .ok (ys ++ rest)

def isPanic : Outcome ε τ → Bool
  | .panic => true
  | _ => false

def run (f : σ → Outcome ε τ) (slices : List (List σ)) : Outcome ε (List τ) :=
  let parts := slices.map fun slice => slice.mapM f
  if parts.any isPanic then .panic else collect parts

variable {f : σ → Outcome ε τ}

/-- Without a panic, the slices come to what the whole list does. -/
theorem collect_eq (f : σ → Outcome ε τ) (slices : List (List σ)) :
    collect (slices.map fun slice => slice.mapM f) = slices.flatten.mapM f := by
  induction slices with
  | nil => rfl
  | cons slice slices ih =>
    rw [List.map_cons, collect, ih, List.flatten_cons, List.mapM_append]
    rfl

theorem isPanic_iff {x : Outcome ε τ} : isPanic x = true ↔ x = .panic := by
  cases x <;> simp [isPanic]

theorem exists_panic {xs : List σ} (h : xs.mapM f = .panic) : ∃ x ∈ xs, f x = .panic := by
  have hfollows := follows_mapM f xs
  rw [h] at hfollows
  exact hfollows

/-- A loop of calls reports the error of one of them. -/
theorem exists_error {xs : List σ} {e : ε} (h : xs.mapM f = .error e) :
    ∃ x ∈ xs, f x = .error e := by
  induction xs with
  | nil => cases h
  | cons x xs ih =>
    rw [List.mapM_cons] at h
    cases hx : f x with
    | ok y =>
      rw [hx, Outcome.ok_bind] at h
      cases hxs : xs.mapM f with
      | ok ys =>
        rw [hxs] at h
        cases h
      | error e' =>
        rw [hxs] at h
        cases h
        obtain ⟨x', hx', he⟩ := ih hxs
        exact ⟨x', List.mem_cons_of_mem _ hx', he⟩
      | panic =>
        rw [hxs] at h
        cases h
    | error e' =>
      rw [hx] at h
      cases h
      exact ⟨x, List.mem_cons_self, hx⟩
    | panic =>
      rw [hx] at h
      cases h

/-- Either a thread panics, or the slices do not show. -/
theorem run_cases (f : σ → Outcome ε τ) (slices : List (List σ)) :
    (run f slices = .panic ∧ ∃ x ∈ slices.flatten, f x = .panic) ∨
      run f slices = slices.flatten.mapM f := by
  rw [run, collect_eq]
  split
  next hany =>
    obtain ⟨part, hpart, hpanic⟩ := List.any_eq_true.mp hany
    obtain ⟨slice, hslice, rfl⟩ := List.mem_map.mp hpart
    obtain ⟨x, hx, hxp⟩ := exists_panic (isPanic_iff.mp hpanic)
    exact .inl ⟨rfl, x, List.mem_flatten.mpr ⟨slice, hslice, hx⟩, hxp⟩
  next => exact .inr rfl

/-- **Handed out or not**, a list of calls returns the same. -/
theorem run_ok_iff {slices : List (List σ)} {ys : List τ} :
    run f slices = .ok ys ↔ slices.flatten.mapM f = .ok ys := by
  rcases run_cases f slices with ⟨hrun, x, hx, hpanic⟩ | hrun
  · rw [hrun]
    refine ⟨nofun, fun h => ?_⟩
    obtain ⟨y, hy⟩ := ok_of_mapM h x hx
    rw [hpanic] at hy
    cases hy
  · rw [hrun]

theorem error_of_run {slices : List (List σ)} {e : ε} (h : run f slices = .error e) :
    slices.flatten.mapM f = .error e := by
  rcases run_cases f slices with ⟨hrun, -⟩ | hrun
  · rw [hrun] at h
    cases h
  · rw [← hrun, h]

theorem panic_of_run {slices : List (List σ)} (h : run f slices = .panic) :
    ∃ x ∈ slices.flatten, f x = .panic := by
  rcases run_cases f slices with ⟨-, hpanic⟩ | hrun
  · exact hpanic
  · exact exists_panic (hrun.symm.trans h)

end Fanout
