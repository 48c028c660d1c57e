import Colibri.Attention.Mla
import Colibri.Lib.Chunks

/-!
# Matmuls row by row

`matmul_qt` takes the rows of a chunk all at once, and each by itself.

`matmulRows_eq_mapM` is that: the product of the chunk is there where each row's is, and is made of
these. A chunk without a row is no product at all, so its shape is not asked for.
-/

namespace Colibri.Attention

open Colibri.Chunks Colibri.Moe

variable {α : Type}

/-- `matmul_qt` on a row. -/
def matmulRow (o : Nat) (w : QTensor α) (row : List α) : Option (List α) :=
  if row.length = w.i ∧ o = w.o then some (w.dot row) else none

/-- **A chunk is multiplied row by row.** -/
theorem matmulRows_eq_mapM {o : Nat} {w : QTensor α} (x : List (List α)) :
    matmulRows o x w = x.mapM (matmulRow o w) := by
  induction x with
  | nil => simp [matmulRows]
  | cons row rest ih =>
    rw [List.mapM_cons, ← ih]
    unfold matmulRows matmulRow
    by_cases hrow : row.length = w.i ∧ o = w.o
    · rw [if_pos hrow]
      by_cases hrest : ∀ r ∈ rest, r.length = w.i
      · have hall : ∀ r ∈ row :: rest, r.length = w.i := fun r hr => by
          rcases List.mem_cons.mp hr with heq | hr
          · rw [heq]
            exact hrow.1
          · exact hrest r hr
        rw [if_pos ⟨hall, fun _ => hrow.2⟩, if_pos ⟨hrest, fun _ => hrow.2⟩]
        rfl
      · have hbad : ¬ ∀ r ∈ row :: rest, r.length = w.i :=
          fun h => hrest fun r hr => h r (List.mem_cons_of_mem _ hr)
        rw [if_neg fun h => hbad h.1, if_neg fun h => hrest h.1]
        rfl
    · rw [if_neg hrow, if_neg fun h => hrow
        ⟨h.1 row (List.mem_cons_self ..), h.2 (List.cons_ne_nil _ _)⟩]
      rfl

end Colibri.Attention
