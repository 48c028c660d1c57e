import Mathlib.Data.Matrix.Mul

/-!
# The delta rule

A matrix holds associations of keys with values, a row for every entry of a key. A step
lets them decay row by row, and moves what is stored under the new key towards the new
value; reading multiplies a query into the matrix. A run writes each token and then reads
with its query.

`update` is a step and `read` a query; `run` goes through tokens. The two lemmas are their entries:
what the loops of a program compute has to be brought to this form, and the rest is the sum.
-/

namespace Colibri.Delta

open Matrix

variable {n α : Type} [Fintype n] [DecidableEq n] [CommRing α]

/-- The associations after a step. -/
def update (decay k v : n → α) (rate : α) (s : Matrix n n α) : Matrix n n α :=
  diagonal decay * s + vecMulVec (rate • k) (v - k ᵥ* (diagonal decay * s))

/-- What is read with a query. -/
def read (q : n → α) (s : Matrix n n α) : n → α := q ᵥ* s

theorem update_apply (decay k v : n → α) (rate : α) (s : Matrix n n α) (i j : n) :
    update decay k v rate s i j
      = s i j * decay i + rate * k i * (v j - ∑ l, k l * (s l j * decay l)) := by
  have hdecay : ∀ l, (diagonal decay * s) l j = s l j * decay l := fun l => by
    rw [diagonal_mul, mul_comm]
  simp only [update, Matrix.add_apply, vecMulVec_apply, Pi.smul_apply, smul_eq_mul, Pi.sub_apply,
    vecMul, dotProduct, hdecay]

omit [DecidableEq n] in
theorem read_apply (q : n → α) (s : Matrix n n α) (j : n) : read q s j = ∑ l, q l * s l j := rfl

/-- A token: what is written, how fast, and what is read. -/
structure Token (n α : Type) where
  decay : n → α
  k : n → α
  v : n → α
  rate : α
  q : n → α

/-- The associations after a token. -/
def Token.step (tok : Token n α) (s : Matrix n n α) : Matrix n n α :=
  update tok.decay tok.k tok.v tok.rate s

/-- What is read at each token, and the associations after the last one. -/
def run : List (Token n α) → Matrix n n α → List (n → α) × Matrix n n α
  | [], s => ([], s)
  | tok :: toks, s =>
    let rest := run toks (tok.step s)
    (read tok.q (tok.step s) :: rest.1, rest.2)

end Colibri.Delta
