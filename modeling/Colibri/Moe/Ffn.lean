import Mathlib.Algebra.Field.Defs
import Mathlib.Algebra.Order.Ring.Nat
import Mathlib.Algebra.BigOperators.Group.List.Basic
import Mathlib.Data.List.GetD

/-!
# The feed-forward of an expert

A buffer `[S, d]` is a flat list, row after row. A matrix product takes each row by
itself, and so does everything `ffn_cpu` does between its three products; `ffnCpu_eq`
says so: on tensors that fit together it is one function of a row, applied to every row.
The scalar functions of the activations are parameters.

`rowOf` is a row of a buffer and `byRow` a function of a row, applied to each. The rules of the two
are simp-like: two functions one after the other are one (`byRow_byRow`), and so are two that are
joined entry by entry (`zipWith_byRow`).
-/

namespace Colibri.Moe

section

variable {α : Type}

/-- Row `r` of a buffer of rows of length `d`. -/
def rowOf (d : Nat) (x : List α) (r : Nat) : List α := (x.drop (r * d)).take d

/-- A function of a row, applied to the first `n` rows. -/
def byRow (d : Nat) (f : List α → List α) (x : List α) (n : Nat) : List α :=
  (List.range n).flatMap fun r => f (rowOf d x r)

variable {x : List α} {n : Nat} {f : List α → List α}

theorem rowOf_append_zero {d : Nat} (hx : x.length = d) (y : List α) :
    rowOf d (x ++ y) 0 = x := by
  rw [rowOf, Nat.zero_mul, List.drop_zero, ← hx, List.take_left]

theorem rowOf_append_succ {d : Nat} (hx : x.length = d) (y : List α) (r : Nat) :
    rowOf d (x ++ y) (r + 1) = rowOf d y r := by
  rw [rowOf, rowOf, Nat.succ_mul, Nat.add_comm, ← List.drop_drop, List.drop_left' hx]

theorem length_rowOf {d r : Nat} (hx : x.length = n * d) (hr : r < n) :
    (rowOf d x r).length = d := by
  have hle : (r + 1) * d ≤ n * d := Nat.mul_le_mul_right d hr
  rw [rowOf, List.length_take, List.length_drop, hx]
  rw [Nat.succ_mul] at hle
  omega

theorem rowOf_getD {d r j : Nat} (hj : j < d) (dflt : α) :
    (rowOf d x r).getD j dflt = x.getD (r * d + j) dflt := by
  rw [List.getD_eq_getElem?_getD, List.getD_eq_getElem?_getD, rowOf, List.getElem?_take_of_lt hj,
    List.getElem?_drop]

theorem length_flatMap_rows {β : Type} {d : Nat} {l : List β} {g : β → List α}
    (hg : ∀ b ∈ l, (g b).length = d) : (l.flatMap g).length = l.length * d := by
  rw [List.length_flatMap, List.map_congr_left hg, List.map_const', List.sum_replicate,
    Nat.nsmul_eq_mul]

theorem byRow_length {d o : Nat}
    (hf : ∀ row, (f row).length = o) : (byRow d f x n).length = n * o := by
  rw [byRow, length_flatMap_rows fun _ _ => hf _, List.length_range]

/-- A buffer made row by row, taken row by row. -/
theorem byRow_flatMap {β : Type} {d : Nat} {l : List β} {g : β → List α}
    (hg : ∀ b ∈ l, (g b).length = d) (f : List α → List α) :
    byRow d f (l.flatMap g) l.length = l.flatMap (fun b => f (g b)) := by
  induction l with
  | nil => rfl
  | cons b l ih =>
    have hb := hg b (List.mem_cons_self ..)
    rw [List.flatMap_cons, List.flatMap_cons, byRow, List.length_cons, List.range_succ_eq_map,
      List.flatMap_cons, rowOf_append_zero hb, List.flatMap_map,
      ← ih fun b' hb' => hg b' (List.mem_cons_of_mem _ hb'), byRow]
    simp only [rowOf_append_succ hb]

theorem byRow_byRow {d o : Nat} {g : List α → List α}
    (hf : ∀ row, (f row).length = o) :
    byRow o g (byRow d f x n) n = byRow d (fun row => g (f row)) x n := by
  have h := byRow_flatMap (l := List.range n) (g := fun r => f (rowOf d x r)) (fun _ _ => hf _) g
  rw [List.length_range] at h
  exact h

theorem rowOf_flatMap {β : Type} {d : Nat} {l : List β} {g : β → List α}
    (hg : ∀ b ∈ l, (g b).length = d) {r : Nat} (hr : r < l.length) :
    rowOf d (l.flatMap g) r = g l[r] := by
  induction l generalizing r with
  | nil => exact absurd hr (Nat.not_lt_zero r)
  | cons b l ih =>
    have hb := hg b (List.mem_cons_self ..)
    rw [List.flatMap_cons]
    cases r with
    | zero => exact rowOf_append_zero hb _
    | succ r =>
      rw [rowOf_append_succ hb, ih (fun b' hb' => hg b' (List.mem_cons_of_mem _ hb'))]
      rfl

theorem rowOf_byRow {d o r : Nat}
    (hf : ∀ row, (f row).length = o) (hr : r < n) :
    rowOf o (byRow d f x n) r = f (rowOf d x r) := by
  rw [byRow, rowOf_flatMap (fun _ _ => hf _) (by rw [List.length_range]; exact hr),
    List.getElem_range]

/-- Buffers of `n` rows are equal where their rows are. -/
theorem ext_rows [Zero α] {d : Nat} {y : List α} (hx : x.length = n * d) (hy : y.length = n * d)
    (h : ∀ s < n, ∀ dd < d, x.getD (s * d + dd) 0 = y.getD (s * d + dd) 0) : x = y := by
  refine List.ext_getElem (hx.trans hy.symm) fun i h₁ h₂ => ?_
  rw [hx] at h₁
  have hd : 0 < d := Nat.pos_of_ne_zero fun h0 => by
    rw [h0, Nat.mul_zero] at h₁
    exact absurd h₁ (Nat.not_lt_zero i)
  have hrow := h (i / d) ((Nat.div_lt_iff_lt_mul hd).mpr h₁) (i % d) (Nat.mod_lt _ hd)
  rw [Nat.div_add_mod'] at hrow
  rw [← List.getD_eq_getElem x 0 (by rw [hx]; exact h₁), hrow, List.getD_eq_getElem y 0 h₂]

theorem map_byRow (g : α → α) (d : Nat) (f : List α → List α) (x : List α) (n : Nat) :
    (byRow d f x n).map g = byRow d (fun row => (f row).map g) x n := by
  rw [byRow, List.map_flatMap, byRow]

theorem zipWith_byRow {o : Nat} (g : α → α → α) (d : Nat) {f' : List α → List α}
    (hf : ∀ row, (f row).length = o) (hf' : ∀ row, (f' row).length = o) (x : List α) (n : Nat) :
    List.zipWith g (byRow d f x n) (byRow d f' x n)
      = byRow d (fun row => List.zipWith g (f row) (f' row)) x n := by
  unfold byRow
  induction List.range n with
  | nil => rfl
  | cons r rs ih =>
    rw [List.flatMap_cons, List.flatMap_cons, List.flatMap_cons,
      List.zipWith_append (by rw [hf, hf']), ih]

end

/-! ## Tensors and activations -/

/-- `QTensor`, for what it computes: `o` dot products with a row of length `i`. -/
structure QTensor (α : Type) where
  o : Nat
  i : Nat
  dot : List α → List α
  dot_length : ∀ row, (dot row).length = o

/-- `ActCfg`. -/
structure ActCfg (α : Type) where
  oai : Bool
  alpha : α
  limit : α
  relu2 : Bool
  situ : Bool
  situBeta : α
  situLinearBeta : α

/-- The scalar functions the activations are made of. -/
structure Scalar (α : Type) where
  silu : α → α
  swigluOai : α → α → α → α → α
  swigluClampedOne : α → α → α → α
  situ : α → α → α → α → α

section

variable {α : Type}

/-- `QTensor::default`: no rows, no columns. -/
def QTensor.empty : QTensor α := ⟨0, 0, fun _ => [], fun _ => rfl⟩

/-- `matmul_qt` into a buffer of length `yLen`; none is a failed assertion. -/
def matmulQt (yLen : Nat) (x : List α) (w : QTensor α) (s : Nat) : Option (List α) :=
  if x.length = s * w.i ∧ yLen = s * w.o then some (byRow w.i w.dot x s) else none

variable [Field α] [LinearOrder α]

/-- What the gated variants make of a gate and an up value. -/
def ActCfg.gated (f : Scalar α) (a : ActCfg α) (g u : α) : α :=
  if a.situ then f.situ g u a.situBeta a.situLinearBeta
  else if a.oai then f.swigluOai g u a.alpha a.limit
  else if a.limit > 0 then f.swigluClampedOne g u a.limit
  else f.silu g * u

/-- The square of the ReLU. -/
def reluSquared (u : α) : α :=
  let r := max u 0
  r * r

/-- `ffn_cpu` into a buffer of length `outLen`. -/
def ffnCpu (f : Scalar α) (a : ActCfg α) (gate up down : QTensor α) (x : List α) (nr outLen : Nat) :
    Option (List α) :=
  if a.relu2 then do
    let uu ← matmulQt (nr * up.o) x up nr
    matmulQt outLen (uu.map reluSquared) down nr
  else do
    let gg ← matmulQt (nr * gate.o) x gate nr
    let uu ← matmulQt (nr * gate.o) x up nr
    matmulQt outLen (List.zipWith (a.gated f) gg uu) down nr

/-- The three tensors of an FFN of width `d`, as a model's loader shapes them; a
gateless one leaves the gate empty. -/
structure Ffn (a : ActCfg α) (d : Nat) where
  gate : QTensor α
  up : QTensor α
  down : QTensor α
  up_i : up.i = d
  down_i : down.i = up.o
  down_o : down.o = d
  gate_i : a.relu2 = false → gate.i = d
  gate_o : a.relu2 = false → gate.o = up.o

variable {a : ActCfg α} {d : Nat}

/-- What the FFN makes of one row. -/
def Ffn.row (f : Scalar α) (e : Ffn a d) (x : List α) : List α :=
  if a.relu2 then e.down.dot ((e.up.dot x).map reluSquared)
  else e.down.dot (List.zipWith (a.gated f) (e.gate.dot x) (e.up.dot x))

theorem Ffn.row_length (f : Scalar α) (e : Ffn a d) (x : List α) : (e.row f x).length = d := by
  rw [row]
  split
  · rw [e.down.dot_length, e.down_o]
  · rw [e.down.dot_length, e.down_o]

omit [Field α] [LinearOrder α] in
theorem matmulQt_of_shape (yLen : Nat) {s : Nat} {x : List α} {w : QTensor α}
    (hx : x.length = s * w.i) (hy : yLen = s * w.o) :
    matmulQt yLen x w s = some (byRow w.i w.dot x s) :=
  if_pos ⟨hx, hy⟩

/-- **The FFN takes its rows one by one.** -/
theorem ffnCpu_eq (f : Scalar α) (e : Ffn a d) {x : List α} {nr : Nat} (hx : x.length = nr * d) :
    ffnCpu f a e.gate e.up e.down x nr (nr * d) = some (byRow d (e.row f) x nr) := by
  have hup := matmulQt_of_shape (nr * e.up.o) (by rw [e.up_i]; exact hx) rfl
  have hlen : (byRow e.up.i e.up.dot x nr).length = nr * e.up.o := byRow_length e.up.dot_length
  have hdown : nr * d = nr * e.down.o := by rw [e.down_o]
  cases hrelu : a.relu2 with
  | true =>
    have hrow : e.row f = fun row => e.down.dot ((e.up.dot row).map reluSquared) :=
      funext fun row => if_pos hrelu
    rw [ffnCpu, if_pos hrelu, hup, Option.bind_eq_bind, Option.bind_some, matmulQt_of_shape _
      (by rw [List.length_map, hlen, e.down_i]) hdown, map_byRow, e.down_i,
      byRow_byRow (fun row => by rw [List.length_map, e.up.dot_length]), e.up_i, hrow]
  | false =>
    have hgate := matmulQt_of_shape (nr * e.gate.o) (by rw [e.gate_i hrelu]; exact hx) rfl
    rw [← e.gate_o hrelu] at hup
    have hno : ¬ a.relu2 = true := by
      rw [hrelu]
      exact Bool.false_ne_true
    have hrow : e.row f = fun row =>
        e.down.dot (List.zipWith (a.gated f) (e.gate.dot row) (e.up.dot row)) :=
      funext fun row => if_neg hno
    rw [ffnCpu, if_neg hno, hgate, Option.bind_eq_bind, Option.bind_some, hup,
      Option.bind_some, e.gate_i hrelu, e.up_i,
      zipWith_byRow _ _ e.gate.dot_length (by rw [e.gate_o hrelu]; exact e.up.dot_length)]
    have hzip : ∀ row, (List.zipWith (a.gated f) (e.gate.dot row) (e.up.dot row)).length
        = e.up.o := by
      intro row
      rw [List.length_zipWith, e.gate.dot_length, e.up.dot_length, e.gate_o hrelu, Nat.min_self]
    rw [matmulQt_of_shape _ (by rw [byRow_length hzip, e.down_i]) hdown, e.down_i,
      byRow_byRow hzip, hrow]

end

end Colibri.Moe
