import Colibri.Lib.Blocks
import Colibri.Lib.Extended
import Colibri.Loader.QtLoad
import Colibri.Moe.Formats

/-!
# Decoding a weight matrix

Four functions decode the matrix a `QTensor` holds, each with loops of its own: `matmul_qt`
while it multiplies, `qt_row_dequant` and `embed_row` a row at a time, `dequantize_qtensor`
all of it. The first has arms for seven formats, the second for six, the third for four and
the last for three: it leaves zeros for the others.

`view` is what they are about: the weights of a row before their scale, and the scale. Where
a function has an arm, that is what it computes with (`matmulRow_view`, `qtRowDequant_view`,
`embedRow_view`).

The tensor of `Colibri.Loader` has the bits of its floats, and this one what they denote.
`ofLoaded` goes from the one to the other. The weights of a loaded tensor are those its codes
stand for (`view_ofLoaded`), and of one that has the lengths of its format none is missing
(`weights_of_sized`).

Floats are what they denote, numbers, infinities and NaN, and arithmetic is before rounding.
Dimensions are `i32`s, so products of them and of a row's index do not wrap in a `usize`.
-/

namespace Colibri.Quantize

open Blocks Extended Loader Moe.Formats Vectors
open Extended.Ext (num inf nan)

/-- What an `f32` denotes. -/
abbrev Val : Type := Ext ℚ

/-- `QTensor`, its floats as what they denote. -/
structure QTensor where
  fmtCode : Nat := 0
  qf : List Val := []
  q8 : List Int8 := []
  q4 : Bytes := .empty
  s : List Val := []
  bs : Bytes := .empty
  g : Val := num 0
  o : Int := 0
  i : Int := 0

/-! ## Codes -/

/-- `f32::from_bits` -/
def ofBits (b : F32) : Val :=
  let n := b.toNat
  let neg := decide (2 ^ 31 ≤ n)
  let sign : ℚ := if neg then -1 else 1
  let e : Nat := n / 2 ^ 23 % 2 ^ 8
  let m : Nat := n % 2 ^ 23
  if e = 255 then if m = 0 then inf neg else nan
  else if e = 0 then num (sign * m / 2 ^ 149)
  else num (sign * (2 ^ 23 + m) * 2 ^ e / 2 ^ 150)

/-- `bf16_to_f32`, of the two bytes in the buffer. -/
def bf16At (lo hi : UInt8) : Val := ofBits (Safetensors.bf16ToF32 (Safetensors.u16OfLe lo hi))

/-- `e4m3_to_f32`: every byte is a number. -/
def e4m3 (b : UInt8) : Val := num (e4m3ToF32 b)

/-- `f8e8m0_to_f32` -/
def e8m0 (b : UInt8) : Val := (f8e8m0ToF32 b).elim nan num

/-- `E2M1[nib]` -/
def e2m1At (nib : UInt8) : Val := num (e2m1.getD nib.toNat 0)

/-- `c as f32` -/
def int8 (c : Int8) : Val := num (c.toInt : ℚ)

/-- `(field as i32 - 2) as f32` -/
def int2 (field : UInt8) : Val := num ((field.toNat : ℚ) - 2)

/-! ## `matmul_qt` -/

def dotF32 (a b : List Val) : Val :=
  (List.zipWith (fun x y => x * y) a b).foldl (fun acc v => acc + v) (num 0)

/-- `dot_i8_f32`, as the scalar loop does it. -/
def dotI8F32 (w8 : List Int8) (x : List Val) (n : Nat) : Option Val :=
  (List.range n).foldlM (fun a k => do
    let xk ← x[k]?
    let w ← w8[k]?
    return a + xk * int8 w) (num 0)

/-- The loop of the other arms: `a += term(k) * xs[k]`. -/
def accumulate (n : Nat) (xs : List Val) (term : Nat → Option Val) : Option Val :=
  (List.range n).foldlM (fun a k => do
    let w ← term k
    let xk ← xs[k]?
    return a + w * xk) (num 0)

/-- The slices of a row in the formats of four bits: its nibbles, and a scale for each block. -/
def fp4Slices (q4 bs : List UInt8) (i blk row : Nat) : Option (List UInt8 × List UInt8) := do
  let rb := (i + 1) / 2
  let nb := (i + (blk - 1)) / blk
  let wr ← slice q4 (row * rb) ((row + 1) * rb)
  let br ← slice bs (row * nb) ((row + 1) * nb)
  return (wr, br)

/-- What an arm does for a row: it takes the row's slices, and has then a sum for an input. -/
def matmulRow (w : QTensor) (row : Nat) : Option (List Val → Option Val) :=
  let i := asUsize w.i
  match w.fmtCode with
  | 0 => do
    let wr ← slice w.qf (row * i) ((row + 1) * i)
    return fun xs => some (dotF32 xs wr)
  | 2 => do
    let wr ← slice (← w.q4.asSlice) (row * i * 2) ((row + 1) * i * 2)
    return fun xs => accumulate i xs fun k => do
      return bf16At (← wr[2 * k]?) (← wr[2 * k + 1]?)
  | 1 => do
    let wr ← slice w.q8 (row * i) ((row + 1) * i)
    let sc ← w.s[row]?
    return fun xs => do return (← dotI8F32 wr xs i) * sc
  | 3 => do
    let rb := (i + 3) / 4
    let wr ← slice (← w.q4.asSlice) (row * rb) ((row + 1) * rb)
    let sc ← w.s[row]?
    return fun xs => do
      let a ← accumulate i xs fun k => do return int2 (field (← wr[k / 4]?) k)
      return a * sc
  | 4 => do
    let wr ← slice (← w.q4.asSlice) (row * i) ((row + 1) * i)
    let sc ← w.s[row]?
    return fun xs => do
      let a ← accumulate i xs fun k => do return e4m3 (← wr[k]?)
      return a * sc
  | 5 => do
    let (wr, br) ← fp4Slices (← w.q4.asSlice) (← w.bs.asSlice) i 16 row
    return fun xs => do
      let a ← accumulate i xs fun k => do
        return e2m1At (nibble (← wr[k / 2]?) k) * e4m3 (← br[k / 16]?)
      return a * w.g
  | 6 => do
    let (wr, br) ← fp4Slices (← w.q4.asSlice) (← w.bs.asSlice) i 32 row
    -- the block scales of the row, decoded once
    let sc := br.map e8m0
    return fun xs => do
      let a ← accumulate i xs fun k => do return e2m1At (nibble (← wr[k / 2]?) k) * (← sc[k / 32]?)
      return a * w.g
  | _ => none

/-- `matmul_qt`, into a `y` of `yLen` entries. -/
def matmulQt (yLen : Nat) (x : List Val) (w : QTensor) (s : Nat) : Option (List Val) :=
  let i := asUsize w.i
  let o := asUsize w.o
  if x.length = s * i ∧ yLen = s * o ∧ w.fmtCode ≤ 6 then do
    let sums ← (List.range o).mapM fun row => do
      let sum ← matmulRow w row
      (List.range s).mapM fun si => do sum (← slice x (si * i) ((si + 1) * i))
    -- `y[si * o + row]`
    return blocks s fun si => sums.map fun sum => sum.getD si nan
  else none

/-! ## `qt_row_dequant` and `embed_row` -/

def qtRowDequant (w : QTensor) (row : Nat) : Option (List Val) :=
  let i := asUsize w.i
  -- `vec![0f32; i]`
  if i * 4 < 2 ^ 63 then
    match w.fmtCode with
    | 0 => slice w.qf (row * i) ((row + 1) * i)
    | 1 => do
      let q ← slice w.q8 (row * i) ((row + 1) * i)
      let s ← w.s[row]?
      return q.map fun c => int8 c * s
    | 2 => do
      let q ← slice (← w.q4.asSlice) (row * i * 2) ((row + 1) * i * 2)
      (List.range i).mapM fun k => do return bf16At (← q[2 * k]?) (← q[2 * k + 1]?)
    | 3 => do
      let rb := (i + 3) / 4
      let q ← slice (← w.q4.asSlice) (row * rb) ((row + 1) * rb)
      let s ← w.s[row]?
      (List.range i).mapM fun k => do return int2 (field (← q[k / 4]?) k) * s
    | 4 => do
      let q ← slice (← w.q4.asSlice) (row * i) ((row + 1) * i)
      let s ← w.s[row]?
      return q.map fun c => e4m3 c * s
    | 5 => do
      let (wr, br) ← fp4Slices (← w.q4.asSlice) (← w.bs.asSlice) i 16 row
      (List.range i).mapM fun k => do
        return e2m1At (nibble (← wr[k / 2]?) k) * e4m3 (← br[k / 16]?) * w.g
    | _ => none
  else none

/-- `embed_row`, into an `out` of `outLen` entries. -/
def embedRow (embed : QTensor) (tok outLen : Nat) : Option (List Val) :=
  let d := asUsize embed.i
  if outLen = d ∧ tok < asUsize embed.o then
    match embed.fmtCode with
    | 0 => slice embed.qf (tok * d) ((tok + 1) * d)
    | 1 => do
      let q ← slice embed.q8 (tok * d) ((tok + 1) * d)
      let s ← embed.s[tok]?
      return q.map fun c => int8 c * s
    | 2 => do
      let q ← slice (← embed.q4.asSlice) (tok * d * 2) ((tok + 1) * d * 2)
      (List.range d).mapM fun k => do return bf16At (← q[2 * k]?) (← q[2 * k + 1]?)
    | 3 => do
      let rb := (d + 3) / 4
      let q ← slice (← embed.q4.asSlice) (tok * rb) ((tok + 1) * rb)
      let s ← embed.s[tok]?
      (List.range d).mapM fun k => do return int2 (field (← q[k / 4]?) k) * s
    | _ => none
  else none

/-! ## `dequantize_qtensor` -/

def dequantizeQtensor (t : QTensor) : Option (List Val) :=
  let o := asUsize t.o
  let i := asUsize t.i
  let n := umul o i
  -- `vec![0f32; o * i]`
  if n * 4 < 2 ^ 63 then
    match t.fmtCode with
    | 0 => if t.qf.length = n then some t.qf else none
    | 1 => do
      let rows ← (List.range o).mapM fun r => (List.range i).mapM fun c => do
        let q ← t.q8[r * i + c]?
        let s ← t.s[r]?
        -- `out[r * i + c]`
        if r * i + c < n then some (int8 q * s) else none
      return rows.flatten
    | 2 => do
      let q ← t.q4.asSlice
      (List.range n).mapM fun k => do return bf16At (← q[2 * k]?) (← q[2 * k + 1]?)
    | _ => some (List.replicate n (num 0))
  else none

/-! ## What they are about -/

/-- A row: its weights before they are scaled, and the scale. -/
structure RowView where
  codes : List Val
  scale : Option Val

def RowView.scaled (p : RowView) (v : Val) : Val :=
  match p.scale with
  | some s => v * s
  | none => v

/-- The weights of a row. -/
def RowView.weights (p : RowView) : List Val := p.codes.map p.scaled

/-- The row `row` of a tensor, if its slices are there. -/
def QTensor.view (t : QTensor) (row : Nat) : Option RowView :=
  let i := asUsize t.i
  match t.fmtCode with
  | 0 => do return ⟨← slice t.qf (row * i) ((row + 1) * i), none⟩
  | 1 => do
    let q ← slice t.q8 (row * i) ((row + 1) * i)
    let s ← t.s[row]?
    return ⟨q.map int8, some s⟩
  | 2 => do
    let q ← slice (← t.q4.asSlice) (row * i * 2) ((row + 1) * i * 2)
    return ⟨tab i fun k => bf16At (q.getD (2 * k) 0) (q.getD (2 * k + 1) 0), none⟩
  | 3 => do
    let q ← slice (← t.q4.asSlice) (row * ((i + 3) / 4)) ((row + 1) * ((i + 3) / 4))
    let s ← t.s[row]?
    return ⟨tab i fun k => int2 (field (q.getD (k / 4) 0) k), some s⟩
  | 4 => do
    let q ← slice (← t.q4.asSlice) (row * i) ((row + 1) * i)
    let s ← t.s[row]?
    return ⟨q.map e4m3, some s⟩
  | 5 => do
    let (wr, br) ← fp4Slices (← t.q4.asSlice) (← t.bs.asSlice) i 16 row
    return ⟨tab i fun k => e2m1At (nibble (wr.getD (k / 2) 0) k) * e4m3 (br.getD (k / 16) 0), some t.g⟩
  | 6 => do
    let (wr, br) ← fp4Slices (← t.q4.asSlice) (← t.bs.asSlice) i 32 row
    return ⟨tab i fun k => e2m1At (nibble (wr.getD (k / 2) 0) k) * e8m0 (br.getD (k / 32) 0), some t.g⟩
  | _ => none

/-! ### Slices of rows -/

theorem slice_length {α : Type} {l r : List α} {a b : Nat} (h : slice l a b = some r) :
    r.length = b - a := by
  unfold slice at h
  split at h
  next hle =>
    cases h
    rw [List.length_take, List.length_drop]
    omega
  next => cases h

theorem row_length {α : Type} {l r : List α} {row w : Nat}
    (h : slice l (row * w) ((row + 1) * w) = some r) : r.length = w := by
  rw [slice_length h, Nat.succ_mul]
  omega

theorem row_length_two {α : Type} {l r : List α} {row w : Nat}
    (h : slice l (row * w * 2) ((row + 1) * w * 2) = some r) : r.length = w * 2 := by
  rw [Nat.mul_assoc, Nat.mul_assoc] at h
  exact row_length h

theorem getElem?_getD {α : Type} {l : List α} {k : Nat} (h : k < l.length) (d : α) :
    l[k]? = some (l.getD k d) := by
  rw [List.getD_eq_getElem l d h, List.getElem?_eq_getElem h]

theorem fp4Slices_length {q4 bs wr br : List UInt8} {i blk row : Nat}
    (h : fp4Slices q4 bs i blk row = some (wr, br)) :
    wr.length = (i + 1) / 2 ∧ br.length = (i + (blk - 1)) / blk := by
  obtain ⟨wr', hwr, h⟩ := Option.bind_eq_some_iff.mp h
  obtain ⟨br', hbr, h⟩ := Option.bind_eq_some_iff.mp h
  cases h
  exact ⟨row_length hwr, row_length hbr⟩

/-! ### Sums -/

theorem dot_eq {n : Nat} {w x : List Val} (hw : w.length = n) (hx : x.length = n) :
    dot w x = (List.range n).foldl (fun a k => a + w.getD k nan * x.getD k nan) (num 0) := by
  conv_lhs => rw [dot, eq_tab hw nan, eq_tab hx nan, zipWith_tab, tab, List.foldl_map]

theorem accumulate_eq {n : Nat} {w xs : List Val} (hw : w.length = n) (hx : xs.length = n)
    {term : Nat → Option Val} (h : ∀ k < n, term k = some (w.getD k nan)) :
    accumulate n xs term = some (dot w xs) := by
  rw [dot_eq hw hx, accumulate]
  refine foldlM_eq_foldl (fun a k hk => ?_) _
  have hk := List.mem_range.mp hk
  rw [h k hk, getElem?_getD (hx ▸ hk) nan]
  rfl

theorem dotI8F32_eq {n : Nat} {w8 : List Int8} {xs : List Val} (hw : w8.length = n)
    (hx : xs.length = n) : dotI8F32 w8 xs n = some (dot (w8.map int8) xs) := by
  rw [dot_eq ((List.length_map int8).trans hw) hx, dotI8F32]
  refine foldlM_eq_foldl (fun a k hk => ?_) _
  have hk := List.mem_range.mp hk
  have hlt : k < (w8.map int8).length := by rwa [List.length_map, hw]
  rw [getElem?_getD (hx ▸ hk) nan, List.getElem?_eq_getElem (hw ▸ hk),
    List.getD_eq_getElem _ _ hlt, List.getElem_map, Ext.mul_comm']
  rfl

theorem dotF32_eq (xs w : List Val) : dotF32 xs w = dot w xs := by
  unfold dotF32 dot
  rw [List.zipWith_comm]
  exact congrArg (fun f => (List.zipWith f w xs).foldl (· + ·) (num 0))
    (funext fun v => funext fun x => Ext.mul_comm' x v)

theorem scale_sum {a : Option Val} {d : Val} (h : a = some d) (sc : Val) :
    (do return (← a) * sc) = some (d * sc) := by
  rw [h]
  rfl

/-! ### The arms -/

theorem rel_bind {α β γ : Type} {r : β → γ → Prop} (x : Option α) {f : α → Option β}
    {g : α → Option γ} (h : ∀ a, x = some a → Option.Rel r (f a) (g a)) :
    Option.Rel r (x >>= f) (x >>= g) := by
  cases x with
  | none => exact .none
  | some a => exact h a rfl

variable {t : QTensor} {row : Nat}

/-- **What `matmul_qt` sums for a row** is the product with the row's weights, scaled. -/
theorem matmulRow_view (t : QTensor) (row : Nat) :
    Option.Rel (fun sum p => p.codes.length = asUsize t.i ∧ ∀ xs, xs.length = asUsize t.i →
      sum xs = some (p.scaled (dot p.codes xs))) (matmulRow t row) (t.view row) := by
  unfold matmulRow QTensor.view
  generalize asUsize t.i = i
  generalize t.fmtCode = fmt
  match fmt with
  | 0 =>
    exact rel_bind _ fun wr hwr => .some ⟨row_length hwr, fun xs _ => congrArg some (dotF32_eq xs wr)⟩
  | 1 =>
    refine rel_bind _ fun wr hwr => rel_bind _ fun sc _ => .some ⟨?_, fun xs hxs => ?_⟩
    · rw [List.length_map, row_length hwr]
    · exact scale_sum (dotI8F32_eq (row_length hwr) hxs) sc
  | 2 =>
    refine rel_bind _ fun q _ => rel_bind _ fun wr hwr => .some ⟨length_tab .., fun xs hxs => ?_⟩
    have hlen := row_length_two hwr
    refine accumulate_eq (length_tab ..) hxs fun k hk => ?_
    rw [getElem?_getD (by omega) 0, getElem?_getD (by omega) 0, getD_tab hk]
    rfl
  | 3 =>
    refine rel_bind _ fun q _ => rel_bind _ fun wr hwr => rel_bind _ fun sc _ =>
      .some ⟨length_tab .., fun xs hxs => ?_⟩
    have hlen := row_length hwr
    refine scale_sum (accumulate_eq (length_tab ..) hxs fun k hk => ?_) sc
    rw [getElem?_getD (by omega) 0, getD_tab hk]
    rfl
  | 4 =>
    refine rel_bind _ fun q _ => rel_bind _ fun wr hwr => rel_bind _ fun sc _ =>
      .some ⟨?_, fun xs hxs => ?_⟩
    · rw [List.length_map, row_length hwr]
    · have hlen : (wr.map e4m3).length = i := by rw [List.length_map, row_length hwr]
      refine scale_sum (accumulate_eq hlen hxs fun k hk => ?_) sc
      rw [List.getElem?_eq_getElem (row_length hwr ▸ hk), List.getD_eq_getElem _ _ (hlen ▸ hk),
        List.getElem_map]
      rfl
  | 5 =>
    refine rel_bind _ fun q _ => rel_bind _ fun b _ => rel_bind _ fun ⟨wr, br⟩ hrow =>
      .some ⟨length_tab .., fun xs hxs => ?_⟩
    obtain ⟨hwr, hbr⟩ := fp4Slices_length hrow
    refine scale_sum (accumulate_eq (length_tab ..) hxs fun k hk => ?_) _
    rw [getElem?_getD (by omega) 0, getElem?_getD (by omega) 0, getD_tab hk]
    rfl
  | 6 =>
    refine rel_bind _ fun q _ => rel_bind _ fun b _ => rel_bind _ fun ⟨wr, br⟩ hrow =>
      .some ⟨length_tab .., fun xs hxs => ?_⟩
    obtain ⟨hwr, hbr⟩ := fp4Slices_length hrow
    refine scale_sum (accumulate_eq (length_tab ..) hxs fun k hk => ?_) _
    rw [List.getElem?_map, getElem?_getD (by omega) 0, getElem?_getD (by omega) 0, getD_tab hk]
    rfl
  | _ + 7 => exact .none

theorem view_length {p : RowView} (hp : t.view row = some p) : p.codes.length = asUsize t.i := by
  have hrel := matmulRow_view t row
  rw [hp] at hrel
  generalize matmulRow t row = sum at hrel
  cases hrel with
  | some h => exact h.1

theorem bind_map {α β γ : Type} {f : α → Option β} {g : α → Option γ} {h : γ → β} (x : Option α)
    (hfg : ∀ a, x = some a → f a = (g a).map h) : (x >>= f) = (x >>= g).map h := by
  cases x with
  | none => rfl
  | some a => exact hfg a rfl

theorem weights_map {α : Type} (q : List α) (f : α → Val) (s : Val) :
    (⟨q.map f, some s⟩ : RowView).weights = q.map fun c => f c * s := List.map_map ..

theorem mapM_weights {i : Nat} {p : RowView} {g : Nat → Val} (hp : p.codes = tab i g)
    {f : Nat → Option Val} (hf : ∀ k < i, f k = some (p.scaled (g k))) :
    (List.range i).mapM f = some p.weights := by
  rw [mapM_eq_map (g := p.scaled ∘ g) fun k hk => hf k (List.mem_range.mp hk), RowView.weights, hp,
    map_tab]
  rfl

/-- **`qt_row_dequant`, of the formats it has**, gives the weights of the row. -/
theorem qtRowDequant_view (hi : asUsize t.i * 4 < 2 ^ 63) (hfmt : t.fmtCode ≤ 5) :
    qtRowDequant t row = (t.view row).map RowView.weights := by
  unfold qtRowDequant QTensor.view
  rw [if_pos hi]
  generalize asUsize t.i = i
  generalize t.fmtCode = fmt at hfmt
  match fmt with
  | 0 =>
    have hplain : ∀ x : Option (List Val),
        x = (x >>= fun wr => some (⟨wr, none⟩ : RowView)).map RowView.weights := by
      intro x
      cases x with
      | none => rfl
      | some wr => exact congrArg some (List.map_id wr).symm
    exact hplain _
  | 1 =>
    exact bind_map _ fun q _ => bind_map _ fun s _ => congrArg some (weights_map q int8 s).symm
  | 2 =>
    refine bind_map _ fun q _ => bind_map _ fun wr hwr => mapM_weights rfl fun k hk => ?_
    have hlen := row_length_two hwr
    rw [getElem?_getD (by omega) 0, getElem?_getD (by omega) 0]
    rfl
  | 3 =>
    refine bind_map _ fun q _ => bind_map _ fun wr hwr => bind_map _ fun s _ =>
      mapM_weights rfl fun k hk => ?_
    have hlen := row_length hwr
    rw [getElem?_getD (by omega) 0]
    rfl
  | 4 =>
    exact bind_map _ fun q _ => bind_map _ fun wr _ => bind_map _ fun s _ =>
      congrArg some (weights_map wr e4m3 s).symm
  | 5 =>
    refine bind_map _ fun q _ => bind_map _ fun b _ => bind_map _ fun ⟨wr, br⟩ hrow =>
      mapM_weights rfl fun k hk => ?_
    obtain ⟨hwr, hbr⟩ := fp4Slices_length hrow
    rw [getElem?_getD (by omega) 0, getElem?_getD (by omega) 0]
    rfl
  | _ + 6 => omega

theorem qtRowDequant_fmt {r : List Val} (h : qtRowDequant t row = some r) : t.fmtCode ≤ 5 := by
  unfold qtRowDequant at h
  rw [Option.ite_none_right_eq_some] at h
  revert h
  generalize t.fmtCode = fmt
  rintro ⟨-, h⟩
  match fmt with
  | 0 | 1 | 2 | 3 | 4 | 5 => omega
  | _ + 6 => cases h

/-- A decoded row is as long as the matrix is wide, and that is no more than a vector holds. -/
theorem qtRowDequant_length {r : List Val} (h : qtRowDequant t row = some r) :
    r.length = asUsize t.i ∧ asUsize t.i < 2 ^ 61 := by
  have hi : asUsize t.i * 4 < 2 ^ 63 := by
    unfold qtRowDequant at h
    dsimp only at h
    rw [Option.ite_none_right_eq_some] at h
    exact h.1
  rw [qtRowDequant_view hi (qtRowDequant_fmt h)] at h
  obtain ⟨p, hp, rfl⟩ := Option.map_eq_some_iff.mp h
  rw [RowView.weights, List.length_map]
  exact ⟨view_length hp, by omega⟩

/-- `embed_row` gives what `qt_row_dequant` does, of the formats it has. -/
theorem embedRow_eq (hi : asUsize t.i * 4 < 2 ^ 63) (hrow : row < asUsize t.o)
    (hfmt : t.fmtCode ≤ 3) : embedRow t row (asUsize t.i) = qtRowDequant t row := by
  unfold embedRow qtRowDequant
  rw [if_pos hi, if_pos ⟨rfl, hrow⟩]
  generalize t.fmtCode = fmt at hfmt
  match fmt with
  | 0 | 1 | 2 | 3 => rfl
  | _ + 4 => omega

/-! ### A loaded tensor -/

/-- A tensor as it was loaded. -/
def ofLoaded (t : Loader.QTensor) : QTensor where
  fmtCode := t.fmtCode
  qf := t.qf.map ofBits
  q8 := t.q8
  q4 := t.q4
  s := t.s.map ofBits
  bs := t.bs
  g := ofBits t.g
  o := t.o
  i := t.i

/-- The weight that is decoded from a code. -/
def weight : Code → Val
  | .f32 w => ofBits w
  | .int8 q s => int8 q * ofBits s
  | .bf16 lo hi => bf16At lo hi
  | .int2 f s => int2 f * ofBits s
  | .e4m3 q s => e4m3 q * ofBits s
  | .nvfp4 nib b g => e2m1At nib * e4m3 b * ofBits g
  | .mxfp4 nib b g => e2m1At nib * e8m0 b * ofBits g

theorem slice_map {α β : Type} (f : α → β) (l : List α) (a b : Nat) :
    slice (l.map f) a b = (slice l a b).map (List.map f) := by
  unfold slice
  rw [List.length_map]
  split
  · rw [Option.map_some, List.map_take, List.map_drop]
  · rfl

theorem bind_get {α β γ : Type} {f : α → Option β} {g : α → Option Code} {w : β → Option γ}
    {h : Code → γ} (x : Option α) (hfg : ∀ a, x = some a → (f a).bind w = (g a).map h) :
    (x >>= f).bind w = (x >>= g).map h := by
  cases x with
  | none => rfl
  | some a => exact hfg a rfl

theorem getElem?_weights (p : RowView) (k : Nat) : p.weights[k]? = (p.codes[k]?).map p.scaled :=
  List.getElem?_map

theorem getElem?_weights_tab {i k : Nat} (hk : k < i) (f : Nat → Val) (sc : Option Val) :
    (⟨tab i f, sc⟩ : RowView).weights[k]? = some (RowView.scaled ⟨tab i f, sc⟩ (f k)) := by
  rw [getElem?_weights, tab, List.getElem?_map, List.getElem?_range hk]
  rfl

/-- A code of a block-scaled row, by the row's slices. -/
theorem fp4Code_slices {q4 bs : List UInt8} {i blk k : Nat} (hk : k < i) (hblk : 0 < blk) :
    fp4Code q4 bs i blk row k = (fp4Slices q4 bs i blk row).map fun sl =>
      (nibble (sl.1.getD (k / 2) 0) k, sl.2.getD (k / blk) 0) := by
  have hsplit : fp4Code q4 bs i blk row k = (fp4Slices q4 bs i blk row).bind fun sl =>
      (sl.1[k / 2]?).bind fun byte => (sl.2[k / blk]?).map fun b => (nibble byte k, b) := by
    unfold fp4Code fp4Slices
    dsimp only
    cases slice q4 (row * ((i + 1) / 2)) ((row + 1) * ((i + 1) / 2)) with
    | none => rfl
    | some wr =>
      cases slice bs (row * ((i + (blk - 1)) / blk)) ((row + 1) * ((i + (blk - 1)) / blk)) with
      | none => rfl
      | some br =>
        show ((wr[k / 2]?).bind fun byte => (br[k / blk]?).bind fun b => some (nibble byte k, b))
          = (wr[k / 2]?).bind fun byte => (br[k / blk]?).map fun b => (nibble byte k, b)
        simp only [Option.map_eq_bind, Function.comp_def]
  rw [hsplit]
  cases hsl : fp4Slices q4 bs i blk row with
  | none => rfl
  | some sl =>
    obtain ⟨hwr, hbr⟩ := fp4Slices_length hsl
    have hkw := div_lt_ceil (m := 2) (by omega) hk
    have hkb := div_lt_ceil hblk hk
    rw [Option.bind_some, getElem?_getD (hwr ▸ hkw) 0, getElem?_getD (hbr ▸ hkb) 0]
    rfl

/-- **The weights of a loaded tensor** are those its codes stand for. -/
theorem view_ofLoaded (t : Loader.QTensor) (row : Nat) {k : Nat} (hk : k < asUsize t.i) :
    ((ofLoaded t).view row).bind (fun p => p.weights[k]?) = (t.code row k).map weight := by
  obtain ⟨fmt, qf, q8, q4, s, bs, g, o, cols⟩ := t
  unfold QTensor.view Loader.QTensor.code
  dsimp only [ofLoaded] at hk ⊢
  generalize asUsize cols = i at hk
  rw [List.getElem?_map, slice_map]
  match fmt with
  | 0 =>
    cases hwr : slice qf (row * i) ((row + 1) * i) with
    | none => rfl
    | some wr =>
      refine (getElem?_weights ⟨wr.map ofBits, none⟩ k).trans ?_
      show _ = ((wr[k]?).bind fun w => some (Code.f32 w)).map weight
      rw [List.getElem?_map, List.getElem?_eq_getElem (row_length hwr ▸ hk)]
      rfl
  | 1 =>
    refine bind_get _ fun wr hwr => ?_
    cases s[row]? with
    | none => rfl
    | some sc =>
      refine (getElem?_weights ⟨wr.map int8, some (ofBits sc)⟩ k).trans ?_
      rw [List.getElem?_map, List.getElem?_eq_getElem (row_length hwr ▸ hk)]
      rfl
  | 2 =>
    refine bind_get _ fun q _ => bind_get _ fun wr hwr => ?_
    have hlen := row_length_two hwr
    rw [getElem?_getD (show 2 * k < wr.length by omega) 0,
      getElem?_getD (show 2 * k + 1 < wr.length by omega) 0]
    exact getElem?_weights_tab hk _ _
  | 3 =>
    refine bind_get _ fun q _ => bind_get _ fun wr hwr => ?_
    cases s[row]? with
    | none => rfl
    | some sc =>
      have hlen := row_length hwr
      rw [getElem?_getD (show k / 4 < wr.length by omega) 0]
      exact getElem?_weights_tab hk _ _
  | 4 =>
    refine bind_get _ fun q _ => bind_get _ fun wr hwr => ?_
    cases s[row]? with
    | none => rfl
    | some sc =>
      refine (getElem?_weights ⟨wr.map e4m3, some (ofBits sc)⟩ k).trans ?_
      rw [List.getElem?_map, List.getElem?_eq_getElem (row_length hwr ▸ hk)]
      rfl
  | 5 =>
    refine bind_get _ fun q _ => bind_get _ fun b _ => ?_
    rw [fp4Code_slices hk (show 0 < 16 by omega)]
    cases fp4Slices q b i 16 row with
    | none => rfl
    | some sl => exact getElem?_weights_tab hk _ _
  | 6 =>
    refine bind_get _ fun q _ => bind_get _ fun b _ => ?_
    rw [fp4Code_slices hk (show 0 < 32 by omega)]
    cases fp4Slices q b i 32 row with
    | none => rfl
    | some sl => exact getElem?_weights_tab hk _ _
  | _ + 7 => rfl

/-- **No weight of a loaded tensor is missing**: of one that has the lengths of its format, every
row is decoded, and a weight is what its code stands for. -/
theorem weights_of_sized {t : Loader.QTensor} {o i row k : Nat} (h : t.Sized o i)
    (hi : i < 2 ^ 64) (hrow : row < o) (hk : k < i) :
    ∃ c, t.code row k = some c ∧
      ((ofLoaded t).view row).bind (fun p => p.weights[k]?) = some (weight c) := by
  obtain ⟨c, hc⟩ := Option.isSome_iff_exists.mp (h.code_isSome hi hrow hk)
  have hcols : asUsize t.i = i := by
    rw [h.cols, asUsize_of_nonneg (Int.natCast_nonneg i) (by exact_mod_cast hi), Int.toNat_natCast]
  refine ⟨c, hc, ?_⟩
  rw [view_ofLoaded t row (hcols.symm ▸ hk), hc]
  rfl

end Colibri.Quantize
