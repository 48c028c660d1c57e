import Colibri.Config
import Colibri.Safetensors.Subset

/-!
# Weight tensors and their formats

A `QTensor` is a matrix in one of seven formats; `fmt_code` says in which, and which of its
vectors are used. What a kernel reads for the weight of row `r` and column `k` is `code`:
it takes the row's slices and then its bytes of them, and a slice or a byte that is not
there is a panic, here `none`.

`Sized` are the lengths a format asks for. With them no weight is out of range
(`Sized.code_isSome`); nothing in the type asks for them.

`Lengths` are those of the vectors alone, and `QTensor.code` reads by the format. The loader is held
to `Sized`; the kernels and the cutting of experts into chunks rely on it.
-/

namespace Colibri.Loader

/-- An `f32`, as its bits. -/
abbrev F32 : Type := UInt32

/-- A range of a slice. -/
def slice {α : Type} (l : List α) (a b : Nat) : Option (List α) :=
  if a ≤ b ∧ b ≤ l.length then some ((l.drop a).take (b - a)) else none

/-- `Bytes` -/
inductive Bytes where
  | empty
  | owned (v : List UInt8)
  /-- a view into a shared buffer -/
  | shared (buf : List UInt8) (off len : Nat)

def Bytes.asSlice : Bytes → Option (List UInt8)
  | .empty => some []
  | .owned v => some v
  | .shared buf off len => slice buf off (off + len)

structure QTensor where
  fmtCode : Nat := 0
  qf : List F32 := []
  q8 : List Int8 := []
  q4 : Bytes := .empty
  s : List F32 := []
  bs : Bytes := .empty
  g : F32 := 0
  o : Int := 0
  i : Int := 0

/-- What a weight is decoded from. -/
inductive Code where
  | f32 (w : F32)
  | int8 (q : Int8) (scale : F32)
  | bf16 (lo hi : UInt8)
  | int2 (field : UInt8) (scale : F32)
  | e4m3 (q : UInt8) (scale : F32)
  /-- an `e2m1` nibble, the byte of its block scale, and the global scale -/
  | nvfp4 (nib bs : UInt8) (g : F32)
  | mxfp4 (nib bs : UInt8) (g : F32)
  deriving DecidableEq

/-- The half of a byte column `k` is in: the low one of an even column. -/
def nibble (byte : UInt8) (k : Nat) : UInt8 := if k % 2 = 1 then byte >>> 4 else byte &&& 0x0f

/-- `(byte >> sh) & 3` -/
def field (byte : UInt8) (k : Nat) : UInt8 := (byte >>> UInt8.ofNat (k % 4 * 2)) &&& 3

/-- The two slices of a row of a block-scaled format, and what column `k` has in them. -/
def fp4Code (q4 bs : List UInt8) (i blk row k : Nat) : Option (UInt8 × UInt8) := do
  let rb := (i + 1) / 2
  let nb := (i + (blk - 1)) / blk
  let wr ← slice q4 (row * rb) ((row + 1) * rb)
  let br ← slice bs (row * nb) ((row + 1) * nb)
  let byte ← wr[k / 2]?
  let b ← br[k / blk]?
  some (nibble byte k, b)

/-- What `matmul_qt` decodes the weight of row `row` and column `k` from. -/
def QTensor.code (t : QTensor) (row k : Nat) : Option Code :=
  let i := asUsize t.i
  match t.fmtCode with
  | 0 => do
    let wr ← slice t.qf (row * i) ((row + 1) * i)
    return .f32 (← wr[k]?)
  | 1 => do
    let wr ← slice t.q8 (row * i) ((row + 1) * i)
    let sc ← t.s[row]?
    return .int8 (← wr[k]?) sc
  | 2 => do
    let wr ← slice (← t.q4.asSlice) (row * i * 2) ((row + 1) * i * 2)
    return .bf16 (← wr[2 * k]?) (← wr[2 * k + 1]?)
  | 3 => do
    let rb := (i + 3) / 4
    let wr ← slice (← t.q4.asSlice) (row * rb) ((row + 1) * rb)
    let sc ← t.s[row]?
    return .int2 (field (← wr[k / 4]?) k) sc
  | 4 => do
    let wr ← slice (← t.q4.asSlice) (row * i) ((row + 1) * i)
    let sc ← t.s[row]?
    return .e4m3 (← wr[k]?) sc
  | 5 => do
    let (nib, b) ← fp4Code (← t.q4.asSlice) (← t.bs.asSlice) i 16 row k
    return .nvfp4 nib b t.g
  | 6 => do
    let (nib, b) ← fp4Code (← t.q4.asSlice) (← t.bs.asSlice) i 32 row k
    return .mxfp4 nib b t.g
  | _ => none

/-! ## The lengths of a format -/

/-- There are `n` bytes. -/
def Bytes.Len (b : Bytes) (n : Nat) : Prop := ∃ v, b.asSlice = some v ∧ v.length = n

/-- The payload and the scales a format has for `o` rows and `i` columns. -/
def QTensor.Lengths (t : QTensor) (o i : Nat) : Prop :=
  match t.fmtCode with
  | 0 => t.qf.length = o * i
  | 1 => t.q8.length = o * i ∧ t.s.length = o
  | 2 => t.q4.Len (o * i * 2)
  | 3 => t.q4.Len (o * ((i + 3) / 4)) ∧ t.s.length = o
  | 4 => t.q4.Len (o * i) ∧ t.s.length = o
  | 5 => t.q4.Len (o * ((i + 1) / 2)) ∧ t.bs.Len (o * ((i + 15) / 16))
  | 6 => t.q4.Len (o * ((i + 1) / 2)) ∧ t.bs.Len (o * ((i + 31) / 32))
  | _ => False

/-- A tensor of `o` rows and `i` columns, with the lengths its format asks for. -/
structure QTensor.Sized (t : QTensor) (o i : Nat) : Prop where
  rows : t.o = o
  cols : t.i = i
  lengths : t.Lengths o i

section

variable {α : Type} {o w row k : Nat}

/-- A row of `o` rows of width `w`. -/
theorem slice_row {l : List α} (hl : l.length = o * w) (hrow : row < o) :
    ∃ wr, slice l (row * w) ((row + 1) * w) = some wr ∧ wr.length = w ∧
      ∀ k < w, wr[k]? = l[row * w + k]? := by
  have hle : (row + 1) * w ≤ o * w := Nat.mul_le_mul_right w hrow
  have hstep : (row + 1) * w = row * w + w := Nat.succ_mul row w
  refine ⟨(l.drop (row * w)).take ((row + 1) * w - row * w), if_pos ⟨by omega, hl ▸ hle⟩, ?_, ?_⟩
  · rw [List.length_take, List.length_drop]
    omega
  · intro k hk
    rw [List.getElem?_take_of_lt (by omega), List.getElem?_drop]

theorem getElem?_isSome {l : List α} {n : Nat} (hl : l.length = n) (hk : k < n) :
    ∃ x, l[k]? = some x := ⟨l[k], List.getElem?_eq_getElem (hl ▸ hk)⟩

theorem div_lt_ceil {i m : Nat} (hm : 0 < m) (hk : k < i) : k / m < (i + (m - 1)) / m := by
  rw [Nat.div_lt_iff_lt_mul hm]
  have hdiv := Nat.div_add_mod (i + (m - 1)) m
  have hmod := Nat.mod_lt (i + (m - 1)) hm
  rw [Nat.mul_comm] at hdiv
  omega

/-- Of vectors of these lengths, every weight has its nibble and its block scale. -/
theorem fp4Code_eq {q4 bs : List UInt8} {i blk : Nat} (hblk : 0 < blk)
    (hq4 : q4.length = o * ((i + 1) / 2)) (hbs : bs.length = o * ((i + (blk - 1)) / blk))
    (hrow : row < o) (hk : k < i) :
    ∃ byte b, q4[row * ((i + 1) / 2) + k / 2]? = some byte ∧
      bs[row * ((i + (blk - 1)) / blk) + k / blk]? = some b ∧
      fp4Code q4 bs i blk row k = some (nibble byte k, b) := by
  obtain ⟨wr, hwr, hwlen, hw⟩ := slice_row hq4 hrow
  obtain ⟨br, hbr, hblen, hb⟩ := slice_row hbs hrow
  have hkw : k / 2 < (i + 1) / 2 := div_lt_ceil (m := 2) (by omega) hk
  have hkb := div_lt_ceil hblk hk
  obtain ⟨byte, hbyte⟩ := getElem?_isSome hwlen hkw
  obtain ⟨b, hbb⟩ := getElem?_isSome hblen hkb
  refine ⟨byte, b, (hw _ hkw).symm.trans hbyte, (hb _ hkb).symm.trans hbb, ?_⟩
  simp [fp4Code, hwr, hbr, hbyte, hbb]

end

/-- **With the lengths of its format, no weight of a tensor is out of range.** -/
theorem QTensor.Sized.code_isSome {t : QTensor} {o i : Nat} (h : t.Sized o i) (hi : i < 2 ^ 64)
    {row k : Nat} (hrow : row < o) (hk : k < i) : (t.code row k).isSome := by
  have hcols : asUsize t.i = i := by
    rw [h.cols, asUsize_of_nonneg (Int.natCast_nonneg i) (by exact_mod_cast hi), Int.toNat_natCast]
  have hlen := h.lengths
  unfold QTensor.Lengths at hlen
  unfold QTensor.code
  rw [hcols]
  split at hlen <;> simp only
  next =>
    obtain ⟨wr, hwr, hwlen, -⟩ := slice_row hlen hrow
    obtain ⟨x, hx⟩ := getElem?_isSome hwlen hk
    simp [hwr, hx]
  next =>
    obtain ⟨wr, hwr, hwlen, -⟩ := slice_row hlen.1 hrow
    obtain ⟨x, hx⟩ := getElem?_isSome hwlen hk
    obtain ⟨sc, hsc⟩ := getElem?_isSome hlen.2 hrow
    simp [hwr, hx, hsc]
  next =>
    obtain ⟨q, hq, hqlen⟩ := hlen
    obtain ⟨wr, hwr, hwlen, -⟩ := slice_row (w := i * 2) (hqlen.trans (Nat.mul_assoc o i 2)) hrow
    obtain ⟨lo, hlo⟩ := getElem?_isSome hwlen (show 2 * k < i * 2 by omega)
    obtain ⟨hi, hhi⟩ := getElem?_isSome hwlen (show 2 * k + 1 < i * 2 by omega)
    rw [← Nat.mul_assoc, ← Nat.mul_assoc] at hwr
    simp [hq, hwr, hlo, hhi]
  next =>
    obtain ⟨⟨q, hq, hqlen⟩, hs⟩ := hlen
    obtain ⟨wr, hwr, hwlen, -⟩ := slice_row hqlen hrow
    obtain ⟨x, hx⟩ := getElem?_isSome hwlen (div_lt_ceil (m := 4) (by omega) hk)
    obtain ⟨sc, hsc⟩ := getElem?_isSome hs hrow
    simp [hq, hwr, hx, hsc]
  next =>
    obtain ⟨⟨q, hq, hqlen⟩, hs⟩ := hlen
    obtain ⟨wr, hwr, hwlen, -⟩ := slice_row hqlen hrow
    obtain ⟨x, hx⟩ := getElem?_isSome hwlen hk
    obtain ⟨sc, hsc⟩ := getElem?_isSome hs hrow
    simp [hq, hwr, hx, hsc]
  next =>
    obtain ⟨⟨q, hq, hqlen⟩, bs, hbs, hbslen⟩ := hlen
    obtain ⟨byte, b, -, -, hcode⟩ := fp4Code_eq (show 0 < 16 by omega) hqlen hbslen hrow hk
    simp [hq, hbs, hcode]
  next =>
    obtain ⟨⟨q, hq, hqlen⟩, bs, hbs, hbslen⟩ := hlen
    obtain ⟨byte, b, -, -, hcode⟩ := fp4Code_eq (show 0 < 32 by omega) hqlen hbslen hrow hk
    simp [hq, hbs, hcode]
  next => exact hlen.elim

end Colibri.Loader
