import Colibri.Lib.Blocks
import Colibri.Lib.Tiles
import Colibri.Loader.QtLoad

/-!
# Dequantizing a source tensor

`dequant` turns a tensor of the source checkpoint into floats. FP8 weights come with a
scale a tensor, or with a grid of scales for blocks: floats for blocks of 128 by 128, or
bytes that are exponents of two, for blocks whose size nobody writes down. That size is
taken to be the dimension divided by the number of blocks. The shape of a grid is not
checked, and neither is the length of a payload against the shape.

The main result is about a weight with a grid, for any dimensions and any payload lengths
that the two headers declare (`Shapes`):

> `dequant_blocks_iff`: `dequant` returns an error or scales every place by its own block,
> whatever the files hold, exactly if its buffers can be allocated (`Allocates`) and the
> weight is empty, or the payloads cover the places (`Covers`) and the grid fits (`Fits`).

That the condition is enough is `blockwise_of_index`. That it is needed is read off a
source that can be built for every declaration, a weight of ones and a grid of ones with a
single two (`markedSource`): the two has to come out where it was put
(`index_of_blockwise`). A row of forty columns in blocks of 32 fails it
(`partial_block_misread`).

A float is its bits. The arithmetic is a parameter (`Arith`), with the few products that
the marked source needs as laws.
-/

namespace Colibri.Convert

open Batch Blocks Loader Safetensors Tiles Vectors

inductive ConvertError where
  /-- "missing tensor: {name}" -/
  | missing (name : List Char)
  /-- "{name}: expected a 2D tensor, got shape {shape:?}" -/
  | notTwoDims (name : List Char) (shape : List Int)
  /-- "FP8 weight {name} has no block-scale sidecar: tried {name}_scale_inv, {alt}" -/
  | noBlockScale (name alt : List Char)
  /-- "NVFP4 weight {name} has no {gname} (global scale)" -/
  | noGlobal (name gname : List Char)
  /-- "{name}: {gname}={gscale:e} >= 1 looks like the reciprocal …" -/
  | reciprocal (name gname : List Char) (gscale : F32)
  /-- "{sname}: block-scale grid is [{nbo},{nbi}], expected [{o},{nb}] …" -/
  | grid (sname : List Char) (nbo nbi o nb : Nat)
  /-- "not an MXFP4 packed-weight name: {src}" -/
  | notMxfp4 (src : List Char)
  /-- "{out_name}: expected per-row ternary (-s, 0, +s) weights for Maple, but this [{o},{i}]
  tensor is not. …" -/
  | notTernary (outName : List Char) (o i : Nat)
  | io (e : IoError)

/-- `1.0` and `2.0` -/
def one : F32 := 0x3F800000
def two : F32 := 0x40000000

/-- What `dequant` computes with floats. Of multiplication only that one is neutral for zero,
one and two. -/
structure Arith extends Conv where
  mul : F32 → F32 → F32
  /-- `f32::exp2` of an integer -/
  exp2 : Int → F32
  f8e4m3_one : f8e4m3 0x38 = one
  exp2_zero : exp2 0 = one
  exp2_one : exp2 1 = two
  one_mul_zero : mul one 0 = 0
  one_mul_one : mul one one = one
  one_mul_two : mul one two = two

/-! ## Reading -/

def ioErr {α : Type} : Outcome IoError α → Outcome ConvertError α
  | .ok a => .ok a
  | .error e => .error (.io e)
  | .panic => .panic

def twoDims (shape : List Int) (name : List Char) : Outcome ConvertError (Nat × Nat) :=
  match shape with
  | [o, i] => .ok (asUsize o, asUsize i)
  | _ => .error (.notTwoDims name shape)

section

variable (A : Arith) (s : Shards) (name : List Char)

/-- `read_f32` into `vec![0f32; n]`. -/
def readFloats (n : Nat) : Outcome ConvertError (List F32) :=
  if n * 4 < 2 ^ 63 then ioErr (s.readF32 A.toConv name (List.replicate n 0)) else .panic

def stripSuffix (suf l : List Char) : Option (List Char) :=
  if suf.isSuffixOf l then some (l.take (l.length - suf.length)) else none

def scaleName : List Char := name ++ "_scale".toList
def scaleInvName : List Char := name ++ "_scale_inv".toList
def scale2Name : List Char := name ++ "_scale_2".toList

/-- `alt`: what DeepSeek-V4 calls the scales of `name`. -/
def altName : List Char :=
  match stripSuffix ".weight".toList name with
  | some stem => stem ++ ".scale".toList
  | none => []

/-! ## Block scales -/

/-- The grid of a weight's block scales, under either name. -/
def sidecar : Outcome ConvertError (List Char × StTensor) :=
  match s.find (scaleInvName name) with
  | some st => .ok (scaleInvName name, st)
  | none =>
    match s.find (altName name) with
    | some st => .ok (altName name, st)
    | none => .error (.noBlockScale name (altName name))

/-- `BLOCK` -/
def blockSize : Nat := 128

/-- The loops over rows and columns; `scale` is what a place is multiplied by. -/
def scaleRows (w : List F32) (o i : Nat) (scale : Nat → Nat → Option F32) : Option (List F32) :=
  ((List.range o).mapM fun oo => do
    let wrow ← slice w (umul oo i) (umul (oo + 1) i)
    wrow.zipIdx.mapM fun (wv, ii) => (scale oo ii).map (A.mul wv)).map List.flatten

/-- `f32::exp2((e - 127) as f32)` -/
def exponent (e : UInt8) : F32 := A.exp2 ((e.toNat : Int) - 127)

/-- FP8 with a grid of scales. -/
def dequantBlocks (t : StTensor) : Outcome ConvertError (List F32 × List Int) := do
  let (o, i) ← twoDims t.shape name
  let (sname, st) ← sidecar s name
  let (nbo, nbi) ← twoDims st.shape sname
  let w ← readFloats A s name (umul o i)
  match st.dtype with
  | .u8 =>
    let bo := max (o / max nbo 1) 1
    let bi := max (i / max nbi 1) 1
    let raw ← ioErr (s.readRaw sname)
    let w ← .ofOption <| scaleRows A w o i fun oo ii =>
      (raw[wadd (umul (oo / bo) nbi) (ii / bi)]?).map (exponent A)
    return (w, t.shape)
  | _ =>
    let scale ← readFloats A s sname (umul nbo nbi)
    let w ← .ofOption <| scaleRows A w o i fun oo ii =>
      scale[wadd (umul (oo / blockSize) nbi) (ii / blockSize)]?
    return (w, t.shape)

/-! ## The other layouts -/

/-- FP8 with one scale a tensor. -/
def dequantTensor (t : StTensor) : Outcome ConvertError (List F32 × List Int) :=
  match s.find (scaleName name) with
  | none => .panic
  | some st => do
    let sc ← readFloats A s (scaleName name) (max st.numel 1).toNat
    let w ← readFloats A s name (max t.numel 0).toNat
    return (w.map (A.mul · (sc.headD 0)), t.shape)

/-- `E2M1`, as bits. -/
def e2m1Bits : List F32 :=
  [0, 0x3F000000, 0x3F800000, 0x3FC00000, 0x40000000, 0x40400000, 0x40800000, 0x40C00000,
    0x80000000, 0xBF000000, 0xBF800000, 0xBFC00000, 0xC0000000, 0xC0400000, 0xC0800000,
    0xC0C00000]

/-- `v < 1.0`: no `NaN`, and negative or less than one. -/
def ltOne (v : F32) : Bool :=
  decide (v.toNat % 2 ^ 31 ≤ 0x7F800000) &&
    (decide (2 ^ 31 ≤ v.toNat) || decide (v.toNat < 0x3F800000))

def nvfp4Gs : Nat := 16

def dequantNvfp4 (t : StTensor) : Outcome ConvertError (List F32 × List Int) := do
  let (o, ih) ← twoDims t.shape name
  let i := umul ih 2
  match s.find (scale2Name name) with
  | none => .error (.noGlobal name (scale2Name name))
  | some gt =>
    let g ← readFloats A s (scale2Name name) (max gt.numel 1).toNat
    let gscale := g.headD 0
    if ltOne gscale = false then .error (.reciprocal name (scale2Name name) gscale)
    else
      match s.find (scaleName name) with
      | none => .panic
      | some st =>
        let (nbo, nbi) ← twoDims st.shape (scaleName name)
        let nb := (i + (nvfp4Gs - 1)) / nvfp4Gs
        if nbi ≠ nb ∨ nbo ≠ o then .error (.grid (scaleName name) nbo nbi o nb)
        else
          let bscale ← readFloats A s (scaleName name) (umul nbo nbi)
          let raw ← ioErr (s.readRaw name)
          if umul o i * 4 < 2 ^ 63 then
            let value := fun (nib : UInt8) (oo c : Nat) =>
              (bscale[oo * nbi + c / nvfp4Gs]?).map fun b =>
                A.mul (A.mul (e2m1Bits.getD nib.toNat 0) b) gscale
            let w ← .ofOption <| (List.range o).mapM fun oo => (List.range ih).mapM fun iih => do
              let b ← raw[oo * ih + iih]?
              let lo ← value (b &&& 0x0F) oo (iih * 2)
              let hi ← value (b >>> 4) oo (iih * 2 + 1)
              some [lo, hi]
            return (w.flatten.flatten, [(o : Int), (i : Int)])
          else .panic

/-- Anything else is read as it is. -/
def dequantPlain (t : StTensor) : Outcome ConvertError (List F32 × List Int) := do
  let w ← readFloats A s name (max t.numel 0).toNat
  return (w, t.shape)

/-- `dequant`: the values of a tensor and its shape. -/
def dequant : Outcome ConvertError (List F32 × List Int) :=
  match s.find name with
  | none => .error (.missing name)
  | some t =>
    match t.dtype with
    | .f8e4m3 | .f8e5m2 =>
      if has s (scaleInvName name) = false ∧ has s (scaleName name) = true then
        dequantTensor A s name t
      else dequantBlocks A s name t
    | .u8 =>
      if has s (scaleName name) then dequantNvfp4 A s name t else dequantPlain A s name t
    | _ => dequantPlain A s name t

end

/-! ## Block-scaled sources -/

/-- What the headers declare of a weight and of its grid: the dimensions, and the bytes of
the payloads. Nothing ties the ones to the others. -/
structure Shapes where
  weight : Int × Int
  grid : Int × Int
  weightBytes : Nat
  gridBytes : Nat
  bytes_lt : weightBytes < 2 ^ 64 ∧ gridBytes < 2 ^ 64

namespace Shapes

variable (sh : Shapes)

/-- The dimensions as `two_dims` has them. -/
def o : Nat := asUsize sh.weight.1
def i : Nat := asUsize sh.weight.2
def nbo : Nat := asUsize sh.grid.1
def nbi : Nat := asUsize sh.grid.2

end Shapes

/-- The grids there are: floats for blocks of 128 by 128, and exponents for blocks of a size
that the publisher knows. -/
inductive Layout where
  | f32
  | e8m0 (rows cols : Nat) (hrows : 0 < rows) (hcols : 0 < cols)

/-- What `vec![0f32; n]` holds once `vs` have been read into it. -/
def filled (vs : List F32) (n : Nat) : List F32 := vs.take n ++ List.replicate (n - vs.length) 0

namespace Layout

/-- The rows and the columns of a block. -/
def rows : Layout → Nat
  | f32 => blockSize
  | e8m0 rows _ _ _ => rows

def cols : Layout → Nat
  | f32 => blockSize
  | e8m0 _ cols _ _ => cols

def dtype : Layout → DType
  | f32 => .f32
  | e8m0 .. => .u8

/-- The bytes of a scale. -/
def width : Layout → Nat
  | f32 => 4
  | e8m0 .. => 1

/-- The scales in a grid's bytes. -/
def scales (L : Layout) (A : Arith) (raw : List UInt8) : List F32 :=
  match L with
  | f32 => floats4 raw
  | e8m0 .. => raw.map (exponent A)

/-- The scales that `dequant` has of them: floats are read into a grid of the declared size,
and exponents are taken as they are. -/
def held (L : Layout) (A : Arith) (sh : Shapes) (raw : List UInt8) : List F32 :=
  match L with
  | f32 => filled (floats4 raw) (umul sh.nbo sh.nbi)
  | e8m0 .. => raw.map (exponent A)

/-- The grid as `dequant` reads it. -/
def readScales (L : Layout) (A : Arith) (s : Shards) (sname : List Char) (n : Nat) :
    Outcome ConvertError (List F32) :=
  match L with
  | f32 => readFloats A s sname n
  | e8m0 .. => ioErr (s.readRaw sname) >>= fun raw => .ok (raw.map (exponent A))

/-- The block that `dequant` goes by. -/
def extent (L : Layout) (sh : Shapes) : Nat × Nat :=
  match L with
  | f32 => (blockSize, blockSize)
  | e8m0 .. => (inferred sh.o sh.nbo, inferred sh.i sh.nbi)

/-- The place in the grid that `dequant` reads. -/
def index (L : Layout) (sh : Shapes) (r c : Nat) : Nat :=
  wadd (umul (r / (L.extent sh).1) sh.nbi) (c / (L.extent sh).2)

/-- The place in the grid of the block that a place of the weight is in. -/
def block (L : Layout) (sh : Shapes) (r c : Nat) : Nat := r / L.rows * sh.nbi + c / L.cols

/-- The buffers are ones that can be allocated. -/
def Allocates (L : Layout) (sh : Shapes) : Prop :=
  sh.weightBytes < 2 ^ 63 ∧ sh.gridBytes < 2 ^ 63 ∧ sh.o * sh.i * 4 < 2 ^ 63 ∧
    match L with
    | f32 => umul sh.nbo sh.nbi * 4 < 2 ^ 63
    | e8m0 .. => True

/-- The scales of the payload that `dequant` has. -/
def size (L : Layout) (sh : Shapes) : Nat :=
  match L with
  | f32 => min (umul sh.nbo sh.nbi) (sh.gridBytes / 4)
  | e8m0 .. => sh.gridBytes

/-- The payloads are long enough: a code for every place, and a scale for the last block. -/
def Covers (L : Layout) (sh : Shapes) : Prop :=
  sh.o * sh.i ≤ sh.weightBytes ∧ L.block sh (sh.o - 1) (sh.i - 1) < L.size sh

/-- When the grid has a block for every place and the size that is taken for a block's finds
it: a grid of floats has to be large enough, and blocks of an unknown size have to fill the
dimension, or be one, or be single places. -/
def Fits (L : Layout) (sh : Shapes) : Prop :=
  match L with
  | f32 => sh.o ≤ sh.nbo * blockSize ∧ sh.i ≤ sh.nbi * blockSize
  | e8m0 rows cols _ _ => Exact sh.o sh.nbo rows ∧ Exact sh.i sh.nbi cols

end Layout

/-- An FP8 weight with a grid of scales, as their headers declare them. -/
structure BlockScaled (L : Layout) (sh : Shapes) (s : Shards) (name sname : List Char)
    (t st : StTensor) : Prop where
  found : s.find name = some t
  fp8 : t.dtype = .f8e4m3 ∨ t.dtype = .f8e5m2
  shape : t.shape = [sh.weight.1, sh.weight.2]
  size : t.nbytes = sh.weightBytes
  block : has s (scaleInvName name) = true ∨ has s (scaleName name) = false
  grid : sidecar s name = .ok (sname, st)
  gridType : st.dtype = L.dtype
  gridShape : st.shape = [sh.grid.1, sh.grid.2]
  gridSize : st.nbytes = sh.gridBytes

/-- An error, or at every place the decoded code times the scale of the block that the place
is in. -/
def Blockwise (A : Arith) (L : Layout) (sh : Shapes) (s : Shards) (t st : StTensor) :
    Outcome ConvertError (List F32 × List Int) → Prop
  | .ok (w, shape) => shape = t.shape ∧ w.length = sh.o * sh.i ∧
      ∀ r < sh.o, ∀ c < sh.i, r / L.rows < sh.nbo ∧ c / L.cols < sh.nbi ∧
        ∃ code scale, (floats A.toConv t.dtype (s.data t))[r * sh.i + c]? = some (some code) ∧
          (L.scales A (s.data st))[L.block sh r c]? = some scale ∧
          w[r * sh.i + c]? = some (A.mul code scale)
  | .error _ => True
  | .panic => False

/-! ### Reading them -/

theorem convertInto_some (vs out : List F32) :
    convertInto (vs.map some) out = some (vs.take out.length ++ out.drop vs.length) := by
  induction vs generalizing out with
  | nil => rw [List.take_nil, List.nil_append]; rfl
  | cons v vs ih =>
    cases out with
    | nil => rfl
    | cons x out =>
      rw [List.map_cons, convertInto, ih out]
      rfl

theorem length_filled (vs : List F32) (n : Nat) : (filled vs n).length = n := by
  rw [filled, List.length_append, List.length_take, List.length_replicate]
  omega

theorem getElem?_filled {vs : List F32} {n k : Nat} (hk : k < n) (hv : k < vs.length) :
    (filled vs n)[k]? = vs[k]? := by
  rw [filled, List.getElem?_append_left (by rw [List.length_take]; omega),
    List.getElem?_take_of_lt hk]

/-- Behind what was read the vector is as it was allocated. -/
theorem getElem?_filled_zero {vs : List F32} {n k : Nat} (hk : k < n) (hv : vs.length ≤ k) :
    (filled vs n)[k]? = some 0 := by
  have htake : (vs.take n).length ≤ k := by
    rw [List.length_take]
    omega
  rw [filled, List.getElem?_append_right htake, List.getElem?_replicate, if_pos]
  rw [List.length_take]
  omega

theorem floats4_length (raw : List UInt8) : (floats4 raw).length = raw.length / 4 := by
  fun_induction floats4 raw with
  | case1 b₀ b₁ b₂ b₃ raw ih =>
    simp only [List.length_cons, ih]
    omega
  | case2 raw h =>
    -- fewer than four bytes are left
    match raw, h with
    | [], _ | [_], _ | [_, _], _ | [_, _, _], _ => simp
    | b₀ :: b₁ :: b₂ :: b₃ :: raw, h => exact absurd rfl (h b₀ b₁ b₂ b₃ raw)

/-- The conversion of a code of a weight. -/
def decode (A : Arith) : DType → UInt8 → F32
  | .f8e5m2 => A.f8e5m2
  | _ => A.f8e4m3

section

variable {A : Arith} {L : Layout} {sh : Shapes} {s : Shards} {name sname : List Char}
  {t st : StTensor}

/-- A tensor of a small size is read, or its file is cut off. -/
theorem reads_or_cut (ht : s.find name = some t) (hsmall : t.nbytes < 2 ^ 63) :
    s.Reads name t ∨ s.readRaw name = .error .unexpectedEof := by
  unfold Shards.readRaw
  rw [ht]
  by_cases hin : t.nbytes = 0 ∨ t.off + t.nbytes ≤ (s.file t.fileIdx).length
  · exact .inl ⟨ht, hsmall, hin⟩
  · simp only [if_neg (Nat.not_le_of_lt hsmall), if_neg hin]
    exact .inr trivial

theorem readRaw_huge (ht : s.find name = some t) (hbig : ¬ t.nbytes < 2 ^ 63) :
    s.readRaw name = .panic := by
  unfold Shards.readRaw
  rw [ht]
  exact if_pos (Nat.not_lt.mp hbig)

theorem readFloats_ok (ht : s.Reads name t) {vs : List F32}
    (hvs : floats A.toConv t.dtype (s.data t) = vs.map some) {n : Nat} (hlt : n * 4 < 2 ^ 63) :
    readFloats A s name n = .ok (filled vs n) := by
  have hconv : convertInto (vs.map some) (List.replicate n 0) = some (filled vs n) := by
    rw [convertInto_some, List.length_replicate, List.drop_replicate]
    rfl
  unfold readFloats Shards.readF32
  simp only [if_pos hlt, ht.found, ht.readRaw, Outcome.ok_bind, hvs, hconv]
  rfl

theorem readFloats_cut (ht : s.find name = some t)
    (hcut : s.readRaw name = .error .unexpectedEof) {n : Nat} (hlt : n * 4 < 2 ^ 63) :
    readFloats A s name n = .error (.io .unexpectedEof) := by
  unfold readFloats Shards.readF32
  simp only [if_pos hlt, ht, hcut, Outcome.error_bind]
  rfl

/-- A vector of too many floats, or a payload of too many bytes, is not allocated. -/
theorem readFloats_huge (ht : s.find name = some t) {n : Nat}
    (hbig : ¬ (n * 4 < 2 ^ 63 ∧ t.nbytes < 2 ^ 63)) : readFloats A s name n = .panic := by
  unfold readFloats
  by_cases hn : n * 4 < 2 ^ 63
  · have hraw := readRaw_huge ht fun hsmall => hbig ⟨hn, hsmall⟩
    unfold Shards.readF32
    simp only [if_pos hn, ht, hraw]
    rfl
  · exact if_neg hn

theorem sidecar_found (h : sidecar s name = .ok (sname, st)) : s.find sname = some st := by
  unfold sidecar at h
  split at h
  next hfind =>
    cases h
    exact hfind
  next =>
    split at h
    next hfind =>
      cases h
      exact hfind
    next => cases h

/-! ### Scaling them -/

theorem asUsize_lt_word (v : Int) : asUsize v < 2 ^ 64 := by
  unfold asUsize usizeCount
  omega

theorem umul_of_lt {a b : Nat} (h : a * b < 2 ^ 64) : umul a b = a * b := Nat.mod_eq_of_lt h

/-- A row is sliced off without a wrap. -/
theorem slice_umul {w : List F32} {o i r : Nat} (hw : w.length = o * i) (hlt : o * i < 2 ^ 64)
    (hr : r < o) : ∃ wrow, slice w (umul r i) (umul (r + 1) i) = some wrow ∧ wrow.length = i ∧
      ∀ k < i, wrow[k]? = w[r * i + k]? := by
  have hend : (r + 1) * i ≤ o * i := Nat.mul_le_mul_right i hr
  have hstart : r * i ≤ o * i := Nat.mul_le_mul_right i (Nat.le_of_lt hr)
  rw [umul_of_lt (by omega), umul_of_lt (by omega)]
  exact slice_row hw hr

/-- A row of the loop. -/
theorem scaleRow_eq {wrow : List F32} {scale : Nat → Option F32} {sc : Nat → F32}
    (h : ∀ ii < wrow.length, scale ii = some (sc ii)) :
    (wrow.zipIdx.mapM fun (wv, ii) => (scale ii).map (A.mul wv))
      = some (wrow.zipIdx.map fun (wv, ii) => A.mul wv (sc ii)) := by
  refine mapM_eq_map fun p hp => ?_
  have hlt := (List.mem_zipIdx hp).2.1
  rw [Nat.zero_add] at hlt
  show (scale p.2).map _ = _
  rw [h p.2 hlt]
  rfl

/-- Where there is a scale for every place, the loops multiply each place by its scale. -/
theorem scaleRows_eq {w : List F32} {o i : Nat} {scale : Nat → Nat → Option F32}
    {sc : Nat → Nat → F32} (hw : w.length = o * i) (hlt : o * i < 2 ^ 64)
    (h : ∀ r < o, ∀ c < i, scale r c = some (sc r c)) :
    ∃ out, scaleRows A w o i scale = some out ∧ out.length = o * i ∧
      ∀ r < o, ∀ c < i, out[r * i + c]? = (w[r * i + c]?).map fun wv => A.mul wv (sc r c) := by
  have hrow : ∀ oo < o, ∃ wrow, slice w (umul oo i) (umul (oo + 1) i) = some wrow ∧
      wrow.length = i ∧ ∀ k < i, wrow[k]? = w[oo * i + k]? := fun _ hoo => slice_umul hw hlt hoo
  let row := fun oo => (slice w (umul oo i) (umul (oo + 1) i)).getD []
  let outRow := fun oo => (row oo).zipIdx.map fun (wv, ii) => A.mul wv (sc oo ii)
  have hloop : ∀ oo ∈ List.range o,
      ((slice w (umul oo i) (umul (oo + 1) i)).bind fun wrow =>
        wrow.zipIdx.mapM fun (wv, ii) => (scale oo ii).map (A.mul wv)) = some (outRow oo) := by
    intro oo hoo
    obtain ⟨wrow, hslice, hlen, -⟩ := hrow oo (List.mem_range.mp hoo)
    have hout : outRow oo = wrow.zipIdx.map fun (wv, ii) => A.mul wv (sc oo ii) := by
      simp only [outRow, row, hslice, Option.getD_some]
    rw [hslice, Option.bind_some, hout]
    exact scaleRow_eq fun ii hii => h oo (List.mem_range.mp hoo) ii (hlen ▸ hii)
  have hwidth : ∀ oo, oo < o → (outRow oo).length = i := by
    intro oo hoo
    obtain ⟨wrow, hslice, hlen, -⟩ := hrow oo hoo
    simp only [outRow, row, hslice, Option.getD_some, List.length_map, List.length_zipIdx, hlen]
  have hblocks : ((List.range o).map outRow).flatten = blocks o outRow :=
    List.flatMap_def.symm
  refine ⟨blocks o outRow, ?_, length_blocks hwidth, fun r hr c hc => ?_⟩
  · unfold scaleRows
    simp only [Option.bind_eq_bind]
    rw [mapM_eq_map hloop, Option.map_some, hblocks]
  · obtain ⟨wrow, hslice, -, hget⟩ := hrow r hr
    have hout : outRow r = wrow.zipIdx.map fun (wv, ii) => A.mul wv (sc r ii) := by
      simp only [outRow, row, hslice, Option.getD_some]
    rw [getElem?_blocks hwidth hr hc, hout, List.getElem?_map, List.getElem?_zipIdx, hget c hc,
      Nat.zero_add]
    cases w[r * i + c]? <;> rfl

/-- A place without a scale is an index out of range. -/
theorem scaleRows_none {w : List F32} {o i : Nat} {scale : Nat → Nat → Option F32} {r c : Nat}
    (hw : w.length = o * i) (hlt : o * i < 2 ^ 64) (hr : r < o) (hc : c < i)
    (h : scale r c = none) : scaleRows A w o i scale = none := by
  obtain ⟨wrow, hslice, hlen, -⟩ := slice_umul hw hlt hr
  have hrow : (slice w (umul r i) (umul (r + 1) i)).bind (fun wrow =>
      wrow.zipIdx.mapM fun (wv, ii) => (scale r ii).map (A.mul wv)) = none := by
    rw [hslice, Option.bind_some]
    have hmem : (wrow.get ⟨c, hlen ▸ hc⟩, c) ∈ wrow.zipIdx := by
      rw [List.mem_zipIdx_iff_getElem?]
      exact List.getElem?_eq_getElem _
    refine mapM_eq_none hmem ?_
    show (scale r c).map _ = none
    rw [h]
    rfl
  unfold scaleRows
  simp only [Option.bind_eq_bind]
  rw [mapM_eq_none (List.mem_range.mpr hr) hrow]
  rfl

/-- Where the number of places wraps, the rows leave the vector before they are through. -/
theorem scaleRows_wrapped {w : List F32} {o i : Nat} {scale : Nat → Nat → Option F32}
    (hw : w.length = umul o i) (hi : i < 2 ^ 64) (hlt : umul o i * 4 < 2 ^ 63)
    (hwrap : 2 ^ 64 ≤ o * i) : scaleRows A w o i scale = none := by
  generalize hn : umul o i = n at hw hlt
  have hpos : 0 < i := Nat.pos_of_ne_zero fun h => by simp [h] at hwrap
  -- the first row that is not inside
  have hr : n / i < o := (Nat.div_lt_iff_lt_mul hpos).mpr (by omega)
  have hend : n < (n / i + 1) * i := Nat.lt_mul_of_div_lt (Nat.lt_succ_self _) hpos
  have hend_lt : (n / i + 1) * i < 2 ^ 64 := by
    rcases Nat.lt_or_ge n i with hsmall | hle
    · rw [Nat.div_eq_of_lt hsmall]
      omega
    · have := Nat.div_mul_le_self n i
      rw [Nat.succ_mul]
      omega
  have hslice : slice w (umul (n / i) i) (umul (n / i + 1) i) = none := by
    refine if_neg ?_
    rw [umul_of_lt hend_lt, hw]
    omega
  unfold scaleRows
  simp only [Option.bind_eq_bind]
  rw [mapM_eq_none (List.mem_range.mpr hr) (by rw [hslice]; rfl)]
  rfl

/-- `dequant` of a block-scaled weight, in one form for both grids. -/
theorem BlockScaled.dequant_eq (h : BlockScaled L sh s name sname t st) :
    dequant A s name = (do
      let w ← readFloats A s name (umul sh.o sh.i)
      let scale ← L.readScales A s sname (umul sh.nbo sh.nbi)
      let w ← .ofOption <| scaleRows A w sh.o sh.i fun oo ii => scale[L.index sh oo ii]?
      return (w, t.shape)) := by
  have hcond : ¬ (has s (scaleInvName name) = false ∧ has s (scaleName name) = true) := by
    rintro ⟨hinv, hscale⟩
    rcases h.block with hb | hb
    · rw [hb] at hinv
      cases hinv
    · rw [hb] at hscale
      cases hscale
  have hbranch : dequant A s name = dequantBlocks A s name t := by
    unfold dequant
    rw [h.found]
    rcases h.fp8 with hd | hd
    · simp only [hd, if_neg hcond]
    · simp only [hd, if_neg hcond]
  rw [hbranch]
  unfold dequantBlocks
  simp only [h.shape, twoDims, h.grid, h.gridShape, Outcome.ok_bind, h.gridType]
  cases L with
  | f32 => rfl
  | e8m0 =>
    simp only [Layout.dtype, Layout.readScales, Layout.index, Layout.extent, inferred]
    show (readFloats A s name (umul sh.o sh.i) >>= _) = _
    congr 1
    funext w
    cases ioErr (s.readRaw sname) with
    | ok raw =>
      simp only [Outcome.ok_bind, List.getElem?_map]
      rfl
    | error e => rfl
    | panic => rfl

/-- The decoded codes of a weight. -/
theorem BlockScaled.floats_eq (h : BlockScaled L sh s name sname t st) (raw : List UInt8) :
    floats A.toConv t.dtype raw = (raw.map (decode A t.dtype)).map some := by
  rw [List.map_map]
  rcases h.fp8 with hd | hd
  · rw [hd]
    rfl
  · rw [hd]
    rfl

/-! ### The buffers -/

theorem Layout.Allocates.umul_eq (hall : L.Allocates sh) : umul sh.o sh.i = sh.o * sh.i := by
  obtain ⟨-, -, hplaces, -⟩ := hall
  exact umul_of_lt (by omega)

theorem Layout.readScales_ok (h : BlockScaled L sh s name sname t st) (hst : s.Reads sname st)
    (hall : L.Allocates sh) :
    L.readScales A s sname (umul sh.nbo sh.nbi) = .ok (L.held A sh (s.data st)) := by
  obtain ⟨-, -, -, hgrid⟩ := hall
  cases L with
  | f32 =>
    refine readFloats_ok hst ?_ hgrid
    rw [h.gridType]
    rfl
  | e8m0 =>
    rw [Layout.readScales, hst.readRaw]
    rfl

theorem Layout.readScales_cut (h : BlockScaled L sh s name sname t st)
    (hcut : s.readRaw sname = .error .unexpectedEof) (hall : L.Allocates sh) :
    L.readScales A s sname (umul sh.nbo sh.nbi) = .error (.io .unexpectedEof) := by
  obtain ⟨-, -, -, hgrid⟩ := hall
  cases L with
  | f32 => exact readFloats_cut (sidecar_found h.grid) hcut hgrid
  | e8m0 =>
    rw [Layout.readScales, hcut]
    rfl

/-- Once both tensors are read, `dequant` is its loops. -/
theorem dequant_reads (h : BlockScaled L sh s name sname t st) (ht : s.Reads name t)
    (hst : s.Reads sname st) (hall : L.Allocates sh) :
    dequant A s name = (.ofOption (scaleRows A
        (filled ((s.data t).map (decode A t.dtype)) (sh.o * sh.i)) sh.o sh.i fun oo ii =>
          (L.held A sh (s.data st))[L.index sh oo ii]?) >>= fun out => .ok (out, t.shape)) := by
  have hplaces := hall.2.2.1
  rw [h.dequant_eq, hall.umul_eq, readFloats_ok ht (h.floats_eq _) hplaces, Outcome.ok_bind,
    Layout.readScales_ok h hst hall, Outcome.ok_bind]
  rfl

/-- A file that is cut off is an error. -/
theorem dequant_cut (h : BlockScaled L sh s name sname t st) (hall : L.Allocates sh)
    (hcut : ¬ (s.Reads name t ∧ s.Reads sname st)) : ∃ e, dequant A s name = .error e := by
  have hplaces := hall.2.2.1
  rw [h.dequant_eq, hall.umul_eq]
  rcases reads_or_cut h.found (h.size ▸ hall.1) with ht | hfirst
  · rcases reads_or_cut (sidecar_found h.grid) (h.gridSize ▸ hall.2.1) with hst | hsecond
    · exact absurd ⟨ht, hst⟩ hcut
    · refine ⟨.io .unexpectedEof, ?_⟩
      rw [readFloats_ok ht (h.floats_eq _) hplaces, Outcome.ok_bind,
        Layout.readScales_cut h hsecond hall]
      rfl
  · refine ⟨.io .unexpectedEof, ?_⟩
    rw [readFloats_cut h.found hfirst hplaces]
    rfl

/-- The grid is too large to be read, or it is read. -/
theorem Layout.readScales_huge_or_ok (h : BlockScaled L sh s name sname t st)
    (hst : st.nbytes < 2 ^ 63 → s.Reads sname st) :
    L.readScales A s sname (umul sh.nbo sh.nbi) = .panic ∨
      (st.nbytes < 2 ^ 63 ∧ (L.dtype = .f32 → umul sh.nbo sh.nbi * 4 < 2 ^ 63) ∧
        ∃ scale, L.readScales A s sname (umul sh.nbo sh.nbi) = .ok scale) := by
  have hfound := sidecar_found h.grid
  cases L with
  | f32 =>
    by_cases hg : umul sh.nbo sh.nbi * 4 < 2 ^ 63 ∧ st.nbytes < 2 ^ 63
    · refine .inr ⟨hg.2, fun _ => hg.1, filled (floats4 (s.data st)) (umul sh.nbo sh.nbi), ?_⟩
      refine readFloats_ok (hst hg.2) ?_ hg.1
      rw [h.gridType]
      rfl
    · exact .inl (readFloats_huge hfound hg)
  | e8m0 =>
    by_cases hg : st.nbytes < 2 ^ 63
    · refine .inr ⟨hg, ?_, (s.data st).map (exponent A), ?_⟩
      · intro hfloat
        cases hfloat
      · rw [Layout.readScales, (hst hg).readRaw]
        rfl
    · refine .inl ?_
      rw [Layout.readScales, readRaw_huge hfound hg]
      rfl

/-- Without room for one of the buffers, and with files that are whole, `dequant` panics:
where it allocates, or where the places that wrapped are sliced. -/
theorem dequant_huge (h : BlockScaled L sh s name sname t st)
    (ht : t.nbytes < 2 ^ 63 → s.Reads name t) (hst : st.nbytes < 2 ^ 63 → s.Reads sname st)
    (hall : ¬ L.Allocates sh) : dequant A s name = .panic := by
  rw [h.dequant_eq]
  by_cases hweight : umul sh.o sh.i * 4 < 2 ^ 63 ∧ t.nbytes < 2 ^ 63
  · rw [readFloats_ok (ht hweight.2) (h.floats_eq _) hweight.1, Outcome.ok_bind]
    rcases Layout.readScales_huge_or_ok (A := A) h hst with hpanic | ⟨hgrid, hfloats, scale, hread⟩
    · rw [hpanic]
      rfl
    · -- every buffer is allocated: the number of places has wrapped
      have hwrap : 2 ^ 64 ≤ sh.o * sh.i := by
        by_contra hlt
        refine hall ⟨h.size ▸ hweight.2, h.gridSize ▸ hgrid, ?_, ?_⟩
        · have hplaces := hweight.1
          rw [umul_of_lt (Nat.not_le.mp hlt)] at hplaces
          exact hplaces
        · cases L with
          | f32 => exact hfloats rfl
          | e8m0 => trivial
      have hi : sh.i < 2 ^ 64 := asUsize_lt_word _
      rw [hread, Outcome.ok_bind, scaleRows_wrapped (length_filled _ _) hi hweight.1 hwrap]
      rfl
  · rw [readFloats_huge h.found hweight]
    rfl

/-! ### The scales of a payload -/

theorem Layout.size_lt : L.size sh < 2 ^ 64 := by
  cases L with
  | f32 => exact Nat.lt_of_le_of_lt (Nat.min_le_left _ _) (Nat.mod_lt _ (Nat.two_pow_pos 64))
  | e8m0 => exact sh.bytes_lt.2

theorem scales_of_lt (h : BlockScaled L sh s name sname t st) (hst : s.Reads sname st) {k : Nat}
    (hk : k < L.size sh) : ∃ v, (L.scales A (s.data st))[k]? = some v := by
  have hlen := hst.length_data
  rw [h.gridSize] at hlen
  refine ⟨_, List.getElem?_eq_getElem (?_ : k < (L.scales A (s.data st)).length)⟩
  cases L with
  | f32 =>
    rw [Layout.scales, floats4_length, hlen]
    exact (Nat.lt_min.mp hk).2
  | e8m0 =>
    rw [Layout.scales, List.length_map, hlen]
    exact hk

theorem held_of_lt (h : BlockScaled L sh s name sname t st) (hst : s.Reads sname st) {k : Nat}
    (hk : k < L.size sh) :
    (L.held A sh (s.data st))[k]? = (L.scales A (s.data st))[k]? := by
  have hlen := hst.length_data
  rw [h.gridSize] at hlen
  cases L with
  | f32 =>
    obtain ⟨hgrid, hbytes⟩ := Nat.lt_min.mp hk
    refine getElem?_filled hgrid ?_
    rw [floats4_length, hlen]
    exact hbytes
  | e8m0 => rfl

/-- With codes and scales enough and the index of the block's scale at every place,
`dequant` is right. -/
theorem blockwise_of_index (hall : L.Allocates sh) (hcodes : 0 < sh.o → 0 < sh.i →
      sh.o * sh.i ≤ sh.weightBytes)
    (hindex : ∀ r < sh.o, ∀ c < sh.i, r / L.rows < sh.nbo ∧ c / L.cols < sh.nbi ∧
      L.index sh r c = L.block sh r c ∧ L.block sh r c < L.size sh)
    (h : BlockScaled L sh s name sname t st) : Blockwise A L sh s t st (dequant A s name) := by
  by_cases hreads : s.Reads name t ∧ s.Reads sname st
  · have hplaces := hall.2.2.1
    rw [dequant_reads (A := A) h hreads.1 hreads.2 hall]
    have hlen := length_filled ((s.data t).map (decode A t.dtype)) (sh.o * sh.i)
    have hheld : ∀ r < sh.o, ∀ c < sh.i, ∃ v,
        (L.held A sh (s.data st))[L.index sh r c]? = some v ∧
          (L.scales A (s.data st))[L.block sh r c]? = some v := by
      intro r hr c hc
      obtain ⟨-, -, heq, hlt⟩ := hindex r hr c hc
      obtain ⟨v, hv⟩ := scales_of_lt (A := A) h hreads.2 hlt
      exact ⟨v, by rw [heq, held_of_lt h hreads.2 hlt, hv], hv⟩
    have hscale : ∀ r < sh.o, ∀ c < sh.i, (L.held A sh (s.data st))[L.index sh r c]?
        = some ((L.scales A (s.data st)).getD (L.block sh r c) 0) := by
      intro r hr c hc
      obtain ⟨v, hheld, hv⟩ := hheld r hr c hc
      rw [hheld, List.getD_eq_getElem?_getD, hv]
      rfl
    obtain ⟨out, hout, houtlen, hget⟩ := scaleRows_eq hlen (by omega) hscale
    rw [hout]
    refine ⟨rfl, houtlen, fun r hr c hc => ?_⟩
    obtain ⟨hbo, hbi, -, -⟩ := hindex r hr c hc
    obtain ⟨v, -, hv⟩ := hheld r hr c hc
    have hplace : r * sh.i + c < sh.o * sh.i := place_lt hr hc
    have hcode : r * sh.i + c < ((s.data t).map (decode A t.dtype)).length := by
      rw [List.length_map, hreads.1.length_data, h.size]
      exact Nat.lt_of_lt_of_le hplace
        (hcodes (Nat.zero_lt_of_lt hr) (Nat.zero_lt_of_lt hc))
    refine ⟨hbo, hbi, ((s.data t).map (decode A t.dtype)).get ⟨_, hcode⟩, v, ?_, hv, ?_⟩
    · rw [h.floats_eq, List.getElem?_map, List.getElem?_eq_getElem hcode]
      rfl
    · rw [hget r hr c hc, getElem?_filled hplace hcode, List.getElem?_eq_getElem hcode,
        List.getD_eq_getElem?_getD, hv]
      rfl
  · obtain ⟨e, he⟩ := dequant_cut (A := A) h hall hreads
    rw [he]
    trivial

end

/-! ### A source for every declaration -/

section

variable (L : Layout) (sh : Shapes)

/-- The bytes of a scale of one, and of two. -/
def Layout.oneBytes : Layout → List UInt8
  | .f32 => [0, 0, 0x80, 0x3F]
  | .e8m0 .. => [127]

def Layout.twoBytes : Layout → List UInt8
  | .f32 => [0, 0, 0, 0x40]
  | .e8m0 .. => [128]

/-- A payload of ones, with a two at `k`; bytes that are no whole scale are left over. -/
def marked (k : Nat) : List UInt8 :=
  ((List.range (sh.gridBytes / L.width)).flatMap fun j => if j = k then L.twoBytes else L.oneBytes)
    ++ List.replicate (sh.gridBytes % L.width) 0

/-- What a file can hold. -/
def payload (l : List UInt8) : List UInt8 := if l.length < 2 ^ 63 then l else []

/-- A weight of ones, and its grid of scales. -/
def markedWeight (sh : Shapes) : StTensor :=
  ⟨['w'], 0, 0, sh.weightBytes, .f8e4m3, 0, [sh.weight.1, sh.weight.2], Nat.two_pow_pos 64,
    sh.bytes_lt.1⟩

def markedGrid (L : Layout) (sh : Shapes) : StTensor :=
  ⟨scaleInvName ['w'], 1, 0, sh.gridBytes, L.dtype, 0, [sh.grid.1, sh.grid.2], Nat.two_pow_pos 64,
    sh.bytes_lt.2⟩

theorem payload_lt (l : List UInt8) : (payload l).length < 2 ^ 63 := by
  unfold payload
  split
  · assumption
  · exact Nat.two_pow_pos 63

/-- They are in a file each. -/
def markedSource (L : Layout) (sh : Shapes) (k : Nat) : Shards where
  tensors := [markedWeight sh, markedGrid L sh]
  files := [payload (List.replicate sh.weightBytes 0x38), payload (marked L sh k)]
  fileIdx_lt := by simp [markedWeight, markedGrid]
  size_lt := by
    intro f hf
    rcases List.mem_pair.mp hf with rfl | rfl
    · exact payload_lt _
    · exact payload_lt _

variable {L sh}

/-- The scales of a marked grid: two at the mark, and one elsewhere. -/
theorem scales_flatMap (A : Arith) (k : Nat) (js : List Nat) {rest : List UInt8}
    (hrest : rest.length < L.width) :
    L.scales A ((js.flatMap fun j => if j = k then L.twoBytes else L.oneBytes) ++ rest)
      = js.map fun j => if j = k then two else one := by
  induction js with
  | nil =>
    cases L with
    | f32 =>
      refine List.eq_nil_of_length_eq_zero ?_
      show (floats4 rest).length = 0
      rw [floats4_length]
      exact Nat.div_eq_of_lt hrest
    | e8m0 =>
      rw [List.eq_nil_of_length_eq_zero (Nat.lt_one_iff.mp hrest)]
      rfl
  | cons j js ih =>
    rw [List.flatMap_cons, List.map_cons, ← ih, List.append_assoc]
    cases L with
    | f32 => split <;> rfl
    | e8m0 =>
      split
      · exact congrArg (· :: _) A.exp2_one
      · exact congrArg (· :: _) A.exp2_zero

theorem width_pos : 0 < L.width := by
  cases L with
  | f32 => exact Nat.succ_pos 3
  | e8m0 => exact Nat.one_pos

theorem length_marked {k : Nat} : (marked L sh k).length = sh.gridBytes := by
  have hone : L.oneBytes.length = L.width := by cases L <;> rfl
  have htwo : L.twoBytes.length = L.width := by cases L <;> rfl
  rw [marked, List.length_append, List.length_flatMap,
    List.map_congr_left fun j _ => (?_ : _ = L.width), List.map_const', List.sum_replicate_nat,
    List.length_range, List.length_replicate]
  · exact Nat.div_add_mod' _ _
  split
  · exact htwo
  · exact hone

theorem markedSource_scaled (k : Nat) : BlockScaled L sh (markedSource L sh k) ['w']
    (scaleInvName ['w']) (markedWeight sh) (markedGrid L sh) where
  found := rfl
  fp8 := .inl rfl
  shape := rfl
  size := rfl
  block := .inl rfl
  grid := rfl
  gridType := rfl
  gridShape := rfl
  gridSize := rfl

theorem markedWeight_reads {k : Nat} (hlt : sh.weightBytes < 2 ^ 63) :
    (markedSource L sh k).Reads ['w'] (markedWeight sh) := by
  refine ⟨rfl, hlt, .inr ?_⟩
  show 0 + sh.weightBytes ≤ (payload (List.replicate sh.weightBytes 0x38)).length
  rw [payload, if_pos (by rw [List.length_replicate]; exact hlt), List.length_replicate,
    Nat.zero_add]

theorem markedGrid_reads {k : Nat} (hlt : sh.gridBytes < 2 ^ 63) :
    (markedSource L sh k).Reads (scaleInvName ['w']) (markedGrid L sh) := by
  refine ⟨rfl, hlt, .inr ?_⟩
  show 0 + sh.gridBytes ≤ (payload (marked L sh k)).length
  rw [payload, if_pos (by rw [length_marked]; exact hlt), length_marked, Nat.zero_add]

theorem data_markedWeight {k : Nat} (hlt : sh.weightBytes < 2 ^ 63) :
    (markedSource L sh k).data (markedWeight sh) = List.replicate sh.weightBytes 0x38 := by
  show (List.drop 0 (payload (List.replicate sh.weightBytes 0x38))).take sh.weightBytes = _
  rw [payload, if_pos (by rw [List.length_replicate]; exact hlt), List.drop_zero,
    List.take_of_length_le (List.length_replicate ..).le]

theorem scales_markedGrid (A : Arith) {k : Nat} (hlt : sh.gridBytes < 2 ^ 63) :
    L.scales A ((markedSource L sh k).data (markedGrid L sh))
      = (List.range (sh.gridBytes / L.width)).map fun j => if j = k then two else one := by
  have hdata : (markedSource L sh k).data (markedGrid L sh) = marked L sh k := by
    show (List.drop 0 (payload (marked L sh k))).take sh.gridBytes = _
    rw [payload, if_pos (by rw [length_marked]; exact hlt), List.drop_zero,
      List.take_of_length_le length_marked.le]
  rw [hdata, marked, scales_flatMap A k _ (by
    rw [List.length_replicate]
    exact Nat.mod_lt _ width_pos)]

theorem allocates_of_blockwise (A : Arith) {k : Nat}
    (h : Blockwise A L sh (markedSource L sh k) (markedWeight sh) (markedGrid L sh)
      (dequant A (markedSource L sh k) ['w'])) : L.Allocates sh := by
  by_contra hall
  rw [dequant_huge (markedSource_scaled k) markedWeight_reads markedGrid_reads hall] at h
  exact h

/-- What `dequant` finds at a place of the marked grid: the mark, a one, or a zero that was
never written over. -/
theorem held_marked (A : Arith) {k j : Nat} (hlt : sh.gridBytes < 2 ^ 63) {v : F32}
    (h : (L.held A sh ((markedSource L sh k).data (markedGrid L sh)))[j]? = some v) :
    (j = k ∧ j < L.size sh) ∨ v = one ∨ v = 0 := by
  have hscales := scales_markedGrid (L := L) A (k := k) hlt
  have hmark : ∀ {n : Nat},
      ((List.range n).map fun j => if j = k then two else one)[j]? = some v →
        (j = k ∧ j < n) ∨ v = one := by
    intro n hj
    obtain ⟨hjn, -⟩ := List.getElem?_eq_some_iff.mp hj
    rw [List.length_map, List.length_range] at hjn
    rw [List.getElem?_map, List.getElem?_range hjn, Option.map_some, Option.some.injEq] at hj
    by_cases hjk : j = k
    · exact .inl ⟨hjk, hjn⟩
    · rw [if_neg hjk] at hj
      exact .inr hj.symm
  cases L with
  | f32 =>
    replace hscales : floats4 _ = _ := hscales
    rw [Layout.held, hscales] at h
    obtain ⟨hgrid, -⟩ := List.getElem?_eq_some_iff.mp h
    rw [length_filled] at hgrid
    rcases Nat.lt_or_ge j (sh.gridBytes / 4) with hj | hj
    · rw [getElem?_filled hgrid (by rw [List.length_map, List.length_range]; exact hj)] at h
      exact (hmark h).imp (fun hk => ⟨hk.1, Nat.lt_min.mpr ⟨hgrid, hj⟩⟩) .inl
    · rw [getElem?_filled_zero hgrid (by rw [List.length_map, List.length_range]; exact hj)] at h
      exact .inr (.inr (Option.some.inj h).symm)
  | e8m0 =>
    replace hscales : List.map _ _ = _ := hscales
    rw [Layout.held, hscales] at h
    rcases hmark h with ⟨hjk, hlt⟩ | hone
    · refine .inl ⟨hjk, ?_⟩
      show j < sh.gridBytes
      rw [← Nat.div_one sh.gridBytes]
      exact hlt
    · exact .inr (.inl hone)

/-- To be right at a place, `dequant` has to have a code for it. -/
theorem code_of_blockwise (A : Arith) {k r c : Nat} (hr : r < sh.o) (hc : c < sh.i)
    (h : Blockwise A L sh (markedSource L sh k) (markedWeight sh) (markedGrid L sh)
      (dequant A (markedSource L sh k) ['w'])) : r * sh.i + c < sh.weightBytes := by
  have hall := allocates_of_blockwise A h
  rw [dequant_reads (markedSource_scaled k) (markedWeight_reads hall.1)
    (markedGrid_reads hall.2.1) hall] at h
  generalize scaleRows A _ _ _ _ = rows at h
  cases rows with
  | none => exact h.elim
  | some out =>
    obtain ⟨-, -, code, -, hcode, -⟩ := h.2.2 r hr c hc
    obtain ⟨hlt, -⟩ := List.getElem?_eq_some_iff.mp hcode
    rw [(markedSource_scaled (L := L) k).floats_eq, data_markedWeight hall.1, List.length_map,
      List.length_map, List.length_replicate] at hlt
    exact hlt

/-- To be right for the grid with the mark at a place's block, it has to read there. -/
theorem index_of_blockwise (A : Arith) {r c : Nat} (hr : r < sh.o) (hc : c < sh.i)
    (h : Blockwise A L sh (markedSource L sh (L.block sh r c)) (markedWeight sh) (markedGrid L sh)
      (dequant A (markedSource L sh (L.block sh r c)) ['w'])) :
    r / L.rows < sh.nbo ∧ c / L.cols < sh.nbi ∧ L.index sh r c = L.block sh r c ∧
      L.block sh r c < L.size sh := by
  have hall := allocates_of_blockwise A h
  have hplaces := hall.2.2.1
  have hcovered := code_of_blockwise A hr hc h
  generalize hk : L.block sh r c = k at h ⊢
  have hone : decode A (markedWeight sh).dtype 0x38 = one := A.f8e4m3_one
  rw [dequant_reads (markedSource_scaled k) (markedWeight_reads hall.1)
    (markedGrid_reads hall.2.1) hall, data_markedWeight hall.1, List.map_replicate, hone] at h
  have hscales := scales_markedGrid (L := L) A (k := k) hall.2.1
  have hmark := @held_marked L sh A k (L.index sh r c) hall.2.1
  generalize hraw : (markedSource L sh k).data (markedGrid L sh) = raw at h hscales hmark
  have hlen := length_filled (List.replicate sh.weightBytes one) (sh.o * sh.i)
  by_cases hsome : ∀ r < sh.o, ∀ c < sh.i, (L.held A sh raw)[L.index sh r c]? ≠ none
  · have hscale : ∀ r < sh.o, ∀ c < sh.i, (L.held A sh raw)[L.index sh r c]?
        = some ((L.held A sh raw).getD (L.index sh r c) 0) := by
      intro r hr c hc
      obtain ⟨v, hv⟩ := Option.ne_none_iff_exists'.mp (hsome r hr c hc)
      rw [List.getD_eq_getElem?_getD, hv]
      rfl
    obtain ⟨out, hout, -, hget⟩ := scaleRows_eq hlen (by omega) hscale
    rw [hout] at h
    obtain ⟨hbo, hbi, code, scale, hcode, hblock, hvalue⟩ := h.2.2 r hr c hc
    refine ⟨hbo, hbi, ?_⟩
    have hplace : r * sh.i + c < sh.o * sh.i := place_lt hr hc
    -- the code is one and the block's scale two
    rw [(markedSource_scaled (L := L) k).floats_eq, data_markedWeight hall.1,
      List.map_replicate, hone, List.map_replicate, List.getElem?_replicate, if_pos hcovered] at hcode
    cases hcode
    rw [hk, hraw, hscales, List.getElem?_map] at hblock
    obtain ⟨j, hj, hscaled⟩ := Option.map_eq_some_iff.mp hblock
    obtain ⟨_, rfl⟩ := List.getElem?_eq_some_iff.mp hj
    rw [List.getElem_range, if_pos rfl] at hscaled
    rw [hget r hr c hc, getElem?_filled hplace (by rw [List.length_replicate]; exact hcovered),
      List.getElem?_replicate, if_pos hcovered, Option.map_some, Option.some.injEq, ← hscaled,
      A.one_mul_two] at hvalue
    rcases hmark (hscale r hr c hc) with ⟨heq, hsize⟩ | hother | hother
    · exact ⟨heq, heq ▸ hsize⟩
    · rw [hother, A.one_mul_one] at hvalue
      exact absurd hvalue (by decide)
    · rw [hother, A.one_mul_zero] at hvalue
      exact absurd hvalue (by decide)
  · -- a place has no scale
    push Not at hsome
    obtain ⟨r', hr', c', hc', hnone⟩ := hsome
    rw [scaleRows_none hlen (by omega) hr' hc' hnone] at h
    exact h.elim

/-! ### A partial block -/

/-- Arithmetic on positive normal floats whose products are not rounded: that of powers of
two is on their exponents. -/
def powers : Arith where
  f16 _ _ := 0
  u8 _ := 0
  f8e4m3 b := ((b.toUInt32 >>> 3) + 120) <<< 23 ||| (b.toUInt32 &&& 7) <<< 20
  f8e5m2 b := ((b.toUInt32 >>> 2) + 112) <<< 23 ||| (b.toUInt32 &&& 3) <<< 21
  index _ := 0
  mul a b := a + b - one
  exp2 n := UInt32.ofNat ((n + 127).toNat * 2 ^ 23)
  f8e4m3_one := rfl
  exp2_zero := rfl
  exp2_one := rfl
  one_mul_zero := rfl
  one_mul_one := rfl
  one_mul_two := rfl

/-! ### When it is right -/

theorem block_le {r c : Nat} (hr : r < sh.o) (hc : c < sh.i) :
    L.block sh r c ≤ L.block sh (sh.o - 1) (sh.i - 1) :=
  Nat.add_le_add
    (Nat.mul_le_mul_right _ (Nat.div_le_div_right (Nat.le_sub_one_of_lt hr)))
    (Nat.div_le_div_right (Nat.le_sub_one_of_lt hc))

theorem index_eq {r c : Nat} (hr : r / (L.extent sh).1 = r / L.rows)
    (hc : c / (L.extent sh).2 = c / L.cols) (hlt : L.block sh r c < 2 ^ 64) :
    L.index sh r c = L.block sh r c := by
  unfold Layout.block at hlt ⊢
  rw [Layout.index, hr, hc, umul_of_lt (Nat.lt_of_le_of_lt (Nat.le_add_right _ _) hlt), wadd_eq hlt]

/-- The columns of the first row show how the columns are found, and the first column how
the rows are. -/
theorem extent_of_index (ho : 0 < sh.o) (hi : 0 < sh.i) (hnbi : 0 < sh.nbi)
    (h : ∀ r < sh.o, ∀ c < sh.i, L.index sh r c = L.block sh r c) :
    (∀ r < sh.o, r / (L.extent sh).1 = r / L.rows) ∧
      ∀ c < sh.i, c / (L.extent sh).2 = c / L.cols := by
  have hnbi_lt : sh.nbi < 2 ^ 64 := asUsize_lt_word _
  have hi_lt : sh.i < 2 ^ 64 := asUsize_lt_word _
  refine ⟨fun r hr => ?_, fun c hc => ?_⟩
  · refine div_eq_of_mod hnbi hnbi_lt fun y hy => ?_
    have hrow := h y (Nat.lt_of_le_of_lt hy hr) 0 hi
    rw [Layout.index, Layout.block, Nat.zero_div, Nat.zero_div, wadd, Nat.add_zero,
      Nat.add_zero, umul, Nat.mod_mod] at hrow
    exact hrow
  · have hcol := h 0 ho c hc
    have hle : c / (L.extent sh).2 ≤ c := Nat.div_le_self _ _
    rw [Layout.index, Layout.block, Nat.zero_div, Nat.zero_div, Nat.zero_mul, Nat.zero_add,
      umul, Nat.zero_mul, Nat.zero_mod, wadd_eq (by omega), Nat.zero_add] at hcol
    exact hcol

theorem fits_iff (ho : 0 < sh.o) (hi : 0 < sh.i) : L.Fits sh ↔
    (∀ r < sh.o, r / (L.extent sh).1 = r / L.rows ∧ r / L.rows < sh.nbo) ∧
      ∀ c < sh.i, c / (L.extent sh).2 = c / L.cols ∧ c / L.cols < sh.nbi := by
  cases L with
  | f32 =>
    have hpos : 0 < blockSize := Nat.succ_pos 127
    have hfits : Layout.f32.Fits sh ↔
        (∀ r < sh.o, r / blockSize < sh.nbo) ∧ ∀ c < sh.i, c / blockSize < sh.nbi := by
      rw [in_grid_iff hpos, in_grid_iff hpos]
      rfl
    rw [hfits]
    exact ⟨fun h => ⟨fun r hr => ⟨rfl, h.1 r hr⟩, fun c hc => ⟨rfl, h.2 c hc⟩⟩,
      fun h => ⟨fun r hr => (h.1 r hr).2, fun c hc => (h.2 c hc).2⟩⟩
  | e8m0 rows cols hrows hcols =>
    have hfits : (Layout.e8m0 rows cols hrows hcols).Fits sh ↔
        (∀ r < sh.o, r / inferred sh.o sh.nbo = r / rows ∧ r / rows < sh.nbo) ∧
          ∀ c < sh.i, c / inferred sh.i sh.nbi = c / cols ∧ c / cols < sh.nbi := by
      rw [inferred_iff hrows ho, inferred_iff hcols hi]
      rfl
    exact hfits

theorem places_iff (ho : 0 < sh.o) (hi : 0 < sh.i) :
    (∀ r < sh.o, ∀ c < sh.i, r / L.rows < sh.nbo ∧ c / L.cols < sh.nbi ∧
        L.index sh r c = L.block sh r c ∧ L.block sh r c < L.size sh) ↔
      L.block sh (sh.o - 1) (sh.i - 1) < L.size sh ∧ L.Fits sh := by
  rw [fits_iff ho hi]
  constructor
  · intro h
    have hnbi : 0 < sh.nbi := Nat.zero_lt_of_lt (h 0 ho 0 hi).2.1
    obtain ⟨hrows, hcols⟩ := extent_of_index ho hi hnbi fun r hr c hc => (h r hr c hc).2.2.1
    refine ⟨(h _ (Nat.sub_one_lt_of_lt ho) _ (Nat.sub_one_lt_of_lt hi)).2.2.2, ?_, ?_⟩
    · exact fun r hr => ⟨hrows r hr, (h r hr 0 hi).1⟩
    · exact fun c hc => ⟨hcols c hc, (h 0 ho c hc).2.1⟩
  · rintro ⟨hlast, hrows, hcols⟩ r hr c hc
    obtain ⟨hr', hbo⟩ := hrows r hr
    obtain ⟨hc', hbi⟩ := hcols c hc
    have hlt : L.block sh r c < L.size sh := Nat.lt_of_le_of_lt (block_le hr hc) hlast
    exact ⟨hbo, hbi, index_eq hr' hc' (Nat.lt_trans hlt Layout.size_lt), hlt⟩

end

/-- **When `dequant` scales every place by its block.** Whatever the headers declare: its
buffers can be allocated, and there are no places, or the payloads cover them and the grid
fits. A grid of floats fits if it is large enough for blocks of 128 by 128; a grid of
exponents if in each dimension the blocks fill it, or there is one of them, or they are
single places. -/
theorem dequant_blocks_iff (A : Arith) (L : Layout) (sh : Shapes) :
    (∀ s name sname t st, BlockScaled L sh s name sname t st →
      Blockwise A L sh s t st (dequant A s name)) ↔
    L.Allocates sh ∧ (sh.o = 0 ∨ sh.i = 0 ∨ (L.Covers sh ∧ L.Fits sh)) := by
  constructor
  · intro h
    have hmarked := fun k => h _ _ _ _ _ (markedSource_scaled k)
    refine ⟨allocates_of_blockwise A (hmarked 0), ?_⟩
    rcases Nat.eq_zero_or_pos sh.o with ho | ho
    · exact .inl ho
    rcases Nat.eq_zero_or_pos sh.i with hi | hi
    · exact .inr (.inl hi)
    have hcode := code_of_blockwise A (Nat.sub_one_lt_of_lt ho) (Nat.sub_one_lt_of_lt hi)
      (hmarked 0)
    have hlast : (sh.o - 1) * sh.i + (sh.i - 1) + 1 = sh.o * sh.i := by
      obtain ⟨o, ho⟩ := Nat.exists_eq_succ_of_ne_zero (Nat.ne_of_gt ho)
      rw [ho, Nat.succ_sub_one, Nat.succ_mul]
      omega
    obtain ⟨hsize, hfits⟩ := (places_iff ho hi).mp fun r hr c hc =>
      index_of_blockwise A hr hc (hmarked _)
    exact .inr (.inr ⟨⟨hlast ▸ hcode, hsize⟩, hfits⟩)
  · rintro ⟨hall, hplaces⟩ s name sname t st hscaled
    have hcovered : 0 < sh.o → 0 < sh.i → L.Covers sh ∧ L.Fits sh := by
      intro ho hi
      rcases hplaces with h | h | h
      · omega
      · omega
      · exact h
    refine blockwise_of_index hall (fun ho hi => (hcovered ho hi).1.1) (fun r hr c hc => ?_) hscaled
    have ho := Nat.zero_lt_of_lt hr
    have hi := Nat.zero_lt_of_lt hc
    exact (places_iff ho hi).mpr ⟨(hcovered ho hi).1.2, (hcovered ho hi).2⟩ r hr c hc

theorem fortyColumns_bytes : 40 < 2 ^ 64 ∧ 2 < 2 ^ 64 := by decide

/-- A row of forty columns with two exponents, two and one. -/
def fortyColumns : Shapes := ⟨(1, 40), (1, 2), 40, 2, fortyColumns_bytes⟩

/-- Blocks of a row and 32 columns. -/
def mxBlocks : Layout := .e8m0 1 32 Nat.one_pos (Nat.succ_pos 31)

/-- Column 20 is in the first block, and is scaled by the second: forty columns in two
blocks are taken for blocks of twenty. -/
theorem partial_block_misread :
    BlockScaled mxBlocks fortyColumns (markedSource mxBlocks fortyColumns 0) ['w']
        (scaleInvName ['w']) (markedWeight fortyColumns) (markedGrid mxBlocks fortyColumns) ∧
      ¬ Blockwise powers mxBlocks fortyColumns (markedSource mxBlocks fortyColumns 0)
        (markedWeight fortyColumns) (markedGrid mxBlocks fortyColumns)
        (dequant powers (markedSource mxBlocks fortyColumns 0) ['w']) := by
  refine ⟨markedSource_scaled 0, fun h => ?_⟩
  have hrow : 0 < fortyColumns.o := by decide
  have hcol : 20 < fortyColumns.i := by decide
  obtain ⟨-, -, hindex, -⟩ := index_of_blockwise powers hrow hcol h
  exact absurd hindex (by decide)

end Colibri.Convert
