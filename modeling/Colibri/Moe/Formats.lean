import Colibri.Lib.Tiles
import Colibri.Lib.Vectors
import Mathlib.Tactic.Linarith
import Mathlib.Tactic.Ring

/-!
# The formats of a routed expert

The converter writes an expert's matrix as a blob and one sidecar, in one of four
formats; nothing in the container names the format. The loader takes it from which
sidecar is there, from the length of the blob and from a switch.

The two block-scaled formats have sidecars of their own. e4m3 and int2 share theirs and
are told apart by length alone: one byte a weight, or one for four. So a matrix of one
column, where these are the same, is taken for e4m3 or int8 whatever it is; and e4m3 is
taken for int8 unless the switch is on (`read_as_written`).

A scale is a rational number, a decoded value one or none (`NaN`): what codes and scales
denote, before a kernel rounds it. The codes of e4m3 and NVFP4 are any that the encoder
can give, those of MXFP4 any bytes: they come as they are from the source. The NVFP4
simulation is off.
-/

namespace Colibri.Moe.Formats

open Tiles
open Vectors (mapM_get)

/-- A value, or `NaN`. -/
abbrev Value : Type := Option ℚ

/-! ## Codes -/

/-- `b as i8` -/
def asI8 (b : UInt8) : Int := if b.toNat < 128 then b.toNat else (b.toNat : Int) - 256

/-- `linear::e4m3_to_f32` -/
def e4m3ToF32 (b : UInt8) : ℚ :=
  let sign : ℚ := if b.toNat / 128 = 1 then -1 else 1
  let e := b.toNat / 8 % 16
  let m : ℚ := ((b.toNat % 8 : Nat) : ℚ)
  if e = 0 then sign * (m / 8) / 2 ^ 6 else sign * (1 + m / 8) * 2 ^ e / 2 ^ 7

/-- `dtype::f8e4m3_to_f32`: what the format denotes. -/
def f8e4m3ToF32 (b : UInt8) : Value := if b.toNat % 128 = 127 then none else some (e4m3ToF32 b)

def f8e8m0ToF32 (b : UInt8) : Value :=
  if b.toNat = 255 then none else some (2 ^ b.toNat / 2 ^ 127)

def e2m1 : List ℚ := [0, 1/2, 1, 3/2, 2, 3, 4, 6, 0, -1/2, -1, -3/2, -2, -3, -4, -6]

/-- The level of the nibble of column `c`. -/
def level (q4 : List UInt8) (k c : Nat) : ℚ :=
  let byte := (q4.getD k 0).toNat
  e2m1.getD (if c % 2 = 1 then byte / 16 else byte % 16) 0

/-- The two bits of column `c` in its byte. -/
def field (byte : UInt8) (c : Nat) : ℚ := ((byte.toNat / 4 ^ (c % 4) % 4 : Nat) : ℚ) - 2

/-! ## Tensors -/

/-- `QTensor`, as a loaded expert fills it. -/
structure QTensor where
  fmtCode : Nat
  o : Nat
  i : Nat
  q8 : List Int
  q4 : List UInt8
  s : List ℚ
  bs : List UInt8
  g : ℚ

/-- The weight of row `r` and column `c`, as `matmul_qt` decodes it. -/
def QTensor.value (t : QTensor) (r c : Nat) : Value :=
  match t.fmtCode with
  | 1 => some (((t.q8.getD (r * t.i + c) 0 : Int) : ℚ) * t.s.getD r 0)
  | 3 => some (field (t.q4.getD (r * ((t.i + 3) / 4) + c / 4) 0) c * t.s.getD r 0)
  | 4 => some (e4m3ToF32 (t.q4.getD (r * t.i + c) 0) * t.s.getD r 0)
  | 5 => some (level t.q4 (r * ((t.i + 1) / 2) + c / 2) c *
      e4m3ToF32 (t.bs.getD (r * ((t.i + 15) / 16) + c / 16) 0) * t.g)
  | 6 => (f8e8m0ToF32 (t.bs.getD (r * ((t.i + 31) / 32) + c / 32) 0)).map fun sc =>
      level t.q4 (r * ((t.i + 1) / 2) + c / 2) c * sc * t.g
  | _ => none

/-- What a tensor of the container holds. -/
inductive Data where
  | bytes (b : List UInt8)
  | floats (v : List ℚ)

structure OutTensor where
  name : String
  dtype : String
  data : Data

/-- `Shards`, of one expert matrix. -/
abbrev Shards : Type := List OutTensor

/-! ## Ternary weights -/

/-- A row of `ternary_row_scales`: the one magnitude in it, from `s` on. `none` is a
weight that is not finite. -/
def rowScale (s : ℚ) : List Value → Option ℚ
  | [] => some s
  | v :: rest =>
    if v = some 0 then rowScale s rest
    else
      match v with
      | none => none
      | some v => if s = 0 then rowScale |v| rest else if |v| ≠ s then none else rowScale s rest

def ternaryRowScales (w : List (List Value)) : Option (List ℚ) := w.mapM (rowScale 0)

/-- `t + 2` of a weight, with `t` its sign. -/
def ternaryCode (v : Value) : Nat :=
  match v with
  | some v => if v = 0 then 2 else if 0 < v then 3 else 1
  | none => 2

/-- Byte `k` of a packed row: the codes of its four columns, as far as the row goes. -/
def packByte (row : List Value) (k : Nat) : UInt8 :=
  UInt8.ofNat <| (List.range 4).foldl
    (fun acc j => match row[4 * k + j]? with
      | some v => acc + ternaryCode v * 4 ^ j
      | none => acc) 0

def packRow (row : List Value) : List UInt8 :=
  (List.range ((row.length + 3) / 4)).map (packByte row)

/-- `pack_ternary_int2`: codes and scales, once every weight has been read back. -/
def packTernaryInt2 (w : List (List Value)) (o i : Nat) : Option (List UInt8 × List ℚ) :=
  match ternaryRowScales w with
  | none => none
  | some scales =>
    let codes := w.flatMap packRow
    let rb := (i + 3) / 4
    if ∀ r < o, ∀ c < i, some (field (codes.getD (r * rb + c / 4) 0) c * scales.getD r 0)
        = (w.getD r []).getD c none then some (codes, scales)
    else none

/-! ## What the converter writes -/

/-- No code of the encoder is a `NaN`: `float_to_e4m3` saturates. -/
def Finite (codes : List UInt8) : Prop := ∀ b ∈ codes, b.toNat % 128 ≠ 127

instance (codes : List UInt8) : Decidable (Finite codes) :=
  inferInstanceAs (Decidable (∀ b ∈ codes, b.toNat % 128 ≠ 127))

/-- A matrix of `o` rows and `i` columns as one of the formats holds it. -/
inductive Stored (o i : Nat) where
  /-- `quantize_nvfp4_out`: nibbles and block scales, and the global -/
  | nvfp4 (nib bs : List UInt8) (g : ℚ) (hnib : nib.length = o * ((i + 1) / 2))
    (hbs : bs.length = o * ((i + 15) / 16)) (hfin : Finite bs)
  /-- `quantize_e4m3`, under `xfp8`: codes, and a scale a row -/
  | e4m3 (codes : List UInt8) (scale : List ℚ) (hcodes : codes.length = o * i)
    (hscale : scale.length = o) (hfin : Finite codes)
  /-- `mxfp4_passthrough_out`: nibbles and block scales of the source -/
  | mxfp4 (nib bs : List UInt8) (hnib : nib.length = o * ((i + 1) / 2))
    (hbs : bs.length = o * ((i + 31) / 32))
  /-- `pack_ternary_int2`, for weights it takes -/
  | int2 (w : List (List Value)) (codes : List UInt8) (scales : List ℚ) (hrows : w.length = o)
    (hcols : ∀ row ∈ w, row.length = i) (hpack : packTernaryInt2 w o i = some (codes, scales))

section

variable {o i : Nat}

def Stored.blob : Stored o i → List UInt8
  | .nvfp4 nib bs .. => nib ++ bs
  | .e4m3 codes .. => codes
  | .mxfp4 nib bs .. => nib ++ bs
  | .int2 _ codes .. => codes

/-- The sidecar: its suffix and its floats. -/
def Stored.sidecar : Stored o i → String × List ℚ
  | .nvfp4 _ _ g .. => (".g", [g])
  | .e4m3 _ scale .. => (".qs", scale)
  | .mxfp4 .. => (".mx", [1])
  | .int2 _ _ scales .. => (".qs", scales)

/-- The two tensors of the container. -/
def Stored.out (x : Stored o i) (name : String) : Shards :=
  [⟨name, "U8", .bytes x.blob⟩, ⟨name ++ x.sidecar.1, "F32", .floats x.sidecar.2⟩]

/-- The weight that the format denotes: the code's value times its scales; of ternary
weights, the weight itself. -/
def Stored.value (x : Stored o i) (r c : Nat) : Value :=
  match x with
  | .nvfp4 nib bs g .. => (f8e4m3ToF32 (bs.getD (r * ((i + 15) / 16) + c / 16) 0)).map fun sc =>
      level nib (r * ((i + 1) / 2) + c / 2) c * sc * g
  | .e4m3 codes scale .. => (f8e4m3ToF32 (codes.getD (r * i + c) 0)).map (· * scale.getD r 0)
  | .mxfp4 nib bs .. => (f8e8m0ToF32 (bs.getD (r * ((i + 31) / 32) + c / 32) 0)).map fun sc =>
      level nib (r * ((i + 1) / 2) + c / 2) c * sc
  | .int2 w .. => (w.getD r []).getD c none

/-! ## The loader -/

def Shards.find (shards : Shards) (name : String) : Option OutTensor :=
  List.find? (fun t => t.name == name) shards

def Shards.has (shards : Shards) (name : String) : Bool := (shards.find name).isSome

/-- `read_f32` into `n` zeros: what there is of the tensor, up to `n`. -/
def Shards.readF32 (shards : Shards) (name : String) (n : Nat) : Except String (List ℚ) :=
  match shards.find name with
  | some ⟨_, _, .floats v⟩ => .ok ((v ++ List.replicate n 0).take n)
  | _ => .error s!"missing tensor: {name}"

def fp4Sidecar (shards : Shards) (base : String) : Option (String × Nat × Nat) :=
  if shards.has (base ++ ".g") then some (base ++ ".g", 5, 16)
  else if shards.has (base ++ ".mx") then some (base ++ ".mx", 6, 32)
  else none

/-- A view of a blob in the buffer it was read into. -/
structure View where
  buf : List UInt8
  off : Nat
  len : Nat

def View.slice (v : View) (off len : Nat) : List UInt8 := (v.buf.drop off).take len

/-- `mk` of `expert_from_views`, on the matrix called `base`. -/
def mk (shards : Shards) (fp8 : Bool) (o i : Nat) (w : View) (base : String) :
    Except String QTensor :=
  match fp4Sidecar shards base with
  | some (sidecar, fmt, blk) =>
    let nibBytes := o * ((i + 1) / 2)
    let bsBytes := o * ((i + (blk - 1)) / blk)
    match shards.readF32 sidecar 1 with
    | .error e => .error e
    | .ok g =>
      .ok { fmtCode := fmt, o, i, q8 := [], q4 := w.slice w.off nibBytes, s := []
            bs := w.slice (w.off + nibBytes) bsBytes, g := g.getD 0 0 }
  | none =>
    let fmt := if w.len = o * i then 1 else 3
    match shards.readF32 (base ++ ".qs") o with
    | .error e => .error e
    | .ok s =>
      if fmt = 1 then
        -- under the switch one byte a weight means e4m3, without it int8
        if fp8 then
          .ok { fmtCode := 4, o, i, q8 := [], q4 := w.slice w.off w.len, s, bs := [], g := 0 }
        else
          .ok { fmtCode := 1, o, i, q8 := (w.slice w.off w.len).map asI8, q4 := [], s, bs := []
                g := 0 }
      else .ok { fmtCode := 3, o, i, q8 := [], q4 := w.slice w.off w.len, s, bs := [], g := 0 }

/-- The view is of the blob. -/
def View.Of (v : View) (blob : List UInt8) : Prop :=
  v.len = blob.length ∧ v.slice v.off v.len = blob

/-- **A matrix is read as it was written**: loaded from what the converter wrote, it is an
error or has the value the format denotes at every place. -/
def ReadsAsWritten (x : Stored o i) (fp8 : Bool) (name : String) (v : View) : Prop :=
  ∀ t, mk (x.out name) fp8 o i v name = .ok t → ∀ r < o, ∀ c < i, t.value r c = x.value r c

/-- What there is for the loader to go by. -/
structure Evidence where
  sidecars : List String
  length : Nat
  dtypes : List String
  deriving DecidableEq

def Stored.evidence (x : Stored o i) : Evidence := ⟨[x.sidecar.1], x.blob.length, ["U8", "F32"]⟩

inductive Format where
  | nvfp4
  | e4m3
  | mxfp4
  | int2
  deriving DecidableEq

def Stored.format : Stored o i → Format
  | .nvfp4 .. => .nvfp4
  | .e4m3 .. => .e4m3
  | .mxfp4 .. => .mxfp4
  | .int2 .. => .int2

/-! ## Looking the sidecar up -/

theorem sidecar_ne (x : Stored o i) : x.sidecar.1 ≠ "" := by
  cases x with
  | nvfp4 => exact (by decide : ".g" ≠ "")
  | mxfp4 => exact (by decide : ".mx" ≠ "")
  | e4m3 | int2 => exact (by decide : ".qs" ≠ "")

/-- Of the two tensors, a name with a suffix is the sidecar's or nobody's. -/
theorem find_out (x : Stored o i) (name suf : String) (hsuf : suf ≠ "") :
    (x.out name).find (name ++ suf) =
      if x.sidecar.1 = suf then some ⟨name ++ x.sidecar.1, "F32", .floats x.sidecar.2⟩
      else none := by
  have hname : (name == name ++ suf) = false := by
    rw [beq_eq_false_iff_ne]
    exact fun h => hsuf (String.append_eq_left_iff.1 h.symm)
  unfold Shards.find Stored.out
  rw [List.find?_cons_of_neg (by simp [hname])]
  by_cases h : x.sidecar.1 = suf
  · rw [if_pos h, List.find?_cons_of_pos (by simp [h])]
  · rw [if_neg h, List.find?_cons_of_neg, List.find?_nil]
    simpa [String.append_right_inj] using h

theorem has_out (x : Stored o i) (name suf : String) (hsuf : suf ≠ "") :
    (x.out name).has (name ++ suf) = decide (x.sidecar.1 = suf) := by
  unfold Shards.has
  rw [find_out x name suf hsuf]
  by_cases h : x.sidecar.1 = suf
  · simp [h]
  · simp [h]

theorem readF32_out (x : Stored o i) (name suf : String) (h : x.sidecar.1 = suf) (n : Nat)
    (hn : x.sidecar.2.length = n) :
    (x.out name).readF32 (name ++ suf) n = .ok x.sidecar.2 := by
  unfold Shards.readF32
  rw [find_out x name suf (h ▸ sidecar_ne x), if_pos h]
  show Except.ok _ = _
  rw [List.take_left' hn]

theorem fp4Sidecar_out (x : Stored o i) (name : String) :
    fp4Sidecar (x.out name) name =
      if x.sidecar.1 = ".g" then some (name ++ ".g", 5, 16)
      else if x.sidecar.1 = ".mx" then some (name ++ ".mx", 6, 32)
      else none := by
  unfold fp4Sidecar
  rw [has_out x name ".g" (by decide), has_out x name ".mx" (by decide)]
  simp only [decide_eq_true_eq]

/-! ## The view of a blob of two halves -/

variable {v : View} {nib bs codes : List UInt8} {w : List (List Value)} {scales : List ℚ}

theorem View.Of.left {a b : List UInt8} (h : v.Of (a ++ b)) :
    v.slice v.off a.length = a := by
  obtain ⟨hlen, hs⟩ := h
  unfold View.slice at hs ⊢
  have hle : a.length ≤ v.len := by rw [hlen, List.length_append]; omega
  calc (v.buf.drop v.off).take a.length
      = ((v.buf.drop v.off).take v.len).take a.length := by
        rw [List.take_take, Nat.min_eq_left hle]
    _ = a := by rw [hs, List.take_left]

theorem View.Of.right {a b : List UInt8} (h : v.Of (a ++ b)) :
    v.slice (v.off + a.length) b.length = b := by
  obtain ⟨hlen, hs⟩ := h
  unfold View.slice at hs ⊢
  have hb : v.len - a.length = b.length := by rw [hlen, List.length_append]; omega
  calc (v.buf.drop (v.off + a.length)).take b.length
      = ((v.buf.drop v.off).take v.len).drop a.length := by
        rw [List.drop_take, List.drop_drop, hb]
    _ = b := by rw [hs, List.drop_left]

/-! ## What `mk` builds -/

theorem mk_nvfp4 {g : ℚ} (hnib : nib.length = o * ((i + 1) / 2))
    (hbs : bs.length = o * ((i + 15) / 16)) (hfin : Finite bs) (fp8 : Bool) (name : String)
    (hv : v.Of (nib ++ bs)) :
    mk ((Stored.nvfp4 nib bs g hnib hbs hfin).out name) fp8 o i v name =
      .ok ⟨5, o, i, [], nib, [], bs, g⟩ := by
  unfold mk
  rw [fp4Sidecar_out]
  have hg := readF32_out (Stored.nvfp4 nib bs g hnib hbs hfin) name ".g" rfl 1 rfl
  show (match Shards.readF32 _ (name ++ ".g") 1 with
    | .error e => _
    | .ok g => _) = _
  rw [hg]
  show Except.ok (QTensor.mk 5 o i [] _ [] _ g) = _
  rw [show (i + (16 - 1)) / 16 = (i + 15) / 16 from rfl, ← hnib, ← hbs, hv.left, hv.right]

theorem mk_mxfp4 (hnib : nib.length = o * ((i + 1) / 2))
    (hbs : bs.length = o * ((i + 31) / 32)) (fp8 : Bool) (name : String)
    (hv : v.Of (nib ++ bs)) :
    mk ((Stored.mxfp4 nib bs hnib hbs).out name) fp8 o i v name =
      .ok ⟨6, o, i, [], nib, [], bs, 1⟩ := by
  unfold mk
  rw [fp4Sidecar_out]
  have hg := readF32_out (Stored.mxfp4 nib bs hnib hbs) name ".mx" rfl 1 rfl
  show (match Shards.readF32 _ (name ++ ".mx") 1 with
    | .error e => _
    | .ok g => _) = _
  rw [hg]
  show Except.ok (QTensor.mk 6 o i [] _ [] _ 1) = _
  rw [show (i + (32 - 1)) / 32 = (i + 31) / 32 from rfl, ← hnib, ← hbs, hv.left, hv.right]

/-- With the `.qs` sidecar only the length of the blob and the switch decide. -/
theorem mk_qs (x : Stored o i) (hqs : x.sidecar.1 = ".qs") (hs : x.sidecar.2.length = o)
    (fp8 : Bool) (name : String) (hv : v.Of x.blob) :
    mk (x.out name) fp8 o i v name = .ok
      (if x.blob.length = o * i then
        if fp8 then ⟨4, o, i, [], x.blob, x.sidecar.2, [], 0⟩
        else ⟨1, o, i, x.blob.map asI8, [], x.sidecar.2, [], 0⟩
      else ⟨3, o, i, [], x.blob, x.sidecar.2, [], 0⟩) := by
  unfold mk
  rw [fp4Sidecar_out, hqs, if_neg (by decide), if_neg (by decide)]
  have hslice : v.slice v.off x.blob.length = x.blob := hv.1 ▸ hv.2
  simp only [readF32_out x name ".qs" hqs o hs, hv.1, hslice]
  by_cases hlen : x.blob.length = o * i
  · cases fp8 with
    | true => simp only [if_pos hlen, if_true]
    | false => simp only [if_pos hlen, if_true, Bool.false_eq_true, if_false]
  · simp only [if_neg hlen, Nat.reduceEqDiff, if_false]

theorem mk_e4m3 {scale : List ℚ} (hcodes : codes.length = o * i)
    (hscale : scale.length = o) (hfin : Finite codes) (fp8 : Bool) (name : String)
    (hv : v.Of codes) :
    mk ((Stored.e4m3 codes scale hcodes hscale hfin).out name) fp8 o i v name =
      .ok (if fp8 then ⟨4, o, i, [], codes, scale, [], 0⟩
        else ⟨1, o, i, codes.map asI8, [], scale, [], 0⟩) := by
  let x : Stored o i := .e4m3 codes scale hcodes hscale hfin
  have hlen : x.blob.length = o * i := hcodes
  have h := mk_qs x rfl hscale fp8 name hv
  rw [if_pos hlen] at h
  exact h

/-! ## Codes that mean the same in two formats -/

/-- Of the codes that are numbers, two mean as e4m3 what they mean as int8: 0 and -32. -/
theorem asI8_eq_e4m3 (b : UInt8) (hb : b.toNat % 128 ≠ 127) :
    ((asI8 b : Int) : ℚ) = e4m3ToF32 b ↔ b = 0 ∨ b = 0xE0 := by
  have hall : ∀ n < 256, n % 128 ≠ 127 →
      (((asI8 (UInt8.ofNat n) : Int) : ℚ) = e4m3ToF32 (UInt8.ofNat n) ↔
        UInt8.ofNat n = 0 ∨ UInt8.ofNat n = 0xE0) := by
    decide +kernel
  have h := hall b.toNat b.toNat_lt
  rw [UInt8.ofNat_toNat] at h
  exact h hb

/-! ## Ternary rows -/

theorem packTernaryInt2_eq
    (h : packTernaryInt2 w o i = some (codes, scales)) :
    ternaryRowScales w = some scales ∧ codes = w.flatMap packRow ∧
      ∀ r < o, ∀ c < i,
        some (field (codes.getD (r * ((i + 3) / 4) + c / 4) 0) c * scales.getD r 0)
          = (w.getD r []).getD c none := by
  unfold packTernaryInt2 at h
  split at h
  next => cases h
  next s hs =>
    dsimp only at h
    split at h
    next hcheck =>
      cases h
      exact ⟨hs, rfl, hcheck⟩
    next => cases h

theorem packRow_length (row : List Value) : (packRow row).length = (row.length + 3) / 4 := by
  unfold packRow
  rw [List.length_map, List.length_range]

theorem flatMap_packRow_length (hcols : ∀ row ∈ w, row.length = i) :
    (w.flatMap packRow).length = w.length * ((i + 3) / 4) := by
  induction w with
  | nil => simp
  | cons row w ih =>
    rw [List.flatMap_cons, List.length_append, packRow_length, hcols row List.mem_cons_self,
      ih fun row h => hcols row (List.mem_cons_of_mem _ h), List.length_cons, Nat.succ_mul,
      Nat.add_comm]

/-- One byte for four columns is one byte a weight up to a single column. -/
theorem lengths_eq : o * ((i + 3) / 4) = o * i ↔ o = 0 ∨ i ≤ 1 := by
  constructor
  · intro h
    rcases Nat.eq_zero_or_pos o with ho | ho
    · exact Or.inl ho
    · have := Nat.eq_of_mul_eq_mul_left ho h
      omega
  · rintro (rfl | hi)
    · rw [Nat.zero_mul, Nat.zero_mul]
    · rw [show (i + 3) / 4 = i by omega]

/-- With one column a byte is the code of its weight alone. -/
theorem codes_column (hcols : ∀ row ∈ w, row.length = 1) {r : Nat}
    (hr : r < w.length) :
    (w.flatMap packRow).getD r 0 = UInt8.ofNat (ternaryCode ((w.getD r []).getD 0 none)) := by
  have hrow : ∀ row ∈ w, packRow row = [UInt8.ofNat (ternaryCode (row.getD 0 none))] := by
    intro row hmem
    obtain ⟨v, rfl⟩ := List.length_eq_one_iff.1 (hcols row hmem)
    simp [packRow, packByte, List.range_succ]
  have hmap : w.flatMap packRow = w.map fun row => UInt8.ofNat (ternaryCode (row.getD 0 none)) := by
    rw [List.map_eq_flatMap]
    exact List.flatMap_congr hrow
  rw [hmap]
  simp [hr]

theorem ternaryCode_range (v : Value) : 1 ≤ ternaryCode v ∧ ternaryCode v ≤ 3 := by
  unfold ternaryCode
  split
  next => split_ifs <;> omega
  next => omega

/-- No code of a ternary weight means as int8 or e4m3 what it means as two bits. -/
theorem code_apart {k : Nat} (h1 : 1 ≤ k) (h3 : k ≤ 3) :
    field (UInt8.ofNat k) 0 = (k : ℚ) - 2 ∧ ((asI8 (UInt8.ofNat k) : Int) : ℚ) = k ∧
      e4m3ToF32 (UInt8.ofNat k) = k / 512 := by
  obtain rfl | rfl | rfl : k = 1 ∨ k = 2 ∨ k = 3 := by omega
  · decide +kernel
  · decide +kernel
  · decide +kernel

/-! ## Reading back -/

/-- What it takes: the block-scaled formats are always read as written. e4m3 needs the
switch, or codes that mean the same as int8; ternary weights need more columns than
one, or to be zero. -/
def Legible (x : Stored o i) (fp8 : Bool) : Prop :=
  match x with
  | .nvfp4 .. | .mxfp4 .. => True
  | .e4m3 codes scale .. => fp8 = true ∨ ∀ r < o, ∀ c < i,
      scale.getD r 0 = 0 ∨ codes.getD (r * i + c) 0 = 0 ∨ codes.getD (r * i + c) 0 = 0xE0
  | .int2 w .. => i ≠ 1 ∨ ∀ r < o, (w.getD r []).getD 0 none = some 0

theorem finite_get (h : Finite codes) {n : Nat} (hn : n < codes.length) :
    (codes.getD n 0).toNat % 128 ≠ 127 := by
  rw [List.getD_eq_getElem _ _ hn]
  exact h _ (List.getElem_mem hn)

theorem f8e4m3ToF32_finite {b : UInt8} (h : b.toNat % 128 ≠ 127) :
    f8e4m3ToF32 b = some (e4m3ToF32 b) := if_neg h

/-- **NVFP4 is read as written.** -/
theorem nvfp4_reads {g : ℚ} (hnib : nib.length = o * ((i + 1) / 2))
    (hbs : bs.length = o * ((i + 15) / 16)) (hfin : Finite bs) (fp8 : Bool) (name : String)
    (hv : v.Of (nib ++ bs)) :
    ReadsAsWritten (.nvfp4 nib bs g hnib hbs hfin : Stored o i) fp8 name v := by
  intro t ht r hr c hc
  rw [mk_nvfp4 hnib hbs hfin fp8 name hv] at ht
  cases ht
  have hblock : c / 16 < (i + 15) / 16 := by omega
  show some _ = (f8e4m3ToF32 _).map _
  rw [f8e4m3ToF32_finite (finite_get hfin (hbs ▸ place_lt hr hblock))]
  rfl

/-- **MXFP4 is read as written.** -/
theorem mxfp4_reads (hnib : nib.length = o * ((i + 1) / 2))
    (hbs : bs.length = o * ((i + 31) / 32)) (fp8 : Bool) (name : String)
    (hv : v.Of (nib ++ bs)) :
    ReadsAsWritten (.mxfp4 nib bs hnib hbs : Stored o i) fp8 name v := by
  intro t ht r hr c hc
  rw [mk_mxfp4 hnib hbs fp8 name hv] at ht
  cases ht
  show (f8e8m0ToF32 _).map _ = (f8e8m0ToF32 _).map _
  simp only [mul_one]

/-- e4m3 codes are read as written with the switch on. -/
theorem e4m3_reads_on {scale : List ℚ} (hcodes : codes.length = o * i)
    (hscale : scale.length = o) (hfin : Finite codes) (name : String)
    (hv : v.Of codes) :
    ReadsAsWritten (.e4m3 codes scale hcodes hscale hfin : Stored o i) true name v := by
  intro t ht r hr c hc
  rw [mk_e4m3 hcodes hscale hfin true name hv, if_pos rfl] at ht
  cases ht
  show some _ = (f8e4m3ToF32 _).map _
  rw [f8e4m3ToF32_finite (finite_get hfin (hcodes ▸ place_lt hr hc))]
  rfl

/-- Without the switch a code is an int8. -/
theorem e4m3_reads_off {scale : List ℚ} (hcodes : codes.length = o * i)
    (hscale : scale.length = o) (hfin : Finite codes) (name : String)
    (hv : v.Of codes) :
    ReadsAsWritten (.e4m3 codes scale hcodes hscale hfin : Stored o i) false name v ↔
      ∀ r < o, ∀ c < i,
        scale.getD r 0 = 0 ∨ codes.getD (r * i + c) 0 = 0 ∨ codes.getD (r * i + c) 0 = 0xE0 := by
  have hmk := mk_e4m3 hcodes hscale hfin false name hv
  rw [if_neg Bool.false_ne_true] at hmk
  have hplace : ∀ r < o, ∀ c < i,
      (some (((codes.map asI8).getD (r * i + c) 0 : Int) * scale.getD r 0) =
          (f8e4m3ToF32 (codes.getD (r * i + c) 0)).map (· * scale.getD r 0) ↔
        scale.getD r 0 = 0 ∨ codes.getD (r * i + c) 0 = 0 ∨ codes.getD (r * i + c) 0 = 0xE0) := by
    intro r hr c hc
    have hlt : r * i + c < codes.length := hcodes ▸ place_lt hr hc
    have hnum := finite_get hfin hlt
    have hget : (codes.map asI8).getD (r * i + c) 0 = asI8 (codes.getD (r * i + c) 0) := by
      rw [List.getD_eq_getElem _ _ (by rwa [List.length_map]), List.getElem_map,
        List.getD_eq_getElem _ _ hlt]
    rw [f8e4m3ToF32_finite hnum, hget, Option.map_some, Option.some.injEq, mul_eq_mul_right_iff,
      asI8_eq_e4m3 _ hnum, or_comm]
  constructor
  · intro h r hr c hc
    exact (hplace r hr c hc).1 (h _ hmk r hr c hc)
  · intro h t ht r hr c hc
    rw [hmk] at ht
    cases ht
    exact (hplace r hr c hc).2 (h r hr c hc)

theorem int2_blob_length
    (hrows : w.length = o) (hcols : ∀ row ∈ w, row.length = i)
    (hpack : packTernaryInt2 w o i = some (codes, scales)) :
    codes.length = o * ((i + 3) / 4) := by
  obtain ⟨-, rfl, -⟩ := packTernaryInt2_eq hpack
  rw [flatMap_packRow_length hcols, hrows]

theorem mk_int2
    (hrows : w.length = o) (hcols : ∀ row ∈ w, row.length = i)
    (hpack : packTernaryInt2 w o i = some (codes, scales)) (fp8 : Bool) (name : String)
    (hv : v.Of codes) :
    mk ((Stored.int2 w codes scales hrows hcols hpack).out name) fp8 o i v name = .ok
      (if o = 0 ∨ i ≤ 1 then
        if fp8 then ⟨4, o, i, [], codes, scales, [], 0⟩
        else ⟨1, o, i, codes.map asI8, [], scales, [], 0⟩
      else ⟨3, o, i, [], codes, scales, [], 0⟩) := by
  let x : Stored o i := .int2 w codes scales hrows hcols hpack
  have hscales : x.sidecar.2.length = o :=
    (mapM_get (packTernaryInt2_eq hpack).1).1.trans hrows
  have hlen : x.blob.length = o * i ↔ o = 0 ∨ i ≤ 1 := by
    rw [← lengths_eq, ← int2_blob_length hrows hcols hpack]
    rfl
  have h := mk_qs x rfl hscales fp8 name hv
  simp only [hlen] at h
  exact h

/-- Of a matrix of one column, another reading of the code gives the weight only where
the weight is zero: its scale is then zero as well. -/
theorem column_misread
    (hrows : w.length = o) (hcols : ∀ row ∈ w, row.length = 1)
    (hpack : packTernaryInt2 w o 1 = some (codes, scales)) {r : Nat} (hr : r < o)
    (decode : UInt8 → ℚ)
    (hdecode : ∀ k, 1 ≤ k → k ≤ 3 → decode (UInt8.ofNat k) ≠ field (UInt8.ofNat k) 0) :
    some (decode (codes.getD r 0) * scales.getD r 0) = (w.getD r []).getD 0 none ↔
      (w.getD r []).getD 0 none = some 0 := by
  obtain ⟨hscales, rfl, hcheck⟩ := packTernaryInt2_eq hpack
  have hcode := codes_column hcols (hrows ▸ hr)
  have hback := hcheck r hr 0 Nat.one_pos
  rw [show (1 + 3) / 4 = 1 from rfl, Nat.mul_one, Nat.zero_div, Nat.add_zero] at hback
  have hscale := (mapM_get hscales).2 r (hrows ▸ hr) [] 0
  have hrow : w.getD r [] = [(w.getD r []).getD 0 none] := by
    have hmem : w.getD r [] ∈ w := by
      rw [List.getD_eq_getElem _ _ (hrows ▸ hr)]
      exact List.getElem_mem _
    obtain ⟨v, hv⟩ := List.length_eq_one_iff.1 (hcols _ hmem)
    rw [hv]
    rfl
  rw [hrow] at hscale
  generalize (w.getD r []).getD 0 none = weight at *
  generalize scales.getD r 0 = scale at *
  obtain ⟨h1, h3⟩ := ternaryCode_range weight
  rw [hcode] at hback ⊢
  constructor
  · intro h
    have h := Option.some.inj (h.trans hback.symm)
    have hzero : scale = 0 := by
      by_contra hne
      exact hdecode _ h1 h3 (mul_right_cancel₀ hne h)
    rw [← hback, hzero, mul_zero]
  · rintro rfl
    -- a row of zeros has the scale zero
    have hzero : scale = 0 := (Option.some.inj hscale).symm
    rw [hzero, mul_zero]

/-- Ternary weights are read back with more columns than one, or zeros. -/
theorem int2_reads
    (hrows : w.length = o) (hcols : ∀ row ∈ w, row.length = i)
    (hpack : packTernaryInt2 w o i = some (codes, scales)) (fp8 : Bool) (name : String)
    (hv : v.Of codes) :
    ReadsAsWritten (.int2 w codes scales hrows hcols hpack : Stored o i) fp8 name v ↔
      i ≠ 1 ∨ ∀ r < o, (w.getD r []).getD 0 none = some 0 := by
  have hmk := mk_int2 hrows hcols hpack fp8 name hv
  by_cases hi : i = 1
  · subst hi
    rw [if_pos (Or.inr (Nat.le_refl 1))] at hmk
    have hlen : codes.length = o * 1 := int2_blob_length hrows hcols hpack
    have hplace : ∀ t, mk ((Stored.int2 w codes scales hrows hcols hpack).out name) fp8 o 1 v name
        = .ok t → ∀ r < o,
          (t.value r 0 = (w.getD r []).getD 0 none ↔ (w.getD r []).getD 0 none = some 0) := by
      intro t ht r hr
      rw [hmk] at ht
      cases fp8 with
      | true =>
        cases ht
        have hdecode : ∀ k, 1 ≤ k → k ≤ 3 →
            e4m3ToF32 (UInt8.ofNat k) ≠ field (UInt8.ofNat k) 0 := by
          intro k h1 h3
          obtain ⟨hf, -, he⟩ := code_apart h1 h3
          rw [hf, he]
          obtain rfl | rfl | rfl : k = 1 ∨ k = 2 ∨ k = 3 := by omega
          · norm_num
          · norm_num
          · norm_num
        have h := column_misread hrows hcols hpack hr e4m3ToF32 hdecode
        rw [show codes.getD r 0 = codes.getD (r * 1 + 0) 0 by rw [Nat.mul_one, Nat.add_zero]] at h
        exact h
      | false =>
        cases ht
        have hdecode : ∀ k, 1 ≤ k → k ≤ 3 →
            ((asI8 (UInt8.ofNat k) : Int) : ℚ) ≠ field (UInt8.ofNat k) 0 := by
          intro k h1 h3
          obtain ⟨hf, ha, -⟩ := code_apart h1 h3
          rw [hf, ha]
          intro h
          linarith
        have h := column_misread hrows hcols hpack hr (fun b => ((asI8 b : Int) : ℚ)) hdecode
        have hget : (codes.map asI8).getD (r * 1 + 0) 0 = asI8 (codes.getD r 0) := by
          have hlt : r < codes.length := by omega
          rw [Nat.mul_one, Nat.add_zero, List.getD_eq_getElem _ _ (by rwa [List.length_map]),
            List.getElem_map, List.getD_eq_getElem _ _ hlt]
        show some ((((codes.map asI8).getD (r * 1 + 0) 0 : Int) : ℚ) * _) = _ ↔ _
        rw [hget]
        exact h
    constructor
    · intro h
      exact Or.inr fun r hr => (hplace _ hmk r hr).1 (h _ hmk r hr 0 Nat.one_pos)
    · rintro (h | h)
      · exact absurd rfl h
      · intro t ht r hr c hc
        obtain rfl : c = 0 := by omega
        exact (hplace t ht r hr).2 (h r hr)
  · refine ⟨fun _ => Or.inl hi, fun _ t ht r hr c hc => ?_⟩
    -- there is a row and a column, so more columns than one
    have hwide : ¬(o = 0 ∨ i ≤ 1) := by omega
    rw [hmk, if_neg hwide] at ht
    cases ht
    exact (packTernaryInt2_eq hpack).2.2 r hr c hc

/-! ## Telling the formats apart -/

/-- The two formats with one sidecar, e4m3 and int2, in either order. -/
def SameSidecar (f f' : Format) : Prop :=
  (f = .e4m3 ∧ f' = .int2) ∨ (f = .int2 ∧ f' = .e4m3)

theorem evidence_eq (x y : Stored o i) :
    x.evidence = y.evidence ↔ x.sidecar.1 = y.sidecar.1 ∧ x.blob.length = y.blob.length := by
  unfold Stored.evidence
  rw [Evidence.mk.injEq, List.cons.injEq]
  constructor
  · rintro ⟨⟨hs, -⟩, hl, -⟩
    exact ⟨hs, hl⟩
  · rintro ⟨hs, hl⟩
    exact ⟨⟨hs, rfl⟩, hl, rfl⟩

/-- Two formats share their sidecar only if they are e4m3 and int2. -/
theorem sidecar_eq {x y : Stored o i} (hne : x.format ≠ y.format) :
    x.sidecar.1 = y.sidecar.1 ↔ SameSidecar x.format y.format := by
  have hcode : ∀ z : Stored o i, z.sidecar.1 = (match z.format with
      | .nvfp4 => ".g"
      | .mxfp4 => ".mx"
      | .e4m3 | .int2 => ".qs") := by
    intro z
    cases z with
    | nvfp4 | e4m3 | mxfp4 | int2 => rfl
  rw [hcode, hcode]
  unfold SameSidecar
  generalize x.format = f at *
  generalize y.format = f' at *
  cases f <;> cases f' <;> first | exact absurd rfl hne | decide

/-- Two formats look alike if they share the sidecar and a matrix has one column. -/
theorem evidence_ne {x y : Stored o i} (hne : x.format ≠ y.format) :
    x.evidence = y.evidence ↔ SameSidecar x.format y.format ∧ (o = 0 ∨ i ≤ 1) := by
  rw [evidence_eq, sidecar_eq hne]
  refine and_congr_right fun hsame => ?_
  cases x with
  | nvfp4 | mxfp4 => rcases hsame with ⟨h, -⟩ | ⟨h, -⟩ <;> cases h
  | e4m3 codes scale hcodes =>
    cases y with
    | nvfp4 | mxfp4 | e4m3 => rcases hsame with ⟨-, h⟩ | ⟨h, -⟩ <;> cases h
    | int2 w codes' scales hrows hcols hpack =>
      show codes.length = codes'.length ↔ _
      rw [hcodes, int2_blob_length hrows hcols hpack, eq_comm, lengths_eq]
  | int2 w codes scales hrows hcols hpack =>
    cases y with
    | nvfp4 | mxfp4 | int2 => rcases hsame with ⟨h, -⟩ | ⟨-, h⟩ <;> cases h
    | e4m3 codes' scale hcodes =>
      show codes.length = codes'.length ↔ _
      rw [hcodes, int2_blob_length hrows hcols hpack, lengths_eq]

/-! ## The format is guessed -/

/-- **When an expert is read in the format it was written in.** The block-scaled formats
always are. e4m3 is under the switch, and without it where its codes mean the same as
int8; ternary weights are unless there is one column that is not all zeros. And two
formats look alike to the loader exactly if they are e4m3 and int2 and one byte for four
columns is as much as one byte for each. -/
theorem read_as_written (x : Stored o i) (fp8 : Bool) (name : String) (v : View)
    (hv : v.Of x.blob) :
    (ReadsAsWritten x fp8 name v ↔ Legible x fp8) ∧
      ∀ y : Stored o i, x.format ≠ y.format →
        (x.evidence ≠ y.evidence ↔ ¬(SameSidecar x.format y.format ∧ (o = 0 ∨ i ≤ 1))) := by
  refine ⟨?_, fun y hne => not_congr (evidence_ne hne)⟩
  cases x with
  | nvfp4 nib bs g hnib hbs hfin =>
    exact iff_of_true (nvfp4_reads hnib hbs hfin fp8 name hv) trivial
  | mxfp4 nib bs hnib hbs => exact iff_of_true (mxfp4_reads hnib hbs fp8 name hv) trivial
  | e4m3 codes scale hcodes hscale hfin =>
    cases fp8 with
    | true => exact iff_of_true (e4m3_reads_on hcodes hscale hfin name hv) (Or.inl rfl)
    | false =>
      rw [e4m3_reads_off hcodes hscale hfin name hv]
      exact (or_iff_right Bool.false_ne_true).symm
  | int2 w codes scales hrows hcols hpack => exact int2_reads hrows hcols hpack fp8 name hv

/-! ## An expert misread -/

/-- The weight 1 as e4m3, with the scale 1. -/
def one : Stored 1 1 := .e4m3 [0x38] [1] rfl rfl (by simp [Finite])

/-- The weight 1, ternary. -/
def oneTernary : Stored 1 1 := .int2 [[some 1]] [3] [1] rfl (by simp) (by decide +kernel)

/-- An e4m3 weight of one column: read as written with the switch on, and alike with a ternary
one. -/
theorem read_as_written_one :
    ReadsAsWritten one true "w" ⟨[0x38], 0, 1⟩ ∧ one.evidence = oneTernary.evidence := by
  obtain ⟨hreads, halike⟩ := read_as_written one true "w" ⟨[0x38], 0, 1⟩ ⟨rfl, rfl⟩
  refine ⟨hreads.mpr (.inl rfl), ?_⟩
  by_contra hne
  exact (halike oneTernary (by decide)).mp hne ⟨.inl ⟨rfl, rfl⟩, .inr (Nat.le_refl 1)⟩

/-- Written as e4m3 the weight 1 is read as 56 without the switch; written as ternary it
is read as 3, or as 3/512 under the switch; and the loader cannot tell which it was. -/
theorem expert_misread :
    (∃ t, mk (one.out "w") false 1 1 ⟨[0x38], 0, 1⟩ "w" = .ok t ∧
      t.value 0 0 = some 56 ∧ one.value 0 0 = some 1) ∧
    (∃ t, mk (oneTernary.out "w") false 1 1 ⟨[3], 0, 1⟩ "w" = .ok t ∧
      t.value 0 0 = some 3 ∧ oneTernary.value 0 0 = some 1) ∧
    (∃ t, mk (oneTernary.out "w") true 1 1 ⟨[3], 0, 1⟩ "w" = .ok t ∧
      t.value 0 0 = some (3 / 512)) ∧
    one.format ≠ oneTernary.format ∧ one.evidence = oneTernary.evidence := by
  refine ⟨⟨⟨1, 1, 1, [56], [], [1], [], 0⟩, ?_, ?_, ?_⟩,
    ⟨⟨1, 1, 1, [3], [], [1], [], 0⟩, ?_, ?_, ?_⟩,
    ⟨⟨4, 1, 1, [], [3], [1], [], 0⟩, ?_, ?_⟩, ?_, ?_⟩
  · exact mk_e4m3 rfl rfl (by simp [Finite]) false "w" ⟨rfl, rfl⟩
  · decide +kernel
  · decide +kernel
  · exact mk_int2 rfl (by simp) (by decide +kernel) false "w" ⟨rfl, rfl⟩
  · decide +kernel
  · rfl
  · exact mk_int2 rfl (by simp) (by decide +kernel) true "w" ⟨rfl, rfl⟩
  · decide +kernel
  · decide
  · decide

end

end Colibri.Moe.Formats
