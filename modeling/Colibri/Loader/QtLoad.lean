import Colibri.Lib.Vectors
import Colibri.Loader.Floats

/-!
# Loading a weight matrix

`qt_load` is told the name of a tensor and the shape the caller takes it to have, and goes by
what is in the container: a `.g` next to it means NVFP4, the dtype BF16 at sixteen bits and
more is kept as it is, a `.qs` means codes and scales of rows, and anything else is floats
to quantize.

The first two ask whether the bytes are as many as the shape needs. The other two do not:
codes that are not one byte a weight are taken for int2, however many there are, scales and
floats that are not in the file are zeros. `qtLoad_meets_iff` says when that comes out
right.

Sizes are `usize`s and their products wrap; the dimensions of a `QTensor` are `i32`s. The
quantizers' arithmetic is a parameter, `Quant`.
-/

namespace Colibri.Loader

open Batch Safetensors
open Vectors (mapM_some)

inductive LoadError where
  /-- "missing tensor: {name}" -/
  | missing (name : List Char)
  /-- "{name}: NVFP4 blob is {nb} bytes, expected {nib + bs} = nibbles({nib}) +
  block-scales({bs}) for [{o},{i}]" -/
  | nvfp4Bytes (name : List Char) (nb nib bs o i : Nat)
  /-- "{name}: BF16 tensor is {nb} bytes, expected {expected} for [{o},{i}]" -/
  | bf16Bytes (name : List Char) (nb expected o i : Nat)
  | io (e : IoError)

/-- `?` on a read. -/
def ioOr {α : Type} : Outcome IoError α → Outcome LoadError α
  | .ok a => .ok a
  | .error e => .error (.io e)
  | .panic => .panic

/-- `usize` multiplication, as release builds do it. -/
def umul (a b : Nat) : Nat := a * b % 2 ^ 64

/-- `vec![0; n]`, of elements of `size` bytes: the capacity has a limit. -/
def alloc (n size : Nat) : Outcome LoadError Unit := if n * size < 2 ^ 63 then .ok () else .panic

/-- `nbytes` and `numel` of `Shards`: `-1` for no such tensor, and a number of bytes that is
no `i64` is negative too. -/
def nbytes (s : Shards) (name : List Char) : Int :=
  match s.find name with
  | some t => (t.nbytes : Int).bmod (2 ^ 64)
  | none => -1

def numel (s : Shards) (name : List Char) : Int :=
  match s.find name with
  | some t => t.numel
  | none => -1

def has (s : Shards) (name : List Char) : Bool := (s.find name).isSome

/-! ## Quantizing floats -/

/-- What the quantizers compute from floats. -/
structure Quant where
  /-- the scale of a row, at so many bits -/
  scale : Nat → List F32 → F32
  /-- the code of a value under its row's scale -/
  int8 : Nat → F32 → F32 → Int8
  /-- the two bits of a value, `v + 2` -/
  int2 : Nat → F32 → F32 → UInt8

/-- `&w[row * i..(row + 1) * i]`, for every row. -/
def rowsOf (w : List F32) (o i : Nat) : Option (List (List F32)) :=
  (List.range o).mapM fun row => slice w (umul row i) (umul (row + 1) i)

def quantizeRows (Q : Quant) (w : List F32) (o i bits : Nat) :
    Outcome LoadError (List Int8 × List F32) := do
  alloc (umul o i) 1
  alloc o 4
  let rows ← .ofOption (rowsOf w o i)
  return (rows.flatMap fun wr => wr.map (Q.int8 bits (Q.scale bits wr)),
    rows.map (Q.scale bits))

/-- Four values of a row, from column `col` on. -/
def packByte (Q : Quant) (bits : Nat) (scale : F32) (wr : List F32) (col : Nat) : UInt8 :=
  (List.range 4).foldl
    (fun byte k => match wr[col + k]? with
      | some v => byte ||| (Q.int2 bits scale v <<< UInt8.ofNat (k * 2))
      | none => byte) 0

def packRow (Q : Quant) (bits i : Nat) (wr : List F32) : List UInt8 :=
  (List.range ((i + 3) / 4)).map fun b => packByte Q bits (Q.scale bits wr) wr (4 * b)

def packInt2 (Q : Quant) (w : List F32) (o i bits : Nat) :
    Outcome LoadError (List UInt8 × List F32) := do
  alloc (umul o (wadd i 3 / 4)) 1
  alloc o 4
  let rows ← .ofOption (rowsOf w o i)
  return (rows.flatMap (packRow Q bits i), rows.map (Q.scale bits))

def qtensorFromF32 (Q : Quant) (w : List F32) (o i bits : Nat) : Outcome LoadError QTensor :=
  if 16 ≤ bits then
    .ok { fmtCode := 0, qf := w, o := asI32 o, i := asI32 i }
  else if 5 ≤ bits then do
    let (q8, s) ← quantizeRows Q w o i bits
    return { fmtCode := 1, q8, s, o := asI32 o, i := asI32 i }
  else do
    let (q4, s) ← packInt2 Q w o i bits
    return { fmtCode := 3, q4 := .owned q4, s, o := asI32 o, i := asI32 i }

/-! ## The four ways to load -/

section

variable (C : Conv) (Q : Quant) (s : Shards) (name : List Char) (o i bits : Nat)

/-- The global scale of an NVFP4 tensor. -/
def gName : List Char := name ++ ".g".toList

/-- The scales of the rows. -/
def qsName : List Char := name ++ ".qs".toList

def loadNvfp4 : Outcome LoadError QTensor := do
  let nb := nbytes s name
  if nb < 0 then .error (.missing name)
  else
    let nib := umul o ((i + 1) / 2)
    let bs := umul o ((i + 15) / 16)
    if nb.toNat ≠ wadd nib bs then .error (.nvfp4Bytes name nb.toNat nib bs o i)
    else
      let raw ← ioOr (s.readRaw name)
      -- `split_off`
      if raw.length < nib then .panic
      else
        let g ← ioOr (s.readF32 C (gName name) [0])
        return { fmtCode := 5, o := asI32 o, i := asI32 i, q4 := .owned (raw.take nib)
                 bs := .owned (raw.drop nib), g := g.headD 0 }

def loadBf16 (t : StTensor) : Outcome LoadError QTensor := do
  let nb := umul (umul o i) 2
  if t.nbytes ≠ nb then .error (.bf16Bytes name t.nbytes nb o i)
  else
    let raw ← ioOr (s.readRaw name)
    return { fmtCode := 2, o := asI32 o, i := asI32 i, q4 := .owned raw }

def loadCodes : Outcome LoadError QTensor := do
  let nb := nbytes s name
  if nb < 0 then .error (.missing name)
  else
    let raw ← ioOr (s.readRaw name)
    alloc o 4
    let scales ← ioOr (s.readF32 C (qsName name) (List.replicate o 0))
    if nb.toNat = umul o i then
      return { fmtCode := 1, o := asI32 o, i := asI32 i, q8 := raw.map UInt8.toInt8, s := scales }
    else
      return { fmtCode := 3, o := asI32 o, i := asI32 i, q4 := .owned raw, s := scales }

def loadFull : Outcome LoadError QTensor := do
  let n := numel s name
  if n < 0 then .error (.missing name)
  else
    let len := max (umul o i) n.toNat
    alloc len 4
    let tmp ← ioOr (s.readF32 C name (List.replicate len 0))
    qtensorFromF32 Q (tmp.take (umul o i)) o i bits

/-- The tensor, where it is BF16 and the caller wants at least that. -/
def bf16Tier : Option StTensor :=
  if 16 ≤ bits then (s.find name).filter fun t => t.dtype = .bf16 else none

def qtLoad : Outcome LoadError QTensor :=
  if has s (gName name) then loadNvfp4 C s name o i
  else
    match bf16Tier s name bits with
    | some t => loadBf16 s name o i t
    | none =>
      if has s (qsName name) then loadCodes C s name o i else loadFull C Q s name o i bits

/-! ## What a loaded tensor should be -/

/-- The vectors of a tensor hold what is in the container under its name, and nothing else. -/
inductive FromFiles : QTensor → Prop
  | nvfp4 {t : QTensor} {e e' : StTensor} {nib bs : List UInt8} : t.fmtCode = 5 →
      s.Reads name e → t.q4.asSlice = some nib → t.bs.asSlice = some bs → nib ++ bs = s.data e →
      s.Reads (gName name) e' → [some t.g] <+: floats C e'.dtype (s.data e') → FromFiles t
  | bf16 {t : QTensor} {e : StTensor} : t.fmtCode = 2 → bf16Tier s name bits = some e →
      s.Reads name e → t.q4.asSlice = some (s.data e) → FromFiles t
  | int8 {t : QTensor} {e e' : StTensor} : t.fmtCode = 1 → s.Reads name e →
      t.q8 = (s.data e).map UInt8.toInt8 → s.Reads (qsName name) e' →
      t.s.map some <+: floats C e'.dtype (s.data e') → FromFiles t
  | int2 {t : QTensor} {e e' : StTensor} : t.fmtCode = 3 → s.Reads name e →
      t.q4.asSlice = some (s.data e) → s.Reads (qsName name) e' →
      t.s.map some <+: floats C e'.dtype (s.data e') → FromFiles t
  | full {t : QTensor} {e : StTensor} {w : List F32} : has s (gName name) = false →
      has s (qsName name) = false → s.Reads name e → w.length = o * i →
      w.map some <+: floats C e.dtype (s.data e) → qtensorFromF32 Q w o i bits = .ok t →
      FromFiles t

/-- An error, or a tensor of the lengths its format asks for, out of the container, every
weight of which is there. -/
def Meets : Outcome LoadError QTensor → Prop
  | .ok t => t.Sized o i ∧ FromFiles C Q s name o i bits t ∧
      ∀ row < o, ∀ k < i, (t.code row k).isSome
  | .error _ => True
  | .panic => False

/-- Dimensions a `QTensor` can have. -/
def Small : Prop := o < 2 ^ 31 ∧ i < 2 ^ 31

/-- When `qt_load` does what it should. In each case the first lines are what it finds out
and says, and the last is what it takes on trust. -/
def Trusted : Prop :=
  if has s (gName name) then
    nbytes s name < 0 ∨
    (nbytes s name).toNat ≠ wadd (umul o ((i + 1) / 2)) (umul o ((i + 15) / 16)) ∨
    s.Cut name ∨ (umul o ((i + 1) / 2) ≤ (nbytes s name).toNat ∧ s.Cut (gName name)) ∨
    (Small o i ∧ s.Gives C (gName name) 1 1)
  else
    match bf16Tier s name bits with
    | some t => t.nbytes ≠ umul (umul o i) 2 ∨ s.Cut name ∨ Small o i
    | none =>
      if has s (qsName name) then
        nbytes s name < 0 ∨ s.Cut name ∨ (o * 4 < 2 ^ 63 ∧ s.Cut (qsName name)) ∨
        (Small o i ∧
          ((nbytes s name).toNat = o * i ∨ (nbytes s name).toNat = o * ((i + 3) / 4)) ∧
          s.Gives C (qsName name) o o)
      else
        numel s name < 0 ∨
        (max (umul o i) (numel s name).toNat * 4 < 2 ^ 63 ∧ s.Cut name) ∨
        (Small o i ∧ max (o * i) (numel s name).toNat * 4 < 2 ^ 63 ∧
          s.Gives C name (o * i) (max (o * i) (numel s name).toNat))

end

/-! ## Sizes -/

theorem umul_lt {a b : Nat} (ha : a < 2 ^ 31) (hb : b < 2 ^ 31) : a * b < 2 ^ 62 :=
  calc a * b ≤ 2 ^ 31 * b := Nat.mul_le_mul_right b (Nat.le_of_lt ha)
    _ < 2 ^ 31 * 2 ^ 31 := Nat.mul_lt_mul_of_pos_left hb (by decide)

theorem umul_eq {a b : Nat} (ha : a < 2 ^ 31) (hb : b < 2 ^ 31) : umul a b = a * b :=
  Nat.mod_eq_of_lt (Nat.lt_trans (umul_lt ha hb) (by decide))

theorem alloc_ok {n size : Nat} (h : n * size < 2 ^ 63) : alloc n size = .ok () := if_pos h

theorem alloc_panic {n size : Nat} (h : ¬ n * size < 2 ^ 63) : alloc n size = .panic := if_neg h

section

variable {s : Shards} {name : List Char}

theorem has_iff : has s name = true ↔ s.find name ≠ none := by
  unfold has
  cases s.find name <;> simp

/-- A tensor with a number of bytes is read, or its range goes out of the file. -/
theorem readRaw_of_nbytes (h : ¬ nbytes s name < 0) :
    (s.Cut name ∧ s.readRaw name = .error .unexpectedEof) ∨
      ∃ t, s.Reads name t ∧ s.readRaw name = .ok (s.data t) ∧ (nbytes s name).toNat = t.nbytes ∧
        (s.data t).length = t.nbytes := by
  have hbytes : ∀ {t : StTensor}, s.find name = some t →
      nbytes s name = (t.nbytes : Int).bmod (2 ^ 64) := by
    intro t ht
    rw [nbytes, ht]
  generalize hraw : s.readRaw name = raw
  have hacc := hraw ▸ readRaw_access s name
  cases hacc with
  | missing hnone =>
    rw [nbytes, hnone] at h
    exact absurd (by decide) h
  | huge ht hbig =>
    rename_i t
    -- such a number is negative as an `i64`
    refine absurd ?_ h
    have := t.nbytes_lt
    rw [hbytes ht, Int.bmod]
    split <;> omega
  | cut hcut => exact .inl ⟨hcut, rfl⟩
  | read hreads =>
    rename_i t
    refine .inr ⟨t, hreads, rfl, ?_, hreads.length_data⟩
    have := hreads.small
    rw [hbytes hreads.found, Int.bmod]
    split <;> omega

end

/-! ## The quantizers -/

section

variable {Q : Quant} {w : List F32} {o i bits : Nat}

/-- Weights of small dimensions have all their rows. -/
theorem rowsOf_small (h : Small o i) (hw : w.length = o * i) :
    ∃ rows, rowsOf w o i = some rows ∧ rows.length = o ∧ ∀ wr ∈ rows, wr.length = i := by
  have hrows : ∀ row ∈ List.range o, ∃ wr,
      slice w (umul row i) (umul (row + 1) i) = some wr ∧ wr.length = i := by
    intro row hrow
    have hlt := List.mem_range.mp hrow
    obtain ⟨wr, hwr, hlen, -⟩ := slice_row hw hlt
    have ho := h.1
    refine ⟨wr, ?_, hlen⟩
    -- row `o` begins below `2 ^ 62`
    have hnext : (row + 1) * i ≤ o * i := Nat.mul_le_mul_right i hlt
    have hlast : o * i < 2 ^ 62 := umul_lt h.1 h.2
    rw [umul_eq (by omega) h.2, umul, Nat.mod_eq_of_lt (by omega)]
    exact hwr
  obtain ⟨rows, hrows, hlen, hall⟩ := mapM_some hrows
  exact ⟨rows, hrows, hlen.trans List.length_range, hall⟩

theorem length_flatMap_rows {α β : Type} {rows : List α} {n : Nat} {f : α → List β}
    (hf : ∀ wr ∈ rows, (f wr).length = n) : (rows.flatMap f).length = rows.length * n := by
  induction rows with
  | nil => simp
  | cons wr rows ih =>
    rw [List.flatMap_cons, List.length_append, hf wr (List.mem_cons_self ..),
      ih fun wr h => hf wr (List.mem_cons_of_mem _ h), List.length_cons, Nat.succ_mul,
      Nat.add_comm]

theorem sized_of {t : QTensor} (h : Small o i) (ho : t.o = asI32 o) (hi : t.i = asI32 i)
    (hlen : t.Lengths o i) : t.Sized o i :=
  ⟨ho.trans ((asI32_eq_iff o).mpr h.1), hi.trans ((asI32_eq_iff i).mpr h.2), hlen⟩

/-- Of as many weights as the dimensions have, the quantizers make what the format asks. -/
theorem qtensorFromF32_small (h : Small o i) (hw : w.length = o * i) :
    ∃ t, qtensorFromF32 Q w o i bits = .ok t ∧ t.Sized o i := by
  obtain ⟨rows, hrows, hlen, hall⟩ := rowsOf_small h hw
  have ho : o < 2 ^ 31 := h.1
  have hi : i < 2 ^ 31 := h.2
  have hoi : o * i < 2 ^ 62 := umul_lt ho hi
  unfold qtensorFromF32
  split
  · exact ⟨_, rfl, sized_of h rfl rfl hw⟩
  · split
    · -- one code for each weight
      have hq : (rows.flatMap fun wr => wr.map (Q.int8 bits (Q.scale bits wr))).length = o * i := by
        rw [length_flatMap_rows (n := i), hlen]
        exact fun wr hwr => (List.length_map ..).trans (hall wr hwr)
      have hmade : quantizeRows Q w o i bits
          = .ok (rows.flatMap fun wr => wr.map (Q.int8 bits (Q.scale bits wr)),
            rows.map (Q.scale bits)) := by
        rw [quantizeRows, umul_eq ho hi, alloc_ok (by omega), alloc_ok (by omega), hrows]
        rfl
      rw [hmade]
      exact ⟨_, rfl, sized_of h rfl rfl ⟨hq, (List.length_map ..).trans hlen⟩⟩
    · -- one byte for each four weights of a row
      have hi3 : wadd i 3 = i + 3 := Nat.mod_eq_of_lt (by omega)
      have hrb : o * ((i + 3) / 4) < 2 ^ 62 := umul_lt ho (by omega)
      have hq : (rows.flatMap (packRow Q bits i)).length = o * ((i + 3) / 4) := by
        rw [length_flatMap_rows (n := (i + 3) / 4), hlen]
        exact fun wr _ => (List.length_map ..).trans List.length_range
      have hmade : packInt2 Q w o i bits
          = .ok (rows.flatMap (packRow Q bits i), rows.map (Q.scale bits)) := by
        rw [packInt2, hi3, umul_eq ho (by omega), alloc_ok (by omega), alloc_ok (by omega), hrows]
        rfl
      rw [hmade]
      exact ⟨_, rfl, sized_of h rfl rfl ⟨⟨_, rfl, hq⟩, (List.length_map ..).trans hlen⟩⟩

theorem ne_error_bind {α β : Type} {x : Outcome LoadError α} {f : α → Outcome LoadError β}
    (hx : ∀ e, x ≠ .error e) (hf : ∀ a e, f a ≠ .error e) (e : LoadError) :
    (x >>= f) ≠ .error e := by
  cases x with
  | ok a => exact hf a e
  | error e' => exact absurd rfl (hx e')
  | panic => nofun

theorem alloc_ne_error (n size : Nat) (e : LoadError) : alloc n size ≠ .error e := by
  unfold alloc
  split <;> nofun

theorem ofOption_ne_error {α : Type} (x : Option α) (e : LoadError) :
    Outcome.ofOption x ≠ .error e := by
  cases x <;> nofun

/-- Whatever the dimensions, the quantizers have no error. -/
theorem qtensorFromF32_ne_error (Q : Quant) (w : List F32) (o i bits : Nat) (e : LoadError) :
    qtensorFromF32 Q w o i bits ≠ .error e := by
  unfold qtensorFromF32 quantizeRows packInt2
  split
  · nofun
  · split
    all_goals
      refine ne_error_bind ?_ (fun a e => ?_) e
      · refine ne_error_bind (alloc_ne_error _ _) fun _ => ?_
        refine ne_error_bind (alloc_ne_error _ _) fun _ => ?_
        refine ne_error_bind (ofOption_ne_error _) fun _ e => ?_
        nofun
      · nofun

/-- What they make has the dimensions as `i32`s. -/
theorem qtensorFromF32_dims {t : QTensor} (h : qtensorFromF32 Q w o i bits = .ok t) :
    t.o = asI32 o ∧ t.i = asI32 i := by
  unfold qtensorFromF32 at h
  split at h
  · cases h
    exact ⟨rfl, rfl⟩
  · split at h
    all_goals
      obtain ⟨⟨codes, scales⟩, -, h⟩ := Outcome.bind_eq_ok h
      cases h
      exact ⟨rfl, rfl⟩

end

/-! ## The four ways, one by one -/

section

variable {C : Conv} {Q : Quant} {s : Shards} {name : List Char} {o i bits : Nat} {t : QTensor}

theorem meets_ok (h : t.Sized o i) (hsmall : Small o i) (hfrom : FromFiles C Q s name o i bits t) :
    Meets C Q s name o i bits (.ok t) :=
  ⟨h, hfrom, fun _ hrow _ hk => h.code_isSome (Nat.lt_trans hsmall.2 (by decide)) hrow hk⟩

theorem small_of_sized (h : t.Sized o i) (ho : t.o = asI32 o) (hi : t.i = asI32 i) : Small o i :=
  ⟨(asI32_eq_iff o).mp (ho.symm.trans h.rows), (asI32_eq_iff i).mp (hi.symm.trans h.cols)⟩

theorem prefix_head {vs : List (Option F32)} {out' : List F32}
    (h : convertInto vs [0] = some out') : [some (out'.headD 0)] <+: vs ↔ 1 ≤ vs.length := by
  obtain ⟨hlen, -, -⟩ := convertInto_ok h
  obtain ⟨g, rfl⟩ := List.length_eq_one_iff.mp hlen
  exact convertInto_from h (n := 1) (Nat.le_refl 1)

/-- **NVFP4**: the bytes are refused, or are as many as the shape needs. -/
theorem loadNvfp4_meets_iff (hg : has s (gName name) = true) :
    Meets C Q s name o i bits (loadNvfp4 C s name o i) ↔
      nbytes s name < 0 ∨
      (nbytes s name).toNat ≠ wadd (umul o ((i + 1) / 2)) (umul o ((i + 15) / 16)) ∨
      s.Cut name ∨ (umul o ((i + 1) / 2) ≤ (nbytes s name).toNat ∧ s.Cut (gName name)) ∨
      (Small o i ∧ s.Gives C (gName name) 1 1) := by
  unfold loadNvfp4
  simp only
  by_cases hneg : nbytes s name < 0
  · rw [if_pos hneg]
    exact ⟨fun _ => .inl hneg, fun _ => trivial⟩
  rw [if_neg hneg]
  by_cases hlen : (nbytes s name).toNat ≠ wadd (umul o ((i + 1) / 2)) (umul o ((i + 15) / 16))
  · rw [if_pos hlen]
    exact ⟨fun _ => .inr (.inl hlen), fun _ => trivial⟩
  rw [if_neg hlen]
  obtain ⟨hcut, hraw⟩ | ⟨e, he, hraw, hnb, hdata⟩ := readRaw_of_nbytes hneg
  · rw [hraw]
    exact ⟨fun _ => .inr (.inr (.inl hcut)), fun _ => trivial⟩
  -- the blob is there, and as long as the two halves add up to
  rw [hraw]
  show Meets C Q s name o i bits (if (s.data e).length < umul o ((i + 1) / 2) then .panic else
    ioOr (s.readF32 C (gName name) [0]) >>= fun g => .ok _) ↔ _
  rw [hdata, ← hnb]
  have hwhole : Small o i → (nbytes s name).toNat = o * ((i + 1) / 2) + o * ((i + 15) / 16) := by
    rintro ⟨ho, hi⟩
    have h2 : o * ((i + 1) / 2) < 2 ^ 62 := umul_lt ho (by omega)
    have h16 : o * ((i + 15) / 16) < 2 ^ 62 := umul_lt ho (by omega)
    rw [not_not.mp hlen, umul_eq ho (by omega), umul_eq ho (by omega), wadd,
      Nat.mod_eq_of_lt (by omega)]
  have hnib : Small o i → umul o ((i + 1) / 2) = o * ((i + 1) / 2) := by
    rintro ⟨ho, hi⟩
    exact umul_eq ho (by omega)
  simp only [hneg, hlen, not_cut_of_reads he, false_or]
  split
  next hsplit =>
    constructor
    · exact False.elim
    · rintro (⟨hle, -⟩ | ⟨hsmall, -⟩)
      · omega
      · have := hwhole hsmall
        have := hnib hsmall
        omega
  next hsplit =>
    generalize hread : s.readF32 C (gName name) [0] = r
    have hfills := hread ▸ readF32_fills C s (gName name) [0]
    cases hfills with
    | missing hnone => exact absurd hnone (has_iff.mp hg)
    | cut hcut => exact ⟨fun _ => .inl ⟨by omega, hcut⟩, fun _ => trivial⟩
    | refused _ hcut hgives =>
      refine ⟨False.elim, ?_⟩
      rintro (⟨-, h⟩ | ⟨-, h⟩)
      · exact hcut h
      · exact hgives 1 h
    | filled he' hconv =>
      rename_i e' out'
      have hgives : s.Gives C (gName name) 1 1 ↔ 1 ≤ (floats C e'.dtype (s.data e')).length :=
        he'.gives hconv
      constructor
      · rintro ⟨hsized, hfrom, -⟩
        refine .inr ⟨small_of_sized hsized rfl rfl, ?_⟩
        rw [hgives, ← prefix_head hconv]
        cases hfrom with
        | nvfp4 _ _ _ _ _ hg' hpre =>
          cases Option.some.inj (he'.found.symm.trans hg'.found)
          exact hpre
        | bf16 h | int8 h | int2 h => cases h
        | full h => cases hg.symm.trans h
      · rintro (⟨-, h⟩ | ⟨hsmall, h⟩)
        · exact absurd h (not_cut_of_reads he')
        · have hw := hwhole hsmall
          have hn := hnib hsmall
          refine meets_ok (sized_of hsmall rfl rfl ⟨⟨_, rfl, ?_⟩, _, rfl, ?_⟩) hsmall
            (.nvfp4 rfl he rfl rfl (List.take_append_drop ..) he' ?_)
          · rw [List.length_take]
            omega
          · rw [List.length_drop]
            omega
          · rwa [prefix_head hconv, ← hgives]

/-- **BF16**: the bytes are refused, or the tensor is cut off, or the shape is small. -/
theorem loadBf16_meets_iff {e : StTensor} (htier : bf16Tier s name bits = some e) :
    Meets C Q s name o i bits (loadBf16 s name o i e) ↔
      e.nbytes ≠ umul (umul o i) 2 ∨ s.Cut name ∨ Small o i := by
  have hfind : s.find name = some e := by
    unfold bf16Tier at htier
    split at htier
    · exact (Option.filter_eq_some_iff.mp htier).1
    · cases htier
  have hbytes : Small o i → umul (umul o i) 2 = o * i * 2 := by
    rintro ⟨ho, hi⟩
    have hoi : o * i < 2 ^ 62 := umul_lt ho hi
    rw [umul_eq ho hi, umul, Nat.mod_eq_of_lt (by omega)]
  unfold loadBf16
  simp only
  by_cases hlen : e.nbytes ≠ umul (umul o i) 2
  · rw [if_pos hlen]
    exact ⟨fun _ => .inl hlen, fun _ => trivial⟩
  rw [if_neg hlen]
  simp only [hlen, false_or]
  generalize hraw : s.readRaw name = raw
  have hacc := hraw ▸ readRaw_access s name
  cases hacc with
  | missing hnone => cases hnone.symm.trans hfind
  | cut hcut => exact ⟨fun _ => .inl hcut, fun _ => trivial⟩
  | huge ht hbig =>
    cases Option.some.inj (hfind.symm.trans ht)
    refine ⟨False.elim, ?_⟩
    rintro (⟨e', he', hsmall, -⟩ | hsmall)
    · cases Option.some.inj (hfind.symm.trans he')
      omega
    · have hb := hbytes hsmall
      have hoi : o * i < 2 ^ 62 := umul_lt hsmall.1 hsmall.2
      omega
  | read he =>
    cases Option.some.inj (hfind.symm.trans he.found)
    constructor
    · rintro ⟨hsized, -⟩
      exact .inr (small_of_sized hsized rfl rfl)
    · rintro (hcut | hsmall)
      · exact absurd hcut (not_cut_of_reads he)
      · refine meets_ok (sized_of hsmall rfl rfl ⟨_, rfl, ?_⟩) hsmall (.bf16 rfl htier he rfl)
        rw [he.length_data, not_not.mp hlen, hbytes hsmall]

/-- **Codes and scales**: when they come out right. -/
theorem loadCodes_meets_iff (hqs : has s (qsName name) = true) :
    Meets C Q s name o i bits (loadCodes C s name o i) ↔
      nbytes s name < 0 ∨ s.Cut name ∨ (o * 4 < 2 ^ 63 ∧ s.Cut (qsName name)) ∨
      (Small o i ∧
        ((nbytes s name).toNat = o * i ∨ (nbytes s name).toNat = o * ((i + 3) / 4)) ∧
        s.Gives C (qsName name) o o) := by
  unfold loadCodes
  simp only
  by_cases hneg : nbytes s name < 0
  · rw [if_pos hneg]
    exact ⟨fun _ => .inl hneg, fun _ => trivial⟩
  rw [if_neg hneg]
  obtain ⟨hcut, hraw⟩ | ⟨e, he, hraw, hnb, hdata⟩ := readRaw_of_nbytes hneg
  · rw [hraw]
    exact ⟨fun _ => .inr (.inl hcut), fun _ => trivial⟩
  rw [hraw]
  simp only [hneg, not_cut_of_reads he, false_or]
  by_cases halloc : o * 4 < 2 ^ 63
  · rw [alloc_ok halloc]
    generalize hread : s.readF32 C (qsName name) (List.replicate o 0) = r
    have hfills := hread ▸ readF32_fills C s (qsName name) (List.replicate o 0)
    cases hfills with
    | missing hnone => exact absurd hnone (has_iff.mp hqs)
    | cut hcut => exact ⟨fun _ => .inl ⟨halloc, hcut⟩, fun _ => trivial⟩
    | refused _ hcut hgives =>
      rw [List.length_replicate] at hgives
      refine ⟨False.elim, ?_⟩
      rintro (⟨-, h⟩ | ⟨-, -, h⟩)
      · exact hcut h
      · exact hgives o h
    | filled he' hconv =>
      rename_i e' scales
      have hlen : scales.length = o := (convertInto_ok hconv).1.trans List.length_replicate
      have hgives : s.Gives C (qsName name) o o ↔ scales.map some <+:
          floats C e'.dtype (s.data e') := by
        have h1 := he'.gives hconv (n := o)
        have h2 := convertInto_from hconv (n := o) (by rw [List.length_replicate])
        rw [List.length_replicate] at h1
        rw [h1, ← h2, List.take_of_length_le (by omega)]
      rw [hgives]
      show Meets C Q s name o i bits (if (nbytes s name).toNat = umul o i then .ok _ else .ok _) ↔ _
      split
      -- a byte for each weight is int8, any other number is taken for int2
      next hint8 =>
        constructor
        · rintro ⟨hsized, hfrom, -⟩
          have hsmall := small_of_sized hsized rfl rfl
          refine .inr ⟨hsmall, .inl (hint8.trans (umul_eq hsmall.1 hsmall.2)), ?_⟩
          cases hfrom with
          | int8 _ _ _ hs hpre =>
            cases Option.some.inj (he'.found.symm.trans hs.found)
            exact hpre
          | nvfp4 h | bf16 h | int2 h => cases h
          | full _ h => cases hqs.symm.trans h
        · rintro (⟨-, h⟩ | ⟨hsmall, -, hpre⟩)
          · exact absurd h (not_cut_of_reads he')
          · refine meets_ok (sized_of hsmall rfl rfl ⟨?_, hlen⟩) hsmall (.int8 rfl he rfl he' hpre)
            rw [List.length_map, hdata, ← hnb, hint8, umul_eq hsmall.1 hsmall.2]
      next hint2 =>
        constructor
        · rintro ⟨hsized, hfrom, -⟩
          have hsmall := small_of_sized hsized rfl rfl
          obtain ⟨⟨v, hv, hvlen⟩, -⟩ := hsized.lengths
          cases hv
          refine .inr ⟨hsmall, .inr (hnb.trans (hdata.symm.trans hvlen)), ?_⟩
          cases hfrom with
          | int2 _ _ _ hs hpre =>
            cases Option.some.inj (he'.found.symm.trans hs.found)
            exact hpre
          | nvfp4 h | bf16 h | int8 h => cases h
          | full _ h => cases hqs.symm.trans h
        · rintro (⟨-, h⟩ | ⟨hsmall, hbytes, hpre⟩)
          · exact absurd h (not_cut_of_reads he')
          · have hpacked : (nbytes s name).toNat = o * ((i + 3) / 4) :=
              hbytes.resolve_left fun h => hint2 (h.trans (umul_eq hsmall.1 hsmall.2).symm)
            exact meets_ok (sized_of hsmall rfl rfl
              ⟨⟨_, rfl, hdata.trans (hnb.symm.trans hpacked)⟩, hlen⟩) hsmall
              (.int2 rfl he rfl he' hpre)
  · rw [alloc_panic halloc]
    refine ⟨False.elim, ?_⟩
    rintro (⟨h, -⟩ | ⟨⟨ho, -⟩, -⟩)
    · exact halloc h
    · omega

/-- **Floats**: when they come out right. -/
theorem loadFull_meets_iff (hg : has s (gName name) = false) (hqs : has s (qsName name) = false)
    (htier : bf16Tier s name bits = none) :
    Meets C Q s name o i bits (loadFull C Q s name o i bits) ↔
      numel s name < 0 ∨
      (max (umul o i) (numel s name).toNat * 4 < 2 ^ 63 ∧ s.Cut name) ∨
      (Small o i ∧ max (o * i) (numel s name).toNat * 4 < 2 ^ 63 ∧
        s.Gives C name (o * i) (max (o * i) (numel s name).toNat)) := by
  have hsmallLen : Small o i → umul o i = o * i := fun h => umul_eq h.1 h.2
  unfold loadFull
  simp only
  by_cases hneg : numel s name < 0
  · rw [if_pos hneg]
    exact ⟨fun _ => .inl hneg, fun _ => trivial⟩
  rw [if_neg hneg]
  simp only [hneg, false_or]
  generalize hlen : max (umul o i) (numel s name).toNat = len
  by_cases halloc : len * 4 < 2 ^ 63
  · rw [alloc_ok halloc]
    generalize hread : s.readF32 C name (List.replicate len 0) = r
    have hfills := hread ▸ readF32_fills C s name (List.replicate len 0)
    -- what the read of the floats can come to
    cases hfills with
    | missing hnone =>
      rw [numel, hnone] at hneg
      exact absurd (by decide) hneg
    | cut hcut => exact ⟨fun _ => .inl ⟨halloc, hcut⟩, fun _ => trivial⟩
    | refused _ hcut hgives =>
      rw [List.length_replicate] at hgives
      refine ⟨False.elim, ?_⟩
      rintro (⟨-, h⟩ | ⟨hsmall, -, h⟩)
      · exact hcut h
      · rw [← hsmallLen hsmall, hlen] at h
        exact hgives _ h
    | filled he hconv =>
      rename_i e tmp
      have htmp : tmp.length = len := (convertInto_ok hconv).1.trans List.length_replicate
      show Meets C Q s name o i bits (qtensorFromF32 Q (tmp.take (umul o i)) o i bits) ↔ _
      by_cases hsmall : Small o i
      · -- the weights are there just when the floats are
        have hfits : o * i ≤ len := hlen ▸ hsmallLen hsmall ▸ Nat.le_max_left _ _
        have hgives : s.Gives C name (o * i) len ↔
            o * i ≤ (floats C e.dtype (s.data e)).length := by
          have := he.gives hconv (n := o * i)
          rwa [List.length_replicate] at this
        have hw : (tmp.take (o * i)).length = o * i := by
          rw [List.length_take]
          omega
        obtain ⟨t, ht, hsized⟩ : ∃ t, qtensorFromF32 Q (tmp.take (o * i)) o i bits = .ok t ∧
          t.Sized o i := qtensorFromF32_small hsmall hw
        rw [← hsmallLen hsmall, hlen, hsmallLen hsmall, ht, hgives]
        constructor
        · rintro ⟨-, hfrom, -⟩
          refine .inr ⟨hsmall, halloc, ?_⟩
          have hno : ∀ {nm e'}, has s nm = false → ¬ s.Reads nm e' := by
            intro nm e' hnm hreads
            rw [has, hreads.found] at hnm
            cases hnm
          cases hfrom with
          | full _ _ he' hwlen hpre =>
            cases Option.some.inj (he.found.symm.trans he'.found)
            rw [← hwlen, ← List.length_map (f := some)]
            exact hpre.length_le
          | bf16 _ h => cases htier.symm.trans h
          | nvfp4 _ _ _ _ _ h => exact absurd h (hno hg)
          | int8 _ _ _ h | int2 _ _ _ h => exact absurd h (hno hqs)
        · rintro (⟨-, h⟩ | ⟨-, -, h⟩)
          · exact absurd h (not_cut_of_reads he)
          · have hpre : ((tmp.take (o * i)).map some) <+: floats C e.dtype (s.data e) :=
              (convertInto_from hconv (by rwa [List.length_replicate])).mpr h
            exact meets_ok hsized hsmall (.full hg hqs he hw hpre ht)
      · have hnot : ¬ (len * 4 < 2 ^ 63 ∧ s.Cut name) := fun h => not_cut_of_reads he h.2
        simp only [hnot, hsmall, false_and, false_or, iff_false]
        intro hmeets
        cases hq : qtensorFromF32 Q (tmp.take (umul o i)) o i bits with
        | ok t =>
          rw [hq] at hmeets
          obtain ⟨ho, hi⟩ := qtensorFromF32_dims hq
          exact hsmall (small_of_sized hmeets.1 ho hi)
        | error e => exact qtensorFromF32_ne_error Q _ o i bits e hq
        | panic =>
          rw [hq] at hmeets
          exact hmeets
  · rw [alloc_panic halloc]
    refine ⟨False.elim, ?_⟩
    rintro (⟨h, -⟩ | ⟨hsmall, hn, -⟩)
    · exact halloc h
    · rw [← hsmallLen hsmall, hlen] at hn
      exact halloc hn

/-- **When a loaded matrix is one**: `qt_load` ends in an error, or in a tensor of the right
lengths with nothing in it that is not in the container, just when what it takes on trust is
so. -/
theorem qtLoad_meets_iff (C : Conv) (Q : Quant) (s : Shards) (name : List Char)
    (o i bits : Nat) :
    Meets C Q s name o i bits (qtLoad C Q s name o i bits) ↔ Trusted C s name o i bits := by
  unfold qtLoad Trusted
  split
  next hg => exact loadNvfp4_meets_iff hg
  next hg =>
    have hg := Bool.eq_false_of_not_eq_true hg
    split
    next htier => exact loadBf16_meets_iff htier
    next htier =>
      split
      next hqs => exact loadCodes_meets_iff hqs
      next hqs => exact loadFull_meets_iff hg (Bool.eq_false_of_not_eq_true hqs) htier

end

/-! ## Codes that are too few -/

/-- One byte of codes, and scales for two rows. -/
def shortCodes : Entry := ⟨['w'], .u8, [2, 2], [7]⟩
def rowScales : Entry := ⟨['w', '.', 'q', 's'], .f32, [2], [0, 0, 128, 63, 0, 0, 128, 63]⟩

/-- **A matrix with a row that is not there**: two rows and two columns are asked for, there
is one byte, and what is loaded is an int2 tensor whose second row is out of range. -/
theorem qtLoad_short : ∃ s : Shards, s.Opened ∧ ∀ C Q, ∃ t,
    qtLoad C Q s ['w'] 2 2 8 = .ok t ∧ t.fmtCode = 3 ∧ t.code 1 0 = none := by
  obtain ⟨s, hs, hhas, honly⟩ := @exists_written [shortCodes, rowScales] (by decide +kernel)
    (by decide) (posed_of (by decide) (by decide) (by decide))
  obtain ⟨e, he, -, hdata, hnbytes⟩ := (hhas shortCodes (by simp)).reads (by decide)
  obtain ⟨e', he', hdtype', hdata', -⟩ := (hhas rowScales (by simp)).reads (by decide)
  refine ⟨s, hs, fun C Q => ?_⟩
  have hg : has s (gName ['w']) = false := by
    refine Bool.eq_false_of_not_eq_true fun h => ?_
    exact absurd (honly _ (has_iff.mp h)) (by decide)
  have hqs : has s (qsName ['w']) = true := has_iff.mpr (by
    rw [show qsName ['w'] = rowScales.name by decide, he'.found]
    nofun)
  have hnb : nbytes s ['w'] = 1 := by
    rw [nbytes, show s.find ['w'] = some e from he.found]
    simp only
    rw [hnbytes]
    decide
  have hread : s.readF32 C (qsName ['w']) [0, 0] = .ok [0x3F800000, 0x3F800000] := by
    unfold Shards.readF32
    rw [show qsName ['w'] = rowScales.name by decide, he'.found]
    simp only
    rw [he'.readRaw, hdtype', hdata']
    rfl
  have hload : qtLoad C Q s ['w'] 2 2 8 = .ok
      { fmtCode := 3, o := asI32 2, i := asI32 2, q4 := .owned [7]
        s := [0x3F800000, 0x3F800000] } := by
    unfold qtLoad
    rw [hg, hqs]
    show loadCodes C s ['w'] 2 2 = _
    unfold loadCodes
    simp only
    rw [hnb, show s.readRaw ['w'] = .ok (s.data e) from he.readRaw, hdata]
    show (ioOr (s.readF32 C (qsName ['w']) [0, 0]) >>= _) = _
    rw [hread]
    rfl
  refine ⟨_, hload, rfl, ?_⟩
  rw [QTensor.code, asI32_of_range (v := 2) (by decide) (by decide)]
  rfl

end Colibri.Loader
