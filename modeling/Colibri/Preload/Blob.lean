import Colibri.Loader.QtLoad
import Colibri.Preload.Manifest

/-!
# An expert as one blob

`expert_blob` lays an int8 expert's six vectors end to end, codes and scales of each of its
three projections; `expert_from_blob` cuts them out again at places that it computes from the
dimensions. An `Int8Expert` has exactly the vectors its dimensions ask for, and for these the
cuts are where the seams are (`expertFromBlob_blob`). Floats are their bits, and no vector is
too long to be had.

Dimensions below `2 ^ 31`, as those of a configuration are, have a blob whose length does not wrap
(`blobBytes_lt`). `Int8Expert.length_blob` is the length, `expertBlob_toExpert` the way out.
-/

namespace Colibri.Preload

open Batch Loader Safetensors

/-! ## Experts -/

/-- `QTensor`, with the mark of what may be cached on the GPU. -/
structure QTensor extends Loader.QTensor where
  gpuEligible : Bool := false

structure Expert where
  gate : QTensor
  up : QTensor
  down : QTensor

def QTensor.cacheable (t : QTensor) : Bool := !(t.fmtCode = 0 || t.fmtCode = 1)

def QTensor.mark (t : QTensor) : QTensor := { t with gpuEligible := t.cacheable }

def Expert.markGpuEligible (ex : Expert) : Expert := ⟨ex.gate.mark, ex.up.mark, ex.down.mark⟩

/-- An int8 matrix: a code for each entry, a scale for each row. -/
structure Int8Tensor (o i : Nat) where
  codes : List Int8
  scales : List F32
  length_codes : codes.length = o * i
  length_scales : scales.length = o

/-- The tensor it is, as every loader makes it: with no other payload, and never marked for
the GPU. -/
def Int8Tensor.toQTensor {o i : Nat} (t : Int8Tensor o i) : QTensor where
  fmtCode := 1
  q8 := t.codes
  s := t.scales
  o := o
  i := i

/-- An int8 expert of these dimensions. -/
structure Int8Expert (hidden moeInter : Nat) where
  gate : Int8Tensor moeInter hidden
  up : Int8Tensor moeInter hidden
  down : Int8Tensor hidden moeInter

def Int8Expert.toExpert {hidden moeInter : Nat} (ex : Int8Expert hidden moeInter) : Expert :=
  ⟨ex.gate.toQTensor, ex.up.toQTensor, ex.down.toQTensor⟩

/-! ## Writing -/

def toLeBytes (v : F32) : List UInt8 :=
  [v.toUInt8, (v >>> 8).toUInt8, (v >>> 16).toUInt8, (v >>> 24).toUInt8]

/-- What `push_q` appends. -/
def pushQ (t : QTensor) : Outcome PreloadError (List UInt8) :=
  match t.fmtCode with
  | 1 => .ok (t.q8.map Int8.toUInt8)
  | _ => .panic

/-- What `push_s` appends. -/
def pushS (s : List F32) : List UInt8 := s.flatMap toLeBytes

def expertBlob (ex : Expert) : Outcome PreloadError (List UInt8) := do
  let gate ← pushQ ex.gate
  let up ← pushQ ex.up
  let down ← pushQ ex.down
  return gate ++ pushS ex.gate.s ++ up ++ pushS ex.up.s ++ down ++ pushS ex.down.s

/-! ## Reading -/

structure BlobLayout where
  gateQ : Nat
  gateS : Nat
  upQ : Nat
  upS : Nat
  downQ : Nat
  downS : Nat

def layout (hidden moeInter : Nat) (fmt : Int) : Outcome PreloadError BlobLayout :=
  if fmt = 1 then
    .ok { gateQ := umul moeInter hidden, gateS := umul moeInter 4, upQ := umul moeInter hidden
          upS := umul moeInter 4, downQ := umul hidden moeInter, downS := umul hidden 4 }
  else .panic

/-- `read_qt`: the tensor, and the offset behind it. -/
def readQt (blob : List UInt8) (off qlen slen o i : Nat) (fmt : Int) :
    Outcome PreloadError (QTensor × Nat) := do
  let q ← .ofOption (slice blob off (wadd off qlen))
  let off := wadd off qlen
  let sb ← .ofOption (slice blob off (wadd off slen))
  if fmt = 1 then
    return ({ fmtCode := 1, o := asI32 o, i := asI32 i, s := floats4 sb
              q8 := q.map UInt8.toInt8 }, wadd off slen)
  else .panic

def expertFromBlob (blob : List UInt8) (hidden moeInter : Nat) (fmt : Int) :
    Outcome PreloadError Expert := do
  let l ← layout hidden moeInter fmt
  let (gate, off) ← readQt blob 0 l.gateQ l.gateS moeInter hidden fmt
  let (up, off) ← readQt blob off l.upQ l.upS moeInter hidden fmt
  let (down, _) ← readQt blob off l.downQ l.downS hidden moeInter fmt
  return ⟨gate, up, down⟩

def blobBytes (hidden moeInter : Nat) : Nat :=
  (moeInter * hidden + moeInter * 4) + (moeInter * hidden + moeInter * 4)
    + (hidden * moeInter + hidden * 4)

/-! ## Floats and their bytes -/

/-- A byte of a word, put back where it was. -/
theorem getLsbD_byte (v : BitVec 32) (j : Nat) {i : Nat} (hi : i < 32) :
    ((((v >>> j).setWidth 8).setWidth 32) <<< j).getLsbD i
      = (decide (j ≤ i ∧ i < j + 8) && v.getLsbD i) := by
  rw [BitVec.getLsbD_shiftLeft, BitVec.getLsbD_setWidth, BitVec.getLsbD_setWidth,
    BitVec.getLsbD_ushiftRight]
  by_cases h : j ≤ i ∧ i < j + 8
  · rw [decide_eq_true h, Nat.add_sub_cancel' h.1, decide_eq_true hi,
      decide_eq_false (Nat.not_lt.mpr h.1), decide_eq_true (show i - j < 32 by omega),
      decide_eq_true (show i - j < 8 by omega)]
    rfl
  · rw [decide_eq_false h]
    by_cases hlt : i < j
    · rw [decide_eq_true hlt, Bool.not_true, Bool.and_false, Bool.false_and, Bool.false_and]
    · rw [decide_eq_false (show ¬ i - j < 8 by omega), Bool.false_and, Bool.and_false,
        Bool.and_false, Bool.false_and]

theorem f32OfLe_toLeBytes (v : F32) :
    f32OfLe v.toUInt8 (v >>> 8).toUInt8 (v >>> 16).toUInt8 (v >>> 24).toUInt8 = v := by
  -- every bit is in one of the four bytes
  have hbits : ∀ i < 32, (decide (0 ≤ i ∧ i < 8) || decide (8 ≤ i ∧ i < 16) ||
      decide (16 ≤ i ∧ i < 24) || decide (24 ≤ i ∧ i < 32)) = true := by decide
  refine UInt32.toBitVec_inj.mp (BitVec.eq_of_getLsbD_eq fun i hi => ?_)
  have hlow := getLsbD_byte v.toBitVec 0 hi
  rw [BitVec.ushiftRight_zero, BitVec.shiftLeft_zero] at hlow
  show (_ ||| _ ||| _ ||| _ : BitVec 32).getLsbD i = _
  rw [BitVec.getLsbD_or, BitVec.getLsbD_or, BitVec.getLsbD_or]
  refine (congrArg₂ or (congrArg₂ or (congrArg₂ or hlow (getLsbD_byte v.toBitVec 8 hi))
    (getLsbD_byte v.toBitVec 16 hi)) (getLsbD_byte v.toBitVec 24 hi)).trans ?_
  rw [← Bool.and_or_distrib_right, ← Bool.and_or_distrib_right, ← Bool.and_or_distrib_right,
    hbits i hi, Bool.true_and]

theorem floats4_pushS (s : List F32) : floats4 (pushS s) = s := by
  induction s with
  | nil => rfl
  | cons v s ih =>
    show f32OfLe _ _ _ _ :: floats4 (pushS s) = v :: s
    rw [f32OfLe_toLeBytes, ih]

theorem length_pushS (s : List F32) : (pushS s).length = s.length * 4 := by
  induction s with
  | nil => rfl
  | cons v s ih =>
    show (pushS s).length + 4 = (s.length + 1) * 4
    rw [ih, Nat.succ_mul]

/-! ## The blob is cut where it was put together -/

section

variable {o i hidden moeInter : Nat}

/-- A tensor's part of the blob. -/
def Int8Tensor.part (t : Int8Tensor o i) : List UInt8 :=
  t.codes.map Int8.toUInt8 ++ pushS t.scales

theorem Int8Tensor.length_part (t : Int8Tensor o i) : t.part.length = o * i + o * 4 := by
  rw [part, List.length_append, List.length_map, t.length_codes, length_pushS, t.length_scales]

def Int8Expert.blob (ex : Int8Expert hidden moeInter) : List UInt8 :=
  ex.gate.part ++ ex.up.part ++ ex.down.part

theorem Int8Expert.length_blob (ex : Int8Expert hidden moeInter) :
    ex.blob.length = blobBytes hidden moeInter := by
  rw [blob, List.length_append, List.length_append, ex.gate.length_part, ex.up.length_part,
    ex.down.length_part, blobBytes]

theorem expertBlob_toExpert (ex : Int8Expert hidden moeInter) :
    expertBlob ex.toExpert = .ok ex.blob := by
  have hcut : ex.blob = ex.gate.codes.map Int8.toUInt8 ++ pushS ex.gate.scales
      ++ ex.up.codes.map Int8.toUInt8 ++ pushS ex.up.scales
      ++ ex.down.codes.map Int8.toUInt8 ++ pushS ex.down.scales := by
    simp only [Int8Expert.blob, Int8Tensor.part, List.append_assoc]
  rw [hcut]
  rfl

/-- The middle of three. -/
theorem slice_middle {α : Type} {a b c : List α} {m n : Nat} (hm : m = a.length)
    (hn : n = a.length + b.length) : slice (a ++ (b ++ c)) m n = some b := by
  have hin : m ≤ n ∧ n ≤ (a ++ (b ++ c)).length := by
    rw [List.length_append, List.length_append]
    omega
  have hlen : n - m = b.length := by omega
  rw [slice, if_pos hin, hlen, hm, List.drop_left, List.take_left]

/-- One tensor is read back from behind what was read before it. -/
theorem readQt_part (before after : List UInt8) (t : Int8Tensor o i) (ho : o < 2 ^ 31)
    (hi : i < 2 ^ 31) (hsmall : before.length + t.part.length < 2 ^ 64) :
    readQt (before ++ (t.part ++ after)) before.length (umul o i) (umul o 4) o i 1
      = .ok (t.toQTensor, before.length + t.part.length) := by
  have hlen := t.length_part
  have hcodes : (t.codes.map Int8.toUInt8).length = o * i := by
    rw [List.length_map, t.length_codes]
  have hscales : (pushS t.scales).length = o * 4 := by rw [length_pushS, t.length_scales]
  have hq : slice (before ++ (t.part ++ after)) before.length (before.length + o * i)
      = some (t.codes.map Int8.toUInt8) := by
    rw [Int8Tensor.part, List.append_assoc]
    exact slice_middle rfl (by rw [hcodes])
  have hs : slice (before ++ (t.part ++ after)) (before.length + o * i)
      (before.length + o * i + o * 4) = some (pushS t.scales) := by
    rw [Int8Tensor.part, List.append_assoc, ← List.append_assoc before]
    refine slice_middle ?_ ?_
    · rw [List.length_append, hcodes]
    · rw [List.length_append, hcodes, hscales]
  have hback : (t.codes.map Int8.toUInt8).map UInt8.toInt8 = t.codes := by
    rw [List.map_map]
    exact List.map_id _
  unfold readQt
  rw [umul_eq ho hi, umul_eq ho (by omega : 4 < 2 ^ 31), wadd_eq (by omega), hq]
  dsimp only [Outcome.ofOption]
  rw [Outcome.ok_bind, wadd_eq (by omega), hs]
  show Outcome.ok _ = _
  rw [floats4_pushS, hback, (asI32_eq_iff o).mpr ho, (asI32_eq_iff i).mpr hi, hlen,
    Nat.add_assoc]
  rfl

theorem blobBytes_lt (hh : hidden < 2 ^ 31) (hm : moeInter < 2 ^ 31) :
    blobBytes hidden moeInter < 2 ^ 64 := by
  have hprod := umul_lt hm hh
  rw [blobBytes, Nat.mul_comm hidden moeInter]
  omega

/-- **An int8 expert is read back from its blob.** -/
theorem expertFromBlob_blob (ex : Int8Expert hidden moeInter) (hh : hidden < 2 ^ 31)
    (hm : moeInter < 2 ^ 31) : expertFromBlob ex.blob hidden moeInter 1 = .ok ex.toExpert := by
  have htotal := ex.length_blob ▸ blobBytes_lt hh hm
  rw [Int8Expert.blob, List.length_append, List.length_append] at htotal
  have hgate := readQt_part [] (ex.up.part ++ ex.down.part) ex.gate hm hh
    (by rw [List.length_nil]; omega)
  have hup := readQt_part ex.gate.part ex.down.part ex.up hm hh (by omega)
  have hdown := readQt_part (ex.gate.part ++ ex.up.part) [] ex.down hh hm
    (by rw [List.length_append]; omega)
  rw [List.length_nil, List.nil_append, ← List.append_assoc, Nat.zero_add] at hgate
  rw [← List.append_assoc] at hup
  rw [List.append_nil, List.length_append] at hdown
  unfold expertFromBlob layout Int8Expert.blob
  rw [if_pos rfl, Outcome.ok_bind]
  dsimp only
  rw [hgate, Outcome.ok_bind]
  dsimp only
  rw [hup, Outcome.ok_bind]
  dsimp only
  rw [hdown]
  rfl

end

end Colibri.Preload
