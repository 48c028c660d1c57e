import Colibri.Convert.Dequant
import Mathlib.Algebra.Order.Ring.Rat

/-!
# Experts that are MXFP4 already

A source that has its experts in MXFP4 is not dequantized: the nibbles and the exponents are
copied, one behind the other, and the sidecar `.mx` says so. What decides is the shape of the
scales, one byte for 32 inputs.

`passthrough_copies` says of any source and any shape what is written where the experts are taken
for MXFP4: the bytes of the weight and then those of the scales, both read from the source, and
nothing computed from them.
-/

namespace Colibri.Convert

open Batch Loader Safetensors

/-- `TensorOut`: what a source tensor becomes. -/
inductive TensorOut where
  | skip
  /-- floats, of the source's shape -/
  | plain (name : List Char) (shape : List Int) (w : List F32)
  /-- a blob of bytes, and the sidecar's floats -/
  | quant (name : List Char) (blob : List UInt8) (sidecar : List Char) (floats : List ℚ)

/-- `mxfp4_scale_name`: the name of the scales, as compressed-tensors or DeepSeek-V4 has it. -/
def mxfp4ScaleName (name : List Char) : Option (List Char) :=
  match stripSuffix ".weight_packed".toList name with
  | some stem => some (stem ++ ".weight_scale".toList)
  | none => (stripSuffix ".weight".toList name).map fun stem => stem ++ ".scale".toList

/-- The first two dimensions. -/
def firstDims : List Int → Option (Nat × Nat)
  | a :: b :: _ => some (asUsize a, asUsize b)
  | _ => none

/-- `mxfp4_source`: the rows and the columns. -/
def mxfp4Source (s : Shards) (name : List Char) : Option (Nat × Nat) := do
  let sname ← mxfp4ScaleName name
  let w ← s.find name
  let sc ← s.find sname
  if w.dtype ≠ .u8 ∨ sc.dtype ≠ .u8 then none
  else
    let (o, ih) ← firstDims w.shape
    let (so, cols) ← firstDims sc.shape
    let i := umul ih 2
    if so = o ∧ cols = (i + 31) / 32 then some (o, i) else none

def mxfp4PassthroughOut (s : Shards) (outName src : List Char) :
    Outcome ConvertError TensorOut :=
  match mxfp4ScaleName src with
  | none => .error (.notMxfp4 src)
  | some sname => do
    let nib ← ioErr (s.readRaw src)
    let sc ← ioErr (s.readRaw sname)
    return .quant outName (nib ++ sc) (outName ++ ".mx".toList) [1]

/-- What is written is the source's bytes. -/
theorem passthrough_copies {s : Shards} {outName src : List Char} {out : TensorOut}
    (h : mxfp4PassthroughOut s outName src = .ok out) :
    ∃ sname nib sc, mxfp4ScaleName src = some sname ∧ s.readRaw src = .ok nib ∧
      s.readRaw sname = .ok sc ∧ out = .quant outName (nib ++ sc) (outName ++ ".mx".toList) [1] := by
  have hread : ∀ {name : List Char} {b : List UInt8}, ioErr (s.readRaw name) = .ok b →
      s.readRaw name = .ok b := by
    intro name b hb
    cases hraw : s.readRaw name with
    | ok b' =>
      rw [hraw] at hb
      cases hb
      rfl
    | error e =>
      rw [hraw] at hb
      cases hb
    | panic =>
      rw [hraw] at hb
      cases hb
  unfold mxfp4PassthroughOut at h
  split at h
  next => cases h
  next sname hsname =>
    obtain ⟨nib, hnib, h⟩ := Outcome.bind_eq_ok h
    obtain ⟨sc, hsc, h⟩ := Outcome.bind_eq_ok h
    cases h
    exact ⟨sname, nib, sc, hsname, hread hnib, hread hsc, rfl⟩

end Colibri.Convert
