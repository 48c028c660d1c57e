import Colibri.Attention.Matmul
import Colibri.Lib.Blocks
import Colibri.Mixer.Conv
import Mathlib.Algebra.Field.Rat

/-!
# The Mamba2 mixer

`mamba2_mixer`: a projection split into gate, convolution input and step; the causal
convolution; the selective scan, which carries a state for every head; a gated norm and a
projection. It is a chain of stages, so a sequence may be cut into calls anywhere
(`mamba2_chunks`): what a layer keeps between calls is the last rows of convolution input
and the scan's state.

The scalar functions are parameters, and arithmetic is exact. None is a panic.

`mamba2Mixer_eq` takes it apart, `stage_mamba2` puts the rules of the stages together, and the
chunks follow from the rule for stages. A history of `k - 1` rows is carried even where a call is
shorter.
-/

namespace Colibri.Mixer

open Colibri.Attention Colibri.Blocks Colibri.Chunks Colibri.Moe Colibri.Vectors

variable {α : Type}

/-- The scalar functions of the mixers. -/
structure MixerMath (α : Type) where
  exp : α → α
  sqrt : α → α
  silu : α → α
  sigmoid : α → α
  softplus : α → α

/-- The configuration `mamba2_mixer` reads. -/
structure MambaConfig (α : Type) where
  hidden : Int
  eps : α
  mambaNHeads : Int
  mambaHeadDim : Int
  mambaDState : Int
  mambaNGroups : Int
  mambaInter : Int
  mambaDConv : Int
  mambaDtMin : α

/-- The tensors of a Mamba2 layer. -/
structure MambaWeights (α : Type) where
  inProj : QTensor α
  convW : List α
  convB : List α
  aLog : List α
  d : List α
  dtBias : List α
  norm : List α
  outProj : QTensor α

namespace MambaConfig

variable (cfg : MambaConfig α)

def gn : Nat := asUsize cfg.mambaNGroups * asUsize cfg.mambaDState

def convDim : Nat := asUsize cfg.mambaInter + 2 * cfg.gn

def projOut : Nat := asUsize cfg.mambaInter + cfg.convDim + asUsize cfg.mambaNHeads

end MambaConfig

/-- What a layer keeps between calls, as `enable_mamba2` allocates it: the last rows of
convolution input, and the state of the scan, `[n_heads, head_dim, d_state]`. -/
abbrev MambaState (cfg : MambaConfig α) : Type :=
  History α (asUsize cfg.mambaDConv) cfg.convDim ×
    Row α (asUsize cfg.mambaNHeads * (asUsize cfg.mambaHeadDim * asUsize cfg.mambaDState))

section

variable [Field α] [LinearOrder α]

/-! ## The selective scan -/

/-- A token for the scan: its `h`, `B`, `C` and `dt`. -/
structure ScanToken (α : Type) where
  h : List α
  b : List α
  c : List α
  dt : List α

/-- `heads_per_group`; no group is a division by zero. -/
def headsPerGroup (cfg : MambaConfig α) : Option Nat :=
  if asUsize cfg.mambaNGroups = 0 then none
  else some (asUsize cfg.mambaNHeads / asUsize cfg.mambaNGroups)

/-- Where a head's slices are in range. The group of a head past the last one would read
the next token's row, which the last token has not. -/
def headInRange (cfg : MambaConfig α) (l : MambaWeights α) (hpg h : Nat) : Bool :=
  decide (hpg ≠ 0) && decide (h < l.dtBias.length) && decide (h < l.aLog.length) &&
    decide (h < l.d.length) &&
    decide (h / hpg * asUsize cfg.mambaDState + asUsize cfg.mambaDState ≤ cfg.gn)

/-- A head's step and decay. -/
def headScalars (m : MixerMath α) (cfg : MambaConfig α) (l : MambaWeights α)
    (tok : ScanToken α) (h : Nat) : α × α :=
  let a := -m.exp (l.aLog.getD h 0)
  let dtH := max (m.softplus (tok.dt.getD h 0 + l.dtBias.getD h 0)) cfg.mambaDtMin
  (dtH, m.exp (dtH * a))

/-- A row of a head's state after a token. -/
def scanRow (m : MixerMath α) (cfg : MambaConfig α) (l : MambaWeights α) (hpg : Nat)
    (data : List α) (tok : ScanToken α) (h pp : Nat) : List α :=
  let p := asUsize cfg.mambaHeadDim
  let n := asUsize cfg.mambaDState
  let (dtH, daH) := headScalars m cfg l tok h
  let xHp := tok.h.getD (h * p + pp) 0
  tab n fun nn =>
    data.getD (h * (p * n) + pp * n + nn) 0 * daH + dtH * tok.b.getD (h / hpg * n + nn) 0 * xHp

/-- The state after a token. -/
def scanData (m : MixerMath α) (cfg : MambaConfig α) (l : MambaWeights α) (hpg : Nat)
    (data : List α) (tok : ScanToken α) : List α :=
  blocks (asUsize cfg.mambaNHeads) fun h => blocks (asUsize cfg.mambaHeadDim) fun pp =>
    scanRow m cfg l hpg data tok h pp

theorem length_scanData {m : MixerMath α} {cfg : MambaConfig α} {l : MambaWeights α} {hpg : Nat}
    {data : List α} {tok : ScanToken α} :
    (scanData m cfg l hpg data tok).length
      = asUsize cfg.mambaNHeads * (asUsize cfg.mambaHeadDim * asUsize cfg.mambaDState) :=
  length_blocks fun _ _ => length_blocks fun _ _ => length_tab _ _

/-- A token of `selective_scan`: its output and the state after it. -/
def scanStep (m : MixerMath α) (cfg : MambaConfig α) (l : MambaWeights α)
    (data : Row α (asUsize cfg.mambaNHeads *
      (asUsize cfg.mambaHeadDim * asUsize cfg.mambaDState)))
    (tok : ScanToken α) :
    Option (List α × Row α (asUsize cfg.mambaNHeads *
      (asUsize cfg.mambaHeadDim * asUsize cfg.mambaDState))) := do
  let nh := asUsize cfg.mambaNHeads
  let p := asUsize cfg.mambaHeadDim
  let n := asUsize cfg.mambaDState
  let hpg ← headsPerGroup cfg
  if (List.range nh).all (headInRange cfg l hpg) then
    let y := blocks nh fun h => tab p fun pp =>
      let ss := scanRow m cfg l hpg data.1 tok h pp
      ((List.range n).map fun nn => ss.getD nn 0 * tok.c.getD (h / hpg * n + nn) 0).sum
        + tok.h.getD (h * p + pp) 0 * l.d.getD h 0
    some (y, ⟨scanData m cfg l hpg data.1 tok, length_scanData⟩)
  else none

def selectiveScan (m : MixerMath α) (cfg : MambaConfig α) (l : MambaWeights α) :
    Call (Row α (asUsize cfg.mambaNHeads * (asUsize cfg.mambaHeadDim * asUsize cfg.mambaDState)))
      (ScanToken α) (List α) :=
  scan (scanStep m cfg l)

/-! ## The mixer -/

/-- `gated_rmsnorm` of a token. -/
def gatedRmsnorm (m : MixerMath α) (cfg : MambaConfig α) (weight y gate : List α) :
    Option (List α) :=
  let dInner := asUsize cfg.mambaInter
  let ng := asUsize cfg.mambaNGroups
  if weight.length = dInner ∧ ng ≠ 0 ∧ dInner % ng = 0 then
    let gsz := dInner / ng
    some (blocks ng fun grp =>
      let off := grp * gsz
      let gated := tab gsz fun i => y.getD (off + i) 0 * m.silu (gate.getD (off + i) 0)
      let inv := 1 / m.sqrt ((gated.map fun v => v * v).sum / gsz + cfg.eps)
      tab gsz fun i => gated.getD i 0 * inv * weight.getD (off + i) 0)
  else none

omit [Field α] [LinearOrder α] in
theorem length_convInput {cfg : MambaConfig α} {row : List α} (h : row.length = cfg.projOut) :
    ((row.drop (asUsize cfg.mambaInter)).take cfg.convDim).length = cfg.convDim := by
  rw [List.length_take, List.length_drop, h, MambaConfig.projOut]
  omega

/-- A row of `in_proj`, split: the convolution input, the gate and the step. -/
def splitProj (cfg : MambaConfig α) (row : List α) :
    Option (Row α cfg.convDim × List α × List α) :=
  let dInner := asUsize cfg.mambaInter
  if h : row.length = cfg.projOut then
    some (⟨(row.drop dInner).take cfg.convDim, length_convInput h⟩, row.take dInner,
      row.drop (dInner + cfg.convDim))
  else none

/-- A row of convolution output, split, with the token's step and gate. -/
def splitConv (cfg : MambaConfig α) (tok : Row α cfg.convDim × List α × List α) :
    ScanToken α × List α :=
  let dInner := asUsize cfg.mambaInter
  ({ h := tok.1.1.take dInner
     b := (tok.1.1.drop dInner).take cfg.gn
     c := tok.1.1.drop (dInner + cfg.gn)
     dt := tok.2.2 }, tok.2.1)

/-- `mamba2_mixer` over the next tokens of a sequence. `convHist` is `COLI_CONV_HIST`. -/
def mamba2Mixer (m : MixerMath α) (cfg : MambaConfig α) (l : MambaWeights α) (convHist : Bool)
    (st : MambaState cfg) (x : List (List α)) : Option (List (List α) × MambaState cfg) := do
  let kk := asUsize cfg.mambaDConv
  let proj ← matmulRows cfg.projOut x l.inProj
  let toks ← proj.mapM (splitProj cfg)
  let (conv, hist) ← convCall m.silu l.convW l.convB kk kk (!convHist) st.1 (toks.map Prod.fst)
  let toks := (conv.zip (toks.map Prod.snd)).map (splitConv cfg)
  -- `hidden.len() == seq * d_inner`
  if asUsize cfg.mambaInter ≠ asUsize cfg.mambaNHeads * asUsize cfg.mambaHeadDim then none
  let (y, ssm) ← selectiveScan m cfg l st.2 (toks.map Prod.fst)
  let yn ← (y.zip (toks.map Prod.snd)).mapM fun (y, gate) => gatedRmsnorm m cfg l.norm y gate
  let out ← matmulRows (asUsize cfg.hidden) yn l.outProj
  some (out, hist, ssm)

/-! ## In stages -/

/-- `mamba2_mixer` as stages, one behind the other. -/
def mamba2Stages (m : MixerMath α) (cfg : MambaConfig α) (l : MambaWeights α)
    (convHist : Bool) : Call (MambaState cfg) (List α) (List α) :=
  let kk := asUsize cfg.mambaDConv
  let conv : Call _ (Row α cfg.convDim × List α × List α) (Row α cfg.convDim × List α × List α) :=
    (convCall m.silu l.convW l.convB kk kk (!convHist)).beside
  let scan : Call _ (ScanToken α × List α) (List α × List α) := (selectiveScan m cfg l).beside
  ((conv.andThen (scan.comap (splitConv cfg))).before fun row =>
    (matmulRow cfg.projOut l.inProj row).bind (splitProj cfg)).after fun yg =>
      (gatedRmsnorm m cfg l.norm yg.1 yg.2).bind (matmulRow (asUsize cfg.hidden) l.outProj)

variable {m : MixerMath α} {cfg : MambaConfig α} {l : MambaWeights α} {convHist : Bool}

theorem mamba2Mixer_eq : mamba2Mixer m cfg l convHist
    = if asUsize cfg.mambaInter = asUsize cfg.mambaNHeads * asUsize cfg.mambaHeadDim then
        mamba2Stages m cfg l convHist
      else fun _ _ => none := by
  funext st x
  unfold mamba2Mixer mamba2Stages Call.after Call.before Call.andThen Call.comap Call.beside
  simp only [matmulRows_eq_mapM, ← mapM_bind, Option.bind_eq_bind]
  by_cases hinter : asUsize cfg.mambaInter = asUsize cfg.mambaNHeads * asUsize cfg.mambaHeadDim
  · simp only [hinter, ne_eq, not_true, if_false, if_true, Option.map_eq_bind,
      Option.bind_assoc, Option.bind_some, Function.comp_apply]
  · simp only [hinter, ne_eq, not_false_eq_true, if_true, if_false, Option.bind_none,
      Option.bind_fun_none]

/-- **The mixer is a stage.** -/
theorem stage_mamba2 : Stage (mamba2Mixer m cfg l convHist) := by
  rw [mamba2Mixer_eq]
  split
  · have hconv : Stage (@convCall α _ cfg.convDim m.silu l.convW l.convB
        (asUsize cfg.mambaDConv) (asUsize cfg.mambaDConv) (!convHist)) :=
      stage_conv (Nat.sub_le _ _) (Nat.le_refl _) _
    have hscan : Stage (selectiveScan m cfg l) := stage_scan _
    exact (((hconv.beside.andThen (hscan.beside.comap _)).before _).after _)
  · exact Stage.none

/-- **The Mamba2 mixer does not see how a sequence is cut into calls**: the outputs, the
convolution history and the scan's state after calls over its chunks are those of one call
over all of it. -/
theorem mamba2_chunks (m : MixerMath α) (cfg : MambaConfig α) (l : MambaWeights α)
    (convHist : Bool) (st : MambaState cfg) {c : List (List α)} {cs : List (List (List α))}
    (hc : c ≠ []) (hcs : ∀ c' ∈ cs, c' ≠ []) :
    Call.runChunks (mamba2Mixer m cfg l convHist) st (c :: cs)
      = mamba2Mixer m cfg l convHist st (c :: cs).flatten :=
  stage_mamba2.splits.runChunks_eq trivial hc hcs

end

/-- Functions of a scalar that are rational. -/
def plainMath : MixerMath ℚ := ⟨fun x => 1 + x, id, id, id, id⟩

/-- One head of one dimension and one state, with a kernel of three taps. -/
def oneHead : MambaConfig ℚ := ⟨1, 0, 1, 1, 1, 1, 1, 3, 0⟩

/-- Five rows of projection: gate, three convolution channels, step. -/
def onesMamba : MambaWeights ℚ where
  inProj := ⟨5, 1, fun x => List.replicate 5 (x.getD 0 0), fun _ => List.length_replicate⟩
  convW := List.replicate 9 1
  convB := []
  aLog := [0]
  d := [1]
  dtBias := [0]
  norm := [1]
  outProj := ⟨1, 1, fun x => [x.getD 0 0], fun _ => rfl⟩

/-- Zeros, as a fresh cache has them. -/
def freshMamba : MambaState oneHead :=
  (⟨List.replicate 3 ⟨[0, 0, 0], rfl⟩, rfl⟩, ⟨[0], rfl⟩)

/-- Four tokens, the first two in calls of one token each. -/
theorem mamba2_chunks_short :
    Call.runChunks (mamba2Mixer plainMath oneHead onesMamba false) freshMamba
        [[[1]], [[2]], [[3], [4]]]
      = mamba2Mixer plainMath oneHead onesMamba false freshMamba [[1], [2], [3], [4]] :=
  mamba2_chunks plainMath oneHead onesMamba false freshMamba (by simp) (by simp)

end Colibri.Mixer
