import Colibri.Gpu.Tensor
import Colibri.Lib.Batch
import Colibri.Lib.Blocks
import Colibri.Moe.Rows
import Mathlib.Analysis.Complex.Trigonometric

/-!
# Experts in groups

`compute_experts_partial_into` with a device. Before it goes expert by expert it offers
the routed experts to the grouped paths, one after another: rows gathered expert by
expert, kernels called on chunks of the experts, results scattered. A path that declines
leaves the buffer alone, and one that does not adds what the loop over experts would have
added (`groupRun_spec`), chunk sizes and old scratch whatever they are.

A kernel computes one activation: the SwiGLU ones that of `set_activation`, which does
not know of situ. `ffn` asks for the activation before it picks a kernel; the grouped
dispatch asks for the formats, and for the activation only whether it is ReLU². So it
agrees with the loop exactly if no SwiGLU group takes experts of another activation
(`grouped_agrees`).

How each call ends, what is left in the scratch and the headroom are arbitrary.

The proof follows the dispatch. `Tried` is what one path may have done to the output, with a lemma
for each of the paths; `Armed` adds that a path which took the experts was ready for them. In the
other direction `..._ran` says that a path which takes them does so when its kernels run.
-/

namespace Colibri.Moe.Grouped

open Colibri.Blocks Colibri.Cluster

/-! ## Experts and what kernels make of a row -/

section

variable {α : Type} [Field α] [LinearOrder α]

/-- An expert's tensors, shaped as its loader shapes them for inputs of width `d`. -/
structure Expert (a : ActCfg α) (d : Nat) extends Gpu.Expert where
  up_i : up.i = d
  down_i : down.i = up.o
  down_o : down.o = d
  gate_i : a.relu2 = false → gate.i = d
  gate_o : a.relu2 = false → gate.o = up.o

/-- What the bytes of a tensor say: its rows as dot products. -/
structure Decode (α : Type) where
  tensor : Gpu.QTensor → QTensor α
  o_eq : ∀ t, (tensor t).o = t.o
  i_eq : ∀ t, (tensor t).i = t.i

variable {a : ActCfg α} {d : Nat}

def Decode.ffn (dec : Decode α) (ex : Expert a d) : Ffn a d where
  gate := dec.tensor ex.gate
  up := dec.tensor ex.up
  down := dec.tensor ex.down
  up_i := (dec.i_eq _).trans ex.up_i
  down_i := by rw [dec.i_eq, dec.o_eq, ex.down_i]
  down_o := (dec.o_eq _).trans ex.down_o
  gate_i h := (dec.i_eq _).trans (ex.gate_i h)
  gate_o h := by rw [dec.o_eq, dec.o_eq, ex.gate_o h]

variable (f : Scalar α) (dec : Decode α)

/-- The FFN of an expert, under the installed activation. -/
def ffnRow (ex : Expert a d) : List α → List α := (dec.ffn ex).row f

/-- `gpu::set_activation`: what the device is told of the activation. -/
def setActivation (a : ActCfg α) : ActCfg α := { a with relu2 := false, situ := false }

/-- What a SwiGLU kernel makes of a row. -/
def swigluRow (ex : Expert a d) (x : List α) : List α :=
  (dec.tensor ex.down).dot (List.zipWith ((setActivation a).gated f)
    ((dec.tensor ex.gate).dot x) ((dec.tensor ex.up).dot x))

/-- What a situ kernel makes of a row, with the parameters it is called with. -/
def situRow (ex : Expert a d) (x : List α) : List α :=
  (dec.tensor ex.down).dot (List.zipWith (fun g u => f.situ g u a.situBeta a.situLinearBeta)
    ((dec.tensor ex.gate).dot x) ((dec.tensor ex.up).dot x))

/-- What a ReLU² kernel makes of a row. -/
def relu2Row (ex : Expert a d) (x : List α) : List α :=
  (dec.tensor ex.down).dot (((dec.tensor ex.up).dot x).map reluSquared)

/-! ## The device and the settings -/

/-- The device, and what the RAM ledger has left when it is asked, if there is one. -/
structure Device where
  available : Bool
  zerocopy : Bool
  headroom : Option Nat

/-- The switches of the grouped paths. -/
structure Switches where
  /-- `int2_group_enabled` -/
  int2Group : Bool
  /-- `int2_group_rows_max` -/
  int2GroupRowsMax : Nat
  /-- `dsv4_group_moe` -/
  dsv4GroupMoe : Bool
  /-- `nvfp4_group_moe` -/
  nvfp4GroupMoe : Bool
  /-- `nvfp4_group_rows_max` -/
  nvfp4GroupRowsMax : Nat
  /-- `group_chunk_experts` -/
  groupChunkExperts : Option Nat
  /-- `expert_group_enabled` -/
  expertGroup : Bool
  /-- `group_prefill_enabled` -/
  groupPrefill : Bool
  /-- `expert_seg_enabled` -/
  expertSeg : Bool
  /-- `expert_seg_decode_enabled` -/
  expertSegDecode : Bool

/-- The switches, with nothing set. -/
def Switches.default : Switches := ⟨true, 32, false, true, 8, some 32, false, false, false, false⟩

/-- How the calls end, by the path they are of and their number in it; of the loop over
experts each has two, as `ffn` may try two kernels. -/
structure Pattern where
  int2Decode : Gpu.Outcome
  int2Rows : Nat → Gpu.Outcome
  packed : Nat → Gpu.Outcome
  seg : Gpu.Outcome
  relu2 : Nat → Gpu.Outcome
  fp8 : Nat → Gpu.Outcome
  ffn : Nat → Gpu.Outcome × Gpu.Outcome

variable (dev : Device) (sw : Switches) (pat : Pattern)

/-! ## One expert -/

/-- `ffn_cpu`, on an expert. -/
def ffnOnCpu (ex : Expert a d) (x : List α) (nr : Nat) : Option (List α) :=
  ffnCpu f a (dec.tensor ex.gate) (dec.tensor ex.up) (dec.tensor ex.down) x nr (nr * d)

/-- Whether `try_expert_ffn_relu2` gets to its call. -/
def relu2Takes (ex : Expert a d) : Bool :=
  dev.available && ex.up.gpuEligible && ex.down.gpuEligible && ex.up.fmtCode == 5 &&
    ex.down.fmtCode == 5 && dev.zerocopy

/-- Whether `try_expert_ffn_mxfp4` and `try_expert_ffn_mxfp4_situ` get to their call. -/
def mxfp4Takes (ex : Expert a d) : Bool :=
  dev.available && dev.zerocopy && ex.gate.fmtCode == 6 && ex.up.fmtCode == 6 &&
    ex.down.fmtCode == 6

/-- Whether `try_expert_ffn` gets to its call. -/
def ffnTakes (ex : Expert a d) : Bool :=
  dev.available && ex.gate.gpuEligible && ex.up.gpuEligible && ex.down.gpuEligible &&
    (dev.zerocopy || ex.gate.fmtCode != 5)

/-- The call was made and reported success. -/
def ran : Gpu.Outcome → Bool
  | .ran => true
  | _ => false

def ffn (calls : Gpu.Outcome × Gpu.Outcome) (ex : Expert a d) (x : List α) (nr : Nat) :
    Option (List α) :=
  if a.relu2 then
    if relu2Takes dev ex && ran calls.1 then some (byRow d (relu2Row dec ex) x nr)
    else ffnOnCpu f dec ex x nr
  else if a.situ then
    if mxfp4Takes dev ex && ran calls.1 then some (byRow d (situRow f dec ex) x nr)
    else ffnOnCpu f dec ex x nr
  else if mxfp4Takes dev ex && ran calls.1 then some (byRow d (swigluRow f dec ex) x nr)
  else if ffnTakes dev ex && ran calls.2 then some (byRow d (swigluRow f dec ex) x nr)
  else ffnOnCpu f dec ex x nr

end

/-! ## A group of experts -/

section

variable {α : Type} [Zero α] [Add α] [Mul α] {a : ActCfg α} {d : Nat}

/-- A routed expert and the rows that route to it, with their weights. -/
abbrev Active (a : ActCfg α) (d : Nat) : Type := Expert a d × List (Nat × α)

def rowsOf (active : List (Active a d)) : List (Nat × α) := active.flatMap Prod.snd

/-- `fit_f32`: what was in the scratch stays. -/
def fit (n : Nat) (scratch : List α) : List α :=
  (scratch ++ List.replicate (n - scratch.length) 0).take n

/-- `buf[off..off+len]` of a call, written over. -/
def writeAt (buf : List α) (off : Nat) (ys : List α) : List α :=
  buf.take off ++ ys ++ buf.drop (off + ys.length)

/-- `xoff`: where in its window an expert's run of rows begins. -/
def withOffsets : Nat → List (Active a d) → List (Expert a d × Nat × Nat)
  | _, [] => []
  | off, (ex, rows) :: rest => (ex, off, rows.length) :: withOffsets (off + rows.length) rest

/-- A grouped kernel: each expert on its own run of the window. -/
def groupKernel (row : Expert a d → List α → List α) (part : List (Active a d))
    (x : List α) : List α :=
  (withOffsets 0 part).flatMap fun (ex, off, n) => byRow d (row ex) (x.drop (off * d)) n

/-- The loop over the chunks: each is called on its window of `x_all`, and writes its
window of `y_all`. -/
def runChunks (row : Expert a d → List α → List α) (calls : Nat → Gpu.Outcome)
    (xAll : List α) : Nat → Nat → List (List (Active a d)) → List α → Bool × List α
  | _, _, [], yAll => (true, yAll)
  | n, done, part :: parts, yAll =>
    let partRows := (rowsOf part).length
    if ran (calls n) then
      runChunks row calls xAll (n + 1) (done + partRows) parts
        (writeAt yAll (done * d)
          (groupKernel row part ((xAll.drop (done * d)).take (partRows * d))))
    else (false, yAll)

/-- What the grouped paths share: gather, run the chunks, scatter. -/
def groupRun (row : Expert a d → List α → List α) (chunk : Nat) (calls : Nat → Gpu.Outcome)
    (scratch : List α) (active : List (Active a d)) (activations out : List α) :
    Bool × List α :=
  let rows := rowsOf active
  let xAll := gather activations d rows
  match runChunks row calls xAll 0 0 (chunks chunk active) (fit (rows.length * d) scratch) with
  | (true, yAll) => (true, scatter d yAll 0 rows out)
  | (false, _) => (false, out)

end

/-! ## The grouped paths -/

section

variable {α : Type} [Field α] [LinearOrder α] {a : ActCfg α} {d : Nat} (f : Scalar α)
  (dec : Decode α) (dev : Device) (sw : Switches) (pat : Pattern)

/-- What both int2 paths ask of an expert. -/
def int2Fits (inter : Nat) (ex : Expert a d) : Bool :=
  ex.gate.fmtCode == 3 && ex.up.fmtCode == 3 && ex.down.fmtCode == 3 &&
    ex.gate.gpuEligible && ex.up.gpuEligible && ex.down.gpuEligible &&
    ex.gate.i == d && ex.up.i == d && ex.down.o == d &&
    ex.gate.o == inter && ex.up.o == inter && ex.down.i == inter &&
    ex.gate.s.data.length == inter && ex.up.s.data.length == inter &&
    ex.down.s.data.length == d

def int2GroupShape (active : List (Active a d)) : Bool :=
  match active with
  | [] => false
  | (ex, _) :: _ => active.all fun p => int2Fits ex.gate.o p.1

/-- The one token all experts have as their only row. -/
def oneToken (active : List (Active a d)) : Option Nat :=
  match active with
  | (_, (t, _) :: _) :: _ => if active.all fun p => p.2.map Prod.fst == [t] then some t else none
  | _ => none

def int2DecodeTakes (active : List (Active a d)) : Bool :=
  dev.available && sw.int2Group && !active.isEmpty && decide (active.length ≤ 16) &&
    (oneToken active).isSome && int2GroupShape active

/-- `try_expert_group_int2_decode`: the one row for all experts. -/
def tryExpertGroupInt2Decode (active : List (Active a d)) (activations out : List α) :
    Bool × List α :=
  if int2DecodeTakes dev sw active then
    let t := (oneToken active).getD 0
    let x := (activations.drop (t * d)).take d
    if ran pat.int2Decode then
      (true, scatter d (active.flatMap fun p => swigluRow f dec p.1 x) 0
        (active.map fun p => (t, (p.2.map Prod.snd).headD 0)) out)
    else (false, out)
  else (false, out)

def int2RowsTakes (active : List (Active a d)) : Bool :=
  dev.available && sw.int2Group && !active.isEmpty && int2GroupShape active &&
    decide ((rowsOf active).length ≠ 0) &&
    decide ((rowsOf active).length / active.length ≤ sw.int2GroupRowsMax)

def tryExpertGroupInt2Rows (scratch : List α) (active : List (Active a d))
    (activations out : List α) : Bool × List α :=
  if int2RowsTakes dev sw active then
    groupRun (swigluRow f dec) 32 pat.int2Rows scratch active activations out
  else (false, out)

/-- `QTensor::bytes` -/
def tensorBytes (t : Gpu.QTensor) : Nat :=
  if t.fmtCode = 0 then t.o * t.i * 4
  else if t.fmtCode = 1 then t.o * t.i + t.o * 4
  else if t.fmtCode = 2 then t.o * t.i * 2
  else if t.fmtCode = 3 then t.o * ((t.i + 3) / 4) + t.o * 4
  else if t.fmtCode = 4 then t.o * t.i + t.o * 4
  else if t.fmtCode = 5 then t.o * ((t.i + 1) / 2) + t.o * ((t.i + 15) / 16) + 4
  else if t.fmtCode = 6 then t.o * ((t.i + 1) / 2) + t.o * ((t.i + 31) / 32) + 4
  else 0

/-- `Expert::bytes` -/
def Expert.bytes (ex : Expert a d) : Nat :=
  tensorBytes ex.gate + tensorBytes ex.up + tensorBytes ex.down

def stagingPerExpert (active : List (Active a d)) : Nat :=
  min ((active.map fun p => p.1.bytes).foldr max 0 * 2) (2 ^ 64 - 1)

/-- How many experts are staged at once; none where not even one fits a quarter of the
headroom. -/
def packedChunk (active : List (Active a d)) : Option Nat :=
  let chunk := max (sw.groupChunkExperts.getD active.length) 1
  let staging := stagingPerExpert active
  if staging > 0 then
    let fits := (dev.headroom.map (· / 4)).getD (2 ^ 64 - 1) / staging
    if fits = 0 then none else some (min chunk fits)
  else some chunk

/-- What the packed paths ask of an expert. -/
def packedFits (fmt : Int) (ex : Expert a d) : Bool :=
  ex.gate.gpuEligible && ex.gate.fmtCode == fmt && ex.gate.i == d && ex.up.gpuEligible &&
    ex.down.gpuEligible && ex.up.fmtCode == fmt && ex.down.fmtCode == fmt && ex.up.i == d &&
    ex.down.o == d

def packedTakes (fmt : Int) (active : List (Active a d)) : Bool :=
  dev.available && dev.zerocopy && (active.all fun p => packedFits fmt p.1) &&
    (packedChunk dev sw active).isSome

def tryExpertGroupPacked (fmt : Int) (scratch : List α) (active : List (Active a d))
    (activations out : List α) : Bool × List α :=
  if dev.available && dev.zerocopy && active.isEmpty then (true, out)
  else if packedTakes dev sw fmt active then
    groupRun (swigluRow f dec) ((packedChunk dev sw active).getD 1) pat.packed scratch active
      activations out
  else (false, out)

def tryExpertGroupNvfp4 (scratch : List α) (active : List (Active a d))
    (activations out : List α) : Bool × List α :=
  tryExpertGroupPacked f dec dev sw pat 5 scratch active activations out

/-- What the ReLU² path asks of an expert. -/
def relu2Fits (ex : Expert a d) : Bool :=
  ex.up.gpuEligible && ex.down.gpuEligible && ex.up.fmtCode == 5 && ex.down.fmtCode == 5 &&
    ex.up.i == d && ex.down.o == d

def relu2GroupTakes (active : List (Active a d)) : Bool :=
  dev.available && dev.zerocopy &&
    (sw.groupPrefill || sw.expertSeg || active.all fun p => p.2.length == 1) &&
    active.all fun p => relu2Fits p.1

/-- Whether the segmented kernel is tried first. -/
def segWanted (active : List (Active a d)) : Bool :=
  (sw.expertSeg && active.any fun p => decide (1 < p.2.length)) ||
    (sw.expertSegDecode && decide (1 < active.length))

/-- `try_expert_group_relu2`: all at once by the segmented kernel, or else in chunks. -/
def tryExpertGroupRelu2 (scratch : List α) (active : List (Active a d))
    (activations out : List α) : Bool × List α :=
  if dev.available && dev.zerocopy && active.isEmpty then (true, out)
  else if relu2GroupTakes dev sw active then
    if segWanted sw active && ran pat.seg then
      (true, scatter d (groupKernel (relu2Row dec) active (gather activations d (rowsOf active))) 0
        (rowsOf active) out)
    else groupRun (relu2Row dec) 64 pat.relu2 scratch active activations out
  else (false, out)

/-- What the fp8 path asks of an expert. -/
def fp8Fits (ex : Expert a d) : Bool :=
  ex.gate.gpuEligible && ex.gate.fmtCode == 4 && ex.up.fmtCode == 4 && ex.down.fmtCode == 4

def fp8Takes (active : List (Active a d)) : Bool :=
  dev.available && dev.zerocopy && active.all fun p => fp8Fits p.1

/-- `try_expert_group`: with buffers of its own. -/
def tryExpertGroup (active : List (Active a d)) (activations out : List α) : Bool × List α :=
  if dev.available && dev.zerocopy && active.isEmpty then (true, out)
  else if fp8Takes dev active then
    groupRun (swigluRow f dec) 64 pat.fp8 [] active activations out
  else (false, out)

/-! ## The dispatch -/

/-- The grouped path that did the work. -/
inductive Path where
  | int2Decode
  | int2Rows
  | packed (fmt : Int)
  | relu2
  | fp8
  deriving DecidableEq

/-- What an attempt comes to: the path, if it was not declined, and the buffer. -/
def attempt (p : Path) (r : Bool × List α) : Option Path × List α :=
  (if r.1 then some p else none, r.2)

/-- The int2 paths, where every expert is int2. -/
def tryInt2 (scratch : List α) (active : List (Active a d)) (activations out : List α) :
    Option Path × List α :=
  if !active.isEmpty && active.all fun p => p.1.up.fmtCode == 3 then
    match attempt .int2Decode (tryExpertGroupInt2Decode f dec dev sw pat active activations out)
      with
    | (some p, out) => (some p, out)
    | (none, out) =>
      attempt .int2Rows (tryExpertGroupInt2Rows f dec dev sw pat scratch active activations out)
  else (none, out)

/-- The condition of the NVFP4 arm: few rows for each expert. -/
def nvfp4Short (active : List (Active a d)) : Bool :=
  sw.nvfp4GroupMoe && !active.isEmpty && (active.all fun p => p.1.up.fmtCode == 5) &&
    decide ((rowsOf active).length / active.length ≤ sw.nvfp4GroupRowsMax)

/-- The condition of the MXFP4 arm. -/
def mxfp4Wanted (active : List (Active a d)) : Bool :=
  sw.dsv4GroupMoe && !active.isEmpty && active.all fun p => p.1.up.fmtCode == 6

/-- `grouped` of `compute_experts_partial_into` -/
def tryGrouped (scratch : List α) (active : List (Active a d)) (activations out : List α) :
    Option Path × List α :=
  match tryInt2 f dec dev sw pat scratch active activations out with
  | (some p, out) => (some p, out)
  | (none, out) =>
    if a.relu2 then
      attempt .relu2 (tryExpertGroupRelu2 dec dev sw pat scratch active activations out)
    else if mxfp4Wanted sw active then
      attempt (.packed 6)
        (tryExpertGroupPacked f dec dev sw pat 6 scratch active activations out)
    else if nvfp4Short sw active then
      attempt (.packed 5) (tryExpertGroupNvfp4 f dec dev sw pat scratch active activations out)
    else if sw.expertGroup then
      attempt .fp8 (tryExpertGroup f dec dev pat active activations out)
    else (none, out)

/-- The routed experts, as the provider hands them out. -/
def activeOf (provider : Provider (Expert a d)) (layer : Nat) :
    List (Nat × List (Nat × α)) → Except IoError (List (Active a d))
  | [] => .ok []
  | (e, rows) :: rest =>
    match provider.expert layer e with
    | .error err => .error err
    | .ok ex =>
      match activeOf provider layer rest with
      | .error err => .error err
      | .ok active => .ok ((ex, rows) :: active)

/-- The loop over experts. -/
def applyEach (provider : Provider (Expert a d)) (layer : Nat) (activations : List α) :
    Nat → List (Nat × List (Nat × α)) → List α → Batch.Outcome IoError (List α)
  | _, [], out => .ok out
  | n, (e, rows) :: rest, out =>
    match provider.expert layer e with
    | .error err => .error err
    | .ok ex =>
      match ffn f dec dev (pat.ffn n) ex (gather activations d rows) rows.length with
      | none => .panic
      | some hh => applyEach provider layer activations (n + 1) rest (scatter d hh 0 rows out)

/-- `compute_experts_partial_into`, with a device: the grouped path taken, if one was, and
the buffer. -/
def computeExpertsPartialInto (scratch : List α) (provider : Provider (Expert a d))
    (layer : Nat) (experts : List Nat) (weights activations : List α) (nTokens : Nat)
    (out : List α) : Batch.Outcome IoError (Option Path × List α) :=
  if experts.isEmpty then .ok (none, out)
  else
    match provider.prefetch layer experts with
    | .error err => .error err
    | .ok () =>
      match activeOf provider layer (perExpert experts weights nTokens) with
      | .error err => .error err
      | .ok active =>
        match tryGrouped f dec dev sw pat scratch active activations out with
        | (some p, out) => .ok (some p, out)
        | (none, out) =>
          applyEach f dec dev pat provider layer activations 0
              (perExpert experts weights nTokens) out >>= fun out => .ok (none, out)

end

/-! ## The rows of a group -/

section

variable {α : Type} {a : ActCfg α} {d : Nat} {row : Expert a d → List α → List α}
  {activations : List α} {n : Nat}

/-- What an expert makes of the rows that route to it. -/
def rowsOut (row : Expert a d → List α → List α) (activations : List α) (p : Active a d) :
    List α :=
  byRow d (row p.1) (gather activations d p.2) p.2.length

/-- The rows are of tokens there are. -/
def InBatch (n : Nat) (active : List (Active a d)) : Prop := ∀ q ∈ rowsOf active, q.1 < n

theorem gather_length (hact : activations.length = n * d) {rows : List (Nat × α)}
    (hrows : ∀ q ∈ rows, q.1 < n) : (gather activations d rows).length = rows.length * d :=
  length_flatMap_rows fun q hq => length_rowOf hact (hrows q hq)

theorem rowsOut_length (hrow : ∀ ex x, (row ex x).length = d) (p : Active a d) :
    (rowsOut row activations p).length = p.2.length * d :=
  byRow_length (hrow p.1)

theorem flatMap_rowsOut_length (hrow : ∀ ex x, (row ex x).length = d)
    (active : List (Active a d)) :
    (active.flatMap (rowsOut row activations)).length = (rowsOf active).length * d := by
  induction active with
  | nil => exact (Nat.zero_mul d).symm
  | cons p active ih =>
    rw [List.flatMap_cons, List.length_append, ih, rowsOut_length hrow]
    have hrest : rowsOf (p :: active) = p.2 ++ rowsOf active := rfl
    rw [hrest, List.length_append, Nat.add_mul]

/-- What comes after the rows does not matter. -/
theorem byRow_append {x : List α} {n : Nat} (hx : x.length = n * d) (y : List α)
    (g : List α → List α) : byRow d g (x ++ y) n = byRow d g x n := by
  unfold byRow
  refine List.flatMap_congr fun r hr => congrArg g ?_
  have hle : (r + 1) * d ≤ n * d := Nat.mul_le_mul_right d (List.mem_range.mp hr)
  rw [Nat.succ_mul] at hle
  unfold rowOf
  rw [List.drop_append_of_le_length (by omega), List.take_append_of_le_length]
  rw [List.length_drop]
  omega

/-- Each expert finds its own rows at its offset. -/
theorem withOffsets_flatMap (hact : activations.length = n * d) {part : List (Active a d)}
    (hin : InBatch n part) {x tail : List α} {off : Nat}
    (hx : x.drop (off * d) = gather activations d (rowsOf part) ++ tail) :
    ((withOffsets off part).flatMap fun (ex, off, n) => byRow d (row ex) (x.drop (off * d)) n)
      = part.flatMap (rowsOut row activations) := by
  induction part generalizing off with
  | nil => rfl
  | cons p part ih =>
    obtain ⟨ex, rows⟩ := p
    have hin' : ∀ q ∈ rows, q.1 < n := fun q hq => hin q (List.mem_append_left _ hq)
    have hlen := gather_length hact hin'
    have hrest : rowsOf ((ex, rows) :: part) = rows ++ rowsOf part := rfl
    rw [hrest, gather, List.flatMap_append, List.append_assoc] at hx
    have hnext : x.drop ((off + rows.length) * d) = gather activations d (rowsOf part) ++ tail := by
      rw [Nat.add_mul, ← List.drop_drop, hx, ← hlen]
      exact List.drop_left
    rw [withOffsets, List.flatMap_cons, List.flatMap_cons,
      ih (fun q hq => hin q (List.mem_append_right _ hq)) hnext]
    congr 1
    dsimp only
    rw [hx]
    exact byRow_append hlen _ _

theorem groupKernel_eq (hact : activations.length = n * d) {part : List (Active a d)}
    (hin : InBatch n part) :
    groupKernel row part (gather activations d (rowsOf part))
      = part.flatMap (rowsOut row activations) :=
  withOffsets_flatMap hact hin (show _ = _ ++ [] by
    rw [Nat.zero_mul, List.drop_zero, List.append_nil])

theorem writeAt_append {before ys after : List α} {old : List α} (hold : old.length = ys.length) :
    writeAt (before ++ (old ++ after)) before.length ys = before ++ ys ++ after := by
  unfold writeAt
  rw [List.take_left, ← hold, ← List.drop_drop, List.drop_left, List.drop_left]

/-- **The chunks cover every row once.** After some rows, whose results stand in `y_all`,
the loop leaves there the results of the rest as well, whatever stood there before. -/
theorem runChunks_spec (hact : activations.length = n * d)
    (hrow : ∀ ex x, (row ex x).length = d) (calls : Nat → Gpu.Outcome)
    {parts : List (List (Active a d))} (hin : InBatch n parts.flatten)
    {xBefore before rest : List α}
    {k done : Nat} (hx : xBefore.length = done * d) (hbefore : before.length = done * d)
    (hrest : rest.length = (rowsOf parts.flatten).length * d) {yAll : List α}
    (h : runChunks row calls (xBefore ++ gather activations d (rowsOf parts.flatten)) k done parts
      (before ++ rest) = (true, yAll)) :
    yAll = before ++ parts.flatten.flatMap (rowsOut row activations) := by
  induction parts generalizing k done xBefore before rest with
  | nil =>
    have hnil : rest = [] := List.length_eq_zero_iff.mp (hrest.trans (Nat.zero_mul d))
    rw [hnil] at h
    cases h
    rfl
  | cons part parts ih =>
    rw [runChunks] at h
    split at h
    next =>
      have hsplit : rowsOf (part :: parts).flatten = rowsOf part ++ rowsOf parts.flatten :=
        List.flatMap_append
      have hinPart : InBatch n part := fun q hq => hin q (hsplit ▸ List.mem_append_left _ hq)
      have hlenPart := gather_length hact hinPart
      have hgather : gather activations d (rowsOf (part :: parts).flatten)
          = gather activations d (rowsOf part) ++ gather activations d (rowsOf parts.flatten) := by
        rw [hsplit]
        exact List.flatMap_append
      -- the window of the chunk is its gathered rows
      have hwindow : ((xBefore ++ gather activations d (rowsOf (part :: parts).flatten)).drop
            (done * d)).take ((rowsOf part).length * d)
          = gather activations d (rowsOf part) := by
        rw [← hx, List.drop_left, hgather, ← hlenPart, List.take_left]
      have hout : groupKernel row part (gather activations d (rowsOf part))
          = part.flatMap (rowsOut row activations) := groupKernel_eq hact hinPart
      have houtLen : (part.flatMap (rowsOut row activations)).length
          = (rowsOf part).length * d := flatMap_rowsOut_length hrow part
      rw [hsplit, List.length_append, Nat.add_mul] at hrest
      have hold : (rest.take ((rowsOf part).length * d)).length
          = (part.flatMap (rowsOut row activations)).length := by
        rw [List.length_take, houtLen]
        omega
      rw [hwindow, hout, ← hbefore, ← List.take_append_drop ((rowsOf part).length * d) rest,
        writeAt_append hold, hgather, ← List.append_assoc] at h
      have hdone : (done + (rowsOf part).length) * d
          = done * d + (rowsOf part).length * d := Nat.add_mul ..
      have hall := ih (fun q hq => hin q (hsplit ▸ List.mem_append_right _ hq))
        (by rw [List.length_append, hx, hlenPart, hdone])
        (by rw [List.length_append, hbefore, houtLen, hdone])
        (by rw [List.length_drop]; omega) h
      rw [hall, List.append_assoc, List.flatten_cons, List.flatMap_append]
    next => cases h

theorem runChunks_ran (row : Expert a d → List α → List α) (calls : Nat → Gpu.Outcome)
    (hcalls : ∀ k, calls k = .ran) (xAll : List α)
    (k done : Nat) (parts : List (List (Active a d))) (yAll : List α) :
    (runChunks row calls xAll k done parts yAll).1 = true := by
  induction parts generalizing k done yAll with
  | nil => rfl
  | cons part parts ih =>
    rw [runChunks, hcalls k]
    exact ih _ _ _

theorem dot_down_length {dec : Decode α} (ex : Expert a d) (x : List α) :
    ((dec.tensor ex.down).dot x).length = d := by
  rw [(dec.tensor ex.down).dot_length, dec.o_eq, ex.down_o]

theorem packedChunk_pos {dev : Device} {sw : Switches} {active : List (Active a d)}
    {chunk : Nat} (h : packedChunk dev sw active = some chunk) :
    0 < chunk := by
  unfold packedChunk at h
  dsimp only at h
  split at h
  · split at h
    · cases h
    next hfits =>
      cases h
      exact Nat.lt_min.mpr ⟨Nat.lt_of_lt_of_le Nat.one_pos (Nat.le_max_right ..),
        Nat.pos_of_ne_zero hfits⟩
  · cases h
    exact Nat.lt_of_lt_of_le Nat.one_pos (Nat.le_max_right ..)

/-- One row for all: each expert's only row is of the token. -/
theorem oneToken_rows {active : List (Active a d)} {t : Nat} (h : oneToken active = some t)
    {p : Active a d} (hp : p ∈ active) :
    ∃ w, p.2 = [(t, w)] := by
  unfold oneToken at h
  split at h
  next ex t' w rows rest =>
    split at h
    next hall =>
      cases h
      have hone : p.2.map Prod.fst = [t] := by
        have hq := List.all_eq_true.mp hall p hp
        exact beq_iff_eq.mp hq
      obtain ⟨q, hq, ht⟩ := List.map_eq_singleton_iff.mp hone
      exact ⟨q.2, by rw [hq, ← ht]⟩
    next => cases h
  next => cases h

/-- An attempt that was not declined passed its tests, or there was nothing to do. -/
theorem takes_of_guarded {active : List (Active a d)} {out : List α} {empty takes : Bool}
    {r : Bool × List α}
    (h : (if empty && active.isEmpty then (true, out) else if takes then r else (false, out)).1
      = true) : active = [] ∨ takes = true := by
  split at h
  next hnil =>
    rw [Bool.and_eq_true, List.isEmpty_iff] at hnil
    exact Or.inl hnil.2
  next =>
    split at h
    next htakes => exact Or.inr htakes
    next => cases h

theorem attempt_isSome {p : Path} {r : Bool × List α} (h : r.1 = true) :
    (attempt p r).1 = some p := by
  rw [attempt, h]
  rfl

/-- All experts have the one format, so not all have another. -/
theorem all_fmt_ne {active : List (Active a d)} (hne : active ≠ [])
    {fmt fmt' : Int} (hfmt : fmt ≠ fmt')
    (h : (active.all fun p => p.1.up.fmtCode == fmt) = true) :
    (active.all fun p => p.1.up.fmtCode == fmt') = false := by
  obtain ⟨p, hp⟩ := List.exists_mem_of_ne_nil active hne
  have heq := beq_iff_eq.mp (List.all_eq_true.mp h p hp)
  rw [List.all_eq_false]
  refine ⟨p, hp, ?_⟩
  rw [heq]
  simpa using hfmt

/-- The routed experts are those of the model. -/
def routed (model : Nat → Nat → Expert a d) (layer : Nat) (per : List (Nat × List (Nat × α))) :
    List (Active a d) :=
  per.map fun p => (model layer p.1, p.2)

theorem activeOf_ok {provider : Provider (Expert a d)} {model : Nat → Nat → Expert a d}
    {layer : Nat} {active : List (Active a d)} (hserves : Serves provider model)
    {per : List (Nat × List (Nat × α))}
    (h : activeOf provider layer per = .ok active) : active = routed model layer per := by
  induction per generalizing active with
  | nil =>
    cases h
    rfl
  | cons p per ih =>
    obtain ⟨e, rows⟩ := p
    rw [activeOf] at h
    split at h
    next => cases h
    next ex hex =>
      split at h
      next => cases h
      next active' hrest =>
        cases h
        rw [ih hrest, hserves _ _ _ hex]
        rfl

theorem routed_inBatch {model : Nat → Nat → Expert a d} {layer : Nat}
    {per : List (Nat × List (Nat × α))}
    (hper : ∀ p ∈ per, ∀ q ∈ p.2, q.1 < n) : InBatch n (routed model layer per) := by
  intro q hq
  obtain ⟨p, hp, hqp⟩ := List.mem_flatMap.mp hq
  obtain ⟨p', hp', rfl⟩ := List.mem_map.mp hp
  exact hper p' hp' q hqp

theorem mxfp4Wanted_of_fmt {sw : Switches} {active : List (Active a d)} (hne : active ≠ [])
    {fmt : Int} (hfmt : fmt ≠ 6) (h : (active.all fun p => p.1.up.fmtCode == fmt) = true) :
    mxfp4Wanted sw active = false := by
  rw [mxfp4Wanted, all_fmt_ne hne hfmt h, Bool.and_false]

theorem nvfp4Short_of_fmt {sw : Switches} {active : List (Active a d)} (hne : active ≠ [])
    {fmt : Int} (hfmt : fmt ≠ 5) (h : (active.all fun p => p.1.up.fmtCode == fmt) = true) :
    nvfp4Short sw active = false := by
  rw [nvfp4Short, all_fmt_ne hne hfmt h, Bool.and_false, Bool.false_and]

theorem fp8Takes_fmt {dev : Device} {active : List (Active a d)} (h : fp8Takes dev active = true) :
    (active.all fun p => p.1.up.fmtCode == 4) = true := by
  rw [fp8Takes, Bool.and_eq_true, List.all_eq_true] at h
  rw [List.all_eq_true]
  intro p hp
  have hfits := h.2 p hp
  rw [fp8Fits, Bool.and_eq_true, Bool.and_eq_true, Bool.and_eq_true] at hfits
  exact hfits.1.2

end

/-! ## Scattering runs of rows -/

section

variable {α : Type} [Zero α] [Add α] [Mul α] {a : ActCfg α} {d : Nat}
  {row : Expert a d → List α → List α} {activations : List α} {n : Nat}

/-- Scattering looks only at the rows it scatters. -/
theorem scatter_congr {hh hh' : List α} {rows : List (Nat × α)} {r r' : Nat}
    (h : ∀ k < rows.length, ∀ dd < d,
      hh.getD ((r + k) * d + dd) 0 = hh'.getD ((r' + k) * d + dd) 0) (out : List α) :
    scatter d hh r rows out = scatter d hh' r' rows out := by
  induction rows generalizing r r' out with
  | nil => rfl
  | cons p rows ih =>
    obtain ⟨t, w⟩ := p
    have hhead : scatterRow d t w (fun dd => hh.getD (r * d + dd) 0) out
        = scatterRow d t w (fun dd => hh'.getD (r' * d + dd) 0) out := by
      unfold scatterRow
      congr 1
      funext i v
      split
      next hi =>
        have h0 := h 0 (Nat.succ_pos _) (i - t * d) (by omega)
        rw [Nat.add_zero, Nat.add_zero] at h0
        exact congrArg (fun y => v + w * y) h0
      next => rfl
    rw [scatter, scatter, hhead]
    refine ih (fun k hk dd hdd => ?_) _
    rw [Nat.add_right_comm r 1 k, Nat.add_right_comm r' 1 k]
    exact h (k + 1) (Nat.succ_lt_succ hk) dd hdd

theorem scatter_rows_append (hh : List α) (r : Nat) (rows rows' : List (Nat × α)) (out : List α) :
    scatter d hh r (rows ++ rows') out
      = scatter d hh (r + rows.length) rows' (scatter d hh r rows out) := by
  induction rows generalizing r out with
  | nil => rfl
  | cons p rows ih =>
    rw [List.cons_append, scatter, ih, List.length_cons, scatter, Nat.add_right_comm, Nat.add_assoc]

/-- Two runs of rows, one after the other. -/
theorem scatter_append {hh hh' : List α} {rows rows' : List (Nat × α)}
    (hlen : hh.length = rows.length * d) (out : List α) :
    scatter d (hh ++ hh') 0 (rows ++ rows') out
      = scatter d hh' 0 rows' (scatter d hh 0 rows out) := by
  rw [scatter_rows_append]
  have hfirst : scatter d (hh ++ hh') 0 rows out = scatter d hh 0 rows out := by
    refine scatter_congr (fun k hk dd hdd => ?_) out
    rw [List.getD_append _ _ _ _ ?_]
    rw [hlen, Nat.zero_add]
    calc k * d + dd < k * d + d := Nat.add_lt_add_left hdd _
      _ = (k + 1) * d := (Nat.succ_mul k d).symm
      _ ≤ rows.length * d := Nat.mul_le_mul_right d hk
  rw [hfirst]
  refine scatter_congr (fun k _ dd _ => ?_) _
  have hshift : (0 + rows.length + k) * d + dd = hh.length + ((0 + k) * d + dd) := by
    rw [hlen, Nat.zero_add, Nat.zero_add, Nat.add_mul, Nat.add_assoc]
  rw [hshift, List.getD_append_right _ _ _ _ (Nat.le_add_right _ _), Nat.add_sub_cancel_left]

/-- Expert by expert: its rows are computed and scattered. -/
def applied (row : Expert a d → List α → List α) (activations : List α)
    (active : List (Active a d)) (out : List α) : List α :=
  active.foldl (fun out p => scatter d (rowsOut row activations p) 0 p.2 out) out

/-- Scattering all rows at once is scattering expert by expert. -/
theorem scatter_flatMap (hrow : ∀ ex x, (row ex x).length = d) (active : List (Active a d))
    (out : List α) :
    scatter d (active.flatMap (rowsOut row activations)) 0 (rowsOf active) out
      = applied row activations active out := by
  induction active generalizing out with
  | nil => rfl
  | cons p active ih =>
    have hrest : rowsOf (p :: active) = p.2 ++ rowsOf active := rfl
    rw [List.flatMap_cons, hrest, scatter_append (rowsOut_length hrow p), ih]
    rfl

/-- What a grouped path may do: leave the buffer alone, or add what the experts add. -/
def Tried (row : Expert a d → List α → List α) (activations : List α)
    (active : List (Active a d)) (out : List α) (r : Bool × List α) : Prop :=
  r = (false, out) ∨ r = (true, applied row activations active out)

theorem tried_nil (row : Expert a d → List α → List α) (out : List α) :
    Tried row activations [] out (true, out) := Or.inr rfl

theorem applied_congr {row row' : Expert a d → List α → List α} (h : ∀ ex, row ex = row' ex)
    (activations : List α)
    (active : List (Active a d)) (out : List α) :
    applied row activations active out = applied row' activations active out := by
  have hrow : row = row' := funext h
  rw [hrow]

/-- An attempt behind its tests. -/
theorem tried_guarded {active : List (Active a d)} {out : List α} {empty takes : Bool}
    {r : Bool × List α} (h : takes = true → Tried row activations active out r) :
    Tried row activations active out
      (if empty && active.isEmpty then (true, out) else if takes then r else (false, out)) := by
  split
  next hnil =>
    rw [Bool.and_eq_true, List.isEmpty_iff] at hnil
    rw [hnil.2]
    exact tried_nil _ _
  next =>
    split
    next htakes => exact h htakes
    next => exact Or.inl rfl

omit [Add α] [Mul α] in
theorem fit_length (n : Nat) (scratch : List α) : (fit n scratch).length = n := by
  unfold fit
  rw [List.length_take, List.length_append, List.length_replicate]
  omega

/-- **A group** leaves the buffer alone or adds what its experts add, whatever the chunk
and the scratch. -/
theorem groupRun_spec (hact : activations.length = n * d) (hrow : ∀ ex x, (row ex x).length = d)
    {chunk : Nat} (hchunk : 0 < chunk) (calls : Nat → Gpu.Outcome) (scratch : List α)
    {active : List (Active a d)} (hin : InBatch n active) (out : List α) :
    Tried row activations active out
      (groupRun row chunk calls scratch active activations out) := by
  have hflat := flatten_chunks hchunk active
  unfold groupRun
  dsimp only
  split
  next yAll hrun =>
    right
    rw [← hflat] at hin hrun
    have hnone : ([] : List α).length = 0 * d := (Nat.zero_mul d).symm
    have hspec : yAll = [] ++ (chunks chunk active).flatten.flatMap (rowsOut row activations) :=
      runChunks_spec hact hrow calls hin hnone hnone (fit_length _ scratch) (by
        rw [hflat] at hrun ⊢
        exact hrun)
    rw [hspec, List.nil_append, hflat, scatter_flatMap hrow]
  next => exact Or.inl rfl

theorem groupRun_ran (chunk : Nat) (calls : Nat → Gpu.Outcome) (hcalls : ∀ k, calls k = .ran)
    (scratch : List α) (active : List (Active a d)) (activations out : List α) :
    (groupRun row chunk calls scratch active activations out).1 = true := by
  have hran := runChunks_ran row calls hcalls
    (gather activations d (rowsOf active)) 0 0 (chunks chunk active)
    (fit ((rowsOf active).length * d) scratch)
  unfold groupRun
  dsimp only
  split
  next => rfl
  next heq =>
    rw [heq] at hran
    cases hran

end

/-! ## Activations -/

section

variable {α : Type} [Field α] [LinearOrder α] {a : ActCfg α} {d : Nat} {f : Scalar α}
  {dec : Decode α}

theorem swigluRow_length (ex : Expert a d) (x : List α) : (swigluRow f dec ex x).length = d :=
  dot_down_length ex _

theorem relu2Row_length (ex : Expert a d) (x : List α) : (relu2Row dec ex x).length = d :=
  dot_down_length ex _

/-- The device knows of the activation unless it is ReLU² or situ. -/
theorem swigluRow_eq (hrelu : a.relu2 = false) (hsitu : a.situ = false) (ex : Expert a d) :
    swigluRow f dec ex = ffnRow f dec ex := by
  have hgated : (setActivation a).gated f = a.gated f := by
    funext g u
    unfold ActCfg.gated setActivation
    rw [hsitu]
  funext x
  unfold swigluRow ffnRow Ffn.row
  rw [hrelu, hgated]
  rfl

theorem situRow_eq (hrelu : a.relu2 = false) (hsitu : a.situ = true) (ex : Expert a d) :
    situRow f dec ex = ffnRow f dec ex := by
  have hgated : (fun g u => f.situ g u a.situBeta a.situLinearBeta) = a.gated f := by
    funext g u
    unfold ActCfg.gated
    rw [if_pos hsitu]
  funext x
  unfold situRow ffnRow Ffn.row
  rw [hrelu, hgated]
  rfl

theorem relu2Row_eq (hrelu : a.relu2 = true) (ex : Expert a d) :
    relu2Row dec ex = ffnRow f dec ex := by
  funext x
  unfold relu2Row ffnRow Ffn.row
  rw [if_pos hrelu]
  rfl

/-- **One expert**: whatever the calls come to, `ffn` computes the installed activation. -/
theorem ffn_eq (dev : Device) (calls : Gpu.Outcome × Gpu.Outcome) (ex : Expert a d) {x : List α}
    {nr : Nat} (hx : x.length = nr * d) :
    ffn f dec dev calls ex x nr = some (byRow d (ffnRow f dec ex) x nr) := by
  have hcpu : ffnOnCpu f dec ex x nr = some (byRow d (ffnRow f dec ex) x nr) :=
    ffnCpu_eq f (dec.ffn ex) hx
  unfold ffn
  cases hrelu : a.relu2 with
  | true =>
    rw [if_pos rfl, relu2Row_eq (f := f) hrelu, hcpu, ite_self]
  | false =>
    rw [if_neg Bool.false_ne_true]
    cases hsitu : a.situ with
    | true => rw [if_pos rfl, situRow_eq hrelu hsitu, hcpu, ite_self]
    | false =>
      rw [if_neg Bool.false_ne_true, swigluRow_eq hrelu hsitu, hcpu, ite_self, ite_self]

/-! ## The paths -/

variable {dev : Device} {sw : Switches} {pat : Pattern} {active : List (Active a d)}
  {activations out scratch : List α} {n : Nat}

/-- What the int2 path for decoding may have done. -/
theorem int2Decode_tried :
    Tried (swigluRow f dec) activations active out
      (tryExpertGroupInt2Decode f dec dev sw pat active activations out) := by
  unfold tryExpertGroupInt2Decode
  split
  next htakes =>
    dsimp only
    split
    next =>
      right
      unfold int2DecodeTakes at htakes
      simp only [Bool.and_eq_true] at htakes
      obtain ⟨⟨_, htoken⟩, _⟩ := htakes
      obtain ⟨t, ht⟩ := Option.isSome_iff_exists.mp htoken
      rw [ht, Option.getD_some, ← scatter_flatMap swigluRow_length]
      have hy : active.flatMap (fun p => swigluRow f dec p.1 ((activations.drop (t * d)).take d))
          = active.flatMap (rowsOut (swigluRow f dec) activations) := by
        refine List.flatMap_congr fun p hp => ?_
        obtain ⟨w, hw⟩ := oneToken_rows ht hp
        unfold rowsOut
        rw [hw]
        -- one row, gathered, is the row
        simp [byRow, rowOf, gather, List.take_take]
      have hrows : active.map (fun p => (t, (p.2.map Prod.snd).headD 0)) = rowsOf active := by
        unfold rowsOf
        rw [List.map_eq_flatMap]
        refine List.flatMap_congr fun p hp => ?_
        obtain ⟨w, hw⟩ := oneToken_rows ht hp
        rw [hw]
        rfl
      rw [hy, hrows]
    next => exact Or.inl rfl
  next => exact Or.inl rfl

variable (scratch) in
theorem int2Rows_tried (hact : activations.length = n * d) (hin : InBatch n active) :
    Tried (swigluRow f dec) activations active out
      (tryExpertGroupInt2Rows f dec dev sw pat scratch active activations out) := by
  unfold tryExpertGroupInt2Rows
  split
  next => exact groupRun_spec hact swigluRow_length (by decide) _ _ hin _
  next => exact Or.inl rfl

variable (scratch) in
theorem packed_tried (fmt : Int) (hact : activations.length = n * d) (hin : InBatch n active) :
    Tried (swigluRow f dec) activations active out
      (tryExpertGroupPacked f dec dev sw pat fmt scratch active activations out) := by
  refine tried_guarded fun htakes => ?_
  unfold packedTakes at htakes
  rw [Bool.and_eq_true] at htakes
  obtain ⟨chunk, hchunk⟩ := Option.isSome_iff_exists.mp htakes.2
  rw [hchunk]
  exact groupRun_spec hact swigluRow_length (packedChunk_pos hchunk) _ _ hin _

variable (scratch) in
theorem relu2_tried (hact : activations.length = n * d) (hin : InBatch n active) :
    Tried (relu2Row dec) activations active out
      (tryExpertGroupRelu2 dec dev sw pat scratch active activations out) := by
  refine tried_guarded fun _ => ?_
  split
  next =>
    right
    rw [groupKernel_eq hact hin, scatter_flatMap relu2Row_length]
  next => exact groupRun_spec hact relu2Row_length (by decide) _ _ hin _

theorem fp8_tried (hact : activations.length = n * d) (hin : InBatch n active) :
    Tried (swigluRow f dec) activations active out
      (tryExpertGroup f dec dev pat active activations out) :=
  tried_guarded fun _ => groupRun_spec hact swigluRow_length (by decide) _ _ hin _

/-! ## The dispatch -/

variable (f dec) in
/-- What a path's kernel makes of a row. -/
def Path.row : Path → Expert a d → List α → List α
  | .relu2 => relu2Row dec
  | _ => swigluRow f dec

variable (dev sw active) in
/-- The path takes the experts: its arm is reached and its own tests hold. -/
def Path.takes : Path → Bool
  | .int2Decode => (active.all fun p => p.1.up.fmtCode == 3) && int2DecodeTakes dev sw active
  | .int2Rows => (active.all fun p => p.1.up.fmtCode == 3) && int2RowsTakes dev sw active
  | .packed fmt => !a.relu2 &&
      ((fmt == 6 && mxfp4Wanted sw active) || (fmt == 5 && nvfp4Short sw active)) &&
      packedTakes dev sw fmt active
  | .relu2 => a.relu2 && relu2GroupTakes dev sw active
  | .fp8 => !a.relu2 && sw.expertGroup && fp8Takes dev active

variable (a) in
/-- The path's kernel computes the activation. -/
def Path.Computes : Path → Prop
  | .relu2 => a.relu2 = true
  | _ => a.relu2 = false ∧ a.situ = false

theorem Path.row_eq {p : Path} (h : p.Computes a) (ex : Expert a d) :
    p.row f dec ex = ffnRow f dec ex := by
  cases p with
  | relu2 => exact relu2Row_eq h ex
  | int2Decode | int2Rows | packed | fp8 => exact swigluRow_eq h.1 h.2 ex

/-- What an arm does: nothing, or its path's work on experts that its path takes. -/
def Armed (f : Scalar α) (dec : Decode α) (dev : Device) (sw : Switches)
    (active : List (Active a d)) (activations out : List α) (r : Option Path × List α) : Prop :=
  r = (none, out) ∨ ∃ p : Path, r = (some p, applied (p.row f dec) activations active out) ∧
    (active = [] ∨ p.takes dev sw active = true)

theorem armed_attempt {p : Path} {r : Bool × List α}
    (h : Tried (p.row f dec) activations active out r)
    (htakes : r.1 = true → active = [] ∨ p.takes dev sw active = true) :
    Armed f dec dev sw active activations out (attempt p r) := by
  rcases h with rfl | rfl
  · exact Or.inl rfl
  · exact Or.inr ⟨p, rfl, htakes rfl⟩

theorem takes_of_int2Decode
    (h : (tryExpertGroupInt2Decode f dec dev sw pat active activations out).1 = true) :
    int2DecodeTakes dev sw active = true := by
  unfold tryExpertGroupInt2Decode at h
  split at h
  next htakes => exact htakes
  next => cases h

theorem takes_of_int2Rows
    (h : (tryExpertGroupInt2Rows f dec dev sw pat scratch active activations out).1 = true) :
    int2RowsTakes dev sw active = true := by
  unfold tryExpertGroupInt2Rows at h
  split at h
  next htakes => exact htakes
  next => cases h

variable (f dec dev sw pat scratch out) in
/-- The two int2 paths, one after the other. -/
theorem int2_armed (hact : activations.length = n * d) (hin : InBatch n active) :
    Armed f dec dev sw active activations out
      (tryInt2 f dec dev sw pat scratch active activations out) := by
  unfold tryInt2
  split
  next hfmt =>
    rw [Bool.and_eq_true] at hfmt
    have hdecode : Armed f dec dev sw active activations out (attempt .int2Decode
        (tryExpertGroupInt2Decode f dec dev sw pat active activations out)) :=
      armed_attempt int2Decode_tried
        fun h => Or.inr (by rw [Path.takes, hfmt.2, takes_of_int2Decode h]; rfl)
    split
    next p out' heq =>
      rw [heq] at hdecode
      rcases hdecode with h | h
      · cases h
      · exact Or.inr h
    next out' heq =>
      -- declined, so the buffer is as it was
      have hout : out' = out := by
        rw [heq] at hdecode
        rcases hdecode with h | ⟨p, h, _⟩
        · cases h
          rfl
        · cases h
      rw [hout]
      exact armed_attempt (p := .int2Rows) (int2Rows_tried scratch hact hin)
        fun h => Or.inr (by rw [Path.takes, hfmt.2, takes_of_int2Rows h]; rfl)
  next => exact Or.inl rfl

variable (f dec dev sw pat scratch out) in
/-- **The dispatch** does nothing, or the work of a path that takes the experts. -/
theorem tryGrouped_armed (hact : activations.length = n * d) (hin : InBatch n active) :
    Armed f dec dev sw active activations out
      (tryGrouped f dec dev sw pat scratch active activations out) := by
  have hint2 := int2_armed f dec dev sw pat out scratch hact hin
  unfold tryGrouped
  split
  next p out' heq =>
    rw [heq] at hint2
    rcases hint2 with h | h
    · cases h
    · exact Or.inr h
  next out' heq =>
    have hout : out' = out := by
      rw [heq] at hint2
      rcases hint2 with h | ⟨p, h, _⟩
      · cases h
        rfl
      · cases h
    rw [hout]
    cases hrelu : a.relu2 with
    | true =>
      rw [if_pos rfl]
      refine armed_attempt (p := .relu2) (relu2_tried scratch hact hin) fun h => ?_
      rcases takes_of_guarded h with hnil | htakes
      · exact Or.inl hnil
      · exact Or.inr (by rw [Path.takes, hrelu, htakes]; rfl)
    | false =>
      rw [if_neg Bool.false_ne_true]
      split
      next hmx =>
        refine armed_attempt (p := .packed 6) (packed_tried scratch 6 hact hin) fun h => ?_
        rcases takes_of_guarded h with hnil | htakes
        · exact Or.inl hnil
        · exact Or.inr (by rw [Path.takes, hrelu, hmx, htakes]; rfl)
      next =>
        split
        next hnv =>
          refine armed_attempt (p := .packed 5) (packed_tried scratch 5 hact hin) fun h => ?_
          rcases takes_of_guarded h with hnil | htakes
          · exact Or.inl hnil
          · exact Or.inr (by rw [Path.takes, hrelu, hnv, htakes]; rfl)
        next =>
          split
          next hfp8 =>
            refine armed_attempt (p := .fp8) (fp8_tried hact hin) fun h => ?_
            rcases takes_of_guarded h with hnil | htakes
            · exact Or.inl hnil
            · exact Or.inr (by rw [Path.takes, hrelu, hfp8, htakes]; rfl)
          next => exact Or.inl rfl

/-! ## Every call succeeds -/

/-- The pattern in which all calls succeed. -/
def allRan : Pattern :=
  ⟨.ran, fun _ => .ran, fun _ => .ran, .ran, fun _ => .ran, fun _ => .ran, fun _ => (.ran, .ran)⟩

theorem int2Decode_ran (h : int2DecodeTakes dev sw active = true) :
    (tryExpertGroupInt2Decode f dec dev sw allRan active activations out).1 = true := by
  unfold tryExpertGroupInt2Decode
  rw [if_pos h]
  rfl

theorem int2Rows_ran (h : int2RowsTakes dev sw active = true) :
    (tryExpertGroupInt2Rows f dec dev sw allRan scratch active activations out).1 = true := by
  unfold tryExpertGroupInt2Rows
  rw [if_pos h]
  exact groupRun_ran _ _ (fun _ => rfl) _ _ _ _

theorem packed_ran {fmt : Int} (h : packedTakes dev sw fmt active = true) :
    (tryExpertGroupPacked f dec dev sw allRan fmt scratch active activations out).1 = true := by
  unfold tryExpertGroupPacked
  split
  next => rfl
  next => exact groupRun_ran _ _ (fun _ => rfl) _ _ _ _

theorem fp8_ran (h : fp8Takes dev active = true) :
    (tryExpertGroup f dec dev allRan active activations out).1 = true := by
  unfold tryExpertGroup
  split
  next => rfl
  next => exact groupRun_ran _ _ (fun _ => rfl) _ _ _ _

theorem tryInt2_of_fmt (hne : active ≠ []) {fmt : Int} (hfmt : fmt ≠ 3)
    (h : (active.all fun p => p.1.up.fmtCode == fmt) = true) :
    tryInt2 f dec dev sw pat scratch active activations out = (none, out) := by
  unfold tryInt2
  rw [all_fmt_ne hne hfmt h, Bool.and_false]
  rfl

theorem tryGrouped_of_int2 {q : Path}
    (h : (tryInt2 f dec dev sw pat scratch active activations out).1 = some q) :
    (tryGrouped f dec dev sw pat scratch active activations out).1 = some q := by
  unfold tryGrouped
  split
  next p out' heq =>
    rw [heq] at h
    exact h
  next out' heq =>
    rw [heq] at h
    cases h

/-- One of the int2 paths takes int2 experts, if one is ready. -/
theorem tryInt2_ran (hne : active ≠ [])
    (hfmt : (active.all fun p => p.1.up.fmtCode == 3) = true)
    (h : int2DecodeTakes dev sw active = true ∨ int2RowsTakes dev sw active = true) :
    ∃ q : Path, q ≠ .relu2 ∧
      (tryInt2 f dec dev sw allRan scratch active activations out).1 = some q := by
  have harm : (!active.isEmpty && active.all fun p => p.1.up.fmtCode == 3) = true := by
    rw [hfmt, Bool.and_true, Bool.not_eq_true']
    exact List.isEmpty_eq_false_iff.mpr hne
  unfold tryInt2
  rw [if_pos harm]
  split
  next p out' heq =>
    refine ⟨.int2Decode, by decide, ?_⟩
    have hfst := congrArg Prod.fst heq
    unfold attempt at hfst
    dsimp only at hfst
    split at hfst
    · exact hfst.symm
    · cases hfst
  next out' heq =>
    rcases h with hdecode | hrows
    · rw [Prod.ext_iff, attempt_isSome (int2Decode_ran hdecode)] at heq
      cases heq.1
    · exact ⟨.int2Rows, by decide, attempt_isSome (int2Rows_ran hrows)⟩

variable (f dec activations out scratch) in
/-- **A SwiGLU path that takes the experts gets them**, or another does, once every call
succeeds. -/
theorem swiglu_of_takes (hne : active ≠ []) {p : Path} (hp : p ≠ .relu2)
    (htakes : p.takes dev sw active = true) :
    ∃ q : Path, q ≠ .relu2 ∧
      (tryGrouped f dec dev sw allRan scratch active activations out).1 = some q := by
  cases p with
  | relu2 => exact absurd rfl hp
  | int2Decode =>
    rw [Path.takes, Bool.and_eq_true] at htakes
    obtain ⟨q, hq, hsome⟩ := tryInt2_ran hne htakes.1 (Or.inl htakes.2)
    exact ⟨q, hq, tryGrouped_of_int2 hsome⟩
  | int2Rows =>
    rw [Path.takes, Bool.and_eq_true] at htakes
    obtain ⟨q, hq, hsome⟩ := tryInt2_ran hne htakes.1 (Or.inr htakes.2)
    exact ⟨q, hq, tryGrouped_of_int2 hsome⟩
  | packed fmt =>
    simp only [Path.takes, Bool.and_eq_true, Bool.or_eq_true, beq_iff_eq,
      Bool.not_eq_true'] at htakes
    obtain ⟨⟨hrelu, ⟨rfl, harm⟩ | ⟨rfl, harm⟩⟩, hpacked⟩ := htakes
    · have hfmt : (active.all fun p => p.1.up.fmtCode == 6) = true := by
        rw [mxfp4Wanted, Bool.and_eq_true] at harm
        exact harm.2
      refine ⟨.packed 6, by decide, ?_⟩
      unfold tryGrouped
      rw [tryInt2_of_fmt hne (by decide) hfmt]
      dsimp only
      rw [hrelu, if_neg Bool.false_ne_true, if_pos harm]
      exact attempt_isSome (packed_ran hpacked)
    · have hfmt : (active.all fun p => p.1.up.fmtCode == 5) = true := by
        rw [nvfp4Short, Bool.and_eq_true, Bool.and_eq_true] at harm
        exact harm.1.2
      refine ⟨.packed 5, by decide, ?_⟩
      unfold tryGrouped
      rw [tryInt2_of_fmt hne (by decide) hfmt]
      dsimp only
      rw [hrelu, if_neg Bool.false_ne_true, mxfp4Wanted_of_fmt hne (by decide) hfmt,
        if_neg Bool.false_ne_true, if_pos harm]
      exact attempt_isSome (packed_ran hpacked)
  | fp8 =>
    simp only [Path.takes, Bool.and_eq_true, Bool.not_eq_true'] at htakes
    obtain ⟨⟨hrelu, hon⟩, hfp8⟩ := htakes
    have hfmt := fp8Takes_fmt hfp8
    refine ⟨.fp8, by decide, ?_⟩
    unfold tryGrouped
    rw [tryInt2_of_fmt hne (by decide) hfmt]
    dsimp only
    rw [hrelu, if_neg Bool.false_ne_true, mxfp4Wanted_of_fmt hne (by decide) hfmt,
      if_neg Bool.false_ne_true, nvfp4Short_of_fmt hne (by decide) hfmt,
      if_neg Bool.false_ne_true, hon, if_pos rfl]
    exact attempt_isSome (fp8_ran hfp8)

end

/-! ## With the dispatch or without -/

section

variable {α : Type} [Field α] [LinearOrder α] {a : ActCfg α} {d : Nat} {f : Scalar α}
  {dec : Decode α} {dev : Device} {sw : Switches} {pat : Pattern} {active : List (Active a d)}
  {provider : Provider (Expert a d)} {layer : Nat} {activations : List α} {n : Nat}

variable (f dec) in
/-- An expert on a batch of rows: each by itself. -/
def rowwise (ex : Expert a d) (x : List α) (nr : Nat) : List α := byRow d (ffnRow f dec ex) x nr

variable (f dec provider layer activations) in
/-- The experts that are fetched, and what they add, are those of the loop. -/
theorem applyExperts_activeOf (per : List (Nat × List (Nat × α))) (out : List α) :
    applyExperts provider (rowwise f dec) layer activations d per out =
      match activeOf provider layer per with
      | .error err => .error err
      | .ok active => .ok (applied (ffnRow f dec) activations active out) := by
  induction per generalizing out with
  | nil => rfl
  | cons p per ih =>
    obtain ⟨e, rows⟩ := p
    rw [applyExperts, activeOf]
    cases provider.expert layer e with
    | error err => rfl
    | ok ex =>
      dsimp only
      rw [ih]
      cases activeOf provider layer per with
      | error err => rfl
      | ok active => rfl

/-- **The loop over experts**, whatever its calls come to. -/
theorem applyEach_eq (hact : activations.length = n * d) {per : List (Nat × List (Nat × α))}
    (hper : ∀ p ∈ per, ∀ q ∈ p.2, q.1 < n) (k : Nat) (out : List α) :
    applyEach f dec dev pat provider layer activations k per out
      = .ofExcept (applyExperts provider (rowwise f dec) layer activations d per out) := by
  induction per generalizing k out with
  | nil => rfl
  | cons p per ih =>
    obtain ⟨e, rows⟩ := p
    rw [applyEach, applyExperts]
    cases provider.expert layer e with
    | error err => rfl
    | ok ex =>
      dsimp only
      rw [ffn_eq dev (pat.ffn k) ex (gather_length hact (hper _ List.mem_cons_self))]
      exact ih (fun p hp => hper p (List.mem_cons_of_mem _ hp)) _ _

theorem perExpert_inBatch {experts : List Nat} {weights : List α} :
    ∀ p ∈ perExpert experts weights n, ∀ q ∈ p.2, q.1 < n := by
  intro p hp q hq
  rw [perExpert_eq] at hp
  obtain ⟨ei, _, rfl⟩ := List.mem_map.mp (List.mem_of_mem_filter hp)
  exact (mem_expertRows.mp hq).1

/-- A token's entry of an expert's column is its weight. -/
theorem sum_expertRows (weights : List α) (ne ei t : Nat) (c : α) (n : Nat) :
    ((expertRows weights ne n ei).map (fun p => if p.1 = t then p.2 * c else 0)).sum
      = if t < n then weights.getD (t * ne + ei) 0 * c else 0 := by
  induction n with
  | zero => rfl
  | succ n ih =>
    -- the token itself is left out if its weight is zero, and then adds nothing either
    have hlast : (([n].filterMap fun t' =>
          let w := weights.getD (t' * ne + ei) 0
          if w ≠ 0 then some (t', w) else none).map
            (fun p : Nat × α => if p.1 = t then p.2 * c else 0)).sum
        = if n = t then weights.getD (n * ne + ei) 0 * c else 0 := by
      rw [List.filterMap_cons, List.filterMap_nil]
      dsimp only
      generalize weights.getD (n * ne + ei) 0 = w
      by_cases hw : w = 0
      · simp [hw]
      · simp [hw]
    unfold expertRows at ih ⊢
    rw [List.range_succ, List.filterMap_append, List.map_append, List.sum_append, ih, hlast]
    rcases Nat.lt_trichotomy t n with hlt | rfl | hlt
    · rw [if_pos hlt, if_neg (Nat.ne_of_gt hlt), if_pos (Nat.lt_succ_of_lt hlt), add_zero]
    · rw [if_neg (Nat.lt_irrefl t), if_pos rfl, if_pos (Nat.lt_succ_self t), zero_add]
    · rw [if_neg (Nat.lt_asymm hlt), if_neg (Nat.ne_of_lt hlt), if_neg (by omega), add_zero]

/-- Each token's row has been added to: the sum over its experts, weighted. -/
def Adds (f : Scalar α) (dec : Decode α) (model : Nat → Nat → Expert a d) (layer : Nat)
    (experts : List Nat) (weights activations : List α) (n : Nat) (out out' : List α) : Prop :=
  out'.length = out.length ∧ ∀ t < n, ∀ dd < d,
    out'.getD (t * d + dd) 0 = out.getD (t * d + dd) 0 +
      ((List.range experts.length).map fun ei => weights.getD (t * experts.length + ei) 0 *
        (ffnRow f dec (model layer (experts.getD ei 0)) (rowOf d activations t)).getD dd 0).sum

variable {model : Nat → Nat → Expert a d} {experts : List Nat} {weights : List α}
  {out out' : List α}

/-- What the loop over experts adds is what the model's experts compute. -/
theorem adds_of_loop (hserves : Serves provider model) (hact : activations.length = n * d)
    (hout : out.length = n * d)
    (h : Moe.computeExpertsPartialInto provider (rowwise f dec) layer experts weights activations
      n d out = .ok out') :
    Adds f dec model layer experts weights activations n out out' := by
  have hsum := computeExpertsPartialInto_eq hserves h
  refine ⟨by rw [hsum, List.length_mapIdx], fun t ht dd hdd => ?_⟩
  have hi : t * d + dd < out.length := by
    have hle : (t + 1) * d ≤ n * d := Nat.mul_le_mul_right d ht
    rw [Nat.succ_mul] at hle
    omega
  rw [hsum, List.getD_eq_getElem _ _ (by rw [List.length_mapIdx]; exact hi),
    List.getElem_mapIdx, ← List.getD_eq_getElem _ 0 hi, columns, List.map_map]
  refine congrArg (_ + List.sum ·) (List.map_congr_left fun ei _ => ?_)
  have hrow : ∀ (ex : Expert a d) x, (ffnRow f dec ex x).length = d :=
    fun ex x => (dec.ffn ex).row_length f x
  have hrows : ∀ p ∈ expertRows weights experts.length n ei, p.1 < n :=
    fun p hp => (mem_expertRows.mp hp).1
  have hcol := column_byRow hrow (model layer (experts.getD ei 0)) hact hrows (t := t) hdd
  rw [sum_expertRows, if_pos ht] at hcol
  exact hcol

variable (f dec dev sw pat out) in
/-- **What a call comes to.** It ends as the loop does by itself, or a path that takes the
experts has added what its kernel makes of them. -/
theorem run_cases (hserves : Serves provider model) (hact : activations.length = n * d)
    (scratch : List α) :
    let per := perExpert experts weights n
    let run := computeExpertsPartialInto f dec dev sw pat scratch provider layer experts weights
      activations n out
    let loop := Moe.computeExpertsPartialInto provider (rowwise f dec) layer experts weights
      activations n d out
    run = .ofExcept (loop.map (none, ·)) ∨
      ∃ p : Path, (per = [] ∨ p.takes dev sw (routed model layer per) = true) ∧
        loop = .ok (applied (ffnRow f dec) activations (routed model layer per) out) ∧
        run = .ok (some p, applied (p.row f dec) activations (routed model layer per) out) := by
  intro per run loop
  have hper : ∀ p ∈ per, ∀ q ∈ p.2, q.1 < n := perExpert_inBatch
  unfold run loop computeExpertsPartialInto Moe.computeExpertsPartialInto
  split
  next => exact Or.inl rfl
  next =>
    cases provider.prefetch layer experts with
    | error err => exact Or.inl rfl
    | ok u =>
      dsimp only
      rw [applyExperts_activeOf]
      cases hactive : activeOf provider layer per with
      | error err => exact Or.inl rfl
      | ok active =>
        obtain rfl := activeOf_ok hserves hactive
        dsimp only
        rcases tryGrouped_armed f dec dev sw pat out scratch hact (routed_inBatch hper)
          with h | ⟨p, h, htakes⟩
        · rw [h]
          dsimp only
          rw [applyEach_eq hact hper, applyExperts_activeOf, hactive]
          exact Or.inl rfl
        · rw [h]
          refine Or.inr ⟨p, htakes.imp_left fun hnil => ?_, rfl, rfl⟩
          exact List.map_eq_nil_iff.mp hnil

omit [Field α] [LinearOrder α] in
/-- A call that ended as the loop did took no path. -/
theorem ended_as_loop {x : Except IoError (List α)} {via : Option Path}
    (h : .ok (via, out') = Batch.Outcome.ofExcept (x.map (none, ·))) :
    via = none ∧ x = .ok out' := by
  cases x with
  | error err => cases h
  | ok out'' =>
    cases h
    exact ⟨rfl, rfl⟩

/-- A dispatch that takes a path ends the call. -/
theorem run_grouped (hserves : Serves provider model)
    (hok : ¬ Refuses provider layer experts weights n) (hper : perExpert experts weights n ≠ [])
    (scratch : List α) {q : Path}
    (h : (tryGrouped f dec dev sw pat scratch
      (routed model layer (perExpert experts weights n)) activations out).1 = some q) :
    ∃ out', computeExpertsPartialInto f dec dev sw pat scratch provider layer experts weights
      activations n out = .ok (some q, out') := by
  have hne : experts ≠ [] := by
    rintro rfl
    exact hper rfl
  unfold computeExpertsPartialInto
  rw [List.isEmpty_eq_false_iff.mpr hne, if_neg Bool.false_ne_true]
  cases hpre : provider.prefetch layer experts with
  | error err => exact absurd ⟨hne, Or.inl ⟨err, hpre⟩⟩ hok
  | ok u =>
    dsimp only
    have hloop := applyExperts_activeOf f dec provider layer activations
      (perExpert experts weights n) out
    cases hactive : activeOf provider layer (perExpert experts weights n) with
    | error err =>
      rw [hactive] at hloop
      exact absurd ⟨hne, Or.inr (applyExperts_error_iff.mp ⟨err, hloop⟩)⟩ hok
    | ok active =>
      obtain rfl := activeOf_ok hserves hactive
      dsimp only
      split
      next q' out' heq =>
        rw [heq] at h
        cases h
        exact ⟨out', rfl⟩
      next heq =>
        rw [heq] at h
        cases h

/-- **The dispatch agrees with the loop**, on a call: however the kernel calls end and
whatever the scratch holds, a call that returns has added the experts' sum, and if a
grouped path did so, its kernel computes the activation. -/
def Agrees (f : Scalar α) (dec : Decode α) (dev : Device) (sw : Switches)
    (provider : Provider (Expert a d)) (model : Nat → Nat → Expert a d) (layer : Nat)
    (experts : List Nat) (weights activations : List α) (n : Nat) (out : List α) : Prop :=
  ∀ (pat : Pattern) (scratch : List α) (via : Option Path) (out' : List α),
    computeExpertsPartialInto f dec dev sw pat scratch provider layer experts weights activations n
        out = .ok (via, out') →
      Adds f dec model layer experts weights activations n out out' ∧
        ∀ p, via = some p → perExpert experts weights n ≠ [] → p.Computes a

/-- The activation is one that the device was told of. -/
def Told (a : ActCfg α) : Prop := a.relu2 = false ∧ a.situ = false

/-- No SwiGLU path takes the routed experts. -/
def Untaken (dev : Device) (sw : Switches) (active : List (Active a d)) : Prop :=
  active ≠ [] → ∀ p : Path, p ≠ .relu2 → p.takes dev sw active = false

omit [Field α] [LinearOrder α] in
/-- A path that takes experts computes their activation, if it was told or there is nothing to
tell. -/
theorem computes_of_takes {p : Path} (hne : active ≠ [])
    (htakes : p.takes dev sw active = true) (h : Told a ∨ Untaken dev sw active) :
    p.Computes a := by
  by_cases hp : p = .relu2
  · subst hp
    rw [Path.takes, Bool.and_eq_true] at htakes
    exact htakes.1
  · rcases h with htold | hno
    · cases p with
      | relu2 => exact absurd rfl hp
      | int2Decode | int2Rows | packed | fp8 => exact htold
    · rw [hno hne p hp] at htakes
      cases htakes

/-- **The grouped dispatch agrees with the loop over experts** exactly where the call
fails, or the device was told of the activation, or no SwiGLU path takes the routed
experts. -/
theorem grouped_agrees (hserves : Serves provider model) (hact : activations.length = n * d)
    (hout : out.length = n * d) :
    Agrees f dec dev sw provider model layer experts weights activations n out ↔
      Refuses provider layer experts weights n ∨ Told a ∨
        Untaken dev sw (routed model layer (perExpert experts weights n)) := by
  have hnil : routed model layer (perExpert experts weights n) = [] ↔
      perExpert experts weights n = [] := List.map_eq_nil_iff
  constructor
  · intro h
    by_contra hno
    obtain ⟨hok, hno⟩ := not_or.mp hno
    obtain ⟨htold, huntaken⟩ := not_or.mp hno
    unfold Untaken at huntaken
    simp only [Classical.not_imp, not_forall, Bool.not_eq_false] at huntaken
    obtain ⟨hne, p, hp, htakes⟩ := huntaken
    -- with every call succeeding, a SwiGLU path does the work
    obtain ⟨q, hq, hsome⟩ := swiglu_of_takes f dec activations out [] hne hp htakes
    have hper := fun he => hne (hnil.mpr he)
    obtain ⟨out', hrun⟩ := run_grouped hserves hok hper [] hsome
    have hcomputes := (h allRan [] (some q) out' hrun).2 q rfl hper
    cases q with
    | relu2 => exact hq rfl
    | int2Decode | int2Rows | packed | fp8 => exact htold hcomputes
  · intro h pat scratch via out' hrun
    rcases run_cases f dec dev sw pat out hserves hact scratch
      with hloop | ⟨p, htakes, hloop, hgroup⟩
    · rw [hrun] at hloop
      obtain ⟨rfl, hok⟩ := ended_as_loop hloop
      exact ⟨adds_of_loop hserves hact hout hok, fun p hp => by cases hp⟩
    · rw [hrun] at hgroup
      cases hgroup
      have hok : ¬ Refuses provider layer experts weights n := fun hrefuses => by
        obtain ⟨err, herr⟩ := computeExpertsPartialInto_error_iff.mpr hrefuses
        rw [herr] at hloop
        cases hloop
      have hcomputes : perExpert experts weights n ≠ [] → p.Computes a := fun hper =>
        computes_of_takes (fun he => hper (hnil.mp he)) (htakes.resolve_left hper)
          (h.resolve_left hok)
      refine ⟨adds_of_loop hserves hact hout ?_, fun q hq hper => ?_⟩
      · rw [hloop]
        refine congrArg Except.ok ?_
        by_cases hper : perExpert experts weights n = []
        · rw [hnil.mpr hper]
          rfl
        · exact applied_congr (fun ex => (Path.row_eq (hcomputes hper) ex).symm) _ _ _
      · cases hq
        exact hcomputes hper

end

/-! ## situ, computed as SiLU -/

/-- The functions of `math`, and `dsv4::swiglu_clamped_one`, on real numbers. -/
noncomputable def real : Scalar ℝ where
  silu x := x / (1 + Real.exp (-x))
  swigluOai gate up alpha limit :=
    let g := min gate limit
    g / (1 + Real.exp (-alpha * g)) * (max (-limit) (min up limit) + 1)
  swigluClampedOne gate up limit :=
    let g := min gate limit
    g / (1 + Real.exp (-g)) * max (-limit) (min up limit)
  situ gate up beta linearBeta :=
    beta * Real.tanh (gate / beta) * (1 / (1 + Real.exp (-gate))) *
      if 0 < linearBeta then linearBeta * Real.tanh (up / linearBeta) else up

/-- Tensors of one column, and of weights 1. -/
def ones : Decode ℝ where
  tensor t := ⟨t.o, t.i, fun row => List.replicate t.o (row.getD 0 0),
    fun _ => List.length_replicate⟩
  o_eq _ := rfl
  i_eq _ := rfl

/-- The activation of Kimi-K3. -/
def kimi : ActCfg ℝ := ⟨false, 0, 0, false, true, 4, 25⟩

/-- The weight 1 in NVFP4, by one row and one column. -/
def one : Gpu.QTensor :=
  let none := Gpu.Buf.mk 0 []
  ⟨5, none, none, ⟨1, [2]⟩, none, ⟨2, [0x38]⟩, 0x3f800000, 1, 1, true⟩

def oneExpert : Expert kimi 1 := ⟨⟨one, one, one⟩, rfl, rfl, rfl, fun _ => rfl, fun _ => rfl⟩

def oneProvider : Provider (Expert kimi 1) := ⟨fun _ _ => .ok oneExpert, fun _ _ => .ok ()⟩

/-- A zero-copy device, and no ledger. -/
def zerocopyDevice : Device := ⟨true, true, none⟩

theorem oneProvider_serves : Serves oneProvider fun _ _ => oneExpert := by
  intro layer e ex h
  cases h
  rfl

/-- No device. -/
def hostOnly : Device := ⟨false, false, none⟩

/-- No grouped path is taken, so the situ activation is computed as it is. -/
theorem grouped_agrees_kimi :
    Agrees real ones hostOnly .default oneProvider (fun _ _ => oneExpert) 0 [0] [1] [100] 1 [0] := by
  have huntaken : Untaken hostOnly .default
      (routed (fun _ _ => oneExpert) 0 (perExpert [0] [(1 : ℝ)] 1)) := by
    have hrouted : routed (fun _ _ => oneExpert) 0 (perExpert [0] [(1 : ℝ)] 1)
        = [(oneExpert, [(0, 1)])] := by
      simp [perExpert, expertRows, routed]
    rw [hrouted]
    intro _ p _
    cases p with
    | packed fmt => exact Bool.and_false _
    | int2Decode | int2Rows | relu2 | fp8 => rfl
  exact (grouped_agrees oneProvider_serves rfl rfl).mpr (.inr (.inr huntaken))

/-- The tanh of situ bounds what SiLU does not. -/
theorem situ_ne_silu : real.situ 100 100 4 25 ≠ real.silu 100 * 100 := by
  have hpos : 0 < 1 / (1 + Real.exp (-100)) := by positivity
  have hgate : Real.tanh (100 / 4) * Real.tanh (100 / 25) < 1 := by
    have h := abs_lt.mp (Real.abs_tanh_lt_one (100 / 4))
    have h' := abs_lt.mp (Real.abs_tanh_lt_one (100 / 25))
    nlinarith
  have hsitu : real.situ 100 100 4 25
      = 1 / (1 + Real.exp (-100)) * (100 * (Real.tanh (100 / 4) * Real.tanh (100 / 25))) := by
    show 4 * Real.tanh (100 / 4) * (1 / (1 + Real.exp (-100))) *
      (if (0 : ℝ) < 25 then 25 * Real.tanh (100 / 25) else 100) = _
    rw [if_pos (by norm_num)]
    ring
  have hsilu : real.silu 100 * 100 = 1 / (1 + Real.exp (-100)) * 10000 := by
    show 100 / (1 + Real.exp (-100)) * 100 = _
    ring
  rw [hsitu, hsilu]
  intro h
  have := mul_left_cancel₀ (ne_of_gt hpos) h
  linarith

theorem swiglu_of_one : applied (swigluRow real ones) [100] [(oneExpert, [(0, 1)])] [0]
    = [real.silu 100 * 100] := by
  simp [applied, rowsOut, byRow, rowOf, gather, scatter, scatterRow, swigluRow, ones, oneExpert,
    one, setActivation, ActCfg.gated, kimi]

theorem ffnRow_of_one : ffnRow real ones oneExpert [100] = [real.situ 100 100 4 25] := by
  simp [ffnRow, Decode.ffn, Ffn.row, ones, oneExpert, one, ActCfg.gated, kimi]

/-- **A situ model with NVFP4 experts**, nothing set and every call succeeding: the grouped
path takes the expert, and what the call adds is its SwiGLU. -/
theorem situ_computed_as_silu :
    ∃ p, p ≠ Path.relu2 ∧
      computeExpertsPartialInto real ones zerocopyDevice .default allRan [] oneProvider 0 [0] [1]
        [100] 1 [0] = .ok (some p, [real.silu 100 * 100]) ∧
      ¬ Adds real ones (fun _ _ => oneExpert) 0 [0] [1] [100] 1 [0] [real.silu 100 * 100] := by
  have hper : perExpert [0] [(1 : ℝ)] 1 = [(0, [(0, 1)])] := by
    simp [perExpert, expertRows]
  have hrouted : routed (fun _ _ => oneExpert) 0 (perExpert [0] [(1 : ℝ)] 1)
      = [(oneExpert, [(0, 1)])] := by
    rw [hper]
    rfl
  have hok : ¬ Refuses oneProvider 0 [0] [(1 : ℝ)] 1 := by
    rintro ⟨_, ⟨_, h⟩ | ⟨_, _, _, h⟩⟩
    · cases h
    · cases h
  have htakes : Path.takes zerocopyDevice .default [(oneExpert, [(0, (1 : ℝ))])] (.packed 5)
      = true := by
    rfl
  obtain ⟨q, hq, hsome⟩ := swiglu_of_takes real ones [100] [0] [] (List.cons_ne_nil _ _)
    (by decide) htakes
  have hne : perExpert [0] [(1 : ℝ)] 1 ≠ [] := by
    rw [hper]
    exact List.cons_ne_nil _ _
  obtain ⟨out', hrun⟩ := run_grouped oneProvider_serves hok hne [] (hrouted ▸ hsome)
  have hswiglu : Path.row real ones q = (swigluRow real ones : Expert kimi 1 → _) := by
    cases q with
    | relu2 => exact absurd rfl hq
    | int2Decode | int2Rows | packed | fp8 => rfl
  refine ⟨q, hq, ?_, fun hadds => ?_⟩
  · have hact : ([100] : List ℝ).length = 1 * 1 := rfl
    rcases run_cases real ones zerocopyDevice .default allRan [0] oneProvider_serves hact []
      with hloop | ⟨p, _, _, hgroup⟩
    · rw [hrun] at hloop
      cases (ended_as_loop hloop).1
    · rw [hrun, hrouted] at hgroup
      cases hgroup
      rw [hrun, hswiglu, swiglu_of_one]
  · have h := hadds.2 0 Nat.one_pos 0 Nat.one_pos
    have hrow : rowOf 1 [(100 : ℝ)] 0 = [100] := rfl
    rw [hrow] at h
    simp only [List.length_singleton, List.range_one, List.map_singleton, List.sum_singleton,
      ffnRow_of_one, List.getD_cons_zero, Nat.zero_mul, one_mul, zero_add] at h
    exact situ_ne_silu h.symm

end Colibri.Moe.Grouped
