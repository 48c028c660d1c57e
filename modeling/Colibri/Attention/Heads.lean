import Colibri.Attention.Mla
import Colibri.Lib.Blocks

/-!
# Attention over a range of heads

`attention_with_heads`, with both of its cores. The projections, the rows written to the
cache and the indexer are those of `attention_with`; the core and the output projection are
for a range of heads only, and the other heads' columns of the context stay zero.

`reconstruct_core` multiplies every cached latent by `kv_b`; `absorb_core` folds rows of
`kv_b` into the query and into the output instead, so it reads the tensor by row. A weight
is therefore a `RowTensor` here: codes, and a factor for each row, which `matmul_qt` takes
once and `qt_row_dequant` for every code.

None is a panic: a slice out of range, an index that underflows, an assertion. Those under
`debug_assert!` are there only where `debug` says so.

`reconstructCore_eq` is what the reconstructing core comes to: within the cache, each query has the
context of its keys, the heads of the range computed and the others zero. `headContext_congr` says
that a context reads the tokens attended to and no others.
-/

namespace Colibri.Attention.Heads

open Colibri.Moe Colibri.Cluster Colibri.Blocks Colibri.Vectors

variable {α S : Type} [Field α] [LinearOrder α]

/-! ## Weights by row -/

/-- A tensor of any resident format: a code for each place and a factor for each row. -/
structure RowTensor (α : Type) where
  o : Nat
  i : Nat
  code : Nat → Nat → α
  factor : Nat → α

/-- What `matmul_qt` makes of a row of activations. -/
def RowTensor.toQTensor (w : RowTensor α) : QTensor α where
  o := w.o
  i := w.i
  dot x := (List.range w.o).map fun r =>
    ((List.range w.i).map fun k => w.code r k * x.getD k 0).sum * w.factor r
  dot_length _ := by rw [List.length_map, List.length_range]

/-- `qt_row_dequant` -/
def RowTensor.rowDequant (w : RowTensor α) (row : Nat) : Option (List α) :=
  if row < w.o then some ((List.range w.i).map fun k => w.code row k * w.factor row) else none

/-- `qt_addrow` -/
def RowTensor.addRow (w : RowTensor α) (row : Nat) (scale : α) (acc : List α) :
    Option (List α) :=
  (w.rowDequant row).map fun r => addInto acc (r.map (scale * ·))

def dotF32 (a b : List α) : α := (List.zipWith (· * ·) a b).sum

/-- `qt_matvec_rows` -/
def RowTensor.matvecRows (w : RowTensor α) (row0 nrows : Nat) (vec : List α) :
    Option (List α) :=
  (List.range nrows).mapM fun d => (w.rowDequant (row0 + d)).map fun r => dotF32 r vec

/-- The tensors of a latent-attention layer, in the shapes `load_layer` asks for. -/
structure HeadWeights (cfg : StackConfig α) extends MlaWeights α where
  kvBRows : RowTensor α
  oRows : RowTensor α
  kvB_eq : kvB = kvBRows.toQTensor
  o_eq : o = oRows.toQTensor
  qA_o : qA.o = asUsize cfg.qLora
  qA_i : qA.i = asUsize cfg.hidden
  qB_o : qB.o = asUsize cfg.nHeads * asUsize cfg.qkHead
  qB_i : qB.i = asUsize cfg.qLora
  kvA_o : kvA.o = asUsize cfg.kvLora + asUsize cfg.qkRope
  kvA_i : kvA.i = asUsize cfg.hidden
  kvB_o : kvBRows.o = asUsize cfg.nHeads * (asUsize cfg.qkNope + asUsize cfg.vHead)
  kvB_i : kvBRows.i = asUsize cfg.kvLora
  o_o : oRows.o = asUsize cfg.hidden
  o_i : oRows.i = asUsize cfg.nHeads * asUsize cfg.vHead
  gate_o : ∀ g, attnGate = some g → g.o = asUsize cfg.nHeads * asUsize cfg.vHead
  gate_i : ∀ g, attnGate = some g → g.i = asUsize cfg.hidden

/-- Every latent row of the cache is as wide as the cache was made for. -/
def Shaped (width : Nat) (kv : KvCache α S) : Prop :=
  ∀ layer pos, (kv.latent layer pos).length = width

/-! ## Ranges of heads -/

/-- `(h_start, h_count)`, within the heads there are. -/
structure HeadRange (n : Nat) where
  start : Nat
  count : Nat
  le : start + count ≤ n

namespace HeadRange

variable {n : Nat}

def full (n : Nat) : HeadRange n := ⟨0, n, Nat.le_of_eq (Nat.zero_add n)⟩

/-- The head is one of the range's. -/
def Covers (hr : HeadRange n) (hh : Nat) : Prop := hr.start ≤ hh ∧ hh < hr.start + hr.count

instance (hr : HeadRange n) (hh : Nat) : Decidable (hr.Covers hh) :=
  inferInstanceAs (Decidable (_ ∧ _))

theorem full_covers {hh : Nat} (h : hh < n) : (full n).Covers hh :=
  ⟨Nat.zero_le hh, by rw [full, Nat.zero_add]; exact h⟩

end HeadRange

/-! ## The reconstructing core -/

/-- All cached positions up to a query's own, less `st0`. -/
def denseKeys (pos st0 : Nat) : Option (List Nat) :=
  if pos + 1 < st0 then none else some (List.range (pos + 1 - st0))

/-- The positions a query attends to: those selected for it, or all where none are. -/
def keysOf (sel : Option (List (List Nat))) (count s posBase st0 tk : Nat) :
    Option (List Nat) :=
  match sel with
  | none => denseKeys (posBase + s) st0
  | some sels => (sels[s]?).bind fun row =>
      if row = [] then denseKeys (posBase + s) st0
      -- with no head to compute, the rows of a position are not looked at
      else if count = 0 ∨ ∀ t ∈ row, st0 ≤ t ∧ t < tk then some (row.map (· - st0))
      else none

/-- The rotary part of a score. -/
def ropePart (cfg : StackConfig α) (head rot : List α) : α :=
  ((List.range (asUsize cfg.qkRope)).map fun i =>
    head.getD (asUsize cfg.qkNope + i) 0 * rot.getD i 0).sum

/-- A head's context, given the rows `kv_b` makes of the latents. -/
def headContext (m : RowMath α) (cfg : StackConfig α) (kvb rot : Nat → List α)
    (qrow : List α) (hh : Nat) (jjs : List Nat) : List α :=
  let nope := asUsize cfg.qkNope
  let headKv := nope + asUsize cfg.vHead
  let head := rowOf (asUsize cfg.qkHead) qrow hh
  let scores := jjs.map fun jj =>
    let kn := ((kvb jj).drop (hh * headKv)).take nope
    ((List.range nope).map fun i => head.getD i 0 * kn.getD i 0).sum + ropePart cfg head (rot jj)
  let weights := m.softmax (scores.map (· * cfg.attnScale))
  (List.range (asUsize cfg.vHead)).map fun i =>
    ((weights.zip jjs).map fun (a, jj) => a * (kvb jj).getD (hh * headKv + nope + i) 0).sum

/-- `reconstruct_core`, for a range of heads. -/
def reconstructCore (m : RowMath α) (cfg : StackConfig α) (l : HeadWeights cfg) (layer : Nat)
    (kv : KvCache α S) (q : List (List α)) (posBase st0 : Nat)
    (sel : Option (List (List Nat))) (hr : HeadRange (asUsize cfg.nHeads)) :
    Option (List (List α)) := do
  let vh := asUsize cfg.vHead
  let tk := posBase + q.length
  if tk < st0 ∨ kv.maxT < tk then none
  else
    let latents := (List.range (tk - st0)).map fun jj => kv.latent layer (st0 + jj)
    let kvb ← matmulRows (asUsize cfg.nHeads * (asUsize cfg.qkNope + vh)) latents l.kvB
    q.zipIdx.mapM fun (qrow, s) =>
      (keysOf sel hr.count s posBase st0 tk).map fun jjs =>
        blocks (asUsize cfg.nHeads) fun hh =>
          if hr.Covers hh then
            headContext m cfg (fun jj => kvb.getD jj []) (fun jj => kv.kRot layer (st0 + jj))
              qrow hh jjs
          else List.replicate vh 0

/-- A context with the columns of the other heads zero. -/
def maskHeads {n : Nat} (hr : HeadRange n) (width : Nat) (row : List α) : List α :=
  blocks n fun hh => if hr.Covers hh then rowOf width row hh else List.replicate width 0

/-! ## The absorbing core -/

/-- A head of `absorb_core`: the key half of `kv_b` goes into the query, the value half
into the output, and in between it is all latents. -/
def absorbHead (m : RowMath α) (cfg : StackConfig α) (w : RowTensor α) (layer : Nat)
    (kv : KvCache α S) (qrow : List α) (pos st0 hh : Nat) : Option (List α) := do
  let nope := asUsize cfg.qkNope
  let vh := asUsize cfg.vHead
  let kvl := asUsize cfg.kvLora
  let rbase := hh * (nope + vh)
  let head := rowOf (asUsize cfg.qkHead) qrow hh
  let qabs ← (List.range nope).foldlM (fun acc d => w.addRow (rbase + d) (head.getD d 0) acc)
    (List.replicate kvl 0)
  if pos + 1 < st0 ∨ kv.maxT ≤ pos then none
  else
    let jjs := List.range (pos + 1 - st0)
    let scores := jjs.map fun jj =>
      let lt := kv.latent layer (st0 + jj)
      ((List.range kvl).map fun i => qabs.getD i 0 * lt.getD i 0).sum
        + ropePart cfg head (kv.kRot layer (st0 + jj))
    let weights := m.softmax (scores.map (· * cfg.attnScale))
    let clat := (weights.zip jjs).foldl (fun acc (a, jj) =>
      addInto acc ((kv.latent layer (st0 + jj)).map (a * ·))) (List.replicate kvl 0)
    w.matvecRows (rbase + nope) vh clat

def absorbCore (m : RowMath α) (cfg : StackConfig α) (l : HeadWeights cfg) (layer : Nat)
    (kv : KvCache α S) (q : List (List α)) (posBase st0 : Nat) : Option (List (List α)) :=
  q.zipIdx.mapM fun (qrow, s) =>
    ((List.range (asUsize cfg.nHeads)).mapM fun hh =>
      absorbHead m cfg l.kvBRows layer kv qrow (posBase + s) st0 hh).map List.flatten

/-! ## The call -/

/-- `AttnCore` -/
inductive AttnCore where
  | reconstruct
  | absorb

/-- The projections: the normalised low-rank query, the query, and what the cache keeps
of each token. -/
def project (m : RowMath α) (cfg : StackConfig α) (l : HeadWeights cfg) (x : List (List α))
    (posBase : Nat) : Option (List (List α) × List (List α) × List (List α)) := do
  let qr ← matmulRows (asUsize cfg.qLora) x l.qA
  let qr := qr.map fun row => m.rmsnorm row l.qALn cfg.eps
  let q ← matmulRows (asUsize cfg.nHeads * asUsize cfg.qkHead) qr l.qB
  let comp ← matmulRows (asUsize cfg.kvLora + asUsize cfg.qkRope) x l.kvA
  let q ← ropeQueries m cfg q posBase
  some (qr, q, comp)

/-- The rows of a chunk, written to the cache one token after another. -/
def writeRows (m : RowMath α) (cfg : StackConfig α) (l : HeadWeights cfg) (layer posBase : Nat)
    (comp : List (List α)) (kv : KvCache α S) : Option (KvCache α S) :=
  comp.zipIdx.foldlM
    (fun kv (row, s) => kv.writeRow m cfg l.toMlaWeights layer (posBase + s) row) kv

/-- The core asked for. `absorb_core` has no selection and no range of heads. -/
def runCore (m : RowMath α) (debug : Bool) (cfg : StackConfig α) (l : HeadWeights cfg)
    (layer : Nat) (kv : KvCache α S) (q : List (List α)) (posBase st0 : Nat) (core : AttnCore)
    (sel : Option (List (List Nat))) (hr : HeadRange (asUsize cfg.nHeads)) :
    Option (List (List α)) :=
  match core with
  | .reconstruct => reconstructCore m cfg l layer kv q posBase st0 sel hr
  | .absorb =>
    if debug ∧ ¬ (hr.start = 0 ∧ hr.count = asUsize cfg.nHeads) then none
    else absorbCore m cfg l layer kv q posBase st0

/-- The part of a call no range of heads changes: the queries, the cache with the chunk's
rows in it, and the selection computed. -/
def prepare (m : RowMath α) (env : DsaEnv) (cfg : StackConfig α) (l : HeadWeights cfg)
    (layer : Nat) (kv : KvCache α S) (x : List (List α)) (posBase : Nat)
    (sel : Option (List (List Nat))) :
    Option (List (List α) × KvCache α S × Option (List (List Nat))) := do
  let (qr, q, comp) ← project m cfg l x posBase
  let kv ← writeRows m cfg l layer posBase comp kv
  let computed ← indexerSelect m env cfg l.toMlaWeights layer x qr posBase (kv.kvStart layer)
    sel.isSome
  some (q, kv, computed)

/-- The output gate and the output projection. -/
def finish (m : RowMath α) (cfg : StackConfig α) (l : HeadWeights cfg) (x ctx : List (List α)) :
    Option (List (List α)) := do
  let ctx ← gateContext m (asUsize cfg.nHeads * asUsize cfg.vHead) l.attnGate x ctx
  matmulRows (asUsize cfg.hidden) ctx l.o

/-- `attention_with_heads`: the partial output of a range of heads, the cache, and the
selection computed. -/
def attentionWithHeads (m : RowMath α) (env : DsaEnv) (debug : Bool) (cfg : StackConfig α)
    (l : HeadWeights cfg) (layer : Nat) (kv : KvCache α S) (x : List (List α)) (posBase : Nat)
    (core : AttnCore) (sel : Option (List (List Nat)))
    (hr : HeadRange (asUsize cfg.nHeads)) :
    Option (List (List α) × KvCache α S × Option (List (List Nat))) :=
  if debug ∧ hr.count = 0 then none
  else do
    let (q, kv, computed) ← prepare m env cfg l layer kv x posBase sel
    let ctx ← runCore m debug cfg l layer kv q posBase (kv.kvStart layer) core
      (sel.or computed) hr
    let out ← finish m cfg l x ctx
    some (out, kv, computed)

/-! ## The reconstructing core, query by query -/

section

variable {m : RowMath α} {cfg : StackConfig α} {l : HeadWeights cfg} {layer : Nat}
  {kv : KvCache α S}

omit [LinearOrder α] in
theorem length_headContext {kvb rot : Nat → List α} {qrow : List α} {hh : Nat}
    {jjs : List Nat} : (headContext m cfg kvb rot qrow hh jjs).length = asUsize cfg.vHead := by
  rw [headContext, List.length_map, List.length_range]

omit [LinearOrder α] in
/-- A context reads the tokens attended to and no others. -/
theorem headContext_congr {kvb kvb' rot rot' : Nat → List α} {qrow : List α} {hh : Nat}
    {jjs : List Nat} (hkvb : ∀ jj ∈ jjs, kvb jj = kvb' jj) (hrot : ∀ jj ∈ jjs, rot jj = rot' jj) :
    headContext m cfg kvb rot qrow hh jjs = headContext m cfg kvb' rot' qrow hh jjs := by
  unfold headContext
  have hscores := List.map_congr_left (l := jjs)
    (f := fun jj => ((List.range (asUsize cfg.qkNope)).map fun i =>
      (rowOf (asUsize cfg.qkHead) qrow hh).getD i 0 * (((kvb jj).drop
        (hh * (asUsize cfg.qkNope + asUsize cfg.vHead))).take (asUsize cfg.qkNope)).getD i 0).sum
        + ropePart cfg (rowOf (asUsize cfg.qkHead) qrow hh) (rot jj))
    (g := fun jj => ((List.range (asUsize cfg.qkNope)).map fun i =>
      (rowOf (asUsize cfg.qkHead) qrow hh).getD i 0 * (((kvb' jj).drop
        (hh * (asUsize cfg.qkNope + asUsize cfg.vHead))).take (asUsize cfg.qkNope)).getD i 0).sum
        + ropePart cfg (rowOf (asUsize cfg.qkHead) qrow hh) (rot' jj))
    fun jj hjj => by rw [hkvb jj hjj, hrot jj hjj]
  simp only [hscores]
  refine List.map_congr_left fun i _ => ?_
  refine congrArg List.sum (List.map_congr_left fun aj haj => ?_)
  rw [hkvb aj.2 (List.of_mem_zip haj).2]

/-- Keys within the tokens there are, where there is a head to read them. -/
theorem keysOf_lt {sel : Option (List (List Nat))} {count s posBase st0 tk : Nat}
    {jjs : List Nat} (h : keysOf sel count s posBase st0 tk = some jjs)
    (hs : posBase + s < tk) (hcount : count ≠ 0) : ∀ jj ∈ jjs, jj < tk - st0 := by
  have hdense : ∀ js, denseKeys (posBase + s) st0 = some js → ∀ jj ∈ js, jj < tk - st0 := by
    intro js hjs jj hjj
    unfold denseKeys at hjs
    split at hjs
    · cases hjs
    · cases hjs
      have := List.mem_range.mp hjj
      omega
  unfold keysOf at h
  split at h
  · exact hdense jjs h
  · obtain ⟨row, _, h⟩ := Option.bind_eq_some_iff.mp h
    split at h
    · exact hdense jjs h
    · split at h
      next hrow =>
        cases h
        intro jj hjj
        obtain ⟨t, ht, rfl⟩ := List.mem_map.mp hjj
        rcases hrow with h0 | hrow
        · exact absurd h0 hcount
        · have := hrow t ht
          omega
      · cases h

/-- What a query attends to, given its keys: the heads of the range, each over the rows
`kv_b` makes of the latents. -/
def queryContext (m : RowMath α) (cfg : StackConfig α) (l : HeadWeights cfg) (layer : Nat)
    (kv : KvCache α S) (st0 : Nat) (hr : HeadRange (asUsize cfg.nHeads)) (qrow : List α)
    (jjs : List Nat) : List α :=
  blocks (asUsize cfg.nHeads) fun hh =>
    if hr.Covers hh then
      headContext m cfg (fun jj => l.kvB.dot (kv.latent layer (st0 + jj)))
        (fun jj => kv.kRot layer (st0 + jj)) qrow hh jjs
    else List.replicate (asUsize cfg.vHead) 0

omit [LinearOrder α] in
/-- **The reconstructing core, query by query**: within the cache, each query has the
context of its keys. -/
theorem reconstructCore_eq (hkv : Shaped (asUsize cfg.kvLora) kv) {q : List (List α)}
    {posBase st0 : Nat} {sel : Option (List (List Nat))} {hr : HeadRange (asUsize cfg.nHeads)}
    (hst : st0 ≤ posBase + q.length) (hmax : posBase + q.length ≤ kv.maxT) :
    reconstructCore m cfg l layer kv q posBase st0 sel hr
      = q.zipIdx.mapM fun (qrow, s) =>
          (keysOf sel hr.count s posBase st0 (posBase + q.length)).map
            (queryContext m cfg l layer kv st0 hr qrow) := by
  have hguard : ¬ (posBase + q.length < st0 ∨ kv.maxT < posBase + q.length) := by omega
  have hmat : matmulRows (asUsize cfg.nHeads * (asUsize cfg.qkNope + asUsize cfg.vHead))
      ((List.range (posBase + q.length - st0)).map fun jj => kv.latent layer (st0 + jj)) l.kvB
      = some (((List.range (posBase + q.length - st0)).map
          fun jj => kv.latent layer (st0 + jj)).map l.kvB.dot) := by
    unfold matmulRows
    refine if_pos ⟨fun row hrow => ?_, fun _ => ?_⟩
    · obtain ⟨jj, _, rfl⟩ := List.mem_map.mp hrow
      rw [l.kvB_eq, hkv]
      exact l.kvB_i.symm
    · rw [l.kvB_eq]
      exact l.kvB_o.symm
  unfold reconstructCore
  simp only [hguard, if_false, hmat, Option.bind_eq_bind, Option.bind_some]
  refine mapM_congr fun (qrow, s) hp => ?_
  have hs : s < q.length := by
    have := (List.mem_zipIdx hp).2.1
    omega
  cases hkeys : keysOf sel hr.count s posBase st0 (posBase + q.length) with
  | none => rfl
  | some jjs =>
    show some _ = some _
    congr 1
    unfold queryContext blocks
    refine congrArg List.flatten (List.map_congr_left fun hh _ => ?_)
    split
    next hcov =>
      have hcount : hr.count ≠ 0 := by
        have := hcov.1
        have := hcov.2
        omega
      refine headContext_congr (fun jj hjj => ?_) fun _ _ => rfl
      have hlt := keysOf_lt hkeys (by omega) hcount jj hjj
      rw [List.map_map, List.getD_eq_getElem?_getD, List.getElem?_map, List.getElem?_range hlt]
      rfl
    · rfl

end

/-! ## A small layer -/

section

omit [LinearOrder α]

/-- A tensor of ones. -/
def onesTensor (o i : Nat) : RowTensor α := ⟨o, i, fun _ _ => 1, fun _ => 1⟩

/-- A layer whose tensors are ones, of the shapes a configuration asks for. -/
def onesWeights (cfg : StackConfig α) : HeadWeights cfg where
  qA := (onesTensor (asUsize cfg.qLora) (asUsize cfg.hidden)).toQTensor
  qALn := []
  qB := (onesTensor (asUsize cfg.nHeads * asUsize cfg.qkHead) (asUsize cfg.qLora)).toQTensor
  kvA := (onesTensor (asUsize cfg.kvLora + asUsize cfg.qkRope) (asUsize cfg.hidden)).toQTensor
  kvALn := []
  kvB := (onesTensor (asUsize cfg.nHeads * (asUsize cfg.qkNope + asUsize cfg.vHead))
    (asUsize cfg.kvLora)).toQTensor
  o := (onesTensor (asUsize cfg.hidden) (asUsize cfg.nHeads * asUsize cfg.vHead)).toQTensor
  attnGate := none
  ix := none
  kvBRows := onesTensor (asUsize cfg.nHeads * (asUsize cfg.qkNope + asUsize cfg.vHead))
    (asUsize cfg.kvLora)
  oRows := onesTensor (asUsize cfg.hidden) (asUsize cfg.nHeads * asUsize cfg.vHead)
  kvB_eq := rfl
  o_eq := rfl
  qA_o := rfl
  qA_i := rfl
  qB_o := rfl
  qB_i := rfl
  kvA_o := rfl
  kvA_i := rfl
  kvB_o := rfl
  kvB_i := rfl
  o_o := rfl
  o_i := rfl
  gate_o := fun _ h => by cases h
  gate_i := fun _ h => by cases h

end

def unscaled (x _w : List ℚ) (_eps : ℚ) : List ℚ := x

theorem length_unscaled (x w : List ℚ) (eps : ℚ) : (unscaled x w eps).length = x.length := rfl

/-- Functions of a row that change nothing, and a softmax of equal scores. -/
def evenMath : RowMath ℚ where
  softmax := fun scores => scores.map fun _ => 1 / scores.length
  sigmoid := id
  silu := id
  swigluOai := fun g u _ _ => g * u
  swigluClampedOne := fun g u _ => g * u
  situ := fun g u _ _ => g * u
  rmsnorm := unscaled
  ropeInterleave := fun v _ _ _ => v
  indexerScore := fun _ _ _ _ => 0
  rmsnorm_length := length_unscaled

/-- Two heads of one dimension and one of rope, over latents of width one. -/
def twoHeads : StackConfig ℚ where
  hidden := 1
  nExperts := 1
  topk := 1
  normTopk := false
  routedScale := 1
  routerScore := .softmax
  arch := .glmMoeDsa
  nLayers := 1
  nHeads := 2
  qLora := 1
  kvLora := 1
  qkNope := 1
  qkRope := 1
  qkHead := 2
  vHead := 1
  nShared := 0
  indexTopk := 0
  indexNh := 0
  indexHd := 0
  idxType := []
  hcMult := 0
  layerKind := []
  mlaNope := false
  eps := 0
  theta := 1
  attnScale := 1

/-- Room for eight tokens, all rows zero. -/
def zeroCache : KvCache ℚ Unit := ⟨8, fun _ => 0, fun _ _ => [0], fun _ _ => [0], ()⟩

theorem zeroCache_shaped : Shaped (asUsize twoHeads.kvLora) zeroCache := fun _ _ => rfl

end Colibri.Attention.Heads
