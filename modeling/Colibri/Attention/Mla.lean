import Mathlib.Data.Rat.Defs
import Colibri.Lib.Vectors
import Colibri.Moe.Route
import Colibri.Moe.Ffn

/-!
# Latent attention

`attention_with` over a chunk of rows: the projections, the rows it writes to the cache,
the indexer's selection and the reconstruction core. Buffers are kept as their rows. None
is a panic: an assertion of `matmul_qt`, a slice out of range, an index that underflows.
The functions of `math.rs` on a row are parameters.

An indexer that fires on a single row panics (`attentionWith_one`): the one context it
can select from is shorter than nothing.

`attentionWith_no_output` is the layer of DeepSeek-V4 that has neither a `kv_b` nor an output
projection: `matmul_qt` asserts a shape there, and the call panics on any row.
-/

namespace Colibri.Attention

open Colibri.Moe Colibri.Vectors

/-- The rows' functions of `math.rs`, and the indexer's score of a key by a query. -/
structure RowMath (α : Type) extends Scoring α, Scalar α where
  rmsnorm : List α → List α → α → List α
  ropeInterleave : List α → Nat → Nat → α → List α
  indexerScore : List (List α) → List (List α) → Nat → Nat → α
  rmsnorm_length : ∀ x w eps, (rmsnorm x w eps).length = x.length

/-- The configuration a layer reads. -/
structure StackConfig (α : Type) extends MoeConfig α where
  arch : Arch
  nLayers : Int
  nHeads : Int
  qLora : Int
  kvLora : Int
  qkNope : Int
  qkRope : Int
  qkHead : Int
  vHead : Int
  nShared : Int
  indexTopk : Int
  indexNh : Int
  indexHd : Int
  idxType : List Bool
  hcMult : Int
  layerKind : List LayerKind
  mlaNope : Bool
  eps : α
  theta : α
  attnScale : α

/-- `COLI_DSA` and `COLI_DSA_MIN`. -/
structure DsaEnv where
  dsaEnabled : Bool
  dsaMinPrefill : Nat

/-- The tensors of the lightning indexer. -/
structure IndexerWeights (α : Type) where
  wk : QTensor α
  wq : QTensor α
  wp : QTensor α

/-- The tensors `attention_with` reads. -/
structure MlaWeights (α : Type) where
  qA : QTensor α
  qALn : List α
  qB : QTensor α
  kvA : QTensor α
  kvALn : List α
  kvB : QTensor α
  o : QTensor α
  attnGate : Option (QTensor α)
  ix : Option (IndexerWeights α)

/-- A cache: the latent and rope-key rows of every layer, and what the other attention
families keep. -/
structure KvCache (α S : Type) where
  maxT : Nat
  kvStart : Nat → Nat
  latent : Nat → Nat → List α
  kRot : Nat → Nat → List α
  other : S

section

variable {α S : Type} [Field α] [LinearOrder α]

/-- `matmul_qt` on rows, into rows of length `o`. -/
def matmulRows (o : Nat) (x : List (List α)) (w : QTensor α) : Option (List (List α)) :=
  if (∀ row ∈ x, row.length = w.i) ∧ (x ≠ [] → o = w.o) then some (x.map w.dot) else none

/-- `select_topk`: the scores above the `keep`-th largest, then those equal to it. -/
def selectTopk (scores : List α) (indexTopk : Nat) : Option (List Nat) :=
  let nk := scores.length
  if nk = 0 then some []
  else
    let keep := min nk indexTopk
    if keep = nk then some (List.range nk)
    else if keep = 0 then none
    else
      let thr := (scores.mergeSort (fun a b => decide (b ≤ a))).getD (keep - 1) 0
      let above := (List.range nk).filter fun t => decide (thr < scores.getD t 0)
      let equal := (List.range nk).filter fun t => decide (scores.getD t 0 = thr)
      some (((above ++ equal).take keep).mergeSort)

def isDense (nk indexTopk : Nat) : Bool := decide (nk ≤ indexTopk)

/-- The entries of a row `rope_interleave` can take a snapshot of. -/
def ropeScratch : Nat := 512

/-- The rotation of the indexer's keys: what it does to them is part of `indexerScore`, the
snapshot it takes of each is not. -/
def ropeKeys (cfg : StackConfig α) (keys : List (List α)) : Option (List (List α)) :=
  if keys ≠ [] ∧ ropeScratch < min (asUsize cfg.qkRope) (asUsize cfg.indexHd) then none
  else some keys

/-- `indexer_forward`: a selection for every row, empty where attention is dense. -/
def indexerForward (m : RowMath α) (cfg : StackConfig α) (w : IndexerWeights α)
    (x qr : List (List α)) (posBase : Nat) : Option (List (List Nat)) := do
  let topk := asUsize cfg.indexTopk
  let keys ← matmulRows (asUsize cfg.indexHd) x w.wk
  let keys ← ropeKeys cfg keys
  -- only the queries past the dense ones are projected
  let s0 := min (topk - posBase) x.length
  let qi ← matmulRows (asUsize cfg.indexNh * asUsize cfg.indexHd) (qr.drop s0) w.wq
  let _ ← matmulRows (asUsize cfg.indexNh) (x.drop s0) w.wp
  (List.range x.length).mapM fun s =>
    let nk := posBase + s + 1
    if isDense nk topk then some []
    else selectTopk ((List.range nk).map (m.indexerScore keys qi s)) topk

def indexerSelect (m : RowMath α) (env : DsaEnv) (cfg : StackConfig α) (l : MlaWeights α)
    (layer : Nat) (x qr : List (List α)) (posBase st0 : Nat) (haveSel : Bool) :
    Option (Option (List (List Nat))) :=
  match l.ix with
  | none => some none
  | some w =>
    if haveSel ∨ st0 ≠ 0 ∨ posBase ≠ 0 ∨ cfg.idxType.getD layer false = false ∨
        posBase + x.length ≤ asUsize cfg.indexTopk ∨ posBase + x.length < env.dsaMinPrefill ∨
        env.dsaEnabled = false then
      some none
    else (indexerForward m cfg w x qr posBase).map some

/-- `rope_interleave` on a row of length `qkRope`: a longer one does not fit the snapshot. -/
def ropeRow (m : RowMath α) (cfg : StackConfig α) (pos : Nat) (v : List α) : Option (List α) :=
  if asUsize cfg.qkRope ≤ ropeScratch then
    some (m.ropeInterleave v pos (asUsize cfg.qkRope) cfg.theta)
  else none

/-- No row is rotated, or the snapshot has room for one. -/
def RopeFits (cfg : StackConfig α) : Prop :=
  cfg.mlaNope = true ∨ asUsize cfg.qkRope ≤ ropeScratch

instance (cfg : StackConfig α) : Decidable (RopeFits cfg) :=
  inferInstanceAs (Decidable (_ ∨ _))

/-- The rope half of every head of a query row. -/
def ropeHeads (m : RowMath α) (cfg : StackConfig α) (row : List α) (pos : Nat) :
    Option (List α) :=
  let qh := asUsize cfg.qkHead
  let nope := asUsize cfg.qkNope
  let r := asUsize cfg.qkRope
  ((List.range (asUsize cfg.nHeads)).mapM fun hh =>
    let head := rowOf qh row hh
    (ropeRow m cfg pos ((head.drop nope).take r)).map fun rot =>
      head.take nope ++ rot ++ head.drop (nope + r)).map List.flatten

/-- The rope halves of the queries of a chunk, where there is a rotation. -/
def ropeQueries (m : RowMath α) (cfg : StackConfig α) (q : List (List α)) (posBase : Nat) :
    Option (List (List α)) :=
  if cfg.mlaNope then some q else q.zipIdx.mapM fun (row, s) => ropeHeads m cfg row (posBase + s)

/-- A token's rows in the compressed cache. -/
def KvCache.writeRow (m : RowMath α) (cfg : StackConfig α) (l : MlaWeights α) (layer pos : Nat)
    (comp : List α) (kv : KvCache α S) : Option (KvCache α S) := do
  let kvl := asUsize cfg.kvLora
  let r := asUsize cfg.qkRope
  let rot := (comp.drop kvl).take r
  let rot ← if cfg.mlaNope then some rot else ropeRow m cfg pos rot
  if pos < kv.maxT then
    some { kv with
      latent := Function.update kv.latent layer
        (Function.update (kv.latent layer) pos (m.rmsnorm (comp.take kvl) l.kvALn cfg.eps))
      kRot := Function.update kv.kRot layer (Function.update (kv.kRot layer) pos rot) }
  else none

/-- `reconstruct_core`, over all heads. -/
def reconstructCore (m : RowMath α) (cfg : StackConfig α) (l : MlaWeights α) (layer : Nat)
    (kv : KvCache α S) (q : List (List α)) (posBase st0 : Nat)
    (sel : Option (List (List Nat))) : Option (List (List α)) := do
  let nope := asUsize cfg.qkNope
  let vh := asUsize cfg.vHead
  let headKv := nope + vh
  let tk := posBase + q.length
  if tk < st0 then none
  else
    let latents := (List.range (tk - st0)).map fun jj => kv.latent layer (st0 + jj)
    let kvb ← matmulRows (asUsize cfg.nHeads * headKv) latents l.kvB
    some (q.mapIdx fun s qrow =>
      let jjs := match sel.bind (·[s]?) with
        | some (t :: ts) => (t :: ts).map (· - st0)
        | _ => List.range (posBase + s + 1 - st0)
      (List.range (asUsize cfg.nHeads)).flatMap fun hh =>
        let head := rowOf (asUsize cfg.qkHead) qrow hh
        let scores := jjs.map fun jj =>
          let kn := ((kvb.getD jj []).drop (hh * headKv)).take nope
          let kr := kv.kRot layer (st0 + jj)
          ((List.range nope).map (fun i => head.getD i 0 * kn.getD i 0)).sum
            + ((List.range (asUsize cfg.qkRope)).map
                (fun i => head.getD (nope + i) 0 * kr.getD i 0)).sum
        let weights := m.softmax (scores.map (· * cfg.attnScale))
        (List.range vh).map fun i => ((weights.zip jjs).map fun (a, jj) =>
          a * (kvb.getD jj []).getD (hh * headKv + nope + i) 0).sum)

/-- The output gate, where the layer has one. -/
def gateContext (m : RowMath α) (width : Nat) (gate : Option (QTensor α))
    (x ctx : List (List α)) : Option (List (List α)) :=
  match gate with
  | none => some ctx
  | some g => (matmulRows width x g).map fun gs =>
      List.zipWith (List.zipWith fun c gv => c * m.sigmoid gv) ctx gs

/-- `attention_with` and its reconstruction core: the rows it gives, the cache it leaves
and the selection it computed. -/
def attentionWith (m : RowMath α) (env : DsaEnv) (cfg : StackConfig α) (l : MlaWeights α)
    (layer : Nat) (kv : KvCache α S) (x : List (List α)) (posBase : Nat)
    (sel : Option (List (List Nat))) :
    Option (List (List α) × KvCache α S × Option (List (List Nat))) := do
  let h := asUsize cfg.nHeads
  let qr ← matmulRows (asUsize cfg.qLora) x l.qA
  let qr := qr.map fun row => m.rmsnorm row l.qALn cfg.eps
  let q ← matmulRows (h * asUsize cfg.qkHead) qr l.qB
  let comp ← matmulRows (asUsize cfg.kvLora + asUsize cfg.qkRope) x l.kvA
  let q ← ropeQueries m cfg q posBase
  let kv ← comp.zipIdx.foldlM (fun kv (row, s) => kv.writeRow m cfg l layer (posBase + s) row) kv
  let st0 := kv.kvStart layer
  let computed ← indexerSelect m env cfg l layer x qr posBase st0 sel.isSome
  let ctx ← reconstructCore m cfg l layer kv q posBase st0 (sel.or computed)
  let ctx ← gateContext m (h * asUsize cfg.vHead) l.attnGate x ctx
  let out ← matmulRows (asUsize cfg.hidden) ctx l.o
  some (out, kv, computed)

/-! ## A single row -/

variable {m : RowMath α} {env : DsaEnv} {cfg : StackConfig α} {l : MlaWeights α} {layer : Nat}

theorem selectTopk_zero {scores : List α} (h : scores ≠ []) : selectTopk scores 0 = none := by
  have hlen : scores.length ≠ 0 := fun h0 => h (List.length_eq_zero_iff.mp h0)
  have hkeep : ¬ min scores.length 0 = scores.length := by omega
  simp only [selectTopk]
  rw [if_neg hlen, if_neg hkeep, if_pos (Nat.min_zero _)]

variable {row : List α} {posBase : Nat} {kv : KvCache α S} {out : List (List α)}

/-- On one row the indexer has one key to select from: where it fires at all, it is to
keep none of it. -/
theorem indexerSelect_one {qrow : List α} {st0 : Nat} {haveSel : Bool}
    {s : Option (List (List Nat))}
    (h : indexerSelect m env cfg l layer [row] [qrow] posBase st0 haveSel = some s) :
    s = none := by
  unfold indexerSelect at h
  split at h
  · exact (Option.some.inj h).symm
  next w =>
    split at h
    · exact (Option.some.inj h).symm
    next hfires =>
      push Not at hfires
      obtain ⟨_, _, hpos, _, htopk, _⟩ := hfires
      subst hpos
      rw [List.length_singleton] at htopk
      have hzero : asUsize cfg.indexTopk = 0 := by omega
      obtain ⟨sels, hsels, _⟩ := Option.map_eq_some_iff.mp h
      simp only [indexerForward, Option.bind_eq_bind] at hsels
      obtain ⟨_, _, hsels⟩ := Option.bind_eq_some_iff.mp hsels
      obtain ⟨keys, _, hsels⟩ := Option.bind_eq_some_iff.mp hsels
      obtain ⟨qi, _, hsels⟩ := Option.bind_eq_some_iff.mp hsels
      obtain ⟨_, _, hsels⟩ := Option.bind_eq_some_iff.mp hsels
      rw [List.length_singleton, List.range_one, List.mapM_cons, hzero] at hsels
      obtain ⟨_, hsel, _⟩ := Option.bind_eq_some_iff.mp hsels
      rw [if_neg (by simp [isDense]), selectTopk_zero (by simp)] at hsel
      cases hsel

/-- **One row attends densely**: where the call returns, it computed no selection. -/
theorem attentionWith_one {kv' : KvCache α S}
    {computed : Option (List (List Nat))}
    (h : attentionWith m env cfg l layer kv [row] posBase none = some (out, kv', computed)) :
    computed = none := by
  simp only [attentionWith, Option.bind_eq_bind] at h
  obtain ⟨qr, hqr, h⟩ := Option.bind_eq_some_iff.mp h
  obtain ⟨q, _, h⟩ := Option.bind_eq_some_iff.mp h
  obtain ⟨comp, _, h⟩ := Option.bind_eq_some_iff.mp h
  obtain ⟨_, _, h⟩ := Option.bind_eq_some_iff.mp h
  obtain ⟨kv₁, _, h⟩ := Option.bind_eq_some_iff.mp h
  obtain ⟨sel, hsel, h⟩ := Option.bind_eq_some_iff.mp h
  obtain ⟨ctx, _, h⟩ := Option.bind_eq_some_iff.mp h
  obtain ⟨gated, _, h⟩ := Option.bind_eq_some_iff.mp h
  obtain ⟨o, _, h⟩ := Option.bind_eq_some_iff.mp h
  cases h
  unfold matmulRows at hqr
  split at hqr
  · cases hqr
    exact indexerSelect_one hsel
  · cases hqr

/-! ## How many rows come back -/

omit [Field α] [LinearOrder α] in
theorem matmulRows_length {o : Nat} {x : List (List α)} {w : QTensor α}
    (h : matmulRows o x w = some out) : out.length = x.length := by
  unfold matmulRows at h
  split at h
  · cases h
    exact List.length_map ..
  · cases h

omit [Field α] [LinearOrder α] in
theorem ropeQueries_length {q : List (List α)}
    (h : ropeQueries m cfg q posBase = some out) : out.length = q.length := by
  unfold ropeQueries at h
  split at h
  · cases h
    rfl
  · rw [(of_mapM h).1, List.length_zipIdx]

omit [LinearOrder α] in
theorem reconstructCore_length {q ctx : List (List α)} {st0 : Nat}
    {sel : Option (List (List Nat))}
    (h : reconstructCore m cfg l layer kv q posBase st0 sel = some ctx) :
    ctx.length = q.length := by
  simp only [reconstructCore, Option.bind_eq_bind] at h
  split at h
  · cases h
  · obtain ⟨kvb, _, h⟩ := Option.bind_eq_some_iff.mp h
    cases h
    exact List.length_mapIdx

omit [LinearOrder α] in
theorem gateContext_length {width : Nat} {gate : Option (QTensor α)} {x ctx : List (List α)}
    (hctx : ctx.length = x.length) (h : gateContext m width gate x ctx = some out) :
    out.length = x.length := by
  cases gate with
  | none =>
    cases h
    exact hctx
  | some g =>
    obtain ⟨gs, hgs, rfl⟩ := Option.map_eq_some_iff.mp h
    rw [List.length_zipWith, matmulRows_length hgs, hctx, Nat.min_self]

/-- **Without an output projection the call panics** on any row: `matmul_qt` finds a
buffer of another shape, here or on the way. -/
theorem attentionWith_no_output (hd : asUsize cfg.hidden ≠ 0) (ho : l.o.o = 0)
    {sel : Option (List (List Nat))} :
    attentionWith m env cfg l layer kv [row] posBase sel = none := by
  rw [Option.eq_none_iff_forall_ne_some]
  intro res h
  simp only [attentionWith, Option.bind_eq_bind] at h
  obtain ⟨qr, hqr, h⟩ := Option.bind_eq_some_iff.mp h
  obtain ⟨q, hq, h⟩ := Option.bind_eq_some_iff.mp h
  obtain ⟨comp, _, h⟩ := Option.bind_eq_some_iff.mp h
  obtain ⟨q', hq', h⟩ := Option.bind_eq_some_iff.mp h
  obtain ⟨kv₁, _, h⟩ := Option.bind_eq_some_iff.mp h
  obtain ⟨computed, _, h⟩ := Option.bind_eq_some_iff.mp h
  obtain ⟨ctx, hctx, h⟩ := Option.bind_eq_some_iff.mp h
  obtain ⟨gated, hgated, h⟩ := Option.bind_eq_some_iff.mp h
  obtain ⟨out, hout, _⟩ := Option.bind_eq_some_iff.mp h
  have hqlen : q'.length = 1 := by
    rw [ropeQueries_length hq', matmulRows_length hq, List.length_map, matmulRows_length hqr,
      List.length_singleton]
  have hctxlen : ctx.length = 1 := (reconstructCore_length hctx).trans hqlen
  have hgatedlen : gated.length = 1 := gateContext_length hctxlen hgated
  unfold matmulRows at hout
  split at hout
  next hshape =>
    have hne : gated ≠ [] := fun hnil => by
      rw [hnil] at hgatedlen
      cases hgatedlen
    exact hd ((hshape.2 hne).trans ho)
  · cases hout

end

end Colibri.Attention
