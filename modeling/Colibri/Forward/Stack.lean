import Colibri.Attention.Mla
import Colibri.Lib.Batch
import Colibri.Moe.Rows

/-!
# The layer stack

`forward` runs the layers over a chunk of tokens, and `forward_batched` over one token of
each of several sequences. Both pick the attention by architecture, each in its own way:
`forward` hands Kimi-K3, and DeepSeek-V4 with Hyper-Connections, to drivers of their own,
and `forward_batched` refuses a configuration with a `layer_kind`. Those drivers, the GQA
attention and Nemotron-H's layer are parameters.

`attendLayer` and `attendBatched` are the two choices, `ffnBlock` the MoE or the dense FFN behind
them, and `layerForward` and `layerForwardBatched` the layers. A panic of the code, an index out of
range or a missing tensor, is an outcome of its own beside the errors; the callers hand both on.
`Forward.Batched` compares the two drivers.
-/

namespace Colibri.Forward

open Batch Colibri.Attention Colibri.Moe

/-- What a forward reports: the provider's or a peer's error, or a refusal. -/
inductive ForwardError where
  | io (e : Colibri.Cluster.IoError)
  /-- `Kimi-K3 has no per-layer forward` -/
  | noPerLayerForward
  /-- `batched decode is not implemented for hybrid architectures` -/
  | notBatched (arch : Arch)

def isGqa : Arch → Bool
  | .minimaxM3 | .minimaxM2 | .maple => true
  | _ => false

section

variable {α S G : Type}

/-- `config.json` as `from_json` accepts it, as to `layer_kind`: one entry for each of
1 to 128 layers on the hybrids, and none elsewhere. -/
def accepted (cfg : StackConfig α) : Prop :=
  match cfg.arch with
  | .nemotronH | .kimiK3 =>
    1 ≤ cfg.nLayers ∧ cfg.nLayers ≤ 128 ∧ cfg.layerKind.length = asUsize cfg.nLayers
  | _ => cfg.layerKind = []

/-- A layer of a model of width `d` with experts activated by `a`. `gqa` stands for the
tensors `attention_gqa` reads; an FFN a layer has not is not read. -/
structure Layer (α G : Type) (a : ActCfg α) (d : Nat) where
  inLn : List α
  postLn : List α
  mla : MlaWeights α
  gqa : G
  sparse : Bool
  router : List α
  routerBias : List α
  shared : Ffn a d
  dense : Ffn a d

/-- The tensors of a checkpoint, each loaded in the shape asked for. -/
structure Checkpoint (α : Type) where
  qtLoad : String → Nat → Nat → QTensor α
  qtLoad_o : ∀ name o i, (qtLoad name o i).o = o
  qtLoad_i : ∀ name o i, (qtLoad name o i).i = i
  ld : String → List α
  has : String → Bool

/-- `load_layer`, its latent attention: DeepSeek-V4 has a `kv_a` without the rope half,
and neither a `kv_b` nor an `o_proj`. -/
def loadMla (cfg : StackConfig α) (ck : Checkpoint α) : MlaWeights α :=
  let d := asUsize cfg.hidden
  let h := asUsize cfg.nHeads
  let ql := asUsize cfg.qLora
  let gqa := isGqa cfg.arch
  let v4 := decide (cfg.arch = .deepseekV4)
  let nh := asUsize cfg.indexNh
  let hd := asUsize cfg.indexHd
  { qA := if gqa then .empty else ck.qtLoad "self_attn.q_a_proj.weight" ql d
    qALn := if gqa then [] else ck.ld "self_attn.q_a_layernorm.weight"
    qB := if gqa then .empty
      else ck.qtLoad "self_attn.q_b_proj.weight" (h * asUsize cfg.qkHead) ql
    kvA := if gqa then .empty
      else if v4 then ck.qtLoad "self_attn.kv_a_proj.weight" (asUsize cfg.kvLora) d
      else ck.qtLoad "self_attn.kv_a_proj_with_mqa.weight" (asUsize (cfg.kvLora + cfg.qkRope)) d
    kvALn := if gqa then [] else ck.ld "self_attn.kv_a_layernorm.weight"
    kvB := if gqa || v4 then .empty
      else ck.qtLoad "self_attn.kv_b_proj.weight" (h * asUsize (cfg.qkNope + cfg.vHead))
        (asUsize cfg.kvLora)
    o := if v4 then .empty
      else ck.qtLoad "self_attn.o_proj.weight" d (h * asUsize cfg.vHead)
    attnGate := none
    ix := if gqa || v4 || !decide (cfg.indexHd > 0) || !decide (cfg.indexNh > 0) ||
        !ck.has "self_attn.indexer.wq_b.weight" then none
      else some
        { wk := ck.qtLoad "self_attn.indexer.wk.weight" hd d
          wq := ck.qtLoad "self_attn.indexer.wq_b.weight" (nh * hd) ql
          wp := ck.qtLoad "self_attn.indexer.weights_proj.weight" nh d } }

/-- A loaded model: at least one layer, of positive width. -/
structure Model (α G : Type) (a : ActCfg α) where
  cfg : StackConfig α
  embed : List (List α)
  layers : List (Checkpoint α × Layer α G a (asUsize cfg.hidden))
  accepts : accepted cfg
  hidden_ne : asUsize cfg.hidden ≠ 0
  layers_ne : layers ≠ []
  embed_length : ∀ row ∈ embed, row.length = asUsize cfg.hidden
  loaded : ∀ l ∈ layers, l.2.mla = loadMla cfg l.1

/-- The attention and the layers that have code of their own. -/
structure Siblings (α S G : Type) where
  attentionGqa : StackConfig α → G → Nat → KvCache α S → List (List α) → Nat →
    Option (List (List α) × KvCache α S)
  nemotronLayerForward : LayerKind → Nat → List (List α) → KvCache α S → Nat →
    Outcome ForwardError (List (List α) × KvCache α S)
  kimiForward : KvCache α S → List Int → Nat → Outcome ForwardError (List (List α) × KvCache α S)
  dsv4ForwardChunked : KvCache α S → List Int → Nat →
    Outcome ForwardError (List (List α) × KvCache α S)

end

section

variable {α S G : Type} [Field α] [LinearOrder α]

/-- `x += tmp`, a row. -/
def addRow (x tmp : List α) : List α := x.mapIdx fun i v => v + tmp.getD i 0

def addRows (x tmp : List (List α)) : List (List α) :=
  x.mapIdx fun s row => addRow row (tmp.getD s [])

/-- The rows of a buffer. -/
def rowsOf (d n : Nat) (buf : List α) : List (List α) := (List.range n).map (rowOf d buf)

def embedRow {a : ActCfg α} (m : Model α G a) (tok : Int) : Option (List α) :=
  m.embed[asUsize tok]?

section

variable (math : RowMath α) (env : DsaEnv) {a : ActCfg α} (m : Model α G a)
  (sib : Siblings α S G) (provider : Provider (Ffn a (asUsize m.cfg.hidden)))

/-- The layer's `MoE` or dense block over normed rows. -/
def ffnBlock (l : Layer α G a (asUsize m.cfg.hidden)) (li : Nat) (nrm : List (List α)) :
    Outcome ForwardError (List (List α)) :=
  let d := asUsize m.cfg.hidden
  let n := nrm.length
  if l.sparse then
    let ml : MoeLayer α := ⟨l.router, l.routerBias, byRow d (l.shared.row math.toScalar)⟩
    match moe none (route m.cfg.toMoeConfig math.toScoring)
        (fun ex => byRow d (ex.row math.toScalar)) m.cfg.toMoeConfig ml li nrm.flatten n
        (decide (m.cfg.nShared > 0)) provider with
    | .ok out => .ok (rowsOf d n out)
    | .error e => .error (.io e)
  else .ok (rowsOf d n (byRow d (l.dense.row math.toScalar) nrm.flatten n))

/-- What the layer loop carries: the rows, the cache, the last full layer's selection. -/
structure Carry (α S : Type) where
  x : List (List α)
  kv : KvCache α S
  dsaSel : Option (List (List Nat))

/-- `layer_forward`, its attention. A full indexer layer attends by its own selection
and hands it on; the others reuse the last one. -/
def attendLayer (l : Layer α G a (asUsize m.cfg.hidden)) (li posBase : Nat)
    (nrm : List (List α)) (st : Carry α S) :
    Option (List (List α) × KvCache α S × Option (List (List Nat))) :=
  if isGqa m.cfg.arch then
    (sib.attentionGqa m.cfg l.gqa li st.kv nrm posBase).map fun r => (r.1, r.2, st.dsaSel)
  else
    let isFull := m.cfg.idxType.getD li false
    let reused := if isFull then none else st.dsaSel
    (attentionWith math env m.cfg l.mla li st.kv nrm posBase reused).map fun r =>
      (r.1, r.2.1, if isFull then r.2.2 else st.dsaSel)

def layerForward (posBase : Nat) (st : Carry α S)
    (l : (Checkpoint α × Layer α G a (asUsize m.cfg.hidden)) × Nat) :
    Outcome ForwardError (Carry α S) :=
  let li := l.2
  let l := l.1.2
  if m.cfg.arch = .nemotronH then do
    let (x, kv) ← sib.nemotronLayerForward (m.cfg.layerKind.getD li .mamba) li st.x st.kv posBase
    pure ⟨x, kv, st.dsaSel⟩
  else if m.cfg.arch = .kimiK3 then .error .noPerLayerForward
  else do
    let nrm := st.x.map fun row => math.rmsnorm row l.inLn m.cfg.eps
    let (tmp, kv, dsaSel) ← Outcome.ofOption (attendLayer math env m sib l li posBase nrm st)
    let x := addRows st.x tmp
    let nrm := x.map fun row => math.rmsnorm row l.postLn m.cfg.eps
    let tmp ← ffnBlock math m provider l li nrm
    pure ⟨addRows x tmp, kv, dsaSel⟩

/-- `forward`: the hidden rows, and the cache as it leaves it. -/
def forward (kv : KvCache α S) (ids : List Int) (posBase : Nat) :
    Outcome ForwardError (List (List α) × KvCache α S) :=
  if m.cfg.arch = .kimiK3 then sib.kimiForward kv ids posBase
  else if m.cfg.arch = .deepseekV4 ∧ m.cfg.hcMult > 0 then sib.dsv4ForwardChunked kv ids posBase
  else do
    let x ← Outcome.ofOption (ids.mapM (embedRow m))
    let st ← m.layers.zipIdx.foldlM (layerForward math env m sib provider posBase) ⟨x, kv, none⟩
    pure (st.x, st.kv)

/-! ## Several sequences -/

/-- One sequence of a batch: its cache, the token it feeds and where. -/
structure SeqIn (α S : Type) where
  kv : KvCache α S
  id : Int
  position : Nat

/-- A sequence on its way through the layers. -/
structure SeqState (α S : Type) where
  x : List α
  kv : KvCache α S
  position : Nat

/-- The residual. -/
def SeqState.add (q : SeqState α S) (tmp : List α) : SeqState α S :=
  { q with x := addRow q.x tmp }

/-- `layer_forward_batched`, the attention it picks for a sequence's row. -/
def attentionBatched (l : Layer α G a (asUsize m.cfg.hidden)) (li : Nat) (nrm : List α)
    (kv : KvCache α S) (position : Nat) : Option (List (List α) × KvCache α S) :=
  if isGqa m.cfg.arch then sib.attentionGqa m.cfg l.gqa li kv [nrm] position
  else
    (attentionWith math env m.cfg l.mla li kv [nrm] position none).map fun r => (r.1, r.2.1)

/-- `layer_forward_batched`, the attention of one sequence. -/
def attendBatched (l : Layer α G a (asUsize m.cfg.hidden)) (li : Nat) (q : SeqState α S) :
    Outcome ForwardError (SeqState α S) := do
  let nrm := math.rmsnorm q.x l.inLn m.cfg.eps
  let (tmp, kv) ← Outcome.ofOption (attentionBatched math env m sib l li nrm q.kv q.position)
  pure ({ q with kv := kv }.add (tmp.getD 0 []))

/-- `layer_forward_batched`: the block after the attention runs once, over all rows. -/
def layerForwardBatched (seqs : List (SeqState α S))
    (l : (Checkpoint α × Layer α G a (asUsize m.cfg.hidden)) × Nat) :
    Outcome ForwardError (List (SeqState α S)) := do
  let li := l.2
  let l := l.1.2
  let seqs ← seqs.mapM (attendBatched math env m sib l li)
  let nrm := seqs.map fun q => math.rmsnorm q.x l.postLn m.cfg.eps
  let tmp ← ffnBlock math m provider l li nrm
  pure (seqs.mapIdx fun si q => q.add (tmp.getD si []))

/-- `forward_batched`: every sequence's hidden row, and its cache. -/
def forwardBatched (seqs : List (SeqIn α S)) :
    Outcome ForwardError (List (List α × KvCache α S)) :=
  if !m.cfg.layerKind.isEmpty then .error (.notBatched m.cfg.arch)
  else do
    let seqs ← seqs.mapM fun q => do
      let x ← Outcome.ofOption (embedRow m q.id)
      pure (⟨x, q.kv, q.position⟩ : SeqState α S)
    let seqs ← m.layers.zipIdx.foldlM (layerForwardBatched math env m sib provider) seqs
    pure (seqs.map fun q => (q.x, q.kv))

end

end

end Colibri.Forward
