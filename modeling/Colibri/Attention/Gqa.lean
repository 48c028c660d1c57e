import Colibri.Attention.Heads
import Colibri.Attention.Matmul
import Colibri.Forward.Stack

/-!
# Grouped-query attention

`attention_gqa`: several query heads share a key and a value head, whose rows the cache
keeps whole. The toggles of the architectures it serves are all here: one fused projection
or three, a norm of every head or of the whole row or none, rotation of the layers that have
positions, a window on the layers that slide, and the block selection of the sparse indexer.

The cache is one buffer for all positions of a layer, so a head that reaches past its row
reads the next one; past the last row it panics. None is a panic.

* `project_append_eq`: the projections and the loop over the tokens, a token at a time.
* `outRow_behind`: a query does not see what is written behind its position.
* `gqaCall_eq`: so a call without a block selection is a causal call, and `gqa_splits` says that a
  sequence may be cut into calls anywhere.

With a block selection it may not: the blocks of a query are picked among the keys of its own call.
-/

namespace Colibri.Attention.Gqa

open Colibri.Moe Colibri.Cluster Colibri.Vectors Colibri.Chunks Colibri.Blocks

variable {α : Type}

/-! ## Configuration, tensors, cache -/

/-- The configuration `attention_gqa` reads. -/
structure GqaConfig (α : Type) extends StackConfig α where
  nKvHeads : Int
  swaWindow : Int
  layerSwa : List Bool
  nopeOnGlobal : Bool
  indexBlockSize : Int
  indexTopkBlocks : Int

/-- Functions of a row that `attention_gqa` calls besides those of `attention_with`. -/
structure GqaMath (α : Type) extends RowMath α where
  ropeNeox : List α → Nat → Nat → α → List α

/-- The sparse indexer: its two tensors, and the blocks it selects for a prompt, a row for
every key head and token. -/
structure BlockIndexer (α : Type) where
  qProj : QTensor α
  kProj : QTensor α
  blocks : List (List α) → List (List Nat)

/-- The projections of a layer: fused at load time, or three of their own. -/
inductive QkvProj (α : Type) where
  | fused (qkv : QTensor α)
  | split (q k v : QTensor α)

/-- The tensors `attention_gqa` reads. -/
structure GqaWeights (α : Type) where
  proj : QkvProj α
  qNorm : List α
  kNorm : List α
  o : QTensor α
  idx : Option (BlockIndexer α)

/-- `k_full`, `v_full` and `kv_dim`. -/
structure FullRows (α : Type) where
  kvDim : Nat
  kFull : Nat → Nat → List α
  vFull : Nat → Nat → List α

/-- A cache with key and value rows. -/
abbrev GqaCache (α : Type) := KvCache α (FullRows α)

section

variable (cfg : GqaConfig α)

def layerIsSwa (layer : Nat) : Bool :=
  decide (0 < cfg.swaWindow) && cfg.layerSwa.getD layer false

def layerUsesRope (layer : Nat) : Bool := !cfg.nopeOnGlobal || layerIsSwa cfg layer

def kvDim : Nat := asUsize cfg.nKvHeads * asUsize cfg.qkHead

/-- `win`: 0 for a layer without a window. -/
def window (layer : Nat) : Nat := if layerIsSwa cfg layer then asUsize cfg.swaWindow else 0

/-- `group`; no key head is a division by zero. -/
def group : Option Nat :=
  if asUsize cfg.nKvHeads = 0 then none
  else some (max (asUsize cfg.nHeads / asUsize cfg.nKvHeads) 1)

end

/-- `k_full_row_mut` and `v_full_row_mut`, and the copies into them. -/
def writeKv (layer pos : Nat) (k v : List α) (kv : GqaCache α) : Option (GqaCache α) :=
  if pos < kv.maxT ∧ k.length = kv.other.kvDim ∧ v.length = kv.other.kvDim then
    some { kv with
      other :=
        { kv.other with
          kFull := Function.update kv.other.kFull layer
            (Function.update (kv.other.kFull layer) pos k)
          vFull := Function.update kv.other.vFull layer
            (Function.update (kv.other.vFull layer) pos v) } }
  else none

/-- `k_full_rows` or `v_full_rows`: the buffer of the rows from `start` to `stop`. -/
def fullRows (kv : GqaCache α) (rows : Nat → List α) (start stop : Nat) : Option (List α) :=
  if start ≤ stop ∧ stop ≤ kv.maxT then
    some ((List.range (stop - start)).flatMap fun i => rows (start + i))
  else none

/-- `buf[base..base + n]` -/
def readSlice (buf : List α) (base n : Nat) : Option (List α) :=
  if base + n ≤ buf.length then some ((buf.drop base).take n) else none

theorem rowOf_of_readSlice {buf row : List α} {d r : Nat}
    (h : readSlice buf (r * d) d = some row) : rowOf d buf r = row := by
  unfold readSlice at h
  split at h
  · exact Option.some.inj h
  · cases h

theorem readSlice_blocks {n d r : Nat} {f : Nat → List α} (hf : ∀ i < n, (f i).length = d)
    (hr : r < n) : readSlice (blocks n f) (r * d) d = some (f r) := by
  have hle : r * d + d ≤ (blocks n f).length := by
    rw [length_blocks hf, ← Nat.succ_mul]
    exact Nat.mul_le_mul_right d hr
  rw [readSlice, if_pos hle, chunk_blocks hf hr]

theorem readSlice_grid {n m d s g : Nat} {f : Nat → Nat → List α}
    (hf : ∀ s < n, ∀ g < m, (f s g).length = d) (hs : s < n) (hg : g < m) :
    readSlice (blocks n fun s => blocks m (f s)) (s * (m * d) + g * d) d = some (f s g) := by
  have hle : s * (m * d) + g * d + d ≤ (blocks n fun s => blocks m (f s)).length := by
    have hrow := Nat.mul_le_mul_right d hg
    have hall := Nat.mul_le_mul_right (m * d) hs
    rw [Nat.succ_mul] at hrow hall
    rw [length_blocks fun s hs => length_blocks (hf s hs)]
    omega
  rw [readSlice, if_pos hle, chunk_grid hf hs hg]

section

variable [Field α]

/-! ## Projections -/

/-- `q`, `k` and `v` of every token. -/
def projectQkv (cfg : GqaConfig α) (l : GqaWeights α) (x : List (List α)) :
    Option (List (List α × List α × List α)) :=
  let qsz := asUsize cfg.nHeads * asUsize cfg.qkHead
  match l.proj with
  | .fused qkv =>
    (matmulRows (qsz + 2 * kvDim cfg) x qkv).map fun rows => rows.map fun row =>
      (row.take qsz, (row.drop qsz).take (kvDim cfg), row.drop (qsz + kvDim cfg))
  | .split qp kp vp => do
    let q ← matmulRows qsz x qp
    let k ← matmulRows (kvDim cfg) x kp
    let v ← matmulRows (kvDim cfg) x vp
    some (q.zip (k.zip v))

/-- `rmsnorm_inplace`: a weight shorter than the row is read out of bounds. -/
def rmsnormInplace (m : GqaMath α) (cfg : GqaConfig α) (row w : List α) : Option (List α) :=
  if row.length ≤ w.length then some (m.rmsnorm row w cfg.eps) else none

/-- The norm and the rotation of the `n` heads of a query or key row. -/
def normRope (m : GqaMath α) (cfg : GqaConfig α) (l : GqaWeights α) (layer n : Nat)
    (w row : List α) (pos : Nat) : Option (List α) := do
  let hd := asUsize cfg.qkHead
  let rot := asUsize cfg.qkRope
  let qkPerLayer := decide (hd < l.qNorm.length)
  let useQkNorm := !l.qNorm.isEmpty
  let useRope := Forward.isGqa cfg.arch && layerUsesRope cfg layer
  let row ← (if useQkNorm && qkPerLayer then rmsnormInplace m cfg row w else some row)
  let heads ← (List.range n).mapM fun hh => do
    let head ← (if useQkNorm && !qkPerLayer then rmsnormInplace m cfg (rowOf hd row hh) w
      else some (rowOf hd row hh))
    if useRope then
      if rot ≤ hd then some (m.ropeNeox (head.take rot) pos rot cfg.theta ++ head.drop rot)
      else none
    else some head
  some heads.flatten

/-- The loop over the tokens: the query of each, and the cache with its key and value. -/
def appendRows (m : GqaMath α) (cfg : GqaConfig α) (l : GqaWeights α) (layer : Nat) :
    Nat → List (List α × List α × List α) → GqaCache α → Option (List (List α) × GqaCache α)
  | _, [], kv => some ([], kv)
  | pos, (q, k, v) :: rest, kv => do
    let q ← normRope m cfg l layer (asUsize cfg.nHeads) l.qNorm q pos
    let k ← normRope m cfg l layer (asUsize cfg.nKvHeads) l.kNorm k pos
    let kv ← writeKv layer pos k v kv
    let (qs, kv) ← appendRows m cfg l layer (pos + 1) rest kv
    some (q :: qs, kv)

/-! ## The core -/

def m3BlockSelect (cfg : GqaConfig α) (m3Sparse : Bool) (l : GqaWeights α) (x : List (List α))
    (posBase : Nat) : Option (List (List Nat)) :=
  let bs := max (asUsize cfg.indexBlockSize) 1
  if m3Sparse = false ∨ posBase ≠ 0 ∨ x.length ≤ 1 then none
  else l.idx.bind fun idx =>
    if (x.length + bs - 1) / bs ≤ asUsize cfg.indexTopkBlocks then none else some (idx.blocks x)

/-- The positions a query attends to: those of the blocks selected, or all of its window. -/
def keysAt (cfg : GqaConfig α) (layer n s st0 tk kvhh : Nat)
    (blockSel : Option (List (List Nat))) : Option (List Nat) :=
  match blockSel with
  | some sel =>
    let bsize := max (asUsize cfg.indexBlockSize) 1
    (sel[kvhh * n + s]?).map fun bs => bs.flatMap fun b =>
      let lo := max (b * bsize) st0
      let hi := min ((b + 1) * bsize) tk
      List.range' lo (hi - lo)
  | none =>
    let win := window cfg layer
    let lo := if win > 0 then max st0 (tk - win) else st0
    if tk < lo then none else some (List.range' lo (tk - lo))

/-- A head's context over its keys. -/
def headContext (m : GqaMath α) (cfg : GqaConfig α) (st0 kvhh : Nat) (krows vrows qvec : List α)
    (keys : List Nat) : Option (List α) := do
  let hd := asUsize cfg.qkHead
  let base := fun key => (key - st0) * kvDim cfg + kvhh * hd
  let scores ← keys.mapM fun key => (readSlice krows (base key) hd).map fun krow =>
    (List.zipWith (· * ·) qvec krow).sum * cfg.attnScale
  let vs ← keys.mapM fun key => readSlice vrows (base key) hd
  some (tab hd fun i =>
    (((m.softmax scores).zip vs).map fun av => av.1 * av.2.getD i 0).sum)

/-- The context of a query: every head over the rows up to its own position. -/
def queryContext (m : GqaMath α) (cfg : GqaConfig α) (layer group n s : Nat) (kv : GqaCache α)
    (blockSel : Option (List (List Nat))) (pos : Nat) (qrow : List α) : Option (List α) := do
  let st0 := kv.kvStart layer
  let tk := pos + 1
  let krows ← fullRows kv (kv.other.kFull layer) st0 tk
  let vrows ← fullRows kv (kv.other.vFull layer) st0 tk
  let heads ← (List.range (asUsize cfg.nHeads)).mapM fun hh => do
    let kvhh := hh / group
    let keys ← keysAt cfg layer n s st0 tk kvhh blockSel
    headContext m cfg st0 kvhh krows vrows (rowOf (asUsize cfg.qkHead) qrow hh) keys
  some heads.flatten

def attentionGqa (m : GqaMath α) (m3Sparse : Bool) (cfg : GqaConfig α) (l : GqaWeights α)
    (layer : Nat) (kv : GqaCache α) (x : List (List α)) (posBase : Nat) :
    Option (List (List α) × GqaCache α) := do
  let group ← group cfg
  let qkv ← projectQkv cfg l x
  let (qs, kv) ← appendRows m cfg l layer posBase qkv kv
  let blockSel := m3BlockSelect cfg m3Sparse l x posBase
  let ctx ← qs.zipIdx.mapM fun (qrow, s) =>
    queryContext m cfg layer group x.length s kv blockSel (posBase + s) qrow
  let out ← matmulRows (asUsize cfg.hidden) ctx l.o
  some (out, kv)

/-! ## As a causal call -/

omit [Field α] in
theorem matmulRows_eq_mapFrom {o : Nat} {w : QTensor α} (p : Nat) (x : List (List α)) :
    matmulRows o x w = mapFrom (fun _ => matmulRow o w) p x := by
  rw [mapFrom_const, matmulRows_eq_mapM]

/-- `q`, `k` and `v` of a token. -/
def projectRow (cfg : GqaConfig α) (l : GqaWeights α) (row : List α) :
    Option (List α × List α × List α) :=
  let qsz := asUsize cfg.nHeads * asUsize cfg.qkHead
  match l.proj with
  | .fused qkv => (matmulRow (qsz + 2 * kvDim cfg) qkv row).map fun row =>
      (row.take qsz, (row.drop qsz).take (kvDim cfg), row.drop (qsz + kvDim cfg))
  | .split qp kp vp =>
    (matmulRow qsz qp row).bind fun q => ((matmulRow (kvDim cfg) kp row).bind fun k =>
      (matmulRow (kvDim cfg) vp row).map fun v => (k, v)).map fun kv => (q, kv)

variable {m : GqaMath α} {m3Sparse : Bool} {cfg : GqaConfig α} {l : GqaWeights α}
  {layer : Nat} {kv kv' : GqaCache α} {x : List (List α)}

omit [Field α] in
/-- The projections take a token at a time, in the fused form and in the one of three tensors. -/
theorem projectQkv_eq (p : Nat) :
    projectQkv cfg l x = mapFrom (fun _ => projectRow cfg l) p x := by
  unfold projectQkv projectRow
  cases l.proj with
  | fused qkv =>
    dsimp only
    rw [matmulRows_eq_mapFrom p, mapFrom_map]
  | split qp kp vp =>
    simp only [matmulRows_eq_mapFrom p, Option.bind_eq_bind]
    rw [← mapFrom_zip, ← mapFrom_zip]
    cases mapFrom (fun _ => matmulRow (asUsize cfg.nHeads * asUsize cfg.qkHead) qp) p x with
    | none => rfl
    | some q =>
      cases mapFrom (fun _ => matmulRow (kvDim cfg) kp) p x with
      | none => rfl
      | some k => cases mapFrom (fun _ => matmulRow (kvDim cfg) vp) p x <;> rfl

/-- The query of a token. -/
def queryRow (m : GqaMath α) (cfg : GqaConfig α) (l : GqaWeights α) (layer pos : Nat)
    (row : List α) : Option (List α) :=
  (projectRow cfg l row).bind fun qkv =>
    normRope m cfg l layer (asUsize cfg.nHeads) l.qNorm qkv.1 pos

/-- The output of a token over its window. -/
def outRow (m : GqaMath α) (cfg : GqaConfig α) (l : GqaWeights α) (layer : Nat) (kv : GqaCache α)
    (pos : Nat) (row : List α) : Option (List α) :=
  (group cfg).bind fun g => ((queryRow m cfg l layer pos row).bind
    (queryContext m cfg layer g 1 0 kv none pos)).bind (matmulRow (asUsize cfg.hidden) l.o)

omit [Field α] in
/-- What `writeKv` leaves alone. -/
theorem writeKv_frame {pos : Nat} {k v : List α} (h : writeKv layer pos k v kv = some kv') :
    kv'.maxT = kv.maxT ∧ kv'.kvStart = kv.kvStart ∧ ∀ p < pos,
      kv'.other.kFull layer p = kv.other.kFull layer p ∧
      kv'.other.vFull layer p = kv.other.vFull layer p := by
  unfold writeKv at h
  split at h
  · cases h
    refine ⟨rfl, rfl, fun p hp => ?_⟩
    have hne : p ≠ pos := Nat.ne_of_lt hp
    simp [hne]
  · cases h

omit [Field α] in
theorem fullRows_congr {rows rows' : Nat → List α} {start stop : Nat}
    (hmax : kv'.maxT = kv.maxT) (h : ∀ p < stop, rows' p = rows p) :
    fullRows kv' rows' start stop = fullRows kv rows start stop := by
  unfold fullRows
  rw [hmax]
  split
  next hle =>
    congr 1
    rw [List.flatMap_def, List.flatMap_def]
    refine congrArg List.flatten (List.map_congr_left fun i hi => ?_)
    have := List.mem_range.mp hi
    exact h _ (by omega)
  · rfl

/-- A query does not see what is written behind its position. -/
theorem outRow_behind {p pos : Nat} {k v row : List α} (h : writeKv layer p k v kv = some kv')
    (hpos : pos < p) : outRow m cfg l layer kv' pos row = outRow m cfg l layer kv pos row := by
  obtain ⟨hmax, hstart, hrows⟩ := writeKv_frame h
  have hk : fullRows kv' (kv'.other.kFull layer) (kv.kvStart layer) (pos + 1)
      = fullRows kv (kv.other.kFull layer) (kv.kvStart layer) (pos + 1) :=
    fullRows_congr hmax fun q hq => (hrows q (by omega)).1
  have hv : fullRows kv' (kv'.other.vFull layer) (kv.kvStart layer) (pos + 1)
      = fullRows kv (kv.other.vFull layer) (kv.kvStart layer) (pos + 1) :=
    fullRows_congr hmax fun q hq => (hrows q (by omega)).2
  unfold outRow queryContext
  rw [hstart]
  simp only [hk, hv]

/-- The call, position by position. -/
def gqaCausal (m : GqaMath α) (cfg : GqaConfig α) (l : GqaWeights α) (layer : Nat) :
    Causal (GqaCache α) (List α) (List α) where
  write pos row kv := (projectRow cfg l row).bind fun qkv =>
    (normRope m cfg l layer (asUsize cfg.nKvHeads) l.kNorm qkv.2.1 pos).bind fun k =>
      writeKv layer pos k qkv.2.2 kv
  out kv pos row := outRow m cfg l layer kv pos row
  behind kv kv' p row h pos hpos row' := by
    obtain ⟨qkv, _, hwrite⟩ := Option.bind_eq_some_iff.mp h
    obtain ⟨k, _, hwrite⟩ := Option.bind_eq_some_iff.mp hwrite
    exact outRow_behind hwrite hpos

omit [Field α] in
theorem appendRows_cons {pos : Nat} {qkv : List α × List α × List α}
    {rest : List (List α × List α × List α)} :
    appendRows m cfg l layer pos (qkv :: rest) kv
      = (normRope m cfg l layer (asUsize cfg.nHeads) l.qNorm qkv.1 pos).bind fun q =>
          ((normRope m cfg l layer (asUsize cfg.nKvHeads) l.kNorm qkv.2.1 pos).bind fun k =>
            writeKv layer pos k qkv.2.2 kv).bind fun kv₁ =>
              (appendRows m cfg l layer (pos + 1) rest kv₁).map fun r => (q :: r.1, r.2) := by
  obtain ⟨q, k, v⟩ := qkv
  rw [appendRows]
  simp only [Option.bind_eq_bind, Option.bind_assoc, Option.map_eq_bind]
  rfl

/-- The projections and the loop over the tokens. -/
theorem project_append_eq {pos : Nat} :
    ((mapFrom (fun _ => projectRow cfg l) pos x).bind fun qkv =>
        appendRows m cfg l layer pos qkv kv)
      = ((gqaCausal m cfg l layer).writes pos x kv).bind fun kv' =>
          (mapFrom (queryRow m cfg l layer) pos x).map fun qs => (qs, kv') := by
  induction x generalizing pos kv with
  | nil => rfl
  | cons row rest ih =>
    rw [mapFrom_cons, mapFrom_cons, Causal.writes]
    simp only [gqaCausal, queryRow]
    cases hproj : projectRow cfg l row with
    | none => rfl
    | some qkv =>
      simp only [Option.bind_some]
      -- a panic of the first token's norms is one of both sides, whatever the others do
      cases hq : normRope m cfg l layer (asUsize cfg.nHeads) l.qNorm qkv.1 pos with
      | none =>
        simp only [Option.bind_none, Option.map_none, Option.bind_fun_none]
        cases mapFrom (fun _ => projectRow cfg l) (pos + 1) rest with
        | none => rfl
        | some ts =>
          rw [Option.map_some, Option.bind_some, appendRows_cons, hq]
          rfl
      | some q =>
        cases hw : (normRope m cfg l layer (asUsize cfg.nKvHeads) l.kNorm qkv.2.1 pos).bind fun k =>
            writeKv layer pos k qkv.2.2 kv with
        | none =>
          cases mapFrom (fun _ => projectRow cfg l) (pos + 1) rest with
          | none => rfl
          | some ts =>
            rw [Option.map_some, Option.bind_some, appendRows_cons, hq, hw]
            rfl
        | some kv₁ =>
          have hrest : ((mapFrom (fun _ => projectRow cfg l) (pos + 1) rest).map (qkv :: ·)).bind
                (fun ts => appendRows m cfg l layer pos ts kv)
              = ((mapFrom (fun _ => projectRow cfg l) (pos + 1) rest).bind fun ts =>
                  appendRows m cfg l layer (pos + 1) ts kv₁).map fun r => (q :: r.1, r.2) := by
            cases mapFrom (fun _ => projectRow cfg l) (pos + 1) rest with
            | none => rfl
            | some ts =>
              rw [Option.map_some, Option.bind_some, appendRows_cons, hq, hw]
              rfl
          rw [hrest, ih, Option.bind_some]
          simp only [gqaCausal, Option.map_eq_bind, Option.bind_assoc]
          rfl

/-- No block is selected for the next `n` tokens. -/
def NoBlocks (m3Sparse : Bool) (cfg : GqaConfig α) (l : GqaWeights α) (pos n : Nat) : Prop :=
  m3Sparse = false ∨ l.idx = none ∨ pos ≠ 0 ∨ n ≤ 1 ∨
    (n + max (asUsize cfg.indexBlockSize) 1 - 1) / max (asUsize cfg.indexBlockSize) 1
      ≤ asUsize cfg.indexTopkBlocks

omit [Field α] in
theorem m3BlockSelect_none {pos : Nat} (h : NoBlocks m3Sparse cfg l pos x.length) :
    m3BlockSelect cfg m3Sparse l x pos = none := by
  unfold m3BlockSelect
  dsimp only
  split
  · rfl
  next hgate =>
    push Not at hgate
    rcases h with hoff | hidx | hpos | hlen | hfew
    · exact absurd hoff hgate.1
    · rw [hidx]
      rfl
    · exact absurd hgate.2.1 hpos
    · omega
    · cases l.idx with
      | none => rfl
      | some idx => exact if_pos hfew

/-- `attention_gqa` over the next tokens of a sequence. -/
def gqaCall (m : GqaMath α) (m3Sparse : Bool) (cfg : GqaConfig α) (l : GqaWeights α)
    (layer : Nat) : Call (GqaCache α × Nat) (List α) (List α) := fun st x =>
  (attentionGqa m m3Sparse cfg l layer st.1 x st.2).map fun r => (r.1, r.2, st.2 + x.length)

/-- **A call without a block selection is the causal one.** -/
theorem gqaCall_eq {st : GqaCache α × Nat} (hsel : NoBlocks m3Sparse cfg l st.2 x.length)
    (hx : x ≠ []) :
    gqaCall m m3Sparse cfg l layer st x = (gqaCausal m cfg l layer).call st x := by
  obtain ⟨kv, pos⟩ := st
  unfold gqaCall attentionGqa Causal.call
  rw [m3BlockSelect_none hsel]
  cases hg : group cfg with
  | none =>
    have hnone : ∀ kv', mapFrom ((gqaCausal m cfg l layer).out kv') pos x = none := fun kv' => by
      obtain ⟨row, rest, rfl⟩ := List.exists_cons_of_ne_nil hx
      rw [mapFrom_cons]
      simp only [gqaCausal, outRow, hg, Option.bind_none]
    simp only [hnone, Option.map_none, Option.bind_fun_none]
    rfl
  | some g =>
    have hout : ∀ kv', mapFrom ((gqaCausal m cfg l layer).out kv') pos x
        = ((mapFrom (queryRow m cfg l layer) pos x).bind fun qs =>
            qs.zipIdx.mapM fun qs => queryContext m cfg layer g x.length qs.2 kv' none
              (pos + qs.2) qs.1).bind fun ctx => matmulRows (asUsize cfg.hidden) ctx l.o := by
      intro kv'
      have hzip : ∀ qs : List (List α), (qs.zipIdx.mapM fun qs =>
          queryContext m cfg layer g x.length qs.2 kv' none (pos + qs.2) qs.1)
          = mapFrom (queryContext m cfg layer g 1 0 kv' none) pos qs :=
        fun qs => zipIdx_mapM (queryContext m cfg layer g 1 0 kv' none) pos qs
      simp only [hzip, matmulRows_eq_mapFrom pos]
      rw [mapFrom_bind, mapFrom_bind]
      simp only [gqaCausal, outRow, hg, Option.bind_some]
    simp only [Option.bind_eq_bind, Option.bind_some]
    rw [projectQkv_eq pos, ← Option.bind_assoc, project_append_eq, Option.bind_assoc]
    simp only [hout]
    rw [Option.map_bind]
    congr 1
    funext kv'
    cases mapFrom (queryRow m cfg l layer) pos x with
    | none => rfl
    | some qs =>
      simp only [Function.comp_apply, Option.map_some, Option.bind_some]
      rw [← Option.bind_assoc]
      cases (qs.zipIdx.mapM fun qs => queryContext m cfg layer g x.length qs.2 kv' none
          (pos + qs.2) qs.1).bind fun ctx => matmulRows (asUsize cfg.hidden) ctx l.o <;> rfl

/-- **Grouped-query attention may be cut into calls anywhere.** -/
theorem gqa_splits :
    Splits (gqaCall m m3Sparse cfg l layer) fun st rest =>
      NoBlocks m3Sparse cfg l st.2 rest.length := by
  refine Splits.of_eq (Causal.splits (c := gqaCausal m cfg l layer)) ?_ ?_
  · intro st x y out st' _ hx hcall
    obtain ⟨_, _, hpos⟩ := Causal.call_eq_some.mp hcall
    have hlen := List.length_pos_of_ne_nil hx
    have hne : st'.2 ≠ 0 := by omega
    exact Or.inr (Or.inr (Or.inl hne))
  · intro st x y hsel hx
    refine gqaCall_eq ?_ hx
    rw [List.length_append] at hsel
    have hle : x.length ≤ x.length + y.length := Nat.le_add_right _ _
    refine hsel.imp id (Or.imp id (Or.imp id (Or.imp (Nat.le_trans hle) fun hfew => ?_)))
    exact Nat.le_trans (Nat.div_le_div_right (by omega)) hfew

end

/-- Two query heads that share a key head, in a sliding layer of two positions. -/
def twoQueries : GqaConfig ℚ where
  toStackConfig := { Heads.twoHeads with arch := .maple }
  nKvHeads := 1
  swaWindow := 2
  layerSwa := [true]
  nopeOnGlobal := true
  indexBlockSize := 0
  indexTopkBlocks := 0

def evenGqaMath : GqaMath ℚ where
  toRowMath := Heads.evenMath
  ropeNeox := fun v _ _ _ => v

/-- One fused projection, and no norms. -/
def onesGqa : GqaWeights ℚ where
  proj := .fused (Heads.onesTensor 8 1).toQTensor
  qNorm := []
  kNorm := []
  o := (Heads.onesTensor 1 4).toQTensor
  idx := none

/-- Room for eight tokens, all rows zero. -/
def zeroKv : GqaCache ℚ :=
  ⟨8, fun _ => 0, fun _ _ => [], fun _ _ => [], ⟨2, fun _ _ => [0, 0], fun _ _ => [0, 0]⟩⟩

end Colibri.Attention.Gqa
