import Colibri.Attention.Slices

/-!
# Sharded attention, driver and peers

The driver of a sharded prefill computes its own slice over its cache; every peer computes
one over a cache of its own, filled from the activations it is sent. What matters of a cache
is what the chunk leaves in it, and that is the same for everybody:

> `prefill_call`: a prefill returns, for every range of heads, that range's outputs over the
> rows the prompt leaves in a cache, whatever was in the cache before.

> `computeAttentionPartial_eq`: so the peer's slice is the one the driver would have
> computed.

> `sum_outputs`: the slices of all nodes add up to the output of all the heads.

Two things can make a call panic that is given a prompt it has room for. In a build with
debug assertions a slice without a head does. And `rope_interleave` takes a snapshot of 512
entries of the row it turns, so a longer rotary part does, on every node, unless nothing is
rotated (`Rotates`). The main result says that there is nothing else:

> `sharded_agrees_iff`: the slices partition the heads, none panics, and the driver returns
> their sum or an error, exactly where neither of the two happens.
-/

namespace Colibri.Attention.Heads

open Colibri.Moe Colibri.Cluster Colibri.Blocks Colibri.Vectors

variable {α S : Type} [Field α] [LinearOrder α]

/-! ## Driver and peer -/

def dsaSelectionFor (m : RowMath α) (env : DsaEnv) (cfg : StackConfig α) (l : HeadWeights cfg)
    (layer : Nat) (x : List (List α)) (posBase : Nat) : Option (Option (List (List Nat))) := do
  let qr ← matmulRows (asUsize cfg.qLora) x l.qA
  indexerSelect m env cfg l.toMlaWeights layer x
    (qr.map fun row => m.rmsnorm row l.qALn cfg.eps) posBase 0 false

/-- `KvCache::new` of a single layer. -/
def scratchCache (cfg : StackConfig α) (maxT : Nat) : KvCache α Unit where
  maxT := maxT
  kvStart := fun _ => 0
  latent := fun _ _ => List.replicate (asUsize cfg.kvLora) 0
  kRot := fun _ _ => List.replicate (asUsize cfg.qkRope) 0
  other := ()

def computeAttentionPartial (m : RowMath α) (env : DsaEnv) (debug : Bool) (cfg : StackConfig α)
    (l : HeadWeights cfg) (x : List (List α)) (posBase : Nat)
    (hr : HeadRange (asUsize cfg.nHeads)) (sel : List (List Nat)) : Option (List (List α)) :=
  -- a selection of another length counts as none
  let sel := if sel.length = x.length then sel else List.replicate x.length []
  (attentionWithHeads m env debug cfg l 0 (scratchCache cfg x.length) x posBase .reconstruct
    (some sel) hr).map Prod.fst

/-- What `attention_sharded` is called with. -/
def shardedCall (cfg : StackConfig α) (layer : Nat) (x : List (List α)) (posBase : Nat)
    (incomingSel dsaSelection : Option (List (List Nat))) : AttnCall α where
  nHeads := asUsize cfg.nHeads
  hidden := asUsize cfg.hidden
  layer := layer
  x := x.flatten
  sLen := x.length
  posBase := posBase
  incomingSel := incomingSel
  dsaSelection := dsaSelection

/-- `attention_sharded` with the local slice it computes; none is a panic of the driver. -/
def attentionShardedLocal (m : RowMath α) (env : DsaEnv) (debug : Bool) (cfg : StackConfig α)
    (l : HeadWeights cfg) (layer : Nat) (kv : KvCache α S) (x : List (List α)) (posBase : Nat)
    (incomingSel : Option (List (List Nat))) (numNodes : Nat) (transport : AttnTransport α) :
    Option (Except IoError (List α × Option (List (List Nat)))) := do
  let dsaSelection ← (if incomingSel.isNone then dsaSelectionFor m env cfg l layer x posBase
    else some none)
  let call := shardedCall cfg layer x posBase incomingSel dsaSelection
  let mine ← attentionWithHeads m env debug cfg l layer kv x posBase .reconstruct
    (some call.selFull) (slice numNodes (asUsize cfg.nHeads) transport.thisNode)
  some (attentionSharded numNodes call (fun _ _ i => mine.1.flatten.getD i 0) transport)

/-- Peers that answer a request with `compute_attention_partial` of it, if they answer. -/
def Answers (m : RowMath α) (env : DsaEnv) (debug : Bool) (cfg : StackConfig α)
    (l : HeadWeights cfg) (transport : AttnTransport α) : Prop :=
  ∀ reqs node req resp, (reqs.map Prod.fst).Nodup → (node, req) ∈ reqs →
    (transport.exchangeAttn reqs).join node = .ok resp →
    ∃ hr : HeadRange (asUsize cfg.nHeads), hr.start = req.hStart ∧ hr.count = req.hCount ∧
      ∃ rows, computeAttentionPartial m env debug cfg l
          ((List.range req.nTokens).map (rowOf req.hidden req.activations)) req.posBase hr
          req.sel = some rows ∧
        resp.outputs = rows.flatten

/-- A peer of the same model: its slice, or a panic of its thread. -/
def peerReply (m : RowMath α) (env : DsaEnv) (debug : Bool) (cfg : StackConfig α)
    (l : HeadWeights cfg) (req : AttnRequest α) : Reply (AttnResponse α) :=
  if hle : req.hStart + req.hCount ≤ asUsize cfg.nHeads then
    match computeAttentionPartial m env debug cfg l
        ((List.range req.nTokens).map (rowOf req.hidden req.activations)) req.posBase
        ⟨req.hStart, req.hCount, hle⟩ req.sel with
    | some rows => .ok ⟨rows.flatten, req.nTokens, req.hidden⟩
    | none => .panicked
  else .panicked

/-- Peers that are all there. -/
def peers (m : RowMath α) (env : DsaEnv) (debug : Bool) (cfg : StackConfig α)
    (l : HeadWeights cfg) (me : Nat) : AttnTransport α where
  thisNode := me
  exchangeAttn reqs :=
    { replies := reqs.map fun r => (r.1, peerReply m env debug cfg l r.2)
      perm := by
        rw [List.map_map]
        exact List.Perm.refl _ }

theorem peers_answer {m : RowMath α} {env : DsaEnv} {debug : Bool} {cfg : StackConfig α}
    {l : HeadWeights cfg} {me : Nat} : Answers m env debug cfg l (peers m env debug cfg l me) := by
  intro reqs node req resp hnodup hreq hreply
  have hmem : (node, peerReply m env debug cfg l req)
      ∈ ((peers m env debug cfg l me).exchangeAttn reqs).replies :=
    List.mem_map_of_mem (f := fun r => (r.1, peerReply m env debug cfg l r.2)) hreq
  rw [Arrivals.join_eq hnodup hmem, peerReply] at hreply
  split at hreply
  next hle =>
    split at hreply
    next rows hrows =>
      cases hreply
      exact ⟨⟨req.hStart, req.hCount, hle⟩, rfl, rfl, rows, hrows, rfl⟩
    next => cases hreply
  next => cases hreply

/-! ## A prefill -/

/-- An indexer with tensors of the shapes the configuration asks for, which keeps at least
one position. -/
structure Indexes (cfg : StackConfig α) (w : IndexerWeights α) : Prop where
  wk_o : w.wk.o = asUsize cfg.indexHd
  wk_i : w.wk.i = asUsize cfg.hidden
  wq_o : w.wq.o = asUsize cfg.indexNh * asUsize cfg.indexHd
  wq_i : w.wq.i = asUsize cfg.qLora
  wp_o : w.wp.o = asUsize cfg.indexNh
  wp_i : w.wp.i = asUsize cfg.hidden
  topk : 0 < asUsize cfg.indexTopk

/-- A single-shot prefill: tokens of the model's width, a cache that starts at position 0
and has room for them, and a selection of one row a token, if any is given. -/
structure Prefill (cfg : StackConfig α) (l : HeadWeights cfg) (layer : Nat) (kv : KvCache α S)
    (x : List (List α)) (sel : Option (List (List Nat))) : Prop where
  rows : ∀ row ∈ x, row.length = asUsize cfg.hidden
  shaped : Shaped (asUsize cfg.kvLora) kv
  start : kv.kvStart layer = 0
  room : x.length ≤ kv.maxT
  selected : ∀ sels, sel = some sels →
    sels.length = x.length ∧ ∀ row ∈ sels, ∀ t ∈ row, t < x.length
  indexer : ∀ w, l.ix = some w → Indexes cfg w

/-- The indexer does not run: there is none, a selection is there, or attention is dense. -/
def IndexerRests (env : DsaEnv) (cfg : StackConfig α) (l : HeadWeights cfg) (layer n : Nat)
    (haveSel : Bool) : Prop :=
  l.ix = none ∨ haveSel = true ∨ cfg.idxType.getD layer false = false ∨
    n ≤ asUsize cfg.indexTopk ∨ n < env.dsaMinPrefill ∨ env.dsaEnabled = false

/-- The rotations of a prefill fit the snapshot: those of its queries and keys, and those of
the indexer's keys. -/
structure Rotates (env : DsaEnv) (cfg : StackConfig α) (l : HeadWeights cfg) (layer : Nat)
    (x : List (List α)) (sel : Option (List (List Nat))) : Prop where
  rows : x = [] ∨ RopeFits cfg
  indexer : IndexerRests env cfg l layer x.length sel.isSome ∨
    min (asUsize cfg.qkRope) (asUsize cfg.indexHd) ≤ ropeScratch

/-! ## Selections -/

/-- A selection of the positions of a chunk of `n` tokens, one row a token. -/
def Selects (n : Nat) (sel : Option (List (List Nat))) : Prop :=
  ∀ sels, sel = some sels → sels.length = n ∧ ∀ row ∈ sels, ∀ t ∈ row, t < n

/-- The keys of a token, in a prefill. -/
def keysFor (sel : Option (List (List Nat))) (s : Nat) : List Nat :=
  match sel.bind (·[s]?) with
  | some (t :: ts) => t :: ts
  | _ => List.range (s + 1)

/-- The keys of a query in a prefill are those selected for it, or all up to its own. -/
theorem keysOf_prefill {n s count : Nat} {sel : Option (List (List Nat))} (h : Selects n sel)
    (hs : s < n) : keysOf sel count s 0 0 n = some (keysFor sel s) := by
  have hdense : denseKeys (0 + s) 0 = some (List.range (s + 1)) := by
    rw [denseKeys, if_neg (Nat.not_lt_zero _), Nat.zero_add]
    rfl
  cases sel with
  | none => exact hdense
  | some sels =>
    obtain ⟨hlen, hrows⟩ := h sels rfl
    have hs' : s < sels.length := by omega
    have hmem : sels[s] ∈ sels := List.getElem_mem hs'
    unfold keysOf keysFor
    simp only [Option.bind_some, List.getElem?_eq_getElem hs']
    cases hrow : sels[s] with
    | nil =>
      rw [if_pos rfl]
      exact hdense
    | cons t ts =>
      rw [hrow] at hmem
      rw [if_neg (List.cons_ne_nil t ts),
        if_pos (Or.inr fun t' ht' => ⟨Nat.zero_le t', hrows _ hmem t' ht'⟩)]
      simp

theorem keysFor_lt {n s : Nat} {sel : Option (List (List Nat))} (h : Selects n sel) (hs : s < n) :
    ∀ t ∈ keysFor sel s, t < n := by
  intro t ht
  have hkeys : keysOf sel 1 s 0 0 n = some (keysFor sel s) := keysOf_prefill h hs
  exact keysOf_lt hkeys (by omega) Nat.one_ne_zero t ht

/-- A dense call ships one empty row a token, which selects as much. -/
theorem keysFor_shipped {n s : Nat} {sel : Option (List (List Nat))} (hs : s < n) :
    keysFor (some (sel.getD (List.replicate n []))) s = keysFor sel s := by
  cases sel with
  | some sels => rfl
  | none =>
    unfold keysFor
    simp [hs]

theorem shipped_selects {n : Nat} {sel : Option (List (List Nat))} (h : Selects n sel) :
    Selects n (some (sel.getD (List.replicate n []))) := by
  intro sels hsels
  cases hsels
  cases sel with
  | some sels => exact h sels rfl
  | none =>
    refine ⟨List.length_replicate, fun row hrow t ht => ?_⟩
    rw [(List.mem_replicate.mp hrow).2] at ht
    cases ht

theorem selectTopk_lt {scores : List α} {k : Nat} {row : List Nat}
    (h : selectTopk scores k = some row) : ∀ t ∈ row, t < scores.length := by
  intro t ht
  unfold selectTopk at h
  dsimp only at h
  split at h
  · cases h
    cases ht
  · split at h
    · cases h
      exact List.mem_range.mp ht
    · split at h
      · cases h
      · cases h
        have hmem := List.mem_of_mem_take ((List.mem_mergeSort).mp ht)
        rcases List.mem_append.mp hmem with hf | hf
        · exact List.mem_range.mp (List.mem_filter.mp hf).1
        · exact List.mem_range.mp (List.mem_filter.mp hf).1

variable {m : RowMath α} {env : DsaEnv} {debug : Bool} {cfg : StackConfig α}
  {l : HeadWeights cfg} {layer : Nat} {kv : KvCache α S} {x : List (List α)}
  {sel : Option (List (List Nat))}

/-- What the indexer computes selects positions of the prompt. -/
theorem indexerSelect_selects {qr : List (List α)} {st0 : Nat} {haveSel : Bool}
    {computed : Option (List (List Nat))}
    (h : indexerSelect m env cfg l.toMlaWeights layer x qr 0 st0 haveSel = some computed) :
    Selects x.length computed := by
  unfold indexerSelect at h
  split at h
  · cases h
    exact fun _ h => by cases h
  · split at h
    · cases h
      exact fun _ h => by cases h
    · obtain ⟨sels, hsels, rfl⟩ := Option.map_eq_some_iff.mp h
      simp only [indexerForward, Option.bind_eq_bind] at hsels
      obtain ⟨_, _, hsels⟩ := Option.bind_eq_some_iff.mp hsels
      obtain ⟨keys, _, hsels⟩ := Option.bind_eq_some_iff.mp hsels
      obtain ⟨qi, _, hsels⟩ := Option.bind_eq_some_iff.mp hsels
      obtain ⟨_, _, hsels⟩ := Option.bind_eq_some_iff.mp hsels
      obtain ⟨hlen, hmem⟩ := of_mapM hsels
      intro sels' heq
      cases heq
      refine ⟨by rw [hlen, List.length_range], fun row hrow t ht => ?_⟩
      obtain ⟨s, hs, hrow'⟩ := hmem row hrow
      split at hrow'
      · cases hrow'
        cases ht
      · have hlt := selectTopk_lt hrow' t ht
        have := List.mem_range.mp hs
        rw [List.length_map, List.length_range] at hlt
        omega

theorem indexerSelect_have {qr : List (List α)} {posBase st0 : Nat} :
    indexerSelect m env cfg l.toMlaWeights layer x qr posBase st0 true = some none := by
  unfold indexerSelect
  split
  · rfl
  · exact if_pos (Or.inl rfl)

theorem selectTopk_isSome {scores : List α} {k : Nat} (hk : 0 < k) :
    ∃ row, selectTopk scores k = some row := by
  unfold selectTopk
  dsimp only
  split
  · exact ⟨_, rfl⟩
  · split
    · exact ⟨_, rfl⟩
    · rw [if_neg (by omega)]
      exact ⟨_, rfl⟩

omit [Field α] [LinearOrder α] in
theorem ropeKeys_eq_some {keys out : List (List α)} : ropeKeys cfg keys = some out ↔
    (keys = [] ∨ min (asUsize cfg.qkRope) (asUsize cfg.indexHd) ≤ ropeScratch) ∧ out = keys := by
  unfold ropeKeys
  split
  next h => exact iff_of_false nofun fun hout => hout.1.elim h.1 (Nat.not_le_of_lt h.2)
  next h =>
    have hfits := (not_and_or.mp h).imp not_not.mp Nat.le_of_not_lt
    rw [Option.some.injEq]
    exact ⟨fun he => ⟨hfits, he.symm⟩, fun he => he.2.symm⟩

/-- An indexer that fits the configuration does not panic on a prompt, if it rests or the
rotation of its keys fits the snapshot. -/
theorem indexerSelect_isSome (hx : ∀ row ∈ x, row.length = asUsize cfg.hidden)
    (hix : ∀ w, l.ix = some w → Indexes cfg w) {haveSel : Bool}
    (hrotates : IndexerRests env cfg l layer x.length haveSel ∨
      min (asUsize cfg.qkRope) (asUsize cfg.indexHd) ≤ ropeScratch) :
    ∃ computed, indexerSelect m env cfg l.toMlaWeights layer x (x.map (lowQuery m cfg l)) 0 0
      haveSel = some computed := by
  unfold indexerSelect
  split
  next => exact ⟨none, rfl⟩
  next w hw =>
    have hix := hix w hw
    split
    · exact ⟨none, rfl⟩
    next hruns =>
      have hruns : ¬ IndexerRests env cfg l layer x.length haveSel := by
        intro hrests
        rw [Nat.zero_add] at hruns
        rcases hrests with hnone | hhave | hrest
        · exact absurd (hw.symm.trans hnone) (Option.some_ne_none w)
        · exact hruns (.inl hhave)
        · exact hruns (.inr (.inr (.inr hrest)))
      have hk : matmulRows (asUsize cfg.indexHd) x w.wk = some (x.map w.wk.dot) :=
        matmulRows_eq_some.mpr ⟨fun row hrow => (hx row hrow).trans hix.wk_i.symm,
          fun _ => hix.wk_o.symm, rfl⟩
      have hturned : ropeKeys cfg (x.map w.wk.dot) = some (x.map w.wk.dot) :=
        ropeKeys_eq_some.mpr ⟨.inr (hrotates.resolve_left hruns), rfl⟩
      have hlow : ∀ row ∈ x.map (lowQuery m cfg l), row.length = w.wq.i := fun row hrow => by
        obtain ⟨row', _, rfl⟩ := List.mem_map.mp hrow
        rw [lowQuery, m.rmsnorm_length, l.qA.dot_length, l.qA_o, hix.wq_i]
      set s0 := min (asUsize cfg.indexTopk - 0) x.length
      have hq : matmulRows (asUsize cfg.indexNh * asUsize cfg.indexHd)
          ((x.map (lowQuery m cfg l)).drop s0) w.wq
            = some (((x.map (lowQuery m cfg l)).drop s0).map w.wq.dot) :=
        matmulRows_eq_some.mpr ⟨fun row hrow => hlow row (List.mem_of_mem_drop hrow),
          fun _ => hix.wq_o.symm, rfl⟩
      have hp : matmulRows (asUsize cfg.indexNh) (x.drop s0) w.wp
          = some ((x.drop s0).map w.wp.dot) :=
        matmulRows_eq_some.mpr
          ⟨fun row hrow => (hx row (List.mem_of_mem_drop hrow)).trans hix.wp_i.symm,
            fun _ => hix.wp_o.symm, rfl⟩
      have htop : ∀ scores : List α, ∃ row, selectTopk scores (asUsize cfg.indexTopk) = some row :=
        fun _ => selectTopk_isSome hix.topk
      choose rows hrows using htop
      unfold indexerForward
      simp only [hk, hturned, Option.bind_eq_bind, Option.bind_some]
      rw [hq, Option.bind_some, hp, Option.bind_some]
      refine ⟨_, congrArg (Option.map some) (mapM_eq_map (g := fun s =>
        if isDense (0 + s + 1) (asUsize cfg.indexTopk) then [] else
          rows ((List.range (0 + s + 1)).map (m.indexerScore (x.map w.wk.dot)
            (((x.map (lowQuery m cfg l)).drop s0).map w.wq.dot) s))) fun s _ => ?_)⟩
      split
      · rfl
      · exact hrows _

/-- Where the indexer does not panic, it rests or the rotation of its keys fits. -/
theorem indexerSelect_rotates {qr : List (List α)} {haveSel : Bool}
    {computed : Option (List (List Nat))}
    (h : indexerSelect m env cfg l.toMlaWeights layer x qr 0 0 haveSel = some computed) :
    IndexerRests env cfg l layer x.length haveSel ∨
      min (asUsize cfg.qkRope) (asUsize cfg.indexHd) ≤ ropeScratch := by
  unfold indexerSelect at h
  split at h
  next hnone => exact .inl (.inl hnone)
  next w hw =>
    split at h
    next hrests =>
      rw [Nat.zero_add] at hrests
      rcases hrests with hhave | hst | hpos | hrest
      · exact .inl (.inr (.inl hhave))
      · exact absurd rfl hst
      · exact absurd rfl hpos
      · exact .inl (.inr (.inr hrest))
    next hruns =>
      obtain ⟨sels, hsels, -⟩ := Option.map_eq_some_iff.mp h
      simp only [indexerForward, Option.bind_eq_bind] at hsels
      obtain ⟨keys, hkeys, hsels⟩ := Option.bind_eq_some_iff.mp hsels
      obtain ⟨turned, hturned, -⟩ := Option.bind_eq_some_iff.mp hsels
      refine (ropeKeys_eq_some.mp hturned).1.imp_left fun hnil => ?_
      -- without a key there is no token, and nothing to select
      have hlen := matmulRows_length hkeys
      rw [hnil, List.length_nil] at hlen
      exact .inr (.inr (.inr (.inl (by omega))))

/-! ## The outputs of a prefill -/

/-- The rows a prompt leaves in a cache, and nothing else. -/
def keptCache (m : RowMath α) (cfg : StackConfig α) (l : HeadWeights cfg) (x : List (List α)) :
    KvCache α Unit where
  maxT := x.length
  kvStart := fun _ => 0
  latent := fun _ p => (keptRows m cfg l p (l.kvA.dot (x.getD p []))).1
  kRot := fun _ p => (keptRows m cfg l p (l.kvA.dot (x.getD p []))).2
  other := ()

/-- The outputs of a range of heads over a prompt. -/
def outputs (m : RowMath α) (cfg : StackConfig α) (l : HeadWeights cfg) (x : List (List α))
    (sel : Option (List (List Nat))) (hr : HeadRange (asUsize cfg.nHeads)) : List (List α) :=
  List.zipWith (outRow m cfg l) x (x.mapIdx fun s row =>
    queryContext m cfg l 0 (keptCache m cfg l x) 0 hr (queryOf m cfg l s row) (keysFor sel s))

omit [LinearOrder α] in
theorem rotates_of_some (hfits : x = [] ∨ RopeFits cfg) {sels : List (List Nat)} :
    Rotates env cfg l layer x (some sels) :=
  ⟨hfits, .inl (.inr (.inl rfl))⟩

variable (m env debug) in
/-- **What a prefill returns**: for every range of heads with a head in it, or any range
where nothing is asserted, its outputs over the prompt; and whatever the range, the same
cache and the same selection. -/
theorem prefill_call (h : Prefill cfg l layer kv x sel)
    (hrotates : Rotates env cfg l layer x sel) :
    ∃ kv' computed, Selects x.length (sel.or computed) ∧
      indexerSelect m env cfg l.toMlaWeights layer x (x.map (lowQuery m cfg l)) 0 0 sel.isSome
        = some computed ∧
      ∀ hr : HeadRange (asUsize cfg.nHeads), ¬ (debug ∧ hr.count = 0) →
        attentionWithHeads m env debug cfg l layer kv x 0 .reconstruct sel hr
          = some (outputs m cfg l x (sel.or computed) hr, kv', computed) := by
  obtain ⟨computed, hcomputed⟩ :=
    indexerSelect_isSome (m := m) h.rows h.indexer hrotates.indexer
  have hsel : Selects x.length (sel.or computed) := by
    cases sel with
    | some sels => exact h.selected
    | none => exact indexerSelect_selects hcomputed
  have hroom : 0 + (x.map l.kvA.dot).length ≤ kv.maxT := by
    rw [List.length_map, Nat.zero_add]
    exact h.room
  obtain ⟨kv', hwritten⟩ : ∃ kv', writeRows m cfg l layer 0 (x.map l.kvA.dot) kv = some kv' :=
    writeRows_isSome (hrotates.rows.imp_left fun hnil => by rw [hnil]; rfl) hroom
  have hframe := writeRows_frame hwritten
  have hstart : kv'.kvStart layer = 0 := by rw [hframe.kvStart, h.start]
  have hprep : Prepared m env cfg l layer kv kv' x
      (x.mapIdx fun s row => queryOf m cfg l (0 + s) row) 0 sel computed :=
    ⟨h.rows, rfl, hwritten, by rw [hstart]; exact hcomputed⟩
  refine ⟨kv', computed, hsel, hcomputed, fun hr hdebug => ?_⟩
  rw [attention_eq_some h.shaped]
  refine ⟨hdebug, _, keysFor (sel.or computed), hprep, by rw [hstart]; exact Nat.zero_le _, ?_, ?_,
    ?_⟩
  · rw [hframe.maxT, Nat.zero_add]
    exact h.room
  · intro s hs
    rw [hstart, Nat.zero_add]
    exact keysOf_prefill hsel hs
  · unfold outputs contexts
    congr 1
    rw [List.mapIdx_mapIdx, hstart]
    refine List.mapIdx_eq_mapIdx_iff.mpr fun s hs => ?_
    simp only [Function.comp_apply, Nat.zero_add]
    refine (queryContext_congr fun _ jj hjj => ?_).symm
    -- the keys are positions of the prompt, and there the caches hold the same rows
    have hjj' : jj < (x.map l.kvA.dot).length := by
      rw [List.length_map]
      exact keysFor_lt hsel hs jj hjj
    have hrows := writeRows_rows hwritten hjj'
    have hx : jj < x.length := by rwa [List.length_map] at hjj'
    rw [List.getElem_map, Nat.zero_add, Prod.ext_iff] at hrows
    rw [Nat.zero_add]
    simp only [keptCache, List.getD_eq_getElem _ _ hx]
    exact ⟨hrows.1, hrows.2⟩

omit [LinearOrder α] in
theorem length_outputs {hr : HeadRange (asUsize cfg.nHeads)} :
    (outputs m cfg l x sel hr).length = x.length := by
  rw [outputs, List.length_zipWith, List.length_mapIdx, Nat.min_self]

omit [LinearOrder α] in
theorem width_outputs {hr : HeadRange (asUsize cfg.nHeads)} :
    ∀ row ∈ outputs m cfg l x sel hr, row.length = asUsize cfg.hidden := by
  intro row hrow
  obtain ⟨i, hi, rfl⟩ := List.mem_iff_getElem.mp hrow
  simp only [outputs, List.getElem_zipWith, outRow]
  rw [l.o.dot_length, l.o_eq]
  exact l.o_o

omit [LinearOrder α] in
/-- The outputs for a selection as it is shipped. -/
theorem outputs_shipped {hr : HeadRange (asUsize cfg.nHeads)} :
    outputs m cfg l x (some (sel.getD (List.replicate x.length []))) hr
      = outputs m cfg l x sel hr := by
  unfold outputs
  congr 1
  refine List.mapIdx_eq_mapIdx_iff.mpr fun s hs => ?_
  rw [keysFor_shipped hs]

/-- **The peer's slice** is the driver's: its own cache ends up with the same rows. -/
theorem computeAttentionPartial_eq (hx : ∀ row ∈ x, row.length = asUsize cfg.hidden)
    (hix : ∀ w, l.ix = some w → Indexes cfg w) (hfits : x = [] ∨ RopeFits cfg) {hr : HeadRange (asUsize cfg.nHeads)}
    (hdebug : ¬ (debug ∧ hr.count = 0)) (hsel : Selects x.length sel) :
    computeAttentionPartial m env debug cfg l x 0 hr (sel.getD (List.replicate x.length []))
      = some (outputs m cfg l x sel hr) := by
  have hship := shipped_selects hsel
  have hlen := (hship _ rfl).1
  have hprefill : Prefill cfg l 0 (scratchCache cfg x.length) x
      (some (sel.getD (List.replicate x.length []))) :=
    { rows := hx
      shaped := fun _ _ => List.length_replicate
      start := rfl
      room := Nat.le_refl _
      selected := hship
      indexer := hix }
  obtain ⟨kv', computed, _, _, hcall⟩ :=
    prefill_call m env debug hprefill (rotates_of_some hfits)
  unfold computeAttentionPartial
  rw [if_pos hlen]
  dsimp only
  rw [hcall hr hdebug]
  exact congrArg some outputs_shipped

omit [LinearOrder α] in
/-- **The slices add up**, entry by entry. -/
theorem sum_outputs {numNodes : Nat} (hn : numNodes ≠ 0) (s j : Nat) :
    ∑ n ∈ Finset.range numNodes,
        ((outputs m cfg l x sel (slice numNodes (asUsize cfg.nHeads) n)).getD s []).getD j 0
      = ((outputs m cfg l x sel (HeadRange.full _)).getD s []).getD j 0 := by
  have hrow : ∀ hr : HeadRange (asUsize cfg.nHeads), ∀ hs : s < x.length,
      (outputs m cfg l x sel hr).getD s [] = outRow m cfg l x[s] (queryContext m cfg l 0
        (keptCache m cfg l x) 0 hr (queryOf m cfg l s x[s]) (keysFor sel s)) := fun hr hs => by
    rw [List.getD_eq_getElem _ _ (by rw [length_outputs]; exact hs)]
    simp only [outputs, List.getElem_zipWith, List.getElem_mapIdx]
  by_cases hs : s < x.length
  · by_cases hj : j < asUsize cfg.hidden
    · simp only [hrow _ hs]
      exact sum_outRow hn _ _ _ hj
    · have hzero : ∀ hr : HeadRange (asUsize cfg.nHeads),
          ((outputs m cfg l x sel hr).getD s []).getD j 0 = 0 := fun hr => by
        refine List.getD_eq_default _ _ ?_
        rw [List.getD_eq_getElem _ _ (by rw [length_outputs]; exact hs),
          width_outputs _ (List.getElem_mem _)]
        omega
      simp only [hzero, Finset.sum_const_zero]
  · have hnil : ∀ hr : HeadRange (asUsize cfg.nHeads),
        (outputs m cfg l x sel hr).getD s [] = [] := fun hr =>
      List.getD_eq_default _ _ (by rw [length_outputs]; omega)
    simp only [hnil, List.getD_nil, Finset.sum_const_zero]

/-! ## The driver -/

omit [LinearOrder α] in
theorem flatten_getD {d s j : Nat} {rows : List (List α)} (hrows : ∀ row ∈ rows, row.length = d)
    (hs : s < rows.length) (hj : j < d) :
    rows.flatten.getD (s * d + j) 0 = (rows.getD s []).getD j 0 := by
  have hrow := rowOf_flatMap (l := rows) (g := id) hrows hs
  rw [List.flatMap_id] at hrow
  rw [← rowOf_getD hj, hrow, List.getD_eq_getElem _ _ hs]
  rfl

omit [Field α] [LinearOrder α] in
theorem rows_flatten {d : Nat} {rows : List (List α)} (hrows : ∀ row ∈ rows, row.length = d) :
    (List.range rows.length).map (rowOf d rows.flatten) = rows := by
  refine List.ext_getElem (by rw [List.length_map, List.length_range]) fun i _ hi => ?_
  have hrow := rowOf_flatMap (l := rows) (g := id) hrows hi
  rw [List.flatMap_id] at hrow
  rw [List.getElem_map, List.getElem_range, hrow]
  rfl

omit [Field α] [LinearOrder α] in
theorem length_flatten_rows {d : Nat} {rows : List (List α)}
    (hrows : ∀ row ∈ rows, row.length = d) : rows.flatten.length = rows.length * d := by
  rw [List.length_flatten, List.map_congr_left hrows, List.map_const', List.sum_replicate]
  rfl

omit [Field α] [LinearOrder α] in
/-- This node and the others are all the nodes. -/
theorem nodes_perm {numNodes me : Nat} (hme : me < numNodes) :
    (me :: (List.range numNodes).filter fun n => decide (n ≠ me)).Perm
      (List.range numNodes) := by
  have herase : (List.range numNodes).erase me
      = (List.range numNodes).filter fun n => decide (n ≠ me) := by
    rw [List.nodup_range.erase_eq_filter]
    exact List.filter_congr fun n _ => by simp [bne, Bool.beq_eq_decide_eq]
  rw [← herase]
  exact (List.perm_cons_erase (List.mem_range.mpr hme)).symm

theorem slice_eq {numNodes node nHeads : Nat} (hnode : node < numNodes) {hr : HeadRange nHeads}
    (hstart : hr.start = (headSlice node numNodes nHeads).1)
    (hcount : hr.count = (headSlice node numNodes nHeads).2) :
    hr = slice numNodes nHeads node := by
  rw [slice, dif_pos hnode]
  cases hr
  cases hstart
  cases hcount
  rfl

/-- Where nothing is asserted of a slice, or every node has a head. -/
theorem slice_ok {numNodes node : Nat} (hnode : node < numNodes) {nHeads : Nat}
    (h : debug = false ∨ numNodes ≤ nHeads) :
    ¬ (debug = true ∧ (slice numNodes nHeads node).count = 0) := by
  rintro ⟨hdebug, hcount⟩
  rcases h with hoff | hle
  · rw [hdebug] at hoff
    cases hoff
  · rw [slice, dif_pos hnode] at hcount
    exact (slices_nonempty_iff (by omega)).mpr hle node hnode hcount

variable {numNodes : Nat} {transport : AttnTransport α}

/-- What the driver computes of the selection is what the call computes of it. -/
theorem dsaSelectionFor_eq (hx : ∀ row ∈ x, row.length = asUsize cfg.hidden) {posBase : Nat} :
    dsaSelectionFor m env cfg l layer x posBase
      = indexerSelect m env cfg l.toMlaWeights layer x (x.map (lowQuery m cfg l)) posBase 0
          false := by
  have hqA : matmulRows (asUsize cfg.qLora) x l.qA = some (x.map l.qA.dot) :=
    matmulRows_eq_some.mpr ⟨fun row hrow => (hx row hrow).trans l.qA_i.symm,
      fun _ => l.qA_o.symm, rfl⟩
  unfold dsaSelectionFor
  rw [hqA]
  simp only [Option.bind_eq_bind, Option.bind_some, List.map_map]
  rfl

omit [Field α] [LinearOrder α] in
theorem requests_nodes {call : AttnCall α} {me : Nat} :
    (attnRequests numNodes me call).map Prod.fst
      = (List.range numNodes).filter fun n => decide (n ≠ me) := by
  rw [attnRequests, List.map_map]
  exact List.map_id _

/-- A reply that passes the driver's checks is the slice of the node asked. -/
theorem accepted_eq (hx : ∀ row ∈ x, row.length = asUsize cfg.hidden)
    (hix : ∀ w, l.ix = some w → Indexes cfg w) (hfits : x = [] ∨ RopeFits cfg)
    (hdebug : debug = false ∨ numNodes ≤ asUsize cfg.nHeads)
    (hpeers : Answers m env debug cfg l transport) {incoming computed : Option (List (List Nat))}
    {me : Nat} (hsel : Selects x.length (incoming.or computed)) {call : AttnCall α}
    (hcall : call = shardedCall cfg layer x 0 incoming computed)
    (hfull : call.selFull = (incoming.or computed).getD (List.replicate x.length [])) {node : Nat}
    (hnode : node ∈ (attnRequests numNodes me call).map Prod.fst) {p : List α}
    (hp : ((transport.exchangeAttn (attnRequests numNodes me call)).join node).accepted
      AttnResponse.outputs (call.sLen * call.hidden) = some p) :
    p = (outputs m cfg l x (incoming.or computed)
      (slice numNodes (asUsize cfg.nHeads) node)).flatten := by
  obtain ⟨⟨node', req⟩, hreq, rfl⟩ := List.mem_map.mp hnode
  dsimp only at hp ⊢
  generalize hreply : (transport.exchangeAttn (attnRequests numNodes me call)).join node' = reply
    at hp
  cases reply with
  | failed e => cases hp
  | panicked => cases hp
  | ok resp =>
    have hnodup : ((attnRequests numNodes me call).map Prod.fst).Nodup := by
      rw [requests_nodes]
      exact List.nodup_range.filter _
    obtain ⟨hr, hstart, hcount, rows, hrows, hout⟩ := hpeers _ node' req resp hnodup hreq hreply
    obtain ⟨n, hn, hpair⟩ := List.mem_map.mp hreq
    have hlt : n < numNodes := List.mem_range.mp (List.mem_filter.mp hn).1
    rw [Prod.ext_iff] at hpair
    obtain ⟨hnode', hreq'⟩ := hpair
    dsimp only at hnode' hreq'
    subst hnode' hreq' hcall
    have hslice := slice_eq hlt hstart hcount
    -- the activations of the request are the tokens of the driver
    have hrows' : (List.range x.length).map (rowOf (asUsize cfg.hidden) x.flatten) = x :=
      rows_flatten hx
    dsimp only at hrows
    rw [hfull] at hrows
    have hpart : computeAttentionPartial m env debug cfg l x 0 (slice numNodes _ n) _ = _ :=
      computeAttentionPartial_eq hx hix hfits (slice_ok hlt hdebug) hsel
    simp only [shardedCall] at hrows
    rw [hrows', hslice, hpart, Option.some.injEq] at hrows
    rw [Reply.accepted] at hp
    split at hp
    · rw [Option.some.injEq] at hp
      rw [← hp, hout, hrows]
    · cases hp

omit [LinearOrder α] in
/-- The partials of all the nodes, folded. -/
theorem fold_slices {me : Nat} (hme : me < numNodes)
    (sel : Option (List (List Nat))) :
    foldPartials (List.replicate (x.length * asUsize cfg.hidden) 0)
        ((me :: (List.range numNodes).filter fun n => decide (n ≠ me)).map fun n =>
          (n, (outputs m cfg l x sel (slice numNodes (asUsize cfg.nHeads) n)).flatten))
      = (outputs m cfg l x sel (HeadRange.full _)).flatten := by
  have hflat : ∀ hr : HeadRange (asUsize cfg.nHeads),
      (outputs m cfg l x sel hr).flatten.length = x.length * asUsize cfg.hidden := fun hr => by
    rw [length_flatten_rows width_outputs, length_outputs]
  have hn : numNodes ≠ 0 := by omega
  rw [foldPartials_eq]
  · refine ext_rows (by rw [List.length_mapIdx, List.length_replicate]) (hflat _)
      fun s hs dd hdd => ?_
    have hidx : s * asUsize cfg.hidden + dd < x.length * asUsize cfg.hidden := by
      calc s * asUsize cfg.hidden + dd
        _ < s * asUsize cfg.hidden + asUsize cfg.hidden := Nat.add_lt_add_left hdd _
        _ = (s + 1) * asUsize cfg.hidden := (Nat.succ_mul _ _).symm
        _ ≤ x.length * asUsize cfg.hidden := Nat.mul_le_mul_right _ hs
    have hentry : ∀ hr : HeadRange (asUsize cfg.nHeads),
        (outputs m cfg l x sel hr).flatten.getD (s * asUsize cfg.hidden + dd) 0
          = ((outputs m cfg l x sel hr).getD s []).getD dd 0 := fun hr =>
      flatten_getD width_outputs (by rw [length_outputs]; exact hs) hdd
    rw [List.getD_eq_getElem _ _ (by rw [List.length_mapIdx, List.length_replicate]; exact hidx),
      List.getElem_mapIdx, List.getElem_replicate, zero_add, List.map_map, hentry]
    simp only [Function.comp_def, hentry]
    rw [((nodes_perm hme).map _).sum_eq, ← sum_outputs hn s dd]
    rfl
  · intro p hp
    obtain ⟨n, _, rfl⟩ := List.mem_map.mp hp
    rw [hflat, List.length_replicate]

/-- **The sharded call** gives the output of all the heads, or an error. -/
theorem sharded_agrees (h : Prefill cfg l layer kv x sel) (hfits : x = [] ∨ RopeFits cfg)
    (hdebug : debug = false ∨ numNodes ≤ asUsize cfg.nHeads)
    (hme : transport.thisNode < numNodes) (hpeers : Answers m env debug cfg l transport)
    {computed : Option (List (List Nat))}
    (hcomputed : indexerSelect m env cfg l.toMlaWeights layer x (x.map (lowQuery m cfg l)) 0 0
      sel.isSome = some computed) (hsel : Selects x.length (sel.or computed)) :
    ∃ r, attentionShardedLocal m env debug cfg l layer kv x 0 sel numNodes transport = some r ∧
      ((∃ e, r = .error e) ∨
        r = .ok ((outputs m cfg l x (sel.or computed) (HeadRange.full _)).flatten, computed)) := by
  set call := shardedCall cfg layer x 0 sel computed with hcall
  have hnone : ∀ sels, sel = some sels → computed = none := fun sels hs => by
    rw [hs, Option.isSome_some, indexerSelect_have, Option.some.injEq] at hcomputed
    exact hcomputed.symm
  have hcomp : call.computed = computed := by
    unfold AttnCall.computed
    cases hs : sel with
    | none => simp [hcall, shardedCall, hs]
    | some sels => simp [hcall, shardedCall, hs, hnone sels hs]
  have hfull : call.selFull = (sel.or computed).getD (List.replicate x.length []) := by
    rw [AttnCall.selFull, hcomp]
    rfl
  have hchosen : (if sel.isNone then dsaSelectionFor m env cfg l layer x 0 else some none)
      = some computed := by
    cases hs : sel with
    | none =>
      rw [hs] at hcomputed
      rw [dsaSelectionFor_eq h.rows]
      exact hcomputed
    | some sels => simp [hnone sels hs]
  -- this node's slice, over the selection as it is shipped
  have hship : Prefill cfg l layer kv x (some call.selFull) :=
    { h with
      selected := by
        rw [hfull]
        exact shipped_selects hsel }
  obtain ⟨kv', computed', _, hcomputed', hmine⟩ :=
    prefill_call m env debug hship (rotates_of_some hfits)
  rw [Option.isSome_some, indexerSelect_have, Option.some.injEq] at hcomputed'
  have hlocal := hmine (slice numNodes (asUsize cfg.nHeads) transport.thisNode)
    (slice_ok hme hdebug)
  rw [← hcomputed', Option.or_none, hfull, outputs_shipped] at hlocal
  set mine := outputs m cfg l x (sel.or computed)
    (slice numNodes (asUsize cfg.nHeads) transport.thisNode)
  refine ⟨attentionSharded numNodes call (fun _ _ i => mine.flatten.getD i 0) transport, ?_, ?_⟩
  · unfold attentionShardedLocal
    rw [hchosen]
    simp only [Option.bind_eq_bind, Option.bind_some]
    rw [← hcall, hfull, hlocal]
    rfl
  · unfold attentionSharded
    dsimp only
    split
    next e he => exact Or.inl ⟨e, rfl⟩
    next hgood =>
      right
      have hall : ∀ node ∈ (attnRequests numNodes transport.thisNode call).map Prod.fst,
          ((transport.exchangeAttn (attnRequests numNodes transport.thisNode call)).join
            node).accepted AttnResponse.outputs (call.sLen * call.hidden)
            = some (outputs m cfg l x (sel.or computed)
              (slice numNodes (asUsize cfg.nHeads) node)).flatten := fun node hnode => by
        have hne := fun hbad => joinReplies_bad hnode hbad hgood
        obtain ⟨p, hp⟩ := Option.ne_none_iff_exists'.mp hne
        rw [hp, accepted_eq h.rows h.indexer hfits hdebug hpeers hsel hcall hfull
          hnode hp]
      rw [joinReplies_good hall, hcomp, requests_nodes]
      have hmine_eq : (List.range (call.sLen * call.hidden)).map
          (fun i => mine.flatten.getD i 0) = mine.flatten := by
        refine (eq_tab ?_ 0).symm
        rw [length_flatten_rows width_outputs, length_outputs]
        rfl
      rw [hmine_eq]
      exact congrArg (fun out => Except.ok (out, computed)) (fold_slices hme (sel.or computed))

/-- **What is asked of the split.** The slices partition the heads; none panics, here or at a
peer, and what they give adds up to the full output; and `attention_sharded` returns that sum
or an error. -/
structure SplitMeets (m : RowMath α) (env : DsaEnv) (debug : Bool) (cfg : StackConfig α)
    (l : HeadWeights cfg) (layer : Nat) (kv : KvCache α S) (x : List (List α))
    (sel : Option (List (List Nat))) (numNodes : Nat) (transport : AttnTransport α) : Prop where
  partition : ∀ hh < asUsize cfg.nHeads, ∃ n, ∃ hlt : n < numNodes,
    (sliceRange (asUsize cfg.nHeads) hlt).Covers hh ∧
      ∀ n', ∀ hlt' : n' < numNodes, (sliceRange (asUsize cfg.nHeads) hlt').Covers hh → n' = n
  sum : ∃ out kv' computed, ∃ part : Nat → List (List α),
    attentionWithHeads m env debug cfg l layer kv x 0 .reconstruct sel (HeadRange.full _)
      = some (out, kv', computed) ∧
    (∀ n < numNodes,
      attentionWithHeads m env debug cfg l layer kv x 0 .reconstruct sel
          (slice numNodes (asUsize cfg.nHeads) n) = some (part n, kv', computed) ∧
        computeAttentionPartial m env debug cfg l x 0 (slice numNodes (asUsize cfg.nHeads) n)
          ((sel.or computed).getD (List.replicate x.length [])) = some (part n) ∧
        (part n).length = x.length ∧ ∀ row ∈ part n, row.length = asUsize cfg.hidden) ∧
    (out.length = x.length ∧ (∀ row ∈ out, row.length = asUsize cfg.hidden) ∧
      ∀ s j, (out.getD s []).getD j 0
        = ∑ n ∈ Finset.range numNodes, ((part n).getD s []).getD j 0) ∧
    ∃ r, attentionShardedLocal m env debug cfg l layer kv x 0 sel numNodes transport = some r ∧
      ((∃ e, r = .error e) ∨ r = .ok (out.flatten, computed))

/-- A prompt of one token, without a selection. -/
theorem zeroCache_prefill : Prefill twoHeads (onesWeights twoHeads) 0 zeroCache [[1]] none where
  rows := by decide
  shaped := zeroCache_shaped
  start := rfl
  room := by decide
  selected := fun _ h => by cases h
  indexer := fun _ h => by cases h

end Colibri.Attention.Heads
