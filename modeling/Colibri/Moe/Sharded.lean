import Mathlib.Algebra.Order.Ring.Rat
import Mathlib.Algebra.Field.Rat
import Colibri.Cluster.Sharding
import Colibri.Lib.GroupBy
import Colibri.Moe.Route

/-!
# Experts split over nodes

`moe_sharded` splits the routed experts by owner. A node's shard is its columns of
the weight matrix; the driver computes its own and asks each other owner for the
partial sum of theirs. The columns are grouped by owner, so the shards split them
(`shardsOf_columns`), and in exact arithmetic the partials add up to what one node
computes over all columns (`moeSharded_refines`).

A call fails exactly when its own provider refuses or some reply is bad
(`shardedExpertsPartial_error_iff`).

The replies may come in any order, and a reply of the wrong length is an error. `Refuses` says when
a provider cannot serve a shard; `loopback_honest` is a cluster of one that serves itself.
-/

namespace Colibri.Moe

open Colibri.Cluster GroupBy

/-- One node's share of the routed experts. -/
structure Shard (α : Type) where
  node : Nat
  experts : List Nat
  weights : List α

/-- What carries requests to peers: which node this is, and what comes back for the
requests in flight. -/
structure Transport (α : Type) where
  thisNode : Nat
  exchange : (reqs : List (Nat × ExpertRequest α)) →
    Arrivals (ExpertResponse α) (reqs.map Prod.fst)

/-- `ClusterCtx`. -/
structure ClusterCtx (α : Type) where
  sharding : ExpertSharding
  transport : Transport α

/-- The tensors of an MoE layer: the router's, and the shared expert's FFN. -/
structure MoeLayer (α : Type) where
  router : List α
  routerBias : List α
  sharedFfn : List α → Nat → List α

section

variable {α E : Type} [Zero α] [Add α] [Mul α] [DecidableEq α]

/-- `subcols`: the columns `cols` of a matrix `[S, n_uniq]`. -/
def subcols (wMat : List α) (sLen nUniq : Nat) (cols : List Nat) : List α :=
  (List.range sLen).flatMap fun s => cols.map fun c => wMat.getD (s * nUniq + c) 0

/-- `by_node`: the columns in use by owner, and each owner's shard. -/
def shardsOf (sharding : ExpertSharding) (uniq : List Nat) (wMat : List α) (sLen : Nat) :
    List (Shard α) :=
  (groupBy (fun ui => sharding.owner (uniq.getD ui 0)) (List.range uniq.length)).map fun g =>
    { node := g.1
      experts := g.2.map (fun ui => uniq.getD ui 0)
      weights := subcols wMat sLen uniq.length g.2 }

/-- `local`: this node's shard, if it owns an expert in use. -/
def localShard (me : Nat) (shards : List (Shard α)) : Option (Shard α) :=
  shards.find? (fun s => s.node = me)

/-- `remotes`: a request to every other owner. -/
def peerRequests (me layer : Nat) (a : List α) (sLen dim : Nat) (shards : List (Shard α)) :
    List (Nat × ExpertRequest α) :=
  (shards.filter (fun s => s.node ≠ me)).map fun s =>
    (s.node, ⟨s.experts, s.weights, a, sLen, dim, layer⟩)

/-- This node's shard, computed while the requests are in flight: the partials and
the error to start joining with. -/
def localPartial (provider : Provider E) (ffn : E → List α → Nat → List α) (layer : Nat)
    (a : List α) (sLen dim : Nat) : Option (Shard α) → List (Nat × List α) × Option IoError
  | none => ([], none)
  | some s =>
    match computeExpertsPartial provider ffn layer s.experts s.weights a sLen dim with
    | .ok p => ([(s.node, p)], none)
    | .error e => ([], some e)

def shardedExpertsPartial (provider : Provider E) (ffn : E → List α → Nat → List α)
    (layer : Nat) (uniq : List Nat) (wMat a : List α) (sLen dim : Nat)
    (sharding : ExpertSharding) (transport : Transport α) : Except IoError (List α) :=
  let shards := shardsOf sharding uniq wMat sLen
  let reqs := peerRequests transport.thisNode layer a sLen dim shards
  let mine := localPartial provider ffn layer a sLen dim (localShard transport.thisNode shards)
  let joined := joinReplies ExpertResponse.outputs (sLen * dim) (transport.exchange reqs)
    (reqs.map Prod.fst) mine
  match joined.2 with
  | some e => .error e
  | none => .ok (foldPartials (List.replicate (sLen * dim) 0) joined.1)

def routerMatmul (x router : List α) (sLen d eN : Nat) : List α :=
  (List.range sLen).flatMap fun s => (List.range eN).map fun e =>
    ((List.range d).map fun j => x.getD (s * d + j) 0 * router.getD (e * d + j) 0).sum

/-- The routing of a batch, token by token; `route` takes a token's logits and the
bias. -/
def routeBatch (route : List α → List α → List Nat × List α) (cfg : MoeConfig α)
    (l : MoeLayer α) (x : List α) (sLen : Nat) : List (List Nat × List α) :=
  let eN := asUsize cfg.nExperts
  let logits := routerMatmul x l.router sLen (asUsize cfg.hidden) eN
  (List.range sLen).map fun s => route ((logits.drop (s * eN)).take eN) l.routerBias

/-- The shared expert, over all positions. -/
def addShared (l : MoeLayer α) (withShared : Bool) (x : List α) (sLen : Nat) (out : List α) :
    List α :=
  if withShared then addInto out (l.sharedFfn x sLen) else out

/-- `moe_sharded`; `out` is the caller's `[S, hidden]` buffer, cleared first. -/
def moeSharded (route : List α → List α → List Nat × List α)
    (ffn : E → List α → Nat → List α) (cfg : MoeConfig α) (l : MoeLayer α) (layer : Nat)
    (x : List α) (sLen : Nat) (withShared : Bool) (provider : Provider E)
    (sharding : ExpertSharding) (transport : Transport α) : Except IoError (List α) :=
  let d := asUsize cfg.hidden
  let (uniq, wMat) := unionAndWeights (routeBatch route cfg l x sLen)
  match shardedExpertsPartial provider ffn layer uniq wMat x sLen d sharding transport with
  | .error e => .error e
  | .ok summed =>
    .ok (addShared l withShared x sLen (addInto (List.replicate (sLen * d) 0) summed))

/-- `moe`: over the cluster, where one of several nodes is installed. -/
def moe (ctx : Option (ClusterCtx α)) (route : List α → List α → List Nat × List α)
    (ffn : E → List α → Nat → List α) (cfg : MoeConfig α) (l : MoeLayer α) (layer : Nat)
    (x : List α) (sLen : Nat) (withShared : Bool) (provider : Provider E) :
    Except IoError (List α) :=
  match ctx.filter (fun c => decide (c.sharding.numNodes > 1)) with
  | some c => moeSharded route ffn cfg l layer x sLen withShared provider c.sharding c.transport
  | none =>
    let d := asUsize cfg.hidden
    let (uniq, wMat) := unionAndWeights (routeBatch route cfg l x sLen)
    match computeExpertsPartialInto provider ffn layer uniq wMat x sLen d
        (List.replicate (sLen * d) 0) with
    | .error e => .error e
    | .ok out => .ok (addShared l withShared x sLen out)

end

/-! ## The shards -/

section

variable {α : Type} [Zero α] {sharding : ExpertSharding} {uniq : List Nat} {wMat : List α}
  {sLen : Nat}

theorem shardsOf_nodup (sharding : ExpertSharding) (uniq : List Nat) (wMat : List α)
    (sLen : Nat) : ((shardsOf sharding uniq wMat sLen).map Shard.node).Nodup := by
  rw [shardsOf, List.map_map]
  exact (groupBy_grouped _ _).nodup

theorem shardsOf_owner {s : Shard α} (hs : s ∈ shardsOf sharding uniq wMat sLen) :
    ∀ e ∈ s.experts, sharding.isLocal s.node e = true := by
  obtain ⟨g, hg, rfl⟩ := List.mem_map.mp hs
  intro e he
  obtain ⟨ui, hui, rfl⟩ := List.mem_map.mp he
  exact ExpertSharding.isLocal_iff.mpr ((groupBy_grouped _ _).key_eq g.1 g.2 hg ui hui)

theorem subcols_getD {cols : List Nat} {nUniq t j : Nat} (ht : t < sLen) (hj : j < cols.length) :
    (subcols wMat sLen nUniq cols).getD (t * cols.length + j) 0
      = wMat.getD (t * nUniq + cols[j]) 0 := by
  rw [subcols, getD_flatMap (fun _ _ => List.length_map _) (by rw [List.length_range]; exact ht) hj,
    List.getD_eq_getElem _ _ (by rw [List.length_map]; exact hj), List.getElem_map,
    List.getElem_range]

variable [DecidableEq α]

theorem expertRows_subcols {cols : List Nat} {nUniq j : Nat} (hj : j < cols.length) :
    expertRows (subcols wMat sLen nUniq cols) cols.length sLen j
      = expertRows wMat nUniq sLen cols[j] := by
  unfold expertRows
  refine List.filterMap_congr fun t ht => ?_
  rw [subcols_getD (List.mem_range.mp ht) hj]

/-- **A shard's columns are columns of the whole.** -/
theorem columns_shard (cols : List Nat) :
    columns (cols.map (fun ui => uniq.getD ui 0)) (subcols wMat sLen uniq.length cols) sLen
      = cols.map (fun ui => (uniq.getD ui 0, expertRows wMat uniq.length sLen ui)) := by
  rw [columns, List.length_map]
  refine List.ext_getElem (by simp) ?_
  intro j h₁ h₂
  rw [List.length_map] at h₂
  rw [List.getElem_map, List.getElem_range, List.getElem_map, expertRows_subcols h₂,
    List.getD_eq_getElem _ _ (by rw [List.length_map]; exact h₂), List.getElem_map]

/-- **The shards split the columns.** -/
theorem shardsOf_columns (sharding : ExpertSharding) (uniq : List Nat) (wMat : List α)
    (sLen : Nat) : ((shardsOf sharding uniq wMat sLen).flatMap
    (fun s => columns s.experts s.weights sLen)).Perm (columns uniq wMat sLen) := by
  have hperm := (groupBy_grouped (fun ui => sharding.owner (uniq.getD ui 0))
    (List.range uniq.length)).flatMap_perm
      (fun ui => [(uniq.getD ui 0, expertRows wMat uniq.length sLen ui)])
  simp only [← List.map_eq_flatMap] at hperm
  rw [shardsOf, List.flatMap_map]
  simp only [columns_shard]
  exact hperm

end

/-! ## Requests and the local shard -/

/-- Taking out the one item of a key splits the list. -/
theorem find_filter_perm {α : Type} {l : List (Shard α)} (hnd : (l.map Shard.node).Nodup)
    (me : Nat) :
    ((localShard me l).toList ++ l.filter (fun s => s.node ≠ me)).Perm l := by
  induction l with
  | nil => exact List.Perm.refl _
  | cons s l ih =>
    obtain ⟨hhead, htail⟩ := List.nodup_cons.mp hnd
    rw [localShard, List.find?_cons, List.filter_cons]
    by_cases h : s.node = me
    · have hrest : l.filter (fun s => s.node ≠ me) = l := by
        rw [List.filter_eq_self]
        intro s' hs'
        rw [decide_eq_true_eq]
        intro hs
        exact hhead (List.mem_map.mpr ⟨s', hs', hs.trans h.symm⟩)
      simp only [h, decide_true, ne_eq, not_true_eq_false, decide_false, Bool.false_eq_true,
        if_false, Option.toList_some, hrest, List.singleton_append, List.Perm.refl]
    · simp only [h, decide_false, ne_eq, not_false_eq_true, decide_true, if_true]
      exact List.perm_middle.trans ((ih htail).cons s)

theorem peerRequests_nodes {α : Type} {me layer : Nat} {a : List α} {sLen dim : Nat}
    {shards : List (Shard α)} :
    (peerRequests me layer a sLen dim shards).map Prod.fst
      = (shards.filter (fun s => s.node ≠ me)).map Shard.node := by
  rw [peerRequests, List.map_map]
  rfl

section

variable {α E : Type} [Zero α] {layer : Nat} {uniq : List Nat} {wMat a : List α} {sLen dim : Nat}
  {sharding : ExpertSharding}

theorem peerRequests_nodup {me : Nat} :
    ((peerRequests me layer a sLen dim (shardsOf sharding uniq wMat sLen)).map Prod.fst).Nodup := by
  rw [peerRequests_nodes]
  exact (shardsOf_nodup _ _ _ _).sublist (List.filter_sublist.map _)

variable [Add α] [Mul α] [DecidableEq α] {provider : Provider E}
  {ffn : E → List α → Nat → List α} {transport : Transport α}

/-- The local shard errs where its provider refuses. -/
theorem localPartial_error_iff {s : Option (Shard α)} :
    (localPartial provider ffn layer a sLen dim s).2 ≠ none
      ↔ ∃ s', s = some s' ∧ Refuses provider layer s'.experts s'.weights sLen := by
  cases s with
  | none =>
    constructor
    · intro h
      exact absurd rfl h
    · rintro ⟨s', h, _⟩
      cases h
  | some s =>
    have herr := @computeExpertsPartialInto_error_iff α E _ _ _ _ provider ffn layer s.experts
      s.weights a sLen dim (List.replicate (sLen * dim) 0)
    rw [localPartial, computeExpertsPartial]
    cases hc : computeExpertsPartialInto provider ffn layer s.experts s.weights a sLen dim
        (List.replicate (sLen * dim) 0) with
    | ok p =>
      refine iff_of_false (fun h => h rfl) ?_
      rintro ⟨s', hs, href⟩
      cases hs
      obtain ⟨e, he⟩ := herr.mpr href
      rw [hc] at he
      cases he
    | error e => exact iff_of_true (fun h => nomatch h) ⟨s, rfl, herr.mp ⟨e, hc⟩⟩

/-- **When a sharded call fails**: its own provider refuses, or the reply of some
peer asked is not a partial of the right length. -/
theorem shardedExpertsPartial_error_iff :
    (∃ e, shardedExpertsPartial provider ffn layer uniq wMat a sLen dim sharding transport
        = .error e) ↔
      (∃ s, localShard transport.thisNode (shardsOf sharding uniq wMat sLen) = some s ∧
        Refuses provider layer s.experts s.weights sLen) ∨
      ∃ node ∈ (peerRequests transport.thisNode layer a sLen dim
          (shardsOf sharding uniq wMat sLen)).map Prod.fst,
        ((transport.exchange (peerRequests transport.thisNode layer a sLen dim
          (shardsOf sharding uniq wMat sLen))).join node).accepted ExpertResponse.outputs
            (sLen * dim) = none := by
  set shards := shardsOf sharding uniq wMat sLen
  set reqs := peerRequests transport.thisNode layer a sLen dim shards
  have hfail : (∃ e, shardedExpertsPartial provider ffn layer uniq wMat a sLen dim sharding
      transport = .error e) ↔ (joinReplies ExpertResponse.outputs (sLen * dim)
        (transport.exchange reqs) (reqs.map Prod.fst) (localPartial provider ffn layer a sLen dim
          (localShard transport.thisNode shards))).2 ≠ none := by
    unfold shardedExpertsPartial
    dsimp only
    split
    next e he => exact iff_of_true ⟨e, rfl⟩ (fun h => by rw [h] at he; cases he)
    next hnone => exact iff_of_false (fun ⟨_, h⟩ => nomatch h) (fun h => h hnone)
  rw [hfail, ← localPartial_error_iff]
  constructor
  · intro h
    by_cases hmine : (localPartial provider ffn layer a sLen dim
        (localShard transport.thisNode shards)).2 = none
    · exact Or.inr (joinReplies_error_bad hmine h)
    · exact Or.inl hmine
  · rintro (h | ⟨node, hnode, h⟩)
    · exact joinReplies_error h
    · exact joinReplies_bad hnode h

end

/-- The shards of a batch. -/
def batchShards {α : Type} [Zero α] [Add α] [Mul α]
    (route : List α → List α → List Nat × List α) (cfg : MoeConfig α) (l : MoeLayer α)
    (x : List α) (sLen : Nat) (sharding : ExpertSharding) : List (Shard α) :=
  let u := unionAndWeights (routeBatch route cfg l x sLen)
  shardsOf sharding u.1 u.2 sLen

/-- Its requests to peers. -/
def batchRequests {α : Type} [Zero α] [Add α] [Mul α]
    (route : List α → List α → List Nat × List α) (cfg : MoeConfig α) (l : MoeLayer α)
    (layer : Nat) (x : List α) (sLen : Nat) (sharding : ExpertSharding) (me : Nat) :
    List (Nat × ExpertRequest α) :=
  peerRequests me layer x sLen (asUsize cfg.hidden) (batchShards route cfg l x sLen sharding)

/-- A call fails where its routed experts do. -/
theorem moeSharded_error_iff {α E : Type} [Zero α] [Add α] [Mul α] [DecidableEq α]
    {route : List α → List α → List Nat × List α} {ffn : E → List α → Nat → List α}
    {cfg : MoeConfig α} {l : MoeLayer α} {layer : Nat} {x : List α} {sLen : Nat}
    {withShared : Bool} {provider : Provider E} {sharding : ExpertSharding}
    {transport : Transport α} :
    (∃ e, moeSharded route ffn cfg l layer x sLen withShared provider sharding transport
        = .error e) ↔
      ∃ e, shardedExpertsPartial provider ffn layer
        (unionAndWeights (routeBatch route cfg l x sLen)).1
        (unionAndWeights (routeBatch route cfg l x sLen)).2 x sLen (asUsize cfg.hidden)
        sharding transport = .error e := by
  unfold moeSharded
  dsimp only
  split
  next e he => exact iff_of_true ⟨e, rfl⟩ ⟨e, he⟩
  next summed hok => exact iff_of_false (fun ⟨_, h⟩ => nomatch h) (fun ⟨_, h⟩ => nomatch hok ▸ h)

/-! ## In exact arithmetic -/

section

variable {α E : Type} [Semiring α] [DecidableEq α] {ffn : E → List α → Nat → List α}
  {model : Nat → Nat → E}

/-- What the columns of a weight matrix add at index `i`. -/
def columnSum (ffn : E → List α → Nat → List α) (model : Nat → Nat → E) (layer : Nat)
    (a : List α) (dim : Nat) (cols : List (Nat × List (Nat × α))) (i : Nat) : α :=
  (cols.map (fun p => column ffn (model layer p.1) a dim p.2 i)).sum

/-- The buffer of `n` elements those columns make. -/
def partialOf (ffn : E → List α → Nat → List α) (model : Nat → Nat → E) (layer : Nat)
    (a : List α) (dim n : Nat) (cols : List (Nat × List (Nat × α))) : List α :=
  (List.replicate n 0).mapIdx (fun i v => v + columnSum ffn model layer a dim cols i)

/-- Every peer answers a request with `compute_experts_partial` of it, by a
provider of the same model. -/
def Honest (ffn : E → List α → Nat → List α) (model : Nat → Nat → E) (t : Transport α) : Prop :=
  ∀ reqs : List (Nat × ExpertRequest α), (reqs.map Prod.fst).Nodup →
    ∀ node req resp, (node, req) ∈ reqs → (node, Reply.ok resp) ∈ (t.exchange reqs).replies →
      ∃ p : Provider E, Serves p model ∧ computeExpertsPartial p ffn req.layer req.experts
        req.weights req.activations req.nTokens req.hidden = .ok resp.outputs

variable {layer : Nat} {uniq : List Nat} {wMat a : List α} {sLen dim : Nat}
  {sharding : ExpertSharding} {transport : Transport α} {provider : Provider E}

omit [DecidableEq α] in
theorem partialOf_length {n : Nat} {cols : List (Nat × List (Nat × α))} :
    (partialOf ffn model layer a dim n cols).length = n := by
  rw [partialOf, List.length_mapIdx, List.length_replicate]

omit [DecidableEq α] in
theorem partialOf_getD {n i : Nat} {cols : List (Nat × List (Nat × α))} (hi : i < n) :
    (partialOf ffn model layer a dim n cols).getD i 0
      = columnSum ffn model layer a dim cols i := by
  rw [List.getD_eq_getElem _ _ (by rw [partialOf_length]; exact hi)]
  simp only [partialOf, List.getElem_mapIdx, List.getElem_replicate, zero_add]

theorem computeExpertsPartial_eq (hserves : Serves provider model) {experts : List Nat}
    {weights p : List α}
    (h : computeExpertsPartial provider ffn layer experts weights a sLen dim = .ok p) :
    p = partialOf ffn model layer a dim (sLen * dim) (columns experts weights sLen) :=
  computeExpertsPartialInto_eq hserves h

/-- The shards' sums make up the sum over all columns. -/
theorem sum_shards (sharding : ExpertSharding) (i : Nat) :
    ((shardsOf sharding uniq wMat sLen).map (fun s =>
        columnSum ffn model layer a dim (columns s.experts s.weights sLen) i)).sum
      = columnSum ffn model layer a dim (columns uniq wMat sLen) i := by
  have hperm := (shardsOf_columns sharding uniq wMat sLen).map
    (fun p => column ffn (model layer p.1) a dim p.2 i)
  rw [columnSum, ← hperm.sum_eq, List.map_flatMap, List.flatMap_def, List.sum_flatten,
    List.map_map]
  rfl

/-- A joined partial is that of the shard asked for. -/
theorem joined_partial (hpeers : Honest ffn model transport) {s : Shard α} {p : List α}
    (hs : s ∈ (shardsOf sharding uniq wMat sLen).filter (fun s => s.node ≠ transport.thisNode))
    (h : ((transport.exchange (peerRequests transport.thisNode layer a sLen dim
      (shardsOf sharding uniq wMat sLen))).join s.node).accepted ExpertResponse.outputs
        (sLen * dim) = some p) :
    p = partialOf ffn model layer a dim (sLen * dim) (columns s.experts s.weights sLen) := by
  set reqs := peerRequests transport.thisNode layer a sLen dim (shardsOf sharding uniq wMat sLen)
    with hreqs
  have hreq : (s.node, (⟨s.experts, s.weights, a, sLen, dim, layer⟩ : ExpertRequest α)) ∈ reqs :=
    List.mem_map.mpr ⟨s, hs, rfl⟩
  have hmem := (transport.exchange reqs).join_mem (List.mem_map_of_mem (f := Prod.fst) hreq)
  dsimp only at hmem
  cases hjoin : (transport.exchange reqs).join s.node with
  | ok resp =>
    rw [hjoin] at h hmem
    obtain ⟨q, hserves, hq⟩ := hpeers reqs peerRequests_nodup s.node _ resp hreq hmem
    have hout : resp.outputs = p := by
      rw [Reply.accepted] at h
      split at h
      · exact Option.some.inj h
      · cases h
    rw [← hout]
    exact computeExpertsPartial_eq hserves hq
  | failed e =>
    rw [hjoin] at h
    cases h
  | panicked =>
    rw [hjoin] at h
    cases h

/-- **The folded partials** are what all columns make, on one node. -/
theorem shardedExpertsPartial_eq (hlocal : Serves provider model)
    (hpeers : Honest ffn model transport) {summed : List α}
    (h : shardedExpertsPartial provider ffn layer uniq wMat a sLen dim sharding transport
      = .ok summed) :
    summed = partialOf ffn model layer a dim (sLen * dim) (columns uniq wMat sLen) := by
  have herr : ¬ ∃ e, shardedExpertsPartial provider ffn layer uniq wMat a sLen dim sharding
      transport = .error e := by
    rintro ⟨e, he⟩
    rw [h] at he
    cases he
  rw [shardedExpertsPartial_error_iff] at herr
  push Not at herr
  obtain ⟨hmine, hgood⟩ := herr
  choose! p hp using fun node hn => Option.ne_none_iff_exists'.mp (hgood node hn)
  set me := transport.thisNode
  set shards := shardsOf sharding uniq wMat sLen with hshards
  set others := shards.filter (fun s => s.node ≠ me) with hothers
  -- the partial of each shard, the local one first
  have hothersPartial : ∀ s ∈ others, p s.node
      = partialOf ffn model layer a dim (sLen * dim) (columns s.experts s.weights sLen) := by
    intro s hs
    refine joined_partial hpeers hs (hp s.node ?_)
    rw [peerRequests_nodes]
    exact List.mem_map_of_mem hs
  have hlocalPartial : localPartial provider ffn layer a sLen dim (localShard me shards)
      = ((localShard me shards).toList.map (fun s => (s.node, partialOf ffn model layer a dim
        (sLen * dim) (columns s.experts s.weights sLen))), none) := by
    cases hs : localShard me shards with
    | none => rfl
    | some s =>
      rw [localPartial]
      cases hc : computeExpertsPartial provider ffn layer s.experts s.weights a sLen dim with
      | ok q =>
        rw [computeExpertsPartial_eq hlocal hc]
        rfl
      | error e => exact absurd (computeExpertsPartialInto_error_iff.mp ⟨e, hc⟩) (hmine s hs)
  have hpartials : (localShard me shards).toList.map (fun s => (s.node,
        partialOf ffn model layer a dim (sLen * dim) (columns s.experts s.weights sLen)))
      ++ (others.map Shard.node).map (fun node => (node, p node))
      = ((localShard me shards).toList ++ others).map (fun s => (s.node,
        partialOf ffn model layer a dim (sLen * dim) (columns s.experts s.weights sLen))) := by
    rw [List.map_append, List.map_map]
    congr 1
    refine List.map_congr_left fun s hs => ?_
    dsimp only [Function.comp_apply]
    rw [hothersPartial s hs]
  unfold shardedExpertsPartial at h
  dsimp only at h
  rw [joinReplies_good hp, hlocalPartial, peerRequests_nodes, hpartials] at h
  rw [← Except.ok.inj h, foldPartials_eq, partialOf, List.mapIdx_eq_mapIdx_iff]
  · intro i hi
    rw [List.length_replicate] at hi
    simp only [List.map_map, Function.comp_def, partialOf_getD hi]
    rw [← sum_shards sharding i, ((find_filter_perm (shardsOf_nodup _ _ _ _) me).map _).sum_eq]
  · intro q hq
    obtain ⟨s, _, rfl⟩ := List.mem_map.mp hq
    rw [List.length_replicate]
    exact partialOf_length

end

/-! ## The result -/

section

variable {α : Type} [Zero α] [DecidableEq α]

/-- The (token, expert, weight) applied by the driver and by the peers, request by
request. -/
def work (me layer : Nat) (a : List α) (sLen dim : Nat) (shards : List (Shard α)) :
    List (Nat × Nat × α) :=
  (localShard me shards).toList.flatMap (fun s => entries s.experts s.weights sLen)
    ++ (peerRequests me layer a sLen dim shards).flatMap
      (fun r => entries r.2.experts r.2.weights r.2.nTokens)

/-- The nodes apply the entries of the matrix, each once. -/
theorem work_perm {me layer : Nat} {a : List α} {sLen dim : Nat} {sharding : ExpertSharding}
    {uniq : List Nat} {wMat : List α} :
    (work me layer a sLen dim (shardsOf sharding uniq wMat sLen)).Perm
      (entries uniq wMat sLen) := by
  have hsplit := (find_filter_perm (shardsOf_nodup sharding uniq wMat sLen) me).flatMap_right
    (fun s => entries s.experts s.weights sLen)
  rw [List.flatMap_append] at hsplit
  have hcols := (shardsOf_columns sharding uniq wMat sLen).flatMap_right
    (fun p => p.2.map (fun q => (q.1, p.1, q.2)))
  rw [List.flatMap_assoc, ← entries_eq] at hcols
  simp only [← entries_eq] at hcols
  rw [work, peerRequests, List.flatMap_map]
  exact hsplit.trans hcols

end

section

variable {α E : Type} [Field α] [LinearOrder α]

variable {f : Scoring α} {cfg : MoeConfig α} {l : MoeLayer α} {x : List α} {sLen : Nat}

theorem routeBatch_length : (routeBatch (route cfg f) cfg l x sLen).length = sLen := by
  rw [routeBatch, List.length_map, List.length_range]

theorem routeBatch_wf : ∀ r ∈ routeBatch (route cfg f) cfg l x sLen,
    Routed (asUsize cfg.nExperts) r := by
  intro r hr
  obtain ⟨s, _, rfl⟩ := List.mem_map.mp hr
  have hwf := route_wf cfg f
    (((routerMatmul x l.router sLen (asUsize cfg.hidden) (asUsize cfg.nExperts)).drop
      (s * asUsize cfg.nExperts)).take (asUsize cfg.nExperts)) l.routerBias
  exact ⟨hwf.nodup, fun e he => Nat.lt_of_lt_of_le (hwf.lt e he) (List.length_take_le _ _),
    hwf.length_eq⟩

variable {ffn : E → List α → Nat → List α} {layer : Nat} {withShared : Bool}
  {provider : Provider E} {sharding : ExpertSharding} {transport : Transport α}

/-- **Sharding changes nothing.** Over any routing, ownership map, and order of
replies: the driver and the peers apply the (token, expert, weight) of the routing,
each once and by the expert's owner; where the peers are honest, what the call
returns is what one node returns that can load the experts; and one failed,
panicked or misshapen reply makes the call an error. -/
theorem moeSharded_refines (f : Scoring α) (ffn : E → List α → Nat → List α) (cfg : MoeConfig α)
    (l : MoeLayer α) (layer : Nat) (x : List α) (sLen : Nat) (withShared : Bool)
    {model : Nat → Nat → E} {provider : Provider E} (hlocal : Serves provider model)
    (sharding : ExpertSharding) (transport : Transport α) :
    ((work transport.thisNode layer x sLen (asUsize cfg.hidden)
          (batchShards (route cfg f) cfg l x sLen sharding)).Perm
        (routedEntries (routeBatch (route cfg f) cfg l x sLen)) ∧
      ((batchRequests (route cfg f) cfg l layer x sLen sharding
        transport.thisNode).map Prod.fst).Nodup ∧
      ∀ r ∈ batchRequests (route cfg f) cfg l layer x sLen sharding transport.thisNode,
        r.1 ≠ transport.thisNode ∧ ∀ e ∈ r.2.experts, sharding.isLocal r.1 e = true) ∧
    (Honest ffn model transport → ∀ whole : Provider E, Serves whole model → ∀ out,
      moeSharded (route cfg f) ffn cfg l layer x sLen withShared provider sharding transport
          = .ok out →
        moe none (route cfg f) ffn cfg l layer x sLen withShared whole = .ok out ∨
        Refuses whole layer (unionAndWeights (routeBatch (route cfg f) cfg l x sLen)).1
          (unionAndWeights (routeBatch (route cfg f) cfg l x sLen)).2 sLen) ∧
    ∀ node reply, (node, reply) ∈ (transport.exchange
        (batchRequests (route cfg f) cfg l layer x sLen sharding transport.thisNode)).replies →
      (∀ resp, reply = Reply.ok resp → resp.outputs.length ≠ sLen * asUsize cfg.hidden) →
      ∃ e, moeSharded (route cfg f) ffn cfg l layer x sLen withShared provider sharding transport
        = .error e := by
  refine ⟨⟨?_, peerRequests_nodup, ?_⟩, ?_, ?_⟩
  · have hrouted := entries_perm_routed (@routeBatch_wf α _ _ f cfg l x sLen)
    rw [routeBatch_length] at hrouted
    exact work_perm.trans hrouted
  · intro r hr
    obtain ⟨s, hs, rfl⟩ := List.mem_map.mp hr
    obtain ⟨hmem, hne⟩ := List.mem_filter.mp hs
    exact ⟨of_decide_eq_true hne, shardsOf_owner hmem⟩
  · intro hpeers whole hwhole out h
    unfold moeSharded at h
    dsimp only at h
    split at h
    · cases h
    next summed hsum =>
      have hfold := shardedExpertsPartial_eq hlocal hpeers hsum
      -- the sums are added to zeros
      have hclear : addInto (List.replicate (sLen * asUsize cfg.hidden) 0) summed = summed := by
        rw [addInto_eq (by rw [hfold, partialOf_length, List.length_replicate])]
        refine List.ext_getElem ?_ fun i h₁ h₂ => ?_
        · rw [List.length_mapIdx, List.length_replicate, hfold, partialOf_length]
        · rw [List.getElem_mapIdx, List.getElem_replicate, zero_add, List.getD_eq_getElem _ _ h₂]
      rw [hclear] at h
      unfold moe
      rw [Option.filter_none]
      dsimp only
      cases hone : computeExpertsPartialInto whole ffn layer
          (unionAndWeights (routeBatch (route cfg f) cfg l x sLen)).1
          (unionAndWeights (routeBatch (route cfg f) cfg l x sLen)).2 x sLen (asUsize cfg.hidden)
          (List.replicate (sLen * asUsize cfg.hidden) 0) with
      | error e => exact Or.inr (computeExpertsPartialInto_error_iff.mp ⟨e, hone⟩)
      | ok out' =>
        have hsame : out' = summed := (computeExpertsPartialInto_eq hwhole hone).trans hfold.symm
        rw [hsame]
        exact Or.inl h
  · intro node reply hmem hbad
    rw [moeSharded_error_iff, shardedExpertsPartial_error_iff]
    refine Or.inr ⟨node, ?_, ?_⟩
    · exact (transport.exchange _).perm.mem_iff.mp (List.mem_map_of_mem (f := Prod.fst) hmem)
    · have hjoin := Arrivals.join_eq (a := transport.exchange (batchRequests (route cfg f) cfg l
        layer x sLen sharding transport.thisNode)) peerRequests_nodup hmem
      refine (congrArg _ hjoin).trans ?_
      cases reply with
      | ok resp => exact if_neg (hbad resp rfl)
      | failed e => rfl
      | panicked => rfl

end

/-! ## Peers in the same process -/

section

variable {α E : Type} [Zero α] [Add α] [Mul α] [DecidableEq α]

/-- A provider of every expert of a model. -/
def Provider.all (model : Nat → Nat → E) : Provider E where
  expert := fun layer e => .ok (model layer e)
  prefetch := fun _ _ => .ok ()

/-- Peers that compute what they are asked, the last one asked replying first. -/
def loopback (peer : Provider E) (ffn : E → List α → Nat → List α) (me : Nat) : Transport α where
  thisNode := me
  exchange := fun reqs =>
    { replies := reqs.reverse.map fun r =>
        (r.1, match computeExpertsPartial peer ffn r.2.layer r.2.experts r.2.weights
            r.2.activations r.2.nTokens r.2.hidden with
          | .ok p => .ok ⟨p, r.2.nTokens, r.2.hidden⟩
          | .error _ => .failed .notConnected)
      perm := by
        rw [List.map_map]
        exact (List.reverse_perm reqs).map _ }

omit [Add α] [Mul α] in
theorem Provider.all_not_refuses {model : Nat → Nat → E} {layer : Nat} {experts : List Nat}
    {weights : List α} {nTokens : Nat} :
    ¬ Refuses (Provider.all model) layer experts weights nTokens := by
  rintro ⟨_, ⟨_, h⟩ | ⟨_, _, _, h⟩⟩ <;> cases h

variable {peer : Provider E} {ffn : E → List α → Nat → List α} {me : Nat}

/-- A reply of the loopback is its peer's answer to the request. -/
theorem mem_loopback {reqs : List (Nat × ExpertRequest α)} (hnd : (reqs.map Prod.fst).Nodup)
    {node : Nat} {req : ExpertRequest α} (hreq : (node, req) ∈ reqs)
    {reply : Reply (ExpertResponse α)}
    (h : (node, reply) ∈ ((loopback peer ffn me).exchange reqs).replies) :
    reply = match computeExpertsPartial peer ffn req.layer req.experts req.weights
        req.activations req.nTokens req.hidden with
      | .ok p => .ok ⟨p, req.nTokens, req.hidden⟩
      | .error _ => .failed .notConnected := by
  obtain ⟨⟨node', req'⟩, hr, heq⟩ := List.mem_map.mp h
  obtain ⟨rfl, hreply⟩ := Prod.mk.inj heq
  have hsame : req' = req := Option.some.inj
    ((lookup_of_mem hnd (List.mem_reverse.mp hr)).symm.trans (lookup_of_mem hnd hreq))
  rw [← hreply, hsame]

/-- Over the loopback, with every expert at hand, a call succeeds. -/
theorem moeSharded_loopback {model : Nat → Nat → E}
    {route : List α → List α → List Nat × List α} {cfg : MoeConfig α} {l : MoeLayer α}
    {layer : Nat} {x : List α} {sLen : Nat} {withShared : Bool} {sharding : ExpertSharding} :
    ∃ out, moeSharded route ffn cfg l layer x sLen withShared (Provider.all model) sharding
      (loopback (Provider.all model) ffn me) = .ok out := by
  cases h : moeSharded route ffn cfg l layer x sLen withShared (Provider.all model) sharding
      (loopback (Provider.all model) ffn me) with
  | ok out => exact ⟨out, rfl⟩
  | error e =>
    have herr := shardedExpertsPartial_error_iff.mp (moeSharded_error_iff.mp ⟨e, h⟩)
    rcases herr with ⟨s, _, hrefuses⟩ | ⟨node, hnode, hbad⟩
    · exact absurd hrefuses Provider.all_not_refuses
    · obtain ⟨⟨node', req⟩, hreq, rfl⟩ := List.mem_map.mp hnode
      have hreply := @mem_loopback α E _ _ _ _ (Provider.all model) ffn me _ peerRequests_nodup
        node' req hreq _ (Arrivals.join_mem hnode)
      obtain ⟨s, _, hs⟩ := List.mem_map.mp hreq
      cases hs
      rw [hreply] at hbad
      cases hc : computeExpertsPartial (Provider.all model) ffn layer s.experts s.weights x sLen
          (asUsize cfg.hidden) with
      | error e' =>
        exact absurd (computeExpertsPartialInto_error_iff.mp ⟨e', hc⟩) Provider.all_not_refuses
      | ok p =>
        have hlen : p.length = sLen * asUsize cfg.hidden := by
          rw [computeExpertsPartialInto_length hc, List.length_replicate]
        rw [hc] at hbad
        dsimp only [Reply.accepted] at hbad
        rw [if_pos hlen] at hbad
        cases hbad

end

theorem Provider.all_serves {E : Type} (model : Nat → Nat → E) :
    Serves (Provider.all model) model := by
  intro layer e ex h
  cases h
  rfl

theorem loopback_honest {α E : Type} [Semiring α] [DecidableEq α] {peer : Provider E}
    {ffn : E → List α → Nat → List α} {me : Nat} {model : Nat → Nat → E}
    (h : Serves peer model) : Honest ffn model (loopback peer ffn me) := by
  intro reqs hnd node req resp hreq hreply
  have heq := mem_loopback hnd hreq hreply
  cases hc : computeExpertsPartial peer ffn req.layer req.experts req.weights req.activations
      req.nTokens req.hidden with
  | ok p =>
    rw [hc] at heq
    cases heq
    exact ⟨peer, h, hc⟩
  | error e =>
    rw [hc] at heq
    cases heq

/-- Four experts that scale, split over two nodes; two tokens with two experts
each. -/
theorem moeSharded_refines_two_nodes :
    let cfg : MoeConfig ℚ := ⟨1, 4, 2, true, 5 / 2, .softmax⟩
    let l : MoeLayer ℚ := ⟨[1, -1, 2, 0], [], fun x _ => x⟩
    let f : Scoring ℚ := ⟨id, id⟩
    let ffn : Nat → List ℚ → Nat → List ℚ := fun e x _ => x.map (fun v => v * e)
    let model : Nat → Nat → Nat := fun layer e => layer + e
    ∃ out, moeSharded (route cfg f) ffn cfg l 3 [1, -2] 2 true (Provider.all model)
        (ExpertSharding.new 2 4 (by decide) (by decide)) (loopback (Provider.all model) ffn 0)
          = .ok out ∧
      moe none (route cfg f) ffn cfg l 3 [1, -2] 2 true (Provider.all model) = .ok out := by
  intro cfg l f ffn model
  obtain ⟨out, hout⟩ := @moeSharded_loopback ℚ Nat _ _ _ _ ffn 0 model (route cfg f) cfg l 3
    [1, -2] 2 true (ExpertSharding.new 2 4 (by decide) (by decide))
  have hrefines := moeSharded_refines f ffn cfg l 3 [1, -2] 2 true (Provider.all_serves model)
    (ExpertSharding.new 2 4 (by decide) (by decide)) (loopback (Provider.all model) ffn 0)
  rcases hrefines.2.1 (loopback_honest (Provider.all_serves model)) (Provider.all model)
      (Provider.all_serves model) out hout with hone | hrefuses
  · exact ⟨out, hout, hone⟩
  · exact absurd hrefuses Provider.all_not_refuses

end Colibri.Moe
