import Colibri.Attention.Sharded
import Colibri.Cluster.Net
import Colibri.Moe.Sharded
import Mathlib.Data.BitVec

/-!
# A driver and real workers

A worker answers two kinds of request. Where it cannot compute one (its provider
errs, an expert is not its own, the layer is out of range) the handler has no error
to return: it logs, and answers zeros of the right shape. On the wire that is a
response like any other, and the driver checks its length only.

So whether a call fails does not depend on what its workers can compute: it fails
where the driver's own provider refuses or a connection does not carry a request
(`moeCall_error_iff`, `attnCall_error_iff`). `never_fabricated_iff` draws the
conclusion.

`expertReply_bad_iff` is the reason: a reply is accepted exactly when the connection carries it.
The witness is a worker that has what it is asked for, and `fabricated_zeros` one that has not: it
cannot read its expert and has no layers, and both calls succeed with an all-zero part.
-/

namespace Colibri.Cluster

open Attention Moe

/-- What a worker has loaded. `load` is reading an expert, from memory or disk. -/
structure Worker (E L : Type) where
  sharding : ExpertSharding
  thisNode : Nat
  load : Nat → Nat → Except IoError E
  layers : List L

section

variable {α E L : Type} [Zero α] [Add α] [Mul α] [DecidableEq α]

/-- Its provider: `ShardsExpertProvider::expert` guards ownership, and the cache in
front of it prefetches what it can and reports nothing. -/
def Worker.provider (w : Worker E L) : Provider E where
  expert := fun layer eid =>
    if w.sharding.isLocal w.thisNode eid then w.load layer eid
    else .error (.notOwned eid layer w.thisNode)
  prefetch := fun _ _ => .ok ()

/-- The expert handler `cmd_worker` installs. -/
def Worker.expertHandler (w : Worker E L) (ffn : E → List α → Nat → List α)
    (req : ExpertRequest α) : ExpertResponse α :=
  match computeExpertsPartial w.provider ffn req.layer req.experts req.weights req.activations
      req.nTokens req.hidden with
  | .ok outputs => ⟨outputs, req.nTokens, req.hidden⟩
  | .error _ => ⟨List.replicate (req.nTokens * req.hidden) 0, req.nTokens, req.hidden⟩

/-- The attention handler; `kernel` is `compute_attention_partial`, element by
element of its buffer. -/
def Worker.attnHandler (w : Worker E L) (kernel : L → AttnRequest α → Nat → α)
    (req : AttnRequest α) : AttnResponse α :=
  match w.layers[req.layer]? with
  | some l => ⟨(List.range (req.nTokens * req.hidden)).map (kernel l req), req.nTokens, req.hidden⟩
  | none => ⟨List.replicate (req.nTokens * req.hidden) 0, req.nTokens, req.hidden⟩

/-- The worker cannot compute an expert request: it does not own an expert listed,
or its provider errs. -/
def Worker.CannotApply (w : Worker E L) (req : ExpertRequest α) : Prop :=
  (∃ e ∈ req.experts, w.sharding.isLocal w.thisNode e = false) ∨
    Refuses w.provider req.layer req.experts req.weights req.nTokens

/-- What a worker refuses of an attention request: a layer out of range. -/
def Worker.CannotAttend (w : Worker E L) (req : AttnRequest α) : Prop :=
  w.layers.length ≤ req.layer

/-- A driver: its map, the workers at the addresses it has, which of them it can
reach, and in which order replies come in. -/
structure Driver (E L : Type) where
  sharding : ExpertSharding
  this : Nat
  workers : Nat → Option (Worker E L)
  reachable : Nat → Bool
  arrive : {β : Type} → List β → List β
  arrive_perm : ∀ {β : Type} (l : List β), (arrive l).Perm l

/-- Its transport: workers serve by their handlers, under their own map's
fingerprint. -/
def Driver.tcp (dr : Driver E L) (ffn : E → List α → Nat → List α)
    (kernel : L → AttnRequest α → Nat → α) : TcpTransport α where
  this := dr.this
  peers := fun node => (dr.workers node).map fun w =>
    { reachable := dr.reachable node
      fingerprint := w.sharding.fingerprint
      expert := w.expertHandler ffn
      attn := w.attnHandler kernel }
  fingerprint := dr.sharding.fingerprint
  arrive := dr.arrive
  arrive_perm := dr.arrive_perm

/-- A joined thread's reply, of an exchange. -/
def Reply.ofExcept {ρ : Type} : Except TransportError ρ → Reply ρ
  | .ok r => .ok r
  | .error e => .failed e

/-- What the exchanges of a call come to. -/
def TcpTransport.arrivals {α ρ σ : Type} (t : TcpTransport α)
    (exchange : Nat → σ → Except TransportError ρ) (reqs : List (Nat × σ)) :
    Arrivals ρ (reqs.map Prod.fst) where
  replies := t.arrive (reqs.map fun r => (r.1, Reply.ofExcept (exchange r.1 r.2)))
  perm := by
    refine ((t.arrive_perm _).map Prod.fst).trans ?_
    rw [List.map_map]
    exact List.Perm.refl _

/-- The driver's transport of expert requests. -/
def Driver.transport (dr : Driver E L) (c : Wire.Codec α) (ffn : E → List α → Nat → List α)
    (kernel : L → AttnRequest α → Nat → α) : Transport α where
  thisNode := dr.this
  exchange := (dr.tcp ffn kernel).arrivals ((dr.tcp ffn kernel).exchange c)

/-- The driver as the transport of attention requests. -/
def Driver.attnTransport (dr : Driver E L) (c : Wire.Codec α)
    (ffn : E → List α → Nat → List α) (kernel : L → AttnRequest α → Nat → α) :
    AttnTransport α where
  thisNode := dr.this
  exchangeAttn := (dr.tcp ffn kernel).arrivals ((dr.tcp ffn kernel).exchangeAttn c)

/-! ## What comes back -/

variable {dr : Driver E L} {c : Wire.Codec α} {ffn : E → List α → Nat → List α}
  {kernel : L → AttnRequest α → Nat → α}

/-- Either way, the handlers answer in the request's shape. -/
theorem tcp_shaped {node : Nat} {p : Peer α} (h : (dr.tcp ffn kernel).peers node = some p) :
    p.Shaped := by
  obtain ⟨w, _, rfl⟩ := Option.map_eq_some_iff.mp h
  constructor
  · intro r
    show (w.expertHandler ffn r).nTokens = _ ∧ (w.expertHandler ffn r).hidden = _ ∧
      (w.expertHandler ffn r).outputs.length = _
    unfold Worker.expertHandler
    split
    next outputs hok =>
      refine ⟨rfl, rfl, ?_⟩
      have hlen := computeExpertsPartialInto_length hok
      rw [List.length_replicate] at hlen
      exact hlen
    next => exact ⟨rfl, rfl, List.length_replicate⟩
  · intro r
    show (w.attnHandler kernel r).nTokens = _ ∧ (w.attnHandler kernel r).hidden = _ ∧
      (w.attnHandler kernel r).outputs.length = _
    unfold Worker.attnHandler
    split
    · refine ⟨rfl, rfl, ?_⟩
      rw [List.length_map, List.length_range]
    · exact ⟨rfl, rfl, List.length_replicate⟩

omit [Zero α] [Add α] [Mul α] [DecidableEq α] in
theorem arrivals_join {t : TcpTransport α} {ρ σ : Type}
    {exchange : Nat → σ → Except TransportError ρ} {reqs : List (Nat × σ)}
    (hnd : (reqs.map Prod.fst).Nodup) {node : Nat} {req : σ} (h : (node, req) ∈ reqs) :
    (t.arrivals exchange reqs).join node = Reply.ofExcept (exchange node req) := by
  refine Arrivals.join_eq hnd ((t.arrive_perm _).mem_iff.mpr ?_)
  exact List.mem_map.mpr ⟨(node, req), h, rfl⟩

/-- The driver's connection to `node` carries an expert request and its reply. -/
def Driver.CarriesExperts (dr : Driver E L) (c : Wire.Codec α)
    (ffn : E → List α → Nat → List α) (kernel : L → AttnRequest α → Nat → α) (node : Nat)
    (r : ExpertRequest α) : Prop :=
  (dr.tcp ffn kernel).Carries node (encodeRequest c r).length (replyBytes r.nTokens r.hidden)

def Driver.CarriesAttn (dr : Driver E L) (c : Wire.Codec α) (ffn : E → List α → Nat → List α)
    (kernel : L → AttnRequest α → Nat → α) (node : Nat) (r : AttnRequest α) : Prop :=
  (dr.tcp ffn kernel).Carries node (encodeAttnRequest c r).length (replyBytes r.nTokens r.hidden)

omit [Zero α] [Add α] [Mul α] [DecidableEq α] in
theorem accepted_none_iff {ρ : Type} {x : Except TransportError ρ} {out : ρ → List α} {n : Nat}
    {carries : Prop} (hok : carries → ∃ reply, x = .ok reply ∧ (out reply).length = n)
    (herr : ¬ carries → ∃ e, x = .error e) :
    (Reply.ofExcept x).accepted out n = none ↔ ¬ carries := by
  by_cases h : carries
  · obtain ⟨reply, rfl, hlen⟩ := hok h
    refine iff_of_false (fun hbad => ?_) (fun hnot => hnot h)
    rw [Reply.ofExcept, Reply.accepted, if_pos hlen] at hbad
    cases hbad
  · obtain ⟨e, rfl⟩ := herr h
    exact iff_of_true rfl h

/-- **A reply is accepted exactly when the connection carries it**: nothing else the
worker does is seen. -/
theorem expertReply_bad_iff {node n : Nat} {r : ExpertRequest α} (hr : r.Sendable c)
    (hn : r.nTokens * r.hidden = n) :
    (Reply.ofExcept ((dr.tcp ffn kernel).exchange c node r)).accepted ExpertResponse.outputs n
        = none ↔ ¬ dr.CarriesExperts c ffn kernel node r := by
  refine accepted_none_iff (fun h => ?_) (exchange_error hr fun p hp => tcp_shaped hp)
  obtain ⟨p, hp, _⟩ := h.1
  exact ⟨_, exchange_ok hr hp (tcp_shaped hp) h, ((tcp_shaped hp).expert r).2.2.trans hn⟩

theorem attnReply_bad_iff {node n : Nat} {r : AttnRequest α} (hr : r.Sendable c)
    (hn : r.nTokens * r.hidden = n) :
    (Reply.ofExcept ((dr.tcp ffn kernel).exchangeAttn c node r)).accepted AttnResponse.outputs n
        = none ↔ ¬ dr.CarriesAttn c ffn kernel node r := by
  refine accepted_none_iff (fun h => ?_) (exchangeAttn_error hr fun p hp => tcp_shaped hp)
  obtain ⟨p, hp, _⟩ := h.1
  exact ⟨_, exchangeAttn_ok hr hp (tcp_shaped hp) h, ((tcp_shaped hp).attn r).2.2.trans hn⟩

theorem some_bad_iff {σ : Type} {reqs : List (Nat × σ)} {bad : Nat → Prop}
    {carries : Nat × σ → Prop} (h : ∀ r ∈ reqs, bad r.1 ↔ ¬ carries r) :
    (∃ node ∈ reqs.map Prod.fst, bad node) ↔ ∃ r ∈ reqs, ¬ carries r := by
  constructor
  · rintro ⟨node, hnode, hbad⟩
    obtain ⟨r, hr, rfl⟩ := List.mem_map.mp hnode
    exact ⟨r, hr, (h r hr).mp hbad⟩
  · rintro ⟨r, hr, hbad⟩
    exact ⟨r.1, List.mem_map_of_mem hr, (h r hr).mpr hbad⟩

theorem surfaces_iff {W σ : Type} {reqs : List (Nat × σ)} {workers : Nat → Option W}
    {cannot : W → σ → Prop} {fails : Prop} :
    ((∃ r ∈ reqs, ∃ w, workers r.1 = some w ∧ cannot w r.2) → fails) ↔
      (∀ r ∈ reqs, ∀ w, workers r.1 = some w → ¬ cannot w r.2) ∨ fails := by
  constructor
  · intro h
    by_cases hcannot : ∃ r ∈ reqs, ∃ w, workers r.1 = some w ∧ cannot w r.2
    · exact Or.inr (h hcannot)
    · exact Or.inl fun r hr w hw hc => hcannot ⟨r, hr, w, hw, hc⟩
  · rintro (hable | hfail) ⟨r, hr, w, hw, hc⟩
    · exact absurd hc (hable r hr w hw)
    · exact hfail

/-! ## When the calls fail -/

section

variable {route : List α → List α → List Nat × List α} {cfg : MoeConfig α} {l : MoeLayer α}
  {layer : Nat} {x : List α} {sLen : Nat} {withShared : Bool} {provider : Provider E}

/-- The driver's own provider refuses its own shard of the batch. -/
def DriverRefuses (route : List α → List α → List Nat × List α) (cfg : MoeConfig α)
    (l : MoeLayer α) (layer : Nat) (x : List α) (sLen : Nat) (provider : Provider E)
    (sharding : ExpertSharding) (me : Nat) : Prop :=
  ∃ s, localShard me (batchShards route cfg l x sLen sharding) = some s ∧
    Refuses provider layer s.experts s.weights sLen

/-- **When an expert call fails**: the workers' providers have no part in it. -/
theorem moeCall_error_iff
    (hsend : ∀ r ∈ batchRequests route cfg l layer x sLen dr.sharding dr.this, r.2.Sendable c) :
    (∃ e, moeSharded route ffn cfg l layer x sLen withShared provider dr.sharding
        (dr.transport c ffn kernel) = .error e) ↔
      DriverRefuses route cfg l layer x sLen provider dr.sharding dr.this ∨
      ∃ r ∈ batchRequests route cfg l layer x sLen dr.sharding dr.this,
        ¬ dr.CarriesExperts c ffn kernel r.1 r.2 := by
  rw [moeSharded_error_iff, shardedExpertsPartial_error_iff]
  refine or_congr Iff.rfl ?_
  have hreply : ∀ r ∈ batchRequests route cfg l layer x sLen dr.sharding dr.this,
      (((dr.transport c ffn kernel).exchange (batchRequests route cfg l layer x sLen dr.sharding
        dr.this)).join r.1).accepted ExpertResponse.outputs (sLen * asUsize cfg.hidden) = none
        ↔ ¬ dr.CarriesExperts c ffn kernel r.1 r.2 := by
    intro r hr
    have hjoin : ((dr.transport c ffn kernel).exchange (batchRequests route cfg l layer x sLen
        dr.sharding dr.this)).join r.1
        = Reply.ofExcept ((dr.tcp ffn kernel).exchange c r.1 r.2) :=
      arrivals_join peerRequests_nodup hr
    rw [hjoin]
    refine expertReply_bad_iff (hsend r hr) ?_
    obtain ⟨s, _, rfl⟩ := List.mem_map.mp hr
    rfl
  exact some_bad_iff hreply

end

section

variable {call : AttnCall α} {localSlice : List (List Nat) → Nat × Nat → Nat → α}

omit [Zero α] [Add α] [Mul α] [DecidableEq α] in
theorem attnRequests_nodup {numNodes me : Nat} :
    ((attnRequests numNodes me call).map Prod.fst).Nodup := by
  rw [attnRequests, List.map_map]
  exact (List.nodup_range.filter _).map fun _ _ h => h

/-- **When an attention call fails**: the workers' layers have no part in it. -/
theorem attnCall_error_iff
    (hsend : ∀ r ∈ attnRequests dr.sharding.numNodes dr.this call, r.2.Sendable c) :
    (∃ e, attentionSharded dr.sharding.numNodes call localSlice (dr.attnTransport c ffn kernel)
        = .error e) ↔
      ∃ r ∈ attnRequests dr.sharding.numNodes dr.this call,
        ¬ dr.CarriesAttn c ffn kernel r.1 r.2 := by
  rw [attentionSharded_error_iff]
  have hreply : ∀ r ∈ attnRequests dr.sharding.numNodes dr.this call,
      (((dr.attnTransport c ffn kernel).exchangeAttn (attnRequests dr.sharding.numNodes dr.this
        call)).join r.1).accepted AttnResponse.outputs (call.sLen * call.hidden) = none
        ↔ ¬ dr.CarriesAttn c ffn kernel r.1 r.2 := by
    intro r hr
    have hjoin : ((dr.attnTransport c ffn kernel).exchangeAttn (attnRequests dr.sharding.numNodes
        dr.this call)).join r.1 = Reply.ofExcept ((dr.tcp ffn kernel).exchangeAttn c r.1 r.2) :=
      arrivals_join attnRequests_nodup hr
    rw [hjoin]
    refine attnReply_bad_iff (hsend r hr) ?_
    obtain ⟨n, _, rfl⟩ := List.mem_map.mp hr
    rfl
  exact some_bad_iff hreply

end

/-! ## The result -/

/-- A worker asked for experts it cannot apply makes the call an error. -/
def ExpertFailuresSurface (dr : Driver E L) (c : Wire.Codec α) (ffn : E → List α → Nat → List α)
    (kernel : L → AttnRequest α → Nat → α) (route : List α → List α → List Nat × List α)
    (cfg : MoeConfig α) (l : MoeLayer α) (layer : Nat) (x : List α) (sLen : Nat)
    (withShared : Bool) (provider : Provider E) : Prop :=
  (∃ r ∈ batchRequests route cfg l layer x sLen dr.sharding dr.this,
      ∃ w, dr.workers r.1 = some w ∧ w.CannotApply r.2) →
    ∃ e, moeSharded route ffn cfg l layer x sLen withShared provider dr.sharding
      (dr.transport c ffn kernel) = .error e

/-- A worker asked for a layer it does not have makes the call an error. -/
def AttnFailuresSurface (dr : Driver E L) (c : Wire.Codec α) (ffn : E → List α → Nat → List α)
    (kernel : L → AttnRequest α → Nat → α) (call : AttnCall α)
    (localSlice : List (List Nat) → Nat × Nat → Nat → α) : Prop :=
  (∃ r ∈ attnRequests dr.sharding.numNodes dr.this call,
      ∃ w, dr.workers r.1 = some w ∧ w.CannotAttend r.2) →
    ∃ e, attentionSharded dr.sharding.numNodes call localSlice (dr.attnTransport c ffn kernel)
      = .error e

/-- **When a worker's failure surfaces**: only where none asked has one, or the call
fails for another reason, its own provider's or a connection's. For every expert
and head-slice request that can be sent. -/
theorem never_fabricated_iff (dr : Driver E L) (c : Wire.Codec α)
    (ffn : E → List α → Nat → List α) (kernel : L → AttnRequest α → Nat → α)
    (route : List α → List α → List Nat × List α) (cfg : MoeConfig α) (l : MoeLayer α)
    (layer : Nat) (x : List α) (sLen : Nat) (withShared : Bool) (provider : Provider E)
    (call : AttnCall α) (localSlice : List (List Nat) → Nat × Nat → Nat → α)
    (hexperts : ∀ r ∈ batchRequests route cfg l layer x sLen dr.sharding dr.this, r.2.Sendable c)
    (hattn : ∀ r ∈ attnRequests dr.sharding.numNodes dr.this call, r.2.Sendable c) :
    (ExpertFailuresSurface dr c ffn kernel route cfg l layer x sLen withShared provider ↔
      (∀ r ∈ batchRequests route cfg l layer x sLen dr.sharding dr.this,
        ∀ w, dr.workers r.1 = some w → ¬ w.CannotApply r.2) ∨
      DriverRefuses route cfg l layer x sLen provider dr.sharding dr.this ∨
      ∃ r ∈ batchRequests route cfg l layer x sLen dr.sharding dr.this,
        ¬ dr.CarriesExperts c ffn kernel r.1 r.2) ∧
    (AttnFailuresSurface dr c ffn kernel call localSlice ↔
      (∀ r ∈ attnRequests dr.sharding.numNodes dr.this call,
        ∀ w, dr.workers r.1 = some w → ¬ w.CannotAttend r.2) ∨
      ∃ r ∈ attnRequests dr.sharding.numNodes dr.this call,
        ¬ dr.CarriesAttn c ffn kernel r.1 r.2) := by
  constructor
  · rw [ExpertFailuresSurface, moeCall_error_iff hexperts]
    exact surfaces_iff
  · rw [AttnFailuresSurface, attnCall_error_iff hattn]
    exact surfaces_iff

end

/-! ## One worker -/

/-- Two nodes, the driver and one worker with these layers that reads experts by
`load`. -/
def twoNodes (load : Nat → Nat → Except IoError Unit) (layers : List Unit) :
    Driver Unit Unit where
  sharding := ExpertSharding.new 2 2 (by decide) (by decide)
  this := 0
  workers := fun node =>
    if node = 1 then some ⟨ExpertSharding.new 2 2 (by decide) (by decide), 1, load, layers⟩
    else none
  reachable := fun _ => true
  arrive := id
  arrive_perm := fun _ => List.Perm.refl _

/-- Elements that are their own words. -/
def words : Wire.Codec (BitVec 32) where
  toWord := BitVec.toNat
  ofWord := BitVec.ofNat 32
  toWord_lt := BitVec.isLt
  ofWord_toWord := fun x => by rw [BitVec.ofNat_toNat, BitVec.setWidth_eq]

/-- One token, routed to the worker's expert. -/
def oneToken : MoeConfig (BitVec 32) := ⟨1, 2, 1, false, 1, .softmax⟩

def toWorker : List (BitVec 32) → List (BitVec 32) → List Nat × List (BitVec 32) :=
  fun _ _ => ([1], [1])

def noTensors : MoeLayer (BitVec 32) := ⟨[], [], fun x _ => x⟩

/-- Two tokens of attention, dense. -/
def twoTokens : AttnCall (BitVec 32) := ⟨2, 1, 3, [5, 7], 2, 0, none, none⟩

theorem batchRequests_oneToken (load : Nat → Nat → Except IoError Unit) (layers : List Unit) :
    batchRequests toWorker oneToken noTensors 3 [5] 1 (twoNodes load layers).sharding
      (twoNodes load layers).this = [(1, ⟨[1], [1], [5], 1, 1, 3⟩)] := by
  show batchRequests toWorker oneToken noTensors 3 [5] 1
    (ExpertSharding.new 2 2 (by decide) (by decide)) 0 = _
  decide

theorem attnRequests_twoTokens (load : Nat → Nat → Except IoError Unit) (layers : List Unit) :
    attnRequests (twoNodes load layers).sharding.numNodes (twoNodes load layers).this twoTokens
      = [(1, ⟨[5, 7], [[], []], 2, 1, 0, 1, 1, 3⟩)] := by
  show attnRequests 2 0 twoTokens = _
  decide

theorem sendable_oneToken : (⟨[1], [1], [5], 1, 1, 3⟩ : ExpertRequest (BitVec 32)).Sendable
    words := by
  refine ⟨⟨by decide, by decide, by decide, by decide, by decide, by decide, by decide⟩, ?_⟩
  rw [encodeRequest_length]
  decide

theorem sendable_twoTokens :
    (⟨[5, 7], [[], []], 2, 1, 0, 1, 1, 3⟩ : AttnRequest (BitVec 32)).Sendable words := by
  refine ⟨⟨by decide, by decide, by decide, by decide, by decide, by decide, by decide, by decide,
    by decide⟩, ?_⟩
  rw [encodeAttnRequest_length]
  decide

/-- A worker that has what it is asked for: nothing needs to surface. -/
theorem never_fabricated_two_nodes :
    ExpertFailuresSurface (twoNodes (fun _ _ => .ok ()) [(), (), (), ()]) words (fun _ x _ => x)
      (fun _ _ _ => 1) toWorker oneToken noTensors 3 [5] 1 false (Provider.all fun _ _ => ()) ∧
    AttnFailuresSurface (twoNodes (fun _ _ => .ok ()) [(), (), (), ()]) words (fun _ x _ => x)
      (fun _ _ _ => 1) twoTokens (fun _ _ _ => 9) := by
  have hiff := never_fabricated_iff (twoNodes (fun _ _ => .ok ()) [(), (), (), ()]) words
    (fun _ x _ => x) (fun _ _ _ => 1) toWorker oneToken noTensors 3 [5] 1 false
    (Provider.all fun _ _ => ()) twoTokens (fun _ _ _ => 9)
    (by
      rw [batchRequests_oneToken]
      intro r hr
      rw [List.mem_singleton.mp hr]
      exact sendable_oneToken)
    (by
      rw [attnRequests_twoTokens]
      intro r hr
      rw [List.mem_singleton.mp hr]
      exact sendable_twoTokens)
  rw [batchRequests_oneToken, attnRequests_twoTokens] at hiff
  refine ⟨hiff.1.mpr (Or.inl ?_), hiff.2.mpr (Or.inl ?_)⟩
  · intro r hr w hw
    rw [List.mem_singleton.mp hr] at hw ⊢
    cases hw
    rintro (⟨e, he, howner⟩ | ⟨_, ⟨err, h⟩ | ⟨p, hp, err, h⟩⟩)
    · rw [List.mem_singleton.mp he] at howner
      exact absurd howner (by decide)
    · cases h
    · have hexpert : p.1 = 1 := by
        have hone : perExpert [1] [(1 : BitVec 32)] 1 = [(1, [(0, 1)])] := by decide
        rw [hone, List.mem_singleton] at hp
        rw [hp]
      rw [hexpert] at h
      cases h
  · intro r hr w hw
    rw [List.mem_singleton.mp hr] at hw ⊢
    cases hw
    show ¬ 4 ≤ 3
    decide

/-- A worker that cannot read its expert and has no layers: both calls succeed, its
share of each an all-zero partial. -/
theorem fabricated_zeros :
    let dr := twoNodes (fun layer eid => .error (.load eid layer)) []
    (∃ r ∈ batchRequests toWorker oneToken noTensors 3 [5] 1 dr.sharding dr.this,
      ∃ w, dr.workers r.1 = some w ∧ w.CannotApply r.2 ∧
        w.expertHandler (fun _ x _ => x) r.2 = ⟨[0], 1, 1⟩) ∧
    moeSharded toWorker (fun _ x _ => x) oneToken noTensors 3 [5] 1 false
      (Provider.all fun _ _ => ()) dr.sharding
      (dr.transport words (fun _ x _ => x) (fun _ _ _ => 1)) = .ok [0] ∧
    (∃ r ∈ attnRequests dr.sharding.numNodes dr.this twoTokens,
      ∃ w, dr.workers r.1 = some w ∧ w.CannotAttend r.2 ∧
        w.attnHandler (fun _ _ _ => 1) r.2 = ⟨[0, 0], 2, 1⟩) ∧
    attentionSharded dr.sharding.numNodes twoTokens (fun _ _ _ => 9)
      (dr.attnTransport words (fun _ x _ => x) (fun _ _ _ => 1)) = .ok ([9, 9], none) := by
  intro dr
  refine ⟨?_, ?_, ?_, ?_⟩
  · rw [batchRequests_oneToken]
    refine ⟨_, List.mem_singleton.mpr rfl, _, rfl, Or.inr ⟨by decide, Or.inr ?_⟩, by decide⟩
    exact ⟨(1, [(0, 1)]), by decide, .load 1 3, by decide⟩
  · decide +kernel
  · rw [attnRequests_twoTokens]
    refine ⟨_, List.mem_singleton.mpr rfl, _, rfl, ?_, by decide⟩
    exact Nat.zero_le _
  · unfold attentionSharded
    dsimp only
    generalize hj : joinReplies _ _ _ _ _ = joined
    have hjoined : joined = ([(0, [9, 9]), (1, [0, 0])], none) := by
      rw [← hj]
      decide
    rw [hjoined]
    dsimp only
    rw [foldPartials, List.mergeSort_of_pairwise (by decide)]
    decide

end Colibri.Cluster
