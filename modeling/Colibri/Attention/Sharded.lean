import Colibri.Cluster.Transport

/-!
# Attention heads split over nodes

`attention_sharded` gives every node a slice of the heads. The driver computes its
own slice and asks every other node for the partial of theirs, over the same
activations and the same selection; partials are checked, joined and added up as
those of experts are. The local slice is computed in process and cannot fail, so
the call fails exactly where a reply is bad (`attentionSharded_error_iff`).
-/

namespace Colibri.Attention

open Colibri.Cluster

/-- `head_slice`: first head and head count of a node. -/
def headSlice (node numNodes nHeads : Nat) : Nat × Nat :=
  let n := max numNodes 1
  let base := nHeads / n
  let rem := nHeads % n
  (node * base + min node rem, base + if node < rem then 1 else 0)

/-- What carries attention requests. -/
structure AttnTransport (α : Type) where
  thisNode : Nat
  exchangeAttn : (reqs : List (Nat × AttnRequest α)) →
    Arrivals (AttnResponse α) (reqs.map Prod.fst)

/-- A call over a layer: its input and the selection shipped with it. -/
structure AttnCall (α : Type) where
  nHeads : Nat
  hidden : Nat
  layer : Nat
  x : List α
  sLen : Nat
  posBase : Nat
  /-- carried from a full layer -/
  incomingSel : Option (List (List Nat))
  /-- `dsa_selection_for`, where none is carried -/
  dsaSelection : Option (List (List Nat))

def AttnCall.computed {α : Type} (call : AttnCall α) : Option (List (List Nat)) :=
  if call.incomingSel.isNone then call.dsaSelection else none

/-- `sel_full`: a dense call ships one empty selection per query. -/
def AttnCall.selFull {α : Type} (call : AttnCall α) : List (List Nat) :=
  (call.incomingSel.or call.computed).getD (List.replicate call.sLen [])

/-- A request for its slice to every node but this one. -/
def attnRequests {α : Type} (numNodes me : Nat) (call : AttnCall α) :
    List (Nat × AttnRequest α) :=
  ((List.range numNodes).filter (fun n => n ≠ me)).map fun n =>
    (n,
      { activations := call.x
        sel := call.selFull
        nTokens := call.sLen
        hidden := call.hidden
        posBase := call.posBase
        hStart := (headSlice n numNodes call.nHeads).1
        hCount := (headSlice n numNodes call.nHeads).2
        layer := call.layer })

section

variable {α : Type} [Zero α] [Add α]

/-- `attention_sharded`; `localSlice` gives the elements of this node's slice. Returns
the output and the selection computed here. -/
def attentionSharded (numNodes : Nat) (call : AttnCall α)
    (localSlice : List (List Nat) → Nat × Nat → Nat → α) (transport : AttnTransport α) :
    Except IoError (List α × Option (List (List Nat))) :=
  let me := transport.thisNode
  let n := call.sLen * call.hidden
  let reqs := attnRequests numNodes me call
  let mine := (List.range n).map (localSlice call.selFull (headSlice me numNodes call.nHeads))
  let joined := joinReplies AttnResponse.outputs n (transport.exchangeAttn reqs)
    (reqs.map Prod.fst) ([(me, mine)], none)
  match joined.2 with
  | some e => .error e
  | none => .ok (foldPartials (List.replicate n 0) joined.1, call.computed)

/-- **When a sharded attention call fails**: some reply is not a partial of the
right length. -/
theorem attentionSharded_error_iff {numNodes : Nat} {call : AttnCall α}
    {localSlice : List (List Nat) → Nat × Nat → Nat → α} {transport : AttnTransport α} :
    (∃ e, attentionSharded numNodes call localSlice transport = .error e) ↔
      ∃ node ∈ (attnRequests numNodes transport.thisNode call).map Prod.fst,
        ((transport.exchangeAttn (attnRequests numNodes transport.thisNode call)).join
          node).accepted AttnResponse.outputs (call.sLen * call.hidden) = none := by
  unfold attentionSharded
  dsimp only
  split
  next e he =>
    have hne := Option.ne_none_iff_exists'.mpr ⟨e, he⟩
    refine iff_of_true ⟨e, rfl⟩ (joinReplies_error_bad ?_ hne)
    rfl
  next hnone =>
    refine iff_of_false (fun ⟨_, h⟩ => nomatch h) ?_
    rintro ⟨node, hnode, hbad⟩
    exact joinReplies_bad hnode hbad hnone

end

end Colibri.Attention
