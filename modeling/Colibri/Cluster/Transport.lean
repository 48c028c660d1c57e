import Mathlib.Algebra.BigOperators.Group.List.Basic
import Mathlib.Data.List.GetD

/-!
# Requests to peers, and their replies

A driver sends one request to each peer it needs, from a thread of its own, and
joins the threads in the order it spawned them. In which order the replies came
in is part of what the transport does (`Arrivals`); joining picks them by node,
so the order is not seen.

What comes back is checked for its length and nothing else. One bad reply is
enough for an error (`joinReplies_bad`), without one the partials are the replies
(`joinReplies_good`).

`foldPartials_eq` is what the driver makes of the partials: they are added up in ascending order of
node, and a sum has no order.
-/

namespace Colibri.Cluster

/-- `ExpertRequest`: the peer applies `experts` to the activations, by weights
`[n_tokens, experts]`. -/
structure ExpertRequest (α : Type) where
  experts : List Nat
  weights : List α
  activations : List α
  nTokens : Nat
  hidden : Nat
  layer : Nat
  deriving DecidableEq

/-- `ExpertResponse`: the peer's partial sum, `[n_tokens, hidden]`. -/
structure ExpertResponse (α : Type) where
  outputs : List α
  nTokens : Nat
  hidden : Nat
  deriving DecidableEq

/-- `AttnRequest`: a head slice of a layer, over the driver's selection. -/
structure AttnRequest (α : Type) where
  activations : List α
  sel : List (List Nat)
  nTokens : Nat
  hidden : Nat
  posBase : Nat
  hStart : Nat
  hCount : Nat
  layer : Nat
  deriving DecidableEq

/-- `AttnResponse`. -/
structure AttnResponse (α : Type) where
  outputs : List α
  nTokens : Nat
  hidden : Nat
  deriving DecidableEq

/-- `TransportError`. -/
inductive TransportError where
  | notConnected
  | rdmaUnavailable
  | fingerprintMismatch (node : Nat) (ours theirs : UInt64)
  | io (text : String)
  deriving DecidableEq

/-- The errors a sharded call returns. -/
inductive IoError where
  /-- the provider's: the expert is another node's -/
  | notOwned (eid layer node : Nat)
  /-- the provider's: the expert's tensors could not be read -/
  | load (eid layer : Nat)
  /-- `expected {} outputs, got {}`, of experts or attention -/
  | outputs (node expected got : Nat)
  | transport (e : TransportError)
  /-- `exchange thread panicked` -/
  | panicked (node : Nat)
  deriving DecidableEq

/-- What a joined thread holds. -/
inductive Reply (ρ : Type) where
  | ok (resp : ρ)
  | failed (e : TransportError)
  | panicked

/-- One reply for every node asked, in the order they came in. -/
structure Arrivals (ρ : Type) (asked : List Nat) where
  replies : List (Nat × Reply ρ)
  perm : (replies.map Prod.fst).Perm asked

/-- Joining the thread of `node`. -/
def Arrivals.join {ρ : Type} {asked : List Nat} (a : Arrivals ρ asked) (node : Nat) : Reply ρ :=
  (a.replies.lookup node).getD .panicked

theorem mem_of_lookup {β : Type} {l : List (Nat × β)} {node : Nat} {b : β}
    (h : l.lookup node = some b) : (node, b) ∈ l := by
  induction l with
  | nil => cases h
  | cons p l ih =>
    rw [List.lookup_cons] at h
    split at h
    next heq =>
      cases h
      rw [eq_of_beq heq]
      exact List.mem_cons_self ..
    next => exact List.mem_cons_of_mem _ (ih h)

theorem lookup_of_mem {β : Type} {l : List (Nat × β)} (hnd : (l.map Prod.fst).Nodup) {node : Nat}
    {b : β} (h : (node, b) ∈ l) : l.lookup node = some b := by
  induction l with
  | nil => cases h
  | cons p l ih =>
    obtain ⟨hhead, htail⟩ := List.nodup_cons.mp hnd
    rw [List.lookup_cons]
    rcases List.mem_cons.mp h with rfl | h
    · rw [beq_self_eq_true]
    · split
      next heq =>
        rw [← eq_of_beq heq] at hhead
        exact absurd (List.mem_map_of_mem (f := Prod.fst) h) hhead
      next => exact ih htail h

section

variable {ρ : Type} {asked : List Nat} {a : Arrivals ρ asked} {node : Nat}

/-- Every node asked has replied. -/
theorem Arrivals.join_mem (h : node ∈ asked) : (node, a.join node) ∈ a.replies := by
  have hkey : node ∈ a.replies.map Prod.fst := a.perm.mem_iff.mpr h
  unfold join
  cases hl : a.replies.lookup node with
  | some r => exact mem_of_lookup hl
  | none =>
    obtain ⟨⟨node', r⟩, hmem, rfl⟩ := List.mem_map.mp hkey
    rw [List.lookup_eq_none_iff] at hl
    exact absurd (hl _ hmem) (by simp)

theorem Arrivals.join_eq (hnd : asked.Nodup) {r : Reply ρ} (h : (node, r) ∈ a.replies) :
    a.join node = r := by
  rw [join, lookup_of_mem (a.perm.nodup_iff.mpr hnd) h]
  rfl

end

/-! ## Joining -/

section

variable {α ρ : Type} (outputs : ρ → List α) (expected : Nat)

/-- The outputs of a reply that passes the driver's checks. -/
def Reply.accepted : Reply ρ → Option (List α)
  | .ok resp => if (outputs resp).length = expected then some (outputs resp) else none
  | .failed _ => none
  | .panicked => none

/-- The error the driver makes of a reply that does not. -/
def Reply.error (node : Nat) : Reply ρ → IoError
  | .ok resp => .outputs node expected (outputs resp).length
  | .failed e => .transport e
  | .panicked => .panicked node

/-- Joining one thread: its partial, or its error if none came before. -/
def joinReply (st : List (Nat × List α) × Option IoError) (node : Nat) (r : Reply ρ) :
    List (Nat × List α) × Option IoError :=
  match r.accepted outputs expected with
  | some p => (st.1 ++ [(node, p)], st.2)
  | none => (st.1, st.2.or (some (r.error outputs expected node)))

/-- Joining the threads, in the order they were spawned. -/
def joinReplies {asked : List Nat} (a : Arrivals ρ asked) (handles : List Nat)
    (st : List (Nat × List α) × Option IoError) : List (Nat × List α) × Option IoError :=
  handles.foldl (fun st node => joinReply outputs expected st node (a.join node)) st

variable {outputs expected} {asked : List Nat} {a : Arrivals ρ asked}

variable {st : List (Nat × List α) × Option IoError} {handles : List Nat}

theorem joinReplies_cons {node : Nat} {rest : List Nat}
    :
    joinReplies outputs expected a (node :: rest) st
      = joinReplies outputs expected a rest (joinReply outputs expected st node (a.join node)) :=
  rfl

/-- An error stays. -/
theorem joinReplies_error
    (h : st.2 ≠ none) : (joinReplies outputs expected a handles st).2 ≠ none := by
  induction handles generalizing st with
  | nil => exact h
  | cons node rest ih =>
    rw [joinReplies_cons]
    refine ih ?_
    unfold joinReply
    split
    · exact h
    · intro hnone
      exact h (Option.or_eq_none_iff.mp hnone).1

/-- **One bad reply is an error.** -/
theorem joinReplies_bad
    {node : Nat} (hmem : node ∈ handles) (h : (a.join node).accepted outputs expected = none) :
    (joinReplies outputs expected a handles st).2 ≠ none := by
  induction handles generalizing st with
  | nil => cases hmem
  | cons first rest ih =>
    rw [joinReplies_cons]
    rcases List.mem_cons.mp hmem with rfl | hmem
    · refine joinReplies_error ?_
      rw [joinReply, h]
      intro hnone
      cases (Option.or_eq_none_iff.mp hnone).2
    · exact ih hmem

/-- **Without one** the partials are the replies, and no error is added. -/
theorem joinReplies_good
    {p : Nat → List α}
    (h : ∀ node ∈ handles, (a.join node).accepted outputs expected = some (p node)) :
    joinReplies outputs expected a handles st
      = (st.1 ++ handles.map (fun node => (node, p node)), st.2) := by
  induction handles generalizing st with
  | nil =>
    rw [List.map_nil, List.append_nil]
    rfl
  | cons node rest ih =>
    rw [joinReplies_cons, ih (fun n hn => h n (List.mem_cons_of_mem _ hn)), joinReply,
      h node (List.mem_cons_self ..)]
    dsimp only
    rw [List.append_assoc]
    rfl

/-- An error of joining is one reply's. -/
theorem joinReplies_error_bad
    (hst : st.2 = none) (h : (joinReplies outputs expected a handles st).2 ≠ none) :
    ∃ node ∈ handles, (a.join node).accepted outputs expected = none := by
  by_contra hgood
  push Not at hgood
  choose! p hp using fun node hn => Option.ne_none_iff_exists'.mp (hgood node hn)
  rw [joinReplies_good (p := p) hp] at h
  exact h hst

end

/-! ## Adding the partials up -/

section

variable {α : Type} [Zero α] [Add α]

/-- `out += p`, as far as both reach. -/
def addInto : List α → List α → List α
  | o :: os, v :: vs => (o + v) :: addInto os vs
  | os, [] => os
  | [], _ => []

/-- The partials are added in ascending order of node. -/
def foldPartials (out : List α) (partials : List (Nat × List α)) : List α :=
  (partials.mergeSort (fun a b => decide (a.1 ≤ b.1))).foldl (fun out p => addInto out p.2) out

end

theorem mapIdx_self {α : Type} (l : List α) : l.mapIdx (fun _ v => v) = l :=
  List.mapIdx_eq_iff.mpr fun i => by cases l[i]? <;> rfl

theorem addInto_eq {α : Type} [Zero α] [Add α] {out p : List α} (h : p.length = out.length) :
    addInto out p = out.mapIdx (fun i v => v + p.getD i 0) := by
  induction out generalizing p with
  | nil =>
    rw [List.length_eq_zero_iff.mp h]
    rfl
  | cons o os ih =>
    cases p with
    | nil => cases h
    | cons v vs =>
      rw [addInto, ih (Nat.succ.inj h), List.mapIdx_cons]
      rfl

section

variable {α : Type} [AddCommMonoid α]

theorem foldl_addInto {out : List α} {ps : List (Nat × List α)}
    (h : ∀ p ∈ ps, p.2.length = out.length) :
    ps.foldl (fun out p => addInto out p.2) out
      = out.mapIdx (fun i v => v + (ps.map (fun p => p.2.getD i 0)).sum) := by
  induction ps generalizing out with
  | nil =>
    simp only [List.foldl_nil, List.map_nil, List.sum_nil, add_zero]
    exact (mapIdx_self _).symm
  | cons p ps ih =>
    rw [List.foldl_cons, addInto_eq (h p (List.mem_cons_self ..)), ih, List.mapIdx_mapIdx]
    · simp only [Function.comp_def, List.map_cons, List.sum_cons, add_assoc]
    · intro q hq
      rw [List.length_mapIdx]
      exact h q (List.mem_cons_of_mem _ hq)

/-- **The partials added up**, in whatever order. -/
theorem foldPartials_eq {out : List α} {ps : List (Nat × List α)}
    (h : ∀ p ∈ ps, p.2.length = out.length) :
    foldPartials out ps = out.mapIdx (fun i v => v + (ps.map (fun p => p.2.getD i 0)).sum) := by
  have hperm := List.mergeSort_perm ps (fun a b => decide (a.1 ≤ b.1))
  rw [foldPartials, foldl_addInto (fun p hp => h p (hperm.mem_iff.mp hp))]
  congr 1
  funext i v
  rw [(hperm.map (fun p => p.2.getD i 0)).sum_eq]

end

end Colibri.Cluster
