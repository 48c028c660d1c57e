import Colibri.Lib.Wire

/-!
# Which node owns an expert

Experts are split over nodes `0..num_nodes`: in contiguous blocks by a closed
form, or by a table. A map carries what its constructors guarantee, so each of
its experts has one owner and the owner is a node (`owner_lt`).

`isLocal_iff_rangeFor` says of a contiguous map that what is local to a node is its range. Past the
experts of a map a table has no owner (`ownerAt_eq_none`); the code indexes it there and panics.
-/

namespace Colibri.Cluster

/-- `ExpertSharding`. -/
structure ExpertSharding where
  numNodes : Nat
  nExperts : Nat
  /-- `some t`: expert `e` is node `t[e]`'s. `none`: contiguous blocks. -/
  table : Option (List Nat)
  /-- asserted by every constructor -/
  numNodes_pos : 1 ≤ numNodes
  nExperts_pos : 1 ≤ nExperts
  table_wf : ∀ t, table = some t → t.length = nExperts ∧ ∀ node ∈ t, node < numNodes

namespace ExpertSharding

/-- `ExpertSharding::new`: contiguous. -/
def new (numNodes nExperts : Nat) (hn : 1 ≤ numNodes) (he : 1 ≤ nExperts) : ExpertSharding where
  numNodes := numNodes
  nExperts := nExperts
  table := none
  numNodes_pos := hn
  nExperts_pos := he
  table_wf := fun _ h => nomatch h

/-- `owner`, of any `u32`: past its end the table is indexed out of range, and the quotient of
a contiguous map is cast to a `u32`. -/
def ownerAt (s : ExpertSharding) (expert : Nat) : Option Nat :=
  match s.table with
  | some t => t[expert]?
  | none => some (expert * s.numNodes / s.nExperts % 2 ^ 32)

/-- `owner`, of an expert of the map. The quotient is below `num_nodes`, so the casts lose
nothing (`ownerAt_eq`). -/
def owner (s : ExpertSharding) (expert : Nat) : Nat :=
  match s.table with
  | some t => t.getD expert 0
  | none => expert * s.numNodes / s.nExperts

def isLocal (s : ExpertSharding) (node expert : Nat) : Bool := s.owner expert = node

/-- `range_for`, of a contiguous map: the half-open block of `node`. -/
def rangeFor (s : ExpertSharding) (node : Nat) : Nat × Nat :=
  ((node * s.nExperts + s.numNodes - 1) / s.numNodes,
    ((node + 1) * s.nExperts + s.numNodes - 1) / s.numNodes)

/-- `mix`: FNV-1a over the little-endian bytes of a `u32`. -/
def mix (h : UInt64) (x : Nat) : UInt64 :=
  (Wire.putWord x).foldl (fun h b => (h ^^^ b.toUInt64) * 0x100000001b3) h

/-- `fingerprint`, of the whole map. -/
def fingerprint (s : ExpertSharding) : UInt64 :=
  (List.range s.nExperts).foldl (fun h e => mix h (s.owner e))
    (mix (mix 0xcbf29ce484222325 s.numNodes) s.nExperts)

variable {s : ExpertSharding} {expert node : Nat}

theorem isLocal_iff : s.isLocal node expert = true ↔ s.owner expert = node := decide_eq_true_iff

/-- **Every expert has an owner**, and it is a node. -/
theorem owner_lt (h : expert < s.nExperts) : s.owner expert < s.numNodes := by
  unfold owner
  split
  next t ht =>
    obtain ⟨hlen, hnode⟩ := s.table_wf t ht
    have hlt : expert < t.length := by omega
    rw [List.getD_eq_getElem?_getD, List.getElem?_eq_getElem hlt]
    exact hnode _ (List.getElem_mem hlt)
  next =>
    rw [Nat.div_lt_iff_lt_mul s.nExperts_pos, Nat.mul_comm s.numNodes]
    exact Nat.mul_lt_mul_of_pos_right h s.numNodes_pos

/-- For the experts of a map the table is not left and nothing is cast off. -/
theorem ownerAt_eq (hn : s.numNodes ≤ 2 ^ 32) (h : expert < s.nExperts) :
    s.ownerAt expert = some (s.owner expert) := by
  have hlt := owner_lt h
  unfold ownerAt
  unfold owner at hlt ⊢
  cases ht : s.table with
  | some t =>
    have hin : expert < t.length := (s.table_wf t ht).1.symm ▸ h
    show t[expert]? = some (t.getD expert 0)
    rw [List.getD_eq_getElem?_getD, List.getElem?_eq_getElem hin]
    rfl
  | none =>
    rw [ht] at hlt
    exact congrArg some (Nat.mod_eq_of_lt (Nat.lt_of_lt_of_le hlt hn))

theorem ownerAt_eq_none : s.ownerAt expert = none ↔ s.table ≠ none ∧ s.nExperts ≤ expert := by
  unfold ownerAt
  cases ht : s.table with
  | some t => simp [(s.table_wf t ht).1]
  | none => simp

private theorem ceilDiv_le_iff {a b c : Nat} (hb : 0 < b) :
    (a + b - 1) / b ≤ c ↔ a ≤ c * b := by
  rw [← Nat.lt_succ_iff, Nat.div_lt_iff_lt_mul hb, Nat.succ_mul]
  omega

/-- The blocks of a contiguous map are what its nodes own. -/
theorem isLocal_iff_rangeFor (ht : s.table = none) :
    s.isLocal node expert = true ↔
      (s.rangeFor node).1 ≤ expert ∧ expert < (s.rangeFor node).2 := by
  have hE := s.nExperts_pos
  have hupper : ¬ (s.rangeFor node).2 ≤ expert ↔ expert * s.numNodes < (node + 1) * s.nExperts := by
    rw [rangeFor, ceilDiv_le_iff s.numNodes_pos, Nat.not_le]
  rw [isLocal_iff, ← Nat.not_le (a := (s.rangeFor node).2), hupper, rangeFor,
    ceilDiv_le_iff s.numNodes_pos]
  simp only [owner, ht]
  rw [← Nat.div_lt_iff_lt_mul hE, ← Nat.le_div_iff_mul_le hE]
  omega

end ExpertSharding

end Colibri.Cluster
