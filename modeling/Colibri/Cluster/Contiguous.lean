import Colibri.Cluster.Sharding

/-!
# The blocks of a contiguous map

`owner` divides, `range_for` rounds up: `e` belongs to node `e * N / E`, and node `k` is
told that it owns `[ceil (k * E / N), ceil ((k + 1) * E / N))`. Both compute in 64 bits and
cut the result to 32. Ids and counts have 32 bits, so no product wraps and nothing is cut
off (`owner_toNat`, `rangeFor_toNat`), and the two say the same (`blocks_agree`).

The blocks are as even as they can be: where the quotient of `k * E` by `N` is `q`, a block
has `E / N` or `E / N + 1` experts, whichever the remainders make of it (`size_bounds`).
With more nodes than experts some have none.
-/

namespace Colibri.Cluster

namespace ExpertSharding

variable {s : ExpertSharding} {node : Nat}

theorem rangeFor_snd (s : ExpertSharding) (node : Nat) :
    (s.rangeFor node).2 = (s.rangeFor (node + 1)).1 := rfl

theorem rangeFor_zero (s : ExpertSharding) : (s.rangeFor 0).1 = 0 := by
  have hN := s.numNodes_pos
  rw [rangeFor, Nat.zero_mul, Nat.zero_add]
  exact Nat.div_eq_of_lt (by omega)

theorem rangeFor_numNodes (s : ExpertSharding) : (s.rangeFor s.numNodes).1 = s.nExperts := by
  have hN := s.numNodes_pos
  have hsum : s.numNodes * s.nExperts + s.numNodes - 1
      = s.numNodes * s.nExperts + (s.numNodes - 1) := by omega
  rw [rangeFor, hsum, Nat.mul_add_div hN, Nat.div_eq_of_lt (by omega), Nat.add_zero]

/-- **A block has the mean size**, rounded down or up. -/
theorem size_bounds (s : ExpertSharding) (node : Nat) :
    (s.rangeFor node).1 + s.nExperts / s.numNodes ≤ (s.rangeFor node).2 ∧
      (s.rangeFor node).2 ≤ (s.rangeFor node).1 + s.nExperts / s.numNodes + 1 := by
  have hN := s.numNodes_pos
  obtain ⟨q, r, hr, hE⟩ : ∃ q r, r < s.numNodes ∧ s.nExperts = s.numNodes * q + r :=
    ⟨_, _, Nat.mod_lt _ hN, (Nat.div_add_mod s.nExperts s.numNodes).symm⟩
  have hmean : s.nExperts / s.numNodes = q := by
    rw [hE, Nat.mul_add_div hN, Nat.div_eq_of_lt hr, Nat.add_zero]
  have hstart : ∀ k, (s.rangeFor k).1 = k * q + (k * r + (s.numNodes - 1)) / s.numNodes := by
    intro k
    have hsum : k * s.nExperts + s.numNodes - 1
        = s.numNodes * (k * q) + (k * r + (s.numNodes - 1)) := by
      rw [hE, Nat.mul_add, Nat.mul_left_comm]
      omega
    rw [rangeFor, hsum, Nat.mul_add_div hN]
  -- the remainder adds less than a whole step
  have hlow : (node * r + (s.numNodes - 1)) / s.numNodes
      ≤ ((node + 1) * r + (s.numNodes - 1)) / s.numNodes := by
    refine Nat.div_le_div_right ?_
    rw [Nat.succ_mul]
    omega
  have hhigh : ((node + 1) * r + (s.numNodes - 1)) / s.numNodes
      ≤ (node * r + (s.numNodes - 1)) / s.numNodes + 1 := by
    rw [← Nat.add_div_right _ hN]
    refine Nat.div_le_div_right ?_
    rw [Nat.succ_mul]
    omega
  rw [rangeFor_snd, hmean, hstart, hstart, Nat.succ_mul]
  omega

theorem rangeFor_mono {j k : Nat} (h : j ≤ k) : (s.rangeFor j).1 ≤ (s.rangeFor k).1 := by
  refine Nat.div_le_div_right ?_
  have := Nat.mul_le_mul_right s.nExperts h
  omega

theorem rangeFor_le (h : node ≤ s.numNodes) : (s.rangeFor node).1 ≤ s.nExperts := by
  have := rangeFor_mono (s := s) h
  rwa [rangeFor_numNodes] at this

end ExpertSharding

/-! ## In the code's own widths -/

/-- `u64::div_ceil` -/
def divCeil (a b : UInt64) : UInt64 := if 0 < a % b then a / b + 1 else a / b

/-- A map that `ExpertSharding::new` makes: no table. -/
structure ContiguousMap where
  numNodes : UInt32
  nExperts : UInt32
  /-- asserted by `new` -/
  numNodes_pos : 1 ≤ numNodes
  nExperts_pos : 1 ≤ nExperts

namespace ContiguousMap

def owner (m : ContiguousMap) (expert : UInt32) : UInt32 :=
  (expert.toUInt64 * m.numNodes.toUInt64 / m.nExperts.toUInt64).toUInt32

def rangeFor (m : ContiguousMap) (node : UInt32) : UInt32 × UInt32 :=
  let e := m.nExperts.toUInt64
  let n := m.numNodes.toUInt64
  let node := node.toUInt64
  ((divCeil (node * e) n).toUInt32, (divCeil ((node + 1) * e) n).toUInt32)

/-- The map, its numbers without a width. -/
def sharding (m : ContiguousMap) : ExpertSharding :=
  ExpertSharding.new m.numNodes.toNat m.nExperts.toNat
    (UInt32.le_iff_toNat_le.mp m.numNodes_pos) (UInt32.le_iff_toNat_le.mp m.nExperts_pos)

/-- `div_ceil`, where the sum fits. -/
theorem divCeil_toNat {a b : UInt64} (hb : 0 < b.toNat) (h : a.toNat + b.toNat ≤ 2 ^ 64) :
    (divCeil a b).toNat = (a.toNat + b.toNat - 1) / b.toNat := by
  have hdiv := Nat.div_add_mod a.toNat b.toNat
  have hmod := Nat.mod_lt a.toNat hb
  have hle := Nat.div_le_self a.toNat b.toNat
  have hceil : ∀ r, r < b.toNat → (b.toNat * (a.toNat / b.toNat) + r + b.toNat - 1) / b.toNat
      = a.toNat / b.toNat + if 0 < r then 1 else 0 := by
    intro r hr
    rw [show b.toNat * (a.toNat / b.toNat) + r + b.toNat - 1
      = b.toNat * (a.toNat / b.toNat) + (r + b.toNat - 1) by omega, Nat.mul_add_div hb]
    congr 1
    split
    next hpos =>
      rw [show r + b.toNat - 1 = (r - 1) + b.toNat by omega, Nat.add_div_right _ hb,
        Nat.div_eq_of_lt (by omega)]
    next hzero => exact Nat.div_eq_of_lt (by omega)
  have hval := hceil _ hmod
  rw [hdiv] at hval
  rw [hval, divCeil]
  have hiff : (0 < a % b) = (0 < a.toNat % b.toNat) := by
    rw [UInt64.lt_iff_toNat_lt, UInt64.toNat_mod]
    rfl
  simp only [hiff]
  split
  next =>
    have hone : (1 : UInt64).toNat = 1 := rfl
    rw [UInt64.toNat_add, UInt64.toNat_div, hone]
    refine Nat.mod_eq_of_lt ?_
    have := b.toNat_lt
    omega
  next => rw [UInt64.toNat_div, Nat.add_zero]

theorem mul_fits {a b : Nat} (ha : a ≤ 2 ^ 32) (hb : b < 2 ^ 32) : a * b + 2 ^ 32 ≤ 2 ^ 64 := by
  have h := Nat.mul_le_mul ha (Nat.le_sub_one_of_lt hb)
  omega

variable {m : ContiguousMap}

theorem owner_toNat {expert : UInt32} (h : expert < m.nExperts) :
    (m.owner expert).toNat = m.sharding.owner expert.toNat := by
  have hfits := mul_fits (Nat.le_of_lt expert.toNat_lt) m.numNodes.toNat_lt
  have hlt : m.sharding.owner expert.toNat < m.numNodes.toNat :=
    ExpertSharding.owner_lt (s := m.sharding) (UInt32.lt_iff_toNat_lt.mp h)
  have hquot : (expert.toUInt64 * m.numNodes.toUInt64 / m.nExperts.toUInt64).toNat
      = m.sharding.owner expert.toNat := by
    rw [UInt64.toNat_div, UInt64.toNat_mul, UInt32.toNat_toUInt64, UInt32.toNat_toUInt64,
      UInt32.toNat_toUInt64, Nat.mod_eq_of_lt (by omega)]
    rfl
  have hN := m.numNodes.toNat_lt
  rw [owner, UInt64.toNat_toUInt32, hquot, Nat.mod_eq_of_lt (by omega)]

theorem start_toNat {k : UInt64} (h : k.toNat ≤ m.numNodes.toNat) :
    (divCeil (k * m.nExperts.toUInt64) m.numNodes.toUInt64).toUInt32.toNat
      = (m.sharding.rangeFor k.toNat).1 := by
  have hN := m.numNodes.toNat_lt
  have hE := m.nExperts.toNat_lt
  have hfits := mul_fits (a := k.toNat) (by omega) hE
  have hprod : (k * m.nExperts.toUInt64).toNat = k.toNat * m.nExperts.toNat := by
    rw [UInt64.toNat_mul, UInt32.toNat_toUInt64, Nat.mod_eq_of_lt (by omega)]
  have hceil : (divCeil (k * m.nExperts.toUInt64) m.numNodes.toUInt64).toNat
      = (m.sharding.rangeFor k.toNat).1 := by
    rw [divCeil_toNat, hprod, UInt32.toNat_toUInt64]
    · rfl
    · rw [UInt32.toNat_toUInt64]
      exact m.sharding.numNodes_pos
    · rw [hprod, UInt32.toNat_toUInt64]
      omega
  have hle : (m.sharding.rangeFor k.toNat).1 ≤ m.nExperts.toNat :=
    ExpertSharding.rangeFor_le (s := m.sharding) h
  rw [UInt64.toNat_toUInt32, hceil, Nat.mod_eq_of_lt (by omega)]

theorem rangeFor_toNat {node : UInt32} (h : node < m.numNodes) :
    (m.rangeFor node).1.toNat = (m.sharding.rangeFor node.toNat).1 ∧
      (m.rangeFor node).2.toNat = (m.sharding.rangeFor node.toNat).2 := by
  rw [UInt32.lt_iff_toNat_lt] at h
  have hN := m.numNodes.toNat_lt
  have hone : (1 : UInt64).toNat = 1 := rfl
  have hnext : (node.toUInt64 + 1).toNat = node.toNat + 1 := by
    rw [UInt64.toNat_add, UInt32.toNat_toUInt64, hone, Nat.mod_eq_of_lt (by omega)]
  constructor
  · have hstart := start_toNat (m := m) (k := node.toUInt64)
      (by rw [UInt32.toNat_toUInt64]; omega)
    rwa [UInt32.toNat_toUInt64] at hstart
  · have hstart := start_toNat (m := m) (k := node.toUInt64 + 1) (by rw [hnext]; omega)
    rwa [hnext] at hstart

/-- The ranges of the nodes cut the experts into blocks: in the order of the nodes, without
a gap or an overlap, from the first expert to the last, none larger than another by more
than one. -/
structure Blocks (m : ContiguousMap) : Prop where
  ordered : ∀ k < m.numNodes, (m.rangeFor k).1 ≤ (m.rangeFor k).2
  disjoint : ∀ k < m.numNodes, ∀ j < k, (m.rangeFor j).2 ≤ (m.rangeFor k).1
  first : (m.rangeFor 0).1 = 0
  next : ∀ k < m.numNodes, k + 1 < m.numNodes → (m.rangeFor k).2 = (m.rangeFor (k + 1)).1
  last : (m.rangeFor (m.numNodes - 1)).2 = m.nExperts
  even : ∀ j < m.numNodes, ∀ k < m.numNodes,
    (m.rangeFor j).2.toNat - (m.rangeFor j).1.toNat
      ≤ (m.rangeFor k).2.toNat - (m.rangeFor k).1.toNat + 1

/-- The ranges are blocks: they begin at zero, end at the last expert, and each ends where the next
begins. -/
theorem blocks (m : ContiguousMap) : m.Blocks := by
  have hpos : 0 < m.numNodes.toNat := m.sharding.numNodes_pos
  have hone : (1 : UInt32).toNat = 1 := rfl
  refine ⟨fun k hk => ?_, fun k hk j hj => ?_, ?_, fun k hk hnext => ?_, ?_, fun j hj k hk => ?_⟩
  · obtain ⟨hfst, hsnd⟩ := rangeFor_toNat hk
    rw [UInt32.le_iff_toNat_le, hfst, hsnd, ExpertSharding.rangeFor_snd]
    exact ExpertSharding.rangeFor_mono (Nat.le_succ _)
  · obtain ⟨hfst, -⟩ := rangeFor_toNat hk
    obtain ⟨-, hsnd⟩ := rangeFor_toNat (UInt32.lt_trans hj hk)
    rw [UInt32.le_iff_toNat_le, hfst, hsnd, ExpertSharding.rangeFor_snd]
    exact ExpertSharding.rangeFor_mono (UInt32.lt_iff_toNat_lt.mp hj)
  · have hzero : (0 : UInt32) < m.numNodes := UInt32.lt_iff_toNat_lt.mpr hpos
    refine UInt32.toNat_inj.mp ((rangeFor_toNat hzero).1.trans ?_)
    exact ExpertSharding.rangeFor_zero m.sharding
  · have hlt := UInt32.lt_iff_toNat_lt.mp hk
    have hN := m.numNodes.toNat_lt
    have hsucc : (k + 1).toNat = k.toNat + 1 := by
      rw [UInt32.toNat_add, hone, Nat.mod_eq_of_lt (by omega)]
    refine UInt32.toNat_inj.mp ?_
    rw [(rangeFor_toNat hk).2, (rangeFor_toNat hnext).1, hsucc, ExpertSharding.rangeFor_snd]
  · have hpred : (m.numNodes - 1).toNat = m.numNodes.toNat - 1 :=
      UInt32.toNat_sub_of_le _ _ (UInt32.le_iff_toNat_le.mpr hpos)
    have hlt : m.numNodes - 1 < m.numNodes := by
      rw [UInt32.lt_iff_toNat_lt, hpred]
      omega
    refine UInt32.toNat_inj.mp ((rangeFor_toNat hlt).2.trans ?_)
    rw [hpred, ExpertSharding.rangeFor_snd, Nat.sub_add_cancel hpos]
    exact ExpertSharding.rangeFor_numNodes m.sharding
  · have hj' := ExpertSharding.size_bounds m.sharding j.toNat
    have hk' := ExpertSharding.size_bounds m.sharding k.toNat
    rw [(rangeFor_toNat hj).1, (rangeFor_toNat hj).2, (rangeFor_toNat hk).1, (rangeFor_toNat hk).2]
    omega

/-- **Owner and range agree**: an expert belongs to the one node whose range it is in, and
the ranges are blocks. -/
theorem blocks_agree (m : ContiguousMap) :
    (∀ e < m.nExperts, m.owner e < m.numNodes ∧
      ∀ k < m.numNodes, m.owner e = k ↔ (m.rangeFor k).1 ≤ e ∧ e < (m.rangeFor k).2) ∧
    m.Blocks := by
  refine ⟨fun e he => ⟨?_, fun k hk => ?_⟩, m.blocks⟩
  · rw [UInt32.lt_iff_toNat_lt, owner_toNat he]
    exact ExpertSharding.owner_lt (s := m.sharding) (UInt32.lt_iff_toNat_lt.mp he)
  · have hlocal : m.sharding.isLocal k.toNat e.toNat = true ↔ _ :=
      ExpertSharding.isLocal_iff_rangeFor rfl
    rw [ExpertSharding.isLocal_iff] at hlocal
    rw [← UInt32.toNat_inj, owner_toNat he, hlocal, UInt32.le_iff_toNat_le, UInt32.lt_iff_toNat_lt,
      (rangeFor_toNat hk).1, (rangeFor_toNat hk).2]

end ContiguousMap

end Colibri.Cluster
