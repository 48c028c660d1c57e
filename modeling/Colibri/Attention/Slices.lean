import Colibri.Attention.Absorb
import Colibri.Attention.Calls
import Colibri.Attention.Sharded

/-!
# The heads split over nodes

`head_slice` cuts the heads into one run a node, each run ending where the next begins
(`sliceStart_succ`), so every head is one node's (`covers_unique`). A slice's context is
the full one with the other heads zero, the output gate keeps zeros, and the output
projection is linear: the partial outputs of the slices add up to the full output
(`sum_outRow`).

A node that gets no head computes nothing and gives zeros; but `attention_with_heads`
asserts, in a build with debug assertions, that a slice has a head in it.

`slices_nonempty_iff` is when that does not happen: there are as many heads as nodes, or more.
-/

namespace Colibri.Attention.Heads

open Colibri.Moe Colibri.Cluster Colibri.Blocks Colibri.Vectors

/-! ## The slices -/

/-- The first head of a node. -/
def sliceStart (node numNodes nHeads : Nat) : Nat :=
  node * (nHeads / numNodes) + min node (nHeads % numNodes)

variable {numNodes nHeads : Nat}

theorem headSlice_eq {node : Nat} (hn : numNodes ≠ 0) :
    headSlice node numNodes nHeads = (sliceStart node numNodes nHeads,
      sliceStart (node + 1) numNodes nHeads - sliceStart node numNodes nHeads) := by
  have hmax : max numNodes 1 = numNodes := by omega
  simp only [headSlice, sliceStart, hmax, Nat.succ_mul, Prod.mk.injEq, true_and]
  generalize nHeads / numNodes = base
  generalize nHeads % numNodes = rem
  generalize node * base = before
  split <;> omega

theorem sliceStart_mono {a b : Nat} (h : a ≤ b) :
    sliceStart a numNodes nHeads ≤ sliceStart b numNodes nHeads := by
  have hmul := Nat.mul_le_mul_right (nHeads / numNodes) h
  unfold sliceStart
  omega

theorem sliceStart_last (hn : numNodes ≠ 0) :
    sliceStart numNodes numNodes nHeads = nHeads := by
  have hmod := Nat.mod_lt nHeads (Nat.pos_of_ne_zero hn)
  have hdiv := Nat.div_add_mod nHeads numNodes
  unfold sliceStart
  omega

/-- The slice of a node, as a range of heads. -/
def sliceRange {numNodes node : Nat} (nHeads : Nat) (h : node < numNodes) : HeadRange nHeads where
  start := (headSlice node numNodes nHeads).1
  count := (headSlice node numNodes nHeads).2
  le := by
    have hn : numNodes ≠ 0 := by omega
    have hmono : sliceStart node numNodes nHeads ≤ sliceStart (node + 1) numNodes nHeads :=
      sliceStart_mono (Nat.le_succ node)
    have hend : sliceStart (node + 1) numNodes nHeads ≤ sliceStart numNodes numNodes nHeads :=
      sliceStart_mono h
    rw [headSlice_eq hn]
    rw [sliceStart_last hn] at hend
    show sliceStart node numNodes nHeads
      + (sliceStart (node + 1) numNodes nHeads - sliceStart node numNodes nHeads) ≤ nHeads
    omega

theorem sliceRange_covers {node hh : Nat} (h : node < numNodes) :
    (sliceRange nHeads h).Covers hh ↔
      sliceStart node numNodes nHeads ≤ hh ∧ hh < sliceStart (node + 1) numNodes nHeads := by
  have hn : numNodes ≠ 0 := by omega
  have hmono : sliceStart node numNodes nHeads ≤ sliceStart (node + 1) numNodes nHeads :=
    sliceStart_mono (Nat.le_succ node)
  unfold HeadRange.Covers sliceRange
  simp only [headSlice_eq hn]
  show _ ∧ hh < sliceStart node numNodes nHeads
      + (sliceStart (node + 1) numNodes nHeads - sliceStart node numNodes nHeads) ↔ _
  constructor <;> omega

/-- Every head below the start of a node is some earlier node's. -/
theorem exists_slice {node hh : Nat} (h : hh < sliceStart node numNodes nHeads) :
    ∃ n < node, sliceStart n numNodes nHeads ≤ hh ∧
      hh < sliceStart (n + 1) numNodes nHeads := by
  induction node with
  | zero =>
    rw [sliceStart, Nat.zero_mul, Nat.zero_min] at h
    exact absurd h (Nat.not_lt_zero _)
  | succ node ih =>
    by_cases hlt : hh < sliceStart node numNodes nHeads
    · obtain ⟨n, hn, hcov⟩ := ih hlt
      exact ⟨n, by omega, hcov⟩
    · exact ⟨node, Nat.lt_succ_self node, by omega, h⟩

/-- **`head_slice` partitions the heads**: each is in the slice of one node. -/
theorem covers_unique {hh : Nat} (hn : numNodes ≠ 0) (hh_lt : hh < nHeads) :
    ∃ n, ∃ hlt : n < numNodes, (sliceRange nHeads hlt).Covers hh ∧
      ∀ n', ∀ hlt' : n' < numNodes, (sliceRange nHeads hlt').Covers hh → n' = n := by
  have hlast : hh < sliceStart numNodes numNodes nHeads := by
    rw [sliceStart_last hn]
    exact hh_lt
  obtain ⟨n, hlt, hlow, hhigh⟩ := exists_slice hlast
  refine ⟨n, hlt, (sliceRange_covers hlt).mpr ⟨hlow, hhigh⟩, fun n' hlt' hcov => ?_⟩
  obtain ⟨hlow', hhigh'⟩ := (sliceRange_covers hlt').mp hcov
  -- of two nodes the lower one's slice ends before the higher one's begins
  rcases Nat.lt_trichotomy n' n with hless | heq | hmore
  · have hmono : sliceStart (n' + 1) numNodes nHeads ≤ sliceStart n numNodes nHeads :=
      sliceStart_mono hless
    omega
  · exact heq
  · have hmono : sliceStart (n + 1) numNodes nHeads ≤ sliceStart n' numNodes nHeads :=
      sliceStart_mono hmore
    omega

/-- Every node has a head exactly where there are as many heads as nodes. -/
theorem slices_nonempty_iff (hn : numNodes ≠ 0) :
    (∀ n, ∀ h : n < numNodes, (sliceRange nHeads h).count ≠ 0) ↔ numNodes ≤ nHeads := by
  have hmax : max numNodes 1 = numNodes := by omega
  have hcount : ∀ n (h : n < numNodes), (sliceRange nHeads h).count
      = nHeads / numNodes + if n < nHeads % numNodes then 1 else 0 := fun n h => by
    show (headSlice n numNodes nHeads).2 = _
    simp only [headSlice, hmax]
  constructor
  · intro h
    by_contra hlt
    have hlast := h (numNodes - 1) (by omega)
    rw [hcount, Nat.div_eq_of_lt (by omega), Nat.mod_eq_of_lt (by omega),
      if_neg (by omega)] at hlast
    exact hlast rfl
  · intro hle n h
    have hpos := Nat.div_pos hle (Nat.pos_of_ne_zero hn)
    rw [hcount]
    omega

/-- The slice of a node; there is none past the last node. -/
def slice (numNodes nHeads node : Nat) : HeadRange nHeads :=
  if h : node < numNodes then sliceRange nHeads h else ⟨0, 0, Nat.zero_le _⟩

/-! ## The partial outputs add up -/

section

variable {α S : Type} [Field α] [LinearOrder α] {m : RowMath α} {cfg : StackConfig α}
  {l : HeadWeights cfg} {layer : Nat} {kv : KvCache α S}

omit [LinearOrder α]

/-- An entry of a range's context: the full one's where the head is one of the range's. -/
theorem queryContext_getD {st0 : Nat} {qrow : List α} {jjs : List Nat} {k : Nat}
    (hr : HeadRange (asUsize cfg.nHeads)) (hk : k < asUsize cfg.nHeads * asUsize cfg.vHead) :
    (queryContext m cfg l layer kv st0 hr qrow jjs).getD k 0
      = if hr.Covers (k / asUsize cfg.vHead) then
          (queryContext m cfg l layer kv st0 (HeadRange.full _) qrow jjs).getD k 0 else 0 := by
  have hvh : 0 < asUsize cfg.vHead := Nat.pos_of_ne_zero fun h0 => by
    rw [h0, Nat.mul_zero] at hk
    exact absurd hk (Nat.not_lt_zero k)
  have hhead : k / asUsize cfg.vHead < asUsize cfg.nHeads := (Nat.div_lt_iff_lt_mul hvh).mpr hk
  have hin : k % asUsize cfg.vHead < asUsize cfg.vHead := Nat.mod_lt _ hvh
  have hentry : ∀ hr : HeadRange (asUsize cfg.nHeads),
      (queryContext m cfg l layer kv st0 hr qrow jjs)[k]?
        = (if hr.Covers (k / asUsize cfg.vHead) then
            headContext m cfg (fun jj => l.kvB.dot (kv.latent layer (st0 + jj)))
              (fun jj => kv.kRot layer (st0 + jj)) qrow (k / asUsize cfg.vHead) jjs
          else List.replicate (asUsize cfg.vHead) 0)[k % asUsize cfg.vHead]? := fun hr => by
    have hlen : ∀ i, i < asUsize cfg.nHeads → (if hr.Covers i then
        headContext m cfg (fun jj => l.kvB.dot (kv.latent layer (st0 + jj)))
          (fun jj => kv.kRot layer (st0 + jj)) qrow i jjs
        else List.replicate (asUsize cfg.vHead) 0).length = asUsize cfg.vHead := fun i _ => by
      split
      · exact length_headContext
      · exact List.length_replicate
    conv_lhs => rw [← Nat.div_add_mod' k (asUsize cfg.vHead)]
    exact getElem?_blocks hlen hhead hin
  rw [List.getD_eq_getElem?_getD, List.getD_eq_getElem?_getD, hentry, hentry,
    if_pos (HeadRange.full_covers hhead)]
  split
  · rfl
  · rw [List.getElem?_replicate, if_pos hin]
    rfl

/-- The output gate scales every entry, the same for all ranges. -/
theorem gateRow_getD {row c : List α} {k : Nat}
    (hc : c.length = asUsize cfg.nHeads * asUsize cfg.vHead) :
    (gateRow m (l.attnGate.map (·.dot row)) c).getD k 0
      = c.getD k 0 * ((l.attnGate.map (·.dot row)).map fun gs =>
          m.sigmoid (gs.getD k 0)).getD 1 := by
  cases hg : l.attnGate with
  | none => exact (mul_one _).symm
  | some g =>
    have hglen : (g.dot row).length = c.length := by rw [g.dot_length, l.gate_o g hg, hc]
    show (List.zipWith _ c (g.dot row)).getD k 0 = c.getD k 0 * m.sigmoid ((g.dot row).getD k 0)
    by_cases hk : k < c.length
    · rw [List.getD_eq_getElem _ _ (by rw [List.length_zipWith, hglen, Nat.min_self]; exact hk),
        List.getElem_zipWith, List.getD_eq_getElem _ _ hk,
        List.getD_eq_getElem _ _ (by rw [hglen]; exact hk)]
    · rw [List.getD_eq_default _ _ (by rw [List.length_zipWith, hglen, Nat.min_self]; omega),
        List.getD_eq_default _ _ (by omega), zero_mul]

/-- Over the nodes, a head's entry is counted once. -/
theorem sum_covers {hh : Nat} (hn : numNodes ≠ 0) (hlt : hh < nHeads) (v : α) :
    ∑ n ∈ Finset.range numNodes, (if (slice numNodes nHeads n).Covers hh then v else 0) = v := by
  obtain ⟨n, hn', hcov, huniq⟩ := covers_unique hn hlt
  rw [Finset.sum_eq_single n]
  · rw [slice, dif_pos hn', if_pos hcov]
  · intro n' hmem hne
    have hn'' := Finset.mem_range.mp hmem
    rw [slice, dif_pos hn'', if_neg fun hcov' => hne (huniq n' hn'' hcov')]
  · exact fun hnot => absurd (Finset.mem_range.mpr hn') hnot

/-- **A token's partial outputs add up to its output.** -/
theorem sum_outRow {st0 j : Nat} (hn : numNodes ≠ 0) (row qrow : List α)
    (jjs : List Nat) (hj : j < asUsize cfg.hidden) :
    ∑ n ∈ Finset.range numNodes, (outRow m cfg l row
        (queryContext m cfg l layer kv st0 (slice numNodes (asUsize cfg.nHeads) n) qrow
          jjs)).getD j 0
      = (outRow m cfg l row (queryContext m cfg l layer kv st0 (HeadRange.full _) qrow
          jjs)).getD j 0 := by
  have hout : ∀ hr : HeadRange (asUsize cfg.nHeads),
      (outRow m cfg l row (queryContext m cfg l layer kv st0 hr qrow jjs)).getD j 0
        = l.oRows.row j fun k => (gateRow m (l.attnGate.map (·.dot row))
            (queryContext m cfg l layer kv st0 hr qrow jjs)).getD k 0 := fun hr => by
    unfold outRow
    rw [l.o_eq, dot_getD (by rw [l.o_o]; exact hj)]
  simp only [hout, RowTensor.row]
  rw [Finset.sum_comm]
  refine Finset.sum_congr rfl fun k hk => ?_
  have hk' : k < asUsize cfg.nHeads * asUsize cfg.vHead := by
    rw [← l.o_i]
    exact Finset.mem_range.mp hk
  have hvh : 0 < asUsize cfg.vHead := Nat.pos_of_ne_zero fun h0 => by
    rw [h0, Nat.mul_zero] at hk'
    exact absurd hk' (Nat.not_lt_zero k)
  rw [← Finset.mul_sum]
  congr 1
  simp only [gateRow_getD length_queryContext]
  rw [← Finset.sum_mul]
  congr 1
  rw [Finset.sum_congr rfl fun n _ => queryContext_getD _ hk']
  exact sum_covers hn ((Nat.div_lt_iff_lt_mul hvh).mpr hk') _

end

end Colibri.Attention.Heads
