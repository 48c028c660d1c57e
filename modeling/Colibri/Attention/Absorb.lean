import Mathlib.Algebra.BigOperators.Group.Finset.Sigma
import Mathlib.Tactic.Ring
import Colibri.Attention.Heads

/-!
# The two cores agree

`reconstruct_core` multiplies every cached latent by `kv_b` and attends over what comes out.
`absorb_core` folds the rows of `kv_b` into the query, attends over the latents themselves, and
multiplies their weighted sum by `kv_b` at the end. The two reach a head's context through the same
double sum, over the tokens attended to and over the entries of a latent: reconstruction takes the
sum over a latent first (`reconstructed`), absorption takes it last.

* `absorbedQuery_score` exchanges the sums in a score, and `absorbedValue` in a value.
* `absorbHead_eq`: so a head of the absorbing core is the head's context as `kv_b` reconstructs it.
  The rope part of a score, the tokens a query sees and the softmax are the same in both.
* `absorb_reconstruct` is the result: for every range of heads the reconstructing core returns what
  the absorbing one does, with the columns of the other heads set to zero, and where one of the
  two panics the other does.

A `matvec` over a stretch of rows panics past the end of the tensor, and a key past the cache is no
key; `absorbHead_none` is that case.
-/

namespace Colibri.Attention.Heads

open Colibri.Moe Colibri.Cluster Colibri.Blocks Colibri.Vectors

variable {α S : Type} [Field α] [LinearOrder α]

section Rows

omit [LinearOrder α]

/-- Row `r` of a tensor times a vector. -/
def RowTensor.row (w : RowTensor α) (r : Nat) (v : Nat → α) : α :=
  ∑ c ∈ Finset.range w.i, w.code r c * w.factor r * v c

theorem dot_getD {w : RowTensor α} {x : List α} {r : Nat} (hr : r < w.o) :
    (w.toQTensor.dot x).getD r 0 = w.row r fun c => x.getD c 0 := by
  show (tab w.o _).getD r 0 = _
  rw [getD_tab hr]
  show (∑ k ∈ Finset.range w.i, w.code r k * x.getD k 0) * w.factor r = _
  rw [RowTensor.row, Finset.sum_mul]
  exact Finset.sum_congr rfl fun k _ => by ring

theorem addInto_tab (n : Nat) (f g : Nat → α) :
    addInto (tab n f) (tab n g) = tab n fun i => f i + g i := by
  rw [addInto_eq (by rw [length_tab, length_tab])]
  refine List.ext_getElem (by simp) fun i h₁ h₂ => ?_
  have hi : i < n := by simpa using h₂
  rw [List.getElem_mapIdx, getD_tab hi]
  simp [tab]

theorem replicate_tab (n : Nat) : List.replicate n (0 : α) = tab n fun _ => 0 := by
  rw [tab, List.map_const', List.length_range]

theorem dotF32_tab (n : Nat) (f g : Nat → α) :
    dotF32 (tab n f) (tab n g) = ∑ i ∈ Finset.range n, f i * g i := by
  rw [dotF32, zipWith_tab, sum_tab]

/-- The key half of the absorption: rows of the tensor, each times an entry of the query. -/
theorem addRows {w : RowTensor α} {rbase : Nat} {head : Nat → α} {n : Nat}
    (h : rbase + n ≤ w.o) :
    (List.range n).foldlM (fun acc d => w.addRow (rbase + d) (head d) acc)
        (List.replicate w.i 0)
      = some (tab w.i fun c =>
          ∑ d ∈ Finset.range n, head d * (w.code (rbase + d) c * w.factor (rbase + d))) := by
  induction n with
  | zero =>
    rw [replicate_tab]
    rfl
  | succ n ih =>
    have hrow : rbase + n < w.o := by omega
    rw [List.range_succ, List.foldlM_append, ih (by omega)]
    simp only [Option.bind_eq_bind, Option.bind_some, List.foldlM_cons, List.foldlM_nil,
      Option.pure_def, Option.bind_fun_some]
    rw [RowTensor.addRow, RowTensor.rowDequant, if_pos hrow]
    show some (addInto (tab w.i _) ((tab w.i _).map _)) = _
    rw [map_tab, addInto_tab]
    congr 1
    exact tab_congr fun c _ => by rw [Finset.sum_range_succ]; rfl

/-- The value half: every row of the stretch times the vector. -/
theorem matvecRows_eq {w : RowTensor α} {row0 n : Nat} {v : Nat → α} (h : row0 + n ≤ w.o) :
    w.matvecRows row0 n (tab w.i v) = some (tab n fun d => w.row (row0 + d) v) := by
  refine mapM_eq_map fun d hd => ?_
  have hrow : row0 + d < w.o := by
    have := List.mem_range.mp hd
    omega
  rw [RowTensor.rowDequant, if_pos hrow]
  show some (dotF32 (tab w.i _) (tab w.i v)) = _
  rw [dotF32_tab]
  rfl

/-- **A score through the absorbed query** is the score against the reconstructed key. -/
theorem absorbedQuery_score (w : RowTensor α) (rbase n : Nat) (head lt : Nat → α) :
    (∑ c ∈ Finset.range w.i, (∑ d ∈ Finset.range n,
        head d * (w.code (rbase + d) c * w.factor (rbase + d))) * lt c)
      = ∑ d ∈ Finset.range n, head d * w.row (rbase + d) lt := by
  simp only [Finset.sum_mul, RowTensor.row, Finset.mul_sum]
  rw [Finset.sum_comm]
  refine Finset.sum_congr rfl fun d _ => Finset.sum_congr rfl fun c _ => ?_
  ring

/-- The weighted sum of latents, as a loop over the tokens makes it. -/
theorem foldl_latents (n : Nat) (ajs : List (α × Nat)) (lat : Nat → List α)
    (hlat : ∀ jj, (lat jj).length = n) (f : Nat → α) :
    ajs.foldl (fun acc aj => addInto acc ((lat aj.2).map (aj.1 * ·))) (tab n f)
      = tab n fun c => f c + (ajs.map fun aj => aj.1 * (lat aj.2).getD c 0).sum := by
  induction ajs generalizing f with
  | nil => simp
  | cons aj ajs ih =>
    have hrow : (lat aj.2).map (aj.1 * ·) = tab n fun c => aj.1 * (lat aj.2).getD c 0 := by
      conv_lhs => rw [eq_tab (hlat aj.2) 0, map_tab]
      rfl
    rw [List.foldl_cons, hrow, addInto_tab, ih]
    refine tab_congr fun c _ => ?_
    rw [List.map_cons, List.sum_cons, add_assoc]

/-- **A value of the sum of latents** is the sum of the reconstructed values. -/
theorem absorbedValue (w : RowTensor α) (r : Nat) (ajs : List (α × Nat))
    (lat : Nat → Nat → α) :
    w.row r (fun c => (ajs.map fun aj => aj.1 * lat aj.2 c).sum)
      = (ajs.map fun aj => aj.1 * w.row r (lat aj.2)).sum := by
  induction ajs with
  | nil => simp [RowTensor.row]
  | cons aj ajs ih =>
    simp only [List.map_cons, List.sum_cons, ← ih]
    simp only [RowTensor.row, mul_add, Finset.sum_add_distrib, Finset.mul_sum]
    congr 1
    exact Finset.sum_congr rfl fun c _ => by ring

theorem getD_take_drop {x : List α} {a n i : Nat} (hi : i < n) :
    ((x.drop a).take n).getD i 0 = x.getD (a + i) 0 := by
  rw [List.getD_eq_getElem?_getD, List.getD_eq_getElem?_getD, List.getElem?_take_of_lt hi,
    List.getElem?_drop]

end Rows

omit [LinearOrder α]

variable {m : RowMath α} {cfg : StackConfig α} {l : HeadWeights cfg} {layer : Nat}
  {kv : KvCache α S}

theorem head_rows_le {hh : Nat} (hhh : hh < asUsize cfg.nHeads) :
    hh * (asUsize cfg.qkNope + asUsize cfg.vHead)
        + (asUsize cfg.qkNope + asUsize cfg.vHead) ≤ l.kvBRows.o := by
  rw [l.kvB_o, ← Nat.succ_mul]
  exact Nat.mul_le_mul_right _ hhh

/-- **A head of the absorbing core** is the head's context over all tokens up to its own,
as `kv_b` reconstructs them. -/
theorem absorbHead_eq (hkv : Shaped (asUsize cfg.kvLora) kv) {hh pos st0 : Nat}
    (hhh : hh < asUsize cfg.nHeads) (hst : st0 ≤ pos + 1) (hmax : pos < kv.maxT)
    (qrow : List α) :
    absorbHead m cfg l.kvBRows layer kv qrow pos st0 hh
      = some (headContext m cfg (fun jj => l.kvB.dot (kv.latent layer (st0 + jj)))
          (fun jj => kv.kRot layer (st0 + jj)) qrow hh (List.range (pos + 1 - st0))) := by
  have hrows := head_rows_le (l := l) hhh
  have hlat : ∀ jj, (kv.latent layer (st0 + jj)).length = l.kvBRows.i := fun jj => by
    rw [l.kvB_i]
    exact hkv layer (st0 + jj)
  -- an entry of a reconstructed row is a row of the tensor times the latent
  have hdot : ∀ jj r, r < l.kvBRows.o → (l.kvB.dot (kv.latent layer (st0 + jj))).getD r 0
      = l.kvBRows.row r fun c => (kv.latent layer (st0 + jj)).getD c 0 := fun jj r hr => by
    rw [l.kvB_eq, dot_getD hr]
  -- so a score through the absorbed query is the one against the reconstructed key
  have hscore : ∀ jj, (∑ c ∈ Finset.range l.kvBRows.i,
      (tab l.kvBRows.i fun c => ∑ d ∈ Finset.range (asUsize cfg.qkNope),
        (rowOf (asUsize cfg.qkHead) qrow hh).getD d 0
          * (l.kvBRows.code (hh * (asUsize cfg.qkNope + asUsize cfg.vHead) + d) c
            * l.kvBRows.factor (hh * (asUsize cfg.qkNope + asUsize cfg.vHead) + d))).getD c 0
        * (kv.latent layer (st0 + jj)).getD c 0)
      = ∑ d ∈ Finset.range (asUsize cfg.qkNope), (rowOf (asUsize cfg.qkHead) qrow hh).getD d 0
          * (((l.kvB.dot (kv.latent layer (st0 + jj))).drop
              (hh * (asUsize cfg.qkNope + asUsize cfg.vHead))).take
                (asUsize cfg.qkNope)).getD d 0 := fun jj => by
    rw [Finset.sum_congr rfl fun c hc => by rw [getD_tab (Finset.mem_range.mp hc)],
      absorbedQuery_score]
    refine Finset.sum_congr rfl fun d hd => ?_
    rw [getD_take_drop (Finset.mem_range.mp hd),
      hdot jj _ (by have := Finset.mem_range.mp hd; omega)]
  have hguard : ¬ (pos + 1 < st0 ∨ kv.maxT ≤ pos) := by omega
  simp only [absorbHead, ← l.kvB_i, Option.bind_eq_bind]
  rw [addRows (by omega), Option.bind_some, if_neg hguard, replicate_tab,
    foldl_latents l.kvBRows.i _ (fun jj => kv.latent layer (st0 + jj)) hlat]
  rw [matvecRows_eq (by omega)]
  congr 1
  unfold headContext
  refine tab_congr fun i hi => ?_
  have hvalue := fun jj =>
    hdot jj (hh * (asUsize cfg.qkNope + asUsize cfg.vHead) + asUsize cfg.qkNope + i) (by omega)
  simp only [zero_add, hvalue]
  rw [absorbedValue l.kvBRows _ _ fun jj c => (kv.latent layer (st0 + jj)).getD c 0]
  simp only [← sum_tab, tab] at hscore ⊢
  simp only [hscore]

theorem absorbHead_none {hh pos st0 : Nat} (hhh : hh < asUsize cfg.nHeads)
    (h : pos + 1 < st0 ∨ kv.maxT ≤ pos) (qrow : List α) :
    absorbHead m cfg l.kvBRows layer kv qrow pos st0 hh = none := by
  have hrows := head_rows_le (l := l) hhh
  simp only [absorbHead, ← l.kvB_i, Option.bind_eq_bind]
  rw [addRows (by omega), Option.bind_some, if_pos h]

/-- All heads of a query, by the absorbing core. -/
theorem absorbRow_eq (hkv : Shaped (asUsize cfg.kvLora) kv) {pos st0 : Nat}
    (hst : st0 ≤ pos + 1) (hmax : pos < kv.maxT) (qrow : List α) :
    ((List.range (asUsize cfg.nHeads)).mapM fun hh =>
        absorbHead m cfg l.kvBRows layer kv qrow pos st0 hh).map List.flatten
      = some (queryContext m cfg l layer kv st0 (HeadRange.full _) qrow
          (List.range (pos + 1 - st0))) := by
  rw [mapM_eq_map fun hh hmem =>
    absorbHead_eq (l := l) (m := m) hkv (List.mem_range.mp hmem) hst hmax qrow]
  show some _ = some _
  congr 1
  unfold queryContext blocks
  refine congrArg List.flatten (List.map_congr_left fun hh hmem => ?_)
  exact (if_pos (HeadRange.full_covers (List.mem_range.mp hmem))).symm

/-- Masking what all heads give leaves what the heads of the range give. -/
theorem maskHeads_queryContext {hr : HeadRange (asUsize cfg.nHeads)} {st0 : Nat}
    {qrow : List α} {jjs : List Nat} :
    maskHeads hr (asUsize cfg.vHead)
        (queryContext m cfg l layer kv st0 (HeadRange.full _) qrow jjs)
      = queryContext m cfg l layer kv st0 hr qrow jjs := by
  unfold maskHeads
  have hlen : ∀ i, i < asUsize cfg.nHeads →
      (if (HeadRange.full (asUsize cfg.nHeads)).Covers i then
        headContext m cfg (fun jj => l.kvB.dot (kv.latent layer (st0 + jj)))
          (fun jj => kv.kRot layer (st0 + jj)) qrow i jjs
      else List.replicate (asUsize cfg.vHead) 0).length = asUsize cfg.vHead := fun i hi => by
    rw [if_pos (HeadRange.full_covers hi), length_headContext]
  unfold queryContext
  refine congrArg List.flatten (List.map_congr_left fun hh hmem => ?_)
  have hhh := List.mem_range.mp hmem
  split
  · rw [rowOf, chunk_blocks hlen hhh, if_pos (HeadRange.full_covers hhh)]
  · rfl

/-- **The two cores agree**: for every range of heads, reconstruction gives the context of
absorption with the other heads' columns zero; where one panics, so does the other. -/
theorem absorb_reconstruct (hkv : Shaped (asUsize cfg.kvLora) kv) {q : List (List α)}
    {posBase st0 : Nat} (hr : HeadRange (asUsize cfg.nHeads))
    (h : (q ≠ [] ∧ asUsize cfg.nHeads ≠ 0) ∨
      (st0 ≤ posBase ∧ posBase + q.length ≤ kv.maxT)) :
    reconstructCore m cfg l layer kv q posBase st0 none hr
      = (absorbCore m cfg l layer kv q posBase st0).map
          (·.map (maskHeads hr (asUsize cfg.vHead))) := by
  by_cases hin : (q ≠ [] → st0 ≤ posBase + 1) ∧ st0 ≤ posBase + q.length ∧
      posBase + q.length ≤ kv.maxT
  · obtain ⟨hst, htk, hmax⟩ := hin
    have habs : absorbCore m cfg l layer kv q posBase st0 = some (q.zipIdx.map fun p =>
        queryContext m cfg l layer kv st0 (HeadRange.full _) p.1
          (List.range (posBase + p.2 + 1 - st0))) := by
      refine mapM_eq_map fun p hp => ?_
      have hs := (List.mem_zipIdx hp).2.1
      have hne : q ≠ [] := fun hnil => by
        rw [hnil] at hs
        exact absurd hs (Nat.not_lt_zero _)
      have := hst hne
      exact absorbRow_eq hkv (by omega) (by omega) p.1
    rw [reconstructCore_eq hkv htk hmax, habs]
    have hrec : ∀ p ∈ q.zipIdx, (keysOf none hr.count p.2 posBase st0 (posBase + q.length)).map
        (queryContext m cfg l layer kv st0 hr p.1)
        = some (queryContext m cfg l layer kv st0 hr p.1
            (List.range (posBase + p.2 + 1 - st0))) := fun p hp => by
      have hs := (List.mem_zipIdx hp).2.1
      have hne : q ≠ [] := fun hnil => by
        rw [hnil] at hs
        exact absurd hs (Nat.not_lt_zero _)
      have := hst hne
      rw [keysOf, denseKeys, if_neg (by omega)]
      rfl
    rw [mapM_eq_map hrec, Option.map_some, List.map_map]
    congr 1
    exact List.map_congr_left fun p _ => maskHeads_queryContext.symm
  · -- some token is out of the cache: both cores panic on it
    have hbad : q ≠ [] ∧ asUsize cfg.nHeads ≠ 0 ∧
        (posBase + 1 < st0 ∨ kv.maxT < posBase + q.length) := by
      rcases h with ⟨hne, hheads⟩ | ⟨hst, hmax⟩
      · refine ⟨hne, hheads, ?_⟩
        have := List.length_pos_of_ne_nil hne
        by_contra hcon
        push Not at hcon
        exact hin ⟨fun _ => by omega, by omega, by omega⟩
      · exact absurd ⟨fun _ => by omega, by omega, hmax⟩ hin
    obtain ⟨hne, hheads, hout⟩ := hbad
    have hpos := List.length_pos_of_ne_nil hne
    have habs : absorbCore m cfg l layer kv q posBase st0 = none := by
      obtain ⟨s, hs, hsout⟩ :
          ∃ s < q.length, posBase + s + 1 < st0 ∨ kv.maxT ≤ posBase + s := by
        rcases hout with hlow | hhigh
        · exact ⟨0, hpos, Or.inl hlow⟩
        · exact ⟨q.length - 1, by omega, Or.inr (by omega)⟩
      refine mapM_eq_none (a := (q[s], s)) (List.mk_mem_zipIdx_iff_getElem?.mpr ?_) ?_
      · exact List.getElem?_eq_getElem hs
      · show Option.map _ _ = none
        rw [mapM_eq_none (List.mem_range.mpr (Nat.pos_of_ne_zero hheads))
          (absorbHead_none (Nat.pos_of_ne_zero hheads) hsout _)]
        rfl
    rw [habs, Option.map_none]
    by_cases hguard : posBase + q.length < st0 ∨ kv.maxT < posBase + q.length
    · simp only [reconstructCore, if_pos hguard]
    · push Not at hguard
      rw [reconstructCore_eq hkv hguard.1 hguard.2]
      refine mapM_eq_none (a := (q[0], 0)) (List.mk_mem_zipIdx_iff_getElem?.mpr ?_) ?_
      · exact List.getElem?_eq_getElem hpos
      · show Option.map _ _ = none
        rw [keysOf, denseKeys, if_pos (by omega)]
        rfl

/-- Rows that are all different. -/
def countedCache : KvCache ℚ Unit :=
  ⟨8, fun _ => 0, fun _ p => [(p : ℚ) + 1], fun _ p => [2 * (p : ℚ) + 1], ()⟩

theorem countedCache_shaped : Shaped (asUsize twoHeads.kvLora) countedCache := fun _ _ => rfl

/-- Two queries at the position 2, the second head of each. -/
theorem absorb_reconstruct_second_head :
    reconstructCore evenMath twoHeads (onesWeights twoHeads) 0 countedCache
        [[1, 2, 0, 1], [3, 0, 1, 2]] 2 0 none ⟨1, 1, Nat.le_refl 2⟩
      = (absorbCore evenMath twoHeads (onesWeights twoHeads) 0 countedCache
          [[1, 2, 0, 1], [3, 0, 1, 2]] 2 0).map
          (·.map (maskHeads (n := asUsize twoHeads.nHeads) ⟨1, 1, Nat.le_refl 2⟩
            (asUsize twoHeads.vHead))) :=
  absorb_reconstruct countedCache_shaped ⟨1, 1, Nat.le_refl 2⟩
    (Or.inr ⟨Nat.zero_le 2, (by decide : 2 + 2 ≤ 8)⟩)

end Colibri.Attention.Heads
