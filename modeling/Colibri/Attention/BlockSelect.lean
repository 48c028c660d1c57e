import Colibri.Attention.Gqa
import Colibri.Lib.InPlace

/-!
# The blocks a query attends to

`m3_block_select` gives a block of keys the highest score of a key in it, puts the local blocks,
which end with the query's own, above all others, and keeps the `topk` best by `topk_blocks`.

* `scores_spec` is what `topk_blocks` gets for the query at a position: the local blocks are above
  all others, and every other block has the best score of its keys that are not behind the query.
* `keeps_of_selects`: where no more blocks are local than are kept, all local ones are kept, and
  the best of the others beside them (`Keeps`). Where more are, the lowest of the local ones are
  kept and the query's own, the highest, is lost (`own_not_mem`).
* `m3_blocks_iff` is the result for a whole prompt. The condition is that no more blocks are local
  than are kept, and that the id of the last block fits in the 32 bits it is stored in.
* `own_block_lost` is a prompt of two tokens with two local blocks, of which one is kept.

A score is a number, or below or above all of them: `WithTop (WithBot α)`. Scores are taken to be
exact; in `f32` two keys may come out equal that are not.
-/

namespace Colibri.Attention.Sparse

open Colibri.Moe Colibri.InPlace Colibri.Blocks

/-! ## The best blocks -/

/-- `topk_blocks`: a block's id is stored in 32 bits. -/
def topkBlocks {κ : Type} [LinearOrder κ] [OrderBot κ] (scores : List κ) (keep : Nat) :
    List Nat :=
  let n := scores.length
  let keep := min keep n
  let idx := (List.range n).mergeSort (TopK.better (scores.getD · ⊥))
  ((idx.take keep).map (· % 2 ^ 32)).mergeSort fun a b => decide (a ≤ b)

/-- What it keeps, where all ids fit. -/
theorem selects_topkBlocks {κ : Type} [LinearOrder κ] [OrderBot κ] {scores : List κ}
    (hsmall : scores.length ≤ 2 ^ 32) (keep : Nat) :
    (topkBlocks scores keep).Pairwise (· < ·) ∧
      TopK.Selects (scores.getD · ⊥) scores.length keep (topkBlocks scores keep) := by
  have htake := TopK.selects_take (scores.getD · ⊥) scores.length keep
  have hmin : ((List.range scores.length).mergeSort (TopK.better (scores.getD · ⊥))).take
      (min keep scores.length)
      = ((List.range scores.length).mergeSort (TopK.better (scores.getD · ⊥))).take keep := by
    rw [List.take_eq_take_iff, List.length_mergeSort, List.length_range]
    omega
  unfold topkBlocks
  dsimp only
  rw [hmin]
  generalize ((List.range scores.length).mergeSort _).take keep = best at htake ⊢
  have hid : best.map (· % 2 ^ 32) = best := by
    refine (List.map_congr_left fun b hb => ?_).trans (List.map_id _)
    have hlt := ((htake.mem_iff b).mp hb).1
    exact Nat.mod_eq_of_lt (by omega)
  rw [hid]
  have hsel := htake.perm (List.mergeSort_perm best fun a b => decide (a ≤ b)).symm
  refine ⟨?_, hsel⟩
  exact (TopK.pairwise_sort_le best).imp₂ (fun a b hle hne => Nat.lt_of_le_of_ne hle hne) hsel.nodup

theorem topkBlocks_lt {κ : Type} [LinearOrder κ] [OrderBot κ] {scores : List κ} {keep : Nat} :
    ∀ b ∈ topkBlocks scores keep, b < 2 ^ 32 := by
  intro b hb
  obtain ⟨b', -, rfl⟩ := List.mem_map.mp (List.mem_mergeSort.mp hb)
  exact Nat.mod_lt _ (Nat.two_pow_pos 32)

/-! ## Scoring blocks -/

section

variable {α : Type} [LinearOrder α]

/-- A score that no block is forced to. -/
def free (a : WithBot α) : WithTop (WithBot α) := a

/-- The loop over the keys: each block's highest score so far. -/
def poolKeys (bs : Nat) (dot : Nat → α) (tk nb : Nat) : List (WithTop (WithBot α)) :=
  (List.range tk).foldl (fun bscore t =>
    if bscore.getD (t / bs) ⊥ < free (dot t) then bscore.set (t / bs) (free (dot t)) else bscore)
    (List.replicate nb ⊥)

/-- The loop over the local blocks, which end with the query's own. -/
def forceLocal (local_ qBlock : Nat) (bscore : List (WithTop (WithBot α))) :
    List (WithTop (WithBot α)) :=
  (List.range local_).foldl (fun bscore lb => bscore.set (qBlock - lb) ⊤) bscore

/-- The highest score of the first `tk` keys in a block. -/
def blockMax (dot : Nat → α) (bs tk b : Nat) : WithBot α :=
  ((Finset.range tk).filter fun t => t / bs = b).sup fun t => (dot t : WithBot α)

theorem blockMax_succ (dot : Nat → α) (bs tk b : Nat) : blockMax dot bs (tk + 1) b
    = if tk / bs = b then (dot tk : WithBot α) ⊔ blockMax dot bs tk b else blockMax dot bs tk b := by
  rw [blockMax, Finset.range_add_one, Finset.filter_insert]
  split
  · rw [Finset.sup_insert, blockMax]
  · rfl

/-- What the loop over the keys leaves for each block: the best score of a key in it. -/
theorem poolKeys_spec (bs : Nat) (dot : Nat → α) (tk nb : Nat) :
    (poolKeys bs dot tk nb).length = nb ∧
      ∀ b < nb, (poolKeys bs dot tk nb).getD b ⊥ = free (blockMax dot bs tk b) := by
  induction tk with
  | zero =>
    refine ⟨List.length_replicate, fun b hb => ?_⟩
    show (List.replicate nb ⊥).getD b ⊥ = _
    rw [List.getD_eq_getElem _ _ (by rw [List.length_replicate]; exact hb),
      List.getElem_replicate]
    rfl
  | succ tk ih =>
    obtain ⟨hlen, hval⟩ := ih
    have hstep : poolKeys bs dot (tk + 1) nb
        = if (poolKeys bs dot tk nb).getD (tk / bs) ⊥ < free (dot tk)
          then (poolKeys bs dot tk nb).set (tk / bs) (free (dot tk))
          else poolKeys bs dot tk nb := by
      rw [poolKeys, List.range_succ, List.foldl_append]
      rfl
    rw [hstep]
    refine ⟨by split <;> simp only [List.length_set, hlen], fun b hb => ?_⟩
    rw [blockMax_succ]
    by_cases hin : tk / bs = b
    · subst hin
      rw [if_pos rfl, hval _ hb]
      -- the block of the new key: the higher of the two
      split
      next hlt =>
        rw [List.getD_eq_getElem _ _ (by rw [List.length_set, hlen]; exact hb),
          List.getElem_set_self]
        have hle := le_of_lt (WithTop.coe_lt_coe.mp hlt)
        rw [sup_eq_left.mpr hle]
      next hge =>
        rw [hval _ hb]
        have hle := WithTop.coe_le_coe.mp (not_lt.mp hge)
        rw [sup_eq_right.mpr hle]
    · rw [if_neg hin, ← hval b hb]
      split
      · rw [List.getD_eq_getElem?_getD, List.getElem?_set_ne hin, ← List.getD_eq_getElem?_getD]
      · rfl

omit [LinearOrder α] in
/-- What the loop over the local blocks does: they are above all, the others as they were. -/
theorem forceLocal_spec (local_ qBlock : Nat) (bscore : List (WithTop (WithBot α)))
    (hlen : bscore.length = qBlock + 1) :
    (forceLocal local_ qBlock bscore).length = qBlock + 1 ∧ ∀ b ≤ qBlock,
      (forceLocal local_ qBlock bscore).getD b ⊥
        = if qBlock < b + local_ then ⊤ else bscore.getD b ⊥ := by
  induction local_ with
  | zero =>
    refine ⟨hlen, fun b hb => ?_⟩
    rw [if_neg (by omega)]
    rfl
  | succ m ih =>
    obtain ⟨hlen', hval⟩ := ih
    have hstep : forceLocal (m + 1) qBlock bscore
        = (forceLocal m qBlock bscore).set (qBlock - m) ⊤ := by
      rw [forceLocal, List.range_succ, List.foldl_append]
      rfl
    rw [hstep]
    refine ⟨by rw [List.length_set, hlen'], fun b hb => ?_⟩
    by_cases hnew : qBlock - m = b
    · rw [if_pos (by omega), List.getD_eq_getElem _ _ (by rw [List.length_set]; omega)]
      subst hnew
      exact List.getElem_set_self _
    · rw [List.getD_eq_getElem?_getD, List.getElem?_set_ne hnew, ← List.getD_eq_getElem?_getD,
        hval b hb]
      by_cases hin : qBlock < b + m
      · rw [if_pos hin, if_pos (by omega)]
      · rw [if_neg hin, if_neg (by omega)]

/-- The scores `topk_blocks` gets for the query at `pos`: its local blocks are above all. -/
theorem scores_spec (bs local_ pos : Nat) (dot : Nat → α) :
    (forceLocal local_ (pos / bs) (poolKeys bs dot (pos + 1) (pos / bs + 1))).length
        = pos / bs + 1 ∧
      ∀ b ≤ pos / bs,
        (forceLocal local_ (pos / bs) (poolKeys bs dot (pos + 1) (pos / bs + 1))).getD b ⊥
          = if pos / bs < b + local_ then ⊤ else free (blockMax dot bs (pos + 1) b) := by
  obtain ⟨hlen, hval⟩ := poolKeys_spec bs dot (pos + 1) (pos / bs + 1)
  obtain ⟨hlen', hval'⟩ := forceLocal_spec local_ (pos / bs) _ hlen
  refine ⟨hlen', fun b hb => ?_⟩
  rw [hval' b hb, hval b (by omega)]

/-! ## What a query keeps -/

/-- The blocks kept for the query at `pos`: as many as there are, up to `topk`; its own, and
the `local_` most recent where they are no more than `topk`; and for the rest those with the
highest key score, of equal ones the first. -/
structure Keeps (dot : Nat → α) (bs topk local_ pos : Nat) (sel : List Nat) : Prop where
  ascending : sel.Pairwise (· < ·)
  length_eq : sel.length = min topk (pos / bs + 1)
  starts : ∀ b ∈ sel, b * bs ≤ pos
  own : pos / bs ∈ sel
  recent : local_ ≤ topk → ∀ lb < local_, pos / bs - lb ∈ sel
  rest : ∀ b ∈ sel, b + local_ ≤ pos / bs → ∀ u ≤ pos / bs, u ∉ sel →
    TopK.better (blockMax dot bs (pos + 1)) b u = true

section

variable {dot : Nat → α} {bs topk local_ pos : Nat} {score : Nat → WithTop (WithBot α)}
  {sel : List Nat}

/-- Where no more blocks are local than are kept, all local ones are. -/
theorem local_mem (hscore : ∀ b ≤ pos / bs, score b
      = if pos / bs < b + local_ then ⊤ else free (blockMax dot bs (pos + 1) b))
    (hsel : TopK.Selects score (pos / bs + 1) topk sel) (hfew : min local_ (pos / bs + 1) ≤ topk)
    {b : Nat} (hb : b ≤ pos / bs) (hlocal : pos / bs < b + local_) : b ∈ sel := by
  by_contra hnot
  -- what is kept instead would all be local
  have hsub : sel ⊆ (List.range' (pos / bs + 1 - local_) (min local_ (pos / bs + 1))).erase b := by
    intro t ht
    have htn := ((hsel.mem_iff t).mp ht).1
    have hne : t ≠ b := by
      rintro rfl
      exact hnot ht
    rw [List.Nodup.mem_erase_iff List.nodup_range', List.mem_range'_1]
    refine ⟨hne, ?_⟩
    have hbeat := TopK.better_iff.mp (hsel.beats ht (by omega) hnot)
    rw [hscore b hb, if_pos hlocal, hscore t (by omega)] at hbeat
    have htop : pos / bs < t + local_ := by
      by_contra hfree
      rw [if_neg hfree] at hbeat
      rcases hbeat with hlt | ⟨heq, -⟩
      · exact absurd hlt not_top_lt
      · exact WithTop.coe_ne_top heq
    omega
  have hle := (hsel.nodup.subperm hsub).length_le
  rw [List.length_erase_of_mem (List.mem_range'_1.mpr (by omega)), List.length_range',
    hsel.length_eq] at hle
  omega

/-- Where more blocks are local than are kept, the query's own is not. -/
theorem own_not_mem (hscore : ∀ b ≤ pos / bs, score b
      = if pos / bs < b + local_ then ⊤ else free (blockMax dot bs (pos + 1) b))
    (hsel : TopK.Selects score (pos / bs + 1) topk sel) (hmany : topk < min local_ (pos / bs + 1)) :
    pos / bs ∉ sel := by
  intro hown
  have hrank := ((hsel.mem_iff _).mp hown).2
  -- the other local blocks are as high and come before it
  have hsub : List.range' (pos / bs + 1 - local_) (min local_ (pos / bs + 1) - 1)
      ⊆ (List.range (pos / bs + 1)).filter
        fun u => TopK.better score u (pos / bs) && decide (u ≠ pos / bs) := by
    intro u hu
    have hu' := List.mem_range'_1.mp hu
    rw [List.mem_filter, List.mem_range, Bool.and_eq_true, decide_eq_true_eq, TopK.better_iff,
      hscore u (by omega), hscore _ (Nat.le_refl _), if_pos (by omega), if_pos (by omega)]
    exact ⟨by omega, Or.inr ⟨rfl, by omega⟩, by omega⟩
  have hle := (List.Nodup.subperm List.nodup_range' hsub).length_le
  rw [List.length_range', ← List.countP_eq_length_filter] at hle
  have : min local_ (pos / bs + 1) - 1 ≤ TopK.rank score (pos / bs + 1) (pos / bs) := hle
  omega

/-- **The best blocks with the local ones forced in.** -/
theorem keeps_of_selects (hlocal : 0 < local_)
    (hscore : ∀ b ≤ pos / bs, score b
      = if pos / bs < b + local_ then ⊤ else free (blockMax dot bs (pos + 1) b))
    (hsel : TopK.Selects score (pos / bs + 1) topk sel) (hsorted : sel.Pairwise (· < ·))
    (hfew : min local_ (pos / bs + 1) ≤ topk) : Keeps dot bs topk local_ pos sel where
  ascending := hsorted
  length_eq := hsel.length_eq
  starts b hb := by
    have hlt := ((hsel.mem_iff b).mp hb).1
    have hle := Nat.mul_le_mul_right bs (Nat.le_of_lt_succ hlt)
    exact Nat.le_trans hle (Nat.div_mul_le_self pos bs)
  own := local_mem hscore hsel hfew (Nat.le_refl _) (by omega)
  recent _ lb hlb := by
    have hq := Nat.zero_le (pos / bs)
    exact local_mem hscore hsel hfew (Nat.sub_le _ _) (by omega)
  rest b hb hfree u hu hnot := by
    have hlt := ((hsel.mem_iff b).mp hb).1
    have hlow : ¬ pos / bs < u + local_ := fun hlocal' =>
      hnot (local_mem hscore hsel hfew hu hlocal')
    have hbeat := TopK.better_iff.mp (hsel.beats hb (by omega) hnot)
    rw [hscore b (by omega), hscore u hu, if_neg hlow, if_neg (by omega)] at hbeat
    rw [TopK.better_iff]
    rcases hbeat with hlt | ⟨heq, hle⟩
    · exact Or.inl (WithTop.coe_lt_coe.mp hlt)
    · exact Or.inr ⟨WithTop.coe_injective heq, hle⟩

end

end

/-! ## A prompt -/

/-- The functions of `math.rs` on a row. -/
structure RowOps (α : Type) where
  rmsnorm : List α → List α → α → List α
  ropeNeox : List α → Nat → Nat → α → List α
  rmsnorm_length : ∀ x w eps, (rmsnorm x w eps).length = x.length
  ropeNeox_length : ∀ v pos dim theta, (ropeNeox v pos dim theta).length = v.length

/-- What `m3_block_select` reads of the configuration. -/
structure Config (α : Type) where
  indexNh : Int
  indexHd : Int
  indexBlockSize : Int
  indexTopkBlocks : Int
  indexLocalBlocks : Int
  qkRope : Int
  eps : α
  theta : α

/-- The index tensors of a layer. -/
structure Layer (α : Type) where
  idxQProj : Option (QTensor α)
  idxKProj : Option (QTensor α)
  idxQNorm : List α
  idxKNorm : List α

section

variable {α : Type} [Field α] [LinearOrder α]

def Config.inh (cfg : Config α) : Nat := asUsize cfg.indexNh
def Config.ihd (cfg : Config α) : Nat := asUsize cfg.indexHd
def Config.bs (cfg : Config α) : Nat := max (asUsize cfg.indexBlockSize) 1
def Config.topk (cfg : Config α) : Nat := asUsize cfg.indexTopkBlocks
def Config.locals (cfg : Config α) : Nat := asUsize cfg.indexLocalBlocks
def Config.rot (cfg : Config α) : Nat := min (asUsize cfg.qkRope) cfg.ihd

/-- `rmsnorm_inplace` on a head, and `rope_neox` on its first entries. -/
def normRow (ops : RowOps α) (cfg : Config α) (norm : List α) (pos : Nat) (v : List α) :
    Option (List α) :=
  if v.length ≤ norm.length then
    within (ops.rmsnorm v norm cfg.eps) 0 cfg.rot fun q =>
      some (ops.ropeNeox q pos cfg.rot cfg.theta)
  else none

/-- The blocks of one query of one head. -/
def selectFor (cfg : Config α) (iq ik : List α) (g s pos : Nat) : Option (List Nat) := do
  let inh := cfg.inh
  let ihd := cfg.ihd
  let tk := pos + 1
  let nb := (tk + cfg.bs - 1) / cfg.bs
  let qv ← Gqa.readSlice iq (s * inh * ihd + g * ihd) ihd
  let dots ← (List.range tk).mapM fun t => do
    let kvec ← Gqa.readSlice ik (t * ihd) ihd
    some (List.zipWith (· * ·) qv kvec).sum
  let bscore := poolKeys cfg.bs (dots.getD · 0) tk nb
  let bscore := forceLocal cfg.locals (pos / cfg.bs) bscore
  some (topkBlocks bscore cfg.topk)

/-- `m3_block_select`. None inside is a layer that attends to all; a panic is none outside. -/
def m3BlockSelect (ops : RowOps α) (cfg : Config α) (m3Sparse : Bool) (l : Layer α) (x : List α)
    (sLen posBase : Nat) : Option (Option (List (List Nat))) :=
  if m3Sparse = false ∨ posBase ≠ 0 ∨ sLen ≤ 1 then some none
  else
    match l.idxQProj, l.idxKProj with
    | some qProj, some kProj =>
      let inh := cfg.inh
      let ihd := cfg.ihd
      if (sLen + cfg.bs - 1) / cfg.bs ≤ cfg.topk then some none
      else do
        let iq ← matmulQt (sLen * inh * ihd) x qProj sLen
        let ik ← matmulQt (sLen * ihd) x kProj sLen
        let (iq, ik) ← (List.range sLen).foldlM (fun (iqik : List α × List α) s =>
          let pos := posBase + s
          ((List.range inh).foldlM (fun iq g =>
              within iq (s * inh * ihd + g * ihd) ihd (normRow ops cfg l.idxQNorm pos))
            iqik.1).bind fun iq =>
          (within iqik.2 (s * ihd) ihd (normRow ops cfg l.idxKNorm pos)).map fun ik => (iq, ik))
          (iq, ik)
        let out ← (List.range inh).mapM fun g => (List.range sLen).mapM fun s =>
          selectFor cfg iq ik g s (posBase + s)
        some (some out.flatten)
    | _, _ => some none

/-! ### What the rows are -/

/-- A head after its norm and rotation. -/
def headAt (ops : RowOps α) (cfg : Config α) (norm : List α) (pos : Nat) (v : List α) : List α :=
  let q := ops.rmsnorm v norm cfg.eps
  ops.ropeNeox (q.take cfg.rot) pos cfg.rot cfg.theta ++ q.drop cfg.rot

/-- The score of a key by a query, each computed by itself. -/
def keyScore (ops : RowOps α) (cfg : Config α) (l : Layer α) (qProj kProj : QTensor α) (x : List α)
    (g s t : Nat) : α :=
  (List.zipWith (· * ·)
    (headAt ops cfg l.idxQNorm s (rowOf cfg.ihd (qProj.dot (rowOf qProj.i x s)) g))
    (headAt ops cfg l.idxKNorm t (kProj.dot (rowOf kProj.i x t)))).sum

/-- Tensors and rows that fit together. -/
structure Shaped (cfg : Config α) (l : Layer α) (qProj kProj : QTensor α) (x : List α)
    (sLen : Nat) : Prop where
  idxQProj : l.idxQProj = some qProj
  idxKProj : l.idxKProj = some kProj
  q_o : qProj.o = cfg.inh * cfg.ihd
  k_o : kProj.o = cfg.ihd
  q_length : x.length = sLen * qProj.i
  k_length : x.length = sLen * kProj.i
  qNorm : l.idxQNorm.length = cfg.ihd
  kNorm : l.idxKNorm.length = cfg.ihd

variable {ops : RowOps α} {cfg : Config α} {l : Layer α} {qProj kProj : QTensor α} {x : List α}
  {sLen : Nat}

omit [Field α] [LinearOrder α] in
theorem length_headAt (norm : List α) (pos : Nat) {v : List α} (hv : v.length = cfg.ihd) :
    (headAt ops cfg norm pos v).length = cfg.ihd := by
  have hrot : cfg.rot ≤ cfg.ihd := Nat.min_le_right _ _
  simp only [headAt, List.length_append, ops.ropeNeox_length, List.length_take, List.length_drop,
    ops.rmsnorm_length, hv]
  omega

omit [Field α] [LinearOrder α] in
theorem normRow_eq {norm : List α} (hnorm : norm.length = cfg.ihd) (pos : Nat) {v : List α}
    (hv : v.length = cfg.ihd) :
    normRow ops cfg norm pos v = some (headAt ops cfg norm pos v) := by
  have hrot : 0 + cfg.rot ≤ (ops.rmsnorm v norm cfg.eps).length := by
    rw [ops.rmsnorm_length, hv, Nat.zero_add]
    exact Nat.min_le_right _ _
  rw [normRow, if_pos (by rw [hv, hnorm]), within, if_pos hrot, Nat.zero_add]
  rfl

/-- The heads of the queries of a prompt. -/
def queriesOf (ops : RowOps α) (cfg : Config α) (l : Layer α) (qProj : QTensor α) (x : List α)
    (sLen : Nat) : List α :=
  blocks sLen fun s => blocks cfg.inh fun g =>
    headAt ops cfg l.idxQNorm s (rowOf cfg.ihd (qProj.dot (rowOf qProj.i x s)) g)

/-- Its keys. -/
def keysOf (ops : RowOps α) (cfg : Config α) (l : Layer α) (kProj : QTensor α) (x : List α)
    (sLen : Nat) : List α :=
  blocks sLen fun s => headAt ops cfg l.idxKNorm s (kProj.dot (rowOf kProj.i x s))

omit [Field α] [LinearOrder α] in
/-- The loop over the tokens norms and rotates every head and every key in its place. -/
theorem rows_eq (h : Shaped cfg l qProj kProj x sLen) :
    (List.range sLen).foldlM (fun (iqik : List α × List α) s =>
        ((List.range cfg.inh).foldlM (fun iq g =>
            within iq (s * cfg.inh * cfg.ihd + g * cfg.ihd) cfg.ihd
              (normRow ops cfg l.idxQNorm (0 + s))) iqik.1).bind fun iq =>
        (within iqik.2 (s * cfg.ihd) cfg.ihd (normRow ops cfg l.idxKNorm (0 + s))).map
          fun ik => (iq, ik))
        (byRow qProj.i qProj.dot x sLen, byRow kProj.i kProj.dot x sLen)
      = some (queriesOf ops cfg l qProj x sLen, keysOf ops cfg l kProj x sLen) := by
  have hq : (byRow qProj.i qProj.dot x sLen).length = sLen * (cfg.inh * cfg.ihd) := by
    rw [byRow_length qProj.dot_length, h.q_o]
  have hk : (byRow kProj.i kProj.dot x sLen).length = sLen * cfg.ihd := by
    rw [byRow_length kProj.dot_length, h.k_o]
  have hqueries : (List.range sLen).foldlM (fun iq s =>
      (List.range cfg.inh).foldlM (fun iq g =>
        within iq (s * cfg.inh * cfg.ihd + g * cfg.ihd) cfg.ihd
          (normRow ops cfg l.idxQNorm (0 + s))) iq) (byRow qProj.i qProj.dot x sLen)
      = some (queriesOf ops cfg l qProj x sLen) := by
    refine (foldlM_grid hq (g := fun s _ v => headAt ops cfg l.idxQNorm s v)
      (fun s _ g _ y hy => length_headAt _ _ hy) fun s _ g _ p y q hp hy => ?_).trans ?_
    · rw [Nat.mul_assoc, within_append hp hy, normRow_eq h.qNorm _ hy, Nat.zero_add]
      rfl
    · refine congrArg some (blocks_congr fun s hs => ?_)
      have hrow := rowOf_byRow (d := qProj.i) (x := x) qProj.dot_length hs
      rw [h.q_o] at hrow
      rw [← rowOf, hrow]
      rfl
  have hkeys : (List.range sLen).foldlM (fun ik s =>
      within ik (s * cfg.ihd) cfg.ihd (normRow ops cfg l.idxKNorm (0 + s)))
        (byRow kProj.i kProj.dot x sLen) = some (keysOf ops cfg l kProj x sLen) := by
    refine (foldlM_rows hk (g := fun s v => headAt ops cfg l.idxKNorm s v)
      (fun s _ y hy => length_headAt _ _ hy) fun s _ p y q hp hy => ?_).trans ?_
    · rw [within_append hp hy, normRow_eq h.kNorm _ hy, Nat.zero_add]
      rfl
    · refine congrArg some (blocks_congr fun s hs => ?_)
      have hrow := rowOf_byRow (d := kProj.i) (x := x) kProj.dot_length hs
      rw [h.k_o] at hrow
      rw [← rowOf, hrow]
  rw [foldlM_prod (fun iq s => (List.range cfg.inh).foldlM (fun iq g =>
      within iq (s * cfg.inh * cfg.ihd + g * cfg.ihd) cfg.ihd
        (normRow ops cfg l.idxQNorm (0 + s))) iq)
    fun ik s => within ik (s * cfg.ihd) cfg.ihd (normRow ops cfg l.idxKNorm (0 + s)),
    hqueries, hkeys]
  rfl

omit [Field α] in
theorem poolKeys_congr {bs tk nb : Nat} {dot dot' : Nat → α} (h : ∀ t < tk, dot t = dot' t) :
    poolKeys bs dot tk nb = poolKeys bs dot' tk nb :=
  List.foldl_ext _ _ _ fun bscore t ht => by rw [h t (List.mem_range.mp ht)]

/-- The blocks of a query, from its own key scores. -/
def selected (ops : RowOps α) (cfg : Config α) (l : Layer α) (qProj kProj : QTensor α)
    (x : List α) (g s : Nat) : List Nat :=
  topkBlocks (forceLocal cfg.locals (s / cfg.bs) (poolKeys cfg.bs
    (keyScore ops cfg l qProj kProj x g s) (s + 1) (s / cfg.bs + 1))) cfg.topk

/-- **A query is scored against its own keys**, each found in the batch. -/
theorem selectFor_eq (h : Shaped cfg l qProj kProj x sLen) {g s : Nat} (hg : g < cfg.inh)
    (hs : s < sLen) :
    selectFor cfg (queriesOf ops cfg l qProj x sLen) (keysOf ops cfg l kProj x sLen) g s (0 + s)
      = some (selected ops cfg l qProj kProj x g s) := by
  have hbs : 0 < cfg.bs := Nat.lt_of_lt_of_le Nat.one_pos (Nat.le_max_right _ _)
  have hnb : (s + 1 + cfg.bs - 1) / cfg.bs = s / cfg.bs + 1 := by
    rw [Nat.add_right_comm, Nat.add_sub_cancel, Nat.add_div_right _ hbs]
  have hqrow : ∀ s < sLen, ∀ g < cfg.inh, (headAt ops cfg l.idxQNorm s
      (rowOf cfg.ihd (qProj.dot (rowOf qProj.i x s)) g)).length = cfg.ihd := fun s _ g hg =>
    length_headAt _ _ (length_rowOf (by rw [qProj.dot_length, h.q_o]) hg)
  have hkrow : ∀ s < sLen, (headAt ops cfg l.idxKNorm s
      (kProj.dot (rowOf kProj.i x s))).length = cfg.ihd := fun s _ =>
    length_headAt _ _ (by rw [kProj.dot_length, h.k_o])
  have hdots : ((List.range (s + 1)).mapM fun t =>
      (Gqa.readSlice (keysOf ops cfg l kProj x sLen) (t * cfg.ihd) cfg.ihd).bind fun kvec =>
        some (List.zipWith (· * ·) (headAt ops cfg l.idxQNorm s
          (rowOf cfg.ihd (qProj.dot (rowOf qProj.i x s)) g)) kvec).sum)
      = some (Vectors.tab (s + 1) (keyScore ops cfg l qProj kProj x g s)) := by
    refine Vectors.mapM_eq_map fun t ht => ?_
    have ht' := List.mem_range.mp ht
    rw [keysOf, Gqa.readSlice_blocks hkrow (by omega), Option.bind_some]
    rfl
  unfold selectFor
  simp only [Nat.zero_add, hnb, Nat.mul_assoc]
  rw [queriesOf, Gqa.readSlice_grid hqrow hs hg, Option.bind_eq_bind, Option.bind_some,
    Option.bind_eq_bind, hdots, Option.bind_some,
    poolKeys_congr fun t ht => Vectors.getD_tab ht]
  rfl

/-- What `m3_block_select` returns for a prompt of more blocks than are kept. -/
theorem m3BlockSelect_eq (h : Shaped cfg l qProj kProj x sLen) (hmany : 1 < sLen)
    (hspan : cfg.topk < (sLen + cfg.bs - 1) / cfg.bs) :
    m3BlockSelect ops cfg true l x sLen 0 = some (some (blocks cfg.inh fun g =>
      (List.range sLen).map (selected ops cfg l qProj kProj x g))) := by
  have hq : matmulQt (sLen * cfg.inh * cfg.ihd) x qProj sLen
      = some (byRow qProj.i qProj.dot x sLen) :=
    matmulQt_of_shape _ h.q_length (by rw [h.q_o, Nat.mul_assoc])
  have hk : matmulQt (sLen * cfg.ihd) x kProj sLen = some (byRow kProj.i kProj.dot x sLen) :=
    matmulQt_of_shape _ h.k_length (by rw [h.k_o])
  have hout : ((List.range cfg.inh).mapM fun g => (List.range sLen).mapM fun s =>
      selectFor cfg (queriesOf ops cfg l qProj x sLen) (keysOf ops cfg l kProj x sLen) g s (0 + s))
      = some ((List.range cfg.inh).map fun g =>
        (List.range sLen).map (selected ops cfg l qProj kProj x g)) :=
    Vectors.mapM_eq_map fun g hg => Vectors.mapM_eq_map fun s hs =>
      selectFor_eq h (List.mem_range.mp hg) (List.mem_range.mp hs)
  have hgo : ¬ (true = false ∨ 0 ≠ 0 ∨ sLen ≤ 1) := by
    rintro (hoff | hstart | hle)
    · cases hoff
    · exact hstart rfl
    · omega
  unfold m3BlockSelect
  rw [if_neg hgo, h.idxQProj, h.idxKProj]
  simp only [if_neg (Nat.not_le.mpr hspan), hq, hk, Option.bind_eq_bind, Option.bind_some,
    rows_eq h, hout]
  rw [blocks, List.flatMap_def]

/-- It is the block selection that the grouped-query attention calls. -/
theorem m3BlockSelect_rows {gcfg : Gqa.GqaConfig α} {gl : Gqa.GqaWeights α} {rows : List (List α)}
    (h : Shaped cfg l qProj kProj rows.flatten rows.length)
    (hbs : gcfg.indexBlockSize = cfg.indexBlockSize)
    (htopk : gcfg.indexTopkBlocks = cfg.indexTopkBlocks)
    (hidx : gl.idx = some ⟨qProj, kProj, fun rows => blocks cfg.inh fun g =>
      (List.range rows.length).map (selected ops cfg l qProj kProj rows.flatten g)⟩) :
    m3BlockSelect ops cfg true l rows.flatten rows.length 0
      = some (Gqa.m3BlockSelect gcfg true gl rows 0) := by
  unfold Gqa.m3BlockSelect
  rw [hidx, hbs, htopk]
  by_cases hfew : rows.length ≤ 1
  · rw [m3BlockSelect, if_pos (Or.inr (Or.inr hfew)), if_pos (Or.inr (Or.inr hfew))]
  · have hgo : ¬ (true = false ∨ 0 ≠ 0 ∨ rows.length ≤ 1) := by
      rintro (hoff | hstart | hle)
      · cases hoff
      · exact hstart rfl
      · exact hfew hle
    rw [if_neg hgo, Option.bind_some]
    by_cases hspan : (rows.length + cfg.bs - 1) / cfg.bs ≤ cfg.topk
    · rw [m3BlockSelect, if_neg hgo, h.idxQProj, h.idxKProj]
      exact (if_pos hspan).trans (congrArg some (if_pos hspan).symm)
    · rw [m3BlockSelect_eq h (by omega) (Nat.lt_of_not_le hspan)]
      exact congrArg some (if_neg hspan).symm

/-- **What every query of a prompt keeps** is right, exactly where no more blocks are local
than are kept and the id of the last block fits in 32 bits. -/
theorem m3_blocks_iff (h : Shaped cfg l qProj kProj x sLen) (htopk : 0 < cfg.topk)
    (hlocal : 0 < cfg.locals) (hspan : cfg.topk < (sLen + cfg.bs - 1) / cfg.bs) :
    (∃ out, m3BlockSelect ops cfg true l x sLen 0 = some (some out) ∧
      out.length = cfg.inh * sLen ∧ ∀ g < cfg.inh, ∀ s < sLen, ∃ sel,
        out[g * sLen + s]? = some sel ∧
          Keeps (keyScore ops cfg l qProj kProj x g s) cfg.bs cfg.topk cfg.locals s sel)
      ↔ cfg.inh = 0 ∨ (cfg.locals ≤ cfg.topk ∧ (sLen - 1) / cfg.bs < 2 ^ 32) := by
  have hbs : 0 < cfg.bs := Nat.lt_of_lt_of_le Nat.one_pos (Nat.le_max_right _ _)
  have hpos : 0 < sLen := by
    rcases Nat.eq_zero_or_pos sLen with rfl | hpos
    · rw [Nat.div_eq_of_lt (by omega)] at hspan
      omega
    · exact hpos
  have hblocks : (sLen + cfg.bs - 1) / cfg.bs = (sLen - 1) / cfg.bs + 1 := by
    have hsum : sLen + cfg.bs - 1 = sLen - 1 + cfg.bs := by omega
    rw [hsum, Nat.add_div_right _ hbs]
  have hrows : ∀ g < cfg.inh, ((List.range sLen).map
      (selected ops cfg l qProj kProj x g)).length = sLen := fun g _ => by
    rw [List.length_map, List.length_range]
  have hentry : ∀ g < cfg.inh, ∀ s < sLen,
      (blocks cfg.inh fun g => (List.range sLen).map
        (selected ops cfg l qProj kProj x g))[g * sLen + s]?
        = some (selected ops cfg l qProj kProj x g s) := fun g hg s hs => by
    rw [getElem?_blocks hrows hg hs, List.getElem?_map, List.getElem?_range hs]
    rfl
  have hmany : 1 < sLen := by
    by_contra hle
    rw [hblocks, Nat.div_eq_of_lt (by omega)] at hspan
    omega
  rw [m3BlockSelect_eq h hmany hspan]
  constructor
  · rintro ⟨out, hout, -, hall⟩
    cases hout
    rcases Nat.eq_zero_or_pos cfg.inh with hnone | hsome
    · exact Or.inl hnone
    · -- the last query has more blocks than are kept
      obtain ⟨sel, hsel, hkeeps⟩ := hall 0 hsome (sLen - 1) (by omega)
      rw [hentry 0 hsome (sLen - 1) (by omega)] at hsel
      cases hsel
      have hsmall := topkBlocks_lt _ hkeeps.own
      refine Or.inr ⟨?_, hsmall⟩
      by_contra hmore
      obtain ⟨hlen, hscore⟩ := scores_spec cfg.bs cfg.locals (sLen - 1)
        (keyScore ops cfg l qProj kProj x 0 (sLen - 1))
      obtain ⟨-, hsel⟩ := selects_topkBlocks (by rw [hlen]; exact hsmall) cfg.topk
      rw [hlen] at hsel
      exact own_not_mem hscore hsel (by omega) hkeeps.own
  · intro hcond
    refine ⟨_, rfl, length_blocks hrows, fun g hg s hs => ⟨_, hentry g hg s hs, ?_⟩⟩
    obtain ⟨hfew, hsmall⟩ := hcond.resolve_left (by omega)
    have hle : s / cfg.bs ≤ (sLen - 1) / cfg.bs := Nat.div_le_div_right (by omega)
    obtain ⟨hlen, hscore⟩ := scores_spec cfg.bs cfg.locals s
      (keyScore ops cfg l qProj kProj x g s)
    obtain ⟨hsorted, hsel⟩ := selects_topkBlocks (by rw [hlen]; omega) cfg.topk
    rw [hlen] at hsel
    exact keeps_of_selects hlocal hscore hsel hsorted
      (Nat.le_trans (Nat.min_le_left _ _) hfew)

end

/-! ### Two tokens -/

/-- Row functions that change nothing. -/
def plainOps : RowOps ℚ := ⟨fun x _ _ => x, fun v _ _ _ => v, fun _ _ _ => rfl, fun _ _ _ _ => rfl⟩

/-- A tensor of one row, of ones. -/
def sumTensor : QTensor ℚ := ⟨1, 1, fun row => [row.sum], fun _ => rfl⟩

/-- One head, blocks of one key, of which one is kept. -/
def oneBlock (localBlocks : Int) : Config ℚ := ⟨1, 1, 1, 1, localBlocks, 0, 0, 0⟩

def oneLayer : Layer ℚ := ⟨some sumTensor, some sumTensor, [1], [1]⟩

theorem oneLayer_shaped (localBlocks : Int) :
    Shaped (oneBlock localBlocks) oneLayer sumTensor sumTensor [1, 2] 2 :=
  ⟨rfl, rfl, rfl, rfl, rfl, rfl, rfl, rfl⟩

/-- With one local block, the second token keeps its own. -/
theorem m3_blocks_own :
    ∃ out, m3BlockSelect plainOps (oneBlock 1) true oneLayer [1, 2] 2 0 = some (some out) ∧
      out.length = 2 ∧ ∀ g < 1, ∀ s < 2, ∃ sel, out[g * 2 + s]? = some sel ∧
        Keeps (keyScore plainOps (oneBlock 1) oneLayer sumTensor sumTensor [1, 2] g s) 1 1 1 s
          sel :=
  (m3_blocks_iff (oneLayer_shaped 1) (by decide) (by decide) (by decide)).mpr
    (Or.inr ⟨by decide, by decide⟩)

/-- **With two local blocks it loses it**: both are above all others, and the first is taken. -/
theorem own_block_lost :
    ∃ out sel, m3BlockSelect plainOps (oneBlock 2) true oneLayer [1, 2] 2 0 = some (some out) ∧
      out[1]? = some sel ∧ 1 ∉ sel := by
  refine ⟨_, _, m3BlockSelect_eq (oneLayer_shaped 2) (by decide) (by decide), rfl, ?_⟩
  obtain ⟨hlen, hscore⟩ := scores_spec 1 2 1
    (keyScore plainOps (oneBlock 2) oneLayer sumTensor sumTensor [1, 2] 0 1)
  obtain ⟨-, hsel⟩ := selects_topkBlocks (Nat.le_trans (Nat.le_of_eq hlen) (by decide)) 1
  rw [hlen] at hsel
  exact own_not_mem hscore hsel (by decide)

end Colibri.Attention.Sparse
