import Colibri.Attention.Gqa
import Colibri.Lib.InPlace

/-!
# The lightning indexer

`select_topk` sorts the scores, reads off the `keep`-th largest, and takes the positions
above that threshold and then those at it, until it has `keep`: the `keep` best, of equal
ones the first (`selects_above`). A position is stored in 32 bits, so one past `2 ^ 32` comes
out as another one (`selectTopk_iff`).

`indexer_forward` selects for every token of a prompt that has more keys than it may keep.
It projects only those tokens, so the row of token `s` is `s - s0` (`indexerForward_iff`).

* `scan_eq`, `threshold` and `selects_taken` are the pieces of `select_topk`: what a scan appends,
  how many scores are above the threshold, and that the positions taken are the best.
* `project_filled` and `selectFor_eq` are those of `indexer_forward`: where the row of a token is in
  what is projected, and that a token's selection is that of its causal scores.
* `dsa_selects_iff` puts the two halves together, and `positions_wrap` has an input for each half
  where it fails.

The rotation of a row takes a snapshot of at most 512 entries; a longer rotary part is a panic at
the first key (`project_none`).
-/

namespace Colibri.Attention.Dsa

open Colibri.Moe Colibri.InPlace Colibri.Blocks

/-! ## Selecting -/

section

variable {κ : Type} [LinearOrder κ]

/-- The loop over the scores from position `t`: push the positions of a kind, until there are
`keep`. -/
def scan (keep : Nat) (p : κ → Bool) : List κ → Nat → List Nat → List Nat
  | [], _, sel => sel
  | s :: scores, t, sel =>
    if keep ≤ sel.length then sel
    else scan keep p scores (t + 1) (if p s then sel ++ [t % 2 ^ 32] else sel)

def selectTopk (scores : List κ) (indexTopk : Nat) : Option (List Nat) :=
  let nk := scores.length
  if nk = 0 then some []
  else
    let keep := min nk indexTopk
    if keep = nk then some (List.range (nk % 2 ^ 32))
    else if keep = 0 then none
    else do
      let thr ← (scores.mergeSort fun a b => decide (b ≤ a))[keep - 1]?
      let sel := scan keep (fun s => decide (thr < s)) scores 0 []
      let sel := scan keep (fun s => decide (s = thr)) scores 0 sel
      some (sel.mergeSort fun a b => decide (a ≤ b))

/-! ### The scans -/

omit [LinearOrder κ] in
/-- A scan appends the first positions of its kind, as many as there is room for. -/
theorem scan_eq (keep : Nat) (p : κ → Bool) (scores : List κ) (t : Nat) (sel : List Nat) :
    scan keep p scores t sel = sel ++ ((((scores.zipIdx t).filter fun st => p st.1).map
      Prod.snd).take (keep - sel.length)).map (· % 2 ^ 32) := by
  induction scores generalizing t sel with
  | nil => rw [scan, List.zipIdx_nil, List.filter_nil, List.map_nil, List.take_nil, List.map_nil,
      List.append_nil]
  | cons s scores ih =>
    rw [scan]
    split
    next hfull =>
      rw [Nat.sub_eq_zero_of_le hfull, List.take_zero, List.map_nil, List.append_nil]
    next hroom =>
      have hsub : keep - sel.length = keep - (sel.length + 1) + 1 := by omega
      rw [ih, List.zipIdx_cons]
      cases hp : p s with
      | true =>
        rw [if_pos rfl, List.filter_cons, if_pos hp, List.map_cons, List.length_append,
          List.length_singleton, hsub, List.take_succ_cons, List.map_cons, List.append_assoc]
        rfl
      | false =>
        have hnot : ¬ p s = true := by
          rw [hp]
          exact Bool.false_ne_true
        rw [if_neg Bool.false_ne_true, List.filter_cons, if_neg hnot]

variable [Zero κ]

/-- The positions whose score is of a kind. -/
def positions (scores : List κ) (p : κ → Bool) : List Nat :=
  (List.range scores.length).filter fun t => p (scores.getD t 0)

omit [LinearOrder κ] in
theorem positions_eq (scores : List κ) (p : κ → Bool) :
    ((scores.zipIdx 0).filter fun st => p st.1).map Prod.snd = positions scores p := by
  have hzip : scores.zipIdx 0 = (List.range scores.length).map fun t => (scores.getD t 0, t) := by
    refine List.ext_getElem (by rw [List.length_zipIdx, List.length_map, List.length_range])
      fun t h₁ h₂ => ?_
    rw [List.length_zipIdx] at h₁
    rw [List.getElem_zipIdx, List.getElem_map, List.getElem_range, Nat.zero_add,
      List.getD_eq_getElem _ _ h₁]
  rw [hzip, List.filter_map, List.map_map]
  exact List.map_id _

omit [LinearOrder κ] in
/-- How many there are does not depend on the order of the scores. -/
theorem length_positions (scores : List κ) (p : κ → Bool) :
    (positions scores p).length = scores.countP p := by
  have hmap : (List.range scores.length).map (fun t => scores.getD t 0) = scores :=
    (Vectors.eq_tab rfl 0).symm
  rw [positions, ← List.countP_eq_length_filter]
  conv_rhs => rw [← hmap, List.countP_map]
  rfl

/-- What the two scans take, as positions. -/
def taken (scores : List κ) (thr : κ) (keep : Nat) : List Nat :=
  (positions scores (fun s => decide (thr < s))
    ++ positions scores (fun s => decide (s = thr))).take keep

theorem scans_eq (scores : List κ) (thr : κ) (keep : Nat) :
    scan keep (fun s => decide (s = thr)) scores 0
        (scan keep (fun s => decide (thr < s)) scores 0 [])
      = (taken scores thr keep).map (· % 2 ^ 32) := by
  have habove := positions_eq scores fun s => decide (thr < s)
  have hequal := positions_eq scores fun s => decide (s = thr)
  rw [scan_eq, scan_eq, habove, hequal, List.nil_append, List.length_map,
    List.length_nil, Nat.sub_zero, taken, List.take_append, List.map_append, List.length_take]
  congr 3
  omega

/-! ### The threshold -/

omit [Zero κ] in
/-- Scores not below the threshold are above it or at it. -/
theorem countP_above_at {thr : κ} {l : List κ} (h : ∀ s ∈ l, thr ≤ s) :
    l.countP (fun s => decide (thr < s)) + l.countP (fun s => decide (s = thr)) = l.length := by
  induction l with
  | nil => rfl
  | cons s l ih =>
    rw [List.countP_cons, List.countP_cons, List.length_cons,
      ← ih fun s' hs' => h s' (List.mem_cons_of_mem _ hs')]
    rcases lt_or_eq_of_le (h s (List.mem_cons_self ..)) with hlt | heq
    · rw [if_pos (decide_eq_true hlt), if_neg (by rw [decide_eq_true_eq]; exact ne_of_gt hlt)]
      omega
    · rw [if_neg (by rw [decide_eq_true_eq, heq]; exact lt_irrefl _),
        if_pos (decide_eq_true heq.symm)]
      omega

variable {scores : List κ}

omit [Zero κ] in
/-- Fewer than `keep` scores are above the `keep`-th largest, and no fewer are above it or at
it. -/
theorem threshold {keep : Nat} {thr : κ} (hkeep : 0 < keep)
    (h : (scores.mergeSort fun a b => decide (b ≤ a))[keep - 1]? = some thr) :
    scores.countP (fun s => decide (thr < s)) < keep ∧
      keep ≤ scores.countP (fun s => decide (thr < s))
        + scores.countP fun s => decide (s = thr) := by
  obtain ⟨i, rfl⟩ : ∃ i, keep = i + 1 := ⟨keep - 1, by omega⟩
  rw [Nat.add_sub_cancel] at h
  have hperm := List.mergeSort_perm scores fun a b => decide (b ≤ a)
  have hsorted := @List.pairwise_mergeSort κ (fun a b => decide (b ≤ a))
    (fun a b c hab hbc => by
      rw [decide_eq_true_eq] at hab hbc ⊢
      exact le_trans hbc hab)
    (fun a b => by
      rw [Bool.or_eq_true, decide_eq_true_eq, decide_eq_true_eq]
      exact le_total b a) scores
  rw [← hperm.countP_eq, ← hperm.countP_eq]
  generalize scores.mergeSort _ = sorted at h hsorted
  obtain ⟨hlt, hthr⟩ := List.getElem?_eq_some_iff.mp h
  have hsplit : sorted = sorted.take i ++ thr :: sorted.drop (i + 1) := by
    rw [← hthr, List.getElem_cons_drop, List.take_append_drop]
  have hfirst : (sorted.take i).length = i := by
    rw [List.length_take]
    omega
  have hsorted' := hsorted
  rw [hsplit] at hsorted'
  obtain ⟨-, hrest, hcross⟩ := List.pairwise_append.mp hsorted'
  -- before the threshold everything is at least it, after it at most
  have hnone : (thr :: sorted.drop (i + 1)).countP (fun s => decide (thr < s)) = 0 := by
    rw [List.countP_eq_zero]
    intro s hs habove
    have hle : s ≤ thr := by
      rcases List.mem_cons.mp hs with rfl | hs
      · exact le_refl _
      · exact of_decide_eq_true ((List.pairwise_cons.mp hrest).1 s hs)
    exact absurd (of_decide_eq_true habove) (not_lt.mpr hle)
  have hall : (sorted.take i).countP (fun s => decide (thr < s))
      + (sorted.take i).countP (fun s => decide (s = thr)) = i := by
    rw [countP_above_at fun s hs => of_decide_eq_true (hcross s hs thr (List.mem_cons_self ..)),
      hfirst]
  rw [hsplit, List.countP_append, List.countP_append, hnone, List.countP_cons,
    if_pos (decide_eq_true rfl)]
  omega

/-- **Above the threshold first, then at it, in the order of positions**: the best. -/
theorem selects_taken {keep : Nat} {thr : κ} (hkeep : 0 < keep)
    (h : (scores.mergeSort fun a b => decide (b ≤ a))[keep - 1]? = some thr) :
    TopK.Selects (scores.getD · 0) scores.length keep (taken scores thr keep) := by
  obtain ⟨hfew, hmany⟩ := threshold hkeep h
  rw [← length_positions] at hfew
  rw [← length_positions, ← length_positions] at hmany
  have hmemA : ∀ t, t ∈ positions scores (fun s => decide (thr < s)) ↔
      t < scores.length ∧ thr < scores.getD t 0 := fun t => by
    rw [positions, List.mem_filter, List.mem_range, decide_eq_true_eq]
  have hmemE : ∀ t, t ∈ positions scores (fun s => decide (s = thr)) ↔
      t < scores.length ∧ scores.getD t 0 = thr := fun t => by
    rw [positions, List.mem_filter, List.mem_range, decide_eq_true_eq]
  have hndA : (positions scores fun s => decide (thr < s)).Nodup := List.nodup_range.filter _
  have hndE : (positions scores fun s => decide (s = thr)).Nodup := List.nodup_range.filter _
  have hsorted : (positions scores fun s => decide (s = thr)).Pairwise (· < ·) :=
    List.pairwise_lt_range.filter _
  have htaken : taken scores thr keep = positions scores (fun s => decide (thr < s))
      ++ (positions scores fun s => decide (s = thr)).take
        (keep - (positions scores fun s => decide (thr < s)).length) := by
    rw [taken, List.take_append, List.take_of_length_le (Nat.le_of_lt hfew)]
  have hlen : keep ≤ scores.length := by
    obtain ⟨hlt, -⟩ := List.getElem?_eq_some_iff.mp h
    rw [List.length_mergeSort] at hlt
    omega
  rw [htaken]
  generalize positions scores (fun s => decide (thr < s)) = above at *
  generalize positions scores (fun s => decide (s = thr)) = equal at *
  refine TopK.Selects.of_beats ?_ ?_ ?_ ?_
  · rw [List.nodup_append]
    refine ⟨hndA, hndE.sublist (List.take_sublist _ _), ?_⟩
    rintro t ht _ ht' rfl
    have habove := ((hmemA t).mp ht).2
    rw [((hmemE t).mp (List.mem_of_mem_take ht')).2] at habove
    exact absurd habove (lt_irrefl _)
  · rw [List.length_append, List.length_take]
    omega
  · intro t ht
    rcases List.mem_append.mp ht with ht | ht
    · exact ((hmemA t).mp ht).1
    · exact ((hmemE t).mp (List.mem_of_mem_take ht)).1
  · intro t ht u hu hnot
    rw [List.mem_append, not_or] at hnot
    have hlow : scores.getD u 0 ≤ thr := by
      refine not_lt.mp fun hlt => hnot.1 ((hmemA u).mpr ⟨hu, hlt⟩)
    rw [TopK.better_iff]
    rcases List.mem_append.mp ht with ht | ht
    · exact Or.inl (lt_of_le_of_lt hlow ((hmemA t).mp ht).2)
    · have hat := ((hmemE t).mp (List.mem_of_mem_take ht)).2
      rcases lt_or_eq_of_le hlow with hlt | heq
      · exact Or.inl (hat ▸ hlt)
      · -- both are at the threshold, and `u` came too late
        have hu' : u ∈ equal := (hmemE u).mpr ⟨hu, heq⟩
        have hdrop : u ∈ equal.drop (keep - above.length) := by
          rw [← List.take_append_drop (keep - above.length) equal] at hu'
          exact (List.mem_append.mp hu').resolve_left hnot.2
        rw [← List.take_append_drop (keep - above.length) equal] at hsorted
        have hlt := (List.pairwise_append.mp hsorted).2.2 t ht u hdrop
        exact Or.inr ⟨hat.trans heq.symm, Nat.le_of_lt hlt⟩

/-! ### The selection -/

/-- No score of a position past `2 ^ 32` is among the `k` best: `k` others beat it. And where
all positions are taken, their number fits in 32 bits. -/
def Fits (scores : List κ) (k : Nat) : Prop :=
  (∀ t < scores.length, 2 ^ 32 ≤ t → k ≤ TopK.rank (scores.getD · 0) scores.length t) ∧
    ¬ (scores.length ≤ k ∧ scores.length = 2 ^ 32)

/-- What `select_topk` returns where not all positions are taken. -/
theorem selectTopk_sparse {k : Nat} (hk : 0 < k) (hlt : k < scores.length) :
    ∃ thr, (scores.mergeSort fun a b => decide (b ≤ a))[k - 1]? = some thr ∧
      selectTopk scores k = some (((taken scores thr k).map (· % 2 ^ 32)).mergeSort
        fun a b => decide (a ≤ b)) := by
  have hmin : min scores.length k = k := Nat.min_eq_right (Nat.le_of_lt hlt)
  have hin : k - 1 < (scores.mergeSort fun a b => decide (b ≤ a)).length := by
    rw [List.length_mergeSort]
    omega
  refine ⟨_, List.getElem?_eq_getElem hin, ?_⟩
  unfold selectTopk
  dsimp only
  rw [if_neg (by omega), hmin, if_neg (by omega), if_neg (by omega),
    List.getElem?_eq_getElem hin, Option.bind_eq_bind, Option.bind_some, scans_eq]

omit [Zero κ] in
/-- What it returns where all are. -/
theorem selectTopk_dense {k : Nat} (hle : scores.length ≤ k) :
    selectTopk scores k = some (List.range (scores.length % 2 ^ 32)) := by
  unfold selectTopk
  dsimp only
  split
  next h0 => rw [h0]; rfl
  next => rw [if_pos (Nat.min_eq_left hle)]

/-- **`select_topk` returns the best positions**, ascending, of equal ones the first, exactly
where every position it is to return fits in 32 bits. -/
theorem selectTopk_iff {k : Nat} (hk : 0 < k) :
    (∃ sel, selectTopk scores k = some sel ∧ sel.Pairwise (· < ·) ∧
      TopK.Selects (scores.getD · 0) scores.length k sel) ↔ Fits scores k := by
  rcases Nat.lt_or_ge k scores.length with hlt | hle
  · obtain ⟨thr, hthr, hret⟩ := selectTopk_sparse hk hlt
    have htaken := selects_taken hk hthr
    rw [hret]
    constructor
    · rintro ⟨sel, hsel, -, hsels⟩
      cases hsel
      refine ⟨fun t ht hbig => ?_, fun h => by omega⟩
      by_contra hrank
      -- a position among the best is returned, but what is returned is below `2 ^ 32`
      have hmem := (hsels.mem_iff t).mpr ⟨ht, by omega⟩
      obtain ⟨t', -, rfl⟩ := List.mem_map.mp (List.mem_mergeSort.mp hmem)
      exact absurd hbig (Nat.not_le.mpr (Nat.mod_lt _ (Nat.two_pow_pos 32)))
    · rintro ⟨hfits, -⟩
      have hid : (taken scores thr k).map (· % 2 ^ 32) = taken scores thr k := by
        refine (List.map_congr_left fun t ht => ?_).trans (List.map_id _)
        obtain ⟨hin, hrank⟩ := (htaken.mem_iff t).mp ht
        refine Nat.mod_eq_of_lt (Nat.lt_of_not_le fun hbig => ?_)
        have := hfits t hin hbig
        omega
      rw [hid]
      have hsels := htaken.perm (List.mergeSort_perm (taken scores thr k)
        fun a b => decide (a ≤ b)).symm
      refine ⟨_, rfl, ?_, hsels⟩
      exact (TopK.pairwise_sort_le _).imp₂ (fun a b hle hne => Nat.lt_of_le_of_ne hle hne) hsels.nodup
  · rw [selectTopk_dense hle]
    constructor
    · rintro ⟨sel, hsel, -, hsels⟩
      cases hsel
      have hlen := hsels.length_eq
      rw [List.length_range, Nat.min_eq_right hle] at hlen
      have hmod := Nat.mod_lt scores.length (Nat.two_pow_pos 32)
      exact ⟨fun t ht hbig => by omega, fun h => by omega⟩
    · rintro ⟨hfits, hall⟩
      have hsmall : scores.length < 2 ^ 32 := by
        rcases Nat.lt_trichotomy scores.length (2 ^ 32) with h | h | h
        · exact h
        · exact absurd ⟨hle, h⟩ hall
        · -- of more than `2 ^ 32` positions the one at `2 ^ 32` would not be beaten by enough
          have hrank := hfits (2 ^ 32) h (Nat.le_refl _)
          have hfew := TopK.rank_lt (scores.getD · 0) h
          omega
      rw [Nat.mod_eq_of_lt hsmall]
      refine ⟨_, rfl, List.pairwise_lt_range, List.nodup_range, ?_, fun t => ?_⟩
      · rw [List.length_range, Nat.min_eq_right hle]
      · rw [List.mem_range]
        refine ⟨fun ht => ⟨ht, ?_⟩, And.left⟩
        exact Nat.lt_of_lt_of_le (TopK.rank_lt (scores.getD · 0) ht) hle

end

/-- Of fewer than `2 ^ 32` scores it selects what the model with rows does. -/
theorem selectTopk_rows {α : Type} [Field α] [LinearOrder α] {scores : List α} {k : Nat}
    (hk : 0 < k) (hsmall : scores.length < 2 ^ 32) :
    selectTopk scores k = Attention.selectTopk scores k := by
  unfold Attention.selectTopk
  dsimp only
  rcases Nat.lt_or_ge k scores.length with hlt | hle
  · obtain ⟨thr, hthr, hret⟩ := selectTopk_sparse hk hlt
    have hmin : min scores.length k = k := Nat.min_eq_right (Nat.le_of_lt hlt)
    have hid : (taken scores thr k).map (· % 2 ^ 32) = taken scores thr k := by
      refine (List.map_congr_left fun t ht => ?_).trans (List.map_id _)
      have hin := (((selects_taken hk hthr).mem_iff t).mp ht).1
      exact Nat.mod_eq_of_lt (Nat.lt_trans hin hsmall)
    rw [hret, hid, hmin, if_neg (by omega), if_neg (by omega), if_neg (by omega),
      List.getD_eq_getElem?_getD, hthr]
    rfl
  · rw [selectTopk_dense hle, Nat.mod_eq_of_lt hsmall]
    split
    next h0 => rw [h0]; rfl
    next => rw [if_pos (Nat.min_eq_left hle)]

/-! ## A prompt -/

/-- The functions of `math.rs` on a row, and the square root. -/
structure RowOps (α : Type) where
  layernorm : List α → List α → List α → α → List α
  ropeInterleave : List α → Nat → Nat → α → List α
  sqrt : α → α
  layernorm_length : ∀ v w b eps, (layernorm v w b eps).length = v.length
  ropeInterleave_length : ∀ v pos qkRope theta, (ropeInterleave v pos qkRope theta).length = v.length

/-- `IndexerWeights` -/
structure Weights (α : Type) where
  wk : QTensor α
  knormW : List α
  knormB : List α
  wq : QTensor α
  wp : QTensor α

section

variable {α : Type} [Field α] [LinearOrder α]

def indexerScore (sqrt : α → α) (qHeads key headW : List α) (nh hd : Nat) : α :=
  let rs := 1 / sqrt hd
  let wsc := 1 / sqrt nh
  let a := (List.range nh).foldl (fun a h =>
    let d0 := (List.range hd).foldl (fun d0 i =>
      d0 + qHeads.getD (h * hd + i) 0 * key.getD i 0) 0 * rs
    if 0 < d0 then a + headW.getD h 0 * d0 else a) 0
  a * wsc

/-- `rope_interleave` on a row of length `rope`: its snapshot of the row has 512 entries. -/
def ropeRow (ops : RowOps α) (rope : Nat) (theta : α) (pos : Nat) (v : List α) :
    Option (List α) :=
  if rope ≤ 512 then some (ops.ropeInterleave v pos rope theta) else none

local instance atLeastTwo_ten : Nat.AtLeastTwo 10 := ⟨by decide⟩

/-- The norm of a key, and the rotation of its first entries. -/
def keyRow (ops : RowOps α) (w : Weights α) (rope : Nat) (theta : α) (pos : Nat) (k : List α) :
    Option (List α) :=
  if k.length ≤ w.knormW.length ∧ k.length ≤ w.knormB.length then
    within (ops.layernorm k w.knormW w.knormB (1 / 10 ^ 6)) 0 rope (ropeRow ops rope theta pos)
  else none

/-- What the rows are read from: the queries from `s0` on, their head weights, the keys, and
the scores where the GPU has them. -/
structure Batched (α : Type) where
  s0 : Nat
  qiAll : List α
  hwAll : List α
  keys : List α
  scoresAll : Option (List α)

/-- The body of the loop over the tokens, for token `s`; `out` is empty. -/
def selectFor (ops : RowOps α) (b : Batched α) (sLen nh hd indexTopk posBase : Nat)
    (out : List Nat) (s : Nat) : Option (List Nat) :=
  let nk := posBase + s + 1
  if isDense nk indexTopk then some out
  else if s < b.s0 then none
  else
    let si := s - b.s0
    match b.scoresAll with
    | some scoresAll => do
      let scores ← Gqa.readSlice scoresAll (si * sLen) nk
      selectTopk scores indexTopk
    | none => do
      let qi ← Gqa.readSlice b.qiAll (si * (nh * hd)) (nh * hd)
      let hw ← Gqa.readSlice b.hwAll (si * nh) nh
      let scores ← (List.range nk).mapM fun t => do
        let kt ← Gqa.readSlice b.keys (t * hd) hd
        some (indexerScore ops.sqrt qi kt hw nh hd)
      selectTopk scores indexTopk

/-- The projections of `indexer_forward`. `gpu` is `try_dsa_indexer_scores`. -/
def project (ops : RowOps α) (gpu : List α → List α → List α → Nat → Nat → Option (List α))
    (w : Weights α) (x qLora : List α) (sLen nh hd indexTopk qkRope : Nat) (theta : α)
    (posBase : Nat) : Option (Batched α) := do
  let qLoraDim := w.wq.i
  let hidden := w.wk.i
  let rope := min qkRope hd
  let keys ← matmulQt (sLen * hd) x w.wk sLen
  let keys ← (List.range sLen).foldlM (fun keys s =>
    within keys (s * hd) hd (keyRow ops w rope theta (posBase + s))) keys
  -- only the tokens past the dense ones
  let s0 := min (indexTopk - posBase) sLen
  let nsp := sLen - s0
  let qiStride := nh * hd
  if nsp = 0 then some ⟨s0, [], [], keys, none⟩
  else do
    let qTail ← if s0 * qLoraDim ≤ qLora.length then some (qLora.drop (s0 * qLoraDim)) else none
    let xTail ← if s0 * hidden ≤ x.length then some (x.drop (s0 * hidden)) else none
    let qiAll ← matmulQt (nsp * qiStride) qTail w.wq nsp
    let hwAll ← matmulQt (nsp * nh) xTail w.wp nsp
    let qiAll ← (List.range nsp).foldlM (fun qiAll si =>
      (List.range nh).foldlM (fun qiAll h =>
        within qiAll (si * qiStride + h * hd) rope (ropeRow ops rope theta (posBase + s0 + si)))
        qiAll) qiAll
    some ⟨s0, qiAll, hwAll, keys, gpu qiAll hwAll keys nsp s0⟩

/-- `indexer_forward`: each thread fills its chunk of the rows. -/
def indexerForward (ops : RowOps α)
    (gpu : List α → List α → List α → Nat → Nat → Option (List α)) (nthreads : Nat)
    (w : Weights α) (x qLora : List α) (sLen nh hd indexTopk qkRope : Nat) (theta : α)
    (posBase : Nat) : Option (List (List Nat)) := do
  let b ← project ops gpu w x qLora sLen nh hd indexTopk qkRope theta posBase
  let sel : List (List Nat) := List.replicate sLen []
  let chunk := max ((sLen + nthreads - 1) / nthreads) 1
  let chunks ← ((chunks chunk sel).zipIdx).mapM fun (selChunk, ci) =>
    selChunk.zipIdx.mapM fun (out, j) =>
      selectFor ops b sLen nh hd indexTopk posBase out (ci * chunk + j)
  some chunks.flatten

/-! ### What the rows are -/

/-- The key of the token in a row, at its position. -/
def keyAt (ops : RowOps α) (w : Weights α) (x : List α) (hd qkRope : Nat) (theta : α) (s : Nat) :
    List α :=
  let rope := min qkRope hd
  let k := ops.layernorm (w.wk.dot (rowOf w.wk.i x s)) w.knormW w.knormB (1 / 10 ^ 6)
  ops.ropeInterleave (k.take rope) s rope theta ++ k.drop rope

/-- Its queries, one head after another. -/
def queryAt (ops : RowOps α) (w : Weights α) (qLora : List α) (nh hd qkRope : Nat) (theta : α)
    (s : Nat) : List α :=
  let rope := min qkRope hd
  blocks nh fun h =>
    let q := rowOf hd (w.wq.dot (rowOf w.wq.i qLora s)) h
    ops.ropeInterleave (q.take rope) s rope theta ++ q.drop rope

/-- The scores of the keys a token may attend to, each computed by itself. -/
def causalScores (ops : RowOps α) (w : Weights α) (x qLora : List α) (nh hd qkRope : Nat)
    (theta : α) (s : Nat) : List α :=
  (List.range (s + 1)).map fun t =>
    indexerScore ops.sqrt (queryAt ops w qLora nh hd qkRope theta s)
      (keyAt ops w x hd qkRope theta t) (w.wp.dot (rowOf w.wk.i x s)) nh hd

/-! ### The batched rows -/

/-- Tensors and rows that fit together. -/
structure Shaped (w : Weights α) (x qLora : List α) (sLen nh hd : Nat) : Prop where
  wk_o : w.wk.o = hd
  wq_o : w.wq.o = nh * hd
  wp_o : w.wp.o = nh
  wp_i : w.wp.i = w.wk.i
  knormW : w.knormW.length = hd
  knormB : w.knormB.length = hd
  x_length : x.length = sLen * w.wk.i
  qLora_length : qLora.length = sLen * w.wq.i

/-- What the kernel writes, if it does not decline: the scores of the causal keys. -/
def Kernel (ops : RowOps α) (gpu : List α → List α → List α → Nat → Nat → Option (List α))
    (sLen nh hd : Nat) : Prop :=
  ∀ qi hw keys nsp s0 all, gpu qi hw keys nsp s0 = some all → all.length = nsp * sLen ∧
    ∀ si < nsp, ∀ t < s0 + si + 1, t < sLen → all.getD (si * sLen + t) 0
      = indexerScore ops.sqrt (rowOf (nh * hd) qi si) (rowOf hd keys t) (rowOf nh hw si) nh hd

/-- The batch of a prompt: every row of it is the row of one token. -/
structure Filled (ops : RowOps α) (gpu : List α → List α → List α → Nat → Nat → Option (List α))
    (w : Weights α) (x qLora : List α) (sLen nh hd indexTopk qkRope : Nat) (theta : α)
    (b : Batched α) : Prop where
  s0 : b.s0 = min indexTopk sLen
  keys : b.keys = blocks sLen (keyAt ops w x hd qkRope theta)
  qiAll : b.qiAll = blocks (sLen - b.s0) fun si =>
    queryAt ops w qLora nh hd qkRope theta (b.s0 + si)
  hwAll : b.hwAll = blocks (sLen - b.s0) fun si => w.wp.dot (rowOf w.wk.i x (b.s0 + si))
  scoresAll : b.scoresAll = none ∨
    b.scoresAll = gpu b.qiAll b.hwAll b.keys (sLen - b.s0) b.s0

variable {ops : RowOps α} {gpu : List α → List α → List α → Nat → Nat → Option (List α)}
  {w : Weights α} {x qLora : List α} {sLen nh hd indexTopk qkRope : Nat} {theta : α}

omit [LinearOrder α] in
theorem length_keyAt (h : Shaped w x qLora sLen nh hd) (s : Nat) :
    (keyAt ops w x hd qkRope theta s).length = hd := by
  simp only [keyAt, List.length_append, ops.ropeInterleave_length, List.length_take,
    List.length_drop, ops.layernorm_length, w.wk.dot_length, h.wk_o]
  omega

omit [Field α] [LinearOrder α] in
theorem length_queryAt (h : Shaped w x qLora sLen nh hd) (s : Nat) :
    (queryAt ops w qLora nh hd qkRope theta s).length = nh * hd := by
  refine length_blocks fun i hi => ?_
  have hrow : (rowOf hd (w.wq.dot (rowOf w.wq.i qLora s)) i).length = hd :=
    length_rowOf (by rw [w.wq.dot_length, h.wq_o]) hi
  simp only [List.length_append, ops.ropeInterleave_length, List.length_take, List.length_drop,
    hrow]
  omega

omit [LinearOrder α] in
/-- The keys, row after row. -/
theorem keys_eq (h : Shaped w x qLora sLen nh hd) (hrope : 0 < sLen → min qkRope hd ≤ 512) :
    (List.range sLen).foldlM (fun keys s =>
        within keys (s * hd) hd (keyRow ops w (min qkRope hd) theta (0 + s)))
      (byRow w.wk.i w.wk.dot x sLen)
      = some (blocks sLen (keyAt ops w x hd qkRope theta)) := by
  have hlen : (byRow w.wk.i w.wk.dot x sLen).length = sLen * hd := by
    rw [byRow_length w.wk.dot_length, h.wk_o]
  rw [foldlM_rows hlen (g := fun s row =>
    let k := ops.layernorm row w.knormW w.knormB (1 / 10 ^ 6)
    ops.ropeInterleave (k.take (min qkRope hd)) s (min qkRope hd) theta
      ++ k.drop (min qkRope hd)) ?_ ?_]
  · refine congrArg some (blocks_congr fun s hs => ?_)
    have hrow := rowOf_byRow (d := w.wk.i) (x := x) w.wk.dot_length hs
    rw [h.wk_o] at hrow
    rw [← rowOf, hrow]
    rfl
  · intro s _ y hy
    simp only [List.length_append, ops.ropeInterleave_length, List.length_take, List.length_drop,
      ops.layernorm_length, hy]
    omega
  · intro s hs p y q hp hy
    have hk : (ops.layernorm y w.knormW w.knormB (1 / 10 ^ 6)).length = hd := by
      rw [ops.layernorm_length, hy]
    rw [within_append hp hy, keyRow, if_pos ⟨by rw [hy, h.knormW], by rw [hy, h.knormB]⟩,
      within, if_pos (by rw [hk, Nat.zero_add]; exact Nat.min_le_right _ _), ropeRow,
      if_pos (hrope (by omega)), Nat.zero_add, Nat.zero_add]
    rfl

omit [Field α] [LinearOrder α] in
/-- The queries from `s0` on, row after row. -/
theorem queries_eq (h : Shaped w x qLora sLen nh hd) (hrope : min qkRope hd ≤ 512)
    (s0 nsp : Nat) :
    (List.range nsp).foldlM (fun qiAll si =>
        (List.range nh).foldlM (fun qiAll h =>
          within qiAll (si * (nh * hd) + h * hd) (min qkRope hd)
            (ropeRow ops (min qkRope hd) theta (0 + s0 + si))) qiAll)
      (byRow w.wq.i w.wq.dot (qLora.drop (s0 * w.wq.i)) nsp)
      = some (blocks nsp fun si => queryAt ops w qLora nh hd qkRope theta (s0 + si)) := by
  have hlen : (byRow w.wq.i w.wq.dot (qLora.drop (s0 * w.wq.i)) nsp).length = nsp * (nh * hd) := by
    rw [byRow_length w.wq.dot_length, h.wq_o]
  refine (foldlM_grid hlen (g := fun si _ q =>
    ops.ropeInterleave (q.take (min qkRope hd)) (s0 + si) (min qkRope hd) theta
      ++ q.drop (min qkRope hd)) (fun si _ i _ y hy => ?_) fun si _ i _ p y q hp hy => ?_).trans ?_
  · rw [List.length_append, ops.ropeInterleave_length, List.length_take, List.length_drop, hy]
    omega
  · have hfits : 0 + min qkRope hd ≤ y.length := by omega
    have hin := within_within (q := q) hp hfits (ropeRow ops (min qkRope hd) theta (0 + s0 + si))
    rw [Nat.add_zero] at hin
    rw [hin, within, if_pos hfits, ropeRow, if_pos hrope, Nat.zero_add, Nat.zero_add]
    rfl
  · refine congrArg some (blocks_congr fun si hsi => ?_)
    have hrow := rowOf_byRow (d := w.wq.i) (x := qLora.drop (s0 * w.wq.i)) w.wq.dot_length hsi
    have htail : rowOf w.wq.i (qLora.drop (s0 * w.wq.i)) si = rowOf w.wq.i qLora (s0 + si) := by
      rw [rowOf, rowOf, List.drop_drop, Nat.add_mul]
    rw [h.wq_o, htail] at hrow
    rw [← rowOf, hrow]
    rfl

omit [LinearOrder α] in
/-- **The batch of a prompt**: the row `si` of what is projected is the token `s0 + si`'s. -/
theorem project_filled (h : Shaped w x qLora sLen nh hd)
    (hrope : 0 < sLen → min qkRope hd ≤ 512) :
    ∃ b, project ops gpu w x qLora sLen nh hd indexTopk qkRope theta 0 = some b ∧
      Filled ops gpu w x qLora sLen nh hd indexTopk qkRope theta b := by
  have hkeys : matmulQt (sLen * hd) x w.wk sLen = some (byRow w.wk.i w.wk.dot x sLen) :=
    matmulQt_of_shape _ h.x_length (by rw [h.wk_o])
  unfold project
  simp only [hkeys, Option.bind_eq_bind, Option.bind_some, keys_eq h hrope, Nat.sub_zero]
  set s0 := min indexTopk sLen
  have hs0 : s0 ≤ sLen := Nat.min_le_right _ _
  split
  next h0 =>
    exact ⟨_, rfl, rfl, rfl, by rw [h0]; rfl, by rw [h0]; rfl, Or.inl rfl⟩
  next =>
    have hq : s0 * w.wq.i ≤ qLora.length := by
      rw [h.qLora_length]
      exact Nat.mul_le_mul_right _ hs0
    have hx : s0 * w.wk.i ≤ x.length := by
      rw [h.x_length]
      exact Nat.mul_le_mul_right _ hs0
    have hqi : matmulQt ((sLen - s0) * (nh * hd)) (qLora.drop (s0 * w.wq.i)) w.wq (sLen - s0)
        = some (byRow w.wq.i w.wq.dot (qLora.drop (s0 * w.wq.i)) (sLen - s0)) :=
      matmulQt_of_shape _ (by rw [List.length_drop, h.qLora_length, Nat.sub_mul])
        (by rw [h.wq_o])
    have hhw : matmulQt ((sLen - s0) * nh) (x.drop (s0 * w.wk.i)) w.wp (sLen - s0)
        = some (byRow w.wk.i w.wp.dot (x.drop (s0 * w.wk.i)) (sLen - s0)) := by
      rw [← h.wp_i]
      exact matmulQt_of_shape _ (by rw [List.length_drop, h.x_length, h.wp_i, Nat.sub_mul])
        (by rw [h.wp_o])
    simp only [if_pos hq, if_pos hx, Option.bind_some, hqi, hhw,
      queries_eq h (hrope (by omega))]
    refine ⟨_, rfl, rfl, rfl, rfl, ?_, Or.inr rfl⟩
    refine blocks_congr fun si _ => ?_
    rw [rowOf, rowOf, List.drop_drop, Nat.add_mul]

/-! ### The selections -/

variable {b : Batched α}

/-- **A token's selection** is that of its causal scores, its row found in the batch. -/
theorem selectFor_eq (h : Shaped w x qLora sLen nh hd) (hkernel : Kernel ops gpu sLen nh hd)
    (hb : Filled ops gpu w x qLora sLen nh hd indexTopk qkRope theta b) {s : Nat} (hs : s < sLen)
    (out : List Nat) :
    selectFor ops b sLen nh hd indexTopk 0 out s
      = if s + 1 ≤ indexTopk then some out
        else selectTopk (causalScores ops w x qLora nh hd qkRope theta s) indexTopk := by
  have hs0 := hb.s0
  unfold selectFor
  simp only [isDense, Nat.zero_add, decide_eq_true_eq]
  split
  next => rfl
  next hdense =>
    have hrow : b.s0 + (s - b.s0) = s := by omega
    have hlt : s - b.s0 < sLen - b.s0 := by omega
    rw [if_neg (by omega)]
    have hqi : Gqa.readSlice b.qiAll ((s - b.s0) * (nh * hd)) (nh * hd)
        = some (queryAt ops w qLora nh hd qkRope theta s) := by
      rw [hb.qiAll, Gqa.readSlice_blocks (fun i _ => length_queryAt h _) hlt, hrow]
    have hhw : Gqa.readSlice b.hwAll ((s - b.s0) * nh) nh
        = some (w.wp.dot (rowOf w.wk.i x s)) := by
      rw [hb.hwAll, Gqa.readSlice_blocks (fun i _ => by rw [w.wp.dot_length, h.wp_o]) hlt, hrow]
    have hkey : ∀ t < sLen, Gqa.readSlice b.keys (t * hd) hd
        = some (keyAt ops w x hd qkRope theta t) := fun t ht => by
      rw [hb.keys, Gqa.readSlice_blocks (fun i _ => length_keyAt h i) ht]
    cases hgpu : b.scoresAll with
    | none =>
      have hscores : ((List.range (s + 1)).mapM fun t =>
          (Gqa.readSlice b.keys (t * hd) hd).bind fun kt =>
            some (indexerScore ops.sqrt (queryAt ops w qLora nh hd qkRope theta s) kt
              (w.wp.dot (rowOf w.wk.i x s)) nh hd))
          = some (causalScores ops w x qLora nh hd qkRope theta s) := by
        refine Vectors.mapM_eq_map fun t ht => ?_
        have ht' := List.mem_range.mp ht
        rw [hkey t (by omega), Option.bind_some]
      simp only [hqi, hhw, Option.bind_eq_bind, Option.bind_some, hscores]
    | some all =>
      -- the rows the kernel reads are the rows the loop would
      have hcall := hb.scoresAll.resolve_left (by rw [hgpu]; exact Option.some_ne_none _)
      obtain ⟨hlen, hall⟩ := hkernel _ _ _ _ _ _ (hcall.symm.trans hgpu)
      have hend : (s - b.s0) * sLen + (s + 1) ≤ all.length := by
        have hle := Nat.mul_le_mul_right sLen hlt
        rw [Nat.succ_mul] at hle
        omega
      have hscores : Gqa.readSlice all ((s - b.s0) * sLen) (s + 1)
          = some (causalScores ops w x qLora nh hd qkRope theta s) := by
        rw [Gqa.readSlice, if_pos hend, Option.some_inj]
        refine List.ext_getElem ?_ fun t h₁ h₂ => ?_
        · rw [List.length_take, List.length_drop, causalScores, List.length_map, List.length_range]
          omega
        · rw [causalScores, List.length_map, List.length_range] at h₂
          have ht := hall (s - b.s0) hlt t (by omega) (by omega)
          rw [Gqa.rowOf_of_readSlice hqi, Gqa.rowOf_of_readSlice (hkey t (by omega)),
            Gqa.rowOf_of_readSlice hhw] at ht
          rw [List.getElem_take, List.getElem_drop, ← List.getD_eq_getElem _ 0, ht]
          simp only [causalScores, List.getElem_map, List.getElem_range]
      simp only [hscores, Option.bind_eq_bind, Option.bind_some]

omit [Field α] [LinearOrder α] in
/-- An entry of a chunk is an entry of the list. -/
theorem getElem?_of_mem_chunks {β : Type} {k : Nat} {l : List β} {c : List β × Nat}
    (hc : c ∈ (chunks k l).zipIdx) {e : β × Nat} (he : e ∈ c.1.zipIdx) :
    l[c.2 * k + e.2]? = some e.1 := by
  have hchunk := List.mem_zipIdx_iff_getElem?.mp hc
  have hentry := List.mem_zipIdx_iff_getElem?.mp he
  rw [chunks, List.getElem?_map] at hchunk
  obtain ⟨ci, hci, hpiece⟩ := Option.map_eq_some_iff.mp hchunk
  obtain ⟨hlt, hget⟩ := List.getElem?_eq_some_iff.mp hci
  rw [List.getElem_range] at hget
  subst hget
  rw [← hpiece] at hentry
  have hin : e.2 < k := by
    obtain ⟨hlt', -⟩ := List.getElem?_eq_some_iff.mp hentry
    rw [List.length_take] at hlt'
    omega
  rw [List.getElem?_take_of_lt hin, List.getElem?_drop] at hentry
  exact hentry

omit [Field α] [LinearOrder α] in
/-- What is done to the entries of every chunk, by their index, is done to all. -/
theorem flatten_chunks_indexed {β γ : Type} (f : Nat → γ) {k : Nat} (hk : 0 < k) (l : List β) :
    (((chunks k l).zipIdx).map fun c => c.1.zipIdx.map fun e => f (c.2 * k + e.2)).flatten
      = (List.range l.length).map f := by
  have hmap : ((chunks k l).zipIdx).map (fun c => c.1.zipIdx.map fun e => f (c.2 * k + e.2))
      = (chunks k (List.range l.length)).map (List.map f) := by
    refine List.ext_getElem ?_ fun ci h₁ h₂ => ?_
    · rw [List.length_map, List.length_zipIdx, List.length_map, chunks, chunks, List.length_map,
        List.length_map, List.length_range, List.length_range, List.length_range]
    · rw [List.getElem_map, List.getElem_map, List.getElem_zipIdx, Nat.zero_add]
      refine List.ext_getElem ?_ fun j h₃ h₄ => ?_
      · simp only [chunks, List.length_map, List.length_zipIdx, List.getElem_map,
          List.getElem_range, List.length_take, List.length_drop, List.length_range]
      · simp only [chunks, List.getElem_map, List.getElem_zipIdx, List.getElem_range,
          List.getElem_take, List.getElem_drop, Nat.zero_add]
  rw [hmap, ← List.map_flatten, flatten_chunks hk]

/-- What `indexer_forward` is to return for a prompt: nothing for a token with no more than
`indexTopk` keys, and for every other the selection of its causal scores. -/
def Applies (ops : RowOps α) (w : Weights α) (x qLora : List α) (sLen nh hd indexTopk qkRope : Nat)
    (theta : α) (ret : Option (List (List Nat))) : Prop :=
  ∃ sel, ret = some sel ∧ sel.length = sLen ∧ ∀ s < sLen,
    if s + 1 ≤ indexTopk then sel[s]? = some []
    else ∃ row, sel[s]? = some row ∧
      selectTopk (causalScores ops w x qLora nh hd qkRope theta s) indexTopk = some row

omit [Field α] in
theorem selectTopk_isSome [Zero α] (scores : List α) {k : Nat} (hk : 0 < k) :
    ∃ sel, selectTopk scores k = some sel := by
  rcases Nat.lt_or_ge k scores.length with hlt | hle
  · obtain ⟨_, -, hret⟩ := selectTopk_sparse hk hlt
    exact ⟨_, hret⟩
  · exact ⟨_, selectTopk_dense hle⟩

omit [LinearOrder α] in
/-- A longer rotation panics at the first key. -/
theorem project_none (h : Shaped w x qLora sLen nh hd) (hpos : 0 < sLen)
    (hrope : 512 < min qkRope hd) :
    project ops gpu w x qLora sLen nh hd indexTopk qkRope theta 0 = none := by
  have hkeys : matmulQt (sLen * hd) x w.wk sLen = some (byRow w.wk.i w.wk.dot x sLen) :=
    matmulQt_of_shape _ h.x_length (by rw [h.wk_o])
  have hrot : ∀ v : List α, ropeRow ops (min qkRope hd) theta (0 + 0) v = none := fun v =>
    if_neg (Nat.not_le.mpr hrope)
  have hkey : ∀ k : List α, keyRow ops w (min qkRope hd) theta (0 + 0) k = none := by
    intro k
    unfold keyRow
    rw [within_none hrot, ite_self]
  obtain ⟨n, rfl⟩ := Nat.exists_eq_succ_of_ne_zero (Nat.ne_of_gt hpos)
  unfold project
  simp only [hkeys, Option.bind_eq_bind, Option.bind_some, List.range_succ_eq_map,
    List.foldlM_cons, within_none hkey, Option.bind_none]

/-- **`indexer_forward` selects from each token's causal scores**, exactly where the rotated
part of a row fits the snapshot that the rotation takes of it. -/
theorem indexerForward_iff (h : Shaped w x qLora sLen nh hd) (hkernel : Kernel ops gpu sLen nh hd)
    (hk : 0 < indexTopk) (nthreads : Nat) :
    Applies ops w x qLora sLen nh hd indexTopk qkRope theta
        (indexerForward ops gpu nthreads w x qLora sLen nh hd indexTopk qkRope theta 0)
      ↔ sLen = 0 ∨ min qkRope hd ≤ 512 := by
  constructor
  · rintro ⟨sel, hret, -⟩
    by_contra hbad
    rw [not_or] at hbad
    have hnone : project ops gpu w x qLora sLen nh hd indexTopk qkRope theta 0 = none :=
      project_none h (Nat.pos_of_ne_zero hbad.1) (Nat.lt_of_not_le hbad.2)
    rw [indexerForward, hnone] at hret
    cases hret
  · intro hfits
    obtain ⟨b, hb, hfilled⟩ : ∃ b,
        project ops gpu w x qLora sLen nh hd indexTopk qkRope theta 0 = some b ∧
          Filled ops gpu w x qLora sLen nh hd indexTopk qkRope theta b :=
      project_filled h fun hpos => hfits.resolve_left (by omega)
    have hrows : ∀ s, ∃ row, s < sLen → selectFor ops b sLen nh hd indexTopk 0 [] s = some row ∧
        if s + 1 ≤ indexTopk then row = []
        else selectTopk (causalScores ops w x qLora nh hd qkRope theta s) indexTopk
          = some row := by
      intro s
      obtain ⟨row, hrow⟩ := selectTopk_isSome
        (causalScores ops w x qLora nh hd qkRope theta s) hk
      refine ⟨if s + 1 ≤ indexTopk then [] else row, fun hs => ?_⟩
      rw [selectFor_eq h hkernel hfilled hs]
      by_cases hdense : s + 1 ≤ indexTopk
      · rw [if_pos hdense, if_pos hdense, if_pos hdense]
        exact ⟨rfl, rfl⟩
      · rw [if_neg hdense, if_neg hdense, if_neg hdense]
        exact ⟨hrow, hrow⟩
    choose rows hrows using hrows
    set chunk := max ((sLen + nthreads - 1) / nthreads) 1
    have hchunk : 0 < chunk := by omega
    -- the chunks of the threads are one map over the tokens
    have hall : ((chunks chunk (List.replicate sLen ([] : List Nat))).zipIdx).mapM
        (fun c => c.1.zipIdx.mapM fun e =>
          selectFor ops b sLen nh hd indexTopk 0 e.1 (c.2 * chunk + e.2))
        = some (((chunks chunk (List.replicate sLen ([] : List Nat))).zipIdx).map fun c =>
          c.1.zipIdx.map fun e => rows (c.2 * chunk + e.2)) := by
      refine Vectors.mapM_eq_map fun c hc => Vectors.mapM_eq_map fun e he => ?_
      obtain ⟨hlt, hout⟩ := List.getElem?_eq_some_iff.mp (getElem?_of_mem_chunks hc he)
      rw [List.length_replicate] at hlt
      rw [List.getElem_replicate] at hout
      rw [← hout]
      exact (hrows _ hlt).1
    refine ⟨(List.range sLen).map rows, ?_, by rw [List.length_map, List.length_range],
      fun s hs => ?_⟩
    · unfold indexerForward
      simp only [hb, Option.bind_eq_bind, Option.bind_some]
      have hflat := flatten_chunks_indexed rows hchunk (List.replicate sLen ([] : List Nat))
      rw [List.length_replicate] at hflat
      rw [← hflat]
      exact (congrArg (Option.bind · _) hall).trans rfl
    · have hrow := (hrows s hs).2
      rw [List.getElem?_map, List.getElem?_range hs, Option.map_some]
      split
      next hdense =>
        rw [if_pos hdense] at hrow
        rw [hrow]
      next hsparse =>
        rw [if_neg hsparse] at hrow
        exact ⟨_, rfl, hrow⟩

/-- **The selection of the sparse attention.** `select_topk` returns the best positions where
they fit in 32 bits, and `indexer_forward` returns for a prompt what `select_topk` makes of
the causal scores of each token, where the rotated part of a row fits its snapshot. -/
theorem dsa_selects_iff {κ : Type} [LinearOrder κ] [Zero κ] {scores : List κ} {k : Nat}
    (hk : 0 < k) (h : Shaped w x qLora sLen nh hd) (hkernel : Kernel ops gpu sLen nh hd)
    (htopk : 0 < indexTopk) (nthreads : Nat) :
    ((∃ sel, selectTopk scores k = some sel ∧ sel.Pairwise (· < ·) ∧
        TopK.Selects (scores.getD · 0) scores.length k sel) ↔ Fits scores k) ∧
      (Applies ops w x qLora sLen nh hd indexTopk qkRope theta
          (indexerForward ops gpu nthreads w x qLora sLen nh hd indexTopk qkRope theta 0)
        ↔ sLen = 0 ∨ min qkRope hd ≤ 512) :=
  ⟨selectTopk_iff hk, indexerForward_iff h hkernel htopk nthreads⟩

end

/-! ### Two prompts -/

theorem plain_layernorm_length : ∀ (v _ _ : List ℚ) (_ : ℚ), v.length = v.length :=
  fun _ _ _ _ => rfl

theorem plain_rope_length : ∀ (v : List ℚ) (_ _ : Nat) (_ : ℚ), v.length = v.length :=
  fun _ _ _ _ => rfl

/-- Row functions that change nothing. -/
def plainOps : RowOps ℚ := ⟨fun v _ _ _ => v, fun v _ _ _ => v, id, plain_layernorm_length,
  plain_rope_length⟩

/-- A tensor with `o` rows of ones. -/
def onesTensor (o i : Nat) : QTensor ℚ :=
  ⟨o, i, fun row => List.replicate o row.sum, fun _ => List.length_replicate⟩

/-- An indexer of one head. -/
def plainIndexer (hd : Nat) : Weights ℚ :=
  ⟨onesTensor hd 1, List.replicate hd 1, List.replicate hd 0, onesTensor hd 1, onesTensor 1 1⟩

theorem plainIndexer_shaped (hd sLen : Nat) :
    Shaped (plainIndexer hd) (List.replicate sLen 1) (List.replicate sLen 1) sLen 1 hd where
  wk_o := rfl
  wq_o := (Nat.one_mul hd).symm
  wp_o := rfl
  wp_i := rfl
  knormW := List.length_replicate
  knormB := List.length_replicate
  x_length := by rw [List.length_replicate]; exact (Nat.mul_one sLen).symm
  qLora_length := by rw [List.length_replicate]; exact (Nat.mul_one sLen).symm

/-- Three scores, and a prompt of two tokens of which the second selects. -/
theorem dsa_selects_two :
    (∃ sel, selectTopk [3, 1, (3 : ℚ)] 2 = some sel ∧ sel.Pairwise (· < ·) ∧
        TopK.Selects ([3, 1, (3 : ℚ)].getD · 0) 3 2 sel) ∧
      Applies plainOps (plainIndexer 1) [1, 1] [1, 1] 2 1 1 1 1 0
        (indexerForward plainOps (fun _ _ _ _ _ => none) 4 (plainIndexer 1) [1, 1] [1, 1] 2 1 1 1
          1 0 0) := by
  have hkernel : Kernel plainOps (fun _ _ _ _ _ => none) 2 1 1 :=
    fun _ _ _ _ _ _ hall => by cases hall
  have hboth := @dsa_selects_iff ℚ _ _ plainOps (fun _ _ _ _ _ => none) (plainIndexer 1) [1, 1]
    [1, 1] 2 1 1 1 1 0 ℚ _ _ [3, 1, 3] 2 (by decide) (plainIndexer_shaped 1 2) hkernel (by decide) 4
  refine ⟨hboth.1.mpr ⟨fun t ht hbig => ?_, fun h => ?_⟩, hboth.2.mpr (Or.inr (by decide))⟩
  · have hlt : t < 3 := ht
    omega
  · have heq : 3 = 2 ^ 32 := h.2
    omega

/-- **Both halves fail somewhere**: of `2 ^ 32` equal scores none is selected, though all may
be kept; and a prompt of one token whose rows are rotated in 1024 entries panics. -/
theorem positions_wrap :
    selectTopk (List.replicate (2 ^ 32) (0 : ℚ)) (2 ^ 32) = some [] ∧
      indexerForward plainOps (fun _ _ _ _ _ => none) 4 (plainIndexer 1024) [1] [1] 1 1 1024 1
        1024 0 0 = none := by
  refine ⟨?_, ?_⟩
  · rw [selectTopk_dense (Nat.le_of_eq List.length_replicate), List.length_replicate, Nat.mod_self]
    rfl
  · have hnone : project plainOps (fun _ _ _ _ _ => none) (plainIndexer 1024) [1] [1] 1 1 1024 1
        1024 0 0 = none := project_none (plainIndexer_shaped 1024 1) Nat.one_pos (by decide)
    rw [indexerForward, hnone]
    rfl

end Colibri.Attention.Dsa
