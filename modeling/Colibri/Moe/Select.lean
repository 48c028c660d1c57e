import Mathlib.Tactic.FieldSimp
import Mathlib.Tactic.NormNum
import Mathlib.Tactic.Positivity
import Mathlib.Tactic.Ring
import Colibri.Lib.Vectors
import Colibri.Moe.Dsv4

/-!
# One rule for two routers

`route` scans for the best expert `k` times, `route_topk` sorts all of them; both take the
first `k` of the same order (`selectTopk_eq`), so the experts with the highest keys, of
equal ones the first. The key has the bias, the weight has not.

`route_topk` divides by the sum of the chosen scores, so its weights sum to the scale.
`route` adds `1e-20` to that sum, as the model it was ported from does: in exact arithmetic
its weights sum to a little less. Under a softmax it reads no bias at all (`routing_rule`).

Scores are numbers of an ordered field, and `exp` is any positive function.
-/

namespace Colibri.Moe

open Colibri.Moe.Dsv4

section

variable {α : Type} [Field α] [LinearOrder α]

/-! ## Scores -/

def sigmoid (exp : α → α) (x : α) : α := 1 / (1 + exp (-x))

/-- The softmax in `route`. No logit is below the start value of its fold. -/
def softmaxScores (exp : α → α) (logits : List α) : List α :=
  let mx := logits.tail.foldl max (logits.headD 0)
  let p := logits.map fun z => exp (z - mx)
  let tot := p.sum
  if 0 < tot then p.map fun v => v / tot else p

/-- The scoring functions of `route`. -/
def scoring (exp : α → α) : Scoring α := ⟨softmaxScores exp, sigmoid exp⟩

/-- The score an expert's weight is made of. -/
def unbiased (s : RouterScore) (exp : α → α) (logits : List α) (e : Nat) : α :=
  match s with
  | .softmax => (softmaxScores exp logits).getD e 0
  | .sigmoid => sigmoid exp (logits.getD e 0)

/-- What `route` compares: under a softmax there is no bias. -/
def routeKey (s : RouterScore) (exp : α → α) (logits bias : List α) (e : Nat) : α :=
  match s with
  | .softmax => unbiased s exp logits e
  | .sigmoid => unbiased s exp logits e + bias.getD e 0

/-- What `route_topk` compares: an empty bias is none. -/
def topkKey (f : Roots α) (logits bias : List α) (e : Nat) : α :=
  if bias.isEmpty then sqrtSoftplus f (logits.getD e 0)
  else sqrtSoftplus f (logits.getD e 0) + bias.getD e 0

/-- The experts with the `k` highest keys, each weighing its score times the factor `c`. -/
structure Picks (key score : Nat → α) (n k : Nat) (c : α) (picks : List (Nat × α)) : Prop where
  selects : TopK.Selects key n k (picks.map Prod.fst)
  proportional : ∀ p ∈ picks, p.2 = c * score p.1

/-! ## Scanning is sorting -/

/-- All experts, the best first. -/
def ranking (choice : List α) : List Nat :=
  (List.range choice.length).mergeSort (TopK.better fun e => choice.getD e 0)

theorem ranking_perm (choice : List α) : (ranking choice).Perm (List.range choice.length) :=
  List.mergeSort_perm _ _

theorem length_ranking (choice : List α) : (ranking choice).length = choice.length := by
  rw [(ranking_perm choice).length_eq, List.length_range]

/-- After the first `j`, the scan finds the next. -/
theorem scanBest_ranking {choice : List α} {j : Nat} (hj : j < (ranking choice).length) :
    scanBest choice ((ranking choice).take j) = (ranking choice)[j] := by
  have hlen := length_ranking choice
  have hnd : (ranking choice).Nodup := (ranking_perm choice).nodup_iff.mpr List.nodup_range
  have hsorted : (ranking choice).Pairwise (TopK.better (fun e => choice.getD e 0) · ·) :=
    List.pairwise_mergeSort (TopK.better_trans _) (TopK.better_total _) _
  have hleft : ((ranking choice).take j).length < choice.length := by
    rw [List.length_take]
    omega
  obtain ⟨hlt, hnot, hbest⟩ := scanBest_spec hleft
  have hmem : scanBest choice ((ranking choice).take j) ∈ ranking choice :=
    (ranking_perm choice).mem_iff.mpr (List.mem_range.mpr hlt)
  have hsplit : ranking choice = (ranking choice).take j ++
      (ranking choice)[j] :: (ranking choice).drop (j + 1) := by
    rw [List.getElem_cons_drop, List.take_append_drop]
  have hhere : (ranking choice)[j] ∉ (ranking choice).take j := by
    intro hin
    rw [hsplit] at hnd
    exact (List.nodup_append.mp hnd).2.2 _ hin _ (List.mem_cons_self ..) rfl
  -- it beats what the ranking has next, and the ranking has nothing better left
  have hfirst := hbest _ (List.mem_range.mp ((ranking_perm choice).mem_iff.mp
    (List.getElem_mem hj))) hhere
  generalize scanBest choice ((ranking choice).take j) = best at hmem hnot hfirst ⊢
  rw [hsplit] at hmem hsorted
  rcases List.mem_append.mp hmem with hmem | hmem
  · exact absurd hmem hnot
  · rcases List.mem_cons.mp hmem with heq | hmem
    · exact heq
    · have hnext := (List.pairwise_cons.mp (List.pairwise_append.mp hsorted).2.1).1 _ hmem
      exact TopK.better_antisymm hfirst hnext

/-- **The scan takes the next of the ranking.** -/
theorem selectTopk_take {choice : List α} {j k : Nat} (h : j + k ≤ choice.length) :
    selectTopk choice k ((ranking choice).take j) = (ranking choice).take (j + k) := by
  induction k generalizing j with
  | zero => rfl
  | succ k ih =>
    have hj : j < (ranking choice).length := by
      rw [length_ranking]
      omega
    rw [selectTopk, scanBest_ranking hj, List.take_concat_get' _ _ hj, ih (by omega)]
    congr 1
    omega

/-- **Repeated scans give the first `k` of the sorted experts.** -/
theorem selectTopk_eq {choice : List α} {k : Nat} (h : k ≤ choice.length) :
    selectTopk choice k [] = (ranking choice).take k := by
  have htake : selectTopk choice k ((ranking choice).take 0) = (ranking choice).take (0 + k) :=
    selectTopk_take (by omega)
  rwa [List.take_zero, Nat.zero_add] at htake

/-- `select_topk` selects the highest keys. -/
theorem selects_selectTopk {choice : List α} {key : Nat → α} {n : Nat} (hn : choice.length = n)
    (hkey : ∀ e < n, choice.getD e 0 = key e) (k : Nat) :
    TopK.Selects key n k (selectTopk choice (min k n) []) := by
  subst hn
  have htake : (ranking choice).take (min k choice.length) = (ranking choice).take k := by
    rw [← length_ranking choice, Nat.min_comm, List.take_eq_take_iff]
    omega
  rw [selectTopk_eq (Nat.min_le_right _ _), htake]
  exact (TopK.selects_take _ _ _).congr hkey

/-! ## Weights -/

omit [LinearOrder α] in
/-- The factor between scores and weights. -/
theorem routeWeights_eq (cfg : MoeConfig α) (scores : List α) (idx : List Nat) :
    routeWeights cfg scores idx = idx.map fun e =>
      (if cfg.normTopk then
        cfg.routedScale / ((idx.map fun e => scores.getD e 0).sum + 1 / 10 ^ 20)
      else cfg.routedScale) * scores.getD e 0 := by
  unfold routeWeights
  dsimp only
  split
  · rw [List.map_map, List.map_map]
    refine List.map_congr_left fun e _ => ?_
    simp only [Function.comp_apply]
    ring
  · rw [List.map_map]
    refine List.map_congr_left fun e _ => ?_
    exact mul_comm _ _

omit [LinearOrder α] in
theorem getD_map_sigmoid (exp : α → α) {logits : List α} {e : Nat} (h : e < logits.length) :
    (logits.map (sigmoid exp)).getD e 0 = sigmoid exp (logits.getD e 0) := by
  rw [List.getD_eq_getElem?_getD, List.getElem?_map, List.getD_eq_getElem?_getD,
    List.getElem?_eq_getElem h]
  rfl

/-- **What `route` picks**, whatever it scores with. -/
theorem route_eq (cfg : MoeConfig α) (exp : α → α) (logits bias : List α) :
    let r := route cfg (scoring exp) logits bias
    let score := unbiased cfg.routerScore exp logits
    TopK.Selects (routeKey cfg.routerScore exp logits bias) logits.length (asUsize cfg.topk) r.1 ∧
      r.2 = r.1.map fun e =>
        (if cfg.normTopk then cfg.routedScale / ((r.1.map score).sum + 1 / 10 ^ 20)
        else cfg.routedScale) * score e := by
  intro r score
  -- the scores the weights are read from agree with `score` on the experts chosen
  have hgoal : ∀ (choice scores : List α), choice.length = logits.length →
      (∀ e < logits.length, choice.getD e 0 = routeKey cfg.routerScore exp logits bias e) →
      (∀ e < logits.length, scores.getD e 0 = score e) →
      r = (selectTopk choice (min (asUsize cfg.topk) logits.length) [],
        routeWeights cfg scores
          (selectTopk choice (min (asUsize cfg.topk) logits.length) [])) →
      TopK.Selects (routeKey cfg.routerScore exp logits bias) logits.length (asUsize cfg.topk) r.1 ∧
        r.2 = r.1.map fun e =>
          (if cfg.normTopk then cfg.routedScale / ((r.1.map score).sum + 1 / 10 ^ 20)
          else cfg.routedScale) * score e := by
    intro choice scores hlen hkey hscore hr
    have hsel := selects_selectTopk hlen hkey (asUsize cfg.topk)
    have hsame : ∀ e ∈ selectTopk choice (min (asUsize cfg.topk) logits.length) [],
        scores.getD e 0 = score e := fun e he => hscore e ((hsel.mem_iff e).mp he).1
    rw [hr]
    refine ⟨hsel, ?_⟩
    rw [routeWeights_eq, List.map_congr_left hsame]
    exact List.map_congr_left fun e he => by rw [hsame e he]
  cases hs : cfg.routerScore with
  | softmax =>
    rw [hs] at hgoal
    refine hgoal ((List.range logits.length).map fun e => (softmaxScores exp logits).getD e 0)
      ((List.range logits.length).map fun e => (softmaxScores exp logits).getD e 0)
      (by rw [List.length_map, List.length_range])
      (fun e he => Vectors.getD_tab he) (fun e he => ?_) ?_
    · refine (Vectors.getD_tab he).trans ?_
      show _ = unbiased cfg.routerScore exp logits e
      rw [hs]
      rfl
    · show route cfg (scoring exp) logits bias = _
      unfold route
      rw [hs]
      rfl
  | sigmoid =>
    rw [hs] at hgoal
    refine hgoal ((List.range logits.length).map fun e =>
        (logits.map (sigmoid exp)).getD e 0 + bias.getD e 0) (logits.map (sigmoid exp))
      (by rw [List.length_map, List.length_range]) (fun e he => ?_) (fun e he => ?_) ?_
    · refine (Vectors.getD_tab he).trans ?_
      rw [getD_map_sigmoid exp he]
      rfl
    · rw [getD_map_sigmoid exp he]
      show _ = unbiased cfg.routerScore exp logits e
      rw [hs]
      rfl
    · show route cfg (scoring exp) logits bias = _
      unfold route
      rw [hs]
      rfl

/-- **What `route_topk` picks.** -/
theorem routeTopk_eq (f : Roots α) (logits bias : List α) (k : Nat) (routeScale : α) :
    let score := fun e => sqrtSoftplus f (logits.getD e 0)
    let idx := (routeTopk f logits bias k routeScale).map Prod.fst
    TopK.Selects (topkKey f logits bias) logits.length k idx ∧
      (routeTopk f logits bias k routeScale).map Prod.snd = idx.map fun e =>
        (if 0 < (idx.map score).sum then routeScale / (idx.map score).sum else 0) * score e := by
  intro score idx
  have hscore : ∀ e < logits.length, (logits.map (sqrtSoftplus f)).getD e 0 = score e := by
    intro e he
    rw [List.getD_eq_getElem?_getD, List.getElem?_map, List.getElem?_eq_getElem he]
    show _ = sqrtSoftplus f (logits.getD e 0)
    rw [List.getD_eq_getElem?_getD, List.getElem?_eq_getElem he]
    rfl
  -- the experts taken, before they are put in the order of their ids
  obtain ⟨taken, hsel, hpicks⟩ : ∃ taken,
      TopK.Selects (topkKey f logits bias) logits.length k taken ∧
      routeTopk f logits bias k routeScale = renormed routeScale (taken.map score).sum
        (taken.map fun e => (e, score e)) := by
    have hkey : ∀ e < logits.length, (if bias.isEmpty then
        (logits.map (sqrtSoftplus f)).getD e 0
        else (logits.map (sqrtSoftplus f)).getD e 0 + bias.getD e 0) = topkKey f logits bias e := by
      intro e he
      rw [hscore e he]
      rfl
    have hsel := (TopK.selects_take _ logits.length k).congr hkey
    have hsame : ∀ e ∈ _, (logits.map (sqrtSoftplus f)).getD e 0 = score e :=
      fun e he => hscore e ((hsel.mem_iff e).mp he).1
    refine ⟨_, hsel, ?_⟩
    unfold routeTopk
    dsimp only
    have hlen := (List.mergeSort_perm (List.range logits.length) (TopK.better fun e =>
      if bias.isEmpty then (logits.map (sqrtSoftplus f)).getD e 0
      else (logits.map (sqrtSoftplus f)).getD e 0 + bias.getD e 0)).length_eq
    rw [List.length_range] at hlen
    generalize (List.range logits.length).mergeSort _ = order at hsame hlen ⊢
    have htake : order.take (min k logits.length) = order.take k := by
      rw [← hlen, Nat.min_comm, List.take_eq_take_iff]
      omega
    have hout : (order.take k).map (fun e => (e, (logits.map (sqrtSoftplus f)).getD e 0))
        = (order.take k).map fun e => (e, score e) :=
      List.map_congr_left fun e he => by rw [hsame e he]
    rw [htake, hout, List.map_map]
    rfl
  have hperm : (routeTopk f logits bias k routeScale).Perm (taken.map fun e => (e, score e *
      if (taken.map score).sum > 0 then routeScale / (taken.map score).sum else 0)) := by
    rw [hpicks, renormed]
    refine (List.mergeSort_perm _ _).trans (List.Perm.of_eq ?_)
    rw [List.map_map]
    rfl
  have hids : idx.Perm taken := by
    refine (hperm.map Prod.fst).trans (List.Perm.of_eq ?_)
    rw [List.map_map]
    exact List.map_id taken
  refine ⟨hsel.perm hids.symm, ?_⟩
  rw [(hids.map score).sum_eq, List.map_map]
  refine List.map_congr_left fun p hp => ?_
  obtain ⟨e, -, rfl⟩ := List.mem_map.mp (hperm.mem_iff.mp hp)
  exact mul_comm _ _

/-! ## The rule -/

section

variable {exp : α → α} [IsStrictOrderedRing α]

theorem sigmoid_pos (hexp : ∀ x, 0 < exp x) (x : α) : 0 < sigmoid exp x := by
  have := hexp (-x)
  unfold sigmoid
  positivity

theorem softmaxScores_pos (hexp : ∀ x, 0 < exp x) (logits : List α) :
    (softmaxScores exp logits).length = logits.length ∧
      ∀ p ∈ softmaxScores exp logits, 0 < p := by
  unfold softmaxScores
  dsimp only
  split
  next htot =>
    refine ⟨by rw [List.length_map, List.length_map], fun p hp => ?_⟩
    obtain ⟨v, hv, rfl⟩ := List.mem_map.mp hp
    obtain ⟨z, -, rfl⟩ := List.mem_map.mp hv
    exact div_pos (hexp _) htot
  next =>
    refine ⟨by rw [List.length_map], fun p hp => ?_⟩
    obtain ⟨z, -, rfl⟩ := List.mem_map.mp hp
    exact hexp _

/-- Either way `route` scores, an expert's score is positive. -/
theorem unbiased_pos (hexp : ∀ x, 0 < exp x) (s : RouterScore) {logits : List α} {e : Nat}
    (he : e < logits.length) : 0 < unbiased s exp logits e := by
  cases s with
  | sigmoid => exact sigmoid_pos hexp _
  | softmax =>
    obtain ⟨hlen, hpos⟩ := softmaxScores_pos hexp logits
    have hlt : e < (softmaxScores exp logits).length := by rw [hlen]; exact he
    show 0 < (softmaxScores exp logits).getD e 0
    rw [List.getD_eq_getElem?_getD, List.getElem?_eq_getElem hlt]
    exact hpos _ (List.getElem_mem hlt)

/-- The scores of a selection that is not empty have a positive sum. -/
theorem sum_pos_of_selects {key score : Nat → α} {n k : Nat} {idx : List Nat}
    (h : TopK.Selects key n k idx) (hne : 0 < min k n) (hpos : ∀ e < n, 0 < score e) :
    0 < (idx.map score).sum := by
  refine List.sum_pos _ (fun w hw => ?_) ?_
  · obtain ⟨e, he, rfl⟩ := List.mem_map.mp hw
    exact hpos e ((h.mem_iff e).mp he).1
  · intro hnil
    have hlen := h.length_eq
    rw [List.map_eq_nil_iff.mp hnil, List.length_nil] at hlen
    omega

omit [LinearOrder α] [IsStrictOrderedRing α] in
theorem sum_map_factor (c : α) (score : Nat → α) (idx : List Nat) :
    (idx.map fun e => c * score e).sum = c * (idx.map score).sum := by
  rw [← List.sum_map_mul_left]

omit [LinearOrder α] [IsStrictOrderedRing α] in
theorem proportional_of_map {picks : List (Nat × α)} {c : α} {score : Nat → α}
    (h : picks.map Prod.snd = (picks.map Prod.fst).map fun e => c * score e) :
    ∀ p ∈ picks, p.2 = c * score p.1 := by
  rw [List.map_map] at h
  exact List.map_inj_left.mp h

/-- **The rule of the two routers.** Each takes the experts with the `k` highest keys, of
equal ones the first, and weighs them in proportion to their scores, which have no bias.
Where there is something to renormalise, `route_topk` has weights that sum to the scale, and
`route` falls short of it by the guard in its denominator. -/
theorem routing_rule (hexp : ∀ x, 0 < exp x) (cfg : MoeConfig α) (f : Roots α)
    (logits bias : List α) (k : Nat) (routeScale : α) :
    let r := route cfg (scoring exp) logits bias
    let score := unbiased cfg.routerScore exp logits
    let sm := (r.1.map score).sum + 1 / 10 ^ 20
    let picks := routeTopk f logits bias k routeScale
    let score' := fun e => sqrtSoftplus f (logits.getD e 0)
    let sum := ((picks.map Prod.fst).map score').sum
    Picks (routeKey cfg.routerScore exp logits bias) score logits.length (asUsize cfg.topk)
        (if cfg.normTopk then cfg.routedScale / sm else cfg.routedScale) (r.1.zip r.2) ∧
      r.1.length = r.2.length ∧
      (cfg.normTopk = true → 0 < min (asUsize cfg.topk) logits.length →
        0 < (r.1.map score).sum ∧
          r.2.sum = cfg.routedScale * ((r.1.map score).sum / sm)) ∧
      Picks (topkKey f logits bias) score' logits.length k
        (if 0 < sum then routeScale / sum else 0) picks ∧
      (0 < min k logits.length → (∀ e < logits.length, 0 < score' e) →
        (picks.map Prod.snd).sum = routeScale) := by
  intro r score sm picks score' sum
  obtain ⟨hsel, hw⟩ := route_eq cfg exp logits bias
  obtain ⟨hsel', hw'⟩ := routeTopk_eq f logits bias k routeScale
  have hlen : r.1.length = r.2.length := by
    rw [hw, List.length_map]
  refine ⟨⟨?_, ?_⟩, hlen, fun hnorm hne => ⟨?_, ?_⟩, ⟨hsel', ?_⟩, fun hne hpos => ?_⟩
  · rw [List.map_fst_zip (Nat.le_of_eq hlen)]
    exact hsel
  · refine proportional_of_map ?_
    rw [List.map_fst_zip (Nat.le_of_eq hlen), List.map_snd_zip (Nat.le_of_eq hlen.symm)]
    exact hw
  · exact sum_pos_of_selects hsel hne fun e he => unbiased_pos hexp _ he
  · rw [hw, sum_map_factor, if_pos hnorm]
    exact div_mul_comm _ _ _ |>.trans (mul_comm _ _)
  · exact proportional_of_map hw'
  · have hsum := sum_pos_of_selects hsel' hne hpos
    rw [hw', sum_map_factor, if_pos hsum]
    exact div_mul_cancel₀ _ (ne_of_gt hsum)

end

end

/-! ## Where the rule is not what one expects -/

/-- Roots for which every score is one. -/
def flat : Roots ℚ := ⟨fun _ => 1, fun _ => 1, fun _ => 1, fun _ => zero_le_one⟩

/-- The rule, where it can be used. -/
theorem routing_rule_flat :
    (∀ x : ℚ, 0 < (fun _ => 1 : ℚ → ℚ) x) ∧
      ((routeTopk flat [1, 2, 3] [] 2 5).map Prod.snd).sum = 5 := by
  have hexp : ∀ x : ℚ, 0 < (fun _ => 1 : ℚ → ℚ) x := fun _ => one_pos
  refine ⟨hexp, ?_⟩
  have hrule := routing_rule hexp ⟨1, 3, 2, true, 5, .softmax⟩ flat [1, 2, 3] [] 2 5
  exact hrule.2.2.2.2 (by decide) fun _ _ => one_pos

/-- **Three routings off the plain rule**: with a single expert the weight is less than the
scale; under a softmax a bias of one for the second expert is not seen; no expert at all
sums to nothing. -/
theorem routing_guards :
    (route ⟨1, 1, 1, true, 1, .sigmoid⟩ (scoring fun _ => (1 : ℚ)) [0] [0]).2.sum ≠ 1 ∧
      (route ⟨1, 2, 1, true, 1, .softmax⟩ (scoring fun _ => (1 : ℚ)) [0, 0] [0, 1]).1 = [0] ∧
      ((routeTopk flat [0] [] 0 1).map Prod.snd).sum ≠ 1 := by
  refine ⟨?_, ?_, ?_⟩
  · decide +kernel
  · decide +kernel
  · decide +kernel

end Colibri.Moe
