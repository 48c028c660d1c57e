import Mathlib.Algebra.Field.Defs
import Mathlib.Data.List.Induction
import Colibri.Config
import Colibri.Lib.TopK
import Colibri.Moe.Experts

/-!
# Routing a batch

Each token is routed to its `k` best experts, by a scan that takes the best one
not yet chosen. In exact arithmetic a score is above the scan's start value, so the
`k` are distinct (`route_wf`). The routing is then turned into the experts in use
and a dense matrix of weights, whose nonzero entries are the routing's, each
exactly once (`entries_perm_routed`).

The two scoring functions are parameters: nothing here depends on what they give.

* `selectTopk_spec` is the scan, with what it has chosen already.
* `uniqOf` are the experts in use, in the order they come up, and `weightRow` a row of the matrix.
* `mem_routedEntries` and `routedEntries_nodup` are the entries of the routing, each once.
-/

namespace Colibri.Moe

open Colibri.Cluster

/-- `RouterScore`. -/
inductive RouterScore where
  | sigmoid
  | softmax

/-- The configuration the routing reads. -/
structure MoeConfig (α : Type) where
  hidden : Int
  nExperts : Int
  topk : Int
  normTopk : Bool
  routedScale : α
  routerScore : RouterScore

/-- A layer's router. -/
structure Router (α : Type) where
  router : List α
  routerBias : List α

/-- The scoring functions: a softmax over all logits, a sigmoid of each. -/
structure Scoring (α : Type) where
  softmax : List α → List α
  sigmoid : α → α

section

variable {α : Type} [Field α] [LinearOrder α]

/-- The scan for the best expert not chosen: the first of the highest. -/
def scanBest (choice : List α) (chosen : List Nat) : Nat :=
  ((List.range choice.length).foldl (fun (acc : Nat × WithBot α) e =>
    if e ∉ chosen ∧ acc.2 < (choice.getD e 0 : α) then (e, ↑(choice.getD e 0)) else acc) (0, ⊥)).1

/-- The `k` experts chosen, one scan each. -/
def selectTopk (choice : List α) : Nat → List Nat → List Nat
  | 0, chosen => chosen
  | k + 1, chosen => selectTopk choice k (chosen ++ [scanBest choice chosen])

/-- The weights returned: the scores of the chosen, renormalised where the
configuration says so, and scaled. -/
def routeWeights (cfg : MoeConfig α) (scores : List α) (idx : List Nat) : List α :=
  let w := idx.map (fun e => scores.getD e 0)
  let w := if cfg.normTopk then w.map (fun x => x / (w.sum + 1 / 10 ^ 20)) else w
  w.map (fun x => x * cfg.routedScale)

/-- `route`: the bias counts for the selection only. It has an entry for each expert: on a shorter
one the source panics, and here what is missing is 0. -/
def route (cfg : MoeConfig α) (f : Scoring α) (logits bias : List α) : List Nat × List α :=
  let eN := logits.length
  let k := min (asUsize cfg.topk) eN
  match cfg.routerScore with
  | .softmax =>
    let p := (List.range eN).map (fun e => (f.softmax logits).getD e 0)
    let idx := selectTopk p k []
    (idx, routeWeights cfg p idx)
  | .sigmoid =>
    let logit := logits.map f.sigmoid
    let choice := (List.range eN).map (fun e => logit.getD e 0 + bias.getD e 0)
    let idx := selectTopk choice k []
    (idx, routeWeights cfg logit idx)

/-! ## The selection -/

/-- A routing of distinct experts, one weight each. -/
structure Routed (eN : Nat) (r : List Nat × List α) : Prop where
  nodup : r.1.Nodup
  lt : ∀ e ∈ r.1, e < eN
  length_eq : r.1.length = r.2.length

/-- Of the first `m` experts the scan has the best that is not chosen, if any is left. -/
theorem scan_invariant (choice : List α) (chosen : List Nat) (m : Nat) :
    let acc := (List.range m).foldl (fun (acc : Nat × WithBot α) e =>
      if e ∉ chosen ∧ acc.2 < (choice.getD e 0 : α) then (e, ↑(choice.getD e 0)) else acc) (0, ⊥)
    (acc = (0, ⊥) ∧ ∀ e < m, e ∈ chosen) ∨
      (acc.1 < m ∧ acc.1 ∉ chosen ∧ acc.2 = ↑(choice.getD acc.1 0) ∧
        ∀ e < m, e ∉ chosen → TopK.better (fun e => choice.getD e 0) acc.1 e = true) := by
  induction m with
  | zero => exact Or.inl ⟨rfl, fun e he => absurd he (Nat.not_lt_zero e)⟩
  | succ m ih =>
    dsimp only at ih ⊢
    rw [List.range_succ, List.foldl_append, List.foldl_cons, List.foldl_nil]
    generalize (List.range m).foldl _ _ = acc at ih
    split
    next h =>
      refine Or.inr ⟨Nat.lt_succ_self m, h.1, rfl, fun e he hnot => ?_⟩
      rw [TopK.better_iff]
      rcases Nat.lt_succ_iff_lt_or_eq.mp he with he | rfl
      · rcases ih with ⟨-, hall⟩ | ⟨-, -, hval, hbest⟩
        · exact absurd (hall e he) hnot
        · -- the new best is above the old, which beats all before
          have hlt : choice.getD acc.1 0 < choice.getD m 0 := WithBot.coe_lt_coe.mp (hval ▸ h.2)
          rcases TopK.better_iff.mp (hbest e he hnot) with hle | ⟨hle, -⟩
          · exact Or.inl (lt_trans hle hlt)
          · exact Or.inl (hle ▸ hlt)
      · exact Or.inr ⟨rfl, Nat.le_refl _⟩
    next h =>
      rcases ih with ⟨hacc, hall⟩ | ⟨hlt, hnot, hval, hbest⟩
      · refine Or.inl ⟨hacc, fun e he => ?_⟩
        rcases Nat.lt_succ_iff_lt_or_eq.mp he with he | rfl
        · exact hall e he
        · by_contra hnot
          refine h ⟨hnot, ?_⟩
          rw [hacc]
          exact WithBot.bot_lt_coe _
      · refine Or.inr ⟨Nat.lt_succ_of_lt hlt, hnot, hval, fun e he hnot' => ?_⟩
        rcases Nat.lt_succ_iff_lt_or_eq.mp he with he | rfl
        · exact hbest e he hnot'
        · have hle : choice.getD e 0 ≤ choice.getD acc.1 0 := by
            refine not_lt.mp fun hgt => h ⟨hnot', ?_⟩
            rw [hval]
            exact WithBot.coe_lt_coe.mpr hgt
          rw [TopK.better_iff]
          rcases lt_or_eq_of_le hle with hlt' | heq
          · exact Or.inl hlt'
          · exact Or.inr ⟨heq.symm, Nat.le_of_lt hlt⟩

/-- While some expert is left, the scan takes the best that is not chosen. -/
theorem scanBest_spec {choice : List α} {chosen : List Nat} (h : chosen.length < choice.length) :
    scanBest choice chosen < choice.length ∧ scanBest choice chosen ∉ chosen ∧
      ∀ e < choice.length, e ∉ chosen →
        TopK.better (fun e => choice.getD e 0) (scanBest choice chosen) e = true := by
  rcases scan_invariant choice chosen choice.length with ⟨_, hall⟩ | ⟨hlt, hnot, -, hbest⟩
  · have hsub : List.range choice.length ⊆ chosen := fun e he => hall e (List.mem_range.mp he)
    have hle := (List.nodup_range.subperm hsub).length_le
    rw [List.length_range] at hle
    omega
  · exact ⟨hlt, hnot, hbest⟩

/-- **The scan** chooses as many as it is asked for, all distinct and in range. -/
theorem selectTopk_spec {choice : List α} {k : Nat} {chosen : List Nat} (hnd : chosen.Nodup)
    (hlt : ∀ e ∈ chosen, e < choice.length) (h : chosen.length + k ≤ choice.length) :
    (selectTopk choice k chosen).Nodup ∧ ∀ e ∈ selectTopk choice k chosen, e < choice.length := by
  induction k generalizing chosen with
  | zero => exact ⟨hnd, hlt⟩
  | succ k ih =>
    have hleft : chosen.length < choice.length := by omega
    obtain ⟨hbest, hnot, -⟩ := scanBest_spec hleft
    refine ih ?_ ?_ ?_
    · rw [List.nodup_append]
      refine ⟨hnd, List.nodup_singleton _, fun a ha b hb => ?_⟩
      rw [List.mem_singleton] at hb
      rintro rfl
      exact hnot (hb ▸ ha)
    · intro e he
      rcases List.mem_append.mp he with he | he
      · exact hlt e he
      · rw [List.mem_singleton.mp he]
        exact hbest
    · rw [List.length_append, List.length_singleton]
      omega

omit [LinearOrder α] in
theorem routeWeights_length (cfg : MoeConfig α) (scores : List α) (idx : List Nat) :
    (routeWeights cfg scores idx).length = idx.length := by
  unfold routeWeights
  dsimp only
  split <;> simp only [List.length_map]

/-- **A token is routed to distinct experts**, one weight each. -/
theorem route_wf (cfg : MoeConfig α) (f : Scoring α) (logits bias : List α) :
    Routed logits.length (route cfg f logits bias) := by
  have hselect : ∀ choice : List α, choice.length = logits.length → ∀ scores : List α,
      Routed logits.length (selectTopk choice (min (asUsize cfg.topk) logits.length) [],
        routeWeights cfg scores
          (selectTopk choice (min (asUsize cfg.topk) logits.length) [])) := by
    intro choice hlen scores
    have hk : ([] : List Nat).length + min (asUsize cfg.topk) logits.length ≤ choice.length := by
      rw [hlen, List.length_nil, Nat.zero_add]
      exact Nat.min_le_right _ _
    obtain ⟨hnd, hlt⟩ := selectTopk_spec List.nodup_nil (fun e he => nomatch he) hk
    exact ⟨hnd, fun e he => hlen ▸ hlt e he, (routeWeights_length ..).symm⟩
  unfold route
  split
  · exact hselect _ (by rw [List.length_map, List.length_range]) _
  · exact hselect _ (by rw [List.length_map, List.length_range]) _

end

/-! ## The matrix of weights -/

section

variable {α : Type} [Zero α]

/-- `union_and_weights`, the experts in use: each once, in order of first use. -/
def uniqOf (idxs : List Nat) : List Nat :=
  idxs.foldl (fun uniq e => if e ∈ uniq then uniq else uniq ++ [e]) []

/-- A token's row of the weights. -/
def weightRow (uniq : List Nat) (r : List Nat × List α) : List α :=
  (r.1.zip r.2).foldl (fun row p => row.set (uniq.idxOf p.1) p.2) (List.replicate uniq.length 0)

/-- `union_and_weights`: the experts in use and the weights `[S, n_uniq]`, of the
tokens' routings. -/
def unionAndWeights (routing : List (List Nat × List α)) : List Nat × List α :=
  let uniq := uniqOf (routing.flatMap Prod.fst)
  (uniq, routing.flatMap (weightRow uniq))

theorem uniqOf_append (idxs : List Nat) (e : Nat) :
    uniqOf (idxs ++ [e]) = if e ∈ uniqOf idxs then uniqOf idxs else uniqOf idxs ++ [e] := by
  rw [uniqOf, List.foldl_append]
  rfl

theorem uniqOf_nodup (idxs : List Nat) : (uniqOf idxs).Nodup := by
  induction idxs using List.reverseRecOn with
  | nil => exact List.nodup_nil
  | append_singleton idxs e ih =>
    rw [uniqOf_append]
    split
    · exact ih
    next h =>
      rw [List.nodup_append]
      refine ⟨ih, List.nodup_singleton _, fun a ha b hb => ?_⟩
      rw [List.mem_singleton] at hb
      rintro rfl
      exact h (hb ▸ ha)

theorem mem_uniqOf {idxs : List Nat} {e : Nat} : e ∈ uniqOf idxs ↔ e ∈ idxs := by
  induction idxs using List.reverseRecOn with
  | nil => exact Iff.rfl
  | append_singleton idxs e' ih =>
    rw [uniqOf_append, List.mem_append, List.mem_singleton, ← ih]
    split
    next h =>
      constructor
      · exact Or.inl
      · rintro (h' | rfl)
        · exact h'
        · exact h
    next => rw [List.mem_append, List.mem_singleton]

/-- Rows of one length, appended: row-major access. -/
theorem getD_flatMap {β γ : Type} {l : List β} {f : β → List γ} {n : Nat}
    (h : ∀ x ∈ l, (f x).length = n) {t c : Nat} (ht : t < l.length) (hc : c < n) (d : γ) :
    (l.flatMap f).getD (t * n + c) d = (f l[t]).getD c d := by
  induction l generalizing t with
  | nil => exact absurd ht (Nat.not_lt_zero t)
  | cons x l ih =>
    have hx : (f x).length = n := h x (List.mem_cons_self ..)
    rw [List.flatMap_cons]
    cases t with
    | zero =>
      rw [List.getD_append _ _ _ _ (by omega), Nat.zero_mul, Nat.zero_add]
      rfl
    | succ t =>
      have hskip : (t + 1) * n + c - (f x).length = t * n + c := by
        rw [hx, Nat.succ_mul]
        omega
      rw [List.getD_append_right _ _ _ _ (by rw [hx, Nat.succ_mul]; omega), hskip,
        ih (fun y hy => h y (List.mem_cons_of_mem _ hy)) (Nat.lt_of_succ_lt_succ ht)]
      rfl

section

variable {uniq : List Nat} {ps : List (Nat × α)} {row : List α}

omit [Zero α] in
theorem setRow_length : (ps.foldl (fun row p => row.set (uniq.idxOf p.1) p.2) row).length
    = row.length := by
  induction ps generalizing row with
  | nil => rfl
  | cons p ps ih => rw [List.foldl_cons, ih, List.length_set]

theorem setRow_of_ne {c : Nat} (h : ∀ p ∈ ps, uniq.idxOf p.1 ≠ c) :
    (ps.foldl (fun row p => row.set (uniq.idxOf p.1) p.2) row).getD c 0 = row.getD c 0 := by
  induction ps generalizing row with
  | nil => rfl
  | cons p ps ih =>
    rw [List.foldl_cons, ih (fun q hq => h q (List.mem_cons_of_mem _ hq)),
      List.getD_eq_getElem?_getD, List.getElem?_set_ne (h p (List.mem_cons_self ..)),
      ← List.getD_eq_getElem?_getD]

/-- A pick's weight is in its column. -/
theorem setRow_of_mem (hnd : (ps.map Prod.fst).Nodup) (hmem : ∀ p ∈ ps, p.1 ∈ uniq)
    (hlen : row.length = uniq.length) {e : Nat} {w : α} (h : (e, w) ∈ ps) :
    (ps.foldl (fun row p => row.set (uniq.idxOf p.1) p.2) row).getD (uniq.idxOf e) 0 = w := by
  induction ps generalizing row with
  | nil => cases h
  | cons p ps ih =>
    obtain ⟨hhead, htail⟩ := List.nodup_cons.mp hnd
    rw [List.foldl_cons]
    rcases List.mem_cons.mp h with rfl | h
    · -- no later pair has this expert
      have hlater : ∀ q ∈ ps, uniq.idxOf q.1 ≠ uniq.idxOf e := by
        intro q hq heq
        have hqe : q.1 = e := List.idxOf_inj (hmem q (List.mem_cons_of_mem _ hq)) |>.mp heq
        exact hhead (List.mem_map.mpr ⟨q, hq, hqe⟩)
      have hlt : uniq.idxOf e < row.length := by
        rw [hlen]
        exact List.idxOf_lt_length_of_mem (hmem _ (List.mem_cons_self ..))
      rw [setRow_of_ne hlater, List.getD_eq_getElem?_getD, List.getElem?_set_self hlt]
      rfl
    · exact ih htail (fun q hq => hmem q (List.mem_cons_of_mem _ hq))
        (by rw [List.length_set, hlen]) h

end

theorem weightRow_length (uniq : List Nat) (r : List Nat × List α) :
    (weightRow uniq r).length = uniq.length := by
  rw [weightRow, setRow_length, List.length_replicate]

/-- **A row of the weights** holds at an expert's column its weight, and is zero
elsewhere. -/
theorem weightRow_eq_iff {uniq : List Nat} (hu : uniq.Nodup) {eN : Nat} {r : List Nat × List α}
    (hr : Routed eN r) (hmem : ∀ e ∈ r.1, e ∈ uniq) {ei : Nat} (hei : ei < uniq.length) {w : α}
    (hw : w ≠ 0) : (weightRow uniq r).getD ei 0 = w ↔ (uniq[ei], w) ∈ r.1.zip r.2 := by
  have hkeys : (r.1.zip r.2).map Prod.fst = r.1 := List.map_fst_zip (Nat.le_of_eq hr.length_eq)
  have hnd : ((r.1.zip r.2).map Prod.fst).Nodup := by
    rw [hkeys]
    exact hr.nodup
  have hmem' : ∀ p ∈ r.1.zip r.2, p.1 ∈ uniq := fun p hp => hmem _ (List.of_mem_zip hp).1
  have hlen : (List.replicate uniq.length (0 : α)).length = uniq.length := List.length_replicate
  constructor
  · intro h
    by_cases hcol : ∃ p ∈ r.1.zip r.2, uniq.idxOf p.1 = ei
    · obtain ⟨⟨e, w'⟩, hp, hidx⟩ := hcol
      have hset := setRow_of_mem hnd hmem' hlen hp
      have he : uniq[ei] = e := by
        subst hidx
        exact List.getElem_idxOf hei
      have hrow : (weightRow uniq r).getD ei 0 = w' := hidx ▸ hset
      rw [he, ← h, hrow]
      exact hp
    · push Not at hcol
      rw [weightRow, setRow_of_ne hcol, List.getD_eq_getElem?_getD, List.getElem?_replicate,
        if_pos hei] at h
      exact absurd h.symm hw
  · intro h
    have hset := setRow_of_mem hnd hmem' hlen h
    rw [hu.idxOf_getElem] at hset
    exact hset

/-! ## Every weight of the routing, once -/

/-- The (token, expert, weight) of the routing that count: a zero weight adds
nothing and is not applied. -/
def routedEntries [DecidableEq α] (routing : List (List Nat × List α)) : List (Nat × Nat × α) :=
  routing.zipIdx.flatMap fun (r, t) =>
    (r.1.zip r.2).filterMap fun (e, w) => if w ≠ 0 then some (t, e, w) else none

section

variable [DecidableEq α] {routing : List (List Nat × List α)} {eN : Nat}

theorem mem_routedEntries {t e : Nat} {w : α} : (t, e, w) ∈ routedEntries routing ↔
    w ≠ 0 ∧ ∃ h : t < routing.length, (e, w) ∈ routing[t].1.zip routing[t].2 := by
  rw [routedEntries, List.mem_flatMap]
  constructor
  · rintro ⟨⟨r, t'⟩, hr, hmem⟩
    obtain ⟨⟨e', w'⟩, hp, h⟩ := List.mem_filterMap.mp hmem
    dsimp only at h
    split at h
    next hw =>
      cases h
      obtain ⟨ht, hget⟩ := List.getElem?_eq_some_iff.mp (List.mem_zipIdx_iff_getElem?.mp hr)
      dsimp only at ht hget hp
      refine ⟨hw, ht, ?_⟩
      rw [hget]
      exact hp
    next => cases h
  · rintro ⟨hw, ht, hp⟩
    refine ⟨(routing[t], t), ?_, List.mem_filterMap.mpr ⟨(e, w), hp, if_pos hw⟩⟩
    rw [List.mem_zipIdx_iff_getElem?]
    exact List.getElem?_eq_getElem ht

/-- No entry is listed twice. -/
theorem routedEntries_nodup (h : ∀ r ∈ routing, Routed eN r) : (routedEntries routing).Nodup := by
  rw [routedEntries, List.nodup_flatMap]
  constructor
  · rintro ⟨r, t⟩ hr
    have hwf : Routed eN r := h r (List.fst_mem_of_mem_zipIdx hr)
    have hzip : (r.1.zip r.2).Nodup := by
      refine List.Nodup.of_map Prod.fst ?_
      rw [List.map_fst_zip (Nat.le_of_eq hwf.length_eq)]
      exact hwf.nodup
    refine hzip.filterMap ?_
    rintro ⟨e, w⟩ ⟨e', w'⟩ p hp hp'
    dsimp only at hp hp'
    split at hp
    · split at hp'
      · cases hp
        cases hp'
        rfl
      · cases hp'
    · cases hp
  · -- entries of different tokens differ in the token
    have hidx : routing.zipIdx.Pairwise (fun a b => a.2 ≠ b.2) := by
      have hnd : (routing.zipIdx.map Prod.snd).Nodup := by
        rw [List.zipIdx_map_snd]
        exact List.nodup_range'
      exact List.pairwise_map.mp hnd
    refine hidx.imp ?_
    intro a b hab q hq hq'
    obtain ⟨_, _, h₁⟩ := List.mem_filterMap.mp hq
    obtain ⟨_, _, h₂⟩ := List.mem_filterMap.mp hq'
    dsimp only at h₁ h₂
    split at h₁
    · split at h₂
      · exact hab (congrArg Prod.fst (Option.some.inj (h₁.trans h₂.symm)))
      · cases h₂
    · cases h₁

/-- **Every (token, expert, weight) of the routing is in the matrix**, exactly
once, and nothing else is. -/
theorem entries_perm_routed (h : ∀ r ∈ routing, Routed eN r) :
    (entries (unionAndWeights routing).1 (unionAndWeights routing).2 routing.length).Perm
      (routedEntries routing) := by
  have hnd : (unionAndWeights routing).1.Nodup := uniqOf_nodup _
  refine (List.perm_ext_iff_of_nodup (entries_nodup hnd _ _) (routedEntries_nodup h)).mpr ?_
  rintro ⟨t, e, w⟩
  rw [mem_entries, mem_routedEntries]
  set uniq := (unionAndWeights routing).1
  have hrows : ∀ r ∈ routing, (weightRow uniq r).length = uniq.length :=
    fun r _ => weightRow_length uniq r
  -- a token's experts are among those in use
  have hmem : ∀ t, ∀ ht : t < routing.length, ∀ e ∈ routing[t].1, e ∈ uniq := fun t ht e he =>
    mem_uniqOf.mpr (List.mem_flatMap.mpr ⟨_, List.getElem_mem ht, he⟩)
  have hcell : ∀ ht : t < routing.length, ∀ ei, ∀ hei : ei < uniq.length, w ≠ 0 →
      ((unionAndWeights routing).2.getD (t * uniq.length + ei) 0 = w
        ↔ (uniq[ei], w) ∈ routing[t].1.zip routing[t].2) := by
    intro ht ei hei hw
    show (routing.flatMap (weightRow uniq)).getD _ 0 = w ↔ _
    rw [getD_flatMap hrows ht hei]
    exact weightRow_eq_iff hnd (h _ (List.getElem_mem ht)) (hmem t ht) hei hw
  constructor
  · rintro ⟨ht, hw, ei, hei, rfl, hget⟩
    exact ⟨hw, ht, (hcell ht ei hei hw).mp hget⟩
  · rintro ⟨hw, ht, hp⟩
    obtain ⟨ei, hei, rfl⟩ := List.getElem_of_mem (hmem t ht e (List.of_mem_zip hp).1)
    exact ⟨ht, hw, ei, hei, rfl, (hcell ht ei hei hw).mpr hp⟩

end

end

end Colibri.Moe
