import Colibri.Moe.Ffn
import Colibri.Moe.Sharded

/-!
# A batch is its rows

`moe` routes a batch as a whole: the experts in use are collected over all tokens, and
each is fetched once and run on all the rows that route to it. In exact arithmetic a row
of the result depends on that row alone, whatever else is in the batch: `moe_eq` gives
it as a function of the row.

The way there is by the columns: an expert's part of the output is a row-by-row function, a token
that does not route to it has no part, and the sum over the experts in use is, for each token, the
sum over its own.
-/

namespace Colibri.Moe

open Colibri.Cluster GroupBy

/-! ## What the experts add to a row -/

section

variable {α E : Type} [Semiring α] [DecidableEq α] {row : E → List α → List α} {d : Nat}
  {activations : List α}

omit [DecidableEq α] in
/-- Scattering rows of length `d`: index `dd` of token `t` gets what the rows of that
token hold there. -/
theorem scattered_rows {g : Nat × α → List α} {t dd r : Nat} (hdd : dd < d)
    {rows : List (Nat × α)} (hg : ∀ p ∈ rows, (g p).length = d) (before : List α)
    (hbefore : before.length = r * d) :
    scattered d (before ++ rows.flatMap g) r rows (t * d + dd)
      = (rows.map (fun p => if p.1 = t then p.2 * (g p).getD dd 0 else 0)).sum := by
  induction rows generalizing r before with
  | nil => rfl
  | cons p rows ih =>
    obtain ⟨t', w⟩ := p
    have hp : (g (t', w)).length = d := hg _ (List.mem_cons_self ..)
    have hnext : (before ++ g (t', w)).length = (r + 1) * d := by
      rw [List.length_append, hbefore, hp, Nat.succ_mul]
    rw [scattered, List.map_cons, List.sum_cons, List.flatMap_cons, ← List.append_assoc,
      ih (fun q hq => hg q (List.mem_cons_of_mem _ hq)) _ hnext]
    congr 1
    by_cases ht : t' = t
    · subst ht
      have hin : t' * d ≤ t' * d + dd ∧ t' * d + dd < t' * d + d := by omega
      rw [if_pos hin, if_pos rfl, Nat.add_sub_cancel_left, List.append_assoc,
        List.getD_append_right _ _ _ _ (by omega), hbefore, Nat.add_sub_cancel_left,
        List.getD_append _ _ _ _ (by omega)]
    · -- another token's row covers other indices
      have hout : ¬ (t' * d ≤ t * d + dd ∧ t * d + dd < t' * d + d) := by
        rintro ⟨hle, hlt⟩
        rcases Nat.lt_or_gt_of_ne ht with h | h
        · have hmul : (t' + 1) * d ≤ t * d := Nat.mul_le_mul_right d h
          rw [Nat.succ_mul] at hmul
          omega
        · have hmul : (t + 1) * d ≤ t' * d := Nat.mul_le_mul_right d h
          rw [Nat.succ_mul] at hmul
          omega
      rw [if_neg hout, if_neg ht]

omit [DecidableEq α] in
/-- An expert's column, at index `dd` of token `t`. -/
theorem column_byRow (hrow : ∀ ex x, (row ex x).length = d) (ex : E) {rows : List (Nat × α)}
    {n : Nat} (hact : activations.length = n * d) (hlt : ∀ p ∈ rows, p.1 < n) {t dd : Nat}
    (hdd : dd < d) :
    column (fun ex => byRow d (row ex)) ex activations d rows (t * d + dd)
      = (rows.map (fun p => if p.1 = t
          then p.2 * (row ex (rowOf d activations t)).getD dd 0 else 0)).sum := by
  have hgather : byRow d (row ex) (gather activations d rows) rows.length
      = rows.flatMap (fun p => row ex (rowOf d activations p.1)) :=
    byRow_flatMap (g := fun p : Nat × α => rowOf d activations p.1)
      (fun p hp => length_rowOf hact (hlt p hp)) (row ex)
  have hsum : scattered d (rows.flatMap fun p => row ex (rowOf d activations p.1)) 0 rows
        (t * d + dd)
      = (rows.map (fun p => if p.1 = t
          then p.2 * (row ex (rowOf d activations p.1)).getD dd 0 else 0)).sum :=
    scattered_rows hdd (fun p _ => hrow ex (rowOf d activations p.1)) []
      (by rw [List.length_nil, Nat.zero_mul])
  rw [column, hgather, hsum]
  congr 1
  refine List.map_congr_left fun p _ => ?_
  split
  next h => rw [h]
  next => rfl

/-- The columns' sum, entry by entry. -/
theorem columnSum_entries (hrow : ∀ ex x, (row ex x).length = d) (model : Nat → Nat → E)
    (layer : Nat) {experts : List Nat} {weights : List α} {n : Nat}
    (hact : activations.length = n * d) {t dd : Nat} (hdd : dd < d) :
    columnSum (fun ex => byRow d (row ex)) model layer activations d
        (columns experts weights n) (t * d + dd)
      = ((entries experts weights n).map (fun q => if q.1 = t
          then q.2.2 * (row (model layer q.2.1) (rowOf d activations t)).getD dd 0
          else 0)).sum := by
  have hlt : ∀ p ∈ columns experts weights n, ∀ q ∈ p.2, q.1 < n := by
    intro p hp q hq
    obtain ⟨ei, _, rfl⟩ := List.mem_map.mp hp
    exact (mem_expertRows.mp hq).1
  rw [columnSum, entries_eq, List.map_flatMap, List.flatMap_def, List.sum_flatten, List.map_map]
  congr 1
  refine List.map_congr_left fun p hp => ?_
  rw [column_byRow hrow _ hact (hlt p hp) hdd, Function.comp_apply, List.map_map]
  rfl

omit [DecidableEq α] in
/-- A sum over numbered entries that counts those of one number. -/
theorem sum_zipIdx_ite {β : Type} (g : β → α) (l : List β) (s k : Nat) :
    ((l.zipIdx k).map (fun p => if p.2 = k + s then g p.1 else 0)).sum
      = (l[s]?.map g).getD 0 := by
  induction l generalizing s k with
  | nil => rfl
  | cons b l ih =>
    rw [List.zipIdx_cons, List.map_cons, List.sum_cons]
    cases s with
    | zero =>
      have hrest : ((l.zipIdx (k + 1)).map (fun p => if p.2 = k + 0 then g p.1 else 0)).sum
        = 0 := by
        refine List.sum_eq_zero fun y hy => ?_
        obtain ⟨p, hp, rfl⟩ := List.mem_map.mp hy
        have hle : k + 1 ≤ p.2 := List.le_snd_of_mem_zipIdx hp
        exact if_neg (by omega)
      rw [hrest, add_zero]
      exact if_pos rfl
    | succ s =>
      have hhead : ¬ k = k + (s + 1) := by omega
      have hshift := ih s (k + 1)
      rw [Nat.add_right_comm, Nat.add_assoc] at hshift
      rw [if_neg hhead, zero_add, hshift]
      rfl

/-- Of the routing's entries, those of token `s`. -/
theorem sum_routedEntries {routing : List (List Nat × List α)} {s : Nat}
    (hs : s < routing.length) (c : Nat → α) :
    ((routedEntries routing).map (fun q => if q.1 = s then q.2.2 * c q.2.1 else 0)).sum
      = ((routing[s].1.zip routing[s].2).map (fun p => p.2 * c p.1)).sum := by
  have hpick := sum_zipIdx_ite
    (fun r : List Nat × List α => ((r.1.zip r.2).map (fun p => p.2 * c p.1)).sum) routing s 0
  rw [List.getElem?_eq_getElem hs, Option.map_some, Option.getD_some] at hpick
  rw [← hpick, routedEntries, List.map_flatMap, List.flatMap_def, List.sum_flatten, List.map_map]
  congr 1
  refine List.map_congr_left fun rt _ => ?_
  obtain ⟨r, t⟩ := rt
  rw [Function.comp_apply, Nat.zero_add]
  dsimp only
  split
  next ht =>
    subst ht
    induction r.1.zip r.2 with
    | nil => rfl
    | cons p ps ih =>
      rw [List.filterMap_cons, List.map_cons, List.sum_cons, ← ih]
      by_cases hw : p.2 = 0
      · -- a zero weight is not in the list and adds nothing to the sum
        rw [if_neg (not_not_intro hw), hw, zero_mul, zero_add]
      · rw [if_pos hw]
        dsimp only
        rw [List.map_cons, List.sum_cons, if_pos rfl]
  next ht =>
    refine List.sum_eq_zero fun y hy => ?_
    obtain ⟨q, hq, rfl⟩ := List.mem_map.mp hy
    obtain ⟨p, _, hpq⟩ := List.mem_filterMap.mp hq
    split at hpq
    · cases hpq
      exact if_neg ht
    · cases hpq

end

/-! ## A row of the result -/

section

variable {α E : Type} [Field α] [LinearOrder α]

/-- A token's logits. -/
def logitsRow (router : List α) (d eN : Nat) (x : List α) : List α :=
  (List.range eN).map fun e =>
    ((List.range d).map fun j => x.getD j 0 * router.getD (e * d + j) 0).sum

/-- A token's routing. -/
def routeRow (f : Scoring α) (cfg : MoeConfig α) (l : MoeLayer α) (x : List α) :
    List Nat × List α :=
  route cfg f (logitsRow l.router (asUsize cfg.hidden) (asUsize cfg.nExperts) x) l.routerBias

/-- What the MoE block makes of one row: the weighted sum of its experts, and the shared
one. -/
def moeRow (f : Scoring α) (row : E → List α → List α) (sharedRow : List α → List α)
    (cfg : MoeConfig α) (l : MoeLayer α) (model : Nat → Nat → E) (layer : Nat) (withShared : Bool)
    (x : List α) : List α :=
  let r := routeRow f cfg l x
  (List.range (asUsize cfg.hidden)).map fun dd =>
    ((r.1.zip r.2).map (fun p => p.2 * (row (model layer p.1) x).getD dd 0)).sum
      + if withShared then (sharedRow x).getD dd 0 else 0

variable {f : Scoring α} {cfg : MoeConfig α} {l : MoeLayer α} {x : List α} {n : Nat}

theorem routeBatch_eq : routeBatch (route cfg f) cfg l x n
    = (List.range n).map (fun s => routeRow f cfg l (rowOf (asUsize cfg.hidden) x s)) := by
  refine List.map_congr_left fun s hs => ?_
  rw [List.mem_range] at hs
  have hlogits : rowOf (asUsize cfg.nExperts)
      (routerMatmul x l.router n (asUsize cfg.hidden) (asUsize cfg.nExperts)) s
      = logitsRow l.router (asUsize cfg.hidden) (asUsize cfg.nExperts)
          (rowOf (asUsize cfg.hidden) x s) := by
    rw [routerMatmul, rowOf_flatMap
      (fun _ _ => by rw [List.length_map, List.length_range]) (by rw [List.length_range]; exact hs),
      List.getElem_range, logitsRow]
    refine List.map_congr_left fun e _ => congrArg List.sum (List.map_congr_left fun j hj => ?_)
    rw [rowOf_getD (List.mem_range.mp hj)]
  exact congrArg (fun lg => route cfg f lg l.routerBias) hlogits

variable {row : E → List α → List α} {sharedRow : List α → List α} {model : Nat → Nat → E}
  {layer : Nat} {withShared : Bool} {provider : Provider E}

variable (l f model layer) in
/-- The routed sum, at index `dd` of token `s`. -/
theorem columnSum_routed (hrow : ∀ ex x, (row ex x).length = asUsize cfg.hidden)
    (hx : x.length = n * asUsize cfg.hidden) {s dd : Nat} (hs : s < n)
    (hdd : dd < asUsize cfg.hidden) :
    columnSum (fun ex => byRow (asUsize cfg.hidden) (row ex)) model layer x (asUsize cfg.hidden)
        (columns (unionAndWeights (routeBatch (route cfg f) cfg l x n)).1
          (unionAndWeights (routeBatch (route cfg f) cfg l x n)).2 n)
        (s * asUsize cfg.hidden + dd)
      = (((routeRow f cfg l (rowOf (asUsize cfg.hidden) x s)).1.zip
          (routeRow f cfg l (rowOf (asUsize cfg.hidden) x s)).2).map (fun p =>
            p.2 * (row (model layer p.1) (rowOf (asUsize cfg.hidden) x s)).getD dd 0)).sum := by
  have hperm := entries_perm_routed (@routeBatch_wf α _ _ f cfg l x n)
  rw [routeBatch_length] at hperm
  have hs' : s < (routeBatch (route cfg f) cfg l x n).length := by
    rw [routeBatch_length]
    exact hs
  have hget : (routeBatch (route cfg f) cfg l x n)[s]
      = routeRow f cfg l (rowOf (asUsize cfg.hidden) x s) := by
    simp only [routeBatch_eq, List.getElem_map, List.getElem_range]
  rw [columnSum_entries hrow model layer hx hdd, (hperm.map _).sum_eq,
    sum_routedEntries hs' fun e => (row (model layer e) (rowOf (asUsize cfg.hidden) x s)).getD dd 0,
    hget]

variable (sharedRow) in
/-- **A batch through `moe` is its rows, each by itself.** -/
theorem moe_eq (hserves : Serves provider model)
    (hrow : ∀ ex x, (row ex x).length = asUsize cfg.hidden)
    (hshared : ∀ x n, l.sharedFfn x n = byRow (asUsize cfg.hidden) sharedRow x n)
    (hsharedRow : ∀ x, (sharedRow x).length = asUsize cfg.hidden)
    (hx : x.length = n * asUsize cfg.hidden) {out : List α}
    (h : moe none (route cfg f) (fun ex => byRow (asUsize cfg.hidden) (row ex)) cfg l layer x n
      withShared provider = .ok out) :
    out = byRow (asUsize cfg.hidden) (moeRow f row sharedRow cfg l model layer withShared) x n := by
  set d := asUsize cfg.hidden with hd
  have hlen : ∀ x, (moeRow f row sharedRow cfg l model layer withShared x).length = d := fun x => by
    rw [moeRow, List.length_map, List.length_range]
  unfold moe at h
  rw [Option.filter_none] at h
  dsimp only at h
  split at h
  · cases h
  next routed hrouted =>
    have hsum := computeExpertsPartialInto_eq hserves hrouted
    cases h
    have hlenRouted : routed.length = n * d := by
      rw [hsum, List.length_mapIdx, List.length_replicate]
    have hlenShared : (byRow d sharedRow x n).length = n * d := byRow_length hsharedRow
    have hadd : addShared l withShared x n routed = routed.mapIdx (fun i v =>
        v + if withShared then (byRow d sharedRow x n).getD i 0 else 0) := by
      cases withShared with
      | false =>
        simp only [addShared, Bool.false_eq_true, if_false, add_zero]
        exact (mapIdx_self _).symm
      | true =>
        simp only [addShared, if_true, hshared]
        exact addInto_eq (by rw [hlenShared, hlenRouted])
    refine ext_rows (by rw [hadd, List.length_mapIdx, hlenRouted]) (byRow_length hlen) ?_
    intro s hs dd hdd
    have hi : s * d + dd < n * d := by
      have hle : (s + 1) * d ≤ n * d := Nat.mul_le_mul_right d hs
      rw [Nat.succ_mul] at hle
      omega
    have hzero : (List.replicate (n * d) (0 : α)).length = n * d := List.length_replicate
    have hright : (byRow d (moeRow f row sharedRow cfg l model layer withShared) x n).getD
        (s * d + dd) 0
        = (moeRow f row sharedRow cfg l model layer withShared (rowOf d x s)).getD dd 0 := by
      rw [← rowOf_getD hdd 0, rowOf_byRow hlen hs]
    rw [hadd, hright, moeRow]
    rw [List.getD_eq_getElem _ _ (by rw [List.length_mapIdx, hlenRouted]; exact hi),
      List.getD_eq_getElem _ _ (by rw [List.length_map, List.length_range]; exact hdd),
      List.getElem_mapIdx, List.getElem_map, List.getElem_range]
    congr 1
    · -- the routed part
      have hcol := columnSum_routed f l model layer hrow hx hs hdd
      rw [← hcol, ← List.getD_eq_getElem _ 0, hsum,
        List.getD_eq_getElem _ _ (by rw [List.length_mapIdx, hzero]; exact hi),
        List.getElem_mapIdx, List.getElem_replicate, zero_add]
      rfl
    · rw [← rowOf_getD hdd 0, rowOf_byRow hsharedRow hs]

end

end Colibri.Moe
