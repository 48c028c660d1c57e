import Colibri.Moe.Union

/-!
# The experts on the CPU

Expert by expert, the rows that route to it are gathered into a buffer that is kept from call
to call, run through the expert together into another, and scattered back. What is left in the
buffers is without effect (`computeExpertsPartialInto_eq`). What is added to a token is a sum
over the experts in use, each with the weight the token's row of the matrix has for it
(`added_eq`); where a token's experts are distinct, that is the sum over its own
(`added_exact`), and no other token has a say in it.

`held` is the weight that a token's picks give an expert. The matrix of weights is filled by
assignment, so of two picks of one expert only the last is in it.
-/

namespace Colibri.Moe.Cpu

open Colibri.Cluster Batch

/-! ## Buffers that are kept -/

/-- `ExpertScratch` -/
structure ExpertScratch (α : Type) where
  xg : List α
  hh : List α

section

variable {α : Type} [Field α] [LinearOrder α] {a : ActCfg α} {d : Nat}

/-- `resize`, where it is too short. -/
def grow (buf : List α) (n : Nat) : List α :=
  if buf.length < n then buf ++ List.replicate (n - buf.length) 0 else buf

/-- The gather, from row `r` on; `none` is a slice out of range. -/
def gatherInto (activations : List α) (d : Nat) : Nat → List (Nat × α) → List α → Option (List α)
  | _, [], xg => some xg
  | r, p :: rows, xg =>
    if p.1 * d + d ≤ activations.length ∧ r * d + d ≤ xg.length then
      gatherInto activations d (r + 1) rows
        (xg.take (r * d) ++ (rowOf d activations p.1 ++ xg.drop (r * d + d)))
    else none

/-- One expert: gather, its FFN, scatter. -/
def applyOne (f : Scalar α) (ex : Ffn a d) (activations : List α) (rows : List (Nat × α))
    (sc : ExpertScratch α) (out : List α) : Option (ExpertScratch α × List α) :=
  let n := rows.length * d
  let xgBuf := grow sc.xg n
  let hhBuf := grow sc.hh n
  (gatherInto activations d 0 rows (xgBuf.take n)).bind fun xg =>
    (ffnCpu f a ex.gate ex.up ex.down xg rows.length n).map fun hh =>
      (⟨xg ++ xgBuf.drop n, hh ++ hhBuf.drop n⟩, scatter d hh 0 rows out)

/-- The loop over the experts some token routes to. -/
def applyExperts (f : Scalar α) (provider : Provider (Ffn a d)) (layer : Nat)
    (activations : List α) : List (Nat × List (Nat × α)) → ExpertScratch α → List α →
      Outcome IoError (ExpertScratch α × List α)
  | [], sc, out => .ok (sc, out)
  | (e, rows) :: rest, sc, out =>
    match provider.expert layer e with
    | .error err => .error err
    | .ok ex =>
      match applyOne f ex activations rows sc out with
      | none => .panic
      | some (sc, out) => applyExperts f provider layer activations rest sc out

/-- `compute_experts_partial_into`, without a device. -/
def computeExpertsPartialInto (f : Scalar α) (provider : Provider (Ffn a d)) (layer : Nat)
    (experts : List Nat) (weights activations : List α) (nTokens : Nat) (sc : ExpertScratch α)
    (out : List α) : Outcome IoError (ExpertScratch α × List α) :=
  if experts.isEmpty then .ok (sc, out)
  else
    match provider.prefetch layer experts with
    | .error err => .error err
    | .ok () =>
      applyExperts f provider layer activations (perExpert experts weights nTokens) sc out

omit [LinearOrder α] in
theorem le_length_grow (buf : List α) (n : Nat) : n ≤ (grow buf n).length := by
  unfold grow
  split
  next h =>
    rw [List.length_append, List.length_replicate]
    omega
  next h => omega

variable {activations : List α}

omit [Field α] [LinearOrder α] in
/-- The rows gathered are the rows, whatever was in the buffer. -/
theorem gatherInto_eq {rows : List (Nat × α)} {n r : Nat} {xg : List α}
    (hact : activations.length = n * d) (hlt : ∀ p ∈ rows, p.1 < n)
    (hxg : xg.length = (r + rows.length) * d) :
    gatherInto activations d r rows xg = some (xg.take (r * d) ++ gather activations d rows) := by
  induction rows generalizing r xg with
  | nil =>
    rw [gatherInto, gather, List.flatMap_nil, List.append_nil, List.take_of_length_le]
    rw [hxg, List.length_nil, Nat.add_zero]
  | cons p rows ih =>
    have hp := hlt p (List.mem_cons_self ..)
    have hrow : (rowOf d activations p.1).length = d := length_rowOf hact hp
    have hin : p.1 * d + d ≤ activations.length := by
      have := Nat.mul_le_mul_right d hp
      rw [Nat.succ_mul] at this
      omega
    rw [List.length_cons, ← Nat.add_assoc, Nat.add_right_comm, Nat.add_mul, Nat.succ_mul] at hxg
    have htake : (xg.take (r * d)).length = r * d := by
      rw [List.length_take]
      omega
    rw [gatherInto, if_pos ⟨hin, by omega⟩, ih fun q hq => hlt q (List.mem_cons_of_mem _ hq)]
    · have hlen : (xg.take (r * d) ++ rowOf d activations p.1).length = (r + 1) * d := by
        rw [List.length_append, htake, hrow, Nat.succ_mul]
      rw [← List.append_assoc, ← hlen, List.take_left, List.append_assoc]
      rfl
    · rw [List.length_append, List.length_append, htake, hrow, List.length_drop, Nat.add_mul,
        Nat.succ_mul]
      omega

/-- **One expert**, whatever was in the buffers. -/
theorem applyOne_eq (f : Scalar α) (ex : Ffn a d) {rows : List (Nat × α)}
    {n : Nat} (hact : activations.length = n * d) (hlt : ∀ p ∈ rows, p.1 < n)
    (sc : ExpertScratch α) (out : List α) :
    ∃ sc', applyOne f ex activations rows sc out = some (sc',
      scatter d (byRow d (ex.row f) (gather activations d rows) rows.length) 0 rows out) := by
  have hlen : ((grow sc.xg (rows.length * d)).take (rows.length * d)).length =
      (0 + rows.length) * d := by
    rw [List.length_take, Nat.zero_add]
    exact Nat.min_eq_left (le_length_grow _ _)
  have hgather : (gather activations d rows).length = rows.length * d :=
    length_flatMap_rows fun q hq => length_rowOf hact (hlt q hq)
  unfold applyOne
  dsimp only
  rw [gatherInto_eq hact hlt hlen, Option.bind_some, Nat.zero_mul, List.take_zero,
    List.nil_append, ffnCpu_eq f ex hgather, Option.map_some]
  exact ⟨_, rfl⟩

/-- **The buffers kept are without effect**: the call is the one that makes new ones. -/
theorem applyExperts_eq (f : Scalar α) (provider : Provider (Ffn a d)) (layer : Nat)
    {n : Nat} (hact : activations.length = n * d)
    {ps : List (Nat × List (Nat × α))} (hlt : ∀ p ∈ ps, ∀ q ∈ p.2, q.1 < n)
    (sc : ExpertScratch α) (out : List α) :
    match Moe.applyExperts provider (fun ex => byRow d (ex.row f)) layer activations d ps out with
    | .ok out' => ∃ sc', applyExperts f provider layer activations ps sc out = .ok (sc', out')
    | .error err => applyExperts f provider layer activations ps sc out = .error err := by
  induction ps generalizing sc out with
  | nil => exact ⟨sc, rfl⟩
  | cons p ps ih =>
    obtain ⟨e, rows⟩ := p
    rw [Moe.applyExperts, applyExperts]
    cases provider.expert layer e with
    | error err => rfl
    | ok ex =>
      obtain ⟨sc', hone⟩ := applyOne_eq f ex hact (hlt _ (List.mem_cons_self ..)) sc out
      dsimp only
      rw [hone]
      exact ih (fun q hq => hlt q (List.mem_cons_of_mem _ hq)) sc' _

/-- **The buffers that are kept do not matter**: the call is the one of `Moe.Experts`, which has
none. -/
theorem computeExpertsPartialInto_eq (f : Scalar α) (provider : Provider (Ffn a d)) (layer : Nat)
    (experts : List Nat) (weights : List α) {n : Nat}
    (hact : activations.length = n * d) (sc : ExpertScratch α) (out : List α) :
    match Moe.computeExpertsPartialInto provider (fun ex => byRow d (ex.row f)) layer experts
      weights activations n d out with
    | .ok out' => ∃ sc', computeExpertsPartialInto f provider layer experts weights activations n
        sc out = .ok (sc', out')
    | .error err => computeExpertsPartialInto f provider layer experts weights activations n sc
        out = .error err := by
  unfold Moe.computeExpertsPartialInto computeExpertsPartialInto
  by_cases hempty : experts.isEmpty
  · rw [if_pos hempty, if_pos hempty]
    exact ⟨sc, rfl⟩
  · rw [if_neg hempty, if_neg hempty]
    cases provider.prefetch layer experts with
    | error err => rfl
    | ok _ =>
      refine applyExperts_eq f provider layer hact (fun p hp q hq => ?_) sc out
      rw [perExpert_eq] at hp
      obtain ⟨ei, -, rfl⟩ := List.mem_map.mp (List.mem_of_mem_filter hp)
      exact (mem_expertRows.mp hq).1

end

/-! ## What a token's row of the matrix adds -/

section

variable {α : Type} [Ring α]

/-- The weight that is written last for an expert, zero if there is none. -/
def held (ps : List (Nat × α)) (e : Nat) : α :=
  ps.foldl (fun w p => if p.1 = e then p.2 else w) 0

/-- What the experts in use add with those weights. -/
def contribution (uniq : List Nat) (ps : List (Nat × α)) (c : Nat → α) : α :=
  (uniq.map fun e => held ps e * c e).sum

variable {uniq : List Nat} {ps : List (Nat × α)}

theorem held_concat (ps : List (Nat × α)) (p : Nat × α) (e : Nat) :
    held (ps ++ [p]) e = if p.1 = e then p.2 else held ps e := by
  unfold held
  rw [List.foldl_append]
  rfl

theorem held_of_notMem {e : Nat} (h : e ∉ ps.map Prod.fst) : held ps e = 0 := by
  induction ps using List.reverseRecOn with
  | nil => rfl
  | append_singleton ps p ih =>
    rw [List.map_append, List.mem_append, not_or] at h
    rw [held_concat, if_neg fun hp => h.2 (by simp [hp]), ih h.1]

/-- The row of the matrix holds them. -/
theorem weightRow_getD (hu : uniq.Nodup) {r : List Nat × List α} (hmem : ∀ e ∈ r.1, e ∈ uniq)
    {ei : Nat} (hei : ei < uniq.length) :
    (weightRow uniq r).getD ei 0 = held (r.1.zip r.2) uniq[ei] := by
  have hmem' : ∀ p ∈ r.1.zip r.2, p.1 ∈ uniq := fun p hp => hmem _ (List.of_mem_zip hp).1
  have hstart : (List.replicate uniq.length (0 : α)).getD ei 0 = 0 := by
    rw [List.getD_eq_getElem?_getD, List.getElem?_replicate, if_pos hei]
    rfl
  have hlen : (List.replicate uniq.length (0 : α)).length = uniq.length := List.length_replicate
  have hfold : ∀ (ps : List (Nat × α)) (row : List α) (w : α), (∀ p ∈ ps, p.1 ∈ uniq) →
      row.length = uniq.length → row.getD ei 0 = w →
      (ps.foldl (fun row p => row.set (uniq.idxOf p.1) p.2) row).getD ei 0 =
        ps.foldl (fun w p => if p.1 = uniq[ei] then p.2 else w) w := by
    intro ps
    induction ps with
    | nil =>
      intro row w _ _ hw
      exact hw
    | cons p ps ih =>
      intro row w hp hrow hw
      have hidx := List.idxOf_lt_length_of_mem (hp p (List.mem_cons_self ..))
      refine ih _ _ (fun q hq => hp q (List.mem_cons_of_mem _ hq)) ?_ ?_
      · rw [List.length_set, hrow]
      · rw [List.getD_eq_getElem?_getD]
        dsimp only
        by_cases hpe : p.1 = uniq[ei]
        · -- the entry's own column
          rw [if_pos hpe, hpe, hu.idxOf_getElem ei hei,
            List.getElem?_set_self (by rw [hrow]; exact hei)]
          rfl
        · have hne : uniq.idxOf p.1 ≠ ei := by
            intro hcol
            subst hcol
            exact hpe (List.getElem_idxOf hidx).symm
          rw [if_neg hpe, List.getElem?_set_ne hne, ← List.getD_eq_getElem?_getD, hw]
  exact hfold _ _ _ hmem' hlen hstart

/-- A sum over distinct ones that counts one of them. -/
theorem sum_ite_of_nodup (hu : uniq.Nodup) {e : Nat} (he : e ∈ uniq) (g : Nat → α) :
    (uniq.map fun x => if e = x then g x else 0).sum = g e := by
  induction uniq with
  | nil => cases he
  | cons x uniq ih =>
    obtain ⟨hnot, hrest⟩ := List.nodup_cons.mp hu
    rw [List.map_cons, List.sum_cons]
    rcases List.mem_cons.mp he with rfl | he
    · have hzero : (uniq.map fun x => if e = x then g x else 0).sum = 0 := by
        refine List.sum_eq_zero fun y hy => ?_
        obtain ⟨x, hx, rfl⟩ := List.mem_map.mp hy
        exact if_neg fun hex : e = x => hnot (hex ▸ hx)
      rw [if_pos rfl, hzero, add_zero]
    · rw [if_neg fun hex : e = x => hnot (hex ▸ he), zero_add, ih hrest he]

/-- One more entry replaces the weight of its expert. -/
theorem contribution_concat (hu : uniq.Nodup) (c : Nat → α) {p : Nat × α} (hp : p.1 ∈ uniq) :
    contribution uniq (ps ++ [p]) c =
      contribution uniq ps c + (p.2 - held ps p.1) * c p.1 := by
  unfold contribution
  have hsplit : (uniq.map fun e => held (ps ++ [p]) e * c e) =
      uniq.map fun e => held ps e * c e + if p.1 = e then (p.2 - held ps e) * c e else 0 := by
    refine List.map_congr_left fun e _ => ?_
    rw [held_concat]
    split
    next h => rw [sub_mul, add_sub_cancel]
    next => rw [add_zero]
  rw [hsplit, List.sum_map_add, sum_ite_of_nodup hu hp fun e => (p.2 - held ps e) * c e]

/-- Distinct experts each count once. -/
theorem contribution_distinct (hu : uniq.Nodup) (c : Nat → α) (hnd : (ps.map Prod.fst).Nodup)
    (hmem : ∀ p ∈ ps, p.1 ∈ uniq) :
    contribution uniq ps c = (ps.map fun p => p.2 * c p.1).sum := by
  induction ps using List.reverseRecOn with
  | nil =>
    refine List.sum_eq_zero fun y hy => ?_
    obtain ⟨e, -, rfl⟩ := List.mem_map.mp hy
    exact zero_mul _
  | append_singleton ps p ih =>
    rw [List.map_append, List.nodup_append] at hnd
    have hnot : p.1 ∉ ps.map Prod.fst := fun h => hnd.2.2 _ h p.1 (by simp) rfl
    rw [contribution_concat hu c (hmem p (by simp)), held_of_notMem hnot, sub_zero,
      ih hnd.1 fun q hq => hmem q (List.mem_append_left _ hq), List.map_append, List.sum_append,
      List.map_singleton, List.sum_singleton]

end

/-! ## What a call adds -/

section

variable {α : Type} [Field α] [LinearOrder α] {a : ActCfg α} {d : Nat}

omit [LinearOrder α] in
/-- An expert's rows hold a token at most once. -/
theorem sum_expertRows [DecidableEq α] (wMat : List α) (ne : Nat) {n t : Nat} (ht : t < n)
    (ei : Nat) (c : α) :
    ((expertRows wMat ne n ei).map fun p => if p.1 = t then p.2 * c else 0).sum =
      wMat.getD (t * ne + ei) 0 * c := by
  have hskip : ((expertRows wMat ne n ei).map fun p => if p.1 = t then p.2 * c else 0).sum =
      ((List.range n).map fun x => if t = x then wMat.getD (x * ne + ei) 0 * c else 0).sum := by
    unfold expertRows
    induction List.range n with
    | nil => rfl
    | cons x xs ih =>
      rw [List.filterMap_cons, List.map_cons, List.sum_cons, ← ih]
      dsimp only
      by_cases hw : wMat.getD (x * ne + ei) 0 = 0
      · -- a zero weight is not in the list and adds nothing to the sum
        rw [if_neg (not_not_intro hw), hw, zero_mul, ite_self, zero_add]
      · rw [if_pos hw]
        dsimp only
        rw [List.map_cons, List.sum_cons]
        simp only [eq_comm]
  rw [hskip, sum_ite_of_nodup List.nodup_range (List.mem_range.mpr ht) fun x =>
    wMat.getD (x * ne + ei) 0 * c]

/-- **What the columns add to a token** is what its own row of the matrix says. -/
theorem columnSum_rows (f : Scalar α) (model : Nat → Nat → Ffn a d) (layer : Nat)
    {routing : List (List Nat × List α)} {uniq : List Nat} (hu : uniq.Nodup)
    (hmem : ∀ r ∈ routing, ∀ e ∈ r.1, e ∈ uniq) {n : Nat} (hn : routing.length = n) {x : List α}
    (hx : x.length = n * d) {t dd : Nat} {r : List Nat × List α} (hr : routing[t]? = some r)
    (hdd : dd < d) :
    columnSum (fun ex => byRow d (ex.row f)) model layer x d
        (columns uniq (routing.flatMap (weightRow uniq)) n) (t * d + dd) =
      contribution uniq (r.1.zip r.2) fun e =>
        ((model layer e).row f (rowOf d x t)).getD dd 0 := by
  obtain ⟨ht, rfl⟩ := List.getElem?_eq_some_iff.mp hr
  have hlt : ∀ p ∈ columns uniq (routing.flatMap (weightRow uniq)) n, ∀ q ∈ p.2, q.1 < n := by
    intro p hp q hq
    obtain ⟨ei, -, rfl⟩ := List.mem_map.mp hp
    exact (mem_expertRows.mp hq).1
  have huniq : uniq = (List.range uniq.length).map fun ei => uniq.getD ei 0 := by
    refine List.ext_getElem (by simp) fun ei h₁ h₂ => ?_
    simp [h₁]
  unfold columnSum contribution
  conv_rhs => rw [huniq]
  rw [columns, List.map_map, List.map_map]
  refine congrArg List.sum (List.map_congr_left fun ei hei => ?_)
  have hei' := List.mem_range.mp hei
  rw [Function.comp_apply, Function.comp_apply,
    column_byRow (fun ex => ex.row_length f) _ hx
      (hlt _ (List.mem_map.mpr ⟨ei, hei, rfl⟩)) hdd,
    sum_expertRows _ _ (by rw [← hn]; exact ht),
    getD_flatMap (fun r _ => weightRow_length uniq r) ht hei',
    weightRow_getD hu (hmem _ (List.getElem_mem ht)) hei', List.getD_eq_getElem _ _ hei']

/-- **What a call adds to a token**: over the experts in use, with the weights the token's
entries come to. -/
theorem added_eq (f : Scalar α) {provider : Provider (Ffn a d)} {model : Nat → Nat → Ffn a d}
    (hserves : Serves provider model) (layer : Nat) {idxs : List Nat} (ws : List α)
    {x out : List α} {n k eN : Nat} (hi : idxs.length = n * k) (hlt : ∀ e ∈ idxs, e < eN)
    (hx : x.length = n * d) (hout : out.length = n * d) (sc : ExpertScratch α) :
    ∃ uniq wMat, unionAndWeights idxs ws n k eN = some (uniq, wMat) ∧ uniq.Nodup ∧
      (∀ s < n, ∀ e ∈ rowOf k idxs s, e ∈ uniq) ∧
      match computeExpertsPartialInto f provider layer uniq wMat x n sc out with
      | .ok r => r.2.length = n * d ∧ ∀ s < n, ∀ dd < d,
          r.2.getD (s * d + dd) 0 = out.getD (s * d + dd) 0 +
            contribution uniq ((rowOf k idxs s).zip (rowOf k ws s)) fun e =>
              ((model layer e).row f (rowOf d x s)).getD dd 0
      | .error _ => Refuses provider layer uniq wMat n
      | .panic => False := by
  obtain ⟨uniq, hwMat⟩ : ∃ uniq, uniq = uniqOf ((routingOf idxs ws k n).flatMap Prod.fst) :=
    ⟨_, rfl⟩
  have hu : uniq.Nodup := by
    rw [hwMat]
    exact uniqOf_nodup _
  have hlen : (routingOf idxs ws k n).length = n := by
    rw [routingOf, List.length_map, List.length_range]
  have hmem : ∀ s < n, ∀ e ∈ rowOf k idxs s, e ∈ uniq := by
    intro s hs e he
    rw [hwMat]
    exact mem_uniq hs he
  have hrows : ∀ r ∈ routingOf idxs ws k n, ∀ e ∈ r.1, e ∈ uniq := by
    intro r hr e he
    obtain ⟨s, hs, rfl⟩ := List.mem_map.mp hr
    exact hmem s (List.mem_range.mp hs) e he
  have hunion : unionAndWeights idxs ws n k eN =
      some (Moe.unionAndWeights (routingOf idxs ws k n)) := unionAndWeights_eq hi hlt
  have heq : Moe.unionAndWeights (routingOf idxs ws k n) =
      (uniq, (routingOf idxs ws k n).flatMap (weightRow uniq)) := by
    rw [hwMat]
    rfl
  rw [heq] at hunion
  refine ⟨uniq, _, hunion, hu, hmem, ?_⟩
  have hcall := computeExpertsPartialInto_eq f provider layer uniq
    ((routingOf idxs ws k n).flatMap (weightRow uniq)) hx sc out
  revert hcall
  cases hmoe : Moe.computeExpertsPartialInto provider (fun ex => byRow d (ex.row f)) layer uniq
      ((routingOf idxs ws k n).flatMap (weightRow uniq)) x n d out with
  | error err =>
    intro hcall
    rw [hcall]
    exact computeExpertsPartialInto_error_iff.mp ⟨err, hmoe⟩
  | ok out' =>
    rintro ⟨sc', hcall⟩
    rw [hcall]
    have hsum := Moe.computeExpertsPartialInto_eq hserves hmoe
    refine ⟨by rw [computeExpertsPartialInto_length hmoe, hout], fun s hs dd hdd => ?_⟩
    have hi : s * d + dd < out.length := by
      have hle : (s + 1) * d ≤ n * d := Nat.mul_le_mul_right d hs
      rw [Nat.succ_mul] at hle
      omega
    have hget : (routingOf idxs ws k n)[s]? = some (rowOf k idxs s, rowOf k ws s) := by
      rw [routingOf, List.getElem?_map, List.getElem?_range hs]
      rfl
    have hcol := columnSum_rows f model layer hu hrows hlen hx hget hdd
    rw [← hcol, hsum, List.getD_eq_getElem _ _ (by rw [List.length_mapIdx]; exact hi),
      List.getElem_mapIdx, List.getD_eq_getElem _ _ hi]
    rfl

/-- **Each token gets its own experts' outputs**, with its own weights: where no token names an
expert twice, the call adds to a row the sum over the token's pairs, whatever the other tokens
of the batch are and whatever is left in the buffers. It fails only where the provider does. -/
theorem added_exact (f : Scalar α) {provider : Provider (Ffn a d)} {model : Nat → Nat → Ffn a d}
    (hserves : Serves provider model) (layer : Nat) {idxs : List Nat} {ws x out : List α}
    {n k eN : Nat} (hi : idxs.length = n * k) (hw : ws.length = n * k) (hlt : ∀ e ∈ idxs, e < eN)
    (hdistinct : ∀ s < n, (rowOf k idxs s).Nodup) (hx : x.length = n * d)
    (hout : out.length = n * d) (sc : ExpertScratch α) :
    ∃ uniq wMat, unionAndWeights idxs ws n k eN = some (uniq, wMat) ∧
      match computeExpertsPartialInto f provider layer uniq wMat x n sc out with
      | .ok r => r.2.length = n * d ∧ ∀ s < n, ∀ dd < d,
          r.2.getD (s * d + dd) 0 = out.getD (s * d + dd) 0 +
            (((rowOf k idxs s).zip (rowOf k ws s)).map fun p =>
              p.2 * ((model layer p.1).row f (rowOf d x s)).getD dd 0).sum
      | .error _ => Refuses provider layer uniq wMat n
      | .panic => False := by
  obtain ⟨uniq, wMat, hunion, hu, hmem, hcall⟩ := added_eq f hserves layer ws hi hlt hx hout sc
  refine ⟨uniq, wMat, hunion, ?_⟩
  revert hcall
  cases computeExpertsPartialInto f provider layer uniq wMat x n sc out with
  | panic => exact id
  | error err => exact id
  | ok r =>
    rintro ⟨hlen, hrows⟩
    refine ⟨hlen, fun s hs dd hdd => ?_⟩
    have hfst : ((rowOf k idxs s).zip (rowOf k ws s)).map Prod.fst = rowOf k idxs s := by
      rw [List.map_fst_zip]
      rw [length_rowOf hi hs, length_rowOf hw hs]
    rw [hrows s hs dd hdd, contribution_distinct hu _ (by rw [hfst]; exact hdistinct s hs)
      fun p hp => hmem s hs p.1 (List.of_mem_zip hp).1]

end

section

def squares : ActCfg ℚ := ⟨false, 0, 0, true, false, 0, 0⟩

theorem length_first (x : List ℚ) : [x.getD 0 0].length = 1 := rfl

/-- `c` times the square of the ReLU. -/
def squareFfn (c : Nat) : Ffn squares 1 where
  gate := QTensor.empty
  up := ⟨1, 1, fun x => [x.getD 0 0], length_first⟩
  down := ⟨1, 1, fun x => [c * x.getD 0 0], fun _ => rfl⟩
  up_i := rfl
  down_i := rfl
  down_o := rfl
  gate_i := nofun
  gate_o := nofun

def squareExperts : Provider (Ffn squares 1) :=
  ⟨fun _ e => .ok (squareFfn e), fun _ _ => .ok ()⟩

theorem squareExperts_serves : Serves squareExperts fun _ e => squareFfn e :=
  fun _ _ _ h => (Except.ok.inj h).symm

/-- Scalar functions that are not used. -/
def anyScalar : Scalar ℚ := ⟨id, fun x _ _ _ => x, fun x _ _ => x, fun x _ _ _ => x⟩

/-- Two tokens that share an expert, one of them with a weight of zero for its other one. -/
theorem added_exact_two :
    ∃ uniq wMat, unionAndWeights [2, 0, 0, 1] [1/2, 1/2, 3, (0 : ℚ)] 2 2 3 = some (uniq, wMat) ∧
      match computeExpertsPartialInto anyScalar squareExperts 0 uniq wMat [1, 2] 2 ⟨[7, 7, 7], []⟩
        [0, 1] with
      | .ok r => r.2.length = 2 * 1 ∧ ∀ s < 2, ∀ dd < 1,
          r.2.getD (s * 1 + dd) 0 = [0, 1].getD (s * 1 + dd) 0 +
            (((rowOf 2 [2, 0, 0, 1] s).zip (rowOf 2 [1/2, 1/2, 3, (0 : ℚ)] s)).map fun p =>
              p.2 * ((squareFfn p.1).row anyScalar (rowOf 1 [1, 2] s)).getD dd 0).sum
      | .error _ => Refuses squareExperts 0 uniq wMat 2
      | .panic => False := by
  have hi : [2, 0, 0, 1].length = 2 * 2 := rfl
  have hw : [1/2, 1/2, 3, (0 : ℚ)].length = 2 * 2 := rfl
  have hx : [(1 : ℚ), 2].length = 2 * 1 := rfl
  have hout : [(0 : ℚ), 1].length = 2 * 1 := rfl
  have hlt : ∀ e ∈ [2, 0, 0, 1], e < 3 := by decide
  have hdistinct : ∀ s < 2, (rowOf 2 [2, 0, 0, 1] s).Nodup := by decide
  obtain ⟨uniq, wMat, hunion, hcall⟩ :=
    added_exact anyScalar squareExperts_serves 0 hi hw hlt hdistinct hx hout ⟨[7, 7, 7], []⟩
  refine ⟨uniq, wMat, hunion, ?_⟩
  revert hcall
  cases computeExpertsPartialInto anyScalar squareExperts 0 uniq wMat [1, 2] 2 ⟨[7, 7, 7], []⟩
      [0, 1] with
  | ok r => exact id
  | error err => exact id
  | panic => exact id

end

end Colibri.Moe.Cpu
