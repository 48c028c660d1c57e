import Mathlib.Algebra.Order.Ring.Abs
import Mathlib.Algebra.Order.BigOperators.Group.List
import Mathlib.Data.List.Dedup
import Colibri.Moe.Cpu

/-!
# The experts of DeepSeek-V4

A hash layer reads a token's experts from a table. An expert that the table's row names twice
is merged, its weights added up, so a row can come out short of `k`; it is filled up with the
first expert of the row at a weight of zero. But the matrix of weights is filled by assignment,
and the zero is written last: a row that is short loses its first expert (`padded_contribution`).

`dsv4Moe_adds` is what a token gets: the sum over its picks, less what its row loses, and what the
shared experts make of it. `routed_exact_iff` says for which tables nothing is lost.

The lemmas on `merge` and `renormed` say what the routing keeps of the table's row: its experts that
are in range, once each and in ascending order, with the weights of those named twice added up.
-/

namespace Colibri.Moe.Dsv4

open Colibri.Cluster Batch Cpu

/-! ## Picking -/

/-- The functions the score is made of. -/
structure Roots (α : Type) [Zero α] [LE α] where
  exp : α → α
  ln1p : α → α
  sqrt : α → α
  sqrt_nonneg : ∀ x, 0 ≤ sqrt x

section

variable {α : Type} [Field α] [LinearOrder α]

def softplus (f : Roots α) (z : α) : α := max z 0 + f.ln1p (f.exp (-|z|))

def sqrtSoftplus (f : Roots α) (z : α) : α := f.sqrt (softplus f z)

/-- The weights renormalised and scaled, in the order of the ids. -/
def renormed (routeScale sum : α) (out : List (Nat × α)) : List (Nat × α) :=
  let inv := if sum > 0 then routeScale / sum else 0
  (out.map fun p => (p.1, p.2 * inv)).mergeSort fun p q => decide (p.1 ≤ q.1)

/-- `route_topk`: the bias counts for the selection only. It is empty or has an entry for each expert:
on a shorter one the source panics, and here what is missing is 0. -/
def routeTopk (f : Roots α) (logits bias : List α) (topk : Nat) (routeScale : α) :
    List (Nat × α) :=
  let n := logits.length
  let scores := logits.map (sqrtSoftplus f)
  let key := fun e =>
    if bias.isEmpty then scores.getD e 0 else scores.getD e 0 + bias.getD e 0
  let order := (List.range n).mergeSort (TopK.better key)
  let out := (order.take (min topk n)).map fun e => (e, scores.getD e 0)
  renormed routeScale (out.map Prod.snd).sum out

/-- Merge into the entry of the expert, or begin one. -/
def merge (e : Nat) (w : α) : List (Nat × α) → List (Nat × α)
  | [] => [(e, w)]
  | p :: out => if p.1 = e then (p.1, p.2 + w) :: out else p :: merge e w out

/-- The loop over a table row: the sum, and the entries. An id past the experts is skipped. -/
def mergeRow (f : Roots α) (logits : List α) (st : α × List (Nat × α)) (e : Nat) :
    α × List (Nat × α) :=
  if e < logits.length then
    let w := sqrtSoftplus f (logits.getD e 0)
    (st.1 + w, merge e w st.2)
  else st

def routeHash (f : Roots α) (logits : List α) (eids : List Nat) (routeScale : α) :
    List (Nat × α) :=
  let st := eids.foldl (mergeRow f logits) (0, [])
  renormed routeScale st.1 st.2

end

/-! ## The block -/

/-- What `dsv4_moe` reads of the configuration. -/
structure Config (α : Type) where
  hidden : Int
  nExperts : Int
  topk : Int
  nShared : Int
  routedScale : α

/-- A layer: `tid2eid` is empty where it is not a hash layer. -/
structure Layer (α : Type) extends MoeLayer α where
  tid2eid : List Nat

section

variable {α : Type} [Field α] [LinearOrder α]

/-- `tid2eid.get(base..base + k)`, empty past the end. -/
def tableRow (tid2eid : List Nat) (k t : Nat) : List Nat :=
  if t * k + k ≤ tid2eid.length then rowOf k tid2eid t else []

/-- `k`, the entries of a token. -/
def Config.k (cfg : Config α) : Nat := min (asUsize cfg.topk) (asUsize cfg.nExperts)

def Layer.hash (l : Layer α) (ids : List Int) (sLen : Nat) : Bool :=
  !l.tid2eid.isEmpty && ids.length == sLen

/-- `picked`, for token `si`. -/
def picked (f : Roots α) (cfg : Config α) (l : Layer α) (logits : List α) (ids : List Int)
    (sLen si : Nat) : List (Nat × α) :=
  let row := rowOf (asUsize cfg.nExperts) logits si
  if l.hash ids sLen then
    routeHash f row (tableRow l.tid2eid cfg.k (max (ids.getD si 0) 0).toNat) cfg.routedScale
  else routeTopk f row l.routerBias cfg.k cfg.routedScale

/-- A short list, filled up with its first expert. -/
def padded (k : Nat) (ps : List (Nat × α)) : List (Nat × α) :=
  ps ++ List.replicate (k - ps.length) ((ps.head?.map Prod.fst).getD 0, 0)

/-- The logits of a batch. -/
def logitsOf (cfg : Config α) (l : Layer α) (x : List α) (sLen : Nat) : List α :=
  routerMatmul x l.router sLen (asUsize cfg.hidden) (asUsize cfg.nExperts)

variable {a : ActCfg α}

/-- `dsv4_moe`, as far as the routed experts. -/
def dsv4Routed (f : Roots α) (act : Scalar α) (cfg : Config α) (l : Layer α) (layer : Nat)
    (x : List α) (sLen : Nat) (ids : List Int) (provider : Provider (Ffn a (asUsize cfg.hidden)))
    (sc : ExpertScratch α) (out : List α) : Outcome IoError (ExpertScratch α × List α) :=
  let rows := (List.range sLen).map fun si =>
    padded cfg.k (picked f cfg l (logitsOf cfg l x sLen) ids sLen si)
  match Cpu.unionAndWeights (rows.flatMap fun r => r.map Prod.fst)
      (rows.flatMap fun r => r.map Prod.snd) sLen cfg.k (asUsize cfg.nExperts) with
  | none => .panic
  | some p =>
    Cpu.computeExpertsPartialInto act provider layer p.1 p.2 x sLen sc (out.map fun _ => 0)

def dsv4Moe (f : Roots α) (act : Scalar α) (cfg : Config α) (l : Layer α) (layer : Nat)
    (x : List α) (sLen : Nat) (ids : List Int) (provider : Provider (Ffn a (asUsize cfg.hidden)))
    (sc : ExpertScratch α) (out : List α) : Outcome IoError (ExpertScratch α × List α) :=
  match dsv4Routed f act cfg l layer x sLen ids provider sc out with
  | .ok r => .ok (r.1, addShared l.toMoeLayer (decide (cfg.nShared > 0)) x sLen r.2)
  | .error err => .error err
  | .panic => .panic

end

/-! ## What is picked -/

section

variable {α : Type} [Field α] [LinearOrder α]

variable {out : List (Nat × α)} {f : Roots α} {logits : List α}

omit [LinearOrder α] in
theorem mem_ids_merge {e : Nat} {w : α} {x : Nat} :
    x ∈ (merge e w out).map Prod.fst ↔ x = e ∨ x ∈ out.map Prod.fst := by
  induction out with
  | nil => simp [merge]
  | cons p out ih =>
    rw [merge]
    split
    next h => simp [← h]
    next => rw [List.map_cons, List.mem_cons, ih, List.map_cons, List.mem_cons, or_left_comm]

omit [LinearOrder α] in
theorem nodup_ids_merge {e : Nat} {w : α}
    (h : (out.map Prod.fst).Nodup) : ((merge e w out).map Prod.fst).Nodup := by
  induction out with
  | nil => simp [merge]
  | cons p out ih =>
    obtain ⟨hnot, hrest⟩ := List.nodup_cons.mp h
    rw [merge]
    split
    next => exact h
    next hne =>
      refine List.nodup_cons.mpr ⟨fun hmem => ?_, ih hrest⟩
      rcases mem_ids_merge.mp hmem with heq | hmem
      · exact hne heq
      · exact hnot hmem

omit [LinearOrder α] in
theorem sum_merge (e : Nat) (w : α) (out : List (Nat × α)) :
    ((merge e w out).map Prod.snd).sum = (out.map Prod.snd).sum + w := by
  induction out with
  | nil => simp [merge]
  | cons p out ih =>
    rw [merge]
    split
    next =>
      rw [List.map_cons, List.sum_cons, List.map_cons, List.sum_cons]
      dsimp only
      rw [add_right_comm]
    next => rw [List.map_cons, List.sum_cons, ih, List.map_cons, List.sum_cons, add_assoc]

/-- What the loop over a table row keeps: distinct experts in range, each with its score as
often as the row names it. -/
structure Merged (f : Roots α) (logits : List α) (eids : List Nat) (st : α × List (Nat × α)) :
    Prop where
  nodup : (st.2.map Prod.fst).Nodup
  mem : ∀ e, e ∈ st.2.map Prod.fst ↔ e ∈ eids ∧ e < logits.length
  weight : ∀ p ∈ st.2, ∃ m : Nat, 0 < m ∧ p.2 = m * sqrtSoftplus f (logits.getD p.1 0)
  sum : st.1 = (st.2.map Prod.snd).sum

/-- The weight of an expert is its own, as often as it was named. -/
theorem weight_merge (e : Nat)
    (h : ∀ p ∈ out, ∃ m : Nat, 0 < m ∧ p.2 = m * sqrtSoftplus f (logits.getD p.1 0)) :
    ∀ p ∈ merge e (sqrtSoftplus f (logits.getD e 0)) out,
      ∃ m : Nat, 0 < m ∧ p.2 = m * sqrtSoftplus f (logits.getD p.1 0) := by
  induction out with
  | nil =>
    intro p hp
    rw [merge, List.mem_singleton] at hp
    subst hp
    exact ⟨1, Nat.one_pos, by rw [Nat.cast_one, one_mul]⟩
  | cons q out ih =>
    intro p hp
    rw [merge] at hp
    split at hp
    next hq =>
      rcases List.mem_cons.mp hp with rfl | hp
      · obtain ⟨m, hm, hw⟩ := h q (List.mem_cons_self ..)
        refine ⟨m + 1, Nat.succ_pos m, ?_⟩
        dsimp only
        rw [hw, hq, Nat.cast_succ, add_mul, one_mul]
      · exact h p (List.mem_cons_of_mem _ hp)
    next =>
      rcases List.mem_cons.mp hp with rfl | hp
      · exact h p (List.mem_cons_self ..)
      · exact ih (fun q hq => h q (List.mem_cons_of_mem _ hq)) p hp

/-- **The row, merged**, by induction on its entries. -/
theorem mergeRow_foldl (f : Roots α) (logits : List α) (eids : List Nat) :
    Merged f logits eids (eids.foldl (mergeRow f logits) (0, [])) := by
  induction eids using List.reverseRecOn with
  | nil => exact ⟨List.nodup_nil, fun e => by simp, fun p hp => (nomatch hp), rfl⟩
  | append_singleton eids e ih =>
    rw [List.foldl_append, List.foldl_cons, List.foldl_nil, mergeRow]
    split
    next he =>
      refine ⟨nodup_ids_merge ih.nodup, fun x => ?_, weight_merge e ih.weight, ?_⟩
      · rw [mem_ids_merge, ih.mem, List.mem_append, List.mem_singleton]
        constructor
        · rintro (rfl | ⟨hx, hlt⟩)
          · exact ⟨Or.inr rfl, he⟩
          · exact ⟨Or.inl hx, hlt⟩
        · rintro ⟨hx | rfl, hlt⟩
          · exact Or.inr ⟨hx, hlt⟩
          · exact Or.inl rfl
      · dsimp only
        rw [sum_merge, ih.sum]
    next he =>
      -- an id past the experts changes nothing
      refine ⟨ih.nodup, fun x => ?_, ih.weight, ih.sum⟩
      rw [ih.mem, List.mem_append, List.mem_singleton]
      constructor
      · exact fun h => ⟨Or.inl h.1, h.2⟩
      · rintro ⟨hx | rfl, hlt⟩
        · exact ⟨hx, hlt⟩
        · exact absurd hlt he

/-- `1 / sum`, scaled, or zero. -/
def inv (routeScale sum : α) : α := if sum > 0 then routeScale / sum else 0

theorem renormed_perm (routeScale sum : α) (out : List (Nat × α)) :
    (renormed routeScale sum out).Perm (out.map fun p => (p.1, p.2 * inv routeScale sum)) :=
  List.mergeSort_perm ..

theorem renormed_ids (routeScale sum : α) (out : List (Nat × α)) :
    ((renormed routeScale sum out).map Prod.fst).Perm (out.map Prod.fst) := by
  have h := (renormed_perm routeScale sum out).map Prod.fst
  rw [List.map_map] at h
  exact h

theorem renormed_ids_map (routeScale sum : α) (es : List Nat) (g : Nat → α) :
    ((renormed routeScale sum (es.map fun e => (e, g e))).map Prod.fst).Perm es := by
  have h := renormed_ids routeScale sum (es.map fun e => (e, g e))
  rw [List.map_map] at h
  exact h.trans (List.Perm.of_eq (List.map_id es))

theorem renormed_sorted (routeScale sum : α) (out : List (Nat × α)) :
    (renormed routeScale sum out).Pairwise fun p q => p.1 ≤ q.1 := by
  refine (List.pairwise_mergeSort ?_ ?_ _).imp fun h => of_decide_eq_true h
  · intro p q r hpq hqr
    exact decide_eq_true (Nat.le_trans (of_decide_eq_true hpq) (of_decide_eq_true hqr))
  · intro p q
    simpa using Nat.le_total p.1 q.1

/-- The experts of a score routing are `k` distinct ones. -/
theorem routeTopk_ids (f : Roots α) (logits bias : List α) (k : Nat) (routeScale : α) :
    ((routeTopk f logits bias k routeScale).map Prod.fst).Nodup ∧
    (∀ e ∈ (routeTopk f logits bias k routeScale).map Prod.fst, e < logits.length) ∧
    (routeTopk f logits bias k routeScale).length = min k logits.length := by
  unfold routeTopk
  dsimp only
  generalize (fun e => if bias.isEmpty then (logits.map (sqrtSoftplus f)).getD e 0
    else (logits.map (sqrtSoftplus f)).getD e 0 + bias.getD e 0) = key
  have hperm := List.mergeSort_perm (List.range logits.length) (TopK.better key)
  generalize (List.range logits.length).mergeSort (TopK.better key) = order at hperm
  have hsub := List.take_sublist (min k logits.length) order
  have hids := renormed_ids_map routeScale
    (((order.take (min k logits.length)).map fun e =>
      (e, (logits.map (sqrtSoftplus f)).getD e 0)).map Prod.snd).sum
    (order.take (min k logits.length)) fun e => (logits.map (sqrtSoftplus f)).getD e 0
  refine ⟨hids.nodup_iff.mpr (hsub.nodup (hperm.nodup_iff.mpr List.nodup_range)), ?_, ?_⟩
  · intro e he
    exact List.mem_range.mp (hperm.mem_iff.mp (hsub.subset (hids.mem_iff.mp he)))
  · have hlen := hids.length_eq
    rw [List.length_map, List.length_take, hperm.length_eq, List.length_range] at hlen
    rw [hlen, Nat.min_assoc, Nat.min_self]

theorem mem_ids_routeHash (f : Roots α) (logits : List α) (eids : List Nat) (routeScale : α)
    (e : Nat) : e ∈ (routeHash f logits eids routeScale).map Prod.fst ↔
      e ∈ eids ∧ e < logits.length :=
  (renormed_ids ..).mem_iff.trans ((mergeRow_foldl f logits eids).mem e)

theorem nodup_ids_routeHash (f : Roots α) (logits : List α) (eids : List Nat) (routeScale : α) :
    ((routeHash f logits eids routeScale).map Prod.fst).Nodup :=
  (renormed_ids ..).nodup_iff.mpr (mergeRow_foldl f logits eids).nodup

/-- A row is short of its picks by the ids out of range and the repetitions. -/
theorem length_routeHash (f : Roots α) (logits : List α) (eids : List Nat) (routeScale : α) :
    (routeHash f logits eids routeScale).length =
      (eids.filter fun e => decide (e < logits.length)).dedup.length := by
  have hperm : ((routeHash f logits eids routeScale).map Prod.fst).Perm
      (eids.filter fun e => decide (e < logits.length)).dedup := by
    refine (List.perm_ext_iff_of_nodup (nodup_ids_routeHash ..) (List.nodup_dedup _)).mpr ?_
    intro e
    rw [mem_ids_routeHash, List.mem_dedup, List.mem_filter, decide_eq_true_iff]
  rw [← hperm.length_eq, List.length_map]

theorem length_routeHash_le (f : Roots α) (logits : List α) (eids : List Nat) (routeScale : α) :
    (routeHash f logits eids routeScale).length ≤ eids.length := by
  rw [length_routeHash]
  exact (List.dedup_sublist _).length_le.trans List.filter_sublist.length_le

/-- Only distinct ids in range make a full row. -/
theorem length_routeHash_lt_iff (f : Roots α) (logits : List α) (eids : List Nat)
    (routeScale : α) : (routeHash f logits eids routeScale).length < eids.length ↔
      ¬ (eids.Nodup ∧ ∀ e ∈ eids, e < logits.length) := by
  rw [length_routeHash]
  have hdedup := List.dedup_sublist (eids.filter fun e => decide (e < logits.length))
  have hfilter := List.filter_sublist (l := eids) (p := fun e => decide (e < logits.length))
  constructor
  · rintro hlt ⟨hnd, hall⟩
    have hself : eids.filter (fun e => decide (e < logits.length)) = eids :=
      List.filter_eq_self.mpr fun e he => decide_eq_true (hall e he)
    rw [hself, hnd.dedup] at hlt
    exact Nat.lt_irrefl _ hlt
  · intro hnot
    by_contra hge
    have hle := hdedup.length_le
    have hle' := hfilter.length_le
    have hself := hfilter.eq_of_length (by omega)
    have hkept := hdedup.eq_of_length (by omega)
    rw [hself] at hkept
    refine hnot ⟨List.dedup_eq_self.mp hkept, fun e he => ?_⟩
    exact of_decide_eq_true (List.filter_eq_self.mp hself e he)

/-- The first pick of a row is its least id in range. -/
theorem head_routeHash {eids : List Nat} {routeScale : α}
    {p : Nat × α} {ps : List (Nat × α)} (h : routeHash f logits eids routeScale = p :: ps) :
    ∀ e ∈ eids, e < logits.length → p.1 ≤ e := by
  intro e he hlt
  have hsorted : (routeHash f logits eids routeScale).Pairwise fun p q => p.1 ≤ q.1 :=
    renormed_sorted ..
  have hmem := (mem_ids_routeHash f logits eids routeScale e).mpr ⟨he, hlt⟩
  rw [h] at hsorted hmem
  rcases List.mem_cons.mp hmem with rfl | hmem
  · exact Nat.le_refl _
  · obtain ⟨q, hq, rfl⟩ := List.mem_map.mp hmem
    exact (List.pairwise_cons.mp hsorted).1 q hq

/-- A pick has no weight where its score is zero, or the scale is. -/
theorem weight_routeHash_eq_zero [IsStrictOrderedRing α]
    {eids : List Nat} {routeScale : α} {p : Nat × α}
    (hp : p ∈ routeHash f logits eids routeScale) :
    p.2 = 0 ↔ routeScale = 0 ∨ sqrtSoftplus f (logits.getD p.1 0) = 0 := by
  have hmerged := mergeRow_foldl f logits eids
  generalize hst : eids.foldl (mergeRow f logits) (0, []) = st at hmerged
  have hp' := (renormed_perm routeScale st.1 st.2).mem_iff.mp (by rw [← hst]; exact hp)
  obtain ⟨q, hq, rfl⟩ := List.mem_map.mp hp'
  obtain ⟨m, hm, hw⟩ := hmerged.weight q hq
  have hm' : (m : α) ≠ 0 := Nat.cast_ne_zero.mpr hm.ne'
  have hnonneg : ∀ w ∈ st.2.map Prod.snd, 0 ≤ w := by
    intro w hw
    obtain ⟨r, hr, rfl⟩ := List.mem_map.mp hw
    obtain ⟨m, -, hw⟩ := hmerged.weight r hr
    rw [hw]
    exact mul_nonneg (Nat.cast_nonneg m) (f.sqrt_nonneg _)
  have hle : q.2 ≤ st.1 := by
    rw [hmerged.sum]
    exact List.single_le_sum hnonneg q.2 (List.mem_map_of_mem hq)
  have hq0 : q.2 = 0 ↔ sqrtSoftplus f (logits.getD q.1 0) = 0 := by
    rw [hw, mul_eq_zero, or_iff_right hm']
  dsimp only
  rw [← hq0, inv]
  split
  next hpos => rw [mul_eq_zero, div_eq_zero_iff, or_iff_left hpos.ne', or_comm]
  next hnot =>
    -- the scores are all zero
    have hzero : q.2 = 0 := by
      refine le_antisymm (hle.trans (not_lt.mp hnot)) (hnonneg _ (List.mem_map_of_mem hq))
    rw [mul_zero]
    exact iff_of_true rfl (Or.inr hzero)

end

/-! ## What the filling up does -/

section

variable {α : Type} [Field α] [LinearOrder α] {uniq : List Nat} {ps : List (Nat × α)}

omit [LinearOrder α] in
/-- Entries of one expert at a weight of zero take away what it had. -/
theorem contribution_zeros (hu : uniq.Nodup) (c : Nat → α) {e : Nat} (he : e ∈ uniq) (m : Nat) :
    contribution uniq (ps ++ List.replicate (m + 1) (e, 0)) c =
      contribution uniq ps c - held ps e * c e := by
  induction m with
  | zero =>
    rw [List.replicate_succ, List.replicate_zero, contribution_concat hu c he, zero_sub, neg_mul,
      ← sub_eq_add_neg]
  | succ m ih =>
    -- it has no weight left to lose
    have hheld : held (ps ++ List.replicate (m + 1) (e, (0 : α))) e = 0 := by
      rw [List.replicate_succ', ← List.append_assoc, held_concat, if_pos rfl]
    rw [List.replicate_succ', ← List.append_assoc, contribution_concat hu c he, hheld, sub_zero,
      zero_mul, add_zero, ih]

omit [LinearOrder α] in
theorem held_head {p : Nat × α} (hnd : ((p :: ps).map Prod.fst).Nodup) :
    held (p :: ps) p.1 = p.2 := by
  have hnot : ∀ q ∈ ps, q.1 ≠ p.1 := fun q hq heq =>
    (List.nodup_cons.mp hnd).1 (heq ▸ List.mem_map_of_mem hq)
  unfold held
  rw [List.foldl_cons, if_pos rfl]
  generalize p.2 = w
  clear hnd
  induction ps with
  | nil => rfl
  | cons q ps ih =>
    rw [List.foldl_cons, if_neg (hnot q (List.mem_cons_self ..))]
    exact ih fun r hr => hnot r (List.mem_cons_of_mem _ hr)

/-- What the first pick adds. -/
def firstShare (ps : List (Nat × α)) (c : Nat → α) : α :=
  match ps with
  | [] => 0
  | p :: _ => p.2 * c p.1

omit [LinearOrder α] in
/-- **A short list loses its first pick.** -/
theorem padded_contribution (hu : uniq.Nodup) (c : Nat → α) {k : Nat}
    (hnd : (ps.map Prod.fst).Nodup) (hmem : ∀ p ∈ padded k ps, p.1 ∈ uniq) :
    contribution uniq (padded k ps) c =
      (ps.map fun p => p.2 * c p.1).sum - if ps.length < k then firstShare ps c else 0 := by
  have hps : contribution uniq ps c = (ps.map fun p => p.2 * c p.1).sum :=
    contribution_distinct hu c hnd fun p hp => hmem p (List.mem_append_left _ hp)
  by_cases hlt : ps.length < k
  · obtain ⟨m, hm⟩ : ∃ m, k - ps.length = m + 1 := ⟨k - ps.length - 1, by omega⟩
    unfold padded at hmem ⊢
    rw [hm] at hmem ⊢
    have hfill : (ps.head?.map Prod.fst).getD 0 ∈ uniq := hmem
      ((ps.head?.map Prod.fst).getD 0, 0)
      (List.mem_append_right _ (List.mem_replicate.mpr ⟨Nat.succ_ne_zero m, rfl⟩))
    rw [if_pos hlt, contribution_zeros hu c hfill, hps]
    cases ps with
    | nil => rw [held_of_notMem List.not_mem_nil, zero_mul, firstShare]
    | cons p ps =>
      have hhead : ((p :: ps).head?.map Prod.fst).getD 0 = p.1 := rfl
      rw [hhead, held_head hnd, firstShare]
  · have hnone : k - ps.length = 0 := by omega
    unfold padded
    rw [if_neg hlt, sub_zero, hnone, List.replicate_zero, List.append_nil, hps]

omit [LinearOrder α] in
theorem padded_length {k : Nat} (h : ps.length ≤ k) : (padded k ps).length = k := by
  rw [padded, List.length_append, List.length_replicate]
  omega

omit [LinearOrder α] in
/-- The experts of a filled list are in range, where those of the list are. -/
theorem padded_lt {k n : Nat} (hk : k ≤ n) (hlt : ∀ e ∈ ps.map Prod.fst, e < n) :
    ∀ e ∈ (padded k ps).map Prod.fst, e < n := by
  intro e he
  rw [padded, List.map_append, List.mem_append] at he
  rcases he with he | he
  · exact hlt e he
  · rw [List.map_replicate] at he
    obtain ⟨hne, rfl⟩ := List.mem_replicate.mp he
    cases ps with
    | nil =>
      rw [List.length_nil, Nat.sub_zero] at hne
      exact Nat.lt_of_lt_of_le (Nat.pos_of_ne_zero hne) hk
    | cons p ps => exact hlt p.1 (List.mem_cons_self ..)

end

/-! ## When the sum over the picks is what a token gets -/

section

variable {α : Type} [Field α] [LinearOrder α] {cfg : Config α} {l : Layer α} {x : List α}
  {ids : List Int} {n : Nat}

omit [LinearOrder α] in
theorem length_logits_row {s : Nat} (hs : s < n) :
    (rowOf (asUsize cfg.nExperts) (logitsOf cfg l x n) s).length = asUsize cfg.nExperts := by
  refine length_rowOf (n := n) ?_ hs
  rw [logitsOf, routerMatmul, length_flatMap_rows fun _ _ => by
    rw [List.length_map, List.length_range], List.length_range]

/-- The picks of a token are distinct, in range and at most `k`; exactly `k`, where the layer is
not a hash layer. -/
theorem picked_ids (f : Roots α) (cfg : Config α) (l : Layer α) (x : List α) (ids : List Int)
    {s : Nat} (hs : s < n) :
    ((picked f cfg l (logitsOf cfg l x n) ids n s).map Prod.fst).Nodup ∧
    (∀ e ∈ (picked f cfg l (logitsOf cfg l x n) ids n s).map Prod.fst,
      e < asUsize cfg.nExperts) ∧
    (picked f cfg l (logitsOf cfg l x n) ids n s).length ≤ cfg.k ∧
    (l.hash ids n = false →
      (picked f cfg l (logitsOf cfg l x n) ids n s).length = cfg.k) := by
  have hrow : (rowOf (asUsize cfg.nExperts) (logitsOf cfg l x n) s).length =
      asUsize cfg.nExperts := length_logits_row hs
  have hk : cfg.k ≤ asUsize cfg.nExperts := Nat.min_le_right _ _
  unfold picked
  dsimp only
  split
  next hhash =>
    refine ⟨nodup_ids_routeHash .., fun e he => ?_, ?_, ?_⟩
    · rw [← hrow]
      exact ((mem_ids_routeHash ..).mp he).2
    · refine (length_routeHash_le ..).trans ?_
      unfold tableRow
      split
      next => exact List.length_take_le _ _
      next => exact Nat.zero_le _
    · intro hno
      rw [hno] at hhash
      cases hhash
  next =>
    obtain ⟨hnd, hlt, hlen⟩ := routeTopk_ids f (rowOf (asUsize cfg.nExperts) (logitsOf cfg l x n) s)
      l.routerBias cfg.k cfg.routedScale
    rw [hrow, Nat.min_eq_left hk] at hlen
    rw [hrow] at hlt
    exact ⟨hnd, hlt, hlen.le, fun _ => hlen⟩

variable {a : ActCfg α}

/-- What expert `e` makes of token `s`, at `dd`. -/
def outputAt (act : Scalar α) (cfg : Config α) (model : Nat → Nat → Ffn a (asUsize cfg.hidden))
    (layer : Nat) (x : List α) (s dd e : Nat) : α :=
  ((model layer e).row act (rowOf (asUsize cfg.hidden) x s)).getD dd 0

variable (l ids) in
/-- A token gets the sum over its picks, less the first one where they are short of `k`. -/
theorem dsv4Routed_adds (f : Roots α) (act : Scalar α)
    {provider : Provider (Ffn a (asUsize cfg.hidden))}
    {model : Nat → Nat → Ffn a (asUsize cfg.hidden)} (hserves : Serves provider model)
    (layer : Nat) {out : List α} (hx : x.length = n * asUsize cfg.hidden)
    (hout : out.length = n * asUsize cfg.hidden) (sc : ExpertScratch α) :
    match dsv4Routed f act cfg l layer x n ids provider sc out with
    | .ok r => r.2.length = n * asUsize cfg.hidden ∧ ∀ s < n, ∀ dd < asUsize cfg.hidden,
        r.2.getD (s * asUsize cfg.hidden + dd) 0 =
          ((picked f cfg l (logitsOf cfg l x n) ids n s).map fun p =>
            p.2 * outputAt act cfg model layer x s dd p.1).sum -
          if (picked f cfg l (logitsOf cfg l x n) ids n s).length < cfg.k then
            firstShare (picked f cfg l (logitsOf cfg l x n) ids n s)
              (outputAt act cfg model layer x s dd)
          else 0
    | .error _ => ∃ (uniq : List Nat) (wMat : List α), Refuses provider layer uniq wMat n
    | .panic => False := by
  -- the padded picks are a routing of the plain path, of `k` pairs a token
  obtain ⟨tokens, htokens⟩ : ∃ tokens, tokens = (List.range n).map fun s =>
      padded cfg.k (picked f cfg l (logitsOf cfg l x n) ids n s) := ⟨_, rfl⟩
  have hlen : tokens.length = n := by
    rw [htokens, List.length_map, List.length_range]
  have hrows : ∀ r ∈ tokens, r.length = cfg.k ∧
      ∀ e ∈ r.map Prod.fst, e < asUsize cfg.nExperts := by
    intro r hr
    rw [htokens] at hr
    obtain ⟨s, hs, rfl⟩ := List.mem_map.mp hr
    obtain ⟨-, hlt, hle, -⟩ := picked_ids f cfg l x ids (List.mem_range.mp hs)
    exact ⟨padded_length hle, padded_lt (Nat.min_le_right _ _) hlt⟩
  have hfst : ∀ r ∈ tokens, (r.map Prod.fst).length = cfg.k := fun r hr => by
    rw [List.length_map, (hrows r hr).1]
  have hsnd : ∀ r ∈ tokens, (r.map Prod.snd).length = cfg.k := fun r hr => by
    rw [List.length_map, (hrows r hr).1]
  have hi : (tokens.flatMap fun r => r.map Prod.fst).length = n * cfg.k := by
    rw [length_flatMap_rows hfst, hlen]
  have hlt : ∀ e ∈ tokens.flatMap (fun r => r.map Prod.fst), e < asUsize cfg.nExperts := by
    intro e he
    obtain ⟨r, hr, he⟩ := List.mem_flatMap.mp he
    exact (hrows r hr).2 e he
  have hzero : (out.map fun _ => (0 : α)).length = n * asUsize cfg.hidden := by
    rw [List.length_map, hout]
  obtain ⟨uniq, wMat, hunion, hu, hmem, hcall⟩ := added_eq act hserves layer
    (tokens.flatMap fun r => r.map Prod.snd) hi hlt hx hzero sc
  unfold dsv4Routed
  dsimp only
  rw [← htokens, hunion]
  dsimp only
  revert hcall
  cases Cpu.computeExpertsPartialInto act provider layer uniq wMat x n sc
      (out.map fun _ => (0 : α)) with
  | panic => exact id
  | error err => exact fun h => ⟨uniq, wMat, h⟩
  | ok r =>
    rintro ⟨hlen', hadd⟩
    refine ⟨hlen', fun s hs dd hdd => ?_⟩
    have hs' : s < tokens.length := by
      rw [hlen]
      exact hs
    have hget : tokens[s] = padded cfg.k (picked f cfg l (logitsOf cfg l x n) ids n s) := by
      simp [htokens]
    have hids := rowOf_flatMap hfst hs'
    have hws := rowOf_flatMap hsnd hs'
    -- the row of a token in the flat lists is its picks again
    have hpairs : (tokens[s].map Prod.fst).zip (tokens[s].map Prod.snd) = tokens[s] := by
      rw [List.zip_map', List.map_id'']
      exact fun p => rfl
    have hin : ∀ p ∈ tokens[s], p.1 ∈ uniq := by
      intro p hp
      refine hmem s hs p.1 ?_
      rw [hids]
      exact List.mem_map_of_mem hp
    have hstart : (out.map fun _ => (0 : α)).getD (s * asUsize cfg.hidden + dd) 0 = 0 := by
      rw [List.getD_eq_getElem?_getD, List.getElem?_map]
      cases out[s * asUsize cfg.hidden + dd]? with
      | none => rfl
      | some v => rfl
    rw [hget] at hin hids hws hpairs
    rw [hadd s hs dd hdd, hids, hws, hpairs, hstart, zero_add]
    exact padded_contribution hu _ (picked_ids f cfg l x ids hs).1 hin

variable (l ids) in
/-- **What `dsv4_moe` makes of a token**: what its picks make of it, less the first one where they
are short of `k`, and what the shared experts make of it, where the model has any. -/
theorem dsv4Moe_adds (f : Roots α) (act : Scalar α)
    {provider : Provider (Ffn a (asUsize cfg.hidden))}
    {model : Nat → Nat → Ffn a (asUsize cfg.hidden)} (hserves : Serves provider model)
    (layer : Nat) {out : List α} (hx : x.length = n * asUsize cfg.hidden)
    (hout : out.length = n * asUsize cfg.hidden)
    (hshared : (l.sharedFfn x n).length = n * asUsize cfg.hidden) {sc : ExpertScratch α}
    {r : ExpertScratch α × List α}
    (h : dsv4Moe f act cfg l layer x n ids provider sc out = .ok r) :
    ∀ s < n, ∀ dd < asUsize cfg.hidden, r.2.getD (s * asUsize cfg.hidden + dd) 0 =
      ((picked f cfg l (logitsOf cfg l x n) ids n s).map fun p =>
        p.2 * outputAt act cfg model layer x s dd p.1).sum -
      (if (picked f cfg l (logitsOf cfg l x n) ids n s).length < cfg.k then
        firstShare (picked f cfg l (logitsOf cfg l x n) ids n s) (outputAt act cfg model layer x s dd)
      else 0) +
      if cfg.nShared > 0 then (l.sharedFfn x n).getD (s * asUsize cfg.hidden + dd) 0 else 0 := by
  have hadds := dsv4Routed_adds l ids f act hserves layer hx hout sc
  unfold dsv4Moe at h
  split at h
  next q hq =>
    cases h
    rw [hq] at hadds
    obtain ⟨hlen, hadds⟩ := hadds
    intro s hs dd hdd
    have hi : s * asUsize cfg.hidden + dd < q.2.length := by
      have hle : (s + 1) * asUsize cfg.hidden ≤ n * asUsize cfg.hidden :=
        Nat.mul_le_mul_right _ hs
      rw [Nat.succ_mul] at hle
      omega
    rw [← hadds s hs dd hdd, addShared]
    by_cases hn : cfg.nShared > 0
    · rw [if_pos (decide_eq_true hn), if_pos hn, addInto_eq (hshared.trans hlen.symm),
        List.getD_eq_getElem _ _ (by rwa [List.length_mapIdx]), List.getElem_mapIdx,
        List.getD_eq_getElem _ _ hi]
    · rw [if_neg (by rwa [decide_eq_true_iff]), if_neg hn, add_zero]
  next => cases h
  next => cases h

/-- A table row, with what its experts make of the token: the row is full, or its first pick has
nothing to add. -/
def KeepsFirst (f : Roots α) (logits : List α) (eids : List Nat) (routeScale : α) (d : Nat)
    (output : Nat → Nat → α) : Prop :=
  (eids.Nodup ∧ ∀ e ∈ eids, e < logits.length) ∨ routeScale = 0 ∨
    ∀ e ∈ eids, e < logits.length → (∀ e' ∈ eids, e' < logits.length → e ≤ e') →
      sqrtSoftplus f (logits.getD e 0) = 0 ∨ ∀ dd < d, output dd e = 0

/-- A row keeps its first pick where nothing of it is lost. -/
theorem keepsFirst_iff [IsStrictOrderedRing α] {f : Roots α} {logits : List α} {eids : List Nat}
    {routeScale : α} {d k : Nat} {output : Nat → Nat → α} (hk : eids = [] ∨ eids.length = k) :
    KeepsFirst f logits eids routeScale d output ↔ ∀ dd < d,
      (if (routeHash f logits eids routeScale).length < k then
        firstShare (routeHash f logits eids routeScale) (output dd) else 0) = 0 := by
  unfold KeepsFirst
  cases hpicks : routeHash f logits eids routeScale with
  | nil =>
    -- no id is in range
    have hnone : ∀ e ∈ eids, ¬ e < logits.length := by
      intro e he hlt
      have hmem := (mem_ids_routeHash f logits eids routeScale e).mpr ⟨he, hlt⟩
      rw [hpicks] at hmem
      cases hmem
    refine iff_of_true (Or.inr (Or.inr fun e he hlt => absurd hlt (hnone e he))) fun dd _ => ?_
    rw [firstShare, ite_self]
  | cons p ps =>
    have hp : p ∈ routeHash f logits eids routeScale := by
      rw [hpicks]
      exact List.mem_cons_self ..
    obtain ⟨hpe, hplt⟩ :=
      (mem_ids_routeHash f logits eids routeScale p.1).mp (List.mem_map_of_mem hp)
    have hleast := head_routeHash hpicks
    have hlen : eids.length = k := hk.resolve_left (List.ne_nil_of_mem hpe)
    have hfull := length_routeHash_lt_iff f logits eids routeScale
    rw [hpicks, hlen] at hfull
    by_cases hshort : (p :: ps).length < k
    · constructor
      · rintro (hrow | hscale | hall) dd hdd
        · exact absurd hrow (hfull.mp hshort)
        · rw [if_pos hshort, firstShare, (weight_routeHash_eq_zero hp).mpr (Or.inl hscale),
            zero_mul]
        · rw [if_pos hshort, firstShare]
          rcases hall p.1 hpe hplt hleast with hscore | hzero
          · rw [(weight_routeHash_eq_zero hp).mpr (Or.inr hscore), zero_mul]
          · rw [hzero dd hdd, mul_zero]
      · intro h
        have hfirst : ∀ e ∈ eids, e < logits.length →
            (∀ e' ∈ eids, e' < logits.length → e ≤ e') → e = p.1 := fun e he hlt hle =>
          Nat.le_antisymm (hle p.1 hpe hplt) (hleast e he hlt)
        by_cases hw : p.2 = 0
        · rcases (weight_routeHash_eq_zero hp).mp hw with hscale | hscore
          · exact Or.inr (Or.inl hscale)
          · refine Or.inr (Or.inr fun e he hlt hle => Or.inl ?_)
            rw [hfirst e he hlt hle]
            exact hscore
        · refine Or.inr (Or.inr fun e he hlt hle => Or.inr fun dd hdd => ?_)
          have hlost := h dd hdd
          rw [if_pos hshort, firstShare] at hlost
          rw [hfirst e he hlt hle]
          exact (mul_eq_zero.mp hlost).resolve_left hw
    · refine iff_of_true (Or.inl ?_) fun dd _ => if_neg hshort
      by_contra hrow
      exact hshort (hfull.mpr hrow)

/-- **When the padding is without effect.** What a token gets is the sum over its picks, each
counted once, exactly where no hash layer's table row is short, or the first pick of the row
has no weight or no output. -/
theorem routed_exact_iff [IsStrictOrderedRing α] (f : Roots α) (act : Scalar α)
    {provider : Provider (Ffn a (asUsize cfg.hidden))}
    {model : Nat → Nat → Ffn a (asUsize cfg.hidden)} (hserves : Serves provider model)
    (layer : Nat) {out : List α} (hx : x.length = n * asUsize cfg.hidden)
    (hout : out.length = n * asUsize cfg.hidden) {sc : ExpertScratch α}
    {r : ExpertScratch α × List α}
    (h : dsv4Routed f act cfg l layer x n ids provider sc out = .ok r) :
    (∀ s < n, ∀ dd < asUsize cfg.hidden, r.2.getD (s * asUsize cfg.hidden + dd) 0 =
      ((picked f cfg l (logitsOf cfg l x n) ids n s).map fun p =>
        p.2 * outputAt act cfg model layer x s dd p.1).sum) ↔
    (l.hash ids n = true → ∀ s < n,
      KeepsFirst f (rowOf (asUsize cfg.nExperts) (logitsOf cfg l x n) s)
        (tableRow l.tid2eid cfg.k (max (ids.getD s 0) 0).toNat) cfg.routedScale
        (asUsize cfg.hidden) (outputAt act cfg model layer x s)) := by
  have hadds := dsv4Routed_adds l ids f act hserves layer hx hout sc
  rw [h] at hadds
  obtain ⟨-, hadds⟩ := hadds
  have hexact : (∀ s < n, ∀ dd < asUsize cfg.hidden, r.2.getD (s * asUsize cfg.hidden + dd) 0 =
      ((picked f cfg l (logitsOf cfg l x n) ids n s).map fun p =>
        p.2 * outputAt act cfg model layer x s dd p.1).sum) ↔
      ∀ s < n, ∀ dd < asUsize cfg.hidden,
        (if (picked f cfg l (logitsOf cfg l x n) ids n s).length < cfg.k then
          firstShare (picked f cfg l (logitsOf cfg l x n) ids n s)
            (outputAt act cfg model layer x s dd)
        else 0) = 0 := by
    refine forall₂_congr fun s hs => forall₂_congr fun dd hdd => ?_
    rw [hadds s hs dd hdd, sub_eq_self]
  rw [hexact]
  cases hhash : l.hash ids n with
  | false =>
    refine iff_of_true (fun s hs dd _ => ?_) fun hno => absurd hno Bool.false_ne_true
    rw [(picked_ids f cfg l x ids hs).2.2.2 hhash, if_neg (Nat.lt_irrefl _)]
  | true =>
    rw [forall_prop_of_true rfl]
    refine forall₂_congr fun s hs => ?_
    have hrow : tableRow l.tid2eid cfg.k (max (ids.getD s 0) 0).toNat = [] ∨
        (tableRow l.tid2eid cfg.k (max (ids.getD s 0) 0).toNat).length = cfg.k := by
      unfold tableRow
      split
      next hle =>
        right
        rw [rowOf, List.length_take, List.length_drop]
        omega
      next => exact Or.inl rfl
    rw [keepsFirst_iff hrow]
    unfold picked
    dsimp only
    rw [if_pos hhash]

end

section

/-- What the functions give for a logit of zero, to six digits. -/
def zeroRoots : Roots ℚ where
  exp := fun _ => 1
  ln1p := fun _ => 693147 / 1000000
  sqrt := fun _ => 832555 / 1000000
  sqrt_nonneg := fun _ => by decide +kernel

def twoOfFour : Config ℚ := ⟨1, 4, 2, 0, 3 / 2⟩

/-- The row of token 1 names an expert twice. -/
def twoRows : Layer ℚ where
  router := [0, 0, 0, 0]
  routerBias := []
  sharedFfn := fun x _ => x
  tid2eid := [1, 3, 2, 2]

/-- A batch of token 1 alone. -/
def tokenOne : Outcome IoError (ExpertScratch ℚ × List ℚ) :=
  dsv4Routed zeroRoots anyScalar twoOfFour twoRows 0 [1] 1 [1]
    (squareExperts : Provider (Ffn squares (asUsize twoOfFour.hidden))) ⟨[], []⟩ [7]

theorem tokenOne_ok : ∃ r, tokenOne = .ok r ∧ r.2 = [0] := by
  have h : (match tokenOne with
      | .ok r => some r.2
      | _ => none) = some [0] := by decide +kernel
  revert h
  cases tokenOne with
  | ok r => exact fun h => ⟨r, rfl, Option.some.inj h⟩
  | error err => exact fun h => nomatch h
  | panic => exact fun h => nomatch h

/-- A batch of token 0 alone, whose row names the experts 1 and 3. -/
def tokenZero : Outcome IoError (ExpertScratch ℚ × List ℚ) :=
  dsv4Routed zeroRoots anyScalar twoOfFour twoRows 0 [1] 1 [0]
    (squareExperts : Provider (Ffn squares (asUsize twoOfFour.hidden))) ⟨[], []⟩ [7]

theorem tokenZero_ok : ∃ r, tokenZero = .ok r := by
  have hx : ([1] : List ℚ).length = 1 * asUsize twoOfFour.hidden := rfl
  have hout : ([7] : List ℚ).length = 1 * asUsize twoOfFour.hidden := rfl
  have hadds := dsv4Routed_adds twoRows [0] zeroRoots anyScalar squareExperts_serves 0 hx hout
    ⟨[], []⟩
  cases h : tokenZero with
  | ok r => exact ⟨r, rfl⟩
  | error err =>
    unfold tokenZero at h
    rw [h] at hadds
    obtain ⟨_, _, _, ⟨_, h⟩ | ⟨_, _, _, h⟩⟩ := hadds
    · cases h
    · cases h
  | panic =>
    unfold tokenZero at h
    rw [h] at hadds
    exact hadds.elim

/-- The token gets what its two experts make of it. -/
theorem routed_exact_iff_one : ∃ r, tokenZero = .ok r ∧
    ∀ s < 1, ∀ dd < asUsize twoOfFour.hidden,
      r.2.getD (s * asUsize twoOfFour.hidden + dd) 0 =
        ((picked zeroRoots twoOfFour twoRows (logitsOf twoOfFour twoRows [1] 1) [0] 1 s).map
          fun p => p.2 * outputAt anyScalar twoOfFour (fun _ e => squareFfn e) 0 [1] s dd
            p.1).sum := by
  obtain ⟨r, hr⟩ := tokenZero_ok
  refine ⟨r, hr, ?_⟩
  refine (routed_exact_iff zeroRoots anyScalar squareExperts_serves 0 rfl rfl hr).mpr ?_
  intro _ s hs
  obtain rfl := Nat.lt_one_iff.mp hs
  have hrow : tableRow twoRows.tid2eid twoOfFour.k (max ([(0 : Int)].getD 0 0) 0).toNat = [1, 3] := by
    decide +kernel
  rw [hrow]
  exact .inl (by decide +kernel)

/-- Expert 2 is picked, with all the weight there is, and the token gets nothing. -/
theorem routed_loses_first : ∃ r, tokenOne = .ok r ∧ r.2.getD 0 0 = 0 ∧
    picked zeroRoots twoOfFour twoRows (logitsOf twoOfFour twoRows [1] 1) [1] 1 0 =
      [(2, 3 / 2)] ∧
    ((picked zeroRoots twoOfFour twoRows (logitsOf twoOfFour twoRows [1] 1) [1] 1 0).map
      fun p => p.2 * outputAt anyScalar twoOfFour (fun _ e => squareFfn e) 0 [1] 0 0
        p.1).sum = 3 := by
  obtain ⟨r, hr, hout⟩ := tokenOne_ok
  refine ⟨r, hr, ?_, ?_, ?_⟩
  · rw [hout]
    rfl
  · decide +kernel
  · decide +kernel

end

end Colibri.Moe.Dsv4
