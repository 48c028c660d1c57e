import Mathlib.Algebra.Ring.Defs
import Mathlib.Data.List.Nodup
import Colibri.Cluster.Transport

/-!
# Applying experts to a batch

`compute_experts_partial` adds to each token's row the weighted outputs of the
experts the token routes to. It goes expert by expert: the rows that route to it
are gathered, run through its FFN together and scattered back. The FFN is any
function of the expert and the rows gathered, and what an expert adds depends on
its own column of the weights only (`column`). So the whole is a sum over columns
(`applyExperts_eq`), in exact arithmetic in any order.

* `applyExperts_error_iff`: an error is the provider's, of an expert that some row routes to.
* `scatter_eq`: scattering adds, and to each place once for each row that is scattered there.
-/

namespace Colibri.Moe

open Colibri.Cluster

/-- `ExpertProvider`: what it answers for a layer's experts. -/
structure Provider (E : Type) where
  expert : Nat → Nat → Except IoError E
  prefetch : Nat → List Nat → Except IoError Unit

section

variable {α E : Type} [Zero α] [Add α] [Mul α] [DecidableEq α]

/-- The tokens that route to column `ei`, with their weights. -/
def expertRows (weights : List α) (ne nTokens ei : Nat) : List (Nat × α) :=
  (List.range nTokens).filterMap fun t =>
    let w := weights.getD (t * ne + ei) 0
    if w ≠ 0 then some (t, w) else none

/-- `per_expert`: the experts some token routes to, with their rows. -/
def perExpert (experts : List Nat) (weights : List α) (nTokens : Nat) :
    List (Nat × List (Nat × α)) :=
  experts.zipIdx.filterMap fun (e, ei) =>
    let rows := expertRows weights experts.length nTokens ei
    if rows.isEmpty then none else some (e, rows)

/-- The rows' activations, one after another. -/
def gather (activations : List α) (d : Nat) (rows : List (Nat × α)) : List α :=
  rows.flatMap fun (t, _) => (activations.drop (t * d)).take d

/-- `out[t*d+dd] += w * row[dd]`. -/
def scatterRow (d t : Nat) (w : α) (row : Nat → α) (out : List α) : List α :=
  out.mapIdx fun i v => if t * d ≤ i ∧ i < t * d + d then v + w * row (i - t * d) else v

/-- Scatter the rows' outputs `hh`, the first of which is row `r`. -/
def scatter (d : Nat) (hh : List α) : Nat → List (Nat × α) → List α → List α
  | _, [], out => out
  | r, (t, w) :: rows, out =>
    scatter d hh (r + 1) rows (scatterRow d t w (fun dd => hh.getD (r * d + dd) 0) out)

/-- The loop over the experts some token routes to. -/
def applyExperts (provider : Provider E) (ffn : E → List α → Nat → List α) (layer : Nat)
    (activations : List α) (d : Nat) :
    List (Nat × List (Nat × α)) → List α → Except IoError (List α)
  | [], out => .ok out
  | (e, rows) :: rest, out =>
    match provider.expert layer e with
    | .error err => .error err
    | .ok ex =>
      applyExperts provider ffn layer activations d rest
        (scatter d (ffn ex (gather activations d rows) rows.length) 0 rows out)

/-- `compute_experts_partial_into`: `out` is added to. -/
def computeExpertsPartialInto (provider : Provider E) (ffn : E → List α → Nat → List α)
    (layer : Nat) (experts : List Nat) (weights activations : List α) (nTokens hidden : Nat)
    (out : List α) : Except IoError (List α) :=
  if experts.isEmpty then .ok out
  else
    match provider.prefetch layer experts with
    | .error err => .error err
    | .ok () =>
      applyExperts provider ffn layer activations hidden (perExpert experts weights nTokens) out

def computeExpertsPartial (provider : Provider E) (ffn : E → List α → Nat → List α)
    (layer : Nat) (experts : List Nat) (weights activations : List α) (nTokens hidden : Nat) :
    Except IoError (List α) :=
  computeExpertsPartialInto provider ffn layer experts weights activations nTokens hidden
    (List.replicate (nTokens * hidden) 0)

end

/-! ## What it applies -/

section

variable {α : Type} [Zero α] [DecidableEq α]

/-- Every column: its expert and the rows that route to it. -/
def columns (experts : List Nat) (weights : List α) (nTokens : Nat) :
    List (Nat × List (Nat × α)) :=
  (List.range experts.length).map fun ei =>
    (experts.getD ei 0, expertRows weights experts.length nTokens ei)

/-- The (token, expert, weight) the loop goes through. -/
def entries (experts : List Nat) (weights : List α) (nTokens : Nat) : List (Nat × Nat × α) :=
  (perExpert experts weights nTokens).flatMap fun (e, rows) => rows.map fun (t, w) => (t, e, w)

/-- The loop goes through the columns some token routes to. -/
theorem perExpert_eq (experts : List Nat) (weights : List α) (nTokens : Nat) :
    perExpert experts weights nTokens
      = (columns experts weights nTokens).filter (fun p => !p.2.isEmpty) := by
  have hzip : experts.zipIdx
      = (List.range experts.length).map (fun ei => (experts.getD ei 0, ei)) := by
    refine List.ext_getElem (by simp) ?_
    intro n h₁ h₂
    rw [List.length_zipIdx] at h₁
    simp [h₁]
  rw [perExpert, hzip, columns]
  generalize List.range experts.length = eis
  induction eis with
  | nil => rfl
  | cons ei eis ih =>
    rw [List.map_cons, List.map_cons, List.filterMap_cons, List.filter_cons, ← ih]
    dsimp only
    cases expertRows weights experts.length nTokens ei <;> rfl

/-- The columns no token routes to hold no entry. -/
theorem entries_eq (experts : List Nat) (weights : List α) (nTokens : Nat) :
    entries experts weights nTokens = (columns experts weights nTokens).flatMap
      (fun p => p.2.map (fun q => (q.1, p.1, q.2))) := by
  rw [entries, perExpert_eq]
  induction columns experts weights nTokens with
  | nil => rfl
  | cons p ps ih =>
    rw [List.flatMap_cons, ← ih, List.filter_cons]
    obtain ⟨e, rows⟩ := p
    cases rows <;> rfl

theorem mem_expertRows {weights : List α} {ne nTokens ei t : Nat} {w : α} :
    (t, w) ∈ expertRows weights ne nTokens ei
      ↔ t < nTokens ∧ w ≠ 0 ∧ weights.getD (t * ne + ei) 0 = w := by
  rw [expertRows, List.mem_filterMap]
  constructor
  · rintro ⟨t', ht', h⟩
    dsimp only at h
    split at h
    next hne =>
      cases h
      exact ⟨List.mem_range.mp ht', hne, rfl⟩
    next => cases h
  · rintro ⟨ht, hne, rfl⟩
    exact ⟨t, List.mem_range.mpr ht, if_pos hne⟩

theorem mem_entries {experts : List Nat} {weights : List α} {nTokens t e : Nat} {w : α} :
    (t, e, w) ∈ entries experts weights nTokens ↔ t < nTokens ∧ w ≠ 0 ∧
      ∃ ei, ∃ h : ei < experts.length, experts[ei] = e ∧
        weights.getD (t * experts.length + ei) 0 = w := by
  rw [entries_eq, columns, List.mem_flatMap]
  constructor
  · rintro ⟨p, hp, hq⟩
    obtain ⟨ei, hei, rfl⟩ := List.mem_map.mp hp
    obtain ⟨⟨t', w'⟩, hrow, heq⟩ := List.mem_map.mp hq
    cases heq
    rw [List.mem_range] at hei
    obtain ⟨ht, hw, hget⟩ := mem_expertRows.mp hrow
    exact ⟨ht, hw, ei, hei, (List.getD_eq_getElem _ _ hei).symm, hget⟩
  · rintro ⟨ht, hw, ei, hei, rfl, hget⟩
    refine ⟨_, List.mem_map.mpr ⟨ei, List.mem_range.mpr hei, rfl⟩, ?_⟩
    refine List.mem_map.mpr ⟨(t, w), mem_expertRows.mpr ⟨ht, hw, hget⟩, ?_⟩
    rw [List.getD_eq_getElem _ _ hei]

/-- With distinct experts no entry comes twice. -/
theorem entries_nodup {experts : List Nat} (hnd : experts.Nodup) (weights : List α)
    (nTokens : Nat) : (entries experts weights nTokens).Nodup := by
  rw [entries_eq, List.nodup_flatMap]
  constructor
  · intro p hp
    obtain ⟨ei, _, rfl⟩ := List.mem_map.mp hp
    refine List.Nodup.of_map (fun q => q.1) ?_
    have hfst : ∀ ts : List Nat, (List.map (fun q : Nat × Nat × α => q.1)
        (List.map (fun q : Nat × α => (q.1, experts.getD ei 0, q.2))
          (ts.filterMap fun t =>
            let w := weights.getD (t * experts.length + ei) 0
            if w ≠ 0 then some (t, w) else none))).Sublist ts := by
      intro ts
      induction ts with
      | nil => exact List.Sublist.slnil
      | cons t ts ih =>
        rw [List.filterMap_cons]
        dsimp only
        by_cases hw : weights.getD (t * experts.length + ei) 0 ≠ 0
        · rw [if_pos hw]
          exact ih.cons_cons t
        · rw [if_neg hw]
          exact ih.cons t
    exact (hfst _).nodup List.nodup_range
  · rw [columns, List.pairwise_map]
    refine List.nodup_range.imp_of_mem ?_
    intro i j hi hj hij
    rw [List.mem_range] at hi hj
    intro q hq hq'
    obtain ⟨_, _, rfl⟩ := List.mem_map.mp hq
    obtain ⟨_, _, heq⟩ := List.mem_map.mp hq'
    rw [Prod.mk.injEq, Prod.mk.injEq] at heq
    rw [List.getD_eq_getElem _ _ hi, List.getD_eq_getElem _ _ hj] at heq
    exact hij ((hnd.getElem_inj_iff).mp heq.2.1).symm

end

/-! ## When it errs -/

section

variable {α E : Type} [Zero α] [Add α] [Mul α] [DecidableEq α]

/-- The provider fails the call: at the prefetch, or at an expert some token
routes to. -/
def Refuses (provider : Provider E) (layer : Nat) (experts : List Nat) (weights : List α)
    (nTokens : Nat) : Prop :=
  experts ≠ [] ∧
    ((∃ err, provider.prefetch layer experts = .error err) ∨
      ∃ p ∈ perExpert experts weights nTokens, ∃ err, provider.expert layer p.1 = .error err)

variable {provider : Provider E} {ffn : E → List α → Nat → List α} {layer : Nat}

omit [DecidableEq α] in
/-- **The loop fails where the provider does.** -/
theorem applyExperts_error_iff {activations : List α} {d : Nat}
    {ps : List (Nat × List (Nat × α))} {out : List α} :
    (∃ err, applyExperts provider ffn layer activations d ps out = .error err)
      ↔ ∃ p ∈ ps, ∃ err, provider.expert layer p.1 = .error err := by
  induction ps generalizing out with
  | nil =>
    constructor
    · rintro ⟨err, h⟩
      cases h
    · rintro ⟨p, hp, _⟩
      cases hp
  | cons p ps ih =>
    rw [applyExperts]
    cases hp : provider.expert layer p.1 with
    | error err =>
      exact iff_of_true ⟨err, rfl⟩ ⟨p, List.mem_cons_self .., err, hp⟩
    | ok ex =>
      rw [ih]
      constructor
      · rintro ⟨q, hq, h⟩
        exact ⟨q, List.mem_cons_of_mem _ hq, h⟩
      · rintro ⟨q, hq, err, h⟩
        rcases List.mem_cons.mp hq with rfl | hq
        · rw [hp] at h
          cases h
        · exact ⟨q, hq, err, h⟩

/-- **The call errs exactly when its provider refuses.** -/
theorem computeExpertsPartialInto_error_iff {experts : List Nat} {weights activations : List α}
    {nTokens hidden : Nat} {out : List α} :
    (∃ err, computeExpertsPartialInto provider ffn layer experts weights activations nTokens hidden
        out = .error err) ↔ Refuses provider layer experts weights nTokens := by
  unfold computeExpertsPartialInto Refuses
  cases experts with
  | nil =>
    constructor
    · rintro ⟨err, h⟩
      cases h
    · rintro ⟨h, _⟩
      exact absurd rfl h
  | cons e es =>
    rw [List.isEmpty_cons, if_neg Bool.false_ne_true]
    cases hpre : provider.prefetch layer (e :: es) with
    | error err => exact iff_of_true ⟨err, rfl⟩ ⟨List.cons_ne_nil _ _, Or.inl ⟨err, rfl⟩⟩
    | ok u =>
      show (∃ err, applyExperts provider ffn layer activations hidden _ out = .error err) ↔ _
      rw [applyExperts_error_iff]
      constructor
      · intro h
        exact ⟨List.cons_ne_nil _ _, Or.inr h⟩
      · rintro ⟨_, ⟨err, h⟩ | h⟩
        · cases h
        · exact h

omit [DecidableEq α] in
theorem scatter_length {d : Nat} {hh : List α} {r : Nat} {rows : List (Nat × α)} {out : List α} :
    (scatter d hh r rows out).length = out.length := by
  induction rows generalizing r out with
  | nil => rfl
  | cons row rows ih => rw [scatter, ih, scatterRow, List.length_mapIdx]

omit [DecidableEq α] in
theorem applyExperts_length {activations : List α} {d : Nat} {ps : List (Nat × List (Nat × α))}
    {out out' : List α} (h : applyExperts provider ffn layer activations d ps out = .ok out') :
    out'.length = out.length := by
  induction ps generalizing out with
  | nil =>
    cases h
    rfl
  | cons p ps ih =>
    rw [applyExperts] at h
    split at h
    · cases h
    · rw [ih h, scatter_length]

/-- The buffer keeps its length. -/
theorem computeExpertsPartialInto_length {experts : List Nat} {weights activations : List α}
    {nTokens hidden : Nat} {out out' : List α}
    (h : computeExpertsPartialInto provider ffn layer experts weights activations nTokens hidden
      out = .ok out') : out'.length = out.length := by
  unfold computeExpertsPartialInto at h
  split at h
  · cases h
    rfl
  · split at h
    · cases h
    · exact applyExperts_length h

end

/-! ## What it adds, in exact arithmetic -/

section

variable {α E : Type} [Semiring α] [DecidableEq α]

/-- What `scatter` adds at index `i`. -/
def scattered (d : Nat) (hh : List α) : Nat → List (Nat × α) → Nat → α
  | _, [], _ => 0
  | r, (t, w) :: rows, i =>
    (if t * d ≤ i ∧ i < t * d + d then w * hh.getD (r * d + (i - t * d)) 0 else 0)
      + scattered d hh (r + 1) rows i

omit [DecidableEq α] in
theorem scatter_eq (d : Nat) (hh : List α) (r : Nat) (rows : List (Nat × α)) (out : List α) :
    scatter d hh r rows out = out.mapIdx (fun i v => v + scattered d hh r rows i) := by
  induction rows generalizing r out with
  | nil =>
    simp only [scatter, scattered, add_zero]
    exact (mapIdx_self _).symm
  | cons row rows ih =>
    rw [scatter, ih, scatterRow, List.mapIdx_mapIdx]
    congr 1
    funext i v
    dsimp only [Function.comp_apply, scattered]
    split
    · rw [add_assoc]
    · rw [zero_add]

/-- What expert `e` adds at index `i` for its rows: its column of the sum. -/
def column (ffn : E → List α → Nat → List α) (ex : E) (activations : List α) (d : Nat)
    (rows : List (Nat × α)) (i : Nat) : α :=
  scattered d (ffn ex (gather activations d rows) rows.length) 0 rows i

/-- The experts a provider hands out are those of `model`. -/
def Serves (provider : Provider E) (model : Nat → Nat → E) : Prop :=
  ∀ layer e ex, provider.expert layer e = .ok ex → ex = model layer e

variable {provider : Provider E} {ffn : E → List α → Nat → List α} {layer : Nat}
  {model : Nat → Nat → E}

omit [DecidableEq α] in
/-- **The experts add their columns**, place by place. -/
theorem applyExperts_eq (hserves : Serves provider model) {activations : List α} {d : Nat}
    {ps : List (Nat × List (Nat × α))} {out out' : List α}
    (h : applyExperts provider ffn layer activations d ps out = .ok out') :
    out' = out.mapIdx (fun i v =>
      v + (ps.map (fun p => column ffn (model layer p.1) activations d p.2 i)).sum) := by
  induction ps generalizing out with
  | nil =>
    cases h
    simp only [List.map_nil, List.sum_nil, add_zero]
    exact (mapIdx_self _).symm
  | cons p ps ih =>
    rw [applyExperts] at h
    split at h
    · cases h
    next ex hex =>
      rw [ih h, scatter_eq, List.mapIdx_mapIdx, hserves _ _ _ hex]
      congr 1
      funext i v
      dsimp only [Function.comp_apply]
      rw [List.map_cons, List.sum_cons, column, add_assoc]

/-- Experts no token routes to add nothing, so the sum may run over all
columns. -/
theorem sum_perExpert (experts : List Nat) (weights activations : List α) (nTokens d i : Nat) :
    ((perExpert experts weights nTokens).map
        (fun p => column ffn (model layer p.1) activations d p.2 i)).sum
      = ((columns experts weights nTokens).map
        (fun p => column ffn (model layer p.1) activations d p.2 i)).sum := by
  rw [perExpert_eq]
  induction columns experts weights nTokens with
  | nil => rfl
  | cons p ps ih =>
    rw [List.map_cons, List.sum_cons, ← ih, List.filter_cons]
    obtain ⟨e, rows⟩ := p
    cases rows with
    | nil =>
      show _ = 0 + _
      rw [zero_add]
      rfl
    | cons row rows => rfl

/-- **What the call adds**: the columns of the experts it is given. -/
theorem computeExpertsPartialInto_eq (hserves : Serves provider model) {experts : List Nat}
    {weights activations : List α} {nTokens hidden : Nat} {out out' : List α}
    (h : computeExpertsPartialInto provider ffn layer experts weights activations nTokens hidden
      out = .ok out') :
    out' = out.mapIdx (fun i v => v + ((columns experts weights nTokens).map
      (fun p => column ffn (model layer p.1) activations hidden p.2 i)).sum) := by
  unfold computeExpertsPartialInto at h
  split at h
  next hnil =>
    cases h
    rw [List.isEmpty_iff.mp hnil]
    simp only [columns, List.length_nil, List.range_zero, List.map_nil, List.sum_nil, add_zero]
    exact (mapIdx_self _).symm
  · split at h
    · cases h
    · rw [applyExperts_eq hserves h]
      congr 1
      funext i v
      rw [sum_perExpert]

end

end Colibri.Moe
