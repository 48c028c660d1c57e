import Mathlib.Algebra.BigOperators.Group.List.Basic
import Mathlib.Data.List.Perm.Lattice
import Mathlib.Data.List.Sort

/-!
# Tallies

A tally has one entry a key, in an order that means nothing. To add to a key is to change its
entry or to make one.

Two results carry what is proved about tallies elsewhere:

> `get_addAll`: what a key has after a list of additions is what it had and its share of the
> list, in whatever order they were made. So the keys that have something are determined by
> what the keys have (`live_perm`).

> `ranked_perm`, `ranked_filter`: the keys ranked by what they have, with ties broken by a
> chain, do not depend on the order of the entries, and the ranking of some of the keys is
> what the whole ranking leaves of them.
-/

/-- A comparison whose sorted lists are determined by what they contain. -/
structure Chain {κ : Type} (le : κ → κ → Bool) : Prop where
  trans : ∀ a b c, le a b = true → le b c = true → le a c = true
  total : ∀ a b, (le a b || le b a) = true
  antisymm : ∀ {a b}, le a b = true → le b a = true → a = b

namespace Chain

variable {κ : Type} {le : κ → κ → Bool}

/-- By a rank that tells elements apart. -/
theorem of_rank {ρ : Type} [LinearOrder ρ] {r : κ → ρ} (hr : Function.Injective r) :
    Chain fun a b => decide (r a ≤ r b) where
  trans a b c hab hbc := decide_eq_true ((of_decide_eq_true hab).trans (of_decide_eq_true hbc))
  total a b := by
    rw [Bool.or_eq_true, decide_eq_true_eq, decide_eq_true_eq]
    exact le_total (r a) (r b)
  antisymm hab hba := hr (le_antisymm (of_decide_eq_true hab) (of_decide_eq_true hba))

theorem sorted_unique (h : Chain le) {l l' : List κ} (hl : l.Pairwise fun a b => le a b)
    (hl' : l'.Pairwise fun a b => le a b) (hp : l.Perm l') : l = l' :=
  hp.eq_of_pairwise (fun _ _ _ _ hab hba => h.antisymm hab hba) hl hl'

theorem pairwise_mergeSort (h : Chain le) (l : List κ) :
    (l.mergeSort le).Pairwise fun a b => le a b :=
  List.pairwise_mergeSort h.trans h.total l

end Chain

section

variable {κ μ : Type} [DecidableEq κ]

structure Tally (κ μ : Type) where
  entries : List (κ × μ)
  nodup : (entries.map Prod.fst).Nodup

namespace Tally

def keys (t : Tally κ μ) : List κ := t.entries.map Prod.fst

def empty : Tally κ μ := ⟨[], List.nodup_nil⟩

/-- The entries whose key passes. -/
def filterKeys (keep : κ → Bool) (t : Tally κ μ) : Tally κ μ where
  entries := t.entries.filter fun e => keep e.1
  nodup := t.nodup.sublist (List.filter_sublist.map Prod.fst)

section

variable [AddCommMonoid μ]

/-- What the key has. -/
def get (t : Tally κ μ) (k : κ) : μ := (t.entries.lookup k).getD 0

def upsert (k : κ) (m : μ) : List (κ × μ) → List (κ × μ)
  | [] => [(k, 0 + m)]
  | e :: rest => if e.1 = k then (k, e.2 + m) :: rest else e :: upsert k m rest

/-- The share of a key in a list of additions. -/
def amount (l : List (κ × μ)) (k : κ) : μ := (l.map fun e => if e.1 = k then e.2 else 0).sum

omit [DecidableEq κ] [AddCommMonoid μ] in
theorem keys_filterKeys (keep : κ → Bool) (t : Tally κ μ) :
    (t.filterKeys keep).keys = t.keys.filter keep := by
  rw [keys, keys, filterKeys, List.filter_map]
  rfl

theorem keys_upsert (k : κ) (m : μ) (l : List (κ × μ)) : (upsert k m l).map Prod.fst =
    if k ∈ l.map Prod.fst then l.map Prod.fst else l.map Prod.fst ++ [k] := by
  induction l with
  | nil => rfl
  | cons e l ih =>
    rw [upsert]
    by_cases he : e.1 = k
    · rw [if_pos he, List.map_cons, List.map_cons, if_pos (he ▸ List.mem_cons_self), he]
    · rw [if_neg he, List.map_cons, List.map_cons, ih]
      by_cases hk : k ∈ l.map Prod.fst
      · rw [if_pos hk, if_pos (List.mem_cons_of_mem _ hk)]
      · rw [if_neg hk, if_neg (List.not_mem_cons_of_ne_of_not_mem (Ne.symm he) hk)]
        rfl

theorem nodup_upsert (k : κ) (m : μ) {l : List (κ × μ)} (h : (l.map Prod.fst).Nodup) :
    ((upsert k m l).map Prod.fst).Nodup := by
  rw [keys_upsert]
  split
  · exact h
  next hk => exact List.Nodup.concat hk h |> fun h => by rwa [List.concat_eq_append] at h

/-- `*entry(k).or_insert(0) += m` -/
def add (t : Tally κ μ) (k : κ) (m : μ) : Tally κ μ := ⟨upsert k m t.entries, nodup_upsert k m t.nodup⟩

def addAll (t : Tally κ μ) (l : List (κ × μ)) : Tally κ μ := l.foldl (fun t e => t.add e.1 e.2) t

def merge (t u : Tally κ μ) : Tally κ μ := t.addAll u.entries

theorem amount_cons (e : κ × μ) (l : List (κ × μ)) (k : κ) :
    amount (e :: l) k = (if e.1 = k then e.2 else 0) + amount l k := by
  rw [amount, List.map_cons, List.sum_cons, amount]

theorem amount_perm {l l' : List (κ × μ)} (h : l.Perm l') (k : κ) : amount l k = amount l' k :=
  (h.map _).sum_eq

theorem amount_of_not_mem {l : List (κ × μ)} {k : κ} (h : k ∉ l.map Prod.fst) : amount l k = 0 := by
  induction l with
  | nil => rfl
  | cons e l ih =>
    rw [List.map_cons] at h
    have hne : e.1 ≠ k := fun he => h (he ▸ List.mem_cons_self)
    rw [amount_cons, if_neg hne, ih fun hk => h (List.mem_cons_of_mem _ hk), add_zero]

theorem amount_of_mem {l : List (κ × μ)} (h : (l.map Prod.fst).Nodup) {k : κ} {x : μ}
    (hk : (k, x) ∈ l) : amount l k = x := by
  induction l with
  | nil => cases hk
  | cons e l ih =>
    rw [List.map_cons] at h
    obtain ⟨hnot, hrest⟩ := List.nodup_cons.mp h
    rw [amount_cons]
    rcases List.mem_cons.mp hk with rfl | hk
    · rw [if_pos rfl, amount_of_not_mem hnot, add_zero]
    · have hmem : k ∈ l.map Prod.fst := List.mem_map_of_mem hk
      have hne : e.1 ≠ k := fun he => hnot (he ▸ hmem)
      rw [if_neg hne, ih hrest hk, zero_add]

theorem amount_upsert (k : κ) (m : μ) (l : List (κ × μ)) (k' : κ) :
    amount (upsert k m l) k' = amount l k' + if k = k' then m else 0 := by
  induction l with
  | nil => rw [upsert, amount_cons, zero_add, add_comm]
  | cons e l ih =>
    rw [upsert]
    by_cases he : e.1 = k
    · rw [if_pos he, amount_cons, amount_cons, he]
      by_cases hk : k = k'
      · rw [if_pos hk, if_pos hk, if_pos hk, add_right_comm]
      · rw [if_neg hk, if_neg hk, if_neg hk, add_zero]
    · rw [if_neg he, amount_cons, amount_cons, ih, add_assoc]

/-- **The entry of a key is its share of the entries.** -/
theorem get_eq (t : Tally κ μ) (k : κ) : t.get k = amount t.entries k := by
  obtain ⟨l, hl⟩ := t
  show (l.lookup k).getD 0 = amount l k
  induction l with
  | nil => rfl
  | cons e l ih =>
    rw [List.map_cons] at hl
    obtain ⟨hnot, hrest⟩ := List.nodup_cons.mp hl
    rw [List.lookup_cons, amount_cons]
    by_cases he : e.1 = k
    · rw [if_pos he, amount_of_not_mem (he ▸ hnot), add_zero, beq_iff_eq.mpr he.symm]
      rfl
    · rw [if_neg he, zero_add, beq_eq_false_iff_ne.mpr (Ne.symm he)]
      exact ih hrest

theorem get_of_mem (t : Tally κ μ) {k : κ} {x : μ} (h : (k, x) ∈ t.entries) : t.get k = x := by
  rw [get_eq, amount_of_mem t.nodup h]

@[simp] theorem get_empty (k : κ) : (empty : Tally κ μ).get k = 0 := rfl

theorem get_add (t : Tally κ μ) (k : κ) (m : μ) (k' : κ) :
    (t.add k m).get k' = t.get k' + if k = k' then m else 0 := by
  rw [get_eq, get_eq]
  exact amount_upsert k m t.entries k'

/-- **Additions add up**, in whatever order. -/
theorem get_addAll (t : Tally κ μ) (l : List (κ × μ)) (k : κ) :
    (t.addAll l).get k = t.get k + amount l k := by
  induction l generalizing t with
  | nil => rw [addAll, List.foldl_nil, amount, List.map_nil, List.sum_nil, add_zero]
  | cons e l ih =>
    rw [addAll, List.foldl_cons]
    exact (ih (t.add e.1 e.2)).trans (by rw [get_add, amount_cons, add_assoc])

theorem mem_keys_addAll (t : Tally κ μ) (l : List (κ × μ)) {k : κ} :
    k ∈ (t.addAll l).keys ↔ k ∈ t.keys ∨ k ∈ l.map Prod.fst := by
  induction l generalizing t with
  | nil => simp [addAll]
  | cons e l ih =>
    have hadd : k ∈ (t.add e.1 e.2).keys ↔ k ∈ t.keys ∨ k = e.1 := by
      show k ∈ (upsert e.1 e.2 t.entries).map Prod.fst ↔ k ∈ t.entries.map Prod.fst ∨ k = e.1
      rw [keys_upsert]
      split
      next hmem =>
        refine ⟨Or.inl, ?_⟩
        rintro (hk | rfl)
        · exact hk
        · exact hmem
      next => rw [List.mem_append, List.mem_singleton]
    rw [addAll, List.foldl_cons]
    refine (ih (t.add e.1 e.2)).trans ?_
    rw [hadd, List.map_cons, List.mem_cons, or_assoc]

theorem get_merge (t u : Tally κ μ) (k : κ) : (t.merge u).get k = t.get k + u.get k := by
  rw [merge, get_addAll, ← get_eq]

theorem get_perm {t u : Tally κ μ} (h : t.entries.Perm u.entries) (k : κ) : t.get k = u.get k := by
  rw [get_eq, get_eq, amount_perm h]

theorem get_filterKeys (keep : κ → Bool) (t : Tally κ μ) (k : κ) :
    (t.filterKeys keep).get k = if keep k then t.get k else 0 := by
  rw [get_eq, get_eq]
  show amount (t.entries.filter fun e => keep e.1) k = _
  induction t.entries with
  | nil => exact (ite_self 0).symm
  | cons e l ih =>
    rw [List.filter_cons, amount_cons]
    by_cases hk : e.1 = k
    · rw [if_pos hk, hk]
      by_cases hkeep : keep k = true
      · rw [if_pos hkeep] at ih ⊢
        rw [if_pos hkeep, amount_cons, if_pos hk, ih]
      · rw [if_neg hkeep] at ih ⊢
        rw [if_neg hkeep, ih]
    · rw [if_neg hk, zero_add, ← ih]
      split
      · rw [amount_cons, if_neg hk, zero_add]
      · rfl

/-- What is in the entries of `ks`, taken one by one, is what was there. -/
theorem amount_map {ks : List κ} (h : ks.Nodup) (f : κ → μ) (k : κ) :
    amount (ks.map fun k => (k, f k)) k = if k ∈ ks then f k else 0 := by
  have hfst : (ks.map fun k => (k, f k)).map Prod.fst = ks := by
    rw [List.map_map]
    exact List.map_id _
  by_cases hk : k ∈ ks
  · rw [if_pos hk]
    exact amount_of_mem (hfst.symm ▸ h) (List.mem_map.mpr ⟨k, hk, rfl⟩)
  · rw [if_neg hk]
    exact amount_of_not_mem (hfst.symm ▸ hk)

variable [DecidableEq μ]

/-- The keys that have something. -/
def live (t : Tally κ μ) : List κ := t.keys.filter fun k => t.get k ≠ 0

theorem mem_live (t : Tally κ μ) {k : κ} : k ∈ t.live ↔ t.get k ≠ 0 := by
  rw [live, List.mem_filter, decide_eq_true_eq, and_iff_right_iff_imp]
  intro hne
  by_contra hk
  rw [get_eq, amount_of_not_mem hk] at hne
  exact hne rfl

theorem nodup_live (t : Tally κ μ) : t.live.Nodup := t.nodup.filter _

/-- **What its keys have determines the keys that have something.** -/
theorem live_perm {t u : Tally κ μ} (h : ∀ k, t.get k = u.get k) : t.live.Perm u.live := by
  refine (List.perm_ext_iff_of_nodup t.nodup_live u.nodup_live).mpr fun k => ?_
  rw [mem_live, mem_live, h]

end

end Tally

end

/-! ## Ranking the keys -/

namespace Tally

variable {κ μ : Type} {n : μ → Nat} {le : κ → κ → Bool}

/-- More first, and ties by the key. -/
def hotter (n : μ → Nat) (le : κ → κ → Bool) (a b : κ × μ) : Bool :=
  decide (n b.2 < n a.2) || (n a.2 == n b.2 && le a.1 b.1)

/-- The keys, those that have most first. -/
def ranked (n : μ → Nat) (le : κ → κ → Bool) (t : Tally κ μ) : List κ :=
  (t.entries.mergeSort (hotter n le)).map Prod.fst

theorem hotter_iff {a b : κ × μ} :
    hotter n le a b = true ↔ n b.2 < n a.2 ∨ n a.2 = n b.2 ∧ le a.1 b.1 = true := by
  simp [hotter]

/-- The order of the ranking is a chain. -/
theorem hotter_chain (hn : Function.Injective n) (hle : Chain le) : Chain (hotter n le) where
  trans a b c hab hbc := by
    rw [hotter_iff] at *
    rcases hab with hab | ⟨hab, hkab⟩
    · omega
    · rcases hbc with hbc | ⟨hbc, hkbc⟩
      · omega
      · exact .inr ⟨hab.trans hbc, hle.trans _ _ _ hkab hkbc⟩
  total a b := by
    rw [Bool.or_eq_true, hotter_iff, hotter_iff]
    rcases Nat.lt_trichotomy (n a.2) (n b.2) with hlt | heq | hgt
    · exact .inr (.inl hlt)
    · rcases Bool.or_eq_true_iff.mp (hle.total a.1 b.1) with h | h
      · exact .inl (.inr ⟨heq, h⟩)
      · exact .inr (.inr ⟨heq.symm, h⟩)
    · exact .inl (.inl hgt)
  antisymm hab hba := by
    rw [hotter_iff] at *
    rcases hab with hab | ⟨hab, hkab⟩
    · omega
    · rcases hba with hba | ⟨-, hkba⟩
      · omega
      · exact Prod.ext (hle.antisymm hkab hkba) (hn hab)

theorem ranked_keys (t : Tally κ μ) : (ranked n le t).Perm t.keys :=
  (List.mergeSort_perm _ _).map _

/-- The order of the entries does not show in the ranking. -/
theorem ranked_perm (hn : Function.Injective n) (hle : Chain le) {t u : Tally κ μ}
    (hp : t.entries.Perm u.entries) : ranked n le t = ranked n le u := by
  have hchain := hotter_chain hn hle
  refine congrArg (List.map Prod.fst) (hchain.sorted_unique ?_ ?_ ?_)
  · exact hchain.pairwise_mergeSort _
  · exact hchain.pairwise_mergeSort _
  · exact (List.mergeSort_perm _ _).trans (hp.trans (List.mergeSort_perm _ _).symm)

/-- **The ranking of a share is the share of the ranking.** -/
theorem ranked_filter (hn : Function.Injective n) (hle : Chain le) (keep : κ → Bool)
    (t : Tally κ μ) : ranked n le (t.filterKeys keep) = (ranked n le t).filter keep := by
  have hchain := hotter_chain hn hle
  have hsort : (t.entries.filter fun e => keep e.1).mergeSort (hotter n le) =
      (t.entries.mergeSort (hotter n le)).filter fun e => keep e.1 := by
    refine hchain.sorted_unique (hchain.pairwise_mergeSort _) ?_ ?_
    · exact (hchain.pairwise_mergeSort _).filter _
    · exact (List.mergeSort_perm _ _).trans ((List.mergeSort_perm _ _).symm.filter _)
  show ((t.entries.filter fun e => keep e.1).mergeSort (hotter n le)).map Prod.fst = _
  rw [hsort, ranked, List.filter_map]
  rfl

end Tally
