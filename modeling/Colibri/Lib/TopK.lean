import Mathlib.Order.Lattice
import Mathlib.Data.List.Perm.Subperm

/-!
# The k best of n, by sorting

Indices `0..n` are sorted by score, best first, ties to the lower index; the
first `k` are kept and put back in ascending order. What that selects is stated
without a sort: index `t` is kept iff fewer than `k` indices beat it
(`topk_eq_filter`).

The comparison is total and antisymmetric on indices, so an unstable sort gives
the same list as any other.

The best of them is found without a sort, by a scan that keeps the first of the best it
has seen (`FirstBest`).
-/

namespace Colibri.TopK

variable {κ : Type} [LinearOrder κ]

/-- `a` may stand before `b`: a higher score, or the same and a lower index. -/
def better (score : Nat → κ) (a b : Nat) : Bool :=
  decide (score b < score a) || (decide (score a = score b) && decide (a ≤ b))

/-- How many of `0..n` beat `t`. -/
def rank (score : Nat → κ) (n t : Nat) : Nat :=
  (List.range n).countP (fun u => better score u t && decide (u ≠ t))

/-- The `k` best of `0..n`, ascending. -/
def topk (score : Nat → κ) (n k : Nat) : List Nat :=
  (((List.range n).mergeSort (better score)).take k).mergeSort (fun a b => decide (a ≤ b))

theorem better_iff {score : Nat → κ} {a b : Nat} :
    better score a b = true ↔ score b < score a ∨ (score a = score b ∧ a ≤ b) := by
  simp only [better, Bool.or_eq_true, Bool.and_eq_true, decide_eq_true_eq]

theorem better_trans (score : Nat → κ) (a b c : Nat) (h : better score a b = true)
    (h' : better score b c = true) : better score a c = true := by
  rw [better_iff] at h h' ⊢
  rcases h with h | ⟨h, hab⟩
  · rcases h' with h' | ⟨h', _⟩
    · exact Or.inl (lt_trans h' h)
    · exact Or.inl (h' ▸ h)
  · rcases h' with h' | ⟨h', hbc⟩
    · exact Or.inl (h ▸ h')
    · exact Or.inr ⟨h.trans h', Nat.le_trans hab hbc⟩

theorem better_total (score : Nat → κ) (a b : Nat) :
    (better score a b || better score b a) = true := by
  rw [Bool.or_eq_true, better_iff, better_iff]
  rcases lt_trichotomy (score a) (score b) with h | h | h
  · exact Or.inr (Or.inl h)
  · rcases Nat.le_total a b with hab | hab
    · exact Or.inl (Or.inr ⟨h, hab⟩)
    · exact Or.inr (Or.inr ⟨h.symm, hab⟩)
  · exact Or.inl (Or.inl h)

theorem better_antisymm {score : Nat → κ} {a b : Nat} (h : better score a b = true)
    (h' : better score b a = true) : a = b := by
  rw [better_iff] at h h'
  rcases h with h | ⟨h, hab⟩
  · rcases h' with h' | ⟨h', _⟩
    · exact absurd h' (lt_asymm h)
    · exact absurd h (by rw [h']; exact lt_irrefl _)
  · rcases h' with h' | ⟨_, hba⟩
    · exact absurd h' (by rw [h]; exact lt_irrefl _)
    · exact Nat.le_antisymm hab hba

/-- In a list sorted by `better`, without repetitions, the element at position
`i` is beaten by exactly the `i` before it. -/
theorem countP_of_pairwise {score : Nat → κ} {l : List Nat} (hs : l.Pairwise (better score · ·))
    (hnd : l.Nodup) {i : Nat} (hi : i < l.length) :
    l.countP (fun u => better score u l[i] && decide (u ≠ l[i])) = i := by
  have hsplit : l = l.take i ++ l[i] :: l.drop (i + 1) := by
    rw [List.getElem_cons_drop, List.take_append_drop]
  have hs' := hs
  have hnd' := hnd
  rw [hsplit] at hs' hnd'
  obtain ⟨_, hrest, hcross⟩ := List.pairwise_append.mp hs'
  obtain ⟨_, hndrest, hdisj⟩ := List.nodup_append.mp hnd'
  have hbefore : (l.take i).countP (fun u => better score u l[i] && decide (u ≠ l[i])) = i := by
    rw [List.countP_eq_length.mpr, List.length_take, Nat.min_eq_left (Nat.le_of_lt hi)]
    intro u hu
    rw [Bool.and_eq_true, decide_eq_true_eq]
    exact ⟨hcross u hu l[i] List.mem_cons_self, hdisj u hu l[i] List.mem_cons_self⟩
  have hafter : (l[i] :: l.drop (i + 1)).countP
      (fun u => better score u l[i] && decide (u ≠ l[i])) = 0 := by
    rw [List.countP_eq_zero]
    intro u hu hbad
    rw [Bool.and_eq_true, decide_eq_true_eq] at hbad
    rcases List.mem_cons.mp hu with rfl | hu
    · exact hbad.2 rfl
    · exact hbad.2 (better_antisymm hbad.1 ((List.pairwise_cons.mp hrest).1 u hu))
  calc l.countP (fun u => better score u l[i] && decide (u ≠ l[i]))
      = (l.take i ++ l[i] :: l.drop (i + 1)).countP
          (fun u => better score u l[i] && decide (u ≠ l[i])) := by rw [← hsplit]
    _ = i := by rw [List.countP_append, hbefore, hafter, Nat.add_zero]

/-- Membership in the first `k` of the sorted indices is a rank below `k`. -/
theorem mem_take_iff (score : Nat → κ) (n k t : Nat) :
    t ∈ ((List.range n).mergeSort (better score)).take k ↔ t < n ∧ rank score n t < k := by
  have hperm := List.mergeSort_perm (List.range n) (better score)
  have hs : ((List.range n).mergeSort (better score)).Pairwise (better score · ·) :=
    List.pairwise_mergeSort (better_trans score) (better_total score) _
  have hnd : ((List.range n).mergeSort (better score)).Nodup :=
    hperm.nodup_iff.mpr List.nodup_range
  have hrank : ∀ i (hi : i < ((List.range n).mergeSort (better score)).length),
      rank score n ((List.range n).mergeSort (better score))[i] = i := by
    intro i hi
    rw [rank, ← hperm.countP_eq]
    exact countP_of_pairwise hs hnd hi
  constructor
  · intro h
    obtain ⟨i, hi, he⟩ := List.mem_take_iff_getElem.mp h
    subst he
    refine ⟨List.mem_range.mp (hperm.mem_iff.mp (List.getElem_mem _)), ?_⟩
    rw [hrank i (by omega)]
    omega
  · rintro ⟨ht, hr⟩
    obtain ⟨i, hi, he⟩ := List.getElem_of_mem (hperm.mem_iff.mpr (List.mem_range.mpr ht))
    subst he
    rw [hrank i hi] at hr
    exact List.mem_take_iff_getElem.mpr ⟨i, by omega, rfl⟩

/-- Sorting indices puts them in ascending order. -/
theorem pairwise_sort_le (l : List Nat) :
    (l.mergeSort fun a b => decide (a ≤ b)).Pairwise (· ≤ ·) := by
  have h := @List.pairwise_mergeSort Nat (fun a b => decide (a ≤ b))
    (fun a b c hab hbc => by
      rw [decide_eq_true_eq] at hab hbc ⊢
      exact Nat.le_trans hab hbc)
    (fun a b => by
      rw [Bool.or_eq_true, decide_eq_true_eq, decide_eq_true_eq]
      exact Nat.le_total a b) l
  exact h.imp fun hab => of_decide_eq_true hab

/-- **The k best without a sort**: the indices beaten by fewer than `k`. -/
theorem topk_eq_filter (score : Nat → κ) (n k : Nat) :
    topk score n k = (List.range n).filter (fun t => decide (rank score n t < k)) := by
  have hnd : (((List.range n).mergeSort (better score)).take k).Nodup :=
    (((List.mergeSort_perm (List.range n) (better score)).nodup_iff).mpr
      List.nodup_range).sublist (List.take_sublist _ _)
  have hperm : (topk score n k).Perm
      ((List.range n).filter (fun t => decide (rank score n t < k))) := by
    refine (List.mergeSort_perm _ _).trans ?_
    rw [List.perm_ext_iff_of_nodup hnd (List.nodup_range.filter _)]
    intro t
    rw [mem_take_iff, List.mem_filter, List.mem_range, decide_eq_true_eq]
  have hle : ∀ a b : Nat, a ∈ topk score n k →
      b ∈ (List.range n).filter (fun t => decide (rank score n t < k)) → a ≤ b → b ≤ a → a = b :=
    fun _ _ _ _ => Nat.le_antisymm
  refine hperm.eq_of_pairwise hle ?_ ?_
  · exact pairwise_sort_le _
  · exact (List.pairwise_le_range.filter _)

/-- No index beats itself. -/
theorem rank_lt (score : Nat → κ) {n t : Nat} (ht : t < n) : rank score n t < n := by
  have hsub : (List.range n).filter (fun u => better score u t && decide (u ≠ t))
      ⊆ (List.range n).erase t := by
    intro u hu
    obtain ⟨hun, hbeat⟩ := List.mem_filter.mp hu
    rw [Bool.and_eq_true, decide_eq_true_eq] at hbeat
    exact (List.nodup_range.mem_erase_iff).mpr ⟨hbeat.2, hun⟩
  have hle := (List.Nodup.subperm (List.nodup_range.filter _) hsub).length_le
  rw [← List.countP_eq_length_filter, List.length_erase_of_mem (List.mem_range.mpr ht),
    List.length_range] at hle
  show List.countP _ _ < n
  omega

theorem rank_congr {f g : Nat → κ} {n t : Nat} (h : ∀ u, u < n → f u = g u) (ht : t < n) :
    rank f n t = rank g n t := by
  refine List.countP_congr (fun u hu => ?_)
  rw [List.mem_range] at hu
  rw [better, better, h t ht, h u hu]

theorem topk_congr {f g : Nat → κ} {n : Nat} (h : ∀ t, t < n → f t = g t) (k : Nat) :
    topk f n k = topk g n k := by
  rw [topk_eq_filter, topk_eq_filter]
  refine List.filter_congr (fun t ht => ?_)
  rw [List.mem_range] at ht
  rw [rank_congr h ht]

/-! ## Selections in any order -/

/-- `sel` are the `k` best of `0..n`: all of them if there are no more, and else those that
fewer than `k` beat. -/
structure Selects (score : Nat → κ) (n k : Nat) (sel : List Nat) : Prop where
  nodup : sel.Nodup
  length_eq : sel.length = min k n
  mem_iff : ∀ t, t ∈ sel ↔ t < n ∧ rank score n t < k

variable {score : Nat → κ} {n k : Nat} {sel : List Nat}

theorem selects_take (score : Nat → κ) (n k : Nat) :
    Selects score n k (((List.range n).mergeSort (better score)).take k) := by
  refine ⟨?_, ?_, mem_take_iff score n k⟩
  · exact (((List.mergeSort_perm (List.range n) (better score)).nodup_iff).mpr
      List.nodup_range).sublist (List.take_sublist _ _)
  · rw [List.length_take, List.length_mergeSort, List.length_range]

theorem Selects.perm {sel' : List Nat} (h : Selects score n k sel) (hperm : sel.Perm sel') :
    Selects score n k sel' :=
  ⟨hperm.nodup_iff.mp h.nodup, hperm.length_eq.symm.trans h.length_eq,
    fun t => hperm.mem_iff.symm.trans (h.mem_iff t)⟩

theorem Selects.congr {score' : Nat → κ} (h : Selects score n k sel)
    (heq : ∀ t, t < n → score t = score' t) : Selects score' n k sel := by
  refine ⟨h.nodup, h.length_eq, fun t => ?_⟩
  rw [h.mem_iff]
  exact and_congr_right fun ht => by rw [rank_congr heq ht]

/-- Whatever beats `u` beats what `u` beats, and so does `u`. -/
theorem rank_lt_rank {t u : Nat} (hu : u < n) (h : better score u t = true) (hne : u ≠ t) :
    rank score n u < rank score n t := by
  have hmem : ∀ v w, v ∈ (List.range n).filter (fun v => better score v w && decide (v ≠ w)) ↔
      v < n ∧ better score v w = true ∧ v ≠ w := fun v w => by
    rw [List.mem_filter, List.mem_range, Bool.and_eq_true, decide_eq_true_eq]
  have hsub : u :: (List.range n).filter (fun v => better score v u && decide (v ≠ u))
      ⊆ (List.range n).filter fun v => better score v t && decide (v ≠ t) := by
    intro v hv
    rcases List.mem_cons.mp hv with rfl | hv
    · exact (hmem v t).mpr ⟨hu, h, hne⟩
    · obtain ⟨hvn, hvu, hvne⟩ := (hmem v u).mp hv
      refine (hmem v t).mpr ⟨hvn, better_trans score v u t hvu h, ?_⟩
      rintro rfl
      exact hvne (better_antisymm hvu h)
  have hnd : (u :: (List.range n).filter
      fun v => better score v u && decide (v ≠ u)).Nodup := by
    refine List.nodup_cons.mpr ⟨fun hin => ?_, List.nodup_range.filter _⟩
    exact ((hmem u u).mp hin).2.2 rfl
  have hle := (List.Nodup.subperm hnd hsub).length_le
  rw [List.length_cons, ← List.countP_eq_length_filter, ← List.countP_eq_length_filter] at hle
  exact hle

/-- What is selected beats what is not. -/
theorem Selects.beats (h : Selects score n k sel) {t u : Nat} (ht : t ∈ sel) (hu : u < n)
    (hnot : u ∉ sel) : better score t u = true := by
  have hrank := ((h.mem_iff t).mp ht).2
  have hrank' : k ≤ rank score n u := Nat.le_of_not_lt fun hlt => hnot ((h.mem_iff u).mpr ⟨hu, hlt⟩)
  have htotal := better_total score t u
  rw [Bool.or_eq_true] at htotal
  refine htotal.resolve_right fun hbeat => ?_
  have hne : u ≠ t := by
    rintro rfl
    exact hnot ht
  have := rank_lt_rank hu hbeat hne
  omega

/-- A selection is known by this: what is in it beats what is not. -/
theorem Selects.of_beats (hnd : sel.Nodup) (hlen : sel.length = min k n)
    (hlt : ∀ t ∈ sel, t < n)
    (hbeats : ∀ t ∈ sel, ∀ u < n, u ∉ sel → better score t u = true) :
    Selects score n k sel := by
  refine ⟨hnd, hlen, fun t => ⟨fun ht => ⟨hlt t ht, ?_⟩, fun ⟨ht, hrank⟩ => ?_⟩⟩
  · -- what beats `t` is another of the selection
    have hsub : (List.range n).filter (fun u => better score u t && decide (u ≠ t))
        ⊆ sel.erase t := by
      intro u hu
      obtain ⟨hun, hbeat⟩ := List.mem_filter.mp hu
      rw [Bool.and_eq_true, decide_eq_true_eq] at hbeat
      rw [hnd.mem_erase_iff]
      refine ⟨hbeat.2, ?_⟩
      by_contra hnot
      exact hbeat.2 (better_antisymm hbeat.1
        (hbeats t ht u (List.mem_range.mp hun) hnot))
    have hle := (List.Nodup.subperm (List.nodup_range.filter _) hsub).length_le
    rw [List.length_erase_of_mem ht, ← List.countP_eq_length_filter] at hle
    have hpos := List.length_pos_of_mem ht
    show List.countP _ _ < k
    omega
  · by_contra hnot
    -- all of the selection beats `t`
    have hsub : sel ⊆ (List.range n).filter (fun u => better score u t && decide (u ≠ t)) := by
      intro u hu
      refine List.mem_filter.mpr ⟨List.mem_range.mpr (hlt u hu), ?_⟩
      rw [Bool.and_eq_true, decide_eq_true_eq]
      exact ⟨hbeats u hu t ht hnot, fun heq => hnot (heq ▸ hu)⟩
    have hle := (hnd.subperm hsub).length_le
    rw [← List.countP_eq_length_filter] at hle
    have hfew : sel.length ≤ ((List.range n).erase t).length := by
      refine (hnd.subperm fun u hu => ?_).length_le
      rw [List.nodup_range.mem_erase_iff]
      exact ⟨fun heq => hnot (heq ▸ hu), List.mem_range.mpr (hlt u hu)⟩
    rw [List.length_erase_of_mem (List.mem_range.mpr ht), List.length_range] at hfew
    have : sel.length ≤ rank score n t := hle
    omega

/-! ## The best by one scan -/

/-- `i` is the first of the best of those indices below `n` that are admitted. -/
structure FirstBest (admits : Nat → Prop) (score : Nat → κ) (n i : Nat) : Prop where
  lt : i < n
  admitted : admits i
  best : ∀ u < n, admits u → score u ≤ score i
  first : ∀ u < i, admits u → score u < score i

variable {admits : Nat → Prop} {i j : Nat}

theorem FirstBest.beats (h : FirstBest admits score n i) {u : Nat} (hu : u < n)
    (ha : admits u) : better score i u = true := by
  rw [better_iff]
  rcases lt_or_eq_of_le (h.best u hu ha) with hlt | heq
  · exact Or.inl hlt
  · refine Or.inr ⟨heq.symm, Nat.le_of_not_lt fun hui => ?_⟩
    exact absurd (h.first u hui ha) (by rw [heq]; exact lt_irrefl _)

theorem FirstBest.unique (h : FirstBest admits score n i) (h' : FirstBest admits score n j) :
    i = j :=
  better_antisymm (h.beats h'.lt h'.admitted) (h'.beats h.lt h.admitted)

theorem FirstBest.keep (h : FirstBest admits score n i) (hn : admits n → score n ≤ score i) :
    FirstBest admits score (n + 1) i := by
  refine ⟨Nat.lt_succ_of_lt h.lt, h.admitted, fun u hu ha => ?_, h.first⟩
  rcases Nat.lt_succ_iff_lt_or_eq.mp hu with hlt | rfl
  · exact h.best u hlt ha
  · exact hn ha

theorem FirstBest.take (hn : admits n) (hall : ∀ u < n, admits u → score u < score n) :
    FirstBest admits score (n + 1) n := by
  refine ⟨Nat.lt_succ_self n, hn, fun u hu ha => ?_, hall⟩
  rcases Nat.lt_succ_iff_lt_or_eq.mp hu with hlt | rfl
  · exact le_of_lt (hall u hlt ha)
  · exact le_refl _

end Colibri.TopK
