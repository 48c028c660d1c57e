import Colibri.Cache.State
import Mathlib.Data.List.Nodup

/-!
# Eviction, and the plain rule

The plain rule takes the entry of least score off the map, of those that are neither pinned
nor protected, until the bytes fit or there is none. The cache ranks once and cuts down the
list. Scores do not change while entries are removed, so the two take the same entries off,
whichever way ties go (`evictTo_plain`, `plain_evictTo`).

The score leads with the age, which is counted in wrapping 32-bit arithmetic. `Stamped` says
what the stamps stand for: accesses counted without end, each entry used less than `2 ^ 32`
accesses ago.

* `exists_ranked`: there is always a ranking, and `Ranked.tail` and `Ranked.cons` take it apart.
* `evictLoop_plain` and `plain_evictTo` are the two directions, the first for every ranking and the
  second for one that has its ties as the plain rule took them.
* `Plain.least_first`: nothing is taken off before what has a lesser score, and by
  `Stamped.score_lt` that is what was used less recently.
* `eviction_plain` puts them together, and `eviction_plain_wrapped` is a clock that has wrapped.
-/

namespace Colibri.Cache.State

section

variable {E : Type}

/-- The score of an entry at the clock of a state. -/
def score (s : State E) (kv : Key × Entry E) : Nat := evictScore kv.2.heat kv.2.last s.clock

/-- The plain rule: the entries it takes off, in order, and the state it ends in. -/
inductive Plain (budget : Nat) (protect : List Key) :
    State E → List (Key × Entry E) → State E → Prop
  | fits {s : State E} (h : s.bytes ≤ budget) : Plain budget protect s [] s
  | stuck {s : State E} (h : s.candidates protect = []) : Plain budget protect s [] s
  | evict {s s' : State E} {kv : Key × Entry E} {removed : List (Key × Entry E)}
      (hover : budget < s.bytes) (hmem : kv ∈ s.candidates protect)
      (hleast : ∀ other ∈ s.candidates protect, s.score kv ≤ s.score other)
      (next : Plain budget protect (s.remove kv.1 kv.2.bytes) removed s') :
      Plain budget protect s (kv :: removed) s'

/-- What the stamps stand for: `now` accesses so far, and `used` of them up to the last use
of each key, less than `2 ^ 32` ago. -/
structure Stamped (s : State E) (now : Nat) (used : Key → Nat) : Prop where
  clock : s.clock = now % (u32Max + 1)
  last : ∀ kv ∈ s.entries, kv.2.last = used kv.1 % (u32Max + 1)
  past : ∀ kv ∈ s.entries, used kv.1 ≤ now
  recent : ∀ kv ∈ s.entries, now < used kv.1 + (u32Max + 1)

variable {s s' : State E} {budget : Nat} {protect : List Key} {victims : List (Key × Entry E)}

variable {kv : Key × Entry E}

theorem mem_candidates : kv ∈ s.candidates protect ↔
    kv ∈ s.entries ∧ kv.1 ∉ s.pinned ∧ kv.1 ∉ protect := by
  rw [candidates, List.mem_filter, decide_eq_true_eq]

theorem candidates_remove (key : Key) (b : Nat) :
    (s.remove key b).candidates protect = (s.candidates protect).filter fun kv => kv.1 ≠ key := by
  unfold candidates remove
  dsimp only
  rw [List.filter_filter, List.filter_filter]
  refine List.filter_congr fun kv _ => ?_
  exact Bool.and_comm _ _

theorem Accounted.unique (h : s.Accounted) {kv' : Key × Entry E} (hmem : kv ∈ s.entries)
    (hmem' : kv' ∈ s.entries) (heq : kv.1 = kv'.1) : kv = kv' :=
  List.inj_on_of_nodup_map h.nodup hmem hmem' heq

theorem Accounted.candidates_nodup (h : s.Accounted) : (s.candidates protect).Nodup :=
  (List.Nodup.of_map Prod.fst h.nodup).sublist List.filter_sublist

/-! ## One after the other is as ranked -/

/-- The first of a ranking has the least score, and what is left is a ranking of what is
left. -/
theorem Ranked.tail (h : s.Accounted)
    (hr : s.Ranked protect (kv :: victims)) :
    (∀ other ∈ s.candidates protect, s.score kv ≤ s.score other) ∧
      (s.remove kv.1 kv.2.bytes).Ranked protect victims := by
  obtain ⟨hperm, hsort⟩ := hr
  rw [List.pairwise_cons] at hsort
  constructor
  · intro other hother
    rcases List.mem_cons.mp (hperm.mem_iff.mpr hother) with rfl | hmem
    · exact Nat.le_refl _
    · exact hsort.1 other hmem
  · refine ⟨?_, hsort.2⟩
    rw [candidates_remove]
    have hkv := hperm.mem_iff.mp (List.mem_cons_self ..)
    have hnd := hperm.nodup_iff.mpr h.candidates_nodup
    have hfilter := hperm.filter fun x => decide (x.1 ≠ kv.1)
    rw [List.filter_cons_of_neg (by simp)] at hfilter
    rw [List.filter_eq_self.mpr] at hfilter
    · exact hfilter
    · intro x hx
      rw [decide_eq_true_eq]
      intro heq
      have hmem := hperm.mem_iff.mp (List.mem_cons_of_mem _ hx)
      have := h.unique (mem_candidates.mp hmem).1 (mem_candidates.mp hkv).1 heq
      subst this
      exact (List.nodup_cons.mp hnd).1 hx

/-- A least entry before a ranking of the others. -/
theorem Ranked.cons (h : s.Accounted) (hmem : kv ∈ s.candidates protect)
    (hleast : ∀ other ∈ s.candidates protect, s.score kv ≤ s.score other)
    (hr : (s.remove kv.1 kv.2.bytes).Ranked protect victims) :
    s.Ranked protect (kv :: victims) := by
  obtain ⟨hperm, hsort⟩ := hr
  rw [candidates_remove] at hperm
  have hothers : (s.candidates protect).Perm
      (kv :: (s.candidates protect).filter fun x => x.1 ≠ kv.1) := by
    refine (List.perm_ext_iff_of_nodup h.candidates_nodup ?_).mpr fun x => ?_
    · refine List.nodup_cons.mpr ⟨by simp, h.candidates_nodup.sublist List.filter_sublist⟩
    · rw [List.mem_cons, List.mem_filter, decide_eq_true_eq]
      constructor
      · intro hx
        by_cases heq : x.1 = kv.1
        · exact .inl (h.unique (mem_candidates.mp hx).1 (mem_candidates.mp hmem).1 heq)
        · exact .inr ⟨hx, heq⟩
      · rintro (rfl | hx)
        · exact hmem
        · exact hx.1
  refine ⟨(hperm.cons kv).trans hothers.symm, List.pairwise_cons.mpr ⟨fun x hx => ?_, hsort⟩⟩
  exact hleast x (List.mem_of_mem_filter (hperm.mem_iff.mp hx))

/-- There is always a ranking. -/
theorem exists_ranked (s : State E) (protect : List Key) : ∃ victims, s.Ranked protect victims := by
  refine ⟨(s.candidates protect).mergeSort fun a b => s.score a ≤ s.score b,
    List.mergeSort_perm .., ?_⟩
  refine (List.pairwise_mergeSort ?_ ?_ _).imp fun h => of_decide_eq_true h
  · intro a b c hab hbc
    simp only [decide_eq_true_eq] at hab hbc ⊢
    exact Nat.le_trans hab hbc
  · intro a b
    simp only [Bool.or_eq_true, decide_eq_true_eq]
    exact Nat.le_total _ _

/-- The check before the loop is the loop's own. -/
theorem evictTo_eq : s.evictTo budget victims = evictLoop budget victims s := by
  rw [evictTo]
  split
  next hfits =>
    cases victims with
    | nil => rfl
    | cons kv victims =>
      obtain ⟨k, v⟩ := kv
      rw [evictLoop, if_pos hfits]
  next => rfl

/-- **The list cut down is the plain rule.** -/
theorem evictLoop_plain (h : s.Accounted) (hr : s.Ranked protect victims)
    (hev : evictLoop budget victims s = some s') : ∃ removed, Plain budget protect s removed s' := by
  induction victims generalizing s with
  | nil =>
    obtain rfl : s = s' := by simpa [evictLoop] using hev
    exact ⟨[], .stuck hr.1.nil_eq.symm⟩
  | cons kv victims ih =>
    obtain ⟨k, v⟩ := kv
    have hmem := hr.1.mem_iff.mp (List.mem_cons_self ..)
    obtain ⟨hleast, hrest⟩ := hr.tail h
    rw [evictLoop] at hev
    split at hev
    next hfits =>
      obtain rfl : s = s' := by simpa using hev
      exact ⟨[], .fits hfits⟩
    next hover =>
      split at hev
      next hnone =>
        exact absurd (mem_keys_of_mem (mem_candidates.mp hmem).1) (get_eq_none_iff.mp hnone)
      next =>
        split at hev
        next => cases hev
        next =>
          obtain ⟨removed, hplain⟩ := ih (h.remove (mem_candidates.mp hmem).1) hrest hev
          exact ⟨(k, v) :: removed, .evict (Nat.lt_of_not_le hover) hmem hleast hplain⟩

/-- **The plain rule is the list cut down**, for a ranking that has its ties as it took
them. -/
theorem plain_evictTo {removed : List (Key × Entry E)} (h : s.Accounted)
    (hp : Plain budget protect s removed s') :
    ∃ victims, s.Ranked protect victims ∧ s.evictTo budget victims = some s' := by
  induction hp with
  | @fits s hfits =>
    obtain ⟨victims, hr⟩ := s.exists_ranked protect
    exact ⟨victims, hr, if_pos hfits⟩
  | @stuck s hnone =>
    refine ⟨[], ⟨?_, List.Pairwise.nil⟩, ?_⟩
    · rw [hnone]
    · rw [evictTo_eq, evictLoop]
  | @evict s s' kv removed hover hmem hleast _ ih =>
    have hentry := (mem_candidates.mp hmem).1
    obtain ⟨victims, hr, hev⟩ := ih (h.remove hentry)
    refine ⟨kv :: victims, hr.cons h hmem hleast, ?_⟩
    rw [evictTo_eq] at hev ⊢
    have hget : ∃ e, s.get kv.1 = some e :=
      Option.isSome_iff_exists.mp (get_isSome_iff.mpr (mem_keys_of_mem hentry))
    obtain ⟨e, he⟩ := hget
    have hbytes : ¬ s.bytes < kv.2.bytes := by
      have hsum := charged_filter h hentry
      rw [h.bytes_eq, hsum]
      omega
    show evictLoop budget ((kv.1, kv.2) :: victims) s = some s'
    rw [evictLoop, if_neg (Nat.not_le_of_lt hover), he]
    dsimp only
    rw [if_neg hbytes]
    exact hev

/-! ## What the plain rule takes off -/

/-- The map without what was taken off. -/
theorem Plain.entries {removed : List (Key × Entry E)} (h : s.Accounted)
    (hp : Plain budget protect s removed s') :
    ∀ kv, kv ∈ removed ↔ kv ∈ s.entries ∧ kv ∉ s'.entries := by
  induction hp with
  | fits _ => simp
  | stuck _ => simp
  | @evict s s' kv removed _ hmem _ hnext ih =>
    have hentry := (mem_candidates.mp hmem).1
    have hrest := ih (h.remove hentry)
    have hgone : ∀ x, x ∈ (s.remove kv.1 kv.2.bytes).entries ↔ x ∈ s.entries ∧ x.1 ≠ kv.1 := by
      intro x
      rw [remove, List.mem_filter, decide_eq_true_eq]
    have hsub : ∀ x ∈ s'.entries, x ∈ (s.remove kv.1 kv.2.bytes).entries := by
      clear ih hrest
      generalize s.remove kv.1 kv.2.bytes = t at hnext
      induction hnext with
      | fits _ => exact fun _ hx => hx
      | stuck _ => exact fun _ hx => hx
      | evict _ _ _ _ ih => exact fun x hx => List.mem_of_mem_filter (ih x hx)
    intro x
    rw [List.mem_cons, hrest x, hgone x]
    constructor
    · rintro (rfl | ⟨⟨hx, -⟩, hout⟩)
      · exact ⟨hentry, fun hx => ((hgone _).mp (hsub _ hx)).2 rfl⟩
      · exact ⟨hx, hout⟩
    · intro hx
      by_cases heq : x.1 = kv.1
      · exact .inl (h.unique hx.1 hentry heq)
      · exact .inr ⟨⟨hx.1, heq⟩, hx.2⟩

/-- Nothing is taken off before what has a lesser score. -/
theorem Plain.least_first {removed : List (Key × Entry E)} (h : s.Accounted)
    (hp : Plain budget protect s removed s') {other : Key × Entry E} (hkv : kv ∈ removed)
    (hother : other ∈ s.candidates protect) (hlt : s.score other < s.score kv) :
    other ∈ removed := by
  induction hp with
  | fits _ => cases hkv
  | stuck _ => cases hkv
  | @evict s s' first removed _ hmem hleast _ ih =>
    rcases List.mem_cons.mp hkv with rfl | hkv
    · exact absurd (hleast other hother) (Nat.not_le_of_lt hlt)
    · by_cases heq : other.1 = first.1
      · rw [h.unique (mem_candidates.mp hother).1 (mem_candidates.mp hmem).1 heq]
        exact List.mem_cons_self ..
      · refine List.mem_cons_of_mem _ (ih (h.remove (mem_candidates.mp hmem).1) hkv ?_ hlt)
        rw [candidates_remove]
        exact List.mem_filter.mpr ⟨hother, decide_eq_true heq⟩

/-- The score of a stamped entry is by its age in accesses. -/
theorem Stamped.score_eq {now : Nat} {used : Key → Nat} (h : s.Stamped now used)
    (hmem : kv ∈ s.entries) :
    s.score kv = (u32Max - (now - used kv.1)) * 65536 + min kv.2.heat 0xffff := by
  have hpast := h.past kv hmem
  have hrecent := h.recent kv hmem
  unfold score evictScore
  rw [h.clock, h.last kv hmem]
  have hage : (now % (u32Max + 1) + (u32Max + 1) - used kv.1 % (u32Max + 1)) % (u32Max + 1) =
      now - used kv.1 := by
    unfold u32Max at hrecent ⊢
    omega
  rw [hage]

/-- Used less recently, scored less. -/
theorem Stamped.score_lt {now : Nat} {used : Key → Nat} (h : s.Stamped now used)
    {other : Key × Entry E} (hmem : kv ∈ s.entries) (hother : other ∈ s.entries)
    (hlt : used other.1 < used kv.1) : s.score other < s.score kv := by
  have hpast := h.past kv hmem
  have hrecent := h.recent other hother
  rw [h.score_eq hmem, h.score_eq hother]
  have hheat : min other.2.heat 0xffff < 65536 := by omega
  have hage : u32Max - (now - used other.1) + 1 ≤ u32Max - (now - used kv.1) := by omega
  have hmul := Nat.mul_le_mul_right 65536 hage
  rw [Nat.add_mul, Nat.one_mul] at hmul
  omega

/-- **Eviction is the plain rule**: whichever way the ranking has its ties, it takes off what
the plain rule does for a resolution of them, and each such resolution has a ranking. So an
entry is evicted only after every other candidate that was used less recently. -/
theorem eviction_plain (h : s.Accounted) (budget : Nat) (protect : List Key) :
    (∀ victims, s.Ranked protect victims → ∃ s' removed,
      s.evictTo budget victims = some s' ∧ Plain budget protect s removed s' ∧
      (∀ kv, kv ∈ removed ↔ kv ∈ s.entries ∧ kv ∉ s'.entries) ∧
      ∀ now used, s.Stamped now used → ∀ kv ∈ removed, ∀ other ∈ s.candidates protect,
        used other.1 < used kv.1 → other ∈ removed) ∧
    ∀ removed s', Plain budget protect s removed s' →
      ∃ victims, s.Ranked protect victims ∧ s.evictTo budget victims = some s' := by
  refine ⟨fun victims hr => ?_, fun removed s' hp => plain_evictTo h hp⟩
  obtain ⟨s', hev⟩ := Option.isSome_iff_exists.mp (evictTo_isSome h hr budget)
  obtain ⟨removed, hp⟩ := evictLoop_plain h hr (evictTo_eq ▸ hev)
  refine ⟨s', removed, hev, hp, hp.entries h, fun now used hst kv hkv other hother hlt => ?_⟩
  refine hp.least_first h hkv hother (hst.score_lt ?_ (mem_candidates.mp hother).1 hlt)
  exact ((hp.entries h kv).mp hkv).1

/-- Two entries, the clock just past its wrap. -/
def wrapped : State Unit where
  entries := [((0, 0), ⟨(), 3, 1, 1⟩), ((0, 1), ⟨(), 4, 2, u32Max⟩)]
  pinned := []
  bytes := 7
  clock := 2
  hits := 0
  misses := 0
  evictions := 0
  sessionUsage := fun _ => 0

theorem wrapped_accounted : wrapped.Accounted := ⟨by decide, rfl⟩

/-- Of its two entries the one used before the wrap goes, and not the one with the smaller stamp. -/
theorem eviction_plain_wrapped :
    (∀ victims, wrapped.Ranked [] victims → ∃ s' removed,
      wrapped.evictTo 3 victims = some s' ∧ Plain 3 [] wrapped removed s' ∧
      (∀ kv, kv ∈ removed ↔ kv ∈ wrapped.entries ∧ kv ∉ s'.entries) ∧
      ∀ now used, wrapped.Stamped now used → ∀ kv ∈ removed, ∀ other ∈ wrapped.candidates [],
        used other.1 < used kv.1 → other ∈ removed) ∧
    ∀ removed s', Plain 3 [] wrapped removed s' →
      ∃ victims, wrapped.Ranked [] victims ∧ wrapped.evictTo 3 victims = some s' :=
  eviction_plain wrapped_accounted 3 []

end

end Colibri.Cache.State
