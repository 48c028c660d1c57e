import Colibri.Cache.Steps

/-!
# The bytes of the cache

Whatever the calls and their order, the cache's byte count is the sum over the entries
it holds, and evicting never subtracts more than is there (`cache_accounting`): an entry
is charged where it is inserted and released where it is removed, both under the lock,
and a load that finds its key taken charges nothing.

* `step_cases` is what a step does to the state: nothing that counts, or one eviction, for one of
  the tasks.
* `step_accounted`: the invariant of `Cache.State` goes through a step, the eviction of a step does
  not underflow, what is pinned stays, and the bytes are within the budget afterwards or nothing is
  left that may go.
* `reached_accounted` is the induction over a run.

The witness is a `pin` of a key that is loaded beside another one, with room for one of the two.
-/

namespace Colibri.Cache

open State

section

variable {E : Type} {inner : Inner E}

/-- Every entry is charged its expert's size. -/
def Sized (inner : Inner E) (s : State E) : Prop :=
  ∀ x ∈ s.contents, x.2.2 = inner.size x.2.1

/-- A step that evicts nothing, and changes no entry and unpins nothing. -/
def Quiet (s s' : State E) : Prop :=
  s'.contents = s.contents ∧ s'.bytes = s.bytes ∧ ∀ key ∈ s.pinned, key ∈ s'.pinned

/-- An eviction of a state with what `s` has and possibly more. -/
structure Eviction.Of (inner : Inner E) (s : State E) (ev : Eviction E) : Prop where
  accounted : ev.before.Accounted
  ranked : ev.before.Ranked ev.protect ev.victims
  pinned : ev.before.pinned = s.pinned
  keeps : ∀ x ∈ s.contents, x ∈ ev.before.contents
  adds : ∀ x ∈ ev.before.contents, x ∈ s.contents ∨ x.2.2 = inner.size x.2.1

variable {s s' : State E} {l : Label E} {c : ExpertCache E}

/-- The same, of a step of one task. -/
theorem taskStep_cases {budget : Nat} {t t' : Task E}
    {s' : Option (State E)} (hs : s.Accounted) (h : TaskStep inner budget s t l s' t') :
    (l.eviction = none ∧ ∃ s₁, s' = some s₁ ∧ Quiet s s₁) ∨
      ∃ ev, l.eviction = some ev ∧ Eviction.Of inner s ev ∧
        s' = ev.before.evictTo ev.budget ev.victims := by
  cases h with
  | @hit key use e he =>
    exact Or.inl ⟨rfl, _, rfl, hit_contents key, rfl, fun _ hk => hk⟩
  | miss _ => exact Or.inl ⟨rfl, _, rfl, rfl, rfl, fun _ hk => hk⟩
  | loaded _ => exact Or.inl ⟨rfl, _, rfl, rfl, rfl, fun _ hk => hk⟩
  | failed _ => exact Or.inl ⟨rfl, _, rfl, rfl, rfl, fun _ hk => hk⟩
  | lost _ => exact Or.inl ⟨rfl, _, rfl, rfl, rfl, fun _ hk => hk⟩
  | @insert key use ex victims hnew hr =>
    refine Or.inr ⟨_, rfl, ⟨hs.insert hnew ex _, hr, rfl, ?_, ?_⟩, rfl⟩
    · exact fun x hx => List.mem_cons_of_mem _ hx
    · intro x hx
      rcases List.mem_cons.mp hx with rfl | hx
      · exact Or.inr rfl
      · exact Or.inl hx
  | register =>
    exact Or.inl ⟨rfl, _, rfl, rfl, rfl, fun _ hk => List.mem_insert_of_mem hk⟩
  | resident _ => exact Or.inl ⟨rfl, _, rfl, rfl, rfl, fun _ hk => hk⟩
  | filter _ _ => exact Or.inl ⟨rfl, _, rfl, rfl, rfl, fun _ hk => hk⟩
  | batched _ _ => exact Or.inl ⟨rfl, _, rfl, rfl, rfl, fun _ hk => hk⟩
  | singly _ _ _ => exact Or.inl ⟨rfl, _, rfl, rfl, rfl, fun _ hk => hk⟩
  | @insertBatch layer missing loaded victims hr =>
    obtain ⟨hkeep, hnew⟩ := mem_insertBatch (s := s) inner.size layer loaded
    refine Or.inr ⟨_, rfl, ⟨hs.insertBatch inner.size layer, hr, insertBatch_pinned .., ?_, ?_⟩,
      rfl⟩
    · intro x hx
      obtain ⟨e, he, hex, hb⟩ := mem_contents.mp hx
      exact mem_contents.mpr ⟨e, hkeep _ he, hex, hb⟩
    · intro x hx
      obtain ⟨e, he, hex, hb⟩ := mem_contents.mp hx
      rcases hnew _ he with hold | ⟨p, -, -, hpe, hpb⟩
      · exact Or.inl (mem_contents.mpr ⟨e, hold, hex, hb⟩)
      · right
        rw [← hb, ← hex, hpb, hpe]

/-- **What a step does to the state**: nothing that counts, or one eviction. -/
theorem step_cases {r : Option (ExpertCache E)}
    (hs : c.state.Accounted) (h : Step inner c l r) :
    (l.eviction = none ∧ ∃ c', r = some c' ∧ Quiet c.state c'.state) ∨
      ∃ ev, l.eviction = some ev ∧ Eviction.Of inner c.state ev ∧
        r.map ExpertCache.state = ev.before.evictTo ev.budget ev.victims := by
  cases h with
  | call op => exact Or.inl ⟨rfl, _, rfl, rfl, rfl, fun _ hk => hk⟩
  | @run i t t' l s' hi ht =>
    rcases taskStep_cases hs ht with ⟨hno, s₁, rfl, hquiet⟩ | ⟨ev, hev, hof, rfl⟩
    · exact Or.inl ⟨hno, _, rfl, hquiet⟩
    · refine Or.inr ⟨ev, hev, hof, ?_⟩
      rw [Option.map_map]
      exact congrFun Option.map_id _
  | setBudget b => exact Or.inl ⟨rfl, _, rfl, rfl, rfl, fun _ hk => hk⟩
  | @evict b victims hr =>
    refine Or.inr ⟨_, rfl, ⟨hs, hr, rfl, fun _ hx => hx, fun _ hx => Or.inl hx⟩, ?_⟩
    rw [Option.map_map]
    exact congrFun Option.map_id _

/-! ## The invariant -/

theorem Quiet.accounted (h : Quiet s s') (hs : s.Accounted) : s'.Accounted :=
  hs.congr h.1 h.2.1

theorem Quiet.sized (h : Quiet s s') (hs : Sized inner s) : Sized inner s' := by
  intro x hx
  rw [h.1] at hx
  exact hs x hx

theorem Eviction.Of.sized {ev : Eviction E} (h : Eviction.Of inner s ev)
    (hs : Sized inner s) (hev : ev.before.evictTo ev.budget ev.victims = some s') :
    Sized inner s' := by
  intro x hx
  obtain ⟨e, he, hex, hb⟩ := mem_contents.mp hx
  obtain ⟨-, -, hsub⟩ := evictTo_frame h.accounted h.ranked hev
  rcases h.adds x (mem_contents.mpr ⟨e, hsub _ he, hex, hb⟩) with hold | hnew
  · exact hs x hold
  · exact hnew

/-- What a pinned key has stays, through a step that evicts too. -/
theorem Eviction.Of.pinned_stays {ev : Eviction E} (h : Eviction.Of inner s ev)
    (hev : ev.before.evictTo ev.budget ev.victims = some s') {key : Key} (hpin : key ∈ s.pinned)
    {ex : E} {b : Nat} (hmem : (key, ex, b) ∈ s.contents) : (key, ex, b) ∈ s'.contents := by
  obtain ⟨e, he, hex, hb⟩ := mem_contents.mp (h.keeps _ hmem)
  have hbefore : key ∈ ev.before.pinned := by
    rw [h.pinned]
    exact hpin
  exact mem_contents.mpr
    ⟨e, evictTo_keeps h.accounted h.ranked hev he (Or.inl hbefore), hex, hb⟩

/-- **What a step keeps, and what it does**: it does not underflow, what is pinned stays,
and an eviction gets within its budget or runs out of victims. -/
theorem step_accounted {r : Option (ExpertCache E)}
    (hs : c.state.Accounted) (hsized : Sized inner c.state) (h : Step inner c l r) :
    ∃ c', r = some c' ∧ c'.state.Accounted ∧ Sized inner c'.state ∧
      (∀ key ∈ c.state.pinned, key ∈ c'.state.pinned ∧
        ∀ ex b, (key, ex, b) ∈ c.state.contents → (key, ex, b) ∈ c'.state.contents) ∧
      ∀ ev, l.eviction = some ev → c'.state.bytes ≤ ev.budget ∨
        ∀ key ∈ c'.state.keys, key ∈ c'.state.pinned ∨ key ∈ ev.protect := by
  rcases step_cases hs h with ⟨hno, c', hr, hquiet⟩ | ⟨ev, hl, hof, hr⟩
  · refine ⟨c', hr, hquiet.accounted hs, hquiet.sized hsized, fun key hkey => ?_, ?_⟩
    · refine ⟨hquiet.2.2 key hkey, fun ex b hmem => ?_⟩
      rw [hquiet.1]
      exact hmem
    · intro ev hev
      rw [hno] at hev
      cases hev
  · obtain ⟨s', hs'⟩ := Option.isSome_iff_exists.mp (evictTo_isSome
      hof.accounted hof.ranked ev.budget)
    rw [hs', Option.map_eq_some_iff] at hr
    obtain ⟨c', hc', rfl⟩ := hr
    obtain ⟨hpins, -, -⟩ := evictTo_frame hof.accounted hof.ranked hs'
    refine ⟨c', hc', evictTo_accounted hof.accounted hof.ranked hs', hof.sized hsized hs', ?_, ?_⟩
    · intro key hkey
      refine ⟨?_, fun ex b hmem => hof.pinned_stays hs' hkey hmem⟩
      rw [hpins, hof.pinned]
      exact hkey
    · intro ev' hev'
      rw [hl, Option.some.injEq] at hev'
      rw [← hev']
      exact evictTo_within hof.accounted hof.ranked hs'

/-- The invariant of every run. -/
theorem reached_accounted {budget : Nat} {trace : List (Label E)}
    (h : Reached inner budget trace c) : c.state.Accounted ∧ Sized inner c.state := by
  refine h.inv (I := fun c => c.state.Accounted ∧ Sized inner c.state) ⟨?_, ?_⟩ ?_
  · exact ⟨List.nodup_nil, rfl⟩
  · intro x hx
    cases hx
  · intro c l c' hc hstep
    obtain ⟨c₁, hr, hacc, hsized, -⟩ := step_accounted hc.1 hc.2 hstep
    cases hr
    exact ⟨hacc, hsized⟩

/-- **The cache's books are right in every interleaving.** -/
theorem cache_accounting {budget : Nat} {trace : List (Label E)} {c : ExpertCache E}
    (h : Reached inner budget trace c) :
    c.state.keys.Nodup ∧
      c.state.bytes = (c.state.contents.map fun x => inner.size x.2.1).sum ∧
      ∀ l r, Step inner c l r → ∃ c', r = some c' ∧
        (∀ key ∈ c.state.pinned, key ∈ c'.state.pinned ∧
          ∀ ex b, (key, ex, b) ∈ c.state.contents → (key, ex, b) ∈ c'.state.contents) ∧
        ∀ ev, l.eviction = some ev → c'.state.bytes ≤ ev.budget ∨
          ∀ key ∈ c'.state.keys, key ∈ c'.state.pinned ∨ key ∈ ev.protect := by
  obtain ⟨hacc, hsized⟩ := reached_accounted h
  refine ⟨hacc.nodup, ?_, fun l r hstep => ?_⟩
  · rw [hacc.bytes_eq, charged_eq]
    exact congrArg List.sum (List.map_congr_left hsized)
  · obtain ⟨c', hr, -, -, hpinned, hevict⟩ := step_accounted hacc hsized hstep
    exact ⟨c', hr, hpinned, hevict⟩

end

/-! ## One pin -/

/-- Experts of two bytes. -/
def pairs : Inner Unit := ⟨fun _ r => r = some (), fun _ eids r => r = some (eids.map fun _ => ()),
  fun _ => 2⟩

/-- The state when a first miss has been loaded. -/
def missed : State Unit := ((State.new Unit).tick (0, 0) false).miss

theorem next_only {E : Type} {inner : Inner E} {budget : Nat} {s s' : State E} {t t' : Task E}
    {l : Label E} (h : TaskStep inner budget s t l (some s') t') :
    Next inner ⟨s, budget, [t]⟩ l ⟨s', budget, [t']⟩ :=
  Step.run (c := ⟨s, budget, [t]⟩) (i := 0) rfl h

theorem pin_loaded (budget : Nat) :
    Lts.Run (fun c l c' => Next pairs c l c' ∧ l.eviction = none) (ExpertCache.new Unit budget)
      [⟨some (.pin (0, 0)), none, none⟩, ⟨none, none, none⟩, ⟨none, none, none⟩]
      ⟨missed, budget, [.insert (0, 0) () .pin]⟩ :=
  ((Lts.Run.start.next ⟨Step.call (.pin (0, 0)), rfl⟩).next
    ⟨next_only (TaskStep.miss rfl), rfl⟩).next ⟨next_only (TaskStep.loaded rfl), rfl⟩

theorem missed_ranked :
    (missed.insert (0, 0) () (pairs.size ())).Ranked [] [((0, 0), ⟨(), 2, 1, 1⟩)] :=
  ⟨List.Perm.refl _, List.pairwise_singleton _ _⟩

theorem pin_within : ∃ trace c, Reached pairs 2 trace c ∧ (0, 0) ∈ c.state.pinned ∧
    ((0, 0), (), 2) ∈ c.state.contents := by
  have hloaded : Reached pairs 2 _ _ := (pin_loaded 2).mono fun _ _ _ h => h.1
  have hinsert := hloaded.next (next_only (TaskStep.insert rfl missed_ranked))
  exact ⟨_, _, hinsert.next (next_only TaskStep.register), List.mem_cons_self ..,
    List.mem_cons_self ..⟩

/-- Whatever step comes next, it stays. -/
theorem pinned_through_steps : ∃ c, (0, 0) ∈ c.state.pinned ∧
    ∀ l r, Step pairs c l r → ∃ c', r = some c' ∧ ((0, 0), (), 2) ∈ c'.state.contents := by
  obtain ⟨trace, c, hrun, hpin, hmem⟩ := pin_within
  obtain ⟨-, -, hstep⟩ := cache_accounting hrun
  refine ⟨c, hpin, fun l r h => ?_⟩
  obtain ⟨c', hr, hstays, -⟩ := hstep l r h
  exact ⟨c', hr, (hstays _ hpin).2 _ _ hmem⟩

end Colibri.Cache
