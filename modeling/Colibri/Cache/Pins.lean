import Colibri.Cache.Accounting

/-!
# Pins and the gap before them

A pin loads its key, lets go of the lock, and takes it again to register. Until then
nothing protects the entry: the eviction that its own load makes may take it, and so may
any other that runs in between. The pin is then reported with nothing resident
(`pin_reports_absent`).

Where no eviction reaches a key that a pin is about to register, every pin reported is
resident from then on (`pins_resident_of_spared`).

* `step_keeps`: a resident key stays, unless the eviction of the step reaches it.
* `step_pending` and `step_pinned` follow a pin from its load to its report, step by step.
* `PinsHeld.step` is the step of the run lemma. Its hypothesis, `SparedNext`, is about the state
  before the step: the eviction that comes does not reach a key that some task is about to register.
* `pin_spared` is a run that meets it: the run of `pin_reports_absent`, with room for the expert.
-/

namespace Colibri.Cache

open State

section

variable {E : Type} {inner : Inner E}

/-- No eviction of this step reaches a key that a pin has loaded and not yet registered,
its own call's included. -/
def Spared (c : ExpertCache E) (l : Label E) : Prop :=
  ∀ ev, l.eviction = some ev → ∀ key,
    (ev.pinning = some key ∨ ∃ t ∈ c.tasks, t.pinning = some key) →
      ¬ ev.before.Reaches ev.budget ev.victims key

/-- A step with no such eviction. -/
def SparedNext (inner : Inner E) (c : ExpertCache E) (l : Label E) (c' : ExpertCache E) : Prop :=
  Next inner c l c' ∧ Spared c l

/-- What is pinned, and what is about to be, is resident; what was reported is pinned. -/
structure PinsHeld (trace : List (Label E)) (c : ExpertCache E) : Prop where
  pinned : ∀ key ∈ c.state.pinned, key ∈ c.state.keys
  pending : ∀ t ∈ c.tasks, ∀ key, t.pinning = some key → key ∈ c.state.keys
  reported : ∀ l ∈ trace, ∀ key, l.answer = some (.pinned key) → key ∈ c.state.pinned

/-! ## What goes on to register -/

theorem Use.after_pinning {size : E → Nat} {use : Use} {key k : Key} {r : Option E}
    (h : (use.after size key r).pinning = some k) : k = key ∧ r.isSome := by
  unfold Use.after at h
  split at h
  · cases h
  · cases h
  · cases h
    exact ⟨rfl, rfl⟩
  · split at h
    · cases h
    · cases h
      exact ⟨rfl, rfl⟩

theorem Ranking.next_pinning (r : Ranking) : (r.next : Task E).pinning = none := by
  unfold Ranking.next
  split
  · rfl
  · split <;> rfl

theorem Use.registered_pinning (use : Use) : (use.registered : Task E).pinning = none := by
  cases use with
  | pinRanked r => exact r.next_pinning
  | expert => rfl
  | pin => rfl

theorem Op.start_pinning (op : Op) : (op.start : Task E).pinning = none := by
  cases op with
  | pinRanked ranked byteCap countCap => exact Ranking.next_pinning _
  | expert key => rfl
  | prefetch layer eids => rfl
  | pin key => rfl

theorem Use.answer_ne_pinned (use : Use) (key k : Key) (r : Option E) :
    use.answer key r ≠ some (.pinned k) := by
  cases use <;> exact fun h => by cases h

/-! ## What stays resident -/

theorem not_reaches_pinned {s : State E} {protect : List Key}
    {victims : List (Key × Entry E)} (hr : s.Ranked protect victims) {key : Key}
    (hpin : key ∈ s.pinned) (budget : Nat) : ¬ s.Reaches budget victims key := by
  intro h
  obtain ⟨j, v, hv, -⟩ := h
  exact (hr.mem.mp (List.mem_of_getElem? hv)).2.1 hpin

/-- A resident key stays, unless the step's eviction reaches it. -/
theorem step_keeps {c c' : ExpertCache E} {l : Label E} (hs : c.state.Accounted)
    (h : Next inner c l c') {key : Key} (hkey : key ∈ c.state.keys)
    (hno : ∀ ev, l.eviction = some ev → ¬ ev.before.Reaches ev.budget ev.victims key) :
    key ∈ c'.state.keys := by
  rcases step_cases hs h with ⟨-, c₁, hr, hquiet⟩ | ⟨ev, hl, hof, hr⟩
  · cases hr
    rw [keys_eq, hquiet.1, ← keys_eq]
    exact hkey
  · have hbefore : key ∈ ev.before.keys := by
      rw [keys_eq] at hkey ⊢
      obtain ⟨x, hx, rfl⟩ := List.mem_map.mp hkey
      exact List.mem_map.mpr ⟨x, hof.keeps x hx, rfl⟩
    exact (evictTo_spares hof.accounted hof.ranked hr.symm hbefore).mpr (hno ev hl)

section

variable {budget : Nat} {s s' : State E} {t t' : Task E} {l : Label E}

/-- A task that goes on to register has its key resident, if its own eviction spared it. -/
theorem taskStep_pending (hs : s.Accounted) (h : TaskStep inner budget s t l (some s') t')
    {key : Key} (hpin : t'.pinning = some key)
    (hno : ∀ ev, l.eviction = some ev → ev.pinning = some key →
      ¬ ev.before.Reaches ev.budget ev.victims key) : key ∈ s'.keys := by
  generalize hs' : some s' = r at h
  cases h with
  | @hit key' use e he =>
    cases hs'
    obtain ⟨rfl, -⟩ := Use.after_pinning hpin
    rw [keys_eq, hit_contents, ← keys_eq]
    exact mem_keys_of_mem (mem_of_get he)
  | miss _ => cases hpin
  | loaded _ => cases hpin
  | failed _ => cases (Use.after_pinning hpin).2
  | @lost key' use ex e he =>
    cases hs'
    obtain ⟨rfl, -⟩ := Use.after_pinning hpin
    exact mem_keys_of_mem (mem_of_get he)
  | @insert key' use ex victims hnew hr =>
    obtain ⟨rfl, -⟩ := Use.after_pinning hpin
    have hin : key ∈ (s.insert key ex (inner.size ex)).keys := List.mem_cons_self ..
    exact (evictTo_spares (hs.insert hnew ex _) hr hs'.symm hin).mpr (hno _ rfl hpin)
  | @register key' use =>
    rw [use.registered_pinning] at hpin
    cases hpin
  | resident _ => cases hpin
  | filter _ _ => cases hpin
  | batched _ _ => cases hpin
  | singly _ _ _ => cases hpin
  | insertBatch _ => cases hpin

/-- Only a registration pins, and only a registration reports a pin. -/
theorem taskStep_pinned (hs : s.Accounted) (h : TaskStep inner budget s t l (some s') t') :
    (s'.pinned = s.pinned ∧ ∀ key, l.answer ≠ some (.pinned key)) ∨
      ∃ key use, t = .register key use ∧ s' = s.pin key ∧ l.answer = some (.pinned key) := by
  generalize hs' : some s' = r at h
  cases h with
  | @hit key use e _ =>
    cases hs'
    exact Or.inl ⟨rfl, fun k => use.answer_ne_pinned key k _⟩
  | miss _ =>
    cases hs'
    exact Or.inl ⟨rfl, fun _ h => by cases h⟩
  | loaded _ =>
    cases hs'
    exact Or.inl ⟨rfl, fun _ h => by cases h⟩
  | @failed key use _ =>
    cases hs'
    exact Or.inl ⟨rfl, fun k => use.answer_ne_pinned key k _⟩
  | @lost key use ex e _ =>
    cases hs'
    exact Or.inl ⟨rfl, fun k => use.answer_ne_pinned key k _⟩
  | @insert key use ex victims hnew hr =>
    obtain ⟨hpins, -, -⟩ := evictTo_frame (hs.insert hnew ex _) hr hs'.symm
    exact Or.inl ⟨hpins, fun k => use.answer_ne_pinned key k _⟩
  | @register key use =>
    cases hs'
    exact Or.inr ⟨key, use, rfl, rfl, rfl⟩
  | resident _ =>
    cases hs'
    exact Or.inl ⟨rfl, fun _ h => by cases h⟩
  | filter _ _ =>
    cases hs'
    exact Or.inl ⟨rfl, fun _ h => by cases h⟩
  | batched _ _ =>
    cases hs'
    exact Or.inl ⟨rfl, fun _ h => by cases h⟩
  | singly _ _ _ =>
    cases hs'
    exact Or.inl ⟨rfl, fun _ h => by cases h⟩
  | @insertBatch layer missing loaded victims hr =>
    obtain ⟨hpins, -, -⟩ := evictTo_frame (hs.insertBatch inner.size layer) hr hs'.symm
    rw [insertBatch_pinned] at hpins
    exact Or.inl ⟨hpins, fun _ h => by cases h⟩

end

section

variable {c c' : ExpertCache E} {l : Label E}

/-- A task that is about to register was already, or has its key resident now. -/
theorem step_pending (hs : c.state.Accounted) (h : SparedNext inner c l c') {t : Task E}
    (ht : t ∈ c'.tasks) {key : Key} (hpin : t.pinning = some key) :
    t ∈ c.tasks ∨ key ∈ c'.state.keys := by
  obtain ⟨hnext, hspared⟩ := h
  rw [Next] at hnext
  generalize hr : some c' = r at hnext
  cases hnext with
  | call op =>
    cases hr
    rcases List.mem_append.mp ht with ht | ht
    · exact Or.inl ht
    · rw [List.mem_singleton] at ht
      rw [ht, op.start_pinning] at hpin
      cases hpin
  | @run i t₀ t' l s' hi hstep =>
    obtain ⟨s₁, rfl, rfl⟩ := Option.map_eq_some_iff.mp hr.symm
    rcases List.mem_or_eq_of_mem_set ht with ht | rfl
    · exact Or.inl ht
    · exact Or.inr (taskStep_pending hs hstep hpin fun ev hev hown =>
        hspared ev hev key (Or.inl hown))
  | setBudget b =>
    cases hr
    exact Or.inl ht
  | evict _ =>
    obtain ⟨s₁, -, rfl⟩ := Option.map_eq_some_iff.mp hr.symm
    exact Or.inl ht

/-- Only a registration pins, and only a registration reports a pin. -/
theorem step_pinned (hs : c.state.Accounted) (h : Next inner c l c') :
    (c'.state.pinned = c.state.pinned ∧ ∀ key, l.answer ≠ some (.pinned key)) ∨
      ∃ key use, .register key use ∈ c.tasks ∧ c'.state = c.state.pin key ∧
        l.answer = some (.pinned key) := by
  rw [Next] at h
  generalize hr : some c' = r at h
  cases h with
  | call op =>
    cases hr
    exact Or.inl ⟨rfl, fun _ h => by cases h⟩
  | @run i t t' l s' hi hstep =>
    obtain ⟨s₁, rfl, rfl⟩ := Option.map_eq_some_iff.mp hr.symm
    rcases taskStep_pinned hs hstep with hsame | ⟨key, use, rfl, hpin, hanswer⟩
    · exact Or.inl hsame
    · exact Or.inr ⟨key, use, List.mem_of_getElem? hi, hpin, hanswer⟩
  | setBudget b =>
    cases hr
    exact Or.inl ⟨rfl, fun _ h => by cases h⟩
  | @evict b victims hrank =>
    obtain ⟨s₁, hs₁, rfl⟩ := Option.map_eq_some_iff.mp hr.symm
    obtain ⟨hpins, -, -⟩ := evictTo_frame hs hrank hs₁
    exact Or.inl ⟨hpins, fun _ h => by cases h⟩

/-- **One step** of a run whose evictions spare what is about to be registered. -/
theorem PinsHeld.step {trace : List (Label E)} (hs : c.state.Accounted) (h : PinsHeld trace c)
    (hstep : SparedNext inner c l c') : PinsHeld (trace ++ [l]) c' := by
  obtain ⟨hnext, hspared⟩ := hstep
  -- the pins there are: resident, and no eviction reaches them
  have hold : ∀ key ∈ c.state.pinned, key ∈ c'.state.keys := by
    intro key hkey
    refine step_keeps hs hnext (h.pinned key hkey) fun ev hev => ?_
    rcases step_cases hs hnext with ⟨hno, -⟩ | ⟨ev', hl, hof, -⟩
    · rw [hno] at hev
      cases hev
    · rw [hl, Option.some.injEq] at hev
      rw [← hev]
      refine not_reaches_pinned hof.ranked ?_ _
      rw [hof.pinned]
      exact hkey
  have hwaiting : ∀ t ∈ c.tasks, ∀ key, t.pinning = some key → key ∈ c'.state.keys :=
    fun t ht key hpin => step_keeps hs hnext (h.pending t ht key hpin) fun ev hev =>
      hspared ev hev key (Or.inr ⟨t, ht, hpin⟩)
  have hpending : ∀ t ∈ c'.tasks, ∀ key, t.pinning = some key → key ∈ c'.state.keys := by
    intro t ht key hpin
    rcases step_pending hs ⟨hnext, hspared⟩ ht hpin with ht | hres
    · exact hwaiting t ht key hpin
    · exact hres
  rcases step_pinned hs hnext with ⟨hpins, hanswer⟩ | ⟨key, use, hreg, hpin, hanswer⟩
  · refine ⟨fun k hk => hold k (hpins ▸ hk), hpending, Lts.forall_concat ?_ ?_⟩
    · rw [hpins]
      exact h.reported
    · intro k hk
      exact absurd hk (hanswer k)
  · refine ⟨fun k hk => ?_, hpending, Lts.forall_concat (fun l' hl' k hk => ?_) fun k hk => ?_⟩
    · rw [hpin] at hk
      rcases List.mem_insert_iff.mp hk with rfl | hk
      · exact hwaiting _ hreg k rfl
      · exact hold k hk
    · rw [hpin]
      exact List.mem_insert_of_mem (h.reported l' hl' k hk)
    · rw [hanswer, Option.some.injEq, Answer.pinned.injEq] at hk
      rw [hpin, ← hk]
      exact List.mem_insert_self

end

/-- **Where no eviction reaches a key that a pin is about to register**, every key that a pin
has reported is resident, from the report on. -/
theorem pins_resident_of_spared {budget : Nat} {trace : List (Label E)} {c : ExpertCache E}
    (h : Lts.Run (SparedNext inner) (ExpertCache.new E budget) trace c) :
    ∀ l ∈ trace, ∀ key, l.answer = some (.pinned key) → key ∈ c.state.keys := by
  have hinv : (c.state.Accounted ∧ Sized inner c.state) ∧ PinsHeld trace c := by
    refine h.trace_inv (I := fun trace c => (c.state.Accounted ∧ Sized inner c.state) ∧
      PinsHeld trace c) ⟨reached_accounted .start, ?_⟩ ?_
    · refine ⟨?_, ?_, ?_⟩ <;> exact fun _ h => absurd h List.not_mem_nil
    · intro trace c l c' hc hstep
      obtain ⟨c₁, hr, hacc, hsized, -⟩ := step_accounted hc.1.1 hc.1.2 hstep.1
      cases hr
      exact ⟨⟨hacc, hsized⟩, hc.2.step hc.1.1 hstep⟩
  intro l hl key hkey
  exact hinv.2.pinned key (hinv.2.reported l hl key hkey)

end

/-! ## The gap -/

/-- With a budget below one expert, a `pin` ends well and its expert is not there. -/
theorem pin_reports_absent : ∃ trace c, Reached pairs 1 trace c ∧
    (∃ l ∈ trace, l.answer = some (.pinned (0, 0))) ∧ (0, 0) ∉ c.state.keys := by
  have hloaded : Reached pairs 1 _ _ := (pin_loaded 1).mono fun _ _ _ h => h.1
  have hinsert : TaskStep pairs 1 missed (.insert (0, 0) () .pin) _ _ _ :=
    TaskStep.insert rfl missed_ranked
  -- the entry that the load brings is its only victim
  have hevict : (missed.insert (0, 0) () (pairs.size ())).evictTo 1 [((0, 0), ⟨(), 2, 1, 1⟩)] =
      some ((missed.insert (0, 0) () 2).remove (0, 0) 2) := rfl
  rw [hevict] at hinsert
  have hpin := (hloaded.next (next_only hinsert)).next (next_only TaskStep.register)
  exact ⟨_, _, hpin, ⟨_, List.mem_concat_self, rfl⟩, fun h => by cases h⟩

theorem not_reaches_of_fits {E : Type} {s : State E} {budget : Nat} (h : s.bytes ≤ budget)
    (victims : List (Key × Entry E)) (key : Key) : ¬ s.Reaches budget victims key := by
  intro hreach
  obtain ⟨j, v, -, hlt⟩ := hreach
  omega

/-- With a budget of one expert, the same run spares the pin. -/
theorem pin_spared : ∃ trace c, Lts.Run (SparedNext pairs) (ExpertCache.new Unit 2) trace c ∧
    ∃ l ∈ trace, l.answer = some (.pinned (0, 0)) := by
  have hquiet {c : ExpertCache Unit} {l : Label Unit} (h : l.eviction = none) : Spared c l := by
    intro ev hev
    rw [h] at hev
    cases hev
  have hloaded : Lts.Run (SparedNext pairs) _ _ _ :=
    (pin_loaded 2).mono fun _ _ _ h => ⟨h.1, hquiet h.2⟩
  have hinsert : TaskStep pairs 2 missed (.insert (0, 0) () .pin) _
      (some (missed.insert (0, 0) () 2)) _ := TaskStep.insert rfl missed_ranked
  refine ⟨_, _, (hloaded.next ⟨next_only hinsert, fun ev hev key _ => ?_⟩).next
    ⟨next_only TaskStep.register, hquiet rfl⟩, _, List.mem_concat_self, rfl⟩
  cases hev
  exact not_reaches_of_fits (Nat.le_refl 2) _ _

theorem pin_spared_resident : ∃ c : ExpertCache Unit, (0, 0) ∈ c.state.keys := by
  obtain ⟨trace, c, hrun, l, hl, hpin⟩ := pin_spared
  exact ⟨c, pins_resident_of_spared hrun l hl (0, 0) hpin⟩

end Colibri.Cache
