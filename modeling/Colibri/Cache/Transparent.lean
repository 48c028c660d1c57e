import Colibri.Cache.Accounting

/-!
# The cache against the provider behind it

Over a provider with one result for each key, whatever runs at once, `expert` answers
what the provider would (`cache_transparent`). The keys and the experts of a batch are
paired by position: the pairs are right when the batch has the length of the request,
whatever was filtered before, and the loop that loads one by one pairs what it loaded.

A selection is counted where `fetch` starts, once for each call of `expert`.

* `taskStep_correct` and `taskStep_usage` are the step of a task: entries and experts in hand are
  right, an answer is the provider's, and a selection is counted by the task that makes it.
* `Faithful.step` and `reached_faithful` carry this through a run.
* `cache_transparent` is the result, with the bytes of the entries and the counts of selections.
-/

namespace Colibri.Cache

open State

section

variable {E : Type}

/-- One result for each key. A batch is refused, of another length, or in order. -/
structure Inner.Fixed (inner : Inner E) (f : Key → Option E) : Prop where
  expert : ∀ key r, inner.expert key r ↔ r = f key
  batch : ∀ layer eids exps, inner.expertsBatch layer eids (some exps) →
    exps.length = eids.length → exps.map some = eids.map fun e => f (layer, e)

variable {inner : Inner E} {f : Key → Option E}

/-- Every entry is what the provider gives for its key. -/
def Correct (f : Key → Option E) (s : State E) : Prop := ∀ x ∈ s.contents, f x.1 = some x.2.1

/-- What a task has loaded is what the provider gives. -/
def Task.Correct (f : Key → Option E) : Task E → Prop
  | .insert key ex _ => f key = some ex
  | .insertBatch layer _ loaded => ∀ p ∈ loaded, f (layer, p.1) = some p.2
  | _ => True

/-! ## Selections -/

/-- A call of `expert` on this key. -/
def Op.selects (key : Key) : Op → Bool
  | .expert k => k == key
  | _ => false

/-- A step that starts one. -/
def Label.selects (key : Key) (l : Label E) : Bool := l.call.any (Op.selects key)

/-- A call of `expert` that is not counted yet. -/
def Task.selects (key : Key) : Task E → Bool
  | .fetch k .expert => k == key
  | _ => false

theorem Ranking.next_selects (key : Key) (r : Ranking) :
    Task.selects key (r.next : Task E) = false := by
  unfold Ranking.next
  split
  · rfl
  · split <;> rfl

theorem Op.start_selects (key : Key) (op : Op) :
    Task.selects key (op.start : Task E) = op.selects key := by
  cases op with
  | pinRanked ranked byteCap countCap => exact Ranking.next_selects key _
  | expert k => rfl
  | prefetch layer eids => rfl
  | pin k => rfl

theorem Use.registered_selects (key : Key) (use : Use) :
    Task.selects key (use.registered : Task E) = false := by
  cases use with
  | pinRanked r => exact r.next_selects key
  | expert => rfl
  | pin => rfl

theorem Use.after_selects (size : E → Nat) (use : Use) (key k : Key) (r : Option E) :
    Task.selects key (use.after size k r) = false := by
  unfold Use.after
  split
  · rfl
  · rfl
  · rfl
  · split <;> rfl

theorem Use.fetch_selects (key k : Key) (use : Use) :
    Task.selects key (.fetch k use : Task E) = (use.record && key == k) := by
  cases use with
  | expert => exact BEq.comm
  | pin => rfl
  | pinRanked r => rfl

/-! ## One step of a task -/

/-- The pairs of a batch of the right length. -/
theorem Inner.Fixed.zip (hf : inner.Fixed f) {layer : Nat} {eids : List Nat} {exps : List E}
    (hbatch : inner.expertsBatch layer eids (some exps)) (hlen : exps.length = eids.length) :
    ∀ p ∈ eids.zip exps, f (layer, p.1) = some p.2 := by
  have hpairs : List.Forall₂ Eq (eids.map fun e => f (layer, e)) (exps.map some) := by
    rw [hf.batch layer eids exps hbatch hlen]
    exact List.forall₂_refl _
  rw [List.forall₂_map_left_iff, List.forall₂_map_right_iff] at hpairs
  exact fun p hp => List.forall₂_zip hpairs hp

/-- The pairs of the loads one by one. -/
theorem Inner.Fixed.singly (hf : inner.Fixed f) {layer : Nat} {missing : List Nat}
    {loaded : List (Nat × E)} (h : inner.Singly layer missing loaded) :
    ∀ p ∈ loaded, f (layer, p.1) = some p.2 := by
  obtain ⟨results, hresults, rfl⟩ := h
  intro p hp
  obtain ⟨⟨e, r⟩, her, hsome⟩ := List.mem_filterMap.mp hp
  obtain ⟨ex, rfl, rfl⟩ := Option.map_eq_some_iff.mp hsome
  exact ((hf.expert _ _).mp (List.forall₂_zip hresults her)).symm

theorem Use.after_correct (size : E → Nat) (use : Use) (key : Key) (r : Option E) :
    (use.after size key r).Correct f := by
  unfold Use.after
  split
  · trivial
  · trivial
  · trivial
  · split <;> trivial

theorem Ranking.next_correct (r : Ranking) : (r.next : Task E).Correct f := by
  unfold Ranking.next
  split
  · trivial
  · split <;> trivial

theorem Use.registered_correct (use : Use) : (use.registered : Task E).Correct f := by
  cases use with
  | pinRanked r => exact r.next_correct
  | expert => trivial
  | pin => trivial

theorem Op.start_correct (op : Op) : (op.start : Task E).Correct f := by
  cases op with
  | pinRanked ranked byteCap countCap => exact Ranking.next_correct _
  | expert key => trivial
  | prefetch layer eids => trivial
  | pin key => trivial

theorem Use.answer_eq {use : Use} {key k : Key} {r r' : Option E}
    (h : use.answer key r = some (.expert k r')) : k = key ∧ r' = r := by
  cases use <;> cases h
  exact ⟨rfl, rfl⟩

theorem Correct.get {s : State E} (h : Correct f s) {key : Key} {e : Entry E}
    (he : s.get key = some e) : f key = some e.expert :=
  h (key, e.expert, e.bytes) (mem_contents.mpr ⟨e, mem_of_get he, rfl, rfl⟩)

/-- An eviction leaves what was right. -/
theorem Correct.evictTo {s s' : State E} (h : Correct f s) (hs : s.Accounted)
    {protect : List Key} {victims : List (Key × Entry E)} (hr : s.Ranked protect victims)
    {budget : Nat} (hev : s.evictTo budget victims = some s') : Correct f s' := by
  intro x hx
  obtain ⟨e, he, hex, hb⟩ := mem_contents.mp hx
  obtain ⟨-, -, hsub⟩ := evictTo_frame hs hr hev
  exact h x (mem_contents.mpr ⟨e, hsub _ he, hex, hb⟩)

section

variable {budget : Nat} {s s' : State E} {t t' : Task E} {l : Label E}

/-- **One step of a task**: it leaves right entries and has right experts in hand, and an
answer is the provider's. -/
theorem taskStep_correct (hf : inner.Fixed f) (hs : s.Accounted) (hc : Correct f s)
    (ht : t.Correct f) (h : TaskStep inner budget s t l (some s') t') :
    Correct f s' ∧ t'.Correct f ∧ ∀ key r, l.answer = some (.expert key r) → r = f key := by
  generalize hs' : some s' = r at h
  cases h with
  | @hit key use e he =>
    cases hs'
    refine ⟨?_, use.after_correct .., fun k r hk => ?_⟩
    · intro x hx
      rw [hit_contents] at hx
      exact hc x hx
    · obtain ⟨rfl, rfl⟩ := Use.answer_eq hk
      exact (hc.get he).symm
  | miss _ =>
    cases hs'
    exact ⟨hc, trivial, fun _ _ hk => by cases hk⟩
  | loaded hex =>
    cases hs'
    exact ⟨hc, ((hf.expert _ _).mp hex).symm, fun _ _ hk => by cases hk⟩
  | @failed key use hex =>
    cases hs'
    refine ⟨hc, use.after_correct .., fun k r hk => ?_⟩
    obtain ⟨rfl, rfl⟩ := Use.answer_eq hk
    exact (hf.expert _ _).mp hex
  | @lost key use ex e he =>
    cases hs'
    refine ⟨hc, use.after_correct .., fun k r hk => ?_⟩
    obtain ⟨rfl, rfl⟩ := Use.answer_eq hk
    exact (hc.get he).symm
  -- what is inserted was loaded by this task, and an eviction only takes away
  | @insert key use ex victims hnew hr =>
    have hbefore : Correct f (s.insert key ex (inner.size ex)) := by
      intro x hx
      rcases List.mem_cons.mp hx with rfl | hx
      · exact ht
      · exact hc x hx
    refine ⟨hbefore.evictTo (hs.insert hnew ex _) hr hs'.symm, use.after_correct ..,
      fun k r hk => ?_⟩
    obtain ⟨rfl, rfl⟩ := Use.answer_eq hk
    exact Eq.symm ht
  | @register key use =>
    cases hs'
    exact ⟨hc, use.registered_correct, fun _ _ hk => by cases hk⟩
  | resident _ =>
    cases hs'
    exact ⟨hc, trivial, fun _ _ hk => by cases hk⟩
  | filter _ _ =>
    cases hs'
    exact ⟨hc, trivial, fun _ _ hk => by cases hk⟩
  | batched hbatch hlen =>
    cases hs'
    exact ⟨hc, hf.zip hbatch hlen, fun _ _ hk => by cases hk⟩
  | singly _ _ hsingly =>
    cases hs'
    exact ⟨hc, hf.singly hsingly, fun _ _ hk => by cases hk⟩
  | @insertBatch layer missing loaded victims hr =>
    have hbefore : Correct f (s.insertBatch inner.size layer loaded) := by
      intro x hx
      obtain ⟨e, he, hex, hb⟩ := mem_contents.mp hx
      rcases (mem_insertBatch inner.size layer _).2 _ he with hold | ⟨p, hp, hkey, hpe, -⟩
      · exact hc x (mem_contents.mpr ⟨e, hold, hex, hb⟩)
      · dsimp only at hkey hpe
        rw [hkey, ← hex, hpe]
        exact ht p hp
    exact ⟨hbefore.evictTo (hs.insertBatch inner.size layer) hr hs'.symm, trivial,
      fun _ _ hk => by cases hk⟩

/-- A step of a task counts its selection, if it is the one that does. -/
theorem taskStep_usage (hs : s.Accounted) (h : TaskStep inner budget s t l (some s') t')
    (key : Key) : l.call = none ∧ t'.selects key = false ∧
      s'.sessionUsage key = s.sessionUsage key + if t.selects key then 1 else 0 := by
  generalize hs' : some s' = r at h
  cases h with
  | @hit k use e _ =>
    cases hs'
    refine ⟨rfl, use.after_selects .., ?_⟩
    rw [use.fetch_selects]
    rfl
  | @miss k use _ =>
    cases hs'
    refine ⟨rfl, rfl, ?_⟩
    rw [use.fetch_selects]
    rfl
  | loaded _ =>
    cases hs'
    exact ⟨rfl, rfl, rfl⟩
  | @failed k use _ =>
    cases hs'
    exact ⟨rfl, use.after_selects .., rfl⟩
  | @lost k use ex e _ =>
    cases hs'
    exact ⟨rfl, use.after_selects .., rfl⟩
  | @insert k use ex victims hnew hr =>
    obtain ⟨-, husage, -⟩ := evictTo_frame (hs.insert hnew ex _) hr hs'.symm
    exact ⟨rfl, use.after_selects .., congrFun husage key⟩
  | @register k use =>
    cases hs'
    exact ⟨rfl, use.registered_selects key, rfl⟩
  | resident _ =>
    cases hs'
    exact ⟨rfl, rfl, rfl⟩
  | filter _ _ =>
    cases hs'
    exact ⟨rfl, rfl, rfl⟩
  | batched _ _ =>
    cases hs'
    exact ⟨rfl, rfl, rfl⟩
  | singly _ _ _ =>
    cases hs'
    exact ⟨rfl, rfl, rfl⟩
  | @insertBatch layer missing loaded victims hr =>
    obtain ⟨-, husage, -⟩ := evictTo_frame (hs.insertBatch inner.size layer) hr hs'.symm
    rw [insertBatch_usage] at husage
    exact ⟨rfl, rfl, congrFun husage key⟩

end

/-! ## Runs -/

/-- What every run keeps. -/
structure Faithful (f : Key → Option E) (trace : List (Label E)) (c : ExpertCache E) : Prop where
  entries : Correct f c.state
  tasks : ∀ t ∈ c.tasks, t.Correct f
  answers : ∀ l ∈ trace, ∀ key r, l.answer = some (.expert key r) → r = f key
  usage : ∀ key, c.state.sessionUsage key + c.tasks.countP (Task.selects key) =
    trace.countP (Label.selects key)

/-- **One step** of a run over a provider with one result for each key. -/
theorem Faithful.step (hf : inner.Fixed f) {trace : List (Label E)} {c c' : ExpertCache E}
    {l : Label E} (hs : c.state.Accounted) (h : Faithful f trace c) (hnext : Next inner c l c') :
    Faithful f (trace ++ [l]) c' := by
  rw [Next] at hnext
  generalize hr : some c' = r at hnext
  cases hnext with
  | call op =>
    cases hr
    refine ⟨h.entries, Lts.forall_concat h.tasks op.start_correct,
      Lts.forall_concat h.answers (fun _ _ hk => by cases hk), fun key => ?_⟩
    have husage := h.usage key
    rw [List.countP_append, List.countP_append, List.countP_singleton, List.countP_singleton,
      op.start_selects, ← husage, Nat.add_assoc]
    rfl
  | @run i t t' l s' hi hstep =>
    obtain ⟨s₁, rfl, rfl⟩ := Option.map_eq_some_iff.mp hr.symm
    obtain ⟨hentries, htask, hanswer⟩ :=
      taskStep_correct hf hs h.entries (h.tasks t (List.mem_of_getElem? hi)) hstep
    refine ⟨hentries, Lts.forall_set h.tasks htask i, Lts.forall_concat h.answers hanswer,
      fun key => ?_⟩
    obtain ⟨hcall, hdone, hcount⟩ := taskStep_usage hs hstep key
    have husage := h.usage key
    -- the selection that leaves the tasks is the one that is counted
    have hset := Lts.countP_set (p := Task.selects key) (u := t') hi
    have hlabel : l.selects key = false := by
      rw [Label.selects, hcall]
      rfl
    rw [hdone, if_neg Bool.false_ne_true, Nat.add_zero] at hset
    rw [List.countP_append, List.countP_singleton, hlabel, if_neg Bool.false_ne_true, Nat.add_zero,
      ← husage, ← hset]
    dsimp only
    rw [hcount]
    omega
  | setBudget b =>
    cases hr
    refine ⟨h.entries, h.tasks, Lts.forall_concat h.answers (fun _ _ hk => by cases hk),
      fun key => ?_⟩
    rw [List.countP_append, ← h.usage key]
    rfl
  | @evict b victims hrank =>
    obtain ⟨s₁, hs₁, rfl⟩ := Option.map_eq_some_iff.mp hr.symm
    obtain ⟨-, husage, -⟩ := evictTo_frame hs hrank hs₁
    refine ⟨h.entries.evictTo hs hrank hs₁, h.tasks,
      Lts.forall_concat h.answers (fun _ _ hk => by cases hk), fun key => ?_⟩
    rw [List.countP_append, ← h.usage key]
    dsimp only
    rw [husage]
    rfl

theorem reached_faithful (hf : inner.Fixed f) {budget : Nat} {trace : List (Label E)}
    {c : ExpertCache E} (h : Reached inner budget trace c) :
    (c.state.Accounted ∧ Sized inner c.state) ∧ Faithful f trace c := by
  refine h.trace_inv (I := fun trace c => (c.state.Accounted ∧ Sized inner c.state) ∧
    Faithful f trace c) ⟨reached_accounted .start, ?_⟩ ?_
  · refine ⟨?_, ?_, ?_, fun _ => rfl⟩ <;> exact fun _ h => absurd h List.not_mem_nil
  · intro trace c l c' hc hstep
    obtain ⟨c₁, hr, hacc, hsized, -⟩ := step_accounted hc.1.1 hc.1.2 hstep
    cases hr
    exact ⟨⟨hacc, hsized⟩, hc.2.step hf hc.1.1 hstep⟩

/-- **The cache is transparent.** An answer of `expert` is the provider's for that key. A key
that cannot be loaded has no entry, and the bytes are those of the entries. Once the calls
are over, the selections of a key are the calls of `expert` on it. -/
theorem cache_transparent (hf : inner.Fixed f) {budget : Nat} {trace : List (Label E)}
    {c : ExpertCache E} (h : Reached inner budget trace c) :
    (∀ l ∈ trace, ∀ key r, l.answer = some (.expert key r) → r = f key) ∧
      (∀ key, f key = none → key ∉ c.state.keys) ∧
      c.state.bytes = (c.state.contents.map fun x => inner.size x.2.1).sum ∧
      ((∀ t ∈ c.tasks, t = .done) →
        ∀ key, c.state.sessionUsage key = trace.countP (Label.selects key)) := by
  obtain ⟨⟨hacc, hsized⟩, hfaithful⟩ := reached_faithful hf h
  refine ⟨hfaithful.answers, fun key hnone hmem => ?_, ?_, fun hdone key => ?_⟩
  · rw [keys_eq] at hmem
    obtain ⟨x, hx, rfl⟩ := List.mem_map.mp hmem
    have hsome := hfaithful.entries x hx
    rw [hnone] at hsome
    cases hsome
  · rw [hacc.bytes_eq, charged_eq]
    exact congrArg List.sum (List.map_congr_left hsized)
  · have hnone : c.tasks.countP (Task.selects key) = 0 := by
      rw [List.countP_eq_zero]
      intro t ht
      rw [hdone t ht]
      exact Bool.false_ne_true
    rw [← hfaithful.usage key, hnone]
    rfl

end

/-! ## One call -/

theorem pairs_fixed : pairs.Fixed fun _ => some () := by
  refine ⟨fun _ _ => Iff.rfl, fun layer eids exps h _ => ?_⟩
  cases h
  rw [List.map_map]
  rfl

/-- The state after a first miss of a selection. -/
def selected : State Unit := ((State.new Unit).tick (0, 0) true).miss

/-- A call of `expert` that loads its key. -/
theorem expert_loads : ∃ trace c, Reached pairs 2 trace c ∧ (∀ t ∈ c.tasks, t = .done) ∧
    (∃ l ∈ trace, l.answer = some (.expert (0, 0) (some ()))) ∧
    trace.countP (Label.selects (0, 0)) = 1 := by
  have hinsert : TaskStep pairs 2 selected (.insert (0, 0) () .expert) _
      (some (selected.insert (0, 0) () 2)) _ := TaskStep.insert rfl missed_ranked
  have hmiss : TaskStep pairs 2 (State.new Unit) (.fetch (0, 0) .expert) _ (some selected) _ :=
    TaskStep.miss rfl
  have hcall : Reached pairs 2 _ _ := Lts.Run.start.next (Step.call (.expert (0, 0)))
  have hrun := ((hcall.next (next_only hmiss)).next (next_only (TaskStep.loaded rfl))).next
    (next_only hinsert)
  refine ⟨_, _, hrun, fun t ht => List.mem_singleton.mp ht, ⟨_, List.mem_concat_self, rfl⟩, rfl⟩

/-- The selection of that call is counted. -/
theorem expert_counted : ∃ c : ExpertCache Unit, c.state.sessionUsage (0, 0) = 1 := by
  obtain ⟨trace, c, hrun, hdone, -, hcount⟩ := expert_loads
  obtain ⟨-, -, -, husage⟩ := cache_transparent pairs_fixed hrun
  refine ⟨c, ?_⟩
  rw [husage hdone, hcount]

end Colibri.Cache
