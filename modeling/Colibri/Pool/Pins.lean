import Colibri.Pool.Organic

/-!
# Page-locks

Who may be registered with the driver is told by where a buffer is: from the hook to the
set `PINNED`, in the set, or on its way out. Registrations and releases of a range
alternate, whatever the interleaving, and no registered memory is freed.

The budget is another matter: it is tested before the hook is called, against a counter
that is moved after. Two calls that test at once may both go on (`budget_passed`). Where
what a call has read still holds at the hook, the locked bytes stay within the budget
(`pins_bounded`).

`Held` says which ranges are registered, and `Counted` what the counter stands for. Each has a step
lemma, which needs the heap to be `Sound`; `held_of_run` puts the three together over a run.
-/

namespace Colibri.Pool

variable {cfg : Config} {s s' : Heap}

/-- What a task's memory is to the driver (`L`: registered) and to the process (`P`: in
`PINNED`). -/
def Task.Holds (L P : Prop) : Task → Prop
  | .pin _ _ => ¬ L ∧ ¬ P
  | .pinBytes _ _ => ¬ L ∧ ¬ P
  | .pinMax _ _ _ => ¬ L ∧ ¬ P
  | .register _ _ _ _ => ¬ L ∧ ¬ P
  | .pinned _ _ => L ∧ ¬ P
  | .pinCount _ _ => L ∧ P
  | .unregister _ => L ∧ ¬ P
  | .uncount _ => ¬ L ∧ ¬ P
  | .free _ => ¬ L ∧ ¬ P
  | _ => L ↔ P

/-- Only buffers of the pool's sizes get near the hooks, once there are hooks. -/
def Task.Hooked (hooked : Bool) : Task → Prop
  | .pinBytes _ v => hooked = true ∧ poolMinBytes ≤ v.mem.cap
  | .pinMax _ v _ => hooked = true ∧ poolMinBytes ≤ v.mem.cap
  | .register _ v _ _ => hooked = true ∧ poolMinBytes ≤ v.mem.cap
  | .pinned _ v => hooked = true ∧ poolMinBytes ≤ v.mem.cap
  | .pinCount _ v => hooked = true ∧ poolMinBytes ≤ v.mem.cap
  | .unpin v => poolMinBytes ≤ v.mem.cap
  | .unpinned v => hooked = true ∧ poolMinBytes ≤ v.mem.cap
  | .unregister v => hooked = true ∧ poolMinBytes ≤ v.mem.cap
  | .uncount v => hooked = true ∧ poolMinBytes ≤ v.mem.cap
  | _ => True

/-- The registrations are of live memory, one for each range, and every owner's stage says
whether there is one. -/
structure Held (s : Heap) : Prop where
  pool : ∀ v ∈ s.bufs, poolMinBytes ≤ v.mem.cap → (v.mem ∈ s.locks ↔ v.mem.addr ∈ s.pinned)
  tasks : ∀ (i : Nat) (t : Task), s.tasks[i]? = some t → ∀ r ∈ t.mems, poolMinBytes ≤ r.cap →
    t.Holds (r ∈ s.locks) (r.addr ∈ s.pinned)
  hooked : ∀ t ∈ s.tasks, t.Hooked s.hooked
  live : ∀ r ∈ s.locks, r ∈ s.mems ∧ poolMinBytes ≤ r.cap ∧ s.hooked = true
  nodup : s.locks.Nodup
  known : ∀ a ∈ s.pinned, ∃ r ∈ s.locks, r.addr = a

theorem Held.new : Held Heap.new := by
  refine ⟨?_, ?_, ?_, ?_, List.nodup_nil, ?_⟩
  · exact fun _ h => absurd h List.not_mem_nil
  · exact fun _ _ h => by cases h
  · exact fun _ h => absurd h List.not_mem_nil
  · exact fun _ h => absurd h List.not_mem_nil
  · exact fun _ h => absurd h (Finset.notMem_empty _)

theorem poolMin_pos : 0 < poolMinBytes := by decide

/-! ## Owners are apart -/

variable {i : Nat} {t u : Task} {v : Vec}

theorem Sound.apart_tasks (h : Sound cfg s) {j : Nat} (hi : s.tasks[i]? = some t)
    (hj : s.tasks[j]? = some u) (hne : i ≠ j) {r q : Range} (hr : r ∈ t.mems) (hq : q ∈ u.mems) :
    r.Apart q := by
  have htasks := (List.pairwise_append.mp h.apart).2.1
  have hpair := (List.pairwise_flatMap.mp htasks).2
  obtain ⟨hil, hti⟩ := List.getElem?_eq_some_iff.mp hi
  obtain ⟨hjl, huj⟩ := List.getElem?_eq_some_iff.mp hj
  rcases Nat.lt_or_gt_of_ne hne with hlt | hlt
  · have hij := List.pairwise_iff_getElem.mp hpair i j hil hjl hlt
    rw [hti, huj] at hij
    exact hij r hr q hq
  · have hji := List.pairwise_iff_getElem.mp hpair j i hjl hil hlt
    rw [hti, huj] at hji
    exact (hji q hq r hr).symm

theorem Sound.apart_pool (h : Sound cfg s) (hi : s.tasks[i]? = some t)
    (hv : v ∈ s.bufs) {r : Range} (hr : r ∈ t.mems) : v.mem.Apart r := by
  have hcross := (List.pairwise_append.mp h.apart).2.2
  exact hcross v.mem (List.mem_map_of_mem hv) r
    (List.mem_flatMap.mpr ⟨t, List.mem_of_getElem? hi, hr⟩)

theorem mem_mems (hi : s.tasks[i]? = some t) {r : Range} (hr : r ∈ t.mems) :
    r ∈ s.mems :=
  List.mem_append_right _ (List.mem_flatMap.mpr ⟨t, List.mem_of_getElem? hi, hr⟩)

/-! ## Steps that leave the registrations -/

/-- One task goes on with its memory. -/
theorem Held.move (h : Held s) (hi : s.tasks[i]? = some t)
    (hmems : u.mems = t.mems)
    (hholds : ∀ r ∈ t.mems, poolMinBytes ≤ r.cap → t.Holds (r ∈ s.locks) (r.addr ∈ s.pinned) →
      u.Holds (r ∈ s.locks) (r.addr ∈ s.pinned))
    (hhooked : t.Hooked s.hooked → u.Hooked s.hooked) : Held (s.set i u) := by
  refine ⟨h.pool, fun j w hj r hr hcap => ?_, ?_, fun r hr => ?_, h.nodup, h.known⟩
  · rcases Lts.set_cases hi hj with ⟨-, rfl⟩ | ⟨-, hj⟩
    · rw [hmems] at hr
      exact hholds r hr hcap (h.tasks i t hi r hr hcap)
    · exact h.tasks j w hj r hr hcap
  · exact Lts.forall_set h.hooked (hhooked (h.hooked t (List.mem_of_getElem? hi))) i
  · obtain ⟨hmem, hrest⟩ := h.live r hr
    have hset := mems_set (u := u) hi s.bufs
    rw [hmems] at hset
    exact ⟨((List.perm_append_left_iff _).mp hset).symm.subset hmem, hrest⟩

/-- A task gives up memory that is not registered. -/
theorem Held.release (h : Held s) (hi : s.tasks[i]? = some t)
    (hmems : u.mems = []) (hfree : ∀ r ∈ t.mems, r ∉ s.locks)
    (hhooked : u.Hooked s.hooked) : Held (s.set i u) := by
  refine ⟨h.pool, fun j w hj r hr hcap => ?_, Lts.forall_set h.hooked hhooked i, fun r hr => ?_,
    h.nodup, h.known⟩
  · rcases Lts.set_cases hi hj with ⟨-, rfl⟩ | ⟨-, hj⟩
    · rw [hmems] at hr
      cases hr
    · exact h.tasks j w hj r hr hcap
  · obtain ⟨hmem, hrest⟩ := h.live r hr
    have hset := mems_set (u := u) hi s.bufs
    rw [hmems, List.nil_append] at hset
    rcases List.mem_append.mp (hset.symm.subset hmem) with hold | hnew
    · exact absurd hr (hfree r hold)
    · exact ⟨hnew, hrest⟩

/-! ## Steps of one buffer's registration -/

/-- The registration of one buffer changes, and of no other. -/
theorem Held.turn (h : Held s) (hs : Sound cfg s)
    (hi : s.tasks[i]? = some t) {m : Range} (ht : t.mems = [m]) (hu : u.mems = [m])
    (hcap : poolMinBytes ≤ m.cap) (hon : s.hooked = true) {locks : List Range}
    {pinned : Finset Nat} (pinBytes : Nat)
    (hother : ∀ r : Range, r.addr ≠ m.addr →
      (r ∈ locks ↔ r ∈ s.locks) ∧ (r.addr ∈ pinned ↔ r.addr ∈ s.pinned))
    (hholds : u.Holds (m ∈ locks) (m.addr ∈ pinned)) (hhooked : u.Hooked true)
    (hlocks : ∀ r ∈ locks, r ∈ s.locks ∨ r = m) (hnodup : locks.Nodup)
    (hknown : ∀ a ∈ pinned, ∃ r ∈ locks, r.addr = a) :
    Held { s.set i u with locks, pinned, pinBytes } := by
  have hpos := poolMin_pos
  have hm : m ∈ t.mems := ht ▸ List.mem_singleton_self m
  refine ⟨fun v hv hvcap => ?_, fun j w hj r hr hrcap => ?_, ?_, fun r hr => ?_, hnodup, hknown⟩
  · have hne := (hs.apart_pool hi hv hm).addr_ne (by omega) (by omega)
    obtain ⟨hL, hP⟩ := hother v.mem hne
    exact hL.trans ((h.pool v hv hvcap).trans hP.symm)
  · rcases Lts.set_cases hi hj with ⟨-, rfl⟩ | ⟨hij, hj⟩
    · rw [hu] at hr
      rw [List.mem_singleton.mp hr]
      exact hholds
    · have hne := (hs.apart_tasks hj hi (Ne.symm hij) hr hm).addr_ne (by omega) (by omega)
      obtain ⟨hL, hP⟩ := hother r hne
      have hold := h.tasks j w hj r hr hrcap
      rw [← hL, ← hP] at hold
      exact hold
  · have hall : ∀ w ∈ s.tasks.set i u, w.Hooked s.hooked :=
      Lts.forall_set h.hooked (hon ▸ hhooked) i
    exact hall
  · have hset := mems_set (u := u) hi s.bufs
    rw [ht, hu] at hset
    have hsub := ((List.perm_append_left_iff _).mp hset).symm.subset
    rcases hlocks r hr with hold | rfl
    · obtain ⟨hmem, hrest⟩ := h.live r hold
      exact ⟨hsub hmem, hrest⟩
    · exact ⟨hsub (mem_mems hi hm), hcap, hon⟩

/-! ## Steps that move memory -/

theorem Held.call (h : Held s) (len : Nat) :
    Held { s with tasks := s.tasks ++ [.request len] } := by
  refine ⟨h.pool, fun j w hj r hr hcap => ?_, Lts.forall_concat h.hooked trivial, fun r hr => ?_,
    h.nodup, h.known⟩
  · have hcases : (s.tasks ++ [Task.request len])[j]? = some w := hj
    rw [List.getElem?_append] at hcases
    split at hcases
    · exact h.tasks j w hcases r hr hcap
    · rw [List.mem_singleton.mp (List.mem_of_getElem? hcases)] at hr
      cases hr
  · obtain ⟨hmem, hrest⟩ := h.live r hr
    refine ⟨?_, hrest⟩
    rw [Heap.mems, List.flatMap_append, List.flatMap_singleton]
    exact (List.append_nil _).symm ▸ hmem

/-- A new buffer is not registered. -/
theorem Held.alloc (h : Held s) {len addr : Nat} (hi : s.tasks[i]? = some (.alloc len))
    (hfresh : ∀ r ∈ s.mems, Range.Apart ⟨addr, len⟩ r) :
    Held (s.set i (.pin len (Vec.zeroed addr len))) := by
  have hpos := poolMin_pos
  -- a registered range at this address would not be apart from the new one
  have hnone : poolMinBytes ≤ len → ∀ q ∈ s.locks, q.addr ≠ addr := by
    intro hlen q hq
    obtain ⟨hmem, hqcap, -⟩ := h.live q hq
    exact ((hfresh q hmem).addr_ne (show 0 < len by omega) (by omega)).symm
  refine ⟨h.pool, fun j w hj r hr hcap => ?_, Lts.forall_set h.hooked (t := .pin _ _) trivial i,
    fun r hr => ?_, h.nodup, h.known⟩
  · rcases Lts.set_cases hi hj with ⟨-, rfl⟩ | ⟨-, hj⟩
    · rw [List.mem_singleton.mp hr] at hcap ⊢
      refine ⟨fun hL => hnone hcap _ hL rfl, fun hP => ?_⟩
      obtain ⟨q, hq, haddr⟩ := h.known _ hP
      exact hnone hcap q hq haddr
    · exact h.tasks j w hj r hr hcap
  · obtain ⟨hmem, hrest⟩ := h.live r hr
    have hset : (s.set i (.pin len (Vec.zeroed addr len))).mems.Perm (⟨addr, len⟩ :: s.mems) :=
      mems_set (u := .pin len (Vec.zeroed addr len)) hi s.bufs
    exact ⟨hset.symm.subset (List.mem_cons_of_mem _ hmem), hrest⟩

theorem Held.recycled (h : Held s) {len : Nat}
    (hi : s.tasks[i]? = some t) (hseeks : t.seeks = some len)
    (hr : s.recycle len = some (s', v)) : Held (s'.set i (.lent v)) := by
  obtain ⟨old, rest, hperm, -, rfl, rfl⟩ := recycle_cases hr
  refine ⟨fun w hw => h.pool w (hperm.subset (List.mem_cons_of_mem _ hw)),
    fun j w hj r hr hcap => ?_, Lts.forall_set h.hooked (t := .lent _) trivial i, fun r hr => ?_,
    h.nodup, h.known⟩
  · rcases Lts.set_cases hi hj with ⟨-, rfl⟩ | ⟨-, hj⟩
    · rw [List.mem_singleton.mp hr] at hcap ⊢
      exact h.pool old (hperm.subset (List.mem_cons_self ..)) hcap
    · exact h.tasks j w hj r hr hcap
  · obtain ⟨hmem, hrest⟩ := h.live r hr
    have hset := mems_set (u := .lent ⟨old.mem, len⟩) hi rest
    rw [seeks_mems hseeks, List.nil_append] at hset
    have hall := hset.trans ((hperm.map Vec.mem).append_right _)
    exact ⟨hall.symm.subset hmem, hrest⟩

theorem Held.kept (h : Held s) (hi : s.tasks[i]? = some (.drop v))
    (bytes : Nat) : Held { s.set i .done with bufs := s.bufs ++ [v], bytes } := by
  refine ⟨fun w hw hcap => ?_, fun j w hj r hr hcap => ?_,
    Lts.forall_set h.hooked (t := .done) trivial i, fun r hr => ?_, h.nodup, h.known⟩
  · rcases List.mem_append.mp hw with hw | hw
    · exact h.pool w hw hcap
    · rw [List.mem_singleton.mp hw] at hcap ⊢
      exact h.tasks i _ hi v.mem (List.mem_singleton_self _) hcap
  · rcases Lts.set_cases hi hj with ⟨-, rfl⟩ | ⟨-, hj⟩
    · cases hr
    · exact h.tasks j w hj r hr hcap
  · obtain ⟨hmem, hrest⟩ := h.live r hr
    refine ⟨?_, hrest⟩
    have hset := mems_set (u := .done) hi (s.bufs ++ [v])
    have hmid : ((s.bufs ++ [v]).map Vec.mem ++ s.tasks.flatMap Task.mems).Perm
        (v.mem :: s.mems) := by
      rw [List.map_append, List.map_singleton, List.append_assoc]
      exact List.perm_middle
    exact (hset.trans hmid).cons_inv.symm.subset hmem

/-- A set or list with one member more or less is the same to the others. -/
theorem other_iff {m r : Range} (hne : r.addr ≠ m.addr) (locks : List Range)
    (pinned : Finset Nat) : (r ∈ m :: locks ↔ r ∈ locks) ∧ (r ∈ locks.erase m ↔ r ∈ locks) ∧
      (r.addr ∈ insert m.addr pinned ↔ r.addr ∈ pinned) ∧
      (r.addr ∈ pinned.erase m.addr ↔ r.addr ∈ pinned) := by
  have hrm : r ≠ m := fun h => hne (congrArg Range.addr h)
  refine ⟨?_, List.mem_erase_of_ne hrm, ?_, ?_⟩
  · rw [List.mem_cons]
    exact or_iff_right hrm
  · rw [Finset.mem_insert]
    exact or_iff_right hne
  · rw [Finset.mem_erase]
    exact and_iff_right hne

theorem Held.register (h : Held s) (hs : Sound cfg s) {len locked budget : Nat}
    (hi : s.tasks[i]? = some (.register len v locked budget)) :
    Held { s.set i (.pinned len v) with locks := v.mem :: s.locks } := by
  obtain ⟨hon, hcap⟩ : s.hooked = true ∧ _ := h.hooked _ (List.mem_of_getElem? hi)
  obtain ⟨hL, hP⟩ : v.mem ∉ s.locks ∧ _ :=
    h.tasks i _ hi v.mem (List.mem_singleton_self _) hcap
  refine h.turn hs hi rfl rfl hcap hon s.pinBytes (fun r hne => ?_)
    ⟨List.mem_cons_self .., hP⟩ ⟨rfl, hcap⟩ (fun r hr => ?_) (List.nodup_cons.mpr ⟨hL, h.nodup⟩) ?_
  · exact ⟨(other_iff hne s.locks s.pinned).1, Iff.rfl⟩
  · exact (List.mem_cons.mp hr).symm
  · intro a ha
    obtain ⟨q, hq, haddr⟩ := h.known a ha
    exact ⟨q, List.mem_cons_of_mem _ hq, haddr⟩

theorem Held.pinned_insert (h : Held s) (hs : Sound cfg s) {len : Nat}
    (hi : s.tasks[i]? = some (.pinned len v)) :
    Held { s.set i (.pinCount len v) with pinned := insert v.mem.addr s.pinned } := by
  obtain ⟨hon, hcap⟩ : s.hooked = true ∧ _ := h.hooked _ (List.mem_of_getElem? hi)
  obtain ⟨hL, -⟩ : v.mem ∈ s.locks ∧ _ := h.tasks i _ hi v.mem (List.mem_singleton_self _) hcap
  refine h.turn hs hi rfl rfl hcap hon s.pinBytes (fun r hne => ?_)
    ⟨hL, Finset.mem_insert_self ..⟩ ⟨rfl, hcap⟩ (fun r hr => .inl hr) h.nodup ?_
  · exact ⟨Iff.rfl, (other_iff hne s.locks s.pinned).2.2.1⟩
  · intro a ha
    rcases Finset.mem_insert.mp ha with rfl | ha
    · exact ⟨v.mem, hL, rfl⟩
    · exact h.known a ha

theorem Held.pinned_remove (h : Held s) (hs : Sound cfg s)
    (hi : s.tasks[i]? = some (.unpinned v)) (hin : v.mem.addr ∈ s.pinned) :
    Held { s.set i (.unregister v) with pinned := s.pinned.erase v.mem.addr } := by
  obtain ⟨hon, hcap⟩ : s.hooked = true ∧ _ := h.hooked _ (List.mem_of_getElem? hi)
  have hL : v.mem ∈ s.locks :=
    (h.tasks i _ hi v.mem (List.mem_singleton_self _) hcap).mpr hin
  refine h.turn hs hi rfl rfl hcap hon s.pinBytes (fun r hne => ?_)
    ⟨hL, Finset.notMem_erase _ _⟩ ⟨rfl, hcap⟩ (fun r hr => .inl hr) h.nodup ?_
  · exact ⟨Iff.rfl, (other_iff hne s.locks s.pinned).2.2.2⟩
  · exact fun a ha => h.known a (Finset.mem_of_mem_erase ha)

theorem Held.unregister (h : Held s) (hs : Sound cfg s)
    (hi : s.tasks[i]? = some (.unregister v)) :
    Held { s.set i (.uncount v) with locks := s.locks.erase v.mem } := by
  obtain ⟨hon, hcap⟩ : s.hooked = true ∧ _ := h.hooked _ (List.mem_of_getElem? hi)
  obtain ⟨-, hP⟩ : _ ∧ v.mem.addr ∉ s.pinned :=
    h.tasks i _ hi v.mem (List.mem_singleton_self _) hcap
  refine h.turn hs hi rfl rfl hcap hon s.pinBytes (fun r hne => ?_)
    ⟨h.nodup.not_mem_erase, hP⟩ ⟨rfl, hcap⟩ (fun r hr => .inl (List.mem_of_mem_erase hr))
    (h.nodup.erase _) ?_
  · exact ⟨(other_iff hne s.locks s.pinned).2.1, Iff.rfl⟩
  · intro a ha
    obtain ⟨q, hq, haddr⟩ := h.known a ha
    -- what `PINNED` has is at another address
    have hne : q ≠ v.mem := fun heq => hP (heq ▸ haddr ▸ ha)
    exact ⟨q, (List.mem_erase_of_ne hne).mpr hq, haddr⟩

/-- **A step** keeps what is registered told by where the buffers are. -/
theorem Held.step (h : Held s) (hs : Sound cfg s) {a : Act} (hstep : Step cfg s a s') :
    Held s' := by
  cases hstep with
  | request len => exact h.call len
  | small hi _ => exact h.move hi rfl (fun _ hr => by cases hr) fun _ => trivial
  | recycled hi hseeks _ hr => exact h.recycled hi hseeks hr
  | missed hi _ _ =>
    split
    · exact h.move hi rfl (fun _ hr => by cases hr) fun _ => trivial
    · exact h.move hi rfl (fun _ hr => by cases hr) fun _ => trivial
  | waited hi _ _ => exact h.move hi rfl (fun _ hr => by cases hr) fun _ => trivial
  | starved hi _ _ => exact h.move hi rfl (fun _ hr => by cases hr) fun _ => trivial
  | alloc hi _ _ hfresh => exact h.alloc hi hfresh
  | unhooked hi _ => exact h.move hi rfl (fun _ _ _ hh => iff_of_false hh.1 hh.2) fun _ => trivial
  | hooked hi hon hcap => exact h.move hi rfl (fun _ _ _ hh => hh) fun _ => ⟨hon, hcap⟩
  | pinBytes hi => exact h.move hi rfl (fun _ _ _ hh => hh) fun hh => hh
  | capped hi _ => exact h.move hi rfl (fun _ _ _ hh => iff_of_false hh.1 hh.2) fun _ => trivial
  | granted hi _ => exact h.move hi rfl (fun _ _ _ hh => hh) fun hh => hh
  | register hi => exact h.register hs hi
  | unregistered hi =>
    exact h.move hi rfl (fun _ _ _ hh => iff_of_false hh.1 hh.2) fun _ => trivial
  | pinned hi => exact h.pinned_insert hs hi
  | @pinCount i len v hi =>
    have hm : Held (s.set i (.lent v)) :=
      h.move hi rfl (fun _ _ _ hh => iff_of_true hh.1 hh.2) fun _ => trivial
    exact ⟨hm.pool, hm.tasks, hm.hooked, hm.live, hm.nodup, hm.known⟩
  | drop hi => exact h.move hi rfl (fun _ _ _ hh => hh) fun _ => trivial
  | @dropSmall i v hi hsmall =>
    refine h.move hi rfl (fun r hr hcap _ => ?_) fun _ => trivial
    rw [List.mem_singleton.mp hr] at hcap
    exact absurd hsmall (Nat.not_lt.mpr hcap)
  | kept hi _ _ => exact h.kept hi _
  | rejected hi hcap _ => exact h.move hi rfl (fun _ _ _ hh => hh) fun _ => hcap
  | @unpinUnhooked i v hi hoff =>
    -- without hooks nothing was ever registered
    have hnone : ∀ r, r ∉ s.locks := fun r hr => by
      have hon := (h.live r hr).2.2
      rw [hoff] at hon
      cases hon
    refine h.move hi rfl (fun r _ _ hh => ⟨hnone r, fun hP => hnone r (hh.mpr hP)⟩)
      fun _ => trivial
  | unpin hi hon => exact h.move hi rfl (fun _ _ _ hh => hh) fun hcap => ⟨hon, hcap⟩
  | unpinned hi hin => exact h.pinned_remove hs hi hin
  | @pageable i v hi hout =>
    refine h.move hi rfl (fun r hr _ hh => ?_) fun _ => trivial
    rw [List.mem_singleton.mp hr] at hh ⊢
    exact ⟨fun hL => hout (hh.mp hL), hout⟩
  | unregister hi => exact h.unregister hs hi
  | @uncount i v hi =>
    have hm : Held (s.set i (.free v)) := h.move hi rfl (fun _ _ _ hh => hh) fun _ => trivial
    exact ⟨hm.pool, hm.tasks, hm.hooked, hm.live, hm.nodup, hm.known⟩
  | @free i v hi =>
    refine h.release hi rfl (fun r hr hL => ?_) trivial
    have hcap := (h.live r hL).2.1
    exact (h.tasks i _ hi r hr hcap).1 hL
  | setBudget _ => exact ⟨h.pool, h.tasks, h.hooked, h.live, h.nodup, h.known⟩
  | hook =>
    refine ⟨h.pool, h.tasks, fun t ht => ?_, fun r hr => ?_, h.nodup, h.known⟩
    · have hh := h.hooked t ht
      cases t <;> first | exact trivial | exact hh | exact ⟨rfl, hh.2⟩
    · obtain ⟨hmem, hcap, -⟩ := h.live r hr
      exact ⟨hmem, hcap, rfl⟩

/-! ## The counter -/

/-- The bytes registered with the driver. -/
def Heap.lockedBytes (s : Heap) : Nat := (s.locks.map Range.cap).sum

/-- Registered and not counted yet. -/
def Task.pending : Task → Nat
  | .pinned _ v => v.mem.cap
  | .pinCount _ v => v.mem.cap
  | _ => 0

/-- Counted and no longer registered. -/
def Task.ahead : Task → Nat
  | .uncount v => v.mem.cap
  | _ => 0

/-- About to be tested against the budget, or past the test. -/
def Task.asking : Task → Nat
  | .pinBytes _ v => v.mem.cap
  | .pinMax _ v _ => v.mem.cap
  | .register _ v _ _ => v.mem.cap
  | _ => 0

/-- What was read leaves the sum inside 64 bits. -/
def Task.Summable : Task → Prop
  | .pinMax _ v locked => locked + v.mem.cap < 2 ^ 64
  | .register _ v locked budget => locked + v.mem.cap ≤ budget
  | _ => True

/-- The counter and the driver differ by what the calls carry. -/
structure Counted (s : Heap) : Prop where
  pinBytes : s.pinBytes + (s.tasks.map Task.pending).sum =
    s.lockedBytes + (s.tasks.map Task.ahead).sum
  summable : ∀ t ∈ s.tasks, t.Summable

theorem Counted.new : Counted Heap.new := ⟨rfl, fun _ h => absurd h List.not_mem_nil⟩

/-- What a task has of some measure, the live memory has. -/
theorem sum_tasks_le {f : Task → Nat} {g : Range → Nat}
    (h : ∀ t ∈ s.tasks, f t ≤ (t.mems.map g).sum) :
    (s.tasks.map f).sum ≤ (s.mems.map g).sum := by
  have htasks : (s.tasks.map f).sum ≤ (s.tasks.map fun t => (t.mems.map g).sum).sum :=
    List.sum_le_sum h
  have hflat : ((s.tasks.flatMap Task.mems).map g).sum =
      (s.tasks.map fun t => (t.mems.map g).sum).sum := by
    rw [List.map_flatMap, List.flatMap_def, List.sum_flatten, List.map_map]
    rfl
  rw [Heap.mems, List.map_append, List.sum_append, hflat]
  omega

/-- The registered part of the live memory, and the rest. -/
theorem Held.sum_mems (h : Held s) (hs : Sound cfg s) :
    s.lockedBytes = (s.mems.map fun r => if r ∈ s.locks then r.cap else 0).sum ∧
      s.lockedBytes + (s.mems.map fun r => if r ∈ s.locks then 0 else r.cap).sum =
        (s.mems.map Range.cap).sum := by
  have hnodup : (s.mems.filter fun r => r ∈ s.locks).Nodup := by
    refine (hs.apart.filter _).imp_of_mem fun {r q} hr hq hapart heq => ?_
    have hrL : r ∈ s.locks := of_decide_eq_true (List.mem_filter.mp hr).2
    have hcap := (h.live r hrL).2.1
    have hpos := poolMin_pos
    exact hapart.addr_ne (by omega) (heq ▸ by omega) (congrArg Range.addr heq)
  have hperm : s.locks.Perm (s.mems.filter fun r => r ∈ s.locks) := by
    refine (List.perm_ext_iff_of_nodup h.nodup hnodup).mpr fun r => ?_
    rw [List.mem_filter, decide_eq_true_eq]
    exact ⟨fun hr => ⟨(h.live r hr).1, hr⟩, fun hr => hr.2⟩
  have hfilter : ∀ l : List Range, ((l.filter fun r => r ∈ s.locks).map Range.cap).sum =
      (l.map fun r => if r ∈ s.locks then r.cap else 0).sum := by
    intro l
    induction l with
    | nil => rfl
    | cons r l ih =>
      rw [List.filter_cons, List.map_cons, List.sum_cons, ← ih]
      by_cases hr : r ∈ s.locks
      · rw [if_pos (decide_eq_true hr), if_pos hr, List.map_cons, List.sum_cons]
      · rw [if_neg (fun hd => hr (of_decide_eq_true hd)), if_neg hr, Nat.zero_add]
  have hlocked : s.lockedBytes = (s.mems.map fun r => if r ∈ s.locks then r.cap else 0).sum := by
    rw [Heap.lockedBytes, (hperm.map Range.cap).sum_eq]
    exact hfilter s.mems
  refine ⟨hlocked, ?_⟩
  rw [hlocked, ← List.sum_map_add]
  congr 1
  refine List.map_congr_left fun r _ => ?_
  by_cases hr : r ∈ s.locks
  · rw [if_pos hr, if_pos hr, Nat.add_zero]
  · rw [if_neg hr, if_neg hr, Nat.zero_add]

/-- What is registered and not counted is registered. -/
theorem Held.pending_le (h : Held s) (hs : Sound cfg s) :
    (s.tasks.map Task.pending).sum ≤ s.lockedBytes := by
  rw [(h.sum_mems hs).1]
  refine sum_tasks_le fun t ht => ?_
  obtain ⟨i, hi⟩ := List.getElem?_of_mem ht
  have hin : ∀ v : Vec, t.mems = [v.mem] → v.mem ∈ s.locks →
      v.mem.cap ≤ (t.mems.map fun r => if r ∈ s.locks then r.cap else 0).sum := by
    intro v hv hL
    rw [hv, List.map_singleton, List.sum_singleton, if_pos hL]
  cases t with
  | pinned len v =>
    have hcap := (h.hooked _ ht).2
    exact hin v rfl (h.tasks i _ hi v.mem (List.mem_singleton_self _) hcap).1
  | pinCount len v =>
    have hcap := (h.hooked _ ht).2
    exact hin v rfl (h.tasks i _ hi v.mem (List.mem_singleton_self _) hcap).1
  | _ => exact Nat.zero_le _

/-- What is not registered fits beside what is. -/
theorem Held.asking_lt (h : Held s) (hs : Sound cfg s) :
    s.lockedBytes + (s.tasks.map fun t => t.ahead + t.asking).sum < 2 ^ 64 := by
  have hlt := hs.sum_lt
  rw [← (h.sum_mems hs).2] at hlt
  refine Nat.lt_of_le_of_lt (Nat.add_le_add_left (sum_tasks_le fun t ht => ?_) _) hlt
  obtain ⟨i, hi⟩ := List.getElem?_of_mem ht
  have hout : ∀ v : Vec, t.mems = [v.mem] → v.mem ∉ s.locks →
      v.mem.cap ≤ (t.mems.map fun r => if r ∈ s.locks then 0 else r.cap).sum := by
    intro v hv hL
    rw [hv, List.map_singleton, List.sum_singleton, if_neg hL]
  cases t with
  | uncount v =>
    have hcap := (h.hooked _ ht).2
    exact hout v rfl (h.tasks i _ hi v.mem (List.mem_singleton_self _) hcap).1
  | pinBytes len v =>
    have hcap := (h.hooked _ ht).2
    rw [show Task.ahead (.pinBytes len v) = 0 from rfl, Nat.zero_add]
    exact hout v rfl (h.tasks i _ hi v.mem (List.mem_singleton_self _) hcap).1
  | pinMax len v locked =>
    have hcap := (h.hooked _ ht).2
    rw [show Task.ahead (.pinMax len v locked) = 0 from rfl, Nat.zero_add]
    exact hout v rfl (h.tasks i _ hi v.mem (List.mem_singleton_self _) hcap).1
  | register len v locked budget =>
    have hcap := (h.hooked _ ht).2
    rw [show Task.ahead (.register len v locked budget) = 0 from rfl, Nat.zero_add]
    exact hout v rfl (h.tasks i _ hi v.mem (List.mem_singleton_self _) hcap).1
  | _ => exact Nat.zero_le _

theorem Counted.move (h : Counted s) (hi : s.tasks[i]? = some t)
    (hpending : u.pending = t.pending) (hahead : u.ahead = t.ahead)
    (hsum : t.Summable → u.Summable) : Counted (s.set i u) := by
  have hp := Lts.sum_set (f := Task.pending) (u := u) hi
  have ha := Lts.sum_set (f := Task.ahead) (u := u) hi
  have hbytes := h.pinBytes
  refine ⟨?_, Lts.forall_set h.summable (hsum (h.summable t (List.mem_of_getElem? hi))) i⟩
  show s.pinBytes + ((s.tasks.set i u).map Task.pending).sum =
    s.lockedBytes + ((s.tasks.set i u).map Task.ahead).sum
  omega

theorem sum_ge (hi : s.tasks[i]? = some t) (f : Task → Nat) :
    f t ≤ (s.tasks.map f).sum :=
  List.single_le_sum (fun _ _ => Nat.zero_le _) _ (List.mem_map_of_mem (List.mem_of_getElem? hi))

/-- **A step** keeps the count. -/
theorem Counted.step (h : Counted s) (hheld : Held s) (hs : Sound cfg s) {a : Act}
    (hstep : Step cfg s a s') : Counted s' := by
  have hbytes := h.pinBytes
  have hlt := hheld.asking_lt hs
  have hsplit : (s.tasks.map fun t => t.ahead + t.asking).sum =
      (s.tasks.map Task.ahead).sum + (s.tasks.map Task.asking).sum := List.sum_map_add
  cases hstep with
  | request len =>
    refine ⟨?_, Lts.forall_concat h.summable (t := .request len) trivial⟩
    rw [Lts.sum_concat, Lts.sum_concat]
    exact hbytes
  | small hi _ => exact h.move hi rfl rfl fun _ => trivial
  | @recycled i len t s₁ v hi hseeks _ hr =>
    obtain ⟨old, rest, -, -, -, rfl⟩ := recycle_cases hr
    have hzero : t.pending = 0 ∧ t.ahead = 0 := by
      cases t <;> first | exact ⟨rfl, rfl⟩ | cases hseeks
    have hm : Counted (s.set i (.lent v)) :=
      h.move hi hzero.1.symm hzero.2.symm fun _ => trivial
    exact ⟨hm.pinBytes, hm.summable⟩
  | missed hi _ _ =>
    split
    · exact h.move hi rfl rfl fun _ => trivial
    · exact h.move hi rfl rfl fun _ => trivial
  | waited hi _ _ => exact h.move hi rfl rfl fun _ => trivial
  | starved hi _ _ => exact h.move hi rfl rfl fun _ => trivial
  | alloc hi _ _ _ => exact h.move hi rfl rfl fun _ => trivial
  | unhooked hi _ => exact h.move hi rfl rfl fun _ => trivial
  | hooked hi _ _ => exact h.move hi rfl rfl fun _ => trivial
  | @pinBytes i len v hi =>
    -- what is counted is live, and this buffer is beside it
    have hask : v.mem.cap ≤ _ := sum_ge hi Task.asking
    refine h.move hi rfl rfl fun _ => ?_
    show s.pinBytes + v.mem.cap < 2 ^ 64
    omega
  | capped hi _ => exact h.move hi rfl rfl fun _ => trivial
  | @granted i len locked v hi hok =>
    refine h.move hi rfl rfl fun hsum => ?_
    rw [Nat.mod_eq_of_lt hsum] at hok
    exact hok
  | @register i len locked budget v hi =>
    have hp := Lts.sum_set (f := Task.pending) (u := .pinned len v) hi
    have ha := Lts.sum_set (f := Task.ahead) (u := .pinned len v) hi
    refine ⟨?_, Lts.forall_set h.summable (t := .pinned len v) trivial i⟩
    show s.pinBytes + ((s.tasks.set i _).map Task.pending).sum =
      ((v.mem :: s.locks).map Range.cap).sum + ((s.tasks.set i _).map Task.ahead).sum
    rw [List.map_cons, List.sum_cons]
    dsimp only [Task.pending, Task.ahead, Heap.lockedBytes] at hp ha hbytes
    omega
  | unregistered hi => exact h.move hi rfl rfl fun _ => trivial
  | @pinned i len v hi =>
    have hm : Counted (s.set i (.pinCount len v)) := h.move hi rfl rfl fun _ => trivial
    exact ⟨hm.pinBytes, hm.summable⟩
  | @pinCount i len v hi =>
    have hp := Lts.sum_set (f := Task.pending) (u := .lent v) hi
    have ha := Lts.sum_set (f := Task.ahead) (u := .lent v) hi
    have hmine : v.mem.cap ≤ _ := sum_ge hi Task.pending
    rw [Nat.mod_eq_of_lt (show s.pinBytes + v.mem.cap < 2 ^ 64 by omega)]
    refine ⟨?_, Lts.forall_set h.summable (t := .lent v) trivial i⟩
    show s.pinBytes + v.mem.cap + ((s.tasks.set i _).map Task.pending).sum =
      s.lockedBytes + ((s.tasks.set i _).map Task.ahead).sum
    dsimp only [Task.pending, Task.ahead] at hp ha
    omega
  | drop hi => exact h.move hi rfl rfl fun _ => trivial
  | dropSmall hi _ => exact h.move hi rfl rfl fun _ => trivial
  | @kept i v hi _ _ =>
    have hm : Counted (s.set i .done) := h.move hi rfl rfl fun _ => trivial
    exact ⟨hm.pinBytes, hm.summable⟩
  | rejected hi _ _ => exact h.move hi rfl rfl fun _ => trivial
  | unpinUnhooked hi _ => exact h.move hi rfl rfl fun _ => trivial
  | unpin hi _ => exact h.move hi rfl rfl fun _ => trivial
  | @unpinned i v hi _ =>
    have hm : Counted (s.set i (.unregister v)) := h.move hi rfl rfl fun _ => trivial
    exact ⟨hm.pinBytes, hm.summable⟩
  | pageable hi _ => exact h.move hi rfl rfl fun _ => trivial
  | @unregister i v hi =>
    have hp := Lts.sum_set (f := Task.pending) (u := .uncount v) hi
    have ha := Lts.sum_set (f := Task.ahead) (u := .uncount v) hi
    have hcap := (hheld.hooked _ (List.mem_of_getElem? hi)).2
    have hL := (hheld.tasks i _ hi v.mem (List.mem_singleton_self _) hcap).1
    have herase := List.sum_map_erase Range.cap hL
    refine ⟨?_, Lts.forall_set h.summable (t := .uncount v) trivial i⟩
    show s.pinBytes + ((s.tasks.set i _).map Task.pending).sum =
      ((s.locks.erase v.mem).map Range.cap).sum + ((s.tasks.set i _).map Task.ahead).sum
    dsimp only [Task.pending, Task.ahead, Heap.lockedBytes] at hp ha hbytes
    omega
  | @uncount i v hi =>
    have hp := Lts.sum_set (f := Task.pending) (u := .free v) hi
    have ha := Lts.sum_set (f := Task.ahead) (u := .free v) hi
    have hmine : v.mem.cap ≤ _ := sum_ge hi Task.ahead
    have hpending := hheld.pending_le hs
    refine ⟨?_, Lts.forall_set h.summable (t := .free v) trivial i⟩
    show (s.pinBytes + (2 ^ 64 - v.mem.cap % 2 ^ 64)) % 2 ^ 64 +
      ((s.tasks.set i _).map Task.pending).sum =
      s.lockedBytes + ((s.tasks.set i _).map Task.ahead).sum
    dsimp only [Task.pending, Task.ahead] at hp ha
    omega
  | free hi => exact h.move hi rfl rfl fun _ => trivial
  | setBudget _ => exact ⟨h.pinBytes, h.summable⟩
  | hook => exact ⟨h.pinBytes, h.summable⟩

/-! ## Runs -/

def Act.registers (r : Range) : Act → Bool
  | .register q _ _ => q == r
  | _ => false

def Act.unregisters (r : Range) : Act → Bool
  | .unregister q => q == r
  | _ => false

/-- No call is in progress. -/
def Heap.Quiet (s : Heap) : Prop := ∀ t ∈ s.tasks, t = .done ∨ ∃ v, t = .lent v

/-- What a call has read still holds at the hook: no more is locked, and the budget is no
smaller. -/
def Current (cfg : Config) (s : Heap) : Act → Prop
  | .register _ locked budget => s.lockedBytes ≤ locked ∧ budget ≤ s.pinMaxBytes cfg
  | _ => True

/-- A registration is of memory apart from what is registered, and within the budget; a
release is of what is registered, and what is freed is not. -/
def Allowed (cfg : Config) (s : Heap) : Act → Prop
  | .register r _ _ => (∀ q ∈ s.locks, q.Apart r) ∧ s.lockedBytes + r.cap ≤ s.pinMaxBytes cfg
  | .unregister r => r ∈ s.locks
  | .free r => ∀ q ∈ s.locks, q.Apart r
  | _ => True

/-- **A step whose reads still hold** stays within the budget. -/
theorem Held.allowed (h : Held s) (hs : Sound cfg s) (hc : Counted s) {a : Act}
    (hstep : Step cfg s a s') (hcur : Current cfg s a) : Allowed cfg s a := by
  have hapart {i : Nat} {t : Task} (hi : s.tasks[i]? = some t) {r : Range} (hr : r ∈ t.mems)
      (hno : r ∉ s.locks) : ∀ q ∈ s.locks, q.Apart r := fun q hq =>
    Range.apart_of_mem hs.apart (h.live q hq).1 (mem_mems hi hr) fun heq => hno (heq ▸ hq)
  cases hstep with
  | @register i len locked budget v hi =>
    have hcap := (h.hooked _ (List.mem_of_getElem? hi)).2
    have hno := (h.tasks i _ hi v.mem (List.mem_singleton_self _) hcap).1
    have hsum : locked + v.mem.cap ≤ budget := hc.summable _ (List.mem_of_getElem? hi)
    obtain ⟨hlocked, hbudget⟩ : s.lockedBytes ≤ locked ∧ budget ≤ s.pinMaxBytes cfg := hcur
    exact ⟨hapart hi (List.mem_singleton_self _) hno, by omega⟩
  | @unregister i v hi =>
    have hcap := (h.hooked _ (List.mem_of_getElem? hi)).2
    exact (h.tasks i _ hi v.mem (List.mem_singleton_self _) hcap).1
  | @free i v hi =>
    refine hapart hi (List.mem_singleton_self _) fun hL => ?_
    exact (h.tasks i _ hi v.mem (List.mem_singleton_self _) (h.live v.mem hL).2.1).1 hL
  | _ => trivial

/-- Each registration of a range so far was released, or is there. -/
theorem Held.count_step (h : Held s) {a : Act} (hstep : Step cfg s a s') (r : Range) :
    s'.locks.count r + (if a.unregisters r then 1 else 0) =
      s.locks.count r + (if a.registers r then 1 else 0) := by
  cases hstep with
  | recycled _ _ _ hr =>
    obtain ⟨old, rest, -, -, -, rfl⟩ := recycle_cases hr
    rfl
  | @register i len locked budget v hi => exact List.count_cons
  | @unregister i v hi =>
    have hcap := (h.hooked _ (List.mem_of_getElem? hi)).2
    have hL := (h.tasks i _ hi v.mem (List.mem_singleton_self _) hcap).1
    have hcount := (List.perm_cons_erase hL).count_eq r
    rw [List.count_cons] at hcount
    exact hcount.symm
  | _ => rfl

/-- **A run** keeps all three, and its registrations and releases match. -/
theorem held_of_run {trace : List Act} (h : Lts.Run (Step cfg) Heap.new trace s) :
    Sound cfg s ∧ Held s ∧ Counted s ∧ ∀ r,
      trace.countP (Act.registers r) = trace.countP (Act.unregisters r) + s.locks.count r := by
  refine h.trace_inv (I := fun trace s => Sound cfg s ∧ Held s ∧ Counted s ∧ ∀ r,
    trace.countP (Act.registers r) = trace.countP (Act.unregisters r) + s.locks.count r)
    ⟨Sound.new cfg, Held.new, Counted.new, fun _ => rfl⟩ ?_
  intro trace s a s' hI hstep
  obtain ⟨hs, hheld, hcounted, hcount⟩ := hI
  refine ⟨(hs.step hstep).1, hheld.step hs hstep, hcounted.step hheld hs hstep, fun r => ?_⟩
  have hnow := hheld.count_step hstep r
  have hbefore := hcount r
  rw [List.countP_append, List.countP_append, List.countP_singleton, List.countP_singleton]
  omega

/-- **Page-locks**, in runs in which what a call has read still holds at the hook: every
range registered was released once or is registered, and once, and is live; between calls
the counter is what is registered; and a registration is of memory that is not registered
and stays within the budget, a release is of what is registered, and no registered memory
is freed. -/
theorem pins_bounded {trace : List Act}
    (h : Lts.Run (fun s a s' => Step cfg s a s' ∧ Current cfg s a) Heap.new trace s) :
    (∀ r, trace.countP (Act.registers r) = trace.countP (Act.unregisters r) + s.locks.count r) ∧
      s.locks.Nodup ∧ (∀ r ∈ s.locks, r ∈ s.mems) ∧ (s.Quiet → s.pinBytes = s.lockedBytes) ∧
      ∀ a s', Step cfg s a s' → Current cfg s a → Allowed cfg s a := by
  obtain ⟨hs, hheld, hcounted, hcount⟩ := held_of_run (h.mono fun _ _ _ hst => hst.1)
  refine ⟨hcount, hheld.nodup, fun r hr => (hheld.live r hr).1, fun hquiet => ?_,
    fun a s' hstep hcur => hheld.allowed hs hcounted hstep hcur⟩
  have hzero : ∀ f : Task → Nat, f .done = 0 → (∀ v, f (.lent v) = 0) →
      (s.tasks.map f).sum = 0 := by
    intro f hdone hlent
    apply List.sum_eq_zero
    intro n hn
    obtain ⟨t, ht, rfl⟩ := List.mem_map.mp hn
    rcases hquiet t ht with rfl | ⟨v, rfl⟩
    · exact hdone
    · exact hlent v
  have hbytes := hcounted.pinBytes
  rw [hzero Task.pending rfl fun _ => rfl, hzero Task.ahead rfl fun _ => rfl] at hbytes
  exact hbytes

/-! ## Two calls that test at once -/

/-- No bounds but the budget. -/
def budgetOnly : Config := ⟨2 ^ 64 - 1, 2 ^ 64 - 1, none⟩

/-- A budget for one buffer of the smallest size, nothing locked, and the calls. -/
def oneBuffer (tasks : List Task) : Heap := ⟨[], 0, none, true, ∅, 0, poolMinBytes, [], tasks⟩

/-- A buffer of the smallest size before its hook; the test has seen nothing locked. -/
def tested (addr : Nat) : Task :=
  .register poolMinBytes (Vec.zeroed addr poolMinBytes) 0 poolMinBytes

theorem budget_set : ∃ trace,
    Lts.Run (fun s a s' => Step budgetOnly s a s' ∧ Current budgetOnly s a) Heap.new trace
      (oneBuffer []) := by
  have hhook : Step budgetOnly Heap.new .inner { Heap.new with hooked := true } := .hook
  have hset : Step budgetOnly { Heap.new with hooked := true } (.setBudget poolMinBytes)
      (oneBuffer []) := .setBudget poolMinBytes
  exact ⟨_, (Lts.Run.start.next ⟨hhook, trivial⟩).next ⟨hset, trivial⟩⟩

theorem zeroed_cap (addr len : Nat) : (Vec.zeroed addr len).mem.cap = len := rfl

/-- One more call comes as far as the hook. -/
theorem tested_next {trace : List Act} {tasks : List Task} {addr : Nat} (hpos : 0 < addr)
    (hle : addr + poolMinBytes ≤ 2 ^ 64)
    (hfresh : ∀ r ∈ tasks.flatMap Task.mems, Range.Apart ⟨addr, poolMinBytes⟩ r)
    (h : Lts.Run (fun s a s' => Step budgetOnly s a s' ∧ Current budgetOnly s a) Heap.new trace
      (oneBuffer tasks)) : ∃ trace',
    Lts.Run (fun s a s' => Step budgetOnly s a s' ∧ Current budgetOnly s a) Heap.new trace'
      (oneBuffer (tasks ++ [tested addr])) := by
  let len := poolMinBytes
  let v := Vec.zeroed addr len
  have hlast : ∀ t : Task, (oneBuffer (tasks ++ [t])).tasks[tasks.length]? = some t :=
    fun _ => List.getElem?_concat_length
  have hset : ∀ t u : Task, (oneBuffer (tasks ++ [t])).set tasks.length u =
      oneBuffer (tasks ++ [u]) := fun t u => by
    rw [Heap.set, oneBuffer, List.set_append_right _ _ (Nat.le_refl _), Nat.sub_self,
      List.set_cons_zero]
    rfl
  have hask : Step budgetOnly (oneBuffer tasks) (.request len)
      (oneBuffer (tasks ++ [.request len])) := .request len
  have hmiss : Step budgetOnly (oneBuffer (tasks ++ [.request len])) .inner _ :=
    .missed (hlast (.request len)) (Nat.le_refl _) rfl
  rw [hset] at hmiss
  have halloc : Step budgetOnly (oneBuffer (tasks ++ [.alloc len])) .inner _ :=
    .alloc (hlast (.alloc len)) hpos hle fun r hr => by
      rw [Heap.mems, oneBuffer, List.flatMap_append] at hr
      exact hfresh r ((List.mem_append.mp hr).elim (fun h => by cases h) fun h =>
        (List.mem_append.mp h).elim id fun h => by cases h)
  rw [hset] at halloc
  have hhooked : Step budgetOnly (oneBuffer (tasks ++ [.pin len v])) .inner _ :=
    .hooked (hlast (.pin len v)) rfl (Nat.le_refl _)
  rw [hset] at hhooked
  have hread : Step budgetOnly (oneBuffer (tasks ++ [.pinBytes len v])) .inner _ :=
    .pinBytes (hlast (.pinBytes len v))
  rw [hset] at hread
  have hmax : (oneBuffer (tasks ++ [.pinMax len v 0])).pinMaxBytes budgetOnly = len := by
    rw [Heap.pinMaxBytes, budgetOnly, Option.getD_none, oneBuffer]
  have hfits : (0 + v.mem.cap) % 2 ^ 64
      ≤ (oneBuffer (tasks ++ [.pinMax len v 0])).pinMaxBytes budgetOnly := by
    rw [hmax, zeroed_cap, Nat.zero_add]
    exact Nat.mod_le _ _
  have hgranted : Step budgetOnly (oneBuffer (tasks ++ [.pinMax len v 0])) .inner _ :=
    .granted (hlast (.pinMax len v 0)) hfits
  rw [hset, hmax] at hgranted
  exact ⟨_, (((((h.next ⟨hask, trivial⟩).next ⟨hmiss, trivial⟩).next ⟨halloc, trivial⟩).next
    ⟨hhooked, trivial⟩).next ⟨hread, trivial⟩).next ⟨hgranted, trivial⟩⟩

/-- The hook of a call that has tested. -/
theorem tested_registers {tasks : List Task} {addr : Nat} (hi : tasks[i]? = some (tested addr))
    (locks : List Range) : Step budgetOnly { oneBuffer tasks with locks }
      (.register ⟨addr, poolMinBytes⟩ 0 poolMinBytes)
      { oneBuffer (tasks.set i (.pinned poolMinBytes (Vec.zeroed addr poolMinBytes))) with
        locks := ⟨addr, poolMinBytes⟩ :: locks } := by
  have hi' : ({ oneBuffer tasks with locks } : Heap).tasks[i]? =
    some (.register poolMinBytes (Vec.zeroed addr poolMinBytes) 0 poolMinBytes) := hi
  exact Step.register hi'

/-- One call alone registers within the budget. -/
theorem one_allowed :
    Allowed budgetOnly (oneBuffer [tested 4096])
      (.register ⟨4096, poolMinBytes⟩ 0 poolMinBytes) := by
  obtain ⟨trace, hset⟩ := budget_set
  obtain ⟨trace', hrun⟩ := tested_next (show 0 < 4096 by decide) (by decide)
    (fun _ h => absurd h List.not_mem_nil) hset
  have hstep := tested_registers (show [tested 4096][0]? = some _ from rfl) []
  exact (pins_bounded hrun).2.2.2.2 _ _ hstep ⟨Nat.le_refl _, Nat.le_refl _⟩

/-- Two calls have tested the budget for one buffer before either registers: the second
registration passes it. -/
theorem budget_passed : ∃ trace s a s', Lts.Run (Step budgetOnly) Heap.new trace s ∧
    Step budgetOnly s a s' ∧ ¬ Allowed budgetOnly s a := by
  obtain ⟨trace, hset⟩ := budget_set
  obtain ⟨trace₁, hfirst⟩ := tested_next (show 0 < 4096 by decide) (by decide)
    (fun _ h => absurd h List.not_mem_nil) hset
  have hfresh : ∀ r ∈ [tested 4096].flatMap Task.mems,
      Range.Apart ⟨2 * poolMinBytes, poolMinBytes⟩ r := by
    intro r hr
    rw [List.mem_singleton.mp (show r ∈ [⟨4096, poolMinBytes⟩] from hr)]
    refine Finset.disjoint_left.mpr fun a ha ha' => ?_
    obtain ⟨hlow, -⟩ : 2 * poolMinBytes ≤ a ∧ _ := Finset.mem_Ico.mp ha
    obtain ⟨-, hhigh⟩ : _ ∧ a < 4096 + poolMinBytes := Finset.mem_Ico.mp ha'
    have hmin : poolMinBytes = 1048576 := by decide
    omega
  obtain ⟨trace₂, hsecond⟩ := tested_next (show 0 < 2 * poolMinBytes by decide) (by decide)
    hfresh hfirst
  have hone := tested_registers
    (show [tested 4096, tested (2 * poolMinBytes)][0]? = some _ from rfl) []
  have htwo := tested_registers (show [Task.pinned poolMinBytes (Vec.zeroed 4096 poolMinBytes),
    tested (2 * poolMinBytes)][1]? = some _ from rfl) [⟨4096, poolMinBytes⟩]
  refine ⟨_, _, _, _, (hsecond.mono fun _ _ _ hst => hst.1).next hone, htwo, fun hall => ?_⟩
  have hle : poolMinBytes + poolMinBytes ≤ poolMinBytes := hall.2
  have hpos := poolMin_pos
  omega

end Colibri.Pool
