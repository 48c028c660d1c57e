import Mathlib.Algebra.Order.BigOperators.Group.List
import Colibri.Pool.State

/-!
# Accounting in the pool

In every interleaving of requests and drops all live memory is apart, the pool's own and
each owner's; so the byte counter, which is moved under the lock, is the sum of the
capacities in the pool, and a buffer that is given out has the length asked for.

`Sound` is the invariant, with one lemma for each kind of step: a buffer from the pool
(`Sound.recycled`), a new one (`Sound.alloc`), and one that goes back (`Sound.kept`).
-/

namespace Colibri.Pool

variable {cfg : Config} {s s' : Heap}

/-- The bytes of the pool. -/
def Heap.poolCap (s : Heap) : Nat := (s.bufs.map fun v => v.mem.cap).sum

/-- A buffer under way has the length that was asked for, and room for it. -/
def Vec.Exact (len : Nat) (v : Vec) : Prop := v.len = len ∧ len ≤ v.mem.cap

/-- The length a task will return. -/
def Task.Exact : Task → Prop
  | .pin len v => v.Exact len
  | .pinBytes len v => v.Exact len
  | .pinMax len v _ => v.Exact len
  | .register len v _ _ => v.Exact len
  | .pinned len v => v.Exact len
  | .pinCount len v => v.Exact len
  | _ => True

/-- Live memory is apart and inside the address space, the counter is what the pool holds,
and the lengths are right. -/
structure Sound (cfg : Config) (s : Heap) : Prop where
  apart : s.mems.Pairwise Range.Apart
  within : ∀ r ∈ s.mems, 0 < r.addr ∧ r.addr + r.cap ≤ 2 ^ 64
  bytes : s.bytes = s.poolCap
  bounded : s.arena = none → s.bytes ≤ cfg.poolMaxBytes
  exact : ∀ t ∈ s.tasks, t.Exact

theorem Sound.new (cfg : Config) : Sound cfg Heap.new :=
  ⟨List.Pairwise.nil, fun _ h => absurd h List.not_mem_nil, rfl, fun _ => Nat.zero_le _,
    fun _ h => absurd h List.not_mem_nil⟩

theorem Sound.sum_lt (h : Sound cfg s) : (s.mems.map Range.cap).sum < 2 ^ 64 :=
  Range.sum_cap_lt h.apart h.within (Nat.two_pow_pos 64)

/-- The pool and one owner together. -/
theorem Sound.poolCap_add_lt (h : Sound cfg s) {i : Nat} {t : Task} (hi : s.tasks[i]? = some t)
    {v : Vec} (hv : v.mem ∈ t.mems) : s.poolCap + v.mem.cap < 2 ^ 64 := by
  have hlt := h.sum_lt
  have hmem : v.mem.cap ∈ (s.tasks.flatMap Task.mems).map Range.cap :=
    List.mem_map_of_mem (List.mem_flatMap.mpr ⟨t, List.mem_of_getElem? hi, hv⟩)
  have hle := List.single_le_sum (fun _ _ => Nat.zero_le _) _ hmem
  rw [Heap.mems, List.map_append, List.sum_append, List.map_map] at hlt
  have hpool : s.poolCap = (s.bufs.map (Range.cap ∘ Vec.mem)).sum := rfl
  omega

/-- Fewer live ranges, or the same in another order. -/
theorem Sound.sub (h : Sound cfg s) (extra : List Range) (hperm : (extra ++ s'.mems).Perm s.mems)
    (hbytes : s'.bytes = s'.poolCap) (hbound : s'.arena = none → s'.bytes ≤ cfg.poolMaxBytes)
    (hexact : ∀ t ∈ s'.tasks, t.Exact) : Sound cfg s' := by
  have hsub : s'.mems.Sublist (extra ++ s'.mems) := List.sublist_append_right ..
  refine ⟨?_, fun r hr => ?_, hbytes, hbound, hexact⟩
  · exact (hperm.pairwise_iff fun h => h.symm).mpr h.apart |>.sublist hsub
  · exact h.within r (hperm.subset (hsub.subset hr))

/-- One task goes on with the memory it has, or gives it up. -/
theorem Sound.move (h : Sound cfg s) {i : Nat} {t t' : Task} (hi : s.tasks[i]? = some t)
    (hmems : t'.mems = t.mems ∨ t'.mems = []) (hexact : t.Exact → t'.Exact) :
    Sound cfg (s.set i t') := by
  have hset := mems_set (u := t') hi s.bufs
  have hex : ∀ u ∈ s.tasks.set i t', u.Exact :=
    Lts.forall_set h.exact (hexact (h.exact t (List.mem_of_getElem? hi))) i
  rcases hmems with hm | hm
  · refine h.sub [] ?_ h.bytes h.bounded hex
    rw [hm] at hset
    exact (List.perm_append_left_iff _).mp hset
  · refine h.sub t.mems ?_ h.bytes h.bounded hex
    rw [hm, List.nil_append] at hset
    exact hset

theorem Sound.locks (h : Sound cfg s) (hooked : Bool) (pinned : Finset Nat)
    (pinBytes pinBudget : Nat)
    (locks : List Range) : Sound cfg { s with hooked, pinned, pinBytes, pinBudget, locks } :=
  ⟨h.apart, h.within, h.bytes, h.bounded, h.exact⟩

theorem seeks_mems {t : Task} {len : Nat} (h : t.seeks = some len) : t.mems = [] := by
  cases t <;> first | rfl | cases h

theorem Sound.recycled (h : Sound cfg s) {i len : Nat} {t : Task} {v : Vec}
    (hi : s.tasks[i]? = some t) (hseeks : t.seeks = some len)
    (hr : s.recycle len = some (s', v)) : Sound cfg (s'.set i (.lent v)) ∧ v.Exact len := by
  obtain ⟨old, rest, hperm, hfits, rfl, rfl⟩ := recycle_cases hr
  refine ⟨?_, rfl, hfits⟩
  have hsum : s.poolCap = old.mem.cap + (rest.map fun v => v.mem.cap).sum :=
    (hperm.map _).sum_eq.symm
  have hbytes := h.bytes
  have hcount : s.bytes - old.mem.cap = (rest.map fun v => v.mem.cap).sum := by omega
  refine h.sub [] ?_ hcount (fun hno => ?_)
    (Lts.forall_set h.exact (t := .lent ⟨old.mem, len⟩) trivial i)
  · -- the buffer moves from the pool to its owner
    have hset := mems_set (u := .lent ⟨old.mem, len⟩) hi rest
    rw [seeks_mems hseeks, List.nil_append] at hset
    exact hset.trans ((hperm.map Vec.mem).append_right _)
  · exact Nat.le_trans (Nat.sub_le ..) (h.bounded hno)

theorem Sound.alloc (h : Sound cfg s) {i len addr : Nat} (hi : s.tasks[i]? = some (.alloc len))
    (hpos : 0 < addr) (hle : addr + len ≤ 2 ^ 64)
    (hfresh : ∀ r ∈ s.mems, Range.Apart ⟨addr, len⟩ r) :
    Sound cfg (s.set i (.pin len (Vec.zeroed addr len))) := by
  have hset : (s.set i (.pin len (Vec.zeroed addr len))).mems.Perm (⟨addr, len⟩ :: s.mems) :=
    mems_set (u := .pin len (Vec.zeroed addr len)) hi s.bufs
  have hexact : (Vec.zeroed addr len).Exact len := ⟨rfl, Nat.le_refl _⟩
  refine ⟨?_, fun r hr => ?_, h.bytes, h.bounded, Lts.forall_set h.exact (t := .pin _ _) hexact i⟩
  · exact (hset.pairwise_iff fun h => h.symm).mpr (List.pairwise_cons.mpr ⟨hfresh, h.apart⟩)
  · rcases List.mem_cons.mp (hset.subset hr) with rfl | hr
    · exact ⟨hpos, hle⟩
    · exact h.within r hr

/-- A buffer that goes back to the pool keeps the heap sound. -/
theorem Sound.kept (h : Sound cfg s) {i : Nat} {v : Vec} (hi : s.tasks[i]? = some (.drop v))
    (hok : s.accepts cfg v = true) :
    Sound cfg { s.set i .done with
      bufs := s.bufs ++ [v], bytes := (s.bytes + v.mem.cap) % 2 ^ 64 } := by
  have hfit := h.poolCap_add_lt hi (List.mem_singleton_self v.mem)
  rw [← h.bytes] at hfit
  rw [Nat.mod_eq_of_lt hfit]
  have hbytes : s.bytes + v.mem.cap = ((s.bufs ++ [v]).map fun v => v.mem.cap).sum := by
    rw [List.map_append, List.sum_append, List.map_singleton, List.sum_singleton, h.bytes]
    rfl
  refine h.sub [] ?_ hbytes (fun hno => ?_)
    (Lts.forall_set h.exact (t := .done) trivial i)
  · have hset := mems_set (u := .done) hi (s.bufs ++ [v])
    show ((s.bufs ++ [v]).map Vec.mem ++ (s.tasks.set i .done).flatMap Task.mems).Perm _
    have hmid : ((s.bufs ++ [v]).map Vec.mem ++ s.tasks.flatMap Task.mems).Perm
        (v.mem :: s.mems) := by
      rw [List.map_append, List.map_singleton, List.append_assoc]
      exact List.perm_middle
    exact (hset.trans hmid).cons_inv
  · -- without an arena the pool has looked at its bounds
    have hno' : s.arena = none := hno
    rw [Heap.accepts, hno', Option.isSome_none, Bool.false_or, Bool.and_eq_true,
      decide_eq_true_eq, decide_eq_true_eq, Nat.mod_eq_of_lt hfit] at hok
    exact hok.2

/-- **A step** keeps the heap sound, and gives out a buffer of the length asked for. -/
theorem Sound.step (h : Sound cfg s) {a : Act} (hstep : Step cfg s a s') :
    Sound cfg s' ∧ ∀ len v, a = .given len v → v.Exact len := by
  have hno : ∀ len v, Act.inner = .given len v → v.Exact len := fun _ _ heq => by cases heq
  have hexact : ∀ {i : Nat} {t : Task}, s.tasks[i]? = some t → t.Exact :=
    fun hi => h.exact _ (List.mem_of_getElem? hi)
  cases hstep with
  | request len =>
    refine ⟨⟨?_, ?_, h.bytes, h.bounded, Lts.forall_concat h.exact trivial⟩,
      fun _ _ heq => by cases heq⟩
    · rw [Heap.mems, List.flatMap_append, List.flatMap_singleton]
      exact (List.append_nil _).symm ▸ h.apart
    · rw [Heap.mems, List.flatMap_append, List.flatMap_singleton]
      exact (List.append_nil _).symm ▸ h.within
  | small hi _ => exact ⟨h.move hi (.inl rfl) (fun _ => trivial), hno⟩
  -- only here a buffer leaves the pool for an owner
  | recycled hi hseeks _ hr =>
    obtain ⟨hs, hv⟩ := h.recycled hi hseeks hr
    refine ⟨hs, fun len v heq => ?_⟩
    cases heq
    exact hv
  | missed hi _ _ =>
    split
    · exact ⟨h.move hi (.inl rfl) (fun _ => trivial), hno⟩
    · exact ⟨h.move hi (.inl rfl) (fun _ => trivial), hno⟩
  | waited hi _ _ => exact ⟨h.move hi (.inl rfl) (fun _ => trivial), hno⟩
  | starved hi _ _ => exact ⟨h.move hi (.inl rfl) (fun _ => trivial), fun _ _ heq => by cases heq⟩
  | alloc hi hpos hle hfresh => exact ⟨h.alloc hi hpos hle hfresh, hno⟩
  | @unhooked i len v hi _ =>
    refine ⟨h.move hi (.inl rfl) (fun _ => trivial), fun len' v' heq => ?_⟩
    cases heq
    exact hexact hi
  | hooked hi _ _ => exact ⟨h.move hi (.inl rfl) (fun h => h), hno⟩
  | pinBytes hi => exact ⟨h.move hi (.inl rfl) (fun h => h), hno⟩
  | capped hi _ =>
    refine ⟨h.move hi (.inl rfl) (fun _ => trivial), fun len' v' heq => ?_⟩
    cases heq
    exact hexact hi
  | granted hi _ => exact ⟨h.move hi (.inl rfl) (fun h => h), hno⟩
  | @register i len locked budget v hi =>
    have hs : Sound cfg (s.set i (.pinned len v)) := h.move hi (.inl rfl) fun h => h
    exact ⟨hs.locks .., fun _ _ heq => by cases heq⟩
  | unregistered hi =>
    refine ⟨h.move hi (.inl rfl) (fun _ => trivial), fun len' v' heq => ?_⟩
    cases heq
    exact hexact hi
  | @pinned i len v hi =>
    have hs : Sound cfg (s.set i (.pinCount len v)) := h.move hi (.inl rfl) fun h => h
    exact ⟨hs.locks .., hno⟩
  | @pinCount i len v hi =>
    have hs : Sound cfg (s.set i (.lent v)) := h.move hi (.inl rfl) fun _ => trivial
    refine ⟨hs.locks .., fun len' v' heq => ?_⟩
    cases heq
    exact hexact hi
  | drop hi => exact ⟨h.move hi (.inl rfl) (fun _ => trivial), fun _ _ heq => by cases heq⟩
  | dropSmall hi _ => exact ⟨h.move hi (.inl rfl) (fun _ => trivial), hno⟩
  | kept hi _ hok => exact ⟨h.kept hi hok, hno⟩
  | rejected hi _ _ => exact ⟨h.move hi (.inl rfl) (fun _ => trivial), hno⟩
  | unpinUnhooked hi _ => exact ⟨h.move hi (.inl rfl) (fun _ => trivial), hno⟩
  | unpin hi _ => exact ⟨h.move hi (.inl rfl) (fun _ => trivial), hno⟩
  | @unpinned i v hi _ =>
    have hs : Sound cfg (s.set i (.unregister v)) := h.move hi (.inl rfl) fun _ => trivial
    exact ⟨hs.locks .., hno⟩
  | pageable hi _ => exact ⟨h.move hi (.inl rfl) (fun _ => trivial), hno⟩
  | @unregister i v hi =>
    have hs : Sound cfg (s.set i (.uncount v)) := h.move hi (.inl rfl) fun _ => trivial
    exact ⟨hs.locks .., fun _ _ heq => by cases heq⟩
  | @uncount i v hi =>
    have hs : Sound cfg (s.set i (.free v)) := h.move hi (.inl rfl) fun _ => trivial
    exact ⟨hs.locks .., hno⟩
  | free hi => exact ⟨h.move hi (.inr rfl) (fun _ => trivial), fun _ _ heq => by cases heq⟩
  | setBudget _ => exact ⟨h.locks .., fun _ _ heq => by cases heq⟩
  | hook => exact ⟨h.locks .., hno⟩

theorem step_arena {a : Act} (h : Step cfg s a s') : s'.arena = s.arena := by
  cases h with
  | recycled _ _ _ hr =>
    obtain ⟨old, rest, -, -, -, rfl⟩ := recycle_cases hr
    rfl
  | _ => rfl

/-- **A run** keeps the heap sound, and every buffer that it gives out has the length asked for. -/
theorem sound_of_run {trace : List Act} (h : Lts.Run (Step cfg) Heap.new trace s) :
    Sound cfg s ∧ s.arena = none ∧ ∀ len v, .given len v ∈ trace → v.Exact len := by
  refine h.trace_inv (I := fun trace s => Sound cfg s ∧ s.arena = none ∧
    ∀ len v, .given len v ∈ trace → v.Exact len)
    ⟨Sound.new cfg, rfl, fun _ _ h => absurd h List.not_mem_nil⟩ ?_
  intro trace s a s' hI hstep
  obtain ⟨hs, harena, hgiven⟩ := hI
  obtain ⟨hs', hv⟩ := hs.step hstep
  refine ⟨hs', (step_arena hstep).trans harena, fun len v hmem => ?_⟩
  rcases List.mem_append.mp hmem with hmem | hmem
  · exact hgiven len v hmem
  · exact hv len v (List.mem_singleton.mp hmem).symm

/-- **The pool without an arena**, in every state of every run: the byte counter is the sum
of the capacities it holds, and at least each of them; it is within the bound; the memory
of every owner and of every pooled buffer is apart; and whoever asked has been given the
length it asked for. -/
theorem pool_accounted {trace : List Act} (h : Lts.Run (Step cfg) Heap.new trace s) :
    s.bytes = (s.bufs.map fun v => v.mem.cap).sum ∧ (∀ v ∈ s.bufs, v.mem.cap ≤ s.bytes) ∧
      s.bytes ≤ cfg.poolMaxBytes ∧
      (s.bufs.map Vec.mem ++ s.tasks.flatMap Task.mems).Pairwise Range.Apart ∧
      ∀ len v, .given len v ∈ trace → v.len = len := by
  obtain ⟨hs, harena, hgiven⟩ := sound_of_run h
  refine ⟨hs.bytes, fun v hv => ?_, hs.bounded harena, hs.apart, fun len v hmem =>
    (hgiven len v hmem).1⟩
  rw [hs.bytes]
  exact List.single_le_sum (fun _ _ => Nat.zero_le _) _ (List.mem_map_of_mem hv)

/-- A pool that keeps up to eight buffers of the smallest size. -/
def eightBufs : Config := ⟨2 ^ 64 - 1, 8 * poolMinBytes, none⟩

/-- One buffer is asked for, dropped, and kept. -/
theorem kept_accounted : ∃ trace s, Lts.Run (Step eightBufs) Heap.new trace s ∧
    s.bufs.length = 1 ∧ s.bytes = (s.bufs.map fun v => v.mem.cap).sum ∧
      s.bytes ≤ eightBufs.poolMaxBytes := by
  let v : Vec := Vec.zeroed 4096 poolMinBytes
  have hask : Step eightBufs Heap.new (.request poolMinBytes)
      { Heap.new with tasks := [.request poolMinBytes] } := .request poolMinBytes
  have hmiss : Step eightBufs { Heap.new with tasks := [.request poolMinBytes] } .inner
      { Heap.new with tasks := [.alloc poolMinBytes] } :=
    .missed (i := 0) rfl (Nat.le_refl _) rfl
  have halloc : Step eightBufs { Heap.new with tasks := [.alloc poolMinBytes] } .inner
      { Heap.new with tasks := [.pin poolMinBytes v] } :=
    .alloc (i := 0) rfl (by decide) (by decide) fun _ h => absurd h List.not_mem_nil
  have hgiven : Step eightBufs { Heap.new with tasks := [.pin poolMinBytes v] }
      (.given poolMinBytes v) { Heap.new with tasks := [.lent v] } :=
    .unhooked (i := 0) rfl (.inl rfl)
  have hdrop : Step eightBufs { Heap.new with tasks := [.lent v] } (.drop v)
      { Heap.new with tasks := [.drop v] } := .drop (i := 0) rfl
  have hkept : Step eightBufs { Heap.new with tasks := [.drop v] } .inner
      { Heap.new with tasks := [.done], bufs := [v], bytes := (0 + poolMinBytes) % 2 ^ 64 } :=
    .kept (i := 0) rfl (Nat.le_refl _) (by decide)
  have hrun := (((((Lts.Run.start.next hask).next hmiss).next halloc).next hgiven).next
    hdrop).next hkept
  exact ⟨_, _, hrun, rfl, (pool_accounted hrun).1, (pool_accounted hrun).2.2.1⟩

end Colibri.Pool
