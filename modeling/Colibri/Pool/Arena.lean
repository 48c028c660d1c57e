import Colibri.Pool.Organic

/-!
# The arena

After `arena_init` the pool is meant to be all the memory of expert-sized buffers. Requests
that fit a slot wait for one. A request larger than a slot is allocated, and its return is
accepted like any other: from then on the pool holds more than the arena
(`oversize_kept`). While no such buffer is dropped, the footprint is the arena and what is
lent beyond it (`arena_footprint`).

`InArena` is the invariant: the pool's buffers are slots, and with those that are lent they are the
arena. `Measured` is the condition on a step: no buffer larger than a slot is dropped, and no
request gives up waiting. With it `InArena.step` is the step.
-/

namespace Colibri.Pool

variable {cfg : Config} {slotBytes slots : Nat} {s s' : Heap}

/-- A buffer that the pool would take. -/
def expertSized (r : Range) : Bool := poolMinBytes ≤ r.cap

/-- One that no slot could be. -/
def oversize (slotBytes : Nat) (r : Range) : Bool := poolMinBytes ≤ r.cap && slotBytes < r.cap

/-- The memory of the buffers that are out. -/
def Heap.owned (s : Heap) : List Range := s.tasks.flatMap Task.mems

/-- What is pooled and lent exceeds the arena by no more than what is lent beyond a slot;
with nothing lent, exactly the arena remains. -/
structure Footprint (slotBytes slots : Nat) (s : Heap) : Prop where
  bounded : s.poolCap + ((s.owned.filter expertSized).map Range.cap).sum ≤
    slots * slotBytes + ((s.owned.filter (oversize slotBytes)).map Range.cap).sum
  returned : s.owned.filter expertSized = [] →
    s.bufs.map (fun v => v.mem.cap) = List.replicate slots slotBytes

/-- No request gives up waiting, and no buffer larger than a slot is dropped. -/
def Measured (slotBytes : Nat) : Act → Prop
  | .starve _ => False
  | .drop v => v.mem.cap ≤ slotBytes
  | _ => True

/-- Nothing pooled yet, no call in progress, and nothing lent that a slot could hold. -/
def Ready (slotBytes : Nat) (s : Heap) : Prop :=
  s.bufs = [] ∧ ∀ t ∈ s.tasks, t = .done ∨
    ∃ v, t = .lent v ∧ (v.mem.cap < poolMinBytes ∨ slotBytes < v.mem.cap)

/-! ## The invariant -/

/-- The bytes of a range that a slot could be. -/
def slotted (slotBytes : Nat) (r : Range) : Nat :=
  if poolMinBytes ≤ r.cap ∧ r.cap ≤ slotBytes then r.cap else 0

def Task.slotted (slotBytes : Nat) (t : Task) : Nat := (t.mems.map (Pool.slotted slotBytes)).sum

/-- Of the sizes a slot could hold, only a slot itself is lent. -/
def SlotLike (slotBytes : Nat) (v : Vec) : Prop :=
  poolMinBytes ≤ v.mem.cap → v.mem.cap ≤ slotBytes → v.mem.cap = slotBytes

/-- What is allocated is no slot's size, what is dropped no larger than a slot, and only
small buffers are freed. -/
def Task.Fits (slotBytes : Nat) : Task → Prop
  | .alloc len => poolMinBytes ≤ len → slotBytes < len
  | .pin _ v => SlotLike slotBytes v
  | .pinBytes _ v => SlotLike slotBytes v
  | .pinMax _ v _ => SlotLike slotBytes v
  | .register _ v _ _ => SlotLike slotBytes v
  | .pinned _ v => SlotLike slotBytes v
  | .pinCount _ v => SlotLike slotBytes v
  | .lent v => SlotLike slotBytes v
  | .drop v => SlotLike slotBytes v ∧ v.mem.cap ≤ slotBytes
  | .unpin v => v.mem.cap < poolMinBytes
  | .unpinned v => v.mem.cap < poolMinBytes
  | .unregister v => v.mem.cap < poolMinBytes
  | .uncount v => v.mem.cap < poolMinBytes
  | .free v => v.mem.cap < poolMinBytes
  | _ => True

/-- The slots are in the pool, or lent. -/
structure InArena (slotBytes slots : Nat) (s : Heap) : Prop where
  arena : s.arena = some ⟨slotBytes, slots⟩
  pool : ∀ v ∈ s.bufs, v.mem.cap = slotBytes
  sum : s.poolCap + (s.tasks.map (Task.slotted slotBytes)).sum = slots * slotBytes
  fits : ∀ t ∈ s.tasks, t.Fits slotBytes

theorem slotted_eq_zero {r : Range} (h : poolMinBytes ≤ r.cap → slotBytes < r.cap) :
    slotted slotBytes r = 0 := by
  rw [slotted, if_neg]
  intro hr
  exact absurd hr.2 (Nat.not_le.mpr (h hr.1))

theorem slotted_lent (slotBytes : Nat) (v : Vec) :
    Task.slotted slotBytes (.lent v) = slotted slotBytes v.mem := List.sum_singleton

theorem InArena.fits_of (h : InArena slotBytes slots s) {i : Nat} {t : Task}
    (hi : s.tasks[i]? = some t) : t.Fits slotBytes :=
  h.fits t (List.mem_of_getElem? hi)

/-- One task goes on, with as much of a slot as it had. -/
theorem InArena.move (h : InArena slotBytes slots s) {i : Nat} {t u : Task}
    (hi : s.tasks[i]? = some t) (hslot : u.slotted slotBytes = t.slotted slotBytes)
    (hfits : t.Fits slotBytes → u.Fits slotBytes) : InArena slotBytes slots (s.set i u) := by
  refine ⟨h.arena, h.pool, ?_, Lts.forall_set h.fits (hfits (h.fits_of hi)) i⟩
  have hset := Lts.sum_set (f := Task.slotted slotBytes) (u := u) hi
  have hsum := h.sum
  show s.poolCap + ((s.tasks.set i u).map (Task.slotted slotBytes)).sum = _
  omega

theorem InArena.locks (h : InArena slotBytes slots s) (hooked : Bool) (pinned : Finset Nat)
    (pinBytes pinBudget : Nat) (locks : List Range) :
    InArena slotBytes slots { s with hooked, pinned, pinBytes, pinBudget, locks } :=
  ⟨h.arena, h.pool, h.sum, h.fits⟩

/-- A request gets a slot from the pool. -/
theorem InArena.recycled (h : InArena slotBytes slots s) {i len : Nat} {t : Task} {v : Vec}
    (hi : s.tasks[i]? = some t) (hseeks : t.seeks = some len) (hlen : poolMinBytes ≤ len)
    (hr : s.recycle len = some (s', v)) : InArena slotBytes slots (s'.set i (.lent v)) := by
  obtain ⟨old, rest, hperm, hle, rfl, rfl⟩ := recycle_cases hr
  have hold : old.mem.cap = slotBytes := h.pool old (hperm.subset (List.mem_cons_self ..))
  have hlike : SlotLike slotBytes ⟨old.mem, len⟩ := fun _ _ => hold
  refine ⟨h.arena, fun w hw => h.pool w (hperm.subset (List.mem_cons_of_mem _ hw)), ?_,
    Lts.forall_set h.fits (t := .lent _) hlike i⟩
  have hpool : s.poolCap = old.mem.cap + (rest.map fun v => v.mem.cap).sum :=
    (hperm.map _).sum_eq.symm
  have hset := Lts.sum_set (f := Task.slotted slotBytes) (u := .lent ⟨old.mem, len⟩) hi
  have hnone : t.slotted slotBytes = 0 := by rw [Task.slotted, seeks_mems hseeks]; rfl
  have hslot : Task.slotted slotBytes (.lent ⟨old.mem, len⟩) = slotBytes := by
    rw [slotted_lent, slotted]
    show (if poolMinBytes ≤ old.mem.cap ∧ _ then old.mem.cap else 0) = _
    rw [if_pos ⟨Nat.le_trans hlen hle, Nat.le_of_eq hold⟩, hold]
  have hsum := h.sum
  show (rest.map fun v => v.mem.cap).sum +
    ((s.tasks.set i (.lent ⟨old.mem, len⟩)).map (Task.slotted slotBytes)).sum = _
  omega

/-- A slot comes back. -/
theorem InArena.kept (h : InArena slotBytes slots s) {i : Nat} {v : Vec}
    (hi : s.tasks[i]? = some (.drop v)) (hcap : poolMinBytes ≤ v.mem.cap) (bytes : Nat) :
    InArena slotBytes slots { s.set i .done with bufs := s.bufs ++ [v], bytes } := by
  obtain ⟨hlike, hle⟩ := h.fits_of hi
  have hv := hlike hcap hle
  refine ⟨h.arena, fun w hw => ?_, ?_, Lts.forall_set h.fits (t := .done) trivial i⟩
  · rcases List.mem_append.mp hw with hw | hw
    · exact h.pool w hw
    · rw [List.mem_singleton.mp hw]
      exact hv
  · have hset := Lts.sum_set (f := Task.slotted slotBytes) (u := .done) hi
    have hdone : Task.slotted slotBytes .done = 0 := rfl
    have hdrop : Task.slotted slotBytes (.drop v) = slotBytes := by
      show Task.slotted slotBytes (.lent v) = _
      rw [slotted_lent, slotted, if_pos ⟨hcap, hle⟩, hv]
    have hsum := h.sum
    have hpool : ((s.bufs ++ [v]).map fun v => v.mem.cap).sum = s.poolCap + v.mem.cap := by
      rw [List.map_append, List.sum_append, List.map_singleton, List.sum_singleton]
      rfl
    show ((s.bufs ++ [v]).map fun v => v.mem.cap).sum +
      ((s.tasks.set i .done).map (Task.slotted slotBytes)).sum = _
    omega

/-- **A step** keeps the invariant, if it meets the condition. -/
theorem InArena.step (h : InArena slotBytes slots s) {a : Act} (hstep : Step cfg s a s')
    (hm : Measured slotBytes a) : InArena slotBytes slots s' := by
  cases hstep with
  | request len =>
    refine ⟨h.arena, h.pool, ?_, Lts.forall_concat h.fits (t := .request len) trivial⟩
    show s.poolCap + ((s.tasks ++ [Task.request len]).map (Task.slotted slotBytes)).sum = _
    rw [Lts.sum_concat]
    exact h.sum
  | small hi hlen => exact h.move hi rfl fun _ hge => absurd hlen (Nat.not_lt.mpr hge)
  | recycled hi hseeks hlen hr => exact h.recycled hi hseeks hlen hr
  | @missed i len hi _ _ =>
    split
    · exact h.move hi rfl fun _ => trivial
    next hno =>
      refine h.move hi rfl fun _ _ => ?_
      rw [Heap.arenaSlot, h.arena, decide_eq_true_eq] at hno
      exact Nat.not_le.mp hno
  | waited hi _ _ => exact h.move hi rfl fun _ => trivial
  | starved _ _ _ => exact absurd hm id
  | @alloc i len addr hi _ _ _ =>
    have hlarge : poolMinBytes ≤ len → slotBytes < len := h.fits_of hi
    have hzero : slotted slotBytes ⟨addr, len⟩ = 0 := slotted_eq_zero hlarge
    refine h.move hi ?_ fun _ hge hle => absurd hle (Nat.not_le.mpr (hlarge hge))
    show Task.slotted slotBytes (.lent (Vec.zeroed addr len)) = 0
    rw [slotted_lent]
    exact hzero
  | unhooked hi _ => exact h.move hi rfl fun h => h
  | hooked hi _ _ => exact h.move hi rfl fun h => h
  | pinBytes hi => exact h.move hi rfl fun h => h
  | capped hi _ => exact h.move hi rfl fun h => h
  | granted hi _ => exact h.move hi rfl fun h => h
  | @register i len locked budget v hi =>
    have hs : InArena slotBytes slots (s.set i (.pinned len v)) := h.move hi rfl fun h => h
    exact hs.locks ..
  | unregistered hi => exact h.move hi rfl fun h => h
  | @pinned i len v hi =>
    have hs : InArena slotBytes slots (s.set i (.pinCount len v)) := h.move hi rfl fun h => h
    exact hs.locks ..
  | @pinCount i len v hi =>
    have hs : InArena slotBytes slots (s.set i (.lent v)) := h.move hi rfl fun h => h
    exact hs.locks ..
  | @drop i v hi =>
    have hlike : SlotLike slotBytes v := h.fits_of hi
    exact h.move hi rfl fun _ => ⟨hlike, hm⟩
  | dropSmall hi hsmall => exact h.move hi rfl fun _ => hsmall
  | kept hi hcap _ => exact h.kept hi hcap _
  | rejected hi _ hno =>
    -- in arena mode a return is always accepted
    rw [Heap.accepts, h.arena, Option.isSome_some, Bool.true_or] at hno
    cases hno
  | unpinUnhooked hi _ => exact h.move hi rfl fun h => h
  | unpin hi _ => exact h.move hi rfl fun h => h
  | @unpinned i v hi _ =>
    have hs : InArena slotBytes slots (s.set i (.unregister v)) := h.move hi rfl fun h => h
    exact hs.locks ..
  | pageable hi _ => exact h.move hi rfl fun h => h
  | @unregister i v hi =>
    have hs : InArena slotBytes slots (s.set i (.uncount v)) := h.move hi rfl fun h => h
    exact hs.locks ..
  | @uncount i v hi =>
    have hs : InArena slotBytes slots (s.set i (.free v)) := h.move hi rfl fun h => h
    exact hs.locks ..
  | @free i v hi =>
    have hsmall : v.mem.cap < poolMinBytes := h.fits_of hi
    have hzero : slotted slotBytes v.mem = 0 :=
      slotted_eq_zero fun hge => absurd hsmall (Nat.not_lt.mpr hge)
    refine h.move hi ?_ fun _ => trivial
    show 0 = Task.slotted slotBytes (.lent v)
    rw [slotted_lent, hzero]
  | setBudget _ => exact h.locks ..
  | hook => exact h.locks ..

/-! ## The footprint -/

/-- What is lent is slots, and what is beyond them. -/
theorem sum_expertSized (slotBytes : Nat) (l : List Range) :
    ((l.filter expertSized).map Range.cap).sum =
      (l.map (slotted slotBytes)).sum + ((l.filter (oversize slotBytes)).map Range.cap).sum := by
  induction l with
  | nil => rfl
  | cons r l ih =>
    rw [List.map_cons, List.sum_cons, List.filter_cons, List.filter_cons, slotted, expertSized,
      oversize]
    by_cases hge : poolMinBytes ≤ r.cap
    · by_cases hle : r.cap ≤ slotBytes
      · simp [hge, hle, Nat.not_lt.mpr hle, ih, Nat.add_assoc]
      · simp [hge, hle, Nat.not_le.mp hle, ih, Nat.add_left_comm]
    · simp [hge, ih]

theorem InArena.footprint (h : InArena slotBytes slots s) (hslot : 0 < slotBytes) :
    Footprint slotBytes slots s := by
  have hsum : (s.tasks.map (Task.slotted slotBytes)).sum =
      (s.owned.map (slotted slotBytes)).sum := by
    rw [Heap.owned, List.map_flatMap, List.flatMap_def, List.sum_flatten, List.map_map]
    rfl
  have hexpert := sum_expertSized slotBytes s.owned
  have htotal := h.sum
  refine ⟨by omega, fun hnone => ?_⟩
  rw [hnone, List.map_nil, List.sum_nil] at hexpert
  have hpool : s.poolCap = slots * slotBytes := by omega
  have hall : s.bufs.map (fun v => v.mem.cap) = List.replicate s.bufs.length slotBytes := by
    rw [List.eq_replicate_iff, List.length_map]
    refine ⟨rfl, fun c hc => ?_⟩
    obtain ⟨v, hv, rfl⟩ := List.mem_map.mp hc
    exact h.pool v hv
  rw [Heap.poolCap, hall, List.sum_replicate_nat] at hpool
  rw [hall, Nat.eq_of_mul_eq_mul_right hslot hpool]

/-- After `arena_init` the invariant holds. -/
theorem InArena.init {addrs : List Nat} (hslot : 0 < slotBytes) (haddrs : addrs ≠ [])
    (h : Ready slotBytes s) : InArena slotBytes addrs.length (s.arenaInit slotBytes addrs) := by
  obtain ⟨hbufs, htasks⟩ := h
  have hnot : ¬ (slotBytes = 0 ∨ addrs = []) := fun h => h.elim (Nat.ne_of_gt hslot) haddrs
  rw [Heap.arenaInit, if_neg hnot]
  refine ⟨rfl, fun v hv => ?_, ?_, fun t ht => ?_⟩
  · rcases List.mem_append.mp hv with hv | hv
    · rw [hbufs] at hv
      cases hv
    · obtain ⟨a, -, rfl⟩ := List.mem_map.mp hv
      rfl
  · have hzero : (s.tasks.map (Task.slotted slotBytes)).sum = 0 := by
      apply List.sum_eq_zero
      intro n hn
      obtain ⟨t, ht, rfl⟩ := List.mem_map.mp hn
      rcases htasks t ht with rfl | ⟨v, rfl, hv⟩
      · rfl
      · rw [slotted_lent, slotted_eq_zero fun hge => hv.resolve_left (Nat.not_lt.mpr hge)]
    have hcap : ((s.bufs ++ addrs.map fun a => Vec.zeroed a slotBytes).map
        fun v => v.mem.cap).sum = addrs.length * slotBytes := by
      rw [hbufs, List.nil_append, List.map_map]
      show (addrs.map fun _ => slotBytes).sum = _
      rw [List.map_const', List.sum_replicate_nat]
    show ((s.bufs ++ addrs.map fun a => Vec.zeroed a slotBytes).map fun v => v.mem.cap).sum +
      (s.tasks.map (Task.slotted slotBytes)).sum = _
    rw [hcap, hzero, Nat.add_zero]
  · rcases htasks t ht with rfl | ⟨v, rfl, hv⟩
    · trivial
    · intro hge hle
      rcases hv with hv | hv
      · exact absurd hge (Nat.not_le.mpr hv)
      · exact absurd hle (Nat.not_le.mpr hv)

/-- **When the footprint is the arena**: in every run after `arena_init` in which no buffer
larger than a slot is dropped and no request gives up. -/
theorem arena_footprint {addrs : List Nat} {init : Heap} (hslot : 0 < slotBytes)
    (haddrs : addrs ≠ []) (hready : Ready slotBytes init) {trace : List Act}
    (h : Lts.Run (fun s a s' => Step cfg s a s' ∧ Measured slotBytes a)
      (init.arenaInit slotBytes addrs) trace s) : Footprint slotBytes addrs.length s := by
  have hin : InArena slotBytes addrs.length s :=
    h.inv (I := InArena slotBytes addrs.length) (InArena.init hslot haddrs hready)
      fun _ _ _ hs hst => hs.step hst.1 hst.2
  exact hin.footprint hslot

/-! ## Larger than a slot -/

theorem ready_new (slotBytes : Nat) : Ready slotBytes Heap.new :=
  ⟨rfl, fun _ h => absurd h List.not_mem_nil⟩

/-- No bounds, and no page-locks. -/
def unbounded : Config := ⟨2 ^ 64 - 1, 2 ^ 64 - 1, none⟩

/-- An arena of one slot, of the smallest size. -/
def oneSlot : Heap := Heap.new.arenaInit poolMinBytes [4096]

/-- Twice a slot, at the next megabyte. -/
def double : Vec := Vec.zeroed (2 * poolMinBytes) (2 * poolMinBytes)

/-- A request for two slots' worth is allocated. -/
theorem double_lent : ∃ trace, (∀ len, .starve len ∉ trace) ∧
    Lts.Run (fun s a s' => Step unbounded s a s' ∧ Measured poolMinBytes a) oneSlot trace
      { oneSlot with tasks := [.lent double] } := by
  let len := 2 * poolMinBytes
  have hask : Step unbounded oneSlot (.request len) { oneSlot with tasks := [.request len] } :=
    .request len
  have hmiss : Step unbounded { oneSlot with tasks := [.request len] } .inner
      { oneSlot with tasks := [.alloc len] } :=
    .missed (i := 0) rfl (show poolMinBytes ≤ 2 * poolMinBytes by decide) rfl
  have halloc : Step unbounded { oneSlot with tasks := [.alloc len] } .inner
      { oneSlot with tasks := [.pin len double] } := by
    refine .alloc (i := 0) rfl (by decide) (by decide) fun r hr => ?_
    rw [List.mem_singleton.mp (show r ∈ [⟨4096, poolMinBytes⟩] from hr)]
    refine Finset.disjoint_left.mpr fun a ha ha' => ?_
    obtain ⟨hlow, -⟩ : 2 * poolMinBytes ≤ a ∧ _ := Finset.mem_Ico.mp ha
    obtain ⟨-, hhigh⟩ : _ ∧ a < 4096 + poolMinBytes := Finset.mem_Ico.mp ha'
    have hmin : poolMinBytes = 1048576 := by decide
    omega
  have hgiven : Step unbounded { oneSlot with tasks := [.pin len double] } (.given len double)
      { oneSlot with tasks := [.lent double] } := .unhooked (i := 0) rfl (.inl rfl)
  refine ⟨_, ?_, (((Lts.Run.start.next ⟨hask, trivial⟩).next ⟨hmiss, trivial⟩).next
    ⟨halloc, trivial⟩).next ⟨hgiven, trivial⟩⟩
  intro n hn
  simp only [List.nil_append, List.cons_append, List.mem_cons, List.not_mem_nil, or_false] at hn
  rcases hn with h | h | h | h <;> cases h

/-- While it is out, the footprint is the arena and the buffer. -/
theorem double_footprint : Footprint poolMinBytes 1 { oneSlot with tasks := [.lent double] } := by
  obtain ⟨trace, -, hrun⟩ := double_lent
  exact arena_footprint (by decide) (List.cons_ne_nil _ _) (ready_new poolMinBytes) hrun

/-- When it is dropped the pool keeps it, and holds three slots' worth with nothing lent. -/
theorem oversize_kept : ∃ trace s, Lts.Run (Step unbounded) oneSlot trace s ∧
    (∀ len, .starve len ∉ trace) ∧ ¬ Footprint poolMinBytes 1 s := by
  obtain ⟨trace, hno, hrun⟩ := double_lent
  have hdrop : Step unbounded { oneSlot with tasks := [.lent double] } (.drop double)
      { oneSlot with tasks := [.drop double] } := .drop (i := 0) rfl
  have hkept : Step unbounded { oneSlot with tasks := [.drop double] } .inner
      { oneSlot with
        tasks := [.done]
        bufs := oneSlot.bufs ++ [double]
        bytes := (oneSlot.bytes + double.mem.cap) % 2 ^ 64 } :=
    .kept (i := 0) rfl (by decide) (by decide)
  refine ⟨_, _, ((hrun.mono fun _ _ _ hst => hst.1).next hdrop).next hkept, ?_, fun hf => ?_⟩
  · intro n hn
    simp only [List.append_assoc, List.cons_append, List.nil_append, List.mem_append,
      List.mem_cons, List.not_mem_nil, or_false] at hn
    rcases hn with h | h | h
    · exact hno n h
    · cases h
    · cases h
  · have hlen := congrArg List.length (hf.returned rfl)
    rw [List.length_replicate] at hlen
    exact absurd (show 2 = 1 from hlen) (by decide)

end Colibri.Pool
