import Colibri.Lib.Ranges
import Colibri.Lib.Runs

/-!
# The buffer pool

`SharedBuf::with_len` takes a buffer from the pool under its lock, or allocates one and
asks for a page-lock; dropping a buffer returns it to the pool, or releases the page-lock
and frees it. A `SharedBuf` is a task from the request to the end of its drop. A step is
one critical section, one atomic access, one call of a hook, or one call of the allocator,
which gives memory apart from all that is live.

A buffer that is a view owns nothing and is left out; so are the profiling counters.

`Config` are the limits of the pool and the hooks, `Heap` the state, and `Step` the step relation
with `Act` for its labels. `Heap.mems` is all memory that is live: the pool's, and that of each
task. The other modules of the pool are about this one relation.
-/

namespace Colibri.Pool

/-- A `Vec<u8>`: its allocation and its length. -/
structure Vec where
  mem : Range
  len : Nat

def Vec.truncate (v : Vec) (n : Nat) : Vec := { v with len := min v.len n }

/-- `resize`, within the capacity. -/
def Vec.resize (v : Vec) (n : Nat) : Vec := { v with len := n }

/-- `vec![0u8; len]`, where the allocator puts it. -/
def Vec.zeroed (addr len : Nat) : Vec := ⟨⟨addr, len⟩, len⟩

def poolMinBytes : Nat := 1 <<< 20

/-- The bounds that the environment sets: `pool_max`, `pool_max_bytes` and
`COLI_PIN_MAX_MB`. -/
structure Config where
  poolMax : Nat
  poolMaxBytes : Nat
  pinMax : Option Nat

structure ArenaCfg where
  slotBytes : Nat
  slots : Nat

/-- A `SharedBuf`, from one access to the next. -/
inductive Task where
  /-- `with_len` -/
  | request (len : Nat)
  /-- in the loop that waits for a slot -/
  | wait (len spins : Nat)
  | alloc (len : Nat)
  /-- `pin_alloc` -/
  | pin (len : Nat) (v : Vec)
  /-- before the load of `PIN_BYTES` -/
  | pinBytes (len : Nat) (v : Vec)
  /-- before the load of the budget -/
  | pinMax (len : Nat) (v : Vec) (locked : Nat)
  /-- before the hook; what was read -/
  | register (len : Nat) (v : Vec) (locked budget : Nat)
  /-- before `PINNED` -/
  | pinned (len : Nat) (v : Vec)
  /-- before the add to `PIN_BYTES` -/
  | pinCount (len : Nat) (v : Vec)
  | lent (v : Vec)
  | drop (v : Vec)
  /-- rejected by the pool: `unpin_alloc` -/
  | unpin (v : Vec)
  /-- before `PINNED` -/
  | unpinned (v : Vec)
  /-- before the hook -/
  | unregister (v : Vec)
  /-- before the subtraction from `PIN_BYTES` -/
  | uncount (v : Vec)
  | free (v : Vec)
  | done

/-- The pool, the page-locks as the process counts them and as the driver has them, and
the buffers. -/
structure Heap where
  bufs : List Vec
  bytes : Nat
  arena : Option ArenaCfg
  /-- `HOST_PIN` is set -/
  hooked : Bool
  /-- `PINNED` -/
  pinned : Finset Nat
  pinBytes : Nat
  pinBudget : Nat
  /-- what the hook has registered -/
  locks : List Range
  tasks : List Task

def Heap.new : Heap := ⟨[], 0, none, false, ∅, 0, 0, [], []⟩

inductive Act where
  | request (len : Nat)
  /-- `with_len` returns -/
  | given (len : Nat) (v : Vec)
  /-- no slot came back in time -/
  | starve (len : Nat)
  | drop (v : Vec)
  | register (r : Range) (locked budget : Nat)
  | unregister (r : Range)
  | free (r : Range)
  | setBudget (bytes : Nat)
  /-- any other access -/
  | inner

/-- The memory that a task owns. -/
def Task.mems : Task → List Range
  | .pin _ v => [v.mem]
  | .pinBytes _ v => [v.mem]
  | .pinMax _ v _ => [v.mem]
  | .register _ v _ _ => [v.mem]
  | .pinned _ v => [v.mem]
  | .pinCount _ v => [v.mem]
  | .lent v => [v.mem]
  | .drop v => [v.mem]
  | .unpin v => [v.mem]
  | .unpinned v => [v.mem]
  | .unregister v => [v.mem]
  | .uncount v => [v.mem]
  | .free v => [v.mem]
  | _ => []

namespace Heap

variable (cfg : Config) (s : Heap)

/-- All live memory: the pool's, and each owner's. -/
def mems : List Range := s.bufs.map Vec.mem ++ s.tasks.flatMap Task.mems

def set (i : Nat) (t : Task) : Heap := { s with tasks := s.tasks.set i t }

/-- The first buffer of the pool that is large enough, recycled. -/
def recycle (len : Nat) : Option (Heap × Vec) :=
  match s.bufs.findIdx? fun v => len ≤ v.mem.cap with
  | none => none
  | some i =>
    match s.bufs[i]? with
    | none => none
    | some v =>
      some ({ s with bufs := swapRemove s.bufs i, bytes := s.bytes - v.mem.cap },
        (v.truncate len).resize len)

/-- Whether a request that misses the pool waits for a slot. -/
def arenaSlot (len : Nat) : Bool :=
  match s.arena with
  | none => false
  | some a => len ≤ a.slotBytes

/-- Whether the pool takes a buffer back. -/
def accepts (v : Vec) : Bool :=
  s.arena.isSome ||
    (s.bufs.length < cfg.poolMax && (s.bytes + v.mem.cap) % 2 ^ 64 ≤ cfg.poolMaxBytes)

def pinMaxBytes : Nat := cfg.pinMax.getD s.pinBudget

/-- `arena_init`, with the addresses of the slots; their page-locks are left out. -/
def arenaInit (slotBytes : Nat) (addrs : List Nat) : Heap :=
  if slotBytes = 0 ∨ addrs = [] then s
  else
    { s with
      bufs := s.bufs ++ addrs.map fun a => Vec.zeroed a slotBytes
      bytes := s.bytes + addrs.length * slotBytes
      arena := some ⟨slotBytes, addrs.length⟩ }

end Heap

/-- The length that a task looks for in the pool. -/
def Task.seeks : Task → Option Nat
  | .request len => some len
  | .wait len _ => some len
  | _ => none

variable (cfg : Config)

inductive Step (s : Heap) : Act → Heap → Prop where
  | request (len : Nat) : Step s (.request len) { s with tasks := s.tasks ++ [.request len] }
  | small {i len : Nat} : s.tasks[i]? = some (.request len) → len < poolMinBytes →
    Step s .inner (s.set i (.alloc len))
  | recycled {i len : Nat} {t : Task} {s' : Heap} {v : Vec} : s.tasks[i]? = some t →
    t.seeks = some len → poolMinBytes ≤ len → s.recycle len = some (s', v) →
    Step s (.given len v) (s'.set i (.lent v))
  | missed {i len : Nat} : s.tasks[i]? = some (.request len) → poolMinBytes ≤ len →
    s.recycle len = none →
    Step s .inner (s.set i (if s.arenaSlot len then .wait len 0 else .alloc len))
  | waited {i len spins : Nat} : s.tasks[i]? = some (.wait len spins) →
    s.recycle len = none → spins < 10000 →
    Step s .inner (s.set i (.wait len (spins + 1)))
  | starved {i len spins : Nat} : s.tasks[i]? = some (.wait len spins) →
    s.recycle len = none → 10000 ≤ spins →
    Step s (.starve len) (s.set i (.alloc len))
  | alloc {i len addr : Nat} : s.tasks[i]? = some (.alloc len) → 0 < addr →
    addr + len ≤ 2 ^ 64 → (∀ r ∈ s.mems, Range.Apart ⟨addr, len⟩ r) →
    Step s .inner (s.set i (.pin len (Vec.zeroed addr len)))
  /-- no device, or a buffer that is never pooled -/
  | unhooked {i len : Nat} {v : Vec} : s.tasks[i]? = some (.pin len v) →
    s.hooked = false ∨ v.mem.cap < poolMinBytes → Step s (.given len v) (s.set i (.lent v))
  | hooked {i len : Nat} {v : Vec} : s.tasks[i]? = some (.pin len v) → s.hooked = true →
    poolMinBytes ≤ v.mem.cap → Step s .inner (s.set i (.pinBytes len v))
  | pinBytes {i len : Nat} {v : Vec} : s.tasks[i]? = some (.pinBytes len v) →
    Step s .inner (s.set i (.pinMax len v s.pinBytes))
  | capped {i len locked : Nat} {v : Vec} : s.tasks[i]? = some (.pinMax len v locked) →
    s.pinMaxBytes cfg < (locked + v.mem.cap) % 2 ^ 64 → Step s (.given len v) (s.set i (.lent v))
  | granted {i len locked : Nat} {v : Vec} : s.tasks[i]? = some (.pinMax len v locked) →
    (locked + v.mem.cap) % 2 ^ 64 ≤ s.pinMaxBytes cfg →
    Step s .inner (s.set i (.register len v locked (s.pinMaxBytes cfg)))
  | register {i len locked budget : Nat} {v : Vec} :
    s.tasks[i]? = some (.register len v locked budget) →
    Step s (.register v.mem locked budget)
      { s.set i (.pinned len v) with locks := v.mem :: s.locks }
  /-- the hook fails -/
  | unregistered {i len locked budget : Nat} {v : Vec} :
    s.tasks[i]? = some (.register len v locked budget) →
    Step s (.given len v) (s.set i (.lent v))
  | pinned {i len : Nat} {v : Vec} : s.tasks[i]? = some (.pinned len v) →
    Step s .inner { s.set i (.pinCount len v) with pinned := insert v.mem.addr s.pinned }
  | pinCount {i len : Nat} {v : Vec} : s.tasks[i]? = some (.pinCount len v) →
    Step s (.given len v)
      { s.set i (.lent v) with pinBytes := (s.pinBytes + v.mem.cap) % 2 ^ 64 }
  | drop {i : Nat} {v : Vec} : s.tasks[i]? = some (.lent v) →
    Step s (.drop v) (s.set i (.drop v))
  | dropSmall {i : Nat} {v : Vec} : s.tasks[i]? = some (.drop v) → v.mem.cap < poolMinBytes →
    Step s .inner (s.set i (.free v))
  | kept {i : Nat} {v : Vec} : s.tasks[i]? = some (.drop v) → poolMinBytes ≤ v.mem.cap →
    s.accepts cfg v = true →
    Step s .inner
      { s.set i .done with bufs := s.bufs ++ [v], bytes := (s.bytes + v.mem.cap) % 2 ^ 64 }
  | rejected {i : Nat} {v : Vec} : s.tasks[i]? = some (.drop v) → poolMinBytes ≤ v.mem.cap →
    s.accepts cfg v = false → Step s .inner (s.set i (.unpin v))
  | unpinUnhooked {i : Nat} {v : Vec} : s.tasks[i]? = some (.unpin v) → s.hooked = false →
    Step s .inner (s.set i (.free v))
  | unpin {i : Nat} {v : Vec} : s.tasks[i]? = some (.unpin v) → s.hooked = true →
    Step s .inner (s.set i (.unpinned v))
  | unpinned {i : Nat} {v : Vec} : s.tasks[i]? = some (.unpinned v) → v.mem.addr ∈ s.pinned →
    Step s .inner { s.set i (.unregister v) with pinned := s.pinned.erase v.mem.addr }
  | pageable {i : Nat} {v : Vec} : s.tasks[i]? = some (.unpinned v) → v.mem.addr ∉ s.pinned →
    Step s .inner (s.set i (.free v))
  | unregister {i : Nat} {v : Vec} : s.tasks[i]? = some (.unregister v) →
    Step s (.unregister v.mem) { s.set i (.uncount v) with locks := s.locks.erase v.mem }
  | uncount {i : Nat} {v : Vec} : s.tasks[i]? = some (.uncount v) →
    Step s .inner
      { s.set i (.free v) with
        pinBytes := (s.pinBytes + (2 ^ 64 - v.mem.cap % 2 ^ 64)) % 2 ^ 64 }
  | free {i : Nat} {v : Vec} : s.tasks[i]? = some (.free v) →
    Step s (.free v.mem) (s.set i .done)
  | setBudget (bytes : Nat) : Step s (.setBudget bytes) { s with pinBudget := bytes }
  /-- `set_host_pin_hooks` -/
  | hook : Step s .inner { s with hooked := true }

section

variable {s s' : Heap}

/-- A buffer from the pool is large enough, and has the length asked for. -/
theorem recycle_cases {len : Nat} {v : Vec} (h : s.recycle len = some (s', v)) :
    ∃ old rest, (old :: rest).Perm s.bufs ∧ len ≤ old.mem.cap ∧ v = ⟨old.mem, len⟩ ∧
      s' = { s with bufs := rest, bytes := s.bytes - old.mem.cap } := by
  rw [Heap.recycle] at h
  split at h
  next => cases h
  next i hi =>
    split at h
    next => cases h
    next old hold =>
      cases h
      obtain ⟨hlt, hfits, -⟩ := List.findIdx?_eq_some_iff_getElem.mp hi
      obtain ⟨_, hget⟩ := List.getElem?_eq_some_iff.mp hold
      rw [hget] at hfits
      exact ⟨old, swapRemove s.bufs i, swapRemove_perm hold, of_decide_eq_true hfits, rfl, rfl⟩

/-- The live memory when one task goes on. -/
theorem mems_set {i : Nat} {t u : Task} (hi : s.tasks[i]? = some t) (bufs : List Vec) :
    (t.mems ++ (bufs.map Vec.mem ++ (s.tasks.set i u).flatMap Task.mems)).Perm
      (u.mems ++ (bufs.map Vec.mem ++ s.tasks.flatMap Task.mems)) := by
  have hset := Lts.flatMap_set_perm (f := Task.mems) (u := u) hi
  calc (t.mems ++ (bufs.map Vec.mem ++ (s.tasks.set i u).flatMap Task.mems)).Perm
        (bufs.map Vec.mem ++ (t.mems ++ (s.tasks.set i u).flatMap Task.mems)) :=
        List.perm_append_comm_assoc ..
    _ |>.Perm (bufs.map Vec.mem ++ (u.mems ++ s.tasks.flatMap Task.mems)) :=
        hset.append_left _
    _ |>.Perm (u.mems ++ (bufs.map Vec.mem ++ s.tasks.flatMap Task.mems)) :=
        List.perm_append_comm_assoc ..

end

end Colibri.Pool
