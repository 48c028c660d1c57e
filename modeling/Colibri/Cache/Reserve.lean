import Mathlib.Algebra.BigOperators.Group.List.Basic
import Colibri.Lib.Runs

/-!
# Reserving memory beside the experts

`reserve_ram` counts the bytes of a request by one atomic add; `release_ram` takes them
off by a load and a store. What another call does to the counter in between is lost
(`reservation_lost`). While no store finds the counter moved, the counter is the sum of
the reservations out (`reserved_settled`).

The evictions that `reserve_ram` makes are steps of the cache; here they are what it reads.

* `Room.Balanced` is the invariant: the counter is what the calls and the requests hold.
  `Room.Balanced.turn` keeps it through an undisturbed step.
* `reserved_settled` is the run: between calls the counter is the sum of the reservations out.
* `reservation_lost` is a run of the code with one disturbed store, after which it is not.
-/

namespace Colibri.Cache

def floorMin : Nat := 2 <<< 30

def maxPasses : Nat := 4

/-- A pass over the cache: the memory free at its top, where it can be read, and the bytes
of the experts. -/
structure Pass where
  avail : Option Nat
  held : Nat

/-- What a call of `reserve_ram` reads once its bytes are counted. -/
structure Readings where
  fillTarget : Nat
  hardFloor : Nat
  avail : Option Nat
  passes : List Pass
  last : Option Nat

/-- The last reading of the passes: they end when there is room, or nothing to evict. -/
def lastAvail (need : Nat) : List Pass → Option Nat → Option Nat
  | [], after => after
  | p :: rest, after =>
    match p.avail with
    | none => after
    | some now =>
      if need ≤ now then some now
      else if p.held ≤ max (p.held - (need - now)) floorMin then some now
      else lastAvail need rest (some now)

/-- What `reserve_ram` answers. -/
def Readings.admits (r : Readings) (bytes : Nat) : Bool :=
  if r.fillTarget == 0 then true
  else
    match r.avail with
    | none => true
    | some avail =>
      let need := min (bytes + r.hardFloor) (2 ^ 64 - 1)
      if need ≤ avail then true
      else
        match r.last.or (lastAvail need (r.passes.take maxPasses) (some avail)) with
        | none => true
        | some after => need ≤ after

/-- A call, from one access of the counter to the next. -/
inductive Request where
  /-- `reserve_ram`, before the add -/
  | reserve (bytes : Nat)
  /-- counted, before the answer -/
  | counted (bytes : Nat)
  /-- `release_ram`, before the load; also the roll back of a refused call -/
  | release (bytes : Nat)
  /-- before the store -/
  | loaded (bytes prev : Nat)
  | done

/-- The bytes a call has in the counter. -/
def Request.held : Request → Nat
  | .reserve _ => 0
  | .counted bytes => bytes
  | .release bytes => bytes
  | .loaded bytes _ => bytes
  | .done => 0

/-- The counter `reserved`, the reservations that were granted and not given back, and
the calls. -/
structure Room where
  reserved : Nat
  granted : List Nat
  requests : List Request

def Room.new : Room := ⟨0, [], []⟩

/-- No call is in progress. -/
def Room.Quiet (s : Room) : Prop := ∀ r ∈ s.requests, r = .done

inductive Access where
  | call (bytes : Nat)
  | drop (bytes : Nat)
  | add (bytes : Nat)
  | answer (bytes : Nat) (ok : Bool)
  | load (bytes prev : Nat)
  | store (bytes prev : Nat)

/-- One access of a call. Only what was granted is given back, by the `Drop` of its room. -/
inductive Turn (s : Room) : Access → Room → Prop where
  | call {bytes : Nat} : bytes < 2 ^ 64 →
    Turn s (.call bytes) { s with requests := s.requests ++ [.reserve bytes] }
  | drop {bytes : Nat} : bytes ∈ s.granted →
    Turn s (.drop bytes)
      { s with
        granted := s.granted.erase bytes
        requests := s.requests ++ [.release bytes] }
  | add {i bytes : Nat} : s.requests[i]? = some (.reserve bytes) →
    Turn s (.add bytes)
      { s with
        reserved := (s.reserved + bytes) % 2 ^ 64
        requests := s.requests.set i (.counted bytes) }
  | granted {i bytes : Nat} (r : Readings) : s.requests[i]? = some (.counted bytes) →
    r.admits bytes = true →
    Turn s (.answer bytes true)
      { s with
        granted := bytes :: s.granted
        requests := s.requests.set i .done }
  | refused {i bytes : Nat} (r : Readings) : s.requests[i]? = some (.counted bytes) →
    r.admits bytes = false →
    Turn s (.answer bytes false) { s with requests := s.requests.set i (.release bytes) }
  | load {i bytes : Nat} : s.requests[i]? = some (.release bytes) →
    Turn s (.load bytes s.reserved)
      { s with requests := s.requests.set i (.loaded bytes s.reserved) }
  | store {i bytes prev : Nat} : s.requests[i]? = some (.loaded bytes prev) →
    Turn s (.store bytes prev)
      { s with
        reserved := prev - bytes
        requests := s.requests.set i .done }

/-- The two accesses that can go wrong: an add has room in the counter, and a store finds
it as it was loaded. -/
def Undisturbed (s : Room) : Access → Prop
  | .add bytes => s.reserved + bytes < 2 ^ 64
  | .store _ prev => s.reserved = prev
  | _ => True

/-- The counter is what is granted, and what the calls have in it. -/
def Room.Balanced (s : Room) : Prop :=
  s.reserved = s.granted.sum + (s.requests.map Request.held).sum

/-- **One step** that finds the counter as it was loaded, if it stores. -/
theorem Room.Balanced.turn {s s' : Room} {e : Access} (h : s.Balanced) (ht : Turn s e s')
    (hun : Undisturbed s e) : s'.Balanced := by
  rw [Balanced] at h ⊢
  cases ht with
  | call _ =>
    rw [Lts.sum_concat]
    exact h
  | drop hmem =>
    rw [Lts.sum_concat, h]
    have hsum := List.sum_erase hmem
    dsimp only [Request.held]
    omega
  | @add i bytes hi =>
    have hset := Lts.sum_set (f := Request.held) (u := .counted bytes) hi
    have hfit : s.reserved + bytes < 2 ^ 64 := hun
    rw [Nat.mod_eq_of_lt hfit]
    dsimp only [Request.held] at hset ⊢
    omega
  | @granted i bytes r hi _ =>
    have hset := Lts.sum_set (f := Request.held) (u := .done) hi
    rw [List.sum_cons]
    dsimp only [Request.held] at hset ⊢
    omega
  | @refused i bytes r hi _ =>
    have hset := Lts.sum_set (f := Request.held) (u := .release bytes) hi
    dsimp only [Request.held] at hset ⊢
    omega
  | @load i bytes hi =>
    have hset := Lts.sum_set (f := Request.held) (u := .loaded bytes s.reserved) hi
    dsimp only [Request.held] at hset ⊢
    omega
  | @store i bytes prev hi =>
    -- the counter still holds what was loaded, so the store takes off this call alone
    have hset := Lts.sum_set (f := Request.held) (u := .done) hi
    have hsame : s.reserved = prev := hun
    dsimp only [Request.held] at hset ⊢
    omega

theorem Room.Quiet.held_eq {s : Room} (h : s.Quiet) : (s.requests.map Request.held).sum = 0 := by
  apply List.sum_eq_zero
  intro n hn
  obtain ⟨r, hr, rfl⟩ := List.mem_map.mp hn
  rw [h r hr]
  rfl

/-- **The counter between calls**: in a run whose stores all find the counter as it was
loaded and whose adds have room, it is the sum of the reservations out. -/
theorem reserved_settled {trace : List Access} {s : Room}
    (h : Lts.Run (fun s e s' => Turn s e s' ∧ Undisturbed s e) Room.new trace s)
    (hquiet : s.Quiet) : s.reserved = s.granted.sum := by
  have hnew : Room.new.Balanced := rfl
  have hbal : s.Balanced := h.inv hnew fun _ _ _ hs ht => hs.turn ht.1 ht.2
  rw [hbal, hquiet.held_eq, Nat.add_zero]

/-- A cache without a signal: nothing is read. -/
def unmanaged : Readings := ⟨0, 0, none, [], none⟩

/-- A request of five bytes, and the start of its release. -/
theorem release_loaded : ∃ trace,
    Lts.Run (fun s e s' => Turn s e s' ∧ Undisturbed s e) Room.new trace
      ⟨5, [], [.done, .loaded 5 5]⟩ := by
  have hcall : Turn Room.new (.call 5) ⟨0, [], [.reserve 5]⟩ := .call (by decide)
  have hadd : Turn ⟨0, [], [.reserve 5]⟩ (.add 5) ⟨5, [], [.counted 5]⟩ := .add (i := 0) rfl
  have hgrant : Turn ⟨5, [], [.counted 5]⟩ (.answer 5 true) ⟨5, [5], [.done]⟩ :=
    .granted (i := 0) unmanaged rfl rfl
  have hdrop : Turn ⟨5, [5], [.done]⟩ (.drop 5) ⟨5, [], [.done, .release 5]⟩ :=
    .drop (List.mem_cons_self ..)
  have hload : Turn ⟨5, [], [.done, .release 5]⟩ (.load 5 5) ⟨5, [], [.done, .loaded 5 5]⟩ :=
    .load (i := 1) rfl
  have hfits : Undisturbed ⟨0, [], [.reserve 5]⟩ (.add 5) := by
    show 0 + 5 < 2 ^ 64
    decide
  exact ⟨_, ((((Lts.Run.start.next ⟨hcall, trivial⟩).next ⟨hadd, hfits⟩).next
    ⟨hgrant, trivial⟩).next ⟨hdrop, trivial⟩).next ⟨hload, trivial⟩⟩

/-- After an undisturbed request and its release nothing is reserved. -/
theorem reserved_given_back : (⟨0, [], [.done, .done]⟩ : Room).reserved = 0 := by
  obtain ⟨trace, hrun⟩ := release_loaded
  have hstore : Turn ⟨5, [], [.done, .loaded 5 5]⟩ (.store 5 5) ⟨0, [], [.done, .done]⟩ :=
    .store (i := 1) rfl
  refine reserved_settled (hrun.next ⟨hstore, rfl⟩) ?_
  intro r hr
  rcases List.mem_cons.mp hr with rfl | hr
  · rfl
  · exact List.mem_singleton.mp hr

/-- A request of three bytes starts between the load and the store of one that ends: the
counter forgets it. -/
theorem reservation_lost : ∃ trace s, Lts.Run Turn Room.new trace s ∧ s.Quiet ∧
    s.reserved ≠ s.granted.sum := by
  obtain ⟨trace, hrun⟩ := release_loaded
  have hcall : Turn ⟨5, [], [.done, .loaded 5 5]⟩ (.call 3)
      ⟨5, [], [.done, .loaded 5 5, .reserve 3]⟩ := .call (by decide)
  have hadd : Turn ⟨5, [], [.done, .loaded 5 5, .reserve 3]⟩ (.add 3)
      ⟨8, [], [.done, .loaded 5 5, .counted 3]⟩ := .add (i := 2) rfl
  have hgrant : Turn ⟨8, [], [.done, .loaded 5 5, .counted 3]⟩ (.answer 3 true)
      ⟨8, [3], [.done, .loaded 5 5, .done]⟩ := .granted (i := 2) unmanaged rfl rfl
  have hstore : Turn ⟨8, [3], [.done, .loaded 5 5, .done]⟩ (.store 5 5)
      ⟨0, [3], [.done, .done, .done]⟩ := .store (i := 1) rfl
  refine ⟨_, _, ((((hrun.mono fun _ _ _ ht => ht.1).next hcall).next hadd).next hgrant).next
    hstore, ?_, ?_⟩
  · intro r hr
    exact List.eq_of_mem_replicate (n := 3) hr
  · show (0 : Nat) ≠ [3].sum
    decide

end Colibri.Cache
