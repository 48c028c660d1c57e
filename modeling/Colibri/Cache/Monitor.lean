import Colibri.Cache.Reserve

/-!
# The adaptive budget

A thread looks at the memory every tenth of a second and sets the budget that inserts
keep to. Four things can come of a tick (`tick_cases`): the swap guard or the OOM guard
cuts the budget at once, pressure that has lasted cedes it, or the tick holds it at the
cap learnt so far, less what callers have reserved.

The cap is the loop's memory, raised by a small step at a tick at most. The OOM guard
writes its cut into the cap; the swap guard and the pressure branch do not, so the next
tick that holds puts the budget back where the cap still is (`swap_cut_undone`). What
each branch needs of the state and the readings for the cut to last is `Earned`.

Readings are any numbers; the readings a tick makes of the clock and the ledger are for
the log.

`bounded_tick` and `bounded_run` are the bound of a run: the cap is within the fill target in every
state. `settled_iff` is about one tick: the budget it leaves is the lowest of the levels it should
keep to exactly where its branch has what it needs. `budget_settles` has both.
-/

namespace Colibri.Cache

/-- `saturating_add`, `saturating_mul` on `u64` -/
def satAdd (a b : Nat) : Nat := min (a + b) (2 ^ 64 - 1)

def satMul (a b : Nat) : Nat := min (a * b) (2 ^ 64 - 1)

def sustain : Nat := 6

def hardSlack : Nat := 3 <<< 30

def swapTolerance : Nat := 256 <<< 20

def brakeTicks : Nat := 4

def maxBrake : Nat := 8 <<< 30

def capRecoverPerTick : Nat := 64 <<< 20

def brakingFloor (hardFloor dropPerTick : Nat) : Nat :=
  satAdd hardFloor (min (satMul dropPerTick brakeTicks) maxBrake)

def capMargin (hardFloor : Nat) : Nat := satAdd hardFloor (maxBrake / 2)

def supportedCap (resident avail hardFloor : Nat) : Nat :=
  satAdd resident avail - capMargin hardFloor

def recoverCap (learnedCap fillTarget : Nat) : Nat :=
  min (satAdd learnedCap capRecoverPerTick) fillTarget

/-- What the monitor is started with, in the order `spawn_adaptive_budget` puts it, and
the reservation, which does not change. -/
structure Plan where
  fillTarget : Nat
  dangerFloor : Nat
  hardFloor : Nat
  swapBaseline : Nat
  reserved : Nat
  fill_lt : fillTarget < 2 ^ 64
  floor_le_fill : floorMin ≤ fillTarget
  floor_le_hard : floorMin ≤ hardFloor
  hard_le_danger : hardFloor ≤ dangerFloor

/-- `spawn_adaptive_budget`, on its arguments. -/
def Plan.spawn (fillTarget dangerFloor hardFloor swapBaseline reserved : Nat)
    (hfill : fillTarget < 2 ^ 64) : Plan where
  fillTarget := max fillTarget floorMin
  dangerFloor := max dangerFloor (max hardFloor floorMin)
  hardFloor := max hardFloor floorMin
  swapBaseline := swapBaseline
  reserved := reserved
  fill_lt := Nat.max_lt.mpr ⟨hfill, by decide⟩
  floor_le_fill := Nat.le_max_right ..
  floor_le_hard := Nat.le_max_right ..
  hard_le_danger := Nat.le_max_right ..

/-- The budget, and what the thread keeps between ticks. -/
structure Monitor where
  budget : Nat
  learnedCap : Nat
  lowTicks : Nat
  prevAvail : Nat

/-- What a tick reads: `MemAvailable`, the swap in use, the bytes of the experts. -/
structure Reading where
  avail : Nat
  swap : Option Nat
  resident : Nat

/-- Before the first tick. The memory is read twice. -/
def Plan.start (p : Plan) (prev seed : Option Nat) : Monitor where
  budget := p.fillTarget
  learnedCap :=
    match seed with
    | some a => min p.fillTarget (max (supportedCap 0 a p.hardFloor) floorMin)
    | none => p.fillTarget
  lowTicks := 0
  prevAvail := prev.getD (2 ^ 64 - 1)

/-- The swap guard fires. -/
def Plan.swapping (p : Plan) (r : Reading) : Bool :=
  match r.swap with
  | none => false
  | some sw => (p.swapBaseline + swapTolerance) % 2 ^ 64 < sw

/-- The floor of this tick, raised by how fast memory is going. -/
def Plan.floorNow (p : Plan) (m : Monitor) (r : Reading) : Nat :=
  brakingFloor p.hardFloor (m.prevAvail - r.avail)

/-- What the OOM guard takes back. -/
def Plan.reclaim (p : Plan) (m : Monitor) (r : Reading) : Nat :=
  satAdd (p.floorNow m r - r.avail) hardSlack

/-- One tick of the loop. -/
def Plan.tick (p : Plan) (m : Monitor) (r : Reading) : Monitor :=
  if p.swapping r then
    let newBudget := max (min (r.resident - r.resident / 4) m.budget) floorMin
    { m with budget := newBudget, lowTicks := 0, prevAvail := r.avail }
  else if r.avail < p.floorNow m r then
    let newBudget := max (r.resident - p.reclaim m r) floorMin
    ⟨newBudget, newBudget, 0, r.avail⟩
  else
    let lowTicks := if r.avail < p.dangerFloor then min (m.lowTicks + 1) (2 ^ 32 - 1) else 0
    let cap := max (min m.learnedCap (supportedCap r.resident r.avail p.hardFloor)) floorMin
    let cap :=
      if p.dangerFloor < r.avail ∧ cap ≤ satAdd r.resident capRecoverPerTick then
        recoverCap cap p.fillTarget
      else cap
    let held := cap - p.reserved
    let newBudget :=
      if sustain ≤ lowTicks then max (r.resident - (p.dangerFloor - r.avail)) floorMin
      else max held floorMin
    ⟨newBudget, cap, lowTicks, r.avail⟩

/-! ## What a tick can do -/

section

variable (p : Plan) (m : Monitor) (r : Reading)

/-- The cap as far as the memory there is supports it. -/
def Plan.supported : Nat :=
  max (min m.learnedCap (supportedCap r.resident r.avail p.hardFloor)) floorMin

/-- Memory is not short, and the cache has come up to the cap. -/
def Plan.recovers : Prop :=
  p.dangerFloor < r.avail ∧ p.supported m r ≤ satAdd r.resident capRecoverPerTick

/-- Pressure has lasted, and still does. -/
def Plan.pressed : Prop := r.avail < p.dangerFloor ∧ sustain ≤ m.lowTicks + 1

instance : Decidable (p.recovers m r) := inferInstanceAs (Decidable (_ ∧ _))

instance : Decidable (p.pressed m r) := inferInstanceAs (Decidable (_ ∧ _))

/-- **The four outcomes** of a tick. -/
theorem tick_cases :
    (p.swapping r = true ∧
      (p.tick m r).budget = max (min (r.resident - r.resident / 4) m.budget) floorMin ∧
      (p.tick m r).learnedCap = m.learnedCap) ∨
    (p.swapping r = false ∧ r.avail < p.floorNow m r ∧
      (p.tick m r).budget = max (r.resident - p.reclaim m r) floorMin ∧
      (p.tick m r).learnedCap = (p.tick m r).budget) ∨
    (p.swapping r = false ∧ p.floorNow m r ≤ r.avail ∧ p.pressed m r ∧
      (p.tick m r).budget = max (r.resident - (p.dangerFloor - r.avail)) floorMin ∧
      (p.tick m r).learnedCap = p.supported m r) ∨
    (p.swapping r = false ∧ p.floorNow m r ≤ r.avail ∧ ¬ p.pressed m r ∧
      (p.tick m r).budget = max ((p.tick m r).learnedCap - p.reserved) floorMin ∧
      (p.tick m r).learnedCap = if p.recovers m r then recoverCap (p.supported m r) p.fillTarget
        else p.supported m r) := by
  unfold Plan.tick
  by_cases hswap : p.swapping r = true
  · rw [if_pos hswap]
    exact .inl ⟨hswap, rfl, rfl⟩
  · have hno := Bool.eq_false_iff.mpr hswap
    rw [if_neg hswap]
    by_cases hoom : r.avail < p.floorNow m r
    · rw [if_pos hoom]
      exact .inr (.inl ⟨hno, hoom, rfl, rfl⟩)
    · rw [if_neg hoom]
      have hover := Nat.le_of_not_lt hoom
      dsimp only
      by_cases hpressed : p.pressed m r
      · have hlow : sustain ≤ (if r.avail < p.dangerFloor then min (m.lowTicks + 1) (2 ^ 32 - 1)
            else 0) := by
          rw [if_pos hpressed.1]
          exact Nat.le_min.mpr ⟨hpressed.2, by decide⟩
        have hcap : ¬ (p.dangerFloor < r.avail ∧
            p.supported m r ≤ satAdd r.resident capRecoverPerTick) := fun h =>
          absurd hpressed.1 (Nat.not_lt.mpr (Nat.le_of_lt h.1))
        rw [if_pos hlow]
        exact .inr (.inr (.inl ⟨hno, hover, hpressed, rfl, if_neg hcap⟩))
      · have hlow : ¬ sustain ≤ (if r.avail < p.dangerFloor then min (m.lowTicks + 1) (2 ^ 32 - 1)
            else 0) := by
          intro h
          split at h
          next hdanger => exact hpressed ⟨hdanger, Nat.le_trans h (Nat.min_le_left ..)⟩
          next => exact absurd h (by decide)
        rw [if_neg hlow]
        exact .inr (.inr (.inr ⟨hno, hover, hpressed, rfl, rfl⟩))

end

/-! ## Runs -/

/-- A tick of a monitor whose cache is within the budget. -/
def Plan.Step (p : Plan) (m : Monitor) (r : Reading) (m' : Monitor) : Prop :=
  r.resident ≤ m.budget ∧ m' = p.tick m r

/-- The budget and the cap lie between the floor and the fill target. -/
structure Plan.Bounded (p : Plan) (m : Monitor) : Prop where
  floor_le : floorMin ≤ m.budget
  budget_le : m.budget ≤ p.fillTarget
  cap_le : m.learnedCap ≤ p.fillTarget

section

variable {p : Plan} {m m' : Monitor} {r : Reading}

theorem supported_le (hm : p.Bounded m) : p.supported m r ≤ p.fillTarget :=
  Nat.max_le.mpr ⟨Nat.le_trans (Nat.min_le_left ..) hm.cap_le, p.floor_le_fill⟩

theorem bounded_start (prev seed : Option Nat) : p.Bounded (p.start prev seed) := by
  refine ⟨p.floor_le_fill, Nat.le_refl _, ?_⟩
  unfold Plan.start
  cases seed with
  | none => exact Nat.le_refl _
  | some a => exact Nat.min_le_left ..

/-- Every outcome of a tick keeps the bounds. -/
theorem bounded_tick (hm : p.Bounded m) (hres : r.resident ≤ m.budget) :
    p.Bounded (p.tick m r) := by
  have hfill := p.floor_le_fill
  have hbudget := hm.budget_le
  have hcap := hm.cap_le
  rcases tick_cases p m r with ⟨_, hb, hc⟩ | ⟨_, _, hb, hc⟩ | ⟨_, _, _, hb, hc⟩ | ⟨_, _, _, hb, hc⟩
  · exact ⟨by omega, by omega, by omega⟩
  · exact ⟨by omega, by omega, by omega⟩
  · exact ⟨by omega, by omega, hc ▸ supported_le hm⟩
  · have hle : (p.tick m r).learnedCap ≤ p.fillTarget := by
      rw [hc]
      split
      · exact Nat.min_le_right ..
      · exact supported_le hm
    exact ⟨by omega, by omega, hle⟩

theorem bounded_run {trace : List Reading} {prev seed : Option Nat}
    (h : Lts.Run p.Step (p.start prev seed) trace m) : p.Bounded m := by
  refine h.inv (bounded_start prev seed) ?_
  rintro m r _ hm ⟨hres, rfl⟩
  exact bounded_tick hm hres

/-! ## A cut that lasts -/

/-- What a tick is to leave: the budget within the cap less the reservation, and raised
by one step of recovery at most. -/
structure Plan.Settled (p : Plan) (m m' : Monitor) : Prop where
  budget_le : m'.budget ≤ max floorMin (m'.learnedCap - p.reserved)
  rise_le : m'.budget ≤ m.budget + capRecoverPerTick

/-- What each branch needs of the state and the readings.

The swap guard: its cut is within the cap, which may fail before the first tick has held
the budget to it. The OOM guard: nothing is reserved, or the cut is down to the floor;
else the reservation is in the new cap as well as in the budget. Pressure: the cut is
within the cap as memory supports it. A tick that holds: the cap, as memory supports it,
is no more than the budget and the reservation; so no earlier cut is still to be learnt. -/
def Plan.Earned (p : Plan) (m : Monitor) (r : Reading) : Prop :=
  if p.swapping r then
    r.resident - r.resident / 4 ≤ max floorMin (m.learnedCap - p.reserved)
  else if r.avail < p.floorNow m r then
    p.reserved = 0 ∨ r.resident - p.reclaim m r ≤ floorMin
  else if p.pressed m r then
    r.resident - (p.dangerFloor - r.avail) ≤ max floorMin (p.supported m r - p.reserved)
  else if p.recovers m r then
    p.supported m r ≤ m.budget + p.reserved ∨
      p.fillTarget ≤ m.budget + p.reserved + capRecoverPerTick
  else p.supported m r ≤ m.budget + p.reserved + capRecoverPerTick

/-- **A tick leaves what it should** just where its branch has what it needs. -/
theorem settled_iff (hm : p.Bounded m) (hres : r.resident ≤ m.budget) :
    p.Settled m (p.tick m r) ↔ p.Earned m r := by
  have hfloor := hm.floor_le
  have hboth : p.Settled m (p.tick m r) ↔
      (p.tick m r).budget ≤ max floorMin ((p.tick m r).learnedCap - p.reserved) ∧
        (p.tick m r).budget ≤ m.budget + capRecoverPerTick :=
    ⟨fun h => ⟨h.budget_le, h.rise_le⟩, fun h => ⟨h.1, h.2⟩⟩
  rw [hboth, Plan.Earned]
  rcases tick_cases p m r with ⟨hs, hb, hc⟩ | ⟨hs, ho, hb, hc⟩ | ⟨hs, ho, hp, hb, hc⟩ |
    ⟨hs, ho, hp, hb, hc⟩
  -- The constants stay letters: what is left is about their order alone.
  · rw [if_pos hs, hb, hc]
    generalize floorMin = floor at *
    generalize capRecoverPerTick = step
    omega
  · rw [hs, if_neg Bool.false_ne_true, if_pos ho, hc, hb]
    generalize floorMin = floor at *
    generalize capRecoverPerTick = step
    omega
  · rw [hs, if_neg Bool.false_ne_true, if_neg (Nat.not_lt.mpr ho), if_pos hp, hb, hc]
    generalize floorMin = floor at *
    generalize capRecoverPerTick = step
    omega
  · rw [hs, if_neg Bool.false_ne_true, if_neg (Nat.not_lt.mpr ho), if_neg hp, hb]
    by_cases hr : p.recovers m r
    · rw [if_pos hr] at hc
      rw [if_pos hr, hc]
      unfold recoverCap satAdd
      have hlt := p.fill_lt
      generalize floorMin = floor at *
      generalize capRecoverPerTick = step at *
      omega
    · rw [if_neg hr] at hc
      rw [if_neg hr, hc]
      generalize floorMin = floor at *
      generalize capRecoverPerTick = step
      omega

/-- **The budget of a run.** In every state a run reaches the cap is within the fill
target; and a tick from it, whatever it reads, leaves what it should just where its branch
has what it needs. -/
theorem budget_settles {trace : List Reading} {prev seed : Option Nat}
    (h : Lts.Run p.Step (p.start prev seed) trace m) :
    m.learnedCap ≤ p.fillTarget ∧
      ∀ r : Reading, r.resident ≤ m.budget → (p.Settled m (p.tick m r) ↔ p.Earned m r) :=
  ⟨(bounded_run h).cap_le, fun _ hres => settled_iff (bounded_run h) hres⟩

end

/-- A plan for 100 GiB of experts, above floors of 8 GiB and 4 GiB. -/
def roomyPlan (reserved : Nat) : Plan :=
  Plan.spawn (100 <<< 30) (8 <<< 30) (4 <<< 30) 0 reserved (by decide)

def roomyStart (reserved : Nat) : Monitor :=
  (roomyPlan reserved).start (some (200 <<< 30)) (some (200 <<< 30))

/-- A gigabyte has been swapped out. -/
def swappedOut : Reading := ⟨100 <<< 30, some (1 <<< 30), 80 <<< 30⟩

/-- Nothing is short. -/
def roomy : Reading := ⟨100 <<< 30, some 0, 60 <<< 30⟩

/-- 3 GiB are left, after 197 GiB went since the tick before. -/
def nearlyOut : Reading := ⟨3 <<< 30, some 0, 50 <<< 30⟩

/-- A tick that finds the machine swapping, from the start: the cut lasts, as it starts from a cap
of nothing. -/
theorem budget_settles_start : (roomyStart 0).learnedCap ≤ (roomyPlan 0).fillTarget ∧
    (roomyPlan 0).Settled (roomyStart 0) ((roomyPlan 0).tick (roomyStart 0) swappedOut) := by
  have hstart : Lts.Run (roomyPlan 0).Step
      ((roomyPlan 0).start (some (200 <<< 30)) (some (200 <<< 30))) [] (roomyStart 0) := .start
  obtain ⟨hcap, hsettled⟩ := budget_settles hstart
  have hearned : (roomyPlan 0).Earned (roomyStart 0) swappedOut := by
    unfold Plan.Earned
    decide
  exact ⟨hcap, (hsettled swappedOut (by decide)).mpr hearned⟩

/-- **A cut of the swap guard is undone by the next tick**: the budget goes from 100 GiB to
60, and back. And after a cut of the OOM guard the budget is the whole of the new cap,
with a gigabyte of it reserved. -/
theorem swap_cut_undone :
    (∃ m, Lts.Run (roomyPlan 0).Step (roomyStart 0) [swappedOut] m ∧ m.budget = 60 <<< 30 ∧
      roomy.resident ≤ m.budget ∧ ((roomyPlan 0).tick m roomy).budget = 100 <<< 30 ∧
      ¬ (roomyPlan 0).Settled m ((roomyPlan 0).tick m roomy)) ∧
    nearlyOut.resident ≤ (roomyStart (1 <<< 30)).budget ∧
    ¬ (roomyPlan (1 <<< 30)).Settled (roomyStart (1 <<< 30))
      ((roomyPlan (1 <<< 30)).tick (roomyStart (1 <<< 30)) nearlyOut) := by
  have hcut : ((roomyPlan 0).tick (roomyStart 0) swappedOut).budget = 60 <<< 30 := by decide
  have hback : ((roomyPlan 0).tick ((roomyPlan 0).tick (roomyStart 0) swappedOut) roomy).budget
      = 100 <<< 30 := by decide
  refine ⟨⟨_, .next .start ⟨by decide, rfl⟩, hcut, by decide, hback, fun h => ?_⟩, by decide,
    fun h => ?_⟩
  · have hrise := h.rise_le
    rw [hback, hcut] at hrise
    exact absurd hrise (by decide)
  · exact absurd h.budget_le (by decide)

end Colibri.Cache
