import Colibri.Ram.Commit

/-!
# The ledger with absolute reports

`set_usage` swaps a class counter and applies the difference to the total afterwards. Two
things go wrong: a report that lowers the class may reach the total before the one that
raised it (`total_wraps`), and it may leave less than the commitments of the class will
subtract. Where no report does either, no counter wraps (`usage_settled`).

What a call has yet to bring to the total is its `credit`, and what it has yet to bring to a class
its `debt`. `Settled` says that total and classes differ by these, with a lemma for each access as
in `Ram.Commit`, and `Careful` is the condition on a step: a counter has room for what is added,
and a report leaves what its class has still to give.
-/

namespace Colibri.Ram

variable {s s' : Ledger}

def After.credit : After → Nat
  | .commitment _ _ => 0
  | .apply _ bytes prev => bytes - prev

/-- What a call has in the class counters and not in the total. -/
def Task.credit : Task → Nat
  | .notePeak _ _ next => next.credit
  | .raisePeak _ _ _ next => next.credit
  | .uncount _ bytes => bytes
  | .apply _ bytes prev => bytes - prev
  | _ => 0

def After.debt : After → Nat
  | .commitment _ _ => 0
  | .apply _ bytes prev => prev - bytes

/-- What a call has in the total and not in the class counters. -/
def Task.debt : Task → Nat
  | .notePeak _ _ next => next.debt
  | .raisePeak _ _ _ next => next.debt
  | .count _ bytes => bytes
  | .apply _ bytes prev => prev - bytes
  | _ => 0

/-- Three accesses need care: a class counter and the total have room for what is added,
and a report that lowers a class leaves what the class has still to give: the bytes of its
commitments, and the raises on their way to the total. -/
def Careful (s : Ledger) : Act → Prop
  | .count c bytes => s.perClass c + bytes < 2 ^ 64
  | .swap c bytes => bytes < s.perClass c → s.held c ≤ bytes
  | .apply bytes prev => s.total + (bytes - prev) < 2 ^ 64
  | _ => True

/-- The total and the class counters differ by what the calls carry, and a class counter
covers what it has to give. -/
structure Settled (s : Ledger) : Prop where
  total : s.total + (s.tasks.map Task.credit).sum
    = (Class.all.map s.perClass).sum + (s.tasks.map Task.debt).sum
  covered : ∀ c, s.held c ≤ s.perClass c
  total_lt : s.total < 2 ^ 64
  perClass_lt : ∀ c, s.perClass c < 2 ^ 64

theorem Settled.new (ceiling : Nat) : Settled (Ledger.new ceiling) :=
  ⟨rfl, fun _ => Nat.le_refl _, Nat.two_pow_pos 64, fun _ => Nat.two_pow_pos 64⟩

/-! ## What is carried -/

/-- What a call carries to the total, its class covers. -/
theorem credit_le (t : Task) : t.credit ≤ (Class.all.map fun c => t.counted c).sum := by
  cases t with
  | notePeak c now next =>
    cases next with
    | commitment c' b => exact Nat.zero_le _
    | apply c' b p => exact (sum_inClass (c', b - p)).ge
  | raisePeak c now seen next =>
    cases next with
    | commitment c' b => exact Nat.zero_le _
    | apply c' b p => exact (sum_inClass (c', b - p)).ge
  | uncount c b => exact (sum_inClass (c, b)).ge
  | apply c b p => exact (sum_inClass (c, b - p)).ge
  | _ => exact Nat.zero_le _

variable {i bytes : Nat} {t : Task} {c : Class}

/-- All that the classes have to give covers the credit, and the bytes of a drop besides. -/
theorem credit_le_held (hi : s.tasks[i]? = some t) :
    (s.tasks.map Task.credit).sum + (Class.all.map fun c => t.counted c).sum ≤
      (Class.all.map s.held).sum + t.credit := by
  have hheld : (Class.all.map s.held).sum =
      (Class.all.map fun c => (s.live.map (inClass c)).sum).sum +
        (s.tasks.map fun u => (Class.all.map fun c => u.counted c).sum).sum := by
    rw [← sum_classes Task.counted, ← List.sum_map_add]
    rfl
  have hcredit := Lts.sum_set (f := Task.credit) (u := .done) hi
  have hcount := Lts.sum_set (f := fun u => (Class.all.map fun c => Task.counted c u).sum)
    (u := .done) hi
  have hle : ((s.tasks.set i .done).map Task.credit).sum ≤
      ((s.tasks.set i .done).map fun u => (Class.all.map fun c => Task.counted c u).sum).sum :=
    List.sum_le_sum fun u _ => credit_le u
  have hdone : Task.credit .done = 0 := rfl
  have hdone' : (Class.all.map fun c => Task.counted c .done).sum = 0 := rfl
  omega

/-- The total has what is still to be taken from it. -/
theorem Settled.debt_le (h : Settled s) (hi : s.tasks[i]? = some t) :
    (s.tasks.map Task.debt).sum + (Class.all.map fun c => t.counted c).sum ≤
      s.total + t.credit := by
  have hcover := sum_le_sum h.covered
  have hcredit := credit_le_held hi
  have htotal := h.total
  omega

theorem debt_le_sum (hi : s.tasks[i]? = some t) :
    t.debt ≤ (s.tasks.map Task.debt).sum :=
  List.single_le_sum (fun _ _ => Nat.zero_le _) _
    (List.mem_map_of_mem (List.mem_of_getElem? hi))

/-- No subtraction finds a counter that holds less. -/
theorem Settled.no_underflow (h : Settled s) {l : Label} (hstep : Step s l s') :
    ¬ Underflows s l.act := by
  intro hunder
  cases hstep with
  | @drop i c bytes hi =>
    have hle := h.debt_le hi
    have hcount : (Class.all.map fun c' => Task.counted c' (.drop c bytes)).sum = bytes :=
      sum_inClass (c, bytes)
    have hlt : s.total < bytes := hunder
    have hcredit : Task.credit (.drop c bytes) = 0 := rfl
    omega
  | @uncount i c bytes hi =>
    have hle := inClass_le_held hi c
    rw [show Task.counted c (.uncount c bytes) = bytes from inClass_self c bytes] at hle
    have hcover := h.covered c
    have hlt : s.perClass c < bytes := hunder
    omega
  | @add i c bytes prev hi hle =>
    obtain ⟨hlt, -⟩ : bytes < prev ∧ _ := hunder
    omega
  | @sub i c bytes prev hi hlt =>
    obtain ⟨-, hsmall⟩ : _ ∧ s.total < prev - bytes := hunder
    have hle := h.debt_le hi
    have hdebt : prev - bytes ≤ _ := debt_le_sum hi
    have hcredit : Task.credit (.apply c bytes prev) = bytes - prev := rfl
    omega
  | _ => cases hunder

/-! ## Steps -/

/-- `note_peak` moves no weight that a call keeps when it goes on. -/
theorem goOn_sum {f : Task → Nat} {g : After → Nat} (hdone : ∀ c b, f .done = g (.commitment c b))
    (happly : ∀ c b p, f (.apply c b p) = g (.apply c b p))
    (hi : s.tasks[i]? = some t) (next : After) :
    ((s.goOn i next).tasks.map f).sum + f t = (s.tasks.map f).sum + g next := by
  cases next with
  | commitment c b =>
    rw [← hdone c b]
    exact Lts.sum_set hi
  | apply c b p =>
    rw [← happly c b p]
    exact Lts.sum_set hi

theorem observePeak_sum {f : Task → Nat} {g : After → Nat}
    (hdone : ∀ c b, f .done = g (.commitment c b))
    (happly : ∀ c b p, f (.apply c b p) = g (.apply c b p))
    (hraise : ∀ c now seen next, f (.raisePeak c now seen next) = g next)
    (hi : s.tasks[i]? = some t) (c : Class) (now : Nat) (next : After) :
    ((s.observePeak i c now next).tasks.map f).sum + f t = (s.tasks.map f).sum + g next := by
  rw [Ledger.observePeak]
  split
  · rw [← hraise c now (s.peak c) next]
    exact Lts.sum_set hi
  · exact goOn_sum hdone happly hi next

/-- A step that leaves the counters, and what the calls carry. -/
theorem Settled.same (h : Settled s) (htotal : s'.total = s.total) (hper : s'.perClass = s.perClass)
    (hcredit : (s'.tasks.map Task.credit).sum = (s.tasks.map Task.credit).sum)
    (hdebt : (s'.tasks.map Task.debt).sum = (s.tasks.map Task.debt).sum)
    (hheld : ∀ c, s'.held c = s.held c) : Settled s' := by
  refine ⟨?_, fun c => ?_, ?_, ?_⟩
  · rw [htotal, hper, hcredit, hdebt]
    exact h.total
  · rw [hper, hheld]
    exact h.covered c
  · rw [htotal]
    exact h.total_lt
  · rw [hper]
    exact h.perClass_lt

/-- One task goes on, and leaves the counters. -/
theorem Settled.move (h : Settled s) {t' : Task} (hi : s.tasks[i]? = some t)
    (hcredit : t'.credit = t.credit) (hdebt : t'.debt = t.debt)
    (hcounted : ∀ c, t'.counted c = t.counted c) : Settled (s.set i t') := by
  refine h.same rfl rfl ?_ ?_ fun c => ?_
  · have hset := Lts.sum_set (f := Task.credit) (u := t') hi
    show ((s.tasks.set i t').map Task.credit).sum = _
    omega
  · have hset := Lts.sum_set (f := Task.debt) (u := t') hi
    show ((s.tasks.set i t').map Task.debt).sum = _
    omega
  · have hset := set_held hi t' c
    have hc := hcounted c
    omega

/-- A new call carries nothing yet. -/
theorem Settled.call (h : Settled s) {live : List (Class × Nat)}
    (hcredit : t.credit = 0) (hdebt : t.debt = 0)
    (hheld : ∀ c, (live.map (inClass c)).sum + t.counted c = (s.live.map (inClass c)).sum) :
    Settled { s with tasks := s.tasks ++ [t], live } := by
  refine h.same rfl rfl ?_ ?_ fun c => ?_
  · rw [Lts.sum_concat, hcredit, Nat.add_zero]
  · rw [Lts.sum_concat, hdebt, Nat.add_zero]
  · have hc := hheld c
    show (live.map (inClass c)).sum + ((s.tasks ++ [t]).map (Task.counted c)).sum = _ + _
    rw [Lts.sum_concat]
    omega

theorem asks_carries (h : t.asks = some (c, bytes)) :
    t.credit = 0 ∧ t.debt = 0 := by
  cases t with
  | commit c' b => exact ⟨rfl, rfl⟩
  | cas c' b cur => exact ⟨rfl, rfl⟩
  | _ => cases h

theorem Settled.observePeak (h : Settled s) {now : Nat}
    {next : After} (hi : s.tasks[i]? = some t) (hcredit : t.credit = next.credit)
    (hdebt : t.debt = next.debt) (hcounted : ∀ c, t.counted c = next.counted c) :
    Settled (s.observePeak i c now next) := by
  obtain ⟨htotal, hper, -⟩ := observePeak_counters (s := s) i c now next
  refine h.same htotal hper ?_ ?_ fun c' => ?_
  · have hsum := observePeak_sum (f := Task.credit) (g := After.credit) (fun _ _ => rfl)
      (fun _ _ _ => rfl) (fun _ _ _ _ => rfl) hi c now next
    omega
  · have hsum := observePeak_sum (f := Task.debt) (g := After.debt) (fun _ _ => rfl)
      (fun _ _ _ => rfl) (fun _ _ _ _ => rfl) hi c now next
    omega
  · have hset := observePeak_held hi c now next c'
    have hc := hcounted c'
    omega

/-- One class counter moves, and what the calls have in it as much. -/
theorem held_update {t' : Task} (hi : s.tasks[i]? = some t) {v : Nat}
    (h : ∀ c, s.held c ≤ s.perClass c) (hc : s.held c + t'.counted c ≤ v + t.counted c)
    (hne : ∀ c', c' ≠ c → t'.counted c' = t.counted c') (c' : Class) :
    (s.set i t').held c' ≤ Function.update s.perClass c v c' := by
  have hset := set_held hi t' c'
  have hcover := h c'
  by_cases hcc : c' = c
  · subst hcc
    rw [Function.update_self]
    omega
  · have hsame := hne c' hcc
    rw [Function.update_of_ne hcc]
    omega

theorem update_lt {f : Class → Nat} (h : ∀ c, f c < 2 ^ 64) {v : Nat}
    (hv : v < 2 ^ 64) (c' : Class) : Function.update f c v c' < 2 ^ 64 := by
  by_cases hcc : c' = c
  · rw [hcc, Function.update_self]
    exact hv
  · rw [Function.update_of_ne hcc]
    exact h c'

/-- **The total moves**, by what the call has no longer in the classes or has still to take from
them. The class counters stay, and the call counts in its class for no more than before. -/
theorem Settled.moveTotal (h : Settled s) {t' : Task} (hi : s.tasks[i]? = some t)
    {total : Nat} (hbal : total + t'.credit + t.debt = s.total + t.credit + t'.debt)
    (hcounted : ∀ c, t'.counted c ≤ t.counted c) (hlt : total < 2 ^ 64) :
    Settled { s.set i t' with total } := by
  have hcredit := Lts.sum_set (f := Task.credit) (u := t') hi
  have hdebt := Lts.sum_set (f := Task.debt) (u := t') hi
  have htotal := h.total
  refine ⟨?_, fun c => ?_, hlt, h.perClass_lt⟩
  · show total + ((s.tasks.set i t').map Task.credit).sum =
      (Class.all.map s.perClass).sum + ((s.tasks.set i t').map Task.debt).sum
    omega
  · have hset := set_held hi t' c
    have hcover := h.covered c
    have hc := hcounted c
    show (s.set i t').held c ≤ s.perClass c
    omega

/-- **A class counter moves**, by what the call has still to bring to the total or has already
taken from it. -/
theorem Settled.moveClass (h : Settled s) {t' : Task} (hi : s.tasks[i]? = some t)
    {v : Nat} (hbal : v + t'.debt + t.credit = s.perClass c + t.debt + t'.credit)
    (hheld : s.held c + t'.counted c ≤ v + t.counted c)
    (hne : ∀ c', c' ≠ c → t'.counted c' = t.counted c') (hlt : v < 2 ^ 64) :
    Settled { s.set i t' with perClass := Function.update s.perClass c v } := by
  have hcredit := Lts.sum_set (f := Task.credit) (u := t') hi
  have hdebt := Lts.sum_set (f := Task.debt) (u := t') hi
  have hsum := sum_update s.perClass c v
  have htotal := h.total
  refine ⟨?_, held_update hi h.covered hheld hne, h.total_lt, update_lt h.perClass_lt hlt⟩
  show s.total + ((s.tasks.set i t').map Task.credit).sum =
    (Class.all.map (Function.update s.perClass c v)).sum +
      ((s.tasks.set i t').map Task.debt).sum
  omega

theorem Settled.raisePeak (h : Settled s) {now seen : Nat} {next : After}
    (hi : s.tasks[i]? = some (.raisePeak c now seen next)) :
    Settled ({ s with peak := Function.update s.peak c now }.goOn i next) := by
  have htasks : ({ s with peak := Function.update s.peak c now } : Ledger).tasks[i]? = _ := hi
  refine h.same (goOn_total ..) (goOn_perClass ..) ?_ ?_ fun c' => ?_
  · have hsum := goOn_sum (f := Task.credit) (g := After.credit) (fun _ _ => rfl)
      (fun _ _ _ => rfl) htasks next
    exact Nat.add_right_cancel hsum
  · have hsum := goOn_sum (f := Task.debt) (g := After.debt) (fun _ _ => rfl)
      (fun _ _ _ => rfl) htasks next
    exact Nat.add_right_cancel hsum
  · have hset := goOn_held htasks next c'
    exact Nat.add_right_cancel hset

theorem Settled.count (h : Settled s)
    (hi : s.tasks[i]? = some (.count c bytes)) (hfit : s.perClass c + bytes < 2 ^ 64) :
    Settled { s.set i (.notePeak c (s.perClass c + bytes) (.commitment c bytes)) with
      perClass := Function.update s.perClass c (s.perClass c + bytes) } := by
  have hself : Task.counted c (.notePeak c (s.perClass c + bytes) (.commitment c bytes)) = bytes :=
    inClass_self c bytes
  have hzero : Task.counted c (.count c bytes) = 0 := rfl
  have hcover := h.covered c
  refine h.moveClass hi rfl ?_ (fun c' hne => inClass_ne (Ne.symm hne) bytes) hfit
  omega

theorem Settled.uncount (h : Settled s)
    (hi : s.tasks[i]? = some (.uncount c bytes)) (hle : bytes ≤ s.perClass c) :
    Settled { s.set i .done with
      perClass := Function.update s.perClass c (s.perClass c - bytes) } := by
  have hself : Task.counted c (.uncount c bytes) = bytes := inClass_self c bytes
  have hzero : Task.counted c .done = 0 := rfl
  have hcover := h.covered c
  have hlt := h.perClass_lt c
  refine h.moveClass hi ?_ ?_ (fun c' hne => (inClass_ne (Ne.symm hne) bytes).symm) (by omega)
  · dsimp only [Task.credit, Task.debt]
    omega
  · omega

theorem Settled.swap (h : Settled s)
    (hi : s.tasks[i]? = some (.setUsage c bytes)) (hfit : bytes < 2 ^ 64)
    (hlow : bytes < s.perClass c → s.held c ≤ bytes) :
    Settled { s.set i (.notePeak c bytes (.apply c bytes (s.perClass c))) with
      perClass := Function.update s.perClass c bytes } := by
  have hself : Task.counted c (.notePeak c bytes (.apply c bytes (s.perClass c))) =
      bytes - s.perClass c := inClass_self c _
  have hzero : Task.counted c (.setUsage c bytes) = 0 := rfl
  have hcover := h.covered c
  refine h.moveClass hi ?_ ?_ (fun c' hne => inClass_ne (Ne.symm hne) _) hfit
  · dsimp only [Task.credit, Task.debt, After.credit, After.debt]
    omega
  · omega

/-- **A careful step keeps it.** -/
theorem Settled.step (h : Settled s) (hc : s.ceiling < 2 ^ 64)
    (hsized : ∀ t ∈ s.tasks, t.Sized s.ceiling) {l : Label} (hstep : Step s l s')
    (hcare : Careful s l.act) : Settled s' := by
  have hunder := h.no_underflow hstep
  have hlt := h.total_lt
  cases hstep with
  | commit _ _ => exact h.call rfl rfl fun c => rfl
  | @empty c =>
    refine h.call rfl rfl fun c' => ?_
    have hzero : inClass c' (c, 0) = 0 := ite_self 0
    rw [List.map_cons, List.sum_cons, hzero, Nat.zero_add]
    rfl
  | @release c bytes hmem => exact h.call rfl rfl fun c' => erase_sum (inClass c') hmem
  | setUsage _ => exact h.call rfl rfl fun c => rfl
  | fits hi hask _ =>
    obtain ⟨hcredit, hdebt⟩ := asks_carries hask
    exact h.move hi hcredit.symm hdebt.symm fun c => ((asks_weights hask).2 c).symm
  | refuse hi hask _ =>
    obtain ⟨hcredit, hdebt⟩ := asks_carries hask
    exact h.move hi hcredit.symm hdebt.symm fun c => ((asks_weights hask).2 c).symm
  | @take i c bytes hi =>
    have hfit : s.total + bytes ≤ s.ceiling := (hsized _ (List.mem_of_getElem? hi)).2
    exact h.moveTotal hi rfl (fun _ => Nat.le_refl _) (Nat.lt_of_le_of_lt hfit hc)
  | @count i c bytes now hi hnow =>
    have hfit : s.perClass c + bytes < 2 ^ 64 := hcare
    rw [fetchAdd, Nat.mod_eq_of_lt hfit] at hnow
    subst hnow
    exact h.count hi hfit
  | notePeak hi => exact h.observePeak hi rfl rfl fun _ => rfl
  | raisePeak hi => exact h.raisePeak hi
  | peakMoved hi => exact h.observePeak hi rfl rfl fun _ => rfl
  | @drop i c bytes hi =>
    have hle : bytes ≤ s.total := Nat.not_lt.mp hunder
    rw [fetchSub_eq hle hlt]
    refine h.moveTotal hi ?_ (fun _ => Nat.le_refl _) (by omega)
    dsimp only [Task.credit, Task.debt]
    omega
  | @uncount i c bytes hi =>
    have hle : bytes ≤ s.perClass c := Nat.not_lt.mp hunder
    rw [fetchSub_eq hle (h.perClass_lt c)]
    exact h.uncount hi hle
  | @swap i c bytes hi =>
    have hfit : bytes < 2 ^ 64 := hsized _ (List.mem_of_getElem? hi)
    exact h.swap hi hfit hcare
  | @add i c bytes prev hi hle =>
    have hfit : s.total + (bytes - prev) < 2 ^ 64 := hcare
    rw [fetchAdd, Nat.mod_eq_of_lt hfit]
    refine h.moveTotal hi ?_ (fun _ => Nat.zero_le _) hfit
    dsimp only [Task.credit, Task.debt]
    omega
  | @sub i c bytes prev hi hlow =>
    have hle : prev - bytes ≤ s.total := Nat.not_lt.mp fun hsmall => hunder ⟨hlow, hsmall⟩
    rw [fetchSub_eq hle hlt]
    refine h.moveTotal hi ?_ (fun _ => Nat.zero_le _) (by omega)
    dsimp only [Task.credit, Task.debt]
    omega
  | headroom hi => exact h.move hi rfl rfl fun _ => rfl

/-- **When the counters hold**: in a run whose reports leave what their class has still to
give, and whose adds have room, no subtraction wraps, and between calls the total is the
sum of the class counters. -/
theorem usage_settled {ceiling : Nat} (hc : ceiling < 2 ^ 64) {trace : List Label}
    (h : Lts.Run (fun s l s' => Step s l s' ∧ Careful s l.act) (Ledger.new ceiling) trace s) :
    (∀ l s', Step s l s' → ¬ Underflows s l.act) ∧
      (s.Quiet → s.total = (Class.all.map s.perClass).sum) := by
  have hs : Settled s := by
    induction h with
    | start => exact Settled.new ceiling
    | next hrun hstep ih =>
      obtain ⟨hceil, hsized⟩ := sized_of_run (hrun.mono fun _ _ _ hst => hst.1)
      exact ih.step (hceil ▸ hc) (hceil ▸ hsized) hstep.1 hstep.2
  refine ⟨fun l s' hstep => hs.no_underflow hstep, fun hquiet => ?_⟩
  have htotal := hs.total
  rw [hquiet.sum_eq_zero rfl rfl, hquiet.sum_eq_zero rfl rfl] at htotal
  exact htotal

/-! ## A report that overtakes another -/

/-- The experts' counter is raised to ten, the total not yet. -/
theorem raise_swapped (ceiling : Nat) : ∃ trace,
    Lts.Run (fun s l s' => Step s l s' ∧ Careful s l.act) (Ledger.new ceiling) trace
      ⟨ceiling, 0, Function.update (fun _ => 0) .experts 10, fun _ => 0, [],
        [.notePeak .experts 10 (.apply .experts 10 0)]⟩ := by
  have hcall : Step (Ledger.new ceiling) ⟨0, .setUsage⟩
      ⟨ceiling, 0, fun _ => 0, fun _ => 0, [], [.setUsage .experts 10]⟩ := .setUsage (by decide)
  have hswap : Step ⟨ceiling, 0, fun _ => 0, fun _ => 0, [], [.setUsage .experts 10]⟩
      ⟨0, .swap .experts 10⟩
      ⟨ceiling, 0, Function.update (fun _ => 0) .experts 10, fun _ => 0, [],
        [.notePeak .experts 10 (.apply .experts 10 0)]⟩ := .swap (i := 0) rfl
  exact ⟨_, (Lts.Run.start.next ⟨hcall, trivial⟩).next
    ⟨hswap, fun h => absurd h (Nat.not_lt_zero 10)⟩⟩

/-- One report, to its end. -/
theorem report_settled : let ten : Class → Nat := Function.update (fun _ => 0) .experts 10
    (⟨100, 10, ten, ten, [], [.done]⟩ : Ledger).total = (Class.all.map ten).sum := by
  obtain ⟨trace, hrun⟩ := raise_swapped 100
  let zero : Class → Nat := fun _ => 0
  let ten : Class → Nat := Function.update zero .experts 10
  have hnote : Step ⟨100, 0, ten, zero, [], [.notePeak .experts 10 (.apply .experts 10 0)]⟩
      ⟨0, .peak⟩ ⟨100, 0, ten, zero, [], [.raisePeak .experts 10 0 (.apply .experts 10 0)]⟩ := by
    have h : Step ⟨100, 0, ten, zero, [], [.notePeak .experts 10 (.apply .experts 10 0)]⟩ _ _ :=
      .notePeak (i := 0) rfl
    exact h
  have hraise : Step ⟨100, 0, ten, zero, [], [.raisePeak .experts 10 0 (.apply .experts 10 0)]⟩
      ⟨0, .peak⟩ ⟨100, 0, ten, ten, [], [.apply .experts 10 0]⟩ := by
    have hi : (⟨100, 0, ten, zero, [],
        [.raisePeak .experts 10 0 (.apply .experts 10 0)]⟩ : Ledger).tasks[0]? =
      some (.raisePeak .experts 10 (zero .experts) (.apply .experts 10 0)) := rfl
    exact Step.raisePeak hi
  have hadd : Step ⟨100, 0, ten, ten, [], [.apply .experts 10 0]⟩ ⟨0, .apply 10 0⟩
      ⟨100, 10, ten, ten, [], [.headroom]⟩ := .add (i := 0) rfl (Nat.zero_le 10)
  have hroom : Step ⟨100, 10, ten, ten, [], [.headroom]⟩ ⟨0, .headroom⟩
      ⟨100, 10, ten, ten, [], [.done]⟩ := .headroom (i := 0) rfl
  have hcare : Careful ⟨100, 0, ten, ten, [], [.apply .experts 10 0]⟩ (.apply 10 0) := by
    show 0 + (10 - 0) < 2 ^ 64
    decide
  have hend := (((hrun.next ⟨hnote, trivial⟩).next ⟨hraise, trivial⟩).next ⟨hadd, hcare⟩).next
    ⟨hroom, trivial⟩
  exact (usage_settled (by decide) hend).2 fun t ht => .inl (List.mem_singleton.mp ht)

/-- A second report takes the class back to nothing, and is the first at the total. -/
theorem total_wraps : ∃ ceiling trace s l s', ceiling < 2 ^ 64 ∧
    Lts.Run Step (Ledger.new ceiling) trace s ∧ Step s l s' ∧ Underflows s l.act := by
  obtain ⟨trace, hrun⟩ := raise_swapped 100
  let zero : Class → Nat := fun _ => 0
  let ten : Class → Nat := Function.update zero .experts 10
  let none' : Class → Nat := Function.update ten .experts 0
  let raise : Task := .notePeak .experts 10 (.apply .experts 10 0)
  have hcall : Step ⟨100, 0, ten, zero, [], [raise]⟩ ⟨1, .setUsage⟩
      ⟨100, 0, ten, zero, [], [raise, .setUsage .experts 0]⟩ := .setUsage (by decide)
  have hswap : Step ⟨100, 0, ten, zero, [], [raise, .setUsage .experts 0]⟩ ⟨1, .swap .experts 0⟩
      ⟨100, 0, none', zero, [], [raise, .notePeak .experts 0 (.apply .experts 0 10)]⟩ :=
    .swap (i := 1) rfl
  have hpeak : Step ⟨100, 0, none', zero, [], [raise, .notePeak .experts 0 (.apply .experts 0 10)]⟩
      ⟨1, .peak⟩ ⟨100, 0, none', zero, [], [raise, .apply .experts 0 10]⟩ := by
    have h : Step ⟨100, 0, none', zero, [],
      [raise, .notePeak .experts 0 (.apply .experts 0 10)]⟩ _ _ := .notePeak (i := 1) rfl
    exact h
  have hsub : Step ⟨100, 0, none', zero, [], [raise, .apply .experts 0 10]⟩ ⟨1, .apply 0 10⟩ _ :=
    .sub (i := 1) rfl (by decide)
  refine ⟨100, _, _, _, _, by decide, (((hrun.mono fun _ _ _ hst => hst.1).next hcall).next
    hswap).next hpeak, hsub, ?_⟩
  show 0 < 10 ∧ 0 < 10 - 0
  decide

end Colibri.Ram
