import Colibri.Lib.Runs
import Mathlib.Algebra.Order.BigOperators.Group.List

/-!
# The RAM ledger

One total under a ceiling, moved by compare-and-swap, and a counter for each class beside
it, moved afterwards. Calls are tasks that take one atomic access at a time; a swap may
fail for no reason. All counters are 64 bits and wrap.

Without `set_usage` the total is what is committed, at every step (`commit_bounded`). A
class counter is behind it: a drop frees the total first, so the counter may hold bytes
that were committed again.

A task is between two accesses, and `Task.taken`, `Task.counted` are what belongs to it of the total
and of a class counter there. `goOn` and `observePeak` are the end and the loop head of `note_peak`;
the `..._taken` and `..._held` lemmas say how the sums over the tasks move with each.
-/

namespace Colibri.Ram

inductive Class where
  | dense
  | experts
  | kv
  | scratch
  | readBuf
deriving DecidableEq

def Class.all : List Class := [.dense, .experts, .kv, .scratch, .readBuf]

/-- `AtomicU64::fetch_add` -/
def fetchAdd (a b : Nat) : Nat := (a + b) % 2 ^ 64

/-- `AtomicU64::fetch_sub` -/
def fetchSub (a b : Nat) : Nat := (a + (2 ^ 64 - b % 2 ^ 64)) % 2 ^ 64

/-- What follows `note_peak`: `commit` returns its commitment, `set_usage` applies the
difference to the total. -/
inductive After where
  | commitment (c : Class) (bytes : Nat)
  | apply (c : Class) (bytes prev : Nat)

/-- A call, from one access to the next. -/
inductive Task where
  /-- `commit`, before the load -/
  | commit (c : Class) (bytes : Nat)
  /-- the bytes fit above `cur` -/
  | cas (c : Class) (bytes cur : Nat)
  /-- taken from the total, before the add to the class -/
  | count (c : Class) (bytes : Nat)
  | notePeak (c : Class) (now : Nat) (next : After)
  | raisePeak (c : Class) (now seen : Nat) (next : After)
  /-- `Commitment::drop`, before the total -/
  | drop (c : Class) (bytes : Nat)
  /-- before the class -/
  | uncount (c : Class) (bytes : Nat)
  /-- `set_usage`, before the swap -/
  | setUsage (c : Class) (bytes : Nat)
  | apply (c : Class) (bytes prev : Nat)
  /-- before the last load -/
  | headroom
  | refused
  | done

/-- The counters, the commitments that are live, and the calls. -/
structure Ledger where
  ceiling : Nat
  total : Nat
  perClass : Class → Nat
  peak : Class → Nat
  live : List (Class × Nat)
  tasks : List Task

/-- `RamManager::new` -/
def Ledger.new (ceiling : Nat) : Ledger := ⟨ceiling, 0, fun _ => 0, fun _ => 0, [], []⟩

inductive Act where
  /-- `commit`, or a drop -/
  | call
  | setUsage
  /-- the load or the failed swap of a `commit` whose bytes fit -/
  | fits
  | refuse (bytes : Nat)
  | take (bytes : Nat)
  | count (c : Class) (bytes : Nat)
  | peak
  | drop (bytes : Nat)
  | uncount (c : Class) (bytes : Nat)
  | swap (c : Class) (bytes : Nat)
  | apply (bytes prev : Nat)
  | headroom

/-- Which call acts. -/
structure Label where
  task : Nat
  act : Act

/-- The commit that a task is about to find room for. -/
def Task.asks : Task → Option (Class × Nat)
  | .commit c bytes => some (c, bytes)
  | .cas c bytes _ => some (c, bytes)
  | _ => none

def Ledger.set (s : Ledger) (i : Nat) (t : Task) : Ledger := { s with tasks := s.tasks.set i t }

/-- The end of `note_peak`. -/
def Ledger.goOn (s : Ledger) (i : Nat) : After → Ledger
  | .commitment c bytes => { s.set i .done with live := (c, bytes) :: s.live }
  | .apply c bytes prev => s.set i (.apply c bytes prev)

/-- The loop head of `note_peak`. -/
def Ledger.observePeak (s : Ledger) (i : Nat) (c : Class) (now : Nat) (next : After) : Ledger :=
  if s.peak c < now then s.set i (.raisePeak c now (s.peak c) next) else s.goOn i next

/-- A call begins, or takes one access. -/
inductive Step (s : Ledger) : Label → Ledger → Prop where
  | commit {c : Class} {bytes : Nat} : bytes ≠ 0 → bytes < 2 ^ 64 →
    Step s ⟨s.tasks.length, .call⟩ { s with tasks := s.tasks ++ [.commit c bytes] }
  /-- nothing to commit -/
  | empty {c : Class} :
    Step s ⟨s.tasks.length, .call⟩ { s with tasks := s.tasks ++ [.done], live := (c, 0) :: s.live }
  | release {c : Class} {bytes : Nat} : (c, bytes) ∈ s.live →
    Step s ⟨s.tasks.length, .call⟩
      { s with tasks := s.tasks ++ [.drop c bytes], live := s.live.erase (c, bytes) }
  | setUsage {c : Class} {bytes : Nat} : bytes < 2 ^ 64 →
    Step s ⟨s.tasks.length, .setUsage⟩ { s with tasks := s.tasks ++ [.setUsage c bytes] }
  | fits {i : Nat} {t : Task} {c : Class} {bytes : Nat} : s.tasks[i]? = some t →
    t.asks = some (c, bytes) → bytes ≤ s.ceiling - s.total →
    Step s ⟨i, .fits⟩ (s.set i (.cas c bytes s.total))
  | refuse {i : Nat} {t : Task} {c : Class} {bytes : Nat} : s.tasks[i]? = some t →
    t.asks = some (c, bytes) → s.ceiling - s.total < bytes →
    Step s ⟨i, .refuse bytes⟩ (s.set i .refused)
  | take {i : Nat} {c : Class} {bytes : Nat} : s.tasks[i]? = some (.cas c bytes s.total) →
    Step s ⟨i, .take bytes⟩ { s.set i (.count c bytes) with total := s.total + bytes }
  | count {i : Nat} {c : Class} {bytes now : Nat} : s.tasks[i]? = some (.count c bytes) →
    now = fetchAdd (s.perClass c) bytes →
    Step s ⟨i, .count c bytes⟩
      { s.set i (.notePeak c now (.commitment c bytes)) with
        perClass := Function.update s.perClass c now }
  | notePeak {i : Nat} {c : Class} {now : Nat} {next : After} :
    s.tasks[i]? = some (.notePeak c now next) →
    Step s ⟨i, .peak⟩ (s.observePeak i c now next)
  | raisePeak {i : Nat} {c : Class} {now : Nat} {next : After} :
    s.tasks[i]? = some (.raisePeak c now (s.peak c) next) →
    Step s ⟨i, .peak⟩ ({ s with peak := Function.update s.peak c now }.goOn i next)
  | peakMoved {i : Nat} {c : Class} {now seen : Nat} {next : After} :
    s.tasks[i]? = some (.raisePeak c now seen next) →
    Step s ⟨i, .peak⟩ (s.observePeak i c now next)
  | drop {i : Nat} {c : Class} {bytes : Nat} : s.tasks[i]? = some (.drop c bytes) →
    Step s ⟨i, .drop bytes⟩
      { s.set i (.uncount c bytes) with total := fetchSub s.total bytes }
  | uncount {i : Nat} {c : Class} {bytes : Nat} : s.tasks[i]? = some (.uncount c bytes) →
    Step s ⟨i, .uncount c bytes⟩
      { s.set i .done with
        perClass := Function.update s.perClass c (fetchSub (s.perClass c) bytes) }
  | swap {i : Nat} {c : Class} {bytes : Nat} : s.tasks[i]? = some (.setUsage c bytes) →
    Step s ⟨i, .swap c bytes⟩
      { s.set i (.notePeak c bytes (.apply c bytes (s.perClass c))) with
        perClass := Function.update s.perClass c bytes }
  | add {i : Nat} {c : Class} {bytes prev : Nat} : s.tasks[i]? = some (.apply c bytes prev) →
    prev ≤ bytes →
    Step s ⟨i, .apply bytes prev⟩
      { s.set i .headroom with total := fetchAdd s.total (bytes - prev) }
  | sub {i : Nat} {c : Class} {bytes prev : Nat} : s.tasks[i]? = some (.apply c bytes prev) →
    bytes < prev →
    Step s ⟨i, .apply bytes prev⟩
      { s.set i .headroom with total := fetchSub s.total (prev - bytes) }
  | headroom {i : Nat} : s.tasks[i]? = some .headroom → Step s ⟨i, .headroom⟩ (s.set i .done)

/-- The accesses of a commit that has not taken anything. -/
def Act.idle : Act → Prop
  | .call | .fits | .refuse _ => True
  | _ => False

/-- No call is in progress. -/
def Ledger.Quiet (s : Ledger) : Prop := ∀ t ∈ s.tasks, t = .done ∨ t = .refused

/-- A subtraction from a counter that holds less. -/
def Underflows (s : Ledger) : Act → Prop
  | .drop bytes => s.total < bytes
  | .uncount c bytes => s.perClass c < bytes
  | .apply bytes prev => bytes < prev ∧ s.total < prev - bytes
  | _ => False

section

variable {s s' : Ledger}

theorem fetchSub_eq {a b : Nat} (hb : b ≤ a) (ha : a < 2 ^ 64) : fetchSub a b = a - b := by
  rw [fetchSub]
  omega

theorem fetchSub_mod {n b : Nat} (hb : b ≤ n) : fetchSub (n % 2 ^ 64) b = (n - b) % 2 ^ 64 := by
  rw [fetchSub]
  omega

theorem fetchAdd_mod (n b : Nat) : fetchAdd (n % 2 ^ 64) b = (n + b) % 2 ^ 64 := by
  rw [fetchAdd, Nat.mod_add_mod]

theorem sum_update (f : Class → Nat) (c : Class) (v : Nat) :
    (Class.all.map (Function.update f c v)).sum + f c = (Class.all.map f).sum + v := by
  cases c <;> simp [Class.all] <;> omega

/-- The sum over the classes of sums over a list. -/
theorem sum_classes {τ : Type} (f : Class → τ → Nat) (l : List τ) :
    (Class.all.map fun c => (l.map (f c)).sum).sum
      = (l.map fun t => (Class.all.map fun c => f c t).sum).sum := by
  induction l with
  | nil => rfl
  | cons t l ih =>
    rw [List.map_cons, List.sum_cons, ← ih, ← List.sum_map_add]
    rfl

theorem sum_le_sum {f g : Class → Nat} (h : ∀ c, f c ≤ g c) :
    (Class.all.map f).sum ≤ (Class.all.map g).sum :=
  List.sum_le_sum fun c _ => h c

/-! ## What a step does to the calls -/

/-- A commit that has not taken anything, or never will. -/
def Task.waits : Task → Bool
  | .commit _ _ => true
  | .cas _ _ _ => true
  | .refused => true
  | _ => false

/-- A commit asks for something, and for no more than there was room for; a report fits the
counter. -/
def Task.Sized (ceiling : Nat) : Task → Prop
  | .commit _ bytes => bytes ≠ 0
  | .cas _ bytes cur => bytes ≠ 0 ∧ cur + bytes ≤ ceiling
  | .setUsage _ bytes => bytes < 2 ^ 64
  | _ => True

theorem goOn_tasks (i : Nat) (next : After) : (s.goOn i next).ceiling = s.ceiling ∧
    ∃ t, (s.goOn i next).tasks = s.tasks.set i t ∧ t.waits = false ∧ t.Sized s.ceiling := by
  cases next with
  | commitment c bytes => exact ⟨rfl, _, rfl, rfl, trivial⟩
  | apply c bytes prev => exact ⟨rfl, _, rfl, rfl, trivial⟩

theorem observePeak_tasks (i : Nat) (c : Class) (now : Nat) (next : After) :
    (s.observePeak i c now next).ceiling = s.ceiling ∧
      ∃ t, (s.observePeak i c now next).tasks = s.tasks.set i t ∧ t.waits = false ∧
        t.Sized s.ceiling := by
  rw [Ledger.observePeak]
  split
  · exact ⟨rfl, _, rfl, rfl, trivial⟩
  · exact goOn_tasks i next

/-- What one access does to the list of calls: one is new, or one goes on. -/
theorem step_tasks {l : Label} (h : Step s l s') : s'.ceiling = s.ceiling ∧
    ((∃ t, s'.tasks = s.tasks ++ [t] ∧ l.task = s.tasks.length ∧
        (t.waits = true → l.act.idle) ∧ t.Sized s.ceiling) ∨
      ∃ t t', s.tasks[l.task]? = some t ∧ s'.tasks = s.tasks.set l.task t' ∧
        (t'.waits = true → t.waits = true ∧ l.act.idle) ∧
        (t.Sized s.ceiling → t'.Sized s.ceiling)) := by
  have hon {i : Nat} {t t' : Task} (hi : s.tasks[i]? = some t) (act : Act)
      (hw : t'.waits = false) (hsz : t'.Sized s.ceiling) :
      ∃ u u', s.tasks[i]? = some u ∧ s.tasks.set i t' = s.tasks.set i u' ∧
        (u'.waits = true → u.waits = true ∧ act.idle) ∧
        (u.Sized s.ceiling → u'.Sized s.ceiling) :=
    ⟨t, t', hi, rfl, fun h => absurd (hw ▸ h) Bool.false_ne_true, fun _ => hsz⟩
  cases h with
  | commit hne _ => exact ⟨rfl, .inl ⟨_, rfl, rfl, fun _ => trivial, hne⟩⟩
  | empty => exact ⟨rfl, .inl ⟨_, rfl, rfl, fun _ => trivial, trivial⟩⟩
  | release _ => exact ⟨rfl, .inl ⟨_, rfl, rfl, fun _ => trivial, trivial⟩⟩
  | setUsage hlt => exact ⟨rfl, .inl ⟨_, rfl, rfl, (fun h => by cases h), hlt⟩⟩
  | @fits i t c bytes hi hask hroom =>
    refine ⟨rfl, .inr ⟨t, _, hi, rfl, fun _ => ⟨?_, trivial⟩, fun hsz => ?_⟩⟩
    · cases t <;> first | rfl | cases hask
    · have hne : bytes ≠ 0 := by
        cases t with
        | commit c' b =>
          cases hask
          exact hsz
        | cas c' b cur =>
          cases hask
          exact hsz.1
        | _ => cases hask
      exact ⟨hne, by omega⟩
  | @refuse i t c bytes hi hask _ =>
    refine ⟨rfl, .inr ⟨t, _, hi, rfl, fun _ => ⟨?_, trivial⟩, fun _ => trivial⟩⟩
    cases t <;> first | rfl | cases hask
  | take hi => exact ⟨rfl, .inr (hon hi _ rfl trivial)⟩
  | count hi _ => exact ⟨rfl, .inr (hon hi _ rfl trivial)⟩
  | @notePeak i c now next hi =>
    obtain ⟨hceil, t, htasks, hw, hsz⟩ := observePeak_tasks (s := s) i c now next
    rw [htasks]
    exact ⟨hceil, .inr (hon hi _ hw hsz)⟩
  | @raisePeak i c now next hi =>
    obtain ⟨hceil, t, htasks, hw, hsz⟩ :=
      goOn_tasks (s := { s with peak := Function.update s.peak c now }) i next
    rw [htasks]
    exact ⟨hceil, .inr (hon hi _ hw hsz)⟩
  | @peakMoved i c now seen next hi =>
    obtain ⟨hceil, t, htasks, hw, hsz⟩ := observePeak_tasks (s := s) i c now next
    rw [htasks]
    exact ⟨hceil, .inr (hon hi _ hw hsz)⟩
  | drop hi => exact ⟨rfl, .inr (hon hi _ rfl trivial)⟩
  | uncount hi => exact ⟨rfl, .inr (hon hi _ rfl trivial)⟩
  | swap hi => exact ⟨rfl, .inr (hon hi _ rfl trivial)⟩
  | add hi _ => exact ⟨rfl, .inr (hon hi _ rfl trivial)⟩
  | sub hi _ => exact ⟨rfl, .inr (hon hi _ rfl trivial)⟩
  | headroom hi => exact ⟨rfl, .inr (hon hi _ rfl trivial)⟩

/-- A compare-and-swap that succeeds stays under the ceiling. -/
theorem sized_of_run {ceiling : Nat} {trace : List Label}
    (h : Lts.Run Step (Ledger.new ceiling) trace s) :
    s.ceiling = ceiling ∧ ∀ t ∈ s.tasks, t.Sized ceiling := by
  refine h.inv (I := fun s => s.ceiling = ceiling ∧ ∀ t ∈ s.tasks, t.Sized ceiling)
    ⟨rfl, fun _ h => absurd h List.not_mem_nil⟩ ?_
  intro s l s' hI hstep
  obtain ⟨hceil, hsized⟩ := hI
  obtain ⟨hsame, hnew | hon⟩ := step_tasks hstep
  · obtain ⟨t, htasks, -, -, hsz⟩ := hnew
    rw [htasks, hsame]
    exact ⟨hceil, Lts.forall_concat hsized (hceil ▸ hsz)⟩
  · obtain ⟨t, t', hi, htasks, -, hsz⟩ := hon
    rw [htasks, hsame]
    rw [hceil] at hsz
    exact ⟨hceil, Lts.forall_set hsized (hsz (hsized t (List.mem_of_getElem? hi))) _⟩

/-- A commit that waits, or was refused, has only looked. -/
theorem waits_idle {ceiling : Nat} {trace : List Label}
    (h : Lts.Run Step (Ledger.new ceiling) trace s) :
    (∀ l ∈ trace, l.task < s.tasks.length) ∧
      ∀ i t, s.tasks[i]? = some t → t.waits = true → ∀ l ∈ trace, l.task = i → l.act.idle := by
  refine h.trace_inv (I := fun trace s => (∀ l ∈ trace, l.task < s.tasks.length) ∧
    ∀ i t, s.tasks[i]? = some t → t.waits = true → ∀ l ∈ trace, l.task = i → l.act.idle)
    ⟨fun _ h => absurd h List.not_mem_nil, fun _ _ _ _ _ h => absurd h List.not_mem_nil⟩ ?_
  intro trace s l s' hI hstep
  obtain ⟨hbound, hidle⟩ := hI
  obtain ⟨-, hnew | hon⟩ := step_tasks hstep
  · obtain ⟨t, htasks, hl, hw, -⟩ := hnew
    rw [htasks]
    refine ⟨fun l' hl' => ?_, fun i u hu huw l' hl' hli => ?_⟩
    · rw [List.length_append, List.length_singleton]
      rcases List.mem_append.mp hl' with hl' | hl'
      · exact Nat.lt_succ_of_lt (hbound l' hl')
      · rw [List.mem_singleton.mp hl', hl]
        exact Nat.lt_succ_self _
    · rcases List.mem_append.mp hl' with hl' | hl'
      · have hlt := hbound l' hl'
        rw [List.getElem?_append_left (hli ▸ hlt)] at hu
        exact hidle i u hu huw l' hl' hli
      · rw [List.mem_singleton.mp hl'] at hli ⊢
        rw [← hli, hl, List.getElem?_concat_length] at hu
        cases hu
        exact hw huw
  · obtain ⟨t, t', hi, htasks, hw, -⟩ := hon
    rw [htasks]
    refine ⟨fun l' hl' => ?_, fun i u hu huw l' hl' hli => ?_⟩
    · rw [List.length_set]
      rcases List.mem_append.mp hl' with hl' | hl'
      · exact hbound l' hl'
      · rw [List.mem_singleton.mp hl']
        exact (List.getElem?_eq_some_iff.mp hi).1
    · by_cases hil : i = l.task
      · have hlt := (List.getElem?_eq_some_iff.mp hi).1
        rw [hil, List.getElem?_set_self hlt] at hu
        cases hu
        obtain ⟨htw, hact⟩ := hw huw
        rcases List.mem_append.mp hl' with hl' | hl'
        · exact hidle _ t hi htw l' hl' (hli.trans hil)
        · rw [List.mem_singleton.mp hl']
          exact hact
      · rw [List.getElem?_set_ne (Ne.symm hil)] at hu
        rcases List.mem_append.mp hl' with hl' | hl'
        · exact hidle i u hu huw l' hl' hli
        · exact absurd (List.mem_singleton.mp hl' ▸ hli).symm hil

/-! ## What the calls hold -/

/-- The bytes of a commitment, if it is of the class. -/
def inClass (c : Class) (x : Class × Nat) : Nat := if x.1 = c then x.2 else 0

theorem sum_inClass (x : Class × Nat) : (Class.all.map fun c => inClass c x).sum = x.2 := by
  obtain ⟨c, b⟩ := x
  cases c <;> simp [Class.all, inClass]

def After.committed : After → Nat
  | .commitment _ bytes => bytes
  | .apply _ _ _ => 0

/-- What of the total belongs to a call. -/
def Task.taken : Task → Nat
  | .count _ bytes => bytes
  | .notePeak _ _ next => next.committed
  | .raisePeak _ _ _ next => next.committed
  | .drop _ bytes => bytes
  | _ => 0

def After.counted (c : Class) : After → Nat
  | .commitment c' bytes => inClass c (c', bytes)
  | .apply c' bytes prev => inClass c (c', bytes - prev)

/-- What of a class counter is a call's to subtract, or has yet to reach the total. -/
def Task.counted (c : Class) : Task → Nat
  | .notePeak _ _ next => next.counted c
  | .raisePeak _ _ _ next => next.counted c
  | .drop c' bytes => inClass c (c', bytes)
  | .uncount c' bytes => inClass c (c', bytes)
  | .apply c' bytes prev => inClass c (c', bytes - prev)
  | _ => 0

/-- What is committed, for good or by a call under way. -/
def Ledger.taken (s : Ledger) : Nat := (s.live.map Prod.snd).sum + (s.tasks.map Task.taken).sum

/-- What is to be subtracted from a class counter some day, or has yet to reach the total. -/
def Ledger.held (s : Ledger) (c : Class) : Nat :=
  (s.live.map (inClass c)).sum + (s.tasks.map (Task.counted c)).sum

variable {i : Nat} {t : Task}

theorem set_taken (h : s.tasks[i]? = some t) (t' : Task) :
    (s.set i t').taken + t.taken = s.taken + t'.taken := by
  have hset := Lts.sum_set (f := Task.taken) (u := t') h
  unfold Ledger.taken
  dsimp only [Ledger.set]
  omega

theorem set_held (h : s.tasks[i]? = some t) (t' : Task) (c : Class) :
    (s.set i t').held c + t.counted c = s.held c + t'.counted c := by
  have hset := Lts.sum_set (f := Task.counted c) (u := t') h
  unfold Ledger.held
  dsimp only [Ledger.set]
  omega

theorem goOn_taken (h : s.tasks[i]? = some t) (next : After) :
    (s.goOn i next).taken + t.taken = s.taken + next.committed := by
  cases next with
  | commitment c bytes =>
    have hset := Lts.sum_set (f := Task.taken) (u := .done) h
    have hdone : Task.taken .done = 0 := rfl
    unfold Ledger.taken
    dsimp only [Ledger.goOn, Ledger.set, After.committed]
    rw [List.map_cons, List.sum_cons]
    omega
  | apply c bytes prev => exact set_taken h _

theorem goOn_held (h : s.tasks[i]? = some t) (next : After) (c : Class) :
    (s.goOn i next).held c + t.counted c = s.held c + next.counted c := by
  cases next with
  | commitment c' bytes =>
    have hset := Lts.sum_set (f := Task.counted c) (u := .done) h
    have hdone : Task.counted c .done = 0 := rfl
    unfold Ledger.held
    dsimp only [Ledger.goOn, Ledger.set, After.counted]
    rw [List.map_cons, List.sum_cons]
    omega
  | apply c' bytes prev => exact set_held h _ c

theorem observePeak_taken (h : s.tasks[i]? = some t) (c : Class) (now : Nat)
    (next : After) :
    (s.observePeak i c now next).taken + t.taken = s.taken + next.committed := by
  rw [Ledger.observePeak]
  split
  · exact set_taken h _
  · exact goOn_taken h next

theorem observePeak_held (h : s.tasks[i]? = some t) (c : Class) (now : Nat)
    (next : After) (c' : Class) :
    (s.observePeak i c now next).held c' + t.counted c' = s.held c' + next.counted c' := by
  rw [Ledger.observePeak]
  split
  · exact set_held h _ c'
  · exact goOn_held h next c'

end

end Colibri.Ram
