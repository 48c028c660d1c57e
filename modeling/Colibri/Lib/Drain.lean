import Colibri.Lib.Runs

/-!
# Workers that drain a list of copies

A list of jobs, each of which copies a stretch of a source to a place of its own in some
buffer. A crew of workers drains it: a worker with nothing in hand takes the next job off a
shared counter, copies some cells at a time, and leaves when the counter has passed the last
job. A copy ends early where its source does, and the whole is then marked as failed.

The steps of the workers interleave in any order. What carries the argument is how far each
job is, `prog`: a job in hand is where its worker says it is, and the first `prog i` cells of
job `i` are in place because nobody else writes there (`Apart`). So once everybody has left
and nothing has failed, every job is done in full (`Inv.done`), every cell of it was written
once (`Inv.once_at`), and no other cell was touched (`Inv.kept`). Every run comes to that:
each step uses up some of what is left (`Step.left_lt`), and until everybody has left there
is a step to take (`exists_step`).

The invariant `Inv` says where each worker is, which jobs are claimed, how far each is, and what the
cells hold. There is one lemma for each kind of step: `Inv.take`, `Inv.leave`, `Inv.putDown`,
`Inv.stop`, `Inv.finish`, and `Inv.copy`, the only one that changes a cell. `Inv.step` is the step
and `inv_of_run` the run.

A crew may begin with nothing in hand (`inv_waiting`), or each worker with a job of its own
(`inv_dealt`). `tiles` cuts a stretch into jobs of one size, which are apart and cover it.
-/

namespace Drain

section

variable {α : Type}

/-- `len` cells of `src` from `off` on go to buffer `buf`, from `pos` on. -/
structure Job (α : Type) where
  src : List α
  off : Nat
  buf : Nat
  pos : Nat
  len : Nat

inductive Worker where
  | idle
  /-- job `i` is in hand, and its first `p` cells are copied -/
  | on (i p : Nat)
  | gone
  deriving DecidableEq

structure State (α : Type) where
  cursor : Nat
  workers : List Worker
  bufs : List (List α)
  failed : Bool

inductive Event where
  /-- `n` cells of job `i`, behind its first `p` -/
  | wrote (i p n : Nat)
  | other

/-- `d` in the place of the cells from `i` on. -/
def overwrite (b : List α) (i : Nat) (d : List α) : List α :=
  b.take i ++ (d ++ b.drop (i + d.length))

/-- What a worker does next. `early` says whether a source may end before its end. -/
inductive Step (jobs : List (Job α)) (early : Prop) : State α → Event → State α → Prop where
  | take (s : State α) (w : Nat) (hw : s.workers[w]? = some .idle) (h : s.cursor < jobs.length) :
    Step jobs early s .other
      { s with cursor := s.cursor + 1, workers := s.workers.set w (.on s.cursor 0) }
  | leave (s : State α) (w : Nat) (hw : s.workers[w]? = some .idle) (h : jobs.length ≤ s.cursor) :
    Step jobs early s .other
      { s with cursor := s.cursor + 1, workers := s.workers.set w .gone }
  | copy (s : State α) (w i p n : Nat) (job : Job α) (b : List α)
    (hw : s.workers[w]? = some (.on i p)) (hi : jobs[i]? = some job)
    (hb : s.bufs[job.buf]? = some b) (hn : 0 < n) (hlen : p + n ≤ job.len)
    (hsrc : job.off + p + n ≤ job.src.length) :
    Step jobs early s (.wrote i p n)
      { s with
        workers := s.workers.set w (.on i (p + n))
        bufs := s.bufs.set job.buf
          (overwrite b (job.pos + p) ((job.src.drop (job.off + p)).take n)) }
  | stop (s : State α) (w i p : Nat) (job : Job α) (hw : s.workers[w]? = some (.on i p))
    (hi : jobs[i]? = some job) (hlt : p < job.len)
    (hend : early ∨ job.src.length ≤ job.off + p) :
    Step jobs early s .other { s with workers := s.workers.set w .idle, failed := true }
  | finish (s : State α) (w i p : Nat) (job : Job α) (hw : s.workers[w]? = some (.on i p))
    (hi : jobs[i]? = some job) (hp : p = job.len) :
    Step jobs early s .other { s with workers := s.workers.set w .idle }

/-- Sources that end where they end are sources that may end anywhere. -/
theorem Step.mono {jobs : List (Job α)} {early late : Prop} (himp : early → late)
    {s s' : State α} {e : Event} (h : Step jobs early s e s') : Step jobs late s e s' := by
  cases h with
  | take w hw h => exact .take s w hw h
  | leave w hw h => exact .leave s w hw h
  | copy w i p n job b hw hi hb hn hlen hsrc => exact .copy s w i p n job b hw hi hb hn hlen hsrc
  | stop w i p job hw hi hlt hend => exact .stop s w i p job hw hi hlt (hend.imp_left himp)
  | finish w i p job hw hi hp => exact .finish s w i p job hw hi hp

def State.Finished (s : State α) : Prop := ∀ w ∈ s.workers, w = .gone

/-- Cell `y` of buffer `k`. -/
def cell (bufs : List (List α)) (k y : Nat) : Option α := bufs[k]?.bind fun b => b[y]?

/-- Cell `y` of buffer `k` is a cell of the job. -/
def Job.Has (job : Job α) (k y : Nat) : Prop :=
  job.buf = k ∧ job.pos ≤ y ∧ y < job.pos + job.len

/-- No two jobs share a cell. -/
def Apart (jobs : List (Job α)) : Prop :=
  ∀ (i j : Nat) (a b : Job α), jobs[i]? = some a → jobs[j]? = some b → ∀ k y, a.Has k y →
    b.Has k y → i = j

/-- Every job is inside its buffer. -/
def Fits (jobs : List (Job α)) (bufs : List (List α)) : Prop :=
  ∀ job ∈ jobs, ∃ b, bufs[job.buf]? = some b ∧ job.pos + job.len ≤ b.length

/-- The source holds what the job asks of it. -/
def Job.Inside (job : Job α) : Prop := job.len = 0 ∨ job.off + job.len ≤ job.src.length

/-- The event writes cell `x` of job `i`. -/
def covers (i x : Nat) : Event → Bool
  | .wrote j p n => decide (j = i ∧ p ≤ x ∧ x < p + n)
  | .other => false

/-- The event writes cell `y` of buffer `k`. -/
def touches (jobs : List (Job α)) (k y : Nat) : Event → Bool
  | .wrote j p n =>
    match jobs[j]? with
    | some job => decide (job.buf = k ∧ job.pos + p ≤ y ∧ y < job.pos + (p + n))
    | none => false
  | .other => false

/-! ## Cells -/

theorem length_overwrite {b d : List α} {i : Nat} (h : i + d.length ≤ b.length) :
    (overwrite b i d).length = b.length := by
  rw [overwrite, List.length_append, List.length_append, List.length_take, List.length_drop]
  omega

theorem getElem?_overwrite {b d : List α} {i : Nat} (h : i + d.length ≤ b.length) (y : Nat) :
    (overwrite b i d)[y]? = if i ≤ y ∧ y < i + d.length then d[y - i]? else b[y]? := by
  have htake : (b.take i).length = i := by
    rw [List.length_take]
    omega
  rw [overwrite]
  by_cases hlow : y < i
  · rw [if_neg (by omega), List.getElem?_append_left (by omega), List.getElem?_take_of_lt hlow]
  · rw [List.getElem?_append_right (by omega), htake]
    by_cases hhigh : y < i + d.length
    · rw [if_pos (by omega), List.getElem?_append_left (by omega)]
    · rw [if_neg (by omega), List.getElem?_append_right (by omega), List.getElem?_drop]
      congr 1
      omega

variable {bufs : List (List α)} {x y : Worker} {workers : List Worker}

theorem cell_set {j : Nat} {b b' : List α} (h : bufs[j]? = some b)
    (k y : Nat) : cell (bufs.set j b') k y = if j = k then b'[y]? else cell bufs k y := by
  unfold cell
  by_cases hjk : j = k
  · subst hjk
    rw [if_pos rfl, List.getElem?_set_self (List.getElem?_eq_some_iff.mp h).1]
    rfl
  · rw [if_neg hjk, List.getElem?_set_ne hjk]

/-- What a copy leaves in a cell. -/
theorem cell_copy {job : Job α} {b : List α} {p n : Nat}
    (hb : bufs[job.buf]? = some b) (hfit : job.pos + job.len ≤ b.length) (hlen : p + n ≤ job.len)
    (hsrc : job.off + p + n ≤ job.src.length) (k y : Nat) :
    cell (bufs.set job.buf (overwrite b (job.pos + p) ((job.src.drop (job.off + p)).take n))) k y
      = if job.buf = k ∧ job.pos + p ≤ y ∧ y < job.pos + p + n
        then job.src[job.off + (y - job.pos)]?
        else cell bufs k y := by
  have hsize : ((job.src.drop (job.off + p)).take n).length = n := by
    rw [List.length_take, List.length_drop]
    omega
  rw [cell_set hb]
  by_cases hk : job.buf = k
  · rw [if_pos hk, getElem?_overwrite (by rw [hsize]; omega), hsize]
    by_cases hy : job.pos + p ≤ y ∧ y < job.pos + p + n
    · rw [if_pos hy, if_pos ⟨hk, hy⟩, List.getElem?_take_of_lt (by omega), List.getElem?_drop]
      congr 1
      omega
    · rw [if_neg hy, if_neg (fun h => hy h.2), cell, ← hk, hb]
      rfl
  · rw [if_neg hk, if_neg (fun h => hk h.1)]

/-! ## The invariant -/

variable {jobs : List (Job α)} {early : Prop} {bufs₀ : List (List α)}

/-- How things stand after the steps `trace`: job `i` is `prog i` cells in. -/
structure Inv (jobs : List (Job α)) (early : Prop) (bufs₀ : List (List α)) (trace : List Event)
    (s : State α) (prog : Nat → Nat) : Prop where
  fresh : ∀ i, s.cursor ≤ i → prog i = 0
  on : ∀ (w i p : Nat), s.workers[w]? = some (.on i p) →
    i < s.cursor ∧ i < jobs.length ∧ prog i = p
  alone : ∀ (w w' i p p' : Nat), s.workers[w]? = some (.on i p) →
    s.workers[w']? = some (.on i p') → w = w'
  claimed : ∀ (i : Nat) (job : Job α), jobs[i]? = some job → i < s.cursor →
    (∃ w p : Nat, s.workers[w]? = some (.on i p)) ∨ prog i = job.len ∨ s.failed = true
  bound : ∀ (i : Nat) (job : Job α), jobs[i]? = some job →
    prog i ≤ job.len ∧ (0 < prog i → job.off + prog i ≤ job.src.length)
  copied : ∀ (i : Nat) (job : Job α), jobs[i]? = some job → ∀ x < prog i,
    cell s.bufs job.buf (job.pos + x) = job.src[job.off + x]?
  kept : ∀ k y, (∀ job ∈ jobs, ¬ job.Has k y) → cell s.bufs k y = cell bufs₀ k y
  sizes : s.bufs.map List.length = bufs₀.map List.length
  wrote : ∀ (i p n : Nat), Event.wrote i p n ∈ trace → ∃ job, jobs[i]? = some job ∧ p + n ≤ job.len
  once : ∀ i x, trace.countP (covers i x) = if x < prog i then 1 else 0
  failure : s.failed = true → early ∨ ∃ job ∈ jobs, ¬ job.Inside
  left : Worker.gone ∈ s.workers → jobs.length ≤ s.cursor
  crew : jobs ≠ [] → s.workers ≠ []

/-- Everybody waits for a job. -/
def State.waiting (bufs : List (List α)) (workers : Nat) : State α :=
  ⟨0, List.replicate workers .idle, bufs, false⟩

/-- Everybody has been given a job of its own. -/
def State.dealt (bufs : List (List α)) (jobs : List (Job α)) : State α :=
  ⟨jobs.length, (List.range jobs.length).map fun i => .on i 0, bufs, false⟩

/-- The invariant holds of a crew that waits, with nothing done. -/
theorem inv_waiting {workers : Nat} (h : 0 < workers) :
    Inv jobs early bufs₀ [] (.waiting bufs₀ workers) fun _ => 0 := by
  have hidle : ∀ (w : Nat) (x : Worker), (State.waiting bufs₀ workers).workers[w]? = some x →
      x = .idle := by
    intro w x hw
    exact List.eq_of_mem_replicate (List.mem_of_getElem? hw)
  refine ⟨fun _ _ => rfl, ?_, ?_, ?_, ?_, ?_, fun _ _ _ => rfl, rfl, ?_, fun _ _ => rfl, nofun, ?_,
    ?_⟩
  · intro w i p hw
    cases hidle w _ hw
  · intro w w' i p p' hw
    cases hidle w _ hw
  · exact fun i job _ hlt => absurd hlt (Nat.not_lt_zero i)
  · exact fun i job _ => ⟨Nat.zero_le _, nofun⟩
  · exact fun i job _ x hx => absurd hx (Nat.not_lt_zero x)
  · exact fun i p n hmem => absurd hmem List.not_mem_nil
  · intro hmem
    cases List.eq_of_mem_replicate hmem
  · intro _ hnil
    have hlen := congrArg List.length hnil
    rw [State.waiting, List.length_replicate] at hlen
    exact absurd h (hlen ▸ Nat.lt_irrefl 0)

theorem dealt_workers {w : Nat} :
    (State.dealt bufs jobs).workers[w]? = some x ↔ w < jobs.length ∧ x = .on w 0 := by
  rw [State.dealt, List.getElem?_map]
  by_cases hw : w < jobs.length
  · rw [List.getElem?_range hw]
    simp [hw, eq_comm]
  · rw [List.getElem?_eq_none (by rw [List.length_range]; omega)]
    simp [hw]

/-- The invariant holds of a crew that was dealt its jobs, with nothing done. -/
theorem inv_dealt : Inv jobs early bufs₀ [] (.dealt bufs₀ jobs) fun _ => 0 := by
  refine ⟨fun _ _ => rfl, ?_, ?_, ?_, ?_, ?_, fun _ _ _ => rfl, rfl, ?_, fun _ _ => rfl, nofun, ?_,
    ?_⟩
  · intro w i p hw
    obtain ⟨hlt, hon⟩ := dealt_workers.mp hw
    cases hon
    exact ⟨hlt, hlt, rfl⟩
  · intro w w' i p p' hw hw'
    cases (dealt_workers.mp hw).2
    cases (dealt_workers.mp hw').2
    rfl
  · exact fun i job _ hlt => .inl ⟨i, 0, dealt_workers.mpr ⟨hlt, rfl⟩⟩
  · exact fun i job _ => ⟨Nat.zero_le _, nofun⟩
  · exact fun i job _ x hx => absurd hx (Nat.not_lt_zero x)
  · exact fun i p n hmem => absurd hmem List.not_mem_nil
  · exact fun _ => Nat.le_refl _
  · intro hne hnil
    have hlen := congrArg List.length hnil
    rw [State.dealt, List.length_map, List.length_range] at hlen
    exact hne (List.length_eq_zero_iff.mp hlen)

theorem countP_other {i x : Nat} (trace : List Event) :
    (trace ++ [Event.other]).countP (covers i x) = trace.countP (covers i x) := by
  rw [List.countP_append]
  rfl

theorem wrote_other {trace : List Event} {i p n : Nat}
    (h : Event.wrote i p n ∈ trace ++ [Event.other]) : Event.wrote i p n ∈ trace := by
  rcases List.mem_append.mp h with h | h
  · exact h
  · cases List.mem_singleton.mp h

theorem workers_set {w v : Nat} {z : Worker} (hw : workers[w]? = some x)
    (hv : (workers.set w y)[v]? = some z) : w = v ∧ z = y ∨ w ≠ v ∧ workers[v]? = some z :=
  Lts.set_cases hw hv

theorem on_of_set {w v i p : Nat}
    (hw : workers[w]? = some x) (hy : ∀ i p, y ≠ .on i p)
    (hv : (workers.set w y)[v]? = some (.on i p)) : workers[v]? = some (.on i p) := by
  rcases workers_set hw hv with ⟨-, he⟩ | ⟨-, h⟩
  · exact absurd he.symm (hy i p)
  · exact h

theorem set_ne_nil {w : Nat} (h : workers ≠ []) :
    workers.set w x ≠ [] := by
  intro hnil
  have hlen := congrArg List.length hnil
  rw [List.length_set] at hlen
  exact h (List.length_eq_zero_iff.mp hlen)

theorem gone_of_set {w : Nat} (hx : x ≠ .gone)
    (h : Worker.gone ∈ workers.set w x) : Worker.gone ∈ workers := by
  rcases List.mem_or_eq_of_mem_set h with h | h
  · exact h
  · exact absurd h.symm hx

/-- A worker that has something else in hand, or was not the one that moved, has kept it. -/
theorem still_on {w v i p : Nat}
    (hw : workers[w]? = some x) (hx : x ≠ .on i p) (hv : workers[v]? = some (.on i p)) :
    (workers.set w y)[v]? = some (.on i p) := by
  have hne : w ≠ v := by
    rintro rfl
    exact hx (Option.some.inj (hw.symm.trans hv))
  rw [List.getElem?_set_ne hne]
  exact hv

/-- The cells behind the first `p` are written for the first time. -/
theorem covers_copy (i p n x : Nat) : (if x < p then 1 else 0) +
    (if covers i x (.wrote i p n) = true then 1 else 0) = if x < p + n then 1 else 0 := by
  simp only [covers, true_and, decide_eq_true_eq]
  by_cases hx : x < p
  · have hnot : ¬ (p ≤ x ∧ x < p + n) := by omega
    rw [if_pos hx, if_neg hnot, if_pos (Nat.lt_add_right n hx)]
  · by_cases hxn : x < p + n
    · rw [if_neg hx, if_pos ⟨Nat.le_of_not_lt hx, hxn⟩, if_pos hxn]
    · have hnot : ¬ (p ≤ x ∧ x < p + n) := fun h => hxn h.2
      rw [if_neg hx, if_neg hnot, if_neg hxn]

/-! ## What one step keeps -/

section

variable {trace : List Event} {s : State α} {prog : Nat → Nat}

/-- A job is taken off the counter: nobody else has it. -/
theorem Inv.take (h : Inv jobs early bufs₀ trace s prog) {w : Nat}
    (hw : s.workers[w]? = some .idle) (hlt : s.cursor < jobs.length) :
    Inv jobs early bufs₀ (trace ++ [.other])
      { s with cursor := s.cursor + 1, workers := s.workers.set w (.on s.cursor 0) } prog := by
  refine ⟨?_, ?_, ?_, ?_, h.bound, h.copied, h.kept, h.sizes,
    fun i p n hmem => h.wrote i p n (wrote_other hmem),
    fun i x => (countP_other trace).trans (h.once i x), h.failure, ?_,
      fun hne => set_ne_nil (h.crew hne)⟩
  · exact fun i hi => h.fresh i (Nat.le_of_succ_le hi)
  · intro v i p hv
    rcases workers_set hw hv with ⟨-, he⟩ | ⟨-, hv⟩
    · cases he
      exact ⟨Nat.lt_succ_self _, hlt, h.fresh _ (Nat.le_refl _)⟩
    · obtain ⟨hi, hj, hp⟩ := h.on v i p hv
      exact ⟨Nat.lt_succ_of_lt hi, hj, hp⟩
  · intro v v' i p p' hv hv'
    rcases workers_set hw hv with ⟨hwv, he⟩ | ⟨-, hold⟩
    · rcases workers_set hw hv' with ⟨hwv', -⟩ | ⟨-, hold'⟩
      · exact hwv.symm.trans hwv'
      · -- the job just taken is nobody else's
        cases he
        exact absurd (h.on v' _ p' hold').1 (Nat.lt_irrefl _)
    · rcases workers_set hw hv' with ⟨-, he'⟩ | ⟨-, hold'⟩
      · cases he'
        exact absurd (h.on v _ p hold).1 (Nat.lt_irrefl _)
      · exact h.alone v v' i p p' hold hold'
  · intro i job hi hic
    rcases Nat.lt_succ_iff_lt_or_eq.mp hic with hic | rfl
    · rcases h.claimed i job hi hic with ⟨v, p, hv⟩ | hdone
      · exact .inl ⟨v, p, still_on hw nofun hv⟩
      · exact .inr hdone
    · exact .inl ⟨w, 0, List.getElem?_set_self (List.getElem?_eq_some_iff.mp hw).1⟩
  · exact fun hgone => Nat.le_succ_of_le (h.left (gone_of_set (x := .on _ _) nofun hgone))

theorem Inv.alone_set (h : Inv jobs early bufs₀ trace s prog) {w : Nat}
    (hw : s.workers[w]? = some x) (hy : ∀ i p, y ≠ .on i p) (v v' i p p' : Nat)
    (hv : (s.workers.set w y)[v]? = some (.on i p))
    (hv' : (s.workers.set w y)[v']? = some (.on i p')) : v = v' :=
  h.alone v v' i p p' (on_of_set hw hy hv) (on_of_set hw hy hv')

theorem Inv.leave (h : Inv jobs early bufs₀ trace s prog) {w : Nat}
    (hw : s.workers[w]? = some .idle) (hge : jobs.length ≤ s.cursor) :
    Inv jobs early bufs₀ (trace ++ [.other])
      { s with cursor := s.cursor + 1, workers := s.workers.set w .gone } prog := by
  refine ⟨?_, ?_, h.alone_set (y := .gone) hw (fun _ _ => nofun), ?_, h.bound, h.copied, h.kept, h.sizes,
    fun i p n hmem => h.wrote i p n (wrote_other hmem),
    fun i x => (countP_other trace).trans (h.once i x), h.failure,
    fun _ => Nat.le_succ_of_le hge, fun hne => set_ne_nil (h.crew hne)⟩
  · exact fun i hi => h.fresh i (Nat.le_of_succ_le hi)
  · intro v i p hv
    obtain ⟨hi, hj, hp⟩ := h.on v i p (on_of_set (y := .gone) hw (fun _ _ => nofun) hv)
    exact ⟨Nat.lt_succ_of_lt hi, hj, hp⟩
  · intro i job hi _
    have hilt := (List.getElem?_eq_some_iff.mp hi).1
    rcases h.claimed i job hi (Nat.lt_of_lt_of_le hilt hge) with ⟨v, p, hv⟩ | hdone
    · exact .inl ⟨v, p, still_on hw nofun hv⟩
    · exact .inr hdone

/-- A worker puts its job down: what has to be shown is where that leaves the jobs that are
claimed, and what the mark stands for. -/
theorem Inv.putDown (h : Inv jobs early bufs₀ trace s prog) {w : Nat}
    (hw : s.workers[w]? = some x) {failed : Bool}
    (hclaimed : ∀ (i : Nat) (job : Job α), jobs[i]? = some job → i < s.cursor →
      (∃ v p : Nat, (s.workers.set w .idle)[v]? = some (.on i p)) ∨ prog i = job.len ∨
        failed = true)
    (hfailure : failed = true → early ∨ ∃ job ∈ jobs, ¬ job.Inside) :
    Inv jobs early bufs₀ (trace ++ [.other])
      { s with workers := s.workers.set w .idle, failed := failed } prog where
  fresh := h.fresh
  on v j q hv := h.on v j q (on_of_set (y := .idle) hw (fun _ _ => nofun) hv)
  alone := h.alone_set (y := .idle) hw fun _ _ => nofun
  claimed := hclaimed
  bound := h.bound
  copied := h.copied
  kept := h.kept
  sizes := h.sizes
  wrote i p n hmem := h.wrote i p n (wrote_other hmem)
  once i x := (countP_other trace).trans (h.once i x)
  failure := hfailure
  left hgone := h.left (gone_of_set (x := .idle) nofun hgone)
  crew hne := set_ne_nil (h.crew hne)

theorem Inv.stop (h : Inv jobs early bufs₀ trace s prog) {w i p : Nat} {job : Job α}
    (hw : s.workers[w]? = some (.on i p)) (hi : jobs[i]? = some job) (hlt : p < job.len)
    (hend : early ∨ job.src.length ≤ job.off + p) :
    Inv jobs early bufs₀ (trace ++ [.other])
      { s with workers := s.workers.set w .idle, failed := true } prog := by
  refine h.putDown hw (fun _ _ _ _ => .inr (.inr rfl)) fun _ => ?_
  refine hend.imp_right fun hle => ⟨job, List.mem_of_getElem? hi, ?_⟩
  rintro (hzero | hin)
  · omega
  · omega

theorem Inv.finish (h : Inv jobs early bufs₀ trace s prog) {w i p : Nat} {job : Job α}
    (hw : s.workers[w]? = some (.on i p)) (hi : jobs[i]? = some job) (hp : p = job.len) :
    Inv jobs early bufs₀ (trace ++ [.other]) { s with workers := s.workers.set w .idle } prog := by
  refine h.putDown hw (fun j job' hj hjc => ?_) h.failure
  by_cases hji : j = i
  · subst hji
    cases hi.symm.trans hj
    exact .inr (.inl ((h.on w j p hw).2.2.trans hp))
  · rcases h.claimed j job' hj hjc with ⟨v, q, hv⟩ | hdone
    · refine .inl ⟨v, q, still_on hw ?_ hv⟩
      intro he
      cases he
      exact hji rfl
    · exact .inr hdone

/-! A copy, by the worker `w`, of `n` cells of the job `i` behind its first `p`. -/

section

variable {w i p n : Nat} {job : Job α} {b : List α}

theorem Inv.on_copy (h : Inv jobs early bufs₀ trace s prog) (hw : s.workers[w]? = some (.on i p))
    (v j q : Nat) (hv : (s.workers.set w (.on i (p + n)))[v]? = some (.on j q)) :
    j < s.cursor ∧ j < jobs.length ∧ Function.update prog i (p + n) j = q := by
  rcases workers_set hw hv with ⟨-, he⟩ | ⟨hwv, hv⟩
  · cases he
    obtain ⟨hcur, hjobs, -⟩ := h.on w i p hw
    exact ⟨hcur, hjobs, Function.update_self ..⟩
  · obtain ⟨hj, hjl, hq⟩ := h.on v j q hv
    have hne : j ≠ i := fun hji => hwv (h.alone w v i p q hw (hji ▸ hv))
    rw [Function.update_of_ne hne]
    exact ⟨hj, hjl, hq⟩

theorem Inv.alone_copy (h : Inv jobs early bufs₀ trace s prog)
    (hw : s.workers[w]? = some (.on i p)) (v v' j q q' : Nat)
    (hv : (s.workers.set w (.on i (p + n)))[v]? = some (.on j q))
    (hv' : (s.workers.set w (.on i (p + n)))[v']? = some (.on j q')) : v = v' := by
  have hback : ∀ v q : Nat, (s.workers.set w (.on i (p + n)))[v]? = some (.on j q) →
      ∃ q₀, s.workers[v]? = some (.on j q₀) := by
    intro v q hv
    rcases workers_set hw hv with ⟨rfl, he⟩ | ⟨-, hv⟩
    · cases he
      exact ⟨p, hw⟩
    · exact ⟨q, hv⟩
  obtain ⟨q₀, hv⟩ := hback v q hv
  obtain ⟨q₀', hv'⟩ := hback v' q' hv'
  exact h.alone v v' j q₀ q₀' hv hv'

theorem Inv.claimed_copy (h : Inv jobs early bufs₀ trace s prog)
    (hw : s.workers[w]? = some (.on i p)) (j : Nat) (job' : Job α) (hj : jobs[j]? = some job')
    (hjc : j < s.cursor) :
    (∃ v q : Nat, (s.workers.set w (.on i (p + n)))[v]? = some (.on j q)) ∨
      Function.update prog i (p + n) j = job'.len ∨ s.failed = true := by
  by_cases hji : j = i
  · subst hji
    exact .inl ⟨w, p + n, List.getElem?_set_self (List.getElem?_eq_some_iff.mp hw).1⟩
  · rw [Function.update_of_ne hji]
    rcases h.claimed j job' hj hjc with ⟨v, q, hv⟩ | hdone
    · refine .inl ⟨v, q, still_on hw ?_ hv⟩
      intro he
      cases he
      exact hji rfl
    · exact .inr hdone

theorem Inv.bound_copy (h : Inv jobs early bufs₀ trace s prog) (hi : jobs[i]? = some job)
    (hlen : p + n ≤ job.len) (hsrc : job.off + p + n ≤ job.src.length) (j : Nat) (job' : Job α)
    (hj : jobs[j]? = some job') :
    Function.update prog i (p + n) j ≤ job'.len ∧ (0 < Function.update prog i (p + n) j →
      job'.off + Function.update prog i (p + n) j ≤ job'.src.length) := by
  by_cases hji : j = i
  · subst hji
    cases hi.symm.trans hj
    rw [Function.update_self]
    exact ⟨hlen, fun _ => by omega⟩
  · rw [Function.update_of_ne hji]
    exact h.bound j job' hj

/-- The job's first `p + n` cells are in place, and another job's cells are not written. -/
theorem Inv.copied_copy (h : Inv jobs early bufs₀ trace s prog) (hapart : Apart jobs)
    (hprog : prog i = p) (hi : jobs[i]? = some job) (hb : s.bufs[job.buf]? = some b)
    (hfit : job.pos + job.len ≤ b.length) (hlen : p + n ≤ job.len)
    (hsrc : job.off + p + n ≤ job.src.length) (j : Nat) (job' : Job α) (hj : jobs[j]? = some job')
    (x : Nat) (hx : x < Function.update prog i (p + n) j) :
    cell (s.bufs.set job.buf (overwrite b (job.pos + p) ((job.src.drop (job.off + p)).take n)))
      job'.buf (job'.pos + x) = job'.src[job'.off + x]? := by
  rw [cell_copy hb hfit hlen hsrc]
  by_cases hji : j = i
  · subst hji
    cases hi.symm.trans hj
    rw [Function.update_self] at hx
    by_cases hnew : p ≤ x
    · rw [if_pos ⟨rfl, by omega, by omega⟩, Nat.add_sub_cancel_left]
    · rw [if_neg (by omega)]
      exact h.copied j _ hj x (by omega)
  · rw [Function.update_of_ne hji] at hx
    have hbound := (h.bound j job' hj).1
    rw [if_neg]
    · exact h.copied j job' hj x hx
    · rintro ⟨hbuf, hlow, hhigh⟩
      exact hji (hapart j i job' job hj hi job'.buf (job'.pos + x) ⟨rfl, by omega, by omega⟩
        ⟨hbuf, by omega, by omega⟩)

theorem sizes_copy (hb : bufs[job.buf]? = some b)
    (hfit : job.pos + job.len ≤ b.length) (hlen : p + n ≤ job.len) :
    (bufs.set job.buf (overwrite b (job.pos + p)
      ((job.src.drop (job.off + p)).take n))).map List.length = bufs.map List.length := by
  rw [List.map_set, length_overwrite (by rw [List.length_take, List.length_drop]; omega)]
  refine List.ext_getElem? fun k => ?_
  by_cases hk : job.buf = k
  · subst hk
    have hlt := (List.getElem?_eq_some_iff.mp hb).1
    rw [List.getElem?_set_self (by rw [List.length_map]; exact hlt), List.getElem?_map, hb]
    rfl
  · rw [List.getElem?_set_ne hk]

theorem Inv.once_copy (h : Inv jobs early bufs₀ trace s prog) (hprog : prog i = p) (j x : Nat) :
    (trace ++ [Event.wrote i p n]).countP (covers j x) =
      if x < Function.update prog i (p + n) j then 1 else 0 := by
  rw [List.countP_append, h.once j x, List.countP_singleton]
  by_cases hji : j = i
  · subst hji
    rw [Function.update_self, hprog]
    exact covers_copy j p n x
  · have hother : covers j x (.wrote i p n) = false := by
      simp only [covers, decide_eq_false_iff_not]
      exact fun h => hji h.1.symm
    rw [Function.update_of_ne hji, hother]
    exact Nat.add_zero _

/-- **A copy moves its own job on, and no other job.** -/
theorem Inv.copy (h : Inv jobs early bufs₀ trace s prog) (hfits : Fits jobs bufs₀)
    (hapart : Apart jobs) (hw : s.workers[w]? = some (.on i p)) (hi : jobs[i]? = some job)
    (hb : s.bufs[job.buf]? = some b) (hlen : p + n ≤ job.len)
    (hsrc : job.off + p + n ≤ job.src.length) :
    Inv jobs early bufs₀ (trace ++ [.wrote i p n])
      { s with
        workers := s.workers.set w (.on i (p + n))
        bufs := s.bufs.set job.buf
          (overwrite b (job.pos + p) ((job.src.drop (job.off + p)).take n)) }
      (Function.update prog i (p + n)) := by
  obtain ⟨hcur, -, hprog⟩ := h.on w i p hw
  have hfit : job.pos + job.len ≤ b.length := by
    obtain ⟨b₀, hb₀, hle⟩ := hfits job (List.mem_of_getElem? hi)
    have hsize := congrArg (fun l => l[job.buf]?) h.sizes
    simp only [List.getElem?_map, hb, hb₀, Option.map_some, Option.some.injEq] at hsize
    omega
  refine ⟨?_, h.on_copy hw, h.alone_copy hw, h.claimed_copy hw, h.bound_copy hi hlen hsrc,
    h.copied_copy hapart hprog hi hb hfit hlen hsrc, ?_,
    (sizes_copy hb hfit hlen).trans h.sizes, ?_, h.once_copy hprog, h.failure,
    fun hgone => h.left (gone_of_set (x := .on _ _) nofun hgone),
    fun hne => set_ne_nil (h.crew hne)⟩
  · intro j hj
    have hne : j ≠ i := Nat.ne_of_gt (Nat.lt_of_lt_of_le hcur hj)
    rw [Function.update_of_ne hne]
    exact h.fresh j hj
  · intro k y hnone
    dsimp only
    rw [cell_copy hb hfit hlen hsrc, if_neg]
    · exact h.kept k y hnone
    · rintro ⟨hbuf, hlow, hhigh⟩
      exact hnone job (List.mem_of_getElem? hi) ⟨hbuf, by omega, by omega⟩
  · intro j q m hmem
    rcases List.mem_append.mp hmem with hmem | hmem
    · exact h.wrote j q m hmem
    · cases List.mem_singleton.mp hmem
      exact ⟨job, hi, hlen⟩

end

/-- **Every step keeps it.** -/
theorem Inv.step {s' : State α} {e : Event} (h : Inv jobs early bufs₀ trace s prog)
    (hfits : Fits jobs bufs₀) (hapart : Apart jobs) (hstep : Step jobs early s e s') :
    ∃ prog', Inv jobs early bufs₀ (trace ++ [e]) s' prog' := by
  cases hstep with
  | take w hw hlt => exact ⟨prog, h.take hw hlt⟩
  | leave w hw hge => exact ⟨prog, h.leave hw hge⟩
  | copy w i p n job b hw hi hb hn hlen hsrc =>
    exact ⟨Function.update prog i (p + n), h.copy hfits hapart hw hi hb hlen hsrc⟩
  | stop w i p job hw hi hlt hend => exact ⟨prog, h.stop hw hi hlt hend⟩
  | finish w i p job hw hi hp => exact ⟨prog, h.finish hw hi hp⟩

end

theorem inv_of_run {s₀ s : State α} {trace : List Event} (hfits : Fits jobs bufs₀)
    (hapart : Apart jobs) (h₀ : Inv jobs early bufs₀ [] s₀ fun _ => 0)
    (h : Lts.Run (Step jobs early) s₀ trace s) : ∃ prog, Inv jobs early bufs₀ trace s prog := by
  refine h.trace_inv (I := fun trace s => ∃ prog, Inv jobs early bufs₀ trace s prog) ⟨_, h₀⟩ ?_
  rintro trace s e t ⟨prog, hs⟩ hstep
  exact hs.step hfits hapart hstep

/-! ## When everybody has left -/

/-- **Nothing has failed: every job is done in full.** -/
theorem Inv.done {trace : List Event} {s : State α} {prog : Nat → Nat}
    (h : Inv jobs early bufs₀ trace s prog) (hfin : s.Finished) (hok : s.failed = false)
    {i : Nat} {job : Job α} (hi : jobs[i]? = some job) : prog i = job.len := by
  have hne : jobs ≠ [] := List.ne_nil_of_mem (List.mem_of_getElem? hi)
  obtain ⟨w, rest, hworkers⟩ := List.exists_cons_of_ne_nil (h.crew hne)
  have hw : w ∈ s.workers := hworkers ▸ List.mem_cons_self
  have hleft := h.left (hfin w hw ▸ hw)
  have hlt := (List.getElem?_eq_some_iff.mp hi).1
  rcases h.claimed i job hi (Nat.lt_of_lt_of_le hlt hleft) with ⟨v, p, hv⟩ | hdone | hfailed
  · cases hfin _ (List.mem_of_getElem? hv)
  · exact hdone
  · rw [hok] at hfailed
    cases hfailed

theorem Inv.inside {trace : List Event} {s : State α} {prog : Nat → Nat}
    (h : Inv jobs early bufs₀ trace s prog) (hfin : s.Finished) (hok : s.failed = false) :
    ∀ job ∈ jobs, job.Inside := by
  intro job hmem
  obtain ⟨i, hi⟩ := List.mem_iff_getElem?.mp hmem
  have hdone := h.done hfin hok hi
  have hsrc := (h.bound i job hi).2
  rw [hdone] at hsrc
  rcases Nat.eq_zero_or_pos job.len with hzero | hpos
  · exact .inl hzero
  · exact .inr (hsrc hpos)

/-- **Every cell of a job holds what it should**, at the end of a run without a failure. -/
theorem Inv.cell_eq {trace : List Event} {s : State α} {prog : Nat → Nat}
    (h : Inv jobs early bufs₀ trace s prog) (hfin : s.Finished) (hok : s.failed = false)
    {job : Job α} (hmem : job ∈ jobs) {x : Nat} (hx : x < job.len) :
    cell s.bufs job.buf (job.pos + x) = job.src[job.off + x]? := by
  obtain ⟨i, hi⟩ := List.mem_iff_getElem?.mp hmem
  exact h.copied i job hi x (h.done hfin hok hi ▸ hx)

/-- Whatever has happened, no cell has been written twice. -/
theorem Inv.countP_touches {trace : List Event} {s : State α} {prog : Nat → Nat}
    (h : Inv jobs early bufs₀ trace s prog) (hapart : Apart jobs) {i : Nat} {job : Job α}
    (hi : jobs[i]? = some job) {x : Nat} (hx : x < job.len) :
    trace.countP (touches jobs job.buf (job.pos + x)) = if x < prog i then 1 else 0 := by
  rw [← h.once i x]
  refine List.countP_congr fun e he => ?_
  cases e with
  | other => exact Iff.rfl
  | wrote j p n =>
    obtain ⟨job', hj, hlen⟩ := h.wrote j p n he
    simp only [touches, covers, hj, decide_eq_true_eq]
    constructor
    · rintro ⟨hbuf, hlow, hhigh⟩
      have hji : j = i := hapart j i job' job hj hi job.buf (job.pos + x) ⟨hbuf, by omega, by omega⟩
        ⟨rfl, by omega, by omega⟩
      subst hji
      cases hj.symm.trans hi
      exact ⟨rfl, by omega, by omega⟩
    · rintro ⟨rfl, hlow, hhigh⟩
      cases hj.symm.trans hi
      exact ⟨rfl, by omega, by omega⟩

theorem Inv.once_at {trace : List Event} {s : State α} {prog : Nat → Nat}
    (h : Inv jobs early bufs₀ trace s prog) (hapart : Apart jobs) (hfin : s.Finished)
    (hok : s.failed = false) {job : Job α} (hmem : job ∈ jobs) {x : Nat} (hx : x < job.len) :
    trace.countP (touches jobs job.buf (job.pos + x)) = 1 := by
  obtain ⟨i, hi⟩ := List.mem_iff_getElem?.mp hmem
  rw [h.countP_touches hapart hi hx, h.done hfin hok hi, if_pos hx]

/-! ## Every run ends -/

/-- What a worker has still to do. -/
def weight (jobs : List (Job α)) : Worker → Nat
  | .idle => 1
  | .on i p => (jobs[i]?.elim 0 Job.len) - p + 2
  | .gone => 0

def State.left (jobs : List (Job α)) (s : State α) : Nat :=
  ((jobs.drop s.cursor).map fun job => job.len + 2).sum + (s.workers.map (weight jobs)).sum

theorem left_set {s : State α} {w : Nat} (hw : s.workers[w]? = some x)
    (h : weight jobs y < weight jobs x) :
    ((s.workers.set w y).map (weight jobs)).sum < (s.workers.map (weight jobs)).sum := by
  have hsum := Lts.sum_set (f := weight jobs) (u := y) hw
  omega

/-- **Each step uses up some of what is left.** -/
theorem Step.left_lt {s s' : State α} {e : Event} (h : Step jobs early s e s') :
    s'.left jobs < s.left jobs := by
  cases h with
  | take w hw hlt =>
    have hdrop := List.drop_eq_getElem_cons hlt
    have hsum := Lts.sum_set (f := weight jobs) (u := .on s.cursor 0) hw
    have hnew : weight jobs (.on s.cursor 0) = jobs[s.cursor].len + 2 := by
      rw [weight, List.getElem?_eq_getElem hlt]
      rfl
    have hold : weight jobs .idle = 1 := rfl
    unfold State.left
    rw [hdrop, List.map_cons, List.sum_cons]
    dsimp only
    omega
  | leave w hw hge =>
    have hsum := left_set (y := .gone) hw
      (show weight jobs .gone < weight jobs .idle from Nat.lt_succ_self 0)
    unfold State.left
    dsimp only
    rw [List.drop_eq_nil_of_le hge, List.drop_eq_nil_of_le (Nat.le_succ_of_le hge)]
    omega
  | copy w i p n job b hw hi _ hn hlen =>
    refine Nat.add_lt_add_left (left_set hw ?_) _
    simp only [weight, hi, Option.elim_some]
    omega
  | stop w i p job hw =>
    refine Nat.add_lt_add_left (left_set hw ?_) _
    simp only [weight]
    omega
  | finish w i p job hw =>
    refine Nat.add_lt_add_left (left_set hw ?_) _
    simp only [weight]
    omega

/-- Until everybody has left, there is a step to take. -/
theorem exists_step {trace : List Event} {s : State α} {prog : Nat → Nat}
    (h : Inv jobs early bufs₀ trace s prog) (hfits : Fits jobs bufs₀) (hfin : ¬ s.Finished) :
    ∃ e s', Step jobs early s e s' := by
  obtain ⟨x, hx, hgone⟩ : ∃ x ∈ s.workers, x ≠ .gone := by
    by_contra hnone
    exact hfin fun x hx => by_contra fun hne => hnone ⟨x, hx, hne⟩
  obtain ⟨w, hw⟩ := List.mem_iff_getElem?.mp hx
  cases x with
  | idle =>
    rcases Nat.lt_or_ge s.cursor jobs.length with hlt | hge
    · exact ⟨_, _, .take s w hw hlt⟩
    · exact ⟨_, _, .leave s w hw hge⟩
  | gone => exact absurd rfl hgone
  | on i p =>
    obtain ⟨-, hlt, hprog⟩ := h.on w i p hw
    have hi := List.getElem?_eq_getElem hlt
    generalize jobs[i] = job at hi
    obtain ⟨hle, -⟩ := h.bound i job hi
    rw [hprog] at hle
    rcases Nat.lt_or_ge p job.len with hmore | hall
    · rcases Nat.lt_or_ge (job.off + p) job.src.length with hsrc | hend
      · obtain ⟨b₀, hb₀, -⟩ := hfits job (List.mem_of_getElem? hi)
        have hsize := congrArg (fun l => l[job.buf]?) h.sizes
        simp only [List.getElem?_map, hb₀, Option.map_some, Option.map_eq_some_iff] at hsize
        obtain ⟨b, hb, -⟩ := hsize
        exact ⟨_, _, .copy s w i p 1 job b hw hi hb Nat.one_pos hmore hsrc⟩
      · exact ⟨_, _, .stop s w i p job hw hi hmore (.inr hend)⟩
    · exact ⟨_, _, .finish s w i p job hw hi (Nat.le_antisymm hle hall)⟩

/-- **A run can always be brought to its end.** -/
theorem exists_finished {s₀ : State α} (hfits : Fits jobs bufs₀) (hapart : Apart jobs)
    (h₀ : Inv jobs early bufs₀ [] s₀ fun _ => 0) {trace : List Event} {s : State α}
    (h : Lts.Run (Step jobs early) s₀ trace s) :
    ∃ more s', Lts.Run (Step jobs early) s₀ (trace ++ more) s' ∧ s'.Finished := by
  generalize hn : s.left jobs = n
  induction n using Nat.strong_induction_on generalizing trace s with
  | h n ih =>
    by_cases hfin : s.Finished
    · exact ⟨[], s, by rwa [List.append_nil], hfin⟩
    · obtain ⟨prog, hinv⟩ := inv_of_run hfits hapart h₀ h
      obtain ⟨e, t, hstep⟩ := exists_step hinv hfits hfin
      obtain ⟨more, s', hrun, hfin'⟩ := ih _ (hn ▸ hstep.left_lt) (h.next hstep) rfl
      rw [List.append_assoc] at hrun
      exact ⟨e :: more, s', hrun, hfin'⟩

/-! ## Tiles -/

/-- `while start < total { c = min(per, total - start); ...; start += c }`, for at most `n`
turns. -/
def tilesN (per total : Nat) : Nat → Nat → List (Nat × Nat)
  | 0, _ => []
  | n + 1, start =>
    if start < total then
      (start, min per (total - start)) :: tilesN per total n (start + min per (total - start))
    else []

/-- `0..total` in pieces of `per`, the last of which may be shorter. -/
def tiles (per total : Nat) : List (Nat × Nat) := tilesN per total total 0

variable {per total : Nat}

theorem tilesN_bounds {n start : Nat} (hper : 0 < per) {t : Nat × Nat}
    (h : t ∈ tilesN per total n start) : start ≤ t.1 ∧ 0 < t.2 ∧ t.1 + t.2 ≤ total := by
  induction n generalizing start with
  | zero => exact absurd h List.not_mem_nil
  | succ n ih =>
    rw [tilesN] at h
    split at h
    next hlt =>
      rcases List.mem_cons.mp h with rfl | h
      · dsimp only
        omega
      · have htail := ih h
        omega
    next => exact absurd h List.not_mem_nil

theorem tilesN_pairwise {n start : Nat} (hper : 0 < per) :
    (tilesN per total n start).Pairwise fun a b => a.1 + a.2 ≤ b.1 := by
  induction n generalizing start with
  | zero => exact List.Pairwise.nil
  | succ n ih =>
    rw [tilesN]
    split
    next => exact List.pairwise_cons.mpr ⟨fun t ht => (tilesN_bounds hper ht).1, ih⟩
    next => exact List.Pairwise.nil

theorem tilesN_cover {n start x : Nat} (hper : 0 < per) (hn : total ≤ start + n)
    (hlow : start ≤ x) (hx : x < total) :
    ∃ t ∈ tilesN per total n start, t.1 ≤ x ∧ x < t.1 + t.2 := by
  induction n generalizing start with
  | zero => omega
  | succ n ih =>
    rw [tilesN, if_pos (by omega)]
    by_cases hfirst : x < start + min per (total - start)
    · exact ⟨_, List.mem_cons_self, hlow, hfirst⟩
    · obtain ⟨t, ht, hcover⟩ := @ih (start + min per (total - start)) (by omega) (by omega)
      exact ⟨t, List.mem_cons_of_mem _ ht, hcover⟩

theorem tiles_bounds (hper : 0 < per) {t : Nat × Nat} (h : t ∈ tiles per total) :
    0 < t.2 ∧ t.1 + t.2 ≤ total := (tilesN_bounds hper h).2

/-- **Every place is in a tile.** -/
theorem tiles_cover {x : Nat} (hper : 0 < per) (hx : x < total) :
    ∃ t ∈ tiles per total, t.1 ≤ x ∧ x < t.1 + t.2 :=
  tilesN_cover hper (Nat.le_of_eq (Nat.zero_add _).symm) (Nat.zero_le x) hx

theorem tiles_pairwise (hper : 0 < per) :
    (tiles per total).Pairwise fun a b => a.1 + a.2 ≤ b.1 := tilesN_pairwise hper

theorem apart_of_pairwise
    (h : jobs.Pairwise fun a b => ∀ k y, a.Has k y → ¬ b.Has k y) : Apart jobs := by
  intro i j a b hi hj k y ha hb
  rcases Nat.lt_trichotomy i j with hij | hij | hij
  · exact absurd hb (pairwise_getElem? h hi hj hij k y ha)
  · exact hij
  · exact absurd ha (pairwise_getElem? h hj hi hij k y hb)
where
  pairwise_getElem? {l : List (Job α)} {R : Job α → Job α → Prop} (h : l.Pairwise R) {i j : Nat}
      {a b : Job α} (hi : l[i]? = some a) (hj : l[j]? = some b) (hij : i < j) : R a b := by
    obtain ⟨hi', rfl⟩ := List.getElem?_eq_some_iff.mp hi
    obtain ⟨hj', rfl⟩ := List.getElem?_eq_some_iff.mp hj
    exact List.pairwise_iff_getElem.mp h i j hi' hj' hij

end

end Drain
