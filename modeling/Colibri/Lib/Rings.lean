import Colibri.Lib.Drain
import Mathlib.Data.List.Count
import Mathlib.Data.List.Nodup

/-!
# Workers that read through rings

A crew drains a list of reads, each worker through a ring of its own that the kernel serves:
the worker queues reads (`sq`), hands them over, and takes the results back (`cq`); the kernel
has some of them in hand (`kern`) and finishes them in any order. A result says only whether
the read went wrong, and a read that does not may still be shorter than what was asked.

`Move` is what a worker does next, `Step` a move of one of them or a read that is finished.
What carries the argument is that of the reads a worker has begun each is queued, in the
kernel's hands or done (`Accounts.perm`), and that it counts them (`Accounts.flight`): so a
worker that leaves content has had all of its reads done, once each (`Inv.all_read`). How much
of each was read is in the trace, and nothing else has changed (`Inv.cell_eq`). Every run ends
(`Step.left_lt`, `exists_step`), and with a kernel that refuses nothing it ends well, however
short the reads are (`exists_finished`).

`Accounts` is the invariant of one ring, with a lemma for each move of its worker, and `Inv` that of
the crew: the accounts of each ring, and what the trace says of the cells.
-/

namespace Rings

open Drain (Job cell overwrite Apart Fits cell_copy length_overwrite)

inductive Phase where
  | opening
  | filling
  | waiting
  | entered
  /-- results still to be looked at, `false` for one that went wrong -/
  | reaping (rs : List Bool)
  | gone
  deriving DecidableEq

structure Ring where
  next : Nat
  inflight : Nat
  sq : List Nat
  kern : List Nat
  cq : List Bool
  phase : Phase

def Ring.new : Ring := ⟨0, 0, [], [], [], .opening⟩

def Ring.reaped (q : Ring) : List Bool :=
  match q.phase with
  | .reaping rs => rs
  | _ => []

/-- Read `j` is queued. -/
def Ring.push (q : Ring) (j : Nat) : Ring :=
  { q with next := q.next + 1, inflight := q.inflight + 1, sq := q.sq ++ [j] }

/-- The first `k` queued reads are the kernel's. -/
def Ring.submit (q : Ring) (k : Nat) : Ring :=
  { q with sq := q.sq.drop k, kern := q.kern ++ q.sq.take k }

/-- A call hands over some of what is queued, if anything is. -/
def Ring.Takes (q : Ring) (k : Nat) : Prop := k ≤ q.sq.length ∧ (q.sq ≠ [] → 0 < k)

/-- Nothing more is queued at the start. -/
def Ring.Full (depth : Nat) (hand : List Nat) (q : Ring) : Prop :=
  hand.length ≤ q.next ∨ depth ≤ q.inflight ∨ depth ≤ q.sq.length

/-- The worker is at a call that can go wrong. -/
def Ring.AtCall (depth : Nat) (hand : List Nat) (q : Ring) : Prop :=
  match q.phase with
  | .opening => True
  | .filling => q.Full depth hand
  | .waiting => 0 < q.inflight
  | .entered => q.cq = []
  | .reaping rs => rs = []
  | .gone => False

section

variable {α : Type}

/-- What a worker does next with its ring, and whether it is still content. `hand` is what it
has to read; `fails` says whether a call may go wrong. -/
inductive Move (depth : Nat) (fails : Prop) (hand : List Nat) : Ring → Bool → Ring → Prop where
  | opened (q : Ring) (hp : q.phase = .opening) :
    Move depth fails hand q true { q with phase := .filling }
  | push (q : Ring) (j : Nat) (hp : q.phase = .filling) (hj : hand[q.next]? = some j)
    (hroom : q.inflight < depth) (hsq : q.sq.length < depth) :
    Move depth fails hand q true (q.push j)
  | filled (q : Ring) (k : Nat) (hp : q.phase = .filling) (hfull : q.Full depth hand)
    (hk : q.Takes k) : Move depth fails hand q true { q.submit k with phase := .waiting }
  | leave (q : Ring) (hp : q.phase = .waiting) (h0 : q.inflight = 0) :
    Move depth fails hand q true { q with phase := .gone }
  | enter (q : Ring) (k : Nat) (hp : q.phase = .waiting) (h0 : 0 < q.inflight)
    (hk : q.Takes k) : Move depth fails hand q true { q.submit k with phase := .entered }
  | reap (q : Ring) (hp : q.phase = .entered) (hcq : q.cq ≠ []) :
    Move depth fails hand q true { q with cq := [], phase := .reaping q.cq }
  | good (q : Ring) (j : Nat) (rs : List Bool) (hp : q.phase = .reaping (true :: rs))
    (hj : hand[q.next]? = some j) (hsq : q.sq.length < depth) :
    Move depth fails hand q true
      ({ q with inflight := q.inflight - 1, phase := .reaping rs }.push j)
  | last (q : Ring) (rs : List Bool) (hp : q.phase = .reaping (true :: rs))
    (hnone : hand.length ≤ q.next ∨ depth ≤ q.sq.length) :
    Move depth fails hand q true { q with inflight := q.inflight - 1, phase := .reaping rs }
  | bad (q : Ring) (rs : List Bool) (hp : q.phase = .reaping (false :: rs)) :
    Move depth fails hand q false { q with inflight := q.inflight - 1, phase := .gone }
  | again (q : Ring) (k : Nat) (hp : q.phase = .reaping []) (hk : q.Takes k) :
    Move depth fails hand q true { q.submit k with phase := .waiting }
  | refused (q : Ring) (hf : fails) (hp : q.AtCall depth hand) :
    Move depth fails hand q false { q with phase := .gone }

/-- What an entry can ask for: its length is a `u32`. -/
def asked (job : Job α) : Nat := job.len % 2 ^ 32

theorem asked_le (job : Job α) : asked job ≤ job.len := Nat.mod_le _ _

structure State (α : Type) where
  rings : List Ring
  bufs : List (List α)
  ok : Bool

inductive Event where
  /-- read `j` of worker `w` is finished, with `n` cells -/
  | read (w j n : Nat) (good : Bool)
  | other

inductive Step (jobs : List (Job α)) (hand : Nat → List Nat) (depth : Nat) (fails : Prop) :
    State α → Event → State α → Prop where
  | move (s : State α) (w : Nat) (q q' : Ring) (content : Bool) (hw : s.rings[w]? = some q)
    (hm : Move depth fails (hand w) q content q') :
    Step jobs hand depth fails s .other
      { s with rings := s.rings.set w q', ok := s.ok && content }
  | read (s : State α) (w j n : Nat) (q : Ring) (before after : List Nat) (good : Bool)
    (job : Job α) (b : List α) (hw : s.rings[w]? = some q) (hk : q.kern = before ++ j :: after)
    (hj : jobs[j]? = some job) (hb : s.bufs[job.buf]? = some b) (hlen : n ≤ asked job)
    (hsrc : n = 0 ∨ job.off + n ≤ job.src.length) (hgood : good = false → fails) :
    Step jobs hand depth fails s (.read w j n good)
      { s with
        rings := s.rings.set w { q with kern := before ++ after, cq := q.cq ++ [good] }
        bufs := s.bufs.set job.buf (overwrite b job.pos ((job.src.drop job.off).take n)) }

def State.start (bufs : List (List α)) (workers : Nat) : State α :=
  ⟨List.replicate workers .new, bufs, true⟩

def State.Finished (s : State α) : Prop := ∀ q ∈ s.rings, q.phase = .gone

/-! ## What the trace tells -/

/-- The read, if worker `w` had it. -/
def ofWorker (w : Nat) : Event → Option Nat
  | .read v j _ _ => if v = w then some j else none
  | .other => none

/-- A read of worker `w` that went wrong. -/
def wrong (w : Nat) : Event → Bool
  | .read v _ _ good => decide (v = w) && !good
  | .other => false

/-- The event is read `j`. -/
def isRead (j : Nat) : Event → Bool
  | .read _ i _ _ => decide (i = j)
  | .other => false

/-- The event brings cell `x` of read `j`. -/
def brings (j x : Nat) : Event → Bool
  | .read _ i n _ => decide (i = j ∧ x < n)
  | .other => false

/-- Every read is in one hand, once. -/
structure Dealt (hand : Nat → List Nat) (workers n : Nat) : Prop where
  lt : ∀ w, ∀ j ∈ hand w, j < n
  nodup : ∀ w, (hand w).Nodup
  alone : ∀ w w' j, j ∈ hand w → j ∈ hand w' → w = w'
  all : ∀ j < n, ∃ w < workers, j ∈ hand w

/-! ## One ring -/

/-- How the reads of a worker stand: `done` are finished, `wrongs` of them badly. -/
structure Accounts (depth : Nat) (hand done : List Nat) (wrongs : Nat) (ok : Bool) (q : Ring) :
    Prop where
  next_le : q.next ≤ hand.length
  perm : (q.sq ++ q.kern ++ done).Perm (hand.take q.next)
  room : q.inflight ≤ depth
  flight : q.phase ≠ .gone →
    q.inflight = q.sq.length + q.kern.length + q.cq.length + q.reaped.length
  busy : q.phase ≠ .opening → q.phase ≠ .filling → q.phase ≠ .gone → q.next < hand.length →
    0 < q.inflight
  awake : q.phase = .entered → q.kern ≠ [] ∨ q.cq ≠ []
  ending : ok = true → q.phase = .gone →
    q.next = hand.length ∧ q.sq = [] ∧ q.kern = [] ∧ q.cq = []
  count : ok = true → wrongs = q.cq.count false + q.reaped.count false

theorem accounts_new (depth : Nat) (hand : List Nat) : Accounts depth hand [] 0 true .new := by
  refine ⟨Nat.zero_le _, List.Perm.refl _, Nat.zero_le _, fun _ => rfl, ?_, nofun, nofun,
    fun _ => rfl⟩
  exact fun h => absurd rfl h

section

variable {depth wrongs k : Nat} {fails : Prop} {hand done : List Nat} {ok : Bool} {q q' : Ring}

theorem Accounts.weaken (h : Accounts depth hand done wrongs ok q) (content : Bool) :
    Accounts depth hand done wrongs (ok && content) q :=
  { h with
    ending := fun hok => h.ending (Bool.and_eq_true_iff.mp hok).1
    count := fun hok => h.count (Bool.and_eq_true_iff.mp hok).1 }

/-- Handing over moves nothing but reads from one list to the other. -/
theorem submit_perm (q : Ring) (k : Nat) (done : List Nat) :
    ((q.submit k).sq ++ (q.submit k).kern ++ done).Perm (q.sq ++ q.kern ++ done) := by
  refine List.Perm.append_right done ?_
  calc (q.sq.drop k ++ (q.kern ++ q.sq.take k)).Perm (q.kern ++ q.sq.take k ++ q.sq.drop k) :=
        List.perm_append_comm
    _ |>.Perm (q.kern ++ q.sq) := by rw [List.append_assoc, List.take_append_drop]
    _ |>.Perm (q.sq ++ q.kern) := List.perm_append_comm

theorem length_submit (hk : q.Takes k) : (q.submit k).sq.length + (q.submit k).kern.length =
    q.sq.length + q.kern.length := by
  have hle := hk.1
  simp only [Ring.submit, List.length_drop, List.length_append, List.length_take]
  omega

/-- What is queued is now also counted as begun. -/
theorem push_perm {j : Nat} (hj : hand[q.next]? = some j)
    (h : (q.sq ++ q.kern ++ done).Perm (hand.take q.next)) :
    ((q.push j).sq ++ (q.push j).kern ++ done).Perm (hand.take (q.push j).next) := by
  have hlt := (List.getElem?_eq_some_iff.mp hj).1
  have htake : hand.take (q.next + 1) = hand.take q.next ++ [j] := by
    rw [List.take_add_one, hj]
    rfl
  show (q.sq ++ [j] ++ q.kern ++ done).Perm (hand.take (q.next + 1))
  rw [htake]
  calc (q.sq ++ [j] ++ q.kern ++ done).Perm (q.sq ++ (q.kern ++ done) ++ [j]) := by
        rw [List.append_assoc, List.append_assoc, List.append_assoc]
        exact List.perm_append_comm.append_left q.sq
    _ |>.Perm (hand.take q.next ++ [j]) := by
        rw [← List.append_assoc q.sq]
        exact h.append_right [j]

theorem reaped_of {rs : List Bool} (hp : q.phase = .reaping rs) : q.reaped = rs := by
  rw [Ring.reaped, hp]

theorem reaped_nil (hp : ∀ rs, q.phase ≠ .reaping rs) : q.reaped = [] := by
  unfold Ring.reaped
  split
  next rs hrs => exact absurd hrs (hp rs)
  next => rfl

/-- A call that hands over what is queued. -/
theorem Accounts.submit (h : Accounts depth hand done wrongs ok q) (hk : q.Takes k) {p : Phase}
    (hp : p = .waiting ∨ p = .entered) (hlive : q.phase ≠ .gone) (hreaped : q.reaped = [])
    (hbusy : q.next < hand.length → 0 < q.inflight) (hawake : p = .entered → 0 < q.inflight) :
    Accounts depth hand done wrongs ok { q.submit k with phase := p } := by
  have hnew : ({ q.submit k with phase := p } : Ring).reaped = [] :=
    reaped_nil (by rcases hp with rfl | rfl <;> nofun)
  have hgone : p ≠ .gone := by rcases hp with rfl | rfl <;> nofun
  have hflight := h.flight hlive
  have hlen := length_submit hk
  have hcount := h.count
  rw [hreaped] at hflight hcount
  refine ⟨h.next_le, (submit_perm q k done).trans h.perm, h.room, fun _ => ?_, fun _ _ _ => hbusy,
    fun he => ?_, fun _ he => absurd he hgone, ?_⟩
  · rw [hnew]
    exact hflight.trans (by rw [← hlen]; rfl)
  · -- what was queued is in the kernel's hands, or something was there before
    have hpos := hawake he
    show q.kern ++ q.sq.take k ≠ [] ∨ q.cq ≠ []
    by_cases hsq : q.sq = []
    · rw [hsq, List.length_nil, List.length_nil] at hflight
      by_cases hkern : q.kern = []
      · right
        intro hcq
        rw [hkern, hcq] at hflight
        simp only [List.length_nil] at hflight
        omega
      · exact .inl (List.append_ne_nil_of_left_ne_nil hkern _)
    · have hk0 := hk.2 hsq
      refine .inl (List.append_ne_nil_of_right_ne_nil _ ?_)
      rw [Ne, List.take_eq_nil_iff]
      rintro (hzero | hnil)
      · omega
      · exact hsq hnil
  · rw [hnew]
    exact hcount

theorem Accounts.giveUp (h : Accounts depth hand done wrongs ok q) {n : Nat}
    (hn : n ≤ q.inflight) :
    Accounts depth hand done wrongs (ok && false) { q with inflight := n, phase := .gone } :=
  ⟨h.next_le, h.perm, hn.trans h.room, fun hlive => absurd rfl hlive,
    fun _ _ hlive => absurd rfl hlive, nofun,
    fun hok => absurd hok (by simp), fun hok => absurd hok (by simp)⟩

/-- **What a worker does keeps its accounts.** -/
theorem Accounts.move (h : Accounts depth hand done wrongs ok q) (hdepth : 0 < depth)
    {content : Bool} (hm : Move depth fails hand q content q') :
    Accounts depth hand done wrongs (ok && content) q' := by
  cases hm with
  | opened hp =>
    have hcount := h.count
    have hflight := h.flight
    rw [reaped_nil (by simp [hp])] at hcount hflight
    exact ⟨h.next_le, h.perm, h.room, fun _ => hflight (by simp [hp]), fun _ hfill => absurd rfl hfill,
      nofun, nofun, fun hok => hcount (Bool.and_eq_true_iff.mp hok).1⟩
  | push j hp hj hroom hsq =>
    have hlt := (List.getElem?_eq_some_iff.mp hj).1
    have hflight := h.flight (by simp [hp])
    refine ⟨hlt, push_perm hj h.perm, hroom, fun _ => ?_, fun _ _ _ _ => Nat.succ_pos _, ?_, ?_,
      fun hok => h.count (Bool.and_eq_true_iff.mp hok).1⟩
    · show q.inflight + 1 = (q.sq ++ [j]).length + q.kern.length + q.cq.length + q.reaped.length
      rw [List.length_append, List.length_singleton]
      omega
    · exact fun hphase => by cases hp.symm.trans hphase
    · exact fun _ hphase => by cases hp.symm.trans hphase
  | filled k hp hfull hk =>
    have hflight := h.flight (by simp [hp])
    refine (h.weaken true).submit hk (.inl rfl) (by simp [hp]) (reaped_nil (by simp [hp])) ?_ nofun
    intro hlt
    rcases hfull with hend | hroom | hsq
    · omega
    · omega
    · omega
  -- nothing is in flight, so all that was handed out has come back
  | leave hp h0 =>
    have hflight := h.flight (by simp [hp])
    have hreaped : q.reaped = [] := reaped_nil (by simp [hp])
    have hcount := h.count
    have hbusy := h.busy (by simp [hp]) (by simp [hp]) (by simp [hp])
    rw [hreaped] at hflight hcount
    have hsq : q.sq = [] := List.length_eq_zero_iff.mp (by omega)
    have hkern : q.kern = [] := List.length_eq_zero_iff.mp (by omega)
    have hcq : q.cq = [] := List.length_eq_zero_iff.mp (by omega)
    have hnext : q.next = hand.length := by
      have hle := h.next_le
      by_contra hne
      exact absurd (hbusy (by omega)) (by omega)
    exact ⟨h.next_le, h.perm, h.room, fun hlive => absurd rfl hlive,
      fun _ _ hlive => absurd rfl hlive, nofun, fun _ _ => ⟨hnext, hsq, hkern, hcq⟩,
      fun hok => hcount (Bool.and_eq_true_iff.mp hok).1⟩
  | enter k hp h0 hk =>
    exact (h.weaken true).submit hk (.inr rfl) (by simp [hp]) (reaped_nil (by simp [hp]))
      (fun _ => h0) fun _ => h0
  | reap hp hcq =>
    have hflight := h.flight (by simp [hp])
    have hreaped : q.reaped = [] := reaped_nil (by simp [hp])
    have hcount := h.count
    rw [hreaped] at hflight hcount
    refine ⟨h.next_le, h.perm, h.room, fun _ => ?_,
      fun _ _ _ => h.busy (by simp [hp]) (by simp [hp]) (by simp [hp]), nofun, nofun,
      fun hok => ?_⟩
    · exact hflight.trans (by simp [Ring.reaped])
    · exact (hcount (Bool.and_eq_true_iff.mp hok).1).trans (by simp [Ring.reaped])
  | good j rs hp hj hsq =>
    have hlt := (List.getElem?_eq_some_iff.mp hj).1
    have hflight := h.flight (by simp [hp])
    have hcount := h.count
    have hroom := h.room
    rw [reaped_of hp, List.length_cons] at hflight
    rw [reaped_of hp] at hcount
    refine ⟨hlt, push_perm hj h.perm, ?_, fun _ => ?_, fun _ _ _ _ => Nat.succ_pos _, nofun, nofun,
      fun hok => ?_⟩
    · show q.inflight - 1 + 1 ≤ depth
      omega
    · show q.inflight - 1 + 1 = (q.sq ++ [j]).length + q.kern.length + q.cq.length + rs.length
      rw [List.length_append, List.length_singleton]
      omega
    · exact (hcount (Bool.and_eq_true_iff.mp hok).1).trans (by rw [List.count_cons]; rfl)
  | last rs hp hnone =>
    have hflight := h.flight (by simp [hp])
    have hcount := h.count
    have hroom := h.room
    rw [reaped_of hp, List.length_cons] at hflight
    rw [reaped_of hp] at hcount
    refine ⟨h.next_le, h.perm, (Nat.sub_le _ _).trans hroom, fun _ => ?_, ?_, nofun, nofun,
      fun hok => ?_⟩
    · show q.inflight - 1 = q.sq.length + q.kern.length + q.cq.length + rs.length
      omega
    · -- there is always room for one more: only the end of the hand keeps it from being queued
      intro _ _ _ hlt
      have hnext : q.next < hand.length := hlt
      rcases hnone with hend | hsq
      · omega
      · omega
    · exact (hcount (Bool.and_eq_true_iff.mp hok).1).trans (by rw [List.count_cons]; rfl)
  | bad rs hp => exact h.giveUp (Nat.sub_le _ _)
  | again k hp hk =>
    exact (h.weaken true).submit hk (.inl rfl) (by simp [hp]) (reaped_of hp)
      (h.busy (by simp [hp]) (by simp [hp]) (by simp [hp])) nofun
  | refused hf hp => exact h.giveUp (Nat.le_refl _)

/-- **A read that is finished** is one of the kernel's less, and one more that is done. -/
theorem Accounts.read (h : Accounts depth hand done wrongs ok q) {before after : List Nat} {j : Nat}
    (hk : q.kern = before ++ j :: after) (good : Bool) :
    Accounts depth hand (done ++ [j]) (wrongs + if good then 0 else 1) ok
      { q with kern := before ++ after, cq := q.cq ++ [good] } := by
  have hmid : (before ++ j :: after).Perm (j :: (before ++ after)) := List.perm_middle
  have hperm : (before ++ after ++ (done ++ [j])).Perm (before ++ j :: after ++ done) := by
    calc (before ++ after ++ (done ++ [j])).Perm ([j] ++ (before ++ after ++ done)) := by
          rw [← List.append_assoc]
          exact List.perm_append_comm
      _ |>.Perm (before ++ j :: after ++ done) := by
          exact hmid.symm.append_right done
  refine ⟨h.next_le, ?_, h.room, fun hlive => ?_, h.busy, fun _ => .inr (by simp), ?_, ?_⟩
  · refine List.Perm.trans ?_ h.perm
    rw [hk, List.append_assoc, List.append_assoc q.sq]
    exact hperm.append_left q.sq
  · have hflight := h.flight hlive
    rw [hk, List.length_append, List.length_cons] at hflight
    show q.inflight = q.sq.length + (before ++ after).length + (q.cq ++ [good]).length +
      q.reaped.length
    rw [List.length_append, List.length_append, List.length_singleton]
    omega
  · -- a worker that left content had nothing in the kernel's hands
    intro hok hgone
    have hnone := (h.ending hok hgone).2.2.1
    rw [hk] at hnone
    exact absurd hnone (by simp)
  · intro hok
    show _ = (q.cq ++ [good]).count false + q.reaped.count false
    rw [h.count hok, List.count_append]
    cases good
    · simp
      omega
    · simp

end

/-! ## All of them -/

variable {jobs : List (Job α)} {hand : Nat → List Nat} {depth : Nat} {fails : Prop}
  {bufs₀ : List (List α)}

/-- How things stand after the steps `trace`. -/
structure Inv (jobs : List (Job α)) (hand : Nat → List Nat) (depth : Nat) (bufs₀ : List (List α))
    (trace : List Event) (s : State α) : Prop where
  ring : ∀ (w : Nat) (q : Ring), s.rings[w]? = some q → Accounts depth (hand w)
    (trace.filterMap (ofWorker w)) (trace.countP (wrong w)) s.ok q
  cells : ∀ (j : Nat) (job : Job α), jobs[j]? = some job → ∀ x < job.len,
    cell s.bufs job.buf (job.pos + x) = if trace.any (brings j x) then job.src[job.off + x]?
      else cell bufs₀ job.buf (job.pos + x)
  kept : ∀ k y, (∀ job ∈ jobs, ¬ job.Has k y) → cell s.bufs k y = cell bufs₀ k y
  sizes : s.bufs.map List.length = bufs₀.map List.length
  logged : ∀ (w j n : Nat) (good : Bool), Event.read w j n good ∈ trace → w < s.rings.length
  brought : ∀ (w j n : Nat) (good : Bool), Event.read w j n good ∈ trace →
    ∃ job, jobs[j]? = some job ∧ (n = 0 ∨ job.off + n ≤ job.src.length)

theorem inv_start (workers : Nat) :
    Inv jobs hand depth bufs₀ [] (.start bufs₀ workers) := by
  refine ⟨fun w q hw => ?_, fun _ _ _ _ _ => rfl, fun _ _ _ => rfl, rfl, ?_, ?_⟩
  · have hnew : q = .new := List.eq_of_mem_replicate (List.mem_of_getElem? hw)
    rw [hnew]
    exact accounts_new depth (hand w)
  · exact fun w j n good hmem => absurd hmem List.not_mem_nil
  · exact fun w j n good hmem => absurd hmem List.not_mem_nil

variable {good : Bool} {bufs : List (List α)} {workers most : Nat}

theorem mem_trace_other {trace : List Event} {w j n : Nat}
    (h : Event.read w j n good ∈ trace ++ [.other]) : Event.read w j n good ∈ trace := by
  rcases List.mem_append.mp h with h | h
  · exact h
  · cases List.mem_singleton.mp h

theorem any_other {trace : List Event} {j x : Nat} :
    (trace ++ [Event.other]).any (brings j x) = trace.any (brings j x) := by
  rw [List.any_append]
  exact Bool.or_false _

/-- A read leaves the first `n` cells of its own job, and nothing anywhere else. -/
theorem cell_read {job : Job α} {b : List α} {n : Nat}
    (hb : bufs[job.buf]? = some b) (hfit : job.pos + job.len ≤ b.length) (hlen : n ≤ job.len)
    (hsrc : n = 0 ∨ job.off + n ≤ job.src.length) (k y : Nat) :
    cell (bufs.set job.buf (overwrite b job.pos ((job.src.drop job.off).take n))) k y
      = if job.buf = k ∧ job.pos ≤ y ∧ y < job.pos + n then job.src[job.off + (y - job.pos)]?
        else cell bufs k y := by
  rcases hsrc with rfl | hsrc
  · have hsame : overwrite b job.pos ((job.src.drop job.off).take 0) = b := by
      rw [List.take_zero, overwrite, List.nil_append]
      exact List.take_append_drop job.pos b
    rw [hsame, if_neg (by omega), Drain.cell_set hb]
    split
    next hk => rw [cell, ← hk, hb]; rfl
    next => rfl
  · exact cell_copy (p := 0) hb hfit (by omega) (by omega) k y

theorem buf_size (hfits : Fits jobs bufs₀)
    (hsizes : bufs.map List.length = bufs₀.map List.length) {job : Job α} (hjob : job ∈ jobs)
    {b : List α} (hb : bufs[job.buf]? = some b) : job.pos + job.len ≤ b.length := by
  obtain ⟨b₀, hb₀, hle⟩ := hfits job hjob
  have hsize := congrArg (fun l => l[job.buf]?) hsizes
  simp only [List.getElem?_map, hb, hb₀, Option.map_some, Option.some.injEq] at hsize
  omega

/-- **Every step keeps it.** -/
theorem Inv.step {trace : List Event} {s s' : State α} {e : Event}
    (h : Inv jobs hand depth bufs₀ trace s) (hfits : Fits jobs bufs₀) (hapart : Apart jobs)
    (hdepth : 0 < depth) (hstep : Step jobs hand depth fails s e s') :
    Inv jobs hand depth bufs₀ (trace ++ [e]) s' := by
  cases hstep with
  | move w q q' content hw hm =>
    refine ⟨fun v r hv => ?_, fun j job hj x hx => ?_, h.kept, h.sizes, fun v j n good hmem => ?_,
      fun v j n good hmem => h.brought v j n good (mem_trace_other hmem)⟩
    · rw [List.filterMap_append, List.countP_append]
      show Accounts depth (hand v) (trace.filterMap (ofWorker v) ++ [])
        (trace.countP (wrong v) + 0) (s.ok && content) r
      rw [List.append_nil, Nat.add_zero]
      rcases Lts.set_cases hw hv with ⟨rfl, rfl⟩ | ⟨-, hv⟩
      · exact (h.ring w q hw).move hdepth hm
      · exact (h.ring v r hv).weaken content
    · rw [any_other]
      exact h.cells j job hj x hx
    · rw [List.length_set]
      exact h.logged v j n good (mem_trace_other hmem)
  -- only a read changes cells, and only those of its own job
  | read w j n q before after good job b hw hk hj hb hlen hsrc hgood =>
    have hfit := buf_size hfits h.sizes (List.mem_of_getElem? hj) hb
    replace hlen := hlen.trans (asked_le job)
    have hcell := cell_read hb hfit hlen hsrc
    refine ⟨fun v r hv => ?_, fun i job' hi x hx => ?_, fun k y hnone => ?_, ?_,
      fun v i m g hmem => ?_, fun v i m g hmem => ?_⟩
    · rw [List.filterMap_append, List.countP_append]
      rcases Lts.set_cases hw hv with ⟨rfl, rfl⟩ | ⟨hne, hv⟩
      · have hdone : [Event.read w j n good].filterMap (ofWorker w) = [j] := by
          simp [ofWorker]
        have hwrong : [Event.read w j n good].countP (wrong w) = if good then 0 else 1 := by
          cases good <;> simp [wrong]
        rw [hdone, hwrong]
        exact (h.ring w q hw).read hk good
      · have hdone : [Event.read w j n good].filterMap (ofWorker v) = [] := by
          simp [ofWorker, hne]
        have hwrong : [Event.read w j n good].countP (wrong v) = 0 := by
          simp [wrong, hne]
        rw [hdone, hwrong, List.append_nil, Nat.add_zero]
        exact h.ring v r hv
    · dsimp only
      rw [hcell, List.any_append, List.any_cons, List.any_nil, Bool.or_false]
      by_cases hji : j = i
      · subst hji
        cases hj.symm.trans hi
        have hbrings : brings j x (.read w j n good) = decide (x < n) := by
          simp [brings]
        rw [hbrings, Nat.add_sub_cancel_left]
        by_cases hxn : x < n
        · rw [if_pos ⟨rfl, by omega, by omega⟩, decide_eq_true hxn, Bool.or_true, if_pos rfl]
        · rw [if_neg (by omega), decide_eq_false hxn, Bool.or_false]
          exact h.cells j _ hj x hx
      · have hbrings : brings i x (.read w j n good) = false := by
          simp [brings, hji]
        rw [hbrings, Bool.or_false, if_neg]
        · exact h.cells i job' hi x hx
        · -- another job's cell is not written
          rintro ⟨hbuf, hlow, hhigh⟩
          exact hji (hapart j i job job' hj hi job'.buf (job'.pos + x) ⟨hbuf, hlow, by omega⟩
            ⟨rfl, by omega, by omega⟩)
    · dsimp only
      rw [hcell, if_neg]
      · exact h.kept k y hnone
      · rintro ⟨hbuf, hlow, hhigh⟩
        exact hnone job (List.mem_of_getElem? hj) ⟨hbuf, hlow, by omega⟩
    · dsimp only
      have hsize : (overwrite b job.pos ((job.src.drop job.off).take n)).length = b.length :=
        length_overwrite (by rw [List.length_take, List.length_drop]; omega)
      rw [List.map_set, hsize]
      refine (List.ext_getElem? fun k => ?_).trans h.sizes
      by_cases hkb : job.buf = k
      · subst hkb
        have hlt := (List.getElem?_eq_some_iff.mp hb).1
        rw [List.getElem?_set_self (by rw [List.length_map]; exact hlt), List.getElem?_map, hb]
        rfl
      · rw [List.getElem?_set_ne hkb]
    · rw [List.length_set]
      rcases List.mem_append.mp hmem with hmem | hmem
      · exact h.logged v i m g hmem
      · cases List.mem_singleton.mp hmem
        exact (List.getElem?_eq_some_iff.mp hw).1
    · rcases List.mem_append.mp hmem with hmem | hmem
      · exact h.brought v i m g hmem
      · cases List.mem_singleton.mp hmem
        exact ⟨job, hj, hsrc⟩

theorem inv_of_run {s : State α} {trace : List Event} (hfits : Fits jobs bufs₀)
    (hapart : Apart jobs) (hdepth : 0 < depth)
    (h : Lts.Run (Step jobs hand depth fails) (.start bufs₀ workers) trace s) :
    Inv jobs hand depth bufs₀ trace s :=
  h.trace_inv (I := Inv jobs hand depth bufs₀) (inv_start workers)
    fun _ _ _ _ hs hstep => hs.step hfits hapart hdepth hstep

theorem length_rings {s : State α} {trace : List Event}
    (h : Lts.Run (Step jobs hand depth fails) (.start bufs₀ workers) trace s) :
    s.rings.length = workers := by
  refine h.inv (I := fun s => s.rings.length = workers) List.length_replicate ?_
  intro s e t hs hstep
  cases hstep with
  | move => exact List.length_set.trans hs
  | read => exact List.length_set.trans hs

/-! ## When everybody has left -/

variable {trace : List Event} {s : State α}

theorem Inv.owner (h : Inv jobs hand depth bufs₀ trace s) {w j n : Nat}
    (he : Event.read w j n good ∈ trace) : j ∈ hand w := by
  have hacc := h.ring w _ (List.getElem?_eq_getElem (h.logged w j n good he))
  have hdone : j ∈ trace.filterMap (ofWorker w) :=
    List.mem_filterMap.mpr ⟨_, he, by simp [ofWorker]⟩
  exact List.mem_of_mem_take (hacc.perm.subset (List.mem_append_right _ hdone))

/-- **Each read is done exactly once.** -/
theorem Inv.all_read (h : Inv jobs hand depth bufs₀ trace s) {n : Nat}
    (hdealt : Dealt hand s.rings.length n) (hfin : s.Finished) (hok : s.ok = true) {j : Nat}
    (hj : j < n) : trace.countP (isRead j) = 1 := by
  obtain ⟨w, hw, hmem⟩ := hdealt.all j hj
  have hring := List.getElem?_eq_getElem hw
  have hacc := h.ring w _ hring
  obtain ⟨hnext, hsq, hkern, -⟩ := hacc.ending hok (hfin _ (List.getElem_mem hw))
  have hperm := hacc.perm
  rw [hsq, hkern, hnext, List.take_length, List.nil_append, List.nil_append] at hperm
  have hone : (trace.filterMap (ofWorker w)).count j = 1 := by
    rw [hperm.count_eq j, List.count_eq_one_of_mem (hdealt.nodup w) hmem]
  rw [← hone, List.count_filterMap]
  refine List.countP_congr fun e he => ?_
  cases e with
  | other => simp [isRead, ofWorker]
  | read v i m good =>
    simp only [isRead, ofWorker, decide_eq_true_eq, beq_iff_eq]
    constructor
    · rintro rfl
      rw [if_pos (hdealt.alone v w i (h.owner he) hmem)]
    · intro hsome
      split at hsome
      · exact Option.some.inj hsome
      · cases hsome

/-- **None of them went wrong.** -/
theorem Inv.all_good (h : Inv jobs hand depth bufs₀ trace s) (hfin : s.Finished)
    (hok : s.ok = true) {w j n : Nat} (he : Event.read w j n good ∈ trace) :
    good = true := by
  have hlt := h.logged w j n good he
  have hring := List.getElem?_eq_getElem hlt
  have hacc := h.ring w _ hring
  have hgone := hfin _ (List.getElem_mem hlt)
  have hzero := hacc.count hok
  rw [(hacc.ending hok hgone).2.2.2, reaped_nil (by simp [hgone])] at hzero
  have hnot := List.countP_eq_zero.mp hzero _ he
  cases good
  · simp [wrong] at hnot
  · rfl

theorem eq_of_countP_one {p : Event → Bool} (h : trace.countP p = 1) {a b : Event} (ha : a ∈ trace)
    (hb : b ∈ trace) (hpa : p a = true) (hpb : p b = true) : a = b := by
  rw [List.countP_eq_length_filter] at h
  obtain ⟨c, hc⟩ := List.length_eq_one_iff.mp h
  have hac : a ∈ trace.filter p := List.mem_filter.mpr ⟨ha, hpa⟩
  have hbc : b ∈ trace.filter p := List.mem_filter.mpr ⟨hb, hpb⟩
  rw [hc, List.mem_singleton] at hac hbc
  exact hac.trans hbc.symm

/-- **What a read has left in its cells**: what it brought, and behind that what was there. -/
theorem Inv.cell_eq (h : Inv jobs hand depth bufs₀ trace s)
    (hdealt : Dealt hand s.rings.length jobs.length) (hfin : s.Finished) (hok : s.ok = true)
    {w j n : Nat} (he : Event.read w j n good ∈ trace) {job : Job α}
    (hj : jobs[j]? = some job) {x : Nat} (hx : x < job.len) :
    cell s.bufs job.buf (job.pos + x) =
      if x < n then job.src[job.off + x]? else cell bufs₀ job.buf (job.pos + x) := by
  have hone := h.all_read hdealt hfin hok (List.getElem?_eq_some_iff.mp hj).1
  have hany : trace.any (brings j x) = true ↔ x < n := by
    rw [List.any_eq_true]
    constructor
    · rintro ⟨e, hmem, hbrings⟩
      cases e with
      | other => cases hbrings
      | read v i m g =>
        obtain ⟨rfl, hxm⟩ := of_decide_eq_true hbrings
        have hsame := eq_of_countP_one hone hmem he (by simp [isRead]) (by simp [isRead])
        cases hsame
        exact hxm
    · exact fun hxn => ⟨_, he, by simp [brings, hxn]⟩
  rw [h.cells j job hj x hx]
  exact if_congr hany rfl rfl

/-- **Every job was read**, if all workers left content. -/
theorem Inv.exists_read (h : Inv jobs hand depth bufs₀ trace s)
    (hdealt : Dealt hand s.rings.length jobs.length) (hfin : s.Finished) (hok : s.ok = true)
    {j : Nat} (hj : j < jobs.length) : ∃ w n, Event.read w j n true ∈ trace := by
  have hone := h.all_read hdealt hfin hok hj
  obtain ⟨e, he, hread⟩ := List.countP_pos_iff.mp (hone ▸ Nat.one_pos)
  cases e with
  | other => cases hread
  | read w i n good =>
    obtain rfl := of_decide_eq_true hread
    obtain rfl := h.all_good hfin hok he
    exact ⟨w, n, he⟩

/-! ## Every run ends -/

def Phase.weight : Phase → Nat
  | .opening => 4
  | .filling => 3
  | .waiting => 2
  | .entered => 1
  | .reaping _ => 3
  | .gone => 0

/-- What is left to do with a ring, for a hand of at most `most`. -/
def Ring.weight (most : Nat) (q : Ring) : Nat :=
  3 * (5 * (most - q.next) + 4 * q.sq.length + 3 * q.kern.length + 2 * q.cq.length +
    q.reaped.length) + q.phase.weight

def State.left (most : Nat) (s : State α) : Nat := (s.rings.map (Ring.weight most)).sum

theorem weight_submit {q : Ring} {k : Nat} (hk : q.Takes k) {p : Phase}
    (hp : p.weight < q.phase.weight) (hnew : ∀ rs, p ≠ .reaping rs) :
    ({ q.submit k with phase := p } : Ring).weight most < q.weight most := by
  have hlen := length_submit hk
  have hle := hk.1
  have hreaped : ({ q.submit k with phase := p } : Ring).reaped = [] := reaped_nil hnew
  simp only [Ring.submit, List.length_drop] at hlen
  unfold Ring.weight
  rw [hreaped]
  simp only [Ring.submit, List.length_drop, List.length_nil]
  omega

/-- A move uses up some of what is left. -/
theorem Move.weight_lt {hand : List Nat} {q q' : Ring} {content : Bool}
    (hm : Move depth fails hand q content q') (hmost : hand.length ≤ most) :
    q'.weight most < q.weight most := by
  cases hm with
  | opened hp => simp [Ring.weight, Phase.weight, hp, Ring.reaped]
  | push j hp hj =>
    have hlt := (List.getElem?_eq_some_iff.mp hj).1
    simp only [Ring.weight, Ring.push, Ring.reaped, hp, List.length_append, List.length_singleton]
    omega
  | filled k hp hfull hk => exact weight_submit hk (by rw [hp]; decide) nofun
  | leave hp => simp [Ring.weight, Phase.weight, hp, Ring.reaped]
  | enter k hp h0 hk => exact weight_submit hk (by rw [hp]; decide) nofun
  | reap hp hcq =>
    have hpos := List.length_pos_iff.mpr hcq
    simp only [Ring.weight, Phase.weight, hp, Ring.reaped, List.length_nil]
    omega
  | good j rs hp hj =>
    have hlt := (List.getElem?_eq_some_iff.mp hj).1
    simp only [Ring.weight, Phase.weight, Ring.push, Ring.reaped, hp, List.length_append,
      List.length_cons, List.length_nil]
    omega
  | last rs hp =>
    simp only [Ring.weight, Phase.weight, Ring.reaped, hp, List.length_cons]
    omega
  | bad rs hp =>
    simp only [Ring.weight, Phase.weight, Ring.reaped, hp, List.length_cons, List.length_nil]
    omega
  | again k hp hk => exact weight_submit hk (by rw [hp]; decide) nofun
  | refused hf hp =>
    have hpos : 0 < q.phase.weight := by
      cases hphase : q.phase <;> simp_all [Ring.AtCall, Phase.weight]
    have hgone : ({ q with phase := .gone } : Ring).reaped = [] := reaped_nil nofun
    simp only [Ring.weight, hgone, List.length_nil]
    show _ + 0 < _
    omega

/-- **Each step uses up some of what is left.** -/
theorem Step.left_lt {s s' : State α} {e : Event}
    (h : Step jobs hand depth fails s e s') (hmost : ∀ w, (hand w).length ≤ most) :
    s'.left most < s.left most := by
  cases h with
  | move w q q' content hw hm =>
    have hsum := Lts.sum_set (f := Ring.weight most) (u := q') hw
    have hlt := hm.weight_lt (hmost w)
    unfold State.left
    dsimp only
    omega
  | read w j n q before after good job b hw hk =>
    have hsum := Lts.sum_set (f := Ring.weight most)
      (u := { q with kern := before ++ after, cq := q.cq ++ [good] }) hw
    have hlt : ({ q with kern := before ++ after, cq := q.cq ++ [good] } : Ring).weight most <
        q.weight most := by
      simp only [Ring.weight, Ring.reaped, hk, List.length_append, List.length_cons,
        List.length_nil]
      omega
    unfold State.left
    dsimp only
    omega

/-- The read of `r j` cells of job `j` can come about. -/
def CanRead (jobs : List (Job α)) (r : Nat → Nat) : Prop :=
  ∀ (j : Nat) (job : Job α), jobs[j]? = some job →
    r j ≤ asked job ∧ (r j = 0 ∨ job.off + r j ≤ job.src.length)

/-- What is read is as long as `r` says. -/
def Event.Reads (r : Nat → Nat) : Event → Prop
  | .read _ j n _ => n = r j
  | .other => True

theorem takes_all (q : Ring) : q.Takes q.sq.length :=
  ⟨Nat.le_refl _, fun hne => List.length_pos_iff.mpr hne⟩

/-- **Until everybody has left there is a step to take**, without anything going wrong, and with
reads of any lengths that can come about. -/
theorem exists_step (h : Inv jobs hand depth bufs₀ trace s) (hfits : Fits jobs bufs₀)
    (hlt : ∀ w, ∀ j ∈ hand w, j < jobs.length) {r : Nat → Nat} (hr : CanRead jobs r)
    (hfin : ¬ s.Finished) :
    ∃ e s', Step jobs hand depth False s e s' ∧ e.Reads r := by
  obtain ⟨q, hq, hlive⟩ : ∃ q ∈ s.rings, q.phase ≠ .gone := by
    by_contra hnone
    exact hfin fun q hq => by_contra fun hne => hnone ⟨q, hq, hne⟩
  obtain ⟨w, hw⟩ := List.mem_iff_getElem?.mp hq
  have hacc := h.ring w q hw
  have hmove : ∀ content q', Move depth False (hand w) q content q' →
      ∃ e s', Step jobs hand depth False s e s' ∧ e.Reads r :=
    fun content q' hm => ⟨_, _, .move s w q q' content hw hm, trivial⟩
  cases hp : q.phase with
  | opening => exact hmove _ _ (.opened q hp)
  | filling =>
    by_cases hfull : q.Full depth (hand w)
    · exact hmove _ _ (.filled q _ hp hfull (takes_all q))
    · simp only [Ring.Full, not_or, Nat.not_le] at hfull
      exact hmove _ _ (.push q _ hp (List.getElem?_eq_getElem hfull.1) hfull.2.1 hfull.2.2)
  | waiting =>
    rcases Nat.eq_zero_or_pos q.inflight with h0 | hpos
    · exact hmove _ _ (.leave q hp h0)
    · exact hmove _ _ (.enter q _ hp hpos (takes_all q))
  | entered =>
    rcases hacc.awake hp with hkern | hcq
    · obtain ⟨j, rest, hk⟩ := List.exists_cons_of_ne_nil hkern
      have hmem : j ∈ hand w := by
        refine List.mem_of_mem_take (hacc.perm.subset ?_)
        simp [hk]
      obtain ⟨job, hj⟩ : ∃ job, jobs[j]? = some job :=
        ⟨_, List.getElem?_eq_getElem (hlt w j hmem)⟩
      obtain ⟨b₀, hb₀, -⟩ := hfits job (List.mem_of_getElem? hj)
      have hsize := congrArg (fun l => l[job.buf]?) h.sizes
      simp only [List.getElem?_map, hb₀, Option.map_some, Option.map_eq_some_iff] at hsize
      obtain ⟨b, hb, -⟩ := hsize
      obtain ⟨hlen, hsrc⟩ := hr j job hj
      exact ⟨_, _, .read s w j (r j) q [] rest true job b hw hk hj hb hlen hsrc nofun, rfl⟩
    · exact hmove _ _ (.reap q hp hcq)
  | reaping rs =>
    cases rs with
    | nil => exact hmove _ _ (.again q _ hp (takes_all q))
    | cons good rs =>
      cases good with
      | false => exact hmove _ _ (.bad q rs hp)
      | true =>
        by_cases hnone : (hand w).length ≤ q.next ∨ depth ≤ q.sq.length
        · exact hmove _ _ (.last q rs hp hnone)
        · simp only [not_or, Nat.not_le] at hnone
          exact hmove _ _ (.good q _ rs hp (List.getElem?_eq_getElem hnone.1) hnone.2)
  | gone => exact absurd hp hlive

/-- A kernel that refuses nothing is one of those that may. -/
theorem Move.of_never {hand : List Nat} {q q' : Ring} {content : Bool}
    (h : Move depth False hand q content q') : Move depth fails hand q content q' := by
  cases h with
  | opened hp => exact .opened q hp
  | push j hp hj hroom hsq => exact .push q j hp hj hroom hsq
  | filled k hp hfull hk => exact .filled q k hp hfull hk
  | leave hp h0 => exact .leave q hp h0
  | enter k hp h0 hk => exact .enter q k hp h0 hk
  | reap hp hcq => exact .reap q hp hcq
  | good j rs hp hj hsq => exact .good q j rs hp hj hsq
  | last rs hp hnone => exact .last q rs hp hnone
  | bad rs hp => exact .bad q rs hp
  | again k hp hk => exact .again q k hp hk
  | refused hf => exact hf.elim

theorem Step.of_never {s s' : State α} {e : Event} (h : Step jobs hand depth False s e s') :
    Step jobs hand depth fails s e s' := by
  cases h with
  | move w q q' content hw hm => exact .move s w q q' content hw hm.of_never
  | read w j n q before after good job b hw hk hj hb hlen hsrc hgood =>
    exact .read s w j n q before after good job b hw hk hj hb hlen hsrc fun hg => (hgood hg).elim

/-- No run has more steps than there was to do. -/
theorem length_add_left_le {s₀ : State α} (hmost : ∀ w, (hand w).length ≤ most)
    (h : Lts.Run (Step jobs hand depth fails) s₀ trace s) :
    trace.length + s.left most ≤ s₀.left most := by
  induction h with
  | start => exact Nat.le_of_eq (Nat.zero_add _)
  | next _ hstep ih =>
    have hlt := hstep.left_lt hmost
    rw [List.length_append, List.length_singleton]
    omega

/-- **A run can always be brought to its end**, with nothing going wrong from here on and reads of
any lengths that can come about. -/
theorem exists_finished (hfits : Fits jobs bufs₀) (hapart : Apart jobs)
    (hdepth : 0 < depth) (hlt : ∀ w, ∀ j ∈ hand w, j < jobs.length)
    (hmost : ∀ w, (hand w).length ≤ most) {r : Nat → Nat} (hr : CanRead jobs r)
    (h : Lts.Run (Step jobs hand depth fails) (.start bufs₀ workers) trace s) :
    ∃ more s', Lts.Run (Step jobs hand depth fails) (.start bufs₀ workers) (trace ++ more) s' ∧
      s'.Finished ∧ ∀ e ∈ more, e.Reads r := by
  generalize hn : s.left most = n
  induction n using Nat.strong_induction_on generalizing trace s with
  | h n ih =>
    by_cases hfin : s.Finished
    · exact ⟨[], s, by rwa [List.append_nil], hfin, fun e he => absurd he List.not_mem_nil⟩
    · obtain ⟨e, t, hstep, hreads⟩ :=
        exists_step (inv_of_run hfits hapart hdepth h) hfits hlt hr hfin
      obtain ⟨more, s', hrun, hfin', hmore⟩ :=
        ih _ (hn ▸ hstep.left_lt hmost) (h.next hstep.of_never) rfl
      rw [List.append_assoc] at hrun
      refine ⟨e :: more, s', hrun, hfin', fun e' he' => ?_⟩
      rcases List.mem_cons.mp he' with rfl | he'
      · exact hreads
      · exact hmore e' he'

/-- Where no call fails and no read goes wrong, nobody gives up. -/
theorem content_of_run
    (h : Lts.Run (Step jobs hand depth False) (.start bufs₀ workers) trace s) : s.ok = true := by
  have hkeep := h.inv
    (I := fun s => s.ok = true ∧ ∀ q ∈ s.rings, false ∉ q.cq ∧ false ∉ q.reaped)
    ⟨rfl, fun q hq => by rw [List.eq_of_mem_replicate hq]; exact ⟨nofun, nofun⟩⟩ ?_
  · exact hkeep.1
  · rintro s e t ⟨hok, hclean⟩ hstep
    cases hstep with
    | move w q q' content hw hm =>
      obtain ⟨hcq, hreaped⟩ := hclean q (List.mem_of_getElem? hw)
      have hnew : content = true ∧ false ∉ q'.cq ∧ false ∉ q'.reaped := by
        cases hm with
        | push => exact ⟨rfl, hcq, hreaped⟩
        | reap => exact ⟨rfl, nofun, hcq⟩
        | good j rs hp =>
          rw [reaped_of hp] at hreaped
          exact ⟨rfl, hcq, fun hmem => hreaped (List.mem_cons_of_mem _ hmem)⟩
        | last rs hp =>
          rw [reaped_of hp] at hreaped
          exact ⟨rfl, hcq, fun hmem => hreaped (List.mem_cons_of_mem _ hmem)⟩
        | bad rs hp =>
          rw [reaped_of hp] at hreaped
          exact absurd List.mem_cons_self hreaped
        | refused hf => exact hf.elim
        | _ => exact ⟨rfl, hcq, nofun⟩
      exact ⟨by rw [hok, hnew.1]; rfl, Lts.forall_set hclean hnew.2 w⟩
    | read w j n q before after good job b hw hk hj hb hlen hsrc hgood =>
      obtain ⟨hcq, hreaped⟩ := hclean q (List.mem_of_getElem? hw)
      have hnew : false ∉ q.cq ++ [good] := by
        cases good
        · exact (hgood rfl).elim
        · simpa using hcq
      exact ⟨hok, Lts.forall_set hclean
        (t := { q with kern := before ++ after, cq := q.cq ++ [good] }) ⟨hnew, hreaped⟩ w⟩

/-! ## Beside a pool -/

/-- Every job is copied in full, and nothing else has changed. -/
structure Copied (jobs : List (Job α)) (bufs₀ bufs : List (List α)) : Prop where
  sizes : bufs.map List.length = bufs₀.map List.length
  cells : ∀ job ∈ jobs, ∀ x < job.len,
    cell bufs job.buf (job.pos + x) = job.src[job.off + x]?
  kept : ∀ k y, (∀ job ∈ jobs, ¬ job.Has k y) → cell bufs k y = cell bufs₀ k y

/-- What is left is determined. -/
theorem Copied.unique {bufs' : List (List α)} (h : Copied jobs bufs₀ bufs)
    (h' : Copied jobs bufs₀ bufs') : bufs = bufs' := by
  have hcell : ∀ k y, cell bufs k y = cell bufs' k y := by
    intro k y
    by_cases hhas : ∃ job ∈ jobs, job.Has k y
    · obtain ⟨job, hjob, rfl, hlow, hhigh⟩ := hhas
      have hx : y - job.pos < job.len := by omega
      have hy : job.pos + (y - job.pos) = y := by omega
      rw [← hy, h.cells job hjob _ hx, h'.cells job hjob _ hx]
    · have hnone : ∀ job ∈ jobs, ¬ job.Has k y := fun job hjob hy => hhas ⟨job, hjob, hy⟩
      rw [h.kept k y hnone, h'.kept k y hnone]
  have hlen := congrArg List.length (h.sizes.trans h'.sizes.symm)
  rw [List.length_map, List.length_map] at hlen
  refine List.ext_getElem hlen fun k hk hk' => List.ext_getElem? fun y => ?_
  have hy := hcell k y
  unfold cell at hy
  rw [List.getElem?_eq_getElem hk, List.getElem?_eq_getElem hk'] at hy
  exact hy

theorem Copied.rebase {bufs₁ : List (List α)} (h : Copied jobs bufs₁ bufs)
    (hsizes : bufs₁.map List.length = bufs₀.map List.length)
    (hkept : ∀ k y, (∀ job ∈ jobs, ¬ job.Has k y) → cell bufs₁ k y = cell bufs₀ k y) :
    Copied jobs bufs₀ bufs :=
  ⟨h.sizes.trans hsizes, h.cells, fun k y hnone => (h.kept k y hnone).trans (hkept k y hnone)⟩

theorem copied_of_pool {early : Prop} {steps : List Drain.Event} {st : Drain.State α}
    {prog : Nat → Nat} (h : Drain.Inv jobs early bufs₀ steps st prog) (hfin : st.Finished)
    (hok : st.failed = false) : Copied jobs bufs₀ st.bufs :=
  ⟨h.sizes, fun _ hjob _ hx => h.cell_eq hfin hok hjob hx, h.kept⟩

/-- No read came back shorter than what was asked. -/
def InFull (jobs : List (Job α)) (trace : List Event) : Prop :=
  ∀ (w j n : Nat) (job : Job α), Event.read w j n true ∈ trace → jobs[j]? = some job → n = job.len

/-- **If every read came back in full, the rings leave what a pool leaves.** -/
theorem Inv.copied (h : Inv jobs hand depth bufs₀ trace s)
    (hdealt : Dealt hand s.rings.length jobs.length) (hfin : s.Finished) (hok : s.ok = true)
    (hfull : InFull jobs trace) : Copied jobs bufs₀ s.bufs := by
  refine ⟨h.sizes, fun job hjob x hx => ?_, h.kept⟩
  obtain ⟨j, hj⟩ := List.mem_iff_getElem?.mp hjob
  obtain ⟨w, n, he⟩ := h.exists_read hdealt hfin hok (List.getElem?_eq_some_iff.mp hj).1
  rw [h.cell_eq hdealt hfin hok he hj hx, hfull w j n job he hj, if_pos hx]

theorem Inv.inside (h : Inv jobs hand depth bufs₀ trace s)
    (hdealt : Dealt hand s.rings.length jobs.length) (hfin : s.Finished) (hok : s.ok = true)
    (hfull : InFull jobs trace) : ∀ job ∈ jobs, job.Inside := by
  intro job hjob
  obtain ⟨j, hj⟩ := List.mem_iff_getElem?.mp hjob
  obtain ⟨w, n, he⟩ := h.exists_read hdealt hfin hok (List.getElem?_eq_some_iff.mp hj).1
  obtain ⟨job', hj', hsrc⟩ := h.brought w j n true he
  obtain rfl := Option.some.inj (hj.symm.trans hj')
  rw [hfull w j n job he hj] at hsrc
  exact hsrc

/-- Buffers with room for the jobs keep it. -/
theorem fits_of_sizes (hfits : Fits jobs bufs₀)
    (hsizes : bufs.map List.length = bufs₀.map List.length) : Fits jobs bufs := by
  intro job hjob
  obtain ⟨b₀, hb₀, hle⟩ := hfits job hjob
  have hsize := congrArg (fun l => l[job.buf]?) hsizes
  simp only [List.getElem?_map, hb₀, Option.map_some, Option.map_eq_some_iff] at hsize
  obtain ⟨b, hb, hlen⟩ := hsize
  exact ⟨b, hb, by omega⟩

end

end Rings
