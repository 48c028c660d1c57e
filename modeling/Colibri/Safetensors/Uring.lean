import Colibri.Lib.Deal
import Colibri.Lib.Rings
import Colibri.Safetensors.Batched

/-!
# Draining a batch through io_uring

Under `O_DIRECT` a batch may be drained by `drain_jobs_uring` instead of the pool: each worker
takes every `nt`-th job and reads them through a ring of its own. It returns `true` if no call
and no read went wrong; otherwise the pool reads all jobs again, into the same buffers.

A batch that was drained so returns what one that the pool drained can return
(`read_raw_shared_batched_uring_spec`), given that no read came back short. That is not
checked: only a negative result counts as a failure, and a run in which reads of any lengths
come back short still reports success (`drain_jobs_uring_short`).

What the kernel may still write for a worker that has given up is left out: the pool starts
from the buffers as they are when the last worker has left.

The ring's protocol is `Lib.Rings`, over the same jobs as the pool's. `mine_dealt` says that the
workers have all jobs, once each, and `drained_once` that each was read once where the rings report
success.
-/

namespace Colibri.Safetensors

open Batch Drain

/-- `nt`: as many workers as the pool would have. -/
def ringWorkers (nthreads n : Nat) : Nat := min (max nthreads 1) n

def perRing (nthreads n : Nat) : Nat :=
  (min (max ((n + ringWorkers nthreads n - 1) / ringWorkers nthreads n) 8) 128).nextPowerOfTwo

/-- `mine`: `jobs.iter().skip(t).step_by(nt)`, as places in the list of jobs. -/
def mine (nthreads n t : Nat) : List Nat := Deal.dealt (ringWorkers nthreads n) n t

/-- The crew of rings of a batch, to its end. -/
def Ringed (s : Shards) (sub nthreads : Nat) (parts : List Part) (fails : Prop)
    (trace : List Rings.Event) (st : Rings.State UInt8) : Prop :=
  Lts.Run
    (Rings.Step (jobs s sub parts) (mine nthreads (jobs s sub parts).length)
      (perRing nthreads (jobs s sub parts).length) fails)
    (.start (parts.map fun p => p.slot.buf) (ringWorkers nthreads (jobs s sub parts).length))
    trace st ∧ st.Finished

/-- `drain_jobs_uring`: what it returns, and the buffers after it. -/
inductive DrainJobsUring (s : Shards) (sub nthreads : Nat) (parts : List Part) (fails : Prop) :
    List Rings.Event → Bool → List (List UInt8) → Prop where
  | empty (h : jobs s sub parts = []) :
    DrainJobsUring s sub nthreads parts fails [] true (parts.map fun p => p.slot.buf)
  /-- some file cannot be opened with `O_DIRECT` -/
  | noDirect (h : jobs s sub parts ≠ []) :
    DrainJobsUring s sub nthreads parts fails [] false (parts.map fun p => p.slot.buf)
  | ringed (trace : List Rings.Event) (st : Rings.State UInt8) (h : jobs s sub parts ≠ [])
    (hrun : Ringed s sub nthreads parts fails trace st) :
    DrainJobsUring s sub nthreads parts fails trace st.ok st.bufs

/-- The pool, on the buffers as they are. -/
def Pooled (s : Shards) (sub nthreads : Nat) (parts : List Part) (bufs : List (List UInt8))
    (trace : List Event) (st : State UInt8) : Prop :=
  Lts.Run (Step (jobs s sub parts) False)
    (.waiting bufs (min (max nthreads 1) (jobs s sub parts).length)) trace st ∧ st.Finished

/-- `read_raw_shared_batched` where the rings are tried first, and whether they have done it. -/
inductive ReadBatchedUring (s : Shards) (sub nthreads : Nat) (groups : List (List (List Char)))
    (fails : Prop) :
    List Part → List Rings.Event → Bool → Outcome IoError (List (List View)) → Prop where
  | error (e : IoError) (h : Setup true s 0 groups (.error e)) :
    ReadBatchedUring s sub nthreads groups fails [] [] false (.error e)
  | panic (h : Setup true s 0 groups .panic) :
    ReadBatchedUring s sub nthreads groups fails [] [] false .panic
  | done (gs : List Group) (parts : List Part) (trace : List Rings.Event)
    (bufs : List (List UInt8)) (h : Setup true s 0 groups (.ok gs))
    (hparts : parts = gs.flatMap Group.parts)
    (hdrain : DrainJobsUring s sub nthreads parts fails trace true bufs) :
    ReadBatchedUring s sub nthreads groups fails parts trace true
      (.ofOption (collect true bufs gs))
  | again (gs : List Group) (parts : List Part) (trace : List Rings.Event)
    (bufs : List (List UInt8)) (steps : List Event) (st : State UInt8)
    (h : Setup true s 0 groups (.ok gs)) (hparts : parts = gs.flatMap Group.parts)
    (hdrain : DrainJobsUring s sub nthreads parts fails trace false bufs)
    (hpool : Pooled s sub nthreads parts bufs steps st) :
    ReadBatchedUring s sub nthreads groups fails parts trace false
      (if st.failed then .error .unexpectedEof else .ofOption (collect true st.bufs gs))

/-! ## The hands -/

theorem perRing_pos (nthreads n : Nat) : 0 < perRing nthreads n :=
  Nat.pos_of_isPowerOfTwo (Nat.isPowerOfTwo_nextPowerOfTwo _)

theorem ringWorkers_pos {nthreads n : Nat} (hn : 0 < n) : 0 < ringWorkers nthreads n := by
  unfold ringWorkers
  omega

theorem mem_mine {nthreads n t j : Nat} :
    j ∈ mine nthreads n t ↔ j < n ∧ j % ringWorkers nthreads n = t := Deal.mem_dealt

theorem mine_lt (nthreads n : Nat) : ∀ t, ∀ j ∈ mine nthreads n t, j < n :=
  fun _ _ hj => (mem_mine.mp hj).1

theorem length_mine_le (nthreads n t : Nat) : (mine nthreads n t).length ≤ n :=
  (List.length_filter_le _ _).trans (Nat.le_of_eq List.length_range)

/-- **The jobs are dealt**: each to one worker. -/
theorem mine_dealt (nthreads n : Nat) :
    Rings.Dealt (mine nthreads n) (ringWorkers nthreads n) n where
  lt := mine_lt nthreads n
  nodup _ := List.nodup_range.filter _
  alone _ _ _ h h' := (mem_mine.mp h).2.symm.trans (mem_mine.mp h').2
  all j hj := ⟨_, Nat.mod_lt j (ringWorkers_pos (Nat.zero_lt_of_lt hj)), mem_mine.mpr ⟨hj, rfl⟩⟩

section

variable {s : Shards} {sub nthreads : Nat} {parts : List Part} {fails : Prop}
  {trace : List Rings.Event} {st : Rings.State UInt8}

theorem ringed_inv (hsub : 0 < sub) (h : Placed s true parts)
    (hcope : ∀ p ∈ parts, Copes true p.span) (hrun : Ringed s sub nthreads parts fails trace st) :
    Rings.Inv (jobs s sub parts) (mine nthreads (jobs s sub parts).length)
      (perRing nthreads (jobs s sub parts).length) (parts.map fun p => p.slot.buf) trace st ∧
    Rings.Dealt (mine nthreads (jobs s sub parts).length) st.rings.length
      (jobs s sub parts).length := by
  refine ⟨Rings.inv_of_run (jobs_fits hsub h hcope) (jobs_apart hsub h) (perRing_pos _ _) hrun.1, ?_⟩
  rw [Rings.length_rings hrun.1]
  exact mine_dealt nthreads _

variable {bufs : List (List UInt8)}

/-- A drain that reports success has left what the pool leaves, and the pool would not have
failed. -/
theorem drained_copied (hsub : 0 < sub) (h : Placed s true parts)
    (hcope : ∀ p ∈ parts, Copes true p.span)
    (hdrain : DrainJobsUring s sub nthreads parts fails trace true bufs)
    (hfull : Rings.InFull (jobs s sub parts) trace) :
    Rings.Copied (jobs s sub parts) (parts.map fun p => p.slot.buf) bufs ∧
      ∀ job ∈ jobs s sub parts, job.Inside := by
  generalize hdone : true = done at hdrain
  cases hdrain with
  | empty hnil =>
    rw [hnil]
    exact ⟨⟨rfl, fun job hjob => absurd hjob List.not_mem_nil, fun _ _ _ => rfl⟩,
      fun job hjob => absurd hjob List.not_mem_nil⟩
  | noDirect => cases hdone
  | ringed _ st _ hrun =>
    obtain ⟨hinv, hdealt⟩ := ringed_inv hsub h hcope hrun
    exact ⟨hinv.copied hdealt hrun.2 hdone.symm hfull,
      hinv.inside hdealt hrun.2 hdone.symm hfull⟩

/-- Whatever it reports, it has written nowhere but in the jobs' places. -/
theorem drained_rest (hsub : 0 < sub) (h : Placed s true parts)
    (hcope : ∀ p ∈ parts, Copes true p.span) {done : Bool}
    (hdrain : DrainJobsUring s sub nthreads parts fails trace done bufs) :
    bufs.map List.length = (parts.map fun p => p.slot.buf).map List.length ∧
      ∀ k y, (∀ job ∈ jobs s sub parts, ¬ job.Has k y) →
        cell bufs k y = cell (parts.map fun p => p.slot.buf) k y := by
  cases hdrain with
  | empty => exact ⟨rfl, fun _ _ _ => rfl⟩
  | noDirect => exact ⟨rfl, fun _ _ _ => rfl⟩
  | ringed trace st _ hrun =>
    obtain ⟨hinv, -⟩ := ringed_inv hsub h hcope hrun
    exact ⟨hinv.sizes, hinv.kept⟩

/-- **Every job was read once**, where the rings report success. -/
theorem drained_once (hsub : 0 < sub) (h : Placed s true parts)
    (hcope : ∀ p ∈ parts, Copes true p.span)
    (hdrain : DrainJobsUring s sub nthreads parts fails trace true bufs) {j : Nat}
    (hj : j < (jobs s sub parts).length) : trace.countP (Rings.isRead j) = 1 := by
  generalize hdone : true = done at hdrain
  cases hdrain with
  | empty hnil => simp [hnil] at hj
  | noDirect => cases hdone
  | ringed _ st _ hrun =>
    obtain ⟨hinv, hdealt⟩ := ringed_inv hsub h hcope hrun
    exact hinv.all_read hdealt hrun.2 hdone.symm hj

theorem left_start (most workers : Nat) (bufs : List (List UInt8)) :
    (Rings.State.start bufs workers).left most = workers * (15 * most + 4) := by
  have hnew : Rings.Ring.new.weight most = 15 * most + 4 := by
    show 3 * (5 * (most - 0) + 4 * 0 + 3 * 0 + 2 * 0 + 0) + 4 = _
    omega
  rw [Rings.State.left, Rings.State.start, List.map_replicate, List.sum_replicate_nat, hnew]

/-- A pool fails for what its jobs ask, whatever the buffers hold. -/
theorem failed_iff {js : List (Job UInt8)} {steps : List Event}
    {st : State UInt8} {prog : Nat → Nat} (h : Inv js False bufs steps st prog)
    (hfin : st.Finished) : st.failed = false ↔ ∀ job ∈ js, job.Inside := by
  refine ⟨h.inside hfin, fun hin => ?_⟩
  by_contra hfailed
  rcases h.failure (Bool.eq_true_of_not_eq_false hfailed) with he | ⟨job, hjob, hnot⟩
  · exact he
  · exact hnot (hin job hjob)

end

section

variable {s : Shards} {sub nthreads : Nat} {groups : List (List (List Char))} {parts : List Part}
  {fails : Prop} {trace : List Rings.Event} {done : Bool}
  {out : Outcome IoError (List (List View))}

/-- A batch that the rings drained in full is one that the pool drained. -/
theorem readBatched_of_uring (hsub : 0 < sub) (hcope : CopesAll s true groups)
    (h : ReadBatchedUring s sub nthreads groups fails parts trace done out)
    (hfull : done = true → Rings.InFull (jobs s sub parts) trace) :
    ReadBatched s true sub nthreads groups parts out := by
  cases h with
  | error e h => exact .error e h
  | panic h => exact .panic h
  | done gs _ _ bufs h hparts hdrain =>
    obtain ⟨hfor, hplaced⟩ := setup_placed h
    have hcopes := setup_copes hcope hfor
    rw [← hparts] at hplaced hcopes
    obtain ⟨hcopied, hin⟩ := drained_copied hsub hplaced hcopes hdrain (hfull rfl)
    obtain ⟨steps, st, hrun⟩ := exists_drained hsub hplaced hcopes nthreads
    obtain ⟨prog, hinv⟩ := drained_inv hsub hplaced hcopes hrun
    have hok := (failed_iff hinv hrun.2).mpr hin
    have hbufs := (Rings.copied_of_pool hinv hrun.2 hok).unique hcopied
    have hbatch := ReadBatched.drained gs parts steps st h hparts hrun
    simpa [hok, hbufs] using hbatch
  | again gs _ _ bufs steps st h hparts hdrain hpool =>
    obtain ⟨hfor, hplaced⟩ := setup_placed h
    have hcopes := setup_copes hcope hfor
    rw [← hparts] at hplaced hcopes
    obtain ⟨hsizes, hkept⟩ := drained_rest hsub hplaced hcopes hdrain
    have hfits := jobs_fits hsub hplaced hcopes
    have hapart := jobs_apart hsub hplaced
    obtain ⟨prog, hinv⟩ := inv_of_run (Rings.fits_of_sizes hfits hsizes) hapart
      (inv_start ..) hpool.1
    obtain ⟨steps', st', hrun⟩ := exists_drained hsub hplaced hcopes nthreads
    obtain ⟨prog', hinv'⟩ := drained_inv hsub hplaced hcopes hrun
    have hsame : st'.failed = st.failed := by
      rw [Bool.eq_iff_iff, ← not_iff_not, Bool.not_eq_true, Bool.not_eq_true,
        failed_iff hinv' hrun.2, failed_iff hinv hpool.2]
    have hbatch := ReadBatched.drained gs parts steps' st' h hparts hrun
    cases hfailed : st.failed with
    | true => simpa [hsame, hfailed] using hbatch
    | false =>
      have hbufs : st'.bufs = st.bufs :=
        (Rings.copied_of_pool hinv' hrun.2 (hsame.trans hfailed)).unique
          ((Rings.copied_of_pool hinv hpool.2 hfailed).rebase hsizes hkept)
      simpa [hsame, hfailed, hbufs] using hbatch

end

/-- **A batch drained through rings returns what a batch drained by the pool may return**,
whether the rings have done it or the pool has come after them, given that no read of a drain
that reports success came back short; and then every job was read exactly once. -/
theorem read_raw_shared_batched_uring_spec (s : Shards) (setting : Option Nat) (nthreads : Nat)
    (groups : List (List (List Char))) (fails : Prop) (hsane : s.Sane groups) (parts : List Part)
    (trace : List Rings.Event) (done : Bool) (out : Outcome IoError (List (List View)))
    (h : ReadBatchedUring s (parseSubKb setting) nthreads groups fails parts trace done out)
    (hfull : done = true → Rings.InFull (jobs s (parseSubKb setting) parts) trace) :
    ReadBatched s true (parseSubKb setting) nthreads groups parts out ∧
      (done = true → ∀ j < (jobs s (parseSubKb setting) parts).length,
        trace.countP (Rings.isRead j) = 1) := by
  have hsub := parseSubKb_pos setting
  have hcope : CopesAll s true groups := copesAll_of (.inr hsane)
  refine ⟨readBatched_of_uring hsub hcope h hfull, fun hdone j hj => ?_⟩
  cases h with
  | error => cases hdone
  | panic => cases hdone
  | again => cases hdone
  | done gs _ _ bufs h hparts hdrain =>
    obtain ⟨hfor, hplaced⟩ := setup_placed h
    have hcopes := setup_copes hcope hfor
    rw [← hparts] at hplaced hcopes
    exact drained_once hsub hplaced hcopes hdrain hj

/-- A run of the rings in which every read comes back in full. -/
theorem exists_inFull {s : Shards} {sub : Nat} (nthreads : Nat) {parts : List Part}
    (hsub : 0 < sub) (hplaced : Placed s true parts) (hcope : ∀ p ∈ parts, Copes true p.span)
    (hin : ∀ job ∈ jobs s sub parts, job.len < 2 ^ 32 ∧ job.Inside) :
    ∃ trace st, Ringed s sub nthreads parts False trace st ∧
      Rings.InFull (jobs s sub parts) trace := by
  have hr : Rings.CanRead (jobs s sub parts) fun j => (jobs s sub parts)[j]?.elim 0 Job.len := by
    intro j job hj
    obtain ⟨hlen, hinside⟩ := hin job (List.mem_of_getElem? hj)
    dsimp only
    rw [hj, Option.elim_some, Rings.asked, Nat.mod_eq_of_lt hlen]
    exact ⟨Nat.le_refl _, hinside⟩
  obtain ⟨trace, st, hrun, hfin, hreads⟩ := Rings.exists_finished (jobs_fits hsub hplaced hcope)
    (jobs_apart hsub hplaced) (perRing_pos nthreads _) (mine_lt nthreads _)
    (length_mine_le nthreads _) hr .start
  refine ⟨_, st, ⟨hrun, hfin⟩, fun w j n job he hj => ?_⟩
  have hn : n = (jobs s sub parts)[j]?.elim 0 Job.len := hreads _ he
  rw [hn, hj]
  rfl

/-! ## A file that is read whole -/

def wholeTensor : StTensor :=
  ⟨['a'], 0, 0, 512, .u8, 512, [512], by decide, by decide⟩

def wholeBytes : List UInt8 := List.replicate 512 7

theorem length_wholeBytes : wholeBytes.length = 512 := List.length_replicate

/-- A file of 512 bytes, all of them the tensor. -/
def wholeFile : Shards where
  tensors := [wholeTensor]
  files := [wholeBytes]
  fileIdx_lt := by
    intro t ht
    rw [List.mem_singleton.mp ht]
    decide
  size_lt := by
    intro f hf
    rw [List.mem_singleton.mp hf, length_wholeBytes]
    decide

def wholeSpan : Span := ⟨0, 0, 512, [Item.of 0 wholeTensor]⟩

theorem spansOf_wholeFile : spansOf [Item.of 0 wholeTensor] = [wholeSpan] := by
  rw [spansOf, order, List.mergeSort_singleton]
  rfl

/-- The span is not in the page cache, and its buffer begins at a multiple of 512. -/
def wholePart : Part := ⟨0, wholeSpan, 0, 512, 0, false, List.replicate 1024 0⟩

theorem setup_wholeFile : Setup true wholeFile 0 [[['a']]] (.ok [⟨1, [wholePart]⟩]) := by
  have hslot : SlotOf true wholeFile wholeSpan wholePart.slot :=
    .alloc (List.replicate (wholeSpan.bufLen true) 0) 0 (by decide) List.length_replicate
  exact .cons 0 [['a']] [] [Item.of 0 wholeTensor] [wholePart] _ rfl spansOf_wholeFile.symm rfl
    (fun p hp => by rw [List.mem_singleton.mp hp]; exact hslot) (.nil _)

theorem items_wholeFile : wholeFile.items [['a']] = some [Item.of 0 wholeTensor] := rfl

theorem sane_wholeFile : wholeFile.Sane [[['a']]] := by
  intro names hnames items hitems sp hsp
  rw [List.mem_singleton.mp hnames, items_wholeFile, Option.some.injEq] at hitems
  rw [← hitems, spansOf_wholeFile] at hsp
  rw [List.mem_singleton.mp hsp]
  decide

theorem placed_wholeFile : Placed wholeFile true [wholePart] := (setup_placed setup_wholeFile).2

theorem copes_wholeFile : ∀ p ∈ [wholePart], Copes true p.span :=
  setup_copes (copesAll_of (.inr sane_wholeFile)) (setup_placed setup_wholeFile).1

theorem jobs_wholeFile : jobs wholeFile (parseSubKb none) [wholePart] =
    [⟨wholeBytes, 0, 0, 0, 512⟩] := rfl

theorem inside_wholeFile : ∀ job ∈ jobs wholeFile (parseSubKb none) [wholePart],
    job.len < 2 ^ 32 ∧ job.Inside := by
  intro job hjob
  rw [jobs_wholeFile, List.mem_singleton] at hjob
  rw [hjob]
  refine ⟨by decide, .inr ?_⟩
  dsimp only
  rw [length_wholeBytes]

/-- The rings read the file, and the batch is then as the pool may leave it. -/
theorem uring_wholeFile : ∃ parts trace out,
    ReadBatchedUring wholeFile (parseSubKb none) 4 [[['a']]] False parts trace true out ∧
      ReadBatched wholeFile true (parseSubKb none) 4 [[['a']]] parts out := by
  obtain ⟨trace, st, hrun, hfull⟩ := exists_inFull 4 (parseSubKb_pos none) placed_wholeFile
    copes_wholeFile inside_wholeFile
  have hdrain := DrainJobsUring.ringed trace st (by rw [jobs_wholeFile]; exact List.cons_ne_nil _ _)
    hrun
  rw [Rings.content_of_run hrun.1] at hdrain
  have h := ReadBatchedUring.done _ _ trace st.bufs setup_wholeFile rfl hdrain
  exact ⟨_, _, _, h, (read_raw_shared_batched_uring_spec wholeFile none 4 [[['a']]] False
    sane_wholeFile _ trace true _ h fun _ => hfull).1⟩

/-- **The rings come to an end, and do not see a short read.** Every run of them is bounded, and
can be brought to its end with reads of any lengths that can come about. If nothing is refused
and no read goes wrong, the end is a success: each job was read once, and holds what that one
read brought, and behind it what was there before. -/
theorem drain_jobs_uring_short (s : Shards) (sub nthreads : Nat) (parts : List Part)
    (hsub : 0 < sub) (hplaced : Placed s true parts) (hcope : ∀ p ∈ parts, Copes true p.span) :
    (∀ fails trace st, Lts.Run
        (Rings.Step (jobs s sub parts) (mine nthreads (jobs s sub parts).length)
          (perRing nthreads (jobs s sub parts).length) fails)
        (.start (parts.map fun p => p.slot.buf)
          (ringWorkers nthreads (jobs s sub parts).length)) trace st →
      trace.length ≤ ringWorkers nthreads (jobs s sub parts).length *
        (15 * (jobs s sub parts).length + 4) ∧
      ∀ r, Rings.CanRead (jobs s sub parts) r → ∃ more st',
        Ringed s sub nthreads parts fails (trace ++ more) st' ∧ ∀ e ∈ more, e.Reads r) ∧
    ∀ trace st, Ringed s sub nthreads parts False trace st → st.ok = true ∧
      (∀ j < (jobs s sub parts).length, trace.countP (Rings.isRead j) = 1) ∧
      ∀ w j n good job, Rings.Event.read w j n good ∈ trace →
        (jobs s sub parts)[j]? = some job → ∀ x < job.len,
          cell st.bufs job.buf (job.pos + x) = if x < n then job.src[job.off + x]?
            else cell (parts.map fun p => p.slot.buf) job.buf (job.pos + x) := by
  have hfits := jobs_fits hsub hplaced hcope
  have hapart := jobs_apart hsub hplaced
  have hmost := length_mine_le nthreads (jobs s sub parts).length
  refine ⟨fun fails trace st hrun => ⟨?_, fun r hr => ?_⟩, fun trace st hrun => ?_⟩
  · have hbound := Rings.length_add_left_le hmost hrun
    rw [left_start] at hbound
    omega
  · obtain ⟨more, st', hmore, hfin, hreads⟩ := Rings.exists_finished hfits hapart
      (perRing_pos _ _) (mine_lt _ _) hmost hr hrun
    exact ⟨more, st', ⟨hmore, hfin⟩, hreads⟩
  · obtain ⟨hinv, hdealt⟩ := ringed_inv hsub hplaced hcope hrun
    have hok := Rings.content_of_run hrun.1
    exact ⟨hok, fun j hj => hinv.all_read hdealt hrun.2 hok hj,
      fun w j n good job he hj x hx => hinv.cell_eq hdealt hrun.2 hok he hj hx⟩

/-- A read of 100 of the 512 bytes goes through as a success. -/
theorem short_wholeFile : ∃ trace st,
    Ringed wholeFile (parseSubKb none) 4 [wholePart] False trace st ∧ st.ok = true ∧
      cell st.bufs 0 100 = some 0 := by
  obtain ⟨hends, hspec⟩ := drain_jobs_uring_short wholeFile (parseSubKb none) 4 [wholePart]
    (parseSubKb_pos none) placed_wholeFile copes_wholeFile
  have hr : Rings.CanRead (jobs wholeFile (parseSubKb none) [wholePart]) fun _ => 100 := by
    intro j job hj
    rw [jobs_wholeFile] at hj
    rw [List.mem_singleton.mp (List.mem_of_getElem? hj)]
    have hle : 100 ≤ Rings.asked (⟨wholeBytes, 0, 0, 0, 512⟩ : Job UInt8) := by decide
    refine ⟨hle, .inr ?_⟩
    dsimp only
    rw [length_wholeBytes]
    decide
  obtain ⟨trace, st, hrun, hreads⟩ := (hends False [] _ .start).2 _ hr
  obtain ⟨hok, hone, hcells⟩ := hspec _ st hrun
  refine ⟨_, st, hrun, hok, ?_⟩
  have hj : (jobs wholeFile (parseSubKb none) [wholePart])[0]? =
      some ⟨wholeBytes, 0, 0, 0, 512⟩ := by rw [jobs_wholeFile]; rfl
  obtain ⟨e, he, hread⟩ := List.countP_pos_iff.mp
    (hone 0 (List.getElem?_eq_some_iff.mp hj).1 ▸ Nat.one_pos)
  cases e with
  | other => cases hread
  | read w i n good =>
    obtain rfl := of_decide_eq_true hread
    have hn : n = 100 := hreads _ he
    have hcell := hcells w 0 n good _ he hj 100 (by decide)
    rw [hn, if_neg (Nat.lt_irrefl 100)] at hcell
    exact hcell

end Colibri.Safetensors
