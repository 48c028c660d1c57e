import Colibri.Ram.Ledger

/-!
# The ledger without absolute reports

`commit` and the drops of commitments in any interleaving. The total is what is committed
and never above the ceiling. A class counter, modulo `2^64`, is what its commitments and
the drops under way will subtract, and that may be more than the total.

`Exact` is the invariant, with a lemma for each access of a task: `Exact.call`, `Exact.moveTotal`,
`Exact.moveClass`, `Exact.raisePeak`, `Exact.count` and `Exact.uncount`. `Exact.step` is the step,
and `exact_of_run` the run. `commit_bounded` reads off it what the counters are when nobody is
under way (`Ledger.Quiet`).
-/

namespace Colibri.Ram

variable {s s' : Ledger}

def After.reports : After → Bool
  | .commitment _ _ => false
  | .apply _ _ _ => true

/-- Whether a task is in `set_usage`. -/
def Task.reports : Task → Bool
  | .notePeak _ _ next => next.reports
  | .raisePeak _ _ _ next => next.reports
  | .setUsage _ _ => true
  | .apply _ _ _ => true
  | .headroom => true
  | _ => false

/-- The total is what is committed, a class counter what will be subtracted from it. -/
structure Exact (s : Ledger) : Prop where
  total : s.total = s.taken
  perClass : ∀ c, s.perClass c = s.held c % 2 ^ 64
  le : s.total ≤ s.ceiling
  commits : ∀ t ∈ s.tasks, t.reports = false

theorem Exact.new (ceiling : Nat) : Exact (Ledger.new ceiling) :=
  ⟨rfl, fun _ => rfl, Nat.zero_le _, fun _ h => absurd h List.not_mem_nil⟩

variable {i bytes : Nat} {next : After} {c : Class} {t : Task}

theorem goOn_commits (h : ∀ t ∈ s.tasks, t.reports = false)
    (hn : next.reports = false) : ∀ t ∈ (s.goOn i next).tasks, t.reports = false := by
  cases next with
  | commitment c bytes => exact Lts.forall_set h rfl i
  | apply c bytes prev => cases hn

theorem observePeak_commits {now : Nat}
    (h : ∀ t ∈ s.tasks, t.reports = false) (hn : next.reports = false) :
    ∀ t ∈ (s.observePeak i c now next).tasks, t.reports = false := by
  rw [Ledger.observePeak]
  split
  · exact Lts.forall_set h (t := .raisePeak c now (s.peak c) next) hn i
  · exact goOn_commits h hn

@[simp] theorem goOn_total (i : Nat) (next : After) : (s.goOn i next).total = s.total := by
  cases next <;> rfl

@[simp] theorem goOn_perClass (i : Nat) (next : After) :
    (s.goOn i next).perClass = s.perClass := by
  cases next <;> rfl

@[simp] theorem goOn_ceiling (i : Nat) (next : After) : (s.goOn i next).ceiling = s.ceiling := by
  cases next <;> rfl

theorem observePeak_counters (i : Nat) (c : Class) (now : Nat) (next : After) :
    (s.observePeak i c now next).total = s.total ∧
      (s.observePeak i c now next).perClass = s.perClass ∧
      (s.observePeak i c now next).ceiling = s.ceiling := by
  rw [Ledger.observePeak]
  split
  · exact ⟨rfl, rfl, rfl⟩
  · exact ⟨goOn_total i next, goOn_perClass i next, goOn_ceiling i next⟩

/-- A step that leaves the counters, and what the calls have in them. -/
theorem Exact.same (h : Exact s) (htotal : s'.total = s.total) (hper : s'.perClass = s.perClass)
    (hceil : s'.ceiling = s.ceiling) (htaken : s'.taken = s.taken)
    (hheld : ∀ c, s'.held c = s.held c)
    (hcommits : ∀ t ∈ s'.tasks, t.reports = false) : Exact s' := by
  refine ⟨?_, fun c => ?_, ?_, hcommits⟩
  · rw [htotal, htaken]
    exact h.total
  · rw [hper, hheld]
    exact h.perClass c
  · rw [htotal, hceil]
    exact h.le

/-- One task goes on, and leaves the counters. -/
theorem Exact.move (h : Exact s) {t' : Task} (hi : s.tasks[i]? = some t)
    (htaken : t'.taken = t.taken) (hcounted : ∀ c, t'.counted c = t.counted c)
    (hreports : t'.reports = false) : Exact (s.set i t') := by
  refine h.same rfl rfl rfl ?_ (fun c => ?_) (Lts.forall_set h.commits hreports i)
  · have hset := set_taken hi t'
    omega
  · have hset := set_held hi t' c
    have hc := hcounted c
    omega

/-- The peak is noted, and the call goes on. -/
theorem Exact.observePeak (h : Exact s) {now : Nat}
    (hi : s.tasks[i]? = some t) (htaken : t.taken = next.committed)
    (hcounted : ∀ c, t.counted c = next.counted c) (hreports : next.reports = false) :
    Exact (s.observePeak i c now next) := by
  obtain ⟨htotal, hper, hceil⟩ := observePeak_counters (s := s) i c now next
  refine h.same htotal hper hceil ?_ (fun c' => ?_) (observePeak_commits h.commits hreports)
  · have hset := observePeak_taken hi c now next
    omega
  · have hset := observePeak_held hi c now next c'
    have hc := hcounted c'
    omega

theorem asks_weights (h : t.asks = some (c, bytes)) :
    t.taken = 0 ∧ ∀ c', t.counted c' = 0 := by
  cases t with
  | commit c' b => exact ⟨rfl, fun _ => rfl⟩
  | cas c' b cur => exact ⟨rfl, fun _ => rfl⟩
  | _ => cases h

theorem inClass_le_held (hi : s.tasks[i]? = some t) (c : Class) :
    t.counted c ≤ s.held c := by
  have hset := set_held hi .done c
  have hdone : Task.counted c .done = 0 := rfl
  omega

theorem taken_le (hi : s.tasks[i]? = some t) : t.taken ≤ s.taken := by
  have hset := set_taken hi .done
  have hdone : Task.taken .done = 0 := rfl
  omega

theorem inClass_self (c : Class) (bytes : Nat) : inClass c (c, bytes) = bytes := if_pos rfl

theorem inClass_ne {c' : Class} (h : c' ≠ c) (bytes : Nat) : inClass c (c', bytes) = 0 := if_neg h

theorem erase_sum {live : List (Class × Nat)} (f : Class × Nat → Nat) {x : Class × Nat}
    (h : x ∈ live) : ((live.erase x).map f).sum + f x = (live.map f).sum := by
  have hsum := ((List.perm_cons_erase h).map f).sum_eq
  rw [List.map_cons, List.sum_cons] at hsum
  omega

theorem Exact.call (h : Exact s) {live : List (Class × Nat)}
    (htaken : (live.map Prod.snd).sum + t.taken = (s.live.map Prod.snd).sum)
    (hheld : ∀ c, (live.map (inClass c)).sum + t.counted c = (s.live.map (inClass c)).sum)
    (hreports : t.reports = false) : Exact { s with tasks := s.tasks ++ [t], live } := by
  refine h.same rfl rfl rfl ?_ (fun c => ?_) (Lts.forall_concat h.commits hreports)
  · show (live.map Prod.snd).sum + ((s.tasks ++ [t]).map Task.taken).sum = _ + _
    rw [Lts.sum_concat]
    omega
  · have hc := hheld c
    show (live.map (inClass c)).sum + ((s.tasks ++ [t]).map (Task.counted c)).sum = _ + _
    rw [Lts.sum_concat]
    omega

/-- **The total moves**, by what the call has taken or given back, and stays under the ceiling. -/
theorem Exact.moveTotal (h : Exact s) {t' : Task} (hi : s.tasks[i]? = some t)
    {total : Nat} (hbal : total + t.taken = s.total + t'.taken)
    (hcounted : ∀ c, t'.counted c = t.counted c) (hle : total ≤ s.ceiling)
    (hreports : t'.reports = false) : Exact { s.set i t' with total } := by
  refine ⟨?_, fun c => ?_, hle, Lts.forall_set h.commits hreports i⟩
  · have hset := set_taken hi t'
    have htotal := h.total
    show total = (s.set i t').taken
    omega
  · have hset := set_held hi t' c
    have hc := hcounted c
    have hsame : (s.set i t').held c = s.held c := by omega
    show s.perClass c = (s.set i t').held c % 2 ^ 64
    rw [hsame]
    exact h.perClass c

/-- **A class counter moves**, as what the calls will subtract from it does, up to a wrap. -/
theorem Exact.moveClass (h : Exact s) {t' : Task} (hi : s.tasks[i]? = some t)
    (htaken : t'.taken = t.taken) {v : Nat}
    (hv : v = (s.set i t').held c % 2 ^ 64)
    (hne : ∀ c', c' ≠ c → t'.counted c' = t.counted c') (hreports : t'.reports = false) :
    Exact { s.set i t' with perClass := Function.update s.perClass c v } := by
  refine ⟨?_, fun c' => ?_, h.le, Lts.forall_set h.commits hreports i⟩
  · have hset := set_taken hi t'
    have htotal := h.total
    show s.total = (s.set i t').taken
    omega
  · show Function.update s.perClass c v c' = (s.set i t').held c' % 2 ^ 64
    by_cases hcc : c' = c
    · subst hcc
      rw [Function.update_self, hv]
    · have hset := set_held hi t' c'
      have hc := hne c' hcc
      have hsame : (s.set i t').held c' = s.held c' := by omega
      rw [Function.update_of_ne hcc, hsame]
      exact h.perClass c'

theorem Exact.raisePeak (h : Exact s) {now seen : Nat}
    (hi : s.tasks[i]? = some (.raisePeak c now seen next)) :
    Exact ({ s with peak := Function.update s.peak c now }.goOn i next) := by
  have hs : Exact { s with peak := Function.update s.peak c now } :=
    h.same rfl rfl rfl rfl (fun _ => rfl) h.commits
  have htasks : ({ s with peak := Function.update s.peak c now } : Ledger).tasks[i]? = _ := hi
  refine hs.same (goOn_total ..) (goOn_perClass ..) (goOn_ceiling ..) ?_ (fun c' => ?_)
    (goOn_commits h.commits (h.commits _ (List.mem_of_getElem? hi)))
  · have hset := goOn_taken htasks next
    dsimp only [Task.taken] at hset
    omega
  · have hset := goOn_held htasks next c'
    dsimp only [Task.counted] at hset
    omega

theorem Exact.count (h : Exact s)
    (hi : s.tasks[i]? = some (.count c bytes)) (now : Nat)
    (hnow : now = fetchAdd (s.perClass c) bytes) :
    Exact { s.set i (.notePeak c now (.commitment c bytes)) with
      perClass := Function.update s.perClass c now } := by
  have hset := set_held hi (.notePeak c now (.commitment c bytes)) c
  have hself : Task.counted c (.notePeak c now (.commitment c bytes)) = bytes := inClass_self c bytes
  have hzero : Task.counted c (.count c bytes) = 0 := rfl
  have hheld : (s.set i (.notePeak c now (.commitment c bytes))).held c = s.held c + bytes := by omega
  have htaken : Task.taken (.notePeak c now (.commitment c bytes)) = Task.taken (.count c bytes) :=
    rfl
  refine h.moveClass hi htaken ?_ (fun c' hne => inClass_ne (Ne.symm hne) bytes) rfl
  rw [hheld, hnow, h.perClass, fetchAdd_mod]

theorem Exact.uncount (h : Exact s)
    (hi : s.tasks[i]? = some (.uncount c bytes)) :
    Exact { s.set i .done with
      perClass := Function.update s.perClass c (fetchSub (s.perClass c) bytes) } := by
  have hself : Task.counted c (.uncount c bytes) = bytes := inClass_self c bytes
  have hle := inClass_le_held hi c
  rw [hself] at hle
  have hset := set_held hi .done c
  have hzero : Task.counted c .done = 0 := rfl
  have hheld : (s.set i .done).held c = s.held c - bytes := by omega
  have htaken : Task.taken .done = Task.taken (.uncount c bytes) := rfl
  refine h.moveClass hi htaken ?_ (fun c' hne => (inClass_ne (Ne.symm hne) bytes).symm) rfl
  rw [hheld, h.perClass, fetchSub_mod hle]

/-- **Every step keeps it** but the calls of `set_usage`. -/
theorem Exact.step (h : Exact s) (hc : s.ceiling < 2 ^ 64)
    (hsized : ∀ t ∈ s.tasks, t.Sized s.ceiling) {l : Label} (hstep : Step s l s')
    (hl : l.act ≠ .setUsage) : Exact s' := by
  cases hstep with
  | commit _ _ => exact h.call rfl (fun _ => rfl) rfl
  | @empty c =>
    refine h.call ?_ (fun c' => ?_) rfl
    · rw [List.map_cons, List.sum_cons, Nat.zero_add]
      rfl
    · have hzero : inClass c' (c, 0) = 0 := ite_self 0
      rw [List.map_cons, List.sum_cons, hzero, Nat.zero_add]
      rfl
  | @release c bytes hmem =>
    exact h.call (erase_sum Prod.snd hmem) (fun c' => erase_sum (inClass c') hmem) rfl
  | setUsage _ => exact absurd rfl hl
  | fits hi hask _ =>
    obtain ⟨htaken, hcounted⟩ := asks_weights hask
    exact h.move hi htaken.symm (fun c => (hcounted c).symm) rfl
  | refuse hi hask _ =>
    obtain ⟨htaken, hcounted⟩ := asks_weights hask
    exact h.move hi htaken.symm (fun c => (hcounted c).symm) rfl
  | take hi => exact h.moveTotal hi rfl (fun _ => rfl) (hsized _ (List.mem_of_getElem? hi)).2 rfl
  | @count i c bytes now hi hnow => exact h.count hi now hnow
  | notePeak hi => exact h.observePeak hi rfl (fun _ => rfl) (h.commits _ (List.mem_of_getElem? hi))
  | raisePeak hi => exact h.raisePeak hi
  | peakMoved hi =>
    exact h.observePeak hi rfl (fun _ => rfl) (h.commits _ (List.mem_of_getElem? hi))
  | @drop i c bytes hi =>
    have hceil := h.le
    have hbytes : bytes ≤ s.total := by
      rw [h.total]
      exact taken_le hi
    rw [fetchSub_eq hbytes (Nat.lt_of_le_of_lt hceil hc)]
    refine h.moveTotal hi ?_ (fun _ => rfl) (Nat.le_trans (Nat.sub_le _ _) hceil) rfl
    dsimp only [Task.taken]
    omega
  | uncount hi => exact h.uncount hi
  | swap hi => cases h.commits _ (List.mem_of_getElem? hi)
  | add hi _ => cases h.commits _ (List.mem_of_getElem? hi)
  | sub hi _ => cases h.commits _ (List.mem_of_getElem? hi)
  | headroom hi => cases h.commits _ (List.mem_of_getElem? hi)

/-- **A run** without absolute reports keeps the ledger exact. -/
theorem exact_of_run {ceiling : Nat} (hc : ceiling < 2 ^ 64) {trace : List Label}
    (h : Lts.Run Step (Ledger.new ceiling) trace s) (hno : ∀ l ∈ trace, l.act ≠ .setUsage) :
    Exact s := by
  induction h with
  | start => exact Exact.new ceiling
  | next hrun hstep ih =>
    obtain ⟨hceil, hsized⟩ := sized_of_run hrun
    have hs := ih fun l hl => hno l (List.mem_append_left _ hl)
    refine hs.step (hceil ▸ hc) (hceil ▸ hsized) hstep (hno _ ?_)
    exact List.mem_append_right _ (List.mem_singleton_self _)

theorem Ledger.Quiet.sum_eq_zero (h : s.Quiet) {f : Task → Nat} (hdone : f .done = 0)
    (hrefused : f .refused = 0) : (s.tasks.map f).sum = 0 := by
  apply List.sum_eq_zero
  intro n hn
  obtain ⟨t, ht, rfl⟩ := List.mem_map.mp hn
  rcases h t ht with rfl | rfl
  · exact hdone
  · exact hrefused

theorem live_le_sum (c : Class) (live : List (Class × Nat)) :
    (live.map (inClass c)).sum ≤ (live.map Prod.snd).sum := by
  refine List.sum_le_sum fun x _ => ?_
  rw [inClass]
  split
  · exact Nat.le_refl _
  · exact Nat.zero_le _

/-- Between calls the class counters are right, whatever they wrapped through. -/
theorem Exact.quiet (h : Exact s) (hc : s.ceiling < 2 ^ 64) (hquiet : s.Quiet) :
    s.total = (Class.all.map s.perClass).sum ∧ s.total = (s.live.map Prod.snd).sum := by
  have htotal : s.total = (s.live.map Prod.snd).sum := by
    rw [h.total, Ledger.taken, hquiet.sum_eq_zero rfl rfl, Nat.add_zero]
  have hper : s.perClass = fun c => (s.live.map (inClass c)).sum := by
    funext c
    have hle := live_le_sum c s.live
    have hceil := h.le
    rw [h.perClass c, Ledger.held, hquiet.sum_eq_zero (f := Task.counted c) rfl rfl, Nat.add_zero]
    exact Nat.mod_eq_of_lt (by omega)
  refine ⟨?_, htotal⟩
  rw [hper, sum_classes, htotal]
  congr 1
  exact List.map_congr_left fun x _ => (sum_inClass x).symm

theorem idle_counters {l : Label} (h : Step s l s') (hl : l.act.idle) :
    s'.total = s.total ∧ s'.perClass = s.perClass ∧ s'.peak = s.peak := by
  cases h <;> first | exact ⟨rfl, rfl, rfl⟩ | cases hl

/-- The total never falls below zero; a class counter does when it has wrapped. -/
theorem Exact.underflow (h : Exact s) {l : Label} (hstep : Step s l s')
    (hunder : Underflows s l.act) :
    ∃ c bytes, l.act = .uncount c bytes ∧ 2 ^ 64 ≤ s.held c := by
  cases hstep with
  | @drop i c bytes hi =>
    have hle : bytes ≤ s.taken := taken_le hi
    have hlt : s.total < bytes := hunder
    have htotal := h.total
    omega
  | @uncount i c bytes hi =>
    refine ⟨c, bytes, rfl, ?_⟩
    have hle := inClass_le_held hi c
    rw [show Task.counted c (.uncount c bytes) = bytes from inClass_self c bytes] at hle
    have hlt : s.perClass c < bytes := hunder
    by_contra hsmall
    rw [h.perClass c, Nat.mod_eq_of_lt (by omega)] at hlt
    omega
  | add hi _ => cases h.commits _ (List.mem_of_getElem? hi)
  | sub hi _ => cases h.commits _ (List.mem_of_getElem? hi)
  | _ => cases hunder

/-- **The ledger under commits and drops**, at every step of every run: the total is at
most the ceiling; between calls it is the sum of the class counters and of the live
commitments; a commit that was refused has changed no counter, and is refused where its
bytes do not fit; no counter falls below zero, but for a class counter whose bytes in
commitments and unfinished drops have passed 64 bits. -/
theorem commit_bounded {ceiling : Nat} (hc : ceiling < 2 ^ 64) {trace : List Label}
    (h : Lts.Run Step (Ledger.new ceiling) trace s) (hno : ∀ l ∈ trace, l.act ≠ .setUsage) :
    s.total ≤ ceiling ∧
      (s.Quiet → s.total = (Class.all.map s.perClass).sum ∧
        s.total = (s.live.map Prod.snd).sum) ∧
      (∀ i, s.tasks[i]? = some .refused → ∀ l ∈ trace, l.task = i → l.act.idle) ∧
      ∀ l s', Step s l s' →
        (l.act.idle → s'.total = s.total ∧ s'.perClass = s.perClass ∧ s'.peak = s.peak) ∧
        (∀ bytes, l.act = .refuse bytes → ceiling < s.total + bytes) ∧
        (Underflows s l.act → ∃ c bytes, l.act = .uncount c bytes ∧ 2 ^ 64 ≤ s.held c) := by
  have hs := exact_of_run hc h hno
  obtain ⟨hceil, -⟩ := sized_of_run h
  have hle := hs.le
  rw [hceil] at hle
  refine ⟨hle, hs.quiet (hceil ▸ hc), fun i hi => (waits_idle h).2 i _ hi rfl, ?_⟩
  intro l s' hstep
  refine ⟨idle_counters hstep, fun bytes hact => ?_, hs.underflow hstep⟩
  cases hstep with
  | refuse hi hask hroom =>
    cases hact
    omega
  | _ => cases hact

/-! ## One commitment, and a class counter that wraps -/

/-- The ledger with one commitment. -/
def Ledger.one (ceiling : Nat) (c : Class) (bytes : Nat) : Ledger :=
  ⟨ceiling, bytes, Function.update (fun _ => 0) c bytes, Function.update (fun _ => 0) c bytes,
    [(c, bytes)], [.done]⟩

/-- A commit alone. -/
theorem commit_one {ceiling : Nat} (c : Class) (hb : 0 < bytes) (hle : bytes ≤ ceiling)
    (hc : ceiling < 2 ^ 64) : ∃ trace, Lts.Run Step (Ledger.new ceiling) trace
      (Ledger.one ceiling c bytes) ∧ ∀ l ∈ trace, l.act ≠ .setUsage := by
  let zero : Class → Nat := fun _ => 0
  let one : Class → Nat := Function.update zero c bytes
  have hcall : Step (Ledger.new ceiling) ⟨0, .call⟩
      ⟨ceiling, 0, zero, zero, [], [.commit c bytes]⟩ := .commit (by omega) (by omega)
  have hfits : Step ⟨ceiling, 0, zero, zero, [], [.commit c bytes]⟩ ⟨0, .fits⟩
      ⟨ceiling, 0, zero, zero, [], [.cas c bytes 0]⟩ := .fits (i := 0) rfl rfl hle
  have htake : Step ⟨ceiling, 0, zero, zero, [], [.cas c bytes 0]⟩ ⟨0, .take bytes⟩
      ⟨ceiling, 0 + bytes, zero, zero, [], [.count c bytes]⟩ := .take (i := 0) rfl
  rw [Nat.zero_add] at htake
  have hcount : Step ⟨ceiling, bytes, zero, zero, [], [.count c bytes]⟩ ⟨0, .count c bytes⟩
      ⟨ceiling, bytes, one, zero, [], [.notePeak c bytes (.commitment c bytes)]⟩ := by
    refine .count (i := 0) rfl ?_
    show bytes = (0 + bytes) % 2 ^ 64
    omega
  have hnote : Step ⟨ceiling, bytes, one, zero, [], [.notePeak c bytes (.commitment c bytes)]⟩
      ⟨0, .peak⟩ ⟨ceiling, bytes, one, zero, [], [.raisePeak c bytes 0 (.commitment c bytes)]⟩ := by
    have h := Step.notePeak (s := ⟨ceiling, bytes, one, zero, [],
      [.notePeak c bytes (.commitment c bytes)]⟩) (i := 0) rfl
    rwa [Ledger.observePeak, if_pos hb] at h
  have hraise : Step ⟨ceiling, bytes, one, zero, [], [.raisePeak c bytes 0 (.commitment c bytes)]⟩
      ⟨0, .peak⟩ (Ledger.one ceiling c bytes) := by
    have hi : (⟨ceiling, bytes, one, zero, [],
        [.raisePeak c bytes 0 (.commitment c bytes)]⟩ : Ledger).tasks[0]? =
      some (.raisePeak c bytes (zero c) (.commitment c bytes)) := rfl
    exact Step.raisePeak hi
  refine ⟨_, (((((Lts.Run.start.next hcall).next hfits).next htake).next hcount).next hnote).next
    hraise, ?_⟩
  intro l hl
  simp only [List.nil_append, List.cons_append, List.mem_cons, List.not_mem_nil, or_false] at hl
  rcases hl with rfl | rfl | rfl | rfl | rfl | rfl <;> exact fun h => by cases h

/-- Seven bytes under a ceiling of ten. -/
theorem seven_committed : (Ledger.one 10 .kv 7).total ≤ 10 ∧
    (Ledger.one 10 .kv 7).total = (Class.all.map (Ledger.one 10 .kv 7).perClass).sum := by
  obtain ⟨trace, hrun, hno⟩ := commit_one .kv (show 0 < 7 by decide) (show 7 ≤ 10 by decide)
    (show 10 < 2 ^ 64 by decide)
  obtain ⟨hle, hquiet, -, -⟩ := commit_bounded (show 10 < 2 ^ 64 by decide) hrun hno
  exact ⟨hle, (hquiet fun t ht => .inl (List.mem_singleton.mp ht)).1⟩

/-- A commitment is dropped, the drop stops between its two subtractions, and the bytes are
committed again: the class has counted them twice. -/
theorem commit_twice {ceiling : Nat} (c : Class) (hb : 0 < bytes) (hle : bytes ≤ ceiling)
    (hc : ceiling < 2 ^ 64) : ∃ trace s, Lts.Run Step (Ledger.new ceiling) trace s ∧
      (∀ l ∈ trace, l.act ≠ .setUsage) ∧ s.tasks[1]? = some (.uncount c bytes) ∧
      s.perClass c = fetchAdd bytes bytes := by
  obtain ⟨trace, hrun, hno⟩ := commit_one c hb hle hc
  let per : Class → Nat := Function.update (fun _ => 0) c bytes
  have hcall : Step (Ledger.one ceiling c bytes) ⟨1, .call⟩
      { Ledger.one ceiling c bytes with
        tasks := [.done, .drop c bytes]
        live := [(c, bytes)].erase (c, bytes) } := .release (List.mem_cons_self ..)
  rw [List.erase_cons_head] at hcall
  have hdrop : Step ⟨ceiling, bytes, per, per, [], [.done, .drop c bytes]⟩ ⟨1, .drop bytes⟩
      ⟨ceiling, fetchSub bytes bytes, per, per, [], [.done, .uncount c bytes]⟩ := .drop (i := 1) rfl
  rw [fetchSub_eq (Nat.le_refl bytes) (by omega), Nat.sub_self] at hdrop
  have hagain : Step ⟨ceiling, 0, per, per, [], [.done, .uncount c bytes]⟩ ⟨2, .call⟩
      ⟨ceiling, 0, per, per, [], [.done, .uncount c bytes, .commit c bytes]⟩ :=
    .commit (by omega) (by omega)
  have hfits : Step ⟨ceiling, 0, per, per, [], [.done, .uncount c bytes, .commit c bytes]⟩
      ⟨2, .fits⟩ ⟨ceiling, 0, per, per, [], [.done, .uncount c bytes, .cas c bytes 0]⟩ :=
    .fits (i := 2) rfl rfl hle
  have htake : Step ⟨ceiling, 0, per, per, [], [.done, .uncount c bytes, .cas c bytes 0]⟩
      ⟨2, .take bytes⟩
      ⟨ceiling, 0 + bytes, per, per, [], [.done, .uncount c bytes, .count c bytes]⟩ :=
    .take (i := 2) rfl
  have hcount : Step ⟨ceiling, 0 + bytes, per, per, [], [.done, .uncount c bytes, .count c bytes]⟩
      ⟨2, .count c bytes⟩ _ := .count (i := 2) rfl rfl
  refine ⟨_, _, (((((hrun.next hcall).next hdrop).next hagain).next hfits).next htake).next hcount,
    ?_, rfl, ?_⟩
  · intro l hl
    simp only [List.append_assoc, List.cons_append, List.nil_append, List.mem_append,
      List.mem_cons, List.not_mem_nil, or_false] at hl
    rcases hl with hl | rfl | rfl | rfl | rfl | rfl | rfl
    · exact hno l hl
    all_goals exact fun h => by cases h
  · show Function.update per c (fetchAdd (Function.update (fun _ => 0) c bytes c) bytes) c = _
    rw [Function.update_self, Function.update_self]

/-- With a ceiling of half the numbers or more, the class counter wraps to nothing, and the
drop subtracts from that. -/
theorem class_wraps : ∃ ceiling trace s l s', ceiling < 2 ^ 64 ∧
    Lts.Run Step (Ledger.new ceiling) trace s ∧ (∀ l ∈ trace, l.act ≠ .setUsage) ∧
    Step s l s' ∧ l.act ≠ .setUsage ∧ Underflows s l.act := by
  obtain ⟨trace, s, hrun, hno, htask, hper⟩ := commit_twice .dense (show 0 < 2 ^ 63 by decide)
    (Nat.le_refl (2 ^ 63)) (by decide)
  refine ⟨2 ^ 63, trace, s, ⟨1, .uncount .dense (2 ^ 63)⟩, _, by decide, hrun, hno,
    .uncount htask, (fun h => by cases h), ?_⟩
  show s.perClass .dense < 2 ^ 63
  rw [hper]
  decide

end Colibri.Ram
