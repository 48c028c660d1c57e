import Colibri.Generate.Invisible
import Colibri.Mtp.Trace

/-!
# The head's rows in a decode run

While a run drafts, the head's cache is kept in step with the verified text: when a turn has
verified its drafts, every row of the head up to two positions before the current one has been
computed from the main stack's hidden row there and the token that follows it
(`head_rows_verified`). The row after those is the first thing the next draft computes. Rows that
rejected drafts have left are further on, and are overwritten before they come into that range.

A run that has switched its drafts off leaves the head alone from then on: it neither keeps its
rows up nor reads them.

The runs are those of the model with origins. They are the model's own runs
(`generateStreamDrafting_traced`).

* `InStep` is the invariant, `InStep.drafted` a draft, and `InStep.step` a turn that verifies its
  drafts; `Decodes.inStep` is the run.
* `InStep.rewrites` is the other half: what is to come overwrites the last row before it is read.
* `rows_after_switch_off` is a run that has switched its drafts off, and a row that is wrong there.
-/

namespace Colibri.Generate

open Kv.Mamba Mtp

section

variable {Row F HRow Hid E : Type}

/-- The model with hidden rows that carry their origin. -/
def Model.traced (m : Model Row F HRow Hid E) :
    Model Row F (TracedRows HRow Hid) (Traced Hid) E where
  forward kv ids pos :=
    (m.forward kv ids pos).map fun r => (r.1.map fun h => ⟨h, none⟩, r.2)
  logits h := m.logits h.row
  gt := m.gt
  negInf := m.negInf
  stopIds := m.stopIds
  hasMtp := m.hasMtp
  mtp := m.mtp.map traceHead

theorem traced_forward (m : Model Row F HRow Hid E) (kv : MainKv Row F) (ids : List Int)
    (pos : Nat) : m.traced.forward kv ids pos =
      (m.forward kv ids pos).map fun r => (r.1.map fun h => ⟨h, none⟩, r.2) := rfl

/-! ## Origins change nothing else -/

def Run.untrace (r : Run Row F (TracedRows HRow Hid) (Traced Hid)) : Run Row F HRow Hid where
  kv := Mtp.untrace r.kv
  mambaSnap := r.mambaSnap
  logit := r.logit
  hlast := r.hlast.row
  pos := r.pos
  budget := r.budget
  proposed := r.proposed
  accepted := r.accepted
  forwards := r.forwards
  emitted := r.emitted
  out := r.out
  spans := r.spans

def Turn.untrace : Turn Row F (TracedRows HRow Hid) (Traced Hid) E → Turn Row F HRow Hid E
  | .next r => .next r.untrace
  | .stop r => .stop r.untrace
  | .fail r f => .fail r.untrace f

theorem autoOff_untrace (r : Run Row F (TracedRows HRow Hid) (Traced Hid)) :
    r.untrace.autoOff = r.autoOff.untrace := by
  rw [Run.autoOff, Run.autoOff]
  have hsame : (r.untrace.budget > 0 ∧ r.untrace.proposed ≥ 24 ∧
      r.untrace.accepted * 10 < r.untrace.proposed) =
      (r.budget > 0 ∧ r.proposed ≥ 24 ∧ r.accepted * 10 < r.proposed) := rfl
  by_cases hoff : r.budget > 0 ∧ r.proposed ≥ 24 ∧ r.accepted * 10 < r.proposed
  · rw [if_pos hoff, if_pos (hsame ▸ hoff)]
    rfl
  · rw [if_neg hoff, if_neg (hsame ▸ hoff)]

theorem propose_untrace (m : Model Row F HRow Hid E)
    (r : Run Row F (TracedRows HRow Hid) (Traced Hid)) (next : Int) :
    propose m r.untrace next =
      ((propose m.traced r next).1.untrace, (propose m.traced r next).2) := by
  rw [propose, propose]
  by_cases hon : r.budget > 0
  · rw [if_pos hon, if_pos (show r.untrace.budget > 0 from hon)]
    have hdraft : draft m.mtp m.pick r.untrace.kv next r.untrace.pos r.untrace.budget
        r.untrace.hlast = _ := draft_untrace m.mtp m.pick r.kv next r.pos r.budget r.hlast
    have hsame : draft (m.mtp.map traceHead) m.pick r.kv next r.pos r.budget r.hlast =
        draft m.traced.mtp m.traced.pick r.kv next r.pos r.budget r.hlast := rfl
    rw [hdraft, hsame]
    generalize draft m.traced.mtp m.traced.pick r.kv next r.pos r.budget r.hlast = res
    obtain ⟨d, none | e⟩ := res
    · rfl
    · rfl
  · rw [if_neg hon, if_neg (show ¬ r.untrace.budget > 0 from hon)]

theorem replay_untrace (m : Model Row F HRow Hid E)
    (r : Run Row F (TracedRows HRow Hid) (Traced Hid)) (ids : List Int) :
    replay m r.untrace ids = ((replay m.traced r ids).1.untrace, (replay m.traced r ids).2) := by
  unfold replay
  dsimp only [Run.untrace, Mtp.untrace]
  cases restoreMambaFrom r.kv.main r.mambaSnap with
  | none => rfl
  | some main =>
    dsimp only [Model.traced]
    rcases m.forward main ids r.pos with e | ⟨hs, main'⟩
    · rfl
    · rfl

/-- The end of a turn with origins is the one without them. -/
theorem settle_untrace (m : Model Row F HRow Hid E) (track : Bool) (batch drafts : List Int)
    (hAll : List (Traced Hid)) (g : Nat) (a : Accept)
    (r : Run Row F (TracedRows HRow Hid) (Traced Hid)) :
    settle m track batch drafts (hAll.map Traced.row) g a r.untrace =
      (settle m.traced track batch drafts hAll g a r).untrace := by
  unfold settle
  have hback : (if track && decide (a.k < g) && !a.done then
        replay m r.untrace (batch.take (1 + a.k)) else (r.untrace, none)) =
      ((if track && decide (a.k < g) && !a.done then
        replay m.traced r (batch.take (1 + a.k)) else (r, none)).1.untrace,
        (if track && decide (a.k < g) && !a.done then
          replay m.traced r (batch.take (1 + a.k)) else (r, none)).2) := by
    split
    next => exact replay_untrace ..
    next => rfl
  rw [hback]
  generalize (if track && decide (a.k < g) && !a.done then
    replay m.traced r (batch.take (1 + a.k)) else (r, none)) = res
  obtain ⟨r₁, none | f⟩ := res
  · dsimp only
    have habs : (if a.k ≥ 1 then
          absorb m.mtp r₁.untrace.kv (drafts.take a.k) (hAll.map Traced.row) r₁.untrace.pos
        else (r₁.untrace.kv, [], none)) =
        (Mtp.untrace (if a.k ≥ 1 then
          absorb m.traced.mtp r₁.kv (drafts.take a.k) hAll r₁.pos else (r₁.kv, [], none)).1,
          (if a.k ≥ 1 then
            absorb m.traced.mtp r₁.kv (drafts.take a.k) hAll r₁.pos else (r₁.kv, [], none)).2) := by
      split
      next => exact absorb_untrace ..
      next => rfl
    rw [habs]
    generalize (if a.k ≥ 1 then
      absorb m.traced.mtp r₁.kv (drafts.take a.k) hAll r₁.pos else (r₁.kv, [], none)) = out
    obtain ⟨kv, spans, none | e⟩ := out
    · dsimp only
      rw [List.getElem?_map]
      cases hAll[a.k]? with
      | none => rfl
      | some h =>
        dsimp only [Option.map_some]
        split <;> rfl
    · rfl
  · rfl

/-- A verify step with origins is the one without them. -/
theorem verify_untrace (m : Model Row F HRow Hid E) (track : Bool) (onToken : List Int → Bool)
    (nNew : Nat) (next : Int) (drafts : List Int)
    (r : Run Row F (TracedRows HRow Hid) (Traced Hid)) :
    verify m track onToken nNew next drafts r.untrace =
      (verify m.traced track onToken nNew next drafts r).untrace := by
  rw [verify, verify, traced_forward]
  have hrows : ∀ hs : List Hid, (hs.map fun h => (⟨h, none⟩ : Traced Hid)).map Traced.row = hs := by
    intro hs
    rw [List.map_map]
    exact List.map_id hs
  have htruths : ∀ hs : List Hid, (hs.map fun h => (⟨h, none⟩ : Traced Hid)).map
      (fun h => m.traced.pick (m.traced.logits h)) = hs.map fun h => m.pick (m.logits h) := by
    intro hs
    rw [List.map_map]
    rfl
  dsimp only [Run.untrace, Mtp.untrace]
  generalize m.forward r.kv.main _ _ = res
  rcases res with e | ⟨hs, main⟩
  · rfl
  · dsimp only [Except.map]
    rw [htruths]
    refine Eq.trans ?_ (settle_untrace m track _ drafts
      (hs.map fun h => (⟨h, none⟩ : Traced Hid)) _ _ _)
    rw [hrows]
    rfl

/-- A turn with origins is the turn without them. -/
theorem turn_untrace (m : Model Row F HRow Hid E) (track : Bool) (onToken : List Int → Bool)
    (nNew : Nat) (r : Run Row F (TracedRows HRow Hid) (Traced Hid)) :
    turn m track onToken nNew r.untrace = (turn m.traced track onToken nNew r).untrace := by
  rw [turn, turn]
  have hemit : r.untrace.emit (m.pick r.untrace.logit) =
      (r.emit (m.traced.pick r.logit)).untrace := rfl
  have hpick : m.pick r.untrace.logit = m.traced.pick r.logit := rfl
  have hstop : m.traced.stopIds = m.stopIds := rfl
  rw [hemit, hpick, hstop, autoOff_untrace, propose_untrace]
  have hout : (r.emit (m.traced.pick r.logit)).untrace.out =
      (r.emit (m.traced.pick r.logit)).out := rfl
  have hemitted : (r.emit (m.traced.pick r.logit)).untrace.emitted =
      (r.emit (m.traced.pick r.logit)).emitted := rfl
  rw [hout, hemitted]
  by_cases hid : m.stopIds.contains (m.traced.pick r.logit) = true
  · rw [if_pos hid, if_pos hid]
    rfl
  · rw [if_neg hid, if_neg hid]
    by_cases hend : (!onToken (r.emit (m.traced.pick r.logit)).out ||
        decide ((r.emit (m.traced.pick r.logit)).emitted ≥ nNew)) = true
    · rw [if_pos hend, if_pos hend]
      rfl
    · rw [if_neg hend, if_neg hend]
      generalize propose m.traced (r.emit (m.traced.pick r.logit)).autoOff
        (m.traced.pick r.logit) = res
      obtain ⟨r₁, e | drafts⟩ := res
      · rfl
      · exact verify_untrace ..

theorem decodeLoop_untrace (m : Model Row F HRow Hid E) (track : Bool)
    (onToken : List Int → Bool) (nNew fuel : Nat)
    (r : Run Row F (TracedRows HRow Hid) (Traced Hid)) :
    decodeLoop m track onToken nNew fuel r.untrace =
      ((decodeLoop m.traced track onToken nNew fuel r).1.untrace,
        (decodeLoop m.traced track onToken nNew fuel r).2) := by
  induction fuel generalizing r with
  | zero => rfl
  | succ fuel ih =>
    rw [decodeLoop, decodeLoop, turn_untrace]
    have hemitted : r.untrace.emitted = r.emitted := rfl
    rw [hemitted]
    by_cases hlt : r.emitted < nNew
    · rw [if_pos hlt, if_pos hlt]
      cases turn m.traced track onToken nNew r with
      | next r' => exact ih r'
      | stop r' => rfl
      | fail r' f => rfl
    · rw [if_neg hlt, if_neg hlt]

/-- A run with origins is the run without them. -/
theorem generateStreamDrafting_traced (m : Model Row F HRow Hid E) (rollbackEnv : Option String)
    (kv : KvCache Row F (TracedRows HRow Hid)) (prompt : List Int) (nNew budget : Nat)
    (onToken : List Int → Bool) :
    generateStreamDrafting m rollbackEnv (Mtp.untrace kv) prompt nNew budget onToken =
      generateStreamDrafting m.traced rollbackEnv kv prompt nNew budget onToken := by
  rw [generateStreamDrafting, generateStreamDrafting, traced_forward]
  by_cases hbad : prompt.length = 0 ∨ kv.maxT < prompt.length + nNew
  · rw [if_pos hbad, if_pos (show _ ∨ (Mtp.untrace kv).maxT < _ from hbad)]
  · rw [if_neg hbad, if_neg (show ¬ (_ ∨ (Mtp.untrace kv).maxT < _) from hbad)]
    have hmain : (Mtp.untrace kv).main = kv.main := rfl
    rw [hmain]
    rcases m.forward kv.main prompt 0 with e | ⟨hidden, main⟩
    · rfl
    · dsimp only [Except.map]
      rw [List.getElem?_map]
      cases hidden[prompt.length - 1]? with
      | none => rfl
      | some hlast =>
        have hloop := decodeLoop_untrace m (main.hasMamba && rollbackEnv.all (· != "0")) onToken
          nNew nNew (Run.start m.traced kv main ⟨hlast, none⟩ prompt.length budget)
        have hstart : Run.start m (Mtp.untrace kv) main hlast prompt.length budget =
            (Run.start m.traced kv main ⟨hlast, none⟩ prompt.length budget).untrace := rfl
        rw [← hstart] at hloop
        dsimp only [Option.map_some]
        rw [show (decodeLoop m _ onToken nNew nNew (Run.start m _ main hlast prompt.length
          budget)) = _ from hloop]
        rfl

/-! ## A turn that verifies -/

/-- The hidden rows a turn's verify forward gives. -/
def verifyRows (m : Model Row F HRow Hid E) (nNew : Nat) (r : Run Row F HRow Hid) : List Hid :=
  let next := m.pick r.logit
  match propose m (r.emit next).autoOff next with
  | (_, .error _) => []
  | (r, .ok drafts) =>
    let g := clamp r.pos drafts.length (nNew - r.emitted) r.kv.maxT
    match m.forward r.kv.main (next :: drafts.take g) r.pos with
    | .error _ => []
    | .ok (hAll, _) => hAll

/-- A turn that verifies: it goes on after it, or stops there. One that stops before it leaves
the position where it is. -/
def Verifies (m : Model Row F HRow Hid E) (track : Bool) (onToken : List Int → Bool) (nNew : Nat)
    (r r' : Run Row F HRow Hid) : Prop :=
  turn m track onToken nNew r = .next r' ∨
    (turn m track onToken nNew r = .stop r' ∧ r.pos < r'.pos)

/-- How a turn that verifies ends: `k` of the drafts are accepted, and `absorb` has run over
them in a cache `kv` with the head as `propose` left it. -/
structure Settled (m : Model Row F HRow Hid E) (nNew : Nat) (r r' : Run Row F HRow Hid)
    (r₁ : Run Row F HRow Hid) (drafts : List Int) (k : Nat) (kv : KvCache Row F HRow) :
    Prop where
  more : r.emitted + 1 < nNew
  propose : propose m (r.emit (m.pick r.logit)).autoOff (m.pick r.logit) = (r₁, .ok drafts)
  le : k ≤ drafts.length
  hlast : (verifyRows m nNew r)[k]? = some r'.hlast
  out : r'.out = r.out ++ m.pick r.logit :: drafts.take k
  pos : r'.pos = r.pos + (1 + k)
  budget : r'.budget = r₁.budget
  head : kv.head = r₁.kv.head
  absorbed : ∃ spans,
    absorb m.mtp kv (drafts.take k) (verifyRows m nNew r) r.pos = (r'.kv, spans, none)

variable {m : Model Row F HRow Hid E} {track : Bool} {onToken : List Int → Bool}
variable {nNew : Nat} {r r' : Run Row F HRow Hid}

theorem absorb_nil (mtp : Option (MtpHead Row F HRow Hid E)) (kv : KvCache Row F HRow)
    (hs : List Hid) (pos : Nat) : absorb mtp kv [] hs pos = (kv, [], none) := by
  cases mtp <;> rfl

/-- The end of a turn that does not fail. -/
theorem settle_cases {batch drafts : List Int} {hAll : List Hid} {g : Nat} {a : Accept}
    {t : Turn Row F HRow Hid E} (h : settle m track batch drafts hAll g a r = t)
    (hok : t = .next r' ∨ t = .stop r') :
    ∃ kv spans hid, kv.head = r.kv.head ∧
      absorb m.mtp kv (drafts.take a.k) hAll r.pos = (r'.kv, spans, none) ∧
      hAll[a.k]? = some hid ∧ r'.hlast = hid ∧ r'.pos = r.pos + (1 + a.k) ∧ r'.out = r.out ∧
      r'.budget = r.budget := by
  unfold settle at h
  have hback : ∀ res, (if track && decide (a.k < g) && !a.done then
      replay m r (batch.take (1 + a.k)) else (r, none)) = res →
      ∃ main spans, res.1 = { r with kv := { r.kv with main }, spans } := by
    intro res hres
    rw [← hres]
    split
    next => exact replay_same ..
    next => exact ⟨r.kv.main, r.spans, rfl⟩
  generalize (if track && decide (a.k < g) && !a.done then
    replay m r (batch.take (1 + a.k)) else (r, none)) = res at hback h
  obtain ⟨main, spans, hsame⟩ := hback _ rfl
  obtain ⟨r₁, none | f⟩ := res
  · dsimp only at hsame h
    subst hsame
    have habs : (if a.k ≥ 1 then absorb m.mtp { r.kv with main } (drafts.take a.k) hAll r.pos
        else ({ r.kv with main }, [], none)) =
        absorb m.mtp { r.kv with main } (drafts.take a.k) hAll r.pos := by
      split
      next => rfl
      next hk =>
        have hzero : a.k = 0 := by omega
        rw [hzero, List.take_zero, absorb_nil]
    dsimp only at h
    rw [habs] at h
    rcases hrun : absorb m.mtp { r.kv with main } (drafts.take a.k) hAll r.pos
      with ⟨kv, ss, none | e⟩
    · rw [hrun] at h
      dsimp only at h
      cases hget : hAll[a.k]? with
      | none =>
        rw [hget] at h
        subst h
        rcases hok with hok | hok <;> cases hok
      | some hid =>
        rw [hget] at h
        dsimp only at h
        split at h
        next =>
          subst h
          rcases hok with hok | hok <;> cases hok
          exact ⟨{ r.kv with main }, ss, _, rfl, hrun, rfl, rfl, rfl, rfl, rfl⟩
        next =>
          subst h
          rcases hok with hok | hok <;> cases hok
          exact ⟨{ r.kv with main }, ss, _, rfl, hrun, rfl, rfl, rfl, rfl, rfl⟩
    · rw [hrun] at h
      subst h
      rcases hok with hok | hok <;> cases hok
  · subst h
    rcases hok with hok | hok <;> cases hok

/-- Of the pairs the accept loop goes through, the first `k` drafts are the first `k` of all. -/
theorem take_zip_snd {α β : Type} (as : List α) (bs : List β) {g k : Nat}
    (h : k ≤ (as.zip (bs.take g)).length) :
    ((as.zip (bs.take g)).map Prod.snd).take k = bs.take k := by
  rw [List.length_zip, List.length_take] at h
  rw [List.zip_eq_zip_take_min, List.map_snd_zip (by simp only [List.length_take]; omega),
    List.take_take, List.take_take]
  congr 1
  rw [List.length_take]
  omega

/-- A turn that verified its drafts, taken apart. -/
theorem Verifies.cases (h : Verifies m track onToken nNew r r') :
    ∃ r₁ drafts k kv, Settled m nNew r r' r₁ drafts k kv := by
  have hturn : ∃ t, turn m track onToken nNew r = t ∧ (t = .next r' ∨ t = .stop r') ∧
      (t = .stop r' → r.pos < r'.pos) := by
    rcases h with h | ⟨h, hpos⟩
    · refine ⟨_, h, Or.inl rfl, ?_⟩
      intro hstop
      cases hstop
    · exact ⟨_, h, Or.inr rfl, fun _ => hpos⟩
  obtain ⟨t, ht, hok, hmoved⟩ := hturn
  -- the turn has moved, so it did not end before its verify forward
  have hearly : t ≠ .stop (r.emit (m.pick r.logit)) := by
    intro hstop
    have hr' : r' = r.emit (m.pick r.logit) := by
      rw [hstop] at hok
      rcases hok with hok | hok <;> cases hok
      rfl
    have := hmoved (by rw [hstop, hr'])
    rw [hr'] at this
    exact Nat.lt_irrefl _ this
  unfold turn at ht
  dsimp only at ht
  split at ht
  next => exact absurd ht.symm hearly
  next =>
    split at ht
    next => exact absurd ht.symm hearly
    next hgo =>
      have hmore : r.emitted + 1 < nNew := by
        simp only [Bool.or_eq_true, decide_eq_true_eq, not_or] at hgo
        have hlt : ¬ r.emitted + 1 ≥ nNew := hgo.2
        omega
      have hsame := propose_proposed m (r.emit (m.pick r.logit)).autoOff (m.pick r.logit)
      rcases hp : propose m (r.emit (m.pick r.logit)).autoOff (m.pick r.logit)
        with ⟨r₁, e | drafts⟩
      · rw [hp] at ht
        subst ht
        rcases hok with hok | hok <;> cases hok
      · rw [hp] at ht hsame
        have hr₁ := hsame.same
        dsimp only at ht hr₁
        rw [Run.autoOff_eq] at hr₁
        have hpos₁ : r₁.pos = r.pos := by rw [hr₁]; rfl
        have hem₁ : r₁.emitted = r.emitted + 1 := by rw [hr₁]; rfl
        have hout₁ : r₁.out = r.out ++ [m.pick r.logit] := by rw [hr₁]; rfl
        unfold verify at ht
        dsimp only at ht
        have hrows : verifyRows m nNew r =
            match m.forward r₁.kv.main (m.pick r.logit :: drafts.take
              (clamp r₁.pos drafts.length (nNew - r₁.emitted) r₁.kv.maxT)) r₁.pos with
            | .error _ => []
            | .ok (hAll, _) => hAll := by
          simp only [verifyRows, hp]
        generalize clamp r₁.pos drafts.length (nNew - r₁.emitted) r₁.kv.maxT = g at ht hrows
        rcases hf : m.forward r₁.kv.main (m.pick r.logit :: drafts.take g) r₁.pos
          with e | ⟨hAll, main⟩
        · rw [hf] at ht
          subst ht
          rcases hok with hok | hok <;> cases hok
        · rw [hf] at ht hrows
          dsimp only at ht hrows
          obtain ⟨j, hj, hk, -, -, ho⟩ := @accept_offered nNew m.stopIds onToken
            ((hAll.map fun h => m.pick (m.logits h)).zip (drafts.take g))
            ⟨0, r₁.emitted, r₁.out, false⟩ (show r₁.emitted ≤ nNew by omega)
          generalize accept m.stopIds onToken nNew _ _ = a at ht hk ho
          dsimp only at hk ho
          rw [Nat.zero_add] at hk
          obtain ⟨kv, spans, hid, hhead, habs, hget, hlast, hpos, hout, hbudget⟩ :=
            settle_cases ht hok
          rw [hk] at habs hget hpos
          refine ⟨r₁, drafts, j, kv, ⟨hmore, hp, ?_, ?_, ?_, ?_, hbudget, hhead, spans, ?_⟩⟩
          · rw [List.length_zip, List.length_take] at hj
            omega
          · rw [hrows, hget, hlast]
          · have hkept : r'.out = a.out := hout
            rw [hkept, ho, take_zip_snd _ _ hj, hout₁, List.append_assoc]
            rfl
          · have hp' : r'.pos = r₁.pos + (1 + j) := hpos
            rw [hp', hpos₁]
          · rw [hrows, ← hpos₁]
            exact habs

/-! ## Runs -/

def kvUnset : Nat := 2 ^ 64 - 1

/-- A cache as `for_model` makes it: none of the head's `n` layers has started. -/
structure ForModel (n : Nat) (kv : KvCache Row F HRow) : Prop where
  starts : kv.head.kvStart = List.replicate n kvUnset
  maxT : kv.maxT < 2 ^ 64

/-- The states at the head of a run's turns, each with the main stack's hidden rows from the last
position of the prompt up to the one before the current: those of the tokens accepted, as the
forward that verified them gave them. -/
inductive Decodes (m : Model Row F HRow Hid E) (track : Bool) (onToken : List Int → Bool)
    (nNew budget : Nat) (kv : KvCache Row F HRow) (prompt : List Int) :
    Run Row F HRow Hid → List Hid → Prop
  | start {hidden main hlast} : prompt ≠ [] → prompt.length + nNew ≤ kv.maxT →
      m.forward kv.main prompt 0 = .ok (hidden, main) →
      hidden[prompt.length - 1]? = some hlast →
      Decodes m track onToken nNew budget kv prompt
        (Run.start m kv main hlast prompt.length budget) [hlast]
  | step {r r' hids} : Decodes m track onToken nNew budget kv prompt r hids →
      turn m track onToken nNew r = .next r' →
      Decodes m track onToken nNew budget kv prompt r'
        (hids ++ (verifyRows m nNew r).take (r'.pos - r.pos))

variable {budget : Nat} {kv : KvCache Row F HRow} {prompt : List Int} {hids : List Hid}

/-- A run stays inside the cache, with room for what is still owed. -/
theorem Decodes.within (h : Decodes m track onToken nNew budget kv prompt r hids) :
    Within nNew kv.maxT r ∧ r.pos + (nNew - r.emitted) ≤ kv.maxT ∧ prompt ≠ [] := by
  induction h with
  | start hne hroom _ _ =>
    refine ⟨⟨rfl, rfl, Nat.zero_le _, Nat.le_refl _, ?_⟩, ?_, hne⟩
    · intro s hs
      rw [List.mem_singleton.mp hs]
      show 0 + prompt.length ≤ kv.maxT
      omega
    · show prompt.length + (nNew - 0) ≤ kv.maxT
      omega
  | @step r r' _ _ hturn ih =>
    obtain ⟨hw, hfit, hne⟩ := ih
    obtain ⟨r₁, drafts, k, kv₁, hset⟩ := Verifies.cases (Or.inl hturn)
    obtain ⟨hw', hmove⟩ := within_turn m track onToken hw (by have := hset.more; omega) hfit
    obtain ⟨hpos, hgrow⟩ := hmove r' hturn
    rw [hturn] at hw'
    have howed : r'.emitted ≤ nNew := hw'.owed
    exact ⟨hw', by omega, hne⟩

end

section

variable {Row F HRow Hid E : Type}

/-- The origin of a row that is kept: the token, and the main stack's own hidden row before
it. -/
def own (t : Int) (h : Traced Hid) : Origin Hid := ⟨t, h.row, true, true⟩

/-- What the turns of a drafting run keep. `hids` starts at the last position of the prompt. -/
structure InStep (n s : Nat) (r : Run Row F (TracedRows HRow Hid) (Traced Hid))
    (hids : List (Traced Hid)) : Prop where
  out : r.out.length + s = r.pos
  length : hids.length = r.out.length + 1
  last : hids[r.out.length]? = some r.hlast
  main : ∀ h ∈ hids, h.origin = none
  layers : r.kv.head.kvStart.length = n
  starts : ∀ x ∈ r.kv.head.kvStart, s - 1 ≤ x
  rows : 0 < r.budget → ∀ l < n, ∀ i t h, r.out[i]? = some t → hids[i]? = some h →
    r.kv.head.rows.origin l (s - 1 + i) = some (own t h)

/-- **The rows that are kept**: from the start of each layer up to `pos - 2`, each row of the
head has been computed from the token after it and the main stack's own hidden row. -/
def KeptRows (s : Nat) (r : Run Row F (TracedRows HRow Hid) (Traced Hid))
    (hids : List (Traced Hid)) : Prop :=
  ∀ l start, r.kv.head.kvStart[l]? = some start → ∀ p, start ≤ p → p + 2 ≤ r.pos →
    ∃ t h, r.out[p + 1 - s]? = some t ∧ hids[p + 1 - s]? = some h ∧
      r.kv.head.rows.origin l p = some (own t h)

variable {m : Model Row F HRow Hid E} {head : MtpHead Row F HRow Hid E} {track : Bool}
variable {onToken : List Int → Bool} {nNew n s : Nat}
variable {r r' : Run Row F (TracedRows HRow Hid) (Traced Hid)} {hids : List (Traced Hid)}

theorem InStep.kept (h : InStep n s r hids) (hs : 0 < s) (hon : 0 < r.budget) :
    KeptRows s r hids := by
  intro l start hstart p hp hpos
  have hl : l < n := by
    rw [← h.layers]
    exact (List.getElem?_eq_some_iff.mp hstart).1
  have hlow := h.starts start (List.mem_of_getElem? hstart)
  have hout := h.out
  have hlen := h.length
  have hi : p + 1 - s < r.out.length := by omega
  obtain ⟨t, ht⟩ : ∃ t, r.out[p + 1 - s]? = some t := ⟨_, List.getElem?_eq_getElem hi⟩
  obtain ⟨x, hx⟩ : ∃ x, hids[p + 1 - s]? = some x :=
    ⟨_, List.getElem?_eq_getElem (by omega)⟩
  refine ⟨t, x, ht, hx, ?_⟩
  have hp' : s - 1 + (p + 1 - s) = p := by omega
  rw [← hp']
  exact h.rows hon l hl _ t x ht hx

/-- The main stack's rows come without an origin. -/
theorem verifyRows_main {x : Traced Hid} (hx : x ∈ verifyRows m.traced nNew r) :
    x.origin = none := by
  unfold verifyRows at hx
  dsimp only at hx
  split at hx
  next => cases hx
  next r₁ drafts _ =>
    split at hx
    next => cases hx
    next hAll main hf =>
      simp only [Model.traced] at hf
      generalize m.forward _ _ _ = res at hf
      rcases res with e | ⟨hs, main'⟩
      · cases hf
      · cases hf
        obtain ⟨h, -, rfl⟩ := List.mem_map.mp hx
        rfl

/-- A draft that was run, or none because drafts are off. -/
theorem propose_cases {X Y : Type} {m : Model Row F X Y E} {r r₁ : Run Row F X Y} {next : Int}
    {drafts : List Int} (h : propose m r next = (r₁, .ok drafts)) :
    (r.budget = 0 ∧ r₁ = r ∧ drafts = []) ∨
      0 < r.budget ∧ ∃ d, draft m.mtp m.pick r.kv next r.pos r.budget r.hlast = (d, none) ∧
        drafts = d.out ∧ r₁ = { r with
          kv := d.kv
          spans := r.spans ++ d.spans
          proposed := r.proposed + d.out.length } := by
  unfold propose at h
  split at h
  next hon =>
    rcases hd : draft m.mtp m.pick r.kv next r.pos r.budget r.hlast with ⟨d, none | e⟩
    · rw [hd] at h
      cases h
      exact Or.inr ⟨hon, d, rfl, rfl, rfl⟩
    · rw [hd] at h
      cases h
  next hoff =>
    cases h
    exact Or.inl ⟨by omega, rfl, rfl⟩

theorem autoOff_budget_pos {X Y : Type} {r : Run Row F X Y} (h : 0 < r.autoOff.budget) :
    0 < r.budget := by
  unfold Run.autoOff at h
  split at h
  next => cases h
  next => exact h

/-- The next draft of a drafting run. -/
theorem InStep.drafted (h : InStep n s r hids) (hn : n = head.blocks.length) (hs : 0 < s)
    (hm : m.mtp = some head) (hinplace : head.InPlace) (hroom : r.pos + 1 < r.kv.maxT)
    {next : Int} {d : DraftSt Row F (TracedRows HRow Hid) (Traced Hid)} {b : Nat} (hb : 0 < b)
    (hrun : draft m.traced.mtp m.traced.pick r.kv next r.pos b r.hlast = (d, none)) :
    Drafted n r.pos next r.hlast r.kv d := by
  have hout := h.out
  have hmtp : m.traced.mtp = some (traceHead head) := by
    show m.mtp.map traceHead = _
    rw [hm]
    rfl
  rw [hmtp] at hrun
  rw [hn]
  exact draft_rows hinplace (by omega) hb hroom hrun

/-- After the draft, if there is one, the rows up to the last position are kept: the token after
it is the one just offered. -/
theorem InStep.proposed (h : InStep n s r hids) (hn : n = head.blocks.length) (hs : 0 < s)
    (hm : m.mtp = some head) (hinplace : head.InPlace) (hroom : r.pos + 1 < r.kv.maxT)
    {r₁ : Run Row F (TracedRows HRow Hid) (Traced Hid)} {next : Int} {drafts : List Int}
    (hrun : propose m.traced (r.emit next).autoOff next = (r₁, .ok drafts)) :
    r₁.kv.head.kvStart.length = n ∧ (∀ x ∈ r₁.kv.head.kvStart, s - 1 ≤ x) ∧
      (0 < r₁.budget → ∀ l < n, ∀ i t x, (r.out ++ [next])[i]? = some t → hids[i]? = some x →
        r₁.kv.head.rows.origin l (s - 1 + i) = some (own t x)) := by
  have hout := h.out
  have hlen := h.length
  have hoff := Run.autoOff_eq (r.emit next)
  generalize hb : (r.emit next).autoOff.budget = b at hoff
  have hbudget : 0 < b → 0 < r.budget := by
    intro hpos
    exact autoOff_budget_pos (r := r.emit next) (by rw [hb]; exact hpos)
  rw [hoff] at hrun
  rcases propose_cases hrun with ⟨hzero, rfl, -⟩ | ⟨hpos, d, hd, -, rfl⟩
  · refine ⟨h.layers, h.starts, ?_⟩
    intro hon
    exact absurd hon (by rw [hzero]; omega)
  · have hdr := h.drafted hn hs hm hinplace hroom hpos hd
    refine ⟨hdr.layers.trans h.layers, hdr.starts (s - 1) (by omega) h.starts, ?_⟩
    intro _ l hl i t x ht hx
    rw [List.getElem?_append] at ht
    split at ht
    next hi =>
      have hbelow := hdr.below l (s - 1 + i) (by omega)
      exact hbelow.trans (h.rows (hbudget hpos) l hl i t x ht hx)
    next hi =>
      -- the token just offered, after the last hidden row
      have hi' : i = r.out.length := by
        have := (List.getElem?_eq_some_iff.mp ht).1
        simp at this
        omega
      subst hi'
      rw [Nat.sub_self] at ht
      cases ht
      have hlast := h.last
      rw [hx] at hlast
      cases hlast
      have hrow := hdr.row l hl
      have hmain := h.main _ (List.mem_of_getElem? hx)
      have hat : s - 1 + r.out.length = r.pos - 1 := by omega
      rw [hat]
      refine hrow.trans ?_
      rw [hmain]
      rfl

/-- **A turn** that verifies its drafts leaves the head in step. -/
theorem InStep.step (h : InStep n s r hids) (hn : n = head.blocks.length) (hs : 0 < s)
    (hm : m.mtp = some head) (hinplace : head.InPlace)
    (hfit : r.pos + (nNew - r.emitted) ≤ r.kv.maxT)
    (hstep : Verifies m.traced track onToken nNew r r') :
    InStep n s r' (hids ++ (verifyRows m.traced nNew r).take (r'.pos - r.pos)) := by
  obtain ⟨r₁, drafts, k, kv, hset⟩ := hstep.cases
  have hmore := hset.more
  have hout := h.out
  have hlen := h.length
  have hmoved : r'.pos - r.pos = 1 + k := by
    rw [hset.pos]
    omega
  have hmtp : m.traced.mtp = some (traceHead head) := by
    show m.mtp.map traceHead = _
    rw [hm]
    rfl
  obtain ⟨spans, habs⟩ := hset.absorbed
  rw [hmtp] at habs
  have hab := absorb_rows hinplace habs
  have hk : k < (verifyRows m.traced nNew r).length :=
    (List.getElem?_eq_some_iff.mp hset.hlast).1
  have hle := hset.le
  obtain ⟨hlayers, hstarts, hrows⟩ :=
    h.proposed hn hs hm hinplace (by omega) hset.propose
  rw [← hset.head] at hlayers hstarts hrows
  have hout' : r'.out.length = r.out.length + (1 + k) := by
    rw [hset.out, List.length_append, List.length_cons, List.length_take]
    omega
  have htake : ((verifyRows m.traced nNew r).take (1 + k)).length = 1 + k := by
    rw [List.length_take]
    omega
  rw [hmoved]
  refine ⟨?_, ?_, ?_, ?_, hab.layers.trans hlayers, ?_, ?_⟩
  · rw [hout', hset.pos]
    omega
  · rw [List.length_append, htake, hout']
    omega
  · rw [List.getElem?_append_right (by omega), List.getElem?_take, if_pos (by omega)]
    have hat : r'.out.length - hids.length = k := by omega
    rw [hat, hset.hlast]
  · intro x hx
    rcases List.mem_append.mp hx with hx | hx
    · exact h.main x hx
    · exact verifyRows_main (List.mem_of_mem_take hx)
  · exact hab.starts (s - 1) (by omega) hstarts
  · intro hon l hl i t x ht hx
    rw [hset.budget] at hon
    have hcons : r.out ++ m.traced.pick r.logit :: drafts.take k =
        (r.out ++ [m.traced.pick r.logit]) ++ drafts.take k := by
      rw [List.append_assoc]
      rfl
    rw [hset.out, hcons, List.getElem?_append] at ht
    rw [List.getElem?_append] at hx
    split at ht
    next hi =>
      -- a row up to the last position: `absorb` leaves it
      rw [List.length_append, List.length_singleton] at hi
      rw [if_pos (by omega)] at hx
      have hother := hab.other l (s - 1 + i) (by omega)
      exact hother.trans (hrows hon l hl i t x ht hx)
    next hi =>
      -- an accepted draft
      rw [List.length_append, List.length_singleton] at hi ht
      rw [if_neg (by omega), List.getElem?_take] at hx
      split at hx
      next hj =>
        have hidx : i - hids.length = i - (r.out.length + 1) := by omega
        rw [hidx] at hx
        have hrow := hab.row l (hn ▸ hl) _ t x ht hx
        have hat : s - 1 + i = r.pos + (i - (r.out.length + 1)) := by omega
        rw [hat]
        refine hrow.trans ?_
        rw [verifyRows_main (List.mem_of_getElem? hx)]
        rfl
      next => cases hx

/-- **A run** keeps the head in step, by induction on its turns. -/
theorem Decodes.inStep {budget : Nat} {kv : KvCache Row F (TracedRows HRow Hid)}
    {prompt : List Int} (hm : m.mtp = some head) (hinplace : head.InPlace)
    (hkv : ForModel head.blocks.length kv)
    (h : Decodes m.traced track onToken nNew budget kv prompt r hids) :
    InStep head.blocks.length prompt.length r hids := by
  induction h with
  | @start hidden main hlast hne hroom hf hget =>
    have hlen := List.length_pos_iff.mpr hne
    have hmax := hkv.maxT
    refine ⟨Nat.zero_add _, rfl, rfl, ?_, ?_, ?_, ?_⟩
    · intro h hh
      rw [List.mem_singleton.mp hh]
      simp only [Model.traced] at hf
      generalize m.forward _ _ _ = res at hf
      rcases res with e | ⟨hs, main'⟩
      · cases hf
      · cases hf
        obtain ⟨x, -, rfl⟩ := List.mem_map.mp (List.mem_of_getElem? hget)
        rfl
    · show kv.head.kvStart.length = _
      rw [hkv.starts, List.length_replicate]
    · intro x hx
      have hx' : x ∈ kv.head.kvStart := hx
      rw [hkv.starts] at hx'
      rw [(List.mem_replicate.mp hx').2, kvUnset]
      omega
    · intro _ l _ i t x ht
      simp [Run.start] at ht
  | step hd hturn ih =>
    obtain ⟨hw, hfit, hne⟩ := hd.within
    rw [← hw.cap] at hfit
    exact ih.step rfl (List.length_pos_iff.mpr hne) hm hinplace hfit (Or.inl hturn)

/-- The next draft starts with the row at `pos - 1`: that is the first thing it runs over, and
each layer computes it from the token just offered and the main stack's last hidden row. -/
def RewritesLast (m : Model Row F (TracedRows HRow Hid) (Traced Hid) E) (nNew n : Nat)
    (r : Run Row F (TracedRows HRow Hid) (Traced Hid)) : Prop :=
  ∀ r₁ drafts, r.emitted + 1 < nNew →
    propose m (r.emit (m.pick r.logit)).autoOff (m.pick r.logit) = (r₁, .ok drafts) →
    0 < r₁.budget → (∃ ss, r₁.spans = r.spans ++ ⟨r.pos - 1, 1⟩ :: ss) ∧
      ∀ l < n, r₁.kv.head.rows.origin l (r.pos - 1) = some (own (m.pick r.logit) r.hlast)

/-- The row behind those that are kept is written before it is read. -/
theorem InStep.rewrites (h : InStep n s r hids) (hn : n = head.blocks.length) (hs : 0 < s)
    (hm : m.mtp = some head) (hinplace : head.InPlace)
    (hfit : r.pos + (nNew - r.emitted) ≤ r.kv.maxT) : RewritesLast m.traced nNew n r := by
  intro r₁ drafts hmore hrun hon
  have hout := h.out
  constructor
  · have hoff := Run.autoOff_eq (r.emit (m.traced.pick r.logit))
    generalize (r.emit (m.traced.pick r.logit)).autoOff.budget = b at hoff
    rw [hoff] at hrun
    rcases propose_cases hrun with ⟨hzero, rfl, -⟩ | ⟨hpos, d, hd, -, rfl⟩
    · exact absurd hon (by rw [hzero]; omega)
    · have hdr := h.drafted hn hs hm hinplace (by omega) hpos hd
      obtain ⟨ss, hss⟩ := hdr.first
      exact ⟨ss, congrArg (r.spans ++ ·) hss⟩
  · intro l hl
    obtain ⟨-, -, hrows⟩ := h.proposed hn hs hm hinplace (by omega) hrun
    have hat : r.pos - 1 = s - 1 + r.out.length := by omega
    rw [hat]
    have hnext : (r.out ++ [m.traced.pick r.logit])[r.out.length]? =
        some (m.traced.pick r.logit) := List.getElem?_concat_length
    exact hrows hon l hl _ _ _ hnext h.last

/-- **What a verified step leaves in the head's cache.** While drafts are on, the rows up to
`pos - 2` are kept, and the next draft starts with the one at `pos - 1`. With drafts off the step
leaves the head as it was. -/
theorem head_rows_verified {budget : Nat} {kv : KvCache Row F (TracedRows HRow Hid)}
    {prompt : List Int} (hm : m.mtp = some head) (hinplace : head.InPlace)
    (hkv : ForModel head.blocks.length kv)
    (hrun : Decodes m.traced track onToken nNew budget kv prompt r hids)
    (hstep : Verifies m.traced track onToken nNew r r') :
    (0 < r'.budget →
      KeptRows prompt.length r' (hids ++ (verifyRows m.traced nNew r).take (r'.pos - r.pos)) ∧
        (turn m.traced track onToken nNew r = .next r' →
          RewritesLast m.traced nNew head.blocks.length r')) ∧
      (r'.budget = 0 → r'.kv.head = r.kv.head) := by
  obtain ⟨hw, hfit, hne⟩ := hrun.within
  have hs := List.length_pos_iff.mpr hne
  rw [← hw.cap] at hfit
  have hsync := hrun.inStep hm hinplace hkv
  have hsync' := hsync.step rfl hs hm hinplace hfit hstep
  refine ⟨fun hon => ⟨hsync'.kept hs hon, ?_⟩, ?_⟩
  · intro hturn
    obtain ⟨hw', hfit', -⟩ := (hrun.step hturn).within
    rw [← hw'.cap] at hfit'
    exact hsync'.rewrites rfl hs hm hinplace hfit'
  · intro hoff
    obtain ⟨r₁, drafts, k, kv₁, hset⟩ := hstep.cases
    have hp := hset.propose
    rw [Run.autoOff_eq] at hp
    rcases propose_cases hp with ⟨-, hr₁, hd⟩ | ⟨hpos, d, -, -, hr₁⟩
    · obtain ⟨spans, habs⟩ := hset.absorbed
      rw [hd, List.take_nil, absorb_nil] at habs
      cases habs
      rw [hset.head, hr₁]
      rfl
    · have hb := hset.budget
      rw [hr₁, hoff] at hb
      have hzero : (r.emit (m.traced.pick r.logit)).autoOff.budget = 0 := hb.symm
      exact absurd hpos (Nat.not_lt.mpr (Nat.le_of_eq hzero))

end

/-! ## A head that is never right -/

/-- Its one block computes nothing, and it always proposes token 0. -/
def wrongHead : MtpHead Unit Nat Unit Int Unit where
  blocks := [fun _ hx _ => .ok (hx, ())]
  fuse tok _ _ := tok
  logits _ := [1, 0]

/-- The hidden row of a token is the token, and the next one is always 1. -/
def onesModel : Model Unit Nat Unit Int Unit where
  forward kv ids _ := .ok (ids, kv)
  logits _ := [0, 1]
  gt a b := decide (b < a)
  negInf := 0
  stopIds := []
  hasMtp := true
  mtp := some wrongHead

def onesCache : KvCache Unit Nat (TracedRows Unit Int) where
  maxT := 40
  main := ⟨fun _ => (), [], [], 0, rfl, fun _ => ⟨by simp, by simp⟩⟩
  head := ⟨[kvUnset], (), fun _ _ => none⟩

/-- The run with a budget of 24: the state after the prompt, and after each of two turns. -/
def onesRun : Nat → Run Unit Nat (TracedRows Unit Int) (Traced Int)
  | 0 => Run.start onesModel.traced onesCache onesCache.main ⟨5, none⟩ 1 24
  | n + 1 => (turn onesModel.traced false (fun _ => true) 4 (onesRun n)).run

def Turn.goesOn {Row F HRow Hid E : Type} : Turn Row F HRow Hid E → Bool
  | .next _ => true
  | _ => false

theorem Turn.next_run {Row F HRow Hid E : Type} {t : Turn Row F HRow Hid E}
    (h : t.goesOn = true) : t = .next t.run := by
  cases t with
  | next r => rfl
  | stop r => cases h
  | fail r f => cases h

theorem onesRun_next {n : Nat}
    (h : (turn onesModel.traced false (fun _ => true) 4 (onesRun n)).goesOn = true) :
    turn onesModel.traced false (fun _ => true) 4 (onesRun n) = .next (onesRun (n + 1)) :=
  Turn.next_run h

theorem onesRun_start : Decodes onesModel.traced false (fun _ => true) 4 24 onesCache [5]
    (onesRun 0) [⟨5, none⟩] :=
  .start (by simp) (by decide) rfl rfl

/-- In the first turn all drafts are rejected, and the one row before the new position is right. -/
theorem head_rows_verified_ones : 0 < (onesRun 1).budget ∧
    KeptRows 1 (onesRun 1) ([⟨5, none⟩] ++
      (verifyRows onesModel.traced 4 (onesRun 0)).take ((onesRun 1).pos - (onesRun 0).pos)) := by
  have hon : 0 < (onesRun 1).budget := by decide
  have hinplace : wrongHead.InPlace := by
    intro b hb kv hx pos out rows h
    rw [List.mem_singleton.mp hb] at h
    cases h
    rfl
  have hkv : ForModel wrongHead.blocks.length onesCache := ⟨rfl, by decide⟩
  have hturn := @onesRun_next 0 (by decide)
  exact ⟨hon, ((head_rows_verified rfl hinplace hkv onesRun_start (Or.inl hturn)).1 hon).1⟩

/-- The second turn switches the drafts off. After it the row at `pos - 2` is still the one that
the second draft of the first turn computed, from the head's own output. -/
theorem rows_after_switch_off : ∃ r r' hids,
    Decodes onesModel.traced false (fun _ => true) 4 24 onesCache [5] r hids ∧
      Verifies onesModel.traced false (fun _ => true) 4 r r' ∧
      r'.kv.head.rows.origin 0 (r'.pos - 2) = some ⟨0, 1, false, false⟩ ∧
      ¬ KeptRows 1 r' (hids ++ (verifyRows onesModel.traced 4 r).take (r'.pos - r.pos)) := by
  have hfirst := @onesRun_next 0 (by decide)
  have hsecond := @onesRun_next 1 (by decide)
  have hrow : (onesRun 2).kv.head.rows.origin 0 ((onesRun 2).pos - 2) =
      some ⟨0, 1, false, false⟩ := by decide
  have hpos : (onesRun 2).pos = 3 := by decide
  have hstart : (onesRun 2).kv.head.kvStart[0]? = some 0 := by decide
  refine ⟨_, _, _, onesRun_start.step hfirst, Or.inl hsecond, hrow, ?_⟩
  intro hkept
  obtain ⟨t, h, -, -, horigin⟩ := hkept 0 0 hstart ((onesRun 2).pos - 2) (Nat.zero_le _)
    (by simp [hpos])
  rw [hrow] at horigin
  simp [own] at horigin

end Colibri.Generate
