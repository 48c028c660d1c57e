import Colibri.Mtp.Head
import Colibri.Config

/-!
# Streaming decode with drafts

`generateStreamDrafting` as the engine runs it: prefill, then turns that offer the next
token, let the head draft some more, verify them in one forward over the whole batch,
offer those the model would have produced itself, and put the cache back to the last
accepted position. A callback's answer is a function of the tokens it was called with so
far, which is what a `FnMut` can depend on.

The run keeps the tokens offered and the rows each forward was asked to write, so that
bounds on both can be stated of every way a run ends (`Within`).

* `within_settle`, `within_verify`, `within_turn`, `within_decodeLoop`: what the parts of a turn, a
  turn and the loop keep, each from the one before it.
* `decodeLoop_enough`: the loop is given fuel, and as much as there are tokens to offer is enough.
-/

namespace Colibri.Generate

open Kv.Mamba Mtp

/-- An I/O error of a forward, or a panic. -/
inductive Fault (E : Type)
  | io (e : E)
  | panic

/-- The model as decode sees it. `forward` writes the hidden row of each token and `logits`
is the final norm followed by `lm_head`; floats are compared by `gt`. -/
structure Model (Row F HRow Hid E : Type) where
  forward : MainKv Row F → List Int → Nat → Except E (List Hid × MainKv Row F)
  logits : Hid → List F
  gt : F → F → Bool
  negInf : F
  stopIds : List Int
  hasMtp : Bool
  mtp : Option (MtpHead Row F HRow Hid E)

/-- The decode loop's variables, with the calls made so far. -/
structure Run (Row F HRow Hid : Type) where
  kv : KvCache Row F HRow
  mambaSnap : MambaSnapshot F
  logit : List F
  hlast : Hid
  pos : Nat
  budget : Nat
  proposed : Nat
  accepted : Nat
  forwards : Nat
  emitted : Nat
  /-- the calls of `on_token` -/
  out : List Int
  /-- the rows forwards were asked to write -/
  spans : List Span

structure DecodeStats where
  emitted : Nat
  forwards : Nat
  draftsProposed : Nat
  draftsAccepted : Nat

/-- How a turn of the loop ends: go on, `break`, or return an error. -/
inductive Turn (Row F HRow Hid E : Type)
  | next (r : Run Row F HRow Hid)
  | stop (r : Run Row F HRow Hid)
  | fail (r : Run Row F HRow Hid) (f : Fault E)

section

variable {Row F HRow Hid E : Type}

/-- `argmax(logits) as i32`. -/
def Model.pick (m : Model Row F HRow Hid E) (logits : List F) : Int :=
  asI32 (argmax m.gt m.negInf logits)

def Run.emit (r : Run Row F HRow Hid) (t : Int) : Run Row F HRow Hid :=
  { r with out := r.out ++ [t], emitted := r.emitted + 1 }

/-- Drafts that are hardly ever accepted are switched off. -/
def Run.autoOff (r : Run Row F HRow Hid) : Run Row F HRow Hid :=
  if r.budget > 0 ∧ r.proposed ≥ 24 ∧ r.accepted * 10 < r.proposed then { r with budget := 0 }
  else r

def propose (m : Model Row F HRow Hid E) (r : Run Row F HRow Hid) (next : Int) :
    Run Row F HRow Hid × Except E (List Int) :=
  if r.budget > 0 then
    match draft m.mtp m.pick r.kv next r.pos r.budget r.hlast with
    | (d, some e) => ({ r with kv := d.kv, spans := r.spans ++ d.spans }, .error e)
    | (d, none) =>
      ({ r with
          kv := d.kv
          spans := r.spans ++ d.spans
          proposed := r.proposed + d.out.length }, .ok d.out)
  else (r, .ok [])

/-- How many drafts are verified: no more than are owed, and no more than fit. -/
def clamp (pos nDrafts owed maxT : Nat) : Nat :=
  let g := min nDrafts owed
  if pos + g + 2 > maxT then min (maxT - (pos + 2)) g else g

/-- What the accept loop carries. -/
structure Accept where
  k : Nat
  emitted : Nat
  out : List Int
  done : Bool

/-- The accept loop over the drafts, each beside the token the model gives at its place. -/
def accept (stopIds : List Int) (onToken : List Int → Bool) (nNew : Nat) :
    List (Int × Int) → Accept → Accept
  | [], a => a
  | (truth, d) :: rest, a =>
    if a.emitted < nNew then
      if truth ≠ d then a
      else
        let a := { a with out := a.out ++ [d], emitted := a.emitted + 1, k := a.k + 1 }
        if stopIds.contains d || !onToken a.out then { a with done := true }
        else accept stopIds onToken nNew rest a
    else a

/-- Roll the recurrent state back and feed the accepted tokens again. -/
def replay (m : Model Row F HRow Hid E) (r : Run Row F HRow Hid) (ids : List Int) :
    Run Row F HRow Hid × Option (Fault E) :=
  match restoreMambaFrom r.kv.main r.mambaSnap with
  | none => (r, some .panic)
  | some main =>
    let r := { r with kv := { r.kv with main }, spans := r.spans ++ [Span.mk r.pos ids.length] }
    match m.forward main ids r.pos with
    | .error e => (r, some (.io e))
    | .ok (_, main) => ({ r with kv := { r.kv with main } }, none)

/-- The end of a turn: roll back what was rejected, keep the head in sync, move on. -/
def settle (m : Model Row F HRow Hid E) (track : Bool) (batch drafts : List Int)
    (hAll : List Hid) (g : Nat) (a : Accept) (r : Run Row F HRow Hid) :
    Turn Row F HRow Hid E :=
  match if track && decide (a.k < g) && !a.done then replay m r (batch.take (1 + a.k))
    else (r, none) with
  | (r, some f) => .fail r f
  | (r, none) =>
    match if a.k ≥ 1 then absorb m.mtp r.kv (drafts.take a.k) hAll r.pos
      else (r.kv, [], none) with
    | (kv, spans, some e) => .fail { r with kv, spans := r.spans ++ spans } (.io e)
    | (kv, spans, none) =>
      let r := { r with kv, spans := r.spans ++ spans }
      match hAll[a.k]? with
      | none => .fail r .panic
      | some h =>
        let r := { r with hlast := h, logit := m.logits h, pos := r.pos + (1 + a.k) }
        if a.done then .stop r else .next r

def verify (m : Model Row F HRow Hid E) (track : Bool) (onToken : List Int → Bool) (nNew : Nat)
    (next : Int) (drafts : List Int) (r : Run Row F HRow Hid) : Turn Row F HRow Hid E :=
  let g := clamp r.pos drafts.length (nNew - r.emitted) r.kv.maxT
  let batch := next :: drafts.take g
  let r := { r with
    mambaSnap := if track && decide (g > 0) then snapshotMambaInto r.kv.main r.mambaSnap
      else r.mambaSnap
    spans := r.spans ++ [Span.mk r.pos batch.length] }
  match m.forward r.kv.main batch r.pos with
  | .error e => .fail r (.io e)
  | .ok (hAll, main) =>
    let truths := hAll.map fun h => m.pick (m.logits h)
    let a := accept m.stopIds onToken nNew (truths.zip (drafts.take g))
      ⟨0, r.emitted, r.out, false⟩
    settle m track batch drafts hAll g a
      { r with
        kv := { r.kv with main }
        forwards := r.forwards + 1
        emitted := a.emitted
        out := a.out
        accepted := r.accepted + a.k }

/-- One turn of `while emitted < n_new`. -/
def turn (m : Model Row F HRow Hid E) (track : Bool) (onToken : List Int → Bool) (nNew : Nat)
    (r : Run Row F HRow Hid) : Turn Row F HRow Hid E :=
  let next := m.pick r.logit
  let r := r.emit next
  if m.stopIds.contains next then .stop r
  else if !onToken r.out || decide (r.emitted ≥ nNew) then .stop r
  else
    match propose m r.autoOff next with
    | (r, .error e) => .fail r (.io e)
    | (r, .ok drafts) => verify m track onToken nNew next drafts r

/-- `while emitted < n_new`. Every turn that goes on has offered a token, so `nNew` turns
are enough (`decodeLoop_enough`). -/
def decodeLoop (m : Model Row F HRow Hid E) (track : Bool) (onToken : List Int → Bool)
    (nNew : Nat) : Nat → Run Row F HRow Hid → Run Row F HRow Hid × Option (Fault E)
  | 0, r => (r, none)
  | fuel + 1, r =>
    if r.emitted < nNew then
      match turn m track onToken nNew r with
      | .next r => decodeLoop m track onToken nNew fuel r
      | .stop r => (r, none)
      | .fail r f => (r, some f)
    else (r, none)

/-- What a call did: the tokens it offered, the rows it had written, its counters, and what
it returned. -/
structure Outcome (E : Type) where
  tokens : List Int
  spans : List Span
  proposed : Nat
  accepted : Nat
  result : Except (Fault E) DecodeStats

/-- The variables after prefill: `hlast` is the hidden row of the prompt's last token. -/
def Run.start (m : Model Row F HRow Hid E) (kv : KvCache Row F HRow) (main : MainKv Row F)
    (hlast : Hid) (s budget : Nat) : Run Row F HRow Hid :=
  { kv := { kv with main }
    mambaSnap := .empty
    logit := m.logits hlast
    hlast
    pos := s
    budget := if m.hasMtp then budget else 0
    proposed := 0
    accepted := 0
    forwards := 0
    emitted := 0
    out := []
    spans := [⟨0, s⟩] }

def outcome (r : Run Row F HRow Hid) (f : Option (Fault E)) : Outcome E :=
  { tokens := r.out
    spans := r.spans
    proposed := r.proposed
    accepted := r.accepted
    result :=
      match f with
      | some f => .error f
      | none => .ok ⟨r.emitted, r.forwards, r.proposed, r.accepted⟩ }

/-- `rollbackEnv` is `COLI_MTP_ROLLBACK`. -/
def generateStreamDrafting (m : Model Row F HRow Hid E) (rollbackEnv : Option String)
    (kv : KvCache Row F HRow) (prompt : List Int) (nNew budget : Nat)
    (onToken : List Int → Bool) : Outcome E :=
  let s := prompt.length
  if s = 0 ∨ kv.maxT < s + nNew then ⟨[], [], 0, 0, .error .panic⟩
  else
    match m.forward kv.main prompt 0 with
    | .error e => ⟨[], [⟨0, s⟩], 0, 0, .error (.io e)⟩
    | .ok (hidden, main) =>
      match hidden[s - 1]? with
      | none => ⟨[], [⟨0, s⟩], 0, 0, .error .panic⟩
      | some hlast =>
        let trackMamba := main.hasMamba && rollbackEnv.all (· != "0")
        let (r, f) := decodeLoop m trackMamba onToken nNew nNew
          (Run.start m kv main hlast s budget)
        outcome r f

/-! ## Bounds that hold of every run -/

/-- What every moment of a run keeps. -/
structure Within (nNew maxT : Nat) (r : Run Row F HRow Hid) : Prop where
  cap : r.kv.maxT = maxT
  out : r.out.length = r.emitted
  owed : r.emitted ≤ nNew
  accepted : r.accepted ≤ r.proposed
  spans : ∀ s ∈ r.spans, s.Fits maxT

def Turn.run : Turn Row F HRow Hid E → Run Row F HRow Hid
  | .next r => r
  | .stop r => r
  | .fail r _ => r

theorem forall_mem_concat {P : Span → Prop} {ss : List Span} {s : Span} (h : ∀ x ∈ ss, P x)
    (hs : P s) : ∀ x ∈ ss ++ [s], P x := by
  intro x hx
  rcases List.mem_append.mp hx with hx | hx
  · exact h x hx
  · rw [List.mem_singleton.mp hx]
    exact hs

theorem forall_mem_append {P : Span → Prop} {ss ts : List Span} (h : ∀ x ∈ ss, P x)
    (ht : ∀ x ∈ ts, P x) : ∀ x ∈ ss ++ ts, P x := by
  intro x hx
  rcases List.mem_append.mp hx with hx | hx
  · exact h x hx
  · exact ht x hx

variable {m : Model Row F HRow Hid E} {track : Bool} {onToken : List Int → Bool}
variable {nNew maxT : Nat} {r : Run Row F HRow Hid}

theorem Within.emit (h : Within nNew maxT r) (hlt : r.emitted < nNew) (t : Int) :
    Within nNew maxT (r.emit t) := by
  refine ⟨h.cap, ?_, hlt, h.accepted, h.spans⟩
  show (r.out ++ [t]).length = r.emitted + 1
  rw [List.length_append, h.out, List.length_singleton]

theorem Run.autoOff_eq (r : Run Row F HRow Hid) :
    r.autoOff = { r with budget := r.autoOff.budget } := by
  unfold Run.autoOff
  split <;> rfl

theorem Run.autoOff_zero (h : r.budget = 0) : r.autoOff = r := by
  unfold Run.autoOff
  rw [if_neg]
  intro hpos
  omega

theorem Within.autoOff (h : Within nNew maxT r) : Within nNew maxT r.autoOff := by
  rw [Run.autoOff_eq]
  exact ⟨h.cap, h.out, h.owed, h.accepted, h.spans⟩

/-- What `propose` leaves of a run: everything but the head, the spans and the count of
proposals, which grows by what was proposed. -/
structure Proposed (r r' : Run Row F HRow Hid) (drafts : Except E (List Int)) : Prop where
  same : r' = { r with kv := r'.kv, spans := r'.spans, proposed := r'.proposed }
  keeps : KeepsMain r.kv r'.kv
  spans : ∃ ss, r'.spans = r.spans ++ ss ∧ ∀ s ∈ ss, s.Fits r.kv.maxT
  proposed : ∀ ds, drafts = .ok ds → r'.proposed = r.proposed + ds.length
  grows : r.proposed ≤ r'.proposed

theorem propose_proposed (m : Model Row F HRow Hid E) (r : Run Row F HRow Hid) (next : Int) :
    Proposed r (propose m r next).1 (propose m r next).2 := by
  unfold propose
  split
  · obtain ⟨hmain, hspans, -⟩ := draft_keeps m.mtp m.pick r.kv next r.pos r.budget r.hlast
    generalize draft m.mtp m.pick r.kv next r.pos r.budget r.hlast = res at hmain hspans
    obtain ⟨d, none | e⟩ := res
    · refine ⟨rfl, hmain, ⟨d.spans, rfl, hspans⟩, ?_, Nat.le_add_right ..⟩
      intro ds hds
      cases hds
      rfl
    · refine ⟨rfl, hmain, ⟨d.spans, rfl, hspans⟩, ?_, Nat.le_refl _⟩
      intro ds hds
      cases hds
  · refine ⟨rfl, KeepsMain.refl _, ⟨[], (List.append_nil _).symm, by simp⟩, ?_, Nat.le_refl _⟩
    intro ds hds
    cases hds
    rfl

theorem propose_zero (h : r.budget = 0) (next : Int) : propose m r next = (r, .ok []) := by
  unfold propose
  rw [if_neg (by omega)]

theorem propose_ok (h : ∀ head ∈ m.mtp, head.Reliable) (r : Run Row F HRow Hid) (next : Int)
    (e : E) : (propose m r next).2 ≠ .error e := by
  unfold propose
  split
  · have hok := draft_ok h m.pick r.kv next r.pos r.budget r.hlast
    generalize draft m.mtp m.pick r.kv next r.pos r.budget r.hlast = res at hok ⊢
    obtain ⟨d, none | e'⟩ := res
    · intro he
      cases he
    · cases hok
  · intro he
    cases he

theorem clamp_le (pos nDrafts owed maxT : Nat) :
    clamp pos nDrafts owed maxT ≤ nDrafts ∧ clamp pos nDrafts owed maxT ≤ owed := by
  unfold clamp
  dsimp only
  split <;> omega

/-- What the accept loop did: it offered the first `j` of the drafts, and is `done` only if
it offered one. -/
theorem accept_offered (stopIds : List Int) (onToken : List Int → Bool)
    (ps : List (Int × Int)) (a : Accept)
    (h : a.emitted ≤ nNew) :
    ∃ j, j ≤ ps.length ∧ (accept stopIds onToken nNew ps a).k = a.k + j ∧
      (accept stopIds onToken nNew ps a).emitted = a.emitted + j ∧ a.emitted + j ≤ nNew ∧
      (accept stopIds onToken nNew ps a).out = a.out ++ (ps.map Prod.snd).take j := by
  induction ps generalizing a with
  | nil => exact ⟨0, Nat.le_refl _, rfl, rfl, h, by simp [accept]⟩
  | cons p ps ih =>
    obtain ⟨truth, d⟩ := p
    have hstay : ∃ j, j ≤ ps.length + 1 ∧ a.k = a.k + j ∧ a.emitted = a.emitted + j ∧
        a.emitted + j ≤ nNew ∧ a.out = a.out ++ (d :: ps.map Prod.snd).take j :=
      ⟨0, Nat.zero_le _, rfl, rfl, h, by simp⟩
    rw [accept]
    split
    next hlt =>
      split
      · exact hstay
      · dsimp only
        split
        · exact ⟨1, by simp, rfl, rfl, hlt, by simp⟩
        · obtain ⟨j, hj, hk, he, hn, ho⟩ := ih
            ⟨a.k + 1, a.emitted + 1, a.out ++ [d], a.done⟩ hlt
          refine ⟨j + 1, by simpa using hj, ?_, ?_, ?_, ?_⟩
          · rw [hk]
            exact Nat.add_right_comm ..
          · rw [he]
            exact Nat.add_right_comm ..
          · have hn' : a.emitted + 1 + j ≤ nNew := hn
            omega
          · rw [ho]
            simp
    next => exact hstay

/-- `replay` changes the main stack and adds the rows it feeds again. -/
theorem within_replay (h : Within nNew maxT r) {ids : List Int}
    (hfit : r.pos + ids.length ≤ maxT) :
    Within nNew maxT (replay m r ids).1 ∧ (replay m r ids).1.pos = r.pos ∧
      (replay m r ids).1.emitted = r.emitted := by
  unfold replay
  cases restoreMambaFrom r.kv.main r.mambaSnap with
  | none => exact ⟨h, rfl, rfl⟩
  | some main =>
    have hspans := forall_mem_concat (P := Span.Fits maxT) h.spans
      (show Span.Fits maxT ⟨r.pos, ids.length⟩ from hfit)
    dsimp only
    rcases m.forward main ids r.pos with e | ⟨hs, main'⟩
    · exact ⟨⟨h.cap, h.out, h.owed, h.accepted, hspans⟩, rfl, rfl⟩
    · exact ⟨⟨h.cap, h.out, h.owed, h.accepted, hspans⟩, rfl, rfl⟩

/-- The end of a turn stays inside the cache, and moves on past the accepted tokens. -/
theorem within_settle (m : Model Row F HRow Hid E) (track : Bool) (batch drafts : List Int)
    (hAll : List Hid) {g : Nat} {a : Accept} (h : Within nNew maxT r) (hk : a.k ≤ g)
    (hfit : r.pos + (1 + g) ≤ maxT) :
    Within nNew maxT (settle m track batch drafts hAll g a r).run ∧
      ∀ r', settle m track batch drafts hAll g a r = .next r' →
        r'.pos = r.pos + (1 + a.k) ∧ r'.emitted = r.emitted := by
  unfold settle
  have hback : ∀ res, (if track && decide (a.k < g) && !a.done then
      replay m r (batch.take (1 + a.k)) else (r, none)) = res →
      Within nNew maxT res.1 ∧ res.1.pos = r.pos ∧ res.1.emitted = r.emitted := by
    intro res hres
    rw [← hres]
    split
    · apply within_replay h
      rw [List.length_take]
      omega
    · exact ⟨h, rfl, rfl⟩
  generalize (if track && decide (a.k < g) && !a.done then
    replay m r (batch.take (1 + a.k)) else (r, none)) = res at hback ⊢
  obtain ⟨hw, hpos, hem⟩ := hback _ rfl
  obtain ⟨r₁, none | f⟩ := res
  · dsimp only at hw hpos hem ⊢
    have habs : ∀ out, (if a.k ≥ 1 then absorb m.mtp r₁.kv (drafts.take a.k) hAll r₁.pos
        else (r₁.kv, [], none)) = out →
        KeepsMain r₁.kv out.1 ∧ ∀ s ∈ out.2.1, s.Fits maxT := by
      intro out hout
      rw [← hout]
      split
      · refine ⟨absorb_keepsMain .., ?_⟩
        rw [← hw.cap]
        apply absorb_fits
        rw [List.length_take, hw.cap]
        omega
      · exact ⟨KeepsMain.refl _, by simp⟩
    generalize (if a.k ≥ 1 then absorb m.mtp r₁.kv (drafts.take a.k) hAll r₁.pos
      else (r₁.kv, [], none)) = out at habs ⊢
    obtain ⟨hkeep, hspans⟩ := habs _ rfl
    have hall := forall_mem_append hw.spans hspans
    have hcap := hkeep.maxT.trans hw.cap
    obtain ⟨kv, spans, none | e⟩ := out
    · dsimp only
      cases hAll[a.k]? with
      | none => exact ⟨⟨hcap, hw.out, hw.owed, hw.accepted, hall⟩, by intro r' hr'; cases hr'⟩
      | some h₁ =>
        dsimp only
        by_cases hdone : a.done = true
        · rw [if_pos hdone]
          exact ⟨⟨hcap, hw.out, hw.owed, hw.accepted, hall⟩, by intro r' hr'; cases hr'⟩
        · rw [if_neg hdone]
          refine ⟨⟨hcap, hw.out, hw.owed, hw.accepted, hall⟩, ?_⟩
          intro r' hr'
          cases hr'
          exact ⟨congrArg (· + (1 + a.k)) hpos, hem⟩
    · exact ⟨⟨hcap, hw.out, hw.owed, hw.accepted, hall⟩, by intro r' hr'; cases hr'⟩
  · exact ⟨hw, by intro r' hr'; cases hr'⟩

/-- The verify forward asks for rows the cache has, and the drafts accepted are among those
proposed. -/
theorem within_verify (m : Model Row F HRow Hid E) (track : Bool) (onToken : List Int → Bool)
    (next : Int) {drafts : List Int} (h : Within nNew maxT r)
    (hfit : r.pos + 1 + (nNew - r.emitted) ≤ maxT)
    (hacc : r.accepted + drafts.length ≤ r.proposed) :
    Within nNew maxT (verify m track onToken nNew next drafts r).run ∧
      ∀ r', verify m track onToken nNew next drafts r = .next r' →
        r'.pos + r.emitted = r.pos + 1 + r'.emitted ∧ r.emitted ≤ r'.emitted := by
  unfold verify
  have hg := clamp_le r.pos drafts.length (nNew - r.emitted) r.kv.maxT
  generalize clamp r.pos drafts.length (nNew - r.emitted) r.kv.maxT = g at hg ⊢
  have hlen : (drafts.take g).length = g := by
    rw [List.length_take]
    omega
  have hspans := forall_mem_concat (P := Span.Fits maxT) h.spans
    (show Span.Fits maxT ⟨r.pos, (next :: drafts.take g).length⟩ by
      rw [List.length_cons, hlen]
      show r.pos + (g + 1) ≤ maxT
      omega)
  dsimp only
  rcases m.forward r.kv.main (next :: drafts.take g) r.pos with e | ⟨hAll, main⟩
  · exact ⟨⟨h.cap, h.out, h.owed, h.accepted, hspans⟩, by intro r' hr'; cases hr'⟩
  · dsimp only
    obtain ⟨j, hj, hk, he, hn, ho⟩ := accept_offered m.stopIds onToken
      ((hAll.map fun h => m.pick (m.logits h)).zip (drafts.take g)) ⟨0, r.emitted, r.out, false⟩
      h.owed
    have hjg : j ≤ g := by
      rw [List.length_zip, hlen] at hj
      omega
    generalize accept m.stopIds onToken nNew _ _ = a at hk he ho ⊢
    dsimp only at hk he hn ho
    rw [Nat.zero_add] at hk
    have hjd : j ≤ ((List.zip (hAll.map fun h => m.pick (m.logits h)) (drafts.take g)).map
        Prod.snd).length := by
      rw [List.length_map]
      exact hj
    have hw : Within nNew maxT { r with
        mambaSnap := if track && decide (g > 0) then snapshotMambaInto r.kv.main r.mambaSnap
          else r.mambaSnap
        spans := r.spans ++ [Span.mk r.pos (next :: drafts.take g).length]
        kv := { r.kv with main }
        forwards := r.forwards + 1
        emitted := a.emitted
        out := a.out
        accepted := r.accepted + a.k } := by
      refine ⟨h.cap, ?_, ?_, ?_, hspans⟩
      · show a.out.length = a.emitted
        rw [ho, List.length_append, List.length_take, Nat.min_eq_left hjd, h.out, he]
      · show a.emitted ≤ nNew
        omega
      · show r.accepted + a.k ≤ r.proposed
        omega
    obtain ⟨hw', hnext⟩ := within_settle m track (next :: drafts.take g) drafts hAll hw
      (show a.k ≤ g by omega) (show r.pos + (1 + g) ≤ maxT by omega)
    refine ⟨hw', ?_⟩
    intro r' hr'
    obtain ⟨hpos, hem⟩ := hnext r' hr'
    dsimp only at hpos hem
    omega

/-- What a turn keeps. A turn that goes on has offered at least a token, and stands as many
positions further as it offered tokens. -/
theorem within_turn (m : Model Row F HRow Hid E) (track : Bool) (onToken : List Int → Bool)
    (h : Within nNew maxT r) (hlt : r.emitted < nNew)
    (hfit : r.pos + (nNew - r.emitted) ≤ maxT) :
    Within nNew maxT (turn m track onToken nNew r).run ∧
      ∀ r', turn m track onToken nNew r = .next r' →
        r'.pos + r.emitted = r.pos + r'.emitted ∧ r.emitted < r'.emitted := by
  unfold turn
  have he := h.emit hlt (m.pick r.logit)
  dsimp only
  generalize hr₁ : r.emit (m.pick r.logit) = r₁ at he ⊢
  have hpos : r₁.pos = r.pos := by rw [← hr₁]; rfl
  have hem : r₁.emitted = r.emitted + 1 := by rw [← hr₁]; rfl
  split
  · exact ⟨he, by intro r' hr'; cases hr'⟩
  · split
    · exact ⟨he, by intro r' hr'; cases hr'⟩
    · have ha := he.autoOff
      have hp := propose_proposed m r₁.autoOff (m.pick r.logit)
      have hposA : r₁.autoOff.pos = r₁.pos := by rw [Run.autoOff_eq]
      have hemA : r₁.autoOff.emitted = r₁.emitted := by rw [Run.autoOff_eq]
      generalize propose m r₁.autoOff (m.pick r.logit) = res at hp ⊢
      generalize r₁.autoOff = r₂ at ha hp hposA hemA
      obtain ⟨r₃, drafts⟩ := res
      have hw : Within nNew maxT r₃ := by
        obtain ⟨ss, hss, hfits⟩ := hp.spans
        rw [ha.cap] at hfits
        have hspans := forall_mem_append ha.spans hfits
        rw [← hss] at hspans
        have hsame := hp.same
        dsimp only at hsame hspans
        refine ⟨hp.keeps.maxT.trans ha.cap, ?_, ?_, ?_, hspans⟩
        · rw [hsame]
          exact ha.out
        · rw [hsame]
          exact ha.owed
        · rw [hsame]
          exact Nat.le_trans ha.accepted hp.grows
      rcases drafts with e | ds
      · exact ⟨hw, by intro r' hr'; cases hr'⟩
      · have hsame := hp.same
        have hprop := hp.proposed ds rfl
        dsimp only at hsame hprop
        have hpos₃ : r₃.pos = r₂.pos := by rw [hsame]
        have hem₃ : r₃.emitted = r₂.emitted := by rw [hsame]
        have hacc₃ : r₃.accepted = r₂.accepted := by rw [hsame]
        have hacc₂ := ha.accepted
        have howed := he.owed
        obtain ⟨hv, hnext⟩ := within_verify m track onToken (m.pick r.logit) hw
          (by omega) (show r₃.accepted + ds.length ≤ r₃.proposed by omega)
        refine ⟨hv, ?_⟩
        intro r' hr'
        obtain ⟨hmove, hgrow⟩ := hnext r' hr'
        omega

/-- The whole loop keeps what a turn keeps. -/
theorem within_decodeLoop (m : Model Row F HRow Hid E) (track : Bool)
    (onToken : List Int → Bool) (fuel : Nat) (h : Within nNew maxT r)
    (hfit : r.pos + (nNew - r.emitted) ≤ maxT) :
    Within nNew maxT (decodeLoop m track onToken nNew fuel r).1 := by
  induction fuel generalizing r with
  | zero => exact h
  | succ fuel ih =>
    rw [decodeLoop]
    split
    next hlt =>
      obtain ⟨hw, hnext⟩ := within_turn m track onToken h hlt hfit
      cases ht : turn m track onToken nNew r with
      | stop r' =>
        rw [ht] at hw
        exact hw
      | fail r' f =>
        rw [ht] at hw
        exact hw
      | next r' =>
        rw [ht] at hw
        obtain ⟨hmove, hgrow⟩ := hnext r' ht
        have howed : r'.emitted ≤ nNew := hw.owed
        exact ih hw (by omega)
    next => exact h

/-- `nNew` turns are enough: more fuel changes nothing. -/
theorem decodeLoop_enough (fuel extra : Nat) (h : Within nNew maxT r)
    (hfit : r.pos + (nNew - r.emitted) ≤ maxT) (hfuel : nNew - r.emitted ≤ fuel) :
    decodeLoop m track onToken nNew (fuel + extra) r = decodeLoop m track onToken nNew fuel r := by
  induction fuel generalizing r with
  | zero =>
    have hend : ¬ r.emitted < nNew := by omega
    cases extra with
    | zero => rfl
    | succ extra =>
      rw [Nat.zero_add, decodeLoop, decodeLoop, if_neg hend]
  | succ fuel ih =>
    rw [Nat.add_right_comm, decodeLoop, decodeLoop]
    by_cases hlt : r.emitted < nNew
    · rw [if_pos hlt, if_pos hlt]
      obtain ⟨hw, hnext⟩ := within_turn m track onToken h hlt hfit
      cases ht : turn m track onToken nNew r with
      | stop r' => rfl
      | fail r' f => rfl
      | next r' =>
        rw [ht] at hw
        obtain ⟨hmove, hgrow⟩ := hnext r' ht
        have howed : r'.emitted ≤ nNew := hw.owed
        exact ih hw (by omega) (by omega)
    · rw [if_neg hlt, if_neg hlt]

end

end Colibri.Generate
