import Colibri.Lib.Greedy
import Colibri.Generate.Drafting

/-!
# Drafts do not show in the output

The reference is the greedy run of the model, one token a forward (`greedy`). The decode
loop with any budget follows it: between turns the cache agrees, below the current
position and in its recurrent state, with the cache the greedy run has there
(`Follows`). A verify forward over a batch passes through the states of the greedy
machine's trail (`forward_trail`); the accept loop offers a stretch of the greedy run
(`accept_follows`); and `settle` brings the cache back to the state after the last token
accepted, because rows past it are overwritten before they are read and the recurrent
state is restored and fed again (`settle_follows`).

What is assumed of the main stack's forward is `ForwardLaws`, nothing of the head.

`verify_follows` puts these together to the verify step of a turn, `turn_follows` to the turn, and
`decodeLoop_follows` to the loop, by induction on the fuel. The result is `drafting_invisible`. It
needs the recurrent state to be rolled back: `rollback_off_shows` is a run without the rollback
whose third token is another.
-/

namespace Colibri.Generate

open Kv.Mamba Mtp Greedy

section

variable {Row F HRow Hid E : Type}

/-- Two caches a forward at `pos` cannot tell apart: the rows below it and the recurrent
state are the same. -/
structure Agree (pos : Nat) (a b : MainKv Row F) : Prop where
  rows : ∀ p < pos, a.rows p = b.rows p
  mamba : SameMamba a b

theorem Agree.refl (pos : Nat) (a : MainKv Row F) : Agree pos a a :=
  ⟨fun _ _ => rfl, rfl, rfl, rfl⟩

theorem Agree.symm {pos : Nat} {a b : MainKv Row F} (h : Agree pos a b) : Agree pos b a :=
  ⟨fun p hp => (h.rows p hp).symm, h.mamba.symm⟩

theorem Agree.trans {pos : Nat} {a b c : MainKv Row F} (h : Agree pos a b)
    (h' : Agree pos b c) : Agree pos a c :=
  ⟨fun p hp => (h.rows p hp).trans (h'.rows p hp), h.mamba.trans h'.mamba⟩

/-- What decode relies on in the main stack's forward: a batch is its tokens one at a
time, rows at or past the fed position are not read, rows below it are not written, and
the recurrent state keeps its shape. -/
structure ForwardLaws
    (forward : MainKv Row F → List Int → Nat → Except E (List Hid × MainKv Row F)) : Prop where
  length : ∀ {kv ids pos hs kv'}, forward kv ids pos = .ok (hs, kv') → hs.length = ids.length
  batch : ∀ {kv t u ids pos hs kv'}, forward kv (t :: u :: ids) pos = .ok (hs, kv') →
    ∃ h kv₁ hs', forward kv [t] pos = .ok ([h], kv₁) ∧
      forward kv₁ (u :: ids) (pos + 1) = .ok (hs', kv') ∧ hs = h :: hs'
  overwrites : ∀ {a b t pos hs a'}, Agree pos a b → forward a [t] pos = .ok (hs, a') →
    ∃ b', forward b [t] pos = .ok (hs, b') ∧ Agree (pos + 1) a' b'
  below : ∀ {kv t pos hs kv'}, forward kv [t] pos = .ok (hs, kv') →
    ∀ p < pos, kv'.rows p = kv.rows p
  shape : ∀ {kv t pos hs kv'}, forward kv [t] pos = .ok (hs, kv') → SameShape kv' kv

/-- Neither a forward nor a block of the head fails. -/
structure Model.Reliable (m : Model Row F HRow Hid E) : Prop where
  forward : ∀ kv ids pos e, m.forward kv ids pos ≠ .error e
  head : ∀ mtp ∈ m.mtp, mtp.Reliable

/-- A state of the greedy run: the cache, the next position, and the hidden row the next
token is picked from. -/
structure Point (Row F Hid : Type) where
  main : MainKv Row F
  pos : Nat
  hid : Hid

/-- The model as a machine fed one token a forward. -/
def Model.machine (m : Model Row F HRow Hid E) : Machine (Point Row F Hid) Int E where
  next s := m.pick (m.logits s.hid)
  feed s t :=
    match m.forward s.main [t] s.pos with
    | .error e => .error e
    | .ok (hs, main) => .ok ⟨main, s.pos + 1, hs.headD s.hid⟩

/-- A run halts after a stop id, or when the callback says so. -/
def Model.halts (m : Model Row F HRow Hid E) (onToken : List Int → Bool) (hist : List Int) :
    Bool :=
  hist.getLast?.any m.stopIds.contains || !onToken hist

/-- The greedy run: at most `n` more tokens after `hist`. -/
def greedy (m : Model Row F HRow Hid E) (onToken : List Int → Bool) (n : Nat)
    (s : Point Row F Hid) (hist : List Int) : List Int × Option E :=
  Greedy.run m.machine (m.halts onToken) n s hist

variable {m : Model Row F HRow Hid E} {onToken : List Int → Bool} {nNew : Nat}

theorem halts_concat (m : Model Row F HRow Hid E) (onToken : List Int → Bool)
    (hist : List Int) (t : Int) :
    m.halts onToken (hist ++ [t]) = (m.stopIds.contains t || !onToken (hist ++ [t])) := by
  unfold Model.halts
  rw [List.getLast?_concat]
  rfl

theorem feed_ok {s : Point Row F Hid} {t : Int} {hs : List Hid} {kv' : MainKv Row F}
    (h : m.forward s.main [t] s.pos = .ok (hs, kv')) :
    m.machine.feed s t = .ok ⟨kv', s.pos + 1, hs.headD s.hid⟩ := by
  show (match m.forward s.main [t] s.pos with
    | .error e => Except.error e
    | .ok (hs, main) => .ok (Point.mk main (s.pos + 1) (hs.headD s.hid))) = _
  rw [h]

theorem feed_error {s : Point Row F Hid} {t : Int} {e : E}
    (h : m.forward s.main [t] s.pos = .error e) : m.machine.feed s t = .error e := by
  show (match m.forward s.main [t] s.pos with
    | .error e => Except.error e
    | .ok (hs, main) => .ok (Point.mk main (s.pos + 1) (hs.headD s.hid))) = _
  rw [h]

/-- A feed that goes through is a forward of one token that does. -/
theorem forward_of_feed {s x : Point Row F Hid} {t : Int} (h : m.machine.feed s t = .ok x) :
    ∃ hs, m.forward s.main [t] s.pos = .ok (hs, x.main) ∧ x.pos = s.pos + 1 := by
  rcases hf : m.forward s.main [t] s.pos with e | ⟨hs, kv'⟩
  · rw [feed_error hf] at h
    cases h
  · rw [feed_ok hf] at h
    cases h
    exact ⟨hs, rfl, rfl⟩

/-- A batch that goes through passes through the states of a trail: from a cache that
agrees with the trail's start it gives the trail's hidden rows, and ends in a cache that
agrees with the trail's end. -/
theorem forward_trail (laws : ForwardLaws m.forward) {ids : List Int} (hne : ids ≠ [])
    {kv kv' : MainKv Row F} {hs : List Hid} {s : Point Row F Hid}
    (h : m.forward kv ids s.pos = .ok (hs, kv')) (hag : Agree s.pos kv s.main) :
    ∃ l x, Trail m.machine s ids l ∧ l.map Point.hid = hs ∧ l.getLast? = some x ∧
      Agree (s.pos + ids.length) kv' x.main := by
  induction ids generalizing kv hs s with
  | nil => exact absurd rfl hne
  | cons t ids ih =>
    cases ids with
    | nil =>
      obtain ⟨main, hb, hag'⟩ := laws.overwrites hag h
      obtain ⟨h₁, hs₁⟩ := List.length_eq_one_iff.mp (laws.length h)
      subst hs₁
      exact ⟨[_], _, Trail.cons (feed_ok hb) (Trail.nil _), rfl, rfl, hag'⟩
    | cons u ids =>
      obtain ⟨h₁, kv₁, hs', hone, hrest, rfl⟩ := laws.batch h
      obtain ⟨main, hb, hag'⟩ := laws.overwrites hag hone
      obtain ⟨l, x, htrail, hhid, hlast, hend⟩ :=
        ih (List.cons_ne_nil u ids) (s := ⟨main, s.pos + 1, h₁⟩) hrest hag'
      refine ⟨_ :: l, x, Trail.cons (feed_ok hb) htrail, ?_, ?_, ?_⟩
      · rw [List.map_cons, hhid]
        rfl
      · cases l with
        | nil => cases hlast
        | cons y l =>
          rw [List.getLast?_cons_cons]
          exact hlast
      · rw [List.length_cons, Nat.add_comm _ 1, ← Nat.add_assoc]
        exact hend

/-- The `k`-th state of a trail stands `k` positions further. -/
theorem trail_pos {s x : Point Row F Hid} {ts : List Int} {l : List (Point Row F Hid)}
    (h : Trail m.machine s ts l) {k : Nat} (hx : (s :: l)[k]? = some x) : x.pos = s.pos + k := by
  induction h generalizing k with
  | nil s =>
    cases k with
    | zero => cases hx; rfl
    | succ k => simp at hx
  | cons hf _ ih =>
    cases k with
    | zero => cases hx; rfl
    | succ k =>
      obtain ⟨-, -, hpos⟩ := forward_of_feed hf
      rw [ih hx, hpos]
      omega

/-- What lies below the start of a trail, and the shape of the recurrent state, stay. -/
theorem trail_keeps (laws : ForwardLaws m.forward) {s : Point Row F Hid} {ts : List Int}
    {l : List (Point Row F Hid)} (h : Trail m.machine s ts l) :
    ∀ x ∈ l, (∀ p < s.pos, x.main.rows p = s.main.rows p) ∧ SameShape x.main s.main ∧
      s.pos ≤ x.pos := by
  refine h.keeps (R := fun s x => (∀ p < s.pos, x.main.rows p = s.main.rows p) ∧
    SameShape x.main s.main ∧ s.pos ≤ x.pos) ?_ ?_
  · rintro x y z ⟨hxy, hs, hp⟩ ⟨hyz, hs', hp'⟩
    refine ⟨?_, hs'.trans hs, Nat.le_trans hp hp'⟩
    intro p hlt
    rw [hyz p (by omega), hxy p hlt]
  · intro x t y hf
    obtain ⟨hs, hfwd, hpos⟩ := forward_of_feed hf
    exact ⟨laws.below hfwd, laws.shape hfwd, by omega⟩

/-- The accept loop offers a stretch of the greedy run. `done` says the run halts there;
otherwise the run goes on from the state after the last token accepted. -/
theorem accept_follows (onToken : List Int → Bool) (nNew : Nat) {ds : List Int}
    {s : Point Row F Hid} {l : List (Point Row F Hid)}
    (htrail : Trail m.machine s ds l) (a : Accept) (hgo : a.done = false) :
    let b := accept m.stopIds onToken nNew
      (((s :: l).map fun x => m.pick (m.logits x.hid)).zip ds) a
    (b.done = true → greedy m onToken (nNew - a.emitted) s a.out = (b.out, none)) ∧
      (b.done = false → ∃ x, (s :: l)[b.k - a.k]? = some x ∧
        greedy m onToken (nNew - a.emitted) s a.out =
          greedy m onToken (nNew - b.emitted) x b.out) ∧
      a.k ≤ b.k ∧ a.emitted ≤ b.emitted := by
  induction htrail generalizing a with
  | nil s =>
    refine ⟨?_, ?_, Nat.le_refl _, Nat.le_refl _⟩
    · intro h
      exact absurd h (by simp [accept, hgo])
    · intro _
      exact ⟨s, by simp [accept], rfl⟩
  | @cons s s' t ds l hf _ ih =>
    rw [List.map_cons, List.zip_cons_cons, accept]
    -- where the loop ends, the run goes on from the state it has
    have hstay : (a.done = true → greedy m onToken (nNew - a.emitted) s a.out = (a.out, none)) ∧
        (a.done = false → ∃ x, (s :: s' :: l)[a.k - a.k]? = some x ∧
          greedy m onToken (nNew - a.emitted) s a.out =
            greedy m onToken (nNew - a.emitted) x a.out) ∧
        a.k ≤ a.k ∧ a.emitted ≤ a.emitted := by
      refine ⟨?_, ?_, Nat.le_refl _, Nat.le_refl _⟩
      · intro h
        rw [hgo] at h
        cases h
      · intro _
        exact ⟨s, by rw [Nat.sub_self]; rfl, rfl⟩
    by_cases hlt : a.emitted < nNew
    · rw [if_pos hlt]
      by_cases heq : m.pick (m.logits s.hid) ≠ t
      · rw [if_pos heq]
        exact hstay
      · rw [if_neg heq]
        have hnext : m.machine.next s = t := not_not.mp heq
        obtain ⟨n, hn⟩ : ∃ n, nNew - a.emitted = n + 1 := ⟨nNew - a.emitted - 1, by omega⟩
        have hhalts := halts_concat m onToken a.out t
        dsimp only
        by_cases hstop : (m.stopIds.contains t || !onToken (a.out ++ [t])) = true
        · rw [if_pos hstop]
          rw [hstop] at hhalts
          refine ⟨?_, ?_, Nat.le_succ _, Nat.le_succ _⟩
          · intro _
            rw [hn, greedy, run_halt (by rw [hnext]; exact hhalts), hnext]
          · intro h
            cases h
        · rw [if_neg hstop]
          rw [Bool.eq_false_iff.mpr hstop] at hhalts
          -- an accepted draft is the run's own next token
          have hstep : greedy m onToken (nNew - a.emitted) s a.out =
              greedy m onToken (nNew - (a.emitted + 1)) s' (a.out ++ [t]) := by
            have hn' : nNew - (a.emitted + 1) = n := by omega
            rw [hn, hn', greedy, greedy, ← hnext]
            exact run_feed (by rw [hnext]; exact hhalts) (by rw [hnext]; exact hf)
          obtain ⟨hdone, hmore, hk, he⟩ :=
            ih ⟨a.k + 1, a.emitted + 1, a.out ++ [t], a.done⟩ hgo
          dsimp only at hdone hmore hk he
          rw [hstep]
          refine ⟨hdone, ?_, by omega, by omega⟩
          intro h
          obtain ⟨x, hx, hgreedy⟩ := hmore h
          refine ⟨x, ?_, hgreedy⟩
          generalize accept m.stopIds onToken nNew _ _ = b at hx hk ⊢
          have hidx : b.k - a.k = (b.k - (a.k + 1)) + 1 := by omega
          rw [hidx]
          exact hx
    · rw [if_neg hlt]
      exact hstay

/-- The run at the head of a turn and the state the greedy run is in there. -/
structure Follows (m : Model Row F HRow Hid E) (track : Bool) (r : Run Row F HRow Hid)
    (s : Point Row F Hid) : Prop where
  agree : Agree r.pos r.kv.main s.main
  pos : s.pos = r.pos
  hid : s.hid = r.hlast
  logit : r.logit = m.logits r.hlast
  /-- a cache with recurrent state is tracked -/
  plain : track = false → r.kv.main.hasMamba = false

theorem Follows.next {track : Bool} {r : Run Row F HRow Hid} {s : Point Row F Hid}
    (h : Follows m track r s) : m.machine.next s = m.pick r.logit := by
  show m.pick (m.logits s.hid) = m.pick r.logit
  rw [h.hid, h.logit]

theorem hasMamba_of_shape {a b : MainKv Row F} (h : SameShape a b) : a.hasMamba = b.hasMamba := by
  unfold MainKv.hasMamba
  rw [h.dim]

/-- `replay` changes the main stack and the spans only. -/
theorem replay_same (m : Model Row F HRow Hid E) (r : Run Row F HRow Hid) (ids : List Int) :
    ∃ main spans, (replay m r ids).1 = { r with kv := { r.kv with main }, spans } := by
  unfold replay
  cases restoreMambaFrom r.kv.main r.mambaSnap with
  | none => exact ⟨r.kv.main, r.spans, rfl⟩
  | some main =>
    dsimp only
    rcases m.forward main ids r.pos with e | ⟨hs, main'⟩
    · exact ⟨main, _, rfl⟩
    · exact ⟨main', _, rfl⟩

section

variable {track : Bool} {r : Run Row F HRow Hid} {s : Point Row F Hid} {kv₀ : MainKv Row F}
variable {l : List (Point Row F Hid)} {batch drafts : List Int} {g : Nat} {a : Accept}

/-- A rejected draft undone: from the cache after the verify forward, the snapshot and the
accepted tokens lead to a cache that agrees with the trail's state after them. -/
theorem replay_follows (laws : ForwardLaws m.forward) (htrail : Trail m.machine s batch l)
    (hpos : s.pos = r.pos) (hag : Agree s.pos kv₀ s.main)
    (hrows : ∀ p < s.pos, r.kv.main.rows p = kv₀.rows p) (hshape : SameShape r.kv.main kv₀)
    {snap : MambaSnapshot F} (hsnap : r.mambaSnap = snapshotMambaInto kv₀ snap) {k : Nat}
    {x : Point Row F Hid} (hx : l[k]? = some x) :
    ((replay m r (batch.take (1 + k))).2 = none →
        Agree (r.pos + (1 + k)) (replay m r (batch.take (1 + k))).1.kv.main x.main) ∧
      ((replay m r (batch.take (1 + k))).2 ≠ none → ¬ m.Reliable) := by
  obtain ⟨back, hback, hmamba, hbrows⟩ := restoreMambaFrom_snapshot hshape snap
  have hagb : Agree s.pos back s.main := by
    have hb : Agree s.pos back kv₀ := ⟨fun p hp => by rw [hbrows, hrows p hp], hmamba⟩
    exact hb.trans hag
  have hkl : k < l.length := (List.getElem?_eq_some_iff.mp hx).1
  have hkb : k < batch.length := htrail.length_eq ▸ hkl
  have hlen : (batch.take (1 + k)).length = 1 + k := by
    rw [List.length_take]
    omega
  have hne : batch.take (1 + k) ≠ [] := by
    intro hnil
    rw [hnil] at hlen
    simp at hlen
    omega
  unfold replay
  rw [hsnap, hback]
  dsimp only
  rcases hf : m.forward back (batch.take (1 + k)) r.pos with e | ⟨hs, main'⟩
  · refine ⟨?_, ?_⟩
    · intro h
      cases h
    · intro _ hrel
      exact hrel.forward _ _ _ _ hf
  · refine ⟨?_, fun h => absurd rfl h⟩
    intro _
    rw [← hpos] at hf
    obtain ⟨l', y, htrail', -, hlast, hend⟩ := forward_trail laws hne hf hagb
    have hl' : l' = l.take (1 + k) := htrail'.unique (htrail.take (1 + k))
    have hy : l[k]? = some y := by
      rw [hl', List.getLast?_eq_getElem?, List.length_take,
        Nat.min_eq_left (by omega), List.getElem?_take] at hlast
      rw [if_pos (by omega)] at hlast
      rw [← hlast]
      congr 1
      omega
    rw [hx] at hy
    cases hy
    rw [hlen, hpos] at hend
    exact hend

/-- With no recurrent state the rejected rows are simply left behind. -/
theorem leave_follows (laws : ForwardLaws m.forward) (htrail : Trail m.machine s batch l)
    (hpos : s.pos = r.pos) {k : Nat} {x y : Point Row F Hid} (hx : l[k]? = some x)
    (hy : l[g]? = some y) (hkg : k ≤ g) (hend : Agree (r.pos + (1 + g)) r.kv.main y.main)
    (hshape : SameShape r.kv.main kv₀) (hno : kv₀.hasMamba = false) :
    Agree (r.pos + (1 + k)) r.kv.main x.main := by
  have hxs : (s :: l)[1 + k]? = some x := by
    rw [Nat.add_comm]
    exact hx
  have hxpos : x.pos = r.pos + (1 + k) := by
    rw [trail_pos htrail hxs, hpos]
  have hrest := htrail.drop hxs
  have hxy : (∀ p < x.pos, y.main.rows p = x.main.rows p) ∧ SameShape y.main x.main := by
    by_cases hkg' : k = g
    · rw [hkg', hy] at hx
      cases hx
      exact ⟨fun _ _ => rfl, rfl, rfl, rfl⟩
    · have hmem : y ∈ l.drop (1 + k) := by
        apply List.mem_of_getElem? (i := g - (1 + k))
        rw [List.getElem?_drop, ← hy]
        congr 1
        omega
      obtain ⟨hrows, hsh, -⟩ := trail_keeps laws hrest y hmem
      exact ⟨hrows, hsh⟩
  refine ⟨?_, ?_⟩
  · intro p hp
    rw [hend.rows p (by omega), hxy.1 p (by omega)]
  · have hsh : SameShape r.kv.main x.main := hend.mamba.shape.trans hxy.2
    have hxno : x.main.hasMamba = false := by
      rw [hasMamba_of_shape (hsh.symm.trans hshape), hno]
    exact hsh.sameMamba hxno

/-- The end of a turn that does not stop: the run follows the trail's state after the last
accepted token. It fails only where a forward or the head does. -/
theorem settle_follows (laws : ForwardLaws m.forward) (track : Bool) (drafts : List Int)
    (r : Run Row F HRow Hid) (htrail : Trail m.machine s batch l)
    (hk : a.k ≤ g) (hpos : s.pos = r.pos)
    (hag : Agree s.pos kv₀ s.main)
    (hsnap : track = true → 0 < g → ∃ snap, r.mambaSnap = snapshotMambaInto kv₀ snap)
    {y : Point Row F Hid} (hy : l[g]? = some y)
    (hend : Agree (r.pos + (1 + g)) r.kv.main y.main)
    (hno : track = false → kv₀.hasMamba = false) {x : Point Row F Hid} (hx : l[a.k]? = some x) :
    match settle m track batch drafts (l.map Point.hid) g a r with
    | .next r' => Follows m track r' x ∧ r'.out = r.out ∧ r'.emitted = r.emitted ∧
        r'.budget = r.budget ∧ a.done = false
    | .stop r' => r'.out = r.out ∧ a.done = true
    | .fail r' _ => r'.out = r.out ∧ ¬ m.Reliable ∧ (g = 0 → False) := by
  have hmemy : y ∈ l := List.mem_of_getElem? hy
  obtain ⟨hyrows, hyshape, -⟩ := trail_keeps laws htrail y hmemy
  have hshape : SameShape r.kv.main kv₀ :=
    (hend.mamba.shape.trans hyshape).trans hag.mamba.shape.symm
  have hrows : ∀ p < s.pos, r.kv.main.rows p = kv₀.rows p := by
    intro p hp
    rw [hend.rows p (by omega), hyrows p hp, hag.rows p hp]
  have hxpos : x.pos = r.pos + (1 + a.k) := by
    rw [trail_pos htrail (k := 1 + a.k) (by rw [Nat.add_comm]; exact hx), hpos]
  have hplain : track = false → x.main.hasMamba = false := by
    intro ht
    obtain ⟨-, hxshape, -⟩ := trail_keeps laws htrail x (List.mem_of_getElem? hx)
    rw [hasMamba_of_shape hxshape, hasMamba_of_shape hag.mamba.shape.symm, hno ht]
  unfold settle
  -- rolled back or not, the cache is the trail's at the last accepted token
  have hback : ∀ res, (if track && decide (a.k < g) && !a.done then
      replay m r (batch.take (1 + a.k)) else (r, none)) = res →
      (∃ main spans, res.1 = { r with kv := { r.kv with main }, spans }) ∧
      (res.2 = none → a.done = false → Agree (r.pos + (1 + a.k)) res.1.kv.main x.main) ∧
      (res.2 ≠ none → ¬ m.Reliable ∧ (g = 0 → False)) := by
    intro res hres
    rw [← hres]
    by_cases hroll : (track && decide (a.k < g) && !a.done) = true
    · rw [if_pos hroll]
      simp only [Bool.and_eq_true, decide_eq_true_eq] at hroll
      obtain ⟨snap, hs⟩ := hsnap hroll.1.1 (by omega)
      obtain ⟨hgood, hbad⟩ := replay_follows laws htrail hpos hag hrows hshape hs hx
      exact ⟨replay_same .., fun h _ => hgood h, fun h => ⟨hbad h, fun hg => by omega⟩⟩
    · rw [if_neg hroll]
      refine ⟨⟨r.kv.main, r.spans, rfl⟩, ?_, fun h => absurd rfl h⟩
      intro _ hdone
      by_cases hkg : a.k = g
      · rw [hkg] at hx ⊢
        rw [hx] at hy
        cases hy
        exact hend
      · have ht : track = false := by
          simpa [hdone, Nat.lt_of_le_of_ne hk hkg] using hroll
        exact leave_follows laws htrail hpos hx hy hk hend hshape (hno ht)
  generalize (if track && decide (a.k < g) && !a.done then
    replay m r (batch.take (1 + a.k)) else (r, none)) = res at hback ⊢
  obtain ⟨⟨main, spans, hres⟩, hagree, hbad⟩ := hback _ rfl
  obtain ⟨r₁, none | f⟩ := res
  · dsimp only at hres hagree hbad ⊢
    -- absorbing what was accepted touches the head only
    have habs : ∀ out, (if a.k ≥ 1 then
          absorb m.mtp r₁.kv (drafts.take a.k) (l.map Point.hid) r₁.pos
        else (r₁.kv, [], none)) = out →
        out.1.main = r₁.kv.main ∧ (out.2.2 ≠ none → ¬ m.Reliable ∧ (g = 0 → False)) := by
      intro out hout
      rw [← hout]
      split
      next hk1 =>
        have hkeep := absorb_main m.mtp r₁.kv (drafts.take a.k) (l.map Point.hid) r₁.pos
        refine ⟨hkeep, fun h => ⟨fun hrel => h ?_, fun hg => by omega⟩⟩
        exact absorb_ok hrel.head ..
      next => exact ⟨rfl, fun h => absurd rfl h⟩
    generalize (if a.k ≥ 1 then absorb m.mtp r₁.kv (drafts.take a.k) (l.map Point.hid) r₁.pos
      else (r₁.kv, [], none)) = out at habs ⊢
    obtain ⟨hmain, hfail⟩ := habs _ rfl
    obtain ⟨kv, spans', none | e⟩ := out
    · have hhid : (l.map Point.hid)[a.k]? = some x.hid := by
        rw [List.getElem?_map, hx]
        rfl
      dsimp only
      rw [hhid]
      dsimp only
      cases hdone : a.done with
      | true =>
        refine ⟨?_, rfl⟩
        rw [hres]
      | false =>
        have hr₁pos : r₁.pos = r.pos := by rw [hres]
        refine ⟨⟨?_, ?_, rfl, rfl, ?_⟩, ?_, ?_, ?_, rfl⟩
        · show Agree (r₁.pos + (1 + a.k)) kv.main x.main
          rw [hmain, hr₁pos]
          exact hagree rfl hdone
        · show x.pos = r₁.pos + (1 + a.k)
          rw [hr₁pos, hxpos]
        · intro ht
          show kv.main.hasMamba = false
          rw [hmain, hasMamba_of_shape (hagree rfl hdone).mamba.shape, hplain ht]
        · show r₁.out = r.out
          rw [hres]
        · show r₁.emitted = r.emitted
          rw [hres]
        · show r₁.budget = r.budget
          rw [hres]
    · refine ⟨?_, hfail (by simp)⟩
      show r₁.out = r.out
      rw [hres]
  · refine ⟨?_, hbad (by simp)⟩
    show r₁.out = r.out
    dsimp only at hres
    rw [hres]

end

/-- What a turn that starts with `out` and `emitted` tokens does to the rest `G` of the greedy
run: it goes on along it, ends where it ends, or fails on the way. With no budget it fails
only where the greedy run does. -/
def TurnFollows (m : Model Row F HRow Hid E) (track : Bool) (onToken : List Int → Bool)
    (nNew emitted budget : Nat) (G : List Int × Option E) : Turn Row F HRow Hid E → Prop
  | .next r => (∃ x, Follows m track r x ∧ G = greedy m onToken (nNew - r.emitted) x r.out) ∧
      emitted < r.emitted ∧ (budget = 0 → r.budget = 0)
  | .stop r => G = (r.out, none)
  | .fail r _ => r.out <+: G.1 ∧ ¬ m.Reliable ∧ (budget = 0 → r.out = G.1 ∧ G.2.isSome = true)

/-- A verify forward that fails: what is out is what the greedy run has by then, and with nothing
drafted the greedy run fails there too. -/
theorem verify_failed (laws : ForwardLaws m.forward) (onToken : List Int → Bool)
    (hist drafts : List Int) {track : Bool} {r : Run Row F HRow Hid} {s : Point Row F Hid}
    (hf : Follows m track r s) {n g : Nat} (hout : r.out = hist ++ [m.machine.next s])
    (hgo : m.halts onToken (hist ++ [m.machine.next s]) = false) {e : E}
    (hfwd : m.forward r.kv.main (m.machine.next s :: drafts.take g) r.pos = .error e) :
    r.out <+: (greedy m onToken (n + 2) s hist).1 ∧ ¬ m.Reliable ∧
      (drafts = [] → r.out = (greedy m onToken (n + 2) s hist).1 ∧
        (greedy m onToken (n + 2) s hist).2.isSome = true) := by
  refine ⟨?_, fun h => h.forward _ _ _ _ hfwd, ?_⟩
  · rw [hout]
    exact prefix_run_next ..
  · rintro rfl
    -- a lone forward fails on both caches or on neither
    rw [List.take_nil] at hfwd
    rcases hs : m.forward s.main [m.machine.next s] s.pos with e' | ⟨hs', kv'⟩
    · rw [greedy, run_fail hgo (feed_error hs)]
      exact ⟨hout, rfl⟩
    · rw [hf.pos] at hs
      obtain ⟨b', hb, -⟩ := laws.overwrites hf.agree.symm hs
      rw [hfwd] at hb
      cases hb

/-- What the accept loop has offered is a stretch of the greedy run `G`, so however the turn is
settled, it goes along it. -/
theorem turn_of_settle {onToken : List Int → Bool} {track : Bool} {drafts : List Int}
    {l : List (Point Row F Hid)} {x : Point Row F Hid} {g emitted budget : Nat} {a : Accept}
    {G : List Int × Option E} (hg : g ≤ drafts.length) (hgrow : emitted < a.emitted)
    (hdone : a.done = true → G = (a.out, none))
    (hmore : a.done = false → ∃ x, l[a.k]? = some x ∧
      G = greedy m onToken (nNew - a.emitted) x a.out)
    (hx : l[a.k]? = some x) {t : Turn Row F HRow Hid E}
    (hsettle : match t with
      | .next r' => Follows m track r' x ∧ r'.out = a.out ∧ r'.emitted = a.emitted ∧
          r'.budget = budget ∧ a.done = false
      | .stop r' => r'.out = a.out ∧ a.done = true
      | .fail r' _ => r'.out = a.out ∧ ¬ m.Reliable ∧ (g = 0 → False)) :
    TurnFollows m track onToken nNew emitted budget G t ∨
      ∃ r' f, t = .fail r' f ∧ r'.out <+: G.1 ∧ ¬ m.Reliable ∧ drafts ≠ [] := by
  cases t with
  | next r' =>
    obtain ⟨hfol, ho, he, hb, hd⟩ := hsettle
    obtain ⟨x', hx', hgreedy⟩ := hmore hd
    cases hx.symm.trans hx'
    refine Or.inl ⟨⟨x, hfol, ?_⟩, he ▸ hgrow, fun hzero => hb.trans hzero⟩
    rw [hgreedy, ho, he]
  | stop r' =>
    obtain ⟨ho, hd⟩ := hsettle
    refine Or.inl ?_
    show G = (r'.out, none)
    rw [hdone hd, ho]
  | fail r' f =>
    obtain ⟨ho, hrel, hpos⟩ := hsettle
    refine Or.inr ⟨r', f, rfl, ?_, hrel, ?_⟩
    · rw [ho]
      cases hd : a.done with
      | true =>
        exact (hdone hd).symm ▸ List.prefix_rfl
      | false =>
        obtain ⟨x', -, hgreedy⟩ := hmore hd
        rw [hgreedy]
        exact prefix_run ..
    · intro hnil
      rw [hnil] at hg
      exact hpos (Nat.le_zero.mp hg)

/-- The verify step of a turn that has offered `next` after `hist`. -/
theorem verify_follows (laws : ForwardLaws m.forward) (onToken : List Int → Bool)
    (hist drafts : List Int) {track : Bool} {r : Run Row F HRow Hid} {s : Point Row F Hid}
    (hf : Follows m track r s) {emitted : Nat}
    (hout : r.out = hist ++ [m.machine.next s]) (hem : r.emitted = emitted + 1)
    (hlt : r.emitted < nNew) (hgo : m.halts onToken r.out = false) :
    TurnFollows m track onToken nNew emitted r.budget (greedy m onToken (nNew - emitted) s hist)
      (verify m track onToken nNew (m.machine.next s) drafts r) ∨
      (∃ r' f, verify m track onToken nNew (m.machine.next s) drafts r = .fail r' f ∧
        r'.out <+: (greedy m onToken (nNew - emitted) s hist).1 ∧ ¬ m.Reliable ∧ drafts ≠ []) := by
  obtain ⟨n, hn⟩ : ∃ n, nNew - emitted = n + 2 := ⟨nNew - emitted - 2, by omega⟩
  rw [hout] at hgo
  unfold verify
  have hg := clamp_le r.pos drafts.length (nNew - r.emitted) r.kv.maxT
  generalize clamp r.pos drafts.length (nNew - r.emitted) r.kv.maxT = g at hg ⊢
  have hlen : (drafts.take g).length = g := by
    rw [List.length_take]
    omega
  dsimp only
  rcases hfwd : m.forward r.kv.main (m.machine.next s :: drafts.take g) r.pos with e | ⟨hAll, main⟩
  · rw [hn]
    obtain ⟨hpre, hrel, hnone⟩ := verify_failed (n := n) laws onToken hist drafts hf hout hgo hfwd
    cases drafts with
    | nil => exact Or.inl ⟨hpre, hrel, fun _ => hnone rfl⟩
    | cons d ds => exact Or.inr ⟨_, _, rfl, hpre, hrel, List.cons_ne_nil d ds⟩
  · dsimp only
    rw [← hf.pos] at hfwd
    -- the batch passes through the states of the greedy machine
    obtain ⟨l, y, htrail, hhid, hlast, hend⟩ :=
      forward_trail laws (List.cons_ne_nil _ _) hfwd (hf.pos ▸ hf.agree)
    obtain ⟨s₁, l, hfeed, hrest, rfl⟩ := htrail.of_cons
    have hll : l.length = g := by rw [hrest.length_eq, hlen]
    have hstep : greedy m onToken (nNew - emitted) s hist =
        greedy m onToken (nNew - r.emitted) s₁ r.out := by
      have hn' : nNew - r.emitted = n + 1 := by omega
      rw [hn, hn', hout, greedy, greedy]
      exact run_feed hgo hfeed
    have hacc := accept_follows onToken nNew hrest
      ⟨0, r.emitted, r.out, false⟩ rfl
    obtain ⟨j, hj, hk, -, -, -⟩ := accept_offered m.stopIds onToken
      (((s₁ :: l).map fun x => m.pick (m.logits x.hid)).zip (drafts.take g))
      ⟨0, r.emitted, r.out, false⟩ (Nat.le_of_lt hlt)
    have htruths : hAll.map (fun h => m.pick (m.logits h)) =
        (s₁ :: l).map fun x => m.pick (m.logits x.hid) := by
      rw [← hhid, List.map_map]
      rfl
    rw [htruths]
    generalize accept m.stopIds onToken nNew _ _ = a at hacc hk ⊢
    obtain ⟨hdone, hmore, -, hgrow⟩ := hacc
    dsimp only at hdone hmore hk hgrow
    rw [Nat.zero_add] at hk
    rw [Nat.sub_zero] at hmore
    have hjg : a.k ≤ g := by
      rw [List.length_zip, hlen] at hj
      omega
    have hkl : a.k < (s₁ :: l).length := by
      rw [List.length_cons]
      omega
    obtain ⟨x, hx⟩ : ∃ x, (s₁ :: l)[a.k]? = some x := ⟨_, List.getElem?_eq_getElem hkl⟩
    have hy : (s₁ :: l)[g]? = some y := by
      rw [List.getLast?_eq_getElem?, List.length_cons, hll] at hlast
      exact hlast
    have hsettle := settle_follows laws track drafts
      { r with
        mambaSnap := if track && decide (g > 0) then snapshotMambaInto r.kv.main r.mambaSnap
          else r.mambaSnap
        spans := r.spans ++ [Span.mk r.pos (m.machine.next s :: drafts.take g).length]
        kv := { r.kv with main }
        forwards := r.forwards + 1
        emitted := a.emitted
        out := a.out
        accepted := r.accepted + a.k }
      htrail hjg hf.pos (hf.pos ▸ hf.agree)
      (by
        intro ht hgpos
        refine ⟨r.mambaSnap, ?_⟩
        show (if track && decide (g > 0) then snapshotMambaInto r.kv.main r.mambaSnap
          else r.mambaSnap) = _
        rw [if_pos (by simp [ht, hgpos])])
      hy
      (by
        rw [hf.pos, List.length_cons, hlen, Nat.add_comm g 1] at hend
        exact hend)
      hf.plain hx
    rw [hhid] at hsettle
    rw [hstep]
    exact turn_of_settle hg.1 (by omega) hdone hmore hx hsettle

/-- Offering a token, switching the drafts off and proposing leave what `Follows` is about. -/
theorem Follows.proposed {track : Bool} {r r' : Run Row F HRow Hid} {s : Point Row F Hid}
    (h : Follows m track r s) {t : Int} {drafts : Except E (List Int)}
    (hp : Proposed (r.emit t).autoOff r' drafts) :
    Follows m track r' s ∧ r'.out = r.out ++ [t] ∧ r'.emitted = r.emitted + 1 := by
  have hmain : r'.kv.main = r.kv.main := by
    rw [hp.keeps.main, Run.autoOff_eq]
    rfl
  have hsame := hp.same
  rw [Run.autoOff_eq] at hsame
  have hpos : r'.pos = r.pos := by rw [hsame]; rfl
  have hhid : r'.hlast = r.hlast := by rw [hsame]; rfl
  have hlogit : r'.logit = r.logit := by rw [hsame]; rfl
  refine ⟨⟨?_, ?_, ?_, ?_, ?_⟩, ?_, ?_⟩
  · rw [hmain, hpos]
    exact h.agree
  · rw [hpos]
    exact h.pos
  · rw [hhid]
    exact h.hid
  · rw [hlogit, hhid]
    exact h.logit
  · rw [hmain]
    exact h.plain
  · rw [hsame]
    rfl
  · rw [hsame]
    rfl

/-- One turn follows the greedy run. -/
theorem turn_follows (laws : ForwardLaws m.forward) (onToken : List Int → Bool) {track : Bool}
    {r : Run Row F HRow Hid}
    {s : Point Row F Hid} (hf : Follows m track r s) (hlt : r.emitted < nNew) :
    TurnFollows m track onToken nNew r.emitted r.budget
      (greedy m onToken (nNew - r.emitted) s r.out) (turn m track onToken nNew r) := by
  obtain ⟨n, hn⟩ : ∃ n, nNew - r.emitted = n + 1 := ⟨nNew - r.emitted - 1, by omega⟩
  have hhalts := halts_concat m onToken r.out (m.pick r.logit)
  have hnext := hf.next
  unfold turn
  dsimp only
  -- a stop id, or a token that is the last or refused, ends both runs
  by_cases hstop : m.stopIds.contains (m.pick r.logit) = true
  · rw [if_pos hstop]
    rw [hstop, Bool.true_or] at hhalts
    show greedy m onToken (nNew - r.emitted) s r.out = (r.out ++ [m.pick r.logit], none)
    rw [hn, greedy, run_halt (by rw [hnext]; exact hhalts), hnext]
  · rw [if_neg hstop]
    rw [Bool.eq_false_iff.mpr hstop, Bool.false_or] at hhalts
    by_cases hend : (!onToken (r.emit (m.pick r.logit)).out ||
        decide ((r.emit (m.pick r.logit)).emitted ≥ nNew)) = true
    · rw [if_pos hend]
      show greedy m onToken (nNew - r.emitted) s r.out = (r.out ++ [m.pick r.logit], none)
      rcases Bool.or_eq_true _ _ ▸ hend with hkeep | hlast
      · rw [hn, greedy, run_halt (by rw [hnext, hhalts]; exact hkeep), hnext]
      · have hlast' : r.emitted + 1 ≥ nNew := of_decide_eq_true hlast
        obtain rfl : n = 0 := by omega
        rw [hn, greedy, run_one, hnext]
    · rw [if_neg hend]
      simp only [Bool.or_eq_true, not_or, Bool.not_eq_true, decide_eq_false_iff_not] at hend
      obtain ⟨hkeep, hlast⟩ := hend
      -- else drafts are proposed and verified along the greedy run
      have hp := propose_proposed m (r.emit (m.pick r.logit)).autoOff (m.pick r.logit)
      have hzero : r.budget = 0 → propose m (r.emit (m.pick r.logit)).autoOff (m.pick r.logit) =
          ((r.emit (m.pick r.logit)).autoOff, .ok []) := by
        intro hb
        rw [Run.autoOff_zero (show (r.emit _).budget = 0 from hb)]
        exact propose_zero (show (r.emit _).budget = 0 from hb) _
      have hok : m.Reliable →
          ∀ e, (propose m (r.emit (m.pick r.logit)).autoOff (m.pick r.logit)).2 ≠ .error e :=
        fun hrel => propose_ok hrel.head _ _
      have hbud : r.budget = 0 → (r.emit (m.pick r.logit)).autoOff.budget = 0 := by
        intro hb
        rw [Run.autoOff_zero (show (r.emit _).budget = 0 from hb)]
        exact hb
      generalize propose m (r.emit (m.pick r.logit)).autoOff (m.pick r.logit) = res
        at hp hzero hok ⊢
      obtain ⟨r₁, drafts⟩ := res
      obtain ⟨hf₁, hout, hem⟩ := hf.proposed hp
      rcases drafts with e | ds
      · refine ⟨?_, fun hrel => hok hrel e rfl, ?_⟩
        · rw [hout, hn, ← hnext]
          exact prefix_run_next ..
        · intro hb
          cases hzero hb
      · have hgo : m.halts onToken r₁.out = false := by
          rw [hout, hhalts]
          exact hkeep
        have hlt₁ : r₁.emitted < nNew := by
          rw [hem]
          exact Nat.lt_of_not_le hlast
        have hbud₁ : r.budget = 0 → r₁.budget = 0 := by
          intro hb
          have hsame := hp.same
          dsimp only at hsame
          rw [hsame]
          exact hbud hb
        have hv := verify_follows laws onToken r.out ds hf₁
          (by rw [hout, hnext]) hem hlt₁ hgo
        rw [hnext] at hv
        dsimp only
        generalize verify m track onToken nNew (m.pick r.logit) ds r₁ = t at hv ⊢
        rcases hv with hv | ⟨r', f, rfl, hpre, hrel, hne⟩
        · cases t with
          | next r' =>
            obtain ⟨hx, hgrow, hb⟩ := hv
            exact ⟨hx, hgrow, fun h => hb (hbud₁ h)⟩
          | stop r' => exact hv
          | fail r' f =>
            obtain ⟨hpre, hrel, hb⟩ := hv
            exact ⟨hpre, hrel, fun h => hb (hbud₁ h)⟩
        · refine ⟨hpre, hrel, ?_⟩
          intro hb
          cases hzero hb
          exact absurd rfl hne

/-- The whole loop follows the greedy run. -/
theorem decodeLoop_follows (laws : ForwardLaws m.forward) (onToken : List Int → Bool)
    {track : Bool} (fuel : Nat)
    {r : Run Row F HRow Hid} {s : Point Row F Hid} (hf : Follows m track r s)
    (hfuel : nNew - r.emitted ≤ fuel) :
    let G := greedy m onToken (nNew - r.emitted) s r.out
    let res := decodeLoop m track onToken nNew fuel r
    (res.2 = none → G = (res.1.out, none)) ∧ res.1.out <+: G.1 ∧
      (res.2 ≠ none → ¬ m.Reliable) ∧
      (r.budget = 0 → res.1.out = G.1 ∧ (G.2 = none → res.2 = none)) := by
  have hdone : ∀ r : Run Row F HRow Hid, ¬ r.emitted < nNew → ∀ s : Point Row F Hid,
      greedy m onToken (nNew - r.emitted) s r.out = (r.out, none) := by
    intro r hge s
    rw [Nat.sub_eq_zero_of_le (Nat.le_of_not_lt hge)]
    rfl
  induction fuel generalizing r s with
  | zero =>
    dsimp only
    rw [hdone r (by omega) s]
    exact ⟨fun _ => rfl, List.prefix_rfl, fun h => absurd rfl h, fun _ => ⟨rfl, fun _ => rfl⟩⟩
  | succ fuel ih =>
    dsimp only at ih ⊢
    rw [decodeLoop]
    by_cases hlt : r.emitted < nNew
    · rw [if_pos hlt]
      have ht := turn_follows laws onToken hf hlt
      generalize turn m track onToken nNew r = t at ht ⊢
      cases t with
      | next r' =>
        obtain ⟨⟨x, hfx, hG⟩, hgrow, hb⟩ := ht
        obtain ⟨hok, hpre, hrel, hzero⟩ := ih hfx (by omega)
        rw [hG]
        exact ⟨hok, hpre, hrel, fun h => hzero (hb h)⟩
      | stop r' =>
        have hG : greedy m onToken (nNew - r.emitted) s r.out = (r'.out, none) := ht
        rw [hG]
        exact ⟨fun _ => rfl, List.prefix_rfl, fun h => absurd rfl h, fun _ => ⟨rfl, fun _ => rfl⟩⟩
      | fail r' f =>
        obtain ⟨hpre, hrel, hb⟩ := ht
        have hsome : some f ≠ none := Option.some_ne_none f
        refine ⟨fun h => absurd h hsome, hpre, fun _ => hrel, ?_⟩
        intro h
        obtain ⟨hout, hfail⟩ := hb h
        refine ⟨hout, fun hnone => ?_⟩
        rw [hnone] at hfail
        cases hfail
    · rw [if_neg hlt, hdone r hlt s]
      exact ⟨fun _ => rfl, List.prefix_rfl, fun h => absurd rfl h, fun _ => ⟨rfl, fun _ => rfl⟩⟩

/-- Right after prefill the run and the greedy run are in one state. -/
theorem follows_start (laws : ForwardLaws m.forward) {rollbackEnv : Option String}
    {kv : KvCache Row F HRow} (hroll : kv.main.hasMamba = true → rollbackEnv ≠ some "0")
    {prompt : List Int} (hne : prompt ≠ []) {hidden : List Hid} {main : MainKv Row F}
    (h : m.forward kv.main prompt 0 = .ok (hidden, main)) (hlast : Hid) (budget : Nat) :
    Follows m (main.hasMamba && rollbackEnv.all (· != "0"))
      (Run.start m kv main hlast prompt.length budget) ⟨main, prompt.length, hlast⟩ := by
  refine ⟨Agree.refl _ _, rfl, rfl, rfl, ?_⟩
  intro htrack
  show main.hasMamba = false
  -- prefill keeps the shape of the recurrent state
  obtain ⟨l, x, htrail, -, hx, hend⟩ :=
    forward_trail laws hne (s := ⟨kv.main, 0, hlast⟩) h (Agree.refl _ _)
  obtain ⟨-, hshape, -⟩ := trail_keeps laws htrail x (List.mem_of_getLast? hx)
  have hsame : main.hasMamba = kv.main.hasMamba :=
    hasMamba_of_shape (hend.mamba.shape.trans hshape)
  by_cases hm : main.hasMamba = true
  · have henv := hroll (hsame ▸ hm)
    rw [hm, Bool.true_and] at htrack
    cases rollbackEnv with
    | none => simp at htrack
    | some v =>
      have hv : v = "0" := by simpa using htrack
      exact absurd (congrArg some hv) henv
  · exact Bool.eq_false_iff.mpr hm

theorem within_start (m : Model Row F HRow Hid E) (main : MainKv Row F) (hlast : Hid)
    (budget : Nat) {kv : KvCache Row F HRow} {s : Nat} (hfit : ¬ (s = 0 ∨ kv.maxT < s + nNew)) :
    Within nNew kv.maxT (Run.start m kv main hlast s budget) := by
  refine ⟨rfl, rfl, Nat.zero_le _, Nat.le_refl _, ?_⟩
  intro sp hsp
  rw [List.mem_singleton.mp hsp]
  show 0 + s ≤ kv.maxT
  omega

theorem isOk_outcome (r : Run Row F HRow Hid) (f : Option (Fault E)) :
    (outcome r f).result.isOk = true ↔ f = none := by
  cases f with
  | none => exact ⟨fun _ => rfl, fun _ => rfl⟩
  | some f => exact ⟨fun h => (nomatch h), fun h => (nomatch h)⟩

/-- Speculative decoding is invisible: with any budget and any head, a call offers the
tokens the call without drafts offers. It offers fewer only where a forward or the head
fails; a cache with recurrent state must not have the rollback switched off. Every
forward stays inside the cache, no more drafts are accepted than were proposed, and no
more tokens are offered than asked for. -/
theorem drafting_invisible (m : Model Row F HRow Hid E) (laws : ForwardLaws m.forward)
    (rollbackEnv : Option String) (kv : KvCache Row F HRow) (prompt : List Int)
    (nNew budget : Nat) (onToken : List Int → Bool) :
    let run := fun b => generateStreamDrafting m rollbackEnv kv prompt nNew b onToken
    ((kv.main.hasMamba = true → rollbackEnv ≠ some "0") →
      (run budget).tokens <+: (run 0).tokens ∧
      ((run budget).result.isOk = true →
        (run 0).result.isOk = true ∧ (run budget).tokens = (run 0).tokens) ∧
      (m.Reliable → prompt ≠ [] → prompt.length + nNew ≤ kv.maxT →
        (run budget).result.isOk = true)) ∧
    (∀ s ∈ (run budget).spans, s.Fits kv.maxT) ∧
    (run budget).accepted ≤ (run budget).proposed ∧
    (run budget).tokens.length ≤ nNew := by
  dsimp only
  unfold generateStreamDrafting
  dsimp only
  by_cases hfit : prompt.length = 0 ∨ kv.maxT < prompt.length + nNew
  · rw [if_pos hfit, if_pos hfit]
    refine ⟨fun _ => ⟨List.prefix_rfl, fun h => (nomatch h), ?_⟩, by simp, Nat.le_refl _,
      Nat.zero_le _⟩
    intro _ hne hcap
    rcases hfit with h0 | hsmall
    · exact absurd (List.eq_nil_of_length_eq_zero h0) hne
    · omega
  · rw [if_neg hfit, if_neg hfit]
    have hpre : ∀ s ∈ [(⟨0, prompt.length⟩ : Span)], s.Fits kv.maxT := by
      intro sp hsp
      rw [List.mem_singleton.mp hsp]
      show 0 + prompt.length ≤ kv.maxT
      omega
    have hne : prompt ≠ [] := by
      intro h
      exact hfit (Or.inl (congrArg List.length h))
    rcases hfwd : m.forward kv.main prompt 0 with e | ⟨hidden, main⟩
    · refine ⟨fun _ => ⟨List.prefix_rfl, fun h => (nomatch h), ?_⟩, hpre, Nat.le_refl _,
        Nat.zero_le _⟩
      intro hrel
      exact absurd hfwd (hrel.forward _ _ _ _)
    · dsimp only
      cases hh : hidden[prompt.length - 1]? with
      | none =>
        refine ⟨fun _ => ⟨List.prefix_rfl, fun h => (nomatch h), ?_⟩, hpre, Nat.le_refl _,
          Nat.zero_le _⟩
        have hlen := laws.length hfwd
        have hnone := List.getElem?_eq_none_iff.mp hh
        omega
      | some hlast =>
        dsimp only
        have hw := within_decodeLoop m (main.hasMamba && rollbackEnv.all (· != "0")) onToken nNew
          (within_start m main hlast budget hfit)
          (by
            show prompt.length + (nNew - 0) ≤ kv.maxT
            omega)
        refine ⟨?_, hw.spans, hw.accepted, ?_⟩
        · intro hroll
          -- both runs follow the greedy one, and that without drafts to its end
          have hdraft := decodeLoop_follows laws onToken nNew
            (follows_start laws hroll hne hfwd hlast budget) (Nat.sub_le ..)
          have hplain := decodeLoop_follows laws onToken nNew
            (follows_start laws hroll hne hfwd hlast 0) (Nat.sub_le ..)
          obtain ⟨hok, hprefix, hrel, -⟩ := hdraft
          obtain ⟨-, -, -, hzero⟩ := hplain
          obtain ⟨hout, hnone⟩ := hzero (by
            show (if m.hasMtp then 0 else 0) = 0
            exact ite_self 0)
          rw [isOk_outcome, isOk_outcome]
          refine ⟨?_, ?_, ?_⟩
          · show (decodeLoop ..).1.out <+: (decodeLoop ..).1.out
            rw [hout]
            exact hprefix
          · intro hd
            have hG := hok hd
            refine ⟨hnone (congrArg Prod.snd hG), ?_⟩
            show (decodeLoop ..).1.out = (decodeLoop ..).1.out
            rw [hout]
            exact (congrArg Prod.fst hG).symm
          · intro hreliable _ _
            by_contra hfail
            exact hrel hfail hreliable
        · show (decodeLoop ..).1.out.length ≤ nNew
          rw [hw.out]
          exact hw.owed

end

/-! ## A model with one recurrent layer -/

/-- A token is added to every conv value; the hidden row is their sum. -/
def sumStep (kv : MainKv Int Int) (t : Int) (pos : Nat) : MainKv Int Int where
  rows p := if p = pos then t else kv.rows p
  mambaConv := kv.mambaConv.map fun b => b.map (· + t + 1)
  mambaSsm := kv.mambaSsm
  mambaConvDim := kv.mambaConvDim
  layers := by rw [List.length_map, kv.layers]
  unused h := by
    refine ⟨?_, (kv.unused h).2⟩
    intro b hb
    obtain ⟨c, hc, rfl⟩ := List.mem_map.mp hb
    rw [(kv.unused h).1 c hc]
    rfl

def sumAll (kv : MainKv Int Int) : List Int → Nat → List Int × MainKv Int Int
  | [], _ => ([], kv)
  | t :: ts, pos =>
    let kv := sumStep kv t pos
    let rest := sumAll kv ts (pos + 1)
    (kv.mambaConv.flatten.sum :: rest.1, rest.2)

/-- A model that picks its hidden row modulo 3, with a head that always proposes 1. -/
def sumModel : Model Int Int Unit Int Unit where
  forward kv ids pos := .ok (sumAll kv ids pos)
  logits h := List.replicate (h % 3).toNat 0 ++ [1]
  gt a b := decide (a > b)
  negInf := -1
  stopIds := []
  hasMtp := true
  mtp := some ⟨[], fun _ h _ => h, fun _ => [0, 1]⟩

def sumCache : KvCache Int Int Unit where
  maxT := 8
  main := ⟨fun _ => 0, [[0]], [[]], 1, rfl, fun h => (nomatch h)⟩
  head := ⟨[0], ()⟩

theorem sumAll_length (kv : MainKv Int Int) (ids : List Int) (pos : Nat) :
    (sumAll kv ids pos).1.length = ids.length := by
  induction ids generalizing kv pos with
  | nil => rfl
  | cons t ids ih => exact congrArg (· + 1) (ih ..)

/-- The laws hold of it. -/
theorem sumModel_laws : ForwardLaws sumModel.forward where
  length {kv ids pos hs kv'} h := by
    have hs' : (sumAll kv ids pos).1 = hs := congrArg Prod.fst (Except.ok.inj h)
    rw [← hs']
    exact sumAll_length ..
  batch h := by
    cases h
    exact ⟨_, _, _, rfl, rfl, rfl⟩
  overwrites hag h := by
    cases h
    refine ⟨_, congrArg Except.ok (Prod.ext ?_ rfl), ?_, ?_⟩
    · show [_] = [_]
      rw [List.cons.injEq]
      refine ⟨?_, rfl⟩
      show (List.map _ _).flatten.sum = (List.map _ _).flatten.sum
      rw [hag.mamba.conv]
    · intro p hp
      show (if p = _ then _ else _) = (if p = _ then _ else _)
      split
      · rfl
      · exact hag.rows p (by omega)
    · exact ⟨hag.mamba.dim, congrArg (List.map _) hag.mamba.conv, hag.mamba.ssm⟩
  below h := by
    cases h
    intro p hp
    exact if_neg (Nat.ne_of_lt hp)
  shape h := by
    cases h
    refine ⟨rfl, ?_, rfl⟩
    show (List.map _ (List.map _ _)) = _
    rw [List.map_map]
    congr 1
    funext b
    exact List.length_map ..

/-- A run with one draft a turn, and the run without. -/
theorem drafting_invisible_sum :
    (generateStreamDrafting sumModel none sumCache [0] 3 1 fun _ => true).tokens =
      (generateStreamDrafting sumModel none sumCache [0] 3 0 fun _ => true).tokens ∧
    (generateStreamDrafting sumModel none sumCache [0] 3 1 fun _ => true).accepted ≤
      (generateStreamDrafting sumModel none sumCache [0] 3 1 fun _ => true).proposed := by
  have h := drafting_invisible sumModel sumModel_laws none sumCache [0] 3 1 fun _ => true
  have hok := (h.1 fun _ => by simp).2.2
    ⟨by simp [sumModel], by
      intro mtp hmtp b hb
      cases hmtp
      cases hb⟩ (by simp) (by decide)
  exact ⟨((h.1 fun _ => by simp).2.1 hok).2, h.2.2.1⟩

/-- With the rollback switched off a rejected draft stays in the recurrent state, and the
third token differs. -/
theorem rollback_off_shows :
    ForwardLaws sumModel.forward ∧ [(0 : Int)].length + 3 ≤ sumCache.maxT ∧
    (generateStreamDrafting sumModel (some "0") sumCache [0] 3 1 fun _ => true).tokens =
      [1, 0, 0] ∧
    (generateStreamDrafting sumModel (some "0") sumCache [0] 3 0 fun _ => true).tokens =
      [1, 0, 1] :=
  ⟨sumModel_laws, by decide, by decide, by decide⟩

end Colibri.Generate
