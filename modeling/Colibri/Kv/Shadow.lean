import Colibri.Mtp.Head
import Mathlib.Algebra.Order.Ring.Nat

/-!
# The device shadow of the latent cache

A layer's rows are kept on the host. The device has a copy of them in two buffers, the
latents and the roped keys, and one count of the rows that are valid there. An attention
call writes its rows on the host; a call of one token on a layer that starts at row 0
then syncs the shadow up to its own row and reads it, every other call leaves the shadow
alone.

So the shadow hears of a rewrite by the position of the next call of one token only. A
call of several tokens that starts below the valid count leaves rows behind that the
shadow takes for valid (`accepted_drafts_stale`); where none does, what the device reads
is what the host has (`reads_host`). The main stack makes no such call (`main_told`).

A row is a latent and a roped key, of any type. What the device answers to a call is
arbitrary: memory it allocates holds anything, a copy that fails leaves anything in the
rows it was to fill, and one to a null pointer fails.

* `sync_synced` is a sync, `attend_attended` an attention call, and `reads_host` a run.
* `mainSpans_forward`, `headSpans_single` are the calls that a generation makes, on the main stack
  and on the head.
* `no_null`: no copy goes to a null pointer, where the device allocates both buffers or none.
* `shadow_coherent` is the result over a generation, `accepted_drafts_stale` the run it leaves out.
-/

namespace Colibri.Kv.Shadow

open Mtp (Span)

def kvUnset : Nat := 2 ^ 64 - 1

/-- A layer: its host rows and where they start, and its `DevLayer`; `none` is a null
pointer. -/
structure Layer (L R : Type) where
  host : Nat → L × R
  kvStart : Nat
  latent : Option (Nat → L)
  rope : Option (Nat → R)
  valid : Nat

/-- What comes of a copy: the bytes given, or a failure and what it left. -/
inductive Copy (α : Type) where
  | done
  | failed (left : Nat → α)

/-- What the device answers during a call: memory as it is found, or none. -/
structure Device (L R : Type) where
  latentMem : Option (Nat → L)
  ropeMem : Option (Nat → R)
  latentCopy : Copy L
  ropeCopy : Copy R

/-- An attention call: its position, the rows it writes, and the device's answers. -/
structure Call (L R : Type) where
  pos : Nat
  rows : List (L × R)
  device : Device L R

/-- What a call did: the layer after it, the pointers it read the device through, and
whether a copy was asked for through a null pointer. -/
structure Done (L R : Type) where
  layer : Layer L R
  read : Option (Option (Nat → L) × Option (Nat → R))
  nullCopy : Bool

section

variable {L R α : Type}

/-- `pipe_upload` of the rows from `lo` to `hi`. -/
def upload (c : Copy α) (buf src : Nat → α) (lo hi : Nat) : (Nat → α) × Bool :=
  match c with
  | .done => (fun i => if lo ≤ i ∧ i < hi then src i else buf i, true)
  | .failed left => (fun i => if lo ≤ i ∧ i < hi then left i else buf i, false)

def uploadTo (c : Copy α) (buf : Option (Nat → α)) (src : Nat → α) (lo hi : Nat) :
    Option (Nat → α) × Bool :=
  match buf with
  | none => (none, false)
  | some b => ((upload c b src lo hi).1, (upload c b src lo hi).2)

/-- The buffers of `sync`, allocated one after the other behind the test of the first. -/
def allocate (d : Device L R) (l : Layer L R) : Layer L R × Bool :=
  match l.latent with
  | some _ => (l, true)
  | none =>
    match d.latentMem with
    | none => (l, false)
    | some latent =>
      match d.ropeMem with
      | none => ({ l with latent := some latent }, false)
      | some rope => ({ l with latent := some latent, rope := some rope, valid := 0 }, true)

/-- The rows from the valid count to `tk`, uploaded. -/
def fill (d : Device L R) (tk : Nat) (l : Layer L R) : Done L R :=
  if l.valid < tk then
    let (latent, ok) := uploadTo d.latentCopy l.latent (fun i => (l.host i).1) l.valid tk
    if ok then
      let (rope, ok) := uploadTo d.ropeCopy l.rope (fun i => (l.host i).2) l.valid tk
      if ok then ⟨{ l with latent, rope, valid := tk }, some (latent, rope), false⟩
      else ⟨{ l with latent, rope }, none, l.rope.isNone⟩
    else ⟨{ l with latent }, none, l.latent.isNone⟩
  else ⟨l, some (l.latent, l.rope), false⟩

/-- `DeviceKv::sync` -/
def sync (d : Device L R) (pos tk : Nat) (l : Layer L R) : Done L R :=
  match allocate d l with
  | (l, false) => ⟨l, none, false⟩
  | (l, true) =>
    -- rewritten rows are stale
    fill d tk (if pos < l.valid then { l with valid := pos } else l)

/-- The host rows with a call's rows written from `pos` on. -/
def writeRows (host : Nat → α) (pos : Nat) (rows : List α) (i : Nat) : α :=
  if pos ≤ i then (rows[i - pos]?).getD (host i) else host i

def startAt (l : Layer L R) (pos : Nat) : Layer L R :=
  if l.kvStart > pos then { l with kvStart := pos } else l

/-- The host side of a call: on a layer of the head, where the cache starts; the rows. -/
def write (head : Bool) (c : Call L R) (l : Layer L R) : Layer L R :=
  let l := if head then startAt l c.pos else l
  { l with host := writeRows l.host c.pos c.rows }

/-- The call takes the persistent device path: `eligible` where a GPU is there, the layer's
`kv_b` is resident and the call is for all heads without a selection. -/
def onDevice (eligible : Bool) (c : Call L R) (l : Layer L R) : Prop :=
  eligible = true ∧ c.rows.length = 1 ∧ l.kvStart = 0

instance (eligible : Bool) (c : Call L R) (l : Layer L R) : Decidable (onDevice eligible c l) :=
  inferInstanceAs (Decidable (_ ∧ _))

/-- What `attention_with_heads` does to the shadow. -/
def attend (eligible head : Bool) (c : Call L R) (l : Layer L R) : Done L R :=
  let l := write head c l
  if onDevice eligible c l then sync c.device c.pos (c.pos + 1) l else ⟨l, none, false⟩

/-! ## What the device has -/

/-- The first `n` rows of a buffer are those of the host. -/
def Agrees (buf : Option (Nat → α)) (src : Nat → α) (n : Nat) : Prop :=
  ∀ i, i < n → ∃ b, buf = some b ∧ b i = src i

variable {buf : Option (Nat → α)} {src : Nat → α} {pos : Nat} {turns : List Turn}

theorem Agrees.mono {m n : Nat} (h : Agrees buf src n)
    (hle : m ≤ n) : Agrees buf src m := fun i hi => h i (Nat.lt_of_lt_of_le hi hle)

/-- A copy leaves the rows before it; one that is done adds its own. -/
theorem uploadTo_agrees (c : Copy α) {lo : Nat} (hi : Nat)
    (h : Agrees buf src lo) :
    Agrees (uploadTo c buf src lo hi).1 src lo ∧
      ((uploadTo c buf src lo hi).2 = true → Agrees (uploadTo c buf src lo hi).1 src hi) := by
  cases buf with
  | none => exact ⟨h, fun hok => by cases hok⟩
  | some b =>
    cases c with
    | done =>
      have hrow : ∀ i, i < hi → (if lo ≤ i ∧ i < hi then src i else b i) = src i := by
        intro i hlt
        by_cases hlo : lo ≤ i
        · rw [if_pos ⟨hlo, hlt⟩]
        · obtain ⟨b', hb, hrow⟩ := h i (Nat.lt_of_not_le hlo)
          cases hb
          rw [if_neg fun hin => hlo hin.1, hrow]
      refine ⟨fun i hlt => ⟨_, rfl, ?_⟩, fun _ i hlt => ⟨_, rfl, hrow i hlt⟩⟩
      obtain ⟨b', hb, hrow⟩ := h i hlt
      cases hb
      show (if lo ≤ i ∧ i < hi then src i else b i) = src i
      rw [if_neg fun hin => Nat.not_lt.mpr hin.1 hlt, hrow]
    | failed left =>
      refine ⟨fun i hlt => ⟨_, rfl, ?_⟩, fun hok => by cases hok⟩
      obtain ⟨b', hb, hrow⟩ := h i hlt
      cases hb
      show (if lo ≤ i ∧ i < hi then left i else b i) = src i
      rw [if_neg fun hin => Nat.not_lt.mpr hin.1 hlt, hrow]

/-- The device's first `n` rows are the host's, in both buffers. -/
structure CoherentTo (n : Nat) (l : Layer L R) : Prop where
  latent : Agrees l.latent (fun i => (l.host i).1) n
  rope : Agrees l.rope (fun i => (l.host i).2) n

/-- The rows the shadow takes for valid are. -/
def Coherent (l : Layer L R) : Prop := CoherentTo l.valid l

/-- What a call reads on the device is there and is the host's, up to row `tk`. -/
def ReadsHost (tk : Nat) (r : Done L R) : Prop :=
  ∀ latent rope, r.read = some (latent, rope) →
    latent.isSome = true ∧ rope.isSome = true ∧
      Agrees latent (fun i => (r.layer.host i).1) tk ∧ Agrees rope (fun i => (r.layer.host i).2) tk

/-- What a sync leaves: the host side, a coherent shadow of no more rows than it was told
of, and a read that is the host's. -/
structure Synced (tk : Nat) (l : Layer L R) (r : Done L R) : Prop where
  host : r.layer.host = l.host
  kvStart : r.layer.kvStart = l.kvStart
  coherent : Coherent r.layer
  valid_le : r.layer.valid ≤ max l.valid tk
  reads : ReadsHost tk r

theorem isSome_of_agrees {n : Nat} (h : Agrees buf src n)
    (hn : 0 < n) : buf.isSome = true := by
  obtain ⟨b, hb, _⟩ := h 0 hn
  rw [hb]
  rfl

variable {l : Layer L R}

/-- Filling the shadow of a layer syncs it. -/
theorem fill_synced (d : Device L R) {tk : Nat} (htk : 0 < tk)
    (h : Coherent l) : Synced tk l (fill d tk l) := by
  unfold fill
  have hlatent := uploadTo_agrees d.latentCopy tk h.latent
  have hrope := uploadTo_agrees d.ropeCopy tk h.rope
  generalize uploadTo d.latentCopy l.latent (fun i => (l.host i).1) l.valid tk = up at hlatent ⊢
  generalize uploadTo d.ropeCopy l.rope (fun i => (l.host i).2) l.valid tk = up' at hrope ⊢
  obtain ⟨latent, ok⟩ := up
  obtain ⟨rope, ok'⟩ := up'
  dsimp only at hlatent hrope ⊢
  have hdeclined : ∀ (m : Layer L R) (null : Bool), ReadsHost tk ⟨m, none, null⟩ :=
    fun _ _ _ _ hread => by cases hread
  split
  next hlt =>
    cases ok with
    | false => exact ⟨rfl, rfl, ⟨hlatent.1, h.rope⟩, Nat.le_max_left .., hdeclined _ _⟩
    | true =>
      cases ok' with
      | false => exact ⟨rfl, rfl, ⟨hlatent.1, hrope.1⟩, Nat.le_max_left .., hdeclined _ _⟩
      | true =>
        refine ⟨rfl, rfl, ⟨hlatent.2 rfl, hrope.2 rfl⟩, Nat.le_max_right .., ?_⟩
        intro x y hread
        cases hread
        exact ⟨isSome_of_agrees (hlatent.2 rfl) htk, isSome_of_agrees (hrope.2 rfl) htk,
          hlatent.2 rfl, hrope.2 rfl⟩
  next hge =>
    have hle := Nat.le_of_not_lt hge
    refine ⟨rfl, rfl, h, Nat.le_max_left .., ?_⟩
    intro x y hread
    cases hread
    exact ⟨isSome_of_agrees (h.latent.mono hle) htk, isSome_of_agrees (h.rope.mono hle) htk,
      h.latent.mono hle, h.rope.mono hle⟩

theorem coherentTo_zero (l : Layer L R) : CoherentTo 0 l :=
  ⟨fun _ h => absurd h (Nat.not_lt_zero _), fun _ h => absurd h (Nat.not_lt_zero _)⟩

theorem declined_synced {tk : Nat} {l' : Layer L R} (hhost : l'.host = l.host)
    (hstart : l'.kvStart = l.kvStart) (hvalid : l'.valid = 0) : Synced tk l ⟨l', none, false⟩ := by
  refine ⟨hhost, hstart, ?_, ?_, fun _ _ hread => by cases hread⟩
  · show CoherentTo l'.valid l'
    rw [hvalid]
    exact coherentTo_zero l'
  · show l'.valid ≤ _
    rw [hvalid]
    exact Nat.zero_le _

/-- **A sync** needs of the shadow only the rows before the call's own. -/
theorem sync_synced (d : Device L R) {tk : Nat} (htk : 0 < tk)
    (h : CoherentTo (min pos l.valid) l) (hnone : l.latent = none → l.valid = 0) :
    Synced tk l (sync d pos tk l) := by
  unfold sync allocate
  cases hlatent : l.latent with
  | some b =>
    dsimp only
    by_cases hpos : pos < l.valid
    · rw [if_pos hpos]
      rw [Nat.min_eq_left (Nat.le_of_lt hpos)] at h
      have hcut := fill_synced d (l := { l with valid := pos }) htk ⟨h.latent, h.rope⟩
      refine ⟨hcut.host, hcut.kvStart, hcut.coherent, Nat.le_trans hcut.valid_le ?_, hcut.reads⟩
      show max pos tk ≤ max l.valid tk
      omega
    · rw [if_neg hpos]
      rw [Nat.min_eq_right (Nat.le_of_not_lt hpos)] at h
      exact fill_synced d htk h
  | none =>
    have hzero := hnone hlatent
    cases d.latentMem with
    | none => exact declined_synced rfl rfl hzero
    | some m =>
      cases d.ropeMem with
      | none => exact declined_synced rfl rfl hzero
      | some m' =>
        -- new buffers hold no valid row, so there is nothing to take back
        have hnew := fill_synced d (l := { l with latent := some m, rope := some m', valid := 0 })
          htk (coherentTo_zero _)
        exact ⟨hnew.host, hnew.kvStart, hnew.coherent,
          Nat.le_trans hnew.valid_le (by show max 0 tk ≤ max l.valid tk; omega), hnew.reads⟩

/-! ## Calls -/

/-- The call does not rewrite a row the shadow takes for valid without its hearing of it. -/
def Told (eligible head : Bool) (l : Layer L R) (c : Call L R) : Prop :=
  onDevice eligible c (write head c l) ∨ l.valid ≤ c.pos

theorem write_eq (head : Bool) (c : Call L R) (l : Layer L R) :
    write head c l = { l with
      kvStart := if head then min l.kvStart c.pos else l.kvStart
      host := writeRows l.host c.pos c.rows } := by
  cases head with
  | false => rfl
  | true =>
    have hstart : startAt l c.pos = { l with kvStart := min l.kvStart c.pos } := by
      unfold startAt
      split
      next hlt => rw [Nat.min_eq_right (Nat.le_of_lt hlt)]
      next hge => rw [Nat.min_eq_left (Nat.le_of_not_lt hge)]
    show { startAt l c.pos with host := writeRows (startAt l c.pos).host c.pos c.rows } = _
    rw [hstart]
    rfl

theorem write_shadow (head : Bool) (c : Call L R) (l : Layer L R) :
    (write head c l).latent = l.latent ∧ (write head c l).rope = l.rope ∧
      (write head c l).valid = l.valid := by
  rw [write_eq]
  exact ⟨rfl, rfl, rfl⟩

theorem write_host (head : Bool) (c : Call L R) (l : Layer L R) {i : Nat} (hi : i < c.pos) :
    (write head c l).host i = l.host i := by
  rw [write_eq]
  exact if_neg (Nat.not_le.mpr hi)

theorem write_coherent (head : Bool) (c : Call L R) {n : Nat}
    (h : CoherentTo n l) (hn : n ≤ c.pos) : CoherentTo n (write head c l) := by
  obtain ⟨hlatent, hrope, _⟩ := write_shadow head c l
  refine ⟨fun i hi => ?_, fun i hi => ?_⟩
  · obtain ⟨b, hb, hrow⟩ := h.latent i hi
    rw [hlatent]
    exact ⟨b, hb, hrow.trans (congrArg Prod.fst (write_host head c l (by omega)).symm)⟩
  · obtain ⟨b, hb, hrow⟩ := h.rope i hi
    rw [hrope]
    exact ⟨b, hb, hrow.trans (congrArg Prod.snd (write_host head c l (by omega)).symm)⟩

theorem valid_of_null (h : Coherent l) (hnone : l.latent = none) : l.valid = 0 := by
  rcases Nat.eq_zero_or_pos l.valid with hzero | hpos
  · exact hzero
  · obtain ⟨b, hb, _⟩ := h.latent 0 hpos
    rw [hnone] at hb
    cases hb

/-- What a call the shadow is told of leaves. -/
structure Attended (eligible head : Bool) (c : Call L R) (l : Layer L R) : Prop where
  coherent : Coherent (attend eligible head c l).layer
  reads : ReadsHost (c.pos + 1) (attend eligible head c l)
  valid_le : (attend eligible head c l).layer.valid ≤ max l.valid (c.pos + 1)
  kvStart : (attend eligible head c l).layer.kvStart = (write head c l).kvStart

theorem attend_host_only {eligible head : Bool} {c : Call L R}
    (h : ¬ onDevice eligible c (write head c l)) :
    attend eligible head c l = ⟨write head c l, none, false⟩ := by
  unfold attend
  exact if_neg h

/-- **A call the shadow is told of** keeps it coherent, and what it reads is the host's. -/
theorem attend_attended (eligible head : Bool) (c : Call L R) (h : Coherent l)
    (htold : Told eligible head l c) : Attended eligible head c l := by
  obtain ⟨hlatent, _, hvalid⟩ := write_shadow head c l
  by_cases hdev : onDevice eligible c (write head c l)
  · have hrun : attend eligible head c l
        = sync c.device c.pos (c.pos + 1) (write head c l) := if_pos hdev
    have hbelow : CoherentTo (min c.pos (write head c l).valid) (write head c l) := by
      rw [hvalid]
      exact write_coherent head c ⟨h.latent.mono (Nat.min_le_right ..),
        h.rope.mono (Nat.min_le_right ..)⟩ (Nat.min_le_left ..)
    have hsync := sync_synced c.device (Nat.succ_pos c.pos) hbelow fun hnone => by
      rw [hvalid]
      exact valid_of_null h (hlatent ▸ hnone)
    exact ⟨hrun ▸ hsync.coherent, hrun ▸ hsync.reads, hrun ▸ hvalid ▸ hsync.valid_le,
      hrun ▸ hsync.kvStart⟩
  · have hle : l.valid ≤ c.pos := htold.resolve_left hdev
    have hrun := attend_host_only hdev
    have hnone : ReadsHost (c.pos + 1) (⟨write head c l, none, false⟩ : Done L R) :=
      fun _ _ hread => by cases hread
    have hafter : Coherent (write head c l) := by
      unfold Coherent
      rw [hvalid]
      exact write_coherent head c h hle
    refine ⟨hrun ▸ hafter, hrun ▸ hnone, ?_, hrun ▸ rfl⟩
    rw [hrun]
    show (write head c l).valid ≤ _
    rw [hvalid]
    exact Nat.le_max_left ..

/-! ## Runs of calls -/

/-- What holds of each call of a run, beside the layer it finds. -/
def EachCall (eligible head : Bool) (P : Layer L R → Call L R → Prop) :
    List (Call L R) → Layer L R → Prop
  | [], _ => True
  | c :: calls, l => P l c ∧ EachCall eligible head P calls (attend eligible head c l).layer

def Reads (eligible head : Bool) (l : Layer L R) (c : Call L R) : Prop :=
  ReadsHost (c.pos + 1) (attend eligible head c l)

/-- **A run the shadow is told of** reads the host's rows at every call. -/
theorem reads_host (eligible head : Bool) (calls : List (Call L R))
    (h : Coherent l) (htold : EachCall eligible head (Told eligible head) calls l) :
    EachCall eligible head (Reads eligible head) calls l := by
  induction calls generalizing l with
  | nil => trivial
  | cons c calls ih =>
    have hcall := attend_attended eligible head c h htold.1
    exact ⟨hcall.reads, ih hcall.coherent htold.2⟩

/-- A call of one token is followed by calls from the next row on only. -/
def Forward (calls : List (Call L R)) : Prop :=
  calls.Pairwise fun a b => a.rows.length = 1 → a.pos + 1 ≤ b.pos

/-- The shadow is told of every call of a run that goes forward. -/
theorem told_of_forward (eligible head : Bool) (calls : List (Call L R))
    (h : Coherent l) (hvalid : ∀ c ∈ calls, l.valid ≤ c.pos) (hforward : Forward calls) :
    EachCall eligible head (Told eligible head) calls l := by
  induction calls generalizing l with
  | nil => trivial
  | cons c calls ih =>
    have htold : Told eligible head l c := .inr (hvalid c (List.mem_cons_self ..))
    have hcall := attend_attended eligible head c h htold
    have hle := hcall.valid_le
    obtain ⟨hfirst, hrest⟩ := List.pairwise_cons.mp hforward
    refine ⟨htold, ih hcall.coherent (fun b hb => ?_) hrest⟩
    have hbefore := hvalid b (List.mem_cons_of_mem _ hb)
    by_cases hdev : onDevice eligible c (write head c l)
    · have hafter := hfirst b hb hdev.2.1
      omega
    · rw [attend_host_only hdev]
      exact (write_shadow head c l).2.2 ▸ hbefore

/-! ## The calls of a generation -/

/-- A turn of the decode loop: the calls of the head that drafted, the drafts verified,
those accepted, and whether the accepted tokens were fed again. -/
structure Turn where
  drafted : Nat
  verified : Nat
  accepted : Nat
  replayed : Bool
  verified_le : verified ≤ drafted
  accepted_le : accepted ≤ verified
  replayed_lt : replayed = true → accepted < verified

/-- The calls on a layer of the main stack from position `pos` on: verify, and replay. -/
def mainSpans : Nat → List Turn → List Span
  | _, [] => []
  | pos, t :: turns =>
    ⟨pos, 1 + t.verified⟩ :: ((if t.replayed then [⟨pos, 1 + t.accepted⟩] else []) ++
      mainSpans (pos + (1 + t.accepted)) turns)

/-- The calls on a layer of the head: `draft` from the row before `pos` on, one token at a
time, and `absorb` over the tokens accepted. -/
def headSpans : Nat → List Turn → List Span
  | _, [] => []
  | pos, t :: turns =>
    (List.range t.drafted).map (fun g => (⟨pos - 1 + g, 1⟩ : Span)) ++
      ((if 1 ≤ t.accepted then [⟨pos, t.accepted⟩] else []) ++
        headSpans (pos + (1 + t.accepted)) turns)

def Call.span (c : Call L R) : Span := ⟨c.pos, c.rows.length⟩

theorem mainSpans_ge : ∀ s ∈ mainSpans pos turns, pos ≤ s.pos := by
  induction turns generalizing pos with
  | nil => exact fun s hs => absurd hs List.not_mem_nil
  | cons t turns ih =>
    intro s hs
    rw [mainSpans, List.mem_cons, List.mem_append] at hs
    obtain rfl | hs | hs := hs
    · exact Nat.le_refl _
    · split at hs
      · obtain rfl := List.mem_singleton.mp hs
        exact Nat.le_refl _
      · exact absurd hs List.not_mem_nil
    · exact Nat.le_trans (Nat.le_add_right ..) (ih s hs)

/-- The calls on the main stack go forward: only a call of several tokens is made again. -/
theorem mainSpans_forward (pos : Nat) (turns : List Turn) :
    (mainSpans pos turns).Pairwise fun a b => a.len = 1 → a.pos + 1 ≤ b.pos := by
  induction turns generalizing pos with
  | nil => exact List.Pairwise.nil
  | cons t turns ih =>
    have hrest := ih (pos + (1 + t.accepted))
    have hge : ∀ s ∈ mainSpans (pos + (1 + t.accepted)) turns, pos + 1 ≤ s.pos := fun s hs =>
      Nat.le_trans (by omega) (mainSpans_ge s hs)
    rw [mainSpans]
    split
    next hreplayed =>
      -- verified again means that a draft was rejected, so there was one
      have hlt := t.replayed_lt hreplayed
      refine List.pairwise_cons.mpr ⟨fun b _ hlen => ?_,
        List.pairwise_cons.mpr ⟨fun b hb _ => hge b hb, hrest⟩⟩
      have hone : 1 + t.verified = 1 := hlen
      omega
    next => exact List.pairwise_cons.mpr ⟨fun b hb _ => hge b hb, hrest⟩

theorem prefill_forward {s : Nat} (hs : 0 < s) (turns : List Turn) :
    ((⟨0, s⟩ : Span) :: mainSpans s turns).Pairwise fun a b => a.len = 1 → a.pos + 1 ≤ b.pos :=
  List.pairwise_cons.mpr ⟨fun b hb _ => Nat.le_trans (by show 0 + 1 ≤ s; omega) (mainSpans_ge b hb),
    mainSpans_forward s turns⟩

theorem forward_of_append {calls : List (Call L R)} {spans : List Span}
    (h : spans.Pairwise fun a b => a.len = 1 → a.pos + 1 ≤ b.pos)
    (hcalls : calls.map Call.span <+: spans) : Forward calls :=
  List.pairwise_map.mp (h.sublist hcalls.sublist)

/-- A head whose cache starts past row 0 is never read on the device. -/
theorem told_of_started_later (eligible : Bool) (calls : List (Call L R))
    (hpos : ∀ c ∈ calls, 0 < c.pos) (hstart : 0 < l.kvStart) (hvalid : l.valid = 0) :
    EachCall eligible true (Told eligible true) calls l := by
  induction calls generalizing l with
  | nil => trivial
  | cons c calls ih =>
    have hlater : 0 < (write true c l).kvStart := by
      rw [write_eq]
      exact Nat.lt_min.mpr ⟨hstart, hpos c (List.mem_cons_self ..)⟩
    have hdev : ¬ onDevice eligible c (write true c l) := fun h => Nat.ne_of_gt hlater h.2.2
    refine ⟨.inr (hvalid ▸ Nat.zero_le _), ?_⟩
    rw [attend_host_only hdev]
    exact ih (fun b hb => hpos b (List.mem_cons_of_mem _ hb)) hlater
      ((write_shadow true c l).2.2.trans hvalid)

/-- A layer that is only called for single tokens is told of every one of them. -/
theorem told_of_single (eligible head : Bool) (calls : List (Call L R))
    (h : Coherent l) (hlen : ∀ c ∈ calls, c.rows.length = 1)
    (hvalid : l.valid = 0 ∨ eligible = true ∧ l.kvStart = 0) :
    EachCall eligible head (Told eligible head) calls l := by
  induction calls generalizing l with
  | nil => trivial
  | cons c calls ih =>
    have hone := hlen c (List.mem_cons_self ..)
    have hrest := fun b hb => hlen b (List.mem_cons_of_mem _ hb)
    have hkept : l.kvStart = 0 → (write head c l).kvStart = 0 := by
      intro hzero
      rw [write_eq]
      show (if head then min l.kvStart c.pos else l.kvStart) = 0
      split
      · rw [hzero, Nat.zero_min]
      · exact hzero
    by_cases hdev : onDevice eligible c (write head c l)
    · have hcall := attend_attended eligible head c h (.inl hdev)
      exact ⟨.inl hdev, ih hcall.coherent hrest (.inr ⟨hdev.1, hcall.kvStart.trans hdev.2.2⟩)⟩
    · -- the shadow has not been filled: else this call would have gone through it
      have hzero : l.valid = 0 :=
        hvalid.resolve_right fun hon => hdev ⟨hon.1, hone, hkept hon.2⟩
      have htold : Told eligible head l c := .inr (hzero ▸ Nat.zero_le _)
      have hcall := attend_attended eligible head c h htold
      refine ⟨htold, ih hcall.coherent hrest (.inl ?_)⟩
      rw [attend_host_only hdev]
      exact (write_shadow head c l).2.2.trans hzero

theorem headSpans_ge :
    ∀ s ∈ headSpans pos turns, pos - 1 ≤ s.pos := by
  induction turns generalizing pos with
  | nil => exact fun s hs => absurd hs List.not_mem_nil
  | cons t turns ih =>
    intro s hs
    rw [headSpans, List.mem_append, List.mem_append, List.mem_map] at hs
    obtain ⟨g, _, rfl⟩ | hs | hs := hs
    · exact Nat.le_add_right ..
    · split at hs
      · rw [List.mem_singleton.mp hs]
        exact Nat.sub_le ..
      · exact absurd hs List.not_mem_nil
    · exact Nat.le_trans (by omega) (ih s hs)

/-- With at most one draft accepted a turn, the head is called for single tokens. -/
theorem headSpans_single (h : ∀ t ∈ turns, t.accepted ≤ 1) :
    ∀ s ∈ headSpans pos turns, s.len = 1 := by
  induction turns generalizing pos with
  | nil => exact fun s hs => absurd hs List.not_mem_nil
  | cons t turns ih =>
    intro s hs
    have hone := h t (List.mem_cons_self ..)
    rw [headSpans, List.mem_append, List.mem_append, List.mem_map] at hs
    obtain ⟨g, _, rfl⟩ | hs | hs := hs
    · rfl
    · split at hs
      next hpos =>
        rw [List.mem_singleton.mp hs]
        show t.accepted = 1
        omega
      next => exact absurd hs List.not_mem_nil
    · exact ih (fun u hu => h u (List.mem_cons_of_mem _ hu)) s hs

theorem span_mem {calls : List (Call L R)} {spans : List Span}
    (hcalls : calls.map Call.span <+: spans) {c : Call L R} (hc : c ∈ calls) : c.span ∈ spans :=
  hcalls.subset (List.mem_map_of_mem hc)

/-! ## Null pointers -/

/-- The second allocation does not fail after the first. -/
def Allocates (eligible head : Bool) (l : Layer L R) (c : Call L R) : Prop :=
  onDevice eligible c (write head c l) → l.latent = none → c.device.latentMem.isSome = true →
    c.device.ropeMem.isSome = true

def NoNull (eligible head : Bool) (l : Layer L R) (c : Call L R) : Prop :=
  (attend eligible head c l).nullCopy = false

/-- The buffers are there together. -/
def Paired (l : Layer L R) : Prop := l.latent.isSome = true → l.rope.isSome = true

theorem uploadTo_isSome (c : Copy α) (buf : Option (Nat → α)) (src : Nat → α) (lo hi : Nat) :
    (uploadTo c buf src lo hi).1.isSome = buf.isSome := by
  cases buf <;> rfl

theorem fill_paired (d : Device L R) (tk : Nat) (hlatent : l.latent.isSome = true)
    (hrope : l.rope.isSome = true) :
    Paired (fill d tk l).layer ∧ (fill d tk l).nullCopy = false := by
  have hup := uploadTo_isSome d.latentCopy l.latent (fun i => (l.host i).1) l.valid tk
  have hup' := uploadTo_isSome d.ropeCopy l.rope (fun i => (l.host i).2) l.valid tk
  have hnull : l.latent.isNone = false := by rw [Option.isNone_eq_false_iff]; exact hlatent
  have hnull' : l.rope.isNone = false := by rw [Option.isNone_eq_false_iff]; exact hrope
  unfold fill
  dsimp only
  split
  · split
    · split
      · exact ⟨fun _ => hup'.trans hrope, rfl⟩
      · exact ⟨fun _ => hup'.trans hrope, hnull'⟩
    · exact ⟨fun _ => hrope, hnull⟩
  · exact ⟨fun _ => hrope, rfl⟩

theorem sync_paired (d : Device L R) (pos tk : Nat) (h : Paired l)
    (halloc : l.latent = none → d.latentMem.isSome = true → d.ropeMem.isSome = true) :
    Paired (sync d pos tk l).layer ∧ (sync d pos tk l).nullCopy = false := by
  unfold sync allocate
  cases hlatent : l.latent with
  | some b =>
    have hthere : l.latent.isSome = true := by rw [hlatent]; rfl
    dsimp only
    split
    · exact fill_paired d tk (l := { l with valid := pos }) hthere (h hthere)
    · exact fill_paired d tk hthere (h hthere)
  | none =>
    cases hmem : d.latentMem with
    | none => exact ⟨h, rfl⟩
    | some m =>
      obtain ⟨m', hmem'⟩ := Option.isSome_iff_exists.mp (halloc hlatent (by rw [hmem]; rfl))
      rw [hmem']
      exact fill_paired d tk (l := { l with latent := some m, rope := some m', valid := 0 }) rfl rfl

/-- **No copy goes to a null pointer**, in any run. -/
theorem no_null (eligible head : Bool) (calls : List (Call L R)) (h : Paired l)
    (halloc : EachCall eligible head (Allocates eligible head) calls l) :
    EachCall eligible head (NoNull eligible head) calls l := by
  induction calls generalizing l with
  | nil => trivial
  | cons c calls ih =>
    obtain ⟨hlatent, hrope, _⟩ := write_shadow head c l
    have hwritten : Paired (write head c l) := by
      unfold Paired
      rw [hlatent, hrope]
      exact h
    by_cases hdev : onDevice eligible c (write head c l)
    · have hrun : attend eligible head c l
          = sync c.device c.pos (c.pos + 1) (write head c l) := if_pos hdev
      obtain ⟨hnext, hnull⟩ := sync_paired c.device c.pos (c.pos + 1) hwritten fun hnone =>
        halloc.1 hdev (hlatent ▸ hnone)
      exact ⟨(congrArg Done.nullCopy hrun).trans hnull, ih (hrun ▸ hnext) halloc.2⟩
    · have hrun := attend_host_only hdev
      exact ⟨congrArg Done.nullCopy hrun, ih (hrun ▸ hwritten) halloc.2⟩

/-- A layer as a cache is made: nothing on the device. -/
def Layer.fresh (host : Nat → L × R) (kvStart : Nat) : Layer L R := ⟨host, kvStart, none, none, 0⟩

/-- **The device shadow over a generation**, of any prompt and any turns, ended or cut short,
whatever the device answers.

On a layer of the main stack the device reads what the host has. On a layer of the head it
does where every call that rewrites rows of the shadow goes through it; so for a prompt of
two tokens, or where no turn accepts two drafts. On either no copy goes through a null
pointer where the second buffer's allocation does not fail after the first's. -/
theorem shadow_coherent (eligible : Bool) {s : Nat} (hs : 0 < s) (turns : List Turn)
    (calls : List (Call L R)) (host : Nat → L × R) :
    (calls.map Call.span <+: ⟨0, s⟩ :: mainSpans s turns →
      EachCall eligible false (Reads eligible false) calls (.fresh host 0) ∧
      (EachCall eligible false (Allocates eligible false) calls (.fresh host 0) →
        EachCall eligible false (NoNull eligible false) calls (.fresh host 0))) ∧
    (calls.map Call.span <+: headSpans s turns →
      (EachCall eligible true (Told eligible true) calls (.fresh host kvUnset) →
        EachCall eligible true (Reads eligible true) calls (.fresh host kvUnset)) ∧
      (2 ≤ s ∨ (∀ t ∈ turns, t.accepted ≤ 1) →
        EachCall eligible true (Told eligible true) calls (.fresh host kvUnset)) ∧
      (EachCall eligible true (Allocates eligible true) calls (.fresh host kvUnset) →
        EachCall eligible true (NoNull eligible true) calls (.fresh host kvUnset))) := by
  have hfresh : ∀ start, Coherent (Layer.fresh host start : Layer L R) :=
    fun _ => coherentTo_zero _
  have hpaired : ∀ start, Paired (Layer.fresh host start : Layer L R) := fun _ h => by cases h
  refine ⟨fun hcalls => ⟨?_, no_null _ _ _ (hpaired _)⟩,
    fun hcalls => ⟨reads_host _ _ _ (hfresh _), fun h => ?_, no_null _ _ _ (hpaired _)⟩⟩
  · exact reads_host _ _ _ (hfresh _) (told_of_forward _ _ _ (hfresh _)
      (fun _ _ => Nat.zero_le _) (forward_of_append (prefill_forward hs turns) hcalls))
  · obtain hlong | hsingle := h
    · refine told_of_started_later _ _ (fun c hc => ?_)
        (show 0 < kvUnset by decide) rfl
      have hge := headSpans_ge _ (span_mem hcalls hc)
      exact Nat.lt_of_lt_of_le (by omega) hge
    · exact told_of_single _ _ _ (hfresh _)
        (fun c hc => headSpans_single hsingle _ (span_mem hcalls hc)) (.inl rfl)

end

/-- A device that does all it is asked. -/
def willing : Device Nat Nat := ⟨some fun _ => 0, some fun _ => 0, .done, .done⟩

/-- A device with memory for the first buffer only. -/
def halfWilling : Device Nat Nat := ⟨some fun _ => 0, none, .done, .done⟩

theorem one_verified : 1 ≤ 1 := Nat.le_refl 1

/-- A turn in which both drafts are accepted, and one that drafts again. -/
def acceptedTurns : List Turn :=
  [⟨2, 2, 2, false, by decide, by decide, by decide⟩,
    ⟨1, 1, 0, false, one_verified, by decide, by decide⟩]

/-- The calls of the head after a prompt of one token. -/
def acceptedCalls : List (Call Nat Nat) :=
  [⟨0, [(10, 10)], willing⟩, ⟨1, [(11, 11)], willing⟩, ⟨1, [(21, 21), (22, 22)], willing⟩,
    ⟨3, [(33, 33)], willing⟩]

/-- The calls of a layer of the main stack, the first of which gets half its memory. -/
def halfCalls : List (Call Nat Nat) := [⟨0, [(10, 10)], halfWilling⟩, ⟨1, [(11, 11)], willing⟩]

/-- A turn without drafts. -/
def plainTurns : List Turn := [⟨0, 0, 0, false, by decide, by decide, by decide⟩]

theorem shadow_coherent_plain :
    EachCall true false (Reads true false) halfCalls (.fresh (fun _ => (0, 0)) 0) :=
  ((shadow_coherent true Nat.one_pos plainTurns halfCalls fun _ => (0, 0)).1 ⟨[], rfl⟩).1

/-- **Accepted drafts leave stale rows**: `absorb` rewrites rows 1 and 2 on the host, and
the next draft reads row 1 as the device had it. And a copy goes through a null pointer
after half an allocation. -/
theorem accepted_drafts_stale :
    (acceptedCalls.map Call.span <+: headSpans 1 acceptedTurns) ∧
    ¬ EachCall true true (Reads true true) acceptedCalls (.fresh (fun _ => (0, 0)) kvUnset) ∧
    (halfCalls.map Call.span <+: ⟨0, 1⟩ :: mainSpans 1 plainTurns) ∧
    ¬ EachCall true false (NoNull true false) halfCalls (.fresh (fun _ => (0, 0)) 0) := by
  refine ⟨⟨[], rfl⟩, fun h => ?_, ⟨[], rfl⟩, fun h => ?_⟩
  · obtain ⟨_, _, hlatent, _⟩ := h.2.2.2.1 _ _ rfl
    obtain ⟨b, hb, hrow⟩ := hlatent 1 (by decide)
    cases hb
    exact absurd hrow (by decide)
  · exact Bool.noConfusion (show true = false from h.2.1)

end Colibri.Kv.Shadow
