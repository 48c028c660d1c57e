import Colibri.Dsv4.RawSpan

/-!
# The raw rows of a call, ringed or not

`window ≤ 0` leaves the cache linear: `maxT` rows a layer, position `p` at index
`p`. A linear buffer shows all its rows, so the same library rules apply with
`maxT` for the ring, and the two cases can be stated as one:

* `RawState` is what holds between calls;
* `RawCall` is what holds inside one, between two layers;
* `rawAttention_call` is the step over a layer, `RawState.begin` and
  `RawCall.finish` enter and leave a call.

The full forward pass uses only these.
-/

namespace Colibri.Dsv4

open Colibri.Kv (RawRows)
open Colibri.Ring (Shows rowsIn writeAll)

variable {α β : Type}

/-! ## Linear buffers -/

variable {kv : RawRows α β} {maxT : Nat}

/-- One layer's batch on an unringed cache. -/
theorem writeRows_linear {layer pos : Nat} {buf : List α} {rows : List α}
    (hring : kv.ring = 0) (hbuf : kv.latent[layer]? = some buf) (hwidth : buf.length = maxT)
    (hfit : pos + rows.length ≤ maxT) :
    kv.writeRows layer pos rows = some
      { kv with latent := kv.latent.set layer (Ring.pushAll maxT pos buf rows) } := by
  induction rows generalizing kv pos buf with
  | nil =>
    obtain ⟨hlt, hget⟩ := List.getElem?_eq_some_iff.mp hbuf
    rw [RawRows.writeRows, Ring.pushAll, ← hget, List.set_getElem_self]
  | cons row rows ih =>
    rw [List.length_cons] at hfit
    have hmod : pos % maxT = pos := Nat.mod_eq_of_lt (by omega)
    have hlayer : layer < kv.latent.length := (List.getElem?_eq_some_iff.mp hbuf).1
    have hset : kv.setLatentRow layer pos row = some
        { kv with latent := kv.latent.set layer (buf.set (pos % maxT) row) } := by
      have htouch : kv.ringTouch pos = kv := by
        rw [RawRows.ringTouch, if_neg (fun hc => hc.1 hring)]
      rw [RawRows.setLatentRow, htouch]
      simp only [hbuf, Kv.ringSlot, if_pos hring, hmod]
      rw [if_pos (by omega)]
    rw [RawRows.writeRows, hset]
    dsimp only
    let next : RawRows α β :=
      { kv with latent := kv.latent.set layer (buf.set (pos % maxT) row) }
    have hget : next.latent[layer]? = some (buf.set (pos % maxT) row) :=
      List.getElem?_set_self hlayer
    rw [ih (show next.ring = 0 from hring) hget ((List.length_set).trans hwidth) (by omega)]
    dsimp only [next]
    rw [List.set_set]
    rfl

/-- A span of a linear buffer is read back as one run. -/
theorem extendRows_linear {hi start stop : Nat} {buf : List α} {m : Nat → Option α}
    (h : Shows maxT 0 hi buf m) (hlt : start < stop) (hhi : stop ≤ hi) :
    ∃ out, RawRows.extendRows buf 0 start stop = some out ∧ out.map some = rowsIn m start stop := by
  have hspan := h.span
  have hread := h.read (Nat.zero_le start) hhi (by omega)
  rw [Nat.mod_eq_of_lt (show start < maxT by omega),
    Nat.min_eq_left (show stop - start ≤ maxT - start by omega), Nat.sub_self, List.take_zero,
    List.append_nil] at hread
  refine ⟨_, ?_, hread⟩
  rw [RawRows.extendRows, if_pos rfl, if_pos ⟨Nat.le_of_lt hlt, by rw [h.length]; omega⟩]

/-! ## Ringed or linear -/

/-- First raw position a call at `posBase` reads. -/
def spanLo (window : Int) (posBase : Nat) : Nat := if 0 < window then rawLo window posBase else 0

/-- The window of a call ending at `total`. -/
def spanWin (window : Int) (total : Nat) : Nat := if 0 < window then window.toNat else total

variable {s : Nat}

theorem dsv4RawSpan_spec (window : Int) (posBase : Nat) (hs : 0 < s) :
    dsv4RawSpan posBase s window
      = (spanLo window posBase, posBase + s, spanWin window (posBase + s)) := by
  by_cases hw : 0 < window
  · rw [dsv4RawSpan_eq hw, spanLo, spanWin, if_pos hw, if_pos hw]
  · simp only [dsv4RawSpan, spanLo, spanWin, gt_iff_lt, hw, if_false]
    rw [Nat.min_eq_right (by omega), Nat.sub_self]

theorem spanLo_le (window : Int) (posBase : Nat) : spanLo window posBase ≤ posBase := by
  unfold spanLo
  split
  next hw => exact rawLo_le hw posBase
  next => exact Nat.zero_le _

/-- A linear cache inside a call. -/
structure LinearCall (layers nRows maxT posBase s li : Nat) (kv : RawRows α β)
    (m : Nat → Nat → Option α) : Prop where
  ring_eq : kv.ring = 0
  shaped : kv.Shaped nRows
  done : ∀ (j : Nat) (buf : List α), j < li → kv.latent[j]? = some buf →
    Shows maxT 0 (posBase + s) buf (m j)
  todo : ∀ (j : Nat) (buf : List α), li ≤ j → j < layers → kv.latent[j]? = some buf →
    Shows maxT 0 posBase buf (m j)

/-- Inside a call: layers below `li` hold the batch. -/
def RawCall (window : Int) (layers nRows maxT posBase s li : Nat) (kv : RawRows α β)
    (m : Nat → Nat → Option α) : Prop :=
  if 0 < window then InCall window layers nRows posBase s li kv m
  else LinearCall layers nRows maxT posBase s li kv m

/-- Between calls. -/
def RawState (window : Int) (layers nRows maxT posBase : Nat) (kv : RawRows α β)
    (m : Nat → Nat → Option α) : Prop :=
  if 0 < window then Settled window layers nRows posBase kv m
  else LinearCall layers nRows maxT posBase 0 0 kv m

/-- What the cache admits: without a window, no position past its rows. -/
def Admits (window : Int) (maxT total : Nat) : Prop := 0 < window ∨ total ≤ maxT

theorem rawState_new [Inhabited α] [Inhabited β] (window : Int) (layers nRows maxT : Nat)
    (m : Nat → Nat → Option α) :
    RawState window layers nRows maxT 0 (RawRows.new nRows maxT : RawRows α β) m := by
  unfold RawState
  split
  · exact settled_new window layers nRows maxT m
  · refine ⟨rfl, RawRows.new_shaped nRows maxT, fun j _ hj => absurd hj (Nat.not_lt_zero j), ?_⟩
    intro j buf _ _ hbuf
    refine Shows.empty (m j) ?_
    have hb : buf = List.replicate maxT default :=
      List.eq_of_mem_replicate (List.mem_of_getElem? hbuf)
    rw [hb, List.length_replicate]

section

variable [Inhabited α] [Inhabited β]

variable {m : Nat → Nat → Option α} {window : Int} {layers nRows posBase : Nat}

/-- Entering a call: the first layer's sizing leaves the state of layer 0. -/
theorem RawState.begin (hs : 0 < s)
    (h : RawState window layers nRows maxT posBase kv m) :
    ∃ kv', dsv4RingFor kv posBase s window
        = some (kv', spanLo window posBase, posBase + s, spanWin window (posBase + s)) ∧
      RawCall window layers nRows maxT posBase s 0 kv' m := by
  unfold RawState at h
  unfold RawCall spanLo spanWin
  by_cases hw : 0 < window
  · simp only [if_pos hw] at h ⊢
    obtain ⟨kv', hfor, _, hin⟩ := dsv4RingFor_settled hw hs h
    exact ⟨kv', hfor, hin⟩
  · simp only [if_neg hw] at h ⊢
    refine ⟨kv, ?_, h.ring_eq, h.shaped, fun j _ hj => absurd hj (Nat.not_lt_zero j), h.todo⟩
    have hspan := dsv4RawSpan_spec window posBase hs
    rw [spanLo, spanWin, if_neg hw, if_neg hw] at hspan
    simp only [dsv4RingFor, hspan, gt_iff_lt, hw, if_false]

/-- Inside a call the sizing changes nothing. -/
theorem RawCall.ringFor {li : Nat} (hs : 0 < s)
    (h : RawCall window layers nRows maxT posBase s li kv m) :
    dsv4RingFor kv posBase s window
      = some (kv, spanLo window posBase, posBase + s, spanWin window (posBase + s)) := by
  unfold RawCall at h
  by_cases hw : 0 < window
  · rw [if_pos hw] at h
    rw [dsv4RingFor_inCall hw h, spanLo, spanWin, if_pos hw, if_pos hw]
  · have hspan := dsv4RawSpan_spec window posBase hs
    simp only [dsv4RingFor, hspan, gt_iff_lt, hw, if_false]

/-- **One layer**, ringed or linear: it writes its batch and reads back what the
linear cache holds. `kv` is the cache before the layer's sizing, `kv₀` after
it. -/
theorem rawAttention_call {li : Nat}
    {kv₀ : RawRows α β} {rows : List α} (hs : 0 < rows.length)
    (hli : li < layers) (hn : layers ≤ nRows) (hfit : Admits window maxT (posBase + rows.length))
    (hfor : dsv4RingFor kv posBase rows.length window
      = some (kv₀, spanLo window posBase, posBase + rows.length,
          spanWin window (posBase + rows.length)))
    (h : RawCall window layers nRows maxT posBase rows.length li kv₀ m) :
    ∃ kv' raw, rawAttention kv window li posBase rows = some (kv', raw) ∧
      raw.map some = rowsIn (writeAll posBase (m li) rows) (spanLo window posBase)
        (posBase + rows.length) ∧
      RawCall window layers nRows maxT posBase rows.length (li + 1) kv'
        (Function.update m li (writeAll posBase (m li) rows)) := by
  -- the sizing done, `kv` and `kv₀` go through the same steps
  have hsame : rawAttention kv window li posBase rows
    = rawAttention kv₀ window li posBase rows := by
    unfold rawAttention
    rw [hfor, h.ringFor hs]
  rw [hsame]
  have hfor₀ := h.ringFor hs
  unfold RawCall at h ⊢
  by_cases hw : 0 < window
  · simp only [if_pos hw] at h ⊢
    obtain ⟨kv', raw, hatt, hraw, _, hin⟩ := rawAttention_inCall hw hs hli hn h
    rw [spanLo, if_pos hw]
    exact ⟨kv', raw, hatt, hraw, hin⟩
  · simp only [if_neg hw] at h ⊢
    have hmax : posBase + rows.length ≤ maxT := hfit.resolve_left hw
    have hlt : li < kv₀.latent.length := by
      rw [h.shaped.latent_length]
      omega
    obtain ⟨buf, hbuf⟩ : ∃ buf, kv₀.latent[li]? = some buf := ⟨_, List.getElem?_eq_getElem hlt⟩
    have hbefore := h.todo li buf (Nat.le_refl li) hli hbuf
    have hshow := hbefore.pushAll (Nat.zero_le _) (by omega) rows
    rw [Nat.sub_eq_zero_of_le hmax, Nat.max_self] at hshow
    let kv' : RawRows α β :=
      { kv₀ with latent := kv₀.latent.set li (Ring.pushAll maxT posBase buf rows) }
    have hwrite : kv₀.writeRows li posBase rows = some kv' :=
      writeRows_linear h.ring_eq hbuf hbefore.length hmax
    have hget : kv'.latent[li]? = some (Ring.pushAll maxT posBase buf rows) :=
      List.getElem?_set_self hlt
    have hlo : spanLo window posBase = 0 := if_neg hw
    obtain ⟨raw, hraw, hmap⟩ := extendRows_linear hshow
      (show spanLo window posBase < posBase + rows.length by omega) (Nat.le_refl _)
    refine ⟨kv', raw, ?_, hmap, h.ring_eq, ?_, ?_, ?_⟩
    · simp only [rawAttention, hfor₀, hwrite, RawRows.extendLatentRows, hget]
      rw [show kv'.ring = 0 from h.ring_eq, hraw]
      rfl
    · exact ⟨(List.length_set).trans h.shaped.latent_length, h.shaped.kRot_length,
        fun hc => absurd h.ring_eq hc, fun hc => absurd h.ring_eq hc⟩
    · intro j b hj hb
      by_cases he : j = li
      · subst he
        rw [hget, Option.some.injEq] at hb
        rw [← hb, Function.update_self]
        exact hshow
      · rw [Function.update_of_ne he]
        have hb' : kv₀.latent[j]? = some b := by
          rw [← hb]
          exact (List.getElem?_set_ne (fun e => he e.symm)).symm
        exact h.done j b (by omega) hb'
    · intro j b hj hjl hb
      rw [Function.update_of_ne (by omega)]
      have hb' : kv₀.latent[j]? = some b := by
        rw [← hb]
        exact (List.getElem?_set_ne (by omega)).symm
      exact h.todo j b (by omega) hjl hb'

end

/-- Leaving a call. -/
theorem RawCall.finish {window : Int} {layers nRows posBase : Nat} (hs : 0 < s)
    (hl : 0 < layers) {m : Nat → Nat → Option α}
    (h : RawCall window layers nRows maxT posBase s layers kv m) :
    RawState window layers nRows maxT (posBase + s) kv m := by
  unfold RawCall at h
  unfold RawState
  split
  next hw =>
    rw [if_pos hw] at h
    exact h.settled hs hl
  next hw =>
    rw [if_neg hw] at h
    exact ⟨h.ring_eq, h.shaped, fun j _ hj => absurd hj (Nat.not_lt_zero j),
      fun j buf _ hj hbuf => h.done j buf hj hbuf⟩

end Colibri.Dsv4
