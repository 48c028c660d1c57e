import Colibri.Kv.RawRows

/-!
# The raw span of a V4 call, and the ring sized to it

A DeepSeek-V4 attention call at `posBase` with `s` tokens reads the raw rows
`rawLo..total`. One function computes the span (`dsv4RawSpan`), and
`dsv4RingFor` widens the ring to it before the layer writes; the layer then
writes `posBase..total` and reads the span back.

The layers of a call run one after another over one shared ring width and
high-water mark, and only the first of them can resize it. So the state inside
a call is not uniform: layers below the current one already hold the batch, the
others do not (`InCall`). Between calls all layers agree (`Settled`).

The result is about a whole run: a run of consecutive calls never panics,
reads exactly what an unbounded linear cache would hold, and keeps the ring no
wider than the widest span it read. What carries it is that the rows below
`posBase` a call reads were all kept: the ring is at least
`min (window - 1) posBase` wide, because the previous call's span was
(`rawLo_le_next`).

`rawAttention_inCall` is the step over one layer and `rawLayers_inCall` the call, by induction on
the layers left; `InCall.settled` leaves it. `rawRun_settled` is the run, and `rawRun_refines` the
result on a fresh cache.
-/

namespace Colibri.Dsv4

open Colibri.Kv (RawRows)
open Colibri.Kv.RawRows (touched)
open Colibri.Ring (Shows rowsIn writeAll)

variable {α β : Type}

/-! ## One layer of one call -/

/-- `dsv4_raw_span`: `(rawLo, total, win)` of a call at `posBase` with `s`
tokens. `window ≤ 0` means no sliding window. -/
def dsv4RawSpan (posBase s : Nat) (window : Int) : Nat × Nat × Nat :=
  let total := posBase + s
  let win := if window > 0 then window.toNat else total
  ((posBase + 1) - min win (posBase + 1), total, win)

/-- `dsv4_ring_for`: the span, with the ring widened to hold it. -/
def dsv4RingFor [Inhabited α] [Inhabited β] (kv : RawRows α β) (posBase s : Nat) (window : Int) :
    Option (RawRows α β × Nat × Nat × Nat) :=
  let (rawLo, total, win) := dsv4RawSpan posBase s window
  if window > 0 then
    match kv.ringEnsure (total - rawLo) with
    | none => none
    | some kv => some (kv, rawLo, total, win)
  else some (kv, rawLo, total, win)

/-- The raw-row steps of `dsv4_attention` on one layer: size the ring, write the
batch, read the span back. -/
def rawAttention [Inhabited α] [Inhabited β] (kv : RawRows α β) (window : Int) (li posBase : Nat)
    (rows : List α) : Option (RawRows α β × List α) :=
  match dsv4RingFor kv posBase rows.length window with
  | none => none
  | some (kv, rawLo, total, _) =>
    match kv.writeRows li posBase rows with
    | none => none
    | some kv => (kv.extendLatentRows li rawLo total).map (fun raw => (kv, raw))

/-- The layers of a call, from `li` on, each with its batch of rows. -/
def rawLayers [Inhabited α] [Inhabited β] (window : Int) (posBase : Nat) :
    Nat → RawRows α β → List (List α) → Option (RawRows α β × List (List α))
  | _, kv, [] => some (kv, [])
  | li, kv, rows :: rest =>
    match rawAttention kv window li posBase rows with
    | none => none
    | some (kv, raw) =>
      (rawLayers window posBase (li + 1) kv rest).map (fun r => (r.1, raw :: r.2))

/-- A forward call's raw rows: `s ≥ 1` of them for each layer. -/
structure Batch (α : Type) (layers : Nat) where
  s : Nat
  s_pos : 0 < s
  rows : List (List α)
  rows_length : rows.length = layers
  row_length : ∀ r ∈ rows, r.length = s

/-- Consecutive calls from `posBase` on, with what each layer of each call
read. -/
def rawRun [Inhabited α] [Inhabited β] {layers : Nat} (window : Int) :
    Nat → RawRows α β → List (Batch α layers) → Option (RawRows α β × List (List (List α)))
  | _, kv, [] => some (kv, [])
  | posBase, kv, b :: bs =>
    match rawLayers window posBase 0 kv b.rows with
    | none => none
    | some (kv, raws) => (rawRun window (posBase + b.s) kv bs).map (fun r => (r.1, raws :: r.2))

/-! ## The linear cache

The same calls on a cache that keeps every row at its absolute position, layer
by layer. -/

/-- The layers of a call on the linear cache, and what they read. -/
def linearLayers (window : Int) (posBase : Nat) :
    Nat → (Nat → Nat → Option α) → List (List α) →
      (Nat → Nat → Option α) × List (List (Option α))
  | _, m, [] => (m, [])
  | li, m, rows :: rest =>
    let m' := Function.update m li (writeAll posBase (m li) rows)
    let (rawLo, total, _) := dsv4RawSpan posBase rows.length window
    let r := linearLayers window posBase (li + 1) m' rest
    (r.1, rowsIn (m' li) rawLo total :: r.2)

/-- The run on the linear cache. -/
def linearRun {layers : Nat} (window : Int) :
    Nat → (Nat → Nat → Option α) → List (Batch α layers) → List (List (List (Option α)))
  | _, _, [] => []
  | posBase, m, b :: bs =>
    let r := linearLayers window posBase 0 m b.rows
    r.2 :: linearRun window (posBase + b.s) r.1 bs

/-! ## The span -/

/-- The first raw position a call at `posBase` reads; it does not depend on the
call's length. -/
def rawLo (window : Int) (posBase : Nat) : Nat := (posBase + 1) - min window.toNat (posBase + 1)

variable {window : Int} {posBase s layers nRows : Nat} {kv : RawRows α β} {m : Nat → Nat → Option α}

theorem dsv4RawSpan_eq (hw : 0 < window) (posBase s : Nat) :
    dsv4RawSpan posBase s window = (rawLo window posBase, posBase + s, window.toNat) := by
  simp only [dsv4RawSpan, rawLo, gt_iff_lt, hw, if_true]

theorem rawLo_le (hw : 0 < window) (posBase : Nat) :
    rawLo window posBase ≤ posBase := by
  unfold rawLo
  omega

theorem rawLo_mono (window : Int) {p q : Nat} (h : p ≤ q) : rawLo window p ≤ rawLo window q := by
  unfold rawLo
  omega

/-- A ring as wide as one call's span still holds, after the call, everything
the next call reads. -/
theorem rawLo_le_next {ring : Nat} (hs : 0 < s)
    (h : posBase + s - rawLo window posBase ≤ ring) :
    posBase + s - ring ≤ rawLo window (posBase + s) := by
  unfold rawLo at h ⊢
  omega

/-- The widest span of the calls. -/
def widestSpan {layers : Nat} (window : Int) : Nat → List (Batch α layers) → Nat
  | _, [] => 0
  | posBase, b :: bs =>
    max (posBase + b.s - rawLo window posBase) (widestSpan window (posBase + b.s) bs)

/-- The longest batch. -/
def longestBatch {layers : Nat} (bs : List (Batch α layers)) : Nat :=
  (bs.map Batch.s).foldr max 0

theorem widestSpan_le (hw : 0 < window) (posBase : Nat)
    (bs : List (Batch α layers)) :
    widestSpan window posBase bs ≤ window.toNat + longestBatch bs - 1 := by
  induction bs generalizing posBase with
  | nil => exact Nat.zero_le _
  | cons b bs ih =>
    have h := ih (posBase + b.s)
    have hl : longestBatch (b :: bs) = max b.s (longestBatch bs) := rfl
    have hs : posBase + b.s - rawLo window posBase ≤ window.toNat + b.s - 1 := by
      have := b.s_pos
      unfold rawLo
      omega
    rw [widestSpan, hl]
    omega

/-! ## Inside a call -/

/-- Layers below `li` hold the batch `posBase..posBase + s`, the layers from `li`
on do not yet; the ring is already wide enough for the call. -/
structure InCall (window : Int) (layers nRows posBase s li : Nat) (kv : RawRows α β)
    (m : Nat → Nat → Option α) : Prop where
  ring_pos : 0 < kv.ring
  wide : posBase + s - rawLo window posBase ≤ kv.ring
  shaped : kv.Shaped nRows
  ringHi_eq : kv.ringHi = if li = 0 then posBase else posBase + s
  done : ∀ (j : Nat) (buf : List α), j < li → kv.latent[j]? = some buf →
    Shows kv.ring (rawLo window posBase) (posBase + s) buf (m j)
  todo : ∀ (j : Nat) (buf : List α), li ≤ j → j < layers → kv.latent[j]? = some buf →
    Shows kv.ring (rawLo window posBase) posBase buf (m j)

/-- Inside a call the ring is not resized again. -/
theorem dsv4RingFor_inCall [Inhabited α] [Inhabited β] (hw : 0 < window)
    {li : Nat}
    (h : InCall window layers nRows posBase s li kv m) :
    dsv4RingFor kv posBase s window
      = some (kv, rawLo window posBase, posBase + s, window.toNat) := by
  have hens : kv.ringEnsure (posBase + s - rawLo window posBase) = some kv := by
    rw [RawRows.ringEnsure, if_pos (Or.inr h.wide)]
  simp only [dsv4RingFor, dsv4RawSpan_eq hw, gt_iff_lt, hw, if_true, hens]

/-- **One layer**: it writes its batch and reads back what the linear cache
holds. -/
theorem rawAttention_inCall [Inhabited α] [Inhabited β] (hw : 0 < window)
    {li : Nat}
    {rows : List α} (hs : 0 < rows.length) (hli : li < layers) (hn : layers ≤ nRows)
    (h : InCall window layers nRows posBase rows.length li kv m) :
    ∃ kv' raw, rawAttention kv window li posBase rows = some (kv', raw) ∧
      raw.map some = rowsIn (writeAll posBase (m li) rows) (rawLo window posBase)
        (posBase + rows.length) ∧
      kv'.ring = kv.ring ∧
      InCall window layers nRows posBase rows.length (li + 1) kv'
        (Function.update m li (writeAll posBase (m li) rows)) := by
  have hring : kv.ring ≠ 0 := Nat.pos_iff_ne_zero.mp h.ring_pos
  have hlt : li < kv.latent.length := by
    rw [h.shaped.latent_length]
    omega
  obtain ⟨buf, hbuf⟩ : ∃ buf, kv.latent[li]? = some buf := ⟨_, List.getElem?_eq_getElem hlt⟩
  have hwidth := h.shaped.latent_width hring buf (List.mem_of_getElem? hbuf)
  have hlo := rawLo_le hw posBase
  have hshow := (h.todo li buf (Nat.le_refl li) hli hbuf).pushAll hlo h.ring_pos rows
  rw [Nat.max_eq_left (by have := h.wide; omega)] at hshow
  -- the state after the writes, written out so that its fields compute
  let kv' : RawRows α β := { kv with
    ringHi := touched kv.ringHi posBase rows.length
    latent := kv.latent.set li (Ring.pushAll kv.ring posBase buf rows) }
  have hwrite : kv.writeRows li posBase rows = some kv' :=
    RawRows.writeRows_spec hring hbuf hwidth
  have hget : kv'.latent[li]? = some (Ring.pushAll kv.ring posBase buf rows) :=
    List.getElem?_set_self hlt
  obtain ⟨raw, hraw, hmap⟩ := RawRows.extendRows_shows hshow hring (Nat.le_refl _) (by omega)
    (Nat.le_refl _) h.wide
  refine ⟨kv', raw, ?_, hmap, rfl, ⟨h.ring_pos, h.wide, ?_, ?_, ?_, ?_⟩⟩
  · simp only [rawAttention, dsv4RingFor_inCall hw h, hwrite, RawRows.extendLatentRows, hget]
    rw [show kv'.ring = kv.ring from rfl, hraw]
    rfl
  · refine ⟨?_, h.shaped.kRot_length, ?_, h.shaped.kRot_width⟩
    · exact (List.length_set).trans h.shaped.latent_length
    · intro _ b hb
      rcases List.mem_or_eq_of_mem_set hb with hb | rfl
      · exact h.shaped.latent_width hring b hb
      · rw [Ring.pushAll_length]
        exact hwidth
  · show touched kv.ringHi posBase rows.length = _
    rw [if_neg (Nat.succ_ne_zero li), touched, if_neg (by omega), h.ringHi_eq]
    split <;> omega
  · intro j b hj hb
    by_cases he : j = li
    · subst he
      rw [hget, Option.some.injEq] at hb
      rw [← hb, Function.update_self]
      exact hshow
    · rw [Function.update_of_ne he]
      have hb' : kv.latent[j]? = some b := by
        rw [← hb]
        exact (List.getElem?_set_ne (fun e => he e.symm)).symm
      exact h.done j b (by omega) hb'
  · intro j b hj hjl hb
    rw [Function.update_of_ne (by omega)]
    have hb' : kv.latent[j]? = some b := by
      rw [← hb]
      exact (List.getElem?_set_ne (by omega)).symm
    exact h.todo j b (by omega) hjl hb'

/-- **The layers of a call**, by induction on the layers left. -/
theorem rawLayers_inCall [Inhabited α] [Inhabited β] (hw : 0 < window)
    (hs : 0 < s) (hn : layers ≤ nRows) (rest : List (List α))
    {li : Nat} (hlen : li + rest.length = layers)
    (hrows : ∀ r ∈ rest, r.length = s) (h : InCall window layers nRows posBase s li kv m) :
    ∃ kv' raws, rawLayers window posBase li kv rest = some (kv', raws) ∧
      raws.map (List.map some) = (linearLayers window posBase li m rest).2 ∧
      kv'.ring = kv.ring ∧
      InCall window layers nRows posBase s layers kv'
        (linearLayers window posBase li m rest).1 := by
  induction rest generalizing li kv m with
  | nil =>
    rw [List.length_nil, Nat.add_zero] at hlen
    subst hlen
    exact ⟨kv, [], rfl, rfl, rfl, h⟩
  | cons rows rest ih =>
    rw [List.length_cons] at hlen
    have hr : rows.length = s := hrows rows List.mem_cons_self
    subst hr
    obtain ⟨kv₁, raw, hatt, hraw, hring₁, hin⟩ :=
      rawAttention_inCall hw hs (by omega) hn h
    obtain ⟨kv', raws, hrun, hraws, hring, hfin⟩ :=
      ih (by omega) (fun r hr => hrows r (List.mem_cons_of_mem _ hr)) hin
    refine ⟨kv', raw :: raws, ?_, ?_, hring.trans hring₁, ?_⟩
    · simp only [rawLayers, hatt, hrun, Option.map_some]
    · rw [List.map_cons, hraw, hraws]
      simp only [linearLayers, dsv4RawSpan_eq hw, Function.update_self]
    · simp only [linearLayers]
      exact hfin

/-! ## Between calls -/

/-- Between calls every layer shows what the next call reads; before the first
call the cache is untouched. -/
structure Settled (window : Int) (layers nRows posBase : Nat) (kv : RawRows α β)
    (m : Nat → Nat → Option α) : Prop where
  shaped : kv.Shaped nRows
  unringed : kv.ring = 0 → posBase = 0 ∧ kv.ringHi = 0
  ringHi_eq : kv.ring ≠ 0 → kv.ringHi = posBase
  kept : kv.ring ≠ 0 → posBase - kv.ring ≤ rawLo window posBase
  shows : ∀ (j : Nat) (buf : List α), j < layers → kv.latent[j]? = some buf → kv.ring ≠ 0 →
    Shows kv.ring (rawLo window posBase) posBase buf (m j)

theorem settled_new [Inhabited α] [Inhabited β] (window : Int) (layers nRows maxT : Nat)
    (m : Nat → Nat → Option α) :
    Settled window layers nRows 0 (RawRows.new nRows maxT : RawRows α β) m where
  shaped := RawRows.new_shaped nRows maxT
  unringed := fun _ => ⟨rfl, rfl⟩
  ringHi_eq := fun h => absurd rfl h
  kept := fun h => absurd rfl h
  shows := fun _ _ _ _ h => absurd rfl h

/-- The first layer of a call sizes the ring; what the layers showed survives. -/
theorem dsv4RingFor_settled [Inhabited α] [Inhabited β] (hw : 0 < window)
    (hs : 0 < s)
    (h : Settled window layers nRows posBase kv m) :
    ∃ kv', dsv4RingFor kv posBase s window
        = some (kv', rawLo window posBase, posBase + s, window.toNat) ∧
      kv'.ring = max kv.ring (posBase + s - rawLo window posBase) ∧
      InCall window layers nRows posBase s 0 kv' m := by
  have hlo := rawLo_le hw posBase
  obtain ⟨kv', hens, hres⟩ : ∃ kv', kv.ringEnsure (posBase + s - rawLo window posBase) = some kv' ∧
      RawRows.Resized kv kv' nRows (posBase + s - rawLo window posBase) (rawLo window posBase) := by
    by_cases hring : kv.ring = 0
    · obtain ⟨hzero, hhi⟩ := h.unringed hring
      exact RawRows.ringEnsure_first h.shaped hring hhi (by omega) (by omega)
    · have hhi := h.ringHi_eq hring
      have hkept := h.kept hring
      exact RawRows.ringEnsure_shows h.shaped hring (by rw [hhi]; exact hkept) (by omega)
  have hhi : kv.ringHi = posBase := by
    by_cases hring : kv.ring = 0
    · rw [(h.unringed hring).1, (h.unringed hring).2]
    · exact h.ringHi_eq hring
  have hreq := hres.ring_eq
  refine ⟨kv', ?_, hreq, ⟨by omega, by omega, hres.shaped, ?_, ?_, ?_⟩⟩
  · simp only [dsv4RingFor, dsv4RawSpan_eq hw, gt_iff_lt, hw, if_true, hens]
  · rw [if_pos rfl, hres.ringHi_eq, hhi]
  · exact fun j _ hj => absurd hj (Nat.not_lt_zero j)
  · intro j buf' _ hj hbuf'
    have := hres.shows j buf' hbuf' (m j)
      (fun buf hbuf hring => by
        rw [hhi]
        exact h.shows j buf hj hbuf hring)
    rw [hhi] at this
    exact this

/-- The end of a call settles the cache for the next one. -/
theorem InCall.settled (hs : 0 < s)
    (hl : 0 < layers)
    (h : InCall window layers nRows posBase s layers kv m) :
    Settled window layers nRows (posBase + s) kv m where
  shaped := h.shaped
  unringed := fun hz => absurd hz (Nat.pos_iff_ne_zero.mp h.ring_pos)
  ringHi_eq := fun _ => by rw [h.ringHi_eq, if_neg (Nat.pos_iff_ne_zero.mp hl)]
  kept := fun _ => rawLo_le_next hs h.wide
  shows := fun j buf hj hbuf _ =>
    (h.done j buf hj hbuf).weaken (rawLo_mono window (Nat.le_add_right posBase s))

/-- The run of calls on a model with at least one layer, from any settled
cache. -/
theorem rawRun_settled [Inhabited α] [Inhabited β] (hw : 0 < window)
    (hl : 0 < layers) (hn : layers ≤ nRows) (bs : List (Batch α layers))
    (h : Settled window layers nRows posBase kv m) :
    ∃ kv' reads, rawRun window posBase kv bs = some (kv', reads) ∧
      reads.map (List.map (List.map some)) = linearRun window posBase m bs ∧
      kv'.ring = max kv.ring (widestSpan window posBase bs) ∧ kv'.Shaped nRows := by
  induction bs generalizing posBase kv m with
  | nil => exact ⟨kv, [], rfl, rfl, (Nat.max_eq_left (Nat.zero_le _)).symm, h.shaped⟩
  | cons b bs ih =>
    obtain ⟨kv₀, hfor, hring₀, hin⟩ := dsv4RingFor_settled hw b.s_pos h
    obtain ⟨kv₁, raws, hlayers, hraws, hring₁, hend⟩ := rawLayers_inCall hw b.s_pos hn b.rows
      (by rw [Nat.zero_add, b.rows_length]) b.row_length hin
    -- the first layer's own sizing is the one the invariant was stated after
    have hfirst : rawLayers window posBase 0 kv b.rows = some (kv₁, raws) := by
      rw [← hlayers]
      have hlen := b.rows_length
      have hrow := b.row_length
      cases hb : b.rows with
      | nil =>
        rw [hb] at hlen
        exact absurd hlen (Nat.ne_of_lt hl)
      | cons rows rest =>
        rw [hb] at hrow
        have hr : rows.length = b.s := hrow rows List.mem_cons_self
        simp only [rawLayers, rawAttention, hr, hfor, dsv4RingFor_inCall hw hin]
    obtain ⟨kv', reads, hrun, hreads, hring, hsh⟩ := ih (hend.settled b.s_pos hl)
    refine ⟨kv', raws :: reads, ?_, ?_, ?_, hsh⟩
    · simp only [rawRun, hfirst, hrun, Option.map_some]
    · rw [List.map_cons, hraws, hreads]
      rfl
    · rw [hring, hring₁, hring₀, widestSpan, Nat.max_assoc]

/-- With no layers a run touches nothing. -/
theorem rawRun_no_layers [Inhabited α] [Inhabited β] (window : Int) (bs : List (Batch α 0))
    (posBase : Nat) (kv : RawRows α β) (m : Nat → Nat → Option α) :
    ∃ reads, rawRun window posBase kv bs = some (kv, reads) ∧
      reads.map (List.map (List.map some)) = linearRun window posBase m bs := by
  induction bs generalizing posBase with
  | nil => exact ⟨[], rfl, rfl⟩
  | cons b bs ih =>
    obtain ⟨reads, hrun, hreads⟩ := ih (posBase + b.s)
    have hb : b.rows = [] := List.length_eq_zero_iff.mp b.rows_length
    refine ⟨[] :: reads, ?_, ?_⟩
    · simp only [rawRun, hb, rawLayers, hrun, Option.map_some]
    · rw [List.map_cons, hreads]
      simp only [linearRun, hb, linearLayers, List.map_nil]

/-- **The ring is invisible**: consecutive calls on a fresh cache never panic,
every layer of every call reads the rows last written at those positions, and
the ring (with every buffer) holds no more rows than the widest span read, at
most `window + longest batch - 1`. -/
theorem rawRun_refines [Inhabited α] [Inhabited β] {window : Int} (hw : 1 ≤ window)
    {layers nRows : Nat} (hn : layers ≤ nRows) (maxT : Nat) (bs : List (Batch α layers)) :
    ∃ kv reads,
      rawRun window 0 (RawRows.new nRows maxT : RawRows α β) bs = some (kv, reads) ∧
      reads.map (List.map (List.map some)) = linearRun window 0 (fun _ _ => none) bs ∧
      kv.ring ≤ widestSpan window 0 bs ∧
      widestSpan window 0 bs ≤ window.toNat + longestBatch bs - 1 ∧
      (kv.ring ≠ 0 → ∀ buf ∈ kv.latent, buf.length = kv.ring) := by
  have hw' : 0 < window := hw
  rcases Nat.eq_zero_or_pos layers with hl | hl
  · subst hl
    obtain ⟨reads, hrun, hreads⟩ :=
      rawRun_no_layers window bs 0 (RawRows.new nRows maxT : RawRows α β) (fun _ _ => none)
    exact ⟨_, reads, hrun, hreads, Nat.zero_le _, widestSpan_le hw' 0 bs, fun h => absurd rfl h⟩
  · obtain ⟨kv, reads, hrun, hreads, hring, hsh⟩ := rawRun_settled hw' hl hn bs
      (settled_new window layers nRows maxT (fun _ _ => none) : Settled _ _ _ _
        (RawRows.new nRows maxT : RawRows α β) _)
    refine ⟨kv, reads, hrun, hreads, ?_, widestSpan_le hw' 0 bs, hsh.latent_width⟩
    rw [hring, show (RawRows.new nRows maxT : RawRows α β).ring = 0 from rfl, Nat.zero_max]

/-- Two layers, window 2: a batch of three, one token, then a batch of two. The
ring is resized once, and wraps. -/
theorem rawRun_refines_two_layers :
    ∃ kv reads,
      rawRun 2 0 (RawRows.new 2 8 : RawRows Nat Unit)
          [⟨3, by decide, [[1, 2, 3], [11, 12, 13]], rfl, by decide⟩,
            ⟨1, by decide, [[4], [14]], rfl, by decide⟩,
            ⟨2, by decide, [[5, 6], [15, 16]], rfl, by decide⟩] = some (kv, reads) ∧
      reads.map (List.map (List.map some)) = linearRun 2 0 (fun _ _ => none)
          [⟨3, by decide, [[1, 2, 3], [11, 12, 13]], rfl, by decide⟩,
            ⟨1, by decide, [[4], [14]], rfl, by decide⟩,
            ⟨2, by decide, [[5, 6], [15, 16]], rfl, by decide⟩] ∧
      kv.ring ≤ 3 := by
  obtain ⟨kv, reads, hrun, hreads, hring, _, _⟩ :=
    rawRun_refines (α := Nat) (β := Unit) (show (1 : Int) ≤ 2 by decide) (show 2 ≤ 2 by decide) 8
      [⟨3, by decide, [[1, 2, 3], [11, 12, 13]], rfl, by decide⟩,
        ⟨1, by decide, [[4], [14]], rfl, by decide⟩,
        ⟨2, by decide, [[5, 6], [15, 16]], rfl, by decide⟩]
  exact ⟨kv, reads, hrun, hreads, hring⟩

end Colibri.Dsv4
