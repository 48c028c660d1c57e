import Colibri.Lib.Ring
import Colibri.Lib.Vectors

/-!
# The raw rows of the KV cache

Every layer keeps one raw latent row per position, plus a roped-key row beside
it. DeepSeek-V4 turns the buffers into a ring: a query reaches back only
`window` positions, so older rows are dead. `dsv4_ring_for` widens the ring to
the span of the call before any of its rows is written, the writes go to
`p % ring`, and the reads come back as one run or two.

`RawRows` is the part of `KvCache` those functions touch. Indexing panics are
`none`, and so are the assertion of `extend_rows` and the debug assertion of
`ring_ensure`.

The spec lemmas:

* `ringEnsure_shows`: what every layer showed before a resize it shows after;
* `writeRows_shows`: a batch written to one layer;
* `extendRows_shows`: a span read back.

Rows are opaque here; `default` is the zero row a fresh buffer holds.
-/

namespace Colibri.Kv

open Colibri.Ring (Shows rowsIn writeAll)
open Vectors (mapM_spec)

variable {α β : Type}

/-- The raw-row fields of `KvCache`: per-layer latent and roped-key buffers, the
ring width (0 is "no ring") and one past the highest position written. -/
structure RawRows (α β : Type) where
  ring : Nat
  ringHi : Nat
  latent : List (List α)
  kRot : List (List β)

/-- Physical row of an absolute position; `ring = 0` means the position indexes
itself. -/
def ringSlot (pos ring : Nat) : Nat := if ring = 0 then pos else pos % ring

/-- One zeroed buffer per layer row. -/
def lazyZeros {γ : Type} [Inhabited γ] (nRows len : Nat) : List (List γ) :=
  List.replicate nRows (List.replicate len default)

/-- A fresh cache: linear, `maxT` rows a layer. -/
def RawRows.new [Inhabited α] [Inhabited β] (nRows maxT : Nat) : RawRows α β :=
  ⟨0, 0, lazyZeros nRows maxT, lazyZeros nRows maxT⟩

namespace RawRows

/-- `ring_ensure`: make the ring at least `rows` wide. Both widths of the copy
are positive there, so `ring_slot` is the remainder. -/
def ringEnsure [Inhabited α] [Inhabited β] (kv : RawRows α β) (rows : Nat) :
    Option (RawRows α β) :=
  if rows = 0 ∨ rows ≤ kv.ring then some kv
  else if kv.ring = 0 then
    -- the debug assertion: the ring is sized before the first write
    if kv.ringHi = 0 then
      some { kv with
        ring := rows
        latent := lazyZeros kv.latent.length rows
        kRot := lazyZeros kv.latent.length rows }
    else none
  else
    let lo := kv.ringHi - kv.ring
    match kv.latent.mapM (fun buf => Ring.carry kv.ring rows buf lo (kv.ringHi - lo)
        (List.replicate rows default)) with
    | none => none
    | some latent =>
      match kv.kRot.mapM (fun buf => Ring.carry kv.ring rows buf lo (kv.ringHi - lo)
          (List.replicate rows default)) with
      | none => none
      | some kRot => some { kv with ring := rows, latent := latent, kRot := kRot }

/-- `ring_touch`: record that `pos` now holds live data. -/
def ringTouch (kv : RawRows α β) (pos : Nat) : RawRows α β :=
  if kv.ring ≠ 0 ∧ pos + 1 > kv.ringHi then { kv with ringHi := pos + 1 } else kv

/-- `latent_row_mut(layer, pos).copy_from_slice(row)`. -/
def setLatentRow (kv : RawRows α β) (layer pos : Nat) (row : α) : Option (RawRows α β) :=
  let kv := kv.ringTouch pos
  match kv.latent[layer]? with
  | none => none
  | some buf =>
    let p := ringSlot pos kv.ring
    if p < buf.length then some { kv with latent := kv.latent.set layer (buf.set p row) }
    else none

/-- The writes of one layer's batch, at `pos`, `pos + 1`, and so on. -/
def writeRows (kv : RawRows α β) (layer : Nat) : Nat → List α → Option (RawRows α β)
  | _, [] => some kv
  | pos, row :: rows =>
    match kv.setLatentRow layer pos row with
    | none => none
    | some kv => writeRows kv layer (pos + 1) rows

/-- `extend_rows`: the rows of `start..stop`, one run from the first slot and a
second from slot zero if the span wraps. -/
def extendRows (buf : List α) (ring start stop : Nat) : Option (List α) :=
  if ring = 0 then
    if start ≤ stop ∧ stop ≤ buf.length then some ((buf.drop start).take (stop - start)) else none
  else if stop < start ∨ ring < stop - start then none
  else
    let lo := ringSlot start ring
    let n := stop - start
    let head := min n (ring - lo)
    if lo + head ≤ buf.length ∧ n - head ≤ buf.length then
      some ((buf.drop lo).take head ++ buf.take (n - head))
    else none

/-- `extend_latent_rows` into an empty vector. -/
def extendLatentRows (kv : RawRows α β) (layer start stop : Nat) : Option (List α) :=
  match kv.latent[layer]? with
  | none => none
  | some buf => extendRows buf kv.ring start stop

/-! ## Shapes

Every buffer of a ringed cache has as many slots as the ring. -/

/-- The buffers of a cache with `nRows` layer rows, ringed or not. -/
structure Shaped (kv : RawRows α β) (nRows : Nat) : Prop where
  latent_length : kv.latent.length = nRows
  kRot_length : kv.kRot.length = nRows
  latent_width : kv.ring ≠ 0 → ∀ buf ∈ kv.latent, buf.length = kv.ring
  kRot_width : kv.ring ≠ 0 → ∀ buf ∈ kv.kRot, buf.length = kv.ring

theorem new_shaped [Inhabited α] [Inhabited β] (nRows maxT : Nat) :
    (RawRows.new nRows maxT : RawRows α β).Shaped nRows where
  latent_length := List.length_replicate
  kRot_length := List.length_replicate
  latent_width := fun h => absurd rfl h
  kRot_width := fun h => absurd rfl h

private theorem lazyZeros_width {γ : Type} [Inhabited γ] {nRows len : Nat} {buf : List γ}
    (h : buf ∈ lazyZeros nRows len) : buf.length = len := by
  rw [List.eq_of_mem_replicate h, List.length_replicate]

/-! ## Resizing -/

/-- The cache after a resize: as wide as asked, still shaped, and every layer
shows the span `lo..hi` it showed before. The span must start no lower than
what the old ring can hold. -/
structure Resized (kv kv' : RawRows α β) (nRows rows lo : Nat) : Prop where
  ring_eq : kv'.ring = max kv.ring rows
  ringHi_eq : kv'.ringHi = kv.ringHi
  shaped : kv'.Shaped nRows
  shows : ∀ (li : Nat) (buf' : List α), kv'.latent[li]? = some buf' → ∀ m : Nat → Option α,
    (∀ buf : List α, kv.latent[li]? = some buf → kv.ring ≠ 0 →
      Shows kv.ring lo kv.ringHi buf m) →
    Shows kv'.ring lo kv.ringHi buf' m

/-- The first call makes the ring of a cache that has none. -/
theorem ringEnsure_first [Inhabited α] [Inhabited β] {kv : RawRows α β} {nRows rows lo : Nat}
    (hkv : kv.Shaped nRows) (hring : kv.ring = 0) (hhi : kv.ringHi = 0) (hlo : lo = 0)
    (hrows : 0 < rows) :
    ∃ kv', kv.ringEnsure rows = some kv' ∧ Resized kv kv' nRows rows lo := by
  refine ⟨{ kv with
      ring := rows
      latent := lazyZeros kv.latent.length rows
      kRot := lazyZeros kv.latent.length rows }, ?_, ?_⟩
  · rw [ringEnsure, if_neg (by omega), if_pos hring, if_pos hhi]
  · refine ⟨?_, rfl, ⟨?_, ?_, ?_, ?_⟩, ?_⟩
    · show rows = max kv.ring rows
      omega
    · rw [← hkv.latent_length]
      exact List.length_replicate
    · rw [← hkv.latent_length]
      exact List.length_replicate
    · exact fun _ buf hbuf => lazyZeros_width hbuf
    · exact fun _ buf hbuf => lazyZeros_width hbuf
    · intro li buf' hbuf' m _
      have hlen := lazyZeros_width (List.mem_of_getElem? hbuf')
      rw [hhi, hlo]
      exact Shows.empty m hlen

/-- **Resizing keeps what every layer shows.** -/
theorem ringEnsure_shows [Inhabited α] [Inhabited β] {kv : RawRows α β} {nRows rows lo : Nat}
    (hkv : kv.Shaped nRows) (hring : kv.ring ≠ 0) (hlo : kv.ringHi - kv.ring ≤ lo)
    (hle : lo ≤ kv.ringHi) :
    ∃ kv', kv.ringEnsure rows = some kv' ∧ Resized kv kv' nRows rows lo := by
  by_cases hsmall : rows = 0 ∨ rows ≤ kv.ring
  · refine ⟨kv, by rw [ringEnsure, if_pos hsmall], by omega, rfl, hkv, ?_⟩
    intro li buf' hbuf' m hm
    exact hm buf' hbuf' hring
  · -- one layer, its rows shown or not: the copy succeeds on any shaped buffer
    have hcopy : ∀ {γ : Type} [Inhabited γ] (buf : List γ), buf.length = kv.ring →
        ∃ out, Ring.carry kv.ring rows buf (kv.ringHi - kv.ring)
            (kv.ringHi - (kv.ringHi - kv.ring)) (List.replicate rows default) = some out ∧
          (out.length = rows ∧ ∀ m, Shows kv.ring lo kv.ringHi buf m →
            Shows rows lo kv.ringHi out m) := by
      intro γ _ buf hbuf
      have hself : Shows kv.ring lo kv.ringHi buf (fun p => buf[p % kv.ring]?) :=
        ⟨hbuf, by omega, fun _ _ _ => rfl⟩
      obtain ⟨out, hout, hshow⟩ := hself.carry rows hlo hle (by omega) (by omega) default
      refine ⟨out, hout, hshow.length, fun m hm => hshow.congr (fun p hp hp' => ?_)⟩
      exact (hm.row p hp hp').symm
    have hlatent := mapM_spec
      (P := fun li out => out.length = rows ∧ ∀ m,
        (∀ buf, kv.latent[li]? = some buf → kv.ring ≠ 0 → Shows kv.ring lo kv.ringHi buf m) →
        Shows rows lo kv.ringHi out m)
      (fun li buf hbuf => by
        obtain ⟨out, hout, hlen, hshow⟩ :=
          hcopy buf (hkv.latent_width hring buf (List.mem_of_getElem? hbuf))
        exact ⟨out, hout, hlen, fun m hm => hshow m (hm buf hbuf hring)⟩)
    have hkrot := mapM_spec (P := fun _ (out : List β) => out.length = rows)
      (fun li buf hbuf => by
        obtain ⟨out, hout, hlen, _⟩ :=
          hcopy buf (hkv.kRot_width hring buf (List.mem_of_getElem? hbuf))
        exact ⟨out, hout, hlen⟩)
    obtain ⟨latent, hl, hllen, hlall⟩ := hlatent
    obtain ⟨kRot, hk, hklen, hkall⟩ := hkrot
    refine ⟨{ kv with ring := rows, latent := latent, kRot := kRot }, ?_, ?_⟩
    · rw [ringEnsure, if_neg hsmall, if_neg hring]
      simp only [hl, hk]
    · refine ⟨?_, rfl, ⟨?_, ?_, ?_, ?_⟩, ?_⟩
      · show rows = max kv.ring rows
        omega
      · exact hllen.trans hkv.latent_length
      · exact hklen.trans hkv.kRot_length
      · intro _ buf hbuf
        obtain ⟨i, hi⟩ := List.mem_iff_getElem?.mp hbuf
        exact (hlall i buf hi).1
      · intro _ buf hbuf
        obtain ⟨i, hi⟩ := List.mem_iff_getElem?.mp hbuf
        exact hkall i buf hi
      · intro li buf' hbuf' m hm
        exact (hlall li buf' hbuf').2 m hm

/-! ## Writing -/

/-- Positions written in order raise the high-water mark to the end of the
batch. -/
def touched (ringHi pos n : Nat) : Nat := if n = 0 then ringHi else max ringHi (pos + n)

/-- One layer's batch on a ringed cache: the layer's buffer takes the rows, the
other layers are untouched. -/
theorem writeRows_spec {kv : RawRows α β} {layer pos : Nat} {buf : List α} {rows : List α}
    (hring : kv.ring ≠ 0) (hbuf : kv.latent[layer]? = some buf) (hwidth : buf.length = kv.ring) :
    kv.writeRows layer pos rows = some
      { kv with
        ringHi := touched kv.ringHi pos rows.length
        latent := kv.latent.set layer (Ring.pushAll kv.ring pos buf rows) } := by
  induction rows generalizing kv pos buf with
  | nil =>
    obtain ⟨hlt, hget⟩ := List.getElem?_eq_some_iff.mp hbuf
    rw [writeRows, Ring.pushAll, ← hget, List.set_getElem_self]
    rfl
  | cons row rows ih =>
    have hslot : pos % kv.ring < buf.length := by
      rw [hwidth]
      exact Nat.mod_lt pos (Nat.pos_of_ne_zero hring)
    have hlayer : layer < kv.latent.length := (List.getElem?_eq_some_iff.mp hbuf).1
    have htouch : kv.ringTouch pos = { kv with ringHi := max kv.ringHi (pos + 1) } := by
      by_cases h : pos + 1 > kv.ringHi
      · rw [ringTouch, if_pos ⟨hring, h⟩, Nat.max_eq_right (Nat.le_of_lt h)]
      · rw [ringTouch, if_neg (fun hc => h hc.2), Nat.max_eq_left (Nat.le_of_not_gt h)]
    have hset : kv.setLatentRow layer pos row = some
        { kv with
          ringHi := max kv.ringHi (pos + 1)
          latent := kv.latent.set layer (buf.set (pos % kv.ring) row) } := by
      rw [setLatentRow, htouch]
      simp only [hbuf, ringSlot, if_neg hring, hslot, if_true]
    rw [writeRows, hset]
    dsimp only
    let next : RawRows α β := { kv with
      ringHi := max kv.ringHi (pos + 1)
      latent := kv.latent.set layer (buf.set (pos % kv.ring) row) }
    have hget : next.latent[layer]? = some (buf.set (pos % kv.ring) row) :=
      List.getElem?_set_self hlayer
    rw [ih (show next.ring ≠ 0 from hring) hget ((List.length_set).trans hwidth)]
    dsimp only [next]
    have hhi : touched (max kv.ringHi (pos + 1)) (pos + 1) rows.length
        = touched kv.ringHi pos (row :: rows).length := by
      unfold touched
      rw [List.length_cons]
      split <;> split <;> omega
    rw [List.set_set, hhi]
    rfl

/-! ## Reading -/

/-- A span a ringed buffer shows is read back without a panic. -/
theorem extendRows_shows {ring lo hi start stop : Nat} {buf : List α} {m : Nat → Option α}
    (h : Shows ring lo hi buf m) (hring : ring ≠ 0) (hlo : lo ≤ start) (hle : start ≤ stop)
    (hhi : stop ≤ hi) (hspan : stop - start ≤ ring) :
    ∃ out, extendRows buf ring start stop = some out ∧ out.map some = rowsIn m start stop := by
  have hslot : start % ring < ring := Nat.mod_lt start (Nat.pos_of_ne_zero hring)
  refine ⟨_, ?_, h.read hlo hhi hspan⟩
  rw [extendRows, if_neg hring, if_neg (by omega)]
  simp only [ringSlot, if_neg hring]
  rw [if_pos]
  rw [h.length]
  omega

end RawRows

end Colibri.Kv
