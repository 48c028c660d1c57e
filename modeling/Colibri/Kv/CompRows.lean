import Colibri.Config
import Colibri.Dsv4.Compressor

/-!
# The compressed rows of the KV cache

A compressing layer keeps a buffer of compressed rows, sized once when the
first forward runs, and the Compressor's carried state. `comp_push` appends a
row and drops it without a word once the buffer is full.

`CompLayer` is one layer's share of `comp` / `comp_len` / `comp_state` (and of
their Indexer twins). What the model needs about it is one step lemma,
`CompLayer.call_holds`: after a call the layer `Holds` the finished rows of the
blocks closed so far, cut off at the buffer's capacity, and the Compressor
carries the token stream. That it is cut off, and exactly where, is `stored`.

`pushRows_spec` is the loop that pushes, `CompLayer.holds_alloc` the start of a run.
`Dsv4.Attention` takes the step lemma over to a whole attention call.
-/

namespace Colibri.Kv

open Colibri.Dsv4

variable {α X : Type}

/-- One layer's compressed rows: the buffer's size in floats, the rows pushed,
and the Compressor state (none on a layer without one). -/
structure CompLayer (α : Type) where
  size : Nat
  rows : List (List α)
  state : Option (CompressorState α)

/-- A layer without compressed rows. -/
def CompLayer.off : CompLayer α := ⟨0, [], none⟩

/-- A layer's buffer of `maxBlocks` rows of width `headDim`; the size is a
`usize` product. -/
def CompLayer.alloc [Zero α] (ratio headDim maxBlocks : Nat) : CompLayer α :=
  ⟨maxBlocks * headDim % usizeCount, [], some (CompressorState.new ratio headDim)⟩

/-- `comp_init`: buffers on the layers with a positive ratio. -/
def compInit [Zero α] (nLayers : Nat) (ratios : List Int) (headDim maxBlocks : Nat) :
    List (CompLayer α) :=
  (List.range nLayers).map (fun i =>
    let r := ratios.getD i 0
    if r > 0 then CompLayer.alloc (asUsize r) headDim maxBlocks else CompLayer.off)

/-- `icomp_init`: buffers on the layers whose ratio is `want`. -/
def icompInit [Zero α] (nLayers : Nat) (ratios : List Int) (want : Int)
    (headDim maxBlocks : Nat) : List (CompLayer α) :=
  (List.range nLayers).map (fun i =>
    if ratios.getD i 0 = want then CompLayer.alloc (asUsize want) headDim maxBlocks
    else CompLayer.off)

namespace CompLayer

/-- `comp_push` / `icomp_push`: append a row of width `d`, or drop it. -/
def push (d : Nat) (c : CompLayer α) (row : List α) : CompLayer α :=
  if (c.rows.length + 1) * d ≤ c.size then { c with rows := c.rows ++ [row] } else c

/-- The push loop: row `bi` of the call is finished (normed, roped, ...) as block
`b + bi`. -/
def pushRows (d : Nat) (finish : Nat → List α → List α) :
    Nat → List (List α) → CompLayer α → CompLayer α
  | _, [], c => c
  | b, row :: rows, c => pushRows d finish (b + 1) rows (c.push d (finish b row))

/-- How many rows of width `d` the buffer has room for. -/
def room (d : Nat) (c : CompLayer α) : Nat := c.size / d

theorem push_fits {d : Nat} (hd : 0 < d) {c : CompLayer α} (row : List α)
    (h : c.rows.length < c.room d) : c.push d row = { c with rows := c.rows ++ [row] } := by
  rw [push, if_pos ((Nat.le_div_iff_mul_le hd).mp h)]

theorem push_full {d : Nat} (hd : 0 < d) {c : CompLayer α} (row : List α)
    (h : c.room d ≤ c.rows.length) : c.push d row = c := by
  rw [push, if_neg]
  intro hle
  have := (Nat.le_div_iff_mul_le hd).mpr hle
  unfold room at h
  omega

/-- The number of rows stored once `n` blocks have closed. -/
def stored (room n : Nat) : Nat := min n room

/-- Pushing the blocks `n..n + m` on top of those stored: what is dropped is the
tail, so block numbers stay right for every row kept. -/
theorem pushRows_spec {d : Nat} (hd : 0 < d) {f : Nat → List α → List α}
    {g : Nat → List α} (m : Nat) {n b : Nat} {c : CompLayer α}
    (hrows : c.rows = (List.range (stored (c.room d) n)).map (fun t => f t (g t)))
    (hb : n < c.room d → b = n) :
    pushRows d f b ((List.range' n m).map g) c = { c with
      rows := (List.range (stored (c.room d) (n + m))).map (fun t => f t (g t)) } := by
  induction m generalizing n b c with
  | zero => rw [Nat.add_zero, ← hrows]; rfl
  | succ m ih =>
    have hlen : c.rows.length = stored (c.room d) n := by
      rw [hrows, List.length_map, List.length_range]
    rw [List.range'_succ, List.map_cons, pushRows]
    by_cases hfull : n < c.room d
    · have hbn := hb hfull
      subst hbn
      have hst : stored (c.room d) b = b := Nat.min_eq_left (Nat.le_of_lt hfull)
      have hst' : stored (c.room d) (b + 1) = b + 1 := Nat.min_eq_left hfull
      rw [push_fits hd _ (by rw [hlen, hst]; exact hfull)]
      rw [ih (c := { c with rows := c.rows ++ [f b (g b)] }) (n := b + 1)]
      · rw [Nat.add_assoc, Nat.add_comm 1 m]
        rfl
      · show c.rows ++ [f b (g b)] = _
        rw [show room d { c with rows := c.rows ++ [f b (g b)] } = c.room d from rfl,
          hst', hrows, hst, List.range_succ, List.map_append]
        rfl
      · exact fun _ => rfl
    · have hst : stored (c.room d) n = c.room d := Nat.min_eq_right (by omega)
      have hst' : stored (c.room d) (n + 1) = c.room d := Nat.min_eq_right (by omega)
      rw [push_full hd _ (by rw [hlen, hst])]
      rw [ih (n := n + 1) (by rw [hrows, hst, hst']) (fun h => absurd h (by omega))]
      rw [Nat.add_assoc, Nat.add_comm 1 m]

end CompLayer

/-! ## One call on a layer -/

/-- A compressor's weights: the projections of a token, the position bias, and
how a pooled row is finished as block `b` (norm, rope at `b * ratio`, and for
the Indexer a rotation and a quantisation). -/
structure Compressor (α X : Type) where
  proj : X → Tok α
  ape : List (List α)
  finish : Nat → List α → List α

variable [Zero α] [Add α]

/-- The compressor part of an attention call: pool this call's tokens, then push
the rows from the count before the loop. A layer without a state pushes
nothing. -/
def CompLayer.call (pool : List (Slot α) → List α) (w : Compressor α X) (ratio d posBase : Nat)
    (xs : List X) (c : CompLayer α) : CompLayer α :=
  match c.state with
  | none => c
  | some st =>
    let r := compressCall pool w.ape ratio d posBase (xs.map w.proj) st
    CompLayer.pushRows d w.finish c.rows.length r.1 { c with state := some r.2 }

/-- The finished row of block `b` of a stream. -/
def finishedRow (pool : List (Slot α) → List α) (w : Compressor α X) (ratio d : Nat)
    (stream : Nat → X) (b : Nat) : List α :=
  w.finish b (blockRow pool w.ape ratio d (fun p => w.proj (stream p)) b)

/-- What a compressing layer holds after `p` tokens of a stream. -/
structure CompLayer.Holds (pool : List (Slot α) → List α) (w : Compressor α X) (ratio d : Nat)
    (stream : Nat → X) (p size : Nat) (c : CompLayer α) : Prop where
  size_eq : c.size = size
  rows_eq : c.rows = (List.range (CompLayer.stored (size / d) (p / ratio))).map
    (finishedRow pool w ratio d stream)
  state : ∃ st, c.state = some st ∧ Carries w.ape ratio d (fun p => w.proj (stream p)) p st

/-- The stream only matters up to the position. -/
theorem CompLayer.Holds.congr {pool : List (Slot α) → List α} {w : Compressor α X}
    {ratio d : Nat} {stream stream' : Nat → X} {p size : Nat} {c : CompLayer α}
    (h : CompLayer.Holds pool w ratio d stream p size c)
    (hs : ∀ q, q < p → stream' q = stream q) :
    CompLayer.Holds pool w ratio d stream' p size c where
  size_eq := h.size_eq
  rows_eq := by
    rw [h.rows_eq]
    apply List.map_congr_left
    intro b hb
    rw [List.mem_range] at hb
    have hlt : b < p / ratio := Nat.lt_of_lt_of_le hb (Nat.min_le_left _ _)
    have hend : (b + 1) * ratio ≤ p :=
      Nat.le_trans (Nat.mul_le_mul_right ratio hlt) (Nat.div_mul_le_self p ratio)
    rw [finishedRow, finishedRow]
    congr 1
    refine (blockRow_congr pool w.ape (fun i hi => ?_)).symm
    rw [hs i (by omega)]
  state := by
    obtain ⟨st, hst, hcar⟩ := h.state
    exact ⟨st, hst, hcar.congr (fun i hi => by rw [hs i hi])⟩

/-- A fresh buffer holds the empty prefix of any stream. -/
theorem CompLayer.holds_alloc (pool : List (Slot α) → List α) (w : Compressor α X)
    (ratio d maxBlocks : Nat) (stream : Nat → X) :
    CompLayer.Holds pool w ratio d stream 0 (maxBlocks * d % usizeCount)
      (CompLayer.alloc ratio d maxBlocks) where
  size_eq := rfl
  rows_eq := by
    rw [Nat.zero_div]
    simp only [CompLayer.stored, Nat.zero_min]
    rfl
  state := ⟨_, rfl, carries_new w.ape ratio d _⟩

/-- **One call** of consecutive tokens, at position 0 or later. -/
theorem CompLayer.call_holds (pool : List (Slot α) → List α) {w : Compressor α X} {ratio d : Nat}
    (hratio : 0 < ratio) (hd : 0 < d) {stream : Nat → X} {posBase size : Nat} (xs : List X)
    (hxs : ∀ i (hi : i < xs.length), xs[i] = stream (posBase + i)) {c : CompLayer α}
    (h : CompLayer.Holds pool w ratio d stream posBase size c) :
    CompLayer.Holds pool w ratio d stream (posBase + xs.length) size
      (c.call pool w ratio d posBase xs) := by
  obtain ⟨st, hst, hcar⟩ := h.state
  have htok : ∀ i, i < (xs.map w.proj).length →
      (xs.map w.proj).getD i default = w.proj (stream (posBase + i)) := by
    intro i hi
    rw [List.length_map] at hi
    rw [List.getD_eq_getElem?_getD, List.getElem?_map, List.getElem?_eq_getElem hi, Option.map_some,
      Option.getD_some, hxs i hi]
  obtain ⟨hrows, hcar'⟩ := compressCall_carries pool hratio (xs.map w.proj) htok hcar
  rw [List.length_map] at hrows hcar'
  have hdiv : posBase / ratio ≤ (posBase + xs.length) / ratio :=
    Nat.div_le_div_right (Nat.le_add_right _ _)
  let c' : CompLayer α :=
    { c with state := some (compressCall pool w.ape ratio d posBase (xs.map w.proj) st).2 }
  have hroom : c'.room d = size / d := by
    show c.size / d = size / d
    rw [h.size_eq]
  have hlen : c.rows.length = CompLayer.stored (size / d) (posBase / ratio) := by
    rw [h.rows_eq, List.length_map, List.length_range]
  have hspec := CompLayer.pushRows_spec hd (f := w.finish)
    (g := blockRow pool w.ape ratio d (fun p => w.proj (stream p)))
    ((posBase + xs.length) / ratio - posBase / ratio) (n := posBase / ratio)
    (b := c.rows.length) (c := c')
    (by
      rw [hroom]
      exact h.rows_eq)
    (fun hlt => by
      rw [hroom] at hlt
      rw [hlen]
      exact Nat.min_eq_left (Nat.le_of_lt hlt))
  rw [← blockRows, ← hrows, hroom, Nat.add_sub_cancel' hdiv] at hspec
  have hcall : c.call pool w ratio d posBase xs = { c' with
      rows := (List.range (CompLayer.stored (size / d) ((posBase + xs.length) / ratio))).map
        (finishedRow pool w ratio d stream) } := by
    simp only [CompLayer.call, hst]
    exact hspec
  rw [hcall]
  exact ⟨h.size_eq, rfl, ⟨_, rfl, hcar'⟩⟩

end Colibri.Kv
