import Colibri.Lib.Blocks
import Mathlib.Algebra.Order.Ring.Nat
import Mathlib.Algebra.Order.Ring.Int

/-!
# The V4 Compressor

Every `ratio` tokens the Compressor pools a window of them into one compressed
row. At ratio 4 the windows overlap: a row also sees the first half of the
previous block's dims. Two code paths compute the same rows. `compressPrefill`
takes a whole batch at position 0 and leaves the unfinished tail in the state;
`compressDecode` absorbs one token and emits a row at each block end.

A token's two projections (`Tok`) become a state slot (`Slot`): values, and
scores with the position bias added, `⊥` standing for `-inf`. Pooling a window
is a parameter, so the results are about which slots are pooled and not about
the softmax.

* `blockRow` is the row of block `b` as a function of the token stream.
* `Carries` says what a state holds after `p` tokens: the previous block's slots
  (at ratio 4) and the unfinished tail. The remaining slots are never read
  before they are written, and keep whatever the path taken left there.
* `compressPrefill_carries`, `compressDecode_carries`: both paths emit the
  blocks closed and carry the stream on.
* `compress_split`: the split is invisible.
-/

namespace Colibri.Dsv4

open Colibri.Blocks

variable {α : Type}

/-! ## Tokens and slots -/

/-- One token's projections `wkv(x)` and `wgate(x)`. -/
structure Tok (α : Type) where
  kv : List α
  score : List α

instance : Inhabited (Tok α) := ⟨⟨[], []⟩⟩

/-- One slot of the carried state: a value row and a score row. -/
structure Slot (α : Type) where
  kv : List α
  score : List (WithBot α)

/-- A slot nothing was written to: values 0, scores `-inf`. -/
def Slot.empty [Zero α] (w : Nat) : Slot α := ⟨List.replicate w 0, List.replicate w ⊥⟩

instance : Inhabited (Slot α) := ⟨⟨[], []⟩⟩

/-- A token in position `r` of its window: the position bias goes to the score
only. -/
def Slot.ofTok [Add α] (ape : List (List α)) (r : Nat) (t : Tok α) : Slot α :=
  ⟨t.kv, List.zipWith (fun s a => ((s + a : α) : WithBot α)) t.score (ape.getD r [])⟩

/-- The dims that feed the overlapping window. -/
def Slot.first (d : Nat) (s : Slot α) : Slot α := ⟨s.kv.take d, s.score.take d⟩

/-- The dims that feed the normal window. -/
def Slot.second (d : Nat) (s : Slot α) : Slot α := ⟨(s.kv.drop d).take d, (s.score.drop d).take d⟩

theorem Slot.first_empty [Zero α] (d : Nat) :
    (Slot.empty (2 * d) : Slot α).first d = Slot.empty d := by
  simp only [Slot.first, Slot.empty, List.take_replicate, Slot.mk.injEq]
  rw [Nat.min_eq_left (by omega)]
  exact ⟨rfl, rfl⟩

/-- `CompressorState`, its value and score buffers as one list of slots. -/
structure CompressorState (α : Type) where
  slots : List (Slot α)
  ratio : Nat
  coff : Nat
  d : Nat

/-- `CompressorState::new`. -/
def CompressorState.new [Zero α] (ratio d : Nat) : CompressorState α :=
  let coff := if ratio = 4 then 2 else 1
  ⟨List.replicate (coff * ratio) (Slot.empty (coff * d)), ratio, coff, d⟩

/-! ## The two paths -/

variable [Zero α] [Add α]

/-- `overlap_transform`: block `i` is the first dims of block `i - 1`, then the
second dims of block `i`; block 0 has no predecessor. -/
def overlapTransform (t : List (Slot α)) (nblk ratio d : Nat) : List (Slot α) :=
  blocks nblk (fun i =>
    (List.range ratio).map (fun r =>
      if i > 0 then (t.getD ((i - 1) * ratio + r) default).first d else Slot.empty d)
    ++ (List.range ratio).map (fun r => (t.getD (i * ratio + r) default).second d))

/-- `gated_pool`: each of `nblk` windows of `win` slots pooled to one row. -/
def gatedPool (pool : List (Slot α) → List α) (slots : List (Slot α)) (nblk win : Nat) :
    List (List α) :=
  (List.range nblk).map (fun b => pool ((slots.drop (b * win)).take win))

/-- `compress_prefill`: the rows of the whole blocks, and the state left. -/
def compressPrefill (pool : List (Slot α) → List α) (ape : List (List α)) (ratio d : Nat)
    (toks : List (Tok α)) (st : CompressorState α) : List (List α) × CompressorState α :=
  let s := toks.length
  let coff := if ratio = 4 then 2 else 1
  let overlap := coff = 2
  let remainder := s % ratio
  let cutoff := s - remainder
  let offset := if overlap then ratio else 0
  -- carry: with overlap, the last complete window feeds the next block
  let slots := if overlap ∧ ratio ≤ cutoff then
      setAll st.slots 0 ratio (fun r =>
        Slot.ofTok ape r (toks.getD (cutoff - ratio + r) default))
    else st.slots
  -- carry: the tail that does not fill a window
  let slots := setAll slots offset remainder (fun r =>
    Slot.ofTok ape r (toks.getD (cutoff + r) default))
  let st := { st with slots := slots }
  let nblk := cutoff / ratio
  if nblk = 0 then ([], st)
  else
    let kvb := blocks nblk (fun b => (List.range ratio).map (fun r =>
      Slot.ofTok ape r (toks.getD (b * ratio + r) default)))
    if overlap then (gatedPool pool (overlapTransform kvb nblk ratio d) nblk (2 * ratio), st)
    else (gatedPool pool kvb nblk ratio, st)

/-- `compress_decode`: absorb the token at `pos`; a row at each block end. -/
def compressDecode (pool : List (Slot α) → List α) (ape : List (List α)) (t : Tok α) (pos : Nat)
    (st : CompressorState α) : Option (List α) × CompressorState α :=
  let overlap := st.coff = 2
  let slot := pos % st.ratio
  let base := if overlap then st.ratio + slot else slot
  let slots := st.slots.set base (Slot.ofTok ape slot t)
  if (pos + 1) % st.ratio ≠ 0 then (none, { st with slots := slots })
  else if overlap then
    let window := (List.range st.ratio).map (fun r => (slots.getD r default).first st.d)
      ++ (List.range st.ratio).map (fun r => (slots.getD (st.ratio + r) default).second st.d)
    -- this window becomes the next block's predecessor
    (some (pool window),
      { st with slots := (slots.drop st.ratio).take st.ratio ++ slots.drop st.ratio })
  else (some (pool (slots.take st.ratio)), { st with slots := slots })

/-- Decode steps over consecutive tokens, with the rows emitted. -/
def decodeAll (pool : List (Slot α) → List α) (ape : List (List α)) :
    Nat → List (Tok α) → CompressorState α → List (List α) × CompressorState α
  | _, [], st => ([], st)
  | pos, t :: ts, st =>
    let step := compressDecode pool ape t pos st
    let rest := decodeAll pool ape (pos + 1) ts step.2
    (step.1.toList ++ rest.1, rest.2)

/-- The compressor driver of one attention call: a prefill at position 0, decode
steps anywhere else. -/
def compressCall (pool : List (Slot α) → List α) (ape : List (List α)) (ratio d posBase : Nat)
    (toks : List (Tok α)) (st : CompressorState α) : List (List α) × CompressorState α :=
  if posBase = 0 then compressPrefill pool ape ratio d toks st
  else decodeAll pool ape posBase toks st

/-! ## The rows of a token stream -/

/-- The window of block `b`. -/
def blockWindow (ape : List (List α)) (ratio d : Nat) (tok : Nat → Tok α) (b : Nat) :
    List (Slot α) :=
  if ratio = 4 then
    (List.range ratio).map (fun r =>
      if b > 0 then (Slot.ofTok ape r (tok ((b - 1) * ratio + r))).first d else Slot.empty d)
    ++ (List.range ratio).map (fun r => (Slot.ofTok ape r (tok (b * ratio + r))).second d)
  else (List.range ratio).map (fun r => Slot.ofTok ape r (tok (b * ratio + r)))

/-- The compressed row of block `b`. -/
def blockRow (pool : List (Slot α) → List α) (ape : List (List α)) (ratio d : Nat)
    (tok : Nat → Tok α) (b : Nat) : List α :=
  pool (blockWindow ape ratio d tok b)

/-- The rows of the blocks closed between positions `p` and `q`. -/
def blockRows (pool : List (Slot α) → List α) (ape : List (List α)) (ratio d : Nat)
    (tok : Nat → Tok α) (p q : Nat) : List (List α) :=
  (List.range' (p / ratio) (q / ratio - p / ratio)).map (blockRow pool ape ratio d tok)

variable {ratio d pos : Nat} {tok : Nat → Tok α} {ape : List (List α)} {st : CompressorState α}

/-- A block's row depends on the tokens up to its end. -/
theorem blockRow_congr (pool : List (Slot α) → List α) (ape : List (List α)) {b : Nat}
    {tok' : Nat → Tok α} (h : ∀ i, i < (b + 1) * ratio → tok' i = tok i) :
    blockRow pool ape ratio d tok' b = blockRow pool ape ratio d tok b := by
  have hend : (b + 1) * ratio = b * ratio + ratio := Nat.succ_mul b ratio
  have hprev : (b - 1) * ratio ≤ b * ratio := Nat.mul_le_mul_right ratio (Nat.sub_le b 1)
  have hthis : ∀ r ∈ List.range ratio, tok' (b * ratio + r) = tok (b * ratio + r) := by
    intro r hr
    rw [List.mem_range] at hr
    exact h _ (by omega)
  have hbefore : ∀ r ∈ List.range ratio,
    tok' ((b - 1) * ratio + r) = tok ((b - 1) * ratio + r) := by
    intro r hr
    rw [List.mem_range] at hr
    exact h _ (by omega)
  rw [blockRow, blockRow, blockWindow, blockWindow]
  split
  · congr 2
    · exact List.map_congr_left (fun r hr => by rw [hbefore r hr])
    · exact List.map_congr_left (fun r hr => by rw [hthis r hr])
  · congr 1
    exact List.map_congr_left (fun r hr => by rw [hthis r hr])

theorem blockRows_append (pool : List (Slot α) → List α) (ape : List (List α)) (ratio d : Nat)
    (tok : Nat → Tok α) {p q n : Nat} (hpq : p ≤ q) (hqn : q ≤ n) :
    blockRows pool ape ratio d tok p q ++ blockRows pool ape ratio d tok q n
      = blockRows pool ape ratio d tok p n := by
  have h1 : p / ratio ≤ q / ratio := Nat.div_le_div_right hpq
  have h2 : q / ratio ≤ n / ratio := Nat.div_le_div_right hqn
  simp only [blockRows, ← List.map_append]
  have hrange := @List.range'_append (p / ratio) (q / ratio - p / ratio)
    (n / ratio - q / ratio) 1
  rw [Nat.one_mul, Nat.add_sub_cancel' h1] at hrange
  rw [hrange]
  congr 2
  omega

/-! ## What a state carries -/

/-- First slot of the window being filled. -/
def tailOffset (ratio : Nat) : Nat := if ratio = 4 then ratio else 0

/-- The slots of a state that later decode steps read before writing: the
unfinished window, and at ratio 4 the window before it. -/
structure Carries (ape : List (List α)) (ratio d : Nat) (tok : Nat → Tok α) (p : Nat)
    (st : CompressorState α) : Prop where
  ratio_eq : st.ratio = ratio
  coff_eq : st.coff = if ratio = 4 then 2 else 1
  d_eq : st.d = d
  length : st.slots.length = tailOffset ratio + ratio
  tail : ∀ r, r < p % ratio →
    st.slots[tailOffset ratio + r]? = some (Slot.ofTok ape r (tok (p / ratio * ratio + r)))
  prev : ratio = 4 → ∀ r, r < ratio → st.slots[r]? = some
    (if p / ratio = 0 then Slot.empty (2 * d)
      else Slot.ofTok ape r (tok ((p / ratio - 1) * ratio + r)))

theorem coff_eq_two (ratio : Nat) : ((if ratio = 4 then 2 else 1) = 2) ↔ ratio = 4 := by
  split <;> omega

/-- A fresh state carries the empty prefix of any stream. -/
theorem carries_new (ape : List (List α)) (ratio d : Nat) (tok : Nat → Tok α) :
    Carries ape ratio d tok 0 (CompressorState.new ratio d) where
  ratio_eq := rfl
  coff_eq := rfl
  d_eq := rfl
  length := by
    simp only [CompressorState.new, List.length_replicate, tailOffset]
    split <;> omega
  tail := fun r hr => absurd hr (by rw [Nat.zero_mod]; exact Nat.not_lt_zero r)
  prev := by
    intro h4 r hr
    rw [if_pos (Nat.zero_div ratio)]
    simp only [CompressorState.new, if_pos h4]
    rw [List.getElem?_replicate, if_pos (by omega)]

/-- A stream only matters up to the position. -/
theorem Carries.congr {tok' : Nat → Tok α} {p : Nat}
    (h : Carries ape ratio d tok p st)
    (ht : ∀ i, i < p → tok' i = tok i) : Carries ape ratio d tok' p st where
  ratio_eq := h.ratio_eq
  coff_eq := h.coff_eq
  d_eq := h.d_eq
  length := h.length
  tail := by
    intro r hr
    have := Nat.div_add_mod' p ratio
    rw [h.tail r hr, ht _ (by omega)]
  prev := by
    intro h4 r hr
    rw [h.prev h4 r hr]
    by_cases hb : p / ratio = 0
    · rw [if_pos hb, if_pos hb]
    · have := Nat.div_add_mod' p ratio
      obtain ⟨b, hb'⟩ := Nat.exists_eq_succ_of_ne_zero hb
      rw [hb', Nat.succ_mul] at this
      rw [if_neg hb, if_neg hb, ht _ (by rw [hb', Nat.succ_sub_one]; omega)]

/-! ## Prefill -/

omit [Zero α] in
/-- The whole blocks of a batch, as the blocks of the stream. -/
private theorem prefill_block (ape : List (List α))
    {toks : List (Tok α)} (htok : ∀ i, i < toks.length → toks.getD i default = tok i)
    {b r : Nat} (hb : b < toks.length / ratio) (hr : r < ratio) :
    (blocks (toks.length / ratio) (fun b => (List.range ratio).map (fun r =>
      Slot.ofTok ape r (toks.getD (b * ratio + r) default)))).getD (b * ratio + r) default
      = Slot.ofTok ape r (tok (b * ratio + r)) := by
  have hlt : b * ratio + r < toks.length := by
    have h1 : (b + 1) * ratio ≤ toks.length / ratio * ratio := Nat.mul_le_mul_right ratio hb
    have h2 := Nat.div_mul_le_self toks.length ratio
    rw [Nat.succ_mul] at h1
    omega
  rw [List.getD_eq_getElem?_getD, getElem?_blocks (w := ratio) (by simp) hb hr]
  rw [List.getElem?_map, List.getElem?_range hr, Option.map_some, Option.getD_some, htok _ hlt]

/-- The pooled rows of a prefill are the stream's rows. -/
theorem compressPrefill_rows (pool : List (Slot α) → List α) (ape : List (List α))
    (hratio : 0 < ratio) (d : Nat) {toks : List (Tok α)}
    (htok : ∀ i, i < toks.length → toks.getD i default = tok i) (st : CompressorState α) :
    (compressPrefill pool ape ratio d toks st).1
      = blockRows pool ape ratio d tok 0 toks.length := by
  have hcut : (toks.length - toks.length % ratio) / ratio = toks.length / ratio := by
    have hdm := Nat.div_add_mod' toks.length ratio
    rw [show toks.length - toks.length % ratio = toks.length / ratio * ratio by omega,
      Nat.mul_div_cancel _ hratio]
  have hrows : blockRows pool ape ratio d tok 0 toks.length
      = (List.range (toks.length / ratio)).map (blockRow pool ape ratio d tok) := by
    rw [blockRows, Nat.zero_div, Nat.sub_zero, List.range_eq_range']
  rw [hrows]
  simp only [compressPrefill, hcut]
  by_cases hzero : toks.length / ratio = 0
  · rw [if_pos hzero, hzero]
    rfl
  · rw [if_neg hzero]
    by_cases h4 : ratio = 4
    · rw [if_pos ((coff_eq_two ratio).mpr h4)]
      refine List.map_congr_left (fun b hb => ?_)
      rw [List.mem_range] at hb
      rw [overlapTransform, chunk_blocks (fun i _ => by simp; omega) hb, blockRow, blockWindow,
        if_pos h4]
      congr 2
      · refine List.map_congr_left (fun r hr => ?_)
        rw [List.mem_range] at hr
        by_cases hpos : b > 0
        · rw [if_pos hpos, if_pos hpos, prefill_block ape htok (by omega) hr]
        · rw [if_neg hpos, if_neg hpos]
      · refine List.map_congr_left (fun r hr => ?_)
        rw [List.mem_range] at hr
        rw [prefill_block ape htok hb hr]
    · rw [if_neg (fun h => h4 ((coff_eq_two ratio).mp h))]
      refine List.map_congr_left (fun b hb => ?_)
      rw [List.mem_range] at hb
      rw [chunk_blocks (fun i _ => by simp) hb, blockRow, blockWindow, if_neg h4]
      congr 1
      refine List.map_congr_left (fun r hr => ?_)
      rw [List.mem_range] at hr
      have h := prefill_block ape htok hb hr
      rw [List.getD_eq_getElem?_getD, getElem?_blocks (w := ratio) (by simp) hb hr,
        List.getElem?_map, List.getElem?_range hr] at h
      exact h

/-- **Prefill** leaves the carried state of its tokens. -/
theorem compressPrefill_carries (pool : List (Slot α) → List α) (ape : List (List α))
    (hratio : 0 < ratio) {toks : List (Tok α)}
    (htok : ∀ i, i < toks.length → toks.getD i default = tok i)
    (h : Carries ape ratio d tok 0 st) :
    Carries ape ratio d tok toks.length (compressPrefill pool ape ratio d toks st).2 := by
  have hdm := Nat.div_add_mod' toks.length ratio
  have hmod := Nat.mod_lt toks.length hratio
  -- the state does not depend on whether a block was emitted
  have hst : ∃ slots, (compressPrefill pool ape ratio d toks st).2 = { st with slots := slots } ∧
      slots = setAll (if ratio = 4 ∧ ratio ≤ toks.length / ratio * ratio then
          setAll st.slots 0 ratio (fun r => Slot.ofTok ape r
            (toks.getD (toks.length / ratio * ratio - ratio + r) default))
        else st.slots) (tailOffset ratio) (toks.length % ratio) (fun r =>
          Slot.ofTok ape r (toks.getD (toks.length / ratio * ratio + r) default)) := by
    refine ⟨_, ?_, rfl⟩
    have hcut : toks.length - toks.length % ratio = toks.length / ratio * ratio := by omega
    simp only [compressPrefill, hcut, coff_eq_two, tailOffset]
    split
    · rfl
    · split <;> rfl
  obtain ⟨slots, hst, hslots⟩ := hst
  rw [hst]
  have hbase : (if ratio = 4 ∧ ratio ≤ toks.length / ratio * ratio then
      setAll st.slots 0 ratio (fun r => Slot.ofTok ape r
        (toks.getD (toks.length / ratio * ratio - ratio + r) default))
    else st.slots).length = tailOffset ratio + ratio := by
    split
    · rw [length_setAll, h.length]
    · exact h.length
  refine ⟨h.ratio_eq, h.coff_eq, h.d_eq, ?_, ?_, ?_⟩
  · show slots.length = _
    rw [hslots, length_setAll, hbase]
  · intro r hr
    show slots[_]? = _
    rw [hslots, getElem?_setAll hr (by omega), htok _ (by omega)]
  · intro h4 r hr
    show slots[_]? = _
    rw [hslots, getElem?_setAll_of_not_mem (Or.inl (by rw [tailOffset, if_pos h4]; exact hr))]
    by_cases hz : toks.length / ratio = 0
    · rw [if_pos hz, if_neg (by rw [hz, Nat.zero_mul]; omega), h.prev h4 r hr,
        if_pos (Nat.zero_div ratio)]
    · obtain ⟨b, hb⟩ := Nat.exists_eq_succ_of_ne_zero hz
      have hmul : toks.length / ratio * ratio = b * ratio + ratio := by rw [hb, Nat.succ_mul]
      rw [if_neg hz, if_pos ⟨h4, by omega⟩]
      have hget := getElem?_setAll (f := fun r =>
        Slot.ofTok ape r (toks.getD (toks.length / ratio * ratio - ratio + r) default)) hr
        (show 0 + r < st.slots.length by rw [h.length]; omega)
      rw [Nat.zero_add] at hget
      rw [hget, hmul, Nat.add_sub_cancel, htok _ (by omega), hb, Nat.succ_sub_one]

/-! ## Decode -/

private theorem succ_closes (hratio : 0 < ratio) (h : (pos + 1) % ratio = 0) :
    pos % ratio + 1 = ratio ∧ (pos + 1) / ratio = pos / ratio + 1 := by
  have hdiv : (pos + 1) / ratio = pos / ratio + 1 := by
    rw [Nat.succ_div, if_pos (Nat.dvd_of_mod_eq_zero h)]
  have h1 := Nat.div_add_mod' pos ratio
  have h2 := Nat.div_add_mod' (pos + 1) ratio
  rw [hdiv, Nat.succ_mul, h] at h2
  have := Nat.mod_lt pos hratio
  exact ⟨by omega, hdiv⟩

private theorem succ_stays (hratio : 0 < ratio) (h : (pos + 1) % ratio ≠ 0) :
    (pos + 1) % ratio = pos % ratio + 1 ∧ (pos + 1) / ratio = pos / ratio := by
  have hdiv : (pos + 1) / ratio = pos / ratio := by
    rw [Nat.succ_div, if_neg (fun hd => h (Nat.mod_eq_zero_of_dvd hd)), Nat.add_zero]
  have h1 := Nat.div_add_mod' pos ratio
  have h2 := Nat.div_add_mod' (pos + 1) ratio
  rw [hdiv] at h2
  have := Nat.mod_lt pos hratio
  exact ⟨by omega, hdiv⟩

/-- The slots of the window being filled, once the token at `pos` is in. -/
private theorem decode_tail (hratio : 0 < ratio)
    (h : Carries ape ratio d tok pos st)
    {r : Nat} (hr : r ≤ pos % ratio) :
    (st.slots.set (tailOffset ratio + pos % ratio)
        (Slot.ofTok ape (pos % ratio) (tok pos)))[tailOffset ratio + r]?
      = some (Slot.ofTok ape r (tok (pos / ratio * ratio + r))) := by
  have hmod := Nat.mod_lt pos hratio
  by_cases he : r = pos % ratio
  · rw [he, List.getElem?_set_self (by rw [h.length]; omega), Nat.div_add_mod']
  · rw [List.getElem?_set_ne (by omega), h.tail r (by omega)]

/-- **One decode step** emits the row of the block it closes, if any, and
carries the stream on. -/
theorem compressDecode_carries (pool : List (Slot α) → List α)
    (hratio : 0 < ratio)
    (h : Carries ape ratio d tok pos st) :
    (compressDecode pool ape (tok pos) pos st).1.toList
        = blockRows pool ape ratio d tok pos (pos + 1) ∧
      Carries ape ratio d tok (pos + 1) (compressDecode pool ape (tok pos) pos st).2 := by
  have hmod := Nat.mod_lt pos hratio
  obtain ⟨slots₀, ratio', coff, d'⟩ := st
  obtain rfl : ratio' = ratio := h.ratio_eq
  obtain rfl : d' = d := h.d_eq
  have hoverlap : coff = 2 ↔ ratio' = 4 := by rw [show coff = _ from h.coff_eq, coff_eq_two]
  have hbase : (if coff = 2 then ratio' + pos % ratio' else pos % ratio')
      = tailOffset ratio' + pos % ratio' := by
    simp only [hoverlap, tailOffset]
    split <;> omega
  have htail := fun r hr => decode_tail hratio h (r := r) hr
  have hlen : (slots₀.set (tailOffset ratio' + pos % ratio')
      (Slot.ofTok ape (pos % ratio') (tok pos))).length = tailOffset ratio' + ratio' := by
    rw [List.length_set, h.length]
  have hprev : ratio' = 4 → ∀ r, r < ratio' → (slots₀.set (tailOffset ratio' + pos % ratio')
      (Slot.ofTok ape (pos % ratio') (tok pos)))[r]? = some
        (if pos / ratio' = 0 then Slot.empty (2 * d')
          else Slot.ofTok ape r (tok ((pos / ratio' - 1) * ratio' + r))) := by
    intro h4 r hr
    rw [List.getElem?_set_ne (by rw [tailOffset, if_pos h4]; omega), h.prev h4 r hr]
  unfold compressDecode
  simp only [hbase]
  dsimp only at htail
  generalize slots₀.set (tailOffset ratio' + pos % ratio')
    (Slot.ofTok ape (pos % ratio') (tok pos)) = slots at htail hlen hprev ⊢
  -- the token closes its block and a row comes out, or it joins the tail
  by_cases hend : (pos + 1) % ratio' = 0
  · obtain ⟨hlast, hdiv⟩ := succ_closes hratio hend
    rw [if_neg (fun hne => hne hend)]
    have hrow : blockRows pool ape ratio' d' tok pos (pos + 1)
        = [blockRow pool ape ratio' d' tok (pos / ratio')] := by
      rw [blockRows, hdiv, Nat.add_sub_cancel_left]
      rfl
    rw [hrow, blockRow, blockWindow]
    -- windows of ratio 4 overlap: the block before is kept in front
    by_cases h4 : ratio' = 4
    · have hoff : tailOffset ratio' = ratio' := by rw [tailOffset, if_pos h4]
      rw [if_pos (hoverlap.mpr h4), if_pos h4]
      rw [hoff] at htail hlen
      refine ⟨?_, h.ratio_eq, h.coff_eq, h.d_eq, ?_, ?_, ?_⟩
      · simp only [Option.toList_some, List.cons.injEq, and_true]
        congr 2
        · refine List.map_congr_left (fun r hr => ?_)
          rw [List.mem_range] at hr
          rw [List.getD_eq_getElem?_getD, hprev h4 r hr, Option.getD_some]
          by_cases hz : pos / ratio' = 0
          · rw [if_pos hz, if_neg (by rw [hz]; exact Nat.lt_irrefl 0), Slot.first_empty]
          · rw [if_neg hz, if_pos (Nat.pos_of_ne_zero hz)]
        · refine List.map_congr_left (fun r hr => ?_)
          rw [List.mem_range] at hr
          rw [List.getD_eq_getElem?_getD, htail r (by omega), Option.getD_some]
      · show ((slots.drop ratio').take ratio' ++ slots.drop ratio').length = _
        rw [hoff, List.length_append, List.length_take, List.length_drop]
        omega
      · exact fun r hr => absurd hr (by rw [hend]; exact Nat.not_lt_zero r)
      · intro _ r hr
        show ((slots.drop ratio').take ratio' ++ slots.drop ratio')[r]? = _
        rw [List.getElem?_append_left (by rw [List.length_take, List.length_drop]; omega),
          List.getElem?_take_of_lt hr, List.getElem?_drop, htail r (by omega), hdiv,
          if_neg (Nat.succ_ne_zero _), Nat.add_sub_cancel]
    · have hoff : tailOffset ratio' = 0 := by rw [tailOffset, if_neg h4]
      rw [if_neg (fun hc => h4 (hoverlap.mp hc)), if_neg h4]
      rw [hoff, Nat.zero_add] at hlen
      refine ⟨?_, h.ratio_eq, h.coff_eq, h.d_eq, ?_, ?_, fun h' => absurd h' h4⟩
      · simp only [Option.toList_some, List.cons.injEq, and_true]
        congr 1
        apply List.ext_getElem?
        intro r
        by_cases hr : r < ratio'
        · have := htail r (by omega)
          rw [hoff, Nat.zero_add] at this
          rw [List.getElem?_take_of_lt hr, this, List.getElem?_map, List.getElem?_range hr,
            Option.map_some]
        · rw [List.getElem?_eq_none, List.getElem?_eq_none]
          · rw [List.length_map, List.length_range]
            omega
          · rw [List.length_take]
            omega
      · show slots.length = _
        rw [hlen, hoff, Nat.zero_add]
      · exact fun r hr => absurd hr (by rw [hend]; exact Nat.not_lt_zero r)
  · obtain ⟨hmod', hdiv⟩ := succ_stays hratio hend
    rw [if_pos hend]
    refine ⟨?_, h.ratio_eq, h.coff_eq, h.d_eq, hlen, ?_, ?_⟩
    · rw [blockRows, hdiv, Nat.sub_self]
      rfl
    · intro r hr
      rw [hdiv]
      exact htail r (by omega)
    · intro h4 r hr
      rw [hdiv]
      exact hprev h4 r hr

/-- Consecutive decode steps emit the rows of the blocks they close. -/
theorem decodeAll_carries (pool : List (Slot α) → List α)
    (hratio : 0 < ratio) (toks : List (Tok α))
    (htok : ∀ i, i < toks.length → toks.getD i default = tok (pos + i))
    (h : Carries ape ratio d tok pos st) :
    (decodeAll pool ape pos toks st).1 = blockRows pool ape ratio d tok pos (pos + toks.length) ∧
      Carries ape ratio d tok (pos + toks.length) (decodeAll pool ape pos toks st).2 := by
  induction toks generalizing pos st with
  | nil =>
    refine ⟨?_, h⟩
    rw [List.length_nil, Nat.add_zero, blockRows, Nat.sub_self]
    rfl
  | cons t ts ih =>
    have ht : t = tok pos := by simpa using htok 0 (by simp)
    have hts : ∀ i, i < ts.length → ts.getD i default = tok (pos + 1 + i) := by
      intro i hi
      have := htok (i + 1) (by simpa using hi)
      rw [List.getD_cons_succ] at this
      rw [this, Nat.add_right_comm, Nat.add_assoc]
    obtain ⟨hrow, hst⟩ := compressDecode_carries pool hratio h
    rw [← ht] at hrow hst
    obtain ⟨hrows, hend⟩ := ih hts hst
    have hlen : pos + (t :: ts).length = pos + 1 + ts.length := by
      rw [List.length_cons]
      omega
    rw [hlen]
    refine ⟨?_, hend⟩
    simp only [decodeAll]
    rw [hrow, hrows, blockRows_append pool ape ratio d tok (Nat.le_succ pos) (Nat.le_add_right _ _)]

/-- **One call of the driver**, at position 0 or later. -/
theorem compressCall_carries (pool : List (Slot α) → List α)
    (hratio : 0 < ratio) (toks : List (Tok α)) {posBase : Nat}
    (htok : ∀ i, i < toks.length → toks.getD i default = tok (posBase + i))
    (h : Carries ape ratio d tok posBase st) :
    (compressCall pool ape ratio d posBase toks st).1
        = blockRows pool ape ratio d tok posBase (posBase + toks.length) ∧
      Carries ape ratio d tok (posBase + toks.length)
        (compressCall pool ape ratio d posBase toks st).2 := by
  unfold compressCall
  by_cases hz : posBase = 0
  · subst hz
    simp only [Nat.zero_add] at htok
    rw [if_pos rfl, Nat.zero_add]
    exact ⟨compressPrefill_rows pool ape hratio d htok st,
      compressPrefill_carries pool ape hratio htok h⟩
  · rw [if_neg hz]
    exact decodeAll_carries pool hratio toks htok h

/-! ## Split invariance -/

/-- The carried slots of a state after `p` tokens, in order. -/
def carried (p : Nat) (st : CompressorState α) : List (Slot α) :=
  (if st.coff = 2 then st.slots.take st.ratio else [])
    ++ (st.slots.drop (if st.coff = 2 then st.ratio else 0)).take (p % st.ratio)

/-- The carried slots are determined by the stream. -/
theorem Carries.carried_eq (hratio : 0 < ratio)
    {p : Nat} (h : Carries ape ratio d tok p st) :
    carried p st = (if ratio = 4 then (List.range ratio).map (fun r =>
        if p / ratio = 0 then Slot.empty (2 * d)
        else Slot.ofTok ape r (tok ((p / ratio - 1) * ratio + r))) else [])
      ++ (List.range (p % ratio)).map (fun r =>
        Slot.ofTok ape r (tok (p / ratio * ratio + r))) := by
  have hmod := Nat.mod_lt p hratio
  have hcoff : st.coff = 2 ↔ ratio = 4 := by rw [h.coff_eq, coff_eq_two]
  have hoff : (if st.coff = 2 then st.ratio else 0) = tailOffset ratio := by
    simp only [hcoff, h.ratio_eq, tailOffset]
  have htail : (st.slots.drop (tailOffset ratio)).take (p % ratio)
      = (List.range (p % ratio)).map (fun r => Slot.ofTok ape r (tok (p / ratio * ratio + r))) := by
    apply List.ext_getElem?
    intro r
    by_cases hr : r < p % ratio
    · rw [List.getElem?_take_of_lt hr, List.getElem?_drop, h.tail r hr, List.getElem?_map,
        List.getElem?_range hr, Option.map_some]
    · rw [List.getElem?_eq_none, List.getElem?_eq_none]
      · rw [List.length_map, List.length_range]
        omega
      · rw [List.length_take]
        omega
  rw [carried, hoff, h.ratio_eq, htail]
  congr 1
  by_cases h4 : ratio = 4
  · rw [if_pos (hcoff.mpr h4), if_pos h4]
    have hlen := h.length
    rw [tailOffset, if_pos h4] at hlen
    apply List.ext_getElem?
    intro r
    by_cases hr : r < ratio
    · rw [List.getElem?_take_of_lt hr, h.prev h4 r hr, List.getElem?_map, List.getElem?_range hr,
        Option.map_some]
    · rw [List.getElem?_eq_none, List.getElem?_eq_none]
      · rw [List.length_map, List.length_range]
        omega
      · rw [List.length_take]
        omega
  · rw [if_neg (fun hc => h4 (hcoff.mp hc)), if_neg h4]

/-- Two states carrying one stream are interchangeable for the decode steps that
follow: they emit the same rows and go on carrying the same slots. -/
theorem decodeAll_eq_of_carries (pool : List (Slot α) → List α)
    (hratio : 0 < ratio) (more : List (Tok α)) {p : Nat}
    {st' : CompressorState α} (h : Carries ape ratio d tok p st)
    (h' : Carries ape ratio d tok p st') :
    (decodeAll pool ape p more st).1 = (decodeAll pool ape p more st').1 ∧
      carried (p + more.length) (decodeAll pool ape p more st).2
        = carried (p + more.length) (decodeAll pool ape p more st').2 := by
  -- the stream from `p` on is whatever comes next
  let tok' : Nat → Tok α := fun i => if i < p then tok i else more.getD (i - p) default
  have hpast : ∀ i, i < p → tok' i = tok i := fun i hi => if_pos hi
  have hmore : ∀ i, i < more.length → more.getD i default = tok' (p + i) := by
    intro i _
    show _ = if p + i < p then tok (p + i) else more.getD (p + i - p) default
    rw [if_neg (by omega), Nat.add_sub_cancel_left]
  obtain ⟨h1, h2⟩ := decodeAll_carries pool hratio more hmore (h.congr hpast)
  obtain ⟨h1', h2'⟩ := decodeAll_carries pool hratio more hmore (h'.congr hpast)
  exact ⟨h1.trans h1'.symm, (h2.carried_eq hratio).trans (h2'.carried_eq hratio).symm⟩

/-- **Split invariance**: a prefill of the first `s` tokens and a decode step on
each of the rest emit the rows of one prefill of them all, in order, leave the
same carried slots, and every later decode step agrees. -/
theorem compress_split (pool : List (Slot α) → List α) (ape : List (List α)) {ratio : Nat}
    (hratio : 1 ≤ ratio) (d : Nat) (toks : List (Tok α)) {s : Nat} (hsn : s ≤ toks.length) :
    let whole := compressPrefill pool ape ratio d toks (CompressorState.new ratio d)
    let first := compressPrefill pool ape ratio d (toks.take s) (CompressorState.new ratio d)
    let rest := decodeAll pool ape s (toks.drop s) first.2
    first.1 ++ rest.1 = whole.1 ∧
      carried toks.length rest.2 = carried toks.length whole.2 ∧
      ∀ more, (decodeAll pool ape toks.length more rest.2).1
          = (decodeAll pool ape toks.length more whole.2).1 ∧
        carried (toks.length + more.length) (decodeAll pool ape toks.length more rest.2).2
          = carried (toks.length + more.length)
            (decodeAll pool ape toks.length more whole.2).2 := by
  intro whole first rest
  let tok : Nat → Tok α := fun i => toks.getD i default
  have hfresh := carries_new ape ratio d tok
  have hlen : (toks.take s).length = s := by
    rw [List.length_take]
    omega
  have htake : ∀ i, i < (toks.take s).length → (toks.take s).getD i default = tok i := by
    intro i hi
    rw [hlen] at hi
    show _ = toks.getD i default
    rw [List.getD_eq_getElem?_getD, List.getElem?_take_of_lt hi, List.getD_eq_getElem?_getD]
  have hdrop : ∀ i, i < (toks.drop s).length → (toks.drop s).getD i default = tok (s + i) := by
    intro i _
    show _ = toks.getD (s + i) default
    rw [List.getD_eq_getElem?_getD, List.getElem?_drop, List.getD_eq_getElem?_getD]
  have hwhole : whole.1 = blockRows pool ape ratio d tok 0 toks.length :=
    compressPrefill_rows pool ape hratio d (fun _ _ => rfl) _
  have hwholeSt : Carries ape ratio d tok toks.length whole.2 :=
    compressPrefill_carries pool ape hratio (fun _ _ => rfl) hfresh
  have hfirst : first.1 = blockRows pool ape ratio d tok 0 s := by
    rw [← hlen]
    exact compressPrefill_rows pool ape hratio d htake _
  have hfirstSt : Carries ape ratio d tok s first.2 := by
    have := compressPrefill_carries pool ape hratio htake hfresh
    rw [hlen] at this
    exact this
  have hend : s + (toks.drop s).length = toks.length := by
    rw [List.length_drop]
    omega
  obtain ⟨hrest, hrestSt⟩ := decodeAll_carries pool hratio (toks.drop s) hdrop hfirstSt
  rw [hend] at hrest hrestSt
  refine ⟨?_, ?_, fun more => decodeAll_eq_of_carries pool hratio more hrestSt hwholeSt⟩
  · rw [hfirst, show rest.1 = blockRows pool ape ratio d tok s toks.length from hrest, hwhole]
    exact blockRows_append pool ape ratio d tok (Nat.zero_le s) hsn
  · rw [hwholeSt.carried_eq hratio]
    exact hrestSt.carried_eq hratio

/-- Ten tokens at ratio 4, cut inside the second block; pooling sums the value
column. -/
theorem compress_split_ten :
    let pool : List (Slot Int) → List Int := fun w => [(w.flatMap Slot.kv).sum]
    let toks : List (Tok Int) := (List.range 10).map (fun (i : Nat) => ⟨[i, 10 * i], [0, 0]⟩)
    let whole := compressPrefill pool [] 4 1 toks (CompressorState.new 4 1)
    let first := compressPrefill pool [] 4 1 (toks.take 6) (CompressorState.new 4 1)
    let rest := decodeAll pool [] 6 (toks.drop 6) first.2
    first.1 ++ rest.1 = whole.1 ∧ whole.1 = [[60], [226]] := by
  intro pool toks whole first rest
  exact ⟨(compress_split pool [] (show 1 ≤ 4 by decide) 1 toks (show 6 ≤ toks.length by decide)).1,
    by decide⟩

end Colibri.Dsv4
