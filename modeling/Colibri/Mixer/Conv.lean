import Colibri.Lib.Stages
import Mathlib.Algebra.Field.Defs

/-!
# The causal convolution of the recurrent mixers

`causal_conv1d_silu`: a kernel of `k` taps for every channel, the last one on the current
token. A mixer that is called for the next tokens of a sequence prepends the `k - 1` rows
before them and drops what the convolution makes of those; every output then reads `k` rows
(`conv_tail`), and with the last rows as the next call's history the convolution is a stage
(`stage_conv`).

A row is a list with its length (`Row`), and `convRow` is one output, made of the rows of its
window. `convOut` are the outputs of a call with a history in front.
-/

namespace Colibri.Mixer

open Colibri.Chunks Colibri.Vectors

variable {α : Type}

/-- A row of `n` entries. -/
abbrev Row (α : Type) (n : Nat) : Type := { row : List α // row.length = n }

/-- Row `t` of a buffer. -/
def rowAt {n : Nat} (rows : List (Row α n)) (t : Nat) : List α := (rows.map Subtype.val).getD t []

/-- `n` rows of `width` entries, oldest first. -/
@[ext] structure History (α : Type) (n width : Nat) where
  rows : List (Row α width)
  rows_length : rows.length = n

theorem length_last {n width : Nat} {rows : List (Row α width)} (hn : n ≤ rows.length) :
    (rows.drop (rows.length - n)).length = n := by
  rw [List.length_drop]
  omega

/-- The last `n` rows of `n` or more. -/
def History.last {n width : Nat} (rows : List (Row α width)) (hn : n ≤ rows.length) :
    History α n width where
  rows := rows.drop (rows.length - n)
  rows_length := length_last hn

section

variable [Field α]

/-- `causal_conv1d_silu` of rows of `channels` entries, from row `outFrom` on; none is a
failed assertion. -/
def causalConv1dSilu {channels : Nat} (silu : α → α) (weight bias : List α) (k outFrom : Nat)
    (rows : List (Row α channels)) : Option (List (Row α channels)) :=
  if weight.length = channels * k ∧ (bias = [] ∨ bias.length = channels) ∧
      outFrom ≤ rows.length then
    some ((List.range (rows.length - outFrom)).map fun i =>
      let t := outFrom + i
      ⟨tab channels fun c => silu (bias.getD c 0 + ((List.range k).map fun j =>
        -- a tap before the first row is skipped
        let off := k - 1 - j
        if off ≤ t then weight.getD (c * k + j) 0 * (rowAt rows (t - off)).getD c 0
        else 0).sum), length_tab _ _⟩)
  else none

/-- The convolution of the next tokens of a sequence, after the last rows of the history;
`n` rows are kept for the call after. With `skipHist` the history's own outputs are not
computed. -/
def convCall {channels : Nat} (silu : α → α) (weight bias : List α) (n k : Nat)
    (skipHist : Bool) : Call (History α n channels) (Row α channels) (Row α channels) :=
  fun h x =>
    let hist := k - 1
    let aug := h.rows.drop (n - hist) ++ x
    let outFrom := if skipHist then hist else 0
    -- a kernel without taps, and fewer rows than are kept, are underflows
    if hn : k ≠ 0 ∧ n ≤ aug.length then
      (causalConv1dSilu silu weight bias k outFrom aug).map fun out =>
        (out.drop (hist - outFrom), History.last aug hn.2)
    else none

/-! ## Every output reads `k` rows -/

/-- A row of output: the taps on the rows that end with the current one. -/
def convRow (silu : α → α) (weight bias : List α) (channels k : Nat) (window : Nat → List α) :
    Row α channels :=
  ⟨tab channels fun c => silu (bias.getD c 0 + ((List.range k).map fun j =>
    weight.getD (c * k + j) 0 * (window j).getD c 0).sum), length_tab _ _⟩

/-- The outputs of the rows `x` after `hist`. -/
def convOut {channels : Nat} (silu : α → α) (weight bias : List α) (k : Nat)
    (hist x : List (Row α channels)) : List (Row α channels) :=
  (List.range x.length).map fun i =>
    convRow silu weight bias channels k fun j => rowAt (hist ++ x) (i + j)

variable {channels n k : Nat} {silu : α → α} {weight bias : List α}

/-- **The outputs that are kept** see a whole window each, whether the history's own are
computed or not. -/
theorem conv_tail {hist x : List (Row α channels)} (hhist : hist.length = k - 1)
    (skipHist : Bool) :
    (causalConv1dSilu silu weight bias k (if skipHist then k - 1 else 0) (hist ++ x)).map
        (·.drop (k - 1 - if skipHist then k - 1 else 0))
      = if weight.length = channels * k ∧ (bias = [] ∨ bias.length = channels) then
          some (convOut silu weight bias k hist x)
        else none := by
  set from' := if skipHist then k - 1 else 0 with hfrom
  have hle : from' ≤ k - 1 := by
    rw [hfrom]
    split <;> omega
  have hlen : (hist ++ x).length = k - 1 + x.length := by rw [List.length_append, hhist]
  unfold causalConv1dSilu
  by_cases hw : weight.length = channels * k ∧ (bias = [] ∨ bias.length = channels)
  · rw [if_pos hw, if_pos ⟨hw.1, hw.2, by omega⟩, Option.map_some]
    congr 1
    refine List.ext_getElem ?_ fun i h₁ h₂ => ?_
    · rw [List.length_drop, List.length_map, List.length_range, convOut, List.length_map,
        List.length_range, hlen]
      omega
    · simp only [List.getElem_drop, List.getElem_map, List.getElem_range, convOut, convRow]
      refine Subtype.ext (tab_congr fun c _ => ?_)
      refine congrArg silu (congrArg (bias.getD c 0 + ·) (congrArg List.sum ?_))
      refine List.map_congr_left fun j hj => ?_
      have hjk := List.mem_range.mp hj
      have htap : k - 1 - j ≤ from' + (k - 1 - from' + i) := by omega
      have hrow : from' + (k - 1 - from' + i) - (k - 1 - j) = i + j := by omega
      rw [if_pos htap, hrow]
  · rw [if_neg hw, if_neg fun h => hw ⟨h.1, h.2.1⟩]
    rfl

omit [Field α] in
theorem rowAt_append_left {a b : List (Row α channels)} {t : Nat} (h : t < a.length) :
    rowAt (a ++ b) t = rowAt a t := by
  unfold rowAt
  rw [List.map_append, List.getD_append _ _ _ _ (by rw [List.length_map]; exact h)]

omit [Field α] in
theorem rowAt_drop (a : List (Row α channels)) (d t : Nat) :
    rowAt (a.drop d) t = rowAt a (d + t) := by
  unfold rowAt
  rw [List.map_drop, List.getD_eq_getElem?_getD, List.getElem?_drop, List.getD_eq_getElem?_getD]

theorem convRow_congr {window window' : Nat → List α} (h : ∀ j < k, window j = window' j) :
    convRow silu weight bias channels k window = convRow silu weight bias channels k window' := by
  refine Subtype.ext (tab_congr fun c _ => ?_)
  refine congrArg silu (congrArg (bias.getD c 0 + ·) (congrArg List.sum ?_))
  exact List.map_congr_left fun j hj => by rw [h j (List.mem_range.mp hj)]

theorem length_convOut {hist x : List (Row α channels)} :
    (convOut silu weight bias k hist x).length = x.length := by
  rw [convOut, List.length_map, List.length_range]

/-- The outputs of two stretches: the second one's history is the last rows of the first's. -/
theorem convOut_append {hist x y : List (Row α channels)}
    (hhist : hist.length = k - 1) :
    convOut silu weight bias k hist (x ++ y)
      = convOut silu weight bias k hist x
        ++ convOut silu weight bias k ((hist ++ x).drop x.length) y := by
  unfold convOut
  rw [List.length_append, List.range_add, List.map_append, List.map_map]
  congr 1
  · refine List.map_congr_left fun i hi => convRow_congr fun j hj => ?_
    have := List.mem_range.mp hi
    rw [← List.append_assoc]
    exact rowAt_append_left (by rw [List.length_append]; omega)
  · refine List.map_congr_left fun i _ => convRow_congr fun j _ => ?_
    have hle : x.length ≤ (hist ++ x).length := by
      rw [List.length_append]
      omega
    rw [← List.drop_append_of_le_length hle, rowAt_drop, List.append_assoc, ← Nat.add_assoc]

/-- A call, by its windows. -/
theorem convCall_eq {h : History α n channels} {x : List (Row α channels)} {skipHist : Bool}
    (hn : k - 1 ≤ n) :
    convCall silu weight bias n k skipHist h x
      = if hok : k ≠ 0 ∧ n ≤ (h.rows.drop (n - (k - 1)) ++ x).length then
          if weight.length = channels * k ∧ (bias = [] ∨ bias.length = channels) then
            some (convOut silu weight bias k (h.rows.drop (n - (k - 1))) x,
              History.last (h.rows.drop (n - (k - 1)) ++ x) hok.2)
          else none
        else none := by
  unfold convCall
  dsimp only
  split
  next hok =>
    have hhist : (h.rows.drop (n - (k - 1))).length = k - 1 := by
      rw [List.length_drop, h.rows_length]
      omega
    have htail := @conv_tail α _ channels k silu weight bias _ x hhist skipHist
    have hpair := congrArg (Option.map fun out =>
      (out, History.last (h.rows.drop (n - (k - 1)) ++ x) hok.2)) htail
    rw [Option.map_map] at hpair
    refine hpair.trans ?_
    split <;> rfl
  next => rfl

/-- **The convolution may be cut anywhere**, with as many rows kept as there are taps or one
less. -/
theorem stage_conv (hlow : k - 1 ≤ n) (hhigh : n ≤ k) (skipHist : Bool) :
    Stage (@convCall α _ channels silu weight bias n k skipHist) where
  length h x out h' hcall := by
    rw [convCall_eq hlow] at hcall
    split at hcall
    · split at hcall
      · cases hcall
        exact length_convOut
      · cases hcall
    · cases hcall
  split h x y hx hy := by
    have hxlen := List.length_pos_of_ne_nil hx
    have hylen := List.length_pos_of_ne_nil hy
    unfold Call.followed
    rw [convCall_eq hlow, convCall_eq hlow]
    set hist := h.rows.drop (n - (k - 1)) with hhist
    have hlen : hist.length = k - 1 := by
      rw [hhist, List.length_drop, h.rows_length]
      omega
    by_cases hk : k = 0
    · rw [dif_neg fun hok => hok.1 hk, dif_neg fun hok => hok.1 hk]
      rfl
    have hwhole : n ≤ (hist ++ (x ++ y)).length := by
      simp only [List.length_append]
      omega
    have hfirst : n ≤ (hist ++ x).length := by
      simp only [List.length_append]
      omega
    rw [dif_pos ⟨hk, hwhole⟩, dif_pos ⟨hk, hfirst⟩]
    by_cases hw : weight.length = channels * k ∧ (bias = [] ∨ bias.length = channels)
    · simp only [if_pos hw, Option.bind_some, convCall_eq hlow]
      -- what the first call keeps has the second one's history at its end
      have hkept : (History.last (hist ++ x) hfirst).rows.drop (n - (k - 1))
          = (hist ++ x).drop x.length := by
        show ((hist ++ x).drop ((hist ++ x).length - n)).drop (n - (k - 1)) = _
        rw [List.drop_drop]
        congr 1
        rw [List.length_append]
        omega
      have hsecond : n ≤ ((hist ++ x).drop x.length ++ y).length := by
        rw [List.length_append, List.length_drop, List.length_append]
        omega
      simp only [hkept]
      rw [dif_pos ⟨hk, hsecond⟩, Option.map_some, convOut_append hlen]
      refine congrArg some (Prod.ext rfl (History.ext ?_))
      show (hist ++ (x ++ y)).drop _ = ((hist ++ x).drop x.length ++ y).drop _
      have hle : x.length ≤ (hist ++ x).length := by
        rw [List.length_append]
        omega
      rw [← List.drop_append_of_le_length hle, List.drop_drop, ← List.append_assoc]
      congr 1
      simp only [List.length_append, List.length_drop]
      omega
    · rw [if_neg hw, if_neg hw]
      rfl

end

end Colibri.Mixer
