import Mathlib.Data.List.Basic

/-!
# Equal blocks in a flat list

Row-major buffers put `n` blocks of `w` entries one after another; loops write
such a buffer one index at a time. Two forms and how to read them:

* `blocks n f` is `f 0`, `f 1`, ... laid end to end. Entry `b * w + r` is entry
  `r` of block `b` (`getElem?_blocks`), and the slice from `b * w` is block `b`
  (`chunk_blocks`).
* `setAll l off n f` is the loop `for r in 0..n { l[off + r] = f r }`; what it
  leaves behind is `getElem?_setAll`.

The other way round, `chunks k l` cuts a list into pieces of length `k`, the last of which
may be shorter; laid end to end they are the list (`flatten_chunks`).
-/

namespace Colibri.Blocks

variable {α β : Type}

/-- `f 0`, ..., `f (n - 1)` end to end. -/
def blocks (n : Nat) (f : Nat → List α) : List α := (List.range n).flatMap f

theorem blocks_succ (n : Nat) (f : Nat → List α) : blocks (n + 1) f = blocks n f ++ f n := by
  rw [blocks, List.range_succ, List.flatMap_append, List.flatMap_singleton, blocks]

theorem blocks_congr {n : Nat} {f g : Nat → List α} (h : ∀ i < n, f i = g i) :
    blocks n f = blocks n g := by
  rw [blocks, blocks, List.flatMap_def, List.flatMap_def]
  exact congrArg List.flatten (List.map_congr_left fun i hi => h i (List.mem_range.mp hi))

theorem length_blocks {n w : Nat} {f : Nat → List α} (hf : ∀ i, i < n → (f i).length = w) :
    (blocks n f).length = n * w := by
  induction n with
  | zero => rw [Nat.zero_mul]; rfl
  | succ n ih =>
    rw [blocks_succ, List.length_append, ih (fun i hi => hf i (Nat.lt_succ_of_lt hi)),
      hf n (Nat.lt_succ_self n), Nat.succ_mul]

/-- The slice of a block. -/
theorem chunk_blocks {n w b : Nat} {f : Nat → List α} (hf : ∀ i, i < n → (f i).length = w)
    (hb : b < n) : ((blocks n f).drop (b * w)).take w = f b := by
  induction n with
  | zero => exact absurd hb (Nat.not_lt_zero b)
  | succ n ih =>
    have hlen := length_blocks (n := n) (f := f) (fun i hi => hf i (Nat.lt_succ_of_lt hi))
    rw [blocks_succ]
    by_cases he : b = n
    · subst he
      rw [← hlen, List.drop_left, List.take_of_length_le]
      exact Nat.le_of_eq (hf b (Nat.lt_succ_self b))
    · have hlt : b < n := by omega
      have hle : b * w + w ≤ n * w := by
        rw [← Nat.succ_mul]
        exact Nat.mul_le_mul_right w hlt
      rw [List.drop_append_of_le_length (by omega), List.take_append_of_le_length]
      · exact ih (fun i hi => hf i (Nat.lt_succ_of_lt hi)) hlt
      · rw [List.length_drop]
        omega

theorem getElem?_blocks {n w b r : Nat} {f : Nat → List α}
    (hf : ∀ i, i < n → (f i).length = w) (hb : b < n) (hr : r < w) :
    (blocks n f)[b * w + r]? = (f b)[r]? := by
  rw [← chunk_blocks hf hb, List.getElem?_take_of_lt hr, List.getElem?_drop]

/-- The slice of a block within a block. -/
theorem chunk_grid {n m w i j : Nat} {f : Nat → Nat → List α}
    (hf : ∀ i < n, ∀ j < m, (f i j).length = w) (hi : i < n) (hj : j < m) :
    ((blocks n fun i => blocks m (f i)).drop (i * (m * w) + j * w)).take w = f i j := by
  have hle : j * w + w ≤ m * w := by
    rw [← Nat.succ_mul]
    exact Nat.mul_le_mul_right w hj
  have hrow := chunk_blocks (w := m * w) (fun i hi => length_blocks (hf i hi)) hi
  rw [← chunk_blocks (hf i hi) hj, ← hrow, List.drop_take, List.take_take, List.drop_drop,
    Nat.min_eq_left (by omega)]

/-- The loop `for r in 0..n { l[off + r] = f r }`. -/
def setAll (l : List α) (off n : Nat) (f : Nat → α) : List α :=
  (List.range n).foldl (fun l r => l.set (off + r) (f r)) l

theorem setAll_succ (l : List α) (off n : Nat) (f : Nat → α) :
    setAll l off (n + 1) f = (setAll l off n f).set (off + n) (f n) := by
  rw [setAll, List.range_succ, List.foldl_append]
  rfl

@[simp] theorem length_setAll (l : List α) (off n : Nat) (f : Nat → α) :
    (setAll l off n f).length = l.length := by
  induction n with
  | zero => rfl
  | succ n ih => rw [setAll_succ, List.length_set, ih]

theorem getElem?_setAll_of_not_mem {l : List α} {off n i : Nat} {f : Nat → α}
    (h : i < off ∨ off + n ≤ i) : (setAll l off n f)[i]? = l[i]? := by
  induction n with
  | zero => rfl
  | succ n ih => rw [setAll_succ, List.getElem?_set_ne (by omega), ih (by omega)]

/-- Inside the range it leaves what it wrote. -/
theorem getElem?_setAll {l : List α} {off n r : Nat} {f : Nat → α} (hr : r < n)
    (hl : off + r < l.length) : (setAll l off n f)[off + r]? = some (f r) := by
  induction n with
  | zero => exact absurd hr (Nat.not_lt_zero r)
  | succ n ih =>
    rw [setAll_succ]
    by_cases he : r = n
    · subst he
      rw [List.getElem?_set_self (by rw [length_setAll]; exact hl)]
    · rw [List.getElem?_set_ne (by omega), ih (by omega)]

/-- The loop over the middle of a list replaces the middle. -/
theorem setAll_append (a b c : List α) (f : Nat → α) :
    setAll (a ++ b ++ c) a.length b.length f = a ++ (List.range b.length).map f ++ c := by
  apply List.ext_getElem?
  intro i
  rw [List.append_assoc, List.append_assoc]
  by_cases ha : i < a.length
  · rw [getElem?_setAll_of_not_mem (Or.inl ha), List.getElem?_append_left ha,
      List.getElem?_append_left ha]
  · obtain ⟨j, rfl⟩ : ∃ j, i = a.length + j := ⟨i - a.length, by omega⟩
    by_cases hb : j < b.length
    · rw [getElem?_setAll hb (by rw [List.length_append, List.length_append]; omega),
        List.getElem?_append_right (by omega), Nat.add_sub_cancel_left,
        List.getElem?_append_left (by rw [List.length_map, List.length_range]; exact hb),
        List.getElem?_map, List.getElem?_range hb, Option.map_some]
    · rw [getElem?_setAll_of_not_mem (Or.inr (by omega)), List.getElem?_append_right (by omega),
        List.getElem?_append_right (by omega), Nat.add_sub_cancel_left,
        List.getElem?_append_right (by omega), List.getElem?_append_right
          (by rw [List.length_map, List.length_range]; omega), List.length_map, List.length_range,
        Nat.add_sub_cancel_left]

/-- The pieces of `l` of length `k`, as `slice::chunks` cuts it. -/
def chunks (k : Nat) (l : List α) : List (List α) :=
  (List.range ((l.length + k - 1) / k)).map fun j => (l.drop (j * k)).take k

/-- The first `n` pieces are the first `n * k` entries. -/
theorem flatten_pieces (k : Nat) (l : List α) (n : Nat) :
    ((List.range n).map fun j => (l.drop (j * k)).take k).flatten = l.take (n * k) := by
  induction n with
  | zero => rw [Nat.zero_mul, List.take_zero]; rfl
  | succ n ih =>
    rw [List.range_succ, List.map_append, List.flatten_append, ih, Nat.succ_mul, List.take_add,
      List.map_singleton, List.flatten_singleton]

theorem flatten_chunks {k : Nat} (hk : 0 < k) (l : List α) : (chunks k l).flatten = l := by
  rw [chunks, flatten_pieces, List.take_of_length_le]
  have hlt := Nat.lt_div_mul_add hk (a := l.length + k - 1)
  omega

/-- What is done to each entry of each piece is done to the entries, by the piece they are
in. -/
theorem flatMap_pieces (k : Nat) (l : List α) (f : Nat → α → β) (n : Nat) :
    ((List.range n).flatMap fun j => ((l.drop (j * k)).take k).map (f j))
      = (l.take (n * k)).mapIdx fun c a => f (c / k) a := by
  induction n with
  | zero => rw [Nat.zero_mul, List.take_zero]; rfl
  | succ n ih =>
    rw [List.range_succ, List.flatMap_append, List.flatMap_singleton, ih, Nat.succ_mul,
      List.take_add, List.mapIdx_append]
    congr 1
    refine List.ext_getElem? fun c => ?_
    rw [List.getElem?_map, List.getElem?_mapIdx]
    rcases Nat.lt_or_ge c k with hc | hc
    · cases hget : ((l.drop (n * k)).take k)[c]? with
      | none => rfl
      | some a =>
        -- there is a piece, so the ones before it are whole
        rw [List.getElem?_take_of_lt hc, List.getElem?_drop] at hget
        have hlen := (List.getElem?_eq_some_iff.mp hget).1
        have hdiv : (c + (l.take (n * k)).length) / k = n := by
          rw [List.length_take, Nat.min_eq_left (by omega), Nat.add_mul_div_right _ _ (by omega),
            Nat.div_eq_of_lt hc, Nat.zero_add]
        rw [hdiv]
    · rw [List.getElem?_eq_none (by rw [List.length_take]; omega)]
      rfl

end Colibri.Blocks
