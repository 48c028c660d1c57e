import Colibri.Config
import Colibri.Lib.Blocks

/-!
# Which keys a V4 query attends to

The cache an attention call assembles is `nRaw` raw rows from position `rawLo`
on, then the compressed rows. `key_indices` lists, for each query, the indices
of its keys in that cache: the raw window, then the selected compressed blocks,
both padded to a common stride with `-1`.

Three coordinate systems meet in it. `Key` is the one they are compared in: an
absolute raw position, or a block number. `rowKeys` reads a row of indices back
into keys, and `keyRow_spec` says which keys the row of position `p` lists.

The indices are stored as `i32`, so the last lemma needs the assembled cache to
have at most `2^31` rows.

`keyRow_eq` writes a row out, `keyIndices_rows` takes a property of every row to the whole list, and
`keyIndices_spec` is what the attention uses. `keyIndices_below` is the part that needs no bound on
the cache.
-/

namespace Colibri.Dsv4

open Colibri.Blocks

/-- The indices of the query at position `p`. The panics are a window wider than
the row, an index below the first row (`usize` underflow), and a selection that
does not fit the stride. -/
def keyRow (win winW topk p rawLo nRaw : Nat) (sel : List Nat) : Option (List Int) :=
  let wcount := min win (p + 1)
  let wstart := (p + 1) - wcount
  if topk < wcount then none
  else if 0 < wcount ∧ wstart < rawLo then none
  else if topk < winW + sel.length then none
  else
    let row := setAll (List.replicate topk (-1)) 0 wcount (fun k => asI32 (wstart + k - rawLo : Nat))
    some (setAll row winW sel.length (fun k => asI32 (nRaw + sel.getD k 0 : Nat)))

/-- A fallible function on every index below `n`. -/
def rowsM {γ : Type} (f : Nat → Option γ) : Nat → Option (List γ)
  | 0 => some []
  | n + 1 =>
    match rowsM f n, f n with
    | some rows, some row => some (rows ++ [row])
    | _, _ => none

/-- Rows that can all be built are built, one for each index. -/
theorem rowsM_spec {γ : Type} {f : Nat → Option γ} {P : Nat → γ → Prop} (n : Nat)
    (h : ∀ i, i < n → ∃ row, f i = some row ∧ P i row) :
    ∃ rows, rowsM f n = some rows ∧ rows.length = n ∧
      ∀ i row, rows[i]? = some row → P i row := by
  induction n with
  | zero => exact ⟨[], rfl, rfl, fun i row hr => by simp at hr⟩
  | succ n ih =>
    obtain ⟨rows, hrows, hlen, hall⟩ := ih (fun i hi => h i (Nat.lt_succ_of_lt hi))
    obtain ⟨row, hrow, hP⟩ := h n (Nat.lt_succ_self n)
    refine ⟨rows ++ [row], by rw [rowsM, hrows, hrow], ?_, ?_⟩
    · rw [List.length_append, hlen]
      rfl
    · intro i r hr
      by_cases hi : i < n
      · rw [List.getElem?_append_left (by omega)] at hr
        exact hall i r hr
      · rw [List.getElem?_append_right (by omega), hlen] at hr
        have hlt := (List.getElem?_eq_some_iff.mp hr).1
        have he : i = n := by
          rw [List.length_singleton] at hlt
          omega
        subst he
        rw [Nat.sub_self] at hr
        cases hr
        exact hP

/-- `key_indices`: a row of indices for each of the `s` queries, and the
stride. -/
def keyIndices (win total posBase s rawLo nRaw : Nat) (sel : List (List Nat)) :
    Option (List (List Int) × Nat) :=
  let winW := min win total
  let compW := (sel.map List.length).foldr max 0
  let topk := winW + compW
  (rowsM (fun i =>
    match sel[i]? with
    | none => none
    | some v => keyRow win winW topk (posBase + i) rawLo nRaw v) s).map (fun rows => (rows, topk))

/-! ## Reading the indices back -/

/-- A key: the raw row of an absolute position, or a compressed block. -/
inductive Key where
  | raw (pos : Nat)
  | block (t : Nat)
  deriving Repr, DecidableEq

/-- The key an index of the assembled cache stands for; a negative index is
masked. -/
def keyOf (rawLo nRaw : Nat) (i : Int) : Option Key :=
  if i < 0 then none
  else if i.toNat < nRaw then some (.raw (rawLo + i.toNat)) else some (.block (i.toNat - nRaw))

/-- The keys of a row of indices, in order. -/
def rowKeys (rawLo nRaw : Nat) (row : List Int) : List Key := row.filterMap (keyOf rawLo nRaw)

/-- The keys of position `p`: its raw window, then the blocks `sel`. -/
def keysOf (win p : Nat) (sel : List Nat) : List Key :=
  (List.range' ((p + 1) - min win (p + 1)) (min win (p + 1))).map Key.raw ++ sel.map Key.block

/-- An index that is masked or inside the assembled cache. -/
def ValidIndex (rows : Nat) (i : Int) : Prop := i = -1 ∨ (0 ≤ i ∧ i < (rows : Nat))

private theorem filterMap_masked (rawLo nRaw n : Nat) :
    (List.replicate n (-1 : Int)).filterMap (keyOf rawLo nRaw) = [] := by
  rw [List.filterMap_eq_nil_iff]
  intro i hi
  rw [List.eq_of_mem_replicate hi]
  rfl

private theorem filterMap_map_some {γ δ ε : Type} {f : γ → δ} {g : δ → Option ε} {h : γ → ε}
    {l : List γ} (hl : ∀ x ∈ l, g (f x) = some (h x)) : (l.map f).filterMap g = l.map h := by
  induction l with
  | nil => rfl
  | cons x l ih =>
    rw [List.map_cons, List.filterMap_cons_some (hl x List.mem_cons_self), List.map_cons,
      ih (fun y hy => hl y (List.mem_cons_of_mem x hy))]

variable {rawLo nRaw win nComp : Nat}

theorem keyOf_raw {i : Nat} (h : i < nRaw) (hfit : i < 2147483648) :
    keyOf rawLo nRaw (asI32 i) = some (.raw (rawLo + i)) := by
  rw [asI32_of_lt hfit, keyOf, if_neg (Int.not_lt.mpr (Int.natCast_nonneg i)), Int.toNat_natCast,
    if_pos h]

theorem keyOf_block {t : Nat} (hfit : nRaw + t < 2147483648) :
    keyOf rawLo nRaw (asI32 (nRaw + t : Nat)) = some (.block t) := by
  rw [asI32_of_lt hfit, keyOf, if_neg (Int.not_lt.mpr (Int.natCast_nonneg _)), Int.toNat_natCast,
    if_neg (by omega), Nat.add_sub_cancel_left]

/-- The row written out: window, padding, selection, padding. -/
theorem keyRow_eq {winW compW p : Nat} {sel : List Nat}
    (hwin : min win (p + 1) ≤ winW) (hlo : rawLo ≤ (p + 1) - min win (p + 1))
    (hsel : sel.length ≤ compW) :
    keyRow win winW (winW + compW) p rawLo nRaw sel = some
      ((List.range (min win (p + 1))).map
          (fun k => asI32 ((p + 1) - min win (p + 1) + k - rawLo : Nat))
        ++ List.replicate (winW - min win (p + 1)) (-1)
        ++ sel.map (fun t => asI32 (nRaw + t : Nat))
        ++ List.replicate (compW - sel.length) (-1)) := by
  have hrow : setAll (List.replicate (winW + compW) (-1 : Int)) 0 (min win (p + 1))
      (fun k => asI32 ((p + 1) - min win (p + 1) + k - rawLo : Nat))
      = (List.range (min win (p + 1))).map
          (fun k => asI32 ((p + 1) - min win (p + 1) + k - rawLo : Nat))
        ++ List.replicate (winW - min win (p + 1) + compW) (-1) := by
    have := setAll_append ([] : List Int) (List.replicate (min win (p + 1)) (-1))
      (List.replicate (winW - min win (p + 1) + compW) (-1))
      (fun k => asI32 ((p + 1) - min win (p + 1) + k - rawLo : Nat))
    rw [List.nil_append, List.length_replicate, List.nil_append, List.replicate_append_replicate,
      show min win (p + 1) + (winW - min win (p + 1) + compW) = winW + compW by omega] at this
    exact this
  have hsplit : List.replicate (winW - min win (p + 1) + compW) (-1 : Int)
      = List.replicate (winW - min win (p + 1)) (-1)
        ++ (List.replicate sel.length (-1) ++ List.replicate (compW - sel.length) (-1)) := by
    rw [List.replicate_append_replicate, List.replicate_append_replicate]
    congr 1
    omega
  have hmap : (List.range sel.length).map (fun k => asI32 (nRaw + sel.getD k 0 : Nat))
      = sel.map (fun t => asI32 (nRaw + t : Nat)) := by
    apply List.ext_getElem?
    intro i
    by_cases hi : i < sel.length
    · rw [List.getElem?_map, List.getElem?_range hi, List.getElem?_map,
        List.getElem?_eq_getElem hi, Option.map_some, Option.map_some,
        List.getD_eq_getElem?_getD, List.getElem?_eq_getElem hi, Option.getD_some]
    · rw [List.getElem?_eq_none, List.getElem?_eq_none]
      · rw [List.length_map]
        omega
      · rw [List.length_map, List.length_range]
        omega
  have hset := setAll_append
    ((List.range (min win (p + 1))).map
        (fun k => asI32 ((p + 1) - min win (p + 1) + k - rawLo : Nat))
      ++ List.replicate (winW - min win (p + 1)) (-1))
    (List.replicate sel.length (-1)) (List.replicate (compW - sel.length) (-1))
    (fun k => asI32 (nRaw + sel.getD k 0 : Nat))
  rw [List.length_append, List.length_map, List.length_range, List.length_replicate,
    List.length_replicate, hmap, show min win (p + 1) + (winW - min win (p + 1)) = winW by omega]
    at hset
  rw [keyRow]
  dsimp only
  rw [if_neg (by omega), if_neg (by omega), if_neg (by omega), hrow, hsplit,
    ← List.append_assoc, ← List.append_assoc, hset]

/-- **The row of a query**: if its window starts inside the assembled raw rows
and the cache has at most `2^31` rows, the indices list the window and the
selected blocks, and each is masked or inside the cache. -/
theorem keyRow_spec {winW compW p : Nat} {sel : List Nat}
    (hwin : min win (p + 1) ≤ winW) (hlo : rawLo ≤ (p + 1) - min win (p + 1))
    (hhi : p + 1 ≤ rawLo + nRaw) (hlen : sel.length ≤ compW) (hsel : ∀ t ∈ sel, t < nComp)
    (hfit : nRaw + nComp ≤ 2147483648) :
    ∃ row, keyRow win winW (winW + compW) p rawLo nRaw sel = some row ∧
      rowKeys rawLo nRaw row = keysOf win p sel ∧
      ∀ i ∈ row, ValidIndex (nRaw + nComp) i := by
  have hwindow : ∀ k, k < min win (p + 1) →
      (p + 1) - min win (p + 1) + k - rawLo < nRaw := fun k hk => by omega
  have hblock : ∀ t ∈ sel, nRaw + t < nRaw + nComp :=
    fun t ht => Nat.add_lt_add_left (hsel t ht) nRaw
  refine ⟨_, keyRow_eq hwin hlo hlen, ?_, ?_⟩
  · rw [rowKeys, List.filterMap_append, List.filterMap_append, List.filterMap_append,
      filterMap_masked, filterMap_masked, List.append_nil, List.append_nil, keysOf,
      List.range'_eq_map_range, List.map_map]
    rw [filterMap_map_some (h := Key.raw ∘ fun k => (p + 1) - min win (p + 1) + k),
      filterMap_map_some (h := Key.block)]
    · exact fun t ht => keyOf_block (Nat.lt_of_lt_of_le (hblock t ht) hfit)
    · intro k hk
      rw [List.mem_range] at hk
      have hlt := hwindow k hk
      rw [keyOf_raw hlt (by omega), Function.comp_apply]
      rw [Nat.add_sub_cancel' (show rawLo ≤ (p + 1) - min win (p + 1) + k by omega)]
  · intro i hi
    rcases List.mem_append.mp hi with hi | hi
    · rcases List.mem_append.mp hi with hi | hi
      · rcases List.mem_append.mp hi with hi | hi
        · obtain ⟨k, hk, rfl⟩ := List.mem_map.mp hi
          rw [List.mem_range] at hk
          have hlt := hwindow k hk
          rw [asI32_of_lt (by omega)]
          exact Or.inr ⟨Int.natCast_nonneg _, Int.ofNat_lt.mpr (by omega)⟩
        · exact Or.inl (List.eq_of_mem_replicate hi)
      · obtain ⟨t, ht, rfl⟩ := List.mem_map.mp hi
        have hlt := hblock t ht
        rw [asI32_of_lt (Nat.lt_of_lt_of_le hlt hfit)]
        exact Or.inr ⟨Int.natCast_nonneg _, Int.ofNat_lt.mpr hlt⟩
    · exact Or.inl (List.eq_of_mem_replicate hi)

private theorem le_foldr_max {l : List Nat} {x : Nat} (h : x ∈ l) : x ≤ l.foldr max 0 := by
  induction l with
  | nil => exact absurd h List.not_mem_nil
  | cons y l ih =>
    rw [List.foldr_cons]
    rcases List.mem_cons.mp h with rfl | h
    · exact Nat.le_max_left _ _
    · exact Nat.le_trans (ih h) (Nat.le_max_right _ _)

/-- Without a bound on the cache, an index may wrap to a negative number, but
none lies past the end. -/
theorem keyRow_below {winW compW p : Nat} {sel : List Nat}
    (hwin : min win (p + 1) ≤ winW) (hlo : rawLo ≤ (p + 1) - min win (p + 1))
    (hhi : p + 1 ≤ rawLo + nRaw) (hlen : sel.length ≤ compW) (hsel : ∀ t ∈ sel, t < nComp) :
    ∃ row, keyRow win winW (winW + compW) p rawLo nRaw sel = some row ∧
      ∀ i ∈ row, i < ((nRaw + nComp : Nat) : Int) := by
  have hmasked : ∀ {n : Nat} {i : Int}, i ∈ List.replicate n (-1 : Int) →
      i < ((nRaw + nComp : Nat) : Int) := by
    intro n i hi
    rw [List.eq_of_mem_replicate hi]
    omega
  refine ⟨_, keyRow_eq hwin hlo hlen, fun i hi => ?_⟩
  rw [List.mem_append, List.mem_append, List.mem_append] at hi
  rcases hi with ((hi | hi) | hi) | hi
  · obtain ⟨k, hk, rfl⟩ := List.mem_map.mp hi
    rw [List.mem_range] at hk
    exact Int.lt_of_le_of_lt (asI32_le _) (Int.ofNat_lt.mpr (by omega))
  · exact hmasked hi
  · obtain ⟨t, ht, rfl⟩ := List.mem_map.mp hi
    exact Int.lt_of_le_of_lt (asI32_le _)
      (Int.ofNat_lt.mpr (Nat.add_lt_add_left (hsel t ht) nRaw))
  · exact hmasked hi

/-- A property of every query's row is one of the whole list. -/
theorem keyIndices_rows {posBase s : Nat} {sel : Nat → List Nat}
    {P : Nat → List Int → Prop}
    (h : ∀ i, i < s → ∀ compW, (sel i).length ≤ compW → ∃ row,
      keyRow win (min win (posBase + s)) (min win (posBase + s) + compW) (posBase + i) rawLo nRaw
        (sel i) = some row ∧ P i row) :
    ∃ rows topk,
      keyIndices win (posBase + s) posBase s rawLo nRaw ((List.range s).map sel)
        = some (rows, topk) ∧
      rows.length = s ∧ ∀ i row, rows[i]? = some row → P i row := by
  have hrow : ∀ i, i < s → ∃ row,
      (match ((List.range s).map sel)[i]? with
        | none => none
        | some v => keyRow win (min win (posBase + s))
            (min win (posBase + s) + (((List.range s).map sel).map List.length).foldr max 0)
            (posBase + i) rawLo nRaw v) = some row ∧ P i row := by
    intro i hi
    have hget : ((List.range s).map sel)[i]? = some (sel i) := by
      rw [List.getElem?_map, List.getElem?_range hi, Option.map_some]
    rw [hget]
    refine h i hi _ (le_foldr_max ?_)
    exact List.mem_map.mpr ⟨sel i, List.mem_map.mpr ⟨i, List.mem_range.mpr hi, rfl⟩, rfl⟩
  obtain ⟨rows, hrows, hlen, hall⟩ := rowsM_spec s hrow
  exact ⟨rows, _, by rw [keyIndices, hrows]; rfl, hlen, hall⟩

/-- The index list of any call whose windows start inside the raw rows: no
underflow, and no index past the end. -/
theorem keyIndices_below {posBase s : Nat} {sel : Nat → List Nat}
    (hlo : rawLo ≤ (posBase + 1) - min win (posBase + 1)) (hraw : rawLo + nRaw = posBase + s)
    (hsel : ∀ i, i < s → ∀ t ∈ sel i, t < nComp) :
    ∃ rows topk,
      keyIndices win (posBase + s) posBase s rawLo nRaw ((List.range s).map sel)
        = some (rows, topk) ∧
      ∀ row ∈ rows, ∀ i ∈ row, i < ((nRaw + nComp : Nat) : Int) := by
  have hrow : ∀ i, i < s → ∀ compW, (sel i).length ≤ compW → ∃ row,
      keyRow win (min win (posBase + s)) (min win (posBase + s) + compW) (posBase + i) rawLo nRaw
        (sel i) = some row ∧ ∀ j ∈ row, j < ((nRaw + nComp : Nat) : Int) := fun i hi compW hlen =>
    keyRow_below (by omega) (by omega) (by omega) hlen (hsel i hi)
  obtain ⟨rows, topk, hidx, _, hall⟩ := keyIndices_rows hrow
  refine ⟨rows, topk, hidx, fun row hr => ?_⟩
  obtain ⟨i, hi⟩ := List.mem_iff_getElem?.mp hr
  exact hall i row hi

/-- **The index list of a call**: no index underflows or leaves the assembled
cache, and the row of each query lists its window and its selected blocks. -/
theorem keyIndices_spec {posBase s : Nat} {sel : Nat → List Nat}
    (hlo : rawLo ≤ (posBase + 1) - min win (posBase + 1)) (hraw : rawLo + nRaw = posBase + s)
    (hsel : ∀ i, i < s → ∀ t ∈ sel i, t < nComp) (hfit : nRaw + nComp ≤ 2147483648) :
    ∃ rows topk,
      keyIndices win (posBase + s) posBase s rawLo nRaw ((List.range s).map sel)
        = some (rows, topk) ∧
      rows.map (rowKeys rawLo nRaw)
        = (List.range s).map (fun i => keysOf win (posBase + i) (sel i)) ∧
      ∀ row ∈ rows, ∀ i ∈ row, ValidIndex (nRaw + nComp) i := by
  have hrow : ∀ i, i < s → ∀ compW, (sel i).length ≤ compW → ∃ row,
      keyRow win (min win (posBase + s)) (min win (posBase + s) + compW) (posBase + i) rawLo nRaw
        (sel i) = some row ∧ (rowKeys rawLo nRaw row = keysOf win (posBase + i) (sel i) ∧
          ∀ j ∈ row, ValidIndex (nRaw + nComp) j) := fun i hi compW hlen =>
    keyRow_spec (by omega) (by omega) (by omega) hlen (hsel i hi) hfit
  obtain ⟨rows, topk, hidx, hlen, hall⟩ := keyIndices_rows hrow
  refine ⟨rows, topk, hidx, ?_, ?_⟩
  · apply List.ext_getElem?
    intro i
    by_cases hi : i < s
    · have hr : rows[i]? = some rows[i] := List.getElem?_eq_getElem (by omega)
      rw [List.getElem?_map, hr, List.getElem?_map, List.getElem?_range hi, Option.map_some,
        Option.map_some, (hall i _ hr).1]
    · rw [List.getElem?_eq_none, List.getElem?_eq_none]
      · rw [List.length_map, List.length_range]
        omega
      · rw [List.length_map]
        omega
  · intro row hr
    obtain ⟨i, hi⟩ := List.mem_iff_getElem?.mp hr
    exact (hall i row hi).2

end Colibri.Dsv4
