import Mathlib.Tactic.NormNum
import Colibri.Lib.Blocks
import Colibri.Lib.Vectors
import Colibri.Lib.Walsh

/-!
# The rotation of the indexer's activations

`hadamard_rotate` runs stages of butterflies over a row in place. Before the stage with
distance `2 ^ m`, every block of `2 ^ m` entries holds its own Walsh transform
(`stages_spec`), so the row ends as its product with the matrix of signs, scaled
(`hadamardRotate_walsh`). The scale is what the source computes as `n ^ -0.5`.

A loop that does not end, or an index out of range, is none.

`hadamardRotate_rows` is the same for a buffer of rows. `dot_rotated` is what the Indexer relies on:
the rotation keeps inner products, up to the square of the scale.
-/

namespace Colibri.Dsv4

open Walsh Vectors Blocks

section

variable {α : Type} [CommRing α]

/-- `for j in i..i + h`: the butterflies of a block. -/
def butterflies (h i : Nat) (row : List α) : Option (List α) :=
  (List.range h).foldlM (fun row k => do
    let j := i + k
    let a ← row[j]?
    let b ← row[j + h]?
    some ((row.set j (a + b)).set (j + h) (a - b))) row

/-- `while i < n`: the blocks of a stage. -/
def blocksFrom (n h : Nat) : Nat → Nat → List α → Option (List α)
  | 0, _, _ => none
  | fuel + 1, i, row =>
    if i < n then do
      let row ← butterflies h i row
      blocksFrom n h fuel (i + 2 * h) row
    else some row

/-- `while h < n`: the stages. -/
def stagesFrom (n : Nat) : Nat → Nat → List α → Option (List α)
  | 0, _, _ => none
  | fuel + 1, h, row =>
    if h < n then do
      let row ← blocksFrom n h (n + 1) 0 row
      stagesFrom n fuel (2 * h) row
    else some row

/-- `hadamard_rotate`, with `s` for the scale: every whole row of length `n`. -/
def hadamardRotate (s : α) (x : List α) (n : Nat) : Option (List α) := do
  let rows ← (List.range (x.length / n)).mapM fun r => do
    let row ← stagesFrom n (n + 1) 1 ((x.drop (r * n)).take n)
    some (row.map fun v => v * s)
  some (rows.flatten ++ x.drop (x.length / n * n))

/-! ## The stages -/

omit [CommRing α] in
theorem set_tab {n j : Nat} (f : Nat → α) (v : α) :
    (tab n f).set j v = tab n fun i => if i = j then v else f i := by
  refine List.ext_getElem (by rw [List.length_set, length_tab, length_tab]) fun i h₁ h₂ => ?_
  rw [length_tab] at h₂
  rw [List.getElem_set]
  simp only [tab, List.getElem_map, List.getElem_range]
  by_cases hij : j = i
  · rw [if_pos hij, if_pos hij.symm]
  · rw [if_neg hij, if_neg fun h => hij h.symm]

omit [CommRing α] in
theorem getElem?_tab {n j : Nat} (f : Nat → α) (hj : j < n) : (tab n f)[j]? = some (f j) := by
  rw [tab, List.getElem?_map, List.getElem?_range hj, Option.map_some]

/-- A block after its butterflies. -/
theorem butterflies_tab {n h i : Nat} (f : Nat → α) (hi : i + 2 * h ≤ n) :
    butterflies h i (tab n f) = some (tab n fun p =>
      if i ≤ p ∧ p < i + h then f p + f (p + h)
      else if i + h ≤ p ∧ p < i + h + h then f (p - h) - f p else f p) := by
  -- after `k` of them
  have hrun : ∀ k ≤ h, (List.range k).foldlM (fun row k => do
      let j := i + k
      let a ← row[j]?
      let b ← row[j + h]?
      some ((row.set j (a + b)).set (j + h) (a - b))) (tab n f)
      = some (tab n fun p =>
        if i ≤ p ∧ p < i + k then f p + f (p + h)
        else if i + h ≤ p ∧ p < i + h + k then f (p - h) - f p else f p) := by
    intro k hk
    induction k with
    | zero =>
      refine congrArg some (tab_congr fun p _ => ?_)
      rw [if_neg (by omega), if_neg (by omega)]
    | succ k ih =>
      rw [List.range_succ, List.foldlM_append, ih (by omega)]
      simp only [Option.bind_eq_bind, Option.bind_some, List.foldlM_cons, List.foldlM_nil]
      rw [getElem?_tab _ (by omega), getElem?_tab _ (by omega)]
      simp only [Option.bind_some]
      rw [set_tab, set_tab]
      refine congrArg some (tab_congr fun p _ => ?_)
      -- the two entries of this butterfly are as they were
      rw [if_neg (by omega : ¬ (i ≤ i + k ∧ i + k < i + k)),
        if_neg (by omega : ¬ (i + h ≤ i + k ∧ i + k < i + h + k)),
        if_neg (by omega : ¬ (i ≤ i + k + h ∧ i + k + h < i + k)),
        if_neg (by omega : ¬ (i + h ≤ i + k + h ∧ i + k + h < i + h + k))]
      by_cases hhigh : p = i + k + h
      · have hlow : i + k + h - h = i + k := by omega
        rw [if_pos hhigh, if_neg (by omega), if_pos (by omega), hhigh, hlow]
      · rw [if_neg hhigh]
        by_cases hlow : p = i + k
        · rw [if_pos hlow, if_pos (by omega), hlow]
        · rw [if_neg hlow]
          by_cases hsum : i ≤ p ∧ p < i + k
          · rw [if_pos hsum, if_pos (by omega)]
          · rw [if_neg hsum]
            by_cases hdiff : i + h ≤ p ∧ p < i + h + k
            · rw [if_pos hdiff, if_neg (by omega), if_pos (by omega)]
            · rw [if_neg hdiff, if_neg (by omega), if_neg (by omega)]
  exact hrun h (Nat.le_refl h)

/-- The blocks from a multiple of `2 * h` on are joined, those before are left. -/
theorem blocksFrom_tab {n h : Nat} (hh : 0 < h) (c : Nat) (f : Nat → α) {fuel q : Nat}
    (hend : q * (2 * h) + c * (2 * h) = n) (hfuel : c < fuel) :
    blocksFrom n h fuel (q * (2 * h)) (tab n f)
      = some (tab n fun p => if p < q * (2 * h) then f p else stage h f p) := by
  induction c generalizing f fuel q with
  | zero =>
    obtain ⟨fuel, rfl⟩ := Nat.exists_eq_succ_of_ne_zero (Nat.ne_of_gt hfuel)
    rw [blocksFrom, if_neg (by omega)]
    refine congrArg some (tab_congr fun p hp => ?_)
    rw [if_pos (by omega)]
  | succ c ih =>
    obtain ⟨fuel, rfl⟩ := Nat.exists_eq_succ_of_ne_zero (Nat.ne_of_gt (Nat.lt_of_le_of_lt
      (Nat.zero_le _) hfuel))
    have hmore : (c + 1) * (2 * h) = c * (2 * h) + 2 * h := Nat.succ_mul _ _
    have hnext : (q + 1) * (2 * h) = q * (2 * h) + 2 * h := Nat.succ_mul _ _
    rw [blocksFrom, if_pos (by omega), butterflies_tab f (by omega), Option.bind_eq_bind,
      Option.bind_some, ← hnext, ih _ (by omega) (by omega)]
    refine congrArg some (tab_congr fun p _ => ?_)
    generalize hi : q * (2 * h) = i at *
    rw [hnext]
    by_cases hpast : p < i
    · rw [if_pos hpast, if_pos (by omega), if_neg (by omega), if_neg (by omega)]
    · rw [if_neg hpast]
      by_cases hhere : p < i + 2 * h
      · -- in the block just joined
        have hmod : p % (2 * h) = p - i := by
          have hp : p = 2 * h * q + (p - i) := by
            rw [Nat.mul_comm, hi]
            omega
          rw [hp, Nat.mul_add_mod, Nat.mod_eq_of_lt (by omega)]
          omega
        rw [if_pos hhere, stage, hmod]
        by_cases hlow : p < i + h
        · rw [if_pos (by omega), if_pos (by omega)]
        · rw [if_neg (by omega), if_pos (by omega), if_neg (by omega)]
      · -- past it, where entry and partner are as they were
        have hmul : p / (2 * h) * (2 * h) + p % (2 * h) = p := Nat.div_add_mod' _ _
        have hblock : i + 2 * h ≤ p / (2 * h) * (2 * h) := by
          rw [← hnext]
          refine Nat.mul_le_mul_right _ ((Nat.le_div_iff_mul_le (by omega)).mpr ?_)
          rw [hnext]
          omega
        rw [if_neg hhere, stage, stage]
        split
        · rw [if_neg (by omega), if_neg (by omega), if_neg (by omega), if_neg (by omega)]
        · rw [if_neg (by omega), if_neg (by omega), if_neg (by omega), if_neg (by omega)]

/-- **The stages from distance `2 ^ k` on** end with the transform of the row. -/
theorem stagesFrom_tab {k m : Nat} (hk : k ≤ m) (f : Nat → α) {fuel : Nat} (hfuel : m - k < fuel) :
    stagesFrom (2 ^ m) fuel (2 ^ k) (tab (2 ^ m) (blockTransform k f))
      = some (tab (2 ^ m) (transform m f)) := by
  obtain ⟨c, hc⟩ : ∃ c, k + c = m := ⟨m - k, by omega⟩
  induction c generalizing k fuel with
  | zero =>
    obtain ⟨fuel, rfl⟩ := Nat.exists_eq_succ_of_ne_zero (Nat.ne_of_gt (Nat.lt_of_le_of_lt
      (Nat.zero_le _) hfuel))
    obtain rfl : k = m := by omega
    rw [stagesFrom, if_neg (Nat.lt_irrefl _)]
    exact congrArg some (tab_congr fun p hp => blockTransform_of_lt f hp)
  | succ c ih =>
    obtain ⟨fuel, rfl⟩ := Nat.exists_eq_succ_of_ne_zero (Nat.ne_of_gt (Nat.lt_of_le_of_lt
      (Nat.zero_le _) hfuel))
    have hlt : 2 ^ k < 2 ^ m := Nat.pow_lt_pow_right (by decide) (by omega)
    have htwo : 2 * 2 ^ k = 2 ^ (k + 1) := by rw [Nat.pow_succ, Nat.mul_comm]
    have hall : 0 * (2 * 2 ^ k) + 2 ^ c * (2 * 2 ^ k) = 2 ^ m := by
      rw [Nat.zero_mul, Nat.zero_add, htwo, ← Nat.pow_add]
      congr 1
      omega
    have hfew : 2 ^ c < 2 ^ m + 1 :=
      Nat.lt_succ_of_le (Nat.pow_le_pow_right (by decide) (by omega))
    have hstage := blocksFrom_tab (Nat.two_pow_pos k) (2 ^ c) (blockTransform k f) hall hfew
    rw [Nat.zero_mul] at hstage
    have hjoin : tab (2 ^ m) (fun p => if p < 0 then blockTransform k f p
        else stage (2 ^ k) (blockTransform k f) p) = tab (2 ^ m) (blockTransform (k + 1) f) :=
      tab_congr fun p _ => by rw [if_neg (Nat.not_lt_zero p), stage_blockTransform]
    rw [stagesFrom, if_pos hlt, hstage, hjoin, Option.bind_eq_bind, Option.bind_some, htwo]
    exact ih (by omega) (by omega) (by omega)

/-- All stages on one row are the transform of the row. -/
theorem stagesFrom_row (m : Nat) {row : List α} (hrow : row.length = 2 ^ m) :
    stagesFrom (2 ^ m) (2 ^ m + 1) 1 row
      = some (tab (2 ^ m) (transform m fun j => row.getD j 0)) := by
  have hfuel : m - 0 < 2 ^ m + 1 := Nat.lt_succ_of_lt Nat.lt_two_pow_self
  have hrun := stagesFrom_tab (Nat.zero_le m) (fun j => row.getD j 0) hfuel
  have hstart : tab (2 ^ m) (blockTransform 0 fun j => row.getD j 0) = row := by
    rw [eq_tab hrow 0]
    exact tab_congr fun p _ => by rw [blockTransform_zero, ← eq_tab hrow 0]
  rwa [hstart] at hrun

/-! ## The rotation -/

/-- **Every row is multiplied with the matrix of signs**, and scaled. -/
theorem hadamardRotate_rows (s : α) (m rows : Nat) {x : List α} (hx : x.length = rows * 2 ^ m) :
    hadamardRotate s x (2 ^ m) = some (blocks rows fun r =>
      tab (2 ^ m) fun i => transform m (fun j => x.getD (r * 2 ^ m + j) 0) i * s) := by
  have hcount : x.length / 2 ^ m = rows := by
    rw [hx, Nat.mul_div_cancel _ (Nat.two_pow_pos m)]
  have hall : ((List.range rows).mapM fun r =>
      (stagesFrom (2 ^ m) (2 ^ m + 1) 1 ((x.drop (r * 2 ^ m)).take (2 ^ m))).bind fun row =>
        some (row.map fun v => v * s))
      = some ((List.range rows).map fun r =>
        tab (2 ^ m) fun i => transform m (fun j => x.getD (r * 2 ^ m + j) 0) i * s) := by
    refine mapM_eq_map fun r hr => ?_
    have hle := Nat.mul_le_mul_right (2 ^ m) (List.mem_range.mp hr)
    rw [Nat.succ_mul] at hle
    have hrow : ((x.drop (r * 2 ^ m)).take (2 ^ m)).length = 2 ^ m := by
      rw [List.length_take, List.length_drop]
      omega
    rw [stagesFrom_row m hrow, Option.bind_some, map_tab]
    refine congrArg some (tab_congr fun i _ => congrArg (· * s) (Finset.sum_congr rfl fun j hj => ?_))
    dsimp only
    rw [List.getD_eq_getElem?_getD, List.getElem?_take_of_lt (Finset.mem_range.mp hj),
      List.getElem?_drop, ← List.getD_eq_getElem?_getD]
  unfold hadamardRotate
  simp only [hcount, hall, Option.bind_eq_bind, Option.bind_some]
  rw [← hx, List.drop_length, List.append_nil, blocks, List.flatMap_def]

theorem hadamardRotate_vector (s : α) (m : Nat) {x : List α} (hx : x.length = 2 ^ m) :
    hadamardRotate s x (2 ^ m)
      = some (tab (2 ^ m) fun i => transform m (fun j => x.getD j 0) i * s) := by
  rw [hadamardRotate_rows s m 1 (hx.trans (Nat.one_mul _).symm), blocks_succ]
  refine congrArg some (tab_congr fun i _ => ?_)
  simp only [Nat.zero_mul, Nat.zero_add]

/-- The inner product of two vectors. -/
def dot (a b : List α) : α := (List.zipWith (· * ·) a b).sum

/-- The inner product of rotated vectors. -/
theorem dot_rotated (s : α) (m : Nat) {q k : List α} (hq : q.length = 2 ^ m)
    (hk : k.length = 2 ^ m) :
    dot (tab (2 ^ m) fun i => transform m (fun j => q.getD j 0) i * s)
        (tab (2 ^ m) fun i => transform m (fun j => k.getD j 0) i * s)
      = s * s * 2 ^ m * dot q k := by
  have hplain : dot q k = ∑ i ∈ Finset.range (2 ^ m), q.getD i 0 * k.getD i 0 := by
    rw [dot]
    conv_lhs => rw [eq_tab hq 0, eq_tab hk 0, zipWith_tab, sum_tab]
  have hpull : ∀ i ∈ Finset.range (2 ^ m),
      transform m (fun j => q.getD j 0) i * s * (transform m (fun j => k.getD j 0) i * s)
      = s * s * (transform m (fun j => q.getD j 0) i * transform m (fun j => k.getD j 0) i) :=
    fun i _ => by ring
  rw [dot, zipWith_tab, sum_tab, Finset.sum_congr rfl hpull, ← Finset.mul_sum, transform_inner,
    hplain, mul_assoc (s * s)]

/-- **`hadamard_rotate` is the product with the matrix of signs.** It returns; entry `i` is the
sum of the entries, each with the sign of its index and `i`, scaled; and rotating query and
key multiplies their inner product by `s * s * n`, which is one for the scale of the source. -/
theorem hadamardRotate_walsh (s : α) (m : Nat) {q k : List α} (hq : q.length = 2 ^ m)
    (hk : k.length = 2 ^ m) :
    ∃ q' k', hadamardRotate s q (2 ^ m) = some q' ∧ hadamardRotate s k (2 ^ m) = some k' ∧
      q'.length = 2 ^ m ∧
      (∀ i < 2 ^ m, q'[i]?
        = some ((∑ j ∈ Finset.range (2 ^ m), (-1) ^ popcount (i &&& j) * q.getD j 0) * s)) ∧
      dot q' k' = s * s * 2 ^ m * dot q k ∧ (s * s * 2 ^ m = 1 → dot q' k' = dot q k) := by
  have hdot := dot_rotated s m hq hk
  refine ⟨_, _, hadamardRotate_vector s m hq, hadamardRotate_vector s m hk, length_tab _ _,
    fun i hi => getElem?_tab _ hi, hdot, fun hs => ?_⟩
  rw [hdot, hs, one_mul]

end

/-- Four entries, where the scale is a half. -/
theorem hadamardRotate_four :
    ∃ q' k', hadamardRotate (1 / 2 : ℚ) [3, 1, 4, 1] 4 = some q' ∧
      hadamardRotate (1 / 2 : ℚ) [2, 7, 1, 8] 4 = some k' ∧ dot q' k' = 25 := by
  obtain ⟨q', k', hq, hk, -, -, -, hdot⟩ :=
    hadamardRotate_walsh (1 / 2 : ℚ) 2 (q := [3, 1, 4, 1]) (k := [2, 7, 1, 8]) rfl rfl
  refine ⟨q', k', hq, hk, ?_⟩
  rw [hdot (by norm_num)]
  norm_num [dot]

end Colibri.Dsv4
