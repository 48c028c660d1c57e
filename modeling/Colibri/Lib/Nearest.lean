import Mathlib.Algebra.Order.Floor.Ring

/-!
# Rounding to a grid

A grid is a strictly increasing sequence, cut off at `n`. Two ways to round to it agree but
in the middle between two of its points: a search that keeps the first of the closest goes
down there (`RoundsDown`), the other goes to the point with the even index (`RoundsEven`).
So they differ just in the middle behind a point with an odd index (`agree_iff`).

`search` is the loop of the first kind, over any keys (`foldl_closer_map`), and `search_grid` says
what it finds. The whole numbers are a grid as well: `roundTiesEven` is the second kind there.
-/

namespace Colibri.Nearest

variable {K β : Type} [Field K] [LinearOrder K]

/-- The middle between a point and the next one. -/
def mid (g : ℕ → K) (k : ℕ) : K := (g k + g (k + 1)) / 2

/-! ## Searching a list -/

/-- A step of the search: `c` is the best if it is closer to `a` than what was. -/
def closer (a : K) (key : β → K) (best : β × Option K) (c : β) : β × Option K :=
  if best.2.all fun bd => decide (|a - key c| < bd) then (c, some |a - key c|) else best

/-- The first of the closest to `a`. -/
def search (a : K) (key : β → K) (init : β) (l : List β) : β :=
  (l.foldl (closer a key) (init, none)).1

theorem foldl_closer_map (a : K) (key : β → K) (best : β × Option K) (l : List β) :
    (l.map key).foldl (closer a id) (key best.1, best.2)
      = (key (l.foldl (closer a key) best).1, (l.foldl (closer a key) best).2) := by
  induction l generalizing best with
  | nil => rfl
  | cons c l ih =>
    rw [List.map_cons, List.foldl_cons, List.foldl_cons, ← ih]
    congr 1
    show (if best.2.all (fun bd => decide (|a - key c| < bd)) then (key c, some |a - key c|)
      else (key best.1, best.2)) = _
    unfold closer
    split
    · rfl
    · rfl

theorem key_search (a : K) (key : β → K) (init : β) (l : List β) :
    key (search a key init l) = search a id (key init) (l.map key) := by
  unfold search
  rw [foldl_closer_map a key (init, none) l]

/-- It finds one of the list, or nothing. -/
theorem search_mem (a : K) (key : β → K) (init : β) (l : List β) :
    search a key init l = init ∨ search a key init l ∈ l := by
  have hfold : ∀ (l : List β) (best : β × Option K),
      (l.foldl (closer a key) best).1 = best.1 ∨ (l.foldl (closer a key) best).1 ∈ l := by
    intro l
    induction l with
    | nil => exact fun _ => .inl rfl
    | cons c l ih =>
      intro best
      rw [List.foldl_cons]
      rcases ih (closer a key best c) with h | h
      · rw [h]
        unfold closer
        split
        · exact .inr (List.mem_cons_self ..)
        · exact .inl rfl
      · exact .inr (List.mem_cons_of_mem _ h)
  exact hfold l (init, none)

/-! ## Two ways to round -/

/-- In the middle, down. -/
structure RoundsDown (g : ℕ → K) (n : ℕ) (a : K) (j : ℕ) : Prop where
  le : j ≤ n
  below : j = 0 ∨ mid g (j - 1) < a
  above : j = n ∨ a ≤ mid g j

/-- In the middle, to the even index. -/
structure RoundsEven (g : ℕ → K) (n : ℕ) (a : K) (k : ℕ) : Prop where
  le : k ≤ n
  below : k = 0 ∨ mid g (k - 1) < a ∨ (mid g (k - 1) = a ∧ Even k)
  above : k = n ∨ a < mid g k ∨ (a = mid g k ∧ Even k)

section

variable [IsStrictOrderedRing K] {g : ℕ → K} {n : ℕ} {a : K}

theorem mid_strictMono (hg : StrictMono g) : StrictMono (mid g) := by
  intro k l hkl
  have h₁ := hg hkl
  have h₂ := hg (Nat.succ_lt_succ hkl)
  unfold mid
  linarith

/-- The search of a grid goes down in the middle. -/
theorem foldl_closer_grid (hg : StrictMono g) (a init : K) (n : ℕ) :
    ∃ j, RoundsDown g n a j ∧
      ((List.range (n + 1)).map g).foldl (closer a id) (init, none) = (g j, some |a - g j|) := by
  induction n with
  | zero => exact ⟨0, ⟨Nat.le_refl 0, .inl rfl, .inl rfl⟩, rfl⟩
  | succ n ih =>
    obtain ⟨j, hj, hfold⟩ := ih
    rw [List.range_succ, List.map_append, List.foldl_append, hfold, List.map_singleton,
      List.foldl_cons, List.foldl_nil]
    have hnext := hg (Nat.lt_succ_self n)
    by_cases hcloser : |a - g (n + 1)| < |a - g j|
    · -- only behind the middle is the last point closer, and then the one before was it
      have hjn : j = n := by
        by_contra hne
        have hlt : j < n := Nat.lt_of_le_of_ne hj.le hne
        have hmid := hj.above.resolve_left hne
        have hle : g (j + 1) ≤ g (n + 1) := hg.monotone (by omega)
        have hstep := hg (Nat.lt_succ_self j)
        unfold mid at hmid
        have hfar : |a - g (n + 1)| = g (n + 1) - a := by
          rw [abs_sub_comm, abs_of_nonneg (by linarith)]
        rw [hfar] at hcloser
        rcases abs_cases (a - g j) with ⟨habs, -⟩ | ⟨habs, -⟩ <;> rw [habs] at hcloser <;> linarith
      subst hjn
      have hmid : mid g j < a := by
        by_contra hle
        unfold mid at hle
        have hfar : |a - g (j + 1)| = g (j + 1) - a := by
          rw [abs_sub_comm, abs_of_nonneg (by linarith)]
        rw [hfar] at hcloser
        rcases abs_cases (a - g j) with ⟨habs, -⟩ | ⟨habs, -⟩ <;> rw [habs] at hcloser <;> linarith
      exact ⟨j + 1, ⟨Nat.le_refl _, .inr hmid, .inl rfl⟩, if_pos (decide_eq_true hcloser)⟩
    · refine ⟨j, ⟨Nat.le_succ_of_le hj.le, hj.below, .inr ?_⟩, if_neg ?_⟩
      · rcases hj.above with rfl | hmid
        · by_contra hlt
          unfold mid at hlt
          have hlow : |a - g j| = a - g j := abs_of_nonneg (by linarith)
          rw [hlow] at hcloser
          rcases abs_cases (a - g (j + 1)) with ⟨habs, -⟩ | ⟨habs, -⟩ <;> rw [habs] at hcloser <;>
            linarith
        · exact hmid
      · show ¬ decide (|a - g (n + 1)| < |a - g j|) = true
        rw [decide_eq_true_eq]
        exact hcloser

/-- **The search rounds down in the middle.** -/
theorem search_grid (hg : StrictMono g) (a init : K) (n : ℕ) :
    ∃ j, RoundsDown g n a j ∧ search a id init ((List.range (n + 1)).map g) = g j := by
  obtain ⟨j, hj, hfold⟩ := foldl_closer_grid hg a init n
  exact ⟨j, hj, congrArg Prod.fst hfold⟩

/-- **The two ways agree but behind an odd index, in the middle.** -/
theorem agree_iff (hg : StrictMono g) {k j : ℕ} (hk : RoundsEven g n a k)
    (hj : RoundsDown g n a j) : k = j ↔ ¬ ∃ t < n, ¬ Even t ∧ a = mid g t := by
  have hmono := mid_strictMono hg
  constructor
  · rintro rfl ⟨t, htn, hodd, rfl⟩
    -- the middle behind `t` goes down to `t`, which is not even
    have hle : k ≤ t := by
      rcases hj.below with h | h
      · omega
      · have := hmono.lt_iff_lt.mp h
        omega
    have hkt : k = t := by
      rcases hj.above with h | h
      · omega
      · have := hmono.le_iff_le.mp h
        omega
    subst hkt
    rcases hk.above with h | h | h
    · omega
    · exact lt_irrefl _ h
    · exact hodd h.2
  · intro hno
    rcases Nat.lt_trichotomy k j with hlt | heq | hlt
    · exfalso
      have hup : a ≤ mid g k := by
        rcases hk.above with h | h | h
        · have := hj.le
          omega
        · exact h.le
        · exact h.1.le
      have hdown : mid g (j - 1) < a := hj.below.resolve_left (by omega)
      have := hmono.lt_iff_lt.mp (hdown.trans_le hup)
      omega
    · exact heq
    · exfalso
      have hup : a ≤ mid g j := hj.above.resolve_left (by have := hk.le; omega)
      have hmid : mid g j ≤ mid g (k - 1) := hmono.monotone (by omega)
      rcases hk.below with h | h | ⟨h, heven⟩
      · omega
      · exact absurd (hup.trans hmid) (not_le_of_gt h)
      · -- the even index is the one behind the middle
        have hindex : k - 1 = j := by
          refine le_antisymm (hmono.le_iff_le.mp (h.trans_le hup)) ?_
          omega
        refine hno ⟨j, by have := hk.le; omega, fun hj => ?_, hindex ▸ h.symm⟩
        have hsucc : k = j + 1 := by omega
        rw [hsucc, Nat.even_add_one] at heven
        exact heven hj

end

/-! ## To an integer -/

section

variable [FloorRing K]

/-- To the nearest integer, in the middle to the even one. -/
def roundTiesEven (x : K) : ℤ :=
  if x - ⌊x⌋ < 1 / 2 then ⌊x⌋
  else if 1 / 2 < x - ⌊x⌋ then ⌊x⌋ + 1
  else if ⌊x⌋ % 2 = 0 then ⌊x⌋ else ⌊x⌋ + 1

/-- Rounding to a whole number: the closest, and the even one in the middle. -/
theorem roundTiesEven_spec [IsStrictOrderedRing K] (x : K) :
    ((roundTiesEven x : K) - 1 / 2 < x ∨
        ((roundTiesEven x : K) - 1 / 2 = x ∧ roundTiesEven x % 2 = 0)) ∧
      (x < roundTiesEven x + 1 / 2 ∨
        (x = roundTiesEven x + 1 / 2 ∧ roundTiesEven x % 2 = 0)) := by
  have hlow := Int.floor_le x
  have hhigh := Int.lt_floor_add_one x
  unfold roundTiesEven
  split
  next h => exact ⟨.inl (by linarith), .inl (by linarith)⟩
  next h =>
    split
    next h' =>
      push_cast
      exact ⟨.inl (by linarith), .inl (by linarith)⟩
    next h' =>
      have htie : x - ⌊x⌋ = 1 / 2 := le_antisymm (not_lt.mp h') (not_lt.mp h)
      split
      next heven => exact ⟨.inl (by linarith), .inr ⟨by linarith, heven⟩⟩
      next hodd =>
        have heven : (⌊x⌋ + 1) % 2 = 0 := by omega
        push_cast
        exact ⟨.inr ⟨by linarith, heven⟩, .inl (by linarith)⟩

variable [IsStrictOrderedRing K]

theorem abs_roundTiesEven_sub (x : K) : |(roundTiesEven x : K) - x| ≤ 1 / 2 := by
  obtain ⟨hlow, hhigh⟩ := roundTiesEven_spec x
  rw [abs_le]
  constructor
  · rcases hhigh with h | ⟨h, -⟩ <;> linarith
  · rcases hlow with h | ⟨h, -⟩ <;> linarith

/-- An odd integer is not passed before the middle behind it. -/
theorem roundTiesEven_le_iff {x : K} {m : ℤ} (hm : m % 2 = 1) :
    roundTiesEven x ≤ m ↔ x < m + 1 / 2 := by
  obtain ⟨hlow, hhigh⟩ := roundTiesEven_spec x
  constructor
  · intro hle
    have hcast : (roundTiesEven x : K) ≤ m := by exact_mod_cast hle
    rcases hhigh with h | ⟨h, heven⟩
    · linarith
    · -- in the middle the value is even, so it is not `m`
      have hlt : (roundTiesEven x : K) < m := by
        exact_mod_cast lt_of_le_of_ne hle fun he => by omega
      linarith
  · intro hx
    have hlt : (roundTiesEven x : K) < m + 1 := by
      rcases hlow with h | ⟨h, -⟩ <;> linarith
    have hlt : roundTiesEven x < m + 1 := by exact_mod_cast hlt
    omega

/-- An even integer is reached in the middle before it. -/
theorem le_roundTiesEven_iff {x : K} {m : ℤ} (hm : m % 2 = 0) :
    m ≤ roundTiesEven x ↔ m - 1 / 2 ≤ x := by
  obtain ⟨hlow, hhigh⟩ := roundTiesEven_spec x
  constructor
  · intro hle
    have hcast : (m : K) ≤ roundTiesEven x := by exact_mod_cast hle
    rcases hlow with h | ⟨h, -⟩ <;> linarith
  · intro hx
    by_contra hlt
    have hcast : (roundTiesEven x : K) + 1 ≤ m := by exact_mod_cast (by omega : roundTiesEven x + 1 ≤ m)
    rcases hhigh with h | ⟨h, heven⟩
    · linarith
    · have hne : (roundTiesEven x : K) + 1 = m := by linarith
      have hne : roundTiesEven x + 1 = m := by exact_mod_cast hne
      omega

/-- Between two integers, rounding stays between them. -/
theorem abs_roundTiesEven_le {x : K} {m : ℤ} (hx : |x| ≤ m) : |roundTiesEven x| ≤ m := by
  have hhalf := abs_roundTiesEven_sub x
  rw [abs_le] at hx hhalf ⊢
  constructor
  · have hlt : -(m : K) - 1 < roundTiesEven x := by linarith
    have hlt : -m - 1 < roundTiesEven x := by exact_mod_cast hlt
    omega
  · have hlt : (roundTiesEven x : K) < m + 1 := by linarith
    have hlt : roundTiesEven x < m + 1 := by exact_mod_cast hlt
    omega

theorem roundTiesEven_intCast (m : ℤ) : roundTiesEven (m : K) = m := by
  have hhalf := abs_le.mp (abs_roundTiesEven_sub (m : K))
  have hlt : (roundTiesEven (m : K) : K) < m + 1 := by linarith
  have hgt : (m : K) < roundTiesEven (m : K) + 1 := by linarith
  have hlt : roundTiesEven (m : K) < m + 1 := by exact_mod_cast hlt
  have hgt : m < roundTiesEven (m : K) + 1 := by exact_mod_cast hgt
  omega

end

end Colibri.Nearest
