import Colibri.Lib.Nearest
import Colibri.Lib.Vectors

/-!
# Numbers, infinities and NaN

What a float denotes, and float arithmetic before it rounds: a number, one of two
infinities, or `nan`. There is one zero, a quotient by it has its dividend's sign.

The product with the unit vector `j` is entry `j` of a row of numbers, or of one entry. An
infinity makes the others `nan`, for zero times it is `nan` (`dot_unit_iff`).

The simp lemmas compute with numbers and with `nan`; an infinity is looked at only where a product
or a sum of it comes up. `foldl_nan` is why one `nan` is enough: a sum that has met one is one.
-/

namespace Colibri.Extended

open Vectors Nearest

inductive Ext (K : Type) where
  | num (x : K)
  | inf (neg : Bool)
  | nan
  deriving DecidableEq

variable {K : Type}

namespace Ext

/-- Neither an infinity nor `nan`. -/
def IsNum : Ext K → Prop
  | num _ => True
  | _ => False

theorem isNum_iff {v : Ext K} : v.IsNum ↔ ∃ x, v = num x := by
  cases v with
  | num x => exact ⟨fun _ => ⟨x, rfl⟩, fun _ => trivial⟩
  | inf _ | nan => exact ⟨False.elim, by rintro ⟨x, hx⟩; cases hx⟩

variable [Field K]

def add : Ext K → Ext K → Ext K
  | num x, num y => num (x + y)
  | num _, inf s => inf s
  | inf s, num _ => inf s
  | inf s, inf t => if s = t then inf s else nan
  | nan, _ => nan
  | _, nan => nan

instance : Add (Ext K) := ⟨add⟩

@[simp] theorem num_add (x y : K) : (num x + num y : Ext K) = num (x + y) := rfl

@[simp] theorem nan_add (v : Ext K) : nan + v = nan := rfl

@[simp] theorem add_nan (v : Ext K) : v + nan = nan := by cases v <;> rfl

@[simp] theorem zero_add' (v : Ext K) : num 0 + v = v := by
  cases v with
  | num x => rw [num_add, zero_add]
  | inf _ | nan => rfl

@[simp] theorem add_zero' (v : Ext K) : v + num 0 = v := by
  cases v with
  | num x => rw [num_add, add_zero]
  | inf _ | nan => rfl

variable [LinearOrder K]

def mul : Ext K → Ext K → Ext K
  | num x, num y => num (x * y)
  | num x, inf s => if x = 0 then nan else inf (s != decide (x < 0))
  | inf s, num x => if x = 0 then nan else inf (s != decide (x < 0))
  | inf s, inf t => inf (s != t)
  | nan, _ => nan
  | _, nan => nan

def div : Ext K → Ext K → Ext K
  | num x, num y =>
    if y = 0 then if x = 0 then nan else inf (decide (x < 0)) else num (x / y)
  | num _, inf _ => num 0
  | inf s, num y => inf (s != decide (y < 0))
  | inf _, inf _ => nan
  | nan, _ => nan
  | _, nan => nan

instance : Mul (Ext K) := ⟨mul⟩

instance : Div (Ext K) := ⟨div⟩

def abs : Ext K → Ext K
  | num x => num |x|
  | inf _ => inf false
  | nan => nan

/-- `max`: a `nan` is passed over. -/
def max : Ext K → Ext K → Ext K
  | num x, num y => num (Max.max x y)
  | num x, inf s => if s then num x else inf false
  | inf s, num x => if s then num x else inf false
  | inf s, inf t => inf (s && t)
  | nan, v => v
  | v, nan => v

def clamp (lo hi : K) : Ext K → Ext K
  | num x => num (Max.max lo (Min.min x hi))
  | inf s => num (if s then lo else hi)
  | nan => nan

section

variable [FloorRing K]

/-- `round_ties_even` -/
def round : Ext K → Ext K
  | num x => num (roundTiesEven x)
  | v => v

/-- A cast to an integer between `lo` and `hi`: towards zero, to the bounds beyond them, and
`nan` to zero. -/
def toInt (lo hi : Int) : Ext K → Int
  | num x => Max.max lo (Min.min (if 0 ≤ x then ⌊x⌋ else ⌈x⌉) hi)
  | inf s => if s then lo else hi
  | nan => 0

end

@[simp] theorem num_mul (x y : K) : (num x * num y : Ext K) = num (x * y) := rfl

@[simp] theorem nan_mul (v : Ext K) : nan * v = nan := rfl

@[simp] theorem mul_nan (v : Ext K) : v * nan = nan := by cases v <;> rfl

theorem num_div {y : K} (hy : y ≠ 0) (x : K) : (num x / num y : Ext K) = num (x / y) := if_neg hy

theorem mul_comm' (v w : Ext K) : v * w = w * v := by
  cases v with
  | num x =>
    cases w with
    | num y => rw [num_mul, num_mul, mul_comm]
    | inf _ | nan => rfl
  | inf s =>
    cases w with
    | num _ | nan => rfl
    | inf t => exact congrArg inf (Bool.xor_comm s t)
  | nan => exact (mul_nan w).symm

variable [IsStrictOrderedRing K]

@[simp] theorem mul_one' (v : Ext K) : v * num 1 = v := by
  cases v with
  | num x => rw [num_mul, mul_one]
  | inf s =>
    show (if (1 : K) = 0 then nan else inf (s != decide ((1 : K) < 0))) = inf s
    rw [if_neg one_ne_zero, decide_eq_false (not_lt.mpr zero_le_one), Bool.bne_false]
  | nan => rfl

omit [IsStrictOrderedRing K] in
theorem mul_zero' {v : Ext K} (h : v.IsNum) : v * num 0 = num 0 := by
  obtain ⟨x, rfl⟩ := isNum_iff.mp h
  rw [num_mul, mul_zero]

omit [IsStrictOrderedRing K] in
theorem mul_zero_nan {v : Ext K} (h : ¬v.IsNum) : v * num 0 = nan := by
  cases v with
  | num x => exact absurd trivial h
  | inf s => exact if_pos rfl
  | nan => rfl

end Ext

open Ext

/-! ## Products with a unit vector -/

variable [Field K]

/-- The unit vector `j` of `n` entries. -/
def unit (K : Type) [Field K] (n j : Nat) : List (Ext K) :=
  tab n fun k => if k = j then num 1 else num 0

theorem foldl_nan (l : List (Ext K)) : l.foldl (· + ·) (nan : Ext K) = nan := by
  induction l with
  | nil => rfl
  | cons v l ih => rw [List.foldl_cons, nan_add, ih]

/-- A sum with a `nan` in it. -/
theorem foldl_of_nan_mem {l : List (Ext K)} (h : nan ∈ l) (a : Ext K) :
    l.foldl (· + ·) a = nan := by
  induction l generalizing a with
  | nil => cases h
  | cons v l ih =>
    rw [List.foldl_cons]
    rcases List.mem_cons.mp h with rfl | hmem
    · rw [add_nan, foldl_nan]
    · exact ih hmem _

/-- A sum of zeros. -/
theorem foldl_zeros {l : List (Ext K)} (h : ∀ v ∈ l, v = num 0) (a : Ext K) :
    l.foldl (· + ·) a = a := by
  induction l generalizing a with
  | nil => rfl
  | cons v l ih =>
    have hv := h v (List.mem_cons_self ..)
    rw [List.foldl_cons, hv, add_zero']
    exact ih (fun v hv => h v (List.mem_cons_of_mem _ hv)) a

/-- A sum with one term that is not zero. -/
theorem foldl_single {l : List (Ext K)} {j : Nat} {v : Ext K} (hj : l[j]? = some v)
    (h : ∀ k u, k ≠ j → l[k]? = some u → u = num 0) : l.foldl (· + ·) (num 0) = v := by
  induction l generalizing j with
  | nil => cases hj
  | cons a l ih =>
    rw [List.foldl_cons]
    cases j with
    | zero =>
      cases hj
      rw [zero_add']
      refine foldl_zeros (fun u hu => ?_) v
      obtain ⟨k, hk⟩ := List.mem_iff_getElem?.mp hu
      exact h (k + 1) u (Nat.succ_ne_zero k) hk
    | succ j =>
      rw [h 0 a (Nat.succ_ne_zero j).symm rfl, zero_add']
      exact ih hj fun k u hk hu => h (k + 1) u (fun he => hk (Nat.succ.inj he)) hu

section

variable [LinearOrder K]

/-- `a += w[k] * x[k]`, from zero. -/
def dot (w x : List (Ext K)) : Ext K :=
  (List.zipWith (· * ·) w x).foldl (· + ·) (num 0)

variable [IsStrictOrderedRing K]

/-- A term of a product with a unit vector. -/
theorem term_unit {w : List (Ext K)} {j k : Nat} {v : Ext K} (hk : w[k]? = some v) :
    (List.zipWith (· * ·) w (unit K w.length j))[k]? = some (if k = j then v else v * num 0) := by
  have hlt := (List.getElem?_eq_some_iff.mp hk).1
  rw [List.getElem?_zipWith, hk, unit, tab, List.getElem?_map, List.getElem?_range hlt]
  show some (v * if k = j then num 1 else num 0) = _
  split
  · rw [mul_one']
  · rfl

/-- With the other entries numbers, the product is the entry. -/
theorem dot_unit {w : List (Ext K)} {j : Nat} {v : Ext K} (hj : w[j]? = some v)
    (h : ∀ k u, k ≠ j → w[k]? = some u → u.IsNum) : dot w (unit K w.length j) = v := by
  refine foldl_single ((term_unit hj).trans (congrArg some (if_pos rfl))) fun k u hk hu => ?_
  obtain ⟨hlt, -⟩ := List.getElem?_eq_some_iff.mp hu
  rw [List.length_zipWith] at hlt
  have hget := List.getElem?_eq_getElem (Nat.lt_of_lt_of_le hlt (Nat.min_le_left ..))
  rw [term_unit hget, if_neg hk] at hu
  rw [← Option.some.inj hu]
  exact mul_zero' (h k _ hk hget)

theorem dot_unit_nan {w : List (Ext K)} {j k : Nat} {u : Ext K} (hk : w[k]? = some u)
    (hne : k ≠ j) (hu : ¬u.IsNum) : dot w (unit K w.length j) = nan := by
  refine foldl_of_nan_mem (List.mem_iff_getElem?.mpr ⟨k, ?_⟩) _
  rw [term_unit hk, if_neg hne, mul_zero_nan hu]

/-- A row of numbers, or of `nan`s, or of one entry. -/
def Unmixed (w : List (Ext K)) : Prop :=
  w.length ≤ 1 ∨ (∀ v ∈ w, v.IsNum) ∨ ∀ v ∈ w, v = nan

/-- **When the products with the unit vectors are the entries.** -/
theorem dot_unit_iff (w : List (Ext K)) :
    (∀ j v, w[j]? = some v → dot w (unit K w.length j) = v) ↔ Unmixed w := by
  constructor
  · intro h
    by_contra hmixed
    unfold Unmixed at hmixed
    push Not at hmixed
    obtain ⟨hlen, ⟨u, hu, hnum⟩, v, hv, hnan⟩ := hmixed
    obtain ⟨k, hk⟩ := List.mem_iff_getElem?.mp hu
    obtain ⟨j, hj⟩ := List.mem_iff_getElem?.mp hv
    by_cases hjk : k = j
    · -- the entry is the one that is no number; every other product is `nan`, so every
      -- other entry is, and its own product is too
      subst hjk
      obtain ⟨m, hm, hmk⟩ : ∃ m < w.length, m ≠ k := ⟨if k = 0 then 1 else 0, by
        split
        · exact ⟨hlen, by omega⟩
        · exact ⟨by omega, by omega⟩⟩
      have hget := List.getElem?_eq_getElem hm
      have hother := (h m _ hget).symm.trans (dot_unit_nan hk hmk.symm hnum)
      rw [hother] at hget
      exact hnan ((h k v hj).symm.trans (dot_unit_nan hget hmk id))
    · exact hnan ((h j v hj).symm.trans (dot_unit_nan hk hjk hnum))
  · rintro (hone | hnums | hnans) j v hj
    · refine dot_unit hj fun k u hk hu => ?_
      have h₁ := (List.getElem?_eq_some_iff.mp hj).1
      have h₂ := (List.getElem?_eq_some_iff.mp hu).1
      omega
    · exact dot_unit hj fun k u _ hu => hnums u (List.mem_of_getElem? hu)
    · obtain rfl := hnans v (List.mem_of_getElem? hj)
      refine foldl_of_nan_mem (List.mem_iff_getElem?.mpr ⟨j, ?_⟩) _
      rw [term_unit hj, if_pos rfl]

end

end Colibri.Extended
