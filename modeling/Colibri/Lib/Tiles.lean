import Mathlib.Algebra.Group.Nat.Defs
import Mathlib.Order.Basic
import Mathlib.Data.Nat.Init
import Mathlib.Tactic.ByContra

/-!
# Blocks of a dimension

A dimension of `d` places is cut into blocks of `b`: place `x` is in block `x / b`, and the
last block may be a part of one. A reader who is told only how many blocks there are and
takes `d / nb` for the size of one (`inferred`) is right just when the blocks fill the
dimension, or there is one of them, or they are single places (`inferred_iff`).

The proof has two parts: two sizes give every place the same block only if they are equal or both
cover the dimension (`same_blocks_iff`), and there are enough blocks if they reach its end
(`in_grid_iff`).
-/

namespace Colibri.Tiles

/-- The size of a block, from the number of blocks. -/
def inferred (d nb : Nat) : Nat := max (d / max nb 1) 1

/-- The blocks fill the dimension, or one of them covers it, or they are single places and
there are enough, or there is a single place. -/
def Exact (d nb b : Nat) : Prop :=
  d = nb * b ∨ (nb = 1 ∧ d ≤ b) ∨ (b = 1 ∧ d ≤ nb) ∨ (d = 1 ∧ 1 ≤ nb)

instance (d nb b : Nat) : Decidable (Exact d nb b) :=
  inferInstanceAs (Decidable (_ ∨ _ ∨ _ ∨ _))

variable {a b d nb : Nat}

theorem inferred_pos : 0 < inferred d nb := Nat.le_max_right _ _

/-- Two sizes give the same blocks if they are one, or if neither cuts the dimension. -/
theorem same_blocks_iff (ha : 0 < a) (hb : 0 < b) :
    (∀ x < d, x / a = x / b) ↔ a = b ∨ (d ≤ a ∧ d ≤ b) := by
  constructor
  · intro h
    by_contra hne
    obtain ⟨hab, hd⟩ := not_or.mp hne
    -- the first place behind the shorter block
    have hat : ∀ {s l : Nat}, 0 < s → s < l → s / s ≠ s / l := by
      intro s l hs hl
      rw [Nat.div_self hs, Nat.div_eq_of_lt hl]
      exact Nat.one_ne_zero
    rcases Nat.lt_or_gt_of_ne hab with hlt | hlt
    · exact hat ha hlt (h a (by omega))
    · exact hat hb hlt (h b (by omega)).symm
  · rintro (rfl | ⟨hda, hdb⟩) x hx
    · rfl
    · rw [Nat.div_eq_of_lt (by omega), Nat.div_eq_of_lt (by omega)]

/-- Every place is in one of the `nb` blocks. -/
theorem in_grid_iff (hb : 0 < b) : (∀ x < d, x / b < nb) ↔ d ≤ nb * b := by
  constructor
  · intro h
    cases d with
    | zero => exact Nat.zero_le _
    | succ d => exact (Nat.div_lt_iff_lt_mul hb).mp (h d (Nat.lt_succ_self d))
  · intro h x hx
    exact (Nat.div_lt_iff_lt_mul hb).mpr (Nat.lt_of_lt_of_le hx h)

/-- When a size that is inferred from the number of blocks finds the block of every place. -/
theorem inferred_iff (hb : 0 < b) (hd : 0 < d) :
    (∀ x < d, x / inferred d nb = x / b ∧ x / b < nb) ↔ Exact d nb b := by
  have hsplit : (∀ x < d, x / inferred d nb = x / b ∧ x / b < nb)
      ↔ (inferred d nb = b ∨ (d ≤ inferred d nb ∧ d ≤ b)) ∧ d ≤ nb * b := by
    rw [← same_blocks_iff inferred_pos hb, ← in_grid_iff hb]
    exact ⟨fun h => ⟨fun x hx => (h x hx).1, fun x hx => (h x hx).2⟩,
      fun h x hx => ⟨h.1 x hx, h.2 x hx⟩⟩
  rw [hsplit]
  unfold Exact
  rcases Nat.eq_zero_or_pos nb with rfl | hnb
  · -- no block holds a place
    rw [Nat.zero_mul]
    omega
  have hinf : inferred d nb = max (d / nb) 1 := by rw [inferred, Nat.max_eq_left hnb]
  have hdiv : d / nb * nb ≤ d := Nat.div_mul_le_self d nb
  rw [hinf]
  constructor
  · rintro ⟨hsize | ⟨hone, hle⟩, hgrid⟩
    · rcases Nat.eq_zero_or_pos (d / nb) with hzero | hpos
      · rw [hzero] at hsize
        exact .inr (.inr (.inl ⟨by omega, by
          have := (Nat.div_eq_zero_iff.mp hzero)
          omega⟩))
      · have heq : d / nb = b := by omega
        rw [heq, Nat.mul_comm] at hdiv
        exact .inl (by omega)
    · rcases Nat.eq_or_lt_of_le hnb with h1 | h2
      · exact .inr (.inl ⟨h1.symm, hle⟩)
      · -- half a dimension does not cover it
        have hhalf : d / nb < d := Nat.div_lt_self hd h2
        exact .inr (.inr (.inr ⟨by omega, hnb⟩))
  · rintro (rfl | ⟨rfl, hle⟩ | ⟨rfl, hle⟩ | ⟨rfl, -⟩)
    · rw [Nat.mul_div_cancel_left b hnb]
      exact ⟨.inl (by omega), Nat.le_refl _⟩
    · rw [Nat.div_one]
      exact ⟨.inr ⟨Nat.le_max_left _ _, hle⟩, by omega⟩
    · refine ⟨.inl ?_, by omega⟩
      have hsmall : d / nb ≤ 1 := Nat.div_le_of_le_mul (by omega)
      omega
    · refine ⟨.inr ⟨Nat.le_max_right _ _, hb⟩, Nat.mul_pos hnb hb⟩

theorem place_lt {o r c n : Nat} (hr : r < o) (hc : c < n) : r * n + c < o * n :=
  calc r * n + c < r * n + n := Nat.add_lt_add_left hc _
    _ = (r + 1) * n := (Nat.succ_mul r n).symm
    _ ≤ o * n := Nat.mul_le_mul_right n hr

/-- Two sizes whose blocks have rows of `n` at the same offsets, modulo a power of two that
`n` is less than, give the same blocks. -/
theorem div_eq_of_mod {n x : Nat} (hn : 0 < n) (hlt : n < 2 ^ 64)
    (h : ∀ y ≤ x, y / a * n % 2 ^ 64 = y / b * n) : x / a = x / b := by
  induction x with
  | zero => rw [Nat.zero_div, Nat.zero_div]
  | succ x ih =>
    have hx := ih fun y hy => h y (Nat.le_succ_of_le hy)
    have hbefore := h x (Nat.le_succ x)
    have hat := h (x + 1) (Nat.le_refl _)
    -- neither has gone on by more than a block, so that the offsets are `n` apart or equal
    rw [Nat.succ_div, Nat.succ_div, hx] at hat ⊢
    rw [hx] at hbefore
    split at hat <;> split at hat
    · next hda hdb => rw [if_pos hda, if_pos hdb]
    · rw [Nat.succ_mul, Nat.add_zero] at hat
      omega
    · rw [Nat.succ_mul, Nat.add_zero] at hat
      omega
    · next hda hdb => rw [if_neg hda, if_neg hdb]

end Colibri.Tiles
