import Colibri.Lib.Blocks

/-!
# Slices written in place

`within x a n f` replaces the slice `x[a..a + n]` by what `f` makes of it. A slice of a slice
is a slice of the buffer (`within_within`). A loop over the rows of a buffer, or over the parts
of its rows, makes each from the one that was there (`foldlM_rows`, `foldlM_grid`).

A slice that is out of range fails, and so does one that `f` fails on. `within_append` is the rule
behind the others: a buffer that is taken apart at the slice.
-/

namespace Colibri.InPlace

open Blocks

variable {α β : Type}

/-- The slice `x[a..a + n]` replaced by `f` of it. None is a slice out of range, or a panic
of `f`. -/
def within (x : List α) (a n : Nat) (f : List α → Option (List α)) : Option (List α) :=
  if a + n ≤ x.length then
    (f ((x.drop a).take n)).map fun y => x.take a ++ (y ++ x.drop (a + n))
  else none

/-- A buffer that is taken apart at the slice. -/
theorem within_append {p y q : List α} {a n : Nat} (ha : p.length = a) (hn : y.length = n)
    (f : List α → Option (List α)) :
    within (p ++ (y ++ q)) a n f = (f y).map fun z => p ++ (z ++ q) := by
  subst ha hn
  have hfits : p.length + y.length ≤ (p ++ (y ++ q)).length := by
    rw [List.length_append, List.length_append]
    omega
  have hrest : (p ++ (y ++ q)).drop (p.length + y.length) = q := by
    rw [← List.append_assoc, ← List.length_append, List.drop_left]
  rw [within, if_pos hfits, List.drop_left, List.take_left, List.take_left, hrest]

theorem split_slice (x : List α) (a n : Nat) :
    x = x.take a ++ ((x.drop a).take n ++ x.drop (a + n)) := by
  rw [← List.drop_drop, List.take_append_drop, List.take_append_drop]

theorem within_none {f : List α → Option (List α)} (hf : ∀ y, f y = none) (x : List α) (a n : Nat) :
    within x a n f = none := by
  rw [within, hf, Option.map_none, ite_self]

/-- A slice of a slice. -/
theorem within_within {p y q : List α} {a b n : Nat} (ha : p.length = a) (hb : b + n ≤ y.length)
    (f : List α → Option (List α)) :
    within (p ++ (y ++ q)) (a + b) n f = (within y b n f).map fun z => p ++ (z ++ q) := by
  have hmid : ((y.drop b).take n).length = n := by
    rw [List.length_take, List.length_drop]
    omega
  have hpre : (p ++ y.take b).length = a + b := by
    rw [List.length_append, List.length_take, ha]
    omega
  have hsplit : p ++ (y ++ q)
      = (p ++ y.take b) ++ ((y.drop b).take n ++ (y.drop (b + n) ++ q)) := by
    conv_lhs => rw [split_slice y b n]
    simp only [List.append_assoc]
  rw [hsplit, within_append hpre hmid, within, if_pos hb, Option.map_map]
  refine congrArg (fun g => Option.map g _) (funext fun z => ?_)
  simp only [Function.comp_apply, List.append_assoc]

/-- One loop over two buffers is a loop over each. -/
theorem foldlM_prod {γ : Type} (f : α → β → Option α) (g : γ → β → Option γ) (l : List β) (a : α)
    (c : γ) :
    l.foldlM (fun (ac : α × γ) x => (f ac.1 x).bind fun a => (g ac.2 x).map fun c => (a, c)) (a, c)
      = (l.foldlM f a).bind fun a => (l.foldlM g c).map fun c => (a, c) := by
  induction l generalizing a c with
  | nil => rfl
  | cons x l ih =>
    rw [List.foldlM_cons, List.foldlM_cons, List.foldlM_cons]
    cases hf : f a x with
    | none => rfl
    | some a' =>
      cases hg : g c x with
      | some c' => exact ih a' c'
      | none =>
        -- the second loop stops here, whatever the first does
        show none = (l.foldlM f a').bind fun _ => none
        exact (Option.bind_fun_none _).symm

/-! ## Loops over rows -/

/-- A loop over the rows of a stretch of a buffer, each step of which replaces a row by one of
the same length and leaves the rest. -/
theorem foldlM_rows_at {front x back : List α} {n d : Nat} (hx : x.length = n * d)
    {step : List α → Nat → Option (List α)} {g : Nat → List α → List α}
    (hg : ∀ r < n, ∀ y, y.length = d → (g r y).length = d)
    (hstep : ∀ r < n, ∀ p y q : List α, p.length = front.length + r * d → y.length = d →
      step (p ++ (y ++ q)) r = some (p ++ (g r y ++ q))) :
    (List.range n).foldlM step (front ++ (x ++ back))
      = some (front ++ (blocks n (fun r => g r ((x.drop (r * d)).take d)) ++ back)) := by
  -- after `m` rows, the rest of the stretch is as it was
  have hrun : ∀ m ≤ n, (List.range m).foldlM step (front ++ (x ++ back))
      = some (front ++ (blocks m (fun r => g r ((x.drop (r * d)).take d))
        ++ (x.drop (m * d) ++ back))) ∧
      (blocks m fun r => g r ((x.drop (r * d)).take d)).length = m * d := by
    intro m hm
    induction m with
    | zero =>
      rw [Nat.zero_mul, List.drop_zero]
      exact ⟨rfl, rfl⟩
    | succ m ih =>
      obtain ⟨hsofar, hlen⟩ := ih (by omega)
      have hle : m * d + d ≤ x.length := by
        rw [hx, ← Nat.succ_mul]
        exact Nat.mul_le_mul_right d hm
      have hrow : ((x.drop (m * d)).take d).length = d := by
        rw [List.length_take, List.length_drop]
        omega
      have hsplit : x.drop (m * d) = (x.drop (m * d)).take d ++ x.drop ((m + 1) * d) := by
        rw [Nat.succ_mul, ← List.drop_drop, List.take_append_drop]
      have hfront : (front ++ blocks m fun r => g r ((x.drop (r * d)).take d)).length
          = front.length + m * d := by
        rw [List.length_append, hlen]
      have hm' := hstep m (by omega) _ _ (x.drop ((m + 1) * d) ++ back) hfront hrow
      refine ⟨?_, ?_⟩
      · rw [List.range_succ, List.foldlM_append, hsofar, Option.bind_eq_bind, Option.bind_some,
          List.foldlM_cons, hsplit, List.append_assoc, ← List.append_assoc front, hm', blocks_succ]
        simp only [List.append_assoc]
        rfl
      · rw [blocks_succ, List.length_append, hlen, hg m (by omega) _ hrow, Nat.succ_mul]
  obtain ⟨hall, -⟩ := hrun n (Nat.le_refl n)
  rw [hall, ← hx, List.drop_length, List.nil_append]

/-- **A loop over the rows of a buffer.** -/
theorem foldlM_rows {x : List α} {n d : Nat} (hx : x.length = n * d)
    {step : List α → Nat → Option (List α)} {g : Nat → List α → List α}
    (hg : ∀ r < n, ∀ y, y.length = d → (g r y).length = d)
    (hstep : ∀ r < n, ∀ p y q : List α, p.length = r * d → y.length = d →
      step (p ++ (y ++ q)) r = some (p ++ (g r y ++ q))) :
    (List.range n).foldlM step x = some (blocks n fun r => g r ((x.drop (r * d)).take d)) := by
  have hloop : (List.range n).foldlM step ([] ++ (x ++ [])) = _ :=
    foldlM_rows_at hx hg fun r hr p y q hp =>
      hstep r hr p y q (by rw [hp, List.length_nil, Nat.zero_add])
  rwa [List.nil_append, List.append_nil, List.append_nil, List.nil_append] at hloop

/-- **A loop over the rows of a buffer and the parts of each row**, all of one length. -/
theorem foldlM_grid {x : List α} {n m d : Nat} (hx : x.length = n * (m * d))
    {step : List α → Nat → Nat → Option (List α)} {g : Nat → Nat → List α → List α}
    (hg : ∀ s < n, ∀ r < m, ∀ y, y.length = d → (g s r y).length = d)
    (hstep : ∀ s < n, ∀ r < m, ∀ p y q : List α, p.length = s * (m * d) + r * d → y.length = d →
      step (p ++ (y ++ q)) s r = some (p ++ (g s r y ++ q))) :
    (List.range n).foldlM (fun x s => (List.range m).foldlM (fun x r => step x s r) x) x
      = some (blocks n fun s => blocks m fun r =>
        g s r ((((x.drop (s * (m * d))).take (m * d)).drop (r * d)).take d)) := by
  refine foldlM_rows hx (g := fun s row => blocks m fun r => g s r ((row.drop (r * d)).take d))
    (fun s hs y hy => ?_) fun s hs p y q hp hy => ?_
  · refine length_blocks fun r hr => hg s hs r hr _ ?_
    have hle := Nat.mul_le_mul_right d hr
    rw [Nat.succ_mul] at hle
    rw [List.length_take, List.length_drop]
    omega
  · exact foldlM_rows_at hy (hg s hs) fun r hr p' y' q' hp' =>
      hstep s hs r hr p' y' q' (by rw [hp', hp])

end Colibri.InPlace
