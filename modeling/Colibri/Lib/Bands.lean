import Mathlib.Data.List.Basic

/-!
# Bands of a range

Pieces with a start and a count tile a range (`Tiles`) if each begins where the one before
ends and none is empty: then the stretches of a list that they are of come to the list
(`Tiles.flatten`).

`bands` cuts a range into pieces of `k` places, of which the last may have fewer.

`Tiles` is defined along the list, and its rules are proved the same way. `bands` is given what to
make of a start and a count, so that a piece may carry more than the two.
-/

namespace Colibri.Bands

variable {α β γ : Type}

/-- The pieces go from `lo` to `hi`, one after another. -/
def Tiles (start count : α → Nat) : Nat → List α → Nat → Prop
  | lo, [], hi => lo = hi
  | lo, c :: cs, hi => start c = lo ∧ 0 < count c ∧ Tiles start count (lo + count c) cs hi

/-- The pieces of `k` places, made by `mk` from a start and a count. -/
def bands (mk : Nat → Nat → α) (k o : Nat) (hk : 0 < k) (o0 : Nat) : List α :=
  if o0 < o then mk o0 (min k (o - o0)) :: bands mk k o hk (o0 + min k (o - o0)) else []
  termination_by o - o0
  decreasing_by omega

variable {start count : α → Nat} {lo hi : Nat} {cs : List α}

theorem Tiles.le (h : Tiles start count lo cs hi) : lo ≤ hi := by
  induction cs generalizing lo with
  | nil => exact Nat.le_of_eq h
  | cons c cs ih => exact Nat.le_trans (Nat.le_add_right _ _) (ih h.2.2)

/-- The stretches of a list that the pieces are of, put together. -/
theorem Tiles.flatten (h : Tiles start count lo cs hi) (l : List β) :
    cs.flatMap (fun c => (l.drop (start c)).take (count c)) = (l.drop lo).take (hi - lo) := by
  induction cs generalizing lo with
  | nil =>
    obtain rfl : lo = hi := h
    rw [Nat.sub_self, List.take_zero]
    rfl
  | cons c cs ih =>
    obtain ⟨rfl, -, hrest⟩ := h
    have hle := hrest.le
    have hsplit : hi - start c = count c + (hi - (start c + count c)) := by omega
    rw [List.flatMap_cons, ih hrest, hsplit, List.take_add, List.drop_drop]

/-- Pieces that tile have widths that tile. -/
theorem Tiles.scale (h : Tiles start count lo cs hi) {w : Nat} (hw : 0 < w) :
    Tiles (fun c => start c * w) (fun c => count c * w) (lo * w) cs (hi * w) := by
  induction cs generalizing lo with
  | nil => exact congrArg (· * w) h
  | cons c cs ih =>
    obtain ⟨rfl, hcount, hrest⟩ := h
    refine ⟨rfl, Nat.mul_pos hcount hw, ?_⟩
    have := ih hrest
    rwa [Nat.add_mul] at this

theorem Tiles.congr {start' count' : α → Nat} (h : Tiles start count lo cs hi)
    (hs : ∀ c ∈ cs, start' c = start c) (hc : ∀ c ∈ cs, count' c = count c) :
    Tiles start' count' lo cs hi := by
  induction cs generalizing lo with
  | nil => exact h
  | cons c cs ih =>
    obtain ⟨hstart, hcount, hrest⟩ := h
    have hwidth := hc c (List.mem_cons_self ..)
    refine ⟨(hs c (List.mem_cons_self ..)).trans hstart, hwidth ▸ hcount, ?_⟩
    rw [hwidth]
    exact ih hrest (fun c' hc' => hs c' (List.mem_cons_of_mem _ hc'))
      fun c' hc' => hc c' (List.mem_cons_of_mem _ hc')

theorem Tiles.map (f : α → γ) {start' count' : γ → Nat}
    (h : Tiles (fun c => start' (f c)) (fun c => count' (f c)) lo cs hi) :
    Tiles start' count' lo (cs.map f) hi := by
  induction cs generalizing lo with
  | nil => exact h
  | cons c cs ih => exact ⟨h.1, h.2.1, ih h.2.2⟩

theorem Tiles.hi_unique {hi' : Nat} (h : Tiles start count lo cs hi)
    (h' : Tiles start count lo cs hi') : hi = hi' := by
  induction cs generalizing lo with
  | nil => exact h.symm.trans h'
  | cons c cs ih => exact ih h.2.2 h'.2.2

/-- The pieces lie in the range. -/
theorem Tiles.mem_le (h : Tiles start count lo cs hi) {c : α} (hc : c ∈ cs) :
    start c + count c ≤ hi := by
  induction cs generalizing lo with
  | nil => cases hc
  | cons d cs ih =>
    obtain ⟨rfl, -, hrest⟩ := h
    rcases List.mem_cons.mp hc with rfl | hmem
    · exact hrest.le
    · exact ih hrest hmem

section

variable {mk : Nat → Nat → α} {k o : Nat} {hk : 0 < k}

/-- **The bands tile the range.** -/
theorem bands_tiles (hstart : ∀ a n, start (mk a n) = a) (hcount : ∀ a n, count (mk a n) = n)
    {o0 : Nat} (h : o0 ≤ o) : Tiles start count o0 (bands mk k o hk o0) o := by
  induction o0 using bands.induct k o hk with
  | case1 o0 hlt ih =>
    rw [bands, if_pos hlt]
    refine ⟨hstart _ _, ?_, ?_⟩
    · rw [hcount]
      omega
    · rw [hcount]
      exact ih (by omega)
  | case2 o0 hge =>
    rw [bands, if_neg hge]
    exact Nat.le_antisymm h (Nat.le_of_not_lt hge)

theorem bands_forall {P : α → Prop} (hmk : ∀ a n, P (mk a n)) (o0 : Nat) :
    ∀ c ∈ bands mk k o hk o0, P c := by
  induction o0 using bands.induct k o hk with
  | case1 o0 hlt ih =>
    rw [bands, if_pos hlt]
    exact List.forall_mem_cons.mpr ⟨hmk _ _, ih⟩
  | case2 o0 hge =>
    rw [bands, if_neg hge]
    exact fun c hc => by cases hc

end

end Colibri.Bands
