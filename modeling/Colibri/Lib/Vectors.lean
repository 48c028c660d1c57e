import Mathlib.Algebra.BigOperators.Ring.Finset
import Mathlib.Data.List.GetD

/-!
# Lists given by their entries

A buffer that a loop fills is `tab n f`: entry `i` is `f i`. Sums over its entries are
finite sums, and the loops that combine buffers entry by entry combine what fills them.

`mapM_eq_map` says when a loop that may panic does not, `mapM_eq_none` when it does.

Which entries a proof needs is decided by `getD`, with a default behind the end: a sum over a range
does not have to carry the bound.
-/

namespace Colibri.Vectors

variable {α β γ : Type}

/-- The buffer with `n` entries, of which entry `i` is `f i`. -/
def tab (n : Nat) (f : Nat → α) : List α := (List.range n).map f

@[simp] theorem length_tab (n : Nat) (f : Nat → α) : (tab n f).length = n := by
  rw [tab, List.length_map, List.length_range]

theorem getD_map_range {n i : Nat} {f : Nat → α} {d : α} (h : i < n) :
    ((List.range n).map f).getD i d = f i := by
  rw [List.getD_eq_getElem?_getD, List.getElem?_map, List.getElem?_range h]
  rfl

theorem getD_tab {n i : Nat} {f : Nat → α} {d : α} (h : i < n) : (tab n f).getD i d = f i :=
  getD_map_range h

theorem tab_congr {n : Nat} {f g : Nat → α} (h : ∀ i < n, f i = g i) : tab n f = tab n g :=
  List.map_congr_left fun i hi => h i (List.mem_range.mp hi)

variable {l : List α} {f : α → Option β}

theorem eq_tab {n : Nat} (h : l.length = n) (d : α) :
    l = tab n fun i => l.getD i d := by
  refine List.ext_getElem (by rw [h, length_tab]) fun i h₁ h₂ => ?_
  rw [← List.getD_eq_getElem l d h₁, ← List.getD_eq_getElem _ d h₂,
    getD_tab (by rw [← h]; exact h₁)]

theorem map_tab (n : Nat) (f : Nat → α) (g : α → β) : (tab n f).map g = tab n (g ∘ f) := by
  rw [tab, List.map_map, tab]

theorem zipWith_tab (n : Nat) (f : Nat → α) (g : Nat → β) (op : α → β → γ) :
    List.zipWith op (tab n f) (tab n g) = tab n fun i => op (f i) (g i) := by
  rw [tab, tab, List.zipWith_map, List.zipWith_self, tab]

theorem mapM_congr {g : α → Option β} (h : ∀ a ∈ l, f a = g a) :
    l.mapM f = l.mapM g := by
  induction l with
  | nil => rfl
  | cons a l ih =>
    rw [List.mapM_cons, List.mapM_cons, h a (List.mem_cons_self ..),
      ih fun b hb => h b (List.mem_cons_of_mem _ hb)]

/-- Where no step of a loop panics, the loop gives what its steps give. -/
theorem mapM_eq_map {g : α → β} (h : ∀ a ∈ l, f a = some (g a)) :
    l.mapM f = some (l.map g) := by
  induction l with
  | nil => rfl
  | cons a l ih =>
    rw [List.mapM_cons, h a (List.mem_cons_self ..),
      ih fun b hb => h b (List.mem_cons_of_mem _ hb)]
    rfl

/-- A step that panics makes the loop panic. -/
theorem mapM_eq_none {a : α} (ha : a ∈ l) (h : f a = none) :
    l.mapM f = none := by
  induction l with
  | nil => cases ha
  | cons b l ih =>
    rw [List.mapM_cons]
    cases hb : f b with
    | none => rfl
    | some c =>
      have hmem : a ∈ l := by
        rcases List.mem_cons.mp ha with rfl | hmem
        · rw [h] at hb
          cases hb
        · exact hmem
      rw [ih hmem]
      rfl

/-- A loop over a state, no step of which panics. -/
theorem foldlM_eq_foldl {step : β → α → Option β} {f : β → α → β}
    (h : ∀ b, ∀ a ∈ l, step b a = some (f b a)) (b : β) : l.foldlM step b = some (l.foldl f b) := by
  induction l generalizing b with
  | nil => rfl
  | cons a l ih =>
    rw [List.foldlM_cons, h b a (List.mem_cons_self ..), Option.bind_eq_bind, Option.bind_some,
      ih fun b a ha => h b a (List.mem_cons_of_mem _ ha), List.foldl_cons]

theorem exists_of_mapM {out : List β} (h : l.mapM f = some out)
    {a : α} (ha : a ∈ l) : ∃ b, f a = some b := by
  cases hf : f a with
  | none =>
    rw [mapM_eq_none ha hf] at h
    cases h
  | some b => exact ⟨b, rfl⟩

/-- What a loop returns: one result a step, each some step's. -/
theorem of_mapM {out : List β} (h : l.mapM f = some out) :
    out.length = l.length ∧ ∀ b ∈ out, ∃ a ∈ l, f a = some b := by
  induction l generalizing out with
  | nil =>
    cases h
    exact ⟨rfl, fun b hb => by cases hb⟩
  | cons a l ih =>
    rw [List.mapM_cons] at h
    obtain ⟨b, hb, h⟩ := Option.bind_eq_some_iff.mp h
    obtain ⟨bs, hbs, h⟩ := Option.bind_eq_some_iff.mp h
    cases h
    obtain ⟨hlen, hmem⟩ := ih hbs
    refine ⟨by rw [List.length_cons, hlen, List.length_cons], fun b' hb' => ?_⟩
    rcases List.mem_cons.mp hb' with rfl | hb'
    · exact ⟨a, List.mem_cons_self .., hb⟩
    · obtain ⟨a', ha', hf⟩ := hmem b' hb'
      exact ⟨a', List.mem_cons_of_mem _ ha', hf⟩

/-- A loop whose steps each give something gives a list of that, place by place. -/
theorem mapM_spec {P : Nat → β → Prop}
    (h : ∀ i a, l[i]? = some a → ∃ b, f a = some b ∧ P i b) :
    ∃ out, l.mapM f = some out ∧ out.length = l.length ∧ ∀ i b, out[i]? = some b → P i b := by
  induction l generalizing P with
  | nil => exact ⟨[], rfl, rfl, fun i b hb => by simp at hb⟩
  | cons a l ih =>
    obtain ⟨b, hb, hP⟩ := h 0 a rfl
    obtain ⟨out, hout, hlen, hall⟩ := ih (P := fun i => P (i + 1)) (fun i c hc => h (i + 1) c hc)
    refine ⟨b :: out, ?_, by rw [List.length_cons, List.length_cons, hlen], ?_⟩
    · rw [List.mapM_cons, hb, hout]
      rfl
    · intro i c hc
      cases i with
      | zero =>
        cases hc
        exact hP
      | succ i => exact hall i c hc

theorem mapM_some {P : β → Prop}
    (h : ∀ a ∈ l, ∃ b, f a = some b ∧ P b) :
    ∃ out, l.mapM f = some out ∧ out.length = l.length ∧ ∀ b ∈ out, P b := by
  obtain ⟨out, hout, hlen, hall⟩ :=
    mapM_spec (P := fun _ => P) fun i a ha => h a (List.mem_of_getElem? ha)
  refine ⟨out, hout, hlen, fun b hb => ?_⟩
  obtain ⟨i, hi⟩ := List.mem_iff_getElem?.mp hb
  exact hall i b hi

/-- What a loop returns, place by place. -/
theorem mapM_get {out : List β} (h : l.mapM f = some out) :
    out.length = l.length ∧ ∀ i < l.length, ∀ a b, f (l.getD i a) = some (out.getD i b) := by
  induction l generalizing out with
  | nil =>
    rw [List.mapM_nil] at h
    cases h
    exact ⟨rfl, fun i hi => absurd hi (Nat.not_lt_zero i)⟩
  | cons a l ih =>
    rw [List.mapM_cons] at h
    obtain ⟨b, hb, h⟩ := Option.bind_eq_some_iff.1 h
    obtain ⟨bs, hbs, h⟩ := Option.bind_eq_some_iff.1 h
    cases h
    refine ⟨by rw [List.length_cons, List.length_cons, (ih hbs).1], ?_⟩
    intro i hi a' b'
    cases i with
    | zero => exact hb
    | succ i => exact (ih hbs).2 i (Nat.lt_of_succ_lt_succ hi) a' b'

/-- What is done to each result is done to all. -/
theorem mapM_map_some (f : α → Option β) (g : β → γ) (l : List α) :
    (l.mapM fun a => (f a).map g) = (l.mapM f).map (List.map g) := by
  induction l with
  | nil => rfl
  | cons a l ih =>
    rw [List.mapM_cons, List.mapM_cons, ih]
    cases f a with
    | none => rfl
    | some b => cases l.mapM f <;> rfl

theorem mapIdx_map_range (f : Nat → α) (g : Nat → α → β) (n : Nat) :
    ((List.range n).map f).mapIdx g = (List.range n).map fun i => g i (f i) := by
  refine List.ext_getElem? fun i => ?_
  rw [List.getElem?_mapIdx, List.getElem?_map, List.getElem?_map]
  rcases Nat.lt_or_ge i n with hi | hi
  · rw [List.getElem?_range hi]
    rfl
  · rw [List.getElem?_eq_none (by rw [List.length_range]; exact hi)]
    rfl

section

variable [AddCommMonoid α]

theorem sum_tab (n : Nat) (f : Nat → α) : (tab n f).sum = ∑ i ∈ Finset.range n, f i := rfl

end

end Colibri.Vectors
