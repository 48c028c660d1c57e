import Mathlib.Data.List.Forall2

/-!
# Running many alone, running them together

A call returns, reports an error, or panics. A batched call *follows* the lone ones
(`Follows`) if what it returns is what each of them returns by itself, and it panics
only where one of them does; an error of its own is its own affair. Following composes:
stage by stage (`Follows.bind`), and over a list of stages (`Follows.foldlM`).

`Outcome` is the type of such calls, with the rules of its bind, and `Outcome.ofOption` and
`Outcome.ofExcept` take calls that can only panic, or only report an error, into it.
`follows_mapM` and `mapM_of_no_error` are about a loop that makes the lone calls in order.
-/

namespace Batch

/-- What a call comes to. -/
inductive Outcome (ε α : Type) where
  | ok (a : α)
  | error (e : ε)
  | panic
  deriving Repr, DecidableEq

section

variable {ε α β : Type}

def Outcome.bind (x : Outcome ε α) (f : α → Outcome ε β) : Outcome ε β :=
  match x with
  | .ok a => f a
  | .error e => .error e
  | .panic => .panic

instance : Monad (Outcome ε) where
  pure := .ok
  bind := Outcome.bind

instance : LawfulMonad (Outcome ε) :=
  LawfulMonad.mk' (Outcome ε)
    (fun x => by cases x <;> rfl)
    (fun _ _ => rfl)
    (fun x _ _ => by cases x <;> rfl)

/-- A failed assertion or a slice out of range. -/
def Outcome.ofOption : Option α → Outcome ε α
  | some a => .ok a
  | none => .panic

theorem Outcome.eq_some_of_ok {x : Option α} {a : α}
    (h : (Outcome.ofOption x : Outcome ε α) = .ok a) : x = some a := by
  cases x with
  | none => cases h
  | some b =>
    cases h
    rfl

def Outcome.ofExcept : Except ε α → Outcome ε α
  | .ok a => .ok a
  | .error e => .error e

@[simp] theorem Outcome.ok_bind (a : α) (f : α → Outcome ε β) :
    (Outcome.ok a >>= f) = f a := rfl

@[simp] theorem Outcome.error_bind (e : ε) (f : α → Outcome ε β) :
    (Outcome.error e >>= f) = Outcome.error e := rfl

@[simp] theorem Outcome.panic_bind (f : α → Outcome ε β) :
    ((Outcome.panic : Outcome ε α) >>= f) = Outcome.panic := rfl

@[simp] theorem Outcome.pure_eq (a : α) : (pure a : Outcome ε α) = Outcome.ok a := rfl

variable {x : Outcome ε α}

theorem Outcome.bind_of_ok {a : α} (h : x = .ok a) (f : α → Outcome ε β) :
    (x >>= f) = f a := by
  rw [h, ok_bind]

theorem Outcome.bind_of_panic (h : x = .panic) (f : α → Outcome ε β) :
    (x >>= f) = .panic := by
  rw [h, panic_bind]

/-- An error, or a value that has the property; no panic. -/
def Outcome.Holds (x : Outcome ε α) (P : α → Prop) : Prop :=
  match x with
  | .ok a => P a
  | .error _ => True
  | .panic => False

theorem Outcome.holds_bind {f : α → Outcome ε β} {P : β → Prop} :
    (x >>= f).Holds P ↔ x.Holds fun a => (f a).Holds P := by
  cases x <;> exact Iff.rfl

theorem Outcome.bind_eq_ok {f : α → Outcome ε β} {b : β}
    (h : (x >>= f) = .ok b) : ∃ a, x = .ok a ∧ f a = .ok b := by
  cases x with
  | ok a => exact ⟨a, rfl, h⟩
  | error e => cases h
  | panic => cases h

end

section

variable {ε σ τ υ : Type}

/-- The batched call `b` follows the lone calls `f x`, one for each `x` of `xs`. -/
def Follows (b : Outcome ε (List τ)) (f : σ → Outcome ε τ) (xs : List σ) : Prop :=
  match b with
  | .ok ys => List.Forall₂ (fun x y => f x = .ok y) xs ys
  | .error _ => True
  | .panic => ∃ x ∈ xs, f x = .panic

theorem follows_error (e : ε) (f : σ → Outcome ε τ) (xs : List σ) :
    Follows (.error e) f xs := trivial

theorem follows_map (g : σ → τ) (xs : List σ) :
    Follows (ε := ε) (.ok (xs.map g)) (fun x => .ok (g x)) xs := by
  refine List.forall₂_map_right_iff.mpr (List.forall₂_same.mpr fun x _ => ?_)
  rfl

variable {xs : List σ} {f : σ → Outcome ε τ}

theorem exists_left {R : σ → τ → Prop} {ys : List τ} (h : List.Forall₂ R xs ys)
    {y : τ} (hy : y ∈ ys) : ∃ x ∈ xs, R x y := by
  induction h with
  | nil => cases hy
  | cons hxy _ ih =>
    rcases List.mem_cons.mp hy with rfl | hmem
    · exact ⟨_, List.mem_cons_self .., hxy⟩
    · obtain ⟨x, hx, h⟩ := ih hmem
      exact ⟨x, List.mem_cons_of_mem _ hx, h⟩

/-- Lone calls made one after the other. -/
theorem follows_mapM (f : σ → Outcome ε τ) (xs : List σ) : Follows (xs.mapM f) f xs := by
  induction xs with
  | nil =>
    rw [List.mapM_nil]
    exact List.Forall₂.nil
  | cons x xs ih =>
    rw [List.mapM_cons]
    cases hx : f x with
    | error e => trivial
    | panic => exact ⟨x, List.mem_cons_self .., hx⟩
    | ok y =>
      rw [Outcome.ok_bind]
      cases hxs : xs.mapM f with
      | error e => trivial
      | panic =>
        rw [hxs] at ih
        obtain ⟨z, hz, hp⟩ := ih
        exact ⟨z, List.mem_cons_of_mem _ hz, hp⟩
      | ok ys =>
        rw [hxs] at ih
        exact List.Forall₂.cons hx ih

/-- Lone calls that report no error, made one after the other. -/
theorem mapM_of_no_error (h : ∀ x ∈ xs, ∀ e, f x ≠ .error e) :
    xs.mapM f = .panic ∨ ∃ ys, xs.mapM f = .ok ys ∧ ys.length = xs.length := by
  induction xs with
  | nil => exact Or.inr ⟨[], List.mapM_nil, rfl⟩
  | cons x xs ih =>
    rw [List.mapM_cons]
    cases hx : f x with
    | error e => exact absurd hx (h x (List.mem_cons_self ..) e)
    | panic => exact Or.inl rfl
    | ok y =>
      rw [Outcome.ok_bind]
      rcases ih fun x hx => h x (List.mem_cons_of_mem _ hx) with hp | ⟨ys, hys, hlen⟩
      · exact Or.inl (Outcome.bind_of_panic hp _)
      · refine Or.inr ⟨y :: ys, Outcome.bind_of_ok hys _, ?_⟩
        rw [List.length_cons, List.length_cons, hlen]

/-- Lone calls that all return. -/
theorem mapM_of_ok {g : σ → τ} (h : ∀ x ∈ xs, f x = .ok (g x)) :
    xs.mapM f = .ok (xs.map g) := by
  induction xs with
  | nil => exact List.mapM_nil
  | cons x xs ih =>
    rw [List.mapM_cons, h x (List.mem_cons_self ..), Outcome.ok_bind,
      ih fun x hx => h x (List.mem_cons_of_mem _ hx)]
    rfl

theorem ok_of_mapM {ys : List τ} (h : xs.mapM f = .ok ys) :
    ∀ x ∈ xs, ∃ y, f x = .ok y := by
  induction xs generalizing ys with
  | nil =>
    intro x hx
    cases hx
  | cons x xs ih =>
    rw [List.mapM_cons] at h
    obtain ⟨y, hy, h⟩ := Outcome.bind_eq_ok h
    obtain ⟨ys', hys, -⟩ := Outcome.bind_eq_ok h
    intro x' hx'
    rcases List.mem_cons.mp hx' with rfl | hx'
    · exact ⟨y, hy⟩
    · exact ih hys x' hx'

/-- One stage after another. -/
theorem Follows.bind {b : Outcome ε (List τ)}
    {k : List τ → Outcome ε (List υ)} {g : τ → Outcome ε υ} (h : Follows b f xs)
    (hk : ∀ ys, List.Forall₂ (fun x y => f x = .ok y) xs ys → Follows (k ys) g ys) :
    Follows (b >>= k) (fun x => f x >>= g) xs := by
  cases b with
  | error e => trivial
  | panic =>
    obtain ⟨x, hx, hp⟩ := h
    exact ⟨x, hx, Outcome.bind_of_panic hp g⟩
  | ok ys =>
    have hys : List.Forall₂ (fun x y => f x = .ok y) xs ys := h
    have hnext := hk ys hys
    rw [Outcome.ok_bind]
    cases hks : k ys with
    | error e => trivial
    | panic =>
      rw [hks] at hnext
      obtain ⟨y, hy, hp⟩ := hnext
      -- the one that panics comes from an `x` whose first stage returned
      obtain ⟨x, hx, hxy⟩ := exists_left hys hy
      exact ⟨x, hx, (Outcome.bind_of_ok hxy g).trans hp⟩
    | ok zs =>
      rw [hks] at hnext
      have hzs : List.Forall₂ (fun y z => g y = .ok z) ys zs := hnext
      clear hnext hk h hks
      induction hys generalizing zs with
      | nil =>
        cases hzs
        exact List.Forall₂.nil
      | cons hxy _ ih =>
        cases hzs with
        | cons hyz hrest =>
          exact List.Forall₂.cons ((Outcome.bind_of_ok hxy g).trans hyz) (ih _ hrest)

/-- A loop of stages, where each follows on the states that satisfy `Inv`. -/
theorem Follows.foldlM {L : Type} (Inv : σ → Prop)
    {batch : List σ → L → Outcome ε (List σ)} {lone : σ → L → Outcome ε σ} {layers : List L}
    (hstep : ∀ l ∈ layers, ∀ xs, (∀ x ∈ xs, Inv x) →
      Follows (batch xs l) (fun x => lone x l) xs)
    (hkeep : ∀ l ∈ layers, ∀ x y, Inv x → lone x l = .ok y → Inv y)
    (hinv : ∀ x ∈ xs, Inv x) :
    Follows (layers.foldlM batch xs) (fun x => layers.foldlM lone x) xs := by
  induction layers generalizing xs with
  | nil =>
    simp only [List.foldlM_nil]
    exact List.forall₂_same.mpr fun x _ => rfl
  | cons l layers ih =>
    simp only [List.foldlM_cons]
    refine Follows.bind (hstep l (List.mem_cons_self ..) xs hinv) fun ys hys => ?_
    refine ih (fun l' hl' => hstep l' (List.mem_cons_of_mem _ hl'))
      (fun l' hl' => hkeep l' (List.mem_cons_of_mem _ hl')) fun y hy => ?_
    obtain ⟨x, hx, hxy⟩ := exists_left hys hy
    exact hkeep l (List.mem_cons_self ..) x y (hinv x hx) hxy

end

end Batch
