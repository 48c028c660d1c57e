import Mathlib.Data.List.Basic

/-!
# A sequence cut into calls

A call takes a state and some elements, and gives an output for each and a new state, or
panics. Where a call over two stretches is a call over the first and then one over the
second (`Splits`), calls over the chunks of a sequence come to one call over all of it
(`runChunks_eq`).

Splitting is asked of nonempty stretches only, and of states that satisfy an invariant,
which may speak of the elements still to come.

One kind of call that splits is the causal one (`Causal.splits`): it writes a row for every
position to a store and then computes an output for every position, and what is written at
a position changes no output before it.

A causal call is made of two loops. `mapFrom` is the second one, over elements and their positions,
with the rules to cut it, to change its step, and to put two into one.
-/

namespace Colibri.Chunks

variable {σ α β γ : Type}

/-- A call: outputs and the state left behind, or none for a panic. -/
abbrev Call (σ α β : Type) : Type := σ → List α → Option (List β × σ)

/-- A call over `x`, and then one over `y`. -/
def Call.followed (call : Call σ α β) (st : σ) (x y : List α) : Option (List β × σ) :=
  (call st x).bind fun first => (call first.2 y).map fun next => (first.1 ++ next.1, next.2)

/-- A call over each chunk in turn. -/
def Call.runChunks (call : Call σ α β) : σ → List (List α) → Option (List β × σ)
  | st, [] => some ([], st)
  | st, c :: cs =>
    (call st c).bind fun first =>
      (runChunks call first.2 cs).map fun next => (first.1 ++ next.1, next.2)

theorem Call.runChunks_cons (call : Call σ α β) (st : σ) (c : List α) (cs : List (List α)) :
    call.runChunks st (c :: cs) = (call st c).bind fun first =>
      (call.runChunks first.2 cs).map fun next => (first.1 ++ next.1, next.2) := rfl

/-- Cutting a call in two changes nothing. -/
structure Splits (call : Call σ α β) (Inv : σ → List α → Prop) : Prop where
  keeps : ∀ st x y out st', Inv st (x ++ y) → x ≠ [] → call st x = some (out, st') → Inv st' y
  split : ∀ st x y, Inv st (x ++ y) → x ≠ [] → y ≠ [] →
    call st (x ++ y) = call.followed st x y

section

variable {call : Call σ α β} {Inv : σ → List α → Prop}

/-- **Calls over the chunks are one call over the sequence**, whichever way it is cut. -/
theorem Splits.runChunks_eq (h : Splits call Inv) {st : σ} {c : List α} {cs : List (List α)}
    (hst : Inv st (c :: cs).flatten) (hc : c ≠ []) (hcs : ∀ c' ∈ cs, c' ≠ []) :
    call.runChunks st (c :: cs) = call st (c :: cs).flatten := by
  induction cs generalizing st c with
  | nil =>
    rw [Call.runChunks_cons, List.flatten_singleton]
    cases hcall : call st c with
    | none => rfl
    | some first => simp [Call.runChunks]
  | cons d ds ih =>
    have hd : d ≠ [] := hcs d (List.mem_cons_self ..)
    have hds : ∀ c' ∈ ds, c' ≠ [] := fun c' hc' => hcs c' (List.mem_cons_of_mem _ hc')
    have hrest : (d :: ds).flatten ≠ [] := by
      intro hnil
      rw [List.flatten_cons, List.append_eq_nil_iff] at hnil
      exact hd hnil.1
    rw [List.flatten_cons] at hst
    rw [List.flatten_cons, h.split st c _ hst hc hrest, Call.runChunks_cons, Call.followed]
    cases hcall : call st c with
    | none => rfl
    | some first =>
      have hinv : Inv first.2 (d :: ds).flatten := h.keeps st c _ first.1 first.2 hst hc hcall
      show ((call.runChunks first.2 (d :: ds)).map _) = _
      rw [ih hinv hd hds]
      rfl

/-- A call splits where it is one that does, over the states of an invariant. -/
theorem Splits.of_eq {call' : Call σ α β} (h : Splits call' fun _ _ => True)
    (hkeeps : ∀ st x y out st', Inv st (x ++ y) → x ≠ [] → call' st x = some (out, st') →
      Inv st' y)
    (heq : ∀ st x y, Inv st (x ++ y) → x ≠ [] → call st x = call' st x) : Splits call Inv where
  keeps st x y out st' hst hx hcall := by
    rw [heq st x y hst hx] at hcall
    exact hkeeps st x y out st' hst hx hcall
  split st x y hst hx hy := by
    have hxy : x ++ y ≠ [] := fun hnil => hx (List.append_eq_nil_iff.mp hnil).1
    have hwhole : call st (x ++ y) = call' st (x ++ y) :=
      heq st (x ++ y) [] (by rw [List.append_nil]; exact hst) hxy
    rw [hwhole, h.split st x y trivial hx hy, Call.followed, Call.followed, heq st x y hst hx]
    cases hcall : call' st x with
    | none => rfl
    | some first =>
      have hinv : Inv first.2 (y ++ []) := by
        rw [List.append_nil]
        exact hkeeps st x y first.1 first.2 hst hx hcall
      rw [Option.bind_some, Option.bind_some, heq first.2 y [] hinv hy]

end

/-! ## Loops over positions -/

/-- A step for every element, each at its position. -/
def mapFrom (f : Nat → α → Option β) : Nat → List α → Option (List β)
  | _, [] => some []
  | p, a :: as => (f p a).bind fun b => (mapFrom f (p + 1) as).map (b :: ·)

theorem mapFrom_nil (f : Nat → α → Option β) (p : Nat) : mapFrom f p [] = some [] := rfl

theorem mapFrom_cons (f : Nat → α → Option β) (p : Nat) (a : α) (as : List α) :
    mapFrom f p (a :: as) = (f p a).bind fun b => (mapFrom f (p + 1) as).map (b :: ·) := rfl

theorem mapFrom_append (f : Nat → α → Option β) (p : Nat) (x y : List α) :
    mapFrom f p (x ++ y)
      = (mapFrom f p x).bind fun xs => (mapFrom f (p + x.length) y).map (xs ++ ·) := by
  induction x generalizing p with
  | nil => simp [mapFrom_nil]
  | cons a x ih =>
    have hp : p + (x.length + 1) = p + 1 + x.length := by omega
    rw [List.cons_append, mapFrom_cons, mapFrom_cons, ih, List.length_cons, hp]
    cases f p a with
    | none => rfl
    | some b =>
      cases mapFrom f (p + 1) x with
      | none => rfl
      | some xs => cases mapFrom f (p + 1 + x.length) y <;> rfl

theorem mapFrom_congr {f g : Nat → α → Option β} {p : Nat} {x : List α}
    (h : ∀ q, p ≤ q → q < p + x.length → ∀ a ∈ x, f q a = g q a) :
    mapFrom f p x = mapFrom g p x := by
  induction x generalizing p with
  | nil => rfl
  | cons a x ih =>
    rw [List.length_cons] at h
    rw [mapFrom_cons, mapFrom_cons, h p (Nat.le_refl p) (by omega) a (List.mem_cons_self ..),
      ih fun q hlow hhigh b hb =>
        h q (by omega) (by omega) b (List.mem_cons_of_mem _ hb)]

/-- A step that does not look at the position. -/
theorem mapFrom_const (f : α → Option β) (p : Nat) (x : List α) :
    mapFrom (fun _ => f) p x = x.mapM f := by
  induction x generalizing p with
  | nil => rfl
  | cons a x ih =>
    rw [mapFrom_cons, List.mapM_cons, ih]
    cases f a with
    | none => rfl
    | some b => cases hx : x.mapM f <;> simp

/-- Two loops, one over what the other gives. -/
theorem mapFrom_bind (f : Nat → α → Option β) (g : Nat → β → Option γ) (p : Nat) (x : List α) :
    (mapFrom f p x).bind (mapFrom g p) = mapFrom (fun q a => (f q a).bind (g q)) p x := by
  induction x generalizing p with
  | nil => rfl
  | cons a x ih =>
    rw [mapFrom_cons, mapFrom_cons, ← ih]
    cases f p a with
    | none => rfl
    | some b =>
      cases mapFrom f (p + 1) x with
      | none =>
        rw [Option.bind_some, Option.bind_some]
        cases g p b <;> rfl
      | some bs => rfl

/-- A loop, and a function of each thing it gives. -/
theorem mapFrom_map (f : Nat → α → Option β) (g : β → γ) (p : Nat) (x : List α) :
    (mapFrom f p x).map (·.map g) = mapFrom (fun q a => (f q a).map g) p x := by
  induction x generalizing p with
  | nil => rfl
  | cons a x ih =>
    rw [mapFrom_cons, mapFrom_cons, ← ih]
    cases f p a with
    | none => rfl
    | some b => cases mapFrom f (p + 1) x <;> rfl

/-- Two loops over the same elements. -/
theorem mapFrom_zip (f : Nat → α → Option β) (g : Nat → α → Option γ) (p : Nat) (x : List α) :
    ((mapFrom f p x).bind fun bs => (mapFrom g p x).map fun cs => bs.zip cs)
      = mapFrom (fun q a => (f q a).bind fun b => (g q a).map fun c => (b, c)) p x := by
  induction x generalizing p with
  | nil => rfl
  | cons a x ih =>
    rw [mapFrom_cons, mapFrom_cons, mapFrom_cons, ← ih]
    cases f p a with
    | none => rfl
    | some b =>
      cases g p a with
      | none => cases mapFrom f (p + 1) x <;> rfl
      | some c =>
        cases mapFrom f (p + 1) x with
        | none => rfl
        | some bs => cases mapFrom g (p + 1) x <;> rfl

/-- A loop over elements and their indices. -/
theorem zipIdx_mapM (f : Nat → α → Option β) (p : Nat) (x : List α) :
    x.zipIdx.mapM (fun as => f (p + as.2) as.1) = mapFrom f p x := by
  have hfrom : ∀ n, (x.zipIdx n).mapM (fun as => f (p + as.2) as.1) = mapFrom f (p + n) x := by
    intro n
    induction x generalizing n with
    | nil => rfl
    | cons a x ih =>
      rw [List.zipIdx_cons, List.mapM_cons, ih, mapFrom_cons, Option.bind_eq_bind]
      dsimp only
      cases f (p + n) a with
      | none => rfl
      | some b =>
        rw [← Nat.add_assoc]
        cases mapFrom f (p + n + 1) x <;> rfl
  exact hfrom 0

/-- A loop whose steps panic where a condition fails. -/
theorem mapFrom_ite {P : Nat → α → Prop} [∀ q a, Decidable (P q a)] (g : Nat → α → β) (p : Nat)
    (x : List α) {ys : List β} :
    mapFrom (fun q a => if P q a then some (g q a) else none) p x = some ys ↔
      (∀ s, ∀ h : s < x.length, P (p + s) x[s]) ∧ ys = x.mapIdx fun s a => g (p + s) a := by
  induction x generalizing p ys with
  | nil =>
    simp only [mapFrom_nil, Option.some.injEq, List.mapIdx_nil]
    exact ⟨fun h => ⟨fun _ h => absurd h (Nat.not_lt_zero _), h.symm⟩, fun h => h.2.symm⟩
  | cons a x ih =>
    have hshift : (fun (s : Nat) a => g (p + (s + 1)) a) = fun s a => g (p + 1 + s) a := by
      funext s a
      rw [Nat.add_right_comm, Nat.add_assoc]
    rw [mapFrom_cons, List.mapIdx_cons, hshift]
    by_cases ha : P p a
    · rw [if_pos ha, Option.bind_some, Option.map_eq_some_iff]
      constructor
      · intro ⟨bs, hbs, hys⟩
        obtain ⟨hall, rfl⟩ := ih (p + 1) |>.mp hbs
        refine ⟨fun s hs => ?_, hys.symm⟩
        cases s with
        | zero => exact ha
        | succ s =>
          have := hall s (Nat.lt_of_succ_lt_succ hs)
          rwa [Nat.add_assoc, Nat.add_comm 1 s] at this
      · intro ⟨hall, hys⟩
        refine ⟨_, (ih (p + 1)).mpr ⟨fun s hs => ?_, rfl⟩, hys.symm⟩
        have := hall (s + 1) (Nat.succ_lt_succ hs)
        rwa [← Nat.add_assoc, Nat.add_right_comm] at this
    · rw [if_neg ha, Option.bind_none]
      exact iff_of_false (fun h => by cases h) fun h => ha (h.1 0 (Nat.succ_pos _))

/-! ## Causal calls -/

/-- A store with a row for every position: what a call writes at one, and the output it
computes there. -/
structure Causal (σ α β : Type) where
  write : Nat → α → σ → Option σ
  out : σ → Nat → α → Option β
  /-- an output does not change with what is written behind it -/
  behind : ∀ st st' p a, write p a st = some st' → ∀ q < p, ∀ b, out st' q b = out st q b

namespace Causal

variable (c : Causal σ α β)

/-- The rows of a stretch, one position after another. -/
def writes : Nat → List α → σ → Option σ
  | _, [], st => some st
  | p, a :: as, st => (c.write p a st).bind (writes (p + 1) as)

/-- A call over a stretch: every row is written, and then every output computed. -/
def call : Call (σ × Nat) α β := fun st x =>
  (c.writes st.2 x st.1).bind fun st' =>
    (mapFrom (c.out st') st.2 x).map fun ys => (ys, st', st.2 + x.length)

variable {c}

theorem call_eq_some {st st' : σ × Nat} {x : List α} {out : List β} :
    c.call st x = some (out, st') ↔ c.writes st.2 x st.1 = some st'.1 ∧
      mapFrom (c.out st'.1) st.2 x = some out ∧ st'.2 = st.2 + x.length := by
  unfold call
  rw [Option.bind_eq_some_iff]
  constructor
  · intro ⟨kept, hwrites, h⟩
    obtain ⟨ys, hys, heq⟩ := Option.map_eq_some_iff.mp h
    cases heq
    exact ⟨hwrites, hys, rfl⟩
  · intro ⟨hwrites, hys, hpos⟩
    refine ⟨st'.1, hwrites, Option.map_eq_some_iff.mpr ⟨out, hys, ?_⟩⟩
    rw [← hpos]

theorem writes_append {p : Nat} {x y : List α} {st : σ} :
    c.writes p (x ++ y) st = (c.writes p x st).bind (c.writes (p + x.length) y) := by
  induction x generalizing p st with
  | nil => rfl
  | cons a x ih =>
    have hp : p + (x.length + 1) = p + 1 + x.length := by omega
    rw [List.cons_append, writes, writes, List.length_cons, hp]
    cases c.write p a st with
    | none => rfl
    | some st' => exact ih

/-- What a stretch writes changes no output before it. -/
theorem writes_behind {p : Nat} {x : List α} {st st' : σ} (h : c.writes p x st = some st')
    {q : Nat} (hq : q < p) (b : α) : c.out st' q b = c.out st q b := by
  induction x generalizing p st with
  | nil =>
    cases h
    rfl
  | cons a x ih =>
    obtain ⟨st₁, hwrite, hrest⟩ := Option.bind_eq_some_iff.mp h
    rw [ih hrest (by omega), c.behind st st₁ p a hwrite q hq b]

/-- **A causal call splits**: the outputs of the first stretch do not see the second. -/
theorem splits : Splits c.call fun _ _ => True where
  keeps _ _ _ _ _ _ _ _ := trivial
  split st x y _ _ _ := by
    unfold Call.followed call
    rw [writes_append]
    cases hx : c.writes st.2 x st.1 with
    | none => rfl
    | some st₁ =>
      rw [Option.bind_some, Option.bind_some]
      cases hy : c.writes (st.2 + x.length) y st₁ with
      | none =>
        cases mapFrom (c.out st₁) st.2 x with
        | none => rfl
        | some xs =>
          rw [Option.map_some, Option.bind_some]
          dsimp only
          rw [hy]
          rfl
      | some st₂ =>
        have hfirst : mapFrom (c.out st₂) st.2 x = mapFrom (c.out st₁) st.2 x :=
          mapFrom_congr fun q _ hq a _ => writes_behind hy hq a
        rw [Option.bind_some, mapFrom_append, hfirst]
        cases mapFrom (c.out st₁) st.2 x with
        | none => rfl
        | some xs =>
          rw [Option.map_some, Option.bind_some, Option.bind_some]
          dsimp only
          rw [hy, Option.bind_some, List.length_append, Nat.add_assoc]
          cases mapFrom (c.out st₂) (st.2 + x.length) y <;> rfl

end Causal

end Colibri.Chunks
