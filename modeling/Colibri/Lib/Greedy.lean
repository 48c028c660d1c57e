import Mathlib.Data.List.Basic

/-!
# A greedy run, one token at a time

A machine asks for the token its state prefers, and is fed tokens one at a time. A
greedy run feeds it what it asks for until it has enough, is told to halt, or a feed
fails. `Trail` is the other half: the states a machine passes through when it is fed a
list somebody else proposed. A proposal that agrees with what the machine asks for at
every state of its trail is a stretch of the greedy run (`run_feed`).

`run_succ` is one turn of a run, with the three ways it may end. The rules of `Trail` cut one at a
point (`Trail.take`), and put two together where the first one ends.
-/

namespace Colibri.Greedy

/-- `next` is the token a state asks for, `feed` the state after a token. -/
structure Machine (S T E : Type) where
  next : S → T
  feed : S → T → Except E S

section

variable {S T E : Type} (M : Machine S T E) (halts : List T → Bool)

/-- At most `n` more tokens after those of `hist`, and the failure that ended the run, if
one did. The last token wanted is not fed. -/
def run : Nat → S → List T → List T × Option E
  | 0, _, hist => (hist, none)
  | n + 1, s, hist =>
    let hist := hist ++ [M.next s]
    if halts hist ∨ n = 0 then (hist, none)
    else
      match M.feed s (M.next s) with
      | .error e => (hist, some e)
      | .ok s' => run n s' hist

variable {M halts}

theorem run_succ (n : Nat) (s : S) (hist : List T) :
    run M halts (n + 1) s hist =
      if halts (hist ++ [M.next s]) ∨ n = 0 then (hist ++ [M.next s], none)
      else
        match M.feed s (M.next s) with
        | .error e => (hist ++ [M.next s], some e)
        | .ok s' => run M halts n s' (hist ++ [M.next s]) := rfl

theorem run_halt {n : Nat} {s : S} {hist : List T} (h : halts (hist ++ [M.next s]) = true) :
    run M halts (n + 1) s hist = (hist ++ [M.next s], none) := by
  rw [run_succ]
  exact if_pos (Or.inl h)

theorem run_one {s : S} {hist : List T} :
    run M halts 1 s hist = (hist ++ [M.next s], none) := by
  rw [run_succ]
  exact if_pos (Or.inr rfl)

/-- One step of a run that goes on. With one token left there is no feed, and both sides
are the history with its last token. -/
theorem run_feed {n : Nat} {s s' : S} {hist : List T}
    (h : halts (hist ++ [M.next s]) = false) (hf : M.feed s (M.next s) = .ok s') :
    run M halts (n + 1) s hist = run M halts n s' (hist ++ [M.next s]) := by
  cases n with
  | zero => exact run_one
  | succ n =>
    rw [run_succ]
    simp only [h, hf]
    exact if_neg (by simp)

theorem run_fail {n : Nat} {s : S} {hist : List T} {e : E}
    (h : halts (hist ++ [M.next s]) = false) (hf : M.feed s (M.next s) = .error e) :
    run M halts (n + 2) s hist = (hist ++ [M.next s], some e) := by
  rw [run_succ]
  simp only [h, hf]
  exact if_neg (by simp)

/-- A run only adds to its history. -/
theorem prefix_run (n : Nat) (s : S) (hist : List T) : hist <+: (run M halts n s hist).1 := by
  induction n generalizing s hist with
  | zero => exact List.prefix_rfl
  | succ n ih =>
    have hone : hist <+: hist ++ [M.next s] := List.prefix_append ..
    rw [run_succ]
    split
    · exact hone
    · cases M.feed s (M.next s) with
      | error e => exact hone
      | ok s' => exact hone.trans (ih s' _)

/-- The token a run offers first stands right after its history. -/
theorem prefix_run_next (n : Nat) (s : S) (hist : List T) :
    hist ++ [M.next s] <+: (run M halts (n + 1) s hist).1 := by
  rw [run_succ]
  split
  · exact List.prefix_rfl
  · cases M.feed s (M.next s) with
    | error e => exact List.prefix_rfl
    | ok s' => exact prefix_run n s' _

end

section

variable {S T E : Type} {M : Machine S T E}

/-- Fed `ts` from `s`, the machine passes through the states `l`, one for each token. -/
inductive Trail (M : Machine S T E) : S → List T → List S → Prop
  | nil (s : S) : Trail M s [] []
  | cons {s s' : S} {t : T} {ts : List T} {l : List S} (hf : M.feed s t = .ok s')
      (h : Trail M s' ts l) : Trail M s (t :: ts) (s' :: l)

namespace Trail

variable {s : S} {ts : List T} {l l' : List S}

theorem length_eq (h : Trail M s ts l) : l.length = ts.length := by
  induction h with
  | nil => rfl
  | cons _ _ ih => rw [List.length_cons, List.length_cons, ih]

theorem of_cons {t : T} (h : Trail M s (t :: ts) l) :
    ∃ s' l', M.feed s t = .ok s' ∧ Trail M s' ts l' ∧ l = s' :: l' := by
  cases h with
  | cons hf h => exact ⟨_, _, hf, h, rfl⟩

/-- Feeding is a function. -/
theorem unique (h : Trail M s ts l) (h' : Trail M s ts l') : l = l' := by
  induction h generalizing l' with
  | nil => cases h'; rfl
  | cons hf _ ih =>
    cases h' with
    | cons hf' h' =>
      rw [hf] at hf'
      cases hf'
      rw [ih h']

theorem take (h : Trail M s ts l) (k : Nat) : Trail M s (ts.take k) (l.take k) := by
  induction h generalizing k with
  | nil s => simpa using Trail.nil s
  | cons hf _ ih =>
    cases k with
    | zero => exact Trail.nil _
    | succ k => exact Trail.cons hf (ih k)

/-- The rest of a trail starts where its first `k` tokens lead. -/
theorem drop (h : Trail M s ts l) {k : Nat} {x : S} (hx : (s :: l)[k]? = some x) :
    Trail M x (ts.drop k) (l.drop k) := by
  induction h generalizing k with
  | nil s =>
    cases k with
    | zero => cases hx; exact Trail.nil _
    | succ k => simp at hx
  | cons hf h ih =>
    cases k with
    | zero => cases hx; exact Trail.cons hf h
    | succ k => exact ih hx

/-- What a feed keeps, all later states keep. -/
theorem keeps (h : Trail M s ts l) {R : S → S → Prop}
    (htrans : ∀ x y z, R x y → R y z → R x z)
    (hstep : ∀ x t y, M.feed x t = .ok y → R x y) : ∀ x ∈ l, R s x := by
  induction h with
  | nil => intro x hx; cases hx
  | cons hf _ ih =>
    intro x hx
    rcases List.mem_cons.mp hx with rfl | hx
    · exact hstep _ _ _ hf
    · exact htrans _ _ _ (hstep _ _ _ hf) (ih x hx)

end Trail

end

end Colibri.Greedy
