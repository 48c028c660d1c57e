import Mathlib.Data.List.Basic

/-!
# Lines of a stream that comes in pieces

A buffered reader gets a stream in pieces, cut anywhere. `readUntil` returns all up to and with a
delimiter, `readExact` a number of items; both go on to the next piece when one is used up.
Where the pieces are cut makes no difference: the line is the one the whole stream has
(`readUntil_iff`), and so are the items (`readExact_eq`).

`fails` says that the read after the last piece reports an error instead of the end.

`IsLine` says what the line of a stream is, without the pieces: up to and with the first delimiter,
or all of it where the stream has none and ends without an error. It is unique
(`IsLine.unique`), and a read finds it (`readUntil_isLine`), by induction on the pieces.
-/

namespace Colibri.Lines

section

variable {α : Type} [DecidableEq α]

/-- All up to and with the first `delim`, and what is after it. -/
def splitAfter (delim : α) : List α → Option (List α × List α)
  | [] => none
  | a :: as =>
    if a = delim then some ([a], as)
    else (splitAfter delim as).map fun p => (a :: p.1, p.2)

/-- The next line and the pieces that are left. A piece that is used up is left empty. -/
def readUntil (fails : Bool) (delim : α) : List (List α) → Option (List α × List (List α))
  | [] => if fails then none else some ([], [])
  | c :: cs =>
    match splitAfter delim c with
    | some (l, r) => some (l, r :: cs)
    | none => (readUntil fails delim cs).map fun p => (c ++ p.1, p.2)

/-- `l` is the next line of `bs`, and `rest` comes after it: it ends with the delimiter, or the
stream ends without one. -/
structure IsLine (fails : Bool) (delim : α) (bs l rest : List α) : Prop where
  split : bs = l ++ rest
  ends : (∃ m, delim ∉ m ∧ l = m ++ [delim]) ∨ (delim ∉ l ∧ rest = [] ∧ fails = false)

variable {delim : α} {l : List α} {fails : Bool}

theorem splitAfter_none {c : List α} (h : splitAfter delim c = none) :
    delim ∉ c := by
  induction c with
  | nil => simp
  | cons a as ih =>
    rw [splitAfter] at h
    split at h
    next => cases h
    next hne =>
      intro hmem
      rcases List.mem_cons.mp hmem with heq | hmem
      · exact hne heq.symm
      · exact ih (Option.map_eq_none_iff.mp h) hmem

/-- A piece with the delimiter, cut behind the first one. -/
theorem splitAfter_some {c r : List α} (h : splitAfter delim c = some (l, r)) :
    c = l ++ r ∧ ∃ m, delim ∉ m ∧ l = m ++ [delim] := by
  induction c generalizing l with
  | nil => cases h
  | cons a as ih =>
    rw [splitAfter] at h
    split at h
    next heq =>
      cases h
      subst heq
      exact ⟨rfl, [], by simp, rfl⟩
    next hne =>
      obtain ⟨⟨l', r'⟩, hl', heq⟩ := Option.map_eq_some_iff.mp h
      cases heq
      obtain ⟨hsplit, m, hm, hl⟩ := ih hl'
      refine ⟨?_, a :: m, ?_, ?_⟩
      · rw [hsplit]
        rfl
      · intro hmem
        rcases List.mem_cons.mp hmem with heq | hmem
        · exact hne heq.symm
        · exact hm hmem
      · simp only [hl, List.cons_append]

omit [DecidableEq α] in
theorem IsLine.append {c bs rest : List α} (hc : delim ∉ c)
    (h : IsLine fails delim bs l rest) : IsLine fails delim (c ++ bs) (c ++ l) rest := by
  refine ⟨by rw [h.split, List.append_assoc], ?_⟩
  rcases h.ends with ⟨m, hm, hl⟩ | ⟨hl, hrest, hfails⟩
  · refine Or.inl ⟨c ++ m, ?_, by rw [hl, List.append_assoc]⟩
    intro hmem
    exact (List.mem_append.mp hmem).elim hc hm
  · refine Or.inr ⟨?_, hrest, hfails⟩
    intro hmem
    exact (List.mem_append.mp hmem).elim hc hl

/-- What a read returns is the line of the stream. -/
theorem readUntil_isLine {cs cs' : List (List α)}
    (h : readUntil fails delim cs = some (l, cs')) :
    IsLine fails delim cs.flatten l cs'.flatten := by
  induction cs generalizing l with
  | nil =>
    rw [readUntil] at h
    split at h
    next => cases h
    next hfails =>
      cases h
      exact ⟨rfl, Or.inr ⟨by simp, rfl, by simpa using hfails⟩⟩
  | cons c cs ih =>
    rw [readUntil] at h
    split at h
    next l' r hc =>
      cases h
      obtain ⟨hsplit, hends⟩ := splitAfter_some hc
      refine ⟨?_, Or.inl hends⟩
      rw [List.flatten_cons, List.flatten_cons, hsplit, List.append_assoc]
    next hc =>
      obtain ⟨⟨l', cs''⟩, hl', heq⟩ := Option.map_eq_some_iff.mp h
      cases heq
      exact (ih hl').append (splitAfter_none hc)

/-- Only a stream that fails without a delimiter has no line. -/
theorem readUntil_none {cs : List (List α)}
    (h : readUntil fails delim cs = none) : fails = true ∧ delim ∉ cs.flatten := by
  induction cs with
  | nil =>
    rw [readUntil] at h
    split at h
    next hfails => exact ⟨hfails, by simp⟩
    next => cases h
  | cons c cs ih =>
    rw [readUntil] at h
    split at h
    next => cases h
    next hc =>
      obtain ⟨hfails, hcs⟩ := ih (Option.map_eq_none_iff.mp h)
      refine ⟨hfails, ?_⟩
      intro hmem
      rcases List.mem_append.mp hmem with hmem | hmem
      · exact splitAfter_none hc hmem
      · exact hcs hmem

omit [DecidableEq α] in
/-- Two lists are cut the same way at their first `delim`. -/
theorem append_cons_inj {m n r s : List α} (hm : delim ∉ m) (hn : delim ∉ n)
    (h : m ++ delim :: r = n ++ delim :: s) : m = n ∧ r = s := by
  induction m generalizing n with
  | nil =>
    cases n with
    | nil => exact ⟨rfl, (List.cons.inj h).2⟩
    | cons b n =>
      have hb : delim = b := (List.cons.inj h).1
      simp [hb] at hn
  | cons a m ih =>
    cases n with
    | nil =>
      have ha : a = delim := (List.cons.inj h).1
      simp [ha] at hm
    | cons b n =>
      obtain ⟨hab, htail⟩ := List.cons.inj h
      have hm' : delim ∉ m := fun hmem => hm (List.mem_cons_of_mem _ hmem)
      have hn' : delim ∉ n := fun hmem => hn (List.mem_cons_of_mem _ hmem)
      obtain ⟨hmn, hrs⟩ := ih hm' hn' htail
      exact ⟨by rw [hab, hmn], hrs⟩

omit [DecidableEq α] in
theorem IsLine.unique {bs rest l' rest' : List α}
    (h : IsLine fails delim bs l rest) (h' : IsLine fails delim bs l' rest') :
    l = l' ∧ rest = rest' := by
  have heq : l ++ rest = l' ++ rest' := h.split.symm.trans h'.split
  rcases h.ends with ⟨m, hm, hl⟩ | ⟨hl, hrest, -⟩
  · rcases h'.ends with ⟨m', hm', hl'⟩ | ⟨hl', hrest', -⟩
    · subst hl hl'
      simp only [List.append_assoc, List.singleton_append] at heq
      obtain ⟨hmm, hrr⟩ := append_cons_inj hm hm' heq
      exact ⟨by rw [hmm], hrr⟩
    · -- the one has a delimiter, the other has none
      subst hl hrest'
      rw [List.append_nil] at heq
      exact absurd (by simp [← heq]) hl'
  · rcases h'.ends with ⟨m', hm', hl'⟩ | ⟨hl', hrest', -⟩
    · subst hl' hrest
      rw [List.append_nil] at heq
      exact absurd (by simp [heq]) hl
    · subst hrest hrest'
      exact ⟨by simpa using heq, rfl⟩

/-- A line is read exactly when the whole stream starts with it, and what is left is the rest
of the stream. -/
theorem readUntil_iff {cs : List (List α)} {rest : List α} :
    (∃ cs', readUntil fails delim cs = some (l, cs') ∧ cs'.flatten = rest) ↔
      IsLine fails delim cs.flatten l rest := by
  constructor
  · rintro ⟨cs', hread, rfl⟩
    exact readUntil_isLine hread
  · intro hline
    cases hread : readUntil fails delim cs with
    | none =>
      obtain ⟨hfails, hmem⟩ := readUntil_none hread
      rw [hline.split] at hmem
      rcases hline.ends with ⟨m, -, hl⟩ | ⟨-, -, hfine⟩
      · exact absurd (by simp [hl]) hmem
      · rw [hfails] at hfine
        cases hfine
    | some p =>
      obtain ⟨hl, hrest⟩ := (readUntil_isLine hread).unique hline
      exact ⟨p.2, by rw [← hl], hrest⟩

end

section

variable {α : Type}

/-- The next `n` items. -/
def readExact : Nat → List (List α) → Option (List α)
  | 0, _ => some []
  | _ + 1, [] => none
  | n + 1, c :: cs =>
    if n + 1 ≤ c.length then some (c.take (n + 1))
    else (readExact (n + 1 - c.length) cs).map fun bs => c ++ bs

/-- **Items are read as if the stream came in one piece.** -/
theorem readExact_eq (n : Nat) (cs : List (List α)) :
    readExact n cs = if n ≤ cs.flatten.length then some (cs.flatten.take n) else none := by
  induction cs generalizing n with
  | nil => cases n <;> simp [readExact]
  | cons c cs ih =>
    cases n with
    | zero => simp [readExact]
    | succ n =>
      rw [readExact, List.flatten_cons, List.length_append]
      split
      next hle =>
        rw [if_pos (by omega), List.take_append_of_le_length hle]
      next hlt =>
        rw [ih]
        split
        next hle =>
          have htake : c.take (n + 1) = c := List.take_of_length_le (by omega)
          rw [if_pos (by omega), List.take_append, htake]
          rfl
        next hgt =>
          rw [if_neg (by omega)]
          rfl

end

end Colibri.Lines
