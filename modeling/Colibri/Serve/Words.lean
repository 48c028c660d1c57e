import Colibri.Serve.Request

/-!
# Words and numbers of a line

A line is written as words with a blank between them, and most words are numbers. Reading it takes
the words off again one by one (`nextWord_word`), and a number in decimal is the number again
(`number_toDigits`).
-/

namespace Colibri.Serve

theorem isWhitespace_of_isDigit {c : Char} (h : c.isDigit = true) : isWhitespace c = false := by
  have hlow : 48 ≤ c.toNat ∧ c.toNat ≤ 57 := by
    simpa [Char.isDigit, UInt32.le_iff_toNat_le] using h
  simp only [isWhitespace, Bool.or_eq_false_iff, Bool.and_eq_false_iff, decide_eq_false_iff_not,
    beq_eq_false_iff_ne]
  omega

theorem toDigits_isDigit (n : Nat) : ∀ c ∈ Nat.toDigits 10 n, c.isDigit = true :=
  fun _ hc => Nat.isDigit_of_mem_toDigits (by decide) (by decide) hc

/-- A word that begins with something else than a blank is not cut in front. -/
theorem trimStart_word {w : List Char} (hne : w ≠ []) (hw : ∀ c ∈ w, isWhitespace c = false)
    (rest : List Char) : trimStart (w ++ rest) = w ++ rest := by
  obtain ⟨c, t, rfl⟩ := List.exists_cons_of_ne_nil hne
  rw [trimStart, List.cons_append, List.dropWhile_cons_of_neg]
  rw [hw c List.mem_cons_self]
  exact Bool.false_ne_true

/-- A word, up to what does not belong to it. -/
theorem nextWord_word {w rest : List Char} (hne : w ≠ []) (hw : ∀ c ∈ w, isWhitespace c = false)
    (hrest : ∀ c ∈ rest.head?, isWhitespace c = true) :
    nextWord (w ++ rest) = some (w, rest) := by
  have hall : ∀ c ∈ w, (!isWhitespace c) = true := by
    intro c hc
    rw [hw c hc]
    rfl
  have hstop : rest.takeWhile (fun c => !isWhitespace c) = [] ∧
      rest.dropWhile (fun c => !isWhitespace c) = rest := by
    cases rest with
    | nil => exact ⟨rfl, rfl⟩
    | cons c rest =>
      have hc : (!isWhitespace c) = false := by rw [hrest c rfl]; rfl
      rw [List.takeWhile_cons, List.dropWhile_cons, hc]
      exact ⟨rfl, rfl⟩
  unfold nextWord
  rw [trimStart_word hne hw]
  split
  next heq => exact absurd heq (List.append_ne_nil_of_left_ne_nil hne _)
  next c t heq =>
    rw [← heq, List.takeWhile_append_of_pos hall, List.dropWhile_append_of_pos hall, hstop.1,
      hstop.2, List.append_nil]

theorem nextWord_blank (s : List Char) : nextWord (' ' :: s) = nextWord s := by
  have htrim : trimStart (' ' :: s) = trimStart s := List.dropWhile_cons_of_pos (by decide)
  rw [nextWord, nextWord, htrim]

theorem number_of_isDigit {s : List Char} (hne : s ≠ []) (hs : ∀ c ∈ s, c.isDigit = true) :
    number s = some (s.foldl (fun n d => n * 10 + (d.toNat - '0'.toNat)) 0) := by
  unfold number
  split
  next t =>
    -- a plus is no digit
    exact absurd (hs '+' List.mem_cons_self) (by decide)
  next =>
    dsimp only
    rw [if_neg hne, if_pos (List.all_eq_true.mpr hs)]

/-- **A number is read as it is written.** -/
theorem number_toDigits (n : Nat) : number (Nat.toDigits 10 n) = some n := by
  have hvalue : (Nat.toDigits 10 n).foldl (fun n d => n * 10 + (d.toNat - '0'.toNat)) 0 = n := by
    have h := Nat.ofDigitChars_ten_toDigits (n := n)
    rw [Nat.ofDigitChars_eq_foldl] at h
    simpa only [Nat.mul_comm 10] using h
  rw [number_of_isDigit Nat.toDigits_ne_nil (toDigits_isDigit n), hvalue]

/-- Blanks behind a word are cut off. -/
theorem trimEnd_word {w : List Char} {c : Char} (hlast : w.getLast? = some c)
    (hc : isWhitespace c = false) {blanks : List Char} (hb : ∀ c ∈ blanks, isWhitespace c = true) :
    trimEnd (w ++ blanks) = w := by
  have hrev : w.reverse = c :: w.dropLast.reverse := by
    have hsplit := List.dropLast_append_getLast? c hlast
    conv_lhs => rw [← hsplit]
    rw [List.reverse_append]
    rfl
  have hdrop : trimStart (blanks.reverse ++ w.reverse) = w.reverse := by
    rw [trimStart, List.dropWhile_append_of_pos (fun d hd => hb d (List.mem_reverse.mp hd)), hrev,
      List.dropWhile_cons_of_neg]
    rw [hc]
    exact Bool.false_ne_true
  rw [trimEnd, List.reverse_append, hdrop, List.reverse_reverse]

end Colibri.Serve
