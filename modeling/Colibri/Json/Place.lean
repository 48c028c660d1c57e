import Mathlib.Data.List.GetD
import Mathlib.Data.List.TakeWhile
import Colibri.Json.Bytes

/-!
# The characters at an index

`At b i s` relates the parser of bytes to the parser of characters: the index `i` is where the
characters `s` begin. Everything a JSON parser looks for is an ASCII character, and its byte is
a byte of no other character. So what is at the index decides the same branch on both sides.

* `At.seen`: at the index there is the end of the text, an ASCII character with the place after
  it, or the first byte of another character, and that byte is above ASCII.
* `At.cur_iff`: a mark is at the index exactly when the text goes on with it.
* `At.skipWhile`: a loop over bytes of one class goes past the characters of the class, and
  stops where these stop.

A class of bytes and a class of characters go together when they are the same ASCII characters
(`Ascii`). That is settled number by number.
-/

namespace Colibri.JsonBytes

open Batch JsonValue

section

variable {b : List UInt8}

theorem ok_bind {α β : Type} (a : α) (f : α → Outcome Unit β) : (Outcome.ok a).bind f = f a := rfl

/-! ## Bytes of characters -/

variable {c : Char} {rest : List UInt8} {p : UInt8 → Bool} {q : Char → Bool}

theorem toNat_byte (h : c.toNat < 128) : (byte c).toNat = c.toNat :=
  Utf8.toNat_ofNat (Nat.lt_trans h (by decide))

theorem byte_inj {d : Char} (hc : c.toNat < 128) (hd : d.toNat < 128) :
    byte c = byte d ↔ c = d := by
  refine ⟨fun h => ?_, congrArg byte⟩
  have hnat := congrArg UInt8.toNat h
  rw [toNat_byte hc, toNat_byte hd] at hnat
  exact Char.toNat_inj.mp hnat

theorem ofNat_byte (h : c.toNat < 128) : Char.ofNat (byte c).toNat = c := by
  rw [toNat_byte h, Char.ofNat_toNat]

/-- An ASCII character is one byte. -/
theorem utf8EncodeChar_ascii (h : c.toNat < 128) :
    String.utf8EncodeChar c = [byte c] := by
  have hone : c.val.toNat ≤ 127 := Nat.le_of_lt_succ h
  unfold String.utf8EncodeChar
  dsimp only
  rw [if_pos hone]
  rfl

theorem high_of_mem (h : 128 ≤ c.toNat) {x : UInt8}
    (hx : x ∈ String.utf8EncodeChar c) : 128 ≤ x.toNat := by
  rcases Utf8.mem_utf8EncodeChar hx with heq | hge
  · rw [heq]
    exact h
  · exact hge

theorem encode_cons (c : Char) (s : List Char) :
    Utf8.encode (c :: s) = String.utf8EncodeChar c ++ Utf8.encode s := rfl

/-- A text of ASCII characters. -/
theorem encode_ascii {s : List Char} (h : ∀ c ∈ s, c.toNat < 128) :
    Utf8.encode s = s.map byte := by
  induction s with
  | nil => rfl
  | cons c s ih =>
    rw [encode_cons, utf8EncodeChar_ascii (h c (List.mem_cons_self ..)),
      ih fun d hd => h d (List.mem_cons_of_mem _ hd)]
    rfl

/-! ## Where the index is -/

theorem lt_of_drop {i : Nat} {c : UInt8} (h : b.drop i = c :: rest) :
    i < b.length := by
  by_contra hge
  rw [List.drop_eq_nil_of_le (Nat.not_lt.mp hge)] at h
  cases h

theorem getElem_of_drop {i : Nat} {c : UInt8} (h : b.drop i = c :: rest)
    (hlt : i < b.length) : b[i] = c := by
  rw [List.drop_eq_getElem_cons hlt] at h
  exact (List.cons.inj h).1

theorem drop_of_drop {i : Nat} {bs : List UInt8} (h : b.drop i = bs ++ rest) :
    b.drop (i + bs.length) = rest := by
  rw [← List.drop_drop, h, List.drop_left]

theorem drop_succ {i : Nat} {c : UInt8} (h : b.drop i = c :: rest) :
    b.drop (i + 1) = rest := by
  rw [← List.drop_drop, h, List.drop_one, List.tail_cons]

theorem cur_of_drop {i : Nat} {c : UInt8} (h : b.drop i = c :: rest) :
    cur b i = c := by
  rw [cur, List.getD_eq_getElem _ _ (lt_of_drop h), getElem_of_drop h (lt_of_drop h)]

theorem cur_of_ge {i : Nat} (h : b.length ≤ i) : cur b i = 0 := by
  rw [cur, List.getD_eq_getElem?_getD, List.getElem?_eq_none h]
  rfl

theorem holds_eq {i : Nat} (h : i < b.length) : holds b p i = p (cur b i) := by
  rw [holds, dif_pos h, cur, List.getD_eq_getElem _ _ h]

/-- The index is where these characters begin. -/
structure At (b : List UInt8) (i : Nat) (s : List Char) : Prop where
  drop_eq : b.drop i = Utf8.encode s
  le : i ≤ b.length

/-- What is at the index: the end of the text, an ASCII character, or the first byte of another
one. -/
inductive Seen (b : List UInt8) (i : Nat) : List Char → Prop
  | nil : i = b.length → cur b i = 0 → Seen b i []
  | ascii {c : Char} {s : List Char} : c.toNat < 128 → b.drop i = byte c :: Utf8.encode s →
    At b (i + 1) s → Seen b i (c :: s)
  | other {c : Char} {s : List Char} : 128 ≤ c.toNat → i < b.length →
    128 ≤ (cur b i).toNat → Seen b i (c :: s)

variable {i : Nat} {s : List Char}

/-- Past a character, by its bytes. -/
theorem At.next (h : At b i (c :: s)) :
    At b (i + (String.utf8EncodeChar c).length) s := by
  have hdrop := h.drop_eq
  rw [encode_cons] at hdrop
  refine ⟨drop_of_drop hdrop, ?_⟩
  have hlen := congrArg List.length hdrop
  rw [List.length_drop, List.length_append] at hlen
  have := h.le
  omega

/-- **What is at the index**: the end, an ASCII character, or the first byte of another one. -/
theorem At.seen (h : At b i s) : Seen b i s := by
  cases s with
  | nil =>
    have hge : b.length ≤ i := List.drop_eq_nil_iff.mp h.drop_eq
    exact .nil (Nat.le_antisymm h.le hge) (cur_of_ge hge)
  | cons c s =>
    have hdrop := h.drop_eq
    have hnext := h.next
    rw [encode_cons] at hdrop
    rcases Nat.lt_or_ge c.toNat 128 with hc | hc
    · rw [utf8EncodeChar_ascii hc] at hdrop hnext
      exact .ascii hc hdrop hnext
    · cases hbytes : String.utf8EncodeChar c with
      | nil =>
        have hlen := congrArg List.length hbytes
        rw [String.length_utf8EncodeChar] at hlen
        exact absurd hlen (Nat.ne_of_gt c.utf8Size_pos)
      | cons x bs =>
        rw [hbytes] at hdrop
        refine .other hc (lt_of_drop hdrop) ?_
        rw [cur_of_drop hdrop]
        exact high_of_mem hc (hbytes ▸ List.mem_cons_self ..)

/-- The byte of an ASCII character is at the index where the character is. -/
theorem At.cur_iff (h : At b i s) {d : Char} (hd : 0 < d.toNat ∧ d.toNat < 128) :
    cur b i = byte d ↔ ∃ t, s = d :: t := by
  have hbyte := toNat_byte hd.2
  cases h.seen with
  | nil _ hcur =>
    refine iff_of_false (fun heq => ?_) (by rintro ⟨t, ht⟩; cases ht)
    rw [hcur] at heq
    rw [← heq] at hbyte
    exact Nat.ne_of_lt hd.1 hbyte
  | @ascii c s hc hdrop _ =>
    rw [cur_of_drop hdrop, byte_inj hc hd.2]
    exact ⟨fun heq => ⟨s, heq ▸ rfl⟩, fun ⟨t, ht⟩ => (List.cons.inj ht).1⟩
  | @other c s hc _ hcur =>
    refine iff_of_false (fun heq => ?_) ?_
    · rw [heq, hbyte] at hcur
      omega
    · rintro ⟨t, ht⟩
      rw [(List.cons.inj ht).1] at hc
      omega

theorem At.succ {d : Char} {t : List Char} (h : At b i (d :: t)) (hd : d.toNat < 128) :
    At b (i + 1) t := by
  have hnext := h.next
  rwa [utf8EncodeChar_ascii hd] at hnext

/-- `past`, on both sides. -/
theorem At.past (h : At b i s) {d : Char} (hd : 0 < d.toNat ∧ d.toNat < 128) :
    (∃ t, s = d :: t ∧ past b d i = i + 1 ∧ At b (i + 1) t) ∨
      (∀ t, s ≠ d :: t) ∧ past b d i = i := by
  unfold JsonBytes.past
  split
  next hcur =>
    obtain ⟨t, rfl⟩ := (h.cur_iff hd).mp hcur
    exact .inl ⟨t, rfl, rfl, h.succ hd.2⟩
  next hcur => exact .inr ⟨fun t ht => hcur ((h.cur_iff hd).mpr ⟨t, ht⟩), rfl⟩

/-! ## Runs of ASCII characters -/

/-- A class of ASCII characters, on both sides. -/
structure Ascii (p : UInt8 → Bool) (q : Char → Bool) : Prop where
  byte_eq : ∀ c : Char, c.toNat < 128 → p (byte c) = q c
  low : ∀ c, q c = true → c.toNat < 128
  byte_low : ∀ x : UInt8, p x = true → x.toNat < 128

theorem byte_eq_of_numbers
    (h : ∀ n < 128, p (UInt8.ofNat n) = q (Char.ofNat n)) (c : Char) (hc : c.toNat < 128) :
    p (byte c) = q c := by
  have hn := h c.toNat hc
  rwa [Char.ofNat_toNat] at hn

theorem Ascii.ws : Ascii isAsciiWhitespace isWs where
  byte_eq := byte_eq_of_numbers (by decide)
  low := by
    intro c hc
    simp only [isWs, Bool.or_eq_true, decide_eq_true_eq] at hc
    rcases hc with (((rfl | rfl) | rfl) | rfl) | rfl
    all_goals decide
  byte_low := by
    intro x hx
    simp only [isAsciiWhitespace, Bool.or_eq_true, decide_eq_true_eq] at hx
    rcases hx with (((rfl | rfl) | rfl) | rfl) | rfl
    all_goals decide

theorem isDigit_low (h : c.isDigit = true) : c.toNat < 128 := by
  unfold Char.isDigit at h
  rw [Bool.and_eq_true, decide_eq_true_eq, decide_eq_true_eq] at h
  exact Nat.lt_of_le_of_lt (UInt32.le_iff_toNat_le.mp h.2) (by decide)

theorem isDigit_byte_low {x : UInt8} (h : isDigit x = true) : x.toNat < 128 := by
  unfold isDigit at h
  rw [Bool.and_eq_true, decide_eq_true_eq, decide_eq_true_eq] at h
  exact Nat.lt_of_le_of_lt (UInt8.le_iff_toNat_le.mp h.2) (by decide)

theorem Ascii.digit : Ascii isDigit Char.isDigit :=
  ⟨byte_eq_of_numbers (by decide), fun _ => isDigit_low, fun _ => isDigit_byte_low⟩

theorem Ascii.digitOrDot : Ascii isDigitOrDot JsonValue.isDigitOrDot where
  byte_eq := byte_eq_of_numbers (by decide)
  low := by
    intro c hc
    rw [JsonValue.isDigitOrDot, Bool.or_eq_true, decide_eq_true_eq] at hc
    rcases hc with hc | rfl
    · exact isDigit_low hc
    · decide
  byte_low := by
    intro x hx
    rw [isDigitOrDot, Bool.or_eq_true, decide_eq_true_eq] at hx
    rcases hx with hx | rfl
    · exact isDigit_byte_low hx
    · decide

theorem Ascii.takeWhile_low (h : Ascii p q) :
    ∀ c ∈ s.takeWhile q, c.toNat < 128 := fun c hc => h.low c (List.mem_takeWhile_imp hc)

theorem At.skipWhile_step (hpq : Ascii p q)
    (h : At b i (c :: s)) (hc : q c = true) :
    skipWhile b p i = skipWhile b p (i + 1) ∧ At b (i + 1) s := by
  have hlow := hpq.low c hc
  have hdrop := h.drop_eq
  rw [encode_cons, utf8EncodeChar_ascii hlow] at hdrop
  have hlt := lt_of_drop hdrop
  have hp : p b[i] = true := by rw [getElem_of_drop hdrop hlt, hpq.byte_eq c hlow, hc]
  refine ⟨?_, h.succ hlow⟩
  rw [JsonBytes.skipWhile, dif_pos hlt, if_pos hp]

theorem At.skipWhile_stop (hpq : Ascii p q)
    (h : At b i (c :: s)) (hc : q c = false) : skipWhile b p i = i := by
  cases h.seen with
  | ascii hlow hdrop _ =>
    have hlt := lt_of_drop hdrop
    have hp : p b[i] = false := by rw [getElem_of_drop hdrop hlt, hpq.byte_eq c hlow, hc]
    rw [JsonBytes.skipWhile, dif_pos hlt, hp]
    rfl
  | other _ hlt hcur =>
    rw [cur, List.getD_eq_getElem _ _ hlt] at hcur
    have hp : p b[i] = false := by
      by_contra hne
      have := hpq.byte_low b[i] (Bool.eq_true_of_not_eq_false hne)
      omega
    rw [JsonBytes.skipWhile, dif_pos hlt, hp]
    rfl

/-- **A loop over bytes like this goes past the characters like this.** -/
theorem At.skipWhile (hpq : Ascii p q) (h : At b i s) :
    skipWhile b p i = i + (s.takeWhile q).length ∧
      At b (i + (s.takeWhile q).length) (s.dropWhile q) := by
  induction s generalizing i with
  | nil =>
    have hge : b.length ≤ i := List.drop_eq_nil_iff.mp h.drop_eq
    rw [JsonBytes.skipWhile, dif_neg (Nat.not_lt.mpr hge)]
    exact ⟨rfl, h⟩
  | cons c s ih =>
    cases hc : q c with
    | true =>
      obtain ⟨hskip, hnext⟩ := h.skipWhile_step hpq hc
      obtain ⟨hrest, hat⟩ := ih hnext
      have hlen : i + ((c :: s).takeWhile q).length = i + 1 + (s.takeWhile q).length := by
        rw [List.takeWhile_cons_of_pos hc, List.length_cons]
        omega
      rw [hlen, List.dropWhile_cons_of_pos hc, hskip]
      exact ⟨hrest, hat⟩
    | false =>
      rw [List.takeWhile_cons_of_neg (by simp [hc]), List.dropWhile_cons_of_neg (by simp [hc])]
      exact ⟨h.skipWhile_stop hpq hc, h⟩

theorem At.ws (h : At b i s) : At b (ws b i) (JsonValue.ws s) := by
  obtain ⟨hskip, hat⟩ := h.skipWhile Ascii.ws
  rw [JsonBytes.ws, hskip]
  exact hat

end

end Colibri.JsonBytes
