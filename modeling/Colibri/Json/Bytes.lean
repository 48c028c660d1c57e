import Colibri.Json.Parse
import Colibri.Lib.Batch
import Colibri.Lib.Utf8

/-!
# The JSON parser, byte by byte

The parser goes through the bytes of a text with an index, and what it is given need not be
JSON, nor UTF-8. Here it is written with that index. An access that the source checks has the
check for its proof; past the end `cur` and `peek` read a zero. What is left are the slice of a
number and the arithmetic on 32 bits: there a failure is a panic.

No text makes it fail, and the turns it is given are enough (`parse_total`). Only `true`, `false`
and `null` take the index past the end, and nothing is sliced after them: every number starts
within the text (`calls_total`).

Every function has a lemma on where it leaves the index: `..._le` and `le_...` for the loops over
blanks and digits, and `..._reads` for what returns a value, in the shape of `Reads`. The three
calls that recurse on each other are given turns, and `calls_total` counts two for each byte left.
That the parser agrees with the one over characters is `Json.Agree`.
-/

namespace Colibri.JsonBytes

open Batch JsonValue

/-- A byte literal. -/
def byte (c : Char) : UInt8 := UInt8.ofNat c.toNat

/-- What a step comes to: a value and the index after it; an error is that no turns are left. -/
abbrev Parsed (α : Type) := Outcome Unit (α × Nat)

/-- A `u32`; it does not overflow unnoticed. -/
def checked (v : Nat) : Outcome Unit Nat := if v < 2 ^ 32 then .ok v else .panic

section

variable (b : List UInt8)

def cur (i : Nat) : UInt8 := b.getD i 0

def peek (i ahead : Nat) : UInt8 := b.getD (i + ahead) 0

/-- A byte that is there, and like this. -/
def holds (p : UInt8 → Bool) (i : Nat) : Bool := if h : i < b.length then p b[i] else false

/-- A loop that goes over the bytes like this. -/
def skipWhile (p : UInt8 → Bool) (i : Nat) : Nat :=
  if h : i < b.length then
    if p b[i] then skipWhile p (i + 1) else i
  else i
  termination_by b.length - i

def isAsciiWhitespace (c : UInt8) : Bool :=
  c = byte ' ' || c = byte '\t' || c = byte '\n' || c = 0x0C || c = byte '\r'

def ws (i : Nat) : Nat := skipWhile b isAsciiWhitespace i

/-! ## Strings -/

def hexDigit (c : UInt8) : Option Nat :=
  if byte '0' ≤ c ∧ c ≤ byte '9' then some (c.toNat - (byte '0').toNat)
  else if byte 'a' ≤ c ∧ c ≤ byte 'f' then some (c.toNat - (byte 'a').toNat + 10)
  else if byte 'A' ≤ c ∧ c ≤ byte 'F' then some (c.toNat - (byte 'A').toNat + 10)
  else none

/-- The loop of `hex4`. -/
def hexFrom : Nat → Nat → Nat → Parsed Nat
  | 0, v, i => .ok (v, i)
  | n + 1, v, i =>
    match hexDigit (cur b i) with
    | none => .ok (v, i)
    | some d => (checked (v * 16 + d)).bind fun v => hexFrom n v (i + 1)

def hex4 (i : Nat) : Parsed Nat := hexFrom b 4 0 i

/-- `mark | v as u8` -/
def marked (mark : UInt8) (v : Nat) : UInt8 := mark ||| UInt8.ofNat v

def pushUtf8 (cp : Nat) : List UInt8 :=
  if cp < 0x80 then [UInt8.ofNat cp]
  else if cp < 0x800 then [marked 0xC0 (cp >>> 6), marked 0x80 (cp &&& 0x3F)]
  else if cp < 0x10000 then
    [marked 0xE0 (cp >>> 12), marked 0x80 ((cp >>> 6) &&& 0x3F), marked 0x80 (cp &&& 0x3F)]
  else
    [marked 0xF0 (cp >>> 18), marked 0x80 ((cp >>> 12) &&& 0x3F),
      marked 0x80 ((cp >>> 6) &&& 0x3F), marked 0x80 (cp &&& 0x3F)]

/-- What `\u` stands for, from the digits on. -/
def unicode (i : Nat) : Parsed (List UInt8) :=
  (hex4 b i).bind fun r =>
    if 0xD800 ≤ r.1 ∧ r.1 ≤ 0xDBFF ∧ peek b r.2 0 = byte '\\' ∧ peek b r.2 1 = byte 'u' then
      (hex4 b (r.2 + 2)).bind fun lo =>
        if 0xDC00 ≤ lo.1 ∧ lo.1 ≤ 0xDFFF then
          (checked (0x10000 + ((r.1 - 0xD800) <<< 10) + (lo.1 - 0xDC00))).bind fun cp =>
            .ok (pushUtf8 cp, lo.2)
        else .ok (pushUtf8 r.1, r.2)
    else .ok (pushUtf8 r.1, r.2)

/-- The byte that an escape stands for, other than `\u`. -/
def escaped (e : UInt8) : UInt8 :=
  if e = byte 'n' then byte '\n'
  else if e = byte 't' then byte '\t'
  else if e = byte 'r' then byte '\r'
  else if e = byte 'b' then 0x08
  else if e = byte 'f' then 0x0C
  else e

/-- The escape of `e`, the byte before the index. -/
def escape (e : UInt8) (i : Nat) : Parsed (List UInt8) :=
  if e = byte 'u' then unicode b i else .ok ([escaped e], i)

/-- The loop of `parse_str_raw`. -/
def strLoop : Nat → Nat → List UInt8 → Parsed (List UInt8)
  | 0, _, _ => .error ()
  | turns + 1, i, out =>
    if h : i < b.length then
      if b[i] = byte '"' then .ok (out, i)
      else if h' : b[i] = byte '\\' ∧ i + 1 < b.length then
        (escape b (b.get ⟨i + 1, h'.2⟩) (i + 2)).bind fun r => strLoop turns r.2 (out ++ r.1)
      else strLoop turns (i + 1) (out ++ [b[i]])
    else .ok (out, i)

/-- An index past one more byte, where it is this one. -/
def past (c : Char) (i : Nat) : Nat := if cur b i = byte c then i + 1 else i

/-- `parse_str_raw`. Bytes that are UTF-8 are decoded as they are, others with replacements. -/
def parseStrRaw (i : Nat) : Parsed (List Char) :=
  (strLoop b (b.length + 1) (past b '"' i) []).bind fun r =>
    .ok (Utf8.lossy r.1, past b '"' r.2)

/-! ## Numbers -/

def isSign (c : UInt8) : Bool := c = byte '+' || c = byte '-'

def isDigit (c : UInt8) : Bool := byte '0' ≤ c && c ≤ byte '9'

def isDigitOrDot (c : UInt8) : Bool := isDigit c || c = byte '.'

def isExp (c : UInt8) : Bool := c = byte 'e' || c = byte 'E'

/-- One more, where the byte is like this. -/
def pastIf (p : UInt8 → Bool) (i : Nat) : Nat := if holds b p i then i + 1 else i

/-- `end`, where a number stops. -/
def numEnd (i : Nat) : Nat :=
  let e := skipWhile b isDigitOrDot (pastIf b isSign i)
  if holds b isExp e then skipWhile b isDigit (pastIf b isSign (e + 1)) else e

/-- What `parse::<f64>` makes of the bytes of a number. -/
def number (bs : List UInt8) : Decimal := (parseNum (bs.map fun c => Char.ofNat c.toNat)).1

/-- `parse_num`: the slice `b[start..end]` panics unless its ends are in order and in range. -/
def parseNum (i : Nat) : Parsed Decimal :=
  let e := numEnd b i
  if i ≤ e ∧ e ≤ b.length then .ok (number ((b.drop i).take (e - i)), e) else .panic

/-! ## Values -/

mutual

def parseVal : Nat → Nat → Parsed JsonValue
  | 0, _ => .error ()
  | n + 1, i =>
    let i := ws b i
    if cur b i = byte '"' then (parseStrRaw b i).bind fun r => .ok (.str r.1, r.2)
    else if cur b i = byte '{' then
      if cur b (ws b (i + 1)) = byte '}' then .ok (.obj [], ws b (i + 1) + 1)
      else (objLoop n (ws b (i + 1))).bind fun r => .ok (.obj (r.1.foldl push []), r.2)
    else if cur b i = byte '[' then
      if cur b (ws b (i + 1)) = byte ']' then .ok (.arr [], ws b (i + 1) + 1)
      else (arrLoop n (ws b (i + 1))).bind fun r => .ok (.arr r.1, r.2)
    else if cur b i = byte 't' then .ok (.bool true, i + 4)
    else if cur b i = byte 'f' then .ok (.bool false, i + 5)
    else if cur b i = byte 'n' then .ok (.null, i + 4)
    else (parseNum b i).bind fun r => .ok (.num r.1, r.2)

/-- The loop of `parse_obj`: what is pushed, in that order. -/
def objLoop : Nat → Nat → Parsed (List (List Char × JsonValue))
  | 0, _ => .error ()
  | n + 1, i =>
    (parseStrRaw b (ws b i)).bind fun key =>
      (parseVal n (past b ':' (ws b key.2))).bind fun val =>
        if cur b (ws b val.2) = byte ',' then
          (objLoop n (ws b val.2 + 1)).bind fun rest => .ok ((key.1, val.1) :: rest.1, rest.2)
        else .ok ([(key.1, val.1)], past b '}' (ws b val.2))

/-- The loop of `parse_arr`. -/
def arrLoop : Nat → Nat → Parsed (List JsonValue)
  | 0, _ => .error ()
  | n + 1, i =>
    (parseVal n i).bind fun val =>
      if cur b (ws b val.2) = byte ',' then
        (arrLoop n (ws b val.2 + 1)).bind fun rest => .ok (val.1 :: rest.1, rest.2)
      else .ok ([val.1], past b ']' (ws b val.2))

end

/-- `Json::parse` -/
def parse : Outcome Unit (Option JsonValue) :=
  if b = [] then .ok none
  else (parseVal b (2 * b.length + 1) 0).bind fun r => .ok (some r.1)

end

/-! ## Strings and numbers stay in the text -/

section

variable {b : List UInt8} {α β : Type}

/-- A step that returns, and stops within the text. -/
def Reads (b : List UInt8) (i : Nat) (x : Parsed α) : Prop :=
  ∃ a j, x = .ok (a, j) ∧ i ≤ j ∧ j ≤ b.length

variable {i : Nat}

theorem reads_ok {j : Nat} (a : α) (hij : i ≤ j) (hj : j ≤ b.length) :
    Reads b i (.ok (a, j)) := ⟨a, j, rfl, hij, hj⟩

theorem lt_of_getD {c : UInt8} (h : b.getD i 0 = c) (hc : c ≠ 0) : i < b.length := by
  by_contra hge
  rw [List.getD_eq_getElem?_getD, List.getElem?_eq_none (Nat.not_lt.mp hge)] at h
  exact hc h.symm

theorem lt_of_cur {c : UInt8} (h : cur b i = c) (hc : c ≠ 0) : i < b.length :=
  lt_of_getD h hc

theorem lt_of_holds {p : UInt8 → Bool} (h : holds b p i = true) : i < b.length := by
  unfold holds at h
  split at h
  next hlt => exact hlt
  next => cases h

theorem le_skipWhile (p : UInt8 → Bool) (i : Nat) : i ≤ skipWhile b p i := by
  fun_induction skipWhile b p i with
  | case1 i _ _ ih => exact Nat.le_of_succ_le ih
  | case2 => exact Nat.le_refl _
  | case3 => exact Nat.le_refl _

theorem skipWhile_le {p : UInt8 → Bool} (hi : i ≤ b.length) :
    skipWhile b p i ≤ b.length := by
  fun_induction skipWhile b p i with
  | case1 i h _ ih => exact ih h
  | case2 => exact hi
  | case3 => exact hi

theorem le_ws (i : Nat) : i ≤ ws b i := le_skipWhile _ i

theorem ws_le (hi : i ≤ b.length) : ws b i ≤ b.length := skipWhile_le hi

theorem le_past (c : Char) (i : Nat) : i ≤ past b c i := by
  unfold past
  split
  next => exact Nat.le_succ i
  next => exact Nat.le_refl i

theorem past_le {c : Char} (hc : byte c ≠ 0) (hi : i ≤ b.length) :
    past b c i ≤ b.length := by
  unfold past
  split
  next h => exact lt_of_cur h hc
  next => exact hi

theorem le_pastIf (p : UInt8 → Bool) (i : Nat) : i ≤ pastIf b p i := by
  unfold pastIf
  split
  next => exact Nat.le_succ i
  next => exact Nat.le_refl i

theorem pastIf_le {p : UInt8 → Bool} (hi : i ≤ b.length) :
    pastIf b p i ≤ b.length := by
  unfold pastIf
  split
  next h => exact lt_of_holds h
  next => exact hi

theorem hexDigit_lt {c : UInt8} {d : Nat} (h : hexDigit c = some d) : d < 16 ∧ c ≠ 0 := by
  have h0 : (byte '0').toNat = 48 ∧ (byte '9').toNat = 57 := by decide
  have ha : (byte 'a').toNat = 97 ∧ (byte 'f').toNat = 102 := by decide
  have hA : (byte 'A').toNat = 65 ∧ (byte 'F').toNat = 70 := by decide
  unfold hexDigit at h
  simp only [UInt8.le_iff_toNat_le, h0, ha, hA] at h
  have hne : 0 < c.toNat → c ≠ 0 := by
    rintro hpos rfl
    exact absurd hpos (by decide)
  split at h
  next => cases h; exact ⟨by omega, hne (by omega)⟩
  next =>
    split at h
    next => cases h; exact ⟨by omega, hne (by omega)⟩
    next =>
      split at h
      next => cases h; exact ⟨by omega, hne (by omega)⟩
      next => cases h

/-- Four digits are far from an overflow. -/
theorem hexFrom_reads {n k v : Nat} (hk : n + k ≤ 4) (hv : v < 16 ^ k) (hi : i ≤ b.length) :
    ∃ w j, hexFrom b n v i = .ok (w, j) ∧ w < 16 ^ (n + k) ∧ i ≤ j ∧ j ≤ b.length := by
  induction n generalizing k v i with
  | zero => exact ⟨v, i, rfl, by rw [Nat.zero_add]; exact hv, Nat.le_refl i, hi⟩
  | succ n ih =>
    rw [hexFrom]
    cases hd : hexDigit (cur b i) with
    | none =>
      refine ⟨v, i, rfl, ?_, Nat.le_refl i, hi⟩
      exact Nat.lt_of_lt_of_le hv (Nat.pow_le_pow_right (by omega) (Nat.le_add_left ..))
    | some d =>
      obtain ⟨hlt, hne⟩ := hexDigit_lt hd
      have hnext : v * 16 + d < 16 ^ (k + 1) := by
        rw [Nat.pow_succ]
        omega
      have hfits : v * 16 + d < 2 ^ 32 :=
        Nat.lt_of_lt_of_le hnext (Nat.le_trans (Nat.pow_le_pow_right (by omega)
          (show k + 1 ≤ 4 by omega)) (by omega))
      obtain ⟨w, j, hw, hlt', hij, hj⟩ := ih (k := k + 1) (by omega) hnext (lt_of_cur rfl hne)
      refine ⟨w, j, ?_, ?_, Nat.le_of_succ_le hij, hj⟩
      · dsimp only
        rw [checked, if_pos hfits]
        exact hw
      · rw [Nat.succ_add_eq_add_succ]
        exact hlt'

theorem hex4_reads (hi : i ≤ b.length) :
    ∃ w j, hex4 b i = .ok (w, j) ∧ w < 16 ^ 4 ∧ i ≤ j ∧ j ≤ b.length :=
  hexFrom_reads (k := 0) (Nat.le_refl 4) Nat.one_pos hi

/-- A `\u` escape returns. -/
theorem unicode_reads (hi : i ≤ b.length) : Reads b i (unicode b i) := by
  obtain ⟨cp, j, hcp, hlt, hij, hj⟩ := hex4_reads hi
  unfold unicode
  rw [hcp]
  show Reads b i (if _ then _ else _)
  split
  next hpair =>
    -- the backslash and the `u` are both there
    have hu : j + 1 < b.length := lt_of_getD hpair.2.2.2 (by decide)
    obtain ⟨lo, k, hlo, hlolt, hjk, hk⟩ := hex4_reads (i := j + 2) hu
    dsimp only
    rw [hlo]
    show Reads b i (if _ then _ else _)
    split
    next hlow =>
      have hfits : 0x10000 + ((cp - 0xD800) <<< 10) + (lo - 0xDC00) < 2 ^ 32 := by
        rw [Nat.shiftLeft_eq]
        omega
      rw [checked, if_pos hfits]
      exact reads_ok _ (by dsimp only; omega) hk
    next => exact reads_ok _ hij hj
  next => exact reads_ok _ hij hj

theorem escape_reads (e : UInt8) (hi : i ≤ b.length) : Reads b i (escape b e i) := by
  unfold escape
  split
  next => exact unicode_reads hi
  next => exact reads_ok _ (Nat.le_refl i) hi

/-- A turn of the loop is a byte at least. -/
theorem strLoop_reads {turns : Nat} (out : List UInt8) (hi : i ≤ b.length)
    (hturns : b.length < i + turns) : Reads b i (strLoop b turns i out) := by
  induction turns generalizing i out with
  | zero => omega
  | succ turns ih =>
    rw [strLoop]
    split
    next h =>
      split
      next => exact reads_ok out (Nat.le_refl i) hi
      next =>
        split
        next h' =>
          obtain ⟨a, j, hj, hij, hlen⟩ := escape_reads (b.get ⟨i + 1, h'.2⟩) (i := i + 2) h'.2
          rw [hj]
          obtain ⟨c, k, hk, hjk, hklen⟩ := ih (out ++ a) hlen (by omega)
          exact ⟨c, k, hk, by omega, hklen⟩
        next =>
          obtain ⟨c, k, hk, hik, hklen⟩ := ih (out ++ [b[i]]) h (by omega)
          exact ⟨c, k, hk, Nat.le_of_succ_le hik, hklen⟩
    next => exact reads_ok out (Nat.le_refl i) hi

theorem parseStrRaw_reads (hi : i ≤ b.length) : Reads b i (parseStrRaw b i) := by
  have hquote : byte '"' ≠ 0 := by decide
  have hstart := past_le hquote hi
  have hturns : b.length < past b '"' i + (b.length + 1) := by omega
  obtain ⟨a, j, hj, hij, hlen⟩ := strLoop_reads [] hstart hturns
  unfold parseStrRaw
  rw [hj]
  exact reads_ok _ (Nat.le_trans (le_past _ i) (Nat.le_trans hij (le_past _ j)))
    (past_le hquote hlen)

theorem le_numEnd (i : Nat) : i ≤ numEnd b i := by
  have hstart : i ≤ skipWhile b isDigitOrDot (pastIf b isSign i) :=
    Nat.le_trans (le_pastIf _ i) (le_skipWhile _ _)
  unfold numEnd
  dsimp only
  split
  next =>
    refine Nat.le_trans (Nat.le_succ_of_le hstart) ?_
    exact Nat.le_trans (le_pastIf (b := b) isSign _) (le_skipWhile isDigit _)
  next => exact hstart

theorem numEnd_le (hi : i ≤ b.length) : numEnd b i ≤ b.length := by
  unfold numEnd
  dsimp only
  split
  next h => exact skipWhile_le (pastIf_le (lt_of_holds h))
  next => exact skipWhile_le (pastIf_le hi)

/-- **A number that starts in the text is a slice of it.** -/
theorem parseNum_reads (hi : i ≤ b.length) : Reads b i (parseNum b i) := by
  unfold parseNum
  dsimp only
  rw [if_pos ⟨le_numEnd i, numEnd_le hi⟩]
  exact reads_ok _ (le_numEnd i) (numEnd_le hi)

/-! ## Every call returns -/

/-- A step that returns, and does not go back. -/
def Returns (i : Nat) (x : Parsed α) : Prop := ∃ a j, x = .ok (a, j) ∧ i ≤ j

theorem Reads.returns {x : Parsed α} (h : Reads b i x) : Returns i x := by
  obtain ⟨a, j, hx, hij, -⟩ := h
  exact ⟨a, j, hx, hij⟩

theorem returns_ok {j : Nat} (a : α) (h : i ≤ j) : Returns i (.ok (a, j) : Parsed α) :=
  ⟨a, j, rfl, h⟩

theorem Returns.map {j : Nat} {x : Parsed α} (f : α → β) (h : Returns j x) (hij : i ≤ j) :
    Returns i (x.bind fun r => .ok (f r.1, r.2)) := by
  obtain ⟨a, k, rfl, hjk⟩ := h
  exact ⟨f a, k, rfl, Nat.le_trans hij hjk⟩

/-- **Every call returns** that starts within the text and has two turns for each byte left of
it. What comes after a value is in the text as far as a comma shows it to be. -/
theorem calls_total (n : Nat) : ∀ i ≤ b.length,
    (2 * (b.length - i) < n → Returns i (parseVal b n i)) ∧
    (2 * (b.length - i) + 1 < n → Returns i (objLoop b n i) ∧ Returns i (arrLoop b n i)) := by
  -- on the turns left: two for each byte left, and one more for a loop
  induction n with
  | zero =>
    intro i _
    exact ⟨fun h => absurd h (Nat.not_lt_zero _), fun h => absurd h (Nat.not_lt_zero _)⟩
  | succ n ih =>
    intro i hi
    refine ⟨fun hn => ?_, fun hn => ⟨?_, ?_⟩⟩
    · have hiw := le_ws (b := b) i
      have hw := ws_le hi
      rw [parseVal]
      generalize ws b i = w at hiw hw
      split
      next => exact (parseStrRaw_reads hw).returns.map _ hiw
      split
      next h =>
        have hlt := lt_of_cur h (by decide)
        have hopen := le_ws (b := b) (w + 1)
        have hin := ws_le (b := b) (i := w + 1) hlt
        split
        next => exact returns_ok _ (by omega)
        next =>
          have hle : i ≤ ws b (w + 1) := by omega
          exact ((ih _ hin).2 (by omega)).1.map (fun ms => obj (ms.foldl push [])) hle
      split
      next h =>
        have hlt := lt_of_cur h (by decide)
        have hopen := le_ws (b := b) (w + 1)
        have hin := ws_le (b := b) (i := w + 1) hlt
        split
        next => exact returns_ok _ (by omega)
        next => exact ((ih _ hin).2 (by omega)).2.map _ (by omega)
      split
      next => exact returns_ok _ (by omega)
      split
      next => exact returns_ok _ (by omega)
      split
      next => exact returns_ok _ (by omega)
      exact (parseNum_reads hw).returns.map _ hiw
    · obtain ⟨key, j, hkey, hij, hj⟩ := parseStrRaw_reads (ws_le hi)
      have hval := past_le (c := ':') (by decide) (ws_le hj)
      have hjv := Nat.le_trans (le_ws (b := b) j) (le_past (b := b) ':' _)
      have hiw := le_ws (b := b) i
      obtain ⟨v, k, hv, hvk⟩ := (ih _ hval).1 (by omega)
      have hkw := le_ws (b := b) k
      rw [objLoop, hkey]
      show Returns i ((parseVal b n (past b ':' (ws b j))).bind _)
      rw [hv]
      show Returns i (if _ then _ else _)
      dsimp only
      split
      next h =>
        have hlt := lt_of_cur h (by decide)
        exact ((ih _ hlt).2 (by omega)).1.map _ (by omega)
      next => exact returns_ok _ (Nat.le_trans (by omega) (le_past ..))
    · obtain ⟨v, k, hv, hvk⟩ := (ih i hi).1 (by omega)
      have hkw := le_ws (b := b) k
      rw [arrLoop, hv]
      show Returns i (if _ then _ else _)
      dsimp only
      split
      next h =>
        have hlt := lt_of_cur h (by decide)
        exact ((ih _ hlt).2 (by omega)).2.map _ (by omega)
      next => exact returns_ok _ (Nat.le_trans (by omega) (le_past ..))

end

/-- **Any bytes are parsed.** There is no panic, the turns are enough, and nothing comes of
nothing only. -/
theorem parse_total (b : List UInt8) : ∃ v, parse b = .ok v ∧ (v = none ↔ b = []) := by
  unfold parse
  split
  next h => exact ⟨none, rfl, iff_of_true rfl h⟩
  next h =>
    obtain ⟨v, j, hv, -⟩ := (calls_total (b := b) (2 * b.length + 1) 0 (Nat.zero_le _)).1
      (by omega)
    rw [hv]
    exact ⟨some v, rfl, iff_of_false (Option.some_ne_none v) h⟩

end Colibri.JsonBytes
