import Colibri.Json.Agree

/-!
# String literals

`jstr` writes a text as a JSON string: it escapes the quote, the backslash and the control
characters, and the rest goes as it is. What the parser makes of the bytes is the text again,
whatever characters are in it (`parse_jstr`).

* `scan_jstrChar`: a character is read as it is written, and what comes after it is left.
* `value_jstr`: so is a literal, in front of any text.
* `parse_jstr`: the same of the bytes, since the parser of bytes makes what the parser of
  characters makes (`JsonBytes.parse_encode`).
-/

namespace Colibri.Serve

open JsonValue

/-! ## The writer -/

/-- `{:04x}` -/
def hex04 (n : Nat) : List Char :=
  List.replicate (4 - (Nat.toDigits 16 n).length) '0' ++ Nat.toDigits 16 n

/-- What `jstr` writes for a character. -/
def jstrChar (c : Char) : List Char :=
  if c = '"' then ['\\', '"']
  else if c = '\\' then ['\\', '\\']
  else if c = '\n' then ['\\', 'n']
  else if c = '\r' then ['\\', 'r']
  else if c = '\t' then ['\\', 't']
  else if c.toNat < 0x20 then '\\' :: 'u' :: hex04 c.toNat
  else [c]

def jstr (s : List Char) : List Char := '"' :: (s.flatMap jstrChar ++ ['"'])

example : jstr "a\"\n\x07é".toList = "\"a\\\"\\n\\u0007é\"".toList := rfl

/-! ## Reading a literal -/

theorem hex04_eq : ∀ n < 32, hex04 n =
    ['0', '0', Nat.digitChar (n / 16), Nat.digitChar (n % 16)] := by
  decide

theorem hexDigit_digitChar : ∀ d < 16, hexDigit (Nat.digitChar d) = some d := by
  decide

theorem hexFrom_digit {n v d : Nat} {c : Char} (hd : hexDigit c = some d) (s : List Char) :
    hexFrom (n + 1) v (c :: s) = hexFrom n (v * 16 + d) s := by
  rw [hexFrom, hd]

theorem unicode_hex04 {n : Nat} (hn : n < 32) (s : List Char) :
    unicode (hex04 n ++ s) = ([Char.ofNat n], s) := by
  have hzero : hexDigit '0' = some 0 := by decide
  have hhi := hexDigit_digitChar (n / 16) (by omega)
  have hlo := hexDigit_digitChar (n % 16) (by omega)
  have hsum : (((0 * 16 + 0) * 16 + 0) * 16 + n / 16) * 16 + n % 16 = n := by omega
  have hcp : hex4 (hex04 n ++ s) = (n, s) := by
    rw [hex04_eq n hn]
    show hexFrom 4 0 ('0' :: '0' :: Nat.digitChar (n / 16) :: Nat.digitChar (n % 16) :: s) = _
    rw [hexFrom_digit hzero, hexFrom_digit hzero, hexFrom_digit hhi, hexFrom_digit hlo, hexFrom,
      hsum]
  unfold unicode
  rw [hcp]
  dsimp only
  rw [if_neg (by omega), pushUtf8, if_neg (by omega)]

/-- **A character is read as it is written.** -/
theorem scan_jstrChar (c : Char) (s : List Char) :
    scan (jstrChar c ++ s) = (c :: (scan s).1, (scan s).2) := by
  have hshort : ∀ e d : Char, (∀ t, escape e t = ([d], t)) → jstrChar d = ['\\', e] → c = d →
      scan (jstrChar c ++ s) = (c :: (scan s).1, (scan s).2) := by
    intro e d hesc hjstr hcd
    rw [hcd, hjstr]
    show scan ('\\' :: e :: s) = _
    rw [scan_escape, hesc]
    rfl
  by_cases hquote : c = '"'
  · exact hshort '"' '"' (fun _ => rfl) rfl hquote
  by_cases hback : c = '\\'
  · exact hshort '\\' '\\' (fun _ => rfl) rfl hback
  by_cases hnl : c = '\n'
  · exact hshort 'n' '\n' (fun _ => rfl) rfl hnl
  by_cases hcr : c = '\r'
  · exact hshort 'r' '\r' (fun _ => rfl) rfl hcr
  by_cases htab : c = '\t'
  · exact hshort 't' '\t' (fun _ => rfl) rfl htab
  by_cases hctl : c.toNat < 0x20
  · have hjstr : jstrChar c = '\\' :: 'u' :: hex04 c.toNat := by
      rw [jstrChar, if_neg hquote, if_neg hback, if_neg hnl, if_neg hcr, if_neg htab,
        if_pos hctl]
    have hesc : escape 'u' (hex04 c.toNat ++ s) = ([c], s) := by
      show unicode _ = _
      rw [unicode_hex04 hctl, Char.ofNat_toNat]
    rw [hjstr]
    show scan ('\\' :: 'u' :: (hex04 c.toNat ++ s)) = _
    rw [scan_escape, hesc]
    rfl
  · have hjstr : jstrChar c = [c] := by
      rw [jstrChar, if_neg hquote, if_neg hback, if_neg hnl, if_neg hcr, if_neg htab,
        if_neg hctl]
    rw [hjstr]
    exact scan_plain hquote hback s

theorem scan_jstr (text s : List Char) :
    scan (text.flatMap jstrChar ++ '"' :: s) = (text, s) := by
  induction text with
  | nil => exact scan_quote s
  | cons c text ih => rw [List.flatMap_cons, List.append_assoc, scan_jstrChar, ih]

theorem jstr_append (text s : List Char) :
    jstr text ++ s = '"' :: (text.flatMap jstrChar ++ '"' :: s) := by
  rw [jstr, List.cons_append, List.append_assoc]
  rfl

/-- **A literal is read as it is written**, in front of any text. -/
theorem value_jstr (text s : List Char) : value (jstr text ++ s) = (.str text, s) := by
  rw [jstr_append, value_str (ws_cons rfl _), scan_jstr]

/-- **A text comes back from its literal.** -/
theorem parse_jstr (s : List Char) :
    JsonBytes.parse (Utf8.encode (jstr s)) = .ok (some (.str s)) := by
  have hvalue := value_jstr s []
  rw [List.append_nil] at hvalue
  rw [JsonBytes.parse_encode, parse_eq (by rw [jstr]; exact List.cons_ne_nil _ _), hvalue]

end Colibri.Serve
