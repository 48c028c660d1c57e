import Colibri.Safetensors.Header
import Colibri.Serve.Literal

/-!
# Values, written and read

A value as text without a blank in it: strings by `jstr`, so any characters may stand in them, and
numbers as integers. What the parser makes of the text is the value again (`parse_write`), as long
as its numbers are integers and no object has a key twice. What comes after a value is left
where it is (`value_write`), which is what carries the induction: a number has no end of its own
and goes on up to a comma or a bracket.

* `value_int`, `value_writeItems`, `value_writeMembers`: what is read of each kind of text, once its
  parts are.
* `elements_write`, `members_write` and `value_write` are one induction, over the value.
* `printable_write`: a document has no line break in it, which the Ollama dialect of the server
  rests on.
-/

namespace Colibri.JsonValue

open Safetensors (intText intText_head digits_isDigit takeSign_digits mantissa_digits
  not_marks members_key value_members)
open Serve (jstr jstrChar hex04 hex04_eq jstr_append scan_jstr value_jstr)

/-! ## The writer -/

/-- The number that is written, without its exponent. -/
def Decimal.toInt (d : Decimal) : Int := if d.neg then -d.digits else d.digits

mutual

def write : JsonValue → List Char
  | .null => "null".toList
  | .bool b => (if b then "true" else "false").toList
  | .num d => intText d.toInt
  | .str s => jstr s
  | .arr items => '[' :: (writeItems items ++ [']'])
  | .obj members => '{' :: (writeMembers members ++ ['}'])

/-- The elements of an array, with commas between them. -/
def writeItems : List JsonValue → List Char
  | [] => []
  | v :: items =>
    match items with
    | [] => write v
    | _ :: _ => write v ++ ',' :: writeItems items

/-- The members of an object, with commas between them. -/
def writeMembers : List (List Char × JsonValue) → List Char
  | [] => []
  | (key, v) :: members =>
    match members with
    | [] => jstr key ++ ':' :: write v
    | _ :: _ => jstr key ++ ':' :: (write v ++ ',' :: writeMembers members)

end

mutual

/-- What survives being written: numbers are integers, and a key stands once. -/
def Writable : JsonValue → Prop
  | .null => True
  | .bool _ => True
  | .num d => d = .ofInt d.toInt
  | .str _ => True
  | .arr items => WritableItems items
  | .obj members => (members.map Prod.fst).Nodup ∧ WritableMembers members

def WritableItems : List JsonValue → Prop
  | [] => True
  | v :: items => Writable v ∧ WritableItems items

def WritableMembers : List (List Char × JsonValue) → Prop
  | [] => True
  | (_, v) :: members => Writable v ∧ WritableMembers members

end

theorem writable_int (i : Int) : Writable (.num (.ofInt i)) := by
  have hback : (Decimal.ofInt i).toInt = i := by
    show (if decide (i < 0) = true then -(i.natAbs : Int) else (i.natAbs : Int)) = i
    split
    next hneg =>
      have := of_decide_eq_true hneg
      omega
    next hpos =>
      have := of_decide_eq_false (Bool.not_eq_true _ ▸ hpos)
      omega
  rw [Writable, hback]

/-! ## Numbers -/

/-- What may come after a number: nothing, a comma or a closing bracket. -/
def Stops (s : List Char) : Prop := ∀ c t, s = c :: t → c = ',' ∨ c = ']' ∨ c = '}'

theorem stops_cons {c : Char} (h : c = ',' ∨ c = ']' ∨ c = '}') (s : List Char) :
    Stops (c :: s) := by
  intro d t heq
  obtain ⟨rfl, -⟩ := List.cons.inj heq
  exact h

theorem stops_nil : Stops [] := by
  intro c t h
  cases h

/-- Digits up to such a place are one number. -/
theorem parseNum_stops {digits : List Char} (h : ∀ c ∈ digits, c.isDigit) (hne : digits ≠ [])
    {s : List Char} (hs : Stops s) {neg : Bool} {t : List Char}
    (hsign : takeSign t = (neg, digits ++ s)) :
    parseNum t = (⟨neg, Nat.ofDigitChars 10 digits 0, 0⟩, s) := by
  have hall : ∀ c ∈ digits, isDigitOrDot c = true := by
    intro c hc
    unfold isDigitOrDot
    rw [h c hc]
    rfl
  unfold parseNum
  rw [hsign]
  dsimp only
  cases s with
  | nil =>
    rw [List.append_nil, List.takeWhile_eq_self_iff.mpr hall, List.dropWhile_eq_nil_iff.mpr hall,
      mantissa_digits h hne]
    rfl
  | cons c s =>
    have hc := hs c s rfl
    have hstop : isDigitOrDot c = false := by rcases hc with rfl | rfl | rfl <;> rfl
    have hexp : ¬ (c = 'e' ∨ c = 'E') := by rcases hc with rfl | rfl | rfl <;> decide
    obtain ⟨htake, hdrop⟩ := takeWhile_append_stop hall hstop s
    rw [htake, hdrop, mantissa_digits h hne]
    dsimp only
    rw [if_neg hexp]
    rfl

/-- **A number is read as it is written.** -/
theorem value_int (i : Int) {s : List Char} (hs : Stops s) :
    value (intText i ++ s) = (.num (.ofInt i), s) := by
  have hnum : parseNum (intText i ++ s) = (.ofInt i, s) := by
    cases i with
    | ofNat n =>
      have hpos : decide (Int.ofNat n < 0) = false :=
        decide_eq_false (Int.not_lt.mpr (Int.natCast_nonneg n))
      rw [intText, parseNum_stops (digits_isDigit n) Nat.toDigits_ne_nil hs
        (takeSign_digits n _), Nat.ofDigitChars_ten_toDigits, Decimal.ofInt, hpos]
      rfl
    | negSucc n =>
      have hneg : decide (Int.negSucc n < 0) = true := decide_eq_true (Int.negSucc_lt_zero n)
      rw [intText, parseNum_stops (digits_isDigit (n + 1)) Nat.toDigits_ne_nil hs rfl,
        Nat.ofDigitChars_ten_toDigits, Decimal.ofInt, hneg]
      rfl
  obtain ⟨d, t, htext, hd⟩ := intText_head i
  obtain ⟨hmark, hws⟩ := not_marks hd
  rw [htext, List.cons_append] at hnum ⊢
  rw [value_num (ws_cons hws _) hmark, hnum]

/-! ## Values -/

theorem skip_zero (s : List Char) : skip s 0 = s := by
  cases s <;> rfl

/-- Keys that are not there yet are pushed at the end. -/
theorem foldl_push_nodup {ms acc : List (List Char × JsonValue)}
    (h : ((acc ++ ms).map Prod.fst).Nodup) : ms.foldl push acc = acc ++ ms := by
  have hpush : ∀ (acc : List (List Char × JsonValue)) (m : List Char × JsonValue),
      m.1 ∉ acc.map Prod.fst → push acc m = acc ++ [m] := by
    intro acc m hm
    induction acc with
    | nil => rfl
    | cons q acc ih =>
      rw [List.map_cons, List.mem_cons, not_or] at hm
      rw [push, if_neg (fun heq => hm.1 heq.symm), ih hm.2]
      rfl
  induction ms generalizing acc with
  | nil => rw [List.append_nil, List.foldl_nil]
  | cons m ms ih =>
    have hcut : acc ++ m :: ms = acc ++ [m] ++ ms := by
      rw [List.append_assoc]
      rfl
    rw [hcut] at h ⊢
    have hm : m.1 ∉ acc.map Prod.fst := by
      intro hmem
      rw [List.append_assoc, List.map_append, List.nodup_append] at h
      exact h.2.2 m.1 hmem m.1 (by simp) rfl
    rw [List.foldl_cons, hpush acc m hm, ih h]

/-- A value begins with its own mark: no blank, and nothing that ends an array. -/
theorem write_head (v : JsonValue) : ∃ c t, write v = c :: t ∧ isWs c = false ∧ c ≠ ']' := by
  cases v with
  | null => exact ⟨'n', _, rfl, rfl, by decide⟩
  | bool b =>
    cases b with
    | false => exact ⟨'f', _, rfl, rfl, by decide⟩
    | true => exact ⟨'t', _, rfl, rfl, by decide⟩
  | num d =>
    obtain ⟨c, t, htext, hc⟩ := intText_head d.toInt
    refine ⟨c, t, htext, (not_marks hc).2, fun hend => ?_⟩
    rw [hend] at hc
    rcases hc with hdigit | hminus
    · cases hdigit
    · cases hminus
  | str s => exact ⟨'"', _, rfl, rfl, by decide⟩
  | arr items => exact ⟨'[', _, rfl, rfl, by decide⟩
  | obj members => exact ⟨'{', _, rfl, rfl, by decide⟩

theorem writeItems_head (v : JsonValue) (items : List JsonValue) :
    ∃ c t, writeItems (v :: items) = c :: t ∧ isWs c = false ∧ c ≠ ']' := by
  obtain ⟨c, t, htext, hc⟩ := write_head v
  cases items with
  | nil => exact ⟨c, t, htext, hc⟩
  | cons w items =>
    refine ⟨c, t ++ ',' :: writeItems (w :: items), ?_, hc⟩
    show write v ++ ',' :: writeItems (w :: items) = _
    rw [htext]
    rfl

theorem writeMembers_head (m : List Char × JsonValue) (ms : List (List Char × JsonValue)) :
    ∃ t, writeMembers (m :: ms) = '"' :: t := by
  obtain ⟨key, v⟩ := m
  cases ms with
  | nil => exact ⟨_, rfl⟩
  | cons m ms => exact ⟨_, rfl⟩

/-- The members of an object, once they are read. -/
theorem value_writeMembers {members' : List (List Char × JsonValue)}
    (hkeys : (members'.map Prod.fst).Nodup) (s : List Char)
    (h : members' ≠ [] → members (writeMembers members' ++ '}' :: s) = (members', s)) :
    value (write (.obj members') ++ s) = (.obj members', s) := by
  have hcut : write (.obj members') ++ s = '{' :: (writeMembers members' ++ '}' :: s) := by
    rw [write, List.cons_append, List.append_assoc]
    rfl
  rw [hcut]
  cases members' with
  | nil => exact value_obj_nil (ws_cons rfl _) (ws_cons rfl _)
  | cons m ms =>
    obtain ⟨t, ht⟩ := writeMembers_head m ms
    have hread := h (List.cons_ne_nil m ms)
    rw [ht, List.cons_append] at hread ⊢
    have hpush := @foldl_push_nodup (m :: ms) [] hkeys
    rw [value_members hread, hpush]
    rfl

/-- The elements of an array, once they are read. -/
theorem value_writeItems {items : List JsonValue} (s : List Char)
    (h : items ≠ [] → elements (writeItems items ++ ']' :: s) = (items, s)) :
    value (write (.arr items) ++ s) = (.arr items, s) := by
  have hcut : write (.arr items) ++ s = '[' :: (writeItems items ++ ']' :: s) := by
    rw [write, List.cons_append, List.append_assoc]
    rfl
  rw [hcut]
  cases items with
  | nil => exact value_arr_nil (ws_cons rfl _) (ws_cons rfl _)
  | cons v items =>
    obtain ⟨c, t, ht, hblank, hend⟩ := writeItems_head v items
    have hws : ws (writeItems (v :: items) ++ ']' :: s) = writeItems (v :: items) ++ ']' :: s := by
      rw [ht]
      exact ws_cons hblank _
    rw [value_arr (ws_cons rfl _) ?_, hws, h (List.cons_ne_nil v items)]
    intro u hu
    rw [hws, ht] at hu
    exact hend (List.cons.inj hu).1

mutual

/-- **A value is read as it is written**, and what comes after it is left. -/
theorem value_write : ∀ v, Writable v → ∀ s, Stops s → value (write v ++ s) = (v, s)
  | .null, _, s, _ => by
    show value ('n' :: 'u' :: 'l' :: 'l' :: s) = _
    rw [value_eq, ws_cons rfl]
    exact congrArg (Prod.mk JsonValue.null) (skip_zero s)
  | .bool true, _, s, _ => by
    show value ('t' :: 'r' :: 'u' :: 'e' :: s) = _
    rw [value_eq, ws_cons rfl]
    exact congrArg (Prod.mk (JsonValue.bool true)) (skip_zero s)
  | .bool false, _, s, _ => by
    show value ('f' :: 'a' :: 'l' :: 's' :: 'e' :: s) = _
    rw [value_eq, ws_cons rfl]
    exact congrArg (Prod.mk (JsonValue.bool false)) (skip_zero s)
  | .num d, h, s, hs => by
    rw [Writable] at h
    rw [write, value_int _ hs, ← h]
  | .str text, _, s, _ => value_jstr text s
  | .arr items, h, s, _ => value_writeItems s fun hne => elements_write items hne h s
  | .obj ms, h, s, _ => value_writeMembers h.1 s fun hne => members_write ms hne h.2 s

theorem elements_write : ∀ items, items ≠ [] → WritableItems items →
    ∀ s, elements (writeItems items ++ ']' :: s) = (items, s)
  | [], hne, _, _ => absurd rfl hne
  | [v], _, h, s => by
    show elements (write v ++ ']' :: s) = _
    rw [elements_eq, value_write v h.1 _ (stops_cons (.inr (.inl rfl)) s)]
    simp only [ws_cons (show isWs ']' = false from rfl)]
  | v :: w :: items, _, h, s => by
    have hcut : writeItems (v :: w :: items) ++ ']' :: s =
        write v ++ ',' :: (writeItems (w :: items) ++ ']' :: s) := List.append_assoc _ _ _
    rw [hcut, elements_eq, value_write v h.1 _ (stops_cons (.inl rfl) _)]
    simp only [ws_cons (show isWs ',' = false from rfl)]
    rw [elements_write (w :: items) (List.cons_ne_nil _ _) h.2 s]

/-- The members of an object are read as they are written. -/
theorem members_write : ∀ ms, ms ≠ [] → WritableMembers ms →
    ∀ s, members (writeMembers ms ++ '}' :: s) = (ms, s)
  | [], hne, _, _ => absurd rfl hne
  | [(key, v)], _, h, s => by
    have hcut : writeMembers [(key, v)] ++ '}' :: s =
        '"' :: (key.flatMap jstrChar ++ '"' :: (':' :: (write v ++ '}' :: s))) := by
      show (jstr key ++ ':' :: write v) ++ '}' :: s = _
      rw [List.append_assoc, jstr_append]
      rfl
    rw [hcut, members_key (scan_jstr key _) (value_write v h.1 _ (stops_cons (.inr (.inr rfl)) s))]
    simp only [ws_cons (show isWs '}' = false from rfl)]
  | (key, v) :: m :: ms, _, h, s => by
    have hcut : writeMembers ((key, v) :: m :: ms) ++ '}' :: s =
        '"' :: (key.flatMap jstrChar ++
          '"' :: (':' :: (write v ++ ',' :: (writeMembers (m :: ms) ++ '}' :: s)))) := by
      show (jstr key ++ ':' :: (write v ++ ',' :: writeMembers (m :: ms))) ++ '}' :: s = _
      rw [List.append_assoc, jstr_append, List.cons_append, List.append_assoc]
      rfl
    rw [hcut, members_key (scan_jstr key _) (value_write v h.1 _ (stops_cons (.inl rfl) _))]
    simp only [ws_cons (show isWs ',' = false from rfl)]
    rw [members_write (m :: ms) (List.cons_ne_nil _ _) h.2 s]

end

/-- **A document is read as it is written.** -/
theorem parse_write {v : JsonValue} (h : Writable v) : parse (write v) = some v := by
  obtain ⟨c, t, htext, -⟩ := write_head v
  have hread := value_write v h [] stops_nil
  rw [List.append_nil] at hread
  rw [parse_eq (by rw [htext]; exact List.cons_ne_nil c t), hread]

/-! ## On one line -/

/-- No control character. -/
def Printable (s : List Char) : Prop := ∀ c ∈ s, 32 ≤ c.toNat

instance (s : List Char) : Decidable (Printable s) := List.decidableBAll _ s

theorem Printable.append {s t : List Char} (hs : Printable s) (ht : Printable t) :
    Printable (s ++ t) := by
  intro c hc
  rcases List.mem_append.mp hc with hmem | hmem
  · exact hs c hmem
  · exact ht c hmem

theorem Printable.cons {c : Char} {s : List Char} (hc : 32 ≤ c.toNat) (hs : Printable s) :
    Printable (c :: s) := by
  intro d hd
  rcases List.mem_cons.mp hd with heq | hmem
  · rw [heq]
    exact hc
  · exact hs d hmem

theorem printable_digits (n : Nat) : Printable (Nat.toDigits 10 n) := by
  intro c hc
  have hdigit := digits_isDigit n c hc
  have hlow : 48 ≤ c.toNat ∧ c.toNat ≤ 57 := by
    simpa [Char.isDigit, UInt32.le_iff_toNat_le] using hdigit
  omega

theorem printable_hex04 : ∀ n < 32, Printable (hex04 n) := by
  decide

theorem printable_jstrChar (c : Char) : Printable (jstrChar c) := by
  unfold jstrChar
  split
  · decide
  split
  · decide
  split
  · decide
  split
  · decide
  split
  · decide
  split
  next hctl => exact .cons (by decide) (.cons (by decide) (printable_hex04 _ hctl))
  next hplain =>
    intro d hd
    rw [List.mem_singleton.mp hd]
    omega

theorem printable_jstr (s : List Char) : Printable (jstr s) := by
  refine .cons (by decide) (.append ?_ (by decide))
  intro c hc
  obtain ⟨d, -, hmem⟩ := List.mem_flatMap.mp hc
  exact printable_jstrChar d c hmem

mutual

/-- **A document is one line**, whatever its strings are. -/
theorem printable_write : ∀ v, Printable (write v)
  | .null => by decide
  | .bool true => by decide
  | .bool false => by decide
  | .num d => by
    rw [write]
    cases d.toInt with
    | ofNat n => exact printable_digits n
    | negSucc n => exact .cons (by decide) (printable_digits (n + 1))
  | .str s => printable_jstr s
  | .arr items => .cons (by decide) ((printable_writeItems items).append (by decide))
  | .obj ms => .cons (by decide) ((printable_writeMembers ms).append (by decide))

theorem printable_writeItems : ∀ items, Printable (writeItems items)
  | [] => by decide
  | [v] => printable_write v
  | v :: w :: items =>
    (printable_write v).append (.cons (by decide) (printable_writeItems (w :: items)))

theorem printable_writeMembers : ∀ ms, Printable (writeMembers ms)
  | [] => by decide
  | [(key, v)] => (printable_jstr key).append (.cons (by decide) (printable_write v))
  | (key, v) :: m :: ms =>
    (printable_jstr key).append (.cons (by decide)
      ((printable_write v).append (.cons (by decide) (printable_writeMembers (m :: ms)))))

end

end Colibri.JsonValue
