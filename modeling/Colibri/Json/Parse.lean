import Colibri.Json.Number

/-!
# The JSON parser

A small parser that takes what it can get: it never fails, and what it cannot read is
the number zero. It goes through the text once, so it is written as functions from what is
left of the text to what is left after. The source works on bytes; every byte it looks for
is an ASCII character, and those are bytes of nothing else. That the two are one parser is a
theorem: `JsonBytes.parse_encode` says that the parser of bytes, with the indices and the
lookups of the source, reads of a text in UTF-8 what `parse` reads of its characters.

The recursion is bounded by a number of calls that the length of the text is enough for
(`parseVal_fuel`). With that many, `value`, `members` and `elements` are the parser without
the bound: `value_eq`, `members_eq` and `elements_eq` are the lines of the source.

* `..._suffix`: what a function leaves is the end of its text.
* `calls_enough`, `parseVal_of_le`: more calls than the length allows change nothing.
* `mem_members`: a member of an object was somewhere in the text.
-/

namespace Colibri

/-- `Json`. A number is kept as it is written; all that is asked of it is `as_i64`. -/
inductive JsonValue where
  | null
  | bool (b : Bool)
  | num (d : JsonValue.Decimal)
  | str (s : List Char)
  | arr (items : List JsonValue)
  | obj (members : List (List Char × JsonValue))

namespace JsonValue

/-- `JsonObj::push`: the last value of a key counts, in the place of the first. -/
def push : List (List Char × JsonValue) → List Char × JsonValue → List (List Char × JsonValue)
  | [], p => [p]
  | q :: members, p => if q.1 = p.1 then (q.1, p.2) :: members else q :: push members p

def get (key : List Char) : JsonValue → Option JsonValue
  | .obj members => (members.find? fun p => p.1 = key).map Prod.snd
  | _ => none

def asI64 : JsonValue → Option Int
  | .num d => some d.asI64
  | _ => none

def asStr : JsonValue → Option (List Char)
  | .str s => some s
  | _ => none

def asArray : JsonValue → Option (List JsonValue)
  | .arr items => some items
  | _ => none

def asObject : JsonValue → Option (List (List Char × JsonValue))
  | .obj members => some members
  | _ => none

/-! ## Strings -/

def isWs (c : Char) : Bool := c = ' ' || c = '\t' || c = '\n' || c = '\x0c' || c = '\r'

def ws (s : List Char) : List Char := s.dropWhile isWs

def hexDigit (c : Char) : Option Nat :=
  if '0' ≤ c ∧ c ≤ '9' then some (c.toNat - '0'.toNat)
  else if 'a' ≤ c ∧ c ≤ 'f' then some (c.toNat - 'a'.toNat + 10)
  else if 'A' ≤ c ∧ c ≤ 'F' then some (c.toNat - 'A'.toNat + 10)
  else none

/-- The loop of `hex4`: at most `n` digits. -/
def hexFrom : Nat → Nat → List Char → Nat × List Char
  | 0, v, s => (v, s)
  | _, v, [] => (v, [])
  | n + 1, v, c :: s =>
    match hexDigit c with
    | some d => hexFrom n (v * 16 + d) s
    | none => (v, c :: s)

def hex4 (s : List Char) : Nat × List Char := hexFrom 4 0 s

/-- `push_utf8`. A surrogate makes three bytes that are no character, and each of them is
replaced when the string is decoded. -/
def pushUtf8 (cp : Nat) : List Char :=
  if 0xD800 ≤ cp ∧ cp ≤ 0xDFFF then List.replicate 3 (Char.ofNat 0xFFFD) else [Char.ofNat cp]

/-- What `\u` stands for; a pair of surrogates is one character. -/
def unicode (s : List Char) : List Char × List Char :=
  let (cp, s) := hex4 s
  if 0xD800 ≤ cp ∧ cp ≤ 0xDBFF then
    match s with
    | '\\' :: 'u' :: t =>
      let (lo, t) := hex4 t
      if 0xDC00 ≤ lo ∧ lo ≤ 0xDFFF then
        (pushUtf8 (0x10000 + (cp - 0xD800) * 2 ^ 10 + (lo - 0xDC00)), t)
      else (pushUtf8 cp, s)
    | _ => (pushUtf8 cp, s)
  else (pushUtf8 cp, s)

/-- The escape of `e`, with the text after it. -/
def escape (e : Char) (s : List Char) : List Char × List Char :=
  match e with
  | 'n' => (['\n'], s)
  | 't' => (['\t'], s)
  | 'r' => (['\r'], s)
  | 'b' => (['\x08'], s)
  | 'f' => (['\x0c'], s)
  | '/' => (['/'], s)
  | '\\' => (['\\'], s)
  | '"' => (['"'], s)
  | 'u' => unicode s
  | other => ([other], s)

/-- The loop of `parse_str_raw`, and the quote that ends it. -/
def strBody : Nat → List Char → List Char × List Char
  | 0, s => ([], s)
  | _, [] => ([], [])
  | n + 1, c :: s =>
    if c = '"' then ([], s)
    else if c = '\\' then
      match s with
      -- the last character of the text escapes nothing
      | [] => (['\\'], [])
      | e :: s =>
        let (out, s) := escape e s
        let (rest, s) := strBody n s
        (out ++ rest, s)
    else
      let (rest, s) := strBody n s
      (c :: rest, s)

/-- A string, the opening quote behind. -/
def scan (s : List Char) : List Char × List Char := strBody s.length s

def parseStrRaw (s : List Char) : List Char × List Char :=
  match s with
  | '"' :: s => scan s
  | s => scan s

/-! ## Numbers -/

def takeSign (s : List Char) : Bool × List Char :=
  match s with
  | '-' :: s => (true, s)
  | '+' :: s => (false, s)
  | s => (false, s)

def isDigitOrDot (c : Char) : Bool := c.isDigit || c = '.'

/-- What `parse::<f64>` makes of the digits and the dot: all digits as one number, and how
many of them are behind the dot. There is nothing without a digit, or with two dots. -/
def mantissa (body : List Char) : Option (Nat × Nat) :=
  let whole := body.takeWhile (· ≠ '.')
  let frac := (body.dropWhile (· ≠ '.')).drop 1
  if '.' ∈ frac ∨ whole ++ frac = [] then none
  else some (Nat.ofDigitChars 10 (whole ++ frac) 0, frac.length)

/-- The number, with the exponent that is written; what is not a number is `0.0`. -/
def decimal (neg : Bool) (mant : Option (Nat × Nat)) (exp : Int) : Decimal :=
  match mant with
  | some (m, k) => ⟨neg, m, exp - k⟩
  | none => ⟨false, 0, 0⟩

def parseNum (s : List Char) : Decimal × List Char :=
  let (neg, s) := takeSign s
  let mant := mantissa (s.takeWhile isDigitOrDot)
  match s.dropWhile isDigitOrDot with
  | [] => (decimal neg mant 0, [])
  | e :: t =>
    if e = 'e' ∨ e = 'E' then
      let (eneg, t) := takeSign t
      let digits := t.takeWhile Char.isDigit
      let exp : Int := Nat.ofDigitChars 10 digits 0
      let mant := if digits = [] then none else mant
      (decimal neg mant (if eneg then -exp else exp), t.dropWhile Char.isDigit)
    else (decimal neg mant 0, e :: t)

/-! ## Values -/

/-- `self.i += n`, in bytes. Inside a character no loop goes on and nothing else is read,
as at the end of the text. -/
def skip : List Char → Nat → List Char
  | [], _ => []
  | c :: s, n => if n = 0 then c :: s else if c.utf8Size ≤ n then skip s (n - c.utf8Size) else []

def colon (s : List Char) : List Char :=
  match s with
  | ':' :: s => s
  | s => s

mutual

def parseVal : Nat → List Char → JsonValue × List Char
  | 0, s => (.null, s)
  | n + 1, s =>
    match ws s with
    | '"' :: s =>
      let (out, s) := scan s
      (.str out, s)
    | '{' :: s =>
      match ws s with
      | '}' :: s => (.obj [], s)
      | s =>
        let (pairs, s) := objLoop n s
        (.obj (pairs.foldl push []), s)
    | '[' :: s =>
      match ws s with
      | ']' :: s => (.arr [], s)
      | s =>
        let (items, s) := arrLoop n s
        (.arr items, s)
    | 't' :: s => (.bool true, skip ('t' :: s) 4)
    | 'f' :: s => (.bool false, skip ('f' :: s) 5)
    | 'n' :: s => (.null, skip ('n' :: s) 4)
    | s =>
      let (d, s) := parseNum s
      (.num d, s)

/-- The loop of `parse_obj`: what is pushed, in that order. -/
def objLoop : Nat → List Char → List (List Char × JsonValue) × List Char
  | 0, s => ([], s)
  | n + 1, s =>
    let (key, s) := parseStrRaw (ws s)
    let (val, s) := parseVal n (colon (ws s))
    match ws s with
    | ',' :: s =>
      let (pairs, s) := objLoop n s
      ((key, val) :: pairs, s)
    | '}' :: s => ([(key, val)], s)
    | s => ([(key, val)], s)

/-- The loop of `parse_arr`. -/
def arrLoop : Nat → List Char → List JsonValue × List Char
  | 0, s => ([], s)
  | n + 1, s =>
    let (val, s) := parseVal n s
    match ws s with
    | ',' :: s =>
      let (items, s) := arrLoop n s
      (val :: items, s)
    | ']' :: s => ([val], s)
    | s => ([val], s)

end

/-- `Json::parse` -/
def parse (text : List Char) : Option JsonValue :=
  if text = [] then none else some (parseVal (2 * text.length + 1) text).1

/-! ## What is left is the end of the text -/

theorem ws_suffix (s : List Char) : ws s <:+ s := List.dropWhile_suffix _

theorem ws_cons {c : Char} (h : isWs c = false) (s : List Char) : ws (c :: s) = c :: s := by
  unfold ws
  rw [List.dropWhile_cons, h]
  rfl

theorem hexFrom_suffix (n v : Nat) (s : List Char) : (hexFrom n v s).2 <:+ s := by
  induction s generalizing n v with
  | nil => cases n <;> exact List.suffix_rfl
  | cons c s ih =>
    cases n with
    | zero => exact List.suffix_rfl
    | succ n =>
      rw [hexFrom]
      split
      next d _ => exact (ih n _).trans (List.suffix_cons c s)
      next => exact List.suffix_rfl

theorem hex4_suffix (s : List Char) : (hex4 s).2 <:+ s := hexFrom_suffix 4 0 s

theorem unicode_suffix (s : List Char) : (unicode s).2 <:+ s := by
  have hfirst := hex4_suffix s
  unfold unicode
  dsimp only
  split
  · split
    next t ht =>
      rw [ht] at hfirst
      split
      · exact ((hex4_suffix t).trans ((List.suffix_cons 'u' t).trans (List.suffix_cons _ _))).trans
          hfirst
      · rw [ht]
        exact hfirst
    next => exact hfirst
  · exact hfirst

theorem escape_suffix (e : Char) (s : List Char) : (escape e s).2 <:+ s := by
  unfold escape
  split
  case h_9 => exact unicode_suffix s
  all_goals exact List.suffix_rfl

theorem strBody_escape (n : Nat) (e : Char) (s : List Char) :
    strBody (n + 1) ('\\' :: e :: s) = ((escape e s).1 ++ (strBody n (escape e s).2).1,
      (strBody n (escape e s).2).2) := rfl

theorem strBody_plain (n : Nat) {c : Char} (hquote : c ≠ '"') (hback : c ≠ '\\')
    (s : List Char) : strBody (n + 1) (c :: s) = (c :: (strBody n s).1, (strBody n s).2) := by
  cases s <;> simp [strBody, hquote, hback]

theorem strBody_suffix (n : Nat) (s : List Char) : (strBody n s).2 <:+ s := by
  induction n generalizing s with
  | zero => exact List.suffix_rfl
  | succ n ih =>
    match s with
    | [] => exact List.suffix_rfl
    | c :: s =>
      by_cases hquote : c = '"'
      · subst hquote
        exact List.suffix_cons _ s
      by_cases hback : c = '\\'
      · subst hback
        cases s with
        | nil => exact List.nil_suffix
        | cons e s =>
          rw [strBody_escape]
          exact ((ih _).trans (escape_suffix e s)).trans
            ((List.suffix_cons e s).trans (List.suffix_cons _ _))
      · rw [strBody_plain n hquote hback]
        exact (ih s).trans (List.suffix_cons c s)

theorem strBody_nil (n : Nat) : strBody n [] = ([], []) := by cases n <;> rfl

/-- A string has no more characters than its text: more turns change nothing. -/
theorem strBody_eq {n m : Nat} {s : List Char} (hn : s.length ≤ n) (hm : s.length ≤ m) :
    strBody n s = strBody m s := by
  induction n generalizing m s with
  | zero =>
    obtain rfl := List.length_eq_zero_iff.mp (Nat.le_zero.mp hn)
    rw [strBody_nil, strBody_nil]
  | succ n ih =>
    match s, m with
    | [], m => rw [strBody_nil, strBody_nil]
    | c :: s, 0 => exact absurd hm (Nat.not_succ_le_zero _)
    | c :: s, m + 1 =>
      have hrest := Nat.le_of_succ_le_succ hn
      have hrest' := Nat.le_of_succ_le_succ hm
      by_cases hquote : c = '"'
      · subst hquote
        rfl
      by_cases hback : c = '\\'
      · subst hback
        cases s with
        | nil => rfl
        | cons e s =>
          have hle := Nat.le_succ_of_le (escape_suffix e s).length_le
          rw [strBody_escape, strBody_escape, ih (Nat.le_trans hle hrest)
            (Nat.le_trans hle hrest')]
      · rw [strBody_plain n hquote hback, strBody_plain m hquote hback, ih hrest hrest']

theorem scan_quote (s : List Char) : scan ('"' :: s) = ([], s) := rfl

theorem scan_plain {c : Char} (hquote : c ≠ '"') (hback : c ≠ '\\') (s : List Char) :
    scan (c :: s) = (c :: (scan s).1, (scan s).2) := strBody_plain _ hquote hback s

theorem scan_escape (e : Char) (s : List Char) : scan ('\\' :: e :: s)
    = ((escape e s).1 ++ (scan (escape e s).2).1, (scan (escape e s).2).2) := by
  have hle := (escape_suffix e s).length_le
  unfold scan
  rw [List.length_cons, strBody_escape, strBody_eq (n := (e :: s).length)
    (Nat.le_trans hle (Nat.le_succ _)) (Nat.le_refl (escape e s).2.length)]

theorem scan_suffix (s : List Char) : (scan s).2 <:+ s := strBody_suffix s.length s

theorem parseStrRaw_suffix (s : List Char) : (parseStrRaw s).2 <:+ s := by
  unfold parseStrRaw
  split
  next s => exact (scan_suffix s).trans (List.suffix_cons _ s)
  next => exact scan_suffix _

theorem takeWhile_append_stop {p : Char → Bool} {l : List Char} (h : ∀ c ∈ l, p c = true)
    {c : Char} (hc : p c = false) (s : List Char) :
    (l ++ c :: s).takeWhile p = l ∧ (l ++ c :: s).dropWhile p = c :: s := by
  rw [List.takeWhile_append_of_pos h, List.dropWhile_append_of_pos h, List.takeWhile_cons,
    List.dropWhile_cons, hc]
  exact ⟨List.append_nil l, rfl⟩

theorem takeSign_suffix (s : List Char) : (takeSign s).2 <:+ s := by
  unfold takeSign
  split
  next s => exact List.suffix_cons _ s
  next s => exact List.suffix_cons _ s
  next => exact List.suffix_rfl

theorem parseNum_suffix (s : List Char) : (parseNum s).2 <:+ s := by
  have hbody := (List.dropWhile_suffix isDigitOrDot).trans (takeSign_suffix s)
  unfold parseNum
  dsimp only
  split
  next hnil => exact List.nil_suffix
  next e t ht =>
    rw [ht] at hbody
    split
    · exact ((List.dropWhile_suffix _).trans (takeSign_suffix t)).trans
        ((List.suffix_cons e t).trans hbody)
    · exact hbody

theorem skip_suffix (s : List Char) (n : Nat) : skip s n <:+ s := by
  induction s generalizing n with
  | nil => exact List.suffix_rfl
  | cons c s ih =>
    rw [skip]
    split
    · exact List.suffix_rfl
    · split
      · exact (ih _).trans (List.suffix_cons c s)
      · exact List.nil_suffix

theorem rest_suffix {mark : Char} {s t : List Char} (h : ws s = mark :: t) : t <:+ s :=
  (List.suffix_cons mark t).trans (h ▸ ws_suffix s)

theorem colon_suffix (s : List Char) : colon s <:+ s := by
  unfold colon
  split
  next s => exact List.suffix_cons _ s
  next => exact List.suffix_rfl

theorem key_suffix (s : List Char) : colon (ws (parseStrRaw (ws s)).2) <:+ s :=
  ((colon_suffix _).trans (ws_suffix _)).trans ((parseStrRaw_suffix _).trans (ws_suffix s))

mutual

/-- A call leaves the end of its text, however many calls it may make. -/
theorem parseVal_suffix : ∀ n s, (parseVal n s).2 <:+ s
  | 0, s => List.suffix_rfl
  | n + 1, s => by
    rw [parseVal]
    split
    next t ht => exact (scan_suffix t).trans (rest_suffix ht)
    next t ht =>
      split
      next u hu => exact (rest_suffix hu).trans (rest_suffix ht)
      next => exact ((objLoop_suffix n _).trans (ws_suffix t)).trans (rest_suffix ht)
    next t ht =>
      split
      next u hu => exact (rest_suffix hu).trans (rest_suffix ht)
      next => exact ((arrLoop_suffix n _).trans (ws_suffix t)).trans (rest_suffix ht)
    next t ht => exact ht ▸ (skip_suffix _ 4).trans (ht ▸ ws_suffix s)
    next t ht => exact ht ▸ (skip_suffix _ 5).trans (ht ▸ ws_suffix s)
    next t ht => exact ht ▸ (skip_suffix _ 4).trans (ht ▸ ws_suffix s)
    next => exact (parseNum_suffix _).trans (ws_suffix s)

theorem objLoop_suffix : ∀ n s, (objLoop n s).2 <:+ s
  | 0, s => List.suffix_rfl
  | n + 1, s => by
    have hval := (parseVal_suffix n (colon (ws (parseStrRaw (ws s)).2))).trans (key_suffix s)
    rw [objLoop]
    dsimp only
    split
    next t ht => exact (objLoop_suffix n t).trans ((rest_suffix ht).trans hval)
    next t ht => exact (rest_suffix ht).trans hval
    next => exact (ws_suffix _).trans hval

theorem arrLoop_suffix : ∀ n s, (arrLoop n s).2 <:+ s
  | 0, s => List.suffix_rfl
  | n + 1, s => by
    have hval := parseVal_suffix n s
    rw [arrLoop]
    dsimp only
    split
    next t ht => exact (arrLoop_suffix n t).trans ((rest_suffix ht).trans hval)
    next t ht => exact (rest_suffix ht).trans hval
    next => exact (ws_suffix _).trans hval

end

/-! ## Calls enough -/

theorem rest_length {mark : Char} {s t : List Char} (h : ws s = mark :: t) :
    t.length < s.length := by
  have hle := (ws_suffix s).length_le
  rw [h] at hle
  exact hle

/-- The calls that the length of the text allows are enough: one more changes nothing. -/
theorem calls_enough (n : Nat) : ∀ s,
    (2 * s.length + 1 ≤ n → parseVal (n + 1) s = parseVal n s) ∧
    (2 * s.length + 2 ≤ n → objLoop (n + 1) s = objLoop n s ∧ arrLoop (n + 1) s = arrLoop n s) := by
  induction n with
  | zero => exact fun s => ⟨fun h => absurd h (by omega), fun h => absurd h (by omega)⟩
  | succ n ih =>
    intro s
    refine ⟨fun h => ?_, fun h => ⟨?_, ?_⟩⟩
    · rw [parseVal, parseVal]
      split
      next => rfl
      next t ht =>
        have hlt := rest_length ht
        have hle := (ws_suffix t).length_le
        split
        next => rfl
        next => rw [((ih (ws t)).2 (by omega)).1]
      next t ht =>
        have hlt := rest_length ht
        have hle := (ws_suffix t).length_le
        split
        next => rfl
        next => rw [((ih (ws t)).2 (by omega)).2]
      all_goals rfl
    · have hkey := (key_suffix s).length_le
      have hval := (parseVal_suffix n (colon (ws (parseStrRaw (ws s)).2))).length_le
      rw [objLoop, objLoop]
      dsimp only
      rw [(ih _).1 (by omega)]
      split
      next t ht =>
        have hlt := rest_length ht
        rw [((ih t).2 (by omega)).1]
      all_goals rfl
    · have hval := (parseVal_suffix n s).length_le
      rw [arrLoop, arrLoop]
      dsimp only
      rw [(ih s).1 (by omega)]
      split
      next t ht =>
        have hlt := rest_length ht
        rw [((ih t).2 (by omega)).2]
      all_goals rfl

/-- The calls as the source makes them, without a bound. -/
def value (s : List Char) : JsonValue × List Char := parseVal (2 * s.length + 1) s
def members (s : List Char) : List (List Char × JsonValue) × List Char :=
  objLoop (2 * s.length + 2) s
def elements (s : List Char) : List JsonValue × List Char := arrLoop (2 * s.length + 2) s

theorem parseVal_of_le {n : Nat} {s : List Char} (h : 2 * s.length + 1 ≤ n) :
    parseVal n s = value s := by
  induction n, h using Nat.le_induction with
  | base => rfl
  | succ n hn ih => rw [((calls_enough n s).1 hn), ih]

theorem objLoop_of_le {n : Nat} {s : List Char} (h : 2 * s.length + 2 ≤ n) :
    objLoop n s = members s := by
  induction n, h using Nat.le_induction with
  | base => rfl
  | succ n hn ih => rw [((calls_enough n s).2 hn).1, ih]

theorem arrLoop_of_le {n : Nat} {s : List Char} (h : 2 * s.length + 2 ≤ n) :
    arrLoop n s = elements s := by
  induction n, h using Nat.le_induction with
  | base => rfl
  | succ n hn ih => rw [((calls_enough n s).2 hn).2, ih]

/-- A value, by the mark that begins it. -/
theorem value_eq (s : List Char) : value s =
    match ws s with
    | '"' :: t => (.str (scan t).1, (scan t).2)
    | '{' :: t =>
      match ws t with
      | '}' :: u => (.obj [], u)
      | u => (.obj ((members u).1.foldl push []), (members u).2)
    | '[' :: t =>
      match ws t with
      | ']' :: u => (.arr [], u)
      | u => (.arr (elements u).1, (elements u).2)
    | 't' :: t => (.bool true, skip ('t' :: t) 4)
    | 'f' :: t => (.bool false, skip ('f' :: t) 5)
    | 'n' :: t => (.null, skip ('n' :: t) 4)
    | t => (.num (parseNum t).1, (parseNum t).2) := by
  rw [value, parseVal]
  split
  next => rfl
  next t ht =>
    have hlt := rest_length ht
    have hle := (ws_suffix t).length_le
    split
    next => rfl
    next => rw [objLoop_of_le (by omega)]
  next t ht =>
    have hlt := rest_length ht
    have hle := (ws_suffix t).length_le
    split
    next => rfl
    next => rw [arrLoop_of_le (by omega)]
  all_goals rfl

theorem value_str {s t : List Char} (h : ws s = '"' :: t) :
    value s = (.str (scan t).1, (scan t).2) := by
  rw [value_eq, h]
  rfl

/-- After a brace: the end, or members. -/
theorem value_brace {s t : List Char} (h : ws s = '{' :: t) :
    value s =
      match ws t with
      | '}' :: u => (.obj [], u)
      | u => (.obj ((members u).1.foldl push []), (members u).2) := by
  rw [value_eq, h]
  rfl

theorem value_obj {s t : List Char} (h : ws s = '{' :: t) (hnot : ∀ u, ws t ≠ '}' :: u) :
    value s = (.obj ((members (ws t)).1.foldl push []), (members (ws t)).2) := by
  rw [value_brace h]
  split
  next u hu => exact absurd hu (hnot u)
  next => rfl

theorem value_obj_nil {s t u : List Char} (h : ws s = '{' :: t) (hu : ws t = '}' :: u) :
    value s = (.obj [], u) := by
  rw [value_brace h, hu]
  rfl

/-- After a bracket: the end, or elements. -/
theorem value_bracket {s t : List Char} (h : ws s = '[' :: t) :
    value s =
      match ws t with
      | ']' :: u => (.arr [], u)
      | u => (.arr (elements u).1, (elements u).2) := by
  rw [value_eq, h]
  rfl

theorem value_arr {s t : List Char} (h : ws s = '[' :: t) (hnot : ∀ u, ws t ≠ ']' :: u) :
    value s = (.arr (elements (ws t)).1, (elements (ws t)).2) := by
  rw [value_bracket h]
  split
  next u hu => exact absurd hu (hnot u)
  next => rfl

theorem value_arr_nil {s t u : List Char} (h : ws s = '[' :: t) (hu : ws t = ']' :: u) :
    value s = (.arr [], u) := by
  rw [value_bracket h, hu]
  rfl

/-- What begins a value that is not a number. -/
def Marks (c : Char) : Prop := c = '"' ∨ c = '{' ∨ c = '[' ∨ c = 't' ∨ c = 'f' ∨ c = 'n'

theorem value_num {s : List Char} {c : Char} {t : List Char} (h : ws s = c :: t)
    (hc : ¬ Marks c) : value s = (.num (parseNum (c :: t)).1, (parseNum (c :: t)).2) := by
  unfold Marks at hc
  rw [value_eq, h]
  split
  next hmark => exact absurd (List.cons.inj hmark).1 (by tauto)
  next hmark => exact absurd (List.cons.inj hmark).1 (by tauto)
  next hmark => exact absurd (List.cons.inj hmark).1 (by tauto)
  next hmark => exact absurd (List.cons.inj hmark).1 (by tauto)
  next hmark => exact absurd (List.cons.inj hmark).1 (by tauto)
  next hmark => exact absurd (List.cons.inj hmark).1 (by tauto)
  next => rfl

/-- One member, and what comes after it. -/
theorem members_eq (s : List Char) : members s =
    let val := value (colon (ws (parseStrRaw (ws s)).2))
    match ws val.2 with
    | ',' :: t => (((parseStrRaw (ws s)).1, val.1) :: (members t).1, (members t).2)
    | '}' :: t => ([((parseStrRaw (ws s)).1, val.1)], t)
    | t => ([((parseStrRaw (ws s)).1, val.1)], t) := by
  have hkey := (key_suffix s).length_le
  have hval := (parseVal_suffix (2 * s.length + 1) (colon (ws (parseStrRaw (ws s)).2))).length_le
  rw [members, objLoop]
  dsimp only
  rw [parseVal_of_le (by omega)] at hval ⊢
  split
  next t ht =>
    have hlt := rest_length ht
    rw [objLoop_of_le (by omega)]
  all_goals rfl

theorem elements_eq (s : List Char) : elements s =
    match ws (value s).2 with
    | ',' :: t => ((value s).1 :: (elements t).1, (elements t).2)
    | ']' :: t => ([(value s).1], t)
    | t => ([(value s).1], t) := by
  have hval := (parseVal_suffix (2 * s.length + 1) s).length_le
  rw [elements, arrLoop]
  dsimp only
  rw [parseVal_of_le (by omega)] at hval ⊢
  split
  next t ht =>
    have hlt := rest_length ht
    rw [arrLoop_of_le (by omega)]
  all_goals rfl

theorem parse_eq {text : List Char} (h : text ≠ []) : parse text = some (value text).1 :=
  if_neg h

/-- Where a member of an object comes from: some place of the text, read as a string, and
the value that is read after it. -/
theorem mem_members {s : List Char} {p : List Char × JsonValue} (h : p ∈ (members s).1) :
    ∃ t, t <:+ s ∧ p = ((scan t).1, (value (colon (ws (scan t).2))).1) := by
  have hkey : ∃ t, t <:+ s ∧ parseStrRaw (ws s) = scan t := by
    unfold parseStrRaw
    split
    next t ht => exact ⟨t, rest_suffix ht, rfl⟩
    next => exact ⟨ws s, ws_suffix s, rfl⟩
  have hval : (value (colon (ws (parseStrRaw (ws s)).2))).2 <:+ s :=
    (parseVal_suffix _ _).trans (key_suffix s)
  rw [members_eq] at h
  dsimp only at h
  split at h
  next t ht =>
    have hlt := rest_length ht
    have hle := hval.length_le
    rcases List.mem_cons.mp h with rfl | hrest
    · obtain ⟨t, hsub, heq⟩ := hkey
      exact ⟨t, hsub, by rw [heq]⟩
    · have hshort : t.length < s.length := Nat.lt_of_lt_of_le hlt hle
      obtain ⟨u, hsub, heq⟩ := mem_members hrest
      exact ⟨u, hsub.trans ((rest_suffix ht).trans hval), heq⟩
  all_goals
    obtain rfl := List.mem_singleton.mp h
    obtain ⟨t, hsub, heq⟩ := hkey
    exact ⟨t, hsub, by rw [heq]⟩
  termination_by s.length

end JsonValue

end Colibri
