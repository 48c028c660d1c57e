import Colibri.Json.Parse
import Colibri.Safetensors.Spans
import Mathlib.Data.List.TakeWhile

/-!
# The header of a shard file, written and read

Three writers put the same header together by formatting: for each tensor its name, type,
shape and place in the data, the name between quotes as it is. The reader is a JSON
parser. For a name without a quote or a backslash the two agree (`value_header`): what
comes out has the name, and numbers that go through an `f64` on the way.

`scan_plain_append` is a plain name between quotes, `value_intText` a number, and `value_shapeText`
a shape. The lemmas on `members` are the three places an entry can have: before others, alone, and
last.
-/

namespace Colibri.Safetensors

open JsonValue

/-! ## Writing -/

/-- `DType::parse` -/
def DType.parse (s : List Char) : Option DType :=
  if s = "BF16".toList then some .bf16
  else if s = "F16".toList then some .f16
  else if s = "F32".toList then some .f32
  else if s = "U8".toList ∨ s = "I8".toList ∨ s = "F8_E8M0".toList then some .u8
  else if s = "F8_E4M3".toList ∨ s = "F8_E4M3FN".toList then some .f8e4m3
  else if s = "F8_E5M2".toList then some .f8e5m2
  else if s = "I64".toList then some .i64
  else none

/-- `safetensors_str` -/
def DType.str : DType → List Char
  | .bf16 => "BF16".toList
  | .f16 => "F16".toList
  | .f32 => "F32".toList
  | .u8 => "U8".toList
  | .f8e4m3 => "F8_E4M3".toList
  | .f8e5m2 => "F8_E5M2".toList
  | .i64 => "I64".toList

/-- A tensor as it is written: `OutTensor`, or a tensor of an opened set with its bytes. -/
structure Entry where
  name : List Char
  dtype : DType
  shape : List Int
  bytes : List UInt8
  deriving DecidableEq

/-- `to_string` -/
def intText : Int → List Char
  | .ofNat n => Nat.toDigits 10 n
  | .negSucc n => '-' :: Nat.toDigits 10 (n + 1)

/-- `shape.join(",")` -/
def shapeText : List Int → List Char
  | [] => []
  | [d] => intText d
  | d :: ds => intText d ++ ',' :: shapeText ds

/-- `{"dtype":"…","shape":[…],"data_offsets":[…,…]}`; `rel` is where the bytes begin in the
data. -/
def metaText (rel : Nat) (e : Entry) : List Char :=
  '{' :: '"' :: ("dtype".toList ++ '"' :: ':' :: '"' :: (e.dtype.str ++ '"' :: ',' :: '"' ::
    ("shape".toList ++ '"' :: ':' :: '[' :: (shapeText e.shape ++ ']' :: ',' :: '"' ::
      ("data_offsets".toList ++ '"' :: ':' :: '[' :: (intText rel ++ ',' ::
        (intText (wadd rel e.bytes.length) ++ [']', '}'])))))))

def entryText (rel : Nat) (e : Entry) : List Char :=
  '"' :: (e.name ++ '"' :: ':' :: metaText rel e)

/-- The loop over the entries, and the brace that ends the header. -/
def headerFrom (first : Bool) (rel : Nat) : List Entry → List Char
  | [] => ['}']
  | e :: es => (if first then [] else [',']) ++
      (entryText rel e ++ headerFrom false (wadd rel e.bytes.length) es)

def header (es : List Entry) : List Char := '{' :: headerFrom true 0 es

/-! ## Reading what is plain -/

/-- A name that is written as it is read: without a quote or a backslash. -/
def Plain (name : List Char) : Prop := '"' ∉ name ∧ '\\' ∉ name

instance (name : List Char) : Decidable (Plain name) := inferInstanceAs (Decidable (_ ∧ _))

theorem scan_plain_append {name : List Char} (h : Plain name) (s : List Char) :
    scan (name ++ '"' :: s) = (name, s) := by
  induction name with
  | nil => exact scan_quote s
  | cons c name ih =>
    obtain ⟨hquote, hback⟩ := h
    obtain ⟨hc, hquote⟩ := not_or.mp (List.mem_cons.not.mp hquote)
    obtain ⟨hc', hback⟩ := not_or.mp (List.mem_cons.not.mp hback)
    rw [List.cons_append, scan_plain (fun h => hc h.symm) (fun h => hc' h.symm),
      ih ⟨hquote, hback⟩]

theorem value_plain {text : List Char} (h : Plain text) (s : List Char) :
    value ('"' :: (text ++ '"' :: s)) = (.str text, s) := by
  rw [value_str (ws_cons rfl _), scan_plain_append h]

variable {key s t : List Char} {v : JsonValue} {c : Char}

/-- A member, from its key and its value, and what the object goes on with. -/
theorem members_key {raw : List Char}
    (hkey : scan raw = (key, ':' :: s)) (hval : value s = (v, t)) : members ('"' :: raw) =
    match ws t with
    | ',' :: t => ((key, v) :: (members t).1, (members t).2)
    | '}' :: t => ([(key, v)], t)
    | t => ([(key, v)], t) := by
  have hraw : parseStrRaw (ws ('"' :: raw)) = (key, ':' :: s) := by
    rw [ws_cons rfl]
    exact hkey
  have hcolon : colon (ws (':' :: s)) = s := by
    rw [ws_cons rfl]
    rfl
  rw [members_eq, hraw]
  dsimp only
  rewrite [hcolon, hval]
  rfl

theorem members_more (h : Plain key)
    (hval : value s = (v, ',' :: t)) : members ('"' :: (key ++ '"' :: ':' :: s))
      = ((key, v) :: (members t).1, (members t).2) := by
  simp only [members_key (scan_plain_append h _) hval, ws_cons (show isWs ',' = false from rfl)]

theorem members_one {raw : List Char}
    (hkey : scan raw = (key, ':' :: s)) (hval : value s = (v, '}' :: t)) :
    members ('"' :: raw) = ([(key, v)], t) := by
  simp only [members_key hkey hval, ws_cons (show isWs '}' = false from rfl)]

theorem members_last (h : Plain key)
    (hval : value s = (v, '}' :: t)) :
    members ('"' :: (key ++ '"' :: ':' :: s)) = ([(key, v)], t) :=
  members_one (scan_plain_append h _) hval

/-! ## Reading numbers -/

theorem mantissa_digits {digits : List Char} (h : ∀ c ∈ digits, c.isDigit) (hne : digits ≠ []) :
    mantissa digits = some (Nat.ofDigitChars 10 digits 0, 0) := by
  have hall : ∀ c ∈ digits, decide (c ≠ '.') = true := fun c hc => by
    refine decide_eq_true fun hdot => ?_
    have hdigit := h c hc
    rw [hdot] at hdigit
    cases hdigit
  unfold mantissa
  rw [List.takeWhile_eq_self_iff.mpr hall, List.dropWhile_eq_nil_iff.mpr hall]
  simp [hne]

/-- What a number of a header is followed by. -/
def Ends (c : Char) : Prop := c = ',' ∨ c = ']'

theorem parseNum_digits {digits : List Char} (h : ∀ c ∈ digits, c.isDigit) (hne : digits ≠ [])
    (hc : Ends c) (s : List Char) {neg : Bool}
    (hsign : takeSign t = (neg, digits ++ c :: s)) :
    parseNum t = (⟨neg, Nat.ofDigitChars 10 digits 0, 0⟩, c :: s) := by
  have hstop : isDigitOrDot c = false := by rcases hc with rfl | rfl <;> rfl
  have hexp : ¬ (c = 'e' ∨ c = 'E') := by rcases hc with rfl | rfl <;> decide
  have hall : ∀ c ∈ digits, isDigitOrDot c = true := fun c hc => by
    unfold isDigitOrDot
    rw [h c hc]
    rfl
  obtain ⟨htake, hdrop⟩ := takeWhile_append_stop hall hstop s
  unfold parseNum
  rw [hsign]
  dsimp only
  rw [htake, hdrop, mantissa_digits h hne]
  dsimp only
  rw [if_neg hexp]
  rfl

theorem digits_isDigit (n : Nat) : ∀ c ∈ Nat.toDigits 10 n, c.isDigit :=
  fun _ hc => Nat.isDigit_of_mem_toDigits (by decide) (by decide) hc

theorem takeSign_digit (h : c.isDigit) (s : List Char) :
    takeSign (c :: s) = (false, c :: s) := by
  unfold takeSign
  split
  next heq =>
    obtain ⟨rfl, -⟩ := List.cons.inj heq
    cases h
  next heq =>
    obtain ⟨rfl, -⟩ := List.cons.inj heq
    cases h
  next => rfl

theorem takeSign_digits (n : Nat) (s : List Char) :
    takeSign (Nat.toDigits 10 n ++ s) = (false, Nat.toDigits 10 n ++ s) := by
  obtain ⟨c, digits, hdigits⟩ := List.exists_cons_of_ne_nil (Nat.toDigits_ne_nil (n := n) (b := 10))
  have hc := digits_isDigit n c (hdigits ▸ List.mem_cons_self)
  rw [hdigits]
  exact takeSign_digit hc _

/-- **A number is read as it was written**, up to what an `f64` holds of it. -/
theorem parseNum_intText (i : Int) (hc : Ends c) (s : List Char) :
    parseNum (intText i ++ c :: s) = (Decimal.ofInt i, c :: s) := by
  cases i with
  | ofNat n =>
    rw [intText, parseNum_digits (digits_isDigit n) Nat.toDigits_ne_nil hc s
      (takeSign_digits n _), Nat.ofDigitChars_ten_toDigits]
    have hpos : decide (Int.ofNat n < 0) = false :=
      decide_eq_false (Int.not_lt.mpr (Int.natCast_nonneg n))
    rw [Decimal.ofInt, hpos]
    rfl
  | negSucc n =>
    rw [intText, parseNum_digits (digits_isDigit (n + 1)) Nat.toDigits_ne_nil hc s rfl,
      Nat.ofDigitChars_ten_toDigits]
    have hneg : decide (Int.negSucc n < 0) = true := decide_eq_true (Int.negSucc_lt_zero n)
    rw [Decimal.ofInt, hneg]
    rfl

theorem intText_head (i : Int) : ∃ c t, intText i = c :: t ∧ (c.isDigit ∨ c = '-') := by
  cases i with
  | ofNat n =>
    obtain ⟨c, t, hdigits⟩ := List.exists_cons_of_ne_nil
      (Nat.toDigits_ne_nil (n := n) (b := 10))
    exact ⟨c, t, hdigits, .inl (digits_isDigit n c (hdigits ▸ List.mem_cons_self))⟩
  | negSucc n => exact ⟨'-', _, rfl, .inr rfl⟩

/-- A digit begins a number, and nothing else. -/
theorem not_marks (h : c.isDigit ∨ c = '-') : ¬ Marks c ∧ isWs c = false := by
  rcases h with hdigit | rfl
  · refine ⟨?_, ?_⟩
    · rintro (rfl | rfl | rfl | rfl | rfl | rfl) <;> cases hdigit
    · by_contra hws
      unfold isWs at hws
      simp only [Bool.not_eq_false, Bool.or_eq_true, decide_eq_true_eq] at hws
      rcases hws with (((rfl | rfl) | rfl) | rfl) | rfl <;> cases hdigit
  · exact ⟨by unfold Marks; decide, rfl⟩

/-- **A number** is read as it is written. -/
theorem value_intText (i : Int) (hc : Ends c) (s : List Char) :
    value (intText i ++ c :: s) = (.num (Decimal.ofInt i), c :: s) := by
  obtain ⟨d, t, htext, hd⟩ := intText_head i
  obtain ⟨hmark, hws⟩ := not_marks hd
  have hnum := parseNum_intText i hc s
  rw [htext, List.cons_append] at hnum ⊢
  rw [value_num (ws_cons hws _) hmark, hnum]

/-- The dimensions, up to the bracket that ends them. -/
theorem elements_shapeText {ds : List Int} (hne : ds ≠ []) (s : List Char) :
    elements (shapeText ds ++ ']' :: s) = (ds.map fun d => .num (.ofInt d), s) := by
  induction ds with
  | nil => exact absurd rfl hne
  | cons d ds ih =>
    cases ds with
    | nil =>
      rw [shapeText, elements_eq, value_intText d (.inr rfl)]
      simp only [ws_cons (show isWs ']' = false from rfl)]
      rfl
    | cons d' ds =>
      have hhead : shapeText (d :: d' :: ds) ++ ']' :: s
          = intText d ++ ',' :: (shapeText (d' :: ds) ++ ']' :: s) := by
        rw [shapeText, List.append_assoc, List.cons_append]
        exact List.cons_ne_nil _ _
      rw [hhead, elements_eq, value_intText d (.inl rfl)]
      simp only [ws_cons (show isWs ',' = false from rfl), ih (List.cons_ne_nil _ _)]
      rfl

theorem shapeText_head (d : Int) (ds : List Int) :
    ∃ c t, shapeText (d :: ds) = c :: t ∧ (c.isDigit ∨ c = '-') := by
  obtain ⟨c, t, htext, hc⟩ := intText_head d
  cases ds with
  | nil => exact ⟨c, t, htext, hc⟩
  | cons d' ds =>
    refine ⟨c, t ++ ',' :: shapeText (d' :: ds), ?_, hc⟩
    rw [shapeText, htext]
    · rfl
    · exact List.cons_ne_nil _ _

/-- **A shape** is read as it is written. -/
theorem value_shapeText (ds : List Int) (s : List Char) :
    value ('[' :: (shapeText ds ++ ']' :: s)) = (.arr (ds.map fun d => .num (.ofInt d)), s) := by
  cases ds with
  | nil => exact value_arr_nil (ws_cons rfl _) (ws_cons rfl _)
  | cons d ds =>
    obtain ⟨c, t, htext, hc⟩ := shapeText_head d ds
    have hws : ws (shapeText (d :: ds) ++ ']' :: s) = shapeText (d :: ds) ++ ']' :: s := by
      rw [htext]
      exact ws_cons (not_marks hc).2 _
    rw [value_arr (ws_cons rfl _) ?_, hws, elements_shapeText (List.cons_ne_nil d ds)]
    intro u hu
    rw [hws, htext] at hu
    obtain ⟨rfl, -⟩ := List.cons.inj hu
    rcases hc with hdigit | hminus
    · cases hdigit
    · cases hminus

/-! ## The header -/

theorem plain_str (d : DType) : Plain d.str ∧ DType.parse d.str = some d := by
  cases d <;> exact ⟨by decide, by decide⟩

/-- What the reader has of an entry, its name apart. -/
def metaOf (rel : Nat) (e : Entry) : JsonValue :=
  .obj [("dtype".toList, .str e.dtype.str),
    ("shape".toList, .arr (e.shape.map fun d => .num (.ofInt d))),
    ("data_offsets".toList, .arr [.num (.ofInt rel), .num (.ofInt (wadd rel e.bytes.length))])]

def pairsFrom (rel : Nat) : List Entry → List (List Char × JsonValue)
  | [] => []
  | e :: es => (e.name, metaOf rel e) :: pairsFrom (wadd rel e.bytes.length) es

/-- **A place in the data** is read as it is written. -/
theorem value_offsets (a b : Nat) (s : List Char) :
    value ('[' :: (intText a ++ ',' :: (intText b ++ ']' :: s)))
      = (.arr [.num (.ofInt a), .num (.ofInt b)], s) := by
  have h := value_shapeText [(a : Int), b] s
  rw [shapeText, List.append_assoc] at h
  · exact h
  · exact List.cons_ne_nil _ _

/-- An object, from its members. -/
theorem value_members {pairs : List (List Char × JsonValue)}
    (h : members ('"' :: s) = (pairs, t)) :
    value ('{' :: '"' :: s) = (.obj (pairs.foldl push []), t) := by
  have hws : ws ('"' :: s) = '"' :: s := ws_cons rfl s
  rw [value_obj (ws_cons rfl _) (fun u hu => ?_), hws, h]
  rw [hws] at hu
  cases hu

/-- The entry behind its name. -/
theorem value_metaText (rel : Nat) (e : Entry) (s : List Char) :
    value (metaText rel e ++ s) = (metaOf rel e, s) := by
  have hoffsets := members_last (show Plain "data_offsets".toList by decide)
    (value_offsets rel (wadd rel e.bytes.length) ('}' :: s))
  have hshape := members_more (show Plain "shape".toList by decide) (value_shapeText e.shape
    (',' :: '"' :: ("data_offsets".toList ++ '"' :: ':' :: '[' :: (intText rel ++ ',' ::
      (intText (wadd rel e.bytes.length) ++ ']' :: '}' :: s)))))
  have hdtype := members_more (show Plain "dtype".toList by decide) (value_plain
    (plain_str e.dtype).1 (',' :: '"' :: ("shape".toList ++ '"' :: ':' :: '[' ::
      (shapeText e.shape ++ ']' :: ',' :: '"' :: ("data_offsets".toList ++ '"' :: ':' :: '[' ::
        (intText rel ++ ',' :: (intText (wadd rel e.bytes.length) ++ ']' :: '}' :: s)))))))
  rw [hshape, hoffsets] at hdtype
  have hcut : metaText rel e ++ s =
      '{' :: '"' :: ("dtype".toList ++ '"' :: ':' :: '"' :: (e.dtype.str ++ '"' :: ',' :: '"' ::
        ("shape".toList ++ '"' :: ':' :: '[' :: (shapeText e.shape ++ ']' :: ',' :: '"' ::
          ("data_offsets".toList ++ '"' :: ':' :: '[' :: (intText rel ++ ',' ::
            (intText (wadd rel e.bytes.length) ++ ']' :: '}' :: s))))))) := by
    simp only [metaText, List.append_assoc, List.cons_append, List.nil_append]
  rw [hcut, value_members hdtype]
  rfl

/-- **The header is read as what it was written from.** -/
theorem members_headerFrom {es : List Entry} (hplain : ∀ e ∈ es, Plain e.name) (hne : es ≠ [])
    (rel : Nat) : members (headerFrom true rel es) = (pairsFrom rel es, []) := by
  induction es generalizing rel with
  | nil => exact absurd rfl hne
  | cons e es ih =>
    have hval := value_metaText rel e (headerFrom false (wadd rel e.bytes.length) es)
    have hentry : headerFrom true rel (e :: es) = '"' :: (e.name ++ '"' :: ':' ::
        (metaText rel e ++ headerFrom false (wadd rel e.bytes.length) es)) := by
      rw [headerFrom, entryText]
      simp only [List.cons_append, List.append_assoc]
      rfl
    rw [hentry]
    cases es with
    | nil =>
      rw [members_last (hplain e List.mem_cons_self) hval]
      rfl
    | cons e' es =>
      have hrest := ih (fun x hx => hplain x (List.mem_cons_of_mem _ hx)) (List.cons_ne_nil _ _)
        (wadd rel e.bytes.length)
      rw [members_more (hplain e List.mem_cons_self) hval]
      exact congrArg (fun p : List _ × List Char => ((e.name, metaOf rel e) :: p.1, p.2)) hrest

/-- **A header of plain names** is read as its entries. -/
theorem value_header {es : List Entry} (hplain : ∀ e ∈ es, Plain e.name) :
    (value (header es)).1 = .obj ((pairsFrom 0 es).foldl push []) := by
  cases es with
  | nil =>
    rw [header, headerFrom, value_obj_nil (ws_cons rfl _) (ws_cons rfl _)]
    rfl
  | cons e es =>
    have h := members_headerFrom hplain (List.cons_ne_nil e es) 0
    rw [header]
    rw [headerFrom, if_pos rfl, List.nil_append, entryText] at h ⊢
    rw [List.cons_append] at h ⊢
    rw [value_members h]

end Colibri.Safetensors
