import Colibri.Lib.Batch
import Colibri.Lib.Lines
import Colibri.Lib.Utf8
import Mathlib.Algebra.Order.Ring.Nat

/-!
# Reading a request

`read_request` takes an HTTP request off a connection: the request line, the header lines up to
a blank one, and as many bytes as `Content-Length` says. The connection delivers its bytes in
pieces, and the buffer for the body is made before anything of it is read.

What it returns does not depend on the pieces (`readHeaders_of_block`), and the body is what
the last `Content-Length` names of the bytes after the blank line. The one thing that goes wrong
is the length itself: a buffer that cannot be had takes the process down, and a length
of 2^64 or more does not parse and counts as none (`read_request_exact_iff`).

`Head` says of a stream what its request line and headers are, `Reservable` of a length that the
buffer can be had. The `..._unique` lemmas are why a delivery makes no difference: each reading
step finds the one beginning there is.
-/

namespace Colibri.Serve

open Batch Lines

/-! ## Text -/

/-- `char::is_whitespace` -/
def isWhitespace (c : Char) : Bool :=
  (9 ≤ c.toNat && c.toNat ≤ 13) || c.toNat == 0x20 || c.toNat == 0x85 || c.toNat == 0xA0
    || c.toNat == 0x1680 || (0x2000 ≤ c.toNat && c.toNat ≤ 0x200A) || c.toNat == 0x2028
    || c.toNat == 0x2029 || c.toNat == 0x202F || c.toNat == 0x205F || c.toNat == 0x3000

def trimStart (s : List Char) : List Char := s.dropWhile isWhitespace

def trimEnd (s : List Char) : List Char := (trimStart s.reverse).reverse

def trim (s : List Char) : List Char := trimEnd (trimStart s)

/-- `split_whitespace().next()`, with what is left to split. -/
def nextWord (s : List Char) : Option (List Char × List Char) :=
  match trimStart s with
  | [] => none
  | c :: t =>
    some ((c :: t).takeWhile (fun c => !isWhitespace c),
      (c :: t).dropWhile (fun c => !isWhitespace c))

def splitOnce (d : Char) : List Char → Option (List Char × List Char)
  | [] => none
  | c :: s => if c = d then some ([], s) else (splitOnce d s).map fun p => (c :: p.1, p.2)

/-- The number a text stands for, of any size: decimal digits, with or without a plus. -/
def number (s : List Char) : Option Nat :=
  let digits := match s with
    | '+' :: t => t
    | t => t
  if digits = [] then none
  else if digits.all Char.isDigit then
    some (digits.foldl (fun n d => n * 10 + (d.toNat - '0'.toNat)) 0)
  else none

/-- `str::parse::<usize>` -/
def parseUsize (s : List Char) : Option Nat := (number s).filter (· < 2 ^ 64)

/-- `String::from_utf8` -/
def fromUtf8 (bs : List UInt8) : Option (List Char) :=
  if Utf8.encode (Utf8.lossy bs) = bs then some (Utf8.lossy bs) else none

/-! ## The source -/

/-- A connection: what its reads return, and whether the one after the last fails. A read that
returns nothing is the end. -/
structure Connection where
  reads : List (List UInt8)
  fails : Bool
  filled : ∀ bs ∈ reads, bs ≠ []

/-- Everything the client sends. -/
def Connection.bytes (conn : Connection) : List UInt8 := conn.reads.flatten

/-- `Request` -/
structure Request where
  method : List Char
  path : List Char
  body : List Char
  deriving DecidableEq

/-- `read_line`: a line that is not UTF-8 is an error. -/
def readLine (fails : Bool) (cs : List (List UInt8)) :
    Option (List Char × List (List UInt8)) :=
  match readUntil fails 0x0A cs with
  | none => none
  | some (l, cs) => (fromUtf8 l).map fun h => (h, cs)

/-- The value of a `Content-Length` line. -/
def lengthField (t : List Char) : Option (List Char) :=
  match splitOnce ':' t with
  | none => none
  | some (k, v) =>
    if (trim k).map Char.toLower = "content-length".toList then some (trim v) else none

/-- What a header line makes of `content_length`. -/
def contentLength (n : Nat) (t : List Char) : Nat :=
  match lengthField t with
  | none => n
  | some v => (parseUsize v).getD 0

/-- The header loop, for so many turns: `content_length` and what is left of the stream. -/
def readHeaders (fails : Bool) :
    Nat → List (List UInt8) → Nat → Outcome Unit (Option (Nat × List (List UInt8)))
  | 0, _, _ => .error ()
  | turns + 1, cs, n =>
    match readLine fails cs with
    | none => .ok none
    | some (h, cs) =>
      if h = [] then .ok (some (n, cs))
      else if trimEnd h = [] then .ok (some (n, cs))
      else readHeaders fails turns cs (contentLength n (trimEnd h))

/-- `vec![0u8; n]`, of which only the size matters here. More than `isize::MAX` panics, and where
`alloc` refuses the process is aborted; none of this for an empty vector. -/
def reserve (alloc : Nat → Bool) (n : Nat) : Outcome Unit Unit :=
  if n = 0 then .ok ()
  else if 2 ^ 63 ≤ n then .panic
  else if alloc n then .ok ()
  else .panic

/-- The body, after `content_length` is known. -/
def readBody (alloc : Nat → Bool) (method path : List Char) (n : Nat) (cs : List (List UInt8)) :
    Outcome Unit (Option Request) :=
  (reserve alloc n).bind fun _ =>
    if 0 < n then .ok ((readExact n cs).map fun body => ⟨method, path, Utf8.lossy body⟩)
    else .ok (some ⟨method, path, Utf8.lossy []⟩)

def readRequest (alloc : Nat → Bool) (conn : Connection) : Outcome Unit (Option Request) :=
  match readLine conn.fails conn.reads with
  | none => .ok none
  | some (line, cs) =>
    if line = [] then .ok none
    else
      match nextWord line with
      | none => .ok none
      | some (method, line) =>
        match nextWord line with
        | none => .ok none
        | some (path, _) =>
          (readHeaders conn.fails (cs.flatten.length + 1) cs 0).bind fun r =>
            match r with
            | none => .ok none
            | some (n, cs) => readBody alloc method path n cs

/-! ## What a request is -/

/-- `h` is the next line of `bs`, and `rest` comes after it. -/
def TextLine (fails : Bool) (bs : List UInt8) (h : List Char) (rest : List UInt8) : Prop :=
  IsLine fails 0x0A bs (Utf8.encode h) rest

/-- The header lines of `bs` up to a blank one or the end, and what comes after that. -/
inductive Block (fails : Bool) : List UInt8 → List (List Char) → List UInt8 → Prop
  | blank {bs rest h} : TextLine fails bs h rest → trimEnd h = [] → Block fails bs [] rest
  | line {bs rest h hs after} : TextLine fails bs h rest → trimEnd h ≠ [] →
      Block fails rest hs after → Block fails bs (h :: hs) after

/-- What the headers declare the length to be: the number in the last `Content-Length`. Without
one, or with something else there, nothing follows. -/
def declared (hs : List (List Char)) : Nat :=
  ((hs.filterMap fun h => lengthField (trimEnd h)).getLast?.bind number).getD 0

/-- The head of a request: its first line names `method` and `path`, its headers are `hs`, and
`after` is what the client sends after the blank line. -/
structure Head (conn : Connection) (method path : List Char) (hs : List (List Char))
    (after : List UInt8) : Prop where
  words : ∃ line rest more tail, TextLine conn.fails conn.bytes line rest ∧
    nextWord line = some (method, more) ∧ nextWord more = some (path, tail) ∧
    Block conn.fails rest hs after

/-- It returns, and what it returns is a request with the declared bytes for its body. -/
def ReadsExactly (alloc : Nat → Bool) (conn : Connection) : Prop :=
  ∃ r, readRequest alloc conn = .ok r ∧ ∀ req, r = some req →
    ∃ hs after, Head conn req.method req.path hs after ∧ declared hs ≤ after.length ∧
      req.body = Utf8.lossy (after.take (declared hs))

/-- There is a buffer of `n` bytes. -/
def Reservable (alloc : Nat → Bool) (n : Nat) : Prop := n = 0 ∨ n < 2 ^ 63 ∧ alloc n = true

/-! ## Lines -/

theorem fromUtf8_iff {l : List UInt8} {h : List Char} :
    fromUtf8 l = some h ↔ l = Utf8.encode h := by
  unfold fromUtf8
  constructor
  · intro hsome
    split at hsome
    next heq =>
      cases hsome
      exact heq.symm
    next => cases hsome
  · rintro rfl
    rw [Utf8.lossy_encode, if_pos rfl]

theorem encode_inj {h h' : List Char} (heq : Utf8.encode h = Utf8.encode h') : h = h' := by
  rw [← Utf8.lossy_encode h, heq, Utf8.lossy_encode]

theorem TextLine.unique {fails : Bool} {bs rest rest' : List UInt8} {h h' : List Char}
    (hline : TextLine fails bs h rest) (hline' : TextLine fails bs h' rest') :
    h = h' ∧ rest = rest' := by
  obtain ⟨henc, hrest⟩ := IsLine.unique hline hline'
  exact ⟨encode_inj henc, hrest⟩

/-- A line that is not empty takes something off the stream. -/
theorem TextLine.shorter {fails : Bool} {bs rest : List UInt8} {h : List Char}
    (hline : TextLine fails bs h rest) (hne : h ≠ []) : rest.length < bs.length := by
  have hbytes : Utf8.encode h ≠ [] := by
    intro hnil
    exact hne (encode_inj hnil)
  have hpos := List.length_pos_iff.mpr hbytes
  rw [IsLine.split hline, List.length_append]
  omega

theorem readLine_some {fails : Bool} {cs cs' : List (List UInt8)} {h : List Char}
    (hread : readLine fails cs = some (h, cs')) : TextLine fails cs.flatten h cs'.flatten := by
  unfold readLine at hread
  split at hread
  next => cases hread
  next l rest hl =>
    obtain ⟨h', hdecode, heq⟩ := Option.map_eq_some_iff.mp hread
    cases heq
    have hline := readUntil_isLine hl
    rwa [fromUtf8_iff.mp hdecode] at hline

theorem readLine_of_line {fails : Bool} {cs : List (List UInt8)} {h : List Char}
    {rest : List UInt8} (hline : TextLine fails cs.flatten h rest) :
    ∃ cs', readLine fails cs = some (h, cs') ∧ cs'.flatten = rest := by
  obtain ⟨cs', hread, hrest⟩ := readUntil_iff.mpr hline
  refine ⟨cs', ?_, hrest⟩
  rw [readLine, hread]
  simp only [fromUtf8_iff.mpr rfl, Option.map_some]

/-! ## The header loop -/

theorem Block.unique {fails : Bool} {bs after after' : List UInt8} {hs hs' : List (List Char)}
    (hblock : Block fails bs hs after) (hblock' : Block fails bs hs' after') :
    hs = hs' ∧ after = after' := by
  induction hblock generalizing hs' with
  | blank hline hempty =>
    cases hblock' with
    | blank hline' _ => exact ⟨rfl, (hline.unique hline').2⟩
    | line hline' hne _ =>
      rw [(hline.unique hline').1] at hempty
      exact absurd hempty hne
  | line hline hne _ ih =>
    cases hblock' with
    | blank hline' hempty =>
      rw [(hline.unique hline').1] at hne
      exact absurd hempty hne
    | line hline' _ hrest =>
      obtain ⟨rfl, rfl⟩ := hline.unique hline'
      obtain ⟨rfl, rfl⟩ := ih hrest
      exact ⟨rfl, rfl⟩

/-- `content_length` after the header lines `hs`. -/
def lengthAfter (n : Nat) (hs : List (List Char)) : Nat :=
  hs.foldl (fun n h => contentLength n (trimEnd h)) n

theorem ne_nil_of_trimEnd {h : List Char} (hne : trimEnd h ≠ []) : h ≠ [] := by
  rintro rfl
  exact hne rfl

/-- The loop reads the header block, wherever the stream is cut. -/
theorem readHeaders_of_block {fails : Bool} {bs after : List UInt8} {hs : List (List Char)}
    (hblock : Block fails bs hs after) {turns n : Nat} {cs : List (List UInt8)}
    (hbytes : cs.flatten = bs) (hturns : bs.length < turns) :
    ∃ cs', readHeaders fails turns cs n = .ok (some (lengthAfter n hs, cs')) ∧
      cs'.flatten = after := by
  induction hblock generalizing turns n cs with
  | blank hline hempty =>
    obtain ⟨turns, rfl⟩ := Nat.exists_eq_succ_of_ne_zero (Nat.ne_zero_of_lt hturns)
    obtain ⟨cs', hread, hrest⟩ := readLine_of_line (hbytes ▸ hline)
    refine ⟨cs', ?_, hrest⟩
    simp only [readHeaders, hread, hempty, if_true, ite_self]
    rfl
  | line hline hne _ ih =>
    obtain ⟨turns, rfl⟩ := Nat.exists_eq_succ_of_ne_zero (Nat.ne_zero_of_lt hturns)
    obtain ⟨cs', hread, hrest⟩ := readLine_of_line (hbytes ▸ hline)
    have hshort := hline.shorter (ne_nil_of_trimEnd hne)
    obtain ⟨cs'', hloop, hafter⟩ := @ih turns (contentLength n (trimEnd _)) _ hrest (by omega)
    refine ⟨cs'', ?_, hafter⟩
    simp only [readHeaders, hread, if_neg (ne_nil_of_trimEnd hne), if_neg hne]
    exact hloop

/-- The loop ends, and what it has read is a header block. -/
theorem readHeaders_cases (fails : Bool) {turns n : Nat} {cs : List (List UInt8)}
    (hturns : cs.flatten.length < turns) : readHeaders fails turns cs n = .ok none ∨
      ∃ hs cs', Block fails cs.flatten hs cs'.flatten ∧
        readHeaders fails turns cs n = .ok (some (lengthAfter n hs, cs')) := by
  induction turns generalizing n cs with
  | zero => omega
  | succ turns ih =>
    rw [readHeaders]
    split
    next => exact Or.inl rfl
    next h cs' hread =>
      have hline := readLine_some hread
      split
      next hnil =>
        subst hnil
        exact Or.inr ⟨[], cs', .blank hline rfl, rfl⟩
      next hne =>
        split
        next hempty => exact Or.inr ⟨[], cs', .blank hline hempty, rfl⟩
        next htext =>
          have hshort := hline.shorter hne
          rcases @ih (contentLength n (trimEnd h)) cs' (by omega) with hnone | hsome
          · exact Or.inl hnone
          · obtain ⟨hs, cs'', hblock, hloop⟩ := hsome
            exact Or.inr ⟨h :: hs, cs'', .line hline htext hblock, hloop⟩

/-- Of many replacements the last one counts. -/
theorem foldl_last {α β : Type} (f : β → α) (l : List β) (a : α) :
    l.foldl (fun _ v => f v) a = (l.getLast?.map f).getD a := by
  induction l generalizing a with
  | nil => rfl
  | cons b l ih =>
    rw [List.foldl_cons, ih]
    cases l with
    | nil => rfl
    | cons c l =>
      rw [List.getLast?_cons_cons]
      cases hlast : (c :: l).getLast? with
      | none => simp at hlast
      | some v => rfl

/-- The last length that parses, or none at all. -/
theorem lengthAfter_zero (hs : List (List Char)) :
    lengthAfter 0 hs = if declared hs < 2 ^ 64 then declared hs else 0 := by
  have hfold : lengthAfter 0 hs = (hs.filterMap fun h => lengthField (trimEnd h)).foldl
      (fun _ v => (parseUsize v).getD 0) 0 := by
    rw [lengthAfter, List.foldl_filterMap]
    congr 1
    funext n h
    unfold contentLength
    cases lengthField (trimEnd h) <;> rfl
  rw [hfold, foldl_last, declared]
  cases (hs.filterMap fun h => lengthField (trimEnd h)).getLast? with
  | none => simp
  | some v =>
    simp only [Option.map_some, Option.getD_some, Option.bind_some, parseUsize]
    cases number v with
    | none => simp
    | some k =>
      rw [Option.filter_some]
      simp only [Option.getD_some, decide_eq_true_eq]
      split <;> rfl

/-! ## The request -/

theorem Head.unique {conn : Connection} {method path : List Char} {hs : List (List Char)}
    {after : List UInt8} {method' path' : List Char} {hs' : List (List Char)}
    {after' : List UInt8} (h : Head conn method path hs after)
    (h' : Head conn method' path' hs' after') : hs = hs' ∧ after = after' := by
  obtain ⟨line, rest, more, tail, hline, -, -, hblock⟩ := h.words
  obtain ⟨line', rest', more', tail', hline', -, -, hblock'⟩ := h'.words
  obtain ⟨rfl, rfl⟩ := hline.unique hline'
  exact hblock.unique hblock'

/-- What `content_length` comes to. -/
def parsed (hs : List (List Char)) : Nat := if declared hs < 2 ^ 64 then declared hs else 0

/-- With a head, what is left to read is the body. -/
theorem readRequest_of_head (alloc : Nat → Bool) {conn : Connection} {method path : List Char}
    {hs : List (List Char)} {after : List UInt8} (h : Head conn method path hs after) :
    ∃ cs, readRequest alloc conn = readBody alloc method path (parsed hs) cs ∧
      cs.flatten = after := by
  obtain ⟨line, rest, more, tail, hline, hmethod, hpath, hblock⟩ := h.words
  obtain ⟨cs, hread, hrest⟩ := readLine_of_line hline
  have hne : line ≠ [] := by
    rintro rfl
    cases hmethod
  obtain ⟨cs', hloop, hafter⟩ := @readHeaders_of_block _ _ _ _ hblock
    (cs.flatten.length + 1) 0 cs hrest (by rw [hrest]; omega)
  refine ⟨cs', ?_, hafter⟩
  simp only [readRequest, hread, if_neg hne, hmethod, hpath, hloop, Outcome.bind]
  rw [lengthAfter_zero]
  rfl

/-- It returns nothing, or there is a head. -/
theorem readRequest_cases (alloc : Nat → Bool) (conn : Connection) :
    readRequest alloc conn = .ok none ∨
      ∃ method path hs after, Head conn method path hs after := by
  rw [readRequest]
  split
  next => exact Or.inl rfl
  next line cs hread =>
    split
    next => exact Or.inl rfl
    next hne =>
      split
      next => exact Or.inl rfl
      next method more hmethod =>
        split
        next => exact Or.inl rfl
        next path tail hpath =>
          rcases readHeaders_cases conn.fails (Nat.lt_succ_self cs.flatten.length)
            with hnone | ⟨hs, cs', hblock, -⟩
          · rw [hnone]
            exact Or.inl rfl
          · exact Or.inr ⟨method, path, hs, cs'.flatten,
              ⟨line, cs.flatten, more, tail, readLine_some hread, hmethod, hpath, hblock⟩⟩

theorem reserve_ok {alloc : Nat → Bool} {n : Nat} (h : Reservable alloc n) :
    reserve alloc n = .ok () := by
  unfold reserve
  rcases h with hzero | ⟨hlt, halloc⟩
  · rw [if_pos hzero]
  · split
    next => rfl
    next => rw [if_neg (Nat.not_le.mpr hlt)]

theorem reserve_panic {alloc : Nat → Bool} {n : Nat} (h : ¬ Reservable alloc n) :
    reserve alloc n = .panic := by
  unfold reserve
  split
  next hzero => exact absurd (Or.inl hzero) h
  next =>
    split
    next => rfl
    next hlt =>
      split
      next halloc => exact absurd (Or.inr ⟨Nat.lt_of_not_le hlt, halloc⟩) h
      next => rfl

/-- A buffer that can be had is filled with the next `n` bytes, or there is no request. -/
theorem readBody_ok {alloc : Nat → Bool} {n : Nat} (h : Reservable alloc n)
    (method path : List Char) (cs : List (List UInt8)) :
    readBody alloc method path n cs =
      .ok (if n ≤ cs.flatten.length then
        some ⟨method, path, Utf8.lossy (cs.flatten.take n)⟩ else none) := by
  rw [readBody, reserve_ok h]
  simp only [Outcome.bind]
  cases n with
  | zero => rfl
  | succ n =>
    rw [if_pos (Nat.succ_pos n), readExact_eq]
    split <;> rfl

theorem lossy_eq_nil {bs : List UInt8} (h : Utf8.lossy bs = []) : bs = [] := by
  have hsegs : Utf8.segments bs = [] := List.map_eq_nil_iff.mp h
  rw [← Utf8.segments_bytes bs, hsegs]
  rfl

/-- **When the body is what the client declared**: exactly when there is a buffer for every
declared length. -/
theorem read_request_exact_iff (alloc : Nat → Bool) (conn : Connection) :
    ReadsExactly alloc conn ↔ ∀ method path hs after, Head conn method path hs after →
      Reservable alloc (declared hs) := by
  constructor
  · rintro ⟨r, hr, hexact⟩ method path hs after head
    obtain ⟨cs, hbody, hafter⟩ := readRequest_of_head alloc head
    by_contra hnot
    have hpos : declared hs ≠ 0 := fun hzero => hnot (Or.inl hzero)
    by_cases hfits : declared hs < 2 ^ 64
    · -- it parses, and the buffer takes the process down
      rw [parsed, if_pos hfits, readBody, reserve_panic hnot] at hbody
      rw [hbody] at hr
      cases hr
    · -- it does not parse, and nothing is read
      rw [parsed, if_neg hfits] at hbody
      have hsome : r = some ⟨method, path, Utf8.lossy []⟩ := by
        rw [hbody] at hr
        cases hr
        rfl
      obtain ⟨hs', after', head', hlen, htake⟩ := hexact _ hsome
      obtain ⟨rfl, rfl⟩ := head.unique head'
      have hnil := lossy_eq_nil htake.symm
      rcases List.take_eq_nil_iff.mp hnil with hzero | hempty
      · exact hpos hzero
      · rw [hempty] at hlen
        simp at hlen
        exact hpos hlen
  · intro hall
    rcases readRequest_cases alloc conn with hnone | ⟨method, path, hs, after, head⟩
    · refine ⟨none, hnone, ?_⟩
      intro req hreq
      cases hreq
    · obtain ⟨cs, hbody, rfl⟩ := readRequest_of_head alloc head
      have hres := hall _ _ _ _ head
      have hfits : declared hs < 2 ^ 64 := by
        rcases hres with hzero | ⟨hlt, -⟩
        · rw [hzero]
          decide
        · omega
      rw [parsed, if_pos hfits, readBody_ok hres] at hbody
      refine ⟨_, hbody, ?_⟩
      intro req hreq
      split at hreq
      next hlen =>
        cases hreq
        exact ⟨hs, cs.flatten, head, hlen, rfl⟩
      next => cases hreq

/-- A client that sends one piece. -/
def oneRead (text : List Char) (h : Utf8.encode text ≠ []) : Connection where
  reads := [Utf8.encode text]
  fails := false
  filled := by
    intro bs hbs
    rwa [List.mem_singleton.mp hbs]

def hugeLength : Connection :=
  oneRead "POST / HTTP/1.1\r\nContent-Length: 9223372036854775808\r\n\r\n".toList (by decide)

/-- A length of 2^63 panics before anything of the body is read, however much memory there is. -/
theorem read_request_huge :
    readRequest (fun _ => true) hugeLength = .panic ∧
      ¬ ReadsExactly (fun _ => true) hugeLength := by
  have hpanic : readRequest (fun _ => true) hugeLength = .panic := by decide
  refine ⟨hpanic, ?_⟩
  rintro ⟨r, hr, -⟩
  rw [hpanic] at hr
  cases hr

end Colibri.Serve
