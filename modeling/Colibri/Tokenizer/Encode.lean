import Colibri.Tokenizer.FromJson

/-!
# Encoding

`encode` looks for the first added token in the rest of the text, cuts the free text in
front of it into pieces, and merges each piece's bytes, written as characters, into
tokens. Positions are byte positions in the whole text.

`findHit` is the search for an added token, `pretokChunk` a stretch of free text, and `bpePiece` a
piece: `symbols` are its characters, `bestPair` the scan for a pair to merge, and `fuse` the merge.
Loops are given as many turns as they can take. What they come to is in `Tokenizer.Merge`,
`Tokenizer.Specials` and `Tokenizer.RoundTrip`.
-/

namespace Colibri

open Tokenizer Rx

namespace LoadedTokenizer

variable (tok : LoadedTokenizer)

/-! ## One piece -/

def mergeKey (l r : Bytes) : Bytes := l ++ 0 :: r

def byte2str (b : UInt8) : Bytes := u8Put (byteCodePoint b)

/-- A byte string as the vocabulary has it. -/
def mapped (bs : Bytes) : Bytes := bs.flatMap byte2str

def vocabGet (s : Bytes) : Option Int := tok.vocab.lookup s

/-- `merges.get`, of a key: a merge is found by its key. -/
def mergesGet (key : Bytes) : Option Int :=
  (tok.merges.find? fun e => mergeKey e.1.1 e.1.2 == key).map Prod.snd

/-- The characters of a byte-level string. Each round reads at least one byte. -/
def symbolsFrom : Nat → Bytes → List Bytes
  | 0, _ => []
  | fuel + 1, s =>
    if s.isEmpty then []
    else s.take (u8Next s).2 :: symbolsFrom fuel (s.drop (u8Next s).2)

/-- The scan for the lowest rank: the best so far, and where it is. The symbols are the
slices `soff`, `slen` describe. -/
def bestPair : Nat → List Bytes → Int × Option Nat → Int × Option Nat
  | i, l :: r :: rest, best =>
    bestPair (i + 1) (r :: rest)
      (match tok.mergesGet (mergeKey l r) with
      | some rank => if rank < best.1 then (rank, some i) else best
      | none => best)
  | _, _, best => best

/-- `i32::MAX` -/
def i32Max : Int := 2147483647

/-- Fusing a symbol with the next. -/
def fuse (syms : List Bytes) (at_ : Nat) : List Bytes :=
  syms.take at_ ++ (syms.getD at_ [] ++ syms.getD (at_ + 1) []) :: syms.drop (at_ + 2)

/-- The merge loop. Each round leaves one symbol less. -/
def mergeLoop : Nat → List Bytes → List Bytes
  | 0, syms => syms
  | fuel + 1, syms =>
    match (tok.bestPair 0 syms (i32Max, none)).2 with
    | none => syms
    | some bp => mergeLoop fuel (fuse syms bp)

def bpePiece (p : Bytes) : List Int :=
  match tok.vocabGet (mapped p) with
  | some id => [id]
  | none =>
    let syms := symbolsFrom (mapped p).length (mapped p)
    (tok.mergeLoop syms.length syms).filterMap tok.vocabGet

/-! ## Free text -/

variable (T : Tables)

/-- The code points of the text from `i` on, up to `b`, each with where it starts. -/
def codePointsFrom (p : Bytes) (b : Nat) : Nat → Nat → List (Nat × Nat)
  | 0, _ => []
  | fuel + 1, i =>
    if i < b then
      (i, (u8Next (p.drop i)).1) :: codePointsFrom p b fuel (i + (u8Next (p.drop i)).2)
    else []

/-- The split a tokenizer uses. -/
def split (cp : List Nat) : List (Nat × Nat) :=
  match tok.pretok with
  | .cl100k => cl100kSpans T cp
  | .kimiK3 => k3Spans T cp

def pretokChunk (p : Bytes) (a b : Nat) : List Int :=
  if b ≤ a then []
  else
    let cps := codePointsFrom p b (b - a) a
    let off := cps.map Prod.fst ++ [b]
    (tok.split T (cps.map Prod.snd)).flatMap fun s =>
      tok.bpePiece (spanText p (off.getD s.1 0, off.getD s.2 0))

/-! ## The whole text -/

/-- The first of the added tokens that is in the text at `j`. -/
def specialAt (p : Bytes) (j : Nat) : Option Special :=
  tok.specials.find? fun sp =>
    0 < sp.bytes.length && j + sp.bytes.length ≤ p.length &&
      spanText p (j, j + sp.bytes.length) == sp.bytes

/-- The first position from `i` on with an added token. -/
def findHit (p : Bytes) (i : Nat) : Option (Nat × Special) :=
  (List.range' i (p.length - i)).findSome? fun j => (tok.specialAt p j).map (j, ·)

/-- The loop of `encode` from position `i` on. -/
def encodeFrom (p : Bytes) : Nat → Nat → List Int
  | 0, _ => []
  | fuel + 1, i =>
    if i < p.length then
      match tok.findHit p i with
      | some (pos, sp) =>
        (if i < pos then tok.pretokChunk T p i pos else []) ++
          sp.id :: encodeFrom p fuel (pos + sp.bytes.length)
      | none => tok.pretokChunk T p i p.length
    else []

def encode (text : Bytes) : List Int := tok.encodeFrom T text text.length 0

end LoadedTokenizer

end Colibri
