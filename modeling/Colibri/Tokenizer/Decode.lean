import Colibri.Lib.Utf8
import Mathlib.Data.List.GetD
import Mathlib.Data.List.Nodup

/-!
# Token ids back to bytes

A byte-level vocabulary stores every token as a string in which each byte of
the text stands for one character, so a token's string has to be mapped back
before it is text. Added tokens (control tokens such as `<|user|>`) are kept
literally.

* `u8Next` / `u8Put` read and write one code point, without validation.
* `byteCodePoint` is the byte-to-character map and `cp2byte` its inverse table.
* `unmap` turns a byte-level string back into bytes; `unmap_mapped` says it
  undoes the map on every byte string.
* `Tokenizer.decodeBytes` does this id by id, so it distributes over
  concatenation (`decodeBytes_append`): the decoding of a growing id list only
  ever grows. That is all the streaming endpoint relies on.
-/

namespace Colibri.Tokenizer

/-! ## One code point -/

/-- The code point at the head of `s` and how many bytes it takes. Bytes that do
not start a complete sequence pass through as one-byte code points. -/
def u8Next (s : List UInt8) : Nat × Nat :=
  match s with
  | [] => (0, 1)
  | c :: rest =>
    let b := c.toNat
    if b < 0x80 then (b, 1)
    else if b / 32 = 0x6 ∧ 1 ≤ rest.length then
      (b % 32 * 64 + (rest.getD 0 0).toNat % 64, 2)
    else if b / 16 = 0xE ∧ 2 ≤ rest.length then
      (b % 16 * 4096 + (rest.getD 0 0).toNat % 64 * 64 + (rest.getD 1 0).toNat % 64, 3)
    else if b / 8 = 0x1E ∧ 3 ≤ rest.length then
      (b % 8 * 262144 + (rest.getD 0 0).toNat % 64 * 4096 + (rest.getD 1 0).toNat % 64 * 64
        + (rest.getD 2 0).toNat % 64, 4)
    else (b, 1)

/-- A code point as one to four bytes. -/
def u8Put (cp : Nat) : List UInt8 :=
  if cp < 0x80 then [UInt8.ofNat cp]
  else if cp < 0x800 then [UInt8.ofNat (0xC0 + cp / 64), UInt8.ofNat (0x80 + cp % 64)]
  else if cp < 0x10000 then
    [UInt8.ofNat (0xE0 + cp / 4096), UInt8.ofNat (0x80 + cp / 64 % 64),
      UInt8.ofNat (0x80 + cp % 64)]
  else
    [UInt8.ofNat (0xF0 + cp / 262144), UInt8.ofNat (0x80 + cp / 4096 % 64),
      UInt8.ofNat (0x80 + cp / 64 % 64), UInt8.ofNat (0x80 + cp % 64)]

theorem u8Next_pos (s : List UInt8) : 0 < (u8Next s).2 := by
  unfold u8Next
  split
  · exact Nat.one_pos
  · dsimp only
    repeat' split
    all_goals simp

/-- `u8Next` reads back what `u8Put` wrote, for every code point the byte map
uses (they all stay below `0x800`). -/
theorem u8Next_u8Put {cp : Nat} (h : cp < 0x800) (rest : List UInt8) :
    u8Next (u8Put cp ++ rest) = (cp, (u8Put cp).length) := by
  by_cases hlow : cp < 0x80
  · have hb : (UInt8.ofNat cp).toNat = cp := UInt8.toNat_ofNat_of_lt' (by
      show cp < 256
      omega)
    simp [u8Put, u8Next, hlow, hb]
  · have hb : (UInt8.ofNat (0xC0 + cp / 64)).toNat = 0xC0 + cp / 64 :=
      UInt8.toNat_ofNat_of_lt' (by
        show 0xC0 + cp / 64 < 256
        omega)
    have hd : (UInt8.ofNat (0x80 + cp % 64)).toNat = 0x80 + cp % 64 :=
      UInt8.toNat_ofNat_of_lt' (by
        show 0x80 + cp % 64 < 256
        omega)
    simp only [u8Put, if_neg hlow, if_pos h, List.cons_append, List.nil_append, u8Next, hb, hd,
      List.getD_cons_zero, List.length_cons, List.length_nil]
    rw [if_neg (by omega), if_pos ⟨by omega, by omega⟩]
    simp only [Prod.mk.injEq, and_true]
    omega

/-! ## The byte-level map -/

/-- Bytes that stand for themselves. -/
def isDir (b : Nat) : Bool :=
  (33 ≤ b && b ≤ 126) || (161 ≤ b && b ≤ 172) || (174 ≤ b && b ≤ 255)

/-- The loop of the byte map: the code points of the bytes in `bs`, `n` bytes
having been moved above 255 so far. -/
def bytemapFrom : List Nat → Nat → List Nat
  | [], _ => []
  | b :: bs, n => if isDir b then b :: bytemapFrom bs n else (256 + n) :: bytemapFrom bs (n + 1)

/-- The code points of the 256 bytes, in order. -/
def bytemap : List Nat := bytemapFrom (List.range 256) 0

/-- The character a byte is written as. -/
def byteCodePoint (b : UInt8) : Nat := bytemap.getD b.toNat 0

/-- The byte a character stands for; only code points below 1024 are in the
table. -/
def cp2byte (cp : Nat) : Option UInt8 :=
  if cp < 1024 then (bytemap.findIdx? (· == cp)).map UInt8.ofNat else none

theorem bytemapFrom_length (bs : List Nat) (n : Nat) : (bytemapFrom bs n).length = bs.length := by
  induction bs generalizing n with
  | nil => rfl
  | cons b bs ih =>
    rw [bytemapFrom]
    split
    · rw [List.length_cons, ih, List.length_cons]
    · rw [List.length_cons, ih, List.length_cons]

/-- A code point of the map is a byte that stands for itself, or one of those above. -/
theorem mem_bytemapFrom {bs : List Nat} {n cp : Nat} (h : cp ∈ bytemapFrom bs n) :
    cp ∈ bs ∨ (256 + n ≤ cp ∧ cp < 256 + n + bs.length) := by
  induction bs generalizing n with
  | nil => cases h
  | cons b bs ih =>
    rw [bytemapFrom] at h
    rw [List.mem_cons, List.length_cons]
    split at h
    · rcases List.mem_cons.mp h with heq | hrest
      · exact .inl (.inl heq)
      · rcases ih hrest with hin | hhigh
        · exact .inl (.inr hin)
        · exact .inr (by omega)
    · rcases List.mem_cons.mp h with heq | hrest
      · exact .inr (by omega)
      · rcases ih hrest with hin | hhigh
        · exact .inl (.inr hin)
        · exact .inr (by omega)

/-- Distinct bytes have distinct code points. -/
theorem bytemapFrom_nodup {bs : List Nat} (n : Nat) (hbs : bs.Nodup) (hlt : ∀ b ∈ bs, b < 256) :
    (bytemapFrom bs n).Nodup := by
  induction bs generalizing n with
  | nil => exact List.nodup_nil
  | cons b bs ih =>
    have hb := hlt b (List.mem_cons_self ..)
    have hrest : ∀ x ∈ bs, x < 256 := fun x hx => hlt x (List.mem_cons_of_mem b hx)
    have hnot := (List.nodup_cons.mp hbs).1
    have htail := (List.nodup_cons.mp hbs).2
    rw [bytemapFrom]
    split
    · refine List.nodup_cons.mpr ⟨fun hmem => ?_, ih n htail hrest⟩
      rcases mem_bytemapFrom hmem with hin | hhigh
      · exact hnot hin
      · omega
    · refine List.nodup_cons.mpr ⟨fun hmem => ?_, ih (n + 1) htail hrest⟩
      rcases mem_bytemapFrom hmem with hin | hhigh
      · have := hrest _ hin
        omega
      · omega

theorem bytemap_length : bytemap.length = 256 := by
  unfold bytemap
  rw [bytemapFrom_length, List.length_range]

theorem bytemap_nodup : bytemap.Nodup := by
  unfold bytemap
  exact bytemapFrom_nodup 0 List.nodup_range fun b hb => List.mem_range.mp hb

/-- What the byte map does to every byte: it stays below `0x200` and the table finds it
again. -/
theorem bytemap_spec {b : Nat} (h : b < 256) :
    bytemap.getD b 0 < 0x200 ∧ cp2byte (bytemap.getD b 0) = some (UInt8.ofNat b) := by
  have hb : b < bytemap.length := by rwa [bytemap_length]
  have hlow : bytemap[b] < 0x200 := by
    rcases mem_bytemapFrom (List.getElem_mem hb) with hin | hhigh
    · have := List.mem_range.mp hin
      omega
    · rw [List.length_range] at hhigh
      omega
  have hfind : bytemap.findIdx? (· == bytemap[b]) = some b := by
    refine List.findIdx?_eq_some_iff_getElem.mpr ⟨hb, beq_self_eq_true _, fun j hj heq => ?_⟩
    have := (bytemap_nodup.getElem_inj_iff).mp (eq_of_beq heq)
    omega
  rw [List.getD_eq_getElem _ _ hb, cp2byte, if_pos (by omega), hfind]
  exact ⟨hlow, rfl⟩

theorem byteCodePoint_lt (b : UInt8) : byteCodePoint b < 0x800 :=
  Nat.lt_trans (bytemap_spec b.toNat_lt).1 (by omega)

theorem cp2byte_byteCodePoint (b : UInt8) : cp2byte (byteCodePoint b) = some b := by
  rw [byteCodePoint, (bytemap_spec b.toNat_lt).2, UInt8.ofNat_toNat]

/-! ## One token -/

/-- The loop over a token's string; code points outside the table are dropped. -/
def unmapFrom : Nat → List UInt8 → List UInt8
  | 0, _ => []
  | fuel + 1, s =>
    if s.isEmpty then []
    else (cp2byte (u8Next s).1).toList ++ unmapFrom fuel (s.drop (u8Next s).2)

/-- A byte-level string back to bytes. Each round reads at least one byte, so
the string's length bounds the rounds. -/
def unmap (s : List UInt8) : List UInt8 := unmapFrom s.length s

/-- Rounds past the end of the string add nothing. -/
theorem unmapFrom_of_le {fuel : Nat} {s : List UInt8} (h : s.length ≤ fuel) :
    unmapFrom fuel s = unmap s := by
  suffices key : ∀ f g s, s.length ≤ f → s.length ≤ g → unmapFrom f s = unmapFrom g s from
    key fuel s.length s h (Nat.le_refl _)
  intro f
  induction f with
  | zero =>
    intro g s hf _
    have : s = [] := List.length_eq_zero_iff.mp (by omega)
    subst this
    cases g <;> simp [unmapFrom]
  | succ f ih =>
    intro g s hf hg
    cases s with
    | nil => cases g <;> simp [unmapFrom]
    | cons c rest =>
      cases g with
      | zero => simp at hg
      | succ g =>
        have hk := u8Next_pos (c :: rest)
        have hlen : ((c :: rest).drop (u8Next (c :: rest)).2).length ≤ rest.length := by
          rw [List.length_drop, List.length_cons]
          omega
        rw [List.length_cons] at hf hg
        simp only [unmapFrom, List.isEmpty_cons, Bool.false_eq_true, if_false]
        rw [ih g _ (by omega) (by omega)]

theorem unmap_mapped_cons (b : UInt8) (s : List UInt8) :
    unmap (u8Put (byteCodePoint b) ++ s) = b :: unmap s := by
  have hnext := u8Next_u8Put (byteCodePoint_lt b) s
  obtain ⟨c, rest, hput⟩ : ∃ c rest, u8Put (byteCodePoint b) = c :: rest := by
    unfold u8Put
    repeat' split
    all_goals exact ⟨_, _, rfl⟩
  have hlen : (u8Put (byteCodePoint b) ++ s).length = rest.length + s.length + 1 := by
    simp [hput]
  rw [unmap, hlen, unmapFrom, hnext, cp2byte_byteCodePoint, List.drop_left, if_neg (by simp [hput]),
    unmapFrom_of_le (by omega)]
  rfl

/-- **The byte map is undone**: writing each byte as its character and mapping
back gives the bytes. -/
theorem unmap_mapped (bs : List UInt8) :
    unmap (bs.flatMap (fun b => u8Put (byteCodePoint b))) = bs := by
  induction bs with
  | nil => rfl
  | cons b bs ih => rw [List.flatMap_cons, unmap_mapped_cons, ih]

end Colibri.Tokenizer

namespace Colibri

open Colibri.Tokenizer

/-! ## Id lists -/

/-- The tables decoding reads: each id's string, and whether it is an added
token, to be output verbatim. -/
structure Tokenizer where
  id2str : List (Option (List UInt8))
  idAdded : List Bool
  idAdded_length : idAdded.length = id2str.length

namespace Tokenizer

/-- One id's bytes; ids outside the table, and holes in it, give none. -/
def decodeId (tok : Tokenizer) (id : Int) : List UInt8 :=
  if id < 0 ∨ tok.id2str.length ≤ id.toNat then []
  else
    match tok.id2str.getD id.toNat none with
    | none => []
    | some s => if tok.idAdded.getD id.toNat false then s else unmap s

/-- The loop of `decode_bytes`, appending to one buffer. -/
def decodeBytes (tok : Tokenizer) (ids : List Int) : List UInt8 :=
  ids.foldl (fun out id => out ++ tok.decodeId id) []

/-- The text of an id list, lossily if the bytes end inside a character. -/
def decode (tok : Tokenizer) (ids : List Int) : List Char := Utf8.lossy (tok.decodeBytes ids)

theorem decodeBytes_eq_flatMap (tok : Tokenizer) (ids : List Int) :
    tok.decodeBytes ids = ids.flatMap tok.decodeId := by
  rw [decodeBytes, List.flatMap_eq_foldl]

/-- **Decoding distributes over concatenation.** -/
theorem decodeBytes_append (tok : Tokenizer) (a b : List Int) :
    tok.decodeBytes (a ++ b) = tok.decodeBytes a ++ tok.decodeBytes b := by
  simp only [decodeBytes_eq_flatMap, List.flatMap_append]

/-- The text of a growing id list keeps the text it had iff the new ids did not
start inside a character. -/
theorem decode_prefix_iff (tok : Tokenizer) (a b : List Int) :
    tok.decode a <+: tok.decode (a ++ b) ↔
      ¬ Utf8.Splits (tok.decodeBytes (a ++ b)) (tok.decodeBytes a).length := by
  rw [decode, decode, decodeBytes_append]
  exact Utf8.lossy_prefix_iff _ _

theorem decode_prefix_of_append {tok : Tokenizer} {a b c : List Int}
    (h : tok.decode a <+: tok.decode (a ++ (b ++ c))) : tok.decode a <+: tok.decode (a ++ b) := by
  rw [decode, decode, decodeBytes_append, decodeBytes_append] at h
  rw [decode, decode, decodeBytes_append]
  exact Utf8.lossy_prefix_of_append h

end Tokenizer

end Colibri
