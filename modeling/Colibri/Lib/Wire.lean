import Mathlib.Data.List.Basic
import Mathlib.Algebra.Order.Ring.Nat

/-!
# Words on a wire, and frames

Little-endian 32-bit words, counted runs of items, and frames behind a length
word. A reader takes bytes and gives a value and the bytes left, so round trips are
stated with a rest and compose field by field (`getMany_flatMap`).

* `getWord_putWord`, `getLong_putLong`: a word is read as it was written, modulo `2 ^ 32` or not.
* `Codec`: how an item is written and read, with the round trip as a field.
* `getMany_codec`, `getMany_words`: runs of items. `getMany_getWord` says what a run of words is for
  any bytes, and is what the readers of foreign bytes use.
-/

namespace Colibri.Wire

/-- The low 32 bits of `v`, little-endian. -/
def putWord (v : Nat) : List UInt8 :=
  [UInt8.ofNat v, UInt8.ofNat (v / 256), UInt8.ofNat (v / 65536), UInt8.ofNat (v / 16777216)]

def getWord : List UInt8 → Option (Nat × List UInt8)
  | a :: b :: c :: d :: rest =>
    some (a.toNat + 256 * b.toNat + 65536 * c.toNat + 16777216 * d.toNat, rest)
  | _ => none

/-- `n` items, one after another. -/
def getMany {β : Type} (item : List UInt8 → Option (β × List UInt8)) :
    Nat → List UInt8 → Option (List β × List UInt8)
  | 0, bytes => some ([], bytes)
  | n + 1, bytes =>
    match item bytes with
    | none => none
    | some (x, bytes) => (getMany item n bytes).map fun (xs, bytes) => (x :: xs, bytes)

/-- A type whose values are written as words, and read back. -/
structure Codec (β : Type) where
  toWord : β → Nat
  ofWord : Nat → β
  toWord_lt : ∀ x, toWord x < 2 ^ 32
  ofWord_toWord : ∀ x, ofWord (toWord x) = x

def Codec.put {β : Type} (c : Codec β) (x : β) : List UInt8 := putWord (c.toWord x)

def Codec.get {β : Type} (c : Codec β) (bytes : List UInt8) : Option (β × List UInt8) :=
  (getWord bytes).map fun (v, rest) => (c.ofWord v, rest)

/-- A frame: its length as a word, then the payload. -/
def putFrame (payload : List UInt8) : List UInt8 := putWord payload.length ++ payload

/-- A frame of at most `limit` bytes, and what follows it. -/
def getFrame (limit : Nat) (bytes : List UInt8) : Option (List UInt8 × List UInt8) :=
  match getWord bytes with
  | none => none
  | some (n, rest) =>
    if n > limit then none
    else if n ≤ rest.length then some (rest.take n, rest.drop n) else none

@[simp] theorem putWord_length (v : Nat) : (putWord v).length = 4 := rfl

theorem getWord_putWord (v : Nat) (rest : List UInt8) :
    getWord (putWord v ++ rest) = some (v % 2 ^ 32, rest) := by
  simp only [putWord, List.cons_append, List.nil_append, getWord, UInt8.toNat_ofNat']
  congr 2
  omega

variable {v : Nat} {bytes rest : List UInt8}

theorem getWord_putWord_of_lt (h : v < 2 ^ 32) (rest : List UInt8) :
    getWord (putWord v ++ rest) = some (v, rest) := by
  rw [getWord_putWord, Nat.mod_eq_of_lt h]

/-- What a word was read from. -/
theorem putWord_of_getWord
    (h : getWord bytes = some (v, rest)) :
    bytes = putWord v ++ rest ∧ v < 2 ^ 32 := by
  match bytes with
  | a :: b :: c :: d :: tail =>
    simp only [getWord, Option.some.injEq, Prod.mk.injEq] at h
    obtain ⟨hv, rfl⟩ := h
    have ha := a.toNat_lt
    have hb := b.toNat_lt
    have hc := c.toNat_lt
    have hd := d.toNat_lt
    have hbyte : ∀ (x : UInt8) (n : Nat), n % 256 = x.toNat → UInt8.ofNat n = x := by
      intro x n hn
      apply UInt8.toNat_inj.mp
      rw [UInt8.toNat_ofNat', hn]
    refine ⟨?_, by omega⟩
    unfold putWord
    rw [hbyte a v (by omega), hbyte b (v / 256) (by omega), hbyte c (v / 65536) (by omega),
      hbyte d (v / 16777216) (by omega)]
    rfl
  | [] => cases h
  | [_] => cases h
  | [_, _] => cases h
  | [_, _, _] => cases h

/-- A 64-bit word is its low half and its high half. -/
def putLong (v : Nat) : List UInt8 := putWord v ++ putWord (v / 2 ^ 32)

def getLong (bytes : List UInt8) : Option (Nat × List UInt8) :=
  match getWord bytes with
  | none => none
  | some (lo, rest) =>
    match getWord rest with
    | none => none
    | some (hi, rest) => some (lo + 2 ^ 32 * hi, rest)

@[simp] theorem putLong_length (v : Nat) : (putLong v).length = 8 := rfl

theorem getLong_putLong (h : v < 2 ^ 64) (rest : List UInt8) :
    getLong (putLong v ++ rest) = some (v, rest) := by
  have hhi : v / 2 ^ 32 < 2 ^ 32 := by omega
  rw [putLong, List.append_assoc, getLong, getWord_putWord]
  dsimp only
  rw [getWord_putWord_of_lt hhi]
  dsimp only
  rw [Nat.mod_add_div]

/-- What was read as a long word is the encoding of one. -/
theorem putLong_of_getLong
    (h : getLong bytes = some (v, rest)) : bytes = putLong v ++ rest ∧ v < 2 ^ 64 := by
  unfold getLong at h
  rcases hlo : getWord bytes with _ | ⟨lo, mid⟩
  · rw [hlo] at h
    cases h
  · rw [hlo] at h
    dsimp only at h
    rcases hhi : getWord mid with _ | ⟨hi, tail⟩
    · rw [hhi] at h
      cases h
    · rw [hhi] at h
      dsimp only at h
      obtain ⟨rfl, hlt⟩ := putWord_of_getWord hlo
      obtain ⟨rfl, hlt'⟩ := putWord_of_getWord hhi
      obtain ⟨rfl, rfl⟩ := Prod.mk.inj (Option.some.inj h)
      have hlow : putWord (lo + 2 ^ 32 * hi) = putWord lo := by
        have hw := getWord_putWord (lo + 2 ^ 32 * hi) []
        rw [Nat.add_mul_mod_self_left, Nat.mod_eq_of_lt hlt] at hw
        have hback := (putWord_of_getWord hw).1
        rw [List.append_nil, List.append_nil] at hback
        exact hback
      have hhigh : (lo + 2 ^ 32 * hi) / 2 ^ 32 = hi := by omega
      refine ⟨?_, by omega⟩
      rw [putLong, hlow, hhigh, List.append_assoc]

section

variable {β : Type}

theorem Codec.get_put (c : Codec β) (x : β) (rest : List UInt8) :
    c.get (c.put x ++ rest) = some (x, rest) := by
  rw [get, put, getWord_putWord_of_lt (c.toWord_lt x)]
  exact congrArg (fun y => some (y, rest)) (c.ofWord_toWord x)

/-- **A counted run is read back** where each item is. -/
theorem getMany_flatMap {put : β → List UInt8} {get : List UInt8 → Option (β × List UInt8)}
    {xs : List β} (h : ∀ x ∈ xs, ∀ rest, get (put x ++ rest) = some (x, rest))
    (rest : List UInt8) : getMany get xs.length (xs.flatMap put ++ rest) = some (xs, rest) := by
  induction xs with
  | nil => rfl
  | cons x xs ih =>
    rw [List.flatMap_cons, List.append_assoc, List.length_cons, getMany,
      h x (List.mem_cons_self ..)]
    dsimp only
    rw [ih fun y hy => h y (List.mem_cons_of_mem _ hy)]
    rfl

theorem getMany_codec (c : Codec β) (xs : List β) (rest : List UInt8) :
    getMany c.get xs.length (xs.flatMap c.put ++ rest) = some (xs, rest) :=
  getMany_flatMap (fun x _ => c.get_put x) rest

theorem length_flatMap_const {put : β → List UInt8} {n : Nat} (h : ∀ x, (put x).length = n)
    (xs : List β) : (xs.flatMap put).length = n * xs.length := by
  induction xs with
  | nil => rfl
  | cons x xs ih => rw [List.flatMap_cons, List.length_append, ih, h, List.length_cons,
      Nat.mul_succ, Nat.add_comm]

end

theorem getMany_words {xs : List Nat} (h : ∀ x ∈ xs, x < 2 ^ 32) (rest : List UInt8) :
    getMany getWord xs.length (xs.flatMap putWord ++ rest) = some (xs, rest) :=
  getMany_flatMap (fun x hx => getWord_putWord_of_lt (h x hx)) rest

variable {payload : List UInt8}

/-- **A frame is read back** if it is within the limit, and refused if not. -/
theorem getFrame_putFrame {limit : Nat} (h : payload.length < 2 ^ 32) :
    getFrame limit (putFrame payload)
      = if payload.length ≤ limit then some (payload, []) else none := by
  rw [getFrame, putFrame, getWord_putWord_of_lt h]
  dsimp only
  by_cases hle : payload.length ≤ limit
  · rw [if_neg (Nat.not_lt.mpr hle), if_pos (Nat.le_refl _), if_pos hle, List.take_length,
      List.drop_length]
  · rw [if_pos (Nat.lt_of_not_le hle), if_neg hle]

/-- **A frame is read back in front of others**, which are left where they are. -/
theorem getFrame_append (limit : Nat) (h : payload.length < 2 ^ 32)
    (rest : List UInt8) : getFrame limit (putFrame payload ++ rest)
      = if payload.length ≤ limit then some (payload, rest) else none := by
  rw [getFrame, putFrame, List.append_assoc, getWord_putWord_of_lt h]
  dsimp only
  by_cases hle : payload.length ≤ limit
  · rw [if_neg (Nat.not_lt.mpr hle), if_pos (by rw [List.length_append]; omega), if_pos hle,
      List.take_left, List.drop_left]
  · rw [if_pos (Nat.lt_of_not_le hle), if_neg hle]

/-- No frame is read that is longer than the limit, and what is read was there. -/
theorem getFrame_some {limit : Nat}
    (h : getFrame limit bytes = some (payload, rest)) :
    payload.length ≤ limit ∧ bytes = putWord payload.length ++ (payload ++ rest) := by
  rw [getFrame] at h
  rcases hw : getWord bytes with _ | ⟨n, tail⟩
  · rw [hw] at h
    cases h
  · rw [hw] at h
    dsimp only at h
    split at h
    · cases h
    next hlimit =>
      split at h
      next hlen =>
        obtain ⟨rfl, rfl⟩ := Prod.mk.inj (Option.some.inj h)
        obtain ⟨rfl, -⟩ := putWord_of_getWord hw
        rw [List.length_take_of_le hlen, List.take_append_drop]
        exact ⟨Nat.le_of_not_lt hlimit, rfl⟩
      next => cases h

/-- A frame cut short is not read, and of a whole one nothing is left. -/
theorem getFrame_of_isPrefix {limit : Nat} {got : List UInt8}
    (h : payload.length < 2 ^ 32) (hcut : bytes <+: putFrame payload)
    (hget : getFrame limit bytes = some (got, rest)) : got = payload ∧ rest = [] := by
  obtain ⟨tail, htail⟩ := hcut
  obtain ⟨hlimit, hbytes⟩ := getFrame_some hget
  -- with the bytes that were cut off the reader sees the same frame first
  have hwhole := getFrame_append limit h []
  rw [List.append_nil, ← htail, hbytes, List.append_assoc, List.append_assoc] at hwhole
  have hsize := congrArg List.length htail
  rw [hbytes, putFrame] at hsize
  simp only [List.length_append, putWord_length] at hsize
  have hgot : got.length < 2 ^ 32 := by omega
  have hread := getFrame_append limit hgot (rest ++ tail)
  rw [putFrame, List.append_assoc] at hread
  rw [hread, if_pos hlimit] at hwhole
  split at hwhole
  · obtain ⟨rfl, hrest⟩ := Prod.mk.inj (Option.some.inj hwhole)
    exact ⟨rfl, (List.append_eq_nil_iff.mp hrest).1⟩
  · cases hwhole

/-! ## Words at an offset -/

/-- The words of a block of bytes; what is left over after the last is dropped. -/
def words : List UInt8 → List Nat
  | a :: b :: c :: d :: rest =>
    (a.toNat + 256 * b.toNat + 65536 * c.toNat + 16777216 * d.toNat) :: words rest
  | _ => []

/-- The word at byte `i`; `0` past the end. -/
def wordAt (bytes : List UInt8) (i : Nat) : Nat := ((getWord (bytes.drop i)).map Prod.fst).getD 0

theorem getWord_eq_none_iff : getWord bytes = none ↔ bytes.length < 4 := by
  match bytes with
  | _ :: _ :: _ :: _ :: _ => simp [getWord]
  | [] => simp [getWord]
  | [_] => simp [getWord]
  | [_, _] => simp [getWord]
  | [_, _, _] => simp [getWord]

theorem getWord_some (h : getWord bytes = some (v, rest)) :
    4 ≤ bytes.length ∧ rest = bytes.drop 4 ∧ v < 2 ^ 32 := by
  obtain ⟨rfl, hlt⟩ := putWord_of_getWord h
  refine ⟨?_, rfl, hlt⟩
  rw [List.length_append, putWord_length]
  omega

theorem getWord_take (h : getWord bytes = some (v, rest)) :
    getWord (bytes.take 4) = some (v, []) := by
  obtain ⟨rfl, hlt⟩ := putWord_of_getWord h
  exact getWord_putWord_of_lt hlt []

/-- Reading a word at byte `i` gives the word there and leaves the bytes after it. -/
theorem getWord_drop_iff {i : Nat} :
    getWord (bytes.drop i) = some (v, rest) ↔
      i + 4 ≤ bytes.length ∧ v = wordAt bytes i ∧ rest = bytes.drop (i + 4) := by
  constructor
  · intro h
    obtain ⟨hlen, hrest, _⟩ := getWord_some h
    rw [List.length_drop] at hlen
    refine ⟨by omega, ?_, by rw [hrest, List.drop_drop]⟩
    rw [wordAt, h]
    rfl
  · rintro ⟨hlen, rfl, rfl⟩
    rcases hw : getWord (bytes.drop i) with _ | ⟨v, rest⟩
    · rw [getWord_eq_none_iff, List.length_drop] at hw
      omega
    · obtain ⟨_, hrest, _⟩ := getWord_some hw
      rw [wordAt, hw, hrest, List.drop_drop]
      rfl

theorem wordAt_lt {i : Nat} (h : i + 4 ≤ bytes.length) :
    wordAt bytes i < 2 ^ 32 :=
  (getWord_some (getWord_drop_iff.mpr ⟨h, rfl, rfl⟩)).2.2

theorem length_words (bytes : List UInt8) : (words bytes).length = bytes.length / 4 := by
  match bytes with
  | _ :: _ :: _ :: _ :: rest =>
    rw [words, List.length_cons, length_words rest, List.length_cons, List.length_cons,
      List.length_cons, List.length_cons]
    omega
  | [] => simp [words]
  | [_] => simp [words]
  | [_, _] => simp [words]
  | [_, _, _] => simp [words]

/-- One word, read as a value. -/
def getAs {β : Type} (of : Nat → β) (bytes : List UInt8) : Option (β × List UInt8) :=
  (getWord bytes).map fun (v, rest) => (of v, rest)

/-- **A counted run of words** is the words of the block it takes up. -/
theorem getMany_map_words {β : Type} (of : Nat → β) (n : Nat) (bytes : List UInt8) :
    getMany (getAs of) n bytes
      = if 4 * n ≤ bytes.length then some ((words (bytes.take (4 * n))).map of, bytes.drop (4 * n))
        else none := by
  induction n generalizing bytes with
  | zero => rfl
  | succ n ih =>
    match bytes with
    | a :: b :: c :: d :: rest =>
      have hword : getAs of (a :: b :: c :: d :: rest) = some (of (a.toNat + 256 * b.toNat
          + 65536 * c.toNat + 16777216 * d.toNat), rest) := rfl
      rw [getMany, hword]
      dsimp only
      rw [ih]
      have hlen : (a :: b :: c :: d :: rest).length = rest.length + 4 := rfl
      have hsize : 4 * (n + 1) = 4 * n + 4 := rfl
      rw [hlen, hsize]
      by_cases h : 4 * n ≤ rest.length
      · rw [if_pos h, if_pos (by omega)]
        rfl
      · rw [if_neg h, if_neg (by omega)]
        rfl
    | [] => exact (if_neg (by simp)).symm
    | [_] => exact (if_neg (by simp; omega)).symm
    | [_, _] => exact (if_neg (by simp; omega)).symm
    | [_, _, _] => exact (if_neg (by simp; omega)).symm

theorem getAs_id : getAs id = getWord := by
  funext bytes
  rw [getAs]
  cases getWord bytes <;> rfl

/-- **A run of words**: it is there if the bytes are. -/
theorem getMany_getWord (n : Nat) (bytes : List UInt8) : getMany getWord n bytes
    = if 4 * n ≤ bytes.length then some (words (bytes.take (4 * n)), bytes.drop (4 * n))
      else none := by
  rw [← getAs_id, getMany_map_words, List.map_id]

theorem getMany_succ {β : Type} (item : List UInt8 → Option (β × List UInt8)) (n : Nat)
    (bytes : List UInt8) : getMany item (n + 1) bytes = (item bytes).bind fun p =>
      (getMany item n p.2).bind fun r => some (p.1 :: r.1, r.2) := by
  rw [getMany]
  cases item bytes with
  | none => rfl
  | some p =>
    show (getMany item n p.2).map _ = (getMany item n p.2).bind _
    cases getMany item n p.2 <;> rfl

theorem getMany_length {β : Type} {item : List UInt8 → Option (β × List UInt8)} {n : Nat}
    {xs : List β} (h : getMany item n bytes = some (xs, rest)) :
    xs.length = n := by
  induction n generalizing bytes xs with
  | zero =>
    cases h
    rfl
  | succ n ih =>
    rw [getMany] at h
    rcases hx : item bytes with _ | ⟨x, mid⟩
    · rw [hx] at h
      cases h
    · rw [hx] at h
      obtain ⟨⟨ys, tail⟩, hys, hcons⟩ := Option.map_eq_some_iff.mp h
      cases hcons
      rw [List.length_cons, ih hys]

end Colibri.Wire
