import Mathlib.Data.List.Sort
import Colibri.Config
import Colibri.Json.Parse
import Colibri.Tokenizer.Decode
import Colibri.Tokenizer.Pretok

/-!
# Loading a tokenizer

`from_json` reads the vocabulary, the merges and the added tokens of a `tokenizer.json`, and
sizes the table decoding uses from the largest id it has seen. Ids are kept as 32-bit numbers,
and the size is computed as one: `max_id + 1` wraps at the largest of them.

The document is a `JsonValue`, the one the parser makes. Its strings are characters; what the
tables hold are the bytes of a string, `Utf8.encode` of it.

The maps are lists of their insertions, the newest first: the first entry of a key counts.

`countedIds` are the ids that the size of the table is computed from. An id that is negative is not
in the table; one that the table is too small for is dropped, and decodes to nothing.
-/

namespace Colibri

open Tokenizer JsonValue Utf8

abbrev Bytes := List UInt8

inductive PreTok where
  | cl100k
  | kimiK3

structure Special where
  bytes : Bytes
  id : Int

/-- A loaded tokenizer: the tables decoding reads, and those encoding does. -/
structure LoadedTokenizer extends Tokenizer where
  vocab : List (Bytes × Int)
  /-- the two sides of each merge and its rank -/
  merges : List ((Bytes × Bytes) × Int)
  /-- sorted by length, the longest first -/
  specials : List Special
  pretok : PreTok

/-! ## The pieces of `from_json` -/

/-- The entries of the vocabulary that have an id, in order. -/
def vocabEntries (vocabJ : List (List Char × JsonValue)) : List (Bytes × Int) :=
  vocabJ.filterMap fun kv => kv.2.asI64.map fun id => (encode kv.1, asI32 id)

/-- `a.get("id").and_then(Json::as_i64)` -/
def idOf (a : JsonValue) : Option Int := (a.get "id".toList).bind asI64

/-- The ids the added tokens have. -/
def addedIds (addedJ : List JsonValue) : List Int :=
  addedJ.filterMap fun a => (idOf a).map asI32

/-- The added tokens that are kept: those with an id. -/
def addedEntries (addedJ : List JsonValue) : List Special :=
  addedJ.filterMap fun a =>
    let content := ((a.get "content".toList).bind asStr).getD []
    let id := asI32 ((idOf a).getD (-1))
    if id < 0 then none else some ⟨encode content, id⟩

def splitOnce : List Char → Option (List Char × List Char)
  | [] => none
  | c :: rest =>
    if c = ' ' then some ([], rest)
    else (splitOnce rest).map fun lr => (c :: lr.1, lr.2)

/-- One entry of the merges, in either form. -/
def mergePair : JsonValue → Option (Bytes × Bytes)
  | .arr (l :: r :: _) => some (encode (l.asStr.getD []), encode (r.asStr.getD []))
  | .str s => (splitOnce s).map fun lr => (encode lr.1, encode lr.2)
  | _ => none

/-- The merges with their ranks, in order. -/
def mergeEntries (mergesJ : List JsonValue) : List ((Bytes × Bytes) × Int) :=
  mergesJ.zipIdx.filterMap fun pr => (mergePair pr.1).map fun lr => (lr, asI32 pr.2)

/-- Whether `s` occurs in the text. -/
def contains (s : List Char) : List Char → Bool
  | [] => s.isEmpty
  | c :: rest => s.isPrefixOf (c :: rest) || contains s rest

mutual

/-- `detect_pretok`'s `scan`: the class intersection that only the K3 pattern has. -/
def scan : JsonValue → Bool
  | .str s => contains "&&[^\\p\x7bHan\x7d]".toList s
  | .arr xs => scanAll xs
  | .obj members => scanMembers members
  | _ => false

def scanAll : List JsonValue → Bool
  | [] => false
  | x :: xs => scan x || scanAll xs

def scanMembers : List (List Char × JsonValue) → Bool
  | [] => false
  | (_, v) :: members => scan v || scanMembers members

end

def detectPretok (root : JsonValue) : PreTok :=
  match root.get "pre_tokenizer".toList with
  | some p => if scan p then .kimiK3 else .cl100k
  | none => .cl100k

/-- One write into a table indexed by id, if the id is in it; a negative id, as an index,
is past every table. -/
def setAt {σ : Type} (table : List σ) (id : Int) (v : σ) : List σ :=
  if 0 ≤ id ∧ id.toNat < table.length then table.set id.toNat v else table

variable {σ : Type} {id : Int}

theorem length_setAt (table : List σ) (id : Int) (v : σ) :
    (setAt table id v).length = table.length := by
  rw [setAt]
  split
  · exact List.length_set
  · rfl

/-- Writes one after the other. -/
def setEach {σ : Type} (table : List σ) (writes : List (Int × σ)) : List σ :=
  writes.foldl (fun t w => setAt t w.1 w.2) table

theorem length_setEach (table : List σ) (writes : List (Int × σ)) :
    (setEach table writes).length = table.length := by
  induction writes generalizing table with
  | nil => rfl
  | cons w writes ih => exact (ih _).trans (length_setAt ..)

/-- The size of the id tables: `(maxid + 1).max(0) as usize`. -/
def nIds (ids : List Int) : Nat := (asI32 (ids.foldl max 0 + 1)).toNat

/-- The tokenizer of a vocabulary, merges and added tokens. -/
def build (vocabJ : List (List Char × JsonValue)) (mergesJ addedJ : List JsonValue) (pretok : PreTok) :
    LoadedTokenizer :=
  let entries := vocabEntries vocabJ
  let added := addedEntries addedJ
  let n := nIds (entries.map Prod.snd ++ addedIds addedJ)
  { id2str := setEach (setEach (List.replicate n none) (entries.map fun kv => (kv.2, some kv.1)))
      (added.map fun sp => (sp.id, some sp.bytes))
    idAdded := setEach (List.replicate n false) (added.map fun sp => (sp.id, true))
    idAdded_length := by
      rw [length_setEach, length_setEach, length_setEach, List.length_replicate,
        List.length_replicate]
    vocab := entries.reverse
    merges := (mergeEntries mergesJ).reverse
    specials := added.insertionSort fun a b => b.bytes.length ≤ a.bytes.length
    pretok }

def fromJson (root : JsonValue) : Option LoadedTokenizer := do
  let model ← root.get "model".toList
  let vocabJ ← (← model.get "vocab".toList).asObject
  let mergesJ ← (← model.get "merges".toList).asArray
  let addedJ := ((root.get "added_tokens".toList).bind asArray).getD []
  return build vocabJ mergesJ addedJ (detectPretok root)

/-! ## What the tables hold -/

/-- The ids counted for the size of the tables. -/
def countedIds (vocabJ : List (List Char × JsonValue)) (addedJ : List JsonValue) : List Int :=
  (vocabEntries vocabJ).map Prod.snd ++ addedIds addedJ

theorem countedIds_le {vocabJ : List (List Char × JsonValue)}
    {addedJ : List JsonValue}
    (h : id ∈ countedIds vocabJ addedJ) : id ≤ 2147483647 := by
  rcases List.mem_append.mp h with h | h
  · obtain ⟨kv, hkv, rfl⟩ := List.mem_map.mp h
    obtain ⟨entry, -, hentry⟩ := List.mem_filterMap.mp hkv
    obtain ⟨n, -, rfl⟩ := Option.map_eq_some_iff.mp hentry
    exact (asI32_range n).2
  · obtain ⟨a, -, ha⟩ := List.mem_filterMap.mp h
    obtain ⟨n, -, rfl⟩ := Option.map_eq_some_iff.mp ha
    exact (asI32_range n).2

theorem foldl_max_spec (ids : List Int) (m : Int) :
    m ≤ ids.foldl max m ∧ (∀ id ∈ ids, id ≤ ids.foldl max m) ∧
      (ids.foldl max m = m ∨ ids.foldl max m ∈ ids) := by
  induction ids generalizing m with
  | nil => exact ⟨Int.le_refl m, fun id h => (by cases h), Or.inl rfl⟩
  | cons x ids ih =>
    obtain ⟨hm, hall, hmem⟩ := ih (max m x)
    rw [List.foldl_cons]
    refine ⟨by omega, fun id h => ?_, ?_⟩
    · rcases List.mem_cons.mp h with rfl | h
      · omega
      · exact hall id h
    · rcases hmem with heq | hmem
      · rcases Int.le_total m x with hle | hle
        · right
          rw [heq, Int.max_eq_right hle]
          exact List.mem_cons_self ..
        · left
          rw [heq, Int.max_eq_left hle]
      · exact Or.inr (List.mem_cons_of_mem _ hmem)

/-- **The tables are empty** if the largest 32-bit number is an id. -/
theorem nIds_of_mem {ids : List Int} (hle : ∀ id ∈ ids, id ≤ 2147483647)
    (h : 2147483647 ∈ ids) : nIds ids = 0 := by
  obtain ⟨-, hall, hmem⟩ := foldl_max_spec ids 0
  have hmax : ids.foldl max 0 = 2147483647 := by
    have hge := hall _ h
    rcases hmem with heq | hmem
    · omega
    · have hle := hle _ hmem
      omega
  rw [nIds, hmax]
  decide

/-- Every id is in them otherwise. -/
theorem lt_nIds {ids : List Int} (hle : ∀ id ∈ ids, id ≤ 2147483647)
    (hno : 2147483647 ∉ ids) (h : id ∈ ids) : id.toNat < nIds ids := by
  obtain ⟨hm, hall, hmem⟩ := foldl_max_spec ids 0
  have hmax : ids.foldl max 0 < 2147483647 := by
    rcases hmem with heq | hmem
    · omega
    · have hle := hle _ hmem
      have hne : ids.foldl max 0 ≠ 2147483647 := fun heq => hno (by rw [← heq]; exact hmem)
      omega
  have hid := hall id h
  have hkept : asI32 (ids.foldl max 0 + 1) = ids.foldl max 0 + 1 :=
    asI32_of_range (by omega) (by omega)
  rw [nIds, hkept]
  omega

theorem getD_setAt_ne (table : List σ) {k : Int} (v d : σ) (h0 : 0 ≤ k)
    (hne : id ≠ k) : (setAt table id v).getD k.toNat d = table.getD k.toNat d := by
  rw [setAt]
  split
  next hin =>
    have hpos : id.toNat ≠ k.toNat := by omega
    rw [List.getD_eq_getElem?_getD, List.getElem?_set_ne hpos, List.getD_eq_getElem?_getD]
  next => rfl

theorem getD_setAt_self (table : List σ) (v d : σ) (h0 : 0 ≤ id)
    (hlt : id.toNat < table.length) : (setAt table id v).getD id.toNat d = v := by
  rw [setAt, if_pos ⟨h0, hlt⟩, List.getD_eq_getElem?_getD, List.getElem?_set_self hlt]
  rfl

/-- An id no write is for keeps its value. -/
theorem getD_setEach_of_notMem (table : List σ) {writes : List (Int × σ)} {k : Int}
    (d : σ) (h0 : 0 ≤ k) (h : k ∉ writes.map Prod.fst) :
    (setEach table writes).getD k.toNat d = table.getD k.toNat d := by
  induction writes generalizing table with
  | nil => rfl
  | cons w writes ih =>
    rw [List.map_cons, List.mem_cons, not_or] at h
    have hrest := ih (setAt table w.1 w.2) h.2
    rw [getD_setAt_ne table w.2 d h0 (Ne.symm h.1)] at hrest
    exact hrest

/-- An id only one write is for has what it wrote. -/
theorem getD_setEach_of_mem (table : List σ) {writes : List (Int × σ)} {k : Int}
    {v : σ} (d : σ) (h0 : 0 ≤ k) (hlt : k.toNat < table.length)
    (hnodup : (writes.map Prod.fst).Nodup) (h : (k, v) ∈ writes) :
    (setEach table writes).getD k.toNat d = v := by
  induction writes generalizing table with
  | nil => cases h
  | cons w writes ih =>
    rw [List.map_cons, List.nodup_cons] at hnodup
    rcases List.mem_cons.mp h with rfl | h
    · have hrest := getD_setEach_of_notMem (setAt table k v) d h0 hnodup.1
      rw [getD_setAt_self table v d h0 hlt] at hrest
      exact hrest
    · exact ih (setAt table w.1 w.2) (by rw [length_setAt]; exact hlt) hnodup.2 h

/-- The added tokens that are kept, by their ids. -/
theorem mem_addedIds_iff {addedJ : List JsonValue} (h0 : 0 ≤ id) :
    id ∈ addedIds addedJ ↔ id ∈ (addedEntries addedJ).map Special.id := by
  rw [addedIds, addedEntries, List.mem_filterMap, List.map_filterMap, List.mem_filterMap]
  refine exists_congr fun a => and_congr_right fun _ => ?_
  cases idOf a with
  | none =>
    have hneg : asI32 (-1) < 0 := by decide
    simp only [Option.map_none, Option.getD_none, if_pos hneg]
  | some n =>
    simp only [Option.map_some, Option.getD_some]
    split
    next hneg =>
      refine iff_of_false (fun h => ?_) (fun h => by cases h)
      rw [Option.some.injEq] at h
      omega
    next => rfl

end Colibri
