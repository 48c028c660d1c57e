import Colibri.Lib.Utf8
import Colibri.Lib.Wire
import Colibri.Safetensors.Header

/-!
# Opening shard files

A shard file is the length of its header, the header, and the data. `openFile` gives the
tensors of one file, `openFrom` those of a list of files. The header is taken for what the
parser makes of it: a tensor's range comes from two numbers that are not compared with the
file.

What a written file is opened as depends on its header alone (`openFile_fileOf`). Of plain
names, all tensors come back, each with its bytes (`openFile_plain`).

`Shards.Opened` says of a set that it came out of `openFrom`. Its tensors then have what the reader
asks for (`Shards.Opened.ok`), which is what the writers of subsets rely on.
-/

namespace Colibri.Safetensors

open Batch JsonValue

/-! ## The file -/

/-- `to_le_bytes` of a `u64`. -/
def putWord64 (v : Nat) : List UInt8 := Wire.putWord v ++ Wire.putWord (v / 2 ^ 32)

def getWord64 (bytes : List UInt8) : Option (Nat × List UInt8) :=
  match Wire.getWord bytes with
  | none => none
  | some (low, bytes) => (Wire.getWord bytes).map fun p => (low + 2 ^ 32 * p.1, p.2)

/-- What all three writers write. -/
def fileOf (es : List Entry) : List UInt8 :=
  putWord64 (Utf8.encode (header es)).length ++ (Utf8.encode (header es) ++ es.flatMap Entry.bytes)

/-! ## Opening -/

inductive OpenError where
  /-- "failed to fill whole buffer" -/
  | unexpectedEof
  /-- "unparseable safetensors header" -/
  | unparseable
  /-- "safetensors header not an object" -/
  | notObject
  /-- "tensor {name} missing {field}" -/
  | missing (name field : List Char)
  /-- "unsupported dtype: {dtype_str}" -/
  | unsupported (dtype : List Char)

def metadataKey : List Char := "__metadata__".toList

/-- `as u64` of an `i64`. -/
def asU64 (i : Int) : Nat := (i % 2 ^ 64).toNat

theorem asU64_lt (i : Int) : asU64 i < 2 ^ 64 := by
  unfold asU64
  omega

/-- A product of two `i64`, as release builds have it. -/
def wmul (a b : Int) : Int := (a * b + 2 ^ 63) % 2 ^ 64 - 2 ^ 63

/-- One entry of the header. -/
def tensorOf (fileIdx dataStart : Nat) (name : List Char) (entry : JsonValue) :
    Outcome OpenError StTensor :=
  match (get "dtype".toList entry).bind asStr with
  | none => .error (.missing name "dtype".toList)
  | some dtypeStr =>
    match DType.parse dtypeStr with
    | none => .error (.unsupported dtypeStr)
    | some dtype =>
      match (get "data_offsets".toList entry).bind asArray with
      | none => .error (.missing name "data_offsets".toList)
      | some offsets =>
        match (get "shape".toList entry).bind asArray with
        | none => .error (.missing name "shape".toList)
        | some shape =>
          let a0 := (offsets[0]?.bind asI64).getD 0
          let b0 := (offsets[1]?.bind asI64).getD 0
          let dims := shape.map fun d => d.asI64.getD 0
          .ok ⟨name, fileIdx, wadd dataStart (asU64 a0), asU64 (b0 - a0), dtype,
            dims.foldl wmul 1, dims, Nat.mod_lt _ (Nat.two_pow_pos 64), asU64_lt _⟩

def tensorsOf (fileIdx dataStart : Nat) :
    List (List Char × JsonValue) → Outcome OpenError (List StTensor)
  | [] => .ok []
  | (name, entry) :: members =>
    if name = metadataKey then tensorsOf fileIdx dataStart members
    else
      (tensorOf fileIdx dataStart name entry).bind fun t =>
        (tensorsOf fileIdx dataStart members).bind fun ts => .ok (t :: ts)

/-- One turn of the loop over the files. A header of `2 ^ 63` bytes is a capacity overflow. -/
def openFile (fileIdx : Nat) (file : List UInt8) : Outcome OpenError (List StTensor) :=
  match getWord64 file with
  | none => .error .unexpectedEof
  | some (hlen, rest) =>
    if 2 ^ 63 ≤ hlen then .panic
    else if rest.length < hlen then .error .unexpectedEof
    else
      match parse (Utf8.lossy (rest.take hlen)) with
      | none => .error .unparseable
      | some root =>
        match root.asObject with
        | none => .error .notObject
        | some members => tensorsOf fileIdx (8 + hlen) members

def openFrom : Nat → List (List UInt8) → Outcome OpenError (List StTensor)
  | _, [] => .ok []
  | k, file :: files =>
    (openFile k file).bind fun ts => (openFrom (k + 1) files).bind fun rest => .ok (ts ++ rest)

/-- `Shards::open` came to this set, of these files. -/
def Shards.Opened (s : Shards) : Prop := openFrom 0 s.files = .ok s.tensors

/-! ## What an opened file has -/

section

variable {fileIdx dataStart : Nat}

/-- A dimension that a header gives back as it is. -/
def Exact (d : Int) : Prop := (Decimal.ofInt d).asI64 = d

instance (d : Int) : Decidable (Exact d) := inferInstanceAs (Decidable (_ = _))

theorem exact_getD (j : JsonValue) : Exact (j.asI64.getD 0) := by
  cases j with
  | num d => exact asI64_ofInt_asI64 d
  | _ => exact asI64_ofInt_of_le (n := 0) (Nat.zero_le _)

/-- What the tensor of an entry has. -/
theorem tensorOf_ok {name : List Char} {entry : JsonValue} {t : StTensor}
    (h : tensorOf fileIdx dataStart name entry = .ok t) :
    t.name = name ∧ t.fileIdx = fileIdx ∧ (∀ d ∈ t.shape, Exact d) ∧ entry.asObject.isSome := by
  unfold tensorOf at h
  split at h
  next => cases h
  next dtypeStr hdtype =>
    have hobj : entry.asObject.isSome := by
      cases entry with
      | obj members => rfl
      | _ => cases hdtype
    split at h
    next => cases h
    next =>
      split at h
      next => cases h
      next =>
        split at h
        next => cases h
        next shape _ =>
          cases h
          refine ⟨rfl, rfl, fun d hd => ?_, hobj⟩
          obtain ⟨j, -, rfl⟩ := List.mem_map.mp hd
          exact exact_getD j

/-- The tensors of a header are those of its entries, the metadata left out. -/
theorem mem_tensorsOf {members : List (List Char × JsonValue)} {ts : List StTensor}
    (h : tensorsOf fileIdx dataStart members = .ok ts) {t : StTensor} : t ∈ ts ↔
      ∃ p ∈ members, p.1 ≠ metadataKey ∧ tensorOf fileIdx dataStart p.1 p.2 = .ok t := by
  induction members generalizing ts with
  | nil =>
    cases h
    simp
  | cons p members ih =>
    obtain ⟨name, entry⟩ := p
    rw [tensorsOf] at h
    split at h
    next hmeta =>
      rw [ih h, List.exists_mem_cons_iff]
      constructor
      · exact .inr
      · rintro (⟨hnot, -⟩ | hrest)
        · exact absurd hmeta hnot
        · exact hrest
    next hmeta =>
      obtain ⟨t₀, ht₀, h⟩ := Outcome.bind_eq_ok h
      obtain ⟨rest, hrest, h⟩ := Outcome.bind_eq_ok h
      cases h
      rw [List.mem_cons, ih hrest, List.exists_mem_cons_iff]
      refine or_congr ?_ Iff.rfl
      constructor
      · rintro rfl
        exact ⟨hmeta, ht₀⟩
      · rintro ⟨-, ht⟩
        exact (Outcome.ok.inj (ht₀.symm.trans ht)).symm

theorem tensorsOf_ok {members : List (List Char × JsonValue)}
    (h : ∀ p ∈ members, p.1 ≠ metadataKey → ∃ t, tensorOf fileIdx dataStart p.1 p.2 = .ok t) :
    ∃ ts, tensorsOf fileIdx dataStart members = .ok ts := by
  induction members with
  | nil => exact ⟨[], rfl⟩
  | cons p members ih =>
    obtain ⟨ts, hts⟩ := ih fun q hq => h q (List.mem_cons_of_mem _ hq)
    rw [tensorsOf]
    split
    next => exact ⟨ts, hts⟩
    next hmeta =>
      obtain ⟨t, ht⟩ := h p List.mem_cons_self hmeta
      exact ⟨t :: ts, by rw [ht, hts]; rfl⟩

end

theorem openFile_ok {k : Nat} {file : List UInt8} {ts : List StTensor}
    (h : openFile k file = .ok ts) {t : StTensor} (ht : t ∈ ts) :
    t.fileIdx = k ∧ t.name ≠ metadataKey ∧ ∀ d ∈ t.shape, Exact d := by
  unfold openFile at h
  split at h
  next => cases h
  next hlen rest _ =>
    split at h
    next => cases h
    split at h
    next => cases h
    split at h
    next => cases h
    split at h
    next => cases h
    next members _ =>
      obtain ⟨p, -, hmeta, hp⟩ := (mem_tensorsOf h).mp ht
      obtain ⟨hname, hfile, hshape, -⟩ := tensorOf_ok hp
      exact ⟨hfile, hname ▸ hmeta, hshape⟩

theorem openFrom_ok {k : Nat} {files : List (List UInt8)}
    (h : ∀ i file, files[i]? = some file → ∃ ts, openFile (k + i) file = .ok ts) :
    ∃ ts, openFrom k files = .ok ts := by
  induction files generalizing k with
  | nil => exact ⟨[], rfl⟩
  | cons file files ih =>
    obtain ⟨ts, hts⟩ := h 0 file rfl
    obtain ⟨rest, hrest⟩ := ih (k := k + 1) fun i file hi => by
      have := h (i + 1) file hi
      rwa [← Nat.add_assoc, Nat.add_right_comm] at this
    rw [Nat.add_zero] at hts
    refine ⟨ts ++ rest, ?_⟩
    rw [openFrom, hts, hrest]
    rfl

/-- The tensors of a set are those of its files. -/
theorem mem_openFrom {k : Nat} {files : List (List UInt8)} {ts : List StTensor}
    (h : openFrom k files = .ok ts) {t : StTensor} : t ∈ ts ↔
      ∃ i file ts', files[i]? = some file ∧ openFile (k + i) file = .ok ts' ∧ t ∈ ts' := by
  induction files generalizing k ts with
  | nil =>
    cases h
    simp
  | cons file files ih =>
    obtain ⟨ts₀, hts₀, h⟩ := Outcome.bind_eq_ok h
    obtain ⟨rest, hrest, h⟩ := Outcome.bind_eq_ok h
    cases h
    rw [List.mem_append, ih hrest]
    constructor
    · rintro (ht | ⟨i, f, ts', hi, hopen, ht⟩)
      · exact ⟨0, file, ts₀, rfl, hts₀, ht⟩
      · refine ⟨i + 1, f, ts', hi, ?_, ht⟩
        rwa [← Nat.add_assoc, Nat.add_right_comm]
    · rintro ⟨i, f, ts', hi, hopen, ht⟩
      cases i with
      | zero =>
        cases hi
        cases hts₀.symm.trans hopen
        exact .inl ht
      | succ i =>
        refine .inr ⟨i, f, ts', hi, ?_, ht⟩
        rwa [← Nat.add_assoc, Nat.add_right_comm] at hopen

theorem Shards.Opened.ok {s : Shards} (h : s.Opened) {t : StTensor} (ht : t ∈ s.tensors) :
    t.name ≠ metadataKey ∧ ∀ d ∈ t.shape, Exact d := by
  obtain ⟨i, file, ts, -, hopen, hmem⟩ := (mem_openFrom h).mp ht
  exact (openFile_ok hopen hmem).2

theorem Shards.find_some {s : Shards} {name : List Char} {t : StTensor}
    (h : s.find name = some t) : t ∈ s.tensors ∧ t.name = name :=
  ⟨List.mem_reverse.mp (List.mem_of_find?_eq_some h), by simpa using List.find?_some h⟩

/-! ## A written file -/

theorem getWord64_putWord64 {v : Nat} (h : v < 2 ^ 64) (rest : List UInt8) :
    getWord64 (putWord64 v ++ rest) = some (v, rest) := by
  have hhigh : v / 2 ^ 32 < 2 ^ 32 := by omega
  rw [getWord64, putWord64, List.append_assoc, Wire.getWord_putWord]
  dsimp only
  rw [Wire.getWord_putWord_of_lt hhigh]
  exact congrArg some (Prod.ext (by dsimp only; omega) rfl)

theorem length_fileOf (es : List Entry) : (fileOf es).length
    = 8 + (Utf8.encode (header es)).length + (es.flatMap Entry.bytes).length := by
  rw [fileOf, List.length_append, List.length_append, ← Nat.add_assoc]
  rfl

/-- What a file is opened as, by its header. -/
theorem openFile_text {text : List Char} (hne : text ≠ [])
    (h : (Utf8.encode text).length < 2 ^ 63) (data : List UInt8) (k : Nat) :
    openFile k (putWord64 (Utf8.encode text).length ++ (Utf8.encode text ++ data)) =
      match (value text).1.asObject with
      | none => .error .notObject
      | some members => tensorsOf k (8 + (Utf8.encode text).length) members := by
  have htext : Utf8.lossy ((Utf8.encode text ++ data).take (Utf8.encode text).length) = text := by
    rw [List.take_left, Utf8.lossy_encode]
  rw [openFile, getWord64_putWord64 (by omega)]
  dsimp only
  rw [if_neg (by omega), if_neg (by rw [List.length_append]; omega), htext, parse_eq hne]

/-- **What a written file is opened as** depends on its header. -/
theorem openFile_fileOf {es : List Entry} (h : (Utf8.encode (header es)).length < 2 ^ 63)
    (k : Nat) :
    openFile k (fileOf es) = match (value (header es)).1.asObject with
      | none => .error .notObject
      | some members => tensorsOf k (8 + (Utf8.encode (header es)).length) members :=
  openFile_text (List.cons_ne_nil _ _) h (es.flatMap Entry.bytes) k

/-! ## A file of plain names -/

theorem push_mem {members : List (List Char × JsonValue)} {p q : List Char × JsonValue}
    (h : q ∈ push members p) : q = p ∨ q ∈ members := by
  induction members with
  | nil => exact .inl (List.mem_singleton.mp h)
  | cons m members ih =>
    rw [push] at h
    split at h
    next hkey =>
      rcases List.mem_cons.mp h with rfl | h
      · exact .inl (Prod.ext hkey rfl)
      · exact .inr (List.mem_cons_of_mem _ h)
    next =>
      rcases List.mem_cons.mp h with rfl | h
      · exact .inr List.mem_cons_self
      · exact (ih h).imp_right (List.mem_cons_of_mem _)

theorem push_keys {members : List (List Char × JsonValue)} {p : List Char × JsonValue}
    {key : List Char} :
    key ∈ (push members p).map Prod.fst ↔ key = p.1 ∨ key ∈ members.map Prod.fst := by
  induction members with
  | nil => simp [push]
  | cons m members ih =>
    rw [push]
    split
    next hkey =>
      simp only [List.map_cons, List.mem_cons, hkey]
      tauto
    next =>
      simp only [List.map_cons, List.mem_cons, ih]
      tauto

/-- The members of an object are pairs that were pushed, and every key has one. -/
theorem foldl_push_mem {pairs acc : List (List Char × JsonValue)} {q : List Char × JsonValue}
    (h : q ∈ pairs.foldl push acc) : q ∈ pairs ∨ q ∈ acc := by
  induction pairs generalizing acc with
  | nil => exact .inr h
  | cons p pairs ih =>
    rcases ih h with hq | hq
    · exact .inl (List.mem_cons_of_mem _ hq)
    · rcases push_mem hq with rfl | hq
      · exact .inl List.mem_cons_self
      · exact .inr hq

theorem foldl_push_keys {pairs acc : List (List Char × JsonValue)} {key : List Char} :
    key ∈ (pairs.foldl push acc).map Prod.fst ↔
      key ∈ pairs.map Prod.fst ∨ key ∈ acc.map Prod.fst := by
  induction pairs generalizing acc with
  | nil => simp
  | cons p pairs ih =>
    rw [List.foldl_cons, ih, push_keys, List.map_cons, List.mem_cons]
    tauto

/-- An entry's place in the data is behind the bytes of those before it. -/
theorem mem_pairsFrom {rel : Nat} {es : List Entry}
    (hsmall : rel + (es.flatMap Entry.bytes).length < 2 ^ 64) {p : List Char × JsonValue}
    (h : p ∈ pairsFrom rel es) : ∃ before e after, es = before ++ e :: after ∧
      p = (e.name, metaOf (rel + (before.flatMap Entry.bytes).length) e) := by
  induction es generalizing rel with
  | nil => exact absurd h List.not_mem_nil
  | cons e es ih =>
    rw [List.flatMap_cons, List.length_append] at hsmall
    have hadd : wadd rel e.bytes.length = rel + e.bytes.length := Nat.mod_eq_of_lt (by omega)
    rcases List.mem_cons.mp h with rfl | h
    · exact ⟨[], e, es, rfl, rfl⟩
    · rw [hadd] at h
      obtain ⟨before, e', after, rfl, rfl⟩ := ih (by omega) h
      refine ⟨e :: before, e', after, rfl, ?_⟩
      rw [List.flatMap_cons, List.length_append, Nat.add_assoc]

theorem pairsFrom_keys (rel : Nat) (es : List Entry) :
    (pairsFrom rel es).map Prod.fst = es.map Entry.name := by
  induction es generalizing rel with
  | nil => rfl
  | cons e es ih => rw [pairsFrom, List.map_cons, ih, List.map_cons]

/-- The tensor is the entry, as a header gives it back, and its range in the file holds the
entry's bytes. -/
structure StTensor.Reads (t : StTensor) (file : List UInt8) (e : Entry) : Prop where
  name : t.name = e.name
  dtype : t.dtype = e.dtype
  shape : t.shape = e.shape.map fun d => (Decimal.ofInt d).asI64
  nbytes : t.nbytes = e.bytes.length
  inside : t.off + t.nbytes ≤ file.length
  bytes : (file.drop t.off).take t.nbytes = e.bytes

theorem get_dtype (rel : Nat) (e : Entry) :
    get "dtype".toList (metaOf rel e) = some (.str e.dtype.str) := rfl

theorem get_shape (rel : Nat) (e : Entry) : get "shape".toList (metaOf rel e)
    = some (.arr (e.shape.map fun d => .num (.ofInt d))) := rfl

theorem get_offsets (rel : Nat) (e : Entry) : get "data_offsets".toList (metaOf rel e)
    = some (.arr [.num (.ofInt rel), .num (.ofInt (wadd rel e.bytes.length))]) := rfl

/-- The tensor of a written entry. -/
theorem tensorOf_metaOf {fileIdx dataStart rel : Nat} {e : Entry} (name : List Char)
    (hsmall : dataStart + rel + e.bytes.length ≤ 2 ^ 53) : ∃ t,
      tensorOf fileIdx dataStart name (metaOf rel e) = .ok t ∧ t.name = name ∧
      t.dtype = e.dtype ∧ t.shape = e.shape.map (fun d => (Decimal.ofInt d).asI64) ∧
      t.off = dataStart + rel ∧ t.nbytes = e.bytes.length := by
  have hadd : wadd rel e.bytes.length = rel + e.bytes.length := Nat.mod_eq_of_lt (by omega)
  have hrel : (Decimal.ofInt rel).asI64 = rel := asI64_ofInt_of_le (by omega)
  have hend : (Decimal.ofInt (rel + e.bytes.length : Nat)).asI64 = (rel + e.bytes.length : Nat) :=
    asI64_ofInt_of_le (by omega)
  unfold tensorOf
  rw [get_dtype, get_shape, get_offsets, hadd]
  dsimp only [Option.bind_some, asStr, asArray]
  rw [(plain_str e.dtype).2]
  refine ⟨_, rfl, rfl, rfl, ?_, ?_, ?_⟩
  · dsimp only
    rw [List.map_map]
    rfl
  · show wadd dataStart (asU64 (Decimal.ofInt rel).asI64) = _
    rw [hrel, asU64, wadd]
    omega
  · show asU64 ((Decimal.ofInt (rel + e.bytes.length : Nat)).asI64 - (Decimal.ofInt rel).asI64) = _
    rw [hrel, hend, asU64]
    omega

/-- The bytes of an entry, in the file. -/
theorem drop_fileOf {es before after : List Entry} {e : Entry} (h : es = before ++ e :: after) :
    (fileOf es).drop (8 + (Utf8.encode (header es)).length + (before.flatMap Entry.bytes).length)
      = e.bytes ++ after.flatMap Entry.bytes := by
  have hdata : es.flatMap Entry.bytes
      = before.flatMap Entry.bytes ++ (e.bytes ++ after.flatMap Entry.bytes) := by
    rw [h, List.flatMap_append, List.flatMap_cons]
  rw [fileOf, hdata, ← List.append_assoc, ← List.append_assoc]
  refine List.drop_left' ?_
  rw [List.length_append, List.length_append]
  rfl

/-- A header of plain names gives its entries back. -/
theorem openFile_plain {es : List Entry} (hplain : ∀ e ∈ es, Plain e.name)
    (hsmall : (fileOf es).length ≤ 2 ^ 53) (k : Nat) : ∃ ts, openFile k (fileOf es) = .ok ts ∧
      (∀ t ∈ ts, ∃ e ∈ es, t.Reads (fileOf es) e) ∧
      ∀ e ∈ es, e.name ≠ metadataKey → ∃ t ∈ ts, t.name = e.name := by
  have hlen := length_fileOf es
  have hopen := @openFile_fileOf es (by omega) k
  rw [value_header hplain] at hopen
  dsimp only [asObject] at hopen
  -- every member is an entry, at its place in the data
  have hmem : ∀ p ∈ (pairsFrom 0 es).foldl push [], ∃ before e after, es = before ++ e :: after ∧
      p = (e.name, metaOf (before.flatMap Entry.bytes).length e) := fun p hp => by
    have hpair := (foldl_push_mem hp).resolve_right List.not_mem_nil
    obtain ⟨before, e, after, hes, rfl⟩ := mem_pairsFrom (by omega) hpair
    exact ⟨before, e, after, hes, by rw [Nat.zero_add]⟩
  have htensor : ∀ before e after, es = before ++ e :: after → ∃ t,
      tensorOf k (8 + (Utf8.encode (header es)).length) e.name
        (metaOf (before.flatMap Entry.bytes).length e) = .ok t ∧ t.Reads (fileOf es) e := by
    intro before e after hes
    have hdrop := drop_fileOf hes
    have hfit : (es.flatMap Entry.bytes).length = (before.flatMap Entry.bytes).length +
        (e.bytes.length + (after.flatMap Entry.bytes).length) := by
      rw [hes, List.flatMap_append, List.flatMap_cons, List.length_append, List.length_append]
    obtain ⟨t, ht, hname, hdtype, hshape, hoff, hnbytes⟩ := @tensorOf_metaOf k
      (8 + (Utf8.encode (header es)).length) (before.flatMap Entry.bytes).length e e.name (by omega)
    refine ⟨t, ht, hname, hdtype, hshape, hnbytes, by rw [hoff, hnbytes]; omega, ?_⟩
    rw [hoff, hdrop, hnbytes, List.take_left]
  have hall : ∃ ts, tensorsOf k (8 + (Utf8.encode (header es)).length)
      ((pairsFrom 0 es).foldl push []) = .ok ts := tensorsOf_ok fun p hp _ => by
    obtain ⟨before, e, after, hes, rfl⟩ := hmem p hp
    obtain ⟨t, ht, -⟩ := htensor before e after hes
    exact ⟨t, ht⟩
  obtain ⟨ts, hts⟩ := hall
  refine ⟨ts, hopen.trans hts, fun t ht => ?_, fun e he hmeta => ?_⟩
  · obtain ⟨p, hp, -, htp⟩ := (mem_tensorsOf hts).mp ht
    obtain ⟨before, e, after, hes, rfl⟩ := hmem p hp
    obtain ⟨t', ht', hreads⟩ := htensor before e after hes
    cases Outcome.ok.inj (htp.symm.trans ht')
    exact ⟨e, hes ▸ List.mem_append_right _ List.mem_cons_self, hreads⟩
  · have hkey : e.name ∈ ((pairsFrom 0 es).foldl push []).map Prod.fst :=
      foldl_push_keys.mpr (.inl (pairsFrom_keys 0 es ▸ List.mem_map_of_mem he))
    obtain ⟨p, hp, hname⟩ := List.mem_map.mp hkey
    obtain ⟨before, e', after, hes, rfl⟩ := hmem p hp
    obtain ⟨t, ht, hreads⟩ := htensor before e' after hes
    refine ⟨t, (mem_tensorsOf hts).mpr ⟨_, hp, ?_, ht⟩, hreads.name.trans hname⟩
    exact fun heq => hmeta (hname.symm.trans heq)

end Colibri.Safetensors
