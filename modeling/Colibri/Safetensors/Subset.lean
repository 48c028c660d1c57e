import Mathlib.Data.List.Nodup
import Colibri.Safetensors.Escapes
import Colibri.Safetensors.Shared

/-!
# Subsets of a shard set, and shards written anew

`write_subset` copies tensors of an opened set to files of their own, `shard-serve` streams
the same files to a peer, and the converter writes what it made with `write_shard`. All
three write `fileOf`. Opened again, in whatever order, the files have every tensor that was
written, with its type, shape and bytes, just when no name has a quote or a backslash
(`plain_of_reopens`, `reopens_of_plain`); of what the converter writes, the names also have
to be different from each other and from the key of the metadata, and the dimensions have
to be `f64`s. For tensors of an opened set that is so (`posed_of_opened`).

`pack` puts tensors into files up to a size, and loses none (`pack_flatten`). `Writes` is an entry
that stands for a tensor, `Copied` the claim about the files, and `copied_iff_reopens` the way from
the one to the other; `writeSubset_copiedIff` and `serve_copiedIff` are the two writers.
-/

namespace Colibri.Safetensors

open Batch JsonValue

/-! ## The writers -/

/-- The bytes in a tensor's range. -/
def Shards.data (s : Shards) (t : StTensor) : List UInt8 :=
  ((s.file t.fileIdx).drop t.off).take t.nbytes

/-- `read_raw` into a buffer of the tensor's length. -/
def Shards.readRaw (s : Shards) (name : List Char) : Outcome IoError (List UInt8) :=
  match s.find name with
  | none => .error .notFound
  | some t =>
    if 2 ^ 63 ≤ t.nbytes then .panic
    else if t.nbytes = 0 ∨ t.off + t.nbytes ≤ (s.file t.fileIdx).length then
      .ok (s.data t)
    else .error .unexpectedEof

/-- A tensor with the bytes that are read for it; there are as many as its header says. -/
def Shards.entry (s : Shards) (t : StTensor) : Outcome IoError Entry :=
  (s.readRaw t.name).bind fun bytes => .ok ⟨t.name, t.dtype, t.shape, bytes⟩

/-- The inner loop: what goes into a file that has `acc` bytes, and the rest. -/
def packMore (maxFileBytes : Nat) : Nat → List StTensor → List StTensor × List StTensor
  | _, [] => ([], [])
  | acc, t :: ts =>
    if wadd acc t.nbytes ≤ maxFileBytes then
      let (group, rest) := packMore maxFileBytes (wadd acc t.nbytes) ts
      (t :: group, rest)
    else ([], t :: ts)

/-- The outer loop; at most `n` files, at least one tensor in each. -/
def packN (maxFileBytes : Nat) : Nat → List StTensor → List (List StTensor)
  | 0, _ => []
  | _, [] => []
  | n + 1, t :: ts =>
    let (group, rest) := packMore maxFileBytes t.nbytes ts
    (t :: group) :: packN maxFileBytes n rest

def pack (maxFileBytes : Nat) (items : List StTensor) : List (List StTensor) :=
  packN maxFileBytes items.length items

def Shards.writeGroups (s : Shards) (groups : List (List StTensor)) :
    Outcome IoError (List (List UInt8)) :=
  groups.mapM fun group => (group.mapM s.entry).bind fun es => .ok (fileOf es)

def Shards.resolve (s : Shards) (names : List (List Char)) : Outcome IoError (List StTensor) :=
  names.mapM fun name =>
    match s.find name with
    | none => .error .notFound
    | some t => .ok t

/-- `write_subset`: the files, in the order they are written in. -/
def Shards.writeSubset (s : Shards) (names : List (List Char)) (maxFileBytes : Nat) :
    Outcome IoError (List (List UInt8)) :=
  (s.resolve names).bind fun items => s.writeGroups (pack maxFileBytes items)

/-- `cmd_shard_serve`: the files of a peer's names. The threads may read in any order; the
file is sent if all of them succeed. -/
def Shards.serve (s : Shards) (names : List (List Char)) : Outcome IoError (List (List UInt8)) :=
  s.writeGroups (pack 5000000000 (names.filterMap s.find))

def writeShard (tensors : List Entry) : List UInt8 := fileOf tensors

/-! ## Nothing is left out -/

theorem packMore_append (maxFileBytes acc : Nat) (ts : List StTensor) :
    (packMore maxFileBytes acc ts).1 ++ (packMore maxFileBytes acc ts).2 = ts := by
  induction ts generalizing acc with
  | nil => rfl
  | cons t ts ih =>
    rw [packMore]
    split
    · exact congrArg (t :: ·) (ih _)
    · rfl

theorem packN_flatten (maxFileBytes : Nat) {n : Nat} {ts : List StTensor} (h : ts.length ≤ n) :
    (packN maxFileBytes n ts).flatten = ts := by
  induction n generalizing ts with
  | zero => rw [List.length_eq_zero_iff.mp (Nat.le_zero.mp h)]; rfl
  | succ n ih =>
    cases ts with
    | nil => rfl
    | cons t ts =>
      have hparts := packMore_append maxFileBytes t.nbytes ts
      have hlen := congrArg List.length hparts
      rw [List.length_append] at hlen
      rw [packN]
      dsimp only
      rw [List.flatten_cons, ih (by rw [List.length_cons] at h; omega), List.cons_append, hparts]

/-- **Packing loses no tensor.** -/
theorem pack_flatten (maxFileBytes : Nat) (ts : List StTensor) :
    (pack maxFileBytes ts).flatten = ts := packN_flatten maxFileBytes (Nat.le_refl _)

theorem forall₂_of_mapM {α β ε : Type} {f : α → Outcome ε β} {xs : List α} {ys : List β}
    (h : xs.mapM f = .ok ys) : List.Forall₂ (fun x y => f x = .ok y) xs ys := by
  have hfollows := follows_mapM f xs
  rw [h] at hfollows
  exact hfollows

variable {files : List (List UInt8)}

/-- What is written if every read succeeds: the entries, cut into files. -/
theorem writeGroups_ok {s : Shards} {groups : List (List StTensor)}
    (h : s.writeGroups groups = .ok files) : ∃ ess : List (List Entry), files = ess.map fileOf ∧
      List.Forall₂ (fun t e => s.entry t = .ok e) groups.flatten ess.flatten := by
  have hall := forall₂_of_mapM h
  have hgroups : ∃ ess : List (List Entry), files = ess.map fileOf ∧
      List.Forall₂ (List.Forall₂ fun t e => s.entry t = .ok e) groups ess := by
    clear h
    induction hall with
    | nil => exact ⟨[], rfl, .nil⟩
    | cons hfile _ ih =>
      obtain ⟨es, hes, hfile⟩ := Outcome.bind_eq_ok hfile
      obtain ⟨ess, rfl, hrest⟩ := ih
      cases hfile
      exact ⟨es :: ess, rfl, .cons (forall₂_of_mapM hes) hrest⟩
  obtain ⟨ess, hfiles, hess⟩ := hgroups
  exact ⟨ess, hfiles, List.rel_flatten hess⟩

/-! ## Opening what was written -/

/-- The set has the tensor of the entry, with its bytes. -/
def Shards.Has (s : Shards) (e : Entry) : Prop :=
  ∃ t, s.find e.name = some t ∧ t.dtype = e.dtype ∧ t.shape = e.shape ∧
    t.nbytes = e.bytes.length ∧ t.off + t.nbytes ≤ (s.file t.fileIdx).length ∧ s.data t = e.bytes

/-- The files, opened in whatever order, have all the entries. -/
def Reopens (files : List (List UInt8)) (es : List Entry) : Prop :=
  ∀ fs, fs.Perm files → ∃ s : Shards, s.files = fs ∧ s.Opened ∧ ∀ e ∈ es, s.Has e

/-- What is needed besides plain names. -/
structure Posed (es : List Entry) : Prop where
  not_metadata : ∀ e ∈ es, e.name ≠ metadataKey
  exact : ∀ e ∈ es, ∀ d ∈ e.shape, Exact d
  unique : ∀ e ∈ es, ∀ e' ∈ es, e.name = e'.name → e = e'

section

variable {ess : List (List Entry)}

theorem openFrom_plain (hsmall : ∀ es ∈ ess, (fileOf es).length ≤ 2 ^ 53)
    (hplain : ∀ e ∈ ess.flatten, Plain e.name) {fs : List (List UInt8)}
    (hfs : ∀ f ∈ fs, f ∈ ess.map fileOf) : ∃ ts, openFrom 0 fs = .ok ts := by
  refine openFrom_ok fun i f hi => ?_
  obtain ⟨es, hes, rfl⟩ := List.mem_map.mp (hfs f (List.mem_of_getElem? hi))
  obtain ⟨ts, hts, -⟩ := openFile_plain (fun e he => hplain e (List.mem_flatten.mpr ⟨es, hes, he⟩))
    (hsmall es hes) (0 + i)
  exact ⟨ts, hts⟩

theorem Shards.exists_find {s : Shards} {name : List Char} (h : ∃ t ∈ s.tensors, t.name = name) :
    ∃ t, s.find name = some t := by
  obtain ⟨t, ht, hname⟩ := h
  exact Option.isSome_iff_exists.mp
    (List.find?_isSome.mpr ⟨t, List.mem_reverse.mpr ht, decide_eq_true hname⟩)

/-- **Plain names are enough**, with the conditions on names and dimensions. -/
theorem reopens_of_plain (hsmall : ∀ es ∈ ess, (fileOf es).length ≤ 2 ^ 53)
    (hplain : ∀ e ∈ ess.flatten, Plain e.name) (hposed : Posed ess.flatten) :
    Reopens (ess.map fileOf) ess.flatten := by
  intro fs hperm
  have hfs : ∀ f ∈ fs, f ∈ ess.map fileOf := fun f hf => hperm.subset hf
  obtain ⟨ts, hts⟩ := openFrom_plain hsmall hplain hfs
  -- every tensor is an entry of the file it is in
  have hreads : ∀ t ∈ ts, t.fileIdx < fs.length ∧ ∃ e ∈ ess.flatten,
      t.Reads (fs.getD t.fileIdx []) e := by
    intro t ht
    obtain ⟨i, f, ts', hi, hopen, ht'⟩ := (mem_openFrom hts).mp ht
    obtain ⟨es, hes, rfl⟩ := List.mem_map.mp (hfs f (List.mem_of_getElem? hi))
    obtain ⟨ts₀, hts₀, hread, -⟩ := openFile_plain
      (fun e he => hplain e (List.mem_flatten.mpr ⟨es, hes, he⟩)) (hsmall es hes) (0 + i)
    cases Outcome.ok.inj (hts₀.symm.trans hopen)
    obtain ⟨e, he, hr⟩ := hread t ht'
    have hidx : t.fileIdx = i := (openFile_ok hopen ht').1.trans (Nat.zero_add i)
    obtain ⟨hlt, -⟩ := List.getElem?_eq_some_iff.mp hi
    refine ⟨hidx ▸ hlt, e, List.mem_flatten.mpr ⟨es, hes, he⟩, ?_⟩
    rw [hidx, List.getD_eq_getElem?_getD, hi]
    exact hr
  refine ⟨⟨ts, fs, fun t ht => (hreads t ht).1, fun f hf => ?_⟩, rfl, hts, fun e he => ?_⟩
  · obtain ⟨es, hes, rfl⟩ := List.mem_map.mp (hfs f hf)
    exact Nat.lt_of_le_of_lt (hsmall es hes) (by decide)
  · obtain ⟨es, hes, hmem⟩ := List.mem_flatten.mp he
    obtain ⟨i, hi⟩ := List.mem_iff_getElem?.mp (hperm.symm.subset (List.mem_map_of_mem hes))
    obtain ⟨ts₀, hts₀, -, hall⟩ := openFile_plain
      (fun e he => hplain e (List.mem_flatten.mpr ⟨es, hes, he⟩)) (hsmall es hes) (0 + i)
    obtain ⟨t₀, ht₀, hname₀⟩ := hall e hmem (hposed.not_metadata e he)
    have ht₀ : t₀ ∈ ts := (mem_openFrom hts).mpr ⟨i, fileOf es, ts₀, hi, hts₀, ht₀⟩
    obtain ⟨t, ht⟩ := Shards.exists_find (s := ⟨ts, fs, fun t ht => (hreads t ht).1, _⟩)
      ⟨t₀, ht₀, hname₀⟩
    obtain ⟨htmem, htname⟩ := Shards.find_some ht
    obtain ⟨-, e', he', hr⟩ := hreads t htmem
    obtain rfl := hposed.unique e' he' e he (hr.name.symm.trans htname)
    refine ⟨t, ht, hr.dtype, ?_, hr.nbytes, hr.inside, hr.bytes⟩
    rw [hr.shape]
    exact (List.map_congr_left (hposed.exact e' he)).trans (List.map_id _)

/-- **Plain names are needed.** -/
theorem plain_of_reopens (h : Reopens (ess.map fileOf) ess.flatten) :
    ∀ e ∈ ess.flatten, Plain e.name := by
  obtain ⟨s, hfiles, hs, hhas⟩ := h _ (List.Perm.refl _)
  -- a name that is not plain is shorter than another one
  have hlonger : ∀ e ∈ ess.flatten, ¬ Plain e.name →
      ∃ e' ∈ ess.flatten, ¬ Plain e'.name ∧ e.name.length < e'.name.length := by
    intro e he hnot
    obtain ⟨t, hfind, -⟩ := hhas e he
    obtain ⟨htmem, htname⟩ := Shards.find_some hfind
    obtain ⟨i, f, ts, hi, hopen, ht⟩ := (mem_openFrom hs).mp htmem
    rw [hfiles] at hi
    obtain ⟨es, hes, rfl⟩ := List.mem_map.mp (List.mem_of_getElem? hi)
    have hlen := length_fileOf es
    have hsize := s.size_lt _ (hfiles ▸ List.mem_of_getElem? hi)
    obtain ⟨e', he', hnot', hlt⟩ := opened_longer (by omega) hopen ht (htname ▸ hnot)
    exact ⟨e', List.mem_flatten.mpr ⟨es, hes, he'⟩, hnot', htname ▸ hlt⟩
  intro e he
  by_contra hnot
  have hany : ∀ n, ∃ e ∈ ess.flatten, ¬ Plain e.name ∧ n ≤ e.name.length := by
    intro n
    induction n with
    | zero => exact ⟨e, he, hnot, Nat.zero_le _⟩
    | succ n ih =>
      obtain ⟨e', he', hnot', hle⟩ := ih
      obtain ⟨e'', he'', hnot'', hlt⟩ := hlonger e' he' hnot'
      exact ⟨e'', he'', hnot'', Nat.lt_of_le_of_lt hle hlt⟩
  obtain ⟨e', he', -, hle⟩ := hany ((ess.flatten.map Entry.name).flatten.length + 1)
  have hsub := (List.sublist_flatten_of_mem (List.mem_map_of_mem (f := Entry.name) he')).length_le
  omega

theorem posed_of_reopens (h : Reopens (ess.map fileOf) ess.flatten) : Posed ess.flatten := by
  obtain ⟨s, -, hs, hhas⟩ := h _ (List.Perm.refl _)
  refine ⟨fun e he => ?_, fun e he d hd => ?_, fun e he e' he' hname => ?_⟩
  · obtain ⟨t, hfind, -⟩ := hhas e he
    obtain ⟨htmem, htname⟩ := Shards.find_some hfind
    exact htname ▸ (hs.ok htmem).1
  · obtain ⟨t, hfind, -, hshape, -⟩ := hhas e he
    exact (hs.ok (Shards.find_some hfind).1).2 d (hshape ▸ hd)
  · obtain ⟨t, hfind, hdtype, hshape, -, -, hbytes⟩ := hhas e he
    obtain ⟨t', hfind', hdtype', hshape', -, -, hbytes'⟩ := hhas e' he'
    cases Option.some.inj ((hname ▸ hfind).symm.trans hfind')
    cases e
    cases e'
    simp only [Entry.mk.injEq]
    exact ⟨hname, hdtype.symm.trans hdtype', hshape.symm.trans hshape', hbytes.symm.trans hbytes'⟩

end

/-! ## Tensors of an opened set -/

/-- The files, opened in whatever order, have a tensor for each name, with the type, the
shape and the bytes of the one in the set. -/
def Shards.Copied (s : Shards) (names : List (List Char)) (files : List (List UInt8)) : Prop :=
  ∀ fs, fs.Perm files → ∃ s' : Shards, s'.files = fs ∧ s'.Opened ∧ ∀ name ∈ names,
    ∃ t t', s.find name = some t ∧ s'.find name = some t' ∧ t'.dtype = t.dtype ∧
      t'.shape = t.shape ∧ t'.nbytes = t.nbytes ∧
      t'.off + t'.nbytes ≤ (s'.file t'.fileIdx).length ∧ s'.data t' = s.data t

/-- What is written for a name. -/
def Shards.Writes (s : Shards) (name : List Char) (e : Entry) : Prop :=
  ∃ t, s.find name = some t ∧ e = ⟨name, t.dtype, t.shape, s.data t⟩ ∧
    (s.data t).length = t.nbytes

section

variable {s : Shards}

theorem readRaw_ok {name : List Char} {bytes : List UInt8} (h : s.readRaw name = .ok bytes) :
    ∃ t, s.find name = some t ∧ bytes = s.data t ∧ (s.data t).length = t.nbytes := by
  unfold Shards.readRaw at h
  split at h
  next => cases h
  next t ht =>
    split at h
    next => cases h
    next =>
      split at h
      next hin =>
        cases h
        refine ⟨t, ht, rfl, ?_⟩
        rw [Shards.data, List.length_take, List.length_drop]
        omega
      next => cases h

theorem writes_of_entry {name : List Char} {t : StTensor} {e : Entry} (ht : s.find name = some t)
    (h : s.entry t = .ok e) : s.Writes name e := by
  have hname := (Shards.find_some ht).2
  obtain ⟨bytes, hread, h⟩ := Outcome.bind_eq_ok h
  obtain ⟨t', ht', rfl, hlen⟩ := readRaw_ok hread
  rw [hname] at ht'
  cases Option.some.inj (ht.symm.trans ht')
  cases h
  exact ⟨t, ht, by rw [hname], hlen⟩

theorem forall_congr_of_forall₂ {α β : Type} {R : α → β → Prop} {P : α → Prop} {Q : β → Prop}
    {xs : List α} {ys : List β} (h : List.Forall₂ R xs ys) (hPQ : ∀ x y, R x y → (P x ↔ Q y)) :
    (∀ x ∈ xs, P x) ↔ ∀ y ∈ ys, Q y := by
  induction h with
  | nil => simp
  | cons hxy _ ih => rw [List.forall_mem_cons, List.forall_mem_cons, hPQ _ _ hxy, ih]

variable {names : List (List Char)}

/-- **Of tensors of an opened set, only the names matter.** -/
theorem posed_of_opened (hs : s.Opened) {es : List Entry}
    (h : List.Forall₂ s.Writes names es) : Posed es := by
  have hwrites : ∀ e ∈ es, s.Writes e.name e := fun e he => by
    obtain ⟨name, -, t, ht, rfl, hlen⟩ := exists_left h he
    exact ⟨t, ht, rfl, hlen⟩
  refine ⟨fun e he => ?_, fun e he d hd => ?_, fun e he e' he' hname => ?_⟩
  · obtain ⟨t, ht, -⟩ := hwrites e he
    obtain ⟨htmem, htname⟩ := Shards.find_some ht
    exact htname ▸ (hs.ok htmem).1
  · obtain ⟨t, ht, heq, -⟩ := hwrites e he
    rw [heq] at hd
    exact (hs.ok (Shards.find_some ht).1).2 d hd
  · obtain ⟨t, ht, heq, -⟩ := hwrites e he
    obtain ⟨t', ht', heq', -⟩ := hwrites e' he'
    cases Option.some.inj ((hname ▸ ht).symm.trans ht')
    rw [heq, heq', hname]

theorem copied_iff_reopens {es : List Entry}
    (h : List.Forall₂ s.Writes names es) (files : List (List UInt8)) :
    s.Copied names files ↔ Reopens files es := by
  refine forall₂_congr fun fs _ => exists_congr fun s' => and_congr_right fun _ =>
    and_congr_right fun _ => forall_congr_of_forall₂ h ?_
  rintro name e ⟨t, ht, rfl, hlen⟩
  constructor
  · rintro ⟨t₀, t', ht₀, ht', hdtype, hshape, hnbytes, hin, hdata⟩
    cases Option.some.inj (ht₀.symm.trans ht)
    exact ⟨t', ht', hdtype, hshape, hnbytes.trans hlen.symm, hin, hdata⟩
  · rintro ⟨t', ht', hdtype, hshape, hnbytes, hin, hdata⟩
    exact ⟨t, t', ht, ht', hdtype, hshape, hnbytes.trans hlen, hin, hdata⟩

/-- What both writers of a set's tensors come to: files of entries that are as in the set. -/
theorem writes_of_ok {items : List StTensor}
    (hitems : List.Forall₂ (fun name t => s.find name = some t) names items) {maxFileBytes : Nat}
    (h : s.writeGroups (pack maxFileBytes items) = .ok files) :
    ∃ ess : List (List Entry), files = ess.map fileOf ∧
      List.Forall₂ s.Writes names ess.flatten := by
  obtain ⟨ess, rfl, hentries⟩ := writeGroups_ok h
  rw [pack_flatten] at hentries
  refine ⟨ess, rfl, ?_⟩
  clear h
  generalize ess.flatten = es at hentries
  induction hitems generalizing es with
  | nil =>
    cases hentries
    exact .nil
  | cons ht _ ih =>
    cases hentries with
    | cons he hrest => exact .cons (writes_of_entry ht he) (ih _ hrest)

/-- The files of a set's tensors: the names have to be plain, and up to `2 ^ 53` bytes a file
that is enough. -/
def Shards.CopiedIff (s : Shards) (names : List (List Char)) (files : List (List UInt8)) : Prop :=
  (s.Copied names files → ∀ name ∈ names, Plain name) ∧
    ((∀ f ∈ files, f.length ≤ 2 ^ 53) → (∀ name ∈ names, Plain name) → s.Copied names files)

theorem copiedIff (hs : s.Opened) {items : List StTensor}
    (hitems : List.Forall₂ (fun name t => s.find name = some t) names items) {maxFileBytes : Nat}
    (h : s.writeGroups (pack maxFileBytes items) = .ok files) :
    s.CopiedIff names files := by
  obtain ⟨ess, rfl, hwrites⟩ := writes_of_ok hitems h
  have hplain : (∀ name ∈ names, Plain name) ↔ ∀ e ∈ ess.flatten, Plain e.name := by
    refine forall_congr_of_forall₂ hwrites ?_
    rintro name e ⟨t, -, rfl, -⟩
    exact Iff.rfl
  unfold Shards.CopiedIff
  rw [copied_iff_reopens hwrites, hplain]
  exact ⟨plain_of_reopens, fun hsmall hp => reopens_of_plain
    (fun es hes => hsmall _ (List.mem_map_of_mem hes)) hp (posed_of_opened hs hwrites)⟩

theorem writeSubset_copiedIff (hs : s.Opened) {maxFileBytes : Nat}
    (h : s.writeSubset names maxFileBytes = .ok files) :
    s.CopiedIff names files := by
  obtain ⟨items, hitems, h⟩ := Outcome.bind_eq_ok h
  refine copiedIff hs ?_ h
  refine (forall₂_of_mapM hitems).imp fun name t ht => ?_
  split at ht
  next => cases ht
  next t' ht' => exact (Outcome.ok.inj ht) ▸ ht'

theorem serve_copiedIff (hs : s.Opened)
    (hall : ∀ name ∈ names, (s.find name).isSome)
    (h : s.serve names = .ok files) : s.CopiedIff names files := by
  refine copiedIff hs ?_ h
  clear h
  induction names with
  | nil => exact .nil
  | cons name names ih =>
    obtain ⟨t, ht⟩ := Option.isSome_iff_exists.mp (hall name List.mem_cons_self)
    rw [List.filterMap_cons_some ht]
    exact .cons ht (ih fun x hx => hall x (List.mem_cons_of_mem _ hx))

theorem writeShard_reopens {es : List Entry} :
    (Reopens [writeShard es] es → (∀ e ∈ es, Plain e.name) ∧ Posed es) ∧
      ((writeShard es).length ≤ 2 ^ 53 → (∀ e ∈ es, Plain e.name) → Posed es →
        Reopens [writeShard es] es) := by
  have hone : Reopens [writeShard es] es ↔ Reopens ([es].map fileOf) [es].flatten := by
    rw [List.flatten_singleton]
    rfl
  rw [hone]
  refine ⟨fun h => ?_, fun hsmall hplain hposed => ?_⟩
  · have hplain := plain_of_reopens h
    have hposed := posed_of_reopens h
    rw [List.flatten_singleton] at hplain hposed
    exact ⟨hplain, hposed⟩
  · rw [← List.flatten_singleton (l := es)] at hplain hposed
    exact reopens_of_plain (fun es' hes => List.mem_singleton.mp hes ▸ hsmall) hplain hposed

end

theorem posed_of {es : List Entry} (hmeta : ∀ e ∈ es, e.name ≠ metadataKey)
    (hshape : ∀ e ∈ es, ∀ d ∈ e.shape, 0 ≤ d ∧ d ≤ 2 ^ 53)
    (hnames : (es.map Entry.name).Nodup) : Posed es := by
  refine ⟨hmeta, fun e he d hd => ?_, fun e he e' he' h => ?_⟩
  · obtain ⟨hpos, hle⟩ := hshape e he d hd
    obtain ⟨n, rfl⟩ := Int.eq_ofNat_of_zero_le hpos
    exact asI64_ofInt_of_le (by omega)
  · exact List.inj_on_of_nodup_map hnames he he' h

/-- A set of these tensors and no others. -/
theorem exists_written {es : List Entry} (hsmall : (writeShard es).length ≤ 2 ^ 53)
    (hplain : ∀ e ∈ es, Plain e.name) (hposed : Posed es) :
    ∃ s : Shards, s.Opened ∧ (∀ e ∈ es, s.Has e) ∧
      ∀ name, s.find name ≠ none → ∃ e ∈ es, e.name = name := by
  obtain ⟨s, hfiles, hs, hhas⟩ := writeShard_reopens.2 hsmall hplain hposed _ (List.Perm.refl _)
  refine ⟨s, hs, hhas, fun name hname => ?_⟩
  obtain ⟨t, ht⟩ := Option.ne_none_iff_exists'.mp hname
  obtain ⟨hmem, rfl⟩ := Shards.find_some ht
  obtain ⟨k, file, ts, hfile, hopen, hmem⟩ := (mem_openFrom hs).mp hmem
  rw [hfiles] at hfile
  have hfile : file = fileOf es := List.mem_singleton.mp (List.mem_of_getElem? hfile)
  obtain ⟨ts', hopen', hreads, -⟩ := openFile_plain hplain hsmall (0 + k)
  rw [hfile] at hopen
  cases Outcome.ok.inj (hopen.symm.trans hopen')
  obtain ⟨e, he, hread⟩ := hreads t hmem
  exact ⟨e, he, hread.name.symm⟩

/-! ## A name with a quote -/

theorem writeSubset_one {s : Shards} {e : Entry} (h : s.Has e) (hlen : e.bytes.length < 2 ^ 63) :
    s.writeSubset [e.name] 0 = .ok [fileOf [e]] := by
  obtain ⟨t, ht, hdtype, hshape, hnbytes, hin, hdata⟩ := h
  have hname := (Shards.find_some ht).2
  have hread : s.readRaw e.name = .ok e.bytes := by
    unfold Shards.readRaw
    rw [ht]
    dsimp only
    rw [if_neg (by omega), if_pos (.inr hin), hdata]
  have hentry : s.entry t = .ok e := by
    unfold Shards.entry
    rw [hname, hread, hdtype, hshape]
    rfl
  have hgroup : s.writeGroups [[t]] = .ok [fileOf [e]] := by
    unfold Shards.writeGroups
    simp only [List.mapM_cons, List.mapM_nil, hentry, Outcome.ok_bind, Outcome.pure_eq]
    rfl
  unfold Shards.writeSubset Shards.resolve
  simp only [List.mapM_cons, List.mapM_nil, ht, Outcome.ok_bind, Outcome.pure_eq]
  exact hgroup

/-- A byte under a name that needs an escape, and one under a plain name. -/
def quoted : Entry := ⟨['a', '"', 'b'], .u8, [1], [7]⟩
def unquoted : Entry := ⟨['a'], .u8, [1], [7]⟩

/-- The header that a writer with escapes gives the first. -/
def quotedText : List Char :=
  '{' :: '"' :: 'a' :: '\\' :: '"' :: 'b' :: '"' :: ':' :: (metaText 0 quoted ++ ['}'])

theorem value_quotedText : (value quotedText).1 = .obj [(quoted.name, metaOf 0 quoted)] := by
  have hscan : ∀ rest, scan ('a' :: '\\' :: '"' :: 'b' :: '"' :: rest) = (quoted.name, rest) := by
    intro rest
    rw [scan_plain (by decide) (by decide), scan_escape]
    show (_ :: (['"'] ++ (scan ('b' :: '"' :: rest)).1), (scan ('b' :: '"' :: rest)).2) = _
    rw [scan_plain (by decide) (by decide), scan_quote]
    rfl
  have hone := members_one (hscan _) (value_metaText 0 quoted ['}'])
  rw [quotedText, value_members hone]
  rfl

theorem length_quotedText : (Utf8.encode quotedText).length = 56 := by decide

def quotedFile : List UInt8 :=
  putWord64 (Utf8.encode quotedText).length ++ (Utf8.encode quotedText ++ [7])

/-- There is an opened set with a name of that kind. -/
theorem exists_quoted : ∃ s : Shards, s.Opened ∧ s.Has quoted := by
  have hopen := @openFile_text quotedText (List.cons_ne_nil _ _)
    (by rw [length_quotedText]; decide) [7] 0
  rw [value_quotedText] at hopen
  dsimp only [asObject] at hopen
  rw [length_quotedText] at hopen
  obtain ⟨t, ht, hname, hdtype, hshape, hoff, hnbytes⟩ :=
    @tensorOf_metaOf 0 (8 + 56) 0 quoted quoted.name (by decide)
  have htensors : tensorsOf 0 (8 + 56) [(quoted.name, metaOf 0 quoted)] = .ok [t] := by
    rw [tensorsOf, if_neg (by decide), ht]
    rfl
  have hfile : openFrom 0 [quotedFile] = .ok [t] := by
    rw [openFrom, quotedFile, length_quotedText, hopen, htensors]
    rfl
  have hlen : quotedFile.length = 65 := by decide
  have hdrop : quotedFile.drop 64 = [7] := by decide
  have hidx := (tensorOf_ok ht).2.1
  refine ⟨⟨[t], [quotedFile], fun t' ht' => ?_, fun f hf => ?_⟩, hfile, t, ?_, hdtype, ?_, hnbytes,
    ?_, ?_⟩
  · rw [List.mem_singleton.mp ht', hidx]
    exact Nat.one_pos
  · rw [List.mem_singleton.mp hf, hlen]
    decide
  · unfold Shards.find
    simp [hname]
  · rw [hshape]
    decide
  · show t.off + t.nbytes ≤ ([quotedFile].getD t.fileIdx []).length
    rw [hoff, hnbytes, hidx]
    exact Nat.le_of_eq hlen.symm
  · show (([quotedFile].getD t.fileIdx []).drop t.off).take t.nbytes = _
    rw [hoff, hnbytes, hidx]
    exact congrArg (List.take 1) hdrop

/-- **The files that are written, opened again.** Those of a set's tensors have all of them
just when no name has a quote or a backslash, and so has a converted shard when its names
are different, and are not the metadata's, and its dimensions are `f64`s; up to `2 ^ 53`
bytes a file. -/
theorem written_reopens (s : Shards) (hs : s.Opened) (names : List (List Char))
    (maxFileBytes : Nat) (files : List (List UInt8)) (es : List Entry) :
    (s.writeSubset names maxFileBytes = .ok files → s.CopiedIff names files) ∧
    ((∀ name ∈ names, (s.find name).isSome) → s.serve names = .ok files →
      s.CopiedIff names files) ∧
    (Reopens [writeShard es] es → (∀ e ∈ es, Plain e.name) ∧ Posed es) ∧
    ((writeShard es).length ≤ 2 ^ 53 → (∀ e ∈ es, Plain e.name) → Posed es →
      Reopens [writeShard es] es) :=
  ⟨writeSubset_copiedIff hs, fun hall h => serve_copiedIff hs hall h, writeShard_reopens.1,
    writeShard_reopens.2⟩

/-- A set with a plain name is copied. -/
theorem written_reopens_unquoted : ∃ (s : Shards) (names : List (List Char))
    (files : List (List UInt8)), s.Opened ∧ s.writeSubset names 0 = .ok files ∧
      s.Copied names files := by
  have hsmall : (writeShard [unquoted]).length ≤ 2 ^ 53 := by decide
  have hposed : Posed [unquoted] := by
    refine ⟨fun e he => ?_, fun e he d hd => ?_, fun e he e' he' _ => ?_⟩
    · rw [List.mem_singleton.mp he]
      decide
    · rw [List.mem_singleton.mp he] at hd
      rw [List.mem_singleton.mp hd]
      exact asI64_ofInt_of_le (n := 1) (by decide)
    · rw [List.mem_singleton.mp he, List.mem_singleton.mp he']
  have hplain : ∀ e ∈ [unquoted], Plain e.name := fun e he => by
    rw [List.mem_singleton.mp he]
    decide
  obtain ⟨s, -, hs, hhas⟩ := writeShard_reopens.2 hsmall hplain hposed _ (List.Perm.refl _)
  have hwrite := writeSubset_one (hhas unquoted (List.mem_singleton_self _)) (by decide)
  refine ⟨s, [unquoted.name], _, hs, hwrite, ((written_reopens s hs _ 0 _ []).1 hwrite).2 ?_ ?_⟩
  · exact fun f hf => List.mem_singleton.mp hf ▸ hsmall
  · exact fun name hname => List.mem_singleton.mp hname ▸ hplain unquoted
      (List.mem_singleton_self _)

/-- **A tensor that is lost**: the set is opened, the subset is written, and what was written
is not the tensor. -/
theorem quoted_lost : ∃ (s : Shards) (names : List (List Char)) (files : List (List UInt8)),
    s.Opened ∧ s.writeSubset names 0 = .ok files ∧ ¬ s.Copied names files := by
  obtain ⟨s, hs, hhas⟩ := exists_quoted
  have hwrite := writeSubset_one hhas (by decide)
  refine ⟨s, [quoted.name], _, hs, hwrite, fun h => ?_⟩
  have hplain := (writeSubset_copiedIff hs hwrite).1 h quoted.name (List.mem_singleton_self _)
  exact absurd hplain (by decide)

end Colibri.Safetensors
