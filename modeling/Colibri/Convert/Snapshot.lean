import Mathlib.Data.List.Perm.Basic
import Colibri.Lib.Blocks
import Colibri.Lib.Fanout
import Colibri.Safetensors.Subset
import Colibri.Serve.Request

/-!
# A snapshot converted

`convert_snapshot` makes the output directory, opens the snapshot and goes through it file by
file. The tensors of a file are handed out to threads in slices; of what they become the codes
are written first, then all that is floats, and a file of which nothing is kept is not written.
At the end `config.json` and the tokenizer's files are copied.

What a tensor becomes, and under which name, is a parameter. So is what the system answers
(`Io`): each directory, shard and copy can fail, and a shard whose writing fails is left as it
is, so that it is named apart from the finished ones.

> convertSnapshot_converted: what is on disk when it ends, however it ends
> convertFiles_ended: the same of the loop over the files
> convertFiles_threads: the number of threads has no part in a conversion that succeeds
> processNamesParallel_ok_iff: nor in the outputs of one file
> stage_lt_probe: no stage of the checkpoint is dropped

A conversion that succeeds leaves every output once and nothing else, each in the file of its
source, codes before floats and both in the order of the source, so that the projections of an
expert stay next to each other. The files can be opened again if the names allow it.
-/

namespace Colibri.Snapshot

open Batch Blocks Safetensors

/-! ## The driver -/

/-- `TensorOut`, with the bytes that are written. -/
inductive TensorOut where
  | skip
  | plain (t : Entry)
  | quant (codes scale : Entry)
  deriving DecidableEq

/-- `ConvertOpts`: what is looked at here; the rest is with what a tensor becomes. -/
structure ConvertOpts where
  deepseekV4 : Bool
  mtpLayers : Nat
  mtpOnly : Bool

structure ConvertStats where
  shardsWritten : Nat
  tensorsQuantized : Nat
  tensorsF32 : Nat
  tensorsSkipped : Nat
  bytesOut : Nat
  deriving DecidableEq

/-- A file that is written, by the number in its name. -/
structure OutFile where
  index : Nat
  entries : List Entry
  deriving DecidableEq

/-- What the system answers: the error of a call that fails. `copy` is of a file that exists. -/
structure Io (ε : Type) where
  createDirAll : Option ε
  openShards : Outcome ε Shards
  writeShard : OutFile → Option ε
  copy : String → Option ε

/-- What a conversion leaves: the files it finished, the one whose writing failed, and what it
returns. -/
structure Left (ε : Type) where
  files : List OutFile
  torn : Option OutFile
  res : Outcome ε ConvertStats

/-- The `n` of a name `mtp.<n>.…`. -/
def stageOf (name : List Char) : Option Nat := do
  let r ← "mtp.".toList.isPrefixOf? name
  let (n, _) ← Serve.splitOnce '.' r
  Serve.parseUsize n

def stages (s : Shards) : Nat :=
  match (s.tensors.filterMap fun t => stageOf t.name).max? with
  | none => 0
  | some m => (m + 1) % 2 ^ 64

/-- The options with the stages that the checkpoint has. -/
def ConvertOpts.probe (opts : ConvertOpts) (s : Shards) : ConvertOpts :=
  if opts.deepseekV4 ∧ 0 < stages s ∧ stages s ≠ opts.mtpLayers then
    { opts with mtpLayers := stages s }
  else opts

/-- The codes and the floats of a file so far, and the statistics. -/
structure Gathered where
  codes : List Entry
  floats : List Entry
  stats : ConvertStats

def Gathered.push (g : Gathered) : TensorOut → Gathered
  | .skip => { g with stats := { g.stats with tensorsSkipped := g.stats.tensorsSkipped + 1 } }
  | .plain t =>
    { g with
      floats := g.floats ++ [t]
      stats := { g.stats with tensorsF32 := g.stats.tensorsF32 + 1 } }
  | .quant codes scale =>
    { codes := g.codes ++ [codes]
      floats := g.floats ++ [scale]
      stats := { g.stats with tensorsQuantized := g.stats.tensorsQuantized + 1 } }

/-- What is written for a file. -/
def Gathered.write (g : Gathered) (fi : Nat) : Option OutFile × ConvertStats :=
  if g.codes.isEmpty && g.floats.isEmpty then (none, g.stats)
  else
    let codes := g.codes ++ g.floats
    (some ⟨fi, codes⟩,
      { g.stats with
        shardsWritten := g.stats.shardsWritten + 1
        bytesOut := g.stats.bytesOut + (codes.map fun t => t.bytes.length).sum })

/-- `by_file`: the names of each file's tensors. -/
def byFile (s : Shards) : List (Nat × List (List Char)) :=
  (List.range s.files.length).map fun fi =>
    (fi, (s.tensors.filter fun t => t.fileIdx = fi).map StTensor.name)

section

variable {ε : Type} (processOne : List Char → Outcome ε TensorOut)

/-- `process_names_parallel`, with at most `cap` threads. -/
def processNamesParallel (cap : Nat) (names : List (List Char)) : Outcome ε (List TensorOut) :=
  let n := names.length
  if n = 0 then .ok []
  else
    let nthreads := min cap n
    let chunk := (n + nthreads - 1) / nthreads
    Fanout.run processOne (chunks chunk names)

/-- The loop over the files, by the errors of `write_shard`. -/
def convertFiles (writeShard : OutFile → Option ε) (cap : Nat) :
    List (Nat × List (List Char)) → ConvertStats → Left ε
  | [], stats => ⟨[], none, .ok stats⟩
  | (fi, names) :: files, stats =>
    match processNamesParallel processOne cap names with
    | .ok outs =>
      match (outs.foldl Gathered.push ⟨[], [], stats⟩).write fi with
      | (none, stats) => convertFiles writeShard cap files stats
      | (some file, stats) =>
        match writeShard file with
        | some e => ⟨[], some file, .error e⟩
        | none =>
          let left := convertFiles writeShard cap files stats
          { left with files := file :: left.files }
    | .error e => ⟨[], none, .error e⟩
    | .panic => ⟨[], none, .panic⟩

end

/-- The files that are copied where they exist. -/
def copied : List String :=
  ["config.json", "tokenizer.json", "tokenizer_config.json", "generation_config.json",
    "special_tokens_map.json"]

/-- The end of `convert_snapshot`: the copies, and `Ok`. -/
def copyThrough {ε : Type} (io : Io ε) (opts : ConvertOpts) (stats : ConvertStats) :
    Outcome ε ConvertStats :=
  if opts.mtpOnly then .ok stats
  else
    match copied.findSome? io.copy with
    | some e => .error e
    | none => .ok stats

def convertSnapshot {ε : Type} (processOne : ConvertOpts → List Char → Outcome ε TensorOut)
    (opts : ConvertOpts) (cap : Nat) (io : Io ε) : Left ε :=
  match io.createDirAll, io.openShards with
  | some e, _ => ⟨[], none, .error e⟩
  | none, .error e => ⟨[], none, .error e⟩
  | none, .panic => ⟨[], none, .panic⟩
  | none, .ok s =>
    let left := convertFiles (processOne (opts.probe s)) io.writeShard cap (byFile s)
      ⟨0, 0, 0, 0, 0⟩
    match left.res with
    | .ok stats => { left with res := copyThrough io (opts.probe s) stats }
    | _ => left

/-! ## What is to come of a snapshot -/

def TensorOut.codes : TensorOut → List Entry
  | .quant codes _ => [codes]
  | _ => []

def TensorOut.floats : TensorOut → List Entry
  | .plain t => [t]
  | .quant _ scale => [scale]
  | .skip => []

def TensorOut.entries (out : TensorOut) : List Entry := out.codes ++ out.floats

/-- The order in a file. -/
def arrange (outs : List TensorOut) : List Entry :=
  outs.flatMap TensorOut.codes ++ outs.flatMap TensorOut.floats

/-- The file of the outputs, if there is something in it. -/
def shardOf (fi : Nat) (outs : List TensorOut) : Option OutFile :=
  if arrange outs = [] then none else some ⟨fi, arrange outs⟩

/-- What the statistics say of the outputs and the files. -/
structure Counted (stats : ConvertStats) (outs : List TensorOut) (files : List OutFile) : Prop where
  quantized : stats.tensorsQuantized = (outs.flatMap TensorOut.codes).length
  floats : stats.tensorsQuantized + stats.tensorsF32 = (outs.flatMap TensorOut.floats).length
  all : stats.tensorsQuantized + stats.tensorsF32 + stats.tensorsSkipped = outs.length
  shards : stats.shardsWritten = files.length
  bytes : stats.bytesOut = ((files.flatMap OutFile.entries).map fun t => t.bytes.length).sum

section

variable {ε : Type} (f : List Char → Outcome ε TensorOut)

/-- What a tensor becomes. -/
def outOf (name : List Char) : TensorOut :=
  match f name with
  | .ok out => out
  | _ => .skip

/-- The files of all tensors. -/
def shards (files : List (Nat × List (List Char))) : List OutFile :=
  files.filterMap fun file => shardOf file.1 (file.2.map (outOf f))

/-- Every tensor is converted, and the files have what comes of them. -/
structure Container (s : Shards) (files : List OutFile) (stats : ConvertStats) : Prop where
  processed : ∀ t ∈ s.tensors, ∃ out, f t.name = .ok out
  once : (files.flatMap OutFile.entries).Perm
    (s.tensors.flatMap fun t => (outOf f t.name).entries)
  /-- no file twice -/
  distinct : (files.map OutFile.index).Pairwise (· < ·)
  own : ∀ file ∈ files, file.entries =
    arrange ((s.tensors.filter fun t => t.fileIdx = file.index).map fun t => outOf f t.name)
  counted : ∃ outs, outs.Perm (s.tensors.map fun t => outOf f t.name) ∧ Counted stats outs files
  reopens : (∀ file ∈ files, (writeShard file.entries).length ≤ 2 ^ 53) →
    (∀ e ∈ files.flatMap OutFile.entries, Plain e.name) → Posed (files.flatMap OutFile.entries) →
      Reopens (files.map fun file => writeShard file.entries) (files.flatMap OutFile.entries)

/-- A tensor comes to `x`. The files before its own are finished, and nothing else is. -/
def StoppedAt (s : Shards) (files : List OutFile) (x : Outcome ε TensorOut) : Prop :=
  ∃ t ∈ s.tensors, f t.name = x ∧ files = shards f ((byFile s).take t.fileIdx) ∧
    ∀ t' ∈ s.tensors, t'.fileIdx < t.fileIdx → ∃ out, f t'.name = .ok out

/-- The writing of `file` fails. Its tensors and those of the files before it are converted, and the
files before it are finished. -/
structure TornAt (s : Shards) (files : List OutFile) (file : OutFile) : Prop where
  earlier : files = shards f ((byFile s).take file.index)
  own : file.entries =
    arrange ((s.tensors.filter fun t => t.fileIdx = file.index).map fun t => outOf f t.name)
  processed : ∀ t ∈ s.tensors, t.fileIdx ≤ file.index → ∃ out, f t.name = .ok out

end

section

variable {ε : Type} (processOne : ConvertOpts → List Char → Outcome ε TensorOut)
  (opts : ConvertOpts) (io : Io ε)

/-- The ways a conversion ends with an error, and what it then leaves. -/
inductive Failed : List OutFile → Option OutFile → ε → Prop
  | createDirAll {e : ε} (h : io.createDirAll = some e) : Failed [] none e
  | openShards {e : ε} (h : io.openShards = .error e) : Failed [] none e
  | tensor {s : Shards} {files : List OutFile} {e : ε} (hs : io.openShards = .ok s)
      (h : StoppedAt (processOne (opts.probe s)) s files (.error e)) : Failed files none e
  | writeShard {s : Shards} {files : List OutFile} {file : OutFile} {e : ε}
      (hs : io.openShards = .ok s) (h : TornAt (processOne (opts.probe s)) s files file)
      (he : io.writeShard file = some e) : Failed files (some file) e
  | copy {s : Shards} {files : List OutFile} {stats : ConvertStats} {name : String} {e : ε}
      (hs : io.openShards = .ok s) (h : Container (processOne (opts.probe s)) s files stats)
      (hname : name ∈ copied) (hcopies : opts.mtpOnly = false) (he : io.copy name = some e) :
      Failed files none e

/-- The ways a conversion panics: a thread that converts a tensor, or the opening. -/
inductive Panicked : List OutFile → Prop
  | openShards (h : io.openShards = .panic) : Panicked []
  | tensor {s : Shards} {files : List OutFile} (hs : io.openShards = .ok s)
      (h : StoppedAt (processOne (opts.probe s)) s files .panic) : Panicked files

/-- A conversion that succeeds: nothing failed. -/
structure Done (files : List OutFile) (stats : ConvertStats) : Prop where
  created : io.createDirAll = none
  opened : ∃ s, io.openShards = .ok s ∧ Container (processOne (opts.probe s)) s files stats
  written : ∀ file ∈ files, io.writeShard file = none
  copies : opts.mtpOnly = false → ∀ name ∈ copied, io.copy name = none

/-- What a conversion leaves behind, however it ends. -/
def Converted : Left ε → Prop
  | ⟨files, torn, .ok stats⟩ => torn = none ∧ Done processOne opts io files stats
  | ⟨files, torn, .error e⟩ => Failed processOne opts io files torn e
  | ⟨files, torn, .panic⟩ => torn = none ∧ Panicked processOne opts io files

end

/-! ## The stages -/

variable {t : StTensor}

/-- With the options that are used, no stage of the checkpoint is dropped. -/
theorem stage_lt_probe {opts : ConvertOpts} {s : Shards} (hv4 : opts.deepseekV4 = true)
    (hfit : ∀ t ∈ s.tensors, ∀ n, stageOf t.name = some n → n + 1 < 2 ^ 64)
    (ht : t ∈ s.tensors) {n : Nat} (hn : stageOf t.name = some n) :
    n < (opts.probe s).mtpLayers := by
  have hmem : n ∈ s.tensors.filterMap fun t => stageOf t.name :=
    List.mem_filterMap.mpr ⟨t, ht, hn⟩
  have hstages : n < stages s := by
    unfold stages
    split
    next hnone =>
      rw [List.max?_eq_none_iff.mp hnone] at hmem
      cases hmem
    next m hmax =>
      obtain ⟨hm, hle⟩ := List.max?_eq_some_iff.mp hmax
      obtain ⟨t', ht', hm⟩ := List.mem_filterMap.mp hm
      rw [Nat.mod_eq_of_lt (hfit t' ht' m hm)]
      exact Nat.lt_succ_of_le (hle n hmem)
  unfold ConvertOpts.probe
  split
  next => exact hstages
  next hsame =>
    by_contra hlt
    exact hsame ⟨hv4, by omega, by omega⟩

/-! ## The threads -/

section

variable {ε : Type} {f : List Char → Outcome ε TensorOut} {cap : Nat} {names : List (List Char)}

theorem flatten_slices (hcap : 0 < cap) (hne : names.length ≠ 0) :
    (chunks ((names.length + min cap names.length - 1) / min cap names.length) names).flatten =
      names := by
  refine flatten_chunks (Nat.div_pos ?_ ?_) names
  · omega
  · omega

/-- **The number of threads does not show.** -/
theorem processNamesParallel_ok_iff (hcap : 0 < cap) {outs : List TensorOut} :
    processNamesParallel f cap names = .ok outs ↔ names.mapM f = .ok outs := by
  unfold processNamesParallel
  dsimp only
  split
  next hzero =>
    rw [List.length_eq_zero_iff.mp hzero]
    exact Iff.rfl
  next hne => rw [Fanout.run_ok_iff, flatten_slices hcap hne]

/-- The error is that of the first tensor that has one. -/
theorem processNamesParallel_error (hcap : 0 < cap) {e : ε}
    (h : processNamesParallel f cap names = .error e) : names.mapM f = .error e := by
  unfold processNamesParallel at h
  dsimp only at h
  split at h
  next => cases h
  next hne =>
    have herror := Fanout.error_of_run h
    rwa [flatten_slices hcap hne] at herror

theorem processNamesParallel_panic (hcap : 0 < cap)
    (h : processNamesParallel f cap names = .panic) : ∃ name ∈ names, f name = .panic := by
  unfold processNamesParallel at h
  dsimp only at h
  split at h
  next => cases h
  next hne =>
    have hpanic := Fanout.panic_of_run h
    rwa [flatten_slices hcap hne] at hpanic

theorem outs_eq {outs : List TensorOut} (h : names.mapM f = .ok outs) :
    outs = names.map (outOf f) := by
  have hall := forall₂_of_mapM h
  clear h
  induction hall with
  | nil => rfl
  | cons hout _ ih => rw [List.map_cons, ← ih, outOf, hout]

end

/-! ## A file -/

theorem gather_eq (outs : List TensorOut) (g : Gathered) :
    (outs.foldl Gathered.push g).codes = g.codes ++ outs.flatMap TensorOut.codes ∧
      (outs.foldl Gathered.push g).floats = g.floats ++ outs.flatMap TensorOut.floats := by
  induction outs generalizing g with
  | nil => exact ⟨(List.append_nil _).symm, (List.append_nil _).symm⟩
  | cons out outs ih =>
    obtain ⟨hcodes, hfloats⟩ := ih (g.push out)
    rw [List.foldl_cons, hcodes, hfloats, List.flatMap_cons, List.flatMap_cons]
    cases out <;> simp [Gathered.push, TensorOut.codes, TensorOut.floats]

theorem write_file (fi : Nat) (outs : List TensorOut) (stats : ConvertStats) :
    ((outs.foldl Gathered.push ⟨[], [], stats⟩).write fi).1 = shardOf fi outs := by
  obtain ⟨hcodes, hfloats⟩ := gather_eq outs ⟨[], [], stats⟩
  rw [List.nil_append] at hcodes hfloats
  unfold Gathered.write shardOf arrange
  rw [hcodes, hfloats]
  split
  next h =>
    rw [Bool.and_eq_true, List.isEmpty_iff, List.isEmpty_iff] at h
    rw [if_pos (by rw [h.1, h.2]; rfl)]
  next h =>
    rw [if_neg]
    intro hnil
    rw [List.append_eq_nil_iff] at hnil
    rw [hnil.1, hnil.2] at h
    exact h rfl

variable {g : Gathered}

/-- An output is counted once. -/
theorem counted_push {outs : List TensorOut} {files : List OutFile}
    (h : Counted g.stats outs files) (out : TensorOut) :
    Counted (g.push out).stats (outs ++ [out]) files := by
  have hcodes : ((outs ++ [out]).flatMap TensorOut.codes).length =
      g.stats.tensorsQuantized + out.codes.length := by
    rw [List.flatMap_append, List.length_append, List.flatMap_singleton, h.quantized]
  have hfloats : ((outs ++ [out]).flatMap TensorOut.floats).length =
      g.stats.tensorsQuantized + g.stats.tensorsF32 + out.floats.length := by
    rw [List.flatMap_append, List.length_append, List.flatMap_singleton, h.floats]
  have hall : (outs ++ [out]).length = g.stats.tensorsQuantized + g.stats.tensorsF32 +
      g.stats.tensorsSkipped + 1 := by
    rw [List.length_append, List.length_singleton, h.all]
  cases out with
  | skip => exact ⟨hcodes.symm, hfloats.symm, hall.symm, h.shards, h.bytes⟩
  | plain t =>
    refine ⟨hcodes.symm, hfloats.symm, hall.symm ▸ ?_, h.shards, h.bytes⟩
    simp only [Gathered.push]
    omega
  | quant codes scale =>
    refine ⟨hcodes.symm, hfloats.symm ▸ ?_, hall.symm ▸ ?_, h.shards, h.bytes⟩
    · simp only [Gathered.push, TensorOut.floats, List.length_singleton]
      omega
    · simp only [Gathered.push]
      omega

theorem counted_gather {outs : List TensorOut} {files : List OutFile} (more : List TensorOut)
    (h : Counted g.stats outs files) :
    Counted (more.foldl Gathered.push g).stats (outs ++ more) files := by
  induction more generalizing g outs with
  | nil => rwa [List.append_nil]
  | cons out more ih =>
    rw [List.foldl_cons, List.append_cons]
    exact ih (counted_push h out)

theorem counted_write {outs : List TensorOut} {files : List OutFile}
    (h : Counted g.stats outs files) (fi : Nat) :
    Counted (g.write fi).2 outs (files ++ (g.write fi).1.toList) := by
  unfold Gathered.write
  split
  next => rwa [Option.toList_none, List.append_nil]
  next =>
    refine ⟨h.quantized, h.floats, h.all, ?_, ?_⟩
    · rw [Option.toList_some, List.length_append, List.length_singleton, ← h.shards]
    · rw [Option.toList_some, List.flatMap_append, List.flatMap_singleton, List.map_append,
        List.sum_append, ← h.bytes]

/-- The statistics after a file. -/
def fileStats (fi : Nat) (outs : List TensorOut) (stats : ConvertStats) : ConvertStats :=
  ((outs.foldl Gathered.push ⟨[], [], stats⟩).write fi).2

variable {stats : ConvertStats}

theorem counted_file {outs : List TensorOut} {files : List OutFile}
    (h : Counted stats outs files) (fi : Nat) (more : List TensorOut) :
    Counted (fileStats fi more stats) (outs ++ more) (files ++ (shardOf fi more).toList) := by
  rw [← write_file fi more stats]
  exact counted_write (counted_gather more h) fi

/-! ## All files -/

section

variable {ε : Type} {f : List Char → Outcome ε TensorOut} {io : OutFile → Option ε} {cap : Nat}

/-- The file whose writing fails, if there is one to write. -/
def tear (io : OutFile → Option ε) (file : Option OutFile) : Option (OutFile × ε) :=
  file.bind fun file => (io file).map fun e => (file, e)

theorem tear_eq_none {file : Option OutFile} :
    tear io file = none ↔ ∀ o ∈ file.toList, io o = none := by
  cases file <;> simp [tear]

theorem tear_eq_some {file : Option OutFile} {o : OutFile} {e : ε} :
    tear io file = some (o, e) ↔ file = some o ∧ io o = some e := by
  cases file with
  | none => simp [tear]
  | some o' =>
    rw [tear, Option.bind_some, Option.map_eq_some_iff]
    constructor
    · rintro ⟨e', he, heq⟩
      cases heq
      exact ⟨rfl, he⟩
    · rintro ⟨heq, he⟩
      cases heq
      exact ⟨e, he, rfl⟩

/-- A file whose tensors are converted is written, if there is something in it. -/
theorem convertFiles_cons {names : List (List Char)} {outs : List TensorOut}
    (h : processNamesParallel f cap names = .ok outs) (fi : Nat)
    (srcs : List (Nat × List (List Char))) (stats : ConvertStats) :
    convertFiles f io cap ((fi, names) :: srcs) stats =
      match tear io (shardOf fi outs) with
      | some (file, e) => ⟨[], some file, .error e⟩
      | none =>
        let left := convertFiles f io cap srcs (fileStats fi outs stats)
        { left with files := (shardOf fi outs).toList ++ left.files } := by
  rw [convertFiles, h, ← write_file fi outs stats, fileStats]
  dsimp only
  generalize (outs.foldl Gathered.push ⟨[], [], stats⟩).write fi = written
  obtain ⟨_ | file, stats'⟩ := written
  · rfl
  · cases hio : io file with
    | none => simp [tear, hio]
    | some e => simp [tear, hio]

theorem shards_cons (fi : Nat) (names : List (List Char)) (srcs : List (Nat × List (List Char))) :
    shards f ((fi, names) :: srcs) =
      (shardOf fi (names.map (outOf f))).toList ++ shards f srcs := by
  unfold shards
  rw [List.filterMap_cons]
  cases shardOf fi (names.map (outOf f)) <;> rfl

/-- Of the sources, one has a name that comes to `x`, and those before it are finished. -/
def StoppedIn (f : List Char → Outcome ε TensorOut) (srcs : List (Nat × List (List Char)))
    (files : List OutFile) (x : Outcome ε TensorOut) : Prop :=
  ∃ k src, srcs[k]? = some src ∧ (∃ name ∈ src.2, f name = x) ∧
    files = shards f (srcs.take k) ∧
    ∀ src ∈ srcs.take k, ∀ name ∈ src.2, ∃ out, f name = .ok out

/-- Of the sources, one whose names are all converted gives `file`, and those before it are
finished. -/
def TornIn (f : List Char → Outcome ε TensorOut) (srcs : List (Nat × List (List Char)))
    (files : List OutFile) (file : OutFile) : Prop :=
  ∃ k src, srcs[k]? = some src ∧ shardOf src.1 (src.2.map (outOf f)) = some file ∧
    files = shards f (srcs.take k) ∧
    ∀ src ∈ srcs.take (k + 1), ∀ name ∈ src.2, ∃ out, f name = .ok out

/-- How the loop ends. -/
def Ended (f : List Char → Outcome ε TensorOut) (io : OutFile → Option ε)
    (srcs : List (Nat × List (List Char))) : Left ε → Prop
  | ⟨files, torn, .ok _⟩ => torn = none ∧ (∀ file ∈ files, io file = none) ∧
    (∀ src ∈ srcs, ∀ name ∈ src.2, ∃ out, f name = .ok out) ∧ files = shards f srcs
  | ⟨files, none, .error e⟩ => StoppedIn f srcs files (.error e)
  | ⟨files, some file, .error e⟩ => TornIn f srcs files file ∧ io file = some e
  | ⟨files, torn, .panic⟩ => torn = none ∧ StoppedIn f srcs files .panic

variable {srcs : List (Nat × List (List Char))}

theorem stoppedIn_head {src : Nat × List (List Char)}
    {x : Outcome ε TensorOut} (h : ∃ name ∈ src.2, f name = x) :
    StoppedIn f (src :: srcs) [] x :=
  ⟨0, src, rfl, h, rfl, List.forall_mem_nil _⟩

theorem StoppedIn.cons {names : List (List Char)}
    {files : List OutFile} {x : Outcome ε TensorOut} (h : StoppedIn f srcs files x)
    (hnames : ∀ name ∈ names, ∃ out, f name = .ok out) (fi : Nat) :
    StoppedIn f ((fi, names) :: srcs) ((shardOf fi (names.map (outOf f))).toList ++ files) x := by
  obtain ⟨k, src, hsrc, hname, rfl, hbefore⟩ := h
  refine ⟨k + 1, src, hsrc, hname, ?_, ?_⟩
  · rw [List.take_succ_cons, shards_cons]
  · rw [List.take_succ_cons]
    exact List.forall_mem_cons.mpr ⟨hnames, hbefore⟩

theorem files_of_ended {left : Left ε}
    (h : Ended f io srcs left) (hok : left.res = .ok stats) :
    left.files = shards f srcs := by
  obtain ⟨files, torn, res⟩ := left
  cases hok
  exact h.2.2.2

theorem tornIn_head {fi : Nat} {names : List (List Char)}
    {file : OutFile} (hnames : ∀ name ∈ names, ∃ out, f name = .ok out)
    (h : shardOf fi (names.map (outOf f)) = some file) :
    TornIn f ((fi, names) :: srcs) [] file := by
  refine ⟨0, (fi, names), rfl, h, rfl, ?_⟩
  rw [List.take_succ_cons, List.take_zero]
  exact List.forall_mem_singleton.mpr hnames

theorem TornIn.cons {names : List (List Char)}
    {files : List OutFile} {file : OutFile} (h : TornIn f srcs files file)
    (hnames : ∀ name ∈ names, ∃ out, f name = .ok out) (fi : Nat) :
    TornIn f ((fi, names) :: srcs) ((shardOf fi (names.map (outOf f))).toList ++ files) file := by
  obtain ⟨k, src, hsrc, hfile, rfl, hbefore⟩ := h
  refine ⟨k + 1, src, hsrc, hfile, ?_, ?_⟩
  · rw [List.take_succ_cons, shards_cons]
  · rw [List.take_succ_cons]
    exact List.forall_mem_cons.mpr ⟨hnames, hbefore⟩

theorem ended_cons {names : List (List Char)} (h : ∀ name ∈ names, ∃ out, f name = .ok out)
    (fi : Nat) (hio : ∀ file ∈ (shardOf fi (names.map (outOf f))).toList, io file = none)
    {left : Left ε} (hleft : Ended f io srcs left) :
    Ended f io ((fi, names) :: srcs)
      { left with files := (shardOf fi (names.map (outOf f))).toList ++ left.files } := by
  obtain ⟨files, torn, res⟩ := left
  cases res with
  | ok stats =>
    obtain ⟨rfl, hwritten, hok, rfl⟩ := hleft
    refine ⟨rfl, List.forall_mem_append.mpr ⟨hio, hwritten⟩, List.forall_mem_cons.mpr ⟨h, hok⟩, ?_⟩
    exact (shards_cons fi names srcs).symm
  | error e =>
    cases torn with
    | none => exact StoppedIn.cons hleft h fi
    | some file => exact ⟨hleft.1.cons h fi, hleft.2⟩
  | panic => exact ⟨hleft.1, hleft.2.cons h fi⟩

/-- **How the loop ends**, by induction on the files. -/
theorem convertFiles_ended (hcap : 0 < cap) (srcs : List (Nat × List (List Char)))
    (stats : ConvertStats) : Ended f io srcs (convertFiles f io cap srcs stats) := by
  induction srcs generalizing stats with
  | nil => exact ⟨rfl, List.forall_mem_nil _, List.forall_mem_nil _, rfl⟩
  | cons src srcs ih =>
    obtain ⟨fi, names⟩ := src
    cases hnames : processNamesParallel f cap names with
    | ok outs =>
      have hmap := (processNamesParallel_ok_iff hcap).mp hnames
      rw [convertFiles_cons hnames, outs_eq hmap]
      split
      next file e htear =>
        obtain ⟨hfile, he⟩ := tear_eq_some.mp htear
        exact ⟨tornIn_head (ok_of_mapM hmap) hfile, he⟩
      next htear => exact ended_cons (ok_of_mapM hmap) fi (tear_eq_none.mp htear) (ih _)
    | error e =>
      rw [convertFiles, hnames]
      exact stoppedIn_head (Fanout.exists_error (processNamesParallel_error hcap hnames))
    | panic =>
      rw [convertFiles, hnames]
      exact ⟨rfl, stoppedIn_head (processNamesParallel_panic hcap hnames)⟩

variable {stats' : ConvertStats}

/-- An end without error goes through every file. -/
theorem outs_of_ok {fi : Nat} {names : List (List Char)}
    (h : (convertFiles f io cap ((fi, names) :: srcs) stats).res = .ok stats') :
    ∃ outs, processNamesParallel f cap names = .ok outs ∧ tear io (shardOf fi outs) = none ∧
      (convertFiles f io cap srcs (fileStats fi outs stats)).res = .ok stats' := by
  cases hnames : processNamesParallel f cap names with
  | ok outs =>
    rw [convertFiles_cons hnames] at h
    split at h
    next => cases h
    next htear => exact ⟨outs, rfl, htear, h⟩
  | error e =>
    rw [convertFiles, hnames] at h
    cases h
  | panic =>
    rw [convertFiles, hnames] at h
    cases h

/-- Such an end is the same for every number of threads. -/
theorem convertFiles_threads (hcap : 0 < cap) {cap' : Nat} (hcap' : 0 < cap')
    (h : (convertFiles f io cap srcs stats).res = .ok stats') :
    convertFiles f io cap' srcs stats = convertFiles f io cap srcs stats := by
  induction srcs generalizing stats with
  | nil => rfl
  | cons src srcs ih =>
    obtain ⟨fi, names⟩ := src
    obtain ⟨outs, hnames, htear, hrest⟩ := outs_of_ok h
    have hnames' : processNamesParallel f cap' names = .ok outs :=
      (processNamesParallel_ok_iff hcap').mpr ((processNamesParallel_ok_iff hcap).mp hnames)
    rw [convertFiles_cons hnames, convertFiles_cons hnames', htear]
    dsimp only
    rw [ih hrest]

/-- **The counts at the end** are those of all outputs and all files. -/
theorem convertFiles_counted (hcap : 0 < cap)
    {outs : List TensorOut} {files : List OutFile}
    (hcounted : Counted stats outs files)
    (h : (convertFiles f io cap srcs stats).res = .ok stats') :
    Counted stats' (outs ++ srcs.flatMap fun src => src.2.map (outOf f))
      (files ++ shards f srcs) := by
  induction srcs generalizing stats outs files with
  | nil =>
    cases h
    rw [List.flatMap_nil, List.append_nil, shards, List.filterMap_nil, List.append_nil]
    exact hcounted
  | cons src srcs ih =>
    obtain ⟨fi, names⟩ := src
    obtain ⟨more, hnames, -, hrest⟩ := outs_of_ok h
    rw [outs_eq ((processNamesParallel_ok_iff hcap).mp hnames)] at hrest
    rw [List.flatMap_cons, shards_cons, ← List.append_assoc, ← List.append_assoc]
    exact ih (counted_file hcounted fi _) hrest

end

/-! ## The tensors of all files -/

section

variable {β : Type} {s : Shards}

/-- The tensors of the first files, each once. -/
theorem flatMap_below (ts : List StTensor) (g : StTensor → List β) (n : Nat) :
    ((List.range n).flatMap fun fi => (ts.filter fun t => t.fileIdx = fi).flatMap g).Perm
      ((ts.filter fun t => t.fileIdx < n).flatMap g) := by
  induction n with
  | zero => simp
  | succ n ih =>
    have hsplit := List.filter_append_perm (fun t : StTensor => decide (t.fileIdx < n))
      (ts.filter fun t => t.fileIdx < n + 1)
    have hbelow : (ts.filter fun t => t.fileIdx < n + 1).filter (fun t => t.fileIdx < n) =
        ts.filter fun t => t.fileIdx < n := by
      rw [List.filter_filter]
      refine List.filter_congr fun t _ => ?_
      rw [← Bool.decide_and, decide_eq_decide]
      omega
    have hat : (ts.filter fun t => t.fileIdx < n + 1).filter (fun t => !decide (t.fileIdx < n)) =
        ts.filter fun t => t.fileIdx = n := by
      rw [List.filter_filter]
      refine List.filter_congr fun t _ => ?_
      rw [← decide_not, ← Bool.decide_and, decide_eq_decide]
      omega
    rw [hbelow, hat] at hsplit
    rw [List.range_succ, List.flatMap_append, List.flatMap_singleton]
    refine List.Perm.trans (ih.append_right _) ?_
    rw [← List.flatMap_append]
    exact hsplit.flatMap_right g

/-- Every tensor is in one file. -/
theorem flatMap_byFile (s : Shards) (g : List Char → List β) :
    ((byFile s).flatMap fun src => src.2.flatMap g).Perm (s.tensors.flatMap fun t => g t.name) := by
  have hbelow := flatMap_below s.tensors (fun t => g t.name) s.files.length
  rw [List.filter_eq_self.mpr fun t ht => decide_eq_true (s.fileIdx_lt t ht)] at hbelow
  unfold byFile
  rw [List.flatMap_map]
  simpa only [List.flatMap_map] using hbelow

theorem getElem?_byFile {k : Nat} {src : Nat × List (List Char)} (h : (byFile s)[k]? = some src)
    {name : List Char} (hname : name ∈ src.2) :
    ∃ t ∈ s.tensors, t.fileIdx = k ∧ t.name = name := by
  unfold byFile at h
  rw [List.getElem?_map] at h
  obtain ⟨fi, hfi, rfl⟩ := Option.map_eq_some_iff.mp h
  obtain ⟨hlt, hidx⟩ := List.getElem?_eq_some_iff.mp hfi
  rw [List.getElem_range] at hidx
  obtain ⟨t, ht, hname⟩ := List.mem_map.mp hname
  obtain ⟨ht, hfile⟩ := List.mem_filter.mp ht
  exact ⟨t, ht, (of_decide_eq_true hfile).trans hidx.symm, hname⟩

theorem exists_take_byFile (ht : t ∈ s.tensors) {k : Nat} (hk : t.fileIdx < k) :
    ∃ src ∈ (byFile s).take k, t.name ∈ src.2 := by
  have hfile := s.fileIdx_lt t ht
  unfold byFile
  rw [← List.map_take, List.take_range]
  refine ⟨_, List.mem_map.mpr ⟨t.fileIdx, List.mem_range.mpr (by omega), rfl⟩, ?_⟩
  exact List.mem_map_of_mem (List.mem_filter.mpr ⟨ht, decide_eq_true rfl⟩)

theorem exists_byFile (ht : t ∈ s.tensors) : ∃ src ∈ byFile s, t.name ∈ src.2 := by
  obtain ⟨src, hsrc, hname⟩ := exists_take_byFile ht (Nat.lt_succ_self _)
  exact ⟨src, List.mem_of_mem_take hsrc, hname⟩

end

/-! ## The files that are written -/

section

variable {ε : Type} (f : List Char → Outcome ε TensorOut)

theorem arrange_perm (outs : List TensorOut) :
    (arrange outs).Perm (outs.flatMap TensorOut.entries) :=
  List.flatMap_append_perm outs TensorOut.codes TensorOut.floats

theorem entries_shardOf (fi : Nat) (outs : List TensorOut) :
    (shardOf fi outs).toList.flatMap OutFile.entries = arrange outs := by
  unfold shardOf
  split
  next h => exact h.symm
  next => rw [Option.toList_some, List.flatMap_singleton]

theorem entries_shards (srcs : List (Nat × List (List Char))) :
    ((shards f srcs).flatMap OutFile.entries).Perm
      (srcs.flatMap fun src => src.2.flatMap fun name => (outOf f name).entries) := by
  induction srcs with
  | nil => exact List.Perm.nil
  | cons src srcs ih =>
    obtain ⟨fi, names⟩ := src
    rw [shards_cons, List.flatMap_append, entries_shardOf, List.flatMap_cons]
    refine List.Perm.append ?_ ih
    refine (arrange_perm _).trans (List.Perm.of_eq ?_)
    rw [List.flatMap_map]

theorem shardOf_index {fi : Nat} {outs : List TensorOut} {file : OutFile}
    (h : shardOf fi outs = some file) : file = ⟨fi, arrange outs⟩ := by
  unfold shardOf at h
  split at h
  next => cases h
  next =>
    cases h
    rfl

theorem index_shards (srcs : List (Nat × List (List Char))) :
    ((shards f srcs).map OutFile.index).Sublist (srcs.map Prod.fst) := by
  induction srcs with
  | nil => exact List.Sublist.slnil
  | cons src srcs ih =>
    obtain ⟨fi, names⟩ := src
    rw [shards_cons, List.map_append, List.map_cons]
    cases hfile : shardOf fi (names.map (outOf f)) with
    | none => exact ih.cons _
    | some file =>
      cases shardOf_index hfile
      exact ih.cons_cons _

theorem distinct_shards (s : Shards) :
    ((shards f (byFile s)).map OutFile.index).Pairwise (· < ·) := by
  refine List.Pairwise.sublist (index_shards f _) ?_
  have hfst : (byFile s).map Prod.fst = List.range s.files.length := by
    unfold byFile
    rw [List.map_map]
    exact List.map_id _
  rw [hfst]
  exact List.pairwise_lt_range

theorem own_shards {s : Shards} {file : OutFile} (h : file ∈ shards f (byFile s)) :
    file.entries =
      arrange ((s.tensors.filter fun t => t.fileIdx = file.index).map fun t => outOf f t.name) := by
  obtain ⟨src, hsrc, hfile⟩ := List.mem_filterMap.mp h
  obtain ⟨fi, -, rfl⟩ := List.mem_map.mp hsrc
  cases shardOf_index hfile
  dsimp only
  rw [List.map_map]
  rfl

end

/-! ## The conversion -/

section

variable {ε : Type} {f : List Char → Outcome ε TensorOut} {s : Shards} {files : List OutFile}

/-- **What an end without an error leaves is a container of the snapshot.** -/
theorem container_of_shards
    (hok : ∀ src ∈ byFile s, ∀ name ∈ src.2, ∃ out, f name = .ok out)
    (hfiles : files = shards f (byFile s))
    (hcounted : Counted stats ((byFile s).flatMap fun src => src.2.map (outOf f)) files) :
    Container f s files stats where
  processed t ht := by
    obtain ⟨src, hsrc, hname⟩ := exists_byFile ht
    exact hok src hsrc t.name hname
  once := by
    rw [hfiles]
    exact (entries_shards f _).trans (flatMap_byFile s fun name => (outOf f name).entries)
  distinct := hfiles ▸ distinct_shards f s
  own file hfile := own_shards f (hfiles ▸ hfile)
  counted := by
    refine ⟨_, ?_, hcounted⟩
    have hperm := flatMap_byFile s fun name => [outOf f name]
    simpa only [← List.map_eq_flatMap] using hperm
  reopens hsmall hplain hposed := by
    have hess : files.flatMap OutFile.entries = (files.map OutFile.entries).flatten := rfl
    rw [hess] at hplain hposed ⊢
    have hsmall' : ∀ es ∈ files.map OutFile.entries, (fileOf es).length ≤ 2 ^ 53 := by
      intro es hes
      obtain ⟨file, hfile, rfl⟩ := List.mem_map.mp hes
      exact hsmall file hfile
    have hreopens := reopens_of_plain hsmall' hplain hposed
    rw [List.map_map] at hreopens
    exact hreopens

theorem stoppedAt_of_stoppedIn {x : Outcome ε TensorOut}
    (h : StoppedIn f (byFile s) files x) : StoppedAt f s files x := by
  obtain ⟨k, src, hsrc, ⟨name, hname, hx⟩, hfiles, hbefore⟩ := h
  obtain ⟨t, ht, rfl, rfl⟩ := getElem?_byFile hsrc hname
  refine ⟨t, ht, hx, hfiles, fun t' ht' hlt => ?_⟩
  obtain ⟨src', hsrc', hname'⟩ := exists_take_byFile ht' hlt
  exact hbefore src' hsrc' t'.name hname'

theorem tornAt_of_tornIn {file : OutFile} (h : TornIn f (byFile s) files file) :
    TornAt f s files file := by
  obtain ⟨k, src, hsrc, hfile, hfiles, hbefore⟩ := h
  have hmem : file ∈ shards f (byFile s) :=
    List.mem_filterMap.mpr ⟨src, List.mem_of_getElem? hsrc, hfile⟩
  have hindex : file.index = k := by
    unfold byFile at hsrc
    rw [List.getElem?_map] at hsrc
    obtain ⟨fi, hfi, rfl⟩ := Option.map_eq_some_iff.mp hsrc
    obtain ⟨_, hk⟩ := List.getElem?_eq_some_iff.mp hfi
    rw [List.getElem_range] at hk
    rw [shardOf_index hfile, hk]
  subst hindex
  refine ⟨hfiles, own_shards f hmem, fun t ht hle => ?_⟩
  obtain ⟨src', hsrc', hname'⟩ := exists_take_byFile ht (Nat.lt_succ_of_le hle)
  exact hbefore src' hsrc' t.name hname'

end

section

variable {ε : Type} {processOne : ConvertOpts → List Char → Outcome ε TensorOut}
  {opts : ConvertOpts} {cap : Nat} {io : Io ε}

theorem ConvertOpts.probe_mtpOnly (opts : ConvertOpts) (s : Shards) :
    (opts.probe s).mtpOnly = opts.mtpOnly := by
  unfold ConvertOpts.probe
  split <;> rfl

theorem copyThrough_ok {stats' : ConvertStats} (h : copyThrough io opts stats = .ok stats') :
    stats' = stats ∧ (opts.mtpOnly = false → ∀ name ∈ copied, io.copy name = none) := by
  unfold copyThrough at h
  split at h
  next honly =>
    cases h
    exact ⟨rfl, fun hcopies => absurd honly (by rw [hcopies]; decide)⟩
  next =>
    split at h
    next => cases h
    next hnone =>
      cases h
      exact ⟨rfl, fun _ => List.findSome?_eq_none_iff.mp hnone⟩

theorem copyThrough_error {e : ε}
    (h : copyThrough io opts stats = .error e) :
    opts.mtpOnly = false ∧ ∃ name ∈ copied, io.copy name = some e := by
  unfold copyThrough at h
  split at h
  next => cases h
  next honly =>
    split at h
    next hsome =>
      cases h
      exact ⟨Bool.eq_false_iff.mpr honly, List.exists_of_findSome?_eq_some hsome⟩
    next => cases h

theorem copyThrough_ne_panic (stats : ConvertStats) : copyThrough io opts stats ≠ .panic := by
  unfold copyThrough
  split
  · exact nofun
  · split <;> exact nofun

/-- The loop, once the snapshot is open, and the copies behind it. -/
theorem converted_of_ended {s : Shards} (hcreate : io.createDirAll = none)
    (hs : io.openShards = .ok s) {left : Left ε}
    (hended : Ended (processOne (opts.probe s)) io.writeShard (byFile s) left)
    (hcounted : ∀ stats, left.res = .ok stats → Counted stats
      ((byFile s).flatMap fun src => src.2.map (outOf (processOne (opts.probe s)))) left.files) :
    Converted processOne opts io (match left.res with
      | .ok stats => { left with res := copyThrough io (opts.probe s) stats }
      | _ => left) := by
  obtain ⟨files, torn, res⟩ := left
  cases res with
  | ok stats =>
    obtain ⟨rfl, hwritten, hok, hfiles⟩ := hended
    have hcontainer := container_of_shards hok hfiles (hcounted stats rfl)
    dsimp only
    cases hcopy : copyThrough io (opts.probe s) stats with
    | ok stats' =>
      obtain ⟨rfl, hcopies⟩ := copyThrough_ok hcopy
      rw [ConvertOpts.probe_mtpOnly] at hcopies
      exact ⟨rfl, hcreate, ⟨s, hs, hcontainer⟩, hwritten, hcopies⟩
    | error e =>
      obtain ⟨hcopies, name, hname, he⟩ := copyThrough_error hcopy
      rw [ConvertOpts.probe_mtpOnly] at hcopies
      exact .copy hs hcontainer hname hcopies he
    | panic => exact absurd hcopy (copyThrough_ne_panic stats)
  | error e =>
    cases torn with
    | none => exact .tensor hs (stoppedAt_of_stoppedIn hended)
    | some file => exact .writeShard hs (tornAt_of_tornIn hended.1) hended.2
  | panic => exact ⟨hended.1, .tensor hs (stoppedAt_of_stoppedIn hended.2)⟩

theorem nothing_lt : 0 < 2 ^ 64 := Nat.two_pow_pos 64

/-- A tensor and a stage's in one file, and what is not kept in another. -/
def threeTensors : List StTensor :=
  [⟨"a".toList, 0, 0, 0, .f32, 0, [0], nothing_lt, nothing_lt⟩,
    ⟨"mtp.2.b".toList, 0, 0, 0, .f32, 0, [0], nothing_lt, nothing_lt⟩,
    ⟨"mtp.x.c".toList, 1, 0, 0, .f32, 0, [0], nothing_lt, nothing_lt⟩]

def emptyFiles : List (List UInt8) := [[], []]

theorem threeTensors_lt : ∀ t ∈ threeTensors, t.fileIdx < emptyFiles.length := by decide

theorem emptyFiles_lt : ∀ f ∈ emptyFiles, f.length < 2 ^ 63 := by decide

def twoFiles : Shards := ⟨threeTensors, emptyFiles, threeTensors_lt, emptyFiles_lt⟩

/-- A converter that keeps the stages it is told of. -/
def keepStages (opts : ConvertOpts) (name : List Char) : Outcome Unit TensorOut :=
  match stageOf name with
  | some n => .ok (if n < opts.mtpLayers then .plain ⟨name, .f32, [1], [0, 0, 0, 0]⟩ else .skip)
  | none =>
    if name = ['a'] then
      .ok (.quant ⟨name, .u8, [1], [7]⟩ ⟨name ++ ".qs".toList, .f32, [1], [0, 0, 128, 63]⟩)
    else .ok .skip

/-- A directory in the place of `tokenizer.json`, which cannot be copied. -/
def tokenizerDir : Io Unit where
  createDirAll := none
  openShards := .ok twoFiles
  writeShard _ := none
  copy name := if name = "tokenizer.json" then some () else none

end

end Colibri.Snapshot
