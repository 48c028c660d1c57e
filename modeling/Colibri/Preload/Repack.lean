import Colibri.Lib.Deal
import Colibri.Preload.Blob
import Colibri.Serve.Request
import Mathlib.Data.List.AList

/-!
# Repacking the routed experts

`repack` goes through the routed experts layer by layer, deals their blobs round robin to the
shard files and writes down where each went. After `k` experts the state of its loop is known
in full (`Packed`): file `f` has the blobs of the experts dealt to it, one behind the other,
and expert `i` is at `i / num_files` blobs in file `i % num_files`.

A directory is what its files contain. Files can be created and written; an expert that the
provider does not have ends the run, and what is on the disk then is not looked at.

`put_packed` is the step over one expert, and the run follows by induction on `k`. The names of the
shards are different from each other and from the manifest's (`shardPath_inj`,
`shardPath_ne_manifestPath`), so nothing is written over.
-/

namespace Colibri.Preload

open Batch Deal Loader Safetensors

/-! ## Files -/

abbrev Dir : Type := List Char → Option (List UInt8)

def Dir.write (d : Dir) (name : List Char) (bytes : List UInt8) : Dir :=
  fun n => if n = name then some bytes else d n

/-- `{file:04}` -/
def padded (file : Nat) : List Char :=
  List.replicate (4 - (Nat.toDigits 10 file).length) '0' ++ Nat.toDigits 10 file

def shardPath (file : Nat) : List Char := "experts_".toList ++ (padded file ++ ".bin".toList)

def manifestPath : List Char := "manifest.json".toList

/-- `Manifest::save`, to the manifest of the directory. -/
def Manifest.save (m : Manifest) (d : Dir) : Dir := d.write manifestPath (Utf8.encode m.text)

/-- `Manifest::load`, from the manifest of the directory. -/
def Manifest.loadFrom (d : Dir) : Outcome PreloadError Manifest :=
  match d manifestPath with
  | none => .error .noFile
  | some bytes =>
    match Serve.fromUtf8 bytes with
    | none => .error .notUtf8
    | some text => Manifest.load text

/-! ## Repacking -/

/-- What `repack` reads of a configuration: `i32`s that have been checked not to be negative. -/
structure Shape where
  hidden : Nat
  moeInter : Nat
  firstDense : Nat
  nLayers : Nat
  nExperts : Nat
  hidden_lt : hidden < 2 ^ 31
  moeInter_lt : moeInter < 2 ^ 31
  firstDense_lt : firstDense < 2 ^ 31
  nLayers_lt : nLayers < 2 ^ 31
  nExperts_lt : nExperts < 2 ^ 31

/-- `ExpertProvider` -/
abbrev Provider : Type := Nat → Nat → Outcome PreloadError Expert

/-- The routed experts, `(layer, eid)`. -/
def Shape.routed (cfg : Shape) : List (Nat × Nat) :=
  (List.range' cfg.firstDense (cfg.nLayers - cfg.firstDense)).flatMap fun layer =>
    (List.range cfg.nExperts).map fun eid => (layer, eid)

/-- The variables of the loop. -/
structure Packing where
  files : List (List UInt8)
  offsets : List Nat
  locs : List ExpertLoc
  layerMeta : AList fun _ : Nat => Int × Nat

/-- `entry(layer).or_insert(..)` -/
def orInsert (layerMeta : AList fun _ : Nat => Int × Nat) (layer : Nat) (v : Int × Nat) :
    AList fun _ : Nat => Int × Nat :=
  match layerMeta.lookup layer with
  | some _ => layerMeta
  | none => layerMeta.insert layer v

/-- One expert. -/
def Packing.put (st : Packing) (numFiles idx layer eid : Nat) (ex : Expert) :
    Outcome PreloadError Packing := do
  let blob ← expertBlob ex
  let f := idx % numFiles
  return { layerMeta := orInsert st.layerMeta layer (ex.gate.fmtCode, blob.length)
           files := st.files.modify f (· ++ blob)
           locs := st.locs ++ [⟨layer, eid, f, st.offsets.getD f 0⟩]
           offsets := st.offsets.modify f (wadd · blob.length) }

/-- The loop, from expert `idx` on. -/
def packFrom (provider : Provider) (numFiles : Nat) :
    Nat → Packing → List (Nat × Nat) → Outcome PreloadError Packing
  | _, st, [] => .ok st
  | idx, st, (layer, eid) :: rest => do
    let ex ← provider layer eid
    packFrom provider numFiles (idx + 1) (← st.put numFiles idx layer eid ex) rest

/-- The order of `sort` on `(layer, fmt, bytes)`. -/
def layerLe (a b : Nat × Int × Nat) : Bool :=
  a.1 < b.1 || a.1 = b.1 && (a.2.1 < b.2.1 || a.2.1 = b.2.1 && a.2.2 ≤ b.2.2)

def sortedLayers (layerMeta : AList fun _ : Nat => Int × Nat) : List (Nat × Int × Nat) :=
  (layerMeta.entries.map fun e => (e.1, e.2)).mergeSort layerLe

/-- The shard files, each with what was appended to it. -/
def Dir.writeShards (d : Dir) : Nat → List (List UInt8) → Dir
  | _, [] => d
  | f, bytes :: files => (d.write (shardPath f) bytes).writeShards (f + 1) files

def repack (provider : Provider) (cfg : Shape) (d : Dir) (numFiles : Nat) :
    Outcome PreloadError (Dir × Manifest) :=
  if numFiles = 0 then .panic
  else do
    let st ← packFrom provider numFiles 0
      ⟨List.replicate numFiles [], List.replicate numFiles 0, [], ∅⟩ cfg.routed
    let m : Manifest :=
      { numFiles, hidden := cfg.hidden, moeInter := cfg.moeInter
        layers := sortedLayers st.layerMeta, experts := st.locs }
    return (m.save (d.writeShards 0 st.files), m)

/-! ## No file is written over another -/

theorem ofDigitChars_padded (file : Nat) : Nat.ofDigitChars 10 (padded file) 0 = file := by
  rw [padded, Nat.ofDigitChars_append, Nat.ofDigitChars_replicate_zero, Nat.mul_zero,
    Nat.ofDigitChars_ten_toDigits]

theorem shardPath_inj {f g : Nat} (h : shardPath f = shardPath g) : f = g := by
  have hpad : padded f = padded g := List.append_cancel_right (List.append_cancel_left h)
  rw [← ofDigitChars_padded f, hpad, ofDigitChars_padded]

theorem shardPath_ne_manifestPath (f : Nat) : shardPath f ≠ manifestPath := by
  intro h
  have hhead : 'e' = 'm' := (List.cons.inj h).1
  cases hhead

theorem Dir.writeShards_of_ne {d : Dir} {name : List Char} {files : List (List UInt8)} {k : Nat}
    (h : ∀ f, k ≤ f → name ≠ shardPath f) : d.writeShards k files name = d name := by
  induction files generalizing d k with
  | nil => rfl
  | cons bytes files ih =>
    rw [writeShards, ih fun f hf => h f (by omega)]
    exact if_neg (h k (Nat.le_refl k))

/-- **Every shard has its own content.** -/
theorem Dir.writeShards_shardPath (d : Dir) {files : List (List UInt8)} {bytes : List UInt8}
    {f : Nat} (hf : files[f]? = some bytes) (k : Nat) :
    d.writeShards k files (shardPath (k + f)) = some bytes := by
  induction files generalizing d k f with
  | nil => cases hf
  | cons b files ih =>
    rw [writeShards]
    cases f with
    | zero =>
      cases hf
      rw [writeShards_of_ne fun g hg hpath => by have := shardPath_inj hpath; omega]
      exact if_pos rfl
    | succ f =>
      have h := ih (d.write (shardPath k) b) hf (k + 1)
      rwa [Nat.add_right_comm] at h

theorem loadFrom_save (m : Manifest) (d : Dir) : Manifest.loadFrom (m.save d) = .ok m.reread := by
  have hpath : m.save d manifestPath = some (Utf8.encode m.text) := by
    unfold Manifest.save Dir.write
    exact if_pos rfl
  unfold Manifest.loadFrom
  rw [hpath]
  dsimp only
  rw [Serve.fromUtf8_iff.mpr rfl]
  exact load_text m

/-! ## The loop -/

section

variable {cfg : Shape} (ex : Nat → Nat → Int8Expert cfg.hidden cfg.moeInter) (n : Nat)

/-- The bytes of an expert's blob. -/
def Shape.blobBytes (cfg : Shape) : Nat := Preload.blobBytes cfg.hidden cfg.moeInter

/-- Routed expert `i`. -/
def Shape.key (cfg : Shape) (i : Nat) : Nat × Nat := cfg.routed.getD i (0, 0)

def blobAt (i : Nat) : List UInt8 := (ex (cfg.key i).1 (cfg.key i).2).blob

/-- Where expert `i` goes. -/
def Shape.locAt (cfg : Shape) (n i : Nat) : ExpertLoc :=
  ⟨(cfg.key i).1, (cfg.key i).2, i % n, i / n * cfg.blobBytes % 2 ^ 64⟩

/-- What shard `f` of `n` holds after `k` experts. -/
def shardAt (k f : Nat) : List UInt8 := (dealt n k f).flatMap (blobAt ex)

/-- The state after `k` experts. -/
structure Packed (k : Nat) (st : Packing) : Prop where
  files : st.files = (List.range n).map (shardAt ex n k)
  offsets : st.offsets = (List.range n).map fun f =>
    (dealt n k f).length * cfg.blobBytes % 2 ^ 64
  locs : st.locs = (List.range k).map (cfg.locAt n)
  layerMeta : ∀ l v, st.layerMeta.lookup l = some v ↔
    l ∈ (cfg.routed.take k).map Prod.fst ∧ v = (1, cfg.blobBytes)

theorem modify_map_range {α : Type} (g : Nat → α) (f n : Nat) (h : α → α) :
    ((List.range n).map g).modify f h
      = (List.range n).map fun i => if i = f then h (g i) else g i := by
  refine List.ext_getElem? fun i => ?_
  rw [List.getElem?_modify, List.getElem?_map, List.getElem?_map]
  rcases Nat.lt_or_ge i n with hi | hi
  · rw [List.getElem?_range hi]
    by_cases hf : f = i
    · subst hf
      simp
    · simp [hf, Ne.symm hf]
  · rw [List.getElem?_eq_none (by rw [List.length_range]; exact hi)]
    simp

theorem packed_zero :
    Packed ex n 0 ⟨List.replicate n [], List.replicate n 0, [], ∅⟩ := by
  refine ⟨?_, ?_, rfl, ?_⟩
  · have hnone : shardAt ex n 0 = fun _ => [] := rfl
    rw [hnone, List.map_const', List.length_range]
  · have hnone : (fun f => (dealt n 0 f).length * cfg.blobBytes % 2 ^ 64) = fun _ => 0 := by
      funext f
      rw [dealt_zero, List.length_nil, Nat.zero_mul, Nat.zero_mod]
    rw [hnone, List.map_const', List.length_range]
  · intro l v
    rw [AList.lookup_empty, List.take_zero]
    simp

theorem lookup_orInsert (mp : AList fun _ : Nat => Int × Nat) (l l' : Nat) (w : Int × Nat) :
    (orInsert mp l' w).lookup l = if l = l' then some ((mp.lookup l').getD w) else mp.lookup l := by
  unfold orInsert
  cases hl : mp.lookup l' with
  | some v =>
    by_cases h : l = l'
    · subst h
      rw [if_pos rfl, hl]
      rfl
    · rw [if_neg h]
  | none =>
    by_cases h : l = l'
    · subst h
      rw [if_pos rfl]
      exact AList.lookup_insert mp
    · rw [if_neg h]
      exact AList.lookup_insert_ne h

/-- **An expert** goes to the end of its file. -/
theorem put_packed {n k : Nat} (hn : 0 < n) {st : Packing} (h : Packed ex n k st)
    (hk : k < cfg.routed.length) :
    ∃ st', st.put n k (cfg.key k).1 (cfg.key k).2
        (ex (cfg.key k).1 (cfg.key k).2).toExpert = .ok st' ∧ Packed ex n (k + 1) st' := by
  have hf := Nat.mod_lt k hn
  have hlen : (blobAt ex k).length = cfg.blobBytes := Int8Expert.length_blob _
  have hturns : (dealt n k (k % n)).length = k / n := by rw [length_dealt hf, turns_self hn]
  unfold Packing.put
  rw [expertBlob_toExpert, Outcome.ok_bind]
  refine ⟨_, rfl, ?_, ?_, ?_, ?_⟩
  · show st.files.modify (k % n) (· ++ blobAt ex k) = _
    rw [h.files, modify_map_range]
    refine List.map_congr_left fun f _ => ?_
    unfold shardAt
    rw [dealt_succ, List.flatMap_append]
    by_cases hkf : f = k % n
    · rw [if_pos hkf, if_pos hkf.symm, List.flatMap_singleton]
    · rw [if_neg hkf, if_neg (Ne.symm hkf), List.flatMap_nil, List.append_nil]
  · show st.offsets.modify (k % n) (wadd · (blobAt ex k).length) = _
    rw [h.offsets, modify_map_range]
    refine List.map_congr_left fun f _ => ?_
    rw [dealt_succ, List.length_append]
    by_cases hkf : f = k % n
    · rw [if_pos hkf, if_pos hkf.symm, hlen, wadd, Nat.mod_add_mod, List.length_singleton,
        Nat.succ_mul]
    · rw [if_neg hkf, if_neg (Ne.symm hkf), List.length_nil, Nat.add_zero]
  · show st.locs ++ [⟨_, _, k % n, st.offsets.getD (k % n) 0⟩] = _
    have hoffset : st.offsets.getD (k % n) 0 = k / n * cfg.blobBytes % 2 ^ 64 := by
      rw [h.offsets, List.getD_eq_getElem?_getD, List.getElem?_map, List.getElem?_range hf,
        Option.map_some, Option.getD_some, hturns]
    rw [hoffset, h.locs, List.range_succ, List.map_append, List.map_singleton]
    rfl
  · intro l v
    show (orInsert st.layerMeta (cfg.key k).1 (1, (blobAt ex k).length)).lookup l = some v ↔ _
    have htake : cfg.routed.take (k + 1) = cfg.routed.take k ++ [cfg.key k] := by
      rw [List.take_add_one, Shape.key, List.getD_eq_getElem?_getD,
        List.getElem?_eq_getElem hk]
      rfl
    have hold : (st.layerMeta.lookup (cfg.key k).1).getD (1, (blobAt ex k).length)
        = (1, cfg.blobBytes) := by
      rw [hlen]
      cases hl : st.layerMeta.lookup (cfg.key k).1 with
      | none => rfl
      | some u => exact ((h.layerMeta _ _).mp hl).2
    rw [lookup_orInsert, hold, htake, List.map_append, List.mem_append, List.map_singleton,
      List.mem_singleton]
    by_cases hl : l = (cfg.key k).1
    · rw [if_pos hl, Option.some_inj]
      exact ⟨fun hv => ⟨.inr hl, hv.symm⟩, fun hv => hv.2.symm⟩
    · rw [if_neg hl, h.layerMeta]
      simp only [hl, or_false]

/-- **The loop.** -/
theorem packFrom_packed {provider : Provider} {n : Nat} (hn : 0 < n)
    (hserves : ∀ p ∈ cfg.routed, provider p.1 p.2 = .ok (ex p.1 p.2).toExpert)
    {rest : List (Nat × Nat)} {k : Nat} {st : Packing} (h : Packed ex n k st)
    (hrest : cfg.routed.drop k = rest) :
    ∃ st', packFrom provider n k st rest = .ok st' ∧
      Packed ex n (k + rest.length) st' := by
  induction rest generalizing k st with
  | nil => exact ⟨st, rfl, h⟩
  | cons p rest ih =>
    have hk : k < cfg.routed.length := by
      have hlen := congrArg List.length hrest
      rw [List.length_drop, List.length_cons] at hlen
      omega
    rw [List.drop_eq_getElem_cons hk] at hrest
    obtain ⟨hp, hrest⟩ := List.cons.inj hrest
    have hkey : cfg.key k = p := by
      rw [Shape.key, List.getD_eq_getElem?_getD, List.getElem?_eq_getElem hk, hp]
      rfl
    obtain ⟨st', hput, hst'⟩ := put_packed ex hn h hk
    obtain ⟨st'', hrun, hst''⟩ := ih hst' hrest
    refine ⟨st'', ?_, ?_⟩
    · rw [hkey] at hput
      rw [packFrom, hserves p (hp ▸ List.getElem_mem hk), Outcome.ok_bind, hput, Outcome.ok_bind,
        hrun]
    · rwa [List.length_cons, Nat.add_comm rest.length, ← Nat.add_assoc]

/-- The manifest that is written, but for the order of its layers. -/
structure Written (cfg : Shape) (n : Nat) (m : Manifest) : Prop where
  numFiles : m.numFiles = n
  hidden : m.hidden = cfg.hidden
  moeInter : m.moeInter = cfg.moeInter
  layers : ∀ l, l ∈ m.layers ↔ l.1 ∈ cfg.routed.map Prod.fst ∧ l.2 = (1, cfg.blobBytes)
  experts : m.experts = (List.range cfg.routed.length).map (cfg.locAt n)

/-- **What repacking leaves behind.** -/
theorem repack_written {provider : Provider} {n : Nat} (hn : 0 < n)
    (hserves : ∀ p ∈ cfg.routed, provider p.1 p.2 = .ok (ex p.1 p.2).toExpert) (d : Dir) :
    ∃ d' m, repack provider cfg d n = .ok (m.save d', m) ∧ Written cfg n m ∧
      ∀ f < n, d' (shardPath f) = some (shardAt ex n cfg.routed.length f) := by
  obtain ⟨st, hrun, hst⟩ := packFrom_packed ex hn hserves (packed_zero ex n) rfl
  rw [List.drop_zero, Nat.zero_add] at hst
  refine ⟨d.writeShards 0 st.files, ⟨n, cfg.hidden, cfg.moeInter, sortedLayers st.layerMeta,
    st.locs⟩, ?_, ⟨rfl, rfl, rfl, ?_, hst.locs⟩, ?_⟩
  · rw [repack, if_neg (by omega)]
    exact Outcome.bind_of_ok hrun _
  · rintro ⟨l, v⟩
    have hlookup := hst.layerMeta l v
    rw [List.take_length, ← Option.mem_def, AList.mem_lookup_iff] at hlookup
    rw [sortedLayers, List.mem_mergeSort, ← hlookup, List.mem_map]
    constructor
    · rintro ⟨e, he, heq⟩
      cases heq
      exact he
    · intro he
      exact ⟨_, he, rfl⟩
  · intro f hf
    have hget : st.files[f]? = some (shardAt ex n cfg.routed.length f) := by
      rw [hst.files, List.getElem?_map, List.getElem?_range hf]
      rfl
    have h := Dir.writeShards_shardPath d hget 0
    rwa [Nat.zero_add] at h

end

end Colibri.Preload
