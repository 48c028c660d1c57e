import Colibri.Lib.Blocks
import Colibri.Preload.Store

/-!
# What was repacked is loaded

Repacking leaves a manifest and files that fit each other (`Written.fits`), so loading gives
the experts back (`preload_gives_back`), if the manifest comes back from its text. Its numbers
go through an `f64` on the way: the number of files, the bytes of a blob and the offsets have
to survive that, as every number up to `2 ^ 53` does. A blob of one byte more than an `f64`
can say is looked for beyond the end of its file (`wide_blob_lost`).

`Written` says what a manifest of repacking holds, `Shape.Recorded` which numbers have to survive.
`preload_gives_back` is over every shape, number of files and budget.
-/

namespace Colibri.Preload

open Batch Blocks Budget Deal
open Safetensors (Exact)

section

variable {cfg : Shape} (ex : Nat → Nat → Int8Expert cfg.hidden cfg.moeInter)

/-- The numbers that the manifest of `n` shards has to give back. The others are below
`2 ^ 31`. -/
structure Shape.Recorded (cfg : Shape) (n : Nat) : Prop where
  numFiles : Exact n
  bytes : cfg.routed ≠ [] → Exact cfg.blobBytes
  places : ∀ i < cfg.routed.length, Exact (i % n : Nat) ∧ Exact (i / n * cfg.blobBytes : Nat)

variable {n : Nat} {m : Manifest}

/-! ## The experts -/

theorem mem_routed {p : Nat × Nat} (h : p ∈ cfg.routed) :
    p.1 < cfg.nLayers ∧ p.2 < cfg.nExperts := by
  obtain ⟨layer, hlayer, hp⟩ := List.mem_flatMap.mp h
  obtain ⟨eid, heid, rfl⟩ := List.mem_map.mp hp
  rw [List.mem_range'_1] at hlayer
  exact ⟨by omega, List.mem_range.mp heid⟩

theorem nodup_routed : cfg.routed.Nodup := List.Nodup.product List.nodup_range' List.nodup_range

theorem key_mem {i : Nat} (hi : i < cfg.routed.length) : cfg.key i ∈ cfg.routed := by
  rw [Shape.key, List.getD_eq_getElem?_getD, List.getElem?_eq_getElem hi, Option.getD_some]
  exact List.getElem_mem hi

theorem map_key (cfg : Shape) : (List.range cfg.routed.length).map cfg.key = cfg.routed := by
  refine List.ext_getElem? fun i => ?_
  rw [List.getElem?_map]
  rcases Nat.lt_or_ge i cfg.routed.length with hi | hi
  · rw [List.getElem?_range hi, Option.map_some, Shape.key, List.getD_eq_getElem?_getD,
      List.getElem?_eq_getElem hi, Option.getD_some]
  · rw [List.getElem?_eq_none hi, List.getElem?_eq_none (by rwa [List.length_range]),
      Option.map_none]

theorem Written.keys (h : Written cfg n m) :
    m.experts.map ExpertLoc.key = cfg.routed := by
  rw [h.experts, List.map_map]
  exact map_key cfg

theorem Written.layer_mem (h : Written cfg n m) {i : Nat}
    (hi : i < cfg.routed.length) : (cfg.key i).1 ∈ m.layers.map Prod.fst := by
  refine List.mem_map.mpr ⟨((cfg.key i).1, 1, cfg.blobBytes), (h.layers _).mpr ⟨?_, rfl⟩, rfl⟩
  exact List.mem_map_of_mem (key_mem hi)

/-- Layers that all have the same format and size. -/
theorem lookup_layerMeta {v : Int × Nat} (hv : ∀ l ∈ m.layers, l.2 = v) {l : Nat}
    (hl : l ∈ m.layers.map Prod.fst) : m.layerMeta.lookup l = some v := by
  have hloop : ∀ (ls : List (Nat × Int × Nat)) (mp : AList fun _ : Nat => Int × Nat),
      (∀ l ∈ ls, l.2 = v) → mp.lookup l = some v ∨ l ∈ ls.map Prod.fst →
      (ls.foldl (fun mp l => mp.insert l.1 l.2) mp).lookup l = some v := by
    intro ls
    induction ls with
    | nil =>
      intro mp _ h
      exact h.resolve_right List.not_mem_nil
    | cons x ls ih =>
      intro mp hls h
      have hx := hls x List.mem_cons_self
      refine ih _ (fun y hy => hls y (List.mem_cons_of_mem _ hy)) ?_
      by_cases hlx : l = x.1
      · left
        rw [hlx, AList.lookup_insert, hx]
      · rw [AList.lookup_insert_ne hlx]
        refine h.imp id fun hmem => ?_
        exact (List.mem_cons.mp hmem).resolve_left hlx
  exact hloop m.layers ∅ hv (.inr hl)

theorem Written.lookup (h : Written cfg n m) {i : Nat} (hi : i < cfg.routed.length) :
    m.layerMeta.lookup (cfg.key i).1 = some (1, cfg.blobBytes) :=
  lookup_layerMeta (fun l hl => ((h.layers l).mp hl).2) (h.layer_mem hi)

theorem Written.size_eq (h : Written cfg n m) {loc : ExpertLoc}
    (hloc : loc ∈ m.experts) : m.size loc = cfg.blobBytes := by
  rw [h.experts] at hloc
  obtain ⟨i, hi, rfl⟩ := List.mem_map.mp hloc
  have hlookup := h.lookup (List.mem_range.mp hi)
  rw [Manifest.size]
  show ((m.layerMeta.lookup (cfg.key i).1).map Prod.snd).getD 0 = _
  rw [hlookup]
  rfl

/-! ## The manifest -/

/-- A manifest whose recorded numbers survive is faithful. -/
theorem Written.faithful (h : Written cfg n m) (hrec : cfg.Recorded n) :
    m.Faithful := by
  have hhidden := cfg.hidden_lt
  have hmoe := cfg.moeInter_lt
  have hlayers := cfg.nLayers_lt
  have hexperts := cfg.nExperts_lt
  refine ⟨h.numFiles ▸ hrec.numFiles, exact_of_le ?_, exact_of_le ?_, ?_, ?_⟩
  · rw [h.hidden]
    omega
  · rw [h.moeInter]
    omega
  · rintro ⟨l, v⟩ hl
    obtain ⟨hmem, rfl⟩ := (h.layers _).mp hl
    obtain ⟨p, hp, rfl⟩ := List.mem_map.mp hmem
    have hlt := (mem_routed hp).1
    have hfmt : Exact (1 : Int) ∧ -2 ^ 31 ≤ (1 : Int) ∧ (1 : Int) < 2 ^ 31 :=
      ⟨exact_of_le (n := 1) (by omega), by omega, by omega⟩
    exact ⟨exact_of_le (by omega), hfmt, hrec.bytes (List.ne_nil_of_mem hp)⟩
  · intro loc hloc
    rw [h.experts] at hloc
    obtain ⟨i, hi, rfl⟩ := List.mem_map.mp hloc
    have hkey := mem_routed (key_mem (List.mem_range.mp hi))
    obtain ⟨hfile, hplace⟩ := hrec.places i (List.mem_range.mp hi)
    refine ⟨exact_of_le ?_, exact_of_le ?_, hfile, ?_⟩
    · show (cfg.key i).1 ≤ _
      omega
    · show (cfg.key i).2 ≤ _
      omega
    · have hlt := lt_of_exact hplace
      show Exact (i / n * cfg.blobBytes % 2 ^ 64 : Nat)
      rwa [Nat.mod_eq_of_lt (by omega)]

theorem offset_locAt (hrec : cfg.Recorded n) {i : Nat} (hi : i < cfg.routed.length) :
    (cfg.locAt n i).offset = i / n * cfg.blobBytes := by
  have hlt := lt_of_exact (hrec.places i hi).2
  exact Nat.mod_eq_of_lt (by omega)

/-- The experts of a shard are in order. -/
theorem Written.shard_eq (h : Written cfg n m) (hrec : cfg.Recorded n) (f : Nat) :
    m.shard f = (dealt n cfg.routed.length f).map (cfg.locAt n) := by
  have hfilter : m.experts.filter (fun loc => loc.file = f)
      = (dealt n cfg.routed.length f).map (cfg.locAt n) := by
    rw [h.experts, List.filter_map]
    rfl
  rw [Manifest.shard, hfilter, byOffset, List.mergeSort_of_pairwise]
  refine List.pairwise_map.mpr ?_
  have hlt : (dealt n cfg.routed.length f).Pairwise (· < ·) := List.pairwise_lt_range.filter _
  refine hlt.imp_of_mem fun {i j} hi hj hij => ?_
  rw [offset_locAt hrec (mem_dealt.mp hi).1, offset_locAt hrec (mem_dealt.mp hj).1,
    decide_eq_true_eq]
  exact Nat.mul_le_mul_right _ (Nat.div_le_div_right (Nat.le_of_lt hij))

/-! ## The shards -/

theorem shardAt_eq {f : Nat} (hf : f < n) (k : Nat) :
    shardAt ex n k f = blocks (turns n k f) fun j => blobAt ex (j * n + f) := by
  rw [shardAt, dealt_eq_map hf, List.flatMap_map, blocks]

theorem length_blobAt (i : Nat) : (blobAt ex i).length = cfg.blobBytes :=
  Int8Expert.length_blob _

/-- **An expert's blob is where the manifest says.** -/
theorem read_shardAt {i k : Nat} (hn : 0 < n) (hi : i < k) :
    readExactAt (shardAt ex n k (i % n)) (i / n * cfg.blobBytes) cfg.blobBytes
      = .ok (blobAt ex i) := by
  have hf := Nat.mod_lt i hn
  have hturn : i / n < turns n k (i % n) := div_lt_turns hf (mem_dealt.mpr ⟨hi, rfl⟩)
  have hlen : (shardAt ex n k (i % n)).length = turns n k (i % n) * cfg.blobBytes := by
    rw [shardAt_eq ex hf, length_blocks fun j _ => length_blobAt ex _]
  have hend : i / n * cfg.blobBytes + cfg.blobBytes ≤ (shardAt ex n k (i % n)).length := by
    rw [hlen, ← Nat.succ_mul]
    exact Nat.mul_le_mul_right _ hturn
  rw [readExactAt, if_pos (.inr hend), shardAt_eq ex hf,
    chunk_blocks (fun j _ => length_blobAt ex _) hturn, Nat.mul_comm, Nat.div_add_mod]

/-- The last expert of a shard has a place, so the shard's end has one below `2 ^ 64`. -/
theorem shard_lt (hrec : cfg.Recorded n) {f : Nat} (hf : f < n) :
    turns n cfg.routed.length f * cfg.blobBytes < 2 ^ 64 := by
  cases hturns : turns n cfg.routed.length f with
  | zero =>
    rw [Nat.zero_mul]
    exact Nat.two_pow_pos 64
  | succ j =>
    have hmem := mem_dealt_of_lt hf (hturns ▸ Nat.lt_succ_self j : j < turns n cfg.routed.length f)
    have hlen := (mem_dealt.mp hmem).1
    have hplace := lt_of_exact (hrec.places _ hlen).2
    have hbytes := lt_of_exact (hrec.bytes (List.ne_nil_of_length_pos (by omega)))
    rw [Nat.mul_comm j, Nat.mul_add_div (by omega), Nat.div_eq_of_lt hf, Nat.add_zero] at hplace
    rw [Nat.succ_mul]
    omega

/-- What is written fits. -/
theorem Written.fits (h : Written cfg n m) (hrec : cfg.Recorded n) (hn : 0 < n)
    {d : Dir} (hd : ∀ f < n, d (shardPath f) = some (shardAt ex n cfg.routed.length f)) :
    m.Fits d fun layer eid => (ex layer eid).toExpert := by
  refine ⟨?_, ?_, ?_, ?_⟩
  · intro loc hloc
    rw [h.experts] at hloc
    obtain ⟨i, -, rfl⟩ := List.mem_map.mp hloc
    rw [h.numFiles]
    exact Nat.mod_lt i hn
  · intro f hf
    rw [h.numFiles] at hf
    refine ⟨_, hd f hf, ?_⟩
    intro loc hloc hfile
    rw [h.experts] at hloc
    obtain ⟨i, hi, rfl⟩ := List.mem_map.mp hloc
    have hi := List.mem_range.mp hi
    obtain rfl : i % n = f := hfile
    refine ⟨1, cfg.blobBytes, blobAt ex i, (ex (cfg.key i).1 (cfg.key i).2).toExpert,
      h.lookup hi, ?_, ?_, rfl⟩
    · rw [offset_locAt hrec hi]
      exact read_shardAt ex hn hi
    · rw [h.hidden, h.moeInter]
      exact expertFromBlob_blob _ cfg.hidden_lt cfg.moeInter_lt
  · rw [h.keys]
    exact nodup_routed
  · intro f hf
    rw [h.numFiles] at hf
    have hsizes : ∀ loc ∈ m.shard f, m.size loc = cfg.blobBytes := fun loc hloc =>
      h.size_eq (mem_shard.mp hloc).1
    rw [total_of_forall hsizes, h.shard_eq hrec, List.length_map, length_dealt hf]
    exact shard_lt hrec hf

/-- Repacking, saving and loading give back, of every shard, the experts in front that fit the
budget, each as it was. -/
def GivesBack (cfg : Shape) (ex : Nat → Nat → Int8Expert cfg.hidden cfg.moeInter)
    (provider : Provider) (d : Dir) (n budget : Nat) : Prop :=
  ∃ d' m m' store, repack provider cfg d n = .ok (d', m) ∧
    Manifest.loadFrom (m.save d') = .ok m' ∧
    PreloadStore.load m' (m.save d') budget = .ok store ∧
    m.experts.map ExpertLoc.key = cfg.routed ∧
    (∀ loc ∈ m.experts, m.size loc = cfg.blobBytes) ∧
    m.Holds budget (fun layer eid => (ex layer eid).toExpert) store

theorem Dir.save_save (m : Manifest) (d : Dir) : m.save (m.save d) = m.save d := by
  funext name
  unfold Manifest.save Dir.write
  split <;> rfl

theorem Dir.save_shardPath (m : Manifest) (d : Dir) (f : Nat) :
    m.save d (shardPath f) = d (shardPath f) := by
  unfold Manifest.save Dir.write
  exact if_neg (shardPath_ne_manifestPath f)

/-- **Repacked experts are given back.** -/
theorem preload_gives_back (cfg : Shape) (ex : Nat → Nat → Int8Expert cfg.hidden cfg.moeInter)
    (provider : Provider)
    (hserves : ∀ p ∈ cfg.routed, provider p.1 p.2 = .ok (ex p.1 p.2).toExpert)
    (n : Nat) (hn : 0 < n) (hrec : cfg.Recorded n) (d : Dir) (budget : Nat) :
    GivesBack cfg ex provider d n budget := by
  obtain ⟨d', m, hrepack, hm, hd'⟩ := repack_written ex hn hserves d
  have hfits := hm.fits ex hrec hn (d := m.save d') fun f hf =>
    (Dir.save_shardPath m d' f).trans (hd' f hf)
  obtain ⟨store, hload, hholds⟩ := load_holds hfits budget
  refine ⟨m.save d', m, m, store, hrepack, ?_, ?_, hm.keys, fun loc => hm.size_eq, hholds⟩
  · rw [loadFrom_save, (hm.faithful hrec).reread]
  · rwa [Dir.save_save]

/-- Shards of at most `2 ^ 53` bytes are recorded. -/
theorem recorded_of_le (hn : 0 < n) (hfiles : n ≤ 2 ^ 53)
    (hshards : ∀ f < n, turns n cfg.routed.length f * cfg.blobBytes ≤ 2 ^ 53) :
    cfg.Recorded n := by
  have hturn : ∀ i < cfg.routed.length, i / n < turns n cfg.routed.length (i % n) :=
    fun i hi => div_lt_turns (Nat.mod_lt i hn) (mem_dealt.mpr ⟨hi, rfl⟩)
  refine ⟨exact_of_le hfiles, ?_, ?_⟩
  · intro hne
    have hfirst := hturn 0 (List.length_pos_iff.mpr hne)
    refine exact_of_le (Nat.le_trans ?_ (hshards (0 % n) (Nat.mod_lt 0 hn)))
    exact Nat.le_mul_of_pos_left _ (Nat.zero_lt_of_lt hfirst)
  · intro i hi
    have hf := Nat.mod_lt i hn
    refine ⟨exact_of_le (by omega), exact_of_le (Nat.le_trans ?_ (hshards (i % n) hf))⟩
    exact Nat.mul_le_mul_right _ (Nat.le_of_lt (hturn i hi))

end

/-- The provider of these experts. -/
def provide {h i : Nat} (ex : Nat → Nat → Int8Expert h i) : Provider :=
  fun layer eid => .ok (ex layer eid).toExpert

/-- Two sparse layers of three experts, behind a dense one. -/
def tinyShape : Shape where
  hidden := 2
  moeInter := 1
  firstDense := 1
  nLayers := 3
  nExperts := 3
  hidden_lt := by decide
  moeInter_lt := by decide
  firstDense_lt := by decide
  nLayers_lt := by decide
  nExperts_lt := by decide

/-- A tensor that says whose it is. -/
def stamped (layer eid o i : Nat) : Int8Tensor o i where
  codes := List.replicate (o * i) (Int8.ofNat (3 * layer + eid))
  scales := List.replicate o (UInt32.ofNat layer)
  length_codes := List.length_replicate
  length_scales := List.length_replicate

def tinyExperts (layer eid : Nat) : Int8Expert tinyShape.hidden tinyShape.moeInter :=
  ⟨stamped layer eid _ _, stamped layer eid _ _, stamped layer eid _ _⟩

theorem preload_gives_back_tiny :
    GivesBack tinyShape tinyExperts (provide tinyExperts) (fun _ => none) 2 50 :=
  preload_gives_back tinyShape tinyExperts (provide tinyExperts) (fun _ _ => rfl) 2 (by decide)
    (recorded_of_le (by decide) (by decide) (by decide)) (fun _ => none) 50

/-! ## A blob that is too large to be recorded -/

/-- One expert of these dimensions. -/
def wideShape : Shape where
  hidden := 2 ^ 26 + 1
  moeInter := 2 ^ 26 + 1
  firstDense := 0
  nLayers := 1
  nExperts := 1
  hidden_lt := by decide
  moeInter_lt := by decide
  firstDense_lt := by decide
  nLayers_lt := by decide
  nExperts_lt := by decide

/-- All weights are zero. -/
def zeros (o i : Nat) : Int8Tensor o i where
  codes := List.replicate (o * i) 0
  scales := List.replicate o 0
  length_codes := List.length_replicate
  length_scales := List.length_replicate

def wideExperts : Nat → Nat → Int8Expert wideShape.hidden wideShape.moeInter :=
  fun _ _ => ⟨zeros _ _, zeros _ _, zeros _ _⟩

theorem reread_wide : Safetensors.asU64 (reread wideShape.blobBytes) = wideShape.blobBytes + 1 := by
  decide

/-- The one blob is looked for beyond the end of its file. -/
theorem load_wide {m : Manifest} (hm : Written wideShape 1 m) {d : Dir}
    (hd : d (shardPath 0) = some (shardAt wideExperts 1 1 0)) (budget : Nat) :
    PreloadStore.load m.reread d budget = .error .unexpectedEof := by
  have hfiles : m.reread.numFiles = 1 := by
    rw [Manifest.reread, hm.numFiles]
    rfl
  have hexperts : m.reread.experts = [⟨0, 0, 0, 0⟩] := by
    rw [Manifest.reread, hm.experts]
    rfl
  have hlookup : m.reread.layerMeta.lookup 0 = some (1, wideShape.blobBytes + 1) := by
    refine lookup_layerMeta ?_ ?_
    · intro l hl
      obtain ⟨l', hl', rfl⟩ := List.mem_map.mp hl
      have hval := ((hm.layers l').mp hl').2
      rw [rereadLayer, hval, reread_wide]
      have hfmt : asI32 (reread 1) = 1 :=
        asI32_reread (exact_of_le (n := 1) (by decide)) (by decide) (by decide)
      exact Prod.ext hfmt rfl
    · rw [Manifest.reread, List.map_map]
      refine List.mem_map.mpr ⟨(0, 1, wideShape.blobBytes), (hm.layers _).mpr ⟨?_, rfl⟩, rfl⟩
      exact List.mem_singleton.mpr rfl
  have hlen : (shardAt wideExperts 1 1 0).length
      = wideShape.blobBytes := by
    rw [shardAt_eq _ Nat.one_pos, length_blocks fun j _ => length_blobAt _ _, turns]
    exact Nat.one_mul _
  have hread : readExactAt (shardAt wideExperts 1 1 0) 0
      (wideShape.blobBytes + 1) = .error .unexpectedEof := by
    rw [readExactAt, if_neg (by rw [hlen]; omega)]
  have hshard : m.reread.loadShard d budget 0 (byOffset [⟨0, 0, 0, 0⟩])
      = .error .unexpectedEof := by
    rw [Manifest.loadShard, hd, byOffset, List.mergeSort_singleton]
    dsimp only
    rw [Manifest.loadLocs, hlookup]
    dsimp only
    rw [if_neg (fun h => h.2 rfl), hread, Outcome.error_bind]
  have hbyFile := byFile_eq (m := m.reread) fun loc hloc => by
    rw [hexperts] at hloc
    rw [hfiles, List.mem_singleton.mp hloc]
    exact Nat.one_pos
  rw [PreloadStore.load, hbyFile, Outcome.ok_bind, Vectors.mapIdx_map_range, hfiles, hexperts]
  show joinAll [m.reread.loadShard d budget 0 (byOffset [⟨0, 0, 0, 0⟩])] >>= _ = _
  rw [hshard]
  rfl

/-- **The expert does not come back.** -/
theorem wide_blob_lost :
    ¬ GivesBack wideShape wideExperts (provide wideExperts) (fun _ => none) 1 (2 ^ 60) := by
  rintro ⟨d', m, m', store, hrepack, hload, hstore, -⟩
  have hserves : ∀ p ∈ wideShape.routed,
      provide wideExperts p.1 p.2 = .ok (wideExperts p.1 p.2).toExpert := fun _ _ => rfl
  obtain ⟨d₀, m₀, hrepack₀, hm, hd⟩ := repack_written wideExperts Nat.one_pos hserves
    (fun _ => none)
  cases hrepack₀.symm.trans hrepack
  rw [Dir.save_save] at hload hstore
  cases (loadFrom_save m d₀).symm.trans hload
  rw [load_wide hm ((Dir.save_shardPath m d₀ 0).trans (hd 0 Nat.one_pos))] at hstore
  cases hstore

end Colibri.Preload
