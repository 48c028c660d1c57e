import Mathlib.Algebra.Order.BigOperators.Group.List
import Mathlib.Tactic.Ring
import Colibri.Dsv4.Forward
import Colibri.Generate.Written

/-!
# Bytes charged, bytes held

A reservation asks `bytes_for` what a sequence will cost: a charge per token and a fixed one.
Beside it stands what the cache holds data in at each point of a run: the raw rows of the main
stack, the rows of the MTP head, the compressed rows of DeepSeek-V4 and the recurrent states,
its Compressors' among them. `charged_iff` compares the two over all runs.

They part in three places.

A ring of raw rows is charged in the fixed part, which returns early when `layer_kind` is empty,
and the V4 loader leaves it empty. So a V4 cache with a window is charged for no raw row.

The state of a Compressor is not charged anywhere. It is larger than what the layer is charged
for a token, so the first token is enough to show it, unless the configuration is without a
window and the roped keys that V4 does not write make up for it.

The rows of the head are not charged either. They are as many as the tokens generated, so they
have to fit in what each token is charged in excess: nothing, but for the device shadow.

> charged_iff: the charge covers every run if and only if none of the three happens
> charged_other_iff: the architectures without a ring
> charged_v4_iff: DeepSeek-V4
> forwardRun_holds: the cache of the V4 forward pass holds what is counted here

Byte counts are natural numbers here. The code saturates at `2^64`; no run holds that many.
-/

namespace Colibri.Kv

open Colibri.Dsv4
open Generate (Write runWrites writes placed reach headPlaces callLens)

/-! ## The charge -/

def isGqa (arch : Arch) : Bool := arch = .minimaxM3 || arch = .minimaxM2 || arch = .maple

/-- `allocates_gqa_kv`: the architectures with full keys and values. -/
def allocatesGqaKv (cfg : Config) : Bool := isGqa cfg.arch || cfg.arch = .nemotronH

/-- How many layers have a mixer of a kind. -/
def countKind (cfg : Config) (want : LayerKind) : Nat := cfg.layerKind.countP (fun k => k = want)

/-- `kv_layers`: the layers that hold KV. -/
def kvLayers (cfg : Config) : Nat :=
  if cfg.layerKind.isEmpty then asUsize cfg.nLayers else countKind cfg .attn

def mirrorsKvOnDevice (cfg : Config) : Bool := !allocatesGqaKv cfg && cfg.window = 0

/-- `raw_row_bytes`; `cuda` is the build feature. -/
def rawRowBytes (cuda : Bool) (cfg : Config) : Nat :=
  let latent := asUsize cfg.kvLora
  let mla := if mirrorsKvOnDevice cfg then asUsize cfg.qkRope else 0
  let gqaFull := if allocatesGqaKv cfg then 2 * asUsize cfg.nKvHeads * asUsize cfg.qkHead else 0
  let deviceShadow := if cuda && mirrorsKvOnDevice cfg then latent + mla else 0
  kvLayers cfg * (latent + mla + gqaFull + deviceShadow) * 4

/-- `ring_budget_bytes`, by the value of the environment's budget. -/
def ringBudgetBytes (budgetMb : Nat) (cfg : Config) : Nat :=
  if cfg.window ≤ 0 then 0 else budgetMb * 1048576

def ringRows (cuda : Bool) (budgetMb : Nat) (cfg : Config) : Nat :=
  if cfg.window ≤ 0 then 0
  else max (ringBudgetBytes budgetMb cfg / max (rawRowBytes cuda cfg) 1) (asUsize cfg.window)
    + asUsize cfg.window

/-- Floats a compressing layer is charged per token: whole floats, so rounded
down. -/
def compressedFloats (cfg : Config) (r : Int) : Nat :=
  asUsize cfg.qkHead / asUsize r + if r = 4 then asUsize cfg.indexHd / asUsize r else 0

def compressedBytesPerToken (cfg : Config) : Nat :=
  let n := max cfg.layerKind.length (asUsize cfg.nLayers)
  (((cfg.compressRatios.take n).filter (fun r => decide (r > 0))).map
    (fun r => compressedFloats cfg r * 4)).sum

/-- `bytes_per_token`: no raw row under a ring. -/
def bytesPerToken (cuda : Bool) (cfg : Config) : Nat :=
  (if cfg.window > 0 then 0 else rawRowBytes cuda cfg) + compressedBytesPerToken cfg

/-- Floats of a Mamba layer's convolution history and scan state. -/
def mambaFloats (cfg : Config) : Nat :=
  asUsize cfg.mambaDConv
      * (asUsize cfg.mambaInter + 2 * asUsize cfg.mambaNGroups * asUsize cfg.mambaDState)
    + asUsize cfg.mambaNHeads * asUsize cfg.mambaHeadDim * asUsize cfg.mambaDState

/-- `kda_state_lens`, summed. -/
def kdaFloats (cfg : Config) : Nat :=
  asUsize cfg.kdaDConv * 3 * asUsize cfg.kdaNHeads * asUsize cfg.kdaHeadDim
    + asUsize cfg.kdaNHeads * asUsize cfg.kdaHeadDim * asUsize cfg.kdaHeadDim

/-- `fixed_bytes`: the recurrent states and the ring, unless `layer_kind` is
empty. -/
def fixedBytes (cuda : Bool) (budgetMb : Nat) (cfg : Config) : Nat :=
  if cfg.layerKind.isEmpty then 0
  else
    let ring := ringRows cuda budgetMb cfg * rawRowBytes cuda cfg
    (countKind cfg .mamba * mambaFloats cfg + countKind cfg .kda * kdaFloats cfg) * 4 + ring

def bytesForSplit (cuda : Bool) (budgetMb : Nat) (cfg : Config) (nPrompt nNew : Nat) : Nat :=
  bytesPerToken cuda cfg * (nPrompt + nNew) + fixedBytes cuda budgetMb cfg

def bytesFor (cuda : Bool) (budgetMb : Nat) (cfg : Config) (nTokens : Nat) : Nat :=
  bytesForSplit cuda budgetMb cfg nTokens 0

/-! ## The calls of a run -/

/-- `dsv4_prefill_chunk` by default: one call within the budget, else chunks of
the budget's rows. -/
def dsv4PrefillChunk (cuda : Bool) (budgetMb : Nat) (cfg : Config) (s : Nat) : Nat :=
  let row := max (rawRowBytes cuda cfg) 1
  let budgetRows := max (ringBudgetBytes budgetMb cfg / row) (asUsize (max cfg.window 1))
  if s ≤ budgetRows then usizeCount - 1 else budgetRows

/-- The call lengths of `dsv4_forward_chunked`. -/
def chunkLens (s chunk : Nat) : List Nat :=
  let chunk := max chunk 1
  if s ≤ chunk then [s]
  else (List.range ((s + chunk - 1) / chunk)).map (fun k => min chunk (s - k * chunk))

/-- What a run is made with: the build feature, the ring's budget, `has_mtp` with the number of
the head's blocks that keep rows, `DRAFT`, and whether recurrent states are rolled back. -/
structure Setting where
  cuda : Bool
  budgetMb : Nat
  head : Option Nat
  draft : Nat
  rollback : Bool

/-- The calls for the prompt: V4 alone cuts it. -/
def prefillCalls (cuda : Bool) (budgetMb : Nat) (cfg : Config) (n : Nat) : List Nat :=
  if cfg.arch = .deepseekV4 then chunkLens n (dsv4PrefillChunk cuda budgetMb cfg n) else [n]

/-- What a run for `n` prompt tokens and `m` more writes. -/
def Setting.run (s : Setting) (cfg : Config) (n m : Nat) (answers : List (Nat × Bool)) :
    List Write :=
  runWrites s.rollback (prefillCalls s.cuda s.budgetMb cfg n) m
    (if s.head.isSome then s.draft else 0) answers

/-! ## What the cache holds -/

/-- The ring width after the calls: `ring_ensure` to each call's span. -/
def ringAfter (window : Int) : Nat → Nat → List Nat → Nat
  | _, ring, [] => ring
  | posBase, ring, s :: ss =>
    let (rawLo, total, _) := dsv4RawSpan posBase s window
    ringAfter window (posBase + s) (if window > 0 then max ring (total - rawLo) else ring) ss

/-- Floats a layer writes for one raw row: full keys and values, or the latent row with its roped
key, which V4 does not keep apart. -/
def layerRowFloats (cfg : Config) : Nat :=
  if allocatesGqaKv cfg then 2 * asUsize cfg.nKvHeads * asUsize cfg.qkHead
  else asUsize cfg.kvLora + if cfg.arch = .deepseekV4 then 0 else asUsize cfg.qkRope

/-- Floats the main stack writes for one raw row. -/
def rawRowFloats (cfg : Config) : Nat := kvLayers cfg * layerRowFloats cfg

/-- Floats the head writes for one row. -/
def Setting.headRowFloats (s : Setting) (cfg : Config) : Nat := s.head.getD 0 * layerRowFloats cfg

/-- Floats of the compressed rows stored after `p` tokens, on a layer of ratio
`r` and its Indexer. -/
def storedFloats (cfg : Config) (p : Nat) (r : Int) : Nat :=
  (if r > 0 then CompLayer.stored (compRoom cfg) (p / asUsize r) * asUsize cfg.qkHead else 0)
    + if r = 4 ∧ cfg.indexHd > 0 then
        CompLayer.stored (icompRoom cfg) (p / 4) * asUsize cfg.indexHd else 0

/-- Floats of the compressed rows of all layers. -/
def compFloats (cfg : Config) (p : Nat) : Nat :=
  ((List.range (asUsize cfg.nLayers)).map (fun j => storedFloats cfg p (cfg.compRatio j))).sum

/-- Floats of a Compressor's state: `CompressorState::new` has values and scores. -/
def compressorFloats (ratio d : Nat) : Nat :=
  let coff := if ratio = 4 then 2 else 1
  2 * ((coff * ratio) * (coff * d))

/-- Floats of the states of a layer of ratio `r`: `comp_state`, and `icomp_state` of its Indexer. -/
def stateFloatsOf (cfg : Config) (r : Int) : Nat :=
  (if r > 0 then compressorFloats (asUsize r) (asUsize cfg.qkHead) else 0)
    + if r = 4 ∧ cfg.indexHd > 0 then compressorFloats 4 (asUsize cfg.indexHd) else 0

/-- Floats of the Compressors' states, which the first forward makes. -/
def compStateFloats (cfg : Config) : Nat :=
  ((List.range (asUsize cfg.nLayers)).map (fun j => stateFloatsOf cfg (cfg.compRatio j))).sum

/-- Floats of the recurrent states the cache is given. -/
def stateFloats (cfg : Config) : Nat :=
  if cfg.arch = .nemotronH then countKind cfg .mamba * mambaFloats cfg
  else if cfg.arch = .kimiK3 then countKind cfg .kda * kdaFloats cfg
  else 0

/-- Bytes of the raw rows of the main stack. V4 does not draft, so that its calls follow each
other. -/
def rawHeldBytes (cfg : Config) (ws : List Write) : Nat :=
  (if cfg.window > 0 then ringAfter cfg.window 0 0 (callLens ws) else reach ws)
    * rawRowFloats cfg * 4

/-- Bytes of all rows and states that are held after the writes. -/
def Setting.heldBytes (s : Setting) (cfg : Config) (ws : List Write) : Nat :=
  rawHeldBytes cfg ws + ((headPlaces ws).card * s.headRowFloats cfg + compFloats cfg (reach ws)
    + (if ws.isEmpty then 0 else compStateFloats cfg) + stateFloats cfg) * 4

/-! ## The cache of the forward pass holds that

`ringAfter` and `compFloats` are what the model's own cache comes to. -/

section

variable {α β X : Type}

/-- The ring after it was ensured is the wider of the two. -/
theorem ringEnsure_ring [Inhabited α] [Inhabited β] {kv kv' : RawRows α β} {rows : Nat}
    (h : kv.ringEnsure rows = some kv') : kv'.ring = max kv.ring rows := by
  unfold RawRows.ringEnsure at h
  split at h
  next hle =>
    cases h
    omega
  next hgt =>
    split at h
    next hz =>
      split at h
      · cases h
        show rows = _
        omega
      · cases h
    next =>
      dsimp only at h
      split at h
      · cases h
      · split at h
        · cases h
        · cases h
          show rows = _
          omega

/-- Writing rows does not resize the ring. -/
theorem writeRows_ring {kv kv' : RawRows α β} {layer pos : Nat} {rows : List α}
    (h : kv.writeRows layer pos rows = some kv') : kv'.ring = kv.ring := by
  induction rows generalizing kv pos with
  | nil =>
    cases h
    rfl
  | cons row rows ih =>
    rw [RawRows.writeRows] at h
    split at h
    · cases h
    next kv₁ hset =>
      have htouch : (kv.ringTouch pos).ring = kv.ring := by
        unfold RawRows.ringTouch
        split <;> rfl
      have hset' : kv₁.ring = kv.ring := by
        unfold RawRows.setLatentRow at hset
        dsimp only at hset
        split at hset
        · cases hset
        · split at hset
          · cases hset
            exact htouch
          · cases hset
      rw [ih h, hset']

variable {posBase : Nat} {kv : KvCache α} {l : Layer α X}

/-- One layer of a call widens the ring to the call's span. -/
theorem rawAttention_ring [Inhabited α] [Inhabited β] {kv kv' : RawRows α β} {window : Int}
    (hw : window > 0) {li : Nat} {rows raw : List α}
    (h : rawAttention kv window li posBase rows = some (kv', raw)) :
    kv'.ring = max kv.ring (posBase + rows.length - rawLo window posBase) := by
  unfold rawAttention dsv4RingFor at h
  rw [dsv4RawSpan_eq hw] at h
  simp only [hw, if_true] at h
  split at h
  · cases h
  next kv₁ _ _ _ hsized =>
    split at hsized
    · cases hsized
    next kv₂ hens =>
      cases hsized
      split at h
      · cases h
      next kv₃ hwrite =>
        obtain ⟨_, _, hkv⟩ := Option.map_eq_some_iff.mp h
        cases hkv
        rw [writeRows_ring hwrite, ringEnsure_ring hens]

variable [Zero α] [Add α] [LinearOrder α] {pool : List (Slot α) → List α} {knobs : Knobs}
  {cfg : Config}

theorem dsv4Attention_ring (hw : cfg.window > 0) {li : Nat}
    {kv' : KvCache α} {xs : List X} {t : Trace} {rows : List (List (List α))}
    (h : dsv4Attention pool knobs cfg l li kv xs posBase = some (kv', t, rows)) :
    kv'.raw.ring = max kv.raw.ring (posBase + xs.length - rawLo cfg.window posBase) := by
  unfold dsv4Attention at h
  dsimp only at h
  split at h
  · cases h
  next raw rawRows hatt =>
    have hring := rawAttention_ring hw hatt
    rw [List.length_mapIdx] at hring
    split at h
    · cases h
    · split at h
      · cases h
      · split at h
        · cases h
        · cases h
          exact hring

theorem layersForward_ring (hw : cfg.window > 0) {li : Nat}
    {ls : List (Layer α X)} {kv' : KvCache α} {xs ys : List X} {ts : List Trace}
    (h : layersForward pool knobs cfg posBase li kv (l :: ls) xs = some (kv', ts, ys)) :
    kv'.raw.ring = max kv.raw.ring (posBase + xs.length - rawLo cfg.window posBase) := by
  induction ls generalizing l li kv xs ts with
  | nil =>
    rw [layersForward] at h
    split at h
    · cases h
    next hatt =>
      cases h
      exact dsv4Attention_ring hw hatt
  | cons l' ls ih =>
    rw [layersForward] at h
    split at h
    · cases h
    next hatt =>
      obtain ⟨⟨kv₂, ts₂, ys₂⟩, hrest, hkv⟩ := Option.map_eq_some_iff.mp h
      cases hkv
      rw [ih hrest, dsv4Attention_ring hw hatt, List.length_mapIdx, Nat.max_assoc, Nat.max_self]

/-- **The ring** of a run's cache. -/
theorem forwardRun_ring (hw : cfg.window > 0) {layers : List (Layer α X)} (hne : layers ≠ [])
    {kv' : KvCache α} {chunks outs : List (List X)} {traces : List (List Trace)}
    (h : forwardRun pool knobs cfg layers posBase kv chunks = some (kv', traces, outs)) :
    kv'.raw.ring = ringAfter cfg.window posBase kv.raw.ring (chunks.map List.length) := by
  induction chunks generalizing posBase kv traces outs with
  | nil =>
    cases h
    rfl
  | cons xs rest ih =>
    rw [forwardRun] at h
    split at h
    · cases h
    next hfwd =>
      obtain ⟨⟨kv₂, ts₂, ys₂⟩, hrest, hkv⟩ := Option.map_eq_some_iff.mp h
      cases hkv
      obtain ⟨l, ls, rfl⟩ := List.exists_cons_of_ne_nil hne
      have hring := layersForward_ring hw hfwd
      rw [initComp_raw] at hring
      rw [ih hrest, hring, List.map_cons, ringAfter, dsv4RawSpan_eq hw]
      dsimp only
      rw [if_pos hw]

omit [Add α] [LinearOrder α] in
/-- **The state** of a Compressor, as it is made. -/
theorem compressorFloats_new (ratio d : Nat) :
    ((CompressorState.new (α := α) ratio d).slots.map
      (fun slot => slot.kv.length + slot.score.length)).sum = compressorFloats ratio d := by
  unfold CompressorState.new compressorFloats Slot.empty
  simp only [List.map_replicate, List.length_replicate, List.sum_replicate_nat]
  ring

/-- Floats of the compressed rows in a cache. -/
def rowFloats (cfg : Config) (kv : KvCache α) : Nat :=
  ((List.range (asUsize cfg.nLayers)).map (fun j =>
    (kv.comp.getD j CompLayer.off).rows.length * asUsize cfg.qkHead
      + (kv.icomp.getD j CompLayer.off).rows.length * asUsize cfg.indexHd)).sum

omit [LinearOrder α] in
theorem mainRows_length {j p : Nat} {S : Nat → X} {c : CompLayer α}
    (hw : cfg.compRatio j > 0 → l.comp ≠ none)
    (h : MainHolds pool ⟨true, true, none⟩ cfg l j S p c) :
    c.rows.length = if cfg.compRatio j > 0 then
      CompLayer.stored (compRoom cfg) (p / asUsize (cfg.compRatio j)) else 0 := by
  rw [h.length, storedAt]
  by_cases hr : cfg.compRatio j > 0
  · obtain ⟨w, hsome⟩ := Option.ne_none_iff_exists'.mp (hw hr)
    have hmain : mainComp ⟨true, true, none⟩ cfg l j = some w := by
      rw [mainComp, if_pos ⟨rfl, hr⟩, hsome]
    rw [hmain, if_pos hr]
  · have hmain : mainComp ⟨true, true, none⟩ cfg l j = none := if_neg (fun hc => hr hc.2)
    rw [hmain, if_neg hr]

omit [LinearOrder α] in
theorem indexRows_length {j p : Nat} {S : Nat → X} {c : CompLayer α}
    (hix : cfg.compRatio j = 4 → l.indexer ≠ none)
    (h : IndexHolds pool ⟨true, true, none⟩ cfg l j S p c) :
    c.rows.length = if cfg.compRatio j = 4 ∧ cfg.indexHd > 0 then
      CompLayer.stored (icompRoom cfg) (p / 4) else 0 := by
  unfold IndexHolds at h
  by_cases hr : cfg.compRatio j = 4 ∧ cfg.indexHd > 0
  · obtain ⟨ix, hsome⟩ := Option.ne_none_iff_exists'.mp (hix hr.1)
    have hidx : mainIndexer ⟨true, true, none⟩ cfg l j = some ix := by
      rw [mainIndexer, if_pos ⟨rfl, rfl, hr.2, hr.1⟩, hsome]
    rw [hidx] at h
    rw [if_pos hr, h.rows_eq, List.length_map, List.length_range]
    rfl
  · have hidx : mainIndexer ⟨true, true, none⟩ cfg l j = none :=
      if_neg (fun hc => hr ⟨hc.2.2.2, hc.2.2.1⟩)
    rw [hidx] at h
    rw [if_neg hr, h.1]
    rfl

omit [LinearOrder α] in
/-- **The compressed rows** of a cache that holds `p` tokens, where every layer
the configuration gives a compressor or an Indexer has one. -/
theorem rowFloats_eq {layers : List (Layer α X)} (hlen : layers.length = asUsize cfg.nLayers)
    {S : Nat → Nat → X} {p : Nat}
    (hcomp : ∀ j l, layers[j]? = some l → cfg.compRatio j > 0 → l.comp ≠ none)
    (hindex : ∀ j l, layers[j]? = some l → cfg.compRatio j = 4 → l.indexer ≠ none)
    (h : ∀ j l, layers[j]? = some l →
      CompHolds pool ⟨true, true, none⟩ cfg l j (S j) p kv) :
    rowFloats cfg kv = compFloats cfg p := by
  unfold rowFloats compFloats
  congr 1
  apply List.map_congr_left
  intro j hj
  rw [List.mem_range] at hj
  obtain ⟨layer, hl⟩ : ∃ layer, layers[j]? = some layer :=
    ⟨_, List.getElem?_eq_getElem (show j < layers.length by omega)⟩
  have hhold := h j _ hl
  rw [mainRows_length (hcomp j _ hl) hhold.main, indexRows_length (hindex j _ hl) hhold.index,
    storedFloats]
  congr 1 <;> split <;> first | rfl | exact Nat.zero_mul _

/-- **The cache holds what is counted**: a run of the forward pass from a new cache leaves a ring of
`ringAfter` rows, and `compFloats` floats of compressed rows. -/
theorem forwardRun_holds [Inhabited X] (hw : cfg.window > 0) {layers : List (Layer α X)}
    (hne : layers ≠ []) (hlen : layers.length = asUsize cfg.nLayers) {nRows maxT : Nat}
    (hcomp : ∀ j l, layers[j]? = some l → cfg.compRatio j > 0 → l.comp ≠ none)
    (hindex : ∀ j l, layers[j]? = some l → cfg.compRatio j = 4 → l.indexer ≠ none)
    {x0 : Nat → X} {chunks : List (List X)}
    (hfits : RunFits ⟨true, true, none⟩ cfg layers nRows maxT 0 chunks)
    (hx : chunks.flatten = piece x0 0 chunks.flatten.length) :
    ∃ kv traces outs, forwardRun pool ⟨true, true, none⟩ cfg layers 0 (KvCache.new nRows maxT)
        chunks = some (kv, traces, outs) ∧
      kv.raw.ring = ringAfter cfg.window 0 0 (chunks.map List.length) ∧
      rowFloats cfg (initComp ⟨true, true, none⟩ cfg layers.length kv)
        = compFloats cfg (chunks.flatten.length) := by
  obtain ⟨kv, traces, outs, hrun, hend, -⟩ := forwardRun_spec pool
    (List.length_pos_iff.mpr hne) hfits hx (between_new pool _ _ nRows maxT)
  refine ⟨kv, traces, outs, hrun, forwardRun_ring hw hne hrun, ?_⟩
  have hrows := rowFloats_eq hlen hcomp hindex hend.comp
  rwa [Nat.zero_add] at hrows

end

/-! ## Charged for what it holds -/

/-- The configurations loading accepts, as far as the accounting sees them: the V4 loader's, which
has no MTP head, and the others', none of which has a window or compress ratios. -/
inductive Accepted (s : Setting) : Config → Prop where
  | deepseekV4 (r : Dsv4Json) (hhead : s.head = none) : Accepted s (fromJsonDeepseekV4 r)
  | other {cfg : Config} (harch : cfg.arch ≠ .deepseekV4) (hwindow : cfg.window = 0)
      (hratios : cfg.compressRatios = []) : Accepted s cfg

/-- At every point of every run both figures cover what is held, and under a ring the fixed part
covers the ring. -/
def Charged (s : Setting) (cfg : Config) : Prop :=
  (∀ n m answers k, 0 < n →
    s.heldBytes cfg ((s.run cfg n m answers).take k) ≤ bytesFor s.cuda s.budgetMb cfg (n + m) ∧
      s.heldBytes cfg ((s.run cfg n m answers).take k)
        ≤ bytesForSplit s.cuda s.budgetMb cfg n m) ∧
  (cfg.window > 0 → ∀ n m answers k, 0 < n →
    rawHeldBytes cfg ((s.run cfg n m answers).take k) ≤ fixedBytes s.cuda s.budgetMb cfg)

/-- Floats a token is charged for that no forward writes on the host: a latent row beside full keys
and values, the roped key of V4, and the device shadow. -/
def unwrittenFloats (cuda : Bool) (cfg : Config) : Nat :=
  if cfg.window = 0 then
    kvLayers cfg * ((if allocatesGqaKv cfg then asUsize cfg.kvLora
        else if cfg.arch = .deepseekV4 then asUsize cfg.qkRope else 0)
      + if cuda && !allocatesGqaKv cfg then asUsize cfg.kvLora + asUsize cfg.qkRope else 0)
  else 0

/-- Floats a token is charged for the compressed rows. -/
def compressedFloatsPerToken (cfg : Config) : Nat :=
  (((cfg.compressRatios.take (asUsize cfg.nLayers)).filter (fun r => decide (r > 0))).map
    (compressedFloats cfg)).sum

/-- **When the charge covers a cache**, by its configuration alone. -/
structure Covered (s : Setting) (cfg : Config) : Prop where
  /-- under a window there is no raw row -/
  ring : cfg.window > 0 → rawRowFloats cfg = 0
  /-- no Compressor has a state; or, without a window, the states and the rows of the first block
  fit in what a token is charged and does not write -/
  compressed : compStateFloats cfg = 0 ∨ ((cfg.window = 0 ∨ cfg.indexHd < 0) ∧
    compStateFloats cfg + compFloats cfg 1
      ≤ compressedFloatsPerToken cfg + unwrittenFloats s.cuda cfg)
  /-- no draft is made, or a row of the head is no more than that either -/
  head : s.head = none ∨ s.draft = 0 ∨ s.headRowFloats cfg ≤ unwrittenFloats s.cuda cfg

/-! ## Call lengths -/

private theorem sum_chunks (chunk s : Nat) (n : Nat) :
    ((List.range n).map (fun k => min chunk (s - k * chunk))).sum = min s (n * chunk) := by
  induction n with
  | zero => rw [Nat.zero_mul, Nat.min_zero]; rfl
  | succ n ih =>
    rw [List.range_succ, List.map_append, List.sum_append, ih, Nat.succ_mul]
    simp only [List.map_cons, List.map_nil, List.sum_cons, List.sum_nil]
    omega

/-- The chunks of a prompt make up the prompt. -/
theorem sum_chunkLens (s chunk : Nat) : (chunkLens s chunk).sum = s := by
  unfold chunkLens
  dsimp only
  split
  · exact Nat.add_zero s
  next h =>
    rw [sum_chunks]
    have hpos : 0 < max chunk 1 := Nat.lt_of_lt_of_le Nat.zero_lt_one (Nat.le_max_right _ _)
    have hlt := Nat.lt_div_mul_add hpos (a := s + max chunk 1 - 1)
    omega

theorem sum_prefillCalls (cuda : Bool) (budgetMb : Nat) (cfg : Config) (n : Nat) :
    (prefillCalls cuda budgetMb cfg n).sum = n := by
  unfold prefillCalls
  split
  · exact sum_chunkLens ..
  · exact List.sum_singleton

/-- Without a head, or drafts, a run is calls that follow each other. -/
theorem run_plain {s : Setting} {cfg : Config} (h : s.head = none ∨ s.draft = 0)
    (n m : Nat) (answers : List (Nat × Bool)) :
    ∃ lens, lens.sum ≤ n + m ∧ s.run cfg n m answers = placed 0 lens := by
  have hoff : (if s.head.isSome then s.draft else 0) = 0 := by
    rcases h with h | h <;> simp [h]
  obtain ⟨j, hj, hrest⟩ := Generate.writes_plain m (n + m) s.rollback answers ⟨n, 0, 0, 0, 0⟩ rfl
  refine ⟨prefillCalls s.cuda s.budgetMb cfg n ++ List.replicate j 1, ?_, ?_⟩
  · rw [List.sum_append, sum_prefillCalls, List.sum_replicate_nat, Nat.mul_one]
    dsimp only at hj
    omega
  · rw [Setting.run, runWrites, hoff, sum_prefillCalls, hrest, Generate.placed_append,
      sum_prefillCalls, Nat.zero_add]

/-! ## Architectures without a ring or compressed rows -/

theorem sum_layers_zero {f : Int → Nat} {cfg : Config} (h : cfg.compressRatios = [])
    (hf : f 0 = 0) :
    ((List.range (asUsize cfg.nLayers)).map (fun j => f (cfg.compRatio j))).sum = 0 := by
  rw [List.sum_eq_zero]
  intro x hx
  obtain ⟨j, _, rfl⟩ := List.mem_map.mp hx
  have hr : cfg.compRatio j = 0 := by rw [Config.compRatio, h]; rfl
  rw [hr, hf]

theorem compFloats_nil {cfg : Config} (h : cfg.compressRatios = []) (p : Nat) :
    compFloats cfg p = 0 := sum_layers_zero h rfl

theorem compStateFloats_nil {cfg : Config} (h : cfg.compressRatios = []) :
    compStateFloats cfg = 0 := sum_layers_zero h rfl

/-- The row charged is the row written and the part that is not. -/
theorem rawRowBytes_eq (cuda : Bool) {cfg : Config} (hwindow : cfg.window = 0) :
    rawRowBytes cuda cfg = (rawRowFloats cfg + unwrittenFloats cuda cfg) * 4 := by
  unfold rawRowBytes rawRowFloats unwrittenFloats mirrorsKvOnDevice layerRowFloats
  rw [if_pos hwindow, hwindow]
  dsimp only
  rw [← Nat.mul_add]
  refine congrArg (fun row => kvLayers cfg * row * 4) ?_
  cases hg : allocatesGqaKv cfg
  · by_cases ha : cfg.arch = .deepseekV4
    · cases cuda
      · simp [ha]
      · simp [ha]
        omega
    · cases cuda <;> simp [ha]
  · simp
    omega

/-- The states given are among those charged. -/
theorem stateFloats_le (cuda : Bool) (budgetMb : Nat) (cfg : Config) :
    stateFloats cfg * 4 ≤ fixedBytes cuda budgetMb cfg := by
  unfold stateFloats fixedBytes
  by_cases he : cfg.layerKind = []
  · have hcount : ∀ want, countKind cfg want = 0 := fun want => by rw [countKind, he]; rfl
    rw [hcount, hcount]
    split <;> [skip; split] <;> omega
  · have hne : cfg.layerKind.isEmpty = false := by
      rw [List.isEmpty_eq_false_iff]
      exact he
    rw [hne]
    simp only [Bool.false_eq_true, if_false]
    split <;> [skip; split] <;> omega

section

variable {s : Setting} {cfg : Config}

theorem bytesFor_eq (cuda : Bool) (budgetMb : Nat) (cfg : Config) (n m : Nat) :
    bytesFor cuda budgetMb cfg (n + m) = bytesForSplit cuda budgetMb cfg n m := by
  rw [bytesFor, bytesForSplit, bytesForSplit, Nat.add_zero]

/-- What is charged without a ring. -/
theorem bytesForSplit_other (hwindow : cfg.window = 0) (hratios : cfg.compressRatios = [])
    (n m : Nat) : bytesForSplit s.cuda s.budgetMb cfg n m
      = ((n + m) * rawRowFloats cfg + (n + m) * unwrittenFloats s.cuda cfg) * 4
        + fixedBytes s.cuda s.budgetMb cfg := by
  have hcomp : compressedBytesPerToken cfg = 0 := by
    unfold compressedBytesPerToken
    rw [hratios]
    dsimp only
    rw [List.take_nil]
    rfl
  rw [bytesForSplit, bytesPerToken, hwindow, if_neg (Int.lt_irrefl 0), hcomp,
    rawRowBytes_eq s.cuda hwindow, Nat.add_zero, ← Nat.mul_add]
  ring

/-- What is held without a ring. -/
theorem heldBytes_other (hwindow : cfg.window = 0) (hratios : cfg.compressRatios = [])
    (ws : List Write) : s.heldBytes cfg ws
      = (reach ws * rawRowFloats cfg + (headPlaces ws).card * s.headRowFloats cfg
        + stateFloats cfg) * 4 := by
  rw [Setting.heldBytes, rawHeldBytes, hwindow, if_neg (Int.lt_irrefl 0), compFloats_nil hratios,
    compStateFloats_nil hratios, ite_self]
  ring

/-- A run stays in its cache, at each point. -/
theorem run_within (harch : cfg.arch ≠ .deepseekV4) {n : Nat} (hn : 0 < n) (m : Nat)
    (answers : List (Nat × Bool)) (k : Nat) :
    Generate.AllWithin n m ((s.run cfg n m answers).take k) := by
  have hrun : Generate.AllWithin n m (s.run cfg n m answers) := by
    unfold Setting.run runWrites prefillCalls
    rw [if_neg harch, List.sum_singleton]
    refine Generate.allWithin_append.mpr ⟨Generate.allWithin_singleton ?_,
      Generate.writes_within hn answers _ rfl⟩
    show 0 + n ≤ n + (m - 1)
    omega
  exact fun w hw => hrun w (List.mem_of_mem_take hw)

/-- The head holds no row without drafts. -/
theorem head_held_le (harch : cfg.arch ≠ .deepseekV4)
    (h : s.head = none ∨ s.draft = 0 ∨ s.headRowFloats cfg ≤ unwrittenFloats s.cuda cfg) {n : Nat}
    (hn : 0 < n) (m : Nat) (answers : List (Nat × Bool)) (k : Nat) :
    (headPlaces ((s.run cfg n m answers).take k)).card * s.headRowFloats cfg
      ≤ (n + m) * unwrittenFloats s.cuda cfg := by
  have hplain : s.head = none ∨ s.draft = 0 →
      (headPlaces ((s.run cfg n m answers).take k)).card = 0 := by
    intro hoff
    obtain ⟨lens, -, hrun⟩ := run_plain hoff n m answers
    rw [hrun, Generate.placed_take, Generate.headPlaces_placed]
    rfl
  rcases h with h | h | h
  · rw [hplain (.inl h), Nat.zero_mul]
    exact Nat.zero_le _
  · rw [hplain (.inr h), Nat.zero_mul]
    exact Nat.zero_le _
  · refine Nat.mul_le_mul ?_ h
    have := Generate.card_headPlaces (run_within (s := s) harch hn m answers k)
    omega

/-- A run whose drafts are all accepted: the head holds a row for each token but one. -/
theorem run_full (harch : cfg.arch ≠ .deepseekV4) (hhead : s.head ≠ none) (hdraft : s.draft ≠ 0)
    (m : Nat) (hm : 1 < m) : ∃ answers, m ≤ reach (s.run cfg 1 m answers) ∧
      m - 1 ≤ (headPlaces (s.run cfg 1 m answers)).card := by
  obtain ⟨hreach, hplaces⟩ := @Generate.writes_full 1 m s.rollback Nat.one_pos m
    ⟨1, 0, s.draft, 0, 0⟩ rfl (Nat.pos_of_ne_zero hdraft) rfl hm (by dsimp only; omega)
  have hrun : s.run cfg 1 m (List.replicate m (m, false)) = placed 0 [1] ++
      writes m (1 + m) s.rollback ⟨1, 0, s.draft, 0, 0⟩ (List.replicate m (m, false)) := by
    unfold Setting.run runWrites prefillCalls
    rw [if_neg harch, List.sum_singleton, if_pos (Option.isSome_iff_ne_none.mpr hhead)]
  refine ⟨List.replicate m (m, false), ?_, ?_⟩
  · rw [hrun, Generate.reach_append, hreach]
    omega
  · have hsub : Finset.Ico 0 (m - 1) ⊆ headPlaces (s.run cfg 1 m (List.replicate m (m, false))) := by
      intro q hq
      have hq := Finset.mem_Ico.mp hq
      rw [hrun, Generate.headPlaces_append]
      exact Finset.mem_union_right _ (hplaces q (by dsimp only; omega) (by omega))
    have hcard := Finset.card_le_card hsub
    rwa [Nat.card_Ico, Nat.sub_zero] at hcard

/-- **Without a ring**: only the head's rows can be too many. -/
theorem charged_other_iff (harch : cfg.arch ≠ .deepseekV4) (hwindow : cfg.window = 0)
    (hratios : cfg.compressRatios = []) : Charged s cfg ↔ Covered s cfg := by
  constructor
  · rintro ⟨hheld, -⟩
    refine ⟨fun hw => absurd hwindow (by omega), ?_, ?_⟩
    · exact .inl (compStateFloats_nil hratios)
    · by_contra hno
      push Not at hno
      obtain ⟨hhead, hdraft, hwide⟩ := hno
      -- so many tokens that the charge for one more does not make up for the head
      let m := rawRowFloats cfg + 2 * unwrittenFloats s.cuda cfg
        + fixedBytes s.cuda s.budgetMb cfg + 2
      obtain ⟨answers, hreach, hplaces⟩ := run_full harch hhead hdraft m (by omega)
      have h := (hheld 1 m answers (s.run cfg 1 m answers).length Nat.one_pos).2
      rw [List.take_length, heldBytes_other hwindow hratios, bytesForSplit_other hwindow hratios]
        at h
      have hrows := Nat.mul_le_mul_right (rawRowFloats cfg) hreach
      have hhead' : (m - 1) * (unwrittenFloats s.cuda cfg + 1)
          ≤ (headPlaces (s.run cfg 1 m answers)).card * s.headRowFloats cfg :=
        Nat.mul_le_mul hplaces hwide
      have hm : m = m - 1 + 1 := by omega
      have hsplit : (1 + m) * unwrittenFloats s.cuda cfg
          = (m - 1) * unwrittenFloats s.cuda cfg + 2 * unwrittenFloats s.cuda cfg := by
        rw [hm, Nat.add_sub_cancel]
        ring
      have hraw : (1 + m) * rawRowFloats cfg = rawRowFloats cfg + m * rawRowFloats cfg := by ring
      rw [Nat.mul_add, Nat.mul_one] at hhead'
      rw [hsplit, hraw] at h
      omega
  · rintro ⟨-, -, hhead⟩
    have hcover : ∀ n m answers k, 0 < n →
        s.heldBytes cfg ((s.run cfg n m answers).take k)
          ≤ bytesForSplit s.cuda s.budgetMb cfg n m := by
      intro n m answers k hn
      have hstate := stateFloats_le s.cuda s.budgetMb cfg
      have hrows := Nat.mul_le_mul_right (rawRowFloats cfg)
        ((Generate.reach_le (run_within (s := s) harch hn m answers k)).trans
          (by omega : n + (m - 1) ≤ n + m))
      have hplaces := head_held_le harch hhead hn m answers k
      rw [heldBytes_other hwindow hratios, bytesForSplit_other hwindow hratios]
      omega
    refine ⟨fun n m answers k hn => ⟨?_, hcover n m answers k hn⟩,
      fun hw => absurd hwindow (by omega)⟩
    rw [bytesFor_eq]
    exact hcover n m answers k hn

end

/-! ## V4 -/

/-- A state has room for two rows at least. -/
theorem le_compressorFloats {ratio : Nat} (hratio : 0 < ratio) (d : Nat) :
    2 * d ≤ compressorFloats ratio d := by
  have hrow : d ≤ ratio * d := Nat.le_mul_of_pos_left d hratio
  have hcoff : ratio * d ≤ (if ratio = 4 then 2 else 1) * ratio
      * ((if ratio = 4 then 2 else 1) * d) := by
    split
    · calc ratio * d ≤ 4 * (ratio * d) := Nat.le_mul_of_pos_left _ (by omega)
        _ = 2 * ratio * (2 * d) := by ring
    · rw [Nat.one_mul, Nat.one_mul]
  exact Nat.mul_le_mul_left 2 (hrow.trans hcoff)

/-- The rows that a layer has after `t` tokens are at most half of what its states would be for each
token. -/
theorem storedFloats_le (cfg : Config) (t : Nat) (r : Int) :
    2 * storedFloats cfg t r ≤ t * stateFloatsOf cfg r := by
  have hstored : ∀ room n, CompLayer.stored room n ≤ n := fun room n => Nat.min_le_left n room
  have hlayer : ∀ (room ratio d : Nat), 0 < ratio →
      2 * (CompLayer.stored room (t / ratio) * d) ≤ t * compressorFloats ratio d := by
    intro room ratio d hratio
    have hrows := (hstored room (t / ratio)).trans (Nat.div_le_self t ratio)
    calc 2 * (CompLayer.stored room (t / ratio) * d) ≤ 2 * (t * d) :=
          Nat.mul_le_mul_left 2 (Nat.mul_le_mul_right d hrows)
      _ = t * (2 * d) := by ring
      _ ≤ t * compressorFloats ratio d := Nat.mul_le_mul_left t (le_compressorFloats hratio d)
  unfold storedFloats stateFloatsOf
  rw [Nat.mul_add, Nat.mul_add]
  refine Nat.add_le_add ?_ ?_
  · split
    next hr =>
      rcases Nat.eq_zero_or_pos (asUsize r) with hz | hpos
      · rw [hz, Nat.div_zero, CompLayer.stored, Nat.zero_min, Nat.zero_mul]
        exact Nat.zero_le _
      · exact hlayer _ _ _ hpos
    next => exact Nat.zero_le _
  · split
    next => exact hlayer _ 4 _ (by omega)
    next => exact Nat.zero_le _

theorem compFloats_le (cfg : Config) (t : Nat) :
    2 * compFloats cfg t ≤ t * compStateFloats cfg := by
  unfold compFloats compStateFloats
  rw [← List.sum_map_mul_left, ← List.sum_map_mul_left]
  exact List.sum_le_sum fun j _ => storedFloats_le cfg t (cfg.compRatio j)

/-- What a token is charged for the compressed rows is at most half of the states, unless the
width of the Indexer is negative and its cast to `usize` is not small. -/
theorem compressedFloatsPerToken_le {cfg : Config} (hindex : 0 ≤ cfg.indexHd) :
    2 * compressedFloatsPerToken cfg ≤ compStateFloats cfg := by
  have hlayer : ∀ r ∈ cfg.compressRatios, 0 < r →
      2 * compressedFloats cfg r ≤ stateFloatsOf cfg r := by
    intro r hr hpos
    have hratio : 0 < asUsize r := asUsize_pos hpos (by have := cfg.ratios_lt r hr; omega)
    rw [compressedFloats, stateFloatsOf, if_pos hpos, Nat.mul_add]
    refine Nat.add_le_add ?_ ?_
    · calc 2 * (asUsize cfg.qkHead / asUsize r) ≤ 2 * asUsize cfg.qkHead :=
            Nat.mul_le_mul_left 2 (Nat.div_le_self ..)
        _ ≤ compressorFloats (asUsize r) (asUsize cfg.qkHead) := le_compressorFloats hratio _
    · by_cases h4 : r = 4
      · subst h4
        by_cases hwide : 0 < cfg.indexHd
        · rw [if_pos rfl, if_pos ⟨rfl, hwide⟩]
          calc 2 * (asUsize cfg.indexHd / asUsize 4) ≤ 2 * asUsize cfg.indexHd :=
                Nat.mul_le_mul_left 2 (Nat.div_le_self ..)
            _ ≤ compressorFloats 4 (asUsize cfg.indexHd) := le_compressorFloats (by omega) _
        · have hzero : cfg.indexHd = 0 := by omega
          rw [if_pos rfl, hzero]
          exact Nat.zero_le _
      · rw [if_neg h4]
        exact Nat.zero_le _
  unfold compressedFloatsPerToken compStateFloats
  -- by the number of layers, each of which adds one ratio to both sums
  induction asUsize cfg.nLayers with
  | zero => exact Nat.zero_le _
  | succ n ih =>
    rw [List.range_succ, List.map_append, List.sum_append, List.take_add_one, List.filter_append,
      List.map_append, List.sum_append, Nat.mul_add]
    refine Nat.add_le_add ih ?_
    have hget : cfg.compRatio n = cfg.compressRatios[n]?.getD 0 := List.getD_eq_getElem?_getD ..
    simp only [List.map_cons, List.map_nil, hget]
    cases hr : cfg.compressRatios[n]? with
    | none => exact Nat.zero_le _
    | some r =>
      by_cases hpos : 0 < r
      · have hkeep : decide (r > 0) = true := decide_eq_true hpos
        simpa [hkeep] using hlayer r (List.mem_of_getElem? hr) hpos
      · have hdrop : decide (r > 0) = false := decide_eq_false hpos
        simp [hdrop]

theorem compFloats_mono (cfg : Config) {t t' : Nat} (h : t ≤ t') :
    compFloats cfg t ≤ compFloats cfg t' := by
  have hstored : ∀ room ratio d, CompLayer.stored room (t / ratio) * d
      ≤ CompLayer.stored room (t' / ratio) * d := fun room ratio d =>
    Nat.mul_le_mul_right d (min_le_min (Nat.div_le_div_right h) le_rfl)
  refine List.sum_le_sum fun j _ => Nat.add_le_add ?_ ?_
  · split
    · exact hstored ..
    · exact Nat.le_refl 0
  · split
    · exact hstored ..
    · exact Nat.le_refl 0

/-- What one token makes up for, all do. -/
theorem compressed_covered {cfg : Config} {slack t : Nat} (ht : 0 < t)
    (h : compFloats cfg 1 + compStateFloats cfg ≤ slack) :
    compFloats cfg t + compStateFloats cfg ≤ t * slack := by
  rcases Nat.eq_or_lt_of_le ht with rfl | hlt
  · rwa [Nat.one_mul]
  · have hrows := compFloats_le cfg t
    have hstate : 2 * compStateFloats cfg ≤ t * compStateFloats cfg :=
      Nat.mul_le_mul_right _ hlt
    have hslack : t * compStateFloats cfg ≤ t * slack :=
      Nat.mul_le_mul_left t ((Nat.le_add_left ..).trans h)
    omega

section

variable {s : Setting} {r : Dsv4Json}

theorem fixedBytes_v4 (cuda : Bool) (budgetMb : Nat) :
    fixedBytes cuda budgetMb (fromJsonDeepseekV4 r) = 0 := rfl

theorem stateFloats_v4 : stateFloats (fromJsonDeepseekV4 r) = 0 := rfl

/-- Only without a window is a raw row charged, and it is the row written and the part that is
not. -/
theorem rawRowBytes_v4 (cuda : Bool) : rawRowBytes cuda (fromJsonDeepseekV4 r)
    = (rawRowFloats (fromJsonDeepseekV4 r) + unwrittenFloats cuda (fromJsonDeepseekV4 r)) * 4 := by
  by_cases h0 : (fromJsonDeepseekV4 r).window = 0
  · exact rawRowBytes_eq cuda h0
  · have hgqa : allocatesGqaKv (fromJsonDeepseekV4 r) = false := rfl
    have harch : (fromJsonDeepseekV4 r).arch = .deepseekV4 := rfl
    unfold rawRowBytes rawRowFloats layerRowFloats unwrittenFloats mirrorsKvOnDevice
    rw [hgqa, harch, if_neg h0]
    simp [h0]

theorem compressedBytesPerToken_v4 : compressedBytesPerToken (fromJsonDeepseekV4 r)
    = compressedFloatsPerToken (fromJsonDeepseekV4 r) * 4 := by
  have hn : max (fromJsonDeepseekV4 r).layerKind.length (asUsize (fromJsonDeepseekV4 r).nLayers)
      = asUsize (fromJsonDeepseekV4 r).nLayers := Nat.max_eq_right (Nat.zero_le _)
  unfold compressedBytesPerToken compressedFloatsPerToken
  rw [hn]
  dsimp only
  rw [← List.sum_map_mul_right]

theorem ringAfter_one {window : Int} (hw : window > 0) : ringAfter window 0 0 [1] = 1 := by
  simp only [ringAfter, dsv4RawSpan_eq hw, rawLo, hw, if_true]
  omega

theorem run_one : s.run (fromJsonDeepseekV4 r) 1 0 [] = placed 0 [1] := by
  have hcalls : prefillCalls s.cuda s.budgetMb (fromJsonDeepseekV4 r) 1 = [1] := by
    unfold prefillCalls chunkLens
    exact (if_pos rfl).trans (if_pos (Nat.le_max_right _ _))
  rw [Setting.run, runWrites, hcalls]
  rfl

/-- What is held after calls that follow each other, where no raw row sits in a ring. -/
theorem heldBytes_v4 (hrow : (fromJsonDeepseekV4 r).window > 0 →
    rawRowFloats (fromJsonDeepseekV4 r) = 0) (lens : List Nat) :
    s.heldBytes (fromJsonDeepseekV4 r) (placed 0 lens)
      = (lens.sum * rawRowFloats (fromJsonDeepseekV4 r)
        + compFloats (fromJsonDeepseekV4 r) lens.sum
        + if lens.isEmpty then 0 else compStateFloats (fromJsonDeepseekV4 r)) * 4 := by
  rw [Setting.heldBytes, rawHeldBytes, stateFloats_v4, Generate.headPlaces_placed,
    Generate.reach_placed_zero, Generate.isEmpty_placed, Finset.card_empty, Nat.zero_mul,
    Nat.zero_add, Nat.add_zero]
  by_cases hw : (fromJsonDeepseekV4 r).window > 0
  · rw [hrow hw, Nat.mul_zero, Nat.zero_mul, Nat.mul_zero]
    ring
  · rw [if_neg hw]
    ring

/-- What is charged, where no raw row sits in a ring. -/
theorem bytesForSplit_v4 (hrow : (fromJsonDeepseekV4 r).window > 0 →
    rawRowFloats (fromJsonDeepseekV4 r) = 0) (n m : Nat) :
    bytesForSplit s.cuda s.budgetMb (fromJsonDeepseekV4 r) n m
      = ((n + m) * rawRowFloats (fromJsonDeepseekV4 r)
        + (n + m) * (compressedFloatsPerToken (fromJsonDeepseekV4 r)
          + unwrittenFloats s.cuda (fromJsonDeepseekV4 r))) * 4 := by
  rw [bytesForSplit, bytesPerToken, fixedBytes_v4, compressedBytesPerToken_v4, Nat.add_zero]
  by_cases hw : (fromJsonDeepseekV4 r).window > 0
  · have hunwritten : unwrittenFloats s.cuda (fromJsonDeepseekV4 r) = 0 :=
      if_neg (fun h => by omega)
    rw [if_pos hw, hrow hw, hunwritten]
    ring
  · rw [if_neg hw, rawRowBytes_v4]
    ring

/-- Both forms of the condition: with a window, what is charged for compressed rows is less than the
states. -/
theorem compressed_iff (cuda : Bool) (cfg : Config) :
    (compStateFloats cfg = 0 ∨ ((cfg.window = 0 ∨ cfg.indexHd < 0) ∧
      compStateFloats cfg + compFloats cfg 1
        ≤ compressedFloatsPerToken cfg + unwrittenFloats cuda cfg)) ↔
    compFloats cfg 1 + compStateFloats cfg
      ≤ compressedFloatsPerToken cfg + unwrittenFloats cuda cfg := by
  constructor
  · rintro (h | ⟨-, h⟩)
    · have hrows := compFloats_le cfg 1
      omega
    · omega
  · intro h
    by_cases hedge : cfg.window = 0 ∨ cfg.indexHd < 0
    · exact .inr ⟨hedge, by omega⟩
    · have hcharge : 2 * compressedFloatsPerToken cfg ≤ compStateFloats cfg :=
        compressedFloatsPerToken_le (by omega)
      have hunwritten : unwrittenFloats cuda cfg = 0 := if_neg (fun h0 => hedge (.inl h0))
      exact .inl (by omega)

/-- **V4**, whatever its numbers. -/
theorem charged_v4_iff (hhead : s.head = none) :
    Charged s (fromJsonDeepseekV4 r) ↔ Covered s (fromJsonDeepseekV4 r) := by
  constructor
  · rintro ⟨hheld, hring⟩
    have hrow : (fromJsonDeepseekV4 r).window > 0 → rawRowFloats (fromJsonDeepseekV4 r) = 0 := by
      intro hw
      have h := hring hw 1 0 [] 1 Nat.one_pos
      rw [run_one, fixedBytes_v4, rawHeldBytes, if_pos hw, List.take_of_length_le (by decide),
        Generate.callLens_placed, ringAfter_one hw] at h
      omega
    refine ⟨hrow, (compressed_iff ..).mpr ?_, .inl hhead⟩
    have h := (hheld 1 0 [] 1 Nat.one_pos).2
    rw [run_one, List.take_of_length_le (by decide), heldBytes_v4 hrow, bytesForSplit_v4 hrow,
      List.sum_singleton, List.isEmpty_cons, if_neg Bool.false_ne_true] at h
    omega
  · rintro ⟨hrow, hcomp, -⟩
    have hcover : ∀ n m answers k, 0 < n →
        s.heldBytes (fromJsonDeepseekV4 r) ((s.run (fromJsonDeepseekV4 r) n m answers).take k)
          ≤ bytesForSplit s.cuda s.budgetMb (fromJsonDeepseekV4 r) n m := by
      intro n m answers k hn
      obtain ⟨lens, hsum, hrun⟩ := @run_plain s (fromJsonDeepseekV4 r) (.inl hhead) n m answers
      have htake : (lens.take k).sum ≤ n + m := by
        have hsplit := congrArg List.sum (List.take_append_drop k lens)
        rw [List.sum_append] at hsplit
        omega
      rw [hrun, Generate.placed_take, heldBytes_v4 hrow, bytesForSplit_v4 hrow, Nat.add_assoc]
      refine Nat.mul_le_mul_right 4 (Nat.add_le_add (Nat.mul_le_mul_right _ htake) ?_)
      have hcomp' := compressed_covered (t := n + m) (by omega) ((compressed_iff ..).mp hcomp)
      have hrows := Nat.mul_le_mul_right (compStateFloats (fromJsonDeepseekV4 r)) htake
      have hmono : compFloats (fromJsonDeepseekV4 r) (lens.take k).sum
          ≤ compFloats (fromJsonDeepseekV4 r) (n + m) := compFloats_mono _ htake
      split
      · omega
      · omega
    refine ⟨fun n m answers k hn => ⟨?_, hcover n m answers k hn⟩, fun hw n m answers k _ => ?_⟩
    · rw [bytesFor_eq]
      exact hcover n m answers k hn
    · rw [rawHeldBytes, hrow hw, Nat.mul_zero, Nat.zero_mul]
      exact Nat.zero_le _

end

/-! ## The result -/

/-- By default: no build feature, 1024 MiB, no drafts. -/
def plainSetting : Setting := ⟨false, 1024, none, 0, true⟩

/-- Two layers of a V4 checkpoint, the second with a Compressor of ratio 4 and
an Indexer, by the sliding window. -/
def twoLayers (window : Int) : Config :=
  fromJsonDeepseekV4 ⟨2, 512, 64, 1, 4096, 512, 128, window, [0, 4], by decide, by decide⟩

/-- One layer of GLM with a latent row of 512 and a roped key of 64. -/
def oneLayer : Config where
  arch := .glmMoeDsa
  nLayers := 1
  kvLora := 512
  qkHead := 192
  qkRope := 64
  nKvHeads := 1
  maxCtx := 4096
  indexTopk := 0
  indexHd := 0
  window := 0
  compressRatios := []
  layerKind := []
  mambaDState := 0
  mambaDConv := 0
  mambaNHeads := 0
  mambaHeadDim := 0
  mambaNGroups := 0
  mambaInter := 0
  kdaNHeads := 0
  kdaHeadDim := 0
  kdaDConv := 0
  ratios_lt := by simp
  indexHd_lt := by decide

/-- With its head and drafts, where the device has a copy of the rows. -/
def draftingSetting (cuda : Bool) : Setting := ⟨cuda, 1024, some 1, 1, true⟩

end Colibri.Kv
