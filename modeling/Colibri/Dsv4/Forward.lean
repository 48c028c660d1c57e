import Colibri.Dsv4.Attention

/-!
# The V4 forward pass over a chunked token sequence

`dsv4Forward` runs one call through all layers, `forwardRun` feeds a token
sequence in consecutive calls. How the sequence is cut into calls decides every
offset the attention computes with: where the raw rows start, how many there
are, where the compressed rows begin, which path the Compressor takes.

What a query attends to does not depend on it. `streamInto` is what each layer
receives at an absolute position, defined without any call, and `keysAt` the keys of
that position. The run lemma `forwardRun_spec` says that every
chunking succeeds, lists those keys, and hands those streams on. The induction
is over the calls, and inside a call over the layers; the
layers below the current one hold the call's tokens already, the others do not
(`layersForward_induct`, `InForward`).

`dsv4Forward_spec` is one call and `forwardRun_spec` the run. Both follow from
`layersForward_induct`, which is used once more in `Dsv4.Capacity` with another invariant.
-/

namespace Colibri.Dsv4

open Colibri.Kv

variable {α X : Type}

/-! ## The forward pass -/

/-- A fresh cache: raw rows only, the compressed buffers come with the first
forward. -/
def KvCache.new (nRows maxT : Nat) : KvCache α := ⟨RawRows.new nRows maxT, [], []⟩

/-- The buffers `dsv4_forward` allocates when there are none yet. -/
def initComp [Zero α] (knobs : Knobs) (cfg : Config) (nLayers : Nat) (kv : KvCache α) :
    KvCache α :=
  if knobs.compress ∧ kv.comp.length = 0 then
    let kv := { kv with
      comp := compInit nLayers cfg.compressRatios (asUsize cfg.qkHead) (maxBlocks cfg) }
    if knobs.indexer ∧ cfg.indexHd > 0 then
      { kv with
        icomp := icompInit nLayers cfg.compressRatios 4 (asUsize cfg.indexHd)
          (maxIndexBlocks cfg) }
    else kv
  else kv

section

variable [Zero α] [Add α] [LinearOrder α]

/-- The layers of a call, from `li` on: the cache, each layer's trace, and the
token states after the last. -/
def layersForward (pool : List (Slot α) → List α) (knobs : Knobs) (cfg : Config)
    (posBase : Nat) : Nat → KvCache α → List (Layer α X) → List X →
      Option (KvCache α × List Trace × List X)
  | _, kv, [], xs => some (kv, [], xs)
  | li, kv, l :: ls, xs =>
    match dsv4Attention pool knobs cfg l li kv xs posBase with
    | none => none
    | some (kv, t, rows) =>
      (layersForward pool knobs cfg posBase (li + 1) kv ls
        (xs.mapIdx (fun i x => l.block x (posBase + i) (rows.getD i [])))).map
          (fun r => (r.1, t :: r.2.1, r.2.2))

def dsv4Forward (pool : List (Slot α) → List α) (knobs : Knobs) (cfg : Config)
    (layers : List (Layer α X)) (kv : KvCache α) (xs : List X) (posBase : Nat) :
    Option (KvCache α × List Trace × List X) :=
  layersForward pool knobs cfg posBase 0 (initComp knobs cfg layers.length kv) layers xs

/-- Consecutive calls from `posBase` on: the cache, and for each call the traces
of its layers and the token states it returns. -/
def forwardRun (pool : List (Slot α) → List α) (knobs : Knobs) (cfg : Config)
    (layers : List (Layer α X)) : Nat → KvCache α → List (List X) →
      Option (KvCache α × List (List Trace) × List (List X))
  | _, kv, [] => some (kv, [], [])
  | posBase, kv, xs :: rest =>
    match dsv4Forward pool knobs cfg layers kv xs posBase with
    | none => none
    | some (kv, ts, ys) =>
      (forwardRun pool knobs cfg layers (posBase + xs.length) kv rest).map
        (fun r => (r.1, ts :: r.2.1, ys :: r.2.2))

/-! ## The streams between layers -/

/-- What a layer makes of its stream. -/
def nextStream (pool : List (Slot α) → List α) (knobs : Knobs) (cfg : Config) (l : Layer α X)
    (li : Nat) (S : Nat → X) (p : Nat) : X :=
  l.block (S p) p ((keysAt pool knobs cfg l li S p).map (keyRowOf pool knobs cfg l li S))

/-- The stream that enters layer `j`. -/
def streamInto (pool : List (Slot α) → List α) (knobs : Knobs) (cfg : Config)
    (layers : List (Layer α X)) (x0 : Nat → X) : Nat → Nat → X
  | 0 => x0
  | j + 1 =>
    match layers[j]? with
    | none => streamInto pool knobs cfg layers x0 j
    | some l => nextStream pool knobs cfg l j (streamInto pool knobs cfg layers x0 j)

/-- The raw rows of the linear cache, layer by layer. -/
def rawStream (pool : List (Slot α) → List α) (knobs : Knobs) (cfg : Config)
    (layers : List (Layer α X)) (x0 : Nat → X) (j p : Nat) : Option (List α) :=
  layers[j]?.map (fun l => l.kvRow (streamInto pool knobs cfg layers x0 j p) p)

end

/-! ## The first forward -/

section

variable [Zero α] [Add α] {knobs : Knobs} {cfg : Config} {n : Nat}

omit [Add α] in
theorem initComp_raw (kv : KvCache α) : (initComp knobs cfg n kv).raw = kv.raw := by
  unfold initComp
  split
  · dsimp only
    split <;> rfl
  · rfl

omit [Add α] in
theorem initComp_self {kv : KvCache α} (h : knobs.compress = true → kv.comp.length ≠ 0) :
    initComp knobs cfg n kv = kv :=
  if_neg (fun hc => h hc.1 hc.2)

omit [Add α] in
theorem initComp_length {kv : KvCache α} (hn : 0 < n) (hc : knobs.compress = true) :
    (initComp knobs cfg n kv).comp.length ≠ 0 := by
  unfold initComp
  split
  · dsimp only
    split <;>
    · dsimp only [compInit]
      rw [List.length_map, List.length_range]
      omega
  next h => exact fun hz => h ⟨hc, hz⟩

omit [Add α] in
private theorem compInit_getD {ratios : List Int} {headDim blocks j : Nat} (hj : j < n) :
    (compInit n ratios headDim blocks : List (CompLayer α)).getD j CompLayer.off
      = if ratios.getD j 0 > 0 then CompLayer.alloc (asUsize (ratios.getD j 0)) headDim blocks
        else CompLayer.off :=
  Vectors.getD_map_range hj

omit [Add α] in
private theorem icompInit_getD {ratios : List Int} {want : Int} {headDim blocks j : Nat}
    (hj : j < n) :
    (icompInit n ratios want headDim blocks : List (CompLayer α)).getD j CompLayer.off
      = if ratios.getD j 0 = want then CompLayer.alloc (asUsize want) headDim blocks
        else CompLayer.off :=
  Vectors.getD_map_range hj

/-- A fresh compressed buffer holds the empty stream. -/
theorem mainHolds_init (pool : List (Slot α) → List α) (l : Layer α X) (j : Nat) (S : Nat → X) :
    MainHolds pool knobs cfg l j S 0
      (if cfg.compRatio j > 0 then
        CompLayer.alloc (asUsize (cfg.compRatio j)) (asUsize cfg.qkHead) (maxBlocks cfg)
      else CompLayer.off) := by
  unfold MainHolds
  cases hm : mainComp knobs cfg l j with
  | none =>
    dsimp only
    split <;> rfl
  | some w =>
    unfold mainComp at hm
    split at hm
    next hc =>
      rw [if_pos hc.2]
      exact CompLayer.holds_alloc pool w _ _ (maxBlocks cfg) S
    next => exact absurd hm.symm (Option.some_ne_none w)

/-- A fresh Indexer buffer holds the empty stream. -/
theorem indexHolds_init (pool : List (Slot α) → List α) (l : Layer α X) (j : Nat) (S : Nat → X)
    (hc : knobs.compress = true) (hon : knobs.indexer = true ∧ cfg.indexHd > 0) :
    IndexHolds pool knobs cfg l j S 0
      (if cfg.compRatio j = 4 then
        CompLayer.alloc (asUsize 4) (asUsize cfg.indexHd) (maxIndexBlocks cfg)
      else CompLayer.off) := by
  unfold IndexHolds
  by_cases hr : cfg.compRatio j = 4
  · have hix : mainIndexer knobs cfg l j = l.indexer := if_pos ⟨hc, hon.1, hon.2, hr⟩
    rw [hix, if_pos hr]
    cases hl : l.indexer with
    | none => exact ⟨rfl, Or.inl rfl⟩
    | some ix => exact CompLayer.holds_alloc pool ix.comp _ _ (maxIndexBlocks cfg) S
  · have hix : mainIndexer knobs cfg l j = none := if_neg (fun h => hr h.2.2.2)
    rw [hix, if_neg hr]
    exact ⟨rfl, Or.inr rfl⟩

theorem indexHolds_off (pool : List (Slot α) → List α) (l : Layer α X) (j : Nat) (S : Nat → X)
    (hix : mainIndexer knobs cfg l j = none) :
    IndexHolds pool knobs cfg l j S 0 CompLayer.off := by
  unfold IndexHolds
  rw [hix]
  exact ⟨rfl, Or.inr rfl⟩

/-- The cache after the first allocation holds the empty stream. -/
theorem initComp_new (pool : List (Slot α) → List α) (nRows maxT : Nat) (l : Layer α X) {j : Nat}
    (hj : j < n) (S : Nat → X) :
    CompHolds pool knobs cfg l j S 0 (initComp knobs cfg n (KvCache.new nRows maxT)) := by
  unfold initComp
  by_cases hc : knobs.compress = true
  · have hlen : j < (compInit n cfg.compressRatios (asUsize cfg.qkHead) (maxBlocks cfg) :
        List (CompLayer α)).length := by
      rw [compInit, List.length_map, List.length_range]
      exact hj
    have hmain : MainHolds pool knobs cfg l j S 0 _ := mainHolds_init pool l j S
    rw [if_pos ⟨hc, rfl⟩]
    dsimp only
    split
    next hon =>
      refine ⟨fun _ => hlen, ?_, fun _ => ?_, ?_⟩
      · rw [compInit_getD hj]
        exact hmain
      · rw [icompInit, List.length_map, List.length_range]
        exact hj
      · rw [icompInit_getD hj]
        exact indexHolds_init pool l j S hc hon
    next hoff =>
      have hix : mainIndexer knobs cfg l j = none := if_neg (fun h => hoff ⟨h.2.1, h.2.2.1⟩)
      refine ⟨fun _ => hlen, ?_, fun h => absurd hix h, indexHolds_off pool l j S hix⟩
      rw [compInit_getD hj]
      exact hmain
  · have hmain : mainComp knobs cfg l j = none := if_neg (fun h => hc h.1)
    have hix : mainIndexer knobs cfg l j = none := if_neg (fun h => hc h.1)
    rw [if_neg (fun h => hc h.1)]
    refine ⟨fun h => absurd hmain h, ?_, fun h => absurd hix h, indexHolds_off pool l j S hix⟩
    unfold MainHolds
    rw [hmain]
    rfl

end

/-! ## One call -/

theorem piece_add (S : Nat → X) (p a b : Nat) :
    piece S p (a + b) = piece S p a ++ piece S (p + a) b := by
  rw [piece, List.range_add, List.map_append, List.map_map, piece, piece]
  congr 1
  apply List.map_congr_left
  intro i _
  rw [Function.comp_apply, Nat.add_assoc]

section

variable [Zero α] [Add α] [LinearOrder α] {knobs : Knobs} {cfg : Config}
  {layers : List (Layer α X)} {x0 : Nat → X} {nRows maxT posBase s : Nat}

theorem streamInto_succ (pool : List (Slot α) → List α) {j : Nat} {l : Layer α X}
    (h : layers[j]? = some l) :
    streamInto pool knobs cfg layers x0 (j + 1)
      = nextStream pool knobs cfg l j (streamInto pool knobs cfg layers x0 j) := by
  rw [streamInto, h]

/-- The states a layer returns are a piece of the next stream. -/
theorem block_piece (pool : List (Slot α) → List α) (l : Layer α X) (li : Nat) (S : Nat → X) :
    (piece S posBase s).mapIdx (fun i x => l.block x (posBase + i)
        (((List.range s).map (fun i => (keysAt pool knobs cfg l li S (posBase + i)).map
          (keyRowOf pool knobs cfg l li S))).getD i []))
      = piece (nextStream pool knobs cfg l li S) posBase s := by
  rw [mapIdx_piece, piece]
  apply List.map_congr_left
  intro i hi
  rw [Vectors.getD_map_range (List.mem_range.mp hi), nextStream]

/-- What a call's trace of a layer says. -/
def TraceOk (pool : List (Slot α) → List α) (knobs : Knobs) (cfg : Config)
    (layers : List (Layer α X)) (x0 : Nat → X) (posBase s j : Nat) (t : Trace) : Prop :=
  (∀ l, layers[j]? = some l → t.keys = (List.range s).map (fun i =>
    keysAt pool knobs cfg l j (streamInto pool knobs cfg layers x0 j) (posBase + i))) ∧ t.Valid

/-- Inside a call: layers below `li` hold its tokens, the others do not. `M` is
the linear cache of raw rows and `S j` the stream of layer `j`. The first
layer's sizing is still to come when `li` is 0, and changes nothing after. -/
structure InForward (pool : List (Slot α) → List α) (knobs : Knobs) (cfg : Config)
    (layers : List (Layer α X)) (M : Nat → Nat → Option (List α)) (S : Nat → Nat → X)
    (nRows maxT posBase s li : Nat) (kv : KvCache α) : Prop where
  raw : ∃ raw₀, dsv4RingFor kv.raw posBase s cfg.window = some (raw₀,
      spanLo cfg.window posBase, posBase + s, spanWin cfg.window (posBase + s)) ∧
    RawCall cfg.window layers.length nRows maxT posBase s li raw₀ M ∧
    (0 < li → raw₀ = kv.raw)
  comp : ∀ j l, layers[j]? = some l → CompHolds pool knobs cfg l j (S j)
    (if j < li then posBase + s else posBase) kv

/-- Between calls: the cache holds the first `p` tokens. The compressed buffers
are those the next call finds or allocates. -/
structure Between (pool : List (Slot α) → List α) (knobs : Knobs) (cfg : Config)
    (layers : List (Layer α X)) (M : Nat → Nat → Option (List α)) (S : Nat → Nat → X)
    (nRows maxT p : Nat) (kv : KvCache α) : Prop where
  raw : RawState cfg.window layers.length nRows maxT p kv.raw M
  comp : ∀ j l, layers[j]? = some l → CompHolds pool knobs cfg l j (S j) p
    (initComp knobs cfg layers.length kv)

section

variable {M : Nat → Nat → Option (List α)} {S : Nat → Nat → X}

omit [LinearOrder α] in
theorem between_new (pool : List (Slot α) → List α) (M : Nat → Nat → Option (List α))
    (S : Nat → Nat → X) (nRows maxT : Nat) :
    Between pool knobs cfg layers M S nRows maxT 0 (KvCache.new nRows maxT) where
  raw := rawState_new cfg.window layers.length nRows maxT M
  comp := fun _ l hl =>
    initComp_new pool nRows maxT l (List.getElem?_eq_some_iff.mp hl).1 _

omit [LinearOrder α] in
/-- Entering a call. -/
theorem Between.begin {pool : List (Slot α) → List α} {kv : KvCache α} (hs : 0 < s)
    (h : Between pool knobs cfg layers M S nRows maxT posBase kv) :
    InForward pool knobs cfg layers M S nRows maxT posBase s 0
      (initComp knobs cfg layers.length kv) where
  raw := by
    obtain ⟨raw₀, hfor, hraw⟩ := h.raw.begin hs
    refine ⟨raw₀, ?_, hraw, fun h0 => absurd h0 (Nat.lt_irrefl 0)⟩
    rw [initComp_raw]
    exact hfor
  comp := fun j l hl => by
    rw [if_neg (Nat.not_lt_zero j)]
    exact h.comp j l hl

omit [LinearOrder α] in
/-- A layer done: it holds the call's tokens, the others are as they were. -/
theorem InForward.advance {pool : List (Slot α) → List α} {l : Layer α X} {li : Nat}
    {kv kv' : KvCache α} {M' : Nat → Nat → Option (List α)} (hs : 0 < s)
    (hl : layers[li]? = some l)
    (h : InForward pool knobs cfg layers M S nRows maxT posBase s li kv)
    (hraw : RawCall cfg.window layers.length nRows maxT posBase s (li + 1) kv'.raw M')
    (hcomp : CompHolds pool knobs cfg l li (S li) (posBase + s) kv')
    (hframe : CompFrame li kv kv') :
    InForward pool knobs cfg layers M' S nRows maxT posBase s (li + 1) kv' where
  raw := ⟨kv'.raw, hraw.ringFor hs, hraw, fun _ => rfl⟩
  comp := by
    intro j l' hj
    by_cases he : j = li
    · subst he
      rw [hl, Option.some.injEq] at hj
      rw [if_pos (Nat.lt_succ_self j), ← hj]
      exact hcomp
    · have hother := (h.comp j l' hj).frame hframe he
      by_cases hlt : j < li
      · rw [if_pos hlt] at hother
        rw [if_pos (by omega)]
        exact hother
      · rw [if_neg hlt] at hother
        rw [if_neg (by omega)]
        exact hother

omit [LinearOrder α] in
/-- Leaving a call. -/
theorem InForward.finish {pool : List (Slot α) → List α} {kv : KvCache α} (hs : 0 < s)
    (hlayers : 0 < layers.length)
    (h : InForward pool knobs cfg layers M S nRows maxT posBase s layers.length kv)
    (hself : initComp knobs cfg layers.length kv = kv) :
    Between pool knobs cfg layers M S nRows maxT (posBase + s) kv where
  raw := by
    obtain ⟨raw₀, _, hraw, hdone⟩ := h.raw
    rw [← hdone hlayers]
    exact hraw.finish hs hlayers
  comp := fun j l hl => by
    have hcomp := h.comp j l hl
    rw [if_pos (List.getElem?_eq_some_iff.mp hl).1] at hcomp
    rw [hself]
    exact hcomp

end

/-- **The induction over the layers of a call**: what each layer preserves, with
what it says of its trace, the call preserves. -/
theorem layersForward_induct (pool : List (Slot α) → List α)
    {P : Nat → KvCache α → List X → Prop} {Q : Nat → Trace → Prop}
    (step : ∀ li l kv xs, layers[li]? = some l → P li kv xs → ∃ kv' t rows,
      dsv4Attention pool knobs cfg l li kv xs posBase = some (kv', t, rows) ∧
      P (li + 1) kv' (xs.mapIdx (fun i x => l.block x (posBase + i) (rows.getD i []))) ∧ Q li t)
    (ls : List (Layer α X)) {li : Nat} (hli : li ≤ layers.length) (hdrop : layers.drop li = ls)
    {kv : KvCache α} {xs : List X} (h : P li kv xs) :
    ∃ kv' ts ys, layersForward pool knobs cfg posBase li kv ls xs = some (kv', ts, ys) ∧
      P layers.length kv' ys ∧ ts.length = ls.length ∧
      ∀ i t, ts[i]? = some t → Q (li + i) t := by
  induction ls generalizing li kv xs with
  | nil =>
    have hend : li = layers.length := by
      have := List.drop_eq_nil_iff.mp hdrop
      omega
    exact ⟨kv, [], xs, rfl, hend ▸ h, rfl, fun i t ht => by cases ht⟩
  | cons l ls ih =>
    have hl : layers[li]? = some l := by
      have := @List.getElem?_drop _ layers li 0
      rw [hdrop] at this
      exact this.symm
    have htail : layers.drop (li + 1) = ls := by
      rw [← List.tail_drop, hdrop]
      rfl
    obtain ⟨kv₁, t, rows, hatt, hP, hQ⟩ := step li l kv xs hl h
    obtain ⟨kv', ts, ys, hrest, hP', hlen, hall⟩ :=
      ih (Nat.succ_le_of_lt (List.getElem?_eq_some_iff.mp hl).1) htail hP
    refine ⟨kv', t :: ts, ys, ?_, hP', by rw [List.length_cons, hlen, List.length_cons], ?_⟩
    · rw [layersForward, hatt]
      dsimp only
      rw [hrest]
      rfl
    · intro i t' ht'
      cases i with
      | zero =>
        rw [List.getElem?_cons_zero, Option.some.injEq] at ht'
        exact ht' ▸ hQ
      | succ i =>
        rw [List.getElem?_cons_succ] at ht'
        have hok := hall i t' ht'
        rw [Nat.succ_add_eq_add_succ] at hok
        exact hok

/-- The call after its layers, for an invariant that keeps the number of
compressed buffers. -/
theorem dsv4Forward_induct (pool : List (Slot α) → List α) (hlayers : 0 < layers.length)
    {P : Nat → KvCache α → List X → Prop} {Q : Nat → Trace → Prop}
    (step : ∀ li l kv xs, layers[li]? = some l → P li kv xs → ∃ kv' t rows,
      dsv4Attention pool knobs cfg l li kv xs posBase = some (kv', t, rows) ∧
      P (li + 1) kv' (xs.mapIdx (fun i x => l.block x (posBase + i) (rows.getD i []))) ∧
      kv'.comp.length = kv.comp.length ∧ Q li t)
    {kv : KvCache α} {xs : List X} (h : P 0 (initComp knobs cfg layers.length kv) xs) :
    ∃ kv' ts ys, dsv4Forward pool knobs cfg layers kv xs posBase = some (kv', ts, ys) ∧
      P layers.length kv' ys ∧ initComp knobs cfg layers.length kv' = kv' ∧
      ts.length = layers.length ∧ ∀ j t, ts[j]? = some t → Q j t := by
  obtain ⟨kv', ts, ys, hrun, ⟨hP, hlen⟩, hts, hall⟩ := layersForward_induct pool
    (P := fun li kv₁ xs => P li kv₁ xs ∧
      kv₁.comp.length = (initComp knobs cfg layers.length kv).comp.length)
    (Q := Q)
    (fun li l kv₁ xs hl ⟨hP, hlen⟩ => by
      obtain ⟨kv', t, rows, hatt, hP', hlen', hQ⟩ := step li l kv₁ xs hl hP
      exact ⟨kv', t, rows, hatt, ⟨hP', hlen'.trans hlen⟩, hQ⟩)
    layers (Nat.zero_le _) rfl ⟨h, rfl⟩
  refine ⟨kv', ts, ys, hrun, hP, initComp_self (fun hc => ?_), hts, fun j t ht => ?_⟩
  · rw [hlen]
    exact initComp_length hlayers hc
  · have hok := hall j t ht
    rw [Nat.zero_add] at hok
    exact hok

/-! ## The streams of a call -/

/-- Rows of no width are fine only where no layer counts blocks by them. -/
def WidthOk (knobs : Knobs) (cfg : Config) (layers : List (Layer α X)) : Prop :=
  ∀ j, j < layers.length → 0 < callRatio knobs cfg j → 0 < asUsize cfg.qkHead

/-- The conditions of a call: its positions are admitted, and no layer's
assembled cache outgrows an `i32`. -/
structure CallFits (knobs : Knobs) (cfg : Config) (layers : List (Layer α X))
    (nRows maxT posBase s : Nat) : Prop where
  pos : 0 < s
  rows : layers.length ≤ nRows
  admits : Admits cfg.window maxT (posBase + s)
  width : WidthOk knobs cfg layers
  fits : ∀ j l, layers[j]? = some l → posBase + s - spanLo cfg.window posBase
    + storedAt knobs cfg l j (posBase + s) ≤ 2147483648

/-- The keys a call lists for each layer it ran. -/
def CallOk (pool : List (Slot α) → List α) (knobs : Knobs) (cfg : Config)
    (layers : List (Layer α X)) (x0 : Nat → X) (posBase s : Nat) (ts : List Trace) : Prop :=
  ts.length = layers.length ∧
    ∀ j t, ts[j]? = some t → TraceOk pool knobs cfg layers x0 posBase s j t

/-- **One call**, on a cache that holds the streams of its tokens. -/
theorem dsv4Forward_spec (pool : List (Slot α) → List α) (hlayers : 0 < layers.length)
    (hfits : CallFits knobs cfg layers nRows maxT posBase s) {kv : KvCache α}
    (h : Between pool knobs cfg layers (rawStream pool knobs cfg layers x0)
      (streamInto pool knobs cfg layers x0) nRows maxT posBase kv) :
    ∃ kv' ts, dsv4Forward pool knobs cfg layers kv (piece x0 posBase s) posBase
        = some (kv', ts, piece (streamInto pool knobs cfg layers x0 layers.length) posBase s) ∧
      Between pool knobs cfg layers (rawStream pool knobs cfg layers x0)
        (streamInto pool knobs cfg layers x0) nRows maxT (posBase + s) kv' ∧
      CallOk pool knobs cfg layers x0 posBase s ts := by
  have hstep : ∀ li l kv xs, layers[li]? = some l →
      (InForward pool knobs cfg layers (rawStream pool knobs cfg layers x0)
        (streamInto pool knobs cfg layers x0) nRows maxT posBase s li kv ∧
        xs = piece (streamInto pool knobs cfg layers x0 li) posBase s) →
      ∃ kv' t rows, dsv4Attention pool knobs cfg l li kv xs posBase = some (kv', t, rows) ∧
        (InForward pool knobs cfg layers (rawStream pool knobs cfg layers x0)
          (streamInto pool knobs cfg layers x0) nRows maxT posBase s (li + 1) kv' ∧
          xs.mapIdx (fun i x => l.block x (posBase + i) (rows.getD i []))
            = piece (streamInto pool knobs cfg layers x0 (li + 1)) posBase s) ∧
        kv'.comp.length = kv.comp.length ∧ TraceOk pool knobs cfg layers x0 posBase s li t := by
    rintro li l kv xs hl ⟨hin, rfl⟩
    have hM : ∀ p, rawStream pool knobs cfg layers x0 li p
        = some (l.kvRow (streamInto pool knobs cfg layers x0 li p) p) := by
      intro p
      rw [rawStream, hl]
      rfl
    have hli : li < layers.length := (List.getElem?_eq_some_iff.mp hl).1
    have hcomp := hin.comp li l hl
    rw [if_neg (Nat.lt_irrefl li)] at hcomp
    obtain ⟨raw₀, hsized, hraw₀, _⟩ := hin.raw
    obtain ⟨kv', t, hatt, hraw, hhold, hframe, hkeys, hvalid⟩ :=
      dsv4Attention_spec pool hfits.pos hli hfits.rows
        hfits.admits (hfits.width li hli) (hfits.fits li l hl) hM hsized hraw₀ hcomp
    refine ⟨kv', t, _, hatt, ⟨hin.advance hfits.pos hl hraw hhold hframe, ?_⟩,
      hframe.comp_length, ?_, hvalid⟩
    · rw [block_piece, streamInto_succ pool hl]
    · intro l' hl'
      rw [hl, Option.some.injEq] at hl'
      rw [← hl']
      exact hkeys
  obtain ⟨kv', ts, ys, hrun, ⟨hin, hys⟩, hself, hts, hall⟩ :=
    dsv4Forward_induct pool hlayers hstep ⟨h.begin hfits.pos, rfl⟩
  rw [hys] at hrun
  exact ⟨kv', ts, hrun, hin.finish hfits.pos hlayers hself, hts, hall⟩

/-! ## The run -/

/-- The keys a run lists on layer `j`, query by query. -/
def runKeys (traces : List (List Trace)) (j : Nat) : List (List Key) :=
  traces.flatMap (fun ts => (ts[j]?.map Trace.keys).getD [])

/-- The conditions of a run of calls from `posBase` on. -/
def RunFits (knobs : Knobs) (cfg : Config) (layers : List (Layer α X)) (nRows maxT : Nat) :
    Nat → List (List X) → Prop
  | _, [] => True
  | posBase, xs :: rest => CallFits knobs cfg layers nRows maxT posBase xs.length ∧
      RunFits knobs cfg layers nRows maxT (posBase + xs.length) rest

/-- **The run**, by induction on the calls. -/
theorem forwardRun_spec (pool : List (Slot α) → List α) (hlayers : 0 < layers.length)
    {chunks : List (List X)} (hfits : RunFits knobs cfg layers nRows maxT posBase chunks)
    (hx : chunks.flatten = piece x0 posBase chunks.flatten.length) {kv : KvCache α}
    (h : Between pool knobs cfg layers (rawStream pool knobs cfg layers x0)
      (streamInto pool knobs cfg layers x0) nRows maxT posBase kv) :
    ∃ kv' traces outs, forwardRun pool knobs cfg layers posBase kv chunks
        = some (kv', traces, outs) ∧
      Between pool knobs cfg layers (rawStream pool knobs cfg layers x0)
        (streamInto pool knobs cfg layers x0) nRows maxT (posBase + chunks.flatten.length) kv' ∧
      outs.flatten = piece (streamInto pool knobs cfg layers x0 layers.length) posBase
        chunks.flatten.length ∧
      (∀ j l, layers[j]? = some l → runKeys traces j
        = (List.range chunks.flatten.length).map (fun i => keysAt pool knobs cfg l j
            (streamInto pool knobs cfg layers x0 j) (posBase + i))) ∧
      ∀ ts ∈ traces, ts.length = layers.length ∧ ∀ t ∈ ts, t.Valid := by
  induction chunks generalizing posBase kv with
  | nil =>
    exact ⟨kv, [], [], rfl, h, rfl, fun _ _ _ => rfl, fun ts hts => absurd hts List.not_mem_nil⟩
  | cons xs rest ih =>
    obtain ⟨hcall, hrest⟩ := hfits
    rw [List.flatten_cons, List.length_append, piece_add] at hx
    obtain ⟨hxs, hx'⟩ := List.append_inj hx (length_piece ..).symm
    obtain ⟨kv₁, ts, hfwd, hbetween, hlen, hok⟩ := dsv4Forward_spec pool hlayers hcall h
    rw [← hxs] at hfwd
    obtain ⟨kv', traces, outs, hrun, hend, houts, hkeys, hvalid⟩ := ih hrest hx' hbetween
    refine ⟨kv', ts :: traces, piece (streamInto pool knobs cfg layers x0 layers.length) posBase
      xs.length :: outs, ?_, ?_, ?_, ?_, ?_⟩
    · rw [forwardRun, hfwd]
      dsimp only
      rw [hrun]
      rfl
    · rw [List.flatten_cons, List.length_append, ← Nat.add_assoc]
      exact hend
    · rw [List.flatten_cons, houts, List.flatten_cons, List.length_append, piece_add]
    · intro j l hl
      have hj : j < ts.length := by
        rw [hlen]
        exact (List.getElem?_eq_some_iff.mp hl).1
      have hget : ts[j]? = some ts[j] := List.getElem?_eq_getElem hj
      rw [runKeys, List.flatMap_cons, hget, Option.map_some, Option.getD_some,
        (hok j _ hget).1 l hl, ← runKeys, hkeys j l hl, List.flatten_cons, List.length_append,
        List.range_add, List.map_append, List.map_map]
      congr 1
      apply List.map_congr_left
      intro i _
      rw [Function.comp_apply, Nat.add_assoc]
    · intro ts' hts'
      rcases List.mem_cons.mp hts' with rfl | hts'
      · refine ⟨hlen, fun t ht => ?_⟩
        obtain ⟨j, hj⟩ := List.mem_iff_getElem?.mp ht
        exact (hok j t hj).2
      · exact hvalid ts' hts'

end

end Colibri.Dsv4
