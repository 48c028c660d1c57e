import Colibri.Kv.CompRows
import Colibri.Dsv4.RawCall
import Colibri.Dsv4.Keys
import Colibri.Lib.TopK

/-!
# One V4 attention sublayer

`dsv4Attention` puts the pieces together on one layer of one call: write the raw
rows, pool the tokens into compressed rows, assemble the cache, let the Indexer
pick compressed blocks, list the key indices, and gather the rows they name.

A layer's weights enter as functions of one token's state (`Layer`), so that
everything a call computes for a token is a function of what it reads.

Beside it stands what a layer computes for a token *stream*, with no call in
sight: `keysAt` lists the keys of position `p`, and `keyRow` their rows. The
step lemma `dsv4Attention_spec` says that a call on a layer that holds the stream
up to `posBase` reads exactly these, for each of its queries.

* `compressSelect_spec` is the Indexer's step, `spanLo_opens` and `keysOf_spanWin` are the raw
  window, `gather_spec` reads the rows that a list of indices names.
* `dsv4Attention_run`: on a cache that holds the stream up to `posBase` the call goes through, and
  the cache holds the stream up to the call's end.
* `dsv4Attention_spec` adds what the call looked at, for caches in which no index is cut off.
-/

namespace Colibri.Dsv4

open Colibri.Kv
open Colibri.Ring (rowsIn writeAll)
open Vectors (mapIdx_map_range mapM_some mapM_eq_map)

variable {α X : Type}

/-! ## Weights, knobs, cache -/

/-- The environment switches of the V4 path: the Compressor, the Indexer, and
an override of `index_topk`. -/
structure Knobs where
  compress : Bool
  indexer : Bool
  topkOverride : Option Nat

/-- An Indexer: its own compressor, and the score of a compressed row for the
query of a token at a position. -/
structure Indexer (α X : Type) where
  comp : Compressor α X
  score : X → Nat → List α → α

/-- A layer: the raw row of a token, the optional compressor and indexer
weights, and the rest of the block given the rows attended to. -/
structure Layer (α X : Type) where
  kvRow : X → Nat → List α
  comp : Option (Compressor α X)
  indexer : Option (Indexer α X)
  block : X → Nat → List (List α) → X

/-- The V4 part of the KV cache. -/
structure KvCache (α : Type) where
  raw : RawRows (List α) (List α)
  comp : List (CompLayer α)
  icomp : List (CompLayer α)

def dsv4IndexTopk (knobs : Knobs) (cfg : Config) : Nat :=
  knobs.topkOverride.getD (max cfg.indexTopk 0).toNat

/-! ## Selecting compressed blocks -/

/-- The blocks of one query among the `avail` closed ones: all of them when they
fit (or `topk` is 0), else the `topk` best. -/
def selectRow [LinearOrder α] (topk avail : Nat) (score : Nat → α) : List Nat :=
  if avail = 0 then []
  else if topk = 0 ∨ avail ≤ topk then List.range avail
  else TopK.topk score avail topk

/-- The selection without a sort. -/
theorem selectRow_eq [LinearOrder α] (topk avail : Nat) (score : Nat → α) :
    selectRow topk avail score =
      if topk = 0 ∨ avail ≤ topk then List.range avail
      else (List.range avail).filter (fun t => decide (TopK.rank score avail t < topk)) := by
  unfold selectRow
  by_cases hz : avail = 0
  · subst hz
    rw [if_pos rfl, if_pos (Or.inr (Nat.zero_le _))]
    rfl
  · rw [if_neg hz, TopK.topk_eq_filter]

theorem selectRow_congr [LinearOrder α] {topk avail : Nat} {f g : Nat → α}
    (h : ∀ t, t < avail → f t = g t) :
    selectRow topk avail f = selectRow topk avail g := by
  unfold selectRow
  rw [TopK.topk_congr h]

theorem selectRow_lt [LinearOrder α] {topk avail : Nat} {score : Nat → α} {t : Nat}
    (h : t ∈ selectRow topk avail score) : t < avail := by
  rw [selectRow_eq] at h
  split at h
  · exact List.mem_range.mp h
  · exact List.mem_range.mp (List.mem_filter.mp h).1

/-- `dsv4_compress_select`: the Indexer's rows after this call, and the blocks
each query attends to. -/
def compressSelect [Zero α] [Add α] [LinearOrder α]
    (pool : List (Slot α) → List α) (knobs : Knobs) (cfg : Config) (l : Layer α X) (li : Nat)
    (icomp : List (CompLayer α)) (xs : List X) (posBase : Nat)
    (compAvail : Nat → Nat) : List (CompLayer α) × List (List Nat) :=
  let all := xs.mapIdx (fun i _ => List.range (compAvail (posBase + i)))
  let ratio := asUsize (cfg.compRatio li)
  if !knobs.indexer || ratio = 0 then (icomp, all)
  else
    match l.indexer with
    | none => (icomp, all)
    | some ix =>
      if icomp.isEmpty then (icomp, all)
      else
        let c := (icomp.getD li CompLayer.off).call pool ix.comp ratio (asUsize cfg.indexHd)
          posBase xs
        let icomp := icomp.set li c
        let nIc := c.rows.length
        if nIc = 0 then (icomp, all)
        else (icomp, xs.mapIdx (fun i x =>
          selectRow (dsv4IndexTopk knobs cfg) (min (compAvail (posBase + i)) nIc)
            (fun t => ix.score x (posBase + i) (c.rows.getD t []))))

/-! ## The sublayer -/

/-- The rows a list of indices names, masked ones skipped; none is an index past
the cache. -/
def gather (cache : List (List α)) : List Int → Option (List (List α))
  | [] => some []
  | i :: is =>
    if i < 0 then gather cache is
    else
      match cache[i.toNat]?, gather cache is with
      | some row, some rows => some (row :: rows)
      | _, _ => none

/-- What an attention call looked at: where its raw rows start, how many raw and
compressed rows it assembled, and the key indices of each query. -/
structure Trace where
  rawLo : Nat
  nRaw : Nat
  nComp : Nat
  idxs : List (List Int)

/-- The ratio an attention call counts blocks by. -/
def callRatio (knobs : Knobs) (cfg : Config) (li : Nat) : Nat :=
  if knobs.compress then asUsize (cfg.compRatio li) else 0

/-- `dsv4_attention` on layer `li` for the tokens `xs` at `posBase`: the cache
after it, its trace, and the rows each query attends to. -/
def dsv4Attention [Zero α] [Add α] [LinearOrder α] (pool : List (Slot α) → List α)
    (knobs : Knobs) (cfg : Config) (l : Layer α X) (li : Nat) (kv : KvCache α) (xs : List X)
    (posBase : Nat) :
    Option (KvCache α × Trace × List (List (List α))) :=
  let s := xs.length
  let hd := asUsize cfg.qkHead
  let (rawLo, total, win) := dsv4RawSpan posBase s cfg.window
  let nRaw := total - rawLo
  match rawAttention kv.raw cfg.window li posBase
      (xs.mapIdx (fun i x => l.kvRow x (posBase + i))) with
  | none => none
  | some (raw, rawRows) =>
    let comp :=
      if knobs.compress ∧ cfg.compRatio li > 0 then
        match l.comp with
        | none => kv.comp
        | some w => kv.comp.set li ((kv.comp.getD li CompLayer.off).call pool w
            (asUsize (cfg.compRatio li)) hd posBase xs)
      else kv.comp
    let ratio := callRatio knobs cfg li
    -- the row count is a division by the row width
    if 0 < ratio ∧ hd = 0 then none
    else
      let compRows := (comp.getD li CompLayer.off).rows
      let nComp := if 0 < ratio then compRows.length else 0
      let cache := rawRows ++ compRows.take nComp
      let compAvail := fun p => if 0 < ratio then min ((p + 1) / ratio) nComp else 0
      let sel := compressSelect pool knobs cfg l li kv.icomp xs posBase compAvail
      match keyIndices win total posBase s rawLo nRaw sel.2 with
      | none => none
      | some (idxs, _) =>
        match idxs.mapM (gather cache) with
        | none => none
        | some gathered =>
          some (⟨raw, comp, sel.1⟩, ⟨rawLo, nRaw, nComp, idxs⟩, gathered)

/-! ## What a layer computes for a stream

`S p` is the token state at absolute position `p`. -/

/-- The compressor a layer runs, if any. -/
def mainComp (knobs : Knobs) (cfg : Config) (l : Layer α X) (li : Nat) :
    Option (Compressor α X) :=
  if knobs.compress ∧ cfg.compRatio li > 0 then l.comp else none

/-- The Indexer a layer runs, if any. -/
def mainIndexer (knobs : Knobs) (cfg : Config) (l : Layer α X) (li : Nat) :
    Option (Indexer α X) :=
  if knobs.compress ∧ knobs.indexer ∧ cfg.indexHd > 0 ∧ cfg.compRatio li = 4 then l.indexer
  else none

/-- The smallest positive ratio, 4 without one. -/
def minRatio (cfg : Config) : Nat :=
  asUsize (max (((cfg.compressRatios.filter (fun r => decide (r > 0))).min?).getD 4) 1)

/-- Blocks a compressed buffer is sized for on the first forward. -/
def maxBlocks (cfg : Config) : Nat := (asUsize cfg.maxCtx / minRatio cfg + 2) % usizeCount

/-- Blocks an Indexer buffer is sized for. -/
def maxIndexBlocks (cfg : Config) : Nat := (asUsize cfg.maxCtx / 4 + 2) % usizeCount

/-- Size in floats of a compressed buffer. -/
def compSize (cfg : Config) : Nat := maxBlocks cfg * asUsize cfg.qkHead % usizeCount

/-- Size in floats of an Indexer buffer. -/
def icompSize (cfg : Config) : Nat := maxIndexBlocks cfg * asUsize cfg.indexHd % usizeCount

/-- Rows a compressed buffer has room for. -/
def compRoom (cfg : Config) : Nat := compSize cfg / asUsize cfg.qkHead

/-- Rows an Indexer buffer has room for. -/
def icompRoom (cfg : Config) : Nat := icompSize cfg / asUsize cfg.indexHd

/-- The compressed rows a layer has stored after `n` tokens. -/
def storedAt (knobs : Knobs) (cfg : Config) (l : Layer α X) (li n : Nat) : Nat :=
  match mainComp knobs cfg l li with
  | none => 0
  | some _ => CompLayer.stored (compRoom cfg) (n / asUsize (cfg.compRatio li))

/-- The compressed blocks position `p` may attend to: closed there, and
stored. -/
def closedAt (knobs : Knobs) (cfg : Config) (l : Layer α X) (li p : Nat) : Nat :=
  storedAt knobs cfg l li (p + 1)

/-- The blocks position `p` attends to. An Indexer whose buffer has no room
never has rows to score, and selects nothing out. -/
def selectedAt [Zero α] [Add α] [LinearOrder α] (pool : List (Slot α) → List α)
    (knobs : Knobs) (cfg : Config) (l : Layer α X) (li : Nat) (S : Nat → X) (p : Nat) : List Nat :=
  match mainIndexer knobs cfg l li with
  | none => List.range (closedAt knobs cfg l li p)
  | some ix =>
    if icompRoom cfg = 0 then List.range (closedAt knobs cfg l li p)
    else
      selectRow (dsv4IndexTopk knobs cfg) (min (closedAt knobs cfg l li p) (icompRoom cfg))
        (fun t => ix.score (S p) p (finishedRow pool ix.comp 4 (asUsize cfg.indexHd) S t))

/-- **The keys of position `p`**: the raw window, then the selected blocks. -/
def keysAt [Zero α] [Add α] [LinearOrder α] (pool : List (Slot α) → List α) (knobs : Knobs)
    (cfg : Config) (l : Layer α X) (li : Nat) (S : Nat → X) (p : Nat) : List Key :=
  keysOf (spanWin cfg.window (p + 1)) p (selectedAt pool knobs cfg l li S p)

/-- The row a key stands for. -/
def keyRowOf [Zero α] [Add α] (pool : List (Slot α) → List α) (knobs : Knobs) (cfg : Config)
    (l : Layer α X) (li : Nat) (S : Nat → X) : Key → List α
  | .raw p => l.kvRow (S p) p
  | .block t =>
    match mainComp knobs cfg l li with
    | none => []
    | some w => finishedRow pool w (asUsize (cfg.compRatio li)) (asUsize cfg.qkHead) S t

/-- What a layer's compressed rows are after `p` tokens of the stream. -/
def MainHolds [Zero α] [Add α] (pool : List (Slot α) → List α) (knobs : Knobs) (cfg : Config)
    (l : Layer α X) (li : Nat) (S : Nat → X) (p : Nat) (c : CompLayer α) : Prop :=
  match mainComp knobs cfg l li with
  | none => c.rows = []
  | some w => CompLayer.Holds pool w (asUsize (cfg.compRatio li)) (asUsize cfg.qkHead) S p
      (compSize cfg) c

/-- What a layer's Indexer rows are after `p` tokens of the stream. -/
def IndexHolds [Zero α] [Add α] (pool : List (Slot α) → List α) (knobs : Knobs) (cfg : Config)
    (l : Layer α X) (li : Nat) (S : Nat → X) (p : Nat) (c : CompLayer α) : Prop :=
  match mainIndexer knobs cfg l li with
  | none => c.rows = [] ∧ (l.indexer = none ∨ c.state = none)
  | some ix => CompLayer.Holds pool ix.comp 4 (asUsize cfg.indexHd) S p (icompSize cfg) c

/-- The keys a trace lists, query by query. -/
def Trace.keys (t : Trace) : List (List Key) := t.idxs.map (rowKeys t.rawLo t.nRaw)

/-- No index of a trace lies outside the rows assembled. -/
def Trace.Valid (t : Trace) : Prop :=
  ∀ row ∈ t.idxs, ∀ i ∈ row, ValidIndex (t.nRaw + t.nComp) i

/-! ## Helpers over lists -/

private theorem getD_set_self {γ : Type} {l : List γ} {i : Nat} {x d : γ} (h : i < l.length) :
    (l.set i x).getD i d = x := by
  rw [List.getD_eq_getElem?_getD, List.getElem?_set_self h, Option.getD_some]

private theorem getD_set_ne {γ : Type} {l : List γ} {i j : Nat} {x d : γ} (h : j ≠ i) :
    (l.set i x).getD j d = l.getD j d := by
  rw [List.getD_eq_getElem?_getD, List.getElem?_set_ne (fun e => h e.symm),
    List.getD_eq_getElem?_getD]

variable {pool : List (Slot α) → List α} {p : Nat}

theorem selectedAt_lt [Zero α] [Add α] [LinearOrder α]
    {knobs : Knobs} {cfg : Config} {l : Layer α X} {li : Nat} {S : Nat → X} {t : Nat}
    (h : t ∈ selectedAt pool knobs cfg l li S p) : t < closedAt knobs cfg l li p := by
  unfold selectedAt at h
  split at h
  · exact List.mem_range.mp h
  · split at h
    · exact List.mem_range.mp h
    · have := selectRow_lt h
      omega

theorem storedAt_mono (knobs : Knobs) (cfg : Config) (l : Layer α X) (li : Nat) {m n : Nat}
    (h : m ≤ n) : storedAt knobs cfg l li m ≤ storedAt knobs cfg l li n := by
  unfold storedAt
  split
  · exact Nat.le_refl 0
  · have := Nat.div_le_div_right (c := asUsize (cfg.compRatio li)) h
    unfold CompLayer.stored
    omega

/-! ## One call on the compressed rows -/

/-- The tokens of a call, as a piece of the stream. -/
def piece (S : Nat → X) (posBase s : Nat) : List X := (List.range s).map (fun i => S (posBase + i))

theorem length_piece (S : Nat → X) (posBase s : Nat) : (piece S posBase s).length = s := by
  rw [piece, List.length_map, List.length_range]

theorem mapIdx_piece {γ : Type} (S : Nat → X) (posBase s : Nat) (g : Nat → X → γ) :
    (piece S posBase s).mapIdx g = (List.range s).map (fun i => g i (S (posBase + i))) :=
  mapIdx_map_range _ g s

section

variable [Zero α] [Add α] {knobs : Knobs} {cfg : Config} {l : Layer α X} {li : Nat} {S : Nat → X}
  {posBase s : Nat}

/-- A compressor call on a piece of the stream. -/
theorem call_piece (pool : List (Slot α) → List α) {w : Compressor α X} {ratio d : Nat}
    (hratio : 0 < ratio) (hd : 0 < d) {size : Nat} {c : CompLayer α}
    (h : CompLayer.Holds pool w ratio d S posBase size c) :
    CompLayer.Holds pool w ratio d S (posBase + s) size
      (c.call pool w ratio d posBase (piece S posBase s)) := by
  have hcall := CompLayer.call_holds pool hratio hd (piece S posBase s)
    (fun i hi => by
      rw [length_piece] at hi
      simp only [piece, List.getElem_map, List.getElem_range]) h
  rw [length_piece] at hcall
  exact hcall

/-- The compressed rows of the layer after the call's pushes. -/
theorem mainComp_step (pool : List (Slot α) → List α)
    (hhd : 0 < callRatio knobs cfg li → 0 < asUsize cfg.qkHead) {comp : List (CompLayer α)}
    (hlen : mainComp knobs cfg l li ≠ none → li < comp.length)
    (h : MainHolds pool knobs cfg l li S posBase (comp.getD li CompLayer.off)) :
    ∃ comp',
      (if knobs.compress ∧ cfg.compRatio li > 0 then
        match l.comp with
        | none => comp
        | some w => comp.set li ((comp.getD li CompLayer.off).call pool w
            (asUsize (cfg.compRatio li)) (asUsize cfg.qkHead) posBase (piece S posBase s))
      else comp) = comp' ∧
      MainHolds pool knobs cfg l li S (posBase + s) (comp'.getD li CompLayer.off) ∧
      comp'.length = comp.length ∧
      ∀ j, j ≠ li → comp'.getD j CompLayer.off = comp.getD j CompLayer.off := by
  refine ⟨_, rfl, ?_⟩
  unfold MainHolds at h ⊢
  by_cases hc : knobs.compress ∧ cfg.compRatio li > 0
  · simp only [mainComp, if_pos hc] at h hlen ⊢
    cases hw : l.comp with
    | none =>
      rw [hw] at h
      exact ⟨h, rfl, fun _ _ => rfl⟩
    | some w =>
      rw [hw] at h
      have hli : li < comp.length := hlen (by rw [hw]; exact Option.some_ne_none w)
      have hratio := Config.compRatio_pos hc.2
      have hwidth := hhd (by rw [callRatio, if_pos hc.1]; exact hratio)
      dsimp only
      rw [getD_set_self hli]
      exact ⟨call_piece pool hratio hwidth h, List.length_set, fun j hj => getD_set_ne hj⟩
  · have hnone : mainComp knobs cfg l li = none := if_neg hc
    rw [hnone] at h ⊢
    rw [if_neg hc]
    exact ⟨h, rfl, fun _ _ => rfl⟩

/-! ## One call on the Indexer -/

omit [Zero α] [Add α] in
theorem mainIndexer_some {ix : Indexer α X} (h : mainIndexer knobs cfg l li = some ix) :
    (knobs.indexer = true ∧ 0 < asUsize cfg.indexHd ∧ asUsize (cfg.compRatio li) = 4) ∧
      l.indexer = some ix := by
  unfold mainIndexer at h
  split at h
  next hc =>
    obtain ⟨_, hon, hhd, hr⟩ := hc
    refine ⟨⟨hon, asUsize_pos hhd (Int.lt_trans cfg.indexHd_lt (by decide)), ?_⟩, h⟩
    rw [hr]
    rfl
  next => exact absurd h.symm (Option.some_ne_none ix)

omit [Zero α] [Add α] in
theorem closedAt_le {ix : Indexer α X} (h : mainIndexer knobs cfg l li = some ix) (p : Nat) :
    closedAt knobs cfg l li p ≤ (p + 1) / 4 := by
  rw [closedAt, storedAt, (mainIndexer_some h).1.2.2]
  split
  · exact Nat.zero_le _
  · exact Nat.min_le_left _ _

private theorem set_getD_self {γ : Type} (xs : List γ) (i : Nat) (d : γ) :
    xs.set i (xs.getD i d) = xs := by
  apply List.ext_getElem?
  intro j
  by_cases hj : j = i
  · subst hj
    by_cases hlt : j < xs.length
    · rw [List.getElem?_set_self hlt, List.getD_eq_getElem?_getD, List.getElem?_eq_getElem hlt]
      rfl
    · rw [List.getElem?_eq_none (by rw [List.length_set]; omega),
        List.getElem?_eq_none (by omega)]
  · exact List.getElem?_set_ne (fun e => hj e.symm)

/-- A layer that runs no Indexer keeps its rows and selects every closed block. -/
theorem compressSelect_none [LinearOrder α] (pool : List (Slot α) → List α)
    {icomp : List (CompLayer α)} {avail : Nat → Nat}
    (hix : mainIndexer knobs cfg l li = none)
    (h : IndexHolds pool knobs cfg l li S posBase (icomp.getD li CompLayer.off)) :
    compressSelect pool knobs cfg l li icomp (piece S posBase s) posBase avail
      = (icomp, (List.range s).map (fun i => List.range (avail (posBase + i)))) := by
  unfold IndexHolds at h
  rw [hix] at h
  obtain ⟨hrows, hoff⟩ := h
  unfold compressSelect
  rw [mapIdx_piece]
  dsimp only
  split
  · rfl
  · cases hl : l.indexer with
    | none => rfl
    | some ix =>
      have hstate : (icomp.getD li CompLayer.off).state = none :=
        hoff.resolve_left (by rw [hl]; exact Option.some_ne_none ix)
      have hcall : ∀ w ratio d, (icomp.getD li CompLayer.off).call pool w ratio d posBase
          (piece S posBase s) = icomp.getD li CompLayer.off := by
        intro w ratio d
        rw [CompLayer.call, hstate]
      dsimp only
      rw [hcall, hrows, set_getD_self]
      split <;> rfl

/-- A layer that runs its Indexer pushes the blocks the call closes, and selects
by what it then holds. -/
theorem compressSelect_some [LinearOrder α] (pool : List (Slot α) → List α)
    {icomp : List (CompLayer α)} {avail : Nat → Nat} {ix : Indexer α X}
    (hix : mainIndexer knobs cfg l li = some ix) (hlen : li < icomp.length)
    (havail : ∀ i, i < s → avail (posBase + i) = closedAt knobs cfg l li (posBase + i))
    (h : CompLayer.Holds pool ix.comp 4 (asUsize cfg.indexHd) S posBase (icompSize cfg)
      (icomp.getD li CompLayer.off)) :
    ∃ c, CompLayer.Holds pool ix.comp 4 (asUsize cfg.indexHd) S (posBase + s) (icompSize cfg) c ∧
      compressSelect pool knobs cfg l li icomp (piece S posBase s) posBase avail
        = (icomp.set li c, (List.range s).map
            (fun i => selectedAt pool knobs cfg l li S (posBase + i))) := by
  obtain ⟨⟨hon, hhd, hratio⟩, hl⟩ := mainIndexer_some hix
  have hc := call_piece (s := s) pool (by decide) hhd h
  refine ⟨_, hc, ?_⟩
  set c := (icomp.getD li CompLayer.off).call pool ix.comp 4 (asUsize cfg.indexHd) posBase
    (piece S posBase s) with hcdef
  have hnIc : c.rows.length = min ((posBase + s) / 4) (icompRoom cfg) := by
    rw [hc.rows_eq, List.length_map, List.length_range]
    rfl
  have hne : icomp.isEmpty = false := by
    rw [List.isEmpty_eq_false_iff]
    exact List.ne_nil_of_length_pos (by omega)
  have hclosed : ∀ i, i < s → closedAt knobs cfg l li (posBase + i) ≤ (posBase + s) / 4 := by
    intro i hi
    exact Nat.le_trans (closedAt_le hix _) (Nat.div_le_div_right (by omega))
  unfold compressSelect
  simp only [mapIdx_piece, hon, hratio, hl, hne]
  simp only [Bool.not_true, Bool.false_eq_true, if_false, show (4 : Nat) ≠ 0 by decide,
    decide_false, Bool.or_self]
  rw [← hcdef]
  split
  next hz =>
    -- no rows: the buffer has no room, or no block has closed
    congr 1
    apply List.map_congr_left
    intro i hi
    rw [List.mem_range] at hi
    have := hclosed i hi
    rw [havail i hi, selectedAt, hix]
    dsimp only
    split
    · rfl
    · rw [show closedAt knobs cfg l li (posBase + i) = 0 by omega, Nat.zero_min]
      rfl
  next hz =>
    congr 1
    apply List.map_congr_left
    intro i hi
    rw [List.mem_range] at hi
    have := hclosed i hi
    rw [havail i hi, selectedAt, hix]
    dsimp only
    rw [if_neg (by omega), hnIc,
      show min (closedAt knobs cfg l li (posBase + i)) (min ((posBase + s) / 4) (icompRoom cfg))
        = min (closedAt knobs cfg l li (posBase + i)) (icompRoom cfg) by omega]
    apply selectRow_congr
    intro t ht
    have hrow : c.rows.getD t [] = finishedRow pool ix.comp 4 (asUsize cfg.indexHd) S t := by
      rw [hc.rows_eq, List.getD_eq_getElem?_getD, List.getElem?_map, List.getElem?_range]
      · rfl
      · show t < min ((posBase + s) / 4) (icompRoom cfg)
        omega
    rw [hrow]

end

/-! ## A layer's share of the cache -/

/-- The compressed rows of layer `li` hold `p` tokens of its stream. -/
structure CompHolds [Zero α] [Add α] (pool : List (Slot α) → List α) (knobs : Knobs)
    (cfg : Config) (l : Layer α X) (li : Nat) (S : Nat → X) (p : Nat) (kv : KvCache α) : Prop where
  main_lt : mainComp knobs cfg l li ≠ none → li < kv.comp.length
  main : MainHolds pool knobs cfg l li S p (kv.comp.getD li CompLayer.off)
  index_lt : mainIndexer knobs cfg l li ≠ none → li < kv.icomp.length
  index : IndexHolds pool knobs cfg l li S p (kv.icomp.getD li CompLayer.off)

/-- The stream only matters up to the position. -/
theorem CompHolds.congr [Zero α] [Add α] {knobs : Knobs}
    {cfg : Config} {l : Layer α X} {li : Nat} {S S' : Nat → X} {kv : KvCache α}
    (h : CompHolds pool knobs cfg l li S p kv) (hs : ∀ q, q < p → S' q = S q) :
    CompHolds pool knobs cfg l li S' p kv where
  main_lt := h.main_lt
  main := by
    have hm := h.main
    unfold MainHolds at hm ⊢
    split
    · next hnone =>
      rw [hnone] at hm
      exact hm
    · next w hsome =>
      rw [hsome] at hm
      exact CompLayer.Holds.congr hm hs
  index_lt := h.index_lt
  index := by
    have hi := h.index
    unfold IndexHolds at hi ⊢
    split
    · next hnone =>
      rw [hnone] at hi
      exact hi
    · next ix hsome =>
      rw [hsome] at hi
      exact CompLayer.Holds.congr hi hs

/-- Only layer `li` has other compressed rows. -/
structure CompFrame (li : Nat) (kv kv' : KvCache α) : Prop where
  comp_length : kv'.comp.length = kv.comp.length
  icomp_length : kv'.icomp.length = kv.icomp.length
  comp : ∀ j, j ≠ li → kv'.comp.getD j CompLayer.off = kv.comp.getD j CompLayer.off
  icomp : ∀ j, j ≠ li → kv'.icomp.getD j CompLayer.off = kv.icomp.getD j CompLayer.off

theorem CompHolds.frame [Zero α] [Add α] {knobs : Knobs}
    {cfg : Config} {l : Layer α X} {j li : Nat} {S : Nat → X} {kv kv' : KvCache α}
    (h : CompHolds pool knobs cfg l j S p kv) (hf : CompFrame li kv kv') (hj : j ≠ li) :
    CompHolds pool knobs cfg l j S p kv' where
  main_lt := fun hm => by rw [hf.comp_length]; exact h.main_lt hm
  main := by rw [hf.comp j hj]; exact h.main
  index_lt := fun hm => by rw [hf.icomp_length]; exact h.index_lt hm
  index := by rw [hf.icomp j hj]; exact h.index

section

variable [Zero α] [Add α] {knobs : Knobs} {cfg : Config} {l : Layer α X} {li : Nat} {S : Nat → X}
  {posBase s : Nat}

/-- The Indexer's step, with or without one. -/
theorem compressSelect_spec [LinearOrder α] (pool : List (Slot α) → List α)
    {icomp : List (CompLayer α)} (avail : Nat → Nat)
    (hlt : mainIndexer knobs cfg l li ≠ none → li < icomp.length)
    (havail : ∀ i, i < s → avail (posBase + i) = closedAt knobs cfg l li (posBase + i))
    (h : IndexHolds pool knobs cfg l li S posBase (icomp.getD li CompLayer.off)) :
    ∃ icomp', compressSelect pool knobs cfg l li icomp (piece S posBase s) posBase avail
        = (icomp', (List.range s).map (fun i => selectedAt pool knobs cfg l li S (posBase + i))) ∧
      IndexHolds pool knobs cfg l li S (posBase + s) (icomp'.getD li CompLayer.off) ∧
      icomp'.length = icomp.length ∧
      ∀ j, j ≠ li → icomp'.getD j CompLayer.off = icomp.getD j CompLayer.off := by
  cases hix : mainIndexer knobs cfg l li with
  | none =>
    refine ⟨icomp, ?_, ?_, rfl, fun _ _ => rfl⟩
    · rw [compressSelect_none pool hix h]
      congr 1
      apply List.map_congr_left
      intro i hi
      rw [havail i (List.mem_range.mp hi), selectedAt, hix]
    · unfold IndexHolds at h ⊢
      rw [hix] at h ⊢
      exact h
  | some ix =>
    have hli := hlt (by rw [hix]; exact Option.some_ne_none ix)
    unfold IndexHolds at h ⊢
    rw [hix] at h ⊢
    obtain ⟨c, hc, hsel⟩ := compressSelect_some pool hix hli havail h
    refine ⟨icomp.set li c, hsel, ?_, List.length_set, fun j hj => getD_set_ne hj⟩
    rw [getD_set_self hli]
    exact hc

/-- The rows a layer stores after `n` tokens. -/
theorem MainHolds.length {n : Nat} {c : CompLayer α}
    (h : MainHolds pool knobs cfg l li S n c) : c.rows.length = storedAt knobs cfg l li n := by
  unfold MainHolds at h
  unfold storedAt
  cases hm : mainComp knobs cfg l li with
  | none =>
    rw [hm] at h
    rw [h]
    rfl
  | some w =>
    rw [hm] at h
    rw [h.rows_eq, List.length_map, List.length_range]
    rfl

theorem MainHolds.row {n t : Nat} {c : CompLayer α}
    (h : MainHolds pool knobs cfg l li S n c) (ht : t < storedAt knobs cfg l li n) :
    c.rows[t]? = some (keyRowOf pool knobs cfg l li S (.block t)) := by
  unfold MainHolds at h
  unfold storedAt at ht
  unfold keyRowOf
  cases hm : mainComp knobs cfg l li with
  | none =>
    rw [hm] at ht
    exact absurd ht (Nat.not_lt_zero t)
  | some w =>
    rw [hm] at h ht
    have hlt : t < CompLayer.stored (compSize cfg / asUsize cfg.qkHead)
        (n / asUsize (cfg.compRatio li)) := ht
    rw [h.rows_eq, List.getElem?_map, List.getElem?_range hlt]
    rfl

omit [Zero α] [Add α] in
theorem mainComp_ratio {w : Compressor α X} (h : mainComp knobs cfg l li = some w) :
    callRatio knobs cfg li = asUsize (cfg.compRatio li) ∧ 0 < asUsize (cfg.compRatio li) := by
  unfold mainComp at h
  split at h
  next hc => exact ⟨if_pos hc.1, Config.compRatio_pos hc.2⟩
  next => exact absurd h.symm (Option.some_ne_none w)

omit [Zero α] [Add α] in
/-- The count of stored rows a call takes is all of them. -/
theorem nComp_eq (n : Nat) :
    (if 0 < callRatio knobs cfg li then storedAt knobs cfg l li n else 0)
      = storedAt knobs cfg l li n := by
  unfold storedAt
  cases hm : mainComp knobs cfg l li with
  | none => exact ite_self 0
  | some w => rw [(mainComp_ratio hm).1, if_pos (mainComp_ratio hm).2]

omit [Zero α] [Add α] in
/-- The visible-block count of the call is the closed-and-stored count of the
position. -/
theorem compAvail_eq {total : Nat} (hp : p + 1 ≤ total) :
    (if 0 < callRatio knobs cfg li then
        min ((p + 1) / callRatio knobs cfg li) (storedAt knobs cfg l li total)
      else 0) = closedAt knobs cfg l li p := by
  unfold closedAt storedAt
  cases hm : mainComp knobs cfg l li with
  | none =>
    dsimp only
    rw [Nat.min_zero, ite_self]
  | some w =>
    rw [(mainComp_ratio hm).1, if_pos (mainComp_ratio hm).2]
    have := Nat.div_le_div_right (c := asUsize (cfg.compRatio li)) hp
    show min ((p + 1) / _) (min (total / _) (compRoom cfg)) = min ((p + 1) / _) (compRoom cfg)
    omega

omit [Zero α] [Add α] in
/-- Reading the rows a valid index list names. -/
theorem gather_spec {cache : List (List α)} {rawLo nRaw nComp : Nat} {f : Key → List α}
    (hraw : ∀ k, k < nRaw → cache[k]? = some (f (.raw (rawLo + k))))
    (hcomp : ∀ t, t < nComp → cache[nRaw + t]? = some (f (.block t))) {row : List Int}
    (h : ∀ i ∈ row, ValidIndex (nRaw + nComp) i) :
    gather cache row = some ((rowKeys rawLo nRaw row).map f) := by
  induction row with
  | nil => rfl
  | cons i row ih =>
    have hrow := ih (fun j hj => h j (List.mem_cons_of_mem i hj))
    rw [gather]
    rcases h i List.mem_cons_self with rfl | ⟨hpos, hlt⟩
    · rw [if_pos (by decide), hrow]
      rfl
    · rw [if_neg (by omega), hrow]
      by_cases hr : i.toNat < nRaw
      · have hkey : keyOf rawLo nRaw i = some (.raw (rawLo + i.toNat)) := by
          rw [keyOf, if_neg (by omega), if_pos hr]
        have hkeys : rowKeys rawLo nRaw (i :: row)
          = .raw (rawLo + i.toNat) :: rowKeys rawLo nRaw row :=
          List.filterMap_cons_some hkey
        rw [hraw _ hr, hkeys]
        rfl
      · have hkey : keyOf rawLo nRaw i = some (.block (i.toNat - nRaw)) := by
          rw [keyOf, if_neg (by omega), if_neg hr]
        have hget := hcomp (i.toNat - nRaw) (by omega)
        rw [Nat.add_sub_cancel' (Nat.not_lt.mp hr)] at hget
        have hkeys : rowKeys rawLo nRaw (i :: row)
            = .block (i.toNat - nRaw) :: rowKeys rawLo nRaw row := List.filterMap_cons_some hkey
        rw [hget, hkeys]
        rfl

end

/-- The first query's window opens at the first raw row. -/
theorem spanLo_opens (window : Int) (posBase s : Nat) :
    spanLo window posBase
      ≤ (posBase + 1) - min (spanWin window (posBase + s)) (posBase + 1) := by
  unfold spanLo spanWin
  split
  · exact Nat.le_refl _
  · exact Nat.zero_le _

theorem selectedAt_stored [Zero α] [Add α] [LinearOrder α] (pool : List (Slot α) → List α)
    (knobs : Knobs) (cfg : Config) (l : Layer α X) (li : Nat) (S : Nat → X) (posBase s : Nat) :
    ∀ i, i < s → ∀ t ∈ selectedAt pool knobs cfg l li S (posBase + i),
      t < storedAt knobs cfg l li (posBase + s) := fun i hi _ ht =>
  Nat.lt_of_lt_of_le (selectedAt_lt ht) (storedAt_mono knobs cfg l li (by omega))

/-- The raw window of a position does not depend on where the call ends. -/
theorem keysOf_spanWin (window : Int) {total : Nat} (hp : p + 1 ≤ total) (sel : List Nat) :
    keysOf (spanWin window total) p sel = keysOf (spanWin window (p + 1)) p sel := by
  have hmin : min (spanWin window total) (p + 1) = min (spanWin window (p + 1)) (p + 1) := by
    unfold spanWin
    split
    · rfl
    · omega
  rw [keysOf, hmin, keysOf]

theorem gather_some {cache : List (List α)} {row : List Int}
    (h : ∀ i ∈ row, i < (cache.length : Int)) : ∃ rows, gather cache row = some rows := by
  induction row with
  | nil => exact ⟨[], rfl⟩
  | cons i row ih =>
    obtain ⟨rows, hrows⟩ := ih (fun j hj => h j (List.mem_cons_of_mem i hj))
    have hi := h i List.mem_cons_self
    rw [gather]
    split
    · exact ⟨rows, hrows⟩
    · have hget : cache[i.toNat]? = some cache[i.toNat] := List.getElem?_eq_getElem (by omega)
      exact ⟨_, by rw [hget, hrows]⟩

/-- The raw rows of a call on a piece of the stream. -/
def rawPiece (l : Layer α X) (S : Nat → X) (posBase s : Nat) : List (List α) :=
  (List.range s).map (fun i => l.kvRow (S (posBase + i)) (posBase + i))

theorem length_rawPiece (l : Layer α X) (S : Nat → X) (posBase s : Nat) :
    (rawPiece l S posBase s).length = s := by
  rw [rawPiece, List.length_map, List.length_range]

section

variable [Zero α] [Add α] [LinearOrder α] {knobs : Knobs} {cfg : Config} {l : Layer α X}
  {li layers nRows maxT posBase s : Nat} {S : Nat → X} {kv : KvCache α}
  {raw₀ : RawRows (List α) (List α)} {M : Nat → Nat → Option (List α)}

/-- **One layer of one call** always gets through: the cache holds the stream up
to the call's end, and what it looked at is named. No bound on the cache is
needed for this: an index that wraps is masked. -/
theorem dsv4Attention_run (pool : List (Slot α) → List α) (hs : 0 < s) (hli : li < layers)
    (hn : layers ≤ nRows) (hadm : Admits cfg.window maxT (posBase + s))
    (hhd : 0 < callRatio knobs cfg li → 0 < asUsize cfg.qkHead)
    (hfor : dsv4RingFor kv.raw posBase s cfg.window = some (raw₀, spanLo cfg.window posBase,
      posBase + s, spanWin cfg.window (posBase + s)))
    (hraw : RawCall cfg.window layers nRows maxT posBase s li raw₀ M)
    (hcomp : CompHolds pool knobs cfg l li S posBase kv) :
    ∃ kv' idxs topk rawRows gathered,
      dsv4Attention pool knobs cfg l li kv (piece S posBase s) posBase
        = some (kv', ⟨spanLo cfg.window posBase, posBase + s - spanLo cfg.window posBase,
            storedAt knobs cfg l li (posBase + s), idxs⟩, gathered) ∧
      RawCall cfg.window layers nRows maxT posBase s (li + 1) kv'.raw
        (Function.update M li (writeAll posBase (M li) (rawPiece l S posBase s))) ∧
      CompHolds pool knobs cfg l li S (posBase + s) kv' ∧ CompFrame li kv kv' ∧
      keyIndices (spanWin cfg.window (posBase + s)) (posBase + s) posBase s
        (spanLo cfg.window posBase) (posBase + s - spanLo cfg.window posBase)
        ((List.range s).map (fun i => selectedAt pool knobs cfg l li S (posBase + i)))
        = some (idxs, topk) ∧
      rawRows.map some = rowsIn (writeAll posBase (M li) (rawPiece l S posBase s))
        (spanLo cfg.window posBase) (posBase + s) ∧
      idxs.mapM (gather (rawRows ++ ((kv'.comp.getD li CompLayer.off).rows.take
        (storedAt knobs cfg l li (posBase + s))))) = some gathered := by
  have hlo := spanLo_le cfg.window posBase
  -- the raw rows
  have hlen := length_rawPiece l S posBase s
  rw [← hlen] at hs hadm hfor hraw
  obtain ⟨raw', rawRows, hatt, hread, hraw'⟩ := rawAttention_call hs hli hn hadm hfor hraw
  rw [hlen] at hs hadm hfor hread hraw'
  have hrawLen : rawRows.length = posBase + s - spanLo cfg.window posBase := by
    have := congrArg List.length hread
    rw [List.length_map, Ring.rowsIn, List.length_map, List.length_range'] at this
    exact this
  -- the compressed rows
  obtain ⟨comp', hcompEq, hmain, hclen, hcframe⟩ :=
    mainComp_step (s := s) pool hhd hcomp.main_lt hcomp.main
  have hnlen := hmain.length
  -- the selection
  obtain ⟨icomp', hsel, hindex, hilen, hiframe⟩ := compressSelect_spec (s := s) pool
    (fun p => if 0 < callRatio knobs cfg li then
      min ((p + 1) / callRatio knobs cfg li) (storedAt knobs cfg l li (posBase + s)) else 0)
    hcomp.index_lt (fun i hi => compAvail_eq (by omega)) hcomp.index
  -- the indices
  obtain ⟨idxs, topk, hidx, hbelow⟩ := keyIndices_below
    (spanLo_opens cfg.window posBase s) (Nat.add_sub_cancel' (by omega))
    (selectedAt_stored pool knobs cfg l li S posBase s)
  obtain ⟨gathered, hgather⟩ : ∃ gathered,
      idxs.mapM (gather (rawRows ++ ((comp'.getD li CompLayer.off).rows.take
        (storedAt knobs cfg l li (posBase + s))))) = some gathered := by
    have hrow : ∀ row ∈ idxs, ∃ rows, gather (rawRows ++ ((comp'.getD li CompLayer.off).rows.take
        (storedAt knobs cfg l li (posBase + s)))) row = some rows ∧ True := by
      intro row hrow
      have hlt : ∀ i ∈ row, i < ((rawRows ++ ((comp'.getD li CompLayer.off).rows.take
          (storedAt knobs cfg l li (posBase + s)))).length : Int) := by
        rw [List.length_append, hrawLen, List.length_take, hnlen, Nat.min_self]
        exact hbelow row hrow
      exact (gather_some hlt).imp fun _ h => ⟨h, trivial⟩
    obtain ⟨out, hout, -⟩ := mapM_some hrow
    exact ⟨out, hout⟩
  refine ⟨⟨raw', comp', icomp'⟩, idxs, topk, rawRows, gathered, ?_, hraw', ?_,
    ⟨hclen, hilen, hcframe, hiframe⟩, hidx, hread, hgather⟩
  · have hrows : (piece S posBase s).mapIdx (fun i x => l.kvRow x (posBase + i))
        = rawPiece l S posBase s := mapIdx_piece S posBase s _
    unfold dsv4Attention
    simp only [length_piece, dsv4RawSpan_spec cfg.window posBase hs, hrows, hatt]
    rw [hcompEq, if_neg (fun hc => Nat.ne_of_gt (hhd hc.1) hc.2), hnlen, nComp_eq, hsel, hidx]
    dsimp only
    rw [hgather]
  · exact ⟨fun hm => hclen.symm ▸ hcomp.main_lt hm, hmain,
      fun hm => hilen.symm ▸ hcomp.index_lt hm, hindex⟩

/-- What it looked at, on a cache that holds its stream and fits the indices:
the call lists and gathers exactly the keys of each of its positions. -/
theorem dsv4Attention_spec (pool : List (Slot α) → List α) (hs : 0 < s) (hli : li < layers)
    (hn : layers ≤ nRows) (hadm : Admits cfg.window maxT (posBase + s))
    (hhd : 0 < callRatio knobs cfg li → 0 < asUsize cfg.qkHead)
    (hfit : posBase + s - spanLo cfg.window posBase + storedAt knobs cfg l li (posBase + s)
      ≤ 2147483648)
    (hM : ∀ p, M li p = some (l.kvRow (S p) p))
    (hfor : dsv4RingFor kv.raw posBase s cfg.window = some (raw₀, spanLo cfg.window posBase,
      posBase + s, spanWin cfg.window (posBase + s)))
    (hraw : RawCall cfg.window layers nRows maxT posBase s li raw₀ M)
    (hcomp : CompHolds pool knobs cfg l li S posBase kv) :
    ∃ kv' t, dsv4Attention pool knobs cfg l li kv (piece S posBase s) posBase
        = some (kv', t, (List.range s).map (fun i =>
            (keysAt pool knobs cfg l li S (posBase + i)).map
              (keyRowOf pool knobs cfg l li S))) ∧
      RawCall cfg.window layers nRows maxT posBase s (li + 1) kv'.raw M ∧
      CompHolds pool knobs cfg l li S (posBase + s) kv' ∧ CompFrame li kv kv' ∧
      t.keys = (List.range s).map (fun i => keysAt pool knobs cfg l li S (posBase + i)) ∧
      t.Valid := by
  have hlo := spanLo_le cfg.window posBase
  have hself : writeAll posBase (M li) (rawPiece l S posBase s) = M li := by
    apply Ring.writeAll_self
    intro i hi
    rw [length_rawPiece] at hi
    rw [rawPiece, List.getElem?_map, List.getElem?_range hi, hM]
    rfl
  obtain ⟨kv', idxs, topk, rawRows, gathered, hatt, hraw', hcomp', hframe, hidx, hread, hgather⟩ :=
    dsv4Attention_run pool hs hli hn hadm hhd hfor hraw hcomp
  rw [hself, Function.update_eq_self] at hraw'
  rw [hself] at hread
  -- the keys
  obtain ⟨idxs', topk', hidx', hkeys, hvalid⟩ := keyIndices_spec
    (spanLo_opens cfg.window posBase s) (Nat.add_sub_cancel' (by omega))
    (selectedAt_stored pool knobs cfg l li S posBase s) hfit
  rw [hidx, Option.some.injEq, Prod.mk.injEq] at hidx'
  rw [← hidx'.1] at hkeys hvalid
  have hkeys' : idxs.map (rowKeys (spanLo cfg.window posBase)
        (posBase + s - spanLo cfg.window posBase))
      = (List.range s).map (fun i => keysAt pool knobs cfg l li S (posBase + i)) := by
    rw [hkeys]
    apply List.map_congr_left
    intro i hi
    rw [List.mem_range] at hi
    rw [keysAt, keysOf_spanWin cfg.window (by omega)]
  -- the rows they name
  have hrawLen : rawRows.length = posBase + s - spanLo cfg.window posBase := by
    have := congrArg List.length hread
    rw [List.length_map, Ring.rowsIn, List.length_map, List.length_range'] at this
    exact this
  have hrow : ∀ row ∈ idxs,
      gather (rawRows ++ ((kv'.comp.getD li CompLayer.off).rows.take
        (storedAt knobs cfg l li (posBase + s)))) row
        = some ((rowKeys (spanLo cfg.window posBase)
            (posBase + s - spanLo cfg.window posBase) row).map
          (keyRowOf pool knobs cfg l li S)) := by
    intro row hrow
    refine gather_spec ?_ ?_ (hvalid row hrow)
    · intro k hk
      have hget := Ring.rowsIn_getElem? (M li) hk
      rw [← hread, List.getElem?_map, List.getElem?_eq_getElem (by omega), Option.map_some,
        Option.some.injEq, hM, Option.some.injEq] at hget
      rw [List.getElem?_append_left (by omega), List.getElem?_eq_getElem (by omega), hget]
      rfl
    · intro t ht
      rw [List.getElem?_append_right (by omega), hrawLen, Nat.add_sub_cancel_left,
        List.getElem?_take_of_lt ht]
      exact hcomp'.main.row ht
  have hgathered : gathered = (List.range s).map (fun i =>
      (keysAt pool knobs cfg l li S (posBase + i)).map (keyRowOf pool knobs cfg l li S)) := by
    rw [mapM_eq_map hrow, Option.some.injEq] at hgather
    have h := congrArg (List.map (List.map (keyRowOf pool knobs cfg l li S))) hkeys'
    rw [List.map_map, List.map_map] at h
    exact hgather.symm.trans h
  rw [hgathered] at hatt
  exact ⟨kv', _, hatt, hraw', hcomp', hframe, hkeys', hvalid⟩

end

end Colibri.Dsv4
