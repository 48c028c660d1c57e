import Colibri.Dsv4.Forward

/-!
# The keys of a query, however the sequence is chunked

`Attends` says in so many words which keys position `p` of a layer sees: the raw
positions of its window, and among the compressed blocks closed and stored at
`p` those the Indexer keeps, if the layer runs one. The result is that every
chunking of a token sequence gives every query exactly that set.

Two things the code does on purpose show in it. An `index_topk` of 0 means no
limit, not an empty selection. And a block counts once its row is stored, in the
Indexer's own buffer too, where there is room for any.

* `mem_keysAt`, `keysAt_nodup`: the list of a position's keys is `Attends`, without repetition.
* `runFits_of` takes the conditions of a run to those of its calls, `forwardRun_spec` does the rest.
* `chunked_keys` is the result, and `index_topk_zero_keeps_all` the first of the two things above.
-/

namespace Colibri.Dsv4

open Colibri.Kv

variable {α X : Type}

section

variable [Zero α] [Add α] [LinearOrder α]

/-- The blocks an Indexer scores for position `p`: closed, and stored on both
sides. -/
def scoredAt (knobs : Knobs) (cfg : Config) (l : Layer α X) (li p : Nat) : Nat :=
  min (closedAt knobs cfg l li p) (icompRoom cfg)

/-- What the Indexer keeps of the blocks scored at `p`: everything when they fit
`index_topk` (0 is no limit), else the best `index_topk` of them, a tie going to
the lower block. -/
def Kept (pool : List (Slot α) → List α) (knobs : Knobs) (cfg : Config) (l : Layer α X) (li : Nat)
    (ix : Indexer α X) (S : Nat → X) (p t : Nat) : Prop :=
  t < scoredAt knobs cfg l li p ∧
    (dsv4IndexTopk knobs cfg = 0 ∨ scoredAt knobs cfg l li p ≤ dsv4IndexTopk knobs cfg ∨
      TopK.rank (fun t => ix.score (S p) p
          (finishedRow pool ix.comp 4 (asUsize cfg.indexHd) S t))
        (scoredAt knobs cfg l li p) t < dsv4IndexTopk knobs cfg)

/-- **Which keys position `p` attends to.** -/
def Attends (pool : List (Slot α) → List α) (knobs : Knobs) (cfg : Config) (l : Layer α X)
    (li : Nat) (S : Nat → X) (p : Nat) : Key → Prop
  | .raw q => p + 1 - spanWin cfg.window (p + 1) ≤ q ∧ q ≤ p
  | .block t => t < closedAt knobs cfg l li p ∧
      ∀ ix, mainIndexer knobs cfg l li = some ix → icompRoom cfg ≠ 0 →
        Kept pool knobs cfg l li ix S p t

variable {knobs : Knobs} {cfg : Config} {l : Layer α X} {li p : Nat} {S : Nat → X}

/-- What is selected: the closed blocks that the Indexer, if it runs and has room, keeps. -/
theorem mem_selectedAt (pool : List (Slot α) → List α) {t : Nat} :
    t ∈ selectedAt pool knobs cfg l li S p ↔ t < closedAt knobs cfg l li p ∧
      ∀ ix, mainIndexer knobs cfg l li = some ix → icompRoom cfg ≠ 0 →
        Kept pool knobs cfg l li ix S p t := by
  unfold selectedAt
  cases hix : mainIndexer knobs cfg l li with
  | none =>
    rw [List.mem_range]
    exact ⟨fun h => ⟨h, fun ix hn => absurd hn.symm (Option.some_ne_none ix)⟩, fun h => h.1⟩
  | some ix =>
    dsimp only
    split
    next hz =>
      rw [List.mem_range]
      exact ⟨fun h => ⟨h, fun _ _ hne => absurd hz hne⟩, fun h => h.1⟩
    next hz =>
      have hiff : t ∈ selectRow (dsv4IndexTopk knobs cfg) (scoredAt knobs cfg l li p)
          (fun t => ix.score (S p) p (finishedRow pool ix.comp 4 (asUsize cfg.indexHd) S t))
          ↔ Kept pool knobs cfg l li ix S p t := by
        rw [selectRow_eq, Kept]
        split
        next hall =>
          rw [List.mem_range]
          exact ⟨fun h => ⟨h, hall.elim Or.inl (fun hle => Or.inr (Or.inl hle))⟩, fun h => h.1⟩
        next hnot =>
          rw [List.mem_filter, List.mem_range, decide_eq_true_iff]
          refine ⟨fun h => ⟨h.1, Or.inr (Or.inr h.2)⟩, fun h => ⟨h.1, ?_⟩⟩
          rcases h.2 with h0 | hle | hrank
          · exact absurd (Or.inl h0) hnot
          · exact absurd (Or.inr hle) hnot
          · exact hrank
      refine hiff.trans ⟨fun h => ⟨?_, fun ix' he _ => ?_⟩, fun h => h.2 ix rfl hz⟩
      · exact Nat.lt_of_lt_of_le h.1 (Nat.min_le_left _ _)
      · rw [Option.some.injEq] at he
        exact he ▸ h

/-- The keys listed are the keys attended to. -/
theorem mem_keysAt (pool : List (Slot α) → List α) (k : Key) :
    k ∈ keysAt pool knobs cfg l li S p ↔ Attends pool knobs cfg l li S p k := by
  rw [keysAt, keysOf, List.mem_append, List.mem_map, List.mem_map]
  cases k with
  | raw q =>
    have hwin : min (spanWin cfg.window (p + 1)) (p + 1) ≤ p + 1 := Nat.min_le_right _ _
    constructor
    · rintro (⟨q', hq', he⟩ | ⟨t, _, he⟩)
      · cases he
        rw [List.mem_range'_1] at hq'
        exact ⟨by omega, by omega⟩
      · cases he
    · rintro ⟨hlo, hhi⟩
      exact Or.inl ⟨q, List.mem_range'_1.mpr ⟨by omega, by omega⟩, rfl⟩
  | block t =>
    constructor
    · rintro (⟨q, _, he⟩ | ⟨t', ht', he⟩)
      · cases he
      · cases he
        exact (mem_selectedAt pool).mp ht'
    · intro h
      exact Or.inr ⟨t, (mem_selectedAt pool).mpr h, rfl⟩

/-- No key is listed twice. -/
theorem keysAt_nodup (pool : List (Slot α) → List α) :
    (keysAt pool knobs cfg l li S p).Nodup := by
  have hsel : (selectedAt pool knobs cfg l li S p).Nodup := by
    unfold selectedAt
    split
    · exact List.nodup_range
    · split
      · exact List.nodup_range
      · rw [selectRow_eq]
        split
        · exact List.nodup_range
        · exact List.nodup_range.filter _
  rw [keysAt, keysOf, List.nodup_append']
  have hraw : (List.range' ((p + 1) - min (spanWin cfg.window (p + 1)) (p + 1))
      (min (spanWin cfg.window (p + 1)) (p + 1))).Nodup := List.nodup_range'
  refine ⟨hraw.map (fun a b h => by cases h; rfl), hsel.map (fun a b h => by cases h; rfl), ?_⟩
  intro k hraw hblock
  obtain ⟨q, _, rfl⟩ := List.mem_map.mp hraw
  obtain ⟨t, _, he⟩ := List.mem_map.mp hblock
  cases he

end

/-! ## Any chunking -/

section

variable [Zero α] [Add α] [LinearOrder α] {knobs : Knobs} {cfg : Config} {nRows maxT : Nat}

/-- The rows the calls assemble, each layer's raw span and compressed rows, fit
the `i32` indices. -/
def CacheFits (knobs : Knobs) (cfg : Config) (layers : List (Layer α X)) :
    Nat → List (List X) → Prop
  | _, [] => True
  | posBase, xs :: rest =>
    (∀ j l, layers[j]? = some l → posBase + xs.length - spanLo cfg.window posBase
      + storedAt knobs cfg l j (posBase + xs.length) ≤ 2147483648) ∧
    CacheFits knobs cfg layers (posBase + xs.length) rest

omit [Zero α] [Add α] [LinearOrder α] in
/-- The conditions of every call of the run, from those of the run. -/
theorem runFits_of {layers : List (Layer α X)} (hrows : layers.length ≤ nRows)
    (hwidth : WidthOk knobs cfg layers) {chunks : List (List X)} {posBase : Nat}
    (hne : ∀ xs ∈ chunks, xs ≠ [])
    (hadm : Admits cfg.window maxT (posBase + chunks.flatten.length))
    (hfit : CacheFits knobs cfg layers posBase chunks) :
    RunFits knobs cfg layers nRows maxT posBase chunks := by
  induction chunks generalizing posBase with
  | nil => trivial
  | cons xs rest ih =>
    rw [List.flatten_cons, List.length_append, ← Nat.add_assoc] at hadm
    have hadm' : Admits cfg.window maxT (posBase + xs.length) :=
      hadm.imp_right (fun h => by omega)
    exact ⟨⟨List.length_pos_iff.mpr (hne xs List.mem_cons_self), hrows, hadm', hwidth, hfit.1⟩,
      ih (fun ys hys => hne ys (List.mem_cons_of_mem xs hys)) hadm hfit.2⟩

omit [Zero α] [Add α] [LinearOrder α] in
theorem storedAt_le (knobs : Knobs) (cfg : Config) (l : Layer α X) (li n : Nat) :
    storedAt knobs cfg l li n ≤ n := by
  unfold storedAt
  split
  · exact Nat.zero_le n
  · exact Nat.le_trans (Nat.min_le_left _ _) (Nat.div_le_self _ _)

omit [Zero α] [Add α] [LinearOrder α] in
/-- A run of at most `2^30` tokens fits, whatever the ratios. -/
theorem cacheFits_of_short {layers : List (Layer α X)} {chunks : List (List X)} {posBase : Nat}
    (h : posBase + chunks.flatten.length ≤ 1073741824) :
    CacheFits knobs cfg layers posBase chunks := by
  induction chunks generalizing posBase with
  | nil => trivial
  | cons xs rest ih =>
    rw [List.flatten_cons, List.length_append, ← Nat.add_assoc] at h
    refine ⟨fun j l _ => ?_, ih h⟩
    have := storedAt_le knobs cfg l j (posBase + xs.length)
    omega

/-- A model without layers hands its tokens on. -/
theorem forwardRun_no_layers (pool : List (Slot α) → List α) (knobs : Knobs) (cfg : Config)
    (chunks : List (List X)) (posBase : Nat) (kv : KvCache α) :
    ∃ kv', forwardRun pool knobs cfg ([] : List (Layer α X)) posBase kv chunks
      = some (kv', chunks.map (fun _ => []), chunks) := by
  induction chunks generalizing posBase kv with
  | nil => exact ⟨kv, rfl⟩
  | cons xs rest ih =>
    obtain ⟨kv', hrun⟩ := ih (posBase + xs.length) (initComp knobs cfg 0 kv)
    refine ⟨kv', ?_⟩
    rw [forwardRun]
    show Option.map _ (forwardRun pool knobs cfg [] _ (initComp knobs cfg 0 kv) rest) = _
    rw [hrun]
    rfl

end

/-! ## A small model

One layer of ratio 4 with an Indexer, window 2, rows of width 1. -/

/-- The configuration of the small model, by `index_topk` and `head_dim`. -/
def smallConfig (indexTopk headDim : Int) : Config :=
  fromJsonDeepseekV4 ⟨1, headDim, 0, 1, 64, indexTopk, 1, 2, [4], by decide, by decide⟩

/-- Its layer: every projection is the token itself, pooling sums. -/
def smallLayer : Layer Int Int where
  kvRow x _ := [x]
  comp := some ⟨fun x => ⟨[x, x], [0, 0]⟩, [], fun _ row => row⟩
  indexer := some ⟨⟨fun x => ⟨[x, x], [0, 0]⟩, [], fun _ row => row⟩, fun x _ row => x * row.sum⟩
  block x _ rows := x + rows.flatten.sum

/-- The keys its last query lists when `tokens` come in the given calls. -/
def smallKeys (indexTopk headDim : Int) (chunks : List (List Int)) : Option (List Key) :=
  (forwardRun (fun w => [(w.flatMap Slot.kv).sum]) ⟨true, true, none⟩
    (smallConfig indexTopk headDim) [smallLayer] 0 (KvCache.new 1 8) chunks).bind
      (fun r => (runKeys r.2.1 0).getLast?)

/-! ## The result -/

/-- **Every chunking attends alike.** However a token sequence is cut into calls
of at least one token, with rows for every layer, a nonzero row width where
blocks are counted, an unwindowed cache long enough, and assembled caches an
`i32` can index: the run succeeds, no index underflows or leaves the rows of its
call, and on every layer the query at position `p` lists, each once, exactly the
keys `p` attends to. -/
theorem chunked_keys [Zero α] [Add α] [LinearOrder α] [Inhabited X] {knobs : Knobs} {cfg : Config}
    {nRows maxT : Nat} (pool : List (Slot α) → List α) (layers : List (Layer α X))
    (tokens : List X) (chunks : List (List X)) (hchunks : chunks.flatten = tokens)
    (hne : ∀ xs ∈ chunks, xs ≠ []) (hrows : layers.length ≤ nRows)
    (hwidth : WidthOk knobs cfg layers)
    (hadm : cfg.window ≤ 0 → tokens.length ≤ maxT) (hfit : CacheFits knobs cfg layers 0 chunks) :
    ∃ kv traces outs,
      forwardRun pool knobs cfg layers 0 (KvCache.new nRows maxT) chunks
        = some (kv, traces, outs) ∧
      (∀ ts ∈ traces, ts.length = layers.length ∧ ∀ t ∈ ts, t.Valid) ∧
      ∀ j l, layers[j]? = some l → (runKeys traces j).length = tokens.length ∧
        ∀ p ks, (runKeys traces j)[p]? = some ks → ks.Nodup ∧ ∀ k, k ∈ ks ↔
          Attends pool knobs cfg l j
            (streamInto pool knobs cfg layers (fun p => tokens.getD p default) j) p k := by
  subst hchunks
  rcases Nat.eq_zero_or_pos layers.length with hz | hpos
  · rw [List.length_eq_zero_iff] at hz
    subst hz
    obtain ⟨kv, hrun⟩ := forwardRun_no_layers pool knobs cfg chunks 0 (KvCache.new nRows maxT)
    refine ⟨kv, _, _, hrun, ?_, fun j l hl => absurd hl (by simp)⟩
    intro ts hts
    obtain ⟨_, _, rfl⟩ := List.mem_map.mp hts
    exact ⟨rfl, fun t ht => absurd ht List.not_mem_nil⟩
  · have hadm' : Admits cfg.window maxT (0 + chunks.flatten.length) := by
      rw [Nat.zero_add]
      by_cases hw : 0 < cfg.window
      · exact Or.inl hw
      · exact Or.inr (hadm (by omega))
    have hx : chunks.flatten = piece (fun p => chunks.flatten.getD p default) 0
        chunks.flatten.length := by
      apply List.ext_getElem?
      intro i
      by_cases hi : i < chunks.flatten.length
      · rw [piece, List.getElem?_map, List.getElem?_range hi, Option.map_some, Nat.zero_add,
          List.getD_eq_getElem?_getD, List.getElem?_eq_getElem hi, Option.getD_some]
      · rw [List.getElem?_eq_none (by omega),
          List.getElem?_eq_none (by rw [length_piece]; omega)]
    obtain ⟨kv, traces, outs, hrun, _, _, hkeys, hvalid⟩ := forwardRun_spec pool hpos
      (runFits_of hrows hwidth hne hadm' hfit) hx (between_new pool _ _ nRows maxT)
    refine ⟨kv, traces, outs, hrun, hvalid, fun j l hl => ?_⟩
    rw [hkeys j l hl]
    refine ⟨by rw [List.length_map, List.length_range], fun p ks hp => ?_⟩
    rw [List.getElem?_map] at hp
    obtain ⟨i, hi, rfl⟩ := Option.map_eq_some_iff.mp hp
    have hpi : i = p := by
      obtain ⟨hlt, hget⟩ := List.getElem?_eq_some_iff.mp hi
      rw [List.getElem_range] at hget
      exact hget.symm
    rw [hpi, Nat.zero_add]
    exact ⟨keysAt_nodup pool, fun k => mem_keysAt pool k⟩

/-- Four calls, the Indexer keeping one block of two. -/
theorem chunked_keys_small :
    ∃ kv traces outs,
      forwardRun (fun w => [(w.flatMap Slot.kv).sum]) ⟨true, true, none⟩ (smallConfig 1 1)
        [smallLayer] 0 (KvCache.new 1 8) [[1, 2, 3], [4, 5], [6], [7, 8]]
        = some (kv, traces, outs) ∧
      (runKeys traces 0).length = 8 := by
  obtain ⟨kv, traces, outs, hrun, _, hkeys⟩ :=
    chunked_keys (fun w => [(w.flatMap Slot.kv).sum]) [smallLayer] [1, 2, 3, 4, 5, 6, 7, 8]
      [[1, 2, 3], [4, 5], [6], [7, 8]] rfl (by decide) (show 1 ≤ 1 by decide)
      (fun _ _ _ => show 0 < asUsize (smallConfig 1 1).qkHead by decide)
        (fun _ => show 8 ≤ 8 by decide)
      (cacheFits_of_short (by decide))
  exact ⟨kv, traces, outs, hrun, (hkeys 0 smallLayer rfl).1⟩

/-- Where the code parts from a reading of `index_topk` as a count: with
`index_topk` 0 both closed blocks are kept, though 2 do not fit 0. And where the
indices end: a row width of 0 is a division by zero, and the block index
`2^31` of a call that assembles `2^31` raw rows wraps to a negative number, which
is neither masked nor inside the cache. -/
theorem index_topk_zero_keeps_all :
    (dsv4IndexTopk ⟨true, true, none⟩ (smallConfig 0 1) = 0 ∧
      smallKeys 0 1 [[1, 2, 3, 4, 5, 6, 7, 8]] = some [.raw 6, .raw 7, .block 0, .block 1]) ∧
    smallKeys 0 0 [[1, 2, 3, 4, 5, 6, 7, 8]] = none ∧
    keyRow 1 1 2 2147483647 0 2147483648 [0] = some [2147483647, -2147483648] ∧
      ¬ ValidIndex (2147483648 + 1) (-2147483648) := by
  refine ⟨⟨by decide, by decide⟩, by decide, by decide, ?_⟩
  intro h
  rcases h with h | ⟨h, _⟩ <;> omega

end Colibri.Dsv4
