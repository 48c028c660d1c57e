import Colibri.Dsv4.KeySets

/-!
# When compressed rows are lost

The compressed buffers are sized on the first forward from `max_ctx` and the
smallest ratio; the runs a cache admits are bounded by its own `max_t`. The two
need not agree, and a row past the buffer's end is dropped without a word.

`complete_iff` is the step: a layer that holds `p` tokens has all their rows if
and only if `p / ratio` rows fit. `run_complete_iff` is the result over runs. It
asks for no bound on the indices, so the run lemma here, `forwardRun_total`,
follows the tokens that really reach each layer instead of a stream fixed in
advance: `extended` appends a call's tokens to what the layer has seen.

`complete_new` is the start of a run, where nothing is missing, and `Roomy` what the prefixes of a
run need. `tight_run_drops_row` is a run of the code whose buffers are too small for its own cache:
the last block that the tokens close is not stored.
-/

namespace Colibri.Dsv4

open Colibri.Kv

variable {α X : Type}

/-! ## Runs, whatever their rows -/

/-- A stream continued from `posBase` by the tokens of a call. -/
def extended (S : Nat → X) (posBase : Nat) (xs : List X) (p : Nat) : X :=
  if p < posBase then S p else (xs[p - posBase]?).getD (S p)

theorem extended_lt {S : Nat → X} {posBase p : Nat} (xs : List X) (h : p < posBase) :
    extended S posBase xs p = S p :=
  if_pos h

theorem piece_extended (S : Nat → X) (posBase : Nat) (xs : List X) :
    piece (extended S posBase xs) posBase xs.length = xs := by
  apply List.ext_getElem?
  intro i
  by_cases hi : i < xs.length
  · rw [piece, List.getElem?_map, List.getElem?_range hi, Option.map_some, extended,
      if_neg (by omega), Nat.add_sub_cancel_left, List.getElem?_eq_getElem hi, Option.getD_some]
  · rw [List.getElem?_eq_none (by rw [length_piece]; omega), List.getElem?_eq_none (by omega)]

section

variable [Zero α] [Add α] [LinearOrder α] {knobs : Knobs} {cfg : Config}
  {layers : List (Layer α X)} {nRows maxT posBase : Nat}

/-- **One call** always gets through. -/
theorem dsv4Forward_total (pool : List (Slot α) → List α) (hlayers : 0 < layers.length)
    (hrows : layers.length ≤ nRows) (hwidth : WidthOk knobs cfg layers) {xs : List X}
    (hs : 0 < xs.length) (hadm : Admits cfg.window maxT (posBase + xs.length)) {kv : KvCache α}
    (h : ∃ M S, Between pool knobs cfg layers M S nRows maxT posBase kv) :
    ∃ kv' ts ys, dsv4Forward pool knobs cfg layers kv xs posBase = some (kv', ts, ys) ∧
      (∃ M S, Between pool knobs cfg layers M S nRows maxT (posBase + xs.length) kv') ∧
      initComp knobs cfg layers.length kv' = kv' := by
  have hstep : ∀ li l kv ys, layers[li]? = some l →
      (ys.length = xs.length ∧
        ∃ M S, InForward pool knobs cfg layers M S nRows maxT posBase xs.length li kv) →
      ∃ kv' t rows, dsv4Attention pool knobs cfg l li kv ys posBase = some (kv', t, rows) ∧
        ((ys.mapIdx (fun i x => l.block x (posBase + i) (rows.getD i []))).length = xs.length ∧
          ∃ M S, InForward pool knobs cfg layers M S nRows maxT posBase xs.length (li + 1) kv') ∧
        kv'.comp.length = kv.comp.length ∧ True := by
    rintro li l kv ys hl ⟨hlen, M, S, hin⟩
    have hli : li < layers.length := (List.getElem?_eq_some_iff.mp hl).1
    -- the stream of this layer, continued by the tokens that reached it
    obtain ⟨S', hthis, hother⟩ : ∃ S' : Nat → Nat → X,
        S' li = extended (S li) posBase ys ∧ ∀ j, j ≠ li → S' j = S j :=
      ⟨Function.update S li (extended (S li) posBase ys), Function.update_self ..,
        fun j hj => Function.update_of_ne hj ..⟩
    have hin' : InForward pool knobs cfg layers M S' nRows maxT posBase xs.length li kv := by
      refine ⟨hin.raw, fun j l' hj => ?_⟩
      by_cases he : j = li
      · subst he
        have hcomp := hin.comp j l' hj
        rw [if_neg (Nat.lt_irrefl j)] at hcomp ⊢
        refine hcomp.congr (fun q hq => ?_)
        rw [hthis]
        exact extended_lt ys hq
      · rw [hother j he]
        exact hin.comp j l' hj
    have hcomp := hin'.comp li l hl
    rw [if_neg (Nat.lt_irrefl li)] at hcomp
    obtain ⟨raw₀, hsized, hraw₀, _⟩ := hin'.raw
    obtain ⟨kv', idxs, topk, rawRows, gathered, hatt, hraw, hhold, hframe, _⟩ :=
      dsv4Attention_run pool hs hli hrows hadm (hwidth li hli) hsized hraw₀ hcomp
    have hys : piece (S' li) posBase xs.length = ys := by
      rw [← hlen, hthis, piece_extended]
    rw [hys] at hatt
    exact ⟨kv', _, gathered, hatt, ⟨List.length_mapIdx.trans hlen, _, S',
      hin'.advance hs hl hraw hhold hframe⟩, hframe.comp_length, trivial⟩
  obtain ⟨M, S, hbetween⟩ := h
  obtain ⟨kv', ts, ys, hrun, ⟨_, M', S', hin⟩, hself, _⟩ :=
    dsv4Forward_induct pool hlayers hstep ⟨rfl, M, S, hbetween.begin hs⟩
  exact ⟨kv', ts, ys, hrun, ⟨M', S', hin.finish hs hlayers hself⟩, hself⟩

/-- **The run** always gets through, and holds its tokens. -/
theorem forwardRun_total (pool : List (Slot α) → List α) (hlayers : 0 < layers.length)
    (hrows : layers.length ≤ nRows) (hwidth : WidthOk knobs cfg layers) {chunks : List (List X)}
    (hne : ∀ xs ∈ chunks, xs ≠ []) (hadm : Admits cfg.window maxT (posBase + chunks.flatten.length))
    {kv : KvCache α} (h : ∃ M S, Between pool knobs cfg layers M S nRows maxT posBase kv) :
    ∃ kv' traces outs, forwardRun pool knobs cfg layers posBase kv chunks
        = some (kv', traces, outs) ∧
      (∃ M S, Between pool knobs cfg layers M S nRows maxT
        (posBase + chunks.flatten.length) kv') ∧
      (chunks ≠ [] → initComp knobs cfg layers.length kv' = kv') := by
  induction chunks generalizing posBase kv with
  | nil => exact ⟨kv, [], [], rfl, h, fun hc => absurd rfl hc⟩
  | cons xs rest ih =>
    rw [List.flatten_cons, List.length_append, ← Nat.add_assoc] at hadm ⊢
    have hs : 0 < xs.length := List.length_pos_iff.mpr (hne xs List.mem_cons_self)
    obtain ⟨kv₁, ts, ys, hfwd, hbetween, hself₁⟩ := dsv4Forward_total pool hlayers hrows hwidth hs
      (hadm.imp_right (fun h => by omega)) h
    obtain ⟨kv', traces, outs, hrun, hend, hself⟩ :=
      ih (fun zs hzs => hne zs (List.mem_cons_of_mem xs hzs)) hadm hbetween
    refine ⟨kv', ts :: traces, ys :: outs, ?_, hend, fun _ => ?_⟩
    · rw [forwardRun, hfwd]
      dsimp only
      rw [hrun]
      rfl
    · by_cases hrest : rest = []
      · subst hrest
        rw [forwardRun, Option.some.injEq, Prod.mk.injEq] at hrun
        exact hrun.1 ▸ hself₁
      · exact hself hrest

end

/-! ## Complete rows -/

/-- After `p` tokens every compressing layer holds the rows of all blocks closed,
and so does every Indexer. -/
def Complete (knobs : Knobs) (cfg : Config) (layers : List (Layer α X)) (p : Nat)
    (kv : KvCache α) : Prop :=
  ∀ j l, layers[j]? = some l →
    (∀ w, mainComp knobs cfg l j = some w →
      (kv.comp.getD j CompLayer.off).rows.length = p / asUsize (cfg.compRatio j)) ∧
    (∀ ix, mainIndexer knobs cfg l j = some ix →
      (kv.icomp.getD j CompLayer.off).rows.length = p / 4)

/-- `p` tokens fit the buffers sized from the configuration. -/
def Roomy (knobs : Knobs) (cfg : Config) (layers : List (Layer α X)) (p : Nat) : Prop :=
  ∀ j l, layers[j]? = some l →
    (∀ w, mainComp knobs cfg l j = some w → p / asUsize (cfg.compRatio j) ≤ compRoom cfg) ∧
    (∀ ix, mainIndexer knobs cfg l j = some ix → p / 4 ≤ icompRoom cfg)

theorem Roomy.mono {knobs : Knobs} {cfg : Config} {layers : List (Layer α X)} {p q : Nat}
    (h : Roomy knobs cfg layers q) (hle : p ≤ q) : Roomy knobs cfg layers p := fun j l hl =>
  ⟨fun w hw => Nat.le_trans (Nat.div_le_div_right hle) ((h j l hl).1 w hw),
    fun ix hix => Nat.le_trans (Nat.div_le_div_right hle) ((h j l hl).2 ix hix)⟩

theorem roomy_zero {knobs : Knobs} {cfg : Config} {layers : List (Layer α X)} :
    Roomy knobs cfg layers 0 := fun j l _ =>
  ⟨fun w _ => by rw [Nat.zero_div]; exact Nat.zero_le _, fun ix _ => Nat.zero_le _⟩

section

variable [Zero α] [Add α] {knobs : Knobs} {cfg : Config} {layers : List (Layer α X)}

/-- The step: complete if and only if the rows fit. -/
theorem complete_iff (pool : List (Slot α) → List α) {S : Nat → Nat → X} {p : Nat}
    {kv : KvCache α}
    (h : ∀ j l, layers[j]? = some l → CompHolds pool knobs cfg l j (S j) p kv) :
    Complete knobs cfg layers p kv ↔ Roomy knobs cfg layers p := by
  have hmain : ∀ j l w, layers[j]? = some l → mainComp knobs cfg l j = some w →
      ((kv.comp.getD j CompLayer.off).rows.length = p / asUsize (cfg.compRatio j)
        ↔ p / asUsize (cfg.compRatio j) ≤ compRoom cfg) := by
    intro j l w hl hw
    have hlen := (h j l hl).main.length
    unfold storedAt at hlen
    rw [hw] at hlen
    rw [hlen]
    exact min_eq_left_iff
  have hindex : ∀ j l ix, layers[j]? = some l → mainIndexer knobs cfg l j = some ix →
      ((kv.icomp.getD j CompLayer.off).rows.length = p / 4 ↔ p / 4 ≤ icompRoom cfg) := by
    intro j l ix hl hix
    have hidx := (h j l hl).index
    unfold IndexHolds at hidx
    rw [hix] at hidx
    rw [hidx.rows_eq, List.length_map, List.length_range]
    exact min_eq_left_iff
  constructor
  · intro hc j l hl
    exact ⟨fun w hw => (hmain j l w hl hw).mp ((hc j l hl).1 w hw),
      fun ix hix => (hindex j l ix hl hix).mp ((hc j l hl).2 ix hix)⟩
  · intro hr j l hl
    exact ⟨fun w hw => (hmain j l w hl hw).mpr ((hr j l hl).1 w hw),
      fun ix hix => (hindex j l ix hl hix).mpr ((hr j l hl).2 ix hix)⟩

omit [Zero α] [Add α] in
theorem complete_new (nRows maxT : Nat) :
    Complete knobs cfg layers 0 (KvCache.new nRows maxT : KvCache α) := fun _ _ _ =>
  ⟨fun _ _ => (Nat.zero_div _).symm, fun _ _ => rfl⟩

end

/-! ## Rows of no width -/

section

variable [Zero α] [Add α] [LinearOrder α] {knobs : Knobs} {cfg : Config}

/-- A layer that counts blocks by rows of no width divides by zero. -/
theorem dsv4Attention_none (pool : List (Slot α) → List α) {li : Nat}
    (hratio : 0 < callRatio knobs cfg li) (hwidth : asUsize cfg.qkHead = 0) (l : Layer α X)
    (kv : KvCache α) (xs : List X) (posBase : Nat) :
    dsv4Attention pool knobs cfg l li kv xs posBase = none := by
  unfold dsv4Attention
  dsimp only
  split
  · rfl
  · exact if_pos ⟨hratio, hwidth⟩

theorem layersForward_none (pool : List (Slot α) → List α) {j : Nat}
    (hratio : 0 < callRatio knobs cfg j) (hwidth : asUsize cfg.qkHead = 0) (posBase : Nat)
    (ls : List (Layer α X)) {li : Nat} (hli : li ≤ j) (hj : j < li + ls.length) (kv : KvCache α)
    (xs : List X) : layersForward pool knobs cfg posBase li kv ls xs = none := by
  induction ls generalizing li kv xs with
  | nil => exact absurd hj (by rw [List.length_nil]; omega)
  | cons l ls ih =>
    rw [List.length_cons] at hj
    rw [layersForward]
    by_cases he : li = j
    · subst he
      rw [dsv4Attention_none pool hratio hwidth]
    · split
      · rfl
      · rw [ih (by omega) (by omega)]
        rfl

/-- A call that gets through divides by no zero. -/
theorem widthOk_of_forward (pool : List (Slot α) → List α) {layers : List (Layer α X)}
    {kv : KvCache α} {xs : List X} {posBase : Nat}
    (h : dsv4Forward pool knobs cfg layers kv xs posBase ≠ none) : WidthOk knobs cfg layers := by
  intro j hj hratio
  rcases Nat.eq_zero_or_pos (asUsize cfg.qkHead) with hz | hpos
  · exact absurd (layersForward_none pool hratio hz posBase layers (Nat.zero_le j)
      (by omega) _ xs) h
  · exact hpos

/-! ## The result -/

/-- **No compressed row is lost in a run exactly when its rows fit.** After every
prefix of the calls each compressing layer of ratio `r` holds `p / r` rows, and
each Indexer `p / 4`, if and only if for the whole run these counts are at most
the rows the buffers are sized for, which is a matter of `max_ctx` and the
smallest ratio, not of the cache's `max_t`. (Rows of no width stop the run.) -/
theorem run_complete_iff (pool : List (Slot α) → List α) (knobs : Knobs) (cfg : Config)
    (layers : List (Layer α X)) {nRows maxT : Nat} (hrows : layers.length ≤ nRows)
    (chunks : List (List X)) (hne : ∀ xs ∈ chunks, xs ≠ [])
    (hadm : chunks.flatten.length ≤ maxT) :
    (∀ n, ∃ kv traces outs,
      forwardRun pool knobs cfg layers 0 (KvCache.new nRows maxT) (chunks.take n)
        = some (kv, traces, outs) ∧
      Complete knobs cfg layers (chunks.take n).flatten.length kv) ↔
    (chunks ≠ [] → WidthOk knobs cfg layers) ∧ Roomy knobs cfg layers chunks.flatten.length := by
  rcases Nat.eq_zero_or_pos layers.length with hz | hlayers
  · rw [List.length_eq_zero_iff] at hz
    subst hz
    have hvac : ∀ {P : Prop} {j : Nat} {l : Layer α X}, ([] : List (Layer α X))[j]? = some l → P :=
      fun hl => by cases hl
    refine ⟨fun _ => ⟨fun _ j hj => absurd hj (Nat.not_lt_zero j), fun j l hl => hvac hl⟩, ?_⟩
    intro _ n
    obtain ⟨kv, hrun⟩ := forwardRun_no_layers pool knobs cfg (chunks.take n) 0
      (KvCache.new nRows maxT)
    exact ⟨kv, _, _, hrun, fun j l hl => hvac hl⟩
  by_cases hc : chunks = []
  · subst hc
    refine ⟨fun _ => ⟨fun h => absurd rfl h, roomy_zero⟩, fun _ n => ?_⟩
    rw [List.take_nil]
    exact ⟨_, _, _, rfl, complete_new nRows maxT⟩
  obtain ⟨x, _⟩ : ∃ x : X, x ∈ chunks.flatten := by
    obtain ⟨xs, rest, rfl⟩ := List.exists_cons_of_ne_nil hc
    obtain ⟨x, xs', rfl⟩ := List.exists_cons_of_ne_nil (hne xs List.mem_cons_self)
    exact ⟨x, List.mem_cons_self⟩
  -- a prefix that gets through is complete if and only if its rows fit
  have hprefix : WidthOk knobs cfg layers → ∀ n, ∃ kv traces outs,
      forwardRun pool knobs cfg layers 0 (KvCache.new nRows maxT) (chunks.take n)
        = some (kv, traces, outs) ∧
      (Complete knobs cfg layers (chunks.take n).flatten.length kv
        ↔ Roomy knobs cfg layers (chunks.take n).flatten.length) := by
    intro hwidth n
    have hsub : (chunks.take n).flatten.length ≤ chunks.flatten.length :=
      (List.take_sublist n chunks).flatten.length_le
    obtain ⟨kv, traces, outs, hrun, ⟨M, S, hbetween⟩, hself⟩ :=
      forwardRun_total pool hlayers hrows hwidth
        (fun xs hxs => hne xs (List.mem_of_mem_take hxs))
        (Or.inr (by rw [Nat.zero_add]; exact Nat.le_trans hsub hadm))
        ⟨fun _ _ => none, fun _ _ => x, between_new pool _ _ nRows maxT⟩
    refine ⟨kv, traces, outs, hrun, ?_⟩
    rcases List.eq_nil_or_concat (chunks.take n) with hz | ⟨front, last, hcons⟩
    · rw [hz] at hrun ⊢
      rw [forwardRun, Option.some.injEq, Prod.mk.injEq] at hrun
      rw [← hrun.1]
      exact iff_of_true (complete_new nRows maxT) roomy_zero
    · have hcomp := hbetween.comp
      rw [hself (by rw [hcons]; simp), Nat.zero_add] at hcomp
      exact complete_iff pool hcomp
  constructor
  · intro h
    have hwidth : WidthOk knobs cfg layers := by
      obtain ⟨kv, traces, outs, hrun, _⟩ := h chunks.length
      rw [List.take_length] at hrun
      obtain ⟨xs, rest, rfl⟩ := List.exists_cons_of_ne_nil hc
      rw [forwardRun] at hrun
      split at hrun
      · cases hrun
      next hfwd => exact widthOk_of_forward pool (by rw [hfwd]; exact Option.some_ne_none _)
    refine ⟨fun _ => hwidth, ?_⟩
    obtain ⟨kv, traces, outs, hrun, hcomplete⟩ := h chunks.length
    obtain ⟨kv', traces', outs', hrun', hiff⟩ := hprefix hwidth chunks.length
    rw [hrun, Option.some.injEq, Prod.mk.injEq] at hrun'
    rw [← hrun'.1, List.take_length] at hiff
    rw [List.take_length] at hcomplete
    exact hiff.mp hcomplete
  · rintro ⟨hwidth, hroomy⟩ n
    obtain ⟨kv, traces, outs, hrun, hiff⟩ := hprefix (hwidth hc) n
    exact ⟨kv, traces, outs, hrun,
      hiff.mpr (hroomy.mono (List.take_sublist n chunks).flatten.length_le)⟩

end

/-- The small model with `max_ctx` 4. -/
def tightConfig : Config := { smallConfig 0 1 with maxCtx := 4 }

/-- Three calls on a cache of 16 positions, which the buffers, of 18 rows, do not
limit. -/
theorem run_complete_iff_small :
    ∃ kv traces outs,
      forwardRun (fun w => [(w.flatMap Slot.kv).sum]) ⟨true, true, none⟩ (smallConfig 0 1)
        [smallLayer] 0 (KvCache.new 1 16) [[1, 2, 3, 4, 5], [6], [7, 8, 9]]
        = some (kv, traces, outs) ∧
      Complete ⟨true, true, none⟩ (smallConfig 0 1) [smallLayer] 9 kv := by
  refine (run_complete_iff (fun w => [(w.flatMap Slot.kv).sum]) ⟨true, true, none⟩
    (smallConfig 0 1) [smallLayer] (show 1 ≤ 1 by decide) [[1, 2, 3, 4, 5], [6], [7, 8, 9]]
    (by decide) (show 9 ≤ 16 by decide)).mpr ⟨fun _ _ _ _ => by decide, ?_⟩ 3
  intro j l hl
  have hj : j < 1 := (List.getElem?_eq_some_iff.mp hl).1
  have h0 : j = 0 := by omega
  subst h0
  exact ⟨fun _ _ => by decide, fun _ _ => by decide⟩

/-- With `max_ctx` 4 and ratio 4 there is room for 3 rows; a cache of 16
positions admits 16 tokens, which close 4 blocks. -/
theorem tight_run_drops_row :
    ∃ kv traces outs,
      forwardRun (fun w => [(w.flatMap Slot.kv).sum]) ⟨true, true, none⟩ tightConfig
        [smallLayer] 0 (KvCache.new 1 16)
        [[1, 2, 3, 4, 5, 6, 7, 8, 9, 10, 11, 12, 13, 14, 15, 16]] = some (kv, traces, outs) ∧
      (kv.comp.getD 0 CompLayer.off).rows.length = 3 ∧
      ¬ Complete ⟨true, true, none⟩ tightConfig [smallLayer] 16 kv := by
  have hthree : (forwardRun (fun w => [(w.flatMap Slot.kv).sum]) ⟨true, true, none⟩ tightConfig
      [smallLayer] 0 (KvCache.new 1 16)
      [[1, 2, 3, 4, 5, 6, 7, 8, 9, 10, 11, 12, 13, 14, 15, 16]]).map
      (fun r => (r.1.comp.getD 0 CompLayer.off).rows.length) = some 3 := by decide
  obtain ⟨⟨kv, traces, outs⟩, hrun, hlen⟩ := Option.map_eq_some_iff.mp hthree
  refine ⟨kv, traces, outs, hrun, hlen, fun hc => ?_⟩
  have hfour := (hc 0 smallLayer rfl).1 _ rfl
  rw [show (kv.comp.getD 0 CompLayer.off).rows.length = 3 from hlen] at hfour
  exact absurd hfour (by decide)

end Colibri.Dsv4
