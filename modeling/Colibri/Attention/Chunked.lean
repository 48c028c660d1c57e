import Colibri.Attention.Absorb
import Colibri.Attention.Calls
import Colibri.Attention.Gqa

/-!
# Attention in chunks

A call of `attention_with_heads` without a selection is a causal call: it writes the rows of
its tokens and then attends, from each token, to the rows up to that token's own
(`mlaCall_eq`). So a sequence may be cut into calls anywhere (`mla_splits`), whichever core
computes them and for any range of heads; and so it may for `attention_gqa`
(`attention_chunks`).

* `contextAt_behind`: what is written behind a position changes nothing of its context, which is
  why a later chunk does not disturb an earlier one.
* `runCore_eq` is the core of either kind, query by query; `core_finish_eq` adds the output
  projection.
* `attention_chunks_three` runs three tokens as one call and as two, as an instance.

A call that computes a selection is not causal: the indexer of a chunk sees the keys of that chunk
only. `NoSelection` is when none is computed.
-/

namespace Colibri.Attention.Heads

open Colibri.Moe Colibri.Cluster Colibri.Blocks Colibri.Vectors Colibri.Chunks

variable {α S : Type} [Field α] [LinearOrder α]

/-- `attention_with_heads` over the next tokens of a sequence, without a selection. -/
def mlaCall (m : RowMath α) (env : DsaEnv) (debug : Bool) (cfg : StackConfig α)
    (l : HeadWeights cfg) (layer : Nat) (core : AttnCore) (hr : HeadRange (asUsize cfg.nHeads)) :
    Call (KvCache α S × Nat) (List α) (List α) := fun st x =>
  (attentionWithHeads m env debug cfg l layer st.1 x st.2 core none hr).map fun r =>
    (r.1, r.2.1, st.2 + x.length)

/-! ## As a causal call -/

/-- The heads a core computes. -/
def coreRange {n : Nat} (core : AttnCore) (hr : HeadRange n) : HeadRange n :=
  match core with
  | .reconstruct => hr
  | .absorb => HeadRange.full n

/-- The assertions a core makes of the range of heads. -/
def CoreTakes {n : Nat} (debug : Bool) (core : AttnCore) (hr : HeadRange n) : Prop :=
  ¬ (debug = true ∧ hr.count = 0) ∧
    match core with
    | .reconstruct => True
    | .absorb => ¬ (debug = true ∧ ¬ (hr.start = 0 ∧ hr.count = n))

instance {n : Nat} (debug : Bool) (core : AttnCore) (hr : HeadRange n) :
    Decidable (CoreTakes debug core hr) :=
  match core with
  | .reconstruct => inferInstanceAs (Decidable (_ ∧ True))
  | .absorb => inferInstanceAs (Decidable (_ ∧ ¬ (_ ∧ ¬ (_ ∧ _))))

/-- Where the span of keys of a query does not underflow, or no head asks for it. -/
def CoreStarts (nHeads : Nat) (core : AttnCore) (st0 pos : Nat) : Prop :=
  match core with
  | .reconstruct => st0 ≤ pos + 1
  | .absorb => nHeads = 0 ∨ st0 ≤ pos + 1

instance (nHeads : Nat) (core : AttnCore) (st0 pos : Nat) :
    Decidable (CoreStarts nHeads core st0 pos) :=
  match core with
  | .reconstruct => inferInstanceAs (Decidable (_ ≤ _))
  | .absorb => inferInstanceAs (Decidable (_ ∨ _))

/-- The context of a token at a position, over all positions up to it. -/
def contextAt (m : RowMath α) (cfg : StackConfig α) (l : HeadWeights cfg) (layer : Nat)
    (core : AttnCore) (hr : HeadRange (asUsize cfg.nHeads)) (kv : KvCache α S) (pos : Nat)
    (qrow : List α) : List α :=
  queryContext m cfg l layer kv (kv.kvStart layer) (coreRange core hr) qrow
    (List.range (pos + 1 - kv.kvStart layer))

section

variable {m : RowMath α} {env : DsaEnv} {debug : Bool} {cfg : StackConfig α}
  {l : HeadWeights cfg} {layer : Nat} {kv kv' : KvCache α S} {x q : List (List α)}
  {core : AttnCore} {hr : HeadRange (asUsize cfg.nHeads)}

omit [LinearOrder α] in
/-- Rows written behind a position change nothing of its context. -/
theorem contextAt_behind {p pos : Nat} {row qrow : List α} (hpos : pos < p)
    (h : kv.writeRow m cfg l.toMlaWeights layer p row = some kv') :
    contextAt m cfg l layer core hr kv' pos qrow = contextAt m cfg l layer core hr kv pos qrow := by
  have hframe := writeRow_frame h
  unfold contextAt
  rw [hframe.kvStart]
  refine queryContext_congr fun _ jj hjj => ?_
  have hlt := List.mem_range.mp hjj
  exact ⟨hframe.latent _ (by omega), hframe.kRot _ (by omega)⟩

/-- The call, position by position. -/
def mlaCausal (m : RowMath α) (debug : Bool) (cfg : StackConfig α) (l : HeadWeights cfg)
    (layer : Nat) (core : AttnCore) (hr : HeadRange (asUsize cfg.nHeads)) :
    Causal (KvCache α S) (List α) (List α) where
  write pos row kv := kv.writeRow m cfg l.toMlaWeights layer pos (l.kvA.dot row)
  out kv pos row :=
    if row.length = asUsize cfg.hidden ∧ CoreTakes debug core hr ∧
        CoreStarts (asUsize cfg.nHeads) core (kv.kvStart layer) pos then
      some (outRow m cfg l row (contextAt m cfg l layer core hr kv pos (queryOf m cfg l pos row)))
    else none
  behind kv kv' p row h pos hpos row' := by
    rw [contextAt_behind hpos h, (writeRow_frame h).kvStart]

omit [LinearOrder α] in
theorem writeRows_cons {posBase : Nat} {row : List α} {rest : List (List α)} :
    writeRows m cfg l layer posBase (row :: rest) kv
      = (kv.writeRow m cfg l.toMlaWeights layer posBase row).bind
          (writeRows m cfg l layer (posBase + 1) rest) := by
  rw [← List.singleton_append, writeRows_append]
  congr 1
  simp [writeRows]

omit [LinearOrder α] in
theorem mlaCausal_writes {pos : Nat} :
    (mlaCausal m debug cfg l layer core hr).writes pos x kv
      = writeRows m cfg l layer pos (x.map l.kvA.dot) kv := by
  induction x generalizing pos kv with
  | nil => rfl
  | cons row rest ih =>
    rw [List.map_cons, writeRows_cons, Causal.writes]
    congr 1
    funext kv₁
    exact ih

omit [LinearOrder α] in
/-- Both cores, query by query. -/
theorem runCore_eq (hkv : Shaped (asUsize cfg.kvLora) kv) {posBase : Nat} (hq : q ≠ [])
    (hmax : posBase + q.length ≤ kv.maxT) (hcount : ¬ (debug = true ∧ hr.count = 0)) :
    runCore m debug cfg l layer kv q posBase (kv.kvStart layer) core none hr
      = if CoreTakes debug core hr then
          mapFrom (fun pos qrow =>
            if CoreStarts (asUsize cfg.nHeads) core (kv.kvStart layer) pos then
              some (contextAt m cfg l layer core hr kv pos qrow)
            else none) posBase q
        else none := by
  set st0 := kv.kvStart layer with hst0
  obtain ⟨qrow₀, rest, rfl⟩ := List.exists_cons_of_ne_nil hq
  cases core with
  | reconstruct =>
    rw [if_pos ⟨hcount, trivial⟩, runCore]
    by_cases hst : st0 ≤ posBase + (qrow₀ :: rest).length
    · rw [reconstructCore_eq hkv hst hmax, ← zipIdx_mapM]
      refine mapM_congr fun qs _ => ?_
      show Option.map _ (denseKeys (posBase + qs.2) st0) = _
      unfold denseKeys
      by_cases hlow : posBase + qs.2 + 1 < st0
      · have hno : ¬ CoreStarts (asUsize cfg.nHeads) .reconstruct st0 (posBase + qs.2) := by
          show ¬ (st0 ≤ posBase + qs.2 + 1)
          omega
        rw [if_pos hlow, if_neg hno]
        rfl
      · have hyes : CoreStarts (asUsize cfg.nHeads) .reconstruct st0 (posBase + qs.2) := by
          show st0 ≤ posBase + qs.2 + 1
          omega
        rw [if_neg hlow, if_pos hyes]
        rfl
    · -- the span underflows, and so does the first query's
      have hno : ¬ CoreStarts (asUsize cfg.nHeads) .reconstruct st0 posBase := by
        show ¬ (st0 ≤ posBase + 1)
        rw [List.length_cons] at hst
        omega
      simp only [reconstructCore, if_pos (Or.inl (Nat.lt_of_not_le hst)), mapFrom, if_neg hno,
        Option.bind_none]
  | absorb =>
    by_cases hfull : debug = true ∧ ¬ (hr.start = 0 ∧ hr.count = asUsize cfg.nHeads)
    · rw [runCore, if_pos hfull, if_neg fun htakes => htakes.2 hfull]
    · rw [runCore, if_neg hfull, if_pos ⟨hcount, hfull⟩]
      refine (zipIdx_mapM (fun pos qrow => ((List.range (asUsize cfg.nHeads)).mapM fun hh =>
        absorbHead m cfg l.kvBRows layer kv qrow pos st0 hh).map List.flatten) posBase _).trans ?_
      refine mapFrom_congr fun pos hlow hhigh qrow _ => ?_
      by_cases hst : st0 ≤ pos + 1
      · have hyes : CoreStarts (asUsize cfg.nHeads) .absorb st0 pos := Or.inr hst
        rw [absorbRow_eq hkv hst (by omega), if_pos hyes]
        rfl
      · by_cases hzero : asUsize cfg.nHeads = 0
        · have hyes : CoreStarts (asUsize cfg.nHeads) .absorb st0 pos := Or.inl hzero
          rw [if_pos hyes]
          simp [contextAt, queryContext, blocks, hzero]
        · have hno : ¬ CoreStarts (asUsize cfg.nHeads) .absorb st0 pos :=
            fun hstarts => hstarts.elim hzero hst
          have hhead : absorbHead m cfg l.kvBRows layer kv qrow pos st0 0 = none :=
            absorbHead_none (Nat.pos_of_ne_zero hzero) (Or.inl (by omega)) qrow
          rw [mapM_eq_none (List.mem_range.mpr (Nat.pos_of_ne_zero hzero)) hhead, if_neg hno]
          rfl

/-- No selection is computed for the next `n` tokens. -/
def NoSelection (env : DsaEnv) (cfg : StackConfig α) (l : HeadWeights cfg) (layer : Nat)
    (kv : KvCache α S) (posBase n : Nat) : Prop :=
  l.ix = none ∨ kv.kvStart layer ≠ 0 ∨ posBase ≠ 0 ∨ cfg.idxType.getD layer false = false ∨
    posBase + n ≤ asUsize cfg.indexTopk ∨ posBase + n < env.dsaMinPrefill ∨
    env.dsaEnabled = false

theorem indexerSelect_none {posBase st0 : Nat} {qr : List (List α)}
    (hst0 : st0 = kv.kvStart layer) (h : NoSelection env cfg l layer kv posBase x.length) :
    indexerSelect m env cfg l.toMlaWeights layer x qr posBase st0 false = some none := by
  unfold indexerSelect
  split
  next => rfl
  next w hw =>
    refine if_pos (Or.inr ?_)
    rw [hst0]
    exact h.resolve_left fun hnone => by
      rw [hnone] at hw
      cases hw

omit [LinearOrder α] in
/-- Where the outputs of a chunk are all there. -/
theorem outs_eq_some {pos : Nat} {ys : List (List α)} :
    mapFrom ((mlaCausal m debug cfg l layer core hr).out kv) pos x = some ys ↔
      (∀ s, ∀ h : s < x.length, x[s].length = asUsize cfg.hidden ∧ CoreTakes debug core hr ∧
        CoreStarts (asUsize cfg.nHeads) core (kv.kvStart layer) (pos + s)) ∧
      ys = x.mapIdx fun s row => outRow m cfg l row
        (contextAt m cfg l layer core hr kv (pos + s) (queryOf m cfg l (pos + s) row)) :=
  mapFrom_ite _ pos x

omit [LinearOrder α] in
/-- The core and the output projection of a chunk whose rows are in the cache. -/
theorem core_finish_eq (hkv : Shaped (asUsize cfg.kvLora) kv) {pos : Nat}
    (hrows : ∀ row ∈ x, row.length = asUsize cfg.hidden) (hx : x ≠ [])
    (hmax : pos + x.length ≤ kv.maxT) (hcount : ¬ (debug = true ∧ hr.count = 0)) :
    ((runCore m debug cfg l layer kv (x.mapIdx fun s row => queryOf m cfg l (pos + s) row) pos
        (kv.kvStart layer) core none hr).bind (finish m cfg l x))
      = mapFrom ((mlaCausal m debug cfg l layer core hr).out kv) pos x := by
  set qs := x.mapIdx fun s row => queryOf m cfg l (pos + s) row with hqs
  have hlen : qs.length = x.length := List.length_mapIdx
  have hpos := List.length_pos_of_ne_nil hx
  have hqsne : qs ≠ [] := List.ne_nil_of_length_pos (by omega)
  rw [runCore_eq hkv hqsne (by omega) hcount]
  by_cases htakes : CoreTakes debug core hr
  · rw [if_pos htakes]
    by_cases hstarts : ∀ s < x.length, CoreStarts (asUsize cfg.nHeads) core (kv.kvStart layer)
        (pos + s)
    · have hctx := (mapFrom_ite (P := fun p _ => CoreStarts (asUsize cfg.nHeads) core
          (kv.kvStart layer) p) (contextAt m cfg l layer core hr kv) pos qs).mpr
        ⟨fun s hs => hstarts s (by omega), rfl⟩
      have hwidth : ∀ c ∈ qs.mapIdx fun s qrow => contextAt m cfg l layer core hr kv (pos + s) qrow,
          c.length = asUsize cfg.nHeads * asUsize cfg.vHead := by
        intro c hc
        obtain ⟨i, hi, rfl⟩ := List.mem_iff_getElem.mp hc
        rw [List.getElem_mapIdx]
        exact length_queryContext
      rw [hctx, Option.bind_some, finish_eq hrows hwidth (by rw [List.length_mapIdx, hlen])]
      refine (outs_eq_some.mpr ⟨fun s hs => ⟨hrows _ (List.getElem_mem hs), htakes, hstarts s hs⟩,
        ?_⟩).symm
      refine List.ext_getElem (by simp [hqs]) fun i h₁ h₂ => ?_
      simp only [hqs, List.getElem_zipWith, List.getElem_mapIdx]
    · -- the first span to underflow is no query's in either
      have hctx : mapFrom (fun p qrow => if CoreStarts (asUsize cfg.nHeads) core
          (kv.kvStart layer) p then some (contextAt m cfg l layer core hr kv p qrow) else none)
          pos qs = none :=
        Option.eq_none_iff_forall_ne_some.mpr fun ys hys => hstarts fun s hs =>
          ((mapFrom_ite _ pos qs).mp hys).1 s (by omega)
      rw [hctx, Option.bind_none]
      exact (Option.eq_none_iff_forall_ne_some.mpr fun ys hys => hstarts fun s hs =>
        ((outs_eq_some.mp hys).1 s hs).2.2).symm
  · rw [if_neg htakes, Option.bind_none]
    exact (Option.eq_none_iff_forall_ne_some.mpr fun ys hys =>
      htakes ((outs_eq_some.mp hys).1 0 hpos).2.1).symm

/-- **A call without a selection is the causal one.** -/
theorem mlaCall_eq {st : KvCache α S × Nat} (hkv : Shaped (asUsize cfg.kvLora) st.1)
    (hsel : NoSelection env cfg l layer st.1 st.2 x.length) (hx : x ≠ []) :
    mlaCall m env debug cfg l layer core hr st x
      = (mlaCausal m debug cfg l layer core hr).call st x := by
  obtain ⟨kv, pos⟩ := st
  dsimp only at hkv hsel
  have hpos := List.length_pos_of_ne_nil hx
  unfold mlaCall Causal.call attentionWithHeads prepare
  rw [mlaCausal_writes, project_eq]
  by_cases hcount : debug = true ∧ hr.count = 0
  · have hnone : ∀ kv' : KvCache α S,
        mapFrom ((mlaCausal m debug cfg l layer core hr).out kv') pos x = none := fun kv' =>
      Option.eq_none_iff_forall_ne_some.mpr fun ys hys =>
        ((outs_eq_some.mp hys).1 0 hpos).2.1.1 hcount
    simp only [if_pos hcount, hnone, Option.map_none, Option.bind_fun_none]
  rw [if_neg hcount]
  by_cases hrows : ∀ row ∈ x, row.length = asUsize cfg.hidden
  · by_cases hturns : TurnsQueries cfg x
    swap
    · -- a head that does not fit the snapshot; nor does the rotary key that is written
      have hunwritten : writeRows m cfg l layer pos (x.map l.kvA.dot) kv = none :=
        Option.eq_none_iff_forall_ne_some.mpr fun kv' hwritten => hturns <|
          ((writeRows_fits hwritten).imp_left List.map_eq_nil_iff.mp).imp_right .inr
      simp only [if_neg fun h : _ ∧ _ => hturns h.2, hunwritten, Option.bind_eq_bind,
        Option.bind_none, Option.map_none]
    rw [if_pos ⟨hrows, hturns⟩]
    simp only [Option.bind_eq_bind, Option.bind_some]
    cases hwritten : writeRows m cfg l layer pos (x.map l.kvA.dot) kv with
    | none => rfl
    | some kv' =>
      have hframe := writeRows_frame hwritten
      have hroom := hframe.room (by rw [List.length_map]; omega)
      rw [List.length_map] at hroom
      have hkv' : Shaped (asUsize cfg.kvLora) kv' := by
        refine writeRows_shaped hkv (fun row hrow => ?_) hwritten
        obtain ⟨row', _, rfl⟩ := List.mem_map.mp hrow
        rw [l.kvA.dot_length, l.kvA_o]
      have hstart : kv'.kvStart layer = kv.kvStart layer := by rw [hframe.kvStart]
      have hmax : pos + x.length ≤ kv'.maxT := by
        rw [hframe.maxT]
        exact hroom
      simp only [Option.bind_some, Option.isSome_none, indexerSelect_none hstart hsel,
        Option.or_none]
      rw [← core_finish_eq hkv' hrows hx hmax hcount]
      cases runCore m debug cfg l layer kv'
          (x.mapIdx fun s row => queryOf m cfg l (pos + s) row) pos (kv'.kvStart layer) core none
          hr with
      | none => rfl
      | some ctx =>
        rw [Option.bind_some, Option.bind_some]
        cases finish m cfg l x ctx <;> rfl
  · have hnone : ∀ kv' : KvCache α S,
        mapFrom ((mlaCausal m debug cfg l layer core hr).out kv') pos x = none := fun kv' =>
      Option.eq_none_iff_forall_ne_some.mpr fun ys hys => hrows fun row hrow => by
        obtain ⟨s, hs, rfl⟩ := List.mem_iff_getElem.mp hrow
        exact ((outs_eq_some.mp hys).1 s hs).1
    simp only [if_neg fun h : _ ∧ _ => hrows h.1, hnone, Option.map_none, Option.bind_fun_none]
    rfl

/-- What a run over tokens still to come relies on: latents of the cache's width, and no
selection. -/
def Dense (env : DsaEnv) (cfg : StackConfig α) (l : HeadWeights cfg) (layer : Nat)
    (st : KvCache α S × Nat) (rest : List (List α)) : Prop :=
  Shaped (asUsize cfg.kvLora) st.1 ∧ NoSelection env cfg l layer st.1 st.2 rest.length

/-- **Latent attention may be cut into calls anywhere.** -/
theorem mla_splits :
    Splits (mlaCall (S := S) m env debug cfg l layer core hr) (Dense env cfg l layer) := by
  refine Splits.of_eq (Causal.splits (c := mlaCausal m debug cfg l layer core hr)) ?_ ?_
  · intro st x y out st' ⟨hkv, hsel⟩ hx hcall
    obtain ⟨hwritten, _, hpos⟩ := Causal.call_eq_some.mp hcall
    rw [mlaCausal_writes] at hwritten
    have hlen := List.length_pos_of_ne_nil hx
    refine ⟨writeRows_shaped hkv (fun row hrow => ?_) hwritten, ?_⟩
    · obtain ⟨row', _, rfl⟩ := List.mem_map.mp hrow
      rw [l.kvA.dot_length, l.kvA_o]
    · -- the next call begins past position 0, where no selection is computed
      have hne : st'.2 ≠ 0 := by omega
      exact Or.inr (Or.inr (Or.inl hne))
  · intro st x y ⟨hkv, hsel⟩ hx
    refine mlaCall_eq hkv ?_ hx
    rw [List.length_append] at hsel
    unfold NoSelection at hsel ⊢
    have hshort : ∀ n, st.2 + (x.length + y.length) ≤ n → st.2 + x.length ≤ n := fun n h => by omega
    have hless : ∀ n, st.2 + (x.length + y.length) < n → st.2 + x.length < n := fun n h => by omega
    exact hsel.imp id (Or.imp id (Or.imp id (Or.imp id (Or.imp (hshort _) (Or.imp (hless _) id)))))

end

section

variable {T : Type}

/-- **Attention does not see how a sequence is cut into calls**: without a sparse selection,
the outputs and the cache after calls over its chunks are those of one call over all of it,
for latent attention and for grouped queries. -/
theorem attention_chunks :
    (∀ (m : RowMath α) (env : DsaEnv) (debug : Bool) (cfg : StackConfig α) (l : HeadWeights cfg)
        (layer : Nat) (core : AttnCore) (hr : HeadRange (asUsize cfg.nHeads))
        (st : KvCache α T × Nat) (c : List (List α)) (cs : List (List (List α))),
      Dense env cfg l layer st (c :: cs).flatten → c ≠ [] → (∀ c' ∈ cs, c' ≠ []) →
      (mlaCall m env debug cfg l layer core hr).runChunks st (c :: cs)
        = mlaCall m env debug cfg l layer core hr st (c :: cs).flatten) ∧
    (∀ (m : Gqa.GqaMath α) (m3Sparse : Bool) (cfg : Gqa.GqaConfig α) (l : Gqa.GqaWeights α)
        (layer : Nat) (st : Gqa.GqaCache α × Nat) (c : List (List α))
        (cs : List (List (List α))),
      Gqa.NoBlocks m3Sparse cfg l st.2 (c :: cs).flatten.length → c ≠ [] →
      (∀ c' ∈ cs, c' ≠ []) →
      (Gqa.gqaCall m m3Sparse cfg l layer).runChunks st (c :: cs)
        = Gqa.gqaCall m m3Sparse cfg l layer st (c :: cs).flatten) := by
  constructor
  · intro m env debug cfg l layer core hr st c cs hdense hc hcs
    exact mla_splits.runChunks_eq hdense hc hcs
  · intro m m3Sparse cfg l layer st c cs hsel hc hcs
    exact Gqa.gqa_splits.runChunks_eq hsel hc hcs

end

/-- Three tokens, cut after the second. -/
theorem attention_chunks_three :
    (mlaCall evenMath ⟨true, 0⟩ true twoHeads (onesWeights twoHeads) 0 .absorb
        (HeadRange.full _)).runChunks (zeroCache, 0) [[[1], [2]], [[3]]]
      = mlaCall evenMath ⟨true, 0⟩ true twoHeads (onesWeights twoHeads) 0 .absorb
          (HeadRange.full _) (zeroCache, 0) [[1], [2], [3]] ∧
    (Gqa.gqaCall Gqa.evenGqaMath false Gqa.twoQueries Gqa.onesGqa 0).runChunks (Gqa.zeroKv, 0)
        [[[1], [2]], [[3]]]
      = Gqa.gqaCall Gqa.evenGqaMath false Gqa.twoQueries Gqa.onesGqa 0 (Gqa.zeroKv, 0)
          [[1], [2], [3]] := by
  have hcut : ∀ c' ∈ [[[(3 : ℚ)]]], c' ≠ [] := by simp
  obtain ⟨hmla, hgqa⟩ := attention_chunks (α := ℚ) (T := Unit)
  exact ⟨hmla _ _ _ _ _ _ _ _ _ [[1], [2]] [[[3]]] ⟨zeroCache_shaped, Or.inl rfl⟩ (by simp) hcut,
    hgqa _ _ _ _ _ _ [[1], [2]] [[[3]]] (Or.inl rfl) (by simp) hcut⟩

end Colibri.Attention.Heads
