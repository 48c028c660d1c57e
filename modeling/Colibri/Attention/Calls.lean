import Colibri.Attention.Heads

/-!
# An attention call, token by token

What the steps of `attention_with_heads` do to the rows of a chunk. Each of them takes a token at a
time, so a call is described row by row:

* `project_eq`: the projections of the queries. A token of another width is a panic.
* `writeRows_rows`: what a chunk leaves in the cache, for each token what is kept of it. The rows of
  other positions stay as they were (`Frame`, `writeRows_frame`).
* `finish_eq`: the output gate and the output projection.
* `attention_eq_some` puts them together: what a call returns is, of every token, the output from
  the context of its keys over the cache that holds the chunk.

`Prepared` is everything a call has before its core runs: the queries, the cache with the rows of
the chunk in it, and the selection. The lemmas on it say that the rows before the chunk are kept and
that the widths stay what they were.
-/

namespace Colibri.Attention.Heads

open Colibri.Moe Colibri.Cluster Colibri.Blocks Colibri.Vectors

variable {α S : Type} [Field α] [LinearOrder α]

section

omit [Field α] [LinearOrder α]

theorem matmulRows_eq_some {o : Nat} {x out : List (List α)} {w : QTensor α} :
    matmulRows o x w = some out ↔
      (∀ row ∈ x, row.length = w.i) ∧ (x ≠ [] → o = w.o) ∧ out = x.map w.dot := by
  unfold matmulRows
  split
  next h =>
    rw [Option.some.injEq]
    exact ⟨fun he => ⟨h.1, h.2, he.symm⟩, fun he => he.2.2.symm⟩
  next h => exact iff_of_false (fun he => by cases he) fun he => h ⟨he.1, he.2.1⟩

/-! ## The rows written -/

variable {m : RowMath α} {cfg : StackConfig α} {l : HeadWeights cfg} {layer : Nat}

/-- What writing the rows of some positions leaves alone. -/
structure Frame (layer posBase n : Nat) (kv kv' : KvCache α S) : Prop where
  maxT : kv'.maxT = kv.maxT
  kvStart : kv'.kvStart = kv.kvStart
  latent : ∀ p < posBase, kv'.latent layer p = kv.latent layer p
  kRot : ∀ p < posBase, kv'.kRot layer p = kv.kRot layer p
  room : n ≠ 0 → posBase + n ≤ kv.maxT

end

section

omit [LinearOrder α]

variable {m : RowMath α} {cfg : StackConfig α} {l : HeadWeights cfg} {layer : Nat}

/-- The latent and the rotary key kept of a token. -/
def keptRows (m : RowMath α) (cfg : StackConfig α) (l : HeadWeights cfg) (pos : Nat)
    (row : List α) : List α × List α :=
  let rot := (row.drop (asUsize cfg.kvLora)).take (asUsize cfg.qkRope)
  (m.rmsnorm (row.take (asUsize cfg.kvLora)) l.kvALn cfg.eps,
    if cfg.mlaNope then rot else m.ropeInterleave rot pos (asUsize cfg.qkRope) cfg.theta)

variable {row : List α} {kv kv' : KvCache α S} {posBase : Nat} {comp : List (List α)}

variable {pos : Nat}

/-- A row is written where there is room for it, and for the snapshot of its rotary key. -/
theorem writeRow_eq :
    kv.writeRow m cfg l.toMlaWeights layer pos row =
      if RopeFits cfg ∧ pos < kv.maxT then
        some { kv with
          latent := Function.update kv.latent layer
            (Function.update (kv.latent layer) pos (keptRows m cfg l pos row).1)
          kRot := Function.update kv.kRot layer
            (Function.update (kv.kRot layer) pos (keptRows m cfg l pos row).2) }
      else none := by
  unfold KvCache.writeRow RopeFits keptRows ropeRow
  by_cases hnope : cfg.mlaNope = true
  · simp only [hnope, if_true, true_or, true_and, Option.bind_eq_bind, Option.bind_some]
  · by_cases hfit : asUsize cfg.qkRope ≤ ropeScratch
    · simp only [hnope, hfit, if_true, Bool.false_eq_true, if_false, or_true, true_and,
        Option.bind_eq_bind, Option.bind_some]
    · simp only [hnope, hfit, Bool.false_eq_true, if_false, or_self, false_and,
        Option.bind_eq_bind, Option.bind_none]

theorem writeRow_frame
    (h : kv.writeRow m cfg l.toMlaWeights layer pos row = some kv') :
    Frame layer pos 1 kv kv' := by
  rw [writeRow_eq] at h
  split at h
  next hpos =>
    cases h
    refine ⟨rfl, rfl, fun p hp => ?_, fun p hp => ?_, fun _ => hpos.2⟩
    · dsimp only
      rw [Function.update_self, Function.update_of_ne (Nat.ne_of_lt hp)]
    · dsimp only
      rw [Function.update_self, Function.update_of_ne (Nat.ne_of_lt hp)]
  · cases h

/-- A row written is as wide as the others. -/
theorem writeRow_shaped
    (hkv : Shaped (asUsize cfg.kvLora) kv)
    (hrow : row.length = asUsize cfg.kvLora + asUsize cfg.qkRope)
    (h : kv.writeRow m cfg l.toMlaWeights layer pos row = some kv') :
    Shaped (asUsize cfg.kvLora) kv' := by
  rw [writeRow_eq] at h
  split at h
  · cases h
    intro layer' p
    dsimp only
    by_cases hl : layer' = layer
    · subst hl
      rw [Function.update_self]
      by_cases hp : p = pos
      · subst hp
        rw [Function.update_self, keptRows, m.rmsnorm_length, List.length_take, hrow]
        omega
      · rw [Function.update_of_ne hp]
        exact hkv layer' p
    · rw [Function.update_of_ne hl]
      exact hkv layer' p
  · cases h

/-- Rows are written in order: the first stretch, then the second. -/
theorem writeRows_append {x y : List (List α)} :
    writeRows m cfg l layer posBase (x ++ y) kv
      = (writeRows m cfg l layer posBase x kv).bind
          (writeRows m cfg l layer (posBase + x.length) y) := by
  unfold writeRows
  rw [List.zipIdx_append, List.foldlM_append, Option.bind_eq_bind]
  congr 1
  funext kv'
  rw [List.zipIdx_eq_map_add, List.foldlM_map]
  simp only [Nat.add_assoc, Nat.zero_add]

/-- A chunk written changes no row but its own. -/
theorem writeRows_frame
    (h : writeRows m cfg l layer posBase comp kv = some kv') :
    Frame layer posBase comp.length kv kv' := by
  induction comp generalizing posBase kv with
  | nil =>
    cases h
    exact ⟨rfl, rfl, fun _ _ => rfl, fun _ _ => rfl, fun h0 => absurd rfl h0⟩
  | cons row rest ih =>
    rw [← List.singleton_append, writeRows_append] at h
    obtain ⟨kv₁, hone, hrest⟩ := Option.bind_eq_some_iff.mp h
    have hone' : kv.writeRow m cfg l.toMlaWeights layer posBase row = some kv₁ := by
      simpa [writeRows] using hone
    have hfirst := writeRow_frame hone'
    have hnext := ih hrest
    refine ⟨hnext.maxT.trans hfirst.maxT, hnext.kvStart.trans hfirst.kvStart, fun p hp => ?_,
      fun p hp => ?_, fun _ => ?_⟩
    · rw [hnext.latent p (by rw [List.length_singleton]; omega), hfirst.latent p hp]
    · rw [hnext.kRot p (by rw [List.length_singleton]; omega), hfirst.kRot p hp]
    · have hroom := hfirst.room Nat.one_ne_zero
      rw [List.length_cons]
      by_cases h0 : rest.length = 0
      · omega
      · have := hnext.room h0
        rw [hfirst.maxT, List.length_singleton] at this
        omega

theorem writeRows_shaped
    (hkv : Shaped (asUsize cfg.kvLora) kv)
    (hcomp : ∀ row ∈ comp, row.length = asUsize cfg.kvLora + asUsize cfg.qkRope)
    (h : writeRows m cfg l layer posBase comp kv = some kv') :
    Shaped (asUsize cfg.kvLora) kv' := by
  induction comp generalizing posBase kv with
  | nil =>
    cases h
    exact hkv
  | cons row rest ih =>
    rw [← List.singleton_append, writeRows_append] at h
    obtain ⟨kv₁, hone, hrest⟩ := Option.bind_eq_some_iff.mp h
    have hone' : kv.writeRow m cfg l.toMlaWeights layer posBase row = some kv₁ := by
      simpa [writeRows] using hone
    exact ih (writeRow_shaped hkv (hcomp row (List.mem_cons_self ..)) hone')
      (fun r hr => hcomp r (List.mem_cons_of_mem _ hr)) hrest

/-- **What a chunk leaves in the cache**: of each token, what is kept of it. -/
theorem writeRows_rows
    (h : writeRows m cfg l layer posBase comp kv = some kv') {s : Nat} (hs : s < comp.length) :
    (kv'.latent layer (posBase + s), kv'.kRot layer (posBase + s))
      = keptRows m cfg l (posBase + s) comp[s] := by
  induction comp generalizing posBase kv s with
  | nil => exact absurd hs (Nat.not_lt_zero s)
  | cons row rest ih =>
    rw [← List.singleton_append, writeRows_append] at h
    obtain ⟨kv₁, hone, hrest⟩ := Option.bind_eq_some_iff.mp h
    cases s with
    | succ s =>
      have := ih hrest (s := s) (by simpa using hs)
      rw [List.length_singleton, Nat.add_assoc, Nat.add_comm 1 s] at this
      exact this
    | zero =>
      have hkeep := writeRows_frame hrest
      rw [Nat.add_zero, hkeep.latent posBase (by rw [List.length_singleton]; omega),
        hkeep.kRot posBase (by rw [List.length_singleton]; omega)]
      have hone' : kv.writeRow m cfg l.toMlaWeights layer posBase row = some kv₁ := by
        simpa [writeRows] using hone
      rw [writeRow_eq] at hone'
      split at hone'
      · cases hone'
        simp
      · cases hone'

/-- A chunk that is written is empty, or its rows fit the snapshot. -/
theorem writeRows_fits
    (h : writeRows m cfg l layer posBase comp kv = some kv') : comp = [] ∨ RopeFits cfg := by
  cases comp with
  | nil => exact .inl rfl
  | cons row rest =>
    rw [← List.singleton_append, writeRows_append] at h
    obtain ⟨kv₁, hone, -⟩ := Option.bind_eq_some_iff.mp h
    have hone' : kv.writeRow m cfg l.toMlaWeights layer posBase row = some kv₁ := by
      simpa [writeRows] using hone
    rw [writeRow_eq] at hone'
    split at hone'
    next hfits => exact .inr hfits.1
    next => cases hone'

/-- A chunk for which there is room is written. -/
theorem writeRows_isSome
    (hfits : comp = [] ∨ RopeFits cfg) (h : posBase + comp.length ≤ kv.maxT) :
    ∃ kv', writeRows m cfg l layer posBase comp kv = some kv' := by
  induction comp generalizing posBase kv with
  | nil => exact ⟨kv, rfl⟩
  | cons row rest ih =>
    rw [List.length_cons] at h
    have hpos : posBase < kv.maxT := by omega
    have hfits : RopeFits cfg := hfits.resolve_left (List.cons_ne_nil _ _)
    obtain ⟨kv₁, hone⟩ :
        ∃ kv₁, kv.writeRow m cfg l.toMlaWeights layer posBase row = some kv₁ := by
      rw [writeRow_eq]
      exact ⟨_, if_pos ⟨hfits, hpos⟩⟩
    have hframe := writeRow_frame hone
    have hroom : posBase + 1 + rest.length ≤ kv₁.maxT := by
      rw [hframe.maxT]
      omega
    obtain ⟨kv', hrest⟩ := ih (.inr hfits) hroom
    refine ⟨kv', ?_⟩
    rw [← List.singleton_append, writeRows_append]
    have hone' : writeRows m cfg l layer posBase [row] kv = some kv₁ := by
      simpa [writeRows] using hone
    rw [hone']
    exact hrest

/-! ## Projections and output -/

/-- The low-rank query of a token. -/
def lowQuery (m : RowMath α) (cfg : StackConfig α) (l : HeadWeights cfg) (row : List α) :
    List α :=
  m.rmsnorm (l.qA.dot row) l.qALn cfg.eps

/-- What `ropeHeads` makes of a query whose heads fit the snapshot. -/
def turnHeads (m : RowMath α) (cfg : StackConfig α) (row : List α) (pos : Nat) : List α :=
  let nope := asUsize cfg.qkNope
  let r := asUsize cfg.qkRope
  (List.range (asUsize cfg.nHeads)).flatMap fun hh =>
    let head := rowOf (asUsize cfg.qkHead) row hh
    head.take nope ++ m.ropeInterleave ((head.drop nope).take r) pos r cfg.theta
      ++ head.drop (nope + r)

omit [Field α] in
/-- The rotation of the heads of a query, and when it panics: a rotary part too long for the
snapshot. -/
theorem ropeHeads_eq : ropeHeads m cfg row pos =
    if asUsize cfg.nHeads = 0 ∨ asUsize cfg.qkRope ≤ ropeScratch then
      some (turnHeads m cfg row pos)
    else none := by
  unfold ropeHeads ropeRow turnHeads
  dsimp only
  by_cases hfit : asUsize cfg.qkRope ≤ ropeScratch
  · rw [if_pos (.inr hfit)]
    simp only [if_pos hfit, Option.map_some]
    rw [mapM_eq_map fun _ _ => rfl, Option.map_some, List.flatMap_def]
  · by_cases hzero : asUsize cfg.nHeads = 0
    · simp [hzero]
    · rw [if_neg (not_or.mpr ⟨hzero, hfit⟩),
        mapM_eq_none (List.mem_range.mpr (Nat.pos_of_ne_zero hzero)) (by rw [if_neg hfit]; rfl)]
      rfl

/-- The query of a token. -/
def queryOf (m : RowMath α) (cfg : StackConfig α) (l : HeadWeights cfg) (pos : Nat)
    (row : List α) : List α :=
  let q := l.qB.dot (lowQuery m cfg l row)
  if cfg.mlaNope then q else turnHeads m cfg q pos

/-- The queries of a chunk that is turned without a panic: it is empty, there is no head, or
the heads fit the snapshot. -/
def TurnsQueries (cfg : StackConfig α) (x : List (List α)) : Prop :=
  x = [] ∨ asUsize cfg.nHeads = 0 ∨ RopeFits cfg

instance (cfg : StackConfig α) (x : List (List α)) : Decidable (TurnsQueries cfg x) :=
  inferInstanceAs (Decidable (_ ∨ _ ∨ _))

/-- The queries of a chunk, each rotated for its own position. -/
theorem ropeQueries_eq {x : List (List α)} :
    ropeQueries m cfg (x.map fun row => l.qB.dot (lowQuery m cfg l row)) posBase =
      if TurnsQueries cfg x then some (x.mapIdx fun s row => queryOf m cfg l (posBase + s) row)
      else none := by
  unfold ropeQueries
  by_cases hnope : cfg.mlaNope = true
  · have hturns : TurnsQueries cfg x := .inr (.inr (.inl hnope))
    rw [if_pos hnope, if_pos hturns]
    exact congrArg some (List.ext_getElem (by simp) fun i _ _ => by simp [queryOf, hnope])
  · rw [if_neg hnope]
    by_cases hturns : TurnsQueries cfg x
    · rw [if_pos hturns,
        mapM_eq_map (g := fun p => turnHeads m cfg p.1 (posBase + p.2)) fun p hp => ?_]
      · refine congrArg some (List.ext_getElem (by simp) fun i _ _ => ?_)
        simp [queryOf, hnope]
      · have hne : x ≠ [] := by
          rintro rfl
          cases hp
        have hhead := (hturns.resolve_left hne).imp_right fun h => h.resolve_left hnope
        exact ropeHeads_eq.trans (if_pos hhead)
    · rw [if_neg hturns]
      obtain ⟨hne, hhead⟩ := not_or.mp hturns
      obtain ⟨row, rest, rfl⟩ := List.exists_cons_of_ne_nil hne
      refine mapM_eq_none (a := (l.qB.dot (lowQuery m cfg l row), 0)) (by simp) ?_
      exact ropeHeads_eq.trans (if_neg fun h => hhead (h.imp_right .inr))

/-- **The projections** take a token at a time; a token of another width is a panic, and so
is a head that does not fit the snapshot of the rotation. -/
theorem project_eq {x : List (List α)} :
    project m cfg l x posBase
      = if (∀ row ∈ x, row.length = asUsize cfg.hidden) ∧ TurnsQueries cfg x then
          some (x.map (lowQuery m cfg l), x.mapIdx (fun s row => queryOf m cfg l (posBase + s) row),
            x.map l.kvA.dot)
        else none := by
  by_cases hx : ∀ row ∈ x, row.length = asUsize cfg.hidden
  · have hqA : matmulRows (asUsize cfg.qLora) x l.qA = some (x.map l.qA.dot) :=
      matmulRows_eq_some.mpr ⟨fun row hrow => (hx row hrow).trans l.qA_i.symm,
        fun _ => l.qA_o.symm, rfl⟩
    have hlow : (x.map l.qA.dot).map (fun row => m.rmsnorm row l.qALn cfg.eps)
        = x.map (lowQuery m cfg l) := by
      rw [List.map_map]
      rfl
    have hqB : matmulRows (asUsize cfg.nHeads * asUsize cfg.qkHead) (x.map (lowQuery m cfg l)) l.qB
        = some (x.map fun row => l.qB.dot (lowQuery m cfg l row)) := by
      refine matmulRows_eq_some.mpr ⟨fun row hrow => ?_, fun _ => l.qB_o.symm, ?_⟩
      · obtain ⟨row', _, rfl⟩ := List.mem_map.mp hrow
        show (m.rmsnorm (l.qA.dot row') l.qALn cfg.eps).length = _
        rw [m.rmsnorm_length, l.qA.dot_length, l.qA_o, l.qB_i]
      · rw [List.map_map]
        rfl
    have hkvA : matmulRows (asUsize cfg.kvLora + asUsize cfg.qkRope) x l.kvA
        = some (x.map l.kvA.dot) :=
      matmulRows_eq_some.mpr ⟨fun row hrow => (hx row hrow).trans l.kvA_i.symm,
        fun _ => l.kvA_o.symm, rfl⟩
    simp only [project, hqA, hlow, hqB, hkvA, Option.bind_eq_bind, Option.bind_some,
      ropeQueries_eq]
    by_cases hturns : TurnsQueries cfg x
    · rw [if_pos hturns, if_pos ⟨hx, hturns⟩]
      rfl
    · rw [if_neg hturns, if_neg fun h => hturns h.2]
      rfl
  · rw [if_neg fun h => hx h.1, Option.eq_none_iff_forall_ne_some]
    intro r h
    simp only [project, Option.bind_eq_bind] at h
    obtain ⟨qr, hqr, _⟩ := Option.bind_eq_some_iff.mp h
    exact hx fun row hrow => ((matmulRows_eq_some.mp hqr).1 row hrow).trans l.qA_i

/-- What the output gate makes of a token's context. -/
def gateRow (m : RowMath α) (gate : Option (List α)) (c : List α) : List α :=
  match gate with
  | none => c
  | some gs => List.zipWith (fun c gv => c * m.sigmoid gv) c gs

/-- The output of a token, given its context. -/
def outRow (m : RowMath α) (cfg : StackConfig α) (l : HeadWeights cfg) (row c : List α) :
    List α :=
  l.o.dot (gateRow m (l.attnGate.map (·.dot row)) c)

theorem length_gateRow {c : List α} (hc : c.length = asUsize cfg.nHeads * asUsize cfg.vHead) :
    (gateRow m (l.attnGate.map (·.dot row)) c).length
      = asUsize cfg.nHeads * asUsize cfg.vHead := by
  cases hg : l.attnGate with
  | none => exact hc
  | some g =>
    show (List.zipWith _ c (g.dot row)).length = _
    rw [List.length_zipWith, hc, g.dot_length, l.gate_o g hg, Nat.min_self]

/-- **The output** takes a token at a time. -/
theorem finish_eq {x ctx : List (List α)} (hx : ∀ row ∈ x, row.length = asUsize cfg.hidden)
    (hctx : ∀ c ∈ ctx, c.length = asUsize cfg.nHeads * asUsize cfg.vHead)
    (hlen : ctx.length = x.length) :
    finish m cfg l x ctx = some (List.zipWith (outRow m cfg l) x ctx) := by
  have hgate : gateContext m (asUsize cfg.nHeads * asUsize cfg.vHead) l.attnGate x ctx
      = some (List.zipWith (fun row c => gateRow m (l.attnGate.map (·.dot row)) c) x ctx) := by
    cases hg : l.attnGate with
    | none =>
      show some ctx = some _
      congr 1
      refine List.ext_getElem (by rw [List.length_zipWith, hlen, Nat.min_self]) fun i _ _ => ?_
      rw [List.getElem_zipWith]
      rfl
    | some g =>
      have hgs : matmulRows (asUsize cfg.nHeads * asUsize cfg.vHead) x g = some (x.map g.dot) :=
        matmulRows_eq_some.mpr ⟨fun row hrow => (hx row hrow).trans (l.gate_i g hg).symm,
          fun _ => (l.gate_o g hg).symm, rfl⟩
      simp only [gateContext, hgs, Option.map_some]
      congr 1
      refine List.ext_getElem ?_ fun i _ _ => ?_
      · rw [List.length_zipWith, List.length_zipWith, List.length_map, Nat.min_comm]
      · rw [List.getElem_zipWith, List.getElem_zipWith, List.getElem_map]
        rfl
  simp only [finish, hgate, Option.bind_eq_bind, Option.bind_some]
  refine matmulRows_eq_some.mpr ⟨fun row hrow => ?_, fun _ => ?_, ?_⟩
  · obtain ⟨i, hi, rfl⟩ := List.mem_iff_getElem.mp hrow
    rw [List.getElem_zipWith, length_gateRow (hctx _ (List.getElem_mem _)), l.o_eq]
    exact l.o_i.symm
  · rw [l.o_eq]
    exact l.o_o.symm
  · rw [List.map_zipWith]
    rfl

end

/-! ## The whole call -/

section

variable {m : RowMath α} {env : DsaEnv} {debug : Bool} {cfg : StackConfig α}
  {l : HeadWeights cfg} {layer : Nat} {kv kv' : KvCache α S} {x q : List (List α)}
  {posBase : Nat} {sel computed : Option (List (List Nat))}

/-- What the part before the core has done where it returns. -/
structure Prepared (m : RowMath α) (env : DsaEnv) (cfg : StackConfig α) (l : HeadWeights cfg)
    (layer : Nat) (kv kv' : KvCache α S) (x q : List (List α)) (posBase : Nat)
    (sel computed : Option (List (List Nat))) : Prop where
  rows : ∀ row ∈ x, row.length = asUsize cfg.hidden
  queries : q = x.mapIdx fun s row => queryOf m cfg l (posBase + s) row
  written : writeRows m cfg l layer posBase (x.map l.kvA.dot) kv = some kv'
  indexed : indexerSelect m env cfg l.toMlaWeights layer x (x.map (lowQuery m cfg l)) posBase
    (kv'.kvStart layer) sel.isSome = some computed

theorem Prepared.fits (h : Prepared m env cfg l layer kv kv' x q posBase sel computed) :
    x = [] ∨ RopeFits cfg :=
  (writeRows_fits h.written).imp_left List.map_eq_nil_iff.mp

theorem prepare_eq_some :
    prepare m env cfg l layer kv x posBase sel = some (q, kv', computed) ↔
      Prepared m env cfg l layer kv kv' x q posBase sel computed := by
  unfold prepare
  rw [project_eq]
  split
  next hx =>
    simp only [Option.bind_eq_bind, Option.bind_some, Option.bind_eq_some_iff, Option.some.injEq,
      Prod.mk.injEq]
    constructor
    · rintro ⟨kv₁, hw, computed₁, hsel, rfl, rfl, rfl⟩
      exact ⟨hx.1, rfl, hw, hsel⟩
    · rintro ⟨_, hq, hw, hsel⟩
      exact ⟨kv', hw, computed, hsel, hq.symm, rfl, rfl⟩
  next hx =>
    refine iff_of_false (fun h => by cases h) fun h => hx ⟨h.rows, ?_⟩
    -- what is written has been turned
    exact h.fits.imp_right .inr

theorem Prepared.length (h : Prepared m env cfg l layer kv kv' x q posBase sel computed) :
    q.length = x.length := by rw [h.queries, List.length_mapIdx]

theorem Prepared.frame (h : Prepared m env cfg l layer kv kv' x q posBase sel computed) :
    Frame layer posBase x.length kv kv' := by
  have := writeRows_frame h.written
  rwa [List.length_map] at this

theorem Prepared.shaped (h : Prepared m env cfg l layer kv kv' x q posBase sel computed)
    (hkv : Shaped (asUsize cfg.kvLora) kv) : Shaped (asUsize cfg.kvLora) kv' := by
  refine writeRows_shaped hkv (fun row hrow => ?_) h.written
  obtain ⟨row', _, rfl⟩ := List.mem_map.mp hrow
  rw [l.kvA.dot_length, l.kvA_o]

/-- The keys of every query of a chunk. -/
def KeysAre (cfg : StackConfig α) (kv' : KvCache α S) (layer posBase n : Nat)
    (sel : Option (List (List Nat))) (hr : HeadRange (asUsize cfg.nHeads))
    (ks : Nat → List Nat) : Prop :=
  ∀ s < n, keysOf sel hr.count s posBase (kv'.kvStart layer) (posBase + n) = some (ks s)

/-- The context of every query of a chunk, given its keys. -/
def contexts (m : RowMath α) (cfg : StackConfig α) (l : HeadWeights cfg) (layer : Nat)
    (kv' : KvCache α S) (hr : HeadRange (asUsize cfg.nHeads)) (q : List (List α))
    (ks : Nat → List Nat) : List (List α) :=
  q.mapIdx fun s qrow => queryContext m cfg l layer kv' (kv'.kvStart layer) hr qrow (ks s)

variable {hr : HeadRange (asUsize cfg.nHeads)}

omit [LinearOrder α] in
theorem length_queryContext {st0 : Nat} {qrow : List α}
    {jjs : List Nat} : (queryContext m cfg l layer kv st0 hr qrow jjs).length
      = asUsize cfg.nHeads * asUsize cfg.vHead := by
  refine length_blocks fun hh _ => ?_
  split
  · exact length_headContext
  · exact List.length_replicate

omit [LinearOrder α] in
/-- Over caches that agree on the keys, a query has the same context; with no head to
compute, over any caches. -/
theorem queryContext_congr {T : Type} {layer' : Nat} {other : KvCache α T} {st0 : Nat}
    {qrow : List α} {jjs : List Nat}
    (h : hr.count ≠ 0 → ∀ jj ∈ jjs,
      kv.latent layer (st0 + jj) = other.latent layer' (st0 + jj) ∧
      kv.kRot layer (st0 + jj) = other.kRot layer' (st0 + jj)) :
    queryContext m cfg l layer kv st0 hr qrow jjs
      = queryContext m cfg l layer' other st0 hr qrow jjs := by
  unfold queryContext blocks
  refine congrArg List.flatten (List.map_congr_left fun hh _ => ?_)
  split
  next hcov =>
    have hcount : hr.count ≠ 0 := by
      have := hcov.1
      have := hcov.2
      omega
    exact headContext_congr (fun jj hjj => by rw [(h hcount jj hjj).1])
      fun jj hjj => (h hcount jj hjj).2
  · rfl

/-- **What a call returns**, reconstructing: the output of every token, from the context of
its keys over the cache that holds the chunk. -/
theorem attention_eq_some (hkv : Shaped (asUsize cfg.kvLora) kv)
    {out : List (List α)} :
    attentionWithHeads m env debug cfg l layer kv x posBase .reconstruct sel hr
        = some (out, kv', computed) ↔
      ¬ (debug ∧ hr.count = 0) ∧ ∃ q ks,
        Prepared m env cfg l layer kv kv' x q posBase sel computed ∧
        kv'.kvStart layer ≤ posBase + x.length ∧ posBase + x.length ≤ kv'.maxT ∧
        KeysAre cfg kv' layer posBase x.length (sel.or computed) hr ks ∧
        out = List.zipWith (outRow m cfg l) x (contexts m cfg l layer kv' hr q ks) := by
  -- on what has been prepared, the core and the last product return
  have hcore : ∀ q ks, Prepared m env cfg l layer kv kv' x q posBase sel computed →
      kv'.kvStart layer ≤ posBase + x.length → posBase + x.length ≤ kv'.maxT →
      KeysAre cfg kv' layer posBase x.length (sel.or computed) hr ks →
      reconstructCore m cfg l layer kv' q posBase (kv'.kvStart layer) (sel.or computed) hr
        = some (contexts m cfg l layer kv' hr q ks) := by
    intro q ks hp hst hmax hks
    rw [← hp.length] at hst hmax hks
    rw [reconstructCore_eq (hp.shaped hkv) hst hmax, contexts, List.mapIdx_eq_zipIdx_map]
    refine mapM_eq_map fun (qrow, s) hmem => ?_
    have hs := (List.mem_zipIdx hmem).2.1
    show Option.map _ _ = some _
    rw [hks s (by omega)]
    rfl
  have hfinish : ∀ q ks, Prepared m env cfg l layer kv kv' x q posBase sel computed →
      finish m cfg l x (contexts m cfg l layer kv' hr q ks)
        = some (List.zipWith (outRow m cfg l) x (contexts m cfg l layer kv' hr q ks)) := by
    intro q ks hp
    refine finish_eq hp.rows (fun c hc => ?_) ?_
    · obtain ⟨i, hi, rfl⟩ := List.mem_iff_getElem.mp hc
      simp only [contexts, List.getElem_mapIdx]
      exact length_queryContext
    · rw [contexts, List.length_mapIdx, hp.length]
  unfold attentionWithHeads
  split
  next hdebug => exact iff_of_false (fun h => by cases h) fun h => h.1 hdebug
  next hdebug =>
    simp only [Option.bind_eq_bind, Option.bind_eq_some_iff, Prod.exists, Option.some.injEq,
      Prod.mk.injEq, runCore]
    constructor
    · rintro ⟨q, kv₁, computed₁, hprep, ctx, hctx, out₁, hout, rfl, rfl, rfl⟩
      have hp := prepare_eq_some.mp hprep
      have hguard : ¬ (posBase + q.length < kv₁.kvStart layer ∨ kv₁.maxT < posBase + q.length) := by
        intro hbad
        simp only [reconstructCore, if_pos hbad] at hctx
        cases hctx
      rw [hp.length] at hguard
      have hst : kv₁.kvStart layer ≤ posBase + x.length := by omega
      have hmax : posBase + x.length ≤ kv₁.maxT := by omega
      have hks : KeysAre cfg kv₁ layer posBase x.length (sel.or computed₁) hr fun s =>
          (keysOf (sel.or computed₁) hr.count s posBase (kv₁.kvStart layer)
            (posBase + x.length)).getD [] := by
        intro s hs
        rw [reconstructCore_eq (hp.shaped hkv) (by rw [hp.length]; exact hst)
          (by rw [hp.length]; exact hmax), hp.length] at hctx
        have hs' : s < q.length := by rw [hp.length]; exact hs
        obtain ⟨c, hc⟩ := exists_of_mapM hctx (a := (q[s], s))
          (List.mk_mem_zipIdx_iff_getElem?.mpr (List.getElem?_eq_getElem hs'))
        obtain ⟨js, hjs, _⟩ := Option.map_eq_some_iff.mp hc
        simp only [hjs, Option.getD_some]
      rw [hcore q _ hp hst hmax hks, Option.some.injEq] at hctx
      subst hctx
      rw [hfinish q _ hp, Option.some.injEq] at hout
      exact ⟨hdebug, q, _, hp, hst, hmax, hks, hout.symm⟩
    · rintro ⟨_, q, ks, hp, hst, hmax, hks, rfl⟩
      exact ⟨q, kv', computed, prepare_eq_some.mpr hp, _, hcore q ks hp hst hmax hks, _,
        hfinish q ks hp, rfl, rfl, rfl⟩

end

end Colibri.Attention.Heads
