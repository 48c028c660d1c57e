import Colibri.Lib.DeltaRule
import Colibri.Mixer.Mamba2
import Mathlib.Algebra.BigOperators.Fin

/-!
# The KDA mixer

`kda_mixer`: convolutions of queries, keys and values, a norm of each head, a decay for
every key entry, and the delta-rule recurrence over an association matrix for every head.
The three convolutions keep their last rows in one buffer, `[stream][token][channel]`.

The recurrence skips zero entries and is the plain delta rule all the same
(`kdaRecurrent_eq`); the mixer is a chain of stages, so a sequence may be cut into calls
anywhere (`kda_chunks`).

`takeCarries` and `storeCarries` are the way between the buffer and the three histories
(`takeCarries_store`), and `matrixOf` the way from the flat state to the matrix of a head.
`kdaMixer_eq` takes the mixer apart into stages, and `stage_kda` puts their rules together.
-/

namespace Colibri.Mixer

open Colibri.Attention Colibri.Blocks Colibri.Chunks Colibri.Moe Colibri.Vectors

variable {α : Type}

/-- The functions of `kda_mixer`. -/
structure KdaMath (α : Type) extends MixerMath α where
  powf : α → α → α

/-- The configuration `kda_mixer` reads. -/
structure KdaConfig (α : Type) where
  hidden : Int
  eps : α
  kdaNHeads : Int
  kdaHeadDim : Int
  kdaDConv : Int

/-- The tensors of a KDA layer. -/
structure KdaWeights (α : Type) where
  qProj : QTensor α
  kProj : QTensor α
  vProj : QTensor α
  kdaConvQ : List α
  kdaConvK : List α
  kdaConvV : List α
  kdaFA : QTensor α
  kdaFB : QTensor α
  kdaALog : List α
  kdaDtBias : List α
  kdaBProj : QTensor α
  attnGate : QTensor α
  kdaONorm : List α
  o : QTensor α

namespace KdaConfig

variable (cfg : KdaConfig α)

def h : Nat := asUsize cfg.kdaNHeads
def dk : Nat := asUsize cfg.kdaHeadDim
/-- The projection width. -/
def c : Nat := cfg.h * cfg.dk
/-- The kernel width. -/
def k : Nat := asUsize cfg.kdaDConv
/-- The rows a convolution keeps. -/
def pad : Nat := cfg.k - 1

end KdaConfig

/-! ## The convolution buffer -/

/-- `kda_conv_take`: a buffer that is too short counts as fresh. -/
def kdaConvTake [Zero α] (buf : List α) (c k : Nat) : List α :=
  let need := 3 * (k - 1) * c
  if need ≤ buf.length ∧ 0 < need then buf.take need else List.replicate need 0

def kdaConvStore (buf carries : List α) : List α := carries ++ buf.drop carries.length

variable {buf : List α}

theorem length_kdaConvTake [Zero α] {c k : Nat} :
    (kdaConvTake buf c k).length = 3 * (k - 1) * c := by
  unfold kdaConvTake
  dsimp only
  split
  next h =>
    rw [List.length_take]
    exact Nat.min_eq_left h.1
  next => exact List.length_replicate

theorem length_rowOf {n width r : Nat} (h : buf.length = n * width) (hr : r < n) :
    (rowOf width buf r).length = width := by
  have hle : (r + 1) * width ≤ n * width := Nat.mul_le_mul_right width hr
  rw [Nat.succ_mul] at hle
  rw [rowOf, List.length_take, List.length_drop, h]
  omega

/-- The rows of three streams. -/
abbrev Carries (cfg : KdaConfig α) : Type :=
  History α cfg.pad cfg.c × History α cfg.pad cfg.c × History α cfg.pad cfg.c

section

variable [Zero α] (cfg : KdaConfig α)

theorem carried_lt {pad idx t : Nat} (hidx : idx < 3) (ht : t < pad) : idx * pad + t < 3 * pad := by
  have hle : (idx + 1) * pad ≤ 3 * pad := Nat.mul_le_mul_right pad hidx
  rw [Nat.succ_mul] at hle
  omega

/-- A row of a stream in the buffer. -/
def carriedRow (buf : List α) (idx : Nat) (hidx : idx < 3)
    (t : { t // t ∈ List.range cfg.pad }) : Row α cfg.c :=
  ⟨rowOf cfg.c (kdaConvTake buf cfg.c cfg.k) (idx * cfg.pad + t.1),
    length_rowOf length_kdaConvTake (carried_lt hidx (List.mem_range.mp t.2))⟩

variable {cfg} in
theorem length_carried {idx : Nat} {hidx : idx < 3} :
    ((List.range cfg.pad).attach.map (carriedRow cfg buf idx hidx)).length = cfg.pad := by
  rw [List.length_map, List.length_attach, List.length_range]

/-- The rows of stream `idx` in the buffer. -/
def carried (buf : List α) (idx : Nat) (hidx : idx < 3) : History α cfg.pad cfg.c :=
  ⟨(List.range cfg.pad).attach.map (carriedRow cfg buf idx hidx), length_carried⟩

/-- What the three convolutions are given of the buffer. -/
def takeCarries (buf : List α) : Carries cfg :=
  (carried cfg buf 0 (Nat.succ_pos 2), carried cfg buf 1 (Nat.succ_lt_succ (Nat.succ_pos 1)),
    carried cfg buf 2 (Nat.lt_succ_self 2))

/-- The rows of the three streams, one stream after another. -/
def carriedRows (hs : Carries cfg) : List (List α) :=
  (hs.1.rows ++ (hs.2.1.rows ++ hs.2.2.rows)).map Subtype.val

/-- The carries, laid out as the buffer has them. -/
def flatCarries (hs : Carries cfg) : List α := (carriedRows cfg hs).flatten

/-- `kda_conv_store` of the three carries. -/
def storeCarries (buf : List α) (hs : Carries cfg) : List α :=
  kdaConvStore buf (flatCarries cfg hs)

variable {cfg}

variable {hs : Carries cfg}

omit [Zero α] in
theorem width_carriedRows : ∀ row ∈ carriedRows cfg hs, row.length = cfg.c := by
  intro row hrow
  obtain ⟨r, _, rfl⟩ := List.mem_map.mp hrow
  exact r.2

omit [Zero α] in
theorem length_carriedRows : (carriedRows cfg hs).length = 3 * cfg.pad := by
  simp only [carriedRows, List.length_map, List.length_append, hs.1.rows_length,
    hs.2.1.rows_length, hs.2.2.rows_length]
  omega

omit [Zero α] in
theorem length_flatCarries :
    (flatCarries cfg hs).length = 3 * (cfg.k - 1) * cfg.c := by
  rw [flatCarries, List.length_flatten, List.map_congr_left width_carriedRows, List.map_const',
    List.sum_replicate, length_carriedRows]
  rfl

/-- What is stored is what is taken. -/
theorem kdaConvTake_store :
    kdaConvTake (storeCarries cfg buf hs) cfg.c cfg.k = flatCarries cfg hs := by
  have hlen : (flatCarries cfg hs).length = 3 * (cfg.k - 1) * cfg.c := length_flatCarries
  unfold kdaConvTake storeCarries kdaConvStore
  dsimp only
  split
  · rw [← hlen, List.take_left]
  next h =>
    -- the buffer is long enough, so it is that nothing is needed
    have hzero : 3 * (cfg.k - 1) * cfg.c = 0 := by
      by_contra hne
      refine h ⟨?_, Nat.pos_of_ne_zero hne⟩
      rw [List.length_append, hlen]
      exact Nat.le_add_right _ _
    rw [hzero] at hlen ⊢
    rw [List.eq_nil_of_length_eq_zero hlen]
    rfl

/-- A stream is taken whose rows are at its place in the buffer. -/
theorem carried_store {idx : Nat} {hidx : idx < 3}
    {hist : History α cfg.pad cfg.c}
    (h : ∀ t < cfg.pad, (carriedRows cfg hs)[idx * cfg.pad + t]?
      = (hist.rows.map Subtype.val)[t]?) :
    carried cfg (storeCarries cfg buf hs) idx hidx = hist := by
  refine History.ext (List.ext_getElem ?_ fun t h₁ h₂ => Subtype.ext ?_)
  · rw [carried, length_carried, hist.rows_length]
  · rw [hist.rows_length] at h₂
    have hi : idx * cfg.pad + t < (carriedRows cfg hs).length := by
      rw [length_carriedRows]
      exact carried_lt hidx h₂
    have hrow := rowOf_flatMap (l := carriedRows cfg hs) (g := id) width_carriedRows hi
    rw [List.flatMap_id] at hrow
    have ht : t < (hist.rows.map Subtype.val).length := by
      rw [List.length_map, hist.rows_length]
      exact h₂
    have hsame := h t h₂
    rw [List.getElem?_eq_getElem hi, List.getElem?_eq_getElem ht, Option.some.injEq] at hsame
    simp only [carried, List.getElem_map, List.getElem_attach, List.getElem_range, carriedRow]
    rw [kdaConvTake_store, flatCarries, hrow, id, hsame, List.getElem_map]

theorem takeCarries_store :
    takeCarries cfg (storeCarries cfg buf hs) = hs := by
  obtain ⟨hq, hk, hv⟩ := hs
  have hql : (hq.rows.map Subtype.val).length = cfg.pad := by rw [List.length_map, hq.rows_length]
  have hkl : (hk.rows.map Subtype.val).length = cfg.pad := by rw [List.length_map, hk.rows_length]
  unfold takeCarries
  refine Prod.ext (carried_store fun t ht => ?_) (Prod.ext (carried_store fun t ht => ?_)
    (carried_store fun t ht => ?_)) <;> simp only [carriedRows, List.map_append]
  · rw [List.getElem?_append_left (by omega), Nat.zero_mul, Nat.zero_add]
  · rw [List.getElem?_append_right (by omega), List.getElem?_append_left (by omega), hql]
    congr 1
    omega
  · rw [List.getElem?_append_right (by omega), List.getElem?_append_right (by omega), hql, hkl]
    congr 1
    omega

omit [Zero α] in
theorem store_store {hs' : Carries cfg} :
    storeCarries cfg (storeCarries cfg buf hs) hs' = storeCarries cfg buf hs' := by
  unfold storeCarries kdaConvStore
  have hlen : (flatCarries cfg hs').length = (flatCarries cfg hs).length := by
    rw [length_flatCarries, length_flatCarries]
  rw [hlen, List.drop_left]

end

section

variable [Field α] [DecidableEq α]

/-! ## The recurrence -/

/-- A token for the recurrence; `beta` is raw. -/
structure DeltaToken (α : Type) where
  q : List α
  k : List α
  v : List α
  g : List α
  beta : List α

/-- `for kk in 0..n { if coef(kk) != 0 { acc += coef(kk) * f(kk) } }` -/
def skipSum (n : Nat) (coef f : Nat → α) : α :=
  (List.range n).foldl (fun acc kk => if coef kk ≠ 0 then acc + coef kk * f kk else acc) 0

/-- A head's decayed entry, `[kk, vv]`. -/
def decayed (m : KdaMath α) (cfg : KdaConfig α) (state : List α) (tok : DeltaToken α)
    (hh kk vv : Nat) : α :=
  state.getD (hh * (cfg.dk * cfg.dk) + (kk * cfg.dk + vv)) 0
    * m.exp (tok.g.getD (hh * cfg.dk + kk) 0)

/-- A head's entry after a token. -/
def written (m : KdaMath α) (cfg : KdaConfig α) (state : List α) (tok : DeltaToken α)
    (hh kk vv : Nat) : α :=
  let kh := fun kk => tok.k.getD (hh * cfg.dk + kk) 0
  let kts := skipSum cfg.dk kh fun kk => decayed m cfg state tok hh kk vv
  let b := m.sigmoid (tok.beta.getD hh 0)
  let bk := b * kh kk
  let e := decayed m cfg state tok hh kk vv
  if bk ≠ 0 then e + bk * (tok.v.getD (hh * cfg.dk + vv) 0 - kts) else e

/-- The association matrices after a token. -/
def deltaState (m : KdaMath α) (cfg : KdaConfig α) (state : List α) (tok : DeltaToken α) :
    List α :=
  blocks cfg.h fun hh => blocks cfg.dk fun kk => tab cfg.dk (written m cfg state tok hh kk)

theorem length_deltaState {m : KdaMath α} {cfg : KdaConfig α} {state : List α}
    {tok : DeltaToken α} : (deltaState m cfg state tok).length = cfg.h * (cfg.dk * cfg.dk) :=
  length_blocks fun _ _ => length_blocks fun _ _ => length_tab _ _

/-- What a token reads, from the matrices it has written. -/
def deltaRead (m : KdaMath α) (cfg : KdaConfig α) (state : List α) (tok : DeltaToken α) :
    List α :=
  blocks cfg.h fun hh => tab cfg.dk fun vv =>
    skipSum cfg.dk (fun kk => tok.q.getD (hh * cfg.dk + kk) 0)
      fun kk => written m cfg state tok hh kk vv

/-- A token of `kda_recurrent`. -/
def deltaStep (m : KdaMath α) (cfg : KdaConfig α) (state : Row α (cfg.h * (cfg.dk * cfg.dk)))
    (tok : DeltaToken α) : Option (List α × Row α (cfg.h * (cfg.dk * cfg.dk))) :=
  some (deltaRead m cfg state.1 tok, ⟨deltaState m cfg state.1 tok, length_deltaState⟩)

def kdaRecurrent (m : KdaMath α) (cfg : KdaConfig α) :
    Call (Row α (cfg.h * (cfg.dk * cfg.dk))) (DeltaToken α) (List α) :=
  scan (deltaStep m cfg)

/-! ### The plain delta rule -/

/-- The skipped terms are zeros. -/
theorem skipSum_eq (n : Nat) (coef f : Nat → α) :
    skipSum n coef f = ∑ kk : Fin n, coef kk * f kk := by
  rw [← Finset.sum_range fun kk => coef kk * f kk, skipSum]
  induction n with
  | zero => rfl
  | succ n ih =>
    rw [List.range_succ, List.foldl_append, ih, Finset.sum_range_succ, List.foldl_cons,
      List.foldl_nil]
    by_cases h : coef n = 0
    · rw [if_neg (not_not_intro h), h, zero_mul, add_zero]
    · rw [if_pos h]

/-- A head's association matrix. -/
def matrixOf (dk hh : Nat) (data : List α) : Matrix (Fin dk) (Fin dk) α :=
  fun i j => data.getD (hh * (dk * dk) + (i * dk + j)) 0

/-- A head's part of a row. -/
def headOf (dk hh : Nat) (row : List α) : Fin dk → α := fun i => row.getD (hh * dk + i) 0

/-- A head's part of a token. -/
def deltaOf (m : KdaMath α) (cfg : KdaConfig α) (hh : Nat) (tok : DeltaToken α) :
    Delta.Token (Fin cfg.dk) α where
  decay i := m.exp (headOf cfg.dk hh tok.g i)
  k := headOf cfg.dk hh tok.k
  v := headOf cfg.dk hh tok.v
  rate := m.sigmoid (tok.beta.getD hh 0)
  q := headOf cfg.dk hh tok.q

section

variable {m : KdaMath α} {cfg : KdaConfig α} {state : List α} {tok : DeltaToken α} {hh : Nat}

/-- An entry is written the delta rule's way, a zero step too. -/
theorem written_eq (i j : Fin cfg.dk) : written m cfg state tok hh i j
    = (deltaOf m cfg hh tok).step (matrixOf cfg.dk hh state) i j := by
  rw [Delta.Token.step, Delta.update_apply]
  unfold written
  dsimp only
  rw [skipSum_eq]
  split
  next => rfl
  next h =>
    -- the step is zero, and so is what it would add
    have hzero : (deltaOf m cfg hh tok).rate * (deltaOf m cfg hh tok).k i = 0 :=
      not_not.mp h
    rw [hzero, zero_mul, add_zero]
    rfl

/-- **A step on the flat state is the delta rule's**, head by head. -/
theorem matrixOf_deltaState (h : hh < cfg.h) : matrixOf cfg.dk hh (deltaState m cfg state tok)
    = (deltaOf m cfg hh tok).step (matrixOf cfg.dk hh state) := by
  funext i j
  have hin : i * cfg.dk + j < cfg.dk * cfg.dk := by
    have hle : (i + 1) * cfg.dk ≤ cfg.dk * cfg.dk := Nat.mul_le_mul_right _ i.2
    rw [Nat.succ_mul] at hle
    have hj := j.2
    omega
  have hrow : ∀ kk < cfg.dk, (tab cfg.dk (written m cfg state tok hh kk)).length = cfg.dk :=
    fun kk _ => length_tab _ _
  rw [← written_eq, matrixOf, deltaState, List.getD_eq_getElem?_getD,
    getElem?_blocks (fun _ _ => length_blocks fun _ _ => length_tab _ _) h hin,
    getElem?_blocks hrow i.2 j.2, ← List.getD_eq_getElem?_getD, getD_tab j.2]

/-- What a token reads is read from what it has written. -/
theorem headOf_deltaRead (h : hh < cfg.h) :
    headOf cfg.dk hh (deltaRead m cfg state tok)
      = Delta.read (deltaOf m cfg hh tok).q
          ((deltaOf m cfg hh tok).step (matrixOf cfg.dk hh state)) := by
  funext j
  rw [headOf, deltaRead, List.getD_eq_getElem?_getD, getElem?_blocks (fun _ _ => length_tab _ _) h j.2,
    ← List.getD_eq_getElem?_getD, getD_tab j.2, skipSum_eq, Delta.read_apply]
  refine Finset.sum_congr rfl fun kk _ => ?_
  rw [written_eq]
  rfl

end

/-- The recurrence runs, and is the plain delta rule in every head. -/
theorem kdaRecurrent_eq (m : KdaMath α) (cfg : KdaConfig α)
    (state : Row α (cfg.h * (cfg.dk * cfg.dk))) (toks : List (DeltaToken α)) :
    ∃ outs state', kdaRecurrent m cfg state toks = some (outs, state') ∧
      ∀ hh < cfg.h, (outs.map (headOf cfg.dk hh), matrixOf cfg.dk hh state'.1)
        = Delta.run (toks.map (deltaOf m cfg hh)) (matrixOf cfg.dk hh state.1) := by
  induction toks generalizing state with
  | nil => exact ⟨[], state, rfl, fun _ _ => rfl⟩
  | cons tok toks ih =>
    obtain ⟨outs, state', hrun, heads⟩ :=
      ih ⟨deltaState m cfg state.1 tok, length_deltaState⟩
    rw [kdaRecurrent] at hrun
    refine ⟨deltaRead m cfg state.1 tok :: outs, state', ?_, fun hh hlt => ?_⟩
    · rw [kdaRecurrent, scan, deltaStep, Option.bind_some, hrun, Option.map_some]
    · have hrest := heads hh hlt
      rw [matrixOf_deltaState hlt] at hrest
      simp only [List.map_cons, Delta.run, ← hrest, headOf_deltaRead hlt]

/-! ## The mixer -/

def k3GateLowerBound : α := -5

/-- `kda_gate` of a token. -/
def kdaGate (m : KdaMath α) (cfg : KdaConfig α) (aLog dtBias g : List α) : Option (List α) :=
  if aLog.length = cfg.dk ∧ dtBias.length = cfg.c then
    some (blocks cfg.h fun hh => tab cfg.dk fun i =>
      let j := hh * cfg.dk + i
      k3GateLowerBound * m.sigmoid (m.exp (aLog.getD i 0) * (g.getD j 0 + dtBias.getD j 0)))
  else none

/-- `l2norm_heads` of a token. -/
def l2normHeads (m : KdaMath α) (cfg : KdaConfig α) (eps : α) (x : List α) : List α :=
  blocks cfg.h fun hh =>
    let v := rowOf cfg.dk x hh
    let inv := 1 / (m.sqrt (v.map fun a => a * a).sum + eps)
    v.map (· * inv)

/-- `gated_rmsnorm_sigmoid` of a token. -/
def gatedRmsnormSigmoid (m : KdaMath α) (cfg : KdaConfig α) (weight y gate : List α) :
    Option (List α) :=
  if weight.length = cfg.dk then
    some (blocks cfg.h fun hh =>
      let yr := rowOf cfg.dk y hh
      let inv := 1 / m.sqrt ((yr.map fun v => v * v).sum / cfg.dk + cfg.eps)
      tab cfg.dk fun i =>
        yr.getD i 0 * inv * weight.getD i 0 * m.sigmoid (gate.getD (hh * cfg.dk + i) 0))
  else none

/-- A token's projections: the inputs of the three convolutions; decay, `beta` and gate. -/
abbrev KdaToken (cfg : KdaConfig α) : Type :=
  (Row α cfg.c × Row α cfg.c × Row α cfg.c) × List α × List α × List α

/-- A row of `matmul_qt`, as wide as it was asked for. -/
def projectRow (o : Nat) (w : QTensor α) (row : List α) : Option (Row α o) :=
  if h : row.length = w.i ∧ o = w.o then some ⟨w.dot row, (w.dot_length row).trans h.2.symm⟩
  else none

/-- The projections of a token. -/
def projectToken (m : KdaMath α) (cfg : KdaConfig α) (l : KdaWeights α) (row : List α) :
    Option (KdaToken cfg) := do
  let q ← projectRow cfg.c l.qProj row
  let k ← projectRow cfg.c l.kProj row
  let v ← projectRow cfg.c l.vProj row
  let low ← matmulRow l.kdaFA.o l.kdaFA row
  let g ← matmulRow cfg.c l.kdaFB low
  let g ← kdaGate m cfg l.kdaALog l.kdaDtBias g
  let beta ← matmulRow cfg.h l.kdaBProj row
  let gate ← matmulRow cfg.c l.attnGate row
  some ((q, k, v), g, beta, gate)

/-- The three convolutions, each with its own carry. -/
def convStreams (m : KdaMath α) (cfg : KdaConfig α) (l : KdaWeights α) :
    Call (Carries cfg) (Row α cfg.c × Row α cfg.c × Row α cfg.c)
      (Row α cfg.c × Row α cfg.c × Row α cfg.c) :=
  (convCall m.silu l.kdaConvQ [] cfg.pad cfg.k true).par
    ((convCall m.silu l.kdaConvK [] cfg.pad cfg.k true).par
      (convCall m.silu l.kdaConvV [] cfg.pad cfg.k true))

/-- The convolutions over the buffer of a layer. -/
def convBuffer (m : KdaMath α) (cfg : KdaConfig α) (l : KdaWeights α) :
    Call (List α) (Row α cfg.c × Row α cfg.c × Row α cfg.c)
      (Row α cfg.c × Row α cfg.c × Row α cfg.c) :=
  (convStreams m cfg l).via (takeCarries cfg) (storeCarries cfg)

/-- A convolved token for the recurrence: queries and keys are normed, queries scaled. -/
def deltaToken (m : KdaMath α) (cfg : KdaConfig α) (tok : KdaToken cfg) :
    DeltaToken α × List α :=
  let scale := m.powf cfg.dk (-1 / (2 : ℕ))
  ({ q := (l2normHeads m cfg (1 / 1000000) tok.1.1.1).map (· * scale)
     k := l2normHeads m cfg (1 / 1000000) tok.1.2.1.1
     v := tok.1.2.2.1
     g := tok.2.1
     beta := tok.2.2.1 }, tok.2.2.2)

/-- What a layer keeps between calls: the convolution buffer, of any length, and the
association matrices, `[h, dk, dk]`. -/
abbrev KdaState (cfg : KdaConfig α) : Type := List α × Row α (cfg.h * (cfg.dk * cfg.dk))

/-- `kda_mixer` over the next tokens of a sequence. -/
def kdaMixer (m : KdaMath α) (cfg : KdaConfig α) (l : KdaWeights α) (st : KdaState cfg)
    (x : List (List α)) : Option (List (List α) × KdaState cfg) := do
  -- chunks of no width are a panic
  if cfg.c = 0 then none
  let toks ← x.mapM (projectToken m cfg l)
  let (qkv, conv) ← convBuffer m cfg l st.1 (toks.map Prod.fst)
  let toks := (qkv.zip (toks.map Prod.snd)).map (deltaToken m cfg)
  let (o, state) ← kdaRecurrent m cfg st.2 (toks.map Prod.fst)
  let normed ← (o.zip (toks.map Prod.snd)).mapM fun (o, gate) =>
    gatedRmsnormSigmoid m cfg l.kdaONorm o gate
  let out ← matmulRows (asUsize cfg.hidden) normed l.o
  some (out, conv, state)

/-! ## In stages -/

/-- `kda_mixer` as stages, one behind the other. -/
def kdaStages (m : KdaMath α) (cfg : KdaConfig α) (l : KdaWeights α) :
    Call (KdaState cfg) (List α) (List α) :=
  let conv : Call _ (KdaToken cfg) (KdaToken cfg) := (convBuffer m cfg l).beside
  let delta : Call _ (DeltaToken α × List α) (List α × List α) := (kdaRecurrent m cfg).beside
  ((conv.andThen (delta.comap (deltaToken m cfg))).before (projectToken m cfg l)).after fun og =>
    (gatedRmsnormSigmoid m cfg l.kdaONorm og.1 og.2).bind (matmulRow (asUsize cfg.hidden) l.o)

variable {m : KdaMath α} {cfg : KdaConfig α} {l : KdaWeights α}

theorem kdaMixer_eq : kdaMixer m cfg l
    = if cfg.c = 0 then fun _ _ => none else kdaStages m cfg l := by
  funext st x
  unfold kdaMixer kdaStages Call.after Call.before Call.andThen Call.comap Call.beside
  simp only [matmulRows_eq_mapM, ← mapM_bind, Option.bind_eq_bind]
  by_cases hc : cfg.c = 0
  · simp only [hc, if_true, Option.bind_none]
  · simp only [hc, if_false, Option.map_eq_bind, Option.bind_assoc, Option.bind_some,
      Function.comp_apply]

/-- **The mixer is a stage.** -/
theorem stage_kda : Stage (kdaMixer m cfg l) := by
  rw [kdaMixer_eq]
  split
  · exact Stage.none
  · have hconv : ∀ w, Stage (@convCall α _ cfg.c m.silu w [] cfg.pad cfg.k true) :=
      fun w => stage_conv (Nat.le_refl _) (Nat.sub_le _ _) true
    have hbuffer : Stage (convBuffer m cfg l) :=
      ((hconv _).par ((hconv _).par (hconv _))).via (fun _ _ => takeCarries_store)
        fun _ _ _ => store_store
    have hdelta : Stage (kdaRecurrent m cfg) := stage_scan _
    exact ((hbuffer.beside.andThen (hdelta.beside.comap _)).before _).after _

/-- **The KDA mixer does not see how a sequence is cut into calls, and its recurrence is the
plain delta rule**: the outputs, the convolution buffer and the association matrices after
calls over chunks are those of one call, and in every head the recurrence, zeros skipped,
reads and leaves what the delta rule does. -/
theorem kda_chunks (m : KdaMath α) (cfg : KdaConfig α) (l : KdaWeights α) (st : KdaState cfg)
    {c : List (List α)} {cs : List (List (List α))} (hc : c ≠ []) (hcs : ∀ c' ∈ cs, c' ≠ [])
    (state : Row α (cfg.h * (cfg.dk * cfg.dk))) (toks : List (DeltaToken α)) :
    Call.runChunks (kdaMixer m cfg l) st (c :: cs) = kdaMixer m cfg l st (c :: cs).flatten ∧
      ∃ outs state', kdaRecurrent m cfg state toks = some (outs, state') ∧
        ∀ hh < cfg.h, (outs.map (headOf cfg.dk hh), matrixOf cfg.dk hh state'.1)
          = Delta.run (toks.map (deltaOf m cfg hh)) (matrixOf cfg.dk hh state.1) := by
  constructor
  · exact stage_kda.splits.runChunks_eq trivial hc hcs
  · exact kdaRecurrent_eq m cfg state toks

end

/-- Functions of a scalar that are rational. -/
def plainKda : KdaMath ℚ := ⟨plainMath, fun x _ => x⟩

/-- One head of one dimension, with a kernel of three taps. -/
def oneKda : KdaConfig ℚ := ⟨1, 0, 1, 1, 3⟩

theorem copied_length (x : List ℚ) : [x.getD 0 0].length = 1 := rfl

/-- A projection that copies its row. -/
def copies : QTensor ℚ := ⟨1, 1, fun x => [x.getD 0 0], copied_length⟩

/-- A layer of ones. -/
def onesKda : KdaWeights ℚ where
  qProj := copies
  kProj := copies
  vProj := copies
  kdaConvQ := [1, 1, 1]
  kdaConvK := [1, 1, 1]
  kdaConvV := [1, 1, 1]
  kdaFA := copies
  kdaFB := copies
  kdaALog := [0]
  kdaDtBias := [0]
  kdaBProj := copies
  attnGate := copies
  kdaONorm := [1]
  o := copies

theorem zeroMatrix_length :
    ([0] : List ℚ).length = oneKda.h * (oneKda.dk * oneKda.dk) := rfl

/-- A fresh cache has no convolution buffer and zero matrices. -/
def freshKda : KdaState oneKda := ([], ⟨[0], zeroMatrix_length⟩)

/-- Four tokens, the first two in calls of one token each, and a query that is zero. -/
theorem kda_chunks_short :
    Call.runChunks (kdaMixer plainKda oneKda onesKda) freshKda [[[1]], [[2]], [[3], [4]]]
        = kdaMixer plainKda oneKda onesKda freshKda [[1], [2], [3], [4]] ∧
      ∃ outs state', kdaRecurrent plainKda oneKda ⟨[2], rfl⟩ [⟨[0], [1], [3], [0], [1]⟩]
          = some (outs, state') ∧
        ∀ hh < oneKda.h, (outs.map (headOf oneKda.dk hh), matrixOf oneKda.dk hh state'.1)
          = Delta.run ([⟨[0], [1], [3], [0], [1]⟩].map (deltaOf plainKda oneKda hh))
            (matrixOf oneKda.dk hh [2]) :=
  kda_chunks plainKda oneKda onesKda freshKda (by simp) (by simp) ⟨[2], rfl⟩ _

end Colibri.Mixer
