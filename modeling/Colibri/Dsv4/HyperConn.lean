import Mathlib.Tactic.Linarith
import Colibri.Lib.Blocks
import Colibri.Lib.Sinkhorn
import Colibri.Lib.Vectors

/-!
# Hyper-Connections

A token's residual stream is `hc` copies of its hidden state. `hc_pre` collapses them for
the sublayer, `hc_post` writes the sublayer's output back to each copy and mixes the old
copies through `comb`; both read their weights off the stream itself.

The main results say what the loops compute, without the buffers:

> `hcPre_of_fits`: the weights that `hc_pre` finds are `mixing`, and it collapses the copies
> by them.

> `hcPost_of_holds`: what `hc_post` writes is `expand`, the sublayer's output on each copy and
> the old copies mixed.

> `expand_within`: the matrix has been through the column normalisation last, so mixing makes
> no entry larger than the largest.

Numbers are those of an ordered field; `exp` may underflow. The lengths are those that
`debug_assert!` asks for. The callers slice their buffers to exactly these, so that the
release build, which asserts nothing, does the same; more than `MAX_HC` copies are an index out
of range there.

`splitSinkhorn_comb` is the loops over the matrix, each of which reads what the one before it
wrote, so that the arrays may hold anything when a call begins. `mixing_comb` carries the bounds of
`Lib.Sinkhorn` over to it.
-/

namespace Colibri.HyperConn

open Colibri.Blocks Colibri.Sinkhorn Colibri.Vectors Finset

/-- The functions of `f32` the code calls. -/
structure HcMath (α : Type) [Zero α] [LE α] where
  exp : α → α
  sqrt : α → α
  exp_nonneg : ∀ x, 0 ≤ exp x

/-- What is read of the configuration. -/
structure HcConfig (α : Type) where
  hidden : Nat
  hcMult : Nat
  hcSinkhornIters : Nat
  eps : α
  hcEps : α

/-- The tensors of one wrap: `hc_attn_*` or `hc_ffn_*`. -/
structure HcWeights (α : Type) where
  fn : List α
  scale : List α
  base : List α

def maxHc : Nat := 8

def mixWidth (hc : Nat) : Nat := (2 + hc) * hc

section

variable {α : Type} [Field α] [LinearOrder α]

/-! ## The weights -/

/-- A loop over the first `hc` entries of an array. -/
def writeLanes (hc : Nat) (old f : Nat → α) (j : Nat) : α := if j < hc then f j else old j

/-- A loop over the first `hc` rows and columns of a matrix. -/
def writeSquare (hc : Nat) (old f : Nat → Nat → α) (j k : Nat) : α :=
  if j < hc ∧ k < hc then f j k else old j k

def sig (m : HcMath α) (z : α) : α := 1 / (1 + m.exp (-z))

/-- The largest of the first `hc` entries. -/
def rowMax (hc : Nat) (row : Nat → α) : α :=
  (tab (hc - 1) fun k => row (k + 1)).foldl max (row 0)

/-- The row softmax, `eps` added to every entry. -/
def softmaxRow (m : HcMath α) (hc : Nat) (eps : α) (row : Nat → α) (k : Nat) : α :=
  let e := fun i => m.exp (row i - rowMax hc row)
  e k / ∑ i ∈ range hc, e i + eps

/-- `split_sinkhorn`: the arrays `pre`, `post` and `comb`. -/
def splitSinkhorn (m : HcMath α) (mixes scale base : List α) (hc iters : Nat) (eps : α)
    (post : Nat → α) (comb : Nat → Nat → α) : (Nat → α) × (Nat → α) × (Nat → Nat → α) :=
  let at' := fun i s => mixes.getD i 0 * scale.getD s 0 + base.getD i 0
  let pre := writeLanes hc (fun _ => 0) fun j => sig m (at' j 0) + eps
  let post := writeLanes hc post fun j => ((2 : Nat) : α) * sig m (at' (j + hc) 1)
  let comb := writeSquare hc comb fun j k => at' (j * hc + k + 2 * hc) 2
  let comb := writeSquare hc comb fun j => softmaxRow m hc eps (comb j)
  let colnorm := fun comb => writeSquare hc comb (colNorm (range hc) eps comb)
  let rownorm := fun comb => writeSquare hc comb (rowNorm (range hc) eps comb)
  (pre, post, (fun comb => colnorm (rownorm comb))^[iters - 1] (colnorm comb))

/-- One over the root mean square of the whole stream. -/
def rsqrt (m : HcMath α) (x : List α) (n : Nat) (normEps : α) : α :=
  1 / m.sqrt ((x.map fun v => v * v).sum / n + normEps)

/-- A row of the projection, applied to the stream. -/
def project (m : HcMath α) (fn x : List α) (n : Nat) (normEps : α) (r : Nat) : α :=
  (List.zipWith (· * ·) ((fn.drop (r * n)).take n) x).sum * rsqrt m x n normEps

/-- Entry `r` of `mixes`: a row the projection has not leaves a zero behind. -/
def mixAt (m : HcMath α) (cfg : HcConfig α) (w : HcWeights α) (x : List α) (r : Nat) : α :=
  let n := cfg.hcMult * cfg.hidden
  if r < w.fn.length / n then project m w.fn x n cfg.eps r else 0

/-- `mixes`, of which the first `mix_width` entries are written. -/
def mixes (m : HcMath α) (cfg : HcConfig α) (w : HcWeights α) (x : List α) : List α :=
  tab (mixWidth maxHc) (writeLanes (mixWidth cfg.hcMult) (fun _ => 0) (mixAt m cfg w x))

/-- `*o += w * v` over a copy. -/
def accumulate (w : α) (out src : List α) : List α := List.zipWith (fun o v => o + w * v) out src

/-- Copy `i` of a stream. -/
def lane (d : Nat) (x : List α) (i : Nat) : List α := (x.drop (i * d)).take d

/-! ## The three functions -/

/-- The lengths `hc_pre` asserts or slices by. -/
def Fits (cfg : HcConfig α) (w : HcWeights α) (x : List α) : Prop :=
  let n := cfg.hcMult * cfg.hidden
  x.length = n ∧ cfg.hcMult ≤ maxHc ∧ n ≠ 0 ∧ 3 ≤ w.scale.length ∧
    mixWidth cfg.hcMult ≤ w.base.length

instance (cfg : HcConfig α) (w : HcWeights α) (x : List α) : Decidable (Fits cfg w x) :=
  inferInstanceAs (Decidable (_ ∧ _ ∧ _ ∧ _ ∧ _))

/-- `hc_pre`: the collapsed stream, and the arrays `post` and `comb`. -/
def hcPre (m : HcMath α) (cfg : HcConfig α) (w : HcWeights α) (x : List α) (post : Nat → α)
    (comb : Nat → Nat → α) : Option (List α × (Nat → α) × (Nat → Nat → α)) :=
  let hc := cfg.hcMult
  let d := cfg.hidden
  if Fits cfg w x then
    let s := splitSinkhorn m (mixes m cfg w x) w.scale w.base hc cfg.hcSinkhornIters cfg.hcEps
      post comb
    let out := (List.range hc).foldl (fun out i => accumulate (s.1 i) out (lane d x i))
      (List.replicate d 0)
    some (out, s.2.1, s.2.2)
  else none

def hcPost (cfg : HcConfig α) (x residual : List α) (post : Nat → α) (comb : Nat → Nat → α) :
    Option (List α) :=
  let hc := cfg.hcMult
  let d := cfg.hidden
  if x.length = d ∧ residual.length = hc * d ∧ hc ≤ maxHc then
    some (blocks hc fun k =>
      (List.range hc).foldl
        (fun dst j => if comb j k = 0 then dst else accumulate (comb j k) dst (lane d residual j))
        (x.map fun v => post k * v))
  else none

def hcHead (m : HcMath α) (cfg : HcConfig α) (fn : List α) (scale : α) (base x : List α) :
    Option (List α) :=
  let hc := cfg.hcMult
  let d := cfg.hidden
  let n := hc * d
  if x.length = n ∧ n ≠ 0 ∧ min hc (fn.length / n) ≤ base.length then
    some ((List.range (min hc (fn.length / n))).foldl
      (fun out i =>
        accumulate (sig m (project m fn x n cfg.eps i * scale + base.getD i 0) + cfg.hcEps) out
          (lane d x i))
      (List.replicate d 0))
  else none

/-! ## Without the buffers -/

/-- The weights of one wrap of one token. -/
structure Mixing (α : Type) where
  pre : Nat → α
  post : Nat → α
  comb : Nat → Nat → α

/-- The weights a stream gives itself. -/
def mixing (m : HcMath α) (cfg : HcConfig α) (w : HcWeights α) (x : List α) : Mixing α :=
  let hc := cfg.hcMult
  let at' := fun i s => mixAt m cfg w x i * w.scale.getD s 0 + w.base.getD i 0
  { pre := fun j => sig m (at' j 0) + cfg.hcEps
    post := fun j => ((2 : Nat) : α) * sig m (at' (j + hc) 1)
    comb := rounds (range hc) cfg.hcEps (cfg.hcSinkhornIters - 1) fun j =>
      softmaxRow m hc cfg.hcEps fun k => at' (j * hc + k + 2 * hc) 2 }

/-- The copies summed up, each with its weight. -/
def collapse (d hc : Nat) (pre : Nat → α) (x : List α) : List α :=
  tab d fun t => ∑ i ∈ range hc, pre i * x.getD (i * d + t) 0

/-- The sublayer's output on each copy, and the old copies mixed. -/
def expand (d hc : Nat) (post : Nat → α) (comb : Nat → Nat → α) (x residual : List α) : List α :=
  blocks hc fun k => tab d fun t =>
    post k * x.getD t 0 + mix (range hc) comb (fun j => residual.getD (j * d + t) 0) k

/-! ## The loops over the copies -/

variable {d hc : Nat} {x : List α} {cfg : HcConfig α}

omit [Field α] [LinearOrder α] in
theorem length_lane {i : Nat} (hx : x.length = hc * d) (hi : i < hc) :
    (lane d x i).length = d := by
  have hle := Nat.mul_le_mul_right d (Nat.succ_le_of_lt hi)
  rw [Nat.succ_mul] at hle
  rw [lane, List.length_take, List.length_drop]
  omega

omit [LinearOrder α] in
theorem getD_lane {i t : Nat} (ht : t < d) :
    (lane d x i).getD t 0 = x.getD (i * d + t) 0 := by
  rw [lane, List.getD_eq_getElem?_getD, List.getElem?_take_of_lt ht, List.getElem?_drop,
    ← List.getD_eq_getElem?_getD]

omit [LinearOrder α] in
theorem accumulate_eq (w : α) {out src : List α} (hout : out.length = d)
    (hsrc : src.length = d) :
    accumulate w out src = tab d fun t => out.getD t 0 + w * src.getD t 0 := by
  conv_lhs => rw [eq_tab hout 0, eq_tab hsrc 0]
  rw [accumulate, zipWith_tab]

omit [LinearOrder α] in
/-- A loop whose steps add one weighted vector each. -/
theorem foldl_weighted {β : Type} (w : β → α) (src : β → List α) {l : List β}
    {f : List α → β → List α}
    (hf : ∀ out, out.length = d → ∀ i ∈ l,
      f out i = tab d fun t => out.getD t 0 + w i * (src i).getD t 0)
    {out : List α} (hout : out.length = d) :
    l.foldl f out = tab d fun t => out.getD t 0 + (l.map fun i => w i * (src i).getD t 0).sum := by
  induction l generalizing out with
  | nil =>
    conv_lhs => rw [List.foldl_nil, eq_tab hout 0]
    refine tab_congr fun t _ => ?_
    rw [List.map_nil, List.sum_nil, add_zero]
  | cons i l ih =>
    have hstep := hf out hout i (List.mem_cons_self ..)
    have hlen : (f out i).length = d := by rw [hstep, length_tab]
    rw [List.foldl_cons, ih (fun out ho j hj => hf out ho j (List.mem_cons_of_mem _ hj)) hlen]
    refine tab_congr fun t ht => ?_
    rw [hstep, getD_tab ht, List.map_cons, List.sum_cons, add_assoc]

omit [LinearOrder α] in
theorem collapse_eq {n : Nat} (pre : Nat → α) (hx : x.length = hc * d)
    (hn : n ≤ hc) :
    (List.range n).foldl (fun out i => accumulate (pre i) out (lane d x i))
      (List.replicate d 0) = collapse d n pre x := by
  rw [foldl_weighted pre (lane d x) _ (List.length_replicate ..)]
  · refine tab_congr fun t ht => ?_
    have hzero : (List.replicate d (0 : α)).getD t 0 = 0 := by
      rw [List.getD_replicate _ ht]
    rw [hzero, zero_add]
    exact (sum_tab n _).trans (Finset.sum_congr rfl fun i _ => by rw [getD_lane ht])
  · intro out hout i hi
    exact accumulate_eq _ hout (length_lane hx (by have := List.mem_range.mp hi; omega))

/-- `hc_post`: leaving out a weight of zero changes nothing. -/
theorem hcPost_eq {residual : List α} (post : Nat → α)
    (comb : Nat → Nat → α) :
    hcPost cfg x residual post comb =
      if x.length = cfg.hidden ∧ residual.length = cfg.hcMult * cfg.hidden ∧
        cfg.hcMult ≤ maxHc then
        some (expand cfg.hidden cfg.hcMult post comb x residual)
      else none := by
  rw [hcPost]
  refine if_ctx_congr Iff.rfl (fun h => ?_) fun _ => rfl
  obtain ⟨hx, hres, -⟩ := h
  refine congrArg some (blocks_congr fun k _ => ?_)
  rw [foldl_weighted (fun j => comb j k) (lane cfg.hidden residual) _
    ((List.length_map ..).trans hx)]
  · refine tab_congr fun t ht => ?_
    have hfirst : (x.map fun v => post k * v).getD t 0 = post k * x.getD t 0 := by
      rw [List.getD_eq_getElem _ _ (by rw [List.length_map, hx]; exact ht), List.getElem_map,
        List.getD_eq_getElem _ _ (by rw [hx]; exact ht)]
    rw [hfirst, mix]
    refine congrArg _ ((sum_tab cfg.hcMult _).trans (Finset.sum_congr rfl fun j _ => ?_))
    rw [getD_lane ht]
  · intro out hout j hj
    have hlane := length_lane hres (List.mem_range.mp hj)
    split
    next hz =>
      conv_lhs => rw [eq_tab hout 0]
      refine tab_congr fun t _ => ?_
      rw [hz, zero_mul, add_zero]
    next => exact accumulate_eq _ hout hlane

/-! ## The weights, whatever the arrays held -/

theorem mixWidth_le (h : hc ≤ maxHc) : mixWidth hc ≤ mixWidth maxHc :=
  Nat.mul_le_mul (Nat.add_le_add_left h 2) h

theorem index_lt {j k : Nat} (hj : j < hc) (hk : k < hc) :
    j * hc + k + 2 * hc < mixWidth hc := by
  have hle := Nat.mul_le_mul_right hc (Nat.succ_le_of_lt hj)
  rw [Nat.succ_mul] at hle
  rw [mixWidth, Nat.add_mul]
  omega

omit [Field α] [LinearOrder α] in
theorem writeLanes_lt {j : Nat} (old f : Nat → α) (hj : j < hc) :
    writeLanes hc old f j = f j :=
  if_pos hj

omit [Field α] [LinearOrder α] in
theorem writeSquare_agree (hc : Nat) (old f : Nat → Nat → α) :
    AgreeOn (range hc) (writeSquare hc old f) f :=
  fun _ hj _ hk => if_pos ⟨mem_range.mp hj, mem_range.mp hk⟩

omit [Field α] in
theorem rowMax_congr {row row' : Nat → α} (hhc : 0 < hc)
    (h : ∀ k < hc, row k = row' k) : rowMax hc row = rowMax hc row' := by
  rw [rowMax, rowMax, h 0 hhc, tab_congr fun k hk => h (k + 1) (by omega)]

theorem softmaxRow_congr {m : HcMath α} {k : Nat} {eps : α} {row row' : Nat → α} (hk : k < hc)
    (h : ∀ k < hc, row k = row' k) : softmaxRow m hc eps row k = softmaxRow m hc eps row' k := by
  have hmax := rowMax_congr (by omega) h
  have hsum : ∑ i ∈ range hc, m.exp (row i - rowMax hc row) =
      ∑ i ∈ range hc, m.exp (row' i - rowMax hc row') :=
    Finset.sum_congr rfl fun i hi => by rw [h i (mem_range.mp hi), hmax]
  unfold softmaxRow
  dsimp only
  rw [hsum, h k hk, hmax]

/-- The matrix of `split_sinkhorn`: each loop reads what the one before it wrote. -/
theorem splitSinkhorn_comb (m : HcMath α) (mixes scale base : List α) (hc iters : Nat) (eps : α)
    (post : Nat → α) (comb : Nat → Nat → α) :
    AgreeOn (range hc) (splitSinkhorn m mixes scale base hc iters eps post comb).2.2
      (rounds (range hc) eps (iters - 1) fun j => softmaxRow m hc eps fun k =>
        mixes.getD (j * hc + k + 2 * hc) 0 * scale.getD 2 0 + base.getD (j * hc + k + 2 * hc) 0) := by
  rw [splitSinkhorn, rounds]
  refine iterate_agree (fun M => ?_) ?_ _
  · exact (writeSquare_agree hc _ _).trans (colNorm_congr (writeSquare_agree hc _ _))
  · refine (writeSquare_agree hc _ _).trans (colNorm_congr ((writeSquare_agree hc _ _).trans ?_))
    intro j hj k hk
    exact softmaxRow_congr (mem_range.mp hk) fun i hi =>
      writeSquare_agree hc _ _ j hj i (mem_range.mpr hi)

/-- The arrays hold the weights of the stream `x`, as far as `hc_post` reads them. -/
def Holds (m : HcMath α) (cfg : HcConfig α) (w : HcWeights α) (x : List α)
    (a : (Nat → α) × (Nat → Nat → α)) : Prop :=
  (∀ k < cfg.hcMult, a.1 k = (mixing m cfg w x).post k) ∧
    AgreeOn (range cfg.hcMult) a.2 (mixing m cfg w x).comb

/-- `hc_pre`, whatever was in the arrays. -/
theorem hcPre_of_fits {m : HcMath α} {w : HcWeights α}
    (h : Fits cfg w x) (post : Nat → α) (comb : Nat → Nat → α) :
    ∃ a, hcPre m cfg w x post comb =
        some (collapse cfg.hidden cfg.hcMult (mixing m cfg w x).pre x, a) ∧
      Holds m cfg w x a := by
  have ⟨hx, hhc, _⟩ := h
  have hmix : ∀ r < mixWidth cfg.hcMult, (mixes m cfg w x).getD r 0 = mixAt m cfg w x r := by
    intro r hr
    rw [mixes, getD_tab (hr.trans_le (mixWidth_le hhc)), writeLanes_lt _ _ hr]
  have hpair : ∀ j < cfg.hcMult, j + cfg.hcMult < mixWidth cfg.hcMult := by
    intro j hj
    have := index_lt hj hj
    omega
  have hpre : ∀ i < cfg.hcMult, (splitSinkhorn m (mixes m cfg w x) w.scale w.base cfg.hcMult
      cfg.hcSinkhornIters cfg.hcEps post comb).1 i = (mixing m cfg w x).pre i := by
    intro i hi
    have hlt := hpair i hi
    unfold splitSinkhorn mixing
    dsimp only
    rw [writeLanes_lt _ _ hi, hmix i (by omega)]
  refine ⟨_, (if_pos h).trans (congrArg some (Prod.ext ?_ rfl)), fun k hk => ?_,
    (splitSinkhorn_comb _ _ _ _ _ _ _ _ _).trans (rounds_congr (fun j hj k hk => ?_) _)⟩
  · dsimp only
    rw [collapse_eq _ hx (Nat.le_refl _)]
    exact tab_congr fun t _ => Finset.sum_congr rfl fun i hi => by rw [hpre i (mem_range.mp hi)]
  · unfold splitSinkhorn mixing
    dsimp only
    rw [writeLanes_lt _ _ hk, hmix _ (hpair k hk)]
  · refine softmaxRow_congr (mem_range.mp hk) fun i hi => ?_
    rw [hmix _ (index_lt (mem_range.mp hj) hi)]

theorem hcPre_none {m : HcMath α} {w : HcWeights α}
    (h : ¬Fits cfg w x) (post : Nat → α) (comb : Nat → Nat → α) :
    hcPre m cfg w x post comb = none :=
  if_neg h

/-- `hc_post`, behind the `hc_pre` of the same stream. -/
theorem hcPost_of_holds {m : HcMath α} {w : HcWeights α} {residual : List α}
    {a : (Nat → α) × (Nat → Nat → α)} (h : Fits cfg w residual) (ha : Holds m cfg w residual a) :
    hcPost cfg x residual a.1 a.2 =
      if x.length = cfg.hidden then
        some (expand cfg.hidden cfg.hcMult (mixing m cfg w residual).post
          (mixing m cfg w residual).comb x residual)
      else none := by
  obtain ⟨hx, hhc, -⟩ := h
  rw [hcPost_eq]
  refine if_ctx_congr (by simp only [hx, hhc, and_true]) (fun _ => ?_) fun _ => rfl
  refine congrArg some (blocks_congr fun k hk => tab_congr fun t _ => ?_)
  rw [ha.1 k hk, mix_congr ha.2 (fun _ _ => rfl) (mem_range.mpr hk)]

end

/-! ## How large the entries get -/

section

variable {α : Type} [Field α] [LinearOrder α] [IsStrictOrderedRing α] {m : HcMath α}
  {cfg : HcConfig α}

/-- No entry is larger than `b`. -/
def Within (b : α) (x : List α) : Prop := ∀ v ∈ x, |v| ≤ b

theorem Within.getD {b : α} {x : List α} (h : Within b x) (hb : 0 ≤ b) (i : Nat) :
    |x.getD i 0| ≤ b := by
  rw [List.getD_eq_getElem?_getD]
  cases hi : x[i]? with
  | none =>
    rw [Option.getD_none, abs_zero]
    exact hb
  | some v => exact h v (List.mem_of_getElem? hi)

omit [IsStrictOrderedRing α] in
theorem within_tab {b : α} {n : Nat} {f : Nat → α} (h : ∀ i < n, |f i| ≤ b) :
    Within b (tab n f) := by
  intro v hv
  obtain ⟨i, hi, rfl⟩ := List.mem_map.mp hv
  exact h i (List.mem_range.mp hi)

theorem sig_bounds (m : HcMath α) (z : α) : 0 ≤ sig m z ∧ sig m z ≤ 1 := by
  have hexp := m.exp_nonneg (-z)
  exact ⟨one_div_nonneg.mpr (by linarith), div_le_one_of_le₀ (by linarith) (by linarith)⟩

/-- The matrix that `hc_pre` finds has no negative entry, and no column that sums to more than
one. -/
theorem mixing_comb (heps : 0 ≤ cfg.hcEps) (w : HcWeights α) (x : List α) :
    Nonneg (range cfg.hcMult) (mixing m cfg w x).comb ∧
      ColsLeOne (range cfg.hcMult) (mixing m cfg w x).comb := by
  refine rounds_spec (fun j _ k _ => ?_) heps _
  exact add_nonneg (div_nonneg (m.exp_nonneg _) (Finset.sum_nonneg fun i _ => m.exp_nonneg _)) heps

/-- The sublayer's output counts at most twice, the old copies at most once. -/
theorem expand_within (heps : 0 ≤ cfg.hcEps) (w : HcWeights α) {x residual y : List α} {b c : α}
    (hb : 0 ≤ b) (hc : 0 ≤ c) (hx : Within b x) (hres : Within c residual) :
    Within (2 * b + c) (expand cfg.hidden cfg.hcMult (mixing m cfg w y).post
      (mixing m cfg w y).comb x residual) := by
  obtain ⟨hnonneg, hcols⟩ := mixing_comb (m := m) heps w y
  intro v hv
  obtain ⟨k, hk, hv⟩ := List.mem_flatMap.mp hv
  refine within_tab (fun t _ => ?_) v hv
  obtain ⟨hlow, hhigh⟩ := sig_bounds m
    (mixAt m cfg w y (k + cfg.hcMult) * w.scale.getD 1 0 + w.base.getD (k + cfg.hcMult) 0)
  have hpost : |(mixing m cfg w y).post k| ≤ 2 := by
    show |2 * sig m _| ≤ 2
    rw [abs_of_nonneg (by linarith)]
    linarith
  have hmix := abs_mix_le hnonneg hcols (Finset.mem_range.mpr (List.mem_range.mp hk)) hc
    fun j _ => hres.getD hc (j * cfg.hidden + t)
  calc |(mixing m cfg w y).post k * x.getD t 0 + mix (range cfg.hcMult) (mixing m cfg w y).comb
        (fun j => residual.getD (j * cfg.hidden + t) 0) k|
      ≤ |(mixing m cfg w y).post k * x.getD t 0| + c := (abs_add_le _ _).trans (by linarith)
    _ = |(mixing m cfg w y).post k| * |x.getD t 0| + c := by rw [abs_mul]
    _ ≤ 2 * b + c := by
        have := mul_le_mul hpost (hx.getD hb t) (abs_nonneg _) zero_le_two
        linarith

/-- `hc_head` weighs each copy with at most `1 + eps`. -/
theorem hcHead_within (heps : 0 ≤ cfg.hcEps) {fn base x out : List α} {scale c : α} (hc : 0 ≤ c)
    (hx : Within c x) (h : hcHead m cfg fn scale base x = some out) :
    Within (cfg.hcMult * ((1 + cfg.hcEps) * c)) out := by
  rw [hcHead] at h
  split at h
  next hfits =>
    obtain ⟨hlen, -, -⟩ := hfits
    cases h
    rw [collapse_eq (fun i => sig m _ + cfg.hcEps) hlen (Nat.min_le_left ..)]
    refine within_tab fun t _ => ?_
    have hterm : ∀ i, |(sig m (project m fn x (cfg.hcMult * cfg.hidden) cfg.eps i * scale +
        base.getD i 0) + cfg.hcEps) * x.getD (i * cfg.hidden + t) 0| ≤ (1 + cfg.hcEps) * c := by
      intro i
      obtain ⟨hlow, hhigh⟩ := sig_bounds m
        (project m fn x (cfg.hcMult * cfg.hidden) cfg.eps i * scale + base.getD i 0)
      rw [abs_mul, abs_of_nonneg (by linarith)]
      exact mul_le_mul (by linarith) (hx.getD hc _) (abs_nonneg _) (by linarith)
    have hle : 0 ≤ (1 + cfg.hcEps) * c := mul_nonneg (by linarith) hc
    refine (Finset.abs_sum_le_sum_abs _ _).trans ((Finset.sum_le_card_nsmul _ _ _ fun i _ =>
      hterm i).trans ?_)
    rw [Finset.card_range, nsmul_eq_mul]
    exact mul_le_mul_of_nonneg_right (Nat.cast_le.mpr (Nat.min_le_left ..)) hle
  next => cases h

end

end Colibri.HyperConn
