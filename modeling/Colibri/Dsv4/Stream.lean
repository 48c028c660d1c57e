import Mathlib.Tactic.Positivity
import Colibri.Dsv4.HyperConn
import Colibri.Lib.Batch

/-!
# The residual stream of DeepSeek-V4

`dsv4_forward` keeps `hc` copies of each token's hidden state through all layers. A layer
wraps its attention and its MoE in Hyper-Connections: `hc_pre` collapses the copies for the
sublayer, `hc_post` expands the output over them. The arrays for the weights (`Scratch`) are
allocated once, and every wrap overwrites what the wrap before it left there.

The attention and the MoE are parameters (`Sublayers`). Each sees the normed rows of the
whole call. Numbers are those of an ordered field, so arithmetic is exact.

There are two main results.

* `dsv4Forward_eq`: the forward, with its arrays and its loops, is `refForward`, in which a
  wrap is the formula `refPass` and no array occurs. So the old contents of the arrays have no
  influence, and where one of the two fails, the other does.
* `stream_bounded`: with `hc_eps` not negative, a layer adds at most four times what a
  sublayer puts out. The stream grows by sums, not by factors.

The first goes from the inside out: `preAll_some` is the loop over the rows, `hcPass_bind` a
wrap, `dsv4LayerForward_bind` a layer, and `streamLayers_bind` the stack. These lemmas are
about a program and what comes after it, since the arrays stay in the state. For the second,
`refPass_within` bounds a wrap and `refLayers_within` adds the bounds up.
-/

namespace Colibri.HyperConn

open Batch Colibri.Sinkhorn Colibri.Vectors

/-- What a layer wraps its sublayers with. -/
structure HcLayer (α : Type) where
  attn : HcWeights α
  ffn : HcWeights α
  inLn : List α
  postLn : List α

/-- The attention and the MoE of each layer: the one changes the cache, the other may fail. -/
structure Sublayers (ε σ α : Type) where
  attention : Nat → σ → List (List α) → Option (σ × List (List α))
  moe : Nat → List (List α) → Outcome ε (List (List α))

/-- `hc_head_*` -/
structure HeadWeights (α : Type) where
  fn : List α
  scale : α
  base : List α

/-- `sc.post` and `sc.comb`, one entry for each token. -/
abbrev Scratch (α : Type) := List ((Nat → α) × (Nat → Nat → α))

section

variable {ε σ β α : Type} [Field α] [LinearOrder α]

/-! ## The forward -/

/-- `Dsv4Scratch::new` -/
def Scratch.new (s : Nat) : Scratch α := List.replicate s (fun _ => 0, fun _ _ => 0)

def rmsnorm (m : HcMath α) (x w : List α) (eps : α) : Option (List α) :=
  if w.length = x.length then
    some (List.zipWith (fun v w => v * rsqrt m x x.length eps * w) x w)
  else none

/-- The loop over `hc_pre`. -/
def preAll (m : HcMath α) (cfg : HcConfig α) (w : HcWeights α) (sc : Scratch α)
    (x : List (List α)) : Option (List (List α × (Nat → α) × (Nat → Nat → α))) :=
  (List.range x.length).mapM fun i => do
    let a ← sc[i]?
    hcPre m cfg w (x.getD i []) a.1 a.2

/-- The loop over `hc_post`. -/
def postAll (cfg : HcConfig α) (sc : Scratch α) (sub x : List (List α)) :
    Option (List (List α)) :=
  (List.range x.length).mapM fun i => do
    let a ← sc[i]?
    hcPost cfg (sub.getD i []) (x.getD i []) a.1 a.2

/-- A pass of the loop in `dsv4_layer_forward`. -/
def hcPass (m : HcMath α) (cfg : HcConfig α) (w : HcWeights α) (norm : List α)
    (run : List (List α) → Outcome ε (β × List (List α))) (sc : Scratch α) (x : List (List α)) :
    Outcome ε (β × Scratch α × List (List α)) := do
  let pres ← .ofOption (preAll m cfg w sc x)
  let sc := pres.map Prod.snd
  let normed ← .ofOption ((pres.map Prod.fst).mapM fun p => rmsnorm m p norm cfg.eps)
  let r ← run normed
  let x ← .ofOption (postAll cfg sc r.2 x)
  pure (r.1, sc, x)

def dsv4LayerForward (m : HcMath α) (cfg : HcConfig α) (sub : Sublayers ε σ α) (l : HcLayer α)
    (li : Nat) (kv : σ) (sc : Scratch α) (x : List (List α)) :
    Outcome ε (σ × Scratch α × List (List α)) := do
  let a ← hcPass m cfg l.attn l.inLn (fun normed => .ofOption (sub.attention li kv normed)) sc x
  let f ← hcPass m cfg l.ffn l.postLn
    (fun normed => do
      let out ← sub.moe li normed
      pure ((), out)) a.2.1 a.2.2
  pure (a.1, f.2.1, f.2.2)

/-- The layers from `li` on. -/
def streamLayers (m : HcMath α) (cfg : HcConfig α) (sub : Sublayers ε σ α) :
    List (HcLayer α) → Nat → σ → Scratch α → List (List α) →
      Outcome ε (σ × Scratch α × List (List α))
  | [], _, kv, sc, x => .ok (kv, sc, x)
  | l :: ls, li, kv, sc, x => do
    let r ← dsv4LayerForward m cfg sub l li kv sc x
    streamLayers m cfg sub ls (li + 1) r.1 r.2.1 r.2.2

/-- `dsv4_forward`: the embedding in every copy, the layers, and the head. -/
def dsv4Forward (m : HcMath α) (cfg : HcConfig α) (sub : Sublayers ε σ α)
    (layers : List (HcLayer α)) (head : HeadWeights α) (embedRow : Int → Option (List α))
    (kv : σ) (ids : List Int) : Outcome ε (σ × List (List α)) := do
  let es ← .ofOption (ids.mapM embedRow)
  let x := es.map fun e => (List.replicate cfg.hcMult e).flatten
  let r ← streamLayers m cfg sub layers 0 kv (.new ids.length) x
  let out ← .ofOption (r.2.2.mapM (hcHead m cfg head.fn head.scale head.base))
  pure (r.1, out)

/-! ## Without the arrays -/

/-- A wrap: the streams collapsed, and what the sublayer makes of them expanded, each by the
weights of its own stream. -/
def refPass (m : HcMath α) (cfg : HcConfig α) (w : HcWeights α) (norm : List α)
    (run : List (List α) → Outcome ε (β × List (List α))) (x : List (List α)) :
    Outcome ε (β × List (List α)) := do
  let mixed ← .ofOption (x.mapM fun row =>
    if Fits cfg w row then some (collapse cfg.hidden cfg.hcMult (mixing m cfg w row).pre row)
    else none)
  let normed ← .ofOption (mixed.mapM fun p => rmsnorm m p norm cfg.eps)
  let r ← run normed
  let x ← .ofOption ((List.range x.length).mapM fun i =>
    let μ := mixing m cfg w (x.getD i [])
    if (r.2.getD i []).length = cfg.hidden then
      some (expand cfg.hidden cfg.hcMult μ.post μ.comb (r.2.getD i []) (x.getD i []))
    else none)
  pure (r.1, x)

def refLayer (m : HcMath α) (cfg : HcConfig α) (sub : Sublayers ε σ α) (l : HcLayer α) (li : Nat)
    (kv : σ) (x : List (List α)) : Outcome ε (σ × List (List α)) := do
  let a ← refPass m cfg l.attn l.inLn (fun normed => .ofOption (sub.attention li kv normed)) x
  let f ← refPass m cfg l.ffn l.postLn
    (fun normed => do
      let out ← sub.moe li normed
      pure ((), out)) a.2
  pure (a.1, f.2)

def refLayers (m : HcMath α) (cfg : HcConfig α) (sub : Sublayers ε σ α) :
    List (HcLayer α) → Nat → σ → List (List α) → Outcome ε (σ × List (List α))
  | [], _, kv, x => .ok (kv, x)
  | l :: ls, li, kv, x => do
    let r ← refLayer m cfg sub l li kv x
    refLayers m cfg sub ls (li + 1) r.1 r.2

/-- What `dsv4_forward` is for. -/
def refForward (m : HcMath α) (cfg : HcConfig α) (sub : Sublayers ε σ α)
    (layers : List (HcLayer α)) (head : HeadWeights α) (embedRow : Int → Option (List α))
    (kv : σ) (ids : List Int) : Outcome ε (σ × List (List α)) := do
  let es ← .ofOption (ids.mapM embedRow)
  let r ← refLayers m cfg sub layers 0 kv
    (es.map fun e => (List.replicate cfg.hcMult e).flatten)
  let out ← .ofOption (r.2.mapM (hcHead m cfg head.fn head.scale head.base))
  pure (r.1, out)

/-! ## The arrays do not show -/

variable {m : HcMath α} {cfg : HcConfig α} {w : HcWeights α} {sc : Scratch α}
  {x : List (List α)}

theorem preAll_none (h : ¬∀ row ∈ x, Fits cfg w row) : preAll m cfg w sc x = none := by
  push Not at h
  obtain ⟨row, hrow, hnot⟩ := h
  obtain ⟨i, hi, rfl⟩ := List.mem_iff_getElem.mp hrow
  refine mapM_eq_none (List.mem_range.mpr hi) ?_
  have hget : x.getD i [] = x[i] := List.getD_eq_getElem x [] hi
  rw [hget]
  cases sc[i]? with
  | none => rfl
  | some a => exact hcPre_none hnot _ _

/-- The collapsed rows of a call, and the weights left in the arrays for each of them. -/
theorem preAll_some (hsc : sc.length = x.length) (h : ∀ row ∈ x, Fits cfg w row) :
    ∃ pres, preAll m cfg w sc x = some pres ∧ pres.length = x.length ∧
      pres.map Prod.fst =
        x.map (fun row => collapse cfg.hidden cfg.hcMult (mixing m cfg w row).pre row) ∧
      ∀ i < x.length, ∃ a, (pres.map Prod.snd)[i]? = some a ∧ Holds m cfg w (x.getD i []) a := by
  have hrow : ∀ i, ∃ r, i < x.length →
      (do let a ← sc[i]?; hcPre m cfg w (x.getD i []) a.1 a.2) = some r ∧
        r.1 = collapse cfg.hidden cfg.hcMult (mixing m cfg w (x.getD i [])).pre (x.getD i []) ∧
        Holds m cfg w (x.getD i []) r.2 := by
    intro i
    by_cases hi : i < x.length
    · have hfit : Fits cfg w (x.getD i []) := by
        rw [List.getD_eq_getElem x [] hi]
        exact h _ (List.getElem_mem hi)
      rw [List.getElem?_eq_getElem (hsc ▸ hi)]
      obtain ⟨a, ha, hholds⟩ := hcPre_of_fits (m := m) hfit sc[i].1 sc[i].2
      exact ⟨_, fun _ => ⟨ha, rfl, hholds⟩⟩
    · exact ⟨([], fun _ => 0, fun _ _ => 0), fun h => absurd h hi⟩
  choose g hg using hrow
  refine ⟨(List.range x.length).map g, mapM_eq_map fun i hi => (hg i (List.mem_range.mp hi)).1,
    by rw [List.length_map, List.length_range], ?_, fun i hi => ⟨(g i).2, ?_, (hg i hi).2.2⟩⟩
  · conv_rhs => rw [eq_tab (rfl : x.length = x.length) [], map_tab]
    rw [List.map_map]
    exact List.map_congr_left fun i hi => (hg i (List.mem_range.mp hi)).2.1
  · rw [List.getElem?_map, List.getElem?_map, List.getElem?_range hi]
    rfl

/-- A wrap as the code runs it, and what comes after. -/
theorem hcPass_bind {γ : Type} {norm : List α}
    {run : List (List α) → Outcome ε (β × List (List α))} (hsc : sc.length = x.length)
    {k : β × Scratch α × List (List α) → Outcome ε γ} {k' : β × List (List α) → Outcome ε γ}
    (hk : ∀ b sc' x', sc'.length = x'.length → k (b, sc', x') = k' (b, x')) :
    (hcPass m cfg w norm run sc x >>= k) = refPass m cfg w norm run x >>= k' := by
  unfold hcPass refPass
  by_cases h : ∀ row ∈ x, Fits cfg w row
  · obtain ⟨pres, hpres, hlen, hfst, harr⟩ := preAll_some (m := m) hsc h
    rw [hpres, mapM_eq_map fun row hrow => if_pos (h row hrow)]
    simp only [Outcome.ofOption, Outcome.ok_bind]
    rw [hfst]
    cases (x.map fun row => collapse cfg.hidden cfg.hcMult (mixing m cfg w row).pre row).mapM
        fun p => rmsnorm m p norm cfg.eps with
    | none => rfl
    | some normed =>
      rw [Outcome.ok_bind, Outcome.ok_bind]
      cases run normed with
      | error e => rfl
      | panic => rfl
      | ok r =>
        have hpost : postAll cfg (pres.map Prod.snd) r.2 x = (List.range x.length).mapM fun i =>
            if (r.2.getD i []).length = cfg.hidden then
              some (expand cfg.hidden cfg.hcMult (mixing m cfg w (x.getD i [])).post
                (mixing m cfg w (x.getD i [])).comb (r.2.getD i []) (x.getD i []))
            else none := by
          refine mapM_congr fun i hi => ?_
          have hi := List.mem_range.mp hi
          obtain ⟨a, ha, hholds⟩ := harr i hi
          rw [ha]
          refine hcPost_of_holds ?_ hholds
          rw [List.getD_eq_getElem x [] hi]
          exact h _ (List.getElem_mem hi)
        rw [Outcome.ok_bind, Outcome.ok_bind, hpost]
        cases hx' : (List.range x.length).mapM fun i =>
            if (r.2.getD i []).length = cfg.hidden then
              some (expand cfg.hidden cfg.hcMult (mixing m cfg w (x.getD i [])).post
                (mixing m cfg w (x.getD i [])).comb (r.2.getD i []) (x.getD i []))
            else none with
        | none => rfl
        | some x' =>
          refine hk r.1 _ x' ?_
          rw [List.length_map, hlen, (of_mapM hx').1, List.length_range]
  · have hnone : x.mapM (fun row =>
        if Fits cfg w row then
          some (collapse cfg.hidden cfg.hcMult (mixing m cfg w row).pre row)
        else none) = none := by
      push Not at h
      obtain ⟨row, hrow, hnot⟩ := h
      exact mapM_eq_none hrow (if_neg hnot)
    rw [preAll_none h, hnone]
    rfl

theorem dsv4LayerForward_bind {γ : Type} {sub : Sublayers ε σ α} {l : HcLayer α} {li : Nat} {kv : σ}
    (hsc : sc.length = x.length) {k : σ × Scratch α × List (List α) → Outcome ε γ}
    {k' : σ × List (List α) → Outcome ε γ}
    (hk : ∀ kv sc' x', sc'.length = x'.length → k (kv, sc', x') = k' (kv, x')) :
    (dsv4LayerForward m cfg sub l li kv sc x >>= k) = refLayer m cfg sub l li kv x >>= k' := by
  unfold dsv4LayerForward refLayer
  rw [bind_assoc, bind_assoc]
  refine hcPass_bind hsc fun kv' sc' x' hsc' => ?_
  rw [bind_assoc, bind_assoc]
  exact hcPass_bind hsc' fun _ sc'' x'' hsc'' => hk kv' sc'' x'' hsc''

theorem streamLayers_bind {γ : Type} {sub : Sublayers ε σ α} {ls : List (HcLayer α)} {li : Nat}
    {kv : σ} (hsc : sc.length = x.length) {k : σ × Scratch α × List (List α) → Outcome ε γ}
    {k' : σ × List (List α) → Outcome ε γ} (hk : ∀ kv sc' x', k (kv, sc', x') = k' (kv, x')) :
    (streamLayers m cfg sub ls li kv sc x >>= k) = refLayers m cfg sub ls li kv x >>= k' := by
  induction ls generalizing li kv sc x with
  | nil => exact hk kv sc x
  | cons l ls ih =>
    rw [streamLayers, refLayers, bind_assoc, bind_assoc]
    exact dsv4LayerForward_bind hsc fun _ _ _ hsc' => ih hsc'

/-- The forward with its arrays and loops is the formula, also where it fails. -/
theorem dsv4Forward_eq (m : HcMath α) (cfg : HcConfig α) (sub : Sublayers ε σ α)
    (layers : List (HcLayer α)) (head : HeadWeights α) (embedRow : Int → Option (List α))
    (kv : σ) (ids : List Int) :
    dsv4Forward m cfg sub layers head embedRow kv ids =
      refForward m cfg sub layers head embedRow kv ids := by
  unfold dsv4Forward refForward
  cases hes : ids.mapM embedRow with
  | none => rfl
  | some es =>
    refine streamLayers_bind ?_ fun _ _ _ => rfl
    rw [Scratch.new, List.length_replicate, List.length_map, (of_mapM hes).1]

end

/-! ## How the stream grows -/

section

variable {ε σ β α : Type} [Field α] [LinearOrder α] [IsStrictOrderedRing α] {m : HcMath α}
  {cfg : HcConfig α} {w : HcWeights α}

/-- No row has an entry larger than `b`. -/
def RowsWithin (b : α) (x : List (List α)) : Prop := ∀ row ∈ x, Within b row

omit [IsStrictOrderedRing α] in
theorem RowsWithin.getD {b : α} {x : List (List α)} (h : RowsWithin b x) (i : Nat) :
    Within b (x.getD i []) := by
  rw [List.getD_eq_getElem?_getD]
  cases hi : x[i]? with
  | none =>
    intro v hv
    cases hv
  | some row => exact h row (List.mem_of_getElem? hi)

/-- A wrap adds at most twice what its sublayer puts out. -/
theorem refPass_within (heps : 0 ≤ cfg.hcEps) {b c : α} (hb : 0 ≤ b) (hc : 0 ≤ c)
    {norm : List α} {run : List (List α) → Outcome ε (β × List (List α))}
    (hrun : ∀ xs r, run xs = .ok r → RowsWithin b r.2) {x : List (List α)} (hx : RowsWithin c x)
    {r : β × List (List α)} (h : refPass m cfg w norm run x = .ok r) :
    RowsWithin (2 * b + c) r.2 := by
  unfold refPass at h
  obtain ⟨mixed, -, h⟩ := Outcome.bind_eq_ok h
  obtain ⟨normed, -, h⟩ := Outcome.bind_eq_ok h
  obtain ⟨s, hs, h⟩ := Outcome.bind_eq_ok h
  obtain ⟨x', hx', h⟩ := Outcome.bind_eq_ok h
  cases h
  intro row hrow
  obtain ⟨i, -, hi⟩ := (of_mapM (Outcome.eq_some_of_ok hx')).2 row hrow
  dsimp only at hi
  split at hi
  next =>
    cases hi
    exact expand_within heps w hb hc ((hrun _ _ hs).getD i) (hx.getD i)
  next => cases hi

/-- Every layer adds at most four times the bound of the sublayers. -/
theorem refLayers_within (heps : 0 ≤ cfg.hcEps) {sub : Sublayers ε σ α} {b c : α} (hb : 0 ≤ b)
    (hc : 0 ≤ c) (hattn : ∀ li kv xs r, sub.attention li kv xs = some r → RowsWithin b r.2)
    (hmoe : ∀ li xs out, sub.moe li xs = .ok out → RowsWithin b out) {ls : List (HcLayer α)}
    {li : Nat} {kv : σ} {x : List (List α)} (hx : RowsWithin c x) {r : σ × List (List α)}
    (h : refLayers m cfg sub ls li kv x = .ok r) :
    RowsWithin (c + 4 * b * ls.length) r.2 := by
  induction ls generalizing li kv x c with
  | nil =>
    cases h
    rw [List.length_nil, Nat.cast_zero, mul_zero, add_zero]
    exact hx
  | cons l ls ih =>
    rw [refLayers] at h
    obtain ⟨s, hs, h⟩ := Outcome.bind_eq_ok h
    unfold refLayer at hs
    obtain ⟨a, ha, hs⟩ := Outcome.bind_eq_ok hs
    obtain ⟨f, hf, hs⟩ := Outcome.bind_eq_ok hs
    cases hs
    have hafter : RowsWithin (2 * b + c) a.2 := by
      refine refPass_within heps hb hc (fun xs r hr => ?_) hx ha
      exact hattn _ _ _ _ (Outcome.eq_some_of_ok hr)
    have hlayer : RowsWithin (2 * b + (2 * b + c)) f.2 := by
      refine refPass_within heps hb (by linarith) (fun xs r hr => ?_) hafter hf
      obtain ⟨out, hout, hr⟩ := Outcome.bind_eq_ok hr
      cases hr
      exact hmoe _ _ _ hout
    have hrest := ih (by linarith) hlayer h
    rw [List.length_cons, Nat.cast_succ]
    intro row hrow v hv
    have := hrest row hrow v hv
    linarith

/-- Where no embedding has an entry above `e` and no sublayer puts out one above `b`, the
forward of a model of `L` layers has none above `hc * (1 + eps) * (e + 4 * b * L)`. -/
theorem stream_bounded (m : HcMath α) {cfg : HcConfig α} (heps : 0 ≤ cfg.hcEps)
    {sub : Sublayers ε σ α} {layers : List (HcLayer α)} {head : HeadWeights α}
    {embedRow : Int → Option (List α)} {e b : α} (he : 0 ≤ e) (hb : 0 ≤ b)
    (hembed : ∀ tok row, embedRow tok = some row → Within e row)
    (hattn : ∀ li kv xs r, sub.attention li kv xs = some r → RowsWithin b r.2)
    (hmoe : ∀ li xs out, sub.moe li xs = .ok out → RowsWithin b out) {kv : σ} {ids : List Int}
    {r : σ × List (List α)}
    (h : dsv4Forward m cfg sub layers head embedRow kv ids = .ok r) :
    RowsWithin (cfg.hcMult * ((1 + cfg.hcEps) * (e + 4 * b * layers.length))) r.2 := by
  rw [dsv4Forward_eq] at h
  unfold refForward at h
  obtain ⟨es, hes, h⟩ := Outcome.bind_eq_ok h
  obtain ⟨s, hs, h⟩ := Outcome.bind_eq_ok h
  obtain ⟨out, hout, h⟩ := Outcome.bind_eq_ok h
  cases h
  have hrows : RowsWithin e (es.map fun e => (List.replicate cfg.hcMult e).flatten) := by
    intro row hrow v hv
    obtain ⟨e', he', rfl⟩ := List.mem_map.mp hrow
    obtain ⟨tok, -, htok⟩ := (of_mapM (Outcome.eq_some_of_ok hes)).2 e' he'
    obtain ⟨copy, hcopy, hv⟩ := List.mem_flatten.mp hv
    rw [List.eq_of_mem_replicate hcopy] at hv
    exact hembed tok e' htok v hv
  have hstream := refLayers_within heps hb he hattn hmoe hrows hs
  have hsum : 0 ≤ e + 4 * b * layers.length := by positivity
  intro row hrow
  obtain ⟨stream, hmem, hhead⟩ := (of_mapM (Outcome.eq_some_of_ok hout)).2 row hrow
  exact hcHead_within heps hsum (hstream stream hmem) hhead

end

/-- One copy of one number. -/
def unitConfig : HcConfig ℚ := ⟨1, 1, 1, 0, 1 / 2⟩

theorem unitExp_nonneg (_ : ℚ) : (0 : ℚ) ≤ 1 := zero_le_one

/-- `exp` at 0 and `sqrt` at 1, where they are asked. -/
def unitMath : HcMath ℚ := ⟨fun _ => 1, id, unitExp_nonneg⟩

def unitWeights : HcWeights ℚ := ⟨[0, 0, 0], [0, 0, 0], [0, 0, 0]⟩

def unitSub : Sublayers Unit Unit ℚ :=
  ⟨fun _ _ xs => some ((), xs.map fun _ => [1 / 4]), fun _ xs => .ok (xs.map fun _ => [1 / 4])⟩

/-- A token through a layer. -/
theorem stream_oneToken :
    RowsWithin (1 * ((1 + 1 / 2) * (1 + 4 * (1 / 4) * 1))) [[(1 : ℚ)]] := by
  have hrows : ∀ xs : List (List ℚ), RowsWithin (1 / 4) (xs.map fun _ => [(1 / 4 : ℚ)]) := by
    intro xs row hrow v hv
    obtain ⟨_, -, rfl⟩ := List.mem_map.mp hrow
    rw [List.mem_singleton.mp hv]
    norm_num
  have hrun : dsv4Forward unitMath unitConfig unitSub
      [⟨unitWeights, unitWeights, [1], [1]⟩] ⟨[0], 0, [0]⟩ (fun _ => some [1]) () [7] =
        .ok ((), [[1]]) := by decide +kernel
  have hall := stream_bounded unitMath (e := 1) (b := 1 / 4) (by norm_num [unitConfig])
    zero_le_one (by norm_num)
    (fun _ row h v hv => by
      cases h
      rw [List.mem_singleton.mp hv, abs_one])
    (fun _ _ xs r h => by
      cases h
      exact hrows xs)
    (fun _ xs out h => by
      cases h
      exact hrows xs) hrun
  simpa [unitConfig] using hall

end Colibri.HyperConn
