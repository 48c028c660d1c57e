import Mathlib.Algebra.BigOperators.Group.List.Basic
import Mathlib.Algebra.Order.Ring.Nat
import Mathlib.Data.List.Induction
import Colibri.Lib.Batch

/-!
# Kimi's attention residual

A sublayer of the Kimi-K3 stack reads a mix of an accumulator and of the blocks saved so far,
and its output goes into the accumulator. At every `bs`-th layer the accumulator is saved as a
block and closed: the next output replaces it.

`AttnResState` closes it with a flag and leaves the old value in place. `Reference` is what that
stands for: there a closed accumulator has no value, and to read one is an error. The stack runs
as the reference does (`forward_refines`), so nothing is read of a block that is closed, and what
goes in is all there at the end, each block as it was when its layer began (`runLayers_kept`).

The buffers of a pass have one length, and are added entry by entry: here they are of any type
with a sum. The mixes, the mixers and the FFNs are parameters.

* `layer_refines` and `layers_refine`: a layer entered with an open accumulator leaves one open.
* `run_total`: a layer adds its outputs to the sum of blocks and accumulator, whether it saves a
  block or not.
* `attnRes_exact` puts both together, for every number of layers and every `bs`.
-/

namespace Colibri.Forward.Kimi

open Batch

/-! ## The state -/

/-- `AttnResState`; `new` asserts the bound. -/
structure AttnResState (V : Type) where
  prefixSum : V
  blocks : List V
  havePrefix : Bool
  bs : Nat
  bs_pos : 0 < bs

section

variable {V : Type}

def AttnResState.new (embeddings : V) (bs : Nat) (h : 0 < bs) : AttnResState V :=
  ⟨embeddings, [], true, bs, h⟩

def AttnResState.maybeSnapshot (st : AttnResState V) (li : Nat) : AttnResState V :=
  if li % st.bs = 0 then
    { st with blocks := st.blocks ++ [st.prefixSum], havePrefix := false }
  else st

def AttnResState.accumulate [Add V] (st : AttnResState V) (out : V) : AttnResState V :=
  if st.havePrefix then { st with prefixSum := st.prefixSum + out }
  else { st with prefixSum := out, havePrefix := true }

end

/-! ## The stack -/

/-- A layer: the two mixes, the mixer with the cache it keeps, and the FFN. -/
structure KimiLayer (V K ε : Type) where
  attnRes : V → List V → V
  mixer : K → V → V × K
  mlpRes : V → List V → V
  ffn : V → Except ε V

/-- What goes from layer to layer. -/
structure Pass (V K : Type) where
  st : AttnResState V
  kv : K

section

variable {V K ε : Type} [Add V]

/-- One layer. What its two sublayers put out is returned too. -/
def KimiLayer.run (l : KimiLayer V K ε) (li : Nat) (p : Pass V K) :
    Except ε (Pass V K × V × V) :=
  let h := l.attnRes p.st.prefixSum p.st.blocks
  let st := p.st.maybeSnapshot li
  let mixed := l.mixer p.kv h
  let st := st.accumulate mixed.1
  let h := l.mlpRes st.prefixSum st.blocks
  match l.ffn h with
  | .error e => .error e
  | .ok out => .ok (⟨st.accumulate out, mixed.2⟩, mixed.1, out)

/-- The loop over the layers, from layer `li` on. -/
def runLayers : Nat → List (KimiLayer V K ε) → Pass V K → Except ε (Pass V K × List (V × V))
  | _, [], p => .ok (p, [])
  | li, l :: layers, p =>
    match l.run li p with
    | .error e => .error e
    | .ok (p, out) =>
      match runLayers (li + 1) layers p with
      | .error e => .error e
      | .ok (p, outs) => .ok (p, out :: outs)

/-- `kimi_forward`, from the embeddings on. -/
def kimiForward (layers : List (KimiLayer V K ε)) (outputAttnRes : V → List V → V)
    (embeddings : V) (bs : Nat) (hbs : 0 < bs) (kv : K) : Except ε (V × K) :=
  match runLayers 0 layers ⟨.new embeddings bs hbs, kv⟩ with
  | .error e => .error e
  | .ok (p, _) => .ok (outputAttnRes p.st.prefixSum p.st.blocks, p.kv)

end

/-! ## The reference -/

/-- The state as the reference has it: a closed accumulator has no value. -/
structure Reference (V : Type) where
  prefixSum : Option V
  blocks : List V

section

variable {V K ε : Type}

/-- A read of the accumulator; there is no going on without one. -/
def Reference.mix (r : Reference V) (f : V → List V → V) : Outcome ε V :=
  match r.prefixSum with
  | none => .panic
  | some v => .ok (f v r.blocks)

/-- At a boundary the accumulator is saved and closed. -/
def Reference.snapshot (r : Reference V) (bs li : Nat) : Outcome ε (Reference V) :=
  if li % bs = 0 then
    match r.prefixSum with
    | none => .panic
    | some v => .ok ⟨none, r.blocks ++ [v]⟩
  else .ok r

/-- An output is added to an open accumulator, and opens a closed one. -/
def Reference.accumulate [Add V] (r : Reference V) (out : V) : Reference V :=
  ⟨some (match r.prefixSum with
    | none => out
    | some v => v + out), r.blocks⟩

variable [Add V]

/-- A layer of the reference. -/
def Reference.layer (bs li : Nat) (l : KimiLayer V K ε) (s : Reference V × K) :
    Outcome ε (Reference V × K) := do
  let h ← s.1.mix l.attnRes
  let r ← s.1.snapshot bs li
  let mixed := l.mixer s.2 h
  let r := r.accumulate mixed.1
  let h ← r.mix l.mlpRes
  let out ← Outcome.ofExcept (l.ffn h)
  pure (r.accumulate out, mixed.2)

def Reference.layers (bs : Nat) : Nat → List (KimiLayer V K ε) → Reference V × K →
    Outcome ε (Reference V × K)
  | _, [], s => .ok s
  | li, l :: rest, s => do
    let s ← Reference.layer bs li l s
    Reference.layers bs (li + 1) rest s

def Reference.forward (layers : List (KimiLayer V K ε)) (outputAttnRes : V → List V → V)
    (embeddings : V) (bs : Nat) (kv : K) : Outcome ε (V × K) := do
  let s ← Reference.layers bs 0 layers (⟨some embeddings, []⟩, kv)
  let out ← s.1.mix outputAttnRes
  pure (out, s.2)

end

/-! ## The stack runs as the reference -/

section

variable {V K ε : Type}

/-- What the flag stands for. -/
def AttnResState.view (st : AttnResState V) : Reference V :=
  ⟨if st.havePrefix then some st.prefixSum else none, st.blocks⟩

theorem mix_view {st : AttnResState V} (h : st.havePrefix = true) (f : V → List V → V) :
    st.view.mix f = (.ok (f st.prefixSum st.blocks) : Outcome ε V) := by
  unfold AttnResState.view Reference.mix
  rw [if_pos h]

theorem snapshot_view {st : AttnResState V} (h : st.havePrefix = true) (li : Nat) :
    st.view.snapshot st.bs li = (.ok (st.maybeSnapshot li).view : Outcome ε (Reference V)) := by
  unfold AttnResState.view Reference.snapshot AttnResState.maybeSnapshot
  rw [if_pos h]
  split
  next => rfl
  next => simp

@[simp] theorem bs_maybeSnapshot (st : AttnResState V) (li : Nat) :
    (st.maybeSnapshot li).bs = st.bs := by
  unfold AttnResState.maybeSnapshot
  split <;> rfl

theorem blocks_maybeSnapshot (st : AttnResState V) (li : Nat) : (st.maybeSnapshot li).blocks =
    if li % st.bs = 0 then st.blocks ++ [st.prefixSum] else st.blocks := by
  unfold AttnResState.maybeSnapshot
  split <;> rfl

variable [Add V]

theorem accumulate_view (st : AttnResState V) (out : V) :
    st.view.accumulate out = (st.accumulate out).view := by
  unfold AttnResState.view Reference.accumulate AttnResState.accumulate
  cases h : st.havePrefix with
  | true => simp
  | false => simp

@[simp] theorem bs_accumulate (st : AttnResState V) (out : V) :
    (st.accumulate out).bs = st.bs := by
  unfold AttnResState.accumulate
  split <;> rfl

theorem havePrefix_accumulate (st : AttnResState V) (out : V) :
    (st.accumulate out).havePrefix = true := by
  unfold AttnResState.accumulate
  split
  next h => exact h
  next => rfl

theorem run_open {l : KimiLayer V K ε} {li : Nat} {p q : Pass V K} {out : V × V}
    (h : l.run li p = .ok (q, out)) : q.st.havePrefix = true ∧ q.st.bs = p.st.bs := by
  unfold KimiLayer.run at h
  dsimp only at h
  split at h
  · cases h
  · cases h
    exact ⟨havePrefix_accumulate _ _, by simp⟩

/-- A layer that is entered with an open accumulator reads no closed one. -/
theorem layer_refines {p : Pass V K} (hp : p.st.havePrefix = true) (l : KimiLayer V K ε)
    (li : Nat) : Reference.layer p.st.bs li l (p.st.view, p.kv) =
      match l.run li p with
      | .error e => .error e
      | .ok r => .ok (r.1.st.view, r.1.kv) := by
  unfold Reference.layer KimiLayer.run
  dsimp only
  rw [mix_view hp, Outcome.ok_bind, snapshot_view hp, Outcome.ok_bind, accumulate_view,
    mix_view (havePrefix_accumulate _ _), Outcome.ok_bind]
  cases l.ffn _ with
  | error e => rfl
  | ok out =>
    rw [Outcome.ofExcept, Outcome.ok_bind, accumulate_view]
    rfl

/-- The stack runs as the reference does, by induction on the layers. -/
theorem layers_refine (layers : List (KimiLayer V K ε)) (li : Nat) {p : Pass V K}
    (hp : p.st.havePrefix = true) :
    match runLayers li layers p with
    | .error e => Reference.layers p.st.bs li layers (p.st.view, p.kv) = .error e
    | .ok r => Reference.layers p.st.bs li layers (p.st.view, p.kv) = .ok (r.1.st.view, r.1.kv) ∧
        r.1.st.havePrefix = true := by
  induction layers generalizing li p with
  | nil => exact ⟨rfl, hp⟩
  | cons l layers ih =>
    rw [runLayers, Reference.layers, layer_refines hp]
    cases hrun : l.run li p with
    | error e => rfl
    | ok r =>
      have hrun' : l.run li p = .ok (r.1, r.2) := hrun
      obtain ⟨hopen, hbs⟩ := run_open hrun'
      have hrest := ih (li + 1) hopen
      dsimp only
      rw [Outcome.ok_bind, ← hbs]
      revert hrest
      cases runLayers (li + 1) layers r.1 with
      | error e => exact id
      | ok r' => exact id

/-- **A closed accumulator is never read**: the pass is the reference's. -/
theorem forward_refines (layers : List (KimiLayer V K ε)) (outputAttnRes : V → List V → V)
    (embeddings : V) (bs : Nat) (hbs : 0 < bs) (kv : K) :
    Reference.forward layers outputAttnRes embeddings bs kv =
      Outcome.ofExcept (kimiForward layers outputAttnRes embeddings bs hbs kv) := by
  have hlayers := layers_refine layers 0 (p := ⟨AttnResState.new embeddings bs hbs, kv⟩) rfl
  have hstart : (AttnResState.new embeddings bs hbs).view = ⟨some embeddings, []⟩ := rfl
  unfold Reference.forward kimiForward
  revert hlayers
  dsimp only
  rw [hstart]
  cases runLayers 0 layers ⟨AttnResState.new embeddings bs hbs, kv⟩ with
  | error e =>
    intro h
    have hbs' : (AttnResState.new embeddings bs hbs).bs = bs := rfl
    rw [hbs'] at h
    rw [h]
    rfl
  | ok r =>
    rintro ⟨h, hopen⟩
    have hbs' : (AttnResState.new embeddings bs hbs).bs = bs := rfl
    rw [hbs'] at h
    rw [h, Outcome.ok_bind, mix_view hopen]
    rfl

end

/-! ## Nothing is lost -/

section

variable {V K ε : Type} [AddCommMonoid V]

/-- What is in the blocks and, where it is open, in the accumulator. -/
def AttnResState.total (st : AttnResState V) : V :=
  st.blocks.sum + if st.havePrefix then st.prefixSum else 0

theorem total_maybeSnapshot {st : AttnResState V} (h : st.havePrefix = true) (li : Nat) :
    (st.maybeSnapshot li).total = st.total := by
  unfold AttnResState.maybeSnapshot AttnResState.total
  split
  next =>
    dsimp only
    rw [if_neg Bool.false_ne_true, List.sum_append, List.sum_singleton, add_zero]
  next => rfl

theorem total_accumulate (st : AttnResState V) (out : V) :
    (st.accumulate out).total = st.total + out := by
  unfold AttnResState.accumulate AttnResState.total
  split
  next h =>
    dsimp only
    rw [add_assoc]
  next h =>
    dsimp only
    rw [if_pos rfl, add_zero]

@[simp] theorem blocks_accumulate (st : AttnResState V) (out : V) :
    (st.accumulate out).blocks = st.blocks := by
  unfold AttnResState.accumulate
  split <;> rfl

theorem run_blocks {l : KimiLayer V K ε} {li : Nat} {p q : Pass V K} {out : V × V}
    (h : l.run li p = .ok (q, out)) : q.st.blocks = (p.st.maybeSnapshot li).blocks := by
  unfold KimiLayer.run at h
  dsimp only at h
  split at h
  · cases h
  · cases h
    simp

theorem run_total {l : KimiLayer V K ε} {li : Nat} {p q : Pass V K} {out : V × V}
    (hp : p.st.havePrefix = true) (h : l.run li p = .ok (q, out)) :
    q.st.total = p.st.total + (out.1 + out.2) := by
  unfold KimiLayer.run at h
  dsimp only at h
  split at h
  · cases h
  · cases h
    dsimp only
    rw [total_accumulate, total_accumulate, total_maybeSnapshot hp, add_assoc]

/-- The last layer of a run. -/
theorem runLayers_concat {layers : List (KimiLayer V K ε)} {l : KimiLayer V K ε} {li : Nat}
    {p r : Pass V K} {outs : List (V × V)}
    (h : runLayers li (layers ++ [l]) p = .ok (r, outs)) :
    ∃ q os out, runLayers li layers p = .ok (q, os) ∧
      l.run (li + layers.length) q = .ok (r, out) ∧ outs = os ++ [out] := by
  induction layers generalizing li p outs with
  | nil =>
    rw [List.nil_append, runLayers] at h
    split at h
    next => cases h
    next q out hrun =>
      cases h
      exact ⟨p, [], out, rfl, hrun, rfl⟩
  | cons l' layers ih =>
    rw [List.cons_append, runLayers] at h
    split at h
    next => cases h
    next q out hrun =>
      split at h
      next => cases h
      next r' os hrest =>
        cases h
        obtain ⟨q', os', out', hlayers, hlast, rfl⟩ := ih hrest
        refine ⟨q', out :: os', out', ?_, ?_, rfl⟩
        · rw [runLayers, hrun]
          dsimp only
          rw [hlayers]
        · rw [List.length_cons, ← Nat.add_assoc, Nat.add_right_comm]
          exact hlast

/-- What a run of `layers` from `start` has kept of what went in. -/
structure Kept (start : Pass V K) (layers : List (KimiLayer V K ε)) (p : Pass V K)
    (outs : List (V × V)) : Prop where
  outs_length : outs.length = layers.length
  opened : p.st.havePrefix = true
  bs_eq : p.st.bs = start.st.bs
  count : p.st.blocks.length = (layers.length + start.st.bs - 1) / start.st.bs
  total : start.st.total + (outs.map fun o => o.1 + o.2).sum = p.st.total
  entered : ∀ b < p.st.blocks.length, ∃ q os,
    runLayers 0 (layers.take (b * start.st.bs)) start = .ok (q, os) ∧
      q.st.havePrefix = true ∧ p.st.blocks[b]? = some q.st.prefixSum

/-- How many boundaries are before layer `n`, one layer further. -/
theorem boundaries_succ {n bs : Nat} (h : 0 < bs) :
    (n + 1 + bs - 1) / bs = (n + bs - 1) / bs + if n % bs = 0 then 1 else 0 := by
  obtain ⟨q, r, hr, rfl⟩ : ∃ q r, r < bs ∧ n = bs * q + r :=
    ⟨n / bs, n % bs, Nat.mod_lt n h, (Nat.div_add_mod n bs).symm⟩
  have hsucc : bs * q + r + 1 + bs - 1 = bs * q + (r + bs) := by omega
  have hcur : bs * q + r + bs - 1 = bs * q + (r + bs - 1) := by omega
  rw [hsucc, hcur, Nat.mul_add_div h, Nat.mul_add_div h, Nat.mul_add_mod, Nat.mod_eq_of_lt hr,
    Nat.add_div_right r h, Nat.div_eq_of_lt hr]
  split
  next h0 =>
    have hprev : r + bs - 1 = bs - 1 := by omega
    rw [hprev, Nat.div_eq_of_lt (Nat.sub_lt h Nat.one_pos)]
  next h0 =>
    have hprev : r + bs - 1 = r - 1 + bs := by omega
    rw [hprev, Nat.add_div_right _ h, Nat.div_eq_of_lt (by omega), Nat.add_zero]

theorem boundary_le {n bs b : Nat} (h : 0 < bs) (hb : b < (n + bs - 1) / bs) : b * bs ≤ n := by
  have hle := (Nat.le_div_iff_mul_le h).mp hb
  rw [Nat.succ_mul] at hle
  omega

theorem boundary_eq {n bs : Nat} (h : 0 < bs) (hn : n % bs = 0) :
    (n + bs - 1) / bs * bs = n := by
  obtain ⟨q, rfl⟩ := Nat.dvd_of_mod_eq_zero hn
  have hcur : bs * q + bs - 1 = bs * q + (bs - 1) := by omega
  rw [hcur, Nat.mul_add_div h, Nat.div_eq_of_lt (Nat.sub_lt h Nat.one_pos), Nat.add_zero,
    Nat.mul_comm]

/-- **What goes into a pass stays**: it has kept the embeddings and every output, in as many
blocks as there are boundaries and in an accumulator that is open. -/
theorem kept_of_run {start : Pass V K} (hstart : start.st.havePrefix = true)
    (hblocks : start.st.blocks = []) {layers : List (KimiLayer V K ε)} {p : Pass V K}
    {outs : List (V × V)} (h : runLayers 0 layers start = .ok (p, outs)) :
    Kept start layers p outs := by
  induction layers using List.reverseRecOn generalizing p outs with
  | nil =>
    cases h
    refine ⟨rfl, hstart, rfl, ?_, ?_, fun b hb => ?_⟩
    · have hnone := Nat.div_eq_of_lt (Nat.sub_lt start.st.bs_pos Nat.one_pos)
      rw [hblocks, List.length_nil, List.length_nil, Nat.zero_add, hnone]
    · rw [List.map_nil, List.sum_nil, add_zero]
    · rw [hblocks] at hb
      exact absurd hb (Nat.not_lt_zero b)
  | append_singleton layers l ih =>
    obtain ⟨q, os, out, hlayers, hlast, rfl⟩ := runLayers_concat h
    have hq := ih hlayers
    obtain ⟨hopen, hbs⟩ := run_open hlast
    have hblocks' := run_blocks hlast
    rw [Nat.zero_add] at hblocks'
    have hpos := start.st.bs_pos
    -- the layers before a boundary are the same without the last one
    have hold : ∀ b < q.st.blocks.length, ∃ q' os',
        runLayers 0 ((layers ++ [l]).take (b * start.st.bs)) start = .ok (q', os') ∧
          q'.st.havePrefix = true ∧ q.st.blocks[b]? = some q'.st.prefixSum := by
      intro b hb
      have hle := boundary_le hpos (hq.count ▸ hb)
      rw [List.take_append_of_le_length hle]
      exact hq.entered b hb
    have hcount : p.st.blocks.length =
        q.st.blocks.length + if layers.length % start.st.bs = 0 then 1 else 0 := by
      rw [hblocks', blocks_maybeSnapshot, hq.bs_eq]
      split
      next => rw [List.length_append, List.length_singleton]
      next => rfl
    refine ⟨?_, hopen, hbs.trans hq.bs_eq, ?_, ?_, fun b hb => ?_⟩
    · rw [List.length_append, List.length_append, hq.outs_length]
      rfl
    · rw [hcount, hq.count, List.length_append, List.length_singleton, boundaries_succ hpos]
    · rw [run_total hq.opened hlast, ← hq.total, List.map_append, List.sum_append,
        List.map_singleton, List.sum_singleton, add_assoc]
    · rw [hcount] at hb
      rw [hblocks', blocks_maybeSnapshot, hq.bs_eq]
      split
      next hmod =>
        rw [if_pos hmod] at hb
        rcases Nat.lt_succ_iff_lt_or_eq.mp hb with hlt | rfl
        · obtain ⟨q', os', hrun, hopen', hget⟩ := hold b hlt
          exact ⟨q', os', hrun, hopen', (List.getElem?_append_left hlt).trans hget⟩
        · -- the new block: the last layer is a boundary
          have hlast' : q.st.blocks.length * start.st.bs = layers.length := by
            rw [hq.count]
            exact boundary_eq hpos hmod
          refine ⟨q, os, ?_, hq.opened, ?_⟩
          · rw [hlast', List.take_left]
            exact hlayers
          · rw [List.getElem?_append_right (Nat.le_refl _), Nat.sub_self]
            rfl
      next hmod =>
        rw [if_neg hmod] at hb
        exact hold b hb

/-- **The accumulators of a pass are exact.** The pass is the reference's, which cannot read a
closed accumulator; after `L` layers there are `⌈L / bs⌉` blocks, they and the accumulator add
up to the embeddings and all the outputs, and block `b` is the accumulator that layer `b * bs`
was entered with. -/
theorem attnRes_exact (layers : List (KimiLayer V K ε)) (outputAttnRes : V → List V → V)
    (embeddings : V) (bs : Nat) (hbs : 0 < bs) (kv : K) :
    Reference.forward layers outputAttnRes embeddings bs kv =
        Outcome.ofExcept (kimiForward layers outputAttnRes embeddings bs hbs kv) ∧
      ∀ p outs, runLayers 0 layers ⟨.new embeddings bs hbs, kv⟩ = .ok (p, outs) →
        outs.length = layers.length ∧
        p.st.blocks.length = (layers.length + bs - 1) / bs ∧
        embeddings + (outs.map fun o => o.1 + o.2).sum =
          p.st.blocks.sum + (if p.st.havePrefix then p.st.prefixSum else 0) ∧
        ∀ b < p.st.blocks.length, ∃ q os,
          runLayers 0 (layers.take (b * bs)) ⟨.new embeddings bs hbs, kv⟩ = .ok (q, os) ∧
            q.st.havePrefix = true ∧ p.st.blocks[b]? = some q.st.prefixSum := by
  refine ⟨forward_refines layers outputAttnRes embeddings bs hbs kv, fun p outs h => ?_⟩
  have hkept := kept_of_run rfl rfl h
  refine ⟨hkept.outs_length, hkept.count, ?_, hkept.entered⟩
  have htotal := hkept.total
  have hstart : (AttnResState.new embeddings bs hbs).total = embeddings := zero_add embeddings
  rw [hstart] at htotal
  exact htotal

end

section

/-- A layer that puts out `a` and `b`, whatever it reads. -/
def fixedLayer (a b : Nat) : KimiLayer Nat Unit Unit where
  attnRes := fun v _ => v
  mixer := fun _ _ => (a, ())
  mlpRes := fun v _ => v
  ffn := fun _ => .ok b

/-- Three layers in blocks of two: the second block is not the whole stream, and the last one is
not full. -/
def threeLayers : List (KimiLayer Nat Unit Unit) :=
  [fixedLayer 1 2, fixedLayer 4 5, fixedLayer 6 7]

example : (match runLayers 0 threeLayers ⟨.new 10 2 Nat.two_pos, ()⟩ with
    | .ok r => some (r.1.st.prefixSum, r.1.st.blocks, r.2)
    | .error _ => none) = some (13, [10, 12], [(1, 2), (4, 5), (6, 7)]) := by
  rfl

theorem attnRes_exact_three :
    Reference.forward threeLayers (fun v _ => v) 10 2 () =
        Outcome.ofExcept (kimiForward threeLayers (fun v _ => v) 10 2 Nat.two_pos ()) ∧
      ∃ p outs, runLayers 0 threeLayers ⟨.new 10 2 Nat.two_pos, ()⟩ = .ok (p, outs) ∧
        outs.length = 3 ∧ p.st.blocks.length = (3 + 2 - 1) / 2 ∧
        10 + (outs.map fun o => o.1 + o.2).sum =
          p.st.blocks.sum + (if p.st.havePrefix then p.st.prefixSum else 0) ∧
        ∀ b < p.st.blocks.length, ∃ q os,
          runLayers 0 (threeLayers.take (b * 2)) ⟨.new 10 2 Nat.two_pos, ()⟩ = .ok (q, os) ∧
            q.st.havePrefix = true ∧ p.st.blocks[b]? = some q.st.prefixSum := by
  obtain ⟨hforward, hrun⟩ := attnRes_exact threeLayers (fun v _ => v) 10 2 Nat.two_pos ()
  exact ⟨hforward, _, _, rfl, hrun _ _ rfl⟩

end

end Colibri.Forward.Kimi
