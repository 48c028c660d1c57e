import Colibri.Forward.Stack

/-!
# Batched decode against lone decode

A batch of sequences, one token each, goes through the layers together; what it should
give is each sequence's own `forward`. A layer of the batch follows the layer of each
sequence (`layerForwardBatched_follows`): its attention runs per sequence on the same
arguments, and the block after it takes its rows one by one, whichever experts it shares
among them. So the batch follows (`forwardBatched_follows`), on every architecture whose
`forward` is that layer loop. DeepSeek-V4 with Hyper-Connections has another driver and,
its `layer_kind` being empty, is not refused: there the batch panics.

`forwardBatched_agrees_iff` is the result: over sequences whose lone forwards return, the batch
gives them what these give exactly if the model is not refused and is no such DeepSeek-V4. A
provider may answer or fail; the lemmas hold with either.
-/

namespace Colibri.Forward

open Batch Colibri.Attention Colibri.Moe

section

variable {α S G : Type} [Field α] [LinearOrder α] {math : RowMath α} {env : DsaEnv} {a : ActCfg α}
  {m : Model α G a} {sib : Siblings α S G}
  {model : Nat → Nat → Ffn a (asUsize m.cfg.hidden)}
  {provider : Provider (Ffn a (asUsize m.cfg.hidden))}

/-! ## The block after the attention -/

omit [Field α] [LinearOrder α] in
theorem rowsOf_byRow_flatten {d : Nat} {x : List (List α)} (hx : ∀ row ∈ x, row.length = d)
    {g : List α → List α} (hg : ∀ row, (g row).length = d) :
    rowsOf d x.length (byRow d g x.flatten x.length) = x.map g := by
  have hflat : byRow d g x.flatten x.length = x.flatMap g := by
    have h := byRow_flatMap (l := x) (g := id) hx g
    rw [List.flatMap_id] at h
    exact h
  rw [hflat]
  refine List.ext_getElem (by rw [rowsOf, List.length_map, List.length_range, List.length_map]) ?_
  intro i h₁ h₂
  rw [List.length_map] at h₂
  simp only [rowsOf, List.getElem_map, List.getElem_range]
  rw [rowOf_flatMap (fun _ _ => hg _) h₂]

/-- What the block makes of one normed row. -/
def ffnRow (math : RowMath α) (m : Model α G a) (model : Nat → Nat → Ffn a (asUsize m.cfg.hidden))
    (l : Layer α G a (asUsize m.cfg.hidden)) (li : Nat) (row : List α) : List α :=
  if l.sparse then
    moeRow math.toScoring (fun ex => ex.row math.toScalar) (l.shared.row math.toScalar)
      m.cfg.toMoeConfig
      ⟨l.router, l.routerBias, byRow (asUsize m.cfg.hidden) (l.shared.row math.toScalar)⟩ model li
      (decide (m.cfg.nShared > 0)) row
  else l.dense.row math.toScalar row

theorem ffnRow_length (l : Layer α G a (asUsize m.cfg.hidden)) (li : Nat) (row : List α) :
    (ffnRow math m model l li row).length = asUsize m.cfg.hidden := by
  unfold ffnRow
  split
  · rw [moeRow, List.length_map, List.length_range]
  · exact l.dense.row_length _ _

variable (math) in
/-- **The block takes its rows one by one**, where it does not report an error. -/
theorem ffnBlock_rows (hserves : Serves provider model) (l : Layer α G a (asUsize m.cfg.hidden))
    (li : Nat) {nrm : List (List α)} (hnrm : ∀ row ∈ nrm, row.length = asUsize m.cfg.hidden) :
    ffnBlock math m provider l li nrm = .ok (nrm.map (ffnRow math m model l li)) ∨
      ∃ e, ffnBlock math m provider l li nrm = .error e := by
  have hlen : nrm.flatten.length = nrm.length * asUsize m.cfg.hidden := by
    have h := length_flatMap_rows (l := nrm) (g := id) hnrm
    rw [List.flatMap_id] at h
    exact h
  unfold ffnBlock
  cases hsparse : l.sparse with
  | false =>
    refine Or.inl ?_
    rw [if_neg Bool.false_ne_true, rowsOf_byRow_flatten hnrm fun row => l.dense.row_length _ row]
    congr 2
    funext row
    rw [ffnRow, hsparse, if_neg Bool.false_ne_true]
  | true =>
    rw [if_pos rfl]
    dsimp only
    split
    next out hout =>
      have hrows := moe_eq (l.shared.row math.toScalar) hserves
        (fun ex row => ex.row_length _ row) (fun _ _ => rfl) (l.shared.row_length _) hlen hout
      refine Or.inl ?_
      have hg : ∀ row, (ffnRow math m model l li row).length = asUsize m.cfg.hidden :=
        ffnRow_length l li
      have hmoe : moeRow math.toScoring (fun ex : Ffn a (asUsize m.cfg.hidden) =>
          ex.row math.toScalar) (l.shared.row math.toScalar) m.cfg.toMoeConfig
          ⟨l.router, l.routerBias, byRow (asUsize m.cfg.hidden) (l.shared.row math.toScalar)⟩
          model li (decide (m.cfg.nShared > 0)) = ffnRow math m model l li := by
        funext row
        rw [ffnRow, hsparse, if_pos rfl]
      rw [hrows, hmoe, rowsOf_byRow_flatten hnrm hg]
    next e _ => exact Or.inr ⟨_, rfl⟩

variable (math model) in
/-- A provider of every expert lets the block return. -/
theorem ffnBlock_all (l : Layer α G a (asUsize m.cfg.hidden)) (li : Nat) {nrm : List (List α)}
    (hnrm : ∀ row ∈ nrm, row.length = asUsize m.cfg.hidden) :
    ffnBlock math m (Provider.all model) l li nrm = .ok (nrm.map (ffnRow math m model l li)) := by
  rcases ffnBlock_rows math (Provider.all_serves model) l li hnrm with h | ⟨e, h⟩
  · exact h
  · exfalso
    unfold ffnBlock at h
    split at h
    · dsimp only at h
      split at h
      · cases h
      next e' hmoe =>
        unfold moe at hmoe
        rw [Option.filter_none] at hmoe
        dsimp only at hmoe
        split at hmoe
        next e'' hc =>
          exact Provider.all_not_refuses (computeExpertsPartialInto_error_iff.mp ⟨_, hc⟩)
        · cases hmoe
    · cases h

/-! ## A layer -/

/-- A layer of one sequence alone: its attention, then the block on its row. -/
def decodeLayer (math : RowMath α) (env : DsaEnv) (m : Model α G a) (sib : Siblings α S G)
    (model : Nat → Nat → Ffn a (asUsize m.cfg.hidden)) (q : SeqState α S)
    (l : (Checkpoint α × Layer α G a (asUsize m.cfg.hidden)) × Nat) :
    Outcome ForwardError (SeqState α S) := do
  let q ← attendBatched math env m sib l.1.2 l.2 q
  pure (q.add (ffnRow math m model l.1.2 l.2 (math.rmsnorm q.x l.1.2.postLn m.cfg.eps)))

omit [LinearOrder α] in
theorem addRow_length (x tmp : List α) : (addRow x tmp).length = x.length := List.length_mapIdx

/-- The attention keeps a row's length and the sequence's position. -/
theorem attendBatched_keeps {l : Layer α G a (asUsize m.cfg.hidden)} {li : Nat}
    {q q' : SeqState α S} (h : attendBatched math env m sib l li q = .ok q') :
    q'.x.length = q.x.length ∧ q'.position = q.position := by
  simp only [attendBatched] at h
  obtain ⟨res, _, h⟩ := Outcome.bind_eq_ok h
  cases h
  exact ⟨addRow_length _ _, rfl⟩

theorem decodeLayer_keeps {l : (Checkpoint α × Layer α G a (asUsize m.cfg.hidden)) × Nat}
    {q q' : SeqState α S} (h : decodeLayer math env m sib model q l = .ok q') :
    q'.x.length = q.x.length ∧ q'.position = q.position := by
  obtain ⟨q₁, h₁, h⟩ := Outcome.bind_eq_ok h
  cases h
  obtain ⟨hlen, hpos⟩ := attendBatched_keeps h₁
  exact ⟨(addRow_length _ _).trans hlen, hpos⟩

/-- **A layer of the batch follows each sequence's own.** -/
theorem layerForwardBatched_follows (hserves : Serves provider model)
    (l : (Checkpoint α × Layer α G a (asUsize m.cfg.hidden)) × Nat) {seqs : List (SeqState α S)}
    (hlen : ∀ q ∈ seqs, q.x.length = asUsize m.cfg.hidden) :
    Follows (layerForwardBatched math env m sib provider seqs l)
      (fun q => decodeLayer math env m sib model q l) seqs := by
  refine Follows.bind (follows_mapM _ seqs) fun ys hys => ?_
  have hys' : ∀ q ∈ ys, q.x.length = asUsize m.cfg.hidden := by
    intro q hq
    obtain ⟨q₀, hq₀, hatt⟩ := exists_left hys hq
    exact (attendBatched_keeps hatt).1.trans (hlen q₀ hq₀)
  have hnrm : ∀ row ∈ ys.map (fun q => math.rmsnorm q.x l.1.2.postLn m.cfg.eps),
      row.length = asUsize m.cfg.hidden := by
    intro row hrow
    obtain ⟨q, hq, rfl⟩ := List.mem_map.mp hrow
    exact (math.rmsnorm_length _ _ _).trans (hys' q hq)
  dsimp only
  rcases ffnBlock_rows math hserves l.1.2 l.2 hnrm with h | ⟨e, h⟩
  · rw [h, Outcome.ok_bind, List.map_map]
    have hrow : ∀ si, ∀ q : SeqState α S, ys[si]? = some q →
        (ys.map (ffnRow math m model l.1.2 l.2 ∘
          fun q => math.rmsnorm q.x l.1.2.postLn m.cfg.eps)).getD si []
          = ffnRow math m model l.1.2 l.2 (math.rmsnorm q.x l.1.2.postLn m.cfg.eps) := by
      intro si q hq
      rw [List.getD_eq_getElem?_getD, List.getElem?_map, hq]
      rfl
    have hmap : (ys.mapIdx fun si q => q.add ((ys.map (ffnRow math m model l.1.2 l.2 ∘
          fun q => math.rmsnorm q.x l.1.2.postLn m.cfg.eps)).getD si []))
        = ys.map fun q =>
            q.add (ffnRow math m model l.1.2 l.2 (math.rmsnorm q.x l.1.2.postLn m.cfg.eps)) := by
      refine List.ext_getElem? fun i => ?_
      rw [List.getElem?_mapIdx, List.getElem?_map]
      cases hq : ys[i]? with
      | none => rfl
      | some q =>
        rw [Option.map_some, Option.map_some, hrow i q hq]
    exact hmap ▸ follows_map _ ys
  · rw [h, Outcome.error_bind]
    trivial

/-- Both drivers pick the same attention for one row, and with one row there is never a
selection to carry. -/
theorem attendLayer_one {l : Layer α G a (asUsize m.cfg.hidden)} {li posBase : Nat}
    {nrm : List α} {x : List (List α)} {kv : KvCache α S} :
    attendLayer math env m sib l li posBase [nrm] ⟨x, kv, none⟩
      = (attentionBatched math env m sib l li nrm kv posBase).map
          (fun r => (r.1, r.2, none)) := by
  unfold attendLayer attentionBatched
  split
  · rfl
  · dsimp only
    rw [ite_self, Option.map_map]
    cases hatt : attentionWith math env m.cfg l.mla li kv [nrm] posBase none with
    | none => rfl
    | some r =>
      obtain ⟨out, kv', computed⟩ := r
      rw [attentionWith_one hatt, Option.map_some, Option.map_some, Function.comp_apply, ite_self]

/-- On a transformer architecture a lone layer over one row is `decodeLayer`: with one
row there is never a selection to carry. -/
theorem layerForward_one (hnem : m.cfg.arch ≠ .nemotronH) (hkimi : m.cfg.arch ≠ .kimiK3)
    {q : SeqState α S} (hlen : q.x.length = asUsize m.cfg.hidden)
    (l : (Checkpoint α × Layer α G a (asUsize m.cfg.hidden)) × Nat) :
    layerForward math env m sib (Provider.all model) q.position ⟨[q.x], q.kv, none⟩ l
      = (decodeLayer math env m sib model q l >>= fun q' => .ok ⟨[q'.x], q'.kv, none⟩) := by
  unfold layerForward decodeLayer attendBatched
  dsimp only
  rw [if_neg hnem, if_neg hkimi, List.map_singleton, attendLayer_one]
  cases hatt : attentionBatched math env m sib l.1.2 l.2
      (math.rmsnorm q.x l.1.2.inLn m.cfg.eps) q.kv q.position with
  | none => rfl
  | some r =>
    have hnrm : ∀ row ∈ [math.rmsnorm (addRow q.x (r.1.getD 0 [])) l.1.2.postLn m.cfg.eps],
        row.length = asUsize m.cfg.hidden := by
      intro row hrow
      rw [List.mem_singleton] at hrow
      rw [hrow, math.rmsnorm_length, addRow_length, hlen]
    have hffn := ffnBlock_all math model l.1.2 l.2 hnrm
    show (ffnBlock math m (Provider.all model) l.1.2 l.2
        [math.rmsnorm (addRow q.x (r.1.getD 0 [])) l.1.2.postLn m.cfg.eps] >>= _) = _
    rw [hffn]
    rfl

/-! ## A run -/

/-- One sequence alone, from its embedding through the layers. -/
def decode (math : RowMath α) (env : DsaEnv) (m : Model α G a) (sib : Siblings α S G)
    (model : Nat → Nat → Ffn a (asUsize m.cfg.hidden)) (q : SeqIn α S) :
    Outcome ForwardError (SeqState α S) := do
  let x ← Outcome.ofOption (embedRow m q.id)
  m.layers.zipIdx.foldlM (decodeLayer math env m sib model) ⟨x, q.kv, q.position⟩

variable (math env sib model) in
theorem layers_one (hnem : m.cfg.arch ≠ .nemotronH) (hkimi : m.cfg.arch ≠ .kimiK3)
    (layers : List ((Checkpoint α × Layer α G a (asUsize m.cfg.hidden)) × Nat))
    {q : SeqState α S} (hlen : q.x.length = asUsize m.cfg.hidden) :
    layers.foldlM (layerForward math env m sib (Provider.all model) q.position)
        ⟨[q.x], q.kv, none⟩
      = (layers.foldlM (decodeLayer math env m sib model) q >>=
          fun q' => .ok ⟨[q'.x], q'.kv, none⟩) := by
  induction layers generalizing q with
  | nil => rfl
  | cons l layers ih =>
    rw [List.foldlM_cons, List.foldlM_cons, layerForward_one hnem hkimi hlen]
    cases hl : decodeLayer math env m sib model q l with
    | error e => rfl
    | panic => rfl
    | ok q' =>
      obtain ⟨hlen', hpos⟩ := decodeLayer_keeps hl
      have hrest := ih (q := q') (hlen'.trans hlen)
      rw [hpos] at hrest
      rw [Outcome.ok_bind, Outcome.ok_bind, Outcome.ok_bind]
      exact hrest

omit [Field α] [LinearOrder α] in
theorem embedRow_length {tok : Int} {x : List α} (h : embedRow m tok = some x) :
    x.length = asUsize m.cfg.hidden :=
  m.embed_length x (List.mem_of_getElem? h)

/-- `forward` of one sequence's token: its hidden row and the cache it leaves. -/
def loneForward (math : RowMath α) (env : DsaEnv) (m : Model α G a) (sib : Siblings α S G)
    (model : Nat → Nat → Ffn a (asUsize m.cfg.hidden)) (q : SeqIn α S) :
    Outcome ForwardError (List α × KvCache α S) := do
  let (hidden, kv) ← forward math env m sib (Provider.all model) q.kv [q.id] q.position
  pure (hidden.headD [], kv)

/-- `forward` leaves these two architectures, and DeepSeek-V4 with Hyper-Connections, to
drivers of their own. -/
def OwnDriver (cfg : StackConfig α) : Prop :=
  cfg.arch = .kimiK3 ∨ cfg.arch = .nemotronH ∨ (cfg.arch = .deepseekV4 ∧ cfg.hcMult > 0)

variable (math env sib model) in
theorem loneForward_eq (hown : ¬ OwnDriver m.cfg) (q : SeqIn α S) :
    loneForward math env m sib model q
      = (decode math env m sib model q >>= fun q' => .ok (q'.x, q'.kv)) := by
  have hkimi : m.cfg.arch ≠ .kimiK3 := fun h => hown (Or.inl h)
  have hnem : m.cfg.arch ≠ .nemotronH := fun h => hown (Or.inr (Or.inl h))
  have hv4 : ¬ (m.cfg.arch = .deepseekV4 ∧ m.cfg.hcMult > 0) := fun h => hown (Or.inr (Or.inr h))
  unfold loneForward forward decode
  rw [if_neg hkimi, if_neg hv4, List.mapM_cons, List.mapM_nil]
  cases hx : embedRow m q.id with
  | none => rfl
  | some x =>
    have hrun := layers_one math env sib model hnem hkimi
      m.layers.zipIdx (q := ⟨x, q.kv, q.position⟩) (embedRow_length hx)
    show ((m.layers.zipIdx.foldlM _ (⟨[x], q.kv, none⟩ : Carry α S) >>= _) >>= _) = _
    rw [hrun]
    show _ = ((m.layers.zipIdx.foldlM _ (⟨x, q.kv, q.position⟩ : SeqState α S)) >>= _)
    cases m.layers.zipIdx.foldlM (decodeLayer math env m sib model)
        (⟨x, q.kv, q.position⟩ : SeqState α S) <;> rfl

omit [Field α] [LinearOrder α] in
/-- A configuration with drivers of their own for its layers is refused, DeepSeek-V4's
apart. -/
theorem not_ownDriver (hv4 : ¬ (m.cfg.arch = .deepseekV4 ∧ m.cfg.hcMult > 0))
    (hkind : m.cfg.layerKind = []) : ¬ OwnDriver m.cfg := by
  have hacc := m.accepts
  intro hown
  rcases hown with harch | harch | h
  · rw [accepted, harch, hkind] at hacc
    obtain ⟨hlo, hhi, hlen⟩ := hacc
    have hpos := asUsize_pos hlo (by omega)
    rw [← hlen, List.length_nil] at hpos
    exact absurd hpos (Nat.lt_irrefl 0)
  · rw [accepted, harch, hkind] at hacc
    obtain ⟨hlo, hhi, hlen⟩ := hacc
    have hpos := asUsize_pos hlo (by omega)
    rw [← hlen, List.length_nil] at hpos
    exact absurd hpos (Nat.lt_irrefl 0)
  · exact hv4 h

variable (math env sib) in
/-- Where the batch is not refused, it follows the layer loop of each sequence. -/
theorem forwardBatched_follows_decode (hserves : Serves provider model) (seqs : List (SeqIn α S)) :
    Follows (forwardBatched math env m sib provider seqs)
      (fun q => decode math env m sib model q >>= fun q' => .ok (q'.x, q'.kv)) seqs := by
  unfold forwardBatched
  split
  · trivial
  · -- the lone run, stage by stage as the batch goes
    have hstages : (fun q => decode math env m sib model q >>= fun q' => .ok (q'.x, q'.kv))
        = fun q => (Outcome.ofOption (embedRow m q.id) >>= fun x =>
          pure (⟨x, q.kv, q.position⟩ : SeqState α S)) >>= fun q =>
        (m.layers.zipIdx.foldlM (decodeLayer math env m sib model) q) >>= fun q =>
        .ok (q.x, q.kv) := by
      funext q
      rw [decode]
      cases embedRow m q.id <;> rfl
    rw [hstages]
    refine Follows.bind (follows_mapM _ seqs) fun ys hys => ?_
    have hlen : ∀ q ∈ ys, q.x.length = asUsize m.cfg.hidden := by
      intro q hq
      obtain ⟨q₀, _, hembed⟩ := exists_left hys hq
      obtain ⟨x, hx, hq⟩ := Outcome.bind_eq_ok hembed
      cases hrow : embedRow m q₀.id with
      | none =>
        rw [hrow] at hx
        cases hx
      | some x' =>
        rw [hrow] at hx
        cases hx
        cases hq
        exact embedRow_length hrow
    refine Follows.bind (Follows.foldlM (fun q => q.x.length = asUsize m.cfg.hidden)
      (fun l _ seqs h => layerForwardBatched_follows hserves l h)
      (fun l _ q q' h hq => (decodeLayer_keeps hq).1.trans h) hlen) fun zs _ => ?_
    exact follows_map _ zs

/-- **A batch follows the lone forwards of its sequences**: it gives every sequence its
own hidden row and cache, reports an error of its own, or panics where one of them
does. -/
theorem forwardBatched_follows (hserves : Serves provider model)
    (hv4 : ¬ (m.cfg.arch = .deepseekV4 ∧ m.cfg.hcMult > 0)) (seqs : List (SeqIn α S)) :
    Follows (forwardBatched math env m sib provider seqs)
      (loneForward math env m sib model) seqs := by
  cases hkind : m.cfg.layerKind with
  | nil =>
    have hlone := funext (loneForward_eq math env sib model
      (not_ownDriver hv4 hkind))
    rw [hlone]
    exact forwardBatched_follows_decode math env sib hserves seqs
  | cons k ks =>
    rw [forwardBatched, hkind]
    exact follows_error _ _ _

/-! ## DeepSeek-V4 -/

/-- **DeepSeek-V4 panics in the batch**: its `layer_kind` is empty, and the layers the
batch takes it through have no output projection. -/
theorem forwardBatched_dsv4 (harch : m.cfg.arch = .deepseekV4) {seqs : List (SeqIn α S)}
    (hne : seqs ≠ []) : forwardBatched math env m sib provider seqs = .panic := by
  have hkind : m.cfg.layerKind = [] := by
    have hacc := m.accepts
    rw [accepted, harch] at hacc
    exact hacc
  have hatt : ∀ l ∈ m.layers.zipIdx, ∀ q : SeqState α S,
      attendBatched math env m sib l.1.2 l.2 q = .panic := by
    intro l hl q
    have hload := m.loaded l.1 (List.fst_mem_of_mem_zipIdx hl)
    have ho : l.1.2.mla.o.o = 0 := by
      rw [hload, loadMla, harch]
      rfl
    have hgqa : ¬ isGqa m.cfg.arch = true := by
      rw [harch]
      exact Bool.false_ne_true
    rw [attendBatched, attentionBatched, if_neg hgqa, attentionWith_no_output m.hidden_ne ho]
    rfl
  unfold forwardBatched
  rw [hkind, List.isEmpty_nil, Bool.not_true, if_neg Bool.false_ne_true]
  have hembed : ∀ q ∈ seqs, ∀ e : ForwardError, (Outcome.ofOption (embedRow m q.id) >>= fun x =>
      pure (⟨x, q.kv, q.position⟩ : SeqState α S)) ≠ .error e := by
    intro q _ e h
    cases hx : embedRow m q.id with
    | none =>
      rw [hx] at h
      cases h
    | some x =>
      rw [hx] at h
      cases h
  rcases mapM_of_no_error hembed with hp | ⟨ys, hys, hlen⟩
  · exact Outcome.bind_of_panic hp _
  · refine (Outcome.bind_of_ok hys _).trans (Outcome.bind_of_panic ?_ _)
    obtain ⟨l, ls, hls⟩ := List.exists_cons_of_ne_nil (l := m.layers.zipIdx) fun h =>
      m.layers_ne (List.zipIdx_eq_nil_iff.mp h)
    obtain ⟨y, ys, rfl⟩ := List.exists_cons_of_ne_nil (l := ys) fun h => by
      rw [h, List.length_nil] at hlen
      exact hne (List.length_eq_zero_iff.mp hlen.symm)
    rw [hls, List.foldlM_cons, layerForwardBatched, List.mapM_cons,
      hatt l (hls ▸ List.mem_cons_self ..)]
    rfl

/-! ## When the batch is the lone decodes -/

/-- The batch reports an error, or gives every sequence the hidden row and the cache of
its own forward. -/
def Agrees (batch : Outcome ForwardError (List (List α × KvCache α S)))
    (lone : SeqIn α S → Outcome ForwardError (List α × KvCache α S)) (seqs : List (SeqIn α S)) :
    Prop :=
  (∃ e, batch = .error e) ∨
    ∃ rows, batch = .ok rows ∧ List.Forall₂ (fun q row => lone q = .ok row) seqs rows

/-- **When batched decode is lone decode.** Over sequences whose lone forwards return:
exactly if the model is not a DeepSeek-V4 with Hyper-Connections, or there is no
sequence. On any other model the batch follows the lone forwards even where one of them
panics. -/
theorem forwardBatched_agrees_iff (math : RowMath α) (env : DsaEnv) (m : Model α G a)
    (sib : Siblings α S G) {model : Nat → Nat → Ffn a (asUsize m.cfg.hidden)}
    {provider : Provider (Ffn a (asUsize m.cfg.hidden))} (hserves : Serves provider model)
    (seqs : List (SeqIn α S)) :
    ((∀ q ∈ seqs, ∃ row, loneForward math env m sib model q = .ok row) →
      (Agrees (forwardBatched math env m sib provider seqs) (loneForward math env m sib model) seqs
        ↔ ¬ (m.cfg.arch = .deepseekV4 ∧ m.cfg.hcMult > 0) ∨ seqs = [])) ∧
    (¬ (m.cfg.arch = .deepseekV4 ∧ m.cfg.hcMult > 0) →
      Follows (forwardBatched math env m sib provider seqs)
        (loneForward math env m sib model) seqs) := by
  refine ⟨fun hreturns => ⟨fun hagrees => ?_, fun hcond => ?_⟩, fun hv4 =>
    forwardBatched_follows hserves hv4 seqs⟩
  · by_contra hcond
    push Not at hcond
    obtain ⟨⟨harch, _⟩, hne⟩ := hcond
    rcases hagrees with ⟨e, h⟩ | ⟨rows, h, _⟩
    · rw [forwardBatched_dsv4 harch hne] at h
      cases h
    · rw [forwardBatched_dsv4 harch hne] at h
      cases h
  · have hfollows : Follows (forwardBatched math env m sib provider seqs)
        (loneForward math env m sib model) seqs := by
      rcases hcond with hv4 | rfl
      · exact forwardBatched_follows hserves hv4 seqs
      · -- no sequence: whose run it follows does not matter
        have h := forwardBatched_follows_decode math env sib hserves
          ([] : List (SeqIn α S))
        cases hb : forwardBatched math env m sib provider ([] : List (SeqIn α S)) with
        | error e => trivial
        | panic =>
          rw [hb] at h
          obtain ⟨q, hq, _⟩ := h
          cases hq
        | ok rows =>
          rw [hb] at h
          cases h
          exact List.Forall₂.nil
    cases hb : forwardBatched math env m sib provider seqs with
    | error e => exact Or.inl ⟨e, rfl⟩
    | ok rows =>
      rw [hb] at hfollows
      exact Or.inr ⟨rows, rfl, hfollows⟩
    | panic =>
      rw [hb] at hfollows
      obtain ⟨q, hq, hp⟩ := hfollows
      obtain ⟨row, hrow⟩ := hreturns q hq
      rw [hp] at hrow
      cases hrow

end

/-! ## Two small models -/

section

theorem plainMath_length : ∀ (x _ : List ℚ) (_ : ℚ), x.length = x.length := fun _ _ _ => rfl

/-- Functions of a row that change nothing. -/
def plainMath : RowMath ℚ where
  softmax := id
  sigmoid := id
  silu := id
  swigluOai := fun g u _ _ => g * u
  swigluClampedOne := fun g u _ => g * u
  situ := fun g u _ _ => g * u
  rmsnorm := fun x _ _ => x
  ropeInterleave := fun v _ _ _ => v
  indexerScore := fun _ _ _ _ => 0
  rmsnorm_length := plainMath_length

/-- Width 1, one expert, one head of one dimension and one of rope. -/
def smallConfig (arch : Arch) (hcMult : Int) : StackConfig ℚ where
  hidden := 1
  nExperts := 1
  topk := 1
  normTopk := false
  routedScale := 1
  routerScore := .softmax
  arch := arch
  nLayers := 1
  nHeads := 1
  qLora := 1
  kvLora := 1
  qkNope := 0
  qkRope := 1
  qkHead := 1
  vHead := 1
  nShared := 0
  indexTopk := 0
  indexNh := 0
  indexHd := 0
  idxType := []
  hcMult := hcMult
  layerKind := []
  mlaNope := false
  eps := 0
  theta := 1
  attnScale := 1

def plainAct : ActCfg ℚ := ⟨false, 0, 0, false, false, 0, 0⟩

theorem length_sumRow (o : Nat) (row : List ℚ) : (List.replicate o row.sum).length = o :=
  List.length_replicate

/-- Tensors that repeat the sum of a row. -/
def sumTensor (o i : Nat) : QTensor ℚ :=
  ⟨o, i, fun row => List.replicate o row.sum, length_sumRow o⟩

def sumCheckpoint : Checkpoint ℚ where
  qtLoad := fun _ o i => sumTensor o i
  qtLoad_o := fun _ _ _ => rfl
  qtLoad_i := fun _ _ _ => rfl
  ld := fun _ => [1]
  has := fun _ => false

def sumFfn (d : Nat) : Ffn plainAct d where
  gate := sumTensor d d
  up := sumTensor d d
  down := sumTensor d d
  up_i := rfl
  down_i := rfl
  down_o := rfl
  gate_i := fun _ => rfl
  gate_o := fun _ => rfl

/-- One sparse layer, loaded for an architecture without a `layer_kind`. -/
def smallModel (arch : Arch) (hcMult : Int) (h : accepted (smallConfig arch hcMult)) :
    Model ℚ Unit plainAct where
  cfg := smallConfig arch hcMult
  embed := [[1], [2]]
  layers := [(sumCheckpoint,
    { inLn := [1], postLn := [1], mla := loadMla (smallConfig arch hcMult) sumCheckpoint, gqa := (),
      sparse := true, router := [1], routerBias := [0], shared := sumFfn _, dense := sumFfn _ })]
  accepts := h
  hidden_ne := (by decide : asUsize 1 ≠ 0)
  layers_ne := List.cons_ne_nil _ _
  embed_length := (by decide : ∀ row ∈ ([[1], [2]] : List (List ℚ)), row.length = asUsize 1)
  loaded := fun l hl => by
    rw [List.mem_singleton] at hl
    rw [hl]

/-- Drivers that return what they are given a row for. -/
def plainSiblings : Siblings ℚ Unit Unit where
  attentionGqa := fun _ _ _ kv x _ => some (x, kv)
  nemotronLayerForward := fun _ _ x kv _ => .ok (x, kv)
  kimiForward := fun kv _ _ => .ok ([[0]], kv)
  dsv4ForwardChunked := fun kv _ _ => .ok ([[0]], kv)

def freshCache : KvCache ℚ Unit := ⟨8, fun _ => 0, fun _ _ => [], fun _ _ => [], ()⟩

/-- Two sequences of a GLM, at two positions. -/
theorem forwardBatched_agrees_two_sequences :
    Follows
      (forwardBatched plainMath ⟨true, 4096⟩ (smallModel .glmMoeDsa 0 rfl) plainSiblings
        (Provider.all fun _ _ => sumFfn _) [⟨freshCache, 0, 0⟩, ⟨freshCache, 1, 3⟩])
      (loneForward plainMath ⟨true, 4096⟩ (smallModel .glmMoeDsa 0 rfl) plainSiblings
        fun _ _ => sumFfn _) [⟨freshCache, 0, 0⟩, ⟨freshCache, 1, 3⟩] :=
  (forwardBatched_agrees_iff plainMath ⟨true, 4096⟩ (smallModel .glmMoeDsa 0 rfl) plainSiblings
    (Provider.all_serves fun _ _ => sumFfn _) _).2 (fun h => by cases h.1)

/-- A DeepSeek-V4 with four residual copies: alone the sequence returns, in a batch of one
it panics. -/
theorem forwardBatched_panics_dsv4 :
    (∃ row, loneForward plainMath ⟨true, 4096⟩ (smallModel .deepseekV4 4 rfl) plainSiblings
      (fun _ _ => sumFfn _) ⟨freshCache, 0, 0⟩ = .ok row) ∧
    ¬ Agrees
      (forwardBatched plainMath ⟨true, 4096⟩ (smallModel .deepseekV4 4 rfl) plainSiblings
        (Provider.all fun _ _ => sumFfn _) [⟨freshCache, 0, 0⟩])
      (loneForward plainMath ⟨true, 4096⟩ (smallModel .deepseekV4 4 rfl) plainSiblings
        fun _ _ => sumFfn _) [⟨freshCache, 0, 0⟩] := by
  refine ⟨⟨_, rfl⟩, ?_⟩
  rw [forwardBatched_dsv4 rfl (List.cons_ne_nil _ _)]
  intro h
  rcases h with ⟨e, h⟩ | ⟨rows, h, _⟩
  · cases h
  · cases h

end

end Colibri.Forward
