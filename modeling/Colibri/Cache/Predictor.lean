import Colibri.Lib.Tally
import Mathlib.Data.Prod.Lex
import Mathlib.Data.UInt

/-!
# Predicting the next layer's experts

The predictor counts how often each expert of a layer was routed to, and how often it came behind
each expert of the layer before. For the next layer it ranks the experts that have come behind the
current ones by how often, and fills up with the layer's most frequent. The counts are kept in hash
maps, whose order is any order, and they wrap.

The maps count what the calls say (`Learned`, kept by every call), and the calls alone determine
one ranking of the experts that the next layer has been seen to use (`ranking`).

> `observe_and_predict_spec`: whatever order the maps have, the prediction is the first `topn` of
> that ranking. So no expert is predicted twice or unseen, and as many are predicted as there are.
-/

namespace Colibri.Prefetch

/-! ## The source -/

/-- An expert, as the maps have it. -/
abbrev Expert := UInt32

abbrev Counts := Tally Expert UInt32

/-- `Predictor`. A layer or an expert that a map does not have is one without counts. -/
structure Predictor where
  topn : Nat
  freq : Nat → Counts
  trans : Nat → Expert → Counts
  last : Option (Nat × List Expert)

def Predictor.new (topn : Nat) : Predictor := ⟨topn, fun _ => .empty, fun _ _ => .empty, none⟩

/-- `a.0.cmp(&b.0)` -/
def byNumber (a b : Expert) : Bool := decide (a.toNat ≤ b.toNat)

/-- Sorted by `b.1.cmp(&a.1).then(a.0.cmp(&b.0))`. -/
def ranked (t : Counts) : List Expert := Tally.ranked UInt32.toNat byNumber t

/-- One more of each. -/
def countAll (t : Counts) (cur : List Expert) : Counts := t.addAll (cur.map fun e => (e, 1))

/-- The transitions behind the experts of the layer before: a count for each of these, and as often
as it is there. -/
def follow (t : Expert → Counts) (before cur : List Expert) : Expert → Counts :=
  before.foldl (fun t pe => Function.update t pe (countAll (t pe) cur)) t

/-- The scores of a prediction. -/
def score (t : Expert → Counts) (cur : List Expert) : Counts :=
  cur.foldl (fun s e => s.addAll (t e).entries) .empty

/-- The second loop: what is frequent, and not there yet. -/
def backfill (topn : Nat) : List Nat → List Expert → List Nat
  | out, [] => out
  | out, e :: fr =>
    if topn ≤ out.length then out
    else if out.contains e.toNat then backfill topn out fr
    else backfill topn (out ++ [e.toNat]) fr

def predict (p : Predictor) (target : Nat) (cur : List Expert) : List Nat :=
  let out := ((ranked (score (p.trans target) cur)).map UInt32.toNat).take p.topn
  backfill p.topn out (ranked (p.freq target))

/-- The first half of `observe_and_predict`: what is learned from a call. -/
def observe (p : Predictor) (layer : Nat) (eids : List Nat) : Predictor :=
  let cur := eids.map UInt32.ofNat
  { topn := p.topn
    freq := Function.update p.freq layer (countAll (p.freq layer) cur)
    trans :=
      match p.last with
      | some (ll, le) =>
        if ll + 1 = layer then Function.update p.trans layer (follow (p.trans layer) le cur)
        else p.trans
      | none => p.trans
    last := some (layer, cur) }

def observeAndPredict (p : Predictor) (layer : Nat) (eids : List Nat) : Predictor × List Nat :=
  (observe p layer eids, predict (observe p layer eids) (layer + 1) (eids.map UInt32.ofNat))

/-- The same counts, in maps of another order. -/
structure Reordered (p q : Predictor) : Prop where
  topn : p.topn = q.topn
  freq : ∀ layer, (p.freq layer).entries.Perm (q.freq layer).entries
  trans : ∀ layer e, (p.trans layer e).entries.Perm (q.trans layer e).entries
  last : p.last = q.last

/-- A call: the layer and its experts. -/
abbrev Call := Nat × List Nat

/-- A run from `new`, the last call first. Between two steps the maps may be in any order. -/
inductive Run (topn : Nat) : List Call → Predictor → Prop where
  | new {p : Predictor} (h : Reordered (.new topn) p) : Run topn [] p
  | call {calls : List Call} {p q : Predictor} (layer : Nat) (eids : List Nat)
    (hrun : Run topn calls p) (h : Reordered (observe p layer eids) q) :
    Run topn ((layer, eids) :: calls) q

/-! ## What the calls say -/

def Call.experts (c : Call) : List Expert := c.2.map UInt32.ofNat

/-- All uses of the experts of a layer. -/
def observed (layer : Nat) (calls : List Call) : List Expert :=
  (calls.filter fun c => c.1 = layer).flatMap Call.experts

/-- All uses behind an expert of the layer before, in the call before. -/
def followers (layer : Nat) (pe : Expert) : List Call → List Expert
  | b :: a :: calls =>
    (if a.1 + 1 = b.1 ∧ b.1 = layer then
      ((Call.experts a).filter (· = pe)).flatMap fun _ => Call.experts b
    else []) ++ followers layer pe (a :: calls)
  | _ => []

/-- How many, as the maps count. -/
def tally (l : List Expert) (e : Expert) : UInt32 := UInt32.ofNat (l.count e)

/-- All uses behind these experts. -/
def behind (layer : Nat) (cur : List Expert) (calls : List Call) : List Expert :=
  cur.flatMap fun pe => followers layer pe calls

/-- Where an expert stands among those of a layer: those that have come behind the current ones
before the others, the most frequent first, and then by their number. -/
def rank (layer : Nat) (cur : List Expert) (calls : List Call) (e : Expert) : Nat ×ₗ Natᵒᵈ ×ₗ Nat :=
  if e ∈ behind layer cur calls then
    toLex (0, toLex (OrderDual.toDual (tally (behind layer cur calls) e).toNat, e.toNat))
  else toLex (1, toLex (OrderDual.toDual (tally (observed layer calls) e).toNat, e.toNat))

/-- **The ranking**: the experts that the layer has been seen to use, each once. -/
def ranking (layer : Nat) (cur : List Expert) (calls : List Call) : List Expert :=
  (observed layer calls).dedup.mergeSort
    fun a b => decide (rank layer cur calls a ≤ rank layer cur calls b)

/-! ## What a map holds -/

/-- The map has counted these. -/
def Holds (t : Counts) (l : List Expert) : Prop := ∀ e, (e ∈ t.keys ↔ e ∈ l) ∧ t.get e = tally l e

theorem tally_append (l l' : List Expert) (e : Expert) :
    tally (l ++ l') e = tally l e + tally l' e := by
  rw [tally, List.count_append, UInt32.ofNat_add]
  rfl

theorem amount_ones (cur : List Expert) (e : Expert) :
    Tally.amount (cur.map fun e => (e, (1 : UInt32))) e = tally cur e := by
  induction cur with
  | nil => rfl
  | cons c cur ih =>
    rw [List.map_cons, Tally.amount_cons, ih]
    by_cases hc : c = e
    · have hcount : (c :: cur).count e = 1 + cur.count e := by
        rw [hc, List.count_cons_self, Nat.add_comm]
      rw [if_pos hc, tally, tally, hcount, UInt32.ofNat_add]
      rfl
    · rw [if_neg hc, zero_add, tally, tally, List.count_cons_of_ne hc]

theorem holds_empty : Holds .empty [] := fun _ => ⟨Iff.rfl, rfl⟩

variable {t : Counts} {l : List Expert} {topn : Nat} {calls : List Call} {p : Predictor}

theorem Holds.perm {u : Counts} (h : Holds t l)
    (hp : t.entries.Perm u.entries) : Holds u l := by
  intro e
  refine ⟨?_, ?_⟩
  · rw [← (h e).1]
    exact (hp.map Prod.fst).mem_iff.symm
  · rw [← (h e).2, Tally.get_perm hp]

theorem Holds.countAll (h : Holds t l) (cur : List Expert) :
    Holds (countAll t cur) (l ++ cur) := by
  intro e
  refine ⟨?_, ?_⟩
  · rw [Prefetch.countAll, Tally.mem_keys_addAll, (h e).1, List.map_map, List.mem_append]
    simp
  · rw [Prefetch.countAll, Tally.get_addAll, amount_ones, (h e).2, tally_append]

theorem Holds.addEntries {s : Counts} {l' : List Expert} (h : Holds s l) (h' : Holds t l') :
    Holds (s.addAll t.entries) (l ++ l') := by
  intro e
  refine ⟨?_, ?_⟩
  · rw [Tally.mem_keys_addAll, List.mem_append, (h e).1, ← (h' e).1]
    rfl
  · rw [Tally.get_addAll, ← Tally.get_eq, (h e).2, (h' e).2, tally_append]

/-- The transitions, after a call behind a call. -/
theorem holds_follow {t : Expert → Counts} {l : Expert → List Expert} (h : ∀ pe, Holds (t pe) (l pe))
    (before cur : List Expert) (pe : Expert) :
    Holds (follow t before cur pe) (l pe ++ (before.filter (· = pe)).flatMap fun _ => cur) := by
  induction before generalizing t l with
  | nil => exact (List.append_nil (l pe)).symm ▸ h pe
  | cons b before ih =>
    have hstep : ∀ x, Holds (Function.update t b (Prefetch.countAll (t b) cur) x)
        (if x = b then l b ++ cur else l x) := by
      intro x
      by_cases hx : x = b
      · rw [if_pos hx, hx, Function.update_self]
        exact (h b).countAll cur
      · rw [if_neg hx, Function.update_of_ne hx]
        exact h x
    have hrest := ih hstep
    rw [follow, List.foldl_cons]
    by_cases hb : b = pe
    · rw [if_pos hb.symm, hb, List.append_assoc] at hrest
      rw [List.filter_cons_of_pos (by simpa using hb), List.flatMap_cons, hb]
      exact hrest
    · rw [if_neg (fun heq => hb heq.symm)] at hrest
      rw [List.filter_cons_of_neg (by simpa using hb)]
      exact hrest

theorem holds_score {t : Expert → Counts} {l : Expert → List Expert} (h : ∀ pe, Holds (t pe) (l pe))
    (cur : List Expert) : Holds (score t cur) (cur.flatMap l) := by
  have hall : ∀ {s : Counts} {l₀ : List Expert}, Holds s l₀ →
      Holds (cur.foldl (fun s e => s.addAll (t e).entries) s) (l₀ ++ cur.flatMap l) := by
    induction cur with
    | nil =>
      intro s l₀ hs
      exact (List.append_nil l₀).symm ▸ hs
    | cons c cur ih =>
      intro s l₀ hs
      rw [List.foldl_cons, List.flatMap_cons, ← List.append_assoc]
      exact ih (hs.addEntries (h c))
  exact hall holds_empty

/-! ## What a run has learned -/

/-- The maps hold what the calls say. -/
structure Learned (topn : Nat) (calls : List Call) (p : Predictor) : Prop where
  topn : p.topn = topn
  freq : ∀ layer, Holds (p.freq layer) (observed layer calls)
  trans : ∀ layer pe, Holds (p.trans layer pe) (followers layer pe calls)
  last : p.last = calls.head?.map fun c => (c.1, c.experts)

theorem Learned.reordered {q : Predictor}
    (h : Learned topn calls p) (hpq : Reordered p q) : Learned topn calls q where
  topn := hpq.topn ▸ h.topn
  freq layer := (h.freq layer).perm (hpq.freq layer)
  trans layer pe := (h.trans layer pe).perm (hpq.trans layer pe)
  last := hpq.last ▸ h.last

theorem holds_congr {l' : List Expert} (h : Holds t l) (hp : l.Perm l') :
    Holds t l' := by
  intro e
  refine ⟨(h e).1.trans hp.mem_iff, ?_⟩
  rw [(h e).2, tally, tally, hp.count_eq]

theorem observed_cons (layer : Nat) (c : Call) (calls : List Call) :
    observed layer (c :: calls) =
      (if c.1 = layer then c.experts else []) ++ observed layer calls := by
  unfold observed
  by_cases hc : c.1 = layer
  · rw [List.filter_cons_of_pos (by simpa using hc), if_pos hc, List.flatMap_cons]
  · rw [List.filter_cons_of_neg (by simpa using hc), if_neg hc, List.nil_append]

/-- A layer is counted with the call itself, a transition with the call before. -/
theorem Learned.observe (h : Learned topn calls p)
    (layer : Nat) (eids : List Nat) :
    Learned topn ((layer, eids) :: calls) (observe p layer eids) where
  topn := h.topn
  freq layer' := by
    rw [observed_cons]
    by_cases hl : layer' = layer
    · rw [if_pos hl.symm, hl]
      show Holds (Function.update p.freq layer _ layer) _
      rw [Function.update_self]
      exact holds_congr ((h.freq layer).countAll _) List.perm_append_comm
    · rw [if_neg (fun heq => hl heq.symm)]
      show Holds (Function.update p.freq layer _ layer') _
      rw [Function.update_of_ne hl]
      exact h.freq layer'
  trans layer' pe := by
    have hlast := h.last
    show Holds ((match p.last with
      | some (ll, le) =>
        if ll + 1 = layer then
          Function.update p.trans layer (follow (p.trans layer) le (eids.map UInt32.ofNat))
        else p.trans
      | none => p.trans) layer' pe) _
    rw [hlast]
    cases calls with
    | nil => exact h.trans layer' pe
    | cons a calls =>
      rw [followers]
      show Holds ((if a.1 + 1 = layer then Function.update p.trans layer
        (follow (p.trans layer) a.experts (eids.map UInt32.ofNat)) else p.trans) layer' pe) _
      by_cases hnext : a.1 + 1 = layer
      · rw [if_pos hnext]
        by_cases hl : layer' = layer
        · rw [hl, Function.update_self, if_pos ⟨hnext, rfl⟩]
          exact holds_congr (holds_follow (h.trans layer) a.experts _ pe) List.perm_append_comm
        · rw [Function.update_of_ne hl, if_neg fun hc => hl hc.2.symm]
          exact h.trans layer' pe
      · rw [if_neg hnext, if_neg fun hc => hnext hc.1]
        exact h.trans layer' pe
  last := rfl

/-- **The maps count what the calls of a run say.** -/
theorem learned_of_run (h : Run topn calls p) :
    Learned topn calls p := by
  induction h with
  | new h =>
    have hnew : Learned topn [] (.new topn) :=
      ⟨rfl, fun _ => holds_empty, fun _ _ => holds_empty, rfl⟩
    exact hnew.reordered h
  | call layer eids _ h ih => exact (ih.observe layer eids).reordered h

/-- What comes behind an expert has been used in its layer. -/
theorem followers_subset (layer : Nat) (pe : Expert) (calls : List Call) :
    followers layer pe calls ⊆ observed layer calls := by
  induction calls with
  | nil => exact fun _ h => h
  | cons b calls ih =>
    rw [observed_cons]
    cases calls with
    | nil => exact fun e he => absurd he List.not_mem_nil
    | cons a calls =>
      intro e he
      rw [followers] at he
      rcases List.mem_append.mp he with hnow | hbefore
      · split at hnow
        next hnext =>
          obtain ⟨_, -, hmem⟩ := List.mem_flatMap.mp hnow
          rw [if_pos hnext.2]
          exact List.mem_append_left _ hmem
        next => exact absurd hnow List.not_mem_nil
      · exact List.mem_append_right _ (ih hbefore)

/-! ## Rankings -/

/-- More often first, and then by the number. -/
def order (l : List Expert) (e : Expert) : Natᵒᵈ ×ₗ Nat :=
  toLex (OrderDual.toDual (tally l e).toNat, e.toNat)

theorem toNat_injective : Function.Injective UInt32.toNat := fun _ _ => UInt32.toNat_inj.mp

theorem byNumber_chain : Chain byNumber := .of_rank toNat_injective

theorem hotter_iff (a b : Expert × UInt32) : Tally.hotter UInt32.toNat byNumber a b = true ↔
    (toLex (OrderDual.toDual a.2.toNat, a.1.toNat) : Natᵒᵈ ×ₗ Nat) ≤
      toLex (OrderDual.toDual b.2.toNat, b.1.toNat) := by
  rw [Tally.hotter_iff, Prod.Lex.toLex_le_toLex, OrderDual.toDual_lt_toDual,
    EmbeddingLike.apply_eq_iff_eq, byNumber, decide_eq_true_eq]

/-- The ranking of a map: its keys, each once, in order. -/
theorem ranked_holds (h : Holds t l) :
    (ranked t).Pairwise (fun a b => order l a ≤ order l b) ∧ (ranked t).Perm l.dedup := by
  have hget : ∀ x ∈ t.entries.mergeSort (Tally.hotter UInt32.toNat byNumber),
      x.2 = tally l x.1 := by
    intro x hx
    rw [← (h x.1).2]
    exact (t.get_of_mem (List.mem_mergeSort.mp hx)).symm
  refine ⟨?_, ?_⟩
  · rw [ranked, Tally.ranked, List.pairwise_map]
    have hchain := Tally.hotter_chain toNat_injective byNumber_chain
    refine (hchain.pairwise_mergeSort t.entries).imp_of_mem ?_
    intro x y hx hy hxy
    rw [hotter_iff, hget x hx, hget y hy] at hxy
    exact hxy
  · have hkeys : (ranked t).Perm t.keys := t.ranked_keys
    refine hkeys.trans ((List.perm_ext_iff_of_nodup t.nodup (List.nodup_dedup l)).mpr fun e => ?_)
    rw [List.mem_dedup]
    exact (h e).1

/-! ## The prediction -/

/-- The second loop takes what is missing, as far as there is room. -/
theorem backfill_eq (topn : Nat) {out : List Expert} (hout : out.length ≤ topn)
    {fr : List Expert} (hfr : fr.Nodup) :
    backfill topn (out.map UInt32.toNat) fr =
      ((out ++ fr.filter fun e => e ∉ out).take topn).map UInt32.toNat := by
  induction fr generalizing out with
  | nil =>
    rw [backfill, List.filter_nil, List.append_nil, List.take_of_length_le hout]
  | cons e fr ih =>
    obtain ⟨hnot, hrest⟩ := List.nodup_cons.mp hfr
    have hmem : (out.map UInt32.toNat).contains e.toNat = decide (e ∈ out) := by
      rw [Bool.eq_iff_iff, List.contains_iff_mem, decide_eq_true_eq]
      exact List.mem_map_of_injective fun a b hab => UInt32.toNat_inj.mp hab
    rw [backfill, List.length_map]
    split
    next hfull =>
      have hlen : out.length = topn := Nat.le_antisymm hout hfull
      rw [← hlen, List.take_left]
    next hroom =>
      rw [hmem]
      by_cases he : e ∈ out
      · rw [decide_eq_true he, if_pos rfl, ih hout hrest, List.filter_cons_of_neg (by simpa using he)]
      · have hroom' : (out ++ [e]).length ≤ topn := by
          rw [List.length_append, List.length_singleton]
          omega
        have hstep := ih hroom' hrest
        have hfilter : (fr.filter fun x => x ∉ out ++ [e]) = fr.filter fun x => x ∉ out := by
          refine List.filter_congr fun x hx => ?_
          have hne : x ≠ e := fun heq => hnot (heq ▸ hx)
          simp [hne]
        rw [hfilter, List.map_append, List.append_assoc] at hstep
        rw [decide_eq_false he, if_neg Bool.false_ne_true,
          List.filter_cons_of_pos (by simpa using he)]
        exact hstep

theorem rank_injective (layer : Nat) (cur : List Expert) (calls : List Call) :
    Function.Injective (rank layer cur calls) := by
  have hlast : ∀ e, (ofLex (ofLex (rank layer cur calls e)).2).2 = e.toNat := by
    intro e
    unfold rank
    split
    next => rfl
    next => rfl
  intro a b hab
  refine UInt32.toNat_inj.mp ?_
  rw [← hlast a, ← hlast b, hab]

/-- What has come behind the current experts, and then the rest of the layer's, is the ranking. -/
theorem ranking_eq {layer : Nat} {cur : List Expert} {r f : List Expert}
    (hr : r.Pairwise fun a b => order (behind layer cur calls) a ≤ order (behind layer cur calls) b)
    (hrp : r.Perm (behind layer cur calls).dedup)
    (hf : f.Pairwise fun a b => order (observed layer calls) a ≤ order (observed layer calls) b)
    (hfp : f.Perm (observed layer calls).dedup) :
    r ++ f.filter (fun e => e ∉ r) = ranking layer cur calls := by
  have hmem : ∀ e, e ∈ r ↔ e ∈ behind layer cur calls :=
    fun e => hrp.mem_iff.trans List.mem_dedup
  have hmem' : ∀ e, e ∈ f ↔ e ∈ observed layer calls :=
    fun e => hfp.mem_iff.trans List.mem_dedup
  have hsub : ∀ e, e ∈ behind layer cur calls → e ∈ observed layer calls := by
    intro e he
    obtain ⟨pe, -, hpe⟩ := List.mem_flatMap.mp he
    exact followers_subset layer pe calls hpe
  have hfront : ∀ e ∈ r, rank layer cur calls e = toLex (0, order (behind layer cur calls) e) :=
    fun e he => if_pos ((hmem e).mp he)
  have hback : ∀ e ∈ f.filter (fun e => e ∉ r),
      rank layer cur calls e = toLex (1, order (observed layer calls) e) := by
    intro e he
    have hnot : e ∉ r := by simpa using (List.mem_filter.mp he).2
    exact if_neg fun hb => hnot ((hmem e).mpr hb)
  have hchain := Chain.of_rank (rank_injective layer cur calls)
  refine hchain.sorted_unique ?_ (hchain.pairwise_mergeSort _) ?_
  · simp only [decide_eq_true_eq]
    rw [List.pairwise_append]
    refine ⟨?_, ?_, ?_⟩
    · refine hr.imp_of_mem fun {a b} ha hb hab => ?_
      rw [hfront a ha, hfront b hb, Prod.Lex.toLex_le_toLex]
      exact .inr ⟨rfl, hab⟩
    · refine (hf.filter _).imp_of_mem fun {a b} ha hb hab => ?_
      rw [hback a ha, hback b hb, Prod.Lex.toLex_le_toLex]
      exact .inr ⟨rfl, hab⟩
    · intro a ha b hb
      rw [hfront a ha, hback b hb, Prod.Lex.toLex_le_toLex]
      exact .inl Nat.zero_lt_one
  · have hrnodup : r.Nodup := hrp.nodup_iff.mpr (List.nodup_dedup _)
    have hfnodup : f.Nodup := hfp.nodup_iff.mpr (List.nodup_dedup _)
    have hdisjoint : r.Disjoint (f.filter fun e => e ∉ r) := by
      intro e he hfe
      have hnot : e ∉ r := by simpa using (List.mem_filter.mp hfe).2
      exact hnot he
    have hnodup : (r ++ f.filter fun e => e ∉ r).Nodup :=
      hrnodup.append (hfnodup.filter _) hdisjoint
    refine List.Perm.trans ?_ (List.mergeSort_perm _ _).symm
    refine (List.perm_ext_iff_of_nodup hnodup (List.nodup_dedup _)).mpr fun e => ?_
    rw [List.mem_append, List.mem_filter, List.mem_dedup, hmem', decide_eq_true_eq, hmem]
    constructor
    · rintro (hb | ⟨ho, -⟩)
      · exact hsub e hb
      · exact ho
    · intro ho
      by_cases hb : e ∈ behind layer cur calls
      · exact .inl hb
      · exact .inr ⟨ho, hb⟩

/-- **The prediction of maps that have learnt**, for any layer and any current experts. -/
theorem predict_eq (layer : Nat)
    (cur : List Expert) (hlearned : Learned topn calls p) :
    predict p layer cur = ((ranking layer cur calls).take topn).map UInt32.toNat := by
  obtain ⟨hr, hrp⟩ := ranked_holds (holds_score (fun pe => hlearned.trans layer pe) cur)
  obtain ⟨hf, hfp⟩ := ranked_holds (hlearned.freq layer)
  have hfnodup := hfp.nodup_iff.mpr (List.nodup_dedup _)
  rw [← ranking_eq hr hrp hf hfp]
  unfold predict
  dsimp only
  rw [hlearned.topn, ← List.map_take, backfill_eq topn (List.length_take_le _ _) hfnodup]
  congr 1
  generalize ranked (score (p.trans layer) cur) = r
  generalize ranked (p.freq layer) = f
  rcases Nat.le_total r.length topn with hle | hge
  · rw [List.take_of_length_le hle]
  · -- the first loop has filled it up
    have hfull : (r.take topn).length = topn := List.length_take_of_le hge
    rw [List.take_append_of_le_length (Nat.le_of_eq hfull.symm),
      List.take_append_of_le_length hge, List.take_take, Nat.min_self]

theorem Reordered.refl (p : Predictor) : Reordered p p :=
  ⟨rfl, fun _ => .refl _, fun _ _ => .refl _, rfl⟩

/-- **The prediction is the beginning of the ranking**: what `observe_and_predict` returns in a
run, and also if the maps change their order between the two halves of the call. -/
theorem observe_and_predict_spec {topn : Nat} {calls : List Call} {p : Predictor} (layer : Nat)
    (eids : List Nat) (h : Run topn calls p) :
    let predicted :=
      ((ranking (layer + 1) (eids.map UInt32.ofNat) ((layer, eids) :: calls)).take topn).map
        UInt32.toNat
    (observeAndPredict p layer eids).2 = predicted ∧
      ∀ q, Reordered (observe p layer eids) q →
        predict q (layer + 1) (eids.map UInt32.ofNat) = predicted := by
  refine ⟨?_, fun q hq => ?_⟩
  · exact predict_eq _ _ (learned_of_run (.call layer eids h (.refl _)))
  · exact predict_eq _ _ (learned_of_run (.call layer eids h hq))

/-- Two tokens: 7 and 2 came behind 3, and one of them is predicted when 3 comes again. -/
theorem predict_threeCalls :
    (observeAndPredict (observe (observe (.new 1) 0 [3, 5]) 1 [7, 2]) 0 [3]).2 =
      ((ranking 1 [3] [(0, [3]), (1, [7, 2]), (0, [3, 5])]).take 1).map UInt32.toNat := by
  have hfirst : Run 1 [(0, [3, 5])] (observe (.new 1) 0 [3, 5]) :=
    .call 0 [3, 5] (.new (.refl _)) (.refl _)
  have hsecond : Run 1 [(1, [7, 2]), (0, [3, 5])] (observe (observe (.new 1) 0 [3, 5]) 1 [7, 2]) :=
    .call 1 [7, 2] hfirst (.refl _)
  exact (observe_and_predict_spec 0 [3] hsecond).1

end Colibri.Prefetch
