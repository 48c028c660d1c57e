import Colibri.Generate.Drafting
import Mathlib.Algebra.BigOperators.Ring.List
import Mathlib.Data.Finset.Max
import Mathlib.Order.Interval.Finset.Nat

/-!
# The rows that a run writes

A run of the decode loop writes rows of the main stack and rows of the head. Which ones
depends on the model only through what is accepted in each turn, and whether the turn is the
last: `writes` lists them from these answers, with the loop's own guards and counters.

The cache has room for the prompt's `n` tokens and `nNew` more, as all callers make it. No
row is written in the last place of it, and the head begins one place before the prompt ends
and stops two places before that, so it writes fewer rows than tokens are asked for.

> generateStreamDrafting_writes: a run of the loop writes the first of these rows
> writes_within: where a run writes, in the main stack and in the head
> writes_full: a run whose drafts are all accepted writes all of these places

The second bounds what a cache holds; the third shows that the bound is reached, since a
model whose logits are all the same accepts every draft.
-/

namespace Colibri.Generate

open Mtp

/-- The rows that a forward of the main stack or of the head writes. -/
inductive Write
  | main (s : Span)
  | head (s : Span)
  deriving Repr, DecidableEq

/-- The counters of the decode loop. -/
structure Count where
  pos : Nat
  emitted : Nat
  budget : Nat
  proposed : Nat
  accepted : Nat

/-- As `Run.autoOff`. -/
def Count.autoOff (c : Count) : Count :=
  if c.budget > 0 ∧ c.proposed ≥ 24 ∧ c.accepted * 10 < c.proposed then { c with budget := 0 }
  else c

/-- How often `draft` runs the head: until its budget is used up, or the cache has no room for
a draft and its verification. -/
def drafted (maxT pos budget : Nat) : Nat := min budget (maxT - 2 - (pos - 1))

section

variable (nNew maxT : Nat) (track : Bool)

/-- The loop, by how many drafts are accepted in each turn and whether it is `done` then. With
no answer it has stopped: at a stop token, or because the client is gone. -/
def writes (c : Count) : List (Nat × Bool) → List Write
  | [] => []
  | (k, done) :: rest =>
    -- the token that is offered is one of them
    if nNew ≤ c.emitted + 1 then []
    else
      let c := { c with emitted := c.emitted + 1 }.autoOff
      let d := drafted maxT c.pos c.budget
      let g := clamp c.pos d (nNew - c.emitted) maxT
      let k := min k g
      (List.range d).map (fun i => .head ⟨c.pos - 1 + i, 1⟩) ++ [.main ⟨c.pos, 1 + g⟩] ++
        (if track && decide (k < g) && !done then [.main ⟨c.pos, 1 + k⟩] else []) ++
        (if k ≥ 1 then [.head ⟨c.pos, k⟩] else []) ++
        if done then []
        else writes { c with
          pos := c.pos + (1 + k)
          emitted := c.emitted + k
          proposed := c.proposed + d
          accepted := c.accepted + k } rest

end

/-- Calls of the main stack, one behind the other. -/
def placed : Nat → List Nat → List Write
  | _, [] => []
  | pos, s :: ss => .main ⟨pos, s⟩ :: placed (pos + s) ss

/-- A run: the calls of the prompt, and the loop. `budget` is `DRAFT` where there is a head. -/
def runWrites (track : Bool) (prefill : List Nat) (nNew budget : Nat)
    (answers : List (Nat × Bool)) : List Write :=
  placed 0 prefill ++
    writes nNew (prefill.sum + nNew) track ⟨prefill.sum, 0, budget, 0, 0⟩ answers

/-! ## What is written -/

/-- One past the highest row of the main stack that is written. -/
def reach : List Write → Nat
  | [] => 0
  | .main s :: ws => max (s.pos + s.len) (reach ws)
  | .head _ :: ws => reach ws

/-- The rows of the head that are written. -/
def headPlaces : List Write → Finset Nat
  | [] => ∅
  | .main _ :: ws => headPlaces ws
  | .head s :: ws => Finset.Ico s.pos (s.pos + s.len) ∪ headPlaces ws

/-- The lengths of the main stack's calls. -/
def callLens : List Write → List Nat
  | [] => []
  | .main s :: ws => s.len :: callLens ws
  | .head _ :: ws => callLens ws

theorem reach_append (xs ys : List Write) : reach (xs ++ ys) = max (reach xs) (reach ys) := by
  induction xs with
  | nil => rw [List.nil_append, reach, Nat.zero_max]
  | cons x xs ih =>
    cases x with
    | main s => rw [List.cons_append, reach, reach, ih, Nat.max_assoc]
    | head s => rw [List.cons_append, reach, reach, ih]

theorem headPlaces_append (xs ys : List Write) :
    headPlaces (xs ++ ys) = headPlaces xs ∪ headPlaces ys := by
  induction xs with
  | nil => rw [List.nil_append, headPlaces, Finset.empty_union]
  | cons x xs ih =>
    cases x with
    | main s => rw [List.cons_append, headPlaces, headPlaces, ih]
    | head s => rw [List.cons_append, headPlaces, headPlaces, ih, Finset.union_assoc]

theorem mem_headPlaces {ws : List Write} {q : Nat} :
    q ∈ headPlaces ws ↔ ∃ s, .head s ∈ ws ∧ s.pos ≤ q ∧ q < s.pos + s.len := by
  induction ws with
  | nil => simp [headPlaces]
  | cons w ws ih =>
    cases w with
    | main s => simp [headPlaces, ih]
    | head s =>
      rw [headPlaces, Finset.mem_union, Finset.mem_Ico, ih]
      constructor
      · rintro (h | ⟨s', hs', h⟩)
        · exact ⟨s, List.mem_cons_self .., h⟩
        · exact ⟨s', List.mem_cons_of_mem _ hs', h⟩
      · rintro ⟨s', hs', h⟩
        rcases List.mem_cons.mp hs' with heq | hs'
        · cases heq
          exact .inl h
        · exact .inr ⟨s', hs', h⟩

/-! ## Calls that follow each other -/

theorem placed_take (k pos : Nat) (lens : List Nat) :
    (placed pos lens).take k = placed pos (lens.take k) := by
  induction lens generalizing k pos with
  | nil => rw [List.take_nil, placed, List.take_nil]
  | cons len lens ih =>
    cases k with
    | zero => rfl
    | succ k => rw [placed, List.take_succ_cons, ih, List.take_succ_cons, placed]

theorem placed_append (pos : Nat) (xs ys : List Nat) :
    placed pos (xs ++ ys) = placed pos xs ++ placed (pos + xs.sum) ys := by
  induction xs generalizing pos with
  | nil => rfl
  | cons x xs ih => rw [List.cons_append, placed, placed, ih, List.sum_cons, Nat.add_assoc]; rfl

theorem callLens_placed (pos : Nat) (lens : List Nat) : callLens (placed pos lens) = lens := by
  induction lens generalizing pos with
  | nil => rfl
  | cons len lens ih => rw [placed, callLens, ih]

theorem headPlaces_placed (pos : Nat) (lens : List Nat) : headPlaces (placed pos lens) = ∅ := by
  induction lens generalizing pos with
  | nil => rfl
  | cons len lens ih => exact ih _

theorem reach_placed (pos : Nat) (lens : List Nat) (h : lens ≠ []) :
    reach (placed pos lens) = pos + lens.sum := by
  induction lens generalizing pos with
  | nil => exact absurd rfl h
  | cons len lens ih =>
    rw [placed, reach, List.sum_cons]
    dsimp only
    by_cases hne : lens = []
    · rw [hne, List.sum_nil, placed, reach]
      omega
    · rw [ih _ hne]
      omega

theorem reach_placed_zero (lens : List Nat) : reach (placed 0 lens) = lens.sum := by
  by_cases hne : lens = []
  · rw [hne]
    rfl
  · rw [reach_placed 0 lens hne, Nat.zero_add]

theorem isEmpty_placed (pos : Nat) (lens : List Nat) :
    (placed pos lens).isEmpty = lens.isEmpty := by
  cases lens <;> rfl

/-- Without drafts a run is calls of one token after the prompt. -/
theorem writes_plain (nNew maxT : Nat) (track : Bool) (answers : List (Nat × Bool)) (c : Count)
    (hoff : c.budget = 0) : ∃ j, j ≤ nNew - 1 - c.emitted ∧
      writes nNew maxT track c answers = placed c.pos (List.replicate j 1) := by
  induction answers generalizing c with
  | nil => exact ⟨0, Nat.zero_le _, rfl⟩
  | cons answer rest ih =>
    obtain ⟨k, done⟩ := answer
    rw [writes]
    split
    · exact ⟨0, Nat.zero_le _, rfl⟩
    next hmore =>
      have hauto : ({ c with emitted := c.emitted + 1 } : Count).autoOff
          = { c with emitted := c.emitted + 1 } := by
        unfold Count.autoOff
        rw [if_neg]
        dsimp only
        omega
      have hd : drafted maxT c.pos c.budget = 0 := by
        rw [hoff, drafted, Nat.zero_min]
      have hg : clamp c.pos 0 (nNew - (c.emitted + 1)) maxT = 0 :=
        Nat.le_zero.mp (clamp_le ..).1
      dsimp only
      rw [hauto]
      dsimp only
      rw [hd, hg, Nat.min_zero, decide_eq_false (Nat.lt_irrefl 0), Bool.and_false,
        Bool.false_and, if_neg Bool.false_ne_true, if_neg (Nat.not_succ_le_zero 0)]
      cases done with
      | true => exact ⟨1, by omega, rfl⟩
      | false =>
        obtain ⟨j, hj, hrest⟩ := ih ⟨c.pos + (1 + 0), c.emitted + 1 + 0, c.budget,
          c.proposed + 0, c.accepted + 0⟩ hoff
        rw [hrest]
        refine ⟨j + 1, ?_, rfl⟩
        dsimp only at hj
        omega

/-! ## Where a run writes -/

/-- Within a cache for `n` tokens and `nNew` more. -/
def Write.Within (n nNew : Nat) : Write → Prop
  | .main s => s.pos + s.len ≤ n + (nNew - 1)
  | .head s => n ≤ s.pos + 1 ∧ s.pos + s.len + 2 ≤ n + nNew

def AllWithin (n nNew : Nat) (ws : List Write) : Prop := ∀ w ∈ ws, w.Within n nNew

section

variable {n nNew : Nat} {track : Bool}

theorem allWithin_nil : AllWithin n nNew [] := fun w hw => by cases hw

theorem allWithin_append {xs ys : List Write} :
    AllWithin n nNew (xs ++ ys) ↔ AllWithin n nNew xs ∧ AllWithin n nNew ys :=
  List.forall_mem_append

theorem allWithin_singleton {w : Write} (h : w.Within n nNew) : AllWithin n nNew [w] :=
  fun w' hw' => by rwa [List.mem_singleton.mp hw']

theorem Count.autoOff_eq (c : Count) : c.autoOff = { c with budget := c.autoOff.budget } := by
  unfold Count.autoOff
  split <;> rfl

theorem clamp_room {pos d owed maxT : Nat} (h : pos + 2 ≤ maxT) :
    pos + clamp pos d owed maxT + 2 ≤ maxT := by
  unfold clamp
  dsimp only
  split <;> omega

/-- **Where a run writes.** The induction is on the answers; `pos` is where the tokens offered so
far end. -/
theorem writes_within (hn : 0 < n) (answers : List (Nat × Bool)) (c : Count)
    (hc : c.pos = n + c.emitted) : AllWithin n nNew (writes nNew (n + nNew) track c answers) := by
  induction answers generalizing c with
  | nil => exact allWithin_nil
  | cons answer rest ih =>
    obtain ⟨k, done⟩ := answer
    rw [writes]
    split
    · exact allWithin_nil
    next hmore =>
      obtain ⟨budget, hauto⟩ : ∃ budget, ({ c with emitted := c.emitted + 1 } : Count).autoOff
          = { c with emitted := c.emitted + 1, budget } := ⟨_, Count.autoOff_eq _⟩
      dsimp only
      rw [hauto]
      dsimp only
      have hroom := @clamp_room c.pos (drafted (n + nNew) c.pos budget) (nNew - (c.emitted + 1))
        (n + nNew) (by omega)
      generalize hd : drafted (n + nNew) c.pos budget = d at hroom ⊢
      generalize clamp c.pos d (nNew - (c.emitted + 1)) (n + nNew) = g at hroom ⊢
      have hk : min k g ≤ g := Nat.min_le_right k g
      have hdrafts : AllWithin n nNew
          ((List.range d).map fun i => Write.head ⟨c.pos - 1 + i, 1⟩) := by
        intro w hw
        obtain ⟨i, hi, rfl⟩ := List.mem_map.mp hw
        have hi := List.mem_range.mp hi
        unfold drafted at hd
        show n ≤ c.pos - 1 + i + 1 ∧ c.pos - 1 + i + 1 + 2 ≤ n + nNew
        omega
      have hverify : AllWithin n nNew [.main ⟨c.pos, 1 + g⟩] := by
        refine allWithin_singleton ?_
        show c.pos + (1 + g) ≤ n + (nNew - 1)
        omega
      have hreplay : AllWithin n nNew
          (if track && decide (min k g < g) && !done then [.main ⟨c.pos, 1 + min k g⟩]
            else []) := by
        split
        · refine allWithin_singleton ?_
          show c.pos + (1 + min k g) ≤ n + (nNew - 1)
          omega
        · exact allWithin_nil
      have habsorb : AllWithin n nNew
          (if min k g ≥ 1 then [.head ⟨c.pos, min k g⟩] else []) := by
        split
        · refine allWithin_singleton ?_
          show n ≤ c.pos + 1 ∧ c.pos + min k g + 2 ≤ n + nNew
          omega
        · exact allWithin_nil
      refine allWithin_append.mpr ⟨allWithin_append.mpr ⟨allWithin_append.mpr
        ⟨allWithin_append.mpr ⟨hdrafts, hverify⟩, hreplay⟩, habsorb⟩, ?_⟩
      split
      · exact allWithin_nil
      · refine ih _ ?_
        show c.pos + (1 + min k g) = n + (c.emitted + 1 + min k g)
        omega

/-- The rows of the head that a run writes are fewer than the tokens it is asked for. -/
theorem card_headPlaces {ws : List Write} (h : AllWithin n nNew ws) :
    (headPlaces ws).card ≤ nNew - 1 := by
  have hsub : headPlaces ws ⊆ Finset.Ico (n - 1) (n + nNew - 2) := by
    intro q hq
    obtain ⟨s, hs, hlow, hhigh⟩ := mem_headPlaces.mp hq
    have hin : n ≤ s.pos + 1 ∧ s.pos + s.len + 2 ≤ n + nNew := h _ hs
    rw [Finset.mem_Ico]
    omega
  refine (Finset.card_le_card hsub).trans ?_
  rw [Nat.card_Ico]
  omega

theorem reach_le {ws : List Write} (h : AllWithin n nNew ws) : reach ws ≤ n + (nNew - 1) := by
  induction ws with
  | nil => exact Nat.zero_le _
  | cons w ws ih =>
    have hrest := ih fun w' hw' => h w' (List.mem_cons_of_mem _ hw')
    cases w with
    | main s => exact Nat.max_le.mpr ⟨h _ (List.mem_cons_self ..), hrest⟩
    | head s => exact hrest

/-! ## A run that accepts everything -/

/-- What drafts are verified, where each turn accepts all of them: those that were made, or up to the
end of the cache. -/
theorem clamp_drafted {e budget : Nat} (hmore : e + 1 < nNew) (hon : 0 < budget) {d g : Nat}
    (hd : drafted (n + nNew) (n + e) budget = d) (hn : 0 < n)
    (hg : clamp (n + e) d (nNew - (e + 1)) (n + nNew) = g) :
    0 < d ∧ g ≤ d ∧ e + g + 2 ≤ nNew ∧ (g = d ∨ e + g + 2 = nNew) := by
  unfold drafted at hd
  unfold clamp at hg
  dsimp only at hg
  split at hg <;> omega

/-- The places of a turn, from the one before its token up to the last that is verified. -/
theorem mem_turn {pos d g : Nat} (hpos : 0 < pos) (hd : 0 < d) {q : Nat}
    (hlow : pos ≤ q + 1) (hhigh : q < pos + g ∨ q + 1 < pos + d) :
    q ∈ headPlaces ((List.range d).map fun i => Write.head ⟨pos - 1 + i, 1⟩) ∨
      q ∈ headPlaces (if g ≥ 1 then [Write.head ⟨pos, g⟩] else []) := by
  by_cases hdraft : q + 1 < pos + d
  · refine .inl (mem_headPlaces.mpr ⟨⟨pos - 1 + (q + 1 - pos), 1⟩,
      List.mem_map.mpr ⟨q + 1 - pos, List.mem_range.mpr (by omega), rfl⟩, ?_⟩)
    show pos - 1 + (q + 1 - pos) ≤ q ∧ q < pos - 1 + (q + 1 - pos) + 1
    omega
  · right
    rw [if_pos (by omega)]
    refine mem_headPlaces.mpr ⟨⟨pos, g⟩, List.mem_singleton_self _, ?_⟩
    show pos ≤ q ∧ q < pos + g
    omega

/-- A loop that has offered all it owes writes nothing. -/
theorem writes_done {maxT : Nat} {c : Count} (h : nNew ≤ c.emitted + 1)
    (answers : List (Nat × Bool)) : writes nNew maxT track c answers = [] := by
  cases answers with
  | nil => rfl
  | cons answer rest =>
    obtain ⟨k, done⟩ := answer
    rw [writes, if_pos h]

theorem reach_heads {β : Type} (l : List β) (f : β → Span) :
    reach (l.map fun b => Write.head (f b)) = 0 := by
  induction l with
  | nil => rfl
  | cons b l ih => exact ih

/-- **A run whose drafts are all accepted** writes every row of the head that it may, and the main
stack up to the last. Its drafts are never switched off. -/
theorem writes_full (hn : 0 < n) (j : Nat) (c : Count) (hc : c.pos = n + c.emitted)
    (hon : 0 < c.budget) (hacc : c.accepted = c.proposed) (hmore : c.emitted + 1 < nNew)
    (hj : nNew ≤ c.emitted + j) :
    reach (writes nNew (n + nNew) track c (List.replicate j (nNew, false))) = n + (nNew - 1) ∧
      ∀ q, c.pos ≤ q + 1 → q + 2 < n + nNew →
        q ∈ headPlaces (writes nNew (n + nNew) track c (List.replicate j (nNew, false))) := by
  induction j generalizing c with
  | zero => omega
  | succ j ih =>
    obtain ⟨pos, e, budget, proposed, accepted⟩ := c
    dsimp only at hc hon hacc hmore hj ⊢
    subst hc hacc
    rw [List.replicate_succ, writes, if_neg (by dsimp only; omega)]
    have hstay : ({ pos := n + e, emitted := e + 1, budget, proposed := accepted, accepted } :
        Count).autoOff = { pos := n + e, emitted := e + 1, budget, proposed := accepted, accepted } := by
      unfold Count.autoOff
      rw [if_neg]
      dsimp only
      omega
    dsimp only
    rw [hstay]
    dsimp only
    generalize hd : drafted (n + nNew) (n + e) budget = d
    generalize hg : clamp (n + e) d (nNew - (e + 1)) (n + nNew) = g
    obtain ⟨hdpos, hgd, hroom, hend⟩ := clamp_drafted hmore hon hd hn hg
    have hk : min nNew g = g := by omega
    have hall : decide (g < g) = false := decide_eq_false (Nat.lt_irrefl g)
    rw [hk, hall, Bool.and_false, Bool.false_and, if_neg Bool.false_ne_true, List.append_nil,
      if_neg Bool.false_ne_true]
    generalize hrest : writes nNew (n + nNew) track _ _ = rest
    -- what follows: nothing more, or the same from the next place on
    have hnext : reach rest ≤ n + (nNew - 1) ∧
        (n + e + 1 + g = n + (nNew - 1) ∨ (reach rest = n + (nNew - 1) ∧
          ∀ q, n + e + (1 + g) ≤ q + 1 → q + 2 < n + nNew → q ∈ headPlaces rest)) := by
      by_cases hlast : e + g + 2 = nNew
      · have hnil : rest = [] := by
          rw [← hrest]
          exact writes_done (by dsimp only; omega) _
        rw [hnil]
        exact ⟨Nat.zero_le _, .inl (by omega)⟩
      · have hsame : g = d := hend.resolve_right hlast
        have hih := ih ⟨n + e + (1 + g), e + 1 + g, budget, accepted + d, accepted + g⟩
          (by dsimp only; omega) hon (by dsimp only; omega) (by dsimp only; omega)
          (by dsimp only; omega)
        rw [hrest] at hih
        exact ⟨hih.1.le, .inr hih⟩
    have habsorb : reach (if g ≥ 1 then [Write.head ⟨n + e, g⟩] else []) = 0 := by
      split <;> rfl
    constructor
    · rw [reach_append, reach_append, reach_append, reach_heads, habsorb, reach, reach]
      dsimp only
      omega
    · intro q hlow hhigh
      rw [headPlaces_append, headPlaces_append, headPlaces_append, Finset.mem_union,
        Finset.mem_union, Finset.mem_union]
      by_cases hin : q < n + e + g ∨ q + 1 < n + e + d
      · rcases mem_turn (by omega) hdpos hlow hin with h | h
        · exact .inl (.inl (.inl h))
        · exact .inl (.inr h)
      · rcases hnext.2 with heq | ⟨-, hplaces⟩
        · omega
        · exact .inr (hplaces q (by omega) hhigh)

end

/-! ## The loop writes them

Of a run of the decode loop itself, whatever its model and however it ends, the forwards are the
first of those that `writes` lists for some answers.
-/

def Write.span : Write → Span
  | .main s => s
  | .head s => s

section

open Kv.Mamba (snapshotMambaInto)

variable {Row F HRow Hid E : Type} {m : Model Row F HRow Hid E} {maxT nNew : Nat} {track : Bool}

def Run.count (r : Run Row F HRow Hid) : Count :=
  ⟨r.pos, r.emitted, r.budget, r.proposed, r.accepted⟩

theorem Run.autoOff_count (r : Run Row F HRow Hid) : r.autoOff.count = r.count.autoOff := by
  unfold Run.autoOff
  rw [apply_ite Run.count]
  rfl

/-- The forwards of `draft`. -/
def draftSpans (pos j : Nat) : List Span := (List.range j).map fun i => ⟨pos - 1 + i, 1⟩

theorem draftSpans_mono (pos : Nat) {i j : Nat} (h : i ≤ j) :
    draftSpans pos i <+: draftSpans pos j := by
  obtain ⟨n, rfl⟩ := Nat.exists_eq_add_of_le h
  rw [draftSpans, draftSpans, List.range_add, List.map_append]
  exact List.prefix_append _ _

/-- The forwards of a turn after its verification. -/
def settleSpans (track : Bool) (pos g k : Nat) (done : Bool) : List Span :=
  (if track && decide (k < g) && !done then [⟨pos, 1 + k⟩] else []) ++
    if k ≥ 1 then [⟨pos, k⟩] else []

/-- The head runs until its turns or the room are used up, or it fails. -/
theorem draftLoop_spans (mtp : MtpHead Row F HRow Hid E) (pick : List F → Int) (p gMax left : Nat)
    (hleft : left ≤ gMax) (st : DraftSt Row F HRow Hid) :
    ∃ j, j ≤ min left (st.kv.maxT - 2 - (p + (gMax - left))) ∧
      (draftLoop mtp pick p gMax left st).1.spans =
        st.spans ++ (List.range j).map (fun i => ⟨p + (gMax - left) + i, 1⟩) ∧
      ((draftLoop mtp pick p gMax left st).2 = none →
        j = min left (st.kv.maxT - 2 - (p + (gMax - left))) ∧
          (draftLoop mtp pick p gMax left st).1.out.length = st.out.length + j) := by
  induction left generalizing st with
  | zero => exact ⟨0, Nat.zero_le _, (List.append_nil _).symm, fun _ => ⟨by omega, rfl⟩⟩
  | succ left ih =>
    rw [draftLoop]
    split
    next hfull => exact ⟨0, Nat.zero_le _, (List.append_nil _).symm, fun _ => ⟨by omega, rfl⟩⟩
    next hroom =>
      have hmain := headForward_main mtp st.kv
        [mtp.fuse st.tok st.h (gMax - (left + 1) == 0)] (p + (gMax - (left + 1)))
      dsimp only
      generalize headForward mtp st.kv _ _ = res at hmain ⊢
      obtain ⟨kv, e | rows⟩ := res
      · exact ⟨1, by omega, rfl, fun hok => by cases hok⟩
      · have hmaxT : kv.maxT = st.kv.maxT := hmain.maxT
        dsimp only
        generalize rows.headD _ = h
        obtain ⟨j, hj, hspans, hout⟩ := ih (by omega)
          ⟨kv, st.out ++ [pick (mtp.logits h)], pick (mtp.logits h), h,
            st.spans ++ [⟨p + (gMax - (left + 1)), 1⟩]⟩
        dsimp only at hj hspans hout
        rw [hmaxT] at hj hout
        have hnext : p + (gMax - left) = p + (gMax - (left + 1)) + 1 := by omega
        refine ⟨j + 1, by omega, ?_, fun hok => ?_⟩
        · rw [hspans, List.append_assoc, List.range_succ_eq_map, List.map_cons, List.map_map, hnext]
          refine congrArg (fun ss => st.spans ++ (_ :: ss)) (List.map_congr_left fun i _ => ?_)
          show Span.mk (p + (gMax - (left + 1)) + 1 + i) 1 = ⟨p + (gMax - (left + 1)) + (i + 1), 1⟩
          rw [Nat.add_right_comm, Nat.add_assoc]
        · obtain ⟨hj', hlen⟩ := hout hok
          rw [List.length_append, List.length_singleton] at hlen
          exact ⟨by omega, by omega⟩

variable {r : Run Row F HRow Hid}

/-- `propose` runs the head as often as `drafted` says, or until it fails. -/
theorem propose_spans (hhead : r.budget = 0 ∨ m.mtp.isSome)
    (hpos : 0 < r.pos) (next : Int) :
    ∃ j, j ≤ drafted r.kv.maxT r.pos r.budget ∧
      (propose m r next).1.spans = r.spans ++ draftSpans r.pos j ∧
      ∀ ds, (propose m r next).2 = .ok ds →
        j = drafted r.kv.maxT r.pos r.budget ∧ ds.length = j := by
  by_cases hoff : r.budget = 0
  · rw [propose_zero hoff]
    refine ⟨0, Nat.zero_le _, (List.append_nil _).symm, fun ds hds => ?_⟩
    cases hds
    exact ⟨by rw [drafted, hoff, Nat.zero_min], rfl⟩
  · obtain ⟨head, hsome⟩ := Option.isSome_iff_exists.mp (hhead.resolve_left hoff)
    have hno : ¬ (r.pos = 0 ∨ r.budget = 0) := by omega
    unfold propose draft
    rw [if_pos (Nat.pos_of_ne_zero hoff), hsome]
    simp only [if_neg hno]
    obtain ⟨j, hj, hspans, hout⟩ := draftLoop_spans head m.pick (r.pos - 1) r.budget r.budget
      (Nat.le_refl _) ⟨r.kv.startAt 0 (r.pos - 1), [], next, r.hlast, []⟩
    rw [Nat.sub_self, Nat.add_zero] at hj hspans hout
    have hcap : (r.kv.startAt 0 (r.pos - 1)).maxT = r.kv.maxT := rfl
    rw [hcap] at hj hout
    generalize draftLoop head m.pick (r.pos - 1) r.budget r.budget _ = res at hspans hout ⊢
    rw [List.nil_append] at hspans
    obtain ⟨d, none | e⟩ := res
    · obtain ⟨hj', hlen⟩ := hout rfl
      refine ⟨j, hj, congrArg (r.spans ++ ·) hspans, fun ds hds => ?_⟩
      cases hds
      exact ⟨hj', by rw [hlen, List.length_nil, Nat.zero_add]⟩
    · exact ⟨j, hj, congrArg (r.spans ++ ·) hspans, nofun⟩

/-- What a turn has written when it ends, from `S` on: all of `W`, or the first of it if it fails. -/
def Turn.Wrote (S W : List Span) (done : Bool) (c : Count) (maxT : Nat) :
    Turn Row F HRow Hid E → Prop
  | .next r => done = false ∧ r.spans = S ++ W ∧ r.count = c ∧ r.kv.maxT = maxT
  | .stop r => done = true ∧ r.spans = S ++ W
  | .fail r _ => r.spans <+: S ++ W

theorem Turn.Wrote.of_append {S A W : List Span} {done : Bool} {c : Count}
    {t : Turn Row F HRow Hid E} (h : t.Wrote (S ++ A) W done c maxT) :
    t.Wrote S (A ++ W) done c maxT := by
  cases t with
  | next r => exact ⟨h.1, h.2.1.trans (List.append_assoc ..), h.2.2⟩
  | stop r => exact ⟨h.1, h.2.trans (List.append_assoc ..)⟩
  | fail r f =>
    show r.spans <+: S ++ (A ++ W)
    rw [← List.append_assoc]
    exact h

/-- What `replay` leaves: no more than one forward, and that one unless it panics before. -/
theorem replay_spans (m : Model Row F HRow Hid E) (r : Run Row F HRow Hid) (ids : List Int) :
    (∀ f, (replay m r ids).2 = some f → (replay m r ids).1.spans <+: r.spans ++ [⟨r.pos, ids.length⟩]) ∧
      ((replay m r ids).2 = none → (replay m r ids).1.spans = r.spans ++ [⟨r.pos, ids.length⟩] ∧
        (replay m r ids).1.count = r.count ∧ (replay m r ids).1.kv.maxT = r.kv.maxT) := by
  unfold replay
  split
  next => exact ⟨fun _ _ => List.prefix_append _ _, nofun⟩
  next main _ =>
    dsimp only
    split
    next => exact ⟨fun _ _ => List.prefix_rfl, nofun⟩
    next => exact ⟨nofun, fun _ => ⟨rfl, rfl, rfl⟩⟩

theorem absorb_spans {mtp : Option (MtpHead Row F HRow Hid E)} (hmtp : mtp.isSome)
    (kv : Kv.Mamba.KvCache Row F HRow) {ids : List Int} (hids : ids.length ≠ 0) (hidden : List Hid)
    (pos : Nat) : (absorb mtp kv ids hidden pos).2.1 = [⟨pos, ids.length⟩] ∧
      (absorb mtp kv ids hidden pos).1.maxT = kv.maxT := by
  obtain ⟨head, rfl⟩ := Option.isSome_iff_exists.mp hmtp
  unfold absorb
  simp only [if_neg hids]
  have hmain := headForward_main head kv
    (List.zipWith (fun tok h => head.fuse tok h true) ids hidden) pos
  generalize headForward head kv _ _ = res at hmain ⊢
  obtain ⟨kv', e | rows⟩ := res
  · exact ⟨rfl, hmain.maxT⟩
  · exact ⟨rfl, hmain.maxT⟩

/-- **The end of a turn** writes what `settleSpans` says. -/
theorem settle_wrote {batch drafts : List Int} (hAll : List Hid) {g : Nat}
    {a : Accept} (hk : a.k ≤ g) (hbatch : batch.length = 1 + g) (hdrafts : g ≤ drafts.length)
    (hmtp : 1 ≤ a.k → m.mtp.isSome) :
    (settle m track batch drafts hAll g a r).Wrote r.spans (settleSpans track r.pos g a.k a.done)
      a.done { r.count with pos := r.pos + (1 + a.k) } r.kv.maxT := by
  unfold settle settleSpans
  -- what is fed again, and then what the head is given
  have hback : ∀ res, (if track && decide (a.k < g) && !a.done then
      replay m r (batch.take (1 + a.k)) else (r, none)) = res →
      (∀ f, res.2 = some f → res.1.spans <+: r.spans ++
        if track && decide (a.k < g) && !a.done then [⟨r.pos, 1 + a.k⟩] else []) ∧
      (res.2 = none → (res.1.spans = r.spans ++
        if track && decide (a.k < g) && !a.done then [⟨r.pos, 1 + a.k⟩] else []) ∧
          res.1.count = r.count ∧ res.1.kv.maxT = r.kv.maxT) := by
    intro res hres
    have hlen : (batch.take (1 + a.k)).length = 1 + a.k := by
      rw [List.length_take]
      omega
    rw [← hres]
    split
    · have hreplay := replay_spans m r (batch.take (1 + a.k))
      rwa [hlen] at hreplay
    · exact ⟨nofun, fun _ => ⟨(List.append_nil _).symm, rfl, rfl⟩⟩
  generalize (if track && decide (a.k < g) && !a.done then
    replay m r (batch.take (1 + a.k)) else (r, none)) = res at hback ⊢
  generalize (if track && decide (a.k < g) && !a.done then [(⟨r.pos, 1 + a.k⟩ : Span)]
    else []) = again at hback ⊢
  obtain ⟨hfail, hok⟩ := hback _ rfl
  obtain ⟨r₁, _ | f⟩ := res
  swap
  · exact (hfail _ rfl).trans (by rw [← List.append_assoc]; exact List.prefix_append _ _)
  obtain ⟨hspans, hcount, hcap⟩ := hok rfl
  have hpos : r₁.pos = r.pos := congrArg Count.pos hcount
  dsimp only at hspans ⊢
  have habs : ∀ out, (if a.k ≥ 1 then absorb m.mtp r₁.kv (drafts.take a.k) hAll r₁.pos
      else (r₁.kv, [], none)) = out →
      out.2.1 = (if a.k ≥ 1 then [⟨r.pos, a.k⟩] else []) ∧ out.1.maxT = r.kv.maxT := by
    intro out hout
    have hlen : (drafts.take a.k).length = a.k := by
      rw [List.length_take]
      omega
    rw [← hout]
    split
    next hpositive =>
      have hids : (drafts.take a.k).length ≠ 0 := by omega
      obtain ⟨hs, hm⟩ := absorb_spans (hmtp hpositive) r₁.kv hids hAll r₁.pos
      rw [hs, hm, hlen, hpos, hcap]
      exact ⟨rfl, rfl⟩
    next => exact ⟨rfl, hcap⟩
  generalize (if a.k ≥ 1 then absorb m.mtp r₁.kv (drafts.take a.k) hAll r₁.pos
    else (r₁.kv, [], none)) = out at habs ⊢
  obtain ⟨kv, spans, f⟩ := out
  obtain ⟨hs, hm⟩ := habs _ rfl
  dsimp only at hs hm
  have hall : r₁.spans ++ spans = r.spans ++ (again ++ if a.k ≥ 1 then [⟨r.pos, a.k⟩] else []) := by
    rw [hspans, hs, List.append_assoc]
  cases f with
  | some e =>
    show r₁.spans ++ spans <+: _
    rw [hall]
  | none =>
    dsimp only
    cases hAll[a.k]? with
    | none =>
      show r₁.spans ++ spans <+: _
      rw [hall]
    | some h =>
      cases hdone : a.done with
      | true => exact ⟨rfl, hall⟩
      | false =>
        refine ⟨rfl, hall, ?_, hm⟩
        show Count.mk (r₁.pos + (1 + a.k)) r₁.count.emitted r₁.count.budget r₁.count.proposed
          r₁.count.accepted = _
        rw [hcount, hpos]

/-- The forwards of a turn whose `k` drafts are accepted, out of `d` that were made. -/
def turnSpans (track : Bool) (pos d g k : Nat) (done : Bool) : List Span :=
  draftSpans pos d ++ ⟨pos, 1 + g⟩ :: settleSpans track pos g k done

/-- **A verify step** writes its drafts, its batch, and what its end does. -/
theorem verify_wrote (m : Model Row F HRow Hid E) (track : Bool)
    {S : List Span} {drafts : List Int} (onToken : List Int → Bool) (next : Int) (howed : r.emitted ≤ nNew)
    (hmtp : 1 ≤ drafts.length → m.mtp.isSome)
    (hS : r.spans = S ++ draftSpans r.pos drafts.length) :
    ∃ k done, k ≤ clamp r.pos drafts.length (nNew - r.emitted) r.kv.maxT ∧
      (verify m track onToken nNew next drafts r).Wrote S
        (turnSpans track r.pos drafts.length
          (clamp r.pos drafts.length (nNew - r.emitted) r.kv.maxT) k done) done
        ⟨r.pos + (1 + k), r.emitted + k, r.budget, r.proposed, r.accepted + k⟩ r.kv.maxT := by
  unfold verify turnSpans
  have hg := (clamp_le r.pos drafts.length (nNew - r.emitted) r.kv.maxT).1
  generalize clamp r.pos drafts.length (nNew - r.emitted) r.kv.maxT = g at hg ⊢
  have hlen : (next :: drafts.take g).length = 1 + g := by
    rw [List.length_cons, List.length_take]
    omega
  dsimp only
  rcases m.forward r.kv.main (next :: drafts.take g) r.pos with e | ⟨hAll, main⟩
  · refine ⟨0, false, Nat.zero_le _, ?_⟩
    show r.spans ++ [⟨r.pos, (next :: drafts.take g).length⟩] <+: _
    rw [hlen, hS, List.append_assoc]
    refine (List.prefix_append_right_inj S).mpr ((List.prefix_append_right_inj _).mpr ?_)
    exact List.cons_prefix_cons.mpr ⟨rfl, List.nil_prefix⟩
  · dsimp only
    obtain ⟨j, hj, hk, he, -, -⟩ := accept_offered m.stopIds onToken
      ((hAll.map fun h => m.pick (m.logits h)).zip (drafts.take g)) ⟨0, r.emitted, r.out, false⟩
      howed
    have hjg : j ≤ g := by
      rw [List.length_zip, List.length_take] at hj
      omega
    generalize accept m.stopIds onToken nNew _ _ = a at hk he ⊢
    dsimp only at hk he
    rw [Nat.zero_add] at hk
    subst hk
    refine ⟨a.k, a.done, hjg, ?_⟩
    generalize hr : ({ r with
      mambaSnap := if track && decide (g > 0) then snapshotMambaInto r.kv.main r.mambaSnap
        else r.mambaSnap
      spans := r.spans ++ [Span.mk r.pos (next :: drafts.take g).length]
      kv := { r.kv with main }
      forwards := r.forwards + 1
      emitted := a.emitted
      out := a.out
      accepted := r.accepted + a.k } : Run Row F HRow Hid) = r₁
    have hsettle : (settle m track (next :: drafts.take g) drafts hAll g a r₁).Wrote r₁.spans
        (settleSpans track r₁.pos g a.k a.done) a.done { r₁.count with pos := r₁.pos + (1 + a.k) }
        r₁.kv.maxT :=
      settle_wrote hAll hjg hlen hg fun hone => hmtp (by omega)
    have hcount : { r₁.count with pos := r₁.pos + (1 + a.k) } =
        (⟨r.pos + (1 + a.k), r.emitted + a.k, r.budget, r.proposed, r.accepted + a.k⟩ : Count) := by
      rw [← hr, ← he]
      rfl
    have hspans : r₁.spans = S ++ (draftSpans r.pos drafts.length ++ [⟨r.pos, 1 + g⟩]) := by
      rw [← hr, ← hlen, ← List.append_assoc, ← hS]
    have hpos : r₁.pos = r.pos := by rw [← hr]
    have hcap : r₁.kv.maxT = r.kv.maxT := by rw [← hr]
    rw [hcount, hspans, hpos, hcap] at hsettle
    rw [List.append_cons]
    exact hsettle.of_append

/-- **A turn**: it stops at the token it offers, or ends as `verify` does. -/
theorem turn_wrote (m : Model Row F HRow Hid E) (track : Bool)
    (onToken : List Int → Bool) (hpos : 0 < r.pos) (hhead : r.budget = 0 ∨ m.mtp.isSome) :
    (∃ r', turn m track onToken nNew r = .stop r' ∧ r'.spans = r.spans) ∨
      ∃ k done budget, ¬ nNew ≤ r.emitted + 1 ∧
        ({ r.count with emitted := r.emitted + 1 } : Count).autoOff.budget = budget ∧
        k ≤ clamp r.pos (drafted r.kv.maxT r.pos budget) (nNew - (r.emitted + 1)) r.kv.maxT ∧
        (turn m track onToken nNew r).Wrote r.spans
          (turnSpans track r.pos (drafted r.kv.maxT r.pos budget)
            (clamp r.pos (drafted r.kv.maxT r.pos budget) (nNew - (r.emitted + 1)) r.kv.maxT) k done)
          done ⟨r.pos + (1 + k), r.emitted + 1 + k, budget,
            r.proposed + drafted r.kv.maxT r.pos budget, r.accepted + k⟩ r.kv.maxT := by
  unfold turn
  dsimp only
  split
  next => exact .inl ⟨_, rfl, rfl⟩
  split
  next => exact .inl ⟨_, rfl, rfl⟩
  next hgo =>
    have hmore : ¬ nNew ≤ r.emitted + 1 := by
      intro hdone
      refine hgo ?_
      rw [Bool.or_eq_true, decide_eq_true_eq]
      exact .inr hdone
    refine .inr ?_
    -- the turn drafts with the budget the switch leaves it
    have hoff : ({ r.count with emitted := r.emitted + 1 } : Count).autoOff.budget =
        (r.emit (m.pick r.logit)).autoOff.budget :=
      (congrArg Count.budget (Run.autoOff_count (r.emit (m.pick r.logit)))).symm
    have hsame := Run.autoOff_eq (r.emit (m.pick r.logit))
    have hhead' : (r.emit (m.pick r.logit)).autoOff.budget = 0 ∨ m.mtp.isSome := by
      refine hhead.imp_left fun hzero => ?_
      rw [Run.autoOff_zero (show (r.emit (m.pick r.logit)).budget = 0 from hzero)]
      exact hzero
    rw [hoff]
    generalize (r.emit (m.pick r.logit)).autoOff = r₁ at hsame hhead' ⊢
    generalize m.pick r.logit = next at hsame ⊢
    have hp := propose_proposed m r₁ next
    obtain ⟨j, hj, hspans, hdrafts⟩ := propose_spans (m := m) hhead' (by rw [hsame]; exact hpos) next
    generalize propose m r₁ next = res at hp hspans hdrafts ⊢
    have hpos₁ : r₁.pos = r.pos := by rw [hsame]; rfl
    have hcap₁ : r₁.kv.maxT = r.kv.maxT := by rw [hsame]; rfl
    have hspans₁ : r₁.spans = r.spans := by rw [hsame]; rfl
    rw [hpos₁, hcap₁] at hj hdrafts
    rw [hpos₁, hspans₁] at hspans
    obtain ⟨r₂, e | drafts⟩ := res
    · refine ⟨0, false, _, hmore, rfl, Nat.zero_le _, ?_⟩
      show r₂.spans <+: _
      dsimp only at hspans
      rw [hspans, turnSpans, ← List.append_assoc]
      refine List.IsPrefix.trans ?_ (List.prefix_append _ _)
      exact (List.prefix_append_right_inj _).mpr (draftSpans_mono r.pos hj)
    · obtain ⟨hj', hlen⟩ := hdrafts drafts rfl
      have hprop := hp.proposed drafts rfl
      have hsame₂ := hp.same
      have hcap₂ := hp.keeps.maxT
      dsimp only at hspans hprop hsame₂ hcap₂ ⊢
      rw [hcap₁] at hcap₂
      have hpos₂ : r₂.pos = r.pos := by rw [hsame₂, hpos₁]
      have hem₂ : r₂.emitted = r.emitted + 1 := by rw [hsame₂, hsame]; rfl
      have hbudget₂ : r₂.budget = r₁.budget := by rw [hsame₂]
      have hacc₂ : r₂.accepted = r.accepted := by rw [hsame₂, hsame]; rfl
      have hprop₁ : r₁.proposed = r.proposed := by rw [hsame]; rfl
      have hmtp : 1 ≤ drafts.length → m.mtp.isSome := fun hone => hhead'.resolve_left fun hzero => by
        rw [hzero, drafted, Nat.zero_min] at hj'
        omega
      have hS : r₂.spans = r.spans ++ draftSpans r₂.pos drafts.length := by
        rw [hspans, hpos₂, hlen]
      obtain ⟨k, done, hk, hv⟩ := verify_wrote m track onToken next
        (show r₂.emitted ≤ nNew by omega) hmtp hS
      rw [hpos₂, hem₂, hcap₂, hbudget₂, hacc₂, hprop, hprop₁, hlen, hj'] at hv
      rw [hpos₂, hem₂, hcap₂, hlen, hj'] at hk
      exact ⟨k, done, _, hmore, rfl, hk, hv⟩

/-- A turn of `writes`. -/
theorem writes_cons {c : Count} {k budget : Nat} {done : Bool} (hmore : ¬ nNew ≤ c.emitted + 1)
    (hoff : ({ c with emitted := c.emitted + 1 } : Count).autoOff.budget = budget)
    (hk : k ≤ clamp c.pos (drafted maxT c.pos budget) (nNew - (c.emitted + 1)) maxT)
    (rest : List (Nat × Bool)) :
    (writes nNew maxT track c ((k, done) :: rest)).map Write.span =
      turnSpans track c.pos (drafted maxT c.pos budget)
          (clamp c.pos (drafted maxT c.pos budget) (nNew - (c.emitted + 1)) maxT) k done ++
        if done then [] else (writes nNew maxT track ⟨c.pos + (1 + k), c.emitted + 1 + k, budget,
          c.proposed + drafted maxT c.pos budget, c.accepted + k⟩ rest).map Write.span := by
  rw [writes, if_neg hmore]
  dsimp only
  have hauto := Count.autoOff_eq { c with emitted := c.emitted + 1 }
  rw [hoff] at hauto
  rw [hauto]
  dsimp only
  generalize clamp c.pos (drafted maxT c.pos budget) (nNew - (c.emitted + 1)) maxT = g at hk ⊢
  rw [Nat.min_eq_left hk, turnSpans, settleSpans, draftSpans]
  simp only [List.map_append, List.map_map, List.map_cons, List.map_nil, List.append_assoc,
    List.cons_append, List.nil_append, Write.span, apply_ite (List.map Write.span)]
  rfl

/-- **The loop**, by induction on its turns: what it writes is the first of `writes`. -/
theorem decodeLoop_writes (m : Model Row F HRow Hid E) (track : Bool) (nNew : Nat)
    (onToken : List Int → Bool) (fuel : Nat) (hpos : 0 < r.pos)
    (hhead : r.budget = 0 ∨ m.mtp.isSome) : ∃ answers,
    (decodeLoop m track onToken nNew fuel r).1.spans <+:
      r.spans ++ (writes nNew r.kv.maxT track r.count answers).map Write.span := by
  induction fuel generalizing r with
  | zero => exact ⟨[], List.prefix_append _ _⟩
  | succ fuel ih =>
    rw [decodeLoop]
    split
    next =>
      rcases turn_wrote m track onToken hpos hhead with
        ⟨r', hstop, hspans⟩ | ⟨k, done, budget, hmore, hoff, hk, hturn⟩
      · rw [hstop]
        refine ⟨[], ?_⟩
        show r'.spans <+: _
        rw [hspans]
        exact List.prefix_append _ _
      · cases ht : turn m track onToken nNew r with
        | next r' =>
          rw [ht] at hturn
          obtain ⟨rfl, hspans, hcount, hcap⟩ := hturn
          have hbudget : budget = 0 ∨ m.mtp.isSome := by
            refine hhead.imp_left fun hzero => ?_
            rw [← hoff]
            unfold Count.autoOff
            split
            next => rfl
            next => exact hzero
          obtain ⟨answers, hrest⟩ := ih (r := r')
            (by rw [show r'.pos = r'.count.pos from rfl, hcount]; dsimp only; omega)
            (by rw [show r'.budget = r'.count.budget from rfl, hcount]; exact hbudget)
          refine ⟨(k, false) :: answers, ?_⟩
          rw [writes_cons hmore hoff hk, ← List.append_assoc]
          rw [hspans, hcap, hcount] at hrest
          exact hrest
        | stop r' =>
          rw [ht] at hturn
          obtain ⟨rfl, hspans⟩ := hturn
          refine ⟨[(k, true)], ?_⟩
          rw [writes_cons hmore hoff hk, ← List.append_assoc]
          show r'.spans <+: _
          rw [hspans]
          exact List.prefix_append _ _
        | fail r' f =>
          rw [ht] at hturn
          refine ⟨[(k, done)], ?_⟩
          rw [writes_cons hmore hoff hk, ← List.append_assoc]
          exact List.IsPrefix.trans hturn (List.prefix_append _ _)
    next => exact ⟨[], List.prefix_append _ _⟩

/-- **A run**: the forwards it was asked for, however it ends, are the first of `runWrites`. -/
theorem generateStreamDrafting_writes (hmtp : m.hasMtp = true → m.mtp.isSome)
    (rollbackEnv : Option String) {kv : Kv.Mamba.KvCache Row F HRow} {prompt : List Int}
    (hcap : kv.maxT = prompt.length + nNew) (budget : Nat) (onToken : List Int → Bool) :
    ∃ track answers, (generateStreamDrafting m rollbackEnv kv prompt nNew budget onToken).spans <+:
      (runWrites track [prompt.length] nNew (if m.hasMtp then budget else 0) answers).map
        Write.span := by
  unfold generateStreamDrafting runWrites
  rw [List.sum_singleton, placed, placed]
  dsimp only
  split
  next => exact ⟨false, [], List.nil_prefix⟩
  next hsize =>
    split
    next => exact ⟨false, [], List.prefix_rfl⟩
    next hidden main _ =>
      split
      next => exact ⟨false, [], List.prefix_rfl⟩
      next hlast _ =>
        have hhead : (if m.hasMtp then budget else 0) = 0 ∨ m.mtp.isSome := by
          split
          next hhas => exact .inr (hmtp hhas)
          next => exact .inl rfl
        have hpos : 0 < (Run.start m kv main hlast prompt.length budget).pos :=
          show 0 < prompt.length by omega
        obtain ⟨answers, h⟩ := decodeLoop_writes m
          (main.hasMamba && rollbackEnv.all (· != "0")) nNew onToken nNew hpos hhead
        refine ⟨main.hasMamba && rollbackEnv.all (· != "0"), answers, ?_⟩
        rw [← hcap]
        exact h

end

end Colibri.Generate
