import Colibri.Lib.Merging
import Colibri.Tokenizer.RoundTrip

/-!
# The merge loop against its reference

The reference procedure is `Merging.Result`, over the ranks the merges give to pairs of
symbols. The loop of `bpe_piece` looks a pair up under one joined key, scans for a rank
lower than the best so far, and starts the scan from `i32::MAX`.

The joined key is harmless: no symbol has a NUL in it, so a key says what its sides are
(`mergesGet_eq`). The start value is not: a merge whose rank is `i32::MAX` is in the table
and is never taken. Ranks count the entries of `merges`, so it takes 2^31 of them. Up to
such a merge the loop does what the reference does, and that is exactly how far it gets
(`merge_loop_iff`).
-/

namespace Colibri

open Tokenizer Merging Relation

namespace LoadedTokenizer

variable (tok : LoadedTokenizer)

/-- The rank of a pair of symbols: what the last entry for the pair says. -/
def mergeRank (l r : Bytes) : Option Int := (tok.merges.find? fun e => e.1 == (l, r)).map Prod.snd

/-- The symbols a piece starts as, one a byte. -/
def symbols (piece : Bytes) : List Bytes := piece.map byte2str

/-- One merge of the reference procedure. -/
abbrev MergeStep : List Bytes → List Bytes → Prop := Step tok.mergeRank (· ++ ·)

/-- The loop of `bpe_piece`, started on `syms`, stops and leaves `out`. -/
def Returns (syms out : List Bytes) : Prop :=
  ∃ fuel, tok.mergeLoop fuel syms = out ∧ (tok.bestPair 0 out (i32Max, none)).2 = none

/-- On this piece the loop stops, with what the reference procedure gives. -/
def MergesAsReference (piece : Bytes) : Prop :=
  ∃ out, tok.Returns (symbols piece) out ∧ Result tok.mergeRank (· ++ ·) (symbols piece) out

/-- No symbol has a NUL in it. -/
def NoNul (syms : List Bytes) : Prop := ∀ s ∈ syms, (0 : UInt8) ∉ s

variable {tok} {syms out : List Bytes} {piece : Bytes}

theorem noNul_symbols (piece : Bytes) : NoNul (symbols piece) := by
  intro s hs
  obtain ⟨b, -, rfl⟩ := List.mem_map.mp hs
  exact (byte2str_spec b.toNat b.toNat_lt).2

theorem NoNul.step {t : List Bytes} (h : NoNul syms) (hstep : tok.MergeStep syms t) : NoNul t := by
  obtain ⟨hbest⟩ := hstep
  rename_i pre l r post k
  intro s hs
  rcases List.mem_append.mp hs with hs | hs
  · exact h s (List.mem_append_left _ hs)
  · rcases List.mem_cons.mp hs with rfl | hs
    · intro hnul
      rcases List.mem_append.mp hnul with hnul | hnul
      · exact h l (by simp) hnul
      · exact h r (by simp) hnul
    · exact h s (List.mem_append_right _ (List.mem_cons_of_mem _ (List.mem_cons_of_mem _ hs)))

/-- **A key finds its pair**, and no other. -/
theorem mergesGet_eq {l r : Bytes} (hl : 0 ∉ l) (hr : 0 ∉ r) :
    tok.mergesGet (mergeKey l r) = tok.mergeRank l r := by
  have hkey : (fun e : (Bytes × Bytes) × Int => mergeKey e.1.1 e.1.2 == mergeKey l r)
      = fun e => e.1 == (l, r) := by
    funext e
    rw [Bool.eq_iff_iff, beq_iff_eq, beq_iff_eq]
    constructor
    · intro h
      obtain ⟨hl', hr'⟩ := mergeKey_inj hl hr h
      exact Prod.ext hl' hr'
    · intro h
      rw [h]
  rw [mergesGet, mergeRank, hkey]

/-! ## One round -/

/-- The scan ends with the best it was given, or with a better one: the best of all. -/
theorem bestPair_cases (h : NoNul syms) (i : Nat) (best : Int × Option Nat) :
    (tok.bestPair i syms best = best ∧
      ∀ j k, pairRank tok.mergeRank syms j = some k → best.1 ≤ k) ∨
    ∃ j k, tok.bestPair i syms best = (k, some (i + j)) ∧ k < best.1 ∧
      Best tok.mergeRank syms j k := by
  induction syms generalizing i best with
  | nil => exact Or.inl ⟨rfl, fun j k hk => (by cases hk)⟩
  | cons l tail ih =>
    cases tail with
    | nil =>
      refine Or.inl ⟨rfl, fun j k hk => ?_⟩
      cases j <;> cases hk
    | cons r rest =>
      have hrank : tok.mergesGet (mergeKey l r) = tok.mergeRank l r :=
        mergesGet_eq (h l (by simp)) (h r (by simp))
      have htail : NoNul (r :: rest) := fun s hs => h s (List.mem_cons_of_mem _ hs)
      by_cases hless : ∃ k, tok.mergeRank l r = some k ∧ k < best.1
      · -- the pair in front is the best so far
        obtain ⟨k, hk, hlt⟩ := hless
        have htake : tok.bestPair i (l :: r :: rest) best
            = tok.bestPair (i + 1) (r :: rest) (k, some i) := by
          rw [bestPair, hrank, hk]
          dsimp only
          rw [if_pos hlt]
        rw [htake]
        rcases ih htail (i + 1) (k, some i) with
          ⟨heq, hleast⟩ | ⟨j, k', heq, hlt', hbest⟩
        · refine Or.inr ⟨0, k, heq, hlt, hk, fun j k' hk' => ?_⟩
          cases j with
          | zero => exact Or.inr ⟨Option.some.inj (hk.symm.trans hk'), Nat.le_refl _⟩
          | succ j =>
            rcases Int.lt_or_eq_of_le (hleast j k' hk') with hlt' | heq'
            · exact Or.inl hlt'
            · exact Or.inr ⟨heq', Nat.zero_le _⟩
        · refine Or.inr ⟨j + 1, k', by rw [heq, Nat.add_right_comm, Nat.add_assoc],
            Int.lt_trans hlt' hlt, hbest.shift fun k₁ h₁ => ?_⟩
          cases Option.some.inj (hk.symm.trans h₁)
          exact hlt'
      · -- it has no rank, or none below the best so far
        have hfront : ∀ k, tok.mergeRank l r = some k → best.1 ≤ k :=
          fun k hk => Int.not_lt.mp fun hlt => hless ⟨k, hk, hlt⟩
        have hkeep : tok.bestPair i (l :: r :: rest) best
            = tok.bestPair (i + 1) (r :: rest) best := by
          rw [bestPair, hrank]
          cases hk : tok.mergeRank l r with
          | none => rfl
          | some k =>
            dsimp only
            rw [if_neg (Int.not_lt.mpr (hfront k hk))]
        rw [hkeep]
        rcases ih htail (i + 1) best with ⟨heq, hleast⟩ | ⟨j, k', heq, hlt', hbest⟩
        · refine Or.inl ⟨heq, fun j k hk => ?_⟩
          cases j with
          | zero => exact hfront k hk
          | succ j => exact hleast j k hk
        · exact Or.inr ⟨j + 1, k', by rw [heq, Nat.add_right_comm, Nat.add_assoc], hlt',
            hbest.shift fun k₁ h₁ => Int.lt_of_lt_of_le hlt' (hfront k₁ h₁)⟩

/-- **A round of the loop** merges the best pair, or finds no rank below `i32::MAX`. -/
theorem round_cases (tok : LoadedTokenizer) (h : NoNul syms) :
    ((tok.bestPair 0 syms (i32Max, none)).2 = none ∧
      ∀ j k, pairRank tok.mergeRank syms j = some k → i32Max ≤ k) ∨
    ∃ j k, (tok.bestPair 0 syms (i32Max, none)).2 = some j ∧ k < i32Max ∧
      Best tok.mergeRank syms j k ∧ tok.MergeStep syms (fuse syms j) := by
  rcases bestPair_cases h 0 (i32Max, none) with ⟨heq, hleast⟩ | ⟨j, k, heq, hlt, hbest⟩
  · exact Or.inl ⟨by rw [heq], hleast⟩
  · refine Or.inr ⟨j, k, by rw [heq, Nat.zero_add], hlt, hbest, ?_⟩
    obtain ⟨pre, l, r, post, rfl, rfl, -⟩ := pairRank_eq_some hbest.here
    rw [fuse_append]
    exact .merge hbest

/-! ## The loop -/

/-- The loop makes merges of the reference procedure, and stops if it has a round for each
symbol. -/
theorem mergeLoop_spec (tok : LoadedTokenizer) {fuel : Nat} (h : NoNul syms) (hfuel : syms.length ≤ fuel) :
    ReflTransGen tok.MergeStep syms (tok.mergeLoop fuel syms) ∧ NoNul (tok.mergeLoop fuel syms) ∧
      (tok.bestPair 0 (tok.mergeLoop fuel syms) (i32Max, none)).2 = none := by
  induction fuel generalizing syms with
  | zero =>
    cases List.length_eq_zero_iff.mp (Nat.le_zero.mp hfuel)
    exact ⟨.refl, h, rfl⟩
  | succ fuel ih =>
    rw [mergeLoop]
    rcases round_cases tok h with ⟨hnone, -⟩ | ⟨j, k, hsome, -, -, hstep⟩
    · rw [hnone]
      exact ⟨.refl, h, hnone⟩
    · rw [hsome]
      have hlen := hstep.length_lt
      obtain ⟨hrun, hnul, hstop⟩ := ih (h.step hstep) (by omega)
      exact ⟨.head hstep hrun, hnul, hstop⟩

/-- A loop that has stopped stays where it is. -/
theorem mergeLoop_add {fuel : Nat} (n : Nat)
    (h : (tok.bestPair 0 (tok.mergeLoop fuel syms) (i32Max, none)).2 = none) :
    tok.mergeLoop (fuel + n) syms = tok.mergeLoop fuel syms := by
  induction fuel generalizing syms with
  | zero =>
    cases n with
    | zero => rfl
    | succ n =>
      have hstop : (tok.bestPair 0 syms (i32Max, none)).2 = none := h
      rw [Nat.zero_add]
      simp only [mergeLoop, hstop]
  | succ fuel ih =>
    rw [Nat.add_right_comm, mergeLoop, mergeLoop]
    rw [mergeLoop] at h
    cases hk : (tok.bestPair 0 syms (i32Max, none)).2 with
    | none => rfl
    | some bp =>
      rw [hk] at h
      exact ih h

/-- **The loop returns**, one list of symbols. -/
theorem returns_iff (h : NoNul syms) :
    tok.Returns syms out ↔ out = tok.mergeLoop syms.length syms := by
  obtain ⟨-, -, hstop⟩ := mergeLoop_spec tok h (Nat.le_refl syms.length)
  constructor
  · rintro ⟨fuel, rfl, hstop'⟩
    rw [← mergeLoop_add syms.length hstop', Nat.add_comm, mergeLoop_add fuel hstop]
  · intro heq
    exact ⟨syms.length, heq.symm, heq ▸ hstop⟩

/-- No rank is above the largest 32-bit number. -/
def RanksFit (tok : LoadedTokenizer) : Prop := ∀ e ∈ tok.merges, e.2 ≤ i32Max

theorem RanksFit.le (hfit : tok.RanksFit) {j : Nat} {k : Int}
    (h : pairRank tok.mergeRank syms j = some k) : k ≤ i32Max := by
  obtain ⟨pre, l, r, post, -, -, hk⟩ := pairRank_eq_some h
  obtain ⟨e, he, rfl⟩ := Option.map_eq_some_iff.mp hk
  exact hfit e (List.mem_of_find?_eq_some he)

/-- If the reference procedure comes to a merge of rank `i32::MAX`, the loop stops at one. -/
theorem stops_at_max (hfit : tok.RanksFit) {fuel : Nat} (h : NoNul syms)
    (hfuel : syms.length ≤ fuel) {mid : List Bytes} (hmid : ReflTransGen tok.MergeStep syms mid)
    {i : Nat} (hbest : Best tok.mergeRank mid i i32Max) :
    ∃ i, Best tok.mergeRank (tok.mergeLoop fuel syms) i i32Max := by
  induction fuel generalizing syms with
  | zero =>
    cases List.length_eq_zero_iff.mp (Nat.le_zero.mp hfuel)
    rcases hmid.cases_head with heq | ⟨t, hstep, -⟩
    · exact ⟨i, heq ▸ hbest⟩
    · exact absurd hstep.length_lt (Nat.not_lt_zero _)
  | succ fuel ih =>
    rw [mergeLoop]
    rcases round_cases tok h with ⟨hnone, hleast⟩ | ⟨j, k, hsome, hlt, hbest', hstep⟩
    · -- the loop stops: whatever has a rank here has that one
      rw [hnone]
      have hranked : ∃ j k, pairRank tok.mergeRank syms j = some k := by
        rcases hmid.cases_head with heq | ⟨t, hstep, -⟩
        · exact ⟨i, i32Max, by rw [heq]; exact hbest.here⟩
        · obtain ⟨hb⟩ := hstep
          exact ⟨_, _, hb.here⟩
      obtain ⟨j, k, hk⟩ := hranked
      obtain ⟨j, k, hb⟩ := exists_best hk
      have hmax : k = i32Max := Int.le_antisymm (hfit.le hb.here) (hleast j k hb.here)
      exact ⟨j, hmax ▸ hb⟩
    · rw [hsome]
      rcases hmid.cases_head with rfl | ⟨t, hstep', hrest⟩
      · obtain ⟨-, hk⟩ := hbest'.unique hbest
        exact absurd hk (Int.ne_of_lt hlt)
      · have hlen := hstep.length_lt
        rw [hstep'.det hstep] at hrest
        exact ih (h.step hstep) (by omega) hrest

/-- The loop gives what the reference procedure gives unless that comes to a merge of rank
`i32::MAX`. -/
theorem mergesAsReference_iff (hfit : tok.RanksFit) (piece : Bytes) :
    tok.MergesAsReference piece ↔
      ∀ mid, ReflTransGen tok.MergeStep (symbols piece) mid →
        ∀ i, ¬ Best tok.mergeRank mid i i32Max := by
  have hnul := noNul_symbols piece
  obtain ⟨hrun, hnul', hstop⟩ :=
    mergeLoop_spec tok hnul (Nat.le_refl (symbols piece).length)
  constructor
  · rintro ⟨out, hreturns, hresult⟩ mid hmid i hbest
    obtain ⟨i, hbest⟩ := stops_at_max hfit hnul (Nat.le_refl _) hmid hbest
    rw [(returns_iff hnul).mp hreturns] at hresult
    have hsome := hbest.here
    rw [hresult.2] at hsome
    cases hsome
  · intro hnever
    refine ⟨_, (returns_iff hnul).mpr rfl, hrun, fun i => ?_⟩
    -- a pair with a rank is left only if the rank is the start value
    rcases round_cases tok hnul' with ⟨-, hleast⟩ | ⟨j, k, hsome, -⟩
    · by_contra hne
      obtain ⟨k, hk⟩ := Option.ne_none_iff_exists'.mp hne
      obtain ⟨j, k, hb⟩ := exists_best hk
      have hmax : k = i32Max := Int.le_antisymm (hfit.le hb.here) (hleast j k hb.here)
      exact hnever _ hrun j (hmax ▸ hb)
    · rw [hstop] at hsome
      cases hsome

end LoadedTokenizer

/-! ## A tokenizer that was loaded -/

section

variable (vocabJ : List (List Char × JsonValue)) (mergesJ addedJ : List JsonValue) (pretok : PreTok)

theorem mem_mergeEntries {mergesJ : List JsonValue} {e : (Bytes × Bytes) × Int}
    (h : e ∈ mergeEntries mergesJ) :
    ∃ i : Nat, i < mergesJ.length ∧ e.2 = asI32 i := by
  obtain ⟨⟨pr, i⟩, hpr, he⟩ := List.mem_filterMap.mp h
  obtain ⟨lr, -, he⟩ := Option.map_eq_some_iff.mp he
  obtain ⟨hlt, -⟩ := List.getElem?_eq_some_iff.mp (List.mem_zipIdx_iff_getElem?.mp hpr)
  exact ⟨i, hlt, by rw [← he]⟩

theorem build_ranksFit : (build vocabJ mergesJ addedJ pretok).RanksFit := by
  intro e he
  obtain ⟨i, -, hi⟩ := mem_mergeEntries (List.mem_reverse.mp he)
  rw [hi, LoadedTokenizer.i32Max]
  exact (asI32_range i).2

/-- **The merge loop against the reference**: it always returns, and it returns what the
reference procedure gives just when that never comes to a merge of rank 2^31 - 1. -/
theorem merge_loop_iff (piece : Bytes) :
    let tok := build vocabJ mergesJ addedJ pretok
    (∃ out, tok.Returns (LoadedTokenizer.symbols piece) out) ∧
      (tok.MergesAsReference piece ↔
        ∀ mid, ReflTransGen tok.MergeStep (LoadedTokenizer.symbols piece) mid →
          ∀ i, ¬ Best tok.mergeRank mid i 2147483647) := by
  intro tok
  exact ⟨⟨_, (LoadedTokenizer.returns_iff (LoadedTokenizer.noNul_symbols piece)).mpr rfl⟩,
    LoadedTokenizer.mergesAsReference_iff (build_ranksFit vocabJ mergesJ addedJ pretok) piece⟩

/-- Entries that are no merges, and then the merge of two bytes. -/
def lateMerge (n : Nat) : List JsonValue :=
  List.replicate n .null ++ [.arr [.str ['a'], .str ['b']]]

theorem mergeEntries_lateMerge (n : Nat) :
    mergeEntries (lateMerge n) = [(([97], [98]), asI32 n)] := by
  have hskip : (List.replicate n JsonValue.null).zipIdx.filterMap
      (fun pr => (mergePair pr.1).map fun lr => (lr, asI32 pr.2)) = [] := by
    rw [List.filterMap_eq_nil_iff]
    intro pr hpr
    rw [(List.mem_replicate.mp (List.fst_mem_of_mem_zipIdx hpr)).2]
    rfl
  rw [mergeEntries, lateMerge, List.zipIdx_append, List.filterMap_append, hskip,
    List.length_replicate, Nat.zero_add]
  rfl

/-- With 2^31 - 1 entries in front, the merge is in the table and is never made. -/
theorem last_merge_lost :
    ¬ (build [] (lateMerge 2147483647) [] .cl100k).MergesAsReference [97, 98] := by
  have hmax : asI32 ((2147483647 : Nat) : Int) = LoadedTokenizer.i32Max := by decide
  have hmerges : (build [] (lateMerge 2147483647) [] .cl100k).merges
      = [(([97], [98]), LoadedTokenizer.i32Max)] := by
    rw [build, mergeEntries_lateMerge, hmax]
    rfl
  have hsyms : LoadedTokenizer.symbols [97, 98] = [[97], [98]] := by decide
  have hrank : (build [] (lateMerge 2147483647) [] .cl100k).mergeRank [97] [98]
      = some LoadedTokenizer.i32Max := by
    rw [LoadedTokenizer.mergeRank, hmerges]
    rfl
  rw [LoadedTokenizer.mergesAsReference_iff (build_ranksFit _ _ _ _), hsyms]
  intro h
  exact h _ .refl 0 (best_pair hrank)

end

end Colibri
