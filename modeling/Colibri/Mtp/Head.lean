import Colibri.Kv.Mamba

/-!
# The MTP speculative head

`draft` chains the head to propose tokens, `absorb` runs it over verified tokens for its
KV side effect alone. What the main stack keeps is not touched by either
(`headForward_main`), so nothing about the proposals is needed to follow the main
model: the blocks, the fusing of a token with a hidden state and the head's logits are
arbitrary here. Every row a run of the head writes is recorded as a `Span`.

A head may fail at any call. `headBlocks_ok`, `draft_ok` and `absorb_ok` are for one that does not
(`Reliable`); the lemmas on what is kept are for any.
-/

namespace Colibri.Mtp

open Kv.Mamba

/-- The rows `pos, …, pos + len - 1` that a forward is asked to write. -/
structure Span where
  pos : Nat
  len : Nat
  deriving Repr, DecidableEq

def Span.Fits (maxT : Nat) (s : Span) : Prop := s.pos + s.len ≤ maxT

section

variable {Row F HRow Hid E : Type}

/-- Index of the greatest value; the first of equals. -/
def argmax (gt : F → F → Bool) (negInf : F) (logits : List F) : Nat :=
  (logits.foldl (fun (best, bv, i) v => if gt v bv then (i, v, i + 1) else (best, bv, i + 1))
    (0, negInf, 0)).1

/-- One block: the rows of the head's layer it ran in, and its output rows. -/
abbrev HeadBlock (Row F HRow Hid E : Type) :=
  KvCache Row F HRow → List Hid → Nat → Except E (List Hid × HRow)

/-- `fuse tok h raw` is the block input of a token and a hidden state; `logits` is the
head's own norm followed by the shared `lm_head`. -/
structure MtpHead (Row F HRow Hid E : Type) where
  blocks : List (HeadBlock Row F HRow Hid E)
  fuse : Int → Hid → Bool → Hid
  logits : Hid → List F

/-- The blocks from layer `j` of the head on, in place over `hx`. -/
def headBlocks : List (HeadBlock Row F HRow Hid E) → Nat → KvCache Row F HRow → List Hid → Nat →
    KvCache Row F HRow × Except E (List Hid)
  | [], _, kv, hx, _ => (kv, .ok hx)
  | b :: bs, j, kv, hx, pos =>
    let kv := kv.startAt j pos
    match b kv hx pos with
    | .error e => (kv, .error e)
    | .ok (hx, rows) => headBlocks bs (j + 1) { kv with head := { kv.head with rows } } hx pos

def headForward (mtp : MtpHead Row F HRow Hid E) (kv : KvCache Row F HRow) (hx : List Hid)
    (pos : Nat) : KvCache Row F HRow × Except E (List Hid) :=
  headBlocks mtp.blocks 0 kv hx pos

/-- What `draft`'s loop carries. -/
structure DraftSt (Row F HRow Hid : Type) where
  kv : KvCache Row F HRow
  out : List Int
  tok : Int
  h : Hid
  spans : List Span

/-- `for g in gMax - left..gMax`: a step runs the head at `p + g`, stops for want of room,
or ends the loop with the head's failure. -/
def draftLoop (mtp : MtpHead Row F HRow Hid E) (pick : List F → Int) (p gMax : Nat) :
    Nat → DraftSt Row F HRow Hid → DraftSt Row F HRow Hid × Option E
  | 0, st => (st, none)
  | left + 1, st =>
    let g := gMax - (left + 1)
    let pos := p + g
    if pos + 2 ≥ st.kv.maxT then (st, none)
    else
      let hx := mtp.fuse st.tok st.h (g == 0)
      let st := { st with spans := st.spans ++ [Span.mk pos 1] }
      match headForward mtp st.kv [hx] pos with
      | (kv, .error e) => ({ st with kv }, some e)
      | (kv, .ok rows) =>
        -- `hx` was run in place: the one row that came back
        let h := rows.headD hx
        let t2 := pick (mtp.logits h)
        draftLoop mtp pick p gMax left { st with kv, out := st.out ++ [t2], tok := t2, h }

/-- Up to `gMax` proposed tokens after `nextTok`, which stands at index `kvIdx`. -/
def draft (mtp : Option (MtpHead Row F HRow Hid E)) (pick : List F → Int)
    (kv : KvCache Row F HRow) (nextTok : Int) (kvIdx gMax : Nat) (lastHidden : Hid) :
    DraftSt Row F HRow Hid × Option E :=
  let st : DraftSt Row F HRow Hid := ⟨kv, [], nextTok, lastHidden, []⟩
  match mtp with
  | none => (st, none)
  | some mtp =>
    if kvIdx = 0 ∨ gMax = 0 then (st, none)
    else
      let p := kvIdx - 1
      draftLoop mtp pick p gMax gMax { st with kv := kv.startAt 0 p }

/-- The head over verified tokens: `hidden[i]` is the main model's hidden state at
`posBase + i`, `nextIds[i]` the token that followed it. -/
def absorb (mtp : Option (MtpHead Row F HRow Hid E)) (kv : KvCache Row F HRow)
    (nextIds : List Int) (hidden : List Hid) (posBase : Nat) :
    KvCache Row F HRow × List Span × Option E :=
  match mtp with
  | none => (kv, [], none)
  | some mtp =>
    if nextIds.length = 0 then (kv, [], none)
    else
      let hx := List.zipWith (fun tok h => mtp.fuse tok h true) nextIds hidden
      match headForward mtp kv hx posBase with
      | (kv, .error e) => (kv, [⟨posBase, nextIds.length⟩], some e)
      | (kv, .ok _) => (kv, [⟨posBase, nextIds.length⟩], none)

/-- The head leaves what the main stack keeps, and the size of the cache. -/
structure KeepsMain (kv kv' : KvCache Row F HRow) : Prop where
  main : kv'.main = kv.main
  maxT : kv'.maxT = kv.maxT

theorem KeepsMain.refl (kv : KvCache Row F HRow) : KeepsMain kv kv := ⟨rfl, rfl⟩

theorem KeepsMain.trans {a b c : KvCache Row F HRow} (h : KeepsMain a b) (h' : KeepsMain b c) :
    KeepsMain a c :=
  ⟨h'.main.trans h.main, h'.maxT.trans h.maxT⟩

theorem startAt_main (kv : KvCache Row F HRow) (j pos : Nat) : KeepsMain kv (kv.startAt j pos) :=
  ⟨rfl, rfl⟩

theorem headBlocks_main (bs : List (HeadBlock Row F HRow Hid E)) (j : Nat)
    (kv : KvCache Row F HRow) (hx : List Hid) (pos : Nat) :
    KeepsMain kv (headBlocks bs j kv hx pos).1 := by
  induction bs generalizing j kv hx with
  | nil => exact KeepsMain.refl kv
  | cons b bs ih =>
    rw [headBlocks]
    rcases b (kv.startAt j pos) hx pos with e | ⟨hx', rows⟩
    · exact startAt_main kv j pos
    · have hset : KeepsMain kv
          { kv.startAt j pos with head := { (kv.startAt j pos).head with rows } } := ⟨rfl, rfl⟩
      exact hset.trans (ih ..)

/-- **A run of the head leaves the main stack.** -/
theorem headForward_main (mtp : MtpHead Row F HRow Hid E) (kv : KvCache Row F HRow)
    (hx : List Hid) (pos : Nat) : KeepsMain kv (headForward mtp kv hx pos).1 :=
  headBlocks_main ..

/-- What the loop of `draft` keeps: the main stack, and spans inside the cache. It adds no
more tokens than there are turns left. -/
theorem draftLoop_keeps (mtp : MtpHead Row F HRow Hid E) (pick : List F → Int) (p gMax left : Nat)
    (st : DraftSt Row F HRow Hid) (hspans : ∀ s ∈ st.spans, s.Fits st.kv.maxT) :
    KeepsMain st.kv (draftLoop mtp pick p gMax left st).1.kv ∧
      (∀ s ∈ (draftLoop mtp pick p gMax left st).1.spans, s.Fits st.kv.maxT) ∧
      (draftLoop mtp pick p gMax left st).1.out.length ≤ st.out.length + left := by
  induction left generalizing st with
  | zero => exact ⟨KeepsMain.refl _, hspans, Nat.le_refl _⟩
  | succ left ih =>
    rw [draftLoop]
    split
    · exact ⟨KeepsMain.refl _, hspans, Nat.le_add_right ..⟩
    next hroom =>
      have hfit : ∀ s ∈ st.spans ++ [(⟨p + (gMax - (left + 1)), 1⟩ : Span)],
          s.Fits st.kv.maxT := by
        intro s hs
        rcases List.mem_append.mp hs with hs | hs
        · exact hspans s hs
        · rw [List.mem_singleton.mp hs]
          show p + (gMax - (left + 1)) + 1 ≤ st.kv.maxT
          omega
      have hmain := headForward_main mtp st.kv
        [mtp.fuse st.tok st.h (gMax - (left + 1) == 0)] (p + (gMax - (left + 1)))
      dsimp only
      generalize headForward mtp st.kv _ _ = res at hmain ⊢
      obtain ⟨kv, e | rows⟩ := res
      · exact ⟨hmain, hfit, Nat.le_add_right ..⟩
      · have hmaxT : kv.maxT = st.kv.maxT := hmain.maxT
        dsimp only
        generalize rows.headD _ = h
        obtain ⟨hk, hs, hlen⟩ := ih
          ⟨kv, st.out ++ [pick (mtp.logits h)], pick (mtp.logits h), h,
            st.spans ++ [⟨p + (gMax - (left + 1)), 1⟩]⟩ (by rw [hmaxT]; exact hfit)
        refine ⟨hmain.trans hk, ?_, Nat.le_trans hlen ?_⟩
        · rw [← hmaxT]
          exact hs
        · show (st.out ++ [pick (mtp.logits h)]).length + left ≤ st.out.length + (left + 1)
          rw [List.length_append, List.length_singleton]
          omega

/-- `draft` keeps the main stack, stays inside the cache and proposes no more than it was
asked for. -/
theorem draft_keeps (mtp : Option (MtpHead Row F HRow Hid E)) (pick : List F → Int)
    (kv : KvCache Row F HRow) (nextTok : Int) (kvIdx gMax : Nat) (lastHidden : Hid) :
    KeepsMain kv (draft mtp pick kv nextTok kvIdx gMax lastHidden).1.kv ∧
      (∀ s ∈ (draft mtp pick kv nextTok kvIdx gMax lastHidden).1.spans, s.Fits kv.maxT) ∧
      (draft mtp pick kv nextTok kvIdx gMax lastHidden).1.out.length ≤ gMax := by
  have hnone : ∀ s ∈ ([] : List Span), s.Fits kv.maxT := by
    intro s hs
    cases hs
  unfold draft
  cases mtp with
  | none => exact ⟨KeepsMain.refl _, hnone, Nat.zero_le _⟩
  | some mtp =>
    by_cases h : kvIdx = 0 ∨ gMax = 0
    · simp only [if_pos h]
      exact ⟨KeepsMain.refl _, hnone, Nat.zero_le _⟩
    · simp only [if_neg h]
      obtain ⟨hk, hs, hlen⟩ := draftLoop_keeps mtp pick (kvIdx - 1) gMax gMax
        ⟨kv.startAt 0 (kvIdx - 1), [], nextTok, lastHidden, []⟩ hnone
      exact ⟨(startAt_main ..).trans hk, hs, by simpa using hlen⟩

theorem absorb_keepsMain (mtp : Option (MtpHead Row F HRow Hid E)) (kv : KvCache Row F HRow)
    (nextIds : List Int) (hidden : List Hid) (posBase : Nat) :
    KeepsMain kv (absorb mtp kv nextIds hidden posBase).1 := by
  unfold absorb
  cases mtp with
  | none => exact KeepsMain.refl _
  | some mtp =>
    by_cases h : nextIds.length = 0
    · simp only [if_pos h]
      exact KeepsMain.refl _
    · simp only [if_neg h]
      have hmain := headForward_main mtp kv
        (List.zipWith (fun tok h => mtp.fuse tok h true) nextIds hidden) posBase
      generalize headForward mtp kv _ _ = res at hmain ⊢
      obtain ⟨kv', e | rows⟩ := res
      · exact hmain
      · exact hmain

theorem absorb_fits (mtp : Option (MtpHead Row F HRow Hid E)) (kv : KvCache Row F HRow)
    (nextIds : List Int) (hidden : List Hid) (posBase : Nat)
    (hfit : posBase + nextIds.length ≤ kv.maxT) :
    ∀ s ∈ (absorb mtp kv nextIds hidden posBase).2.1, s.Fits kv.maxT := by
  unfold absorb
  cases mtp with
  | none => simp
  | some mtp =>
    by_cases h : nextIds.length = 0
    · simp only [if_pos h]
      simp
    · simp only [if_neg h]
      obtain ⟨kv', e | rows⟩ := headForward mtp kv
        (List.zipWith (fun tok h => mtp.fuse tok h true) nextIds hidden) posBase
      · simpa [Span.Fits] using hfit
      · simpa [Span.Fits] using hfit

theorem absorb_main (mtp : Option (MtpHead Row F HRow Hid E)) (kv : KvCache Row F HRow)
    (nextIds : List Int) (hidden : List Hid) (posBase : Nat) :
    (absorb mtp kv nextIds hidden posBase).1.main = kv.main :=
  (absorb_keepsMain mtp kv nextIds hidden posBase).main

/-- No block of the head fails. -/
def MtpHead.Reliable (mtp : MtpHead Row F HRow Hid E) : Prop :=
  ∀ b ∈ mtp.blocks, ∀ kv hx pos e, b kv hx pos ≠ .error e

theorem headBlocks_ok {bs : List (HeadBlock Row F HRow Hid E)}
    (h : ∀ b ∈ bs, ∀ kv hx pos e, b kv hx pos ≠ .error e) (j : Nat) (kv : KvCache Row F HRow)
    (hx : List Hid) (pos : Nat) (e : E) : (headBlocks bs j kv hx pos).2 ≠ .error e := by
  induction bs generalizing j kv hx with
  | nil =>
    intro he
    cases he
  | cons b bs ih =>
    rw [headBlocks]
    have hb := h b (List.mem_cons_self ..) (kv.startAt j pos) hx pos
    generalize b (kv.startAt j pos) hx pos = res at hb ⊢
    rcases res with e' | ⟨hx', rows⟩
    · exact absurd rfl (hb e')
    · have hrest : ∀ b' ∈ bs, ∀ kv hx pos e, b' kv hx pos ≠ .error e := by
        intro b' hb'
        exact h b' (List.mem_cons_of_mem _ hb')
      exact ih hrest (j + 1) _ hx'

theorem draftLoop_ok {mtp : MtpHead Row F HRow Hid E} (h : mtp.Reliable) (pick : List F → Int)
    (p gMax left : Nat) (st : DraftSt Row F HRow Hid) :
    (draftLoop mtp pick p gMax left st).2 = none := by
  induction left generalizing st with
  | zero => rfl
  | succ left ih =>
    rw [draftLoop]
    split
    · rfl
    · have hok := headBlocks_ok h 0 st.kv [mtp.fuse st.tok st.h (gMax - (left + 1) == 0)]
        (p + (gMax - (left + 1)))
      dsimp only [headForward]
      generalize headBlocks mtp.blocks 0 st.kv _ _ = res at hok ⊢
      obtain ⟨kv, e | rows⟩ := res
      · exact absurd rfl (hok e)
      · exact ih _

theorem draft_ok {mtp : Option (MtpHead Row F HRow Hid E)} (h : ∀ head ∈ mtp, head.Reliable)
    (pick : List F → Int) (kv : KvCache Row F HRow) (nextTok : Int) (kvIdx gMax : Nat)
    (lastHidden : Hid) : (draft mtp pick kv nextTok kvIdx gMax lastHidden).2 = none := by
  unfold draft
  cases mtp with
  | none => rfl
  | some mtp =>
    by_cases hno : kvIdx = 0 ∨ gMax = 0
    · simp only [if_pos hno]
    · simp only [if_neg hno]
      exact draftLoop_ok (h mtp rfl) ..

theorem absorb_ok {mtp : Option (MtpHead Row F HRow Hid E)} (h : ∀ head ∈ mtp, head.Reliable)
    (kv : KvCache Row F HRow) (nextIds : List Int) (hidden : List Hid) (posBase : Nat) :
    (absorb mtp kv nextIds hidden posBase).2.2 = none := by
  unfold absorb
  cases mtp with
  | none => rfl
  | some mtp =>
    by_cases hno : nextIds.length = 0
    · simp only [if_pos hno]
    · simp only [if_neg hno]
      have hok := headBlocks_ok (h mtp rfl) 0 kv
        (List.zipWith (fun tok h => mtp.fuse tok h true) nextIds hidden) posBase
      dsimp only [headForward]
      generalize headBlocks mtp.blocks 0 kv _ _ = res at hok ⊢
      obtain ⟨kv', e | rows⟩ := res
      · exact absurd rfl (hok e)
      · rfl

end

end Colibri.Mtp
