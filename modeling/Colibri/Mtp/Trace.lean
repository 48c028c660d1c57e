import Colibri.Mtp.Head

/-!
# What the head's rows were computed from

A row of the head's cache is computed from what its run of the head was given for that position:
a token and a hidden row, fused. To speak of that, the head is run here with hidden rows that
carry their origin (`Traced`), and with the origin of every row its blocks have computed beside
the rows themselves (`TracedRows`). It does the same work (`headBlocks_untrace`).

`draft` computes the row before the new token from what it is given, and past it from its own
guesses (`draft_rows`). `absorb` computes the rows of the tokens it is given (`absorb_rows`).

`InPlace` is what is asked of the head: a block gives a row for each hidden row.
-/

namespace Colibri.Mtp

open Kv.Mamba

/-- What `fuse` was given: the token, the hidden row, whether it took it for a raw one, and
whether it is one of the main stack. -/
structure Origin (Hid : Type) where
  tok : Int
  hid : Hid
  raw : Bool
  main : Bool
  deriving DecidableEq

/-- A hidden row. One of the main stack has no origin, one of the head that of its input. -/
structure Traced (Hid : Type) where
  row : Hid
  origin : Option (Origin Hid)

/-- The head's rows, and per layer and position the origin of what a row was computed from. -/
structure TracedRows (HRow Hid : Type) where
  rows : HRow
  origin : Nat → Nat → Option (Origin Hid)

section

variable {Row F HRow Hid E : Type}

def untrace (kv : KvCache Row F (TracedRows HRow Hid)) : KvCache Row F HRow :=
  { kv with head := ⟨kv.head.kvStart, kv.head.rows.rows⟩ }

/-- The origin of the `i`-th row. -/
def originAt (hx : List (Traced Hid)) (i : Nat) : Option (Origin Hid) :=
  hx[i]?.bind Traced.origin

/-- The rows of layer `j` from `pos` on are computed from `hx`. -/
def mark (origin : Nat → Nat → Option (Origin Hid)) (j pos : Nat) (hx : List (Traced Hid)) :
    Nat → Nat → Option (Origin Hid) := fun l p =>
  if l = j ∧ pos ≤ p ∧ p < pos + hx.length then originAt hx (p - pos) else origin l p

/-- The rows that come out of a block have the origins of those that went in. -/
def carry : List (Traced Hid) → List Hid → List (Traced Hid)
  | _, [] => []
  | [], h :: out => ⟨h, none⟩ :: carry [] out
  | x :: hx, h :: out => ⟨h, x.origin⟩ :: carry hx out

/-- Block `j` with origins. -/
def traceBlock (j : Nat) (b : HeadBlock Row F HRow Hid E) :
    HeadBlock Row F (TracedRows HRow Hid) (Traced Hid) E := fun kv hx pos =>
  match b (untrace kv) (hx.map Traced.row) pos with
  | .error e => .error e
  | .ok (out, rows) =>
    .ok (carry hx out, ⟨rows, mark kv.head.rows.origin j pos hx⟩)

def traceBlocks : Nat → List (HeadBlock Row F HRow Hid E) →
    List (HeadBlock Row F (TracedRows HRow Hid) (Traced Hid) E)
  | _, [] => []
  | j, b :: bs => traceBlock j b :: traceBlocks (j + 1) bs

def traceHead (mtp : MtpHead Row F HRow Hid E) :
    MtpHead Row F (TracedRows HRow Hid) (Traced Hid) E where
  blocks := traceBlocks 0 mtp.blocks
  fuse tok h raw := ⟨mtp.fuse tok h.row raw, some ⟨tok, h.row, raw, h.origin.isNone⟩⟩
  logits h := mtp.logits h.row

/-- A block runs in place: as many rows come out as went in. -/
def MtpHead.InPlace (mtp : MtpHead Row F HRow Hid E) : Prop :=
  ∀ b ∈ mtp.blocks, ∀ kv hx pos out rows, b kv hx pos = .ok (out, rows) → out.length = hx.length

/-! ## A run of the head -/

theorem carry_rows (hx : List (Traced Hid)) (out : List Hid) :
    (carry hx out).map Traced.row = out := by
  induction out generalizing hx with
  | nil => cases hx <;> rfl
  | cons h out ih =>
    cases hx with
    | nil => rw [carry, List.map_cons, ih]
    | cons x hx => rw [carry, List.map_cons, ih]

theorem carry_length (hx : List (Traced Hid)) (out : List Hid) :
    (carry hx out).length = out.length := by
  rw [← List.length_map, carry_rows]

variable {hx : List (Traced Hid)} {kv' : KvCache Row F (TracedRows HRow Hid)} {pick : List F → Int}

theorem originAt_carry {out : List Hid} (h : out.length = hx.length)
    (i : Nat) : originAt (carry hx out) i = originAt hx i := by
  induction out generalizing hx i with
  | nil =>
    cases hx with
    | nil => rfl
    | cons x hx => cases h
  | cons o out ih =>
    cases hx with
    | nil => cases h
    | cons x hx =>
      cases i with
      | zero => rfl
      | succ i => exact ih (Nat.succ.inj h) i

theorem untrace_startAt (kv : KvCache Row F (TracedRows HRow Hid)) (j pos : Nat) :
    untrace (kv.startAt j pos) = (untrace kv).startAt j pos := rfl

/-- Origins change nothing else. -/
theorem headBlocks_untrace (bs : List (HeadBlock Row F HRow Hid E)) (j i : Nat)
    (kv : KvCache Row F (TracedRows HRow Hid)) (hx : List (Traced Hid)) (pos : Nat) :
    headBlocks bs i (untrace kv) (hx.map Traced.row) pos =
      (untrace (headBlocks (traceBlocks j bs) i kv hx pos).1,
        (headBlocks (traceBlocks j bs) i kv hx pos).2.map (List.map Traced.row)) := by
  induction bs generalizing j i kv hx with
  | nil => rfl
  | cons b bs ih =>
    rw [traceBlocks, headBlocks, headBlocks, traceBlock, untrace_startAt]
    rcases b ((untrace kv).startAt i pos) (hx.map Traced.row) pos with e | ⟨out, rows⟩
    · rfl
    · dsimp only
      rw [← ih]
      rw [carry_rows]
      rfl

theorem headForward_untrace (mtp : MtpHead Row F HRow Hid E)
    (kv : KvCache Row F (TracedRows HRow Hid)) (hx : List (Traced Hid)) (pos : Nat) :
    headForward mtp (untrace kv) (hx.map Traced.row) pos =
      (untrace (headForward (traceHead mtp) kv hx pos).1,
        (headForward (traceHead mtp) kv hx pos).2.map (List.map Traced.row)) :=
  headBlocks_untrace mtp.blocks 0 0 kv hx pos

/-- The loop of `draft` without the origins. -/
def DraftSt.untrace (st : DraftSt Row F (TracedRows HRow Hid) (Traced Hid)) :
    DraftSt Row F HRow Hid :=
  ⟨Mtp.untrace st.kv, st.out, st.tok, st.h.row, st.spans⟩

theorem headD_row (rows : List (Traced Hid)) (h : Traced Hid) :
    (rows.map Traced.row).headD h.row = (rows.headD h).row := by
  cases rows <;> rfl

/-- Drafting, without origins. -/
theorem draftLoop_untrace (mtp : MtpHead Row F HRow Hid E) (pick : List F → Int)
    (p gMax left : Nat) (st : DraftSt Row F (TracedRows HRow Hid) (Traced Hid)) :
    draftLoop mtp pick p gMax left st.untrace =
      ((draftLoop (traceHead mtp) pick p gMax left st).1.untrace,
        (draftLoop (traceHead mtp) pick p gMax left st).2) := by
  induction left generalizing st with
  | zero => rfl
  | succ left ih =>
    rw [draftLoop, draftLoop]
    dsimp only
    have hmax : st.untrace.kv.maxT = st.kv.maxT := rfl
    rw [hmax]
    split
    next => rfl
    next =>
      have hstep : headForward mtp st.untrace.kv
          [mtp.fuse st.untrace.tok st.untrace.h (gMax - (left + 1) == 0)]
          (p + (gMax - (left + 1))) = _ :=
        headForward_untrace mtp st.kv
          [(traceHead mtp).fuse st.tok st.h (gMax - (left + 1) == 0)] (p + (gMax - (left + 1)))
      rw [hstep]
      generalize headForward (traceHead mtp) st.kv _ _ = res
      obtain ⟨kv, e | rows⟩ := res
      · rfl
      · have hrow : (rows.map Traced.row).headD
            (mtp.fuse st.untrace.tok st.untrace.h (gMax - (left + 1) == 0)) = _ :=
          headD_row rows ((traceHead mtp).fuse st.tok st.h (gMax - (left + 1) == 0))
        dsimp only [Except.map]
        rw [hrow]
        generalize rows.headD ((traceHead mtp).fuse st.tok st.h (gMax - (left + 1) == 0)) = h
        exact ih ⟨kv, st.out ++ [pick (mtp.logits h.row)], pick (mtp.logits h.row), h,
          st.spans ++ [⟨p + (gMax - (left + 1)), 1⟩]⟩

theorem draft_untrace (mtp : Option (MtpHead Row F HRow Hid E)) (pick : List F → Int)
    (kv : KvCache Row F (TracedRows HRow Hid)) (tok : Int) (kvIdx gMax : Nat) (h : Traced Hid) :
    draft mtp pick (untrace kv) tok kvIdx gMax h.row =
      ((draft (mtp.map traceHead) pick kv tok kvIdx gMax h).1.untrace,
        (draft (mtp.map traceHead) pick kv tok kvIdx gMax h).2) := by
  cases mtp with
  | none => rfl
  | some mtp =>
    simp only [draft, Option.map_some]
    split
    next => rfl
    next =>
      exact draftLoop_untrace mtp pick (kvIdx - 1) gMax gMax
        ⟨kv.startAt 0 (kvIdx - 1), [], tok, h, []⟩

/-- `absorb`, without origins. -/
theorem absorb_untrace (mtp : Option (MtpHead Row F HRow Hid E))
    (kv : KvCache Row F (TracedRows HRow Hid)) (ids : List Int) (hs : List (Traced Hid))
    (pos : Nat) : absorb mtp (untrace kv) ids (hs.map Traced.row) pos =
      (untrace (absorb (mtp.map traceHead) kv ids hs pos).1,
        (absorb (mtp.map traceHead) kv ids hs pos).2) := by
  cases mtp with
  | none => rfl
  | some mtp =>
    simp only [absorb, Option.map_some]
    split
    next => rfl
    next =>
      have hin : List.zipWith (fun tok h => mtp.fuse tok h true) ids (hs.map Traced.row) =
          (List.zipWith (fun tok h => (traceHead mtp).fuse tok h true) ids hs).map Traced.row := by
        rw [List.zipWith_map_right, List.map_zipWith]
        rfl
      rw [hin, headForward_untrace]
      generalize headForward (traceHead mtp) kv _ _ = res
      obtain ⟨kv', e | rows⟩ := res
      · rfl
      · rfl

/-- What a run of the head leaves: every layer has its rows at the positions run computed from
what went in, and no other row is computed. -/
structure Ran (j n pos : Nat) (hx : List (Traced Hid))
    (kv kv' : KvCache Row F (TracedRows HRow Hid)) (out : List (Traced Hid)) : Prop where
  rows : ∀ l p, kv'.head.rows.origin l p =
    if (j ≤ l ∧ l < j + n) ∧ pos ≤ p ∧ p < pos + hx.length then originAt hx (p - pos)
    else kv.head.rows.origin l p
  length : out.length = hx.length
  origin : ∀ i, originAt out i = originAt hx i

variable {pos : Nat} {kv : KvCache Row F (TracedRows HRow Hid)} {mtp : MtpHead Row F HRow Hid E}

/-- What the blocks of a run of the head have computed. -/
theorem headBlocks_ran {bs : List (HeadBlock Row F HRow Hid E)}
    (h : ∀ b ∈ bs, ∀ kv hx pos out rows, b kv hx pos = .ok (out, rows) → out.length = hx.length)
    {j i : Nat} {out : List (Traced Hid)}
    (hrun : headBlocks (traceBlocks j bs) i kv hx pos = (kv', .ok out)) :
    Ran j bs.length pos hx kv kv' out := by
  induction bs generalizing j i kv hx with
  | nil =>
    cases hrun
    refine ⟨?_, rfl, fun _ => rfl⟩
    intro l p
    rw [if_neg]
    rintro ⟨⟨hle, hlt⟩, -⟩
    rw [List.length_nil] at hlt
    omega
  | cons b bs ih =>
    rw [traceBlocks, headBlocks, traceBlock] at hrun
    rcases hb : b (untrace (kv.startAt i pos)) (hx.map Traced.row) pos with e | ⟨out₁, rows⟩
    · rw [hb] at hrun
      cases hrun
    · rw [hb] at hrun
      have hlen : out₁.length = hx.length := by
        rw [h b (List.mem_cons_self ..) _ _ _ _ _ hb, List.length_map]
      obtain ⟨hrows, hlength, horigin⟩ :=
        ih (fun b' hb' => h b' (List.mem_cons_of_mem _ hb')) hrun
      rw [carry_length, hlen] at hlength
      refine ⟨?_, hlength, ?_⟩
      · intro l p
        rw [hrows, carry_length, hlen, List.length_cons, originAt_carry hlen]
        simp only [mark]
        -- this layer, one of those after it, or neither
        by_cases hp : pos ≤ p ∧ p < pos + hx.length
        · by_cases hmore : j + 1 ≤ l ∧ l < j + 1 + bs.length
          · rw [if_pos ⟨hmore, hp⟩, if_pos (by omega)]
          · rw [if_neg (fun hc => hmore hc.1)]
            by_cases hl : l = j
            · rw [if_pos ⟨hl, hp⟩, if_pos (by omega)]
            · rw [if_neg (fun hc => hl hc.1), if_neg (by omega)]
              rfl
        · rw [if_neg (fun hc => hp hc.2), if_neg (fun hc => hp hc.2), if_neg (fun hc => hp hc.2)]
          rfl
      · intro n
        rw [horigin, originAt_carry hlen]

theorem headForward_ran (h : mtp.InPlace)
    {out : List (Traced Hid)}
    (hrun : headForward (traceHead mtp) kv hx pos = (kv', .ok out)) :
    Ran 0 mtp.blocks.length pos hx kv kv' out :=
  headBlocks_ran h hrun

theorem startAt_starts {X : Type} {kv : KvCache Row F X} (j : Nat) {lo : Nat}
    (hpos : lo ≤ pos) (h : ∀ x ∈ kv.head.kvStart, lo ≤ x) :
    (kv.startAt j pos).head.kvStart.length = kv.head.kvStart.length ∧
      ∀ x ∈ (kv.startAt j pos).head.kvStart, lo ≤ x := by
  refine ⟨List.length_modify .., ?_⟩
  intro x hx
  obtain ⟨i, hi, rfl⟩ := List.mem_iff_getElem.mp hx
  simp only [KvCache.startAt, List.length_modify] at hi
  simp only [KvCache.startAt, List.getElem_modify]
  have hold := h _ (List.getElem_mem hi)
  split
  next =>
    split
    next => exact hpos
    next => exact hold
  next => exact hold

/-- Where the layers of the head start: as many layers as before, and none starts before both
`from` and `pos`. -/
theorem headBlocks_starts {X Y : Type} (bs : List (HeadBlock Row F X Y E)) (j : Nat)
    (kv : KvCache Row F X) (hx : List Y) {lo : Nat} (hpos : lo ≤ pos)
    (h : ∀ x ∈ kv.head.kvStart, lo ≤ x) :
    (headBlocks bs j kv hx pos).1.head.kvStart.length = kv.head.kvStart.length ∧
      ∀ x ∈ (headBlocks bs j kv hx pos).1.head.kvStart, lo ≤ x := by
  induction bs generalizing j kv hx with
  | nil => exact ⟨rfl, h⟩
  | cons b bs ih =>
    obtain ⟨hlen, hstart⟩ := startAt_starts j hpos h
    rw [headBlocks]
    rcases b (kv.startAt j pos) hx pos with e | ⟨out, rows⟩
    · exact ⟨hlen, hstart⟩
    · obtain ⟨hlen', hstart'⟩ := ih (j + 1)
        { kv.startAt j pos with head := { (kv.startAt j pos).head with rows } } out hstart
      exact ⟨hlen'.trans hlen, hstart'⟩

/-! ## Drafts -/

/-- The steps of `draft` from `g = gMax - left` on compute no row before `p + g`. -/
theorem draftLoop_below (h : mtp.InPlace)
    {p gMax left : Nat} {st st' : DraftSt Row F (TracedRows HRow Hid) (Traced Hid)}
    (hleft : left ≤ gMax) (hrun : draftLoop (traceHead mtp) pick p gMax left st = (st', none)) :
    ∀ l q, q < p + (gMax - left) →
      st'.kv.head.rows.origin l q = st.kv.head.rows.origin l q := by
  induction left generalizing st with
  | zero =>
    cases hrun
    intro l q _
    rfl
  | succ left ih =>
    rw [draftLoop] at hrun
    split at hrun
    next =>
      cases hrun
      intro l q _
      rfl
    next =>
      dsimp only at hrun
      rcases hf : headForward (traceHead mtp) st.kv
        [(traceHead mtp).fuse st.tok st.h (gMax - (left + 1) == 0)] (p + (gMax - (left + 1)))
        with ⟨kv, e | rows⟩
      · rw [hf] at hrun
        cases hrun
      · rw [hf] at hrun
        have hran := headForward_ran h hf
        intro l q hq
        rw [ih (by omega) hrun l q (by omega)]
        dsimp only
        rw [hran.rows, if_neg (by omega)]

/-- Where the blocks' caches start, after drafting. -/
theorem draftLoop_starts {X Y : Type} {mtp : MtpHead Row F X Y E}
    {p lo gMax left : Nat} {st st' : DraftSt Row F X Y} {f : Option E} (hlo : lo ≤ p)
    (hst : ∀ x ∈ st.kv.head.kvStart, lo ≤ x)
    (hrun : draftLoop mtp pick p gMax left st = (st', f)) :
    st'.kv.head.kvStart.length = st.kv.head.kvStart.length ∧
      (∀ x ∈ st'.kv.head.kvStart, lo ≤ x) ∧ ∃ ss, st'.spans = st.spans ++ ss := by
  induction left generalizing st with
  | zero =>
    cases hrun
    exact ⟨rfl, hst, [], (List.append_nil _).symm⟩
  | succ left ih =>
    rw [draftLoop] at hrun
    split at hrun
    next =>
      cases hrun
      exact ⟨rfl, hst, [], (List.append_nil _).symm⟩
    next =>
      obtain ⟨hlen, hstart⟩ := headBlocks_starts mtp.blocks 0 st.kv
        [mtp.fuse st.tok st.h (gMax - (left + 1) == 0)]
        (show lo ≤ p + (gMax - (left + 1)) by omega) hst
      dsimp only [headForward] at hrun
      generalize headBlocks mtp.blocks 0 st.kv _ _ = res at hlen hstart hrun
      obtain ⟨kv, e | rows⟩ := res
      · cases hrun
        exact ⟨hlen, hstart, [_], rfl⟩
      · obtain ⟨hlen', hstart', ss, hss⟩ := ih hstart hrun
        refine ⟨hlen'.trans hlen, hstart', ⟨p + (gMax - (left + 1)), 1⟩ :: ss, ?_⟩
        rw [hss, List.append_assoc]
        rfl

/-- What `draft` does to the rows of the head: before the last position it computes none, that
one from what it is given, and it is the first one it runs over. -/
structure Drafted (n kvIdx : Nat) (tok : Int) (h : Traced Hid)
    (kv : KvCache Row F (TracedRows HRow Hid))
    (d : DraftSt Row F (TracedRows HRow Hid) (Traced Hid)) : Prop where
  row : ∀ l < n, d.kv.head.rows.origin l (kvIdx - 1) =
    some ⟨tok, h.row, true, h.origin.isNone⟩
  below : ∀ l p, p + 1 < kvIdx → d.kv.head.rows.origin l p = kv.head.rows.origin l p
  first : ∃ ss, d.spans = ⟨kvIdx - 1, 1⟩ :: ss
  layers : d.kv.head.kvStart.length = kv.head.kvStart.length
  starts : ∀ lo, lo < kvIdx → (∀ x ∈ kv.head.kvStart, lo ≤ x) → ∀ x ∈ d.kv.head.kvStart, lo ≤ x

/-- **The row that a draft computes** before the new token, and what it leaves alone. -/
theorem draft_rows (h : mtp.InPlace)
    {tok : Int} {kvIdx gMax : Nat} {hid : Traced Hid}
    {d : DraftSt Row F (TracedRows HRow Hid) (Traced Hid)} (hidx : 0 < kvIdx) (hmax : 0 < gMax)
    (hroom : kvIdx + 1 < kv.maxT)
    (hrun : draft (some (traceHead mtp)) pick kv tok kvIdx gMax hid = (d, none)) :
    Drafted mtp.blocks.length kvIdx tok hid kv d := by
  obtain ⟨left, rfl⟩ := Nat.exists_eq_succ_of_ne_zero (Nat.pos_iff_ne_zero.mp hmax)
  simp only [draft] at hrun
  rw [if_neg (by omega)] at hrun
  rw [draftLoop] at hrun
  have hfits : ¬ kvIdx - 1 + (left + 1 - (left + 1)) + 2 ≥ (kv.startAt 0 (kvIdx - 1)).maxT := by
    show ¬ kvIdx - 1 + (left + 1 - (left + 1)) + 2 ≥ kv.maxT
    omega
  rw [if_neg hfits] at hrun
  simp only [Nat.sub_self, Nat.add_zero, beq_self_eq_true, List.nil_append] at hrun
  -- the first step, over the last position
  rcases hf : headForward (traceHead mtp) (kv.startAt 0 (kvIdx - 1))
    [(traceHead mtp).fuse tok hid true] (kvIdx - 1) with ⟨kv₁, e | rows⟩
  · rw [hf] at hrun
    cases hrun
  · rw [hf] at hrun
    dsimp only at hrun
    have hran := headForward_ran h hf
    have hbelow := draftLoop_below h (Nat.le_succ left) hrun
    have hkept : ∀ l q, q + 1 ≤ kvIdx →
        d.kv.head.rows.origin l q = kv₁.head.rows.origin l q := by
      intro l q hq
      exact hbelow l q (by omega)
    have hstarts : ∀ lo, lo < kvIdx → (∀ x ∈ kv.head.kvStart, lo ≤ x) →
        d.kv.head.kvStart.length = kv.head.kvStart.length ∧
          (∀ x ∈ d.kv.head.kvStart, lo ≤ x) ∧ ∃ ss, d.spans = [⟨kvIdx - 1, 1⟩] ++ ss := by
      intro lo hlo hx
      have hp : lo ≤ kvIdx - 1 := by omega
      obtain ⟨hlen, hstart⟩ := startAt_starts 0 hp hx
      obtain ⟨hlen₁, hstart₁⟩ := headBlocks_starts (traceHead mtp).blocks 0 _
        [(traceHead mtp).fuse tok hid true] hp hstart
      rw [headForward] at hf
      rw [hf] at hlen₁ hstart₁
      obtain ⟨hlen₂, hmore⟩ := draftLoop_starts hp hstart₁ hrun
      exact ⟨hlen₂.trans (hlen₁.trans hlen), hmore⟩
    obtain ⟨hlayers, -, hfirst⟩ := hstarts 0 hidx (fun _ _ => Nat.zero_le _)
    refine ⟨?_, ?_, hfirst, hlayers, fun lo hlo hx => (hstarts lo hlo hx).2.1⟩
    · intro l hl
      have hat : (0 ≤ l ∧ l < 0 + mtp.blocks.length) ∧ kvIdx - 1 ≤ kvIdx - 1 ∧
          kvIdx - 1 < kvIdx - 1 + [(traceHead mtp).fuse tok hid true].length := by
        simp
        omega
      rw [hkept l (kvIdx - 1) (by omega), hran.rows, if_pos hat, Nat.sub_self]
      rfl
    · intro l q hq
      rw [hkept l q (by omega), hran.rows, if_neg (by omega)]
      rfl

/-! ## Verified tokens -/

/-- What `absorb` does to the rows of the head: it computes those of its tokens, each from the
token and the hidden row it is given, and no others. -/
structure Absorbed (n pos : Nat) (ids : List Int) (hs : List (Traced Hid))
    (kv kv' : KvCache Row F (TracedRows HRow Hid)) : Prop where
  row : ∀ l < n, ∀ i t x, ids[i]? = some t → hs[i]? = some x →
    kv'.head.rows.origin l (pos + i) = some ⟨t, x.row, true, x.origin.isNone⟩
  other : ∀ l p, p < pos → kv'.head.rows.origin l p = kv.head.rows.origin l p
  layers : kv'.head.kvStart.length = kv.head.kvStart.length
  starts : ∀ lo ≤ pos, (∀ x ∈ kv.head.kvStart, lo ≤ x) → ∀ x ∈ kv'.head.kvStart, lo ≤ x

/-- **The rows that `absorb` computes** are those of its tokens. -/
theorem absorb_rows (h : mtp.InPlace)
    {ids : List Int} {hs : List (Traced Hid)}
    {spans : List Span}
    (hrun : absorb (some (traceHead mtp)) kv ids hs pos = (kv', spans, none)) :
    Absorbed mtp.blocks.length pos ids hs kv kv' := by
  simp only [absorb] at hrun
  split at hrun
  next hnil =>
    cases hrun
    have hids : ids = [] := List.length_eq_zero_iff.mp hnil
    refine ⟨?_, fun _ _ _ => rfl, rfl, fun _ _ hx => hx⟩
    intro l _ i t x ht
    simp [hids] at ht
  next =>
    rcases hf : headForward (traceHead mtp) kv
      (List.zipWith (fun tok h => (traceHead mtp).fuse tok h true) ids hs) pos with ⟨kv₁, e | out⟩
    · rw [hf] at hrun
      cases hrun
    · rw [hf] at hrun
      cases hrun
      have hran := headForward_ran h hf
      have hstarts := fun lo (hlo : lo ≤ pos) (hx : ∀ x ∈ kv.head.kvStart, lo ≤ x) =>
        headBlocks_starts (traceHead mtp).blocks 0 kv
          (List.zipWith (fun tok h => (traceHead mtp).fuse tok h true) ids hs) hlo hx
      rw [headForward] at hf
      simp only [hf] at hstarts
      refine ⟨?_, ?_, (hstarts 0 (Nat.zero_le _) fun _ _ => Nat.zero_le _).1,
        fun lo hlo hx => (hstarts lo hlo hx).2⟩
      · intro l hl i t x ht hx
        have hi : i < ids.length := (List.getElem?_eq_some_iff.mp ht).1
        have hj : i < hs.length := (List.getElem?_eq_some_iff.mp hx).1
        rw [hran.rows, if_pos (by simp only [List.length_zipWith]; omega), Nat.add_sub_cancel_left,
          originAt, List.getElem?_zipWith, ht, hx]
        rfl
      · intro l p hp
        rw [hran.rows, if_neg (by omega)]

end

end Colibri.Mtp
