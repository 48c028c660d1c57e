import Colibri.Cluster.ShardNames
import Colibri.Loader.QtLoad

/-!
# Experts out of one read

An expert's projections are read in one go: what comes back is a view for each, the place
of its bytes in a buffer they share. `expert_from_views` makes tensors of them that are
views themselves.

Of a block-scaled blob the lengths are computed from the dimensions, and the view's own
length is not looked at: a blob that is too short is taken to go on into what lies behind
it. `expertFromViews_meets_iff` says when every range is the projection's own.

The codes of a row-scaled blob are all of its bytes, whatever their number; then it is the
lengths that can be wrong. The simulation of NVFP4, a measuring probe, is off.

`Fails`, `Aborts` and `Fits` are the conditions of one projection: its scales cannot be read,
reading them is a panic, its blob is as long as it should be. `mk_cases` says that `mk` has an
error, a panic or a right tensor by these three, and `slot_meets` puts one projection before
others.
-/

namespace Colibri.Moe.Views

open Batch Safetensors Loader Cluster

/-- A projection: what `mk` is called with. -/
structure Proj where
  o : Nat
  i : Nat
  /-- the weight's name -/
  name : List Char

structure Expert where
  gate : Loader.QTensor
  up : Loader.QTensor
  down : Loader.QTensor

section

variable (C : Conv) (s : Shards) (fp8 : Bool)

/-- `fp4_sidecar`: the name, the format and the block size. -/
def fp4Sidecar (base : List Char) : Option (List Char × Nat × Nat) :=
  if has s (gName base) then some (gName base, 5, 16)
  else if has s (base ++ ".mx".toList) then some (base ++ ".mx".toList, 6, 32)
  else none

/-- `mk` of `expert_from_views`. -/
def mk (p : Proj) (w : View) : Outcome LoadError Loader.QTensor :=
  match fp4Sidecar s p.name with
  | some (sidecar, fmt, blk) => do
    let nib := umul p.o ((p.i + 1) / 2)
    let bs := umul p.o ((p.i + (blk - 1)) / blk)
    let g ← ioOr (s.readF32 C sidecar [0])
    return { fmtCode := fmt, o := asI32 p.o, i := asI32 p.i, q4 := .shared w.buf w.off nib
             bs := .shared w.buf (w.off + nib) bs, g := g.headD 0 }
  | none => do
    alloc p.o 4
    let scales ← ioOr (s.readF32 C (qsName p.name) (List.replicate p.o 0))
    if w.len = umul p.o p.i then
      -- one byte a weight: e4m3 under the switch, which is a view, else int8, which is a copy
      if fp8 then
        return { fmtCode := 4, o := asI32 p.o, i := asI32 p.i, s := scales
                 q4 := .shared w.buf w.off w.len }
      else do
        let codes ← .ofOption w.bytes
        return { fmtCode := 1, o := asI32 p.o, i := asI32 p.i, s := scales
                 q8 := codes.map UInt8.toInt8 }
    else
      return { fmtCode := 3, o := asI32 p.o, i := asI32 p.i, s := scales
               q4 := .shared w.buf w.off w.len }

/-- `mk`, on `views[k]`. -/
def mkAt (p : Proj) (view : Option View) : Outcome LoadError Loader.QTensor :=
  match view with
  | some w => mk C s fp8 p w
  | none => .panic

variable (layout : ExpertLayout) (hidden moeInter layer eid : Nat) (views : List View)

/-- The projections in the order of their views. -/
def projsOf : List (Proj × Option View) :=
  let name suf := layout.weightName layer eid suf
  if layout.gateless then
    [(⟨moeInter, hidden, name "up_proj".toList⟩, views[0]?),
      (⟨hidden, moeInter, name "down_proj".toList⟩, views[1]?)]
  else
    [(⟨moeInter, hidden, name "gate_proj".toList⟩, views[0]?),
      (⟨moeInter, hidden, name "up_proj".toList⟩, views[1]?),
      (⟨hidden, moeInter, name "down_proj".toList⟩, views[2]?)]

def expertFromViews : Outcome LoadError Expert :=
  let name suf := layout.weightName layer eid suf
  if layout.gateless then do
    let up ← mkAt C s fp8 ⟨moeInter, hidden, name "up_proj".toList⟩ views[0]?
    let down ← mkAt C s fp8 ⟨hidden, moeInter, name "down_proj".toList⟩ views[1]?
    return { gate := {}, up, down }
  else do
    let gate ← mkAt C s fp8 ⟨moeInter, hidden, name "gate_proj".toList⟩ views[0]?
    let up ← mkAt C s fp8 ⟨moeInter, hidden, name "up_proj".toList⟩ views[1]?
    let down ← mkAt C s fp8 ⟨hidden, moeInter, name "down_proj".toList⟩ views[2]?
    return { gate, up, down }

/-! ## What its tensors should be -/

/-- A range that lies in the blob. -/
def Covers (w : View) : Bytes → Prop
  | .empty => True
  | .owned _ => False
  | .shared buf off len => buf = w.buf ∧ w.off ≤ off ∧ off + len ≤ w.off + w.len

/-- A tensor of the projection's lengths, all of whose bytes are the blob's. -/
structure OwnBlob (p : Proj) (w : View) (t : Loader.QTensor) : Prop where
  sized : t.Sized p.o p.i
  q4 : Covers w t.q4
  bs : Covers w t.bs
  q8 : t.q8 = [] ∨ ∃ codes, w.bytes = some codes ∧ t.q8 = codes.map UInt8.toInt8

/-- The same, when there is a blob. -/
def OwnAt (x : Proj × Option View) (t : Loader.QTensor) : Prop :=
  ∃ w, x.2 = some w ∧ OwnBlob x.1 w t

/-- The tensors of an expert, in the order of its projections. -/
def Expert.tensors (gateless : Bool) (ex : Expert) : List Loader.QTensor :=
  if gateless then [ex.up, ex.down] else [ex.gate, ex.up, ex.down]

/-- An error, or an expert each of whose tensors has its own blob. -/
def Meets : Outcome LoadError Expert → Prop
  | .ok ex => List.Forall₂ OwnAt (projsOf layout hidden moeInter layer eid views)
      (ex.tensors layout.gateless)
  | .error _ => True
  | .panic => False

/-! ## When they are that -/

/-- The scales cannot be read: an error. -/
def Fails (p : Proj) : Prop :=
  match fp4Sidecar s p.name with
  | some (sidecar, _, _) => s.Cut sidecar
  | none => p.o * 4 < 2 ^ 63 ∧ (s.find (qsName p.name) = none ∨ s.Cut (qsName p.name))

/-- The sidecar has no value that is refused, and the blob has the bytes the dimensions ask
for: as many of them at least for the block-scaled formats, as many exactly for the others. -/
def Fits (p : Proj) (w : View) : Prop :=
  Small p.o p.i ∧
  match fp4Sidecar s p.name with
  | some (sidecar, _, blk) =>
    let need := p.o * ((p.i + 1) / 2) + p.o * ((p.i + (blk - 1)) / blk)
    s.Gives C sidecar 0 1 ∧ need ≤ w.len ∧ w.off + need ≤ w.buf.length
  | none =>
    s.Gives C (qsName p.name) 0 p.o ∧ (w.len = p.o * p.i ∨ w.len = p.o * ((p.i + 3) / 4)) ∧
      w.off + w.len ≤ w.buf.length

/-- Reading the scales, or copying int8 codes, is a panic. -/
def Aborts (p : Proj) (w : View) : Prop :=
  match fp4Sidecar s p.name with
  | some (sidecar, _, _) => ¬ s.Cut sidecar ∧ ¬ s.Gives C sidecar 0 1
  | none => ¬ p.o * 4 < 2 ^ 63 ∨
      (¬ Fails s p ∧ (¬ s.Gives C (qsName p.name) 0 p.o ∨
        (fp8 = false ∧ w.len = umul p.o p.i ∧ w.buf.length < w.off + w.len)))

/-- One projection's scales cannot be read, and none before it is a panic. -/
def Settled : List (Proj × Option View) → Prop
  | [] => False
  | (p, view) :: rest =>
    ∃ w, view = some w ∧ (Fails s p ∨ (¬ Aborts C s fp8 p w ∧ Settled rest))

/-- The expert ends in an error, or every blob is as long as it should be. -/
def Trusted : Prop :=
  Settled C s fp8 (projsOf layout hidden moeInter layer eid views) ∨
    ∀ x ∈ projsOf layout hidden moeInter layer eid views, ∃ w, x.2 = some w ∧ Fits C s x.1 w

end

/-! ## One projection -/

theorem shared_len {buf : List UInt8} {off len n : Nat} :
    (Bytes.shared buf off len).Len n ↔ off + len ≤ buf.length ∧ len = n := by
  unfold Bytes.Len
  simp only [Bytes.asSlice, slice]
  constructor
  · rintro ⟨v, hv, rfl⟩
    split at hv
    next h =>
      cases hv
      rw [List.length_take, List.length_drop]
      omega
    next => cases hv
  · rintro ⟨hle, rfl⟩
    refine ⟨_, if_pos ⟨by omega, hle⟩, ?_⟩
    rw [List.length_take, List.length_drop]
    omega

section

variable {C : Conv} {s : Shards} {fp8 : Bool} {p : Proj} {w : View}

theorem fp4Sidecar_some {base sidecar : List Char} {fmt blk : Nat}
    (h : fp4Sidecar s base = some (sidecar, fmt, blk)) :
    s.find sidecar ≠ none ∧ (fmt = 5 ∧ blk = 16 ∨ fmt = 6 ∧ blk = 32) := by
  unfold fp4Sidecar at h
  split at h
  next hg =>
    cases h
    exact ⟨has_iff.mp hg, .inl ⟨rfl, rfl⟩⟩
  next =>
    split at h
    next hmx =>
      cases h
      exact ⟨has_iff.mp hmx, .inr ⟨rfl, rfl⟩⟩
    next => cases h

/-- The block-scaled tensor of a blob is its own just when the blob is long enough. -/
theorem ownBlob_fp4 {fmt blk : Nat} (hfmt : fmt = 5 ∧ blk = 16 ∨ fmt = 6 ∧ blk = 32) (g : F32) :
    OwnBlob p w { fmtCode := fmt, o := asI32 p.o, i := asI32 p.i
                  q4 := .shared w.buf w.off (umul p.o ((p.i + 1) / 2))
                  bs := .shared w.buf (w.off + umul p.o ((p.i + 1) / 2))
                    (umul p.o ((p.i + (blk - 1)) / blk)), g } ↔
      Small p.o p.i ∧
        p.o * ((p.i + 1) / 2) + p.o * ((p.i + (blk - 1)) / blk) ≤ w.len ∧
        w.off + (p.o * ((p.i + 1) / 2) + p.o * ((p.i + (blk - 1)) / blk)) ≤ w.buf.length := by
  have hunwrapped : Small p.o p.i → umul p.o ((p.i + 1) / 2) = p.o * ((p.i + 1) / 2) ∧
      umul p.o ((p.i + (blk - 1)) / blk) = p.o * ((p.i + (blk - 1)) / blk) := by
    rintro ⟨ho, hi⟩
    refine ⟨umul_eq ho (by omega), umul_eq ho ?_⟩
    rcases hfmt with ⟨-, rfl⟩ | ⟨-, rfl⟩ <;> omega
  have hlengths : ∀ t : Loader.QTensor, t.fmtCode = fmt → (t.Lengths p.o p.i ↔
      t.q4.Len (p.o * ((p.i + 1) / 2)) ∧ t.bs.Len (p.o * ((p.i + (blk - 1)) / blk))) := by
    intro t ht
    unfold Loader.QTensor.Lengths
    rcases hfmt with ⟨rfl, rfl⟩ | ⟨rfl, rfl⟩
    all_goals
      rw [ht]
      exact Iff.rfl
  constructor
  · rintro ⟨hsized, -, hbs, -⟩
    have hsmall := small_of_sized hsized rfl rfl
    obtain ⟨hn, hb⟩ := hunwrapped hsmall
    obtain ⟨-, hbslen⟩ := (hlengths _ rfl).mp hsized.lengths
    obtain ⟨hinside, -⟩ := shared_len.mp hbslen
    obtain ⟨-, -, hown⟩ := hbs
    rw [hn, hb] at hinside hown
    exact ⟨hsmall, by omega, by omega⟩
  · rintro ⟨hsmall, hown, hinside⟩
    obtain ⟨hn, hb⟩ := hunwrapped hsmall
    rw [hn, hb]
    refine ⟨sized_of hsmall rfl rfl ((hlengths _ rfl).mpr ⟨?_, ?_⟩), ⟨rfl, ?_, ?_⟩,
      ⟨rfl, ?_, ?_⟩, .inl rfl⟩
    · exact shared_len.mpr ⟨by omega, rfl⟩
    · exact shared_len.mpr ⟨by omega, rfl⟩
    all_goals omega

/-- A row-scaled tensor over all of its blob. -/
theorem ownBlob_view {t : Loader.QTensor} {n : Nat} (ho : t.o = asI32 p.o) (hi : t.i = asI32 p.i)
    (hq4 : t.q4 = .shared w.buf w.off w.len) (hbs : t.bs = .empty) (hq8 : t.q8 = [])
    (hlengths : t.Lengths p.o p.i ↔ t.q4.Len n) :
    OwnBlob p w t ↔ Small p.o p.i ∧ w.len = n ∧ w.off + w.len ≤ w.buf.length := by
  constructor
  · intro h
    have hl := hlengths.mp h.sized.lengths
    rw [hq4, shared_len] at hl
    exact ⟨small_of_sized h.sized ho hi, hl.2, hl.1⟩
  · rintro ⟨hsmall, hn, hinside⟩
    refine ⟨sized_of hsmall ho hi (hlengths.mpr ?_), ?_, ?_, .inl hq8⟩
    · rw [hq4, shared_len]
      exact ⟨hinside, hn⟩
    · rw [hq4]
      exact ⟨rfl, Nat.le_refl _, Nat.le_refl _⟩
    · rw [hbs]
      trivial

theorem bytes_eq_some {codes : List UInt8} :
    w.bytes = some codes ↔ w.off + w.len ≤ w.buf.length ∧
      (w.buf.drop w.off).take w.len = codes := by
  unfold View.bytes
  split
  next h => exact ⟨fun h' => ⟨h, Option.some.inj h'⟩, fun h' => congrArg some h'.2⟩
  next h => exact ⟨nofun, fun h' => absurd h'.1 h⟩

/-- What `mk` comes to, and when. -/
theorem mk_cases (C : Conv) (s : Shards) (fp8 : Bool) (p : Proj) (w : View) :
    (∃ e, mk C s fp8 p w = .error e ∧ Fails s p) ∨
    (mk C s fp8 p w = .panic ∧ Aborts C s fp8 p w ∧ ¬ Fails s p ∧ ¬ Fits C s p w) ∨
    ∃ t, mk C s fp8 p w = .ok t ∧ ¬ Fails s p ∧ ¬ Aborts C s fp8 p w ∧
      (OwnBlob p w t ↔ Fits C s p w) := by
  unfold mk Fits Aborts Fails
  cases hside : fp4Sidecar s p.name with
  | some x =>
    obtain ⟨sidecar, fmt, blk⟩ := x
    obtain ⟨hfind, hfmt⟩ := fp4Sidecar_some hside
    simp only
    generalize hread : s.readF32 C sidecar [0] = r
    have hfills := hread ▸ readF32_fills C s sidecar [0]
    cases hfills with
    | missing hnone => exact absurd hnone hfind
    | cut hcut => exact .inl ⟨_, rfl, hcut⟩
    | refused _ hcut hgives =>
      exact .inr (.inl ⟨rfl, ⟨hcut, hgives 0⟩, hcut, fun h => hgives 0 h.2.1⟩)
    | filled he hconv =>
      have hgives : s.Gives C sidecar 0 1 := (he.gives hconv).mpr (Nat.zero_le _)
      have hcut := not_cut_of_reads he
      refine .inr (.inr ⟨_, rfl, hcut, fun h => h.2 hgives, ?_⟩)
      rw [ownBlob_fp4 hfmt]
      simp only [hgives, true_and]
  | none =>
    simp only
    by_cases halloc : p.o * 4 < 2 ^ 63
    · rw [alloc_ok halloc]
      generalize hread : s.readF32 C (qsName p.name) (List.replicate p.o 0) = r
      have hfills := hread ▸ readF32_fills C s (qsName p.name) (List.replicate p.o 0)
      cases hfills with
      | missing hnone => exact .inl ⟨_, rfl, halloc, .inl hnone⟩
      | cut hcut => exact .inl ⟨_, rfl, halloc, .inr hcut⟩
      | refused hfind hcut hgives =>
        rw [List.length_replicate] at hgives
        have hfails : ¬ (p.o * 4 < 2 ^ 63 ∧
            (s.find (qsName p.name) = none ∨ s.Cut (qsName p.name))) :=
          fun h => h.2.elim hfind hcut
        exact .inr (.inl ⟨rfl, .inr ⟨hfails, .inl (hgives 0)⟩, hfails, fun h => hgives 0 h.2.1⟩)
      | filled he hconv =>
        rename_i e scales
        have hlen : scales.length = p.o := (convertInto_ok hconv).1.trans List.length_replicate
        have hgives : s.Gives C (qsName p.name) 0 p.o := by
          have := (he.gives hconv (n := 0)).mpr (Nat.zero_le _)
          rwa [List.length_replicate] at this
        have hfails : ¬ (p.o * 4 < 2 ^ 63 ∧
            (s.find (qsName p.name) = none ∨ s.Cut (qsName p.name))) := by
          rintro ⟨-, h | h⟩
          · exact absurd (he.found.symm.trans h) nofun
          · exact not_cut_of_reads he h
        have hunwrapped : Small p.o p.i → umul p.o p.i = p.o * p.i := fun h => umul_eq h.1 h.2
        have hpass : ¬ (¬ p.o * 4 < 2 ^ 63 ∨ (¬ (p.o * 4 < 2 ^ 63 ∧
            (s.find (qsName p.name) = none ∨ s.Cut (qsName p.name))) ∧
            (¬ s.Gives C (qsName p.name) 0 p.o ∨
              (fp8 = false ∧ w.len = umul p.o p.i ∧ w.buf.length < w.off + w.len)))) ↔
            ¬ (fp8 = false ∧ w.len = umul p.o p.i ∧ w.buf.length < w.off + w.len) :=
          not_congr ⟨fun h => (h.resolve_left (not_not.mpr halloc)).2.resolve_left
            (not_not.mpr hgives), fun h => .inr ⟨hfails, .inr h⟩⟩
        rw [hpass]
        simp only [hgives, true_and]
        show (∃ e, (if w.len = umul p.o p.i then _ else _) = Outcome.error e ∧ _) ∨ _
        split
        next hone =>
          cases fp8 with
          | true =>
            -- e4m3
            refine .inr (.inr ⟨_, rfl, hfails, fun h => Bool.noConfusion h.1, ?_⟩)
            refine Iff.trans (ownBlob_view (n := p.o * p.i) ?_ ?_ ?_ ?_ ?_ ?_) ?_
            · rfl
            · rfl
            · rfl
            · rfl
            · rfl
            · exact and_iff_left hlen
            · exact ⟨fun h => ⟨h.1, .inl h.2.1, h.2.2⟩,
                fun h => ⟨h.1, hone.trans (hunwrapped h.1), h.2.2⟩⟩
          | false =>
            cases hbytes : w.bytes with
            | none =>
              have hout : w.buf.length < w.off + w.len := by
                by_contra hle
                cases (bytes_eq_some.mpr ⟨Nat.le_of_not_lt hle, rfl⟩).symm.trans hbytes
              exact .inr (.inl ⟨rfl, .inr ⟨hfails, .inr ⟨rfl, hone, hout⟩⟩, hfails,
                fun h => Nat.not_le_of_lt hout h.2.2⟩)
            | some codes =>
              -- int8, a copy
              obtain ⟨hin, hcodes⟩ := bytes_eq_some.mp hbytes
              refine .inr (.inr ⟨_, rfl, hfails, fun h => Nat.not_le_of_lt h.2.2 hin, ?_⟩)
              have hcount : codes.length = w.len := by
                rw [← hcodes, List.length_take, List.length_drop]
                omega
              constructor
              · intro h
                have hsmall := small_of_sized h.sized rfl rfl
                exact ⟨hsmall, .inl (hone.trans (hunwrapped hsmall)), hin⟩
              · rintro ⟨hsmall, -, -⟩
                refine ⟨sized_of hsmall rfl rfl ⟨?_, hlen⟩, trivial, trivial,
                  .inr ⟨codes, hbytes, rfl⟩⟩
                rw [List.length_map, hcount, hone, hunwrapped hsmall]
        next hmany =>
          refine .inr (.inr ⟨_, rfl, hfails, fun h => hmany h.2.1, ?_⟩)
          refine Iff.trans (ownBlob_view (n := p.o * ((p.i + 3) / 4)) ?_ ?_ ?_ ?_ ?_ ?_) ?_
          · rfl
          · rfl
          · rfl
          · rfl
          · rfl
          · exact and_iff_left hlen
          · refine ⟨fun h => ⟨h.1, .inr h.2.1, h.2.2⟩, ?_⟩
            rintro ⟨hsmall, hn, hin⟩
            exact ⟨hsmall, hn.resolve_left fun h => hmany (h.trans (hunwrapped hsmall).symm), hin⟩
    · rw [alloc_panic halloc]
      exact .inr (.inl ⟨rfl, .inl halloc, fun h => halloc h.1, fun h => halloc (by
        have := h.1.1
        omega)⟩)

/-! ## All of them -/

/-- Every blob is as long as it should be. -/
def AllFit (C : Conv) (s : Shards) (xs : List (Proj × Option View)) : Prop :=
  ∀ x ∈ xs, ∃ w, x.2 = some w ∧ Fits C s x.1 w

/-- One projection more: `rest` are those behind it, `K` is what holds of those before. -/
theorem slot_meets {M : Outcome LoadError Expert → Prop} (herr : ∀ e, M (.error e))
    (hpanic : ¬ M .panic) (x : Proj × Option View) (rest : List (Proj × Option View)) (K : Prop)
    {f : Loader.QTensor → Outcome LoadError Expert}
    (hf : ∀ t, M (f t) ↔ Settled C s fp8 rest ∨ (K ∧ OwnAt x t ∧ AllFit C s rest)) :
    M (mkAt C s fp8 x.1 x.2 >>= f) ↔
      Settled C s fp8 (x :: rest) ∨ (K ∧ AllFit C s (x :: rest)) := by
  obtain ⟨p, view⟩ := x
  unfold AllFit
  rw [Settled, List.forall_mem_cons]
  cases view with
  | none =>
    -- an index out of range
    refine ⟨fun h => absurd h hpanic, ?_⟩
    rintro (⟨w, hw, -⟩ | ⟨-, ⟨w, hw, -⟩, -⟩) <;> cases hw
  | some w =>
    have hsome : ∀ {P : View → Prop}, (∃ v, some w = some v ∧ P v) ↔ P w := by
      intro P
      constructor
      · rintro ⟨v, hv, h⟩
        cases hv
        exact h
      · exact fun h => ⟨w, rfl, h⟩
    simp only [hsome]
    show M (mk C s fp8 p w >>= f) ↔ _
    rcases mk_cases C s fp8 p w with ⟨e, hmk, hfails⟩ | ⟨hmk, haborts, hfails, hfits⟩ |
      ⟨t, hmk, hfails, haborts, hown⟩
    · rw [hmk]
      exact ⟨fun _ => .inl (.inl hfails), fun _ => herr e⟩
    · rw [hmk]
      refine ⟨fun h => absurd h hpanic, ?_⟩
      rintro ((h | ⟨h, -⟩) | ⟨-, h, -⟩)
      · exact absurd h hfails
      · exact absurd haborts h
      · exact absurd h hfits
    · rw [hmk, Outcome.ok_bind, hf, ← hown]
      have hat : OwnAt (p, some w) t ↔ OwnBlob p w t := hsome
      simp only [hat, hfails, haborts, not_false_eq_true, true_and, false_or, AllFit]

theorem settled_nil (K : Prop) : Settled C s fp8 [] ∨ (K ∧ AllFit C s []) ↔ K := by
  simp [Settled, AllFit]

/-- Two projections; `M` is of what they make. -/
theorem two_meets {M : Outcome LoadError Expert → Prop} (herr : ∀ e, M (.error e))
    (hpanic : ¬ M .panic) (x y : Proj × Option View) (K : Prop) {ex : Loader.QTensor → Loader.QTensor → Expert}
    (hok : ∀ t u, M (.ok (ex t u)) ↔ K ∧ OwnAt x t ∧ OwnAt y u) :
    M (mkAt C s fp8 x.1 x.2 >>= fun t => mkAt C s fp8 y.1 y.2 >>= fun u => .ok (ex t u)) ↔
      Settled C s fp8 [x, y] ∨ (K ∧ AllFit C s [x, y]) := by
  refine slot_meets herr hpanic x [y] K fun t => ?_
  rw [← and_assoc]
  refine slot_meets herr hpanic y [] (K ∧ OwnAt x t) fun u => ?_
  rw [← and_assoc, settled_nil, hok, and_assoc]

end

/-- **When the tensors of an expert are its own**: `expert_from_views` ends in an error, or in
tensors of the right lengths none of which has a byte outside its projection's blob, just when
it ends in an error or every blob is as long as the dimensions ask for. -/
theorem expertFromViews_meets_iff (C : Conv) (s : Shards) (fp8 : Bool) (layout : ExpertLayout)
    (hidden moeInter layer eid : Nat) (views : List View) :
    Meets layout hidden moeInter layer eid views
        (expertFromViews C s fp8 layout hidden moeInter layer eid views) ↔
      Trusted C s fp8 layout hidden moeInter layer eid views := by
  have herr : ∀ e, Meets layout hidden moeInter layer eid views (.error e) := fun _ => trivial
  have hpanic : ¬ Meets layout hidden moeInter layer eid views .panic := id
  have hok : ∀ ex, Meets layout hidden moeInter layer eid views (.ok ex) ↔
      List.Forall₂ OwnAt (projsOf layout hidden moeInter layer eid views)
        (ex.tensors layout.gateless) := fun _ => Iff.rfl
  unfold expertFromViews Trusted
  unfold projsOf at hok ⊢
  cases hgateless : layout.gateless with
  | true =>
    simp only [hgateless, if_true, Expert.tensors, List.forall₂_cons, List.Forall₂.nil,
      and_true] at hok ⊢
    refine (two_meets herr hpanic (⟨moeInter, hidden, _⟩, views[0]?)
      (⟨hidden, moeInter, _⟩, views[1]?) True fun up down => ?_).trans (by rw [true_and, AllFit])
    rw [true_and]
    exact hok ⟨{}, up, down⟩
  | false =>
    simp only [hgateless, Bool.false_eq_true, if_false, Expert.tensors, List.forall₂_cons,
      List.Forall₂.nil, and_true] at hok ⊢
    refine (slot_meets herr hpanic (⟨moeInter, hidden, _⟩, views[0]?)
      [(⟨moeInter, hidden, _⟩, views[1]?), (⟨hidden, moeInter, _⟩, views[2]?)] True
      fun gate => ?_).trans (by rw [true_and, AllFit])
    rw [true_and]
    refine two_meets herr hpanic (⟨moeInter, hidden, _⟩, views[1]?)
      (⟨hidden, moeInter, _⟩, views[2]?) (OwnAt (⟨moeInter, hidden, _⟩, views[0]?) gate)
      fun up down => ?_
    exact hok ⟨gate, up, down⟩

/-! ## Out of a container -/

/-- The names that are read for an expert, in one go. -/
def readNames (layout : ExpertLayout) (layer eid : Nat) : List (List Char) :=
  layout.projs.map (layout.weightName layer eid)

/-! ## A blob that is too short -/

/-- The gateless expert 0 of layer 0: one byte for the first projection, where two rows of two
columns are four, and all four for the second. -/
def shortUp : Entry := ⟨(ExpertLayout.forArch .nemotronH).weightName 0 0 "up_proj".toList, .u8,
  [1], [7]⟩
def upScale : Entry := ⟨gName shortUp.name, .f32, [1], [0, 0, 128, 63]⟩
def wholeDown : Entry := ⟨(ExpertLayout.forArch .nemotronH).weightName 0 0 "down_proj".toList,
  .u8, [4], [1, 2, 3, 4]⟩
def downScale : Entry := ⟨gName wholeDown.name, .f32, [1], [0, 0, 128, 63]⟩

/-- What is made of a block-scaled blob with the scale one. -/
def unitTensor (p : Proj) (w : View) : Loader.QTensor :=
  { fmtCode := 5, o := asI32 p.o, i := asI32 p.i
    q4 := .shared w.buf w.off (umul p.o ((p.i + 1) / 2))
    bs := .shared w.buf (w.off + umul p.o ((p.i + 1) / 2)) (umul p.o ((p.i + 15) / 16))
    g := 0x3F800000 }

/-- **A view that leaves its blob**: of an opened container an expert is read whose first
projection has one byte, and the nibbles of the tensor that is made of it are two. -/
theorem expertFromViews_short : ∃ (s : Shards) (views : List View), s.Opened ∧
    ReadRawShared s False 1 (readNames (.forArch .nemotronH) 0 0) (.ok views) ∧
    ∃ w, views[0]? = some w ∧ w.len = 1 ∧
      ∀ C fp8, ∃ ex, expertFromViews C s fp8 (.forArch .nemotronH) 2 2 0 0 views = .ok ex ∧
        ex.up.q4 = .shared w.buf w.off 2 := by
  obtain ⟨s, hs, hhas, -⟩ := @exists_written [shortUp, upScale, wholeDown, downScale]
    (by decide +kernel) (by decide) (posed_of (by decide) (by decide) (by decide))
  obtain ⟨e, he, -, -, hnbytes⟩ := (hhas shortUp (by simp)).reads (by decide)
  obtain ⟨g, hg, hgtype, hgdata, -⟩ := (hhas upScale (by simp)).reads (by decide)
  obtain ⟨e', he', -⟩ := (hhas wholeDown (by simp)).reads (by decide)
  obtain ⟨g', hg', hgtype', hgdata', -⟩ := (hhas downScale (by simp)).reads (by decide)
  have hnames : readNames (.forArch .nemotronH) 0 0 = [shortUp.name, wholeDown.name] := rfl
  have hholds : s.Holds (readNames (.forArch .nemotronH) 0 0) := by
    rw [hnames]
    exact List.forall_mem_cons.mpr ⟨⟨e, he.found, he.inside⟩,
      List.forall_mem_singleton.mpr ⟨e', he'.found, he'.inside⟩⟩
  obtain ⟨out, hout⟩ := exists_readRawShared s False 1 (readNames (.forArch .nemotronH) 0 0)
  obtain ⟨views, rfl⟩ := readRawShared_of_holds id hholds hout
  have hnowrap := noWrap_of_holds hholds
  obtain ⟨-, hright⟩ := (rightViews_iff hout).mpr hnowrap
  obtain ⟨t, w, ht, hw, hlen, -⟩ := hright 0 shortUp.name rfl
  obtain ⟨-, w', -, hw', -⟩ := hright 1 wholeDown.name rfl
  cases Option.some.inj (he.found.symm.trans ht)
  refine ⟨s, views, hs, hout, w, hw, hlen.trans hnbytes, fun C fp8 => ?_⟩
  have hmk : ∀ {p : Proj} {x : Entry} {k : StTensor} (v : View), s.Reads x.name k →
      k.dtype = .f32 → s.data k = [0, 0, 128, 63] → x.name = gName p.name →
      mk C s fp8 p v = .ok (unitTensor p v) := by
    intro p x k v hk hdtype hdata hname
    rw [hname] at hk
    have hside : fp4Sidecar s p.name = some (gName p.name, 5, 16) := by
      rw [fp4Sidecar, if_pos (has_iff.mpr (by rw [hk.found]; nofun))]
    have hfill : s.readF32 C (gName p.name) [0] = .ok [0x3F800000] := by
      unfold Shards.readF32
      rw [hk.found]
      simp only
      rw [hk.readRaw, hdtype, hdata]
      rfl
    unfold mk
    rw [hside]
    simp only
    rw [hfill]
    rfl
  have hup := @hmk ⟨2, 2, shortUp.name⟩ _ _ w hg hgtype hgdata rfl
  have hdown := @hmk ⟨2, 2, wholeDown.name⟩ _ _ w' hg' hgtype' hgdata' rfl
  refine ⟨⟨{}, unitTensor ⟨2, 2, shortUp.name⟩ w, unitTensor ⟨2, 2, wholeDown.name⟩ w'⟩, ?_, rfl⟩
  unfold expertFromViews
  rw [hw, hw']
  show (mk C s fp8 ⟨2, 2, shortUp.name⟩ w >>= fun up =>
    mk C s fp8 ⟨2, 2, wholeDown.name⟩ w' >>= fun down => .ok (Expert.mk {} up down)) = _
  rw [hup, Outcome.ok_bind, hdown]
  rfl

end Colibri.Moe.Views
