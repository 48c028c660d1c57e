import Colibri.Lib.Bands
import Colibri.Moe.Views

/-!
# Experts in chunks

A projection is cut into bands of rows, each of about a target size, and a band is fetched
by the place of its bytes in the packed buffer. The plan asks `row_bytes` how long a row is,
and the fetch looks at the format for itself: an int8 or block-scaled expert it refuses.

`row_bytes` has no entry for the block-scaled formats, which gives them rows of no bytes and
so no chunks. Where there are no chunks no fetch is refused, so the projection is left out
without an error. `planExpertChunks_meets_iff` is when the chunks are the whole payloads or
are refused; of tensors of the lengths their formats ask for it is when none is block-scaled
(`trusted_iff_of_sized`).
-/

namespace Colibri.Moe.Chunks

open Batch Bands Safetensors Loader Views

/-- `ExpertMatrix` -/
inductive ExpertMatrix where
  | gate
  | up
  | down
  deriving DecidableEq

structure ChunkDesc where
  layer : Nat
  eid : Nat
  matrix : ExpertMatrix
  oStart : Nat
  oCount : Nat
  byteOff : Nat
  byteLen : Nat

inductive ChunkError where
  /-- "chunk fetch: fmt {other} experts unsupported (routed experts are q4-packed)" -/
  | unsupported (other : Nat)
  /-- "chunk out of range" -/
  | outOfRange
  deriving DecidableEq

def rowBytes (fmt i : Nat) : Nat :=
  match fmt with
  | 0 => umul i 4
  | 1 | 4 => i
  | 3 => (i + 3) / 4
  | _ => 0

/-- The chunk of `cnt` rows from `o0` on. -/
def chunkAt (layer eid : Nat) (matrix : ExpertMatrix) (rb o0 cnt : Nat) : ChunkDesc :=
  { layer, eid, matrix, oStart := o0, oCount := cnt
    byteOff := umul o0 rb, byteLen := umul cnt rb }

def planMatrixChunks (layer eid : Nat) (matrix : ExpertMatrix) (o i fmt targetBytes : Nat) :
    List ChunkDesc :=
  let rb := rowBytes fmt i
  if rb = 0 ∨ o = 0 then []
  else
    bands (chunkAt layer eid matrix rb) (max (targetBytes / rb) 1) o (Nat.le_max_right _ _) 0

/-- The tensor a chunk is of. -/
def tensorOf (ex : Expert) : ExpertMatrix → Loader.QTensor
  | .gate => ex.gate
  | .up => ex.up
  | .down => ex.down

def planExpertChunks (layer eid : Nat) (ex : Expert) (targetBytes : Nat) : List ChunkDesc :=
  let plan (m : ExpertMatrix) (t : Loader.QTensor) :=
    planMatrixChunks layer eid m (asUsize t.o) (asUsize t.i) t.fmtCode targetBytes
  plan .gate ex.gate ++ plan .up ex.up ++ plan .down ex.down

def matrixWeightBytes (ex : Expert) (m : ExpertMatrix) : Outcome ChunkError (List UInt8) :=
  let t := tensorOf ex m
  match t.fmtCode with
  | 3 | 4 => .ofOption t.q4.asSlice
  | other => .error (.unsupported other)

/-- `LocalChunkSource::fetch_into`: what `dst` holds afterwards. -/
def fetchInto (ex : Expert) (d : ChunkDesc) (dst : List UInt8) :
    Outcome ChunkError (List UInt8) := do
  let src ← matrixWeightBytes ex d.matrix
  let stop := wadd d.byteOff d.byteLen
  if src.length < stop ∨ dst.length ≠ d.byteLen then .error .outOfRange
  else .ofOption (slice src d.byteOff stop)

/-- The chunks one after another, each into a buffer of its length. -/
def fetchAll (ex : Expert) (chunks : List ChunkDesc) :
    Outcome ChunkError (List (ChunkDesc × List UInt8)) :=
  chunks.mapM fun d => do
    let dst ← fetchInto ex d (List.replicate d.byteLen 0)
    return (d, dst)

/-! ## What the chunks should come to -/

/-- The chunks of a tensor have its rows and its bytes, all of them once and in order, and
what was fetched is its payload. -/
structure Whole (t : Loader.QTensor) (fetched : List (ChunkDesc × List UInt8)) : Prop where
  rows : Tiles (·.1.oStart) (·.1.oCount) 0 fetched (asUsize t.o)
  bytes : ∃ payload, t.q4.asSlice = some payload ∧
    Tiles (·.1.byteOff) (·.1.byteLen) 0 fetched payload.length ∧
    fetched.flatMap (·.2) = payload

/-- A fetch is refused, or every projection is there. -/
def Meets (layer eid : Nat) (ex : Expert) (targetBytes : Nat) : Prop :=
  (fetchAll ex (planExpertChunks layer eid ex targetBytes)).Holds fun fetched =>
    ∀ m, Whole (tensorOf ex m) (fetched.filter (·.1.matrix = m))

/-- A projection in one of the formats of routed experts: int2, e4m3, NVFP4, MXFP4. -/
structure Routed (t : Loader.QTensor) : Prop where
  fmt : t.fmtCode ∈ [3, 4, 5, 6]
  rows : 0 ≤ t.o ∧ t.o < 2 ^ 31
  cols : 0 ≤ t.i ∧ t.i < 2 ^ 31

/-! ## When they do -/

/-- The bytes of a row, by the plan. -/
def rowLen (t : Loader.QTensor) : Nat := rowBytes t.fmtCode (asUsize t.i)

/-- Nothing is planned. -/
def Bare (t : Loader.QTensor) : Prop := rowLen t = 0 ∨ asUsize t.o = 0

/-- There are chunks, and the payload is shorter. -/
def Short (t : Loader.QTensor) : Prop :=
  ¬ Bare t ∧ ∃ payload, t.q4.asSlice = some payload ∧ payload.length < asUsize t.o * rowLen t

/-- There are chunks, and the payload is a range that is not there. -/
def Lost (t : Loader.QTensor) : Prop := ¬ Bare t ∧ t.q4.asSlice = none

/-- The payload is as long as the plan takes it to be, and rows are not rows of nothing. -/
def Exact (t : Loader.QTensor) : Prop :=
  (rowLen t = 0 → asUsize t.o = 0) ∧ t.q4.Len (asUsize t.o * rowLen t)

/-- A fetch is refused, and none before it is a panic. -/
def Refused (ex : Expert) : Prop :=
  Short ex.gate ∨ (¬ Lost ex.gate ∧ (Short ex.up ∨ (¬ Lost ex.up ∧ Short ex.down)))

def Trusted (ex : Expert) : Prop := Refused ex ∨ ∀ m, Exact (tensorOf ex m)

section

variable {t : Loader.QTensor} {ex : Expert} {m : ExpertMatrix} {layer eid targetBytes : Nat}

/-! ## The plan of a projection -/

theorem asUsize_lt {v : Int} (h : 0 ≤ v ∧ v < 2 ^ 31) : asUsize v < 2 ^ 31 := by
  rw [asUsize_of_nonneg h.1 (by omega)]
  omega

/-- A row has fewer bytes than columns, or as many. -/
theorem Routed.rowLen_le (h : Routed t) : rowLen t ≤ asUsize t.i := by
  have hfmt := h.fmt
  simp only [List.mem_cons, List.not_mem_nil, or_false] at hfmt
  unfold rowLen
  rcases hfmt with hfmt | hfmt | hfmt | hfmt
  · rw [hfmt]
    show (asUsize t.i + 3) / 4 ≤ asUsize t.i
    omega
  · rw [hfmt]
    exact Nat.le_refl _
  · rw [hfmt]
    exact Nat.zero_le _
  · rw [hfmt]
    exact Nat.zero_le _

/-- What is planned is packed. -/
theorem Routed.packed (h : Routed t) (hbare : ¬ Bare t) : t.fmtCode = 3 ∨ t.fmtCode = 4 := by
  have hfmt := h.fmt
  simp only [List.mem_cons, List.not_mem_nil, or_false] at hfmt
  rcases hfmt with hfmt | hfmt | hfmt | hfmt
  · exact .inl hfmt
  · exact .inr hfmt
  -- a row of a block-scaled format has no bytes
  · exact absurd (.inl (by rw [rowLen, hfmt]; rfl)) hbare
  · exact absurd (.inl (by rw [rowLen, hfmt]; rfl)) hbare

theorem Routed.len_lt (h : Routed t) : asUsize t.o * rowLen t < 2 ^ 64 := by
  have hrow := h.rowLen_le
  have ho := asUsize_lt h.rows
  have hi := asUsize_lt h.cols
  calc asUsize t.o * rowLen t ≤ 2 ^ 31 * 2 ^ 31 := Nat.mul_le_mul (by omega) (by omega)
    _ < 2 ^ 64 := by decide

/-- The chunks of a tensor, as `plan_expert_chunks` has them planned. -/
abbrev planOf (layer eid targetBytes : Nat) (m : ExpertMatrix) (t : Loader.QTensor) :
    List ChunkDesc :=
  planMatrixChunks layer eid m (asUsize t.o) (asUsize t.i) t.fmtCode targetBytes

theorem planOf_bare (h : Bare t) : planOf layer eid targetBytes m t = [] := if_pos h

/-- **The plan of a projection**: its chunks have its rows, and the bytes that the plan takes
it to have, all of them once and in order. -/
theorem planOf_tiles (layer eid targetBytes : Nat) (m : ExpertMatrix) (h : Routed t) (hbare : ¬ Bare t) :
    Tiles (·.oStart) (·.oCount) 0 (planOf layer eid targetBytes m t) (asUsize t.o) ∧
      Tiles (·.byteOff) (·.byteLen) 0 (planOf layer eid targetBytes m t)
        (asUsize t.o * rowLen t) ∧
      ∀ d ∈ planOf layer eid targetBytes m t, d.matrix = m := by
  have hpos : 0 < rowLen t := Nat.pos_of_ne_zero fun hz => hbare (.inl hz)
  have hrow : rowLen t < 2 ^ 31 := Nat.lt_of_le_of_lt h.rowLen_le (asUsize_lt h.cols)
  have ho := asUsize_lt h.rows
  unfold planOf planMatrixChunks
  simp only
  rw [if_neg (show ¬ (rowBytes t.fmtCode (asUsize t.i) = 0 ∨ asUsize t.o = 0) from hbare)]
  have hrows : Tiles (·.oStart) (·.oCount) 0 (bands (chunkAt layer eid m (rowLen t))
      (max (targetBytes / rowLen t) 1) (asUsize t.o) (Nat.le_max_right _ _) 0) (asUsize t.o) :=
    bands_tiles (fun _ _ => rfl) (fun _ _ => rfl) (Nat.zero_le _)
  have hbands : ∀ d ∈ bands (chunkAt layer eid m (rowLen t))
      (max (targetBytes / rowLen t) 1) (asUsize t.o) (Nat.le_max_right _ _) 0,
      d.matrix = m ∧ d.byteOff = umul d.oStart (rowLen t) ∧
        d.byteLen = umul d.oCount (rowLen t) :=
    bands_forall (fun _ _ => ⟨rfl, rfl, rfl⟩) 0
  refine ⟨hrows, ?_, fun d hd => (hbands d hd).1⟩
  have hscaled := hrows.scale hpos
  rw [Nat.zero_mul] at hscaled
  refine hscaled.congr (fun d hd => ?_) fun d hd => ?_
  · have hle := hrows.mem_le hd
    rw [(hbands d hd).2.1, umul_eq (by omega) hrow]
  · have hle := hrows.mem_le hd
    rw [(hbands d hd).2.2, umul_eq (by omega) hrow]

/-! ## Fetching it -/

theorem matrixWeightBytes_packed (hfmt : (tensorOf ex m).fmtCode = 3 ∨ (tensorOf ex m).fmtCode = 4) :
    matrixWeightBytes ex m = .ofOption (tensorOf ex m).q4.asSlice := by
  unfold matrixWeightBytes
  rcases hfmt with hfmt | hfmt
  · simp only [hfmt]
  · simp only [hfmt]

/-- A chunk of a payload that is there. -/
theorem fetchInto_eq {d : ChunkDesc} {payload : List UInt8}
    (hsrc : matrixWeightBytes ex d.matrix = .ok payload)
    (hfits : d.byteOff + d.byteLen < 2 ^ 64) :
    fetchInto ex d (List.replicate d.byteLen 0) =
      if payload.length < d.byteOff + d.byteLen then .error .outOfRange
      else .ok ((payload.drop d.byteOff).take d.byteLen) := by
  unfold fetchInto
  rw [hsrc, Outcome.ok_bind]
  simp only
  rw [wadd_eq hfits, List.length_replicate]
  by_cases hlt : payload.length < d.byteOff + d.byteLen
  · rw [if_pos (.inl hlt), if_pos hlt]
  · rw [if_neg (fun h => h.elim hlt fun hne => hne rfl), if_neg hlt, slice,
      if_pos ⟨Nat.le_add_right _ _, Nat.le_of_not_lt hlt⟩, Nat.add_sub_cancel_left]
    rfl

theorem fetchAll_cons (d : ChunkDesc) (ds : List ChunkDesc) :
    fetchAll ex (d :: ds) = (fetchInto ex d (List.replicate d.byteLen 0) >>= fun dst =>
      fetchAll ex ds >>= fun rest => .ok ((d, dst) :: rest)) := by
  unfold fetchAll
  rw [List.mapM_cons, bind_assoc]
  rfl

theorem fetchAll_append (ds ds' : List ChunkDesc) :
    fetchAll ex (ds ++ ds') = (fetchAll ex ds >>= fun x => fetchAll ex ds' >>= fun y =>
      .ok (x ++ y)) := by
  unfold fetchAll
  rw [List.mapM_append]
  rfl

/-- A chunk, and its stretch of a payload. -/
def cut (payload : List UInt8) (d : ChunkDesc) : ChunkDesc × List UInt8 :=
  (d, (payload.drop d.byteOff).take d.byteLen)

/-- Chunks that tile the bytes of a payload, fetched. -/
theorem fetchAll_inside {payload : List UInt8} {ds : List ChunkDesc} {lo hi : Nat}
    (hsrc : ∀ d ∈ ds, matrixWeightBytes ex d.matrix = .ok payload)
    (htiles : Tiles (·.byteOff) (·.byteLen) lo ds hi) (hfits : hi < 2 ^ 64)
    (hle : hi ≤ payload.length) :
    fetchAll ex ds = .ok (ds.map (cut payload)) := by
  induction ds generalizing lo with
  | nil => rfl
  | cons d ds ih =>
    have hend := htiles.mem_le (List.mem_cons_self ..)
    rw [fetchAll_cons, fetchInto_eq (hsrc d (List.mem_cons_self ..)) (by omega),
      if_neg (by omega), Outcome.ok_bind,
      ih (fun d' hd' => hsrc d' (List.mem_cons_of_mem _ hd')) htiles.2.2]
    rfl

/-- The first chunk that leaves the payload is refused. -/
theorem fetchAll_outside {payload : List UInt8} {ds : List ChunkDesc} {lo hi : Nat}
    (hsrc : ∀ d ∈ ds, matrixWeightBytes ex d.matrix = .ok payload)
    (htiles : Tiles (·.byteOff) (·.byteLen) lo ds hi) (hfits : hi < 2 ^ 64)
    (hlo : lo ≤ payload.length) (hlt : payload.length < hi) :
    fetchAll ex ds = .error .outOfRange := by
  induction ds generalizing lo with
  | nil =>
    obtain rfl : lo = hi := htiles
    omega
  | cons d ds ih =>
    have hend := htiles.mem_le (List.mem_cons_self ..)
    rw [fetchAll_cons, fetchInto_eq (hsrc d (List.mem_cons_self ..)) (by omega)]
    obtain ⟨rfl, -, hrest⟩ := htiles
    split
    next => rfl
    next hin =>
      rw [Outcome.ok_bind, ih (fun d' hd' => hsrc d' (List.mem_cons_of_mem _ hd')) hrest
        (Nat.le_of_not_lt hin)]
      rfl

/-- **What the chunks of a projection come to.** -/
theorem fetchAll_cases (layer eid targetBytes : Nat) (h : Routed (tensorOf ex m)) :
    (∃ fetched, fetchAll ex (planOf layer eid targetBytes m (tensorOf ex m)) = .ok fetched ∧
      (Whole (tensorOf ex m) fetched ↔ Exact (tensorOf ex m)) ∧
      ¬ Short (tensorOf ex m) ∧ ¬ Lost (tensorOf ex m) ∧ ∀ x ∈ fetched, x.1.matrix = m) ∨
    (fetchAll ex (planOf layer eid targetBytes m (tensorOf ex m)) = .panic ∧
      Lost (tensorOf ex m) ∧ ¬ Short (tensorOf ex m)) ∨
    ∃ e, fetchAll ex (planOf layer eid targetBytes m (tensorOf ex m)) = .error e ∧
      Short (tensorOf ex m) := by
  generalize ht : tensorOf ex m = t at h
  by_cases hbare : Bare t
  · refine .inl ⟨[], ?_, ?_, fun hs => hs.1 hbare, fun hl => hl.1 hbare, fun x hx => by cases hx⟩
    · rw [planOf_bare hbare]
      rfl
    · constructor
      · rintro ⟨hrows, payload, hq4, hbytes, -⟩
        have ho : 0 = asUsize t.o := hrows
        refine ⟨fun _ => ho.symm, payload, hq4, ?_⟩
        rw [← ho, Nat.zero_mul]
        exact Eq.symm hbytes
      · rintro ⟨hrows, payload, hq4, hlen⟩
        have ho : asUsize t.o = 0 := hbare.elim hrows id
        rw [ho, Nat.zero_mul] at hlen
        refine ⟨ho.symm, payload, hq4, hlen.symm, ?_⟩
        exact (List.length_eq_zero_iff.mp hlen).symm
  · obtain ⟨hrows, hbytes, hmatrix⟩ := planOf_tiles layer eid targetBytes m h hbare
    have hsrc : ∀ d ∈ planOf layer eid targetBytes m t,
        matrixWeightBytes ex d.matrix = .ofOption t.q4.asSlice := by
      intro d hd
      have hpacked := h.packed hbare
      rw [← ht] at hpacked
      rw [hmatrix d hd, matrixWeightBytes_packed hpacked, ht]
    cases hq4 : t.q4.asSlice with
    | none =>
      -- the first chunk panics
      refine .inr (.inl ⟨?_, ⟨hbare, hq4⟩, ?_⟩)
      · cases hplan : planOf layer eid targetBytes m t with
        | nil =>
          rw [hplan] at hrows
          exact absurd (.inr (Eq.symm hrows)) hbare
        | cons d ds =>
          have hd := hsrc d (hplan ▸ List.mem_cons_self ..)
          rw [hq4] at hd
          rw [fetchAll_cons, fetchInto, hd]
          rfl
      · rintro ⟨-, payload, hp, -⟩
        cases hq4.symm.trans hp
    | some payload =>
      rw [hq4] at hsrc
      by_cases hle : asUsize t.o * rowLen t ≤ payload.length
      · refine .inl ⟨_, fetchAll_inside hsrc hbytes h.len_lt hle, ?_, ?_, ?_, ?_⟩
        · constructor
          · rintro ⟨-, payload', hp, htiles, -⟩
            cases hq4.symm.trans hp
            exact ⟨fun hz => absurd (.inl hz) hbare, payload, hq4,
              htiles.hi_unique (hbytes.map (cut payload))⟩
          · rintro ⟨-, payload', hp, hlen⟩
            cases hq4.symm.trans hp
            refine ⟨hrows.map (cut payload), payload, hq4, hlen ▸ hbytes.map (cut payload), ?_⟩
            rw [List.flatMap_map]
            refine (hbytes.flatten payload).trans ?_
            rw [List.drop_zero, Nat.sub_zero, ← hlen, List.take_length]
        · rintro ⟨-, payload', hp, hlt⟩
          cases hq4.symm.trans hp
          omega
        · rintro ⟨-, hnone⟩
          cases hq4.symm.trans hnone
        · intro x hx
          obtain ⟨d, hd, rfl⟩ := List.mem_map.mp hx
          exact hmatrix d hd
      · have hlt := Nat.lt_of_not_le hle
        exact .inr (.inr ⟨.outOfRange, fetchAll_outside hsrc hbytes h.len_lt (Nat.zero_le _) hlt,
          hbare, payload, hq4, hlt⟩)

/-! ## The expert -/

theorem filter_self {fetched : List (ChunkDesc × List UInt8)}
    (h : ∀ x ∈ fetched, x.1.matrix = m) : fetched.filter (·.1.matrix = m) = fetched :=
  List.filter_eq_self.mpr fun x hx => decide_eq_true (h x hx)

theorem filter_other {m' : ExpertMatrix} {fetched : List (ChunkDesc × List UInt8)}
    (h : ∀ x ∈ fetched, x.1.matrix = m') (hne : m' ≠ m) :
    fetched.filter (·.1.matrix = m) = [] :=
  List.filter_eq_nil_iff.mpr fun x hx => by
    rw [decide_eq_true_eq, h x hx]
    exact hne

theorem forall_matrix {P : ExpertMatrix → Prop} : (∀ m, P m) ↔ P .gate ∧ P .up ∧ P .down := by
  refine ⟨fun h => ⟨h .gate, h .up, h .down⟩, fun ⟨hg, hu, hd⟩ m => ?_⟩
  cases m with
  | gate => exact hg
  | up => exact hu
  | down => exact hd

/-- What was fetched is put to the projections it is of. -/
theorem whole_append {fg fu fd : List (ChunkDesc × List UInt8)}
    (hg : ∀ x ∈ fg, x.1.matrix = .gate) (hu : ∀ x ∈ fu, x.1.matrix = .up)
    (hd : ∀ x ∈ fd, x.1.matrix = .down) :
    (∀ m, Whole (tensorOf ex m) ((fg ++ fu ++ fd).filter (·.1.matrix = m))) ↔
      Whole (tensorOf ex .gate) fg ∧ Whole (tensorOf ex .up) fu ∧
        Whole (tensorOf ex .down) fd := by
  rw [forall_matrix]
  simp only [List.filter_append]
  rw [filter_self hg, filter_other hu (by decide), filter_other hd (by decide),
    filter_other hg (by decide), filter_self hu, filter_other hd (by decide),
    filter_other hg (by decide), filter_other hu (by decide), filter_self hd]
  simp only [List.append_nil, List.nil_append]

/-- What follows a projection: it is looked at unless the projection was refused, and then
the projection is there. -/
theorem holds_fetchAll {P : List (ChunkDesc × List UInt8) → Prop} {Q : Prop}
    (h : Routed (tensorOf ex m))
    (hP : ∀ fetched, (Whole (tensorOf ex m) fetched ↔ Exact (tensorOf ex m)) →
      (∀ x ∈ fetched, x.1.matrix = m) → (P fetched ↔ Q)) :
    (fetchAll ex (planOf layer eid targetBytes m (tensorOf ex m))).Holds P ↔
      Short (tensorOf ex m) ∨ (¬ Lost (tensorOf ex m) ∧ Q) := by
  rcases fetchAll_cases layer eid targetBytes h with
    ⟨fetched, hrun, hwhole, hshort, hlost, hmatrix⟩ | ⟨hrun, hlost, hshort⟩ | ⟨e, hrun, hshort⟩
  · rw [hrun]
    exact (hP fetched hwhole hmatrix).trans
      ⟨fun hq => .inr ⟨hlost, hq⟩, fun hr => (hr.resolve_left hshort).2⟩
  · rw [hrun]
    exact iff_of_false id fun hr => hr.elim hshort fun hq => hq.1 hlost
  · rw [hrun]
    exact iff_of_true trivial (.inl hshort)

theorem Exact.not_lost (h : Exact t) : ¬ Lost t := by
  obtain ⟨-, payload, hq4, -⟩ := h
  rintro ⟨-, hnone⟩
  cases hq4.symm.trans hnone

/-- **When the chunks of an expert are the expert**: just when a fetch is refused, or every
payload is as long as the plan takes it to be and has rows that are not rows of nothing. -/
theorem planExpertChunks_meets_iff (h : ∀ m, Routed (tensorOf ex m)) :
    Meets layer eid ex targetBytes ↔ Trusted ex := by
  have hplan : planExpertChunks layer eid ex targetBytes
      = planOf layer eid targetBytes .gate (tensorOf ex .gate)
        ++ planOf layer eid targetBytes .up (tensorOf ex .up)
        ++ planOf layer eid targetBytes .down (tensorOf ex .down) := rfl
  have hruns : Meets layer eid ex targetBytes ↔
      Short ex.gate ∨ (¬ Lost ex.gate ∧ (Short ex.up ∨ (¬ Lost ex.up ∧
        (Short ex.down ∨ (¬ Lost ex.down ∧ Exact ex.gate ∧ Exact ex.up ∧ Exact ex.down))))) := by
    unfold Meets
    rw [hplan, fetchAll_append, fetchAll_append, bind_assoc, Outcome.holds_bind]
    refine holds_fetchAll (h .gate) fun fg hg hgm => ?_
    rw [bind_assoc, Outcome.holds_bind]
    refine holds_fetchAll (h .up) fun fu hu hum => ?_
    rw [Outcome.ok_bind, Outcome.holds_bind]
    refine holds_fetchAll (h .down) fun fd hd hdm => ?_
    refine (whole_append hgm hum hdm).trans ?_
    rw [hg, hu, hd]
    exact Iff.rfl
  rw [hruns, Trusted, Refused, forall_matrix]
  constructor
  · rintro (hs | ⟨hg, hs | ⟨hu, hs | ⟨-, he⟩⟩⟩)
    · exact .inl (.inl hs)
    · exact .inl (.inr ⟨hg, .inl hs⟩)
    · exact .inl (.inr ⟨hg, .inr ⟨hu, hs⟩⟩)
    · exact .inr he
  · rintro ((hs | ⟨hg, hs | ⟨hu, hs⟩⟩) | ⟨hg, hu, hd⟩)
    · exact .inl hs
    · exact .inr ⟨hg, .inl hs⟩
    · exact .inr ⟨hg, .inr ⟨hu, .inl hs⟩⟩
    · exact .inr ⟨hg.not_lost, .inr ⟨hu.not_lost, .inr ⟨hd.not_lost, hg, hu, hd⟩⟩⟩

/-! ## Tensors of the lengths their formats ask for -/

/-- Of such a tensor the plan is right just when it is not block-scaled. -/
theorem exact_iff_of_sized {o i : Nat} (h : Routed t) (hs : t.Sized o i) (ho : 0 < o) :
    ¬ Short t ∧ (0 < i → (Exact t ↔ t.fmtCode = 3 ∨ t.fmtCode = 4)) := by
  have hrows : asUsize t.o = o := by
    have hlt := h.rows
    rw [hs.rows] at hlt ⊢
    rw [asUsize_of_nonneg hlt.1 (by omega), Int.toNat_natCast]
  have hcols : asUsize t.i = i := by
    have hlt := h.cols
    rw [hs.cols] at hlt ⊢
    rw [asUsize_of_nonneg hlt.1 (by omega), Int.toNat_natCast]
  have hlengths := hs.lengths
  unfold Loader.QTensor.Lengths at hlengths
  by_cases hpacked : t.fmtCode = 3 ∨ t.fmtCode = 4
  · have hlen : t.q4.Len (o * rowLen t) := by
      unfold rowLen
      rw [hcols]
      rcases hpacked with hfmt | hfmt
      · rw [hfmt] at hlengths ⊢
        exact hlengths.1
      · rw [hfmt] at hlengths ⊢
        exact hlengths.1
    constructor
    · rintro ⟨-, payload, hq4, hlt⟩
      obtain ⟨payload', hq4', hlen'⟩ := hlen
      cases hq4.symm.trans hq4'
      rw [hrows] at hlt
      omega
    · intro hi
      refine iff_of_true ⟨fun hz => absurd hz (Nat.ne_of_gt ?_), hrows.symm ▸ hlen⟩ hpacked
      unfold rowLen
      rw [hcols]
      rcases hpacked with hfmt | hfmt
      · rw [hfmt]
        show 0 < (i + 3) / 4
        omega
      · rw [hfmt]
        exact hi
  · -- nothing is planned, and there are rows
    have hbare : Bare t := not_not.mp fun hbare => hpacked (h.packed hbare)
    refine ⟨fun hshort => hshort.1 hbare, fun _ => iff_of_false (fun hexact => ?_) hpacked⟩
    have := hbare.elim hexact.1 id
    omega

/-- **No block-scaled projection**: of tensors of their formats' lengths, with rows and
columns, that is what it takes. -/
theorem trusted_iff_of_sized (h : ∀ m, Routed (tensorOf ex m))
    (hs : ∀ m, ∃ o i, 0 < o ∧ 0 < i ∧ (tensorOf ex m).Sized o i) :
    Trusted ex ↔ ∀ m, (tensorOf ex m).fmtCode = 3 ∨ (tensorOf ex m).fmtCode = 4 := by
  have hat : ∀ m, ¬ Short (tensorOf ex m) ∧ (Exact (tensorOf ex m) ↔
      (tensorOf ex m).fmtCode = 3 ∨ (tensorOf ex m).fmtCode = 4) := by
    intro m
    obtain ⟨o, i, ho, hi, hsized⟩ := hs m
    have hm := exact_iff_of_sized (h m) hsized ho
    exact ⟨hm.1, hm.2 hi⟩
  rw [Trusted, or_iff_right]
  · exact forall_congr' fun m => (hat m).2
  · rintro (hshort | ⟨-, hshort | ⟨-, hshort⟩⟩)
    · exact (hat .gate).1 hshort
    · exact (hat .up).1 hshort
    · exact (hat .down).1 hshort

end

/-- One row of three e4m3 weights, and three rows of one. -/
def e4m3Expert : Expert where
  gate := { fmtCode := 4, o := 3, i := 1, q4 := .owned [1, 2, 3], s := [0, 0, 0] }
  up := { fmtCode := 4, o := 3, i := 1, q4 := .owned [4, 5, 6], s := [0, 0, 0] }
  down := { fmtCode := 4, o := 1, i := 3, q4 := .owned [7, 8, 9], s := [0] }

/-- An e4m3 expert, in chunks of two bytes. -/
theorem e4m3Expert_meets : Meets 0 5 e4m3Expert 2 := by
  have hrouted : ∀ m, Routed (tensorOf e4m3Expert m) := by
    intro m
    cases m <;> exact ⟨by decide, by decide, by decide⟩
  have hsized : ∀ m, ∃ o i, 0 < o ∧ 0 < i ∧ (tensorOf e4m3Expert m).Sized o i := by
    intro m
    cases m with
    | gate => exact ⟨3, 1, by decide, by decide, rfl, rfl, ⟨_, rfl, rfl⟩, rfl⟩
    | up => exact ⟨3, 1, by decide, by decide, rfl, rfl, ⟨_, rfl, rfl⟩, rfl⟩
    | down => exact ⟨1, 3, by decide, by decide, rfl, rfl, ⟨_, rfl, rfl⟩, rfl⟩
  refine (planExpertChunks_meets_iff hrouted).mpr ((trusted_iff_of_sized hrouted hsized).mpr ?_)
  intro m
  cases m <;> exact .inr rfl

/-- Projections of one row of two NVFP4 weights. -/
def nvfp4Expert : Expert where
  gate := { fmtCode := 5, o := 1, i := 2, q4 := .owned [0x21], bs := .owned [0x38], g := 1 }
  up := { fmtCode := 5, o := 1, i := 2, q4 := .owned [0x43], bs := .owned [0x38], g := 1 }
  down := { fmtCode := 5, o := 1, i := 2, q4 := .owned [0x65], bs := .owned [0x38], g := 1 }

/-- **An expert passed over in silence**: it is as it should be, no chunk is planned for it,
and nothing is refused. -/
theorem nvfp4Expert_unfetched :
    (∀ m, Routed (tensorOf nvfp4Expert m) ∧ (tensorOf nvfp4Expert m).Sized 1 2) ∧
      fetchAll nvfp4Expert (planExpertChunks 0 0 nvfp4Expert (2 <<< 20)) = .ok [] ∧
      ¬ Meets 0 0 nvfp4Expert (2 <<< 20) := by
  refine ⟨fun m => ?_, rfl, fun h => ?_⟩
  · cases m <;> exact ⟨⟨by decide, by decide, by decide⟩, rfl, rfl, ⟨_, rfl, rfl⟩, _, rfl, rfl⟩
  · obtain ⟨-, payload, hq4, -, hfetched⟩ := h .gate
    cases hq4
    cases hfetched

end Colibri.Moe.Chunks
