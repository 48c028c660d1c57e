import Mathlib.Data.List.Basic

/-!
# The cache of a decode run, and its Mamba2 state

A forward over the main stack reads and writes rows indexed by position and, on a
hybrid stack, the Mamba2 conv history and scan state of each layer, which have no
position. A head past the main layers keeps rows of its own. What a speculative verify
forward did to the rows is overwritten by the next forward; what it did to the Mamba2
state is undone from a snapshot, and `restoreMambaFrom_snapshot` says the snapshot
brings back exactly the state it was taken of.

`SameShape` relates caches whose buffers have the same lengths, `SameMamba` those with the same
recurrent state. A snapshot fits every cache of the shape it was taken of, and `snapshotMambaInto`
reuses the buffers of an older one, whose contents do not matter (`snapshotMambaInto_eq`).
-/

namespace Colibri.Kv.Mamba

/-- What the main stack's forward keeps in a cache. `rows p` stands for the latent, key
and value rows of every main layer at position `p`. A cache without Mamba2 layers
(`mambaConvDim = 0`) holds empty buffers. -/
structure MainKv (Row F : Type) where
  rows : Nat → Row
  mambaConv : List (List F)
  mambaSsm : List (List F)
  mambaConvDim : Nat
  layers : mambaConv.length = mambaSsm.length
  unused : mambaConvDim = 0 → (∀ b ∈ mambaConv, b = []) ∧ ∀ b ∈ mambaSsm, b = []

/-- A stack without Mamba2 layers has rows and nothing else. -/
def MainKv.ofRows {Row F : Type} (rows : Nat → Row) : MainKv Row F where
  rows := rows
  mambaConv := []
  mambaSsm := []
  mambaConvDim := 0
  layers := rfl
  unused _ := ⟨List.forall_mem_nil _, List.forall_mem_nil _⟩

/-- The head's rows: where each of its layers starts, and what they hold. -/
structure HeadKv (HRow : Type) where
  kvStart : List Nat
  rows : HRow

structure KvCache (Row F HRow : Type) where
  maxT : Nat
  main : MainKv Row F
  head : HeadKv HRow

/-- Saved copy of all Mamba2 recurrent state. -/
structure MambaSnapshot (F : Type) where
  conv : List (List F)
  ssm : List (List F)
  layers : conv.length = ssm.length

section

variable {Row F HRow : Type}

def MambaSnapshot.empty : MambaSnapshot F := ⟨[], [], rfl⟩

def MainKv.hasMamba (kv : MainKv Row F) : Bool := kv.mambaConvDim != 0

/-- `start_at` on layer `j` of the head. -/
def KvCache.startAt (kv : KvCache Row F HRow) (j pos : Nat) : KvCache Row F HRow :=
  { kv with head := { kv.head with
      kvStart := kv.head.kvStart.modify j fun start => if start > pos then pos else start } }

/-- `clear` and then `extend_from_slice`: the buffer is reused, its content is not. -/
def refill (buf src : List F) : List F := buf.take 0 ++ src

def snapshotMambaInto (kv : MainKv Row F) (snap : MambaSnapshot F) : MambaSnapshot F :=
  let n := kv.mambaConv.length
  let fresh : MambaSnapshot F := ⟨List.replicate n [], List.replicate n [], rfl⟩
  let snap := if snap.conv.length ≠ n then fresh else snap
  { conv := List.zipWith refill snap.conv kv.mambaConv
    ssm := List.zipWith refill snap.ssm kv.mambaSsm
    layers := by rw [List.length_zipWith, List.length_zipWith, snap.layers, kv.layers] }

/-- `copy_from_slice`, layer by layer; a slice of another length panics. -/
def copyLayers : List (List F) → List (List F) → Option (List (List F))
  | [], _ => some []
  | _ :: _, [] => none
  | dst :: dsts, src :: srcs =>
    if dst.length = src.length then (copyLayers dsts srcs).map (src :: ·) else none

variable {dsts srcs : List (List F)} {a b : MainKv Row F}

theorem copyLayers_mem_length {out : List (List F)}
    (h : copyLayers dsts srcs = some out) : out.map List.length = dsts.map List.length := by
  induction dsts generalizing srcs out with
  | nil => cases h; rfl
  | cons dst dsts ih =>
    cases srcs with
    | nil => cases h
    | cons src srcs =>
      rw [copyLayers] at h
      split at h
      next hlen =>
        obtain ⟨rest, hrest, rfl⟩ := Option.map_eq_some_iff.mp h
        rw [List.map_cons, List.map_cons, ih hrest, hlen]
      next => cases h

theorem copyLayers_length {out : List (List F)} (h : copyLayers dsts srcs = some out) :
    out.length = dsts.length := by
  have hlen := congrArg List.length (copyLayers_mem_length h)
  rwa [List.length_map, List.length_map] at hlen

theorem copyLayers_same
    (h : dsts.map List.length = srcs.map List.length) : copyLayers dsts srcs = some srcs := by
  induction dsts generalizing srcs with
  | nil =>
    cases srcs with
    | nil => rfl
    | cons src srcs => simp at h
  | cons dst dsts ih =>
    cases srcs with
    | nil => simp at h
    | cons src srcs =>
      rw [List.map_cons, List.map_cons, List.cons.injEq] at h
      rw [copyLayers, if_pos h.1, ih h.2]
      rfl

theorem eq_of_empty {xs ys : List (List F)} (h : xs.map List.length = ys.map List.length)
    (hx : ∀ b ∈ xs, b = []) (hy : ∀ b ∈ ys, b = []) : xs = ys := by
  have hlen : xs.length = ys.length := by simpa using congrArg List.length h
  rw [List.eq_replicate_of_mem hx, List.eq_replicate_of_mem hy, hlen]

theorem empty_of_lengths {xs ys : List (List F)} (h : xs.map List.length = ys.map List.length)
    (hy : ∀ b ∈ ys, b = []) : ∀ b ∈ xs, b = [] := by
  intro b hb
  have hmem : b.length ∈ ys.map List.length := h ▸ List.mem_map_of_mem hb
  obtain ⟨c, hc, hlen⟩ := List.mem_map.mp hmem
  rw [hy c hc] at hlen
  exact List.eq_nil_of_length_eq_zero hlen.symm

/-- Panics (`none`) on a snapshot of other shapes. -/
def restoreMambaFrom (kv : MainKv Row F) (snap : MambaSnapshot F) : Option (MainKv Row F) :=
  match hc : copyLayers kv.mambaConv snap.conv, hs : copyLayers kv.mambaSsm snap.ssm with
  | some conv, some ssm =>
    some { kv with
      mambaConv := conv
      mambaSsm := ssm
      layers := by rw [copyLayers_length hc, copyLayers_length hs, kv.layers]
      unused := fun h =>
        ⟨empty_of_lengths (copyLayers_mem_length hc) (kv.unused h).1,
          empty_of_lengths (copyLayers_mem_length hs) (kv.unused h).2⟩ }
  | _, _ => none

/-- The recurrent state of two caches is the same. -/
structure SameMamba (a b : MainKv Row F) : Prop where
  dim : a.mambaConvDim = b.mambaConvDim
  conv : a.mambaConv = b.mambaConv
  ssm : a.mambaSsm = b.mambaSsm

/-- The recurrent state of two caches has the same shape. A forward keeps it: the
lengths are invariant across a sequence. -/
structure SameShape (a b : MainKv Row F) : Prop where
  dim : a.mambaConvDim = b.mambaConvDim
  conv : a.mambaConv.map List.length = b.mambaConv.map List.length
  ssm : a.mambaSsm.map List.length = b.mambaSsm.map List.length

theorem SameShape.trans {c : MainKv Row F} (h : SameShape a b) (h' : SameShape b c) :
    SameShape a c :=
  ⟨h.dim.trans h'.dim, h.conv.trans h'.conv, h.ssm.trans h'.ssm⟩

theorem SameShape.symm (h : SameShape a b) : SameShape b a :=
  ⟨h.dim.symm, h.conv.symm, h.ssm.symm⟩

theorem SameMamba.shape (h : SameMamba a b) : SameShape a b :=
  ⟨h.dim, congrArg _ h.conv, congrArg _ h.ssm⟩

theorem SameMamba.symm (h : SameMamba a b) : SameMamba b a :=
  ⟨h.dim.symm, h.conv.symm, h.ssm.symm⟩

theorem SameMamba.trans {c : MainKv Row F} (h : SameMamba a b) (h' : SameMamba b c) :
    SameMamba a c :=
  ⟨h.dim.trans h'.dim, h.conv.trans h'.conv, h.ssm.trans h'.ssm⟩

theorem SameShape.sameMamba (h : SameShape a b)
    (hno : b.hasMamba = false) : SameMamba a b := by
  have hb : b.mambaConvDim = 0 := by simpa [MainKv.hasMamba] using hno
  have ha : a.mambaConvDim = 0 := h.dim.trans hb
  exact ⟨h.dim, eq_of_empty h.conv (a.unused ha).1 (b.unused hb).1,
    eq_of_empty h.ssm (a.unused ha).2 (b.unused hb).2⟩

theorem zipWith_refill {bufs : List (List F)} (h : bufs.length = srcs.length) :
    List.zipWith refill bufs srcs = srcs := by
  induction bufs generalizing srcs with
  | nil =>
    cases srcs with
    | nil => rfl
    | cons src srcs => simp at h
  | cons buf bufs ih =>
    cases srcs with
    | nil => simp at h
    | cons src srcs =>
      rw [List.zipWith_cons_cons, ih (Nat.succ.inj h)]
      rfl

/-- A snapshot is a copy, whatever its buffers held before. -/
theorem snapshotMambaInto_eq (kv : MainKv Row F) (snap : MambaSnapshot F) :
    (snapshotMambaInto kv snap).conv = kv.mambaConv ∧
      (snapshotMambaInto kv snap).ssm = kv.mambaSsm := by
  unfold snapshotMambaInto
  constructor
  · apply zipWith_refill
    by_cases h : snap.conv.length = kv.mambaConv.length
    · rw [if_neg (not_not_intro h), h]
    · rw [if_pos h, List.length_replicate]
  · apply zipWith_refill
    by_cases h : snap.conv.length = kv.mambaConv.length
    · rw [if_neg (not_not_intro h), ← snap.layers, h, kv.layers]
    · rw [if_pos h, List.length_replicate, kv.layers]

/-- Restoring a snapshot of `kv` into a cache of the same shape succeeds, brings back
the recurrent state of `kv` and leaves the rows alone. -/
theorem restoreMambaFrom_snapshot {kv kv' : MainKv Row F} (h : SameShape kv' kv)
    (snap : MambaSnapshot F) :
    ∃ back, restoreMambaFrom kv' (snapshotMambaInto kv snap) = some back ∧
      SameMamba back kv ∧ back.rows = kv'.rows := by
  obtain ⟨hconv, hssm⟩ := snapshotMambaInto_eq kv snap
  have hc := copyLayers_same h.conv
  have hs := copyLayers_same h.ssm
  rw [← hconv] at hc
  rw [← hssm] at hs
  unfold restoreMambaFrom
  split
  next conv ssm hc' hs' =>
    rw [hc] at hc'
    rw [hs] at hs'
    cases hc'
    cases hs'
    exact ⟨_, rfl, ⟨h.dim, hconv, hssm⟩, rfl⟩
  next hno => exact absurd hs (hno _ _ hc)

end

end Colibri.Kv.Mamba
