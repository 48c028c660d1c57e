import Mathlib.Data.List.Basic

/-!
# Weights on the host and on the device

A weight has its buffers on the host, each at an address; an address is used again once
its buffer is gone. On a zero-copy device a kernel reads host buffers in place, through a
descriptor (`wrap`), or a copy that was made of them (`upload`).

`tryMatmulQt` keeps what it made of a weight in a map, under the address of the weight.
Whoever comes later with that address gets it, if format and shape agree.

`tryMatmulQt_cases` says what a call does to the map, and `marked_cached_iff` for which formats a
marked weight gets into it.
-/

namespace Colibri.Gpu

/-- A buffer on the host: where it is and what it holds. -/
structure Buf where
  addr : Nat
  data : List Nat
  deriving DecidableEq

/-- `QTensor`: the format says which buffer holds the weights. The global is the bits of
the `f32`. -/
structure QTensor where
  fmtCode : Int
  qf : Buf
  q8 : Buf
  q4 : Buf
  s : Buf
  bs : Buf
  g : Nat
  o : Nat
  i : Nat
  gpuEligible : Bool
  deriving DecidableEq

structure Expert where
  gate : QTensor
  up : QTensor
  down : QTensor
  deriving DecidableEq

def Expert.tensors (ex : Expert) : List QTensor := [ex.gate, ex.up, ex.down]

/-! ## Who may be cached -/

def cacheable (t : QTensor) : Bool := !(t.fmtCode == 0 || t.fmtCode == 1)

def Expert.markGpuEligible (ex : Expert) : Expert :=
  { gate := { ex.gate with gpuEligible := cacheable ex.gate }
    up := { ex.up with gpuEligible := cacheable ex.up }
    down := { ex.down with gpuEligible := cacheable ex.down } }

def expertsGpuDecision (setting : Option String) (zerocopy : Bool) : Bool :=
  match setting with
  | some "0" => false
  | _ => zerocopy

/-- The buffer whose address `try_matmul_qt` takes as its key, for the formats it takes. -/
def QTensor.cached (w : QTensor) : Option Buf :=
  if w.fmtCode = 5 then some w.q4
  else if w.fmtCode = 0 then some w.qf
  else if w.fmtCode = 1 then some w.q8
  else if w.fmtCode = 3 then some w.q4
  else if w.fmtCode = 2 then some w.q4
  else none

/-! ## Tensors of the device -/

/-- What a tensor of the device holds of a buffer: its address or its contents. -/
inductive Held where
  | host (addr : Nat)
  | device (data : List Nat)
  | absent
  deriving DecidableEq

/-- `ColiCudaTensor` -/
structure DeviceTensor where
  fmt : Int
  i : Nat
  o : Nat
  weights : Held
  scales : Held
  bscale : Held
  gscale : Nat
  deriving DecidableEq

def hasRowScale (fmt : Int) : Bool := fmt == 1 || fmt == 3 || fmt == 4

/-- `coli_cuda_tensor_wrap_nvfp4`, of a weight with no tensor yet. -/
def wrapNvfp4 (w : QTensor) : DeviceTensor :=
  ⟨5, w.i, w.o, .host w.q4.addr, .absent, .host w.bs.addr, w.g⟩

/-- `coli_cuda_tensor_wrap` -/
def wrap (w : QTensor) (weights : Buf) : DeviceTensor :=
  ⟨w.fmtCode, w.i, w.o, .host weights.addr, .host w.s.addr, .absent, 0⟩

/-- `coli_cuda_tensor_upload` -/
def upload (w : QTensor) (weights : Buf) : DeviceTensor :=
  ⟨w.fmtCode, w.i, w.o, .device weights.data,
    if hasRowScale w.fmtCode then .device w.s.data else .absent, .absent, 0⟩

/-- What is made of a weight on first use. -/
def create (weightZerocopy : Bool) (w : QTensor) (weights : Buf) : DeviceTensor :=
  if w.fmtCode = 5 then wrapNvfp4 w
  else if weightZerocopy then wrap w weights
  else upload w weights

/-- The tensor a call gets: the one in the slot, if format and shape agree, or a new one. -/
def deviceSlot (weightZerocopy : Bool) (slot : Option DeviceTensor) (w : QTensor) (weights : Buf) :
    Option DeviceTensor :=
  if w.i < 1 ∨ w.o < 1 then none
  else
    match slot with
    | some t => if t.fmt = w.fmtCode ∧ t.i = w.i ∧ t.o = w.o then some t else none
    | none => some (create weightZerocopy w weights)

/-- How a call on the device ends: no memory for the tensor, a kernel that fails, or well. -/
inductive Outcome where
  | unmade
  | failed
  | ran

abbrev Resident := Nat → Option DeviceTensor

/-- `try_matmul_qt`: the map afterwards, and the tensor it computed with; none where it
declines. -/
def tryMatmulQt (weightZerocopy : Bool) (map : Resident) (w : QTensor) (outcome : Outcome) :
    Resident × Option DeviceTensor :=
  if w.gpuEligible then
    match w.cached with
    | none => (map, none)
    | some weights =>
      match deviceSlot weightZerocopy (map weights.addr) w weights, outcome with
      | none, _ => (map, none)
      | some _, .unmade => (map, none)
      | some t, .failed => (Function.update map weights.addr (some t), none)
      | some t, .ran => (Function.update map weights.addr (some t), some t)
  else (map, none)

/-! ## What they do -/

theorem mem_tensors {ex : Expert} {w : QTensor} :
    w ∈ ex.tensors ↔ w = ex.gate ∨ w = ex.up ∨ w = ex.down := by
  rw [Expert.tensors, List.mem_cons, List.mem_cons, List.mem_singleton]

theorem cacheable_iff {t : QTensor} : cacheable t = true ↔ t.fmtCode ≠ 0 ∧ t.fmtCode ≠ 1 := by
  simp [cacheable]

theorem mem_markGpuEligible {ex : Expert} {w : QTensor} : w ∈ ex.markGpuEligible.tensors ↔
    ∃ t ∈ ex.tensors, w = { t with gpuEligible := cacheable t } := by
  simp only [mem_tensors, Expert.markGpuEligible, exists_eq_or_imp, exists_eq_left]

theorem cached_isSome {w : QTensor} : w.cached.isSome ↔ w.fmtCode = 0 ∨ w.fmtCode = 1 ∨
    w.fmtCode = 2 ∨ w.fmtCode = 3 ∨ w.fmtCode = 5 := by
  unfold QTensor.cached
  split
  next h => simp [h]
  next h5 =>
    split
    next h => simp [h]
    next h0 =>
      split
      next h => simp [h]
      next h1 =>
        split
        next h => simp [h]
        next h3 =>
          split
          next h => simp [h]
          next h2 => simp [h0, h1, h2, h3, h5]

/-- **What marking lets into the map**: exactly the formats 2, 3 and 5. -/
theorem marked_cached_iff {t : QTensor} :
    (cacheable t = true ∧ t.cached ≠ none) ↔ t.fmtCode = 2 ∨ t.fmtCode = 3 ∨ t.fmtCode = 5 := by
  rw [cacheable_iff, ← Option.isSome_iff_ne_none, cached_isSome]
  omega

/-- What a call does to the map: nothing, or the slot of its weight gets the tensor that
was there or a new one. -/
theorem tryMatmulQt_cases (weightZerocopy : Bool) (map : Resident) (w : QTensor)
    (outcome : Outcome) :
    tryMatmulQt weightZerocopy map w outcome = (map, none) ∨
      ∃ weights t, w.gpuEligible = true ∧ w.cached = some weights ∧
        deviceSlot weightZerocopy (map weights.addr) w weights = some t ∧
        (tryMatmulQt weightZerocopy map w outcome).1 =
          Function.update map weights.addr (some t) ∧
        ((tryMatmulQt weightZerocopy map w outcome).2 = none ∨
          (tryMatmulQt weightZerocopy map w outcome).2 = some t) := by
  rw [tryMatmulQt]
  split
  next hel =>
    cases hc : w.cached with
    | none => exact Or.inl rfl
    | some weights =>
      dsimp only
      cases ht : deviceSlot weightZerocopy (map weights.addr) w weights with
      | none => exact Or.inl rfl
      | some t =>
        cases outcome with
        | unmade => exact Or.inl rfl
        | failed => exact Or.inr ⟨weights, t, hel, rfl, ht, rfl, Or.inl rfl⟩
        | ran => exact Or.inr ⟨weights, t, hel, rfl, ht, rfl, Or.inr rfl⟩
  next => exact Or.inl rfl

/-- The tensor of a slot is the slot's, or made of the weight. -/
theorem deviceSlot_cases {weightZerocopy : Bool} {slot : Option DeviceTensor} {w : QTensor}
    {weights : Buf} {t : DeviceTensor} (h : deviceSlot weightZerocopy slot w weights = some t) :
    slot = some t ∨ slot = none ∧ t = create weightZerocopy w weights := by
  unfold deviceSlot at h
  split at h
  · cases h
  · split at h
    · split at h
      · exact Or.inl h
      · cases h
    · cases h
      exact Or.inr ⟨rfl, rfl⟩

end Colibri.Gpu
