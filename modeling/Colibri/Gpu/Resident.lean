import Colibri.Gpu.Tensor
import Colibri.Lib.Runs

/-!
# The map keyed by addresses

A forward pass on a zero-copy device, with experts loaded and dropped by any thread
meanwhile. The weights of the model stay for the run; an expert that is gone leaves its
addresses to the next. A fused kernel takes its weights by a descriptor of its own, and
where it declines, `ffn_cpu` goes through `tryMatmulQt`, one product after another, and
holds its expert until it is done.

Marking keeps the formats 0 and 1 out of the map, and `tryMatmulQt` takes 2, 3 and 5 as
well: an expert of one of these leaves a tensor behind (`stale_after_eviction`), and no
other does (`resident_fresh_iff`).

* `tryMatmulQt_harmless` and `tryMatmulQt_resident` say what a product of either kind of weight does
  to the map; `Kept.step` is the step of the invariant.
* `loadExpert_unmapped_iff` is the condition for one expert, `resident_fresh_iff` for a run.
* `stale_after_eviction` is the failing run: an expert that is read into the span of another one
  gets the other one's tensor.
-/

namespace Colibri.Gpu

/-- What is fixed for a run: the setting of the experts, how weights reach the device, and
the activation, as far as it chooses a path. -/
structure Setup where
  gpuExperts : Option String
  weightZerocopy : Bool
  relu2 : Bool
  situ : Bool

/-- The weights of the model (the router's among them), the experts in memory, the `ffn`
under way with the products to come, and the map. -/
structure World where
  resident : List QTensor
  live : List Expert
  running : Option (Expert × List QTensor)
  map : Resident

inductive Label where
  /-- an expert, as read -/
  | load (ex : Expert)
  | drop (ex : Expert)
  /-- `ffn`, by a fused kernel or not -/
  | ffn (ex : Expert) (fused : Bool)
  /-- `try_matmul_qt`, and the tensor it computed with -/
  | matmul (w : QTensor) (used : Option DeviceTensor)
  | finish

section

variable (cfg : Setup)

/-- `load_expert`, after the reading; the device is zero-copy. -/
def Setup.loadExpert (ex : Expert) : Expert :=
  if expertsGpuDecision cfg.gpuExperts true then ex.markGpuEligible else ex

/-- Whether `ffn` gets as far as a fused kernel. -/
def Setup.fusable (ex : Expert) : Bool :=
  if cfg.relu2 then
    ex.up.gpuEligible && ex.down.gpuEligible && ex.up.fmtCode == 5 && ex.down.fmtCode == 5
  else
    let mxfp4 := ex.gate.fmtCode == 6 && ex.up.fmtCode == 6 && ex.down.fmtCode == 6
    if cfg.situ then mxfp4
    else mxfp4 || (ex.gate.gpuEligible && ex.up.gpuEligible && ex.down.gpuEligible)

/-- The products of `ffn_cpu`, in order. -/
def Setup.products (ex : Expert) : List QTensor :=
  if cfg.relu2 then [ex.up, ex.down] else [ex.gate, ex.up, ex.down]

/-- The addresses of a weight's buffers that hold something. -/
def QTensor.addrs (w : QTensor) : List Nat :=
  ([w.qf, w.q8, w.q4, w.s, w.bs].filter fun b => !b.data.isEmpty).map Buf.addr

/-- The addresses in use. -/
def World.addrs (s : World) : List Nat :=
  s.resident.flatMap QTensor.addrs ++
    (s.live ++ s.running.toList.map Prod.fst).flatMap fun ex => ex.tensors.flatMap QTensor.addrs

inductive Step (s : World) : Label → World → Prop where
  /-- the buffers are put where there is none -/
  | load {ex : Expert} : (∀ w ∈ ex.tensors, w.gpuEligible = false) →
    (∀ w ∈ ex.tensors, ∀ a ∈ w.addrs, a ∉ s.addrs) →
    Step s (.load ex) { s with live := cfg.loadExpert ex :: s.live }
  | drop {ex : Expert} : ex ∈ s.live → Step s (.drop ex) { s with live := s.live.erase ex }
  | fused {ex : Expert} : ex ∈ s.live → s.running = none → cfg.fusable ex = true →
    Step s (.ffn ex true) s
  | declined {ex : Expert} : ex ∈ s.live → s.running = none →
    Step s (.ffn ex false) { s with running := some (ex, cfg.products ex) }
  | product {ex : Expert} {w : QTensor} {rest : List QTensor} (outcome : Outcome) :
    s.running = some (ex, w :: rest) →
    Step s (.matmul w (tryMatmulQt cfg.weightZerocopy s.map w outcome).2)
      { s with
        running := some (ex, rest)
        map := (tryMatmulQt cfg.weightZerocopy s.map w outcome).1 }
  | finish {ex : Expert} : s.running = some (ex, []) → Step s .finish { s with running := none }
  | dense {w : QTensor} (outcome : Outcome) : w ∈ s.resident →
    Step s (.matmul w (tryMatmulQt cfg.weightZerocopy s.map w outcome).2)
      { s with map := (tryMatmulQt cfg.weightZerocopy s.map w outcome).1 }

/-- What a model is loaded into: nothing on the device yet. -/
def World.new (resident : List QTensor) : World := ⟨resident, [], none, fun _ => none⟩

/-- Different weights of the model are at different addresses. -/
def Apart (resident : List QTensor) : Prop :=
  ∀ w ∈ resident, ∀ w' ∈ resident, ∀ b b', w.cached = some b → w'.cached = some b' →
    b.addr = b'.addr → w = w'

/-! ## The two halves -/

/-- Every product was computed with a tensor made of its own weight. -/
def Fresh (trace : List Label) : Prop :=
  ∀ w t, .matmul w (some t) ∈ trace → ∃ b, w.cached = some b ∧ t = create cfg.weightZerocopy w b

/-- No expert that was loaded is marked with a format that goes into the map. -/
def Unmapped (trace : List Label) : Prop :=
  ∀ ex, .load ex ∈ trace → ∀ w ∈ (cfg.loadExpert ex).tensors, w.gpuEligible = true →
    w.cached = none

/-- Formats that marking lets into the map: bf16, int2 and NVFP4. -/
def Leaks (w : QTensor) : Prop := w.fmtCode = 2 ∨ w.fmtCode = 3 ∨ w.fmtCode = 5

variable {cfg}

/-- **One expert**: what is marked stays out of the map exactly if no format leaks. -/
theorem loadExpert_unmapped_iff {ex : Expert} (hraw : ∀ w ∈ ex.tensors, w.gpuEligible = false) :
    (∀ w ∈ (cfg.loadExpert ex).tensors, w.gpuEligible = true → w.cached = none) ↔
      (expertsGpuDecision cfg.gpuExperts true = true → ∀ w ∈ ex.tensors, ¬ Leaks w) := by
  rw [Setup.loadExpert]
  cases hon : expertsGpuDecision cfg.gpuExperts true with
  | false =>
    rw [if_neg Bool.false_ne_true]
    refine iff_of_true (fun w hw hel => ?_) fun h => by cases h
    rw [hraw w hw] at hel
    cases hel
  | true =>
    rw [if_pos rfl]
    constructor
    · intro h _ t ht hleak
      obtain ⟨hcache, hcached⟩ := marked_cached_iff.mpr hleak
      have hmarked := h { t with gpuEligible := cacheable t }
        (mem_markGpuEligible.mpr ⟨t, ht, rfl⟩) hcache
      exact hcached hmarked
    · intro h w hw hel
      obtain ⟨t, ht, rfl⟩ := mem_markGpuEligible.mp hw
      by_contra hcached
      exact h rfl t ht (marked_cached_iff.mp ⟨hel, hcached⟩)

/-! ## The invariant -/

/-- An expert in memory has nothing that goes into the map. -/
def Harmless (ex : Expert) : Prop := ∀ w ∈ ex.tensors, w.gpuEligible = true → w.cached = none

/-- The map holds tensors of the model's weights alone, each made of its own. -/
structure Kept (cfg : Setup) (resident : List QTensor) (s : World) : Prop where
  same : s.resident = resident
  map : ∀ a t, s.map a = some t → ∃ w ∈ resident, ∃ b, w.cached = some b ∧ b.addr = a ∧
    t = create cfg.weightZerocopy w b
  live : ∀ ex ∈ s.live, Harmless ex
  running : ∀ ex rest, s.running = some (ex, rest) → Harmless ex ∧ ∀ w ∈ rest, w ∈ ex.tensors

theorem products_subset (ex : Expert) : ∀ w ∈ cfg.products ex, w ∈ ex.tensors := by
  intro w hw
  rw [Setup.products] at hw
  split at hw
  · exact List.mem_cons_of_mem _ hw
  · exact hw

variable {resident : List QTensor}

/-- A harmless weight leaves the map alone, and nothing is computed. -/
theorem tryMatmulQt_harmless {w : QTensor} (h : w.gpuEligible = true → w.cached = none)
    (weightZerocopy : Bool) (map : Resident) (outcome : Outcome) :
    tryMatmulQt weightZerocopy map w outcome = (map, none) := by
  rw [tryMatmulQt]
  split
  next hel => rw [h hel]
  next => rfl

/-- A weight of the model gets its own tensor. -/
theorem tryMatmulQt_resident (hapart : Apart resident) {map : Resident}
    (hmap : ∀ a t, map a = some t → ∃ w ∈ resident, ∃ b, w.cached = some b ∧ b.addr = a ∧
      t = create cfg.weightZerocopy w b) {w : QTensor} (hw : w ∈ resident) (outcome : Outcome) :
    (∀ a t, (tryMatmulQt cfg.weightZerocopy map w outcome).1 a = some t →
      ∃ w ∈ resident, ∃ b, w.cached = some b ∧ b.addr = a ∧
        t = create cfg.weightZerocopy w b) ∧
      ∀ t, (tryMatmulQt cfg.weightZerocopy map w outcome).2 = some t →
        ∃ b, w.cached = some b ∧ t = create cfg.weightZerocopy w b := by
  rcases tryMatmulQt_cases cfg.weightZerocopy map w outcome with
    hnone | ⟨b, t, -, hb, hslot, hmap', hused⟩
  · rw [hnone]
    exact ⟨hmap, fun t ht => by cases ht⟩
  · have hown : t = create cfg.weightZerocopy w b := by
      rcases deviceSlot_cases hslot with hfound | ⟨-, hnew⟩
      · -- the slot was filled for a weight at this address, and there is one only
        obtain ⟨w', hw', b', hb', haddr, ht⟩ := hmap _ _ hfound
        obtain rfl := hapart w' hw' w hw b' b hb' hb haddr
        rw [hb, Option.some.injEq] at hb'
        rw [ht, hb']
      · exact hnew
    refine ⟨fun a t' ht' => ?_, fun t' ht' => ?_⟩
    · rw [hmap', Function.update_apply] at ht'
      split at ht'
      next ha =>
        cases ht'
        exact ⟨w, hw, b, hb, ha.symm, hown⟩
      next => exact hmap a t' ht'
    · rcases hused with hno | hyes
      · rw [hno] at ht'
        cases ht'
      · rw [hyes] at ht'
        cases ht'
        exact ⟨b, hb, hown⟩

/-- **A step** keeps the map, if it loads no expert that leaks. -/
theorem Kept.step (hapart : Apart resident) {s s' : World} {l : Label} (h : Kept cfg resident s)
    (hstep : Step cfg s l s')
    (hload : ∀ ex, l = .load ex → Harmless (cfg.loadExpert ex)) :
    Kept cfg resident s' ∧ ∀ w t, l = .matmul w (some t) →
      ∃ b, w.cached = some b ∧ t = create cfg.weightZerocopy w b := by
  cases hstep with
  | @load ex hraw hplaced =>
    refine ⟨⟨h.same, h.map, fun ex' hex => ?_, h.running⟩, fun _ _ hl => by cases hl⟩
    rcases List.mem_cons.mp hex with rfl | hex
    · exact hload ex rfl
    · exact h.live ex' hex
  | drop hex =>
    exact ⟨⟨h.same, h.map, fun ex' hex' => h.live ex' (List.mem_of_mem_erase hex'), h.running⟩,
      fun _ _ hl => by cases hl⟩
  | fused hex hno hfus => exact ⟨h, fun _ _ hl => by cases hl⟩
  | @declined ex hex hno =>
    refine ⟨⟨h.same, h.map, h.live, fun ex' rest hrun => ?_⟩, fun _ _ hl => by cases hl⟩
    cases hrun
    exact ⟨h.live ex hex, products_subset ex⟩
  | @product ex w rest outcome hrun =>
    obtain ⟨hharmless, hsub⟩ := h.running _ _ hrun
    have hw := hharmless w (hsub w (List.mem_cons_self ..))
    rw [tryMatmulQt_harmless hw]
    refine ⟨⟨h.same, h.map, h.live, fun ex' rest' hrun' => ?_⟩, fun _ _ hl => by cases hl⟩
    cases hrun'
    exact ⟨hharmless, fun w' hw' => hsub w' (List.mem_cons_of_mem _ hw')⟩
  | finish hrun =>
    exact ⟨⟨h.same, h.map, h.live, fun _ _ hrun' => by cases hrun'⟩, fun _ _ hl => by cases hl⟩
  | @dense w outcome hw =>
    rw [h.same] at hw
    obtain ⟨hmap, hused⟩ := tryMatmulQt_resident hapart h.map hw outcome
    refine ⟨⟨h.same, hmap, h.live, h.running⟩, fun w' t hl => ?_⟩
    injection hl with hww ht
    rw [← hww]
    exact hused t ht

/-! ## Runs -/

/-- Experts come from the file unmarked. -/
theorem load_raw {trace : List Label} {s : World}
    (h : Lts.Run (Step cfg) (World.new resident) trace s) :
    ∀ ex, .load ex ∈ trace → ∀ w ∈ ex.tensors, w.gpuEligible = false := by
  refine h.trace_inv (I := fun trace _ => ∀ ex, .load ex ∈ trace →
    ∀ w ∈ ex.tensors, w.gpuEligible = false) (fun _ hex => by cases hex) ?_
  intro trace s l s' hI hstep ex hex
  rcases List.mem_append.mp hex with hex | hex
  · exact hI ex hex
  · rw [List.mem_singleton] at hex
    subst hex
    cases hstep with
    | load hraw _ => exact hraw

/-- While no expert leaks, the map holds the model's weights alone. -/
theorem kept_of_unmapped (hapart : Apart resident) {trace : List Label} {s : World}
    (h : Lts.Run (Step cfg) (World.new resident) trace s) (hun : Unmapped cfg trace) :
    Kept cfg resident s ∧ Fresh cfg trace := by
  revert hun
  refine h.trace_inv (I := fun trace s => Unmapped cfg trace →
    Kept cfg resident s ∧ Fresh cfg trace) ?_ ?_
  · intro _
    refine ⟨⟨rfl, ?_, ?_, ?_⟩, ?_⟩
    · exact fun _ _ h => by cases h
    · exact fun _ h => by cases h
    · exact fun _ _ h => by cases h
    · exact fun _ _ h => by cases h
  · intro trace s l s' hI hstep hun
    obtain ⟨hkept, hfresh⟩ := hI fun ex hex => hun ex (List.mem_append_left _ hex)
    obtain ⟨hkept', hused⟩ := hkept.step hapart hstep fun ex hl =>
      hun ex (List.mem_append_right _ (List.mem_singleton.mpr hl.symm))
    refine ⟨hkept', fun w t hmem => ?_⟩
    rcases List.mem_append.mp hmem with hmem | hmem
    · exact hfresh w t hmem
    · exact hused w t (List.mem_singleton.mp hmem).symm

/-- **When the map is never stale and no expert is marked into it**: in every run, exactly
when no expert loaded for the device has a tensor in bf16, int2 or NVFP4. -/
theorem resident_fresh_iff (hapart : Apart resident) {trace : List Label} {s : World}
    (h : Lts.Run (Step cfg) (World.new resident) trace s) :
    (Fresh cfg trace ∧ Unmapped cfg trace) ↔
      (expertsGpuDecision cfg.gpuExperts true = true →
        ∀ ex, .load ex ∈ trace → ∀ w ∈ ex.tensors, ¬ Leaks w) := by
  have hraw := load_raw h
  constructor
  · intro hboth hon ex hex
    exact (loadExpert_unmapped_iff (hraw ex hex)).mp (hboth.2 ex hex) hon
  · intro hleak
    have hun : Unmapped cfg trace := fun ex hex =>
      (loadExpert_unmapped_iff (hraw ex hex)).mpr fun hon => hleak hon ex hex
    exact ⟨(kept_of_unmapped hapart h hun).2, hun⟩

end

/-! ## A stale hit -/

/-- A row of two NVFP4 weights: a byte of nibbles, then its scale. -/
def nvfp4Row (addr nibbles scale g : Nat) : QTensor :=
  ⟨5, ⟨0, []⟩, ⟨0, []⟩, ⟨addr, [nibbles]⟩, ⟨0, []⟩, ⟨addr + 1, [scale]⟩, g, 1, 2, false⟩

/-- An expert in one span of memory. -/
def nvfp4Expert (nibbles g : Nat) : Expert :=
  ⟨nvfp4Row 100 nibbles 56 g, nvfp4Row 102 nibbles 56 g, nvfp4Row 104 nibbles 56 g⟩

/-- The activation `situ`, which no NVFP4 kernel computes. -/
def situSetup : Setup := ⟨none, false, false, true⟩

/-- The map when the first product of an expert is all there was memory for. -/
def afterFirst (g : Nat) : Resident :=
  Function.update (fun _ => none) 100 (some (wrapNvfp4 (nvfp4Row 100 1 56 g)))

theorem situ_load (nibbles g : Nat) (map : Resident) : Step situSetup ⟨[], [], none, map⟩
    (.load (nvfp4Expert nibbles g)) ⟨[], [(nvfp4Expert nibbles g).markGpuEligible], none, map⟩ := by
  refine Step.load (fun w hw => ?_) fun w _ a _ h => by cases h
  rcases mem_tensors.mp hw with rfl | rfl | rfl <;> rfl

theorem situ_declined (ex : Expert) (map : Resident) : Step situSetup ⟨[], [ex], none, map⟩
    (.ffn ex false) ⟨[], [ex], some (ex, [ex.gate, ex.up, ex.down]), map⟩ :=
  Step.declined (List.mem_cons_self ..) rfl

/-- An expert runs and is dropped, and the next one is read into its span: the first
product of the second is computed with the global of the first. -/
theorem stale_after_eviction : ∃ trace s w t, Lts.Run (Step situSetup) (World.new []) trace s ∧
    .matmul w (some t) ∈ trace ∧ ∀ b, w.cached = some b →
      t ≠ create situSetup.weightZerocopy w b := by
  let ex := (nvfp4Expert 1 1).markGpuEligible
  have hgate : Step situSetup ⟨[], [ex], some (ex, [ex.gate, ex.up, ex.down]), fun _ => none⟩
      (.matmul ex.gate (some (wrapNvfp4 (nvfp4Row 100 1 56 1))))
      ⟨[], [ex], some (ex, [ex.up, ex.down]), afterFirst 1⟩ := Step.product .ran rfl
  have hup : Step situSetup ⟨[], [ex], some (ex, [ex.up, ex.down]), afterFirst 1⟩
      (.matmul ex.up none) ⟨[], [ex], some (ex, [ex.down]), afterFirst 1⟩ :=
    Step.product .unmade rfl
  have hdown : Step situSetup ⟨[], [ex], some (ex, [ex.down]), afterFirst 1⟩
      (.matmul ex.down none) ⟨[], [ex], some (ex, []), afterFirst 1⟩ := Step.product .unmade rfl
  have hdrop : Step situSetup ⟨[], [ex], none, afterFirst 1⟩ (.drop ex)
      ⟨[], [], none, afterFirst 1⟩ := by
    have h : Step situSetup ⟨[], [ex], none, afterFirst 1⟩ _ _ := Step.drop (List.mem_cons_self ..)
    rwa [List.erase_cons_head] at h
  let next := (nvfp4Expert 2 2).markGpuEligible
  have hstale : Step situSetup
      ⟨[], [next], some (next, [next.gate, next.up, next.down]), afterFirst 1⟩
      (.matmul next.gate (some (wrapNvfp4 (nvfp4Row 100 1 56 1)))) _ := Step.product .ran rfl
  have hfirst := (((((Lts.Run.start.next (situ_load 1 1 _)).next (situ_declined _ _)).next
    hgate).next hup).next hdown).next (Step.finish rfl)
  have hrun := (((hfirst.next hdrop).next (situ_load 2 2 _)).next (situ_declined _ _)).next hstale
  refine ⟨_, _, _, _, hrun, List.mem_concat_self, fun b _ h => ?_⟩
  have hg : (1 : Nat) = 2 := congrArg DeviceTensor.gscale h
  exact absurd hg (by decide)

/-- The same expert in MXFP4. -/
def mxfp4Expert : Expert :=
  ⟨{ nvfp4Row 100 1 56 1 with fmtCode := 6 }, { nvfp4Row 102 1 56 1 with fmtCode := 6 },
    { nvfp4Row 104 1 56 1 with fmtCode := 6 }⟩

/-- A run that loads an MXFP4 expert. -/
theorem fresh_mxfp4 :
    Fresh situSetup [.load mxfp4Expert] ∧ Unmapped situSetup [.load mxfp4Expert] := by
  have hload : Step situSetup (World.new []) (.load mxfp4Expert)
      ⟨[], [mxfp4Expert.markGpuEligible], none, fun _ => none⟩ := by
    refine Step.load (fun w hw => ?_) fun w _ a _ h => by cases h
    rcases mem_tensors.mp hw with rfl | rfl | rfl <;> rfl
  refine (resident_fresh_iff (fun _ h => absurd h List.not_mem_nil)
    (Lts.Run.start.next hload)).mpr fun _ ex hex w hw => ?_
  rw [List.nil_append, List.mem_singleton, Label.load.injEq] at hex
  rw [hex] at hw
  have hfmt : w.fmtCode = 6 := by rcases mem_tensors.mp hw with rfl | rfl | rfl <;> rfl
  rw [Leaks, hfmt]
  decide

end Colibri.Gpu
