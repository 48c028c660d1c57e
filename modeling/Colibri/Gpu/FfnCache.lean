import Colibri.Lib.Runs
import Colibri.Moe.Grouped

/-!
# The weights a device has copies of

Where a device cannot read the memory of the host, `try_expert_ffn` has copies made of the
three weights of an expert, and they stay: `GpuFfnCache` keeps them under the addresses of
the weights, up to a budget. The three functions that run the attention core on the device
keep `kv_b` in the same cache. A copy that is evicted is freed, and the kernel is given bare
handles. So all weights of an expert are protected while any of them is uploaded; an attention
has only one weight, and protects nothing.

* `EvictTo.spec`: an eviction never takes off more bytes than there are. It ends within its
  budget, or with nothing left but what is protected.
* `UploadFfn.spec`: the handle of an upload is that of a copy which is there.
* `served`: in every run of operations no copy is lost or freed twice, the bytes add up, a
  handle a kernel gets is that of a copy which is there, and what is evicted was never used
  more often than what could have been evicted in its place. The budget is exceeded by `x`
  bytes at most, or by the weights of one single operation.

`x` bounds how far the size of a copy is above the estimate that room is made for:
`deviceBytes_le` and `deviceBytes_eq` say by how much it can be.

The map keeps no order, so between entries of one score any may go. Sums of bytes are taken
to fit a `u64`; a difference below zero is a panic.
-/

namespace Colibri.Gpu.Ffn

open Moe.Grouped (tensorBytes)

/-! ## Sizes and scores -/

def weightPtr (w : QTensor) : Nat :=
  if w.fmtCode = 0 then w.qf.addr else if w.fmtCode = 1 then w.q8.addr else w.q4.addr

/-- `row_bytes`, on the device. -/
def rowBytes (fmt : Int) (i : Nat) : Nat :=
  if fmt = 0 then i * 4
  else if fmt = 1 then i
  else if fmt = 2 then i * 2
  else if fmt = 3 then (i + 3) / 4
  else if fmt = 4 then i
  else if fmt = 5 then (i + 1) / 2
  else if fmt = 6 then (i + 1) / 2
  else 0

/-- `coli_cuda_tensor_bytes` -/
def deviceBytes (w : QTensor) : Nat :=
  rowBytes w.fmtCode w.i * w.o + if w.fmtCode = 0 then 0 else w.o * 4

def lfruScore (heat last clock : Nat) : Nat :=
  let age := (clock + 2 ^ 32 - last) % 2 ^ 32
  let recent := if age < 255 then 255 - age else 0
  heat <<< 8 ||| recent

/-- The device counts row scales for every format but 0, and the host where there are any. -/
theorem deviceBytes_le (w : QTensor) : deviceBytes w ≤ tensorBytes w + w.o * 4 := by
  have hcodes : rowBytes w.fmtCode w.i * w.o ≤ tensorBytes w := by
    have hfloat : w.i * 4 * w.o = w.o * w.i * 4 := by ring
    have hbf16 : w.i * 2 * w.o = w.o * w.i * 2 := by ring
    have hcomm : ∀ n, n * w.o = w.o * n := fun n => Nat.mul_comm n w.o
    unfold rowBytes tensorBytes
    split_ifs
    · rw [hfloat]
    · rw [hcomm]
      omega
    · rw [hbf16]
    all_goals
      rw [hcomm]
      omega
  refine Nat.add_le_add hcodes ?_
  split <;> omega

theorem deviceBytes_eq {w : QTensor} (h : w.fmtCode = 0 ∨ hasRowScale w.fmtCode = true) :
    deviceBytes w = tensorBytes w := by
  have hformat : w.fmtCode = 0 ∨ w.fmtCode = 1 ∨ w.fmtCode = 3 ∨ w.fmtCode = 4 := by
    simpa [hasRowScale, or_assoc] using h
  unfold deviceBytes rowBytes tensorBytes
  rcases hformat with h | h | h | h <;> rw [h] <;> simp [Nat.mul_comm, Nat.mul_assoc]

/-! ## The cache -/

/-- A copy, by its handle. -/
structure GpuEntry where
  tensor : Nat
  bytes : Nat
  heat : Nat
  last : Nat
  deriving DecidableEq

structure GpuFfnCache where
  entries : List (Nat × GpuEntry)
  bytes : Nat
  budget : Nat
  clock : Nat
  evictions : Nat
  /-- the handles of the device that have not been freed -/
  live : List Nat

def GpuFfnCache.new (budget : Nat) : GpuFfnCache := ⟨[], 0, budget, 0, 0, []⟩

namespace GpuFfnCache

variable (s : GpuFfnCache)

def keys : List Nat := s.entries.map Prod.fst

def score (e : GpuEntry) : Nat := lfruScore e.heat e.last s.clock

def tick : GpuFfnCache := { s with clock := (s.clock + 1) % 2 ^ 32 }

/-- An entry off the map, and its copy freed. -/
def remove (kv : Nat × GpuEntry) : GpuFfnCache :=
  { s with
    entries := s.entries.filter fun x => x.1 ≠ kv.1
    bytes := s.bytes - kv.2.bytes
    evictions := s.evictions + 1
    live := s.live.erase kv.2.tensor }

/-- One use more. -/
def touch (key : Nat) : GpuFfnCache :=
  { s with
    entries := s.entries.map fun kv =>
      if kv.1 = key then
        (kv.1, { kv.2 with heat := min (kv.2.heat + 1) (2 ^ 32 - 1), last := s.clock })
      else kv }

def insert (key h b : Nat) : GpuFfnCache :=
  { s with
    entries := (key, ⟨h, b, 1, s.clock⟩) :: s.entries
    bytes := s.bytes + b
    live := h :: s.live }

end GpuFfnCache

/-- `evict_to`: what is evicted, and the cache afterwards; none is a panic. -/
inductive EvictTo (budget : Nat) (protect : List Nat) :
    GpuFfnCache → List (Nat × GpuEntry) → Option GpuFfnCache → Prop
  | fits {s : GpuFfnCache} : s.bytes ≤ budget → EvictTo budget protect s [] (some s)
  | stuck {s : GpuFfnCache} : budget < s.bytes → (∀ kv ∈ s.entries, kv.1 ∈ protect) →
    EvictTo budget protect s [] (some s)
  | underflow {s : GpuFfnCache} {kv : Nat × GpuEntry} : budget < s.bytes → kv ∈ s.entries →
    kv.1 ∉ protect → s.bytes < kv.2.bytes → EvictTo budget protect s [kv] none
  | evict {s : GpuFfnCache} {kv : Nat × GpuEntry} {removed : List (Nat × GpuEntry)}
      {t : Option GpuFfnCache} : budget < s.bytes → kv ∈ s.entries → kv.1 ∉ protect →
    (∀ other ∈ s.entries, other.1 ∉ protect → s.score kv.2 ≤ s.score other.2) →
    kv.2.bytes ≤ s.bytes → EvictTo budget protect (s.remove kv) removed t →
    EvictTo budget protect s (kv :: removed) t

/-- `upload_ffn`: what is evicted for a weight, its handle, and the cache afterwards. -/
inductive UploadFfn (protect : List Nat) (s : GpuFfnCache) (w : QTensor) :
    List (Nat × GpuEntry) → Option Nat → Option GpuFfnCache → Prop
  | hit {e : GpuEntry} : s.entries.lookup (weightPtr w) = some e →
    UploadFfn protect s w [] (some e.tensor) (some (s.tick.touch (weightPtr w)))
  | panicked {removed : List (Nat × GpuEntry)} : s.entries.lookup (weightPtr w) = none →
    EvictTo (s.budget - tensorBytes w) protect s.tick removed none →
    UploadFfn protect s w removed none none
  /-- the device has no room, or will not have the weight -/
  | refused {removed : List (Nat × GpuEntry)} {s' : GpuFfnCache} :
    s.entries.lookup (weightPtr w) = none →
    EvictTo (s.budget - tensorBytes w) protect s.tick removed (some s') →
    UploadFfn protect s w removed none (some s')
  | made {removed : List (Nat × GpuEntry)} {s' : GpuFfnCache} {h : Nat} :
    s.entries.lookup (weightPtr w) = none →
    EvictTo (s.budget - tensorBytes w) protect s.tick removed (some s') →
    0 < rowBytes w.fmtCode w.i → 0 < w.o → h ∉ s'.live →
    UploadFfn protect s w removed (some h) (some (s'.insert (weightPtr w) h (deviceBytes w)))

/-- The uploads of an operation, one after the other, whatever comes of the first. -/
inductive Uploads (protect : List Nat) : GpuFfnCache → List QTensor →
    List (Nat × GpuEntry) → List (Option Nat) → Option GpuFfnCache → Prop
  | done {s : GpuFfnCache} : Uploads protect s [] [] [] (some s)
  | panicked {s : GpuFfnCache} {w : QTensor} {ws : List QTensor} {removed : List (Nat × GpuEntry)} :
    UploadFfn protect s w removed none none → Uploads protect s (w :: ws) removed [] none
  | next {s s' : GpuFfnCache} {w : QTensor} {ws : List QTensor} {first rest : List (Nat × GpuEntry)}
      {h : Option Nat} {hs : List (Option Nat)} {t : Option GpuFfnCache} :
    UploadFfn protect s w first h (some s') → Uploads protect s' ws rest hs t →
    Uploads protect s (w :: ws) (first ++ rest) (h :: hs) t

/-- What copies are made for: `try_expert_ffn` without zero-copy, and the three functions that
absorb `kv_b` in an attention. `fits` is what else those check before they upload it. -/
inductive Op
  | expert (ex : Expert)
  | attention (kvB : QTensor) (fits : Bool)

def Op.tensors : Op → List QTensor
  | .expert ex => ex.tensors
  | .attention kvB _ => [kvB]

/-- The addresses that are protected. -/
def Op.protect : Op → List Nat
  | .expert ex => ex.tensors.map weightPtr
  | .attention _ _ => []

/-- Whether copies are made. -/
def Op.copies : Op → Bool
  | .expert ex =>
    ex.gate.gpuEligible && ex.up.gpuEligible && ex.down.gpuEligible && ex.gate.fmtCode ≠ 5
  | .attention kvB fits => kvB.gpuEligible && fits

/-- A call for an operation: what it evicts, and the handles it gets. -/
structure Call where
  op : Op
  removed : List (Nat × GpuEntry)
  handles : List (Option Nat)

/-- The addresses of the operation's own weights. -/
def Call.keys (c : Call) : List Nat := c.op.tensors.map weightPtr

/-- A call, one that uploads or one that leaves the work to the host. -/
inductive Calls : Option GpuFfnCache → Call → Option GpuFfnCache → Prop
  | declined {s : GpuFfnCache} {op : Op} : op.copies = false →
    Calls (some s) ⟨op, [], []⟩ (some s)
  | copied {s : GpuFfnCache} {c : Call} {t : Option GpuFfnCache} : c.op.copies = true →
    Uploads c.op.protect s c.op.tensors c.removed c.handles t → Calls (some s) c t

theorem Call.protect_subset (c : Call) : c.op.protect ⊆ c.keys := by
  unfold Call.keys
  cases c.op with
  | expert ex => exact List.Subset.refl _
  | attention kvB fits => exact List.nil_subset _

/-! ## The invariant -/

/-- No copy is lost or freed twice, and the bytes are those of the entries. -/
structure Sound (s : GpuFfnCache) : Prop where
  nodup : s.keys.Nodup
  bytes_eq : s.bytes = (s.entries.map fun kv => kv.2.bytes).sum
  filled : ∀ kv ∈ s.entries, 0 < kv.2.bytes
  live : s.live.Perm (s.entries.map fun kv => kv.2.tensor)
  fresh : s.live.Nodup

/-- Within the budget but for `x`, or down to what one of these calls is about. -/
def Within (x : Nat) (calls : List Call) (s : GpuFfnCache) : Prop :=
  s.bytes ≤ s.budget + x ∨ ∃ c ∈ calls, ∀ kv ∈ s.entries, kv.1 ∈ c.keys

/-- The handle of a weight is that of a copy which is there. -/
def Holds (s : GpuFfnCache) (w : QTensor) (h : Nat) : Prop :=
  h ∈ s.live ∧ ∃ e, (weightPtr w, e) ∈ s.entries ∧ e.tensor = h

/-- What went was no hotter than what could have gone and stayed; `keys` are those of the
operation. -/
def Coldest (keys : List Nat) (removed : List (Nat × GpuEntry)) (s : GpuFfnCache) : Prop :=
  ∀ v ∈ removed, v.1 ∉ keys ∧ ∀ u ∈ s.entries, u.1 ∉ keys → v.2.heat ≤ u.2.heat

variable {s s' : GpuFfnCache} {budget : Nat} {protect : List Nat} {w : QTensor}
  {removed : List (Nat × GpuEntry)} {t : Option GpuFfnCache}

theorem Sound.new (budget : Nat) : Sound (.new budget) :=
  ⟨List.nodup_nil, rfl, fun _ h => absurd h List.not_mem_nil, .nil, List.nodup_nil⟩

theorem Sound.tick (h : Sound s) : Sound s.tick := ⟨h.nodup, h.bytes_eq, h.filled, h.live, h.fresh⟩

theorem Sound.bytes_le (h : Sound s) {kv : Nat × GpuEntry} (hkv : kv ∈ s.entries) :
    kv.2.bytes ≤ s.bytes := by
  rw [h.bytes_eq]
  exact List.single_le_sum (fun _ _ => Nat.zero_le _) _ (List.mem_map.mpr ⟨kv, hkv, rfl⟩)

theorem Sound.entries_nil (h : Sound s) (hzero : s.bytes ≤ 0) : s.entries = [] := by
  refine List.eq_nil_iff_forall_not_mem.mpr fun kv hkv => ?_
  have hpos := h.filled kv hkv
  have hle := h.bytes_le hkv
  omega

theorem mem_of_lookup {l : List (Nat × GpuEntry)} {k : Nat} {e : GpuEntry}
    (h : l.lookup k = some e) : (k, e) ∈ l := by
  obtain ⟨l₁, l₂, rfl, -⟩ := List.lookup_eq_some_iff.mp h
  exact List.mem_append_right _ (List.mem_cons_self ..)

theorem not_mem_keys_of_lookup (h : s.entries.lookup (weightPtr w) = none) :
    weightPtr w ∉ s.keys := by
  intro hmem
  obtain ⟨kv, hkv, hkey⟩ := List.mem_map.mp hmem
  have hne := List.lookup_eq_none_iff.mp h kv hkv
  rw [hkey, bne_self_eq_false] at hne
  cases hne

/-! ## Eviction -/

/-- Of a map one entry is taken off. -/
theorem perm_remove {l : List (Nat × GpuEntry)} (hnd : (l.map Prod.fst).Nodup)
    {kv : Nat × GpuEntry} (hkv : kv ∈ l) : l.Perm (kv :: l.filter fun x => x.1 ≠ kv.1) := by
  induction l with
  | nil => cases hkv
  | cons a l ih =>
    rw [List.map_cons, List.nodup_cons] at hnd
    rcases List.mem_cons.mp hkv with rfl | hmem
    · rw [List.filter_cons_of_neg (by simp), List.filter_eq_self.mpr fun x hx => ?_]
      rw [decide_eq_true_eq]
      exact fun heq => hnd.1 (List.mem_map.mpr ⟨x, hx, heq⟩)
    · have hne : a.1 ≠ kv.1 := fun heq => hnd.1 (List.mem_map.mpr ⟨kv, hmem, heq.symm⟩)
      rw [List.filter_cons_of_pos (by simpa using hne)]
      exact ((ih hnd.2 hmem).cons a).trans (.swap ..)

theorem Sound.remove (h : Sound s) {kv : Nat × GpuEntry} (hkv : kv ∈ s.entries) :
    Sound (s.remove kv) := by
  have hperm := perm_remove h.nodup hkv
  have hlive := h.live.trans (hperm.map fun kv => kv.2.tensor)
  refine ⟨h.nodup.sublist (List.filter_sublist.map _), ?_,
    fun x hx => h.filled x (List.mem_of_mem_filter hx), ?_, h.fresh.erase _⟩
  · show s.bytes - kv.2.bytes = _
    rw [h.bytes_eq, (hperm.map fun kv => kv.2.bytes).sum_eq, List.map_cons, List.sum_cons]
    exact Nat.add_sub_cancel_left ..
  · have herase := hlive.erase kv.2.tensor
    rwa [List.map_cons, List.erase_cons_head] at herase

/-- The heat leads the score: what is left of it is below one use. -/
theorem lfruScore_eq (heat last clock : Nat) :
    ∃ r < 256, lfruScore heat last clock = heat * 256 + r := by
  refine ⟨if (clock + 2 ^ 32 - last) % 2 ^ 32 < 255 then
    255 - (clock + 2 ^ 32 - last) % 2 ^ 32 else 0, ?_, ?_⟩
  · split <;> omega
  · rw [lfruScore, ← Nat.shiftLeft_add_eq_or_of_lt, Nat.shiftLeft_eq]
    split <;> omega

theorem heat_le_of_score_le {a b : GpuEntry} (h : s.score a ≤ s.score b) : a.heat ≤ b.heat := by
  obtain ⟨r, hr, ha⟩ := lfruScore_eq a.heat a.last s.clock
  obtain ⟨q, hq, hb⟩ := lfruScore_eq b.heat b.last s.clock
  rw [GpuFfnCache.score, GpuFfnCache.score, ha, hb] at h
  omega

/-- What `evict_to` comes to. -/
structure Evicted (budget : Nat) (protect : List Nat) (s : GpuFfnCache)
    (removed : List (Nat × GpuEntry)) (s' : GpuFfnCache) : Prop where
  sound : Sound s'
  budget_eq : s'.budget = s.budget
  subset : s'.entries ⊆ s.entries
  taken : removed ⊆ s.entries
  spares : ∀ kv ∈ s.entries, kv.1 ∈ protect → kv ∈ s'.entries
  fits : s'.bytes ≤ budget ∨ ∀ kv ∈ s'.entries, kv.1 ∈ protect
  coldest : Coldest protect removed s'

/-- `evict_to` does not panic, and ends within its budget or with what is protected. -/
theorem EvictTo.spec (hev : EvictTo budget protect s removed t) (h : Sound s) :
    ∃ s', t = some s' ∧ Evicted budget protect s removed s' := by
  induction hev with
  | fits hfits =>
    exact ⟨_, rfl, h, rfl, List.Subset.refl _, List.nil_subset _, fun _ hkv _ => hkv, .inl hfits,
      fun _ hv => absurd hv List.not_mem_nil⟩
  | stuck _ hstuck =>
    exact ⟨_, rfl, h, rfl, List.Subset.refl _, List.nil_subset _, fun _ hkv _ => hkv, .inr hstuck,
      fun _ hv => absurd hv List.not_mem_nil⟩
  | underflow _ hkv _ hlt => exact absurd (h.bytes_le hkv) (Nat.not_le.mpr hlt)
  | @evict s kv removed t hover hkv hfree hleast _ _ ih =>
    obtain ⟨s', rfl, hs'⟩ := ih (h.remove hkv)
    have hsub : s'.entries ⊆ s.entries := fun _ hu => List.mem_of_mem_filter (hs'.subset hu)
    have htaken : kv :: removed ⊆ s.entries :=
      List.cons_subset.mpr ⟨hkv, fun _ hv => List.mem_of_mem_filter (hs'.taken hv)⟩
    refine ⟨s', rfl, hs'.sound, hs'.budget_eq, hsub, htaken, fun u hu hprot => ?_, hs'.fits,
      fun v hv => ?_⟩
    · refine hs'.spares u (List.mem_filter.mpr ⟨hu, decide_eq_true ?_⟩) hprot
      exact fun heq => hfree (heq ▸ hprot)
    · rcases List.mem_cons.mp hv with rfl | hv
      · exact ⟨hfree, fun u hu hfreeu => heat_le_of_score_le (hleast u (hsub hu) hfreeu)⟩
      · exact hs'.coldest v hv

/-! ## Uploads -/

theorem Sound.holds (h : Sound s) {e : GpuEntry} (he : (weightPtr w, e) ∈ s.entries) :
    Holds s w e.tensor :=
  ⟨h.live.mem_iff.mpr (List.mem_map.mpr ⟨_, he, rfl⟩), e, he, rfl⟩

/-- One use more changes neither keys nor sizes nor handles. -/
theorem map_touch {β : Type} (key : Nat) (f : Nat × GpuEntry → β)
    (hf : ∀ k e heat last, f (k, { e with heat, last }) = f (k, e)) :
    (s.touch key).entries.map f = s.entries.map f := by
  rw [GpuFfnCache.touch, List.map_map]
  refine List.map_congr_left fun kv _ => ?_
  rw [Function.comp_apply]
  split
  next => exact hf kv.1 kv.2 _ _
  next => rfl

theorem Sound.touch (h : Sound s) (key : Nat) : Sound (s.touch key) := by
  refine ⟨?_, ?_, fun kv hkv => ?_, ?_, h.fresh⟩
  · rw [GpuFfnCache.keys, map_touch key _ fun _ _ _ _ => rfl]
    exact h.nodup
  · rw [map_touch key (fun kv => kv.2.bytes) fun _ _ _ _ => rfl]
    exact h.bytes_eq
  · obtain ⟨x, hx, rfl⟩ := List.mem_map.mp hkv
    have hpos := h.filled x hx
    split
    next => exact hpos
    next => exact hpos
  · rw [map_touch key (fun kv => kv.2.tensor) fun _ _ _ _ => rfl]
    exact h.live

theorem Sound.insert (h : Sound s) {key g b : Nat} (hkey : key ∉ s.keys) (hg : g ∉ s.live)
    (hb : 0 < b) : Sound (s.insert key g b) := by
  refine ⟨List.nodup_cons.mpr ⟨hkey, h.nodup⟩, ?_, fun kv hkv => ?_, h.live.cons g,
    List.nodup_cons.mpr ⟨hg, h.fresh⟩⟩
  · exact (Nat.add_comm ..).trans (congrArg (b + ·) h.bytes_eq)
  · rcases List.mem_cons.mp hkv with rfl | hkv
    · exact hb
    · exact h.filled kv hkv

theorem Holds.touch {g : Nat} (h : Holds s w g) (key : Nat) : Holds (s.touch key) w g := by
  obtain ⟨hlive, e, he, htensor⟩ := h
  have hmem : (weightPtr w, g) ∈ s.entries.map fun kv => (kv.1, kv.2.tensor) :=
    List.mem_map.mpr ⟨_, he, by rw [htensor]⟩
  rw [← map_touch key (fun kv => (kv.1, kv.2.tensor)) fun _ _ _ _ => rfl] at hmem
  obtain ⟨⟨k, e'⟩, he', heq⟩ := List.mem_map.mp hmem
  cases heq
  exact ⟨hlive, e', he', rfl⟩

variable {x : Nat} {calls : List Call} {c : Call}

theorem Within.mono {calls' : List Call} (h : Within x calls s) (hsub : calls ⊆ calls') :
    Within x calls' s := by
  rcases h with h | ⟨c, hc, hkeys⟩
  · exact .inl h
  · exact .inr ⟨c, hsub hc, hkeys⟩

theorem Within.touch (h : Within x calls s) (key : Nat) : Within x calls (s.touch key) := by
  rcases h with h | ⟨c, hc, hkeys⟩
  · exact .inl h
  · refine .inr ⟨c, hc, fun kv hkv => ?_⟩
    obtain ⟨y, hy, rfl⟩ := List.mem_map.mp hkv
    have := hkeys y hy
    split
    next => exact this
    next => exact this

theorem Evicted.within {b : Nat} (h : Evicted (s.budget - b) c.op.protect s removed s')
    (hc : c ∈ calls) :
    Within x calls s' := by
  rcases h.fits with hfits | hprot
  · left
    have := h.budget_eq
    omega
  · exact .inr ⟨c, hc, fun kv hkv => c.protect_subset (hprot kv hkv)⟩

/-- Room was made for `b` bytes. Where the budget has none, nothing else is left. -/
theorem Evicted.within_insert {b key g b' : Nat}
    (h : Evicted (s.budget - b) c.op.protect s removed s') (hc : c ∈ calls) (hkey : key ∈ c.keys)
    (hb : b' ≤ b + x) : Within x calls (s'.insert key g b') := by
  have hbudget := h.budget_eq
  rcases h.fits with hfits | hprot
  · rcases Nat.le_total b s.budget with hle | hle
    · left
      show s'.bytes + b' ≤ s'.budget + x
      omega
    · right
      have hnil := h.sound.entries_nil (by omega)
      refine ⟨c, hc, fun kv hkv => ?_⟩
      rcases List.mem_cons.mp hkv with rfl | hkv
      · exact hkey
      · rw [hnil] at hkv
        cases hkv
  · refine .inr ⟨c, hc, fun kv hkv => ?_⟩
    rcases List.mem_cons.mp hkv with rfl | hkv
    · exact hkey
    · exact c.protect_subset (hprot kv hkv)

/-- What an upload for a call comes to. -/
structure Uploaded (x : Nat) (calls : List Call) (c : Call) (s : GpuFfnCache)
    (removed : List (Nat × GpuEntry)) (s' : GpuFfnCache) : Prop where
  sound : Sound s'
  budget_eq : s'.budget = s.budget
  within : Within x calls s → Within x calls s'
  keeps : ∀ w g, weightPtr w ∈ c.op.protect → Holds s w g → Holds s' w g
  others : ∀ kv ∈ s'.entries, kv.1 ∉ c.keys → kv ∈ s.entries
  coldest : Coldest c.keys removed s'

theorem Coldest.mono {keys : List Nat} (h : Coldest keys removed s)
    (hothers : ∀ kv ∈ s'.entries, kv.1 ∉ keys → kv ∈ s.entries) :
    Coldest keys removed s' :=
  fun v hv => ⟨(h v hv).1, fun u hu hfree => (h v hv).2 u (hothers u hu hfree) hfree⟩

theorem Sound.uploaded_hit (h : Sound s) (hw : weightPtr w ∈ c.keys) :
    Uploaded x calls c s [] (s.tick.touch (weightPtr w)) where
  sound := h.tick.touch _
  budget_eq := rfl
  within := fun hin => Within.touch (s := s.tick) hin _
  keeps := fun _ _ _ hholds => Holds.touch (s := s.tick) hholds _
  others := by
    intro kv hkv hfree
    obtain ⟨y, hy, rfl⟩ := List.mem_map.mp hkv
    split at hfree
    next heq => exact absurd (heq ▸ hw) hfree
    next hne =>
      rw [if_neg hne]
      exact hy
  coldest := fun _ hv => absurd hv List.not_mem_nil

/-- An eviction for a weight that is not there: it takes off neither what is protected nor the
weight itself. -/
theorem Evicted.uploaded {b : Nat} (h : Evicted (s.budget - b) c.op.protect s.tick removed s')
    (hc : c ∈ calls) (hmiss : weightPtr w ∉ s.keys)
    (hown : ∀ k ∈ c.keys, k ∈ c.op.protect ∨ k = weightPtr w) :
    Uploaded x calls c s removed s' where
  sound := h.sound
  budget_eq := h.budget_eq
  within := fun _ => Evicted.within (s := s.tick) h hc
  keeps := by
    rintro w g hw ⟨-, e, he, rfl⟩
    exact h.sound.holds (h.spares _ he hw)
  others := fun _ hkv _ => h.subset hkv
  coldest := by
    intro v hv
    obtain ⟨hfree, hcold⟩ := h.coldest v hv
    refine ⟨fun hkey => ?_, fun u hu hother => hcold u hu fun hin => hother (c.protect_subset hin)⟩
    rcases hown v.1 hkey with hin | heq
    · exact hfree hin
    · exact hmiss (heq ▸ List.mem_map.mpr ⟨v, h.taken hv, rfl⟩)

/-- `upload_ffn` does not panic, and its handle is that of a copy which is there. -/
theorem UploadFfn.spec {h : Option Nat} (hup : UploadFfn c.op.protect s w removed h t)
    (hs : Sound s) (hc : c ∈ calls) (hw : weightPtr w ∈ c.keys)
    (hown : ∀ k ∈ c.keys, k ∈ c.op.protect ∨ k = weightPtr w)
    (hx : deviceBytes w ≤ tensorBytes w + x) :
    ∃ s', t = some s' ∧ Uploaded x calls c s removed s' ∧ ∀ g, h = some g → Holds s' w g := by
  cases hup with
  | @hit e hget =>
    refine ⟨_, rfl, hs.uploaded_hit hw, ?_⟩
    rintro g ⟨⟩
    exact (hs.tick.holds (mem_of_lookup hget)).touch _
  | panicked hget hev =>
    obtain ⟨s', hcrash, -⟩ := hev.spec hs.tick
    cases hcrash
  | @refused removed s' hget hev =>
    obtain ⟨_, heq, hevicted⟩ := hev.spec hs.tick
    cases heq
    refine ⟨s', rfl, hevicted.uploaded hc (not_mem_keys_of_lookup hget) hown, ?_⟩
    intro g hg
    cases hg
  | @made removed s' g hget hev hrow ho hg =>
    obtain ⟨_, heq, hevicted⟩ := hev.spec hs.tick
    cases heq
    have hkey : weightPtr w ∉ s'.keys := by
      intro hmem
      obtain ⟨kv, hkv, hkey⟩ := List.mem_map.mp hmem
      exact not_mem_keys_of_lookup hget (List.mem_map.mpr ⟨kv, hevicted.subset hkv, hkey⟩)
    have hb : 0 < deviceBytes w := Nat.lt_of_lt_of_le (Nat.mul_pos hrow ho) (Nat.le_add_right _ _)
    have hsound := hevicted.sound.insert hkey hg hb
    have hkept := hevicted.uploaded (x := x) hc (not_mem_keys_of_lookup hget) hown
    refine ⟨_, rfl, ⟨hsound, hkept.budget_eq, fun _ => Evicted.within_insert (s := s.tick) hevicted
      hc hw hx, ?_, ?_, ?_⟩, ?_⟩
    · intro w' g' hw' hholds
      obtain ⟨hlive, e, he, htensor⟩ := hkept.keeps w' g' hw' hholds
      exact ⟨List.mem_cons_of_mem _ hlive, e, List.mem_cons_of_mem _ he, htensor⟩
    · intro kv hkv hfree
      rcases List.mem_cons.mp hkv with rfl | hkv
      · exact absurd hw hfree
      · exact hkept.others kv hkv hfree
    · refine fun v hv => ⟨(hkept.coldest v hv).1, fun u hu hfree => ?_⟩
      rcases List.mem_cons.mp hu with rfl | hu
      · exact absurd hw hfree
      · exact (hkept.coldest v hv).2 u hu hfree
    · intro g' hg'
      cases hg'
      exact ⟨List.mem_cons_self .., _, List.mem_cons_self .., rfl⟩

/-! ## Operations -/

/-- What the uploads of a call come to. -/
def Handles (ws : List QTensor) (hs : List (Option Nat)) (s : GpuFfnCache) : Prop :=
  hs.length = ws.length ∧ ∀ p ∈ ws.zip hs, ∀ g, p.2 = some g → Holds s p.1 g

/-- Nothing is uploaded. -/
theorem Sound.uploaded_nil (h : Sound s) : Uploaded x calls c s [] s where
  sound := h
  budget_eq := rfl
  within := id
  keeps := fun _ _ _ hholds => hholds
  others := fun _ hkv _ => hkv
  coldest := fun _ hv => absurd hv List.not_mem_nil

/-- One upload and then others. -/
theorem Uploaded.trans {first rest : List (Nat × GpuEntry)} {s₁ s₂ : GpuFfnCache}
    (hone : Uploaded x calls c s first s₁) (hmore : Uploaded x calls c s₁ rest s₂) :
    Uploaded x calls c s (first ++ rest) s₂ where
  sound := hmore.sound
  budget_eq := hmore.budget_eq.trans hone.budget_eq
  within := fun hin => hmore.within (hone.within hin)
  keeps := fun w g hw hh => hmore.keeps w g hw (hone.keeps w g hw hh)
  others := fun kv hkv hfree => hone.others kv (hmore.others kv hkv hfree) hfree
  coldest := by
    intro v hv
    rcases List.mem_append.mp hv with hv | hv
    · exact hone.coldest.mono hmore.others v hv
    · exact hmore.coldest v hv

/-- What protected weights come to, one after the other. -/
theorem Uploads.spec {ws : List QTensor} {hs : List (Option Nat)}
    (hup : Uploads c.op.protect s ws removed hs t) (h : Sound s) (hc : c ∈ calls)
    (hown : c.keys ⊆ c.op.protect) (hws : ∀ w ∈ ws, weightPtr w ∈ c.keys)
    (hx : ∀ w ∈ ws, deviceBytes w ≤ tensorBytes w + x) :
    ∃ s', t = some s' ∧ Uploaded x calls c s removed s' ∧ Handles ws hs s' := by
  induction hup with
  | done =>
    exact ⟨_, rfl, h.uploaded_nil, rfl, fun _ hp => absurd hp List.not_mem_nil⟩
  | panicked hfirst =>
    obtain ⟨s', hcrash, -⟩ := hfirst.spec h hc (hws _ (List.mem_cons_self ..))
      (fun _ hk => .inl (hown hk)) (hx _ (List.mem_cons_self ..))
    cases hcrash
  | @next s s₁ w ws first rest g hs t hfirst _ ih =>
    obtain ⟨_, heq, hone, hgot⟩ := hfirst.spec h hc (hws _ (List.mem_cons_self ..))
      (fun _ hk => .inl (hown hk)) (hx _ (List.mem_cons_self ..))
    cases heq
    obtain ⟨s₂, rfl, hmore, hlen, hzip⟩ := ih hone.sound
      (fun w hw => hws w (List.mem_cons_of_mem _ hw)) fun w hw => hx w (List.mem_cons_of_mem _ hw)
    refine ⟨s₂, rfl, hone.trans hmore, ?_, ?_⟩
    · rw [List.length_cons, List.length_cons, hlen]
    · intro p hp g' hg'
      rw [List.zip_cons_cons] at hp
      rcases List.mem_cons.mp hp with rfl | hp
      -- what the first got is protected from the others
      · exact hmore.keeps _ _ (hown (hws _ (List.mem_cons_self ..))) (hgot g' hg')
      · exact hzip p hp g' hg'

/-- What a single weight comes to, which nothing is uploaded after. -/
theorem Uploads.spec_one {hs : List (Option Nat)} (hup : Uploads c.op.protect s [w] removed hs t)
    (h : Sound s) (hc : c ∈ calls) (hown : c.keys = [weightPtr w])
    (hx : deviceBytes w ≤ tensorBytes w + x) :
    ∃ s', t = some s' ∧ Uploaded x calls c s removed s' ∧ Handles [w] hs s' := by
  have hw : weightPtr w ∈ c.keys := hown ▸ List.mem_singleton_self _
  have hkeys : ∀ k ∈ c.keys, k ∈ c.op.protect ∨ k = weightPtr w :=
    fun k hk => .inr (List.mem_singleton.mp (hown ▸ hk))
  cases hup with
  | panicked hfirst =>
    obtain ⟨s', hcrash, -⟩ := hfirst.spec h hc hw hkeys hx
    cases hcrash
  | next hfirst hrest =>
    obtain ⟨_, heq, hone, hgot⟩ := hfirst.spec h hc hw hkeys hx
    cases heq
    cases hrest
    refine ⟨_, rfl, hone.trans hone.sound.uploaded_nil, rfl, fun p hp g hg => ?_⟩
    obtain rfl := List.mem_singleton.mp hp
    exact hgot g hg

/-- What a call comes to: a handle for each weight or none, each of them of a copy that is
there when the kernel starts, and nothing evicted that was hotter than what it could have
been. -/
structure Served (c : Call) (s' : GpuFfnCache) : Prop where
  answered : c.op.copies = true → c.handles.length = c.op.tensors.length
  holds : ∀ p ∈ c.op.tensors.zip c.handles, ∀ g, p.2 = some g → Holds s' p.1 g
  coldest : Coldest c.keys c.removed s'

/-- One call. -/
theorem Calls.spec (hcall : Calls (some s) c t) (h : Sound s) (hin : Within x calls s)
    (hx : ∀ w ∈ c.op.tensors, deviceBytes w ≤ tensorBytes w + x) :
    ∃ s', t = some s' ∧ Sound s' ∧ s'.budget = s.budget ∧ Within x (calls ++ [c]) s' ∧
      Served c s' := by
  have hin' : Within x (calls ++ [c]) s := hin.mono (List.subset_append_left _ _)
  have hc : c ∈ calls ++ [c] := List.mem_append_right calls (List.mem_singleton_self c)
  cases hcall with
  | declined hno =>
    refine ⟨s, rfl, h, rfl, hin', ⟨fun hyes => absurd hyes (by simp [hno]), ?_, ?_⟩⟩
    · intro p hp
      rw [List.zip_nil_right] at hp
      cases hp
    · exact fun _ hv => absurd hv List.not_mem_nil
  | copied _ hup =>
    obtain ⟨op, removed, handles⟩ := c
    have hspec : ∃ s', t = some s' ∧ Uploaded x (calls ++ [⟨op, removed, handles⟩])
        ⟨op, removed, handles⟩ s removed s' ∧ Handles op.tensors handles s' := by
      cases op with
      | expert ex =>
        exact hup.spec h hc (List.Subset.refl _) (fun w hw => List.mem_map.mpr ⟨w, hw, rfl⟩) hx
      | attention kvB fits => exact hup.spec_one h hc rfl (hx kvB (List.mem_singleton_self kvB))
    obtain ⟨s', rfl, hdone, hlen, hzip⟩ := hspec
    exact ⟨s', rfl, hdone.sound, hdone.budget_eq, hdone.within hin', fun _ => hlen, hzip,
      hdone.coldest⟩

/-- **The device copies, in every run.** The invariant is carried over the calls by
`Calls.spec`, which holds of the next call as well. -/
theorem served {trace : List Call} (hrun : Lts.Run Calls (some (.new budget)) trace t)
    (hx : ∀ c ∈ trace, ∀ w ∈ c.op.tensors, deviceBytes w ≤ tensorBytes w + x) :
    ∃ s, t = some s ∧ Sound s ∧ s.budget = budget ∧ Within x trace s ∧
      ∀ c t', (∀ w ∈ c.op.tensors, deviceBytes w ≤ tensorBytes w + x) →
        Calls (some s) c t' → ∃ s', t' = some s' ∧ Served c s' := by
  have hinv : ∃ s, t = some s ∧ Sound s ∧ s.budget = budget ∧ Within x trace s := by
    induction hrun with
    | start => exact ⟨_, rfl, .new budget, rfl, .inl (Nat.zero_le _)⟩
    | next _ hcall ih =>
      obtain ⟨s, rfl, hs, hbudget, hin⟩ := ih fun c hc => hx c (List.mem_append_left _ hc)
      obtain ⟨s', rfl, hs', hbudget', hin', -⟩ := hcall.spec hs hin
        (hx _ (List.mem_append_right _ (List.mem_singleton_self _)))
      exact ⟨s', rfl, hs', hbudget'.trans hbudget, hin'⟩
  obtain ⟨s, rfl, hs, hbudget, hin⟩ := hinv
  refine ⟨s, rfl, hs, hbudget, hin, fun c t' hc hcall => ?_⟩
  obtain ⟨s', hs', -, -, -, hserved⟩ := hcall.spec hs hin hc
  exact ⟨s', hs', hserved⟩

def byteRow (addr : Nat) : QTensor :=
  ⟨1, ⟨0, []⟩, ⟨addr, [1, 2, 3, 4]⟩, ⟨0, []⟩, ⟨0, []⟩, ⟨0, []⟩, 0, 1, 4, true⟩

def byteCall : Call :=
  ⟨.expert ⟨byteRow 1, byteRow 2, byteRow 3⟩, [], [some 10, some 11, some 12]⟩

/-- Three copies of eight bytes, where the budget is twenty. -/
def threeCopies : GpuFfnCache :=
  ⟨[(3, ⟨12, 8, 1, 3⟩), (2, ⟨11, 8, 1, 2⟩), (1, ⟨10, 8, 1, 1⟩)], 24, 20, 3, 0, [12, 11, 10]⟩

/-- The weight of an attention: the two oldest copies go. -/
def absorbCall : Call :=
  ⟨.attention (byteRow 4) true, [(1, ⟨10, 8, 1, 1⟩), (2, ⟨11, 8, 1, 2⟩)], [some 13]⟩

def twoCopies : GpuFfnCache :=
  ⟨[(4, ⟨13, 8, 1, 4⟩), (3, ⟨12, 8, 1, 3⟩)], 16, 20, 4, 2, [13, 12]⟩

/-- An expert and an attention, on a device with room for one copy. -/
theorem served_byteCall : Sound twoCopies ∧ Within 0 [byteCall, absorbCall] twoCopies := by
  have hfirst : Lts.Run Calls (some (.new 20)) [byteCall] (some threeCopies) := by
    refine .next .start (.copied rfl (.next (.made rfl (.fits ?_) ?_ ?_ ?_)
      (.next (.made rfl (.fits ?_) ?_ ?_ ?_) (.next (.made rfl (.stuck ?_ ?_) ?_ ?_ ?_) .done))))
    all_goals decide
  have hsecond : Calls (some threeCopies) absorbCall (some twoCopies) := by
    refine .copied rfl (.next (.made rfl (.evict ?_ ?_ ?_ ?_ ?_
      (.evict ?_ ?_ ?_ ?_ ?_ (.fits ?_))) ?_ ?_ ?_) .done)
    all_goals decide
  have hx : ∀ c ∈ [byteCall, absorbCall], ∀ w ∈ c.op.tensors,
      deviceBytes w ≤ tensorBytes w + 0 := by
    intro c hc w hw
    have hint8 : hasRowScale w.fmtCode = true := by
      revert c w
      decide
    exact Nat.le_of_eq (deviceBytes_eq (.inr hint8))
  obtain ⟨s, heq, hs, -, hin, -⟩ := served (hfirst.next hsecond) hx
  cases heq
  exact ⟨hs, hin⟩

end Colibri.Gpu.Ffn
