import Colibri.Lib.Budget
import Colibri.Preload.Repack

/-!
# Loading the shards

`PreloadStore::load` sorts the experts of a manifest into their files, reads every file in a
thread of its own, in the order of the offsets and as far as a budget goes, and puts together
what the threads have. `load_holds` says what comes of a manifest and files that fit each
other: from each shard a front part that fits the budget, at least one expert, and each expert
as it is in its blob.

`Cut` of the library is the loop over a file's experts, and `Holding` says which experts a map has,
each as the blobs give it. `loadShard_cut` is one thread, and the union of the maps is the store.
-/

namespace Colibri.Preload

open Batch Budget Deal
open Safetensors (wadd wadd_eq Exact)

/-! ## Loading -/

/-- `layer_meta`: a later entry of a layer replaces an earlier one. -/
def Manifest.layerMeta (m : Manifest) : AList fun _ : Nat => Int × Nat :=
  m.layers.foldl (fun mp l => mp.insert l.1 l.2) ∅

/-- The bytes of an expert, as `total_bytes` adds them up. -/
def Manifest.size (m : Manifest) (loc : ExpertLoc) : Nat :=
  ((m.layerMeta.lookup loc.layer).map Prod.snd).getD 0

def ExpertLoc.key (loc : ExpertLoc) : Nat × Nat := (loc.layer, loc.eid)

def Manifest.byFile (m : Manifest) : Outcome PreloadError (List (List ExpertLoc)) :=
  m.experts.foldlM
    (fun v e => if e.file < v.length then .ok (v.modify e.file (· ++ [e])) else .panic)
    (List.replicate m.numFiles [])

/-- `sort_by_key(|e| e.offset)` -/
def byOffset (locs : List ExpertLoc) : List ExpertLoc :=
  locs.mergeSort fun a b => a.offset ≤ b.offset

abbrev Experts : Type := AList fun _ : Nat × Nat => Expert

/-- `read_exact_at` of `len` bytes. -/
def readExactAt (file : List UInt8) (off len : Nat) : Outcome PreloadError (List UInt8) :=
  if len = 0 ∨ off + len ≤ file.length then .ok ((file.drop off).take len)
  else .error .unexpectedEof

/-- The loop of a thread. -/
def Manifest.loadLocs (m : Manifest) (file : List UInt8) (budget : Nat) :
    List ExpertLoc → Experts → Nat → Outcome PreloadError Experts
  | [], map, _ => .ok map
  | loc :: locs, map, used =>
    match m.layerMeta.lookup loc.layer with
    | none => .panic
    | some (fmt, ebytes) =>
      if budget < wadd used ebytes ∧ map.entries ≠ [] then .ok map
      else do
        let buf ← readExactAt file loc.offset ebytes
        let ex ← expertFromBlob buf m.hidden m.moeInter fmt
        m.loadLocs file budget locs (map.insert loc.key ex.markGpuEligible) (wadd used ebytes)

/-- A thread. -/
def Manifest.loadShard (m : Manifest) (d : Dir) (budget fi : Nat) (locs : List ExpertLoc) :
    Outcome PreloadError Experts :=
  match d (shardPath fi) with
  | none => .error .noFile
  | some file => m.loadLocs file budget locs ∅ 0

/-- All threads are joined before a result is looked at: a panic comes before any error. -/
def joinAll {α : Type} (results : List (Outcome PreloadError α)) : Outcome PreloadError (List α) :=
  if results.any fun r => match r with
      | .panic => true
      | _ => false
  then .panic
  else results.mapM id

structure PreloadStore where
  experts : Experts

def PreloadStore.load (m : Manifest) (d : Dir) (budget : Nat) :
    Outcome PreloadError PreloadStore := do
  let byFile ← m.byFile
  let results ← joinAll (byFile.mapIdx fun fi locs => m.loadShard d budget fi (byOffset locs))
  -- `extend`: a later entry replaces an earlier one
  return ⟨results.foldl (fun all r => r ∪ all) ∅⟩

def PreloadStore.expert (store : PreloadStore) : Provider := fun layer eid =>
  match store.experts.lookup (layer, eid) with
  | some ex => .ok ex
  | none => .error (.notPreloaded layer eid)

/-! ## What is loaded -/

/-- The experts of a shard in the order they are read in. -/
def Manifest.shard (m : Manifest) (f : Nat) : List ExpertLoc :=
  byOffset (m.experts.filter fun loc => loc.file = f)

/-- The store holds experts of the manifest, each as it should be, and of every shard the
experts in front that fit the budget. -/
structure Manifest.Holds (m : Manifest) (budget : Nat) (ex : Nat → Nat → Expert)
    (store : PreloadStore) : Prop where
  exact : ∀ layer eid e, store.expert layer eid = .ok e →
    (layer, eid) ∈ m.experts.map ExpertLoc.key ∧ e = ex layer eid
  cut : ∀ f < m.numFiles, ∃ kept rest,
    Cut m.size budget 0 True (m.shard f) kept rest ∧
    (∀ loc ∈ kept, store.expert loc.layer loc.eid = .ok (ex loc.layer loc.eid)) ∧
    ∀ loc ∈ rest, store.expert loc.layer loc.eid = .error (.notPreloaded loc.layer loc.eid)

section

variable {m : Manifest} {d : Dir} {ex : Nat → Nat → Expert} {budget : Nat}

/-- The map has the experts of these keys. -/
def Holding (ex : Nat → Nat → Expert) (keys : Set (Nat × Nat)) (map : Experts) : Prop :=
  ∀ k e, map.lookup k = some e ↔ k ∈ keys ∧ e = ex k.1 k.2

theorem holding_empty (ex : Nat → Nat → Expert) : Holding ex ∅ ∅ := by
  intro k e
  rw [AList.lookup_empty]
  simp

variable {keys : Set (Nat × Nat)} {map : Experts}

theorem Holding.insert (h : Holding ex keys map)
    (k : Nat × Nat) : Holding ex (insert k keys) (map.insert k (ex k.1 k.2)) := by
  intro k' e
  by_cases hk : k' = k
  · subst hk
    rw [AList.lookup_insert, Option.some_inj]
    exact ⟨fun he => ⟨Set.mem_insert _ _, he.symm⟩, fun he => he.2.symm⟩
  · rw [AList.lookup_insert_ne hk, h k' e, Set.mem_insert_iff]
    simp only [hk, false_or]

theorem Holding.union {keys' : Set (Nat × Nat)} {map' : Experts}
    (h : Holding ex keys map) (h' : Holding ex keys' map') :
    Holding ex (keys ∪ keys') (map ∪ map') := by
  intro k e
  have hmem : k ∈ map ↔ k ∈ keys := by
    rw [← AList.lookup_isSome, Option.isSome_iff_exists]
    constructor
    · rintro ⟨e, he⟩
      exact ((h k e).mp he).1
    · intro hk
      exact ⟨_, (h k _).mpr ⟨hk, rfl⟩⟩
  rw [AList.lookup_union_eq_some, h k e, h' k e, hmem, Set.mem_union]
  tauto

theorem Holding.entries_eq_nil
    (h : Holding ex keys map) : map.entries = [] ↔ keys = ∅ := by
  constructor
  · intro hnil
    refine Set.eq_empty_iff_forall_notMem.mpr fun k hk => ?_
    have hlookup := (h k _).mpr ⟨hk, rfl⟩
    rw [← Option.mem_def, AList.mem_lookup_iff, hnil] at hlookup
    cases hlookup
  · intro hkeys
    refine List.eq_nil_iff_forall_not_mem.mpr fun p hp => ?_
    have hlookup := (h p.1 p.2).mp (AList.mem_lookup_iff.mpr hp)
    rw [hkeys] at hlookup
    exact hlookup.1

/-- An expert can be read from its shard. -/
def Manifest.Reads (m : Manifest) (file : List UInt8) (loc : ExpertLoc) (e : Expert) : Prop :=
  ∃ fmt len blob x, m.layerMeta.lookup loc.layer = some (fmt, len) ∧
    readExactAt file loc.offset len = .ok blob ∧
    expertFromBlob blob m.hidden m.moeInter fmt = .ok x ∧ x.markGpuEligible = e

/-- **The loop of a thread.** -/
theorem loadLocs_cut (budget : Nat) {file : List UInt8} {locs : List ExpertLoc}
    (hreads : ∀ loc ∈ locs, m.Reads file loc (ex loc.layer loc.eid))
    (hmap : Holding ex keys map) (used : Nat)
    (hsmall : used + total m.size locs < 2 ^ 64) :
    ∃ kept rest map', m.loadLocs file budget locs map used = .ok map' ∧
      Cut m.size budget used (keys = ∅) locs kept rest ∧
      Holding ex (keys ∪ {k | k ∈ kept.map ExpertLoc.key}) map' := by
  induction locs generalizing keys map used with
  | nil =>
    refine ⟨[], [], map, rfl, .done, ?_⟩
    simpa using hmap
  | cons loc locs ih =>
    obtain ⟨fmt, len, blob, x, hmeta, hread, hparse, hx⟩ := hreads loc List.mem_cons_self
    have hsize : m.size loc = len := by
      rw [Manifest.size, hmeta]
      rfl
    rw [total_cons, hsize] at hsmall
    rw [Manifest.loadLocs, hmeta]
    dsimp only
    rw [wadd_eq (by omega)]
    by_cases hstop : budget < used + len ∧ map.entries ≠ []
    · rw [if_pos hstop]
      refine ⟨[], loc :: locs, map, rfl, .stop (mt hmap.entries_eq_nil.mpr hstop.2) ?_, ?_⟩
      · rw [hsize]
        exact hstop.1
      · simpa using hmap
    · rw [if_neg hstop, hread, Outcome.ok_bind, hparse, Outcome.ok_bind, hx]
      obtain ⟨kept, rest, map', hrun, hcut, hmap'⟩ :=
        ih (fun l hl => hreads l (List.mem_cons_of_mem _ hl)) (hmap.insert loc.key)
          (used + len) (by omega)
      refine ⟨loc :: kept, rest, map', hrun, ?_, ?_⟩
      · refine Cut.take ?_ ?_
        · rw [hsize]
          by_cases hkeys : keys = ∅
          · exact .inl hkeys
          · right
            have hne := mt hmap.entries_eq_nil.mp hkeys
            have hfits := mt (fun hlt => And.intro hlt hne) hstop
            omega
        · rw [hsize]
          have hfalse : (insert loc.key keys = ∅) = False :=
            eq_false (Set.insert_nonempty _ _).ne_empty
          rwa [hfalse] at hcut
      · have hkeys : insert loc.key keys ∪ {k | k ∈ kept.map ExpertLoc.key}
            = keys ∪ {k | k ∈ (loc :: kept).map ExpertLoc.key} := by
          ext k
          simp only [Set.mem_union, Set.mem_insert_iff, Set.mem_ofPred_eq, List.map_cons,
            List.mem_cons]
          tauto
        rwa [hkeys] at hmap'

/-! ## The threads together -/

/-- The experts sorted into their files. -/
theorem byFile_eq (hfiles : ∀ loc ∈ m.experts, loc.file < m.numFiles) :
    m.byFile = .ok ((List.range m.numFiles).map fun f =>
      m.experts.filter fun loc => loc.file = f) := by
  have hloop : ∀ (es : List ExpertLoc) (g : Nat → List ExpertLoc),
      (∀ loc ∈ es, loc.file < m.numFiles) →
      es.foldlM (fun v e => if e.file < v.length then .ok (v.modify e.file (· ++ [e]))
          else .panic) ((List.range m.numFiles).map g)
        = (.ok ((List.range m.numFiles).map fun f => g f ++ es.filter fun loc => loc.file = f)
          : Outcome PreloadError _) := by
    intro es
    induction es with
    | nil =>
      intro g _
      simp only [List.foldlM_nil, List.filter_nil, List.append_nil, Outcome.pure_eq]
    | cons e es ih =>
      intro g hes
      have he := hes e List.mem_cons_self
      rw [List.foldlM_cons, if_pos (by rwa [List.length_map, List.length_range]),
        Outcome.ok_bind, modify_map_range, ih _ fun loc hloc => hes loc (List.mem_cons_of_mem _ hloc)]
      refine congrArg Outcome.ok (List.map_congr_left fun f _ => ?_)
      by_cases hf : f = e.file
      · rw [if_pos hf, List.filter_cons_of_pos (by simp [hf]), List.append_assoc,
          List.singleton_append]
      · rw [if_neg hf, List.filter_cons_of_neg (by simp [Ne.symm hf])]
  have hstart : List.replicate m.numFiles [] = (List.range m.numFiles).map
      fun _ => ([] : List ExpertLoc) := by
    rw [List.map_const', List.length_range]
  rw [Manifest.byFile, hstart, hloop _ _ hfiles]
  rfl

theorem joinAll_ok {α : Type} (xs : List α) :
    joinAll (xs.map Outcome.ok) = (.ok xs : Outcome PreloadError (List α)) := by
  have hnone : ((xs.map Outcome.ok).any fun r : Outcome PreloadError α => match r with
      | .panic => true
      | _ => false) = false := by
    rw [List.any_map]
    exact List.any_eq_false.mpr fun x _ => Bool.false_ne_true
  rw [joinAll, hnone, if_neg Bool.false_ne_true, List.mapM_map]
  exact (mapM_of_ok fun x _ => rfl).trans (congrArg Outcome.ok (List.map_id _))

/-- The shards that are read one after the other into the store. -/
theorem holding_foldl {α : Type} {keys : α → Set (Nat × Nat)} {map : α → Experts} (xs : List α)
    (h : ∀ x ∈ xs, Holding ex (keys x) (map x)) {keys₀ : Set (Nat × Nat)} {map₀ : Experts}
    (h₀ : Holding ex keys₀ map₀) :
    Holding ex (keys₀ ∪ {k | ∃ x ∈ xs, k ∈ keys x})
      ((xs.map map).foldl (fun all r => r ∪ all) map₀) := by
  induction xs generalizing keys₀ map₀ with
  | nil => simpa using h₀
  | cons x xs ih =>
    have hnext := ih (fun y hy => h y (List.mem_cons_of_mem _ hy))
      ((h x List.mem_cons_self).union h₀)
    have hkeys : keys x ∪ keys₀ ∪ {k | ∃ y ∈ xs, k ∈ keys y}
        = keys₀ ∪ {k | ∃ y ∈ x :: xs, k ∈ keys y} := by
      ext k
      simp only [Set.mem_union, Set.mem_ofPred_eq, List.exists_mem_cons_iff]
      tauto
    rwa [hkeys] at hnext

/-- A manifest and files that fit each other. -/
structure Manifest.Fits (m : Manifest) (d : Dir) (ex : Nat → Nat → Expert) : Prop where
  files : ∀ loc ∈ m.experts, loc.file < m.numFiles
  opens : ∀ f < m.numFiles, ∃ file, d (shardPath f) = some file ∧
    ∀ loc ∈ m.experts, loc.file = f → m.Reads file loc (ex loc.layer loc.eid)
  nodup : (m.experts.map ExpertLoc.key).Nodup
  small : ∀ f < m.numFiles, total m.size (m.shard f) < 2 ^ 64

theorem mem_shard {loc : ExpertLoc} {f : Nat} :
    loc ∈ m.shard f ↔ loc ∈ m.experts ∧ loc.file = f := by
  rw [Manifest.shard, byOffset, List.mem_mergeSort, List.mem_filter, decide_eq_true_eq]

/-- **A thread** loads a front part of its file. -/
theorem loadShard_cut (h : m.Fits d ex) (budget : Nat) {f : Nat} (hf : f < m.numFiles) :
    ∃ kept rest map, m.loadShard d budget f (m.shard f) = .ok map ∧
      Cut m.size budget 0 True (m.shard f) kept rest ∧
      Holding ex {k | k ∈ kept.map ExpertLoc.key} map := by
  obtain ⟨file, hfile, hreads⟩ := h.opens f hf
  obtain ⟨kept, rest, map, hrun, hcut, hmap⟩ := loadLocs_cut budget
    (fun loc hloc => hreads loc (mem_shard.mp hloc).1 (mem_shard.mp hloc).2) (holding_empty ex)
    0 (by rw [Nat.zero_add]; exact h.small f hf)
  rw [eq_true (rfl : (∅ : Set (Nat × Nat)) = ∅)] at hcut
  rw [Set.empty_union] at hmap
  refine ⟨kept, rest, map, ?_, hcut, hmap⟩
  rw [Manifest.loadShard, hfile]
  exact hrun

/-- An expert that is not kept of its shard is not kept of any. -/
theorem not_kept (h : m.Fits d ex) {kept rest : Nat → List ExpertLoc}
    (hsplit : ∀ f < m.numFiles, m.shard f = kept f ++ rest f) {f g : Nat} (hf : f < m.numFiles)
    (hg : g < m.numFiles) {loc : ExpertLoc} (hloc : loc ∈ rest f) :
    loc.key ∉ (kept g).map ExpertLoc.key := by
  intro hkey
  obtain ⟨loc', hloc', heq⟩ := List.mem_map.mp hkey
  have hin := mem_shard.mp (hsplit f hf ▸ List.mem_append_right (kept f) hloc)
  have hin' := mem_shard.mp (hsplit g hg ▸ List.mem_append_left (rest g) hloc')
  obtain rfl : loc' = loc := List.inj_on_of_nodup_map h.nodup hin'.1 hin.1 heq
  obtain rfl : f = g := hin.2.symm.trans hin'.2
  -- a shard has no expert twice
  have hnodup : (m.shard f).Nodup :=
    (List.mergeSort_perm _ _).nodup_iff.mpr (h.nodup.of_map.filter _)
  rw [hsplit f hf] at hnodup
  exact List.disjoint_of_nodup_append hnodup hloc' hloc

theorem expert_eq_ok {store : PreloadStore} {layer eid : Nat} {e : Expert} :
    store.expert layer eid = .ok e ↔ store.experts.lookup (layer, eid) = some e := by
  unfold PreloadStore.expert
  split
  next x hx => rw [hx, Outcome.ok.injEq, Option.some_inj]
  next hnone =>
    rw [hnone]
    exact ⟨nofun, nofun⟩

/-- **What loading comes to.** -/
theorem load_holds (h : m.Fits d ex) (budget : Nat) :
    ∃ store, PreloadStore.load m d budget = .ok store ∧ m.Holds budget ex store := by
  have hshards : ∀ f, ∃ kept rest map, f < m.numFiles →
      m.loadShard d budget f (m.shard f) = .ok map ∧
      Cut m.size budget 0 True (m.shard f) kept rest ∧
      Holding ex {k | k ∈ kept.map ExpertLoc.key} map := by
    intro f
    by_cases hf : f < m.numFiles
    · obtain ⟨kept, rest, map, h⟩ := loadShard_cut h budget hf
      exact ⟨kept, rest, map, fun _ => h⟩
    · exact ⟨[], [], ∅, fun hlt => absurd hlt hf⟩
  choose kept rest map hshards using hshards
  have hsplit : ∀ f < m.numFiles, m.shard f = kept f ++ rest f := fun f hf =>
    (hshards f hf).2.1.split
  have hresults : joinAll (((List.range m.numFiles).map fun f =>
        m.experts.filter fun loc => loc.file = f).mapIdx
          fun fi locs => m.loadShard d budget fi (byOffset locs))
      = .ok ((List.range m.numFiles).map map) := by
    rw [Vectors.mapIdx_map_range, ← joinAll_ok, List.map_map]
    refine congrArg joinAll (List.map_congr_left fun f hf => ?_)
    exact (hshards f (List.mem_range.mp hf)).1
  have hstore := holding_foldl (List.range m.numFiles)
    (fun f hf => (hshards f (List.mem_range.mp hf)).2.2) (holding_empty ex)
  refine ⟨⟨((List.range m.numFiles).map map).foldl (fun all r => r ∪ all) ∅⟩, ?_, ?_, ?_⟩
  · rw [PreloadStore.load, byFile_eq h.files, Outcome.ok_bind, hresults]
    rfl
  · intro layer eid e he
    obtain ⟨hkey, he⟩ := (hstore _ _).mp (expert_eq_ok.mp he)
    refine ⟨?_, he⟩
    obtain ⟨f, hf, hkey⟩ := hkey.resolve_left (Set.notMem_empty _)
    obtain ⟨loc, hloc, hkey⟩ := List.mem_map.mp hkey
    have hin := mem_shard.mp (hsplit f (List.mem_range.mp hf) ▸ List.mem_append_left (rest f) hloc)
    exact hkey ▸ List.mem_map_of_mem hin.1
  · intro f hf
    refine ⟨kept f, rest f, (hshards f hf).2.1, ?_, ?_⟩
    · intro loc hloc
      refine expert_eq_ok.mpr ((hstore _ _).mpr ⟨.inr ⟨f, List.mem_range.mpr hf, ?_⟩, rfl⟩)
      show loc.key ∈ (kept f).map ExpertLoc.key
      exact List.mem_map_of_mem hloc
    · intro loc hloc
      unfold PreloadStore.expert
      split
      next e he =>
        obtain ⟨hkey, -⟩ := (hstore _ _).mp he
        obtain ⟨g, hg, hkey⟩ := hkey.resolve_left (Set.notMem_empty _)
        exact absurd hkey (not_kept h hsplit hf (List.mem_range.mp hg) hloc)
      next => rfl

end

end Colibri.Preload
