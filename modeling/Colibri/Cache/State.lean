import Mathlib.Algebra.BigOperators.Group.List.Basic
import Mathlib.Algebra.Order.Ring.Nat

/-!
# The expert cache under its lock

`State` is what the cache's mutex guards: the entries with the bytes charged for them,
the pinned keys, and the counters. Everything here is one critical section, or part of
one. Bytes are counted without the 64-bit bound: they are the sizes of buffers that are
in memory together.

Eviction ranks the entries that are neither pinned nor protected, ties in the order of
the map, and takes them off the map in that order until the bytes fit. The subtraction
is the code's: `none` is where it would underflow.

`Accounted` is the invariant: no key twice, and the bytes are those of the entries.

* `evictLoop_spec` and `evictTo_spec` are what eviction does to an accounted state: it takes the
  first few victims, and as many as it must.
* `evictTo_frame`, `evictTo_keeps`, `evictTo_within` and `evictTo_spares` are the facts that the
  other modules use of it: it takes entries off and nothing else, a pinned or protected entry stays,
  the bytes fit afterwards or nothing is left that may go, and which entries stay.
-/

namespace Colibri.Cache

/-- A layer and an expert. -/
abbrev Key := Nat × Nat

structure Entry (E : Type) where
  expert : E
  bytes : Nat
  heat : Nat
  last : Nat

structure State (E : Type) where
  entries : List (Key × Entry E)
  pinned : List Key
  bytes : Nat
  clock : Nat
  hits : Nat
  misses : Nat
  evictions : Nat
  sessionUsage : Key → Nat

/-- `u32::MAX` -/
def u32Max : Nat := 4294967295

/-- `evict_score`: recency first, then frequency. -/
def evictScore (heat last clock : Nat) : Nat :=
  let age := (clock + (u32Max + 1) - last) % (u32Max + 1)
  (u32Max - age) * 65536 + min heat 0xffff

/-- The state of a new cache. -/
def State.new (E : Type) : State E := ⟨[], [], 0, 0, 0, 0, 0, fun _ => 0⟩

namespace State

section

variable {E : Type} (s : State E)

/-- `entries.get` -/
def get (key : Key) : Option (Entry E) := s.entries.lookup key

/-- The keys of the map. -/
def keys : List Key := s.entries.map Prod.fst

/-- What the entries were charged. -/
def charged : Nat := (s.entries.map fun kv => kv.2.bytes).sum

/-- What is in the map, without the bookkeeping of the accesses: each key with its expert
and the bytes it was charged. -/
def contents : List (Key × E × Nat) := s.entries.map fun kv => (kv.1, kv.2.expert, kv.2.bytes)

/-! ## The critical sections -/

/-- The start of every `fetch`: the clock, and the selection if it is one. -/
def tick (key : Key) (record : Bool) : State E :=
  { s with
    clock := (s.clock + 1) % (u32Max + 1)
    sessionUsage := fun k => s.sessionUsage k + if record && k == key then 1 else 0 }

/-- A hit. -/
def hit (key : Key) : State E :=
  { s with
    entries := s.entries.map fun kv =>
      if kv.1 = key then (kv.1, { kv.2 with heat := min (kv.2.heat + 1) u32Max, last := s.clock })
      else kv
    hits := s.hits + 1 }

/-- A miss. -/
def miss : State E := { s with misses := s.misses + 1 }

/-- A new entry and its bytes. -/
def insert (key : Key) (expert : E) (bytes : Nat) : State E :=
  { s with
    entries := (key, ⟨expert, bytes, 1, s.clock⟩) :: s.entries
    bytes := s.bytes + bytes }

/-- The loop that inserts a batch: what is there already is passed over. -/
def insertBatch (size : E → Nat) (layer : Nat) : List (Nat × E) → State E → State E
  | [], s => s
  | (e, ex) :: loaded, s =>
    if (s.get (layer, e)).isSome then insertBatch size layer loaded s
    else insertBatch size layer loaded (s.insert (layer, e) ex (size ex)).miss

/-- `pinned.insert` -/
def pin (key : Key) : State E := { s with pinned := s.pinned.insert key }

/-! ## Eviction -/

/-- An entry off the map and its bytes off the total. -/
def remove (key : Key) (bytes : Nat) : State E :=
  { s with
    entries := s.entries.filter fun kv => kv.1 ≠ key
    bytes := s.bytes - bytes
    evictions := s.evictions + 1 }

/-- What may be evicted. -/
def candidates (protect : List Key) : List (Key × Entry E) :=
  s.entries.filter fun kv => kv.1 ∉ s.pinned ∧ kv.1 ∉ protect

/-- The candidates by score, ties in any order. -/
def Ranked (protect : List Key) (victims : List (Key × Entry E)) : Prop :=
  victims.Perm (s.candidates protect) ∧
    victims.Pairwise fun a b =>
      evictScore a.2.heat a.2.last s.clock ≤ evictScore b.2.heat b.2.last s.clock

/-- The eviction loop. -/
def evictLoop (budget : Nat) : List (Key × Entry E) → State E → Option (State E)
  | [], s => some s
  | (k, v) :: victims, s =>
    if s.bytes ≤ budget then some s
    else
      match s.get k with
      | none => evictLoop budget victims s
      | some _ =>
        if s.bytes < v.bytes then none else evictLoop budget victims (s.remove k v.bytes)

/-- `evict_to_protecting`, with the victims as ranked. -/
def evictTo (budget : Nat) (victims : List (Key × Entry E)) : Option (State E) :=
  if s.bytes ≤ budget then some s else evictLoop budget victims s

/-! ## The invariant -/

/-- No key twice, and the bytes are those of the entries. -/
structure Accounted (s : State E) : Prop where
  nodup : s.keys.Nodup
  bytes_eq : s.bytes = s.charged

end

/-- The state with these entries gone, and their bytes. -/
def without (victims : List (Key × Entry E)) (s : State E) : State E :=
  { s with
    entries := s.entries.filter fun kv => kv.1 ∉ victims.map Prod.fst
    bytes := s.bytes - (victims.map fun kv => kv.2.bytes).sum
    evictions := s.evictions + victims.length }

/-- The bytes of the first `n` victims. -/
def firstBytes (victims : List (Key × Entry E)) (n : Nat) : Nat :=
  ((victims.take n).map fun kv => kv.2.bytes).sum

/-- Whether eviction gets as far down the ranking as this key: what is ranked before it
does not free enough. -/
def Reaches (budget : Nat) (victims : List (Key × Entry E)) (s : State E) (key : Key) : Prop :=
  ∃ j v, victims[j]? = some (key, v) ∧ budget < s.bytes - firstBytes victims j

section

variable {E : Type} {s : State E}

/-! ## Single entries -/

variable {key : Key}

theorem get_isSome_iff : (s.get key).isSome ↔ key ∈ s.keys := by
  rw [get, List.lookup_isSome_iff, keys, List.mem_map]
  refine exists_congr fun kv => and_congr_right fun _ => ?_
  rw [beq_iff_eq]
  exact eq_comm

theorem get_eq_none_iff : s.get key = none ↔ key ∉ s.keys := by
  rw [← get_isSome_iff, Option.not_isSome_iff_eq_none]

theorem mem_of_get {e : Entry E} (h : s.get key = some e) : (key, e) ∈ s.entries := by
  obtain ⟨l₁, l₂, hl, -⟩ := List.lookup_eq_some_iff.mp h
  rw [hl]
  exact List.mem_append_right _ (List.mem_cons_self ..)

theorem mem_keys_of_mem {kv : Key × Entry E} (h : kv ∈ s.entries) : kv.1 ∈ s.keys :=
  List.mem_map.mpr ⟨kv, h, rfl⟩

theorem keys_eq : s.keys = s.contents.map Prod.fst := by
  rw [keys, contents, List.map_map]
  rfl

theorem charged_eq : s.charged = (s.contents.map fun x => x.2.2).sum := by
  rw [charged, contents, List.map_map]
  rfl

theorem mem_contents {x : Key × E × Nat} : x ∈ s.contents ↔
    ∃ e : Entry E, (x.1, e) ∈ s.entries ∧ e.expert = x.2.1 ∧ e.bytes = x.2.2 := by
  constructor
  · intro h
    obtain ⟨kv, hkv, rfl⟩ := List.mem_map.mp h
    exact ⟨kv.2, hkv, rfl, rfl⟩
  · intro h
    obtain ⟨e, he, hex, hb⟩ := h
    refine List.mem_map.mpr ⟨_, he, ?_⟩
    dsimp only
    rw [hex, hb]

theorem hit_contents (key : Key) : (s.hit key).contents = s.contents := by
  rw [contents, hit, List.map_map]
  refine List.map_congr_left fun kv _ => ?_
  dsimp only [Function.comp]
  split <;> rfl

theorem Accounted.congr (h : s.Accounted) {s' : State E} (hc : s'.contents = s.contents)
    (hb : s'.bytes = s.bytes) : s'.Accounted := by
  refine ⟨?_, ?_⟩
  · rw [keys_eq, hc, ← keys_eq]
    exact h.nodup
  · rw [hb, charged_eq, hc, ← charged_eq]
    exact h.bytes_eq

theorem Accounted.insert (h : s.Accounted) (hnew : s.get key = none) (ex : E)
    (b : Nat) : (s.insert key ex b).Accounted := by
  refine ⟨List.nodup_cons.mpr ⟨get_eq_none_iff.mp hnew, h.nodup⟩, ?_⟩
  have hsum : (s.insert key ex b).charged = b + s.charged := List.sum_cons
  rw [hsum, ← h.bytes_eq]
  exact Nat.add_comm _ _

theorem insertBatch_cons (size : E → Nat) (layer : Nat) (p : Nat × E) (loaded : List (Nat × E)) :
    s.insertBatch size layer (p :: loaded) =
      if (s.get (layer, p.1)).isSome then s.insertBatch size layer loaded
      else (s.insert (layer, p.1) p.2 (size p.2)).miss.insertBatch size layer loaded := rfl

theorem Accounted.insertBatch (size : E → Nat) (layer : Nat) {loaded : List (Nat × E)}
    (h : s.Accounted) : (s.insertBatch size layer loaded).Accounted := by
  induction loaded generalizing s with
  | nil => exact h
  | cons p loaded ih =>
    rw [insertBatch_cons]
    split
    · exact ih h
    next hno =>
      have hnew := Option.not_isSome_iff_eq_none.mp hno
      have hins := h.insert hnew p.2 (size p.2)
      exact ih ⟨hins.nodup, hins.bytes_eq⟩

theorem insertBatch_pinned (size : E → Nat) (layer : Nat) (loaded : List (Nat × E)) :
    (s.insertBatch size layer loaded).pinned = s.pinned := by
  induction loaded generalizing s with
  | nil => rfl
  | cons p loaded ih =>
    rw [insertBatch_cons]
    split
    · exact ih
    · exact ih

theorem insertBatch_usage (size : E → Nat) (layer : Nat) (loaded : List (Nat × E)) :
    (s.insertBatch size layer loaded).sessionUsage = s.sessionUsage := by
  induction loaded generalizing s with
  | nil => rfl
  | cons p loaded ih =>
    rw [insertBatch_cons]
    split
    · exact ih
    · exact ih

/-- A batch keeps the entries there are and adds some of its own. -/
theorem mem_insertBatch (size : E → Nat) (layer : Nat) (loaded : List (Nat × E)) :
    (∀ kv ∈ s.entries, kv ∈ (s.insertBatch size layer loaded).entries) ∧
      ∀ kv ∈ (s.insertBatch size layer loaded).entries, kv ∈ s.entries ∨
        ∃ p ∈ loaded, kv.1 = (layer, p.1) ∧ kv.2.expert = p.2 ∧ kv.2.bytes = size p.2 := by
  induction loaded generalizing s with
  | nil => exact ⟨fun _ h => h, fun _ h => Or.inl h⟩
  | cons p loaded ih =>
    rw [insertBatch_cons]
    split
    · obtain ⟨hkeep, hnew⟩ := ih (s := s)
      refine ⟨hkeep, fun kv hkv => ?_⟩
      rcases hnew kv hkv with h | ⟨q, hq, h⟩
      · exact Or.inl h
      · exact Or.inr ⟨q, List.mem_cons_of_mem _ hq, h⟩
    · obtain ⟨hkeep, hnew⟩ := ih (s := (s.insert (layer, p.1) p.2 (size p.2)).miss)
      refine ⟨fun kv hkv => hkeep kv (List.mem_cons_of_mem _ hkv), fun kv hkv => ?_⟩
      rcases hnew kv hkv with h | ⟨q, hq, h⟩
      · rcases List.mem_cons.mp h with rfl | h
        · exact Or.inr ⟨p, List.mem_cons_self .., rfl, rfl, rfl⟩
        · exact Or.inl h
      · exact Or.inr ⟨q, List.mem_cons_of_mem _ hq, h⟩

/-! ## Eviction -/

/-- The bytes of an entry, taken off the sum. -/
theorem charged_filter (h : s.Accounted) {e : Entry E} (hmem : (key, e) ∈ s.entries) :
    s.charged = ((s.entries.filter fun kv => kv.1 ≠ key).map fun kv => kv.2.bytes).sum
      + e.bytes := by
  have hnodup := h.nodup
  rw [charged]
  rw [keys] at hnodup
  generalize s.entries = entries at hmem hnodup ⊢
  induction entries with
  | nil => cases hmem
  | cons kv entries ih =>
    rw [List.map_cons, List.nodup_cons] at hnodup
    rcases List.mem_cons.mp hmem with rfl | hmem
    · have hrest : entries.filter (fun kv => kv.1 ≠ key) = entries := by
        rw [List.filter_eq_self]
        intro kv hkv
        rw [decide_eq_true_eq]
        intro hk
        exact hnodup.1 (List.mem_map.mpr ⟨kv, hkv, hk⟩)
      rw [List.filter_cons_of_neg (by simp), hrest, List.map_cons, List.sum_cons]
      exact Nat.add_comm _ _
    · have hne : kv.1 ≠ key := by
        intro hk
        exact hnodup.1 (List.mem_map.mpr ⟨_, hmem, hk.symm⟩)
      rw [List.filter_cons_of_pos (by simpa using hne), List.map_cons, List.map_cons,
        List.sum_cons, List.sum_cons, ih hmem hnodup.2, Nat.add_assoc]

theorem Accounted.remove (h : s.Accounted) {e : Entry E}
    (hmem : (key, e) ∈ s.entries) : (s.remove key e.bytes).Accounted := by
  refine ⟨(List.filter_sublist.map Prod.fst).nodup h.nodup, ?_⟩
  have hsum := charged_filter h hmem
  have hbytes := h.bytes_eq
  rw [State.remove, charged]
  dsimp only
  omega

theorem without_nil : s.without [] = s := by
  obtain ⟨entries, pinned, bytes, clock, hits, misses, evictions, usage⟩ := s
  simp [without]

theorem without_cons (k : Key) (v : Entry E) (victims : List (Key × Entry E)) :
    (s.remove k v.bytes).without victims = s.without ((k, v) :: victims) := by
  rw [without, without, remove]
  simp only [List.filter_filter, List.map_cons, List.sum_cons, List.length_cons, State.mk.injEq,
    true_and, and_true]
  refine ⟨List.filter_congr fun kv _ => ?_, Nat.sub_sub .., by omega⟩
  simp only [List.mem_cons, not_or, Bool.decide_and, ne_eq]
  exact Bool.and_comm _ _

/-- **What the eviction loop does**: from an accounted state it takes the first few
victims, and as many as it must. -/
theorem evictLoop_spec {budget : Nat} {victims : List (Key × Entry E)} (h : s.Accounted)
    (hmem : ∀ kv ∈ victims, kv ∈ s.entries) (hnodup : (victims.map Prod.fst).Nodup) :
    ∃ n ≤ victims.length, evictLoop budget victims s = some (s.without (victims.take n)) ∧
      (s.without (victims.take n)).Accounted ∧
      (∀ j < n, budget < s.bytes - firstBytes victims j) ∧
      (n = victims.length ∨ s.bytes - firstBytes victims n ≤ budget) := by
  induction victims generalizing s with
  | nil => exact ⟨0, Nat.le_refl _, by rw [evictLoop, List.take_nil, without_nil],
      by rw [List.take_nil, without_nil]; exact h, fun j hj => absurd hj (Nat.not_lt_zero j),
      Or.inl rfl⟩
  | cons kv victims ih =>
    obtain ⟨k, v⟩ := kv
    rw [List.map_cons, List.nodup_cons] at hnodup
    have hkv := hmem _ (List.mem_cons_self ..)
    rw [evictLoop]
    by_cases hfits : s.bytes ≤ budget
    · rw [if_pos hfits]
      refine ⟨0, Nat.zero_le _, by rw [List.take_zero, without_nil],
        by rw [List.take_zero, without_nil]; exact h, fun j hj => absurd hj (Nat.not_lt_zero j),
        Or.inr ?_⟩
      exact Nat.le_trans (Nat.sub_le _ _) hfits
    · rw [if_neg hfits]
      obtain ⟨e, he⟩ := Option.isSome_iff_exists.mp (get_isSome_iff.mpr (mem_keys_of_mem hkv))
      have hle : v.bytes ≤ s.bytes := by
        rw [h.bytes_eq, charged_filter h hkv]
        exact Nat.le_add_left _ _
      have hrest : ∀ kv ∈ victims, kv ∈ (s.remove k v.bytes).entries := by
        intro kv hmemv
        refine List.mem_filter.mpr ⟨hmem kv (List.mem_cons_of_mem _ hmemv), ?_⟩
        rw [decide_eq_true_eq]
        intro hk
        exact hnodup.1 (List.mem_map.mpr ⟨kv, hmemv, hk⟩)
      obtain ⟨n, hn, hloop, hacc, hbefore, hafter⟩ := ih (h.remove hkv) hrest hnodup.2
      have hfirst : ∀ j, (s.remove k v.bytes).bytes - firstBytes victims j
          = s.bytes - firstBytes ((k, v) :: victims) (j + 1) := by
        intro j
        rw [firstBytes, firstBytes, List.take_succ_cons, List.map_cons, List.sum_cons]
        exact Nat.sub_sub ..
      rw [he]
      dsimp only
      rw [if_neg (Nat.not_lt.mpr hle), hloop, without_cons]
      rw [without_cons] at hacc
      refine ⟨n + 1, Nat.succ_le_succ hn, rfl, hacc, fun j hj => ?_, ?_⟩
      · cases j with
        | zero =>
          rw [firstBytes, List.take_zero]
          exact Nat.lt_of_not_le hfits
        | succ j =>
          rw [← hfirst]
          exact hbefore j (Nat.lt_of_succ_lt_succ hj)
      · rcases hafter with hall | hle
        · exact Or.inl (congrArg Nat.succ hall)
        · rw [hfirst] at hle
          exact Or.inr hle

theorem Ranked.mem {protect : List Key} {victims : List (Key × Entry E)}
    (h : s.Ranked protect victims) {kv : Key × Entry E} :
    kv ∈ victims ↔ kv ∈ s.entries ∧ kv.1 ∉ s.pinned ∧ kv.1 ∉ protect := by
  rw [h.1.mem_iff, candidates, List.mem_filter, decide_eq_true_eq]

theorem Ranked.nodup {protect : List Key} {victims : List (Key × Entry E)}
    (h : s.Ranked protect victims) (hs : s.Accounted) : (victims.map Prod.fst).Nodup := by
  rw [(h.1.map Prod.fst).nodup_iff]
  exact (List.filter_sublist.map Prod.fst).nodup hs.nodup

/-- `evict_to_protecting` on an accounted state. -/
theorem evictTo_spec (budget : Nat) {protect : List Key} {victims : List (Key × Entry E)}
    (h : s.Accounted) (hr : s.Ranked protect victims) :
    ∃ n ≤ victims.length, s.evictTo budget victims = some (s.without (victims.take n)) ∧
      (s.without (victims.take n)).Accounted ∧
      (∀ j < n, budget < s.bytes - firstBytes victims j) ∧
      (n = victims.length ∨ s.bytes - firstBytes victims n ≤ budget) := by
  rw [evictTo]
  by_cases hfits : s.bytes ≤ budget
  · rw [if_pos hfits]
    refine ⟨0, Nat.zero_le _, by rw [List.take_zero, without_nil],
      by rw [List.take_zero, without_nil]; exact h, fun j hj => absurd hj (Nat.not_lt_zero j),
      Or.inr ?_⟩
    exact Nat.le_trans (Nat.sub_le _ _) hfits
  · rw [if_neg hfits]
    exact evictLoop_spec h (fun kv hkv => (hr.mem.mp hkv).1) (hr.nodup h)

section

variable {budget : Nat} {protect : List Key} {victims : List (Key × Entry E)} {s' : State E}

theorem evictTo_isSome (h : s.Accounted) (hr : s.Ranked protect victims) (budget : Nat) :
    (s.evictTo budget victims).isSome := by
  obtain ⟨n, -, hev, -⟩ := evictTo_spec budget h hr
  rw [hev]
  rfl

theorem evictTo_accounted (h : s.Accounted) (hr : s.Ranked protect victims)
    (hev : s.evictTo budget victims = some s') : s'.Accounted := by
  obtain ⟨n, -, hn, hacc, -⟩ := evictTo_spec budget h hr
  rw [hn] at hev
  cases hev
  exact hacc

/-- Eviction only takes entries off, and touches neither pins nor usage. -/
theorem evictTo_frame (h : s.Accounted) (hr : s.Ranked protect victims)
    (hev : s.evictTo budget victims = some s') :
    s'.pinned = s.pinned ∧ s'.sessionUsage = s.sessionUsage ∧ ∀ kv ∈ s'.entries,
      kv ∈ s.entries := by
  obtain ⟨n, -, hn, -⟩ := evictTo_spec budget h hr
  rw [hn] at hev
  cases hev
  exact ⟨rfl, rfl, fun kv hkv => (List.mem_filter.mp hkv).1⟩

/-- **A pinned or protected entry is not evicted.** -/
theorem evictTo_keeps (h : s.Accounted) (hr : s.Ranked protect victims)
    (hev : s.evictTo budget victims = some s') {kv : Key × Entry E} (hmem : kv ∈ s.entries)
    (hkeep : kv.1 ∈ s.pinned ∨ kv.1 ∈ protect) : kv ∈ s'.entries := by
  obtain ⟨n, -, hn, -⟩ := evictTo_spec budget h hr
  rw [hn] at hev
  cases hev
  refine List.mem_filter.mpr ⟨hmem, ?_⟩
  rw [decide_eq_true_eq]
  intro htaken
  obtain ⟨v, hv, hkey⟩ := List.mem_map.mp htaken
  have hfree := (hr.mem.mp (List.mem_of_mem_take hv)).2
  rw [hkey] at hfree
  rcases hkeep with hpin | hprot
  · exact hfree.1 hpin
  · exact hfree.2 hprot

/-- **What eviction achieves**: the bytes fit, or nothing is left that may go. -/
theorem evictTo_within (h : s.Accounted) (hr : s.Ranked protect victims)
    (hev : s.evictTo budget victims = some s') :
    s'.bytes ≤ budget ∨ ∀ key ∈ s'.keys, key ∈ s'.pinned ∨ key ∈ protect := by
  obtain ⟨n, -, hn, -, -, hafter⟩ := evictTo_spec budget h hr
  rw [hn] at hev
  cases hev
  rcases hafter with hall | hfits
  · right
    intro key hkey
    obtain ⟨kv, hkv, rfl⟩ := List.mem_map.mp hkey
    obtain ⟨hmem, hnot⟩ := List.mem_filter.mp hkv
    rw [decide_eq_true_eq, hall, List.take_length] at hnot
    by_contra hfree
    rw [not_or] at hfree
    exact hnot (List.mem_map.mpr ⟨kv, hr.mem.mpr ⟨hmem, hfree⟩, rfl⟩)
  · exact Or.inl hfits

theorem firstBytes_mono {i j : Nat} (h : i ≤ j) : firstBytes victims i ≤ firstBytes victims j := by
  obtain ⟨d, rfl⟩ := Nat.exists_eq_add_of_le h
  rw [firstBytes, firstBytes, List.take_add, List.map_append, List.sum_append]
  exact Nat.le_add_right _ _

/-- **Which entries stay**: those that eviction does not reach. -/
theorem evictTo_spares (h : s.Accounted) (hr : s.Ranked protect victims)
    (hev : s.evictTo budget victims = some s') (hkey : key ∈ s.keys) :
    key ∈ s'.keys ↔ ¬ s.Reaches budget victims key := by
  obtain ⟨n, hle, hn, -, hbefore, hafter⟩ := evictTo_spec budget h hr
  rw [hn] at hev
  cases hev
  have htaken : key ∈ (s.without (victims.take n)).keys ↔
      key ∉ (victims.take n).map Prod.fst := by
    obtain ⟨kv, hkv, rfl⟩ := List.mem_map.mp hkey
    constructor
    · intro h hno
      obtain ⟨kv', hkv', heq⟩ := List.mem_map.mp h
      have hnot := (List.mem_filter.mp hkv').2
      rw [decide_eq_true_eq, heq] at hnot
      exact hnot hno
    · intro hno
      exact mem_keys_of_mem (List.mem_filter.mpr ⟨hkv, by rw [decide_eq_true_eq]; exact hno⟩)
  rw [htaken, not_iff_not]
  constructor
  · intro h
    obtain ⟨⟨k, v⟩, hv, rfl⟩ := List.mem_map.mp h
    obtain ⟨j, hj⟩ := List.mem_iff_getElem?.mp hv
    have hlt : j < n := by
      by_contra hge
      rw [List.getElem?_eq_none (by rw [List.length_take]; omega)] at hj
      cases hj
    rw [List.getElem?_take_of_lt hlt] at hj
    exact ⟨j, v, hj, hbefore j hlt⟩
  · intro h
    obtain ⟨j, v, hj, hlt⟩ := h
    have hjn : j < n := by
      by_contra hge
      rcases hafter with hall | hfits
      · rw [List.getElem?_eq_none (by omega)] at hj
        cases hj
      · have hmono : firstBytes victims n ≤ firstBytes victims j :=
          firstBytes_mono (Nat.le_of_not_lt hge)
        omega
    refine List.mem_map.mpr ⟨(key, v), List.mem_iff_getElem?.mpr ⟨j, ?_⟩, rfl⟩
    rw [List.getElem?_take_of_lt hjn]
    exact hj

end

end

end State

end Colibri.Cache
