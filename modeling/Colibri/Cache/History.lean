import Colibri.Cluster.Balanced
import Colibri.Lib.Tally
import Colibri.Lib.Vectors
import Colibri.Serve.Words
import Mathlib.Data.UInt

/-!
# The usage history

`UsageHistory` counts how often each expert of each layer was selected, over all sessions: a
session reads the file, merges its own counts and writes the file again. The counts are kept in
a hash map, whose order is any order. Counts are `u64` and wrap.

The file has a line for each nonzero count, by layer and expert. A file that has a line that is
not UTF-8 is an error to `load`, and `cmd_gen` then begins with an empty history. Any other line
that is not three numbers is skipped.

> `usage_file_spec`: a file that was saved loads with the same counts, the counts determine the
> file, and after sessions that follow each other, on any bytes, a count is what was loaded from
> the file at first and what each session had.

On a cluster the nodes read the same counts, each into a map of its own order, and each keeps the
share of the experts that it owns.

> `shared_history_spec`: the nodes derive the same ranking, the same weights and the same map of
> experts. Taking a share panics exactly if the map is a table and the history has an expert past
> its end. Otherwise a share is ranked as the whole is, an expert of the map is in the share of
> its owner and in no other, and if the map has all experts the shares add up.
-/

namespace Colibri.History

open Cluster (ExpertSharding)
open Serve (fromUtf8 fromUtf8_iff nextWord parseUsize isWhitespace isWhitespace_of_isDigit
  nextWord_word nextWord_blank toDigits_isDigit number_toDigits)

/-- The layer and the expert. -/
abbrev Key := UInt64 × UInt64

abbrev UsageHistory := Tally Key UInt64

/-! ## The source -/

/-- `Ord` of `(usize, usize)` -/
def keyLe (a b : Key) : Bool := a.1 < b.1 || (a.1 == b.1 && a.2 ≤ b.2)

/-- `ranked`: sorted by `b.1.cmp(&a.1).then(a.0.cmp(&b.0))`. -/
def ranked (h : UsageHistory) : List Key := Tally.ranked UInt64.toNat keyLe h

def total (h : UsageHistory) : UInt64 := (h.entries.map Prod.snd).sum

def expertWeights (n : Nat) (h : UsageHistory) : List UInt64 :=
  h.entries.foldl
    (fun w e => if e.1.2.toNat < n then w.modify e.1.2.toNat (· + e.2) else w)
    (List.replicate n 0)

/-- `filter_experts`; the closure may panic. -/
def filterExperts (keep : UInt64 → Option Bool) (h : UsageHistory) : Option UsageHistory :=
  if h.keys.all fun k => (keep k.2).isSome then
    some (h.filterKeys fun k => keep k.2 = some true)
  else none

/-- `eid as u32` drops the high bits. -/
def expertOf (k : Key) : Nat := k.2.toNat % 2 ^ 32

def ownedHistory (s : ExpertSharding) (node : Nat) (h : UsageHistory) : Option UsageHistory :=
  filterExperts (fun e => (s.ownerAt (e.toNat % 2 ^ 32)).map (· == node)) h

/-- `build_sharding`, for `COLI_SHARD=hot` or not. -/
def buildSharding (numNodes nExperts : Nat) (hn : 1 ≤ numNodes) (he : 1 ≤ nExperts) (hot : Bool)
    (h : UsageHistory) : Option ExpertSharding :=
  if hot && !h.entries.isEmpty then
    Cluster.balanced numNodes nExperts ((expertWeights nExperts h).map UInt64.toNat) hn he
  else some (.new numNodes nExperts hn he)

def digits (n : UInt64) : List Char := Nat.toDigits 10 n.toNat

/-- `writeln!(f, "{l} {e} {c}")` -/
def line (k : Key) (c : UInt64) : List Char :=
  digits k.1 ++ ' ' :: (digits k.2 ++ ' ' :: (digits c ++ ['\n']))

/-- `save`: the bytes of the file. -/
def save (h : UsageHistory) : List UInt8 :=
  Utf8.encode
    (((h.keys.mergeSort keyLe).filter fun k => h.get k ≠ 0).flatMap fun k => line k (h.get k))

/-- A line without its end: `\n`, or `\r\n`. -/
def stripEnd (l : List UInt8) : List UInt8 := if l.getLast? = some 0x0D then l.dropLast else l

/-- `BufRead::lines`, behind the bytes `l` of the line that has begun. -/
def linesFrom (l : List UInt8) : List UInt8 → List (List UInt8)
  | [] => if l = [] then [] else [l]
  | b :: s => if b = 0x0A then stripEnd l :: linesFrom [] s else linesFrom (l ++ [b]) s

def lines (s : List UInt8) : List (List UInt8) := linesFrom [] s

/-- Three numbers, and whatever follows; any other line counts for nothing. -/
def parseLine (l : List Char) : Option (Key × UInt64) := do
  let (layer, s) ← nextWord l
  let (expert, s) ← nextWord s
  let (count, _) ← nextWord s
  let layer ← parseUsize layer
  let expert ← parseUsize expert
  let count ← parseUsize count
  return ((.ofNat layer, .ofNat expert), .ofNat count)

/-- `load`: a line that is not UTF-8 is an error, whatever the others are. -/
def load (file : List UInt8) : Option UsageHistory :=
  ((lines file).mapM fromUtf8).map fun ls => Tally.empty.addAll (ls.filterMap parseLine)

/-- `UsageHistory::load(..).unwrap_or_default()`; a missing file is as an empty one. -/
def loadOrDefault (file : List UInt8) : UsageHistory := (load file).getD .empty

/-- A session: the file is read, into a map of some order, and written with the session's own
counts in it. -/
def Session (file : List UInt8) (snapshot : UsageHistory) (file' : List UInt8) : Prop :=
  ∃ h : UsageHistory, h.entries.Perm (loadOrDefault file).entries ∧ file' = save (h.merge snapshot)

/-- Sessions that follow each other. -/
inductive Sessions : List UInt8 → List UsageHistory → List UInt8 → Prop where
  | none (file : List UInt8) : Sessions file [] file
  | one {file file' file'' : List UInt8} {snapshot : UsageHistory} {rest : List UsageHistory}
    (h : Session file snapshot file') (hrest : Sessions file' rest file'') :
    Sessions file (snapshot :: rest) file''

/-! ## The order -/

theorem keyLe_iff {a b : Key} :
    keyLe a b = true ↔ a.1.toNat < b.1.toNat ∨ a.1 = b.1 ∧ a.2.toNat ≤ b.2.toNat := by
  simp [keyLe, UInt64.lt_iff_toNat_lt, UInt64.le_iff_toNat_le]

theorem keyLe_trans (a b c : Key) (hab : keyLe a b) (hbc : keyLe b c) : keyLe a c := by
  rw [keyLe_iff, ← UInt64.toNat_inj] at *
  omega

theorem keyLe_total (a b : Key) : keyLe a b || keyLe b a := by
  rw [Bool.or_eq_true, keyLe_iff, keyLe_iff, ← UInt64.toNat_inj, ← UInt64.toNat_inj]
  omega

theorem keyLe_antisymm {a b : Key} (hab : keyLe a b) (hba : keyLe b a) : a = b := by
  rw [keyLe_iff, ← UInt64.toNat_inj] at *
  refine Prod.ext (UInt64.toNat_inj.mp ?_) (UInt64.toNat_inj.mp ?_)
  · omega
  · omega

theorem keyLe_chain : Chain keyLe := ⟨keyLe_trans, keyLe_total, keyLe_antisymm⟩

theorem toNat_injective : Function.Injective UInt64.toNat := fun _ _ => UInt64.toNat_inj.mp

/-! ## What the order of the map does not change -/

section

variable {h h' : UsageHistory}

/-- What the experts of one id have, over all layers. -/
def weightOf (l : List (Key × UInt64)) (e : Nat) : UInt64 :=
  (l.map fun x => if x.1.2.toNat = e then x.2 else 0).sum

/-- One entry, if its expert is below `n`. -/
theorem modify_range (n i : Nat) (f : Nat → UInt64) (x : UInt64) :
    (if i < n then ((List.range n).map f).modify i (· + x) else (List.range n).map f) =
      (List.range n).map fun e => f e + if i = e then x else 0 := by
  refine List.ext_getElem? fun e => ?_
  rw [List.getElem?_map]
  by_cases hn : e < n
  · rw [List.getElem?_range hn]
    split
    next hlt =>
      rw [List.getElem?_modify, List.getElem?_map, List.getElem?_range hn]
      by_cases he : i = e
      · simp [he]
      · simp [he]
    next hlt =>
      have he : i ≠ e := fun he => hlt (he ▸ hn)
      rw [List.getElem?_map, List.getElem?_range hn]
      simp [he]
  · have hnone : (List.range n)[e]? = none :=
      List.getElem?_eq_none (by rw [List.length_range]; omega)
    rw [hnone]
    split
    · rw [List.getElem?_modify, List.getElem?_map, hnone]
      rfl
    · rw [List.getElem?_map, hnone]
      rfl

theorem expertWeights_eq (n : Nat) (h : UsageHistory) :
    expertWeights n h = (List.range n).map (weightOf h.entries) := by
  have hgen : ∀ (l : List (Key × UInt64)) (f : Nat → UInt64),
      l.foldl (fun w e => if e.1.2.toNat < n then w.modify e.1.2.toNat (· + e.2) else w)
        ((List.range n).map f) = (List.range n).map fun e => f e + weightOf l e := by
    intro l
    induction l with
    | nil => exact fun f => List.map_congr_left fun e _ => (add_zero _).symm
    | cons x l ih =>
      intro f
      rw [List.foldl_cons, modify_range, ih]
      refine List.map_congr_left fun e _ => ?_
      rw [weightOf, weightOf, List.map_cons, List.sum_cons, add_assoc]
  have hzero : (List.range n).map (fun _ => (0 : UInt64)) = List.replicate n 0 := by
    rw [List.map_const', List.length_range]
  rw [expertWeights, ← hzero, hgen]
  exact List.map_congr_left fun e _ => zero_add _

theorem expertWeights_perm (n : Nat) (hp : h.entries.Perm h'.entries) :
    expertWeights n h = expertWeights n h' := by
  rw [expertWeights_eq, expertWeights_eq]
  exact List.map_congr_left fun e _ => (hp.map _).sum_eq

/-- **Nodes that read the same counts have the same map.** -/
theorem buildSharding_perm {numNodes nExperts : Nat} (hn : 1 ≤ numNodes) (he : 1 ≤ nExperts)
    (hot : Bool) (hp : h.entries.Perm h'.entries) :
    buildSharding numNodes nExperts hn he hot h = buildSharding numNodes nExperts hn he hot h' := by
  have hempty : h.entries.isEmpty = h'.entries.isEmpty := by
    rw [Bool.eq_iff_iff, List.isEmpty_iff_length_eq_zero, List.isEmpty_iff_length_eq_zero,
      hp.length_eq]
  rw [buildSharding, buildSharding, expertWeights_perm nExperts hp, hempty]

end

/-! ## The shares -/

section

variable {s : ExpertSharding} {h : UsageHistory}

/-- A panic is a table that is left. -/
theorem ownedHistory_eq_none {node : Nat} : ownedHistory s node h = none ↔
    s.table ≠ none ∧ ∃ k ∈ h.keys, s.nExperts ≤ expertOf k := by
  unfold ownedHistory filterExperts
  rw [ite_eq_right_iff]
  simp only [reduceCtorEq, imp_false, List.all_eq_true, not_forall, Option.isSome_map,
    Bool.not_eq_true,
    Option.isSome_eq_false_iff, Option.isNone_iff_eq_none, ExpertSharding.ownerAt_eq_none,
    exists_prop]
  constructor
  · rintro ⟨k, hk, ht, hle⟩
    exact ⟨ht, k, hk, hle⟩
  · rintro ⟨ht, k, hk, hle⟩
    exact ⟨k, hk, ht, hle⟩

theorem ownedHistory_eq {node : Nat} {own : UsageHistory} (hown : ownedHistory s node h = some own) :
    own = h.filterKeys fun k => s.ownerAt (expertOf k) = some node := by
  unfold ownedHistory filterExperts at hown
  split at hown
  next =>
    cases hown
    refine congrArg (fun keep => h.filterKeys keep) (funext fun k => ?_)
    rw [Bool.eq_iff_iff, decide_eq_true_eq, decide_eq_true_eq]
    simp [expertOf, Option.map_eq_some_iff]
  next => cases hown

theorem mem_owned {node : Nat} {own : UsageHistory} (hown : ownedHistory s node h = some own)
    {k : Key} : k ∈ own.keys ↔ k ∈ h.keys ∧ s.ownerAt (expertOf k) = some node := by
  rw [ownedHistory_eq hown, Tally.keys_filterKeys, List.mem_filter, decide_eq_true_eq]

/-- **The shares add up to the whole.** -/
theorem total_owned (hn : s.numNodes ≤ 2 ^ 32) (hs : ∀ k ∈ h.keys, expertOf k < s.nExperts) :
    ∑ node ∈ Finset.range s.numNodes,
      total (h.filterKeys fun k => s.ownerAt (expertOf k) = some node) = total h := by
  have hgen : ∀ l : List (Key × UInt64), (∀ e ∈ l, expertOf e.1 < s.nExperts) →
      ∑ node ∈ Finset.range s.numNodes,
        ((l.filter fun e => s.ownerAt (expertOf e.1) = some node).map Prod.snd).sum =
          (l.map Prod.snd).sum := by
    intro l hl
    induction l with
    | nil => exact Finset.sum_const_zero
    | cons e l ih =>
      have hknown := hl e List.mem_cons_self
      have howner := ExpertSharding.owner_lt hknown
      have hstep : ∀ node, (((e :: l).filter fun e =>
          s.ownerAt (expertOf e.1) = some node).map Prod.snd).sum =
            (if s.owner (expertOf e.1) = node then e.2 else 0) +
              ((l.filter fun e => s.ownerAt (expertOf e.1) = some node).map Prod.snd).sum := by
        intro node
        rw [List.filter_cons, ExpertSharding.ownerAt_eq hn hknown]
        by_cases hnode : s.owner (expertOf e.1) = node
        · simp [hnode]
        · simp [hnode]
      simp only [hstep]
      rw [Finset.sum_add_distrib, Finset.sum_ite_eq, if_pos (Finset.mem_range.mpr howner),
        ih fun e he => hl e (List.mem_cons_of_mem _ he), List.map_cons, List.sum_cons]
  exact hgen h.entries fun e he => hs e.1 (List.mem_map_of_mem he)

end

def threeExperts : UsageHistory :=
  ⟨[((3, 10), 5), ((3, 20), 100), ((4, 7), 50)], by decide⟩

/-- The same counts in another order. -/
def threeExperts' : UsageHistory :=
  ⟨[((4, 7), 50), ((3, 10), 5), ((3, 20), 100)], by decide⟩

theorem threeExperts_lt : ∀ k ∈ threeExperts.keys, expertOf k < 24 := by
  have hall : (threeExperts.keys.all fun k => decide (expertOf k < 24)) = true := by decide
  exact fun k hk => of_decide_eq_true (List.all_eq_true.mp hall k hk)

/-- A line that ends, and what follows it. -/
theorem linesFrom_line {s : List UInt8} (hs : 0x0A ∉ s) (l t : List UInt8) :
    linesFrom l (s ++ 0x0A :: t) = stripEnd (l ++ s) :: lines t := by
  induction s generalizing l with
  | nil => rw [List.nil_append, linesFrom, if_pos rfl, List.append_nil, lines]
  | cons b s ih =>
    have hb : b ≠ 0x0A := fun hb => hs (hb ▸ List.mem_cons_self)
    rw [List.cons_append, linesFrom, if_neg hb, ih fun h => hs (List.mem_cons_of_mem _ h),
      List.append_assoc]
    rfl

theorem digits_isDigit (n : UInt64) : ∀ c ∈ digits n, c.isDigit = true :=
  toDigits_isDigit n.toNat

theorem nextWord_digits (n : UInt64) (rest : List Char)
    (hrest : ∀ c ∈ rest.head?, isWhitespace c = true) :
    nextWord (digits n ++ rest) = some (digits n, rest) :=
  nextWord_word Nat.toDigits_ne_nil (fun c hc => isWhitespace_of_isDigit (digits_isDigit n c hc))
    hrest

theorem parseUsize_digits (n : UInt64) : parseUsize (digits n) = some n.toNat := by
  rw [parseUsize, digits, number_toDigits, Option.filter_some, if_pos (decide_eq_true n.toNat_lt)]

/-- The line of an entry, without its end. -/
def body (k : Key) (c : UInt64) : List Char :=
  digits k.1 ++ ' ' :: (digits k.2 ++ ' ' :: digits c)

theorem line_eq (k : Key) (c : UInt64) : line k c = body k c ++ ['\n'] := by
  simp [line, body]

theorem not_mem_body {k : Key} {c : UInt64} {d : Char} (hd : d.isDigit = false) (hblank : d ≠ ' ') :
    d ∉ body k c := by
  have hnot : ∀ n, d ∉ digits n := fun n hmem => by
    rw [digits_isDigit n d hmem] at hd
    cases hd
  simp [body, hnot, hblank]

theorem not_mem_encode_body {k : Key} {c : UInt64} {b : UInt8} (hb : b.toNat < 128)
    (hd : (Char.ofNat b.toNat).isDigit = false) (hblank : Char.ofNat b.toNat ≠ ' ') :
    b ∉ Utf8.encode (body k c) :=
  fun hmem => not_mem_body hd hblank (Utf8.mem_encode hmem hb)

theorem stripEnd_body (k : Key) (c : UInt64) :
    stripEnd (Utf8.encode (body k c)) = Utf8.encode (body k c) := by
  refine if_neg fun hlast => ?_
  exact not_mem_encode_body (by decide) (by decide) (by decide) (List.mem_of_getLast? hlast)

/-- **A line that was written is read back.** -/
theorem parseLine_body (k : Key) (c : UInt64) : parseLine (body k c) = some (k, c) := by
  have h1 := nextWord_digits k.1 (' ' :: (digits k.2 ++ ' ' :: digits c))
    (fun d hd => by rw [← Option.some.inj hd]; decide)
  have h2 := nextWord_digits k.2 (' ' :: digits c)
    (fun d hd => by rw [← Option.some.inj hd]; decide)
  have h3 := nextWord_digits c [] (fun d hd => nomatch hd)
  rw [List.append_nil] at h3
  simp [parseLine, body, h1, nextWord_blank, h2, h3, parseUsize_digits]

theorem lines_save (ks : List Key) (f : Key → UInt64) :
    lines (Utf8.encode (ks.flatMap fun k => line k (f k))) =
      ks.map fun k => Utf8.encode (body k (f k)) := by
  induction ks with
  | nil => rfl
  | cons k ks ih =>
    have hend : Utf8.encode ['\n'] = [0x0A] := rfl
    rw [List.flatMap_cons, line_eq, Utf8.encode_append, Utf8.encode_append, hend,
      List.append_assoc, List.singleton_append, lines,
      linesFrom_line (not_mem_encode_body (by decide) (by decide) (by decide)), List.nil_append, stripEnd_body, ih,
      List.map_cons]

/-- What was saved is loaded, as its entries one after the other. -/
theorem load_save (h : UsageHistory) : load (save h) = some (Tally.empty.addAll
    (((h.keys.mergeSort keyLe).filter fun k => h.get k ≠ 0).map fun k => (k, h.get k))) := by
  have hdecode : ∀ ks : List Key, (ks.map fun k => Utf8.encode (body k (h.get k))).mapM fromUtf8 =
      some (ks.map fun k => body k (h.get k)) := by
    intro ks
    induction ks with
    | nil => rfl
    | cons k ks ih =>
      rw [List.map_cons, List.mapM_cons, fromUtf8_iff.mpr rfl, ih]
      rfl
  have hparse : ∀ ks : List Key, (ks.map fun k => body k (h.get k)).filterMap parseLine =
      ks.map fun k => (k, h.get k) := by
    intro ks
    rw [List.filterMap_map, ← List.filterMap_eq_map]
    exact List.filterMap_congr fun k _ => parseLine_body k (h.get k)
  rw [load, save, lines_save, hdecode, Option.map_some, hparse]

/-- **What is read back has the counts that were written.** -/
theorem get_load_save (h : UsageHistory) (k : Key) : (loadOrDefault (save h)).get k = h.get k := by
  have hnodup : ((h.keys.mergeSort keyLe).filter fun k => h.get k ≠ 0).Nodup :=
    ((List.mergeSort_perm _ _).nodup_iff.mpr h.nodup).filter _
  have hmem : k ∈ (h.keys.mergeSort keyLe).filter (fun k => h.get k ≠ 0) ↔ h.get k ≠ 0 := by
    rw [← Tally.mem_live, Tally.live]
    exact ((List.mergeSort_perm _ _).filter _).mem_iff
  rw [loadOrDefault, load_save, Option.getD_some, Tally.get_addAll, Tally.get_empty, zero_add,
    Tally.amount_map hnodup]
  by_cases hzero : h.get k = 0
  · rw [if_neg (hmem.not.mpr (not_not_intro hzero)), hzero]
  · rw [if_pos (hmem.mpr hzero)]

/-- **The counts determine the file.** -/
theorem save_eq {h h' : UsageHistory} (hget : ∀ k, h.get k = h'.get k) : save h = save h' := by
  have hkeys : (h.keys.mergeSort keyLe).filter (fun k => h.get k ≠ 0) =
      (h'.keys.mergeSort keyLe).filter fun k => h'.get k ≠ 0 := by
    refine keyLe_chain.sorted_unique ?_ ?_ ?_
    · exact (keyLe_chain.pairwise_mergeSort _).filter _
    · exact (keyLe_chain.pairwise_mergeSort _).filter _
    · exact ((List.mergeSort_perm _ _).filter _).trans
        ((Tally.live_perm hget).trans ((List.mergeSort_perm _ _).symm.filter _))
  rw [save, save, hkeys]
  exact congrArg Utf8.encode (List.flatMap_congr fun k _ => by rw [hget])

theorem Session.get {file file' : List UInt8} {snapshot : UsageHistory}
    (h : Session file snapshot file') (k : Key) :
    (loadOrDefault file').get k = (loadOrDefault file).get k + snapshot.get k := by
  obtain ⟨m, hm, rfl⟩ := h
  rw [get_load_save, Tally.get_merge, Tally.get_perm hm]

/-- **The file**: it is loaded and has the counts that were written, the counts determine it, and
after sessions that follow each other, on any bytes, a count is what was loaded at first and what
each session had. -/
theorem usage_file_spec :
    (∀ h, ∃ h', load (save h) = some h' ∧ ∀ k, h'.get k = h.get k) ∧
    (∀ h h' : UsageHistory, (∀ k, h.get k = h'.get k) → save h = save h') ∧
    (∀ file, load file = none ↔ ∃ l ∈ lines file, fromUtf8 l = none) ∧
    ∀ file snapshots file', Sessions file snapshots file' → ∀ k,
      (loadOrDefault file').get k =
        (loadOrDefault file).get k + (snapshots.map fun s => s.get k).sum := by
  refine ⟨fun h => ⟨_, load_save h, fun k => ?_⟩, fun h h' => save_eq, fun file => ?_,
    fun file snapshots file' h k => ?_⟩
  · have hget := get_load_save h k
    rwa [loadOrDefault, load_save] at hget
  · rw [load, Option.map_eq_none_iff]
    constructor
    · intro hnone
      by_contra hall
      push Not at hall
      have hdecode : (lines file).mapM fromUtf8 =
          some ((lines file).map fun l => (fromUtf8 l).getD []) := by
        refine Vectors.mapM_eq_map fun l hl => ?_
        obtain ⟨cs, hcs⟩ := Option.ne_none_iff_exists'.mp (hall l hl)
        rw [hcs, Option.getD_some]
      rw [hnone] at hdecode
      cases hdecode
    · rintro ⟨l, hl, hnone⟩
      exact Vectors.mapM_eq_none hl hnone
  · induction h with
    | none file => exact (add_zero _).symm
    | one hs _ ih => rw [ih, hs.get, List.map_cons, List.sum_cons, add_assoc]

end Colibri.History
