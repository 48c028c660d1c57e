import Colibri.Lib.Batch
import Mathlib.Algebra.Order.Ring.Nat

/-!
# Tensors in shard files, and spans of them

A tensor is a range of a shard file. The tensors that are asked for are put in the order of
file and offset, and where one begins at the end of the one before they are read in one go:
a span. The index holds what the headers say; nobody has checked that a range is in its
file, or that it ends after its beginning: the length of one that does not is close to
`2 ^ 64`, and what is added to it wraps.

The members of a span lie end to end (`Laid`). Only the sum of their lengths can wrap
(`Span.Made`): the order they are in leaves no room for it further in front.

`coalesce` is the loop that makes spans, and `coalesceN_made` its invariant: the members are the
items, in order, and every span is made of them. `laid_mem` says where a member is in its span.
-/

namespace Colibri.Safetensors

/-- `u64` addition and subtraction, as release builds do them. -/
def wadd (a b : Nat) : Nat := (a + b) % 2 ^ 64
def wsub (a b : Nat) : Nat := (a + 2 ^ 64 - b) % 2 ^ 64

inductive DType where
  | f32
  | bf16
  | f16
  | u8
  | f8e4m3
  | f8e5m2
  | i64
  deriving DecidableEq

/-- `StTensor` -/
structure StTensor where
  name : List Char
  fileIdx : Nat
  off : Nat
  nbytes : Nat
  dtype : DType
  numel : Int
  shape : List Int
  off_lt : off < 2 ^ 64
  nbytes_lt : nbytes < 2 ^ 64

/-- `Shards`: the tensors, and what is in the files. -/
structure Shards where
  tensors : List StTensor
  files : List (List UInt8)
  fileIdx_lt : ∀ t ∈ tensors, t.fileIdx < files.length
  size_lt : ∀ f ∈ files, f.length < 2 ^ 63

def Shards.file (s : Shards) (k : Nat) : List UInt8 := s.files.getD k []

/-- `find`: of tensors of one name, the index has the last. -/
def Shards.find (s : Shards) (name : List Char) : Option StTensor :=
  s.tensors.reverse.find? fun t => t.name = name

/-- What is asked for, as `meta` has it: the place in the list of names, and the range. -/
structure Item where
  idx : Nat
  file : Nat
  off : Nat
  nbytes : Nat
  deriving DecidableEq

def Item.of (idx : Nat) (t : StTensor) : Item := ⟨idx, t.fileIdx, t.off, t.nbytes⟩

/-- The lookups, the first at place `i`; there is nothing if a name is missing. -/
def Shards.itemsFrom (s : Shards) : Nat → List (List Char) → Option (List Item)
  | _, [] => some []
  | i, name :: names =>
    match s.find name with
    | none => none
    | some t => (s.itemsFrom (i + 1) names).map (Item.of i t :: ·)

def Shards.items (s : Shards) (names : List (List Char)) : Option (List Item) := s.itemsFrom 0 names

/-- `order`: by file, then by offset. -/
def before (a b : Item) : Bool := decide (a.file < b.file ∨ a.file = b.file ∧ a.off ≤ b.off)

def order (items : List Item) : List Item := items.mergeSort before

/-- The inner loop: what follows on without a gap, where that ends, and the rest. -/
def follow (file spanEnd : Nat) : List Item → List Item × Nat × List Item
  | [] => ([], spanEnd, [])
  | it :: rest =>
    if it.file = file ∧ it.off = spanEnd then
      let (members, spanEnd, rest) := follow file (wadd it.off it.nbytes) rest
      (it :: members, spanEnd, rest)
    else ([], spanEnd, it :: rest)

structure Span where
  file : Nat
  off : Nat
  len : Nat
  members : List Item

/-- The outer loop; at most `n` spans. -/
def coalesceN : Nat → List Item → List Span
  | 0, _ => []
  | _, [] => []
  | n + 1, it :: rest =>
    let (members, spanEnd, rest) := follow it.file (wadd it.off it.nbytes) rest
    ⟨it.file, it.off, wsub spanEnd it.off, it :: members⟩ :: coalesceN n rest

def coalesce (items : List Item) : List Span := coalesceN items.length items

/-- The spans of the tensors that are asked for. -/
def spansOf (items : List Item) : List Span := coalesce (order items)

/-! ## The items -/

structure Item.Word (it : Item) : Prop where
  off_lt : it.off < 2 ^ 64
  nbytes_lt : it.nbytes < 2 ^ 64

variable {s : Shards} {names : List (List Char)} {items : List Item}

theorem itemsFrom_cons {i : Nat} {name : List Char}
    (h : s.itemsFrom i (name :: names) = some items) :
    ∃ t rest, s.find name = some t ∧ s.itemsFrom (i + 1) names = some rest ∧
      items = Item.of i t :: rest := by
  rw [Shards.itemsFrom] at h
  rcases hf : s.find name with _ | t
  · rw [hf] at h
    cases h
  · rw [hf] at h
    obtain ⟨rest, hrest, rfl⟩ := Option.map_eq_some_iff.mp h
    exact ⟨t, rest, rfl, hrest, rfl⟩

/-- The items of a list of names, one for each. -/
theorem itemsFrom_spec {i : Nat}
    (h : s.itemsFrom i names = some items) :
    items.map Item.idx = List.range' i names.length ∧ (∀ it ∈ items, it.Word) ∧
      ∀ (k : Nat) (name : List Char), names[k]? = some name →
        ∃ t, s.find name = some t ∧ items[k]? = some (Item.of (i + k) t) := by
  induction names generalizing i items with
  | nil =>
    cases h
    exact ⟨rfl, fun it hit => absurd hit List.not_mem_nil, nofun⟩
  | cons name names ih =>
    obtain ⟨t, rest, hfind, hrest, rfl⟩ := itemsFrom_cons h
    obtain ⟨hidx, hword, hat⟩ := ih hrest
    refine ⟨?_, fun it hit => ?_, fun k nm hk => ?_⟩
    · rw [List.map_cons, hidx]
      rfl
    · rcases List.mem_cons.mp hit with rfl | hit
      · exact ⟨t.off_lt, t.nbytes_lt⟩
      · exact hword it hit
    · cases k with
      | zero =>
        cases hk
        exact ⟨t, hfind, rfl⟩
      | succ k =>
        obtain ⟨u, hu, hget⟩ := hat k nm hk
        refine ⟨u, hu, ?_⟩
        rw [List.getElem?_cons_succ, hget, Nat.add_right_comm, Nat.add_assoc]

/-- All names are there: the items, in the order of the names. -/
theorem items_spec
    (h : s.items names = some items) :
    items.map Item.idx = List.range names.length ∧ (∀ it ∈ items, it.Word) ∧
      ∀ (k : Nat) (name : List Char), names[k]? = some name →
        ∃ t, s.find name = some t ∧ items[k]? = some (Item.of k t) := by
  obtain ⟨hidx, hword, hat⟩ := itemsFrom_spec h
  refine ⟨hidx.trans List.range_eq_range'.symm, hword, fun k name hk => ?_⟩
  have hget := hat k name hk
  rw [Nat.zero_add] at hget
  exact hget

/-- Every item is the tensor of a name. -/
theorem items_mem
    (h : s.items names = some items) {it : Item} (hit : it ∈ items) :
    ∃ (name : List Char) (t : StTensor), names[it.idx]? = some name ∧ s.find name = some t ∧
      it = Item.of it.idx t := by
  obtain ⟨hidx, -, hat⟩ := items_spec h
  obtain ⟨k, hk⟩ := List.mem_iff_getElem?.mp hit
  have hlen : items.length = names.length := by
    have hlen := congrArg List.length hidx
    rwa [List.length_map, List.length_range] at hlen
  have hlt : k < names.length := hlen ▸ (List.getElem?_eq_some_iff.mp hk).1
  have hname := List.getElem?_eq_getElem hlt
  obtain ⟨t, ht, hget⟩ := hat k _ hname
  obtain rfl : it = Item.of k t := Option.some.inj (hk.symm.trans hget)
  exact ⟨names[k], t, hname, ht, rfl⟩

theorem itemsFrom_isSome
    (h : ∀ name ∈ names, (s.find name).isSome) (i : Nat) : (s.itemsFrom i names).isSome := by
  induction names generalizing i with
  | nil => rfl
  | cons name names ih =>
    obtain ⟨t, ht⟩ := Option.isSome_iff_exists.mp (h name List.mem_cons_self)
    obtain ⟨rest, hrest⟩ := Option.isSome_iff_exists.mp
      (ih (fun n hn => h n (List.mem_cons_of_mem _ hn)) (i + 1))
    rw [Shards.itemsFrom, ht, hrest]
    rfl

/-! ## A span's members lie end to end -/

/-- The items are of one file, and lie end to end from `o` on. -/
def Laid (file : Nat) : Nat → List Item → Prop
  | _, [] => True
  | o, it :: rest => it.file = file ∧ it.off = o ∧ Laid file (o + it.nbytes) rest

/-- The bytes of the items together, without wrapping. -/
def total (items : List Item) : Nat := (items.map Item.nbytes).sum

@[simp] theorem total_nil : total [] = 0 := rfl

@[simp] theorem total_cons (it : Item) (items : List Item) :
    total (it :: items) = it.nbytes + total items := rfl

/-- What a span is: its members end to end, and as its length their sum, as far as that
fits. -/
structure Span.Made (sp : Span) : Prop where
  laid : Laid sp.file sp.off sp.members
  off_lt : sp.off < 2 ^ 64
  len_eq : sp.len = total sp.members % 2 ^ 64
  word : ∀ it ∈ sp.members, it.Word
  nonempty : sp.members ≠ []

theorem wsub_wadd {a b : Nat} (ha : a < 2 ^ 64) : wsub ((a + b) % 2 ^ 64) a = b % 2 ^ 64 := by
  unfold wsub
  omega

theorem wsub_eq {a b : Nat} (h : b ≤ a) (ha : a < 2 ^ 64) : wsub a b = a - b := by
  unfold wsub
  omega

theorem wadd_eq {a b : Nat} (h : a + b < 2 ^ 64) : wadd a b = a + b := Nat.mod_eq_of_lt h

/-- What follows on a tensor, in order: it begins where that ends, and nothing has wrapped. -/
theorem follow_laid {prev : Item}
    (hsort : (prev :: items).Pairwise (before · ·))
    (hword : ∀ it ∈ prev :: items, it.Word) {members rest : List Item} {spanEnd : Nat}
    (h : follow prev.file (wadd prev.off prev.nbytes) items = (members, spanEnd, rest)) :
    Laid prev.file prev.off (prev :: members) ∧ members ++ rest = items ∧
      spanEnd = (prev.off + total (prev :: members)) % 2 ^ 64 := by
  induction items generalizing prev members with
  | nil =>
    cases h
    refine ⟨⟨rfl, rfl, trivial⟩, rfl, ?_⟩
    rw [total_cons, total_nil, Nat.add_zero, wadd]
  | cons it items ih =>
    rw [follow] at h
    split at h
    next hnext =>
      rcases hf : follow prev.file (wadd it.off it.nbytes) items with ⟨ms, e, r⟩
      rw [hf] at h
      cases h
      obtain ⟨hfile, hoff⟩ := hnext
      rw [← hfile] at hf
      obtain ⟨hlaid, happ, hend⟩ := ih (List.pairwise_cons.mp hsort).2
        (fun x hx => hword x (List.mem_cons_of_mem _ hx)) hf
      -- it does not lie in front of `prev`, so the end of `prev` has not wrapped
      have hbefore := (List.pairwise_cons.mp hsort).1 it List.mem_cons_self
      have hprev := hword prev List.mem_cons_self
      have hlt := hprev.off_lt
      have hbytes := hprev.nbytes_lt
      have hle : prev.off ≤ it.off := by
        have h := of_decide_eq_true hbefore
        omega
      have hexact : it.off = prev.off + prev.nbytes := by
        unfold wadd at hoff
        omega
      refine ⟨⟨rfl, rfl, ?_⟩, ?_, ?_⟩
      · rw [← hexact, ← hfile]
        exact hlaid
      · rw [List.cons_append, happ]
      · rw [hend, total_cons prev, hexact, Nat.add_assoc]
    next =>
      cases h
      refine ⟨⟨rfl, rfl, trivial⟩, rfl, ?_⟩
      rw [total_cons, total_nil, Nat.add_zero, wadd]

/-- **The spans** have the items as members, in order, and are made of them. -/
theorem coalesceN_made {n : Nat} (hn : items.length ≤ n)
    (hsort : items.Pairwise (before · ·)) (hword : ∀ it ∈ items, it.Word) :
    (coalesceN n items).flatMap Span.members = items ∧ ∀ sp ∈ coalesceN n items, sp.Made := by
  induction n generalizing items with
  | zero =>
    obtain rfl := List.length_eq_zero_iff.mp (Nat.le_zero.mp hn)
    exact ⟨rfl, fun sp hsp => absurd hsp List.not_mem_nil⟩
  | succ n ih =>
    cases items with
    | nil => exact ⟨rfl, fun sp hsp => absurd hsp List.not_mem_nil⟩
    | cons it rest =>
      rcases hf : follow it.file (wadd it.off it.nbytes) rest with ⟨members, spanEnd, tail⟩
      obtain ⟨hlaid, happ, hend⟩ := follow_laid hsort hword hf
      have hsub : tail.Sublist rest := happ ▸ List.sublist_append_right members tail
      have hsort' := (List.pairwise_cons.mp hsort).2.sublist hsub
      obtain ⟨hflat, hmade⟩ := ih
        (Nat.le_trans hsub.length_le (Nat.le_of_succ_le_succ hn)) hsort'
        (fun x hx => hword x (List.mem_cons_of_mem _ (hsub.subset hx)))
      rw [coalesceN, hf]
      refine ⟨?_, fun sp hsp => ?_⟩
      · rw [List.flatMap_cons, hflat, List.cons_append, happ]
      · rcases List.mem_cons.mp hsp with rfl | hsp
        · have hoff := (hword it List.mem_cons_self).off_lt
          refine ⟨hlaid, hoff, ?_, fun x hx => ?_, List.cons_ne_nil _ _⟩
          · show wsub spanEnd it.off = _
            rw [hend, wsub_wadd hoff]
          · rcases List.mem_cons.mp hx with rfl | hx
            · exact hword _ List.mem_cons_self
            · exact hword x (List.mem_cons_of_mem _ (happ ▸ List.mem_append_left _ hx))
        · exact hmade sp hsp

/-- **What is asked for is in one span each**, and every span is made of its members. -/
theorem spansOf_made (hword : ∀ it ∈ items, it.Word) :
    ((spansOf items).flatMap Span.members).Perm items ∧ ∀ sp ∈ spansOf items, sp.Made := by
  have hperm : (order items).Perm items := List.mergeSort_perm items before
  have hsort : (order items).Pairwise (before · ·) := by
    refine List.pairwise_mergeSort ?_ ?_ items
    · intro a b c hab hbc
      have hab := of_decide_eq_true hab
      have hbc := of_decide_eq_true hbc
      refine decide_eq_true ?_
      omega
    · intro a b
      unfold before
      rw [Bool.or_eq_true, decide_eq_true_iff, decide_eq_true_iff]
      omega
  obtain ⟨hflat, hmade⟩ := coalesceN_made (Nat.le_refl _) hsort
    fun it hit => hword it (hperm.subset hit)
  exact ⟨by rw [spansOf, coalesce, hflat]; exact hperm, hmade⟩

/-! ## Where a member is -/

theorem laid_mem {file o : Nat} (h : Laid file o items) {it : Item}
    (hit : it ∈ items) : it.file = file ∧ o ≤ it.off ∧ it.off + it.nbytes ≤ o + total items := by
  induction items generalizing o with
  | nil => exact absurd hit List.not_mem_nil
  | cons x rest ih =>
    obtain ⟨hfile, hoff, hrest⟩ := h
    rw [total_cons]
    rcases List.mem_cons.mp hit with rfl | hit
    · exact ⟨hfile, by omega, by omega⟩
    · obtain ⟨hf, hlow, hhigh⟩ := ih hrest hit
      exact ⟨hf, by omega, by omega⟩

/-- The last member ends where the span does. -/
theorem laid_last {file o : Nat} (h : Laid file o items) (hne : items ≠ []) :
    ∃ it ∈ items, it.off + it.nbytes = o + total items := by
  induction items generalizing o with
  | nil => exact absurd rfl hne
  | cons x rest ih =>
    obtain ⟨-, hoff, hrest⟩ := h
    rw [total_cons]
    rcases rest with _ | ⟨y, rest⟩
    · exact ⟨x, List.mem_cons_self, by rw [hoff, total_nil, Nat.add_zero]⟩
    · obtain ⟨it, hit, hend⟩ := ih hrest (List.cons_ne_nil _ _)
      exact ⟨it, List.mem_cons_of_mem _ hit, by omega⟩

/-- Members that are in the file make up a span that is. -/
theorem laid_inside {file o n : Nat} (h : Laid file o items)
    (hin : ∀ it ∈ items, it.nbytes = 0 ∨ it.off + it.nbytes ≤ n) :
    total items = 0 ∨ o + total items ≤ n := by
  induction items generalizing o with
  | nil => exact .inl rfl
  | cons x rest ih =>
    obtain ⟨-, hoff, hrest⟩ := h
    have hx := hin x List.mem_cons_self
    have htail := ih hrest fun it hit => hin it (List.mem_cons_of_mem _ hit)
    rw [total_cons]
    omega

end Colibri.Safetensors
