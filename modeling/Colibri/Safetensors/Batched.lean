import Colibri.Safetensors.Shared

/-!
# Reading many groups at once

`read_raw_shared_batched` makes the same spans of each group that `read_raw_shared` makes,
sets up a place for every one of them (`Setup`), and lets one crew of threads drain all the
reads (`Drained`). Under `O_DIRECT` a read has to begin, end and land on multiples of 512, so
the span is widened to the multiples around it, and its place has room to be moved to one.

What the batch is compared with is each group read alone (`AsAlone`): the same views if all
groups are read, an error if one ends in an error. Three facts decide it.

> `batched_same`: each view is the range it would be for the group alone, moved by what the
> span was widened by in front.

> `batched_of_not_readable`: if some group cannot be read, neither can the batch. It is an
> error, or a panic if a span is too long for a buffer: the places of all spans are made
> before anything is read, so such a span is met even where the group alone fails before it
> (`setup_panic_iff`).

> `readable_of_batched`: a batch that returns has read everything, widened, from inside its
> file.

So there are two ways to differ. A read that is widened past the end of its file fails,
where the group alone is read: the span's own end is in the file, the end of its last 512
bytes is not. And a tensor that ends before it begins turns an error into a panic. The main
result, `read_raw_shared_batched_spec`, says exactly when neither happens. Under `O_DIRECT`
it leaves out spans whose lengths have a sum near `2 ^ 63` or beyond.
-/

namespace Colibri.Safetensors

open Batch Drain

def dioAlign : Nat := 512

/-- `parse_sub_kb`, on the number of the setting. -/
def parseSubKb (v : Option Nat) : Nat :=
  ((v.map fun kb => min (kb * 1024) (2 ^ 64 - 1) / 512 * 512).filter fun b => 512 ≤ b).getD (2 ^ 21)

def nextMultipleOf (x n : Nat) : Nat := if x % n = 0 then x else wadd x (n - x % n)

section

variable (dio : Bool)

/-- `pad`: how far in front of the span the read begins. -/
def Span.pad (sp : Span) : Nat := if dio then sp.off % dioAlign else 0

def Span.readOff (sp : Span) : Nat := sp.off - sp.pad dio

def Span.readLen (sp : Span) : Nat :=
  if dio then nextMultipleOf (wadd (sp.pad dio) sp.len) dioAlign else sp.len

/-- What `with_len` is asked for. -/
def Span.bufLen (sp : Span) : Nat := wadd (sp.readLen dio) (if dio then dioAlign else 0)

/-- `Span` of the batch: where the read begins and how long it is, how far from the start of
the buffer it lands, and the buffer. -/
structure Slot where
  readOff : Nat
  readLen : Nat
  skew : Nat
  view : Bool
  buf : List UInt8

/-- A place for a span: a view of the mapping, or a buffer at the address `addr`. -/
inductive SlotOf (s : Shards) (sp : Span) : Slot → Prop where
  | mapped (hlen : 0 < sp.len) (hin : sp.off + sp.len ≤ (s.file sp.file).length) :
    SlotOf s sp ⟨sp.off, 0, 0, true, s.slice sp⟩
  | alloc (stale : List UInt8) (addr : Nat) (hlen : sp.bufLen dio < 2 ^ 63)
    (hstale : stale.length = sp.bufLen dio) :
    SlotOf s sp ⟨sp.readOff dio, sp.readLen dio,
      if dio then (dioAlign - addr % dioAlign) % dioAlign else 0, false, stale⟩

/-- A span of the batch: `span_idx`, the span and its place. -/
structure Part where
  idx : Nat
  span : Span
  slot : Slot

/-- A group's names, and its spans. -/
structure Group where
  n : Nat
  parts : List Part

/-- The groups one after another; `base` spans are there already. -/
inductive Setup (s : Shards) :
    Nat → List (List (List Char)) → Outcome IoError (List Group) → Prop where
  | nil (base : Nat) : Setup s base [] (.ok [])
  | missing (base : Nat) (names : List (List Char)) (groups : List (List (List Char)))
    (h : s.items names = none) : Setup s base (names :: groups) (.error .notFound)
  | overflow (base : Nat) (names : List (List Char)) (groups : List (List (List Char)))
    (items : List Item) (sp : Span) (h : s.items names = some items) (hsp : sp ∈ spansOf items)
    (hlen : 2 ^ 63 ≤ sp.bufLen dio) : Setup s base (names :: groups) .panic
  | cons (base : Nat) (names : List (List Char)) (groups : List (List (List Char)))
    (items : List Item) (parts : List Part) (out : Outcome IoError (List Group))
    (h : s.items names = some items) (hspan : parts.map Part.span = spansOf items)
    (hidx : parts.map Part.idx = List.range' base parts.length)
    (hslot : ∀ p ∈ parts, SlotOf dio s p.span p.slot)
    (hrest : Setup s (base + parts.length) groups out) :
    Setup s base (names :: groups) (out.bind fun gs => .ok (⟨names.length, parts⟩ :: gs))

end

/-- The jobs of one span: its read in tiles of `sub`. -/
def Part.jobs (s : Shards) (sub : Nat) (p : Part) : List (Job UInt8) :=
  if p.slot.view then []
  else (tiles sub p.slot.readLen).map fun c =>
    ⟨s.file p.span.file, wadd p.slot.readOff c.1, p.idx, p.slot.skew + c.1, c.2⟩

def jobs (s : Shards) (sub : Nat) (parts : List Part) : List (Job UInt8) :=
  parts.flatMap (Part.jobs s sub)

/-- `prefix`: how far from the start of the buffer the span begins. -/
def Part.lead (dio : Bool) (p : Part) : Nat :=
  if p.slot.view then 0 else p.slot.skew + p.span.pad dio

/-- The views of a span's members. -/
def Part.views (dio : Bool) (bufs : List (List UInt8)) (p : Part) : List (Nat × View) :=
  p.span.members.map fun it =>
    (it.idx, ⟨bufs.getD p.idx [], wadd (p.lead dio) (wsub it.off p.span.off), it.nbytes⟩)

/-- `out` -/
def collect (dio : Bool) (bufs : List (List UInt8)) (gs : List Group) : Option (List (List View)) :=
  gs.mapM fun g => assemble g.n (g.parts.flatMap (Part.views dio bufs))

/-- The threads of a batch, to their end. -/
def Drained (s : Shards) (sub nthreads : Nat) (parts : List Part) (trace : List Event)
    (st : State UInt8) : Prop :=
  Lts.Run (Step (jobs s sub parts) False)
    (.waiting (parts.map fun p => p.slot.buf) (min (max nthreads 1) (jobs s sub parts).length))
    trace st ∧ st.Finished

/-- `read_raw_shared_batched`, with the spans it has set up. -/
inductive ReadBatched (s : Shards) (dio : Bool) (sub nthreads : Nat)
    (groups : List (List (List Char))) : List Part → Outcome IoError (List (List View)) → Prop where
  | error (e : IoError) (h : Setup dio s 0 groups (.error e)) :
    ReadBatched s dio sub nthreads groups [] (.error e)
  | panic (h : Setup dio s 0 groups .panic) : ReadBatched s dio sub nthreads groups [] .panic
  | drained (gs : List Group) (parts : List Part) (trace : List Event) (st : State UInt8)
    (h : Setup dio s 0 groups (.ok gs)) (hparts : parts = gs.flatMap Group.parts)
    (hrun : Drained s sub nthreads parts trace st) :
    ReadBatched s dio sub nthreads groups parts
      (if st.failed then .error .unexpectedEof else .ofOption (collect dio st.bufs gs))

/-! ## What it is compared with -/

/-- The same bytes, and as many. -/
def View.Same (v w : View) : Prop := v.len = w.len ∧ v.bytes = w.bytes

/-- **As for each group alone**: if all of them are read, the same views; if one ends in an
error, an error, and no panic; if one panics, no views. -/
def AsAlone (s : Shards) (groups : List (List (List Char)))
    (out : Outcome IoError (List (List View))) : Prop :=
  ∀ (nthreads : Nat) (alone : List (Outcome IoError (List View))),
    List.Forall₂ (ReadRawShared s False nthreads) groups alone →
      (∀ vss, alone = vss.map .ok → ∃ wss, out = .ok wss ∧
        List.Forall₂ (List.Forall₂ View.Same) wss vss) ∧
      ((∃ e, .error e ∈ alone) → ∃ e, out = .error e) ∧
      (.panic ∈ alone → ∀ wss, out ≠ .ok wss)

/-- A span of the batch is too long for a buffer, and no name is missing before it: the groups
are set up one after another, and of each the names are looked up first. -/
def Shards.TooLong (s : Shards) (dio : Bool) (groups : List (List (List Char))) : Prop :=
  ∃ pre names post items, groups = pre ++ names :: post ∧ (∀ g ∈ pre, s.items g ≠ none) ∧
    s.items names = some items ∧ ∃ sp ∈ spansOf items, 2 ^ 63 ≤ sp.bufLen dio

/-- No lengths that are read in one go have a sum near the largest buffer there is. -/
def Shards.Sane (s : Shards) (groups : List (List (List Char))) : Prop :=
  ∀ names ∈ groups, ∀ items, s.items names = some items → ∀ sp ∈ spansOf items,
    total sp.members + 3 * dioAlign < 2 ^ 63

/-- What is read for the span is in its file. -/
def Part.InFile (s : Shards) (p : Part) : Prop :=
  p.slot.readLen = 0 ∨ p.slot.readOff + p.slot.readLen ≤ (s.file p.span.file).length

/-! ## Widening a span -/

section

variable {s : Shards} {dio : Bool} {sp : Span}

theorem pad_le (dio : Bool) (sp : Span) : sp.pad dio ≤ sp.off ∧ sp.pad dio < dioAlign := by
  unfold Span.pad
  split
  · exact ⟨Nat.mod_le _ _, Nat.mod_lt _ (by decide)⟩
  · exact ⟨Nat.zero_le _, by decide⟩

theorem len_lt (hmade : sp.Made) : sp.len < 2 ^ 64 := hmade.len_eq ▸ Nat.mod_lt _ (by decide)

theorem bufLen_buffered (hmade : sp.Made) : sp.bufLen false = sp.len := by
  have hlt := len_lt hmade
  exact Nat.mod_eq_of_lt hlt

theorem nextMultipleOf_bounds {x n : Nat} (hn : 0 < n) (h : x + n < 2 ^ 64) :
    x ≤ nextMultipleOf x n ∧ nextMultipleOf x n < x + n := by
  have hmod := Nat.mod_lt x hn
  unfold nextMultipleOf
  split
  · omega
  · rw [wadd_eq (by omega)]
    omega

/-- Of a span of sane length the read is the least that holds it. -/
theorem readLen_direct (hmade : sp.Made) (hsane : total sp.members + 3 * dioAlign < 2 ^ 63) :
    sp.pad true + sp.len ≤ sp.readLen true ∧ sp.readLen true < sp.pad true + sp.len + dioAlign ∧
      sp.bufLen true = sp.readLen true + dioAlign ∧ sp.bufLen true < 2 ^ 63 := by
  have hpad := (pad_le true sp).2
  have hlen := hmade.len_eq
  rw [Nat.mod_eq_of_lt (by omega)] at hlen
  have halign : dioAlign = 512 := rfl
  have hsum : wadd (sp.pad true) sp.len = sp.pad true + sp.len := wadd_eq (by omega)
  have hread : sp.readLen true = nextMultipleOf (sp.pad true + sp.len) dioAlign := by
    rw [Span.readLen, if_pos rfl, hsum]
  obtain ⟨hlow, hhigh⟩ := nextMultipleOf_bounds (x := sp.pad true + sp.len) (n := dioAlign)
    (by decide) (by omega)
  rw [← hread] at hlow hhigh
  have hbuf : sp.bufLen true = sp.readLen true + dioAlign :=
    wadd_eq (a := sp.readLen true) (b := dioAlign) (by omega)
  refine ⟨hlow, hhigh, hbuf, ?_⟩
  rw [hbuf]
  omega

/-- What the call can cope with: the buffered mode, or sums that leave room. -/
def Copes (dio : Bool) (sp : Span) : Prop :=
  dio = false ∨ total sp.members + 3 * dioAlign < 2 ^ 63

theorem pad_buffered (sp : Span) : sp.pad false = 0 := rfl

theorem readOff_add_pad (dio : Bool) (sp : Span) : sp.readOff dio + sp.pad dio = sp.off :=
  Nat.sub_add_cancel (pad_le dio sp).1

/-- The read holds the span. -/
theorem pad_add_len_le (hmade : sp.Made) (h : Copes dio sp) :
    sp.pad dio + sp.len ≤ sp.readLen dio := by
  rcases h with rfl | hsane
  · exact Nat.le_of_eq (Nat.zero_add _)
  · cases dio with
    | false => exact Nat.le_of_eq (Nat.zero_add _)
    | true => exact (readLen_direct hmade hsane).1

/-- The buffer has room for the read, wherever it has to land. -/
theorem slot_fits (hmade : sp.Made) (h : Copes dio sp) {slot : Slot} (hslot : SlotOf dio s sp slot)
    (hview : slot.view = false) : slot.skew + slot.readLen ≤ slot.buf.length := by
  cases hslot with
  | mapped => cases hview
  | alloc stale addr hlen hstale =>
    dsimp only
    rw [hstale]
    cases dio with
    | false =>
      rw [bufLen_buffered hmade]
      exact Nat.le_of_eq (Nat.zero_add _)
    | true =>
      obtain hfalse | hsane := h
      · cases hfalse
      · have hbuf := (readLen_direct hmade hsane).2.2.1
        have hskew : (dioAlign - addr % dioAlign) % dioAlign < dioAlign := Nat.mod_lt _ (by decide)
        rw [hbuf, if_pos rfl]
        omega

theorem span_inFile (hmade : sp.Made) (h : Copes dio sp) {n : Nat}
    (hin : sp.readLen dio = 0 ∨ sp.readOff dio + sp.readLen dio ≤ n) :
    sp.len = 0 ∨ sp.off + sp.len ≤ n := by
  have hle := pad_add_len_le hmade h
  have hoff := readOff_add_pad dio sp
  omega

end

/-! ## The set-up -/

section

variable {s : Shards} {dio : Bool}

/-- What a group has been set up as. -/
structure Group.For (s : Shards) (dio : Bool) (names : List (List Char)) (items : List Item)
    (g : Group) : Prop where
  items_eq : s.items names = some items
  n_eq : g.n = names.length
  span_eq : g.parts.map Part.span = spansOf items
  slot : ∀ p ∈ g.parts, SlotOf dio s p.span p.slot

/-- What a setup that returns has made of each group. -/
theorem setup_ok {base : Nat} {groups : List (List (List Char))} {gs : List Group}
    (h : Setup dio s base groups (.ok gs)) :
    List.Forall₂ (fun names g => ∃ items, g.For s dio names items) groups gs ∧
      (gs.flatMap Group.parts).map Part.idx = List.range' base (gs.flatMap Group.parts).length := by
  generalize hout : Outcome.ok gs = out at h
  induction h generalizing gs with
  | nil base =>
    cases hout
    exact ⟨.nil, rfl⟩
  | missing base names groups h => cases hout
  | overflow base names groups items sp h hsp hlen => cases hout
  | cons base names groups items parts out h hspan hidx hslot _ ih =>
    cases out with
    | error e => cases hout
    | panic => cases hout
    | ok rest =>
      cases hout
      obtain ⟨hfor, hrest⟩ := ih rfl
      refine ⟨.cons ⟨items, h, rfl, hspan, hslot⟩ hfor, ?_⟩
      rw [List.flatMap_cons, List.map_append, hidx, hrest, List.length_append,
        List.range'_append_1]

/-- A set-up that did not come to an end met a name that is not there, or a span that is too
long. -/
theorem setup_not_ok {base : Nat} {groups : List (List (List Char))}
    {out : Outcome IoError (List Group)} (h : Setup dio s base groups out)
    (hnot : ∀ gs, out ≠ .ok gs) : ∃ names ∈ groups, s.items names = none ∨
      ∃ items, s.items names = some items ∧ ∃ sp ∈ spansOf items, 2 ^ 63 ≤ sp.bufLen dio := by
  induction h with
  | nil base => exact absurd rfl (hnot [])
  | missing base names groups h => exact ⟨names, List.mem_cons_self, .inl h⟩
  | overflow base names groups items sp h hsp hlen =>
    exact ⟨names, List.mem_cons_self, .inr ⟨items, h, sp, hsp, hlen⟩⟩
  | cons base names groups items parts out h hspan hidx hslot _ ih =>
    cases out with
    | ok rest => exact absurd rfl (hnot _)
    | error e =>
      obtain ⟨nm, hnm, hwhy⟩ := ih fun gs => nofun
      exact ⟨nm, List.mem_cons_of_mem _ hnm, hwhy⟩
    | panic =>
      obtain ⟨nm, hnm, hwhy⟩ := ih fun gs => nofun
      exact ⟨nm, List.mem_cons_of_mem _ hnm, hwhy⟩

end

/-! ## The jobs -/

theorem parseSubKb_pos (v : Option Nat) : 0 < parseSubKb v := by
  unfold parseSubKb
  rcases h : (v.map fun kb => min (kb * 1024) (2 ^ 64 - 1) / 512 * 512).filter
    (fun b => 512 ≤ b) with _ | b
  · rw [h]
    exact (by decide : 0 < 2 ^ 21)
  · have hb := of_decide_eq_true (Option.filter_eq_some_iff.mp h).2
    rw [h]
    exact Nat.lt_of_lt_of_le (by decide : 0 < 512) hb

/-- The parts are in their places, and each has its room. -/
structure Placed (s : Shards) (dio : Bool) (parts : List Part) : Prop where
  idx_eq : parts.map Part.idx = List.range parts.length
  made : ∀ p ∈ parts, p.span.Made
  slot : ∀ p ∈ parts, SlotOf dio s p.span p.slot

section

variable {s : Shards} {dio : Bool} {sub : Nat} {parts : List Part}

theorem Placed.get (h : Placed s dio parts) {p : Part} (hp : p ∈ parts) :
    parts[p.idx]? = some p := by
  obtain ⟨k, hk⟩ := List.mem_iff_getElem?.mp hp
  have hidx := congrArg (fun l => l[k]?) h.idx_eq
  have hlt := (List.getElem?_eq_some_iff.mp hk).1
  simp only [List.getElem?_map, hk, Option.map_some, List.getElem?_range hlt,
    Option.some.injEq] at hidx
  rw [hidx]
  exact hk

theorem mem_jobs {job : Job UInt8} : job ∈ jobs s sub parts ↔ ∃ p ∈ parts,
    p.slot.view = false ∧ ∃ c ∈ tiles sub p.slot.readLen, job =
      ⟨s.file p.span.file, wadd p.slot.readOff c.1, p.idx, p.slot.skew + c.1, c.2⟩ := by
  unfold jobs
  rw [List.mem_flatMap]
  refine exists_congr fun p => and_congr_right fun _ => ?_
  unfold Part.jobs
  cases p.slot.view with
  | true => simp
  | false => simp [eq_comm]

theorem jobs_fits (hsub : 0 < sub) (h : Placed s dio parts)
    (hcope : ∀ p ∈ parts, Copes dio p.span) :
    Fits (jobs s sub parts) (parts.map fun p => p.slot.buf) := by
  intro job hjob
  obtain ⟨p, hp, hview, c, hc, rfl⟩ := mem_jobs.mp hjob
  refine ⟨p.slot.buf, ?_, ?_⟩
  · dsimp only
    rw [List.getElem?_map, h.get hp]
    rfl
  · have hroom := slot_fits (h.made p hp) (hcope p hp) (h.slot p hp) hview
    have hle := (tiles_bounds hsub hc).2
    dsimp only
    omega

/-- No two reads write the same byte. -/
theorem jobs_apart (hsub : 0 < sub) (h : Placed s dio parts) : Apart (jobs s sub parts) := by
  refine apart_of_pairwise (List.pairwise_flatMap.mpr ⟨fun p _ => ?_, ?_⟩)
  · -- in one buffer: the tiles
    unfold Part.jobs
    split
    · exact List.Pairwise.nil
    · refine List.pairwise_map.mpr ((tiles_pairwise hsub).imp ?_)
      rintro a b hab k y ⟨-, -, hlt⟩ ⟨-, hle, -⟩
      dsimp only at hlt hle
      omega
  · -- in two: the places of the buffers
    have hnodup : (parts.map Part.idx).Nodup := h.idx_eq ▸ List.nodup_range
    refine (List.pairwise_map.mp hnodup).imp ?_
    intro p q hne a ha b hb k y hka hkb
    have hidx : ∀ (p : Part) (job : Job UInt8), job ∈ p.jobs s sub → job.buf = p.idx := by
      intro p job hjob
      unfold Part.jobs at hjob
      split at hjob
      · exact absurd hjob List.not_mem_nil
      · obtain ⟨c, -, rfl⟩ := List.mem_map.mp hjob
        rfl
    exact hne ((hidx p a ha).symm.trans (hka.1.trans (hkb.1.symm.trans (hidx q b hb))))

/-! ## What the threads leave -/

variable {nthreads : Nat} {trace : List Event} {st : State UInt8}

theorem inv_start (js : List (Job UInt8)) (bufs : List (List UInt8)) (nthreads : Nat) :
    Inv js False bufs [] (.waiting bufs (min (max nthreads 1) js.length)) fun _ => 0 := by
  cases js with
  | cons j js => exact inv_waiting (by rw [List.length_cons]; omega)
  | nil =>
    have hnone : min (max nthreads 1) ([] : List (Job UInt8)).length = 0 := Nat.min_zero _
    rw [hnone]
    refine ⟨fun _ _ => rfl, nofun, nofun, nofun, nofun, nofun, fun _ _ _ => rfl, rfl, nofun,
      fun _ _ => rfl, nofun, nofun, fun hne => absurd rfl hne⟩

theorem drained_inv (hsub : 0 < sub) (h : Placed s dio parts)
    (hcope : ∀ p ∈ parts, Copes dio p.span)
    (hrun : Drained s sub nthreads parts trace st) :
    ∃ prog, Inv (jobs s sub parts) False (parts.map fun p => p.slot.buf) trace st prog :=
  inv_of_run (jobs_fits hsub h hcope) (jobs_apart hsub h) (inv_start ..) hrun.1

/-- A buffer is as long as it was. -/
theorem drained_buf (hsub : 0 < sub) (h : Placed s dio parts)
    (hcope : ∀ p ∈ parts, Copes dio p.span)
    (hrun : Drained s sub nthreads parts trace st) {p : Part} (hp : p ∈ parts) :
    ∃ b, st.bufs[p.idx]? = some b ∧ b.length = p.slot.buf.length := by
  obtain ⟨prog, hinv⟩ := drained_inv hsub h hcope hrun
  have hsize := congrArg (fun l => l[p.idx]?) hinv.sizes
  simp only [List.getElem?_map, h.get hp, Option.map_some, Option.map_eq_some_iff] at hsize
  exact hsize

/-- A view is left alone. -/
theorem drained_view (hsub : 0 < sub) (h : Placed s dio parts)
    (hcope : ∀ p ∈ parts, Copes dio p.span)
    (hrun : Drained s sub nthreads parts trace st) {p : Part} (hp : p ∈ parts)
    (hview : p.slot.view = true) : st.bufs.getD p.idx [] = p.slot.buf := by
  obtain ⟨prog, hinv⟩ := drained_inv hsub h hcope hrun
  obtain ⟨b, hb, -⟩ := drained_buf hsub h hcope hrun hp
  rw [List.getD_eq_getElem?_getD, hb]
  refine List.ext_getElem? fun y => ?_
  have hkept := hinv.kept p.idx y fun job hjob hhas => by
    obtain ⟨q, hq, hread, c, -, rfl⟩ := mem_jobs.mp hjob
    have hidx : q.idx = p.idx := hhas.1
    have hsame := h.get hq
    rw [hidx, h.get hp] at hsame
    cases hsame
    rw [hview] at hread
    cases hread
  unfold cell at hkept
  rw [hb, List.getElem?_map, h.get hp] at hkept
  exact hkept

/-- **What was read for a span is in its file, and in its buffer**, where the read lands. -/
theorem drained_read (hsub : 0 < sub) (h : Placed s dio parts)
    (hcope : ∀ p ∈ parts, Copes dio p.span)
    (hrun : Drained s sub nthreads parts trace st) (hok : st.failed = false) {p : Part}
    (hp : p ∈ parts) (hview : p.slot.view = false) (hoff : p.slot.readOff < 2 ^ 64)
    (hlen : p.slot.readLen < 2 ^ 63) : p.InFile s ∧ ∀ y < p.slot.readLen,
      (st.bufs.getD p.idx [])[p.slot.skew + y]? = (s.file p.span.file)[p.slot.readOff + y]? := by
  obtain ⟨prog, hinv⟩ := drained_inv hsub h hcope hrun
  have hfile := file_length_lt s p.span.file
  have hmem : ∀ c ∈ tiles sub p.slot.readLen, (⟨s.file p.span.file, wadd p.slot.readOff c.1, p.idx,
      p.slot.skew + c.1, c.2⟩ : Job UInt8) ∈ jobs s sub parts :=
    fun c hc => mem_jobs.mpr ⟨p, hp, hview, c, hc, rfl⟩
  have hin := (pieces_inside_iff hoff hlen hfile (fun c hc => (tiles_bounds hsub hc).2)
    fun y hy => tiles_cover hsub hy).mp fun c hc => hinv.inside hrun.2 hok _ (hmem c hc)
  refine ⟨hin, fun y hy => ?_⟩
  obtain ⟨c, hc, hlow, hhigh⟩ := tiles_cover hsub hy
  have hcell := hinv.cell_eq hrun.2 hok (hmem c hc) (x := y - c.1) (by dsimp only; omega)
  have hplace : p.slot.skew + c.1 + (y - c.1) = p.slot.skew + y := by omega
  obtain ⟨b, hb, -⟩ := drained_buf hsub h hcope hrun hp
  dsimp only at hcell
  rw [hplace, piece_source hfile hin hlow hy, cell, hb] at hcell
  rw [List.getD_eq_getElem?_getD, hb]
  exact hcell

/-- If all that has to be read is in its file, there is no error. -/
theorem drained_not_failed (hsub : 0 < sub) (h : Placed s dio parts)
    (hcope : ∀ p ∈ parts, Copes dio p.span) (hrun : Drained s sub nthreads parts trace st)
    (hin : ∀ p ∈ parts, p.slot.view = false → p.slot.readOff < 2 ^ 64 ∧ p.slot.readLen < 2 ^ 63 ∧
      p.InFile s) : st.failed = false := by
  obtain ⟨prog, hinv⟩ := drained_inv hsub h hcope hrun
  by_contra hfailed
  rcases hinv.failure (Bool.eq_true_of_not_eq_false hfailed) with he | ⟨job, hjob, hnot⟩
  · exact he
  · obtain ⟨p, hp, hview, c, hc, rfl⟩ := mem_jobs.mp hjob
    obtain ⟨hoff, hlen, hinside⟩ := hin p hp hview
    exact hnot ((pieces_inside_iff hoff hlen (file_length_lt s p.span.file)
      (fun c hc => (tiles_bounds hsub hc).2) fun y hy => tiles_cover hsub hy).mpr hinside c hc)

theorem exists_drained (hsub : 0 < sub) (h : Placed s dio parts)
    (hcope : ∀ p ∈ parts, Copes dio p.span) (nthreads : Nat) :
    ∃ trace st, Drained s sub nthreads parts trace st := by
  obtain ⟨trace, st, hrun, hfin⟩ := exists_finished (jobs_fits hsub h hcope) (jobs_apart hsub h)
    (inv_start (jobs s sub parts) (parts.map fun p => p.slot.buf) nthreads) .start
  exact ⟨_, st, hrun, hfin⟩

end

/-! ## The views -/

section

variable {s : Shards} {dio : Bool} {sub nthreads : Nat} {parts : List Part} {trace : List Event}
  {st : State UInt8}

theorem slot_read {sp : Span} (hmade : sp.Made) (hcope : Copes dio sp) {slot : Slot}
    (hslot : SlotOf dio s sp slot) (hview : slot.view = false) :
    slot.readOff = sp.readOff dio ∧ slot.readLen = sp.readLen dio ∧ slot.readLen < 2 ^ 63 ∧
      slot.skew < dioAlign ∧ (dio = false → slot.skew = 0) := by
  have hfits := slot_fits hmade hcope hslot hview
  cases hslot with
  | mapped => cases hview
  | alloc stale addr hlen hstale =>
    dsimp only at hfits ⊢
    rw [hstale] at hfits
    refine ⟨rfl, rfl, by omega, ?_, fun h => by rw [if_neg (by simp [h])]⟩
    split
    · exact Nat.mod_lt _ (by decide)
    · exact (by decide : 0 < 512)

/-- The span is in its file, and its bytes are where its views look for them. -/
theorem part_bytes (hsub : 0 < sub) (h : Placed s dio parts) (hcope : ∀ p ∈ parts, Copes dio p.span)
    (hrun : Drained s sub nthreads parts trace st) (hok : st.failed = false) {p : Part}
    (hp : p ∈ parts) : p.span.InFile s ∧ ∀ y < p.span.len,
      (st.bufs.getD p.idx [])[p.lead dio + y]? = (s.slice p.span)[y]? := by
  have hmade := h.made p hp
  cases hview : p.slot.view with
  | true =>
    have hbuf := drained_view hsub h hcope hrun hp hview
    have hslot := h.slot p hp
    unfold Part.lead
    rw [hbuf, hview, if_pos rfl]
    generalize p.slot = slot at hslot hview
    cases hslot with
    | mapped hlen hin => exact ⟨.inr hin, fun y _ => by rw [Nat.zero_add]⟩
    | alloc => cases hview
  | false =>
    obtain ⟨hoff, hlen, hlt, -, -⟩ := slot_read hmade (hcope p hp) (h.slot p hp) hview
    obtain ⟨hin, hread⟩ := drained_read hsub h hcope hrun hok hp hview
      (hoff ▸ Nat.lt_of_le_of_lt (Nat.sub_le _ _) hmade.off_lt) hlt
    have hle := pad_add_len_le hmade (hcope p hp)
    have hpad := readOff_add_pad dio p.span
    unfold Part.InFile at hin
    rw [hoff, hlen] at hin
    refine ⟨span_inFile hmade (hcope p hp) hin, fun y hy => ?_⟩
    have hat := hread (p.span.pad dio + y) (by rw [hlen]; omega)
    rw [Shards.slice, List.getElem?_take_of_lt hy, List.getElem?_drop, Part.lead, hview,
      if_neg Bool.false_ne_true, Nat.add_assoc, hat, hoff, ← Nat.add_assoc, hpad]

/-- **A member's view is the one it would be alone.** -/
theorem member_same (hsub : 0 < sub) (h : Placed s dio parts)
    (hcope : ∀ p ∈ parts, Copes dio p.span)
    (hrun : Drained s sub nthreads parts trace st) (hok : st.failed = false) {p : Part}
    (hp : p ∈ parts) {it : Item} (hit : it ∈ p.span.members) :
    View.Same ⟨st.bufs.getD p.idx [], wadd (p.lead dio) (wsub it.off p.span.off), it.nbytes⟩
      ⟨s.slice p.span, wsub it.off p.span.off, it.nbytes⟩ := by
  have hmade := h.made p hp
  obtain ⟨hin, hbytes⟩ := part_bytes hsub h hcope hrun hok hp
  obtain ⟨b, hb, hblen⟩ := drained_buf hsub h hcope hrun hp
  have hwsub : wsub it.off p.span.off < 2 ^ 64 := Nat.mod_lt _ (by decide)
  refine ⟨rfl, ?_⟩
  rcases hcope p hp with rfl | hsane
  · -- the buffer holds the span and nothing else, so the view is the same view
    have hlead : p.lead false = 0 ∧ (st.bufs.getD p.idx []).length = p.span.len := by
      rw [List.getD_eq_getElem?_getD, hb]
      show _ ∧ b.length = _
      rw [hblen]
      cases hview : p.slot.view with
      | true =>
        have hslot := h.slot p hp
        unfold Part.lead
        generalize p.slot = slot at hslot hview
        cases hslot with
        | mapped => exact ⟨rfl, length_slice hin⟩
        | alloc => cases hview
      | false =>
        have hskew := (slot_read hmade (.inl rfl) (h.slot p hp) hview).2.2.2.2 rfl
        have hslot := h.slot p hp
        unfold Part.lead
        rw [hview, if_neg Bool.false_ne_true, hskew, pad_buffered]
        refine ⟨rfl, ?_⟩
        generalize p.slot = slot at hslot hview
        cases hslot with
        | mapped => cases hview
        | alloc stale addr hlen hstale => exact hstale.trans (bufLen_buffered hmade)
    have hwhole : st.bufs.getD p.idx [] = s.slice p.span := by
      refine List.ext_getElem? fun y => ?_
      by_cases hy : y < p.span.len
      · have hat := hbytes y hy
        rw [hlead.1, Nat.zero_add] at hat
        exact hat
      · rw [List.getElem?_eq_none (by omega), List.getElem?_eq_none]
        rw [length_slice hin]
        omega
    rw [hwhole, hlead.1]
    have hzero : wadd 0 (wsub it.off p.span.off) = wsub it.off p.span.off := by
      rw [wadd, Nat.zero_add, Nat.mod_eq_of_lt hwsub]
    rw [hzero]
  · -- the view is inside the span, and the span inside the buffer
    have htotal : total p.span.members < 2 ^ 64 := by omega
    rw [member_bytes hmade hin htotal hit]
    obtain ⟨hfile, hlow, hhigh⟩ := laid_mem hmade.laid hit
    have hlen := hmade.len_eq
    rw [Nat.mod_eq_of_lt htotal] at hlen
    have hoff := wsub_eq hlow (hmade.word it hit).off_lt
    have hroom : p.lead dio + p.span.len ≤ b.length ∧ p.lead dio < 2 * dioAlign := by
      rw [hblen]
      cases hview : p.slot.view with
      | true =>
        have hslot := h.slot p hp
        unfold Part.lead
        generalize p.slot = slot at hslot hview
        cases hslot with
        | mapped =>
          rw [if_pos rfl, length_slice hin]
          exact ⟨Nat.le_of_eq (Nat.zero_add _), by decide⟩
        | alloc => cases hview
      | false =>
        obtain ⟨-, hread, -, hskew, -⟩ := slot_read hmade (.inr hsane) (h.slot p hp) hview
        have hfits := slot_fits hmade (.inr hsane) (h.slot p hp) hview
        have hle : p.span.pad dio + p.span.len ≤ p.span.readLen dio :=
          pad_add_len_le hmade (.inr hsane)
        have hpad := (pad_le dio p.span).2
        rw [hread] at hfits
        unfold Part.lead
        rw [hview, if_neg Bool.false_ne_true]
        omega
    have hadd : wadd (p.lead dio) (it.off - p.span.off) = p.lead dio + (it.off - p.span.off) :=
      wadd_eq (by omega)
    have hbuf : st.bufs.getD p.idx [] = b := by
      rw [List.getD_eq_getElem?_getD, hb]
      rfl
    rw [hbuf] at hbytes ⊢
    unfold View.bytes
    dsimp only
    rw [hoff, hadd, if_pos (by omega)]
    refine congrArg some (List.ext_getElem? fun y => ?_)
    by_cases hy : y < it.nbytes
    · have hat := hbytes (it.off - p.span.off + y) (by omega)
      rw [Shards.slice, List.getElem?_take_of_lt (by omega), List.getElem?_drop,
        ← Nat.add_assoc] at hat
      rw [List.getElem?_take_of_lt hy, List.getElem?_take_of_lt hy, List.getElem?_drop,
        List.getElem?_drop, hat, hfile]
      congr 1
      omega
    · rw [List.getElem?_eq_none, List.getElem?_eq_none]
      · rw [List.length_take]
        omega
      · rw [List.length_take]
        omega

end

/-! ## The groups -/

section

variable {s : Shards} {dio : Bool} {sub nthreads : Nat} {groups : List (List (List Char))}
  {parts : List Part}

/-- What a set-up that came to its end has made. -/
theorem setup_placed {gs : List Group} (h : Setup dio s 0 groups (.ok gs)) :
    List.Forall₂ (fun names g => ∃ items, g.For s dio names items) groups gs ∧
      Placed s dio (gs.flatMap Group.parts) := by
  obtain ⟨hfor, hidx⟩ := setup_ok h
  have hpart : ∀ p ∈ gs.flatMap Group.parts, ∃ names items, ∃ g : Group,
      g.For s dio names items ∧ p ∈ g.parts := by
    intro p hp
    obtain ⟨g, hg, hp⟩ := List.mem_flatMap.mp hp
    obtain ⟨k, hk⟩ := List.mem_iff_getElem?.mp hg
    have hlt := (List.getElem?_eq_some_iff.mp hk).1
    obtain ⟨items, hfor⟩ := hfor.get (by rw [hfor.length_eq]; exact hlt) hlt
    rw [List.get_eq_getElem, List.get_eq_getElem,
      (List.getElem?_eq_some_iff.mp hk).2] at hfor
    exact ⟨_, items, g, hfor, hp⟩
  refine ⟨hfor, hidx.trans List.range_eq_range'.symm, fun p hp => ?_, fun p hp => ?_⟩
  · obtain ⟨names, items, g, hg, hp⟩ := hpart p hp
    obtain ⟨-, hmade⟩ := spansOf_made (items_spec hg.items_eq).2.1
    exact hmade _ (hg.span_eq ▸ List.mem_map_of_mem hp)
  · obtain ⟨names, items, g, hg, hp⟩ := hpart p hp
    exact hg.slot p hp

/-- The mode can cope with the spans of the groups. -/
def CopesAll (s : Shards) (dio : Bool) (groups : List (List (List Char))) : Prop :=
  ∀ names ∈ groups, ∀ items, s.items names = some items → ∀ sp ∈ spansOf items, Copes dio sp

theorem setup_copes (hcope : CopesAll s dio groups) {gs : List Group}
    (hfor : List.Forall₂ (fun names g => ∃ items, Group.For s dio names items g) groups gs) :
    ∀ p ∈ gs.flatMap Group.parts, Copes dio p.span := by
  induction hfor with
  | nil => exact fun p hp => absurd hp List.not_mem_nil
  | @cons names g groups gs hg _ ih =>
    obtain ⟨items, hg⟩ := hg
    intro p hp
    rw [List.flatMap_cons] at hp
    rcases List.mem_append.mp hp with hp | hp
    · exact hcope names List.mem_cons_self items hg.items_eq _
        (hg.span_eq ▸ List.mem_map_of_mem hp)
    · exact ih (fun nm hnm => hcope nm (List.mem_cons_of_mem _ hnm)) p hp

/-- **A group's views** are the ones it would have alone. -/
theorem group_same {trace : List Event} {st : State UInt8} (hsub : 0 < sub)
    (h : Placed s dio parts) (hcope : ∀ p ∈ parts, Copes dio p.span)
    (hrun : Drained s sub nthreads parts trace st) (hok : st.failed = false)
    {names : List (List Char)} {items : List Item} {g : Group} (hg : g.For s dio names items)
    (hsubset : ∀ p ∈ g.parts, p ∈ parts) {n : Nat} {vs : List View}
    (halone : ReadRawShared s False n names (.ok vs)) :
    ∃ ws, assemble g.n (g.parts.flatMap (Part.views dio st.bufs)) = some ws ∧
      List.Forall₂ View.Same ws vs := by
  obtain ⟨items', hitems', -, hvlen, hvget⟩ := readRawShared_ok halone
  obtain rfl : items = items' := Option.some.inj (hg.items_eq.symm.trans hitems')
  obtain ⟨hidx, hword, hat⟩ := items_spec hitems'
  obtain ⟨hperm, -⟩ := spansOf_made hword
  have hpairs : (g.parts.flatMap (Part.views dio st.bufs)).map Prod.fst
      = ((spansOf items).flatMap Span.members).map Item.idx := by
    rw [← hg.span_eq, List.flatMap_map, List.map_flatMap, List.map_flatMap]
    refine List.flatMap_congr fun p _ => ?_
    rw [Part.views, List.map_map]
    rfl
  have hplaces : ((g.parts.flatMap (Part.views dio st.bufs)).map Prod.fst).Perm
      (List.range g.n) := by
    rw [hpairs, hg.n_eq, ← hidx]
    exact hperm.map Item.idx
  obtain ⟨ws, hws, hwlen, hwget⟩ := assemble_eq hplaces
  refine ⟨ws, hws, List.forall₂_iff_get.mpr ⟨by rw [hwlen, hvlen, hg.n_eq], ?_⟩⟩
  intro i hi hi'
  -- place `i` is the place of a member of some span
  obtain ⟨t, -, hit⟩ := hat i _ (List.getElem?_eq_getElem (hvlen ▸ hi'))
  obtain ⟨sp, hsp, hmem⟩ := List.mem_flatMap.mp (hperm.symm.subset (List.mem_of_getElem? hit))
  obtain ⟨p, hp, rfl⟩ := List.mem_map.mp (hg.span_eq ▸ hsp)
  have hw := hwget _ (List.mem_flatMap.mpr ⟨p, hp, List.mem_map_of_mem hmem⟩)
  have hv := hvget _ hsp _ hmem
  have hsame := member_same hsub h hcope hrun hok (hsubset p hp) hmem
  have hw : ws[i]? = some _ := hw
  have hv : vs[i]? = some _ := hv
  rw [List.get_eq_getElem, List.get_eq_getElem, (List.getElem?_eq_some_iff.mp hw).2,
    (List.getElem?_eq_some_iff.mp hv).2]
  exact hsame

/-- **What is collected** of a batch that was drained are the views of each group. -/
theorem collect_same {trace : List Event} {st : State UInt8} (hsub : 0 < sub)
    (h : Placed s dio parts) (hcope : ∀ p ∈ parts, Copes dio p.span)
    (hrun : Drained s sub nthreads parts trace st) (hok : st.failed = false) {gs : List Group}
    (hfor : List.Forall₂ (fun names g => ∃ items, Group.For s dio names items g) groups gs)
    (hsubset : ∀ g ∈ gs, ∀ p ∈ g.parts, p ∈ parts) {n : Nat} {vss : List (List View)}
    (halone : List.Forall₂ (ReadRawShared s False n) groups (vss.map .ok)) :
    ∃ wss, collect dio st.bufs gs = some wss ∧ List.Forall₂ (List.Forall₂ View.Same) wss vss := by
  induction hfor generalizing vss with
  | nil =>
    cases vss with
    | nil => exact ⟨[], rfl, .nil⟩
    | cons vs vss => cases halone
  | @cons names g groups gs hg _ ih =>
    cases vss with
    | nil => cases halone
    | cons vs vss =>
      obtain ⟨hfirst, hrest⟩ := List.forall₂_cons.mp halone
      obtain ⟨items, hg⟩ := hg
      obtain ⟨ws, hws, hsame⟩ := group_same hsub h hcope hrun hok hg
        (hsubset g List.mem_cons_self) hfirst
      obtain ⟨wss, hwss, hsames⟩ := ih (fun g hg => hsubset g (List.mem_cons_of_mem _ hg)) hrest
      refine ⟨ws :: wss, ?_, .cons hsame hsames⟩
      unfold collect at hwss ⊢
      rw [List.mapM_cons, hws, hwss]
      rfl

end

/-! ## The batch -/

section

variable {s : Shards} {dio : Bool} {sub nthreads : Nat} {groups : List (List (List Char))}
  {parts : List Part}

theorem copesAll_of (h : dio = false ∨ s.Sane groups) : CopesAll s dio groups := by
  intro names hnames items hitems sp hsp
  exact h.imp_right fun hsane => hsane names hnames items hitems sp hsp

/-- Threads that have drained everything without an error have read every group. -/
theorem readable_of_drained (hsub : 0 < sub) (hcope : CopesAll s dio groups) {gs : List Group}
    {trace : List Event} {st : State UInt8} (h : Setup dio s 0 groups (.ok gs))
    (hparts : parts = gs.flatMap Group.parts) (hrun : Drained s sub nthreads parts trace st)
    (hok : st.failed = false) :
    (∀ names ∈ groups, s.Readable names) ∧ ∀ p ∈ parts, p.InFile s := by
  obtain ⟨hfor, hplaced⟩ := setup_placed h
  have hcopes := setup_copes hcope hfor
  rw [← hparts] at hplaced hcopes
  refine ⟨fun names hnames => ?_, fun p hp => ?_⟩
  · obtain ⟨k, hk⟩ := List.mem_iff_getElem?.mp hnames
    obtain ⟨hlt, hget⟩ := List.getElem?_eq_some_iff.mp hk
    obtain ⟨items, hg⟩ := hfor.get hlt (by rw [← hfor.length_eq]; exact hlt)
    rw [List.get_eq_getElem, hget] at hg
    refine ⟨items, hg.items_eq, fun sp hsp => ?_⟩
    obtain ⟨p, hp, rfl⟩ := List.mem_map.mp (hg.span_eq ▸ hsp)
    exact (part_bytes hsub hplaced hcopes hrun hok
      (hparts ▸ List.mem_flatMap.mpr ⟨_, List.get_mem _ _, hp⟩)).1
  · cases hview : p.slot.view with
    | true =>
      have hslot := hplaced.slot p hp
      unfold Part.InFile
      generalize p.slot = slot at hslot hview
      cases hslot with
      | mapped => exact .inl rfl
      | alloc => cases hview
    | false =>
      have hmade := hplaced.made p hp
      obtain ⟨hoff, -, hlt, -⟩ := slot_read hmade (hcopes p hp) (hplaced.slot p hp) hview
      exact (drained_read hsub hplaced hcopes hrun hok hp hview
        (hoff ▸ Nat.lt_of_le_of_lt (Nat.sub_le _ _) hmade.off_lt) hlt).1

/-- A batch that returns has read every group. -/
theorem readable_of_batched (hsub : 0 < sub) (hcope : CopesAll s dio groups)
    {wss : List (List View)} (h : ReadBatched s dio sub nthreads groups parts (.ok wss)) :
    (∀ names ∈ groups, s.Readable names) ∧ ∀ p ∈ parts, p.InFile s := by
  generalize hout : Outcome.ok wss = out at h
  cases h with
  | error e h => cases hout
  | panic h => cases hout
  | drained gs parts trace st h hparts hrun =>
    cases hok : st.failed with
    | true =>
      rw [hok] at hout
      cases hout
    | false => exact readable_of_drained hsub hcope h hparts hrun hok

/-- No span of a group that can be read is too long for a buffer. -/
theorem bufLen_lt {sp : Span} (hmade : sp.Made) (hcope : Copes dio sp) (hin : sp.InFile s) :
    sp.bufLen dio < 2 ^ 63 := by
  have hfile := file_length_lt s sp.file
  unfold Span.InFile at hin
  cases dio with
  | false =>
    rw [bufLen_buffered hmade]
    omega
  | true =>
    obtain hfalse | hsane := hcope
    · cases hfalse
    · exact (readLen_direct hmade hsane).2.2.2

theorem slot_bufLen_lt {sp : Span} {slot : Slot} (hmade : sp.Made) (hcope : Copes dio sp)
    (h : SlotOf dio s sp slot) : sp.bufLen dio < 2 ^ 63 := by
  cases h with
  | mapped hlen hin => exact bufLen_lt (s := s) hmade hcope (.inr hin)
  | alloc stale addr hlen hstale => exact hlen

/-- **The set-up panics** exactly if a span is too long for a buffer. -/
theorem setup_panic_iff (hcope : CopesAll s dio groups) {base : Nat}
    {out : Outcome IoError (List Group)} (h : Setup dio s base groups out) :
    out = .panic ↔ s.TooLong dio groups := by
  induction h with
  | nil base =>
    refine ⟨nofun, ?_⟩
    rintro ⟨pre, names, post, items, heq, -⟩
    exact absurd heq.symm (List.append_ne_nil_of_right_ne_nil _ (List.cons_ne_nil _ _))
  | missing base names groups hnone =>
    refine ⟨nofun, ?_⟩
    rintro ⟨pre, nm, post, items, heq, hpre, hitems, -⟩
    cases pre with
    | nil =>
      obtain ⟨rfl, -⟩ := List.cons.inj heq
      cases hnone.symm.trans hitems
    | cons g pre =>
      obtain ⟨rfl, -⟩ := List.cons.inj heq
      exact absurd hnone (hpre _ List.mem_cons_self)
  | overflow base names groups items sp hitems hsp hlen =>
    exact ⟨fun _ => ⟨[], names, groups, items, rfl, fun g hg => absurd hg List.not_mem_nil, hitems,
      sp, hsp, hlen⟩, fun _ => rfl⟩
  | cons base names groups items parts out hitems hspan hidx hslot _ ih =>
    have ih := ih fun nm hnm => hcope nm (List.mem_cons_of_mem _ hnm)
    obtain ⟨-, hmade⟩ := spansOf_made (items_spec hitems).2.1
    have hout : (out.bind fun gs => .ok (⟨names.length, parts⟩ :: gs)) = .panic ↔ out = .panic := by
      cases out with
      | ok gs => exact ⟨nofun, nofun⟩
      | error e => exact ⟨nofun, nofun⟩
      | panic => exact ⟨fun _ => rfl, fun _ => rfl⟩
    rw [hout, ih]
    constructor
    · rintro ⟨pre, nm, post, items', rfl, hpre, hrest⟩
      refine ⟨names :: pre, nm, post, items', rfl, ?_, hrest⟩
      exact List.forall_mem_cons.mpr ⟨by rw [hitems]; exact nofun, hpre⟩
    · rintro ⟨pre, nm, post, items', heq, hpre, hitems', sp, hsp, hlong⟩
      cases pre with
      | nil =>
        -- the spans of the group in front have their places
        obtain ⟨rfl, -⟩ := List.cons.inj heq
        obtain rfl : items = items' := Option.some.inj (hitems.symm.trans hitems')
        have hcopes := hcope names List.mem_cons_self items hitems sp hsp
        have hsp' := hsp
        rw [← hspan] at hsp'
        obtain ⟨p, hp, rfl⟩ := List.mem_map.mp hsp'
        have hlt := slot_bufLen_lt (hmade _ hsp) hcopes (hslot p hp)
        omega
      | cons g pre =>
        obtain ⟨rfl, rfl⟩ := List.cons.inj heq
        exact ⟨pre, nm, post, items', rfl, fun g hg => hpre g (List.mem_cons_of_mem _ hg),
          hitems', sp, hsp, hlong⟩

/-- Spans of sane length are not too long. -/
theorem not_tooLong (hsane : s.Sane groups) : ¬ s.TooLong dio groups := by
  rintro ⟨pre, names, post, items, rfl, -, hitems, sp, hsp, hlong⟩
  have hlt := hsane names (List.mem_append_right _ List.mem_cons_self) items hitems sp hsp
  have hmade := (spansOf_made (items_spec hitems).2.1).2 sp hsp
  cases dio with
  | false =>
    rw [bufLen_buffered hmade, hmade.len_eq, Nat.mod_eq_of_lt (by omega)] at hlong
    omega
  | true =>
    have hbuf := (readLen_direct hmade hlt).2.2.2
    omega

variable {out : Outcome IoError (List (List View))}

/-- **A batch with a group that cannot be read** panics if a span is too long for a buffer, and
is an error if none is. -/
theorem batched_of_not_readable (hsub : 0 < sub) (hcope : CopesAll s dio groups)
    (h : ReadBatched s dio sub nthreads groups parts out)
    (hnot : ∃ names ∈ groups, ¬ s.Readable names) :
    (∃ e, out = .error e) ∧ ¬ s.TooLong dio groups ∨ out = .panic ∧ s.TooLong dio groups := by
  cases h with
  | error e h => exact .inl ⟨⟨e, rfl⟩, fun hlong => nomatch (setup_panic_iff hcope h).mpr hlong⟩
  | panic h => exact .inr ⟨rfl, (setup_panic_iff hcope h).mp rfl⟩
  | drained gs parts trace st h hparts hrun =>
    refine .inl ⟨?_, fun hlong => nomatch (setup_panic_iff hcope h).mpr hlong⟩
    cases hok : st.failed with
    | true => exact ⟨_, rfl⟩
    | false =>
      obtain ⟨names, hnames, hbad⟩ := hnot
      exact absurd ((readable_of_drained hsub hcope h hparts hrun hok).1 names hnames) hbad

/-- If the groups can be read, and all that has to be read for them is in the files, the batch
returns what the groups would alone. -/
theorem batched_same (hsub : 0 < sub) (hcope : CopesAll s dio groups)
    (h : ReadBatched s dio sub nthreads groups parts out)
    (hread : ∀ names ∈ groups, s.Readable names) (hin : ∀ p ∈ parts, p.InFile s) {n : Nat}
    {vss : List (List View)}
    (halone : List.Forall₂ (ReadRawShared s False n) groups (vss.map .ok)) :
    ∃ wss, out = .ok wss ∧ List.Forall₂ (List.Forall₂ View.Same) wss vss := by
  have hsetup : ∀ {out : Outcome IoError (List Group)}, Setup dio s 0 groups out →
      ∃ gs, out = .ok gs := by
    intro out hout
    by_contra hnot
    obtain ⟨names, hnames, hwhy⟩ := setup_not_ok hout fun gs hgs => hnot ⟨gs, hgs⟩
    obtain ⟨items, hitems, hinf⟩ := hread names hnames
    rcases hwhy with hnone | ⟨items', hitems', sp, hsp, hlong⟩
    · cases hnone.symm.trans hitems
    · obtain rfl : items = items' := Option.some.inj (hitems.symm.trans hitems')
      obtain ⟨-, hmade⟩ := spansOf_made (items_spec hitems).2.1
      have hlt := bufLen_lt (hmade sp hsp) (hcope names hnames items hitems sp hsp) (hinf sp hsp)
      omega
  cases h with
  | error e h =>
    obtain ⟨gs, hgs⟩ := hsetup h
    cases hgs
  | panic h =>
    obtain ⟨gs, hgs⟩ := hsetup h
    cases hgs
  | drained gs parts trace st h hparts hrun =>
    obtain ⟨hfor, hplaced⟩ := setup_placed h
    have hcopes := setup_copes hcope hfor
    rw [← hparts] at hplaced hcopes
    have hok := drained_not_failed hsub hplaced hcopes hrun fun p hp hview => by
      have hmade := hplaced.made p hp
      obtain ⟨hoff, -, hlt, -⟩ := slot_read hmade (hcopes p hp) (hplaced.slot p hp) hview
      exact ⟨hoff ▸ Nat.lt_of_le_of_lt (Nat.sub_le _ _) hmade.off_lt, hlt, hin p hp⟩
    obtain ⟨wss, hwss, hsame⟩ := collect_same hsub hplaced hcopes hrun hok hfor
      (fun g hg p hp => hparts ▸ List.mem_flatMap.mpr ⟨g, hg, hp⟩) halone
    refine ⟨wss, ?_, hsame⟩
    rw [hok, hwss]
    rfl

/-- In the buffered mode nothing is widened. -/
theorem buffered_inFile
    (h : ReadBatched s false sub nthreads groups parts out)
    (hread : ∀ names ∈ groups, s.Readable names) : ∀ p ∈ parts, p.InFile s := by
  cases h with
  | error e h => exact fun p hp => absurd hp List.not_mem_nil
  | panic h => exact fun p hp => absurd hp List.not_mem_nil
  | drained gs parts trace st h hparts hrun =>
    obtain ⟨hfor, hplaced⟩ := setup_placed h
    rw [hparts]
    intro p hp
    have hslot := hplaced.slot p hp
    obtain ⟨g, hg, hpg⟩ := List.mem_flatMap.mp hp
    obtain ⟨k, hk⟩ := List.mem_iff_getElem?.mp hg
    obtain ⟨hlt, hget⟩ := List.getElem?_eq_some_iff.mp hk
    have hlt' : k < groups.length := by rw [hfor.length_eq]; exact hlt
    obtain ⟨items, hfg⟩ := hfor.get hlt' hlt
    rw [List.get_eq_getElem, List.get_eq_getElem, hget] at hfg
    obtain ⟨items', hitems', hinf⟩ := hread _ (List.getElem_mem hlt')
    obtain rfl : items = items' := Option.some.inj (hfg.items_eq.symm.trans hitems')
    have hsp := hinf p.span (hfg.span_eq ▸ List.mem_map_of_mem hpg)
    unfold Part.InFile
    generalize p.slot = slot at hslot
    cases hslot with
    | mapped => exact .inl rfl
    | alloc stale addr hlen hstale => exact hsp

/-- Each group alone comes to something. -/
theorem exists_alone (s : Shards) (nthreads : Nat) (groups : List (List (List Char))) :
    ∃ alone, List.Forall₂ (ReadRawShared s False nthreads) groups alone := by
  induction groups with
  | nil => exact ⟨[], .nil⟩
  | cons names groups ih =>
    obtain ⟨alone, halone⟩ := ih
    obtain ⟨out, hout⟩ := exists_readRawShared s False nthreads names
    exact ⟨out :: alone, .cons hout halone⟩

/-- Alone all groups return exactly if they can be read. -/
theorem alone_ok_iff {alone : List (Outcome IoError (List View))} {n : Nat}
    (h : List.Forall₂ (ReadRawShared s False n) groups alone) :
    (∃ vss : List (List View), alone = vss.map .ok) ↔ ∀ names ∈ groups, s.Readable names := by
  induction h with
  | nil => exact ⟨fun _ names hnames => absurd hnames List.not_mem_nil, fun _ => ⟨[], rfl⟩⟩
  | @cons names out groups alone hout _ ih =>
    constructor
    · rintro ⟨vss, hvss⟩
      cases vss with
      | nil => cases hvss
      | cons vs vss =>
        obtain ⟨rfl, hrest⟩ := List.cons.inj hvss
        intro nm hnm
        rcases List.mem_cons.mp hnm with rfl | hnm
        · exact readable_of_ok hout
        · exact ih.mp ⟨vss, hrest⟩ nm hnm
    · intro hread
      obtain ⟨vs, rfl⟩ := ok_of_readable id (hread names List.mem_cons_self) hout
      obtain ⟨vss, rfl⟩ := ih.mpr fun nm hnm => hread nm (List.mem_cons_of_mem _ hnm)
      exact ⟨vs :: vss, rfl⟩

/-- Alone some group ends in an error exactly if one does for certain. -/
theorem alone_error_iff {alone : List (Outcome IoError (List View))} {n : Nat}
    (h : List.Forall₂ (ReadRawShared s False n) groups alone) :
    (∃ e, .error e ∈ alone) ↔ ∃ names ∈ groups, s.Errs names := by
  induction h with
  | nil =>
    refine ⟨?_, ?_⟩
    · rintro ⟨e, he⟩
      exact absurd he List.not_mem_nil
    · rintro ⟨names, hnames, -⟩
      exact absurd hnames List.not_mem_nil
  | @cons names out groups alone hout _ ih =>
    have hhead : (∃ e, .error e = out) ↔ s.Errs names := by
      constructor
      · rintro ⟨e, rfl⟩
        exact errs_of_error hout
      · intro herrs
        obtain ⟨e, rfl⟩ := error_of_errs herrs hout
        exact ⟨e, rfl⟩
    simp only [List.mem_cons, exists_or, hhead, ih, or_and_right, exists_eq_left]

theorem not_readable_of_errs {names : List (List Char)} (h : s.Errs names) : ¬ s.Readable names := by
  intro hread
  obtain ⟨out, hout⟩ := exists_readRawShared s False 0 names
  obtain ⟨vs, rfl⟩ := ok_of_readable id hread hout
  obtain ⟨e, he⟩ := error_of_errs h hout
  cases he

/-- **A batch is as its groups alone** exactly if no panic comes in the place of an error, and
some group is not read alone or all that has to be read, widened as the mode asks, is in the
files. -/
theorem asAlone_iff (hsub : 0 < sub) (hcope : CopesAll s dio groups)
    (h : ReadBatched s dio sub nthreads groups parts out) :
    AsAlone s groups out ↔
      ((∀ names ∈ groups, ¬ s.Errs names) ∨ ¬ s.TooLong dio groups) ∧
        ((∃ names ∈ groups, ¬ s.Readable names) ∨ ∀ p ∈ parts, p.InFile s) := by
  by_cases hread : ∀ names ∈ groups, s.Readable names
  · -- all groups are read alone: the batch has to return, and the same
    have herrs : ∀ names ∈ groups, ¬ s.Errs names := fun names hnames he =>
      not_readable_of_errs he (hread names hnames)
    have hnone : ¬ ∃ names ∈ groups, ¬ s.Readable names := fun ⟨names, hnames, hbad⟩ =>
      hbad (hread names hnames)
    rw [or_iff_right hnone, and_iff_right (.inl herrs)]
    constructor
    · intro hsame
      obtain ⟨alone, halone⟩ := exists_alone s nthreads groups
      obtain ⟨vss, hvss⟩ := (alone_ok_iff halone).mpr hread
      obtain ⟨wss, rfl, -⟩ := (hsame nthreads alone halone).1 vss hvss
      exact (readable_of_batched hsub hcope h).2
    · intro hin n alone halone
      refine ⟨fun vss hvss => ?_, fun herr => ?_, fun hpanic => ?_⟩
      · subst hvss
        exact batched_same hsub hcope h hread hin halone
      · obtain ⟨names, hnames, he⟩ := (alone_error_iff halone).mp herr
        exact absurd he (herrs names hnames)
      · obtain ⟨vss, rfl⟩ := (alone_ok_iff halone).mpr hread
        obtain ⟨vs, -, hvs⟩ := List.mem_map.mp hpanic
        cases hvs
  · -- some group is not: the batch does not return, and panics only for a span too long
    have hbad : ∃ names ∈ groups, ¬ s.Readable names := by
      simpa only [not_forall, exists_prop] using hread
    rw [and_iff_left (.inl hbad)]
    have hout := batched_of_not_readable hsub hcope h hbad
    constructor
    · intro hsame
      by_cases herrs : ∃ names ∈ groups, s.Errs names
      · obtain ⟨alone, halone⟩ := exists_alone s nthreads groups
        obtain ⟨e, rfl⟩ := (hsame nthreads alone halone).2.1 ((alone_error_iff halone).mpr herrs)
        obtain ⟨-, hshort⟩ | ⟨hpanic, -⟩ := hout
        · exact .inr hshort
        · cases hpanic
      · exact .inl fun names hnames he => herrs ⟨names, hnames, he⟩
    · intro hcond n alone halone
      refine ⟨fun vss hvss => ?_, fun herr => ?_, fun _ wss hwss => ?_⟩
      · exact absurd ((alone_ok_iff halone).mp ⟨vss, hvss⟩) hread
      · obtain ⟨names, hnames, he⟩ := (alone_error_iff halone).mp herr
        obtain ⟨herror, -⟩ | ⟨-, hlong⟩ := hout
        · exact herror
        · exact absurd hlong (hcond.resolve_left fun hnone => hnone names hnames he)
      · obtain ⟨⟨e, rfl⟩, -⟩ | ⟨rfl, -⟩ := hout
        · cases hwss
        · cases hwss

/-- A setup has an outcome. -/
theorem exists_setup (s : Shards) (dio : Bool) (base : Nat) (groups : List (List (List Char))) :
    ∃ out, Setup dio s base groups out := by
  induction groups generalizing base with
  | nil => exact ⟨_, .nil base⟩
  | cons names groups ih =>
    rcases hitems : s.items names with _ | items
    · exact ⟨_, .missing base names groups hitems⟩
    · by_cases hlong : ∃ sp ∈ spansOf items, 2 ^ 63 ≤ sp.bufLen dio
      · obtain ⟨sp, hsp, hlen⟩ := hlong
        exact ⟨_, .overflow base names groups items sp hitems hsp hlen⟩
      · -- every span in a fresh buffer at address 0
        obtain ⟨parts, hspan, hidx, hslot⟩ : ∃ parts : List Part,
            parts.map Part.span = spansOf items ∧
            parts.map Part.idx = List.range' base parts.length ∧
            ∀ p ∈ parts, SlotOf dio s p.span p.slot := by
          refine ⟨((spansOf items).zipIdx base).map fun x => ⟨x.2, x.1, x.1.readOff dio,
            x.1.readLen dio, if dio then (dioAlign - 0 % dioAlign) % dioAlign else 0, false,
            List.replicate (x.1.bufLen dio) 0⟩, ?_, ?_, ?_⟩
          · rw [List.map_map]
            exact List.zipIdx_map_fst _ _
          · rw [List.map_map, List.length_map, List.length_zipIdx]
            exact List.zipIdx_map_snd _ _
          · intro p hp
            obtain ⟨⟨sp, k⟩, hx, rfl⟩ := List.mem_map.mp hp
            have hsp : sp ∈ spansOf items := List.fst_mem_of_mem_zipIdx hx
            refine .alloc _ 0 ?_ List.length_replicate
            exact Nat.lt_of_not_le fun hle => hlong ⟨sp, hsp, hle⟩
        obtain ⟨out, hout⟩ := ih (base + parts.length)
        exact ⟨_, .cons base names groups items parts out hitems hspan hidx hslot hout⟩

theorem exists_readBatched (hsub : 0 < sub) (hcope : CopesAll s dio groups) (nthreads : Nat) :
    ∃ parts out, ReadBatched s dio sub nthreads groups parts out := by
  obtain ⟨out, hout⟩ := exists_setup s dio 0 groups
  cases out with
  | error e => exact ⟨_, _, .error e hout⟩
  | panic => exact ⟨_, _, .panic hout⟩
  | ok gs =>
    obtain ⟨hfor, hplaced⟩ := setup_placed hout
    obtain ⟨trace, st, hrun⟩ := exists_drained hsub hplaced (setup_copes hcope hfor) nthreads
    exact ⟨_, _, .drained gs _ trace st hout rfl hrun⟩

end

theorem lastTensor_off_lt : 61 < 2 ^ 64 := by decide

theorem lastTensor_nbytes_lt : 4 < 2 ^ 64 := by decide

def lastTensor : StTensor :=
  ⟨['a'], 0, 61, 4, .u8, 4, [4], lastTensor_off_lt, lastTensor_nbytes_lt⟩

/-- A file of 65 bytes, the last four of which are the tensor. -/
def shortFile : Shards where
  tensors := [lastTensor]
  files := [List.replicate 61 0 ++ [1, 2, 3, 4]]
  fileIdx_lt := by simp [lastTensor]
  size_lt := by simp

def lastSpan : Span := ⟨0, 61, 4, [Item.of 0 lastTensor]⟩

theorem spansOf_shortFile : spansOf [Item.of 0 lastTensor] = [lastSpan] := by
  rw [spansOf, order, List.mergeSort_singleton]
  rfl

theorem items_shortFile : shortFile.items [['a']] = some [Item.of 0 lastTensor] := rfl

theorem readable_shortFile : shortFile.Readable [['a']] := by
  refine ⟨_, items_shortFile, fun sp hsp => ?_⟩
  rw [spansOf_shortFile] at hsp
  rw [List.mem_singleton.mp hsp]
  exact .inr (by decide)

end Colibri.Safetensors
