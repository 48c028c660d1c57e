import Colibri.Tokenizer.RoundTrip

/-!
# Where the added tokens are

What a split at the added tokens is, in terms of the text alone (`Scan`): from left to
right, each time the first place where one of them occurs, and of those that occur there
one of the longest; what is in between is free text. `encode` is that split, each added
token by its id and each stretch of free text cut into pieces that make it up
(`encode_scans`).

`encode` looks for the longest by taking the first that fits, of a list sorted by length.
An added token without content is in the list as well, and occurs nowhere.

`FirstHit` is one such place with its token, which is the longest there; `specialAt` and `findHit`
are the searches of the code.
-/

namespace Colibri

open Tokenizer Rx

/-! ## The split -/

/-- The text has `sp` at `j`. -/
def Special.At (sp : Special) (p : Bytes) (j : Nat) : Prop := sp.bytes ≠ [] ∧ sp.bytes <+: p.drop j

/-- From `i` on none of the added tokens occurs before `pos`, and of those that occur there
none is longer than `sp`. -/
structure FirstHit (added : List Special) (p : Bytes) (i pos : Nat) (sp : Special) : Prop where
  le : i ≤ pos
  mem : sp ∈ added
  here : sp.At p pos
  earliest : ∀ j, i ≤ j → j < pos → ∀ sp' ∈ added, ¬ sp'.At p j
  longest : ∀ sp' ∈ added, sp'.At p pos → sp'.bytes.length ≤ sp.bytes.length

/-- A part of a split text. -/
inductive Part where
  | free (a b : Nat)
  | added (pos : Nat) (sp : Special)

namespace Part

/-- The bytes of the text it stands for. -/
def text (p : Bytes) : Part → Bytes
  | .free a b => spanText p (a, b)
  | .added pos sp => spanText p (pos, pos + sp.bytes.length)

end Part

/-- The split of the text from `i` on. -/
inductive Scan (added : List Special) (p : Bytes) : Nat → List Part → Prop
  | done {i : Nat} (h : p.length ≤ i) : Scan added p i []
  | rest {i : Nat} (h : i < p.length) (hnone : ∀ j ≥ i, ∀ sp ∈ added, ¬ sp.At p j) :
      Scan added p i [.free i p.length]
  | adjacent {i : Nat} {sp : Special} {parts : List Part} (h : FirstHit added p i i sp)
      (hrest : Scan added p (i + sp.bytes.length) parts) : Scan added p i (.added i sp :: parts)
  | hit {i pos : Nat} {sp : Special} {parts : List Part} (h : FirstHit added p i pos sp)
      (hlt : i < pos) (hrest : Scan added p (pos + sp.bytes.length) parts) :
      Scan added p i (.free i pos :: .added pos sp :: parts)

variable {sp : Special} {added : List Special}

theorem Special.At.spec {p : Bytes} {j : Nat} (h : sp.At p j) :
    0 < sp.bytes.length ∧ j + sp.bytes.length ≤ p.length ∧
      spanText p (j, j + sp.bytes.length) = sp.bytes := by
  obtain ⟨hne, hpre⟩ := h
  have hpos := List.length_pos_iff.mpr hne
  have hle := hpre.length_le
  rw [List.length_drop] at hle
  refine ⟨hpos, by omega, ?_⟩
  rw [spanText, Nat.add_sub_cancel_left]
  exact (List.prefix_iff_eq_take.mp hpre).symm

/-- The parts make up the text. -/
theorem Scan.flatten {p : Bytes} {i : Nat} {parts : List Part}
    (h : Scan added p i parts) : (parts.map (Part.text p)).flatten = p.drop i := by
  induction h with
  | done h => exact (List.drop_eq_nil_of_le h).symm
  | rest h hnone =>
    rw [List.map_singleton, List.flatten_singleton]
    exact spanText_to_end p _
  | adjacent h hrest ih =>
    obtain ⟨-, hend, -⟩ := h.here.spec
    rw [List.map_cons, List.flatten_cons, ih, ← spanText_to_end, ← spanText_to_end]
    exact spanText_append p (by omega) hend
  | hit h hlt hrest ih =>
    obtain ⟨-, hend, -⟩ := h.here.spec
    rw [List.map_cons, List.map_cons, List.flatten_cons, List.flatten_cons, ih,
      ← spanText_to_end, ← spanText_to_end]
    show spanText p _ ++ (spanText p _ ++ _) = _
    rw [spanText_append p (by omega) hend, spanText_append p h.le (by omega)]

/-- No stretch of free text is empty. -/
theorem Scan.free_lt {p : Bytes} {i a b : Nat} {parts : List Part}
    (h : Scan added p i parts) (hmem : .free a b ∈ parts) : a < b := by
  induction h with
  | done h => cases hmem
  | rest h hnone =>
    cases List.mem_singleton.mp hmem
    exact h
  | adjacent h hrest ih =>
    rcases List.mem_cons.mp hmem with heq | hmem
    · cases heq
    · exact ih hmem
  | hit h hlt hrest ih =>
    rcases List.mem_cons.mp hmem with heq | hmem
    · cases heq
      exact hlt
    · rcases List.mem_cons.mp hmem with heq | hmem
      · cases heq
      · exact ih hmem

namespace LoadedTokenizer

variable {tok : LoadedTokenizer} {p : Bytes} {i : Nat}

/-! ## The search -/

theorem at_iff {j : Nat} : (0 < sp.bytes.length && j + sp.bytes.length ≤ p.length &&
    spanText p (j, j + sp.bytes.length) == sp.bytes) = true ↔ sp.At p j := by
  rw [Bool.and_eq_true, Bool.and_eq_true, decide_eq_true_eq, decide_eq_true_eq, beq_iff_eq]
  constructor
  · rintro ⟨⟨hpos, hle⟩, htext⟩
    refine ⟨List.length_pos_iff.mp hpos, ?_⟩
    rw [spanText, Nat.add_sub_cancel_left] at htext
    rw [← htext]
    exact List.take_prefix ..
  · intro h
    obtain ⟨hpos, hle, htext⟩ := h.spec
    exact ⟨⟨hpos, hle⟩, htext⟩

theorem specialAt_none {j : Nat} (h : tok.specialAt p j = none) :
    ∀ sp ∈ tok.specials, ¬ sp.At p j := by
  intro sp hsp hat
  exact List.find?_eq_none.mp h sp hsp (at_iff.mpr hat)

/-- Of a list sorted by length, the first that occurs is a longest. -/
theorem specialAt_some (hs : tok.specials.Pairwise fun a b => b.bytes.length ≤ a.bytes.length)
    {j : Nat} (h : tok.specialAt p j = some sp) :
    sp ∈ tok.specials ∧ sp.At p j ∧
      ∀ sp' ∈ tok.specials, sp'.At p j → sp'.bytes.length ≤ sp.bytes.length := by
  obtain ⟨hat, before, after, hsplit, hbefore⟩ := List.find?_eq_some_iff_append.mp h
  have hsp := at_iff.mp hat
  refine ⟨List.mem_of_find?_eq_some h, hsp, fun sp' hmem hat' => ?_⟩
  rw [hsplit] at hs hmem
  rcases List.mem_append.mp hmem with hmem | hmem
  · have hno := hbefore sp' hmem
    rw [at_iff.mpr hat'] at hno
    cases hno
  · rcases List.mem_cons.mp hmem with rfl | hmem
    · exact Nat.le_refl _
    · exact (List.pairwise_cons.mp (List.pairwise_append.mp hs).2.1).1 sp' hmem

theorem findHit_none (h : tok.findHit p i = none) :
    ∀ j ≥ i, ∀ sp ∈ tok.specials, ¬ sp.At p j := by
  intro j hj sp hsp hat
  obtain ⟨hpos, hle, -⟩ := hat.spec
  have hmem : j ∈ List.range' i (p.length - i) := by
    rw [List.mem_range'_1]
    omega
  have hnone := List.findSome?_eq_none_iff.mp h j hmem
  exact specialAt_none (Option.map_eq_none_iff.mp hnone) sp hsp hat

/-- **The search finds the first place**, and a longest there. -/
theorem findHit_first (hs : tok.specials.Pairwise fun a b => b.bytes.length ≤ a.bytes.length)
    {pos : Nat} (h : tok.findHit p i = some (pos, sp)) :
    FirstHit tok.specials p i pos sp := by
  obtain ⟨before, j, after, hrange, hj, hbefore⟩ := List.findSome?_eq_some_iff.mp h
  obtain ⟨sp', hat, heq⟩ := Option.map_eq_some_iff.mp hj
  cases heq
  obtain ⟨hmem, hhere, hlongest⟩ := specialAt_some hs hat
  have hsorted : (List.range' i (p.length - i)).Pairwise (· < ·) := List.pairwise_lt_range'
  have hle : i ≤ pos := by
    have hin : pos ∈ List.range' i (p.length - i) := by
      rw [hrange]
      exact List.mem_append_right _ (List.mem_cons_self ..)
    exact (List.mem_range'_1.mp hin).1
  refine ⟨hle, hmem, hhere, fun j hij hjpos sp' hsp' hat' => ?_, hlongest⟩
  obtain ⟨-, hend, -⟩ := hhere.spec
  have hjmem : j ∈ List.range' i (p.length - i) := by
    rw [List.mem_range'_1]
    omega
  rw [hrange] at hjmem hsorted
  rcases List.mem_append.mp hjmem with hjmem | hjmem
  · exact specialAt_none (Option.map_eq_none_iff.mp (hbefore j hjmem)) sp' hsp' hat'
  · rcases List.mem_cons.mp hjmem with rfl | hjmem
    · exact Nat.lt_irrefl _ hjpos
    · have := (List.pairwise_cons.mp (List.pairwise_append.mp hsorted).2.1).1 j hjmem
      omega

/-! ## What `encode` makes of the parts -/

variable (tok) (T : Tables)

/-- The ids of a part: free text goes through the pieces it is cut into. -/
def partIds (p : Bytes) : Part → List Int
  | .free a b => (tok.freePieces T p a b).flatMap tok.bpePiece
  | .added _ sp => [sp.id]

variable {tok}

/-- The loop of `encode` from position `i` on is a scan from there. -/
theorem encodeFrom_scans (hs : tok.specials.Pairwise fun a b => b.bytes.length ≤ a.bytes.length)
    {fuel : Nat} (hfuel : p.length - i ≤ fuel) :
    ∃ parts, Scan tok.specials p i parts ∧
      tok.encodeFrom T p fuel i = parts.flatMap (tok.partIds T p) := by
  induction fuel generalizing i with
  | zero => exact ⟨[], .done (by omega), rfl⟩
  | succ fuel ih =>
    rw [encodeFrom]
    split
    next hi =>
      cases hhit : tok.findHit p i with
      | none =>
        refine ⟨[.free i p.length], .rest hi (findHit_none hhit), ?_⟩
        rw [List.flatMap_singleton]
        exact pretokChunk_eq tok T p hi
      | some hit =>
        obtain ⟨pos, sp⟩ := hit
        have hfirst := findHit_first hs hhit
        obtain ⟨hpos, hend, -⟩ := hfirst.here.spec
        have hle := hfirst.le
        obtain ⟨parts, hscan, hids⟩ := ih (i := pos + sp.bytes.length) (by omega)
        dsimp only
        rw [hids]
        split
        next hlt =>
          refine ⟨.free i pos :: .added pos sp :: parts, .hit hfirst hlt hscan, ?_⟩
          rw [pretokChunk_eq tok T p hlt]
          rfl
        next hge =>
          cases Nat.le_antisymm hle (Nat.le_of_not_lt hge)
          exact ⟨.added i sp :: parts, .adjacent hfirst hscan, rfl⟩
    next hi => exact ⟨[], .done (Nat.le_of_not_lt hi), rfl⟩

end LoadedTokenizer

/-! ## A tokenizer that was loaded -/

section

variable (vocabJ : List (List Char × JsonValue)) (mergesJ addedJ : List JsonValue) (pretok : PreTok)

theorem build_specials_sorted : (build vocabJ mergesJ addedJ pretok).specials.Pairwise
    fun a b => b.bytes.length ≤ a.bytes.length := by
  have : Std.Total fun a b : Special => b.bytes.length ≤ a.bytes.length :=
    ⟨fun a b => Nat.le_total b.bytes.length a.bytes.length⟩
  have : IsTrans Special fun a b => b.bytes.length ≤ a.bytes.length :=
    ⟨fun a b c hab hbc => Nat.le_trans hbc hab⟩
  exact List.pairwise_insertionSort _ _

theorem mem_build_specials :
    sp ∈ (build vocabJ mergesJ addedJ pretok).specials ↔ sp ∈ addedEntries addedJ :=
  List.mem_insertionSort _

theorem FirstHit.congr {added' : List Special} (h : ∀ sp, sp ∈ added ↔ sp ∈ added')
    {p : Bytes} {i pos : Nat} (hit : FirstHit added p i pos sp) :
    FirstHit added' p i pos sp :=
  ⟨hit.le, (h sp).mp hit.mem, hit.here,
    fun j hij hj sp' hsp' => hit.earliest j hij hj sp' ((h sp').mpr hsp'),
    fun sp' hsp' => hit.longest sp' ((h sp').mpr hsp')⟩

/-- In what order the added tokens are does not matter. -/
theorem Scan.congr {added' : List Special} (h : ∀ sp, sp ∈ added ↔ sp ∈ added')
    {p : Bytes} {i : Nat} {parts : List Part} (scan : Scan added p i parts) :
    Scan added' p i parts := by
  induction scan with
  | done hi => exact .done hi
  | rest hi hnone => exact .rest hi fun j hj sp hsp => hnone j hj sp ((h sp).mpr hsp)
  | adjacent hit _ ih => exact .adjacent (hit.congr h) ih
  | hit hit hlt _ ih => exact .hit (hit.congr h) hlt ih

/-- **`encode` splits at the added tokens**, the earliest first and the longest there, and
every other byte is in one of the pieces of the free text, once and in order. -/
theorem encode_scans (T : Tables) (text : Bytes) :
    let tok := build vocabJ mergesJ addedJ pretok
    ∃ parts, Scan (addedEntries addedJ) text 0 parts ∧
      (parts.map (Part.text text)).flatten = text ∧
      (∀ a b, .free a b ∈ parts → (tok.freePieces T text a b).flatten = spanText text (a, b)) ∧
      tok.encode T text = parts.flatMap (tok.partIds T text) := by
  intro tok
  obtain ⟨parts, hscan, hids⟩ := LoadedTokenizer.encodeFrom_scans T
    (build_specials_sorted vocabJ mergesJ addedJ pretok) (p := text) (i := 0) (Nat.le_refl _)
  -- the tokenizer has them sorted, which a scan does not see
  have hscan := hscan.congr fun sp => mem_build_specials vocabJ mergesJ addedJ pretok
  refine ⟨parts, hscan, hscan.flatten, fun a b hmem => ?_, hids⟩
  exact LoadedTokenizer.freePieces_flatten tok T text (hscan.free_lt hmem)

end

end Colibri
