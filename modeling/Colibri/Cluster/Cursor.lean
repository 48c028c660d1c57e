import Colibri.Cluster.Net

/-!
# The decoders over their cursor

`Net` reads a message with integers that do not overflow. The code reads it through a
cursor: an offset into a slice, byte lengths computed in `usize`, vectors reserved
before they are filled. Here the decoders are run over that cursor, which keeps a
record of two things: whether a length has wrapped, and how many elements space was
asked for beside the bytes that were there to fill it.

The product `n_tokens * hidden` is checked; the four bytes an element are not, and
neither is the number of selection rows before space for them is reserved. Where the
counts stay within bounds, the cursor reads what `Net` reads (`Meets`).

* `Meets.bind` is the rule for a read followed by a run, and the lemmas named `Meets.…` are its
  instances for a word, a counted run, the rows of a selection and a matrix.
* `meets_request`, `meets_response`, `meets_attnRequest` and `meets_attnResponse` follow the four
  decoders with it. Each has its own condition, in terms of the words the bytes hold.
* `decoders_validate` is the result: a decoder returns what is there and no more, without a wrap and
  without reserving what it cannot fill, exactly where its condition holds.
* `huge_counts_accepted` has bytes that a decoder returns and should not.
-/

namespace Colibri.Cluster

open Wire

/-- A `&[u8]`: no allocation, so no slice, is over `isize::MAX` bytes. -/
structure Slice where
  bytes : List UInt8
  length_lt : bytes.length < 2 ^ 63

/-- `Cur`, and the record: a length computation has wrapped; for each vector, the
elements it was reserved for and the bytes there were. -/
structure Cur where
  b : Slice
  i : Nat
  i_le : i ≤ b.bytes.length
  wrapped : Bool
  reserved : List (Nat × Nat)

def Cur.start (b : Slice) : Cur := ⟨b, 0, Nat.zero_le _, false, []⟩

/-- The bytes from the cursor on. -/
def Cur.rest (c : Cur) : List UInt8 := c.b.bytes.drop c.i

/-- The cursor moved on to `e`. -/
def Cur.move (c : Cur) (e : Nat) (h : e ≤ c.b.bytes.length) : Cur := { c with i := e, i_le := h }

def Cur.computing (c : Cur) (v : Nat) : Cur :=
  { c with wrapped := c.wrapped || decide (2 ^ 64 ≤ v) }

def Cur.reserving (c : Cur) (n bytes : Nat) : Cur :=
  { c with reserved := (n, bytes) :: c.reserved }

/-- A reader: its value, or `None`, and the cursor either way. -/
def Read (β : Type) : Type := Cur → Option β × Cur

instance : Monad Read where
  pure x c := (some x, c)
  bind m f c :=
    match m c with
    | (none, c) => (none, c)
    | (some x, c) => f x c

namespace Read

variable {α β γ : Type}

def fail : Read β := fun c => (none, c)

/-- `?` on an option. -/
def lift (o : Option β) : Read β := fun c => (o, c)

/-- A `usize` is computed whose value is `v`, if it does not wrap. -/
def compute (v : Nat) : Read Nat := fun c => (some (v % 2 ^ 64), c.computing v)

/-- Space for `n` elements, with `bytes` bytes to fill them from. -/
def reserve (n bytes : Nat) : Read Unit := fun c => (some (), c.reserving n bytes)

/-- `self.b.get(self.i..e)?`, after which the cursor is at `e`. -/
def get (e : Nat) : Read (List UInt8) := fun c =>
  if h : c.i ≤ e ∧ e ≤ c.b.bytes.length then
    (some ((c.b.bytes.drop c.i).take (e - c.i)), c.move e h.2)
  else (none, c)

def pos : Read Nat := fun c => (some c.i, c)

/-- `Cur::u32`. -/
def u32 : Read Nat := do
  let e ← compute ((← pos) + 4)
  let s ← get e
  lift ((getWord s).map Prod.fst)

/-- `Cur::f32s` and `Cur::u32s`, by what a word stands for. -/
def many (of : Nat → β) (n : Nat) : Read (List β) := do
  let size ← compute (n * 4)
  let e ← compute ((← pos) + size)
  let s ← get e
  reserve (s.length / 4) s.length
  pure ((words s).map of)

def u32s (n : Nat) : Read (List Nat) := many id n

def f32s (c : Codec α) (n : Nat) : Read (List α) := many c.ofWord n

/-- `usize::checked_mul`. -/
def checkedMul (a b : Nat) : Option Nat := if a * b < 2 ^ 64 then some (a * b) else none

def decodeRequest (c : Codec α) : Read (ExpertRequest α) := do
  let magic ← u32
  if magic ≠ reqMagic then fail
  else
    let layer ← u32
    let nTokens ← u32
    let hidden ← u32
    let nExperts ← u32
    let nWeights ← u32
    let experts ← u32s nExperts
    let weights ← f32s c nWeights
    let activations ← f32s c (← lift (checkedMul nTokens hidden))
    pure ⟨experts, weights, activations, nTokens, hidden, layer⟩

/-- What the two responses share: a magic word, a shape and its outputs. -/
def decodeShaped (c : Codec α) (expected : Nat) (mk : List α → Nat → Nat → γ) : Read γ := do
  let magic ← u32
  if magic ≠ expected then fail
  else
    let nTokens ← u32
    let hidden ← u32
    let outputs ← f32s c (← lift (checkedMul nTokens hidden))
    pure (mk outputs nTokens hidden)

def decodeResponse (c : Codec α) : Read (ExpertResponse α) := decodeShaped c rspMagic .mk

def decodeAttnResponse (c : Codec α) : Read (AttnResponse α) := decodeShaped c arspMagic .mk

/-- The loop of `decode_attn_request` over the selection's rows. -/
def rows : Nat → Read (List (List Nat))
  | 0 => pure []
  | n + 1 => do
    let len ← u32
    let q ← u32s len
    let qs ← rows n
    pure (q :: qs)

/-- The bytes left, which nothing in the code computes. -/
def left : Read Nat := fun c => (some c.rest.length, c)

def decodeAttnRequest (c : Codec α) : Read (AttnRequest α) := do
  let magic ← u32
  if magic ≠ areqMagic then fail
  else
    let layer ← u32
    let nTokens ← u32
    let hidden ← u32
    let posBase ← u32
    let hStart ← u32
    let hCount ← u32
    let nSel ← u32
    -- `Vec::with_capacity(n_sel)`
    reserve nSel (← left)
    let sel ← rows nSel
    let activations ← f32s c (← lift (checkedMul nTokens hidden))
    pure ⟨activations, sel, nTokens, hidden, posBase, hStart, hCount, layer⟩

end Read

/-! ## What a reader does to a clean cursor -/

/-- No length has wrapped, and no vector was reserved for more elements than the bytes
could hold: an element, and a row, takes a word at least. -/
structure Cur.Clean (c : Cur) : Prop where
  not_wrapped : c.wrapped = false
  reserved_le : ∀ p ∈ c.reserved, 4 * p.1 ≤ p.2

theorem Cur.clean_start (b : Slice) : (Cur.start b).Clean :=
  ⟨rfl, fun _ h => absurd h List.not_mem_nil⟩

theorem Cur.length_rest (c : Cur) : c.rest.length = c.b.bytes.length - c.i := List.length_drop ..

/-- From `c` the reader ends as the parser does on the bytes left, clean either way. -/
def ReadsAt {β : Type} (m : Read β) (g : List UInt8 → Option (β × List UInt8)) (c : Cur) : Prop :=
  (g c.rest = none ∧ (m c).1 = none ∧ (m c).2.Clean) ∨
    ∃ x c', m c = (some x, c') ∧ c'.Clean ∧ c'.b = c.b ∧ g c.rest = some (x, c'.rest)

def Reads {β : Type} (m : Read β) (g : List UInt8 → Option (β × List UInt8)) : Prop :=
  ∀ c : Cur, c.Clean → ReadsAt m g c

/-- A whole run `r`: where `safe` holds its value is `val`, and it is clean just
there. -/
structure Meets {β : Type} (r : Option β × Cur) (val : Option β) (safe : Prop) : Prop where
  value : safe → r.1 = val
  clean : r.2.Clean ↔ safe

section

variable {α β γ : Type} {b : Slice} {c : Cur}

variable {m : Read β} {f : β → Read γ} {safe : Prop} {n i : Nat}

theorem bind_eq {x : β} {c' : Cur} (h : m c = (some x, c')) :
    (m >>= f) c = f x c' := by
  show (match m c with
    | (none, c) => (none, c)
    | (some x, c) => f x c) = f x c'
  rw [h]

theorem bind_none (h : (m c).1 = none) :
    (m >>= f) c = (none, (m c).2) := by
  show (match m c with
    | (none, c) => (none, c)
    | (some x, c) => f x c) = _
  rcases hm : m c with ⟨_ | x, c'⟩
  · rfl
  · rw [hm] at h
    cases h

/-- **A read followed by a run**: an error where the parser has one, else the run from
where the read leaves off. -/
theorem Meets.bind {g : List UInt8 → Option (β × List UInt8)}
    {k : β × List UInt8 → Option γ} (hread : ReadsAt m g c)
    (hnone : g c.rest = none → safe)
    (hsome : ∀ x c', c'.Clean → c'.b = c.b → g c.rest = some (x, c'.rest) →
      Meets (f x c') (k (x, c'.rest)) safe) :
    Meets ((m >>= f) c) ((g c.rest).bind k) safe := by
  obtain ⟨hg, hm, hclean⟩ | ⟨x, c', hm, hclean, hb, hg⟩ := hread
  · rw [bind_none hm, hg]
    exact ⟨fun _ => rfl, iff_of_true hclean (hnone hg)⟩
  · rw [bind_eq hm, hg]
    exact hsome x c' hclean hb hg

theorem Meets.congr {r : Option β × Cur} {val : Option β} {safe' : Prop}
    (h : Meets r val safe) (hiff : safe ↔ safe') : Meets r val safe' :=
  ⟨fun hs => h.value (hiff.mpr hs), h.clean.trans hiff⟩

theorem Meets.fail (hc : c.Clean) : Meets ((Read.fail : Read β) c) none True :=
  ⟨fun _ => rfl, iff_true_intro hc⟩

theorem Meets.done (x : β) (hc : c.Clean) : Meets ((pure x : Read β) c) (some x) True :=
  ⟨fun _ => rfl, iff_true_intro hc⟩

/-- What a reader has put on record stays there: if it ends clean, it began clean. -/
def Keeps (m : Read β) : Prop := ∀ c : Cur, (m c).2.Clean → c.Clean

theorem clean_of_bind (hf : ∀ x, Keeps (f x))
    (h : ((m >>= f) c).2.Clean) : (m c).2.Clean := by
  rcases hrun : m c with ⟨_ | x, c'⟩
  · rw [bind_none (by rw [hrun]), hrun] at h
    exact h
  · rw [bind_eq hrun] at h
    exact hf x c' h

theorem Keeps.bind (hm : Keeps m) (hf : ∀ x, Keeps (f x)) :
    Keeps (m >>= f) := fun c h => hm c (clean_of_bind hf h)

theorem keeps_pure (x : β) : Keeps (pure x : Read β) := fun _ h => h

theorem keeps_lift (o : Option β) : Keeps (Read.lift o) := fun _ h => h

theorem keeps_pos : Keeps Read.pos := fun _ h => h

theorem keeps_compute (v : Nat) : Keeps (Read.compute v) := fun _ h =>
  ⟨(Bool.or_eq_false_iff.mp h.not_wrapped).1, h.reserved_le⟩

theorem keeps_reserve (n bytes : Nat) : Keeps (Read.reserve n bytes) := fun _ h =>
  ⟨h.not_wrapped, fun p hp => h.reserved_le p (List.mem_cons_of_mem _ hp)⟩

theorem keeps_get (e : Nat) : Keeps (Read.get e) := by
  intro c h
  unfold Read.get at h
  split at h
  · exact ⟨h.not_wrapped, h.reserved_le⟩
  · exact h

theorem keeps_u32 : Keeps Read.u32 :=
  keeps_pos.bind fun _ => (keeps_compute _).bind fun e => (keeps_get e).bind fun _ => keeps_lift _

/-- The tail of a counted run, once its length is computed. -/
theorem keeps_block (of : Nat → β) (size : Nat) : Keeps (do
    let e ← Read.compute ((← Read.pos) + size)
    let s ← Read.get e
    Read.reserve (s.length / 4) s.length
    pure ((words s).map of)) :=
  keeps_pos.bind fun _ => (keeps_compute _).bind fun e => (keeps_get e).bind fun _ =>
    (keeps_reserve _ _).bind fun _ => keeps_pure _

theorem keeps_many (of : Nat → β) (n : Nat) : Keeps (Read.many of n) :=
  (keeps_compute _).bind fun size => keeps_block of size

theorem keeps_rows (n : Nat) : Keeps (Read.rows n) := by
  induction n with
  | zero => exact keeps_pure []
  | succ n ih =>
    exact keeps_u32.bind fun len => (keeps_many id len).bind fun _ => ih.bind fun _ => keeps_pure _

theorem not_clean_computing {v : Nat} (h : 2 ^ 64 ≤ v) : ¬ (c.computing v).Clean := by
  intro hclean
  have hnot := (Bool.or_eq_false_iff.mp hclean.not_wrapped).2
  exact absurd h (of_decide_eq_false hnot)

theorem compute_eq {v : Nat} (h : v < 2 ^ 64) : Read.compute v c = (some v, c) := by
  have hsame : c.computing v = c := by
    rw [Cur.computing, decide_eq_false (Nat.not_le.mpr h), Bool.or_false]
  rw [Read.compute, Nat.mod_eq_of_lt h, hsame]

theorem pos_eq : Read.pos c = (some c.i, c) := rfl

theorem Cur.add_le (h : n ≤ c.rest.length) : c.i + n ≤ c.b.bytes.length := by
  rw [Cur.length_rest] at h
  have := c.i_le
  omega

theorem get_of_le (h : n ≤ c.rest.length) :
    Read.get (c.i + n) c = (some (c.rest.take n), c.move (c.i + n) (c.add_le h)) := by
  unfold Read.get
  rw [dif_pos ⟨Nat.le_add_right .., c.add_le h⟩, Nat.add_sub_cancel_left]
  rfl

theorem get_of_gt (h : c.rest.length < n) : Read.get (c.i + n) c = (none, c) := by
  rw [Cur.length_rest] at h
  unfold Read.get
  exact dif_neg (by omega)

theorem Cur.Clean.move {e : Nat} {h : e ≤ c.b.bytes.length} (hc : c.Clean) : (c.move e h).Clean :=
  ⟨hc.not_wrapped, hc.reserved_le⟩

theorem Cur.rest_move (h : c.i + n ≤ c.b.bytes.length) :
    (c.move (c.i + n) h).rest = c.rest.drop n := by
  rw [Cur.rest, Cur.rest, List.drop_drop]
  rfl

/-- A word is read as the parser reads it. -/
theorem reads_u32 : Reads Read.u32 getWord := by
  intro c hc
  have hfits : c.i + 4 < 2 ^ 64 := by
    have := c.i_le
    have := c.b.length_lt
    omega
  unfold ReadsAt Read.u32
  rw [bind_eq pos_eq, bind_eq (compute_eq hfits)]
  by_cases h : 4 ≤ c.rest.length
  · right
    rw [bind_eq (get_of_le h)]
    rcases hw : getWord c.rest with _ | ⟨v, rest⟩
    · rw [getWord_eq_none_iff] at hw
      omega
    · obtain ⟨_, hrest, _⟩ := getWord_some hw
      refine ⟨v, c.move (c.i + 4) (c.add_le h), ?_, hc.move, rfl, ?_⟩
      · rw [getWord_take hw]
        rfl
      · rw [hrest, Cur.rest_move]
  · left
    have hlt := Nat.lt_of_not_le h
    rw [bind_none (by rw [get_of_gt hlt]), get_of_gt hlt]
    exact ⟨getWord_eq_none_iff.mpr hlt, rfl, hc⟩

theorem Cur.Clean.reserving {bytes : Nat} (hc : c.Clean) (h : 4 * n ≤ bytes) :
    (c.reserving n bytes).Clean := by
  refine ⟨hc.not_wrapped, fun p hp => ?_⟩
  obtain rfl | hp := List.mem_cons.mp hp
  · exact h
  · exact hc.reserved_le p hp

/-- **A counted run**, if the end of it is an offset. -/
theorem readsAt_many (of : Nat → β) (hc : c.Clean) (hend : c.i + 4 * n < 2 ^ 64) :
    ReadsAt (Read.many of n) (getMany (getAs of) n) c := by
  unfold ReadsAt Read.many
  rw [bind_eq (compute_eq (v := n * 4) (by omega)), bind_eq pos_eq, Nat.mul_comm n 4,
    bind_eq (compute_eq hend), getMany_map_words]
  by_cases h : 4 * n ≤ c.rest.length
  · right
    rw [bind_eq (get_of_le h), if_pos h]
    have hroom : 4 * ((c.rest.take (4 * n)).length / 4) ≤ (c.rest.take (4 * n)).length :=
      Nat.mul_div_le ..
    refine ⟨_, (c.move (c.i + 4 * n) (c.add_le h)).reserving _ _, rfl, hc.move.reserving hroom,
      rfl, ?_⟩
    exact congrArg (fun rest => some (_, rest)) (Cur.rest_move (c.add_le h)).symm
  · left
    have hlt := Nat.lt_of_not_le h
    rw [bind_none (by rw [get_of_gt hlt]), get_of_gt hlt, if_neg h]
    exact ⟨rfl, rfl, hc⟩

/-- A run whose end is not an offset wraps, in the product or in the sum. -/
theorem many_wraps (of : Nat → β) (hend : 2 ^ 64 ≤ c.i + 4 * n) :
    ¬ (Read.many of n c).2.Clean := by
  intro hclean
  by_cases hsize : 2 ^ 64 ≤ n * 4
  · exact not_clean_computing hsize (keeps_block of (n * 4 % 2 ^ 64) (c.computing (n * 4)) hclean)
  · unfold Read.many at hclean
    rw [bind_eq (compute_eq (Nat.lt_of_not_le hsize)), bind_eq pos_eq] at hclean
    have hsum : 2 ^ 64 ≤ c.i + n * 4 := by omega
    refine not_clean_computing (c := c) hsum ?_
    have htail : Keeps (Read.get ((c.i + n * 4) % 2 ^ 64) >>= fun s =>
        Read.reserve (s.length / 4) s.length >>= fun _ => pure ((words s).map of)) :=
      (keeps_get _).bind fun _ => (keeps_reserve _ _).bind fun _ => keeps_pure _
    exact htail (c.computing (c.i + n * 4)) hclean

theorem ReadsAt.bind {g : List UInt8 → Option (β × List UInt8)}
    {k : β × List UInt8 → Option (γ × List UInt8)} (hread : ReadsAt m g c)
    (h : ∀ x c', c'.Clean → c'.b = c.b → g c.rest = some (x, c'.rest) →
      ReadsAt (f x) (fun rest => k (x, rest)) c') :
    ReadsAt (m >>= f) (fun bytes => (g bytes).bind k) c := by
  obtain ⟨hg, hnone, hclean⟩ | ⟨x, c', hm, hclean, hb, hg⟩ := hread
  · have hk : (g c.rest).bind k = none := congrArg (·.bind k) hg
    unfold ReadsAt
    rw [bind_none hnone]
    exact .inl ⟨hk, rfl, hclean⟩
  · have hk : (g c.rest).bind k = k (x, c'.rest) := congrArg (·.bind k) hg
    unfold ReadsAt
    rw [bind_eq hm]
    obtain ⟨hnext, hrun⟩ | ⟨y, c₂, hf, hclean₂, hb₂, hnext⟩ := h x c' hclean hb hg
    · exact .inl ⟨hk.trans hnext, hrun⟩
    · exact .inr ⟨y, c₂, hf, hclean₂, hb₂.trans hb, hk.trans hnext⟩

theorem readsAt_pure (x : β) (hc : c.Clean) :
    ReadsAt (pure x) (fun rest => some (x, rest)) c := .inr ⟨x, c, rfl, hc, rfl, rfl⟩

/-- A counted run of words with its count read from a word. -/
theorem readsAt_u32s (hc : c.Clean) (hn : n < 2 ^ 32) :
    ReadsAt (Read.u32s n) (getMany getWord n) c := by
  rw [← getAs_id]
  refine readsAt_many id hc ?_
  have := c.i_le
  have := c.b.length_lt
  omega

theorem reads_rows (n : Nat) : Reads (Read.rows n) (getMany getSel n) := by
  induction n with
  | zero => exact fun c hc => readsAt_pure [] hc
  | succ n ih =>
    intro c hc
    have hsel : getMany getSel (n + 1) = fun bytes => (getWord bytes).bind fun p =>
        (getMany getWord p.1 p.2).bind fun q =>
          (getMany getSel n q.2).bind fun r => some (q.1 :: r.1, r.2) := by
      funext bytes
      rw [getMany_succ, getSel]
      cases getWord bytes <;> rfl
    rw [hsel]
    refine ReadsAt.bind (reads_u32 c hc) fun len c₁ hc₁ _ hlen => ?_
    refine ReadsAt.bind (readsAt_u32s hc₁ (getWord_some hlen).2.2) fun q c₂ hc₂ _ _ => ?_
    refine ReadsAt.bind (ih c₂ hc₂) fun qs c₃ hc₃ _ _ => ?_
    exact readsAt_pure (q :: qs) hc₃

theorem Cur.i_of_rest {c' : Cur} (hb : c'.b = c.b) (hi : i ≤ c.b.bytes.length)
    (hrest : c'.rest = c.b.bytes.drop i) : c'.i = i := by
  have hlen := congrArg List.length hrest
  have hle := c'.i_le
  rw [Cur.length_rest, List.length_drop] at hlen
  rw [hb] at hlen hle
  omega

/-- A word read at byte `i`, if it is there. -/
theorem Meets.word {f : Nat → Read γ} {k : Nat × List UInt8 → Option γ}
    (hc : c.Clean) (hb : c.b = b) (hi : c.i = i)
    (h : ∀ c', c'.Clean → c'.b = b → c'.i = i + 4 → i + 4 ≤ b.bytes.length →
      Meets (f (wordAt b.bytes i) c') (k (wordAt b.bytes i, c'.rest)) safe) :
    Meets ((Read.u32 >>= f) c) ((getWord c.rest).bind k) (i + 4 ≤ b.bytes.length → safe) := by
  subst hb hi
  refine Meets.bind (reads_u32 c hc) (fun hnone hle => ?_) fun v c' hc' hb hword => ?_
  · rw [getWord_eq_none_iff, Cur.length_rest] at hnone
    omega
  · obtain ⟨hle, rfl, hrest⟩ := getWord_drop_iff.mp hword
    exact (h c' hc' hb (Cur.i_of_rest hb hle hrest) hle).congr (imp_iff_right hle).symm

/-- A counted run read at byte `i`, if it is there. -/
theorem Meets.run {f : List β → Read γ} {k : List β × List UInt8 → Option γ}
    (of : Nat → β) (hc : c.Clean) (hb : c.b = b) (hi : c.i = i) (hn : n < 2 ^ 32)
    (h : ∀ xs c', c'.Clean → c'.b = b → c'.i = i + 4 * n → i + 4 * n ≤ b.bytes.length →
      Meets (f xs c') (k (xs, c'.rest)) safe) :
    Meets ((Read.many of n >>= f) c) ((getMany (getAs of) n c.rest).bind k)
      (i + 4 * n ≤ b.bytes.length → safe) := by
  subst hb hi
  have hle := c.i_le
  have hlt := c.b.length_lt
  have hmany := getMany_map_words of n c.rest
  rw [Cur.length_rest] at hmany
  refine Meets.bind (readsAt_many of hc (by omega)) (fun hnone hin => ?_)
    fun xs c' hc' hb hrun => ?_
  · rw [hmany, if_pos (by omega)] at hnone
    cases hnone
  · by_cases hin : c.i + 4 * n ≤ c.b.bytes.length
    · rw [hmany, if_pos (by omega)] at hrun
      have hrest : c'.rest = c.b.bytes.drop (c.i + 4 * n) := by
        rw [← (Prod.mk.inj (Option.some.inj hrun)).2, Cur.rest, List.drop_drop]
      exact (h xs c' hc' hb (Cur.i_of_rest hb hin hrest) hin).congr (imp_iff_right hin).symm
    · rw [hmany, if_neg (by omega)] at hrun
      cases hrun

theorem Meets.u32s {f : List Nat → Read γ} {k : List Nat × List UInt8 → Option γ}
    (hc : c.Clean) (hb : c.b = b) (hi : c.i = i) (hn : n < 2 ^ 32)
    (h : ∀ xs c', c'.Clean → c'.b = b → c'.i = i + 4 * n → i + 4 * n ≤ b.bytes.length →
      Meets (f xs c') (k (xs, c'.rest)) safe) :
    Meets ((Read.u32s n >>= f) c) ((getMany getWord n c.rest).bind k)
      (i + 4 * n ≤ b.bytes.length → safe) := by
  rw [← getAs_id]
  exact Meets.run id hc hb hi hn h

/-- A message refused for its magic word. -/
theorem Meets.guard {m : Read γ} {val : Option γ} {v w : Nat} (hc : c.Clean)
    (h : v = w → Meets (m c) val safe) :
    Meets ((if v ≠ w then Read.fail else m) c) (if v ≠ w then none else val) (v = w → safe) := by
  by_cases hv : v = w
  · rw [if_neg (not_not.mpr hv), if_neg (not_not.mpr hv)]
    exact (h hv).congr (imp_iff_right hv).symm
  · rw [if_pos hv, if_pos hv]
    exact (Meets.fail hc).congr (iff_of_true trivial fun h => absurd h hv)

/-- The matrix at the end of a message: `a * b` elements, from byte `i` on. -/
theorem Meets.matrix (codec : Codec α) (mk : List α → γ) {rows cols : Nat} (hc : c.Clean)
    (hi : c.i = i) (hrows : rows < 2 ^ 32) (hcols : cols < 2 ^ 32) :
    Meets ((Read.lift (Read.checkedMul rows cols) >>= fun n => Read.f32s codec n >>= fun xs =>
        pure (mk xs)) c)
      ((getMany codec.get (rows * cols) c.rest).bind fun p => some (mk p.1))
      (i + 4 * (rows * cols) < 2 ^ 64) := by
  subst hi
  have hprod : rows * cols < 2 ^ 64 := by
    calc rows * cols < 2 ^ 32 * 2 ^ 32 := Nat.mul_lt_mul'' hrows hcols
    _ = 2 ^ 64 := by decide
  have hlift : Read.lift (Read.checkedMul rows cols) c = (some (rows * cols), c) := by
    rw [Read.checkedMul, if_pos hprod]
    rfl
  rw [bind_eq hlift]
  by_cases hend : c.i + 4 * (rows * cols) < 2 ^ 64
  · refine Meets.bind (readsAt_many codec.ofWord hc hend) (fun _ => hend)
      fun xs c' hc' _ _ => ?_
    exact (Meets.done (mk xs) hc').congr (iff_of_true trivial hend)
  · have hwraps := many_wraps codec.ofWord (Nat.le_of_not_lt hend)
    exact ⟨fun h => absurd h hend, iff_of_false
      (fun hclean => hwraps (clean_of_bind (fun _ => keeps_pure _) hclean)) hend⟩

/-- Space reserved for `n` elements at byte `i`. -/
theorem Meets.reserve {m : Read γ} {val : Option γ} (hc : c.Clean)
    (hb : c.b = b) (hi : c.i = i) (hm : Keeps m) (hib : i ≤ b.bytes.length)
    (h : ∀ c', c'.Clean → c'.b = b → c'.i = i → c'.rest = c.rest → Meets (m c') val safe) :
    Meets ((Read.left >>= fun l => Read.reserve n l >>= fun _ => m) c) val
      (i + 4 * n ≤ b.bytes.length ∧ safe) := by
  subst hb hi
  have hrun : (Read.left >>= fun l => Read.reserve n l >>= fun _ => m) c
      = m (c.reserving n c.rest.length) := rfl
  rw [hrun]
  by_cases hroom : c.i + 4 * n ≤ c.b.bytes.length
  · have hclean : (c.reserving n c.rest.length).Clean :=
      hc.reserving (by rw [Cur.length_rest]; omega)
    exact (h _ hclean rfl rfl rfl).congr (and_iff_right hroom).symm
  · refine ⟨fun hs => absurd hs.1 hroom, iff_of_false (fun hclean => hroom ?_) fun hs => hroom hs.1⟩
    have hle := (hm _ hclean).reserved_le _ (List.mem_cons_self ..)
    rw [Cur.length_rest] at hle
    dsimp only at hle
    omega

end

/-! ## What the bytes announce -/

/-- The first byte after `n` selection rows that start at byte `i`. -/
def rowsEnd (bytes : List UInt8) : Nat → Nat → Option Nat
  | 0, i => some i
  | n + 1, i =>
    if i + 4 ≤ bytes.length ∧ i + 4 + 4 * wordAt bytes i ≤ bytes.length then
      rowsEnd bytes n (i + 4 + 4 * wordAt bytes i)
    else none

/-- Each row is as long as the word before it. -/
def RowsCounted (bytes : List UInt8) : Nat → List (List Nat) → Prop
  | _, [] => True
  | i, q :: qs => q.length = wordAt bytes i ∧ RowsCounted bytes (i + 4 + 4 * q.length) qs

theorem getSel_drop (bytes : List UInt8) (i : Nat) :
    getSel (bytes.drop i) =
      if i + 4 ≤ bytes.length ∧ i + 4 + 4 * wordAt bytes i ≤ bytes.length then
        some (words ((bytes.drop (i + 4)).take (4 * wordAt bytes i)),
          bytes.drop (i + 4 + 4 * wordAt bytes i))
      else none := by
  rw [getSel]
  by_cases hword : i + 4 ≤ bytes.length
  · have hget := (getWord_drop_iff (v := wordAt bytes i)).mpr ⟨hword, rfl, rfl⟩
    rw [hget]
    show getMany getWord (wordAt bytes i) (bytes.drop (i + 4)) = _
    rw [getMany_getWord, List.length_drop, List.drop_drop]
    by_cases hrow : i + 4 + 4 * wordAt bytes i ≤ bytes.length
    · rw [if_pos (by omega), if_pos ⟨hword, hrow⟩]
    · rw [if_neg (by omega), if_neg fun h => hrow h.2]
  · have hget : getWord (bytes.drop i) = none := by
      rw [getWord_eq_none_iff, List.length_drop]
      omega
    rw [hget, if_neg fun h => hword h.1]
    rfl

/-- **The selection's rows**: read just where there is an end to them, and up to it. -/
theorem getMany_getSel (bytes : List UInt8) (n i : Nat) (hi : i ≤ bytes.length) :
    (rowsEnd bytes n i = none ∧ getMany getSel n (bytes.drop i) = none) ∨
      ∃ e qs, rowsEnd bytes n i = some e ∧ e ≤ bytes.length ∧
        getMany getSel n (bytes.drop i) = some (qs, bytes.drop e) ∧ RowsCounted bytes i qs := by
  induction n generalizing i with
  | zero => exact .inr ⟨i, [], rfl, hi, rfl, trivial⟩
  | succ n ih =>
    rw [getMany_succ, getSel_drop, rowsEnd]
    by_cases h : i + 4 ≤ bytes.length ∧ i + 4 + 4 * wordAt bytes i ≤ bytes.length
    · rw [if_pos h, if_pos h]
      let q := words ((bytes.drop (i + 4)).take (4 * wordAt bytes i))
      have hq : q.length = wordAt bytes i := by
        rw [length_words, List.length_take, List.length_drop]
        omega
      show (_ ∧ ((getMany getSel n _).bind fun r => some (q :: r.1, r.2)) = none) ∨ _
      obtain ⟨hend, hnone⟩ | ⟨e, qs, hend, hle, hsome, hqs⟩ := ih _ h.2
      · rw [hnone]
        exact .inl ⟨hend, rfl⟩
      · refine .inr ⟨e, q :: qs, hend, hle, ?_, hq, hq ▸ hqs⟩
        show ((getMany getSel n _).bind fun r => some (q :: r.1, r.2)) = _
        rw [hsome]
        rfl
    · rw [if_neg h, if_neg h]
      exact .inl ⟨rfl, rfl⟩

/-- The matrix after the header of a response. -/
def ShapedFits (magic : Nat) (b : Slice) : Prop :=
  12 ≤ b.bytes.length → wordAt b.bytes 0 = magic →
    12 + 4 * (wordAt b.bytes 4 * wordAt b.bytes 8) < 2 ^ 64

/-- The matrix after the lists of a request, if the lists are there. -/
def RequestFits (b : Slice) : Prop :=
  let lists := 24 + 4 * wordAt b.bytes 16 + 4 * wordAt b.bytes 20
  lists ≤ b.bytes.length → wordAt b.bytes 0 = reqMagic →
    lists + 4 * (wordAt b.bytes 8 * wordAt b.bytes 12) < 2 ^ 64

/-- The number of selection rows, and the matrix after them, if they are there. -/
def AttnRequestFits (b : Slice) : Prop :=
  32 ≤ b.bytes.length → wordAt b.bytes 0 = areqMagic →
    32 + 4 * wordAt b.bytes 28 ≤ b.bytes.length ∧
      ∀ e, rowsEnd b.bytes (wordAt b.bytes 28) 32 = some e →
        e + 4 * (wordAt b.bytes 8 * wordAt b.bytes 12) < 2 ^ 64

section

variable {α γ : Type}

/-- **A response** is read as `Net` reads it, if its matrix fits. -/
theorem meets_shaped (codec : Codec α) (magic : Nat) (mk : List α → Nat → Nat → γ) (b : Slice) :
    Meets (Read.decodeShaped codec magic mk (Cur.start b))
      ((getWord b.bytes).bind fun (m, rest) => if m ≠ magic then none else
        (getWord rest).bind fun (nTokens, rest) => (getWord rest).bind fun (hidden, rest) =>
          (getMany codec.get (nTokens * hidden) rest).bind fun (outputs, _) =>
            some (mk outputs nTokens hidden))
      (ShapedFits magic b) := by
  refine Meets.congr (Meets.word (b := b) (i := 0)
    (Cur.clean_start b) rfl rfl fun c₁ hc₁ hb₁ hi₁ _ =>
    Meets.guard hc₁ fun _ => Meets.word hc₁ hb₁ hi₁ fun c₂ hc₂ hb₂ hi₂ h₂ =>
      Meets.word hc₂ hb₂ hi₂ fun c₃ hc₃ hb₃ hi₃ h₃ =>
        Meets.matrix codec (fun outputs => mk outputs _ _) hc₃ hi₃ (wordAt_lt h₂) (wordAt_lt h₃)) ?_
  unfold ShapedFits
  constructor
  · intro h hlen hmagic
    exact h (by omega) hmagic (by omega) hlen
  · intro h _ hmagic _ hlen
    exact h hlen hmagic

/-- The rows of a selection from byte `i` on, if they are there. -/
theorem Meets.rows {f : List (List Nat) → Read γ} {k : List (List Nat) × List UInt8 → Option γ}
    {b : Slice} {c : Cur} {i n : Nat} (safe : Nat → Prop) (hc : c.Clean) (hb : c.b = b)
    (hi : c.i = i)
    (h : ∀ qs c' e, c'.Clean → c'.b = b → c'.i = e → Meets (f qs c') (k (qs, c'.rest)) (safe e)) :
    Meets ((Read.rows n >>= f) c) ((getMany getSel n c.rest).bind k)
      (∀ e, rowsEnd b.bytes n i = some e → safe e) := by
  subst hb hi
  have hrest : c.rest = c.b.bytes.drop c.i := rfl
  refine Meets.bind (reads_rows n c hc) (fun hnone e hend => ?_) fun qs c' hc' hb hread => ?_
  · obtain ⟨hnoend, _⟩ | ⟨_, _, _, _, hsome, _⟩ := getMany_getSel c.b.bytes n c.i c.i_le
    · rw [hnoend] at hend
      cases hend
    · rw [hrest, hsome] at hnone
      cases hnone
  · obtain ⟨_, hnone⟩ | ⟨e, _, hend, hle, hsome, _⟩ := getMany_getSel c.b.bytes n c.i c.i_le
    · rw [hrest, hnone] at hread
      cases hread
    · rw [hrest, hsome] at hread
      have hstop := (Prod.mk.inj (Option.some.inj hread)).2
      refine (h qs c' e hc' hb (Cur.i_of_rest hb hle hstop.symm)).congr ?_
      rw [hend]
      exact ⟨fun hs e' he => Option.some.inj he ▸ hs, fun hs => hs e rfl⟩

/-- **An expert response**, if its matrix fits. -/
theorem meets_response (codec : Codec α) (b : Slice) :
    Meets (Read.decodeResponse codec (Cur.start b)) (decodeResponse codec b.bytes)
      (ShapedFits rspMagic b) := meets_shaped codec rspMagic ExpertResponse.mk b

/-- **An attention response**, if its matrix fits. -/
theorem meets_attnResponse (codec : Codec α) (b : Slice) :
    Meets (Read.decodeAttnResponse codec (Cur.start b)) (decodeAttnResponse codec b.bytes)
      (ShapedFits arspMagic b) := meets_shaped codec arspMagic AttnResponse.mk b

/-- **A request** is read as `Net` reads it, if its matrix fits. -/
theorem meets_request (codec : Codec α) (b : Slice) :
    Meets (Read.decodeRequest codec (Cur.start b)) (decodeRequest codec b.bytes)
      (RequestFits b) := by
  refine Meets.congr (Meets.word (b := b) (i := 0) (Cur.clean_start b) rfl rfl
    fun c₁ hc₁ hb₁ hi₁ _ => Meets.guard hc₁ fun _ =>
    Meets.word hc₁ hb₁ hi₁ fun c₂ hc₂ hb₂ hi₂ _ =>
    Meets.word hc₂ hb₂ hi₂ fun c₃ hc₃ hb₃ hi₃ h₃ =>
    Meets.word hc₃ hb₃ hi₃ fun c₄ hc₄ hb₄ hi₄ h₄ =>
    Meets.word hc₄ hb₄ hi₄ fun c₅ hc₅ hb₅ hi₅ h₅ =>
    Meets.word hc₅ hb₅ hi₅ fun c₆ hc₆ hb₆ hi₆ h₆ =>
    Meets.u32s hc₆ hb₆ hi₆ (wordAt_lt h₅) fun experts c₇ hc₇ hb₇ hi₇ _ =>
    Meets.run codec.ofWord hc₇ hb₇ hi₇ (wordAt_lt h₆) fun weights c₈ hc₈ hb₈ hi₈ _ =>
    Meets.matrix codec (fun acts => ExpertRequest.mk experts weights acts _ _ _) hc₈ hi₈
      (wordAt_lt h₃) (wordAt_lt h₄)) ?_
  simp only [RequestFits, Nat.reduceAdd]
  constructor
  · intro h hlen hmagic
    exact h (by omega) hmagic (by omega) (by omega) (by omega) (by omega) (by omega) (by omega)
      (by omega)
  · intro h _ hmagic _ _ _ _ _ _ hlen
    exact h (by omega) hmagic

/-- **An attention request** is read as `Net` reads it, and reserves what it can fill,
if its rows and its matrix fit. -/
theorem meets_attnRequest (codec : Codec α) (b : Slice) :
    Meets (Read.decodeAttnRequest codec (Cur.start b)) (decodeAttnRequest codec b.bytes)
      (AttnRequestFits b) := by
  refine Meets.congr (Meets.word (b := b) (i := 0) (Cur.clean_start b) rfl rfl
    fun c₁ hc₁ hb₁ hi₁ _ => Meets.guard hc₁ fun _ =>
    Meets.word hc₁ hb₁ hi₁ fun c₂ hc₂ hb₂ hi₂ _ =>
    Meets.word hc₂ hb₂ hi₂ fun c₃ hc₃ hb₃ hi₃ h₃ =>
    Meets.word hc₃ hb₃ hi₃ fun c₄ hc₄ hb₄ hi₄ h₄ =>
    Meets.word hc₄ hb₄ hi₄ fun c₅ hc₅ hb₅ hi₅ _ =>
    Meets.word hc₅ hb₅ hi₅ fun c₆ hc₆ hb₆ hi₆ _ =>
    Meets.word hc₆ hb₆ hi₆ fun c₇ hc₇ hb₇ hi₇ _ =>
    Meets.word hc₇ hb₇ hi₇ fun c₈ hc₈ hb₈ hi₈ h₈ =>
    Meets.reserve hc₈ hb₈ hi₈ ?_ h₈ fun c₉ hc₉ hb₉ hi₉ hrest => hrest ▸
    Meets.rows (fun e => e + 4 * (wordAt b.bytes 8 * wordAt b.bytes 12) < 2 ^ 64)
      hc₉ hb₉ hi₉ fun sel c₁₀ e hc₁₀ _ hi₁₀ =>
    Meets.matrix codec (fun acts => AttnRequest.mk acts sel _ _ _ _ _ _) hc₁₀ hi₁₀
      (wordAt_lt h₃) (wordAt_lt h₄)) ?_
  · exact (keeps_rows _).bind fun _ => (keeps_lift _).bind fun n =>
      (keeps_many codec.ofWord n).bind fun _ => keeps_pure _
  · simp only [AttnRequestFits, Nat.reduceAdd]
    constructor
    · intro h hlen hmagic
      exact h (by omega) hmagic (by omega) (by omega) (by omega) (by omega) (by omega) (by omega)
        (by omega)
    · intro h _ hmagic _ _ _ _ _ _ hlen
      exact h (by omega) hmagic

/-! ## What a message that is returned has been checked for -/

/-- The request's fields are the words at their offsets, its vectors as long as those
count. -/
structure RequestCounted (bytes : List UInt8) (r : ExpertRequest α) : Prop where
  layer : r.layer = wordAt bytes 4
  nTokens : r.nTokens = wordAt bytes 8
  hidden : r.hidden = wordAt bytes 12
  experts : r.experts.length = wordAt bytes 16
  weights : r.weights.length = wordAt bytes 20
  activations : r.activations.length = wordAt bytes 8 * wordAt bytes 12

structure ResponseCounted (bytes : List UInt8) (r : ExpertResponse α) : Prop where
  nTokens : r.nTokens = wordAt bytes 4
  hidden : r.hidden = wordAt bytes 8
  outputs : r.outputs.length = wordAt bytes 4 * wordAt bytes 8

structure AttnRequestCounted (bytes : List UInt8) (r : AttnRequest α) : Prop where
  layer : r.layer = wordAt bytes 4
  nTokens : r.nTokens = wordAt bytes 8
  hidden : r.hidden = wordAt bytes 12
  posBase : r.posBase = wordAt bytes 16
  hStart : r.hStart = wordAt bytes 20
  hCount : r.hCount = wordAt bytes 24
  sel : r.sel.length = wordAt bytes 28
  rows : RowsCounted bytes 32 r.sel
  activations : r.activations.length = wordAt bytes 8 * wordAt bytes 12

structure AttnResponseCounted (bytes : List UInt8) (r : AttnResponse α) : Prop where
  nTokens : r.nTokens = wordAt bytes 4
  hidden : r.hidden = wordAt bytes 8
  outputs : r.outputs.length = wordAt bytes 4 * wordAt bytes 8

variable {bytes : List UInt8}

/-- A word read after byte `i`, and the rest of the parse from byte `i + 4`. -/
theorem bind_getWord {i : Nat} {k : Nat × List UInt8 → Option γ} {r : γ}
    (h : (getWord (bytes.drop i)).bind k = some r) :
    i + 4 ≤ bytes.length ∧ k (wordAt bytes i, bytes.drop (i + 4)) = some r := by
  obtain ⟨⟨v, rest⟩, hword, hk⟩ := Option.bind_eq_some_iff.mp h
  obtain ⟨hle, rfl, rfl⟩ := getWord_drop_iff.mp hword
  exact ⟨hle, hk⟩

theorem of_guard {v w : Nat} {o : Option γ} {r : γ} (h : (if v ≠ w then none else o) = some r) :
    o = some r := by
  split at h
  · cases h
  · exact h

theorem response_counted (codec : Codec α) {r : ExpertResponse α}
    (h : decodeResponse codec bytes = some r) : ResponseCounted bytes r := by
  obtain ⟨_, h⟩ := bind_getWord (i := 0) h
  have h := of_guard h
  obtain ⟨_, h⟩ := bind_getWord h
  obtain ⟨_, h⟩ := bind_getWord h
  obtain ⟨⟨outputs, rest⟩, hmany, hr⟩ := Option.bind_eq_some_iff.mp h
  cases hr
  exact ⟨rfl, rfl, getMany_length hmany⟩

theorem attnResponse_counted (codec : Codec α) {r : AttnResponse α}
    (h : decodeAttnResponse codec bytes = some r) : AttnResponseCounted bytes r := by
  obtain ⟨_, h⟩ := bind_getWord (i := 0) h
  have h := of_guard h
  obtain ⟨_, h⟩ := bind_getWord h
  obtain ⟨_, h⟩ := bind_getWord h
  obtain ⟨⟨outputs, rest⟩, hmany, hr⟩ := Option.bind_eq_some_iff.mp h
  cases hr
  exact ⟨rfl, rfl, getMany_length hmany⟩

theorem request_counted (codec : Codec α) {r : ExpertRequest α}
    (h : decodeRequest codec bytes = some r) : RequestCounted bytes r := by
  obtain ⟨_, h⟩ := bind_getWord (i := 0) h
  have h := of_guard h
  obtain ⟨_, h⟩ := bind_getWord h
  obtain ⟨_, h⟩ := bind_getWord h
  obtain ⟨_, h⟩ := bind_getWord h
  obtain ⟨_, h⟩ := bind_getWord h
  obtain ⟨_, h⟩ := bind_getWord h
  obtain ⟨⟨experts, rest⟩, hexperts, h⟩ := Option.bind_eq_some_iff.mp h
  obtain ⟨⟨weights, rest⟩, hweights, h⟩ := Option.bind_eq_some_iff.mp h
  obtain ⟨⟨activations, rest⟩, hmatrix, hr⟩ := Option.bind_eq_some_iff.mp h
  cases hr
  exact ⟨rfl, rfl, rfl, getMany_length hexperts, getMany_length hweights,
    getMany_length hmatrix⟩

/-- The fields of a decoded attention request are its header words, and its lists have the lengths
they say. -/
theorem attnRequest_counted (codec : Codec α) {r : AttnRequest α}
    (h : decodeAttnRequest codec bytes = some r) : AttnRequestCounted bytes r := by
  obtain ⟨_, h⟩ := bind_getWord (i := 0) h
  have h := of_guard h
  obtain ⟨_, h⟩ := bind_getWord h
  obtain ⟨_, h⟩ := bind_getWord h
  obtain ⟨_, h⟩ := bind_getWord h
  obtain ⟨_, h⟩ := bind_getWord h
  obtain ⟨_, h⟩ := bind_getWord h
  obtain ⟨_, h⟩ := bind_getWord h
  obtain ⟨hle, h⟩ := bind_getWord h
  obtain ⟨⟨sel, rest⟩, hsel, h⟩ := Option.bind_eq_some_iff.mp h
  obtain ⟨⟨activations, rest⟩, hmatrix, hr⟩ := Option.bind_eq_some_iff.mp h
  cases hr
  refine ⟨rfl, rfl, rfl, rfl, rfl, rfl, getMany_length hsel, ?_, getMany_length hmatrix⟩
  obtain ⟨_, hnone⟩ | ⟨_, _, _, _, hsome, hrows⟩ := getMany_getSel bytes _ 32 hle
  · rw [hnone] at hsel
    cases hsel
  · rw [hsome] at hsel
    cases hsel
    exact hrows

/-- The decoder validates what it returns: a message has what `good` says, and neither
a length has wrapped nor space been asked for that the bytes could not fill, whether
there is a message or not. -/
structure Validates {β : Type} (r : Option β × Cur) (good : β → Prop) : Prop where
  counted : ∀ x, r.1 = some x → good x
  clean : r.2.Clean

theorem Meets.validates {β : Type} {r : Option β × Cur} {val : Option β} {safe : Prop}
    {good : β → Prop} (h : Meets r val safe) (hgood : ∀ x, val = some x → good x) :
    Validates r good ↔ safe := by
  constructor
  · intro hv
    exact h.clean.mp hv.clean
  · intro hs
    exact ⟨fun x hx => hgood x (h.value hs ▸ hx), h.clean.mpr hs⟩

/-- **The decoders validate what they return** just where the lengths the bytes announce
are offsets, and the selection's rows are not more than the bytes left could be. -/
theorem decoders_validate (codec : Codec α) (b : Slice) :
    (Validates (Read.decodeRequest codec (Cur.start b)) (RequestCounted b.bytes) ↔ RequestFits b) ∧
    (Validates (Read.decodeResponse codec (Cur.start b)) (ResponseCounted b.bytes) ↔
      ShapedFits rspMagic b) ∧
    (Validates (Read.decodeAttnRequest codec (Cur.start b)) (AttnRequestCounted b.bytes) ↔
      AttnRequestFits b) ∧
    (Validates (Read.decodeAttnResponse codec (Cur.start b)) (AttnResponseCounted b.bytes) ↔
      ShapedFits arspMagic b) :=
  ⟨(meets_request codec b).validates fun _ => request_counted codec,
    (meets_response codec b).validates fun _ => response_counted codec,
    (meets_attnRequest codec b).validates fun _ => attnRequest_counted codec,
    (meets_attnResponse codec b).validates fun _ => attnResponse_counted codec⟩

end

/-- Words as the elements they are. -/
def wordCodec : Codec (Fin (2 ^ 32)) where
  toWord := Fin.val
  ofWord v := ⟨v % 2 ^ 32, Nat.mod_lt _ (by decide)⟩
  toWord_lt := Fin.isLt
  ofWord_toWord x := Fin.ext (Nat.mod_eq_of_lt x.isLt)

/-- A response of twelve bytes that announces `2 ^ 31` tokens of `2 ^ 31`. -/
def hugeResponse : Slice :=
  ⟨[80, 83, 82, 67, 0, 0, 0, 128, 0, 0, 0, 128], by decide⟩

/-- An attention request of its header alone that announces `2 ^ 32 - 1` rows. -/
def hugeSelection : Slice :=
  ⟨[81, 82, 65, 67] ++ List.replicate 24 0 ++ [255, 255, 255, 255], by decide⟩

/-- **A matrix of `2 ^ 62` elements is returned empty**: four bytes for each are `2 ^ 64`,
which is none. And space for `2 ^ 32 - 1` rows is asked for with no byte left. -/
theorem huge_counts_accepted :
    (Read.decodeResponse wordCodec (Cur.start hugeResponse)).1 = some ⟨[], 2 ^ 31, 2 ^ 31⟩ ∧
    ¬ Validates (Read.decodeResponse wordCodec (Cur.start hugeResponse))
        (ResponseCounted hugeResponse.bytes) ∧
    ¬ Validates (Read.decodeAttnRequest wordCodec (Cur.start hugeSelection))
        (AttnRequestCounted hugeSelection.bytes) := by
  have hvalue : (Read.decodeResponse wordCodec (Cur.start hugeResponse)).1
      = some ⟨[], 2 ^ 31, 2 ^ 31⟩ := rfl
  refine ⟨hvalue, fun h => ?_, fun h => ?_⟩
  · have hlen := (h.counted _ hvalue).outputs
    have hannounced :
      wordAt hugeResponse.bytes 4 * wordAt hugeResponse.bytes 8 = 2 ^ 62 := by decide
    rw [hannounced] at hlen
    cases hlen
  · have hfits := (meets_attnRequest wordCodec hugeSelection).clean.mp h.clean
    have hrows : wordAt hugeSelection.bytes 28 = 2 ^ 32 - 1 := by decide
    have hroom := (hfits (by decide) (by decide)).1
    rw [hrows] at hroom
    exact absurd hroom (by decide)

end Colibri.Cluster
