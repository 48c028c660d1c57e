import Mathlib.Data.List.Basic

/-!
# Lossy UTF-8 decoding as a byte machine

A decoder that never fails turns any byte string into text by replacing each
*maximal ill-formed subpart* with U+FFFD. The usual description scans forward
from a lead byte and backs up when a continuation is missing, which makes
statements about *growing* inputs awkward: the decoding of a prefix is not a
prefix of the decoding. Here the decoder is a machine that eats one byte at a
time and holds at most one unfinished character (`Pending`), so both decodings
run through the same state.

* `segments bs` cuts `bs` into the pieces the decoder replaces by one character
  each: a well-formed character, or an ill-formed subpart that becomes U+FFFD.
  Nothing is dropped (`segments_bytes`).
* `lossy bs` is the decoded text; of an encoded text it is that text (`lossy_encode`).
* `Splits bs o` says that byte offset `o` falls strictly inside a character of
  `bs` other than U+FFFD.

The result the streaming layers need is `lossy_prefix_iff`: the decoding of a
prefix is a prefix of the decoding exactly when the cut does not split a
character. It rests on what the byte after the cut can do to the unfinished
character (`run_pending_head`): complete it, or turn it into U+FFFD.

No byte arithmetic enters these proofs: the ranges of RFC 3629 live in `lead`
and `accept` and are only ever case-split on.
-/

namespace Colibri.Utf8

/-- U+FFFD, what an ill-formed subpart decodes to. -/
def replacement : Char := Char.ofNat 0xFFFD

/-- A character whose lead byte has been read but not its last one: the bytes
so far, how many are owed, the range the next one must lie in, and the code
point bits collected so far. -/
structure Pending where
  bytes : List UInt8
  need : Nat
  lo : UInt8
  hi : UInt8
  acc : Nat
  deriving Repr, DecidableEq

/-- One piece of the input and the character it decodes to. -/
structure Seg where
  bytes : List UInt8
  char : Char
  deriving Repr, DecidableEq

/-- What a byte does: finish a character, leave one unfinished, or be refused. -/
inductive Outcome where
  | done (c : Char)
  | more (p : Pending)
  | refuse
  deriving Repr, DecidableEq

/-- The first byte of a character. The second byte's range is narrowed after
`E0`, `ED`, `F0` and `F4` (no overlong forms, surrogates, or values past
`10FFFF`). -/
def lead (b : UInt8) : Outcome :=
  if b < 0x80 then .done (Char.ofNat b.toNat)
  else if 0xC2 ≤ b ∧ b ≤ 0xDF then .more ⟨[b], 1, 0x80, 0xBF, b.toNat - 0xC0⟩
  else if 0xE0 ≤ b ∧ b ≤ 0xEF then
    .more ⟨[b], 2, if b = 0xE0 then 0xA0 else 0x80, if b = 0xED then 0x9F else 0xBF,
      b.toNat - 0xE0⟩
  else if 0xF0 ≤ b ∧ b ≤ 0xF4 then
    .more ⟨[b], 3, if b = 0xF0 then 0x90 else 0x80, if b = 0xF4 then 0x8F else 0xBF,
      b.toNat - 0xF0⟩
  else .refuse

/-- A further byte of an unfinished character. -/
def accept (p : Pending) (b : UInt8) : Outcome :=
  if p.lo ≤ b ∧ b ≤ p.hi then
    if p.need ≤ 1 then .done (Char.ofNat (p.acc * 64 + (b.toNat - 0x80)))
    else .more ⟨p.bytes ++ [b], p.need - 1, 0x80, 0xBF, p.acc * 64 + (b.toNat - 0x80)⟩
  else .refuse

/-- A byte read between characters. -/
def feedLead (b : UInt8) : List Seg × Option Pending :=
  match lead b with
  | .done c => ([⟨[b], c⟩], none)
  | .more p => ([], some p)
  | .refuse => ([⟨[b], replacement⟩], none)

/-- One byte. A byte the unfinished character refuses ends it as U+FFFD and is
read again between characters. -/
def feed : Option Pending → UInt8 → List Seg × Option Pending
  | none, b => feedLead b
  | some p, b =>
    match accept p b with
    | .done c => ([⟨p.bytes ++ [b], c⟩], none)
    | .more q => ([], some q)
    | .refuse => (⟨p.bytes, replacement⟩ :: (feedLead b).1, (feedLead b).2)

/-- The segments finished while reading `bs`, and the state after it. -/
def run : Option Pending → List UInt8 → List Seg × Option Pending
  | st, [] => ([], st)
  | st, b :: bs =>
    ((feed st b).1 ++ (run (feed st b).2 bs).1, (run (feed st b).2 bs).2)

/-- The end of input: an unfinished character becomes U+FFFD. -/
def flush : Option Pending → List Seg
  | none => []
  | some p => [⟨p.bytes, replacement⟩]

/-- Everything decoded from state `st` on input `bs`. -/
def segmentsFrom (st : Option Pending) (bs : List UInt8) : List Seg :=
  (run st bs).1 ++ flush (run st bs).2

/-- The pieces the decoder cuts `bs` into. -/
def segments (bs : List UInt8) : List Seg := segmentsFrom none bs

/-- The text a list of segments stands for. -/
def text (segs : List Seg) : List Char := segs.map Seg.char

/-- The bytes a list of segments covers. -/
def covered (segs : List Seg) : List UInt8 := segs.flatMap Seg.bytes

/-- Lossy decoding. -/
def lossy (bs : List UInt8) : List Char := text (segments bs)

/-- Byte offset `o` of `bs` lies strictly inside a character other than
U+FFFD. -/
def Splits (bs : List UInt8) (o : Nat) : Prop :=
  ∃ before seg after, segments bs = before ++ seg :: after ∧
    (covered before).length < o ∧ o < (covered before).length + seg.bytes.length ∧
    seg.char ≠ replacement

/-! ## The machine over a concatenation -/

@[simp] theorem text_append (xs ys : List Seg) : text (xs ++ ys) = text xs ++ text ys := by
  simp [text]

@[simp] theorem covered_append (xs ys : List Seg) :
    covered (xs ++ ys) = covered xs ++ covered ys := by
  simp [covered]

theorem run_append (st : Option Pending) (a b : List UInt8) :
    run st (a ++ b) = ((run st a).1 ++ (run (run st a).2 b).1, (run (run st a).2 b).2) := by
  induction a generalizing st with
  | nil => simp [run]
  | cons x a ih => simp only [List.cons_append, run, ih, List.append_assoc]

theorem segmentsFrom_append (st : Option Pending) (a b : List UInt8) :
    segmentsFrom st (a ++ b) = (run st a).1 ++ segmentsFrom (run st a).2 b := by
  simp only [segmentsFrom, run_append, List.append_assoc]

theorem segmentsFrom_cons (st : Option Pending) (b : UInt8) (bs : List UInt8) :
    segmentsFrom st (b :: bs) = (feed st b).1 ++ segmentsFrom (feed st b).2 bs := by
  simp only [segmentsFrom, run, List.append_assoc]

/-- The bytes a state still holds. -/
def held : Option Pending → List UInt8
  | none => []
  | some p => p.bytes

@[simp] theorem held_none : held none = [] := rfl

@[simp] theorem held_some (p : Pending) : held (some p) = p.bytes := rfl

variable {p : Pending} {x : Nat}

theorem lead_more_bytes {b : UInt8} (h : lead b = .more p) : p.bytes = [b] := by
  unfold lead at h
  split at h
  · cases h
  · split at h
    · cases h; rfl
    · split at h
      · cases h; rfl
      · split at h
        · cases h; rfl
        · cases h

theorem accept_more_bytes {q : Pending} {b : UInt8} (h : accept p b = .more q) :
    q.bytes = p.bytes ++ [b] := by
  unfold accept at h
  split at h
  · split at h
    · cases h
    · cases h; rfl
  · cases h

/-- A byte read between characters is either emitted or held. -/
theorem feedLead_bytes (b : UInt8) :
    covered (feedLead b).1 ++ held (feedLead b).2 = [b] := by
  unfold feedLead
  split
  next => rfl
  next p h => simpa [covered, held] using lead_more_bytes h
  next => rfl

/-- One byte moves bytes from the state to the output and loses none. -/
theorem feed_bytes (st : Option Pending) (b : UInt8) :
    covered (feed st b).1 ++ held (feed st b).2 = held st ++ [b] := by
  cases st with
  | none => simpa [feed, held] using feedLead_bytes b
  | some p =>
    simp only [feed]
    split
    next => simp [covered, held]
    next q h => simpa [covered, held] using accept_more_bytes h
    next =>
      have hb := feedLead_bytes b
      simp only [covered, List.flatMap_cons, List.append_assoc, held] at hb ⊢
      rw [hb]

/-- **No byte is lost**: the pieces and what is held are what went in. -/
theorem run_bytes (st : Option Pending) (bs : List UInt8) :
    covered (run st bs).1 ++ held (run st bs).2 = held st ++ bs := by
  induction bs generalizing st with
  | nil => simp [run, covered]
  | cons b bs ih =>
    simp only [run, covered_append, List.append_assoc, ih]
    rw [← List.append_assoc, feed_bytes, List.append_assoc, List.singleton_append]

theorem segments_bytes (bs : List UInt8) : covered (segments bs) = bs := by
  have h := run_bytes none bs
  simp only [segments, segmentsFrom, covered_append]
  cases hst : (run none bs).2 with
  | none => simpa [hst, held, flush, covered] using h
  | some p => simpa [hst, held, flush, covered] using h

/-! ## What happens to an unfinished character -/

/-- An unfinished character always holds at least its lead byte. -/
def Live (st : Option Pending) : Prop := ∀ p, st = some p → p.bytes ≠ []

theorem live_none : Live none := by
  intro p hp
  cases hp

theorem feedLead_live (b : UInt8) : Live (feedLead b).2 := by
  intro p hp
  unfold feedLead at hp
  split at hp
  next => cases hp
  next q h =>
    cases hp
    rw [lead_more_bytes h]
    simp
  next => cases hp

theorem feed_live (st : Option Pending) (b : UInt8) : Live (feed st b).2 := by
  cases st with
  | none => exact feedLead_live b
  | some p =>
    intro q hq
    simp only [feed] at hq
    split at hq
    next => cases hq
    next r h =>
      cases hq
      rw [accept_more_bytes h]
      simp
    next => exact feedLead_live b q hq

theorem run_live {st : Option Pending} (bs : List UInt8) (h : Live st) :
    Live (run st bs).2 := by
  induction bs generalizing st with
  | nil => exact h
  | cons b bs ih => exact ih (feed_live st b)

/-- The segment an unfinished character ends up in: it starts with the held
bytes, and if it is no longer than them it was refused. -/
theorem run_pending_head (p : Pending) (bs : List UInt8) :
    ∃ seg after, segmentsFrom (some p) bs = seg :: after ∧ p.bytes <+: seg.bytes ∧
      (seg.bytes.length ≤ p.bytes.length → seg.char = replacement) := by
  induction bs generalizing p with
  | nil => exact ⟨⟨p.bytes, replacement⟩, [], rfl, List.prefix_refl _, fun _ => rfl⟩
  | cons b bs ih =>
    rw [segmentsFrom_cons]
    simp only [feed]
    split
    next c h =>
      refine ⟨⟨p.bytes ++ [b], c⟩, _, rfl, List.prefix_append _ _, fun hle => ?_⟩
      simp only [List.length_append, List.length_cons, List.length_nil] at hle
      omega
    next q h =>
      obtain ⟨seg, after, he, hpre, _⟩ := ih q
      have hq := accept_more_bytes h
      refine ⟨seg, after, he, (List.prefix_append _ _).trans (hq ▸ hpre), fun hle => ?_⟩
      have := hpre.length_le
      rw [hq] at this
      simp at this
      omega
    next h => exact ⟨⟨p.bytes, replacement⟩, _, rfl, List.prefix_refl _, fun _ => rfl⟩

/-- More input changes the character an unfinished one decodes to only away
from U+FFFD. -/
theorem run_pending_extend (p : Pending) (bs cs : List UInt8) {c : Char} {after : List Char}
    (h : text (segmentsFrom (some p) (bs ++ cs)) = c :: after) (hc : c = replacement) :
    ∃ after', text (segmentsFrom (some p) bs) = replacement :: after' := by
  induction bs generalizing p with
  | nil => exact ⟨[], rfl⟩
  | cons b bs ih =>
    rw [List.cons_append, segmentsFrom_cons] at h
    rw [segmentsFrom_cons]
    simp only [feed] at h ⊢
    split at h
    next d hd =>
      simp only [text, List.map_cons, List.cons_append, List.nil_append,
        List.cons.injEq] at h
      simp [text, h.1, hc]
    next q hq => exact ih q h
    next hr => exact ⟨_, rfl⟩

/-! ## Decoding a prefix -/

theorem lossy_append (a b : List UInt8) :
    lossy (a ++ b) = text (run none a).1 ++ text (segmentsFrom (run none a).2 b) := by
  simp only [lossy, segments, segmentsFrom_append, text_append]

theorem lossy_eq (a : List UInt8) :
    lossy a = text (run none a).1 ++ text (flush (run none a).2) := by
  simp only [lossy, segments, segmentsFrom, text_append]

/-- Decoding a prefix gives a prefix of the decoding iff the character the cut
leaves unfinished, if any, ends as U+FFFD. -/
theorem lossy_prefix_iff_head (a b : List UInt8) :
    lossy a <+: lossy (a ++ b) ↔
      ∀ p, (run none a).2 = some p →
        ∃ after, text (segmentsFrom (some p) b) = replacement :: after := by
  rw [lossy_append, lossy_eq, List.prefix_append_right_inj]
  cases hst : (run none a).2 with
  | none => simp [flush, text]
  | some p =>
    obtain ⟨seg, after, he, _, _⟩ := run_pending_head p b
    simp only [flush, text, List.map_cons, List.map_nil, he, Option.some.injEq]
    constructor
    · intro h q hq
      subst hq
      rw [he]
      have hc : replacement = seg.char := (List.cons_prefix_cons.mp h).1
      exact ⟨after.map Seg.char, by rw [List.map_cons, hc]⟩
    · intro h
      obtain ⟨after', h'⟩ := h p rfl
      rw [he] at h'
      simp only [List.map_cons, List.cons.injEq] at h'
      rw [h'.1]
      exact List.cons_prefix_cons.mpr ⟨rfl, List.nil_prefix⟩

theorem lossy_prefix_of_append {a b c : List UInt8}
    (h : lossy a <+: lossy (a ++ (b ++ c))) : lossy a <+: lossy (a ++ b) := by
  rw [lossy_prefix_iff_head] at h ⊢
  intro p hp
  obtain ⟨after, ha⟩ := h p hp
  exact run_pending_extend p b c ha rfl

/-- Two ways of naming the segment that starts at one offset. -/
theorem append_cons_eq_of_covered {xs ys as bs : List Seg} {x a : Seg}
    (h : xs ++ x :: ys = as ++ a :: bs) {o : Nat}
    (hx : (covered xs).length < o) (hx' : o < (covered xs).length + x.bytes.length)
    (ha : (covered as).length < o) (ha' : o < (covered as).length + a.bytes.length) :
    x = a := by
  rcases List.append_eq_append_iff.mp h with ⟨zs, h1, h2⟩ | ⟨zs, h1, h2⟩
  · cases zs with
    | nil =>
      simp only [List.nil_append, List.cons.injEq] at h2
      exact h2.1
    | cons z zs =>
      simp only [List.cons_append, List.cons.injEq] at h2
      rw [h1, ← h2.1] at ha
      simp [covered] at ha hx'
      omega
  · cases zs with
    | nil =>
      simp only [List.nil_append, List.cons.injEq] at h2
      exact h2.1.symm
    | cons z zs =>
      simp only [List.cons_append, List.cons.injEq] at h2
      rw [h1, ← h2.1] at hx
      simp [covered] at hx ha'
      omega

/-- **Decoding a prefix**: the text of the first bytes stands unchanged in the
text of all of them iff the cut does not split a character. -/
theorem lossy_prefix_iff (a b : List UInt8) :
    lossy a <+: lossy (a ++ b) ↔ ¬ Splits (a ++ b) a.length := by
  rw [lossy_prefix_iff_head]
  have hlen := congrArg List.length (run_bytes none a)
  simp only [List.length_append, held_none, List.nil_append] at hlen
  cases hst : (run none a).2 with
  | none =>
    refine iff_of_true (fun p hp => by cases hp) ?_
    rintro ⟨before, seg, after, hseg, h1, h2, _⟩
    -- between characters the cut is a segment boundary
    rw [hst] at hlen
    rw [segments, segmentsFrom_append, hst] at hseg
    have hcov : (covered (run none a).1).length = a.length := by simpa using hlen
    rcases List.append_eq_append_iff.mp hseg with ⟨zs, e1, e2⟩ | ⟨zs, e1, e2⟩
    · rw [e1] at h1
      simp only [covered_append, List.length_append] at h1
      omega
    · cases zs with
      | nil =>
        rw [List.append_nil] at e1
        rw [e1] at hcov
        omega
      | cons z zs =>
        simp only [List.cons_append, List.cons.injEq] at e2
        rw [e1, ← e2.1] at hcov
        simp [covered] at hcov h1 h2
        omega
  | some p =>
    obtain ⟨seg, after, he, hpre, hshort⟩ := run_pending_head p b
    have hp : p.bytes ≠ [] := run_live a live_none p hst
    have hpos : 0 < p.bytes.length := List.length_pos_of_ne_nil hp
    have hsegs : segments (a ++ b) = (run none a).1 ++ seg :: after := by
      rw [segments, segmentsFrom_append, hst, he]
    rw [hst, held_some] at hlen
    constructor
    · rintro h ⟨before, s, after', hseg, h1, h2, hne⟩
      obtain ⟨after'', h''⟩ := h p rfl
      rw [he] at h''
      have hc : seg.char = replacement := by
        simp only [text, List.map_cons, List.cons.injEq] at h''
        exact h''.1
      rw [hsegs] at hseg
      have hle := hpre.length_le
      by_cases hlt : a.length < (covered (run none a).1).length + seg.bytes.length
      · have := append_cons_eq_of_covered hseg (by omega) hlt h1 h2
        exact hne (this ▸ hc)
      · -- the refused character ends exactly at the cut
        rcases List.append_eq_append_iff.mp hseg with ⟨zs, e1, e2⟩ | ⟨zs, e1, e2⟩
        · cases zs with
          | nil =>
            simp only [List.nil_append, List.cons.injEq] at e2
            exact hne (e2.1 ▸ hc)
          | cons z zs =>
            simp only [List.cons_append, List.cons.injEq] at e2
            rw [e1, ← e2.1] at h1
            simp [covered] at h1 hlt hlen
            omega
        · cases zs with
          | nil =>
            simp only [List.nil_append, List.cons.injEq] at e2
            exact hne (e2.1.symm ▸ hc)
          | cons z zs =>
            simp only [List.cons_append, List.cons.injEq] at e2
            rw [e1, ← e2.1] at hlen
            simp [covered] at hlen h2
            omega
    · intro h q hq
      cases hq
      rw [he]
      by_cases hc : seg.char = replacement
      · exact ⟨text after, by simp [text, hc]⟩
      · refine absurd ⟨(run none a).1, seg, after, hsegs, by omega, ?_, hc⟩ h
        have : ¬ seg.bytes.length ≤ p.bytes.length := fun hle => hc (hshort hle)
        omega

/-- A lone continuation byte is refused; `E4 BD A0` is one character. -/
example : lossy [0xA0, 0xE4, 0xBD, 0xA0] = [replacement, '你'] := by decide

/-! ## Decoding what was encoded -/

/-- The bytes of a text. -/
def encode (cs : List Char) : List UInt8 := cs.flatMap String.utf8EncodeChar

theorem encode_append (cs ds : List Char) : encode (cs ++ ds) = encode cs ++ encode ds :=
  List.flatMap_append

theorem toNat_ofNat (hx : x < 256) : (UInt8.ofNat x).toNat = x := by
  rw [UInt8.toNat_ofNat', Nat.mod_eq_of_lt hx]

/-- Reading the rest of a character: each continuation byte adds six bits. -/
theorem feed_last (hneed : p.need = 1) (hlo : p.lo.toNat ≤ x + 0x80)
    (hhi : x + 0x80 ≤ p.hi.toNat) (hx : x < 64) :
    feed (some p) (UInt8.ofNat (x + 0x80))
      = ([⟨p.bytes ++ [UInt8.ofNat (x + 0x80)], Char.ofNat (p.acc * 64 + x)⟩], none) := by
  have hval := toNat_ofNat (x := x + 0x80) (by omega)
  have haccept : accept p (UInt8.ofNat (x + 0x80)) = .done (Char.ofNat (p.acc * 64 + x)) := by
    unfold accept
    rw [if_pos ⟨by rw [UInt8.le_iff_toNat_le, hval]; exact hlo,
      by rw [UInt8.le_iff_toNat_le, hval]; exact hhi⟩, if_pos (Nat.le_of_eq hneed), hval,
      Nat.add_sub_cancel]
  rw [feed, haccept]

theorem feed_more (hneed : 1 < p.need) (hlo : p.lo.toNat ≤ x + 0x80)
    (hhi : x + 0x80 ≤ p.hi.toNat) (hx : x < 64) :
    feed (some p) (UInt8.ofNat (x + 0x80))
      = ([], some ⟨p.bytes ++ [UInt8.ofNat (x + 0x80)], p.need - 1, 0x80, 0xBF,
          p.acc * 64 + x⟩) := by
  have hval := toNat_ofNat (x := x + 0x80) (by omega)
  have haccept : accept p (UInt8.ofNat (x + 0x80)) = .more ⟨p.bytes ++ [UInt8.ofNat (x + 0x80)],
      p.need - 1, 0x80, 0xBF, p.acc * 64 + x⟩ := by
    unfold accept
    rw [if_pos ⟨by rw [UInt8.le_iff_toNat_le, hval]; exact hlo,
      by rw [UInt8.le_iff_toNat_le, hval]; exact hhi⟩, if_neg (Nat.not_le.mpr hneed), hval,
      Nat.add_sub_cancel]
  rw [feed, haccept]

theorem feed_one (hx : x < 0x80) :
    feed none (UInt8.ofNat x) = ([⟨[UInt8.ofNat x], Char.ofNat x⟩], none) := by
  have hval := toNat_ofNat (x := x) (by omega)
  simp only [feed, feedLead, lead, UInt8.lt_iff_toNat_lt, hval, UInt8.reduceToNat]
  rw [if_pos hx]

theorem feed_two (hlo : 2 ≤ x) (hhi : x < 32) :
    feed none (UInt8.ofNat (x + 0xC0))
      = ([], some ⟨[UInt8.ofNat (x + 0xC0)], 1, 0x80, 0xBF, x⟩) := by
  have hval := toNat_ofNat (x := x + 0xC0) (by omega)
  simp only [feed, feedLead, lead, UInt8.lt_iff_toNat_lt, UInt8.le_iff_toNat_le, hval,
    UInt8.reduceToNat]
  rw [if_neg (by omega), if_pos (by omega), Nat.add_sub_cancel]

theorem feed_three (hx : x < 16) :
    feed none (UInt8.ofNat (x + 0xE0)) = ([], some ⟨[UInt8.ofNat (x + 0xE0)], 2,
      if x = 0 then 0xA0 else 0x80, if x = 13 then 0x9F else 0xBF, x⟩) := by
  have hval := toNat_ofNat (x := x + 0xE0) (by omega)
  simp only [feed, feedLead, lead, UInt8.lt_iff_toNat_lt, UInt8.le_iff_toNat_le,
    ← UInt8.toNat_inj, hval, UInt8.reduceToNat]
  rw [if_neg (by omega), if_neg (by omega), if_pos (by omega), Nat.add_sub_cancel]
  have hfirst : x + 224 = 224 ↔ x = 0 := by omega
  have hlast : x + 224 = 237 ↔ x = 13 := by omega
  simp only [hfirst, hlast]

theorem feed_four (hx : x ≤ 4) :
    feed none (UInt8.ofNat (x + 0xF0)) = ([], some ⟨[UInt8.ofNat (x + 0xF0)], 3,
      if x = 0 then 0x90 else 0x80, if x = 4 then 0x8F else 0xBF, x⟩) := by
  have hval := toNat_ofNat (x := x + 0xF0) (by omega)
  simp only [feed, feedLead, lead, UInt8.lt_iff_toNat_lt, UInt8.le_iff_toNat_le,
    ← UInt8.toNat_inj, hval, UInt8.reduceToNat]
  rw [if_neg (by omega), if_neg (by omega), if_neg (by omega), if_pos (by omega),
    Nat.add_sub_cancel]
  have hfirst : x + 240 = 240 ↔ x = 0 := by omega
  have hlast : x + 240 = 244 ↔ x = 4 := by omega
  simp only [hfirst, hlast]

/-- **A character that was encoded is read as itself.** -/
theorem run_encodeChar (c : Char) :
    run none (String.utf8EncodeChar c) = ([⟨String.utf8EncodeChar c, c⟩], none) := by
  have hchar : Char.ofNat c.val.toNat = c := Char.ofNat_toNat c
  have hvalid : c.val.toNat < 0xD800 ∨ 0xDFFF < c.val.toNat ∧ c.val.toNat < 0x110000 := c.valid
  unfold String.utf8EncodeChar
  dsimp only
  generalize c.val.toNat = v at hchar hvalid
  split
  next hone =>
    rw [run, feed_one (Nat.lt_succ_of_le hone), hchar]
    rfl
  next hone =>
    split
    next htwo =>
      rw [run, feed_two (by omega) (by omega), run,
        feed_last rfl (Nat.le_add_left ..) (by show _ ≤ 191; omega) (by omega)]
      have hsum : v / 64 % 0x20 * 64 + v % 0x40 = v := by omega
      simp only [run, hsum, hchar]
      rfl
    next htwo =>
      split
      next hthree =>
        rw [run, feed_three (by omega), run, feed_more (by show 1 < 2; omega) ?_ ?_ (by omega), run,
          feed_last rfl (Nat.le_add_left ..) (by show _ ≤ 191; omega) (by omega)]
        · have hsum : (v / 4096 % 0x10 * 64 + v / 64 % 0x40) * 64 + v % 0x40 = v := by omega
          simp only [run, hsum, hchar]
          rfl
        -- no overlong form, and no surrogate
        · dsimp only
          split
          · show 160 ≤ _
            omega
          · exact Nat.le_add_left ..
        · dsimp only
          split
          · show _ ≤ 159
            omega
          · show _ ≤ 191
            omega
      next hthree =>
        rw [run, feed_four (by omega), run, feed_more (by show 1 < 3; omega) ?_ ?_ (by omega), run,
          feed_more (by show 1 < 2; omega) (Nat.le_add_left ..) (by show _ ≤ 191; omega) (by omega),
          run, feed_last rfl (Nat.le_add_left ..) (by show _ ≤ 191; omega) (by omega)]
        · have hsum : ((v / 262144 % 0x08 * 64 + v / 4096 % 0x40) * 64 + v / 64 % 0x40) * 64
              + v % 0x40 = v := by omega
          simp only [run, hsum, hchar]
          rfl
        · dsimp only
          split
          · show 144 ≤ _
            omega
          · exact Nat.le_add_left ..
        · dsimp only
          split
          · show _ ≤ 143
            omega
          · show _ ≤ 191
            omega

/-- **Decoding gives back the text.** -/
theorem lossy_encode (cs : List Char) : lossy (encode cs) = cs := by
  induction cs with
  | nil => rfl
  | cons c cs ih =>
    rw [encode, List.flatMap_cons, lossy_append, run_encodeChar]
    show [c] ++ lossy (encode cs) = _
    rw [ih]
    rfl

/-- A byte of a character is the character, or above ASCII. -/
theorem mem_utf8EncodeChar {c : Char} {x : UInt8} (h : x ∈ String.utf8EncodeChar c) :
    x.toNat = c.toNat ∨ 128 ≤ x.toNat := by
  have hvalid : c.val.toNat < 0xD800 ∨ 0xDFFF < c.val.toNat ∧ c.val.toNat < 0x110000 := c.valid
  have hhigh : ∀ w, 128 ≤ w → w < 256 → 128 ≤ (UInt8.ofNat w).toNat := by
    intro w hlo hhi
    rw [toNat_ofNat hhi]
    exact hlo
  show x.toNat = c.val.toNat ∨ 128 ≤ x.toNat
  unfold String.utf8EncodeChar at h
  dsimp only at h
  generalize c.val.toNat = v at h hvalid
  split at h
  next hone =>
    rw [List.mem_singleton] at h
    rw [h, toNat_ofNat (by omega)]
    exact .inl rfl
  next =>
    -- every other byte has its high bit set
    right
    split at h
    next =>
      simp only [List.mem_cons, List.not_mem_nil, or_false] at h
      rcases h with rfl | rfl
      · exact hhigh _ (by omega) (by omega)
      · exact hhigh _ (by omega) (by omega)
    next =>
      split at h
      next =>
        simp only [List.mem_cons, List.not_mem_nil, or_false] at h
        rcases h with rfl | rfl | rfl
        · exact hhigh _ (by omega) (by omega)
        · exact hhigh _ (by omega) (by omega)
        · exact hhigh _ (by omega) (by omega)
      next =>
        simp only [List.mem_cons, List.not_mem_nil, or_false] at h
        rcases h with rfl | rfl | rfl | rfl
        · exact hhigh _ (by omega) (by omega)
        · exact hhigh _ (by omega) (by omega)
        · exact hhigh _ (by omega) (by omega)
        · exact hhigh _ (by omega) (by omega)

/-- An ASCII byte of a text is a character of the text. -/
theorem mem_encode {s : List Char} {x : UInt8} (h : x ∈ encode s) (hx : x.toNat < 128) :
    Char.ofNat x.toNat ∈ s := by
  obtain ⟨c, hc, hbyte⟩ := List.mem_flatMap.mp h
  rcases mem_utf8EncodeChar hbyte with heq | hge
  · rw [heq, Char.ofNat_toNat]
    exact hc
  · omega

end Colibri.Utf8
