import Mathlib.Order.Interval.Finset.Nat

/-!
# A ring of rows over an unbounded sequence

A ring of `ring` physical rows keeps the recent end of a sequence of rows
indexed by absolute position: position `p` lives at `p % ring`. The ring is
correct as long as any two positions that are both still needed lie less than
`ring` apart, and nothing about it is safe otherwise: a stale slot holds a row of
some other position, in bounds and plausible.

`Shows ring lo hi buf m` is the one invariant: the buffer `buf` shows the rows
`lo ≤ p < hi` of the sequence `m`. The rules are

* `Shows.weaken` forgets old rows, `Shows.push` writes the next one, and
  `Shows.pushAll` a batch of them;
* `Shows.carry` moves the shown rows into a ring of another size;
* `Shows.read` reads a span back as one run, or two when it wraps.

A sequence is a function to `Option`, so `none` is a position never written.
-/

namespace Colibri.Ring

variable {α : Type}

/-- `buf` has `ring` slots and shows the rows `lo ≤ p < hi` of `m`. -/
structure Shows (ring lo hi : Nat) (buf : List α) (m : Nat → Option α) : Prop where
  length : buf.length = ring
  span : hi ≤ lo + ring
  row : ∀ p, lo ≤ p → p < hi → buf[p % ring]? = m p

variable {ring lo hi : Nat} {buf xs : List α} {m : Nat → Option α}

theorem Shows.empty (m : Nat → Option α)
    (h : buf.length = ring) : Shows ring lo lo buf m :=
  ⟨h, Nat.le_add_right _ _, fun _ h1 h2 => absurd h1 (Nat.not_le.mpr h2)⟩

theorem slot_inj {p q : Nat} (hp : lo ≤ p) (hp' : p < lo + ring) (hq : lo ≤ q)
    (hq' : q < lo + ring) (h : p % ring = q % ring) : p = q :=
  Nat.mod_injOn_Ico lo ring (Finset.mem_coe.mpr (Finset.mem_Ico.mpr ⟨hp, hp'⟩))
    (Finset.mem_coe.mpr (Finset.mem_Ico.mpr ⟨hq, hq'⟩)) h

theorem Shows.weaken {lo' : Nat}
    (h : Shows ring lo hi buf m) (hlo : lo ≤ lo') : Shows ring lo' hi buf m where
  length := h.length
  span := Nat.le_trans h.span (Nat.add_le_add_right hlo ring)
  row := fun p hp hp' => h.row p (Nat.le_trans hlo hp) hp'

theorem Shows.congr {m' : Nat → Option α}
    (h : Shows ring lo hi buf m) (hm : ∀ p, lo ≤ p → p < hi → m' p = m p) :
    Shows ring lo hi buf m' where
  length := h.length
  span := h.span
  row := fun p hp hp' => (h.row p hp hp').trans (hm p hp hp').symm

/-- Writing the next row, once its slot is free. -/
theorem Shows.push {x : α}
    (h : Shows ring lo hi buf m) (hlo : lo ≤ hi) (hfree : hi < lo + ring) (hx : m hi = some x) :
    Shows ring lo (hi + 1) (buf.set (hi % ring) x) m where
  length := by rw [List.length_set, h.length]
  span := hfree
  row := by
    intro p hp hp'
    have hring : 0 < ring := by omega
    by_cases he : p = hi
    · subst he
      have hb : p % ring < buf.length := by
        rw [h.length]
        exact Nat.mod_lt p hring
      rw [List.getElem?_set_self hb, hx]
    · have hne : hi % ring ≠ p % ring := by
        intro hmod
        exact he (slot_inj hlo hfree hp (by omega) hmod).symm
      rw [List.getElem?_set_ne hne]
      exact h.row p hp (by omega)

/-! ## Writing a batch -/

/-- Rows written at consecutive positions from `hi` on. -/
def pushAll (ring : Nat) : Nat → List α → List α → List α
  | _, buf, [] => buf
  | hi, buf, x :: xs => pushAll ring (hi + 1) (buf.set (hi % ring) x) xs

/-- The sequence after the same writes. -/
def writeAll : Nat → (Nat → Option α) → List α → Nat → Option α
  | _, m, [] => m
  | hi, m, x :: xs => writeAll (hi + 1) (Function.update m hi (some x)) xs

theorem writeAll_cons (hi : Nat) (m : Nat → Option α) (x : α) (xs : List α) :
    writeAll hi m (x :: xs) = writeAll (hi + 1) (Function.update m hi (some x)) xs := rfl

theorem writeAll_lt {p : Nat} (h : p < hi) :
    writeAll hi m xs p = m p := by
  induction xs generalizing hi m with
  | nil => rfl
  | cons x xs ih =>
    rw [writeAll_cons, ih (by omega), Function.update_of_ne (by omega)]

theorem writeAll_ge {p : Nat} (h : hi + xs.length ≤ p) :
    writeAll hi m xs p = m p := by
  induction xs generalizing hi m with
  | nil => rfl
  | cons x xs ih =>
    rw [List.length_cons] at h
    rw [writeAll_cons, ih (by omega), Function.update_of_ne (by omega)]

theorem writeAll_add {i : Nat} (h : i < xs.length) :
    writeAll hi m xs (hi + i) = xs[i]? := by
  induction xs generalizing hi m i with
  | nil => exact absurd h (Nat.not_lt_zero i)
  | cons x xs ih =>
    cases i with
    | zero => rw [writeAll_cons, writeAll_lt (by omega), Nat.add_zero, Function.update_self]; rfl
    | succ i =>
      rw [writeAll_cons, show hi + (i + 1) = hi + 1 + i by omega, ih (by simpa using h)]
      rfl

/-- Writing rows a sequence already has changes nothing. -/
theorem writeAll_self
    (h : ∀ i, i < xs.length → xs[i]? = m (hi + i)) : writeAll hi m xs = m := by
  funext p
  by_cases hlo : p < hi
  · exact writeAll_lt hlo
  · by_cases hp : hi + xs.length ≤ p
    · exact writeAll_ge hp
    · obtain ⟨i, rfl⟩ : ∃ i, p = hi + i := ⟨p - hi, by omega⟩
      rw [writeAll_add (by omega), h i (by omega)]

/-- A batch may overwrite rows shown before it; what is left is the last `ring`
rows. The induction moves the oldest shown row up by one when the ring is
full. -/
theorem Shows.pushAll
    (h : Shows ring lo hi buf m) (hlo : lo ≤ hi) (hring : 0 < ring) (xs : List α) :
    Shows ring (max lo (hi + xs.length - ring)) (hi + xs.length)
      (Ring.pushAll ring hi buf xs) (writeAll hi m xs) := by
  induction xs generalizing lo hi buf m with
  | nil =>
    have hmax : max lo (hi + ([] : List α).length - ring) = lo := by
      have := h.span
      rw [List.length_nil]
      omega
    rw [hmax]
    exact h
  | cons x xs ih =>
    -- the slot of `hi` is free once everything `ring` below it is forgotten
    have h1 : Shows ring (max lo (hi + 1 - ring)) hi buf (Function.update m hi (some x)) :=
      (h.weaken (Nat.le_max_left lo _)).congr
        (fun p _ hp => Function.update_of_ne (Nat.ne_of_lt hp) _ _)
    have h2 := h1.push (x := x) (by omega) (by omega) (Function.update_self hi _ m)
    have h3 := ih h2 (by omega)
    rw [List.length_cons, show hi + (xs.length + 1) = hi + 1 + xs.length by omega]
    have hmax : max (max lo (hi + 1 - ring)) (hi + 1 + xs.length - ring)
        = max lo (hi + 1 + xs.length - ring) := by omega
    rw [hmax] at h3
    exact h3

theorem pushAll_length (ring hi : Nat) (buf xs : List α) :
    (pushAll ring hi buf xs).length = buf.length := by
  induction xs generalizing hi buf with
  | nil => rfl
  | cons x xs ih => rw [pushAll, ih, List.length_set]

/-! ## Reading a span -/

/-- The rows of a sequence in a span. -/
def rowsIn (m : Nat → Option α) (start stop : Nat) : List (Option α) :=
  (List.range' start (stop - start)).map m

theorem rowsIn_getElem? (m : Nat → Option α) {start stop i : Nat} (h : i < stop - start) :
    (rowsIn m start stop)[i]? = some (m (start + i)) := by
  rw [rowsIn, List.getElem?_map, List.getElem?_range' h, Option.map_some, Nat.one_mul]

/-- A span shown by the ring is one run from its first slot, continued at slot
zero if it wraps. -/
theorem Shows.read {start stop : Nat}
    (h : Shows ring lo hi buf m) (hlo : lo ≤ start) (hhi : stop ≤ hi)
    (hspan : stop - start ≤ ring) :
    ((buf.drop (start % ring)).take (min (stop - start) (ring - start % ring))
        ++ buf.take (stop - start - min (stop - start) (ring - start % ring))).map some
      = rowsIn m start stop := by
  apply List.ext_getElem?
  intro i
  by_cases hi' : i < stop - start
  · have hring : 0 < ring := by omega
    have hs : start % ring < ring := Nat.mod_lt start hring
    rw [rowsIn_getElem? m hi', ← h.row (start + i) (by omega) (by omega), List.getElem?_map]
    have hlength := h.length
    have hsplit := Nat.add_mod start i ring
    rw [Nat.mod_eq_of_lt (show i < ring by omega)] at hsplit
    have hlen : ((buf.drop (start % ring)).take
        (min (stop - start) (ring - start % ring))).length
          = min (stop - start) (ring - start % ring) := by
      rw [List.length_take, List.length_drop, h.length]
      omega
    by_cases hhead : i < ring - start % ring
    · rw [List.getElem?_append_left (by omega), List.getElem?_take_of_lt (by omega),
        List.getElem?_drop, hsplit, Nat.mod_eq_of_lt (show start % ring + i < ring by omega)]
      rw [List.getElem?_eq_getElem (by omega)]
      rfl
    · have hwrap : (start + i) % ring = start % ring + i - ring := by
        rw [hsplit, Nat.mod_eq_sub_mod (by omega), Nat.mod_eq_of_lt (by omega)]
      rw [List.getElem?_append_right (by omega), hlen, List.getElem?_take_of_lt (by omega), hwrap,
        show i - min (stop - start) (ring - start % ring) = start % ring + i - ring by omega]
      rw [List.getElem?_eq_getElem (by omega)]
      rfl
  · rw [List.getElem?_eq_none, List.getElem?_eq_none]
    · rw [rowsIn, List.length_map, List.length_range']
      omega
    · rw [List.length_map, List.length_append, List.length_take, List.length_take,
        List.length_drop, h.length]
      omega

/-! ## Moving to another size -/

/-- The rows `lo ≤ p < lo + n` copied from a ring of `old` slots into one of
`rows`; none if a slot is missing. -/
def carry (old rows : Nat) (buf : List α) : Nat → Nat → List α → Option (List α)
  | _, 0, dst => some dst
  | lo, n + 1, dst =>
    match buf[lo % old]? with
    | none => none
    | some x =>
      if lo % rows < dst.length then carry old rows buf (lo + 1) n (dst.set (lo % rows) x)
      else none

/-- The copying loop: `dst` already shows the rows below `p`. -/
theorem Shows.carry_from {old rows : Nat}
    (h : Shows old lo hi buf m) (hm : ∀ p, lo ≤ p → p < hi → ∃ x, m p = some x)
    (hrows : hi ≤ lo + rows) (n p : Nat) (dst : List α) (hp : lo ≤ p) (hn : p + n = hi)
    (hdst : Shows rows lo p dst m) :
    ∃ out, carry old rows buf p n dst = some out ∧ Shows rows lo hi out m := by
  induction n generalizing p dst with
  | zero =>
    rw [Nat.add_zero] at hn
    subst hn
    exact ⟨dst, rfl, hdst⟩
  | succ n ih =>
    obtain ⟨x, hx⟩ := hm p hp (by omega)
    have hsrc : buf[p % old]? = some x := (h.row p hp (by omega)).trans hx
    have hlt : p % rows < dst.length := by
      rw [hdst.length]
      exact Nat.mod_lt p (by omega)
    obtain ⟨out, hout, hshow⟩ := ih (p + 1) (dst.set (p % rows) x) (by omega) (by omega)
      (hdst.push hp (by omega) hx)
    refine ⟨out, ?_, hshow⟩
    simp only [carry, hsrc, hlt, if_true]
    exact hout

/-- A ring moved to a wider one shows the same rows. The copy starts at `start`,
which may lie below the rows shown: what sits in those slots is moved along
without being relied on. -/
theorem Shows.carry {old start : Nat}
    (h : Shows old lo hi buf m) (rows : Nat) (hstart : start ≤ lo) (hle : lo ≤ hi)
    (hold : hi ≤ start + old)
    (hrows : old ≤ rows) (fill : α) :
    ∃ out, Ring.carry old rows buf start (hi - start) (List.replicate rows fill) = some out ∧
      Shows rows lo hi out m := by
  have hself : Shows old start hi buf (fun p => buf[p % old]?) := ⟨h.length, hold, fun _ _ _ => rfl⟩
  have hsome : ∀ p, start ≤ p → p < hi → ∃ x, buf[p % old]? = some x := by
    intro p hp hp'
    have hlt : p % old < buf.length := by
      rw [h.length]
      exact Nat.mod_lt p (by omega)
    exact ⟨_, List.getElem?_eq_getElem hlt⟩
  obtain ⟨out, hout, hshow⟩ := hself.carry_from hsome (by omega) (hi - start) start
    (List.replicate rows fill)
    (Nat.le_refl start) (by omega) (Shows.empty _ (List.length_replicate (a := fill)))
  exact ⟨out, hout, (hshow.weaken hstart).congr (fun p hp hp' => (h.row p hp hp').symm)⟩

end Colibri.Ring
