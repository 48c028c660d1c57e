import Colibri.Json.Place

/-!
# Two parsers that agree

The parser of bytes and the parser of characters are the same parser: of a text in UTF-8 the
first makes what the second makes of its characters (`parse_encode`). Each step of the one that
starts at some characters (`At`) makes what the step of the other makes of them, and leaves what
it leaves: `At.hex4`, `At.unicode`, `At.strLoop`, `At.parseNum`, and the three calls of
`CallsAgree`.

Two things have to be shown beyond that:

* A string is put together from bytes, and decoded at its end. `Whole bs cs` says that the bytes
  `bs` decode to `cs` whatever comes after them. A surrogate that `\u` leaves alone is three
  bytes that are no character, and they decode to three replacements (`whole_pushUtf8`).
* `true`, `false` and `null` skip bytes without a look at them. The index may then be past the
  end, or inside of a character. Nothing is read from there any more, and the other parser has
  nothing left (`Leaves`).

`calls_agree` is the induction over the calls. It is on the turns that are left, as in
`calls_total`.
-/

namespace Colibri.JsonBytes

open Batch JsonValue

section

variable {b : List UInt8} {i : Nat} {s : List Char}

/-! ## What `\u` stands for -/

theorem hexDigit_byte : ∀ n < 128, hexDigit (UInt8.ofNat n) = JsonValue.hexDigit (Char.ofNat n) := by
  decide

theorem hexDigit_high {x : UInt8} (h : 128 ≤ x.toNat) : hexDigit x = none := by
  have hle : ∀ c : Char, c.toNat < 128 → ¬ x ≤ byte c := by
    intro c hc hle
    have := UInt8.le_iff_toNat_le.mp hle
    rw [toNat_byte hc] at this
    omega
  unfold hexDigit
  rw [if_neg fun hx => hle '9' (by decide) hx.2, if_neg fun hx => hle 'f' (by decide) hx.2,
    if_neg fun hx => hle 'F' (by decide) hx.2]

theorem hexDigit_other {c : Char} (h : 128 ≤ c.toNat) : JsonValue.hexDigit c = none := by
  have hle : ∀ d : Char, d.toNat < 128 → ¬ c ≤ d := by
    intro d hd hle
    have : c.toNat ≤ d.toNat := UInt32.le_iff_toNat_le.mp hle
    omega
  unfold JsonValue.hexDigit
  rw [if_neg fun hx => hle '9' (by decide) hx.2, if_neg fun hx => hle 'f' (by decide) hx.2,
    if_neg fun hx => hle 'F' (by decide) hx.2]

/-- The digits of `\u` are the same; four of them fit easily. -/
theorem At.hexFrom {n k v : Nat} (h : At b i s) (hk : n + k ≤ 4) (hv : v < 16 ^ k) :
    ∃ j, hexFrom b n v i = .ok ((JsonValue.hexFrom n v s).1, j) ∧
      At b j (JsonValue.hexFrom n v s).2 ∧ i ≤ j := by
  induction n generalizing k v i s with
  | zero =>
    have hdone : JsonValue.hexFrom 0 v s = (v, s) := by cases s <;> rfl
    rw [hdone]
    exact ⟨i, rfl, h, Nat.le_refl i⟩
  | succ n ih =>
    have hstop : hexDigit (cur b i) = none → JsonValue.hexFrom (n + 1) v s = (v, s) →
        ∃ j, JsonBytes.hexFrom b (n + 1) v i = .ok ((JsonValue.hexFrom (n + 1) v s).1, j) ∧
          At b j (JsonValue.hexFrom (n + 1) v s).2 ∧ i ≤ j := by
      intro hbyte hchar
      rw [JsonBytes.hexFrom, hbyte, hchar]
      exact ⟨i, rfl, h, Nat.le_refl i⟩
    cases h.seen with
    | nil _ hcur =>
      refine hstop ?_ rfl
      rw [hcur]
      decide
    | @ascii c s hc hdrop hnext =>
      have hdigit : hexDigit (cur b i) = JsonValue.hexDigit c := by
        have hn := hexDigit_byte c.toNat hc
        rw [Char.ofNat_toNat] at hn
        rw [cur_of_drop hdrop]
        exact hn
      cases hd : JsonValue.hexDigit c with
      | none =>
        refine hstop (hdigit.trans hd) ?_
        rw [JsonValue.hexFrom, hd]
      | some d =>
        have hlt := (hexDigit_lt (hdigit.trans hd)).1
        have hnext' : v * 16 + d < 16 ^ (k + 1) := by
          rw [Nat.pow_succ]
          omega
        have hfits : v * 16 + d < 2 ^ 32 :=
          Nat.lt_of_lt_of_le hnext' (Nat.le_trans (Nat.pow_le_pow_right (by omega)
            (show k + 1 ≤ 4 by omega)) (by omega))
        obtain ⟨j, hj, hat, hle⟩ := ih hnext (k := k + 1) (by omega) hnext'
        rw [JsonBytes.hexFrom, hdigit, hd, JsonValue.hexFrom, hd]
        refine ⟨j, ?_, hat, Nat.le_of_succ_le hle⟩
        dsimp only
        rw [checked, if_pos hfits]
        exact hj
    | @other c s hc _ hcur =>
      refine hstop (hexDigit_high hcur) ?_
      rw [JsonValue.hexFrom, hexDigit_other hc]

theorem At.hex4 (h : At b i s) : ∃ j, hex4 b i = .ok ((JsonValue.hex4 s).1, j) ∧
    (JsonValue.hex4 s).1 < 16 ^ 4 ∧ At b j (JsonValue.hex4 s).2 ∧ i ≤ j := by
  obtain ⟨j, hj, hat, hle⟩ := h.hexFrom (n := 4) (k := 0) (v := 0) (Nat.le_refl 4) Nat.one_pos
  obtain ⟨w, j', hj', hlt, -, -⟩ := hex4_reads h.le
  have heq : JsonBytes.hex4 b i = .ok ((JsonValue.hex4 s).1, j) := hj
  rw [heq] at hj'
  cases hj'
  exact ⟨j, heq, hlt, hat, hle⟩

/-! ## What bytes decode to -/

/-- Bytes that decode to these characters, whatever comes after them. -/
def Whole (bs : List UInt8) (cs : List Char) : Prop :=
  ∀ rest, Utf8.lossy (bs ++ rest) = cs ++ Utf8.lossy rest

theorem Whole.nil : Whole [] [] := fun _ => rfl

variable {bs out rest : List UInt8} {t : List Char} {e : Char} {turns : Nat}

theorem Whole.append {bs' : List UInt8} {cs cs' : List Char} (h : Whole bs cs)
    (h' : Whole bs' cs') : Whole (bs ++ bs') (cs ++ cs') := by
  intro rest
  rw [List.append_assoc, h, h', List.append_assoc]

theorem Whole.lossy {cs : List Char} (h : Whole bs cs) : Utf8.lossy bs = cs := by
  have hend := h []
  rw [List.append_nil] at hend
  exact hend.trans (List.append_nil cs)

theorem whole_of_run {segs : List Utf8.Seg}
    (h : Utf8.run none bs = (segs, none)) : Whole bs (Utf8.text segs) := by
  intro rest
  rw [Utf8.lossy_append, h]
  rfl

theorem whole_char (c : Char) : Whole (String.utf8EncodeChar c) [c] :=
  whole_of_run (Utf8.run_encodeChar c)

theorem marked_one : ∀ v < 64, marked 0x80 v = UInt8.ofNat (v + 0x80) := by decide
theorem marked_two : ∀ v < 32, marked 0xC0 v = UInt8.ofNat (v + 0xC0) := by decide
theorem marked_three : ∀ v < 16, marked 0xE0 v = UInt8.ofNat (v + 0xE0) := by decide
theorem marked_four : ∀ v < 8, marked 0xF0 v = UInt8.ofNat (v + 0xF0) := by decide

theorem and_six (v : Nat) : v &&& 0x3F = v % 64 := Nat.and_two_pow_sub_one_eq_mod v 6

/-- `push_utf8` writes a character as it is encoded. -/
theorem pushUtf8_char (c : Char) : pushUtf8 c.toNat = String.utf8EncodeChar c := by
  have hvalid : c.val.toNat < 0xD800 ∨ 0xDFFF < c.val.toNat ∧ c.val.toNat < 0x110000 := c.valid
  show pushUtf8 c.val.toNat = _
  unfold pushUtf8 String.utf8EncodeChar
  dsimp only
  generalize c.val.toNat = v at hvalid
  simp only [Nat.shiftRight_eq_div_pow, and_six]
  by_cases hone : v < 0x80
  · rw [if_pos hone, if_pos (show v ≤ 127 by omega)]
  rw [if_neg hone, if_neg (show ¬ v ≤ 127 by omega)]
  by_cases htwo : v < 0x800
  · have hlead : v / 2 ^ 6 = v / 64 % 0x20 := by omega
    rw [if_pos htwo, if_pos (show v ≤ 2047 by omega), hlead, marked_two _ (by omega),
      marked_one _ (by omega)]
  rw [if_neg htwo, if_neg (show ¬ v ≤ 2047 by omega)]
  by_cases hthree : v < 0x10000
  · have hlead : v / 2 ^ 12 = v / 4096 % 0x10 := by omega
    rw [if_pos hthree, if_pos (show v ≤ 65535 by omega), hlead, marked_three _ (by omega),
      marked_one _ (by omega), marked_one _ (by omega)]
  rw [if_neg hthree, if_neg (show ¬ v ≤ 65535 by omega)]
  have hlead : v / 2 ^ 18 = v / 262144 % 0x08 := by omega
  rw [hlead, marked_four _ (by omega), marked_one _ (by omega), marked_one _ (by omega),
    marked_one _ (by omega)]

/-- What the byte after `0xED` does that begins a surrogate: it is refused, and refused again
between characters. -/
theorem run_surrogate {x y : Nat} (hx : 32 ≤ x ∧ x < 64) (hy : y < 64) :
    Utf8.text (Utf8.run none
      [UInt8.ofNat (13 + 0xE0), UInt8.ofNat (x + 0x80), UInt8.ofNat (y + 0x80)]).1 =
        List.replicate 3 Utf8.replacement ∧
      (Utf8.run none
        [UInt8.ofNat (13 + 0xE0), UInt8.ofNat (x + 0x80), UInt8.ofNat (y + 0x80)]).2 = none := by
  have hlone : ∀ z < 64, Utf8.feed none (UInt8.ofNat (z + 0x80)) =
      ([⟨[UInt8.ofNat (z + 0x80)], Utf8.replacement⟩], none) := by decide
  have hrefused : ∀ z < 64, 32 ≤ z → ∀ bytes, Utf8.feed (some ⟨bytes, 2, 0x80, 0x9F, 13⟩)
      (UInt8.ofNat (z + 0x80)) =
        (⟨bytes, Utf8.replacement⟩ :: [⟨[UInt8.ofNat (z + 0x80)], Utf8.replacement⟩], none) := by
    intro z hz hlow bytes
    have hval := Utf8.toNat_ofNat (x := z + 0x80) (by omega)
    have hno : ¬ UInt8.ofNat (z + 0x80) ≤ 0x9F := by
      rw [UInt8.le_iff_toNat_le, hval]
      show ¬ z + 128 ≤ 159
      omega
    have hfeed := hlone z hz
    rw [Utf8.feed] at hfeed
    rw [Utf8.feed, Utf8.accept, if_neg fun h => hno h.2, hfeed]
  simp only [Utf8.run, Utf8.feed_three (show 13 < 16 by omega)]
  rw [if_neg (show ¬ 13 = 0 by omega), if_pos trivial, hrefused x hx.2 hx.1, hlone y hy]
  exact ⟨rfl, rfl⟩

/-- **What is pushed for a code point decodes to its character**, or to three replacements. -/
theorem whole_pushUtf8 {cp : Nat} (h : cp < 0x110000) :
    Whole (pushUtf8 cp) (JsonValue.pushUtf8 cp) := by
  unfold JsonValue.pushUtf8
  split
  next hsur =>
    have hbytes : pushUtf8 cp = [UInt8.ofNat (13 + 0xE0), UInt8.ofNat (cp / 2 ^ 6 % 64 + 0x80),
        UInt8.ofNat (cp % 64 + 0x80)] := by
      have hlead : cp / 2 ^ 12 = 13 := by omega
      unfold pushUtf8
      simp only [Nat.shiftRight_eq_div_pow, and_six]
      rw [if_neg (by omega), if_neg (by omega), if_pos (by omega), hlead,
        marked_three _ (by omega), marked_one _ (by omega), marked_one _ (by omega)]
    obtain ⟨htext, hend⟩ := run_surrogate (x := cp / 2 ^ 6 % 64) (y := cp % 64) (by omega)
      (by omega)
    rw [hbytes]
    have hwhole := whole_of_run (Prod.ext rfl hend)
    rwa [htext] at hwhole
  next hsur =>
    have hvalid : cp.isValidChar := by
      unfold Nat.isValidChar
      omega
    have hback : (Char.ofNat cp).toNat = cp := by
      rw [Char.ofNat, dif_pos hvalid]
      rfl
    have hpush := pushUtf8_char (Char.ofNat cp)
    rw [hback] at hpush
    rw [hpush]
    exact whole_char _

/-! ## Strings -/

/-- The two bytes that a pair of surrogates has in between. -/
theorem At.peek_iff (h : At b i s) :
    (peek b i 0 = byte '\\' ∧ peek b i 1 = byte 'u') ↔ ∃ t, s = '\\' :: 'u' :: t := by
  have hfirst : peek b i 0 = byte '\\' ↔ ∃ t, s = '\\' :: t := h.cur_iff (by decide)
  rw [hfirst]
  constructor
  · rintro ⟨⟨t, rfl⟩, hu⟩
    obtain ⟨t', rfl⟩ := ((h.succ (by decide)).cur_iff (d := 'u') (by decide)).mp hu
    exact ⟨t', rfl⟩
  · rintro ⟨t, rfl⟩
    exact ⟨⟨_, rfl⟩, ((h.succ (by decide)).cur_iff (d := 'u') (by decide)).mpr ⟨t, rfl⟩⟩

/-- The first of two surrogates, with the second after it. -/
theorem unicode_pair {cp : Nat}
    (h : JsonValue.hex4 s = (cp, '\\' :: 'u' :: t)) (hhigh : 0xD800 ≤ cp ∧ cp ≤ 0xDBFF) :
    JsonValue.unicode s =
      if 0xDC00 ≤ (JsonValue.hex4 t).1 ∧ (JsonValue.hex4 t).1 ≤ 0xDFFF then
        (JsonValue.pushUtf8
          (0x10000 + (cp - 0xD800) * 2 ^ 10 + ((JsonValue.hex4 t).1 - 0xDC00)),
          (JsonValue.hex4 t).2)
      else (JsonValue.pushUtf8 cp, '\\' :: 'u' :: t) := by
  unfold JsonValue.unicode
  rw [h]
  dsimp only
  rw [if_pos hhigh]
  rfl

/-- A code point that nothing is put together with. -/
theorem unicode_one {cp : Nat} (h : JsonValue.hex4 s = (cp, t))
    (hno : 0xD800 ≤ cp ∧ cp ≤ 0xDBFF → ∀ u, t ≠ '\\' :: 'u' :: u) :
    JsonValue.unicode s = (JsonValue.pushUtf8 cp, t) := by
  unfold JsonValue.unicode
  rw [h]
  dsimp only
  split
  next hhigh =>
    split
    next u => exact absurd rfl (hno hhigh u)
    next => rfl
  next => rfl

/-- **A `\u` escape**, with the second one that may follow. -/
theorem At.unicode (h : At b i s) : ∃ bs j, unicode b i = .ok (bs, j) ∧
    Whole bs (JsonValue.unicode s).1 ∧ At b j (JsonValue.unicode s).2 ∧ i ≤ j := by
  obtain ⟨j, hcp, hlt, hat, hij⟩ := h.hex4
  obtain ⟨cp, t, ht⟩ : ∃ cp t, JsonValue.hex4 s = (cp, t) := ⟨_, _, rfl⟩
  rw [ht] at hcp hlt hat
  have hone : Whole (pushUtf8 cp) (JsonValue.pushUtf8 cp) :=
    whole_pushUtf8 (Nat.lt_trans hlt (by decide))
  unfold JsonBytes.unicode
  rw [hcp, ok_bind]
  by_cases hpair : 0xD800 ≤ cp ∧ cp ≤ 0xDBFF ∧ peek b j 0 = byte '\\' ∧ peek b j 1 = byte 'u'
  · obtain ⟨t, rfl⟩ := hat.peek_iff.mp hpair.2.2
    obtain ⟨k, hlo, hlolt, hatk, hjk⟩ := ((hat.succ (by decide)).succ (by decide)).hex4
    rw [if_pos hpair, hlo, ok_bind, unicode_pair ht ⟨hpair.1, hpair.2.1⟩]
    generalize JsonValue.hex4 t = r at hlolt hatk
    obtain ⟨lo, u⟩ := r
    dsimp only at hlolt hatk ⊢
    split
    next hlow =>
      have hsum : 0x10000 + (cp - 0xD800) * 2 ^ 10 + (lo - 0xDC00) < 0x110000 := by omega
      have hfits : 0x10000 + (cp - 0xD800) * 2 ^ 10 + (lo - 0xDC00) < 2 ^ 32 := by omega
      rw [Nat.shiftLeft_eq, checked, if_pos hfits, ok_bind]
      dsimp only
      exact ⟨_, k, rfl, whole_pushUtf8 hsum, hatk, by omega⟩
    next => exact ⟨_, j, rfl, hone, hat, hij⟩
  · rw [if_neg hpair, unicode_one ht fun hhigh u hu => hpair ⟨hhigh.1, hhigh.2, ?_⟩]
    · exact ⟨_, j, rfl, hone, hat, hij⟩
    · exact hat.peek_iff.mpr ⟨u, hu⟩

theorem escape_of_ne (h : e ≠ 'u') (s : List Char) :
    JsonValue.escape e s = ((JsonValue.escape e []).1, s) := by
  unfold JsonValue.escape
  split
  case h_9 => exact absurd rfl h
  all_goals rfl

theorem escape_other (h : 128 ≤ e.toNat) (s : List Char) :
    JsonValue.escape e s = ([e], s) := by
  unfold JsonValue.escape
  split
  case h_10 => rfl
  all_goals exact absurd h (by decide)

theorem escaped_high {x : UInt8} (h : 128 ≤ x.toNat) : escaped x = x := by
  have hne : ∀ c : Char, c.toNat < 128 → x ≠ byte c := by
    rintro c hc rfl
    rw [toNat_byte hc] at h
    omega
  unfold escaped
  rw [if_neg (hne 'n' (by decide)), if_neg (hne 't' (by decide)), if_neg (hne 'r' (by decide)),
    if_neg (hne 'b' (by decide)), if_neg (hne 'f' (by decide))]

theorem escaped_byte : ∀ n < 128, Char.ofNat n ≠ 'u' →
    (JsonValue.escape (Char.ofNat n) []).1 = [Char.ofNat (escaped (UInt8.ofNat n)).toNat] ∧
      byte (Char.ofNat (escaped (UInt8.ofNat n)).toNat) = escaped (UInt8.ofNat n) ∧
      (Char.ofNat (escaped (UInt8.ofNat n)).toNat).toNat < 128 := by
  decide

/-- An escape of an ASCII character. -/
theorem At.escape (h : At b i s) (he : e.toNat < 128) :
    ∃ bs j, escape b (byte e) i = .ok (bs, j) ∧
      Whole bs (JsonValue.escape e s).1 ∧ At b j (JsonValue.escape e s).2 ∧ i ≤ j := by
  by_cases hu : e = 'u'
  · subst hu
    exact h.unicode
  have hne : byte e ≠ byte 'u' := fun heq => hu ((byte_inj he (by decide)).mp heq)
  have hnumber := escaped_byte e.toNat he
  rw [Char.ofNat_toNat] at hnumber
  obtain ⟨hchar, hbyte, hlow⟩ := hnumber hu
  have hwhole := whole_char (Char.ofNat (escaped (UInt8.ofNat e.toNat)).toNat)
  rw [utf8EncodeChar_ascii hlow, hbyte, ← hchar] at hwhole
  rw [JsonBytes.escape, if_neg hne, escape_of_ne hu]
  exact ⟨_, i, rfl, hwhole, h, Nat.le_refl i⟩

theorem strLoop_quote (h : b.drop i = byte '"' :: rest) :
    strLoop b (turns + 1) i out = .ok (out, i) := by
  rw [strLoop, dif_pos (lt_of_drop h), if_pos (getElem_of_drop h (lt_of_drop h))]

theorem strLoop_end (h : b.length ≤ i) :
    strLoop b (turns + 1) i out = .ok (out, i) := by
  rw [strLoop, dif_neg (Nat.not_lt.mpr h)]

theorem strLoop_plain {c : UInt8}
    (h : b.drop i = c :: rest) (hquote : c ≠ byte '"') (hback : c ≠ byte '\\' ∨ rest = []) :
    strLoop b (turns + 1) i out = strLoop b turns (i + 1) (out ++ [c]) := by
  rw [strLoop, dif_pos (lt_of_drop h)]
  simp only [getElem_of_drop h (lt_of_drop h)]
  rw [if_neg hquote, dif_neg]
  rintro ⟨heq, hlt⟩
  refine hback.elim (fun hne => hne heq) fun hnil => ?_
  rw [hnil] at h
  exact absurd (List.drop_eq_nil_iff.mp (drop_succ h)) (Nat.not_le.mpr hlt)

theorem strLoop_escape {e : UInt8}
    (h : b.drop i = byte '\\' :: e :: rest) : strLoop b (turns + 1) i out =
      (escape b e (i + 2)).bind fun r => strLoop b turns r.2 (out ++ r.1) := by
  have hnext := drop_succ h
  have hne : byte '\\' ≠ byte '"' := by decide
  rw [strLoop, dif_pos (lt_of_drop h)]
  simp only [getElem_of_drop h (lt_of_drop h)]
  rw [if_neg hne, dif_pos ⟨trivial, lt_of_drop hnext⟩]
  simp only [List.get_eq_getElem, getElem_of_drop hnext (lt_of_drop hnext)]

/-- Bytes that are neither a quote nor a backslash are copied. -/
theorem strLoop_copy (hbs : ∀ c ∈ bs, c ≠ byte '"' ∧ c ≠ byte '\\')
    (h : b.drop i = bs ++ rest) :
    strLoop b (turns + bs.length) i out = strLoop b turns (i + bs.length) (out ++ bs) := by
  induction bs generalizing i out with
  | nil => rw [List.append_nil]; rfl
  | cons c bs ih =>
    obtain ⟨hquote, hback⟩ := hbs c (List.mem_cons_self ..)
    rw [List.length_cons, ← Nat.add_assoc, strLoop_plain h hquote (.inl hback),
      ih (fun x hx => hbs x (List.mem_cons_of_mem _ hx)) (drop_succ h), List.append_assoc,
      Nat.add_right_comm]
    rfl

/-- The bytes of a character are neither, unless it is one of the two. -/
theorem plain_bytes {c : Char} (hquote : c ≠ '"') (hback : c ≠ '\\') :
    ∀ x ∈ String.utf8EncodeChar c, x ≠ byte '"' ∧ x ≠ byte '\\' := by
  intro x hx
  rcases Nat.lt_or_ge c.toNat 128 with hc | hc
  · rw [utf8EncodeChar_ascii hc, List.mem_singleton] at hx
    subst hx
    rw [ne_eq, byte_inj hc (by decide), ne_eq, byte_inj hc (by decide)]
    exact ⟨hquote, hback⟩
  · have hx := high_of_mem hc hx
    constructor
    · rintro rfl
      exact absurd hx (by decide)
    · rintro rfl
      exact absurd hx (by decide)

/-- A backslash before a character that is not ASCII: the first byte is escaped, and stands for
itself; the others are copied. -/
theorem strLoop_other (he : 128 ≤ e.toNat)
    (h : b.drop i = byte '\\' :: (String.utf8EncodeChar e ++ rest)) :
    strLoop b (turns + (String.utf8EncodeChar e).length) i out =
      strLoop b turns (i + 1 + (String.utf8EncodeChar e).length)
        (out ++ String.utf8EncodeChar e) := by
  have hplain := plain_bytes (c := e) (by rintro rfl; exact absurd he (by decide))
    (by rintro rfl; exact absurd he (by decide))
  cases hbytes : String.utf8EncodeChar e with
  | nil =>
    have hlen := congrArg List.length hbytes
    rw [String.length_utf8EncodeChar] at hlen
    exact absurd hlen (Nat.ne_of_gt e.utf8Size_pos)
  | cons x bs =>
    have hx : 128 ≤ x.toNat := high_of_mem he (hbytes ▸ List.mem_cons_self ..)
    have hu : x ≠ byte 'u' := by
      rintro rfl
      exact absurd hx (by decide)
    rw [hbytes] at h hplain
    have hrest := drop_succ (drop_succ h)
    rw [List.length_cons, ← Nat.add_assoc, strLoop_escape h, escape, if_neg hu, ok_bind,
      escaped_high hx, strLoop_copy (fun c hc => hplain c (List.mem_cons_of_mem _ hc)) hrest,
      List.append_assoc]
    congr 1
    omega

/-- What the loop of a string comes to: bytes that decode to the characters, and the index at
the quote, or at the end. -/
def Scans (b : List UInt8) (out : List UInt8) (cs s : List Char)
    (x : Parsed (List UInt8)) : Prop :=
  ∃ bs j, x = .ok (out ++ bs, j) ∧ Whole bs cs ∧ At b (past b '"' j) s

theorem Scans.cons {cs cs' : List Char} {x : Parsed (List UInt8)}
    (h : Scans b (out ++ bs) cs t x) (hbs : Whole bs cs') : Scans b out (cs' ++ cs) t x := by
  obtain ⟨bs', j, hx, hwhole, hat⟩ := h
  exact ⟨bs ++ bs', j, by rw [hx, List.append_assoc], hbs.append hwhole, hat⟩

/-- **The loop of a string**, by its characters. -/
theorem At.strLoop (h : At b i s) (hturns : b.length < i + turns)
    (out : List UInt8) : Scans b out (scan s).1 (scan s).2 (strLoop b turns i out) := by
  induction hn : s.length using Nat.strongRecOn generalizing s i turns out with
  | ind n ih =>
    obtain ⟨turns, rfl⟩ : ∃ k, turns = k + 1 := ⟨turns - 1, by have := h.le; omega⟩
    have hdrop := h.drop_eq
    match s with
    | [] =>
      have hge : b.length ≤ i := List.drop_eq_nil_iff.mp hdrop
      have hpast : JsonBytes.past b '"' i = i := by
        rw [JsonBytes.past, cur_of_ge hge, if_neg (by decide)]
      exact ⟨[], i, by rw [strLoop_end hge, List.append_nil], .nil, by rw [hpast]; exact h⟩
    | c :: s =>
      rw [encode_cons] at hdrop
      by_cases hquote : c = '"'
      · subst hquote
        have hpast : JsonBytes.past b '"' i = i + 1 := if_pos (cur_of_drop hdrop)
        refine ⟨[], i, by rw [strLoop_quote hdrop, List.append_nil], .nil, ?_⟩
        rw [hpast]
        exact h.succ (by decide)
      by_cases hback : c = '\\'
      · subst hback
        have hnext : At b (i + 1) s := h.succ (by decide)
        match s with
        | [] =>
          -- the last backslash of the text stands for itself
          have hturns : b.length < i + 1 + turns := by omega
          have hlast := ih 0 (by rw [← hn]; decide) hnext hturns (out ++ [byte '\\']) rfl
          rw [strLoop_plain hdrop (by decide) (.inr rfl)]
          exact hlast.cons (whole_char '\\')
        | e :: s =>
          have hshort : (JsonValue.escape e s).2.length < n := by
            have := (escape_suffix e s).length_le
            rw [List.length_cons, List.length_cons] at hn
            omega
          rw [encode_cons] at hdrop
          rw [scan_escape]
          rcases Nat.lt_or_ge e.toNat 128 with he | he
          · rw [utf8EncodeChar_ascii he] at hdrop
            obtain ⟨bs, j, hesc, hwhole, hat, hle⟩ := (hnext.succ he).escape he
            rw [strLoop_escape hdrop, hesc, ok_bind]
            exact (ih _ hshort hat (by omega) _ rfl).cons hwhole
          · -- of any other character the first byte is escaped, and the others are copied
            have hlen := congrArg List.length hdrop
            rw [List.length_drop, List.length_append, List.length_append] at hlen
            obtain ⟨more, hmore⟩ : ∃ k, turns + 1 = k + (String.utf8EncodeChar e).length :=
              ⟨turns + 1 - (String.utf8EncodeChar e).length, by omega⟩
            rw [escape_other he, hmore, strLoop_other he hdrop]
            refine (ih s.length ?_ hnext.next ?_ _ rfl).cons (whole_char e)
            · rw [← hn, List.length_cons, List.length_cons]
              omega
            · have := e.utf8Size_pos
              rw [String.length_utf8EncodeChar] at *
              omega
      · have hbytes := plain_bytes hquote hback
        have hat := h.next
        obtain ⟨more, hmore⟩ : ∃ k, turns + 1 = k + (String.utf8EncodeChar c).length := by
          have hlen := congrArg List.length hdrop
          rw [List.length_drop, List.length_append] at hlen
          exact ⟨turns + 1 - (String.utf8EncodeChar c).length, by omega⟩
        rw [scan_plain hquote hback, hmore, strLoop_copy hbytes hdrop]
        refine (ih s.length ?_ hat ?_ _ rfl).cons (whole_char c)
        · rw [← hn]
          exact Nat.lt_succ_self _
        · omega

theorem At.parseStrRaw (h : At b i s) : ∃ j,
    parseStrRaw b i = .ok ((JsonValue.parseStrRaw s).1, j) ∧
      At b j (JsonValue.parseStrRaw s).2 ∧ i ≤ j := by
  obtain ⟨_, k, hreads, hik, -⟩ := parseStrRaw_reads h.le
  have hopen : ∃ t, JsonValue.parseStrRaw s = scan t ∧ At b (JsonBytes.past b '"' i) t := by
    rcases h.past (d := '"') (by decide) with ⟨t, rfl, hpast, hat⟩ | ⟨hno, hpast⟩
    · exact ⟨t, rfl, by rwa [hpast]⟩
    · refine ⟨s, ?_, by rwa [hpast]⟩
      unfold JsonValue.parseStrRaw
      split
      next t => exact absurd rfl (hno t)
      next => rfl
  obtain ⟨t, ht, hat⟩ := hopen
  have hturns : b.length < JsonBytes.past b '"' i + (b.length + 1) := by omega
  obtain ⟨bs, j, hj, hwhole, hat'⟩ := hat.strLoop hturns []
  unfold JsonBytes.parseStrRaw at hreads ⊢
  rw [hj, ok_bind, List.nil_append, hwhole.lossy] at hreads ⊢
  cases hreads
  rw [ht]
  exact ⟨_, rfl, hat', hik⟩

/-! ## Numbers -/

/-- `pastIf`, on both sides. -/
theorem At.pastIf {p : UInt8 → Bool} {q : Char → Bool} (hpq : Ascii p q) (h : At b i s) :
    (∃ c t, s = c :: t ∧ q c = true ∧ holds b p i = true ∧ pastIf b p i = i + 1 ∧
      At b (i + 1) t) ∨
      (∀ c t, s = c :: t → q c = false) ∧ holds b p i = false ∧ pastIf b p i = i := by
  have hno : holds b p i = false → JsonBytes.pastIf b p i = i := by
    intro hholds
    rw [JsonBytes.pastIf, hholds]
    rfl
  cases s with
  | nil =>
    have hholds : holds b p i = false :=
      dif_neg (Nat.not_lt.mpr (List.drop_eq_nil_iff.mp h.drop_eq))
    exact .inr ⟨nofun, hholds, hno hholds⟩
  | cons c s =>
    cases hc : q c with
    | true =>
      have hlow := hpq.low c hc
      have hdrop := h.drop_eq
      rw [encode_cons, utf8EncodeChar_ascii hlow] at hdrop
      have hholds : holds b p i = true := by
        rw [holds_eq (lt_of_drop hdrop), cur_of_drop hdrop, hpq.byte_eq c hlow, hc]
      exact .inl ⟨c, s, rfl, hc, hholds, if_pos hholds, h.succ hlow⟩
    | false =>
      have hholds : holds b p i = false := by
        cases h.seen with
        | ascii hlow hdrop _ =>
          rw [holds_eq (lt_of_drop hdrop), cur_of_drop hdrop, hpq.byte_eq c hlow, hc]
        | other _ hlt hcur =>
          rw [holds_eq hlt]
          by_contra hne
          have := hpq.byte_low _ (Bool.eq_true_of_not_eq_false hne)
          omega
      refine .inr ⟨fun d t heq => ?_, hholds, hno hholds⟩
      rw [← (List.cons.inj heq).1]
      exact hc

/-- A sign. -/
def isSignChar (c : Char) : Bool := c = '+' || c = '-'

theorem Ascii.sign : Ascii isSign isSignChar where
  byte_eq := byte_eq_of_numbers (by decide)
  low := by
    intro c hc
    simp only [isSignChar, Bool.or_eq_true, decide_eq_true_eq] at hc
    rcases hc with rfl | rfl
    all_goals decide
  byte_low := by
    intro x hx
    simp only [isSign, Bool.or_eq_true, decide_eq_true_eq] at hx
    rcases hx with rfl | rfl
    all_goals decide

def isExpChar (c : Char) : Bool := c = 'e' || c = 'E'

theorem Ascii.exp : Ascii isExp isExpChar where
  byte_eq := byte_eq_of_numbers (by decide)
  low := by
    intro c hc
    simp only [isExpChar, Bool.or_eq_true, decide_eq_true_eq] at hc
    rcases hc with rfl | rfl
    all_goals decide
  byte_low := by
    intro x hx
    simp only [isExp, Bool.or_eq_true, decide_eq_true_eq] at hx
    rcases hx with rfl | rfl
    all_goals decide

/-- The sign that a number has in front, or nothing. It is read in front of any beginning of
what comes after it. -/
theorem At.sign (h : At b i s) : ∃ sign neg t, takeSign s = (neg, t) ∧ s = sign ++ t ∧
    (∀ c ∈ sign, c.toNat < 128) ∧ JsonBytes.pastIf b isSign i = i + sign.length ∧
    At b (i + sign.length) t ∧ ∀ u, u <+: t → takeSign (sign ++ u) = (neg, u) := by
  rcases h.pastIf Ascii.sign with ⟨c, t, rfl, hc, -, hpast, hat⟩ | ⟨hno, -, hpast⟩
  · have hlow : ∀ d ∈ [c], d.toNat < 128 := by
      intro d hd
      rw [List.mem_singleton.mp hd]
      exact Ascii.sign.low c hc
    simp only [isSignChar, Bool.or_eq_true, decide_eq_true_eq] at hc
    rcases hc with rfl | rfl
    · exact ⟨['+'], false, t, rfl, rfl, hlow, hpast, hat, fun _ _ => rfl⟩
    · exact ⟨['-'], true, t, rfl, rfl, hlow, hpast, hat, fun _ _ => rfl⟩
  · have hplain : ∀ t, t <+: s → takeSign t = (false, t) := by
      intro t ht
      unfold takeSign
      split
      next u =>
        obtain ⟨v, rfl⟩ := ht
        cases hno '-' (u ++ v) rfl
      next u =>
        obtain ⟨v, rfl⟩ := ht
        cases hno '+' (u ++ v) rfl
      next => rfl
    exact ⟨[], false, s, hplain s (List.prefix_refl s), rfl, List.forall_mem_nil _, hpast, h, hplain⟩

/-- A number without an exponent. -/
theorem parseNum_plain {neg : Bool} (hsign : takeSign s = (neg, t))
    (hno : ∀ e u, t.dropWhile JsonValue.isDigitOrDot = e :: u → isExpChar e = false) :
    JsonValue.parseNum s = (decimal neg (mantissa (t.takeWhile JsonValue.isDigitOrDot)) 0,
      t.dropWhile JsonValue.isDigitOrDot) := by
  unfold JsonValue.parseNum
  rw [hsign]
  dsimp only
  split
  next heq => rw [heq]
  next e u heq =>
    have he := hno e u heq
    rw [if_neg fun hexp => ?_, heq]
    rw [isExpChar, Bool.or_eq_false_iff, decide_eq_false_iff_not, decide_eq_false_iff_not] at he
    exact hexp.elim he.1 he.2

/-- What an exponent makes of a number. -/
def withExp (neg : Bool) (body : List Char) (eneg : Bool) (digits : List Char) : Decimal :=
  let exp : Int := Nat.ofDigitChars 10 digits 0
  decimal neg (if digits = [] then none else mantissa body) (if eneg then -exp else exp)

theorem parseNum_exp {neg eneg : Bool} {u v : List Char}
    (hsign : takeSign s = (neg, t)) (hdrop : t.dropWhile JsonValue.isDigitOrDot = e :: u)
    (he : isExpChar e = true) (hesign : takeSign u = (eneg, v)) :
    JsonValue.parseNum s =
      (withExp neg (t.takeWhile JsonValue.isDigitOrDot) eneg (v.takeWhile Char.isDigit),
        v.dropWhile Char.isDigit) := by
  have hexp : e = 'e' ∨ e = 'E' := by
    simpa only [isExpChar, Bool.or_eq_true, decide_eq_true_eq] using he
  unfold JsonValue.parseNum
  rw [hsign]
  dsimp only
  rw [hdrop]
  dsimp only
  rw [if_pos hexp, hesign]
  rfl

theorem takeWhile_self {q : Char → Bool} :
    (t.takeWhile q).takeWhile q = t.takeWhile q ∧ (t.takeWhile q).dropWhile q = [] := by
  have hall : ∀ c ∈ t.takeWhile q, q c = true := fun c hc => List.mem_takeWhile_imp hc
  exact ⟨List.takeWhile_eq_self_iff.mpr hall, List.dropWhile_eq_nil_iff.mpr hall⟩

/-- **What `parse_num` goes past**: these characters, and as a number of their own they are read
as the whole text is. -/
theorem At.numEnd (h : At b i s) : ∃ digits, (∀ c ∈ digits, c.toNat < 128) ∧
    s = digits ++ (JsonValue.parseNum s).2 ∧ numEnd b i = i + digits.length ∧
    At b (i + digits.length) (JsonValue.parseNum s).2 ∧
    (JsonValue.parseNum digits).1 = (JsonValue.parseNum s).1 := by
  obtain ⟨sign, neg, t, htake, hs, hlow, hpast, hat, hlead⟩ := h.sign
  obtain ⟨hskip, hat⟩ := hat.skipWhile Ascii.digitOrDot
  have hbody := Ascii.digitOrDot.takeWhile_low (s := t)
  have ht : t.takeWhile JsonValue.isDigitOrDot ++ t.dropWhile JsonValue.isDigitOrDot = t :=
    List.takeWhile_append_dropWhile
  unfold JsonBytes.numEnd
  dsimp only
  rw [hpast, hskip]
  rcases hat.pastIf Ascii.exp with ⟨e, u, hdrop, he, hholds, -, hat⟩ | ⟨hno, hholds, -⟩
  · obtain ⟨esign, eneg, v, hetake, hu, helow, hepast, hat, helead⟩ := hat.sign
    obtain ⟨heskip, hat⟩ := hat.skipWhile Ascii.digit
    have hv : v.takeWhile Char.isDigit ++ v.dropWhile Char.isDigit = v :=
      List.takeWhile_append_dropWhile
    have hedigits := Ascii.digit.takeWhile_low (s := v)
    have hstop : JsonValue.isDigitOrDot e = false := by
      simp only [isExpChar, Bool.or_eq_true, decide_eq_true_eq] at he
      rcases he with rfl | rfl <;> rfl
    rw [parseNum_exp htake hdrop he hetake, if_pos hholds, hepast, heskip]
    refine ⟨sign ++ (t.takeWhile JsonValue.isDigitOrDot ++ e :: (esign ++ v.takeWhile Char.isDigit)),
      ?_, ?_, ?_, ?_, ?_⟩
    · intro c hc
      simp only [List.mem_append, List.mem_cons] at hc
      rcases hc with hc | hc | rfl | hc | hc
      · exact hlow c hc
      · exact hbody c hc
      · exact Ascii.exp.low c he
      · exact helow c hc
      · exact hedigits c hc
    · rw [List.append_assoc, List.append_assoc, List.cons_append, List.append_assoc, hv, ← hu,
        ← hdrop, ht, ← hs]
    · simp only [List.length_append, List.length_cons]
      omega
    · simp only [List.length_append, List.length_cons]
      have hsum : i + sign.length + (t.takeWhile JsonValue.isDigitOrDot).length + 1 + esign.length +
          (v.takeWhile Char.isDigit).length = i + (sign.length +
            ((t.takeWhile JsonValue.isDigitOrDot).length +
              (esign.length + (v.takeWhile Char.isDigit).length + 1))) := by omega
      rwa [← hsum]
    · have hcut : t.takeWhile JsonValue.isDigitOrDot ++ e :: (esign ++ v.takeWhile Char.isDigit)
          <+: t := by
        refine ⟨v.dropWhile Char.isDigit, ?_⟩
        rw [List.append_assoc, List.cons_append, List.append_assoc, hv, ← hu, ← hdrop, ht]
      obtain ⟨hbodyTake, hbodyDrop⟩ := takeWhile_append_stop
        (fun c hc => List.mem_takeWhile_imp hc : ∀ c ∈ t.takeWhile JsonValue.isDigitOrDot,
          JsonValue.isDigitOrDot c = true) hstop (esign ++ v.takeWhile Char.isDigit)
      rw [parseNum_exp (hlead _ hcut) hbodyDrop he (helead _ (List.takeWhile_prefix _)),
        hbodyTake, takeWhile_self.1]
  · rw [parseNum_plain htake hno, hholds, if_neg Bool.false_ne_true]
    refine ⟨sign ++ t.takeWhile JsonValue.isDigitOrDot, ?_, ?_, ?_, ?_, ?_⟩
    · intro c hc
      exact (List.mem_append.mp hc).elim (hlow c) (hbody c)
    · rw [List.append_assoc, ht, ← hs]
    · rw [List.length_append, Nat.add_assoc]
    · rwa [List.length_append, ← Nat.add_assoc]
    · obtain ⟨hself, hnil⟩ := takeWhile_self (q := JsonValue.isDigitOrDot) (t := t)
      rw [parseNum_plain (hlead _ (List.takeWhile_prefix _)) (by rw [hnil]; nofun), hself]

/-- **A number.** -/
theorem At.parseNum (h : At b i s) : ∃ j, parseNum b i = .ok ((JsonValue.parseNum s).1, j) ∧
    At b j (JsonValue.parseNum s).2 ∧ i ≤ j := by
  obtain ⟨digits, hlow, hs, hend, hat, hnumber⟩ := h.numEnd
  have hslice : (b.drop i).take digits.length = digits.map byte := by
    rw [h.drop_eq]
    conv_lhs => rw [hs]
    rw [Utf8.encode_append, encode_ascii hlow, List.take_left' (List.length_map ..)]
  have hback : (digits.map byte).map (fun c => Char.ofNat c.toNat) = digits := by
    rw [List.map_map]
    exact (List.map_congr_left fun c hc => ofNat_byte (hlow c hc)).trans (List.map_id _)
  unfold JsonBytes.parseNum
  dsimp only
  rw [hend, if_pos ⟨Nat.le_add_right .., hat.le⟩, Nat.add_sub_cancel_left, hslice, number, hback,
    hnumber]
  exact ⟨_, rfl, hat, Nat.le_add_right ..⟩

/-! ## Values -/

/-- The index is where these characters begin, or beyond everything that is read: past the end,
or inside of a character. -/
def Leaves (b : List UInt8) (j : Nat) (s : List Char) : Prop :=
  At b j s ∨ s = [] ∧ (b.length ≤ j ∨ 128 ≤ (cur b j).toNat)

/-- A call of one parser makes what a call of the other makes, and leaves what it leaves. -/
def Agrees {α : Type} (b : List UInt8) (i : Nat) (x : Parsed α) (r : α × List Char) : Prop :=
  ∃ j, x = .ok (r.1, j) ∧ i ≤ j ∧ Leaves b j r.2

/-- `self.i += n` -/
theorem At.skip (h : At b i s) (n : Nat) : Leaves b (i + n) (skip s n) := by
  induction s generalizing i n with
  | nil =>
    have hge : b.length ≤ i := List.drop_eq_nil_iff.mp h.drop_eq
    exact .inr ⟨rfl, .inl (Nat.le_trans hge (Nat.le_add_right ..))⟩
  | cons c s ih =>
    rw [JsonValue.skip]
    split
    next hn =>
      subst hn
      exact .inl h
    next hn =>
      split
      next hle =>
        have hnext := ih h.next (n - c.utf8Size)
        rw [String.length_utf8EncodeChar, Nat.add_assoc, Nat.add_sub_cancel' hle] at hnext
        exact hnext
      next hlt =>
        -- the index is inside of the character, which has more than one byte
        have hlen := String.length_utf8EncodeChar c
        have hin : n < (String.utf8EncodeChar c).length := by omega
        have hhigh : 128 ≤ c.toNat := by
          by_contra hlow
          rw [utf8EncodeChar_ascii (Nat.not_le.mp hlow)] at hin
          rw [List.length_singleton] at hin
          omega
        have hdrop : b.drop (i + n) = (String.utf8EncodeChar c).drop n ++ Utf8.encode s := by
          rw [← List.drop_drop, h.drop_eq, encode_cons, List.drop_append_of_le_length
            (Nat.le_of_lt hin)]
        rw [List.drop_eq_getElem_cons hin, List.cons_append] at hdrop
        refine .inr ⟨rfl, .inr ?_⟩
        rw [cur_of_drop hdrop]
        exact high_of_mem hhigh (List.getElem_mem hin)

theorem Leaves.ws {j : Nat} (h : Leaves b j s) : Leaves b (ws b j) (JsonValue.ws s) := by
  rcases h with hat | ⟨rfl, hout⟩
  · exact .inl hat.ws
  · have hstay : JsonBytes.ws b j = j := by
      rw [JsonBytes.ws, JsonBytes.skipWhile]
      split
      next hlt =>
        split
        next hws =>
          have hhigh : 128 ≤ (cur b j).toNat := hout.resolve_left (Nat.not_le.mpr hlt)
          rw [cur, List.getD_eq_getElem _ _ hlt] at hhigh
          have := Ascii.ws.byte_low _ hws
          omega
        next => rfl
      next => rfl
    rw [hstay]
    exact .inr ⟨rfl, hout⟩

/-- A mark after a value is there on both sides. -/
theorem Leaves.mark {j : Nat} (h : Leaves b j s) {d : Char} (hd : 0 < d.toNat ∧ d.toNat < 128) :
    (∃ t, s = d :: t ∧ cur b j = byte d ∧ At b (j + 1) t) ∨
      (∀ t, s ≠ d :: t) ∧ cur b j ≠ byte d := by
  rcases h with hat | ⟨rfl, hout⟩
  · by_cases hcur : cur b j = byte d
    · obtain ⟨t, rfl⟩ := (hat.cur_iff hd).mp hcur
      exact .inl ⟨t, rfl, hcur, hat.succ hd.2⟩
    · exact .inr ⟨fun t ht => hcur ((hat.cur_iff hd).mpr ⟨t, ht⟩), hcur⟩
  · refine .inr ⟨nofun, fun hcur => ?_⟩
    have hnat := toNat_byte hd.2
    rw [← hcur] at hnat
    rcases hout with hge | hhigh
    · rw [cur_of_ge hge] at hnat
      exact Nat.ne_of_lt hd.1 hnat
    · omega

theorem At.colon (h : At b i s) : At b (JsonBytes.past b ':' i) (JsonValue.colon s) := by
  rcases h.past (d := ':') (by decide) with ⟨t, rfl, hpast, hat⟩ | ⟨hno, hpast⟩
  · rwa [hpast]
  · have hcolon : JsonValue.colon s = s := by
      unfold JsonValue.colon
      split
      next t => exact absurd rfl (hno t)
      next => rfl
    rwa [hpast, hcolon]

theorem value_true (h : JsonValue.ws s = 't' :: t) :
    value s = (.bool true, skip ('t' :: t) 4) := by
  rw [value_eq, h]
  rfl

theorem value_false (h : JsonValue.ws s = 'f' :: t) :
    value s = (.bool false, skip ('f' :: t) 5) := by
  rw [value_eq, h]
  rfl

theorem value_null (h : JsonValue.ws s = 'n' :: t) :
    value s = (.null, skip ('n' :: t) 4) := by
  rw [value_eq, h]
  rfl

/-- Without a mark it is a number, also at the end of the text. -/
theorem value_other (h : ∀ c t, JsonValue.ws s = c :: t → ¬ Marks c) :
    value s = (.num (JsonValue.parseNum (JsonValue.ws s)).1,
      (JsonValue.parseNum (JsonValue.ws s)).2) := by
  unfold Marks at h
  rw [value_eq]
  split
  next t ht => exact absurd (.inl rfl) (h _ t ht)
  next t ht => exact absurd (.inr (.inl rfl)) (h _ t ht)
  next t ht => exact absurd (.inr (.inr (.inl rfl))) (h _ t ht)
  next t ht => exact absurd (.inr (.inr (.inr (.inl rfl)))) (h _ t ht)
  next t ht => exact absurd (.inr (.inr (.inr (.inr (.inl rfl))))) (h _ t ht)
  next t ht => exact absurd (.inr (.inr (.inr (.inr (.inr rfl))))) (h _ t ht)
  next => rfl

theorem Agrees.map {α β : Type} {i j : Nat} {x : Parsed α} {r : α × List Char} (f : α → β)
    (h : Agrees b j x r) (hij : i ≤ j) :
    Agrees b i (x.bind fun a => .ok (f a.1, a.2)) (f r.1, r.2) := by
  obtain ⟨k, rfl, hjk, hleaves⟩ := h
  exact ⟨k, rfl, Nat.le_trans hij hjk, hleaves⟩

theorem agrees_ok {α : Type} {i j : Nat} {v : α} (hij : i ≤ j)
    (h : Leaves b j t) : Agrees b i (.ok (v, j)) (v, t) := ⟨j, rfl, hij, h⟩

/-- The calls that `n` turns are enough for make the same. -/
def CallsAgree (b : List UInt8) (n : Nat) : Prop :=
  ∀ i s, At b i s →
    (2 * (b.length - i) < n → Agrees b i (parseVal b n i) (value s)) ∧
    (2 * (b.length - i) + 1 < n →
      Agrees b i (objLoop b n i) (members s) ∧ Agrees b i (arrLoop b n i) (elements s))

/-- A value, by the mark that begins it. -/
theorem CallsAgree.parseVal {n : Nat} (ih : CallsAgree b n) (h : At b i s)
    (hn : 2 * (b.length - i) < n + 1) : Agrees b i (parseVal b (n + 1) i) (value s) := by
  have hiw := le_ws (b := b) i
  have hw := h.ws
  rw [JsonBytes.parseVal]
  generalize JsonBytes.ws b i = w at hiw hw
  -- both parsers branch on the same first character
  have hmark : ∀ d : Char, 0 < d.toNat ∧ d.toNat < 128 →
      (∃ t, JsonValue.ws s = d :: t ∧ cur b w = byte d ∧ At b (w + 1) t) ∨
        (∀ t, JsonValue.ws s ≠ d :: t) ∧ cur b w ≠ byte d := fun _ => Leaves.mark (.inl hw)
  rcases hmark '"' (by decide) with ⟨t, ht, hcur, -⟩ | ⟨hquote, hcur⟩
  · obtain ⟨j, hj, hat, hle⟩ := hw.parseStrRaw
    rw [if_pos hcur, hj, value_str ht]
    rw [ht] at hat ⊢
    exact agrees_ok (Nat.le_trans hiw hle) (.inl hat)
  rw [if_neg hcur]
  rcases hmark '{' (by decide) with ⟨t, ht, hcur, hat⟩ | ⟨hbrace, hcur⟩
  · have hin := hat.ws
    have hle := le_ws (b := b) (w + 1)
    have hlen := hin.le
    rw [if_pos hcur]
    rcases Leaves.mark (.inl hin) (d := '}') (by decide) with ⟨u, hu, hcur, hat⟩ | ⟨hno, hcur⟩
    · rw [if_pos hcur, value_obj_nil ht hu]
      exact agrees_ok (by omega) (.inl hat)
    · have hiw' : i ≤ JsonBytes.ws b (w + 1) := by omega
      rw [if_neg hcur, value_obj ht hno]
      exact ((ih _ _ hin).2 (by omega)).1.map (fun ms => JsonValue.obj (ms.foldl push [])) hiw'
  rw [if_neg hcur]
  rcases hmark '[' (by decide) with ⟨t, ht, hcur, hat⟩ | ⟨hbracket, hcur⟩
  · have hin := hat.ws
    have hle := le_ws (b := b) (w + 1)
    have hlen := hin.le
    rw [if_pos hcur]
    rcases Leaves.mark (.inl hin) (d := ']') (by decide) with ⟨u, hu, hcur, hat⟩ | ⟨hno, hcur⟩
    · rw [if_pos hcur, value_arr_nil ht hu]
      exact agrees_ok (by omega) (.inl hat)
    · have hiw' : i ≤ JsonBytes.ws b (w + 1) := by omega
      rw [if_neg hcur, value_arr ht hno]
      exact ((ih _ _ hin).2 (by omega)).2.map JsonValue.arr hiw'
  rw [if_neg hcur]
  rcases hmark 't' (by decide) with ⟨t, ht, hcur, -⟩ | ⟨ht, hcur⟩
  · rw [if_pos hcur, value_true ht]
    exact agrees_ok (by omega) (ht ▸ hw.skip 4)
  rw [if_neg hcur]
  rcases hmark 'f' (by decide) with ⟨t, ht, hcur, -⟩ | ⟨hf, hcur⟩
  · rw [if_pos hcur, value_false ht]
    exact agrees_ok (by omega) (ht ▸ hw.skip 5)
  rw [if_neg hcur]
  rcases hmark 'n' (by decide) with ⟨t, ht, hcur, -⟩ | ⟨hnull, hcur⟩
  · rw [if_pos hcur, value_null ht]
    exact agrees_ok (by omega) (ht ▸ hw.skip 4)
  rw [if_neg hcur]
  obtain ⟨j, hj, hat, hle⟩ := hw.parseNum
  rw [hj, value_other]
  · exact agrees_ok (Nat.le_trans hiw hle) (.inl hat)
  · rintro c t hc (rfl | rfl | rfl | rfl | rfl | rfl)
    · exact hquote t hc
    · exact hbrace t hc
    · exact hbracket t hc
    · exact ht t hc
    · exact hf t hc
    · exact hnull t hc

/-- The members of an object. -/
theorem CallsAgree.objLoop {n : Nat} (ih : CallsAgree b n) (h : At b i s)
    (hn : 2 * (b.length - i) + 1 < n + 1) : Agrees b i (objLoop b (n + 1) i) (members s) := by
  have hiw := le_ws (b := b) i
  obtain ⟨j, hkey, hat, hwj⟩ := h.ws.parseStrRaw
  have hval := hat.ws.colon
  have hjv := Nat.le_trans (le_ws (b := b) j) (le_past (b := b) ':' _)
  obtain ⟨k, hv, hvk, hleaves⟩ := (ih _ _ hval).1 (by omega)
  have hkw := le_ws (b := b) k
  rw [JsonBytes.objLoop, hkey, ok_bind, hv, ok_bind, members_eq]
  dsimp only
  generalize value (JsonValue.colon (JsonValue.ws (JsonValue.parseStrRaw (JsonValue.ws s)).2)) = val
    at hleaves ⊢
  rcases hleaves.ws.mark (d := ',') (by decide) with ⟨t, ht, hcur, hat⟩ | ⟨hno, hcur⟩
  · have hlen := hat.le
    have hrest := ((ih _ _ hat).2 (by omega)).1
    rw [if_pos hcur, ht]
    exact hrest.map (((JsonValue.parseStrRaw (JsonValue.ws s)).1, val.1) :: ·) (by omega)
  rw [if_neg hcur]
  rcases hleaves.ws.mark (d := '}') (by decide) with ⟨t, ht, hcur, hat⟩ | ⟨hclose, hcur⟩
  · rw [past, if_pos hcur, ht]
    exact agrees_ok (by omega) (.inl hat)
  · rw [past, if_neg hcur]
    split
    next t ht => exact absurd ht (hno t)
    next t ht => exact absurd ht (hclose t)
    next => exact agrees_ok (by omega) hleaves.ws

/-- The elements of an array. -/
theorem CallsAgree.arrLoop {n : Nat} (ih : CallsAgree b n) (h : At b i s)
    (hn : 2 * (b.length - i) + 1 < n + 1) : Agrees b i (arrLoop b (n + 1) i) (elements s) := by
  obtain ⟨k, hv, hvk, hleaves⟩ := (ih _ _ h).1 (by omega)
  have hkw := le_ws (b := b) k
  rw [JsonBytes.arrLoop, hv, ok_bind, elements_eq]
  generalize value s = val at hleaves ⊢
  dsimp only
  rcases hleaves.ws.mark (d := ',') (by decide) with ⟨t, ht, hcur, hat⟩ | ⟨hno, hcur⟩
  · have hlen := hat.le
    have hrest := ((ih _ _ hat).2 (by omega)).2
    rw [if_pos hcur, ht]
    exact hrest.map (val.1 :: ·) (by omega)
  rw [if_neg hcur]
  rcases hleaves.ws.mark (d := ']') (by decide) with ⟨t, ht, hcur, hat⟩ | ⟨hclose, hcur⟩
  · rw [past, if_pos hcur, ht]
    exact agrees_ok (by omega) (.inl hat)
  · rw [past, if_neg hcur]
    split
    next t ht => exact absurd ht (hno t)
    next t ht => exact absurd ht (hclose t)
    next => exact agrees_ok (by omega) hleaves.ws

/-- **Every call makes the same** that starts where characters begin. -/
theorem calls_agree (n : Nat) : CallsAgree b n := by
  induction n with
  | zero =>
    intro i s _
    exact ⟨fun h => absurd h (Nat.not_lt_zero _), fun h => absurd h (Nat.not_lt_zero _)⟩
  | succ n ih =>
    intro i s h
    exact ⟨fun hn => ih.parseVal h hn, fun hn => ⟨ih.objLoop h hn, ih.arrLoop h hn⟩⟩

end

/-- **Of the bytes of a text, the parser makes what is made of its characters.** -/
theorem parse_encode (text : List Char) :
    parse (Utf8.encode text) = .ok (JsonValue.parse text) := by
  have hat : At (Utf8.encode text) 0 text := ⟨rfl, Nat.zero_le _⟩
  unfold parse
  split
  next hnil =>
    cases text with
    | nil => rfl
    | cons c text =>
      cases (hnil ▸ hat).seen with
      | ascii _ hdrop _ => cases hdrop
      | other _ hlt _ => cases hlt
  next hne =>
    have htext : text ≠ [] := by
      rintro rfl
      exact hne rfl
    obtain ⟨j, hj, -⟩ := (calls_agree (2 * (Utf8.encode text).length + 1) 0 text hat).1
      (by omega)
    rw [hj, ok_bind, parse_eq htext]

end Colibri.JsonBytes
