import Colibri.Safetensors.Open

/-!
# Names that the header does not write as they are read

The header writes a name between quotes as it is. A quote in it ends it early, and a
backslash begins an escape. What the reader makes of the rest depends on the text, but it is
never the name: an escape is longer than what it stands for, so a quote or a
backslash that is read comes from a longer name that is written (`classified`). The one way
out is a backslash at the end, which takes the closing quote into the name; then what
follows the name is no entry, and the header is refused.

So of a set of written files in which some name is not plain, the longest such name is
never found (`opened_longer`).
-/

namespace Colibri.Safetensors

open Batch JsonValue

/-! ## What an escape stands for -/

theorem hexDigit_lt {c : Char} {d : Nat} (h : hexDigit c = some d) : d < 16 := by
  unfold hexDigit at h
  split at h
  next hc =>
    have hle : c.toNat ≤ '9'.toNat := hc.2
    cases h
    exact Nat.lt_of_le_of_lt (Nat.sub_le_sub_right hle _) (by decide)
  next =>
    split at h
    next hc =>
      have hle : c.toNat ≤ 'f'.toNat := hc.2
      cases h
      exact Nat.lt_of_le_of_lt (Nat.add_le_add_right (Nat.sub_le_sub_right hle _) _) (by decide)
    next =>
      split at h
      next hc =>
        have hle : c.toNat ≤ 'F'.toNat := hc.2
        cases h
        exact Nat.lt_of_le_of_lt (Nat.add_le_add_right (Nat.sub_le_sub_right hle _) _) (by decide)
      next => cases h

/-- Hex digits are read up to the quote at most. -/
theorem hexFrom_append (n v : Nat) (u s : List Char) : ∃ w x, w <:+ u ∧
    hexFrom n v (u ++ '"' :: s) = (x, w ++ '"' :: s) ∧
      x < (v + 1) * 16 ^ (u.length - w.length) := by
  induction u generalizing n v with
  | nil =>
    refine ⟨[], v, List.suffix_rfl, ?_, by simp⟩
    cases n <;> rfl
  | cons c u ih =>
    cases n with
    | zero => exact ⟨c :: u, v, List.suffix_rfl, rfl, by simp⟩
    | succ n =>
      rw [List.cons_append, hexFrom]
      split
      next d hd =>
        obtain ⟨w, x, hw, heq, hx⟩ := ih n (v * 16 + d)
        refine ⟨w, x, hw.trans (List.suffix_cons c u), heq, Nat.lt_of_lt_of_le hx ?_⟩
        have hle := hw.length_le
        have hdigit := hexDigit_lt hd
        have hpow : (c :: u).length - w.length = (u.length - w.length) + 1 := by
          rw [List.length_cons]
          omega
        rw [hpow, Nat.pow_succ, Nat.mul_comm (16 ^ _) 16, ← Nat.mul_assoc]
        exact Nat.mul_le_mul_right _ (by omega)
      next => exact ⟨c :: u, v, List.suffix_rfl, rfl, by simp⟩

/-- A surrogate takes all four digits. -/
theorem hex4_append (u s : List Char) : ∃ w x, w <:+ u ∧ hex4 (u ++ '"' :: s) = (x, w ++ '"' :: s) ∧
    (0xD800 ≤ x → w.length + 4 ≤ u.length) := by
  obtain ⟨w, x, hw, heq, hx⟩ := hexFrom_append 4 0 u s
  refine ⟨w, x, hw, heq, fun hge => ?_⟩
  by_contra hlt
  have hle := hw.length_le
  have hpow : 16 ^ (u.length - w.length) ≤ 16 ^ 3 := Nat.pow_le_pow_right (by decide) (by omega)
  omega

theorem pushUtf8_length (cp : Nat) :
    (pushUtf8 cp).length = if 0xD800 ≤ cp ∧ cp ≤ 0xDFFF then 3 else 1 := by
  unfold pushUtf8
  split <;> simp

/-- `\u` and its digits are longer than what they stand for. -/
theorem unicode_append (u s : List Char) : ∃ w, w <:+ u ∧
    (unicode (u ++ '"' :: s)).2 = w ++ '"' :: s ∧
    (unicode (u ++ '"' :: s)).1.length + w.length ≤ u.length + 1 := by
  obtain ⟨w, cp, hw, heq, hfour⟩ := hex4_append u s
  have hle := hw.length_le
  have hlen := pushUtf8_length cp
  have hone : ¬ (0xD800 ≤ cp ∧ cp ≤ 0xDBFF) →
      (pushUtf8 cp).length + w.length ≤ u.length + 1 := fun hnot => by
    split at hlen
    next hsur =>
      have := hfour hsur.1
      omega
    next => omega
  unfold unicode
  rw [heq]
  dsimp only
  split
  next hhigh =>
    have hspace := hfour hhigh.1
    rw [if_pos (by omega)] at hlen
    split
    next t ht =>
      -- the second half is in the name as well
      obtain ⟨w', rfl, rfl⟩ : ∃ w', w = '\\' :: 'u' :: w' ∧ t = w' ++ '"' :: s := by
        match w, ht with
        | [], ht => cases ht
        | [c], ht => cases ht
        | c :: c' :: w', ht =>
          cases ht
          exact ⟨w', rfl, rfl⟩
      obtain ⟨v, lo, hv, heq', hfour'⟩ := hex4_append w' s
      rw [heq']
      dsimp only
      split
      next hlow =>
        have hspace' := hfour' (by omega)
        have hlen' := pushUtf8_length (0x10000 + (cp - 0xD800) * 2 ^ 10 + (lo - 0xDC00))
        rw [if_neg (by omega)] at hlen'
        refine ⟨v, (hv.trans ((List.suffix_cons 'u' w').trans (List.suffix_cons _ _))).trans hw,
          rfl, ?_⟩
        dsimp only
        rw [hlen']
        simp only [List.length_cons] at hspace
        omega
      next => exact ⟨_, hw, rfl, by dsimp only; omega⟩
    next => exact ⟨w, hw, rfl, by dsimp only; omega⟩
  next hnot => exact ⟨w, hw, rfl, hone hnot⟩

theorem escape_append (e : Char) (u s : List Char) : ∃ w, w <:+ u ∧
    (escape e (u ++ '"' :: s)).2 = w ++ '"' :: s ∧
    (escape e (u ++ '"' :: s)).1.length + w.length ≤ u.length + 1 := by
  unfold escape
  split
  case h_9 => exact unicode_append u s
  all_goals exact ⟨u, List.suffix_rfl, rfl, by simp [Nat.add_comm]⟩

/-! ## What is read from somewhere in a header -/

theorem Plain.cons {c : Char} {out : List Char} (hquote : c ≠ '"') (hback : c ≠ '\\') :
    Plain (c :: out) ↔ Plain out := by
  unfold Plain
  rw [List.mem_cons, List.mem_cons, or_iff_right hquote.symm, or_iff_right hback.symm]

/-- From inside a name, or its start: what is read is shorter than the text of the name if
it is not plain, unless the closing quote is taken in. -/
theorem scan_name (u s : List Char) :
    (scan (u ++ '"' :: ':' :: '{' :: '"' :: 'd' :: s)).2.head? = some 'd' ∨
      (scan (u ++ '"' :: ':' :: '{' :: '"' :: 'd' :: s)).1.length ≤ u.length ∧
      (¬ Plain (scan (u ++ '"' :: ':' :: '{' :: '"' :: 'd' :: s)).1 →
        (scan (u ++ '"' :: ':' :: '{' :: '"' :: 'd' :: s)).1.length < u.length ∧ '\\' ∈ u) := by
  match u with
  | [] =>
    rw [List.nil_append, scan_quote]
    exact .inr ⟨Nat.le_refl 0, fun h => absurd ⟨List.not_mem_nil, List.not_mem_nil⟩ h⟩
  | c :: u =>
    by_cases hquote : c = '"'
    · subst hquote
      rw [List.cons_append, scan_quote]
      exact .inr ⟨Nat.zero_le _, fun h => absurd ⟨List.not_mem_nil, List.not_mem_nil⟩ h⟩
    by_cases hback : c = '\\'
    · subst hback
      cases u with
      -- the closing quote is escaped, and the next one closes
      | nil => exact .inl rfl
      | cons e u =>
        obtain ⟨w, hw, hrest, hlen⟩ := escape_append e u (':' :: '{' :: '"' :: 'd' :: s)
        have hle := hw.length_le
        rw [List.cons_append, List.cons_append, scan_escape, hrest]
        rcases scan_name w s with hd | ⟨hshort, -⟩
        · exact .inl hd
        · have hlt : ((escape e (u ++ '"' :: ':' :: '{' :: '"' :: 'd' :: s)).1
              ++ (scan (w ++ '"' :: ':' :: '{' :: '"' :: 'd' :: s)).1).length < u.length + 2 := by
            rw [List.length_append]
            omega
          exact .inr ⟨Nat.le_of_lt hlt, fun _ => ⟨hlt, List.mem_cons_self⟩⟩
    · rw [List.cons_append, scan_plain hquote hback, Plain.cons hquote hback]
      rcases scan_name u s with hd | ⟨hshort, hspecial⟩
      · exact .inl hd
      · refine .inr ⟨Nat.succ_le_succ hshort, fun h => ?_⟩
        obtain ⟨hlt, hmem⟩ := hspecial h
        exact ⟨Nat.succ_lt_succ hlt, List.mem_cons_of_mem _ hmem⟩
  termination_by u.length

/-- Without a backslash, what is read up to the first quote is plain. -/
theorem plain_scan_append {text : List Char} (h : '\\' ∉ text) (s : List Char) :
    Plain (scan (text ++ '"' :: s)).1 := by
  induction text with
  | nil => exact ⟨List.not_mem_nil, List.not_mem_nil⟩
  | cons c text ih =>
    obtain ⟨hback, h⟩ := not_or.mp (List.mem_cons.not.mp h)
    by_cases hquote : c = '"'
    · subst hquote
      exact ⟨List.not_mem_nil, List.not_mem_nil⟩
    · rw [List.cons_append, scan_plain hquote (Ne.symm hback)]
      exact (Plain.cons hquote (Ne.symm hback)).mpr (ih h)

theorem plain_scan {text : List Char} (h : '\\' ∉ text) : Plain (scan text).1 := by
  induction text with
  | nil => exact ⟨List.not_mem_nil, List.not_mem_nil⟩
  | cons c text ih =>
    obtain ⟨hback, h⟩ := not_or.mp (List.mem_cons.not.mp h)
    by_cases hquote : c = '"'
    · subst hquote
      exact ⟨List.not_mem_nil, List.not_mem_nil⟩
    · rw [scan_plain hquote (Ne.symm hback)]
      exact (Plain.cons hquote (Ne.symm hback)).mpr (ih h)

theorem suffix_append_cases {α : Type} {t a b : List α} (h : t <:+ a ++ b) :
    t <:+ b ∨ ∃ c, c <:+ a ∧ t = c ++ b := by
  induction a with
  | nil => exact .inl h
  | cons x a ih =>
    rcases List.suffix_cons_iff.mp h with rfl | h
    · exact .inr ⟨x :: a, List.suffix_rfl, rfl⟩
    · rcases ih h with hb | ⟨c, hc, rfl⟩
      · exact .inl hb
      · exact .inr ⟨c, hc.trans (List.suffix_cons x a), rfl⟩

theorem not_mem_intText (i : Int) : '\\' ∉ intText i := by
  have hdigits : ∀ n, '\\' ∉ Nat.toDigits 10 n := fun n hmem => by cases digits_isDigit n _ hmem
  cases i with
  | ofNat n => exact hdigits n
  | negSucc n =>
    intro hmem
    rcases List.mem_cons.mp hmem with h | h
    · cases h
    · exact hdigits _ h

theorem not_mem_shapeText (ds : List Int) : '\\' ∉ shapeText ds := by
  induction ds using shapeText.induct with
  | case1 => exact List.not_mem_nil
  | case2 d => exact not_mem_intText d
  | case3 d ds hds ih =>
    rw [shapeText]
    · intro hmem
      rcases List.mem_append.mp hmem with h | h
      · exact not_mem_intText d h
      · rcases List.mem_cons.mp h with h | h
        · cases h
        · exact ih h
    · exact hds

theorem not_mem_metaText (rel : Nat) (e : Entry) : '\\' ∉ metaText rel e := by
  simp [metaText, (plain_str e.dtype).1.2, not_mem_intText, not_mem_shapeText]

/-- What is read from `t` on is plain, or is followed by no entry, or is shorter than a name
of `es` that is not plain. -/
def Classified (es : List Entry) (t : List Char) : Prop :=
  Plain (scan t).1 ∨ (scan t).2.head? = some 'd' ∨
    ∃ e ∈ es, ¬ Plain e.name ∧ (scan t).1.length < e.name.length

variable {es : List Entry}

theorem Classified.cons {t : List Char} (h : Classified es t) (e : Entry) :
    Classified (e :: es) t := by
  rcases h with hplain | hd | ⟨e', he, hnot, hlt⟩
  · exact .inl hplain
  · exact .inr (.inl hd)
  · exact .inr (.inr ⟨e', List.mem_cons_of_mem _ he, hnot, hlt⟩)

/-- The text between two names, or behind the last, has no backslash and ends in a quote or
ends the header. -/
theorem classified_between {c : List Char} (rel : Nat) (h : '\\' ∉ c)
    (es' : List Entry) : Classified es (c ++ headerFrom false rel es') := by
  refine .inl ?_
  cases es' with
  | nil =>
    refine plain_scan fun hmem => ?_
    rcases List.mem_append.mp hmem with hc | hc
    · exact h hc
    · cases List.mem_singleton.mp hc
  | cons e es' =>
    have hcomma : '\\' ∉ c ++ [','] := fun hmem => by
      rcases List.mem_append.mp hmem with hc | hc
      · exact h hc
      · cases List.mem_singleton.mp hc
    have hplain := plain_scan_append hcomma
      (e.name ++ '"' :: ':' :: metaText rel e ++ headerFrom false (wadd rel e.bytes.length) es')
    rw [List.append_assoc] at hplain
    exact hplain

theorem classified_name {e : Entry} (he : e ∈ es) {u : List Char}
    (hu : u <:+ e.name) (rel : Nat) (s : List Char) :
    Classified es (u ++ ('"' :: ':' :: metaText rel e ++ s)) := by
  obtain ⟨rest, hrest⟩ : ∃ rest, metaText rel e ++ s = '{' :: '"' :: 'd' :: rest := ⟨_, rfl⟩
  rw [List.cons_append, List.cons_append, hrest]
  rcases scan_name u rest with hd | ⟨-, hspecial⟩
  · exact .inr (.inl hd)
  · by_cases hplain : Plain (scan (u ++ '"' :: ':' :: '{' :: '"' :: 'd' :: rest)).1
    · exact .inl hplain
    · obtain ⟨hlt, hmem⟩ := hspecial hplain
      exact .inr (.inr ⟨e, he, fun h => h.2 (hu.subset hmem), Nat.lt_of_lt_of_le hlt hu.length_le⟩)

/-- **Every place of a header.** -/
theorem classified (first : Bool) (rel : Nat) {t : List Char}
    (h : t <:+ headerFrom first rel es) : Classified es t := by
  induction es generalizing first rel with
  | nil =>
    refine .inl (plain_scan fun hmem => ?_)
    cases List.mem_singleton.mp (h.subset hmem)
  | cons e es ih =>
    have hmeta : '\\' ∉ '"' :: ':' :: metaText rel e := by
      simp [not_mem_metaText]
    have htext : headerFrom first rel (e :: es)
      = (if first then [] else [',']) ++ (['"'] ++ (e.name ++
        (('"' :: ':' :: metaText rel e) ++ headerFrom false (wadd rel e.bytes.length) es))) := by
      rw [headerFrom, entryText]
      cases first <;> simp
    have hquote : ∀ c s, '\\' ∉ c → Classified (e :: es) (c ++ (['"'] ++ s)) := fun c s hc =>
      .inl (plain_scan_append hc s)
    rw [htext] at h
    rcases suffix_append_cases h with h | ⟨c, hc, rfl⟩
    · rcases suffix_append_cases h with h | ⟨c, hc, rfl⟩
      · rcases suffix_append_cases h with h | ⟨u, hu, rfl⟩
        · rcases suffix_append_cases h with h | ⟨c, hc, rfl⟩
          · exact (ih false _ h).cons e
          · exact classified_between _ (fun hmem => hmeta (hc.subset hmem)) es
        · exact classified_name List.mem_cons_self hu rel _
      · rcases List.suffix_cons_iff.mp hc with rfl | hc
        · exact hquote [] _ List.not_mem_nil
        · rw [List.suffix_nil.mp hc]
          exact classified_name List.mem_cons_self List.suffix_rfl rel _
    · refine hquote c _ fun hmem => ?_
      have := hc.subset hmem
      cases first <;> simp at this

/-! ## What is found -/

theorem value_d {t : List Char} (h : t.head? = some 'd') :
    (value (colon (ws t))).1.asObject = none := by
  obtain ⟨c, t, rfl⟩ := List.exists_cons_of_ne_nil (l := t) (by rintro rfl; cases h)
  cases h
  have hws : ∀ s, ws ('d' :: s) = 'd' :: s := ws_cons rfl
  have hcolon : colon ('d' :: t) = 'd' :: t := rfl
  rw [hws, hcolon, value_num (hws t) (by unfold Marks; decide)]
  rfl

/-- **A name that is found and is not plain is shorter than one that was written.** -/
theorem opened_longer (hlen : (Utf8.encode (header es)).length < 2 ^ 63) {k : Nat}
    {ts : List StTensor} (h : openFile k (fileOf es) = .ok ts) {t : StTensor} (ht : t ∈ ts)
    (hnot : ¬ Plain t.name) : ∃ e ∈ es, ¬ Plain e.name ∧ t.name.length < e.name.length := by
  rw [openFile_fileOf hlen] at h
  split at h
  next => cases h
  next ms hms =>
    obtain ⟨p, hp, -, htp⟩ := (mem_tensorsOf h).mp ht
    obtain ⟨hname, -, -, hobj⟩ := tensorOf_ok htp
    -- the member comes from some place of the header
    have hplace : ∃ u, u <:+ headerFrom true 0 es ∧
        p = ((scan u).1, (value (colon (ws (scan u).2))).1) := by
      have hopen : ws (header es) = '{' :: headerFrom true 0 es := ws_cons rfl _
      by_cases hnil : ∃ u, ws (headerFrom true 0 es) = '}' :: u
      · obtain ⟨u, hu⟩ := hnil
        rw [value_obj_nil hopen hu] at hms
        cases hms
        cases hp
      · rw [value_obj hopen fun u hu => hnil ⟨u, hu⟩] at hms
        cases hms
        have hpair := (foldl_push_mem hp).resolve_right List.not_mem_nil
        obtain ⟨u, hu, heq⟩ := mem_members hpair
        exact ⟨u, hu.trans (ws_suffix _), heq⟩
    obtain ⟨u, hu, rfl⟩ := hplace
    rcases classified true 0 hu with hplain | hd | hlonger
    · exact absurd (hname ▸ hplain) hnot
    · rw [value_d hd] at hobj
      cases hobj
    · rw [hname]
      exact hlonger

end Colibri.Safetensors
