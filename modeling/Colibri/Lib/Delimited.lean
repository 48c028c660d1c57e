import Mathlib.Data.List.Infix

/-!
# Texts that a mark ends

Where a text ends can be told from what follows it if the mark behind it occurs nowhere
before: not inside the text, and not across its end, which a mark rules out that has no
border (`ends_of_avoids`). Then text, mark and rest are determined (`Ends.cut`), and so
are records made of such texts (`Readable`), one after the other up to a tail that no record
begins (`Readable.flatMap_inj`).

`Borderless` is the condition on the mark: no proper beginning of it is an end of it. Where it holds
a text only has to be searched for the mark, and not for its beginnings.
-/

namespace Colibri.Delimited

variable {α β : Type}

/-- In `w` with the mark `e` behind it, the mark occurs at the end only. -/
def Ends (e w : List α) : Prop := ∀ p q, w ++ e = p ++ e ++ q → q = []

/-- No end of `e` is also its beginning, but for `e` itself and nothing. -/
def Borderless (e : List α) : Prop := ∀ n < e.length, 0 < n → e.take n ≠ e.drop (e.length - n)

instance [DecidableEq α] (e : List α) : Decidable (Borderless e) :=
  inferInstanceAs (Decidable (∀ n < e.length, _))

/-- A mark without a border ends a text that it does not occur in. -/
theorem ends_of_avoids {e w : List α} (he : Borderless e) (h : ¬e <:+: w) : Ends e w := by
  intro p q heq
  by_contra hq
  have hlen := congrArg List.length heq
  simp only [List.length_append] at hlen
  have hpos : 0 < q.length := List.length_pos_iff.mpr hq
  rcases Nat.lt_or_ge q.length e.length with hshort | hlong
  · -- the occurrence at `p` begins inside `w` and ends inside the mark
    have hlast : e = (p ++ e).drop w.length ++ q := by
      have hdrop := congrArg (List.drop w.length) heq
      rwa [List.drop_left, List.drop_append_of_le_length (by rw [List.length_append]; omega)]
        at hdrop
    have hover : (p ++ e).drop w.length = e.drop q.length := by
      rw [show w.length = p.length + q.length by omega, ← List.drop_drop, List.drop_left]
    refine he (e.length - q.length) (by omega) (by omega) ?_
    rw [hover] at hlast
    rw [show e.length - (e.length - q.length) = q.length by omega]
    have hs : (e.drop q.length).length = e.length - q.length := List.length_drop
    generalize e.drop q.length = s at hlast hs
    rw [← hs]
    conv_lhs => rw [hlast]
    exact List.take_left
  · have hpre : p ++ e <+: w :=
      List.prefix_of_prefix_length_le ⟨q, heq.symm⟩ (List.prefix_append w e)
        (by rw [List.length_append]; omega)
    exact h ((List.infix_append' p e []).trans (by rw [List.append_nil]; exact hpre.isInfix))

/-- The first mark ends the text. -/
theorem Ends.cut {e w w' r r' : List α} (h : Ends e w) (h' : Ends e w')
    (heq : w ++ e ++ r = w' ++ e ++ r') : w = w' ∧ r = r' := by
  have key : ∀ {u u' s s' : List α}, Ends e u' → u ++ e ++ s = u' ++ e ++ s' →
      u.length ≤ u'.length → u = u' := by
    intro u u' s s' hend hus hle
    have hpre : u ++ e <+: u' ++ e :=
      List.prefix_of_prefix_length_le ⟨s, hus⟩ (List.prefix_append (u' ++ e) s')
        (by rw [List.length_append, List.length_append]; omega)
    obtain ⟨q, hq⟩ := hpre
    have hnil := hend u q hq.symm
    rw [hnil, List.append_nil] at hq
    exact List.append_cancel_right hq
  have hw : w = w' := by
    rcases Nat.le_total w.length w'.length with hle | hle
    · exact key h' heq hle
    · exact (key h heq.symm hle).symm
  subst hw
  exact ⟨rfl, List.append_cancel_left heq⟩

/-- Records with the property `P` can be told apart from what follows them. -/
def Readable (P : β → Prop) (f : β → List α) : Prop :=
  ∀ b b' r r', P b → P b' → f b ++ r = f b' ++ r' → b = b' ∧ r = r'

/-- Two texts between an opening, a mark in the middle and a mark at the end. -/
theorem readable_pair (o m e : List α) :
    Readable (fun t : List α × List α => Ends m t.1 ∧ Ends e t.2)
      (fun t => o ++ t.1 ++ m ++ t.2 ++ e) := by
  intro t t' r r' ht ht' heq
  simp only [List.append_assoc] at heq
  have hfirst := List.append_cancel_left heq
  rw [← List.append_assoc t.1, ← List.append_assoc t'.1] at hfirst
  obtain ⟨h1, hrest⟩ := ht.1.cut ht'.1 hfirst
  rw [← List.append_assoc t.2, ← List.append_assoc t'.2] at hrest
  obtain ⟨h2, hr⟩ := ht.2.cut ht'.2 hrest
  exact ⟨Prod.ext h1 h2, hr⟩

/-- Records up to a tail that begins with none. -/
theorem Readable.flatMap_inj {P : β → Prop} {f : β → List α} (hf : Readable P f) {t : List α}
    (ht : ∀ b r, f b ++ r ≠ t) {bs bs' : List β} (h : ∀ b ∈ bs, P b) (h' : ∀ b ∈ bs', P b)
    (heq : bs.flatMap f ++ t = bs'.flatMap f ++ t) : bs = bs' := by
  induction bs generalizing bs' with
  | nil =>
    cases bs' with
    | nil => rfl
    | cons b' bs' =>
      rw [List.flatMap_nil, List.nil_append, List.flatMap_cons, List.append_assoc] at heq
      exact absurd heq.symm (ht _ _)
  | cons b bs ih =>
    cases bs' with
    | nil =>
      rw [List.flatMap_nil, List.nil_append, List.flatMap_cons, List.append_assoc] at heq
      exact absurd heq (ht _ _)
    | cons b' bs' =>
      rw [List.flatMap_cons, List.flatMap_cons, List.append_assoc, List.append_assoc] at heq
      obtain ⟨rfl, hrest⟩ :=
        hf b b' _ _ (h b (List.mem_cons_self ..)) (h' b' (List.mem_cons_self ..)) heq
      rw [ih (fun b hb => h b (List.mem_cons_of_mem _ hb))
        (fun b hb => h' b (List.mem_cons_of_mem _ hb)) hrest]

/-- A mark before every text is a mark behind it, but for the first and the last. -/
theorem flatMap_shift (a : List α) (f : β → List α) (bs : List β) :
    (bs.flatMap fun b => a ++ f b) ++ a = a ++ bs.flatMap fun b => f b ++ a := by
  induction bs with
  | nil => rw [List.flatMap_nil, List.flatMap_nil, List.append_nil, List.nil_append]
  | cons b bs ih =>
    rw [List.flatMap_cons, List.flatMap_cons, List.append_assoc, ih, List.append_assoc,
      List.append_assoc]

end Colibri.Delimited
