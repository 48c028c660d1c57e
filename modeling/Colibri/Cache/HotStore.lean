import Colibri.Lib.TopK
import Mathlib.Algebra.BigOperators.Group.List.Basic
import Mathlib.Algebra.Order.Ring.Nat
import Mathlib.Data.List.GetD

/-!
# The hot-store's swap

The experts of the hot-store are pinned, one to a slot. `pick_swap` looks for the coldest
slot and for the hottest expert outside, and swaps them if the one is hotter than the other
by a margin of a quarter and 4. A swap is then for the better and stays: the expert that
went is not hotter than the one that came, let alone by a margin.

The margin is added up in 32 bits, here as a release build does it. Of a heat from
`3435973834` on it does not fit, and what is left of it after it has wrapped is little.
`pickSwap_meets_iff` says what follows: a cold slot so hot is given to an expert that may be colder
(`WrapsCold`), and an expert so hot that has come is sent back (`WrapsHot`); nothing else
goes wrong.

`pickSwap_pick` says what the two loops find, the first of the coldest slots and the first of the
hottest experts outside, and `Pick.unique` that there is one such answer. `coldest_set_iff` and
`hottest_set_iff` are the way back: after a swap the slot that was filled is the coldest, and the
expert that went the hottest outside, exactly under the conditions they name.
-/

namespace Colibri.Cache.HotStore

open TopK

structure Swap where
  slot : Nat
  eid : Nat
  gain : Int
  deriving DecidableEq

section

variable (heat : List UInt32) (pinned : List Nat)

/-- `heat[pinned[z]]`; none is a panic. -/
def slotHeat (z : Nat) : Option UInt32 := do
  heat[← pinned[z]?]?

/-- The coldest slot: `n` slots are left, from `z` on. -/
def coldLoop : Nat → Nat → Nat → Option Nat
  | 0, _, cold => some cold
  | n + 1, z, cold => do
    let hz ← slotHeat heat pinned z
    let hc ← slotHeat heat pinned cold
    coldLoop n (z + 1) (if hz < hc then z else cold)

/-- The hottest expert that is not resident: the heats from expert `e` on are left. -/
def hotLoop : List UInt32 → Nat → Option Nat → UInt32 → Option Nat × UInt32
  | [], _, hot, fh => (hot, fh)
  | h :: rest, e, hot, fh =>
    if e ∉ pinned ∧ fh < h then hotLoop rest (e + 1) (some e) h
    else hotLoop rest (e + 1) hot fh

/-- `pick_swap`; none is a panic. -/
def pickSwap : Option (Option Swap) :=
  if pinned.isEmpty ∨ heat.length < 1 then some none
  else do
    let cold ← coldLoop heat pinned (pinned.length - 1) 1 0
    match hotLoop pinned heat 0 none 0 with
    | (none, _) => some none
    | (some hot, fh) => do
      let fc ← slotHeat heat pinned cold
      if fh ≤ fc + (fc >>> 2) + 4 then some none
      else some (some { slot := cold, eid := hot, gain := (fh.toNat : Int) - fc.toNat })

/-! ## What a swap should be -/

/-- The heat of an expert, as a number. -/
def heatOf (e : Nat) : Nat := (heat.getD e 0).toNat

/-- What a heat must exceed to be worth a slot of heat `c`. -/
def margin (c : Nat) : Nat := c + c / 4 + 4

/-- The least heat among the pinned. -/
def coldHeat : Nat := ((pinned.map (heatOf heat)).min?).getD 0

/-- Every slot has an expert there is. -/
def InRange : Prop := ∀ p ∈ pinned, p < heat.length

instance : Decidable (InRange heat pinned) :=
  inferInstanceAs (Decidable (∀ p ∈ pinned, p < heat.length))

def Outside (e : Nat) : Prop := e < heat.length ∧ e ∉ pinned

def total : Nat := (pinned.map (heatOf heat)).sum

/-- The slots after a swap. -/
def Swap.apply (s : Swap) : List Nat := pinned.set s.slot s.eid

/-- A coldest slot, a hottest expert outside, and the exact difference. -/
structure Right (s : Swap) : Prop where
  slot : ∃ p, pinned[s.slot]? = some p ∧ heatOf heat p = coldHeat heat pinned
  eid : Outside heat pinned s.eid
  hottest : ∀ e, Outside heat pinned e → heatOf heat e ≤ heatOf heat s.eid
  gain : s.gain = (heatOf heat s.eid : Int) - coldHeat heat pinned

/-- There is a swap just when an expert outside exceeds the margin, and it is the right one,
never lowers the total, and is not taken back by the next. -/
def Meets : Prop :=
  ∃ r, pickSwap heat pinned = some r ∧
    (r.isSome ↔ ∃ e, Outside heat pinned e ∧ margin (coldHeat heat pinned) < heatOf heat e) ∧
    ∀ s, r = some s → Right heat pinned s ∧ total heat pinned ≤ total heat (s.apply pinned) ∧
      ∀ s', pickSwap heat (s.apply pinned) = some (some s') →
        ¬ (s'.slot = s.slot ∧ pinned[s.slot]? = some s'.eid)

/-! ## When it is not -/

/-- The margin over the coldest slot has wrapped, to less than the heat of an expert outside. -/
def WrapsCold : Prop :=
  2 ^ 32 ≤ margin (coldHeat heat pinned) ∧
    ∃ e, Outside heat pinned e ∧ margin (coldHeat heat pinned) < 2 ^ 32 + heatOf heat e

/-- An expert `e` is to take the slot of `old`, and then the margin over `e` has wrapped, to
less than the heat of `old`. The slot is still the coldest, and `old` the hottest outside. -/
def WrapsHot : Prop :=
  ∃ slot old e : Nat, pinned[slot]? = some old ∧ Outside heat pinned e ∧
    margin (heatOf heat old) < heatOf heat e ∧
    2 ^ 32 ≤ margin (heatOf heat e) ∧ margin (heatOf heat e) < 2 ^ 32 + heatOf heat old ∧
    (∀ z p, pinned[z]? = some p → z ≠ slot →
      heatOf heat e ≤ heatOf heat p ∧ (z < slot → heatOf heat e < heatOf heat p)) ∧
    (∀ x, Outside heat pinned x → x ≠ e →
      heatOf heat x ≤ heatOf heat old ∧ (x < old → heatOf heat x < heatOf heat old))

end

section

variable {heat : List UInt32} {pinned : List Nat}

/-- The slots by their heat, the coldest first. -/
def coldness (heat : List UInt32) (pinned : List Nat) (z : Nat) : ℕᵒᵈ :=
  OrderDual.toDual (heatOf heat (pinned.getD z 0))

/-- The slot the first loop ends with. -/
abbrev Coldest (heat : List UInt32) (pinned : List Nat) (slot : Nat) : Prop :=
  FirstBest (fun _ => True) (coldness heat pinned) pinned.length slot

/-- The expert the second loop ends with. -/
abbrev Hottest (heat : List UInt32) (pinned : List Nat) (e : Nat) : Prop :=
  FirstBest (· ∉ pinned) (heatOf heat) heat.length e

theorem getElem?_heat {e : Nat} (he : e < heat.length) :
    ∃ h, heat[e]? = some h ∧ h.toNat = heatOf heat e := by
  refine ⟨heat[e], List.getElem?_eq_getElem he, ?_⟩
  rw [heatOf, List.getD_eq_getElem _ _ he]

theorem heatOf_lt (e : Nat) : heatOf heat e < 2 ^ 32 := UInt32.toNat_lt _

/-- No slot panics. -/
theorem slotHeat_eq (hin : InRange heat pinned) {z : Nat} (hz : z < pinned.length) :
    ∃ h, slotHeat heat pinned z = some h ∧ h.toNat = heatOf heat (pinned.getD z 0) := by
  obtain ⟨h, hh, hval⟩ := getElem?_heat (hin pinned[z] (List.getElem_mem hz))
  refine ⟨h, ?_, ?_⟩
  · rw [slotHeat, List.getElem?_eq_getElem hz]
    exact hh
  · rw [hval, List.getD_eq_getElem _ _ hz]

/-! ## The loops -/

/-- The first loop keeps the first of the coldest slots it has seen. -/
theorem coldLoop_spec (hin : InRange heat pinned) (n : Nat) {z cold : Nat}
    (hz : z + n = pinned.length)
    (hcold : FirstBest (fun _ => True) (coldness heat pinned) z cold) :
    ∃ slot, coldLoop heat pinned n z cold = some slot ∧ Coldest heat pinned slot := by
  induction n generalizing z cold with
  | zero =>
    obtain rfl : z = pinned.length := hz
    exact ⟨cold, rfl, hcold⟩
  | succ n ih =>
    have hlt := hcold.lt
    obtain ⟨hz', hhz, hzval⟩ := slotHeat_eq hin (z := z) (by omega)
    obtain ⟨hc, hhc, hcval⟩ := slotHeat_eq hin (z := cold) (by omega)
    have hstep : coldLoop heat pinned (n + 1) z cold
        = coldLoop heat pinned n (z + 1) (if hz' < hc then z else cold) := by
      rw [coldLoop, hhz, hhc]
      rfl
    rw [hstep]
    refine ih (by omega) ?_
    split
    next hless =>
      have hless : heatOf heat (pinned.getD z 0) < heatOf heat (pinned.getD cold 0) := by
        rw [← hzval, ← hcval]
        exact hless
      refine FirstBest.take trivial fun u hu _ => ?_
      exact Nat.lt_of_lt_of_le hless (hcold.best u hu trivial)
    next hless =>
      have hless : heatOf heat (pinned.getD cold 0) ≤ heatOf heat (pinned.getD z 0) := by
        rw [← hzval, ← hcval]
        exact Nat.le_of_not_lt hless
      exact hcold.keep fun _ => hless

/-- What the second loop knows of the experts below `e`. -/
def Seen (heat : List UInt32) (pinned : List Nat) (e : Nat) (fh : UInt32) : Option Nat → Prop
  | none => fh = 0 ∧ ∀ u < e, u ∉ pinned → heatOf heat u = 0
  | some hot => FirstBest (· ∉ pinned) (heatOf heat) e hot ∧ fh.toNat = heatOf heat hot

/-- One expert more. -/
theorem Seen.step {e : Nat} {fh h : UInt32} {hot : Option Nat}
    (hseen : Seen heat pinned e fh hot) (hval : h.toNat = heatOf heat e) :
    if e ∉ pinned ∧ fh < h then Seen heat pinned (e + 1) h (some e)
    else Seen heat pinned (e + 1) fh hot := by
  have hbelow : ∀ u < e, u ∉ pinned → heatOf heat u ≤ fh.toNat := by
    intro u hu hout
    cases hot with
    | none => exact Nat.le_trans (Nat.le_of_eq (hseen.2 u hu hout)) (Nat.zero_le _)
    | some hot => exact hseen.2 ▸ hseen.1.best u hu hout
  split
  next hnew =>
    refine ⟨FirstBest.take hnew.1 fun u hu hout => ?_, hval⟩
    exact Nat.lt_of_le_of_lt (hbelow u hu hout) (hval ▸ hnew.2)
  next hnot =>
    have hle : e ∉ pinned → heatOf heat e ≤ fh.toNat := by
      intro hout
      rw [← hval]
      exact Nat.le_of_not_lt fun hlt => hnot ⟨hout, hlt⟩
    cases hot with
    | none =>
      obtain ⟨rfl, hzero⟩ := hseen
      refine ⟨rfl, fun u hu hout => ?_⟩
      rcases Nat.lt_succ_iff_lt_or_eq.mp hu with hlt | rfl
      · exact hzero u hlt hout
      · exact Nat.le_zero.mp (hle hout)
    | some hot => exact ⟨hseen.1.keep fun hout => hseen.2 ▸ hle hout, hseen.2⟩

/-- The second loop ends with the first of the hottest experts outside. -/
theorem hotLoop_spec (rest : List UInt32) {e : Nat} {fh : UInt32} {hot : Option Nat}
    (hrest : heat.drop e = rest) (he : e ≤ heat.length) (hseen : Seen heat pinned e fh hot) :
    Seen heat pinned heat.length (hotLoop pinned rest e hot fh).2
      (hotLoop pinned rest e hot fh).1 := by
  induction rest generalizing e fh hot with
  | nil =>
    obtain rfl : e = heat.length := Nat.le_antisymm he (List.drop_eq_nil_iff.mp hrest)
    exact hseen
  | cons h rest ih =>
    have hlt : e < heat.length := by
      refine Nat.lt_of_not_le fun hle => ?_
      rw [List.drop_eq_nil_of_le hle] at hrest
      cases hrest
    rw [List.drop_eq_getElem_cons hlt] at hrest
    obtain ⟨hhead, htail⟩ := List.cons.inj hrest
    have hval : h.toNat = heatOf heat e := by
      rw [heatOf, List.getD_eq_getElem _ _ hlt, hhead]
    have hstep := hseen.step hval
    rw [hotLoop]
    split
    next hnew =>
      rw [if_pos hnew] at hstep
      exact ih htail hlt hstep
    next hnot =>
      rw [if_neg hnot] at hstep
      exact ih htail hlt hstep

/-! ## The pick -/

/-- The margin, as 32 bits hold it. -/
theorem bar_toNat (fc : UInt32) :
    (fc + (fc >>> 2) + 4).toNat = margin fc.toNat % 2 ^ 32 := by
  have hquarter : (fc >>> 2).toNat = fc.toNat / 4 := by
    rw [UInt32.toNat_shiftRight]
    exact Nat.shiftRight_eq_div_pow fc.toNat 2
  rw [UInt32.toNat_add, UInt32.toNat_add, hquarter, Nat.mod_add_mod]
  rfl

theorem Coldest.heat_eq {slot : Nat} (h : Coldest heat pinned slot) :
    heatOf heat (pinned.getD slot 0) = coldHeat heat pinned := by
  have hmin : (pinned.map (heatOf heat)).min? = some (heatOf heat (pinned.getD slot 0)) := by
    rw [List.min?_eq_some_iff]
    rw [List.getD_eq_getElem _ _ h.lt]
    refine ⟨List.mem_map_of_mem (List.getElem_mem h.lt), fun b hb => ?_⟩
    obtain ⟨p, hp, rfl⟩ := List.mem_map.mp hb
    obtain ⟨z, hz, rfl⟩ := List.getElem_of_mem hp
    have hbest : heatOf heat (pinned.getD slot 0) ≤ heatOf heat (pinned.getD z 0) :=
      h.best z hz trivial
    rwa [List.getD_eq_getElem _ _ h.lt, List.getD_eq_getElem _ _ hz] at hbest
  rw [coldHeat, hmin]
  rfl

/-- What `pick_swap` comes to: the margin is taken as it has wrapped. -/
inductive Pick (heat : List UInt32) (pinned : List Nat) : Option Swap → Prop
  | stay (h : ∀ e, Outside heat pinned e →
      heatOf heat e ≤ margin (coldHeat heat pinned) % 2 ^ 32) : Pick heat pinned none
  | swap {slot eid : Nat} (cold : Coldest heat pinned slot) (hot : Hottest heat pinned eid)
      (h : margin (coldHeat heat pinned) % 2 ^ 32 < heatOf heat eid) :
      Pick heat pinned (some ⟨slot, eid, (heatOf heat eid : Int) - coldHeat heat pinned⟩)

theorem Pick.unique {r r' : Option Swap} (h : Pick heat pinned r) (h' : Pick heat pinned r') :
    r = r' := by
  cases h with
  | stay hall =>
    cases h' with
    | stay => rfl
    | swap _ hot hover => exact absurd (hall _ ⟨hot.lt, hot.admitted⟩) (Nat.not_le_of_lt hover)
  | swap cold hot hover =>
    cases h' with
    | stay hall => exact absurd (hall _ ⟨hot.lt, hot.admitted⟩) (Nat.not_le_of_lt hover)
    | swap cold' hot' _ => rw [cold.unique cold', hot.unique hot']

/-- The first loop ends, with the coldest slot. -/
theorem coldLoop_coldest (hin : InRange heat pinned) (hne : pinned ≠ []) :
    ∃ slot, coldLoop heat pinned (pinned.length - 1) 1 0 = some slot ∧
      Coldest heat pinned slot := by
  have hlen : 0 < pinned.length := List.length_pos_iff.mpr hne
  have hfirst : FirstBest (fun _ => True) (coldness heat pinned) 1 0 :=
    FirstBest.take trivial fun u hu _ => absurd hu (Nat.not_lt_zero u)
  exact coldLoop_spec hin (pinned.length - 1) (by omega) hfirst

/-- The function does not panic, and what it returns is that answer. -/
theorem pickSwap_pick (hin : InRange heat pinned) (hne : pinned ≠ []) :
    ∃ r, pickSwap heat pinned = some r ∧ Pick heat pinned r := by
  obtain ⟨p, hp⟩ := List.exists_mem_of_ne_nil pinned hne
  obtain ⟨slot, hslot, hcold⟩ := coldLoop_coldest hin hne
  have hseen : Seen heat pinned heat.length (hotLoop pinned heat 0 none 0).2
      (hotLoop pinned heat 0 none 0).1 :=
    hotLoop_spec heat rfl (Nat.zero_le _) ⟨rfl, fun u hu => absurd hu (Nat.not_lt_zero u)⟩
  have hguard : ¬ (pinned.isEmpty = true ∨ heat.length < 1) := by
    rintro (hempty | hshort)
    · exact hne (List.isEmpty_iff.mp hempty)
    · have := hin p hp
      omega
  rw [pickSwap, if_neg hguard, hslot]
  generalize hotLoop pinned heat 0 none 0 = found at hseen
  obtain ⟨hot, fh⟩ := found
  cases hot with
  | none =>
    refine ⟨none, rfl, .stay fun e he => ?_⟩
    rw [hseen.2 e he.1 he.2]
    exact Nat.zero_le _
  | some hot =>
    obtain ⟨hhot, hfh⟩ := hseen
    obtain ⟨fc, hfc, hfcval⟩ := slotHeat_eq hin hcold.lt
    rw [hcold.heat_eq] at hfcval
    have hbar := bar_toNat fc
    rw [hfcval] at hbar
    have hdo : (some slot >>= fun cold => slotHeat heat pinned cold >>= fun fc =>
        if fh ≤ fc + (fc >>> 2) + 4 then some none
        else some (some (⟨cold, hot, (fh.toNat : Int) - fc.toNat⟩ : Swap)))
        = if fh ≤ fc + (fc >>> 2) + 4 then some none
          else some (some ⟨slot, hot, (fh.toNat : Int) - fc.toNat⟩) := by
      rw [Option.bind_eq_bind, Option.bind_some, hfc]
      rfl
    refine ⟨if fh ≤ fc + (fc >>> 2) + 4 then none
      else some ⟨slot, hot, (fh.toNat : Int) - fc.toNat⟩, ?_, ?_⟩
    · refine hdo.trans ?_
      split <;> rfl
    · split
      next hle =>
        refine .stay fun e he => ?_
        rw [← hbar]
        exact Nat.le_trans (hhot.best e he.1 he.2) (hfh ▸ hle)
      next hgt =>
        rw [hfh, hfcval]
        refine .swap hcold hhot ?_
        rw [← hbar, ← hfh]
        exact Nat.lt_of_not_le hgt

theorem pickSwap_iff (hin : InRange heat pinned) (hne : pinned ≠ []) {r : Option Swap} :
    pickSwap heat pinned = some r ↔ Pick heat pinned r := by
  obtain ⟨r', hr', hpick⟩ := pickSwap_pick hin hne
  constructor
  · intro h
    cases hr'.symm.trans h
    exact hpick
  · intro h
    rw [hr', hpick.unique h]

/-! ## After a swap -/

variable {slot old e : Nat}

theorem mem_set_iff {x : Nat} (hslot : slot < pinned.length) :
    x ∈ pinned.set slot e ↔ x = e ∨ ∃ z, z ≠ slot ∧ pinned[z]? = some x := by
  rw [List.mem_iff_getElem?]
  constructor
  · rintro ⟨z, hz⟩
    by_cases heq : z = slot
    · subst heq
      rw [List.getElem?_set_self hslot] at hz
      exact .inl (Option.some.inj hz).symm
    · rw [List.getElem?_set_ne (Ne.symm heq)] at hz
      exact .inr ⟨z, heq, hz⟩
  · rintro (rfl | ⟨z, hne, hz⟩)
    · exact ⟨slot, List.getElem?_set_self hslot⟩
    · exact ⟨z, (List.getElem?_set_ne (Ne.symm hne)).trans hz⟩

theorem InRange.set (hin : InRange heat pinned) (he : e < heat.length) :
    InRange heat (pinned.set slot e) := by
  intro p hp
  rcases List.mem_or_eq_of_mem_set hp with hmem | rfl
  · exact hin p hmem
  · exact he

/-- The slot that was filled is the coldest. -/
theorem coldest_set_iff (hslot : slot < pinned.length) :
    Coldest heat (pinned.set slot e) slot ↔ ∀ z p, pinned[z]? = some p → z ≠ slot →
      heatOf heat e ≤ heatOf heat p ∧ (z < slot → heatOf heat e < heatOf heat p) := by
  have hself : (pinned.set slot e).getD slot 0 = e := by
    rw [List.getD_eq_getElem?_getD, List.getElem?_set_self hslot]
    rfl
  have hother : ∀ {z p : Nat}, z ≠ slot → pinned[z]? = some p →
      (pinned.set slot e).getD z 0 = p := by
    intro z p hne hp
    rw [List.getD_eq_getElem?_getD, List.getElem?_set_ne (Ne.symm hne), hp]
    rfl
  constructor
  · intro h z p hp hne
    have hz : z < (pinned.set slot e).length := by
      rw [List.length_set]
      exact (List.getElem?_eq_some_iff.mp hp).1
    have hbest : heatOf heat ((pinned.set slot e).getD slot 0)
        ≤ heatOf heat ((pinned.set slot e).getD z 0) := h.best z hz trivial
    rw [hself, hother hne hp] at hbest
    refine ⟨hbest, fun hlt => ?_⟩
    have hfirst : heatOf heat ((pinned.set slot e).getD slot 0)
        < heatOf heat ((pinned.set slot e).getD z 0) := h.first z hlt trivial
    rwa [hself, hother hne hp] at hfirst
  · intro h
    have hat : ∀ z < pinned.length, z ≠ slot →
        heatOf heat ((pinned.set slot e).getD slot 0)
          ≤ heatOf heat ((pinned.set slot e).getD z 0) ∧
        (z < slot → heatOf heat ((pinned.set slot e).getD slot 0)
          < heatOf heat ((pinned.set slot e).getD z 0)) := by
      intro z hz hne
      rw [hself, hother hne (List.getElem?_eq_getElem hz)]
      exact h z _ (List.getElem?_eq_getElem hz) hne
    refine ⟨by rwa [List.length_set], trivial, fun z hz _ => ?_, fun z hz _ => ?_⟩
    · rw [List.length_set] at hz
      by_cases heq : z = slot
      · subst heq
        exact le_refl _
      · exact (hat z hz heq).1
    · exact (hat z (Nat.lt_trans hz hslot) (Nat.ne_of_lt hz)).2 hz

/-- The expert that went is the hottest outside. -/
theorem hottest_set_iff (hin : InRange heat pinned) (hold : pinned[slot]? = some old)
    (hgone : old ∉ pinned.set slot e) :
    Hottest heat (pinned.set slot e) old ↔ ∀ x, Outside heat pinned x → x ≠ e →
      heatOf heat x ≤ heatOf heat old ∧ (x < old → heatOf heat x < heatOf heat old) := by
  obtain ⟨hslot, hget⟩ := List.getElem?_eq_some_iff.mp hold
  have hlt : old < heat.length := hin old (hget ▸ List.getElem_mem hslot)
  have hout : ∀ x, x ≠ old → (x ∉ pinned.set slot e ↔ x ∉ pinned ∧ x ≠ e) := by
    intro x hne
    rw [mem_set_iff hslot, not_or, and_comm, List.mem_iff_getElem?]
    refine and_congr_left fun _ => not_congr ⟨fun ⟨z, _, hz⟩ => ⟨z, hz⟩, fun ⟨z, hz⟩ => ?_⟩
    refine ⟨z, ?_, hz⟩
    rintro rfl
    exact hne (Option.some.inj (hz.symm.trans hold))
  constructor
  · intro h x hx hne
    have hxold : x ≠ old := by
      rintro rfl
      exact hx.2 (hget ▸ List.getElem_mem hslot)
    have hxout := (hout x hxold).mpr ⟨hx.2, hne⟩
    exact ⟨h.best x hx.1 hxout, fun hlt => h.first x hlt hxout⟩
  · intro h
    refine ⟨hlt, hgone, fun x hx hxout => ?_, fun x hx hxout => ?_⟩
    · by_cases heq : x = old
      · rw [heq]
      · obtain ⟨hnot, hne⟩ := (hout x heq).mp hxout
        exact (h x ⟨hx, hnot⟩ hne).1
    · obtain ⟨hnot, hne⟩ := (hout x (Nat.ne_of_lt hx)).mp hxout
      exact (h x ⟨Nat.lt_trans hx hlt, hnot⟩ hne).2 hx

/-- The heats that are pinned, before and after. -/
theorem total_set (hold : pinned[slot]? = some old) :
    total heat (pinned.set slot e) + heatOf heat old = total heat pinned + heatOf heat e := by
  unfold total
  induction pinned generalizing slot with
  | nil => cases hold
  | cons p rest ih =>
    cases slot with
    | zero =>
      obtain rfl : p = old := Option.some.inj hold
      rw [List.set_cons_zero, List.map_cons, List.map_cons, List.sum_cons, List.sum_cons]
      omega
    | succ slot =>
      have hrest := ih (show rest[slot]? = some old from hold)
      rw [List.set_cons_succ, List.map_cons, List.map_cons, List.sum_cons, List.sum_cons]
      omega

/-! ## The margin in 32 bits -/

theorem wrapped_lt_iff {c h : Nat} (hc : c < 2 ^ 32) (hh : h < 2 ^ 32) :
    margin c % 2 ^ 32 < h ↔ margin c < h ∨ (2 ^ 32 ≤ margin c ∧ margin c < 2 ^ 32 + h) := by
  unfold margin
  omega

theorem lt_margin (c : Nat) : c < margin c := by
  unfold margin
  omega

/-- Under `WrapsHot` the pick is `e` for the slot, and then the way back. -/
theorem WrapsHot.picks (hin : InRange heat pinned) (h : WrapsHot heat pinned) :
    ∃ slot old e, pinned[slot]? = some old ∧ Coldest heat pinned slot ∧
      Hottest heat pinned e ∧ margin (coldHeat heat pinned) < heatOf heat e ∧
      Pick heat (pinned.set slot e)
        (some ⟨slot, old, (heatOf heat old : Int) - heatOf heat e⟩) := by
  obtain ⟨slot, old, e, hold, he, hover, hwrap, hback, hslots, houts⟩ := h
  obtain ⟨hslot, hget⟩ := List.getElem?_eq_some_iff.mp hold
  have hless : heatOf heat old < heatOf heat e := Nat.lt_trans (lt_margin _) hover
  have hgone : old ∉ pinned.set slot e := by
    rw [mem_set_iff hslot]
    rintro (rfl | ⟨z, hne, hz⟩)
    · exact Nat.lt_irrefl _ hless
    · exact absurd (hslots z old hz hne).1 (Nat.not_le_of_lt hless)
  have hcold : Coldest heat pinned slot := by
    have hself := (coldest_set_iff (e := old) hslot).mpr fun z p hp hne =>
      have := Nat.lt_of_lt_of_le hless (hslots z p hp hne).1
      ⟨Nat.le_of_lt this, fun _ => this⟩
    rwa [← hget, List.set_getElem_self hslot] at hself
  have hhot : Hottest heat pinned e := by
    have hall : ∀ x, Outside heat pinned x → x ≠ e → heatOf heat x < heatOf heat e :=
      fun x hx hne => Nat.lt_of_le_of_lt (houts x hx hne).1 hless
    refine ⟨he.1, he.2, fun x hx hout => ?_, fun x hx hout => ?_⟩
    · by_cases heq : x = e
      · rw [heq]
      · exact Nat.le_of_lt (hall x ⟨hx, hout⟩ heq)
    · exact hall x ⟨Nat.lt_trans hx he.1, hout⟩ (Nat.ne_of_lt hx)
  have hcoldHeat : coldHeat heat pinned = heatOf heat old := by
    rw [← hcold.heat_eq, List.getD_eq_getElem _ _ hslot, hget]
  have hcold' : Coldest heat (pinned.set slot e) slot := (coldest_set_iff hslot).mpr hslots
  have hcoldHeat' : coldHeat heat (pinned.set slot e) = heatOf heat e := by
    rw [← hcold'.heat_eq, List.getD_eq_getElem?_getD, List.getElem?_set_self hslot]
    rfl
  refine ⟨slot, old, e, hold, hcold, hhot, hcoldHeat ▸ hover, ?_⟩
  rw [← hcoldHeat']
  refine .swap hcold' ((hottest_set_iff hin hold hgone).mpr houts) ?_
  rw [hcoldHeat']
  exact (wrapped_lt_iff (heatOf_lt e) (heatOf_lt old)).mpr (.inr ⟨hwrap, hback⟩)

/-- A swap that is taken back is under `WrapsHot`. -/
theorem wrapsHot_of_back {s' : Swap} (hin : InRange heat pinned) (hcold : Coldest heat pinned slot)
    (hhot : Hottest heat pinned e) (hover : margin (coldHeat heat pinned) < heatOf heat e)
    (hpick : Pick heat (pinned.set slot e) (some s')) (hslot' : s'.slot = slot)
    (hold : pinned[slot]? = some s'.eid) : WrapsHot heat pinned := by
  obtain ⟨hslot, hget⟩ := List.getElem?_eq_some_iff.mp hold
  cases hpick with
  | @swap slot' old hcold' hhot' hback =>
    obtain rfl : slot' = slot := hslot'
    dsimp only at hold hget
    have hcoldHeat : coldHeat heat pinned = heatOf heat old := by
      rw [← hcold.heat_eq, List.getD_eq_getElem _ _ hslot, hget]
    have hcoldHeat' : coldHeat heat (pinned.set slot' e) = heatOf heat e := by
      rw [← hcold'.heat_eq, List.getD_eq_getElem?_getD, List.getElem?_set_self hslot]
      rfl
    rw [hcoldHeat] at hover
    rw [hcoldHeat'] at hback
    -- the expert that went is not hotter than the one that came, so the margin has wrapped
    have hwrapped : 2 ^ 32 ≤ margin (heatOf heat e) ∧
        margin (heatOf heat e) < 2 ^ 32 + heatOf heat old := by
      rcases (wrapped_lt_iff (heatOf_lt e) (heatOf_lt old)).mp hback with hlt | hwrapped
      · have hmargin := lt_margin (heatOf heat e)
        have hmargin' := lt_margin (heatOf heat old)
        omega
      · exact hwrapped
    exact ⟨slot', old, e, hold, ⟨hhot.lt, hhot.admitted⟩, hover, hwrapped.1, hwrapped.2,
      (coldest_set_iff hslot).mp hcold',
      (hottest_set_iff hin hold hhot'.admitted).mp hhot'⟩

/-- A swap over the margin is for the better. -/
theorem right_of_over (hcold : Coldest heat pinned slot) (hhot : Hottest heat pinned e)
    (hover : margin (coldHeat heat pinned) < heatOf heat e) :
    Right heat pinned ⟨slot, e, (heatOf heat e : Int) - coldHeat heat pinned⟩ ∧
      total heat pinned ≤ total heat (pinned.set slot e) := by
  have hslot : slot < pinned.length := hcold.lt
  have hold : pinned[slot]? = some pinned[slot] := List.getElem?_eq_getElem hslot
  have hcoldHeat : heatOf heat pinned[slot] = coldHeat heat pinned := by
    rw [← hcold.heat_eq, List.getD_eq_getElem _ _ hslot]
  refine ⟨⟨⟨_, hold, hcoldHeat⟩, ⟨hhot.lt, hhot.admitted⟩,
    fun x hx => hhot.best x hx.1 hx.2, rfl⟩, ?_⟩
  have htotal : total heat (pinned.set slot e) + heatOf heat pinned[slot]
      = total heat pinned + heatOf heat e := total_set hold
  have hmargin := lt_margin (coldHeat heat pinned)
  omega

/-- **When the swap is right**: just when the margin over the coldest slot has not wrapped
below an expert outside, nor the one over the expert that comes below the one that goes. -/
theorem pickSwap_meets_iff (hne : pinned ≠ []) (hin : InRange heat pinned) :
    Meets heat pinned ↔ ¬ WrapsCold heat pinned ∧ ¬ WrapsHot heat pinned := by
  obtain ⟨r, hr, hpick⟩ := pickSwap_pick hin hne
  obtain ⟨cold, -, hcoldest⟩ := coldLoop_coldest hin hne
  have hfc : coldHeat heat pinned < 2 ^ 32 := hcoldest.heat_eq ▸ heatOf_lt _
  cases hpick with
  | stay hall =>
    have hnone : ∀ e, Outside heat pinned e → ¬ (margin (coldHeat heat pinned) < heatOf heat e ∨
        2 ^ 32 ≤ margin (coldHeat heat pinned) ∧
          margin (coldHeat heat pinned) < 2 ^ 32 + heatOf heat e) := by
      intro e he hover
      exact Nat.not_lt_of_le (hall e he) ((wrapped_lt_iff hfc (heatOf_lt e)).mpr hover)
    refine iff_of_true ⟨none, hr, ?_, fun _ hs => by cases hs⟩ ⟨?_, ?_⟩
    · exact iff_of_false (fun h => by cases h) fun ⟨e, he, hover⟩ => hnone e he (.inl hover)
    · rintro ⟨hwrap, e, he, hbelow⟩
      exact hnone e he (.inr ⟨hwrap, hbelow⟩)
    · intro hhot
      obtain ⟨_, _, e, _, _, hhot, hover, _⟩ := hhot.picks hin
      exact hnone e ⟨hhot.lt, hhot.admitted⟩ (.inl hover)
  | @swap slot e hcold hhot hover =>
    have he : Outside heat pinned e := ⟨hhot.lt, hhot.admitted⟩
    rcases (wrapped_lt_iff hfc (heatOf_lt e)).mp hover with hover | hwrap
    · have hin' : InRange heat (pinned.set slot e) := hin.set he.1
      have hne' : pinned.set slot e ≠ [] := fun hnil => by
        have hlen := congrArg List.length hnil
        rw [List.length_set] at hlen
        exact hne (List.length_eq_zero_iff.mp hlen)
      constructor
      · rintro ⟨r', hr', -, hall⟩
        cases hr.symm.trans hr'
        obtain ⟨-, -, hback⟩ := hall _ rfl
        refine ⟨fun ⟨hwrap, _⟩ => ?_, fun hhot' => ?_⟩
        · have := @heatOf_lt heat e
          omega
        · obtain ⟨slot', old, e', hold', hcold', hhot', -, hpick⟩ := hhot'.picks hin
          cases hcold.unique hcold'
          cases hhot.unique hhot'
          exact hback _ ((pickSwap_iff hin' hne').mpr hpick) ⟨rfl, hold'⟩
      · rintro ⟨-, hstays⟩
        refine ⟨_, hr, iff_of_true rfl ⟨e, he, hover⟩, fun s hs => ?_⟩
        cases hs
        obtain ⟨hright, htotal⟩ := right_of_over hcold hhot hover
        refine ⟨hright, htotal, ?_⟩
        rintro s' hs' ⟨hslot', hback⟩
        exact hstays
          (wrapsHot_of_back hin hcold hhot hover ((pickSwap_iff hin' hne').mp hs') hslot' hback)
    · refine iff_of_false ?_ fun h => h.1 ⟨hwrap.1, e, he, hwrap.2⟩
      rintro ⟨r', hr', hsome, -⟩
      cases hr.symm.trans hr'
      obtain ⟨x, -, hx⟩ := hsome.mp rfl
      have := @heatOf_lt heat x
      omega

end

/-- Two experts pinned and the third outside, far below the wrap. -/
theorem pickSwap_meets_three : Meets [10, 200, 500] [0, 1] := by
  refine (pickSwap_meets_iff (by decide) (by decide)).mpr ⟨?_, ?_⟩
  · rintro ⟨hwrap, -⟩
    exact absurd hwrap (by decide)
  · rintro ⟨slot, old, e, -, ⟨he, -⟩, -, hwrap, -⟩
    match e, he with
    | 0, _ => exact absurd hwrap (by decide)
    | 1, _ => exact absurd hwrap (by decide)
    | 2, _ => exact absurd hwrap (by decide)

/-- **A slot given to a colder expert**: the margin over the one pinned has wrapped to what
an expert of a quarter of its heat exceeds. -/
theorem pickSwap_colder :
    pickSwap [4294967295, 1073741827] [0] = some (some ⟨0, 1, -3221225468⟩) ∧
      InRange [4294967295, 1073741827] [0] ∧ ¬ Meets [4294967295, 1073741827] [0] := by
  have hpick : pickSwap [4294967295, 1073741827] [0] = some (some ⟨0, 1, -3221225468⟩) := by
    decide
  refine ⟨hpick, by decide, ?_⟩
  rintro ⟨r, hr, hsome, -⟩
  cases hpick.symm.trans hr
  obtain ⟨e, -, hover⟩ := hsome.mp rfl
  have hcold : coldHeat [4294967295, 1073741827] [0] = 4294967295 := by decide
  have hheat := @heatOf_lt [4294967295, 1073741827] e
  rw [hcold, margin] at hover
  omega

end Colibri.Cache.HotStore
