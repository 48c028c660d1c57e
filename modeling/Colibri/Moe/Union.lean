import Colibri.Lib.Batch
import Colibri.Moe.Rows

/-!
# Tokens regrouped by expert

A batch is routed token by token, and computed expert by expert. In between there are three
layouts: `k` experts and weights for each token; a matrix of weights, a row for each token and
a column for each expert in use; and for each expert the list of its tokens.

This is the first step, whatever the routing: an expert that a token names twice has the weight
that is written last (`unionAndWeights_eq`).

The loop keeps the column of each expert in a table, with a sentinel for none; `Seen` is the
invariant between the table and the list of experts in use, and `writeToken_eq` a token's part of
the loop.
-/

namespace Colibri.Moe.Cpu

open Colibri.Cluster Batch

/-! ## The union and the weights -/

section

variable {α : Type} [Zero α]

/-- The first loop: `seen` has the column of an expert, `None` for `usize::MAX`; `none` is an
expert out of its range. -/
def collect : List Nat → List (Option Nat) → List Nat → Option (List (Option Nat) × List Nat)
  | [], seen, uniq => some (seen, uniq)
  | e :: idxs, seen, uniq =>
    match seen[e]? with
    | none => none
    | some (some _) => collect idxs seen uniq
    | some none => collect idxs (seen.set e (some uniq.length)) (uniq ++ [e])

/-- One entry of the routing, written into the matrix. -/
def writeEntry (seen : List (Option Nat)) (nUniq s : Nat) (wMat : List α) (p : Nat × α) :
    Option (List α) :=
  match seen[p.1]? with
  | some (some col) =>
    if s * nUniq + col < wMat.length then some (wMat.set (s * nUniq + col) p.2) else none
  | _ => none

/-- A token's entries. -/
def writeToken (idxs : List Nat) (ws : List α) (k : Nat) (seen : List (Option Nat)) (nUniq : Nat)
    (wMat : List α) (s : Nat) : Option (List α) :=
  ((rowOf k idxs s).zip (rowOf k ws s)).foldlM (writeEntry seen nUniq s) wMat

/-- `union_and_weights`, over routings of `k` entries a token. -/
def unionAndWeights (idxs : List Nat) (ws : List α) (sLen k eN : Nat) :
    Option (List Nat × List α) :=
  (collect idxs (List.replicate eN none) []).bind fun p =>
    ((List.range sLen).foldlM (writeToken idxs ws k p.1 p.2.length)
      (List.replicate (sLen * p.2.length) 0)).map fun wMat => (p.2, wMat)

/-- What `seen` says of the experts collected. -/
structure Seen (eN : Nat) (seen : List (Option Nat)) (uniq : List Nat) : Prop where
  length : seen.length = eN
  lt : ∀ e ∈ uniq, e < eN
  col : ∀ e < eN, seen.getD e none = if e ∈ uniq then some (uniq.idxOf e) else none

theorem seen_start (eN : Nat) : Seen eN (List.replicate eN none) [] where
  length := List.length_replicate
  lt := fun e he => nomatch he
  col := by
    intro e he
    rw [List.getD_eq_getElem?_getD, List.getElem?_replicate, if_pos he]
    rfl

variable {eN k : Nat} {seen : List (Option Nat)} {uniq idxs : List Nat} {ws : List α}

/-- A new expert gets the next column. -/
theorem Seen.push {e : Nat}
    (h : Seen eN seen uniq) (he : e < eN) (hnew : e ∉ uniq) :
    Seen eN (seen.set e (some uniq.length)) (uniq ++ [e]) where
  length := by rw [List.length_set, h.length]
  lt := by
    intro x hx
    rcases List.mem_append.mp hx with hx | hx
    · exact h.lt x hx
    · rw [List.mem_singleton.mp hx]
      exact he
  col := by
    intro x hx
    rw [List.getD_eq_getElem?_getD]
    by_cases hxe : e = x
    · subst hxe
      rw [List.getElem?_set_self (by rw [h.length]; exact he), if_pos (by simp),
        List.idxOf_append_of_notMem hnew, List.idxOf_cons_self, Nat.add_zero]
      rfl
    · rw [List.getElem?_set_ne hxe, ← List.getD_eq_getElem?_getD, h.col x hx]
      by_cases hmem : x ∈ uniq
      · rw [if_pos hmem, if_pos (List.mem_append_left _ hmem), List.idxOf_append_of_mem hmem]
      · have hnot : x ∉ uniq ++ [e] := by
          simp [hmem, Ne.symm hxe]
        rw [if_neg hmem, if_neg hnot]

/-- The experts in use, each once, in order of first use. -/
theorem collect_eq (hlt : ∀ e ∈ idxs, e < eN)
    (h : Seen eN seen uniq) :
    ∃ seen', collect idxs seen uniq =
        some (seen', idxs.foldl (fun uniq e => if e ∈ uniq then uniq else uniq ++ [e]) uniq) ∧
      Seen eN seen'
        (idxs.foldl (fun uniq e => if e ∈ uniq then uniq else uniq ++ [e]) uniq) := by
  induction idxs generalizing seen uniq with
  | nil => exact ⟨seen, rfl, h⟩
  | cons e idxs ih =>
    have he := hlt e (List.mem_cons_self ..)
    have hrest := fun x hx => hlt x (List.mem_cons_of_mem _ hx)
    have hget : seen[e]? = some (seen.getD e none) := by
      rw [List.getD_eq_getElem?_getD, List.getElem?_eq_getElem (by rw [h.length]; exact he)]
      rfl
    rw [collect, hget, h.col e he, List.foldl_cons]
    by_cases hmem : e ∈ uniq
    · rw [if_pos hmem, if_pos hmem]
      exact ih hrest h
    · rw [if_neg hmem, if_neg hmem]
      exact ih hrest (h.push he hmem)

omit [Zero α] in
/-- An entry is a write to its token's row. -/
theorem writeEntry_eq {s : Nat}
    (h : Seen eN seen uniq) {before row after : List α} (hb : before.length = s * uniq.length)
    (hr : row.length = uniq.length) {p : Nat × α} (hp : p.1 ∈ uniq) :
    writeEntry seen uniq.length s (before ++ (row ++ after)) p =
      some (before ++ (row.set (uniq.idxOf p.1) p.2 ++ after)) := by
  have he := h.lt _ hp
  have hidx := List.idxOf_lt_length_of_mem hp
  have hget : seen[p.1]? = some (some (uniq.idxOf p.1)) := by
    have hcol := h.col p.1 he
    rw [if_pos hp, List.getD_eq_getElem?_getD,
      List.getElem?_eq_getElem (by rw [h.length]; exact he)] at hcol
    rw [List.getElem?_eq_getElem (by rw [h.length]; exact he)]
    exact congrArg some hcol
  have hlen : s * uniq.length + uniq.idxOf p.1 < (before ++ (row ++ after)).length := by
    rw [List.length_append, List.length_append, hb, hr]
    omega
  unfold writeEntry
  rw [hget]
  dsimp only
  rw [if_pos hlen, ← hb, List.set_append_right _ _ (Nat.le_add_right _ _), Nat.add_sub_cancel_left,
    List.set_append_left _ _ (by rw [hr]; exact hidx)]

/-- **A token** fills its row of the matrix, and adds the experts that are new. -/
theorem writeToken_eq {s : Nat}
    (h : Seen eN seen uniq) {before after : List α}
    (hb : before.length = s * uniq.length) (hmem : ∀ e ∈ rowOf k idxs s, e ∈ uniq) :
    writeToken idxs ws k seen uniq.length (before ++ (List.replicate uniq.length 0 ++ after)) s =
      some (before ++ (weightRow uniq (rowOf k idxs s, rowOf k ws s) ++ after)) := by
  unfold writeToken weightRow
  dsimp only
  have hmem' : ∀ p ∈ (rowOf k idxs s).zip (rowOf k ws s), p.1 ∈ uniq := fun p hp =>
    hmem _ (List.of_mem_zip hp).1
  have hlen : (List.replicate uniq.length (0 : α)).length = uniq.length := List.length_replicate
  generalize (rowOf k idxs s).zip (rowOf k ws s) = ps at hmem'
  generalize List.replicate uniq.length (0 : α) = row at hlen
  induction ps generalizing row with
  | nil => rfl
  | cons p ps ih =>
    rw [List.foldlM_cons, writeEntry_eq h hb hlen (hmem' p (List.mem_cons_self ..)),
      List.foldl_cons]
    exact ih (fun q hq => hmem' q (List.mem_cons_of_mem _ hq)) _ (by rw [List.length_set, hlen])

/-- The routing of a batch, token by token. -/
def routingOf (idxs : List Nat) (ws : List α) (k sLen : Nat) : List (List Nat × List α) :=
  (List.range sLen).map fun s => (rowOf k idxs s, rowOf k ws s)

omit [Zero α] in
/-- The rows of a buffer are the buffer. -/
theorem flatMap_rowOf {β : Type} {x : List β} {n : Nat} (h : x.length = n * k) :
    (List.range n).flatMap (rowOf k x) = x := by
  induction n generalizing x with
  | zero =>
    rw [Nat.zero_mul] at h
    rw [List.eq_nil_of_length_eq_zero h]
    rfl
  | succ n ih =>
    rw [Nat.succ_mul] at h
    have hshift : ∀ r, rowOf k x (r + 1) = rowOf k (x.drop k) r := by
      intro r
      rw [rowOf, rowOf, List.drop_drop, Nat.succ_mul, Nat.add_comm]
    have hdrop : (x.drop k).length = n * k := by
      rw [List.length_drop]
      omega
    rw [List.range_succ_eq_map, List.flatMap_cons, List.flatMap_map]
    simp only [hshift]
    rw [ih hdrop, rowOf, Nat.zero_mul, List.drop_zero, List.take_append_drop]

omit [Zero α] in
theorem mem_uniq {sLen s : Nat} (hs : s < sLen) {e : Nat}
    (he : e ∈ rowOf k idxs s) : e ∈ uniqOf ((routingOf idxs ws k sLen).flatMap Prod.fst) := by
  have hmem : (rowOf k idxs s, rowOf k ws s) ∈ routingOf idxs ws k sLen :=
    List.mem_map.mpr ⟨s, List.mem_range.mpr hs, rfl⟩
  exact mem_uniqOf.mpr (List.mem_flatMap.mpr ⟨_, hmem, he⟩)

/-- The tokens so far, and zeros for the rest. -/
theorem writeTokens_eq {sLen : Nat}
    (h : Seen eN seen uniq)
    (hmem : ∀ s < sLen, ∀ e ∈ rowOf k idxs s, e ∈ uniq) {m : Nat} (hm : m ≤ sLen) :
    (List.range m).foldlM (writeToken idxs ws k seen uniq.length)
        (List.replicate (sLen * uniq.length) 0) =
      some ((routingOf idxs ws k m).flatMap (weightRow uniq) ++
        List.replicate ((sLen - m) * uniq.length) 0) := by
  induction m with
  | zero => rfl
  | succ m ih =>
    have hlen : ((routingOf idxs ws k m).flatMap (weightRow uniq)).length = m * uniq.length := by
      rw [length_flatMap_rows fun r _ => weightRow_length uniq r, routingOf, List.length_map,
        List.length_range]
    have hrest : (sLen - m) * uniq.length = uniq.length + (sLen - (m + 1)) * uniq.length := by
      rw [show sLen - m = sLen - (m + 1) + 1 by omega, Nat.succ_mul, Nat.add_comm]
    rw [List.range_succ, List.foldlM_append, ih (Nat.le_of_succ_le hm), hrest,
      ← List.replicate_append_replicate]
    have hstep : writeToken idxs ws k seen uniq.length
        ((routingOf idxs ws k m).flatMap (weightRow uniq) ++ (List.replicate uniq.length 0 ++
          List.replicate ((sLen - (m + 1)) * uniq.length) 0)) m =
        some ((routingOf idxs ws k m).flatMap (weightRow uniq) ++
          (weightRow uniq (rowOf k idxs m, rowOf k ws m) ++
            List.replicate ((sLen - (m + 1)) * uniq.length) 0)) :=
      writeToken_eq h hlen (hmem m hm)
    have hroute : routingOf idxs ws k (m + 1) =
        routingOf idxs ws k m ++ [(rowOf k idxs m, rowOf k ws m)] := by
      rw [routingOf, List.range_succ, List.map_append]
      rfl
    rw [hroute, List.flatMap_append, List.flatMap_singleton, List.append_assoc, Option.bind_eq_bind,
      Option.bind_some, List.foldlM_cons, hstep]
    rfl

/-- **The matrix has each token's row**, the last weight written for each expert. -/
theorem unionAndWeights_eq {sLen : Nat}
    (hi : idxs.length = sLen * k) (hlt : ∀ e ∈ idxs, e < eN) :
    unionAndWeights idxs ws sLen k eN = some (Moe.unionAndWeights (routingOf idxs ws k sLen)) := by
  have hflat : (routingOf idxs ws k sLen).flatMap Prod.fst = idxs := by
    rw [routingOf, List.flatMap_map]
    exact flatMap_rowOf hi
  obtain ⟨seen, hcollect, hseen⟩ := collect_eq hlt (seen_start eN)
  have huniq : idxs.foldl (fun uniq e => if e ∈ uniq then uniq else uniq ++ [e]) [] =
      uniqOf ((routingOf idxs ws k sLen).flatMap Prod.fst) := by
    rw [hflat]
    rfl
  rw [huniq] at hcollect hseen
  unfold unionAndWeights
  rw [hcollect, Option.bind_some,
    writeTokens_eq hseen (fun s hs e he => mem_uniq hs he) (Nat.le_refl sLen), Nat.sub_self,
    Nat.zero_mul, List.replicate_zero, List.append_nil]
  rfl

end

end Colibri.Moe.Cpu
