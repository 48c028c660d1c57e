import Colibri.Config
import Colibri.Safetensors.Open

/-!
# The manifest of repacked experts

Repacking puts the routed experts into a few shard files and writes down where each of them
went: `Manifest::save` formats a JSON text of arrays of numbers, `Manifest::load` takes one
apart with the JSON parser. The text is always read as what it was written from
(`load_text`), up to what becomes of its numbers: each goes through an `f64`. A manifest whose
numbers all survive that comes back as it was (`Manifest.Faithful.reread`).

`reread` is what becomes of a number and `Exact` says that it survives; `Manifest.Faithful` asks
that of all numbers, and that the format of a layer is in range of an `i32`.
-/

namespace Colibri.Preload

open Batch JsonValue Safetensors

/-- Where an expert's blob is. -/
structure ExpertLoc where
  layer : Nat
  eid : Nat
  file : Nat
  offset : Nat
  deriving DecidableEq, Repr

structure Manifest where
  numFiles : Nat
  hidden : Nat
  moeInter : Nat
  /-- for each layer: its number, the format, and the bytes of an expert's blob -/
  layers : List (Nat × Int × Nat)
  experts : List ExpertLoc
  deriving DecidableEq, Repr

inductive PreloadError where
  /-- there is no such file -/
  | noFile
  /-- "failed to fill whole buffer" -/
  | unexpectedEof
  /-- "stream did not contain valid UTF-8" -/
  | notUtf8
  /-- "empty manifest" -/
  | emptyManifest
  /-- "expert ({layer},{eid}) not preloaded" -/
  | notPreloaded (layer eid : Nat)
  /-- the provider's -/
  | provider (message : List Char)
  deriving DecidableEq

/-! ## Writing -/

/-- The rows of an array, each an array of numbers. -/
def rowsFrom (first : Bool) : List (List Int) → List Char
  | [] => []
  | r :: rs => (if first then [] else [',']) ++ '[' :: (shapeText r ++ ']' :: rowsFrom false rs)

def layerRow (l : Nat × Int × Nat) : List Int := [l.1, l.2.1, l.2.2]

def expertRow (e : ExpertLoc) : List Int := [e.layer, e.eid, e.file, e.offset]

/-- A member whose value is text already. -/
def member (key : String) (val rest : List Char) : List Char :=
  '"' :: (key.toList ++ '"' :: ':' :: (val ++ rest))

def rowsText (rows : List (List Int)) : List Char := '[' :: (rowsFrom true rows ++ [']'])

/-- What `save` writes. -/
def Manifest.text (m : Manifest) : List Char :=
  '{' :: member "num_files" (intText m.numFiles) (',' ::
    member "hidden" (intText m.hidden) (',' ::
      member "moe_inter" (intText m.moeInter) (',' ::
        member "layers" (rowsText (m.layers.map layerRow)) (',' ::
          member "experts" (rowsText (m.experts.map expertRow)) ['}']))))

/-! ## Reading -/

/-- `num` of `load` -/
def num (j : JsonValue) (k : String) : Int := ((get k.toList j).bind asI64).getD 0

/-- The arrays in the array of a key; what is no array is passed over. -/
def rows (j : JsonValue) (k : String) : List (List JsonValue) :=
  (((get k.toList j).bind asArray).getD []).filterMap asArray

/-- `e[k].as_i64().unwrap_or(0)` -/
def cell (e : List JsonValue) (k : Nat) : Outcome PreloadError Int :=
  match e[k]? with
  | some v => .ok ((asI64 v).getD 0)
  | none => .panic

def layerOf (e : List JsonValue) : Outcome PreloadError (Nat × Int × Nat) := do
  return (asUsize (← cell e 0), asI32 (← cell e 1), asU64 (← cell e 2))

def locOf (e : List JsonValue) : Outcome PreloadError ExpertLoc := do
  return ⟨asUsize (← cell e 0), asUsize (← cell e 1), asUsize (← cell e 2), asU64 (← cell e 3)⟩

/-- `Manifest::load`, from the text of the file. -/
def Manifest.load (text : List Char) : Outcome PreloadError Manifest :=
  match parse text with
  | none => .error .emptyManifest
  | some j => do
    let layers ← (rows j "layers").mapM layerOf
    let experts ← (rows j "experts").mapM locOf
    return ⟨asUsize (num j "num_files"), asUsize (num j "hidden"), asUsize (num j "moe_inter"),
      layers, experts⟩

/-! ## The text is read as it is written -/

/-- A row as the parser has it. -/
def rowValue (r : List Int) : JsonValue := .arr (r.map fun d => .num (.ofInt d))

/-- The rows, up to the bracket that ends them. -/
theorem elements_rowsFrom {rs : List (List Int)} (hne : rs ≠ []) (s : List Char) :
    elements (rowsFrom true rs ++ ']' :: s) = (rs.map rowValue, s) := by
  induction rs with
  | nil => exact absurd rfl hne
  | cons r rs ih =>
    have hhead : rowsFrom true (r :: rs) ++ ']' :: s
        = '[' :: (shapeText r ++ ']' :: (rowsFrom false rs ++ ']' :: s)) := by
      simp [rowsFrom]
    rw [hhead, elements_eq, value_shapeText]
    cases rs with
    | nil =>
      simp only [rowsFrom, List.nil_append, ws_cons (show isWs ']' = false from rfl)]
      rfl
    | cons r' rs =>
      have hrest : rowsFrom false (r' :: rs) = ',' :: rowsFrom true (r' :: rs) := rfl
      simp only [hrest, List.cons_append, ws_cons (show isWs ',' = false from rfl),
        ih (List.cons_ne_nil _ _)]
      rfl

theorem value_rowsText (rs : List (List Int)) (s : List Char) :
    value (rowsText rs ++ s) = (.arr (rs.map rowValue), s) := by
  have hcut : rowsText rs ++ s = '[' :: (rowsFrom true rs ++ ']' :: s) := by simp [rowsText]
  rw [hcut]
  cases rs with
  | nil => exact value_arr_nil (ws_cons rfl _) (ws_cons rfl _)
  | cons r rs =>
    have hws : ws (rowsFrom true (r :: rs) ++ ']' :: s) = rowsFrom true (r :: rs) ++ ']' :: s := by
      simp only [rowsFrom, if_true, List.nil_append, List.cons_append]
      exact ws_cons rfl _
    rw [value_arr (ws_cons rfl _) ?_, hws, elements_rowsFrom (List.cons_ne_nil r rs)]
    intro u hu
    rw [hws] at hu
    simp only [rowsFrom, if_true, List.nil_append, List.cons_append] at hu
    cases hu

/-- What the parser makes of a manifest. -/
def Manifest.value (m : Manifest) : JsonValue :=
  .obj [("num_files".toList, .num (.ofInt m.numFiles)), ("hidden".toList, .num (.ofInt m.hidden)),
    ("moe_inter".toList, .num (.ofInt m.moeInter)),
    ("layers".toList, .arr ((m.layers.map layerRow).map rowValue)),
    ("experts".toList, .arr ((m.experts.map expertRow).map rowValue))]

/-- The text of a manifest is read as its value. -/
theorem value_text (m : Manifest) : (JsonValue.value m.text).1 = m.value := by
  have hexperts := members_last (show Plain "experts".toList by decide)
    (value_rowsText (m.experts.map expertRow) ['}'])
  have hlayers := members_more (show Plain "layers".toList by decide)
    (value_rowsText (m.layers.map layerRow)
      (',' :: member "experts" (rowsText (m.experts.map expertRow)) ['}']))
  have hmoe := members_more (show Plain "moe_inter".toList by decide)
    (value_intText m.moeInter (.inl rfl)
      (member "layers" (rowsText (m.layers.map layerRow))
        (',' :: member "experts" (rowsText (m.experts.map expertRow)) ['}'])))
  have hhidden := members_more (show Plain "hidden".toList by decide)
    (value_intText m.hidden (.inl rfl)
      (member "moe_inter" (intText m.moeInter) (',' ::
        member "layers" (rowsText (m.layers.map layerRow))
          (',' :: member "experts" (rowsText (m.experts.map expertRow)) ['}']))))
  have hfiles := members_more (show Plain "num_files".toList by decide)
    (value_intText m.numFiles (.inl rfl)
      (member "hidden" (intText m.hidden) (',' ::
        member "moe_inter" (intText m.moeInter) (',' ::
          member "layers" (rowsText (m.layers.map layerRow))
            (',' :: member "experts" (rowsText (m.experts.map expertRow)) ['}'])))))
  unfold member at hlayers hmoe hhidden hfiles
  rw [hhidden, hmoe, hlayers, hexperts] at hfiles
  unfold Manifest.text member
  rw [value_members hfiles]
  rfl

/-- A number that has been through the text. -/
def reread (i : Int) : Int := (Decimal.ofInt i).asI64

def ExpertLoc.reread (e : ExpertLoc) : ExpertLoc :=
  ⟨asUsize (Preload.reread e.layer), asUsize (Preload.reread e.eid),
    asUsize (Preload.reread e.file), asU64 (Preload.reread e.offset)⟩

def rereadLayer (l : Nat × Int × Nat) : Nat × Int × Nat :=
  (asUsize (reread l.1), asI32 (reread l.2.1), asU64 (reread l.2.2))

def Manifest.reread (m : Manifest) : Manifest where
  numFiles := asUsize (Preload.reread m.numFiles)
  hidden := asUsize (Preload.reread m.hidden)
  moeInter := asUsize (Preload.reread m.moeInter)
  layers := m.layers.map rereadLayer
  experts := m.experts.map ExpertLoc.reread

theorem filterMap_rowValue (rs : List (List Int)) :
    (rs.map rowValue).filterMap asArray = rs.map fun r => r.map fun d => .num (.ofInt d) := by
  rw [List.filterMap_map, ← List.filterMap_eq_map]
  rfl

/-- **What is loaded is what was saved**, each number as it is read. -/
theorem load_text (m : Manifest) : Manifest.load m.text = .ok m.reread := by
  have hparse : parse m.text = some m.value := by
    rw [parse_eq (show m.text ≠ [] from List.cons_ne_nil _ _), value_text]
  have hlayers : (rows m.value "layers").mapM layerOf = .ok (m.layers.map rereadLayer) := by
    have hrows : rows m.value "layers" =
        m.layers.map fun l => (layerRow l).map fun d => .num (.ofInt d) := by
      show ((m.layers.map layerRow).map rowValue).filterMap asArray = _
      rw [filterMap_rowValue, List.map_map]
      rfl
    rw [hrows, List.mapM_map]
    exact mapM_of_ok fun l _ => rfl
  have hexperts : (rows m.value "experts").mapM locOf
      = .ok (m.experts.map ExpertLoc.reread) := by
    have hrows : rows m.value "experts" =
        m.experts.map fun e => (expertRow e).map fun d => .num (.ofInt d) := by
      show ((m.experts.map expertRow).map rowValue).filterMap asArray = _
      rw [filterMap_rowValue, List.map_map]
      rfl
    rw [hrows, List.mapM_map]
    exact mapM_of_ok fun e _ => rfl
  unfold Manifest.load
  rw [hparse]
  dsimp only
  rw [hlayers, hexperts]
  rfl

/-! ## Manifests that come back as they were -/

theorem lt_of_exact {i : Int} (h : Exact i) : i < 2 ^ 63 := by
  have hread : (Decimal.ofInt i).asI64 = i := h
  rw [← hread]
  unfold Decimal.asI64 saturate
  split <;> omega

theorem exact_of_le {n : Nat} (h : n ≤ 2 ^ 53) : Exact n := asI64_ofInt_of_le h

theorem asUsize_reread {n : Nat} (h : Exact n) : asUsize (reread n) = n := by
  have hread : reread n = n := h
  have hlt := lt_of_exact h
  rw [hread, asUsize_of_nonneg (Int.natCast_nonneg n) (by omega), Int.toNat_natCast]

theorem asU64_reread {n : Nat} (h : Exact n) : asU64 (reread n) = n := asUsize_reread h

theorem asI32_reread {i : Int} (h : Exact i) (hge : -2 ^ 31 ≤ i) (hlt : i < 2 ^ 31) :
    asI32 (reread i) = i := by
  have hread : reread i = i := h
  rw [hread, asI32_of_range (by omega) (by omega)]

/-- Every number of the manifest is given back as it is. -/
structure Manifest.Faithful (m : Manifest) : Prop where
  numFiles : Exact m.numFiles
  hidden : Exact m.hidden
  moeInter : Exact m.moeInter
  layers : ∀ l ∈ m.layers, Exact l.1 ∧ (Exact l.2.1 ∧ -2 ^ 31 ≤ l.2.1 ∧ l.2.1 < 2 ^ 31) ∧
    Exact l.2.2
  experts : ∀ e ∈ m.experts, Exact e.layer ∧ Exact e.eid ∧ Exact e.file ∧ Exact e.offset

/-- **A manifest whose numbers survive comes back.** -/
theorem Manifest.Faithful.reread {m : Manifest} (h : m.Faithful) : m.reread = m := by
  have hlayers : m.layers.map rereadLayer = m.layers := by
    rw [← List.map_id' m.layers, List.map_map]
    refine List.map_congr_left fun l hl => ?_
    obtain ⟨hlayer, ⟨hfmt, hge, hlt⟩, hbytes⟩ := h.layers l hl
    exact Prod.ext (asUsize_reread hlayer)
      (Prod.ext (asI32_reread hfmt hge hlt) (asU64_reread hbytes))
  have hexperts : m.experts.map ExpertLoc.reread = m.experts := by
    rw [← List.map_id' m.experts, List.map_map]
    refine List.map_congr_left fun e he => ?_
    obtain ⟨hlayer, heid, hfile, hoffset⟩ := h.experts e he
    show ExpertLoc.reread e = e
    unfold ExpertLoc.reread
    rw [asUsize_reread hlayer, asUsize_reread heid, asUsize_reread hfile, asU64_reread hoffset]
  unfold Manifest.reread
  rw [asUsize_reread h.numFiles, asUsize_reread h.hidden, asUsize_reread h.moeInter, hlayers,
    hexperts]

end Colibri.Preload
