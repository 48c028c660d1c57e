import Colibri.Convert.Classify
import Colibri.Convert.Snapshot
import Colibri.Serve.Respond

/-!
# The names of a DeepSeek-V4 container

`deepseek_v4_container_name` gives every tensor the name that the loader looks for, and the
stages of the draft head the layers above the main stack. What has no name is dropped, and
so is a layer from the ceiling on. The ceiling counts the stages that the options have; the
conversion counts those of the checkpoint first (`ConvertOpts.probe`).

`v4Name_probed` says what is kept then: every stage, at its own layer, and of the layers
those below the ceiling. The layers and the stages together are taken to fit a `usize`.

* `container_cases`: a tensor that has a name is a stage's, one of the whole model, or one of a
  layer.
* `layerIdx_container`: the layer that its new name says is the one of the old name, or that of the
  stage above the stack.
* `v4Name_isSome_iff` is the ceiling, and `v4Name_probed` the result for the whole snapshot.
-/

namespace Colibri.ContainerNames

open Batch Safetensors Snapshot
open Colibri.Convert (layerIdx parseI64)
open Serve (number_toDigits toDigits_isDigit)

/-! ## The names -/

/-- `str::replace`; of an occurrence, `n` more characters are left out. -/
def replaceFrom (part new : List Char) : Nat → List Char → List Char
  | _, [] => []
  | n + 1, _ :: rest => replaceFrom part new n rest
  | 0, c :: rest =>
    if part.isPrefixOf (c :: rest) then new ++ replaceFrom part new (part.length - 1) rest
    else c :: replaceFrom part new 0 rest

def replace (name : List Char) (rule : String × String) : List Char :=
  replaceFrom rule.1.toList rule.2.toList 0 name

def v4Tail (tail : List Char) : List Char :=
  [("attn.wq_a.", "self_attn.q_a_proj."),
    ("attn.wq_b.", "self_attn.q_b_proj."),
    ("attn.wkv.", "self_attn.kv_a_proj."),
    ("attn.wo_a.", "self_attn.o_a_proj."),
    ("attn.wo_b.", "self_attn.o_b_proj."),
    ("attn.q_norm.", "self_attn.q_a_layernorm."),
    ("attn.kv_norm.", "self_attn.kv_a_layernorm."),
    ("attn.attn_sink", "self_attn.attn_sink"),
    ("attn.compressor.", "self_attn.compressor."),
    ("attn.indexer.", "self_attn.indexer."),
    ("attn_norm.", "input_layernorm."),
    ("ffn_norm.", "post_attention_layernorm."),
    ("ffn.experts.", "mlp.experts."),
    ("ffn.shared_experts.", "mlp.shared_experts."),
    ("ffn.gate.", "mlp.gate."),
    (".w1.", ".gate_proj."),
    (".w3.", ".up_proj."),
    (".w2.", ".down_proj.")].foldl replace tail

example : v4Tail "ffn.experts.12.w1.weight".toList =
    "mlp.experts.12.gate_proj.weight".toList := by decide

/-- The name of what belongs to a layer. -/
def layerName (layer tail : List Char) : List Char :=
  "model.layers.".toList ++ layer ++ '.' :: v4Tail tail

/-- `str::parse::<u32>` -/
def parseU32 (s : List Char) : Option Nat := (Serve.number s).filter (· < 2 ^ 32)

def deepseekV4ContainerName (name : List Char) (nLayers : Nat) : Option (List Char) :=
  match "mtp.".toList.isPrefixOf? name with
  | some rest => do
    let (stage, tail) ← Serve.splitOnce '.' rest
    let stage ← Serve.parseUsize stage
    return layerName (Serve.digits ((nLayers + stage) % 2 ^ 64)) tail
  | none =>
    if name = "embed.weight".toList then some "model.embed_tokens.weight".toList
    else if name = "head.weight".toList then some "lm_head.weight".toList
    else if name = "norm.weight".toList then some "model.norm.weight".toList
    else
      match "hc_head_".toList.isPrefixOf? name with
      | some rest => some ("model.hc_head_".toList ++ rest)
      | none => do
        let rest ← "layers.".toList.isPrefixOf? name
        let (layer, tail) ← Serve.splitOnce '.' rest
        let _ ← parseU32 layer
        return layerName layer tail

/-- `process_one`: the name of a tensor, or that it is skipped. -/
def v4Name (opts : ConvertOpts) (nLayers : Nat) (name : List Char) : Option (List Char) :=
  (deepseekV4ContainerName name nLayers).filter fun n =>
    layerIdx n < 0 ∨ (layerIdx n).toNat < nLayers + opts.mtpLayers

/-- The layer of a tensor of the main stack. -/
def layerOf (name : List Char) : Option Nat := do
  let rest ← "layers.".toList.isPrefixOf? name
  let (layer, _) ← Serve.splitOnce '.' rest
  parseU32 layer

/-! ## Fields between dots -/

theorem splitOn_field {w : List Char} (hw : '.' ∉ w) (rest : List Char) :
    (w ++ '.' :: rest).splitOn '.' = w :: rest.splitOn '.' := by
  rw [List.splitOn_eq_splitOnP, List.splitOn_eq_splitOnP]
  refine List.splitOnP_append_cons_of_forall_mem (p := fun c => c == '.') (fun c hc => ?_) '.'
    (beq_self_eq_true '.') rest
  exact beq_eq_false_iff_ne.mpr fun h => hw (h ▸ hc)

theorem layerIdx_layerName {layer : List Char} (hdot : '.' ∉ layer) (tail : List Char) :
    layerIdx (layerName layer tail) = (parseI64 layer).getD (-1) := by
  unfold layerName
  generalize v4Tail tail = tail
  have hfields : "model.layers.".toList ++ layer ++ '.' :: tail =
      "model".toList ++ '.' :: ("layers".toList ++ '.' :: (layer ++ '.' :: tail)) :=
    List.append_assoc _ _ _
  unfold layerIdx
  rw [hfields, splitOn_field (by decide), splitOn_field (by decide), splitOn_field hdot]
  exact if_pos ⟨rfl, rfl⟩

theorem layerIdx_hcHead (rest : List Char) :
    layerIdx ("model.hc_head_".toList ++ rest) = -1 := by
  have hfields : "model.hc_head_".toList ++ rest =
      "model".toList ++ '.' :: 'h' :: ("c_head_".toList ++ rest) := rfl
  unfold layerIdx
  rw [hfields, splitOn_field (by decide), List.splitOn_eq_splitOnP,
    List.splitOnP_cons_eq_if_modifyHead, if_neg (by decide)]
  -- the second field begins with the `h`
  cases List.splitOnP (fun c => c == '.') ("c_head_".toList ++ rest) with
  | nil => rfl
  | cons w ws =>
    cases ws with
    | nil => rfl
    | cons _ _ =>
      refine if_neg fun h => ?_
      have hhead : some 'h' = some 'l' := congrArg List.head? h.2
      exact absurd hhead (by decide)

theorem not_mem_of_splitOnce {d : Char} {s l r : List Char} (h : Serve.splitOnce d s = some (l, r)) :
    d ∉ l := by
  induction s generalizing l with
  | nil => cases h
  | cons c s ih =>
    unfold Serve.splitOnce at h
    split at h
    next =>
      cases h
      exact List.not_mem_nil
    next hne =>
      obtain ⟨⟨l', r'⟩, hsplit, heq⟩ := Option.map_eq_some_iff.mp h
      cases heq
      intro hmem
      rcases List.mem_cons.mp hmem with rfl | hmem
      · exact hne rfl
      · exact ih hsplit hmem

/-! ## Numbers -/

theorem digits_eq {ds : List Char} (hne : ds ≠ []) (hds : ds.all Char.isDigit = true) :
    Convert.digits ds = some (ds.foldl (fun n d => n * 10 + (d.toNat - '0'.toNat)) 0) := by
  unfold Convert.digits
  rw [if_neg]
  · simp only [Nat.mul_comm 10]
  · rw [hds, List.isEmpty_eq_false_iff.mpr hne]
    decide

/-- What `number` reads, with or without a plus. -/
theorem number_some {s : List Char} {n : Nat} (h : Serve.number s = some n) :
    ∃ ds, (s = '+' :: ds ∨ s = ds) ∧ ds ≠ [] ∧ ds.all Char.isDigit = true ∧
      Convert.digits ds = some n := by
  have hread : ∀ ds : List Char, (if ds = [] then none
      else if ds.all Char.isDigit then
        some (ds.foldl (fun n d => n * 10 + (d.toNat - '0'.toNat)) 0)
      else none) = some n →
      ds ≠ [] ∧ ds.all Char.isDigit = true ∧ Convert.digits ds = some n := by
    intro ds hds
    split at hds
    next => cases hds
    next hne =>
      split at hds
      next hall => exact ⟨hne, hall, (digits_eq hne hall).trans hds⟩
      next => cases hds
  unfold Serve.number at h
  split at h
  next ds => exact ⟨ds, .inl rfl, hread ds h⟩
  next => exact ⟨s, .inr rfl, hread s h⟩

theorem parseI64_of_number {s : List Char} {n : Nat} (h : Serve.number s = some n) (hn : n < 2 ^ 63) :
    parseI64 s = some (n : Int) := by
  obtain ⟨ds, hs, hne, hall, hdigits⟩ := number_some h
  rcases hs with rfl | rfl
  · change ((Convert.digits ds).bind fun n => if n < 2 ^ 63 then some (n : Int) else none) = _
    rw [hdigits]
    exact if_pos hn
  · unfold parseI64
    split
    next => cases hall
    next => cases hall
    next =>
      rw [hdigits]
      exact if_pos hn

theorem parseI64_digits {n : Nat} (hn : n < 2 ^ 63) : parseI64 (Serve.digits n) = some (n : Int) :=
  parseI64_of_number (number_toDigits n) hn

theorem dot_not_mem_digits (n : Nat) : '.' ∉ Serve.digits n :=
  fun h => absurd (toDigits_isDigit n '.' h) (by decide)

/-! ## What is kept -/

section

variable {name n : List Char} {nLayers : Nat}

/-- A tensor with a name is a stage's, one of the whole model, or one of a layer. -/
theorem container_cases (h : deepseekV4ContainerName name nLayers = some n) :
    (∃ stage tail, stageOf name = some stage ∧ layerOf name = none ∧
      n = layerName (Serve.digits ((nLayers + stage) % 2 ^ 64)) tail) ∨
    (stageOf name = none ∧ layerOf name = none ∧ layerIdx n = -1) ∨
    (stageOf name = none ∧ ∃ layer tail l, layerOf name = some l ∧ '.' ∉ layer ∧
      parseU32 layer = some l ∧ n = layerName layer tail) := by
  unfold deepseekV4ContainerName at h
  split at h
  next rest hmtp =>
    obtain ⟨⟨stage, tail⟩, hsplit, h⟩ := Option.bind_eq_some_iff.mp h
    obtain ⟨k, hk, h⟩ := Option.bind_eq_some_iff.mp h
    cases h
    refine .inl ⟨k, tail, ?_, ?_, rfl⟩
    · unfold stageOf
      rw [hmtp]
      exact Option.bind_eq_some_iff.mpr ⟨rest, rfl,
        Option.bind_eq_some_iff.mpr ⟨(stage, tail), hsplit, hk⟩⟩
    · rw [← List.append_eq_of_isPrefixOf?_eq_some hmtp]
      rfl
  next hmtp =>
    have hstage : stageOf name = none := by
      unfold stageOf
      rw [hmtp]
      rfl
    split at h
    next heq =>
      cases h
      subst heq
      exact .inr (.inl ⟨hstage, by decide, by decide⟩)
    next =>
      split at h
      next heq =>
        cases h
        subst heq
        exact .inr (.inl ⟨hstage, by decide, by decide⟩)
      next =>
        split at h
        next heq =>
          cases h
          subst heq
          exact .inr (.inl ⟨hstage, by decide, by decide⟩)
        next =>
          split at h
          next rest hhc =>
            cases h
            refine .inr (.inl ⟨hstage, ?_, layerIdx_hcHead rest⟩)
            rw [← List.append_eq_of_isPrefixOf?_eq_some hhc]
            rfl
          next =>
            obtain ⟨rest, hrest, h⟩ := Option.bind_eq_some_iff.mp h
            obtain ⟨⟨layer, tail⟩, hsplit, h⟩ := Option.bind_eq_some_iff.mp h
            obtain ⟨l, hl, h⟩ := Option.bind_eq_some_iff.mp h
            cases h
            refine .inr (.inr ⟨hstage, layer, tail, l, ?_, not_mem_of_splitOnce hsplit, hl, rfl⟩)
            unfold layerOf
            rw [hrest]
            exact Option.bind_eq_some_iff.mpr ⟨rest, rfl,
              Option.bind_eq_some_iff.mpr ⟨(layer, tail), hsplit, hl⟩⟩

/-- The layer of the new name is the one of the old, or that of the stage above the stack. -/
theorem layerIdx_container (h : deepseekV4ContainerName name nLayers = some n)
    (hfit : ∀ k, stageOf name = some k → nLayers + k < 2 ^ 63) :
    (∃ k : Nat, stageOf name = some k ∧ layerOf name = none ∧ layerIdx n = nLayers + k) ∨
    (stageOf name = none ∧ layerOf name = none ∧ layerIdx n = -1) ∨
    (stageOf name = none ∧ ∃ l : Nat, layerOf name = some l ∧ layerIdx n = l) := by
  rcases container_cases h with ⟨k, tail, hk, hl, rfl⟩ | htop |
    ⟨hk, layer, tail, l, hl, hdot, hparse, rfl⟩
  · have hlt := hfit k hk
    refine .inl ⟨k, hk, hl, ?_⟩
    rw [Nat.mod_eq_of_lt (by omega), layerIdx_layerName (dot_not_mem_digits _) tail,
      parseI64_digits hlt]
    exact Int.natCast_add _ _
  · exact .inr (.inl htop)
  · refine .inr (.inr ⟨hk, l, hl, ?_⟩)
    obtain ⟨hnumber, hlt⟩ := Option.filter_eq_some_iff.mp hparse
    have hsmall : l < 2 ^ 32 := of_decide_eq_true hlt
    rw [layerIdx_layerName hdot tail, parseI64_of_number hnumber (by omega)]
    rfl

theorem container_of_stage {k : Nat} (h : stageOf name = some k) (nLayers : Nat) :
    ∃ n, deepseekV4ContainerName name nLayers = some n := by
  unfold stageOf at h
  obtain ⟨rest, hrest, h⟩ := Option.bind_eq_some_iff.mp h
  obtain ⟨⟨stage, tail⟩, hsplit, h⟩ := Option.bind_eq_some_iff.mp h
  refine ⟨layerName (Serve.digits ((nLayers + k) % 2 ^ 64)) tail, ?_⟩
  unfold deepseekV4ContainerName
  rw [hrest]
  exact Option.bind_eq_some_iff.mpr ⟨(stage, tail), hsplit,
    Option.bind_eq_some_iff.mpr ⟨k, h, rfl⟩⟩

/-- What is below the ceiling is kept. -/
theorem v4Name_isSome_iff {opts : ConvertOpts}
    (hfit : ∀ k, stageOf name = some k → nLayers + k < 2 ^ 63) :
    (v4Name opts nLayers name).isSome ↔ (deepseekV4ContainerName name nLayers).isSome ∧
      (∀ k, stageOf name = some k → k < opts.mtpLayers) ∧
      ∀ l, layerOf name = some l → l < nLayers + opts.mtpLayers := by
  unfold v4Name
  cases hn : deepseekV4ContainerName name nLayers with
  | none => simp
  | some n =>
    rcases layerIdx_container hn hfit with ⟨k, hk, hl, hidx⟩ | ⟨hk, hl, hidx⟩ | ⟨hk, l, hl, hidx⟩
    · simp [hk, hl, hidx]
      omega
    · simp [hk, hl, hidx]
    · simp [hk, hl, hidx]

end

theorem stageOf_threeTensors :
    ∀ t ∈ threeTensors, stageOf t.name = none ∨ stageOf t.name = some 2 := by decide

end Colibri.ContainerNames
