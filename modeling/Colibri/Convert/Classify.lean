import Mathlib.Algebra.Order.Ring.Nat
import Mathlib.Data.List.Basic

/-!
# What conversion does with a tensor

`classify` goes by the name, and so do the converter and the pass that requantizes its
container: experts are streamed, embeddings have bits of their own, other weights stay
resident, what is small or exact stays a float. The rules are tried in order, most of them on
the end of the name or on what it contains.

A layer index is an `i64`; the sum of the layers is taken to fit a `usize`.

Nothing is proved in this module. `Convert.Requant` and `Convert.Recoding` go by the same rules when
they decide what a second pass has to do.
-/

namespace Colibri.Convert

/-- `Kind` -/
inductive Kind where
  | skip
  /-- kept as floats -/
  | f32
  /-- embeddings and `lm_head` -/
  | io
  /-- a routed expert -/
  | x
  /-- a resident weight -/
  | q
  deriving DecidableEq

/-! ## Strings -/

/-- `str::ends_with` -/
def endsWith (name : List Char) (suf : String) : Bool := suf.toList.isSuffixOf name

/-- `str::contains` -/
def hasPart (part : List Char) : List Char → Bool
  | [] => part.isEmpty
  | c :: rest => part.isPrefixOf (c :: rest) || hasPart part rest

def contains (name : List Char) (part : String) : Bool := hasPart part.toList name

/-- The number that digits spell. -/
def digits (s : List Char) : Option Nat :=
  if s.isEmpty || !s.all Char.isDigit then none
  else some (s.foldl (fun n c => 10 * n + (c.toNat - '0'.toNat)) 0)

/-- `str::parse::<i64>` -/
def parseI64 (s : List Char) : Option Int :=
  match s with
  | '-' :: rest => (digits rest).bind fun n => if n ≤ 2 ^ 63 then some (-(n : Int)) else none
  | '+' :: rest => (digits rest).bind fun n => if n < 2 ^ 63 then some (n : Int) else none
  | s => (digits s).bind fun n => if n < 2 ^ 63 then some (n : Int) else none

def layerIdx (name : List Char) : Int :=
  match name.splitOn '.' with
  | a :: b :: s :: _ =>
    if a = "model".toList ∧ b = "layers".toList then (parseI64 s).getD (-1) else -1
  | _ => -1

/-! ## The rules -/

def classifyNemotron (name : List Char) : Kind :=
  if endsWith name "mixer.gate.weight" || endsWith name "e_score_correction_bias" then .f32
  else if contains name ".conv1d." then .f32
  else if endsWith name "norm.weight" then .f32
  else if contains name ".mixer.experts." && endsWith name ".weight" then .x
  else if endsWith name ".weight" then .q
  else .f32

/-- The rules for the names that only the head has. -/
def classifyFusion (name : List Char) (isMtp : Bool) : Kind :=
  if isMtp then
    if contains name "eh_proj" then .q
    else if contains name "enorm" || contains name "hnorm" || contains name "shared_head.norm" then
      .f32
    else .skip
  else .skip

/-- The rules that no layer index decides. -/
def classifyRest (name : List Char) : Kind :=
  if endsWith name "e_score_correction_bias" then .f32
  else if endsWith name "mlp.gate.weight" then .f32
  else if endsWith name "mlp.gate.tid2eid" then .f32
  else if endsWith name "confidence_head.proj.weight" then .f32
  else if endsWith name "norm.weight" || name == "model.norm.weight".toList then .f32
  else if name == "model.embed_tokens.weight".toList || name == "lm_head.weight".toList then .io
  else if contains name ".mlp.experts." && endsWith name ".weight_packed" then .x
  else if contains name "_conv1d.weight" || endsWith name "_res_proj.weight" then .f32
  else if contains name ".mlp.experts." && endsWith name ".weight" then .x
  else if endsWith name ".weight" then .q
  else .f32

/-- `classify_head`: the head has the layers from `nLayers` on, `mtpLayers` of them. -/
def classifyHead (name : List Char) (nLayers : Nat) (keepIdx mtpOnly : Bool) (mtpLayers : Nat) :
    Kind :=
  let li := layerIdx name
  let isMtp := decide (0 ≤ li ∧ nLayers ≤ li ∧ li < nLayers + mtpLayers)
  if endsWith name "_scale_inv" then .skip
  else if endsWith name ".weight_scale" || endsWith name ".weight_scale_2" ||
      endsWith name ".input_scale" then .skip
  else if endsWith name ".scale" then .skip
  else if 0 ≤ li ∧ nLayers + mtpLayers ≤ li then .skip
  else if mtpOnly && !isMtp then .skip
  else if contains name ".mixer." then classifyNemotron name
  else if contains name ".indexer." then
    if !keepIdx then .skip else if contains name "k_norm" then .f32 else .q
  else if ["indexers_proj", "eh_proj", "enorm", "hnorm", "shared_head"].any (contains name) then
    classifyFusion name isMtp
  else classifyRest name

/-- `classify`: a head of one block. -/
def classify (name : List Char) (nLayers : Nat) (keepIdx mtpOnly : Bool) : Kind :=
  classifyHead name nLayers keepIdx mtpOnly 1

end Colibri.Convert
