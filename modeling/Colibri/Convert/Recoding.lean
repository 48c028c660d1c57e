import Colibri.Convert.Requant

/-!
# What the requantizing pass leaves behind

If the pass succeeds, the container that it writes has the same entries, of which those that
are due are NVFP4: quantized from what they decoded to, and without their old scales. A second
pass finds nothing due, and writes the same files (`requant_recodes`).

What is due is not every int8 weight. Embeddings are left alone, and residents too unless the
pass is asked; experts are due that are e4m3. Formats are not told apart by more than the
length, so a resident weight of two bits is taken for int8 as well (`packed_taken_for_int8`), and
an expert of two bits for e4m3 if it has the length. Containers of Maple, which have such
residents and experts, are not `Converted`.

* `requantOne_due`, `requantOne_settled` and `requantOne_sidecar` are what the pass does with one
  tensor: it encodes what is due, copies what is settled, and drops the scales of what is due.
* `requantOne_ok`: if the pass succeeds, it has succeeded with every tensor.
* `holds_after` and `Converted.after`: what is written is a container of the same kind, so the pass
  can be applied to it again.
* `recode_settled` and `requantExperts_settled`: then nothing is due, and the files are written as
  they are.
-/

namespace Colibri.Convert

open Batch
open Moe.Formats (OutTensor Shards Data Stored Value asI8 e4m3ToF32 f8e4m3ToF32 e2m1 level)

/-- The tensors that an outcome adds. -/
def ReqOut.tensors : ReqOut → Shards
  | .skip => []
  | .raw t => [t]
  | .nvfp4 blob g => [blob, g]

/-- Nothing to do, unless it is an expert: then NVFP4 already. -/
def Entry.Settled (p : Pass) (e : Entry) : Prop :=
  e.due p = false ∧ (p.kind e.name = .x → ∃ v, e.form.sidecar = some (".g", v))

/-! ## One tensor -/

section

variable {A : FloatArith} {mul : ℚ → ℚ → ℚ} {p : Pass} {c : List Entry} {s : Shards} {e : Entry}
  (hc : Converted p c) (hs : s.Perm (c.flatMap Entry.tensors)) (he : e ∈ c)

include hc he

theorem requantOne_main : requantOne A mul p s e.name = requantWeight A mul p s e.name := by
  have hqs : stripSuffix ".qs".toList e.name.toList = none := by
    have h := hc.bases e he ".qs" (by simp [suffixes])
    rw [endsWith] at h
    rw [stripSuffix, h]
    rfl
  unfold requantOne
  rw [hqs]

include hs

theorem copyRaw_main : copyRaw s e.name = .ok (.raw e.main) := by
  unfold copyRaw
  rw [find_main hc hs he]

/-- A weight that is due is encoded, with its global scale. -/
theorem requantOne_due (hdue : e.due p = true) :
    ∃ g, (e.recode A mul).form.sidecar = some (".g", g) ∧
      requantOne A mul p s e.name =
        .ok (.nvfp4 (e.recode A mul).main ⟨e.name ++ ".g", "F32", .floats g⟩) := by
  rw [requantOne_main hc he]
  obtain ⟨name, form⟩ := e
  cases form with
  | plain => cases hdue
  | int8 o i codes scale hcodes hscale =>
    have hdims := residentNvfp4Dims_int8 hc hs he rfl
    have hread := readCodes_main hc hs he (b := codes) rfl
    have hscales := readScales_sidecar hc hs he (v := scale) rfl
    rw [hscale] at hscales
    simp only [Entry.due, Bool.and_eq_true, decide_eq_true_eq] at hdue
    obtain ⟨⟨hres, hkind⟩, hsize⟩ := hdue
    have hweight : endsWith name.toList ".weight" = true := hc.residents hres _ he hkind
    dsimp only at hdims hread hscales
    refine ⟨_, rfl, ?_⟩
    unfold requantWeight requantResidentOne
    dsimp only
    rw [if_pos ⟨hres, hweight, hkind⟩, hdims, if_neg hsize]
    dsimp only
    rw [hread, hscales]
    rfl
  | coded o i x =>
    cases x with
    | nvfp4 | mxfp4 | int2 => cases hdue
    | e4m3 codes scale hcodes hscale hfin =>
      have hkind : p.kind name = .x := of_decide_eq_true hdue
      obtain ⟨hweight, hshape⟩ := hc.experts _ he hkind
      have hread := readCodes_main hc hs he (b := codes) rfl
      have hscales := readScales_sidecar hc hs he (v := scale) rfl
      have hfind := find_main hc hs he
      have hnog : ¬ s.has (name ++ ".g") := by
        rw [has_global hc hs he]
        rintro ⟨v, hv⟩
        simp [Form.sidecar, Stored.sidecar] at hv
      have hnumel : numel (Entry.main ⟨name, .coded o i (.e4m3 codes scale hcodes hscale hfin)⟩)
          = o * i := hcodes
      rw [hscale] at hscales
      dsimp only at hread hscales hfind hweight hshape
      have hoi : p.expertOi name = (o, i) := hshape
      refine ⟨_, rfl, ?_⟩
      unfold requantWeight requantExpert
      dsimp only
      rw [if_neg (by rw [hkind]; simp), Outcome.bind, if_pos ⟨hweight, hkind⟩, if_neg hnog, hoi]
      dsimp only
      rw [hfind]
      dsimp only
      rw [if_neg (not_not_intro hnumel), hread, hscales]
      rfl

/-- The weight and its scales ask the same: whether there is something to encode. -/
theorem residentNvfp4Dims_isSome (hres : p.residentNvfp4 = true) (hkind : p.kind e.name = .q) :
    (residentNvfp4Dims s e.name).isSome = e.due p := by
  have hform := hc.residents hres e he hkind
  have hnone : (∀ q, e.form.sidecar = some q → q.1 ≠ ".qs") →
      residentNvfp4Dims s e.name = none := residentNvfp4Dims_none hc hs he
  obtain ⟨name, form⟩ := e
  cases form with
  | plain =>
    rw [hnone fun q hq => by cases hq]
    rfl
  | int8 o i =>
    rw [residentNvfp4Dims_int8 hc hs he rfl]
    dsimp only at hkind
    by_cases hsize : o * i = 0
    · simp [Entry.due, hsize]
    · simp [Entry.due, hsize, hres, hkind]
  | coded o i x =>
    cases x with
    | e4m3 | int2 => exact hform.elim
    | nvfp4 | mxfp4 =>
      rw [hnone fun q hq => by cases hq; simp [Stored.sidecar]]
      rfl

theorem requantWeight_of_not_due (hdue : e.due p = false) :
    requantWeight A mul p s e.name =
      if endsWith e.name.toList ".weight" ∧ p.kind e.name = .x then
        requantExpert A mul p s e.name
      else .ok (.raw e.main) := by
  have hresident : (if p.residentNvfp4 ∧ endsWith e.name.toList ".weight" ∧ p.kind e.name = .q then
      requantResidentOne A mul s e.name else .ok none) = .ok none := by
    split
    next h =>
      have hdims := residentNvfp4Dims_isSome hc hs he h.1 h.2.2
      rw [hdue, Option.isSome_eq_false_iff, Option.isNone_iff_eq_none] at hdims
      unfold requantResidentOne
      rw [hdims]
    next => rfl
  unfold requantWeight
  dsimp only
  rw [copyRaw_main hc hs he, hresident]
  rfl

/-- What is settled is copied. -/
theorem requantOne_settled (h : e.Settled p) : requantOne A mul p s e.name = .ok (.raw e.main) := by
  obtain ⟨hdue, hg⟩ := h
  rw [requantOne_main hc he, requantWeight_of_not_due hc hs he hdue]
  split
  next hx =>
    unfold requantExpert
    rw [if_pos ((has_global hc hs he).mpr (hg hx.2)), copyRaw_main hc hs he]
  next => rfl

/-- Of an expert that is neither NVFP4 nor e4m3, there are no scales to read. -/
theorem requantOne_unsettled (hdue : e.due p = false) (h : ¬ e.Settled p) (out : ReqOut) :
    requantOne A mul p s e.name ≠ .ok out := by
  have hx : p.kind e.name = .x ∧ ¬ ∃ v, e.form.sidecar = some (".g", v) := by
    rw [Entry.Settled] at h
    push Not at h
    obtain ⟨hx, hno⟩ := h hdue
    exact ⟨hx, fun ⟨v, hv⟩ => hno v hv⟩
  obtain ⟨hkind, hnog⟩ := hx
  obtain ⟨hweight, hform⟩ := hc.experts e he hkind
  have hnoqs : ∀ q, e.form.sidecar = some q → q.1 ≠ ".qs" := by
    obtain ⟨name, form⟩ := e
    cases form with
    | plain =>
      intro q hq
      cases hq
    | int8 => exact hform.elim
    | coded o i x =>
      cases x with
      | int2 => exact hform.elim
      | e4m3 =>
        dsimp only at hkind
        simp [Entry.due, hkind] at hdue
      | nvfp4 | mxfp4 =>
        intro q hq
        cases hq
        simp [Stored.sidecar]
  have hfind := @find_other _ _ _ _ hc hs he ".qs" (by simp [suffixes]) hnoqs
  have hscales : ∀ n, readScales s (e.name ++ ".qs") n = .error (.missing (e.name ++ ".qs")) := by
    intro n
    unfold readScales Shards.readF32
    rw [hfind]
  rw [requantOne_main hc he, requantWeight_of_not_due hc hs he hdue, if_pos ⟨hweight, hkind⟩]
  unfold requantExpert
  rw [if_neg (fun hg => hnog ((has_global hc hs he).mp hg)), find_main hc hs he]
  dsimp only
  split
  next =>
    intro hout
    cases hout
  next =>
    rw [hscales]
    cases readCodes s e.name with
    | ok | error | panic =>
      intro hout
      cases hout

/-- Scales that belong to what is due are dropped, other sidecars copied. -/
theorem requantOne_sidecar {q : String × List ℚ} (hq : e.form.sidecar = some q) :
    requantOne A mul p s (e.name ++ q.1) =
      .ok (if q.1 = ".qs" ∧ e.due p = true then .skip
        else .raw ⟨e.name ++ q.1, "F32", .floats q.2⟩) := by
  have hcopy : copyRaw s (e.name ++ q.1) = .ok (.raw ⟨e.name ++ q.1, "F32", .floats q.2⟩) := by
    unfold copyRaw
    rw [find_sidecar hc hs he hq]
  by_cases hqs : q.1 = ".qs"
  · have hstrip : stripSuffix ".qs".toList (e.name ++ q.1).toList = some e.name.toList := by
      rw [hqs, String.toList_append]
      exact stripSuffix_append _ _
    unfold requantOne
    rw [hstrip]
    dsimp only
    rw [String.ofList_toList]
    unfold requantScales
    -- an expert's scales go as its codes do, a resident weight's by its shape
    by_cases hkind : p.kind e.name = .x
    · have hdue : e.due p = true := by
        have hform := (hc.experts e he hkind).2
        obtain ⟨name, form⟩ := e
        cases form with
        | plain => cases hq
        | int8 => exact hform.elim
        | coded o i x =>
          cases x with
          | int2 => exact hform.elim
          | e4m3 => exact decide_eq_true hkind
          | nvfp4 | mxfp4 =>
            cases hq
            simp [Stored.sidecar] at hqs
      rw [if_pos hkind, if_pos ⟨hqs, hdue⟩]
    · rw [if_neg hkind, hcopy]
      by_cases hres : p.residentNvfp4 = true ∧ p.kind e.name = .q
      · rw [residentNvfp4Dims_isSome hc hs he hres.1 hres.2]
        by_cases hdue : e.due p = true
        · rw [if_pos ⟨hres.1, hres.2, hdue⟩, if_pos ⟨hqs, hdue⟩]
        · rw [if_neg (fun h => hdue h.2.2), if_neg (fun h => hdue h.2)]
      · have hdue : ¬ e.due p = true := by
          obtain ⟨name, form⟩ := e
          cases form with
          | plain => simp [Entry.due]
          | int8 =>
            simp only [Entry.due, Bool.and_eq_true, decide_eq_true_eq]
            exact fun h => hres h.1
          | coded o i x =>
            cases x with
            | e4m3 => simpa [Entry.due] using hkind
            | nvfp4 | mxfp4 | int2 => simp [Entry.due]
        rw [if_neg (fun h => hres ⟨h.1, h.2.1⟩), if_neg (fun h => hdue h.2)]
  · -- a global scale or a tag: the name ends neither in `.qs` nor in `.weight`
    have hends : endsWith (e.name ++ q.1).toList ".qs" = false ∧
        endsWith (e.name ++ q.1).toList ".weight" = false := by
      have hmem := Form.sidecar_suffix hq
      simp only [suffixes, List.mem_cons, List.not_mem_nil, or_false] at hmem
      rcases hmem with h | h | h
      · exact absurd h hqs
      · rw [h]
        exact ⟨endsWith_append_other _ (by simp) (by simp) (by simp),
          endsWith_append_other _ (by simp) (by simp) (by simp)⟩
      · rw [h]
        exact ⟨endsWith_append_other _ (by simp) (by simp) (by simp),
          endsWith_append_other _ (by simp) (by simp) (by simp)⟩
    obtain ⟨hends, hweight⟩ := hends
    have hstrip : stripSuffix ".qs".toList (e.name ++ q.1).toList = none := by
      rw [endsWith] at hends
      rw [stripSuffix, hends]
      rfl
    unfold requantOne
    rw [hstrip]
    dsimp only
    unfold requantWeight
    dsimp only
    rw [hweight, if_neg (by simp), Outcome.bind, if_neg (by simp), hcopy,
      if_neg (fun h => hqs h.1)]

end

/-! ## The whole pass -/

section

variable {A : FloatArith} {mul : ℚ → ℚ → ℚ} {p : Pass} {c : List Entry} {files out : List Shards}

/-- What became of a tensor. -/
def outcome (A : FloatArith) (mul : ℚ → ℚ → ℚ) (p : Pass) (s : Shards) (t : OutTensor) : ReqOut :=
  match requantOne A mul p s t.name with
  | .ok out => out
  | _ => .skip

theorem requantExperts_eq
    (h : ∀ t ∈ files.flatten, ∃ out, requantOne A mul p files.flatten t.name = .ok out) :
    requantExperts A mul p files = .ok ((files.map fun f =>
      arrange (f.map (outcome A mul p files.flatten))).filter fun f => !f.isEmpty) := by
  have hstep : ∀ t ∈ files.flatten,
      requantOne A mul p files.flatten t.name = .ok (outcome A mul p files.flatten t) := by
    intro t ht
    obtain ⟨out, hout⟩ := h t ht
    rw [outcome, hout]
  have hfile : ∀ f ∈ files, requantFile A mul p files.flatten f
      = .ok (arrange (f.map (outcome A mul p files.flatten))) := by
    intro f hf
    unfold requantFile
    rw [mapM_of_ok fun t ht => hstep t (List.mem_flatten.mpr ⟨f, hf, ht⟩)]
    rfl
  unfold requantExperts
  rw [mapM_of_ok hfile]
  rfl

/-- If the pass succeeds, so does every tensor. -/
theorem requantOne_ok (h : requantExperts A mul p files = .ok out) :
    ∀ t ∈ files.flatten, ∃ out, requantOne A mul p files.flatten t.name = .ok out := by
  intro t ht
  obtain ⟨f, hf, ht⟩ := List.mem_flatten.mp ht
  obtain ⟨outs, houts, -⟩ := Outcome.bind_eq_ok h
  obtain ⟨_, hfile⟩ := ok_of_mapM houts f hf
  obtain ⟨_, hmap, -⟩ := Outcome.bind_eq_ok hfile
  exact ok_of_mapM hmap t ht

/-- The files that are written have between them what the tensors add. -/
theorem arrange_perm (outs : List ReqOut) : (arrange outs).Perm (outs.flatMap ReqOut.tensors) := by
  refine (List.flatMap_append_perm outs ReqOut.codes ReqOut.floats).trans
    (List.Perm.of_eq (List.flatMap_congr fun out _ => ?_))
  cases out with
  | skip | nvfp4 => rfl
  | raw t =>
    show (if t.dtype = "U8" then [t] else []) ++ (if t.dtype = "U8" then [] else [t]) = [t]
    split <;> rfl

theorem written_perm (res : OutTensor → ReqOut) (files : List Shards) :
    ((files.map fun f => arrange (f.map res)).filter fun f => !f.isEmpty).flatten.Perm
      (files.flatten.flatMap fun t => (res t).tensors) := by
  rw [List.flatten_filter_not_isEmpty]
  induction files with
  | nil => exact List.Perm.refl _
  | cons f files ih =>
    rw [List.map_cons, List.flatten_cons, List.flatten_cons, List.flatMap_append]
    have hfile := arrange_perm (f.map res)
    rw [List.flatMap_map] at hfile
    exact hfile.append ih

/-- Codes first, as files are written. -/
def Tidy (f : Shards) : Prop :=
  ∃ a b, f = a ++ b ∧ (∀ t ∈ a, t.dtype = "U8") ∧ ∀ t ∈ b, t.dtype ≠ "U8"

/-- What is copied stays where it is. -/
theorem arrange_raw {f : Shards} (h : Tidy f) : arrange (f.map .raw) = f := by
  obtain ⟨a, b, rfl, ha, hb⟩ := h
  have hcodes : ∀ {l : Shards}, (∀ t ∈ l, t.dtype = "U8") →
      (l.map ReqOut.raw).flatMap ReqOut.codes = l ∧ (l.map ReqOut.raw).flatMap ReqOut.floats = [] := by
    intro l hl
    rw [List.flatMap_map, List.flatMap_map]
    constructor
    · refine (List.flatMap_congr fun t ht => if_pos (hl t ht)).trans ?_
      simp
    · exact List.flatMap_eq_nil_iff.mpr fun t ht => if_pos (hl t ht)
  have hfloats : ∀ {l : Shards}, (∀ t ∈ l, t.dtype ≠ "U8") →
      (l.map ReqOut.raw).flatMap ReqOut.codes = [] ∧ (l.map ReqOut.raw).flatMap ReqOut.floats = l := by
    intro l hl
    rw [List.flatMap_map, List.flatMap_map]
    constructor
    · exact List.flatMap_eq_nil_iff.mpr fun t ht => if_neg (hl t ht)
    · refine (List.flatMap_congr fun t ht => if_neg (hl t ht)).trans ?_
      simp
  rw [arrange, List.map_append, List.flatMap_append, List.flatMap_append, (hcodes ha).1,
    (hcodes ha).2, (hfloats hb).1, (hfloats hb).2, List.append_nil, List.nil_append]

/-- With nothing to do, the files are written as they are. -/
theorem requantExperts_settled (hc : Converted p c) (hh : Holds files c)
    (hset : ∀ e ∈ c, e.Settled p) (htidy : ∀ f ∈ files, Tidy f ∧ f ≠ []) :
    requantExperts A mul p files = .ok files := by
  have hraw : ∀ t ∈ files.flatten, requantOne A mul p files.flatten t.name = .ok (.raw t) := by
    intro t ht
    obtain ⟨e, he, ht⟩ := List.mem_flatMap.mp (hh.mem_iff.mp ht)
    rcases mem_tensors.mp ht with rfl | ⟨q, hq, rfl⟩
    · exact requantOne_settled hc hh he (hset e he)
    · rw [requantOne_sidecar hc hh he hq, if_neg (by rw [(hset e he).1]; simp)]
  rw [requantExperts_eq fun t ht => ⟨_, hraw t ht⟩]
  have hfile : ∀ f ∈ files, arrange (f.map (outcome A mul p files.flatten)) = f := by
    intro f hf
    rw [List.map_congr_left (g := .raw) fun t ht => ?_, arrange_raw (htidy f hf).1]
    rw [outcome, hraw t (List.mem_flatten.mpr ⟨f, hf, ht⟩)]
  rw [List.map_congr_left hfile, List.map_id', List.filter_eq_self.mpr]
  intro f hf
  simpa using (htidy f hf).2

end

/-! ## What is written anew -/

/-- Rows and columns. -/
def Form.shape : Form → Option (ℕ × ℕ)
  | .plain .. => none
  | .int8 o i .. => some (o, i)
  | .coded o i _ => some (o, i)

/-- The weight of row `r` and column `c`, decoded. -/
def Form.value (mul : ℚ → ℚ → ℚ) (f : Form) (r c : ℕ) : Value :=
  match f with
  | .plain .. => none
  | .int8 _ i codes scale _ _ => some (mul (int8Value (codes.getD (r * i + c) 0)) (scale.getD r 0))
  | .coded _ i (.e4m3 codes scale _ _ _) =>
    (f8e4m3ToF32 (codes.getD (r * i + c) 0)).map fun v => mul v (scale.getD r 0)
  | .coded _ i (.nvfp4 nib bs g ..) =>
    (f8e4m3ToF32 (bs.getD (r * ((i + 15) / 16) + c / 16) 0)).map fun sc =>
      mul (mul (level nib (r * ((i + 1) / 2) + c / 2) c) sc) g
  | .coded _ _ x => x.value r c

/-- The second decodes to the quantization of what the first decodes to: at each place the
level of the code, times the block's scale, times the global one. -/
def Requantized (A : FloatArith) (mul : ℚ → ℚ → ℚ) (f f' : Form) : Prop :=
  ∃ o i w, f.shape = some (o, i) ∧ f'.shape = some (o, i) ∧ w.length = o * i ∧
    ∀ r < o, ∀ c < i, f.value mul r c = some (w.getD (r * i + c) 0) ∧
      f'.value mul r c = some (mul (mul (e2m1.getD (codeOf A w i r c) 0)
        (e4m3ToF32 (scaleByte A w i r (c / 16)))) (globalScale A w))

section

variable {A : FloatArith} {mul : ℚ → ℚ → ℚ} {o i r c : ℕ}

theorem quantized_value {w : List ℚ} (hw : w.length = o * i) (hr : r < o) (hc : c < i) :
    Form.value mul (.coded o i (quantized A w o i)) r c
      = some (mul (mul (e2m1.getD (codeOf A w i r c) 0)
        (e4m3ToF32 (scaleByte A w i r (c / 16)))) (globalScale A w)) := by
  have hb : c / 16 < (i + 15) / 16 := by omega
  have hplace : r * ((i + 15) / 16) + c / 16 < (quantizeNvfp4 A w o i).2.1.length := by
    rw [length_scales]
    exact Tiles.place_lt hr hb
  have hfin := Moe.Formats.f8e4m3ToF32_finite
    (Moe.Formats.finite_get (finite_quantized (A := A) (w := w) (o := o) (i := i)) hplace)
  show (f8e4m3ToF32 ((quantizeNvfp4 A w o i).2.1.getD (r * ((i + 15) / 16) + c / 16) 0)).map _ = _
  rw [hfin, Option.map_some, level_quantized hw hr hc, scale_quantized hr hb]
  rfl

theorem length_decodeRows (decode : UInt8 → ℚ) (codes : List UInt8) (qs : List ℚ) :
    (decodeRows mul decode codes qs o i).length = o * i :=
  Blocks.length_blocks fun _ _ => Vectors.length_tab _ _

theorem getD_decodeRows (decode : UInt8 → ℚ) (codes : List UInt8) (qs : List ℚ) (hr : r < o)
    (hc : c < i) : (decodeRows mul decode codes qs o i).getD (r * i + c) 0
      = mul (decode (codes.getD (r * i + c) 0)) (qs.getD r 0) := by
  rw [List.getD_eq_getElem?_getD, decodeRows,
    Blocks.getElem?_blocks (fun _ _ => Vectors.length_tab _ _) hr hc,
    ← List.getD_eq_getElem?_getD, Vectors.getD_tab hc]

/-- What is due decodes to the quantization of what it decoded to. -/
theorem recode_requantized {p : Pass} {e : Entry} (hdue : e.due p = true) :
    Requantized A mul e.form (e.form.recode A mul) := by
  obtain ⟨name, form⟩ := e
  cases form with
  | plain => cases hdue
  | int8 o i codes scale =>
    refine ⟨o, i, decodeRows mul int8Value codes scale o i, rfl, rfl, length_decodeRows _ _ _,
      fun r hr c hc => ⟨?_, ?_⟩⟩
    · rw [getD_decodeRows _ _ _ hr hc]
      rfl
    · exact quantized_value (length_decodeRows _ _ _) hr hc
  | coded o i x =>
    cases x with
    | nvfp4 | mxfp4 | int2 => cases hdue
    | e4m3 codes scale hcodes hscale hfin =>
      refine ⟨o, i, decodeRows mul e4m3Value codes scale o i, rfl, rfl, length_decodeRows _ _ _,
        fun r hr c hc => ⟨?_, ?_⟩⟩
      · have hplace : r * i + c < codes.length := by
          rw [hcodes]
          exact Tiles.place_lt hr hc
        have hnum := Moe.Formats.f8e4m3ToF32_finite (Moe.Formats.finite_get hfin hplace)
        rw [getD_decodeRows _ _ _ hr hc, e4m3Value, hnum]
        show (f8e4m3ToF32 (codes.getD (r * i + c) 0)).map _ = _
        rw [hnum]
        rfl
      · exact quantized_value (length_decodeRows _ _ _) hr hc

/-- It is NVFP4. -/
theorem recode_due {p : Pass} {e : Entry} (hdue : e.due p = true) :
    ∃ o i w, e.form.recode A mul = .coded o i (quantized A w o i) := by
  obtain ⟨name, form⟩ := e
  cases form with
  | plain => cases hdue
  | int8 => exact ⟨_, _, _, rfl⟩
  | coded o i x =>
    cases x with
    | nvfp4 | mxfp4 | int2 => cases hdue
    | e4m3 => exact ⟨_, _, _, rfl⟩

theorem recode_settled {p : Pass} {e : Entry} (hdue : e.due p = true) :
    (e.recode A mul).Settled p := by
  obtain ⟨o, i, w, hform⟩ := @recode_due A mul p e hdue
  rw [Entry.recode, hform]
  exact ⟨rfl, fun _ => ⟨_, rfl⟩⟩

/-- Only scales a row belong to what is due. -/
theorem due_sidecar {p : Pass} {e : Entry} (hdue : e.due p = true) :
    ∃ v, e.form.sidecar = some (".qs", v) := by
  obtain ⟨name, form⟩ := e
  cases form with
  | plain => cases hdue
  | int8 => exact ⟨_, rfl⟩
  | coded o i x =>
    cases x with
    | nvfp4 | mxfp4 | int2 => cases hdue
    | e4m3 => exact ⟨_, rfl⟩

end

/-! ## The container that is written -/

/-- The entry after a pass over which `which` decides. -/
def Entry.after (A : FloatArith) (mul : ℚ → ℚ → ℚ) (which : Entry → Bool) (e : Entry) : Entry :=
  if which e then e.recode A mul else e

/-- The pass has written those anew that `which` says, and nothing else; they decode to their
quantization; scales are dropped with their weights alone. -/
structure Recoded (A : FloatArith) (mul : ℚ → ℚ → ℚ) (which : Entry → Bool) (c : List Entry)
    (out : List Shards) : Prop where
  holds : Holds out (c.map (Entry.after A mul which))
  decodes : ∀ e ∈ c, which e = true → Requantized A mul e.form (e.form.recode A mul)
  scales : ∀ e ∈ c, ∀ v, e.form.sidecar = some (".qs", v) →
    (Shards.has out.flatten (e.name ++ ".qs") = true ↔ which e = false)

/-- A pass that succeeds writes those anew that `which` says, and a second pass writes what
the first one has. -/
def Recodes (A : FloatArith) (mul : ℚ → ℚ → ℚ) (p : Pass) (which : Entry → Bool)
    (c : List Entry) : Prop :=
  ∀ files out, Holds files c → requantExperts A mul p files = .ok out →
    Recoded A mul which c out ∧ requantExperts A mul p out = .ok out

section

variable {A : FloatArith} {mul : ℚ → ℚ → ℚ} {p : Pass} {c : List Entry} {files out : List Shards}

/-- **A container that has gone through the pass is a converted one.** -/
theorem Converted.after (hc : Converted p c) : Converted p (c.map (Entry.after A mul (Entry.due p)))
    where
  names := by
    have hname : ∀ e : Entry, (e.after A mul (Entry.due p)).name = e.name := by
      intro e
      unfold Entry.after
      split <;> rfl
    rw [List.map_map, show Entry.name ∘ Entry.after A mul (Entry.due p) = Entry.name from
      funext hname]
    exact hc.names
  bases := by
    intro e' he' suf hsuf
    obtain ⟨e, he, rfl⟩ := List.mem_map.mp he'
    unfold Entry.after
    split <;> exact hc.bases e he suf hsuf
  experts := by
    intro e' he' hx
    obtain ⟨e, he, rfl⟩ := List.mem_map.mp he'
    unfold Entry.after at hx ⊢
    split at hx
    next hdue =>
      obtain ⟨o, i, w, hform⟩ := @recode_due A mul p e hdue
      rw [if_pos hdue, Entry.recode, hform]
      exact ⟨(hc.experts e he hx).1, trivial⟩
    next hdue =>
      rw [if_neg hdue]
      exact hc.experts e he hx
  residents := by
    intro hres e' he' hq
    obtain ⟨e, he, rfl⟩ := List.mem_map.mp he'
    unfold Entry.after at hq ⊢
    split at hq
    next hdue =>
      obtain ⟨o, i, w, hform⟩ := @recode_due A mul p e hdue
      rw [if_pos hdue, Entry.recode, hform]
      trivial
    next hdue =>
      rw [if_neg hdue]
      exact hc.residents hres e he hq

theorem settled_of_ok (hc : Converted p c) (hh : Holds files c)
    (h : requantExperts A mul p files = .ok out) {e : Entry} (he : e ∈ c)
    (hdue : e.due p = false) : e.Settled p := by
  by_contra hno
  have hmem : e.main ∈ files.flatten :=
    hh.mem_iff.mpr (List.mem_flatMap.mpr ⟨e, he, mem_tensors.mpr (.inl rfl)⟩)
  obtain ⟨res, hres⟩ := requantOne_ok h _ hmem
  exact requantOne_unsettled hc hh he hdue hno res hres

/-- What becomes of the tensors of an entry. -/
theorem outcome_tensors (hc : Converted p c) (hh : Holds files c)
    (h : requantExperts A mul p files = .ok out) {e : Entry} (he : e ∈ c) :
    e.tensors.flatMap (fun t => (outcome A mul p files.flatten t).tensors)
      = (e.after A mul (Entry.due p)).tensors := by
  by_cases hdue : e.due p = true
  · obtain ⟨g, hg, hmain⟩ := @requantOne_due A mul _ _ _ _ hc hh he hdue
    obtain ⟨v, hv⟩ := due_sidecar hdue
    have hside := @requantOne_sidecar A mul _ _ _ _ hc hh he _ hv
    rw [if_pos ⟨rfl, hdue⟩] at hside
    rw [Entry.after, if_pos hdue, Entry.tensors, hv, Entry.tensors, hg]
    show (outcome A mul p files.flatten e.main).tensors
      ++ ((outcome A mul p files.flatten ⟨e.name ++ ".qs", "F32", .floats v⟩).tensors ++ []) = _
    rw [outcome, outcome, Entry.main, hmain, hside]
    rfl
  · rw [Bool.not_eq_true] at hdue
    have hmain := @requantOne_settled A mul _ _ _ _ hc hh he (settled_of_ok hc hh h he hdue)
    rw [Entry.after, hdue, if_neg (by simp)]
    have hcopied : ∀ t ∈ e.tensors, (outcome A mul p files.flatten t).tensors = [t] := by
      intro t ht
      rcases mem_tensors.mp ht with rfl | ⟨q, hq, rfl⟩
      · rw [outcome, Entry.main, hmain]
        rfl
      · rw [outcome, requantOne_sidecar hc hh he hq, if_neg (by rw [hdue]; simp)]
        rfl
    rw [List.flatMap_congr hcopied]
    simp

/-- **The files that are written hold it.** -/
theorem holds_after (hc : Converted p c) (hh : Holds files c)
    (h : requantExperts A mul p files = .ok out) :
    Holds out (c.map (Entry.after A mul (Entry.due p))) := by
  have hout := requantExperts_eq (requantOne_ok h)
  rw [h, Outcome.ok.injEq] at hout
  rw [Holds, List.flatMap_map, hout]
  refine (written_perm _ files).trans ((hh.flatMap_right _).trans (List.Perm.of_eq ?_))
  rw [List.flatMap_assoc]
  exact List.flatMap_congr fun e he => outcome_tensors hc hh h he

/-- Codes are bytes, and nothing else is. -/
def ReqOut.Tidy (out : ReqOut) : Prop :=
  (∀ t ∈ out.codes, t.dtype = "U8") ∧ ∀ t ∈ out.floats, t.dtype ≠ "U8"

theorem raw_tidy (t : OutTensor) : (ReqOut.raw t).Tidy := by
  constructor
  · intro u hu
    have hu : u ∈ if t.dtype = "U8" then [t] else [] := hu
    split at hu
    next h =>
      rw [List.mem_singleton.mp hu]
      exact h
    next => cases hu
  · intro u hu
    have hu : u ∈ if t.dtype = "U8" then [] else [t] := hu
    split at hu
    next => cases hu
    next h =>
      rw [List.mem_singleton.mp hu]
      exact h

theorem skip_tidy : ReqOut.skip.Tidy := by
  constructor
  · intro t ht
    cases ht
  · intro t ht
    cases ht

/-- What becomes of a tensor has its codes before its floats. -/
theorem outcome_tidy (hc : Converted p c) (hh : Holds files c)
    (h : requantExperts A mul p files = .ok out) {t : OutTensor} (ht : t ∈ files.flatten) :
    (outcome A mul p files.flatten t).Tidy := by
  obtain ⟨e, he, ht⟩ := List.mem_flatMap.mp (hh.mem_iff.mp ht)
  rcases mem_tensors.mp ht with rfl | ⟨q, hq, rfl⟩
  · by_cases hdue : e.due p = true
    · obtain ⟨g, hg, hmain⟩ := @requantOne_due A mul _ _ _ _ hc hh he hdue
      obtain ⟨o, i, w, hform⟩ := @recode_due A mul p e hdue
      rw [outcome, Entry.main, hmain]
      constructor
      · intro u hu
        rw [List.mem_singleton.mp hu, Entry.main, Entry.recode, hform]
        rfl
      · intro u hu
        rw [List.mem_singleton.mp hu]
        simp
    · rw [Bool.not_eq_true] at hdue
      have hmain := @requantOne_settled A mul _ _ _ _ hc hh he (settled_of_ok hc hh h he hdue)
      rw [outcome, Entry.main, hmain]
      exact raw_tidy _
  · rw [outcome, requantOne_sidecar hc hh he hq]
    dsimp only
    split
    next => exact skip_tidy
    next => exact raw_tidy _

theorem written_tidy (hc : Converted p c) (hh : Holds files c)
    (h : requantExperts A mul p files = .ok out) : ∀ f ∈ out, Tidy f ∧ f ≠ [] := by
  have hout := requantExperts_eq (requantOne_ok h)
  rw [h, Outcome.ok.injEq] at hout
  intro f hf
  rw [hout, List.mem_filter] at hf
  obtain ⟨hf, hne⟩ := hf
  obtain ⟨f, hmem, rfl⟩ := List.mem_map.mp hf
  have htidy : ∀ o ∈ f.map (outcome A mul p files.flatten), o.Tidy := by
    intro o ho
    obtain ⟨t, ht, rfl⟩ := List.mem_map.mp ho
    exact outcome_tidy hc hh h (List.mem_flatten.mpr ⟨f, hmem, ht⟩)
  refine ⟨⟨_, _, rfl, fun t ht => ?_, fun t ht => ?_⟩, by simpa using hne⟩
  · obtain ⟨o, ho, ht⟩ := List.mem_flatMap.mp ht
    exact (htidy o ho).1 t ht
  · obtain ⟨o, ho, ht⟩ := List.mem_flatMap.mp ht
    exact (htidy o ho).2 t ht

/-- Whether scales are there tells whether their weight is as it was. -/
theorem scales_after (hc : Converted p c) (hh : Holds out (c.map (Entry.after A mul (Entry.due p))))
    {e : Entry} (he : e ∈ c) {v : List ℚ} (hv : e.form.sidecar = some (".qs", v)) :
    Shards.has out.flatten (e.name ++ ".qs") = true ↔ e.due p = false := by
  have hmem := List.mem_map_of_mem (f := Entry.after A mul (Entry.due p)) he
  rw [Shards.has]
  by_cases hdue : e.due p = true
  · obtain ⟨o, i, w, hform⟩ := @recode_due A mul p e hdue
    rw [Entry.after, if_pos hdue] at hmem
    have hnone := @find_other _ _ _ _ hc.after hh hmem ".qs" (by simp [suffixes]) fun q hq => by
      rw [Entry.recode, hform] at hq
      cases hq
      simp [quantized, Stored.sidecar]
    have hnone : Shards.find out.flatten (e.name ++ ".qs") = none := hnone
    rw [hnone, hdue]
    simp
  · rw [Entry.after, if_neg hdue] at hmem
    rw [find_sidecar hc.after hh hmem hv]
    simpa using hdue

end

/-- **What the requantizing pass does to a converted container**, if it succeeds: those are
written anew that are due, and no others; they decode to their quantization; their old scales
are dropped, and no others; a second pass writes the same files. -/
theorem requant_recodes (A : FloatArith) (mul : ℚ → ℚ → ℚ) (p : Pass) (c : List Entry)
    (hc : Converted p c) : Recodes A mul p (Entry.due p) c := by
  intro files out hh h
  have hafter := holds_after hc hh h
  refine ⟨⟨hafter, fun e _ hdue => recode_requantized hdue,
    fun e he v hv => scales_after hc hafter he hv⟩,
    requantExperts_settled hc.after hafter ?_ (written_tidy hc hh h)⟩
  intro e' he'
  obtain ⟨e, he, rfl⟩ := List.mem_map.mp he'
  unfold Entry.after
  split
  next hdue => exact recode_settled hdue
  next hdue => exact settled_of_ok hc hh h he (Bool.not_eq_true _ ▸ hdue)

/-- A resident weight of two bits, as Maple has, is taken for an int8 matrix of a quarter of its
columns. -/
theorem packed_taken_for_int8 (A : FloatArith) (mul : ℚ → ℚ → ℚ) (p : Pass) {name : String}
    {o i : ℕ} {w : List (List Value)} {codes : List UInt8} {scales : List ℚ} {hrows : w.length = o}
    {hcols : ∀ row ∈ w, row.length = i}
    {hpack : Moe.Formats.packTernaryInt2 w o i = some (codes, scales)}
    (hres : p.residentNvfp4 = true) (hkind : p.kind name = .q)
    (hweight : endsWith name.toList ".weight" = true) (ho : 0 < o) (hi : 0 < i) :
    requantWeight A mul p ((Stored.int2 w codes scales hrows hcols hpack).out name) name
      = .ok (nvfp4Out A name (decodeRows mul int8Value codes scales o ((i + 3) / 4)) o
          ((i + 3) / 4)) := by
  let x : Stored o i := .int2 w codes scales hrows hcols hpack
  have hlen : codes.length = o * ((i + 3) / 4) := Moe.Formats.int2_blob_length hrows hcols hpack
  have hscales : scales.length = o :=
    (Vectors.mapM_get (Moe.Formats.packTernaryInt2_eq hpack).1).1.trans hrows
  have hmain : (x.out name).find name = some ⟨name, "U8", .bytes codes⟩ := by
    simp [Shards.find, Stored.out, x, Stored.blob]
  have hnog : ¬ (x.out name).has (name ++ ".g") = true := by
    rw [Moe.Formats.has_out x name ".g" (by simp)]
    simp [x, Stored.sidecar]
  have hqs : (x.out name).find (name ++ ".qs") = some ⟨name ++ ".qs", "F32", .floats scales⟩ := by
    rw [Moe.Formats.find_out x name ".qs" (by simp)]
    exact if_pos rfl
  have hdims : residentNvfp4Dims (x.out name) name = some (o, (i + 3) / 4) := by
    have hn : o * ((i + 3) / 4) ≠ 0 := Nat.mul_ne_zero ho.ne' (by omega)
    have hnumel : numel ⟨name, "U8", .bytes codes⟩ = o * ((i + 3) / 4) := hlen
    have hnbytes : nbytes ⟨name, "U8", .bytes codes⟩ = o * ((i + 3) / 4) := hlen
    have hrow : numel ⟨name ++ ".qs", "F32", .floats scales⟩ = o := hscales
    unfold residentNvfp4Dims
    rw [hmain, hqs]
    dsimp only
    rw [if_neg hnog, hnumel, hnbytes, hrow, if_neg (by simp [ho.ne', hn]),
      Nat.mul_div_cancel_left _ ho]
  have hread : readScales (x.out name) (name ++ ".qs") o = .ok scales := by
    unfold readScales
    rw [Moe.Formats.readF32_out x name ".qs" rfl o hscales]
    rfl
  have hcodes : readCodes (x.out name) name = .ok codes := by
    unfold readCodes
    rw [hmain]
  show requantWeight A mul p (x.out name) name = _
  unfold requantWeight requantResidentOne
  dsimp only
  rw [if_pos ⟨hres, hweight, hkind⟩, hdims]
  dsimp only
  rw [hcodes, hread]
  rfl

/-! ## Embeddings -/

/-- Stored as int8. -/
def Entry.isInt8 (e : Entry) : Bool :=
  match e.form with
  | .int8 .. => true
  | _ => false

theorem oneCode_length : ([1] : List UInt8).length = 1 * 1 := rfl

theorem oneScale_length : ([1] : List ℚ).length = 1 := rfl

/-- A container of one weight, which is int8. -/
def oneWeight (name : String) : List Entry :=
  [⟨name, .int8 1 1 [1] [1] oneCode_length oneScale_length⟩]

def residentPass : Pass := ⟨1, 1, 1, true⟩

theorem oneWeight_converted {name : String}
    (hbase : ∀ suf ∈ suffixes, endsWith name.toList suf = false)
    (hx : residentPass.kind name ≠ .x) (hq : endsWith name.toList ".weight" = true) :
    Converted residentPass (oneWeight name) where
  names := List.nodup_singleton _
  bases := by
    intro e he
    rw [List.mem_singleton.mp he]
    exact hbase
  experts := by
    intro e he h
    rw [List.mem_singleton.mp he] at h
    exact absurd h hx
  residents := by
    intro _ e he _
    rw [List.mem_singleton.mp he]
    exact hq

theorem embeddings_kind : residentPass.kind "model.embed_tokens.weight" = .io := by
  decide

/-- Embeddings are int8, and stay so. -/
theorem embeddings_not_recoded : ¬ Recodes f32 f32.mul residentPass Entry.isInt8
    (oneWeight "model.embed_tokens.weight") := by
  intro h
  have hc : Converted residentPass (oneWeight "model.embed_tokens.weight") :=
    oneWeight_converted (by decide) (by rw [embeddings_kind]; simp) (by decide)
  let files : List Shards := [(oneWeight "model.embed_tokens.weight").flatMap Entry.tensors]
  have hh : Holds files (oneWeight "model.embed_tokens.weight") := by
    rw [Holds, List.flatten_singleton]
  have hset : ∀ e ∈ oneWeight "model.embed_tokens.weight", e.Settled residentPass := by
    intro e he
    rw [List.mem_singleton.mp he]
    refine ⟨?_, fun hx => ?_⟩
    · simp [Entry.due, embeddings_kind]
    · rw [embeddings_kind] at hx
      cases hx
  have htidy : ∀ f ∈ files, Tidy f ∧ f ≠ [] := by
    intro f hf
    rw [List.mem_singleton.mp hf]
    refine ⟨⟨[_], [_], rfl, fun t ht => ?_, ?_⟩, by simp [oneWeight, Entry.tensors]⟩
    · rw [List.mem_singleton.mp ht]
      rfl
    · simp
  have hsame := @requantExperts_settled f32 f32.mul _ _ _ hc hh hset htidy
  have hscales := ((h files files hh hsame).1.scales _ (List.mem_singleton_self _) [1] rfl).mp
  have hfind := find_sidecar hc hh (List.mem_singleton_self _) (q := (".qs", [1])) rfl
  have hthere := hscales (by rw [Shards.has, hfind]; rfl)
  cases hthere

theorem projection_kind : residentPass.kind "model.layers.0.self_attn.q_proj.weight" = .q := by
  decide

def projection : List Entry := oneWeight "model.layers.0.self_attn.q_proj.weight"

theorem projection_ok : ∃ out, requantExperts f32 f32.mul residentPass
    [projection.flatMap Entry.tensors] = .ok out := by
  have hok : (match requantExperts f32 f32.mul residentPass [projection.flatMap Entry.tensors] with
      | .ok _ => true
      | _ => false) = true := by
    decide +kernel
  split at hok
  next out h => exact ⟨out, h⟩
  next => cases hok

/-- A projection is due: the pass succeeds, has written it anew, and then leaves it alone. -/
theorem requant_recodes_projection : ∃ out,
    requantExperts f32 f32.mul residentPass [projection.flatMap Entry.tensors] = .ok out ∧
    Recoded f32 f32.mul (Entry.due residentPass) projection out ∧
    requantExperts f32 f32.mul residentPass out = .ok out := by
  obtain ⟨out, hok⟩ := projection_ok
  have hc : Converted residentPass projection :=
    oneWeight_converted (by decide) (by rw [projection_kind]; simp) (by decide)
  have hh : Holds [projection.flatMap Entry.tensors] projection := by
    rw [Holds, List.flatten_singleton]
  exact ⟨out, hok, requant_recodes f32 f32.mul residentPass projection hc _ out hh hok⟩

end Colibri.Convert
