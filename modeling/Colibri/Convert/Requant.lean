import Colibri.Convert.Classify
import Colibri.Convert.Dequant
import Colibri.Convert.Nvfp4

/-!
# Requantizing a container

The pass goes over a container and writes NVFP4 where it finds e4m3 experts and, if asked to,
int8 weights that stay resident. Nothing names a format: an expert is taken to be e4m3 unless
it has a global scale, a resident weight to be int8 if it has a scale a row and as many bytes
as elements. A weight and its scales are separate tensors, each looked at by itself.

A container is what its tensors are, `Holds`: how they are spread over files, and in which
order, does not matter. The product of two floats is a parameter; weights are finite, as in
`Convert/Nvfp4`. A file is called by its place.

What is proved here is about names and lookups. A container's tensors have names of their own
(`Converted.nodup`), so each weight finds its own sidecar and no other (`find_main`, `find_sidecar`,
`find_other`), and what it reads of it is what was written (`readScales_sidecar`, `readCodes_main`).
`residentNvfp4Dims_int8` is what a resident weight is taken for.
-/

namespace Colibri.Convert

open Batch Blocks Vectors
open Moe.Formats (OutTensor Shards Data Stored Value Finite asI8 e4m3ToF32 f8e4m3ToF32 e2m1 level)

/-! ## The pass -/

inductive RequantError where
  /-- "missing tensor: {name}" -/
  | missing (name : String)
  /-- "{name}: expected {o}x{i}={} e4m3 codes, got {}" -/
  | codes (name : String) (o i got : ℕ)

/-- `ReqOut` -/
inductive ReqOut where
  | skip
  | raw (t : OutTensor)
  | nvfp4 (blob g : OutTensor)

/-- The arguments of `requant_experts_nvfp4`. -/
structure Pass where
  nLayers : ℕ
  hidden : ℕ
  moeInter : ℕ
  residentNvfp4 : Bool

/-- `classify` as the pass calls it. -/
def Pass.kind (p : Pass) (name : String) : Kind := classify name.toList p.nLayers true false

def Pass.expertOi (p : Pass) (name : String) : ℕ × ℕ :=
  if contains name.toList "down_proj" then (p.hidden, p.moeInter) else (p.moeInter, p.hidden)

def numel (t : OutTensor) : ℕ :=
  match t.data with
  | .bytes b => b.length
  | .floats v => v.length

/-- `nbytes`: a float takes four bytes, or two. -/
def nbytes (t : OutTensor) : ℕ :=
  match t.data with
  | .bytes b => b.length
  | .floats v => (if t.dtype = "BF16" then 2 else 4) * v.length

section

variable (A : FloatArith) (mul : ℚ → ℚ → ℚ) (p : Pass) (s : Shards) (name : String)

def copyRaw : Outcome RequantError ReqOut :=
  match s.find name with
  | some t => .ok (.raw t)
  | none => .error (.missing name)

/-- `read_raw` into a buffer of a byte for each element. -/
def readCodes : Outcome RequantError (List UInt8) :=
  match s.find name with
  | some t =>
    match t.data with
    | .bytes b => .ok b
    -- floats do not fit the buffer, unless there are none
    | .floats v => if v = [] then .ok [] else .panic
  | none => .error (.missing name)

/-- `read_f32` into a buffer of `n` floats. -/
def readScales (n : ℕ) : Outcome RequantError (List ℚ) :=
  match s.readF32 name n with
  | .ok v => .ok v
  | .error _ => .error (.missing name)

/-- The loop that decodes: each code times the scale of its row. -/
def decodeRows (decode : UInt8 → ℚ) (codes : List UInt8) (qs : List ℚ) (o i : ℕ) : List ℚ :=
  blocks o fun r => tab i fun c => mul (decode (codes.getD (r * i + c) 0)) (qs.getD r 0)

/-- `codes[..] as i8 as f32` -/
def int8Value (b : UInt8) : ℚ := (asI8 b : Int)

/-- `f8e4m3_to_f32`; no code of an encoder is a `NaN`. -/
def e4m3Value (b : UInt8) : ℚ := (f8e4m3ToF32 b).getD 0

/-- The two tensors of an encoded matrix. -/
def nvfp4Out (w : List ℚ) (o i : ℕ) : ReqOut :=
  let (nib, bsc, g) := quantizeNvfp4 A w o i
  .nvfp4 ⟨name, "U8", .bytes (nib ++ bsc)⟩ ⟨name ++ ".g", "F32", .floats [g]⟩

def residentNvfp4Dims : Option (ℕ × ℕ) :=
  match s.find name with
  | none => none
  | some t =>
    if s.has (name ++ ".g") then none
    else
      match s.find (name ++ ".qs") with
      | none => none
      | some qs =>
        let o := numel qs
        let n := numel t
        if o = 0 ∨ n = 0 ∨ n % o ≠ 0 ∨ nbytes t ≠ n then none else some (o, n / o)

def requantResidentOne : Outcome RequantError (Option ReqOut) :=
  match residentNvfp4Dims s name with
  | none => .ok none
  | some (o, i) => do
    let codes ← readCodes s name
    let qs ← readScales s (name ++ ".qs") o
    return some (nvfp4Out A name (decodeRows mul int8Value codes qs o i) o i)

/-- `requant_one`, of an expert. -/
def requantExpert : Outcome RequantError ReqOut :=
  if s.has (name ++ ".g") then copyRaw s name
  else
    let (o, i) := p.expertOi name
    match s.find name with
    | none => .error (.missing name)
    | some t =>
      if numel t ≠ o * i then .error (.codes name o i (numel t))
      else do
        let codes ← readCodes s name
        let qs ← readScales s (name ++ ".qs") o
        return nvfp4Out A name (decodeRows mul e4m3Value codes qs o i) o i

/-- `requant_one`, of a tensor whose name does not end in `.qs`. -/
def requantWeight : Outcome RequantError ReqOut :=
  let resident :=
    if p.residentNvfp4 ∧ endsWith name.toList ".weight" ∧ p.kind name = .q then
      requantResidentOne A mul s name
    else .ok none
  resident.bind fun out =>
    match out with
    | some out => .ok out
    | none =>
      if endsWith name.toList ".weight" ∧ p.kind name = .x then requantExpert A mul p s name
      else copyRaw s name

/-- `requant_one`, of the scales of `base`. -/
def requantScales (base : String) : Outcome RequantError ReqOut :=
  if p.kind base = .x then .ok .skip
  else if p.residentNvfp4 ∧ p.kind base = .q ∧ (residentNvfp4Dims s base).isSome then .ok .skip
  else copyRaw s name

def requantOne : Outcome RequantError ReqOut :=
  match stripSuffix ".qs".toList name.toList with
  | some base => requantScales p s name (String.ofList base)
  | none => requantWeight A mul p s name

end

/-- What goes before the floats: codes, that is. -/
def ReqOut.codes : ReqOut → Shards
  | .skip => []
  | .raw t => if t.dtype = "U8" then [t] else []
  | .nvfp4 blob _ => [blob]

def ReqOut.floats : ReqOut → Shards
  | .skip => []
  | .raw t => if t.dtype = "U8" then [] else [t]
  | .nvfp4 _ g => [g]

/-- A file that is written. -/
def arrange (outs : List ReqOut) : Shards :=
  outs.flatMap ReqOut.codes ++ outs.flatMap ReqOut.floats

def requantFile (A : FloatArith) (mul : ℚ → ℚ → ℚ) (p : Pass) (s f : Shards) :
    Outcome RequantError Shards := do
  let outs ← f.mapM fun t => requantOne A mul p s t.name
  return arrange outs

/-- `requant_experts_nvfp4`: a file with nothing in it is not written. -/
def requantExperts (A : FloatArith) (mul : ℚ → ℚ → ℚ) (p : Pass) (files : List Shards) :
    Outcome RequantError (List Shards) := do
  let outs ← files.mapM (requantFile A mul p files.flatten)
  return outs.filter fun f => !f.isEmpty

/-! ## Containers -/

/-- What the converter makes of a tensor of the source. -/
inductive Form where
  /-- floats, also of a matrix that is exact -/
  | plain (dtype : String) (v : List ℚ) (hdtype : dtype ≠ "U8")
  /-- `quantize` -/
  | int8 (o i : ℕ) (codes : List UInt8) (scale : List ℚ) (hcodes : codes.length = o * i)
    (hscale : scale.length = o)
  /-- one of the formats of an expert -/
  | coded (o i : ℕ) (x : Stored o i)

def Form.dtype : Form → String
  | .plain dtype .. => dtype
  | .int8 .. | .coded .. => "U8"

def Form.data : Form → Data
  | .plain _ v _ => .floats v
  | .int8 _ _ codes .. => .bytes codes
  | .coded _ _ x => .bytes x.blob

def Form.sidecar : Form → Option (String × List ℚ)
  | .plain .. => none
  | .int8 _ _ _ scale .. => some (".qs", scale)
  | .coded _ _ x => some x.sidecar

structure Entry where
  name : String
  form : Form

def Entry.main (e : Entry) : OutTensor := ⟨e.name, e.form.dtype, e.form.data⟩

/-- The tensors of an entry. -/
def Entry.tensors (e : Entry) : Shards :=
  e.main :: (e.form.sidecar.map fun q => ⟨e.name ++ q.1, "F32", .floats q.2⟩).toList

/-- The files hold these entries, and nothing else. -/
def Holds (files : List Shards) (c : List Entry) : Prop :=
  files.flatten.Perm (c.flatMap Entry.tensors)

/-! ## What is due -/

section

variable {A : FloatArith} {w : List ℚ} {o i : ℕ}

theorem finite_quantized : Finite (quantizeNvfp4 A w o i).2.1 := by
  intro b hb
  obtain ⟨r, -, hrow⟩ := List.mem_flatMap.mp hb
  obtain ⟨k, -, rfl⟩ := List.mem_map.mp hrow
  obtain ⟨n, hn, hcode⟩ := floatToE4m3_spec A (scaleQuotient_nonneg (w := w) (i := i) (r := r)
    (b := k))
  have hle : n ≤ 126 := hn.le
  rw [scaleByte, hcode, UInt8.toNat_ofNat']
  omega

theorem length_nibbles : (quantizeNvfp4 A w o i).1.length = o * ((i + 1) / 2) :=
  length_blocks fun r _ => by rw [rowNibbles, List.length_map, List.length_range]

theorem length_scales : (quantizeNvfp4 A w o i).2.1.length = o * ((i + 15) / 16) :=
  length_blocks fun _ _ => length_tab _ _

end

/-- What `quantize_nvfp4` makes of a matrix. -/
def quantized (A : FloatArith) (w : List ℚ) (o i : ℕ) : Stored o i :=
  .nvfp4 (quantizeNvfp4 A w o i).1 (quantizeNvfp4 A w o i).2.1 (quantizeNvfp4 A w o i).2.2
    length_nibbles length_scales finite_quantized

/-- Written anew, where there is a code for each weight and a scale for each row. -/
def Form.recode (A : FloatArith) (mul : ℚ → ℚ → ℚ) : Form → Form
  | .int8 o i codes scale _ _ =>
    .coded o i (quantized A (decodeRows mul int8Value codes scale o i) o i)
  | .coded o i (.e4m3 codes scale _ _ _) =>
    .coded o i (quantized A (decodeRows mul e4m3Value codes scale o i) o i)
  | f => f

def Entry.recode (A : FloatArith) (mul : ℚ → ℚ → ℚ) (e : Entry) : Entry :=
  ⟨e.name, e.form.recode A mul⟩

/-- What the pass is for: experts that are e4m3, and residents that are int8 if it is asked to. -/
def Entry.due (p : Pass) (e : Entry) : Bool :=
  match e.form with
  | .int8 o i .. => p.residentNvfp4 && decide (p.kind e.name = .q) && decide (o * i ≠ 0)
  | .coded _ _ (.e4m3 ..) => decide (p.kind e.name = .x)
  | _ => false

/-- The formats that experts come in, e4m3 of the shape that the pass is told. -/
def Form.Expert (oi : ℕ × ℕ) : Form → Prop
  | .int8 .. | .coded _ _ (.int2 ..) => False
  | .coded o i (.e4m3 ..) => oi = (o, i)
  | _ => True

/-- The formats that residents come in. -/
def Form.Resident (name : String) : Form → Prop
  | .int8 .. => endsWith name.toList ".weight" = true
  | .coded _ _ (.int2 ..) | .coded _ _ (.e4m3 ..) => False
  | _ => True

/-- What the names of sidecars end in. -/
def suffixes : List String := [".qs", ".g", ".mx"]

/-- A container of the converter: no weight is called like another one's scales, and what is
classified as an expert or a resident weight is one. -/
structure Converted (p : Pass) (c : List Entry) : Prop where
  names : (c.map Entry.name).Nodup
  bases : ∀ e ∈ c, ∀ suf ∈ suffixes, endsWith e.name.toList suf = false
  experts : ∀ e ∈ c, p.kind e.name = .x →
    endsWith e.name.toList ".weight" = true ∧ e.form.Expert (p.expertOi e.name)
  residents : p.residentNvfp4 = true → ∀ e ∈ c, p.kind e.name = .q → e.form.Resident e.name

/-! ## Names -/

theorem endsWith_append (a suf : String) : endsWith (a ++ suf).toList suf = true := by
  rw [endsWith, List.isSuffixOf_iff_suffix, String.toList_append]
  exact List.suffix_append _ _

/-- What ends in another letter. -/
theorem endsWith_append_other (a : String) {x suf : String} (hx : x.toList ≠ [])
    (hsuf : suf.toList ≠ []) (h : x.toList.getLast hx ≠ suf.toList.getLast hsuf) :
    endsWith (a ++ x).toList suf = false := by
  rw [endsWith, Bool.eq_false_iff, Ne, List.isSuffixOf_iff_suffix, String.toList_append]
  rintro ⟨l, hl⟩
  have hlast := congrArg List.getLast? hl
  rw [List.getLast?_append_of_ne_nil _ hsuf, List.getLast?_append_of_ne_nil _ hx,
    List.getLast?_eq_getLast_of_ne_nil hsuf, List.getLast?_eq_getLast_of_ne_nil hx] at hlast
  exact h (Option.some.inj hlast).symm

theorem stripSuffix_append (suf l : List Char) : stripSuffix suf (l ++ suf) = some l := by
  rw [stripSuffix, if_pos (List.isSuffixOf_iff_suffix.mpr (List.suffix_append _ _)),
    List.length_append, Nat.add_sub_cancel, List.take_left]

/-- The sidecars' suffixes do not end alike. -/
theorem sidecar_name_inj {a b x y : String} (hx : x ∈ suffixes) (hy : y ∈ suffixes)
    (h : a ++ x = b ++ y) : x = y ∧ a = b := by
  have hlist := congrArg String.toList h
  rw [String.toList_append, String.toList_append] at hlist
  have hxy : x = y := by
    have hlast := congrArg List.getLast? hlist
    simp only [suffixes, List.mem_cons, List.not_mem_nil, or_false] at hx hy
    rcases hx with rfl | rfl | rfl <;> rcases hy with rfl | rfl | rfl <;>
      first | rfl | (simp [List.getLast?_append] at hlast)
  subst hxy
  exact ⟨rfl, String.toList_inj.mp (List.append_cancel_right hlist)⟩

theorem find_of_mem {s : Shards} (hn : (s.map OutTensor.name).Nodup) {t : OutTensor}
    (ht : t ∈ s) : s.find t.name = some t := by
  rw [Shards.find]
  cases hf : List.find? (fun u => u.name == t.name) s with
  | none =>
    have hno := List.find?_eq_none.mp hf t ht
    simp at hno
  | some u =>
    have hname : u.name = t.name := by
      have h := List.find?_some hf
      simpa using h
    rw [List.inj_on_of_nodup_map hn (List.mem_of_find?_eq_some hf) ht hname]

theorem find_eq_none {s : Shards} {name : String} (h : ∀ t ∈ s, t.name ≠ name) :
    s.find name = none := by
  rw [Shards.find, List.find?_eq_none]
  intro t ht
  simpa using h t ht

theorem Form.sidecar_suffix {f : Form} {q : String × List ℚ} (h : f.sidecar = some q) :
    q.1 ∈ suffixes := by
  cases f with
  | plain => cases h
  | int8 =>
    cases h
    simp [suffixes]
  | coded o i x =>
    cases x with
    | nvfp4 | e4m3 | mxfp4 | int2 =>
      cases h
      simp [suffixes, Stored.sidecar]

theorem mem_tensors {e : Entry} {t : OutTensor} : t ∈ e.tensors ↔ t = e.main ∨
    ∃ q, e.form.sidecar = some q ∧ t = ⟨e.name ++ q.1, "F32", .floats q.2⟩ := by
  rw [Entry.tensors, List.mem_cons, Option.mem_toList, Option.map_eq_some_iff]
  simp only [eq_comm]

/-- Tensors of one name are of one weight. -/
theorem Converted.base_eq {p : Pass} {c : List Entry} (hc : Converted p c) {e e' : Entry}
    (he : e ∈ c) (he' : e' ∈ c) {t t' : OutTensor} (ht : t ∈ e.tensors) (ht' : t' ∈ e'.tensors)
    (hname : t.name = t'.name) : e.name = e'.name := by
  have happ : ∀ {e : Entry}, e ∈ c → ∀ {suf a : String}, suf ∈ suffixes → e.name ≠ a ++ suf := by
    intro e he suf a hsuf hname
    have hends := hc.bases e he suf hsuf
    rw [hname, endsWith_append] at hends
    cases hends
  rcases mem_tensors.mp ht with rfl | ⟨q, hq, rfl⟩
  · rcases mem_tensors.mp ht' with rfl | ⟨q', hq', rfl⟩
    · exact hname
    · exact absurd hname (happ he (Form.sidecar_suffix hq'))
  · rcases mem_tensors.mp ht' with rfl | ⟨q', hq', rfl⟩
    · exact absurd hname.symm (happ he' (Form.sidecar_suffix hq))
    · exact (sidecar_name_inj (Form.sidecar_suffix hq) (Form.sidecar_suffix hq') hname).2

theorem Converted.nodup {p : Pass} {c : List Entry} (hc : Converted p c) :
    ((c.flatMap Entry.tensors).map OutTensor.name).Nodup := by
  rw [List.map_flatMap, List.nodup_flatMap]
  constructor
  · intro e he
    rw [Entry.tensors, List.map_cons]
    cases hq : e.form.sidecar with
    | none => simp
    | some q =>
      have hne : e.name ≠ e.name ++ q.1 := by
        intro hname
        have hends := hc.bases e he q.1 (Form.sidecar_suffix hq)
        rw [hname, endsWith_append] at hends
        cases hends
      simpa [Entry.main] using hne
  · have hne : c.Pairwise fun e e' => e.name ≠ e'.name := List.pairwise_map.mp hc.names
    refine hne.imp_of_mem fun {e e'} he he' hne n hn hn' => ?_
    obtain ⟨t, ht, rfl⟩ := List.mem_map.mp hn
    obtain ⟨t', ht', hname⟩ := List.mem_map.mp hn'
    exact hne (hc.base_eq he he' ht ht' hname.symm)

/-! ## Looking tensors up -/

section

variable {A : FloatArith} {mul : ℚ → ℚ → ℚ} {p : Pass} {c : List Entry} {s : Shards} {e : Entry}
  (hc : Converted p c) (hs : s.Perm (c.flatMap Entry.tensors)) (he : e ∈ c)

include hc hs

theorem shards_nodup : (s.map OutTensor.name).Nodup := (hs.map _).nodup_iff.mpr hc.nodup

include he

theorem find_main : s.find e.name = some e.main :=
  find_of_mem (shards_nodup hc hs)
    (hs.mem_iff.mpr (List.mem_flatMap.mpr ⟨e, he, mem_tensors.mpr (.inl rfl)⟩))

theorem find_sidecar {q : String × List ℚ} (hq : e.form.sidecar = some q) :
    s.find (e.name ++ q.1) = some ⟨e.name ++ q.1, "F32", .floats q.2⟩ :=
  @find_of_mem s (shards_nodup hc hs) ⟨e.name ++ q.1, "F32", .floats q.2⟩
    (hs.mem_iff.mpr (List.mem_flatMap.mpr ⟨e, he, mem_tensors.mpr (.inr ⟨q, hq, rfl⟩)⟩))

/-- Only a weight's own sidecar is found. -/
theorem find_other {suf : String} (hsuf : suf ∈ suffixes)
    (hno : ∀ q, e.form.sidecar = some q → q.1 ≠ suf) : s.find (e.name ++ suf) = none := by
  refine find_eq_none fun t ht hname => ?_
  obtain ⟨e', he', ht⟩ := List.mem_flatMap.mp (hs.mem_iff.mp ht)
  rcases mem_tensors.mp ht with rfl | ⟨q, hq, rfl⟩
  · -- it would be a weight that is called like scales
    have hends := hc.bases e' he' suf hsuf
    have hname : e'.name = e.name ++ suf := hname
    rw [hname, endsWith_append] at hends
    cases hends
  · obtain ⟨hsame, hbase⟩ := sidecar_name_inj (Form.sidecar_suffix hq) hsuf hname
    have hentry : e' = e := List.inj_on_of_nodup_map hc.names he' he hbase
    subst hentry
    exact hno q hq hsame

theorem has_global : s.has (e.name ++ ".g") ↔ ∃ v, e.form.sidecar = some (".g", v) := by
  rw [Shards.has]
  constructor
  · intro h
    by_contra hno
    have hnone : s.find (e.name ++ ".g") = none := by
      refine find_other hc hs he (by simp [suffixes]) fun q hq hg => hno ⟨q.2, ?_⟩
      rw [hq, ← hg]
    rw [hnone] at h
    cases h
  · rintro ⟨v, hv⟩
    rw [find_sidecar hc hs he hv]
    rfl

theorem readScales_sidecar {v : List ℚ} (hv : e.form.sidecar = some (".qs", v)) :
    readScales s (e.name ++ ".qs") v.length = .ok v := by
  have hfind := find_sidecar hc hs he hv
  unfold readScales Shards.readF32
  rw [hfind]
  dsimp only
  rw [List.take_left]

theorem readCodes_main {b : List UInt8} (hb : e.form.data = .bytes b) :
    readCodes s e.name = .ok b := by
  unfold readCodes
  rw [find_main hc hs he]
  dsimp only [Entry.main]
  rw [hb]

/-- An int8 weight is recognised, unless it is empty. -/
theorem residentNvfp4Dims_int8 {o i : ℕ} {codes : List UInt8} {scale : List ℚ}
    {hcodes : codes.length = o * i} {hscale : scale.length = o}
    (hform : e.form = .int8 o i codes scale hcodes hscale) :
    residentNvfp4Dims s e.name = if o * i = 0 then none else some (o, i) := by
  have hside : e.form.sidecar = some (".qs", scale) := by rw [hform]; rfl
  have hnog : ¬ s.has (e.name ++ ".g") := by
    rw [has_global hc hs he, hside]
    rintro ⟨v, hv⟩
    simp at hv
  have hnumel : numel e.main = o * i := by
    rw [numel, Entry.main, hform]
    exact hcodes
  have hnbytes : nbytes e.main = o * i := by
    rw [nbytes, Entry.main, hform]
    exact hcodes
  have hrows : numel ⟨e.name ++ ".qs", "F32", .floats scale⟩ = o := hscale
  unfold residentNvfp4Dims
  rw [find_main hc hs he, find_sidecar hc hs he hside]
  dsimp only
  rw [if_neg hnog, hnumel, hnbytes, hrows]
  by_cases hzero : o * i = 0
  · rw [if_pos hzero, if_pos (.inr (.inl hzero))]
  · have ho : 0 < o := Nat.pos_of_ne_zero fun h => hzero (by rw [h, Nat.zero_mul])
    rw [if_neg hzero, if_neg (by simp [hzero, ho.ne']), Nat.mul_div_cancel_left i ho]

theorem residentNvfp4Dims_none (hno : ∀ q, e.form.sidecar = some q → q.1 ≠ ".qs") :
    residentNvfp4Dims s e.name = none := by
  have hfind := @find_other _ _ _ _ hc hs he ".qs" (by simp [suffixes]) hno
  unfold residentNvfp4Dims
  rw [find_main hc hs he, hfind]
  dsimp only
  split <;> rfl

end

end Colibri.Convert
