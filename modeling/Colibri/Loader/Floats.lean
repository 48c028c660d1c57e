import Colibri.Loader.QTensor

/-!
# Reading a tensor as floats

`read_f32` reads a tensor's bytes and converts them, by its dtype, into a slice the caller
has sized. The two are zipped: a slice that is longer than the tensor keeps what it held,
which is zeros, and a tensor that is longer is cut off, both without an error (`convertInto_ok`).

An `I64` tensor is a table of indices. A value that cannot be one is a panic.

`Shards.Access` lists what reading a tensor's bytes may come to, and `Shards.Fills` what it does to
the slice then. `Shards.Gives` is the good case: the tensor is readable, has floats enough, and
none of them is refused.
-/

namespace Colibri.Safetensors

open Batch Loader

/-- The conversions of `convert_to_f32` that are a matter of arithmetic. -/
structure Conv where
  f16 : UInt8 → UInt8 → F32
  u8 : UInt8 → F32
  f8e4m3 : UInt8 → F32
  f8e5m2 : UInt8 → F32
  /-- `v as f32` -/
  index : Nat → F32

/-- `f32::from_le_bytes` -/
def f32OfLe (b₀ b₁ b₂ b₃ : UInt8) : F32 :=
  b₀.toUInt32 ||| b₁.toUInt32 <<< 8 ||| b₂.toUInt32 <<< 16 ||| b₃.toUInt32 <<< 24

/-- `u16::from_le_bytes` -/
def u16OfLe (lo hi : UInt8) : UInt16 := lo.toUInt16 ||| hi.toUInt16 <<< 8

def bf16ToF32 (h : UInt16) : F32 := h.toUInt32 <<< 16

/-- `i64::from_le_bytes` -/
def i64OfLe (chunk : List UInt8) : Int :=
  (chunk.foldr (fun b acc => (b.toNat : Int) + 256 * acc) 0).bmod (2 ^ 64)

/-- `chunks_exact(4)`, each chunk as a float. -/
def floats4 : List UInt8 → List F32
  | b₀ :: b₁ :: b₂ :: b₃ :: raw => f32OfLe b₀ b₁ b₂ b₃ :: floats4 raw
  | _ => []

def floats2 (f : UInt8 → UInt8 → F32) : List UInt8 → List F32
  | lo :: hi :: raw => f lo hi :: floats2 f raw
  | _ => []

/-- `chunks_exact(8)` -/
def words8 : List UInt8 → List Int
  | b₀ :: b₁ :: b₂ :: b₃ :: b₄ :: b₅ :: b₆ :: b₇ :: raw =>
    i64OfLe [b₀, b₁, b₂, b₃, b₄, b₅, b₆, b₇] :: words8 raw
  | _ => []

/-- The floats in a tensor's bytes. `none` is a value that is refused. -/
def floats (C : Conv) (dtype : DType) (raw : List UInt8) : List (Option F32) :=
  match dtype with
  | .i64 => (words8 raw).map fun v =>
      if 0 ≤ v ∧ v ≤ 2 ^ 24 then some (C.index v.toNat) else none
  | .f32 => (floats4 raw).map some
  | .bf16 => (floats2 (fun lo hi => bf16ToF32 (u16OfLe lo hi)) raw).map some
  | .f16 => (floats2 C.f16 raw).map some
  | .u8 => raw.map fun b => some (C.u8 b)
  | .f8e4m3 => raw.map fun b => some (C.f8e4m3 b)
  | .f8e5m2 => raw.map fun b => some (C.f8e5m2 b)

/-- The loops of `convert_to_f32`, into `out`. -/
def convertInto : List (Option F32) → List F32 → Option (List F32)
  | [], out => some out
  | _ :: _, [] => some []
  | v :: vs, _ :: out => do
    let v ← v
    let out ← convertInto vs out
    some (v :: out)

/-- `read_f32` into a slice that holds `out`. -/
def Shards.readF32 (C : Conv) (s : Shards) (name : List Char) (out : List F32) :
    Outcome IoError (List F32) :=
  match s.find name with
  | none => .error .notFound
  | some t =>
    -- `pread` has its own buffer, of the length the header says
    s.readRaw name >>= fun raw => .ofOption (convertInto (floats C t.dtype raw) out)

/-! ## What the slice holds afterwards -/

variable {vs : List (Option F32)} {out' : List F32}

/-- Nothing is left of `out` up to the floats there are, and all of it from there on. -/
theorem convertInto_ok {out : List F32}
    (h : convertInto vs out = some out') :
    out'.length = out.length ∧ (out'.take vs.length).map some = vs.take out.length ∧
      out'.drop vs.length = out.drop vs.length := by
  induction vs, out using convertInto.induct generalizing out' with
  | case1 out =>
    cases h
    exact ⟨rfl, List.take_nil.symm, rfl⟩
  | case2 v vs =>
    cases h
    exact ⟨rfl, rfl, rfl⟩
  | case3 v vs x out ih =>
    obtain ⟨y, rfl, h⟩ := Option.bind_eq_some_iff.mp h
    obtain ⟨ys, hys, h⟩ := Option.bind_eq_some_iff.mp h
    cases h
    obtain ⟨hlen, htake, hdrop⟩ := ih hys
    refine ⟨congrArg Nat.succ hlen, ?_, hdrop⟩
    show some y :: _ = some y :: _
    rw [htake]

/-- It is refused if one of the floats that are needed is. -/
theorem convertInto_isSome {out : List F32} :
    (convertInto vs out).isSome ↔ none ∉ vs.take out.length := by
  induction vs, out using convertInto.induct with
  | case1 out => simp [convertInto]
  | case2 v vs => simp [convertInto]
  | case3 v vs x out ih =>
    cases v with
    | none => simp [convertInto]
    | some v =>
      rw [List.length_cons, List.take_succ_cons, List.mem_cons, not_or, ← ih]
      cases h : convertInto vs out <;> simp [convertInto, h]

/-- Its first `n` floats are the tensor's just when the tensor has that many. -/
theorem convertInto_from {out : List F32}
    (h : convertInto vs out = some out') {n : Nat} (hn : n ≤ out.length) :
    (out'.take n).map some <+: vs ↔ n ≤ vs.length := by
  obtain ⟨hlen, htake, -⟩ := convertInto_ok h
  constructor
  · intro hpre
    have hle := hpre.length_le
    rw [List.length_map, List.length_take] at hle
    omega
  · intro hle
    have heq : (out'.take n).map some = vs.take n := by
      have := congrArg (List.take n) htake
      rw [← List.map_take, List.take_take, List.take_take, Nat.min_eq_left hle,
        Nat.min_eq_left hn] at this
      exact this
    rw [heq]
    exact List.take_prefix n vs

section

variable {C : Conv} {s : Shards} {name : List Char} {out : List F32}

/-- The tensor, when its range is in its file. -/
structure Shards.Reads (s : Shards) (name : List Char) (t : StTensor) : Prop where
  found : s.find name = some t
  small : t.nbytes < 2 ^ 63
  inside : t.nbytes = 0 ∨ t.off + t.nbytes ≤ (s.file t.fileIdx).length

/-- The range goes out of the file: reading it is an error. -/
def Shards.Cut (s : Shards) (name : List Char) : Prop :=
  ∃ t, s.find name = some t ∧ t.nbytes < 2 ^ 63 ∧
    ¬ (t.nbytes = 0 ∨ t.off + t.nbytes ≤ (s.file t.fileIdx).length)

/-- What reading a tensor comes to. -/
inductive Shards.Access (s : Shards) (name : List Char) : Outcome IoError (List UInt8) → Prop
  | missing : s.find name = none → Access s name (.error .notFound)
  | huge {t : StTensor} : s.find name = some t → 2 ^ 63 ≤ t.nbytes → Access s name .panic
  | cut : s.Cut name → Access s name (.error .unexpectedEof)
  | read {t : StTensor} : s.Reads name t → Access s name (.ok (s.data t))

theorem readRaw_access (s : Shards) (name : List Char) : s.Access name (s.readRaw name) := by
  unfold Shards.readRaw
  split
  next h => exact .missing h
  next t ht =>
    split
    next hbig => exact .huge ht hbig
    next hsmall =>
      split
      next hin => exact .read ⟨ht, by omega, hin⟩
      next hout => exact .cut ⟨t, ht, by omega, hout⟩

variable {t : StTensor}

theorem Shards.Reads.readRaw (h : s.Reads name t) :
    s.readRaw name = .ok (s.data t) := by
  unfold Shards.readRaw
  rw [h.found]
  simp only
  rw [if_neg (Nat.not_le_of_lt h.small), if_pos h.inside]

theorem Shards.Has.reads {e : Entry} (h : s.Has e) (hsmall : e.bytes.length < 2 ^ 63) :
    ∃ t, s.Reads e.name t ∧ t.dtype = e.dtype ∧ s.data t = e.bytes ∧ t.nbytes = e.bytes.length := by
  obtain ⟨t, ht, hdtype, -, hnbytes, hin, hdata⟩ := h
  exact ⟨t, ⟨ht, hnbytes ▸ hsmall, .inr hin⟩, hdtype, hdata, hnbytes⟩

theorem Shards.Reads.length_data (h : s.Reads name t) :
    (s.data t).length = t.nbytes := by
  have := h.inside
  rw [Shards.data, List.length_take, List.length_drop]
  omega

theorem not_cut_of_reads (h : s.Reads name t) : ¬ s.Cut name := by
  rintro ⟨t', ht', -, hout⟩
  cases Option.some.inj (h.found.symm.trans ht')
  exact hout h.inside

/-- The tensor has `n` floats at least, and of the first `m` none is refused. -/
def Shards.Gives (C : Conv) (s : Shards) (name : List Char) (n m : Nat) : Prop :=
  ∃ t, s.Reads name t ∧ n ≤ (floats C t.dtype (s.data t)).length ∧
    none ∉ (floats C t.dtype (s.data t)).take m

/-- What reading a tensor as floats comes to. -/
inductive Shards.Fills (C : Conv) (s : Shards) (name : List Char) (out : List F32) :
    Outcome IoError (List F32) → Prop
  | missing : s.find name = none → Fills C s name out (.error .notFound)
  | cut : s.Cut name → Fills C s name out (.error .unexpectedEof)
  | refused : s.find name ≠ none → ¬ s.Cut name → (∀ n, ¬ s.Gives C name n out.length) →
      Fills C s name out .panic
  | filled {t : StTensor} {out' : List F32} : s.Reads name t →
      convertInto (floats C t.dtype (s.data t)) out = some out' → Fills C s name out (.ok out')

/-- **What `read_f32` does to the slice**, for any tensor. -/
theorem readF32_fills (C : Conv) (s : Shards) (name : List Char) (out : List F32) :
    s.Fills C name out (s.readF32 C name out) := by
  cases hfind : s.find name with
  | none =>
    have heq : s.readF32 C name out = .error .notFound := by
      unfold Shards.readF32
      rw [hfind]
    exact heq ▸ .missing hfind
  | some t =>
    have heq : s.readF32 C name out = s.readRaw name >>= fun raw =>
        .ofOption (convertInto (floats C t.dtype raw) out) := by
      unfold Shards.readF32
      rw [hfind]
    have hne : s.find name ≠ none := by simp [hfind]
    rw [heq]
    generalize hraw : s.readRaw name = raw
    have hacc := hraw ▸ readRaw_access s name
    cases hacc with
    | missing h => exact absurd h hne
    | cut h => exact .cut h
    | huge ht hbig =>
      have hnot : ∀ t', ¬ s.Reads name t' := by
        intro t' ht'
        cases Option.some.inj (ht.symm.trans ht'.found)
        exact absurd ht'.small (Nat.not_lt_of_le hbig)
      refine .refused hne ?_ fun n ⟨t', ht', _⟩ => hnot t' ht'
      rintro ⟨t', ht', hsmall, -⟩
      cases Option.some.inj (ht.symm.trans ht')
      exact absurd hsmall (Nat.not_lt_of_le hbig)
    | read h =>
      cases Option.some.inj (hfind.symm.trans h.found)
      rw [Outcome.ok_bind]
      cases hconv : convertInto (floats C t.dtype (s.data t)) out with
      | some out' => exact .filled h hconv
      | none =>
        refine .refused hne (not_cut_of_reads h) ?_
        rintro n ⟨t', ht', -, hnone⟩
        cases Option.some.inj (h.found.symm.trans ht'.found)
        have hsome := convertInto_isSome.mpr hnone
        rw [hconv] at hsome
        cases hsome

theorem Shards.Reads.gives (h : s.Reads name t)
    (hconv : convertInto (floats C t.dtype (s.data t)) out = some out') {n : Nat} :
    s.Gives C name n out.length ↔ n ≤ (floats C t.dtype (s.data t)).length := by
  have hnone := convertInto_isSome.mp (Option.isSome_of_eq_some hconv)
  constructor
  · rintro ⟨t', ht', hn, -⟩
    cases Option.some.inj (h.found.symm.trans ht'.found)
    exact hn
  · exact fun hn => ⟨t, h, hn, hnone⟩

end

end Colibri.Safetensors
