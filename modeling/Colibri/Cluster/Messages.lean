import Colibri.Cluster.Cursor

/-!
# The four messages of the wire

After the handshake four kinds of message go over a connection, each written by hand and
read by hand: a magic word, the counts, the sections one after another. What ties a writer
to its reader is only that both name the same fields in the same order.

The readers are the code's, over their cursor. Of a message that fits its words no length
wraps: what a matrix takes up is inside the bytes that were written (`decode_own`). A reader
of another kind stops at the magic word (`decode_other`).

`decode_encode` is the result for all four kinds: a message that fits is read back field for field
by its own reader, and the other three give none.
-/

namespace Colibri.Cluster

open Wire

/-- A message after the handshake. -/
inductive Message (α : Type) where
  | request (r : ExpertRequest α)
  | response (r : ExpertResponse α)
  | attnRequest (r : AttnRequest α)
  | attnResponse (r : AttnResponse α)

/-- The four kinds of message. -/
inductive Kind where
  | request
  | response
  | attnRequest
  | attnResponse
  deriving DecidableEq

/-- The word a payload opens with. -/
def Kind.magic : Kind → Nat
  | .request => reqMagic
  | .response => rspMagic
  | .attnRequest => areqMagic
  | .attnResponse => arspMagic

section

variable {α : Type}

structure ExpertResponse.Fits (r : ExpertResponse α) : Prop where
  nTokens_lt : r.nTokens < 2 ^ 32
  hidden_lt : r.hidden < 2 ^ 32
  outputs_length : r.outputs.length = r.nTokens * r.hidden

structure AttnResponse.Fits (r : AttnResponse α) : Prop where
  nTokens_lt : r.nTokens < 2 ^ 32
  hidden_lt : r.hidden < 2 ^ 32
  outputs_length : r.outputs.length = r.nTokens * r.hidden

def Message.kind : Message α → Kind
  | .request _ => .request
  | .response _ => .response
  | .attnRequest _ => .attnRequest
  | .attnResponse _ => .attnResponse

/-- The message is well formed: every field is within its word, every matrix is of the
shape the message says. -/
def Message.Fits : Message α → Prop
  | .request r => r.Fits
  | .response r => r.Fits
  | .attnRequest r => r.Fits
  | .attnResponse r => r.Fits

def Message.encode (c : Codec α) : Message α → List UInt8
  | .request r => encodeRequest c r
  | .response r => encodeResponse c r
  | .attnRequest r => encodeAttnRequest c r
  | .attnResponse r => encodeAttnResponse c r

/-- The reader of a kind, on a whole payload. -/
def Kind.decode (c : Codec α) (k : Kind) (b : Slice) : Option (Message α) :=
  match k with
  | .request => (Read.decodeRequest c (Cur.start b)).1.map .request
  | .response => (Read.decodeResponse c (Cur.start b)).1.map .response
  | .attnRequest => (Read.decodeAttnRequest c (Cur.start b)).1.map .attnRequest
  | .attnResponse => (Read.decodeAttnResponse c (Cur.start b)).1.map .attnResponse

/-! ## Another kind's reader -/

theorem magic_injective : Function.Injective Kind.magic := by
  intro k l h
  cases k <;> cases l <;> first | rfl | exact absurd h (by decide)

/-- A payload opens with the magic word of its kind. -/
theorem wordAt_encode (c : Codec α) (m : Message α) : wordAt (m.encode c) 0 = m.kind.magic := by
  have hword : ∀ {v : Nat} {bytes : List UInt8},
    v < 2 ^ 32 → wordAt (putWord v ++ bytes) 0 = v := by
    intro v bytes hv
    rw [wordAt, List.drop_zero, getWord_putWord_of_lt hv]
    rfl
  cases m with
  | request r => exact hword magic_lt.1
  | response r => exact hword magic_lt.2.1
  | attnRequest r => exact hword magic_lt.2.2.1
  | attnResponse r => exact hword magic_lt.2.2.2

theorem magic_of_guard {γ : Type} {v w : Nat} {o : Option γ} {r : γ}
    (h : (if v ≠ w then none else o) = some r) : v = w := by
  by_contra hne
  rw [if_pos hne] at h
  cases h

/-- What a parser that opens with a guard on the magic word gives for another word. -/
theorem none_of_magic {γ : Type} {bytes : List UInt8} {w : Nat}
    {k : Nat × List UInt8 → Option γ} (hw : wordAt bytes 0 ≠ w) :
    ((getWord bytes).bind fun p => if p.1 ≠ w then none else k p) = none := by
  rw [Option.eq_none_iff_forall_ne_some]
  intro r hr
  exact hw (magic_of_guard (bind_getWord (i := 0) hr).2)

/-- **Another kind's payload is refused**, whatever it holds. -/
theorem decode_other (c : Codec α) {k : Kind} {b : Slice} (h : wordAt b.bytes 0 ≠ k.magic) :
    k.decode c b = none := by
  -- behind another magic word nothing is announced, so nothing can wrap
  cases k with
  | request =>
    have hvalue := (meets_request c b).value fun _ hmagic => absurd hmagic h
    rw [Kind.decode, hvalue]
    exact congrArg _ (none_of_magic h)
  | response =>
    have hvalue := (meets_response c b).value fun _ hmagic => absurd hmagic h
    rw [Kind.decode, hvalue]
    exact congrArg _ (none_of_magic h)
  | attnRequest =>
    have hvalue := (meets_attnRequest c b).value fun _ hmagic => absurd hmagic h
    rw [Kind.decode, hvalue]
    exact congrArg _ (none_of_magic h)
  | attnResponse =>
    have hvalue := (meets_attnResponse c b).value fun _ hmagic => absurd hmagic h
    rw [Kind.decode, hvalue]
    exact congrArg _ (none_of_magic h)

/-! ## Its own reader -/

/-- What a request announces is as long as the request. -/
theorem requestFits_encode (c : Codec α) {r : ExpertRequest α} (h : r.Fits) {b : Slice}
    (hb : b.bytes = encodeRequest c r) : RequestFits b := by
  have hcounted := request_counted c (decodeRequest_encode c h)
  have hlen := encodeRequest_length c r
  have hslice := b.length_lt
  rw [← hb] at hcounted hlen
  intro _ _
  rw [hcounted.activations, hcounted.experts, hcounted.weights] at hlen
  show 24 + 4 * wordAt b.bytes 16 + 4 * wordAt b.bytes 20
    + 4 * (wordAt b.bytes 8 * wordAt b.bytes 12) < 2 ^ 64
  omega

theorem shapedFits_response (c : Codec α) {r : ExpertResponse α} (h : r.Fits) {b : Slice}
    (hb : b.bytes = encodeResponse c r) : ShapedFits rspMagic b := by
  have hcounted := response_counted c (decodeResponse_encode c h.1 h.2 h.3)
  have hlen := encodeResponse_length c r
  have hslice := b.length_lt
  rw [← hb] at hcounted hlen
  intro _ _
  rw [hcounted.outputs] at hlen
  omega

theorem shapedFits_attnResponse (c : Codec α) {r : AttnResponse α} (h : r.Fits) {b : Slice}
    (hb : b.bytes = encodeAttnResponse c r) : ShapedFits arspMagic b := by
  have hcounted := attnResponse_counted c (decodeAttnResponse_encode c h.1 h.2 h.3)
  have hlen := encodeAttnResponse_length c r
  have hslice := b.length_lt
  rw [← hb] at hcounted hlen
  intro _ _
  rw [hcounted.outputs] at hlen
  omega

/-- A selection's rows take up a word each at least. -/
theorem length_le_putSel (sel : List (List Nat)) :
    4 * sel.length ≤ (sel.flatMap putSel).length := by
  induction sel with
  | nil => exact Nat.le_refl _
  | cons q sel ih =>
    rw [List.flatMap_cons, List.length_append, List.length_cons, putSel, List.length_append,
      putWord_length]
    omega

/-- The encoding of an attention request fits, its selections included. -/
theorem attnRequestFits_encode (c : Codec α) {r : AttnRequest α} (h : r.Fits) {b : Slice}
    (hb : b.bytes = encodeAttnRequest c r) : AttnRequestFits b := by
  have hdecode := decodeAttnRequest_encode c h
  have hcounted := attnRequest_counted c hdecode
  have hlen := encodeAttnRequest_length c r
  have hslice := b.length_lt
  have hrows := length_le_putSel r.sel
  rw [← hb] at hcounted hlen
  intro _ _
  rw [hcounted.activations] at hlen
  rw [hcounted.sel] at hrows
  refine ⟨by omega, fun e he => ?_⟩
  -- the rows end inside the payload, wherever that is
  have hin : e ≤ b.bytes.length := by
    obtain ⟨hnone, _⟩ | ⟨e', _, hend, hle, _, _⟩ :=
      getMany_getSel b.bytes (wordAt b.bytes 28) 32 (by omega)
    · rw [hnone] at he
      cases he
    · rw [hend] at he
      exact Option.some.inj he ▸ hle
  omega

/-- **A message's own reader** gives it back. -/
theorem decode_own (c : Codec α) {m : Message α} (h : m.Fits) {b : Slice}
    (hb : b.bytes = m.encode c) : m.kind.decode c b = some m := by
  cases m with
  | request r =>
    have hvalue := (meets_request c b).value (requestFits_encode c h hb)
    rw [hb] at hvalue
    show (Read.decodeRequest c (Cur.start b)).1.map _ = _
    rw [hvalue]
    exact congrArg _ (decodeRequest_encode c h)
  | response r =>
    have hvalue := (meets_response c b).value (shapedFits_response c h hb)
    rw [hb] at hvalue
    show (Read.decodeResponse c (Cur.start b)).1.map _ = _
    rw [hvalue]
    exact congrArg _ (decodeResponse_encode c h.1 h.2 h.3)
  | attnRequest r =>
    have hvalue := (meets_attnRequest c b).value (attnRequestFits_encode c h hb)
    rw [hb] at hvalue
    show (Read.decodeAttnRequest c (Cur.start b)).1.map _ = _
    rw [hvalue]
    exact congrArg _ (decodeAttnRequest_encode c h)
  | attnResponse r =>
    have hvalue := (meets_attnResponse c b).value (shapedFits_attnResponse c h hb)
    rw [hb] at hvalue
    show (Read.decodeAttnResponse c (Cur.start b)).1.map _ = _
    rw [hvalue]
    exact congrArg _ (decodeAttnResponse_encode c h.1 h.2 h.3)

/-- **The readers on a message that was written**: its own kind's gives it back field for
field, the other three give nothing. -/
theorem decode_encode (c : Codec α) (m : Message α) (h : m.Fits) (b : Slice)
    (hb : b.bytes = m.encode c) (k : Kind) :
    k.decode c b = if k = m.kind then some m else none := by
  by_cases hk : k = m.kind
  · rw [if_pos hk, hk]
    exact decode_own c h hb
  · rw [if_neg hk]
    refine decode_other c fun hmagic => hk (magic_injective ?_)
    rw [← hmagic, hb, wordAt_encode]

end

/-- An attention request of two queries, one dense and one of two positions. -/
def sparseRequest : AttnRequest (Fin (2 ^ 32)) := ⟨[1, 2], [[], [0, 2]], 2, 1, 7, 0, 1, 5⟩

def sparsePayload : Slice := ⟨encodeAttnRequest wordCodec sparseRequest, by decide⟩

/-- A request with a selection is read back by its own reader, and by no other. -/
theorem decode_sparseRequest :
    Kind.attnRequest.decode wordCodec sparsePayload = some (.attnRequest sparseRequest) ∧
    Kind.request.decode wordCodec sparsePayload = none := by
  have hfits : sparseRequest.Fits :=
    ⟨by decide, by decide, by decide, by decide, by decide, by decide, by decide,
      by simp [sparseRequest], by decide⟩
  have h := decode_encode wordCodec (.attnRequest sparseRequest) hfits sparsePayload rfl
  exact ⟨(h .attnRequest).trans (if_pos rfl), (h .request).trans (if_neg (by decide))⟩

end Colibri.Cluster
