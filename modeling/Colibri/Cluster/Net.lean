import Colibri.Cluster.Transport
import Colibri.Lib.Wire

/-!
# The TCP transport

Messages are frames: a length word, then a payload that opens with a magic word.
The server reads a frame, dispatches it by magic to one of two handlers and writes
the reply. There is no message for a failure: a handler's value is a well-formed
response, so all a client can be told of is a connection that broke.

A message whose fields fit their words is read back as it was sent
(`decodeRequest_encode` and the others). So an exchange with a peer that is there
and agrees on the map ends in what its handler returns (`exchange_ok`), and fails
only where a frame is over the limit.

Elements are `f32`s, any type with a 32-bit pattern. A connection is reachable or
not for the length of a call; the two attempts of `roundtrip` are not told apart.
-/

namespace Colibri.Cluster

open Wire

def reqMagic : Nat := 0x43524551
def rspMagic : Nat := 0x43525350
def areqMagic : Nat := 0x43415251
def arspMagic : Nat := 0x43415250

/-- `MAX_FRAME`: 1 GiB. -/
def maxFrame : Nat := 2 ^ 30

section

variable {α : Type}

/-! ## Encoding -/

def encodeRequest (c : Codec α) (r : ExpertRequest α) : List UInt8 :=
  putWord reqMagic ++ (putWord r.layer ++ (putWord r.nTokens ++ (putWord r.hidden ++
    (putWord r.experts.length ++ (putWord r.weights.length ++
      (r.experts.flatMap putWord ++ (r.weights.flatMap c.put ++ r.activations.flatMap c.put)))))))

/-- `decode_request`, with lengths that do not overflow (`Read.decodeRequest` has the code's). -/
def decodeRequest (c : Codec α) (b : List UInt8) : Option (ExpertRequest α) := do
  let (magic, b) ← getWord b
  if magic ≠ reqMagic then none
  else
    let (layer, b) ← getWord b
    let (nTokens, b) ← getWord b
    let (hidden, b) ← getWord b
    let (nExperts, b) ← getWord b
    let (nWeights, b) ← getWord b
    let (experts, b) ← getMany getWord nExperts b
    let (weights, b) ← getMany c.get nWeights b
    let (activations, _) ← getMany c.get (nTokens * hidden) b
    some ⟨experts, weights, activations, nTokens, hidden, layer⟩

def encodeResponse (c : Codec α) (r : ExpertResponse α) : List UInt8 :=
  putWord rspMagic ++ (putWord r.nTokens ++ (putWord r.hidden ++ r.outputs.flatMap c.put))

def decodeResponse (c : Codec α) (b : List UInt8) : Option (ExpertResponse α) := do
  let (magic, b) ← getWord b
  if magic ≠ rspMagic then none
  else
    let (nTokens, b) ← getWord b
    let (hidden, b) ← getWord b
    let (outputs, _) ← getMany c.get (nTokens * hidden) b
    some ⟨outputs, nTokens, hidden⟩

/-- One query's selection: its length, then the positions. -/
def putSel (q : List Nat) : List UInt8 := putWord q.length ++ q.flatMap putWord

def getSel (b : List UInt8) : Option (List Nat × List UInt8) := do
  let (len, b) ← getWord b
  getMany getWord len b

def encodeAttnRequest (c : Codec α) (r : AttnRequest α) : List UInt8 :=
  putWord areqMagic ++ (putWord r.layer ++ (putWord r.nTokens ++ (putWord r.hidden ++
    (putWord r.posBase ++ (putWord r.hStart ++ (putWord r.hCount ++ (putWord r.sel.length ++
      (r.sel.flatMap putSel ++ r.activations.flatMap c.put))))))))

def decodeAttnRequest (c : Codec α) (b : List UInt8) : Option (AttnRequest α) := do
  let (magic, b) ← getWord b
  if magic ≠ areqMagic then none
  else
    let (layer, b) ← getWord b
    let (nTokens, b) ← getWord b
    let (hidden, b) ← getWord b
    let (posBase, b) ← getWord b
    let (hStart, b) ← getWord b
    let (hCount, b) ← getWord b
    let (nSel, b) ← getWord b
    let (sel, b) ← getMany getSel nSel b
    let (activations, _) ← getMany c.get (nTokens * hidden) b
    some ⟨activations, sel, nTokens, hidden, posBase, hStart, hCount, layer⟩

def encodeAttnResponse (c : Codec α) (r : AttnResponse α) : List UInt8 :=
  putWord arspMagic ++ (putWord r.nTokens ++ (putWord r.hidden ++ r.outputs.flatMap c.put))

def decodeAttnResponse (c : Codec α) (b : List UInt8) : Option (AttnResponse α) := do
  let (magic, b) ← getWord b
  if magic ≠ arspMagic then none
  else
    let (nTokens, b) ← getWord b
    let (hidden, b) ← getWord b
    let (outputs, _) ← getMany c.get (nTokens * hidden) b
    some ⟨outputs, nTokens, hidden⟩

/-! ## Round trips -/

/-- The request's fields fit their words, and its activations are the matrix it
says. -/
structure ExpertRequest.Fits (r : ExpertRequest α) : Prop where
  layer_lt : r.layer < 2 ^ 32
  nTokens_lt : r.nTokens < 2 ^ 32
  hidden_lt : r.hidden < 2 ^ 32
  experts_length : r.experts.length < 2 ^ 32
  weights_length : r.weights.length < 2 ^ 32
  experts_lt : ∀ e ∈ r.experts, e < 2 ^ 32
  activations_length : r.activations.length = r.nTokens * r.hidden

structure AttnRequest.Fits (r : AttnRequest α) : Prop where
  layer_lt : r.layer < 2 ^ 32
  nTokens_lt : r.nTokens < 2 ^ 32
  hidden_lt : r.hidden < 2 ^ 32
  posBase_lt : r.posBase < 2 ^ 32
  hStart_lt : r.hStart < 2 ^ 32
  hCount_lt : r.hCount < 2 ^ 32
  sel_length : r.sel.length < 2 ^ 32
  sel_lt : ∀ q ∈ r.sel, q.length < 2 ^ 32 ∧ ∀ p ∈ q, p < 2 ^ 32
  activations_length : r.activations.length = r.nTokens * r.hidden

theorem magic_lt : reqMagic < 2 ^ 32 ∧ rspMagic < 2 ^ 32 ∧ areqMagic < 2 ^ 32 ∧
    arspMagic < 2 ^ 32 := by decide

variable (c : Codec α)

theorem getMany_all {n : Nat} {xs : List α} (h : xs.length = n) :
    getMany c.get n (xs.flatMap c.put) = some (xs, []) := by
  have hrun := getMany_codec c xs []
  rw [List.append_nil, h] at hrun
  exact hrun

/-- **A request is read back.** -/
theorem decodeRequest_encode {r : ExpertRequest α} (h : r.Fits) :
    decodeRequest c (encodeRequest c r) = some r := by
  unfold decodeRequest encodeRequest
  simp only [getWord_putWord_of_lt magic_lt.1, getWord_putWord_of_lt h.layer_lt,
    getWord_putWord_of_lt h.nTokens_lt, getWord_putWord_of_lt h.hidden_lt,
    getWord_putWord_of_lt h.experts_length, getWord_putWord_of_lt h.weights_length,
    getMany_words h.experts_lt, getMany_codec, getMany_all c h.activations_length,
    Option.bind_eq_bind, Option.bind_some, ne_eq, not_true_eq_false, if_false]

/-- **A response is read back**, if its outputs are as many as it announces. -/
theorem decodeResponse_encode {r : ExpertResponse α} (hn : r.nTokens < 2 ^ 32)
    (hh : r.hidden < 2 ^ 32) (ho : r.outputs.length = r.nTokens * r.hidden) :
    decodeResponse c (encodeResponse c r) = some r := by
  unfold decodeResponse encodeResponse
  simp only [getWord_putWord_of_lt magic_lt.2.1, getWord_putWord_of_lt hn,
    getWord_putWord_of_lt hh, getMany_all c ho, Option.bind_eq_bind, Option.bind_some, ne_eq,
    not_true_eq_false, if_false]

theorem getSel_putSel {q : List Nat} (hlen : q.length < 2 ^ 32) (hq : ∀ p ∈ q, p < 2 ^ 32)
    (rest : List UInt8) : getSel (putSel q ++ rest) = some (q, rest) := by
  unfold getSel putSel
  simp only [List.append_assoc, getWord_putWord_of_lt hlen, Option.bind_eq_bind,
    Option.bind_some, getMany_words hq]

/-- **An attention request is read back.** -/
theorem decodeAttnRequest_encode {r : AttnRequest α} (h : r.Fits) :
    decodeAttnRequest c (encodeAttnRequest c r) = some r := by
  unfold decodeAttnRequest encodeAttnRequest
  have hsel := fun rest => @getMany_flatMap _ putSel getSel r.sel
    (fun q hq rest => getSel_putSel (h.sel_lt q hq).1 (h.sel_lt q hq).2 rest) rest
  simp only [getWord_putWord_of_lt magic_lt.2.2.1, getWord_putWord_of_lt h.layer_lt,
    getWord_putWord_of_lt h.nTokens_lt, getWord_putWord_of_lt h.hidden_lt,
    getWord_putWord_of_lt h.posBase_lt, getWord_putWord_of_lt h.hStart_lt,
    getWord_putWord_of_lt h.hCount_lt, getWord_putWord_of_lt h.sel_length, hsel,
    getMany_all c h.activations_length, Option.bind_eq_bind, Option.bind_some, ne_eq,
    not_true_eq_false, if_false]

/-- **An attention response is read back.** -/
theorem decodeAttnResponse_encode {r : AttnResponse α} (hn : r.nTokens < 2 ^ 32)
    (hh : r.hidden < 2 ^ 32) (ho : r.outputs.length = r.nTokens * r.hidden) :
    decodeAttnResponse c (encodeAttnResponse c r) = some r := by
  unfold decodeAttnResponse encodeAttnResponse
  simp only [getWord_putWord_of_lt magic_lt.2.2.2, getWord_putWord_of_lt hn,
    getWord_putWord_of_lt hh, getMany_all c ho, Option.bind_eq_bind, Option.bind_some, ne_eq,
    not_true_eq_false, if_false]

/-! ## Lengths -/

theorem put_length (x : α) : (c.put x).length = 4 := rfl

theorem encodeRequest_length (r : ExpertRequest α) : (encodeRequest c r).length
    = 24 + 4 * (r.experts.length + r.weights.length + r.activations.length) := by
  simp only [encodeRequest, List.length_append, putWord_length,
    length_flatMap_const putWord_length, length_flatMap_const (put_length c)]
  omega

theorem encodeResponse_length (r : ExpertResponse α) :
    (encodeResponse c r).length = 12 + 4 * r.outputs.length := by
  simp only [encodeResponse, List.length_append, putWord_length,
    length_flatMap_const (put_length c)]
  omega

theorem encodeAttnRequest_length (r : AttnRequest α) : (encodeAttnRequest c r).length
    = 32 + (r.sel.flatMap putSel).length + 4 * r.activations.length := by
  simp only [encodeAttnRequest, List.length_append, putWord_length,
    length_flatMap_const (put_length c)]
  omega

theorem encodeAttnResponse_length (r : AttnResponse α) :
    (encodeAttnResponse c r).length = 12 + 4 * r.outputs.length := by
  simp only [encodeAttnResponse, List.length_append, putWord_length,
    length_flatMap_const (put_length c)]
  omega

end

/-! ## Server and client -/

/-- A server: its map's fingerprint, its two handlers, and whether its sockets
carry a message. -/
structure Peer (α : Type) where
  reachable : Bool
  fingerprint : UInt64
  expert : ExpertRequest α → ExpertResponse α
  attn : AttnRequest α → AttnResponse α

/-- `TcpTransport`; `arrive` is the order in which replies come in. -/
structure TcpTransport (α : Type) where
  this : Nat
  peers : Nat → Option (Peer α)
  fingerprint : UInt64
  arrive : {β : Type} → List β → List β
  arrive_perm : ∀ {β : Type} (l : List β), (arrive l).Perm l

section

variable {α : Type} (c : Codec α)

/-- `serve_conn`, on one request frame: dispatched by magic, answered or dropped. -/
def serveFrame (p : Peer α) (frame : List UInt8) : Option (List UInt8) :=
  match getWord frame with
  | none => none
  | some (magic, _) =>
    if magic = reqMagic then
      (decodeRequest c frame).map fun r => encodeResponse c (p.expert r)
    else if magic = areqMagic then
      (decodeAttnRequest c frame).map fun r => encodeAttnResponse c (p.attn r)
    else none

/-- `roundtrip`: a dropped connection is an error of the read. -/
def TcpTransport.roundtrip (t : TcpTransport α) (node : Nat) (payload : List UInt8) :
    Except TransportError (List UInt8) :=
  match t.peers node with
  | none => .error (.io s!"no address for node {node}")
  | some p =>
    if p.reachable = false then .error (.io "unreachable")
    else if p.fingerprint ≠ t.fingerprint then
      .error (.fingerprintMismatch node t.fingerprint p.fingerprint)
    else
      match getFrame maxFrame (putFrame payload) with
      | none => .error (.io "frame too large")
      | some (frame, _) =>
        match serveFrame c p frame with
        | none => .error (.io "connection closed")
        | some reply =>
          match getFrame maxFrame (putFrame reply) with
          | none => .error (.io "frame too large")
          | some (frame, _) => .ok frame

def TcpTransport.exchange (t : TcpTransport α) (node : Nat) (req : ExpertRequest α) :
    Except TransportError (ExpertResponse α) :=
  match t.roundtrip c node (encodeRequest c req) with
  | .error e => .error e
  | .ok frame =>
    match decodeResponse c frame with
    | none => .error (.io "bad response frame")
    | some r => .ok r

def TcpTransport.exchangeAttn (t : TcpTransport α) (node : Nat) (req : AttnRequest α) :
    Except TransportError (AttnResponse α) :=
  match t.roundtrip c node (encodeAttnRequest c req) with
  | .error e => .error e
  | .ok frame =>
    match decodeAttnResponse c frame with
    | none => .error (.io "bad attention response frame")
    | some r => .ok r

/-- The connection carries a request and its reply of these lengths: the node has
an address, is there, agrees on the map, and neither frame is over the limit. -/
def TcpTransport.Carries (t : TcpTransport α) (node reqLen replyLen : Nat) : Prop :=
  (∃ p, t.peers node = some p ∧ p.reachable = true ∧ p.fingerprint = t.fingerprint) ∧
    reqLen ≤ maxFrame ∧ replyLen ≤ maxFrame

variable {c} {t : TcpTransport α} {node : Nat}

/-- **A round trip** gives the server's reply where the connection carries both, and
an error otherwise. -/
theorem roundtrip_ok {payload reply : List UInt8} {p : Peer α} (hp : t.peers node = some p)
    (hserve : serveFrame c p payload = some reply) (hlen : payload.length < 2 ^ 32)
    (hreply : reply.length < 2 ^ 32) (h : t.Carries node payload.length reply.length) :
    t.roundtrip c node payload = .ok reply := by
  obtain ⟨⟨p', hp', hreach, hfp⟩, hreq, hrep⟩ := h
  rw [hp] at hp'
  cases hp'
  unfold TcpTransport.roundtrip
  rw [hp]
  dsimp only
  rw [hreach, if_neg Bool.true_eq_false.mp, if_neg (fun h => h hfp), getFrame_putFrame hlen,
    if_pos hreq]
  dsimp only
  rw [hserve]
  dsimp only
  rw [getFrame_putFrame hreply, if_pos hrep]

/-- Where the connection does not carry both, a round trip is an error. -/
theorem roundtrip_error {payload : List UInt8} (hlen : payload.length < 2 ^ 32)
    {replyLen : Nat} (hreplyLt : replyLen < 2 ^ 32)
    (hserve : ∀ p reply, t.peers node = some p → serveFrame c p payload = some reply →
      reply.length = replyLen) (h : ¬ t.Carries node payload.length replyLen) :
    ∃ e, t.roundtrip c node payload = .error e := by
  unfold TcpTransport.roundtrip
  cases hp : t.peers node with
  | none => exact ⟨_, rfl⟩
  | some p =>
    dsimp only
    split
    · exact ⟨_, rfl⟩
    next hreach =>
      split
      · exact ⟨_, rfl⟩
      next hfp =>
        have hthere : ∃ p, t.peers node = some p ∧ p.reachable = true ∧
            p.fingerprint = t.fingerprint :=
          ⟨p, hp, Bool.not_eq_false _ ▸ hreach, not_not.mp hfp⟩
        rw [getFrame_putFrame hlen]
        by_cases hreq : payload.length ≤ maxFrame
        · rw [if_pos hreq]
          dsimp only
          cases hs : serveFrame c p payload with
          | none => exact ⟨_, rfl⟩
          | some reply =>
            have hrl := hserve p reply hp hs
            dsimp only
            rw [getFrame_putFrame (by omega), if_neg (fun hle => h ⟨hthere, hreq, hrl ▸ hle⟩)]
            exact ⟨_, rfl⟩
        · rw [if_neg hreq]
          exact ⟨_, rfl⟩

theorem serveFrame_request {p : Peer α} {r : ExpertRequest α} (h : r.Fits) :
    serveFrame c p (encodeRequest c r) = some (encodeResponse c (p.expert r)) := by
  have hmagic : ∃ rest, getWord (encodeRequest c r) = some (reqMagic, rest) :=
    ⟨_, getWord_putWord_of_lt magic_lt.1 _⟩
  obtain ⟨rest, hmagic⟩ := hmagic
  rw [serveFrame, hmagic]
  dsimp only
  rw [if_pos rfl, decodeRequest_encode c h]
  rfl

theorem serveFrame_attnRequest {p : Peer α} {r : AttnRequest α} (h : r.Fits) :
    serveFrame c p (encodeAttnRequest c r) = some (encodeAttnResponse c (p.attn r)) := by
  have hmagic : ∃ rest, getWord (encodeAttnRequest c r) = some (areqMagic, rest) :=
    ⟨_, getWord_putWord_of_lt magic_lt.2.2.1 _⟩
  obtain ⟨rest, hmagic⟩ := hmagic
  rw [serveFrame, hmagic]
  dsimp only
  rw [if_neg (by decide), if_pos rfl, decodeAttnRequest_encode c h]
  rfl

/-- The handlers answer a request with outputs of its shape. -/
structure Peer.Shaped (p : Peer α) : Prop where
  expert : ∀ r, (p.expert r).nTokens = r.nTokens ∧ (p.expert r).hidden = r.hidden ∧
    (p.expert r).outputs.length = r.nTokens * r.hidden
  attn : ∀ r, (p.attn r).nTokens = r.nTokens ∧ (p.attn r).hidden = r.hidden ∧
    (p.attn r).outputs.length = r.nTokens * r.hidden

/-- A request that can be sent: its fields fit their words, and so does its
frame's length. -/
def ExpertRequest.Sendable (c : Codec α) (r : ExpertRequest α) : Prop :=
  r.Fits ∧ (encodeRequest c r).length < 2 ^ 32

/-- The request fits its words, and its frame the reader's limit. -/
def AttnRequest.Sendable (c : Codec α) (r : AttnRequest α) : Prop :=
  r.Fits ∧ (encodeAttnRequest c r).length < 2 ^ 32

/-- Bytes of a response of the request's shape. -/
def replyBytes (nTokens hidden : Nat) : Nat := 12 + 4 * (nTokens * hidden)

/-- **An exchange ends in the handler's value**, whatever that is. -/
theorem exchange_ok {r : ExpertRequest α} (hr : r.Sendable c) {p : Peer α}
    (hp : t.peers node = some p) (hshape : p.Shaped)
    (h : t.Carries node (encodeRequest c r).length (replyBytes r.nTokens r.hidden)) :
    t.exchange c node r = .ok (p.expert r) := by
  obtain ⟨hn, hh, hlen⟩ := hshape.expert r
  have hbytes : (encodeResponse c (p.expert r)).length = replyBytes r.nTokens r.hidden := by
    rw [encodeResponse_length, hlen, replyBytes]
  have hlt : replyBytes r.nTokens r.hidden < 2 ^ 32 := by
    have := hr.2
    rw [encodeRequest_length, hr.1.activations_length] at this
    unfold replyBytes
    omega
  rw [TcpTransport.exchange, roundtrip_ok hp (serveFrame_request hr.1) hr.2 (hbytes ▸ hlt)
    (hbytes ▸ h)]
  dsimp only
  rw [decodeResponse_encode c (hn ▸ hr.1.nTokens_lt) (hh ▸ hr.1.hidden_lt)
    (by rw [hn, hh]; exact hlen)]

theorem exchange_error {r : ExpertRequest α} (hr : r.Sendable c)
    (hshape : ∀ p, t.peers node = some p → p.Shaped)
    (h : ¬ t.Carries node (encodeRequest c r).length (replyBytes r.nTokens r.hidden)) :
    ∃ e, t.exchange c node r = .error e := by
  have hlt : replyBytes r.nTokens r.hidden < 2 ^ 32 := by
    have := hr.2
    rw [encodeRequest_length, hr.1.activations_length] at this
    unfold replyBytes
    omega
  obtain ⟨e, he⟩ := roundtrip_error hr.2 hlt (fun p reply hp hserve => by
    rw [serveFrame_request hr.1] at hserve
    cases hserve
    rw [encodeResponse_length, ((hshape p hp).expert r).2.2, replyBytes]) h
  rw [TcpTransport.exchange, he]
  exact ⟨e, rfl⟩

/-- **An attention exchange ends in the handler's value.** -/
theorem exchangeAttn_ok {r : AttnRequest α} (hr : r.Sendable c) {p : Peer α}
    (hp : t.peers node = some p) (hshape : p.Shaped)
    (h : t.Carries node (encodeAttnRequest c r).length (replyBytes r.nTokens r.hidden)) :
    t.exchangeAttn c node r = .ok (p.attn r) := by
  obtain ⟨hn, hh, hlen⟩ := hshape.attn r
  have hbytes : (encodeAttnResponse c (p.attn r)).length = replyBytes r.nTokens r.hidden := by
    rw [encodeAttnResponse_length, hlen, replyBytes]
  have hlt : replyBytes r.nTokens r.hidden < 2 ^ 32 := by
    have := hr.2
    rw [encodeAttnRequest_length, hr.1.activations_length] at this
    unfold replyBytes
    omega
  rw [TcpTransport.exchangeAttn, roundtrip_ok hp (serveFrame_attnRequest hr.1) hr.2 (hbytes ▸ hlt)
    (hbytes ▸ h)]
  dsimp only
  rw [decodeAttnResponse_encode c (hn ▸ hr.1.nTokens_lt) (hh ▸ hr.1.hidden_lt)
    (by rw [hn, hh]; exact hlen)]

theorem exchangeAttn_error {r : AttnRequest α} (hr : r.Sendable c)
    (hshape : ∀ p, t.peers node = some p → p.Shaped)
    (h : ¬ t.Carries node (encodeAttnRequest c r).length (replyBytes r.nTokens r.hidden)) :
    ∃ e, t.exchangeAttn c node r = .error e := by
  have hlt : replyBytes r.nTokens r.hidden < 2 ^ 32 := by
    have := hr.2
    rw [encodeAttnRequest_length, hr.1.activations_length] at this
    unfold replyBytes
    omega
  obtain ⟨e, he⟩ := roundtrip_error hr.2 hlt (fun p reply hp hserve => by
    rw [serveFrame_attnRequest hr.1] at hserve
    cases hserve
    rw [encodeAttnResponse_length, ((hshape p hp).attn r).2.2, replyBytes]) h
  rw [TcpTransport.exchangeAttn, he]
  exact ⟨e, rfl⟩

end

end Colibri.Cluster
