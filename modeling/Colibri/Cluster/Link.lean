import Colibri.Cluster.Messages
import Colibri.Lib.Runs

/-!
# The link between a client and a server

A connection is two ordered streams. It may be cut anywhere, in either direction and at any
time: what was cut off never arrives, and nothing written after it does. The server's thread
of a connection reads a hello, answers it, and then reads requests and answers them one by
one; whatever goes wrong, it drops the connection. The client keeps one connection between
its calls. A request that fails on it drops it, and is tried once more on a fresh one.

Nothing in an answer says which request it is for. It is the right one because of what is in
flight: between two calls both streams of the connection that is kept are empty, and while a
call waits, what comes down is a piece of the answer to what that call has sent up
(`Conn.Quiet`, `Conn.Waiting`). An error may leave anything on a connection, and is never
followed by another use of it.

That holds as long as a frame is what its length word says. The writer narrows the length
(`Framing`), so an answer of `2 ^ 32` bytes or more is read in part and its rest is read as
the answer to the next request (`stale_answer`). What the handlers answer is left open here:
any response to any request, the same or another each time.

* `Conn.Welcome.step` and `Link.Counted.step` are one step of the first invariant: the handler runs
  only behind a hello that carried the server's fingerprint, and no call has more than two turns.
* `Link.Matched.step` is one step of the second, which is about answers, for steps whose frames are
  shorter than `2 ^ 32` bytes.
* `counted_of_run` and `matched_of_run` are the inductions over a run, and `link_run` has both.
-/

namespace Colibri.Cluster

open Wire

def helloMagic : Nat := 0x4348454c
def hackMagic : Nat := 0x43484143

def encodeHello (node : Nat) (fingerprint : UInt64) : List UInt8 :=
  putWord helloMagic ++ (putWord node ++ putLong fingerprint.toNat)

def decodeHello (b : List UInt8) : Option (Nat × UInt64) := do
  let (magic, b) ← getWord b
  if magic ≠ helloMagic then none
  else
    let (node, b) ← getWord b
    let (fingerprint, _) ← getLong b
    some (node, UInt64.ofNat fingerprint)

def encodeHelloAck (ok : Bool) (fingerprint : UInt64) : List UInt8 :=
  putWord hackMagic ++ (putWord ok.toNat ++ putLong fingerprint.toNat)

def decodeHelloAck (b : List UInt8) : Option (Bool × UInt64) := do
  let (magic, b) ← getWord b
  if magic ≠ hackMagic then none
  else
    let (ok, b) ← getWord b
    let (fingerprint, _) ← getLong b
    some (ok != 0, UInt64.ofNat fingerprint)

theorem decodeHelloAck_encode (ok : Bool) (fingerprint : UInt64) :
    decodeHelloAck (encodeHelloAck ok fingerprint) = some (ok, fingerprint) := by
  have hlong := getLong_putLong fingerprint.toNat_lt []
  rw [List.append_nil] at hlong
  have hok : getWord (putWord ok.toNat ++ putLong fingerprint.toNat)
      = some (ok.toNat, putLong fingerprint.toNat) :=
    getWord_putWord_of_lt (by cases ok <;> decide) _
  unfold decodeHelloAck encodeHelloAck
  simp only [getWord_putWord_of_lt (show hackMagic < 2 ^ 32 by decide), hok, hlong,
    Option.bind_eq_bind, Option.bind_some, ne_eq, not_true_eq_false, if_false,
    UInt64.ofNat_toNat]
  cases ok <;> rfl

/-! ## A connection -/

/-- The server's thread: it waits for the hello, serves, or has dropped the connection. -/
inductive Phase where
  | hello
  | serving
  | closed
  deriving DecidableEq

section

variable {α : Type}

/-- A connection: what is under way each way, and whether more can get through. Besides,
what has happened on it: the fingerprint its hello carried, the handler's runs in order,
and how many requests the client has put on it. A `foreign` one is another client's. -/
structure Conn (α : Type) where
  up : List UInt8
  down : List UInt8
  upOpen : Bool
  downOpen : Bool
  phase : Phase
  foreign : Bool
  hello : Option UInt64
  served : List (Message α × Message α)
  asked : Nat

/-- A connection with what its client has written first. -/
def Conn.opened (foreign : Bool) (up : List UInt8) : Conn α :=
  ⟨up, [], true, true, .hello, foreign, none, [], 0⟩

def Conn.sendUp (cn : Conn α) (bytes : List UInt8) : Conn α :=
  if cn.upOpen then { cn with up := cn.up ++ bytes } else cn

def Conn.sendDown (cn : Conn α) (bytes : List UInt8) : Conn α :=
  if cn.downOpen then { cn with down := cn.down ++ bytes } else cn

/-- The two handlers: a response of the kind the request asks for. -/
inductive Answers : Message α → Message α → Prop where
  | expert (r : ExpertRequest α) (x : ExpertResponse α) : Answers (.request r) (.response x)
  | attn (r : AttnRequest α) (x : AttnResponse α) : Answers (.attnRequest r) (.attnResponse x)

/-- The dispatch of `serve_conn` on a frame: by its leading magic, to the reader of that
kind. -/
def dispatch (c : Codec α) (frame : List UInt8) : Option (Message α) :=
  if h : frame.length < 2 ^ 63 then
    match getWord frame with
    | none => none
    | some (magic, _) =>
      if magic = reqMagic then Kind.request.decode c ⟨frame, h⟩
      else if magic = areqMagic then Kind.attnRequest.decode c ⟨frame, h⟩
      else none
  else none

/-- What both ends have been started with. -/
structure Params (α : Type) where
  codec : Codec α
  /-- `this` and `fingerprint` of the client -/
  this : Nat
  fingerprint : UInt64
  /-- the server's node, and its fingerprint -/
  node : Nat
  serverFp : UInt64

/-- `serve_conn` on its first frame; `n` bytes of the ack get out. -/
def Conn.greeted (P : Params α) (cn : Conn α) (frame rest : List UInt8) (n : Nat) : Conn α :=
  match decodeHello frame with
  | none => { cn with up := rest, phase := .closed }
  | some (_, peerFp) =>
    let ack := putFrame (encodeHelloAck (peerFp == P.serverFp) P.serverFp)
    let phase := if peerFp = P.serverFp ∧ ack.length ≤ n then .serving else .closed
    { cn.sendDown (ack.take n) with up := rest, hello := some peerFp, phase }

/-- `serve_conn` on a request, once the handler has answered; `n` bytes of the answer get
out. -/
def Conn.answered (P : Params α) (cn : Conn α) (rest : List UInt8) (m reply : Message α)
    (n : Nat) : Conn α :=
  let frame := putFrame (reply.encode P.codec)
  { cn.sendDown (frame.take n) with
    up := rest
    served := cn.served ++ [(m, reply)]
    phase := if frame.length ≤ n then .serving else .closed }

/-- What the server and the network do to a connection; the label is a handler's run. -/
inductive Conn.Step (P : Params α) : Conn α → Option (Message α × Message α) → Conn α → Prop where
  | cutUp (cn : Conn α) (n : Nat) : Step P cn none { cn with up := cn.up.take n, upOpen := false }
  | cutDown (cn : Conn α) (n : Nat) :
    Step P cn none { cn with down := cn.down.take n, downOpen := false }
  /-- an error of a read or a write, or a frame that is refused -/
  | drop (cn : Conn α) : Step P cn none { cn with phase := .closed }
  /-- another client writes what it likes -/
  | arrive (cn : Conn α) (bytes : List UInt8) (h : cn.foreign = true) :
    Step P cn none (cn.sendUp bytes)
  | greet (cn : Conn α) (frame rest : List UInt8) (n : Nat) (h : cn.phase = .hello)
    (hget : getFrame maxFrame cn.up = some (frame, rest)) :
    Step P cn none (cn.greeted P frame rest n)
  | reject (cn : Conn α) (frame rest : List UInt8) (h : cn.phase = .serving)
    (hget : getFrame maxFrame cn.up = some (frame, rest)) (hbad : dispatch P.codec frame = none) :
    Step P cn none { cn with up := rest, phase := .closed }
  | serve (cn : Conn α) (frame rest : List UInt8) (m reply : Message α) (n : Nat)
    (h : cn.phase = .serving) (hget : getFrame maxFrame cn.up = some (frame, rest))
    (hreq : dispatch P.codec frame = some m) (hreply : Answers m reply) :
    Step P cn (some (m, reply)) (cn.answered P rest m reply n)

/-! ## The client -/

/-- What is asked of a `TcpTransport`: `verify_peers`, or `roundtrip`. -/
inductive Call where
  | verify
  | roundtrip (payload : List UInt8)

/-- A call under way: the loop's counter, and what has happened in it: the attempts begun,
the fingerprint a refusal told, and where its payload was written last (the connection,
and how many requests were on it before). -/
structure Turn where
  call : Call
  attempt : Nat
  tries : Nat
  refused : Option UInt64
  sent : Option (Nat × Nat)

/-- Where the client is. -/
inductive Client where
  | idle
  /-- the head of the loop -/
  | top (t : Turn)
  /-- in `connect_and_hello` -/
  | dialing (t : Turn)
  /-- the hello is written -/
  | greeting (t : Turn) (k : Nat)
  /-- there is a connection -/
  | sending (t : Turn) (k : Nat)
  /-- the payload is written -/
  | waiting (t : Turn) (k : Nat)
  | failed (t : Turn) (e : TransportError)

/-- The whole link: every connection there has been, and the one in `conns`. -/
structure Link (α : Type) where
  conns : List (Conn α)
  pool : Option Nat
  client : Client

def Link.init : Link α := ⟨[], none, .idle⟩

inductive Event (α : Type) where
  | call (c : Call)
  | returned (t : Turn) (res : Except TransportError (List UInt8))
  | handled (k : Nat) (m reply : Message α)
  | other

/-- The error is final at once: a refusal, or any of `verify_peers`. -/
def Turn.Final (t : Turn) (e : TransportError) : Prop :=
  t.call = .verify ∨ t.attempt = 1 ∨ ∃ node ours theirs, e = .fingerprintMismatch node ours theirs

inductive Link.Step (P : Params α) : Link α → Event α → Link α → Prop where
  /-- the server or the network, on some connection -/
  | conn (s : Link α) (k : Nat) (cn cn' : Conn α) (run : Option (Message α × Message α))
    (hk : s.conns[k]? = some cn) (hstep : cn.Step P run cn') :
    Step P s (match run with
      | none => .other
      | some (m, reply) => .handled k m reply) { s with conns := s.conns.set k cn' }
  /-- another client connects -/
  | accept (s : Link α) : Step P s .other { s with conns := s.conns ++ [.opened true []] }
  | call (s : Link α) (c : Call) (h : s.client = .idle) :
    Step P s (.call c) { s with client := .top ⟨c, 0, 0, none, none⟩ }
  -- the loop: a connection is there, or is made
  | pooled (s : Link α) (t : Turn) (k : Nat) (h : s.client = .top t) (hpool : s.pool = some k) :
    Step P s .other { s with client := .sending { t with tries := t.tries + 1 } k }
  | dial (s : Link α) (t : Turn) (h : s.client = .top t) (hpool : s.pool = none) :
    Step P s .other { s with client := .dialing { t with tries := t.tries + 1 } }
  -- `connect_and_hello`
  | unreachable (s : Link α) (t : Turn) (msg : String) (h : s.client = .dialing t) :
    Step P s .other { s with client := .failed t (.io msg) }
  | hello (s : Link α) (t : Turn) (h : s.client = .dialing t) :
    Step P s .other { s with
      conns := s.conns ++ [.opened false (putFrame (encodeHello P.this P.fingerprint))]
      client := .greeting t s.conns.length }
  | helloCut (s : Link α) (t : Turn) (n : Nat) (msg : String) (h : s.client = .dialing t) :
    Step P s .other { s with
      conns := s.conns ++ [.opened false ((putFrame (encodeHello P.this P.fingerprint)).take n)]
      client := .failed t (.io msg) }
  | ackLost (s : Link α) (t : Turn) (k : Nat) (msg : String) (h : s.client = .greeting t k) :
    Step P s .other { s with client := .failed t (.io msg) }
  | ackBad (s : Link α) (t : Turn) (k : Nat) (cn : Conn α) (frame rest : List UInt8)
    (h : s.client = .greeting t k) (hk : s.conns[k]? = some cn)
    (hget : getFrame maxFrame cn.down = some (frame, rest)) (hack : decodeHelloAck frame = none) :
    Step P s .other { s with client := .failed t (.io "bad handshake ack") }
  | ackRefused (s : Link α) (t : Turn) (k : Nat) (cn : Conn α) (frame rest : List UInt8)
    (remote : UInt64) (h : s.client = .greeting t k) (hk : s.conns[k]? = some cn)
    (hget : getFrame maxFrame cn.down = some (frame, rest))
    (hack : decodeHelloAck frame = some (false, remote)) :
    Step P s .other { s with
      client := .failed { t with refused := some remote }
        (.fingerprintMismatch P.node P.fingerprint remote) }
  | ackOk (s : Link α) (t : Turn) (k : Nat) (cn : Conn α) (frame rest : List UInt8)
    (remote : UInt64) (h : s.client = .greeting t k) (hk : s.conns[k]? = some cn)
    (hget : getFrame maxFrame cn.down = some (frame, rest))
    (hack : decodeHelloAck frame = some (true, remote)) :
    Step P s .other { s with
      conns := s.conns.set k { cn with down := rest }, pool := some k, client := .sending t k }
  -- with a connection: `verify_peers` is done, `roundtrip` writes and reads
  | verified (s : Link α) (t : Turn) (k : Nat) (h : s.client = .sending t k)
    (hcall : t.call = .verify) : Step P s (.returned t (.ok [])) { s with client := .idle }
  | write (s : Link α) (t : Turn) (k : Nat) (cn : Conn α) (payload : List UInt8)
    (h : s.client = .sending t k) (hcall : t.call = .roundtrip payload)
    (hk : s.conns[k]? = some cn) :
    Step P s .other { s with
      conns := s.conns.set k { cn.sendUp (putFrame payload) with asked := cn.asked + 1 }
      client := .waiting { t with sent := some (k, cn.asked) } k }
  | writeCut (s : Link α) (t : Turn) (k : Nat) (cn : Conn α) (payload : List UInt8) (n : Nat)
    (msg : String) (h : s.client = .sending t k) (hcall : t.call = .roundtrip payload)
    (hk : s.conns[k]? = some cn) :
    Step P s .other { s with
      conns := s.conns.set k (cn.sendUp ((putFrame payload).take n))
      pool := none, client := .failed t (.io msg) }
  | replyLost (s : Link α) (t : Turn) (k : Nat) (msg : String) (h : s.client = .waiting t k) :
    Step P s .other { s with pool := none, client := .failed t (.io msg) }
  | reply (s : Link α) (t : Turn) (k : Nat) (cn : Conn α) (frame rest : List UInt8)
    (h : s.client = .waiting t k) (hk : s.conns[k]? = some cn)
    (hget : getFrame maxFrame cn.down = some (frame, rest)) :
    Step P s (.returned t (.ok frame)) { s with
      conns := s.conns.set k { cn with down := rest }, client := .idle }
  -- after an error
  | retry (s : Link α) (t : Turn) (e : TransportError) (h : s.client = .failed t e)
    (hnot : ¬ t.Final e) :
    Step P s .other { s with client := .top { t with attempt := t.attempt + 1 } }
  | giveUp (s : Link α) (t : Turn) (e : TransportError) (h : s.client = .failed t e)
    (hfinal : t.Final e) : Step P s (.returned t (.error e)) { s with client := .idle }

/-! ## The handshake, and how often a call tries -/

/-- Where the handler has run, or will, the hello carried the server's fingerprint; before
the hello it has not run. -/
structure Conn.Welcome (P : Params α) (cn : Conn α) : Prop where
  fresh : cn.phase = .hello → cn.served = []
  hello_eq : cn.served ≠ [] ∨ cn.phase = .serving → cn.hello = some P.serverFp

/-- The error of a call says what the call was told: a refusal, with the fingerprint that
came with it, or that there was none. -/
def Turn.Told (P : Params α) (t : Turn) (e : TransportError) : Prop :=
  (∃ msg, e = .io msg ∧ t.refused = none) ∨
    ∃ remote, e = .fingerprintMismatch P.node P.fingerprint remote ∧ t.refused = some remote

/-- Attempts are counted as they begin. A refusal is in hand only where the call fails
with it. -/
def Client.Counted (P : Params α) : Client → Prop
  | .idle => True
  | .top t => t.tries = t.attempt ∧ t.attempt ≤ 1 ∧ t.refused = none
  | .dialing t => t.tries = t.attempt + 1 ∧ t.attempt ≤ 1 ∧ t.refused = none
  | .greeting t _ => t.tries = t.attempt + 1 ∧ t.attempt ≤ 1 ∧ t.refused = none
  | .sending t _ => t.tries = t.attempt + 1 ∧ t.attempt ≤ 1 ∧ t.refused = none
  | .waiting t _ => t.tries = t.attempt + 1 ∧ t.attempt ≤ 1 ∧ t.refused = none
  | .failed t e => t.tries = t.attempt + 1 ∧ t.attempt ≤ 1 ∧ t.Told P e

/-- A call returns after two attempts at most, and with the refusal it was told if any. -/
def Event.Counted (P : Params α) : Event α → Prop
  | .returned t (.ok _) => t.tries ≤ 2 ∧ t.refused = none
  | .returned t (.error e) => t.tries ≤ 2 ∧ t.Told P e
  | _ => True

variable {P : Params α}

@[simp] theorem sendUp_hello (cn : Conn α) (bytes : List UInt8) :
    (cn.sendUp bytes).hello = cn.hello := by
  unfold Conn.sendUp
  split <;> rfl

@[simp] theorem sendUp_served (cn : Conn α) (bytes : List UInt8) :
    (cn.sendUp bytes).served = cn.served := by
  unfold Conn.sendUp
  split <;> rfl

@[simp] theorem sendUp_phase (cn : Conn α) (bytes : List UInt8) :
    (cn.sendUp bytes).phase = cn.phase := by
  unfold Conn.sendUp
  split <;> rfl

@[simp] theorem sendDown_served (cn : Conn α) (bytes : List UInt8) :
    (cn.sendDown bytes).served = cn.served := by
  unfold Conn.sendDown
  split <;> rfl

@[simp] theorem sendDown_hello (cn : Conn α) (bytes : List UInt8) :
    (cn.sendDown bytes).hello = cn.hello := by
  unfold Conn.sendDown
  split <;> rfl

theorem welcome_opened (foreign : Bool) (up : List UInt8) :
    (Conn.opened foreign up : Conn α).Welcome P := by
  refine ⟨fun _ => rfl, ?_⟩
  rintro (h | h)
  · exact absurd rfl h
  · cases h

variable {cn cn' : Conn α} {run : Option (Message α × Message α)} {s s' : Link α} {k : Nat}
  {trace : List (Event α)} {e : Event α} {frame rest : List UInt8} {conns : List (Conn α)}
  {Q : Conn α → Prop}

/-- What leaves the phase, the hello and the runs alone, or drops the connection. -/
theorem Conn.Welcome.congr (h : cn.Welcome P)
    (hphase : cn'.phase = cn.phase ∨ cn'.phase = .closed) (hhello : cn'.hello = cn.hello)
    (hserved : cn'.served = cn.served) : cn'.Welcome P := by
  refine ⟨fun hp => ?_, fun hs => ?_⟩
  · rw [hserved]
    rcases hphase with hsame | hclosed
    · exact h.fresh (hsame ▸ hp)
    · rw [hclosed] at hp
      cases hp
  · rw [hhello]
    rcases hs with hs | hs
    · exact h.hello_eq (.inl (hserved ▸ hs))
    · rcases hphase with hsame | hclosed
      · exact h.hello_eq (.inr (hsame ▸ hs))
      · rw [hclosed] at hs
        cases hs

theorem welcome_greeted (h : cn.Welcome P) (hphase : cn.phase = .hello)
    (frame rest : List UInt8) (n : Nat) : (cn.greeted P frame rest n).Welcome P := by
  have hnone := h.fresh hphase
  unfold Conn.greeted
  split
  next => exact h.congr (.inr rfl) rfl rfl
  next node peerFp _ =>
    refine ⟨fun _ => ?_, fun hs => ?_⟩
    · show (cn.sendDown _).served = []
      rw [sendDown_served, hnone]
    · -- nothing has been served, so it is about to be: the fingerprints agree
      rcases hs with hs | hs
      · exact absurd ((sendDown_served cn _).trans hnone) hs
      · have hserving : (if peerFp = P.serverFp ∧ (putFrame (encodeHelloAck
            (peerFp == P.serverFp) P.serverFp)).length ≤ n then Phase.serving else .closed)
              = .serving := hs
        split at hserving
        next hfp => exact congrArg some hfp.1
        next => cases hserving

/-- **Whatever happens on a connection** keeps it welcome. -/
theorem Conn.Welcome.step
    (h : cn.Welcome P) (hstep : cn.Step P run cn') : cn'.Welcome P := by
  cases hstep with
  | cutUp n => exact h.congr (.inl rfl) rfl rfl
  | cutDown n => exact h.congr (.inl rfl) rfl rfl
  | drop => exact h.congr (.inr rfl) rfl rfl
  | arrive bytes =>
    exact h.congr (.inl (sendUp_phase cn bytes)) (sendUp_hello cn bytes) (sendUp_served cn bytes)
  | greet frame rest n hphase => exact welcome_greeted h hphase frame rest n
  | reject frame rest => exact h.congr (.inr rfl) rfl rfl
  | serve frame rest m reply n hphase =>
    have hhello := h.hello_eq (.inr hphase)
    refine ⟨fun hp => ?_, fun _ => (sendDown_hello cn _).trans hhello⟩
    have hnot : (if (putFrame (reply.encode P.codec)).length ≤ n then Phase.serving else .closed)
        = .hello := hp
    split at hnot
    · cases hnot
    · cases hnot

/-- What holds at the same time of every connection, of the client and of the calls that
have returned. -/
structure Link.Counted (P : Params α) (trace : List (Event α)) (s : Link α) : Prop where
  welcome : ∀ cn ∈ s.conns, cn.Welcome P
  client : s.client.Counted P
  returned : ∀ e ∈ trace, e.Counted P

theorem welcome_set (h : ∀ cn ∈ s.conns, cn.Welcome P)
    (hk : s.conns[k]? = some cn) (hcn : cn.Welcome P → cn'.Welcome P) :
    ∀ c ∈ s.conns.set k cn', c.Welcome P :=
  Lts.forall_set h (hcn (h cn (List.mem_of_getElem? hk))) k

theorem counted_concat
    (h : ∀ e ∈ trace, e.Counted P) (he : e.Counted P) : ∀ e' ∈ trace ++ [e], e'.Counted P :=
  Lts.forall_concat h he

variable {t : Turn} {payload : List UInt8} {j : Nat}

theorem Turn.Told.not_retried {e : TransportError} (h : t.Told P e)
    (hnot : ¬ t.Final e) :
    t.refused = none := by
  obtain ⟨_, _, hnone⟩ | ⟨_, he, _⟩ := h
  · exact hnone
  · exact absurd (.inr (.inr ⟨_, _, _, he⟩)) hnot

/-- **One step** keeps the count of turns and what a refusal says. -/
theorem Link.Counted.step
    (h : s.Counted P trace) (hstep : Link.Step P s e s') : s'.Counted P (trace ++ [e]) := by
  obtain ⟨hconns, hclient, hret⟩ := h
  cases hstep with
  | conn k cn cn' run hk hmove =>
    refine ⟨welcome_set hconns hk fun hcn => hcn.step hmove, hclient, counted_concat hret ?_⟩
    cases run with
    | none => trivial
    | some run => trivial
  | accept =>
    exact ⟨Lts.forall_concat hconns (welcome_opened true []), hclient, counted_concat hret trivial⟩
  | call c hidle => exact ⟨hconns, ⟨rfl, Nat.zero_le _, rfl⟩, counted_concat hret trivial⟩
  | pooled t k htop hpool =>
    rw [htop] at hclient
    obtain ⟨htries, hle, hnone⟩ := hclient
    exact ⟨hconns, ⟨congrArg (· + 1) htries, hle, hnone⟩, counted_concat hret trivial⟩
  | dial t htop hpool =>
    rw [htop] at hclient
    obtain ⟨htries, hle, hnone⟩ := hclient
    exact ⟨hconns, ⟨congrArg (· + 1) htries, hle, hnone⟩, counted_concat hret trivial⟩
  | unreachable t msg hat =>
    rw [hat] at hclient
    obtain ⟨htries, hle, hnone⟩ := hclient
    exact ⟨hconns, ⟨htries, hle, .inl ⟨msg, rfl, hnone⟩⟩, counted_concat hret trivial⟩
  | hello t hat =>
    rw [hat] at hclient
    exact ⟨Lts.forall_concat hconns (welcome_opened false _), hclient, counted_concat hret trivial⟩
  | helloCut t n msg hat =>
    rw [hat] at hclient
    obtain ⟨htries, hle, hnone⟩ := hclient
    exact ⟨Lts.forall_concat hconns (welcome_opened false _),
      ⟨htries, hle, .inl ⟨msg, rfl, hnone⟩⟩, counted_concat hret trivial⟩
  | ackLost t k msg hat =>
    rw [hat] at hclient
    obtain ⟨htries, hle, hnone⟩ := hclient
    exact ⟨hconns, ⟨htries, hle, .inl ⟨msg, rfl, hnone⟩⟩, counted_concat hret trivial⟩
  | ackBad t k cn frame rest hat =>
    rw [hat] at hclient
    obtain ⟨htries, hle, hnone⟩ := hclient
    exact ⟨hconns, ⟨htries, hle, .inl ⟨_, rfl, hnone⟩⟩, counted_concat hret trivial⟩
  | ackRefused t k cn frame rest remote hat =>
    rw [hat] at hclient
    obtain ⟨htries, hle, -⟩ := hclient
    exact ⟨hconns, ⟨htries, hle, .inr ⟨remote, rfl, rfl⟩⟩, counted_concat hret trivial⟩
  | ackOk t k cn frame rest remote hat hk =>
    rw [hat] at hclient
    exact ⟨welcome_set hconns hk fun hcn => hcn.congr (.inl rfl) rfl rfl, hclient,
      counted_concat hret trivial⟩
  | verified t k hat =>
    rw [hat] at hclient
    obtain ⟨htries, hle, hnone⟩ := hclient
    exact ⟨hconns, trivial, counted_concat hret ⟨by omega, hnone⟩⟩
  | write t k cn payload hat _ hk =>
    rw [hat] at hclient
    refine ⟨welcome_set hconns hk fun hcn => ?_, hclient, counted_concat hret trivial⟩
    exact hcn.congr (.inl (sendUp_phase cn _)) (sendUp_hello cn _) (sendUp_served cn _)
  | writeCut t k cn payload n msg hat _ hk =>
    rw [hat] at hclient
    obtain ⟨htries, hle, hnone⟩ := hclient
    refine ⟨welcome_set hconns hk fun hcn => ?_, ⟨htries, hle, .inl ⟨msg, rfl, hnone⟩⟩,
      counted_concat hret trivial⟩
    exact hcn.congr (.inl (sendUp_phase cn _)) (sendUp_hello cn _) (sendUp_served cn _)
  | replyLost t k msg hat =>
    rw [hat] at hclient
    obtain ⟨htries, hle, hnone⟩ := hclient
    exact ⟨hconns, ⟨htries, hle, .inl ⟨msg, rfl, hnone⟩⟩, counted_concat hret trivial⟩
  | reply t k cn frame rest hat hk =>
    rw [hat] at hclient
    obtain ⟨htries, hle, hnone⟩ := hclient
    exact ⟨welcome_set hconns hk fun hcn => hcn.congr (.inl rfl) rfl rfl, trivial,
      counted_concat hret ⟨by omega, hnone⟩⟩
  | retry t err hat hnot =>
    rw [hat] at hclient
    obtain ⟨htries, hle, htold⟩ := hclient
    -- a refusal is final, and so is the second attempt
    have hfirst : t.attempt ≠ 1 := fun h => hnot (.inr (.inl h))
    exact ⟨hconns, ⟨htries, (by omega : t.attempt + 1 ≤ 1), htold.not_retried hnot⟩,
      counted_concat hret trivial⟩
  | giveUp t err hat hfinal =>
    rw [hat] at hclient
    obtain ⟨htries, hle, htold⟩ := hclient
    exact ⟨hconns, trivial, counted_concat hret ⟨by omega, htold⟩⟩

theorem counted_of_run
    (h : Lts.Run (Link.Step P) Link.init trace s) : s.Counted P trace := by
  refine h.trace_inv (I := fun trace s => s.Counted P trace) ?_ ?_
  · exact ⟨fun cn hcn => absurd hcn List.not_mem_nil, trivial,
      fun e he => absurd he List.not_mem_nil⟩
  · exact fun trace s e t hs hstep => hs.step hstep

/-! ## What is under way -/

/-- The frame this event writes is what its length word says. -/
def Event.Short (P : Params α) : Event α → Prop
  | .call (.roundtrip payload) => payload.length < 2 ^ 32
  | .handled _ _ reply => (reply.encode P.codec).length < 2 ^ 32
  | _ => True

/-- Between two calls: the server has answered all that it was asked, and there is nothing
on the streams. -/
structure Conn.Quiet (cn : Conn α) : Prop where
  own : cn.foreign = false
  past : cn.phase ≠ .hello
  up_nil : cn.up = []
  down_nil : cn.down = []
  asked_eq : cn.asked = cn.served.length

/-- After the hello: it is still on its way, or the ack is. -/
structure Conn.Greeting (P : Params α) (cn : Conn α) : Prop where
  own : cn.foreign = false
  asked_eq : cn.asked = 0
  served_nil : cn.served = []
  flight : (cn.phase ≠ .serving ∧ cn.down = [] ∧
      cn.up <+: putFrame (encodeHello P.this P.fingerprint)) ∨
    (cn.phase ≠ .hello ∧ cn.up = [] ∧
      ∃ ok, cn.down <+: putFrame (encodeHelloAck ok P.serverFp))

/-- After the request `payload` has been written, behind `j` others: it is still on its way,
or the answer to it is. -/
structure Conn.Waiting (P : Params α) (payload : List UInt8) (j : Nat) (cn : Conn α) : Prop where
  own : cn.foreign = false
  past : cn.phase ≠ .hello
  asked_eq : cn.asked = j + 1
  flight : (cn.served.length = j ∧ cn.down = [] ∧ cn.up <+: putFrame payload) ∨
    (cn.served.length = j + 1 ∧ cn.up = [] ∧ ∃ m reply, dispatch P.codec payload = some m ∧
      cn.served[j]? = some (m, reply) ∧ (reply.encode P.codec).length < 2 ^ 32 ∧
      cn.down <+: putFrame (reply.encode P.codec))

theorem sendUp_eq (cn : Conn α) (bytes : List UInt8) :
    ∃ up, cn.sendUp bytes = { cn with up } ∧ (cn.up = [] → up <+: bytes) := by
  unfold Conn.sendUp
  split
  · refine ⟨cn.up ++ bytes, rfl, fun hnil => ?_⟩
    rw [hnil]
    exact List.prefix_rfl
  · refine ⟨cn.up, rfl, fun hnil => ?_⟩
    rw [hnil]
    exact List.nil_prefix

theorem sendDown_eq (cn : Conn α) (bytes : List UInt8) :
    ∃ down, cn.sendDown bytes = { cn with down } ∧ (cn.down = [] → down <+: bytes) := by
  unfold Conn.sendDown
  split
  · refine ⟨cn.down ++ bytes, rfl, fun hnil => ?_⟩
    rw [hnil]
    exact List.prefix_rfl
  · refine ⟨cn.down, rfl, fun hnil => ?_⟩
    rw [hnil]
    exact List.nil_prefix

theorem encodeHello_length (node : Nat) (fp : UInt64) : (encodeHello node fp).length = 16 := rfl

theorem encodeHelloAck_length (ok : Bool) (fp : UInt64) : (encodeHelloAck ok fp).length = 16 := rfl

theorem getFrame_nil {limit : Nat} {p : List UInt8 × List UInt8} : getFrame limit [] ≠ some p := by
  rw [getFrame]
  exact fun h => Option.some_ne_none _ h.symm

theorem take_nil_of_eq {bytes : List UInt8} (h : bytes = []) (n : Nat) : bytes.take n = [] := by
  rw [h, List.take_nil]

theorem Conn.Quiet.step
    (h : cn.Quiet) (hstep : cn.Step P run cn') : cn'.Quiet := by
  cases hstep with
  | cutUp n => exact ⟨h.own, h.past, take_nil_of_eq h.up_nil n, h.down_nil, h.asked_eq⟩
  | cutDown n => exact ⟨h.own, h.past, h.up_nil, take_nil_of_eq h.down_nil n, h.asked_eq⟩
  | drop => exact ⟨h.own, nofun, h.up_nil, h.down_nil, h.asked_eq⟩
  | arrive bytes hforeign =>
    rw [h.own] at hforeign
    cases hforeign
  | greet frame rest n hphase => exact absurd hphase h.past
  | reject frame rest _ hget =>
    rw [h.up_nil] at hget
    exact absurd hget getFrame_nil
  | serve frame rest m reply n _ hget =>
    rw [h.up_nil] at hget
    exact absurd hget getFrame_nil

theorem greeting_opened (n : Nat) : (Conn.opened false
    ((putFrame (encodeHello P.this P.fingerprint)).take n) : Conn α).Greeting P :=
  ⟨rfl, rfl, rfl, .inl ⟨nofun, rfl, List.take_prefix ..⟩⟩

/-- The server reads the hello: what is left of the connection is the ack, or a piece. -/
theorem greeting_greeted (h : cn.Greeting P) (hphase : cn.phase = .hello)
    (hget : getFrame maxFrame cn.up = some (frame, rest)) (n : Nat) :
    (cn.greeted P frame rest n).Greeting P := by
  obtain ⟨hown, hasked, hserved, ⟨-, hdown, hup⟩ | ⟨hpast, -⟩⟩ := h
  · obtain ⟨rfl, rfl⟩ := getFrame_of_isPrefix (by rw [encodeHello_length]; decide) hup hget
    unfold Conn.greeted
    split
    next => exact ⟨hown, hasked, hserved, .inl ⟨nofun, hdown, List.nil_prefix⟩⟩
    next node peerFp _ =>
      obtain ⟨down, heq, hpre⟩ := sendDown_eq cn
        ((putFrame (encodeHelloAck (peerFp == P.serverFp) P.serverFp)).take n)
      dsimp only
      rw [heq]
      refine ⟨hown, hasked, hserved, .inr ⟨?_, rfl, _, (hpre hdown).trans (List.take_prefix ..)⟩⟩
      show (if _ then Phase.serving else .closed) ≠ .hello
      split
      · nofun
      · nofun
  · exact absurd hphase hpast

/-- The hello goes up, and then the ack comes down. -/
theorem Conn.Greeting.step
    (h : cn.Greeting P) (hstep : cn.Step P run cn') : cn'.Greeting P := by
  cases hstep with
  | cutUp n =>
    obtain ⟨hown, hasked, hserved, ⟨hphase, hdown, hup⟩ | ⟨hpast, hup, hack⟩⟩ := h
    · exact ⟨hown, hasked, hserved, .inl ⟨hphase, hdown, (List.take_prefix ..).trans hup⟩⟩
    · exact ⟨hown, hasked, hserved, .inr ⟨hpast, take_nil_of_eq hup n, hack⟩⟩
  | cutDown n =>
    obtain ⟨hown, hasked, hserved, ⟨hphase, hdown, hup⟩ | ⟨hpast, hup, ok, hack⟩⟩ := h
    · exact ⟨hown, hasked, hserved, .inl ⟨hphase, take_nil_of_eq hdown n, hup⟩⟩
    · exact ⟨hown, hasked, hserved, .inr ⟨hpast, hup, ok, (List.take_prefix ..).trans hack⟩⟩
  | drop =>
    obtain ⟨hown, hasked, hserved, ⟨-, hdown, hup⟩ | ⟨-, hup, hack⟩⟩ := h
    · exact ⟨hown, hasked, hserved, .inl ⟨nofun, hdown, hup⟩⟩
    · exact ⟨hown, hasked, hserved, .inr ⟨nofun, hup, hack⟩⟩
  | arrive bytes hforeign =>
    rw [h.own] at hforeign
    cases hforeign
  | greet frame rest n hphase hget => exact greeting_greeted h hphase hget n
  | reject frame rest hphase hget =>
    obtain ⟨-, -, -, ⟨hnot, -⟩ | ⟨-, hup, -⟩⟩ := h
    · exact absurd hphase hnot
    · rw [hup] at hget
      exact absurd hget getFrame_nil
  | serve frame rest m reply n hphase hget =>
    obtain ⟨-, -, -, ⟨hnot, -⟩ | ⟨-, hup, -⟩⟩ := h
    · exact absurd hphase hnot
    · rw [hup] at hget
      exact absurd hget getFrame_nil

/-- The ack takes up all that has come down. -/
theorem Conn.Greeting.quiet (h : cn.Greeting P)
    (hget : getFrame maxFrame cn.down = some (frame, rest)) :
    Conn.Quiet { cn with down := rest } := by
  obtain ⟨hown, hasked, hserved, ⟨-, hdown, -⟩ | ⟨hpast, hup, ok, hack⟩⟩ := h
  · rw [hdown] at hget
    exact absurd hget getFrame_nil
  · obtain ⟨-, rfl⟩ := getFrame_of_isPrefix (by rw [encodeHelloAck_length]; decide) hack hget
    refine ⟨hown, hpast, hup, rfl, ?_⟩
    show cn.asked = cn.served.length
    rw [hasked, hserved]
    rfl

theorem Conn.Quiet.waiting (h : cn.Quiet) (payload : List UInt8) :
    Conn.Waiting P payload cn.asked
      { cn.sendUp (putFrame payload) with asked := cn.asked + 1 } := by
  obtain ⟨up, heq, hpre⟩ := sendUp_eq cn (putFrame payload)
  rw [heq]
  exact ⟨h.own, h.past, rfl, .inl ⟨h.asked_eq.symm, h.down_nil, hpre h.up_nil⟩⟩

/-- The server answers: the request it has read is the one that was written. -/
theorem waiting_answered
    (h : cn.Waiting P payload j) (hshort : payload.length < 2 ^ 32)
    {m reply : Message α} (hget : getFrame maxFrame cn.up = some (frame, rest))
    (hreq : dispatch P.codec frame = some m) (hreply : (reply.encode P.codec).length < 2 ^ 32)
    (n : Nat) : (cn.answered P rest m reply n).Waiting P payload j := by
  obtain ⟨hown, -, hasked, ⟨hserved, hdown, hup⟩ | ⟨-, hup, -⟩⟩ := h
  · obtain ⟨rfl, rfl⟩ := getFrame_of_isPrefix hshort hup hget
    obtain ⟨down, heq, hpre⟩ := sendDown_eq cn ((putFrame (reply.encode P.codec)).take n)
    unfold Conn.answered
    dsimp only
    rw [heq]
    refine ⟨hown, ?_, hasked, .inr ⟨?_, rfl, m, reply, hreq, ?_, hreply, ?_⟩⟩
    · show (if _ then Phase.serving else .closed) ≠ .hello
      split
      · nofun
      · nofun
    · show (cn.served ++ [(m, reply)]).length = j + 1
      rw [List.length_append, hserved]
      rfl
    · show (cn.served ++ [(m, reply)])[j]? = some (m, reply)
      rw [← hserved, List.getElem?_concat_length]
    · exact (hpre hdown).trans (List.take_prefix ..)
  · rw [hup] at hget
    exact absurd hget getFrame_nil

/-- **One step of a connection that a call waits on**: what comes down is still a piece of the
answer to what went up. -/
theorem Conn.Waiting.step
    (h : cn.Waiting P payload j)
    (hshort : payload.length < 2 ^ 32) (hstep : cn.Step P run cn')
    (hrun : ∀ m reply, run = some (m, reply) → (reply.encode P.codec).length < 2 ^ 32) :
    cn'.Waiting P payload j := by
  cases hstep with
  | cutUp n =>
    obtain ⟨hown, hpast, hasked, ⟨hserved, hdown, hup⟩ | ⟨hserved, hup, hans⟩⟩ := h
    · exact ⟨hown, hpast, hasked, .inl ⟨hserved, hdown, (List.take_prefix ..).trans hup⟩⟩
    · exact ⟨hown, hpast, hasked, .inr ⟨hserved, take_nil_of_eq hup n, hans⟩⟩
  | cutDown n =>
    obtain ⟨hown, hpast, hasked, ⟨hserved, hdown, hup⟩ |
      ⟨hserved, hup, m, reply, hm, hj, hlen, hans⟩⟩ := h
    · exact ⟨hown, hpast, hasked, .inl ⟨hserved, take_nil_of_eq hdown n, hup⟩⟩
    · exact ⟨hown, hpast, hasked,
        .inr ⟨hserved, hup, m, reply, hm, hj, hlen, (List.take_prefix ..).trans hans⟩⟩
  | drop => exact ⟨h.own, nofun, h.asked_eq, h.flight⟩
  | arrive bytes hforeign =>
    rw [h.own] at hforeign
    cases hforeign
  | greet frame rest n hphase => exact absurd hphase h.past
  | reject frame rest _ hget =>
    obtain ⟨hown, hpast, hasked, ⟨hserved, hdown, hup⟩ | ⟨-, hup, -⟩⟩ := h
    · obtain ⟨-, rfl⟩ := getFrame_of_isPrefix hshort hup hget
      exact ⟨hown, nofun, hasked, .inl ⟨hserved, hdown, List.nil_prefix⟩⟩
    · rw [hup] at hget
      exact absurd hget getFrame_nil
  | serve frame rest m reply n _ hget hreq =>
    exact waiting_answered h hshort hget hreq (hrun m reply rfl) n

/-- **What comes down is the answer**, all of it and nothing else. -/
theorem Conn.Waiting.quiet
    (h : cn.Waiting P payload j)
    (hget : getFrame maxFrame cn.down = some (frame, rest)) :
    Conn.Quiet { cn with down := rest } ∧ ∃ m reply, dispatch P.codec payload = some m ∧
      cn.served[j]? = some (m, reply) ∧ frame = reply.encode P.codec := by
  obtain ⟨hown, hpast, hasked, ⟨-, hdown, -⟩ | ⟨hserved, hup, m, reply, hm, hj, hlen, hans⟩⟩ := h
  · rw [hdown] at hget
    exact absurd hget getFrame_nil
  · obtain ⟨rfl, rfl⟩ := getFrame_of_isPrefix hlen hans hget
    exact ⟨⟨hown, hpast, hup, rfl, hasked.trans hserved.symm⟩, m, reply, hm, hj, rfl⟩

/-! ## The client and its connections -/

/-- Connection `k` is there, and is so. -/
def Has (conns : List (Conn α)) (k : Nat) (Q : Conn α → Prop) : Prop :=
  ∃ cn, conns[k]? = some cn ∧ Q cn

/-- Every connection is still there, with every run of the handler it has had. -/
def Grown (conns conns' : List (Conn α)) : Prop :=
  ∀ k cn, conns[k]? = some cn → Has conns' k fun cn' => cn.served <+: cn'.served

theorem Has.concat (h : Has conns k Q)
    (c : Conn α) : Has (conns ++ [c]) k Q := by
  obtain ⟨cn, hk, hcn⟩ := h
  refine ⟨cn, ?_, hcn⟩
  rw [List.getElem?_append_left (List.getElem?_eq_some_iff.mp hk).1]
  exact hk

theorem has_last (conns : List (Conn α)) {c : Conn α} (h : Q c) :
    Has (conns ++ [c]) conns.length Q :=
  ⟨c, List.getElem?_concat_length, h⟩

theorem Has.set
    (h : Has conns k Q) (hj : conns[j]? = some cn) (hcn : Q cn → Q cn') :
    Has (conns.set j cn') k Q := by
  obtain ⟨c, hk, hc⟩ := h
  by_cases hjk : j = k
  · subst hjk
    obtain rfl : c = cn := Option.some.inj (hk.symm.trans hj)
    exact ⟨cn', List.getElem?_set_self (List.getElem?_eq_some_iff.mp hj).1, hcn hc⟩
  · exact ⟨c, (List.getElem?_set_ne hjk).trans hk, hc⟩

theorem Has.update {Q' : Conn α → Prop}
    (h : Has conns k Q) (hk : conns[k]? = some cn) (hcn : Q cn → Q' cn') :
    Has (conns.set k cn') k Q' := by
  obtain ⟨c, hc, hQ⟩ := h
  obtain rfl : c = cn := Option.some.inj (hc.symm.trans hk)
  exact ⟨cn', List.getElem?_set_self (List.getElem?_eq_some_iff.mp hk).1, hcn hQ⟩

theorem Has.grown {conns' : List (Conn α)}
    (h : Has conns k Q) (hg : Grown conns conns')
    (hQ : ∀ cn cn' : Conn α, cn.served <+: cn'.served → Q cn → Q cn') : Has conns' k Q := by
  obtain ⟨cn, hk, hcn⟩ := h
  obtain ⟨cn', hk', hpre⟩ := hg k cn hk
  exact ⟨cn', hk', hQ cn cn' hpre hcn⟩

theorem grown_refl (conns : List (Conn α)) : Grown conns conns :=
  fun _ cn hk => ⟨cn, hk, List.prefix_rfl⟩

theorem grown_concat (conns : List (Conn α)) (c : Conn α) : Grown conns (conns ++ [c]) :=
  fun _ cn hk => Has.concat ⟨cn, hk, List.prefix_rfl⟩ c

theorem grown_set (hk : conns[k]? = some cn)
    (hserved : cn.served <+: cn'.served) : Grown conns (conns.set k cn') :=
  fun _ c hc => Has.set ⟨c, hc, List.prefix_rfl⟩ hk fun hpre => hpre.trans hserved

theorem Conn.Step.served_prefix
    (h : cn.Step P run cn') : cn.served <+: cn'.served := by
  cases h with
  | cutUp n => exact List.prefix_rfl
  | cutDown n => exact List.prefix_rfl
  | drop => exact List.prefix_rfl
  | arrive bytes =>
    exact sendUp_served .. ▸ List.prefix_rfl
  | greet frame rest n =>
    unfold Conn.greeted
    split
    next => exact List.prefix_rfl
    next =>
      show cn.served <+: (cn.sendDown _).served
      exact sendDown_served .. ▸ List.prefix_rfl
  | reject frame rest => exact List.prefix_rfl
  | serve frame rest m reply n => exact List.prefix_append ..

/-- A step of the link keeps the connections there are. -/
theorem Link.Step.grown (h : Link.Step P s e s') :
    Grown s.conns s'.conns := by
  cases h with
  | conn k cn cn' run hk hmove => exact grown_set hk hmove.served_prefix
  | accept => exact grown_concat _ _
  | call c => exact grown_refl _
  | pooled t k => exact grown_refl _
  | dial t => exact grown_refl _
  | unreachable t msg => exact grown_refl _
  | hello t => exact grown_concat _ _
  | helloCut t n msg => exact grown_concat _ _
  | ackLost t k msg => exact grown_refl _
  | ackBad t k cn frame rest => exact grown_refl _
  | ackRefused t k cn frame rest remote => exact grown_refl _
  | ackOk t k cn frame rest remote _ hk => exact grown_set hk List.prefix_rfl
  | verified t k => exact grown_refl _
  | write t k cn payload _ _ hk =>
    refine grown_set hk ?_
    show cn.served <+: (cn.sendUp _).served
    exact sendUp_served .. ▸ List.prefix_rfl
  | writeCut t k cn payload n msg _ _ hk =>
    refine grown_set hk ?_
    exact sendUp_served .. ▸ List.prefix_rfl
  | replyLost t k msg => exact grown_refl _
  | reply t k cn frame rest _ hk => exact grown_set hk List.prefix_rfl
  | retry t e => exact grown_refl _
  | giveUp t e => exact grown_refl _

/-- The handler's runs of the trace are those that the connections have had. -/
theorem handled_of_run
    (h : Lts.Run (Link.Step P) Link.init trace s) {m reply : Message α}
    (hmem : .handled k m reply ∈ trace) : Has s.conns k fun cn => (m, reply) ∈ cn.served := by
  refine h.trace_inv (I := fun trace s => ∀ k m reply, .handled k m reply ∈ trace →
    Has s.conns k fun cn => (m, reply) ∈ cn.served) ?_ ?_ k m reply hmem
  · exact fun k m reply hmem => absurd hmem List.not_mem_nil
  · intro trace s e s' ih hstep k m reply hmem
    rcases List.mem_append.mp hmem with hmem | hmem
    · exact (ih k m reply hmem).grown hstep.grown fun cn cn' hpre hin => hpre.subset hin
    · obtain rfl := List.mem_singleton.mp hmem
      generalize he : Event.handled k m reply = e at hstep
      cases hstep with
      | conn j cn cn' run hj hmove =>
        cases hmove with
        | serve frame rest m' reply' n =>
          cases he
          refine ⟨_, List.getElem?_set_self (List.getElem?_eq_some_iff.mp hj).1, ?_⟩
          exact List.mem_append_right _ (List.mem_singleton_self _)
        | _ => cases he
      | _ => cases he

def Call.Short : Call → Prop
  | .verify => True
  | .roundtrip payload => payload.length < 2 ^ 32

/-- What is under way on the connection that is kept, by where the client is. After an
error there is none. -/
def Client.InFlight (P : Params α) (conns : List (Conn α)) (pool : Option Nat) : Client → Prop
  | .idle => ∀ k, pool = some k → Has conns k Conn.Quiet
  | .top t => t.call.Short ∧ ∀ k, pool = some k → Has conns k Conn.Quiet
  | .dialing t => t.call.Short ∧ pool = none
  | .greeting t k => t.call.Short ∧ pool = none ∧ Has conns k (Conn.Greeting P)
  | .sending t k => t.call.Short ∧ pool = some k ∧ Has conns k Conn.Quiet
  | .waiting t k => t.call.Short ∧ pool = some k ∧ ∃ payload j, t.call = .roundtrip payload ∧
      t.sent = some (k, j) ∧ Has conns k (Conn.Waiting P payload j)
  | .failed t _ => t.call.Short ∧ pool = none

/-- The frame is what the handler has answered to this very call's payload: to the request
that the call has written last, behind `j` others. -/
def Turn.AnsweredBy (P : Params α) (conns : List (Conn α)) (t : Turn) (frame : List UInt8) : Prop :=
  ∀ payload, t.call = .roundtrip payload → ∃ k j m reply, t.sent = some (k, j) ∧
    dispatch P.codec payload = some m ∧ frame = reply.encode P.codec ∧
    Has conns k fun cn => cn.served[j]? = some (m, reply)

structure Link.Matched (P : Params α) (trace : List (Event α)) (s : Link α) : Prop where
  flight : s.client.InFlight P s.conns s.pool
  returned : ∀ t frame, .returned t (.ok frame) ∈ trace → t.AnsweredBy P s.conns frame

/-- A move of the server or the network. -/
theorem InFlight.conn (h : s.client.InFlight P s.conns s.pool)
    (hk : s.conns[k]? = some cn)
    (hmove : cn.Step P run cn')
    (hrun : ∀ m reply, run = some (m, reply) → (reply.encode P.codec).length < 2 ^ 32) :
    s.client.InFlight P (s.conns.set k cn') s.pool := by
  have hquiet : ∀ j, Has s.conns j Conn.Quiet → Has (s.conns.set k cn') j Conn.Quiet :=
    fun j hj => hj.set hk fun hcn => hcn.step hmove
  rcases hc : s.client with _ | t | t | ⟨t, j⟩ | ⟨t, j⟩ | ⟨t, j⟩ | ⟨t, e⟩
  all_goals rw [hc] at h
  · exact fun j hj => hquiet j (h j hj)
  · exact ⟨h.1, fun j hj => hquiet j (h.2 j hj)⟩
  · exact h
  · exact ⟨h.1, h.2.1, h.2.2.set hk fun hcn => hcn.step hmove⟩
  · exact ⟨h.1, h.2.1, hquiet j h.2.2⟩
  · obtain ⟨hshort, hpool, payload, i, hcall, hsent, hhas⟩ := h
    refine ⟨hshort, hpool, payload, i, hcall, hsent, hhas.set hk fun hcn => ?_⟩
    rw [hcall] at hshort
    exact hcn.step hshort hmove hrun
  · exact h

/-- What had been returned stays the answer it was. -/
theorem Turn.AnsweredBy.grown {conns' : List (Conn α)}
    (h : t.AnsweredBy P conns frame) (hg : Grown conns conns') : t.AnsweredBy P conns' frame := by
  intro payload hcall
  obtain ⟨k, j, m, reply, hsent, hm, hframe, hhas⟩ := h payload hcall
  refine ⟨k, j, m, reply, hsent, hm, hframe, hhas.grown hg ?_⟩
  rintro cn cn' ⟨more, hmore⟩ hj
  rw [← hmore, List.getElem?_append_left (List.getElem?_eq_some_iff.mp hj).1]
  exact hj

theorem matched_concat
    (h : s.Matched P trace) (hstep : Link.Step P s e s')
    (hflight : s'.client.InFlight P s'.conns s'.pool)
    (hret : ∀ t frame, e = .returned t (.ok frame) → t.AnsweredBy P s'.conns frame) :
    s'.Matched P (trace ++ [e]) := by
  refine ⟨hflight, fun t frame hmem => ?_⟩
  rcases List.mem_append.mp hmem with hmem | hmem
  · exact (h.returned t frame hmem).grown hstep.grown
  · exact hret t frame (List.mem_singleton.mp hmem).symm

/-- **One step** keeps every answer that of its own request. -/
theorem Link.Matched.step
    (h : s.Matched P trace) (hstep : Link.Step P s e s') (hshort : e.Short P) :
    s'.Matched P (trace ++ [e]) := by
  have hflight := h.flight
  have hnext := matched_concat h hstep
  cases hstep with
  | conn k cn cn' run hk hmove =>
    refine hnext (InFlight.conn hflight hk hmove ?_) ?_
    · rintro m reply rfl
      exact hshort
    · intro t frame he
      cases run with
      | none => cases he
      | some run => cases he
  -- one connection more: what is under way stays where it is
  | accept =>
    refine hnext ?_ nofun
    show s.client.InFlight P (s.conns ++ _) s.pool
    rcases hc : s.client with _ | t | t | ⟨t, j⟩ | ⟨t, j⟩ | ⟨t, j⟩ | ⟨t, e⟩
    all_goals rw [hc] at hflight
    · exact fun j hj => (hflight j hj).concat _
    · exact ⟨hflight.1, fun j hj => (hflight.2 j hj).concat _⟩
    · exact hflight
    · exact ⟨hflight.1, hflight.2.1, hflight.2.2.concat _⟩
    · exact ⟨hflight.1, hflight.2.1, hflight.2.2.concat _⟩
    · obtain ⟨hshort, hpool, payload, i, hcall, hsent, hhas⟩ := hflight
      exact ⟨hshort, hpool, payload, i, hcall, hsent, hhas.concat _⟩
    · exact hflight
  | call c hidle =>
    rw [hidle] at hflight
    refine hnext ⟨?_, hflight⟩ nofun
    cases c with
    | verify => trivial
    | roundtrip payload => exact hshort
  | pooled t k htop hpool =>
    rw [htop] at hflight
    exact hnext ⟨hflight.1, hpool, hflight.2 k hpool⟩ nofun
  | dial t htop hpool =>
    rw [htop] at hflight
    exact hnext ⟨hflight.1, hpool⟩ nofun
  | unreachable t msg hat =>
    rw [hat] at hflight
    exact hnext hflight nofun
  | hello t hat =>
    rw [hat] at hflight
    refine hnext ⟨hflight.1, hflight.2, has_last _ ?_⟩ nofun
    have hwhole := greeting_opened (P := P) (putFrame (encodeHello P.this P.fingerprint)).length
    rw [List.take_length] at hwhole
    exact hwhole
  | helloCut t n msg hat =>
    rw [hat] at hflight
    exact hnext hflight nofun
  | ackLost t k msg hat =>
    rw [hat] at hflight
    exact hnext ⟨hflight.1, hflight.2.1⟩ nofun
  | ackBad t k cn frame rest hat =>
    rw [hat] at hflight
    exact hnext ⟨hflight.1, hflight.2.1⟩ nofun
  | ackRefused t k cn frame rest remote hat =>
    rw [hat] at hflight
    exact hnext ⟨hflight.1, hflight.2.1⟩ nofun
  | ackOk t k cn frame rest remote hat hk hget =>
    rw [hat] at hflight
    exact hnext ⟨hflight.1, rfl, hflight.2.2.update hk fun hcn => hcn.quiet hget⟩ nofun
  | verified t k hat hcall =>
    rw [hat] at hflight
    refine hnext (fun j hj => ?_) ?_
    · obtain rfl : k = j := Option.some.inj (hflight.2.1.symm.trans hj)
      exact hflight.2.2
    · intro t' frame he payload hround
      cases he
      rw [hcall] at hround
      cases hround
  | write t k cn payload hat hcall hk =>
    rw [hat] at hflight
    refine hnext ⟨hflight.1, hflight.2.1, payload, cn.asked, hcall, rfl, ?_⟩ nofun
    exact hflight.2.2.update hk fun hcn => hcn.waiting payload
  | writeCut t k cn payload n msg hat =>
    rw [hat] at hflight
    exact hnext ⟨hflight.1, rfl⟩ nofun
  | replyLost t k msg hat =>
    rw [hat] at hflight
    exact hnext ⟨hflight.1, rfl⟩ nofun
  -- the one step that returns a reply: the handler's, to this call's request
  | reply t k cn frame rest hat hk hget =>
    rw [hat] at hflight
    obtain ⟨-, hpool, payload, j, hcall, hsent, hhas⟩ := hflight
    refine hnext (fun i hi => ?_) ?_
    · obtain rfl : k = i := Option.some.inj (hpool.symm.trans hi)
      exact hhas.update hk fun hcn => (hcn.quiet hget).1
    · intro t' frame' he payload' hround
      cases he
      cases hcall.symm.trans hround
      obtain ⟨c, hc, hcn⟩ := hhas
      obtain rfl : c = cn := Option.some.inj (hc.symm.trans hk)
      obtain ⟨-, m, reply, hm, hj, hframe⟩ := hcn.quiet hget
      exact ⟨k, j, m, reply, hsent, hm, hframe, _,
        List.getElem?_set_self (List.getElem?_eq_some_iff.mp hk).1, hj⟩
  | retry t err hat =>
    rw [hat] at hflight
    refine hnext ⟨hflight.1, fun k hk => ?_⟩ nofun
    cases hflight.2.symm.trans hk
  | giveUp t err hat =>
    rw [hat] at hflight
    refine hnext (fun k hk => ?_) nofun
    cases hflight.2.symm.trans hk

theorem matched_of_run
    (h : Lts.Run (Link.Step P) Link.init trace s) (hshort : ∀ e ∈ trace, e.Short P) :
    s.Matched P trace := by
  refine h.trace_inv (I := fun trace s => (∀ e ∈ trace, e.Short P) → s.Matched P trace) ?_ ?_ hshort
  · exact fun _ => ⟨fun k hk => (nomatch hk), fun t frame hmem => absurd hmem List.not_mem_nil⟩
  · intro trace s e s' ih hstep hshort
    exact (ih fun e he => hshort e (List.mem_append_left _ he)).step hstep
      (hshort e (List.mem_append_right _ (List.mem_singleton_self _)))

/-! ## A first call -/

/-- A client and a server that agree. -/
def pair : Params (Fin (2 ^ 32)) := ⟨wordCodec, 0, 7, 1, 7⟩

def smallRequest : ExpertRequest (Fin (2 ^ 32)) := ⟨[0], [(1#32).toFin], [(5#32).toFin], 1, 1, 0⟩

def smallPayload : List UInt8 := encodeRequest wordCodec smallRequest

def smallTurn (sent : Option (Nat × Nat)) : Turn := ⟨.roundtrip smallPayload, 0, 1, none, sent⟩

/-- The connection after the handshake. -/
def freshConn : Conn (Fin (2 ^ 32)) := ⟨[], [], true, true, .serving, false, some 7, [], 0⟩

theorem dispatch_smallPayload :
    dispatch wordCodec smallPayload = some (.request smallRequest) := rfl

theorem getFrame_smallPayload :
    getFrame maxFrame (putFrame smallPayload) = some (smallPayload, []) := rfl

/-- A first call, up to the server's answer. -/
theorem run_served {reply : Message (Fin (2 ^ 32))}
    (hreply : Answers (.request smallRequest) reply) :
    Lts.Run (Link.Step pair) Link.init
      [.call (.roundtrip smallPayload), .other, .other, .other, .other, .other,
        .handled 0 (.request smallRequest) reply]
      ⟨[{ freshConn with
          down := putFrame (reply.encode wordCodec)
          served := [(.request smallRequest, reply)]
          asked := 1 }], some 0, .waiting (smallTurn (some (0, 0))) 0⟩ := by
  have h1 := Lts.Run.next .start
    (Link.Step.call (P := pair) Link.init (.roundtrip smallPayload) rfl)
  have h2 := h1.next (.dial _ _ rfl rfl)
  have h3 := h2.next (.hello _ _ rfl)
  have hgreet := Conn.Step.greet (P := pair) (.opened false (putFrame (encodeHello 0 7)))
    (encodeHello 0 7) [] 20 rfl rfl
  have h4 := h3.next (.conn _ 0 _ _ _ rfl hgreet)
  have h5 := h4.next (.ackOk _ (smallTurn none) 0 _ (encodeHelloAck true 7) [] 7 rfl rfl rfl rfl)
  have h6 := h5.next (.write _ (smallTurn none) 0 freshConn smallPayload rfl rfl rfl)
  have hserve := Conn.Step.serve (P := pair)
    { freshConn with up := putFrame smallPayload, asked := 1 } smallPayload [] _ reply
    (putFrame (reply.encode wordCodec)).length rfl getFrame_smallPayload dispatch_smallPayload
      hreply
  have h7 := h6.next (.conn _ 0 _ _ _ rfl hserve)
  unfold Conn.answered at h7
  simp only [pair, Nat.le_refl, if_true, List.take_length] at h7
  exact h7

/-! ## Every run -/

def Client.turn : Client → Option Turn
  | .idle => none
  | .top t | .dialing t | .greeting t _ | .sending t _ | .waiting t _ | .failed t _ => some t

/-- A call that has been told of another fingerprint has failed with that, for good. -/
theorem Client.Counted.refused {c : Client} (h : c.Counted P) (ht : c.turn = some t)
    {remote : UInt64} (href : t.refused = some remote) :
    c = .failed t (.fingerprintMismatch P.node P.fingerprint remote) := by
  cases c with
  | idle => cases ht
  | failed t' e =>
    obtain rfl := Option.some.inj ht
    obtain ⟨-, -, ⟨msg, -, hnone⟩ | ⟨remote', rfl, hsome⟩⟩ := h
    · rw [hnone] at href
      cases href
    · obtain rfl := Option.some.inj (hsome.symm.trans href)
      rfl
  | _ =>
    obtain rfl := Option.some.inj ht
    obtain ⟨-, -, hnone⟩ := h
    rw [hnone] at href
    cases href

/-- What a call returns with: a refusal is returned as such, and nothing else is. -/
theorem Event.Counted.returned {res : Except TransportError (List UInt8)}
    (h : Event.Counted (α := α) P (.returned t res)) : t.tries ≤ 2 ∧ ∀ remote,
      t.refused = some remote ↔
        res = .error (.fingerprintMismatch P.node P.fingerprint remote) := by
  cases res with
  | ok frame =>
    obtain ⟨htries, hnone⟩ := h
    refine ⟨htries, fun remote => ?_⟩
    rw [hnone]
    exact ⟨nofun, nofun⟩
  | error e =>
    obtain ⟨htries, ⟨msg, rfl, hnone⟩ | ⟨remote', rfl, hsome⟩⟩ := h
    · refine ⟨htries, fun remote => ?_⟩
      rw [hnone]
      exact ⟨nofun, nofun⟩
    · refine ⟨htries, fun remote => ?_⟩
      rw [hsome]
      constructor
      · intro h
        rw [Option.some.inj h]
      · intro h
        cases h
        rfl

/-- **Every run of a link.** The handler has run only on connections whose hello carried the
server's fingerprint; a call that is told of another one fails with it at once and returns
it; no call makes more than two attempts. And where every frame is what its length word
says, what `roundtrip` returns is the handler's answer to the request of that very call. -/
theorem link_run (P : Params α) (trace : List (Event α)) (s : Link α)
    (h : Lts.Run (Link.Step P) Link.init trace s) :
    (∀ k m reply, .handled k m reply ∈ trace →
      Has s.conns k fun cn => (m, reply) ∈ cn.served ∧ cn.hello = some P.serverFp) ∧
    (∀ t remote, s.client.turn = some t → t.refused = some remote →
      s.client = .failed t (.fingerprintMismatch P.node P.fingerprint remote) ∧
        t.Final (.fingerprintMismatch P.node P.fingerprint remote)) ∧
    (∀ t res, .returned t res ∈ trace → t.tries ≤ 2 ∧ ∀ remote, t.refused = some remote ↔
      res = .error (.fingerprintMismatch P.node P.fingerprint remote)) ∧
    ((∀ e ∈ trace, e.Short P) → ∀ t frame, .returned t (.ok frame) ∈ trace →
      t.AnsweredBy P s.conns frame) := by
  have hcounted := counted_of_run h
  refine ⟨?_, ?_, ?_, ?_⟩
  · intro k m reply hmem
    obtain ⟨cn, hk, hin⟩ := handled_of_run h hmem
    have hwelcome := hcounted.welcome cn (List.mem_of_getElem? hk)
    exact ⟨cn, hk, hin, hwelcome.hello_eq (.inl (List.ne_nil_of_mem hin))⟩
  · intro t remote ht href
    exact ⟨hcounted.client.refused ht href, .inr (.inr ⟨_, _, _, rfl⟩)⟩
  · intro t res hmem
    exact (hcounted.returned _ hmem).returned
  · intro hshort
    exact (matched_of_run h hshort).returned

end

/-- A run in which a call returns the answer to its request. -/
theorem link_run_served : ∃ trace s t frame, Lts.Run (Link.Step pair) Link.init trace s ∧
    .returned t (.ok frame) ∈ trace ∧ t.AnsweredBy pair s.conns frame := by
  have h7 := @run_served (.response ⟨[5], 1, 1⟩) (.expert smallRequest _)
  have h8 := h7.next (.reply _ _ 0 _ (encodeResponse wordCodec ⟨[5], 1, 1⟩) [] rfl rfl rfl)
  have hsound := (link_run pair _ _ h8).2.2.2
  refine ⟨_, _, _, _, h8, List.mem_append_right _ (List.mem_singleton_self _),
    hsound ?_ _ _ (List.mem_append_right _ (List.mem_singleton_self _))⟩
  intro e he
  simp only [List.cons_append, List.nil_append, List.mem_cons, List.not_mem_nil, or_false] at he
  rcases he with rfl | rfl | rfl | rfl | rfl | rfl | rfl | rfl
  · show smallPayload.length < 2 ^ 32
    decide
  · trivial
  · trivial
  · trivial
  · trivial
  · trivial
  · show (encodeResponse wordCodec ⟨[5], 1, 1⟩).length < 2 ^ 32
    decide
  · trivial

/-! ## An answer that its length word does not tell -/

/-- A response whose frame takes `2 ^ 32 + 12` bytes. -/
def longResponse (outputs : List (Fin (2 ^ 32))) : Message (Fin (2 ^ 32)) :=
  .response ⟨outputs, 2 ^ 15, 2 ^ 15⟩

def longOutputs : List (Fin (2 ^ 32)) := List.replicate (2 ^ 30) (0#32).toFin

theorem longOutputs_eq : longOutputs.length = 2 ^ 30 ∧ ∃ tail, longOutputs = 0 :: tail := by
  refine ⟨List.length_replicate, List.replicate (2 ^ 30 - 1) 0, ?_⟩
  have hsucc : 2 ^ 30 = (2 ^ 30 - 1) + 1 := by decide
  unfold longOutputs
  rw [hsucc]
  exact List.replicate_succ

/-- The word says twelve bytes; the outputs are left on the stream. -/
theorem getFrame_longResponse {outputs : List (Fin (2 ^ 32))} (h : outputs.length = 2 ^ 30) :
    getFrame maxFrame (putFrame ((longResponse outputs).encode wordCodec))
      = some (putWord rspMagic ++ (putWord (2 ^ 15) ++ putWord (2 ^ 15)),
        outputs.flatMap wordCodec.put) := by
  have hlen : ((longResponse outputs).encode wordCodec).length = 2 ^ 32 + 12 := by
    refine (encodeResponse_length wordCodec _).trans ?_
    rw [h]
    decide
  have hword : (2 ^ 32 + 12) % 2 ^ 32 = 12 := by decide
  rw [getFrame, putFrame, getWord_putWord, hlen, hword]
  dsimp only
  rw [if_neg (by decide), if_pos (by rw [hlen]; omega)]
  rfl

theorem getFrame_zero (tail : List UInt8) :
    getFrame maxFrame (putWord 0 ++ tail) = some ([], tail) := rfl

/-- **The rest of a long answer is taken for the answer to the next request**, which has not
even been read: two calls on one connection, the handler has run once, and both return. -/
theorem stale_answer : ∃ trace s t frame, Lts.Run (Link.Step pair) Link.init trace s ∧
    .returned t (.ok frame) ∈ trace ∧ ¬ t.AnsweredBy pair s.conns frame := by
  obtain ⟨hlen, tail, hcons⟩ := longOutputs_eq
  generalize longOutputs = outputs at hlen hcons
  have hfirst := getFrame_longResponse hlen
  rw [hcons, List.flatMap_cons] at hfirst
  have h7 := @run_served (longResponse (0 :: tail)) (.expert smallRequest _)
  have h8 := h7.next (.reply _ _ 0 _ _ _ rfl rfl hfirst)
  have h9 := h8.next (.call _ (.roundtrip smallPayload) rfl)
  have h10 := h9.next (.pooled _ _ 0 rfl rfl)
  have h11 := h10.next (.write _ _ 0 _ smallPayload rfl rfl rfl)
  have h12 := h11.next (.reply _ _ 0 _ [] _ rfl rfl (getFrame_zero _))
  refine ⟨_, _, _, [], h12, List.mem_append_right _ (List.mem_singleton_self _), fun h => ?_⟩
  obtain ⟨k, j, m, reply, hsent, -, -, cn, hk, hj⟩ := h smallPayload rfl
  cases hsent
  cases hk
  cases hj

end Colibri.Cluster
