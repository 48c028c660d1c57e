import Colibri.Generate.Drafting
import Colibri.Serve.Events

/-!
# Serving a request

`handle` answers one request, and the accept loop takes one request after the other. For a
completion the checks are, in order: the body parses and is an object, it has a prompt, the prompt
is not empty and is shorter than the context window, the expert cache makes room for the KV cache,
and the ledger admits its bytes. The first check that fails sends its own error. What was reserved
or committed before it is given back.

What a request does is a list of effects, in order (`Effect`): bytes reserved, committed and given
back, a run of the generator, a reply sent.

> handle_replies: how often a request is answered, and that a client can read each reply
> serve_settles: over all requests, what is reserved and committed is given back, and each run of
> the generator stays within the context window and its cache
> runModel_fitting: one run of the generator
> settles_admitted: one request, from the reservation on

The readings that depend on the rest of the process, and whether the engine's writes to the client
succeed, are given for each request (`Moment`). The figures in the messages come from floats and
are any text here.
-/

namespace Colibri.Serve

open Generate
open Kv.Mamba (KvCache)
open Mtp (Span)
open JsonValue (parse get asI64 asStr asArray asObject write)

/-! ## The prompt -/

def asBool : JsonValue → Option Bool
  | .bool b => some b
  | _ => none

/-- A text member of a message. -/
def field (key default : String) (m : JsonValue) : List Char :=
  ((get key.toList m).bind asStr).getD default.toList

/-- The messages that are objects; the others are passed over. -/
def objects (messages : List JsonValue) : List JsonValue :=
  messages.filter fun m => (asObject m).isSome

/-- The GLM template. -/
def glmChatString (messages : List JsonValue) : List Char :=
  "[gMASK]<sop>".toList ++
    ((objects messages).flatMap fun m =>
      "<|".toList ++ field "role" "user" m ++ "|>".toList ++ field "content" "" m) ++
    "<|assistant|><think></think>".toList

/-- One turn of ChatML. -/
def chatmlTurn (role content : List Char) : List Char :=
  "<|im_start|>".toList ++ role ++ '\n' :: content ++ "<|im_end|>\n".toList

def nemotronChatString (messages : List JsonValue) : List Char :=
  ((objects messages).flatMap fun m => chatmlTurn (field "role" "user" m) (field "content" "" m)) ++
    "<|im_start|>assistant\n<think></think>".toList

def roleTag (r : List Char) : List Char :=
  if r = "system".toList then "system".toList
  else if r = "assistant".toList then "ai".toList
  else "user".toList

/-- One turn of the MiniMax template. -/
def minimaxTurn (tag content : List Char) : List Char :=
  "]~b]".toList ++ tag ++ '\n' :: content ++ "[e~[\n".toList

/-- The first message is an object whose role is `system`. -/
def firstIsSystem (messages : List JsonValue) : Bool :=
  (messages.head?.bind fun m => (get "role".toList m).bind asStr) == some "system".toList

def minimaxSystem : List Char :=
  minimaxTurn "system".toList
    "You are a helpful assistant. Your name is MiniMax-M2.7 and is built by MiniMax.".toList

def minimaxChatString (messages : List JsonValue) : List Char :=
  "]~!b[".toList ++ (if firstIsSystem messages then [] else minimaxSystem) ++
    ((objects messages).flatMap fun m =>
      minimaxTurn (roleTag (field "role" "user" m)) (field "content" "" m)) ++
    "]~b]ai\n".toList

/-- The roles the Maple template has. -/
def mapleRole (r : List Char) : Bool :=
  r == "system".toList || r == "user".toList || r == "assistant".toList

def mapleChatString (messages : List JsonValue) : List Char :=
  (((objects messages).filter fun m => mapleRole (field "role" "user" m)).flatMap fun m =>
      chatmlTurn (field "role" "user" m) (field "content" "" m)) ++
    "<|im_start|>assistant\n<think>\n".toList

/-- What `build_chat_prompt` encodes. -/
def chatString (arch : Arch) (messages : List JsonValue) : List Char :=
  match arch with
  | .minimaxM2 => minimaxChatString messages
  | .nemotronH => nemotronChatString messages
  | .maple => mapleChatString messages
  | _ => glmChatString messages

/-! ## A request -/

/-- What the process serves with. `kvBytes` is `KvCache::bytes_for`, `gib` is `{:.1}` of a number of
bytes over 2^30, and `errText` the text of an error. -/
structure Server (Row F HRow Hid E : Type) where
  encode : List Char → List Int
  tok : Tokenizer
  arch : Arch
  model : Model Row F HRow Hid E
  draftBudget : Nat
  rollbackEnv : Option String
  mkKv : Nat → KvCache Row F HRow
  mkKv_maxT : ∀ n, (mkKv n).maxT = n
  modelId : List Char
  ctxLen : Nat
  kvBytes : Nat → Nat
  gib : Nat → List Char
  errText : E → List Char

inductive Admission where
  | ok
  | tooLarge
  | busy
  deriving DecidableEq

/-- What the rest of the process says to one request: whether the cache makes room, what the ledger
has left and whether it admits, whether the headers of a stream are written, and whether each of
its chunks is. -/
structure Moment where
  room : Bool
  rigid : Nat
  admission : Admission
  headers : Bool
  writes : Nat → Bool

/-- What a request does. -/
inductive Effect (E : Type) where
  | reserve (bytes : Nat)
  | release (bytes : Nat)
  | commit (bytes : Nat)
  | uncommit (bytes : Nat)
  | generate (prompt : List Int) (maxTokens : Nat) (out : Outcome E)
  | send (bytes : List UInt8)

/-- What a request did, and whether it ended in a panic. -/
structure Trace (E : Type) where
  effects : List (Effect E)
  panicked : Bool

section

variable {Row F HRow Hid E : Type}

/-- One reply, and nothing else. -/
def Trace.reply (status : Nat) (body : List Char) : Trace E := ⟨[.send (sendJson status body)], false⟩

/-- Between two effects. -/
def Trace.within (before after : Effect E) (t : Trace E) : Trace E :=
  ⟨before :: t.effects ++ [after], t.panicked⟩

/-- An error whose text is in the source. -/
def badRequest (message : String) : Trace E :=
  .reply 400 (errorBody ('"' :: message.toList ++ ['"']) "invalid_request_error" none)

def defaultMaxTokens : Nat := 128

def requestedMax (obj : JsonValue) : Nat :=
  match (get "max_tokens".toList obj).bind asI64 with
  | some n => (max n 1).toNat
  | none => defaultMaxTokens

def streamMode (obj : JsonValue) : Bool := ((get "stream".toList obj).bind asBool).getD false

/-- A body that asks for a stream. -/
def wantsStream (body : List Char) : Bool := ((parse body).map streamMode).getD false

/-- The tokens of the prompt, or what is missing. -/
def promptIds (srv : Server Row F HRow Hid E) (chat : Bool) (obj : JsonValue) :
    Except String (List Int) :=
  if chat then
    match (get "messages".toList obj).bind asArray with
    | some messages => .ok (srv.encode (chatString srv.arch messages))
    | none => .error "missing 'messages'"
  else
    match (get "prompt".toList obj).bind asStr with
    | some p => .ok (srv.encode p)
    | none => .error "missing 'prompt' (string)"

def tooLongText (ctxLen n : Nat) : List Char :=
  "This model's maximum context length is ".toList ++ digits ctxLen ++
    " tokens, but the prompt is ".toList ++ digits n ++
    " tokens. Shorten the prompt or raise COLI_CTX.".toList

/-- What a 507 says when the cache cannot make room. -/
def noRoomText (n : Nat) (gib : List Char) : List Char :=
  "Prompt too large for this node: ".toList ++ digits n ++ " tokens need ~".toList ++ gib ++
    " GiB of KV cache, which does not fit even after evicting the expert cache. Use a shorter prompt.".toList

/-- What a 507 says when the ledger has not as much. -/
def overBudgetText (n : Nat) (gib rigid : List Char) : List Char :=
  "Prompt too large for this node: ".toList ++ digits n ++ " tokens need ~".toList ++ gib ++
    " GiB of KV cache, but only ~".toList ++ rigid ++
    " GiB is available for requests after the model's own memory. Use a shorter prompt.".toList

/-- What a 503 says. -/
def busyText (gib : List Char) : List Char :=
  "Server busy: this prompt needs ~".toList ++ gib ++
    " GiB of KV cache and other requests did not free it within 30s. Retry shortly.".toList

/-- `format!("cmpl-{}", ..)` -/
def completionId (n maxTokens : Nat) : List Char :=
  "cmpl-".toList ++ digits ((n * 2654435761 % 2 ^ 64).xor maxTokens)

/-! ## Generating -/

/-- `generate_stream`, with a cache for this prompt and this many tokens. -/
def runModel (srv : Server Row F HRow Hid E) (ids : List Int) (maxTokens : Nat)
    (onToken : List Int → Bool) : Outcome E :=
  generateStreamDrafting srv.model srv.rollbackEnv (srv.mkKv (ids.length + maxTokens)) ids maxTokens
    srv.draftBudget onToken

/-- The text of what was generated, how it ended, and how many tokens it is: a stop token at the
end does not count. -/
def completionOf (srv : Server Row F HRow Hid E) (full : List Int) : List Char × Finish × Nat :=
  let hitStop := full.getLast?.any fun t => srv.model.stopIds.contains t
  let cont := if hitStop then full.dropLast else full
  (srv.tok.decode cont, if hitStop then .stop else .length, cont.length)

/-- `block_completion` -/
def blockReply (srv : Server Row F HRow Hid E) (ids : List Int) (maxTokens : Nat)
    (object : List Char) (chat : Bool) : Trace E :=
  let out := runModel srv ids maxTokens fun _ => true
  match out.result with
  | .error .panic => ⟨[.generate ids maxTokens out], true⟩
  | .error (.io e) =>
    ⟨[.generate ids maxTokens out,
      .send (sendJson 500 (errorBody (jstr (srv.errText e)) "internal_error" none))], false⟩
  | .ok _ =>
    let (text, finish, n) := completionOf srv out.tokens
    ⟨[.generate ids maxTokens out,
      .send (sendJson 200 (completionBody (completionId ids.length maxTokens) object srv.modelId chat
        text finish ids.length n))], false⟩

/-- The callback of `stream_completion`, over the tokens so far; none is a panic. -/
def feedAll (tok : Tokenizer) (stopIds : List Int) (ok : Nat → Bool) :
    Stream → List Int → Option (Stream × Bool)
  | s, [] => some (s, true)
  | s, t :: ts =>
    match onToken tok stopIds ok s t with
    | none => none
    | some (s', true) => feedAll tok stopIds ok s' ts
    | some (s', false) => some (s', false)

/-- `stream_completion` -/
def streamReply (srv : Server Row F HRow Hid E) (now : Moment) (ids : List Int) (maxTokens : Nat)
    (object : List Char) (chat : Bool) : Trace E :=
  if now.headers then
    let feed := feedAll srv.tok srv.model.stopIds now.writes {}
    let out := runModel srv ids maxTokens fun ts => ((feed ts).map Prod.snd).getD false
    match feed out.tokens, out.result with
    | none, _ => ⟨[.generate ids maxTokens out], true⟩
    | some _, .error .panic => ⟨[.generate ids maxTokens out], true⟩
    -- an error ends the stream as if it had been long enough
    | some (s, _), _ =>
      ⟨[.generate ids maxTokens out, .send (transcript (completionId ids.length maxTokens) object
        srv.modelId chat s)], false⟩
  else ⟨[], false⟩

/-! ## The gates -/

/-- From the reservation on. -/
def admitted (srv : Server Row F HRow Hid E) (now : Moment) (ids : List Int) (maxTokens : Nat)
    (stream chat : Bool) : Trace E :=
  let kvBytes := srv.kvBytes ids.length
  let object := if chat then "chat.completion".toList else "text_completion".toList
  if now.room then
    Trace.within (.reserve kvBytes) (.release kvBytes)
      (match now.admission with
      | .tooLarge => .reply 507 (errorBody (jstr (overBudgetText ids.length (srv.gib kvBytes)
          (srv.gib now.rigid))) "insufficient_memory" (some "kv_cache_too_large"))
      | .busy => .reply 503 (errorBody (jstr (busyText (srv.gib kvBytes))) "server_busy"
          (some "kv_cache_contended"))
      | .ok =>
        Trace.within (.commit kvBytes) (.uncommit kvBytes)
          (if stream then streamReply srv now ids maxTokens object chat
          else blockReply srv ids maxTokens object chat))
  else
    .reply 507 (errorBody (jstr (noRoomText ids.length (srv.gib kvBytes))) "insufficient_memory"
      (some "kv_cache_too_large"))

def complete (srv : Server Row F HRow Hid E) (now : Moment) (body : List Char) (chat : Bool) :
    Trace E :=
  match parse body with
  | none => badRequest "invalid JSON body"
  | some obj =>
    if (asObject obj).isNone then badRequest "body must be a JSON object"
    else
      match promptIds srv chat obj with
      | .error missing => badRequest missing
      | .ok ids =>
        if ids = [] then badRequest "empty prompt"
        else if srv.ctxLen ≤ ids.length then
          .reply 400 (errorBody (jstr (tooLongText srv.ctxLen ids.length)) "invalid_request_error"
            (some "context_length_exceeded"))
        else
          admitted srv now ids (min (requestedMax obj) (srv.ctxLen - ids.length)) (streamMode obj)
            chat

def handle (srv : Server Row F HRow Hid E) (now : Moment) (req : Request) : Trace E :=
  if req.method = "GET".toList ∧ (req.path = "/".toList ∨ req.path = "/health".toList) then
    .reply 200 (healthBody srv.modelId srv.ctxLen)
  else if req.method = "GET".toList ∧ req.path = "/v1/models".toList then
    .reply 200 (modelsBody srv.modelId srv.ctxLen)
  else if req.method = "POST".toList ∧ req.path = "/v1/completions".toList then
    complete srv now req.body false
  else if req.method = "POST".toList ∧ req.path = "/v1/chat/completions".toList then
    complete srv now req.body true
  else if req.method = "OPTIONS".toList then .reply 204 []
  else .reply 404 (errorBody "\"not found\"".toList "invalid_request_error" none)

/-! ## Every reply is a message -/

/-- What is sent. -/
def Effect.bytes : Effect E → Option (List UInt8)
  | .send bytes => some bytes
  | _ => none

def Trace.sends (t : Trace E) : List (List UInt8) := t.effects.filterMap Effect.bytes

/-- However they are delivered, the bytes are an empty reply, a document whose parse is known,
which is an error if and only if the status is one, or a stream. -/
def Readable (bytes : List UInt8) : Prop :=
  ∀ conn : Connection, conn.bytes = bytes →
    Delivers conn 204 [] ∨
      (∃ status v, Delivers conn status (write v) ∧ parse (write v) = some v ∧
        ((get "error".toList v).isSome ↔ 400 ≤ status)) ∨
      ∃ docs chat text finish, Streamed conn docs chat text finish

/-- The replies of a request: one, and readable. There is none if the request panics, or if the
client is gone before the headers, where the request is for a stream. What a stream sends before it
panics is no reply and is not counted. -/
structure Answers (headers : Bool) (t : Trace E) : Prop where
  atMost : t.sends.length ≤ 1
  atLeast : t.panicked = false → headers = true → 1 ≤ t.sends.length
  readable : ∀ bytes ∈ t.sends, Readable bytes

variable {status : Nat} {r c : Int}

theorem readable_doc {v : JsonValue} (hv : JsonValue.Writable v)
    (herror : (get "error".toList v).isSome ↔ 400 ≤ status) :
    Readable (sendJson status (write v)) :=
  fun _ h => .inr (.inl ⟨status, v, sendJson_delivers h, JsonValue.parse_write hv, herror⟩)

theorem readable_error (hstatus : 400 ≤ status) (message : List Char)
    {type : String} {code : Option String} (htype : Bare type.toList)
    (hcode : ∀ c ∈ code, Bare c.toList) :
    Readable (sendJson status (errorBody (jstr message) type code)) := by
  rw [errorBody_eq message htype hcode]
  refine readable_doc (writable_errorDoc message type code) ⟨fun _ => hstatus, fun _ => ?_⟩
  cases code <;> rfl

theorem readable_success {v : JsonValue} (hv : JsonValue.Writable v)
    (hstatus : status < 400) (hnone : get "error".toList v = none) :
    Readable (sendJson status (write v)) := by
  refine readable_doc hv ⟨fun h => ?_, fun h => absurd hstatus (Nat.not_lt.mpr h)⟩
  rw [hnone] at h
  cases h

variable {now : Moment} {headers : Bool}

theorem answers_send {effects : List (Effect E)} {bytes : List UInt8} {panicked : Bool}
    (hsends : effects.filterMap Effect.bytes = [bytes]) (h : Readable bytes) :
    Answers headers ⟨effects, panicked⟩ := by
  have hone : (Trace.mk effects panicked).sends = [bytes] := hsends
  refine ⟨?_, fun _ _ => ?_, fun b hb => ?_⟩
  · rw [hone]
    exact Nat.le_refl 1
  · rw [hone]
    exact Nat.le_refl 1
  · rw [hone] at hb
    rw [List.mem_singleton.mp hb]
    exact h

theorem answers_none {effects : List (Effect E)} {panicked : Bool}
    (hsends : effects.filterMap Effect.bytes = [])
    (h : panicked = true ∨ headers = false) : Answers headers ⟨effects, panicked⟩ := by
  have hnone : (Trace.mk effects panicked).sends = [] := hsends
  refine ⟨?_, fun hpanic hheaders => ?_, fun b hb => ?_⟩
  · rw [hnone]
    exact Nat.zero_le 1
  · rcases h with htrue | hfalse
    · exact absurd (hpanic.symm.trans htrue) Bool.false_ne_true
    · exact absurd (hfalse.symm.trans hheaders) Bool.false_ne_true
  · rw [hnone] at hb
    exact absurd hb List.not_mem_nil

/-- What is taken and given back around a request sends nothing. -/
theorem Answers.within {before after : Effect E} {t : Trace E} (h : Answers headers t)
    (hbefore : before.bytes = none) (hafter : after.bytes = none) :
    Answers headers (t.within before after) := by
  have hsends : (t.within before after).sends = t.sends := by
    show (before :: t.effects ++ [after]).filterMap Effect.bytes = _
    rw [List.cons_append, List.filterMap_cons, hbefore, List.filterMap_append,
      List.filterMap_cons, hafter, List.filterMap_nil, List.append_nil]
    rfl
  exact ⟨hsends ▸ h.atMost, fun hpanic => hsends ▸ h.atLeast hpanic, hsends ▸ h.readable⟩

theorem answers_badRequest {message : String} (h : Bare message.toList) :
    Answers (E := E) headers (badRequest message) := by
  refine answers_send rfl ?_
  have hquoted : '"' :: message.toList ++ ['"'] = jstr message.toList := (jstr_bare h).symm
  rw [hquoted]
  exact readable_error (by decide) _ (by decide) (by decide)

theorem answers_blockReply (srv : Server Row F HRow Hid E) (ids : List Int) (maxTokens : Nat)
    (object : List Char) (chat : Bool) :
    Answers headers (blockReply srv ids maxTokens object chat) := by
  unfold blockReply
  dsimp only
  split
  next => exact answers_none rfl (.inl rfl)
  next => exact answers_send rfl (readable_error (by decide) _ (by decide) (by decide))
  next =>
    refine answers_send rfl ?_
    rw [completionBody_eq]
    exact readable_success (writable_completionDoc _ _ _ _ _ _ _ _) (by decide) rfl

theorem answers_streamReply (srv : Server Row F HRow Hid E) (ids : List Int) (maxTokens : Nat)
    (object : List Char) (chat : Bool) :
    Answers now.headers (streamReply srv now ids maxTokens object chat) := by
  unfold streamReply
  split
  next =>
    dsimp only
    split
    next => exact answers_none rfl (.inl rfl)
    next => exact answers_none rfl (.inl rfl)
    next =>
      exact answers_send rfl fun conn h => .inr (.inr ⟨_, chat, _, _, transcript_streamed h⟩)
  next hheaders => exact answers_none rfl (.inr (Bool.eq_false_iff.mpr hheaders))

theorem answers_admitted (srv : Server Row F HRow Hid E) (ids : List Int) (maxTokens : Nat)
    (stream chat : Bool) :
    Answers (now.headers || !stream) (admitted srv now ids maxTokens stream chat) := by
  unfold admitted
  dsimp only
  split
  next =>
    refine Answers.within ?_ rfl rfl
    split
    next => exact answers_send rfl (readable_error (by decide) _ (by decide) (by decide))
    next => exact answers_send rfl (readable_error (by decide) _ (by decide) (by decide))
    next =>
      refine Answers.within ?_ rfl rfl
      cases stream with
      | true =>
        rw [Bool.not_true, Bool.or_false, if_pos rfl]
        exact answers_streamReply srv ids maxTokens _ chat
      | false => exact answers_blockReply srv ids maxTokens _ chat
  next => exact answers_send rfl (readable_error (by decide) _ (by decide) (by decide))

theorem promptIds_error {srv : Server Row F HRow Hid E} {chat : Bool} {obj : JsonValue}
    {missing : String} (h : promptIds srv chat obj = .error missing) : Bare missing.toList := by
  unfold promptIds at h
  split at h
  next =>
    split at h
    next => cases h
    next =>
      cases h
      decide
  next =>
    split at h
    next => cases h
    next =>
      cases h
      decide

/-- A request for a completion is answered. -/
theorem answers_complete (srv : Server Row F HRow Hid E) (body : List Char) (chat : Bool) :
    Answers (now.headers || !wantsStream body) (complete srv now body chat) := by
  unfold complete
  split
  next => exact answers_badRequest (by decide)
  next obj hobj =>
    have hwants : wantsStream body = streamMode obj := by
      rw [wantsStream, hobj]
      rfl
    rw [hwants]
    split
    next => exact answers_badRequest (by decide)
    next =>
      split
      next missing hmissing => exact answers_badRequest (promptIds_error hmissing)
      next ids _ =>
        split
        next => exact answers_badRequest (by decide)
        next =>
          split
          next => exact answers_send rfl (readable_error (by decide) _ (by decide) (by decide))
          next => exact answers_admitted srv ids _ _ chat

/-- **Every request is answered, once, and with a message.** -/
theorem handle_replies (srv : Server Row F HRow Hid E) (now : Moment) (req : Request) :
    Answers (now.headers || !wantsStream req.body) (handle srv now req) := by
  unfold handle
  split
  next =>
    refine answers_send rfl ?_
    rw [healthBody_eq]
    exact readable_success (writable_healthDoc _ _) (by decide) rfl
  split
  next =>
    refine answers_send rfl ?_
    rw [modelsBody_eq]
    exact readable_success (writable_modelsDoc _ _) (by decide) rfl
  split
  next => exact answers_complete srv req.body false
  split
  next => exact answers_complete srv req.body true
  split
  next => exact answers_send rfl fun conn h => .inl (sendJson_delivers h)
  next =>
    have hquoted : "\"not found\"".toList = jstr "not found".toList := by decide
    refine answers_send rfl ?_
    rw [hquoted]
    exact readable_error (by decide) _ (by decide) (by decide)

/-- A model that always gives the token 1. -/
def echoModel : Model Unit Nat Unit Unit Unit where
  forward kv ids _ := .ok (ids.map fun _ => (), kv)
  logits _ := [0, 1]
  gt a b := decide (b < a)
  negInf := 0
  stopIds := [2]
  hasMtp := false
  mtp := none

def echoKv (n : Nat) : KvCache Unit Nat Unit where
  maxT := n
  main := .ofRows fun _ => ()
  head := ⟨[], ()⟩

def echoServer : Server Unit Nat Unit Unit Unit where
  encode text := text.map fun _ => 0
  tok := greetTokenizer
  arch := .glmMoeDsa
  model := echoModel
  draftBudget := 0
  rollbackEnv := none
  mkKv := echoKv
  mkKv_maxT _ := rfl
  modelId := "echo".toList
  ctxLen := 8
  kvBytes n := 4 * n
  gib _ := []
  errText _ := []

def calm : Moment := ⟨true, 0, .ok, true, fun _ => true⟩

def promptDoc : JsonValue := .obj [("prompt".toList, .str "Hi".toList)]

def completionRequest : Request := ⟨"POST".toList, "/v1/completions".toList, write promptDoc⟩

/-- The prompt's two tokens leave room for six. -/
theorem handle_completion :
    handle echoServer calm completionRequest = admitted echoServer calm [0, 0] 6 false false := by
  have hwritable : JsonValue.Writable promptDoc := ⟨by decide, trivial, trivial⟩
  have hbody : parse completionRequest.body = some promptDoc := JsonValue.parse_write hwritable
  have hcomplete : handle echoServer calm completionRequest =
      complete echoServer calm completionRequest.body false := rfl
  rw [hcomplete, complete, hbody]
  rfl

/-- A completion on a server whose model repeats its input. -/
theorem handle_replies_echo :
    (handle echoServer calm completionRequest).sends.length = 1 ∧
      Answers (calm.headers || !wantsStream completionRequest.body)
        (handle echoServer calm completionRequest) := by
  refine ⟨?_, handle_replies echoServer calm completionRequest⟩
  rw [handle_completion]
  decide

/-! ## What is generated fits -/

/-- A run of the model for a prompt of `s` tokens, asked for `n` more. -/
structure Fitting (s n : Nat) (out : Outcome E) : Prop where
  tokens : out.tokens.length ≤ n
  spans : ∀ span ∈ out.spans, span.Fits (s + n)

/-- With a cache for all of it, the generator offers no more tokens than it was asked for and writes
no row that is not there. -/
theorem runModel_fitting (srv : Server Row F HRow Hid E) (ids : List Int) (maxTokens : Nat)
    (onToken : List Int → Bool) : Fitting ids.length maxTokens (runModel srv ids maxTokens onToken) := by
  have hcap := srv.mkKv_maxT (ids.length + maxTokens)
  have hprefill : ∀ span ∈ [Span.mk 0 ids.length], span.Fits (ids.length + maxTokens) := by
    intro span hspan
    rw [List.mem_singleton.mp hspan]
    show 0 + ids.length ≤ _
    omega
  unfold runModel generateStreamDrafting
  dsimp only
  split
  next => exact ⟨Nat.zero_le _, fun span hspan => absurd hspan List.not_mem_nil⟩
  next =>
    split
    next => exact ⟨Nat.zero_le _, hprefill⟩
    next hidden main hforward =>
      split
      next => exact ⟨Nat.zero_le _, hprefill⟩
      next hlast hrow =>
        have hstart : Within maxTokens (ids.length + maxTokens)
            (Run.start srv.model (srv.mkKv (ids.length + maxTokens)) main hlast ids.length
              srv.draftBudget) :=
          ⟨hcap, rfl, Nat.zero_le _, Nat.le_refl _, hprefill⟩
        have hrun := within_decodeLoop srv.model
          (main.hasMamba && srv.rollbackEnv.all (· != "0")) onToken maxTokens hstart
          (Nat.le_refl (ids.length + maxTokens))
        refine ⟨?_, hrun.spans⟩
        exact hrun.out ▸ hrun.owed

/-- What an effect does to the bytes that are reserved, and to those that are committed. -/
def Effect.reserved : Effect E → Int
  | .reserve bytes => bytes
  | .release bytes => -bytes
  | _ => 0

def Effect.committed : Effect E → Int
  | .commit bytes => bytes
  | .uncommit bytes => -bytes
  | _ => 0

/-- What is generated has its bytes reserved and committed, and is within the context window. -/
def Effect.Allowed (srv : Server Row F HRow Hid E) (reserved committed : Int) : Effect E → Prop
  | .generate ids n out => reserved = srv.kvBytes ids.length ∧ committed = srv.kvBytes ids.length ∧
      ids ≠ [] ∧ 1 ≤ n ∧ ids.length + n ≤ srv.ctxLen ∧ Fitting ids.length n out
  | _ => True

/-- From so many bytes on, every effect is allowed where it stands, and at the end all is given
back. -/
def Settles (srv : Server Row F HRow Hid E) : Int → Int → List (Effect E) → Prop
  | reserved, committed, [] => reserved = 0 ∧ committed = 0
  | reserved, committed, e :: es => e.Allowed srv reserved committed ∧
      Settles srv (reserved + e.reserved) (committed + e.committed) es

variable {srv : Server Row F HRow Hid E}

theorem Settles.append {es es' : List (Effect E)} (h : Settles srv r c es)
    (h' : Settles srv 0 0 es') : Settles srv r c (es ++ es') := by
  induction es generalizing r c with
  | nil =>
    obtain ⟨hr, hc⟩ := h
    rw [hr, hc]
    exact h'
  | cons e es ih => exact ⟨h.1, ih h.2⟩

/-- Effects that neither take nor give back. -/
theorem Settles.neutral {es rest : List (Effect E)}
    (hes : ∀ e ∈ es, e.reserved = 0 ∧ e.committed = 0 ∧ e.Allowed srv r c)
    (h : Settles srv r c rest) : Settles srv r c (es ++ rest) := by
  induction es with
  | nil => exact h
  | cons e es ih =>
    obtain ⟨hr, hc, hallowed⟩ := hes e List.mem_cons_self
    refine ⟨hallowed, ?_⟩
    rw [hr, hc, Int.add_zero, Int.add_zero]
    exact ih fun x hx => hes x (List.mem_cons_of_mem e hx)

theorem settles_reply (status : Nat) (body : List Char) :
    Settles srv 0 0 (Trace.reply (E := E) status body).effects :=
  ⟨trivial, rfl, rfl⟩

theorem settles_refused {body : List Char} {rest : List (Effect E)}
    (h : Settles srv r c rest) :
    Settles srv r c ((Trace.reply (E := E) status body).effects ++ rest) := by
  refine Settles.neutral (fun e he => ?_) h
  rw [List.mem_singleton.mp he]
  exact ⟨rfl, rfl, trivial⟩

/-- Both endpoints generate for their prompt, and send. -/
theorem allowed_blockReply {ids : List Int} {n : Nat} (object : List Char) (chat : Bool)
    (hgen : ∀ onToken, (Effect.generate ids n (runModel srv ids n onToken)).Allowed srv r c) :
    ∀ e ∈ (blockReply srv ids n object chat).effects,
      e.reserved = 0 ∧ e.committed = 0 ∧ e.Allowed srv r c := by
  intro e he
  unfold blockReply at he
  dsimp only at he
  split at he
  next =>
    rw [List.mem_singleton.mp he]
    exact ⟨rfl, rfl, hgen _⟩
  all_goals
    rcases List.mem_cons.mp he with hgenerate | hsend
    · rw [hgenerate]
      exact ⟨rfl, rfl, hgen _⟩
    · rw [List.mem_singleton.mp hsend]
      exact ⟨rfl, rfl, trivial⟩

/-- A streaming reply does what its run of the generator may. -/
theorem allowed_streamReply {ids : List Int} {n : Nat} (object : List Char)
    (chat : Bool)
    (hgen : ∀ onToken, (Effect.generate ids n (runModel srv ids n onToken)).Allowed srv r c) :
    ∀ e ∈ (streamReply srv now ids n object chat).effects,
      e.reserved = 0 ∧ e.committed = 0 ∧ e.Allowed srv r c := by
  intro e he
  unfold streamReply at he
  split at he
  next =>
    dsimp only at he
    split at he
    next =>
      rw [List.mem_singleton.mp he]
      exact ⟨rfl, rfl, hgen _⟩
    next =>
      rw [List.mem_singleton.mp he]
      exact ⟨rfl, rfl, hgen _⟩
    next =>
      rcases List.mem_cons.mp he with hgenerate | hsend
      · rw [hgenerate]
        exact ⟨rfl, rfl, hgen _⟩
      · rw [List.mem_singleton.mp hsend]
        exact ⟨rfl, rfl, trivial⟩
  next => exact absurd he List.not_mem_nil

/-- Behind the gates, all that is taken is given back, and the prompt fits. -/
theorem settles_admitted {ids : List Int} {n : Nat} (hne : ids ≠ []) (hn : 1 ≤ n)
    (hfits : ids.length + n ≤ srv.ctxLen) (stream chat : Bool) :
    Settles srv 0 0 (admitted srv now ids n stream chat).effects := by
  unfold admitted
  dsimp only
  split
  next =>
    show Settles srv 0 0 (.reserve _ :: _ ++ [.release _])
    refine ⟨trivial, ?_⟩
    show Settles srv (0 + (srv.kvBytes ids.length : Int)) (0 + 0) _
    rw [Int.zero_add, Int.add_zero]
    have hrelease : Settles srv (srv.kvBytes ids.length) 0 [.release (srv.kvBytes ids.length)] :=
      ⟨trivial, Int.add_right_neg _, rfl⟩
    split
    next => exact settles_refused hrelease
    next => exact settles_refused hrelease
    next =>
      have hback : Settles srv (srv.kvBytes ids.length) (srv.kvBytes ids.length)
          [.uncommit (srv.kvBytes ids.length), .release (srv.kvBytes ids.length)] := by
        refine ⟨trivial, ?_⟩
        show Settles srv (_ + 0) (_ + -_) _
        rw [Int.add_zero, Int.add_right_neg]
        exact hrelease
      have hgen : ∀ onToken, (Effect.generate ids n (runModel srv ids n onToken)).Allowed srv
          (srv.kvBytes ids.length) (srv.kvBytes ids.length) :=
        fun onToken => ⟨rfl, rfl, hne, hn, hfits, runModel_fitting srv ids n onToken⟩
      show Settles srv _ _ ((.commit _ :: _ ++ [.uncommit _]) ++ [.release _])
      rw [List.cons_append, List.cons_append, List.append_assoc]
      refine ⟨trivial, ?_⟩
      show Settles srv (_ + 0) (0 + (srv.kvBytes ids.length : Int)) _
      rw [Int.zero_add, Int.add_zero]
      split
      next => exact Settles.neutral (allowed_streamReply _ chat hgen) hback
      next => exact Settles.neutral (allowed_blockReply _ chat hgen) hback
  next => exact settles_reply _ _

theorem requestedMax_pos (obj : JsonValue) : 1 ≤ requestedMax obj := by
  unfold requestedMax
  split
  next n _ => omega
  next => decide

/-- **A completion** gives back what it reserved and committed. -/
theorem settles_complete (body : List Char) (chat : Bool) :
    Settles srv 0 0 (complete srv now body chat).effects := by
  unfold complete
  split
  next => exact settles_reply _ _
  next obj _ =>
    split
    next => exact settles_reply _ _
    next =>
      split
      next => exact settles_reply _ _
      next ids _ =>
        split
        next => exact settles_reply _ _
        next hne =>
          split
          next => exact settles_reply _ _
          next hroom =>
            have hpos := requestedMax_pos obj
            exact settles_admitted hne (by omega) (by omega) _ chat

/-- **A request** gives back what it reserved and committed. -/
theorem settles_handle (now : Moment) (req : Request) :
    Settles srv 0 0 (handle srv now req).effects := by
  unfold handle
  split
  next => exact settles_reply _ _
  split
  next => exact settles_reply _ _
  split
  next => exact settles_complete req.body false
  split
  next => exact settles_complete req.body true
  split
  next => exact settles_reply _ _
  next => exact settles_reply _ _

/-- The accept loop: one request after the other, until one of them panics. -/
def serve (srv : Server Row F HRow Hid E) : List (Moment × Request) → List (Effect E)
  | [] => []
  | (now, req) :: calls =>
    let t := handle srv now req
    if t.panicked then t.effects else t.effects ++ serve srv calls

/-- **No run of the server leaks what it has reserved, or generates past the context window.** -/
theorem serve_settles (srv : Server Row F HRow Hid E) (calls : List (Moment × Request)) :
    Settles srv 0 0 (serve srv calls) := by
  induction calls with
  | nil => exact ⟨rfl, rfl⟩
  | cons call calls ih =>
    obtain ⟨now, req⟩ := call
    rw [serve]
    split
    next => exact settles_handle now req
    next => exact (settles_handle now req).append ih

/-- A completion reserves, commits, generates, sends, and gives back twice. -/
theorem serve_settles_echo :
    (serve echoServer [(calm, completionRequest)]).length = 6 ∧
      Settles echoServer 0 0 (serve echoServer [(calm, completionRequest)]) := by
  refine ⟨?_, serve_settles echoServer [(calm, completionRequest)]⟩
  rw [serve, handle_completion]
  decide

end

end Colibri.Serve
