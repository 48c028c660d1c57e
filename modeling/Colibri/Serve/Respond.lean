import Colibri.Json.Write
import Colibri.Serve.Stream
import Colibri.Serve.Words

/-!
# Replies

`send_json` puts a body behind a status line and headers, one of which is the length of the body
in bytes. A reader of messages that goes by the length gets the body and nothing else, in whatever
pieces the connection delivers it (`sendJson_head`): the headers say nothing that depends
on the request, and digits end no line.

The bodies are put together by formatting, with every text that comes from elsewhere (the model's
name, the completion, an error) as a literal. Each is the text of one JSON document
(`JsonValue.write`), so a client's parser has the document back, whatever these texts are.

`..._eq` takes the text of a body to its document, `writable_...` says that the document can be
written, and `parse_write` does the rest.
-/

namespace Colibri.Serve

open JsonValue (write writeMembers writeItems Writable WritableMembers WritableItems Decimal
  writable_int)
open Lines

/-! ## The reply -/

/-- A number as `format!` writes it. -/
def digits (n : Nat) : List Char := Nat.toDigits 10 n

def reason (status : Nat) : String :=
  match status with
  | 200 => "OK"
  | 204 => "No Content"
  | 400 => "Bad Request"
  | 404 => "Not Found"
  | 500 => "Internal Server Error"
  | _ => "OK"

def crlf : List Char := ['\r', '\n']

def statusLine (status : Nat) : List Char :=
  "HTTP/1.1 ".toList ++ (digits status ++ ' ' :: (reason status).toList) ++ crlf

/-- The headers, for a body of so many bytes. -/
def headerLines (len : Nat) : List (List Char) :=
  ["Content-Type: application/json".toList ++ crlf,
    "Content-Length: ".toList ++ digits len ++ crlf,
    "Access-Control-Allow-Origin: *".toList ++ crlf,
    "Access-Control-Allow-Headers: *".toList ++ crlf,
    "Connection: close".toList ++ crlf]

def sendJson (status : Nat) (body : List Char) : List UInt8 :=
  Utf8.encode (statusLine status ++ ((headerLines (strLen body)).flatten ++ (crlf ++ body)))

/-! ## Bodies -/

/-- The body of `GET /health`. -/
def healthBody (modelId : List Char) (ctxLen : Nat) : List Char :=
  '{' :: "\"status\":\"ok\",\"model\":".toList ++ jstr modelId ++ ",\"max_model_len\":".toList ++
    digits ctxLen ++ ['}']

/-- The body of `GET /v1/models`. -/
def modelsBody (modelId : List Char) (ctxLen : Nat) : List Char :=
  '{' :: "\"object\":\"list\",\"data\":[".toList ++ '{' :: "\"id\":".toList ++ jstr modelId ++
    ",\"object\":\"model\",\"owned_by\":\"colibri\",\"max_model_len\":".toList ++ digits ctxLen ++
    '}' :: ']' :: ['}']

/-- An error: its message as a literal, its type, and its code if it has one. -/
def errorBody (message : List Char) (type : String) (code : Option String) : List Char :=
  '{' :: "\"error\":".toList ++ '{' :: "\"message\":".toList ++ message ++ ",\"type\":\"".toList ++
    type.toList ++
    (match code with
    | none => "\"".toList
    | some code => "\",\"code\":\"".toList ++ code.toList ++ "\"".toList) ++ ['}', '}']

def Finish.str : Finish → List Char
  | .stop => "stop".toList
  | .length => "length".toList

/-- What was said, as a choice of the reply. -/
def choiceBody (chat : Bool) (text : List Char) (finish : Finish) : List Char :=
  if chat then
    '{' :: "\"index\":0,\"message\":".toList ++ '{' :: "\"role\":\"assistant\",\"content\":".toList
      ++ jstr text ++ '}' :: ",\"finish_reason\":".toList ++ jstr finish.str ++ ['}']
  else
    '{' :: "\"index\":0,\"text\":".toList ++ jstr text ++ ",\"finish_reason\":".toList ++
      jstr finish.str ++ ['}']

def usageBody (promptTokens completionTokens : Nat) : List Char :=
  '{' :: "\"prompt_tokens\":".toList ++ digits promptTokens ++ ",\"completion_tokens\":".toList ++
    digits completionTokens ++ ",\"total_tokens\":".toList ++
    digits (promptTokens + completionTokens) ++ ['}']

/-- What `block_completion` sends: the text, how it ended, and how many tokens it took. -/
def completionBody (id object modelId : List Char) (chat : Bool) (text : List Char)
    (finish : Finish) (promptTokens completionTokens : Nat) : List Char :=
  '{' :: "\"id\":".toList ++ jstr id ++ ",\"object\":".toList ++ jstr object ++
    ",\"model\":".toList ++ jstr modelId ++ ",\"choices\":[".toList ++ choiceBody chat text finish ++
    "],\"usage\":".toList ++ usageBody promptTokens completionTokens ++ ['}']

/-! ## The documents -/

/-- A member of an object. -/
abbrev entry (key : String) (v : JsonValue) : List Char × JsonValue := (key.toList, v)

def count (n : Nat) : JsonValue := .num (.ofInt n)

def healthDoc (modelId : List Char) (ctxLen : Nat) : JsonValue :=
  .obj [entry "status" (.str "ok".toList), entry "model" (.str modelId),
    entry "max_model_len" (count ctxLen)]

def modelsDoc (modelId : List Char) (ctxLen : Nat) : JsonValue :=
  .obj [entry "object" (.str "list".toList), entry "data" (.arr [.obj [entry "id" (.str modelId),
    entry "object" (.str "model".toList), entry "owned_by" (.str "colibri".toList),
    entry "max_model_len" (count ctxLen)]])]

def errorDoc (message : List Char) (type : String) (code : Option String) : JsonValue :=
  .obj [entry "error" (.obj (entry "message" (.str message) :: entry "type" (.str type.toList) ::
    (code.map fun code => entry "code" (.str code.toList)).toList))]

def choiceDoc (chat : Bool) (text : List Char) (finish : Finish) : JsonValue :=
  .obj [entry "index" (count 0),
    if chat then
      entry "message" (.obj [entry "role" (.str "assistant".toList), entry "content" (.str text)])
    else entry "text" (.str text),
    entry "finish_reason" (.str finish.str)]

def usageDoc (promptTokens completionTokens : Nat) : JsonValue :=
  .obj [entry "prompt_tokens" (count promptTokens),
    entry "completion_tokens" (count completionTokens),
    entry "total_tokens" (count (promptTokens + completionTokens))]

def completionDoc (id object modelId : List Char) (chat : Bool) (text : List Char)
    (finish : Finish) (promptTokens completionTokens : Nat) : JsonValue :=
  .obj [entry "id" (.str id), entry "object" (.str object), entry "model" (.str modelId),
    entry "choices" (.arr [choiceDoc chat text finish]),
    entry "usage" (usageDoc promptTokens completionTokens)]

/-! ## Bodies are documents -/

theorem write_count (n : Nat) : write (count n) = digits n := by
  show Safetensors.intText
    (if decide ((n : Int) < 0) = true then -((n : Int).natAbs : Int) else ((n : Int).natAbs : Int)) = _
  rw [if_neg (by simp)]
  rfl

theorem healthBody_eq (modelId : List Char) (ctxLen : Nat) :
    healthBody modelId ctxLen = write (healthDoc modelId ctxLen) := by
  unfold healthBody healthDoc
  simp only [write, writeMembers, write_count, List.append_assoc, List.cons_append]
  rfl

theorem modelsBody_eq (modelId : List Char) (ctxLen : Nat) :
    modelsBody modelId ctxLen = write (modelsDoc modelId ctxLen) := by
  unfold modelsBody modelsDoc
  simp only [write, writeMembers, writeItems, write_count, List.append_assoc, List.cons_append,
    List.nil_append]
  rfl

/-- A text that needs no escape is between quotes as it is. -/
def Bare (text : List Char) : Prop := text.flatMap jstrChar = text

instance (text : List Char) : Decidable (Bare text) := inferInstanceAs (Decidable (_ = _))

theorem jstr_bare {text : List Char} (h : Bare text) : jstr text = '"' :: (text ++ ['"']) := by
  rw [jstr, h]

theorem errorBody_eq (message : List Char) {type : String} {code : Option String}
    (htype : Bare type.toList) (hcode : ∀ c ∈ code, Bare c.toList) :
    errorBody (jstr message) type code = write (errorDoc message type code) := by
  unfold errorBody errorDoc
  cases code with
  | none =>
    simp only [write, writeMembers, Option.map_none, Option.toList_none, jstr_bare htype,
      List.append_assoc, List.cons_append, List.nil_append]
    rfl
  | some c =>
    simp only [write, writeMembers, Option.map_some, Option.toList_some, jstr_bare htype,
      jstr_bare (hcode c rfl), List.append_assoc, List.cons_append, List.nil_append]
    rfl

theorem choiceBody_eq (chat : Bool) (text : List Char) (finish : Finish) :
    choiceBody chat text finish = write (choiceDoc chat text finish) := by
  unfold choiceBody choiceDoc
  cases chat with
  | false =>
    rw [if_neg Bool.false_ne_true, if_neg Bool.false_ne_true]
    simp only [write, writeMembers, write_count, List.append_assoc, List.cons_append]
    rfl
  | true =>
    rw [if_pos rfl, if_pos rfl]
    simp only [write, writeMembers, write_count, List.append_assoc, List.cons_append,
      List.nil_append]
    rfl

theorem usageBody_eq (promptTokens completionTokens : Nat) :
    usageBody promptTokens completionTokens = write (usageDoc promptTokens completionTokens) := by
  unfold usageBody usageDoc
  simp only [write, writeMembers, write_count, List.append_assoc, List.cons_append]
  rfl

/-- **The body of a completion** is its document. -/
theorem completionBody_eq (id object modelId : List Char) (chat : Bool) (text : List Char)
    (finish : Finish) (promptTokens completionTokens : Nat) :
    completionBody id object modelId chat text finish promptTokens completionTokens =
      write (completionDoc id object modelId chat text finish promptTokens completionTokens) := by
  unfold completionBody completionDoc
  rw [choiceBody_eq, usageBody_eq]
  simp only [write, writeMembers, writeItems, List.append_assoc, List.cons_append]
  rfl

/-! ## Documents are read -/

theorem writable_count (n : Nat) : Writable (count n) := writable_int n

theorem writable_obj {ms : List (List Char × JsonValue)} (keys : List String)
    (hkeys : ms.map Prod.fst = keys.map String.toList) (hnodup : (keys.map String.toList).Nodup)
    (h : WritableMembers ms) : Writable (.obj ms) :=
  ⟨hkeys ▸ hnodup, h⟩

theorem writable_healthDoc (modelId : List Char) (ctxLen : Nat) :
    Writable (healthDoc modelId ctxLen) :=
  writable_obj ["status", "model", "max_model_len"] rfl (by decide)
    ⟨trivial, trivial, writable_count ctxLen, trivial⟩

theorem writable_modelsDoc (modelId : List Char) (ctxLen : Nat) :
    Writable (modelsDoc modelId ctxLen) := by
  have hmodel := writable_obj ["id", "object", "owned_by", "max_model_len"]
    (show [entry "id" (.str modelId), entry "object" (.str "model".toList),
      entry "owned_by" (.str "colibri".toList), entry "max_model_len" (count ctxLen)].map Prod.fst =
        _ from rfl) (by decide) ⟨trivial, trivial, trivial, writable_count ctxLen, trivial⟩
  exact writable_obj ["object", "data"] rfl (by decide) ⟨trivial, ⟨hmodel, trivial⟩, trivial⟩

theorem writable_errorDoc (message : List Char) (type : String) (code : Option String) :
    Writable (errorDoc message type code) := by
  refine writable_obj ["error"] rfl (by decide) ⟨?_, trivial⟩
  cases code with
  | none => exact writable_obj ["message", "type"] rfl (by decide) ⟨trivial, trivial, trivial⟩
  | some c =>
    exact writable_obj ["message", "type", "code"] rfl (by decide)
      ⟨trivial, trivial, trivial, trivial⟩

theorem writable_choiceDoc (chat : Bool) (text : List Char) (finish : Finish) :
    Writable (choiceDoc chat text finish) := by
  cases chat with
  | false =>
    exact writable_obj ["index", "text", "finish_reason"] rfl (by decide)
      ⟨writable_count 0, trivial, trivial, trivial⟩
  | true =>
    exact writable_obj ["index", "message", "finish_reason"] rfl (by decide)
      ⟨writable_count 0, writable_obj ["role", "content"] rfl (by decide)
        ⟨trivial, trivial, trivial⟩, trivial, trivial⟩

theorem writable_usageDoc (promptTokens completionTokens : Nat) :
    Writable (usageDoc promptTokens completionTokens) :=
  writable_obj ["prompt_tokens", "completion_tokens", "total_tokens"] rfl (by decide)
    ⟨writable_count _, writable_count _, writable_count _, trivial⟩

theorem writable_completionDoc (id object modelId : List Char) (chat : Bool) (text : List Char)
    (finish : Finish) (promptTokens completionTokens : Nat) :
    Writable (completionDoc id object modelId chat text finish promptTokens completionTokens) :=
  writable_obj ["id", "object", "model", "choices", "usage"] rfl (by decide)
    ⟨trivial, trivial, trivial, ⟨writable_choiceDoc chat text finish, trivial⟩,
      writable_usageDoc promptTokens completionTokens, trivial⟩

/-! ## Bytes and lines -/

theorem textLine_newline {m : List Char} (h : '\n' ∉ m) (fails : Bool) (rest : List UInt8) :
    TextLine fails (Utf8.encode (m ++ ['\n']) ++ rest) (m ++ ['\n']) rest := by
  refine ⟨rfl, .inl ⟨Utf8.encode m, fun hmem => h (Utf8.mem_encode hmem (by decide)), ?_⟩⟩
  rw [Utf8.encode_append]
  rfl

/-! ## What is sent is what is read -/

theorem encode_length (s : List Char) : (Utf8.encode s).length = strLen s := by
  induction s with
  | nil => rfl
  | cons c s ih =>
    have hcons : Utf8.encode (c :: s) = String.utf8EncodeChar c ++ Utf8.encode s := rfl
    rw [hcons, List.length_append, String.length_utf8EncodeChar, ih, strLen_cons]

theorem newline_notMem_digits (n : Nat) : '\n' ∉ digits n := by
  intro hmem
  have hdigit := toDigits_isDigit n _ hmem
  cases hdigit

theorem digits_last (n : Nat) : ∃ c, (digits n).getLast? = some c ∧ isWhitespace c = false := by
  have hne : digits n ≠ [] := Nat.toDigits_ne_nil
  exact ⟨_, List.getLast?_eq_some_getLast hne,
    isWhitespace_of_isDigit (toDigits_isDigit n _ (List.getLast_mem hne))⟩

theorem trimEnd_crlf {w : List Char} {c : Char} (hlast : w.getLast? = some c)
    (hc : isWhitespace c = false) : trimEnd (w ++ crlf) = w :=
  trimEnd_word hlast hc (List.all_eq_true.mp (show crlf.all isWhitespace = true from rfl))

theorem trimEnd_length (len : Nat) :
    trimEnd ("Content-Length: ".toList ++ digits len ++ crlf) =
      "Content-Length: ".toList ++ digits len := by
  obtain ⟨c, hc, hblank⟩ := digits_last len
  refine trimEnd_crlf (c := c) ?_ hblank
  rw [List.getLast?_append, hc]
  rfl

theorem trim_blank_digits (n : Nat) : trim (' ' :: digits n) = digits n := by
  have hblank : ∀ c ∈ digits n, isWhitespace c = false :=
    fun c hc => isWhitespace_of_isDigit (toDigits_isDigit n c hc)
  have hfront : trimStart (' ' :: digits n) = digits n := by
    have h := trimStart_word (w := digits n) Nat.toDigits_ne_nil hblank []
    rw [List.append_nil] at h
    have hdrop : trimStart (' ' :: digits n) = trimStart (digits n) :=
      List.dropWhile_cons_of_pos (by decide)
    rw [hdrop, h]
  obtain ⟨c, hc, hlast⟩ := digits_last n
  have hback := trimEnd_word hc hlast (fun c hc => absurd hc (List.not_mem_nil (a := c)))
  rw [List.append_nil] at hback
  rw [trim, hfront, hback]

theorem lengthField_length (len : Nat) :
    lengthField ("Content-Length: ".toList ++ digits len) = some (digits len) := by
  have hsplit : splitOnce ':' ("Content-Length: ".toList ++ digits len) =
      some ("Content-Length".toList, ' ' :: digits len) := rfl
  have hname : (trim "Content-Length".toList).map Char.toLower = "content-length".toList := by
    decide
  rw [lengthField, hsplit]
  dsimp only
  rw [if_pos hname, trim_blank_digits]

/-- **The length that is declared is the one that is written.** -/
theorem declared_headerLines (len : Nat) : declared (headerLines len) = len := by
  have htype : lengthField (trimEnd ("Content-Type: application/json".toList ++ crlf)) = none := by
    decide
  have horigin :
      lengthField (trimEnd ("Access-Control-Allow-Origin: *".toList ++ crlf)) = none := by
    decide
  have hheaders :
      lengthField (trimEnd ("Access-Control-Allow-Headers: *".toList ++ crlf)) = none := by
    decide
  have hclose : lengthField (trimEnd ("Connection: close".toList ++ crlf)) = none := by decide
  have hfields : (headerLines len).filterMap (fun h => lengthField (trimEnd h)) = [digits len] := by
    simp only [headerLines, List.filterMap_cons, List.filterMap_nil, htype, horigin, hheaders,
      hclose, trimEnd_length, lengthField_length]
  rw [declared, hfields]
  show ((number (digits len)).getD 0) = len
  rw [digits, number_toDigits]
  rfl

/-- A line that ends where its text does. -/
theorem textLine_crlf {m : List Char} (h : '\n' ∉ m) (fails : Bool) (rest : List UInt8) :
    TextLine fails (Utf8.encode (m ++ crlf) ++ rest) (m ++ crlf) rest := by
  have hcut : m ++ crlf = (m ++ ['\r']) ++ ['\n'] := by
    rw [List.append_assoc]
    rfl
  rw [hcut]
  refine textLine_newline ?_ fails rest
  intro hmem
  rcases List.mem_append.mp hmem with hm | hcr
  · exact h hm
  · exact absurd hcr (by decide)

theorem block_crlf {m rest : List Char} {fails : Bool} {hs : List (List Char)}
    {after : List UInt8} (h : '\n' ∉ m) (hne : trimEnd (m ++ crlf) ≠ [])
    (hrest : Block fails (Utf8.encode rest) hs after) :
    Block fails (Utf8.encode ((m ++ crlf) ++ rest)) ((m ++ crlf) :: hs) after := by
  rw [Utf8.encode_append]
  exact .line (textLine_crlf h fails _) hne hrest

/-- The headers of a reply are a block. -/
theorem block_headerLines (fails : Bool) (len : Nat) (body : List Char) :
    Block fails (Utf8.encode ((headerLines len).flatten ++ (crlf ++ body))) (headerLines len)
      (Utf8.encode body) := by
  have hlength : '\n' ∉ "Content-Length: ".toList ++ digits len := by
    intro hmem
    rcases List.mem_append.mp hmem with hname | hdigits
    · exact absurd hname (by decide)
    · exact newline_notMem_digits len hdigits
  have hend : Block fails (Utf8.encode (crlf ++ body)) [] (Utf8.encode body) := by
    rw [Utf8.encode_append]
    exact .blank (textLine_crlf (m := []) List.not_mem_nil fails _) (by decide)
  have hflat : (headerLines len).flatten ++ (crlf ++ body) =
      ("Content-Type: application/json".toList ++ crlf) ++
        (("Content-Length: ".toList ++ digits len ++ crlf) ++
          (("Access-Control-Allow-Origin: *".toList ++ crlf) ++
            (("Access-Control-Allow-Headers: *".toList ++ crlf) ++
              (("Connection: close".toList ++ crlf) ++ (crlf ++ body))))) := by
    simp only [headerLines, List.flatten_cons, List.flatten_nil, List.append_assoc,
      List.nil_append]
  rw [hflat]
  refine block_crlf (m := "Content-Type: application/json".toList) (by decide) (by decide) ?_
  refine block_crlf hlength (by rw [trimEnd_length]; exact List.cons_ne_nil _ _) ?_
  refine block_crlf (m := "Access-Control-Allow-Origin: *".toList) (by decide) (by decide) ?_
  refine block_crlf (m := "Access-Control-Allow-Headers: *".toList) (by decide) (by decide) ?_
  exact block_crlf (m := "Connection: close".toList) (by decide) (by decide) hend

/-- `conn` delivers a reply with this status and this body, and says how long it is. -/
def Delivers (conn : Connection) (status : Nat) (body : List Char) : Prop :=
  ∃ hs, Head conn "HTTP/1.1".toList (digits status) hs (Utf8.encode body) ∧
    declared hs = (Utf8.encode body).length

theorem nextWord_version (rest : List Char) :
    nextWord ("HTTP/1.1 ".toList ++ rest) = some ("HTTP/1.1".toList, ' ' :: rest) := by
  have hword : ∀ c ∈ ['H', 'T', 'T', 'P', '/', '1', '.', '1'], isWhitespace c = false := by
    intro c hc
    have hall : ['H', 'T', 'T', 'P', '/', '1', '.', '1'].all (fun c => !isWhitespace c) = true :=
      rfl
    simpa using List.all_eq_true.mp hall c hc
  exact nextWord_word (List.cons_ne_nil _ _) hword (fun c hc => by cases hc; rfl)

/-- The status line, and whatever comes behind it. -/
theorem head_of_block {conn : Connection} {status : Nat} {rest after : List UInt8}
    {hs : List (List Char)} (hbytes : conn.bytes = Utf8.encode (statusLine status) ++ rest)
    (hblock : Block conn.fails rest hs after) :
    Head conn "HTTP/1.1".toList (digits status) hs after := by
  have hreason : '\n' ∉ (reason status).toList := by
    unfold reason
    split
    all_goals decide
  have hline : '\n' ∉ "HTTP/1.1 ".toList ++ (digits status ++ ' ' :: (reason status).toList) := by
    intro hmem
    rcases List.mem_append.mp hmem with hversion | hmem
    · exact absurd hversion (by decide)
    rcases List.mem_append.mp hmem with hdigits | hmem
    · exact newline_notMem_digits status hdigits
    rcases List.mem_cons.mp hmem with hblank | hmem
    · cases hblank
    · exact hreason hmem
  have hstatus : nextWord (' ' :: (digits status ++ ' ' :: ((reason status).toList ++ crlf))) =
      some (digits status, ' ' :: ((reason status).toList ++ crlf)) := by
    rw [nextWord_blank]
    exact nextWord_word Nat.toDigits_ne_nil
      (fun c hc => isWhitespace_of_isDigit (toDigits_isDigit status c hc))
      (fun c hc => by cases hc; rfl)
  have hwords : statusLine status = "HTTP/1.1 ".toList ++
      (digits status ++ ' ' :: ((reason status).toList ++ crlf)) := by
    unfold statusLine
    generalize (reason status).toList = text
    simp only [List.append_assoc, List.cons_append]
  have hfirst : TextLine conn.fails conn.bytes (statusLine status) rest := by
    rw [hbytes]
    exact textLine_crlf hline conn.fails rest
  refine ⟨_, _, _, _, hfirst, ?_, hstatus, hblock⟩
  rw [hwords]
  exact nextWord_version _

/-- **A reply is taken apart as it was put together**, in whatever pieces it comes. -/
theorem sendJson_delivers {conn : Connection} {status : Nat} {body : List Char}
    (h : conn.bytes = sendJson status body) : Delivers conn status body := by
  have hbytes : conn.bytes = Utf8.encode (statusLine status) ++
      Utf8.encode ((headerLines (strLen body)).flatten ++ (crlf ++ body)) := by
    rw [h, sendJson, Utf8.encode_append]
  refine ⟨headerLines (strLen body),
    head_of_block hbytes (block_headerLines conn.fails (strLen body) body), ?_⟩
  rw [declared_headerLines, encode_length]

end Colibri.Serve
