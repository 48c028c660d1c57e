import Colibri.Lib.EventStream
import Colibri.Serve.Respond

/-!
# Streaming replies

A streamed completion is an event stream: an event for each delta, one that says how it ended,
and `[DONE]`. The data of an event is a JSON text on one line, which it is because a literal
has no control character in it (`write_printable`). A client that reads the stream as events has
the documents that were written, and one that is cut off has the first of them
(`transcript_prefix`).

Put together with the deltas (`Stream`), what the client reads is the text that the blocking
endpoint would have sent, and the same `finish_reason` (`stream_completion_spec`).

* `chunkBody_eq`, `lastBody_eq`: the texts of the events are documents, as formatted.
* `events_streamBody`: the events that a reader finds are these documents and `[DONE]`.
* `content_streamDocs`, `finish_streamDocs`: what a client collects from them.
-/

namespace Colibri.Serve

open JsonValue (write writeMembers writeItems Writable WritableMembers Printable printable_write
  parse_write)
open EventStream (OneLine events events_prefix events_flatMap)

/-! ## The source -/

def objectChunk (chat : Bool) (object : List Char) : List Char :=
  if chat then "chat.completion.chunk".toList else object

/-- What stands before the choice in every chunk. -/
def chunkHead (id chunkObj modelId : List Char) : List Char :=
  '{' :: "\"id\":".toList ++ jstr id ++ ",\"object\":".toList ++ jstr chunkObj ++
    ",\"model\":".toList ++ jstr modelId ++ ",\"choices\":[".toList

/-- The choice of a delta. -/
def deltaText (chat : Bool) (delta : List Char) : List Char :=
  let payload :=
    if chat then '{' :: "\"role\":\"assistant\",\"content\":".toList ++ jstr delta ++ ['}']
    else jstr delta
  let field := if chat then "delta" else "text"
  '{' :: "\"index\":0,\"".toList ++ field.toList ++ "\":".toList ++ payload ++
    ",\"finish_reason\":null".toList ++ ['}']

/-- The choice that says how it ended. -/
def lastText (chat : Bool) (finish : Finish) : List Char :=
  if chat then
    '{' :: "\"index\":0,\"delta\":".toList ++ '{' :: '}' :: ",\"finish_reason\":".toList ++
      jstr finish.str ++ ['}']
  else
    '{' :: "\"index\":0,\"text\":\"\",\"finish_reason\":".toList ++ jstr finish.str ++ ['}']

/-- The chunk of a delta. -/
def chunkBody (id modelId : List Char) (chat : Bool) (delta : List Char) : List Char :=
  let chunkObj := if chat then "chat.completion.chunk".toList else "text_completion".toList
  chunkHead id chunkObj modelId ++ (deltaText chat delta ++ [']', '}'])

/-- The chunk that says how it ended. -/
def lastBody (id object modelId : List Char) (chat : Bool) (finish : Finish) : List Char :=
  chunkHead id (objectChunk chat object) modelId ++ (lastText chat finish ++ [']', '}'])

/-- `write_sse` -/
def sse (data : List Char) : List UInt8 := Utf8.encode ("data: ".toList ++ data ++ ['\n', '\n'])

/-- The headers of a stream. -/
def streamHeaders : List (List Char) :=
  ["Content-Type: text/event-stream".toList ++ crlf, "Cache-Control: no-cache".toList ++ crlf,
    "Connection: close".toList ++ crlf, "Access-Control-Allow-Origin: *".toList ++ crlf]

/-- What `stream_completion` writes, behind the blank line, when it has sent these deltas. -/
def streamBody (id object modelId : List Char) (chat : Bool) (s : Stream) : List UInt8 :=
  s.deltas.flatMap (fun delta => sse (chunkBody id modelId chat delta)) ++
    (sse (lastBody id object modelId chat s.finish) ++ sse "[DONE]".toList)

/-- All that it writes. -/
def transcript (id object modelId : List Char) (chat : Bool) (s : Stream) : List UInt8 :=
  Utf8.encode (statusLine 200 ++ (streamHeaders.flatten ++ crlf)) ++
    streamBody id object modelId chat s

/-! ## The documents -/

def chunkDoc (id chunkObj modelId : List Char) (choice : List (List Char × JsonValue)) :
    JsonValue :=
  .obj [entry "id" (.str id), entry "object" (.str chunkObj), entry "model" (.str modelId),
    entry "choices" (.arr [.obj choice])]

def deltaChoice (chat : Bool) (delta : List Char) : List (List Char × JsonValue) :=
  [entry "index" (count 0),
    if chat then
      entry "delta" (.obj [entry "role" (.str "assistant".toList), entry "content" (.str delta)])
    else entry "text" (.str delta),
    entry "finish_reason" .null]

def lastChoice (chat : Bool) (finish : Finish) : List (List Char × JsonValue) :=
  [entry "index" (count 0),
    if chat then entry "delta" (.obj []) else entry "text" (.str []),
    entry "finish_reason" (.str finish.str)]

/-- The document of a delta. -/
def deltaDoc (id modelId : List Char) (chat : Bool) (delta : List Char) : JsonValue :=
  chunkDoc id (objectChunk chat "text_completion".toList) modelId (deltaChoice chat delta)

/-- The document that says how it ended. -/
def lastDoc (id object modelId : List Char) (chat : Bool) (finish : Finish) : JsonValue :=
  chunkDoc id (objectChunk chat object) modelId (lastChoice chat finish)

/-- The documents of a stream, in order. -/
def streamDocs (id object modelId : List Char) (chat : Bool) (s : Stream) : List JsonValue :=
  s.deltas.map (deltaDoc id modelId chat) ++ [lastDoc id object modelId chat s.finish]

theorem chunkHead_eq (id chunkObj modelId : List Char) (choice : List (List Char × JsonValue)) :
    write (chunkDoc id chunkObj modelId choice) =
      chunkHead id chunkObj modelId ++ (write (.obj choice) ++ [']', '}']) := by
  unfold chunkDoc chunkHead
  generalize JsonValue.obj choice = v
  simp only [write, writeMembers, writeItems, List.append_assoc, List.cons_append, List.nil_append]
  rfl

theorem deltaText_eq (chat : Bool) (delta : List Char) :
    deltaText chat delta = write (.obj (deltaChoice chat delta)) := by
  cases chat with
  | false =>
    show '{' :: "\"index\":0,\"".toList ++ "text".toList ++ "\":".toList ++ jstr delta ++
      ",\"finish_reason\":null".toList ++ ['}'] = write (.obj [entry "index" (count 0),
        entry "text" (.str delta), entry "finish_reason" .null])
    simp only [write, writeMembers, write_count, List.append_assoc, List.cons_append]
    rfl
  | true =>
    show '{' :: "\"index\":0,\"".toList ++ "delta".toList ++ "\":".toList ++
      ('{' :: "\"role\":\"assistant\",\"content\":".toList ++ jstr delta ++ ['}']) ++
      ",\"finish_reason\":null".toList ++ ['}'] = write (.obj [entry "index" (count 0),
        entry "delta" (.obj [entry "role" (.str "assistant".toList), entry "content" (.str delta)]),
        entry "finish_reason" .null])
    simp only [write, writeMembers, write_count, List.append_assoc, List.cons_append,
      List.nil_append]
    rfl

theorem lastText_eq (chat : Bool) (finish : Finish) :
    lastText chat finish = write (.obj (lastChoice chat finish)) := by
  cases chat with
  | false =>
    show '{' :: "\"index\":0,\"text\":\"\",\"finish_reason\":".toList ++ jstr finish.str ++ ['}'] =
      write (.obj [entry "index" (count 0), entry "text" (.str []),
        entry "finish_reason" (.str finish.str)])
    simp only [write, writeMembers, write_count, List.append_assoc, List.cons_append]
    rfl
  | true =>
    show '{' :: "\"index\":0,\"delta\":".toList ++ '{' :: '}' :: ",\"finish_reason\":".toList ++
      jstr finish.str ++ ['}'] = write (.obj [entry "index" (count 0), entry "delta" (.obj []),
        entry "finish_reason" (.str finish.str)])
    simp only [write, writeMembers, write_count, List.append_assoc, List.cons_append,
      List.nil_append]
    rfl

/-- **The event of a delta** is the text of its document. -/
theorem chunkBody_eq (id modelId : List Char) (chat : Bool) (delta : List Char) :
    chunkBody id modelId chat delta = write (deltaDoc id modelId chat delta) := by
  rw [deltaDoc, chunkHead_eq, chunkBody, deltaText_eq]
  rfl

/-- **The event of the end** is the text of its document. -/
theorem lastBody_eq (id object modelId : List Char) (chat : Bool) (finish : Finish) :
    lastBody id object modelId chat finish = write (lastDoc id object modelId chat finish) := by
  rw [lastDoc, chunkHead_eq, lastBody, lastText_eq]

theorem writable_chunkDoc (id chunkObj modelId : List Char)
    {choice : List (List Char × JsonValue)} (h : Writable (.obj choice)) :
    Writable (chunkDoc id chunkObj modelId choice) :=
  writable_obj ["id", "object", "model", "choices"] rfl (by decide)
    ⟨trivial, trivial, trivial, ⟨h, trivial⟩, trivial⟩

theorem writable_deltaChoice (chat : Bool) (delta : List Char) :
    Writable (.obj (deltaChoice chat delta)) := by
  cases chat with
  | false =>
    exact writable_obj ["index", "text", "finish_reason"] rfl (by decide)
      ⟨writable_count 0, trivial, trivial, trivial⟩
  | true =>
    exact writable_obj ["index", "delta", "finish_reason"] rfl (by decide)
      ⟨writable_count 0, writable_obj ["role", "content"] rfl (by decide)
        ⟨trivial, trivial, trivial⟩, trivial, trivial⟩

theorem writable_lastChoice (chat : Bool) (finish : Finish) :
    Writable (.obj (lastChoice chat finish)) := by
  cases chat with
  | false =>
    exact writable_obj ["index", "text", "finish_reason"] rfl (by decide)
      ⟨writable_count 0, trivial, trivial, trivial⟩
  | true =>
    exact writable_obj ["index", "delta", "finish_reason"] rfl (by decide)
      ⟨writable_count 0, ⟨List.nodup_nil, trivial⟩, trivial, trivial⟩

theorem writable_streamDocs (id object modelId : List Char) (chat : Bool) (s : Stream) :
    ∀ v ∈ streamDocs id object modelId chat s, Writable v := by
  intro v hv
  rcases List.mem_append.mp hv with hdelta | hlast
  · obtain ⟨delta, -, rfl⟩ := List.mem_map.mp hdelta
    exact writable_chunkDoc _ _ _ (writable_deltaChoice chat delta)
  · rw [List.mem_singleton.mp hlast]
    exact writable_chunkDoc _ _ _ (writable_lastChoice chat s.finish)

/-! ## The events -/

/-- The data of the events, in order. -/
def payloads (docs : List JsonValue) : List (List Char) := docs.map write ++ ["[DONE]".toList]

theorem oneLine_of_printable {s : List Char} (h : Printable s) : OneLine (Utf8.encode s) := by
  constructor
  · intro hmem
    have hle := h _ (Utf8.mem_encode hmem (by decide))
    exact absurd hle (by decide)
  · intro hmem
    have hle := h _ (Utf8.mem_encode hmem (by decide))
    exact absurd hle (by decide)

theorem sse_eq (data : List Char) : sse data = EventStream.event (Utf8.encode data) := by
  rw [sse, List.append_assoc, Utf8.encode_append, Utf8.encode_append]
  rfl

theorem printable_payloads {docs : List JsonValue} :
    ∀ d ∈ (payloads docs).map Utf8.encode, OneLine d := by
  intro d hd
  obtain ⟨text, htext, rfl⟩ := List.mem_map.mp hd
  refine oneLine_of_printable ?_
  rcases List.mem_append.mp htext with hdoc | hdone
  · obtain ⟨v, -, rfl⟩ := List.mem_map.mp hdoc
    exact printable_write v
  · rw [List.mem_singleton.mp hdone]
    decide

/-- What is written is the documents, each as an event. -/
theorem streamBody_eq (id object modelId : List Char) (chat : Bool) (s : Stream) :
    streamBody id object modelId chat s =
      ((payloads (streamDocs id object modelId chat s)).map Utf8.encode).flatMap
        EventStream.event := by
  simp only [streamBody, payloads, streamDocs, sse_eq, chunkBody_eq, lastBody_eq, List.map_append,
    List.map_map, List.flatMap_append, List.flatMap_map, List.map_cons, List.map_nil,
    List.flatMap_cons, List.flatMap_nil, List.append_nil, List.append_assoc, Function.comp_def]

theorem lossy_map_encode (texts : List (List Char)) :
    (texts.map Utf8.encode).map Utf8.lossy = texts := by
  rw [List.map_map]
  exact List.map_congr_left (fun text _ => Utf8.lossy_encode text) |>.trans (List.map_id texts)

/-- **The events of a stream** are its documents, in order. -/
theorem events_streamBody (id object modelId : List Char) (chat : Bool) (s : Stream) :
    (events (streamBody id object modelId chat s)).map Utf8.lossy =
      payloads (streamDocs id object modelId chat s) := by
  rw [streamBody_eq, events_flatMap printable_payloads, lossy_map_encode]

/-- **A client that is cut off has the first of the events.** -/
theorem events_cut {bs cut : List UInt8} (h : cut <+: bs) {texts : List (List Char)}
    (hall : (events bs).map Utf8.lossy = texts) :
    ∃ k, (events cut).map Utf8.lossy = texts.take k := by
  obtain ⟨more, hmore⟩ := events_prefix h
  refine ⟨(events cut).length, ?_⟩
  have hmap := congrArg (List.map Utf8.lossy) hmore
  rw [List.map_append, hall] at hmap
  rw [← hmap, ← List.length_map Utf8.lossy, List.take_left]

/-! ## What a client makes of it -/

/-- The one choice of a chunk. -/
def choiceOf (v : JsonValue) : Option JsonValue :=
  ((v.get "choices".toList).bind JsonValue.asArray).bind List.head?

/-- What a chunk adds to the text. -/
def contentOf (chat : Bool) (v : JsonValue) : List Char :=
  let said :=
    if chat then
      (((choiceOf v).bind (JsonValue.get "delta".toList)).bind
        (JsonValue.get "content".toList)).bind JsonValue.asStr
    else ((choiceOf v).bind (JsonValue.get "text".toList)).bind JsonValue.asStr
  said.getD []

/-- How the completion ended, if a chunk says so. -/
def finishOf (v : JsonValue) : Option (List Char) :=
  ((choiceOf v).bind (JsonValue.get "finish_reason".toList)).bind JsonValue.asStr

theorem contentOf_deltaDoc (id modelId : List Char) (chat : Bool) (delta : List Char) :
    contentOf chat (deltaDoc id modelId chat delta) = delta ∧
      finishOf (deltaDoc id modelId chat delta) = none := by
  cases chat <;> exact ⟨rfl, rfl⟩

theorem contentOf_lastDoc (id object modelId : List Char) (chat : Bool) (finish : Finish) :
    contentOf chat (lastDoc id object modelId chat finish) = [] ∧
      finishOf (lastDoc id object modelId chat finish) = some finish.str := by
  cases chat <;> exact ⟨rfl, rfl⟩

theorem content_streamDocs (id object modelId : List Char) (chat : Bool) (s : Stream) :
    ((streamDocs id object modelId chat s).map (contentOf chat)).flatten = s.deltas.flatten := by
  have hdeltas : (s.deltas.map (deltaDoc id modelId chat)).map (contentOf chat) = s.deltas := by
    rw [List.map_map]
    exact (List.map_congr_left fun delta _ =>
      (contentOf_deltaDoc id modelId chat delta).1).trans (List.map_id s.deltas)
  rw [streamDocs, List.map_append, hdeltas, List.map_singleton,
    (contentOf_lastDoc id object modelId chat s.finish).1, List.flatten_append]
  exact List.append_nil _

theorem finish_streamDocs (id object modelId : List Char) (chat : Bool) (s : Stream) :
    (streamDocs id object modelId chat s).filterMap finishOf = [s.finish.str] := by
  have hdeltas : (s.deltas.map (deltaDoc id modelId chat)).filterMap finishOf = [] := by
    rw [List.filterMap_eq_nil_iff]
    intro v hv
    obtain ⟨delta, -, rfl⟩ := List.mem_map.mp hv
    exact (contentOf_deltaDoc id modelId chat delta).2
  rw [streamDocs, List.filterMap_append, hdeltas, List.nil_append, List.filterMap_cons,
    (contentOf_lastDoc id object modelId chat s.finish).2]
  rfl

/-! ## How a run ends -/

/-- A token changes the reason only if it is a stop. -/
theorem onToken_finish {tok : Tokenizer} {stopIds : List Int} {ok : Nat → Bool} {s s' : Stream}
    {t : Int} {keep : Bool} (h : onToken tok stopIds ok s t = some (s', keep)) :
    s'.finish = if stopIds.contains t then .stop else s.finish := by
  unfold onToken at h
  split at h
  next hstop =>
    cases h
    rw [if_pos hstop]
  next hstop =>
    rw [if_neg hstop]
    dsimp only at h
    split at h
    next =>
      cases h
      rfl
    next =>
      split at h
      next => cases h
      next =>
        split at h
        next =>
          cases h
          rfl
        next =>
          cases h
          rfl

/-- A stop id ends the run, so it is the last that was delivered. -/
theorem feedTokens_finish {tok : Tokenizer} {stopIds : List Int} {ok : Nat → Bool}
    {s s' : Stream} {ids delivered : List Int} (hok : ∀ n, ok n = true)
    (h : feedTokens tok stopIds ok s ids = some (s', delivered)) :
    s'.finish = if ids.any stopIds.contains then .stop else s.finish := by
  induction ids generalizing s s' delivered with
  | nil =>
    cases h
    rfl
  | cons t ts ih =>
    rw [feedTokens] at h
    split at h
    · cases h
    next s₁ keep hstep =>
      have hkeep := (onToken_grows hstep).2 hok
      subst hkeep
      have hfinish := onToken_finish hstep
      rw [List.any_cons]
      by_cases ht : stopIds.contains t = true
      · rw [ht, if_pos rfl] at hfinish
        rw [ht, Bool.true_or, if_pos rfl] at h ⊢
        cases h
        exact hfinish
      · have ht' := Bool.eq_false_iff.mpr ht
        rw [ht', if_neg Bool.false_ne_true] at hfinish
        rw [ht', Bool.not_true, Bool.or_false, if_neg Bool.false_ne_true] at h
        obtain ⟨r, hr, he⟩ := Option.map_eq_some_iff.mp h
        cases he
        rw [ht', Bool.false_or, ih hr, hfinish]

/-- The blocking endpoint stops for a stop id, wherever it is. -/
theorem blockCompletion_finish (tok : Tokenizer) (stopIds ids : List Int) :
    (blockCompletion tok stopIds ids).2 = if ids.any stopIds.contains then .stop else .length := by
  have hlast : (generated stopIds ids).getLast?.any (fun t => stopIds.contains t) =
      ids.any stopIds.contains := by
    induction ids with
    | nil => rfl
    | cons t ts ih =>
      rw [generated, List.any_cons]
      by_cases ht : stopIds.contains t = true
      · rw [if_pos ht, ht, Bool.true_or]
        exact ht
      · rw [if_neg ht, Bool.eq_false_iff.mpr ht, Bool.false_or, ← ih]
        cases hrest : generated stopIds ts with
        | nil => exact Bool.eq_false_iff.mpr ht
        | cons u us => rw [List.getLast?_cons_cons]
  show (if _ then _ else _) = _
  rw [hlast]

/-! ## The whole reply -/

/-- The headers of a stream are a block. -/
theorem block_streamHeaders (fails : Bool) (after : List UInt8) :
    Block fails (Utf8.encode (streamHeaders.flatten ++ crlf) ++ after) streamHeaders after := by
  have hend : Block fails (Utf8.encode crlf ++ after) [] after :=
    .blank (textLine_crlf (m := []) List.not_mem_nil fails after) (by decide)
  have hline : ∀ {m rest : List Char} {hs : List (List Char)}, '\n' ∉ m → trimEnd (m ++ crlf) ≠ [] →
      Block fails (Utf8.encode rest ++ after) hs after →
      Block fails (Utf8.encode ((m ++ crlf) ++ rest) ++ after) ((m ++ crlf) :: hs) after := by
    intro m rest hs hm hne hrest
    rw [Utf8.encode_append, List.append_assoc]
    exact .line (textLine_crlf hm fails _) hne hrest
  have hflat : streamHeaders.flatten ++ crlf =
      ("Content-Type: text/event-stream".toList ++ crlf) ++
        (("Cache-Control: no-cache".toList ++ crlf) ++ (("Connection: close".toList ++ crlf) ++
          (("Access-Control-Allow-Origin: *".toList ++ crlf) ++ crlf))) := by
    simp only [streamHeaders, List.flatten_cons, List.flatten_nil, List.append_assoc,
      List.nil_append]
  rw [hflat]
  refine hline (m := "Content-Type: text/event-stream".toList) (by decide) (by decide) ?_
  refine hline (m := "Cache-Control: no-cache".toList) (by decide) (by decide) ?_
  refine hline (m := "Connection: close".toList) (by decide) (by decide) ?_
  exact hline (m := "Access-Control-Allow-Origin: *".toList) (by decide) (by decide) hend

/-- What a client has of a streamed reply: the documents of the events up to `[DONE]`, the text
they add up to, and how it ended. If it has only the beginning of the bytes, it has the first of
the events. -/
structure Streamed (conn : Connection) (docs : List JsonValue) (chat : Bool) (text : List Char)
    (finish : Finish) : Prop where
  received : ∃ hs after, Head conn "HTTP/1.1".toList (digits 200) hs after ∧
    (events after).map Utf8.lossy = payloads docs ∧
    ∀ cut, cut <+: after → ∃ k, (events cut).map Utf8.lossy = (payloads docs).take k
  parsed : ∀ v ∈ docs, JsonValue.parse (write v) = some v
  content : (docs.map (contentOf chat)).flatten = text
  finished : docs.filterMap finishOf = [finish.str]

theorem transcript_streamed {conn : Connection} {id object modelId : List Char} {chat : Bool}
    {s : Stream} (h : conn.bytes = transcript id object modelId chat s) :
    Streamed conn (streamDocs id object modelId chat s) chat s.deltas.flatten s.finish := by
  have hbytes : conn.bytes = Utf8.encode (statusLine 200) ++
      (Utf8.encode (streamHeaders.flatten ++ crlf) ++ streamBody id object modelId chat s) := by
    rw [h, transcript, Utf8.encode_append, List.append_assoc]
  have hhead := head_of_block hbytes (block_streamHeaders conn.fails _)
  have hevents := events_streamBody id object modelId chat s
  exact ⟨⟨_, _, hhead, hevents, fun cut hcut => events_cut hcut hevents⟩,
    fun v hv => parse_write (writable_streamDocs id object modelId chat s v hv),
    content_streamDocs id object modelId chat s, finish_streamDocs id object modelId chat s⟩

/-- **A client of the stream reads what the blocking endpoint sends**, as long as no token starts
inside a character. -/
theorem stream_completion_spec (tok : Tokenizer) (stopIds ids : List Int)
    (hcuts : CutsBetweenChars tok (visible stopIds ids)) (id object modelId : List Char)
    (chat : Bool) : ∃ s delivered,
      streamCompletion tok stopIds (fun _ => true) ids = some (s, delivered) ∧
        ∀ conn : Connection, conn.bytes = transcript id object modelId chat s →
          Streamed conn (streamDocs id object modelId chat s) chat
            (blockCompletion tok stopIds ids).1 (blockCompletion tok stopIds ids).2 := by
  rw [← grows_iff] at hcuts
  obtain ⟨s, delivered, hrun, hflat⟩ :=
    feedTokens_of_grows (fun _ => true) (inStep_init tok) hcuts
  refine ⟨s, delivered, hrun, fun conn hconn => ?_⟩
  have htext : s.deltas.flatten = (blockCompletion tok stopIds ids).1 := by
    rw [hflat, blockCompletion_text, feedTokens_delivered (fun _ => rfl) hrun]
    rfl
  have hfinish : s.finish = (blockCompletion tok stopIds ids).2 := by
    rw [blockCompletion_finish, feedTokens_finish (fun _ => rfl) hrun]
  rw [← htext, ← hfinish]
  exact transcript_streamed hconn

/-- Two tokens and a stop token. -/
def greetTokenizer : Tokenizer where
  id2str := [[0x48, 0x69], [0x22, 0x21], []].map some
  idAdded := [true, true, true]
  idAdded_length := rfl

/-- A completion of four tokens, the third of them a stop. -/
theorem stream_greet : ∃ s delivered,
    streamCompletion greetTokenizer [2] (fun _ => true) [0, 1, 2, 0] = some (s, delivered) ∧
      ∀ conn : Connection, conn.bytes = transcript [] [] [] true s →
        Streamed conn (streamDocs [] [] [] true s) true
          (blockCompletion greetTokenizer [2] [0, 1, 2, 0]).1
          (blockCompletion greetTokenizer [2] [0, 1, 2, 0]).2 := by
  have hcuts : CutsBetweenChars greetTokenizer (visible [2] [0, 1, 2, 0]) := by
    rw [← grows_iff]
    show Grows greetTokenizer [] [0, 1]
    exact .cons (by decide) (.cons (by decide) (grows_nil _ _))
  exact stream_completion_spec greetTokenizer [2] [0, 1, 2, 0] hcuts [] [] [] true

end Colibri.Serve
