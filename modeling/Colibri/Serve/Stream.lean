import Colibri.Tokenizer.Decode
import Mathlib.Algebra.Order.Ring.Nat

/-!
# Streaming a completion

`stream_completion` decodes the whole continuation after every token and sends
the part past what it already sent; `block_completion` decodes once at the end.
The streaming side measures "what it already sent" in bytes of *text*, and
slices the new text there.

Decoding is lossy, so the text of a growing id list need not grow: a character
whose bytes are spread over two tokens is U+FFFD (three bytes) until its last
byte arrives. If the finished character is longer, the slice lands inside it
and panics; if it is as long, the client keeps the U+FFFD.

* `onToken` is the callback, `feedTokens` the generator calling it.
* `StreamsText` is the contract: no panic, and the deltas add up to the block
  text.
* `streams_text_iff`: the contract holds exactly when no token of the visible
  continuation starts inside a character.

The invariant is `InStep`: what was sent is the decoding of the ids so far. One
callback keeps it as long as the text grows (`onToken_inStep`), and the deltas
never shrink (`feedTokens_grows`), which is what makes the condition necessary.
-/

namespace Colibri.Serve

open Colibri.Utf8 (Splits)

/-! ## Text measured in bytes -/

/-- `str::len`: the UTF-8 length of a text. -/
def strLen (s : List Char) : Nat := (s.map Char.utf8Size).sum

/-- `&s[n..]`: none stands for the panic on an offset that is past the end or
not a character boundary. -/
def sliceFrom : List Char → Nat → Option (List Char)
  | s, 0 => some s
  | [], _ + 1 => none
  | c :: s, n + 1 => if c.utf8Size ≤ n + 1 then sliceFrom s (n + 1 - c.utf8Size) else none

theorem strLen_append (a b : List Char) : strLen (a ++ b) = strLen a + strLen b := by
  simp only [strLen, List.map_append, List.sum_append]

theorem strLen_cons (c : Char) (s : List Char) : strLen (c :: s) = c.utf8Size + strLen s := rfl

theorem strLen_eq_zero {s : List Char} (h : strLen s = 0) : s = [] := by
  cases s with
  | nil => rfl
  | cons c s =>
    have := Char.utf8Size_pos c
    rw [strLen_cons] at h
    omega

theorem sliceFrom_strLen (a b : List Char) : sliceFrom (a ++ b) (strLen a) = some b := by
  induction a with
  | nil =>
    cases b <;> rfl
  | cons c a ih =>
    obtain ⟨k, hk⟩ : ∃ k, strLen (c :: a) = k + 1 := by
      have := Char.utf8Size_pos c
      exact ⟨strLen (c :: a) - 1, by rw [strLen_cons]; omega⟩
    have hk' : k + 1 - c.utf8Size = strLen a := by
      rw [← hk, strLen_cons]
      omega
    rw [hk, List.cons_append, sliceFrom, if_pos (by rw [← hk, strLen_cons]; omega), hk', ih]

/-! ## The two endpoints -/

/-- The `finish_reason` of a completion. -/
inductive Finish where
  | length
  | stop
  deriving Repr, DecidableEq

/-- What the streaming callback carries from token to token, and the deltas it
handed to the connection. -/
structure Stream where
  outIds : List Int := []
  sent : List Char := []
  deltas : List (List Char) := []
  finish : Finish := .length
  deriving Repr, DecidableEq

/-- The callback of `stream_completion`: the new state and whether to go on, or
none where the slice panics. `ok n` says whether the `n`-th write reaches the
client. -/
def onToken (tok : Tokenizer) (stopIds : List Int) (ok : Nat → Bool) (s : Stream) (t : Int) :
    Option (Stream × Bool) :=
  if stopIds.contains t then some ({ s with finish := .stop }, true)
  else
    let outIds := s.outIds ++ [t]
    let full := tok.decode outIds
    if strLen full ≤ strLen s.sent then some ({ s with outIds := outIds }, true)
    else
      match sliceFrom full (strLen s.sent) with
      | none => none
      | some delta =>
        let s' := { s with outIds := outIds, deltas := s.deltas ++ [delta] }
        if ok s.deltas.length then some ({ s' with sent := full }, true)
        else some (s', false)

/-- The generator: ids go to the callback until it refuses one or a stop id has
been delivered. Returns the ids delivered. -/
def feedTokens (tok : Tokenizer) (stopIds : List Int) (ok : Nat → Bool) :
    Stream → List Int → Option (Stream × List Int)
  | s, [] => some (s, [])
  | s, t :: ts =>
    match onToken tok stopIds ok s t with
    | none => none
    | some (s', keep) =>
      if stopIds.contains t || !keep then some (s', [t])
      else (feedTokens tok stopIds ok s' ts).map (fun r => (r.1, t :: r.2))

/-- The streaming endpoint, on the ids the model would emit. -/
def streamCompletion (tok : Tokenizer) (stopIds : List Int) (ok : Nat → Bool) (ids : List Int) :
    Option (Stream × List Int) :=
  feedTokens tok stopIds ok {} ids

/-- The ids a run that nobody interrupts generates: up to and including the
first stop id. -/
def generated (stopIds : List Int) : List Int → List Int
  | [] => []
  | t :: ts => if stopIds.contains t then [t] else t :: generated stopIds ts

/-- The blocking endpoint: a trailing stop id is dropped from the visible text. -/
def blockCompletion (tok : Tokenizer) (stopIds : List Int) (ids : List Int) :
    List Char × Finish :=
  let full := generated stopIds ids
  let hitStop := full.getLast?.any (fun t => stopIds.contains t)
  let cont := if hitStop then full.dropLast else full
  (tok.decode cont, if hitStop then .stop else .length)

/-- **The streaming contract**: whichever writes succeed, the callback never
panics and the deltas it sent are the text the blocking endpoint gives for the
ids delivered. -/
def StreamsText (tok : Tokenizer) (stopIds ids : List Int) : Prop :=
  ∀ ok, ∃ s delivered, streamCompletion tok stopIds ok ids = some (s, delivered) ∧
    s.deltas.flatten = (blockCompletion tok stopIds delivered).1

/-- The ids before the first stop id. -/
def visible (stopIds ids : List Int) : List Int := ids.takeWhile (fun t => !stopIds.contains t)

/-- No token starts strictly inside a character (other than U+FFFD) of the
decoded text. -/
def CutsBetweenChars (tok : Tokenizer) (ids : List Int) : Prop :=
  ∀ before after, ids = before ++ after →
    ¬ Splits (tok.decodeBytes ids) (tok.decodeBytes before).length

/-! ## The blocking side -/

variable {stopIds ids : List Int} {t : Int} {s s' : Stream} {tok : Tokenizer} {ok : Nat → Bool}

theorem visible_cons_stop (ts : List Int)
    (h : stopIds.contains t = true) : visible stopIds (t :: ts) = [] := by
  rw [visible, List.takeWhile_cons_of_neg (by rw [h]; exact Bool.false_ne_true)]

theorem visible_cons (ts : List Int)
    (h : stopIds.contains t = false) : visible stopIds (t :: ts) = t :: visible stopIds ts := by
  rw [visible, List.takeWhile_cons_of_pos (by rw [h]; rfl), visible]

/-- The generated ids are the visible ones, then at most the stop id that ended
the run. -/
theorem generated_eq (stopIds ids : List Int) :
    generated stopIds ids = visible stopIds ids ∨
      ∃ t, stopIds.contains t = true ∧ generated stopIds ids = visible stopIds ids ++ [t] := by
  induction ids with
  | nil => exact Or.inl rfl
  | cons t ts ih =>
    by_cases ht : stopIds.contains t = true
    · exact Or.inr ⟨t, ht, by rw [generated, if_pos ht, visible_cons_stop ts ht]; rfl⟩
    · rw [generated, if_neg ht, visible_cons ts (Bool.eq_false_iff.mpr ht)]
      rcases ih with h | ⟨u, hu, h⟩
      · exact Or.inl (by rw [h])
      · exact Or.inr ⟨u, hu, by rw [h, List.cons_append]⟩

theorem visible_last
    (h : (visible stopIds ids).getLast? = some t) : stopIds.contains t = false := by
  have hm : t ∈ ids.takeWhile (fun t => !stopIds.contains t) := List.mem_of_getLast? h
  have hp := List.all_eq_true.mp (List.all_takeWhile (l := ids)) t hm
  simpa only [Bool.not_eq_true'] using hp

/-- The block text is the decoding of the visible ids. -/
theorem blockCompletion_text (tok : Tokenizer) (stopIds ids : List Int) :
    (blockCompletion tok stopIds ids).1 = tok.decode (visible stopIds ids) := by
  rcases generated_eq stopIds ids with h | ⟨t, ht, h⟩
  · have hlast : (visible stopIds ids).getLast?.any (fun t => stopIds.contains t) = false := by
      cases hl : (visible stopIds ids).getLast? with
      | none => rfl
      | some t => exact visible_last hl
    simp only [blockCompletion, h, hlast, Bool.false_eq_true, if_false]
  · have hlast : (visible stopIds ids ++ [t]).getLast?.any (fun t => stopIds.contains t)
      = true := by
      rw [List.getLast?_concat]
      exact ht
    simp only [blockCompletion, h, hlast, if_true, List.dropLast_concat]

/-! ## One callback -/

/-- The client has the text of the ids so far, and the server knows it. -/
structure InStep (tok : Tokenizer) (s : Stream) : Prop where
  sent_eq : s.sent = tok.decode s.outIds
  deltas_eq : s.deltas.flatten = tok.decode s.outIds

theorem inStep_init (tok : Tokenizer) : InStep tok {} := ⟨rfl, rfl⟩

theorem eq_of_prefix_of_strLen_le {a b : List Char} (h : a <+: b) (hle : strLen b ≤ strLen a) :
    b = a := by
  obtain ⟨d, rfl⟩ := h
  rw [strLen_append] at hle
  rw [strLen_eq_zero (s := d) (by omega), List.append_nil]

/-- **One callback**: while the text grows, a visible id sends exactly the new
text, and the invariant survives a successful write. -/
theorem onToken_inStep
    (ok : Nat → Bool) (hs : InStep tok s) (ht : stopIds.contains t = false)
    (hgrow : tok.decode s.outIds <+: tok.decode (s.outIds ++ [t])) :
    ∃ s' keep, onToken tok stopIds ok s t = some (s', keep) ∧ s'.outIds = s.outIds ++ [t] ∧
      s'.deltas.flatten = tok.decode s'.outIds ∧ (keep = true → InStep tok s') := by
  have hlen : strLen s.sent = strLen (tok.decode s.outIds) := by rw [hs.sent_eq]
  unfold onToken
  rw [if_neg (by rw [ht]; exact Bool.false_ne_true)]
  dsimp only
  rw [hlen]
  by_cases hle : strLen (tok.decode (s.outIds ++ [t])) ≤ strLen (tok.decode s.outIds)
  · have heq := eq_of_prefix_of_strLen_le hgrow hle
    rw [if_pos hle]
    refine ⟨_, true, rfl, rfl, ?_, fun _ => ⟨?_, ?_⟩⟩
    · rw [heq, hs.deltas_eq]
    · exact hs.sent_eq.trans heq.symm
    · exact hs.deltas_eq.trans heq.symm
  · rw [if_neg hle]
    obtain ⟨delta, hdelta⟩ := hgrow
    have hslice := sliceFrom_strLen (tok.decode s.outIds) delta
    rw [hdelta] at hslice
    rw [hslice]
    dsimp only
    have hflat : (s.deltas ++ [delta]).flatten = tok.decode (s.outIds ++ [t]) := by
      rw [List.flatten_append, hs.deltas_eq, List.flatten_singleton, hdelta]
    by_cases hok : ok s.deltas.length = true
    · rw [if_pos hok]
      exact ⟨_, true, rfl, rfl, hflat, fun _ => ⟨rfl, hflat⟩⟩
    · rw [if_neg hok]
      exact ⟨_, false, rfl, rfl, hflat, fun h => absurd h Bool.false_ne_true⟩

/-- The callback never takes a delta back, and records a visible id. -/
theorem onToken_grows
    {keep : Bool} (h : onToken tok stopIds ok s t = some (s', keep)) :
    s.deltas.flatten <+: s'.deltas.flatten ∧ ((∀ n, ok n = true) → keep = true) := by
  unfold onToken at h
  split at h
  · cases h
    exact ⟨List.prefix_refl _, fun _ => rfl⟩
  · dsimp only at h
    split at h
    · cases h
      exact ⟨List.prefix_refl _, fun _ => rfl⟩
    · split at h
      · cases h
      next delta _ =>
        split at h
        · cases h
          exact ⟨⟨delta, by simp⟩, fun _ => rfl⟩
        next hok =>
          cases h
          exact ⟨⟨delta, by simp⟩, fun hall => absurd (hall _) hok⟩

/-- **The deltas never shrink.** -/
theorem feedTokens_grows
    {delivered : List Int} (h : feedTokens tok stopIds ok s ids = some (s', delivered)) :
    s.deltas.flatten <+: s'.deltas.flatten := by
  induction ids generalizing s s' delivered with
  | nil =>
    cases h
    exact List.prefix_refl _
  | cons t ts ih =>
    simp only [feedTokens] at h
    split at h
    · cases h
    next s₁ keep hstep =>
      split at h
      · cases h
        exact (onToken_grows hstep).1
      · obtain ⟨r, hr, he⟩ := Option.map_eq_some_iff.mp h
        cases he
        exact (onToken_grows hstep).1.trans (ih hr)

/-! ## The whole run -/

/-- The text never loses what it had, from `out` on. -/
def Grows (tok : Tokenizer) (out ids : List Int) : Prop :=
  ∀ before after, ids = before ++ after →
    tok.decode (out ++ before) <+: tok.decode (out ++ ids)

theorem grows_nil (tok : Tokenizer) (out : List Int) : Grows tok out [] := by
  intro before after h
  obtain ⟨rfl, -⟩ := List.append_eq_nil_iff.mp h.symm
  exact List.prefix_refl _

theorem Grows.tail {out : List Int}
    (h : Grows tok out (t :: ids)) : Grows tok (out ++ [t]) ids := by
  intro before after he
  have := h (t :: before) after (by rw [he, List.cons_append])
  simpa only [List.append_assoc, List.singleton_append] using this

theorem Grows.head {out : List Int}
    (h : Grows tok out (t :: ids)) : tok.decode out <+: tok.decode (out ++ [t]) := by
  have h0 := h [] (t :: ids) rfl
  rw [List.append_nil] at h0
  exact Tokenizer.decode_prefix_of_append (b := [t]) (c := ids) h0

theorem Grows.cons {out : List Int}
    (h0 : tok.decode out <+: tok.decode (out ++ t :: ids)) (h : Grows tok (out ++ [t]) ids) :
    Grows tok out (t :: ids) := by
  intro before after he
  cases before with
  | nil => rwa [List.append_nil]
  | cons u before =>
    rw [List.cons_append, List.cons.injEq] at he
    have := h before after he.2
    rw [← he.1]
    simpa only [List.append_assoc, List.singleton_append] using this

theorem grows_iff (tok : Tokenizer) (ids : List Int) :
    Grows tok [] ids ↔ CutsBetweenChars tok ids := by
  constructor
  · intro h before after he
    have hp := h before after he
    simp only [List.nil_append] at hp
    rw [he] at hp ⊢
    exact (tok.decode_prefix_iff before after).mp hp
  · intro h before after he
    have hs := h before after he
    simp only [List.nil_append]
    rw [he] at hs ⊢
    exact (tok.decode_prefix_iff before after).mpr hs

/-- While the text grows, the run does not panic and the deltas are the text of
the visible ids delivered. -/
theorem feedTokens_of_grows (ok : Nat → Bool)
    (hs : InStep tok s)
    (hg : Grows tok s.outIds (visible stopIds ids)) :
    ∃ s' delivered, feedTokens tok stopIds ok s ids = some (s', delivered) ∧
      s'.deltas.flatten = tok.decode (s.outIds ++ visible stopIds delivered) := by
  induction ids generalizing s with
  | nil => exact ⟨s, [], rfl, by rw [hs.deltas_eq, visible, List.takeWhile_nil, List.append_nil]⟩
  | cons t ts ih =>
    by_cases ht : stopIds.contains t = true
    · refine ⟨{ s with finish := .stop }, [t], ?_, ?_⟩
      · simp only [feedTokens, onToken, ht, Bool.true_or, if_true]
      · rw [visible_cons_stop [] ht, List.append_nil]
        exact hs.deltas_eq
    · have ht' := Bool.eq_false_iff.mpr ht
      rw [visible_cons ts ht'] at hg
      obtain ⟨s₁, keep, hstep, hout, hflat, hkeep⟩ := onToken_inStep ok hs ht' hg.head
      cases keep with
      | false =>
        -- the client is gone: the run ends with this delta
        refine ⟨s₁, [t], ?_, ?_⟩
        · simp only [feedTokens, hstep, Bool.not_false, Bool.or_true, if_true]
        · rw [visible_cons [] ht', hflat, hout]
          rfl
      | true =>
        have hg₁ : Grows tok s₁.outIds (visible stopIds ts) := by
          rw [hout]
          exact hg.tail
        obtain ⟨s', delivered, hrun, hd⟩ := ih (hkeep rfl) hg₁
        refine ⟨s', t :: delivered, ?_, ?_⟩
        · simp only [feedTokens, hstep, ht', Bool.not_true, Bool.or_false, Bool.false_eq_true,
            if_false, hrun, Option.map_some]
        · rw [visible_cons delivered ht', hd, hout, List.append_assoc, List.singleton_append]

/-- When every write succeeds, all the generated ids are delivered. -/
theorem feedTokens_delivered
    {delivered : List Int} (hok : ∀ n, ok n = true)
    (h : feedTokens tok stopIds ok s ids = some (s', delivered)) :
    visible stopIds delivered = visible stopIds ids := by
  induction ids generalizing s s' delivered with
  | nil =>
    cases h
    rfl
  | cons t ts ih =>
    simp only [feedTokens] at h
    split at h
    · cases h
    next s₁ keep hstep =>
      have hkeep := (onToken_grows hstep).2 hok
      subst hkeep
      by_cases ht : stopIds.contains t = true
      · simp only [ht, Bool.true_or, if_true, Option.some.injEq, Prod.mk.injEq] at h
        rw [← h.2, visible_cons_stop ts ht, visible_cons_stop [] ht]
      · have ht' := Bool.eq_false_iff.mpr ht
        simp only [ht', Bool.not_true, Bool.or_false, Bool.false_eq_true, if_false] at h
        obtain ⟨r, hr, he⟩ := Option.map_eq_some_iff.mp h
        cases he
        rw [visible_cons ts ht', visible_cons r.2 ht', ih hr]

/-- A run whose deltas add up never lost text on the way: each text sent is a
prefix of the final one, because deltas are never taken back. -/
theorem grows_of_feedTokens
    {delivered : List Int} (hok : ∀ n, ok n = true) (hs : InStep tok s)
    (h : feedTokens tok stopIds ok s ids = some (s', delivered))
    (hfin : s'.deltas.flatten = tok.decode (s.outIds ++ visible stopIds ids)) :
    Grows tok s.outIds (visible stopIds ids) := by
  induction ids generalizing s s' delivered with
  | nil => exact grows_nil tok s.outIds
  | cons t ts ih =>
    by_cases ht : stopIds.contains t = true
    · rw [visible_cons_stop ts ht]
      exact grows_nil tok s.outIds
    · have ht' := Bool.eq_false_iff.mpr ht
      rw [visible_cons ts ht'] at hfin ⊢
      have h0 : tok.decode s.outIds <+: tok.decode (s.outIds ++ t :: visible stopIds ts) := by
        rw [← hfin, ← hs.deltas_eq]
        exact feedTokens_grows h
      have hgrow : tok.decode s.outIds <+: tok.decode (s.outIds ++ [t]) :=
        Tokenizer.decode_prefix_of_append (b := [t]) (c := visible stopIds ts) h0
      obtain ⟨s₁, keep, hstep, hout, _, hkeep⟩ := onToken_inStep ok hs ht' hgrow
      have hk := (onToken_grows hstep).2 hok
      subst hk
      simp only [feedTokens, hstep, ht', Bool.not_true, Bool.or_false, Bool.false_eq_true,
        if_false] at h
      obtain ⟨r, hr, he⟩ := Option.map_eq_some_iff.mp h
      cases he
      refine Grows.cons h0 ?_
      rw [← hout]
      refine ih (hkeep rfl) hr ?_
      rw [hfin, hout, List.append_assoc, List.singleton_append]

/-- **When streaming is faithful**: the endpoint neither panics nor differs from
the blocking one exactly when no visible token starts inside a character. -/
theorem streams_text_iff (tok : Tokenizer) (stopIds ids : List Int) :
    StreamsText tok stopIds ids ↔ CutsBetweenChars tok (visible stopIds ids) := by
  rw [← grows_iff]
  constructor
  · intro h
    obtain ⟨s, delivered, hrun, hflat⟩ := h (fun _ => true)
    refine grows_of_feedTokens (fun _ => rfl) (inStep_init tok) hrun ?_
    rw [hflat, blockCompletion_text, feedTokens_delivered (fun _ => rfl) hrun]
    rfl
  · intro h ok
    obtain ⟨s, delivered, hrun, hflat⟩ := feedTokens_of_grows ok (inStep_init tok) h
    exact ⟨s, delivered, hrun, by rw [hflat, blockCompletion_text]; rfl⟩

/-- Byte-level tokens holding `F0 9F`, `98 80`, `E4` and `BD A0`. -/
def splitTokenizer : Tokenizer where
  id2str := [[0xF0, 0x9F], [0x98, 0x80], [0xE4], [0xBD, 0xA0]].map
    (fun bs => some (bs.flatMap (fun b => Tokenizer.u8Put (Tokenizer.byteCodePoint b))))
  idAdded := [false, false, false, false]
  idAdded_length := rfl

/-- An emoji over two tokens panics the endpoint; a three-byte character over
two tokens leaves the client with U+FFFD where the block text has it. -/
theorem stream_split_character :
    ¬ StreamsText splitTokenizer [] [0, 1] ∧
      streamCompletion splitTokenizer [] (fun _ => true) [0, 1] = none ∧
      (streamCompletion splitTokenizer [] (fun _ => true) [2, 3]).map (·.1.deltas)
        = some [[Utf8.replacement]] ∧
      (blockCompletion splitTokenizer [] [2, 3]).1 = ['你'] := by
  have hnone : streamCompletion splitTokenizer [] (fun _ => true) [0, 1] = none := by
    decide +kernel
  refine ⟨fun h => ?_, hnone, by decide +kernel, by decide +kernel⟩
  obtain ⟨s, delivered, hrun, _⟩ := h (fun _ => true)
  rw [hnone] at hrun
  cases hrun

end Colibri.Serve
