import Colibri.Lib.Drain
import Colibri.Safetensors.Spans

/-!
# Reading a group of tensors

`read_raw_shared` puts the tensors that are asked for in the order of file and offset, reads
span by span, and hands out each tensor as a view of its span's buffer. A span that is in the
page cache is a view into the mapping of its file. Any other is read into a buffer, in
chunks, one thread a chunk; the buffer comes out of a pool with whatever was in it. A thread
reads in one call as many bytes as the system likes to give, and none only at the end of the
file, or (`early`) anywhere.

The reads are a run of `Lib.Drain` over the chunks of a span (`PreadChunked`), and what it
proves of such runs gives the two facts a span needs:

> `chunked_ok`: a span that was read without an error is in its file, and its buffer holds
> the bytes of its range.

> `chunked_once`: every byte of the buffer is written once.

A member's view is its range of the span (`member_bytes`), if the span is as long as its
members are together. Their sum wraps where a header says that a tensor ends before it
begins. Then the span is too short for the views of its members and may still be read
without an error (`rightViews_iff`), or it is `2 ^ 63` bytes or longer and the buffer for it
is a panic. Which of these happens is decided by the first span that is not in its file
(`spansRead_of_not_inFile`), so what a call comes to can be told from its spans:

> `served_iff`: every outcome of a call is an error or the right views, exactly if the call
> ends in an error (`Shards.Errs`), or all spans are in their files and no sum has wrapped.
-/

namespace Colibri.Safetensors

open Batch Drain

inductive IoError where
  /-- "missing tensor: {name}" -/
  | notFound
  /-- "failed to fill whole buffer" -/
  | unexpectedEof
  deriving DecidableEq

/-- `(buf, off, len)` -/
structure View where
  buf : List UInt8
  off : Nat
  len : Nat
  deriving DecidableEq

/-- `&buf[off..off + len]` -/
def View.bytes (v : View) : Option (List UInt8) :=
  if v.off + v.len ≤ v.buf.length then some ((v.buf.drop v.off).take v.len) else none

def minChunk : Nat := 2 ^ 20

/-- The sub-ranges of `pread_chunked`: where in the buffer, and how long. -/
def chunks (nthreads len : Nat) : List (Nat × Nat) :=
  let nt := max (min nthreads (len / minChunk)) 1
  if nt ≤ 1 then [(0, len)] else tiles ((len + nt - 1) / nt) len

/-- The reads of `pread_chunked`, one a thread. -/
def chunkJobs (file : List UInt8) (off len nthreads : Nat) : List (Job UInt8) :=
  (chunks nthreads len).map fun c => ⟨file, wadd off c.1, 0, c.1, c.2⟩

/-- `pread_chunked` into a buffer that holds `stale`: the writes of its threads, in the order
they happened in, and where it ends. -/
def PreadChunked (early : Prop) (file : List UInt8) (off nthreads : Nat) (stale : List UInt8)
    (trace : List Event) (st : State UInt8) : Prop :=
  Lts.Run (Step (chunkJobs file off stale.length nthreads) early)
    (.dealt [stale] (chunkJobs file off stale.length nthreads)) trace st ∧ st.Finished

/-- One span. A buffer of `2 ^ 63` bytes or more is a capacity overflow. -/
inductive SpanRead (s : Shards) (early : Prop) (nthreads : Nat) (sp : Span) :
    Outcome IoError (List UInt8) → Prop where
  /-- `mapped_view`: all of it is in the page cache -/
  | mapped (hlen : 0 < sp.len) (hin : sp.off + sp.len ≤ (s.file sp.file).length) :
    SpanRead s early nthreads sp (.ok (((s.file sp.file).drop sp.off).take sp.len))
  | overflow (hlen : 2 ^ 63 ≤ sp.len) : SpanRead s early nthreads sp .panic
  | read (stale : List UInt8) (trace : List Event) (st : State UInt8) (hlen : sp.len < 2 ^ 63)
    (hstale : stale.length = sp.len)
    (hrun : PreadChunked early (s.file sp.file) sp.off nthreads stale trace st) :
    SpanRead s early nthreads sp
      (if st.failed then .error .unexpectedEof else .ok (st.bufs.getD 0 []))

/-- The spans one by one, up to the first that fails. -/
inductive SpansRead (s : Shards) (early : Prop) (nthreads : Nat) :
    List Span → Outcome IoError (List (Span × List UInt8)) → Prop where
  | nil : SpansRead s early nthreads [] (.ok [])
  | cons {sp : Span} {sps : List Span} {b : List UInt8}
    {out : Outcome IoError (List (Span × List UInt8))} (h : SpanRead s early nthreads sp (.ok b))
    (hs : SpansRead s early nthreads sps out) :
    SpansRead s early nthreads (sp :: sps) (out.bind fun bs => .ok ((sp, b) :: bs))
  | error {sp : Span} {sps : List Span} {e : IoError}
    (h : SpanRead s early nthreads sp (.error e)) :
    SpansRead s early nthreads (sp :: sps) (.error e)
  | panic {sp : Span} {sps : List Span} (h : SpanRead s early nthreads sp .panic) :
    SpansRead s early nthreads (sp :: sps) .panic

/-- The views of a span's members, with their places in the result. -/
def Span.views (sp : Span) (buf : List UInt8) : List (Nat × View) :=
  sp.members.map fun it => (it.idx, ⟨buf, wsub it.off sp.off, it.nbytes⟩)

/-- `result`: `n` places that are filled one by one, and then unwrapped. -/
def assemble (n : Nat) (pairs : List (Nat × View)) : Option (List View) :=
  (pairs.foldl (fun result p => result.set p.1 (some p.2)) (List.replicate n none)).mapM id

/-- `read_raw_shared` -/
inductive ReadRawShared (s : Shards) (early : Prop) (nthreads : Nat) (names : List (List Char)) :
    Outcome IoError (List View) → Prop where
  | missing (h : s.items names = none) : ReadRawShared s early nthreads names (.error .notFound)
  | spans (items : List Item) (out : Outcome IoError (List (Span × List UInt8)))
    (h : s.items names = some items) (hs : SpansRead s early nthreads (spansOf items) out) :
    ReadRawShared s early nthreads names (out.bind fun bufs =>
      .ofOption (assemble names.length (bufs.flatMap fun b => b.1.views b.2)))

/-- The view holds the bytes of the tensor's range, and all of them. -/
def View.Right (s : Shards) (t : StTensor) (v : View) : Prop :=
  v.len = t.nbytes ∧ v.bytes = some (((s.file t.fileIdx).drop t.off).take t.nbytes)

/-! ## The chunks of a span -/

theorem chunks_cases (nthreads len : Nat) :
    chunks nthreads len = [(0, len)] ∨ ∃ per, 0 < per ∧ chunks nthreads len = tiles per len := by
  unfold chunks
  dsimp only
  split
  · exact .inl rfl
  next hnt =>
    -- more than one thread has work, so there is something to read
    have hle := Nat.div_le_self len minChunk
    exact .inr ⟨_, Nat.div_pos (by omega) (by omega), rfl⟩

theorem chunks_bounds {nthreads len : Nat} {c : Nat × Nat} (h : c ∈ chunks nthreads len) :
    c.1 + c.2 ≤ len := by
  rcases chunks_cases nthreads len with hone | ⟨per, hper, htiles⟩
  · rw [hone, List.mem_singleton] at h
    rw [h, Nat.zero_add]
  · exact (tiles_bounds hper (htiles ▸ h)).2

theorem chunks_cover (nthreads : Nat) {len y : Nat} (hy : y < len) :
    ∃ c ∈ chunks nthreads len, c.1 ≤ y ∧ y < c.1 + c.2 := by
  rcases chunks_cases nthreads len with hone | ⟨per, hper, htiles⟩
  · exact ⟨(0, len), hone ▸ List.mem_singleton_self _, Nat.zero_le y, by omega⟩
  · rw [htiles]
    exact tiles_cover hper hy

theorem chunks_pairwise (nthreads len : Nat) :
    (chunks nthreads len).Pairwise fun a b => a.1 + a.2 ≤ b.1 := by
  rcases chunks_cases nthreads len with hone | ⟨per, hper, htiles⟩
  · rw [hone]
    exact List.pairwise_singleton _ _
  · rw [htiles]
    exact tiles_pairwise hper

theorem chunkJobs_fits (file : List UInt8) (off nthreads : Nat) (stale : List UInt8) :
    Fits (chunkJobs file off stale.length nthreads) [stale] := by
  intro job hjob
  obtain ⟨c, hc, rfl⟩ := List.mem_map.mp hjob
  exact ⟨stale, rfl, chunks_bounds hc⟩

theorem chunkJobs_apart (file : List UInt8) (off len nthreads : Nat) :
    Apart (chunkJobs file off len nthreads) := by
  refine apart_of_pairwise (List.pairwise_map.mpr ((chunks_pairwise nthreads len).imp ?_))
  rintro a b hab k y ⟨-, -, hlt⟩ ⟨-, hle, -⟩
  dsimp only at hlt hle
  omega

/-- The pieces of a range are all in the file exactly if the range is; no offset of one has
wrapped then. -/
theorem pieces_inside_iff {pieces : List (Nat × Nat)} {off len n : Nat} (hoff : off < 2 ^ 64)
    (hlen : len < 2 ^ 63) (hn : n < 2 ^ 63) (hbound : ∀ c ∈ pieces, c.1 + c.2 ≤ len)
    (hcover : ∀ y < len, ∃ c ∈ pieces, c.1 ≤ y ∧ y < c.1 + c.2) :
    (∀ c ∈ pieces, c.2 = 0 ∨ wadd off c.1 + c.2 ≤ n) ↔ len = 0 ∨ off + len ≤ n := by
  constructor
  · intro hinside
    rcases Nat.eq_zero_or_pos len with hzero | hpos
    · exact .inl hzero
    · -- the first piece is in the file, so no offset wraps; then the last one is
      obtain ⟨first, hfirst, hlow, hhigh⟩ := hcover 0 hpos
      obtain ⟨last, hlast, hlow', hhigh'⟩ := hcover (len - 1) (Nat.sub_one_lt_of_lt hpos)
      have hstart := hinside first hfirst
      have hend := hinside last hlast
      have hle := hbound last hlast
      unfold wadd at hstart hend
      right
      omega
  · intro hin c hc
    have hle := hbound c hc
    unfold wadd
    omega

theorem piece_source {off len n o y : Nat} (hn : n < 2 ^ 63) (hin : len = 0 ∨ off + len ≤ n)
    (hlow : o ≤ y) (hy : y < len) : wadd off o + (y - o) = off + y := by
  rw [wadd_eq (by omega)]
  omega

section

variable {early : Prop} {file : List UInt8} {off nthreads : Nat} {stale : List UInt8}
  {trace : List Event} {st : State UInt8}

theorem chunked_inv (h : PreadChunked early file off nthreads stale trace st) :
    ∃ prog, Inv (chunkJobs file off stale.length nthreads) early [stale] trace st prog :=
  inv_of_run (chunkJobs_fits file off nthreads stale)
    (chunkJobs_apart file off _ nthreads) inv_dealt
    h.1

/-- There is one buffer, as long as it was. -/
theorem chunked_buf (h : PreadChunked early file off nthreads stale trace st) :
    ∃ b, st.bufs = [b] ∧ b.length = stale.length := by
  obtain ⟨prog, hinv⟩ := chunked_inv h
  have hsizes := hinv.sizes
  rcases hb : st.bufs with _ | ⟨b, _ | ⟨c, rest⟩⟩
  · rw [hb] at hsizes
    cases hsizes
  · rw [hb] at hsizes
    exact ⟨b, rfl, (List.cons.inj hsizes).1⟩
  · rw [hb] at hsizes
    cases (List.cons.inj hsizes).2

/-- **A span that was read without an error** is in its file, and the buffer holds it. -/
theorem chunked_ok (hoff : off < 2 ^ 64) (hlen : stale.length < 2 ^ 63)
    (hfile : file.length < 2 ^ 63) (h : PreadChunked early file off nthreads stale trace st)
    (hok : st.failed = false) : (stale.length = 0 ∨ off + stale.length ≤ file.length) ∧
      st.bufs.getD 0 [] = (file.drop off).take stale.length := by
  obtain ⟨prog, hinv⟩ := chunked_inv h
  obtain ⟨b, hbufs, hb⟩ := chunked_buf h
  have hinside : ∀ c ∈ chunks nthreads stale.length, c.2 = 0 ∨ wadd off c.1 + c.2 ≤ file.length :=
    fun c hc => hinv.inside h.2 hok _ (List.mem_map_of_mem hc)
  have hin := (pieces_inside_iff hoff hlen hfile (fun c hc => chunks_bounds hc)
    fun y hy => chunks_cover nthreads hy).mp hinside
  refine ⟨hin, ?_⟩
  rw [hbufs]
  show b = _
  refine List.ext_getElem? fun y => ?_
  by_cases hy : y < stale.length
  · obtain ⟨c, hc, hlow, hhigh⟩ := chunks_cover nthreads hy
    have hmem : (⟨file, wadd off c.1, 0, c.1, c.2⟩ : Job UInt8) ∈
        chunkJobs file off stale.length nthreads := List.mem_map_of_mem hc
    have hcell := hinv.cell_eq h.2 hok hmem (x := y - c.1) (by dsimp only; omega)
    have hplace : c.1 + (y - c.1) = y := by omega
    have hsource := piece_source hfile hin hlow hy
    dsimp only at hcell
    rw [hbufs, hplace, hsource] at hcell
    rw [List.getElem?_take_of_lt hy, List.getElem?_drop]
    exact hcell
  · rw [List.getElem?_eq_none (by omega), List.getElem?_eq_none]
    rw [List.length_take]
    omega

/-- A span that is in its file is read without an error. -/
theorem chunked_not_failed (hearly : ¬ early) (hoff : off < 2 ^ 64) (hlen : stale.length < 2 ^ 63)
    (hfile : file.length < 2 ^ 63) (h : PreadChunked early file off nthreads stale trace st)
    (hin : stale.length = 0 ∨ off + stale.length ≤ file.length) : st.failed = false := by
  obtain ⟨prog, hinv⟩ := chunked_inv h
  by_contra hfailed
  rcases hinv.failure (Bool.eq_true_of_not_eq_false hfailed) with he | ⟨job, hjob, hnot⟩
  · exact hearly he
  · obtain ⟨c, hc, rfl⟩ := List.mem_map.mp hjob
    exact hnot ((pieces_inside_iff hoff hlen hfile (fun c hc => chunks_bounds hc)
      fun y hy => chunks_cover nthreads hy).mpr hin c hc)

/-- **Every byte of the buffer is written once**, and none twice if there is an error. -/
theorem chunked_once (h : PreadChunked early file off nthreads stale trace st) {y : Nat}
    (hy : y < stale.length) :
    trace.countP (touches (chunkJobs file off stale.length nthreads) 0 y) ≤ 1 ∧
      (st.failed = false →
        trace.countP (touches (chunkJobs file off stale.length nthreads) 0 y) = 1) := by
  obtain ⟨prog, hinv⟩ := chunked_inv h
  have hapart := chunkJobs_apart file off stale.length nthreads
  obtain ⟨c, hc, hlow, hhigh⟩ := chunks_cover nthreads hy
  have hmem : (⟨file, wadd off c.1, 0, c.1, c.2⟩ : Job UInt8) ∈
      chunkJobs file off stale.length nthreads := List.mem_map_of_mem hc
  have hx : y - c.1 < (⟨file, wadd off c.1, 0, c.1, c.2⟩ : Job UInt8).len := by
    dsimp only
    omega
  have hplace : c.1 + (y - c.1) = y := by omega
  refine ⟨?_, fun hok => ?_⟩
  · obtain ⟨i, hi⟩ := List.mem_iff_getElem?.mp hmem
    have hcount := hinv.countP_touches hapart hi hx
    rw [hplace] at hcount
    rw [hcount]
    split
    · exact Nat.le_refl 1
    · exact Nat.zero_le 1
  · have hcount := hinv.once_at hapart h.2 hok hmem hx
    rw [hplace] at hcount
    exact hcount

end

/-! ## A span -/

/-- The bytes of the span's range. -/
def Shards.slice (s : Shards) (sp : Span) : List UInt8 :=
  ((s.file sp.file).drop sp.off).take sp.len

/-- The span is in its file, or there is nothing to read. -/
def Span.InFile (s : Shards) (sp : Span) : Prop :=
  sp.len = 0 ∨ sp.off + sp.len ≤ (s.file sp.file).length

theorem file_length_lt (s : Shards) (k : Nat) : (s.file k).length < 2 ^ 63 := by
  unfold Shards.file
  rw [List.getD_eq_getElem?_getD]
  rcases hk : s.files[k]? with _ | f
  · show 0 < 2 ^ 63
    decide
  · exact s.size_lt f (List.mem_of_getElem? hk)

section

variable {s : Shards} {early : Prop} {nthreads : Nat}

variable {sp : Span} {sps : List Span} {out : Outcome IoError (List (Span × List UInt8))}

theorem spanRead_ok (hoff : sp.off < 2 ^ 64) {b : List UInt8}
    (h : SpanRead s early nthreads sp (.ok b)) : sp.InFile s ∧ b = s.slice sp := by
  generalize hout : Outcome.ok b = out at h
  cases h with
  | mapped hlen hin =>
    cases hout
    exact ⟨.inr hin, rfl⟩
  | overflow hlen => cases hout
  | read stale trace st hlen hstale hrun =>
    rcases hfailed : st.failed with _ | _
    · rw [hfailed] at hout
      cases hout
      have hread := chunked_ok hoff (hstale ▸ hlen) (file_length_lt s sp.file) hrun hfailed
      rw [hstale] at hread
      exact hread
    · rw [hfailed] at hout
      cases hout

/-- What becomes of a span that is in its file. -/
theorem spanRead_of_inFile (hearly : ¬ early) (hoff : sp.off < 2 ^ 64)
    (hin : sp.InFile s) {out : Outcome IoError (List UInt8)}
    (h : SpanRead s early nthreads sp out) :
    out = .ok (s.slice sp) := by
  have hfile := file_length_lt s sp.file
  have hok : ∃ b, out = .ok b := by
    cases h with
    | mapped hlen hin => exact ⟨_, rfl⟩
    | overflow hlen =>
      unfold Span.InFile at hin
      omega
    | read stale trace st hlen hstale hrun =>
      have hgood := chunked_not_failed hearly hoff (hstale ▸ hlen) hfile hrun
        (by rw [hstale]; exact hin)
      exact ⟨_, by rw [hgood]; rfl⟩
  obtain ⟨b, rfl⟩ := hok
  rw [(spanRead_ok hoff h).2]

/-- What can happen if sources end at their ends can happen if they end anywhere. -/
theorem spanRead_early {out : Outcome IoError (List UInt8)}
    (h : SpanRead s False nthreads sp out) : SpanRead s early nthreads sp out := by
  cases h with
  | mapped hlen hin => exact .mapped hlen hin
  | overflow hlen => exact .overflow hlen
  | read stale trace st hlen hstale hrun =>
    exact .read stale trace st hlen hstale
      ⟨hrun.1.mono fun _ _ _ hstep => hstep.mono False.elim, hrun.2⟩

/-- **A span that is not in its file** is an error, or too long for a buffer. -/
theorem spanRead_of_not_inFile (hoff : sp.off < 2 ^ 64) (hnot : ¬ sp.InFile s)
    {out : Outcome IoError (List UInt8)} (h : SpanRead s early nthreads sp out) :
    (∃ e, out = .error e) ∧ sp.len < 2 ^ 63 ∨ out = .panic ∧ 2 ^ 63 ≤ sp.len := by
  cases h with
  | mapped hlen hin => exact absurd (.inr hin) hnot
  | overflow hlen => exact .inr ⟨rfl, hlen⟩
  | read stale trace st hlen hstale hrun =>
    refine .inl ⟨?_, hlen⟩
    cases hfailed : st.failed with
    | true => exact ⟨_, rfl⟩
    | false =>
      have hread := (chunked_ok hoff (hstale ▸ hlen) (file_length_lt s sp.file) hrun hfailed).1
      rw [hstale] at hread
      exact absurd hread hnot

theorem spanRead_ne_panic (hin : sp.InFile s) {out : Outcome IoError (List UInt8)}
    (h : SpanRead s early nthreads sp out) : out ≠ .panic := by
  cases h with
  | mapped hlen hin => exact nofun
  | overflow hlen =>
    have hfile := file_length_lt s sp.file
    unfold Span.InFile at hin
    omega
  | read stale trace st hlen hstale hrun =>
    cases st.failed with
    | false => exact nofun
    | true => exact nofun

theorem exists_spanRead (s : Shards) (early : Prop) (nthreads : Nat) (sp : Span) :
    ∃ out, SpanRead s early nthreads sp out := by
  rcases Nat.lt_or_ge sp.len (2 ^ 63) with hlen | hlen
  · have hstale : (List.replicate sp.len (0 : UInt8)).length = sp.len := List.length_replicate
    generalize List.replicate sp.len (0 : UInt8) = stale at hstale
    obtain ⟨trace, st, hrun, hfin⟩ := exists_finished
      (chunkJobs_fits (s.file sp.file) sp.off nthreads stale)
      (chunkJobs_apart (s.file sp.file) sp.off stale.length nthreads)
      (show Inv _ early _ _ _ _ from inv_dealt) .start
    exact ⟨_, .read stale _ st hlen hstale ⟨hrun, hfin⟩⟩
  · exact ⟨_, .overflow hlen⟩

/-- Spans that were read are in their files, and the buffers have their bytes. -/
theorem spansRead_ok (hoff : ∀ sp ∈ sps, sp.off < 2 ^ 64)
    {bufs : List (Span × List UInt8)} (h : SpansRead s early nthreads sps (.ok bufs)) :
    (∀ sp ∈ sps, sp.InFile s) ∧ bufs = sps.map fun sp => (sp, s.slice sp) := by
  generalize hout : Outcome.ok bufs = out at h
  induction h generalizing bufs with
  | nil =>
    cases hout
    exact ⟨fun sp hsp => absurd hsp List.not_mem_nil, rfl⟩
  | @cons sp sps b out hsp _ ih =>
    cases out with
    | ok rest =>
      cases hout
      obtain ⟨hin, hb⟩ := spanRead_ok (hoff _ List.mem_cons_self) hsp
      obtain ⟨hrest, rfl⟩ := ih (fun x hx => hoff x (List.mem_cons_of_mem _ hx)) rfl
      refine ⟨fun x hx => ?_, by rw [hb]; rfl⟩
      rcases List.mem_cons.mp hx with rfl | hx
      · exact hin
      · exact hrest x hx
    | error e => cases hout
    | panic => cases hout
  | error h => cases hout
  | panic h => cases hout

theorem spansRead_of_inFile (hearly : ¬ early)
    (hoff : ∀ sp ∈ sps, sp.off < 2 ^ 64) (hin : ∀ sp ∈ sps, sp.InFile s)
    (h : SpansRead s early nthreads sps out) :
    out = .ok (sps.map fun sp => (sp, s.slice sp)) := by
  induction h with
  | nil => rfl
  | @cons sp sps b out hsp _ ih =>
    rw [ih (fun x hx => hoff x (List.mem_cons_of_mem _ hx))
      (fun x hx => hin x (List.mem_cons_of_mem _ hx))]
    rw [(spanRead_ok (hoff _ List.mem_cons_self) hsp).2]
    rfl
  | error h =>
    cases spanRead_of_inFile hearly (hoff _ List.mem_cons_self) (hin _ List.mem_cons_self) h
  | panic h =>
    cases spanRead_of_inFile hearly (hoff _ List.mem_cons_self) (hin _ List.mem_cons_self) h

theorem spansRead_early
    (h : SpansRead s False nthreads sps out) : SpansRead s early nthreads sps out := by
  induction h with
  | nil => exact .nil
  | cons h _ ih => exact .cons (spanRead_early h) ih
  | error h => exact .error (spanRead_early h)
  | panic h => exact .panic (spanRead_early h)

/-- **The first span that is not in its file decides**: nothing is returned; the call panics
if that span is too long for a buffer, and only then. -/
theorem spansRead_of_not_inFile {pre post : List Span}
    (hoff : ∀ x ∈ pre ++ sp :: post, x.off < 2 ^ 64) (hin : ∀ x ∈ pre, x.InFile s)
    (hnot : ¬ sp.InFile s)
    (h : SpansRead s early nthreads (pre ++ sp :: post) out) :
    (∃ e, out = .error e) ∧ (early ∨ sp.len < 2 ^ 63) ∨ out = .panic ∧ 2 ^ 63 ≤ sp.len := by
  induction pre generalizing out with
  | nil =>
    rw [List.nil_append] at h
    have hdecide : ∀ out, SpanRead s early nthreads sp out → _ := fun out =>
      spanRead_of_not_inFile (hoff sp List.mem_cons_self) hnot
    cases h with
    | cons h _ =>
      obtain ⟨⟨e, he⟩, -⟩ | ⟨he, -⟩ := hdecide _ h
      · cases he
      · cases he
    | error h =>
      obtain ⟨-, hlen⟩ | ⟨he, -⟩ := hdecide _ h
      · exact .inl ⟨⟨_, rfl⟩, .inr hlen⟩
      · cases he
    | panic h =>
      obtain ⟨⟨e, he⟩, -⟩ | ⟨-, hlen⟩ := hdecide _ h
      · cases he
      · exact .inr ⟨rfl, hlen⟩
  | cons x pre ih =>
    have hx := hin x List.mem_cons_self
    rw [List.cons_append] at h hoff
    cases h with
    | cons _ hs =>
      obtain ⟨⟨e, rfl⟩, hwhy⟩ | ⟨rfl, hlen⟩ := ih (fun y hy => hoff y (List.mem_cons_of_mem _ hy))
        (fun y hy => hin y (List.mem_cons_of_mem _ hy)) hs
      · exact .inl ⟨⟨e, rfl⟩, hwhy⟩
      · exact .inr ⟨rfl, hlen⟩
    | error h =>
      -- a span in its file fails only if its source ends early
      have hearly : early := by
        by_contra hearly
        cases spanRead_of_inFile hearly (hoff x List.mem_cons_self) hx h
      exact .inl ⟨⟨_, rfl⟩, .inl hearly⟩
    | panic h => exact absurd rfl (spanRead_ne_panic hx h)

/-- Spans in their files do not panic. -/
theorem spansRead_ne_panic (hin : ∀ sp ∈ sps, sp.InFile s)
    (h : SpansRead s early nthreads sps out) :
    out ≠ .panic := by
  induction h with
  | nil => exact nofun
  | @cons sp sps b out _ _ ih =>
    cases out with
    | panic => exact absurd rfl (ih fun x hx => hin x (List.mem_cons_of_mem _ hx))
    | ok bs => exact nofun
    | error e => exact nofun
  | error h => exact nofun
  | panic h => exact absurd rfl (spanRead_ne_panic (hin _ List.mem_cons_self) h)

/-- If that span is too long for a buffer, the call can panic. -/
theorem exists_spansRead_panic {pre post : List Span}
    (hoff : ∀ x ∈ pre, x.off < 2 ^ 64) (hin : ∀ x ∈ pre, x.InFile s) (hlong : 2 ^ 63 ≤ sp.len) :
    SpansRead s False nthreads (pre ++ sp :: post) .panic := by
  induction pre with
  | nil => exact .panic (.overflow hlong)
  | cons x pre ih =>
    obtain ⟨out, hout⟩ := exists_spanRead s False nthreads x
    have hok := spanRead_of_inFile id (hoff x List.mem_cons_self) (hin x List.mem_cons_self) hout
    rw [hok] at hout
    exact .cons hout (ih (fun y hy => hoff y (List.mem_cons_of_mem _ hy))
      fun y hy => hin y (List.mem_cons_of_mem _ hy))

/-- Spans are all in their files, or there is a first one that is not. -/
theorem inFile_or_first (s : Shards) (sps : List Span) : (∀ sp ∈ sps, sp.InFile s) ∨
    ∃ pre sp post, sps = pre ++ sp :: post ∧ (∀ x ∈ pre, x.InFile s) ∧ ¬ sp.InFile s := by
  induction sps with
  | nil => exact .inl fun sp hsp => absurd hsp List.not_mem_nil
  | cons x sps ih =>
    by_cases hx : x.InFile s
    · rcases ih with hall | ⟨pre, sp, post, rfl, hpre, hnot⟩
      · exact .inl (List.forall_mem_cons.mpr ⟨hx, hall⟩)
      · exact .inr ⟨x :: pre, sp, post, rfl, List.forall_mem_cons.mpr ⟨hx, hpre⟩, hnot⟩
    · exact .inr ⟨[], x, sps, rfl, fun y hy => absurd hy List.not_mem_nil, hx⟩

theorem exists_spansRead (s : Shards) (early : Prop) (nthreads : Nat) (sps : List Span) :
    ∃ out, SpansRead s early nthreads sps out := by
  induction sps with
  | nil => exact ⟨_, .nil⟩
  | cons sp sps ih =>
    obtain ⟨out, hout⟩ := exists_spanRead s early nthreads sp
    obtain ⟨rest, hrest⟩ := ih
    cases out with
    | ok b => exact ⟨_, .cons hout hrest⟩
    | error e => exact ⟨_, .error hout⟩
    | panic => exact ⟨_, .panic hout⟩

end

/-! ## The result -/

theorem length_foldl_set (pairs : List (Nat × View)) (result : List (Option View)) :
    (pairs.foldl (fun result p => result.set p.1 (some p.2)) result).length = result.length := by
  induction pairs generalizing result with
  | nil => rfl
  | cons p pairs ih => rw [List.foldl_cons, ih, List.length_set]

theorem getElem?_foldl_set_ne {pairs : List (Nat × View)} {i : Nat}
    (h : i ∉ pairs.map Prod.fst) (result : List (Option View)) :
    (pairs.foldl (fun result p => result.set p.1 (some p.2)) result)[i]? = result[i]? := by
  induction pairs generalizing result with
  | nil => rfl
  | cons p pairs ih =>
    rw [List.map_cons, List.mem_cons, not_or] at h
    rw [List.foldl_cons, ih h.2, List.getElem?_set_ne (Ne.symm h.1)]

theorem getElem?_foldl_set {pairs : List (Nat × View)} (h : (pairs.map Prod.fst).Nodup)
    {p : Nat × View} (hp : p ∈ pairs) (result : List (Option View)) (hlt : p.1 < result.length) :
    (pairs.foldl (fun result p => result.set p.1 (some p.2)) result)[p.1]? = some (some p.2) := by
  induction pairs generalizing result with
  | nil => exact absurd hp List.not_mem_nil
  | cons q pairs ih =>
    obtain ⟨hnot, hnodup⟩ := List.nodup_cons.mp h
    rw [List.foldl_cons]
    rcases List.mem_cons.mp hp with rfl | hp
    · rw [getElem?_foldl_set_ne hnot, List.getElem?_set_self hlt]
    · exact ih hnodup hp _ (by rw [List.length_set]; exact hlt)

theorem mapM_id_of_isSome {l : List (Option View)} (h : ∀ x ∈ l, ∃ v, x = some v) :
    ∃ vs, l.mapM id = some vs ∧ l = vs.map some := by
  induction l with
  | nil => exact ⟨[], rfl, rfl⟩
  | cons x l ih =>
    obtain ⟨v, rfl⟩ := h x List.mem_cons_self
    obtain ⟨vs, hvs, rfl⟩ := ih fun y hy => h y (List.mem_cons_of_mem _ hy)
    refine ⟨v :: vs, ?_, rfl⟩
    rw [List.mapM_cons, hvs]
    rfl

/-- **Every place is filled once**: nothing is missing, and each view is in its place. -/
theorem assemble_eq {n : Nat} {pairs : List (Nat × View)}
    (h : (pairs.map Prod.fst).Perm (List.range n)) :
    ∃ vs, assemble n pairs = some vs ∧ vs.length = n ∧
      ∀ p ∈ pairs, vs[p.1]? = some p.2 := by
  have hnodup : (pairs.map Prod.fst).Nodup := h.nodup_iff.mpr List.nodup_range
  have hget := fun p hp hlt => getElem?_foldl_set (p := p) hnodup hp (List.replicate n none) hlt
  have hlen := length_foldl_set pairs (List.replicate n none)
  rw [List.length_replicate] at hlen
  unfold assemble
  generalize pairs.foldl (fun result p => result.set p.1 (some p.2)) (List.replicate n none)
    = result at hget hlen
  have hfull : ∀ x ∈ result, ∃ v, x = some v := by
    intro x hx
    obtain ⟨i, hi⟩ := List.mem_iff_getElem?.mp hx
    have hlt : i < n := hlen ▸ (List.getElem?_eq_some_iff.mp hi).1
    obtain ⟨p, hp, rfl⟩ := List.mem_map.mp (h.mem_iff.mpr (List.mem_range.mpr hlt))
    have hat := hget p hp (by rw [List.length_replicate]; exact hlt)
    exact ⟨p.2, Option.some.inj (hi.symm.trans hat)⟩
  obtain ⟨vs, hvs, rfl⟩ := mapM_id_of_isSome hfull
  rw [List.length_map] at hlen
  refine ⟨vs, hvs, hlen, fun p hp => ?_⟩
  have hlt : p.1 < n := List.mem_range.mp (h.mem_iff.mp (List.mem_map_of_mem hp))
  have hat := hget p hp (by rw [List.length_replicate]; exact hlt)
  rw [List.getElem?_map, Option.map_eq_some_iff] at hat
  obtain ⟨v, hv, hsome⟩ := hat
  rw [hv, Option.some.inj hsome]

theorem length_slice {s : Shards} {sp : Span} (h : sp.InFile s) : (s.slice sp).length = sp.len := by
  unfold Span.InFile at h
  rw [Shards.slice, List.length_take, List.length_drop]
  omega

/-- A member's view, in a span that is as long as its members are together. -/
theorem member_bytes {s : Shards} {sp : Span} (hmade : sp.Made) (hin : sp.InFile s)
    (htotal : total sp.members < 2 ^ 64) {it : Item} (hit : it ∈ sp.members) :
    View.bytes ⟨s.slice sp, wsub it.off sp.off, it.nbytes⟩
      = some (((s.file it.file).drop it.off).take it.nbytes) := by
  obtain ⟨hfile, hlow, hhigh⟩ := laid_mem hmade.laid hit
  have hlen := hmade.len_eq
  rw [Nat.mod_eq_of_lt htotal] at hlen
  have hoff := wsub_eq hlow (hmade.word it hit).off_lt
  unfold View.bytes
  dsimp only
  rw [hoff, length_slice hin, if_pos (by omega), hfile, Shards.slice, List.drop_take,
    List.take_take, List.drop_drop, Nat.min_eq_left (by omega), Nat.add_sub_cancel' hlow]

/-- If the sum has wrapped, the view of the last member runs out of the buffer. -/
theorem member_none {s : Shards} {sp : Span} (hmade : sp.Made) (hin : sp.InFile s)
    (htotal : 2 ^ 64 ≤ total sp.members) :
    ∃ it ∈ sp.members, View.bytes ⟨s.slice sp, wsub it.off sp.off, it.nbytes⟩ = none := by
  obtain ⟨it, hit, hend⟩ := laid_last hmade.laid hmade.nonempty
  obtain ⟨-, hlow, -⟩ := laid_mem hmade.laid hit
  have hoff := wsub_eq hlow (hmade.word it hit).off_lt
  have hlen : sp.len < 2 ^ 64 := hmade.len_eq ▸ Nat.mod_lt _ (by decide)
  refine ⟨it, hit, ?_⟩
  unfold View.bytes
  dsimp only
  rw [hoff, length_slice hin, if_neg (by omega)]

/-- What is in the places of the result. -/
theorem mem_views {s : Shards} {sps : List Span} {p : Nat × View} :
    (p ∈ (sps.map fun sp => (sp, s.slice sp)).flatMap fun b => b.1.views b.2) ↔
      ∃ sp ∈ sps, ∃ it ∈ sp.members, p = (it.idx, ⟨s.slice sp, wsub it.off sp.off, it.nbytes⟩) := by
  rw [List.flatMap_map, List.mem_flatMap]
  constructor
  · rintro ⟨sp, hsp, hp⟩
    obtain ⟨it, hit, rfl⟩ := List.mem_map.mp hp
    exact ⟨sp, hsp, it, hit, rfl⟩
  · rintro ⟨sp, hsp, it, hit, rfl⟩
    exact ⟨sp, hsp, List.mem_map_of_mem hit⟩

theorem views_idx (s : Shards) (sps : List Span) :
    ((sps.map fun sp => (sp, s.slice sp)).flatMap fun b => b.1.views b.2).map Prod.fst
      = (sps.flatMap Span.members).map Item.idx := by
  rw [List.flatMap_map, List.map_flatMap, List.map_flatMap]
  refine List.flatMap_congr fun sp _ => ?_
  rw [Span.views, List.map_map]
  rfl

/-- **What the spans come to**: a view for each item, in its place. -/
theorem assemble_spans {s : Shards} {names : List (List Char)} {items : List Item}
    (h : s.items names = some items) :
    ∃ vs, assemble names.length (((spansOf items).map fun sp => (sp, s.slice sp)).flatMap
        fun b => b.1.views b.2) = some vs ∧ vs.length = names.length ∧
      ∀ sp ∈ spansOf items, ∀ it ∈ sp.members,
        vs[it.idx]? = some ⟨s.slice sp, wsub it.off sp.off, it.nbytes⟩ := by
  obtain ⟨hidx, hword, -⟩ := items_spec h
  obtain ⟨hperm, -⟩ := spansOf_made hword
  have hplaces : ((((spansOf items).map fun sp => (sp, s.slice sp)).flatMap
      fun b => b.1.views b.2).map Prod.fst).Perm (List.range names.length) := by
    rw [views_idx, ← hidx]
    exact hperm.map Item.idx
  obtain ⟨vs, hvs, hlen, hget⟩ := assemble_eq hplaces
  exact ⟨vs, hvs, hlen, fun sp hsp it hit => hget _ (mem_views.mpr ⟨sp, hsp, it, hit, rfl⟩)⟩

/-- A view for each name, with the bytes of its tensor. -/
def RightViews (s : Shards) (names : List (List Char)) (vs : List View) : Prop :=
  vs.length = names.length ∧ ∀ (i : Nat) (name : List Char), names[i]? = some name →
    ∃ t v, s.find name = some t ∧ vs[i]? = some v ∧ v.Right s t

/-- No lengths that are read in one go have a sum that wraps. -/
def Shards.NoWrap (s : Shards) (names : List (List Char)) : Prop :=
  ∀ items, s.items names = some items → ∀ sp ∈ spansOf items, total sp.members < 2 ^ 64

/-- **The call ends in an error**: a name is missing, or of the spans that are not in their
files the first, which is the one that decides, is short enough for a buffer. -/
def Shards.Errs (s : Shards) (names : List (List Char)) : Prop :=
  ∀ items, s.items names = some items → ∃ pre sp post, spansOf items = pre ++ sp :: post ∧
    (∀ x ∈ pre, x.InFile s) ∧ ¬ sp.InFile s ∧ sp.len < 2 ^ 63

/-- The names are there, and the spans are in their files. -/
def Shards.Readable (s : Shards) (names : List (List Char)) : Prop :=
  ∃ items, s.items names = some items ∧ ∀ sp ∈ spansOf items, sp.InFile s

/-- **What a call should come to**: a right view for each name, or an error; no panic. -/
def Served (s : Shards) (names : List (List Char)) : Outcome IoError (List View) → Prop
  | .ok vs => RightViews s names vs
  | .error _ => True
  | .panic => False

/-- All tensors are there, and in their files. -/
def Shards.Holds (s : Shards) (names : List (List Char)) : Prop :=
  ∀ name ∈ names, ∃ t, s.find name = some t ∧
    (t.nbytes = 0 ∨ t.off + t.nbytes ≤ (s.file t.fileIdx).length)

section

variable {s : Shards} {early : Prop} {nthreads : Nat} {names : List (List Char)}

/-- What a call has returned. -/
theorem readRawShared_ok {vs : List View} (h : ReadRawShared s early nthreads names (.ok vs)) :
    ∃ items, s.items names = some items ∧ (∀ sp ∈ spansOf items, sp.InFile s) ∧
      vs.length = names.length ∧ ∀ sp ∈ spansOf items, ∀ it ∈ sp.members,
        vs[it.idx]? = some ⟨s.slice sp, wsub it.off sp.off, it.nbytes⟩ := by
  generalize hres : Outcome.ok vs = res at h
  cases h with
  | missing hnone => cases hres
  | spans items out hitems hs =>
    obtain ⟨-, hmade⟩ := spansOf_made (items_spec hitems).2.1
    cases out with
    | error e => cases hres
    | panic => cases hres
    | ok bufs =>
      obtain ⟨hin, rfl⟩ := spansRead_ok (fun sp hsp => (hmade sp hsp).off_lt) hs
      obtain ⟨ws, hws, hlen, hget⟩ := assemble_spans hitems
      have hres : Outcome.ok vs = Outcome.ofOption (assemble names.length
        (((spansOf items).map fun sp => (sp, s.slice sp)).flatMap fun b => b.1.views b.2)) := hres
      rw [hws] at hres
      cases hres
      exact ⟨items, hitems, hin, hlen, hget⟩

/-- **The views are right exactly if no sum has wrapped.** -/
theorem rightViews_iff {vs : List View} (h : ReadRawShared s early nthreads names (.ok vs)) :
    RightViews s names vs ↔ s.NoWrap names := by
  obtain ⟨items, hitems, hin, hlen, hget⟩ := readRawShared_ok h
  obtain ⟨hperm, hmade⟩ := spansOf_made (items_spec hitems).2.1
  constructor
  · rintro ⟨-, hright⟩ items' hitems' sp hsp
    obtain rfl : items = items' := Option.some.inj (hitems.symm.trans hitems')
    by_contra hwrap
    obtain ⟨it, hit, hnone⟩ := member_none (hmade sp hsp) (hin sp hsp) (Nat.le_of_not_lt hwrap)
    obtain ⟨name, t, hname, -, -⟩ := items_mem hitems
      (hperm.subset (List.mem_flatMap.mpr ⟨sp, hsp, hit⟩))
    obtain ⟨u, v, -, hv, -, hbytes⟩ := hright it.idx name hname
    obtain rfl := Option.some.inj ((hget sp hsp it hit).symm.trans hv)
    rw [hnone] at hbytes
    cases hbytes
  · refine fun hnowrap => ⟨hlen, fun i name hname => ?_⟩
    obtain ⟨t, hfind, hi⟩ := (items_spec hitems).2.2 i name hname
    obtain ⟨sp, hsp, hit⟩ := List.mem_flatMap.mp (hperm.symm.subset (List.mem_of_getElem? hi))
    exact ⟨t, _, hfind, hget sp hsp _ hit, rfl,
      member_bytes (hmade sp hsp) (hin sp hsp) (hnowrap items hitems sp hsp) hit⟩

/-- Tensors that are in their files make up spans that are. -/
theorem spans_inFile (h : s.Holds names) {items : List Item} (hitems : s.items names = some items) :
    ∀ sp ∈ spansOf items, sp.InFile s ∧ total sp.members < 2 ^ 63 := by
  obtain ⟨hperm, hmade⟩ := spansOf_made (items_spec hitems).2.1
  intro sp hsp
  have hfile := file_length_lt s sp.file
  have hin := laid_inside (n := (s.file sp.file).length) (hmade sp hsp).laid fun it hit => by
    obtain ⟨name, t, hname, hfind, heq⟩ := items_mem hitems
      (hperm.subset (List.mem_flatMap.mpr ⟨sp, hsp, hit⟩))
    obtain ⟨u, hu, hinside⟩ := h name (List.mem_of_getElem? hname)
    obtain rfl : t = u := Option.some.inj (hfind.symm.trans hu)
    have hf := (laid_mem (hmade sp hsp).laid hit).1
    rw [heq] at hf
    rw [← hf, heq]
    exact hinside
  have hlt : total sp.members < 2 ^ 63 := by omega
  refine ⟨?_, hlt⟩
  unfold Span.InFile
  rw [(hmade sp hsp).len_eq, Nat.mod_eq_of_lt (by omega)]
  exact hin

theorem noWrap_of_holds (h : s.Holds names) : s.NoWrap names := fun _ hitems sp hsp =>
  Nat.lt_trans (spans_inFile h hitems sp hsp).2 (by decide)

/-- **Tensors that are in their files are read**, whatever the threads do. -/
theorem readRawShared_of_holds (hearly : ¬ early) (h : s.Holds names)
    {out : Outcome IoError (List View)} (hrun : ReadRawShared s early nthreads names out) :
    ∃ vs, out = .ok vs := by
  cases hrun with
  | missing hnone =>
    have hsome : (s.itemsFrom 0 names).isSome := itemsFrom_isSome (fun name hname => by
      obtain ⟨t, ht, -⟩ := h name hname
      rw [ht]
      rfl) 0
    rw [Shards.items] at hnone
    rw [hnone] at hsome
    cases hsome
  | spans items out hitems hs =>
    obtain ⟨-, hmade⟩ := spansOf_made (items_spec hitems).2.1
    rw [spansRead_of_inFile hearly (fun sp hsp => (hmade sp hsp).off_lt)
      (fun sp hsp => (spans_inFile h hitems sp hsp).1) hs]
    obtain ⟨vs, hvs, -⟩ := assemble_spans hitems
    exact ⟨vs, congrArg Outcome.ofOption hvs⟩

theorem readRawShared_early {out : Outcome IoError (List View)}
    (h : ReadRawShared s False nthreads names out) : ReadRawShared s early nthreads names out := by
  cases h with
  | missing h => exact .missing h
  | spans items out h hs => exact .spans items out h (spansRead_early hs)

theorem readable_of_ok {vs : List View} (h : ReadRawShared s early nthreads names (.ok vs)) :
    s.Readable names := by
  obtain ⟨items, hitems, hin, -⟩ := readRawShared_ok h
  exact ⟨items, hitems, hin⟩

theorem ok_of_readable (hearly : ¬ early) (h : s.Readable names)
    {out : Outcome IoError (List View)} (hrun : ReadRawShared s early nthreads names out) :
    ∃ vs, out = .ok vs := by
  obtain ⟨items, hitems, hin⟩ := h
  cases hrun with
  | missing hnone => cases hnone.symm.trans hitems
  | spans items' out hitems' hs =>
    obtain rfl : items = items' := Option.some.inj (hitems.symm.trans hitems')
    obtain ⟨-, hmade⟩ := spansOf_made (items_spec hitems).2.1
    rw [spansRead_of_inFile hearly (fun sp hsp => (hmade sp hsp).off_lt) hin hs]
    obtain ⟨vs, hvs, -⟩ := assemble_spans hitems
    exact ⟨vs, congrArg Outcome.ofOption hvs⟩

theorem readRawShared_ne_panic (h : s.Readable names) {out : Outcome IoError (List View)}
    (hrun : ReadRawShared s early nthreads names out) : out ≠ .panic := by
  obtain ⟨items, hitems, hin⟩ := h
  cases hrun with
  | missing hnone => exact nofun
  | spans items' out hitems' hs =>
    obtain rfl : items = items' := Option.some.inj (hitems.symm.trans hitems')
    obtain ⟨-, hmade⟩ := spansOf_made (items_spec hitems).2.1
    cases out with
    | error e => exact nofun
    | panic => exact absurd rfl (spansRead_ne_panic hin hs)
    | ok bufs =>
      obtain ⟨-, rfl⟩ := spansRead_ok (fun sp hsp => (hmade sp hsp).off_lt) hs
      obtain ⟨vs, hvs, -⟩ := assemble_spans hitems
      have heq : Outcome.bind (.ok ((spansOf items).map fun sp => (sp, s.slice sp)))
          (fun bufs => .ofOption (assemble names.length (bufs.flatMap fun b => b.1.views b.2)))
            = (.ok vs : Outcome IoError (List View)) := congrArg Outcome.ofOption hvs
      rw [heq]
      exact nofun

/-- Where the call ends in an error, it does so whatever the threads do. -/
theorem error_of_errs (h : s.Errs names) {out : Outcome IoError (List View)}
    (hrun : ReadRawShared s early nthreads names out) : ∃ e, out = .error e := by
  cases hrun with
  | missing hnone => exact ⟨_, rfl⟩
  | spans items out hitems hs =>
    obtain ⟨-, hmade⟩ := spansOf_made (items_spec hitems).2.1
    obtain ⟨pre, sp, post, heq, hpre, hnot, hlt⟩ := h items hitems
    rw [heq] at hs hmade
    obtain ⟨⟨e, rfl⟩, -⟩ | ⟨-, hlong⟩ :=
      spansRead_of_not_inFile (fun x hx => (hmade x hx).off_lt) hpre hnot hs
    · exact ⟨e, rfl⟩
    · omega

/-- If a source ends only at its end, no other call ends in an error. -/
theorem errs_of_error {e : IoError} (hrun : ReadRawShared s False nthreads names (.error e)) :
    s.Errs names := by
  intro items hitems
  obtain ⟨-, hmade⟩ := spansOf_made (items_spec hitems).2.1
  obtain hall | ⟨pre, sp, post, heq, hpre, hnot⟩ := inFile_or_first s (spansOf items)
  · obtain ⟨vs, hvs⟩ := ok_of_readable id ⟨items, hitems, hall⟩ hrun
    cases hvs
  · refine ⟨pre, sp, post, heq, hpre, hnot, ?_⟩
    generalize hout : Outcome.error e = res at hrun
    cases hrun with
    | missing hnone => cases hnone.symm.trans hitems
    | spans items' out hitems' hs =>
      obtain rfl : items = items' := Option.some.inj (hitems.symm.trans hitems')
      rw [heq] at hs hmade
      obtain ⟨-, hwhy⟩ | ⟨rfl, -⟩ :=
        spansRead_of_not_inFile (fun x hx => (hmade x hx).off_lt) hpre hnot hs
      · exact hwhy.resolve_left id
      · cases hout

/-- A call that neither ends in an error nor can be read comes upon a span that is too long for
a buffer. -/
theorem panic_of_not (herrs : ¬ s.Errs names) (hread : ¬ s.Readable names) :
    ReadRawShared s False nthreads names .panic := by
  rcases hitems : s.items names with _ | items
  · exact absurd (fun items h => by cases hitems.symm.trans h) herrs
  · obtain ⟨-, hmade⟩ := spansOf_made (items_spec hitems).2.1
    obtain hall | ⟨pre, sp, post, heq, hpre, hnot⟩ := inFile_or_first s (spansOf items)
    · exact absurd ⟨items, hitems, hall⟩ hread
    · have hlong : 2 ^ 63 ≤ sp.len := by
        by_contra hlt
        refine herrs fun items' h => ?_
        obtain rfl : items = items' := Option.some.inj (hitems.symm.trans h)
        exact ⟨pre, sp, post, heq, hpre, hnot, Nat.lt_of_not_le hlt⟩
      refine .spans items .panic hitems (heq ▸ exists_spansRead_panic (fun x hx => ?_) hpre hlong)
      exact (hmade x (heq ▸ List.mem_append_left _ hx)).off_lt

theorem exists_readRawShared (s : Shards) (early : Prop) (nthreads : Nat)
    (names : List (List Char)) : ∃ out, ReadRawShared s early nthreads names out := by
  rcases hitems : s.items names with _ | items
  · exact ⟨_, .missing hitems⟩
  · obtain ⟨out, hout⟩ := exists_spansRead s early nthreads (spansOf items)
    exact ⟨_, .spans items out hitems hout⟩

/-- **When a call comes to what it should**, whatever the threads do: exactly if it ends in an
error, or everything is in its file and no sum has wrapped. -/
theorem served_iff : (∀ out, ReadRawShared s early nthreads names out → Served s names out) ↔
    s.Errs names ∨ s.Readable names ∧ s.NoWrap names := by
  constructor
  · intro h
    by_cases herrs : s.Errs names
    · exact .inl herrs
    · have hread : s.Readable names := by
        by_contra hread
        exact h _ (readRawShared_early (panic_of_not herrs hread))
      obtain ⟨out, hout⟩ := exists_readRawShared s False nthreads names
      obtain ⟨vs, rfl⟩ := ok_of_readable id hread hout
      exact .inr ⟨hread, (rightViews_iff hout).mp (h _ (readRawShared_early hout))⟩
  · rintro (herrs | ⟨hread, hnowrap⟩) out hrun
    · obtain ⟨e, rfl⟩ := error_of_errs herrs hrun
      exact trivial
    · cases out with
      | ok vs => exact (rightViews_iff hrun).mpr hnowrap
      | error e => exact trivial
      | panic => exact readRawShared_ne_panic hread hrun rfl

end

/-- **Reading a group of tensors**, for every shard set, every list of names, every number
of threads and whatever the system gives: a call comes to something, and whatever it comes to
is an error or the right views exactly if it ends in an error for certain, or all spans are in
their files and no lengths that are read in one go have a sum that wraps. Of a call that
returns, each view is its tensor's range exactly if no such sum wraps; if the tensors are in
their files, it returns, and no sum has wrapped. The threads write no byte of a buffer twice,
and every byte once if there is no error. -/
theorem read_raw_shared_spec (s : Shards) (nthreads : Nat) (names : List (List Char)) :
    (∀ early, ∃ out, ReadRawShared s early nthreads names out) ∧
    (∀ early, (∀ out, ReadRawShared s early nthreads names out → Served s names out) ↔
      s.Errs names ∨ s.Readable names ∧ s.NoWrap names) ∧
    (∀ early vs, ReadRawShared s early nthreads names (.ok vs) →
      (RightViews s names vs ↔ s.NoWrap names)) ∧
    (s.Holds names → s.NoWrap names ∧ ∀ early out, ¬ early →
      ReadRawShared s early nthreads names out → ∃ vs, out = .ok vs) ∧
    (∀ early file off stale trace st, PreadChunked early file off nthreads stale trace st →
      ∀ y < stale.length,
        trace.countP (touches (chunkJobs file off stale.length nthreads) 0 y) ≤ 1 ∧
        (st.failed = false →
          trace.countP (touches (chunkJobs file off stale.length nthreads) 0 y) = 1)) := by
  exact ⟨fun early => exists_readRawShared s early nthreads names, fun early => served_iff,
    fun early vs => rightViews_iff, fun h => ⟨noWrap_of_holds h,
      fun early out hearly => readRawShared_of_holds hearly h⟩,
    fun early file off stale trace st hrun y hy => chunked_once hrun hy⟩

/-! ## A tensor that ends before it begins -/

def tensorA : StTensor := ⟨['a'], 0, 113, 4, .u8, 4, [4], by decide, by decide⟩

/-- Its `data_offsets` are `[4, 3]`. -/
def tensorB : StTensor := ⟨['b'], 0, 117, 2 ^ 64 - 1, .u8, 0, [0], by decide, by decide⟩

/-- One file, of a header and the four bytes of `a`. -/
def backwards : Shards where
  tensors := [tensorA, tensorB]
  files := [List.replicate 113 0 ++ [1, 2, 3, 4]]
  fileIdx_lt := by simp [tensorA, tensorB]
  size_lt := by simp

/-- A tensor alone, with reads that end early and without. -/
theorem read_raw_shared_alone :
    (∃ vs, ReadRawShared backwards False 4 [['a']] (.ok vs) ∧ RightViews backwards [['a']] vs) ∧
      ∀ out, ReadRawShared backwards True 4 [['a']] out → Served backwards [['a']] out := by
  obtain ⟨hexists, hserved, hright, hholds, -⟩ := read_raw_shared_spec backwards 4 [['a']]
  have ha : backwards.Holds [['a']] := by
    intro name hname
    rw [List.mem_singleton.mp hname]
    exact ⟨tensorA, rfl, .inr (by decide)⟩
  obtain ⟨hnowrap, hok⟩ := hholds ha
  obtain ⟨out, hout⟩ := hexists False
  obtain ⟨vs, rfl⟩ := hok False out id hout
  exact ⟨⟨vs, hout, (hright False vs hout).mpr hnowrap⟩,
    (hserved True).mpr (.inr ⟨readable_of_ok hout, hnowrap⟩)⟩

theorem spansOf_backwards :
    spansOf [Item.of 0 tensorA, Item.of 1 tensorB]
      = [⟨0, 113, 3, [Item.of 0 tensorA, Item.of 1 tensorB]⟩] := by
  have hsorted : [Item.of 0 tensorA, Item.of 1 tensorB].Pairwise (before · ·) := by decide
  rw [spansOf, order, List.mergeSort_of_pairwise hsorted]
  rfl

/-- **Read together with a tensor that ends before it begins, a sound one is cut off**: `a`,
of four bytes, comes back as a view into a buffer of three, and without an error. -/
theorem backwards_views : ∃ vs, ReadRawShared backwards False 4 [['a'], ['b']] (.ok vs) ∧
    ¬ RightViews backwards [['a'], ['b']] vs := by
  have hitems : backwards.items [['a'], ['b']] = some [Item.of 0 tensorA, Item.of 1 tensorB] := rfl
  have hoff : ∀ sp ∈ spansOf [Item.of 0 tensorA, Item.of 1 tensorB], sp.off < 2 ^ 64 := by
    rw [spansOf_backwards]
    simp
  have hin : ∀ sp ∈ spansOf [Item.of 0 tensorA, Item.of 1 tensorB], sp.InFile backwards := by
    rw [spansOf_backwards]
    intro sp hsp
    rw [List.mem_singleton.mp hsp]
    exact .inr (by decide)
  obtain ⟨out, hout⟩ := exists_spansRead backwards False 4
    (spansOf [Item.of 0 tensorA, Item.of 1 tensorB])
  obtain ⟨vs, hvs, -⟩ := assemble_spans hitems
  have hrun := ReadRawShared.spans _ out hitems hout
  rw [spansRead_of_inFile id hoff hin hout] at hrun
  have hrun : ReadRawShared backwards False 4 [['a'], ['b']] (.ofOption (assemble 2 _)) := hrun
  rw [show 2 = [['a'], ['b']].length from rfl, hvs] at hrun
  refine ⟨vs, hrun, fun hright => ?_⟩
  have hnowrap := (rightViews_iff hrun).mp hright _ hitems
  rw [spansOf_backwards] at hnowrap
  exact absurd (hnowrap _ (List.mem_singleton_self _)) (by decide)

end Colibri.Safetensors
