import Colibri.Tokenizer.Encode

/-!
# Encoding and decoding again

Nothing is lost on the way to tokens: the splits cut a text into pieces that make it up,
the merges fuse neighbours, and every symbol the merge loop ends with is a token if the
vocabulary has the bytes and what the merges make. So decoding gives the text back, if
the id table is as large as the ids need. It is not where the largest id is the largest
32-bit number (`decode_encode_iff`).

`mapped` are bytes written as characters, and `Tokens` says that symbols are made of the bytes of a
piece and are all in the vocabulary. `Tokens.fuse` is the merge, `decode_tokens` the way back, and
`Complete` what is asked of the tokenizer: every byte, and what each merge makes, is a token.
-/

namespace Colibri

open Tokenizer Rx

namespace LoadedTokenizer

/-! ## Characters of bytes -/

theorem mapped_append (a b : Bytes) : mapped (a ++ b) = mapped a ++ mapped b :=
  List.flatMap_append

theorem byte2str_spec : ∀ b < 256, u8Put (bytemap.getD b 0) ≠ [] ∧
    (0 : UInt8) ∉ u8Put (bytemap.getD b 0) := by
  decide +kernel

theorem zero_notMem_mapped (bs : Bytes) : (0 : UInt8) ∉ mapped bs := by
  intro h
  obtain ⟨b, -, hb⟩ := List.mem_flatMap.mp h
  exact (byte2str_spec b.toNat b.toNat_lt).2 hb

theorem byte2str_ne_nil (b : UInt8) : byte2str b ≠ [] := (byte2str_spec b.toNat b.toNat_lt).1

variable {fuel i b : Nat} {syms : List Bytes} {id : Int}

theorem symbolsFrom_mapped {bs : Bytes} (h : (mapped bs).length ≤ fuel) :
    symbolsFrom fuel (mapped bs) = bs.map byte2str := by
  induction bs generalizing fuel with
  | nil => cases fuel <;> rfl
  | cons b bs ih =>
    have hcons : mapped (b :: bs) = byte2str b ++ mapped bs := List.flatMap_cons
    have hpos : 0 < (byte2str b).length := List.length_pos_iff.mpr (byte2str_ne_nil b)
    rw [hcons, List.length_append] at h
    cases fuel with
    | zero => omega
    | succ fuel =>
      have hnext : (u8Next (byte2str b ++ mapped bs)).2 = (byte2str b).length := by
        rw [byte2str, u8Next_u8Put (byteCodePoint_lt b)]
      have hsome : (byte2str b ++ mapped bs).isEmpty = false := by
        rw [List.isEmpty_eq_false_iff]
        exact List.append_ne_nil_of_left_ne_nil (byte2str_ne_nil b) _
      rw [hcons, symbolsFrom, hsome, if_neg Bool.false_ne_true, hnext, List.take_left,
        List.drop_left, ih (by omega), List.map_cons]

/-! ## The merge loop -/

theorem mergeKey_inj {l r l' r' : Bytes} (hl : 0 ∉ l) (hr : 0 ∉ r)
    (h : mergeKey l' r' = mergeKey l r) : l' = l ∧ r' = r := by
  rw [mergeKey, mergeKey] at h
  induction l generalizing l' with
  | nil =>
    cases l' with
    | nil => exact ⟨rfl, (List.cons.inj h).2⟩
    | cons x l' =>
      refine absurd ?_ hr
      rw [← (List.cons.inj h).2]
      exact List.mem_append_right _ (List.mem_cons_self ..)
  | cons y l ih =>
    cases l' with
    | nil => exact absurd (List.mem_cons.mpr (Or.inl (List.cons.inj h).1)) hl
    | cons x l' =>
      obtain ⟨hxy, hrest⟩ := List.cons.inj h
      obtain ⟨rfl, rfl⟩ := ih (fun hmem => hl (List.mem_cons_of_mem _ hmem)) hrest
      exact ⟨by rw [hxy], rfl⟩

variable {tok : LoadedTokenizer}

/-- The best pair is a pair of neighbours that merge. -/
theorem bestPair_spec {k : Nat} {best : Int × Option Nat}
    (h : (tok.bestPair i syms best).2 = some k) :
    best.2 = some k ∨ ∃ pre l r rest, syms = pre ++ l :: r :: rest ∧ k = i + pre.length ∧
      (tok.mergesGet (mergeKey l r)).isSome := by
  induction syms generalizing i best with
  | nil => exact Or.inl h
  | cons l tail ih =>
    cases tail with
    | nil => exact Or.inl h
    | cons r rest =>
      rw [bestPair] at h
      rcases ih h with hbest | ⟨pre, l', r', rest', hsyms, hk, hmerge⟩
      · cases hget : tok.mergesGet (mergeKey l r) with
        | none =>
          rw [hget] at hbest
          exact Or.inl hbest
        | some rank =>
          rw [hget] at hbest
          dsimp only at hbest
          split at hbest
          · cases hbest
            exact Or.inr ⟨[], l, r, rest, rfl, rfl, by rw [hget]; rfl⟩
          · exact Or.inl hbest
      · refine Or.inr ⟨l :: pre, l', r', rest', by rw [hsyms]; rfl, ?_, hmerge⟩
        rw [hk, List.length_cons]
        omega

theorem fuse_append (pre : List Bytes) (l r : Bytes) (rest : List Bytes) :
    fuse (pre ++ l :: r :: rest) pre.length = pre ++ (l ++ r) :: rest := by
  have hdrop : (pre ++ l :: r :: rest).drop (pre.length + 2) = rest := by
    rw [List.drop_append, List.drop_eq_nil_of_le (by omega), List.nil_append]
    have htwo : pre.length + 2 - pre.length = 2 := by omega
    rw [htwo]
    rfl
  have hfirst : (pre ++ l :: r :: rest).getD pre.length [] = l := by
    rw [List.getD_eq_getElem?_getD, List.getElem?_append_right (Nat.le_refl _), Nat.sub_self]
    rfl
  have hsecond : (pre ++ l :: r :: rest).getD (pre.length + 1) [] = r := by
    have hone : pre.length + 1 - pre.length = 1 := by omega
    rw [List.getD_eq_getElem?_getD, List.getElem?_append_right (by omega), hone]
    rfl
  rw [fuse, List.take_left, hfirst, hsecond, hdrop]

/-- The ids of the vocabulary and of the added tokens. -/
def ids (tok : LoadedTokenizer) : List Int :=
  tok.vocab.map Prod.snd ++ tok.specials.map Special.id

/-- A vocabulary with everything encoding can need: the symbol of every byte, what every merge
makes, and ids of one token each. -/
structure Complete (tok : LoadedTokenizer) : Prop where
  symbols : ∀ b, (tok.vocabGet (byte2str b)).isSome
  products : ∀ e ∈ tok.merges, (tok.vocabGet (e.1.1 ++ e.1.2)).isSome
  ids_nodup : tok.ids.Nodup
  ids_nonneg : ∀ id ∈ tok.ids, 0 ≤ id

/-- The symbols are the piece, cut somewhere, and all tokens. -/
def Tokens (tok : LoadedTokenizer) (bs : Bytes) (syms : List Bytes) : Prop :=
  ∃ parts : List Bytes, syms = parts.map mapped ∧ parts.flatten = bs ∧
    ∀ s ∈ syms, (tok.vocabGet s).isSome

/-- **A merge** leaves tokens of the piece. -/
theorem Tokens.fuse {bs : Bytes} {k : Nat} (hc : tok.Complete)
    (h : tok.Tokens bs syms) (hk : (tok.bestPair 0 syms (i32Max, none)).2 = some k) :
    tok.Tokens bs (fuse syms k) ∧ (fuse syms k).length + 1 = syms.length := by
  rcases bestPair_spec hk with hnone | ⟨pre, l, r, rest, rfl, rfl, hmerge⟩
  · cases hnone
  obtain ⟨parts, hparts, hflat, htok⟩ := h
  obtain ⟨pre', tail', rfl, hpre, htail⟩ := List.map_eq_append_iff.mp hparts.symm
  obtain ⟨l', tail'', rfl, hl, htail⟩ := List.map_eq_cons_iff.mp htail
  obtain ⟨r', rest', rfl, hr, hrest⟩ := List.map_eq_cons_iff.mp htail
  rw [Nat.zero_add, fuse_append]
  refine ⟨⟨pre' ++ (l' ++ r') :: rest', ?_, ?_, ?_⟩, ?_⟩
  · rw [List.map_append, List.map_cons, hpre, mapped_append, hl, hr, hrest]
  · rw [← hflat]
    simp only [List.flatten_append, List.flatten_cons, List.append_assoc]
  · -- the product of the merge is in the vocabulary
    obtain ⟨e, he⟩ := Option.isSome_iff_exists.mp hmerge
    obtain ⟨entry, hfind, -⟩ := Option.map_eq_some_iff.mp he
    have hkey : mergeKey entry.1.1 entry.1.2 = mergeKey l r := by
      simpa using List.find?_some hfind
    obtain ⟨hl', hr'⟩ := mergeKey_inj (by rw [← hl]; exact zero_notMem_mapped l')
      (by rw [← hr]; exact zero_notMem_mapped r') hkey
    have hprod := hc.products entry (List.mem_of_find?_eq_some hfind)
    rw [hl', hr'] at hprod
    intro s hs
    rcases List.mem_append.mp hs with hs | hs
    · exact htok s (List.mem_append_left _ hs)
    · rcases List.mem_cons.mp hs with rfl | hs
      · exact hprod
      · exact htok s (List.mem_append_right _
          (List.mem_cons_of_mem _ (List.mem_cons_of_mem _ hs)))
  · simp only [List.length_append, List.length_cons]
    omega

/-- **What the merge loop keeps**, and that it ends with nothing left to merge. -/
theorem Tokens.mergeLoop {bs : Bytes} (hc : tok.Complete)
    (h : tok.Tokens bs syms) (hfuel : syms.length ≤ fuel) :
    tok.Tokens bs (tok.mergeLoop fuel syms) ∧
      (tok.bestPair 0 (tok.mergeLoop fuel syms) (i32Max, none)).2 = none := by
  induction fuel generalizing syms with
  | zero =>
    rw [List.length_eq_zero_iff.mp (Nat.le_zero.mp hfuel)] at h ⊢
    exact ⟨h, rfl⟩
  | succ fuel ih =>
    rw [LoadedTokenizer.mergeLoop]
    cases hk : (tok.bestPair 0 syms (i32Max, none)).2 with
    | none => exact ⟨h, hk⟩
    | some k =>
      obtain ⟨hnext, hlen⟩ := h.fuse hc hk
      exact ih hnext (by omega)

/-! ## One piece -/

/-- The id table holds what encoding emits. -/
structure Decodes (tok : LoadedTokenizer) : Prop where
  token : ∀ s id, tok.vocabGet s = some id → tok.decodeId id = unmap s
  special : ∀ sp ∈ tok.specials, tok.decodeId sp.id = sp.bytes

/-- **The tokens of a piece** are decoded to its bytes. -/
theorem decode_tokens {parts : List Bytes} (hd : tok.Decodes)
    (h : ∀ s ∈ parts.map mapped, (tok.vocabGet s).isSome) :
    tok.decodeBytes ((parts.map mapped).filterMap tok.vocabGet) = parts.flatten := by
  rw [Tokenizer.decodeBytes_eq_flatMap]
  induction parts with
  | nil => rfl
  | cons part parts ih =>
    obtain ⟨id, hid⟩ := Option.isSome_iff_exists.mp (h _ (List.mem_cons_self ..))
    rw [List.map_cons, List.filterMap_cons_some hid, List.flatMap_cons, hd.token _ _ hid,
      show unmap (mapped part) = part from unmap_mapped part, List.flatten_cons,
        ih fun s hs => h s (List.mem_cons_of_mem _ hs)]

/-- **A piece decodes to itself.** -/
theorem decode_bpePiece (hc : tok.Complete) (hd : tok.Decodes) (bs : Bytes) :
    tok.decodeBytes (tok.bpePiece bs) = bs := by
  rw [bpePiece]
  cases hwhole : tok.vocabGet (mapped bs) with
  | some id =>
    rw [Tokenizer.decodeBytes_eq_flatMap, List.flatMap_singleton, hd.token _ _ hwhole]
    exact unmap_mapped bs
  | none =>
    have hstart : tok.Tokens bs (symbolsFrom (mapped bs).length (mapped bs)) := by
      rw [symbolsFrom_mapped (Nat.le_refl _)]
      refine ⟨bs.map ([·]), ?_, ?_, ?_⟩
      · rw [List.map_map]
        refine List.map_congr_left fun b _ => ?_
        exact (List.flatMap_singleton byte2str b).symm
      · rw [← List.flatMap_def]
        exact List.flatMap_singleton' bs
      · intro s hs
        obtain ⟨b, -, rfl⟩ := List.mem_map.mp hs
        exact hc.symbols b
    obtain ⟨⟨parts, hparts, hflat, htok⟩, -⟩ := hstart.mergeLoop hc (Nat.le_refl _)
    rw [hparts] at htok
    dsimp only
    rw [hparts, decode_tokens hd htok, hflat]

/-! ## Free text -/

/-- The places of the code points, in order, from start to end. -/
theorem codePointsFrom_starts {p : Bytes} (hfuel : b - i ≤ fuel) :
    ((codePointsFrom p b fuel i).map Prod.fst ++ [b]).Pairwise (· < ·) ∧
      (∀ x ∈ (codePointsFrom p b fuel i).map Prod.fst, i ≤ x ∧ x < b) ∧
      (i < b → ((codePointsFrom p b fuel i).map Prod.fst ++ [b]).head? = some i) := by
  induction fuel generalizing i with
  | zero =>
    refine ⟨List.pairwise_singleton _ _, fun x hx => (by cases hx), fun h => ?_⟩
    omega
  | succ fuel ih =>
    rw [codePointsFrom]
    split
    next h =>
      have hpos := u8Next_pos (p.drop i)
      obtain ⟨hpair, hmem, -⟩ := ih (i := i + (u8Next (p.drop i)).2) (by omega)
      refine ⟨?_, ?_, fun _ => rfl⟩
      · rw [List.map_cons, List.cons_append, List.pairwise_cons]
        refine ⟨fun x hx => ?_, hpair⟩
        rcases List.mem_append.mp hx with hx | hx
        · have hle := (hmem x hx).1
          dsimp only
          omega
        · rw [List.mem_singleton] at hx
          dsimp only
          omega
      · intro x hx
        rcases List.mem_cons.mp hx with rfl | hx
        · exact ⟨Nat.le_refl _, h⟩
        · have hx := hmem x hx
          exact ⟨by omega, hx.2⟩
    next h =>
      exact ⟨List.pairwise_singleton _ _, fun x hx => (by cases hx),
        fun h' => absurd h' h⟩

/-- Either split cuts with a step that fits. -/
theorem split_eq_cutFrom (tok : LoadedTokenizer) (T : Tables) (cp : List Nat) :
    ∃ step : List Nat → Nat,
    (∀ x xs, 0 < step (x :: xs) ∧ step (x :: xs) ≤ (x :: xs).length) ∧
      tok.split T cp = cutFrom step cp.length 0 cp := by
  rw [split]
  cases tok.pretok with
  | cl100k => exact ⟨cl100kStep T, cl100kStep_fits, rfl⟩
  | kimiK3 => exact ⟨k3Step T, k3Step_fits, rfl⟩

theorem getD_le_getD {l : List Nat} (h : l.Pairwise (· < ·)) {j : Nat} (hij : i ≤ j)
    (hj : j < l.length) : l.getD i 0 ≤ l.getD j 0 := by
  rw [List.getD_eq_getElem?_getD, List.getD_eq_getElem?_getD, List.getElem?_eq_getElem hj,
    List.getElem?_eq_getElem (Nat.lt_of_le_of_lt hij hj), Option.getD_some, Option.getD_some]
  rcases Nat.eq_or_lt_of_le hij with rfl | hlt
  · exact Nat.le_refl _
  · exact Nat.le_of_lt (List.pairwise_iff_getElem.mp h i j _ hj hlt)

/-- The pieces free text is cut into. -/
def freePieces (tok : LoadedTokenizer) (T : Tables) (p : Bytes) (a b : Nat) : List Bytes :=
  let cps := codePointsFrom p b (b - a) a
  let off := cps.map Prod.fst ++ [b]
  (tok.split T (cps.map Prod.snd)).map fun s => spanText p (off.getD s.1 0, off.getD s.2 0)

theorem pretokChunk_eq (tok : LoadedTokenizer) (T : Tables) (p : Bytes) {a : Nat} (h : a < b) :
    tok.pretokChunk T p a b = (tok.freePieces T p a b).flatMap tok.bpePiece := by
  rw [pretokChunk, if_neg (Nat.not_le_of_lt h), freePieces, List.flatMap_map]

/-- **The pieces make up the text.** -/
theorem freePieces_flatten (tok : LoadedTokenizer) (T : Tables) (p : Bytes) {a : Nat}
    (h : a < b) : (tok.freePieces T p a b).flatten = spanText p (a, b) := by
  rw [freePieces, ← List.flatMap_def]
  generalize hcps : codePointsFrom p b (b - a) a = cps
  obtain ⟨hpair, -, hhead⟩ := codePointsFrom_starts (p := p) (b := b) (i := a)
    (Nat.le_refl (b - a))
  rw [hcps] at hpair hhead
  generalize hoff : cps.map Prod.fst ++ [b] = off at hpair hhead
  have hlen : off.length = (cps.map Prod.snd).length + 1 := by
    rw [← hoff, List.length_append, List.length_map, List.length_map, List.length_singleton]
  have hfirst : off.getD 0 0 = a := by
    have hget := hhead h
    rw [List.head?_eq_getElem?] at hget
    rw [List.getD_eq_getElem?_getD, hget]
    rfl
  have hlast : off.getD (0 + (cps.map Prod.snd).length) 0 = b := by
    rw [← hoff, Nat.zero_add, List.length_map, List.getD_eq_getElem?_getD,
      List.getElem?_append_right (by rw [List.length_map]), List.length_map, Nat.sub_self]
    rfl
  obtain ⟨step, hstep, hsplit⟩ := split_eq_cutFrom tok T (cps.map Prod.snd)
  rw [hsplit, cutFrom_spans p (fun i => off.getD i 0) hstep (Nat.le_refl _)
    (fun i j hij hj => getD_le_getD hpair hij (by omega)), hfirst, hlast]

/-- **Free text decodes to itself.** -/
theorem decode_pretokChunk (hc : tok.Complete) (hd : tok.Decodes) (T : Tables) (p : Bytes)
    {a : Nat} (hab : a ≤ b) : tok.decodeBytes (tok.pretokChunk T p a b) = spanText p (a, b) := by
  rcases Nat.eq_or_lt_of_le hab with rfl | hlt
  · rw [pretokChunk, if_pos (Nat.le_refl _), spanText, Nat.sub_self, List.take_zero]
    rfl
  · have hpieces : ∀ piece, (tok.bpePiece piece).flatMap tok.decodeId = piece := by
      intro piece
      rw [← Tokenizer.decodeBytes_eq_flatMap, decode_bpePiece hc hd]
    rw [pretokChunk_eq tok T p hlt, Tokenizer.decodeBytes_eq_flatMap, List.flatMap_assoc]
    simp only [hpieces]
    rw [List.flatMap_id', freePieces_flatten tok T p hlt]

/-! ## The whole text -/

theorem findHit_spec {p : Bytes} {pos : Nat} {sp : Special}
    (h : tok.findHit p i = some (pos, sp)) :
    i ≤ pos ∧ sp ∈ tok.specials ∧ 0 < sp.bytes.length ∧ pos + sp.bytes.length ≤ p.length ∧
      spanText p (pos, pos + sp.bytes.length) = sp.bytes := by
  obtain ⟨j, hj, hsp⟩ := List.exists_of_findSome?_eq_some h
  obtain ⟨sp', hfind, heq⟩ := Option.map_eq_some_iff.mp hsp
  cases heq
  have htest := List.find?_some hfind
  rw [Bool.and_eq_true, Bool.and_eq_true, decide_eq_true_eq, decide_eq_true_eq, beq_iff_eq] at htest
  exact ⟨(List.mem_range'_1.mp hj).1, List.mem_of_find?_eq_some hfind, htest.1.1, htest.1.2,
    htest.2⟩

/-- The loop of `encode` from position `i` on decodes to the text from there. -/
theorem decode_encodeFrom (hc : tok.Complete) (hd : tok.Decodes) (T : Tables) (p : Bytes)
    (hfuel : p.length - i ≤ fuel) :
    tok.decodeBytes (tok.encodeFrom T p fuel i) = p.drop i := by
  induction fuel generalizing i with
  | zero =>
    rw [List.drop_eq_nil_of_le (by omega)]
    rfl
  | succ fuel ih =>
    rw [encodeFrom]
    split
    next hi =>
      cases hhit : tok.findHit p i with
      | none =>
        dsimp only
        rw [decode_pretokChunk hc hd T p (Nat.le_of_lt hi), spanText_to_end]
      | some hit =>
        obtain ⟨pos, sp⟩ := hit
        obtain ⟨hle, hmem, hpos, hend, htext⟩ := findHit_spec hhit
        have hfront : tok.decodeBytes (if i < pos then tok.pretokChunk T p i pos else [])
            = spanText p (i, pos) := by
          split
          next hlt => exact decode_pretokChunk hc hd T p hle
          next hge =>
            rw [Nat.le_antisymm hle (Nat.le_of_not_lt hge), spanText, Nat.sub_self,
              List.take_zero]
            rfl
        have hspecial : tok.decodeBytes [sp.id] = spanText p (pos, pos + sp.bytes.length) := by
          rw [Tokenizer.decodeBytes_eq_flatMap, List.flatMap_singleton, hd.special sp hmem, htext]
        have hcons : ∀ ids : List Int, sp.id :: ids = [sp.id] ++ ids := fun ids => rfl
        dsimp only
        rw [hcons, Tokenizer.decodeBytes_append, Tokenizer.decodeBytes_append, hfront, hspecial,
          ih (by omega), ← spanText_to_end, ← spanText_to_end, spanText_append p (by omega) hend,
          spanText_append p hle (by omega)]
    next hi => exact (List.drop_eq_nil_of_le (Nat.le_of_not_lt hi)).symm

/-! ## The id tables -/

theorem decodeId_of_some {s : Bytes} (h0 : 0 ≤ id)
    (hs : tok.id2str.getD id.toNat none = some s) :
    tok.decodeId id = if tok.idAdded.getD id.toNat false then s else unmap s := by
  have hlt : id.toNat < tok.id2str.length := by
    refine Nat.lt_of_not_le fun hle => ?_
    rw [List.getD_eq_getElem?_getD, List.getElem?_eq_none hle] at hs
    cases hs
  rw [Tokenizer.decodeId, if_neg (by omega), hs]

section

variable {vocabJ : List (List Char × JsonValue)} {mergesJ addedJ : List JsonValue} {pretok : PreTok}

theorem build_vocab :
    (build vocabJ mergesJ addedJ pretok).vocab = (vocabEntries vocabJ).reverse := rfl

theorem mem_ids_iff : id ∈ (build vocabJ mergesJ addedJ pretok).ids ↔
    id ∈ (vocabEntries vocabJ).map Prod.snd ∨ id ∈ (addedEntries addedJ).map Special.id := by
  rw [ids, List.mem_append, build]
  dsimp only
  rw [List.map_reverse, List.mem_reverse, ((List.perm_insertionSort _ _).map Special.id).mem_iff]

theorem mem_ids_counted (h0 : 0 ≤ id) :
    id ∈ (build vocabJ mergesJ addedJ pretok).ids ↔ id ∈ countedIds vocabJ addedJ := by
  rw [mem_ids_iff, countedIds, List.mem_append, mem_addedIds_iff h0]

theorem ids_nodup_iff : (build vocabJ mergesJ addedJ pretok).ids.Nodup ↔
    ((vocabEntries vocabJ).map Prod.snd ++ (addedEntries addedJ).map Special.id).Nodup := by
  refine List.Perm.nodup_iff ?_
  rw [ids, build]
  dsimp only
  rw [List.map_reverse]
  exact (List.reverse_perm _).append ((List.perm_insertionSort _ _).map Special.id)

/-- **The id tables hold what encoding emits**, if they are not empty. -/
theorem build_decodes (hc : (build vocabJ mergesJ addedJ pretok).Complete)
    (hno : 2147483647 ∉ (build vocabJ mergesJ addedJ pretok).ids) :
    (build vocabJ mergesJ addedJ pretok).Decodes := by
  have hcounted : 2147483647 ∉ countedIds vocabJ addedJ :=
    fun h => hno ((mem_ids_counted (by decide)).mpr h)
  have hin : ∀ id ∈ (build vocabJ mergesJ addedJ pretok).ids,
      0 ≤ id ∧ id.toNat < nIds (countedIds vocabJ addedJ) := by
    intro id hid
    have h0 := hc.ids_nonneg id hid
    exact ⟨h0, lt_nIds (fun _ => countedIds_le) hcounted ((mem_ids_counted h0).mp hid)⟩
  have hnodup := ids_nodup_iff.mp hc.ids_nodup
  rw [List.nodup_append] at hnodup
  obtain ⟨hvocab, hadded, hdisj⟩ := hnodup
  -- the writes of the two loops, by id
  have hfstV : ((vocabEntries vocabJ).map fun kv => (kv.2, some kv.1)).map Prod.fst
      = (vocabEntries vocabJ).map Prod.snd := by
    rw [List.map_map]
    rfl
  have hfstA : ((addedEntries addedJ).map fun sp => (sp.id, some sp.bytes)).map Prod.fst
      = (addedEntries addedJ).map Special.id := by
    rw [List.map_map]
    rfl
  have hfstF : ((addedEntries addedJ).map fun sp => (sp.id, true)).map Prod.fst
      = (addedEntries addedJ).map Special.id := by
    rw [List.map_map]
    rfl
  constructor
  · intro s id h
    obtain ⟨l₁, l₂, hl, -⟩ := List.lookup_eq_some_iff.mp h
    have hmem : (s, id) ∈ vocabEntries vocabJ := by
      rw [← List.mem_reverse]
      have hvocab : (vocabEntries vocabJ).reverse = l₁ ++ (s, id) :: l₂ := hl
      rw [hvocab]
      exact List.mem_append_right _ (List.mem_cons_self ..)
    have hid : id ∈ (vocabEntries vocabJ).map Prod.snd := List.mem_map.mpr ⟨_, hmem, rfl⟩
    obtain ⟨h0, hlt⟩ := hin id (mem_ids_iff.mpr (Or.inl hid))
    have hnot : id ∉ (addedEntries addedJ).map Special.id := fun h => hdisj id hid id h rfl
    have hstr : (build vocabJ mergesJ addedJ pretok).id2str.getD id.toNat none = some s := by
      refine (getD_setEach_of_notMem _ none h0 (by rw [hfstA]; exact hnot)).trans ?_
      refine getD_setEach_of_mem _ none h0 (by rw [List.length_replicate]; exact hlt)
        (by rw [hfstV]; exact hvocab) ?_
      exact List.mem_map.mpr ⟨(s, id), hmem, rfl⟩
    have hplain : (build vocabJ mergesJ addedJ pretok).idAdded.getD id.toNat false = false := by
      refine (getD_setEach_of_notMem _ false h0 (by rw [hfstF]; exact hnot)).trans ?_
      rw [List.getD_eq_getElem?_getD, List.getElem?_getD_replicate_default_eq]
    rw [decodeId_of_some h0 hstr, hplain]
    rfl
  · intro sp hsp
    have hmem : sp ∈ addedEntries addedJ := (List.perm_insertionSort _ _).mem_iff.mp hsp
    have hid : sp.id ∈ (addedEntries addedJ).map Special.id := List.mem_map.mpr ⟨sp, hmem, rfl⟩
    obtain ⟨h0, hlt⟩ := hin sp.id (mem_ids_iff.mpr (Or.inr hid))
    have hstr : (build vocabJ mergesJ addedJ pretok).id2str.getD sp.id.toNat none
        = some sp.bytes := by
      refine getD_setEach_of_mem _ none h0 ?_ (by rw [hfstA]; exact hadded)
        (List.mem_map.mpr ⟨sp, hmem, rfl⟩)
      rw [length_setEach, List.length_replicate]
      exact hlt
    have hadd : (build vocabJ mergesJ addedJ pretok).idAdded.getD sp.id.toNat false = true :=
      getD_setEach_of_mem _ false h0 (by rw [List.length_replicate]; exact hlt)
        (by rw [hfstF]; exact hadded) (List.mem_map.mpr ⟨sp, hmem, rfl⟩)
    rw [decodeId_of_some h0 hstr, hadd]
    rfl

/-- With the largest 32-bit number as an id, nothing is decoded. -/
theorem decode_of_largest_id
    (h : 2147483647 ∈ (build vocabJ mergesJ addedJ pretok).ids) (ids : List Int) :
    (build vocabJ mergesJ addedJ pretok).decodeBytes ids = [] := by
  have hn : nIds (countedIds vocabJ addedJ) = 0 :=
    nIds_of_mem (fun _ => countedIds_le) ((mem_ids_counted (by decide)).mp h)
  have hlen : (build vocabJ mergesJ addedJ pretok).id2str.length = 0 := by
    refine (length_setEach ..).trans ((length_setEach ..).trans ?_)
    rw [List.length_replicate]
    exact hn
  rw [Tokenizer.decodeBytes_eq_flatMap, List.flatMap_eq_nil_iff]
  intro id _
  rw [Tokenizer.decodeId, if_pos (Or.inr (by rw [hlen]; exact Nat.zero_le _))]

end

/-- **When a text survives encoding and decoding**: with a complete vocabulary, always,
unless the largest 32-bit number is an id. -/
theorem decode_encode_iff {root : JsonValue} (hload : fromJson root = some tok) (hc : tok.Complete)
    (T : Tables) (text : Bytes) :
    tok.decodeBytes (tok.encode T text) = text ↔ 2147483647 ∉ tok.ids ∨ text = [] := by
  obtain ⟨vocabJ, mergesJ, addedJ, pretok, rfl⟩ : ∃ vocabJ mergesJ addedJ pretok,
      tok = build vocabJ mergesJ addedJ pretok := by
    simp only [fromJson, Option.bind_eq_bind, Option.bind_eq_some_iff, Option.pure_def,
      Option.some.injEq] at hload
    obtain ⟨model, -, vocab, -, vocabJ, -, merges, -, mergesJ, -, rfl⟩ := hload
    exact ⟨_, _, _, _, rfl⟩
  constructor
  · intro h
    refine or_iff_not_imp_left.mpr fun hmem => ?_
    rw [← h]
    exact decode_of_largest_id (Decidable.not_not.mp hmem) _
  · intro h
    rcases h with hno | rfl
    · exact decode_encodeFrom hc (build_decodes hc hno) T text (Nat.le_refl _)
    · rfl

/-- The bytes, and `ab`. -/
def sampleVocab : List (List Char × JsonValue) :=
  (List.range 256).map (fun b => ([Char.ofNat (bytemap.getD b 0)], .num (.ofInt b)))
    ++ [("ab".toList, .num (.ofInt 256))]

/-- An added token of the given id. -/
def sampleAdded (id : Int) : List JsonValue :=
  [.obj [("id".toList, .num (.ofInt id)), ("content".toList, .str "<x>".toList)]]

def sampleMerges : List JsonValue := [.arr [.str ['a'], .str ['b']]]

/-- A document with one merge and an added token. -/
def sampleRoot (id : Int) : JsonValue :=
  .obj [
    ("model".toList, .obj [("vocab".toList, .obj sampleVocab), ("merges".toList, .arr sampleMerges)]),
    ("added_tokens".toList, .arr (sampleAdded id))]

/-- The tokenizer of `sampleRoot`. -/
def sample (id : Int) : LoadedTokenizer :=
  build sampleVocab sampleMerges (sampleAdded id) .cl100k

theorem sample_loads (id : Int) : fromJson (sampleRoot id) = some (sample id) := by
  rfl

theorem sample_merges (id : Int) :
    (sample id).merges = [((Utf8.encode ['a'], Utf8.encode ['b']), 0)] := by
  rfl

theorem sample_vocab_ids :
    (vocabEntries sampleVocab).map Prod.snd = (List.range 257).map Int.ofNat := by
  decide +kernel

theorem sample_vocabGet (id : Int) (s : Bytes) :
    (sample id).vocabGet s = (vocabEntries sampleVocab).reverse.lookup s := by
  rw [vocabGet, sample, build_vocab]

theorem sample_vocabGet_isSome (id : Int) {s : List Char} {n : Int}
    (h : (s, JsonValue.num (.ofInt n)) ∈ sampleVocab) :
    ((sample id).vocabGet (Utf8.encode s)).isSome := by
  rw [sample_vocabGet, List.lookup_isSome_iff]
  refine ⟨(Utf8.encode s, asI32 (JsonValue.Decimal.ofInt n).asI64), List.mem_reverse.mpr ?_,
    beq_self_eq_true (Utf8.encode s)⟩
  exact List.mem_filterMap.mpr ⟨_, h, rfl⟩

theorem sample_added_ids (h0 : 0 ≤ id) (h : id ≤ 2147483647) :
    (addedEntries (sampleAdded id)).map Special.id = [id] := by
  obtain ⟨n, rfl⟩ := Int.eq_ofNat_of_zero_le h0
  have hread : (JsonValue.Decimal.ofInt n).asI64 = n := JsonValue.asI64_ofInt_of_le (by omega)
  have hkept : asI32 (JsonValue.Decimal.ofInt n).asI64 = n := by
    rw [hread]
    exact asI32_of_range (by omega) (by omega)
  have hkeep : (if asI32 (JsonValue.Decimal.ofInt n).asI64 < 0 then none
      else some (⟨Utf8.encode "<x>".toList, asI32 (JsonValue.Decimal.ofInt n).asI64⟩ : Special))
        = some ⟨Utf8.encode "<x>".toList, n⟩ := by
    rw [hkept, if_neg (by omega)]
  have hentries : addedEntries (sampleAdded n) = [⟨Utf8.encode "<x>".toList, n⟩] :=
    List.filterMap_cons_some hkeep
  rw [hentries]
  rfl

theorem byte2str_char : ∀ b < 256, Utf8.encode [Char.ofNat (bytemap.getD b 0)] =
    u8Put (bytemap.getD b 0) := by
  decide +kernel

/-- It is complete. -/
theorem sample_complete (h257 : 257 ≤ id) (h : id ≤ 2147483647) :
    (sample id).Complete where
  symbols := by
    intro b
    have hmem : ([Char.ofNat (bytemap.getD b.toNat 0)], JsonValue.num (.ofInt b.toNat))
        ∈ sampleVocab :=
      List.mem_append_left _ (List.mem_map.mpr ⟨b.toNat, List.mem_range.mpr b.toNat_lt, rfl⟩)
    have hsome := sample_vocabGet_isSome id hmem
    rwa [byte2str_char b.toNat b.toNat_lt] at hsome
  products := by
    intro e he
    rw [sample_merges, List.mem_singleton] at he
    rw [he]
    exact sample_vocabGet_isSome id (List.mem_append_right _ (List.mem_singleton.mpr rfl))
  ids_nodup := by
    rw [sample, ids_nodup_iff, sample_vocab_ids, sample_added_ids (by omega) h,
      List.nodup_append]
    refine ⟨List.nodup_range.map fun a b => Int.ofNat.inj, List.nodup_singleton id, ?_⟩
    intro a ha b hb
    obtain ⟨n, hn, rfl⟩ := List.mem_map.mp ha
    rw [List.mem_singleton] at hb
    rw [List.mem_range] at hn
    rw [hb, Int.ofNat_eq_natCast]
    omega
  ids_nonneg := by
    intro i hi
    rw [sample, mem_ids_iff, sample_vocab_ids, sample_added_ids (by omega) h] at hi
    rcases hi with hi | hi
    · obtain ⟨n, -, rfl⟩ := List.mem_map.mp hi
      exact Int.natCast_nonneg n
    · rw [List.mem_singleton] at hi
      omega

/-- `ab<x> a`, with ids from 0 to 257. -/
theorem sample_round_trip :
    (sample 257).decodeBytes ((sample 257).encode asciiTables (Utf8.encode "ab<x> a".toList))
        = Utf8.encode "ab<x> a".toList := by
  have hlast : 2147483647 ∉ (sample 257).ids := by
    intro hi
    rw [sample, mem_ids_iff, sample_vocab_ids, sample_added_ids (by decide) (by decide)] at hi
    rcases hi with hi | hi
    · obtain ⟨n, hn, heq⟩ := List.mem_map.mp hi
      rw [List.mem_range] at hn
      rw [Int.ofNat_eq_natCast] at heq
      omega
    · rw [List.mem_singleton] at hi
      omega
  exact (decode_encode_iff (sample_loads 257) (sample_complete (by decide) (by decide)) asciiTables
    _).mpr (.inl hlast)

/-- With 2147483647 as the id of the added token, `a` decodes to nothing. -/
theorem largest_id_loses_text : fromJson (sampleRoot 2147483647) = some (sample 2147483647) ∧
    (sample 2147483647).Complete ∧
    (sample 2147483647).decodeBytes ((sample 2147483647).encode asciiTables (Utf8.encode ['a'])) = [] ∧
    Utf8.encode ['a'] ≠ [] := by
  refine ⟨sample_loads _, sample_complete (by decide) (by decide), ?_, by decide⟩
  refine decode_of_largest_id (mem_ids_iff.mpr (Or.inr ?_)) _
  rw [sample_added_ids (by decide) (by decide)]
  exact List.mem_singleton.mpr rfl

end LoadedTokenizer

end Colibri
