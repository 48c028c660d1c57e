import Colibri.Cluster.Sharding
import Colibri.Config

/-!
# Splitting a container by tensor names

A node's shard of a container is chosen by name: the expert id is read back from
the text after `.mlp.experts.`, and a name without one is taken for a resident
tensor, which every node gets. The loader builds the names by architecture, and one
architecture's experts sit under `.mixer.experts.`. There every expert is taken for
resident and goes to all nodes; `select_splits_iff` says exactly when the names
split the container by ownership.

Names are lists of characters.

* `expertIdOf_mlp` and `expertIdOf_mixer`: under `mlp` the id of an expert is read back from the
  name, under `mixer` no id is found.
* `expertIdOf_resident`: a resident tensor's name has no id, if the container's names are what the
  loader asks for.
* `mixer_experts_everywhere` is a container of two experts and two nodes, where the first node is
  sent both.
-/

namespace Colibri.Cluster

/-! ## Names -/

/-- `ExpertLayout`. -/
structure ExpertLayout where
  /-- `prefix`: the mixer-block segment -/
  block : List Char
  gateless : Bool

/-- `ExpertLayout::for_arch`. -/
def ExpertLayout.forArch : Arch → ExpertLayout
  | .nemotronH => ⟨"mixer".toList, true⟩
  | _ => ⟨"mlp".toList, false⟩

def ExpertLayout.projs (l : ExpertLayout) : List (List Char) :=
  if l.gateless then ["up_proj".toList, "down_proj".toList]
  else ["gate_proj".toList, "up_proj".toList, "down_proj".toList]

/-- The parts of a name, each behind a dot. -/
def dotted (parts : List (List Char)) : List Char := parts.flatMap (fun part => '.' :: part)

/-- `weight_name`: `model.layers.{layer}.{prefix}.experts.{eid}.{suf}.weight`. -/
def ExpertLayout.weightName (l : ExpertLayout) (layer eid : Nat) (suf : List Char) : List Char :=
  "model".toList ++ dotted ["layers".toList, Nat.toDigits 10 layer, l.block, "experts".toList,
    Nat.toDigits 10 eid, suf, "weight".toList]

/-- What follows an expert's weight name: nothing, or that of a scale sidecar. -/
def sidecars : List (List Char) := [[], ".qs".toList, ".g".toList, ".mx".toList]

/-- The text after the first occurrence of `pat`. -/
def after (pat : List Char) : List Char → Option (List Char)
  | [] => if pat.isPrefixOf [] then some [] else none
  | c :: cs => if pat.isPrefixOf (c :: cs) then some ((c :: cs).drop pat.length) else after pat cs

/-- `str::parse::<u32>`: a sign, then digits, below `2^32`. -/
def parseU32 (s : List Char) : Option Nat :=
  let digits := match s with
    | '+' :: rest => rest
    | _ => s
  if digits.isEmpty || !digits.all Char.isDigit then none
  else if Nat.ofDigitChars 10 digits 0 < 2 ^ 32 then some (Nat.ofDigitChars 10 digits 0) else none

/-- `M`. -/
def expertMark : List Char := ".mlp.experts.".toList

def expertIdOf (name : List Char) : Option Nat :=
  match after expertMark name with
  | none => none
  | some rest => parseU32 (rest.takeWhile (fun c => c != '.'))

def selectShardNames (names : List (List Char)) (sharding : ExpertSharding) (me nExperts : Nat) :
    List (List Char) :=
  names.filter fun name =>
    match expertIdOf name with
    | some e => decide (e < nExperts) && sharding.isLocal me e
    | none => true

/-! ## Containers -/

/-- A tensor of a container. -/
inductive Tensor where
  | routed (layer eid : Nat) (proj sidecar : List Char)
  | resident (name : List Char)

/-- Its name, in a layout. -/
def Tensor.name (l : ExpertLayout) : Tensor → List Char
  | .routed layer eid proj sidecar => l.weightName layer eid proj ++ sidecar
  | .resident name => name

/-- A container as a converter writes it for `arch`: the experts' tensors are those
of the layout, and no other tensor sits under an `experts` segment. -/
structure Container (arch : Arch) (nExperts : Nat) where
  tensors : List Tensor
  /-- a `u32` -/
  nExperts_lt : nExperts < 2 ^ 32
  routed_wf : ∀ layer eid proj sidecar, Tensor.routed layer eid proj sidecar ∈ tensors →
    eid < nExperts ∧ proj ∈ (ExpertLayout.forArch arch).projs ∧ sidecar ∈ sidecars
  resident_wf : ∀ name, Tensor.resident name ∈ tensors →
    after expertMark name = none ∧ after ".mixer.experts.".toList name = none

/-- The names in it. -/
def Container.names {arch : Arch} {nExperts : Nat} (c : Container arch nExperts) :
    List (List Char) :=
  c.tensors.map (Tensor.name (ExpertLayout.forArch arch))

/-- **The nodes' shards split the container by ownership**: an expert's tensor goes
to the node that owns it and to no other, any other tensor to every node, and
together the nodes have the whole. -/
def Splits {arch : Arch} {nExperts : Nat} (c : Container arch nExperts)
    (sharding : ExpertSharding) : Prop :=
  (∀ t ∈ c.tensors, ∀ me < sharding.numNodes,
    (t.name (ExpertLayout.forArch arch) ∈ selectShardNames c.names sharding me nExperts ↔
      match t with
      | .routed _ eid _ _ => sharding.owner eid = me
      | .resident _ => True)) ∧
  ∀ name, (∃ me < sharding.numNodes, name ∈ selectShardNames c.names sharding me nExperts) ↔
    name ∈ c.names

/-! ## Reading a name back -/

theorem after_skip {c : Char} {cs : List Char} (h : c ≠ '.') :
    after expertMark (c :: cs) = after expertMark cs := by
  rw [after, if_neg]
  intro hp
  rw [List.isPrefixOf_iff_prefix] at hp
  exact h (List.cons_prefix_cons.mp hp).1.symm

theorem after_append {xs s : List Char} (h : '.' ∉ xs) :
    after expertMark (xs ++ s) = after expertMark s := by
  induction xs with
  | nil => rfl
  | cons x xs ih =>
    rw [List.mem_cons, not_or] at h
    rw [List.cons_append, after_skip (Ne.symm h.1), ih h.2]

/-- A part that does not start with `ml` is passed over. -/
theorem after_part {xs s : List Char} (h : '.' ∉ xs) (hml : ¬ ['m', 'l'] <+: xs)
    (hs : ∀ c, s.head? = some c → c = '.') :
    after expertMark ('.' :: (xs ++ s)) = after expertMark s := by
  have hno : ¬ ['m', 'l'] <+: xs ++ s := by
    intro hp
    match xs with
    | [] =>
      cases s with
      | nil => exact absurd (List.prefix_nil.mp hp) (List.cons_ne_nil _ _)
      | cons c s =>
        rw [hs c rfl] at hp
        exact absurd (List.cons_prefix_cons.mp hp).1 (by decide)
    | [x] =>
      obtain ⟨_, hp⟩ := List.cons_prefix_cons.mp hp
      cases s with
      | nil => exact absurd (List.prefix_nil.mp hp) (List.cons_ne_nil _ _)
      | cons c s =>
        rw [hs c rfl] at hp
        exact absurd (List.cons_prefix_cons.mp hp).1 (by decide)
    | x :: y :: xs =>
      obtain ⟨hx, hp⟩ := List.cons_prefix_cons.mp hp
      obtain ⟨hy, _⟩ := List.cons_prefix_cons.mp hp
      rw [← hx, ← hy] at hml
      exact hml (List.prefix_append _ xs)
  rw [after, if_neg]
  · exact after_append h
  · rw [List.isPrefixOf_iff_prefix]
    intro hp
    exact hno ((List.prefix_append ['m', 'l'] "p.experts.".toList).trans
      (List.cons_prefix_cons.mp hp).2)

theorem after_dotted {parts : List (List Char)} {tail : List Char}
    (h : ∀ part ∈ parts, '.' ∉ part ∧ ¬ ['m', 'l'] <+: part)
    (htail : ∀ c, tail.head? = some c → c = '.') :
    after expertMark (dotted parts ++ tail) = after expertMark tail := by
  induction parts with
  | nil => rfl
  | cons part parts ih =>
    obtain ⟨hdot, hml⟩ := h part (List.mem_cons_self ..)
    have hrest : ∀ c, (dotted parts ++ tail).head? = some c → c = '.' := by
      intro c hc
      cases parts with
      | nil => exact htail c hc
      | cons => exact (Option.some.inj hc).symm
    have hcons : dotted (part :: parts) ++ tail = '.' :: (part ++ (dotted parts ++ tail)) := by
      rw [dotted, List.flatMap_cons, List.cons_append, List.cons_append, List.append_assoc]
      rfl
    rw [hcons, after_part hdot hml hrest, ih fun q hq => h q (List.mem_cons_of_mem _ hq)]

theorem after_expertMark (s : List Char) : after expertMark (expertMark ++ s) = some s := by
  show after expertMark ('.' :: ("mlp.experts.".toList ++ s)) = some s
  rw [after, if_pos]
  · exact congrArg some (List.drop_left' rfl)
  · rw [List.isPrefixOf_iff_prefix]
    exact List.prefix_append expertMark s

theorem dot_notMem_digits (n : Nat) : '.' ∉ Nat.toDigits 10 n := by
  intro h
  have hdigit : Char.isDigit '.' = true :=
    Nat.isDigit_of_mem_toDigits (by decide) (by decide) h
  exact absurd hdigit (by decide)

theorem ml_not_digits (n : Nat) : ¬ ['m', 'l'] <+: Nat.toDigits 10 n := by
  intro h
  have hdigit : Char.isDigit 'm' = true :=
    Nat.isDigit_of_mem_toDigits (by decide) (by decide) (h.subset (List.mem_cons_self ..))
  exact absurd hdigit (by decide)

theorem takeWhile_dot {xs s : List Char} (h : '.' ∉ xs) :
    (xs ++ '.' :: s).takeWhile (fun c => c != '.') = xs := by
  rw [List.takeWhile_append_of_pos, List.takeWhile_cons_of_neg (by decide), List.append_nil]
  intro c hc
  rw [bne_iff_ne]
  rintro rfl
  exact h hc

/-- A number written out is read back. -/
theorem parseU32_digits {n : Nat} (h : n < 2 ^ 32) : parseU32 (Nat.toDigits 10 n) = some n := by
  have hdigit : ∀ c ∈ Nat.toDigits 10 n, Char.isDigit c = true :=
    fun c hc => Nat.isDigit_of_mem_toDigits (by decide) (by decide) hc
  have hsign : (match Nat.toDigits 10 n with | '+' :: rest => rest | _ => Nat.toDigits 10 n)
      = Nat.toDigits 10 n := by
    split
    next rest heq =>
      have hplus : Char.isDigit '+' = true := hdigit '+' (heq ▸ List.mem_cons_self ..)
      exact absurd hplus (by decide)
    next => rfl
  unfold parseU32
  rw [hsign]
  dsimp only
  rw [if_neg, Nat.ofDigitChars_ten_toDigits, if_pos h]
  rw [Bool.or_eq_true, not_or]
  constructor
  · rw [List.isEmpty_iff]
    exact Nat.toDigits_ne_nil
  · rw [Bool.not_eq_true', Bool.not_eq_false, List.all_eq_true]
    exact hdigit

theorem digits_part (n : Nat) :
    '.' ∉ Nat.toDigits 10 n ∧ ¬ ['m', 'l'] <+: Nat.toDigits 10 n :=
  ⟨dot_notMem_digits n, ml_not_digits n⟩

/-- **Under `mlp` the id is read back.** -/
theorem expertIdOf_mlp {l : ExpertLayout} (hl : l.block = "mlp".toList) {layer eid : Nat}
    (suf tail : List Char) (h : eid < 2 ^ 32) :
    expertIdOf (l.weightName layer eid suf ++ tail) = some eid := by
  have hname : l.weightName layer eid suf ++ tail = "model".toList
      ++ (dotted ["layers".toList, Nat.toDigits 10 layer]
        ++ (expertMark ++ (Nat.toDigits 10 eid
          ++ '.' :: (suf ++ (dotted ["weight".toList] ++ tail))))) := by
    have hmark : expertMark = '.' :: "mlp".toList ++ ('.' :: "experts".toList ++ ['.']) := by decide
    simp only [ExpertLayout.weightName, hl, dotted, hmark, List.flatMap_cons, List.flatMap_nil,
      List.append_assoc, List.cons_append, List.nil_append]
  have hparts : ∀ part ∈ ["layers".toList, Nat.toDigits 10 layer],
      '.' ∉ part ∧ ¬ ['m', 'l'] <+: part := by
    intro part hpart
    rcases List.mem_cons.mp hpart with rfl | hpart
    · decide
    · rw [List.mem_singleton.mp hpart]
      exact digits_part layer
  have hafter : after expertMark (l.weightName layer eid suf ++ tail) = some (Nat.toDigits 10 eid
      ++ '.' :: (suf ++ (dotted ["weight".toList] ++ tail))) := by
    rw [hname, after_append (by decide), after_dotted hparts, after_expertMark]
    intro c hc
    exact (Option.some.inj hc).symm
  unfold expertIdOf
  rw [hafter]
  dsimp only
  rw [takeWhile_dot (dot_notMem_digits eid), parseU32_digits h]

/-- **Under `mixer` it is not**: the name is taken for a resident tensor's. -/
theorem expertIdOf_mixer {l : ExpertLayout} (hl : l.block = "mixer".toList) {layer eid : Nat}
    {suf tail : List Char} (hsuf : suf ∈ ["up_proj".toList, "down_proj".toList])
    (htail : tail ∈ sidecars) : expertIdOf (l.weightName layer eid suf ++ tail) = none := by
  have hparts : ∀ part ∈ ["layers".toList, Nat.toDigits 10 layer, l.block, "experts".toList,
      Nat.toDigits 10 eid, suf, "weight".toList], '.' ∉ part ∧ ¬ ['m', 'l'] <+: part := by
    simp only [List.forall_mem_cons, hl]
    refine ⟨by decide, digits_part layer, by decide, by decide, digits_part eid, ?_, by decide,
      fun _ h => nomatch h⟩
    rcases List.mem_cons.mp hsuf with rfl | hsuf
    · decide
    · rw [List.mem_singleton.mp hsuf]
      decide
  have htails : (∀ c, tail.head? = some c → c = '.') ∧ after expertMark tail = none := by
    unfold sidecars at htail
    simp only [List.mem_cons, List.not_mem_nil, or_false] at htail
    rcases htail with rfl | rfl | rfl | rfl
    · exact ⟨fun c hc => absurd hc (by simp), rfl⟩
    all_goals exact ⟨fun c hc => (Option.some.inj hc).symm, by decide⟩
  have hafter : after expertMark (l.weightName layer eid suf ++ tail) = none := by
    rw [ExpertLayout.weightName, List.append_assoc, after_append (by decide),
      after_dotted hparts htails.1, htails.2]
  unfold expertIdOf
  rw [hafter]

/-! ## The result -/

/-- What a node is sent: the names without an id, and those whose id it owns. -/
theorem mem_selectShardNames {names : List (List Char)} {sharding : ExpertSharding}
    {me nExperts : Nat} {name : List Char} :
    name ∈ selectShardNames names sharding me nExperts ↔ name ∈ names ∧
      ∀ e, expertIdOf name = some e → e < nExperts ∧ sharding.owner e = me := by
  rw [selectShardNames, List.mem_filter]
  cases expertIdOf name with
  | none => exact and_congr_right fun _ => iff_of_true rfl (fun _ h => nomatch h)
  | some e =>
    refine and_congr_right fun _ => ?_
    rw [Bool.and_eq_true, decide_eq_true_eq, ExpertSharding.isLocal_iff]
    constructor
    · rintro h e' he'
      cases he'
      exact h
    · intro h
      exact h e rfl

section

variable {arch : Arch} {nExperts : Nat} {c : Container arch nExperts} {sharding : ExpertSharding}

/-- What a name's id says where the experts sit under `mlp`. -/
theorem expertIdOf_routed (harch : arch ≠ .nemotronH) {layer eid : Nat} {proj sidecar : List Char}
    (h : Tensor.routed layer eid proj sidecar ∈ c.tensors) :
    expertIdOf (Tensor.name (ExpertLayout.forArch arch) (.routed layer eid proj sidecar))
      = some eid := by
  have hblock : (ExpertLayout.forArch arch).block = "mlp".toList := by
    cases arch <;> first | rfl | exact absurd rfl harch
  exact expertIdOf_mlp hblock proj sidecar
    (Nat.lt_trans (c.routed_wf layer eid proj sidecar h).1 c.nExperts_lt)

theorem expertIdOf_resident {name : List Char} (h : Tensor.resident name ∈ c.tensors) :
    expertIdOf name = none := by
  unfold expertIdOf
  rw [(c.resident_wf name h).1]

/-- **The names split a container by ownership** exactly when its experts sit under
`mlp`, or there is one node, or no expert to split. -/
theorem select_splits_iff (c : Container arch nExperts) {numNodes : Nat} (hn : 1 ≤ numNodes)
    (he : 1 ≤ nExperts) :
    Splits c (ExpertSharding.new numNodes nExperts hn he) ↔
      arch ≠ .nemotronH ∨ numNodes = 1 ∨
        ∀ layer eid proj sidecar, Tensor.routed layer eid proj sidecar ∉ c.tensors := by
  set sharding := ExpertSharding.new numNodes nExperts hn he with hsharding
  have hmemNames : ∀ t ∈ c.tensors, t.name (ExpertLayout.forArch arch) ∈ c.names :=
    fun t ht => List.mem_map_of_mem ht
  constructor
  · -- a node that does not own the expert is sent its tensor
    rintro ⟨hsplit, _⟩
    by_contra hfail
    push Not at hfail
    obtain ⟨rfl, hone, layer, eid, proj, sidecar, ht⟩ := hfail
    obtain ⟨_, hproj, hside⟩ := c.routed_wf layer eid proj sidecar ht
    have hall : ∀ me < numNodes, sharding.owner eid = me := by
      intro me hme
      refine (hsplit _ ht me hme).mp (mem_selectShardNames.mpr ⟨hmemNames _ ht, fun e h => ?_⟩)
      have hnone : expertIdOf (Tensor.name (ExpertLayout.forArch .nemotronH)
          (.routed layer eid proj sidecar)) = none := expertIdOf_mixer rfl hproj hside
      rw [hnone] at h
      cases h
    have h0 := hall 0 (by omega)
    have h1 := hall 1 (by omega)
    omega
  · intro hcase
    -- for a routed tensor, the names kept at `me` are those of its owner
    have hrouted : ∀ layer eid proj sidecar, Tensor.routed layer eid proj sidecar ∈ c.tensors →
        ∀ me < numNodes, (Tensor.name (ExpertLayout.forArch arch)
          (.routed layer eid proj sidecar) ∈ selectShardNames c.names sharding me nExperts
            ↔ sharding.owner eid = me) := by
      intro layer eid proj sidecar ht me hme
      obtain ⟨hlt, hproj, hside⟩ := c.routed_wf layer eid proj sidecar ht
      have howner : sharding.owner eid < numNodes := ExpertSharding.owner_lt (s := sharding) hlt
      rw [mem_selectShardNames]
      by_cases harch : arch = .nemotronH
      · have hone : numNodes = 1 := by
          rcases hcase with h | h | h
          · exact absurd harch h
          · exact h
          · exact absurd ht (h layer eid proj sidecar)
        subst harch
        refine iff_of_true ⟨hmemNames _ ht, fun e h => ?_⟩ (by omega)
        have hnone : expertIdOf (Tensor.name (ExpertLayout.forArch .nemotronH)
            (.routed layer eid proj sidecar)) = none := expertIdOf_mixer rfl hproj hside
        rw [hnone] at h
        cases h
      · rw [expertIdOf_routed harch ht]
        constructor
        · rintro ⟨_, h⟩
          exact (h eid rfl).2
        · rintro h
          refine ⟨hmemNames _ ht, fun e he' => ?_⟩
          cases he'
          exact ⟨hlt, h⟩
    have hresident : ∀ name, Tensor.resident name ∈ c.tensors → ∀ me,
        name ∈ selectShardNames c.names sharding me nExperts := by
      intro name ht me
      refine mem_selectShardNames.mpr ⟨hmemNames _ ht, fun e h => ?_⟩
      rw [expertIdOf_resident ht] at h
      cases h
    refine ⟨fun t ht me hme => ?_, fun name => ⟨?_, ?_⟩⟩
    · cases t with
      | routed layer eid proj sidecar => exact hrouted layer eid proj sidecar ht me hme
      | resident name => exact iff_of_true (hresident name ht me) trivial
    · rintro ⟨me, _, h⟩
      exact (mem_selectShardNames.mp h).1
    · intro h
      obtain ⟨t, ht, rfl⟩ := List.mem_map.mp h
      cases t with
      | routed layer eid proj sidecar =>
        have howner : sharding.owner eid < numNodes :=
          ExpertSharding.owner_lt (s := sharding) (c.routed_wf layer eid proj sidecar ht).1
        exact ⟨_, howner, (hrouted layer eid proj sidecar ht _ howner).mpr rfl⟩
      | resident name => exact ⟨0, hn, hresident name ht 0⟩

end

/-- A container of two experts and a router, for any layout. -/
def twoExperts (arch : Arch) : Container arch 2 where
  tensors := [.resident "model.layers.0.gate.weight".toList, .routed 0 0 "up_proj".toList [],
    .routed 0 1 "up_proj".toList ".qs".toList]
  nExperts_lt := by decide
  routed_wf := by
    intro layer eid proj sidecar h
    simp only [List.mem_cons, reduceCtorEq, List.not_mem_nil, or_false, false_or,
      Tensor.routed.injEq] at h
    rcases h with ⟨rfl, rfl, rfl, rfl⟩ | ⟨rfl, rfl, rfl, rfl⟩
    · cases arch <;> decide
    · cases arch <;> decide
  resident_wf := by
    intro name h
    simp only [List.mem_cons, reduceCtorEq, List.not_mem_nil, or_false, Tensor.resident.injEq] at h
    rw [h]
    decide

theorem select_splits_two_experts :
    Splits (twoExperts .glmMoeDsa) (ExpertSharding.new 2 2 (by decide) (by decide)) :=
  (select_splits_iff (twoExperts .glmMoeDsa) (by decide) (by decide)).mpr (Or.inl (by decide))

/-- Node 0 is sent both of Nemotron's experts, though node 1 owns the second. -/
theorem mixer_experts_everywhere :
    (ExpertSharding.new 2 2 (by decide) (by decide)).owner 1 = 1 ∧
    selectShardNames (twoExperts .nemotronH).names
        (ExpertSharding.new 2 2 (by decide) (by decide)) 0 2 = (twoExperts .nemotronH).names ∧
    ¬ Splits (twoExperts .nemotronH) (ExpertSharding.new 2 2 (by decide) (by decide)) := by
  refine ⟨by decide, by decide, ?_⟩
  rintro ⟨h, _⟩
  have hwrong := (h (.routed 0 1 "up_proj".toList ".qs".toList) (by simp [twoExperts]) 0
    (by decide)).mp (by decide)
  exact absurd hwrong (by decide)

end Colibri.Cluster
