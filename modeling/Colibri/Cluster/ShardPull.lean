import Colibri.Lib.Paths
import Colibri.Lib.Utf8
import Colibri.Lib.Wire
import Mathlib.Data.List.Nodup

/-!
# Pulling a shard

`shard-serve` announces a number of files and sends each as a path, a size and the
bytes; `shard-pull` writes what it is told. The receiver takes the peer's word for all of
it: the path is joined to the output directory as it stands, and the length of the path
sizes a buffer before anything is compared with it.

`Contained` is what a receiver of untrusted bytes should guarantee and `Welcome` what
the stream has to be for this one to guarantee it: no announced path leads outside, no
two lead to one file, no announced path length passes the cap. `contained_iff` says
that they are the same.

* `copyLoop_spec` and `pullFile_cases` are one announced file: it goes through, or the loop stops.
* `pullFiles_cases` is the loop on any stream, and `pullFiles_placed` on one whose files go through.
* `contained_of_stopped` and `contained_of_all` are the two ways a transfer can end.
* `contained_iff` is the result, for every byte stream and every disk.
* `wire_is_trusted` has streams for each of the three things that are not checked: an absolute path,
  two spellings of one name, and the length of a path that does not come.
-/

namespace Colibri.Cluster

open Wire Paths

/-- The file system under the loop: its directories, where creating a file is refused for
another reason, how many bytes each file can take, and the files. -/
structure Disk where
  dirs : Loc → Bool
  refuses : Loc → Bool
  room : Loc → Nat
  files : Loc → Option (List UInt8)

/-- Where `File::create(out_dir.join(path))` puts the file, if it makes one. -/
def Disk.target (d : Disk) (dir : Loc) (path : List Char) : Option Loc :=
  (Paths.target d.dirs dir path).filter fun loc => !d.refuses loc

def Disk.write (d : Disk) (loc : Loc) (bytes : List UInt8) : Disk :=
  { d with files := fun l => if l = loc then some bytes else d.files l }

/-- What the loop has done so far: the files created or truncated, in order, and the
buffers sized by a length from the wire. -/
structure Pulled where
  disk : Disk
  created : List Loc
  allocs : List Nat
  total : Nat

/-! ## The loop -/

def readExact (n : Nat) (s : List UInt8) : Option (List UInt8 × List UInt8) :=
  if n ≤ s.length then some (s.take n, s.drop n) else none

/-- The buffers it allocates, and the path. -/
def rdPath (s : List UInt8) : List Nat × Option (List Char × List UInt8) :=
  match getWord s with
  | none => ([], none)
  | some (n, s) => ([n], (readExact n s).map fun (b, s) => (Utf8.lossy b, s))

/-- `8 << 20` -/
def bufLen : Nat := 8388608

/-- `while left > 0`: the bytes written, and the stream after them unless a read or a write
failed. A turn copies at least a byte, so `left` turns are enough. -/
def copyLoop (room : Nat) : Nat → Nat → List UInt8 → List UInt8 →
    List UInt8 × Option (List UInt8)
  | 0, _, s, written => (written, some s)
  | fuel + 1, left, s, written =>
    if left = 0 then (written, some s)
    else
      let want := min bufLen left
      match readExact want s with
      | none => (written, none)
      | some (b, s) =>
        if written.length + b.length > room then (written, none)
        else copyLoop room fuel (left - want) s (written ++ b)

/-- One announced file: the state after it, and the rest of the stream unless an error ended
the loop. -/
def pullFile (dir : Loc) (s : List UInt8) (p : Pulled) : Pulled × Option (List UInt8) :=
  let (sizes, path) := rdPath s
  let p := { p with allocs := p.allocs ++ sizes }
  match path with
  | none => (p, none)
  | some (path, s) =>
    match getLong s with
    | none => (p, none)
    | some (size, s) =>
      match p.disk.target dir path with
      | none => (p, none)
      | some loc =>
        let p := { p with disk := p.disk.write loc [], created := p.created ++ [loc] }
        let (body, s) := copyLoop (p.disk.room loc) size size s []
        let p := { p with disk := p.disk.write loc body }
        match s with
        | none => (p, none)
        | some s => ({ p with total := (p.total + size) % 2 ^ 64 }, some s)

/-- `for _ in 0..n_files` -/
def pullFiles (dir : Loc) : Nat → List UInt8 → Pulled → Pulled × Bool
  | 0, _, p => (p, true)
  | n + 1, s, p =>
    match pullFile dir s p with
    | (p, none) => (p, false)
    | (p, some s) => pullFiles dir n s p

/-- The receive loop of `cmd_shard_pull` on the bytes of a peer: what it did, and the number
of files and bytes it reports unless it reports an error. -/
def shardPull (disk : Disk) (dir : Loc) (s : List UInt8) : Pulled × Option (Nat × Nat) :=
  let p : Pulled := ⟨disk, [], [], 0⟩
  match getLong s with
  | none => (p, none)
  | some (n, s) =>
    match pullFiles dir n s p with
    | (p, true) => (p, some (n, p.total))
    | (p, false) => (p, none)

/-! ## The wire form -/

/-- A file as the peer sends it. -/
structure Announced where
  path : List UInt8
  bytes : List UInt8
  path_lt : path.length < 2 ^ 32
  bytes_lt : bytes.length < 2 ^ 64

def putHead (path : List UInt8) (size : Nat) : List UInt8 :=
  putWord path.length ++ (path ++ putLong size)

def putFile (f : Announced) : List UInt8 := putHead f.path f.bytes.length ++ f.bytes

/-- Where a file ends up that is created and has room. -/
def Disk.place (d : Disk) (dir : Loc) (f : Announced) : Option Loc :=
  (d.target dir (Utf8.lossy f.path)).filter fun loc => decide (f.bytes.length ≤ d.room loc)

/-- Writing files leaves the directories, so a place stays where it is. -/
structure SameTree (d d' : Disk) : Prop where
  dirs : d'.dirs = d.dirs
  refuses : d'.refuses = d.refuses
  room : d'.room = d.room

variable {d : Disk} {n : Nat} {fs : List (Announced × Loc)}

theorem SameTree.target {d' : Disk} (h : SameTree d d') (dir : Loc) (path : List Char) :
    d'.target dir path = d.target dir path := by
  unfold Disk.target
  rw [h.dirs, h.refuses]

theorem SameTree.place {d' : Disk} (h : SameTree d d') (dir : Loc) (f : Announced) :
    d'.place dir f = d.place dir f := by
  unfold Disk.place
  rw [h.target, h.room]

theorem sameTree_write (d : Disk) (loc : Loc) (bytes : List UInt8) :
    SameTree d (d.write loc bytes) :=
  ⟨rfl, rfl, rfl⟩

theorem SameTree.trans {a b c : Disk} (h : SameTree a b) (h' : SameTree b c) : SameTree a c :=
  ⟨h'.dirs.trans h.dirs, h'.refuses.trans h.refuses, h'.room.trans h.room⟩

theorem write_write (d : Disk) (loc : Loc) (a b : List UInt8) :
    (d.write loc a).write loc b = d.write loc b := by
  unfold Disk.write
  congr 1
  funext l
  by_cases h : l = loc
  · rw [if_pos h, if_pos h]
  · rw [if_neg h, if_neg h]
    exact if_neg h

/-- The state after a file that went through. -/
def Pulled.took (p : Pulled) (f : Announced × Loc) : Pulled :=
  { disk := p.disk.write f.2 f.1.bytes
    created := p.created ++ [f.2]
    allocs := p.allocs ++ [f.1.path.length]
    total := (p.total + f.1.bytes.length) % 2 ^ 64 }

theorem readExact_append (a b : List UInt8) : readExact a.length (a ++ b) = some (a, b) := by
  unfold readExact
  rw [if_pos (by rw [List.length_append]; omega), List.take_left, List.drop_left]

theorem readExact_inv {s a b : List UInt8} (h : readExact n s = some (a, b)) :
    s = a ++ b ∧ a.length = n := by
  unfold readExact at h
  split at h
  next hle =>
    obtain ⟨rfl, rfl⟩ := Prod.mk.inj (Option.some.inj h)
    exact ⟨(List.take_append_drop n s).symm, by rw [List.length_take]; omega⟩
  next => cases h

/-- The copy loop gets through exactly when the bytes are there and the file has room. -/
theorem copyLoop_spec (room fuel left : Nat) (s written : List UInt8) (hfuel : left ≤ fuel) :
    (left ≤ s.length → written.length + left ≤ room →
      copyLoop room fuel left s written = (written ++ s.take left, some (s.drop left))) ∧
    ((copyLoop room fuel left s written).2 ≠ none →
      left ≤ s.length ∧ (0 < left → written.length + left ≤ room)) := by
  induction fuel generalizing left s written with
  | zero =>
    obtain rfl : left = 0 := by omega
    simp [copyLoop]
  | succ fuel ih =>
    rw [copyLoop]
    by_cases h0 : left = 0
    · subst h0
      simp
    · rw [if_neg h0]
      have hwant : 0 < min bufLen left := Nat.lt_min.mpr ⟨by decide, by omega⟩
      have hle : min bufLen left ≤ left := Nat.min_le_right ..
      generalize min bufLen left = want at hwant hle ⊢
      dsimp only
      by_cases hread : want ≤ s.length
      · rw [show readExact want s = some (s.take want, s.drop want) from if_pos hread]
        dsimp only
        have hlen : (s.take want).length = want := by
          rw [List.length_take]
          omega
        rw [hlen]
        by_cases hroom : written.length + want > room
        · rw [if_pos hroom]
          refine ⟨?_, fun h => absurd rfl h⟩
          intro _ h
          omega
        · rw [if_neg hroom]
          obtain ⟨hgo, hback⟩ := ih (left - want) (s.drop want) (written ++ s.take want) (by omega)
          rw [List.length_append, hlen, List.length_drop] at hgo hback
          refine ⟨?_, ?_⟩
          · intro hs hr
            rw [hgo (by omega) (by omega), List.append_assoc, ← List.take_add, List.drop_drop,
              Nat.add_sub_cancel' hle]
          · intro h
            obtain ⟨h1, h2⟩ := hback h
            omega
      · rw [show readExact want s = none from if_neg hread]
        refine ⟨?_, fun h => absurd rfl h⟩
        intro h
        omega

theorem rdPath_put {path : List UInt8} (h : path.length < 2 ^ 32) (s : List UInt8) :
    rdPath (putWord path.length ++ (path ++ s)) = ([path.length], some (Utf8.lossy path, s)) := by
  unfold rdPath
  rw [getWord_putWord_of_lt h]
  dsimp only
  rw [readExact_append]
  rfl

/-- A file that is created and has room goes through. -/
theorem pullFile_done {dir loc : Loc} {f : Announced} {p : Pulled}
    (h : p.disk.place dir f = some loc) (s : List UInt8) :
    pullFile dir (putFile f ++ s) p = (p.took (f, loc), some s) := by
  obtain ⟨htarget, hroom⟩ := Option.filter_eq_some_iff.mp h
  have hfit : f.bytes.length ≤ p.disk.room loc := of_decide_eq_true hroom
  unfold pullFile putFile putHead
  rw [List.append_assoc, List.append_assoc, List.append_assoc, rdPath_put f.path_lt]
  dsimp only
  rw [getLong_putLong f.bytes_lt]
  dsimp only
  rw [htarget]
  dsimp only
  have hcopy := (copyLoop_spec (p.disk.room loc) f.bytes.length f.bytes.length (f.bytes ++ s) []
    (Nat.le_refl _)).1 (by rw [List.length_append]; omega) (by simpa using hfit)
  rw [List.take_left, List.drop_left, List.nil_append] at hcopy
  rw [show (p.disk.write loc []).room loc = p.disk.room loc from rfl, hcopy]
  dsimp only
  rw [write_write]
  rfl

/-- What a file that does not go through leaves: a buffer whose length stands on the wire,
and a file created where the announced path leads. -/
structure Stopped (dir : Loc) (s : List UInt8) (p p' : Pulled) : Prop where
  allocs : ∃ as, p'.allocs = p.allocs ++ as ∧
    ∀ n ∈ as, n < 2 ^ 32 ∧ ∃ rest, s = putWord n ++ rest
  created : ∃ cs, p'.created = p.created ++ cs ∧
    ∀ loc ∈ cs, ∃ path size rest, path.length < 2 ^ 32 ∧ size < 2 ^ 64 ∧
      s = putHead path size ++ rest ∧ p.disk.target dir (Utf8.lossy path) = some loc

/-- One announced file goes through, or stops the loop. -/
theorem pullFile_cases (dir : Loc) (s : List UInt8) (p : Pulled) :
    (∃ f loc s', s = putFile f ++ s' ∧ p.disk.place dir f = some loc) ∨
      ((pullFile dir s p).2 = none ∧ Stopped dir s p (pullFile dir s p).1) := by
  unfold pullFile rdPath
  rcases hw : getWord s with _ | ⟨n, s₁⟩
  · exact Or.inr ⟨rfl, ⟨[], rfl, by simp⟩, ⟨[], by simp, by simp⟩⟩
  obtain ⟨rfl, hn⟩ := putWord_of_getWord hw
  have hallocs : ∀ as, as = [n] →
      ∀ k ∈ as, k < 2 ^ 32 ∧ ∃ rest, putWord n ++ s₁ = putWord k ++ rest := by
    rintro as rfl k hk
    rw [List.mem_singleton.mp hk]
    exact ⟨hn, s₁, rfl⟩
  dsimp only
  rcases hr : readExact n s₁ with _ | ⟨path, s₂⟩
  · exact Or.inr ⟨rfl, ⟨_, rfl, hallocs _ rfl⟩, ⟨[], by simp, by simp⟩⟩
  obtain ⟨rfl, rfl⟩ := readExact_inv hr
  dsimp only [Option.map_some]
  rcases hl : getLong s₂ with _ | ⟨size, s₃⟩
  · exact Or.inr ⟨rfl, ⟨_, rfl, hallocs _ rfl⟩, ⟨[], by simp, by simp⟩⟩
  obtain ⟨rfl, hsize⟩ := putLong_of_getLong hl
  dsimp only
  rcases ht : p.disk.target dir (Utf8.lossy path) with _ | loc
  · exact Or.inr ⟨rfl, ⟨_, rfl, hallocs _ rfl⟩, ⟨[], by simp, by simp⟩⟩
  have hcreated : ∀ l ∈ [loc], ∃ path' size' rest, path'.length < 2 ^ 32 ∧ size' < 2 ^ 64 ∧
      putWord path.length ++ (path ++ (putLong size ++ s₃)) = putHead path' size' ++ rest ∧
      p.disk.target dir (Utf8.lossy path') = some l := by
    intro l hl
    rw [List.mem_singleton.mp hl]
    refine ⟨path, size, s₃, hn, hsize, ?_, ht⟩
    unfold putHead
    simp only [List.append_assoc]
  dsimp only
  obtain ⟨hgo, hback⟩ := copyLoop_spec (p.disk.room loc) size size s₃ [] (Nat.le_refl _)
  rw [show (p.disk.write loc []).room loc = p.disk.room loc from rfl]
  rcases hc : copyLoop (p.disk.room loc) size size s₃ [] with ⟨body, _ | s₄⟩
  · exact Or.inr ⟨rfl, ⟨_, rfl, hallocs _ rfl⟩, ⟨_, rfl, hcreated⟩⟩
  · refine Or.inl ⟨⟨path, s₃.take size, hn, ?_⟩, loc, s₃.drop size, ?_, ?_⟩
    all_goals
      obtain ⟨hlen, hroom⟩ := hback (by rw [hc]; exact Option.some_ne_none _)
    · rw [List.length_take]
      omega
    · unfold putFile putHead
      dsimp only
      rw [List.length_take, Nat.min_eq_left hlen]
      simp only [List.append_assoc, List.take_append_drop]
    · apply Option.filter_eq_some_iff.mpr
      refine ⟨ht, decide_eq_true ?_⟩
      dsimp only
      rw [List.length_take, Nat.min_eq_left hlen]
      rcases Nat.eq_zero_or_pos size with h0 | hpos
      · omega
      · simpa using hroom hpos

/-! ## The whole loop -/

/-- The wire form of files, beside the places they go to. -/
def putAll (fs : List (Announced × Loc)) : List UInt8 := fs.flatMap fun f => putFile f.1

/-- Every file goes where its path leads. -/
def Placed (d : Disk) (dir : Loc) (fs : List (Announced × Loc)) : Prop :=
  ∀ f ∈ fs, d.place dir f.1 = some f.2

theorem placed_nil (d : Disk) (dir : Loc) : Placed d dir [] := by
  intro f hf
  cases hf

theorem Placed.tail {d' : Disk} {dir : Loc} {f : Announced × Loc}
    (h : Placed d dir (f :: fs)) (ht : SameTree d d') : Placed d' dir fs := by
  intro x hx
  rw [ht.place]
  exact h x (List.mem_cons_of_mem _ hx)

theorem foldl_took_tree (fs : List (Announced × Loc)) (p : Pulled) :
    SameTree p.disk (fs.foldl Pulled.took p).disk := by
  induction fs generalizing p with
  | nil => exact ⟨rfl, rfl, rfl⟩
  | cons f fs ih =>
    have hstep : SameTree p.disk (p.took f).disk := sameTree_write ..
    exact hstep.trans (ih _)

theorem foldl_took_created (fs : List (Announced × Loc)) (p : Pulled) :
    (fs.foldl Pulled.took p).created = p.created ++ fs.map Prod.snd := by
  induction fs generalizing p with
  | nil => exact (List.append_nil _).symm
  | cons f fs ih =>
    rw [List.foldl_cons, ih]
    show p.created ++ [f.2] ++ fs.map Prod.snd = _
    rw [List.append_assoc]
    rfl

theorem foldl_took_allocs (fs : List (Announced × Loc)) (p : Pulled) :
    (fs.foldl Pulled.took p).allocs = p.allocs ++ fs.map fun f => f.1.path.length := by
  induction fs generalizing p with
  | nil => exact (List.append_nil _).symm
  | cons f fs ih =>
    rw [List.foldl_cons, ih]
    show p.allocs ++ [f.1.path.length] ++ (fs.map fun f => f.1.path.length) = _
    rw [List.append_assoc]
    rfl

/-- A file no announced path leads to is left alone. -/
theorem foldl_took_other {loc : Loc} (fs : List (Announced × Loc)) (p : Pulled)
    (h : loc ∉ fs.map Prod.snd) : (fs.foldl Pulled.took p).disk.files loc = p.disk.files loc := by
  induction fs generalizing p with
  | nil => rfl
  | cons f fs ih =>
    rw [List.map_cons, List.mem_cons, not_or] at h
    rw [List.foldl_cons, ih _ h.2]
    exact if_neg h.1

/-- Files that go to different places are all there afterwards. -/
theorem foldl_took_files {f : Announced × Loc} (fs : List (Announced × Loc)) (p : Pulled)
    (hnd : (fs.map Prod.snd).Nodup) (hf : f ∈ fs) :
    (fs.foldl Pulled.took p).disk.files f.2 = some f.1.bytes := by
  induction fs generalizing p with
  | nil => cases hf
  | cons g fs ih =>
    rw [List.map_cons, List.nodup_cons] at hnd
    rw [List.foldl_cons]
    rcases List.mem_cons.mp hf with rfl | hf
    · rw [foldl_took_other _ _ hnd.1]
      exact if_pos rfl
    · exact ih _ hnd.2 hf

/-- Files that go through are taken one after another. -/
theorem pullFiles_placed {dir : Loc} {p : Pulled}
    (h : Placed p.disk dir fs) (n : Nat) (s : List UInt8) :
    pullFiles dir (fs.length + n) (putAll fs ++ s) p =
      pullFiles dir n s (fs.foldl Pulled.took p) := by
  induction fs generalizing p with
  | nil =>
    rw [List.length_nil, Nat.zero_add]
    rfl
  | cons f fs ih =>
    have hf : pullFile dir (putFile f.1 ++ (putAll fs ++ s)) p =
        (p.took f, some (putAll fs ++ s)) := pullFile_done (h f (List.mem_cons_self ..)) _
    rw [List.length_cons, Nat.add_right_comm, pullFiles, putAll, List.flatMap_cons,
      List.append_assoc, show (fs.flatMap fun f => putFile f.1) = putAll fs from rfl, hf]
    exact ih (h.tail (sameTree_write ..))

/-- What the loop does with any stream: it takes files that go through, as many as were
announced or until one stops it. -/
theorem pullFiles_cases (dir : Loc) (n : Nat) (s : List UInt8) (p : Pulled) :
    ∃ fs s', s = putAll fs ++ s' ∧ Placed p.disk dir fs ∧
      (fs.length = n ∨ fs.length < n ∧ ∃ p', pullFiles dir n s p = (p', false) ∧
        Stopped dir s' (fs.foldl Pulled.took p) p') := by
  induction n generalizing s p with
  | zero => exact ⟨[], s, rfl, placed_nil _ _, Or.inl rfl⟩
  | succ n ih =>
    rcases pullFile_cases dir s p with ⟨f, loc, s₁, rfl, hplace⟩ | ⟨hnone, hstop⟩
    · obtain ⟨fs, s', rfl, hfs, hend⟩ := ih s₁ (p.took (f, loc))
      have hplaced : Placed p.disk dir ((f, loc) :: fs) := by
        intro x hx
        rcases List.mem_cons.mp hx with rfl | hx
        · exact hplace
        · rw [← hfs x hx]
          exact ((sameTree_write p.disk loc f.bytes).place dir x.1).symm
      refine ⟨(f, loc) :: fs, s', ?_, hplaced, ?_⟩
      · show putFile f ++ (putAll fs ++ s') = (putFile f ++ putAll fs) ++ s'
        rw [List.append_assoc]
      · rcases hend with hall | ⟨hlt, p', hrun, hstop⟩
        · exact Or.inl (congrArg (· + 1) hall)
        · refine Or.inr ⟨Nat.succ_lt_succ hlt, p', ?_, hstop⟩
          rw [pullFiles, pullFile_done hplace]
          exact hrun
    · refine ⟨[], s, rfl, placed_nil _ _, Or.inr ⟨Nat.succ_pos n, ?_⟩⟩
      rw [pullFiles]
      generalize pullFile dir s p = res at hnone hstop ⊢
      obtain ⟨p', rest⟩ := res
      dsimp only at hnone
      subst hnone
      exact ⟨p', rfl, hstop⟩

/-- The places of files that are all created. -/
theorem exists_placed {dir : Loc} {files : List Announced}
    (h : ∀ f ∈ files, d.place dir f ≠ none) :
    ∃ fs, fs.map Prod.fst = files ∧ Placed d dir fs := by
  induction files with
  | nil => exact ⟨[], rfl, placed_nil _ _⟩
  | cons f files ih =>
    obtain ⟨fs, rfl, hfs⟩ := ih fun g hg => h g (List.mem_cons_of_mem _ hg)
    obtain ⟨loc, hloc⟩ := Option.ne_none_iff_exists'.mp (h f (List.mem_cons_self ..))
    refine ⟨(f, loc) :: fs, rfl, ?_⟩
    intro x hx
    rcases List.mem_cons.mp hx with rfl | hx
    · exact hloc
    · exact hfs x hx

theorem putAll_eq (fs : List (Announced × Loc)) :
    putAll fs = (fs.map Prod.fst).flatMap putFile := by
  rw [List.flatMap_map]
  rfl

theorem Placed.map_place {dir : Loc}
    (h : Placed d dir fs) : (fs.map Prod.fst).map (d.place dir) = (fs.map Prod.snd).map some := by
  rw [List.map_map, List.map_map]
  exact List.map_congr_left h

/-! ## What is guaranteed, and when -/

/-- What the loop should guarantee for any stream: it creates and truncates nothing outside
its directory, allocates no more than `cap` on a length from the wire, and where it reports
success it was sent exactly the files it made, each with its own bytes and nothing else
changed. -/
structure Contained (cap : Nat) (disk : Disk) (dir : Loc) (s : List UInt8) : Prop where
  inside : ∀ loc ∈ (shardPull disk dir s).1.created, Inside dir loc
  bounded : ∀ n ∈ (shardPull disk dir s).1.allocs, n ≤ cap
  exact : ∀ n total, (shardPull disk dir s).2 = some (n, total) →
    ∃ (fs : List (Announced × Loc)) (rest : List UInt8), s = putLong n ++ (putAll fs ++ rest) ∧
      fs.length = n ∧ (shardPull disk dir s).1.created = fs.map Prod.snd ∧
      (fs.map Prod.snd).Nodup ∧
      (∀ f ∈ fs, disk.place dir f.1 = some f.2 ∧
        (shardPull disk dir s).1.disk.files f.2 = some f.1.bytes) ∧
      ∀ loc, loc ∉ fs.map Prod.snd → (shardPull disk dir s).1.disk.files loc = disk.files loc

/-- What the stream has to be: after any files that can all be created and hold their
bytes, with more still announced, the next path is no longer than `cap` and does not lead
out of the directory; and no two of the files lead to one place. -/
structure Welcome (cap : Nat) (disk : Disk) (dir : Loc) (s : List UInt8) : Prop where
  lengths : ∀ n len (files : List Announced) rest, n < 2 ^ 64 → len < 2 ^ 32 →
    s = putLong n ++ (files.flatMap putFile ++ (putWord len ++ rest)) → files.length < n →
    (∀ f ∈ files, disk.place dir f ≠ none) → len ≤ cap
  paths : ∀ n path size (files : List Announced) rest, n < 2 ^ 64 → path.length < 2 ^ 32 →
    size < 2 ^ 64 → s = putLong n ++ (files.flatMap putFile ++ (putHead path size ++ rest)) →
    files.length < n → (∀ f ∈ files, disk.place dir f ≠ none) →
    ∀ loc, disk.target dir (Utf8.lossy path) = some loc → Inside dir loc
  apart : ∀ (files : List Announced) rest, files.length < 2 ^ 64 →
    s = putLong files.length ++ (files.flatMap putFile ++ rest) →
    (∀ f ∈ files, disk.place dir f ≠ none) → (files.map (disk.place dir)).Nodup

section

variable {cap : Nat} {disk : Disk} {dir : Loc}

/-- The loop on a stream that starts with files that go through. -/
theorem shardPull_placed (h : Placed disk dir fs)
    (hn : n < 2 ^ 64) (hle : fs.length ≤ n) (s : List UInt8) :
    shardPull disk dir (putLong n ++ (putAll fs ++ s)) =
      match pullFiles dir (n - fs.length) s (fs.foldl Pulled.took ⟨disk, [], [], 0⟩) with
      | (p, true) => (p, some (n, p.total))
      | (p, false) => (p, none) := by
  unfold shardPull
  rw [getLong_putLong hn]
  dsimp only
  obtain ⟨k, rfl⟩ := Nat.exists_eq_add_of_le hle
  rw [pullFiles_placed h, Nat.add_sub_cancel_left]

/-- A stream that goes through is what `Welcome` says of a whole transfer. -/
theorem shardPull_all (h : Placed disk dir fs)
    (hn : fs.length < 2 ^ 64) (s : List UInt8) :
    shardPull disk dir (putLong fs.length ++ (putAll fs ++ s)) =
      (fs.foldl Pulled.took ⟨disk, [], [], 0⟩,
        some (fs.length, (fs.foldl Pulled.took ⟨disk, [], [], 0⟩).total)) := by
  rw [shardPull_placed h hn (Nat.le_refl _), Nat.sub_self]
  rfl

/-- What the loop leaves only grows. -/
theorem pullFile_grows (dir : Loc) (s : List UInt8) (p : Pulled) :
    p.created <+: (pullFile dir s p).1.created ∧ p.allocs <+: (pullFile dir s p).1.allocs := by
  rcases pullFile_cases dir s p with ⟨f, loc, s', rfl, hplace⟩ | ⟨-, hstop⟩
  · rw [pullFile_done hplace]
    exact ⟨List.prefix_append .., List.prefix_append ..⟩
  · obtain ⟨as, has, -⟩ := hstop.allocs
    obtain ⟨cs, hcs, -⟩ := hstop.created
    rw [has, hcs]
    exact ⟨List.prefix_append .., List.prefix_append ..⟩

theorem pullFiles_grows (dir : Loc) (n : Nat) (s : List UInt8) (p : Pulled) :
    p.created <+: (pullFiles dir n s p).1.created ∧
      p.allocs <+: (pullFiles dir n s p).1.allocs := by
  induction n generalizing s p with
  | zero => exact ⟨List.prefix_rfl, List.prefix_rfl⟩
  | succ n ih =>
    obtain ⟨hc, ha⟩ := pullFile_grows dir s p
    rw [pullFiles]
    generalize pullFile dir s p = res at hc ha ⊢
    obtain ⟨p', _ | s'⟩ := res
    · exact ⟨hc, ha⟩
    · obtain ⟨hc', ha'⟩ := ih s' p'
      exact ⟨hc.trans hc', ha.trans ha'⟩

/-- What the loop leaves after files that went through and one more announced. -/
theorem shardPull_next (h : Placed disk dir fs)
    (hn : n < 2 ^ 64) (hlt : fs.length < n) (s : List UInt8) :
    (pullFile dir s (fs.foldl Pulled.took ⟨disk, [], [], 0⟩)).1.created <+:
        (shardPull disk dir (putLong n ++ (putAll fs ++ s))).1.created ∧
      (pullFile dir s (fs.foldl Pulled.took ⟨disk, [], [], 0⟩)).1.allocs <+:
        (shardPull disk dir (putLong n ++ (putAll fs ++ s))).1.allocs := by
  rw [shardPull_placed h hn (Nat.le_of_lt hlt)]
  obtain ⟨k, hk⟩ : ∃ k, n - fs.length = k + 1 := ⟨n - fs.length - 1, by omega⟩
  rw [hk, pullFiles]
  generalize pullFile dir s _ = res
  obtain ⟨p', _ | s'⟩ := res
  · exact ⟨List.prefix_rfl, List.prefix_rfl⟩
  · dsimp only
    have hgrow := pullFiles_grows dir k s' p'
    generalize pullFiles dir k s' p' = out at hgrow ⊢
    obtain ⟨p'', b⟩ := out
    cases b <;> exact hgrow

theorem rdPath_allocs {len : Nat} (h : len < 2 ^ 32) (s : List UInt8) :
    (rdPath (putWord len ++ s)).1 = [len] := by
  unfold rdPath
  rw [getWord_putWord_of_lt h]

theorem pullFile_allocs (dir : Loc) {len : Nat} (h : len < 2 ^ 32) (s : List UInt8) (p : Pulled) :
    len ∈ (pullFile dir (putWord len ++ s) p).1.allocs := by
  have hmem : len ∈ p.allocs ++ (rdPath (putWord len ++ s)).1 := by
    rw [rdPath_allocs h]
    exact List.mem_append_right _ (List.mem_singleton.mpr rfl)
  unfold pullFile
  generalize rdPath (putWord len ++ s) = res at hmem ⊢
  obtain ⟨sizes, path⟩ := res
  dsimp only at hmem ⊢
  split
  · exact hmem
  · split
    · exact hmem
    · split
      · exact hmem
      · split <;> exact hmem

theorem pullFile_created {path : List UInt8} {size : Nat} {loc : Loc} {p : Pulled}
    (hpath : path.length < 2 ^ 32) (hsize : size < 2 ^ 64)
    (htarget : p.disk.target dir (Utf8.lossy path) = some loc) (s : List UInt8) :
    loc ∈ (pullFile dir (putHead path size ++ s) p).1.created := by
  have hmem : loc ∈ p.created ++ [loc] :=
    List.mem_append_right _ (List.mem_singleton.mpr rfl)
  unfold pullFile putHead
  rw [List.append_assoc, List.append_assoc, rdPath_put hpath]
  dsimp only
  rw [getLong_putLong hsize]
  dsimp only
  rw [htarget]
  dsimp only
  split <;> exact hmem

theorem Placed.place_ne_none (h : Placed disk dir fs) :
    ∀ f ∈ fs.map Prod.fst, disk.place dir f ≠ none := by
  intro f hf
  obtain ⟨g, hg, rfl⟩ := List.mem_map.mp hf
  rw [h g hg]
  exact Option.some_ne_none _

/-- A file that goes through was itself announced after the ones before it. -/
theorem taken_contained {s' : List UInt8}
    (hw : Welcome cap disk dir (putLong n ++ (putAll fs ++ s'))) (hn : n < 2 ^ 64)
    (hle : fs.length ≤ n) (hfs : Placed disk dir fs) :
    ∀ g ∈ fs, Inside dir g.2 ∧ g.1.path.length ≤ cap := by
  intro g hg
  have hplace := hfs.place_ne_none
  obtain ⟨htarget, -⟩ := Option.filter_eq_some_iff.mp (hfs g hg)
  obtain ⟨front, back, rfl⟩ := List.append_of_mem hg
  have hbefore : ∀ f ∈ front.map Prod.fst, disk.place dir f ≠ none := by
    intro f hf
    apply hplace f
    rw [List.map_append]
    exact List.mem_append_left _ hf
  have hlt : (front.map Prod.fst).length < n := by
    rw [List.length_map]
    rw [List.length_append, List.length_cons] at hle
    omega
  have hs : putAll (front ++ g :: back) ++ s' = (front.map Prod.fst).flatMap putFile ++
      (putHead g.1.path g.1.bytes.length ++ (g.1.bytes ++ (putAll back ++ s'))) := by
    rw [← putAll_eq, putAll, List.flatMap_append, List.flatMap_cons]
    show (putAll front ++ ((putHead g.1.path g.1.bytes.length ++ g.1.bytes) ++ putAll back)) ++ s'
      = _
    simp only [List.append_assoc]
  refine ⟨?_, ?_⟩
  · exact hw.paths n _ _ _ _ hn g.1.path_lt g.1.bytes_lt (congrArg _ hs) hlt hbefore g.2 htarget
  · unfold putHead at hs
    rw [List.append_assoc] at hs
    exact hw.lengths n _ _ _ hn g.1.path_lt (congrArg _ hs) hlt hbefore

/-- A loop that stops early leaves buffers and files the stream announces. -/
theorem contained_of_stopped {s' : List UInt8}
    (hw : Welcome cap disk dir (putLong n ++ (putAll fs ++ s'))) (hn : n < 2 ^ 64)
    (hfs : Placed disk dir fs) (hlt : fs.length < n) {p' : Pulled}
    (hstop : Stopped dir s' (fs.foldl Pulled.took ⟨disk, [], [], 0⟩) p') :
    (∀ loc ∈ p'.created, Inside dir loc) ∧ ∀ k ∈ p'.allocs, k ≤ cap := by
  have htaken := taken_contained hw hn (Nat.le_of_lt hlt) hfs
  have hlt' : (fs.map Prod.fst).length < n := by
    rw [List.length_map]
    exact hlt
  obtain ⟨as, has, hlen⟩ := hstop.allocs
  obtain ⟨cs, hcs, hpath⟩ := hstop.created
  refine ⟨?_, ?_⟩
  · intro loc hloc
    rw [hcs, foldl_took_created, List.nil_append] at hloc
    rcases List.mem_append.mp hloc with hloc | hloc
    · obtain ⟨g, hg, rfl⟩ := List.mem_map.mp hloc
      exact (htaken g hg).1
    · obtain ⟨path, size, rest, hp, hsz, rfl, htarget⟩ := hpath loc hloc
      rw [(foldl_took_tree fs _).target] at htarget
      exact hw.paths n path size _ rest hn hp hsz (by rw [putAll_eq]) hlt' hfs.place_ne_none loc
        htarget
  · intro k hk
    rw [has, foldl_took_allocs, List.nil_append] at hk
    rcases List.mem_append.mp hk with hk | hk
    · obtain ⟨g, hg, rfl⟩ := List.mem_map.mp hk
      exact (htaken g hg).2
    · obtain ⟨hklt, rest, rfl⟩ := hlen k hk
      exact hw.lengths n k _ rest hn hklt (by rw [putAll_eq]) hlt' hfs.place_ne_none

/-- A whole transfer of files that stay inside and apart. -/
theorem contained_of_all {s' : List UInt8}
    (hw : Welcome cap disk dir (putLong fs.length ++ (putAll fs ++ s')))
    (hn : fs.length < 2 ^ 64) (hfs : Placed disk dir fs) :
    Contained cap disk dir (putLong fs.length ++ (putAll fs ++ s')) := by
  have hrun := shardPull_all hfs hn s'
  have htaken := taken_contained hw hn (Nat.le_refl _) hfs
  have hnd : (fs.map Prod.snd).Nodup := by
    have h := hw.apart (fs.map Prod.fst) s' (by rw [List.length_map]; exact hn)
      (by rw [List.length_map, putAll_eq]) hfs.place_ne_none
    rw [hfs.map_place] at h
    exact List.Nodup.of_map _ h
  refine ⟨?_, ?_, ?_⟩
  · intro loc hloc
    rw [hrun, foldl_took_created, List.nil_append] at hloc
    obtain ⟨g, hg, rfl⟩ := List.mem_map.mp hloc
    exact (htaken g hg).1
  · intro k hk
    rw [hrun, foldl_took_allocs, List.nil_append] at hk
    obtain ⟨g, hg, rfl⟩ := List.mem_map.mp hk
    exact (htaken g hg).2
  · intro n total hok
    rw [hrun] at hok ⊢
    obtain ⟨rfl, rfl⟩ := Prod.mk.inj (Option.some.inj hok)
    refine ⟨fs, s', rfl, rfl, ?_, hnd, ?_, ?_⟩
    · rw [foldl_took_created, List.nil_append]
    · intro f hf
      exact ⟨hfs f hf, foldl_took_files fs _ hnd hf⟩
    · intro loc hloc
      exact foldl_took_other fs _ hloc

/-- The receive loop gives its guarantees exactly on a welcome stream. -/
theorem contained_iff (cap : Nat) (disk : Disk) (dir : Loc) (s : List UInt8) :
    Contained cap disk dir s ↔ Welcome cap disk dir s := by
  constructor
  · intro hc
    -- each condition is read off the stream that would break it
    refine ⟨?_, ?_, ?_⟩
    · intro n len files rest hn hlen hs hlt hfiles
      obtain ⟨fs, rfl, hfs⟩ := exists_placed hfiles
      rw [List.length_map] at hlt
      rw [← putAll_eq] at hs
      obtain ⟨-, hallocs⟩ := shardPull_next hfs hn hlt (putWord len ++ rest)
      rw [← hs] at hallocs
      exact hc.bounded len (hallocs.subset (pullFile_allocs dir hlen rest _))
    · intro n path size files rest hn hpath hsize hs hlt hfiles loc htarget
      obtain ⟨fs, rfl, hfs⟩ := exists_placed hfiles
      rw [List.length_map] at hlt
      rw [← putAll_eq] at hs
      obtain ⟨hcreated, -⟩ := shardPull_next hfs hn hlt (putHead path size ++ rest)
      rw [← hs] at hcreated
      have htree := foldl_took_tree fs ⟨disk, [], [], 0⟩
      exact hc.inside loc (hcreated.subset
        (pullFile_created hpath hsize (by rw [htree.target]; exact htarget) rest))
    · intro files rest hn hs hfiles
      obtain ⟨fs, rfl, hfs⟩ := exists_placed hfiles
      rw [List.length_map] at hn hs
      rw [← putAll_eq] at hs
      have hrun := shardPull_all hfs hn rest
      rw [← hs] at hrun
      obtain ⟨fs', -, -, -, hcreated, hnd, -⟩ := hc.exact _ _ (congrArg Prod.snd hrun)
      rw [hrun, foldl_took_created, List.nil_append] at hcreated
      rw [hfs.map_place]
      exact List.Nodup.map (fun _ _ h => Option.some.inj h) (hcreated ▸ hnd)
  · intro hw
    rcases hl : getLong s with _ | ⟨n, s₁⟩
    · have hrun : shardPull disk dir s = (⟨disk, [], [], 0⟩, none) := by
        unfold shardPull
        rw [hl]
      refine ⟨?_, ?_, ?_⟩
      · rw [hrun]
        intro loc hloc
        cases hloc
      · rw [hrun]
        intro k hk
        cases hk
      · rw [hrun]
        intro n total hok
        cases hok
    · obtain ⟨rfl, hn⟩ := putLong_of_getLong hl
      obtain ⟨fs, s', rfl, hfs, hend⟩ := pullFiles_cases dir n s₁ ⟨disk, [], [], 0⟩
      rcases hend with rfl | ⟨hlt, p', hrun, hstop⟩
      · exact contained_of_all hw hn hfs
      · have hpull : shardPull disk dir (putLong n ++ (putAll fs ++ s')) = (p', none) := by
          unfold shardPull
          rw [hl]
          dsimp only
          rw [hrun]
        obtain ⟨hin, hcap⟩ := contained_of_stopped hw hn hfs hlt hstop
        refine ⟨?_, ?_, ?_⟩
        · rw [hpull]
          exact hin
        · rw [hpull]
          exact hcap
        · rw [hpull]
          intro m total hok
          cases hok

end

/-- `/`, `/etc` and `/out`, with room for everything. -/
def smallDisk : Disk where
  dirs loc := loc = [] || loc = [['e', 't', 'c']] || loc = [['o', 'u', 't']]
  refuses _ := false
  room _ := 100
  files _ := none

/-- The file `/etc/x`, one byte long. -/
def escaping : List UInt8 := putLong 1 ++ (putHead [47, 101, 116, 99, 47, 120] 1 ++ [7])

/-- The files `a` and `./a`. -/
def colliding : List UInt8 :=
  putLong 2 ++ (putHead [97] 1 ++ [7] ++ (putHead [46, 47, 97] 1 ++ [8]))

/-- An absolute path creates a file outside the directory, two spellings of one name collapse
into one file under a success that reports two, and a path length of more than a
gibibyte is allocated before a byte of the path has come. -/
theorem wire_is_trusted :
    ¬ Contained (2 ^ 30) smallDisk [['o', 'u', 't']] escaping ∧
    ¬ Contained (2 ^ 30) smallDisk [['o', 'u', 't']] colliding ∧
    ¬ Contained (2 ^ 30) smallDisk [['o', 'u', 't']] (putLong 1 ++ putWord (2 ^ 30 + 1)) := by
  refine ⟨?_, ?_, ?_⟩
  · intro h
    obtain ⟨names, -, hloc⟩ := h.inside [['e', 't', 'c'], ['x']] (by decide)
    have hhead := congrArg List.head? hloc
    cases hhead
  · intro h
    obtain ⟨fs, rest, -, -, hcreated, hnd, -⟩ := h.exact 2 2 (by decide)
    rw [← hcreated] at hnd
    exact absurd hnd (by decide)
  · intro h
    exact absurd (h.bounded (2 ^ 30 + 1) (by decide)) (by decide)

end Colibri.Cluster
