import Colibri.Cache.State
import Colibri.Lib.Runs

/-!
# The cache and its threads

Any number of calls run at once. Each is a task: the rest of its program, from one lock
to the next. A step runs one critical section of one task, or a load outside the lock;
the budget may change and the monitor may evict at any time.

What the inner provider answers is a relation, so that a load may fail at one time and
succeed at another.

`TaskStep` is one lock or one load of a task: it says which eviction the step makes, which selection
it counts, and what it answers. `Step` adds the calls that begin, the monitor and the budget; where
an eviction underflows there is no next state, so `Next` is a step that has one. `Reached` are the
runs from an empty cache. Nothing is proved here; the modules after this one prove what every run
keeps.
-/

namespace Colibri.Cache

/-- The provider behind the cache: what a load of a key may give, and what a batched
load may. `none` is an error. -/
structure Inner (E : Type) where
  expert : Key → Option E → Prop
  expertsBatch : Nat → List Nat → Option (List E) → Prop
  /-- `Expert::bytes` -/
  size : E → Nat

/-- The rest of a `pin_ranked`: the keys to come, the two caps, and what is pinned so far. -/
structure Ranking where
  rest : List Key
  byteCap : Nat
  countCap : Nat
  bytes : Nat
  n : Nat

/-- What a `fetch` is for. -/
inductive Use where
  | expert
  | pin
  | pinRanked (r : Ranking)

/-- Whether the access counts as a selection. -/
def Use.record : Use → Bool
  | .expert => true
  | _ => false

inductive Task (E : Type) where
  /-- before the first lock of `fetch` -/
  | fetch (key : Key) (use : Use)
  /-- missed, loading outside the lock -/
  | load (key : Key) (use : Use)
  /-- loaded, before the second lock -/
  | insert (key : Key) (ex : E) (use : Use)
  /-- resident, before the lock that registers the pin -/
  | register (key : Key) (use : Use)
  /-- before the lock of `load_batch` that filters -/
  | filter (layer : Nat) (eids : List Nat)
  | loadBatch (layer : Nat) (missing : List Nat)
  /-- before the lock of `load_batch` that inserts -/
  | insertBatch (layer : Nat) (missing : List Nat) (loaded : List (Nat × E))
  | done

/-- The calls. `prefetch` is also what the background loader runs. -/
inductive Op where
  | expert (key : Key)
  | prefetch (layer : Nat) (eids : List Nat)
  | pin (key : Key)
  | pinRanked (ranked : List Key) (byteCap countCap : Nat)

/-- What a call reports to its caller: the result of `expert`, and each success of a pin. -/
inductive Answer (E : Type) where
  | expert (key : Key) (result : Option E)
  | pinned (key : Key)

/-- One `evict_to_protecting`, with the victims as ranked, and the key that the call goes on
to register as pinned. -/
structure Eviction (E : Type) where
  before : State E
  budget : Nat
  protect : List Key
  victims : List (Key × Entry E)
  pinning : Option Key

/-- What a step shows: the call it starts, what it reports, the eviction it makes. -/
structure Label (E : Type) where
  call : Option Op
  answer : Option (Answer E)
  eviction : Option (Eviction E)

section

variable {E : Type}

/-- The top of `pin_ranked`'s loop. -/
def Ranking.next (r : Ranking) : Task E :=
  match r.rest with
  | [] => .done
  | key :: rest => if r.countCap ≤ r.n then .done else .fetch key (.pinRanked { r with rest })

/-- Where a call starts. -/
def Op.start : Op → Task E
  | .expert key => .fetch key .expert
  | .prefetch layer eids => .filter layer eids
  | .pin key => .fetch key .pin
  | .pinRanked ranked byteCap countCap => Ranking.next ⟨ranked, byteCap, countCap, 0, 0⟩

/-- What follows a `fetch`: `expert` returns; a pin goes on to register, unless the bytes
are used up. An error ends either. -/
def Use.after (size : E → Nat) (use : Use) (key : Key) (result : Option E) : Task E :=
  match use, result with
  | .expert, _ => .done
  | _, none => .done
  | .pin, some _ => .register key .pin
  | .pinRanked r, some ex =>
    if 0 < r.n ∧ r.byteCap < r.bytes + size ex then .done
    else .register key (.pinRanked { r with bytes := r.bytes + size ex, n := r.n + 1 })

/-- What a `fetch` reports. -/
def Use.answer (use : Use) (key : Key) (result : Option E) : Option (Answer E) :=
  match use with
  | .expert => some (.expert key result)
  | _ => none

/-- The key that a pin has resident and not yet registered. -/
def Task.pinning : Task E → Option Key
  | .register key _ => some key
  | _ => none

/-- What follows the registration of a pin. -/
def Use.registered : Use → Task E
  | .pinRanked r => r.next
  | _ => .done

/-- The loads of a batch one by one: the ones that fail are left out. -/
def Inner.Singly (inner : Inner E) (layer : Nat) (missing : List Nat) (loaded : List (Nat × E)) :
    Prop :=
  ∃ results : List (Option E),
    List.Forall₂ (fun e r => inner.expert (layer, e) r) missing results ∧
      loaded = (missing.zip results).filterMap fun er => er.2.map (er.1, ·)

/-- One critical section of a task, or a load outside the lock. -/
inductive TaskStep (inner : Inner E) (budget : Nat) (s : State E) :
    Task E → Label E → Option (State E) → Task E → Prop where
  | hit {key : Key} {use : Use} {e : Entry E} : s.get key = some e →
    TaskStep inner budget s (.fetch key use) ⟨none, use.answer key (some e.expert), none⟩
      (some ((s.tick key use.record).hit key)) (use.after inner.size key (some e.expert))
  | miss {key : Key} {use : Use} : s.get key = none →
    TaskStep inner budget s (.fetch key use) ⟨none, none, none⟩
      (some (s.tick key use.record).miss) (.load key use)
  | loaded {key : Key} {use : Use} {ex : E} : inner.expert key (some ex) →
    TaskStep inner budget s (.load key use) ⟨none, none, none⟩ (some s) (.insert key ex use)
  | failed {key : Key} {use : Use} : inner.expert key none →
    TaskStep inner budget s (.load key use) ⟨none, use.answer key none, none⟩ (some s)
      (use.after inner.size key none)
  /-- another thread has inserted it -/
  | lost {key : Key} {use : Use} {ex : E} {e : Entry E} : s.get key = some e →
    TaskStep inner budget s (.insert key ex use) ⟨none, use.answer key (some e.expert), none⟩
      (some s) (use.after inner.size key (some e.expert))
  | insert {key : Key} {use : Use} {ex : E} {victims : List (Key × Entry E)} :
    s.get key = none → (s.insert key ex (inner.size ex)).Ranked [] victims →
    TaskStep inner budget s (.insert key ex use)
      ⟨none, use.answer key (some ex),
        some ⟨s.insert key ex (inner.size ex), budget, [], victims,
          (use.after inner.size key (some ex)).pinning⟩⟩
      ((s.insert key ex (inner.size ex)).evictTo budget victims)
      (use.after inner.size key (some ex))
  | register {key : Key} {use : Use} :
    TaskStep inner budget s (.register key use) ⟨none, some (.pinned key), none⟩
      (some (s.pin key)) use.registered
  | resident {layer : Nat} {eids : List Nat} :
    (eids.filter fun e => (s.get (layer, e)).isNone) = [] →
    TaskStep inner budget s (.filter layer eids) ⟨none, none, none⟩ (some s) .done
  | filter {layer : Nat} {eids missing : List Nat} :
    missing = (eids.filter fun e => (s.get (layer, e)).isNone) → missing ≠ [] →
    TaskStep inner budget s (.filter layer eids) ⟨none, none, none⟩ (some s)
      (.loadBatch layer missing)
  | batched {layer : Nat} {missing : List Nat} {exps : List E} :
    inner.expertsBatch layer missing (some exps) → exps.length = missing.length →
    TaskStep inner budget s (.loadBatch layer missing) ⟨none, none, none⟩ (some s)
      (.insertBatch layer missing (missing.zip exps))
  | singly {layer : Nat} {missing : List Nat} {result : Option (List E)}
      {loaded : List (Nat × E)} :
    inner.expertsBatch layer missing result →
    (∀ exps, result = some exps → exps.length ≠ missing.length) →
    inner.Singly layer missing loaded →
    TaskStep inner budget s (.loadBatch layer missing) ⟨none, none, none⟩ (some s)
      (.insertBatch layer missing loaded)
  | insertBatch {layer : Nat} {missing : List Nat} {loaded : List (Nat × E)}
      {victims : List (Key × Entry E)} :
    (s.insertBatch inner.size layer loaded).Ranked (missing.map (layer, ·)) victims →
    TaskStep inner budget s (.insertBatch layer missing loaded)
      ⟨none, none, some ⟨s.insertBatch inner.size layer loaded, budget,
        missing.map (layer, ·), victims, none⟩⟩
      ((s.insertBatch inner.size layer loaded).evictTo budget victims) .done

/-- The cache and the calls on it. -/
structure ExpertCache (E : Type) where
  state : State E
  budget : Nat
  tasks : List (Task E)

def ExpertCache.new (E : Type) (budget : Nat) : ExpertCache E := ⟨State.new E, budget, []⟩

/-- One step; `none` is an underflow of the bytes. -/
inductive Step (inner : Inner E) (c : ExpertCache E) : Label E → Option (ExpertCache E) → Prop where
  | call (op : Op) :
    Step inner c ⟨some op, none, none⟩ (some { c with tasks := c.tasks ++ [op.start] })
  | run {i : Nat} {t t' : Task E} {l : Label E} {s' : Option (State E)} :
    c.tasks[i]? = some t → TaskStep inner c.budget c.state t l s' t' →
    Step inner c l (s'.map fun s => { c with state := s, tasks := c.tasks.set i t' })
  | setBudget (budget : Nat) : Step inner c ⟨none, none, none⟩ (some { c with budget })
  | evict {budget : Nat} {victims : List (Key × Entry E)} : c.state.Ranked [] victims →
    Step inner c ⟨none, none, some ⟨c.state, budget, [], victims, none⟩⟩
      ((c.state.evictTo budget victims).map fun s => { c with state := s })

/-- A step that does not underflow. -/
def Next (inner : Inner E) (c : ExpertCache E) (l : Label E) (c' : ExpertCache E) : Prop :=
  Step inner c l (some c')

/-- What a run of the cache leads to. -/
def Reached (inner : Inner E) (budget : Nat) (trace : List (Label E)) (c : ExpertCache E) : Prop :=
  Lts.Run (Next inner) (ExpertCache.new E budget) trace c

end

end Colibri.Cache
