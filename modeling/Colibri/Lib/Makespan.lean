import Mathlib.Algebra.BigOperators.Group.Finset.Piecewise
import Mathlib.Algebra.Order.BigOperators.Group.Finset
import Mathlib.Order.Lattice.Nat
import Mathlib.Tactic.Linarith

/-!
# List scheduling, and how far it is from the best

Jobs are placed on machines one after the other, each on a machine that has least to do at
that moment. With the heaviest jobs first, no machine ends with more than `4/3 - 1/(3m)`
of what the busiest of the `m` machines has under any other assignment
(`Listed.le_of_heaviest`).

The argument is about the job that was placed last on a machine. If it is light, at most a
third of what the other assignment allows, the machine had at most the average before it, and
that is enough. If it is heavy, so are all the jobs before it, and then the other assignment
has no room for three of them on one machine, nor for two where one is as large as the load
the last job was put on. Counting each job once, and such a large one twice, the machines of
the other assignment have at most two each; the machines of the list had two each already
when the last job came (`load_le_of_heavy`).
-/

namespace Makespan

section

variable {ι κ : Type} [DecidableEq κ]

/-- What machine `k` has to do: the weights of the jobs that are on it. -/
def load (w : ι → Nat) (f : ι → κ) (jobs : List ι) (k : κ) : Nat :=
  ((jobs.filter fun j => f j = k).map w).sum

/-- What the busiest machine has to do. -/
def makespan (w : ι → Nat) (f : ι → κ) (jobs : List ι) (machines : Finset κ) : Nat :=
  machines.sup (load w f jobs)

/-- Each job, as it comes, goes to a machine that has least to do among those that may take
it, given what was placed before. -/
def Listed (w : ι → Nat) (machines : Finset κ) (takes : List ι → κ → Prop) (f : ι → κ)
    (jobs : List ι) : Prop :=
  ∀ before j after, jobs = before ++ j :: after →
    f j ∈ machines ∧ takes before (f j) ∧
      ∀ k ∈ machines, takes before k → load w f before (f j) ≤ load w f before k

variable {w : ι → Nat} {f g : ι → κ} {jobs : List ι} {machines : Finset κ}
  {takes : List ι → κ → Prop}

@[simp] theorem load_nil (k : κ) : load w f [] k = 0 := rfl

theorem load_cons (j : ι) (jobs : List ι) (k : κ) :
    load w f (j :: jobs) k = (if f j = k then w j else 0) + load w f jobs k := by
  unfold load
  by_cases h : f j = k
  · rw [List.filter_cons_of_pos (by simpa using h), if_pos h, List.map_cons, List.sum_cons]
  · rw [List.filter_cons_of_neg (by simpa using h), if_neg h, Nat.zero_add]

theorem load_append (xs ys : List ι) (k : κ) :
    load w f (xs ++ ys) k = load w f xs k + load w f ys k := by
  unfold load
  rw [List.filter_append, List.map_append, List.sum_append]

theorem load_concat (jobs : List ι) (j : ι) (k : κ) :
    load w f (jobs ++ [j]) k = load w f jobs k + if f j = k then w j else 0 := by
  rw [load_append, load_cons, load_nil, Nat.add_zero]

theorem load_congr (h : ∀ j ∈ jobs, f j = g j) (k : κ) : load w f jobs k = load w g jobs k := by
  unfold load
  rw [List.filter_congr fun j hj => by rw [h j hj]]

theorem load_perm {jobs' : List ι} (h : jobs.Perm jobs') (k : κ) :
    load w f jobs k = load w f jobs' k :=
  ((h.filter _).map w).sum_eq

theorem load_one (k : κ) : load (fun _ => 1) f jobs k = (jobs.filter fun j => f j = k).length := by
  unfold load
  rw [List.map_const', List.sum_replicate, Nat.nsmul_eq_mul, Nat.mul_one]

/-- The loads of the machines are all there is to do. -/
theorem sum_load (h : ∀ j ∈ jobs, f j ∈ machines) :
    ∑ k ∈ machines, load w f jobs k = (jobs.map w).sum := by
  induction jobs with
  | nil => simp
  | cons j jobs ih =>
    have hj : f j ∈ machines := h j (List.mem_cons_self ..)
    have hrest := ih fun j hj => h j (List.mem_cons_of_mem _ hj)
    simp only [load_cons, Finset.sum_add_distrib, hrest, List.map_cons, List.sum_cons]
    rw [Finset.sum_ite_eq, if_pos hj]

theorem load_le_makespan {k : κ} (hk : k ∈ machines) :
    load w f jobs k ≤ makespan w f jobs machines :=
  Finset.le_sup hk

theorem Listed.init {j : ι} (h : Listed w machines takes f (jobs ++ [j])) :
    Listed w machines takes f jobs := by
  intro before x after hx
  refine h before x (after ++ [j]) ?_
  rw [hx, List.append_assoc, List.cons_append]

theorem Listed.last {j : ι} (h : Listed w machines takes f (jobs ++ [j])) :
    f j ∈ machines ∧ takes jobs (f j) ∧
      ∀ k ∈ machines, takes jobs k → load w f jobs (f j) ≤ load w f jobs k :=
  h jobs j [] rfl

theorem Listed.mem (h : Listed w machines takes f jobs) {j : ι} (hj : j ∈ jobs) :
    f j ∈ machines := by
  obtain ⟨before, after, rfl⟩ := List.append_of_mem hj
  exact (h before j after rfl).1

/-! ## Light jobs -/

/-- A machine with least to do has at most the average. -/
theorem card_mul_load_le {k : κ} (hf : ∀ j ∈ jobs, f j ∈ machines)
    (hleast : ∀ k' ∈ machines, load w f jobs k ≤ load w f jobs k') :
    machines.card * load w f jobs k ≤ (jobs.map w).sum := by
  rw [← sum_load hf]
  calc machines.card * load w f jobs k = ∑ _k' ∈ machines, load w f jobs k := by
        rw [Finset.sum_const, Nat.nsmul_eq_mul]
    _ ≤ ∑ k' ∈ machines, load w f jobs k' := Finset.sum_le_sum hleast

theorem sum_le_card_mul {c : Nat} (hg : ∀ j ∈ jobs, g j ∈ machines)
    (hc : ∀ k ∈ machines, load w g jobs k ≤ c) : (jobs.map w).sum ≤ machines.card * c := by
  rw [← sum_load hg]
  calc ∑ k ∈ machines, load w g jobs k ≤ ∑ _k ∈ machines, c := Finset.sum_le_sum hc
    _ = machines.card * c := by rw [Finset.sum_const, Nat.nsmul_eq_mul]

/-! ## Heavy jobs -/

/-- A job counts once, and a large one, that leaves no room in `c` for another of weight `x`,
counts twice. -/
def share (c x : Nat) (w : ι → Nat) (j : ι) : Nat := 1 + if c < w j + x then 1 else 0

/-- Where three jobs do not fit, a machine has a share of at most two. -/
theorem share_le {c x : Nat} {on : List ι} (hheavy : c < 3 * x) (hx : ∀ j ∈ on, x ≤ w j)
    (hc : (on.map w).sum ≤ c) : (on.map (share c x w)).sum ≤ 2 := by
  match on with
  | [] => simp
  | [i] =>
    simp only [List.map_cons, List.map_nil, List.sum_cons, List.sum_nil, share]
    split <;> omega
  | [i, j] =>
    have hi := hx i (by simp)
    have hj := hx j (by simp)
    simp only [List.map_cons, List.map_nil, List.sum_cons, List.sum_nil, share] at hc ⊢
    rw [if_neg (by omega), if_neg (by omega)]
    omega
  | i :: j :: k :: rest =>
    have hi := hx i (by simp)
    have hj := hx j (by simp)
    have hk := hx k (by simp)
    simp only [List.map_cons, List.sum_cons] at hc
    omega

/-- A machine that has no room for one more has a share of two. -/
theorem le_share {c x : Nat} {on : List ι} (hx : x ≤ c) (hc : c < (on.map w).sum + x) :
    2 ≤ (on.map (share c x w)).sum := by
  match on with
  | [] =>
    simp only [List.map_nil, List.sum_nil] at hc
    omega
  | [i] =>
    simp only [List.map_cons, List.map_nil, List.sum_cons, List.sum_nil, share] at hc ⊢
    rw [if_pos (by omega)]
    omega
  | i :: j :: rest =>
    simp only [List.map_cons, List.sum_cons, share]
    omega

/-- A heavy job, with none before it lighter, still fits. -/
theorem load_le_of_heavy {c : Nat} {j : ι} (hf : ∀ i ∈ jobs, f i ∈ machines)
    (hleast : ∀ k ∈ machines, load w f jobs (f j) ≤ load w f jobs k)
    (hsort : ∀ i ∈ jobs, w j ≤ w i) (hg : ∀ i ∈ jobs ++ [j], g i ∈ machines)
    (hc : ∀ k ∈ machines, load w g (jobs ++ [j]) k ≤ c) (hheavy : c < 3 * w j) :
    load w f jobs (f j) + w j ≤ c := by
  have hall : ∀ i ∈ jobs ++ [j], w j ≤ w i := by
    intro i hi
    rcases List.mem_append.mp hi with h | h
    · exact hsort i h
    · rw [List.mem_singleton.mp h]
  have hj : w j ≤ c := by
    have h := hc (g j) (hg j (by simp))
    rw [load_concat, if_pos rfl] at h
    omega
  by_contra hover
  -- the shares of the machines, twice
  have hleft : 2 * machines.card ≤ (jobs.map (share c (w j) w)).sum := by
    rw [← sum_load hf, Nat.mul_comm, ← Nat.nsmul_eq_mul, ← Finset.sum_const]
    refine Finset.sum_le_sum fun k hk => le_share hj ?_
    have h : load w f jobs (f j) ≤ load w f jobs k := hleast k hk
    rw [load] at h
    have h' : c < load w f jobs (f j) + w j := by omega
    exact lt_of_lt_of_le h' (Nat.add_le_add_right h _)
  have hright : ((jobs ++ [j]).map (share c (w j) w)).sum ≤ 2 * machines.card := by
    rw [← sum_load hg, Nat.mul_comm, ← Nat.nsmul_eq_mul, ← Finset.sum_const]
    refine Finset.sum_le_sum fun k hk => share_le hheavy (fun i hi => ?_) (hc k hk)
    exact hall i (List.mem_of_mem_filter hi)
  rw [List.map_append, List.sum_append, List.map_singleton, List.sum_singleton, share] at hright
  omega

/-! ## The bound -/

/-- **Heaviest first, the list is within `4/3 - 1/(3m)` of any other assignment.** -/
theorem Listed.le_of_heaviest {c : Nat} (h : Listed w machines (fun _ _ => True) f jobs)
    (hsort : jobs.Pairwise fun i j => w j ≤ w i) (hg : ∀ j ∈ jobs, g j ∈ machines)
    (hc : ∀ k ∈ machines, load w g jobs k ≤ c) {k : κ} (hk : k ∈ machines) :
    3 * machines.card * load w f jobs k ≤ (4 * machines.card - 1) * c := by
  induction jobs using List.reverseRecOn with
  | nil => simp
  | append_singleton jobs j ih =>
    obtain ⟨hpre, -, hlast⟩ := List.pairwise_append.mp hsort
    have hgpre : ∀ i ∈ jobs, g i ∈ machines := fun i hi => hg i (List.mem_append_left _ hi)
    have hcpre : ∀ k ∈ machines, load w g jobs k ≤ c := by
      intro k hk
      have := hc k hk
      rw [load_append] at this
      omega
    obtain ⟨hmem, -, hleast⟩ := h.last
    have hleast' := fun k hk => hleast k hk trivial
    have hf : ∀ i ∈ jobs, f i ∈ machines := fun i hi => h.init.mem hi
    have hcard : 0 < machines.card := Finset.card_pos.mpr ⟨k, hk⟩
    rw [load_concat]
    by_cases hkj : f j = k
    swap
    · rw [if_neg hkj, Nat.add_zero]
      exact ih h.init hpre hgpre hcpre
    rw [if_pos hkj, ← hkj]
    have hstep : 3 * machines.card * (load w f jobs (f j) + w j) ≤
        3 * machines.card * c + (machines.card - 1) * c := by
      by_cases hlight : 3 * w j ≤ c
      · have havg := card_mul_load_le hf hleast'
        have hroom := sum_le_card_mul hg hc
        rw [List.map_append, List.sum_append, List.map_singleton, List.sum_singleton] at hroom
        obtain ⟨m, hm⟩ : ∃ m, machines.card = m + 1 := ⟨machines.card - 1, by omega⟩
        rw [hm] at havg hroom ⊢
        have hsmall : m * (3 * w j) ≤ m * c := Nat.mul_le_mul_left m hlight
        rw [Nat.add_sub_cancel]
        linarith
      · have hfit := load_le_of_heavy hf hleast' (fun i hi => hlast i hi j (by simp)) hg hc
          (by omega)
        exact le_trans (Nat.mul_le_mul_left _ hfit) (Nat.le_add_right _ _)
    refine hstep.trans (Nat.le_of_eq ?_)
    rw [← Nat.add_mul]
    congr 1
    omega

end

end Makespan
