import Mathlib.Algebra.BigOperators.Group.Finset.Basic
import Mathlib.Algebra.GroupWithZero.Nat
import Mathlib.Algebra.Order.BigOperators.Group.Finset
import PracticeHand.Concurrency.Discipline
import PracticeHand.Concurrency.Runs
import PracticeHand.Concurrency.Threads

/-!
# Threads that can go on

A thread that is awake can execute its instruction when the mutexes are as the
instruction needs them; which sleeper a signal wakes can always be chosen.  If
some thread can take a step that brings it nearer to its end, for as long as a
goal is not reached, then some run reaches the goal.  If every step lessens what is
left to do, every run comes to an end; a signal adds to what is left, since the
thread that it wakes has to do its test again.
-/

namespace PracticeHand
namespace Concurrency

section Machine

variable {thread mutex cond mem choice : Type} {loc : thread -> Type}
/-- The instruction of thread `t` can be executed with the choice `ch` and leads to
`next`. -/
inductive Instr.Enabled {loc : Type} (owner : mutex -> Option thread) (t : thread) (s : mem)
    (ch : choice) : Instr mutex cond mem choice loc -> loc -> Prop where
  | lock {m : mutex} {next : loc} : owner m = none -> Enabled owner t s ch (.lock m next) next
  | unlock {m : mutex} {next : loc} :
      owner m = some t -> Enabled owner t s ch (.unlock m next) next
  | wait {k : cond} {m : mutex} {next : loc} :
      owner m = some t -> Enabled owner t s ch (.wait k m next) next
  | act {f : mem -> choice -> Option (mem × loc × Wake cond)} {s' : mem} {next : loc}
      {w : Wake cond} : f s ch = some (s', next, w) -> Enabled owner t s ch (.act f) next

theorem Instr.Enabled.map {loc loc' : Type} {owner : mutex -> Option thread} {t : thread}
    {s : mem} {ch : choice} {i : Instr mutex cond mem choice loc} {next : loc}
    (h : i.Enabled owner t s ch next) (g : loc -> loc') :
    (i.map g).Enabled owner t s ch (g next) := by
  cases h with
  | lock hfree => exact .lock hfree
  | unlock hown => exact .unlock hown
  | wait hown => exact .wait hown
  | act hf => exact .act (by rw [hf]; rfl)

variable [DecidableEq thread] [Fintype thread] [DecidableEq mutex]
variable [DecidableEq cond]

omit [DecidableEq mutex] in
theorem Wake.exists_apply (w : Wake cond) (asleep : thread -> Option cond) :
    exists woken asleep', w.apply woken asleep = some asleep' := by
  cases w with
  | nobody => exact ⟨none, asleep, rfl⟩
  | broadcast k => exact ⟨none, _, rfl⟩
  | signal k =>
      by_cases hsome : exists u, asleep u = some k
      · rcases hsome with ⟨u, hu⟩
        exact ⟨some u, Function.update asleep u none, by simp [apply, hu]⟩
      · refine ⟨none, asleep, ?_⟩
        rw [apply, if_pos]
        intro u hu
        exact hsome ⟨u, hu⟩

theorem machineStep_of_enabled {prog : Program thread mutex cond mem choice loc}
    {s : mem} {c : Threads thread mutex cond loc} {t : thread} {ch : choice} {next : loc t}
    (hawake : c.asleep t = none)
    (h : (prog t (c.loc t)).Enabled c.owner t s ch next) :
    exists woken s' c', machineStep prog s c (.run t ch woken) = some (s', c') ∧
      c'.loc = Function.update c.loc t next := by
  generalize hinstr : prog t (c.loc t) = i at h
  cases h with
  | @lock m _ hfree =>
      refine ⟨none, s, { c with
        owner := Function.update c.owner m (some t)
        loc := Function.update c.loc t next }, ?_, rfl⟩
      simp only [machineStep, hawake, hinstr, hfree, if_true]
  | @unlock m _ hown =>
      refine ⟨none, s, { c with
        owner := Function.update c.owner m none
        loc := Function.update c.loc t next }, ?_, rfl⟩
      simp only [machineStep, hawake, hinstr, hown, if_true]
  | @wait k m _ hown =>
      refine ⟨none, s,
        { owner := Function.update c.owner m none
          loc := Function.update c.loc t next
          asleep := Function.update c.asleep t (some k) }, ?_, rfl⟩
      simp only [machineStep, hawake, hinstr, hown, if_true]
  | @act f s' _ w hf =>
      rcases w.exists_apply c.asleep with ⟨woken, asleep', happly⟩
      refine ⟨woken, s', { c with
        loc := Function.update c.loc t next
        asleep := asleep' }, ?_, rfl⟩
      simp only [machineStep, hawake, hinstr, if_true, hf, Option.bind_some, happly,
        Option.map_some]

def remaining (rank : (t : thread) -> loc t -> Nat) (locs : (t : thread) -> loc t) : Nat :=
  Finset.univ.sum (fun t => rank t (locs t))

theorem remaining_update_lt {rank : (t : thread) -> loc t -> Nat}
    {locs : (t : thread) -> loc t} {t : thread} {next : loc t}
    (h : rank t next < rank t (locs t)) :
    remaining rank (Function.update locs t next) < remaining rank locs := by
  apply Finset.sum_lt_sum
  · intro u _
    by_cases hut : u = t
    · subst hut
      rw [Function.update_self]
      exact Nat.le_of_lt h
    · rw [Function.update_of_ne hut]
  · refine ⟨t, Finset.mem_univ t, ?_⟩
    rw [Function.update_self]
    exact h

/-- The work that is left when it also counts whether a thread is asleep. -/
def Threads.effort (weight : (t : thread) -> loc t -> Option cond -> Nat)
    (c : Threads thread mutex cond loc) : Nat :=
  Finset.univ.sum (fun t => weight t (c.loc t) (c.asleep t))

section Effort

variable {weight : (t : thread) -> loc t -> Option cond -> Nat}
variable {c c' : Threads thread mutex cond loc}

omit [DecidableEq thread] [DecidableEq mutex] [DecidableEq cond] in
theorem Threads.effort_of_same {t : thread}
    (h : forall u, u ≠ t -> weight u (c'.loc u) (c'.asleep u) =
      weight u (c.loc u) (c.asleep u)) :
    c'.effort weight + weight t (c.loc t) (c.asleep t) =
      c.effort weight + weight t (c'.loc t) (c'.asleep t) := by
  classical
  unfold effort
  rw [← Finset.add_sum_erase _ _ (Finset.mem_univ t),
    ← Finset.add_sum_erase (Finset.univ) (fun u => weight u (c.loc u) (c.asleep u))
      (Finset.mem_univ t)]
  have hrest : (Finset.univ.erase t).sum (fun u => weight u (c'.loc u) (c'.asleep u)) =
      (Finset.univ.erase t).sum (fun u => weight u (c.loc u) (c.asleep u)) :=
    Finset.sum_congr rfl (fun u hu => h u (Finset.ne_of_mem_erase hu))
  rw [hrest]
  lia

omit [DecidableEq mutex] [DecidableEq cond] in
theorem Threads.effort_update (c : Threads thread mutex cond loc)
    (owner : mutex -> Option thread) (t : thread) (next : loc t) (x : Option cond) :
    Threads.effort weight
        { owner := owner
          loc := Function.update c.loc t next
          asleep := Function.update c.asleep t x } + weight t (c.loc t) (c.asleep t) =
      c.effort weight + weight t next x := by
  have hsame := @Threads.effort_of_same _ _ _ _ _ weight c
    { owner := owner
      loc := Function.update c.loc t next
      asleep := Function.update c.asleep t x } t ?_
  · dsimp only at hsame
    rwa [Function.update_self, Function.update_self] at hsame
  · intro u hu
    dsimp only
    rw [Function.update_of_ne hu, Function.update_of_ne hu]

omit [DecidableEq mutex] [DecidableEq cond] in
theorem Threads.effort_update_lt (c : Threads thread mutex cond loc)
    (owner : mutex -> Option thread) {t : thread} {next : loc t} {x : Option cond}
    (hawake : c.asleep t = none) (h : weight t next x < weight t (c.loc t) none) :
    Threads.effort weight
        { owner := owner
          loc := Function.update c.loc t next
          asleep := Function.update c.asleep t x } < c.effort weight := by
  have hone := @Threads.effort_update _ _ _ _ _ _ weight c owner t next x
  rw [hawake] at hone
  lia

omit [DecidableEq mutex] [DecidableEq cond] in
theorem Threads.effort_move_lt (c : Threads thread mutex cond loc)
    (owner : mutex -> Option thread) {t : thread} {next : loc t}
    (hawake : c.asleep t = none) (h : weight t next none < weight t (c.loc t) none) :
    Threads.effort weight
        { owner := owner
          loc := Function.update c.loc t next
          asleep := c.asleep } < c.effort weight := by
  have hone := c.effort_update_lt owner hawake h
  rwa [← hawake, Function.update_eq_self] at hone

omit [DecidableEq mutex] in
/-- A signal makes one thread at most do its work again. -/
theorem Threads.effort_wake {w : Wake cond} {woken : Option thread} {extra : Nat}
    {asleep : thread -> Option cond}
    (hextra : forall u l k, weight u l none ≤ weight u l (some k) + extra)
    (hw : w = .nobody ∨ exists k, w = .signal k)
    (happly : w.apply woken c.asleep = some asleep) :
    Threads.effort weight { c with asleep := asleep } ≤
      c.effort weight + (if w = .nobody then 0 else extra) := by
  rcases hw with rfl | ⟨k, rfl⟩
  · rw [Wake.apply_nobody happly]
    exact Nat.le_add_right _ _
  · rcases Wake.apply_signal happly with ⟨u, hu, rfl⟩ | ⟨_, rfl⟩
    · have hone := @Threads.effort_update _ _ _ _ _ _ weight c c.owner u (c.loc u) none
      rw [Function.update_eq_self, hu] at hone
      have hless := hextra u (c.loc u) k
      rw [if_neg (by simp)]
      lia
    · exact Nat.le_add_right _ _

/-- Locking, unlocking and going to sleep bring the thread nearer to its end. -/
def Instr.SyncLessens {loc : Type} (weight : loc -> Option cond -> Nat) (l : loc) :
    Instr mutex cond mem choice loc -> Prop
  | .lock _ next => weight next none < weight l none
  | .unlock _ next => weight next none < weight l none
  | .wait k _ next => weight next (some k) < weight l none
  | .act _ => True

/-- A memory step pays for what it stores and for the thread that it wakes. -/
def Instr.ActLessens {loc : Type} (weight : loc -> Option cond -> Nat) (stored : mem -> Nat)
    (extra : Nat) (l : loc) (s s' : mem) (next : loc) (w : Wake cond) : Prop :=
  (w = .nobody ∨ exists k, w = .signal k) ∧
    stored s' + weight next none + (if w = .nobody then 0 else extra) <
      stored s + weight l none

/-- What is stored in memory and what is left to do are together lessened by a step. -/
theorem Fires.effort_lt {prog : Program thread mutex cond mem choice loc} {s s' : mem}
    {stored : mem -> Nat} {extra : Nat} {t : thread} {ch : choice} {woken : Option thread}
    (hextra : forall u l k, weight u l none ≤ weight u l (some k) + extra)
    (hsync : (prog t (c.loc t)).SyncLessens (weight t) (c.loc t))
    (hact : forall s' next w, (prog t (c.loc t)).Acts s ch s' next w ->
      Instr.ActLessens (weight t) stored extra (c.loc t) s s' next w)
    (h : Fires prog s c (.run t ch woken) s' c') :
    stored s' + c'.effort weight < stored s + c.effort weight := by
  cases h with
  | @lock _ _ _ _ next hawake hinstr _ | @unlock _ _ _ _ next hawake hinstr _ =>
      rw [hinstr] at hsync
      exact Nat.add_lt_add_left (c.effort_move_lt _ hawake hsync) _
  | @wait _ _ _ k _ next hawake hinstr _ =>
      rw [hinstr] at hsync
      exact Nat.add_lt_add_left (c.effort_update_lt _ hawake hsync) _
  | @act _ _ _ _ next w asleep hawake hacts hwake =>
      rcases hact s' next w hacts with ⟨hw, hless⟩
      have hone := @Threads.effort_update _ _ _ _ _ _ weight c c.owner t next none
      rw [← hawake, Function.update_eq_self, hawake] at hone
      have hwoken := @Threads.effort_wake _ _ _ _ _ _ _ weight
        { c with loc := Function.update c.loc t next } w woken extra asleep hextra hw hwake
      dsimp only at hone hwoken
      lia

end Effort

end Machine

theorem sum_update {index value : Type} [Fintype index] [DecidableEq index] (f : value -> Nat)
    (g : index -> value) (i : index) (x : value) :
    Finset.univ.sum (fun j => f (Function.update g i x j)) + f (g i) =
      Finset.univ.sum (fun j => f (g j)) + f x := by
  have hrest : (Finset.univ.erase i).sum (fun j => f (Function.update g i x j)) =
      (Finset.univ.erase i).sum (fun j => f (g j)) := by
    apply Finset.sum_congr rfl
    intro j hj
    rw [Function.update_of_ne (Finset.ne_of_mem_erase hj)]
  rw [← Finset.add_sum_erase _ _ (Finset.mem_univ i),
    ← Finset.add_sum_erase Finset.univ (fun j => f (g j)) (Finset.mem_univ i), hrest,
    Function.update_self]
  lia

/-- Steps that lessen a rank lead to the goal. -/
theorem System.exists_run_until {state action : Type} {sys : System state action}
    {ok : state -> action -> Prop} {Inv Goal : state -> Prop} (rank : state -> Nat)
    (hstep : forall s, Inv s -> ¬ Goal s ->
      exists a t, ok s a ∧ sys.step s a = some t ∧ Inv t ∧ rank t < rank s)
    {s : state} (hs : Inv s) :
    exists schedule t, RunUnder sys ok s schedule t ∧ Goal t := by
  generalize hbound : rank s = bound
  induction bound using Nat.strong_induction_on generalizing s with
  | _ bound ih =>
      by_cases hgoal : Goal s
      · exact ⟨[], s, RunUnder.nil s, hgoal⟩
      · rcases hstep s hs hgoal with ⟨a, t, hok, hone, ht, hless⟩
        rcases ih (rank t) (hbound ▸ hless) ht rfl with ⟨schedule, u, hrun, hu⟩
        exact ⟨a :: schedule, u, RunUnder.cons hok hone hrun, hu⟩

/-- The steps of a run cost no more than the rank that they use up. -/
theorem System.RunUnder.cost_le {state action : Type} {sys : System state action}
    {ok : state -> action -> Prop} {Inv : state -> Prop} (rank : state -> Nat)
    (cost : action -> Nat)
    (hstep : forall {s t : state} {a : action},
      Inv s -> ok s a -> sys.step s a = some t -> Inv t ∧ rank t + cost a ≤ rank s)
    {s u : state} {schedule : List action}
    (hrun : RunUnder sys ok s schedule u) (hs : Inv s) :
    (schedule.map cost).sum + rank u ≤ rank s := by
  induction hrun with
  | nil s => simp
  | cons hok hone _ ih =>
      rcases hstep hs hok hone with ⟨ht, hless⟩
      have hrest := ih ht
      rw [List.map_cons, List.sum_cons]
      lia

/-- A run whose steps all lessen a rank is no longer than the rank. -/
theorem System.RunUnder.length_le {state action : Type} {sys : System state action}
    {ok : state -> action -> Prop} {Inv : state -> Prop} (rank : state -> Nat)
    (hstep : forall {s t : state} {a : action},
      Inv s -> ok s a -> sys.step s a = some t -> Inv t ∧ rank t < rank s)
    {s u : state} {schedule : List action}
    (hrun : RunUnder sys ok s schedule u) (hs : Inv s) :
    schedule.length + rank u ≤ rank s := by
  have hcost := hrun.cost_le rank (fun _ => 1) hstep hs
  rw [List.map_const', List.sum_replicate_nat, Nat.mul_one] at hcost
  exact hcost

end Concurrency
end PracticeHand
