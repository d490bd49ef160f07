import PracticeHand.Thpool.Handout

/-!
# Destroying the pool

`thpool_destroy` clears `threads_keepalive`, polls `num_threads_alive` until it
reads 0, and then releases the pool.  A worker counts itself out before its last
`pthread_mutex_unlock`, so the count says nothing about that unlock.
-/

namespace PracticeHand
namespace Thpool

open Concurrency

variable {n m : Nat} {fn arg : Type}

/-!
## Workers that are counted out
-/

def OwnerPc.lastPoll : OwnerPc -> Bool
  | .pollRest _ => true
  | _ => false

/-- The polling ends only while no worker owns `thcount_lock`. -/
def UnlockedExit (s : Process n m fn arg) : Action n m fn arg -> Prop
  | .thread (.run .owner _ _) =>
      s.pool.owner.lastPoll = true -> s.pool.mem.numThreadsAlive = 0 ->
      forall i, s.pool.threads.owner .thcountLock ≠ some (.worker i)
  | _ => True

instance (s : Process n m fn arg) (a : Action n m fn arg) :
    Decidable (UnlockedExit s a) :=
  match a with
  | .thread (.run .owner _ _) => inferInstanceAs (Decidable (
      s.pool.owner.lastPoll = true -> s.pool.mem.numThreadsAlive = 0 ->
      forall i, s.pool.threads.owner .thcountLock ≠ some (.worker i)))
  | .thread (.run (.worker _) _ _) => inferInstanceAs (Decidable True)
  | .thread (.run (.client _) _ _) => inferInstanceAs (Decidable True)
  | .thread (.spurious _) => inferInstanceAs (Decidable True)
  | .deliver _ => inferInstanceAs (Decidable True)
  | .hold _ => inferInstanceAs (Decidable True)

theorem counted_false_of_alive_zero {s : Process n m fn arg}
    (hstage : StageInv s) (h : s.pool.mem.numThreadsAlive = 0) (i : Fin n) :
    (s.pool.worker i).standing.counted = false := by
  have hcount := hstage.alive
  rw [h] at hcount
  exact countWhere_eq_zero.mp (by exact_mod_cast hcount.symm) i

theorem exit_of_counted_out {l : WorkerPc fn arg}
    (hstarted : l.standing.started = true) (hout : l.standing.counted = false) :
    l = .exitUnlock ∨ l = .exited := by
  cases l with
  | exitUnlock => exact Or.inl rfl
  | exited => exact Or.inr rfl
  | unborn | aliveLock | aliveInc => cases hstarted
  | _ => cases hout

theorem OwnerMove.leaves {s s' : Shared n fn arg} {l l' : OwnerPc}
    {w : Wake Cond} (h : OwnerMove s l s' l' w)
    (hbefore : l.phase.released = false) (hafter : l'.phase.released = true) :
    l.lastPoll = true ∧ s.2.numThreadsAlive = 0 := by
  cases h with
  | pollRestEnd halive => exact ⟨rfl, halive⟩
  | _ => simp [OwnerPc.phase, Phase.released] at hbefore hafter

theorem worker_of_owner_run {s s' : Process n m fn arg} {c : Choice fn arg}
    {woken : Option (Tid n m)}
    (hstep : step s (.thread (.run .owner c woken)) = some s') :
    s'.pool.worker = s.pool.worker := by
  funext i
  by_contra hmoved
  rcases run_of_moved (t := .worker i) hstep hmoved with ⟨_, _, heq⟩
  cases heq

theorem leaves_of_step {s s' : Process n m fn arg} {a : Action n m fn arg}
    (hstep : step s a = some s')
    (hbefore : s.pool.owner.phase.released = false)
    (hafter : s'.pool.owner.phase.released = true) :
    (exists c woken, a = .thread (.run .owner c woken)) ∧
      s.pool.owner.lastPoll = true ∧ s.pool.mem.numThreadsAlive = 0 := by
  rcases phase_of_step hstep with hsame | ⟨sh, w, hmove⟩
  · rw [hsame, hbefore] at hafter
    cases hafter
  · have hmoved : s'.pool.threads.loc .owner ≠ s.pool.threads.loc .owner := by
      intro hsame
      rw [show s'.pool.owner = s.pool.owner from hsame, hbefore] at hafter
      cases hafter
    exact ⟨run_of_moved hstep hmoved, hmove.leaves hbefore hafter⟩

theorem exited_stays {s s' : Process n m fn arg} {a : Action n m fn arg}
    (hstep : step s a = some s') {i : Fin n} (h : s.pool.worker i = .exited) :
    s'.pool.worker i = .exited := by
  have hshift := worker_of_step hstep i
  rw [h] at hshift
  rcases hshift with hsame | hnext | ⟨w, hmove⟩
  · exact hsame
  · cases hnext
  · cases hmove

def CountedOut (s : Process n m fn arg) : Prop :=
  s.pool.owner.phase.released = true ->
    forall i, s.pool.worker i = .exitUnlock ∨ s.pool.worker i = .exited

theorem exiting_stays {s s' : Process n m fn arg} {a : Action n m fn arg}
    (hstep : step s a = some s') {i : Fin n}
    (h : s.pool.worker i = .exitUnlock ∨ s.pool.worker i = .exited) :
    s'.pool.worker i = .exitUnlock ∨ s'.pool.worker i = .exited := by
  rcases h with h | h
  · have hshift := worker_of_step hstep i
    rw [h] at hshift
    rcases hshift with hsame | hnext | ⟨w, hmove⟩
    · exact Or.inl hsame
    · exact Or.inr (Option.some.inj hnext).symm
    · cases hmove
  · exact Or.inr (exited_stays hstep h)

/-- When the last polling finds nobody alive, every worker is counted out. -/
theorem exiting_of_lastPoll {s : Process n m fn arg} (hstage : StageInv s)
    (hpoll : s.pool.owner.lastPoll = true)
    (halive : s.pool.mem.numThreadsAlive = 0) (i : Fin n) :
    s.pool.worker i = .exitUnlock ∨ s.pool.worker i = .exited := by
  have hinit : s.pool.owner.initReturned = true := by
    generalize s.pool.owner = l at hpoll
    cases l <;> first | rfl | cases hpoll
  exact exit_of_counted_out (hstage.started hinit i)
    (counted_false_of_alive_zero hstage halive i)

theorem countedOut_step {s s' : Process n m fn arg} {a : Action n m fn arg}
    (hstage : StageInv s) (h : CountedOut s) (hstep : step s a = some s') :
    CountedOut s' := by
  intro hafter i
  cases hbefore : s.pool.owner.phase.released with
  | true => exact exiting_stays hstep (h hbefore i)
  | false =>
      rcases leaves_of_step hstep hbefore hafter with
        ⟨⟨c, woken, rfl⟩, hpoll, halive⟩
      rw [worker_of_owner_run hstep]
      exact exiting_of_lastPoll hstage hpoll halive i

theorem reachable_countedOut {s : Process n m fn arg}
    (h : (thpool n m fn arg).Reachable s) : CountedOut s := by
  have hboth : StageInv s ∧ CountedOut s := by
    apply System.ReachableUnder.invariant _ _ h
    · intro s hs
      rw [show s = Process.initial from hs]
      refine ⟨stageInv_initial, ?_⟩
      intro hafter
      cases hafter
    · intro s t a hinv _ hstep
      exact ⟨stageInv_step hinv.1 hstep, countedOut_step hinv.1 hinv.2 hstep⟩
  exact hboth.2

/-!
## The pool is released after the last unlock
-/

/-- The pool is being released and no worker has a step ahead of it. -/
def Exited (s : Process n m fn arg) : Prop :=
  s.pool.owner.phase.released = true -> forall i, s.pool.worker i = .exited

theorem owner_of_exitUnlock {s : Process n m fn arg} (hlock : LockInv s)
    {i : Fin n} (h : s.pool.worker i = .exitUnlock) :
    s.pool.threads.owner .thcountLock = some (.worker i) := by
  apply (hlock.owned .thcountLock (.worker i)).mpr
  change (s.pool.worker i).Holds .thcountLock
  rw [h]
  rfl

theorem exited_step {s s' : Process n m fn arg} {a : Action n m fn arg}
    (hlock : LockInv s) (hstage : StageInv s) (hcounted : CountedOut s)
    (h : Exited s) (hok : UnlockedExit s a) (hstep : step s a = some s') :
    Exited s' := by
  intro hafter i
  cases hbefore : s.pool.owner.phase.released with
  | true => exact exited_stays hstep (h hbefore i)
  | false =>
      rcases leaves_of_step hstep hbefore hafter with
        ⟨⟨c, woken, rfl⟩, hpoll, halive⟩
      rcases countedOut_step hstage hcounted hstep hafter i with hi | hi
      · rw [worker_of_owner_run hstep] at hi
        exact (hok hpoll halive i (owner_of_exitUnlock hlock hi)).elim
      · exact hi

theorem reachableUnder_exited {s : Process n m fn arg}
    (h : (thpool n m fn arg).ReachableUnder UnlockedExit s) : Exited s := by
  have hall : LockInv s ∧ StageInv s ∧ CountedOut s ∧ Exited s := by
    apply System.ReachableUnder.invariant _ _ h
    · intro s hs
      rw [show s = Process.initial from hs]
      refine ⟨lockInv_initial, stageInv_initial, ?_, ?_⟩
      · intro hafter
        cases hafter
      · intro hafter
        cases hafter
    · intro s t a hparts hok hstep
      rcases hparts with ⟨hlock, hstage, hcounted, hexited⟩
      exact ⟨lockInv_step hlock hstep, stageInv_step hstage hstep,
        countedOut_step hstage hcounted hstep,
        exited_step hlock hstage hcounted hexited hok hstep⟩
  exact hall.2.2.2

theorem exitUnlock_of_owner {s : Process n m fn arg} (hlock : LockInv s)
    (hstage : StageInv s) (hpoll : s.pool.owner.lastPoll = true)
    (halive : s.pool.mem.numThreadsAlive = 0) {i : Fin n}
    (h : s.pool.threads.owner .thcountLock = some (.worker i)) :
    s.pool.worker i = .exitUnlock := by
  have hheld := (hlock.owned .thcountLock (.worker i)).mp h
  change (s.pool.worker i).Holds .thcountLock at hheld
  rcases exiting_of_lastPoll hstage hpoll halive i with hi | hi
  · exact hi
  · rw [hi] at hheld
    exact hheld.elim

theorem leaves_of_lastPoll {s s' : Process n m fn arg} {c : Choice fn arg}
    {woken : Option (Tid n m)}
    (hstep : step s (.thread (.run .owner c woken)) = some s')
    (hpoll : s.pool.owner.lastPoll = true)
    (halive : s.pool.mem.numThreadsAlive = 0) :
    s'.pool.owner.phase.released = true := by
  have howner : exists total, s.pool.owner = .pollRest total := by
    generalize s.pool.owner = l at hpoll
    cases l <;> first | exact ⟨_, rfl⟩ | cases hpoll
  rcases howner with ⟨total, htotal⟩
  have hact : (thpoolCode .owner
      (s.pool.threads.loc .owner)).syncNext = none := by
    change (ownerCode s.pool.owner : Code n fn arg OwnerPc).syncNext = none
    rw [htotal]
    rfl
  rcases acts_of_step hstep hact with ⟨sh, next, w, asleep, hacts, _, rfl⟩
  have hmove := ownerMove_of_acts hacts
  rw [show s.pool.threads.loc .owner = _ from htotal] at hmove
  cases hmove with
  | pollRest hne => exact (hne halive).elim
  | pollRestEnd =>
      rw [owner_after]
      rfl

/-- In a run whose polling ends with `thcount_lock` free of workers, the pool is
released only when every worker has made its last step; a polling that ends
otherwise leaves a worker with the unlock ahead of it. -/
theorem thpool_destroy_after_exit :
    (forall s : Process n m fn arg,
      (thpool n m fn arg).ReachableUnder UnlockedExit s -> Exited s) ∧
    (forall (s s' : Process n m fn arg) (a : Action n m fn arg),
      (thpool n m fn arg).Reachable s ->
      (thpool n m fn arg).step s a = some s' -> ¬ UnlockedExit s a ->
      ¬ Exited s') := by
  refine ⟨fun s hreach => reachableUnder_exited hreach, ?_⟩
  intro s s' a hreach hstep hlate
  cases a with
  | deliver | hold => exact (hlate trivial).elim
  | thread e =>
      cases e with
      | spurious => exact (hlate trivial).elim
      | run t c woken =>
          cases t with
          | worker | client => exact (hlate trivial).elim
          | owner =>
              simp only [UnlockedExit, not_forall, not_not] at hlate
              rcases hlate with ⟨hpoll, halive, i, howner⟩
              rcases reachable_tokenInv hreach with ⟨hlock, hstage, _⟩
              have hi := exitUnlock_of_owner hlock hstage hpoll halive howner
              intro hexited
              have hdone := hexited (leaves_of_lastPoll hstep hpoll halive) i
              rw [worker_of_owner_run hstep, hi] at hdone
              cases hdone

/-- The owner frees the pool between a worker's decrement and its unlock. -/
def freeBeforeUnlock (i : Fin n) : List (Action n m Unit Unit) :=
  startPool i ++ Tid.owner.chooses .destroy ++ Tid.owner.steps 1 ++
    (Tid.worker i).steps 3 ++ Tid.owner.chooses (.clock false) ++
    Tid.owner.steps 8

theorem thpool_destroy_before_exit :
    exists s : Process 1 0 Unit Unit, (thpool 1 0 Unit Unit).Reachable s ∧
      s.pool.owner = .gone ∧ s.pool.worker 0 = .exitUnlock ∧
      s.pool.threads.owner .thcountLock = some (.worker 0) :=
  System.reachable_of_exec (s := Process.initial) (freeBeforeUnlock 0) rfl
    (by decide)

/-- The same pool, with the unlock before the end of the polling. -/
def freeAfterUnlock (i : Fin n) : List (Action n m Unit Unit) :=
  startPool i ++ Tid.owner.chooses .destroy ++ Tid.owner.steps 1 ++
    (Tid.worker i).steps 4 ++ Tid.owner.chooses (.clock false) ++
    Tid.owner.steps 8

theorem thpool_destroy_after_exit_one :
    exists s : Process 1 0 Unit Unit, s.pool.owner = .gone ∧
      forall i, s.pool.worker i = .exited := by
  have hrun : exists s, (thpool 1 0 Unit Unit).ReachableUnder UnlockedExit s ∧
      s.pool.owner = .gone :=
    System.reachableUnder_of_execUnder (s := Process.initial)
      (freeAfterUnlock 0) rfl (by decide)
  rcases hrun with ⟨s, hreach, hgone⟩
  exact ⟨s, hgone, thpool_destroy_after_exit.1 s hreach (by rw [hgone]; rfl)⟩

end Thpool
end PracticeHand
