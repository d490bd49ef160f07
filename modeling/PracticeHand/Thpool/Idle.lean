import PracticeHand.Thpool.Wait

/-!
# The signal that wakes the waiters

The worker that takes `num_threads_working` to 0 signals `threads_all_idle`
once, so it wakes one of the threads asleep in `thpool_wait`.  With an empty
queue nothing will signal again.  A waiter is left asleep exactly when a second
one sleeps at that moment.
-/

namespace PracticeHand
namespace Thpool

open Concurrency

variable {n m : Nat} {fn arg : Type}

def WorkerPc.signals : WorkerPc fn arg -> Bool
  | .doneDec => true
  | _ => false

/-- The last working thread finds at most one sleeper when it signals with an
empty queue. -/
def LoneSleeper (s : Process n m fn arg) : Action n m fn arg -> Prop
  | .thread (.run (.worker i) _ _) =>
      (s.pool.worker i).signals = true -> s.pool.mem.numThreadsWorking = 1 ->
      s.pool.mem.jobqueue.len = 0 ->
      forall t u, s.pool.threads.asleep t = some .threadsAllIdle ->
        s.pool.threads.asleep u = some .threadsAllIdle -> t = u
  | _ => True

instance (s : Process n m fn arg) (a : Action n m fn arg) :
    Decidable (LoneSleeper s a) :=
  match a with
  | .thread (.run (.worker i) _ _) => inferInstanceAs (Decidable (
      (s.pool.worker i).signals = true -> s.pool.mem.numThreadsWorking = 1 ->
      s.pool.mem.jobqueue.len = 0 ->
      forall t u, s.pool.threads.asleep t = some .threadsAllIdle ->
        s.pool.threads.asleep u = some .threadsAllIdle -> t = u))
  | .thread (.run (.client _) _ _) => inferInstanceAs (Decidable True)
  | .thread (.run .owner _ _) => inferInstanceAs (Decidable True)
  | .thread (.spurious _) => inferInstanceAs (Decidable True)
  | .deliver _ => inferInstanceAs (Decidable True)
  | .hold _ => inferInstanceAs (Decidable True)

/-- With nothing queued and nobody working no thread sleeps in `thpool_wait`. -/
def NoStuckWaiter (s : Process n m fn arg) : Prop :=
  s.pool.mem.jobqueue.len = 0 -> s.pool.mem.numThreadsWorking = 0 ->
    forall t, s.pool.threads.asleep t ≠ some .threadsAllIdle

/-!
## The pool stays busy

As long as a job is queued or a worker is counted as working there is a signal
to come.
-/

def Busy (s : Process n m fn arg) : Prop :=
  s.pool.mem.jobqueue.len ≠ 0 ∨ s.pool.mem.numThreadsWorking ≠ 0

theorem busy_of_working {s : Process n m fn arg} (hstage : StageInv s)
    {i : Fin n} (h : (s.pool.workerStanding i).working = true) : Busy s := by
  refine Or.inr ?_
  intro hzero
  exact idle_of_working_zero hstage hzero ⟨i, h⟩

theorem pushSection_len {heap heap' : Heap fn arg} {q q' : JobQueue} {p : Ptr}
    (h : pushSection heap q p = some (heap', q')) : q'.len = q.len + 1 := by
  simp only [pushSection, Option.bind_eq_bind, Option.bind_eq_some_iff] at h
  rcases h with ⟨heap1, _, h⟩
  split at h
  · cases h
    rfl
  · simp only [Option.bind_eq_some_iff] at h
    rcases h with ⟨rear, _, heap2, _, h⟩
    cases h
    rfl

theorem len_nonneg {s : Process n m fn arg} (hb : s.Booked) :
    0 ≤ s.pool.mem.jobqueue.len := by
  rcases hb with ⟨l, b⟩
  rw [b.represents.len]
  exact Int.natCast_nonneg _

theorem UserMove.len {caller : Option Ptr} {s s' : Shared n fn arg}
    {f f' : Frame} {w : Wake Cond} (h : UserMove caller s f s' f' w) :
    s'.2.jobqueue.len = s.2.jobqueue.len ∨
      s'.2.jobqueue.len = s.2.jobqueue.len + 1 := by
  cases h with
  | link hlink =>
      rcases linkJob_cases hlink with ⟨_, _, _, _, hpush, rfl⟩
      exact Or.inr (pushSection_len hpush)
  | _ => exact Or.inl rfl

structure GoesIdle (s s' : Process n m fn arg) (i : Fin n) : Prop where
  before : s.pool.worker i = .doneDec
  after : s'.pool.worker i = .doneUnlock
  last : s.pool.mem.numThreadsWorking = 1
  empty : s.pool.mem.jobqueue.len = 0
  signal : exists woken, (Wake.signal Cond.threadsAllIdle).apply woken
    s.pool.threads.asleep = some s'.pool.threads.asleep

theorem busy_step {s s' : Process n m fn arg} {a : Action n m fn arg}
    (hstage : StageInv s) (hserves : s.Serves) (hstep : step s a = some s')
    (hused : s'.pool.owner.phase.released = false) (h : Busy s) :
    Busy s' ∨ exists i, GoesIdle s s' i := by
  have hstage' := stageInv_step hstage hstep
  cases shift_of_step hstep with
  | signal | spurious | sync | sleep => exact Or.inl h
  | @worker i sh next w woken asleep _ hmove happly =>
      by_cases hworking : next.standing.working = true
      · refine Or.inl (busy_of_working hstage' (i := i) ?_)
        unfold Pool.workerStanding
        rw [standing_after, Function.update_self]
        exact hworking
      · generalize hl : s.pool.worker i = l at hmove
        cases hmove with
        | take | user | free | workingInc | pullPost | gotNull | call | ret =>
            exact (hworking rfl).elim
        | doneDec =>
            by_cases hlast : s.pool.mem.numThreadsWorking - 1 = 0
            · by_cases hlen : s.pool.mem.jobqueue.len = 0
              · refine Or.inr ⟨i, hl, ?_, by lia, hlen, woken, ?_⟩
                · rw [worker_after, Function.update_self]
                · have hsignal : (Wake.signal Cond.threadsAllIdle).apply woken
                      s.pool.threads.asleep = some asleep := by
                    simpa [Process.shared, hlast] using happly
                  exact hsignal
              · exact Or.inl (Or.inl hlen)
            · exact Or.inl (Or.inr hlast)
        | _ => exact Or.inl h
  | @client j sh next w woken asleep _ hmove _ =>
      have hnonneg := len_nonneg (hserves (released_of_step hstep hused)).1
      have hworking := hmove.counters.working
      change s.shared.2.jobqueue.len ≠ 0 ∨ s.shared.2.numThreadsWorking ≠ 0 at h
      change 0 ≤ s.shared.2.jobqueue.len at hnonneg
      refine Or.inl ?_
      change sh.2.jobqueue.len ≠ 0 ∨ sh.2.numThreadsWorking ≠ 0
      rcases hmove.len with hlen | hlen <;> lia
  | @owner sh next w woken asleep hmove _ =>
      rw [owner_after] at hused
      refine Or.inl ?_
      have hunused := fun h => (hstage.unused (Or.inr h)).1
      change s.shared.2.jobqueue.len ≠ 0 ∨ s.shared.2.numThreadsWorking ≠ 0 at h
      change sh.2.jobqueue.len ≠ 0 ∨ sh.2.numThreadsWorking ≠ 0
      generalize s.pool.owner = l at hmove hunused
      cases hmove with
      | initAlloc =>
          have hsame : (initFields s.shared).2 = s.shared.2 :=
            initFields_unused (hunused rfl)
          rwa [hsame]
      | clearTake | clearFree | clearReset => cases hused
      | _ => exact h

/-!
## Who may sleep
-/

theorem asleep_of_step {s s' : Process n m fn arg} {a : Action n m fn arg}
    (hstep : step s a = some s') {t : Tid n m}
    (h : s'.pool.threads.asleep t = some .threadsAllIdle) :
    s.pool.threads.asleep t = some .threadsAllIdle ∨
      s.pool.waiting t = some .sleep := by
  cases shift_of_step hstep with
  | signal | sync => exact Or.inl h
  | @spurious u =>
      change Function.update s.pool.threads.asleep u none t = _ at h
      exact Or.inl (some_of_update_none h).2
  | @sleep u next k x own _ hwait =>
      change Function.update s.pool.threads.asleep u (some k) t = _ at h
      rcases cases_of_update_some h with ⟨rfl, rfl⟩ | ⟨_, hold⟩
      · refine Or.inr ?_
        unfold Pool.waiting
        generalize s.pool.threads.loc t = l at hwait
        cases t with
        | worker i =>
            rcases threadDo_wait hwait with ⟨_, _, hk⟩ | ⟨_, _, _, rfl, _, _⟩
            · cases hk
            · rfl
        | client j =>
            rcases userCode_wait hwait with ⟨rfl, _, _⟩
            rfl
        | owner => exact (ownerCode_not_wait hwait).elim
      · exact Or.inl hold
  | worker _ _ happly => exact Or.inl (Wake.apply_sub happly h)
  | client _ _ happly => exact Or.inl (Wake.apply_sub happly h)
  | owner _ happly => exact Or.inl (Wake.apply_sub happly h)

def Dozes (s : Process n m fn arg) (t : Tid n m) : Prop :=
  s.pool.waiting t = some .sleep ∨
    s.pool.threads.asleep t = some .threadsAllIdle

def DozeInv (s : Process n m fn arg) : Prop :=
  s.pool.owner.phase.released = false -> forall t, Dozes s t -> Busy s

/-- When the pool goes idle after a signal that reaches every sleeper, nobody
is left asleep. -/
theorem GoesIdle.awake {s s' : Process n m fn arg} {i : Fin n}
    (h : GoesIdle s s' i) (hlock : LockInv s')
    (hlone : forall t u, s.pool.threads.asleep t = some .threadsAllIdle ->
      s.pool.threads.asleep u = some .threadsAllIdle -> t = u)
    (t : Tid n m) : ¬ Dozes s' t := by
  intro hcases
  rcases hcases with hpc | hasleep
  · -- the worker still owns the lock that the sleeper would need
    have hheld : Held (.worker i : Tid n m)
        (s'.pool.threads.loc (.worker i)) .thcountLock := by
      change (s'.pool.worker i).Holds .thcountLock
      rw [h.after]
      rfl
    have hti := hlock.owned.unique (held_of_waiting hpc rfl) hheld
    subst hti
    change (s'.pool.worker i).waitPc = some .sleep at hpc
    rw [h.after] at hpc
    cases hpc
  · rcases h.signal with ⟨woken, happly⟩
    rcases Wake.apply_signal happly with ⟨u, hu, heq⟩ | ⟨hnone, heq⟩
    · rw [heq] at hasleep
      rcases some_of_update_none hasleep with ⟨htu, hold⟩
      exact htu (hlone t u hold hu)
    · rw [heq] at hasleep
      exact hnone t hasleep

theorem dozeInv_step {s s' : Process n m fn arg} {a : Action n m fn arg}
    (hlock : LockInv s) (hstage : StageInv s) (hserves : s.Serves)
    (h : DozeInv s) (hlone : LoneSleeper s a) (hstep : step s a = some s') :
    DozeInv s' := by
  intro hused t ht
  have hbefore := released_of_step hstep hused
  have hdozed : Dozes s t -> Busy s' := by
    intro hdozes
    rcases busy_step hstage hserves hstep hused (h hbefore t hdozes) with
      hbusy | ⟨i, hidle⟩
    · exact hbusy
    · have hmoved : s'.pool.threads.loc (.worker i) ≠
          s.pool.threads.loc (.worker i) := by
        change s'.pool.worker i ≠ s.pool.worker i
        rw [hidle.before, hidle.after]
        simp
      rcases run_of_moved hstep hmoved with ⟨c, woken, rfl⟩
      have hsleepers := hlone (by rw [hidle.before]; rfl) hidle.last hidle.empty
      exact (hidle.awake (lockInv_step hlock hstep) hsleepers t ht).elim
  rcases ht with hpc | hasleep
  · rcases waiting_of_step hlock hstep hpc rfl (by simp) with
      ⟨hsame, _⟩ | ⟨hshared, hmove⟩
    · exact hdozed (Or.inl hsame)
    · -- the thread has just read that there is something to wait for
      change s'.shared.2.jobqueue.len ≠ 0 ∨ s'.shared.2.numThreadsWorking ≠ 0
      rw [hshared]
      generalize s.pool.waiting t = p at hmove
      cases hmove with
      | lenPos hlen => exact Or.inl hlen
      | workPos hworking => exact Or.inr hworking
  · rcases asleep_of_step hstep hasleep with hsame | hpc
    · exact hdozed (Or.inr hsame)
    · exact hdozed (Or.inl hpc)

theorem worker_of_signals {l : WorkerPc fn arg} (h : l.signals = true) :
    l = .doneDec := by
  cases l <;> first | rfl | cases h

theorem two_sleepers_of_not_lone {s : Process n m fn arg}
    {a : Action n m fn arg} (h : ¬ LoneSleeper s a) :
    exists i c woken, a = .thread (.run (.worker i) c woken) ∧
      s.pool.worker i = .doneDec ∧ s.pool.mem.numThreadsWorking = 1 ∧
      s.pool.mem.jobqueue.len = 0 ∧
      exists t u, t ≠ u ∧ s.pool.threads.asleep t = some .threadsAllIdle ∧
        s.pool.threads.asleep u = some .threadsAllIdle := by
  cases a with
  | deliver | hold => exact (h trivial).elim
  | thread e =>
      cases e with
      | spurious => exact (h trivial).elim
      | run t c woken =>
          cases t with
          | client | owner => exact (h trivial).elim
          | worker i =>
              simp only [LoneSleeper, not_forall] at h
              rcases h with ⟨hpc, hlast, hlen, t, u, ht, hu, htu⟩
              exact ⟨i, c, woken, rfl, worker_of_signals hpc, hlast, hlen, t, u,
                htu, ht, hu⟩

/-- A signal that finds two sleepers leaves one of them asleep in an idle pool. -/
theorem stuck_of_two_sleepers {s s' : Process n m fn arg}
    {a : Action n m fn arg} (hstep : step s a = some s')
    (hcrowd : ¬ LoneSleeper s a) : ¬ NoStuckWaiter s' := by
  rcases two_sleepers_of_not_lone hcrowd with
    ⟨i, c, woken, rfl, hl, hlast, hlen, t, u, htu, ht, hu⟩
  have hact : (thpoolCode (.worker i)
      (s.pool.threads.loc (.worker i))).syncNext = none := by
    change (threadDo i (s.pool.worker i)).syncNext = none
    rw [hl]
    rfl
  rcases acts_of_step hstep hact with
    ⟨sh, next, w, asleep, hacts, hwake, rfl⟩
  change (threadDo i (s.pool.worker i)).Acts s.shared c sh next w at hacts
  rw [hl] at hacts
  cases workerMove_of_acts hacts with
  | doneDec =>
      intro hfree
      have hzero : s.pool.mem.numThreadsWorking - 1 = 0 := by lia
      have hawake := hfree hlen hzero
      rw [show s.shared.2.numThreadsWorking - 1 = 0 from hzero, if_pos rfl] at hwake
      rcases Wake.apply_signal hwake with ⟨v, hv, rfl⟩ | ⟨hnone, _⟩
      · by_cases htv : t = v
        · have huv : u ≠ v := fun h => htu (htv.trans h.symm)
          exact hawake u ((Function.update_of_ne huv ..).trans hu)
        · exact hawake t ((Function.update_of_ne htv ..).trans ht)
      · exact hnone t ht

/-!
## No stuck waiter
-/

theorem reachableUnder_dozeInv {s : Process n m fn arg}
    (h : (thpool n m fn arg).ReachableUnder LoneSleeper s) :
    LockInv s ∧ StageInv s ∧ s.Serves ∧ DozeInv s := by
  apply System.ReachableUnder.invariant _ _ h
  · intro s hs
    rw [show s = Process.initial from hs]
    refine ⟨lockInv_initial, stageInv_initial, serves_initial, ?_⟩
    intro _ t hcases
    rcases hcases with hpc | hasleep
    · cases t <;> cases hpc
    · cases hasleep
  · intro s t a hparts hlone hstep
    rcases hparts with ⟨hlock, hstage, hserves, hdoze⟩
    exact ⟨lockInv_step hlock hstep, stageInv_step hstage hstep,
      serves_step hstage hserves hstep,
      dozeInv_step hlock hstage hserves hdoze hlone hstep⟩

/-- No waiter is stuck in a run whose every last signal finds at most one
sleeper, and every step that breaks this condition leaves a waiter stuck. -/
theorem thpool_wait_no_stuck_waiter :
    (forall s : Process n m fn arg,
      (thpool n m fn arg).ReachableUnder LoneSleeper s ->
      s.pool.owner.phase.released = false -> NoStuckWaiter s) ∧
    (forall (s s' : Process n m fn arg) (a : Action n m fn arg),
      (thpool n m fn arg).step s a = some s' -> ¬ LoneSleeper s a ->
      ¬ NoStuckWaiter s') := by
  constructor
  · intro s hreach hused hlen hworking t hasleep
    rcases reachableUnder_dozeInv hreach with ⟨_, _, _, hdoze⟩
    rcases hdoze hused t (Or.inr hasleep) with hbusy | hbusy
    · exact hbusy hlen
    · exact hbusy hworking
  · intro s s' a hstep hcrowd
    exact stuck_of_two_sleepers hstep hcrowd

def twoWaiters (i : Fin n) (j k : Fin m) : List (Action n m Unit Unit) :=
  startPool i ++ callAddWork j ++
    (Tid.client j).chooses .wait ++ (Tid.client j).steps 3 ++
    (Tid.client k).chooses .wait ++ (Tid.client k).steps 3 ++ doJob i ++
    [.thread (.run (.worker i) .go (some (.client j)))] ++
    (Tid.worker i).steps 1

theorem thpool_wait_stuck :
    exists s : Process 1 2 Unit Unit, (thpool 1 2 Unit Unit).Reachable s ∧
      s.pool.owner = .ready ∧ s.pool.mem.jobqueue.len = 0 ∧
      s.pool.mem.numThreadsWorking = 0 ∧
      s.pool.threads.asleep (.client 1) = some .threadsAllIdle :=
  System.reachable_of_exec (s := Process.initial) (twoWaiters 0 0 1) rfl (by decide)

def oneWaiter (i : Fin n) (j : Fin m) : List (Action n m Unit Unit) :=
  startPool i ++ callAddWork j ++
    (Tid.client j).chooses .wait ++ (Tid.client j).steps 3 ++ doJob i ++
    [.thread (.run (.worker i) .go (some (.client j)))]

theorem thpool_wait_no_stuck_waiter_one :
    exists s : Process 1 1 Unit Unit, s.pool.mem.jobqueue.len = 0 ∧
      s.pool.mem.numThreadsWorking = 0 ∧
      s.pool.waiting (.client 0) = some .relock ∧
      s.pool.threads.asleep (.client 0) ≠ some .threadsAllIdle := by
  have hrun : exists s, (thpool 1 1 Unit Unit).ReachableUnder LoneSleeper s ∧
      (s.pool.owner.phase.released = false ∧ s.pool.mem.jobqueue.len = 0 ∧
        s.pool.mem.numThreadsWorking = 0 ∧
        s.pool.waiting (.client 0) = some .relock) :=
    System.reachableUnder_of_execUnder (s := Process.initial)
      (oneWaiter 0 0) rfl (by decide)
  rcases hrun with ⟨s, hreach, hused, hlen, hworking, hpc⟩
  exact ⟨s, hlen, hworking, hpc,
    thpool_wait_no_stuck_waiter.1 s hreach hused hlen hworking (.client 0)⟩

end Thpool
end PracticeHand
