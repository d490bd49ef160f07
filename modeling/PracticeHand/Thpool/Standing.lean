import PracticeHand.Concurrency.Counting
import PracticeHand.Thpool.Locks

/-!
# What a location stands for

The proofs about the pool do not look at single locations but at what a thread
at a location stands for: whether the counters count it, whether it has taken
the token of the semaphore, whether it is about to post, and which job nodes it
has in hand.  Locking, unlocking and going to sleep never change any of it.
-/

namespace PracticeHand
namespace Thpool

open Concurrency

variable {n m : Nat} {fn arg : Type}

inductive Stage where
  | pulled
  | called
  | returned
  deriving DecidableEq

structure Standing where
  /-- Past the increment of `num_threads_alive`. -/
  started : Bool := false
  /-- Counted by `num_threads_alive`. -/
  counted : Bool := false
  /-- Counted by `num_threads_working`. -/
  working : Bool := false
  /-- Returned from the wait on `has_jobs` and not yet pulled. -/
  token : Bool := false
  /-- About to set `has_jobs->v` to 1 after changing the queue. -/
  posting : Bool := false
  /-- The job that the thread has pulled. -/
  job : Option (Ptr × Stage) := none
  /-- The node that a call of `thpool_add_work` has not linked yet. -/
  newjob : Option Ptr := none
  deriving DecidableEq

def PostPc.posting : PostPc -> Bool
  | .lock => true
  | .set => true
  | .unlock => false

def PushPc.posting : PushPc -> Bool
  | .post p => p.posting
  | _ => false

def PushPc.linked : PushPc -> Bool
  | .lock => false
  | .link => false
  | _ => true

def PullPc.posting : PullPc -> Bool
  | .post _ p => p.posting
  | _ => false

def PullPc.token : PullPc -> Bool
  | .lock => true
  | .take => true
  | _ => false

def PullPc.job : PullPc -> Option Ptr
  | .post job _ => some job
  | .unlock job => job
  | _ => none

def BsemWaitPc.token : BsemWaitPc -> Bool
  | .unlock => true
  | _ => false

def Frame.standing : Frame -> Standing
  | .push newjob p =>
      { posting := p.posting
        newjob := if p.linked then none else some newjob }
  | _ => {}

@[simp] theorem Frame.standing_token (f : Frame) : f.standing.token = false := by
  cases f <;> rfl

@[simp] theorem Frame.standing_job (f : Frame) : f.standing.job = none := by
  cases f <;> rfl

def Standing.alive : Standing := { started := true, counted := true }

def WorkerPc.standing : WorkerPc fn arg -> Standing
  | .unborn => {}
  | .aliveLock => {}
  | .aliveInc => {}
  | .aliveUnlock => .alive
  | .loop => .alive
  | .bsem p => { Standing.alive with token := p.token }
  | .check => { Standing.alive with token := true }
  | .workingLock => { Standing.alive with token := true }
  | .workingInc => { Standing.alive with token := true }
  | .workingUnlock => { Standing.alive with working := true, token := true }
  | .pull p => { Standing.alive with
      working := true
      token := p.token
      posting := p.posting
      job := p.job.map (fun job => (job, .pulled)) }
  | .got job => { Standing.alive with
      working := true
      job := job.map (fun job => (job, .pulled)) }
  | .running job _ _ f => { Standing.alive with
      working := true
      posting := f.standing.posting
      job := some (job, .called)
      newjob := f.standing.newjob }
  | .free job => { Standing.alive with
      working := true
      job := some (job, .returned) }
  | .doneLock => { Standing.alive with working := true }
  | .doneDec => { Standing.alive with working := true }
  | .doneUnlock => .alive
  | .exitLock => .alive
  | .exitDec => .alive
  | .exitUnlock => { started := true }
  | .exited => { started := true }

/-- In `jobqueue_clear` the owner pulls jobs like a worker. -/
def OwnerPc.standing : OwnerPc -> Standing
  | .clearPull _ p =>
      { posting := p.posting
        job := p.job.map (fun job => (job, .pulled)) }
  | .clearFree _ job => { job := job.map (fun job => (job, .pulled)) }
  | _ => {}

@[simp] theorem OwnerPc.standing_newjob (l : OwnerPc) :
    l.standing.newjob = none := by
  cases l <;> rfl

def standing : (t : Tid n m) -> Loc n m fn arg t -> Standing
  | .worker _, l => l.standing
  | .client _, l => l.standing
  | .owner, l => l.standing

def Pool.standing (p : Pool n m fn arg) (t : Tid n m) : Standing :=
  Thpool.standing t (p.threads.loc t)

/-!
## Steps that only synchronise
-/

theorem userCode_syncNext {caller : Option Ptr} {f f' : Frame}
    (h : (userCode caller f : Code n fn arg Frame).syncNext = some f') :
    f'.standing = f.standing := by
  cases f with
  | user | pause => cases h
  | push newjob p =>
      cases p with
      | lock | link | unlock => cases h <;> rfl
      | post q => cases q <;> cases h <;> rfl
  | wait p => cases p <;> cases h <;> rfl

theorem threadDo_syncNext {i : Fin n} {l l' : WorkerPc fn arg}
    (h : (threadDo i l).syncNext = some l') : l'.standing = l.standing := by
  cases l with
  | bsem p => cases p <;> cases h <;> rfl
  | pull p =>
      cases p with
      | lock | take | unlock => cases h <;> rfl
      | post job q => cases q <;> cases h <;> rfl
  | got job => cases job <;> cases h
  | running job function arg' f =>
      cases f with
      | user => cases h
      | push | wait | pause =>
          simp only [threadDo, Instr.syncNext_map, Option.map_eq_some_iff] at h
          rcases h with ⟨f', hf', rfl⟩
          simp only [WorkerPc.standing, userCode_syncNext hf']
  | _ => cases h <;> rfl

theorem ownerCode_syncNext {l l' : OwnerPc}
    (h : (ownerCode l : Code n fn arg OwnerPc).syncNext = some l') :
    l'.standing = l.standing := by
  cases l with
  | postFirst total p | postRest total p => cases p <;> cases h <;> rfl
  | clearPull total p =>
      cases p with
      | lock | take | unlock => cases h <;> rfl
      | post job q => cases q <;> cases h <;> rfl
  | _ => cases h

theorem thpoolCode_syncNext {t : Tid n m} {l next : Loc n m fn arg t}
    (h : (thpoolCode t l).syncNext = some next) :
    standing t next = standing t l := by
  cases t with
  | worker i => exact threadDo_syncNext h
  | client j => exact userCode_syncNext h
  | owner => exact ownerCode_syncNext h

/-!
## One step of the process

Every step, as the proofs about the pool see it: something happens to the
signal SIGUSR1, a thread wakes up for no reason, a thread only synchronises, or
a worker, a client or the owner makes one of the memory steps.
-/

namespace Process

def shared (s : Process n m fn arg) : Shared n fn arg :=
  (s.flags, s.pool.mem)

def after (s : Process n m fn arg) (sh : Shared n fn arg)
    (threads : Threads (Tid n m) Mutex Cond (Loc n m fn arg)) :
    Process n m fn arg :=
  { flags := sh.1
    pool := { s.pool with mem := sh.2, threads := threads } }

end Process

inductive Shift (s : Process n m fn arg) : Process n m fn arg -> Prop where
  | signal {onHold : Bool} {sigusr1 : Fin n -> Bool}
      {hold : Fin n -> Option HoldPc} :
      Shift s
        { flags := { s.flags with threadsOnHold := onHold }
          pool := { s.pool with
            mem := { s.pool.mem with sigusr1 := sigusr1 }
            hold := hold } }
  | spurious {t : Tid n m} :
      Shift s (s.after s.shared { s.pool.threads with
        asleep := Function.update s.pool.threads.asleep t none })
  | sync {t : Tid n m} {next : Loc n m fn arg t}
      {owner : Mutex -> Option (Tid n m)} :
      s.pool.mayRun t = true ->
      (thpoolCode t (s.pool.threads.loc t)).syncNext = some next ->
      Shift s (s.after s.shared { s.pool.threads with
        owner := owner
        loc := Function.update s.pool.threads.loc t next })
  | sleep {t : Tid n m} {next : Loc n m fn arg t} {k : Cond} {x : Mutex}
      {owner : Mutex -> Option (Tid n m)} :
      s.pool.mayRun t = true ->
      thpoolCode t (s.pool.threads.loc t) = .wait k x next ->
      Shift s (s.after s.shared
        { owner := owner
          loc := Function.update s.pool.threads.loc t next
          asleep := Function.update s.pool.threads.asleep t (some k) })
  | worker {i : Fin n} {sh : Shared n fn arg} {next : WorkerPc fn arg}
      {w : Wake Cond} {woken : Option (Tid n m)}
      {asleep : Tid n m -> Option Cond} :
      s.pool.mayRun (.worker i) = true ->
      WorkerMove i s.shared (s.pool.worker i) sh next w ->
      w.apply woken s.pool.threads.asleep = some asleep ->
      Shift s (s.after sh { s.pool.threads with
        loc := Function.update s.pool.threads.loc (.worker i) next
        asleep := asleep })
  | client {j : Fin m} {sh : Shared n fn arg} {next : Frame} {w : Wake Cond}
      {woken : Option (Tid n m)} {asleep : Tid n m -> Option Cond} :
      s.pool.mayRun (.client j) = true ->
      UserMove none s.shared (s.pool.client j) sh next w ->
      w.apply woken s.pool.threads.asleep = some asleep ->
      Shift s (s.after sh { s.pool.threads with
        loc := Function.update s.pool.threads.loc (.client j) next
        asleep := asleep })
  | owner {sh : Shared n fn arg} {next : OwnerPc} {w : Wake Cond}
      {woken : Option (Tid n m)} {asleep : Tid n m -> Option Cond} :
      OwnerMove s.shared s.pool.owner sh next w ->
      w.apply woken s.pool.threads.asleep = some asleep ->
      Shift s (s.after sh { s.pool.threads with
        loc := Function.update s.pool.threads.loc .owner next
        asleep := asleep })

theorem shift_of_step {s s' : Process n m fn arg} {a : Action n m fn arg}
    (h : step s a = some s') : Shift s s' := by
  cases moves_of_step h with
  | deliver _ _ _ => exact Shift.signal
  | @hold i l hl => cases l <;> exact Shift.signal
  | thread hrun hfire =>
      cases hfire with
      | lock _ hinstr _ | unlock _ hinstr _ =>
          exact Shift.sync hrun (by rw [hinstr]; rfl)
      | wait _ hinstr _ => exact Shift.sleep hrun hinstr
      | spurious _ => exact Shift.spurious
      | @act t _ _ _ _ _ _ _ hacts hwake =>
          cases t with
          | worker i => exact Shift.worker hrun (workerMove_of_acts hacts) hwake
          | client j => exact Shift.client hrun (userMove_of_acts hacts) hwake
          | owner => exact Shift.owner (ownerMove_of_acts hacts) hwake

/-- A thread whose instruction does not synchronise makes a memory step. -/
theorem acts_of_step {s s' : Process n m fn arg} {t : Tid n m}
    {c : Choice fn arg} {woken : Option (Tid n m)}
    (h : step s (.thread (.run t c woken)) = some s')
    (hact : (thpoolCode t (s.pool.threads.loc t)).syncNext = none) :
    exists sh next w asleep,
      (thpoolCode t (s.pool.threads.loc t)).Acts s.shared c sh next w ∧
      w.apply woken s.pool.threads.asleep = some asleep ∧
      s' = s.after sh { s.pool.threads with
        loc := Function.update s.pool.threads.loc t next
        asleep := asleep } := by
  cases moves_of_step h with
  | thread _ hfire =>
      cases hfire with
      | lock _ hinstr _ | unlock _ hinstr _ | wait _ hinstr _ =>
          rw [hinstr] at hact
          cases hact
      | act _ hacts hwake => exact ⟨_, _, _, _, hacts, hwake, rfl⟩

/-- The converse: an enabled memory step is a step of the process. -/
theorem step_of_acts {s : Process n m fn arg} {t : Tid n m} {c : Choice fn arg}
    {woken : Option (Tid n m)} {sh : Shared n fn arg} {next : Loc n m fn arg t}
    {w : Wake Cond} {asleep : Tid n m -> Option Cond}
    (hrun : s.pool.mayRun t = true)
    (hawake : s.pool.threads.asleep t = none)
    (hacts : (thpoolCode t (s.pool.threads.loc t)).Acts s.shared c sh next w)
    (happly : w.apply woken s.pool.threads.asleep = some asleep) :
    step s (.thread (.run t c woken)) =
      some (s.after sh { s.pool.threads with
        loc := Function.update s.pool.threads.loc t next
        asleep := asleep }) := by
  cases hinstr : thpoolCode t (s.pool.threads.loc t) with
  | lock | unlock | wait =>
      rw [hinstr] at hacts
      exact hacts.elim
  | act f =>
      rw [hinstr, Instr.acts_act] at hacts
      simp only [Process.shared] at hacts
      simp [step, Event.enabled, hrun, machineStep, hawake, hinstr, hacts,
        happly, Process.after]

/-!
The standings after a step: unchanged unless a thread made a memory step, and
then only that thread's.
-/

theorem standing_after (s : Process n m fn arg) (sh : Shared n fn arg)
    {t : Tid n m} {next : Loc n m fn arg t}
    {owner : Mutex -> Option (Tid n m)} {asleep : Tid n m -> Option Cond} :
    (s.after sh
      { owner := owner
        loc := Function.update s.pool.threads.loc t next
        asleep := asleep }).pool.standing =
      Function.update s.pool.standing t (standing t next) :=
  funext fun u => Function.apply_update standing s.pool.threads.loc t next u

theorem worker_after (s : Process n m fn arg) (sh : Shared n fn arg)
    {i : Fin n} {next : WorkerPc fn arg}
    {owner : Mutex -> Option (Tid n m)} {asleep : Tid n m -> Option Cond} :
    (s.after sh
      { owner := owner
        loc := Function.update s.pool.threads.loc (.worker i) next
        asleep := asleep }).pool.worker =
      Function.update s.pool.worker i next := by
  funext j
  by_cases hj : j = i
  · subst hj
    rw [Function.update_self]
    exact Function.update_self ..
  · have hne : (Tid.worker j : Tid n m) ≠ .worker i := by simpa using hj
    rw [Function.update_of_ne hj]
    exact Function.update_of_ne hne ..

theorem worker_after_sync (s : Process n m fn arg) (sh : Shared n fn arg)
    {t : Tid n m} {next : Loc n m fn arg t}
    {owner : Mutex -> Option (Tid n m)} {asleep : Tid n m -> Option Cond}
    (h : (thpoolCode t (s.pool.threads.loc t)).syncNext = some next) (i : Fin n) :
    (s.after sh
      { owner := owner
        loc := Function.update s.pool.threads.loc t next
        asleep := asleep }).pool.worker i = s.pool.worker i ∨
    (threadDo i (s.pool.worker i)).syncNext = some ((s.after sh
      { owner := owner
        loc := Function.update s.pool.threads.loc t next
        asleep := asleep }).pool.worker i) := by
  cases t with
  | client | owner => exact Or.inl rfl
  | worker j =>
      rw [worker_after]
      by_cases hij : i = j
      · subst hij
        rw [Function.update_self]
        exact Or.inr h
      · rw [Function.update_of_ne hij]
        exact Or.inl rfl

theorem loc_of_step {s s' : Process n m fn arg} {a : Action n m fn arg}
    (hstep : step s a = some s') (t : Tid n m) :
    s'.pool.threads.loc t = s.pool.threads.loc t ∨
      (thpoolCode t (s.pool.threads.loc t)).syncNext =
        some (s'.pool.threads.loc t) ∨
      exists c w, (thpoolCode t (s.pool.threads.loc t)).Acts s.shared c s'.shared
        (s'.pool.threads.loc t) w := by
  cases moves_of_step hstep with
  | thread _ hfire => exact hfire.loc_cases t
  | deliver | hold => exact Or.inl rfl

theorem worker_of_step {s s' : Process n m fn arg} {a : Action n m fn arg}
    (hstep : step s a = some s') (i : Fin n) :
    s'.pool.worker i = s.pool.worker i ∨
      (threadDo i (s.pool.worker i)).syncNext = some (s'.pool.worker i) ∨
      exists w, WorkerMove i s.shared (s.pool.worker i) s'.shared
        (s'.pool.worker i) w := by
  rcases loc_of_step hstep (.worker i) with hsame | hnext | ⟨_, w, hacts⟩
  · exact Or.inl hsame
  · exact Or.inr (Or.inl hnext)
  · exact Or.inr (Or.inr ⟨w, workerMove_of_acts hacts⟩)

theorem owner_after (s : Process n m fn arg) (sh : Shared n fn arg)
    {next : OwnerPc}
    {owner : Mutex -> Option (Tid n m)} {asleep : Tid n m -> Option Cond} :
    (s.after sh
      { owner := owner
        loc := Function.update s.pool.threads.loc .owner next
        asleep := asleep }).pool.owner = next := by
  change Function.update s.pool.threads.loc .owner next .owner = next
  exact Function.update_self ..

theorem standing_after_sync (s : Process n m fn arg) (sh : Shared n fn arg)
    {t : Tid n m} {next : Loc n m fn arg t}
    {owner : Mutex -> Option (Tid n m)} {asleep : Tid n m -> Option Cond}
    (h : (thpoolCode t (s.pool.threads.loc t)).syncNext = some next) :
    (s.after sh
      { owner := owner
        loc := Function.update s.pool.threads.loc t next
        asleep := asleep }).pool.standing = s.pool.standing := by
  rw [standing_after, thpoolCode_syncNext h]
  exact Function.update_eq_self ..

end Thpool
end PracticeHand
