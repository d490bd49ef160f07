import PracticeHand.Concurrency.Discipline
import PracticeHand.Thpool.Moves

/-!
# Which locations hold which mutex

The annotation of every location with the mutexes held there, and the locations
where a thread sleeps.  The code respects both, so in every reachable state a
mutex is owned exactly by the thread at a location that holds it.
-/

namespace PracticeHand
namespace Thpool

open Concurrency

variable {n m : Nat} {fn arg : Type}

def PostPc.Holds : PostPc -> Mutex -> Prop
  | .lock, _ => False
  | .set, x => x = .hasJobsMutex
  | .unlock, x => x = .hasJobsMutex

def BsemWaitPc.Holds : BsemWaitPc -> Mutex -> Prop
  | .lock, _ => False
  | .test, x => x = .hasJobsMutex
  | .sleep, x => x = .hasJobsMutex
  | .relock, _ => False
  | .unlock, x => x = .hasJobsMutex

def PushPc.Holds : PushPc -> Mutex -> Prop
  | .lock, _ => False
  | .link, x => x = .rwmutex
  | .post p, x => x = .rwmutex ∨ p.Holds x
  | .unlock, x => x = .rwmutex

def PullPc.Holds : PullPc -> Mutex -> Prop
  | .lock, _ => False
  | .take, x => x = .rwmutex
  | .post _ p, x => x = .rwmutex ∨ p.Holds x
  | .unlock _, x => x = .rwmutex

def WaitPc.Holds : WaitPc -> Mutex -> Prop
  | .lock, _ => False
  | .len, x => x = .thcountLock
  | .working, x => x = .thcountLock
  | .sleep, x => x = .thcountLock
  | .relock, _ => False
  | .unlock, x => x = .thcountLock

def Frame.Holds : Frame -> Mutex -> Prop
  | .push _ p, x => p.Holds x
  | .wait p, x => p.Holds x
  | _, _ => False

def WorkerPc.Holds : WorkerPc fn arg -> Mutex -> Prop
  | .aliveInc, x => x = .thcountLock
  | .aliveUnlock, x => x = .thcountLock
  | .bsem p, x => p.Holds x
  | .workingInc, x => x = .thcountLock
  | .workingUnlock, x => x = .thcountLock
  | .pull p, x => p.Holds x
  | .running _ _ _ f, x => f.Holds x
  | .doneDec, x => x = .thcountLock
  | .doneUnlock, x => x = .thcountLock
  | .exitDec, x => x = .thcountLock
  | .exitUnlock, x => x = .thcountLock
  | _, _ => False

def OwnerPc.Holds : OwnerPc -> Mutex -> Prop
  | .postFirst _ p, x => p.Holds x
  | .postRest _ p, x => p.Holds x
  | .clearPull _ p, x => p.Holds x
  | _, _ => False

def Held : (t : Tid n m) -> Loc n m fn arg t -> Mutex -> Prop
  | .worker _, l => l.Holds
  | .client _, l => l.Holds
  | .owner, l => l.Holds

/-!
## The code respects the annotation
-/

theorem frame_holds_of_userMove {caller : Option Ptr} {s s' : Shared n fn arg}
    {f f' : Frame} {w : Wake Cond} (h : UserMove caller s f s' f' w)
    (x : Mutex) : f'.Holds x <-> f.Holds x := by
  cases h <;> simp [Frame.Holds, PushPc.Holds, PostPc.Holds, WaitPc.Holds]

theorem takeJob_holds {puller : Option (Fin n)} {s s' : Shared n fn arg}
    {p : PullPc} (h : takeJob puller s = some (s', p)) (x : Mutex) :
    p.Holds x <-> x = .rwmutex := by
  rcases takeJob_cases h with ⟨_, _, _, rfl, _⟩ | ⟨job, _, more, _, rfl, _⟩
  · rfl
  · cases more <;> simp [PullPc.Holds, PostPc.Holds]

theorem workerPc_holds_of_move {i : Fin n} {s s' : Shared n fn arg}
    {l l' : WorkerPc fn arg} {w : Wake Cond} (h : WorkerMove i s l s' l' w)
    (x : Mutex) : l'.Holds x <-> l.Holds x := by
  cases h with
  | take htake =>
      simp only [WorkerPc.Holds]
      exact takeJob_holds htake x
  | user hmove =>
      simp only [WorkerPc.Holds]
      exact frame_holds_of_userMove hmove x
  | _ =>
      simp [WorkerPc.Holds, BsemWaitPc.Holds, PullPc.Holds, PostPc.Holds,
        Frame.Holds]

theorem ownerPc_holds_of_move {s s' : Shared n fn arg} {l l' : OwnerPc}
    {w : Wake Cond} (h : OwnerMove s l s' l' w) (x : Mutex) :
    l'.Holds x <-> l.Holds x := by
  cases h with
  | clearTake htake =>
      simp only [OwnerPc.Holds]
      exact takeJob_holds htake x
  | _ => simp [OwnerPc.Holds, PullPc.Holds, PostPc.Holds]

theorem userCode_sync (caller : Option Ptr) (f : Frame) :
    Instr.SyncRespects Frame.Holds f (userCode caller f : Code n fn arg Frame) := by
  cases f with
  | user | pause => exact trivial
  | push newjob p =>
      cases p with
      | lock | link | unlock =>
          simp [Instr.SyncRespects, Instr.Respects, userCode, jobqueuePush, Instr.map,
            Frame.Holds, PushPc.Holds, Flow.elim]
      | post q =>
          cases q <;>
            simp [Instr.SyncRespects, Instr.Respects, userCode, jobqueuePush, bsemPost,
              Instr.map, Frame.Holds, PushPc.Holds, PostPc.Holds, Flow.elim] <;>
            grind
  | wait p =>
      cases p <;>
        simp [Instr.SyncRespects, Instr.Respects, userCode, thpoolWait, Instr.test, Instr.map,
          Frame.Holds, WaitPc.Holds, Flow.elim]

theorem threadDo_sync (i : Fin n) (l : WorkerPc fn arg) :
    Instr.SyncRespects WorkerPc.Holds l (threadDo i l) := by
  cases l with
  | bsem p =>
      cases p <;>
        simp [Instr.SyncRespects, Instr.Respects, threadDo, bsemWait, Instr.map,
          WorkerPc.Holds, BsemWaitPc.Holds, Flow.elim]
  | pull p =>
      cases p with
      | lock | take | unlock =>
          simp [Instr.SyncRespects, Instr.Respects, threadDo, jobqueuePull, Instr.map,
            WorkerPc.Holds, PullPc.Holds, Flow.elim]
      | post job q =>
          cases q <;>
            simp [Instr.SyncRespects, Instr.Respects, threadDo, jobqueuePull, bsemPost,
              Instr.map, WorkerPc.Holds, PullPc.Holds, PostPc.Holds,
              Flow.elim] <;>
            grind
  | running job function arg' f =>
      have huser : Instr.SyncRespects Frame.Holds f
          (userCode (some job) f : Code n fn arg Frame) :=
        userCode_sync (some job) f
      cases f with
      | user => exact trivial
      | push | wait | pause =>
          simp only [threadDo]
          generalize userCode (some job) _ = code at huser
          cases code <;> exact huser
  | got job => cases job <;> exact trivial
  | _ =>
      simp [Instr.SyncRespects, Instr.Respects, threadDo, Instr.store, Instr.test, Instr.halt,
        WorkerPc.Holds, PullPc.Holds]

theorem ownerCode_sync (l : OwnerPc) :
    Instr.SyncRespects OwnerPc.Holds l (ownerCode l : Code n fn arg OwnerPc) := by
  cases l with
  | postFirst total p | postRest total p =>
      cases p <;>
        simp [Instr.SyncRespects, Instr.Respects, ownerCode, bsemPostAll, Instr.map,
          OwnerPc.Holds, PostPc.Holds, Flow.elim]
  | clearPull total p =>
      cases p with
      | lock | take | unlock =>
          simp [Instr.SyncRespects, Instr.Respects, ownerCode, jobqueuePull, Instr.map,
            OwnerPc.Holds, PullPc.Holds, Flow.elim]
      | post job q =>
          cases q <;>
            simp [Instr.SyncRespects, Instr.Respects, ownerCode, jobqueuePull, bsemPost,
              Instr.map, OwnerPc.Holds, PullPc.Holds, PostPc.Holds,
              Flow.elim] <;>
            grind
  | _ => exact trivial

theorem thpoolCode_respects (t : Tid n m) (l : Loc n m fn arg t) :
    (thpoolCode t l).Respects (Held t) l := by
  cases t with
  | worker i =>
      apply Instr.respects_of_sync (threadDo_sync i l)
      intro s c s' next w hacts
      exact workerPc_holds_of_move (workerMove_of_acts hacts)
  | client c =>
      apply Instr.respects_of_sync (userCode_sync none l)
      intro s c s' next w hacts
      exact frame_holds_of_userMove (userMove_of_acts hacts)
  | owner =>
      apply Instr.respects_of_sync (ownerCode_sync l)
      intro s c s' next w hacts
      exact ownerPc_holds_of_move (ownerMove_of_acts hacts)

/-!
## Where threads sleep
-/

def Frame.SleepsOn : Frame -> Cond -> Prop
  | .wait .relock, k => k = .threadsAllIdle
  | _, _ => False

def WorkerPc.SleepsOn : WorkerPc fn arg -> Cond -> Prop
  | .bsem .relock, k => k = .hasJobsCond
  | .running _ _ _ f, k => f.SleepsOn k
  | _, _ => False

def Sleeps : (t : Tid n m) -> Loc n m fn arg t -> Cond -> Prop
  | .worker _, l => l.SleepsOn
  | .client _, l => l.SleepsOn
  | .owner, _ => fun _ => False

theorem userCode_wait {caller : Option Ptr} {f next : Frame} {k : Cond}
    {x : Mutex} (h : (userCode caller f : Code n fn arg Frame) = .wait k x next) :
    f = .wait .sleep ∧ next = .wait .relock ∧ k = .threadsAllIdle := by
  cases f with
  | user | pause => cases h
  | push newjob p =>
      cases p with
      | lock | link | unlock => cases h
      | post q => cases q <;> cases h
  | wait p =>
      cases p <;> cases h
      exact ⟨rfl, rfl, rfl⟩

theorem threadDo_wait {i : Fin n} {l next : WorkerPc fn arg} {k : Cond}
    {x : Mutex} (h : threadDo i l = .wait k x next) :
    (l = .bsem .sleep ∧ next = .bsem .relock ∧ k = .hasJobsCond) ∨
      exists job function arg', l = .running job function arg' (.wait .sleep) ∧
        next = .running job function arg' (.wait .relock) ∧
        k = .threadsAllIdle := by
  cases l with
  | bsem p =>
      cases p <;> cases h
      exact Or.inl ⟨rfl, rfl, rfl⟩
  | pull p =>
      cases p with
      | lock | take | unlock => cases h
      | post job q => cases q <;> cases h
  | got job => cases job <;> cases h
  | running job function arg' f =>
      cases f with
      | user | pause => cases h
      | push newjob p =>
          cases p with
          | lock | link | unlock => cases h
          | post q => cases q <;> cases h
      | wait p =>
          cases p <;> cases h
          exact Or.inr ⟨job, function, arg', rfl, rfl, rfl⟩
  | _ => cases h

theorem ownerCode_not_wait {l next : OwnerPc} {k : Cond} {x : Mutex} :
    (ownerCode l : Code n fn arg OwnerPc) ≠ .wait k x next := by
  intro h
  cases l with
  | postFirst total p | postRest total p => cases p <;> cases h
  | clearPull total p =>
      cases p with
      | lock | take | unlock => cases h
      | post job q => cases q <;> cases h
  | _ => cases h

theorem thpoolCode_sleeps (t : Tid n m) (l : Loc n m fn arg t) (k : Cond)
    (x : Mutex) (next : Loc n m fn arg t)
    (h : thpoolCode t l = .wait k x next) : Sleeps t next k := by
  cases t with
  | worker i =>
      rcases threadDo_wait h with ⟨_, rfl, rfl⟩ | ⟨_, _, _, _, rfl, rfl⟩
      · exact rfl
      · exact rfl
  | client c =>
      rcases userCode_wait h with ⟨_, rfl, rfl⟩
      exact rfl
  | owner => exact (ownerCode_not_wait h).elim

/-!
## The invariant
-/

structure LockInv (s : Process n m fn arg) : Prop where
  owned : Owned Held s.pool.threads
  sleepers : SleepsAt Sleeps s.pool.threads

theorem lockInv_initial : LockInv (Process.initial : Process n m fn arg) where
  owned := by
    intro x t
    cases t <;> simp [Process.initial, Pool.initial, Held, WorkerPc.Holds,
      Frame.Holds, OwnerPc.Holds]
  sleepers := by
    intro t k h
    cases h

theorem lockInv_step {s s' : Process n m fn arg} {a : Action n m fn arg}
    (h : LockInv s) (hstep : step s a = some s') : LockInv s' := by
  cases moves_of_step hstep with
  | thread _ hfire =>
      exact ⟨h.owned.fires thpoolCode_respects hfire,
        h.sleepers.fires thpoolCode_sleeps hfire⟩
  | deliver => exact ⟨h.owned, h.sleepers⟩
  | hold => exact ⟨h.owned, h.sleepers⟩

end Thpool
end PracticeHand
