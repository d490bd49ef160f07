import Mathlib.Data.Fintype.Sum
import Mathlib.Tactic.DeriveFintype
import PracticeHand.Concurrency.Threads
import PracticeHand.Thpool.JobQueue

/-!
# The code of the thread pool

The functions of `thpool.c` as programs over mutexes and condition variables.
Each function has a type of control locations, one for every point at which
another thread can be observed, and the instruction at each location.  A
function called by another is embedded through `Flow`: it either goes on at a
location of its own or returns.

Threads that use the pool are of three kinds: the workers, which run
`thread_do`; client threads, which call the interface; and the owner, which
calls `thpool_init` and later `thpool_destroy`.  A job run by a worker may call
the interface like a client.
-/

namespace PracticeHand
namespace Thpool

open Concurrency

/-!
## Memory

The flags are file-level variables of `thpool.c`, shared by every pool of the
process.  The other fields belong to one pool.
-/

structure Flags where
  threadsKeepalive : Bool
  threadsOnHold : Bool
  deriving DecidableEq

/-- An accepted call of `thpool_add_work`; `parent` is the ticket of the job
that made the call, if a job made it. -/
structure Accepted (fn arg : Type) where
  function : fn
  arg : arg
  parent : Option Nat
  deriving DecidableEq

/-- A job that left the queue, and who pulled it: a worker, or `none` for
`jobqueue_clear`. -/
structure Handed (n : Nat) where
  puller : Option (Fin n)
  ticket : Nat
  deriving DecidableEq

structure Call (n : Nat) (fn arg : Type) where
  worker : Fin n
  ticket : Nat
  function : fn
  arg : arg
  deriving DecidableEq

inductive HoldCall where
  | pause
  | resume
  deriving DecidableEq

/-- What has happened so far.  No instruction reads it.  The ticket of a job is
its place in the order in which the `jobqueue_push` sections ran. -/
structure History (n : Nat) (fn arg : Type) where
  -- what `thpool_add_work` was given when it last got this node
  asked : Ptr -> Option (fn × arg) := fun _ => none
  -- what was asked for, in the order of the `jobqueue_push` sections
  requested : List (Option (fn × arg)) := []
  -- the jobs that these sections linked
  accepted : List (Accepted fn arg) := []
  -- the job that was last pushed with this node
  ticketOf : Ptr -> Nat := fun _ => 0
  handed : List (Handed n) := []
  called : List (Call n fn arg) := []
  finished : List Nat := []
  freed : List Nat := []
  lastHoldCall : Option HoldCall := none

structure PoolMem (n : Nat) (fn arg : Type) where
  numThreadsAlive : Int := 0
  numThreadsWorking : Int := 0
  jobqueue : JobQueue := jobqueueInit
  -- the value of the binary semaphore `has_jobs`
  v : Nat := 0
  heap : Heap fn arg := fun _ => none
  created : Nat := 0
  sigusr1 : Fin n -> Bool := fun _ => false
  history : History n fn arg := {}

abbrev Shared (n : Nat) (fn arg : Type) := Flags × PoolMem n fn arg

inductive Mutex where
  | rwmutex
  | hasJobsMutex
  | thcountLock
  deriving DecidableEq

inductive Cond where
  | hasJobsCond
  | threadsAllIdle
  deriving DecidableEq

inductive Tid (n m : Nat) where
  | worker (i : Fin n)
  | client (c : Fin m)
  | owner
  deriving DecidableEq, Fintype

/-- The choices that are not the scheduler's: what user code calls next, the
address that `malloc` returns, and whether a second has passed. -/
inductive Choice (fn arg : Type) where
  | go
  | addWork (function : fn) (arg : arg) (addr : Option Ptr)
  | wait
  | pause
  | resume
  | ret
  | clock (expired : Bool)
  | destroy

section Code

variable {n : Nat} {fn arg : Type}

abbrev Code (n : Nat) (fn arg loc : Type) :=
  Instr Mutex Cond (Shared n fn arg) (Choice fn arg) loc

/-- Where a called function goes: on, at one of its locations, or back. -/
inductive Flow (pc ret : Type) where
  | goto (l : pc)
  | ret (r : ret)

def Flow.elim {pc ret loc : Type} (k : pc -> loc) (r : ret -> loc) :
    Flow pc ret -> loc
  | .goto l => k l
  | .ret x => r x

def onPool (f : PoolMem n fn arg -> PoolMem n fn arg)
    (s : Shared n fn arg) : Shared n fn arg :=
  (s.1, f s.2)

/-!
## Synchronisation
-/

inductive PostPc where
  | lock
  | set
  | unlock
  deriving DecidableEq

def setV (v : Nat) : Shared n fn arg -> Shared n fn arg :=
  onPool fun m => { m with v := v }

def bsemPost : PostPc -> Code n fn arg (Flow PostPc Unit)
  | .lock => .lock .hasJobsMutex (.goto .set)
  | .set => .act fun s _ =>
      some (setV 1 s, .goto .unlock, .signal .hasJobsCond)
  | .unlock => .unlock .hasJobsMutex (.ret ())

def bsemPostAll : PostPc -> Code n fn arg (Flow PostPc Unit)
  | .lock => .lock .hasJobsMutex (.goto .set)
  | .set => .act fun s _ =>
      some (setV 1 s, .goto .unlock, .broadcast .hasJobsCond)
  | .unlock => .unlock .hasJobsMutex (.ret ())

inductive BsemWaitPc where
  | lock
  | test
  | sleep
  | relock
  | unlock
  deriving DecidableEq

def bsemWait : BsemWaitPc -> Code n fn arg (Flow BsemWaitPc Unit)
  | .lock => .lock .hasJobsMutex (.goto .test)
  | .test => .act fun s _ =>
      if s.2.v ≠ 1 then some (s, .goto .sleep, .nobody)
      else some (setV 0 s, .goto .unlock, .nobody)
  | .sleep => .wait .hasJobsCond .hasJobsMutex (.goto .relock)
  | .relock => .lock .hasJobsMutex (.goto .test)
  | .unlock => .unlock .hasJobsMutex (.ret ())

/-!
## Job queue
-/

inductive PushPc where
  | lock
  | link
  | post (p : PostPc)
  | unlock
  deriving DecidableEq

/-- `jobqueue_push` under `rwmutex`; `caller` is the node of the job that
makes the call. -/
def linkJob (caller : Option Ptr) (newjob : Ptr) (s : Shared n fn arg) :
    Option (Shared n fn arg) := do
  let node <- s.2.heap newjob
  let (heap, q) <- pushSection s.2.heap s.2.jobqueue newjob
  let h := s.2.history
  return onPool (fun m => { m with
    heap := heap
    jobqueue := q
    history := { h with
      requested := h.requested ++ [h.asked newjob]
      accepted := h.accepted ++
        [{ function := node.function, arg := node.arg,
           parent := caller.map h.ticketOf }]
      ticketOf := Function.update h.ticketOf newjob h.accepted.length } }) s

def jobqueuePush (caller : Option Ptr) (newjob : Ptr) :
    PushPc -> Code n fn arg (Flow PushPc Unit)
  | .lock => .lock .rwmutex (.goto .link)
  | .link => .act fun s _ =>
      (linkJob caller newjob s).map fun s' => (s', .goto (.post .lock), .nobody)
  | .post p => (bsemPost p).map (Flow.elim (fun p => .goto (.post p))
      (fun _ => .goto .unlock))
  | .unlock => .unlock .rwmutex (.ret ())

inductive PullPc where
  | lock
  | take
  | post (job : Ptr) (p : PostPc)
  | unlock (job : Option Ptr)
  deriving DecidableEq

/-- `jobqueue_pull` under `rwmutex`, and where it goes on; `puller` is the
worker that calls it, or `none` for `jobqueue_clear`. -/
def takeJob (puller : Option (Fin n)) (s : Shared n fn arg) :
    Option (Shared n fn arg × PullPc) :=
  match pullSection s.2.heap s.2.jobqueue with
  | none => none
  | some (none, q, _) =>
      some (onPool (fun m => { m with jobqueue := q }) s, .unlock none)
  | some (some job, q, more) =>
      some (onPool (fun m => { m with
          jobqueue := q
          history := { m.history with
            handed := m.history.handed ++
              [{ puller := puller, ticket := m.history.ticketOf job }] } }) s,
        if more then .post job .lock else .unlock (some job))

def jobqueuePull (puller : Option (Fin n)) :
    PullPc -> Code n fn arg (Flow PullPc (Option Ptr))
  | .lock => .lock .rwmutex (.goto .take)
  | .take => .act fun s _ =>
      (takeJob puller s).map fun r => (r.1, .goto r.2, .nobody)
  | .post job p => (bsemPost p).map (Flow.elim (fun p => .goto (.post job p))
      (fun _ => .goto (.unlock (some job))))
  | .unlock job => .unlock .rwmutex (.ret job)

/-- `free(job)` of a job node; freeing NULL does nothing. -/
def freeJob (s : Shared n fn arg) : Option Ptr -> Option (Shared n fn arg)
  | none => some s
  | some p =>
      if s.2.heap p = none then none
      else some (onPool (fun m => { m with
        heap := Function.update m.heap p none
        history := { m.history with
          freed := m.history.freed ++ [m.history.ticketOf p] } }) s)

/-!
## The interface

`Frame` is where a thread of user code stands: outside the pool, or inside a
call.  `thpool_resume` is a single assignment and has no location of its own.
-/

inductive WaitPc where
  | lock
  | len
  | working
  | sleep
  | relock
  | unlock
  deriving DecidableEq

/-- `thpool_wait`.  The length is read without `rwmutex`, and before the number
of working threads. -/
def thpoolWait : WaitPc -> Code n fn arg (Flow WaitPc Unit)
  | .lock => .lock .thcountLock (.goto .len)
  | .len => .test (fun s => s.2.jobqueue.len ≠ 0) (.goto .sleep) (.goto .working)
  | .working => .test (fun s => s.2.numThreadsWorking ≠ 0)
      (.goto .sleep) (.goto .unlock)
  | .sleep => .wait .threadsAllIdle .thcountLock (.goto .relock)
  | .relock => .lock .thcountLock (.goto .len)
  | .unlock => .unlock .thcountLock (.ret ())

inductive Frame where
  | user
  | push (newjob : Ptr) (p : PushPc)
  | wait (p : WaitPc)
  | pause (k : Nat)
  deriving DecidableEq

def allocJob (p : Ptr) (function : fn) (arg' : arg) :
    Shared n fn arg -> Shared n fn arg :=
  onPool fun m => { m with
    heap := Function.update m.heap p
      (some { prev := none, function := function, arg := arg' }) }

def noteAddWork (p : Ptr) (function : fn) (arg' : arg) :
    Shared n fn arg -> Shared n fn arg :=
  onPool fun m => { m with history := { m.history with
    asked := Function.update m.history.asked p (some (function, arg')) } }

/-- `thpool_add_work` up to its call of `jobqueue_push`; a failed `malloc`
makes it return -1. -/
def thpoolAddWork (function : fn) (arg' : arg) (addr : Option Ptr)
    (s : Shared n fn arg) : Option (Shared n fn arg × Frame) :=
  match addr with
  | none => some (s, .user)
  | some p =>
      if s.2.heap p = none then
        some (allocJob p function arg' (noteAddWork p function arg' s),
          .push p .lock)
      else none

def raiseSigusr1 (i : Fin n) : Shared n fn arg -> Shared n fn arg :=
  onPool fun m => { m with sigusr1 := Function.update m.sigusr1 i true }

def thpoolPause (k : Nat) (s : Shared n fn arg) :
    Option (Shared n fn arg × Frame) :=
  if k < s.2.numThreadsAlive then
    if h : k < n then some (raiseSigusr1 ⟨k, h⟩ s, .pause (k + 1))
    else none
  else some (s, .user)

def noteHoldCall (c : HoldCall) : Shared n fn arg -> Shared n fn arg :=
  onPool fun m => { m with history :=
    { m.history with lastHoldCall := some c } }

def thpoolResume (s : Shared n fn arg) : Shared n fn arg :=
  noteHoldCall .resume ({ s.1 with threadsOnHold := false }, s.2)

def apiCall (s : Shared n fn arg) :
    Choice fn arg -> Option (Shared n fn arg × Frame)
  | .addWork function arg' addr => thpoolAddWork function arg' addr s
  | .wait => some (s, .wait .lock)
  | .pause => some (noteHoldCall .pause s, .pause 0)
  | .resume => some (thpoolResume s, .user)
  | _ => none

/-- User code and the calls it makes; `caller` is the job it belongs to. -/
def userCode (caller : Option Ptr) : Frame -> Code n fn arg Frame
  | .user => .act fun s c =>
      (apiCall s c).map fun r => (r.1, r.2, .nobody)
  | .push newjob p => (jobqueuePush caller newjob p).map
      (Flow.elim (.push newjob) (fun _ => .user))
  | .wait p => (thpoolWait p).map (Flow.elim .wait (fun _ => .user))
  | .pause k => .act fun s _ =>
      (thpoolPause k s).map fun r => (r.1, r.2, .nobody)

/-!
## Workers
-/

inductive WorkerPc (fn arg : Type) where
  | unborn
  | aliveLock
  | aliveInc
  | aliveUnlock
  | loop
  | bsem (p : BsemWaitPc)
  | check
  | workingLock
  | workingInc
  | workingUnlock
  | pull (p : PullPc)
  | got (job : Option Ptr)
  | running (job : Ptr) (function : fn) (arg : arg) (f : Frame)
  | free (job : Ptr)
  | doneLock
  | doneDec
  | doneUnlock
  | exitLock
  | exitDec
  | exitUnlock
  | exited
  deriving DecidableEq

def callJob (i : Fin n) (job : Ptr) (function : fn) (arg' : arg) :
    Shared n fn arg -> Shared n fn arg :=
  onPool fun m => { m with history := { m.history with
    called := m.history.called ++
      [{ worker := i, ticket := m.history.ticketOf job,
         function := function, arg := arg' }] } }

def returnJob (job : Ptr) : Shared n fn arg -> Shared n fn arg :=
  onPool fun m => { m with history := { m.history with
    finished := m.history.finished ++ [m.history.ticketOf job] } }

def addAlive (d : Int) : Shared n fn arg -> Shared n fn arg :=
  onPool fun m => { m with numThreadsAlive := m.numThreadsAlive + d }

def addWorking (d : Int) : Shared n fn arg -> Shared n fn arg :=
  onPool fun m => { m with numThreadsWorking := m.numThreadsWorking + d }

def threadDo (i : Fin n) : WorkerPc fn arg -> Code n fn arg (WorkerPc fn arg)
  | .unborn => .act fun s _ =>
      if i.val < s.2.created then some (s, .aliveLock, .nobody) else none
  | .aliveLock => .lock .thcountLock .aliveInc
  | .aliveInc => .store (addAlive 1) .aliveUnlock
  | .aliveUnlock => .unlock .thcountLock .loop
  | .loop => .test (fun s => s.1.threadsKeepalive) (.bsem .lock) .exitLock
  | .bsem p => (bsemWait p).map (Flow.elim .bsem (fun _ => .check))
  | .check => .test (fun s => s.1.threadsKeepalive) .workingLock .loop
  | .workingLock => .lock .thcountLock .workingInc
  | .workingInc => .store (addWorking 1) .workingUnlock
  | .workingUnlock => .unlock .thcountLock (.pull .lock)
  | .pull p => (jobqueuePull (some i) p).map (Flow.elim .pull .got)
  | .got none => .store id .doneLock
  | .got (some job) => .act fun s _ =>
      (s.2.heap job).map fun node =>
        (callJob i job node.function node.arg s,
          .running job node.function node.arg .user, .nobody)
  | .running job function arg' .user => .act fun s c =>
      match c with
      | .ret => some (returnJob job s, .free job, .nobody)
      | _ => (apiCall s c).map fun r =>
          (r.1, .running job function arg' r.2, .nobody)
  | .running job function arg' f =>
      (userCode (some job) f).map (.running job function arg')
  | .free job => .act fun s _ =>
      (freeJob s (some job)).map fun s' => (s', .doneLock, .nobody)
  | .doneLock => .lock .thcountLock .doneDec
  | .doneDec => .act fun s _ =>
      some (addWorking (-1) s, .doneUnlock,
        if s.2.numThreadsWorking - 1 = 0 then .signal .threadsAllIdle
        else .nobody)
  | .doneUnlock => .unlock .thcountLock .loop
  | .exitLock => .lock .thcountLock .exitDec
  | .exitDec => .store (addAlive (-1)) .exitUnlock
  | .exitUnlock => .unlock .thcountLock .exited
  | .exited => .halt

/-!
## The owner

`thpool_init` up to its return, then `thpool_destroy`.  Both polling loops of
`thpool_destroy` read `num_threads_alive` without a lock; the first one also
ends when a second has passed.
-/

inductive OwnerPc where
  | initHold
  | initKeepalive
  | initAlloc
  | initThread (k : Nat)
  | initWait
  | ready
  | keepalive (total : Int)
  | pollFirst (total : Int)
  | postFirst (total : Int) (p : PostPc)
  | pollRest (total : Int)
  | postRest (total : Int) (p : PostPc)
  | clearTest (total : Int)
  | clearPull (total : Int) (p : PullPc)
  | clearFree (total : Int) (job : Option Ptr)
  | clearReset (total : Int)
  | freeHasJobs (total : Int)
  | freeThread (total : Int) (k : Nat)
  | freeThreads
  | freePool
  | gone
  deriving DecidableEq

def setKeepalive (b : Bool) (s : Shared n fn arg) : Shared n fn arg :=
  ({ s.1 with threadsKeepalive := b }, s.2)

def setOnHold (b : Bool) (s : Shared n fn arg) : Shared n fn arg :=
  ({ s.1 with threadsOnHold := b }, s.2)

def initFields : Shared n fn arg -> Shared n fn arg :=
  onPool fun m => { m with
    numThreadsAlive := 0
    numThreadsWorking := 0
    jobqueue := jobqueueInit
    v := 0 }

def createThread (k : Nat) : Shared n fn arg -> Shared n fn arg :=
  onPool fun m => { m with created := k + 1 }

/-- The assignments of `jobqueue_clear` after its loop. -/
def clearFields : Shared n fn arg -> Shared n fn arg :=
  onPool fun m => { m with
    jobqueue := { front := none, rear := none, len := 0 }
    v := 0 }

def ownerCode : OwnerPc -> Code n fn arg OwnerPc
  | .initHold => .store (setOnHold false) .initKeepalive
  | .initKeepalive => .store (setKeepalive true) .initAlloc
  | .initAlloc => .store initFields (.initThread 0)
  | .initThread k => .act fun s _ =>
      if k < n then some (createThread k s, .initThread (k + 1), .nobody)
      else some (s, .initWait, .nobody)
  | .initWait => .test (fun s => s.2.numThreadsAlive ≠ n) .initWait .ready
  | .ready => .act fun s c =>
      match c with
      | .destroy => some (s, .keepalive s.2.numThreadsAlive, .nobody)
      | _ => none
  | .keepalive total => .store (setKeepalive false) (.pollFirst total)
  | .pollFirst total => .act fun s c =>
      match c with
      | .clock expired =>
          some (s,
            if expired = false ∧ s.2.numThreadsAlive ≠ 0 then
              .postFirst total .lock
            else .pollRest total, .nobody)
      | _ => none
  | .postFirst total p => (bsemPostAll p).map
      (Flow.elim (.postFirst total) (fun _ => .pollFirst total))
  | .pollRest total => .test (fun s => s.2.numThreadsAlive ≠ 0)
      (.postRest total .lock) (.clearTest total)
  | .postRest total p => (bsemPostAll p).map
      (Flow.elim (.postRest total) (fun _ => .pollRest total))
  | .clearTest total => .test (fun s => s.2.jobqueue.len ≠ 0)
      (.clearPull total .lock) (.clearReset total)
  | .clearPull total p => (jobqueuePull none p).map
      (Flow.elim (.clearPull total) (.clearFree total))
  | .clearFree total job => .act fun s _ =>
      (freeJob s job).map fun s' => (s', .clearTest total, .nobody)
  | .clearReset total => .store clearFields (.freeHasJobs total)
  | .freeHasJobs total => .store id (.freeThread total 0)
  | .freeThread total k => .test (fun _ => k < total)
      (.freeThread total (k + 1)) .freeThreads
  | .freeThreads => .store id .freePool
  | .freePool => .store id .gone
  | .gone => .halt

abbrev Loc (n m : Nat) (fn arg : Type) : Tid n m -> Type
  | .worker _ => WorkerPc fn arg
  | .client _ => Frame
  | .owner => OwnerPc

def thpoolCode {m : Nat} :
    Program (Tid n m) Mutex Cond (Shared n fn arg) (Choice fn arg)
      (Loc n m fn arg)
  | .worker i, l => threadDo i l
  | .client _, l => userCode none l
  | .owner, l => ownerCode l

end Code

end Thpool
end PracticeHand
