import PracticeHand.Concurrency.Runs
import PracticeHand.Thpool.Program

/-!
# A process with one pool

The threads of the pool run on the machine of `Concurrency.Threads`.  On top of
it stands the signal SIGUSR1: `thpool_pause` makes it pending for a worker, it
is delivered at any later moment, and while `thread_hold` runs the worker does
not move and the signal is blocked.
-/

namespace PracticeHand
namespace Thpool

open Concurrency

inductive HoldPc where
  | set
  | loop
  deriving DecidableEq

structure Pool (n m : Nat) (fn arg : Type) where
  mem : PoolMem n fn arg
  threads : Threads (Tid n m) Mutex Cond (Loc n m fn arg)
  hold : Fin n -> Option HoldPc

structure Process (n m : Nat) (fn arg : Type) where
  flags : Flags
  pool : Pool n m fn arg

/-- A thread moves, SIGUSR1 is delivered to a worker, or a worker executes a
step of `thread_hold`. -/
inductive Action (n m : Nat) (fn arg : Type) where
  | thread (e : Event (Tid n m) (Choice fn arg))
  | deliver (i : Fin n)
  | hold (i : Fin n)

variable {n m : Nat} {fn arg : Type}

namespace Pool

def worker (p : Pool n m fn arg) (i : Fin n) : WorkerPc fn arg :=
  p.threads.loc (.worker i)

def client (p : Pool n m fn arg) (c : Fin m) : Frame :=
  p.threads.loc (.client c)

/-- Location of the owner in `thpool_init` or `thpool_destroy`. -/
def owner (p : Pool n m fn arg) : OwnerPc :=
  p.threads.loc .owner

end Pool

def OwnerPc.initReturned : OwnerPc -> Bool
  | .initHold | .initKeepalive | .initAlloc | .initThread _ | .initWait => false
  | _ => true

/-- A worker inside `thread_hold` does not move, a client has no pool before
`thpool_init` returns it, and no step of a worker or a client is defined once
the pool has been freed. -/
def Pool.mayRun (p : Pool n m fn arg) : Tid n m -> Bool
  | .worker i => p.hold i = none ∧ p.owner ≠ .gone
  | .client _ => p.owner.initReturned ∧ p.owner ≠ .gone
  | .owner => true

def Event.enabled (p : Pool n m fn arg) :
    Event (Tid n m) (Choice fn arg) -> Bool
  | .run t _ _ => p.mayRun t
  | .spurious _ => true

def threadHold (flags : Flags) : HoldPc -> Flags × Option HoldPc
  | .set => ({ flags with threadsOnHold := true }, some .loop)
  | .loop => (flags, if flags.threadsOnHold then some .loop else none)

def WorkerPc.live : WorkerPc fn arg -> Bool
  | .unborn => false
  | .exited => false
  | _ => true

def step (s : Process n m fn arg) :
    Action n m fn arg -> Option (Process n m fn arg)
  | .thread e =>
      if Event.enabled s.pool e then
        (machineStep thpoolCode (s.flags, s.pool.mem) s.pool.threads e).map
          fun r =>
            { flags := r.1.1
              pool := { s.pool with mem := r.1.2, threads := r.2 } }
      else none
  | .deliver i =>
      if s.pool.mem.sigusr1 i ∧ s.pool.hold i = none ∧
          (s.pool.worker i).live then
        some { s with pool := { s.pool with
          mem := { s.pool.mem with
            sigusr1 := Function.update s.pool.mem.sigusr1 i false }
          hold := Function.update s.pool.hold i (some .set) } }
      else none
  | .hold i =>
      (s.pool.hold i).map fun l =>
        { flags := (threadHold s.flags l).1
          pool := { s.pool with
            hold := Function.update s.pool.hold i (threadHold s.flags l).2 } }

/-- Every thread at its start and no memory in use; the owner is about to
call `thpool_init`. -/
def Pool.initial : Pool n m fn arg where
  mem := {}
  threads :=
    { owner := fun _ => none
      loc := fun
        | .worker _ => .unborn
        | .client _ => .user
        | .owner => .initHold
      asleep := fun _ => none }
  hold := fun _ => none

/-- File-level variables start at zero. -/
def Process.initial : Process n m fn arg where
  flags := { threadsKeepalive := false, threadsOnHold := false }
  pool := Pool.initial

/-- The runs of a process with one pool of `n` workers and `m` client threads. -/
def thpool (n m : Nat) (fn arg : Type) :
    System (Process n m fn arg) (Action n m fn arg) where
  Init s := s = Process.initial
  step := step

/-!
## Schedules

Pieces of concrete schedules: a thread that takes a number of steps with
nothing to choose, the set-up of a pool, and a call of `thpool_add_work`.
-/

def Tid.steps (t : Tid n m) (k : Nat) : List (Action n m fn arg) :=
  List.replicate k (.thread (.run t .go none))

def Tid.chooses (t : Tid n m) (c : Choice fn arg) : List (Action n m fn arg) :=
  [.thread (.run t c none)]

def startPool (i : Fin n) : List (Action n m fn arg) :=
  Tid.owner.steps 5 ++ (Tid.worker i).steps 4 ++ Tid.owner.steps 1

/-- A client adds a job at address 0 while nobody sleeps on the semaphore. -/
def callAddWork (j : Fin m) : List (Action n m Unit Unit) :=
  (Tid.client j).chooses (.addWork () () (some 0)) ++ (Tid.client j).steps 6

/-- A worker at its loop takes the only job, runs it and frees it, up to the
point where it is about to be counted out. -/
def doJob (i : Fin n) : List (Action n m Unit Unit) :=
  (Tid.worker i).steps 12 ++ (Tid.worker i).chooses .ret ++
    (Tid.worker i).steps 2

/-!
## What a step can do
-/

/-- The inversion of `step`. -/
inductive Moves (s : Process n m fn arg) :
    Action n m fn arg -> Process n m fn arg -> Prop where
  | thread {e : Event (Tid n m) (Choice fn arg)} {flags : Flags}
      {mem : PoolMem n fn arg}
      {threads : Threads (Tid n m) Mutex Cond (Loc n m fn arg)} :
      Event.enabled s.pool e = true ->
      Fires thpoolCode (s.flags, s.pool.mem) s.pool.threads e (flags, mem)
        threads ->
      Moves s (.thread e)
        { flags := flags, pool := { s.pool with mem := mem, threads := threads } }
  | deliver {i : Fin n} :
      s.pool.mem.sigusr1 i = true -> s.pool.hold i = none ->
      (s.pool.worker i).live = true ->
      Moves s (.deliver i)
        { s with pool := { s.pool with
          mem := { s.pool.mem with
            sigusr1 := Function.update s.pool.mem.sigusr1 i false }
          hold := Function.update s.pool.hold i (some .set) } }
  | hold {i : Fin n} {l : HoldPc} :
      s.pool.hold i = some l ->
      Moves s (.hold i)
        { flags := (threadHold s.flags l).1
          pool := { s.pool with
            hold := Function.update s.pool.hold i (threadHold s.flags l).2 } }

theorem moves_of_step {s s' : Process n m fn arg} {a : Action n m fn arg}
    (h : step s a = some s') : Moves s a s' := by
  cases a with
  | thread e =>
      simp only [step] at h
      split at h
      · rename_i hrun
        rcases Option.map_eq_some_iff.mp h with ⟨⟨⟨flags, mem⟩, threads⟩, hm, rfl⟩
        exact Moves.thread hrun (fires_of_machineStep hm)
      · cases h
  | deliver i =>
      simp only [step] at h
      split at h
      · rename_i hpending
        cases h
        exact Moves.deliver hpending.1 hpending.2.1 hpending.2.2
      · cases h
  | hold i =>
      simp only [step] at h
      rcases Option.map_eq_some_iff.mp h with ⟨l, hl, rfl⟩
      exact Moves.hold hl

theorem run_of_moved {s s' : Process n m fn arg} {a : Action n m fn arg}
    (h : step s a = some s') {t : Tid n m}
    (hmoved : s'.pool.threads.loc t ≠ s.pool.threads.loc t) :
    exists c woken, a = .thread (.run t c woken) := by
  have hself : forall {u : Tid n m} {next : Loc n m fn arg u},
      Function.update s.pool.threads.loc u next t ≠ s.pool.threads.loc t ->
      u = t := by
    intro u next hne
    by_contra hut
    exact hne (Function.update_of_ne (Ne.symm hut) ..)
  cases moves_of_step h with
  | deliver | hold => exact (hmoved rfl).elim
  | thread _ hfire =>
      cases hfire with
      | spurious => exact (hmoved rfl).elim
      | lock | unlock | wait | act =>
          rw [hself hmoved]
          exact ⟨_, _, rfl⟩

end Thpool
end PracticeHand
