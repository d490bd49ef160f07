import Mathlib.Data.Fintype.Sum
import Mathlib.Tactic.DeriveFintype
import PracticeHand.Concurrency.Discipline
import PracticeHand.Concurrency.RingBuffer
import PracticeHand.Concurrency.Runs

/-!
# The prethreaded server with a queue of descriptors

`serv08.c` and `pthread08.c`: the main thread accepts connections and puts their
descriptors into the array `clifd`, from which a fixed number of threads take
them.  One mutex and one condition variable guard the array and its indices.
-/

namespace PracticeHand
namespace Serv08

open Concurrency

def maxncli : Nat := 32

/-- Descriptors that the wrapper `Accept` returns; it exits on an error. -/
abbrev Fd := Nat

structure Shared (n : Nat) where
  -- `clifd`, `iget` and `iput`
  clifd : RingBuffer Fd := { cells := fun _ => 0, iget := 0, iput := 0 }
  threadCount : Fin n -> Nat := fun _ => 0
  made : Nat := 0
  -- what has happened so far; no instruction reads these two
  accepted : List Fd := []
  taken : List (Fin n × Fd) := []

inductive Mutex where
  | clifdMutex
  deriving DecidableEq

inductive Cond where
  | clifdCond
  deriving DecidableEq

inductive Tid (n : Nat) where
  | main
  | worker (i : Fin n)
  deriving DecidableEq, Fintype

inductive MainPc where
  | make
  | accept
  | lock (connfd : Fd)
  | put (connfd : Fd)
  | check
  | signal
  | unlock
  | quit
  | exited
  deriving DecidableEq

inductive ThreadPc where
  | start
  | lock
  | test
  | sleep
  | relock
  | take
  | unlock (connfd : Fd)
  | count (connfd : Fd)
  | webChild (connfd : Fd)
  | close (connfd : Fd)
  deriving DecidableEq

section Code

variable {n : Nat}

/-- Instructions of the server; the one choice is what `Accept` returns. -/
abbrev Code (n : Nat) (loc : Type) :=
  Instr Mutex Cond (Shared n) Fd loc

def mainCode : MainPc -> Code n MainPc
  | .make =>
      .act fun s _ =>
        if s.made < n then some ({ s with made := s.made + 1 }, .make, .nobody)
        else some (s, .accept, .nobody)
  | .accept =>
      .act fun s connfd =>
        some ({ s with accepted := s.accepted ++ [connfd] }, .lock connfd, .nobody)
  | .lock connfd => .lock .clifdMutex (.put connfd)
  | .put connfd =>
      .store (fun s => { s with clifd := s.clifd.put maxncli connfd }) .check
  | .check => .test (fun s => s.clifd.iput = s.clifd.iget) .quit .signal
  | .signal => .act fun s _ => some (s, .unlock, .signal .clifdCond)
  | .unlock => .unlock .clifdMutex .accept
  | .quit => .store id .exited
  | .exited => .halt

def threadMain (i : Fin n) : ThreadPc -> Code n ThreadPc
  | .start => .act fun s _ => if i < s.made then some (s, .lock, .nobody) else none
  | .lock => .lock .clifdMutex .test
  | .test => .test (fun s => s.clifd.iget = s.clifd.iput) .sleep .take
  | .sleep => .wait .clifdCond .clifdMutex .relock
  | .relock => .lock .clifdMutex .test
  | .take =>
      .act fun s _ =>
        let connfd := s.clifd.cells s.clifd.iget
        some ({ s with
          clifd := s.clifd.take maxncli
          taken := s.taken ++ [(i, connfd)] }, .unlock connfd, .nobody)
  | .unlock connfd => .unlock .clifdMutex (.count connfd)
  | .count connfd =>
      .store (fun s => { s with
        threadCount := Function.update s.threadCount i (s.threadCount i + 1) })
        (.webChild connfd)
  | .webChild connfd => .store id (.close connfd)
  | .close _ => .store id .lock

def Loc (n : Nat) : Tid n -> Type
  | .main => MainPc
  | .worker _ => ThreadPc

def serv08Code : Program (Tid n) Mutex Cond (Shared n) Fd (Loc n)
  | .main => mainCode
  | .worker i => threadMain i

end Code

structure Server (n : Nat) where
  mem : Shared n
  threads : Threads (Tid n) Mutex Cond (Loc n)

variable {n : Nat}

namespace Server

def main (s : Server n) : MainPc :=
  s.threads.loc .main

def worker (s : Server n) (i : Fin n) : ThreadPc :=
  s.threads.loc (.worker i)

def initial : Server n where
  mem := {}
  threads :=
    { owner := fun _ => none
      loc := fun
        | .main => .make
        | .worker _ => .start
      asleep := fun _ => none }

end Server

/-- No thread moves once the process has exited. -/
def step (s : Server n) (e : Event (Tid n) Fd) : Option (Server n) :=
  if s.main = .exited then none
  else (machineStep serv08Code s.mem s.threads e).map fun r =>
    { mem := r.1, threads := r.2 }

def serv08 (n : Nat) : System (Server n) (Event (Tid n) Fd) where
  Init s := s = Server.initial
  step := step

/-!
## What an instruction on the memory can do
-/

inductive MainMove (s : Shared n) :
    MainPc -> Shared n -> MainPc -> Wake Cond -> Prop where
  | made : s.made < n ->
      MainMove s .make { s with made := s.made + 1 } .make .nobody
  | allMade : ¬ s.made < n -> MainMove s .make s .accept .nobody
  | accept (connfd : Fd) :
      MainMove s .accept { s with accepted := s.accepted ++ [connfd] }
        (.lock connfd) .nobody
  | put (connfd : Fd) :
      MainMove s (.put connfd)
        { s with clifd := s.clifd.put maxncli connfd } .check .nobody
  | full : s.clifd.iput = s.clifd.iget -> MainMove s .check s .quit .nobody
  | notFull : s.clifd.iput ≠ s.clifd.iget -> MainMove s .check s .signal .nobody
  | signal : MainMove s .signal s .unlock (.signal .clifdCond)
  | exit : MainMove s .quit s .exited .nobody

inductive ThreadMove (i : Fin n) (s : Shared n) :
    ThreadPc -> Shared n -> ThreadPc -> Prop where
  | start : i < s.made -> ThreadMove i s .start s .lock
  | empty : s.clifd.iget = s.clifd.iput -> ThreadMove i s .test s .sleep
  | some : s.clifd.iget ≠ s.clifd.iput -> ThreadMove i s .test s .take
  | take :
      ThreadMove i s .take
        { s with
          clifd := s.clifd.take maxncli
          taken := s.taken ++ [(i, s.clifd.cells s.clifd.iget)] }
        (.unlock (s.clifd.cells s.clifd.iget))
  | count (connfd : Fd) :
      ThreadMove i s (.count connfd)
        { s with
          threadCount := Function.update s.threadCount i (s.threadCount i + 1) }
        (.webChild connfd)
  | webChild (connfd : Fd) : ThreadMove i s (.webChild connfd) s (.close connfd)
  | close (connfd : Fd) : ThreadMove i s (.close connfd) s .lock

theorem mainMove_of_acts {s s' : Shared n} {l l' : MainPc} {c : Fd}
    {w : Wake Cond} (h : (mainCode l).Acts s c s' l' w) :
    MainMove s l s' l' w := by
  cases l with
  | make =>
      simp only [mainCode, Instr.acts_act] at h
      split at h
      · rename_i hlt
        cases h
        exact MainMove.made hlt
      · rename_i hall
        cases h
        exact MainMove.allMade hall
  | accept | signal =>
      simp only [mainCode, Instr.acts_act] at h
      cases h
      constructor
  | lock | unlock => exact h.elim
  | put connfd =>
      simp only [mainCode, Instr.acts_store] at h
      rcases h with ⟨rfl, rfl, rfl⟩
      exact MainMove.put connfd
  | check =>
      simp only [mainCode, Instr.acts_test, decide_eq_true_eq] at h
      rcases h with ⟨rfl, rfl, rfl⟩
      split
      · rename_i hfull
        exact MainMove.full hfull
      · rename_i hroom
        exact MainMove.notFull hroom
  | quit =>
      simp only [mainCode, Instr.acts_store] at h
      rcases h with ⟨rfl, rfl, rfl⟩
      exact MainMove.exit
  | exited => simp [mainCode] at h

theorem threadMove_of_acts {i : Fin n} {s s' : Shared n} {l l' : ThreadPc}
    {c : Fd} {w : Wake Cond} (h : (threadMain i l).Acts s c s' l' w) :
    ThreadMove i s l s' l' ∧ w = .nobody := by
  cases l with
  | start =>
      simp only [threadMain, Instr.acts_act] at h
      split at h
      · rename_i hlt
        cases h
        exact ⟨ThreadMove.start hlt, rfl⟩
      · cases h
  | lock | sleep | relock | unlock => exact h.elim
  | test =>
      simp only [threadMain, Instr.acts_test, decide_eq_true_eq] at h
      rcases h with ⟨rfl, rfl, rfl⟩
      refine ⟨?_, rfl⟩
      split
      · rename_i hempty
        exact ThreadMove.empty hempty
      · rename_i hsome
        exact ThreadMove.some hsome
  | take =>
      simp only [threadMain, Instr.acts_act] at h
      cases h
      exact ⟨ThreadMove.take, rfl⟩
  | count | webChild | close =>
      simp only [threadMain, Instr.acts_store] at h
      rcases h with ⟨rfl, rfl, rfl⟩
      exact ⟨by constructor, rfl⟩

theorem fires_of_step {s s' : Server n} {e : Event (Tid n) Fd}
    (h : step s e = some s') :
    Fires serv08Code s.mem s.threads e s'.mem s'.threads := by
  unfold step at h
  split at h
  · cases h
  · rw [Option.map_eq_some_iff] at h
    rcases h with ⟨⟨mem, threads⟩, hstep, rfl⟩
    exact fires_of_machineStep hstep

/-!
## Which locations hold the mutex
-/

def MainPc.Holds : MainPc -> Mutex -> Prop
  | .put _, _ | .check, _ | .signal, _ | .unlock, _ => True
  | .quit, _ | .exited, _ => True
  | _, _ => False

def ThreadPc.Holds : ThreadPc -> Mutex -> Prop
  | .test, _ | .sleep, _ | .take, _ | .unlock _, _ => True
  | _, _ => False

def Held : (t : Tid n) -> Loc n t -> Mutex -> Prop
  | .main, l => l.Holds
  | .worker _, l => l.Holds

theorem MainMove.holds {s s' : Shared n} {l l' : MainPc} {w : Wake Cond}
    (h : MainMove s l s' l' w) (x : Mutex) : l'.Holds x <-> l.Holds x := by
  cases h <;> rfl

theorem ThreadMove.holds {i : Fin n} {s s' : Shared n} {l l' : ThreadPc}
    (h : ThreadMove i s l s' l') (x : Mutex) : l'.Holds x <-> l.Holds x := by
  cases h <;> rfl

theorem mainCode_sync (l : MainPc) :
    Instr.SyncRespects MainPc.Holds l (mainCode l : Code n MainPc) := by
  cases l with
  | lock | unlock =>
      intro x
      cases x
      simp [MainPc.Holds]
  | _ => exact trivial

theorem threadMain_sync (i : Fin n) (l : ThreadPc) :
    Instr.SyncRespects ThreadPc.Holds l (threadMain i l) := by
  cases l with
  | lock | relock | sleep | unlock =>
      intro x
      cases x
      simp [ThreadPc.Holds]
  | _ => exact trivial

theorem serv08Code_respects (t : Tid n) (l : Loc n t) :
    (serv08Code t l).Respects (Held t) l := by
  cases t with
  | main =>
      apply Instr.respects_of_sync (mainCode_sync l)
      intro s c s' next w hacts
      exact (mainMove_of_acts hacts).holds
  | worker i =>
      apply Instr.respects_of_sync (threadMain_sync i l)
      intro s c s' next w hacts
      exact (threadMove_of_acts hacts).1.holds

end Serv08
end PracticeHand
