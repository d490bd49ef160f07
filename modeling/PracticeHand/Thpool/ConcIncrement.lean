import PracticeHand.Thpool.PlainUse

/-!
# The test program conc_increment

`tests/src/conc_increment.c` adds `num_jobs` jobs, each of which increments `sum` under
a mutex of the program, waits for the pool and prints `sum`.  The program runs around a
pool: a worker that has called the job function executes `increment` before the function
returns, and the main thread, which is the only client of the pool, makes the calls of
`main`.  It does not look at what `thpool_add_work` returns.

`num_jobs` is an `int`, so `sum` does not overflow.
-/

namespace PracticeHand
namespace ConcIncrement

open Concurrency
open Thpool

inductive Function where
  | increment
  deriving DecidableEq

abbrev Arg := Option Ptr

/-- Locations of `increment`; `sum ++` reads and writes. -/
inductive IncrementPc where
  | lock
  | load
  | store (sum : Int)
  | unlock
  | ret
  deriving DecidableEq

inductive MainPc where
  -- at the test of the loop, or in the call that it has made
  | loop (k : Nat)
  | wait
  | exited
  deriving DecidableEq

structure Program (n : Nat) where
  process : Process n 1 Function Arg
  main : MainPc
  body : Fin n -> IncrementPc
  mutex : Option (Fin n)
  sum : Int
  printed : Option Int
  -- calls of `thpool_add_work` that returned -1; no step reads it
  refused : Nat

inductive Action (n : Nat) where
  | pool (a : Thpool.Action n 1 Function Arg)
  | increment (i : Fin n)
  | print

variable {n : Nat}

def mainCall (jobs : Nat) (s : Program n) : Choice Function Arg -> Option (Program n)
  | .addWork .increment none addr =>
      match s.main with
      | .loop k =>
          if k < jobs then
            some { s with
              main := .loop (k + 1)
              refused := if addr = none then s.refused + 1 else s.refused }
          else none
      | _ => none
  | .wait =>
      match s.main with
      | .loop k => if k < jobs then none else some { s with main := .wait }
      | _ => none
  | _ => none

def bodyReturns (s : Program n) (i : Fin n) : Choice Function Arg -> Option (Program n)
  | .ret =>
      if s.body i = .ret then some { s with body := Function.update s.body i .lock }
      else none
  | _ => none

/-- The part that the program has in a step of the pool; the owner of the pool does
nothing more, since `main` does not destroy the pool. -/
def takePart (jobs : Nat) (s : Program n) : Thpool.Action n 1 Function Arg -> Option (Program n)
  | .thread (.run (.client j) c _) =>
      if s.process.pool.client j = .user then mainCall jobs s c else some s
  | .thread (.run (.worker i) c _) =>
      if (s.process.pool.worker i).inJob = true then bodyReturns s i c else some s
  | .thread (.run .owner _ _) => if s.process.pool.owner = .ready then none else some s
  | _ => some s

def poolStep (jobs : Nat) (s : Program n) (a : Thpool.Action n 1 Function Arg) :
    Option (Program n) :=
  (takePart jobs s a).bind fun t =>
    (Thpool.step s.process a).map fun process => { t with process := process }

def increment (s : Program n) (i : Fin n) : Option (Program n) :=
  match s.body i with
  | .lock =>
      if s.mutex = none then
        some { s with mutex := some i, body := Function.update s.body i .load }
      else none
  | .load => some { s with body := Function.update s.body i (.store s.sum) }
  | .store sum =>
      some { s with sum := sum + 1, body := Function.update s.body i .unlock }
  | .unlock => some { s with mutex := none, body := Function.update s.body i .ret }
  | .ret => none

def step (jobs : Nat) (s : Program n) (a : Action n) : Option (Program n) :=
  if s.main = .exited then none
  else
    match a with
    | .pool a => poolStep jobs s a
    | .increment i =>
        if (s.process.pool.worker i).inJob = true ∧ s.process.pool.hold i = none then
          increment s i
        else none
    | .print =>
        -- `thpool_wait` has returned
        if s.main = .wait ∧ s.process.pool.client soleClient = .user then
          some { s with main := .exited, printed := some s.sum }
        else none

def start (n : Nat) : Program n where
  process := Process.initial
  main := .loop 0
  body _ := .lock
  mutex := none
  sum := 0
  printed := none
  refused := 0

def concIncrement (n jobs : Nat) : System (Program n) (Action n) where
  Init s := s = start n
  step := step jobs

/-!
## What a step of the program can do
-/

inductive MainMove (jobs : Nat) (s : Program n) : Choice Function Arg -> Program n -> Prop where
  | add {k : Nat} {addr : Option Ptr} : s.main = .loop k -> k < jobs ->
      MainMove jobs s (.addWork .increment none addr) { s with
        main := .loop (k + 1)
        refused := if addr = none then s.refused + 1 else s.refused }
  | wait {k : Nat} : s.main = .loop k -> jobs ≤ k ->
      MainMove jobs s .wait { s with main := .wait }

theorem mainMove_of_mainCall {jobs : Nat} {s t : Program n} {c : Choice Function Arg}
    (h : mainCall jobs s c = some t) : MainMove jobs s c t := by
  cases c with
  | addWork function arg addr =>
      cases function
      cases arg with
      | some p => cases h
      | none =>
          simp only [mainCall] at h
          split at h
          · rename_i k hmain
            split at h
            · rename_i hk
              cases h
              exact .add hmain hk
            · cases h
          · cases h
  | wait =>
      simp only [mainCall] at h
      split at h
      · rename_i k hmain
        split at h
        · cases h
        · rename_i hk
          cases h
          exact .wait hmain (Nat.le_of_not_lt hk)
      · cases h
  | _ => cases h

/-- The steps of the pool by the part that the program has in them. -/
inductive Part (jobs : Nat) (s : Program n) : Thpool.Action n 1 Function Arg -> Program n -> Prop where
  | main {j : Fin 1} {c : Choice Function Arg} {woken : Option (Tid n 1)} {t : Program n} :
      s.process.pool.client j = .user -> MainMove jobs s c t ->
      Part jobs s (.thread (.run (.client j) c woken)) t
  | ret {i : Fin n} {woken : Option (Tid n 1)} :
      (s.process.pool.worker i).inJob = true -> s.body i = .ret ->
      Part jobs s (.thread (.run (.worker i) .ret woken))
        { s with body := Function.update s.body i .lock }
  | none {a : Thpool.Action n 1 Function Arg} :
      (forall j c woken, a = .thread (.run (.client j) c woken) ->
        s.process.pool.client j ≠ .user) ->
      (forall i c woken, a = .thread (.run (.worker i) c woken) ->
        (s.process.pool.worker i).inJob = false) ->
      (forall c woken, a = .thread (.run .owner c woken) -> s.process.pool.owner ≠ .ready) ->
      Part jobs s a s

theorem part_of_takePart {jobs : Nat} {s t : Program n} {a : Thpool.Action n 1 Function Arg}
    (h : takePart jobs s a = some t) : Part jobs s a t := by
  cases a with
  | deliver | hold =>
      cases h
      exact .none nofun nofun nofun
  | thread e =>
      cases e with
      | spurious =>
          cases h
          exact .none nofun nofun nofun
      | run u c woken =>
          cases u with
          | client j =>
              simp only [takePart] at h
              split at h
              · rename_i huser
                exact .main huser (mainMove_of_mainCall h)
              · rename_i huser
                cases h
                refine .none ?_ nofun nofun
                intro j' c' woken' heq
                cases heq
                exact huser
          | worker i =>
              simp only [takePart] at h
              split at h
              · rename_i hinside
                cases c with
                | ret =>
                    simp only [bodyReturns] at h
                    split at h
                    · rename_i hret
                      cases h
                      exact .ret hinside hret
                    · cases h
                | _ => cases h
              · rename_i hinside
                cases h
                refine .none nofun ?_ nofun
                intro i' c' woken' heq
                cases heq
                exact Bool.eq_false_iff.mpr hinside
          | owner =>
              simp only [takePart] at h
              split at h
              · cases h
              · rename_i hready
                cases h
                exact .none nofun nofun (fun _ _ _ => hready)

end ConcIncrement
end PracticeHand
