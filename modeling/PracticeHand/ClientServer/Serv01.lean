import Mathlib.Data.List.Basic
import PracticeHand.Concurrency.Runs

/-!
# The server that forks for every connection

`serv01.c` with the handler of `sig_chld_waitpid.c`.  A child that has terminated
stays a zombie until the parent waits for it, and the parent waits only in
`sig_chld`.  One SIGCHLD at most is pending, however many children have terminated,
and none is delivered while the handler runs, so the handler must wait until nobody
is left.

The model starts where the handlers have been installed and no child has been
forked.  A child is its process identifier; what it does in `web_child` is not
modelled.
-/

namespace PracticeHand
namespace Serv01

open Concurrency

abbrev Pid := Nat

abbrev Fd := Nat

inductive Errno where
  | eintr
  | echild
  | other
  deriving DecidableEq

/-- Locations of `main`; `failed` is the test of `errno` after `accept`. -/
inductive MainPc where
  | accept
  | failed
  | fork (connfd : Fd)
  | close (connfd : Fd)
  | exited
  deriving DecidableEq

inductive HandlerPc where
  | waitpid
  | return
  deriving DecidableEq

structure Server where
  main : MainPc := .accept
  errno : Errno := .other
  -- `sig_chld` interrupts `main`, which goes on when it has returned
  handler : Option HandlerPc := none
  pending : Bool := false
  running : List Pid := []
  terminated : List Pid := []
  deriving DecidableEq

inductive Outcome where
  | accepted (connfd : Fd)
  | acceptError (errno : Errno)
  | forked (pid : Pid)
  | forkError
  | go

inductive Action where
  | main (outcome : Outcome)
  | deliver
  -- `sig_chld` goes on; the child that `waitpid` finds if there are some
  | handler (found : Pid)
  -- a child returns from `web_child`, quits or is killed
  | terminate (pid : Pid)
  -- SIGCHLD for another reason: a child has been stopped, or `kill`
  | raise
  -- SIGINT: `sig_int` exits
  | interrupt

/-- The children of a process that has exited are no longer its own. -/
def Server.exit (s : Server) : Server :=
  { s with main := .exited, handler := none, pending := false, running := [], terminated := [] }

def mainStep (s : Server) (outcome : Outcome) : Option Server :=
  match s.main, outcome with
  | .accept, .accepted connfd => some { s with main := .fork connfd }
  | .accept, .acceptError errno => some { s with main := .failed, errno := errno }
  | .failed, .go =>
      if s.errno = .eintr then some { s with main := .accept } else some s.exit
  | .fork connfd, .forked pid =>
      if 0 < pid ∧ pid ∉ s.running ∧ pid ∉ s.terminated then
        some { s with main := .close connfd, running := s.running ++ [pid] }
      else none
  | .fork _, .forkError => some s.exit
  | .close _, .go => some { s with main := .accept }
  | _, _ => none

/-- `waitpid(-1, &stat, WNOHANG)`: the result and the server afterwards. -/
def waitpid (s : Server) (found : Pid) : Option (Int × Server) :=
  if s.terminated = [] then
    if s.running = [] then some (-1, { s with errno := .echild })
    else some (0, s)
  else if found ∈ s.terminated then
    some (found, { s with terminated := s.terminated.erase found })
  else none

def handlerStep (s : Server) (found : Pid) : Option Server :=
  match s.handler with
  | none => none
  | some .waitpid =>
      (waitpid s found).map (fun w =>
        if 0 < w.1 then w.2 else { w.2 with handler := some .return })
  | some .return => some { s with handler := none }

def step (s : Server) (a : Action) : Option Server :=
  if s.main = .exited then none
  else
    match a with
    | .main outcome => if s.handler = none then mainStep s outcome else none
    | .deliver =>
        -- SIGCHLD is blocked while its handler runs
        if s.pending = true ∧ s.handler = none then
          some { s with pending := false, handler := some .waitpid }
        else none
    | .handler found => handlerStep s found
    | .terminate pid =>
        if pid ∈ s.running then
          some { s with
            running := s.running.erase pid
            terminated := s.terminated ++ [pid]
            pending := true }
        else none
    | .raise => some { s with pending := true }
    | .interrupt => some s.exit

def serv01 : System Server Action where
  Init s := s = {}
  step := step

/-!
## What a step can do
-/

inductive Moves (s : Server) : Server -> Prop where
  /-- `main` goes on and forks nobody. -/
  | main {next : MainPc} {errno : Errno} : s.handler = none ->
      Moves s { s with main := next, errno := errno }
  | forks {connfd : Fd} {pid : Pid} : s.handler = none -> 0 < pid ->
      Moves s { s with main := .close connfd, running := s.running ++ [pid] }
  | exits : Moves s s.exit
  | delivers : s.pending = true -> s.handler = none ->
      Moves s { s with pending := false, handler := some .waitpid }
  | reaps {pid : Pid} : s.handler = some .waitpid -> pid ∈ s.terminated -> 0 < pid ->
      Moves s { s with terminated := s.terminated.erase pid }
  /-- The loop of `sig_chld` would end on an identifier that is not positive. -/
  | stops {pid : Pid} : s.handler = some .waitpid -> pid ∈ s.terminated -> ¬ 0 < pid ->
      Moves s { s with terminated := s.terminated.erase pid, handler := some .return }
  /-- `waitpid` finds nobody. -/
  | leaves {errno : Errno} : s.handler = some .waitpid -> s.terminated = [] ->
      Moves s { s with errno := errno, handler := some .return }
  | returns : s.handler = some .return -> Moves s { s with handler := none }
  | terminates {pid : Pid} : pid ∈ s.running ->
      Moves s { s with
        running := s.running.erase pid
        terminated := s.terminated ++ [pid]
        pending := true }
  | raises : Moves s { s with pending := true }

theorem moves_of_mainStep {s s' : Server} {outcome : Outcome} (hhandler : s.handler = none)
    (h : mainStep s outcome = some s') : Moves s s' := by
  unfold mainStep at h
  split at h
  · cases h
    exact .main hhandler
  · cases h
    exact .main hhandler
  · split at h
    · cases h
      exact .main hhandler
    · cases h
      exact .exits
  · split at h
    · rename_i hfresh
      cases h
      exact .forks hhandler hfresh.1
    · cases h
  · cases h
    exact .exits
  · cases h
    exact .main hhandler
  · cases h

theorem moves_of_handlerStep {s s' : Server} {found : Pid}
    (h : handlerStep s found = some s') : Moves s s' := by
  unfold handlerStep at h
  split at h
  · cases h
  · rename_i hhandler
    rcases Option.map_eq_some_iff.mp h with ⟨w, hw, rfl⟩
    unfold waitpid at hw
    split at hw
    · rename_i hnone
      split at hw
      · cases hw
        exact .leaves hhandler hnone
      · cases hw
        exact .leaves hhandler hnone
    · split at hw
      · rename_i hfound
        cases hw
        dsimp only
        split
        · rename_i hpos
          exact .reaps hhandler hfound (Int.natCast_pos.mp hpos)
        · rename_i hpos
          exact .stops hhandler hfound (mt Int.natCast_pos.mpr hpos)
      · cases hw
  · rename_i hhandler
    cases h
    exact .returns hhandler

theorem moves_of_step {s s' : Server} {a : Action} (h : step s a = some s') : Moves s s' := by
  unfold step at h
  split at h
  · cases h
  · split at h
    · split at h
      · rename_i hhandler
        exact moves_of_mainStep hhandler h
      · cases h
    · split at h
      · rename_i hready
        cases h
        exact .delivers hready.1 hready.2
      · cases h
    · exact moves_of_handlerStep h
    · split at h
      · rename_i hrunning
        cases h
        exact .terminates hrunning
      · cases h
    · cases h
      exact .raises
    · cases h
      exact .exits

/-!
## No zombie is overlooked
-/

structure ReapInv (s : Server) : Prop where
  positive : forall pid, pid ∈ s.running ∨ pid ∈ s.terminated -> 0 < pid
  -- a zombie has raised SIGCHLD, or the loop of the handler is still to find it
  noticed : s.terminated ≠ [] -> s.pending = true ∨ s.handler = some .waitpid

theorem reapInv_initial : ReapInv {} where
  positive := by
    intro pid hpid
    rcases hpid with hpid | hpid <;> cases hpid
  noticed := fun h => (h rfl).elim

theorem reapInv_step {s s' : Server} {a : Action} (h : ReapInv s)
    (hstep : step s a = some s') : ReapInv s' := by
  cases moves_of_step hstep with
  | main _ => exact ⟨h.positive, h.noticed⟩
  | forks _ hpos =>
      refine ⟨?_, h.noticed⟩
      intro pid hpid
      rcases hpid with hrunning | hterminated
      · rcases List.mem_append.mp hrunning with hold | hnew
        · exact h.positive pid (Or.inl hold)
        · rw [List.mem_singleton.mp hnew]
          exact hpos
      · exact h.positive pid (Or.inr hterminated)
  | exits =>
      refine ⟨?_, fun hsome => (hsome rfl).elim⟩
      intro pid hpid
      rcases hpid with hpid | hpid <;> cases hpid
  | delivers _ _ => exact ⟨h.positive, fun _ => Or.inr rfl⟩
  | reaps hhandler _ _ =>
      refine ⟨?_, fun _ => Or.inr hhandler⟩
      intro pid hpid
      rcases hpid with hrunning | hterminated
      · exact h.positive pid (Or.inl hrunning)
      · exact h.positive pid (Or.inr (List.mem_of_mem_erase hterminated))
  | stops _ hfound hnot => exact (hnot (h.positive _ (Or.inr hfound))).elim
  | leaves _ hnone => exact ⟨h.positive, fun hsome => (hsome hnone).elim⟩
  | returns hhandler =>
      refine ⟨h.positive, fun hsome => ?_⟩
      rcases h.noticed hsome with hpending | hwaiting
      · exact Or.inl hpending
      · rw [hhandler] at hwaiting
        cases hwaiting
  | terminates hrunning =>
      refine ⟨?_, fun _ => Or.inl rfl⟩
      intro pid hpid
      rcases hpid with hleft | hterminated
      · exact h.positive pid (Or.inl (List.mem_of_mem_erase hleft))
      · rcases List.mem_append.mp hterminated with hold | hnew
        · exact h.positive pid (Or.inr hold)
        · rw [List.mem_singleton.mp hnew]
          exact h.positive _ (Or.inl hrunning)
  | raises => exact ⟨h.positive, fun _ => Or.inl rfl⟩

/-- When SIGCHLD is not pending and its handler is not running, every child that has
terminated has been waited for. -/
theorem serv01_no_zombie {s : Server} (hreach : serv01.Reachable s)
    (hpending : s.pending = false) (hhandler : s.handler = none) : s.terminated = [] := by
  have hinv : ReapInv s := by
    apply System.ReachableUnder.invariant _ _ hreach
    · intro s hs
      rw [hs]
      exact reapInv_initial
    · intro s s' a hs _ hstep
      exact reapInv_step hs hstep
  by_contra hsome
  rcases hinv.noticed hsome with hraised | hwaiting
  · rw [hpending] at hraised
    cases hraised
  · rw [hhandler] at hwaiting
    cases hwaiting

/-- Two children terminate before SIGCHLD is delivered, and a third one after the last
`waitpid` of the handler. -/
def threeChildren : List Action :=
  [.main (.accepted 4), .main (.forked 11), .main .go,
    .main (.accepted 4), .main (.forked 12), .main .go,
    .main (.accepted 4), .main (.forked 13), .main .go,
    .terminate 11, .terminate 12, .deliver, .handler 12, .handler 11, .handler 0,
    .terminate 13, .handler 0, .deliver, .handler 13, .handler 0, .handler 0]

theorem serv01_no_zombie_of_three :
    exists s, serv01.Reachable s ∧ s.pending = false ∧ s.handler = none ∧
      s.terminated = [] := by
  have hrun : exists s, serv01.Reachable s ∧ (s.pending = false ∧ s.handler = none) :=
    System.reachable_of_exec (s := ({} : Server)) threeChildren rfl (by decide)
  rcases hrun with ⟨s, hreach, hpending, hhandler⟩
  exact ⟨s, hreach, hpending, hhandler, serv01_no_zombie hreach hpending hhandler⟩

end Serv01
end PracticeHand
