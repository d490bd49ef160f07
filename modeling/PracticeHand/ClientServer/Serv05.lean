import Mathlib.Data.List.FinRange
import Mathlib.Logic.Function.Basic
import PracticeHand.Concurrency.Counting
import PracticeHand.Concurrency.Runs

/-!
# The preforked server that passes descriptors

`serv05.c` and `child05.c`: the parent accepts a connection, passes its
descriptor to a child that it believes to be free, and learns from a byte on the
same stream pipe that the child is free again.

A stream pipe is two channels, the messages of `Write_fd` with one descriptor
each and the bytes of `Write`; both deliver in order.  `Select` reports the
descriptors that are readable and how many they are.  A child may die, which
closes its end of the pipe.  The model follows the server until the parent
exits.
-/

namespace PracticeHand
namespace Serv05

open Concurrency

/-- Descriptors that the wrapper `Accept` returns; it exits on an error. -/
abbrev Fd := Nat

structure Rset (n : Nat) where
  listenfd : Bool
  childPipefd : Fin n -> Bool
  deriving DecidableEq

inductive Quit (n : Nat) where
  | noAvailableChildren
  | terminatedUnexpectedly (i : Fin n)
  -- `Write_fd` to a child that has died
  | brokenPipe
  deriving DecidableEq

inductive ParentPc (n : Nat) where
  | prefork (i : Nat)
  | top
  | select (listenfd : Bool)
  | isset (rset : Rset n) (nsel : Int)
  | accept (rset : Rset n) (nsel : Int)
  | find (connfd : Fd) (rset : Rset n) (nsel : Int)
  | writeFd (i : Fin n) (connfd : Fd) (rset : Rset n) (nsel : Int)
  | scan (i : Nat) (rset : Rset n) (nsel : Int)
  | quit (why : Quit n)
  deriving DecidableEq

inductive ChildPc where
  | unborn
  | starting
  | readFd
  | webChild (connfd : Fd)
  | close (connfd : Fd)
  | write
  | dead
  deriving DecidableEq

structure Server (n : Nat) where
  navail : Int
  childStatus : Fin n -> Nat
  childCount : Fin n -> Nat
  parent : ParentPc n
  child : Fin n -> ChildPc
  -- descriptors on their way to a child
  passed : Fin n -> List Fd
  -- bytes on their way from a child
  ready : Fin n -> Nat
  -- connections that `accept` has not returned yet
  backlog : List Fd
  -- what has happened so far; no step reads these three
  accepted : List Fd
  handed : List (Fin n × Fd)
  received : List (Fin n × Fd)

inductive Action (n : Nat) where
  | connect (connfd : Fd)
  | parent
  | child (i : Fin n)
  | die (i : Fin n)

variable {n : Nat}

/-- How many descriptors are set; the value that `Select` returns. -/
def Rset.nsel (r : Rset n) : Int :=
  r.listenfd.toNat + countWhere id r.childPipefd

/-- A pipe is readable when a byte is there or the child has closed its end. -/
def Server.readable (s : Server n) (listenfd : Bool) : Rset n where
  listenfd := listenfd && !s.backlog.isEmpty
  childPipefd i := decide (0 < s.ready i ∨ s.child i = .dead)

def firstAvailable (childStatus : Fin n -> Nat) : Option (Fin n) :=
  (List.finRange n).find? (fun i => childStatus i = 0)

def parentStep (s : Server n) : Option (Server n) :=
  match s.parent with
  | .prefork i =>
      if h : i < n then
        some { s with
          child := Function.update s.child ⟨i, h⟩ .starting
          childStatus := Function.update s.childStatus ⟨i, h⟩ 0
          parent := .prefork (i + 1) }
      else some { s with parent := .top }
  | .top => some { s with parent := .select (decide (¬ s.navail ≤ 0)) }
  | .select listenfd =>
      let rset := s.readable listenfd
      if rset.nsel = 0 then none
      else some { s with parent := .isset rset rset.nsel }
  | .isset rset nsel =>
      if rset.listenfd then some { s with parent := .accept rset nsel }
      else some { s with parent := .scan 0 rset nsel }
  | .accept rset nsel =>
      match s.backlog with
      | [] => none
      | connfd :: rest =>
          some { s with
            backlog := rest
            accepted := s.accepted ++ [connfd]
            parent := .find connfd rset nsel }
  | .find connfd rset nsel =>
      match firstAvailable s.childStatus with
      | none => some { s with parent := .quit .noAvailableChildren }
      | some i =>
          some { s with
            childStatus := Function.update s.childStatus i 1
            childCount := Function.update s.childCount i (s.childCount i + 1)
            navail := s.navail - 1
            parent := .writeFd i connfd rset nsel }
  | .writeFd i connfd rset nsel =>
      if s.child i = .dead then some { s with parent := .quit .brokenPipe }
      else
        some { s with
          passed := Function.update s.passed i (s.passed i ++ [connfd])
          handed := s.handed ++ [(i, connfd)]
          parent := if nsel - 1 = 0 then .top else .scan 0 rset (nsel - 1) }
  | .scan i rset nsel =>
      if h : i < n then
        if rset.childPipefd ⟨i, h⟩ then
          if 0 < s.ready ⟨i, h⟩ then
            some { s with
              ready := Function.update s.ready ⟨i, h⟩ (s.ready ⟨i, h⟩ - 1)
              childStatus := Function.update s.childStatus ⟨i, h⟩ 0
              navail := s.navail + 1
              parent :=
                if nsel - 1 = 0 then .top else .scan (i + 1) rset (nsel - 1) }
          else if s.child ⟨i, h⟩ = .dead then
            some { s with parent := .quit (.terminatedUnexpectedly ⟨i, h⟩) }
          else none
        else some { s with parent := .scan (i + 1) rset nsel }
      else some { s with parent := .top }
  | .quit _ => none

def childStep (s : Server n) (i : Fin n) : Option (Server n) :=
  match s.child i with
  | .unborn => none
  | .starting => some { s with child := Function.update s.child i .readFd }
  | .readFd =>
      match s.passed i with
      | [] => none
      | connfd :: rest =>
          some { s with
            passed := Function.update s.passed i rest
            received := s.received ++ [(i, connfd)]
            child := Function.update s.child i (.webChild connfd) }
  | .webChild connfd =>
      some { s with child := Function.update s.child i (.close connfd) }
  | .close _ => some { s with child := Function.update s.child i .write }
  | .write =>
      some { s with
        ready := Function.update s.ready i (s.ready i + 1)
        child := Function.update s.child i .readFd }
  | .dead => none

def ParentPc.hasQuit : ParentPc n -> Bool
  | .quit _ => true
  | _ => false

def step (s : Server n) (a : Action n) : Option (Server n) :=
  if s.parent.hasQuit then none
  else
    match a with
    | .connect connfd => some { s with backlog := s.backlog ++ [connfd] }
    | .parent => parentStep s
    | .child i => childStep s i
    | .die i =>
        if s.child i = .unborn then none
        else some { s with child := Function.update s.child i .dead }

/-- The parent is about to prefork; `Calloc` has zeroed the `Child` records. -/
def Server.initial : Server n where
  navail := n
  childStatus := fun _ => 0
  childCount := fun _ => 0
  parent := .prefork 0
  child := fun _ => .unborn
  passed := fun _ => []
  ready := fun _ => 0
  backlog := []
  accepted := []
  handed := []
  received := []

def serv05 (n : Nat) : System (Server n) (Action n) where
  Init s := s = Server.initial
  step := step

def NoDeath (_s : Server n) : Action n -> Prop
  | .die _ => False
  | _ => True

instance (s : Server n) : DecidablePred (NoDeath s)
  | .connect _ | .parent | .child _ => inferInstanceAs (Decidable True)
  | .die _ => inferInstanceAs (Decidable False)

/-!
## What a step can do
-/

def ParentPc.onward (next : Nat) (rset : Rset n) (nsel : Int) : ParentPc n :=
  if nsel - 1 = 0 then .top else .scan next rset (nsel - 1)

inductive ParentMove (s : Server n) : ParentPc n -> Server n -> Prop where
  | prefork {i : Nat} (h : i < n) :
      ParentMove s (.prefork i) { s with
        child := Function.update s.child ⟨i, h⟩ .starting
        childStatus := Function.update s.childStatus ⟨i, h⟩ 0
        parent := .prefork (i + 1) }
  | preforked {i : Nat} : ¬ i < n ->
      ParentMove s (.prefork i) { s with parent := .top }
  | top :
      ParentMove s .top { s with parent := .select (decide (¬ s.navail ≤ 0)) }
  | select {listenfd : Bool} : (s.readable listenfd).nsel ≠ 0 ->
      ParentMove s (.select listenfd) { s with
        parent := .isset (s.readable listenfd) (s.readable listenfd).nsel }
  | listening {rset : Rset n} {nsel : Int} : rset.listenfd = true ->
      ParentMove s (.isset rset nsel) { s with parent := .accept rset nsel }
  | notListening {rset : Rset n} {nsel : Int} : rset.listenfd = false ->
      ParentMove s (.isset rset nsel) { s with parent := .scan 0 rset nsel }
  | accept {rset : Rset n} {nsel : Int} {connfd : Fd} {rest : List Fd} :
      s.backlog = connfd :: rest ->
      ParentMove s (.accept rset nsel) { s with
        backlog := rest
        accepted := s.accepted ++ [connfd]
        parent := .find connfd rset nsel }
  | noneFound {connfd : Fd} {rset : Rset n} {nsel : Int} :
      firstAvailable s.childStatus = none ->
      ParentMove s (.find connfd rset nsel)
        { s with parent := .quit .noAvailableChildren }
  | found {connfd : Fd} {rset : Rset n} {nsel : Int} {i : Fin n} :
      firstAvailable s.childStatus = some i ->
      ParentMove s (.find connfd rset nsel) { s with
        childStatus := Function.update s.childStatus i 1
        childCount := Function.update s.childCount i (s.childCount i + 1)
        navail := s.navail - 1
        parent := .writeFd i connfd rset nsel }
  | brokenPipe {i : Fin n} {connfd : Fd} {rset : Rset n} {nsel : Int} :
      s.child i = .dead ->
      ParentMove s (.writeFd i connfd rset nsel)
        { s with parent := .quit .brokenPipe }
  | writeFd {i : Fin n} {connfd : Fd} {rset : Rset n} {nsel : Int} :
      s.child i ≠ .dead ->
      ParentMove s (.writeFd i connfd rset nsel) { s with
        passed := Function.update s.passed i (s.passed i ++ [connfd])
        handed := s.handed ++ [(i, connfd)]
        parent := ParentPc.onward 0 rset nsel }
  | read {i : Nat} {rset : Rset n} {nsel : Int} (h : i < n) :
      rset.childPipefd ⟨i, h⟩ = true -> 0 < s.ready ⟨i, h⟩ ->
      ParentMove s (.scan i rset nsel) { s with
        ready := Function.update s.ready ⟨i, h⟩ (s.ready ⟨i, h⟩ - 1)
        childStatus := Function.update s.childStatus ⟨i, h⟩ 0
        navail := s.navail + 1
        parent := ParentPc.onward (i + 1) rset nsel }
  | readEof {i : Nat} {rset : Rset n} {nsel : Int} (h : i < n) :
      rset.childPipefd ⟨i, h⟩ = true -> s.child ⟨i, h⟩ = .dead ->
      ParentMove s (.scan i rset nsel)
        { s with parent := .quit (.terminatedUnexpectedly ⟨i, h⟩) }
  | skip {i : Nat} {rset : Rset n} {nsel : Int} (h : i < n) :
      rset.childPipefd ⟨i, h⟩ = false ->
      ParentMove s (.scan i rset nsel) { s with parent := .scan (i + 1) rset nsel }
  | scanned {i : Nat} {rset : Rset n} {nsel : Int} : ¬ i < n ->
      ParentMove s (.scan i rset nsel) { s with parent := .top }

inductive ChildMove (s : Server n) (i : Fin n) : ChildPc -> Server n -> Prop where
  | started :
      ChildMove s i .starting { s with child := Function.update s.child i .readFd }
  | readFd {connfd : Fd} {rest : List Fd} : s.passed i = connfd :: rest ->
      ChildMove s i .readFd { s with
        passed := Function.update s.passed i rest
        received := s.received ++ [(i, connfd)]
        child := Function.update s.child i (.webChild connfd) }
  | webChild {connfd : Fd} :
      ChildMove s i (.webChild connfd)
        { s with child := Function.update s.child i (.close connfd) }
  | close {connfd : Fd} :
      ChildMove s i (.close connfd)
        { s with child := Function.update s.child i .write }
  | write :
      ChildMove s i .write { s with
        ready := Function.update s.ready i (s.ready i + 1)
        child := Function.update s.child i .readFd }

theorem parentMove_of_step {s s' : Server n} (h : parentStep s = some s') :
    ParentMove s s.parent s' := by
  unfold parentStep at h
  cases hparent : s.parent with
  | prefork i =>
      simp only [hparent] at h
      split at h
      · rename_i hi
        cases h
        exact ParentMove.prefork hi
      · rename_i hi
        cases h
        exact ParentMove.preforked hi
  | top =>
      simp only [hparent] at h
      cases h
      exact ParentMove.top
  | select listenfd =>
      simp only [hparent] at h
      split at h
      · cases h
      · rename_i hsome
        cases h
        exact ParentMove.select hsome
  | isset rset nsel =>
      simp only [hparent] at h
      split at h
      · rename_i hlisten
        cases h
        exact ParentMove.listening hlisten
      · rename_i hlisten
        cases h
        exact ParentMove.notListening (by simpa using hlisten)
  | accept rset nsel =>
      simp only [hparent] at h
      split at h
      · cases h
      · rename_i hbacklog
        cases h
        exact ParentMove.accept hbacklog
  | find connfd rset nsel =>
      simp only [hparent] at h
      split at h
      · rename_i hnone
        cases h
        exact ParentMove.noneFound hnone
      · rename_i hsome
        cases h
        exact ParentMove.found hsome
  | writeFd i connfd rset nsel =>
      simp only [hparent] at h
      split at h
      · rename_i hdead
        cases h
        exact ParentMove.brokenPipe hdead
      · rename_i halive
        cases h
        exact ParentMove.writeFd halive
  | scan i rset nsel =>
      simp only [hparent] at h
      split at h
      · rename_i hi
        split at h
        · rename_i hset
          split at h
          · rename_i hready
            cases h
            exact ParentMove.read hi hset hready
          · split at h
            · rename_i hdead
              cases h
              exact ParentMove.readEof hi hset hdead
            · cases h
        · rename_i hclear
          cases h
          exact ParentMove.skip hi (by simpa using hclear)
      · rename_i hi
        cases h
        exact ParentMove.scanned hi
  | quit why =>
      simp only [hparent] at h
      cases h

theorem childMove_of_step {s s' : Server n} {i : Fin n}
    (h : childStep s i = some s') : ChildMove s i (s.child i) s' := by
  unfold childStep at h
  cases hchild : s.child i with
  | unborn | dead =>
      simp only [hchild] at h
      cases h
  | readFd =>
      simp only [hchild] at h
      split at h
      · cases h
      · rename_i hpassed
        cases h
        exact ChildMove.readFd hpassed
  | starting | webChild | close | write =>
      simp only [hchild] at h
      cases h
      constructor

end Serv05
end PracticeHand
