import Mathlib.Data.Finset.Card
import PracticeHand.ClientServer.Serv01
import PracticeHand.Concurrency.Progress

/-!
# How the preforked servers end

`sig_int` of `serv02.c` to `serv05.c`: the server terminates its children, waits until
there are none, and exits.  The process identifiers were noted when the children were
forked, perhaps long ago, and the system gives an identifier away again once the
process that had it has been waited for.

The model starts where the server listens and `pids` has been allocated.  Children can
end at any time; what they and the `select` loop of `serv05` do is not modelled.
-/

namespace PracticeHand
namespace SigInt

open Concurrency
open Serv01 (Pid Errno)

/-- The loop of `serv05` can end the server; the others only `pause`. -/
structure Loop where
  quits : Bool := false

def serv02 : Loop := {}
def serv02m : Loop := {}
def serv03 : Loop := {}
def serv03m : Loop := {}
def serv04 : Loop := {}
def serv05 : Loop := { quits := true }

/-- Locations of `main` and of `sig_int`, which does not return. -/
inductive Pc where
  | fork (i : Nat)
  | signal
  | loop
  | kill (i : Nat)
  | wait
  | failed
  | exited (status : Nat)
  | killed
  deriving DecidableEq

def Pc.ended : Pc -> Bool
  | .exited _ => true
  | .killed => true
  | _ => false

structure State where
  pc : Pc
  errno : Errno
  pids : List Pid
  -- children, those with SIGTERM on its way, and those that the server has to wait for
  running : Finset Pid
  signalled : Finset Pid
  zombies : Finset Pid
  others : Finset Pid
  deriving DecidableEq

def State.children (s : State) : Finset Pid :=
  s.running ∪ s.signalled ∪ s.zombies

def State.Free (server : Pid) (s : State) (pid : Pid) : Prop :=
  0 < pid ∧ pid ≠ server ∧ pid ∉ s.children ∧ pid ∉ s.others

instance (server : Pid) (s : State) (pid : Pid) : Decidable (s.Free server pid) :=
  inferInstanceAs (Decidable (_ ∧ _ ∧ _ ∧ _))

inductive Outcome where
  | forked (pid : Pid)
  -- `Fork` or `Socketpair` exits
  | forkError
  -- the child that `wait` finds if there are some
  | waited (pid : Pid)
  -- `err_quit` or `err_sys` in the loop
  | quit
  | go

inductive Action where
  | main (outcome : Outcome)
  | interrupt
  | kill
  | dies (pid : Pid)
  | spawn (pid : Pid)
  | gone (pid : Pid)

def State.leave (s : State) (pc : Pc) : State :=
  { s with pc := pc, zombies := ∅ }

/-- `kill(pid, SIGTERM)`; 0 stands for the process group of the server. -/
def State.kill (s : State) (server pid : Pid) : State :=
  if pid = 0 then
    { s.leave .killed with running := ∅, signalled := s.running ∪ s.signalled }
  else if pid = server then s.leave .killed
  else if pid ∈ s.running then
    { s with running := s.running.erase pid, signalled := insert pid s.signalled }
  else { s with others := s.others.erase pid }

def sigIntStep (n : Nat) (server : Pid) (s : State) (outcome : Outcome) : Option State :=
  match s.pc, outcome with
  | .kill i, .go =>
      if i < n then some ({ s with pc := .kill (i + 1) }.kill server (s.pids.getD i 0))
      else some { s with pc := .wait }
  | .wait, .waited pid =>
      if s.children = ∅ then some { s with pc := .failed, errno := .echild }
      else if pid ∈ s.zombies then some { s with zombies := s.zombies.erase pid }
      else none
  | .failed, .go => some (s.leave (.exited (if s.errno = .echild then 0 else 1)))
  | _, _ => none

def mainStep (loop : Loop) (n : Nat) (server : Pid) (s : State) (outcome : Outcome) :
    Option State :=
  match s.pc, outcome with
  | .fork i, .forked pid =>
      if i < n ∧ s.Free server pid then
        some { s with
          pc := .fork (i + 1)
          pids := s.pids.set i pid
          running := insert pid s.running }
      else none
  | .fork i, .forkError => if i < n then some (s.leave (.exited 1)) else none
  | .fork i, .go => if i < n then none else some { s with pc := .signal }
  | .signal, .go => some { s with pc := .loop }
  | .loop, .quit => if loop.quits then some (s.leave (.exited 1)) else none
  | _, _ => sigIntStep n server s outcome

/-- SIGINT kills the server until `sig_int` is installed, and is blocked inside it. -/
def interrupt (s : State) : Option State :=
  match s.pc with
  | .fork _ => some (s.leave .killed)
  | .signal => some (s.leave .killed)
  | .loop => some { s with pc := .kill 0 }
  | .kill _ => some s
  | .wait => some s
  | .failed => some s
  | .exited _ => none
  | .killed => none

def step (loop : Loop) (n : Nat) (server : Pid) (s : State) : Action -> Option State
  | .main outcome => mainStep loop n server s outcome
  | .interrupt => interrupt s
  | .kill => if s.pc.ended then none else some (s.leave .killed)
  | .dies pid =>
      if pid ∈ s.running ∪ s.signalled then
        some { s with
          running := s.running.erase pid
          signalled := s.signalled.erase pid
          zombies := if s.pc.ended then s.zombies else insert pid s.zombies }
      else none
  | .spawn pid => if s.Free server pid then some { s with others := insert pid s.others } else none
  | .gone pid =>
      if pid ∈ s.others then some { s with others := s.others.erase pid } else none

/-- `Calloc` fills `pids` with zeros. -/
def start (n : Nat) (others : Finset Pid) : State where
  pc := .fork 0
  errno := .other
  pids := List.replicate n 0
  running := ∅
  signalled := ∅
  zombies := ∅
  others := others

def prefork (loop : Loop) (n : Nat) (server : Pid) (others : Finset Pid) : System State Action where
  Init s := s = start n others
  step := step loop n server

variable {loop : Loop} {n : Nat} {server : Pid} {s t : State}

/-!
## The processes
-/

/-- A child is one thing at a time, and no other process has its identifier. -/
structure Apart (server : Pid) (s : State) : Prop where
  running : forall pid, pid ∈ s.running -> pid ∉ s.signalled ∧ pid ∉ s.zombies
  signalled : forall pid, pid ∈ s.signalled -> pid ∉ s.zombies
  child : forall pid, pid ∈ s.children -> 0 < pid ∧ pid ≠ server ∧ pid ∉ s.others

structure Noted (s : State) (k : Nat) : Prop where
  child : forall pid, pid ∈ s.children -> exists j, j < k ∧ s.pids[j]? = some pid
  entry : forall j, j < k -> exists pid, s.pids[j]? = some pid ∧ pid ∈ s.children

def Phase (n : Nat) (s : State) : Prop :=
  match s.pc with
  | .fork i => i ≤ n ∧ Noted s i
  | .signal => Noted s n
  | .loop => Noted s n
  | .kill i => i ≤ n ∧ Noted s n ∧
      forall j pid, j < i -> s.pids[j]? = some pid -> pid ∉ s.running
  | .wait => s.running = ∅
  | .failed => s.children = ∅ ∧ s.errno = .echild
  | .exited status => status = 0 -> s.children = ∅
  | .killed => True

structure PreforkInv (n : Nat) (server : Pid) (s : State) : Prop where
  length : s.pids.length = n
  few : s.children.card ≤ n
  apart : Apart server s
  phase : Phase n s

theorem mem_children {pid : Pid} :
    pid ∈ s.children <-> pid ∈ s.running ∨ pid ∈ s.signalled ∨ pid ∈ s.zombies := by
  unfold State.children
  rw [Finset.mem_union, Finset.mem_union, or_assoc]

theorem Noted.congr {k : Nat} (h : Noted s k) (hpids : t.pids = s.pids)
    (hchildren : t.children = s.children) : Noted t k where
  child := by
    rw [hpids, hchildren]
    exact h.child
  entry := by
    rw [hpids, hchildren]
    exact h.entry

theorem Noted.card_le {k : Nat} (h : Noted s k) : s.children.card ≤ s.pids.length := by
  have hsub : s.children ⊆ s.pids.toFinset := by
    intro pid hpid
    rcases h.child pid hpid with ⟨j, _, hj⟩
    exact List.mem_toFinset.mpr (List.mem_of_getElem? hj)
  exact Nat.le_trans (Finset.card_le_card hsub) s.pids.toFinset_card_le

theorem Noted.fork {i : Nat} {pid : Pid} (h : Noted s i) (hi : i < s.pids.length) :
    Noted { s with
      pc := .fork (i + 1)
      pids := s.pids.set i pid
      running := insert pid s.running } (i + 1) where
  child := by
    intro p hp
    by_cases hpid : p = pid
    · rw [hpid]
      exact ⟨i, Nat.lt_succ_self i, List.getElem?_set_self hi⟩
    · have hold : p ∈ s.children := by
        rw [mem_children] at hp ⊢
        rwa [Finset.mem_insert, or_iff_right hpid] at hp
      rcases h.child p hold with ⟨j, hj, hentry⟩
      refine ⟨j, Nat.lt_succ_of_lt hj, ?_⟩
      dsimp only
      rw [List.getElem?_set_ne (Nat.ne_of_gt hj), hentry]
  entry := by
    intro j hj
    rcases Nat.lt_succ_iff_lt_or_eq.mp hj with hlt | rfl
    · rcases h.entry j hlt with ⟨p, hentry, hp⟩
      refine ⟨p, ?_, ?_⟩
      · dsimp only
        rw [List.getElem?_set_ne (Nat.ne_of_gt hlt), hentry]
      · rw [mem_children] at hp ⊢
        dsimp only
        rw [Finset.mem_insert]
        tauto
    · refine ⟨pid, List.getElem?_set_self hi, ?_⟩
      rw [mem_children]
      exact Or.inl (Finset.mem_insert_self pid _)

/-- `sig_int` only ever sends a signal to a child. -/
theorem kill_child {pid : Pid} (h : Apart server s) (hpid : pid ∈ s.children) :
    s.kill server pid = { s with
      running := s.running.erase pid
      signalled := if pid ∈ s.running then insert pid s.signalled else s.signalled } := by
  rcases h.child pid hpid with ⟨hpos, hserver, hothers⟩
  unfold State.kill
  rw [if_neg (Nat.ne_of_gt hpos), if_neg hserver]
  split
  · rfl
  · rename_i hrunning
    rw [Finset.erase_eq_of_notMem hothers, Finset.erase_eq_of_notMem hrunning]

/-!
## What a step of the server can do
-/

inductive MainMove (n : Nat) (server : Pid) (s : State) : State -> Prop where
  | forks {i : Nat} {pid : Pid} : s.pc = .fork i -> i < n -> s.Free server pid ->
      MainMove n server s { s with
        pc := .fork (i + 1)
        pids := s.pids.set i pid
        running := insert pid s.running }
  /-- The server gives up before SIGINT. -/
  | quits : s.pc = .loop ∨ (exists i, s.pc = .fork i) ->
      MainMove n server s (s.leave (.exited 1))
  | forked {i : Nat} : s.pc = .fork i -> n ≤ i -> MainMove n server s { s with pc := .signal }
  | installs : s.pc = .signal -> MainMove n server s { s with pc := .loop }
  | kills {i : Nat} : s.pc = .kill i -> i < n ->
      MainMove n server s ({ s with pc := .kill (i + 1) }.kill server (s.pids.getD i 0))
  | killed {i : Nat} : s.pc = .kill i -> n ≤ i -> MainMove n server s { s with pc := .wait }
  | reaps {pid : Pid} : s.pc = .wait -> pid ∈ s.zombies ->
      MainMove n server s { s with zombies := s.zombies.erase pid }
  | fails : s.pc = .wait -> s.children = ∅ ->
      MainMove n server s { s with pc := .failed, errno := .echild }
  | exits : s.pc = .failed ->
      MainMove n server s (s.leave (.exited (if s.errno = .echild then 0 else 1)))

theorem mainMove_of_sigIntStep {outcome : Outcome} (h : sigIntStep n server s outcome = some t) :
    MainMove n server s t := by
  unfold sigIntStep at h
  split at h
  · rename_i i hpc
    split at h
    · rename_i hi
      cases h
      exact .kills hpc hi
    · rename_i hi
      cases h
      exact .killed hpc (Nat.le_of_not_lt hi)
  · rename_i hpc
    split at h
    · rename_i hnone
      cases h
      exact .fails hpc hnone
    · split at h
      · rename_i hzombie
        cases h
        exact .reaps hpc hzombie
      · cases h
  · rename_i hpc
    cases h
    exact .exits hpc
  · cases h

theorem mainMove_of_mainStep {outcome : Outcome} (h : mainStep loop n server s outcome = some t) :
    MainMove n server s t := by
  unfold mainStep at h
  split at h
  · rename_i hpc
    split at h
    · rename_i hfree
      cases h
      exact .forks hpc hfree.1 hfree.2
    · cases h
  · rename_i i hpc
    split at h
    · cases h
      exact .quits (Or.inr ⟨i, hpc⟩)
    · cases h
  · rename_i hpc
    split at h
    · cases h
    · rename_i hi
      cases h
      exact .forked hpc (Nat.le_of_not_lt hi)
  · rename_i hpc
    cases h
    exact .installs hpc
  · rename_i hpc
    split at h
    · cases h
      exact .quits (Or.inl hpc)
    · cases h
  · exact mainMove_of_sigIntStep h

/-!
## The invariant
-/

theorem PreforkInv.start (n : Nat) (server : Pid) (others : Finset Pid) :
    PreforkInv n server (start n others) where
  length := List.length_replicate
  few := Nat.zero_le n
  apart := ⟨by simp [SigInt.start], by simp [SigInt.start],
    by simp [SigInt.start, State.children]⟩
  phase := ⟨Nat.zero_le n, by simp [SigInt.start, State.children], by simp⟩

theorem children_leave {pc : Pc} : (s.leave pc).children ⊆ s.children := by
  intro pid hpid
  rw [mem_children] at hpid ⊢
  simp only [State.leave, Finset.notMem_empty, or_false] at hpid
  tauto

theorem PreforkInv.leave {pc : Pc} (h : PreforkInv n server s)
    (hpc : pc = .killed ∨ pc = .exited 1 ∨ s.children = ∅ ∧ exists status, pc = .exited status) :
    PreforkInv n server (s.leave pc) where
  length := h.length
  few := Nat.le_trans (Finset.card_le_card children_leave) h.few
  apart := by
    refine ⟨?_, ?_, ?_⟩
    · intro pid hpid
      exact ⟨(h.apart.running pid hpid).1, Finset.notMem_empty pid⟩
    · intro pid _
      exact Finset.notMem_empty pid
    · intro pid hpid
      exact h.apart.child pid (children_leave hpid)
  phase := by
    rcases hpc with rfl | rfl | ⟨hnone, status, rfl⟩
    · trivial
    · intro hstatus
      cases hstatus
    · intro _
      exact Finset.subset_empty.mp (hnone ▸ children_leave)

theorem PreforkInv.goto {pc : Pc} {errno : Errno} (h : PreforkInv n server s)
    (hphase : Phase n { s with pc := pc, errno := errno }) :
    PreforkInv n server { s with pc := pc, errno := errno } where
  length := h.length
  few := h.few
  apart := ⟨h.apart.running, h.apart.signalled, h.apart.child⟩
  phase := hphase

theorem PreforkInv.forks {i : Nat} {pid : Pid} (h : PreforkInv n server s)
    (hpc : s.pc = .fork i) (hi : i < n) (hfree : s.Free server pid) :
    PreforkInv n server { s with
      pc := .fork (i + 1)
      pids := s.pids.set i pid
      running := insert pid s.running } := by
  have hphase := h.phase
  simp only [Phase, hpc] at hphase
  have hnoted := @Noted.fork s i pid hphase.2 (by rw [h.length]; exact hi)
  rcases hfree with ⟨hpos, hserver, hchild, hother⟩
  rw [mem_children, not_or, not_or] at hchild
  refine ⟨?_, ?_, ⟨?_, ?_, ?_⟩, hi, hnoted⟩
  · dsimp only
    rw [List.length_set, h.length]
  · have hcard := hnoted.card_le
    dsimp only at hcard
    rwa [List.length_set, h.length] at hcard
  · intro p hp
    rcases Finset.mem_insert.mp hp with rfl | hold
    · exact hchild.2
    · exact h.apart.running p hold
  · exact h.apart.signalled
  · intro p hp
    rw [mem_children] at hp
    dsimp only at hp
    rw [Finset.mem_insert, or_assoc] at hp
    rcases hp with rfl | hold
    · exact ⟨hpos, hserver, hother⟩
    · exact h.apart.child p (mem_children.mpr hold)

theorem PreforkInv.pid_child (h : PreforkInv n server s) {i : Nat} (hpc : s.pc = .kill i)
    (hi : i < n) : exists pid, s.pids[i]? = some pid ∧ pid ∈ s.children := by
  have hphase := h.phase
  simp only [Phase, hpc] at hphase
  exact hphase.2.1.entry i hi

theorem PreforkInv.kill_next (h : PreforkInv n server s) {i : Nat} (hpc : s.pc = .kill i)
    (hi : i < n) : exists pid, s.pids[i]? = some pid ∧ pid ∈ s.children ∧
      { s with pc := .kill (i + 1) }.kill server (s.pids.getD i 0) = { s with
        pc := .kill (i + 1)
        running := s.running.erase pid
        signalled := if pid ∈ s.running then insert pid s.signalled else s.signalled } := by
  rcases h.pid_child hpc hi with ⟨pid, hentry, hpid⟩
  have hapart : Apart server { s with pc := .kill (i + 1) } :=
    ⟨h.apart.running, h.apart.signalled, h.apart.child⟩
  refine ⟨pid, hentry, hpid, ?_⟩
  rw [List.getD_eq_getElem?_getD, hentry, Option.getD_some, kill_child hapart hpid]

theorem PreforkInv.kills {i : Nat} (h : PreforkInv n server s) (hpc : s.pc = .kill i)
    (hi : i < n) :
    PreforkInv n server ({ s with pc := .kill (i + 1) }.kill server (s.pids.getD i 0)) ∧
      ({ s with pc := .kill (i + 1) }.kill server (s.pids.getD i 0)).others = s.others := by
  rcases h.kill_next hpc hi with ⟨pid, hentry, hpid, hkill⟩
  have hphase := h.phase
  simp only [Phase, hpc] at hphase
  rcases hphase with ⟨_, hnoted, htold⟩
  rw [hkill]
  have hchildren : State.children { s with
      pc := .kill (i + 1)
      running := s.running.erase pid
      signalled := if pid ∈ s.running then insert pid s.signalled else s.signalled } =
        s.children := by
    ext p
    rw [mem_children] at hpid
    rw [mem_children, mem_children]
    by_cases hp : p = pid
    · subst hp
      split <;> simp [*]
    · split <;> simp [hp]
  refine ⟨⟨h.length, ?_, ⟨?_, ?_, ?_⟩, hi, ?_, ?_⟩, rfl⟩
  · rw [hchildren]
    exact h.few
  · intro p hp
    rcases Finset.mem_erase.mp hp with ⟨hne, hold⟩
    rcases h.apart.running p hold with ⟨hsignalled, hzombie⟩
    refine ⟨?_, hzombie⟩
    dsimp only
    split
    · rw [Finset.mem_insert, not_or]
      exact ⟨hne, hsignalled⟩
    · exact hsignalled
  · intro p hp
    dsimp only at hp
    split at hp
    · rename_i hrunning
      rcases Finset.mem_insert.mp hp with rfl | hold
      · exact (h.apart.running p hrunning).2
      · exact h.apart.signalled p hold
    · exact h.apart.signalled p hp
  · intro p hp
    rw [hchildren] at hp
    exact h.apart.child p hp
  · exact hnoted.congr rfl hchildren
  · intro j p hj hp
    dsimp only at hp ⊢
    rcases Nat.lt_succ_iff_lt_or_eq.mp hj with hlt | rfl
    · exact fun hmem => htold j p hlt hp (Finset.mem_of_mem_erase hmem)
    · rw [hentry] at hp
      cases hp
      exact Finset.notMem_erase _ _

theorem PreforkInv.all_told {i : Nat} (h : PreforkInv n server s) (hpc : s.pc = .kill i)
    (hi : n ≤ i) : s.running = ∅ := by
  have hphase := h.phase
  simp only [Phase, hpc] at hphase
  rcases hphase with ⟨_, hnoted, htold⟩
  apply Finset.eq_empty_of_forall_notMem
  intro pid hpid
  rcases hnoted.child pid (mem_children.mpr (Or.inl hpid)) with ⟨j, hj, hentry⟩
  exact htold j pid (Nat.lt_of_lt_of_le hj hi) hentry hpid

theorem children_erase {zombies : Finset Pid} (hsub : zombies ⊆ s.zombies) :
    State.children { s with zombies := zombies } ⊆ s.children := by
  intro pid hpid
  rw [mem_children] at hpid ⊢
  rcases hpid with hrunning | hsignalled | hzombie
  · exact Or.inl hrunning
  · exact Or.inr (Or.inl hsignalled)
  · exact Or.inr (Or.inr (hsub hzombie))

theorem PreforkInv.reaps {pid : Pid} (h : PreforkInv n server s) (hpc : s.pc = .wait) :
    PreforkInv n server { s with zombies := s.zombies.erase pid } := by
  have hsub := children_erase (s := s) (Finset.erase_subset pid s.zombies)
  have hphase := h.phase
  simp only [Phase, hpc] at hphase
  refine ⟨h.length, Nat.le_trans (Finset.card_le_card hsub) h.few, ⟨?_, ?_, ?_⟩, ?_⟩
  · intro p hp
    rcases h.apart.running p hp with ⟨hsignalled, hzombie⟩
    exact ⟨hsignalled, fun hmem => hzombie (Finset.mem_of_mem_erase hmem)⟩
  · intro p hp hmem
    exact h.apart.signalled p hp (Finset.mem_of_mem_erase hmem)
  · intro p hp
    exact h.apart.child p (hsub hp)
  · simp only [Phase, hpc]
    exact hphase

theorem PreforkInv.mainMove (h : PreforkInv n server s) (hmove : MainMove n server s t) :
    PreforkInv n server t ∧ t.others = s.others := by
  have hphase := h.phase
  cases hmove with
  | forks hpc hi hfree => exact ⟨h.forks hpc hi hfree, rfl⟩
  | quits _ => exact ⟨h.leave (Or.inr (Or.inl rfl)), rfl⟩
  | forked hpc hi =>
      simp only [Phase, hpc] at hphase
      have hall := Nat.le_antisymm hphase.1 hi
      rw [hall] at hphase
      exact ⟨h.goto (hphase.2.congr rfl rfl), rfl⟩
  | installs hpc =>
      simp only [Phase, hpc] at hphase
      exact ⟨h.goto (hphase.congr rfl rfl), rfl⟩
  | kills hpc hi => exact h.kills hpc hi
  | killed hpc hi => exact ⟨h.goto (h.all_told hpc hi), rfl⟩
  | reaps hpc => exact ⟨h.reaps hpc, rfl⟩
  | fails hpc hnone => exact ⟨h.goto ⟨hnone, rfl⟩, rfl⟩
  | exits hpc =>
      simp only [Phase, hpc] at hphase
      rw [if_pos hphase.2]
      exact ⟨h.leave (Or.inr (Or.inr ⟨hphase.1, 0, rfl⟩)), rfl⟩

theorem Phase.mono (h : Phase n s) (hpc : t.pc = s.pc) (herrno : t.errno = s.errno)
    (hpids : t.pids = s.pids) (hrunning : t.running ⊆ s.running)
    (hsub : t.children ⊆ s.children)
    (hsame : s.pc.ended = false -> t.children = s.children) : Phase n t := by
  unfold Phase at h ⊢
  rw [hpc]
  cases hs : s.pc with
  | fork i =>
      rw [hs] at h hsame
      exact ⟨h.1, h.2.congr hpids (hsame rfl)⟩
  | signal | loop =>
      rw [hs] at h hsame
      exact h.congr hpids (hsame rfl)
  | kill i =>
      rw [hs] at h hsame
      refine ⟨h.1, h.2.1.congr hpids (hsame rfl), ?_⟩
      intro j pid hj hentry hpid
      rw [hpids] at hentry
      exact h.2.2 j pid hj hentry (hrunning hpid)
  | wait =>
      rw [hs] at h
      exact Finset.subset_empty.mp (h ▸ hrunning)
  | failed =>
      rw [hs] at h
      exact ⟨Finset.subset_empty.mp (h.1 ▸ hsub), herrno.trans h.2⟩
  | exited status =>
      rw [hs] at h
      exact fun hstatus => Finset.subset_empty.mp (h hstatus ▸ hsub)
  | killed => trivial

/-- A child has ended; a server that is still there has to wait for it. -/
def State.bury (s : State) (pid : Pid) : State :=
  { s with
    running := s.running.erase pid
    signalled := s.signalled.erase pid
    zombies := if s.pc.ended then s.zombies else insert pid s.zombies }

theorem children_bury {pid : Pid} (hpid : pid ∈ s.running ∪ s.signalled) :
    (s.bury pid).children ⊆ s.children ∧
      (s.pc.ended = false -> (s.bury pid).children = s.children) := by
  rw [Finset.mem_union] at hpid
  constructor
  · intro p hp
    rw [mem_children] at hp ⊢
    simp only [State.bury, Finset.mem_erase] at hp
    split at hp
    · tauto
    · rw [Finset.mem_insert] at hp
      rcases hp with hrunning | hsignalled | rfl | hzombie
      · exact Or.inl hrunning.2
      · exact Or.inr (Or.inl hsignalled.2)
      · tauto
      · exact Or.inr (Or.inr hzombie)
  · intro hended
    ext p
    rw [mem_children, mem_children]
    simp only [State.bury, hended, Finset.mem_erase, Bool.false_eq_true, if_false,
      Finset.mem_insert]
    by_cases hp : p = pid
    · subst hp
      tauto
    · tauto

theorem PreforkInv.dies {pid : Pid} (h : PreforkInv n server s)
    (hpid : pid ∈ s.running ∪ s.signalled) : PreforkInv n server (s.bury pid) := by
  rcases children_bury hpid with ⟨hsub, hsame⟩
  refine ⟨h.length, Nat.le_trans (Finset.card_le_card hsub) h.few, ⟨?_, ?_, ?_⟩, ?_⟩
  · intro p hp
    rcases Finset.mem_erase.mp hp with ⟨hne, hold⟩
    rcases h.apart.running p hold with ⟨hsignalled, hzombie⟩
    refine ⟨fun hmem => hsignalled (Finset.mem_of_mem_erase hmem), ?_⟩
    simp only [State.bury]
    split
    · exact hzombie
    · rw [Finset.mem_insert, not_or]
      exact ⟨hne, hzombie⟩
  · intro p hp
    rcases Finset.mem_erase.mp hp with ⟨hne, hold⟩
    have hzombie := h.apart.signalled p hold
    simp only [State.bury]
    split
    · exact hzombie
    · rw [Finset.mem_insert, not_or]
      exact ⟨hne, hzombie⟩
  · intro p hp
    exact h.apart.child p (hsub hp)
  · exact h.phase.mono rfl rfl rfl (Finset.erase_subset pid _) hsub hsame

theorem PreforkInv.around {others : Finset Pid} (h : PreforkInv n server s)
    (hothers : forall pid, pid ∈ s.children -> pid ∉ others) :
    PreforkInv n server { s with others := others } where
  length := h.length
  few := h.few
  apart := by
    refine ⟨h.apart.running, h.apart.signalled, ?_⟩
    intro pid hpid
    rcases h.apart.child pid hpid with ⟨hpos, hserver, _⟩
    exact ⟨hpos, hserver, hothers pid hpid⟩
  phase := h.phase.mono rfl rfl rfl (Finset.Subset.refl _) (Finset.Subset.refl _) fun _ => rfl

theorem PreforkInv.interrupt (h : PreforkInv n server s) (hstep : interrupt s = some t) :
    PreforkInv n server t ∧ t.others = s.others := by
  unfold SigInt.interrupt at hstep
  split at hstep
  · cases hstep
    exact ⟨h.leave (Or.inl rfl), rfl⟩
  · cases hstep
    exact ⟨h.leave (Or.inl rfl), rfl⟩
  · rename_i hpc
    have hphase := h.phase
    simp only [Phase, hpc] at hphase
    cases hstep
    refine ⟨h.goto ⟨Nat.zero_le n, hphase.congr rfl rfl, ?_⟩, rfl⟩
    intro j pid hj
    exact (Nat.not_lt_zero j hj).elim
  · cases hstep
    exact ⟨h, rfl⟩
  · cases hstep
    exact ⟨h, rfl⟩
  · cases hstep
    exact ⟨h, rfl⟩
  · cases hstep
  · cases hstep

theorem PreforkInv.step (h : PreforkInv n server s) {a : Action}
    (hstep : step loop n server s a = some t) :
    PreforkInv n server t ∧ ((forall pid, a ≠ .spawn pid) -> (forall pid, a ≠ .gone pid) ->
      t.others = s.others) := by
  cases a with
  | main outcome =>
      rcases h.mainMove (mainMove_of_mainStep hstep) with ⟨hinv, hothers⟩
      exact ⟨hinv, fun _ _ => hothers⟩
  | interrupt =>
      rcases h.interrupt hstep with ⟨hinv, hothers⟩
      exact ⟨hinv, fun _ _ => hothers⟩
  | kill =>
      simp only [SigInt.step] at hstep
      split at hstep
      · cases hstep
      · cases hstep
        exact ⟨h.leave (Or.inl rfl), fun _ _ => rfl⟩
  | dies pid =>
      simp only [SigInt.step] at hstep
      split at hstep
      · rename_i hpid
        cases hstep
        exact ⟨h.dies hpid, fun _ _ => rfl⟩
      · cases hstep
  | spawn pid =>
      simp only [SigInt.step] at hstep
      split at hstep
      · rename_i hfree
        cases hstep
        refine ⟨h.around ?_, fun hspawn => (hspawn pid rfl).elim⟩
        intro p hp
        rw [Finset.mem_insert, not_or]
        refine ⟨?_, (h.apart.child p hp).2.2⟩
        intro heq
        rw [heq] at hp
        exact hfree.2.2.1 hp
      · cases hstep
  | gone pid =>
      simp only [SigInt.step] at hstep
      split at hstep
      · cases hstep
        refine ⟨h.around ?_, fun _ hgone => (hgone pid rfl).elim⟩
        intro p hp hmem
        exact (h.apart.child p hp).2.2 (Finset.mem_of_mem_erase hmem)
      · cases hstep

theorem reachable_preforkInv {others : Finset Pid}
    (h : (prefork loop n server others).Reachable s) : PreforkInv n server s := by
  apply System.ReachableUnder.invariant _ _ h
  · intro s hs
    rw [show s = _ from hs]
    exact PreforkInv.start n server others
  · intro s t a hinv _ hstep
    exact (hinv.step hstep).1

/-!
## The end of the server
-/

def Pc.stopping : Pc -> Bool
  | .kill _ => true
  | .wait => true
  | .failed => true
  | .exited status => status == 0
  | .killed => true
  | _ => false

def Pc.left (n : Nat) : Pc -> Nat
  | .kill i => n - i + 3
  | .wait => 2
  | .failed => 1
  | _ => 0

def State.left (n : Nat) (s : State) : Nat :=
  s.pc.left n + 2 * (s.running.card + s.signalled.card) + s.zombies.card

def Action.cost : Action -> Nat
  | .main _ => 1
  | .dies _ => 1
  | _ => 0

theorem card_insert_erase {pid : Pid} :
    (s.running.erase pid).card +
        (if pid ∈ s.running then insert pid s.signalled else s.signalled).card ≤
      s.running.card + s.signalled.card := by
  split
  · rename_i hpid
    have herase := Finset.card_erase_add_one hpid
    have hinsert := Finset.card_insert_le pid s.signalled
    lia
  · exact Nat.add_le_add_right (Finset.card_le_card (Finset.erase_subset pid _)) _

theorem left_leave {pc : Pc} (hpc : pc.left n = 0) :
    (s.leave pc).left n + s.pc.left n ≤ s.left n := by
  simp only [State.left, State.leave, hpc, Finset.card_empty]
  lia

theorem PreforkInv.left_mainMove (h : PreforkInv n server s) (hstop : s.pc.stopping = true)
    (hmove : MainMove n server s t) : t.pc.stopping = true ∧ t.left n + 1 ≤ s.left n := by
  have hphase := h.phase
  cases hmove with
  | forks hpc | forked hpc | installs hpc =>
      rw [hpc] at hstop
      cases hstop
  | quits hpc =>
      rcases hpc with hpc | ⟨i, hpc⟩
      · rw [hpc] at hstop
        cases hstop
      · rw [hpc] at hstop
        cases hstop
  | @kills i hpc hi =>
      rcases h.kill_next hpc hi with ⟨pid, _, _, hkill⟩
      rw [hkill]
      refine ⟨rfl, ?_⟩
      have hcard := @card_insert_erase s pid
      simp only [State.left, hpc, Pc.left]
      lia
  | killed hpc =>
      refine ⟨rfl, ?_⟩
      simp only [State.left, hpc, Pc.left]
      lia
  | reaps hpc hzombie =>
      have herase := Finset.card_erase_add_one hzombie
      refine ⟨hstop, ?_⟩
      simp only [State.left]
      lia
  | fails hpc =>
      refine ⟨rfl, ?_⟩
      simp only [State.left, hpc, Pc.left]
      lia
  | exits hpc =>
      simp only [Phase, hpc] at hphase
      rw [if_pos hphase.2]
      have hless := @left_leave n s (.exited 0) rfl
      rw [hpc] at hless
      exact ⟨rfl, hless⟩

theorem left_bury {pid : Pid} (hpid : pid ∈ s.running ∪ s.signalled) :
    (s.bury pid).left n + 1 ≤ s.left n := by
  have hzombies : (if s.pc.ended then s.zombies else insert pid s.zombies).card ≤
      s.zombies.card + 1 := by
    split
    · exact Nat.le_succ _
    · exact Finset.card_insert_le pid s.zombies
  have hrunning := Finset.card_le_card (Finset.erase_subset pid s.running)
  have hsignalled := Finset.card_le_card (Finset.erase_subset pid s.signalled)
  simp only [State.left, State.bury]
  rcases Finset.mem_union.mp hpid with hmem | hmem
  · have herase := Finset.card_erase_add_one hmem
    lia
  · have herase := Finset.card_erase_add_one hmem
    lia

theorem interrupt_stopping (hstop : s.pc.stopping = true) (hstep : interrupt s = some t) :
    t = s := by
  unfold interrupt at hstep
  cases hpc : s.pc with
  | fork | signal | loop =>
      rw [hpc] at hstop
      cases hstop
  | kill | wait | failed =>
      rw [hpc] at hstep
      cases hstep
      rfl
  | exited | killed =>
      rw [hpc] at hstep
      cases hstep

theorem PreforkInv.left_step (h : PreforkInv n server s) (hstop : s.pc.stopping = true)
    {a : Action} (hstep : SigInt.step loop n server s a = some t) :
    t.pc.stopping = true ∧ t.left n + a.cost ≤ s.left n := by
  cases a with
  | main outcome => exact h.left_mainMove hstop (mainMove_of_mainStep hstep)
  | interrupt =>
      rw [interrupt_stopping hstop hstep]
      exact ⟨hstop, Nat.le_refl _⟩
  | kill =>
      simp only [SigInt.step] at hstep
      split at hstep
      · cases hstep
      · cases hstep
        exact ⟨rfl, Nat.le_trans (Nat.le_add_right _ _) (left_leave rfl)⟩
  | dies pid =>
      simp only [SigInt.step] at hstep
      split at hstep
      · rename_i hpid
        cases hstep
        exact ⟨hstop, left_bury hpid⟩
      · cases hstep
  | spawn pid | gone pid =>
      simp only [SigInt.step] at hstep
      split at hstep
      · cases hstep
        exact ⟨hstop, Nat.le_refl _⟩
      · cases hstep

theorem Apart.card (h : Apart server s) :
    s.children.card = s.running.card + s.signalled.card + s.zombies.card := by
  unfold State.children
  rw [Finset.card_union_of_disjoint, Finset.card_union_of_disjoint]
  · rw [Finset.disjoint_left]
    exact fun pid hpid => (h.running pid hpid).1
  · rw [Finset.disjoint_left]
    intro pid hpid
    rcases Finset.mem_union.mp hpid with hrunning | hsignalled
    · exact (h.running pid hrunning).2
    · exact h.signalled pid hsignalled

/-- A server that is in `sig_int` can go on, unless it waits for a child that has been
told to end. -/
theorem PreforkInv.exited_of_stuck (h : PreforkInv n server s) (hstop : s.pc.stopping = true)
    (hkilled : s.pc ≠ .killed) (hstuck : forall outcome, mainStep loop n server s outcome = none)
    (hsignalled : s.signalled = ∅) : s.pc = .exited 0 ∧ s.children = ∅ := by
  have hphase := h.phase
  cases hpc : s.pc with
  | fork | signal | loop =>
      rw [hpc] at hstop
      cases hstop
  | kill i =>
      have hgo := hstuck .go
      simp only [mainStep, sigIntStep, hpc] at hgo
      split at hgo
      · cases hgo
      · cases hgo
  | wait =>
      simp only [Phase, hpc] at hphase
      by_cases hnone : s.children = ∅
      · have hgo := hstuck (.waited 0)
        simp only [mainStep, sigIntStep, hpc, hnone, if_true] at hgo
        cases hgo
      · rcases Finset.nonempty_iff_ne_empty.mpr hnone with ⟨pid, hpid⟩
        rw [mem_children, hphase, hsignalled] at hpid
        have hzombie : pid ∈ s.zombies := by simpa using hpid
        have hgo := hstuck (.waited pid)
        simp only [mainStep, sigIntStep, hpc, hnone, hzombie, if_false, if_true] at hgo
        cases hgo
  | failed =>
      have hgo := hstuck .go
      simp only [mainStep, sigIntStep, hpc] at hgo
      cases hgo
  | exited status =>
      rw [hpc] at hstop
      have hstatus : status = 0 := eq_of_beq hstop
      simp only [Phase, hpc] at hphase
      rw [hstatus]
      exact ⟨rfl, hphase hstatus⟩
  | killed => exact (hkilled hpc).elim

/-- `sig_int` signals children of the server only, whoever has come and gone, and the
server exits through it when no child is left; nothing can keep it from doing so. -/
theorem sigInt_leaves_nobody {others : Finset Pid}
    (h : (prefork loop n server others).Reachable s) :
    (forall i, s.pc = .kill i -> i < n ->
      exists pid, s.pids[i]? = some pid ∧ pid ∈ s.children) ∧
    (forall a t, (prefork loop n server others).step s a = some t ->
      (forall pid, a ≠ .spawn pid) -> (forall pid, a ≠ .gone pid) -> t.others = s.others) ∧
    (s.pc = .exited 0 -> s.children = ∅) ∧
    forall i schedule u, s.pc = .kill i -> (prefork loop n server others).Run s schedule u ->
      (schedule.map Action.cost).sum ≤ 3 * n + 3 ∧
      (u.pc ≠ .killed -> (forall outcome, mainStep loop n server u outcome = none) ->
        u.signalled = ∅ -> u.pc = .exited 0 ∧ u.children = ∅) := by
  have hinv := reachable_preforkInv h
  refine ⟨fun i hpc hi => hinv.pid_child hpc hi, fun a t hstep => (hinv.step hstep).2, ?_, ?_⟩
  · intro hpc
    have hphase := hinv.phase
    unfold Phase at hphase
    rw [hpc] at hphase
    exact hphase rfl
  · intro i schedule u hpc hrun
    have hstop : s.pc.stopping = true := by
      rw [hpc]
      rfl
    have hstep : forall {x y : State} {a : Action},
        PreforkInv n server x ∧ x.pc.stopping = true ->
        step loop n server x a = some y ->
        (PreforkInv n server y ∧ y.pc.stopping = true) ∧ y.left n + a.cost ≤ x.left n := by
      intro x y a hx hone
      rcases hx.1.left_step hx.2 hone with ⟨hstopping, hless⟩
      exact ⟨⟨(hx.1.step hone).1, hstopping⟩, hless⟩
    constructor
    · have hcost := hrun.cost_le (State.left n) Action.cost
        (fun hx _ hone => hstep hx hone) ⟨hinv, hstop⟩
      have hcard := hinv.apart.card
      have hfew := hinv.few
      have hleft : s.left n ≤ 3 * n + 3 := by
        simp only [State.left, hpc, Pc.left]
        lia
      lia
    · intro hkilled hstuck hsignalled
      have hu := hrun.invariant (fun x => PreforkInv n server x ∧ x.pc.stopping = true)
        (fun hx _ hone => (hstep hx hone).1) ⟨hinv, hstop⟩
      exact hu.1.exited_of_stuck hu.2 hkilled hstuck hsignalled

/-- Child 7 has ended long before SIGINT and has kept its identifier. -/
theorem sigInt_leaves_nobody_two :
    exists s, (prefork serv02 2 5 {1}).Reachable s ∧ s.pc = .kill 0 ∧
      (exists pid, s.pids[0]? = some pid ∧ pid ∈ s.children) ∧
      forall schedule u, (prefork serv02 2 5 {1}).Run s schedule u ->
        (schedule.map Action.cost).sum ≤ 9 := by
  have hrun : exists s, (prefork serv02 2 5 {1}).Reachable s ∧
      (s.pc = .kill 0 ∧ s.zombies = {7} ∧ s.others = {1, 9}) :=
    System.reachable_of_exec
      [.main (.forked 7), .main (.forked 8), .main .go, .main .go, .dies 7, .spawn 9,
        .interrupt] rfl (by decide)
  rcases hrun with ⟨s, hreach, hpc, _⟩
  rcases sigInt_leaves_nobody hreach with ⟨hchild, _, _, hend⟩
  exact ⟨s, hreach, hpc, hchild 0 hpc (by decide), fun schedule u hrest =>
    (hend 0 schedule u hpc hrest).1⟩

end SigInt
end PracticeHand
