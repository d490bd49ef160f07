import PracticeHand.ClientServer.Serv01
import PracticeHand.Posix.Sockets

/-!
# Who has the connections of the forking server

`accept` puts a connection into the table of the parent, `fork` copies it into the table
of the child, and the parent closes its copy.  A client sees the end of its connection
when no process has it any more, so the connection must be in no other table than that
of the child that serves it, once the parent has closed it.

The steps of the parent are those of `Serv01`.  A child closes the listening socket,
calls `web_child` and exits, or is killed anywhere on its way; its exit closes what it has.
-/

namespace PracticeHand
namespace Serv01Sockets

open Concurrency
open Posix
open Serv01

inductive ChildPc where
  | closeListen
  | webChild
  | exit
  deriving DecidableEq

structure Child where
  pc : ChildPc := .closeListen
  connfd : Fd
  table : Table File

structure State where
  server : Server
  table : Table File
  children : Pid -> Option Child
  accepted : Nat

inductive Action where
  | server (a : Serv01.Action)
  | child (pid : Pid)
  | dies (pid : Pid)

/-- What a step of the parent does to the tables; `accept` returns the lowest descriptor. -/
def parentFiles (s : State) : Serv01.Action -> Option State
  | .main (.accepted connfd) =>
      if connfd = s.table.lowest then
        some { s with
          table := s.table.assign connfd (some (.connection s.accepted))
          accepted := s.accepted + 1 }
      else none
  | .main (.forked pid) =>
      match s.server.main with
      | .fork connfd =>
          some { s with
            children := Function.update s.children pid
              (some { connfd := connfd, table := s.table }) }
      | _ => none
  | .main .go =>
      match s.server.main with
      | .close connfd => some { s with table := s.table.close connfd }
      | _ => some s
  | .terminate _ => none
  | _ => some s

/-- A process that has exited has no open files. -/
def parentStep (s : State) (a : Serv01.Action) : Option State :=
  (parentFiles s a).bind fun t =>
    (Serv01.step s.server a).map fun server =>
      { t with server := server, table := if server.main = .exited then [] else t.table }

def childStep (listenfd : Fd) (c : Child) : Option Child :=
  match c.pc with
  | .closeListen => some { c with table := c.table.close listenfd, pc := .webChild }
  | .webChild => some { c with pc := .exit }
  | .exit => none

def step (listenfd : Fd) (s : State) : Action -> Option State
  | .server a => parentStep s a
  | .child pid =>
      (s.children pid).bind fun c =>
        (childStep listenfd c).map fun c' =>
          { s with children := Function.update s.children pid (some c') }
  | .dies pid =>
      if (s.children pid).isSome = true then
        some { s with
          -- a parent that has exited is not told
          server := (Serv01.step s.server (.terminate pid)).getD s.server
          children := Function.update s.children pid none }
      else none

/-- `base` is the table of the parent before the first `accept`. -/
def serv01Sockets (listenfd : Fd) (base : Table File) : System State Action where
  Init s := s = { server := {}, table := base, children := fun _ => none, accepted := 0 }
  step := step listenfd

/-- The listening socket is open, and no connection is. -/
structure Starts (listenfd : Fd) (base : Table File) : Prop where
  listens : base.lookup listenfd = some .listening
  none : forall fd c, base.lookup fd ≠ some (.connection c)

def State.Open (s : State) (c : Nat) : Prop :=
  (exists fd, s.table.lookup fd = some (.connection c)) ∨
    exists pid child fd, s.children pid = some child ∧
      child.table.lookup fd = some (.connection c)

/-!
## The tables
-/

theorem lowest_congr {t u : Table File} (h : forall fd, t.lookup fd = u.lookup fd) :
    t.lowest = u.lowest := by
  apply Nat.le_antisymm
  · exact Table.lowest_le ((h _).trans u.lookup_lowest)
  · exact Table.lowest_le ((h _).symm.trans t.lookup_lowest)

def Holding (base t : Table File) (fd : Fd) (c : Nat) : Prop :=
  forall k, t.lookup k = if k = fd then some (.connection c) else base.lookup k

/-- What a child has; its copy of the listening socket may be closed. -/
structure Serving (listenfd : Fd) (base : Table File) (child : Child) (c : Nat) : Prop where
  connfd : child.table.lookup child.connfd = some (.connection c)
  others : forall fd, fd ≠ child.connfd -> fd ≠ listenfd -> child.table.lookup fd = base.lookup fd
  listen : child.table.lookup listenfd = base.lookup listenfd ∨
    child.table.lookup listenfd = none

theorem Holding.only {listenfd : Fd} {base t : Table File} (hstart : Starts listenfd base)
    {fd k : Fd} {c d : Nat} (h : Holding base t fd c) (hk : t.lookup k = some (.connection d)) :
    k = fd ∧ d = c := by
  rw [h k] at hk
  split at hk
  · rename_i heq
    cases hk
    exact ⟨heq, rfl⟩
  · exact (hstart.none k d hk).elim

theorem Serving.only {listenfd : Fd} {base : Table File} {child : Child}
    (hstart : Starts listenfd base) {k : Fd} {c d : Nat} (h : Serving listenfd base child c)
    (hk : child.table.lookup k = some (.connection d)) : k = child.connfd ∧ d = c := by
  by_cases hconn : k = child.connfd
  · subst hconn
    rw [h.connfd] at hk
    cases hk
    exact ⟨rfl, rfl⟩
  · by_cases hlisten : k = listenfd
    · subst hlisten
      rcases h.listen with hbase | hnone
      · rw [hbase] at hk
        exact (hstart.none _ _ hk).elim
      · rw [hnone] at hk
        cases hk
    · rw [h.others k hconn hlisten] at hk
      exact (hstart.none _ _ hk).elim

/-!
## What a step of the parent can do
-/

inductive ParentMove (s : State) : State -> Prop where
  | accepts {connfd : Fd} {server : Server} : s.server.main = .accept ->
      connfd = s.table.lowest -> server.main = .fork connfd ->
      server.running = s.server.running ->
      ParentMove s { s with
        server := server
        table := s.table.assign connfd (some (.connection s.accepted))
        accepted := s.accepted + 1 }
  | forks {connfd : Fd} {pid : Pid} {server : Server} : s.server.main = .fork connfd ->
      pid ∉ s.server.running -> server.main = .close connfd ->
      server.running = s.server.running ++ [pid] ->
      ParentMove s { s with
        server := server
        children := Function.update s.children pid
          (some { connfd := connfd, table := s.table }) }
  | closes {connfd : Fd} {server : Server} : s.server.main = .close connfd ->
      server.main = .accept -> server.running = s.server.running ->
      ParentMove s { s with server := server, table := s.table.close connfd }
  /-- `accept` fails, or goes on after a signal. -/
  | fails {server : Server} : s.server.main = .accept ∨ s.server.main = .failed ->
      server.main = .accept ∨ server.main = .failed ->
      server.running = s.server.running -> ParentMove s { s with server := server }
  | exits {server : Server} : server.main = .exited ->
      ParentMove s { s with server := server, table := [] }
  /-- Something happens to SIGCHLD. -/
  | signal {server : Server} : s.server.main ≠ .exited -> server.main = s.server.main ->
      server.running = s.server.running -> ParentMove s { s with server := server }

theorem parentMove_of_main {s t : State} {outcome : Outcome}
    (h : parentStep s (.main outcome) = some t) : ParentMove s t := by
  rcases Option.bind_eq_some_iff.mp h with ⟨r, hfiles, hrest⟩
  rcases Option.map_eq_some_iff.mp hrest with ⟨server, hserver, rfl⟩
  unfold Serv01.step at hserver
  split at hserver
  · cases hserver
  · dsimp only at hserver
    split at hserver
    · unfold mainStep at hserver
      split at hserver
      · rename_i connfd hmain
        cases hserver
        simp only [parentFiles] at hfiles
        split at hfiles
        · rename_i hlowest
          cases hfiles
          exact .accepts hmain hlowest rfl rfl
        · cases hfiles
      · rename_i errno hmain
        cases hserver
        cases hfiles
        exact .fails (Or.inl hmain) (Or.inr rfl) rfl
      · rename_i hmain
        simp only [parentFiles, hmain] at hfiles
        cases hfiles
        split at hserver
        · cases hserver
          exact .fails (Or.inr hmain) (Or.inl rfl) rfl
        · cases hserver
          exact .exits rfl
      · rename_i connfd pid hmain
        simp only [parentFiles, hmain] at hfiles
        cases hfiles
        split at hserver
        · rename_i hfresh
          cases hserver
          exact .forks hmain hfresh.2.1 rfl rfl
        · cases hserver
      · cases hserver
        cases hfiles
        exact .exits rfl
      · rename_i connfd hmain
        simp only [parentFiles, hmain] at hfiles
        cases hfiles
        cases hserver
        exact .closes hmain rfl rfl
      · cases hserver
    · cases hserver

theorem waitpid_keeps {s : Server} {found : Pid} {w : Int × Server}
    (h : waitpid s found = some w) : w.2.main = s.main ∧ w.2.running = s.running := by
  unfold waitpid at h
  split at h
  · split at h
    · cases h
      exact ⟨rfl, rfl⟩
    · cases h
      exact ⟨rfl, rfl⟩
  · split at h
    · cases h
      exact ⟨rfl, rfl⟩
    · cases h

theorem handlerStep_keeps {s s' : Server} {found : Pid} (h : handlerStep s found = some s') :
    s'.main = s.main ∧ s'.running = s.running := by
  unfold handlerStep at h
  split at h
  · cases h
  · rcases Option.map_eq_some_iff.mp h with ⟨w, hw, rfl⟩
    have hkeeps := waitpid_keeps hw
    split <;> exact hkeeps
  · cases h
    exact ⟨rfl, rfl⟩

theorem parentMove_of_step {s t : State} {a : Serv01.Action} (h : parentStep s a = some t) :
    ParentMove s t := by
  cases a with
  | main outcome => exact parentMove_of_main h
  | terminate pid => cases h
  | interrupt =>
      rcases Option.map_eq_some_iff.mp h with ⟨server, hserver, rfl⟩
      have hexited : server.main = .exited := by
        unfold Serv01.step at hserver
        split at hserver
        · cases hserver
        · cases hserver
          rfl
      rw [if_pos hexited]
      exact .exits hexited
  | deliver | handler | raise =>
      rcases Option.map_eq_some_iff.mp h with ⟨server, hserver, rfl⟩
      have hkeeps : s.server.main ≠ .exited ∧ server.main = s.server.main ∧
          server.running = s.server.running := by
        unfold Serv01.step at hserver
        split at hserver
        · cases hserver
        · rename_i hrunning
          refine ⟨hrunning, ?_⟩
          dsimp only at hserver
          first
          | exact handlerStep_keeps hserver
          | split at hserver
            · cases hserver
              exact ⟨rfl, rfl⟩
            · cases hserver
          | cases hserver
            exact ⟨rfl, rfl⟩
      rw [if_neg (by rw [hkeeps.2.1]; exact hkeeps.1)]
      exact .signal hkeeps.1 hkeeps.2.1 hkeeps.2.2

/-!
## The invariant
-/

def ParentFiles (base : Table File) (s : State) : Prop :=
  match s.server.main with
  | .accept => forall fd, s.table.lookup fd = base.lookup fd
  | .failed => forall fd, s.table.lookup fd = base.lookup fd
  | .fork connfd => connfd = base.lowest ∧
      exists c, c + 1 = s.accepted ∧ Holding base s.table connfd c
  | .close connfd => connfd = base.lowest ∧
      exists c, c + 1 = s.accepted ∧ Holding base s.table connfd c
  | .exited => s.table = []

def State.forking (s : State) : Nat :=
  match s.server.main with
  | .fork _ => 1
  | _ => 0

structure SocketInv (listenfd : Fd) (base : Table File) (s : State) : Prop where
  parent : ParentFiles base s
  child : forall pid child, s.children pid = some child ->
    exists c, c + s.forking < s.accepted ∧ child.connfd = base.lowest ∧
      Serving listenfd base child c
  distinct : forall pid pid' child child' c, s.children pid = some child ->
    s.children pid' = some child' -> Serving listenfd base child c ->
    Serving listenfd base child' c -> pid = pid'
  -- the parent knows its children
  running : s.server.main ≠ .exited -> forall pid, s.children pid ≠ none ->
    pid ∈ s.server.running

variable {listenfd : Fd} {base : Table File} {s t : State}

theorem socketInv_start (listenfd : Fd) (base : Table File) :
    SocketInv listenfd base { server := {}, table := base, children := fun _ => none, accepted := 0 } where
  parent := fun _ => rfl
  child := by
    intro pid child hchild
    cases hchild
  distinct := by
    intro pid pid' child child' c hchild
    cases hchild
  running := by
    intro _ pid hpid
    exact (hpid rfl).elim

theorem SocketInv.congr (h : SocketInv listenfd base s) (hparent : ParentFiles base t)
    (hchildren : t.children = s.children)
    (haccepted : s.accepted + t.forking ≤ t.accepted + s.forking)
    (hrunning : t.server.main ≠ .exited -> s.server.main ≠ .exited ∧
      t.server.running = s.server.running) : SocketInv listenfd base t where
  parent := hparent
  child := by
    intro pid child hchild
    rw [hchildren] at hchild
    rcases h.child pid child hchild with ⟨c, hc, hrest⟩
    exact ⟨c, by lia, hrest⟩
  distinct := by
    rw [hchildren]
    exact h.distinct
  running := by
    intro hmain pid hpid
    rcases hrunning hmain with ⟨hbefore, hsame⟩
    rw [hsame]
    rw [hchildren] at hpid
    exact h.running hbefore pid hpid

theorem Serving.number {child : Child} {c d : Nat} (h : Serving listenfd base child c)
    (h' : Serving listenfd base child d) : c = d := by
  have hsame := h.connfd
  rw [h'.connfd] at hsame
  cases hsame
  rfl

theorem lowest_ne_listenfd (hstart : Starts listenfd base) : base.lowest ≠ listenfd := by
  intro heq
  have hfree := base.lookup_lowest
  rw [heq, hstart.listens] at hfree
  cases hfree

theorem Holding.serving (hstart : Starts listenfd base) {table : Table File} {c : Nat}
    (h : Holding base table base.lowest c) :
    Serving listenfd base { connfd := base.lowest, table := table } c where
  connfd := by
    dsimp only
    rw [h, if_pos rfl]
  others := by
    intro fd hfd _
    dsimp only
    rw [h, if_neg hfd]
  listen := by
    dsimp only
    rw [h, if_neg (Ne.symm (lowest_ne_listenfd hstart))]
    exact Or.inl rfl

theorem SocketInv.forks (hstart : Starts listenfd base) (h : SocketInv listenfd base s)
    {connfd : Fd} {pid : Pid} {server : Server} (hmain : s.server.main = .fork connfd)
    (hclose : server.main = .close connfd)
    (hrunning : server.running = s.server.running ++ [pid]) :
    SocketInv listenfd base { s with
      server := server
      children := Function.update s.children pid
        (some { connfd := connfd, table := s.table }) } := by
  have hparent := h.parent
  unfold ParentFiles at hparent
  rw [hmain] at hparent
  rcases hparent with ⟨rfl, c, hc, hholding⟩
  have hforking : s.forking = 1 := by
    unfold State.forking
    rw [hmain]
  have hserving := hholding.serving hstart
  -- the children that are there serve earlier connections
  have hother : forall pid' child, s.children pid' = some child ->
      ¬ Serving listenfd base child c := by
    intro pid' child hchild hsame
    rcases h.child pid' child hchild with ⟨d, hd, _, hchild⟩
    have heq := hsame.number hchild
    lia
  refine ⟨?_, ?_, ?_, ?_⟩
  · unfold ParentFiles
    dsimp only
    rw [hclose]
    exact ⟨rfl, c, hc, hholding⟩
  · intro pid' child hchild
    have hzero : State.forking { s with
        server := server
        children := Function.update s.children pid
          (some { connfd := base.lowest, table := s.table }) } = 0 := by
      unfold State.forking
      dsimp only
      rw [hclose]
    rw [hzero]
    dsimp only at hchild ⊢
    by_cases hpid : pid' = pid
    · subst hpid
      rw [Function.update_self] at hchild
      cases hchild
      exact ⟨c, by lia, rfl, hserving⟩
    · rw [Function.update_of_ne hpid] at hchild
      rcases h.child pid' child hchild with ⟨d, hd, hrest⟩
      exact ⟨d, by lia, hrest⟩
  · intro pid1 pid2 child1 child2 d h1 h2 hd1 hd2
    dsimp only at h1 h2
    by_cases hpid1 : pid1 = pid <;> by_cases hpid2 : pid2 = pid
    · rw [hpid1, hpid2]
    · subst hpid1
      rw [Function.update_self] at h1
      rw [Function.update_of_ne hpid2] at h2
      cases h1
      rw [hd1.number hserving] at hd2
      exact (hother pid2 child2 h2 hd2).elim
    · subst hpid2
      rw [Function.update_self] at h2
      rw [Function.update_of_ne hpid1] at h1
      cases h2
      rw [hd2.number hserving] at hd1
      exact (hother pid1 child1 h1 hd1).elim
    · rw [Function.update_of_ne hpid1] at h1
      rw [Function.update_of_ne hpid2] at h2
      exact h.distinct pid1 pid2 child1 child2 d h1 h2 hd1 hd2
  · intro _ pid' hpid'
    dsimp only at hpid' ⊢
    rw [hrunning]
    by_cases hpid : pid' = pid
    · subst hpid
      exact List.mem_append_right _ (List.mem_singleton.mpr rfl)
    · rw [Function.update_of_ne hpid] at hpid'
      exact List.mem_append_left _ (h.running (by rw [hmain]; simp) pid' hpid')

theorem SocketInv.parentMove (hstart : Starts listenfd base) (h : SocketInv listenfd base s)
    (hmove : ParentMove s t) : SocketInv listenfd base t := by
  have hparent := h.parent
  unfold ParentFiles at hparent
  cases hmove with
  | @accepts connfd server hmain hlowest hfork hrunning =>
      rw [hmain] at hparent
      have hbase : connfd = base.lowest := hlowest.trans (lowest_congr hparent)
      refine h.congr ?_ rfl ?_ (fun _ => ⟨by rw [hmain]; simp, hrunning⟩)
      · unfold ParentFiles
        dsimp only
        rw [hfork]
        refine ⟨hbase, s.accepted, rfl, ?_⟩
        intro k
        rw [Table.lookup_assign, hparent k]
      · unfold State.forking
        dsimp only
        rw [hfork, hmain]
        exact Nat.le_refl _
  | forks hmain _ hclose hrunning => exact h.forks hstart hmain hclose hrunning
  | @closes connfd server hmain haccept hrunning =>
      rw [hmain] at hparent
      rcases hparent with ⟨rfl, c, _, hholding⟩
      refine h.congr ?_ rfl ?_ (fun _ => ⟨by rw [hmain]; simp, hrunning⟩)
      · unfold ParentFiles
        dsimp only
        rw [haccept]
        intro k
        rw [Table.lookup_close]
        split
        · rename_i heq
          rw [heq, Table.lookup_lowest]
        · rename_i hne
          rw [hholding k, if_neg hne]
      · unfold State.forking
        dsimp only
        rw [haccept]
        exact Nat.le_add_right _ _
  | @fails server hbefore hafter hrunning =>
      have hsame : forall fd, s.table.lookup fd = base.lookup fd := by
        rcases hbefore with hmain | hmain <;> rw [hmain] at hparent <;> exact hparent
      refine h.congr ?_ rfl ?_ (fun _ => ⟨?_, hrunning⟩)
      · unfold ParentFiles
        dsimp only
        rcases hafter with hmain | hmain <;> rw [hmain] <;> exact hsame
      · unfold State.forking
        dsimp only
        rcases hafter with hmain | hmain <;> rw [hmain] <;> exact Nat.le_add_right _ _
      · rcases hbefore with hmain | hmain <;> rw [hmain] <;> simp
  | @exits server hexited =>
      refine h.congr ?_ rfl ?_ (fun hnot => (hnot hexited).elim)
      · unfold ParentFiles
        dsimp only
        rw [hexited]
      · unfold State.forking
        dsimp only
        rw [hexited]
        exact Nat.le_add_right _ _
  | @signal server hnot hsame hrunning =>
      refine h.congr ?_ rfl ?_ (fun _ => ⟨hnot, hrunning⟩)
      · unfold ParentFiles
        dsimp only
        rw [hsame]
        exact hparent
      · unfold State.forking
        apply Nat.le_of_eq
        dsimp only
        rw [hsame]

theorem Serving.childStep (hstart : Starts listenfd base) {child child' : Child} {c : Nat}
    (h : Serving listenfd base child c) (hconnfd : child.connfd = base.lowest)
    (hstep : childStep listenfd child = some child') :
    child'.connfd = base.lowest ∧ Serving listenfd base child' c := by
  have hne := lowest_ne_listenfd hstart
  unfold Serv01Sockets.childStep at hstep
  split at hstep
  · cases hstep
    refine ⟨hconnfd, ?_, ?_, ?_⟩
    · dsimp only
      rw [Table.lookup_close, if_neg (by rw [hconnfd]; exact hne)]
      exact h.connfd
    · intro fd hfd hlisten
      dsimp only
      rw [Table.lookup_close, if_neg hlisten]
      exact h.others fd hfd hlisten
    · dsimp only
      rw [Table.lookup_close, if_pos rfl]
      exact Or.inr rfl
  · cases hstep
    exact ⟨hconnfd, h.connfd, h.others, h.listen⟩
  · cases hstep

theorem SocketInv.childStep (hstart : Starts listenfd base) (h : SocketInv listenfd base s)
    {pid : Pid} {child child' : Child} (hchild : s.children pid = some child)
    (hstep : childStep listenfd child = some child') :
    SocketInv listenfd base { s with
      children := Function.update s.children pid (some child') } := by
  rcases h.child pid child hchild with ⟨c, hc, hconnfd, hserving⟩
  have hafter := hserving.childStep hstart hconnfd hstep
  -- a child serves after the step what it served before
  have hbefore : forall pid' x d, Function.update s.children pid (some child') pid' = some x ->
      Serving listenfd base x d ->
        exists y, s.children pid' = some y ∧ Serving listenfd base y d := by
    intro pid' x d hx hd
    by_cases hpid : pid' = pid
    · subst hpid
      rw [Function.update_self] at hx
      cases hx
      rw [hd.number hafter.2]
      exact ⟨child, hchild, hserving⟩
    · rw [Function.update_of_ne hpid] at hx
      exact ⟨x, hx, hd⟩
  refine ⟨h.parent, ?_, ?_, ?_⟩
  · intro pid' x hx
    dsimp only at hx
    by_cases hpid : pid' = pid
    · subst hpid
      rw [Function.update_self] at hx
      cases hx
      exact ⟨c, hc, hafter⟩
    · rw [Function.update_of_ne hpid] at hx
      exact h.child pid' x hx
  · intro pid1 pid2 x1 x2 d h1 h2 hd1 hd2
    rcases hbefore pid1 x1 d h1 hd1 with ⟨y1, hy1, hd1⟩
    rcases hbefore pid2 x2 d h2 hd2 with ⟨y2, hy2, hd2⟩
    exact h.distinct pid1 pid2 y1 y2 d hy1 hy2 hd1 hd2
  · intro hmain pid' hpid'
    dsimp only at hpid' ⊢
    by_cases hpid : pid' = pid
    · rw [hpid]
      exact h.running hmain pid (by rw [hchild]; simp)
    · rw [Function.update_of_ne hpid] at hpid'
      exact h.running hmain pid' hpid'

theorem SocketInv.dies (h : SocketInv listenfd base s) (pid : Pid) :
    SocketInv listenfd base { s with
      server := (Serv01.step s.server (.terminate pid)).getD s.server
      children := Function.update s.children pid none } := by
  have hserver : ((Serv01.step s.server (.terminate pid)).getD s.server).main = s.server.main ∧
      forall p, p ≠ pid -> p ∈ s.server.running ->
        p ∈ ((Serv01.step s.server (.terminate pid)).getD s.server).running := by
    unfold Serv01.step
    split
    · exact ⟨rfl, fun _ _ hp => hp⟩
    · dsimp only
      split
      · exact ⟨rfl, fun p hne hp => (List.mem_erase_of_ne hne).mpr hp⟩
      · exact ⟨rfl, fun _ _ hp => hp⟩
  rcases hserver with ⟨hmain, hrunning⟩
  have hold : forall p x, Function.update s.children pid none p = some x ->
      s.children p = some x := by
    intro p x hx
    by_cases hp : p = pid
    · subst hp
      rw [Function.update_self] at hx
      cases hx
    · rwa [Function.update_of_ne hp] at hx
  refine ⟨?_, ?_, ?_, ?_⟩
  · have hparent := h.parent
    unfold ParentFiles at hparent ⊢
    dsimp only
    rw [hmain]
    exact hparent
  · intro p x hx
    have hforking : State.forking { s with
        server := (Serv01.step s.server (.terminate pid)).getD s.server
        children := Function.update s.children pid none } = s.forking := by
      unfold State.forking
      dsimp only
      rw [hmain]
    rw [hforking]
    exact h.child p x (hold p x hx)
  · intro p1 p2 x1 x2 d h1 h2
    exact h.distinct p1 p2 x1 x2 d (hold p1 x1 h1) (hold p2 x2 h2)
  · intro hnot p hp
    dsimp only at hnot hp ⊢
    rw [hmain] at hnot
    have hne : p ≠ pid := by
      intro heq
      subst heq
      rw [Function.update_self] at hp
      exact hp rfl
    rw [Function.update_of_ne hne] at hp
    exact hrunning p hne (h.running hnot p hp)

theorem socketInv_step (hstart : Starts listenfd base) (h : SocketInv listenfd base s)
    {a : Action} (hstep : step listenfd s a = some t) : SocketInv listenfd base t := by
  cases a with
  | server a => exact h.parentMove hstart (parentMove_of_step hstep)
  | child pid =>
      rcases Option.bind_eq_some_iff.mp hstep with ⟨child, hchild, hrest⟩
      rcases Option.map_eq_some_iff.mp hrest with ⟨child', hone, rfl⟩
      exact h.childStep hstart hchild hone
  | dies pid =>
      simp only [step] at hstep
      split at hstep
      · cases hstep
        exact h.dies pid
      · cases hstep

theorem reachable_socketInv (hstart : Starts listenfd base)
    (h : (serv01Sockets listenfd base).Reachable s) : SocketInv listenfd base s := by
  apply System.ReachableUnder.invariant _ _ h
  · intro s hs
    rw [show s = _ from hs]
    exact socketInv_start listenfd base
  · intro s t a hinv _ hstep
    exact socketInv_step hstart hinv hstep

/-!
## Connections are given back
-/

theorem lookup_of_close {table : Table File} {fd k : Fd} {f : File}
    (h : (table.close fd).lookup k = some f) : table.lookup k = some f := by
  rw [Table.lookup_close] at h
  split at h
  · cases h
  · exact h

theorem ParentMove.open_before (hmove : ParentMove s t) {c : Nat} (hc : c < s.accepted)
    (hopen : t.Open c) : s.Open c ∧ s.accepted ≤ t.accepted := by
  cases hmove with
  | accepts =>
      refine ⟨?_, Nat.le_succ _⟩
      rcases hopen with ⟨fd, hfd⟩ | hchild
      · dsimp only at hfd
        rw [Table.lookup_assign] at hfd
        split at hfd
        · cases hfd
          exact (Nat.lt_irrefl _ hc).elim
        · exact Or.inl ⟨fd, hfd⟩
      · exact Or.inr hchild
  | @forks connfd pid server _ _ _ _ =>
      refine ⟨?_, Nat.le_refl _⟩
      rcases hopen with hparent | ⟨pid', child, fd, hchild, hfd⟩
      · exact Or.inl hparent
      · dsimp only at hchild
        by_cases hpid : pid' = pid
        · subst hpid
          rw [Function.update_self] at hchild
          cases hchild
          exact Or.inl ⟨fd, hfd⟩
        · rw [Function.update_of_ne hpid] at hchild
          exact Or.inr ⟨pid', child, fd, hchild, hfd⟩
  | closes =>
      refine ⟨?_, Nat.le_refl _⟩
      rcases hopen with ⟨fd, hfd⟩ | hchild
      · exact Or.inl ⟨fd, lookup_of_close hfd⟩
      · exact Or.inr hchild
  | exits =>
      refine ⟨?_, Nat.le_refl _⟩
      rcases hopen with ⟨fd, hfd⟩ | hchild
      · cases hfd
      · exact Or.inr hchild
  | fails | signal => exact ⟨hopen, Nat.le_refl _⟩

theorem open_before {a : Action} (hstep : step listenfd s a = some t) {c : Nat}
    (hc : c < s.accepted) : c < t.accepted ∧ (t.Open c -> s.Open c) := by
  cases a with
  | server a =>
      have hmove := parentMove_of_step hstep
      refine ⟨?_, fun hopen => (hmove.open_before hc hopen).1⟩
      cases hmove with
      | accepts => exact Nat.lt_succ_of_lt hc
      | _ => exact hc
  | child pid =>
      rcases Option.bind_eq_some_iff.mp hstep with ⟨child, hchild, hrest⟩
      rcases Option.map_eq_some_iff.mp hrest with ⟨child', hone, rfl⟩
      refine ⟨hc, ?_⟩
      intro hopen
      rcases hopen with hparent | ⟨pid', x, fd, hx, hfd⟩
      · exact Or.inl hparent
      · dsimp only at hx
        by_cases hpid : pid' = pid
        · subst hpid
          rw [Function.update_self] at hx
          cases hx
          refine Or.inr ⟨pid', child, fd, hchild, ?_⟩
          unfold Serv01Sockets.childStep at hone
          split at hone
          · cases hone
            exact lookup_of_close hfd
          · cases hone
            exact hfd
          · cases hone
        · rw [Function.update_of_ne hpid] at hx
          exact Or.inr ⟨pid', x, fd, hx, hfd⟩
  | dies pid =>
      simp only [step] at hstep
      split at hstep
      · cases hstep
        refine ⟨hc, ?_⟩
        intro hopen
        rcases hopen with hparent | ⟨pid', x, fd, hx, hfd⟩
        · exact Or.inl hparent
        · dsimp only at hx
          by_cases hpid : pid' = pid
          · subst hpid
            rw [Function.update_self] at hx
            cases hx
          · rw [Function.update_of_ne hpid] at hx
            exact Or.inr ⟨pid', x, fd, hx, hfd⟩
      · cases hstep

theorem SocketInv.child_only (hstart : Starts listenfd base) (h : SocketInv listenfd base s)
    {pid : Pid} {child : Child} (hchild : s.children pid = some child) :
    exists c, c + s.forking < s.accepted ∧ child.connfd = base.lowest ∧
      (forall fd d, child.table.lookup fd = some (.connection d) <->
        fd = child.connfd ∧ d = c) ∧
      forall pid' child' fd, s.children pid' = some child' ->
        child'.table.lookup fd = some (.connection c) -> pid' = pid := by
  rcases h.child pid child hchild with ⟨c, hc, hconnfd, hserving⟩
  refine ⟨c, hc, hconnfd, ?_, ?_⟩
  · intro fd d
    constructor
    · exact hserving.only hstart
    · intro heq
      rw [heq.1, heq.2]
      exact hserving.connfd
  · intro pid' child' fd hchild' hfd
    rcases h.child pid' child' hchild' with ⟨c', _, _, hserving'⟩
    have hsame := (hserving'.only hstart hfd).2
    rw [← hsame] at hserving'
    exact h.distinct pid' pid child' child c hchild' hchild hserving' hserving

theorem SocketInv.parent_only (hstart : Starts listenfd base) (h : SocketInv listenfd base s)
    {fd : Fd} {c : Nat} (hfd : s.table.lookup fd = some (.connection c)) :
    (s.server.main = .fork fd ∨ s.server.main = .close fd) ∧ fd = base.lowest ∧
      c + 1 = s.accepted := by
  have hparent := h.parent
  unfold ParentFiles at hparent
  split at hparent
  · rw [hparent fd] at hfd
    exact (hstart.none fd c hfd).elim
  · rw [hparent fd] at hfd
    exact (hstart.none fd c hfd).elim
  · rename_i connfd hmain
    rcases hparent with ⟨hlowest, d, hd, hholding⟩
    rcases hholding.only hstart hfd with ⟨rfl, rfl⟩
    exact ⟨Or.inl hmain, hlowest, hd⟩
  · rename_i connfd hmain
    rcases hparent with ⟨hlowest, d, hd, hholding⟩
    rcases hholding.only hstart hfd with ⟨rfl, rfl⟩
    exact ⟨Or.inr hmain, hlowest, hd⟩
  · rw [hparent] at hfd
    cases hfd

/-- The end of a child closes its connection, unless the parent is about to close it. -/
theorem SocketInv.closed_of_dies (hstart : Starts listenfd base)
    (h : SocketInv listenfd base s) {pid : Pid} {child : Child} {c : Nat}
    (hchild : s.children pid = some child)
    (hconn : child.table.lookup child.connfd = some (.connection c))
    (hparent : ¬ (s.server.main = .close child.connfd ∧ c + 1 = s.accepted))
    (hstep : step listenfd s (.dies pid) = some t) : c < t.accepted ∧ ¬ t.Open c := by
  rcases h.child_only hstart hchild with ⟨d, hd, hconnfd, hiff, honly⟩
  obtain rfl := ((hiff _ _).mp hconn).2
  simp only [step] at hstep
  split at hstep
  · cases hstep
    refine ⟨Nat.lt_of_le_of_lt (Nat.le_add_right _ _) hd, ?_⟩
    intro hopen
    rcases hopen with ⟨fd, hfd⟩ | ⟨pid', child', fd, hchild', hfd⟩
    · rcases h.parent_only hstart hfd with ⟨hfork | hclose, hfd', hlast⟩
      · unfold State.forking at hd
        rw [hfork] at hd
        dsimp only at hd
        lia
      · refine hparent ⟨?_, hlast⟩
        rw [hclose, hconnfd, hfd']
    · dsimp only at hchild'
      by_cases hpid : pid' = pid
      · subst hpid
        rw [Function.update_self] at hchild'
        cases hchild'
      · rw [Function.update_of_ne hpid] at hchild'
        exact hpid (honly pid' child' fd hchild' hfd)
  · cases hstep

/-- A child has the connection that it serves and no other; of the other processes only
the parent can have it too, which closes the connection that it accepted last and always
uses the same descriptor.  When the child ends, nobody has the connection any more, and
nobody ever gets it again. -/
theorem serv01_releases_connections (hstart : Starts listenfd base)
    (h : (serv01Sockets listenfd base).Reachable s) :
    (forall pid child, s.children pid = some child -> exists c, c < s.accepted ∧
      (forall fd d, child.table.lookup fd = some (.connection d) <->
        fd = child.connfd ∧ d = c) ∧
      forall pid' child' fd, s.children pid' = some child' ->
        child'.table.lookup fd = some (.connection c) -> pid' = pid) ∧
    (forall fd c, s.table.lookup fd = some (.connection c) ->
      (s.server.main = .fork fd ∨ s.server.main = .close fd) ∧ fd = base.lowest ∧
        c + 1 = s.accepted) ∧
    forall pid child c t schedule u, s.children pid = some child ->
      child.table.lookup child.connfd = some (.connection c) ->
      ¬ (s.server.main = .close child.connfd ∧ c + 1 = s.accepted) ->
      (serv01Sockets listenfd base).step s (.dies pid) = some t ->
      (serv01Sockets listenfd base).Run t schedule u -> ¬ u.Open c := by
  have hinv := reachable_socketInv hstart h
  refine ⟨?_, fun fd c hfd => hinv.parent_only hstart hfd, ?_⟩
  · intro pid child hchild
    rcases hinv.child_only hstart hchild with ⟨c, hc, _, hrest⟩
    exact ⟨c, by lia, hrest⟩
  · intro pid child c t schedule u hchild hconn hparent hdies hrun
    have hclosed := hinv.closed_of_dies hstart hchild hconn hparent hdies
    have hkept := hrun.invariant (fun x => c < x.accepted ∧ ¬ x.Open c) ?_ hclosed
    · exact hkept.2
    · intro x y a hx _ hstep
      rcases open_before hstep hx.1 with ⟨hlt, hbefore⟩
      exact ⟨hlt, fun hopen => hx.2 (hbefore hopen)⟩

def listening : Table File :=
  [some (.other 0), some (.other 1), some (.other 2), some .listening]

def twoClients : List Action :=
  [.server (.main (.accepted 4)), .server (.main (.forked 11)), .server (.main .go),
    .child 11, .server (.main (.accepted 4)), .server (.main (.forked 12)),
    .server (.main .go), .child 12]

theorem serv01_releases_connections_two :
    exists s t, (serv01Sockets 3 listening).Reachable s ∧ s.accepted = 2 ∧
      (s.children 12).isSome = true ∧
      (serv01Sockets 3 listening).step s (.dies 11) = some t ∧
      forall schedule u, (serv01Sockets 3 listening).Run t schedule u -> ¬ u.Open 0 := by
  have hstarts : Starts 3 listening := by
    refine ⟨rfl, ?_⟩
    intro fd c
    rcases fd with _ | _ | _ | _ | fd <;> simp [listening, Table.lookup]
  have hrun : exists s, (serv01Sockets 3 listening).Reachable s ∧
      (s.accepted = 2 ∧ s.server.main = .accept ∧ (s.children 12).isSome = true ∧
        (s.children 11).any (fun child =>
          decide (child.table.lookup child.connfd = some (.connection 0))) = true) :=
    System.reachable_of_exec twoClients rfl (by decide)
  rcases hrun with ⟨s, hreach, haccepted, hmain, hother, hserved⟩
  rcases Option.any_eq_true_iff_get _ _ |>.mp hserved with ⟨hsome, hconn⟩
  have hdies : exists t, (serv01Sockets 3 listening).step s (.dies 11) = some t :=
    ⟨_, if_pos hsome⟩
  rcases hdies with ⟨t, ht⟩
  refine ⟨s, t, hreach, haccepted, hother, ht, ?_⟩
  intro schedule u hrest
  refine (serv01_releases_connections hstarts hreach).2.2 11 _ 0 t schedule u
    (Option.some_get hsome).symm (of_decide_eq_true hconn) ?_ ht hrest
  rw [hmain]
  simp

end Serv01Sockets
end PracticeHand
