import PracticeHand.Concurrency.Progress

/-!
# The locks around accept when children die

`child_main` of `child03.c`, `child03m.c` and `child04.c` takes the lock for `accept`.
The lock of `lock_fcntl.c` belongs to a process, and the system releases it when the
process ends; the mutex of `lock_pthread.c` lies in shared memory and stays as it is.
A child can end anywhere: `web_child` quits on a bad request, `Accept` on an error, and
any signal can kill it.  `web_child` returns when its client has closed the connection.
-/

namespace PracticeHand
namespace AcceptLock

open Concurrency

inductive Lock where
  -- lock_fcntl.c
  | fcntl
  -- lock_pthread.c
  | pthread
  deriving DecidableEq

inductive Pc where
  | lockWait
  | accept
  | lockRelease (connfd : Nat)
  | webChild (connfd : Nat)
  | close (connfd : Nat)
  | dead
  deriving DecidableEq

structure State (n : Nat) where
  child : Fin n -> Pc
  holder : Option (Fin n)
  -- connections are numbered as they come in, and wait for `accept`
  made : Nat
  pending : List Nat
  accepted : List Nat
  hungUp : List Nat

inductive Action (n : Nat) where
  | child (i : Fin n)
  | connect
  | hangsUp (connfd : Nat)
  | dies (i : Fin n)
  deriving DecidableEq

variable {n : Nat}

def State.go (s : State n) (i : Fin n) (pc : Pc) : State n :=
  { s with child := Function.update s.child i pc }

def childStep (s : State n) (i : Fin n) : Option (State n) :=
  match s.child i with
  | .lockWait =>
      if s.holder = none then some ({ s with holder := some i }.go i .accept) else none
  | .accept =>
      match s.pending with
      | [] => none
      | connfd :: rest =>
          some ({ s with
            pending := rest
            accepted := s.accepted ++ [connfd] }.go i (.lockRelease connfd))
  | .lockRelease connfd => some ({ s with holder := none }.go i (.webChild connfd))
  | .webChild connfd =>
      if connfd ∈ s.hungUp then some (s.go i (.close connfd)) else none
  | .close _ => some (s.go i .lockWait)
  | .dead => none

def Lock.survive (lock : Lock) (i : Fin n) (holder : Option (Fin n)) : Option (Fin n) :=
  match lock with
  | .fcntl => if holder = some i then none else holder
  | .pthread => holder

def step (lock : Lock) (s : State n) : Action n -> Option (State n)
  | .child i => childStep s i
  | .connect => some { s with made := s.made + 1, pending := s.pending ++ [s.made] }
  | .hangsUp connfd =>
      if connfd < s.made ∧ connfd ∉ s.hungUp then
        some { s with hungUp := connfd :: s.hungUp }
      else none
  | .dies i =>
      if s.child i = .dead then none
      else some ({ s with holder := lock.survive i s.holder }.go i .dead)

def start (n : Nat) : State n where
  child _ := .lockWait
  holder := none
  made := 0
  pending := []
  accepted := []
  hungUp := []

def locked (n : Nat) (lock : Lock) : System (State n) (Action n) where
  Init s := s = start n
  step := step lock

variable {lock : Lock} {s t u : State n}

/-!
## The invariant
-/

def Pc.holds : Pc -> Bool
  | .accept => true
  | .lockRelease _ => true
  | _ => false

/-- The child that has the lock is the one between `my_lock_wait` and `my_lock_release`,
or has ended there; no connection is lost or accepted twice. -/
structure LockInv (lock : Lock) (s : State n) : Prop where
  holder : forall i, (s.child i).holds = true -> s.holder = some i
  owner : forall i, s.holder = some i -> (s.child i).holds = true ∨
    lock = .pthread ∧ s.child i = .dead
  order : s.accepted ++ s.pending = List.range s.made

/-- A child has ended with the mutex. -/
def State.Abandoned (s : State n) : Prop :=
  exists i, s.holder = some i ∧ s.child i = .dead

@[simp] theorem go_self (i : Fin n) (pc : Pc) : (s.go i pc).child i = pc := by
  change Function.update s.child i pc i = pc
  rw [Function.update_self]

@[simp] theorem go_of_ne {i j : Fin n} {pc : Pc} (h : j ≠ i) :
    (s.go i pc).child j = s.child j := by
  change Function.update s.child i pc j = s.child j
  rw [Function.update_of_ne h]

theorem Lock.survive_other {holder : Option (Fin n)} {i j : Fin n} (h : holder = some j)
    (hji : j ≠ i) : lock.survive i holder = some j := by
  cases lock with
  | fcntl =>
      change (if holder = some i then none else holder) = some j
      rw [h, if_neg (by simpa using hji)]
  | pthread => exact h

theorem LockInv.goes (h : LockInv lock s) {i : Fin n} {pc : Pc} {pending accepted : List Nat}
    (halive : s.child i ≠ .dead) (hsame : pc.holds = (s.child i).holds)
    (horder : accepted ++ pending = List.range s.made) :
    LockInv lock ({ s with pending := pending, accepted := accepted }.go i pc) where
  holder := by
    intro j hj
    by_cases hji : j = i
    · rw [hji, go_self, hsame] at hj
      rw [hji]
      exact h.holder i hj
    · rw [go_of_ne hji] at hj
      exact h.holder j hj
  owner := by
    intro j hj
    by_cases hji : j = i
    · rw [hji, go_self, hsame]
      rw [hji] at hj
      rcases h.owner i hj with hholds | hdead
      · exact Or.inl hholds
      · exact (halive hdead.2).elim
    · rw [go_of_ne hji]
      exact h.owner j hj
  order := horder

theorem LockInv.takes (h : LockInv lock s) {i : Fin n} (hfree : s.holder = none) :
    LockInv lock ({ s with holder := some i }.go i .accept) where
  holder := by
    intro j hj
    by_cases hji : j = i
    · rw [hji]
      rfl
    · rw [go_of_ne hji] at hj
      have hheld := h.holder j hj
      rw [hfree] at hheld
      cases hheld
  owner := by
    intro j hj
    cases hj
    rw [go_self]
    exact Or.inl rfl
  order := h.order

theorem LockInv.releases (h : LockInv lock s) {i : Fin n} {connfd : Nat}
    (hpc : s.child i = .lockRelease connfd) :
    LockInv lock ({ s with holder := none }.go i (.webChild connfd)) where
  holder := by
    intro j hj
    by_cases hji : j = i
    · rw [hji, go_self] at hj
      cases hj
    · rw [go_of_ne hji] at hj
      have hheld := h.holder j hj
      rw [h.holder i (by rw [hpc]; rfl)] at hheld
      cases hheld
      exact (hji rfl).elim
  owner := by
    intro j hj
    cases hj
  order := h.order

theorem LockInv.dies (h : LockInv lock s) (i : Fin n) :
    LockInv lock ({ s with holder := lock.survive i s.holder }.go i .dead) where
  holder := by
    intro j hj
    by_cases hji : j = i
    · rw [hji, go_self] at hj
      cases hj
    · rw [go_of_ne hji] at hj
      exact Lock.survive_other (h.holder j hj) hji
  owner := by
    intro j hj
    cases lock with
    | fcntl =>
        change (if s.holder = some i then none else s.holder) = some j at hj
        split at hj
        · cases hj
        · rename_i hother
          have hji : j ≠ i := by
            intro heq
            rw [heq] at hj
            exact hother hj
          rw [go_of_ne hji]
          exact h.owner j hj
    | pthread =>
        by_cases hji : j = i
        · rw [hji, go_self]
          exact Or.inr ⟨rfl, rfl⟩
        · rw [go_of_ne hji]
          exact h.owner j hj
  order := h.order

/-!
## What a step of a child can do
-/

inductive ChildMove (s : State n) (i : Fin n) : State n -> Prop where
  | takes : s.child i = .lockWait -> s.holder = none ->
      ChildMove s i ({ s with holder := some i }.go i .accept)
  | accepts {connfd : Nat} {rest : List Nat} : s.child i = .accept ->
      s.pending = connfd :: rest ->
      ChildMove s i ({ s with
        pending := rest
        accepted := s.accepted ++ [connfd] }.go i (.lockRelease connfd))
  | releases {connfd : Nat} : s.child i = .lockRelease connfd ->
      ChildMove s i ({ s with holder := none }.go i (.webChild connfd))
  | serves {connfd : Nat} : s.child i = .webChild connfd -> connfd ∈ s.hungUp ->
      ChildMove s i (s.go i (.close connfd))
  | closes {connfd : Nat} : s.child i = .close connfd -> ChildMove s i (s.go i .lockWait)

theorem childMove_of_step {i : Fin n} (h : childStep s i = some t) : ChildMove s i t := by
  unfold childStep at h
  split at h
  · rename_i hpc
    split at h
    · rename_i hfree
      cases h
      exact .takes hpc hfree
    · cases h
  · rename_i hpc
    split at h
    · cases h
    · rename_i hpending
      cases h
      exact .accepts hpc hpending
  · rename_i hpc
    cases h
    exact .releases hpc
  · rename_i hpc
    split at h
    · rename_i hhungUp
      cases h
      exact .serves hpc hhungUp
    · cases h
  · rename_i hpc
    cases h
    exact .closes hpc
  · cases h

theorem LockInv.childMove (h : LockInv lock s) {i : Fin n} (hmove : ChildMove s i t) :
    LockInv lock t := by
  cases hmove with
  | takes _ hfree => exact h.takes hfree
  | accepts hpc hpending =>
      refine h.goes (by rw [hpc]; simp) (by rw [hpc]; rfl) ?_
      have horder := h.order
      rw [hpending] at horder
      rw [List.append_assoc]
      exact horder
  | releases hpc => exact h.releases hpc
  | serves hpc _ => exact h.goes (by rw [hpc]; simp) (by rw [hpc]; rfl) h.order
  | closes hpc => exact h.goes (by rw [hpc]; simp) (by rw [hpc]; rfl) h.order

theorem LockInv.step (h : LockInv lock s) {a : Action n} (hstep : AcceptLock.step lock s a = some t) :
    LockInv lock t := by
  cases a with
  | child i => exact h.childMove (childMove_of_step hstep)
  | connect =>
      cases hstep
      refine ⟨h.holder, h.owner, ?_⟩
      dsimp only
      rw [← List.append_assoc, h.order, List.range_succ]
  | hangsUp connfd =>
      simp only [AcceptLock.step] at hstep
      split at hstep
      · cases hstep
        exact ⟨h.holder, h.owner, h.order⟩
      · cases hstep
  | dies i =>
      simp only [AcceptLock.step] at hstep
      split at hstep
      · cases hstep
      · cases hstep
        exact h.dies i

theorem reachable_lockInv (h : (locked n lock).Reachable s) : LockInv lock s := by
  apply System.ReachableUnder.invariant _ _ h
  · intro s hs
    rw [show s = start n from hs]
    refine ⟨?_, ?_, rfl⟩
    · intro i hi
      cases hi
    · intro i hi
      cases hi
  · intro s t a hinv _ hstep
    exact hinv.step hstep

/-!
## A mutex that nobody can release
-/

theorem LockInv.abandoned_step (h : LockInv lock s) (habandoned : s.Abandoned)
    {a : Action n} (hstep : AcceptLock.step lock s a = some t) :
    t.Abandoned ∧ t.accepted = s.accepted := by
  rcases habandoned with ⟨j, hheld, hdead⟩
  have hothers : forall i, (s.child i).holds = true -> i = j := by
    intro i hi
    have hsame := h.holder i hi
    rw [hheld] at hsame
    cases hsame
    rfl
  have hnobody : forall i, (s.child i).holds = false := by
    intro i
    rw [Bool.eq_false_iff]
    intro hi
    rw [hothers i hi, hdead] at hi
    cases hi
  cases a with
  | child i =>
      have hmove := childMove_of_step hstep
      have hne : s.child i ≠ .dead -> j ≠ i := by
        intro halive heq
        rw [← heq] at halive
        exact halive hdead
      have hno := hnobody i
      cases hmove with
      | takes _ hfree =>
          rw [hheld] at hfree
          cases hfree
      | accepts hpc | releases hpc =>
          rw [hpc] at hno
          cases hno
      | serves hpc | closes hpc =>
          refine ⟨⟨j, hheld, ?_⟩, rfl⟩
          rw [go_of_ne (hne (by rw [hpc]; simp))]
          exact hdead
  | connect =>
      cases hstep
      exact ⟨⟨j, hheld, hdead⟩, rfl⟩
  | hangsUp connfd =>
      simp only [AcceptLock.step] at hstep
      split at hstep
      · cases hstep
        exact ⟨⟨j, hheld, hdead⟩, rfl⟩
      · cases hstep
  | dies i =>
      simp only [AcceptLock.step] at hstep
      split at hstep
      · cases hstep
      · rename_i halive
        cases hstep
        have hji : j ≠ i := by
          intro heq
          rw [← heq] at halive
          exact halive hdead
        refine ⟨⟨j, Lock.survive_other hheld hji, ?_⟩, rfl⟩
        rw [go_of_ne hji]
        exact hdead

/-!
## A lock that is released
-/

def Works (_s : State n) (a : Action n) : Prop :=
  exists i, a = .child i

def Pc.left : Pc -> Nat
  | .lockRelease _ => 4
  | .webChild _ => 3
  | .close _ => 2
  | .lockWait => 1
  | _ => 0

def State.left (s : State n) : Nat :=
  Finset.univ.sum (fun i => (s.child i).left) + 5 * s.pending.length

theorem left_go (i : Fin n) (pc : Pc) :
    (s.go i pc).left + (s.child i).left = s.left + pc.left := by
  have hsum := sum_update Pc.left s.child i pc
  simp only [State.left, State.go]
  lia

theorem left_le (s : State n) : s.left ≤ 4 * n + 5 * s.pending.length := by
  have hone : forall i, i ∈ Finset.univ -> (s.child i).left ≤ 4 := by
    intro i _
    unfold Pc.left
    split <;> lia
  have hsum := Finset.sum_le_card_nsmul Finset.univ (fun i => (s.child i).left) 4 hone
  rw [Finset.card_univ, Fintype.card_fin] at hsum
  change _ ≤ n * 4 at hsum
  unfold State.left
  lia

theorem ChildMove.left_lt {i : Fin n} (h : ChildMove s i t) : t.left < s.left := by
  cases h with
  | takes hpc _ =>
      have hgo := @left_go n { s with holder := some i } i .accept
      simp only [hpc, Pc.left] at hgo
      exact Nat.lt_of_succ_le (Nat.le_of_eq hgo)
  | @accepts connfd rest hpc hpending =>
      have hgo := @left_go n { s with pending := rest, accepted := s.accepted ++ [connfd] } i
        (.lockRelease connfd)
      simp only [hpc, Pc.left] at hgo
      rw [Nat.add_zero] at hgo
      rw [hgo]
      simp only [State.left, hpending, List.length_cons]
      lia
  | @releases connfd hpc =>
      have hgo := @left_go n { s with holder := none } i (.webChild connfd)
      simp only [hpc, Pc.left] at hgo
      change _ < State.left { s with holder := none }
      lia
  | @serves connfd hpc _ =>
      have hgo := @left_go n s i (.close connfd)
      simp only [hpc, Pc.left] at hgo
      lia
  | closes hpc =>
      have hgo := @left_go n s i .lockWait
      simp only [hpc, Pc.left] at hgo
      lia

/-- What holds while children go on: somebody is alive, and the lock can be released. -/
structure Serving (lock : Lock) (s : State n) : Prop where
  inv : LockInv lock s
  kept : ¬ s.Abandoned
  alive : exists i, s.child i ≠ .dead

theorem ChildMove.alive {i : Fin n} (h : ChildMove s i t) :
    s.child i ≠ .dead ∧ t.child i ≠ .dead ∧ forall j, j ≠ i -> t.child j = s.child j := by
  cases h with
  | takes hpc | accepts hpc | releases hpc | serves hpc | closes hpc =>
      refine ⟨by rw [hpc]; simp, by rw [go_self]; simp, ?_⟩
      intro j hj
      rw [go_of_ne hj]

theorem Serving.childMove (h : Serving lock s) {i : Fin n} (hmove : ChildMove s i t) :
    Serving lock t where
  inv := h.inv.childMove hmove
  kept := by
    intro habandoned
    rcases habandoned with ⟨j, hheld, hdead⟩
    rcases hmove.alive with ⟨_, hi, hothers⟩
    have hji : j ≠ i := by
      intro heq
      rw [heq] at hdead
      exact hi hdead
    rw [hothers j hji] at hdead
    refine h.kept ⟨j, ?_, hdead⟩
    cases hmove with
    | takes =>
        cases hheld
        exact (hji rfl).elim
    | releases => cases hheld
    | accepts | serves | closes => exact hheld
  alive := ⟨i, hmove.alive.2.1⟩

/-- The child is in `web_child` and its client has not closed the connection. -/
def State.Attending (s : State n) (i : Fin n) : Prop :=
  exists connfd, s.child i = .webChild connfd ∧ connfd ∉ s.hungUp

/-- Children that cannot go on have nothing to accept, or clients to attend to. -/
theorem Serving.idle_of_stuck (h : Serving lock s) (hstuck : forall i, childStep s i = none) :
    s.pending = [] ∨ forall i, s.child i ≠ .dead -> s.Attending i := by
  by_cases hpending : s.pending = []
  · exact Or.inl hpending
  have hbusy : forall i, s.child i = .lockWait ∨ s.Attending i ∨ s.child i = .dead := by
    intro i
    have hgo := hstuck i
    unfold childStep at hgo
    split at hgo
    · rename_i hpc
      exact Or.inl hpc
    · split at hgo
      · rename_i hnone
        exact (hpending hnone).elim
      · cases hgo
    · cases hgo
    · rename_i connfd hpc
      split at hgo
      · cases hgo
      · rename_i hopen
        exact Or.inr (Or.inl ⟨connfd, hpc, hopen⟩)
    · cases hgo
    · rename_i hpc
      exact Or.inr (Or.inr hpc)
  refine Or.inr fun i halive => ?_
  rcases hbusy i with hpc | hattends | hdead
  · -- whoever has the lock could go on
    exfalso
    have hgo := hstuck i
    simp only [childStep, hpc] at hgo
    split at hgo
    · cases hgo
    · rename_i hheld
      rcases Option.ne_none_iff_exists'.mp hheld with ⟨j, hj⟩
      rcases h.inv.owner j hj with hholds | hdead
      · rcases hbusy j with hpc | ⟨connfd, hpc, _⟩ | hpc
        all_goals
          rw [hpc] at hholds
          cases hholds
      · exact h.kept ⟨j, hj, hdead.2⟩
  · exact hattends
  · exact (halive hdead).elim

/-- With the file lock the children that are left accept whatever comes in, wherever the
others have ended, unless clients that stay keep them all in `web_child`; with the mutex
they do so exactly until one of them has ended with it. -/
theorem accept_survives (h : (locked n lock).Reachable s) :
    (forall i j, (s.child i).holds = true -> (s.child j).holds = true -> i = j) ∧
    s.accepted ++ s.pending = List.range s.made ∧
    (lock = .fcntl -> ¬ s.Abandoned) ∧
    (s.Abandoned -> forall schedule u, (locked n lock).Run s schedule u ->
      u.accepted = s.accepted) ∧
    (¬ s.Abandoned -> (exists i, s.child i ≠ .dead) -> forall schedule u,
      (locked n lock).RunUnder Works s schedule u ->
        schedule.length ≤ 4 * n + 5 * s.pending.length ∧
        ((forall i, childStep u i = none) -> u.pending = [] ∨
          forall i, u.child i ≠ .dead -> u.Attending i)) := by
  have hinv := reachable_lockInv h
  refine ⟨?_, hinv.order, ?_, ?_, ?_⟩
  · intro i j hi hj
    have hsame := hinv.holder i hi
    rw [hinv.holder j hj] at hsame
    cases hsame
    rfl
  · intro hlock habandoned
    rcases habandoned with ⟨i, hheld, hdead⟩
    rcases hinv.owner i hheld with hholds | hpthread
    · rw [hdead] at hholds
      cases hholds
    · rw [hlock] at hpthread
      cases hpthread.1
  · intro habandoned schedule u hrun
    have hkept := hrun.invariant
      (fun x => (LockInv lock x ∧ x.Abandoned) ∧ x.accepted = s.accepted) ?_
      ⟨⟨hinv, habandoned⟩, rfl⟩
    · exact hkept.2
    · intro x y a hx _ hstep
      rcases hx.1.1.abandoned_step hx.1.2 hstep with ⟨hy, hsame⟩
      exact ⟨⟨hx.1.1.step hstep, hy⟩, hsame.trans hx.2⟩
  · intro hkept halive schedule u hrun
    have hstep : forall {x y : State n} {a : Action n}, Serving lock x -> Works x a ->
        (locked n lock).step x a = some y -> Serving lock y ∧ y.left < x.left := by
      intro x y a hx hworks hone
      rcases hworks with ⟨i, rfl⟩
      have hmove := childMove_of_step hone
      exact ⟨hx.childMove hmove, hmove.left_lt⟩
    have hserving : Serving lock s := ⟨hinv, hkept, halive⟩
    constructor
    · have hlength := hrun.length_le State.left hstep hserving
      have hleft := left_le s
      lia
    · intro hstuck
      have hu := hrun.invariant (Serving lock)
        (fun hx hworks hone => (hstep hx hworks hone).1) hserving
      exact hu.idle_of_stuck hstuck

def endsWithLock : List (Action 2) :=
  [.child 0, .connect, .dies 0]

theorem accept_survives_two :
    (exists s, (locked 2 .pthread).Reachable s ∧ s.child 1 = .lockWait ∧ s.pending = [0] ∧
      forall schedule u, (locked 2 .pthread).Run s schedule u -> u.accepted = []) ∧
    exists s, (locked 2 .fcntl).Reachable s ∧ s.child 1 = .lockWait ∧ s.pending = [0] ∧
      forall schedule u, (locked 2 .fcntl).RunUnder Works s schedule u ->
        (forall i, childStep u i = none) -> u.pending = [] ∨
          forall i, u.child i ≠ .dead -> u.Attending i := by
  constructor
  · have hrun : exists s, (locked 2 .pthread).Reachable s ∧
        (s.child 1 = .lockWait ∧ s.pending = [0] ∧ s.accepted = [] ∧ s.holder = some 0 ∧
          s.child 0 = .dead) :=
      System.reachable_of_exec endsWithLock rfl (by decide)
    rcases hrun with ⟨s, hreach, hleft, hpending, haccepted, hheld, hdead⟩
    refine ⟨s, hreach, hleft, hpending, ?_⟩
    intro schedule u hrest
    rw [← haccepted]
    exact (accept_survives hreach).2.2.2.1 ⟨0, hheld, hdead⟩ schedule u hrest
  · have hrun : exists s, (locked 2 .fcntl).Reachable s ∧
        (s.child 1 = .lockWait ∧ s.pending = [0]) :=
      System.reachable_of_exec endsWithLock rfl (by decide)
    rcases hrun with ⟨s, hreach, hleft, hpending⟩
    refine ⟨s, hreach, hleft, hpending, ?_⟩
    intro schedule u hrest
    rcases accept_survives hreach with ⟨_, _, hkept, _, hserves⟩
    exact (hserves (hkept rfl) ⟨1, by rw [hleft]; simp⟩ schedule u hrest).2

end AcceptLock
end PracticeHand
