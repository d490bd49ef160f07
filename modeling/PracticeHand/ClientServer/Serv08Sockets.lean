import PracticeHand.ClientServer.Serv08Queue
import PracticeHand.Posix.Sockets

/-!
# Connections of the prethreaded server

A descriptor that a thread has closed is used again for the next connection, while the
old number may still stand in `clifd` and in the variables of other threads.  The table
of the process is followed beside the server; `Accept` returns the lowest descriptor.

The `k`-th connection is open exactly as long as its descriptor is in the hands of
`main`, in the ring, or at the thread that has taken it.
-/

namespace PracticeHand
namespace Serv08

open Concurrency
open Posix

variable {n : Nat}

def filesStep (s : Server n) (t : Table File) : Event (Tid n) Fd -> Option (Table File)
  | .run .main connfd _ =>
      match s.main with
      | .accept =>
          if connfd = t.lowest then
            some (t.assign connfd (some (.connection s.mem.accepted.length)))
          else none
      | _ => some t
  | .run (.worker i) _ _ =>
      match s.worker i with
      | .close connfd => some (t.close connfd)
      | _ => some t
  | .spurious _ => some t

/-- `base` is the table before the first `Accept`. -/
def serv08Sockets (n : Nat) (base : Table File) :
    System (Server n × Table File) (Event (Tid n) Fd) where
  Init x := x = (Server.initial, base)
  step x e := (step x.1 e).bind fun s => (filesStep x.1 x.2 e).map fun t => (s, t)

def inHand (c : Threads (Tid n) Mutex Cond (Loc n)) (i : Fin n) : Option Fd :=
  ThreadPc.connfd (c.loc (.worker i))

/-- Thread `i` works with the `k`-th connection, the last that it has taken. -/
structure Serves (s : Shared n) (c : Threads (Tid n) Mutex Cond (Loc n)) (i : Fin n)
    (fd : Fd) (k : Nat) : Prop where
  connfd : inHand c i = some fd
  taken : s.taken[k]? = some (i, fd)
  last : forall k' fd', k < k' -> s.taken[k']? ≠ some (i, fd')

def InUse (s : Shared n) (c : Threads (Tid n) Mutex Cond (Loc n)) (fd : Fd) (k : Nat) : Prop :=
  s.taken.length ≤ k ∧ s.accepted[k]? = some fd ∨ exists i, Serves s c i fd k

section Step

variable {s s' : Shared n} {c c' : Threads (Tid n) Mutex Cond (Loc n)}
variable {base t t' : Table File}

/-!
## What a step does to the connections
-/

inductive SocketMove (s : Shared n) (c : Threads (Tid n) Mutex Cond (Loc n)) (t : Table File)
    (s' : Shared n) (c' : Threads (Tid n) Mutex Cond (Loc n)) : Table File -> Prop where
  | accepts : s'.accepted = s.accepted ++ [t.lowest] -> s'.taken = s.taken ->
      inHand c' = inHand c ->
      SocketMove s c t s' c' (t.assign t.lowest (some (.connection s.accepted.length)))
  | takes {i : Fin n} {connfd : Fd} : inHand c i = none -> s'.accepted = s.accepted ->
      s.accepted[s.taken.length]? = some connfd -> s'.taken = s.taken ++ [(i, connfd)] ->
      inHand c' = Function.update (inHand c) i (some connfd) -> SocketMove s c t s' c' t
  | closes {i : Fin n} {connfd : Fd} : inHand c i = some connfd ->
      s'.accepted = s.accepted -> s'.taken = s.taken ->
      inHand c' = Function.update (inHand c) i none -> SocketMove s c t s' c' (t.close connfd)
  /-- Nothing happens to a connection. -/
  | quiet : s'.accepted = s.accepted -> s'.taken = s.taken -> inHand c' = inHand c ->
      SocketMove s c t s' c' t

theorem inHand_main {l' : Loc n .main} {owner : Mutex -> Option (Tid n)}
    {asleep : Tid n -> Option Cond} :
    inHand { owner := owner, loc := Function.update c.loc .main l', asleep := asleep } =
      inHand c := by
  funext i
  unfold inHand
  dsimp only
  rw [Function.update_of_ne (by simp)]

theorem inHand_worker {i : Fin n} {l' : Loc n (.worker i)} {owner : Mutex -> Option (Tid n)}
    {asleep : Tid n -> Option Cond} :
    inHand { owner := owner, loc := Function.update c.loc (.worker i) l', asleep := asleep } =
      Function.update (inHand c) i (ThreadPc.connfd l') := by
  funext j
  unfold inHand
  dsimp only
  by_cases hji : j = i
  · subst hji
    rw [Function.update_self, Function.update_self]
  · rw [Function.update_of_ne (by simpa using hji), Function.update_of_ne hji]

theorem inHand_same {i : Fin n} {l' : Loc n (.worker i)} {owner : Mutex -> Option (Tid n)}
    {asleep : Tid n -> Option Cond} (h : ThreadPc.connfd l' = inHand c i) :
    inHand { owner := owner, loc := Function.update c.loc (.worker i) l', asleep := asleep } =
      inHand c := by
  rw [inHand_worker, h, Function.update_eq_self]

theorem socketMove_of_sync {u : Tid n} {next : Loc n u}
    (hnext : (serv08Code u (c.loc u)).syncNext = some next) {ch : Fd} {woken : Option (Tid n)}
    (hfiles : filesStep ⟨s, c⟩ t (.run u ch woken) = some t')
    (owner : Mutex -> Option (Tid n)) (asleep : Tid n -> Option Cond) :
    SocketMove s c t s
      { owner := owner, loc := Function.update c.loc u next, asleep := asleep } t' := by
  cases u with
  | main =>
      have hsame : t' = t := by
        simp only [filesStep, Server.main] at hfiles
        generalize c.loc .main = l at hnext hfiles
        cases l <;> cases hnext <;> cases hfiles <;> rfl
      rw [hsame]
      exact .quiet rfl rfl inHand_main
  | worker i =>
      have hsame : t' = t := by
        simp only [filesStep, Server.worker] at hfiles
        generalize c.loc (.worker i) = l at hnext hfiles
        cases l <;> cases hnext <;> cases hfiles <;> rfl
      rw [hsame]
      exact .quiet rfl rfl (inHand_same (ThreadPc.connfd_sync hnext).1)

theorem socketMove_of_main {ch : Fd} {woken : Option (Tid n)} {l' : MainPc} {w : Wake Cond}
    (hacts : (mainCode (c.loc .main)).Acts s ch s' l' w)
    (hfiles : filesStep ⟨s, c⟩ t (.run .main ch woken) = some t')
    (asleep : Tid n -> Option Cond) :
    SocketMove s c t s' { c with loc := Function.update c.loc .main l', asleep := asleep } t' := by
  simp only [filesStep, Server.main] at hfiles
  generalize c.loc .main = l at hacts hfiles
  cases l with
  | accept =>
      simp only [mainCode, Instr.acts_act] at hacts
      dsimp only at hfiles
      split at hfiles
      · rename_i hlowest
        rw [hlowest] at hacts hfiles
        cases hacts
        cases hfiles
        exact .accepts rfl rfl inHand_main
      · cases hfiles
  | make | lock | put | check | signal | unlock | quit | exited =>
      cases hfiles
      have hmove := mainMove_of_acts hacts
      cases hmove <;> exact .quiet rfl rfl inHand_main

theorem socketMove_of_worker {queued : List Fd} (hqueue : Queue s c queued) {i : Fin n} {ch : Fd}
    {woken : Option (Tid n)} {l' : ThreadPc} {w : Wake Cond}
    (hacts : (threadMain i (c.loc (.worker i))).Acts s ch s' l' w)
    (hfiles : filesStep ⟨s, c⟩ t (.run (.worker i) ch woken) = some t')
    (asleep : Tid n -> Option Cond) :
    SocketMove s c t s'
      { c with loc := Function.update c.loc (.worker i) l', asleep := asleep } t' := by
  have hmove := (threadMove_of_acts hacts).1
  have hhand : inHand c i = ThreadPc.connfd (c.loc (.worker i)) := rfl
  have hself := hqueue.thread i
  simp only [filesStep, Server.worker] at hfiles
  generalize c.loc (.worker i) = l at hmove hfiles hhand hself
  cases hmove with
  | start | empty | some =>
      cases hfiles
      exact .quiet rfl rfl (inHand_same hhand.symm)
  | take =>
      cases hfiles
      cases queued with
      | nil => exact absurd hself (lt_irrefl 0)
      | cons connfd rest =>
          have hconnfd := hqueue.ring.take.1
          refine .takes hhand rfl ?_ rfl inHand_worker
          rw [hqueue.log, List.append_assoc, List.getElem?_append_right (by simp)]
          simp [hconnfd]
  | count | webChild =>
      cases hfiles
      exact .quiet rfl rfl (inHand_same hhand.symm)
  | close connfd =>
      cases hfiles
      exact .closes hhand rfl rfl inHand_worker

theorem socketMove_of_step {s s' : Server n} {e : Event (Tid n) Fd} {t t' : Table File}
    (hqueue : exists queued, Queue s.mem s.threads queued) (hstep : step s e = some s')
    (hfiles : filesStep s t e = some t') :
    SocketMove s.mem s.threads t s'.mem s'.threads t' := by
  rcases hqueue with ⟨queued, hqueue⟩
  have hfire := fires_of_step hstep
  generalize s'.mem = mem at hfire
  generalize s'.threads = threads at hfire
  cases hfire with
  | @lock u _ _ _ next _ hinstr _ | @unlock u _ _ _ next _ hinstr _
  | @wait u _ _ _ _ next _ hinstr _ =>
      exact socketMove_of_sync (u := u) (by rw [hinstr]; rfl) hfiles _ _
  | @act u _ _ _ next w asleep _ hacts _ =>
      cases u with
      | main => exact socketMove_of_main hacts hfiles asleep
      | worker i => exact socketMove_of_worker hqueue hacts hfiles asleep
  | spurious _ =>
      cases hfiles
      exact .quiet rfl rfl rfl

/-!
## The connections that are open
-/

structure Sockets (base : Table File) (s : Shared n) (c : Threads (Tid n) Mutex Cond (Loc n))
    (t : Table File) : Prop where
  fewer : s.taken.length ≤ s.accepted.length
  serves : forall i fd, inHand c i = some fd -> exists k, Serves s c i fd k
  holds : base.Holds t (InUse s c)

theorem Serves.lt {i : Fin n} {fd : Fd} {k : Nat} (h : Serves s c i fd k) : k < s.taken.length :=
  (List.getElem?_eq_some_iff.mp h.taken).1

theorem Serves.congr {i : Fin n} {fd : Fd} {k : Nat} (htaken : s'.taken = s.taken)
    (hhand : inHand c' i = inHand c i) :
    Serves s' c' i fd k <-> Serves s c i fd k := by
  constructor
  · intro h
    exact ⟨hhand ▸ h.connfd, htaken ▸ h.taken, htaken ▸ h.last⟩
  · intro h
    exact ⟨hhand ▸ h.connfd, htaken ▸ h.taken, htaken ▸ h.last⟩

theorem serves_congr {fd : Fd} {k : Nat} (htaken : s'.taken = s.taken)
    (hhand : inHand c' = inHand c) :
    (exists i, Serves s' c' i fd k) <-> exists i, Serves s c i fd k :=
  exists_congr fun i => Serves.congr htaken (congrFun hhand i)

theorem getElem?_concat_iff {item : Type} {xs : List item} {x y : item} {k : Nat} :
    (xs ++ [x])[k]? = some y <-> xs[k]? = some y ∨ k = xs.length ∧ y = x := by
  rw [List.getElem?_append]
  split
  · rename_i hlt
    constructor
    · exact Or.inl
    · intro h
      rcases h with hold | ⟨hk, _⟩
      · exact hold
      · exact (Nat.ne_of_lt hlt hk).elim
  · rename_i hge
    have hnone : xs[k]? = none := List.getElem?_eq_none (Nat.le_of_not_lt hge)
    constructor
    · intro h
      have hk : k - xs.length < 1 := (List.getElem?_eq_some_iff.mp h).1
      have hlast : k = xs.length := by lia
      rw [hlast, Nat.sub_self] at h
      cases h
      exact Or.inr ⟨hlast, rfl⟩
    · intro h
      rcases h with hold | ⟨hk, hy⟩
      · rw [hnone] at hold
        cases hold
      · rw [hk, hy, Nat.sub_self]
        rfl

theorem serves_takes {i j : Fin n} {connfd fd : Fd} {k : Nat}
    (htaken : s'.taken = s.taken ++ [(i, connfd)])
    (hhand : inHand c' = Function.update (inHand c) i (some connfd)) :
    Serves s' c' j fd k <->
      (j = i ∧ k = s.taken.length ∧ fd = connfd) ∨ (j ≠ i ∧ Serves s c j fd k) := by
  constructor
  · intro h
    have hentry := h.taken
    rw [htaken, getElem?_concat_iff] at hentry
    by_cases hji : j = i
    · refine Or.inl ⟨hji, ?_⟩
      rcases hentry with hold | ⟨hk, hlast⟩
      · have hlt := (List.getElem?_eq_some_iff.mp hold).1
        refine (h.last s.taken.length connfd hlt ?_).elim
        rw [htaken, hji]
        exact List.getElem?_concat_length
      · cases hlast
        exact ⟨hk, rfl⟩
    · refine Or.inr ⟨hji, ?_, ?_, ?_⟩
      · have hconnfd := h.connfd
        rwa [hhand, Function.update_of_ne hji] at hconnfd
      · rcases hentry with hold | ⟨_, hlast⟩
        · exact hold
        · cases hlast
          exact (hji rfl).elim
      · intro k' fd' hlt hold
        refine h.last k' fd' hlt ?_
        rw [htaken, getElem?_concat_iff]
        exact Or.inl hold
  · intro h
    rcases h with ⟨rfl, rfl, rfl⟩ | ⟨hji, h⟩
    · refine ⟨?_, ?_, ?_⟩
      · rw [hhand, Function.update_self]
      · rw [htaken]
        exact List.getElem?_concat_length
      · intro k' fd' hlt hentry
        rw [htaken, getElem?_concat_iff] at hentry
        rcases hentry with hold | ⟨hk, _⟩
        · have hbound := (List.getElem?_eq_some_iff.mp hold).1
          lia
        · lia
    · refine ⟨?_, ?_, ?_⟩
      · rw [hhand, Function.update_of_ne hji]
        exact h.connfd
      · rw [htaken, getElem?_concat_iff]
        exact Or.inl h.taken
      · intro k' fd' hlt hentry
        rw [htaken, getElem?_concat_iff] at hentry
        rcases hentry with hold | ⟨_, hlast⟩
        · exact h.last k' fd' hlt hold
        · cases hlast
          exact hji rfl

theorem Sockets.accepts (h : Sockets base s c t) (haccepted : s'.accepted = s.accepted ++ [t.lowest])
    (htaken : s'.taken = s.taken) (hhand : inHand c' = inHand c) :
    Sockets base s' c' (t.assign t.lowest (some (.connection s.accepted.length))) where
  fewer := by
    rw [haccepted, htaken, List.length_append]
    exact Nat.le_trans h.fewer (Nat.le_add_right _ _)
  serves := by
    intro i fd hfd
    rw [hhand] at hfd
    rcases h.serves i fd hfd with ⟨k, hk⟩
    exact ⟨k, (Serves.congr htaken (congrFun hhand i)).mpr hk⟩
  holds := by
    refine (h.holds.accept s.accepted.length).congr ?_
    intro fd k
    unfold InUse
    rw [serves_congr htaken hhand, haccepted, htaken, getElem?_concat_iff]
    have hfewer := h.fewer
    constructor
    · intro hopen
      rcases hopen with ⟨hk, hold | ⟨hnew, hfd⟩⟩ | hserves
      · exact Or.inl (Or.inl ⟨hk, hold⟩)
      · exact Or.inr ⟨hfd, hnew⟩
      · exact Or.inl (Or.inr hserves)
    · intro hopen
      rcases hopen with (⟨hk, hold⟩ | hserves) | ⟨hfd, hnew⟩
      · exact Or.inl ⟨hk, Or.inl hold⟩
      · exact Or.inr hserves
      · exact Or.inl ⟨hnew ▸ hfewer, Or.inr ⟨hnew, hfd⟩⟩

theorem Sockets.takes (h : Sockets base s c t) {i : Fin n} {connfd : Fd} (hidle : inHand c i = none)
    (haccepted : s'.accepted = s.accepted) (hnext : s.accepted[s.taken.length]? = some connfd)
    (htaken : s'.taken = s.taken ++ [(i, connfd)])
    (hhand : inHand c' = Function.update (inHand c) i (some connfd)) :
    Sockets base s' c' t where
  fewer := by
    rw [haccepted, htaken, List.length_append]
    exact (List.getElem?_eq_some_iff.mp hnext).1
  serves := by
    intro j fd hfd
    by_cases hji : j = i
    · refine ⟨s.taken.length, (serves_takes htaken hhand).mpr (Or.inl ⟨hji, rfl, ?_⟩)⟩
      rw [hhand, hji, Function.update_self] at hfd
      cases hfd
      rfl
    · rw [hhand, Function.update_of_ne hji] at hfd
      rcases h.serves j fd hfd with ⟨k, hk⟩
      exact ⟨k, (serves_takes htaken hhand).mpr (Or.inr ⟨hji, hk⟩)⟩
  holds := by
    refine h.holds.congr ?_
    intro fd k
    unfold InUse
    have hserves : forall j, Serves s' c' j fd k <->
        (j = i ∧ k = s.taken.length ∧ fd = connfd) ∨ (j ≠ i ∧ Serves s c j fd k) :=
      fun j => serves_takes htaken hhand
    simp only [hserves, haccepted, htaken, List.length_append, List.length_singleton]
    constructor
    · intro hopen
      rcases hopen with ⟨hk, hold⟩ | ⟨j, ⟨rfl, rfl, rfl⟩ | ⟨_, hserves⟩⟩
      · exact Or.inl ⟨Nat.le_of_succ_le hk, hold⟩
      · exact Or.inl ⟨Nat.le_refl _, hnext⟩
      · exact Or.inr ⟨j, hserves⟩
    · intro hopen
      rcases hopen with ⟨hk, hold⟩ | ⟨j, hserves⟩
      · rcases Nat.eq_or_lt_of_le hk with heq | hlt
        · refine Or.inr ⟨i, Or.inl ⟨rfl, heq.symm, ?_⟩⟩
          rw [← heq, hnext] at hold
          cases hold
          rfl
        · exact Or.inl ⟨hlt, hold⟩
      · refine Or.inr ⟨j, Or.inr ⟨?_, hserves⟩⟩
        intro hji
        have hconnfd := hserves.connfd
        rw [hji, hidle] at hconnfd
        cases hconnfd

theorem Sockets.alone (h : Sockets base s c t) {i j : Fin n} {fd : Fd}
    (hi : inHand c i = some fd) (hj : inHand c j = some fd) : i = j := by
  rcases h.serves i fd hi with ⟨k, hk⟩
  rcases h.serves j fd hj with ⟨k', hk'⟩
  have hsame := h.holds.unique (Or.inr ⟨i, hk⟩) (Or.inr ⟨j, hk'⟩)
  have hentry := hk.taken
  rw [hsame, hk'.taken] at hentry
  cases hentry
  rfl

theorem Sockets.not_waiting (h : Sockets base s c t) {i : Fin n} {fd : Fd} {k : Nat}
    (hi : inHand c i = some fd) (hk : s.taken.length ≤ k) : s.accepted[k]? ≠ some fd := by
  intro hwaits
  rcases h.serves i fd hi with ⟨k', hk'⟩
  have hsame := h.holds.unique (Or.inl ⟨hk, hwaits⟩) (Or.inr ⟨i, hk'⟩)
  have hlt := hk'.lt
  lia

theorem Sockets.closes (h : Sockets base s c t) {i : Fin n} {connfd : Fd}
    (hconnfd : inHand c i = some connfd) (haccepted : s'.accepted = s.accepted)
    (htaken : s'.taken = s.taken) (hhand : inHand c' = Function.update (inHand c) i none) :
    Sockets base s' c' (t.close connfd) := by
  have hothers : forall j fd k, Serves s' c' j fd k <-> Serves s c j fd k ∧ fd ≠ connfd := by
    intro j fd k
    by_cases hji : j = i
    · constructor
      · intro hserves
        have hnone := hserves.connfd
        rw [hhand, hji, Function.update_self] at hnone
        cases hnone
      · intro hparts
        have hsame := hparts.1.connfd
        rw [hji, hconnfd] at hsame
        cases hsame
        exact (hparts.2 rfl).elim
    · have hsame : inHand c' j = inHand c j := by rw [hhand, Function.update_of_ne hji]
      rw [Serves.congr htaken hsame]
      refine ⟨?_, And.left⟩
      intro hserves
      refine ⟨hserves, ?_⟩
      intro heq
      rw [heq] at hserves
      exact hji (h.alone hserves.connfd hconnfd)
  refine ⟨?_, ?_, ?_⟩
  · rw [haccepted, htaken]
    exact h.fewer
  · intro j fd hfd
    by_cases hji : j = i
    · rw [hhand, hji, Function.update_self] at hfd
      cases hfd
    · rw [hhand, Function.update_of_ne hji] at hfd
      rcases h.serves j fd hfd with ⟨k, hk⟩
      refine ⟨k, (hothers j fd k).mpr ⟨hk, ?_⟩⟩
      intro heq
      rw [heq] at hfd
      exact hji (h.alone hfd hconnfd)
  · rcases h.serves i connfd hconnfd with ⟨k, hk⟩
    refine (h.holds.close (Or.inr ⟨i, hk⟩)).congr ?_
    intro fd k'
    unfold InUse
    simp only [hothers, haccepted, htaken]
    constructor
    · intro hopen
      rcases hopen with ⟨hwaits, hentry⟩ | ⟨j, hserves, hne⟩
      · refine ⟨Or.inl ⟨hwaits, hentry⟩, ?_⟩
        intro heq
        rw [heq] at hentry
        exact h.not_waiting hconnfd hwaits hentry
      · exact ⟨Or.inr ⟨j, hserves⟩, hne⟩
    · intro hopen
      rcases hopen with ⟨hwaits | ⟨j, hserves⟩, hne⟩
      · exact Or.inl hwaits
      · exact Or.inr ⟨j, hserves, hne⟩

theorem Sockets.move (h : Sockets base s c t) (hmove : SocketMove s c t s' c' t') :
    Sockets base s' c' t' := by
  cases hmove with
  | accepts haccepted htaken hhand => exact h.accepts haccepted htaken hhand
  | takes hidle haccepted hnext htaken hhand => exact h.takes hidle haccepted hnext htaken hhand
  | closes hconnfd haccepted htaken hhand => exact h.closes hconnfd haccepted htaken hhand
  | quiet haccepted htaken hhand =>
      refine ⟨?_, ?_, h.holds.congr ?_⟩
      · rw [haccepted, htaken]
        exact h.fewer
      · intro i fd hfd
        rw [hhand] at hfd
        rcases h.serves i fd hfd with ⟨k, hk⟩
        exact ⟨k, (Serves.congr htaken (congrFun hhand i)).mpr hk⟩
      · intro fd k
        unfold InUse
        rw [serves_congr htaken hhand, haccepted, htaken]

end Step

/-!
## Every run
-/

structure SocketsInv (base : Table File) (x : Server n × Table File) : Prop where
  queue : QueueInv x.1
  sockets : Sockets base x.1.mem x.1.threads x.2

theorem moves_of_socketsStep {base : Table File} {x y : Server n × Table File}
    {e : Event (Tid n) Fd} (hqueue : QueueInv x.1)
    (h : (serv08Sockets n base).step x e = some y) :
    step x.1 e = some y.1 ∧
      SocketMove x.1.mem x.1.threads x.2 y.1.mem y.1.threads y.2 := by
  rcases Option.bind_eq_some_iff.mp h with ⟨s', hstep, hrest⟩
  rcases Option.map_eq_some_iff.mp hrest with ⟨t', hfiles, rfl⟩
  exact ⟨hstep, socketMove_of_step hqueue.queue hstep hfiles⟩

theorem socketsInv_initial (base : Table File) :
    SocketsInv base ((Server.initial : Server n), base) where
  queue := queueInv_initial
  sockets := by
    refine ⟨Nat.le_refl _, ?_, (Table.Holds.start base).congr ?_⟩
    · intro i fd hfd
      cases hfd
    · intro fd k
      constructor
      · intro hopen
        rcases hopen with ⟨_, hentry⟩ | ⟨i, hserves⟩
        · cases hentry
        · cases hserves.connfd
      · exact False.elim

theorem socketsInv_step {base : Table File} {x y : Server n × Table File} {e : Event (Tid n) Fd}
    (h : SocketsInv base x) (hstep : (serv08Sockets n base).step x e = some y) :
    SocketsInv base y := by
  rcases moves_of_socketsStep h.queue hstep with ⟨hserver, hmove⟩
  exact ⟨queueInv_step h.queue hserver, h.sockets.move hmove⟩

theorem reachable_socketsInv {base : Table File} {x : Server n × Table File}
    (h : (serv08Sockets n base).Reachable x) : SocketsInv base x := by
  apply System.ReachableUnder.invariant _ _ h
  · intro x hx
    rw [show x = _ from hx]
    exact socketsInv_initial base
  · intro x y e hinv _ hstep
    exact socketsInv_step hinv hstep

theorem SocketMove.open_before {s s' : Shared n} {c c' : Threads (Tid n) Mutex Cond (Loc n)}
    {t t' : Table File} (h : SocketMove s c t s' c' t') {k : Nat} (hk : k < s.accepted.length) :
    k < s'.accepted.length ∧
      forall fd, t'.lookup fd = some (.connection k) -> t.lookup fd = some (.connection k) := by
  cases h with
  | accepts haccepted =>
      rw [haccepted, List.length_append]
      refine ⟨Nat.lt_add_right _ hk, ?_⟩
      intro fd hfd
      rw [Table.lookup_assign] at hfd
      split at hfd
      · cases hfd
        exact (Nat.lt_irrefl _ hk).elim
      · exact hfd
  | takes _ haccepted | quiet haccepted =>
      rw [haccepted]
      exact ⟨hk, fun fd hfd => hfd⟩
  | closes _ haccepted =>
      rw [haccepted]
      refine ⟨hk, ?_⟩
      intro fd hfd
      rw [Table.lookup_close] at hfd
      split at hfd
      · cases hfd
      · exact hfd

/-- A thread works with the connection that was accepted as the one that it has taken,
and alone; a connection that waits is open; no other connection is; and none that has
been closed comes back, although its descriptor does. -/
theorem serv08_keeps_connections {base : Table File}
    (hbase : forall fd c, base.lookup fd ≠ some (.connection c)) {s : Server n} {t : Table File}
    (h : (serv08Sockets n base).Reachable (s, t)) :
    (forall i fd, (s.worker i).connfd = some fd ->
      (exists k, s.mem.taken[k]? = some (i, fd) ∧ t.lookup fd = some (.connection k)) ∧
      forall j, (s.worker j).connfd = some fd -> j = i) ∧
    (forall k fd, s.mem.taken.length ≤ k -> s.mem.accepted[k]? = some fd ->
      t.lookup fd = some (.connection k) ∧ forall i, (s.worker i).connfd ≠ some fd) ∧
    (forall fd k, t.lookup fd = some (.connection k) ->
      s.mem.taken.length ≤ k ∧ s.mem.accepted[k]? = some fd ∨
        exists i, (s.worker i).connfd = some fd ∧ s.mem.taken[k]? = some (i, fd)) ∧
    (forall fd f, base.lookup fd = some f -> t.lookup fd = some f) ∧
    forall k schedule y, k < s.mem.accepted.length ->
      (forall fd, t.lookup fd ≠ some (.connection k)) ->
      (serv08Sockets n base).Run (s, t) schedule y ->
      forall fd, y.2.lookup fd ≠ some (.connection k) := by
  have hinv := reachable_socketsInv h
  have hsockets := hinv.sockets
  refine ⟨?_, ?_, ?_, fun fd f hf => hsockets.holds.base_kept hf, ?_⟩
  · intro i fd hfd
    rcases hsockets.serves i fd hfd with ⟨k, hk⟩
    refine ⟨⟨k, hk.taken, (hsockets.holds.entry fd k (Or.inr ⟨i, hk⟩)).2⟩, ?_⟩
    intro j hj
    exact hsockets.alone hj hfd
  · intro k fd hk hentry
    refine ⟨(hsockets.holds.entry fd k (Or.inl ⟨hk, hentry⟩)).2, ?_⟩
    intro i hfd
    exact hsockets.not_waiting hfd hk hentry
  · intro fd k hfd
    rcases (hsockets.holds.lookup_iff hbase).mp hfd with hwaits | ⟨i, hserves⟩
    · exact Or.inl hwaits
    · exact Or.inr ⟨i, hserves.connfd, hserves.taken⟩
  · intro k schedule y hk hclosed hrun
    have hkept := hrun.invariant (fun x => SocketsInv base x ∧ k < x.1.mem.accepted.length ∧
      forall fd, x.2.lookup fd ≠ some (.connection k)) ?_ ⟨hinv, hk, hclosed⟩
    · exact hkept.2.2
    · intro x z e hx _ hstep
      rcases hx with ⟨hx, hlt, hgone⟩
      rcases moves_of_socketsStep hx.queue hstep with ⟨_, hmove⟩
      rcases hmove.open_before hlt with ⟨hlt', hbefore⟩
      exact ⟨socketsInv_step hx hstep, hlt', fun fd hfd => hgone fd (hbefore fd hfd)⟩

def listening : Table File :=
  [some (.other 0), some (.other 1), some (.other 2), some .listening]

/-- Thread `i` has served the first connection, and the second gets its descriptor. -/
def acceptAgain (i : Fin n) : List (Event (Tid n) Fd) :=
  [.run .main 0 none, .run .main 0 none, .run .main 4 none, .run .main 0 none,
    .run .main 0 none, .run .main 0 none, .run .main 0 none, .run .main 0 none,
    .run (.worker i) 0 none, .run (.worker i) 0 none, .run (.worker i) 0 none,
    .run (.worker i) 0 none, .run (.worker i) 0 none, .run (.worker i) 0 none,
    .run (.worker i) 0 none, .run (.worker i) 0 none, .run .main 4 none]

theorem serv08_keeps_connections_two :
    exists x, (serv08Sockets 1 listening).Reachable x ∧ x.1.mem.accepted = [4, 4] ∧
      x.1.mem.taken = [(0, 4)] ∧ x.2.lookup 4 = some (.connection 1) ∧
      forall schedule y, (serv08Sockets 1 listening).Run x schedule y ->
        forall fd, y.2.lookup fd ≠ some (.connection 0) := by
  have hbase : forall fd c, listening.lookup fd ≠ some (.connection c) := by
    intro fd c
    rcases fd with _ | _ | _ | _ | fd <;> simp [listening, Table.lookup]
  have hrun : exists x, (serv08Sockets 1 listening).Reachable x ∧
      (x.1.mem.accepted = [4, 4] ∧ x.1.mem.taken = [(0, 4)] ∧
        x.2.lookup 4 = some (.connection 1) ∧ (x.1.worker 0).connfd = none) :=
    System.reachable_of_exec (acceptAgain 0) rfl (by decide)
  rcases hrun with ⟨⟨s, t⟩, hreach, haccepted, htaken, hlookup, hidle⟩
  dsimp only at haccepted htaken hidle
  rcases serv08_keeps_connections hbase hreach with ⟨_, _, hopen, _, hclosed⟩
  refine ⟨(s, t), hreach, haccepted, htaken, hlookup, ?_⟩
  intro schedule y hrest
  refine hclosed 0 schedule y (by simp [haccepted]) ?_ hrest
  intro fd hfd
  rcases hopen fd 0 hfd with ⟨hwaits, _⟩ | ⟨i, hserves, _⟩
  · simp [htaken] at hwaits
  · rw [Subsingleton.elim i 0, hidle] at hserves
    cases hserves

end Serv08
end PracticeHand
