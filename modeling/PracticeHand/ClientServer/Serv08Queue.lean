import PracticeHand.ClientServer.Serv08

/-!
# The queue of the prethreaded server loses nothing

The descriptors that have been put and not yet taken are the contents of the
ring.  Equal indices stand for an empty ring everywhere but between the put that
fills the last cell and the test that follows it, and there the mutex is held,
so no thread takes a full ring for an empty one.
-/

namespace PracticeHand
namespace Serv08

open Concurrency

variable {n : Nat}

def MainPc.hand : MainPc -> List Fd
  | .lock connfd | .put connfd => [connfd]
  | _ => []

def MainPc.Queued : MainPc -> Nat -> Prop
  | .check, k => 0 < k
  | .quit, k | .exited, k => k = maxncli
  | _, k => k < maxncli

/-- What a thread knows about the number of queued descriptors. -/
def ThreadPc.Queued : ThreadPc -> Nat -> Prop
  | .take, k => 0 < k
  | _, _ => True

def ThreadPc.connfd : ThreadPc -> Option Fd
  | .unlock connfd | .count connfd | .webChild connfd | .close connfd => some connfd
  | _ => none

def ThreadPc.uncounted : ThreadPc -> Nat
  | .unlock _ | .count _ => 1
  | _ => 0

def Shared.takenBy (s : Shared n) (i : Fin n) : List Fd :=
  (s.taken.filter (fun r => r.1 = i)).map Prod.snd

structure Queue (s : Shared n) (c : Threads (Tid n) Mutex Cond (Loc n))
    (queued : List Fd) : Prop where
  log : s.accepted = s.taken.map Prod.snd ++ queued ++ MainPc.hand (c.loc .main)
  ring : s.clifd.Contents maxncli queued
  main : MainPc.Queued (c.loc .main) queued.length
  thread : forall i, ThreadPc.Queued (c.loc (.worker i)) queued.length

section Step

variable {s s' : Shared n} {c c' : Threads (Tid n) Mutex Cond (Loc n)}
variable {queued : List Fd}

theorem MainPc.queued_sync {l next : MainPc}
    (h : (mainCode l : Code n MainPc).syncNext = some next) :
    next.hand = l.hand ∧ forall k, l.Queued k -> next.Queued k := by
  cases l <;> cases h <;> exact ⟨rfl, fun _ hk => hk⟩

theorem ThreadPc.queued_sync {i : Fin n} {l next : ThreadPc}
    (h : (threadMain i l).syncNext = some next) (k : Nat) : next.Queued k := by
  cases l <;> cases h <;> exact trivial

theorem Queue.moveMain {l' : Loc n .main} {queued' : List Fd}
    (hlog : s'.accepted = s'.taken.map Prod.snd ++ queued' ++ MainPc.hand l')
    (hring : s'.clifd.Contents maxncli queued')
    (hmain : MainPc.Queued l' queued'.length)
    (hthread : forall i, ThreadPc.Queued (c.loc (.worker i)) queued'.length)
    (owner : Mutex -> Option (Tid n)) (asleep : Tid n -> Option Cond) :
    Queue s' { owner := owner
               loc := Function.update c.loc .main l'
               asleep := asleep } queued' where
  log := by
    dsimp only
    rw [Function.update_self]
    exact hlog
  ring := hring
  main := by
    dsimp only
    rw [Function.update_self]
    exact hmain
  thread := by
    intro i
    dsimp only
    rw [Function.update_of_ne (by simp)]
    exact hthread i

theorem Queue.moveThread {i : Fin n} {l' : Loc n (.worker i)} {queued' : List Fd}
    (hlog : s'.accepted =
      s'.taken.map Prod.snd ++ queued' ++ MainPc.hand (c.loc .main))
    (hring : s'.clifd.Contents maxncli queued')
    (hmain : MainPc.Queued (c.loc .main) queued'.length)
    (hself : ThreadPc.Queued l' queued'.length)
    (hothers : forall j, j ≠ i ->
      ThreadPc.Queued (c.loc (.worker j)) queued'.length)
    (owner : Mutex -> Option (Tid n)) (asleep : Tid n -> Option Cond) :
    Queue s' { owner := owner
               loc := Function.update c.loc (.worker i) l'
               asleep := asleep } queued' where
  log := by
    dsimp only
    rw [Function.update_of_ne (by simp)]
    exact hlog
  ring := hring
  main := by
    dsimp only
    rw [Function.update_of_ne (by simp)]
    exact hmain
  thread := by
    intro j
    dsimp only
    by_cases hji : j = i
    · subst hji
      rw [Function.update_self]
      exact hself
    · rw [Function.update_of_ne (by simpa using hji)]
      exact hothers j hji

theorem Queue.sync (h : Queue s c queued) {t : Tid n} {next : Loc n t}
    (hnext : (serv08Code t (c.loc t)).syncNext = some next)
    (owner : Mutex -> Option (Tid n)) (asleep : Tid n -> Option Cond) :
    Queue s { owner := owner
              loc := Function.update c.loc t next
              asleep := asleep } queued := by
  cases t with
  | main =>
      have hmain := MainPc.queued_sync hnext
      apply Queue.moveMain
      · rw [hmain.1]
        exact h.log
      · exact h.ring
      · exact hmain.2 _ h.main
      · exact h.thread
  | worker i =>
      apply Queue.moveThread
      · exact h.log
      · exact h.ring
      · exact h.main
      · exact ThreadPc.queued_sync hnext _
      · exact fun j _ => h.thread j

theorem Queue.mainAct (h : Queue s c queued) {l l' : MainPc} {w : Wake Cond}
    (hl : c.loc .main = l) (hmove : MainMove s l s' l' w)
    (asleep : Tid n -> Option Cond) :
    exists queued', Queue s'
      { c with loc := Function.update c.loc .main l', asleep := asleep } queued' := by
  have hlog := h.log
  have hmain := h.main
  rw [hl] at hlog hmain
  cases hmove with
  | made _ | allMade _ | signal | exit =>
      refine ⟨queued, ?_⟩
      apply Queue.moveMain
      · exact hlog
      · exact h.ring
      · exact hmain
      · exact h.thread
  | accept connfd =>
      refine ⟨queued, ?_⟩
      apply Queue.moveMain
      · simp only [hlog, MainPc.hand, List.append_nil]
      · exact h.ring
      · exact hmain
      · exact h.thread
  | put connfd =>
      refine ⟨queued ++ [connfd], ?_⟩
      apply Queue.moveMain
      · simpa [MainPc.hand] using hlog
      · exact h.ring.put hmain connfd
      · simp [MainPc.Queued]
      · intro i
        generalize (c.loc (.worker i) : ThreadPc) = m
        cases m with
        | take => simp [ThreadPc.Queued]
        | _ => exact trivial
  | full hmeet =>
      refine ⟨queued, ?_⟩
      apply Queue.moveMain
      · exact hlog
      · exact h.ring
      · rcases h.ring.meet_iff.mp hmeet with hempty | hfull
        · exact absurd hempty (Nat.ne_of_gt hmain)
        · exact hfull
      · exact h.thread
  | notFull hmeet =>
      refine ⟨queued, ?_⟩
      apply Queue.moveMain
      · exact hlog
      · exact h.ring
      · refine lt_of_le_of_ne h.ring.room ?_
        intro hfull
        exact hmeet (h.ring.meet_iff.mpr (Or.inr hfull))
      · exact h.thread

/-- The mutex is held at `take`, so `main` is not between its put and its test
and no other thread is about to take. -/
theorem Queue.take {i : Fin n} {connfd : Fd} {rest : List Fd}
    (h : Queue s c (connfd :: rest)) (howned : Owned Held c)
    (hl : c.loc (.worker i) = ThreadPc.take) :
    MainPc.Queued (c.loc .main) rest.length ∧
      forall j, j ≠ i -> ThreadPc.Queued (c.loc (.worker j)) rest.length := by
  have hholds : Held (.worker i) (c.loc (.worker i)) .clifdMutex := by
    rw [hl]
    exact trivial
  constructor
  · have hmain := h.main
    have hfree : ¬ MainPc.Holds (c.loc .main) .clifdMutex := by
      intro hheld
      cases howned.unique (t := .main) hheld hholds
    generalize (c.loc .main : MainPc) = m at hmain hfree ⊢
    cases m with
    | make | accept | lock => exact Nat.lt_of_succ_lt hmain
    | _ => exact (hfree trivial).elim
  · intro j hj
    have hfree : ¬ ThreadPc.Holds (c.loc (.worker j)) .clifdMutex := by
      intro hheld
      cases howned.unique (t := .worker j) hheld hholds
      exact hj rfl
    generalize (c.loc (.worker j) : ThreadPc) = m at hfree ⊢
    cases m with
    | take => exact (hfree trivial).elim
    | _ => exact trivial

theorem Queue.threadAct (h : Queue s c queued) (howned : Owned Held c)
    {i : Fin n} {l l' : ThreadPc} (hl : c.loc (.worker i) = l)
    (hmove : ThreadMove i s l s' l') (asleep : Tid n -> Option Cond) :
    exists queued', Queue s'
      { c with
        loc := Function.update c.loc (.worker i) l'
        asleep := asleep } queued' := by
  have hself := h.thread i
  rw [hl] at hself
  cases hmove with
  | start _ | empty _ | count | webChild | close =>
      refine ⟨queued, ?_⟩
      apply Queue.moveThread
      · exact h.log
      · exact h.ring
      · exact h.main
      · exact trivial
      · exact fun j _ => h.thread j
  | some hmeet =>
      refine ⟨queued, ?_⟩
      apply Queue.moveThread
      · exact h.log
      · exact h.ring
      · exact h.main
      · refine Nat.pos_of_ne_zero ?_
        intro hempty
        exact hmeet (h.ring.meet_iff.mpr (Or.inl hempty)).symm
      · exact fun j _ => h.thread j
  | take =>
      cases queued with
      | nil => exact absurd hself (lt_irrefl 0)
      | cons connfd rest =>
          have htake := h.ring.take
          rcases h.take howned hl with ⟨hmain, hothers⟩
          refine ⟨rest, ?_⟩
          apply Queue.moveThread
          · simp [h.log, htake.1]
          · exact htake.2
          · exact hmain
          · exact trivial
          · exact hothers

theorem Queue.fires (h : Queue s c queued) (howned : Owned Held c)
    {e : Event (Tid n) Fd} (hfire : Fires serv08Code s c e s' c') :
    exists queued', Queue s' c' queued' := by
  cases hfire with
  | @lock t _ _ _ next _ hinstr _ | @unlock t _ _ _ next _ hinstr _ =>
      exact ⟨queued, h.sync (t := t) (by rw [hinstr]; rfl) _ _⟩
  | @wait t _ _ _ _ next _ hinstr _ =>
      exact ⟨queued, h.sync (t := t) (by rw [hinstr]; rfl) _ _⟩
  | @act t _ _ _ next w asleep _ hacts _ =>
      cases t with
      | main => exact h.mainAct rfl (mainMove_of_acts hacts) asleep
      | worker i => exact h.threadAct howned rfl (threadMove_of_acts hacts).1 asleep
  | spurious _ => exact ⟨queued, h.log, h.ring, h.main, h.thread⟩

/-!
## What each thread has taken
-/

theorem MainMove.keeps {l l' : MainPc} {w : Wake Cond}
    (h : MainMove s l s' l' w) :
    s'.taken = s.taken ∧ s'.threadCount = s.threadCount := by
  cases h <;> exact ⟨rfl, rfl⟩

theorem ThreadMove.keeps_other {i j : Fin n} (hij : i ≠ j) {l l' : ThreadPc}
    (h : ThreadMove j s l s' l') :
    s'.takenBy i = s.takenBy i ∧ s'.threadCount i = s.threadCount i := by
  cases h with
  | take => exact ⟨by simp [Shared.takenBy, hij.symm], rfl⟩
  | count => exact ⟨rfl, Function.update_of_ne hij _ _⟩
  | _ => exact ⟨rfl, rfl⟩

theorem ThreadPc.connfd_sync {i : Fin n} {l next : ThreadPc}
    (h : (threadMain i l).syncNext = some next) :
    next.connfd = l.connfd ∧ next.uncounted = l.uncounted := by
  cases l <;> cases h <;> exact ⟨rfl, rfl⟩

structure Shared.Taken (s : Shared n) (i : Fin n) (l : ThreadPc) : Prop where
  counted : (s.takenBy i).length = s.threadCount i + l.uncounted
  last : forall connfd, l.connfd = some connfd ->
    (s.takenBy i).getLast? = some connfd

theorem Shared.Taken.move {i : Fin n} {l l' : ThreadPc} (h : s.Taken i l)
    (hmove : ThreadMove i s l s' l') : s'.Taken i l' := by
  have hcounted := h.counted
  have hlast := h.last
  cases hmove with
  | start | empty | some => exact ⟨hcounted, hlast⟩
  | take =>
      constructor
      · simpa [takenBy, ThreadPc.uncounted] using hcounted
      · intro connfd hconnfd
        cases hconnfd
        simp [takenBy]
  | count connfd =>
      constructor
      · simpa [takenBy, ThreadPc.uncounted] using hcounted
      · exact hlast
  | webChild connfd => exact ⟨hcounted, hlast⟩
  | close connfd =>
      refine ⟨hcounted, ?_⟩
      intro connfd' hconnfd
      cases hconnfd

theorem Shared.Taken.fires {i : Fin n} (h : s.Taken i (c.loc (.worker i)))
    {e : Event (Tid n) Fd} (hfire : Fires serv08Code s c e s' c') :
    s'.Taken i (c'.loc (.worker i)) := by
  have hsync : forall {t : Tid n} {next : Loc n t},
      (serv08Code t (c.loc t)).syncNext = some next ->
      s.Taken i (Function.update c.loc t next (.worker i)) := by
    intro t next hnext
    by_cases ht : Tid.worker i = t
    · subst ht
      rw [Function.update_self]
      have hkeep := ThreadPc.connfd_sync hnext
      exact ⟨by rw [hkeep.2]; exact h.counted, by rw [hkeep.1]; exact h.last⟩
    · rw [Function.update_of_ne ht]
      exact h
  cases hfire with
  | lock _ hinstr _ | unlock _ hinstr _ | wait _ hinstr _ =>
      exact hsync (by rw [hinstr]; rfl)
  | @act t _ _ _ next w asleep _ hacts _ =>
      dsimp only
      cases t with
      | main =>
          rw [Function.update_of_ne (by simp)]
          have hkeep := (mainMove_of_acts hacts).keeps
          exact ⟨by rw [takenBy, hkeep.1, hkeep.2]; exact h.counted,
            by rw [takenBy, hkeep.1]; exact h.last⟩
      | worker j =>
          have hmove := (threadMove_of_acts hacts).1
          by_cases hij : i = j
          · subst hij
            rw [Function.update_self]
            exact h.move hmove
          · rw [Function.update_of_ne (by simpa using hij)]
            have hkeep := hmove.keeps_other hij
            exact ⟨by rw [hkeep.1, hkeep.2]; exact h.counted,
              by rw [hkeep.1]; exact h.last⟩
  | spurious _ => exact h

end Step

/-!
## Every run
-/

theorem Queue.quit_iff {s s' : Server n} {queued : List Fd}
    (h : Queue s.mem s.threads queued) {e : Event (Tid n) Fd}
    (hstep : step s e = some s') :
    s.main ≠ .quit ∧ s'.main = .quit <->
      s.main = .check ∧ s'.main ≠ .check ∧ queued.length = maxncli := by
  have hmain : MainPc.Queued s.main queued.length := h.main
  rcases (fires_of_step hstep).loc_cases .main with hsame | hsync | ⟨_, w, hacts⟩
  · change s'.main = s.main at hsame
    rw [hsame]
    constructor
    · intro hquit
      exact absurd hquit.2 hquit.1
    · intro hcheck
      exact absurd hcheck.1 hcheck.2.1
  · change (mainCode s.main : Code n MainPc).syncNext = some s'.main at hsync
    generalize s'.main = l' at hsync
    generalize s.main = l at hsync
    cases l <;> cases hsync <;> simp
  · have hmove : MainMove s.mem s.main s'.mem s'.main w := mainMove_of_acts hacts
    have hmeet := h.ring.meet_iff
    generalize s'.main = l' at hmove
    generalize s'.mem = m' at hmove
    generalize s.main = l at hmove hmain
    cases hmove with
    | full hfull =>
        rcases hmeet.mp hfull with hempty | hlen
        · exact absurd hempty (Nat.ne_of_gt hmain)
        · simp [hlen]
    | notFull hroom =>
        have hlen : queued.length ≠ maxncli := fun hlen => hroom (hmeet.mpr (Or.inr hlen))
        simp [hlen]
    | _ => simp

structure QueueInv (s : Server n) : Prop where
  owned : Owned Held s.threads
  queue : exists queued, Queue s.mem s.threads queued
  taken : forall i, s.mem.Taken i (s.worker i)

theorem queueInv_initial : QueueInv (Server.initial : Server n) where
  owned := by
    intro x t
    cases t <;> simp [Server.initial, Held, MainPc.Holds, ThreadPc.Holds]
  queue := by
    have hcells : 0 < maxncli := by decide
    refine ⟨[], rfl, RingBuffer.contents_empty hcells rfl, hcells, ?_⟩
    · intro i
      exact trivial
  taken := by
    intro i
    refine ⟨rfl, ?_⟩
    intro connfd hconnfd
    cases hconnfd

theorem queueInv_step {s s' : Server n} {e : Event (Tid n) Fd}
    (h : QueueInv s) (hstep : step s e = some s') : QueueInv s' := by
  have hfire := fires_of_step hstep
  rcases h.queue with ⟨queued, hqueue⟩
  exact {
    owned := h.owned.fires serv08Code_respects hfire
    queue := hqueue.fires h.owned hfire
    taken := fun i => (h.taken i).fires hfire }

theorem reachable_queueInv {s : Server n} (h : (serv08 n).Reachable s) :
    QueueInv s := by
  apply System.ReachableUnder.invariant _ _ h
  · intro s hs
    rw [hs]
    exact queueInv_initial
  · intro s s' e hs _ hstep
    exact queueInv_step hs hstep

/-- What is accepted is taken in order, each descriptor once; what is in the
ring is what has been put and not taken; a put goes to a cell that holds none of
it; and `main` quits when the ring is full. -/
theorem serv08_lossless_fifo {s : Server n} (hreach : (serv08 n).Reachable s) :
    exists queued : List Fd,
      s.mem.accepted = s.mem.taken.map Prod.snd ++ queued ++ s.main.hand ∧
      s.mem.clifd.Contents maxncli queued ∧
      (forall i, (s.mem.takenBy i).length =
          s.mem.threadCount i + (s.worker i).uncounted ∧
        forall connfd, (s.worker i).connfd = some connfd ->
          (s.mem.takenBy i).getLast? = some connfd) ∧
      (forall connfd, s.main = .put connfd -> forall k, k < queued.length ->
        (s.mem.clifd.iget + k) % maxncli ≠ s.mem.clifd.iput) ∧
      (forall e s', (serv08 n).step s e = some s' ->
        (s.main ≠ .quit ∧ s'.main = .quit <->
          s.main = .check ∧ s'.main ≠ .check ∧ queued.length = maxncli)) := by
  have hinv := reachable_queueInv hreach
  rcases hinv.queue with ⟨queued, hqueue⟩
  refine ⟨queued, hqueue.log, hqueue.ring, ?_, ?_, ?_⟩
  · intro i
    exact ⟨(hinv.taken i).counted, (hinv.taken i).last⟩
  · intro connfd hput k hk
    have hroom : MainPc.Queued s.main queued.length := hqueue.main
    rw [hput] at hroom
    exact hqueue.ring.put_fresh hroom hk
  · intro e s' hstep
    exact hqueue.quit_iff hstep

/-- One thread `i`, which takes the first of two descriptors while `main` is about
to put the second. -/
def acceptTwo (i : Fin n) : List (Event (Tid n) Fd) :=
  [.run .main 0 none, .run .main 0 none, .run .main 7 none, .run .main 0 none,
    .run .main 0 none, .run .main 0 none, .run .main 0 none, .run .main 0 none,
    .run (.worker i) 0 none, .run (.worker i) 0 none, .run (.worker i) 0 none,
    .run (.worker i) 0 none, .run (.worker i) 0 none, .run .main 9 none,
    .run .main 0 none]

theorem serv08_lossless_fifo_two :
    exists s : Server 1,
      s.main = .put 9 ∧ s.mem.accepted = [7, 9] ∧ s.mem.taken = [(0, 7)] ∧
      exists queued : List Fd,
        s.mem.accepted = s.mem.taken.map Prod.snd ++ queued ++ s.main.hand := by
  have hrun : exists s, (serv08 1).Reachable s ∧
      (s.main = .put 9 ∧ s.mem.accepted = [7, 9] ∧ s.mem.taken = [(0, 7)]) :=
    System.reachable_of_exec (s := Server.initial) (acceptTwo 0) rfl (by decide)
  rcases hrun with ⟨s, hreach, hput, haccepted, htaken⟩
  rcases serv08_lossless_fifo hreach with ⟨queued, hlog, _⟩
  exact ⟨s, hput, haccepted, htaken, queued, hlog⟩

end Serv08
end PracticeHand
