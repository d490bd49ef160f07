import Mathlib.Data.List.Basic
import PracticeHand.Concurrency.Runs

/-!
# Failures while a pool is set up

`thpool_init` allocates the pool, its semaphore, the array of thread pointers
and one record for each thread, and starts the threads.  Here every `malloc` and
every `pthread_create` may fail.  The tests of the first three allocations undo
what has been done; the test in `thread_init` looks at the wrong pointer, and
nobody looks at the result of `pthread_create`.
-/

namespace PracticeHand
namespace Thpool
namespace Startup

open Concurrency

inductive Block where
  | pool
  | hasJobs
  | threads
  | thread (id : Nat)
  deriving DecidableEq

structure Answers where
  malloc : Block -> Bool
  create : Nat -> Bool

structure State where
  live : List Block := []
  started : List Nat := []

inductive Outcome where
  /-- `thpool_init` returns NULL -/
  | null (s : State)
  /-- a NULL pointer is dereferenced -/
  | crash
  /-- the loop `while (thpool_p->num_threads_alive != num_threads)` is reached -/
  | waiting (s : State)

def malloc (a : Answers) (b : Block) (s : State) : Option State :=
  if a.malloc b then some { s with live := b :: s.live } else none

def free (b : Block) (s : State) : State :=
  { s with live := s.live.erase b }

/-- The semaphore of the queue; -1 is `none`. -/
def jobqueueInit (a : Answers) (s : State) : Option State :=
  malloc a .hasJobs s

/-- The queue is empty, so `jobqueue_clear` frees nothing. -/
def jobqueueDestroy (s : State) : State :=
  free .hasJobs s

def pthreadCreate (a : Answers) (id : Nat) (s : State) : State :=
  if a.create id then { s with started := s.started ++ [id] } else s

/-- `thread_init`.  The test `thread_p == NULL` is about the address of the pointer
and never true; when `malloc` has failed, the next line writes through NULL, which
is `none`.  `pthread_detach` of a thread that was not created is taken to do
nothing. -/
def threadInit (a : Answers) (id : Nat) (s : State) : Option State :=
  (malloc a (.thread id) s).map (pthreadCreate a id)

/-- The loop over the threads, with `rounds` of them to go; what `thread_init`
returns is not used. -/
def initThreads (a : Answers) : Nat -> Nat -> State -> Outcome
  | 0, _, s => .waiting s
  | rounds + 1, n, s =>
      match threadInit a n s with
      | none => .crash
      | some s => initThreads a rounds (n + 1) s

def thpoolInit (a : Answers) (numThreads : Int) : Outcome :=
  match malloc a .pool {} with
  | none => .null {}
  | some s =>
      match jobqueueInit a s with
      | none => .null (free .pool s)
      | some s =>
          match malloc a .threads s with
          | none => .null (free .pool (jobqueueDestroy s))
          | some s => initThreads a numThreads.toNat 0 s

/-!
## The wait for the threads
-/

/-- `num_threads_alive`, and the started workers that have not marked themselves
alive. -/
structure Alive where
  numThreadsAlive : Nat
  unmarked : List Nat
  deriving DecidableEq

/-- Each started worker adds 1 once, under `thcount_lock`. -/
def marking (started : List Nat) : System Alive Nat where
  Init s := s = ⟨0, started⟩
  step s id :=
    if id ∈ s.unmarked then some ⟨s.numThreadsAlive + 1, s.unmarked.erase id⟩ else none

/-- The started workers can bring the counter to `n`. -/
def WaitEnds (started : List Nat) (n : Nat) : Prop :=
  exists s, (marking started).Reachable s ∧ s.numThreadsAlive = n

theorem marking_total {started : List Nat} {s : Alive} (h : (marking started).Reachable s) :
    s.numThreadsAlive + s.unmarked.length = started.length := by
  apply System.ReachableUnder.invariant _ _ h
  · intro s hs
    rw [hs]
    exact Nat.zero_add _
  · intro s t id hs _ hstep
    simp only [marking] at hstep
    split at hstep
    · rename_i hmem
      cases hstep
      have hpos := List.length_pos_of_mem hmem
      rw [List.length_erase_of_mem hmem]
      lia
    · cases hstep

theorem marking_run (started unmarked : List Nat) (alive : Nat) :
    (marking started).Run ⟨alive, unmarked⟩ unmarked ⟨alive + unmarked.length, []⟩ := by
  induction unmarked generalizing alive with
  | nil => exact System.RunUnder.nil _
  | cons id unmarked ih =>
      have hrest := ih (alive + 1)
      rw [List.length_cons, show alive + (unmarked.length + 1) =
        alive + 1 + unmarked.length by lia]
      refine System.RunUnder.cons trivial ?_ hrest
      simp [marking]

/-- The wait ends when every worker it waits for has been started. -/
theorem waitEnds_of_length {started : List Nat} {n : Nat} (h : started.length = n) :
    WaitEnds started n := by
  refine ⟨⟨0 + started.length, []⟩, ⟨⟨0, started⟩, started, rfl, ?_⟩, ?_⟩
  · exact marking_run started started 0
  · rw [← h]
    exact Nat.zero_add _

theorem le_of_waitEnds {started : List Nat} {n : Nat} (h : WaitEnds started n) :
    n ≤ started.length := by
  rcases h with ⟨s, hreach, rfl⟩
  have htotal := marking_total hreach
  lia

/-!
## When the set-up is clean
-/

/-- NULL with nothing left allocated, or `n` workers that let the wait end. -/
def Clean (n : Nat) : Outcome -> Prop
  | .null s => s.live = []
  | .crash => False
  | .waiting s => s.started.length = n ∧ WaitEnds s.started n

variable {a : Answers}

theorem initThreads_crash {rounds : Nat} : forall {n : Nat} {s : State},
    (exists k, k < rounds ∧ a.malloc (.thread (n + k)) = false) ->
    initThreads a rounds n s = .crash := by
  induction rounds with
  | zero =>
      intro n s hparts
      rcases hparts with ⟨k, hk, _⟩
      cases hk
  | succ rounds ih =>
      intro n s hparts
      rcases hparts with ⟨k, hk, hfail⟩
      rw [initThreads]
      cases k with
      | zero =>
          rw [threadInit, malloc, show n = n + 0 from rfl, hfail]
          rfl
      | succ k =>
          cases hinit : threadInit a n s with
          | none => rfl
          | some t =>
              apply ih
              exact ⟨k, by lia, by rw [show n + 1 + k = n + (k + 1) by lia]; exact hfail⟩

theorem initThreads_waiting {rounds : Nat} : forall {n : Nat} {s : State},
    (forall k, k < rounds -> a.malloc (.thread (n + k)) = true) ->
    exists t, initThreads a rounds n s = .waiting t ∧
      t.started = s.started ++ (List.range' n rounds).filter a.create := by
  induction rounds with
  | zero =>
      intro n s _
      exact ⟨s, rfl, by simp⟩
  | succ rounds ih =>
      intro n s hmalloc
      have hfirst := hmalloc 0 (Nat.succ_pos _)
      have hinit : threadInit a n s =
          some (pthreadCreate a n { s with live := .thread n :: s.live }) := by
        rw [threadInit, malloc, show n = n + 0 from rfl, hfirst]
        rfl
      obtain ⟨t, ht, hstarted⟩ := @ih (n + 1)
        (pthreadCreate a n { s with live := .thread n :: s.live }) (by
          intro k hk
          rw [show n + 1 + k = n + (k + 1) by lia]
          exact hmalloc (k + 1) (by lia))
      refine ⟨t, ?_, ?_⟩
      · rw [initThreads, hinit]
        exact ht
      · rw [hstarted, List.range'_succ, pthreadCreate]
        cases hcreate : a.create n with
        | true => simp [hcreate]
        | false => simp [hcreate]

theorem clean_initThreads_iff (n : Nat) (live : List Block) :
    Clean n (initThreads a n 0 { live := live }) <->
      forall k, k < n -> a.malloc (.thread k) = true ∧ a.create k = true := by
  by_cases hmalloc : forall k, k < n -> a.malloc (.thread k) = true
  · rcases @initThreads_waiting a n 0 { live := live } (by simpa using hmalloc) with
      ⟨t, ht, hstarted⟩
    have hlength : t.started.length = n <-> forall k, k < n -> a.create k = true := by
      rw [hstarted, List.nil_append, ← List.range_eq_range']
      constructor
      · intro h k hk
        have hall := List.length_filter_eq_length_iff.mp (h.trans List.length_range.symm)
        exact hall k (List.mem_range.mpr hk)
      · intro h
        rw [List.filter_eq_self.mpr (fun k hk => h k (List.mem_range.mp hk)), List.length_range]
    rw [ht]
    constructor
    · intro hclean k hk
      exact ⟨hmalloc k hk, hlength.mp hclean.1 k hk⟩
    · intro hall
      have hn := hlength.mpr (fun k hk => (hall k hk).2)
      exact ⟨hn, waitEnds_of_length hn⟩
  · have hcrash : initThreads a n 0 { live := live } = .crash := by
      apply initThreads_crash
      push Not at hmalloc
      rcases hmalloc with ⟨k, hk, hfail⟩
      exact ⟨k, hk, by simpa using hfail⟩
    rw [hcrash]
    constructor
    · intro hclean
      exact hclean.elim
    · intro hall
      exact absurd (fun k hk => (hall k hk).1) hmalloc

/-- The set-up is clean exactly when one of the first three allocations fails or
nothing fails. -/
theorem thpoolInit_clean_iff (a : Answers) (numThreads : Int) :
    Clean numThreads.toNat (thpoolInit a numThreads) <->
      a.malloc .pool = false ∨ a.malloc .hasJobs = false ∨ a.malloc .threads = false ∨
        forall k, k < numThreads.toNat ->
          a.malloc (.thread k) = true ∧ a.create k = true := by
  cases hpool : a.malloc .pool with
  | false => simp [thpoolInit, malloc, hpool, Clean]
  | true =>
      cases hjobs : a.malloc .hasJobs with
      | false => simp [thpoolInit, jobqueueInit, malloc, free, hpool, hjobs, Clean]
      | true =>
          cases hthreads : a.malloc .threads with
          | false =>
              simp [thpoolInit, jobqueueInit, jobqueueDestroy, malloc, free, hpool, hjobs,
                hthreads, Clean]
          | true =>
              have hinit : thpoolInit a numThreads =
                  initThreads a numThreads.toNat 0 { live := [.threads, .hasJobs, .pool] } := by
                simp [thpoolInit, jobqueueInit, malloc, hpool, hjobs, hthreads]
              rw [hinit, clean_initThreads_iff]
              simp

/-- A pool of one thread whose `pthread_create` fails waits for ever, and one whose
record cannot be allocated crashes. -/
theorem thpoolInit_not_clean :
    ¬ Clean 1 (thpoolInit ⟨fun _ => true, fun _ => false⟩ 1) ∧
    ¬ Clean 1 (thpoolInit ⟨fun b => b ≠ .thread 0, fun _ => true⟩ 1) := by
  constructor
  · intro hclean
    exact absurd (le_of_waitEnds hclean.2) (by decide)
  · intro hclean
    exact hclean

end Startup
end Thpool
end PracticeHand
