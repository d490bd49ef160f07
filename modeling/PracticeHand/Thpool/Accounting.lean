import PracticeHand.Thpool.Destroy

/-!
# Accounting at destruction

After `thpool_destroy` has cleared `threads_keepalive` a worker can start at
most the one job it was about to pull.  What is then left in the queue is freed
by `jobqueue_clear`, so at the end every accepted job has been run to completion
or was never started, and its node has been freed once.
-/

namespace PracticeHand
namespace Thpool

open Concurrency

variable {n m : Nat} {fn arg : Type}

/-!
## Jobs started after the flag is cleared
-/

def History.callsBy (h : History n fn arg) (i : Fin n) : Nat :=
  h.called.countP (fun c => c.worker = i)

/-- Past the test of the flag and before the call of a job. -/
def WorkerPc.committed : WorkerPc fn arg -> Nat
  | .workingLock => 1
  | .workingInc => 1
  | .workingUnlock => 1
  | .pull _ => 1
  | .got _ => 1
  | _ => 0

theorem UserMove.called {caller : Option Ptr} {s s' : Shared n fn arg}
    {f f' : Frame} {w : Wake Cond} (h : UserMove caller s f s' f' w) :
    s'.2.history.called = s.2.history.called := by
  cases h with
  | link hlink =>
      rcases linkJob_cases hlink with ⟨_, _, _, _, _, rfl⟩
      rfl
  | _ => rfl

theorem takeJob_called {puller : Option (Fin n)} {s s' : Shared n fn arg}
    {p : PullPc} (h : takeJob puller s = some (s', p)) :
    s'.2.history.called = s.2.history.called := by
  rcases takeJob_cases h with ⟨_, _, _, _, rfl⟩ | ⟨_, _, _, _, _, rfl⟩
  · rfl
  · rfl

theorem freeJob_called {s s' : Shared n fn arg} {job : Option Ptr}
    (h : freeJob s job = some s') :
    s'.2.history.called = s.2.history.called := by
  rcases freeJob_cases h with ⟨_, rfl⟩ | ⟨_, _, _, rfl⟩
  · rfl
  · rfl

theorem OwnerMove.called {s s' : Shared n fn arg} {l l' : OwnerPc}
    {w : Wake Cond} (h : OwnerMove s l s' l' w) :
    s'.2.history.called = s.2.history.called := by
  cases h with
  | clearTake htake => exact takeJob_called htake
  | clearFree hfree => exact freeJob_called hfree
  | _ => rfl

/-- With the flag cleared a worker can only use up its commitment. -/
theorem WorkerMove.callsBy {i : Fin n} {s s' : Shared n fn arg}
    {l l' : WorkerPc fn arg} {w : Wake Cond} (h : WorkerMove i s l s' l' w)
    (hoff : s.1.threadsKeepalive = false) :
    s'.2.history.callsBy i + l'.committed ≤ s.2.history.callsBy i + l.committed ∧
      forall j, j ≠ i -> s'.2.history.callsBy j = s.2.history.callsBy j := by
  have hkeep : forall {h' : History n fn arg},
      h'.called = s.2.history.called -> l'.committed ≤ l.committed ->
      h'.callsBy i + l'.committed ≤ s.2.history.callsBy i + l.committed ∧
        forall j, j ≠ i -> h'.callsBy j = s.2.history.callsBy j := by
    intro h' hcalled hle
    unfold History.callsBy
    rw [hcalled]
    exact ⟨Nat.add_le_add_left hle _, fun _ _ => rfl⟩
  cases h with
  | loopOn hon | checkOn hon =>
      rw [hoff] at hon
      cases hon
  | take htake => exact hkeep (takeJob_called htake) (le_refl _)
  | user hmove => exact hkeep hmove.called (le_refl _)
  | free hfree => exact hkeep (freeJob_called hfree) (le_refl _)
  | call =>
      constructor
      · simp [callJob, onPool, History.callsBy, List.countP_append,
          WorkerPc.committed]
      · intro j hj
        simp [callJob, onPool, History.callsBy, List.countP_append, Ne.symm hj]
  | _ => exact hkeep rfl (by simp [WorkerPc.committed])

theorem threadDo_syncNext_committed {i : Fin n} {l l' : WorkerPc fn arg}
    (h : (threadDo i l).syncNext = some l') : l'.committed = l.committed := by
  cases l with
  | bsem p => cases p <;> cases h <;> rfl
  | pull p =>
      cases p with
      | lock | take | unlock => cases h <;> rfl
      | post job q => cases q <;> cases h <;> rfl
  | got job => cases job <;> cases h
  | running job function arg' f =>
      cases f with
      | user => cases h
      | push | wait | pause =>
          simp only [threadDo, Instr.syncNext_map, Option.map_eq_some_iff] at h
          rcases h with ⟨f', hf', rfl⟩
          rfl
  | _ => cases h <;> rfl

theorem callsBy_step {s s' : Process n m fn arg} {a : Action n m fn arg}
    (hstep : step s a = some s') (hoff : s.flags.threadsKeepalive = false)
    (i : Fin n) :
    s'.pool.mem.history.callsBy i + (s'.pool.worker i).committed ≤
      s.pool.mem.history.callsBy i + (s.pool.worker i).committed := by
  have hsync : forall {l : WorkerPc fn arg}, l = s.pool.worker i ∨
      (threadDo i (s.pool.worker i)).syncNext = some l ->
      l.committed = (s.pool.worker i).committed := by
    intro l hcases
    rcases hcases with rfl | hnext
    · rfl
    · exact threadDo_syncNext_committed hnext
  cases shift_of_step hstep with
  | signal | spurious => exact le_refl _
  | sync _ h =>
      rw [hsync (worker_after_sync s s.shared h i)]
      exact le_refl _
  | sleep _ hwait =>
      rw [hsync (worker_after_sync s s.shared (by rw [hwait]; rfl) i)]
      exact le_refl _
  | @worker j sh next _ _ _ _ hmove _ =>
      rcases hmove.callsBy hoff with ⟨hself, hother⟩
      rw [worker_after]
      by_cases hij : i = j
      · subst hij
        rw [Function.update_self]
        exact hself
      · rw [Function.update_of_ne hij]
        exact le_of_eq (congrArg (· + _) (hother i hij))
  | client _ hmove _ =>
      have hcalled := hmove.called
      exact le_of_eq (congrArg (fun l => List.countP _ l + _) hcalled)
  | owner hmove _ =>
      have hcalled := hmove.called
      exact le_of_eq (congrArg (fun l => List.countP _ l + _) hcalled)

theorem committed_le_one (l : WorkerPc fn arg) : l.committed ≤ 1 := by
  cases l <;> simp [WorkerPc.committed]

theorem callsBy_run {s u : Process n m fn arg}
    {schedule : List (Action n m fn arg)} (hstage : StageInv s)
    (hoff : s.pool.owner.phase.keepalive = some false)
    (hrun : (thpool n m fn arg).Run s schedule u) (i : Fin n) :
    u.pool.mem.history.callsBy i ≤ s.pool.mem.history.callsBy i + 1 := by
  have hinv := hrun.invariant
    (fun x => StageInv x ∧ x.pool.owner.phase.keepalive = some false ∧
      x.pool.mem.history.callsBy i + (x.pool.worker i).committed ≤
        s.pool.mem.history.callsBy i + 1)
    (by
      intro x y a hparts _ hstep
      rcases hparts with ⟨hx, hphase, hle⟩
      exact ⟨stageInv_step hx hstep, keepaliveOff_step hstep hphase,
        le_trans (callsBy_step hstep (hx.keepalive false hphase) i) hle⟩)
    ⟨hstage, hoff, Nat.add_le_add_left (committed_le_one _) _⟩
  exact le_trans (Nat.le_add_right _ _) hinv.2.2

/-!
## What is left in the queue

A client must not add a job once the pool is being released.
-/

def Frame.links : Frame -> Bool
  | .push _ .link => true
  | _ => false

/-- No client's `jobqueue_push` section runs after the polling has ended. -/
def NoLatePush (s : Process n m fn arg) : Action n m fn arg -> Prop
  | .thread (.run (.client j) _ _) =>
      (s.pool.client j).links = true -> s.pool.owner.phase.released = false
  | _ => True

instance (s : Process n m fn arg) (a : Action n m fn arg) :
    Decidable (NoLatePush s a) :=
  match a with
  | .thread (.run (.client j) _ _) => inferInstanceAs (Decidable (
      (s.pool.client j).links = true -> s.pool.owner.phase.released = false))
  | .thread (.run (.worker _) _ _) => inferInstanceAs (Decidable True)
  | .thread (.run .owner _ _) => inferInstanceAs (Decidable True)
  | .thread (.spurious _) => inferInstanceAs (Decidable True)
  | .deliver _ => inferInstanceAs (Decidable True)
  | .hold _ => inferInstanceAs (Decidable True)

def OwnerPc.cleared : OwnerPc -> Bool
  | .clearReset _ => true
  | .freeHasJobs _ => true
  | .freeThread _ _ => true
  | .freeThreads => true
  | .freePool => true
  | .gone => true
  | _ => false

theorem OwnerPc.released_of_cleared {l : OwnerPc} (h : l.cleared = true) :
    l.phase.released = true := by
  cases l <;> first | rfl | cases h

theorem ownerCode_syncNext_cleared {l l' : OwnerPc}
    (h : (ownerCode l : Code n fn arg OwnerPc).syncNext = some l') :
    l'.cleared = false := by
  cases l with
  | postFirst total p | postRest total p => cases p <;> cases h <;> rfl
  | clearPull total p =>
      cases p with
      | lock | take | unlock => cases h <;> rfl
      | post job q => cases q <;> cases h <;> rfl
  | _ => cases h

theorem OwnerMove.cleared {s s' : Shared n fn arg} {l l' : OwnerPc}
    {w : Wake Cond} (h : OwnerMove s l s' l' w)
    (hbefore : l.cleared = true -> s.2.jobqueue.len = 0)
    (hafter : l'.cleared = true) : s'.2.jobqueue.len = 0 := by
  cases h with
  | clearEnd hlen => exact hlen
  | clearReset => rfl
  | freeHasJobs | freeThread | freeThreadEnd | freeThreads | freePool =>
      exact hbefore rfl
  | _ => cases hafter

theorem UserMove.len_of_not_links {caller : Option Ptr} {s s' : Shared n fn arg}
    {f f' : Frame} {w : Wake Cond} (h : UserMove caller s f s' f' w)
    (hlinks : f.links = false) : s'.2.jobqueue.len = s.2.jobqueue.len := by
  cases h with
  | link => cases hlinks
  | _ => rfl

structure ClearInv (s : Process n m fn arg) : Prop where
  stage : StageInv s
  countedOut : CountedOut s
  booked : s.Booked
  empty : s.pool.owner.cleared = true -> s.pool.mem.jobqueue.len = 0

theorem clearInv_initial : ClearInv (Process.initial : Process n m fn arg) where
  stage := stageInv_initial
  countedOut := by
    intro h
    cases h
  booked := booked_initial
  empty := by
    intro h
    cases h

theorem empty_step {s s' : Process n m fn arg} {a : Action n m fn arg}
    (h : ClearInv s) (hok : NoLatePush s a) (hstep : step s a = some s')
    (hafter : s'.pool.owner.cleared = true) :
    s'.pool.mem.jobqueue.len = 0 := by
  cases shift_of_step hstep with
  | signal | spurious => exact h.empty hafter
  | @sync t _ _ _ hsync =>
      cases t with
      | worker | client => exact h.empty hafter
      | owner =>
          rw [owner_after, ownerCode_syncNext_cleared hsync] at hafter
          cases hafter
  | @sleep t _ _ _ _ _ hwait =>
      cases t with
      | worker | client => exact h.empty hafter
      | owner => exact (ownerCode_not_wait hwait).elim
  | @worker i _ _ _ _ _ _ hmove _ =>
      -- a worker that is counted out makes no memory step
      exfalso
      rcases h.countedOut (OwnerPc.released_of_cleared hafter) i with hi | hi
      · rw [hi] at hmove
        cases hmove
      · rw [hi] at hmove
        cases hmove
  | @client j sh next _ _ _ _ hmove _ =>
      cases hlinks : (s.pool.client j).links with
      | false => exact (hmove.len_of_not_links hlinks).trans (h.empty hafter)
      | true =>
          exfalso
          have hmoved : next ≠ s.pool.client j := by
            generalize s.pool.client j = f at hmove hlinks
            cases hmove with
            | link => simp
            | _ => cases hlinks
          have hloc : Function.update s.pool.threads.loc (.client j) next
              (.client j) ≠ s.pool.threads.loc (.client j) := by
            rw [Function.update_self]
            exact hmoved
          rcases run_of_moved hstep hloc with ⟨c, woken, rfl⟩
          have hreleased : s.pool.owner.phase.released = true :=
            OwnerPc.released_of_cleared hafter
          rw [hok hlinks] at hreleased
          cases hreleased
  | owner hmove _ =>
      rw [owner_after] at hafter
      exact hmove.cleared h.empty hafter

theorem clearInv_step {s s' : Process n m fn arg} {a : Action n m fn arg}
    (h : ClearInv s) (hok : NoLatePush s a) (hstep : step s a = some s') :
    ClearInv s' where
  stage := stageInv_step h.stage hstep
  countedOut := countedOut_step h.stage h.countedOut hstep
  booked := by
    refine booked_step h.stage h.booked ?_ hstep
    intro total htotal
    exact h.empty (by rw [htotal]; rfl)
  empty := empty_step h hok hstep

theorem reachableUnder_clearInv {s : Process n m fn arg}
    (h : (thpool n m fn arg).ReachableUnder NoLatePush s) : ClearInv s := by
  apply System.ReachableUnder.invariant _ _ h
  · intro s hs
    rw [show s = Process.initial from hs]
    exact clearInv_initial
  · intro s t a hinv hok hstep
    exact clearInv_step hinv hok hstep

/-- With the pool gone, nobody has a job in hand and the queue is empty, so every
job is done with. -/
theorem tally_of_gone {s : Process n m fn arg} (h : ClearInv s)
    (hgone : s.pool.owner = .gone) {k : Nat}
    (hk : k < s.pool.mem.history.accepted.length) :
    s.pool.mem.history.tally k = { called := 1, finished := 1, freed := 1 } ∨
      s.pool.mem.history.tally k = { freed := 1 } := by
  rcases h.booked with ⟨l, b⟩
  have hlen := h.empty (by rw [hgone]; rfl)
  rcases b.handed_of_empty hlen hk with ⟨x, hx, rfl⟩
  rcases b.settled x hx with ⟨p, st, hp, _⟩ | hdone
  · exfalso
    cases hpuller : x.puller with
    | none =>
        rw [hpuller] at hp
        change s.pool.owner.standing.job = some (p, st) at hp
        rw [hgone] at hp
        cases hp
    | some i =>
        rw [hpuller] at hp
        change (s.pool.worker i).standing.job = some (p, st) at hp
        rcases h.countedOut (by rw [hgone]; rfl) i with hi | hi
        · rw [hi] at hp
          cases hp
        · rw [hi] at hp
          cases hp
  · rw [hdone]
    cases x.puller with
    | none => exact Or.inr rfl
    | some i => exact Or.inl rfl

/-- The accounts at destruction: each worker starts at most one job after the
flag has been cleared, no job function runs when `jobqueue_destroy` is reached,
and at the end every accepted job was run to completion or never started, and
its node was freed once. -/
theorem thpool_destroy_accounts :
    (forall (s u : Process n m fn arg) schedule i,
      (thpool n m fn arg).Reachable s ->
      s.pool.owner.phase.keepalive = some false ->
      (thpool n m fn arg).Run s schedule u ->
      u.pool.mem.history.callsBy i ≤ s.pool.mem.history.callsBy i + 1) ∧
    (forall s : Process n m fn arg, (thpool n m fn arg).Reachable s ->
      s.pool.owner.phase.released = true ->
      forall i, s.pool.worker i = .exitUnlock ∨ s.pool.worker i = .exited) ∧
    (forall s : Process n m fn arg,
      (thpool n m fn arg).ReachableUnder NoLatePush s -> s.pool.owner = .gone ->
      forall k, k < s.pool.mem.history.accepted.length ->
        s.pool.mem.history.tally k =
            { called := 1, finished := 1, freed := 1 } ∨
          s.pool.mem.history.tally k = { freed := 1 }) := by
  refine ⟨?_, ?_, ?_⟩
  · intro s u schedule i hreach hoff hrun
    exact callsBy_run (reachable_tokenInv hreach).2.1 hoff hrun i
  · intro s hreach hreleased i
    exact reachable_countedOut hreach hreleased i
  · intro s hreach hgone k hk
    exact tally_of_gone (reachableUnder_clearInv hreach) hgone hk

def destroyWithJob (i : Fin n) (j : Fin m) : List (Action n m Unit Unit) :=
  startPool i ++ callAddWork j ++ Tid.owner.chooses .destroy ++
    Tid.owner.steps 1 ++ (Tid.worker i).steps 4 ++
    Tid.owner.chooses (.clock false) ++ Tid.owner.steps 13

theorem thpool_destroy_accounts_one :
    exists s : Process 1 1 Unit Unit, s.pool.owner = .gone ∧
      s.pool.mem.history.tally 0 = { freed := 1 } := by
  have hrun : exists s, (thpool 1 1 Unit Unit).ReachableUnder NoLatePush s ∧
      (s.pool.owner = .gone ∧ 0 < s.pool.mem.history.accepted.length ∧
        s.pool.mem.history.called = []) :=
    System.reachableUnder_of_execUnder (s := Process.initial)
      (destroyWithJob 0 0) rfl (by decide)
  rcases hrun with ⟨s, hreach, hgone, hjob, hcalled⟩
  rcases thpool_destroy_accounts.2.2 s hreach hgone 0 hjob with hrun | hfreed
  · have hzero : (s.pool.mem.history.tally 0).called = 0 := by
      simp [History.tally, hcalled]
    rw [hrun] at hzero
    cases hzero
  · exact ⟨s, hgone, hfreed⟩

/-- A client links its job when `jobqueue_clear` has seen the queue empty. -/
def destroyBeforeLink (i : Fin n) (j : Fin m) : List (Action n m Unit Unit) :=
  startPool i ++ (Tid.client j).chooses (.addWork () () (some 0)) ++
    Tid.owner.chooses .destroy ++ Tid.owner.steps 1 ++
    (Tid.worker i).steps 4 ++ Tid.owner.chooses (.clock false) ++
    Tid.owner.steps 2 ++ (Tid.client j).steps 2 ++ Tid.owner.steps 6

theorem thpool_destroy_leaks_late_job :
    exists s : Process 1 1 Unit Unit, (thpool 1 1 Unit Unit).Reachable s ∧
      s.pool.owner = .gone ∧ 0 < s.pool.mem.history.accepted.length ∧
      ¬ (s.pool.mem.history.tally 0 =
            { called := 1, finished := 1, freed := 1 } ∨
          s.pool.mem.history.tally 0 = { freed := 1 }) :=
  System.reachable_of_exec (s := Process.initial) (destroyBeforeLink 0 0) rfl
    (by decide)

end Thpool
end PracticeHand
