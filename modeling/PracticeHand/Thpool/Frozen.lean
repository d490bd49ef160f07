import PracticeHand.Thpool.Accounting
import PracticeHand.Thpool.Pause

/-!
# A paused pool stands still

When every worker has come to the loop of `thread_hold`, no worker moves until
`thpool_resume` is called, whatever the other threads do: no job starts or ends, and
a call of `thpool_destroy` stays in its polling loops, since the workers stay counted.
-/

namespace PracticeHand
namespace Thpool

open Concurrency

variable {n m : Nat} {fn arg : Type}

def Choice.resumes : Choice fn arg -> Bool
  | .resume => true
  | _ => false

def NotResumed (_s : Process n m fn arg) : Action n m fn arg -> Prop
  | .thread (.run _ c _) => c.resumes = false
  | _ => True

instance (s : Process n m fn arg) (a : Action n m fn arg) : Decidable (NotResumed s a) :=
  match a with
  | .thread (.run _ c _) => inferInstanceAs (Decidable (c.resumes = false))
  | .thread (.spurious _) => inferInstanceAs (Decidable True)
  | .deliver _ => inferInstanceAs (Decidable True)
  | .hold _ => inferInstanceAs (Decidable True)

/-- All workers are in the loop of `thread_hold`, and its flag is set. -/
structure Frozen (s : Process n m fn arg) : Prop where
  onHold : s.flags.threadsOnHold = true
  held : forall i, s.pool.hold i = some .loop
  returned : s.pool.owner.initReturned = true

/-- What the workers do to jobs is as before. -/
structure SameWork (h h' : History n fn arg) : Prop where
  called : h'.called = h.called
  finished : h'.finished = h.finished

structure SameQueueing (h h' : History n fn arg) : Prop where
  handed : h'.handed = h.handed
  freed : h'.freed = h.freed

/-!
## Steps of the other threads
-/

theorem UserMove.sameWork {caller : Option Ptr} {s s' : Shared n fn arg} {f f' : Frame}
    {w : Wake Cond} (h : UserMove caller s f s' f' w) :
    SameWork s.2.history s'.2.history ∧ SameQueueing s.2.history s'.2.history := by
  cases h with
  | link hlink =>
      rcases linkJob_cases hlink with ⟨_, _, _, _, _, rfl⟩
      exact ⟨⟨rfl, rfl⟩, ⟨rfl, rfl⟩⟩
  | _ => exact ⟨⟨rfl, rfl⟩, ⟨rfl, rfl⟩⟩

theorem UserMove.flags {caller : Option Ptr} {s s' : Shared n fn arg} {f f' : Frame}
    {w : Wake Cond} (h : UserMove caller s f s' f' w) (hf : f ≠ .user) : s'.1 = s.1 := by
  cases h with
  | link hlink =>
      rcases linkJob_cases hlink with ⟨_, _, _, _, _, rfl⟩
      rfl
  | refused | alloc | waitCall | pauseCall | resume => exact (hf rfl).elim
  | _ => rfl

theorem flags_of_userCode {caller : Option Ptr} {s s' : Shared n fn arg} {c : Choice fn arg}
    {f f' : Frame} {w : Wake Cond} (h : (userCode caller f).Acts s c s' f' w)
    (hc : c.resumes = false) : s'.1 = s.1 := by
  by_cases hf : f = .user
  · subst hf
    rw [userCode, Instr.acts_act] at h
    rcases Option.map_eq_some_iff.mp h with ⟨⟨s1, f1⟩, hcall, heq⟩
    cases heq
    cases c with
    | addWork function arg' addr =>
        cases addr with
        | none =>
            cases hcall
            rfl
        | some p =>
            simp only [apiCall, thpoolAddWork] at hcall
            split at hcall
            · cases hcall
              rfl
            · cases hcall
    | wait | pause =>
        cases hcall
        rfl
    | resume => cases hc
    | go | ret | clock | destroy => cases hcall
  · exact (userMove_of_acts h).flags hf

theorem OwnerMove.frozen {s s' : Shared n fn arg} {l l' : OwnerPc} {w : Wake Cond}
    (h : OwnerMove s l s' l' w) (hreturned : l.initReturned = true) :
    s'.1.threadsOnHold = s.1.threadsOnHold ∧ l'.initReturned = true ∧
      SameWork s.2.history s'.2.history := by
  cases h with
  | initHold | initKeepalive | initAlloc | create | allCreated | spin | allAlive =>
      cases hreturned
  | clearTake htake =>
      rcases takeJob_cases htake with ⟨_, _, _, _, rfl⟩ | ⟨_, _, _, _, _, rfl⟩
      · exact ⟨rfl, rfl, rfl, rfl⟩
      · exact ⟨rfl, rfl, rfl, rfl⟩
  | clearFree hfree =>
      rcases freeJob_cases hfree with ⟨_, rfl⟩ | ⟨_, _, _, rfl⟩
      · exact ⟨rfl, rfl, rfl, rfl⟩
      · exact ⟨rfl, rfl, rfl, rfl⟩
  | _ => exact ⟨rfl, rfl, rfl, rfl⟩

theorem OwnerMove.sameQueueing {s s' : Shared n fn arg} {l l' : OwnerPc} {w : Wake Cond}
    (h : OwnerMove s l s' l' w) (hused : l'.phase.released = false) :
    SameQueueing s.2.history s'.2.history := by
  cases h with
  | clearTake | clearFree => cases hused
  | _ => exact ⟨rfl, rfl⟩

/-!
## Runs of a paused pool
-/

structure Stands (s s' : Process n m fn arg) : Prop where
  worker : s'.pool.worker = s.pool.worker
  work : SameWork s.pool.mem.history s'.pool.mem.history
  queueing : s'.pool.owner.phase.released = false ->
    SameQueueing s.pool.mem.history s'.pool.mem.history

theorem Stands.of_history {s s' : Process n m fn arg}
    (hworker : s'.pool.worker = s.pool.worker)
    (hhistory : s'.pool.mem.history = s.pool.mem.history) : Stands s s' where
  worker := hworker
  work := by
    rw [hhistory]
    exact ⟨rfl, rfl⟩
  queueing := by
    intro _
    rw [hhistory]
    exact ⟨rfl, rfl⟩

theorem frozen_step {s s' : Process n m fn arg} {a : Action n m fn arg} (h : Frozen s)
    (hok : NotResumed s a) (hstep : step s a = some s') : Frozen s' ∧ Stands s s' := by
  have hworkers : forall i c woken, a ≠ .thread (.run (.worker i) c woken) := by
    intro i c woken heq
    subst heq
    simp [step, Event.enabled, Pool.mayRun, h.held i] at hstep
  have hworker : s'.pool.worker = s.pool.worker := by
    funext i
    by_contra hmoved
    rcases run_of_moved (t := .worker i) hstep hmoved with ⟨c, woken, heq⟩
    exact hworkers i c woken heq
  cases moves_of_step hstep with
  | @deliver i _ hnone _ =>
      rw [h.held i] at hnone
      cases hnone
  | @hold i l hl =>
      rw [h.held i] at hl
      cases hl
      refine ⟨⟨h.onHold, ?_, h.returned⟩, Stands.of_history hworker rfl⟩
      intro j
      by_cases hji : j = i
      · subst hji
        simp [threadHold, h.onHold]
      · exact (Function.update_of_ne hji ..).trans (h.held j)
  | thread _ hfire =>
      cases hfire with
      | spurious => exact ⟨⟨h.onHold, h.held, h.returned⟩, Stands.of_history hworker rfl⟩
      | @lock t _ _ _ next _ hinstr _ | @unlock t _ _ _ next _ hinstr _
      | @wait t _ _ _ _ next _ hinstr _ =>
          refine ⟨⟨h.onHold, h.held, ?_⟩, Stands.of_history hworker rfl⟩
          cases t with
          | worker | client => exact h.returned
          | owner =>
              have hnext : (ownerCode s.pool.owner : Code n fn arg OwnerPc).syncNext =
                  some next := by
                change (thpoolCode .owner (s.pool.threads.loc .owner)).syncNext = _
                rw [hinstr]
                rfl
              have hsame := (ownerCode_syncNext_phase hnext).2
              change OwnerPc.initReturned
                ((Function.update s.pool.threads.loc .owner next) .owner) = true
              rw [Function.update_self]
              exact hsame.trans h.returned
      | @act t c _ _ next w asleep _ hacts _ =>
          cases t with
          | worker i => exact (hworkers i c _ rfl).elim
          | client j =>
              have hflags := flags_of_userCode hacts hok
              rcases (userMove_of_acts hacts).sameWork with ⟨hwork, hqueueing⟩
              exact ⟨⟨(congrArg Flags.threadsOnHold hflags).trans h.onHold, h.held, h.returned⟩,
                ⟨hworker, hwork, fun _ => hqueueing⟩⟩
          | owner =>
              have hmove := ownerMove_of_acts hacts
              rcases hmove.frozen h.returned with ⟨hflag, hreturned, hwork⟩
              have hloc : (Function.update s.pool.threads.loc .owner next) .owner = next :=
                Function.update_self ..
              refine ⟨⟨hflag.trans h.onHold, h.held, ?_⟩, ⟨hworker, hwork, ?_⟩⟩
              · change OwnerPc.initReturned
                  ((Function.update s.pool.threads.loc .owner next) .owner) = true
                rw [hloc]
                exact hreturned
              · intro hused
                change (OwnerPc.phase
                  ((Function.update s.pool.threads.loc .owner next) .owner)).released = false
                  at hused
                rw [hloc] at hused
                exact hmove.sameQueueing hused

theorem Stands.trans {s t u : Process n m fn arg} (hfirst : Stands s t) (hrest : Stands t u)
    (hused : u.pool.owner.phase.released = false -> t.pool.owner.phase.released = false) :
    Stands s u where
  worker := hrest.worker.trans hfirst.worker
  work := ⟨hrest.work.called.trans hfirst.work.called,
    hrest.work.finished.trans hfirst.work.finished⟩
  queueing := by
    intro hu
    have hlast := hrest.queueing hu
    have hbefore := hfirst.queueing (hused hu)
    exact ⟨hlast.handed.trans hbefore.handed, hlast.freed.trans hbefore.freed⟩

theorem alive_of_worker {s u : Process n m fn arg} (hs : StageInv s) (hu : StageInv u)
    (h : u.pool.worker = s.pool.worker) :
    u.pool.mem.numThreadsAlive = s.pool.mem.numThreadsAlive := by
  have hsame : u.pool.workerStanding = s.pool.workerStanding := by
    funext i
    exact congrArg WorkerPc.standing (congrFun h i)
  rw [hu.alive, hs.alive, hsame]

/-- Once all workers are in the loop of `thread_hold`, and until `thpool_resume` is
called, they stay there: no job function is called or returns, and if a worker is alive
and the pool is in use, no job leaves the queue and `thpool_destroy` does not get past
its polling loops. -/
theorem thpool_pause_freezes {s u : Process n m fn arg} {schedule : List (Action n m fn arg)}
    (hreach : (thpool n m fn arg).Reachable s) (h : Frozen s)
    (hrun : (thpool n m fn arg).RunUnder NotResumed s schedule u) :
    (forall i, u.pool.hold i = some .loop) ∧ u.pool.worker = s.pool.worker ∧
      u.pool.mem.history.called = s.pool.mem.history.called ∧
      u.pool.mem.history.finished = s.pool.mem.history.finished ∧
      (s.pool.mem.numThreadsAlive ≠ 0 -> s.pool.owner.phase.released = false ->
        u.pool.owner.phase.released = false ∧
        u.pool.mem.history.handed = s.pool.mem.history.handed ∧
        u.pool.mem.history.freed = s.pool.mem.history.freed) := by
  have hstage := (reachable_tokenInv hreach).2.1
  have hinv : Frozen u ∧ StageInv u ∧ Stands s u ∧
      (s.pool.mem.numThreadsAlive ≠ 0 -> s.pool.owner.phase.released = false ->
        u.pool.owner.phase.released = false) := by
    refine hrun.invariant (fun u => Frozen u ∧ StageInv u ∧ Stands s u ∧
      (s.pool.mem.numThreadsAlive ≠ 0 -> s.pool.owner.phase.released = false ->
        u.pool.owner.phase.released = false)) ?_
      ⟨h, hstage, Stands.of_history rfl rfl, fun _ hused => hused⟩
    intro v w a hv hok hstep
    rcases hv with ⟨hfrozen, hvstage, hstands, hpolling⟩
    rcases frozen_step hfrozen hok hstep with ⟨hfrozen', hstands'⟩
    refine ⟨hfrozen', stageInv_step hvstage hstep,
      hstands.trans hstands' (released_of_step hstep), ?_⟩
    intro halive hused
    cases hafter : w.pool.owner.phase.released with
    | false => rfl
    | true =>
        have hleaves := leaves_of_step hstep (hpolling halive hused) hafter
        rw [alive_of_worker hstage hvstage hstands.worker] at hleaves
        exact (halive hleaves.2.2).elim
  rcases hinv with ⟨hfrozen, _, hstands, hpolling⟩
  refine ⟨hfrozen.held, hstands.worker, hstands.work.called, hstands.work.finished, ?_⟩
  intro halive hused
  have hqueueing := hstands.queueing (hpolling halive hused)
  exact ⟨hpolling halive hused, hqueueing.handed, hqueueing.freed⟩

/-- While the only worker is held, a client adds a job and the owner calls
`thpool_destroy` and polls. -/
theorem thpool_pause_freezes_one :
    exists (s u : Process 1 1 Unit Unit), u.pool.mem.jobqueue.len = 1 ∧
      u.pool.owner = .pollRest 1 ∧ u.pool.mem.history.called = [] ∧
      u.pool.mem.history.handed = s.pool.mem.history.handed := by
  have hstart : exists s, (thpool 1 1 Unit Unit).Reachable s ∧
      (s.flags.threadsOnHold = true ∧ (forall i, s.pool.hold i = some .loop) ∧
        s.pool.owner.initReturned = true ∧ s.pool.mem.numThreadsAlive ≠ 0 ∧
        s.pool.owner.phase.released = false ∧ s.pool.mem.history.called = [] ∧
        ((thpool 1 1 Unit Unit).execUnder NotResumed s (callAddWork 0 ++
          Tid.owner.chooses .destroy ++ Tid.owner.steps 1 ++
          Tid.owner.chooses (.clock true))).any (fun u =>
            decide (u.pool.mem.jobqueue.len = 1 ∧ u.pool.owner = .pollRest 1)) = true) :=
    System.reachable_of_exec (s := Process.initial) (startPool 0 ++ pauseWorker 0 0) rfl
      (by decide)
  rcases hstart with ⟨s, hreach, honHold, hheld, hreturned, halive, hused, hcalled, hexec⟩
  rcases Option.any_eq_true_iff_get _ _ |>.mp hexec with ⟨hsome, hend⟩
  have hrun := System.runUnder_of_execUnder (Option.some_get hsome).symm
  rcases thpool_pause_freezes hreach ⟨honHold, hheld, hreturned⟩ hrun with
    ⟨_, _, hsame, _, hrest⟩
  rcases of_decide_eq_true hend with ⟨hlen, howner⟩
  exact ⟨s, _, hlen, howner, hsame.trans hcalled, (hrest halive hused).2.1⟩

end Thpool
end PracticeHand
