import PracticeHand.Concurrency.Progress
import PracticeHand.Thpool.Handout
import PracticeHand.Thpool.Idle
import PracticeHand.Thpool.Outstanding
import PracticeHand.Thpool.TwoPools

/-!
# What is left to do in a pool

Suppose that from some moment on nobody calls the interface any more and no signal
is delivered.  The calls that are under way go on, the job functions return, and the
workers serve the queue.  Every step of such a run is paid for: a queued job and the
token of `has_jobs` are stored effort, which a worker draws on when it takes the token
and then the job.
-/

namespace PracticeHand
namespace Thpool

open Concurrency

variable {n m : Nat} {fn arg : Type}

/-- The choices of code that is on its way out: go on, or return from a job. -/
def Choice.quiet : Choice fn arg -> Bool
  | .go => true
  | .ret => true
  | _ => false

/-- A worker or a client goes on in the call that it is in, or a job function returns. -/
def Winds (_s : Process n m fn arg) (a : Action n m fn arg) : Prop :=
  exists t c woken, a = .thread (.run t c woken) ∧ t ≠ .owner ∧ c.quiet = true

/-!
## What is left to do

The weight of a location is more than that of every location that can follow it, and
it pays for what the step adds elsewhere: a job in the queue, the token, or a thread
that has to do its test again.
-/

def PostPc.effort : PostPc -> Nat
  | .lock => 27
  | .set => 26
  | .unlock => 2

def PushPc.effort : PushPc -> Nat
  | .lock => 57
  | .link => 56
  | .post p => p.effort
  | .unlock => 1

def WaitPc.effort (asleep : Bool) : WaitPc -> Nat
  | .lock => 4
  | .len => 3
  | .working => 2
  | .sleep => 1
  | .relock => if asleep then 0 else 4
  | .unlock => 1

def Frame.effort (n : Nat) (asleep : Bool) : Frame -> Nat
  | .user => 0
  | .push _ p => p.effort
  | .wait p => p.effort asleep
  | .pause k => n - k + 1

def BsemWaitPc.effort (asleep : Bool) : BsemWaitPc -> Nat
  | .lock => 3
  | .test => 2
  | .sleep => 1
  | .relock => if asleep then 0 else 3
  | .unlock => 20

def PullPc.effort : PullPc -> Nat
  | .lock => 15
  | .take => 14
  | .post _ p => 14 + p.effort
  | .unlock none => 13
  | .unlock (some _) => 15

def WorkerPc.effort (n : Nat) (asleep : Bool) : WorkerPc fn arg -> Nat
  | .unborn => 8
  | .aliveLock => 7
  | .aliveInc => 6
  | .aliveUnlock => 5
  | .loop => 4
  | .bsem p => p.effort asleep
  | .check => 19
  | .workingLock => 18
  | .workingInc => 17
  | .workingUnlock => 16
  | .pull p => p.effort
  | .got none => 12
  | .got (some _) => 14
  | .running _ _ _ f => 13 + f.effort n asleep
  | .free _ => 12
  | .doneLock => 11
  | .doneDec => 10
  | .doneUnlock => 5
  | .exitLock => 3
  | .exitDec => 2
  | .exitUnlock => 1
  | .exited => 0

def effort : (t : Tid n m) -> Loc n m fn arg t -> Option Cond -> Nat
  | .worker _, l, k => l.effort n k.isSome
  | .client _, f, k => f.effort n k.isSome
  | .owner, _, _ => 0

def stored (s : Shared n fn arg) : Nat :=
  28 * s.2.jobqueue.len.toNat + if s.2.v = 1 then 19 else 0

@[simp] theorem stored_addAlive (d : Int) (s : Shared n fn arg) :
    stored (addAlive d s) = stored s := rfl

@[simp] theorem stored_addWorking (d : Int) (s : Shared n fn arg) :
    stored (addWorking d s) = stored s := rfl

@[simp] theorem stored_callJob (i : Fin n) (job : Ptr) (function : fn) (arg' : arg)
    (s : Shared n fn arg) : stored (callJob i job function arg' s) = stored s := rfl

@[simp] theorem stored_returnJob (job : Ptr) (s : Shared n fn arg) :
    stored (returnJob job s) = stored s := rfl

def Process.effort (s : Process n m fn arg) : Nat :=
  stored s.shared + s.pool.threads.effort Thpool.effort

/-!
## Every step lessens it
-/

theorem effort_wake (t : Tid n m) (l : Loc n m fn arg t) (k : Cond) :
    effort t l none ≤ effort t l (some k) + 4 := by
  have hframe : forall f : Frame, f.effort n false ≤ f.effort n true + 4 := by
    intro f
    cases f with
    | wait p => cases p <;> simp [Frame.effort, WaitPc.effort]
    | _ => exact Nat.le_add_right _ _
  cases t with
  | owner => exact Nat.zero_le _
  | client j => exact hframe l
  | worker i =>
      change WorkerPc.effort n false l ≤ WorkerPc.effort n true l + 4
      cases l with
      | bsem p => cases p <;> simp [WorkerPc.effort, BsemWaitPc.effort]
      | got job => cases job <;> exact Nat.le_add_right _ _
      | running job function arg' f =>
          simp only [WorkerPc.effort]
          have hf := hframe f
          lia
      | _ => exact Nat.le_add_right _ _

theorem userCode_lessens (caller : Option Ptr) (f : Frame) :
    (userCode caller f : Code n fn arg Frame).SyncLessens
      (fun f k => f.effort n k.isSome) f := by
  cases f with
  | user | pause => exact trivial
  | push newjob p =>
      cases p with
      | lock | link | unlock =>
          simp [Instr.SyncLessens, userCode, jobqueuePush, Instr.map, Flow.elim, Frame.effort,
            PushPc.effort]
      | post q =>
          cases q <;>
            simp [Instr.SyncLessens, userCode, jobqueuePush, bsemPost, Instr.map, Flow.elim,
              Frame.effort, PushPc.effort, PostPc.effort]
  | wait p =>
      cases p <;>
        simp [Instr.SyncLessens, userCode, thpoolWait, Instr.test, Instr.map, Flow.elim,
          Frame.effort, WaitPc.effort]

theorem threadDo_lessens (i : Fin n) (l : WorkerPc fn arg) :
    (threadDo i l).SyncLessens (fun l k => l.effort n k.isSome) l := by
  cases l with
  | bsem p =>
      cases p <;>
        simp [Instr.SyncLessens, threadDo, bsemWait, Instr.map, Flow.elim, WorkerPc.effort,
          BsemWaitPc.effort]
  | pull p =>
      cases p with
      | lock | take =>
          simp [Instr.SyncLessens, threadDo, jobqueuePull, Instr.map, Flow.elim,
            WorkerPc.effort, PullPc.effort]
      | unlock job =>
          cases job <;>
            simp [Instr.SyncLessens, threadDo, jobqueuePull, Instr.map, Flow.elim,
              WorkerPc.effort, PullPc.effort]
      | post job q =>
          cases q <;>
            simp [Instr.SyncLessens, threadDo, jobqueuePull, bsemPost, Instr.map, Flow.elim,
              WorkerPc.effort, PullPc.effort, PostPc.effort]
  | got job => cases job <;> exact trivial
  | running job function arg' f =>
      have huser := @userCode_lessens n fn arg (some job) f
      cases f with
      | user => exact trivial
      | push | wait | pause =>
          simp only [threadDo]
          generalize userCode (some job) _ = code at huser
          cases code with
          | act => exact trivial
          | lock | unlock | wait => exact Nat.add_lt_add_left huser 13
  | _ =>
      simp [Instr.SyncLessens, threadDo, Instr.store, Instr.test, Instr.halt, WorkerPc.effort,
        PullPc.effort]

theorem UserMove.lessens {caller : Option Ptr} {s s' : Shared n fn arg} {f f' : Frame}
    {w : Wake Cond} (h : UserMove caller s f s' f' w) (hf : f ≠ .user) :
    Instr.ActLessens (fun f k => f.effort n k.isSome) stored 4 f s s' f' w := by
  cases h with
  | refused | alloc | waitCall | pauseCall | resume => exact (hf rfl).elim
  | link hlink =>
      refine ⟨Or.inl rfl, ?_⟩
      rcases linkJob_cases hlink with ⟨_, heap, q, _, hpush, rfl⟩
      have hlen := pushSection_len hpush
      simp only [stored, onPool, Frame.effort, PushPc.effort, PostPc.effort, if_true, hlen]
      lia
  | post =>
      refine ⟨Or.inr ⟨_, rfl⟩, ?_⟩
      simp only [stored, setV, onPool, Frame.effort, PushPc.effort, PostPc.effort, if_true,
        reduceCtorEq, if_false]
      lia
  | lenPos | lenZero | workPos | workZero =>
      exact ⟨Or.inl rfl, by simp [Frame.effort, WaitPc.effort]⟩
  | kill hk =>
      refine ⟨Or.inl rfl, ?_⟩
      simp only [stored, raiseSigusr1, onPool, Frame.effort, if_true]
      lia
  | pauseEnd => exact ⟨Or.inl rfl, by simp [Frame.effort]⟩

theorem takeJob_effort {s : Process n m fn arg} (hb : s.Booked) {puller : Option (Fin n)}
    {sh : Shared n fn arg} {p : PullPc} (h : takeJob puller s.shared = some (sh, p)) :
    stored sh + p.effort < stored s.shared + PullPc.take.effort := by
  rcases Int.lt_or_le 0 s.pool.mem.jobqueue.len with hpos | hzero
  · have hlen : sh.2.jobqueue.len = s.shared.2.jobqueue.len - 1 := (takeJob_job hb hpos h).2
    have hv := takeJob_v h
    have hp : p.effort ≤ 41 := by
      rcases takeJob_cases h with ⟨_, _, _, rfl, _⟩ | ⟨_, _, more, _, rfl, _⟩
      · decide
      · cases more <;> simp [PullPc.effort, PostPc.effort]
    change 0 < s.shared.2.jobqueue.len at hpos
    change stored sh + p.effort < stored s.shared + 14
    simp only [stored, hlen, hv]
    lia
  · rcases hb with ⟨l, b⟩
    have hnil : l = [] := by
      apply List.length_eq_zero_iff.mp
      have hlen := b.represents.len
      lia
    subst hnil
    have hpull := pullSection_nil b.represents
    rcases takeJob_cases h with ⟨q, more, hpull', rfl, rfl⟩ | ⟨job, q, more, hpull', _, _⟩
    · have heq := hpull.symm.trans hpull'
      cases heq
      exact Nat.lt_succ_self _
    · have heq := hpull.symm.trans hpull'
      cases heq

theorem WorkerMove.lessens {s : Process n m fn arg} (hb : s.Booked) {i : Fin n}
    {sh : Shared n fn arg} {l l' : WorkerPc fn arg} {w : Wake Cond}
    (h : WorkerMove i s.shared l sh l' w)
    (hcall : forall job function arg' f, l = .running job function arg' .user ->
      l' ≠ .running job function arg' f) :
    Instr.ActLessens (fun l k => l.effort n k.isSome) stored 4 l s.shared sh l' w := by
  cases h with
  | take htake =>
      refine ⟨Or.inl rfl, ?_⟩
      simpa [WorkerPc.effort] using takeJob_effort hb htake
  | token hv =>
      refine ⟨Or.inl rfl, ?_⟩
      simp only [stored, setV, onPool, hv, WorkerPc.effort, BsemWaitPc.effort]
      simp
  | pullPost =>
      refine ⟨Or.inr ⟨_, rfl⟩, ?_⟩
      simp only [stored, setV, onPool, WorkerPc.effort, PullPc.effort, PostPc.effort, if_true,
        reduceCtorEq, if_false]
      lia
  | @user _ job function arg' f f' _ hmove =>
      have hf : f ≠ .user := by
        intro heq
        subst heq
        exact hcall job function arg' f' rfl rfl
      rcases hmove.lessens hf with ⟨hw, hless⟩
      refine ⟨hw, ?_⟩
      simp only [WorkerPc.effort] at hless ⊢
      lia
  | free hfree =>
      refine ⟨Or.inl rfl, ?_⟩
      rcases freeJob_cases hfree with ⟨heq, _⟩ | ⟨_, _, _, rfl⟩
      · cases heq
      · exact Nat.lt_succ_self _
  | doneDec =>
      refine ⟨?_, ?_⟩
      · split
        · exact Or.inr ⟨_, rfl⟩
        · exact Or.inl rfl
      · split <;> simp [WorkerPc.effort]
  | _ =>
      refine ⟨Or.inl rfl, ?_⟩
      simp [WorkerPc.effort, BsemWaitPc.effort, Frame.effort]

theorem userCode_quiet {caller : Option Ptr} {s s' : Shared n fn arg} {c : Choice fn arg}
    {f f' : Frame} {w : Wake Cond} (h : (userCode caller f).Acts s c s' f' w)
    (hc : c.quiet = true) : f ≠ .user := by
  intro heq
  subst heq
  cases c with
  | go | ret => cases h
  | _ => cases hc

theorem threadDo_quiet {i : Fin n} {s s' : Shared n fn arg} {c : Choice fn arg}
    {l l' : WorkerPc fn arg} {w : Wake Cond} (h : (threadDo i l).Acts s c s' l' w)
    (hc : c.quiet = true) {job : Ptr} {function : fn} {arg' : arg} {f : Frame}
    (hl : l = .running job function arg' .user) : l' ≠ .running job function arg' f := by
  subst hl
  intro heq
  subst heq
  cases c with
  | go | ret => cases h
  | _ => cases hc

/-- The pool is in use, its owner is in no section of the queue, no worker is held, and
no job function is in `thpool_wait`, where it would wait for itself. -/
structure Winding (s : Process n m fn arg) : Prop where
  reach : (thpool n m fn arg).Reachable s
  returned : s.pool.owner.initReturned = true
  used : s.pool.owner.phase.released = false
  outside : forall x, ¬ s.pool.owner.Holds x
  free : forall i, s.pool.hold i = none
  patient : forall i, s.pool.waiting (.worker i) = none

theorem Winding.of_ready {s : Process n m fn arg} (hreach : (thpool n m fn arg).Reachable s)
    (hready : s.pool.owner = .ready) (hfree : forall i, s.pool.hold i = none)
    (hpatient : forall i, s.pool.waiting (.worker i) = none) : Winding s where
  reach := hreach
  returned := by rw [hready]; rfl
  used := by rw [hready]; rfl
  outside := by rw [hready]; exact fun _ h => h
  free := hfree
  patient := hpatient

theorem Winding.booked {s : Process n m fn arg} (h : Winding s) : s.Booked :=
  (reachable_serves h.reach h.used).1

/-- A step of a worker or a client that is not a call of the interface. -/
theorem effort_lessens {s s' : Process n m fn arg} {t : Tid n m} {c : Choice fn arg}
    {woken : Option (Tid n m)} (hb : s.Booked) (ht : t ≠ .owner)
    (hclient : forall j, t = .client j -> s.pool.client j ≠ .user)
    (hworker : forall i job function arg' f l sh w, t = .worker i ->
      s.pool.worker i = .running job function arg' .user ->
      (threadDo i (.running job function arg' .user)).Acts s.shared c sh l w ->
      l ≠ .running job function arg' f)
    (hstep : step s (.thread (.run t c woken)) = some s') : s'.effort < s.effort := by
  cases moves_of_step hstep with
  | thread _ hfire =>
      cases t with
      | worker i =>
          have hsync : (thpoolCode (.worker i) (s.pool.threads.loc (.worker i))).SyncLessens
              (effort (.worker i)) (s.pool.threads.loc (.worker i)) := threadDo_lessens i _
          refine hfire.effort_lt effort_wake hsync ?_
          intro sh next w hacts
          refine (workerMove_of_acts hacts).lessens hb ?_
          intro job function arg' f hl
          change (threadDo i (s.pool.threads.loc (.worker i))).Acts s.shared c sh next w at hacts
          rw [hl] at hacts
          exact hworker i job function arg' f next sh w rfl hl hacts
      | client j =>
          have hsync : (thpoolCode (.client j) (s.pool.threads.loc (.client j))).SyncLessens
              (effort (.client j)) (s.pool.threads.loc (.client j)) := userCode_lessens none _
          refine hfire.effort_lt effort_wake hsync ?_
          intro sh next w hacts
          exact (userMove_of_acts hacts).lessens (hclient j rfl)
      | owner => exact (ht rfl).elim

theorem effort_step {s s' : Process n m fn arg} {a : Action n m fn arg} (h : Winding s)
    (hok : Winds s a) (hstep : step s a = some s') : s'.effort < s.effort := by
  rcases hok with ⟨t, c, woken, rfl, ht, hc⟩
  refine effort_lessens h.booked ht ?_ ?_ hstep
  · intro j hj huser
    subst hj
    have hloc : s.pool.threads.loc (.client j) = Frame.user := huser
    rcases acts_of_step hstep (by rw [hloc]; rfl) with ⟨_, _, _, _, hacts, _⟩
    exact userCode_quiet hacts hc huser
  · intro i job function arg' f l sh w _ _ hacts
    exact threadDo_quiet hacts hc rfl

/-!
## What stays as it is
-/

theorem threadDo_syncNext_waitPc {i : Fin n} {l l' : WorkerPc fn arg}
    (h : (threadDo i l).syncNext = some l') (hl : l.waitPc = none) : l'.waitPc = none := by
  cases l with
  | bsem p => cases p <;> cases h <;> rfl
  | pull p =>
      cases p with
      | lock | take | unlock => cases h <;> rfl
      | post job q => cases q <;> cases h <;> rfl
  | got job => cases job <;> cases h
  | running job function arg' f =>
      cases f with
      | user | pause => cases h
      | wait p => cases hl
      | push newjob p =>
          cases p with
          | lock | link | unlock => cases h <;> rfl
          | post q => cases q <;> cases h <;> rfl
  | _ => cases h <;> rfl

theorem WorkerMove.waitPc {i : Fin n} {s s' : Shared n fn arg} {l l' : WorkerPc fn arg}
    {w : Wake Cond} (h : WorkerMove i s l s' l' w)
    (hcall : forall job function arg' f, l = .running job function arg' .user ->
      l' ≠ .running job function arg' f)
    (hl : l.waitPc = none) : l'.waitPc = none := by
  cases h with
  | @user _ job function arg' f f' _ hmove =>
      cases hmove with
      | waitCall => exact (hcall job function arg' _ rfl rfl).elim
      | lenPos | lenZero | workPos | workZero => cases hl
      | _ => rfl
  | _ => rfl

theorem owner_of_winds {s s' : Process n m fn arg} {a : Action n m fn arg}
    (hok : Winds s a) (hstep : step s a = some s') : s'.pool.owner = s.pool.owner := by
  by_contra hmoved
  rcases hok with ⟨t, c, woken, rfl, ht, _⟩
  rcases run_of_moved hstep hmoved with ⟨c', woken', heq⟩
  cases heq
  exact ht rfl

theorem Winding.step {s s' : Process n m fn arg} {a : Action n m fn arg} (h : Winding s)
    (hok : Winds s a) (hstep : step s a = some s') : Winding s' := by
  have hreach : (thpool n m fn arg).Reachable s' := h.reach.next trivial hstep
  have howner := owner_of_winds hok hstep
  rcases hok with ⟨t, c, woken, rfl, _, hc⟩
  refine ⟨hreach, by rw [howner]; exact h.returned, by rw [howner]; exact h.used,
    by rw [howner]; exact h.outside, ?_, ?_⟩
  · cases moves_of_step hstep
    exact h.free
  · intro i
    by_cases hmoved : s'.pool.threads.loc (.worker i) = s.pool.threads.loc (.worker i)
    · unfold Pool.waiting
      rw [hmoved]
      exact h.patient i
    · rcases run_of_moved hstep hmoved with ⟨c', woken', heq⟩
      cases heq
      cases hnext : (thpoolCode (.worker i) (s.pool.threads.loc (.worker i))).syncNext with
      | none =>
          rcases acts_of_step hstep hnext with ⟨sh, next, w, asleep, hacts, _, rfl⟩
          change WorkerPc.waitPc
            ((Function.update s.pool.threads.loc (.worker i) next) (.worker i)) = none
          rw [Function.update_self]
          exact (workerMove_of_acts hacts).waitPc
            (fun _ _ _ _ hl => threadDo_quiet hacts hc hl) (h.patient i)
      | some next =>
          rcases loc_of_step hstep (.worker i) with hsame | hsync | ⟨_, _, hacts⟩
          · exact (hmoved hsame).elim
          · exact threadDo_syncNext_waitPc hsync (h.patient i)
          · generalize thpoolCode _ _ = instr at hnext hacts
            cases instr <;> first | exact hacts.elim | cases hnext

theorem Winding.run {s u : Process n m fn arg} {schedule : List (Action n m fn arg)}
    (h : Winding s) (hrun : (thpool n m fn arg).RunUnder Winds s schedule u) :
    Winding u ∧ u.pool.owner = s.pool.owner := by
  refine hrun.invariant (fun u => Winding u ∧ u.pool.owner = s.pool.owner) ?_ ⟨h, rfl⟩
  intro v w a hv hok hstep
  exact ⟨hv.1.step hok hstep, (owner_of_winds hok hstep).trans hv.2⟩

end Thpool
end PracticeHand
