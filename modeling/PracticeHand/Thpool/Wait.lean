import PracticeHand.Thpool.Handout

/-!
# Waiting for all jobs

`thpool_wait` returns when it has read an empty queue and then no working
thread, the two reads under different protection.  When it returns, every job
that was accepted before the call has finished, and so has every job that such a
job added.
-/

namespace PracticeHand
namespace Thpool

open Concurrency

variable {n m : Nat} {fn arg : Type}

def Frame.waitPc : Frame -> Option WaitPc
  | .wait p => some p
  | _ => none

def WorkerPc.waitPc : WorkerPc fn arg -> Option WaitPc
  | .running _ _ _ f => f.waitPc
  | _ => none

def waitPc : (t : Tid n m) -> Loc n m fn arg t -> Option WaitPc
  | .worker _, l => l.waitPc
  | .client _, l => l.waitPc
  | .owner, _ => none

def Pool.waiting (p : Pool n m fn arg) (t : Tid n m) : Option WaitPc :=
  waitPc t (p.threads.loc t)

theorem held_of_waiting {p : Pool n m fn arg} {t : Tid n m} {pc : WaitPc}
    {x : Mutex} (h : p.waiting t = some pc) (hx : pc.Holds x) :
    Held t (p.threads.loc t) x := by
  unfold Pool.waiting at h
  generalize p.threads.loc t = l at h
  cases t with
  | worker i =>
      cases l with
      | running job function arg' f =>
          cases f with
          | wait pc' =>
              cases h
              exact hx
          | _ => cases h
      | _ => cases h
  | client j =>
      cases l with
      | wait pc' =>
          cases h
          exact hx
      | _ => cases h
  | owner => cases h

/-!
## Steps of a waiting thread
-/

theorem waitPc_syncNext {t : Tid n m} {l next : Loc n m fn arg t} {p : WaitPc}
    (hsync : (thpoolCode t l).syncNext = some next)
    (h : waitPc t next = some p) : p = .len ∨ p = .relock := by
  have huser : forall {caller : Option Ptr} {f f' : Frame},
      (userCode caller f : Code n fn arg Frame).syncNext = some f' ->
      f'.waitPc = some p -> p = .len ∨ p = .relock := by
    intro caller f f' hf hp
    cases f with
    | user | pause => cases hf
    | push newjob q =>
        cases q with
        | lock | link | unlock => cases hf <;> cases hp
        | post r => cases r <;> cases hf <;> cases hp
    | wait q => cases q <;> cases hf <;> cases hp <;> simp
  cases t with
  | worker i =>
      cases l with
      | bsem q => cases q <;> cases hsync <;> cases h
      | pull q =>
          cases q with
          | lock | take | unlock => cases hsync <;> cases h
          | post job r => cases r <;> cases hsync <;> cases h
      | got job => cases job <;> cases hsync
      | running job function arg' f =>
          cases f with
          | user => cases hsync
          | push | wait | pause =>
              simp only [thpoolCode, threadDo, Instr.syncNext_map,
                Option.map_eq_some_iff] at hsync
              rcases hsync with ⟨f', hf', rfl⟩
              exact huser hf' h
      | _ => cases hsync <;> cases h
  | client j => exact huser hsync h
  | owner => cases h

inductive WaitMove (s : Shared n fn arg) : Option WaitPc -> WaitPc -> Prop where
  | call : WaitMove s none .lock
  | lenPos : s.2.jobqueue.len ≠ 0 -> WaitMove s (some .len) .sleep
  | lenZero : s.2.jobqueue.len = 0 -> WaitMove s (some .len) .working
  | workPos : s.2.numThreadsWorking ≠ 0 -> WaitMove s (some .working) .sleep
  | workZero : s.2.numThreadsWorking = 0 -> WaitMove s (some .working) .unlock

theorem UserMove.waitMove {caller : Option Ptr} {s s' : Shared n fn arg}
    {f f' : Frame} {w : Wake Cond} {p : WaitPc}
    (h : UserMove caller s f s' f' w) (hp : f'.waitPc = some p) :
    s' = s ∧ WaitMove s f.waitPc p := by
  cases h with
  | waitCall =>
      cases hp
      exact ⟨rfl, WaitMove.call⟩
  | lenPos hlen =>
      cases hp
      exact ⟨rfl, WaitMove.lenPos hlen⟩
  | lenZero hlen =>
      cases hp
      exact ⟨rfl, WaitMove.lenZero hlen⟩
  | workPos hwork =>
      cases hp
      exact ⟨rfl, WaitMove.workPos hwork⟩
  | workZero hwork =>
      cases hp
      exact ⟨rfl, WaitMove.workZero hwork⟩
  | _ => cases hp

theorem WorkerMove.waitMove {i : Fin n} {s s' : Shared n fn arg}
    {l l' : WorkerPc fn arg} {w : Wake Cond} {p : WaitPc}
    (h : WorkerMove i s l s' l' w) (hp : l'.waitPc = some p) :
    s' = s ∧ WaitMove s l.waitPc p := by
  cases h with
  | user hmove => exact hmove.waitMove hp
  | _ => cases hp

theorem WorkerMove.working {i : Fin n} {s s' : Shared n fn arg}
    {l l' : WorkerPc fn arg} {w : Wake Cond} (h : WorkerMove i s l s' l' w) :
    l'.standing.working = l.standing.working ∨
      (l.Holds .thcountLock ∧ l.waitPc = none) := by
  cases h with
  | workingInc | doneDec => exact Or.inr ⟨rfl, rfl⟩
  | _ => exact Or.inl rfl

theorem working_of_waiting {s s' : Process n m fn arg} {a : Action n m fn arg}
    (hlock : LockInv s) (hstep : step s a = some s') {t : Tid n m} {p : WaitPc}
    (h : s.pool.waiting t = some p) (hp : p.Holds .thcountLock) (i : Fin n) :
    (s'.pool.workerStanding i).working = (s.pool.workerStanding i).working := by
  change (s'.pool.worker i).standing.working = (s.pool.worker i).standing.working
  rcases worker_of_step hstep i with hsame | hnext | ⟨w, hmove⟩
  · rw [hsame]
  · rw [threadDo_syncNext hnext]
  · rcases hmove.working with hsame | ⟨hholds, hnone⟩
    · exact hsame
    · have hheld : Held (.worker i : Tid n m)
          (s.pool.threads.loc (.worker i)) .thcountLock := hholds
      have hti := hlock.owned.unique (held_of_waiting h hp) hheld
      subst hti
      rw [show s.pool.waiting (.worker i) = none from hnone] at h
      cases h

/-- A thread that has got to a test of `thpool_wait`: it was there before and
kept the workers from being counted in or out, or it has just read the memory. -/
theorem waiting_of_step {s s' : Process n m fn arg} {a : Action n m fn arg}
    (hlock : LockInv s) (hstep : step s a = some s') {t : Tid n m} {p : WaitPc}
    (h : s'.pool.waiting t = some p) (hp : p.Holds .thcountLock)
    (hlen : p ≠ .len) :
    (s.pool.waiting t = some p ∧
      forall i, (s'.pool.workerStanding i).working =
        (s.pool.workerStanding i).working) ∨
    (s'.shared = s.shared ∧ WaitMove s.shared (s.pool.waiting t) p) := by
  rcases loc_of_step hstep t with hsame | hnext | ⟨c, w, hacts⟩
  · have hbefore : s.pool.waiting t = some p := by
      rw [← h]
      exact (congrArg (waitPc t) hsame).symm
    exact Or.inl ⟨hbefore, working_of_waiting hlock hstep hbefore hp⟩
  · exfalso
    rcases waitPc_syncNext hnext h with rfl | rfl
    · exact hlen rfl
    · cases hp
  · refine Or.inr ?_
    cases t with
    | worker i => exact (workerMove_of_acts hacts).waitMove h
    | client j => exact (userMove_of_acts hacts).waitMove h
    | owner => cases h

/-!
## How the history grows
-/

/-- One step adds at most one job, which belongs to no finished job. -/
structure Extends (h h' : History n fn arg) : Prop where
  finished : forall k, k ∈ h.finished -> k ∈ h'.finished
  accepted : h'.accepted = h.accepted ∨
    exists a, h'.accepted = h.accepted ++ [a] ∧
      forall j, a.parent = some j -> j ∉ h.finished

theorem UserMove.extends {caller : Option Ptr} {s s' : Shared n fn arg}
    {f f' : Frame} {w : Wake Cond} (h : UserMove caller s f s' f' w)
    (hcaller : forall p, caller = some p ->
      s.2.history.ticketOf p ∉ s.2.history.finished) :
    Extends s.2.history s'.2.history := by
  cases h with
  | link hlink =>
      rcases linkJob_cases hlink with ⟨node, heap, q, _, _, rfl⟩
      refine ⟨fun k hk => hk, Or.inr ⟨_, rfl, ?_⟩⟩
      intro j hj
      rcases Option.map_eq_some_iff.mp hj with ⟨p, hp, rfl⟩
      exact hcaller p hp
  | _ => exact ⟨fun k hk => hk, Or.inl rfl⟩

theorem unfinished_of_called {s : Process n m fn arg} (hb : s.Booked)
    {t : Tid n m} {p : Ptr} (ht : (s.pool.standing t).job = some (p, .called)) :
    s.pool.mem.history.ticketOf p ∉ s.pool.mem.history.finished := by
  rcases hb with ⟨l, b⟩
  rcases b.carried t p .called ht with ⟨_, _, _, htally⟩
  exact List.count_eq_zero.mp (congrArg Tally.finished htally)

theorem extends_of_step {s s' : Process n m fn arg} {a : Action n m fn arg}
    (hb : s.Booked) (hstep : step s a = some s') :
    Extends s.pool.mem.history s'.pool.mem.history := by
  have hsame : Extends s.pool.mem.history s.pool.mem.history :=
    ⟨fun k hk => hk, Or.inl rfl⟩
  cases shift_of_step hstep with
  | signal | spurious | sync | sleep => exact hsame
  | @worker i sh next w _ _ _ hmove _ =>
      have hjob : forall p, (s.pool.worker i).standing.job = some (p, .called) ->
          s.pool.mem.history.ticketOf p ∉ s.pool.mem.history.finished :=
        fun p hp => unfinished_of_called (t := .worker i) hb hp
      change Extends s.shared.2.history sh.2.history
      generalize s.pool.worker i = l at hmove hjob
      cases hmove with
      | user hm =>
          refine hm.extends ?_
          intro p hp
          cases hp
          exact hjob _ rfl
      | take htake =>
          rcases takeJob_cases htake with ⟨_, _, _, _, rfl⟩ | ⟨_, _, _, _, _, rfl⟩
          · exact hsame
          · exact ⟨fun k hk => hk, Or.inl rfl⟩
      | free hfree =>
          rcases freeJob_cases hfree with ⟨_, rfl⟩ | ⟨_, _, _, rfl⟩
          · exact hsame
          · exact ⟨fun k hk => hk, Or.inl rfl⟩
      | ret => exact ⟨fun k hk => List.mem_append_left _ hk, Or.inl rfl⟩
      | _ => exact ⟨fun k hk => hk, Or.inl rfl⟩
  | client _ hmove _ =>
      refine hmove.extends ?_
      intro p hp
      cases hp
  | @owner sh next w _ _ hmove _ =>
      change Extends s.shared.2.history sh.2.history
      generalize s.pool.owner = l at hmove
      cases hmove with
      | clearTake htake =>
          rcases takeJob_cases htake with ⟨_, _, _, _, rfl⟩ | ⟨_, _, _, _, _, rfl⟩
          · exact hsame
          · exact ⟨fun k hk => hk, Or.inl rfl⟩
      | clearFree hfree =>
          rcases freeJob_cases hfree with ⟨_, rfl⟩ | ⟨_, _, _, rfl⟩
          · exact hsame
          · exact ⟨fun k hk => hk, Or.inl rfl⟩
      | _ => exact ⟨fun k hk => hk, Or.inl rfl⟩

/-!
## All jobs before the call are done

The jobs up to some ticket have finished, and no job behind it was added by one
of them.  Once that is so it stays so.
-/

def Settled (h : History n fn arg) (k : Nat) : Prop :=
  exists bound, k ≤ bound ∧ (forall j, j < bound -> j ∈ h.finished) ∧
    forall d a j, h.accepted[d]? = some a -> a.parent = some j ->
      j < bound -> d < bound

theorem Settled.extends {h h' : History n fn arg} {k : Nat}
    (hsettled : Settled h k) (hext : Extends h h') : Settled h' k := by
  rcases hsettled with ⟨bound, hk, hfinished, hclosed⟩
  refine ⟨bound, hk, fun j hj => hext.finished j (hfinished j hj), ?_⟩
  intro d a j hd hj hlt
  rcases hext.accepted with hsame | ⟨new, hnew, hparent⟩
  · rw [hsame] at hd
    exact hclosed d a j hd hj hlt
  · rw [hnew] at hd
    by_cases hold : d < h.accepted.length
    · rw [List.getElem?_append_left hold] at hd
      exact hclosed d a j hd hj hlt
    · rw [List.getElem?_append_right (not_lt.mp hold)] at hd
      have ha : a = new :=
        List.mem_singleton.mp (List.mem_of_getElem? hd)
      subst ha
      exact (hparent j hj (hfinished j hlt)).elim

/-- The job `d` is `k` itself or was added by a job that descends from `k`. -/
inductive Descends (h : History n fn arg) (k : Nat) : Nat -> Prop where
  | self : Descends h k k
  | child {j d : Nat} {a : Accepted fn arg} : Descends h k j ->
      h.accepted[d]? = some a -> a.parent = some j -> Descends h k d

theorem Settled.descends {h : History n fn arg} {bound k d : Nat}
    (hsettled : Settled h bound) (hk : k < bound) (hd : Descends h k d) :
    d ∈ h.finished := by
  rcases hsettled with ⟨top, hle, hfinished, hclosed⟩
  have hlt : d < top := by
    induction hd with
    | self => exact lt_of_lt_of_le hk hle
    | child _ haccepted hparent ih => exact hclosed _ _ _ haccepted hparent ih
  exact hfinished d hlt

theorem working_of_job {l : WorkerPc fn arg} {p : Ptr} {st : Stage}
    (h : l.standing.job = some (p, st)) : l.standing.working = true := by
  cases l <;> first | rfl | cases h

/-- With an empty queue, either somebody is still working or every accepted job
has finished. -/
theorem working_or_settled {s : Process n m fn arg} (hserves : s.Serves)
    (hused : s.pool.owner.phase.released = false)
    (hlen : s.pool.mem.jobqueue.len = 0) :
    (exists i, (s.pool.workerStanding i).working = true) ∨
      Settled s.pool.mem.history s.pool.mem.history.accepted.length := by
  rcases hserves hused with ⟨⟨l, b⟩, hworkers⟩
  by_cases hbusy : exists i, (s.pool.workerStanding i).working = true
  · exact Or.inl hbusy
  · refine Or.inr ⟨_, le_refl _, ?_, ?_⟩
    · intro j hj
      rcases b.handed_of_empty hlen hj with ⟨x, hx, rfl⟩
      rcases Option.ne_none_iff_exists'.mp (hworkers x hx) with ⟨i, hi⟩
      rcases b.settled x hx with ⟨p, st, hp, _⟩ | hdone
      · rw [hi] at hp
        exact (hbusy ⟨i, working_of_job hp⟩).elim
      · rw [hi] at hdone
        have hcount : s.pool.mem.history.finished.count x.ticket = 1 :=
          congrArg Tally.finished hdone
        exact List.count_pos_iff.mp (by rw [hcount]; exact Nat.one_pos)
    · intro d a j hd _ _
      exact (List.getElem?_eq_some_iff.mp hd).1

/-!
## The invariant of a call

`k` jobs were accepted when thread `t` called `thpool_wait`.
-/

structure WaitInv (t : Tid n m) (k : Nat) (s : Process n m fn arg) : Prop where
  accepted : k ≤ s.pool.mem.history.accepted.length
  -- `thcount_lock` keeps the workers from being counted in or out meanwhile
  working : s.pool.waiting t = some .working ->
    (exists i, (s.pool.workerStanding i).working = true) ∨
      Settled s.pool.mem.history k
  unlock : s.pool.waiting t = some .unlock -> Settled s.pool.mem.history k

theorem Settled.mono {h : History n fn arg} {k k' : Nat} (hs : Settled h k)
    (hle : k' ≤ k) : Settled h k' := by
  rcases hs with ⟨bound, hk, hrest⟩
  exact ⟨bound, le_trans hle hk, hrest⟩

theorem idle_of_working_zero {s : Process n m fn arg} (hstage : StageInv s)
    (h : s.pool.mem.numThreadsWorking = 0) :
    ¬ exists i, (s.pool.workerStanding i).working = true := by
  intro hparts
  rcases hparts with ⟨i, hi⟩
  have hcount := hstage.working
  rw [h] at hcount
  have hzero := countWhere_eq_zero.mp (by exact_mod_cast hcount.symm) i
  rw [hi] at hzero
  cases hzero

theorem Extends.length_le {h h' : History n fn arg} (hext : Extends h h') :
    h.accepted.length ≤ h'.accepted.length := by
  rcases hext.accepted with hsame | ⟨a, hnew, _⟩
  · rw [hsame]
  · rw [hnew, List.length_append]
    exact Nat.le_add_right _ _

theorem waitInv_step {s s' : Process n m fn arg} {a : Action n m fn arg}
    {t : Tid n m} {k : Nat} (hlock : LockInv s) (hstage : StageInv s)
    (hserves : s.Serves) (h : WaitInv t k s) (hstep : step s a = some s')
    (hused : s'.pool.owner.phase.released = false) : WaitInv t k s' := by
  have hext := extends_of_step (hserves (released_of_step hstep hused)).1 hstep
  have haccepted := le_trans h.accepted hext.length_le
  refine ⟨haccepted, ?_, ?_⟩
  · intro hpc
    rcases waiting_of_step hlock hstep hpc rfl (by simp) with
      ⟨hbefore, hsame⟩ | ⟨hshared, hmove⟩
    · rcases h.working hbefore with ⟨i, hi⟩ | hsettled
      · exact Or.inl ⟨i, (hsame i).trans hi⟩
      · exact Or.inr (hsettled.extends hext)
    · have hlen : s'.pool.mem.jobqueue.len = 0 := by
        change s'.shared.2.jobqueue.len = 0
        rw [hshared]
        cases hbefore : s.pool.waiting t with
        | none =>
            rw [hbefore] at hmove
            cases hmove
        | some p =>
            rw [hbefore] at hmove
            cases hmove with
            | lenZero hlen => exact hlen
      rcases working_or_settled (serves_step hstage hserves hstep) hused hlen with
        hbusy | hsettled
      · exact Or.inl hbusy
      · exact Or.inr (hsettled.mono haccepted)
  · intro hpc
    rcases waiting_of_step hlock hstep hpc rfl (by simp) with
      ⟨hbefore, _⟩ | ⟨_, hmove⟩
    · exact (h.unlock hbefore).extends hext
    · cases hbefore : s.pool.waiting t with
      | none =>
          rw [hbefore] at hmove
          cases hmove
      | some p =>
          rw [hbefore] at hmove
          cases hmove with
          | workZero hzero =>
              rcases h.working hbefore with hbusy | hsettled
              · exact (idle_of_working_zero hstage hzero hbusy).elim
              · exact hsettled.extends hext

theorem userCode_leaves_wait {caller : Option Ptr} {f f' : Frame} {p : WaitPc}
    (h : (userCode caller f : Code n fn arg Frame).syncNext = some f')
    (hin : f.waitPc = some p) (hout : f'.waitPc = none) : p = .unlock := by
  cases f with
  | wait q =>
      cases hin
      cases p <;> cases h <;> first | rfl | cases hout
  | _ => cases hin

theorem UserMove.stays_waiting {caller : Option Ptr} {s s' : Shared n fn arg}
    {f f' : Frame} {w : Wake Cond} {p : WaitPc}
    (h : UserMove caller s f s' f' w) (hin : f.waitPc = some p) :
    f'.waitPc ≠ none := by
  cases h <;> first | cases hin; simp [Frame.waitPc] | cases hin

theorem syncNext_leaves_wait {t : Tid n m} {l next : Loc n m fn arg t}
    {p : WaitPc} (h : (thpoolCode t l).syncNext = some next)
    (hin : waitPc t l = some p) (hout : waitPc t next = none) : p = .unlock := by
  cases t with
  | worker i =>
      cases l with
      | running job function arg' f =>
          cases f with
          | wait q =>
              simp only [thpoolCode, threadDo, Instr.syncNext_map,
                Option.map_eq_some_iff] at h
              rcases h with ⟨f', hf', rfl⟩
              exact userCode_leaves_wait hf' hin hout
          | _ => cases hin
      | _ => cases hin
  | client j => exact userCode_leaves_wait h hin hout
  | owner => cases hin

theorem acts_stays_waiting {t : Tid n m} {s s' : Shared n fn arg}
    {c : Choice fn arg} {l next : Loc n m fn arg t} {w : Wake Cond} {p : WaitPc}
    (h : (thpoolCode t l).Acts s c s' next w) (hin : waitPc t l = some p) :
    waitPc t next ≠ none := by
  cases t with
  | worker i =>
      have hmove := workerMove_of_acts h
      change WorkerPc.waitPc l = some p at hin
      cases hmove with
      | user hm => exact hm.stays_waiting hin
      | _ => cases hin
  | client j => exact (userMove_of_acts h).stays_waiting hin
  | owner => cases hin

theorem unlock_of_leave {s s' : Process n m fn arg} {a : Action n m fn arg}
    (hstep : step s a = some s') {t : Tid n m} {p : WaitPc}
    (hin : s.pool.waiting t = some p) (hout : s'.pool.waiting t = none) :
    p = .unlock := by
  rcases loc_of_step hstep t with hsame | hnext | ⟨c, w, hacts⟩
  · change waitPc t (s'.pool.threads.loc t) = none at hout
    rw [hsame] at hout
    rw [show s.pool.waiting t = none from hout] at hin
    cases hin
  · exact syncNext_leaves_wait hnext hin hout
  · exact (acts_stays_waiting hacts hin hout).elim

/-!
## Soundness of `thpool_wait`

Thread `t` is not in `thpool_wait` when `k` is an accepted job, and later
returns from a call.  Then `k` and all its descendants have finished.
-/

theorem thpool_wait_sound {s u v : Process n m fn arg} {t : Tid n m}
    {schedule : List (Action n m fn arg)} {a : Action n m fn arg} {p : WaitPc}
    (hreach : (thpool n m fn arg).Reachable s)
    (houtside : s.pool.waiting t = none)
    (hrun : (thpool n m fn arg).Run s schedule u)
    (hinside : u.pool.waiting t = some p)
    (hreturn : (thpool n m fn arg).step u a = some v)
    (hleft : v.pool.waiting t = none)
    (hused : v.pool.owner.phase.released = false) :
    forall k, k < s.pool.mem.history.accepted.length ->
      forall d, Descends v.pool.mem.history k d ->
        d ∈ v.pool.mem.history.finished := by
  rcases reachable_tokenInv hreach with ⟨hlock, hstage, _⟩
  have hcall : WaitInv t s.pool.mem.history.accepted.length s := by
    refine ⟨le_refl _, ?_, ?_⟩ <;> rw [houtside] <;> intro h <;> cases h
  have hinv : LockInv u ∧ StageInv u ∧ u.Serves ∧
      (u.pool.owner.phase.released = false ->
        WaitInv t s.pool.mem.history.accepted.length u) := by
    refine hrun.invariant
      (fun x => LockInv x ∧ StageInv x ∧ x.Serves ∧
        (x.pool.owner.phase.released = false ->
          WaitInv t s.pool.mem.history.accepted.length x)) ?_
      ⟨hlock, hstage, reachable_serves hreach, fun _ => hcall⟩
    intro x y b hparts _ hstep
    rcases hparts with ⟨hlock, hstage, hserves, hwait⟩
    refine ⟨lockInv_step hlock hstep, stageInv_step hstage hstep,
      serves_step hstage hserves hstep, ?_⟩
    intro hfree
    exact waitInv_step hlock hstage hserves
      (hwait (released_of_step hstep hfree)) hstep hfree
  rcases hinv with ⟨_, _, hserves, hwait⟩
  have hbefore := released_of_step hreturn hused
  have hpc := unlock_of_leave hreturn hinside hleft
  rw [hpc] at hinside
  have hsettled := ((hwait hbefore).unlock hinside).extends
    (extends_of_step (hserves hbefore).1 hreturn)
  intro k hk d hd
  exact hsettled.descends hk hd

def wakeWaiter (i : Fin n) (j : Fin m) : List (Action n m Unit Unit) :=
  [.thread (.run (.worker i) .go (some (.client j)))] ++ (Tid.worker i).steps 1

/-- The client sleeps in `thpool_wait` while the job adds another one, is woken too
early, and sleeps again until that job has run as well. -/
def waitTwice (i : Fin n) (j : Fin m) : List (Action n m Unit Unit) :=
  (Tid.client j).chooses .wait ++ (Tid.client j).steps 3 ++ (Tid.worker i).steps 12 ++
    (Tid.worker i).chooses (.addWork () () (some 1)) ++ (Tid.worker i).steps 6 ++
    (Tid.worker i).chooses .ret ++ (Tid.worker i).steps 2 ++ wakeWaiter i j ++
    (Tid.client j).steps 3 ++ doJob i ++ wakeWaiter i j ++ (Tid.client j).steps 3

theorem thpool_wait_sound_one :
    exists v : Process 1 1 Unit Unit, v.pool.waiting (.client 0) = none ∧
      0 ∈ v.pool.mem.history.finished ∧ 1 ∈ v.pool.mem.history.finished := by
  have hrun : exists s, (thpool 1 1 Unit Unit).Reachable s ∧
      (s.pool.waiting (.client 0) = none ∧
        0 < s.pool.mem.history.accepted.length ∧
        ((thpool 1 1 Unit Unit).exec s (waitTwice 0 0)).any (fun u =>
          decide (u.pool.waiting (.client 0) = some .unlock ∧
            ((thpool 1 1 Unit Unit).exec u ((Tid.client 0).steps 1)).any
              (fun v => decide (v.pool.waiting (.client 0) = none ∧
                v.pool.owner.phase.released = false ∧
                (v.pool.mem.history.accepted[1]?).map Accepted.parent =
                  some (some 0))) = true)) = true) :=
    System.reachable_of_exec (s := Process.initial) (addOneJob 0 0) rfl (by decide)
  rcases hrun with ⟨s, hreach, houtside, hjob, hrest⟩
  rcases System.exists_run_of_exec _ hrest with ⟨u, hwait, hinside, hlast⟩
  rcases System.exists_run_of_exec _ hlast with ⟨v, hone, hleft, hused, hchild⟩
  rcases Option.map_eq_some_iff.mp hchild with ⟨a, haccepted, hparent⟩
  cases hone with
  | cons _ hstep hnil =>
      cases hnil with
      | nil =>
          have hsound := thpool_wait_sound hreach houtside hwait hinside hstep hleft hused
            0 hjob
          exact ⟨v, hleft, hsound 0 Descends.self,
            hsound 1 (Descends.child Descends.self haccepted hparent)⟩

end Thpool
end PracticeHand
