import PracticeHand.Thpool.Standing

/-!
# The life of the pool and its two counters

The owner takes the pool through its life: set up, start the workers, hand the
pool out, and destroy it.  In a process with one pool the flag
`threads_keepalive` follows from where the owner stands, and the counters
`num_threads_alive` and `num_threads_working` count the workers at the locations
between an increment and the decrement that undoes it.
-/

namespace PracticeHand
namespace Thpool

open Concurrency

variable {n m : Nat} {fn arg : Type}

inductive Phase where
  | fresh
  | allocating
  | starting
  | ready
  | polling
  | clearing
  | freeing
  | gone
  deriving DecidableEq

def OwnerPc.phase : OwnerPc -> Phase
  | .initHold => .fresh
  | .initKeepalive => .fresh
  | .initAlloc => .allocating
  | .initThread _ => .starting
  | .initWait => .starting
  | .ready => .ready
  | .keepalive _ => .ready
  | .pollFirst _ => .polling
  | .postFirst _ _ => .polling
  | .pollRest _ => .polling
  | .postRest _ _ => .polling
  | .clearTest _ => .clearing
  | .clearPull _ _ => .clearing
  | .clearFree _ _ => .clearing
  | .clearReset _ => .clearing
  | .freeHasJobs _ => .freeing
  | .freeThread _ _ => .freeing
  | .freeThreads => .freeing
  | .freePool => .freeing
  | .gone => .gone

def Phase.keepalive : Phase -> Option Bool
  | .fresh => none
  | .allocating => some true
  | .starting => some true
  | .ready => some true
  | .polling => some false
  | .clearing => some false
  | .freeing => some false
  | .gone => some false

/-- `thpool_destroy` has left its polling loops and reached `jobqueue_destroy`. -/
def Phase.released : Phase -> Bool
  | .clearing => true
  | .freeing => true
  | .gone => true
  | _ => false

theorem ownerCode_syncNext_phase {l l' : OwnerPc}
    (h : (ownerCode l : Code n fn arg OwnerPc).syncNext = some l') :
    l'.phase = l.phase ∧ l'.initReturned = l.initReturned := by
  cases l with
  | postFirst total p | postRest total p => cases p <;> cases h <;> exact ⟨rfl, rfl⟩
  | clearPull total p =>
      cases p with
      | lock | take | unlock => cases h <;> exact ⟨rfl, rfl⟩
      | post job q => cases q <;> cases h <;> exact ⟨rfl, rfl⟩
  | _ => cases h

def Pool.workerStanding (p : Pool n m fn arg) (i : Fin n) : Standing :=
  p.standing (.worker i)

theorem workerStanding_update (f : Tid n m -> Standing) (i : Fin n)
    (x : Standing) :
    (fun j => Function.update f (.worker i) x (.worker j)) =
      Function.update (fun j => f (.worker j)) i x := by
  funext j
  by_cases hj : j = i
  · subst hj
    simp
  · have hne : (Tid.worker j : Tid n m) ≠ .worker i := by
      intro heq
      cases heq
      exact hj rfl
    rw [Function.update_of_ne hne, Function.update_of_ne hj]

def PoolMem.quiet (mem : PoolMem n fn arg) : PoolMem n fn arg :=
  { mem with sigusr1 := fun _ => false }

structure StageInv (s : Process n m fn arg) : Prop where
  /-- Before `thpool_init` fills in the fields nothing has been used. -/
  unused : s.pool.owner.phase = .fresh ∨ s.pool.owner.phase = .allocating ->
    s.pool.mem.quiet = {} ∧
      forall i, s.pool.worker i = .unborn
  outside : s.pool.owner.initReturned = false ->
    forall j, s.pool.client j = .user
  keepalive : forall b, s.pool.owner.phase.keepalive = some b ->
    s.flags.threadsKeepalive = b
  alive : s.pool.mem.numThreadsAlive =
    countWhere Standing.counted s.pool.workerStanding
  working : s.pool.mem.numThreadsWorking =
    countWhere Standing.working s.pool.workerStanding
  started : s.pool.owner.initReturned = true ->
    forall i, (s.pool.workerStanding i).started = true

theorem stageInv_initial : StageInv (Process.initial : Process n m fn arg) := by
  have hzero : forall p : Standing -> Bool, p {} = false ->
      countWhere p (Process.initial : Process n m fn arg).pool.workerStanding = 0 :=
    fun p hp => countWhere_eq_zero.mpr (fun _ => hp)
  constructor
  · intro _
    exact ⟨rfl, fun _ => rfl⟩
  · intro _ j
    rfl
  · intro b hb
    cases hb
  · rw [hzero _ rfl]
    rfl
  · rw [hzero _ rfl]
    rfl
  · intro h
    cases h

theorem standing_started_of_counted {l : WorkerPc fn arg}
    (h : l.standing.counted = true) : l.standing.started = true := by
  cases l <;> first | rfl | cases h

/-!
## Steps of a worker
-/

theorem countWhere_worker (p : Standing -> Bool) (s : Process n m fn arg)
    (sh : Shared n fn arg) (i : Fin n) (next : WorkerPc fn arg)
    (asleep : Tid n m -> Option Cond) :
    countWhere p (s.after sh { s.pool.threads with
        loc := Function.update s.pool.threads.loc (.worker i) next
        asleep := asleep }).pool.workerStanding +
        (p (s.pool.worker i).standing).toNat =
      countWhere p s.pool.workerStanding + (p next.standing).toNat := by
  have heq : (s.after sh { s.pool.threads with
        loc := Function.update s.pool.threads.loc (.worker i) next
        asleep := asleep }).pool.workerStanding =
      Function.update s.pool.workerStanding i next.standing := by
    unfold Pool.workerStanding
    rw [standing_after]
    exact workerStanding_update _ _ _
  rw [heq]
  exact countWhere_update p s.pool.workerStanding i next.standing

structure SameCounters (s s' : Shared n fn arg) : Prop where
  alive : s'.2.numThreadsAlive = s.2.numThreadsAlive
  working : s'.2.numThreadsWorking = s.2.numThreadsWorking
  keepalive : s'.1.threadsKeepalive = s.1.threadsKeepalive

theorem linkJob_counters {caller : Option Ptr} {newjob : Ptr}
    {s s' : Shared n fn arg} (h : linkJob caller newjob s = some s') :
    SameCounters s s' := by
  rcases linkJob_cases h with ⟨_, _, _, _, _, rfl⟩
  exact ⟨rfl, rfl, rfl⟩

theorem takeJob_counters {puller : Option (Fin n)} {s s' : Shared n fn arg}
    {p : PullPc} (h : takeJob puller s = some (s', p)) :
    SameCounters s s' := by
  rcases takeJob_cases h with ⟨_, _, _, _, rfl⟩ | ⟨_, _, _, _, _, rfl⟩
  · exact ⟨rfl, rfl, rfl⟩
  · exact ⟨rfl, rfl, rfl⟩

theorem freeJob_counters {s s' : Shared n fn arg} {job : Option Ptr}
    (h : freeJob s job = some s') : SameCounters s s' := by
  rcases freeJob_cases h with ⟨_, rfl⟩ | ⟨_, _, _, rfl⟩
  · exact ⟨rfl, rfl, rfl⟩
  · exact ⟨rfl, rfl, rfl⟩

theorem UserMove.counters {caller : Option Ptr} {s s' : Shared n fn arg}
    {f f' : Frame} {w : Wake Cond} (h : UserMove caller s f s' f' w) :
    SameCounters s s' := by
  cases h with
  | link hlink => exact linkJob_counters hlink
  | _ => exact ⟨rfl, rfl, rfl⟩

/-- What a memory step of a worker does to the counters. -/
theorem WorkerMove.counters {i : Fin n} {s s' : Shared n fn arg}
    {l l' : WorkerPc fn arg} {w : Wake Cond} (h : WorkerMove i s l s' l' w) :
    s'.2.numThreadsAlive + (l.standing.counted.toNat : Int) =
        s.2.numThreadsAlive + l'.standing.counted.toNat ∧
      s'.2.numThreadsWorking + (l.standing.working.toNat : Int) =
        s.2.numThreadsWorking + l'.standing.working.toNat ∧
      s'.1.threadsKeepalive = s.1.threadsKeepalive ∧
      (l.standing.started = true -> l'.standing.started = true) := by
  cases h with
  | take htake =>
      rcases takeJob_counters htake with ⟨ha, hw, hk⟩
      exact ⟨by rw [ha]; rfl, by rw [hw]; rfl, hk, fun _ => rfl⟩
  | user hmove =>
      rcases hmove.counters with ⟨ha, hw, hk⟩
      exact ⟨by rw [ha]; rfl, by rw [hw]; rfl, hk, fun _ => rfl⟩
  | free hfree =>
      rcases freeJob_counters hfree with ⟨ha, hw, hk⟩
      exact ⟨by rw [ha]; rfl, by rw [hw]; rfl, hk, fun _ => rfl⟩
  | doneDec | exitDec =>
      dsimp only [WorkerPc.standing, Standing.alive, addAlive, addWorking, onPool,
        Bool.toNat_true, Bool.toNat_false]
      exact ⟨by lia, by lia, rfl, by simp⟩
  | _ =>
      simp [WorkerPc.standing, Standing.alive, addAlive, addWorking, onPool,
        setV, callJob, returnJob]

/-!
## Steps of the owner
-/

theorem initFields_unused {s : Shared n fn arg}
    (h : s.2.quiet = {}) :
    (initFields s).2 = s.2 := by
  cases s with
  | mk flags mem =>
      cases mem
      cases h
      rfl

/-- What a memory step of the owner does to the counters and its phase. -/
theorem OwnerMove.counters {s s' : Shared n fn arg} {l l' : OwnerPc}
    {w : Wake Cond} (h : OwnerMove s l s' l' w)
    (hunused : l.phase = .allocating ->
      s.2.quiet = {}) :
    s'.2.numThreadsAlive = s.2.numThreadsAlive ∧
      s'.2.numThreadsWorking = s.2.numThreadsWorking := by
  cases h with
  | initAlloc => rw [initFields_unused (hunused rfl)]; exact ⟨rfl, rfl⟩
  | clearTake htake =>
      exact ⟨(takeJob_counters htake).alive, (takeJob_counters htake).working⟩
  | clearFree hfree =>
      exact ⟨(freeJob_counters hfree).alive, (freeJob_counters hfree).working⟩
  | _ => exact ⟨rfl, rfl⟩

theorem OwnerMove.keepalive {s s' : Shared n fn arg} {l l' : OwnerPc}
    {w : Wake Cond} (h : OwnerMove s l s' l' w)
    (hold : forall b, l.phase.keepalive = some b -> s.1.threadsKeepalive = b) :
    forall b, l'.phase.keepalive = some b -> s'.1.threadsKeepalive = b := by
  intro b hb
  cases h with
  | initKeepalive | keepaliveOff =>
      cases hb
      rfl
  | clearTake htake =>
      rw [(takeJob_counters htake).keepalive]
      exact hold b hb
  | clearFree hfree =>
      rw [(freeJob_counters hfree).keepalive]
      exact hold b hb
  | initHold => cases hb
  | _ => exact hold b hb

theorem OwnerMove.turns_on {s s' : Shared n fn arg} {l l' : OwnerPc} {w : Wake Cond}
    (h : OwnerMove s l s' l' w) (hoff : s.1.threadsKeepalive = false)
    (hon : s'.1.threadsKeepalive = true) : l = .initKeepalive := by
  cases h with
  | initKeepalive => rfl
  | keepaliveOff => cases hon
  | clearTake htake =>
      rw [(takeJob_counters htake).keepalive, hoff] at hon
      cases hon
  | clearFree hfree =>
      rw [(freeJob_counters hfree).keepalive, hoff] at hon
      cases hon
  | _ =>
      have hcontra := hoff.symm.trans hon
      cases hcontra

theorem OwnerMove.phase {s s' : Shared n fn arg} {l l' : OwnerPc}
    {w : Wake Cond} (h : OwnerMove s l s' l' w) :
    (l'.phase = .fresh ∨ l'.phase = .allocating ->
      l.phase = .fresh ∧ s'.2 = s.2) ∧
    (l'.initReturned = false -> l.initReturned = false) ∧
    (l'.initReturned = true ->
      l.initReturned = true ∨ s.2.numThreadsAlive = n) := by
  cases h with
  | allAlive halive =>
      simp [OwnerPc.phase, OwnerPc.initReturned, halive]
  | _ => simp [OwnerPc.phase, OwnerPc.initReturned, setOnHold, setKeepalive]

theorem OwnerMove.released {s s' : Shared n fn arg} {l l' : OwnerPc}
    {w : Wake Cond} (h : OwnerMove s l s' l' w)
    (hafter : l'.phase.released = false) : l.phase.released = false := by
  cases h <;> first | rfl | cases hafter

/-!
## The invariant is kept
-/

section Step

variable {s : Process n m fn arg} {sh : Shared n fn arg}
variable {own : Mutex -> Option (Tid n m)} {asleep : Tid n m -> Option Cond}

theorem StageInv.congr (h : StageInv s) {s' : Process n m fn arg}
    (hmem : s'.pool.mem.quiet = s.pool.mem.quiet)
    (hkeep : s'.flags.threadsKeepalive = s.flags.threadsKeepalive)
    (hphase : s'.pool.owner.phase = s.pool.owner.phase ∧
      s'.pool.owner.initReturned = s.pool.owner.initReturned)
    (hstanding : s'.pool.standing = s.pool.standing)
    (hworker : forall i, s.pool.worker i = .unborn ->
      s'.pool.worker i = .unborn)
    (hclient : s.pool.owner.initReturned = false ->
      forall j, s'.pool.client j = s.pool.client j) : StageInv s' := by
  have hws : s'.pool.workerStanding = s.pool.workerStanding := by
    unfold Pool.workerStanding
    rw [hstanding]
  have halive : s'.pool.mem.quiet.numThreadsAlive =
      s.pool.mem.quiet.numThreadsAlive := by rw [hmem]
  have hworking : s'.pool.mem.quiet.numThreadsWorking =
      s.pool.mem.quiet.numThreadsWorking := by rw [hmem]
  constructor
  · intro hp
    rw [hphase.1] at hp
    rcases h.unused hp with ⟨hm, hw⟩
    exact ⟨hmem.trans hm, fun i => hworker i (hw i)⟩
  · intro hi j
    rw [hphase.2] at hi
    rw [hclient hi, h.outside hi]
  · intro b hb
    rw [hphase.1] at hb
    rw [hkeep, h.keepalive b hb]
  · rw [hws]
    exact halive.trans h.alive
  · rw [hws]
    exact hworking.trans h.working
  · intro hi i
    rw [hphase.2] at hi
    rw [hws]
    exact h.started hi i

theorem StageInv.sync (h : StageInv s) {t : Tid n m} {next : Loc n m fn arg t}
    (hrun : s.pool.mayRun t = true)
    (hsync : (thpoolCode t (s.pool.threads.loc t)).syncNext = some next) :
    StageInv (s.after s.shared
      { owner := own
        loc := Function.update s.pool.threads.loc t next
        asleep := asleep }) := by
  refine h.congr rfl rfl ?_ (standing_after_sync s s.shared hsync) ?_ ?_
  · cases t with
    | worker | client => exact ⟨rfl, rfl⟩
    | owner => exact ownerCode_syncNext_phase hsync
  · intro i hi
    cases t with
    | worker j =>
        by_cases hij : i = j
        · subst hij
          change (threadDo i (s.pool.worker i)).syncNext = some next at hsync
          rw [hi] at hsync
          cases hsync
        · have hne : (Tid.worker i : Tid n m) ≠ .worker j := by
            simpa using hij
          exact (Function.update_of_ne hne ..).trans hi
    | client | owner => exact hi
  · intro hi j
    cases t with
    | worker | owner => rfl
    | client k =>
        simp [Pool.mayRun, hi] at hrun

theorem StageInv.worker (h : StageInv s) {i : Fin n} {next : WorkerPc fn arg}
    {w : Wake Cond} (hmove : WorkerMove i s.shared (s.pool.worker i) sh next w) :
    StageInv (s.after sh { s.pool.threads with
      loc := Function.update s.pool.threads.loc (.worker i) next
      asleep := asleep }) := by
  rcases hmove.counters with ⟨halive, hworking, hkeep, hstarted⟩
  have hca := countWhere_worker Standing.counted s sh i next asleep
  have hcw := countWhere_worker Standing.working s sh i next asleep
  constructor
  · intro hp
    -- no worker has been created yet, so none can move
    exfalso
    rcases h.unused hp with ⟨hm, hw⟩
    rw [hw i] at hmove
    cases hmove with
    | born hi =>
        have hcreated : s.pool.mem.quiet.created = 0 := by rw [hm]
        change i.val < s.pool.mem.quiet.created at hi
        rw [hcreated] at hi
        exact Nat.not_lt_zero _ hi
  · intro hi j
    exact h.outside hi j
  · intro b hb
    exact hkeep.trans (h.keepalive b hb)
  · have hold := h.alive
    change sh.2.numThreadsAlive = _
    change sh.2.numThreadsAlive + _ = s.pool.mem.numThreadsAlive + _ at halive
    lia
  · have hold := h.working
    change sh.2.numThreadsWorking = _
    change sh.2.numThreadsWorking + _ = s.pool.mem.numThreadsWorking + _ at hworking
    lia
  · intro hi j
    have hj := h.started hi j
    unfold Pool.workerStanding at hj ⊢
    rw [standing_after]
    by_cases hij : j = i
    · subst hij
      rw [Function.update_self]
      exact hstarted hj
    · have hne : (Tid.worker j : Tid n m) ≠ .worker i := by simpa using hij
      rwa [Function.update_of_ne hne]

theorem StageInv.client (h : StageInv s) {j : Fin m} {next : Frame}
    {w : Wake Cond} (hrun : s.pool.mayRun (.client j) = true)
    (hmove : UserMove none s.shared (s.pool.client j) sh next w) :
    StageInv (s.after sh { s.pool.threads with
      loc := Function.update s.pool.threads.loc (.client j) next
      asleep := asleep }) := by
  have hinit : s.pool.owner.initReturned = true := by
    simp only [Pool.mayRun, decide_eq_true_eq] at hrun
    exact hrun.1
  have hws : (s.after sh { s.pool.threads with
      loc := Function.update s.pool.threads.loc (.client j) next
      asleep := asleep }).pool.workerStanding = s.pool.workerStanding := by
    unfold Pool.workerStanding
    rw [standing_after]
    funext i
    exact Function.update_of_ne (by simp) ..
  have hcounters := hmove.counters
  constructor
  · intro hp
    exfalso
    change s.pool.owner.phase = .fresh ∨ s.pool.owner.phase = .allocating at hp
    cases howner : s.pool.owner <;> rw [howner] at hp hinit <;>
      simp [OwnerPc.phase, OwnerPc.initReturned] at hp hinit
  · intro hi
    change s.pool.owner.initReturned = false at hi
    rw [hinit] at hi
    cases hi
  · intro b hb
    exact hcounters.keepalive.trans (h.keepalive b hb)
  · rw [hws]
    exact hcounters.alive.trans h.alive
  · rw [hws]
    exact hcounters.working.trans h.working
  · rw [hws]
    exact h.started

theorem StageInv.owner (h : StageInv s) {next : OwnerPc} {w : Wake Cond}
    (hmove : OwnerMove s.shared s.pool.owner sh next w) :
    StageInv (s.after sh { s.pool.threads with
      loc := Function.update s.pool.threads.loc .owner next
      asleep := asleep }) := by
  have hws : (s.after sh { s.pool.threads with
      loc := Function.update s.pool.threads.loc .owner next
      asleep := asleep }).pool.workerStanding = s.pool.workerStanding := by
    unfold Pool.workerStanding
    rw [standing_after]
    funext i
    exact Function.update_of_ne (by simp) ..
  have hnext : (s.after sh { s.pool.threads with
      loc := Function.update s.pool.threads.loc .owner next
      asleep := asleep }).pool.owner = next := owner_after s sh
  have hcounters := hmove.counters (fun hp => (h.unused (Or.inr hp)).1)
  constructor
  · rw [hnext]
    intro hp
    rcases hmove.phase.1 hp with ⟨hfresh, hmem⟩
    rcases h.unused (Or.inl hfresh) with ⟨hm, hw⟩
    exact ⟨(congrArg PoolMem.quiet hmem).trans hm, hw⟩
  · rw [hnext]
    intro hi
    exact h.outside (hmove.phase.2.1 hi)
  · rw [hnext]
    exact hmove.keepalive h.keepalive
  · rw [hws]
    exact hcounters.1.trans h.alive
  · rw [hws]
    exact hcounters.2.trans h.working
  · rw [hws, hnext]
    intro hi i
    rcases hmove.phase.2.2 hi with hbefore | hall
    · exact h.started hbefore i
    · -- `thpool_init` returns when the count says that all workers are alive
      have hcount : countWhere Standing.counted s.pool.workerStanding =
          Fintype.card (Fin n) := by
        have halive := h.alive
        change s.pool.mem.numThreadsAlive = n at hall
        rw [hall] at halive
        rw [Fintype.card_fin]
        exact_mod_cast halive.symm
      have hcounted := countWhere_eq_card.mp hcount i
      change (s.pool.worker i).standing.counted = true at hcounted
      change (s.pool.worker i).standing.started = true
      exact standing_started_of_counted hcounted

end Step

theorem phase_of_step {s s' : Process n m fn arg} {a : Action n m fn arg}
    (hstep : step s a = some s') :
    s'.pool.owner.phase = s.pool.owner.phase ∨
      exists sh w, OwnerMove s.shared s.pool.owner sh s'.pool.owner w := by
  rcases loc_of_step hstep .owner with hsame | hnext | ⟨_, w, hacts⟩
  · exact Or.inl (congrArg OwnerPc.phase hsame)
  · exact Or.inl (ownerCode_syncNext_phase hnext).1
  · exact Or.inr ⟨s'.shared, w, ownerMove_of_acts hacts⟩

theorem released_of_step {s s' : Process n m fn arg} {a : Action n m fn arg}
    (hstep : step s a = some s')
    (hafter : s'.pool.owner.phase.released = false) :
    s.pool.owner.phase.released = false := by
  rcases phase_of_step hstep with hsame | ⟨sh, w, hmove⟩
  · rwa [hsame] at hafter
  · exact hmove.released hafter

theorem keepaliveOff_step {s s' : Process n m fn arg} {a : Action n m fn arg}
    (hstep : step s a = some s')
    (hbefore : s.pool.owner.phase.keepalive = some false) :
    s'.pool.owner.phase.keepalive = some false := by
  rcases phase_of_step hstep with hsame | ⟨sh, w, hmove⟩
  · rwa [hsame]
  · generalize s.pool.owner = l at hmove hbefore
    generalize s'.pool.owner = l' at hmove
    cases hmove <;> first | rfl | cases hbefore

theorem stageInv_step {s s' : Process n m fn arg} {a : Action n m fn arg}
    (h : StageInv s) (hstep : step s a = some s') : StageInv s' := by
  cases shift_of_step hstep with
  | signal =>
      exact h.congr rfl rfl ⟨rfl, rfl⟩ rfl (fun _ hi => hi) (fun _ _ => rfl)
  | spurious =>
      exact h.congr rfl rfl ⟨rfl, rfl⟩ rfl (fun _ hi => hi) (fun _ _ => rfl)
  | sync hrun hsync => exact h.sync hrun hsync
  | sleep hrun hwait => exact h.sync hrun (by rw [hwait]; rfl)
  | worker _ hmove _ => exact h.worker hmove
  | client hrun hmove _ => exact h.client hrun hmove
  | owner hmove _ => exact h.owner hmove

end Thpool
end PracticeHand
