import PracticeHand.Thpool.Stages

/-!
# The binary semaphore never strands a job

`has_jobs` is binary, so several posts may collapse into one token.  A queue
that is not empty is nevertheless always covered: the token is there, or a
worker has taken it and not pulled yet, or a thread that changed the queue is
about to post.  And while the token is there, some worker is not asleep on the
semaphore.
-/

namespace PracticeHand
namespace Thpool

open Concurrency

variable {n m : Nat} {fn arg : Type}

/-- What a step has to do to keep a nonempty queue covered; the last case is a
step that leaves an existing cover alone. -/
def Covers (s s' : Shared n fn arg) (st st' : Standing) : Prop :=
  s'.2.jobqueue.len ≠ 0 ->
    s'.2.v = 1 ∨ st'.token = true ∨ st'.posting = true ∨
      (s'.2.v = s.2.v ∧ s.2.jobqueue.len ≠ 0 ∧
        st.token = false ∧ st.posting = false)

theorem pullSection_more {heap : Heap fn arg} {q q' : JobQueue}
    {job : Option Ptr} {more : Bool}
    (h : pullSection heap q = some (job, q', more)) (hlen : q'.len ≠ 0) :
    more = true ∧ job ≠ none := by
  unfold pullSection at h
  split at h
  · rename_i h0
    cases h
    exact (hlen h0).elim
  · split at h
    · cases h
      exact (hlen rfl).elim
    · simp only [Option.bind_eq_bind, Option.bind_eq_some_iff, Option.pure_def,
        Option.some.injEq, Prod.mk.injEq] at h
      rcases h with ⟨p, _, node, _, rfl, rfl, rfl⟩
      exact ⟨rfl, by simp⟩

theorem takeJob_posting {puller : Option (Fin n)} {s s' : Shared n fn arg}
    {p : PullPc} (h : takeJob puller s = some (s', p))
    (hlen : s'.2.jobqueue.len ≠ 0) : p.posting = true := by
  rcases takeJob_cases h with ⟨q, more, hpull, rfl, rfl⟩ |
    ⟨job, q, more, hpull, rfl, rfl⟩
  · exact ((pullSection_more hpull hlen).2 rfl).elim
  · rw [(pullSection_more hpull hlen).1]
    rfl

theorem UserMove.covers {caller : Option Ptr} {s s' : Shared n fn arg}
    {f f' : Frame} {w : Wake Cond} (h : UserMove caller s f s' f' w) :
    Covers s s' f.standing f'.standing := by
  intro hlen
  cases h with
  | link => exact Or.inr (Or.inr (Or.inl rfl))
  | post => exact Or.inl rfl
  | _ => exact Or.inr (Or.inr (Or.inr ⟨rfl, hlen, rfl, rfl⟩))

theorem WorkerMove.covers {i : Fin n} {s s' : Shared n fn arg}
    {l l' : WorkerPc fn arg} {w : Wake Cond} (h : WorkerMove i s l s' l' w)
    (hkeep : s.1.threadsKeepalive = true) :
    Covers s s' l.standing l'.standing := by
  intro hlen
  cases h with
  | checkOff hoff =>
      rw [hkeep] at hoff
      cases hoff
  | take htake => exact Or.inr (Or.inr (Or.inl (takeJob_posting htake hlen)))
  | pullPost => exact Or.inl rfl
  | user hmove =>
      simpa [WorkerPc.standing, Standing.alive] using hmove.covers hlen
  | token | checkOn | workingInc => exact Or.inr (Or.inl rfl)
  | free hfree =>
      rcases freeJob_cases hfree with ⟨_, rfl⟩ | ⟨_, _, _, rfl⟩
      · exact Or.inr (Or.inr (Or.inr ⟨rfl, hlen, rfl, rfl⟩))
      · exact Or.inr (Or.inr (Or.inr ⟨rfl, hlen, rfl, rfl⟩))
  | _ => exact Or.inr (Or.inr (Or.inr ⟨rfl, hlen, rfl, rfl⟩))

theorem OwnerMove.covers {s s' : Shared n fn arg} {l l' : OwnerPc}
    {w : Wake Cond} (h : OwnerMove s l s' l' w)
    (hphase : forall b, l'.phase.keepalive = some b -> b = true) :
    Covers s s' l.standing l'.standing := by
  intro hlen
  cases h with
  | initAlloc => exact (hlen rfl).elim
  | initHold | initKeepalive | create | allCreated | spin | allAlive |
      destroy => exact Or.inr (Or.inr (Or.inr ⟨rfl, hlen, rfl, rfl⟩))
  | _ => cases hphase false rfl

/-!
## The value of the semaphore
-/

/-- How one step changes `has_jobs->v`: not, or down to 0, or up to 1 by a
thread that owns the mutex of the semaphore and wakes its sleepers. -/
def SetsV (s s' : Shared n fn arg) (holds : Prop) (w : Wake Cond) : Prop :=
  s'.2.v = s.2.v ∨ s'.2.v = 0 ∨
    (holds ∧ (w = .signal .hasJobsCond ∨ w = .broadcast .hasJobsCond))

theorem UserMove.setsV {caller : Option Ptr} {s s' : Shared n fn arg}
    {f f' : Frame} {w : Wake Cond} (h : UserMove caller s f s' f' w) :
    SetsV s s' (f.Holds .hasJobsMutex) w := by
  cases h with
  | link hlink =>
      rcases linkJob_cases hlink with ⟨_, _, _, _, _, rfl⟩
      exact Or.inl rfl
  | post => exact Or.inr (Or.inr ⟨Or.inr rfl, Or.inl rfl⟩)
  | _ => exact Or.inl rfl

theorem takeJob_v {puller : Option (Fin n)} {s s' : Shared n fn arg}
    {p : PullPc} (h : takeJob puller s = some (s', p)) : s'.2.v = s.2.v := by
  rcases takeJob_cases h with ⟨_, _, _, _, rfl⟩ | ⟨_, _, _, _, _, rfl⟩
  · rfl
  · rfl

theorem freeJob_v {s s' : Shared n fn arg} {job : Option Ptr}
    (h : freeJob s job = some s') : s'.2.v = s.2.v := by
  rcases freeJob_cases h with ⟨_, rfl⟩ | ⟨_, _, _, rfl⟩
  · rfl
  · rfl

theorem WorkerMove.setsV {i : Fin n} {s s' : Shared n fn arg}
    {l l' : WorkerPc fn arg} {w : Wake Cond} (h : WorkerMove i s l s' l' w) :
    SetsV s s' (l.Holds .hasJobsMutex) w := by
  cases h with
  | token => exact Or.inr (Or.inl rfl)
  | take htake => exact Or.inl (takeJob_v htake)
  | pullPost => exact Or.inr (Or.inr ⟨Or.inr rfl, Or.inl rfl⟩)
  | user hmove => exact hmove.setsV
  | free hfree => exact Or.inl (freeJob_v hfree)
  | _ => exact Or.inl rfl

theorem OwnerMove.setsV {s s' : Shared n fn arg} {l l' : OwnerPc}
    {w : Wake Cond} (h : OwnerMove s l s' l' w) :
    SetsV s s' (l.Holds .hasJobsMutex) w := by
  cases h with
  | initAlloc | clearReset => exact Or.inr (Or.inl rfl)
  | postFirst | postRest => exact Or.inr (Or.inr ⟨rfl, Or.inr rfl⟩)
  | clearPost => exact Or.inr (Or.inr ⟨Or.inr rfl, Or.inl rfl⟩)
  | clearTake htake => exact Or.inl (takeJob_v htake)
  | clearFree hfree => exact Or.inl (freeJob_v hfree)
  | _ => exact Or.inl rfl

/-!
## The invariant
-/

structure TokenInv (s : Process n m fn arg) : Prop where
  covered : s.flags.threadsKeepalive = true ->
    s.pool.mem.jobqueue.len ≠ 0 ->
    s.pool.mem.v = 1 ∨ (exists t, (s.pool.standing t).token = true) ∨
      exists t, (s.pool.standing t).posting = true
  /-- A worker that has found no token still finds none when it goes to sleep. -/
  drowsy : forall i, s.pool.worker i = .bsem .sleep -> s.pool.mem.v ≠ 1
  awake : 0 < n -> s.pool.mem.v = 1 ->
    exists i, s.pool.threads.asleep (.worker i) ≠ some .hasJobsCond

theorem tokenInv_initial : TokenInv (Process.initial : Process n m fn arg) where
  covered := by
    intro h
    cases h
  drowsy := by
    intro i h
    cases h
  awake := by
    intro _ h
    cases h

theorem awake_of_wake {asleep asleep' : Tid n m -> Option Cond} {w : Wake Cond}
    {woken : Option (Tid n m)} (hn : 0 < n)
    (hw : w = .signal .hasJobsCond ∨ w = .broadcast .hasJobsCond)
    (happly : w.apply woken asleep = some asleep')
    (hsleep : forall t, asleep t = some .hasJobsCond ->
      exists i, t = Tid.worker i) :
    exists i, asleep' (.worker i) ≠ some .hasJobsCond := by
  rcases hw with rfl | rfl
  · rcases Wake.apply_signal happly with ⟨u, hu, rfl⟩ | ⟨hnone, rfl⟩
    · rcases hsleep u hu with ⟨i, rfl⟩
      exact ⟨i, by simp⟩
    · exact ⟨⟨0, hn⟩, hnone _⟩
  · cases woken with
    | some u => cases happly
    | none =>
        cases happly
        refine ⟨⟨0, hn⟩, ?_⟩
        intro h
        dsimp only at h
        split at h
        · cases h
        · rename_i hne
          exact hne h

theorem sleeper_is_worker {s : Process n m fn arg} (h : LockInv s)
    (t : Tid n m) (ht : s.pool.threads.asleep t = some .hasJobsCond) :
    exists i, t = Tid.worker i := by
  have hsleeps := h.sleepers t _ ht
  cases t with
  | worker i => exact ⟨i, rfl⟩
  | client j =>
      exfalso
      change (s.pool.client j).SleepsOn .hasJobsCond at hsleeps
      generalize s.pool.client j = f at hsleeps
      cases f with
      | wait p => cases p <;> cases hsleeps
      | _ => cases hsleeps
  | owner => exact hsleeps.elim

section Step

variable {s : Process n m fn arg} {sh : Shared n fn arg} {w : Wake Cond}
variable {woken : Option (Tid n m)} {asleep : Tid n m -> Option Cond}
variable {t : Tid n m} {next : Loc n m fn arg t}

theorem TokenInv.awake_after (h : TokenInv s) (hlock : LockInv s)
    {holds : Prop} (hv : SetsV s.shared sh holds w)
    (happly : w.apply woken s.pool.threads.asleep = some asleep)
    (hn : 0 < n) (hone : sh.2.v = 1) :
    exists i, asleep (.worker i) ≠ some .hasJobsCond := by
  rcases hv with hsame | hzero | ⟨_, hw⟩
  · rcases h.awake hn (hsame ▸ hone) with ⟨i, hi⟩
    exact ⟨i, fun hi' => hi (Wake.apply_sub happly hi')⟩
  · rw [hzero] at hone
    cases hone
  · exact awake_of_wake hn hw happly (sleeper_is_worker hlock)

theorem TokenInv.covered_after (h : TokenInv s)
    {owner : Mutex -> Option (Tid n m)}
    (hkeep : s.flags.threadsKeepalive = true)
    (hcovers : Covers s.shared sh (s.pool.standing t) (standing t next))
    (hlen : sh.2.jobqueue.len ≠ 0) :
    sh.2.v = 1 ∨
      (exists u, ((s.after sh
        { owner := owner
          loc := Function.update s.pool.threads.loc t next
          asleep := asleep }).pool.standing u).token = true) ∨
      exists u, ((s.after sh
        { owner := owner
          loc := Function.update s.pool.threads.loc t next
          asleep := asleep }).pool.standing u).posting = true := by
  rw [standing_after]
  rcases hcovers hlen with hv | htoken | hpost | ⟨hv, hlen', htoken, hpost⟩
  · exact Or.inl hv
  · exact Or.inr (Or.inl ⟨t, by rw [Function.update_self]; exact htoken⟩)
  · exact Or.inr (Or.inr ⟨t, by rw [Function.update_self]; exact hpost⟩)
  · -- the cover is another thread's, or the token itself
    rcases h.covered hkeep hlen' with hone | ⟨u, hu⟩ | ⟨u, hu⟩
    · exact Or.inl (hv.trans hone)
    · have hut : u ≠ t := by
        intro hut
        rw [hut, htoken] at hu
        cases hu
      exact Or.inr (Or.inl ⟨u, by rw [Function.update_of_ne hut]; exact hu⟩)
    · have hut : u ≠ t := by
        intro hut
        rw [hut, hpost] at hu
        cases hu
      exact Or.inr (Or.inr ⟨u, by rw [Function.update_of_ne hut]; exact hu⟩)

/-- Nobody else posts while a worker is on its way to sleep. -/
theorem TokenInv.drowsy_after (h : TokenInv s) (hlock : LockInv s)
    (hv : SetsV s.shared sh (Held t (s.pool.threads.loc t) .hasJobsMutex) w)
    {i : Fin n} (hne : t ≠ .worker i) (hi : s.pool.worker i = .bsem .sleep) :
    sh.2.v ≠ 1 := by
  rcases hv with hsame | hzero | ⟨hholds, _⟩
  · rw [hsame]
    exact h.drowsy i hi
  · rw [hzero]
    simp
  · have hheld : Held (.worker i) (s.pool.threads.loc (.worker i))
        .hasJobsMutex := by
      change (s.pool.worker i).Holds .hasJobsMutex
      rw [hi]
      rfl
    exact (hne (hlock.owned.unique hholds hheld)).elim

end Step

theorem threadDo_not_sync_sleep {i : Fin n} {l : WorkerPc fn arg} :
    ¬ (threadDo i l).syncNext = some (.bsem .sleep) := by
  intro h
  cases l with
  | bsem p => cases p <;> cases h
  | pull p =>
      cases p with
      | lock | take | unlock => cases h
      | post job q => cases q <;> cases h
  | got job => cases job <;> cases h
  | running job function arg' f =>
      cases f with
      | user => cases h
      | push | wait | pause =>
          simp only [threadDo, Instr.syncNext_map, Option.map_eq_some_iff] at h
          rcases h with ⟨_, _, hcontra⟩
          cases hcontra
  | _ => cases h

theorem worker_of_sync_sleep {s : Process n m fn arg} {t : Tid n m}
    {next : Loc n m fn arg t} {own : Mutex -> Option (Tid n m)}
    {asleep : Tid n m -> Option Cond} {i : Fin n}
    (hsync : (thpoolCode t (s.pool.threads.loc t)).syncNext = some next)
    (hi : (s.after s.shared
      { owner := own
        loc := Function.update s.pool.threads.loc t next
        asleep := asleep }).pool.worker i = .bsem .sleep) :
    s.pool.worker i = .bsem .sleep := by
  cases t with
  | worker k =>
      rw [worker_after] at hi
      by_cases hik : i = k
      · subst hik
        rw [Function.update_self] at hi
        subst hi
        exact (threadDo_not_sync_sleep hsync).elim
      · rwa [Function.update_of_ne hik] at hi
  | client | owner => exact hi

theorem ownerMove_turns_on {s : Process n m fn arg} {sh : Shared n fn arg}
    {next : OwnerPc} {w : Wake Cond}
    (hmove : OwnerMove s.shared s.pool.owner sh next w) (hstage : StageInv s)
    (hoff : ¬ s.flags.threadsKeepalive = true)
    (hon : sh.1.threadsKeepalive = true) : sh.2.jobqueue.len = 0 := by
  have hstart := hmove.turns_on (eq_false_of_ne_true hoff) hon
  rcases hstage.unused (Or.inl (by rw [hstart]; rfl)) with ⟨hmem, _⟩
  have hlen : s.pool.mem.quiet.jobqueue.len = 0 := by
    rw [hmem]
    rfl
  rw [hstart] at hmove
  cases hmove
  exact hlen

theorem workerMove_sleep {i : Fin n} {s s' : Shared n fn arg}
    {l : WorkerPc fn arg} {w : Wake Cond}
    (h : WorkerMove i s l s' (.bsem .sleep) w) : s'.2.v ≠ 1 := by
  cases h with
  | noToken hv => exact hv

theorem tokenInv_step {s s' : Process n m fn arg} {a : Action n m fn arg}
    (hlock : LockInv s) (hstage : StageInv s) (h : TokenInv s)
    (hstep : step s a = some s') : TokenInv s' := by
  cases shift_of_step hstep with
  | signal => exact ⟨h.covered, h.drowsy, h.awake⟩
  | @spurious t =>
      refine ⟨h.covered, h.drowsy, ?_⟩
      intro hn hv
      rcases h.awake hn hv with ⟨i, hi⟩
      refine ⟨i, ?_⟩
      by_cases hit : Tid.worker i = t
      · simp [Process.after, ← hit]
      · simpa [Process.after, Function.update_of_ne hit] using hi
  | @sync t next own hrun hsync =>
      refine ⟨?_, ?_, h.awake⟩
      · rw [standing_after_sync s s.shared hsync]
        exact h.covered
      · intro i hi
        exact h.drowsy i (worker_of_sync_sleep hsync hi)
  | @sleep t next k x own hrun hwait =>
      have hsync : (thpoolCode t (s.pool.threads.loc t)).syncNext = some next := by
        rw [hwait]
        rfl
      refine ⟨?_, ?_, ?_⟩
      · rw [standing_after_sync s s.shared hsync]
        exact h.covered
      · intro i hi
        exact h.drowsy i (worker_of_sync_sleep hsync hi)
      · intro hn hv
        rcases h.awake hn hv with ⟨i, hi⟩
        refine ⟨i, ?_⟩
        by_cases hit : Tid.worker i = t
        · subst hit
          rcases threadDo_wait hwait with ⟨hloc, _, _⟩ | ⟨_, _, _, _, _, rfl⟩
          · exact (h.drowsy i hloc hv).elim
          · simp [Process.after]
        · simpa [Process.after, Function.update_of_ne hit] using hi
  | @worker i sh next w woken asleep hrun hmove happly =>
      refine ⟨?_, ?_, ?_⟩
      · intro hkeep hlen
        have hkeep' : s.flags.threadsKeepalive = true :=
          hmove.counters.2.2.1.symm.trans hkeep
        exact h.covered_after hkeep' (hmove.covers hkeep') hlen
      · intro j hj
        rw [worker_after] at hj
        by_cases hji : j = i
        · subst hji
          rw [Function.update_self] at hj
          subst hj
          exact workerMove_sleep hmove
        · rw [Function.update_of_ne hji] at hj
          have hne : (Tid.worker i : Tid n m) ≠ .worker j := by
            simpa using fun heq => hji heq.symm
          exact h.drowsy_after hlock (t := .worker i) hmove.setsV hne hj
      · intro hn hv
        exact h.awake_after hlock hmove.setsV happly hn hv
  | @client j sh next w woken asleep hrun hmove happly =>
      refine ⟨?_, ?_, ?_⟩
      · intro hkeep hlen
        have hkeep' : s.flags.threadsKeepalive = true :=
          hmove.counters.keepalive.symm.trans hkeep
        exact h.covered_after hkeep' hmove.covers hlen
      · intro i hi
        exact h.drowsy_after hlock (t := .client j) hmove.setsV (by simp) hi
      · intro hn hv
        exact h.awake_after hlock hmove.setsV happly hn hv
  | @owner sh next w woken asleep hmove happly =>
      refine ⟨?_, ?_, ?_⟩
      · intro hkeep hlen
        have hphase : forall b, next.phase.keepalive = some b -> b = true := by
          intro b hb
          rw [← hmove.keepalive hstage.keepalive b hb]
          exact hkeep
        by_cases hkeep' : s.flags.threadsKeepalive = true
        · exact h.covered_after hkeep' (hmove.covers hphase) hlen
        · -- only the assignment in `thpool_init` turns the flag on
          exfalso
          exact hlen (ownerMove_turns_on hmove hstage hkeep' hkeep)
      · intro i hi
        exact h.drowsy_after hlock (t := .owner) hmove.setsV (by simp) hi
      · intro hn hv
        exact h.awake_after hlock hmove.setsV happly hn hv

/-!
## No stranded job
-/

theorem reachable_tokenInv {s : Process n m fn arg}
    (h : (thpool n m fn arg).Reachable s) :
    LockInv s ∧ StageInv s ∧ TokenInv s := by
  apply System.ReachableUnder.invariant _ _ h
  · intro s hs
    rw [show s = Process.initial from hs]
    exact ⟨lockInv_initial, stageInv_initial, tokenInv_initial⟩
  · intro s t a hinv _ hstep
    rcases hinv with ⟨hlock, hstage, htoken⟩
    exact ⟨lockInv_step hlock hstep, stageInv_step hstage hstep,
      tokenInv_step hlock hstage htoken hstep⟩

def Frame.insidePush : Frame -> Bool
  | .push _ _ => true
  | _ => false

def InsidePush (p : Pool n m fn arg) : Tid n m -> Bool
  | .worker i =>
      match p.worker i with
      | .running _ _ _ f => f.insidePush
      | _ => false
  | .client j => (p.client j).insidePush
  | .owner => false

def InsidePull (p : Pool n m fn arg) : Tid n m -> Bool
  | .worker i =>
      match p.worker i with
      | .pull _ => true
      | _ => false
  | .client _ => false
  | .owner =>
      match p.owner with
      | .clearPull _ _ => true
      | _ => false

/-- Returned from `bsem_wait` and not yet in `jobqueue_pull`. -/
def WorkerPc.hasToken : WorkerPc fn arg -> Bool
  | .check => true
  | .workingLock => true
  | .workingInc => true
  | .workingUnlock => true
  | _ => false

theorem inside_of_posting {s : Process n m fn arg} {t : Tid n m}
    (h : (s.pool.standing t).posting = true) :
    InsidePush s.pool t = true ∨ InsidePull s.pool t = true := by
  cases t with
  | worker i =>
      change (s.pool.worker i).standing.posting = true at h
      unfold InsidePush InsidePull
      dsimp only
      generalize s.pool.worker i = l at h
      cases l with
      | pull p => exact Or.inr rfl
      | running job function arg' f =>
          cases f with
          | push newjob p => exact Or.inl rfl
          | _ => cases h
      | _ => cases h
  | client j =>
      change (s.pool.client j).standing.posting = true at h
      unfold InsidePush
      dsimp only
      generalize s.pool.client j = f at h
      cases f with
      | push newjob p => exact Or.inl rfl
      | _ => cases h
  | owner =>
      change s.pool.owner.standing.posting = true at h
      unfold InsidePull
      dsimp only
      generalize s.pool.owner = l at h
      cases l with
      | clearPull total p => exact Or.inr rfl
      | _ => cases h

theorem worker_of_standing_token {s : Process n m fn arg} {t : Tid n m}
    (h : (s.pool.standing t).token = true) : exists i, t = .worker i := by
  cases t with
  | worker i => exact ⟨i, rfl⟩
  | client j =>
      change (s.pool.client j).standing.token = true at h
      rw [Frame.standing_token] at h
      cases h
  | owner =>
      change s.pool.owner.standing.token = true at h
      generalize s.pool.owner = l at h
      cases l <;> cases h

/-- A worker with the token that is not in `jobqueue_pull` has returned from
`bsem_wait`, or is leaving the mutex of the semaphore. -/
theorem worker_of_token {s : Process n m fn arg} {t : Tid n m}
    (h : (s.pool.standing t).token = true) (hpull : InsidePull s.pool t = false) :
    exists i, t = .worker i ∧
      ((s.pool.worker i).hasToken = true ∨ s.pool.worker i = .bsem .unlock) := by
  rcases worker_of_standing_token h with ⟨i, rfl⟩
  refine ⟨i, rfl, ?_⟩
  change (s.pool.worker i).standing.token = true at h
  unfold InsidePull at hpull
  dsimp only at hpull
  generalize s.pool.worker i = l at h hpull
  cases l with
  | bsem p => cases p <;> first | exact Or.inr rfl | cases h
  | pull p => cases hpull
  | check | workingLock | workingInc | workingUnlock => exact Or.inl rfl
  | _ => cases h

theorem standing_of_asleep {s : Process n m fn arg} (hlock : LockInv s)
    {i : Fin n} (h : s.pool.threads.asleep (.worker i) = some .hasJobsCond) :
    (s.pool.standing (.worker i)).token = false ∧
      (s.pool.standing (.worker i)).posting = false := by
  have hsleeps := hlock.sleepers (.worker i) _ h
  change (s.pool.worker i).SleepsOn .hasJobsCond at hsleeps
  change (s.pool.worker i).standing.token = false ∧
    (s.pool.worker i).standing.posting = false
  generalize s.pool.worker i = l at hsleeps
  cases l with
  | bsem p => cases p <;> first | exact ⟨rfl, rfl⟩ | cases hsleeps
  | running job function arg' f =>
      cases f with
      | wait p => cases p <;> cases hsleeps
      | _ => cases hsleeps
  | _ => cases hsleeps

/-- A thread that is about to post while jobs are queued is a client in
`jobqueue_push`, or a worker. -/
theorem client_or_worker_of_posting {s : Process n m fn arg}
    (hstage : StageInv s) (hkeep : s.flags.threadsKeepalive = true)
    {t : Tid n m} (h : (s.pool.standing t).posting = true) :
    (exists i, t = .worker i) ∨
      exists j, t = .client j ∧ InsidePush s.pool (.client j) = true := by
  cases t with
  | worker i => exact Or.inl ⟨i, rfl⟩
  | client j =>
      rcases inside_of_posting h with hpush | hpull
      · exact Or.inr ⟨j, rfl, hpush⟩
      · cases hpull
  | owner =>
      -- the owner pulls only after it has turned the flag off
      exfalso
      have hoff := hstage.keepalive false
      change s.pool.owner.standing.posting = true at h
      generalize s.pool.owner = l at h hoff
      cases l with
      | clearPull total p =>
          rw [hoff rfl] at hkeep
          cases hkeep
      | _ => cases h

theorem TokenInv.pushing_of_all_asleep {s : Process n m fn arg}
    (htoken : TokenInv s) (hlock : LockInv s) (hstage : StageInv s)
    (hkeep : s.flags.threadsKeepalive = true)
    (hlen : s.pool.mem.jobqueue.len ≠ 0) (hn : 0 < n)
    (hall : forall i, s.pool.threads.asleep (.worker i) = some .hasJobsCond) :
    exists j, InsidePush s.pool (.client j) = true := by
  rcases htoken.covered hkeep hlen with hv | ⟨t, ht⟩ | ⟨t, ht⟩
  · rcases htoken.awake hn hv with ⟨i, hi⟩
    exact (hi (hall i)).elim
  · rcases worker_of_standing_token ht with ⟨i, rfl⟩
    rw [(standing_of_asleep hlock (hall i)).1] at ht
    cases ht
  · rcases client_or_worker_of_posting hstage hkeep ht with ⟨i, rfl⟩ | ⟨j, _, hj⟩
    · rw [(standing_of_asleep hlock (hall i)).2] at ht
      cases ht
    · exact ⟨j, hj⟩

theorem TokenInv.token_of_quiet {s : Process n m fn arg} (htoken : TokenInv s)
    (hlock : LockInv s) (hkeep : s.flags.threadsKeepalive = true)
    (hlen : s.pool.mem.jobqueue.len ≠ 0)
    (hquiet : forall t, InsidePush s.pool t = false ∧
      InsidePull s.pool t = false) :
    s.pool.mem.v = 1 ∨
      (exists i, (s.pool.worker i).hasToken = true) ∨
      (exists i, s.pool.worker i = .bsem .unlock ∧
        s.pool.threads.owner .hasJobsMutex = some (.worker i)) := by
  rcases htoken.covered hkeep hlen with hv | ⟨t, ht⟩ | ⟨t, ht⟩
  · exact Or.inl hv
  · rcases worker_of_token ht (hquiet t).2 with ⟨i, rfl, hi | hi⟩
    · exact Or.inr (Or.inl ⟨i, hi⟩)
    · refine Or.inr (Or.inr ⟨i, hi, ?_⟩)
      apply (hlock.owned .hasJobsMutex (.worker i)).mpr
      change (s.pool.worker i).Holds .hasJobsMutex
      rw [hi]
      rfl
  · exfalso
    rcases inside_of_posting ht with hpush | hpull
    · rw [(hquiet t).1] at hpush
      cases hpush
    · rw [(hquiet t).2] at hpull
      cases hpull

/-- While the workers are kept alive and jobs are queued: outside the sections
of the queue the token is there or a worker has it, and all workers sleep on the
semaphore only while a client is inside `jobqueue_push`.  A worker that has just
taken the token owns the mutex of the semaphore for one more step. -/
theorem thpool_no_stranded_job {s : Process n m fn arg}
    (hreach : (thpool n m fn arg).Reachable s)
    (hkeep : s.flags.threadsKeepalive = true)
    (hlen : 0 < s.pool.mem.jobqueue.len) :
    ((forall t, InsidePush s.pool t = false ∧ InsidePull s.pool t = false) ->
      (s.pool.mem.v = 1 ∨
        (exists i, (s.pool.worker i).hasToken = true) ∨
        (exists i, s.pool.worker i = .bsem .unlock ∧
          s.pool.threads.owner .hasJobsMutex = some (.worker i))) ∧
      (s.pool.threads.owner .hasJobsMutex = none ->
        s.pool.mem.v = 1 ∨ exists i, (s.pool.worker i).hasToken = true) ∧
      (0 < n ->
        ¬ forall i, s.pool.threads.asleep (.worker i) = some .hasJobsCond)) ∧
    (0 < n ->
      (forall i, s.pool.threads.asleep (.worker i) = some .hasJobsCond) ->
      exists j, InsidePush s.pool (.client j) = true) := by
  rcases reachable_tokenInv hreach with ⟨hlock, hstage, htoken⟩
  have hqueued := ne_of_gt hlen
  have hclient := htoken.pushing_of_all_asleep hlock hstage hkeep hqueued
  refine ⟨fun hquiet => ?_, hclient⟩
  have htaken := htoken.token_of_quiet hlock hkeep hqueued hquiet
  refine ⟨htaken, ?_, ?_⟩
  · intro hfree
    rcases htaken with hv | hi | ⟨i, _, hown⟩
    · exact Or.inl hv
    · exact Or.inr hi
    · rw [hfree] at hown
      cases hown
  · intro hn hall
    rcases hclient hn hall with ⟨j, hj⟩
    rw [(hquiet (.client j)).1] at hj
    cases hj

def addOneJob (i : Fin n) (j : Fin m) : List (Action n m Unit Unit) :=
  startPool i ++ callAddWork j

theorem thpool_no_stranded_job_one :
    exists s : Process 1 1 Unit Unit,
      s.flags.threadsKeepalive = true ∧ 0 < s.pool.mem.jobqueue.len ∧
      (forall t, InsidePush s.pool t = false ∧ InsidePull s.pool t = false) ∧
      ¬ forall i, s.pool.threads.asleep (.worker i) = some .hasJobsCond := by
  have hrun : exists s, (thpool 1 1 Unit Unit).Reachable s ∧
      (s.flags.threadsKeepalive = true ∧ 0 < s.pool.mem.jobqueue.len ∧
        forall t, InsidePush s.pool t = false ∧ InsidePull s.pool t = false) :=
    System.reachable_of_exec (s := Process.initial) (addOneJob 0 0) rfl (by decide)
  rcases hrun with ⟨s, hreach, hkeep, hlen, hquiet⟩
  exact ⟨s, hkeep, hlen, hquiet,
    ((thpool_no_stranded_job hreach hkeep hlen).1 hquiet).2.2 (by decide)⟩

end Thpool
end PracticeHand
