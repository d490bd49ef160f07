import PracticeHand.Thpool.Effort
import PracticeHand.Thpool.Pause

/-!
# The pool drains

When nothing more is asked of the pool, its runs come to an end.  Where such a run
cannot be continued the queue is empty, every accepted job has been run and freed
once, and all workers sleep on the semaphore.
-/

namespace PracticeHand
namespace Thpool

open Concurrency

variable {n m : Nat} {fn arg : Type}

/-!
## Where a run ends

The mutexes are taken in one order: a thread that waits for a mutex while it owns one
owns `rwmutex` and waits for the mutex of `has_jobs`.
-/

theorem userCode_lock_order {caller : Option Ptr} {f next : Frame} {x y : Mutex}
    (hf : f.Holds x) (h : (userCode caller f : Code n fn arg Frame) = .lock y next) :
    x = .rwmutex ∧ y = .hasJobsMutex := by
  cases f with
  | user | pause => cases h
  | push newjob p =>
      cases p with
      | lock => exact hf.elim
      | link | unlock => cases h
      | post q =>
          cases q with
          | lock =>
              cases h
              exact ⟨hf.resolve_right id, rfl⟩
          | set | unlock => cases h
  | wait p =>
      cases p with
      | lock | relock => exact hf.elim
      | len | working | sleep | unlock => cases h

theorem threadDo_lock_order {i : Fin n} {l next : WorkerPc fn arg} {x y : Mutex}
    (hl : l.Holds x) (h : threadDo i l = .lock y next) :
    x = .rwmutex ∧ y = .hasJobsMutex := by
  cases l with
  | bsem p =>
      cases p with
      | lock | relock => exact hl.elim
      | test | sleep | unlock => cases h
  | pull p =>
      cases p with
      | lock => exact hl.elim
      | take | unlock => cases h
      | post job q =>
          cases q with
          | lock =>
              cases h
              exact ⟨hl.resolve_right id, rfl⟩
          | set | unlock => cases h
  | running job function arg' f =>
      have horder : forall z g, (userCode (some job) f : Code n fn arg Frame) = .lock z g ->
          x = .rwmutex ∧ z = .hasJobsMutex := fun z g hcode => userCode_lock_order hl hcode
      cases f with
      | user => cases h
      | push | wait | pause =>
          simp only [threadDo] at h
          cases hcode : (userCode (some job) _ : Code n fn arg Frame) with
          | lock z g =>
              rw [hcode] at h
              cases h
              exact horder _ g hcode
          | unlock | wait | act =>
              rw [hcode] at h
              cases h
  | aliveInc | aliveUnlock | workingInc | workingUnlock | doneDec | doneUnlock | exitDec |
      exitUnlock => cases h
  | _ => exact hl.elim

theorem userCode_goes {owner : Mutex -> Option (Tid n m)} {t : Tid n m}
    {s : Shared n fn arg} {caller : Option Ptr} {f : Frame} (hf : f ≠ .user)
    (howns : forall x, f.Holds x -> owner x = some t)
    (hlink : forall p, f.standing.newjob = some p -> linkJob caller p s ≠ none)
    (halive : s.2.numThreadsAlive ≤ n) :
    (exists x next, (userCode caller f : Code n fn arg Frame) = .lock x next) ∨
      exists next, (userCode caller f).Enabled owner t s .go next := by
  cases f with
  | user => exact (hf rfl).elim
  | push newjob p =>
      cases p with
      | lock => exact Or.inl ⟨_, _, rfl⟩
      | link =>
          rcases Option.ne_none_iff_exists'.mp (hlink newjob rfl) with ⟨s', hs'⟩
          have hact : (jobqueuePush caller newjob .link).Enabled owner t s .go
              (.goto (.post .lock)) := .act (by rw [hs']; rfl)
          exact Or.inr ⟨_, hact.map _⟩
      | unlock => exact Or.inr ⟨_, .unlock (howns _ rfl)⟩
      | post q =>
          cases q with
          | lock => exact Or.inl ⟨_, _, rfl⟩
          | set => exact Or.inr ⟨_, .act rfl⟩
          | unlock => exact Or.inr ⟨_, .unlock (howns _ (Or.inr rfl))⟩
  | wait p =>
      cases p with
      | lock | relock => exact Or.inl ⟨_, _, rfl⟩
      | len | working => exact Or.inr ⟨_, .act rfl⟩
      | sleep => exact Or.inr ⟨_, .wait (howns _ rfl)⟩
      | unlock => exact Or.inr ⟨_, .unlock (howns _ rfl)⟩
  | pause k =>
      have hturn : exists r, thpoolPause k s = some r := by
        unfold thpoolPause
        split
        · rename_i hk
          rw [dif_pos (by lia)]
          exact ⟨_, rfl⟩
        · exact ⟨_, rfl⟩
      rcases hturn with ⟨⟨s', f'⟩, hr⟩
      exact Or.inr ⟨f', .act (by rw [hr]; rfl)⟩

theorem threadDo_goes {owner : Mutex -> Option (Tid n m)} {i : Fin n}
    {s : Shared n fn arg} {l : WorkerPc fn arg} (hstarted : l.standing.started = true)
    (hexited : l ≠ .exited)
    (howns : forall x, l.Holds x -> owner x = some (.worker i))
    (hlink : forall caller p, l.standing.newjob = some p -> linkJob caller p s ≠ none)
    (htake : takeJob (some i) s ≠ none)
    (hjob : forall p st, l.standing.job = some (p, st) ->
      s.2.heap p ≠ none ∧ freeJob s (some p) ≠ none)
    (halive : s.2.numThreadsAlive ≤ n) :
    (exists x next, threadDo i l = .lock x next) ∨
      exists c next, c.quiet = true ∧
        (threadDo i l).Enabled owner (Tid.worker i) s c next := by
  cases l with
  | unborn | aliveLock | aliveInc => cases hstarted
  | exited => exact (hexited rfl).elim
  | workingLock | doneLock | exitLock => exact Or.inl ⟨_, _, rfl⟩
  | aliveUnlock | workingUnlock | doneUnlock | exitUnlock =>
      exact Or.inr ⟨.go, _, rfl, .unlock (howns _ rfl)⟩
  | loop | check | workingInc | doneDec | exitDec =>
      exact Or.inr ⟨.go, _, rfl, .act rfl⟩
  | bsem p =>
      cases p with
      | lock | relock => exact Or.inl ⟨_, _, rfl⟩
      | sleep => exact Or.inr ⟨.go, _, rfl, .wait (howns _ rfl)⟩
      | unlock => exact Or.inr ⟨.go, _, rfl, .unlock (howns _ rfl)⟩
      | test =>
          rcases @bsemWait_enabled n m fn arg owner (.worker i) s .test
            ⟨howns, fun hnot => (hnot rfl).elim⟩ rfl with ⟨next, henabled, _⟩
          exact Or.inr ⟨.go, _, rfl, henabled.map _⟩
  | pull p =>
      cases p with
      | lock => exact Or.inl ⟨_, _, rfl⟩
      | take =>
          rcases Option.ne_none_iff_exists'.mp htake with ⟨⟨s', l'⟩, hs'⟩
          have hact : (jobqueuePull (some i) .take).Enabled owner (Tid.worker i) s .go
              (.goto l') := .act (by rw [hs']; rfl)
          exact Or.inr ⟨.go, _, rfl, hact.map _⟩
      | unlock job => exact Or.inr ⟨.go, _, rfl, .unlock (howns _ rfl)⟩
      | post job q =>
          cases q with
          | lock => exact Or.inl ⟨_, _, rfl⟩
          | set => exact Or.inr ⟨.go, _, rfl, .act rfl⟩
          | unlock => exact Or.inr ⟨.go, _, rfl, .unlock (howns _ (Or.inr rfl))⟩
  | got job =>
      cases job with
      | none => exact Or.inr ⟨.go, _, rfl, .act rfl⟩
      | some job =>
          rcases Option.ne_none_iff_exists'.mp (hjob job _ rfl).1 with ⟨node, hnode⟩
          exact Or.inr ⟨.go, _, rfl, .act (by rw [hnode]; rfl)⟩
  | running job function arg' f =>
      have hgoes := fun hf => @userCode_goes n m fn arg owner (.worker i) s (some job) f hf howns
        (hlink (some job)) halive
      cases f with
      | user => exact Or.inr ⟨.ret, _, rfl, .act rfl⟩
      | push | wait | pause =>
          rcases hgoes (by simp) with ⟨x, next, hlock⟩ | ⟨next, henabled⟩
          · exact Or.inl ⟨x, _, by simp only [threadDo, hlock]; rfl⟩
          · exact Or.inr ⟨.go, _, rfl, henabled.map _⟩
  | free job =>
      rcases Option.ne_none_iff_exists'.mp (hjob job _ rfl).2 with ⟨s', hs'⟩
      exact Or.inr ⟨.go, _, rfl, .act (by rw [hs']; rfl)⟩

def Stuck (s : Process n m fn arg) : Prop :=
  forall a s', Winds s a -> step s a ≠ some s'

theorem Winding.step_of_enabled {s : Process n m fn arg} (h : Winding s) {t : Tid n m}
    {c : Choice fn arg} {next : Loc n m fn arg t} (ht : t ≠ .owner)
    (hc : c.quiet = true) (hawake : s.pool.threads.asleep t = none)
    (henabled : (thpoolCode t (s.pool.threads.loc t)).Enabled s.pool.threads.owner t
      s.shared c next) : ¬ Stuck s := by
  intro hstuck
  have hgone : s.pool.owner ≠ .gone := by
    intro hgone
    have hused := h.used
    rw [hgone] at hused
    cases hused
  have hrun : s.pool.mayRun t = true := by
    cases t with
    | worker i => simp [Pool.mayRun, h.free i, hgone]
    | client j => simp [Pool.mayRun, h.returned, hgone]
    | owner => rfl
  rcases machineStep_of_enabled hawake henabled with
    ⟨woken, ⟨flags, mem⟩, threads, hmachine, _⟩
  refine hstuck (.thread (.run t c woken))
    { flags := flags, pool := { s.pool with mem := mem, threads := threads } }
    ⟨t, c, woken, rfl, ht, hc⟩ ?_
  simp only [Thpool.step, Event.enabled, hrun, if_true]
  rw [show machineStep thpoolCode (s.flags, s.pool.mem) s.pool.threads (.run t c woken) =
    some ((flags, mem), threads) from hmachine]
  rfl

/-- In a stuck state a thread that is awake has ended, is outside of all calls, or
waits for a mutex that another thread owns. -/
theorem Winding.blocked {s : Process n m fn arg} (h : Winding s) (hstuck : Stuck s)
    {t : Tid n m} (ht : t ≠ .owner) (hawake : s.pool.threads.asleep t = none) :
    (exists i, t = .worker i ∧ s.pool.worker i = .exited) ∨
      (exists j, t = .client j ∧ s.pool.client j = .user) ∨
      exists x next u, thpoolCode t (s.pool.threads.loc t) = .lock x next ∧
        s.pool.threads.owner x = some u := by
  rcases reachable_tokenInv h.reach with ⟨hlock, hstage, _⟩
  rcases thpool_no_bad_pointer h.reach h.used with ⟨hlink, htake, hjob⟩
  have halive : s.shared.2.numThreadsAlive ≤ n := by
    have hcount := hstage.alive
    have hle := countWhere_le_card Standing.counted s.pool.workerStanding
    rw [Fintype.card_fin] at hle
    change s.pool.mem.numThreadsAlive ≤ n
    lia
  have hgoes : (exists x next, thpoolCode t (s.pool.threads.loc t) = .lock x next) ∨
      (exists c next, c.quiet = true ∧ (thpoolCode t (s.pool.threads.loc t)).Enabled
        s.pool.threads.owner t s.shared c next) ∨
      (exists i, t = .worker i ∧ s.pool.worker i = .exited) ∨
      exists j, t = .client j ∧ s.pool.client j = .user := by
    cases t with
    | owner => exact (ht rfl).elim
    | client j =>
        by_cases huser : s.pool.client j = .user
        · exact Or.inr (Or.inr (Or.inr ⟨j, rfl, huser⟩))
        · rcases userCode_goes huser (fun x hx => (hlock.owned x (.client j)).mpr hx)
            (fun p hp => hlink (.client j) p none hp) halive with hwaits | ⟨next, henabled⟩
          · exact Or.inl hwaits
          · exact Or.inr (Or.inl ⟨.go, next, rfl, henabled⟩)
    | worker i =>
        by_cases hexited : s.pool.worker i = .exited
        · exact Or.inr (Or.inr (Or.inl ⟨i, rfl, hexited⟩))
        · rcases threadDo_goes (hstage.started h.returned i) hexited
            (fun x hx => (hlock.owned x (.worker i)).mpr hx)
            (fun caller p hp => hlink (.worker i) p caller hp) (htake i)
            (fun p st hp => hjob (.worker i) p st hp) halive with hwaits | hgo
          · exact Or.inl hwaits
          · exact Or.inr (Or.inl hgo)
  rcases hgoes with ⟨x, next, hcode⟩ | ⟨c, next, hc, henabled⟩ | hexited | huser
  · cases hx : s.pool.threads.owner x with
    | some u => exact Or.inr (Or.inr ⟨x, next, u, hcode, hx⟩)
    | none =>
        have henabled : (thpoolCode t (s.pool.threads.loc t)).Enabled s.pool.threads.owner t
            s.shared .go next := by
          rw [hcode]
          exact .lock hx
        exact (h.step_of_enabled ht rfl hawake henabled hstuck).elim
  · exact (h.step_of_enabled ht hc hawake henabled hstuck).elim
  · exact Or.inl hexited
  · exact Or.inr (Or.inl huser)

theorem not_held_of_sleeps {t : Tid n m} {l : Loc n m fn arg t} {k : Cond} {x : Mutex}
    (h : Sleeps t l k) : ¬ Held t l x := by
  have hframe : forall f : Frame, f.SleepsOn k -> ¬ f.Holds x := by
    intro f hf
    cases f with
    | wait p => cases p <;> first | exact id | exact hf.elim
    | _ => exact hf.elim
  cases t with
  | owner => exact h.elim
  | client j => exact hframe l h
  | worker i =>
      change WorkerPc.SleepsOn l k at h
      cases l with
      | bsem p => cases p <;> first | exact id | exact h.elim
      | running job function arg' f => exact hframe f h
      | _ => exact h.elim

/-- The owner of a mutex in a stuck state owns `rwmutex` and waits for the mutex of
`has_jobs`. -/
theorem Winding.owner_waits {s : Process n m fn arg} (h : Winding s) (hstuck : Stuck s)
    {x : Mutex} {u : Tid n m} (hx : s.pool.threads.owner x = some u) :
    x = .rwmutex ∧ exists v, s.pool.threads.owner .hasJobsMutex = some v := by
  rcases reachable_tokenInv h.reach with ⟨hlock, _, _⟩
  have hheld := (hlock.owned x u).mp hx
  have hawake : s.pool.threads.asleep u = none := by
    cases hasleep : s.pool.threads.asleep u with
    | none => rfl
    | some k => exact (not_held_of_sleeps (hlock.sleepers u k hasleep) hheld).elim
  have hu : u ≠ .owner := by
    intro heq
    subst heq
    exact h.outside x hheld
  rcases h.blocked hstuck hu hawake with ⟨i, rfl, hexited⟩ | ⟨j, rfl, huser⟩ |
    ⟨y, next, v, hcode, hy⟩
  · change (s.pool.worker i).Holds x at hheld
    rw [hexited] at hheld
    exact hheld.elim
  · change (s.pool.client j).Holds x at hheld
    rw [huser] at hheld
    exact hheld.elim
  · have horder : x = .rwmutex ∧ y = .hasJobsMutex := by
      cases u with
      | worker i => exact threadDo_lock_order hheld hcode
      | client j => exact userCode_lock_order hheld hcode
      | owner => exact (hu rfl).elim
    rcases horder with ⟨rfl, rfl⟩
    exact ⟨rfl, v, hy⟩

theorem Winding.no_owner {s : Process n m fn arg} (h : Winding s) (hstuck : Stuck s)
    (x : Mutex) : s.pool.threads.owner x = none := by
  cases hx : s.pool.threads.owner x with
  | none => rfl
  | some u =>
      rcases h.owner_waits hstuck hx with ⟨_, v, hv⟩
      have hcontra := (h.owner_waits hstuck hv).1
      cases hcontra

theorem sleeps_on_semaphore {s : Process n m fn arg} {i : Fin n} {k : Cond} (hlock : LockInv s)
    (hpatient : s.pool.waiting (.worker i) = none)
    (hasleep : s.pool.threads.asleep (.worker i) = some k) : k = .hasJobsCond := by
  have hsleeps := hlock.sleepers (.worker i) k hasleep
  change (s.pool.worker i).SleepsOn k at hsleeps
  change (s.pool.worker i).waitPc = none at hpatient
  generalize s.pool.worker i = l at hsleeps hpatient
  cases l with
  | bsem p => cases p <;> first | exact hsleeps | exact hsleeps.elim
  | running job function arg' f =>
      cases f with
      | wait p => cases hpatient
      | _ => exact hsleeps.elim
  | _ => exact hsleeps.elim

theorem Winding.worker_sleeps {s : Process n m fn arg} (h : Winding s) {i : Fin n} {k : Cond}
    (hasleep : s.pool.threads.asleep (.worker i) = some k) : k = .hasJobsCond :=
  sleeps_on_semaphore (reachable_tokenInv h.reach).1 (h.patient i) hasleep

theorem Winding.worker_rests {s : Process n m fn arg} (h : Winding s) (hstuck : Stuck s)
    (i : Fin n) : s.pool.worker i = .exited ∨
      s.pool.threads.asleep (.worker i) = some .hasJobsCond := by
  cases hasleep : s.pool.threads.asleep (.worker i) with
  | some k => exact Or.inr (congrArg some (h.worker_sleeps hasleep))
  | none =>
      rcases h.blocked hstuck (by simp) hasleep with ⟨i', heq, hexited⟩ | ⟨j, heq, _⟩ |
        ⟨x, _, u, _, hx⟩
      · cases heq
        exact Or.inl hexited
      · cases heq
      · rw [h.no_owner hstuck x] at hx
        cases hx

theorem Winding.client_out {s : Process n m fn arg} (h : Winding s) (hstuck : Stuck s)
    (j : Fin m) : s.pool.client j = .user ∨
      s.pool.threads.asleep (.client j) = some .threadsAllIdle := by
  rcases reachable_tokenInv h.reach with ⟨hlock, _, _⟩
  cases hasleep : s.pool.threads.asleep (.client j) with
  | none =>
      rcases h.blocked hstuck (by simp) hasleep with ⟨i, heq, _⟩ | ⟨j', heq, huser⟩ |
        ⟨x, _, u, _, hx⟩
      · cases heq
      · cases heq
        exact Or.inl huser
      · rw [h.no_owner hstuck x] at hx
        cases hx
  | some k =>
      have hsleeps := hlock.sleepers (.client j) _ hasleep
      change (s.pool.client j).SleepsOn k at hsleeps
      generalize s.pool.client j = f at hsleeps
      cases f with
      | wait p =>
          cases p <;> first | exact hsleeps.elim | skip
          rw [show k = .threadsAllIdle from hsleeps]
          exact Or.inr rfl
      | _ => exact hsleeps.elim

/-!
## Every run ends with all work done
-/

/-- Nothing is queued, every accepted job has been called, has returned and has been
freed once, and the workers sleep; only `thpool_wait` may still be under way. -/
structure Drained (s : Process n m fn arg) : Prop where
  empty : s.pool.mem.jobqueue.len = 0
  idle : s.pool.mem.numThreadsWorking = 0
  done : forall k, k < s.pool.mem.history.accepted.length ->
    s.pool.mem.history.tally k = { called := 1, finished := 1, freed := 1 }
  workers : forall i, s.pool.threads.asleep (.worker i) = some .hasJobsCond
  clients : forall j, s.pool.client j = .user ∨
    s.pool.threads.asleep (.client j) = some .threadsAllIdle

theorem relock_of_asleep {s : Process n m fn arg} (hlock : LockInv s) {i : Fin n}
    (h : s.pool.threads.asleep (.worker i) = some .hasJobsCond) :
    s.pool.worker i = .bsem .relock := by
  have hsleeps := hlock.sleepers (.worker i) _ h
  change (s.pool.worker i).SleepsOn .hasJobsCond at hsleeps
  generalize s.pool.worker i = l at hsleeps
  cases l with
  | bsem p =>
      cases p with
      | relock => rfl
      | _ => exact hsleeps.elim
  | running job function arg' f =>
      cases f with
      | wait p => cases p <;> cases hsleeps
      | _ => cases hsleeps
  | _ => cases hsleeps

theorem Winding.drained {s : Process n m fn arg} (hn : 0 < n) (h : Winding s)
    (hready : s.pool.owner = .ready) (hstuck : Stuck s) : Drained s := by
  rcases reachable_tokenInv h.reach with ⟨hlock, hstage, htoken⟩
  have hall : forall i, s.pool.threads.asleep (.worker i) = some .hasJobsCond := by
    intro i
    rcases h.worker_rests hstuck i with hexited | hasleep
    · rcases reachable_alone h.reach with ⟨_, _, _, hloop⟩
      have hleft := hloop (by rw [hready]; simp [OwnerPc.phase, Phase.keepalive]) i
      rw [hexited] at hleft
      cases hleft
    · exact hasleep
  have hrelock := fun i => relock_of_asleep hlock (hall i)
  have hkeep : s.flags.threadsKeepalive = true :=
    hstage.keepalive true (by rw [hready]; rfl)
  have hempty : s.pool.mem.jobqueue.len = 0 := by
    by_contra hlen
    rcases htoken.pushing_of_all_asleep hlock hstage hkeep hlen hn hall with ⟨j, hj⟩
    change (s.pool.client j).insidePush = true at hj
    rcases h.client_out hstuck j with huser | hasleep
    · rw [huser] at hj
      cases hj
    · have hsleeps := hlock.sleepers (.client j) _ hasleep
      change (s.pool.client j).SleepsOn .threadsAllIdle at hsleeps
      generalize s.pool.client j = f at hj hsleeps
      cases f with
      | push => exact hsleeps.elim
      | _ => cases hj
  refine ⟨hempty, ?_, ?_, hall, h.client_out hstuck⟩
  · rw [hstage.working, countWhere_eq_zero.mpr]
    · rfl
    · intro i
      change (s.pool.worker i).standing.working = false
      rw [hrelock i]
      rfl
  · intro k hk
    rcases reachable_serves h.reach h.used with ⟨⟨l, b⟩, hworkers⟩
    rcases b.handed_of_empty hempty hk with ⟨x, hx, rfl⟩
    rcases Option.ne_none_iff_exists'.mp (hworkers x hx) with ⟨i, hi⟩
    rcases b.settled x hx with ⟨p, st, hjob, _⟩ | hdone
    · rw [hi] at hjob
      change (s.pool.worker i).standing.job = some (p, st) at hjob
      rw [hrelock i] at hjob
      cases hjob
    · rw [hdone, hi]
      rfl

theorem accepted_prefix {s u : Process n m fn arg} {schedule : List (Action n m fn arg)}
    (hrun : (thpool n m fn arg).RunUnder Winds s schedule u) (h : Winding s) :
    s.pool.mem.history.accepted <+: u.pool.mem.history.accepted := by
  induction hrun with
  | nil s => exact List.prefix_refl _
  | cons hok hone _ ih =>
      refine List.IsPrefix.trans ?_ (ih (h.step hok hone))
      rcases (extends_of_step h.booked hone).accepted with hsame | ⟨a, hnew, _⟩
      · rw [hsame]
      · rw [hnew]
        exact List.prefix_append _ _

/-- Once nobody asks anything of the pool any more, every run comes to an end after a
bounded number of steps, and where no thread can take a step all jobs are done. -/
theorem thpool_drains (hn : 0 < n) {s u : Process n m fn arg}
    {schedule : List (Action n m fn arg)} (h : Winding s) (hready : s.pool.owner = .ready)
    (hrun : (thpool n m fn arg).RunUnder Winds s schedule u) :
    schedule.length ≤ s.effort ∧
      s.pool.mem.history.accepted <+: u.pool.mem.history.accepted ∧
      (Stuck u -> Drained u) := by
  have hbound := hrun.length_le Process.effort
    (fun hs hok hstep => ⟨hs.step hok hstep, effort_step hs hok hstep⟩) h
  rcases h.run hrun with ⟨hu, howner⟩
  exact ⟨by lia, accepted_prefix hrun h, fun hstuck => hu.drained hn (howner.trans hready) hstuck⟩

theorem Winding.exists_stuck {s : Process n m fn arg} (h : Winding s) :
    exists schedule u, (thpool n m fn arg).RunUnder Winds s schedule u ∧ Stuck u := by
  refine System.exists_run_until Process.effort ?_ h
  intro s hs hgoal
  simp only [Stuck, not_forall, not_not] at hgoal
  rcases hgoal with ⟨a, t, hok, hstep⟩
  exact ⟨a, t, hok, hstep, hs.step hok hstep, effort_step hs hok hstep⟩

/-- A job is queued and all threads of the pool are idle. -/
theorem thpool_drains_one :
    exists (s u : Process 1 1 Unit Unit) (schedule : List (Action 1 1 Unit Unit)),
      s.pool.mem.jobqueue.len = 1 ∧ s.pool.mem.history.called = [] ∧
      schedule.length ≤ s.effort ∧ u.pool.mem.jobqueue.len = 0 ∧
      u.pool.mem.history.tally 0 = { called := 1, finished := 1, freed := 1 } := by
  have hstart : exists s, (thpool 1 1 Unit Unit).Reachable s ∧
      (s.pool.owner = .ready ∧ (forall i, s.pool.hold i = none) ∧
        (forall i, s.pool.waiting (.worker i) = none) ∧
        s.pool.mem.jobqueue.len = 1 ∧ s.pool.mem.history.called = [] ∧
        s.pool.mem.history.accepted = [{ function := (), arg := (), parent := none }]) :=
    System.reachable_of_exec (s := Process.initial) (addOneJob 0 0) rfl (by decide)
  rcases hstart with ⟨s, hreach, hready, hfree, hpatient, hlen, hcalled, haccepted⟩
  have h := Winding.of_ready hreach hready hfree hpatient
  rcases h.exists_stuck with ⟨schedule, u, hrun, hstuck⟩
  rcases thpool_drains Nat.one_pos h hready hrun with ⟨hbound, hprefix, hend⟩
  have hdrained := hend hstuck
  refine ⟨s, u, schedule, hlen, hcalled, hbound, hdrained.empty, hdrained.done 0 ?_⟩
  have hle := hprefix.length_le
  rw [haccepted] at hle
  exact hle

/-!
## `thpool_wait` returns

A signal of `threads_all_idle` wakes one sleeper only.  If it always finds one at
most, the calls of `thpool_wait` come to an end too.
-/

/-- If every last signal finds at most one sleeper, all calls of the interface have
returned where no thread can take a step. -/
theorem thpool_wait_returns (hn : 0 < n) {s u : Process n m fn arg}
    {schedule : List (Action n m fn arg)} (h : Winding s) (hready : s.pool.owner = .ready)
    (hlone : (thpool n m fn arg).ReachableUnder LoneSleeper s)
    (hrun : (thpool n m fn arg).RunUnder (fun s a => Winds s a ∧ LoneSleeper s a) s
      schedule u) :
    schedule.length ≤ s.effort ∧ (Stuck u -> forall j, u.pool.client j = .user) := by
  have hbound := hrun.length_le Process.effort
    (fun hs hok hstep => ⟨hs.step hok.1 hstep, effort_step hs hok.1 hstep⟩) h
  have hwinds : (thpool n m fn arg).RunUnder Winds s schedule u := hrun.weaken And.left
  rcases h.run hwinds with ⟨hu, howner⟩
  have hlone' := hlone.run (hrun.weaken And.right)
  refine ⟨by lia, ?_⟩
  intro hstuck j
  have hdrained := hu.drained hn (howner.trans hready) hstuck
  rcases hdrained.clients j with huser | hasleep
  · exact huser
  · rcases reachableUnder_dozeInv hlone' with ⟨_, _, _, hdoze⟩
    rcases hdoze hu.used (.client j) (Or.inr hasleep) with hbusy | hbusy
    · exact (hbusy hdrained.empty).elim
    · exact (hbusy hdrained.idle).elim

/-- With a single client, and workers that do not wait, nobody else can sleep in
`thpool_wait`. -/
theorem lone_of_patient {s : Process n 1 fn arg} (hreach : (thpool n 1 fn arg).Reachable s)
    (hpatient : forall i, s.pool.waiting (.worker i) = none) (a : Action n 1 fn arg) :
    LoneSleeper s a := by
  have hlock := (reachable_tokenInv hreach).1
  have hclient : forall t, s.pool.threads.asleep t = some .threadsAllIdle ->
      t = .client 0 := by
    intro t ht
    cases t with
    | owner => exact (hlock.sleepers _ _ ht).elim
    | client j => rw [Fin.fin_one_eq_zero j]
    | worker i =>
        have hcond := sleeps_on_semaphore hlock (hpatient i) ht
        cases hcond
  cases a with
  | deliver | hold => exact trivial
  | thread e =>
      cases e with
      | spurious => exact trivial
      | run t c woken =>
          cases t with
          | client | owner => exact trivial
          | worker i =>
              intro _ _ _ t u ht hu
              rw [hclient t ht, hclient u hu]

theorem Winding.lone_run {s u : Process n 1 fn arg} {schedule : List (Action n 1 fn arg)}
    (hrun : (thpool n 1 fn arg).RunUnder Winds s schedule u) (h : Winding s) :
    (thpool n 1 fn arg).RunUnder (fun s a => Winds s a ∧ LoneSleeper s a) s schedule u := by
  induction hrun with
  | nil s => exact System.RunUnder.nil s
  | cons hok hone _ ih => exact .cons ⟨hok, lone_of_patient h.reach h.patient _⟩ hone (ih (h.step hok hone))

/-- A client sleeps in `thpool_wait` until its job is done. -/
theorem thpool_wait_returns_one :
    exists (s u : Process 1 1 Unit Unit) (schedule : List (Action 1 1 Unit Unit)),
      s.pool.threads.asleep (.client 0) = some .threadsAllIdle ∧
      schedule.length ≤ s.effort ∧ u.pool.client 0 = .user := by
  have hstart : exists s, (thpool 1 1 Unit Unit).ReachableUnder LoneSleeper s ∧
      (s.pool.owner = .ready ∧ (forall i, s.pool.hold i = none) ∧
        (forall i, s.pool.waiting (.worker i) = none) ∧
        s.pool.threads.asleep (.client 0) = some .threadsAllIdle) :=
    System.reachableUnder_of_execUnder (s := Process.initial)
      (startPool 0 ++ callAddWork 0 ++ (Tid.client 0).chooses .wait ++ (Tid.client 0).steps 3)
      rfl (by decide)
  rcases hstart with ⟨s, hlone, hready, hfree, hpatient, hasleep⟩
  have h := Winding.of_ready hlone.reachable hready hfree hpatient
  rcases h.exists_stuck with ⟨schedule, u, hrun, hstuck⟩
  rcases thpool_wait_returns Nat.one_pos h hready hlone (h.lone_run hrun) with ⟨hbound, hend⟩
  exact ⟨s, u, schedule, hasleep, hbound, hend hstuck 0⟩

end Thpool
end PracticeHand
