import PracticeHand.Thpool.Drain

/-!
# The polling loops of `thpool_destroy`

`thpool_destroy` clears `threads_keepalive` and then posts the semaphore until no
worker is alive.  A post wakes all sleepers but leaves one token only, so of the
workers it wakes one leaves and the others may go back to sleep; the polling loop has
to go round again.  Every round takes at least one worker out of the semaphore.
-/

namespace PracticeHand
namespace Thpool

open Concurrency

variable {n m : Nat} {fn arg : Type}

/-!
## Workers at the semaphore

With `threads_keepalive` cleared a worker that has left the semaphore does not come
back to it.
-/

def WorkerPc.loiters : WorkerPc fn arg -> Bool
  | .bsem p => !p.token
  | _ => false

def Process.loiterers (s : Process n m fn arg) : Nat :=
  countWhere WorkerPc.loiters s.pool.worker

/-- The token is there, and a worker is awake and on its way to it. -/
def Called (s : Process n m fn arg) : Prop :=
  s.pool.mem.v = 1 ∧ exists i, s.pool.threads.asleep (.worker i) = none ∧
    (s.pool.worker i).loiters = true

theorem threadDo_syncNext_loiters {i : Fin n} {l l' : WorkerPc fn arg}
    (h : (threadDo i l).syncNext = some l') : l'.loiters = l.loiters := by
  cases l with
  | bsem p => cases p <;> cases h <;> rfl
  | pull p =>
      cases p with
      | lock | take | unlock => cases h <;> rfl
      | post job q => cases q <;> cases h <;> rfl
  | got job => cases job <;> cases h
  | running job function arg' f =>
      cases f with
      | user => cases h
      | push | wait | pause =>
          simp only [threadDo, Instr.syncNext_map, Option.map_eq_some_iff] at h
          rcases h with ⟨f', _, rfl⟩
          rfl
  | _ => cases h <;> rfl

theorem UserMove.v_kept {caller : Option Ptr} {s s' : Shared n fn arg} {f f' : Frame}
    {w : Wake Cond} (h : UserMove caller s f s' f' w) (hv : s.2.v = 1) : s'.2.v = 1 := by
  cases h with
  | link hlink =>
      rcases linkJob_cases hlink with ⟨_, _, _, _, _, rfl⟩
      exact hv
  | post => rfl
  | _ => exact hv

theorem WorkerMove.loiters {i : Fin n} {s s' : Shared n fn arg} {l l' : WorkerPc fn arg}
    {w : Wake Cond} (h : WorkerMove i s l s' l' w) (hoff : s.1.threadsKeepalive = false) :
    (l'.loiters = l.loiters ∧ (s.2.v = 1 -> s'.2.v = 1)) ∨
      (l.loiters = true ∧ l'.loiters = false) := by
  cases h with
  | loopOn hon =>
      rw [hoff] at hon
      cases hon
  | token => exact Or.inr ⟨rfl, rfl⟩
  | take htake => exact Or.inl ⟨rfl, fun hv => (takeJob_v htake).trans hv⟩
  | free hfree => exact Or.inl ⟨rfl, fun hv => (freeJob_v hfree).trans hv⟩
  | pullPost => exact Or.inl ⟨rfl, fun _ => rfl⟩
  | user hmove => exact Or.inl ⟨rfl, hmove.v_kept⟩
  | _ => exact Or.inl ⟨rfl, fun hv => hv⟩

/-- What a step means for the workers at the semaphore: nobody joins them, and as long
as none leaves, the token and the one on its way to it stay. -/
structure Disperses (s s' : Process n m fn arg) : Prop where
  fewer : s'.loiterers ≤ s.loiterers
  called : Called s -> Called s' ∨ s'.loiterers < s.loiterers

theorem Disperses.of_same {s s' : Process n m fn arg}
    (hworker : forall i, (s'.pool.worker i).loiters = (s.pool.worker i).loiters)
    (hv : s.pool.mem.v = 1 -> s'.pool.mem.v = 1)
    (hasleep : forall i, s.pool.mem.v = 1 -> (s.pool.worker i).loiters = true ->
      s.pool.threads.asleep (.worker i) = none ->
      s'.pool.threads.asleep (.worker i) = none) : Disperses s s' where
  fewer := by
    apply countWhere_le
    intro i hi
    rwa [hworker i] at hi
  called := by
    intro h
    rcases h with ⟨htoken, i, hawake, hloiters⟩
    exact Or.inl ⟨hv htoken, i, hasleep i htoken hloiters hawake,
      (hworker i).trans hloiters⟩

theorem awake_after_wake {w : Wake Cond} {woken : Option (Tid n m)}
    {asleep asleep' : Tid n m -> Option Cond} (happly : w.apply woken asleep = some asleep')
    {t : Tid n m} (h : asleep t = none) : asleep' t = none := by
  cases ht : asleep' t with
  | none => rfl
  | some k =>
      rw [Wake.apply_sub happly ht] at h
      cases h

theorem Disperses.worker {s : Process n m fn arg} {sh : Shared n fn arg} {i : Fin n}
    {next : WorkerPc fn arg} {w : Wake Cond} {woken : Option (Tid n m)}
    {asleep : Tid n m -> Option Cond} (hoff : s.flags.threadsKeepalive = false)
    (hmove : WorkerMove i s.shared (s.pool.worker i) sh next w)
    (happly : w.apply woken s.pool.threads.asleep = some asleep) :
    Disperses s (s.after sh { s.pool.threads with
      loc := Function.update s.pool.threads.loc (.worker i) next
      asleep := asleep }) := by
  rcases hmove.loiters hoff with ⟨hsame, hv⟩ | ⟨hbefore, hafter⟩
  · refine Disperses.of_same ?_ hv ?_
    · intro j
      rw [worker_after]
      by_cases hji : j = i
      · subst hji
        rw [Function.update_self]
        exact hsame
      · rw [Function.update_of_ne hji]
    · intro j _ _ hawake
      exact awake_after_wake happly hawake
  · have hcount := countWhere_update WorkerPc.loiters s.pool.worker i next
    rw [hbefore, hafter] at hcount
    have hless : (s.after sh { s.pool.threads with
        loc := Function.update s.pool.threads.loc (.worker i) next
        asleep := asleep }).loiterers < s.loiterers := by
      unfold Process.loiterers
      rw [worker_after]
      simp only [Bool.toNat_true, Bool.toNat_false] at hcount
      lia
    exact ⟨Nat.le_of_lt hless, fun _ => Or.inr hless⟩

theorem loiterer_stays_awake {s : Process n m fn arg} (htoken : TokenInv s) {t : Tid n m}
    {k : Cond} {x : Mutex} {next : Loc n m fn arg t} {i : Fin n}
    (hinstr : thpoolCode t (s.pool.threads.loc t) = .wait k x next)
    (hv : s.pool.mem.v = 1) (hloiters : (s.pool.worker i).loiters = true) :
    Tid.worker i ≠ t := by
  intro heq
  subst heq
  rcases threadDo_wait hinstr with ⟨hsleep, _⟩ | ⟨job, function, arg', hrunning, _⟩
  · exact htoken.drowsy i hsleep hv
  · change s.pool.worker i = _ at hrunning
    rw [hrunning] at hloiters
    cases hloiters

theorem disperses_step {s s' : Process n m fn arg} {a : Action n m fn arg}
    (htoken : TokenInv s) (hoff : s.flags.threadsKeepalive = false) (hok : Winds s a)
    (hstep : step s a = some s') : Disperses s s' := by
  rcases hok with ⟨t, c, woken, rfl, ht, _⟩
  have hsync : forall {next : Loc n m fn arg t} {own : Mutex -> Option (Tid n m)}
      {asleep : Tid n m -> Option Cond},
      (thpoolCode t (s.pool.threads.loc t)).syncNext = some next -> forall i,
      ((s.after s.shared
        { owner := own
          loc := Function.update s.pool.threads.loc t next
          asleep := asleep }).pool.worker i).loiters = (s.pool.worker i).loiters := by
    intro next own asleep hnext i
    rcases worker_after_sync s s.shared hnext i with hsame | hnext'
    · rw [hsame]
    · exact threadDo_syncNext_loiters hnext'
  cases moves_of_step hstep with
  | thread _ hfire =>
      cases hfire with
      | lock _ hinstr _ | unlock _ hinstr _ =>
          exact Disperses.of_same (hsync (by rw [hinstr]; rfl)) id (fun _ _ _ h => h)
      | wait _ hinstr _ =>
          refine Disperses.of_same (hsync (by rw [hinstr]; rfl)) id ?_
          intro i hv hloiters hawake
          exact (Function.update_of_ne (loiterer_stays_awake htoken hinstr hv hloiters) ..).trans
            hawake
      | act _ hacts hwake =>
          cases t with
          | owner => exact (ht rfl).elim
          | worker i => exact Disperses.worker hoff (workerMove_of_acts hacts) hwake
          | client j =>
              refine Disperses.of_same (fun _ => rfl) (userMove_of_acts hacts).v_kept ?_
              intro i _ _ hawake
              exact awake_after_wake hwake hawake

/-!
## Steps of the owner
-/

def OwnerGoes (_s : Process n m fn arg) (a : Action n m fn arg) : Prop :=
  exists c woken, a = .thread (.run .owner c woken) ∧
    (c = .go ∨ exists expired, c = .clock expired)

def Finishes (s : Process n m fn arg) (a : Action n m fn arg) : Prop :=
  Winds s a ∨ OwnerGoes s a

def OwnerPc.closing : OwnerPc -> Bool
  | .keepalive _ => true
  | .pollFirst _ => true
  | .postFirst _ _ => true
  | .pollRest _ => true
  | .postRest _ _ => true
  | _ => false

structure Closing (s : Process n m fn arg) : Prop where
  reach : (thpool n m fn arg).Reachable s
  closing : s.pool.owner.closing = true
  free : forall i, s.pool.hold i = none
  patient : forall i, s.pool.waiting (.worker i) = none

theorem Closing.winding {s : Process n m fn arg} (h : Closing s)
    (houtside : forall x, ¬ s.pool.owner.Holds x) : Winding s where
  reach := h.reach
  returned := by
    have hclosing := h.closing
    generalize s.pool.owner = l at hclosing
    cases l <;> first | rfl | cases hclosing
  used := by
    have hclosing := h.closing
    generalize s.pool.owner = l at hclosing
    cases l <;> first | rfl | cases hclosing
  outside := houtside
  free := h.free
  patient := h.patient

theorem owner_run_keeps {s u : Process n m fn arg} {schedule : List (Action n m fn arg)}
    (hrun : (thpool n m fn arg).RunUnder OwnerGoes s schedule u) :
    (forall t, t ≠ .owner -> u.pool.threads.loc t = s.pool.threads.loc t) ∧
      u.pool.hold = s.pool.hold := by
  refine hrun.invariant (fun u => (forall t, t ≠ .owner ->
    u.pool.threads.loc t = s.pool.threads.loc t) ∧ u.pool.hold = s.pool.hold) ?_
    ⟨fun _ _ => rfl, rfl⟩
  intro v w a hv hok hone
  rcases hok with ⟨c, woken, rfl, _⟩
  have hstep : step v (.thread (.run .owner c woken)) = some w := hone
  refine ⟨fun t ht => ?_, ?_⟩
  · refine Eq.trans ?_ (hv.1 t ht)
    by_contra hmoved
    rcases run_of_moved hstep hmoved with ⟨_, _, heq⟩
    cases heq
    exact ht rfl
  · cases moves_of_step hstep
    exact hv.2

theorem Closing.owner_run {s u : Process n m fn arg} {schedule : List (Action n m fn arg)}
    (h : Closing s) (hrun : (thpool n m fn arg).RunUnder OwnerGoes s schedule u)
    (hclosing : u.pool.owner.closing = true) : Closing u := by
  rcases owner_run_keeps hrun with ⟨hloc, hhold⟩
  refine ⟨h.reach.run (hrun.weaken fun _ => trivial), hclosing, ?_, ?_⟩
  · rw [hhold]
    exact h.free
  · intro i
    unfold Pool.waiting
    rw [hloc _ (by simp)]
    exact h.patient i

theorem owner_awake {s : Process n m fn arg} (hlock : LockInv s) :
    s.pool.threads.asleep .owner = none := by
  cases hasleep : s.pool.threads.asleep .owner with
  | none => rfl
  | some k => exact (hlock.sleepers .owner k hasleep).elim

theorem owner_acts {s : Process n m fn arg} (hlock : LockInv s) {c : Choice fn arg}
    {sh : Shared n fn arg} {next : OwnerPc} {w : Wake Cond}
    (hacts : (ownerCode s.pool.owner).Acts s.shared c sh next w) :
    exists woken s', step s (.thread (.run .owner c woken)) = some s' ∧
      s'.pool.owner = next ∧ s'.shared = sh ∧
      s'.pool.threads.owner = s.pool.threads.owner ∧
      w.apply woken s.pool.threads.asleep = some s'.pool.threads.asleep := by
  rcases w.exists_apply s.pool.threads.asleep with ⟨woken, asleep, happly⟩
  exact ⟨woken, _, step_of_acts (t := .owner) rfl (owner_awake hlock) hacts happly,
    owner_after s sh, rfl, rfl, happly⟩

theorem owner_locks {s : Process n m fn arg} (hlock : LockInv s) {x : Mutex} {next : OwnerPc}
    (hinstr : (ownerCode s.pool.owner : Code n fn arg OwnerPc) = .lock x next)
    (hfree : s.pool.threads.owner x = none) :
    exists s', step s (.thread (.run .owner .go none)) = some s' ∧ s'.pool.owner = next ∧
      s'.shared = s.shared ∧ s'.pool.threads.asleep = s.pool.threads.asleep := by
  have hcode : thpoolCode .owner (s.pool.threads.loc .owner) = .lock x next := hinstr
  refine ⟨s.after s.shared { s.pool.threads with
    owner := Function.update s.pool.threads.owner x (some .owner)
    loc := Function.update s.pool.threads.loc .owner next }, ?_, owner_after _ _, rfl, rfl⟩
  simp only [step, Event.enabled, Pool.mayRun, if_true, machineStep, owner_awake hlock, hcode,
    hfree]
  rfl

theorem owner_unlocks {s : Process n m fn arg} (hlock : LockInv s) {x : Mutex}
    {next : OwnerPc}
    (hinstr : (ownerCode s.pool.owner : Code n fn arg OwnerPc) = .unlock x next)
    (hown : s.pool.threads.owner x = some .owner) :
    exists s', step s (.thread (.run .owner .go none)) = some s' ∧ s'.pool.owner = next ∧
      s'.shared = s.shared ∧ s'.pool.threads.asleep = s.pool.threads.asleep := by
  have hcode : thpoolCode .owner (s.pool.threads.loc .owner) = .unlock x next := hinstr
  refine ⟨s.after s.shared { s.pool.threads with
    owner := Function.update s.pool.threads.owner x none
    loc := Function.update s.pool.threads.loc .owner next }, ?_, owner_after _ _, rfl, rfl⟩
  simp only [step, Event.enabled, Pool.mayRun, if_true, machineStep, owner_awake hlock, hcode,
    hown]
  rfl

theorem OwnerGoes.go {s : Process n m fn arg} {woken : Option (Tid n m)} :
    OwnerGoes s (.thread (.run .owner .go woken)) :=
  ⟨.go, woken, rfl, Or.inl rfl⟩

theorem exists_post {s : Process n m fn arg} (h : Closing s) {total : Int}
    (howner : s.pool.owner = .postRest total .set) :
    exists schedule u, (thpool n m fn arg).RunUnder OwnerGoes s schedule u ∧
      u.pool.owner = .pollRest total ∧ u.pool.mem.v = 1 ∧
      forall i, u.pool.threads.asleep (.worker i) ≠ some .hasJobsCond := by
  rcases reachable_tokenInv h.reach with ⟨hlock, _, _⟩
  have hacts : (ownerCode s.pool.owner).Acts s.shared .go (setV 1 s.shared)
      (.postRest total .unlock) (.broadcast .hasJobsCond) := by
    rw [howner]
    rfl
  rcases owner_acts hlock hacts with ⟨woken, s1, hset, howner1, hshared1, _, happly⟩
  have hlock1 := lockInv_step hlock hset
  have hown1 : s1.pool.threads.owner .hasJobsMutex = some .owner := by
    apply (hlock1.owned _ _).mpr
    change s1.pool.owner.Holds .hasJobsMutex
    rw [howner1]
    rfl
  have hinstr : (ownerCode s1.pool.owner : Code n fn arg OwnerPc) =
      .unlock .hasJobsMutex (.pollRest total) := by
    rw [howner1]
    rfl
  rcases owner_unlocks hlock1 hinstr hown1 with ⟨u, hunlock, hu, hshared, hasleep⟩
  refine ⟨_, u, .cons .go hset (.cons .go hunlock (.nil u)), hu, ?_, ?_⟩
  · have hv : u.shared.2.v = 1 := by
      rw [hshared, hshared1]
      rfl
    exact hv
  · intro i
    rw [hasleep]
    cases woken with
    | some t => cases happly
    | none =>
        rw [← Option.some.inj happly]
        dsimp only
        split
        · simp
        · assumption

/-!
## A round of the polling loop
-/

theorem keepalive_off {s : Process n m fn arg} (hreach : (thpool n m fn arg).Reachable s)
    {total : Int} (howner : s.pool.owner = .pollRest total) :
    s.flags.threadsKeepalive = false :=
  (reachable_tokenInv hreach).2.1.keepalive false (by rw [howner]; rfl)

theorem disperses_run {s u : Process n m fn arg} {schedule : List (Action n m fn arg)}
    (hrun : (thpool n m fn arg).RunUnder Winds s schedule u) (h : Winding s) {total : Int}
    (howner : s.pool.owner = .pollRest total) : Disperses s u := by
  induction hrun with
  | nil s => exact ⟨le_refl _, Or.inl⟩
  | @cons s t u a rest hok hone _ ih =>
      have hfirst := disperses_step (reachable_tokenInv h.reach).2.2
        (keepalive_off h.reach howner) hok hone
      have hrest := ih (h.step hok hone) ((owner_of_winds hok hone).trans howner)
      refine ⟨le_trans hrest.fewer hfirst.fewer, ?_⟩
      intro hcalled
      rcases hfirst.called hcalled with hstill | hless
      · rcases hrest.called hstill with hend | hless
        · exact Or.inl hend
        · exact Or.inr (lt_of_lt_of_le hless hfirst.fewer)
      · exact Or.inr (lt_of_le_of_lt hrest.fewer hless)

theorem Winding.not_called {s : Process n m fn arg} (h : Winding s) (hstuck : Stuck s) :
    ¬ Called s := by
  intro hcalled
  rcases hcalled with ⟨_, i, hawake, hloiters⟩
  rcases h.worker_rests hstuck i with hexited | hasleep
  · rw [hexited] at hloiters
    cases hloiters
  · rw [hawake] at hasleep
    cases hasleep

theorem Winding.exists_sleeper {s : Process n m fn arg} (h : Winding s) (hstuck : Stuck s)
    (halive : s.pool.mem.numThreadsAlive ≠ 0) : exists i, s.pool.worker i = .bsem .relock := by
  rcases reachable_tokenInv h.reach with ⟨hlock, hstage, _⟩
  by_contra hnone
  apply halive
  rw [hstage.alive, countWhere_eq_zero.mpr]
  · rfl
  · intro i
    change (s.pool.worker i).standing.counted = false
    rcases h.worker_rests hstuck i with hexited | hasleep
    · rw [hexited]
      rfl
    · exact (hnone ⟨i, relock_of_asleep hlock hasleep⟩).elim

/-- The owner posts, and a worker leaves the semaphore for good. -/
theorem exists_round {s : Process n m fn arg} (h : Closing s) (hstuck : Stuck s) {total : Int}
    (howner : s.pool.owner = .pollRest total) (halive : s.pool.mem.numThreadsAlive ≠ 0) :
    exists schedule u, (thpool n m fn arg).RunUnder Finishes s schedule u ∧ Closing u ∧
      u.pool.owner = .pollRest total ∧ u.loiterers < s.loiterers := by
  have hw := h.winding (by rw [howner]; exact fun _ hx => hx)
  rcases reachable_tokenInv h.reach with ⟨hlock, _, _⟩
  rcases hw.exists_sleeper hstuck halive with ⟨i, hi⟩
  have hacts : (ownerCode s.pool.owner).Acts s.shared .go s.shared (.postRest total .lock)
      .nobody := by
    rw [howner, ownerCode, Instr.acts_test]
    have hdecide : decide (s.shared.2.numThreadsAlive ≠ 0) = true := decide_eq_true halive
    rw [hdecide]
    exact ⟨rfl, rfl, rfl⟩
  rcases owner_acts hlock hacts with ⟨woken, s1, hpoll, howner1, _, hmutexes, _⟩
  have hfree1 : s1.pool.threads.owner .hasJobsMutex = none := by
    rw [hmutexes]
    exact hw.no_owner hstuck .hasJobsMutex
  have hinstr : (ownerCode s1.pool.owner : Code n fn arg OwnerPc) =
      .lock .hasJobsMutex (.postRest total .set) := by
    rw [howner1]
    rfl
  rcases owner_locks (lockInv_step hlock hpoll) hinstr hfree1 with ⟨s2, hlocked, howner2, _⟩
  have hfirst : (thpool n m fn arg).RunUnder OwnerGoes s _ s2 :=
    .cons .go hpoll (.cons .go hlocked (.nil s2))
  have h2 := h.owner_run hfirst (by rw [howner2]; rfl)
  rcases exists_post h2 howner2 with ⟨schedule, u, hpost, hu, hv, hawake⟩
  have hrun := hfirst.append hpost
  have hclosing := h.owner_run hrun (by rw [hu]; rfl)
  have hworker : u.pool.worker = s.pool.worker := by
    funext j
    exact (owner_run_keeps hrun).1 (.worker j) (by simp)
  have hloiterers : u.loiterers = s.loiterers := by
    unfold Process.loiterers
    rw [hworker]
  have hcalled : Called u := by
    refine ⟨hv, i, ?_, by rw [hworker, hi]; rfl⟩
    cases hasleep : u.pool.threads.asleep (.worker i) with
    | none => rfl
    | some k =>
        have hwinding := hclosing.winding (by rw [hu]; exact fun _ hx => hx)
        rw [hwinding.worker_sleeps hasleep] at hasleep
        exact (hawake i hasleep).elim
  have hwinding := hclosing.winding (by rw [hu]; exact fun _ hx => hx)
  rcases hwinding.exists_stuck with ⟨rest, w, hrest, hend⟩
  rcases hwinding.run hrest with ⟨hw', howner'⟩
  refine ⟨_, w, (hrun.weaken Or.inr).append (hrest.weaken Or.inl), ?_, howner'.trans hu, ?_⟩
  · refine ⟨hw'.reach, ?_, hw'.free, hw'.patient⟩
    rw [howner', hu]
    rfl
  · have hdisperses := disperses_run hrest hwinding hu
    rw [← hloiterers]
    exact (hdisperses.called hcalled).resolve_left (hw'.not_called hend)

/-- The polling ends: all workers have counted themselves out. -/
theorem exists_alive_zero {s : Process n m fn arg} (h : Closing s) {total : Int}
    (howner : s.pool.owner = .pollRest total) :
    exists schedule u, (thpool n m fn arg).RunUnder Finishes s schedule u ∧ Closing u ∧
      Stuck u ∧ u.pool.owner = .pollRest total ∧ u.pool.mem.numThreadsAlive = 0 := by
  generalize hbound : s.loiterers = bound
  induction bound using Nat.strong_induction_on generalizing s with
  | _ bound ih =>
      have hw := h.winding (by rw [howner]; exact fun _ hx => hx)
      rcases hw.exists_stuck with ⟨schedule, u, hrun, hstuck⟩
      rcases hw.run hrun with ⟨hu, hsame⟩
      have howner' := hsame.trans howner
      have hclosing : Closing u := by
        refine ⟨hu.reach, ?_, hu.free, hu.patient⟩
        rw [howner']
        rfl
      by_cases halive : u.pool.mem.numThreadsAlive = 0
      · exact ⟨schedule, u, hrun.weaken Or.inl, hclosing, hstuck, howner', halive⟩
      · rcases exists_round hclosing hstuck howner' halive with
          ⟨round, v, hround, hv, hvo, hless⟩
        have hfewer := (disperses_run hrun hw howner).fewer
        rcases ih v.loiterers (by lia) hv hvo rfl with ⟨rest, w, hrest, hend⟩
        exact ⟨_, w, ((hrun.weaken Or.inl).append hround).append hrest, hend⟩

/-!
## On the way to the second polling loop
-/

def OwnerPc.untilPoll : OwnerPc -> Nat
  | .keepalive _ => 5
  | .pollFirst _ => 4
  | .postFirst _ .lock => 3
  | .postFirst _ .set => 2
  | .postFirst _ .unlock => 1
  | .postRest _ .lock => 3
  | .postRest _ .set => 2
  | .postRest _ .unlock => 1
  | _ => 0

/-- The owner takes the mutex of `has_jobs` when the others have come to rest. -/
theorem Closing.lock {s : Process n m fn arg} (h : Closing s) {next : OwnerPc}
    (houtside : forall x, ¬ s.pool.owner.Holds x)
    (hinstr : (ownerCode s.pool.owner : Code n fn arg OwnerPc) = .lock .hasJobsMutex next)
    (hnext : next.closing = true) :
    exists schedule u, (thpool n m fn arg).RunUnder Finishes s schedule u ∧ Closing u ∧
      u.pool.owner = next := by
  have hw := h.winding houtside
  rcases hw.exists_stuck with ⟨schedule, u, hrun, hstuck⟩
  rcases hw.run hrun with ⟨hu, hsame⟩
  have hclosing : Closing u := ⟨hu.reach, by rw [hsame]; exact h.closing, hu.free, hu.patient⟩
  rw [← hsame] at hinstr
  rcases owner_locks (reachable_tokenInv hu.reach).1 hinstr (hu.no_owner hstuck _) with
    ⟨v, hstep, hv, _⟩
  have hlast : (thpool n m fn arg).RunUnder OwnerGoes u _ v := .cons .go hstep (.nil v)
  exact ⟨_, v, (hrun.weaken Or.inl).append (hlast.weaken Or.inr),
    hclosing.owner_run hlast (by rw [hv]; exact hnext), hv⟩

theorem Closing.unlock {s : Process n m fn arg} (h : Closing s) {next : OwnerPc}
    (hholds : s.pool.owner.Holds .hasJobsMutex)
    (hinstr : (ownerCode s.pool.owner : Code n fn arg OwnerPc) = .unlock .hasJobsMutex next)
    (hnext : next.closing = true) :
    exists schedule u, (thpool n m fn arg).RunUnder Finishes s schedule u ∧ Closing u ∧
      u.pool.owner = next := by
  have hlock := (reachable_tokenInv h.reach).1
  rcases owner_unlocks hlock hinstr ((hlock.owned _ .owner).mpr hholds) with ⟨v, hstep, hv, _⟩
  have hlast : (thpool n m fn arg).RunUnder OwnerGoes s _ v := .cons .go hstep (.nil v)
  exact ⟨_, v, hlast.weaken Or.inr, h.owner_run hlast (by rw [hv]; exact hnext), hv⟩

theorem Closing.act {s : Process n m fn arg} (h : Closing s) {c : Choice fn arg}
    {next : OwnerPc} (hc : c = .go ∨ exists expired, c = .clock expired)
    (hacts : exists sh w, (ownerCode s.pool.owner).Acts s.shared c sh next w)
    (hnext : next.closing = true) :
    exists schedule u, (thpool n m fn arg).RunUnder Finishes s schedule u ∧ Closing u ∧
      u.pool.owner = next := by
  rcases hacts with ⟨sh, w, hacts⟩
  rcases owner_acts (reachable_tokenInv h.reach).1 hacts with ⟨woken, v, hstep, hv, _⟩
  have hlast : (thpool n m fn arg).RunUnder OwnerGoes s _ v :=
    .cons ⟨c, woken, rfl, hc⟩ hstep (.nil v)
  exact ⟨_, v, hlast.weaken Or.inr, h.owner_run hlast (by rw [hv]; exact hnext), hv⟩

theorem Closing.advance {s : Process n m fn arg} (h : Closing s)
    (hpoll : s.pool.owner.lastPoll = false) :
    exists schedule u, (thpool n m fn arg).RunUnder Finishes s schedule u ∧ Closing u ∧
      u.pool.owner.untilPoll < s.pool.owner.untilPoll := by
  have hgoal : forall next : OwnerPc, next.untilPoll < s.pool.owner.untilPoll ->
      (exists schedule u, (thpool n m fn arg).RunUnder Finishes s schedule u ∧ Closing u ∧
        u.pool.owner = next) ->
      exists schedule u, (thpool n m fn arg).RunUnder Finishes s schedule u ∧ Closing u ∧
        u.pool.owner.untilPoll < s.pool.owner.untilPoll := by
    intro next hless hparts
    rcases hparts with ⟨schedule, u, hrun, hu, hnext⟩
    exact ⟨schedule, u, hrun, hu, by rw [hnext]; exact hless⟩
  have hclosing := h.closing
  cases howner : s.pool.owner with
  | keepalive total =>
      rw [howner] at hgoal
      refine hgoal (.pollFirst total) (by simp [OwnerPc.untilPoll])
        (h.act (Or.inl rfl) ⟨setKeepalive false s.shared, .nobody, ?_⟩ rfl)
      rw [howner]
      rfl
  | pollFirst total =>
      -- the first loop goes round at least once, unless nobody is alive
      rw [howner] at hgoal
      by_cases halive : s.pool.mem.numThreadsAlive = 0
      · refine hgoal (.pollRest total) (by simp [OwnerPc.untilPoll])
          (h.act (Or.inr ⟨false, rfl⟩) ⟨s.shared, .nobody, ?_⟩ rfl)
        rw [howner]
        simp [ownerCode, Process.shared, halive]
      · refine hgoal (.postFirst total .lock) (by simp [OwnerPc.untilPoll])
          (h.act (Or.inr ⟨false, rfl⟩) ⟨s.shared, .nobody, ?_⟩ rfl)
        rw [howner]
        simp [ownerCode, Process.shared, halive]
  | postFirst total p =>
      rw [howner] at hgoal
      cases p with
      | lock =>
          refine hgoal (.postFirst total .set) (by simp [OwnerPc.untilPoll]) (h.lock ?_ ?_ rfl)
          · rw [howner]
            exact fun _ hx => hx
          · rw [howner]
            rfl
      | set =>
          refine hgoal (.postFirst total .unlock) (by simp [OwnerPc.untilPoll])
            (h.act (Or.inl rfl) ⟨setV 1 s.shared, .broadcast .hasJobsCond, ?_⟩ rfl)
          rw [howner]
          rfl
      | unlock =>
          -- by the next test of the first loop its second has passed
          refine hgoal (.pollRest total) (by simp [OwnerPc.untilPoll]) ?_
          have hholds : s.pool.owner.Holds .hasJobsMutex := by
            rw [howner]
            rfl
          have hinstr : (ownerCode s.pool.owner : Code n fn arg OwnerPc) =
              .unlock .hasJobsMutex (.pollFirst total) := by
            rw [howner]
            rfl
          rcases h.unlock hholds hinstr rfl with ⟨first, u, hfirst, hu, howner'⟩
          have hacts : (ownerCode u.pool.owner).Acts u.shared (.clock true) u.shared
              (.pollRest total) .nobody := by
            rw [howner']
            rfl
          rcases hu.act (Or.inr ⟨true, rfl⟩) ⟨_, _, hacts⟩ rfl with ⟨rest, v, hrest, hv, hend⟩
          exact ⟨_, v, hfirst.append hrest, hv, hend⟩
  | postRest total p =>
      rw [howner] at hgoal
      cases p with
      | lock =>
          refine hgoal (.postRest total .set) (by simp [OwnerPc.untilPoll]) (h.lock ?_ ?_ rfl)
          · rw [howner]
            exact fun _ hx => hx
          · rw [howner]
            rfl
      | set =>
          refine hgoal (.postRest total .unlock) (by simp [OwnerPc.untilPoll])
            (h.act (Or.inl rfl) ⟨setV 1 s.shared, .broadcast .hasJobsCond, ?_⟩ rfl)
          rw [howner]
          rfl
      | unlock =>
          refine hgoal (.pollRest total) (by simp [OwnerPc.untilPoll]) (h.unlock ?_ ?_ rfl)
          · rw [howner]
            rfl
          · rw [howner]
            rfl
  | pollRest total =>
      rw [howner] at hpoll
      cases hpoll
  | _ =>
      rw [howner] at hclosing
      cases hclosing

theorem exists_pollRest {s : Process n m fn arg} (h : Closing s) :
    exists schedule u total, (thpool n m fn arg).RunUnder Finishes s schedule u ∧
      Closing u ∧ u.pool.owner = .pollRest total := by
  generalize hbound : s.pool.owner.untilPoll = bound
  induction bound using Nat.strong_induction_on generalizing s with
  | _ bound ih =>
      cases hpoll : s.pool.owner.lastPoll with
      | true =>
          have hrest : exists total, s.pool.owner = .pollRest total := by
            generalize s.pool.owner = l at hpoll
            cases l with
            | pollRest total => exact ⟨total, rfl⟩
            | _ => cases hpoll
          rcases hrest with ⟨total, htotal⟩
          exact ⟨[], s, total, .nil s, h, htotal⟩
      | false =>
          rcases h.advance hpoll with ⟨schedule, u, hrun, hu, hless⟩
          rcases ih _ (by lia) hu rfl with ⟨rest, v, total, hrest, hend⟩
          exact ⟨_, v, total, hrun.append hrest, hend⟩

end Thpool
end PracticeHand
