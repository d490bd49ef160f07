import PracticeHand.Concurrency.Progress
import PracticeHand.Thpool.Handout
import PracticeHand.Thpool.Hold

/-!
# Adding work to a paused pool

A worker that receives SIGUSR1 stays in `thread_hold` until the pool is resumed,
with whatever mutexes it owned when the signal came.  If it owned `rwmutex` or
the mutex of `has_jobs`, a call of `thpool_add_work` has to wait for
`thpool_resume`.  If no signal is ever delivered in such a moment, every call of
`thpool_add_work` can be completed while the workers are held.
-/

namespace PracticeHand
namespace Thpool

open Concurrency

variable {n m : Nat} {fn arg : Type}

def Mutex.ofQueue : Mutex -> Bool
  | .rwmutex | .hasJobsMutex => true
  | .thcountLock => false

/-- SIGUSR1 is delivered to a worker only while it owns no mutex of the queue. -/
def DeliveredOutside (s : Process n m fn arg) : Action n m fn arg -> Prop
  | .deliver i => s.pool.threads.owner .rwmutex ≠ some (.worker i) ∧
      s.pool.threads.owner .hasJobsMutex ≠ some (.worker i)
  | _ => True

instance (s : Process n m fn arg) (a : Action n m fn arg) :
    Decidable (DeliveredOutside s a) :=
  match a with
  | .deliver _ => inferInstanceAs (Decidable (_ ∧ _))
  | .thread _ => inferInstanceAs (Decidable True)
  | .hold _ => inferInstanceAs (Decidable True)

/-- No worker is inside `thread_hold` with a mutex of the queue. -/
def HeldOutside (s : Process n m fn arg) : Prop :=
  forall i, s.pool.hold i ≠ none -> forall x, x.ofQueue = true ->
    s.pool.threads.owner x ≠ some (.worker i)

theorem worker_of_hold {s s' : Process n m fn arg} {a : Action n m fn arg} {i : Fin n}
    (hstep : step s a = some s') (hhold : s.pool.hold i ≠ none) :
    s'.pool.threads.loc (.worker i) = s.pool.threads.loc (.worker i) := by
  by_contra hmoved
  rcases run_of_moved hstep hmoved with ⟨c, woken, rfl⟩
  simp only [step] at hstep
  split at hstep
  · rename_i hrun
    simp [Event.enabled, Pool.mayRun, hhold] at hrun
  · cases hstep

theorem heldOutside_step {s s' : Process n m fn arg} {a : Action n m fn arg}
    (hlock : LockInv s) (h : HeldOutside s) (hok : DeliveredOutside s a)
    (hstep : step s a = some s') : HeldOutside s' := by
  have hlock' := lockInv_step hlock hstep
  -- a worker that was already held has not moved, so it owns what it owned
  have hkeep : forall i, s.pool.hold i ≠ none -> forall x, x.ofQueue = true ->
      s'.pool.threads.owner x ≠ some (.worker i) := by
    intro i hi x hx howner
    refine h i hi x hx ?_
    have hheld := (hlock'.owned x (.worker i)).mp howner
    rw [worker_of_hold hstep hi] at hheld
    exact (hlock.owned x (.worker i)).mpr hheld
  intro i hi x hx
  cases moves_of_step hstep with
  | thread _ _ => exact hkeep i hi x hx
  | @hold j l hl =>
      refine hkeep i ?_ x hx
      by_cases hij : i = j
      · rw [hij, hl]
        exact Option.some_ne_none l
      · dsimp only at hi
        rwa [Function.update_of_ne hij] at hi
  | @deliver j _ hnone _ =>
      by_cases hij : i = j
      · subst hij
        cases x with
        | rwmutex => exact hok.1
        | hasJobsMutex => exact hok.2
        | thcountLock => cases hx
      · refine hkeep i ?_ x hx
        dsimp only at hi
        rwa [Function.update_of_ne hij] at hi

/-!
## How far a section has to go
-/

def PostPc.rank : PostPc -> Nat
  | .lock => 3
  | .set => 2
  | .unlock => 1

def PushPc.rank : PushPc -> Nat
  | .lock => 6
  | .link => 5
  | .post p => p.rank + 1
  | .unlock => 1

def PullPc.rank : PullPc -> Nat
  | .lock => 6
  | .take => 5
  | .post _ p => p.rank + 1
  | .unlock _ => 1

def BsemWaitPc.rank : BsemWaitPc -> Nat
  | .test => 2
  | .sleep => 1
  | .unlock => 1
  | _ => 0

def Frame.rank : Frame -> Nat
  | .push _ p => p.rank
  | _ => 0

/-- How many steps a thread needs at most to give up the mutexes of the queue. -/
def rank : (t : Tid n m) -> Loc n m fn arg t -> Nat
  | .worker _, l =>
      match l with
      | .bsem p => p.rank
      | .pull p => p.rank
      | .running _ _ _ f => f.rank
      | _ => 0
  | .client _, l => l.rank
  | .owner, l =>
      match l with
      | .postFirst _ p => p.rank
      | .postRest _ p => p.rank
      | _ => 0

section Enabled

variable {owner : Mutex -> Option (Tid n m)} {t : Tid n m} {s : Shared n fn arg}

/-- The thread owns what it holds, and nobody else has the mutex of `has_jobs`. -/
structure Unhindered (owner : Mutex -> Option (Tid n m)) (t : Tid n m)
    (holds : Mutex -> Prop) : Prop where
  owns : forall x, holds x -> owner x = some t
  free : ¬ holds .hasJobsMutex -> owner .hasJobsMutex = none

theorem bsemPost_enabled (p : PostPc) (h : Unhindered owner t p.Holds) :
    exists next, (bsemPost p : Code n fn arg _).Enabled owner t s .go next ∧
      next.elim PostPc.rank (fun _ => 0) < p.rank := by
  cases p with
  | lock => exact ⟨_, .lock (h.free id), by decide⟩
  | set => exact ⟨_, .act rfl, by decide⟩
  | unlock => exact ⟨_, .unlock (h.owns _ rfl), by decide⟩

theorem bsemPostAll_enabled (p : PostPc) (h : Unhindered owner t p.Holds) :
    exists next, (bsemPostAll p : Code n fn arg _).Enabled owner t s .go next ∧
      next.elim PostPc.rank (fun _ => 0) < p.rank := by
  cases p with
  | lock => exact ⟨_, .lock (h.free id), by decide⟩
  | set => exact ⟨_, .act rfl, by decide⟩
  | unlock => exact ⟨_, .unlock (h.owns _ rfl), by decide⟩

theorem bsemWait_enabled (p : BsemWaitPc) (h : Unhindered owner t p.Holds)
    (hp : p.Holds .hasJobsMutex) :
    exists next, (bsemWait p : Code n fn arg _).Enabled owner t s .go next ∧
      next.elim BsemWaitPc.rank (fun _ => 0) < p.rank := by
  cases p with
  | lock | relock => exact hp.elim
  | test =>
      by_cases hv : s.2.v ≠ 1
      · exact ⟨.goto .sleep, .act (by rw [if_pos hv]), by decide⟩
      · exact ⟨.goto .unlock, .act (by rw [if_neg hv]), by decide⟩
  | sleep => exact ⟨_, .wait (h.owns _ rfl), by decide⟩
  | unlock => exact ⟨_, .unlock (h.owns _ rfl), by decide⟩

theorem jobqueuePush_enabled {caller : Option Ptr} {newjob : Ptr} (p : PushPc)
    (h : Unhindered owner t p.Holds)
    (hlock : p = .lock -> owner .rwmutex = none)
    (hlink : p = .link -> linkJob caller newjob s ≠ none) :
    exists next, (jobqueuePush caller newjob p).Enabled owner t s .go next ∧
      next.elim PushPc.rank (fun _ => 0) < p.rank := by
  cases p with
  | lock => exact ⟨_, .lock (hlock rfl), by decide⟩
  | link =>
      rcases Option.ne_none_iff_exists'.mp (hlink rfl) with ⟨s', hs'⟩
      exact ⟨.goto (.post .lock), .act (by rw [hs']; rfl), by decide⟩
  | unlock => exact ⟨_, .unlock (h.owns _ rfl), by decide⟩
  | post q =>
      have hq : Unhindered owner t q.Holds :=
        ⟨fun x hx => h.owns x (Or.inr hx), fun hx => h.free (by simpa [PushPc.Holds] using hx)⟩
      rcases @bsemPost_enabled n m fn arg owner t s q hq with ⟨next, henabled, hless⟩
      refine ⟨_, henabled.map _, ?_⟩
      cases next with
      | goto q' => exact Nat.succ_lt_succ hless
      | ret r => exact Nat.succ_lt_succ hless

theorem jobqueuePull_enabled {puller : Option (Fin n)} (p : PullPc)
    (h : Unhindered owner t p.Holds) (hp : p ≠ .lock)
    (htake : takeJob puller s ≠ none) :
    exists next, (jobqueuePull puller p).Enabled owner t s .go next ∧
      next.elim PullPc.rank (fun _ => 0) < p.rank := by
  cases p with
  | lock => exact absurd rfl hp
  | take =>
      rcases Option.ne_none_iff_exists'.mp htake with ⟨⟨s', l'⟩, hs'⟩
      refine ⟨.goto l', .act (by rw [hs']; rfl), ?_⟩
      rcases takeJob_cases hs' with ⟨_, _, _, rfl, _⟩ | ⟨job, _, more, _, rfl, _⟩
      · decide
      · cases more
        · exact (by decide : 1 < 5)
        · exact (by decide : 4 < 5)
  | unlock job => exact ⟨_, .unlock (h.owns _ rfl), Nat.zero_lt_one⟩
  | post job q =>
      have hq : Unhindered owner t q.Holds :=
        ⟨fun x hx => h.owns x (Or.inr hx), fun hx => h.free (by simpa [PullPc.Holds] using hx)⟩
      rcases @bsemPost_enabled n m fn arg owner t s q hq with ⟨next, henabled, hless⟩
      refine ⟨_, henabled.map _, ?_⟩
      cases next with
      | goto q' => exact Nat.succ_lt_succ hless
      | ret r => exact Nat.succ_lt_succ hless

theorem userCode_push_enabled {caller : Option Ptr} {newjob : Ptr} {p : PushPc}
    (h : Unhindered owner t p.Holds)
    (hlock : p = .lock -> owner .rwmutex = none)
    (hlink : p = .link -> linkJob caller newjob s ≠ none) :
    exists f, (userCode caller (.push newjob p)).Enabled owner t s .go f ∧
      f.rank < p.rank ∧ ((exists q, f = .push newjob q) ∨ f = .user) := by
  rcases jobqueuePush_enabled p h hlock hlink with ⟨next, henabled, hless⟩
  refine ⟨_, henabled.map _, ?_⟩
  cases next with
  | goto q => exact ⟨hless, Or.inl ⟨q, rfl⟩⟩
  | ret r => exact ⟨hless, Or.inr rfl⟩

end Enabled

/-!
## A thread in a section goes on
-/

def released : (t : Tid n m) -> Loc n m fn arg t -> Bool
  | .owner, l => l.phase.released
  | .worker _, _ => false
  | .client _, _ => false

/-- A step towards the end of a section, seen from its thread: a call of
`jobqueue_push` goes on or returns, and the owner stays in its polling loops. -/
structure Onward (t : Tid n m) (l next : Loc n m fn arg t) : Prop where
  less : rank t next < rank t l
  pushing : forall newjob p, frameOf t l = some (.push newjob p) ->
    (exists q, frameOf t next = some (.push newjob q)) ∨ frameOf t next = some .user
  kept : released t next = false

/-- The thread is in a section of the queue, or nothing keeps it from entering one
with `jobqueue_push`. -/
def Ready (owner : Mutex -> Option (Tid n m)) (t : Tid n m) (l : Loc n m fn arg t) : Prop :=
  (exists x, x.ofQueue = true ∧ Held t l x) ∨
    (owner .rwmutex = none ∧ exists newjob, frameOf t l = some (.push newjob .lock))

def Frame.Ready (owner : Mutex -> Option (Tid n m)) (f : Frame) : Prop :=
  (exists x, x.ofQueue = true ∧ f.Holds x) ∨
    (owner .rwmutex = none ∧ exists newjob, some f = some (.push newjob .lock))

section Sections

variable {owner : Mutex -> Option (Tid n m)} {s : Shared n fn arg}

theorem userCode_onward {t : Tid n m} {caller : Option Ptr} {f : Frame}
    (h : Unhindered owner t f.Holds) (hready : f.Ready owner)
    (hlink : forall newjob, f.standing.newjob = some newjob ->
      linkJob caller newjob s ≠ none) :
    exists newjob p f', f = .push newjob p ∧
      (userCode caller f).Enabled owner t s .go f' ∧
      f'.rank < f.rank ∧
      forall newjob p, some f = some (.push newjob p) ->
        (exists q, some f' = some (.push newjob q)) ∨ some f' = some .user := by
  cases f with
  | user | pause => rcases hready with ⟨_, _, hx⟩ | ⟨_, _, hx⟩ <;> cases hx
  | wait p =>
      exfalso
      rcases hready with ⟨x, hx, hholds⟩ | ⟨_, _, hx⟩
      · cases p <;> cases hholds <;> cases hx
      · cases hx
  | push newjob p =>
      refine ⟨newjob, p, ?_⟩
      have hfree : p = .lock -> owner .rwmutex = none := by
        intro heq
        subst heq
        rcases hready with ⟨x, _, hholds⟩ | ⟨hnone, _⟩
        · exact hholds.elim
        · exact hnone
      have hsome : p = .link -> linkJob caller newjob s ≠ none := by
        intro heq
        subst heq
        exact hlink newjob rfl
      rcases userCode_push_enabled h hfree hsome with ⟨f', henabled, hless, hnext⟩
      refine ⟨f', rfl, henabled, hless, ?_⟩
      intro newjob' p' heq
      cases heq
      rcases hnext with ⟨q, rfl⟩ | rfl
      · exact Or.inl ⟨q, rfl⟩
      · exact Or.inr rfl

theorem worker_onward {i : Fin n} {l : WorkerPc fn arg}
    (h : Unhindered owner (Tid.worker i : Tid n m) l.Holds)
    (hready : Ready owner (.worker i) l)
    (hlink : forall caller newjob, l.standing.newjob = some newjob ->
      linkJob caller newjob s ≠ none)
    (htake : takeJob (some i) s ≠ none) :
    exists next, (threadDo i l).Enabled owner (Tid.worker i) s .go next ∧
      Onward (Tid.worker i : Tid n m) l next := by
  cases l with
  | bsem p =>
      have hp : p.Holds .hasJobsMutex := by
        rcases hready with ⟨x, _, hx⟩ | ⟨_, _, hf⟩
        · change p.Holds x at hx
          cases p <;> first | exact rfl | exact hx.elim
        · cases hf
      rcases @bsemWait_enabled n m fn arg owner _ s p h hp with ⟨next, henabled, hless⟩
      refine ⟨_, henabled.map _, ?_, ?_, rfl⟩
      · cases next <;> exact hless
      · intro newjob q hq
        cases hq
  | pull p =>
      have hp : p ≠ .lock := by
        intro heq
        subst heq
        rcases hready with ⟨x, _, hx⟩ | ⟨_, _, hf⟩
        · exact hx
        · cases hf
      rcases jobqueuePull_enabled p h hp htake with ⟨next, henabled, hless⟩
      refine ⟨_, henabled.map _, ?_, ?_, rfl⟩
      · cases next <;> exact hless
      · intro newjob q hq
        cases hq
  | running job function arg' f =>
      rcases userCode_onward h hready (hlink (some job)) with
        ⟨newjob, p, f', rfl, henabled, hless, hnext⟩
      exact ⟨.running job function arg' f', henabled.map _, hless, hnext, rfl⟩
  | _ =>
      exfalso
      rcases hready with ⟨x, hx, hholds⟩ | ⟨_, _, hf⟩
      · cases hholds <;> cases hx
      · cases hf

theorem client_onward {j : Fin m} {f : Frame}
    (h : Unhindered owner (Tid.client j : Tid n m) f.Holds)
    (hready : @Ready n m fn arg owner (.client j) f)
    (hlink : forall caller newjob, f.standing.newjob = some newjob ->
      linkJob caller newjob s ≠ none) :
    exists next, (userCode none f).Enabled owner (Tid.client j) s .go next ∧
      @Onward n m fn arg (.client j) f next := by
  rcases userCode_onward h hready (hlink none) with
    ⟨newjob, p, f', rfl, henabled, hless, hnext⟩
  exact ⟨f', henabled, hless, hnext, rfl⟩

theorem owner_onward {l : OwnerPc} (h : Unhindered owner (Tid.owner : Tid n m) l.Holds)
    (hready : @Ready n m fn arg owner .owner l)
    (hkept : l.phase.released = false) :
    exists next, (ownerCode l).Enabled owner Tid.owner s .go next ∧
      @Onward n m fn arg .owner l next := by
  cases l with
  | postFirst total p | postRest total p =>
      rcases @bsemPostAll_enabled n m fn arg owner _ s p h with ⟨next, henabled, hless⟩
      refine ⟨_, henabled.map _, ?_, ?_, ?_⟩
      · cases next <;> exact hless
      · intro newjob q hq
        cases hq
      · cases next <;> rfl
  | clearPull => cases hkept
  | _ =>
      exfalso
      rcases hready with ⟨x, hx, hholds⟩ | ⟨_, _, hf⟩
      · exact hholds
      · cases hf

end Sections

/-!
## A call of `thpool_add_work` can be completed
-/

theorem Frame.not_ready_of_sleeps {owner : Mutex -> Option (Tid n m)} {f : Frame} {k : Cond}
    (h : f.SleepsOn k) : ¬ f.Ready owner := by
  cases f with
  | wait p =>
      cases p with
      | relock =>
          intro hready
          rcases hready with ⟨_, _, hx⟩ | ⟨_, _, hf⟩
          · exact hx
          · cases hf
      | _ => exact h.elim
  | _ => exact h.elim

theorem not_ready_of_sleeps {owner : Mutex -> Option (Tid n m)} {t : Tid n m}
    {l : Loc n m fn arg t} {k : Cond} (h : Sleeps t l k) : ¬ Ready owner t l := by
  cases t with
  | owner => exact h.elim
  | client j => exact Frame.not_ready_of_sleeps h
  | worker i =>
      change WorkerPc.SleepsOn l k at h
      cases l with
      | bsem p =>
          cases p with
          | relock =>
              intro hready
              rcases hready with ⟨_, _, hx⟩ | ⟨_, _, hf⟩
              · exact hx
              · cases hf
          | _ => exact h.elim
      | running job function arg' f => exact Frame.not_ready_of_sleeps h
      | _ => exact h.elim

theorem awake_of_ready {s : Process n m fn arg} (hlock : LockInv s) {t : Tid n m}
    (h : Ready s.pool.threads.owner t (s.pool.threads.loc t)) :
    s.pool.threads.asleep t = none := by
  cases hasleep : s.pool.threads.asleep t with
  | none => rfl
  | some k => exact (not_ready_of_sleeps (hlock.sleepers t k hasleep) h).elim

theorem exists_onward {s : Process n m fn arg} (hreach : (thpool n m fn arg).Reachable s)
    (hused : s.pool.owner.phase.released = false) {t : Tid n m}
    (h : Unhindered s.pool.threads.owner t (Held t (s.pool.threads.loc t)))
    (hready : Ready s.pool.threads.owner t (s.pool.threads.loc t)) :
    exists next,
      (thpoolCode t (s.pool.threads.loc t)).Enabled s.pool.threads.owner t s.shared .go next ∧
        Onward t (s.pool.threads.loc t) next := by
  rcases thpool_no_bad_pointer hreach hused with ⟨hlink, htake, _⟩
  have hnew : forall caller newjob,
      (standing t (s.pool.threads.loc t)).newjob = some newjob ->
      linkJob caller newjob s.shared ≠ none :=
    fun caller newjob hnew => hlink t newjob caller hnew
  cases t with
  | worker i => exact worker_onward h hready hnew (htake i)
  | client j => exact client_onward h hready hnew
  | owner => exact owner_onward h hready hused

theorem held_of_pushing {t : Tid n m} {l : Loc n m fn arg t} {newjob : Ptr} {p : PushPc}
    (hl : frameOf t l = some (.push newjob p)) (hp : p ≠ .lock) : Held t l .rwmutex := by
  have hholds : p.Holds .rwmutex := by
    cases p with
    | lock => exact (hp rfl).elim
    | link | unlock => exact rfl
    | post q => exact Or.inl rfl
  cases t with
  | owner => cases hl
  | client j =>
      cases hl
      exact hholds
  | worker i =>
      cases l with
      | running job function arg' f =>
          cases hl
          exact hholds
      | _ => cases hl

/-- Who has to move for a call of `jobqueue_push` to go on: the owner of the
mutex of `has_jobs`, else the owner of `rwmutex`, else the caller. -/
theorem exists_ready {s : Process n m fn arg} (hlock : LockInv s) {t : Tid n m}
    {newjob : Ptr} {p : PushPc} (ht : s.pool.frame t = some (.push newjob p)) :
    exists u, (u = t ∨ exists x, x.ofQueue = true ∧ s.pool.threads.owner x = some u) ∧
      Unhindered s.pool.threads.owner u (Held u (s.pool.threads.loc u)) ∧
      Ready s.pool.threads.owner u (s.pool.threads.loc u) := by
  have howns : forall u x, Held u (s.pool.threads.loc u) x ->
      s.pool.threads.owner x = some u := fun u x hx => (hlock.owned x u).mpr hx
  have hholds : forall u x, s.pool.threads.owner x = some u ->
      Held u (s.pool.threads.loc u) x := fun u x hx => (hlock.owned x u).mp hx
  cases hjobs : s.pool.threads.owner .hasJobsMutex with
  | some u =>
      have hu := hholds u _ hjobs
      exact ⟨u, Or.inr ⟨_, rfl, hjobs⟩, ⟨howns u, fun hnot => (hnot hu).elim⟩,
        Or.inl ⟨_, rfl, hu⟩⟩
  | none =>
      cases hrw : s.pool.threads.owner .rwmutex with
      | some u =>
          exact ⟨u, Or.inr ⟨_, rfl, hrw⟩, ⟨howns u, fun _ => hjobs⟩,
            Or.inl ⟨_, rfl, hholds u _ hrw⟩⟩
      | none =>
          have hp : p = .lock := by
            by_contra hp
            rw [howns t _ (held_of_pushing ht hp)] at hrw
            cases hrw
          subst hp
          exact ⟨t, Or.inl rfl, ⟨howns t, fun _ => hjobs⟩, Or.inr ⟨hrw, newjob, ht⟩⟩

theorem mayRun_of_ready {s : Process n m fn arg} (hstage : StageInv s)
    (hused : s.pool.owner.phase.released = false) {t : Tid n m}
    (hready : Ready s.pool.threads.owner t (s.pool.threads.loc t))
    (hfree : forall i, t = .worker i -> s.pool.hold i = none) :
    s.pool.mayRun t = true := by
  have hgone : s.pool.owner ≠ .gone := by
    intro hgone
    rw [hgone] at hused
    cases hused
  cases t with
  | owner => rfl
  | worker i => simp [Pool.mayRun, hfree i rfl, hgone]
  | client j =>
      have hinit : s.pool.owner.initReturned = true := by
        by_contra hinit
        have huser := hstage.outside (by simpa using hinit) j
        change s.pool.threads.loc (.client j) = .user at huser
        rw [huser] at hready
        rcases hready with ⟨_, _, hx⟩ | ⟨_, _, hf⟩
        · exact hx
        · cases hf
      simp [Pool.mayRun, hinit, hgone]

/-- A thread goes on in the call that it is in: no call is made, and no signal is
delivered or leaves its handler. -/
def GoesOn (_s : Process n m fn arg) (a : Action n m fn arg) : Prop :=
  exists t woken, a = .thread (.run t .go woken)

structure Adding (t : Tid n m) (s : Process n m fn arg) : Prop where
  reach : (thpool n m fn arg).ReachableUnder DeliveredOutside s
  used : s.pool.owner.phase.released = false
  free : forall i, t = .worker i -> s.pool.hold i = none
  frame : (exists newjob p, s.pool.frame t = some (.push newjob p)) ∨
    s.pool.frame t = some .user

theorem heldOutside_of_reachable {s : Process n m fn arg}
    (h : (thpool n m fn arg).ReachableUnder DeliveredOutside s) :
    LockInv s ∧ HeldOutside s := by
  apply System.ReachableUnder.invariant _ _ h
  · intro s hs
    rw [show s = Process.initial from hs]
    exact ⟨lockInv_initial, fun i hi => (hi rfl).elim⟩
  · intro s t a hinv hok hstep
    exact ⟨lockInv_step hinv.1 hstep, heldOutside_step hinv.1 hinv.2 hok hstep⟩

theorem released_update {locs : (t : Tid n m) -> Loc n m fn arg t} {t : Tid n m}
    {next : Loc n m fn arg t} (hbefore : released .owner (locs .owner) = false)
    (hnext : released t next = false) :
    released .owner (Function.update locs t next .owner) = false := by
  by_cases ht : Tid.owner = t
  · subst ht
    rwa [Function.update_self]
  · rwa [Function.update_of_ne ht]

theorem adding_step {s : Process n m fn arg} {t : Tid n m} (h : Adding t s)
    (hin : s.pool.frame t ≠ some .user) :
    exists a s', GoesOn s a ∧ (thpool n m fn arg).step s a = some s' ∧ Adding t s' ∧
      remaining rank s'.pool.threads.loc < remaining rank s.pool.threads.loc := by
  rcases h.frame.resolve_right hin with ⟨newjob, p, hpush⟩
  rcases heldOutside_of_reachable h.reach with ⟨hlock, houtside⟩
  rcases reachable_tokenInv h.reach.reachable with ⟨_, hstage, _⟩
  rcases exists_ready hlock hpush with ⟨u, hwho, hunhindered, hready⟩
  have hfree : forall i, u = .worker i -> s.pool.hold i = none := by
    intro i heq
    subst heq
    rcases hwho with heq | ⟨x, hx, howner⟩
    · exact h.free i heq.symm
    · by_contra hhold
      exact houtside i hhold x hx howner
  rcases exists_onward h.reach.reachable h.used hunhindered hready with
    ⟨next, henabled, honward⟩
  rcases machineStep_of_enabled (awake_of_ready hlock hready) henabled with
    ⟨woken, ⟨flags, mem⟩, threads, hmachine, hloc⟩
  have hrun := mayRun_of_ready hstage h.used hready hfree
  have hstep : step s (.thread (.run u .go woken)) =
      some { flags := flags, pool := { s.pool with mem := mem, threads := threads } } := by
    simp only [step, Event.enabled, hrun, if_true]
    rw [show machineStep thpoolCode (s.flags, s.pool.mem) s.pool.threads
      (.run u .go woken) = some ((flags, mem), threads) from hmachine]
    rfl
  have hok : DeliveredOutside s (.thread (.run u .go woken)) := trivial
  refine ⟨_, _, ⟨u, woken, rfl⟩, hstep, ⟨h.reach.next hok hstep, ?_, h.free, ?_⟩, ?_⟩
  · change released .owner (threads.loc .owner) = false
    rw [hloc]
    exact released_update h.used honward.kept
  · change (exists newjob p, frameOf t (threads.loc t) = some (.push newjob p)) ∨
      frameOf t (threads.loc t) = some .user
    rw [hloc, frame_update]
    by_cases htu : t = u
    · subst htu
      rw [Function.update_self]
      rcases honward.pushing newjob p hpush with ⟨q, hq⟩ | huser
      · exact Or.inl ⟨newjob, q, hq⟩
      · exact Or.inr huser
    · rw [Function.update_of_ne htu]
      exact h.frame
  · change remaining rank threads.loc < _
    rw [hloc]
    exact remaining_update_lt honward.less

theorem adding_returns {s : Process n m fn arg} {t : Tid n m} (h : Adding t s) :
    exists schedule u, (thpool n m fn arg).RunUnder GoesOn s schedule u ∧
      u.pool.frame t = some .user :=
  System.exists_run_until (fun s => remaining rank s.pool.threads.loc)
    (fun _ h hin => adding_step h hin) h

/-!
## A paused pool accepts work
-/

/-- If SIGUSR1 is never delivered to a worker that owns a mutex of the queue, then
no worker is in the loop of `thread_hold` with one, and a call of `thpool_add_work`
by a thread that is not itself held can be completed by threads that only go on. -/
theorem thpool_paused_accepts_work {s : Process n m fn arg}
    (hreach : (thpool n m fn arg).ReachableUnder DeliveredOutside s) :
    (forall i, s.pool.hold i = some .loop ->
      s.pool.threads.owner .rwmutex ≠ some (.worker i) ∧
        s.pool.threads.owner .hasJobsMutex ≠ some (.worker i)) ∧
    (s.pool.owner.phase.released = false ->
      forall t newjob p, s.pool.mayRun t = true ->
        s.pool.frame t = some (.push newjob p) ->
        exists schedule u, (thpool n m fn arg).RunUnder GoesOn s schedule u ∧
          u.pool.frame t = some .user) := by
  constructor
  · intro i hi
    have hhold : s.pool.hold i ≠ none := by
      rw [hi]
      exact Option.some_ne_none _
    have houtside := (heldOutside_of_reachable hreach).2 i hhold
    exact ⟨houtside .rwmutex rfl, houtside .hasJobsMutex rfl⟩
  · intro hused t newjob p hrun hpush
    refine adding_returns ⟨hreach, hused, ?_, Or.inl ⟨newjob, p, hpush⟩⟩
    intro i heq
    subst heq
    simp only [Pool.mayRun, decide_eq_true_eq] at hrun
    exact hrun.1

def pauseWorker (i : Fin n) (j : Fin m) : List (Action n m Unit Unit) :=
  (Tid.client j).chooses .pause ++ (Tid.client j).steps 2 ++ [.deliver i, .hold i]

def startAddWork (j : Fin m) : List (Action n m Unit Unit) :=
  (Tid.client j).chooses (.addWork () () (some 0))

/-- The worker is held outside of the sections and a client adds work. -/
theorem thpool_paused_accepts_work_one :
    exists s : Process 1 1 Unit Unit, s.pool.hold 0 = some .loop ∧
      s.pool.frame (.client 0) = some (.push 0 .lock) ∧
      exists schedule u, (thpool 1 1 Unit Unit).RunUnder GoesOn s schedule u ∧
        u.pool.frame (.client 0) = some .user := by
  have hrun : exists s,
      (thpool 1 1 Unit Unit).ReachableUnder DeliveredOutside s ∧
      (s.pool.owner.phase.released = false ∧ s.pool.mayRun (.client 0) = true ∧
        s.pool.hold 0 = some .loop ∧ s.pool.frame (.client 0) = some (.push 0 .lock)) :=
    System.reachableUnder_of_execUnder (s := Process.initial)
      (startPool 0 ++ pauseWorker 0 0 ++ startAddWork 0) rfl (by decide)
  rcases hrun with ⟨s, hreach, hused, hmay, hhold, hpush⟩
  exact ⟨s, hhold, hpush,
    (thpool_paused_accepts_work hreach).2 hused (.client 0) 0 .lock hmay hpush⟩

/-- The signal comes while the worker owns the mutex of `has_jobs`; a client that
adds work then stands before that mutex. -/
theorem thpool_paused_with_mutex :
    exists s : Process 1 1 Unit Unit, (thpool 1 1 Unit Unit).Reachable s ∧
      s.pool.hold 0 = some .loop ∧
      s.pool.threads.owner .hasJobsMutex = some (.worker 0) ∧
      s.pool.frame (.client 0) = some (.push 0 (.post .lock)) :=
  System.reachable_of_exec (s := Process.initial)
    (startPool 0 ++ (Tid.worker 0).steps 2 ++ pauseWorker 0 0 ++ startAddWork 0 ++
      (Tid.client 0).steps 2) rfl (by decide)

end Thpool
end PracticeHand
