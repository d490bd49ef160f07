import PracticeHand.ClientServer.Serv08Queue
import PracticeHand.Concurrency.Counting

/-!
# Nobody sleeps while connections wait

`main` signals once for each descriptor it puts, and a signal can be lost: it is
sent while nobody sleeps, or the thread it wakes finds its descriptor taken by
another.  Still, as long as some thread sleeps, every queued descriptor has a
thread that is awake and on its way to the queue.  The one exception is the
moment between the put of `main` and its signal.
-/

namespace PracticeHand
namespace Serv08

open Concurrency

variable {n : Nat}

def ThreadPc.eager : ThreadPc -> Bool
  | .lock | .test | .relock | .take => true
  | _ => false

def stance (c : Threads (Tid n) Mutex Cond (Loc n)) (i : Fin n) : ThreadPc × Option Cond :=
  (c.loc (.worker i), c.asleep (.worker i))

/-- A thread has been woken, or is about to lock the mutex, or has it and is about
to examine the queue or to take from it. -/
def looks (p : ThreadPc × Option Cond) : Bool :=
  p.1.eager && p.2.isNone

def MainPc.unsignalled : MainPc -> Nat
  | .check | .signal | .quit | .exited => 1
  | _ => 0

namespace Server

def looking (s : Server n) : Nat :=
  countWhere looks (stance s.threads)

def untaken (s : Server n) : Nat :=
  s.mem.accepted.length - s.mem.taken.length - s.main.hand.length

/-- A thread is in `Pthread_cond_wait` and has not been signalled. -/
def Sleeping (s : Server n) (i : Fin n) : Prop :=
  s.threads.asleep (.worker i) = some .clifdCond

instance (s : Server n) (i : Fin n) : Decidable (s.Sleeping i) :=
  inferInstanceAs (Decidable (_ = _))

end Server

def Sleeps : (t : Tid n) -> Loc n t -> Cond -> Prop
  | .main, _, _ => False
  | .worker _, l, _ => l = ThreadPc.relock

theorem serv08Code_sleeps (t : Tid n) (l : Loc n t) (k : Cond) (m : Mutex)
    (next : Loc n t) (h : serv08Code t l = .wait k m next) : Sleeps t next k := by
  cases t with
  | main =>
      change (mainCode l : Code n MainPc) = .wait k m next at h
      cases l <;> cases h
  | worker i =>
      change threadMain i l = .wait k m next at h
      cases l <;> cases h
      rfl

/-- With `k` descriptors queued, a thread about to sleep has found none, and while
a thread sleeps there are enough others on their way. -/
structure Enough (c : Threads (Tid n) Mutex Cond (Loc n)) (k : Nat) : Prop where
  empty : forall i, c.loc (.worker i) = ThreadPc.sleep -> k = 0
  enough : forall i, c.asleep (.worker i) ≠ none ->
    k ≤ countWhere looks (stance c) + MainPc.unsignalled (c.loc .main)

section Step

variable {s s' : Shared n} {c c' : Threads (Tid n) Mutex Cond (Loc n)} {k k' : Nat}

theorem stance_main (owner : Mutex -> Option (Tid n)) (l' : Loc n .main)
    (asleep : Tid n -> Option Cond) :
    stance { owner := owner, loc := Function.update c.loc .main l', asleep := asleep } =
      fun i => (c.loc (.worker i), asleep (.worker i)) := by
  funext i
  simp only [stance]
  rw [Function.update_of_ne (by simp)]
  rfl

theorem stance_worker (owner : Mutex -> Option (Tid n)) (i : Fin n)
    (l' : Loc n (.worker i)) {asleep : Tid n -> Option Cond}
    (hothers : forall j, j ≠ i -> asleep (.worker j) = c.asleep (.worker j)) :
    stance { owner := owner
             loc := Function.update c.loc (.worker i) l'
             asleep := asleep } =
      Function.update (stance c) i (l', asleep (.worker i)) := by
  funext j
  by_cases hji : j = i
  · subst hji
    simp [stance]
  · rw [Function.update_of_ne hji]
    simp only [stance]
    rw [Function.update_of_ne (by simpa using hji), hothers j hji]

/-- A step of thread `i`: it leaves nobody to whom the queue would owe a thread, or
it takes as many descriptors as it stops looking for. -/
theorem Enough.moveThread (h : Enough c k) {i : Fin n} {l' : Loc n (.worker i)}
    {asleep : Tid n -> Option Cond}
    (hothers : forall j, j ≠ i -> asleep (.worker j) = c.asleep (.worker j))
    (hle : k' ≤ k) (hsleep : l' = ThreadPc.sleep -> k' = 0)
    (hcount : k' = 0 ∨ (asleep (.worker i) = none ∧
      k' + (looks (stance c i)).toNat ≤ k + (looks (l', none)).toNat))
    (owner : Mutex -> Option (Tid n)) :
    Enough { owner := owner
             loc := Function.update c.loc (.worker i) l'
             asleep := asleep } k' where
  empty := by
    intro j hj
    dsimp only at hj
    by_cases hji : j = i
    · subst hji
      rw [Function.update_self] at hj
      exact hsleep hj
    · rw [Function.update_of_ne (by simpa using hji)] at hj
      have hk := h.empty j hj
      lia
  enough := by
    intro j hj
    rcases hcount with hzero | ⟨hawake, hcount⟩
    · rw [hzero]
      exact Nat.zero_le _
    · have hji : j ≠ i := by
        intro heq
        subst heq
        exact hj hawake
      dsimp only at hj ⊢
      rw [hothers j hji] at hj
      have hk := h.enough j hj
      have hupdate := countWhere_update looks (stance c) i (l', asleep (.worker i))
      rw [stance_worker owner i l' hothers, Function.update_of_ne (by simp)]
      rw [hawake] at hupdate ⊢
      lia

theorem Enough.moveMain (h : Enough c k) {l' : Loc n .main}
    (hempty : forall i, c.loc (.worker i) = ThreadPc.sleep -> k' = 0)
    (hcount : k' + MainPc.unsignalled (c.loc .main) ≤ k + MainPc.unsignalled l')
    (owner : Mutex -> Option (Tid n)) :
    Enough { owner := owner
             loc := Function.update c.loc .main l'
             asleep := c.asleep } k' where
  empty := by
    intro i hi
    dsimp only at hi
    rw [Function.update_of_ne (by simp)] at hi
    exact hempty i hi
  enough := by
    intro i hi
    have hk := h.enough i hi
    dsimp only
    rw [stance_main, Function.update_self]
    change k' ≤ countWhere looks (stance c) + _
    lia

def Logged (s : Shared n) (c : Threads (Tid n) Mutex Cond (Loc n)) (k : Nat) : Prop :=
  s.accepted.length = s.taken.length + k + (MainPc.hand (c.loc .main)).length

theorem Queue.logged {queued : List Fd} (h : Queue s c queued) :
    Logged s c queued.length := by
  have hlength := congrArg List.length h.log
  simpa only [Logged, List.length_append, List.length_map] using hlength

theorem Enough.syncMain (h : Enough c k) {l' : Loc n .main}
    (hnext : (mainCode (c.loc .main) : Code n MainPc).syncNext = some l')
    (hlog : Logged s c k) {owner : Mutex -> Option (Tid n)}
    (hlog' : Logged s { owner := owner
                        loc := Function.update c.loc .main l'
                        asleep := c.asleep } k') :
    Enough { owner := owner
             loc := Function.update c.loc .main l'
             asleep := c.asleep } k' := by
  have hhand := (MainPc.queued_sync hnext).1
  have hpend : MainPc.unsignalled l' = MainPc.unsignalled (c.loc .main) := by
    generalize (c.loc .main : MainPc) = l at hnext
    cases l <;> cases hnext <;> rfl
  unfold Logged at hlog hlog'
  dsimp only at hlog'
  rw [Function.update_self, hhand] at hlog'
  have hk : k' = k := by lia
  apply h.moveMain
  · intro i hi
    rw [hk]
    exact h.empty i hi
  · lia

theorem Enough.syncThread (h : Enough c k) {i : Fin n} {l' : ThreadPc}
    (hawake : c.asleep (.worker i) = none)
    (hnext : (threadMain i (c.loc (.worker i))).syncNext = some l')
    {asleep : Tid n -> Option Cond}
    (hothers : forall j, j ≠ i -> asleep (.worker j) = c.asleep (.worker j))
    (hself : c.loc (.worker i) ≠ ThreadPc.sleep -> asleep (.worker i) = none)
    (owner : Mutex -> Option (Tid n)) :
    Enough { owner := owner
             loc := Function.update c.loc (.worker i) l'
             asleep := asleep } k := by
  have hempty := h.empty i
  have hlooks : looks (stance c i) = ThreadPc.eager (c.loc (.worker i)) := by
    simp [looks, stance, hawake]
  apply h.moveThread hothers (Nat.le_refl k)
  · intro heq
    subst heq
    generalize (c.loc (.worker i) : ThreadPc) = l at hnext
    cases l <;> cases hnext
  · rw [hlooks]
    generalize (c.loc (.worker i) : ThreadPc) = l at hnext hself hempty
    cases l with
    | sleep => exact Or.inl (hempty rfl)
    | lock | relock | unlock _ =>
        cases hnext
        refine Or.inr ⟨hself ?_, Nat.le_refl _⟩
        intro hsleep
        cases hsleep
    | _ => cases hnext

/-- A signal of `main` pays for the descriptor it has put: a sleeper is woken, or
there is none. -/
theorem Enough.signal (h : Enough c k) (hsleeps : SleepsAt Sleeps c)
    (hpend : MainPc.unsignalled (c.loc .main) = 1) {l' : Loc n .main}
    {woken : Option (Tid n)} {asleep : Tid n -> Option Cond}
    (hwake : (Wake.signal Cond.clifdCond).apply woken c.asleep = some asleep) :
    Enough { c with loc := Function.update c.loc .main l', asleep := asleep } k where
  empty := by
    intro i hi
    dsimp only at hi
    rw [Function.update_of_ne (by simp)] at hi
    exact h.empty i hi
  enough := by
    intro i hi
    dsimp only at hi ⊢
    rcases Wake.apply_signal hwake with ⟨u, hu, hasleep⟩ | ⟨hnobody, hasleep⟩
    · cases u with
      | main => exact (hsleeps _ _ hu).elim
      | worker j =>
          have hrelock : c.loc (.worker j) = ThreadPc.relock := hsleeps _ _ hu
          have hij : i ≠ j := by
            intro heq
            subst heq
            rw [hasleep, Function.update_self] at hi
            exact hi rfl
          rw [hasleep, Function.update_of_ne (by simpa using hij)] at hi
          have hk := h.enough i hi
          have hstance : (fun i => ((c.loc (.worker i) : ThreadPc), asleep (.worker i))) =
              Function.update (stance c) j (ThreadPc.relock, none) := by
            funext m
            by_cases hmj : m = j
            · subst hmj
              rw [Function.update_self, hasleep, Function.update_self, hrelock]
              rfl
            · rw [Function.update_of_ne hmj, hasleep, Function.update_of_ne (by simpa using hmj)]
              rfl
          have hupdate := countWhere_update looks (stance c) j (ThreadPc.relock, none)
          have hold : looks (stance c j) = false := by
            simp [looks, stance, hu]
          rw [stance_main, hstance]
          rw [hold] at hupdate
          simp only [looks, ThreadPc.eager, Option.isNone_none, Bool.and_self,
            Bool.toNat_false, Bool.toNat_true] at hupdate
          lia
    · rw [hasleep] at hi
      cases hk : c.asleep (.worker i) with
      | none => exact absurd hk hi
      | some cond =>
          cases cond
          exact absurd hk (hnobody (.worker i))

/-- Whoever is about to sleep has the mutex, so `main` is not at its put. -/
theorem not_sleep_of_put (howned : Owned Held c) {connfd : Fd}
    (hl : c.loc .main = MainPc.put connfd) (i : Fin n) :
    c.loc (.worker i) ≠ ThreadPc.sleep := by
  intro hsleep
  have hmain : Held .main (c.loc .main) .clifdMutex := by
    rw [hl]
    exact trivial
  have hthread : Held (.worker i) (c.loc (.worker i)) .clifdMutex := by
    rw [hsleep]
    exact trivial
  cases howned.unique hmain hthread

theorem Enough.mainAct (h : Enough c k) (howned : Owned Held c)
    (hsleeps : SleepsAt Sleeps c) {l l' : Loc n .main} {w : Wake Cond}
    {woken : Option (Tid n)} {asleep : Tid n -> Option Cond} (hl : c.loc .main = l)
    (hmove : MainMove s l s' l' w) (hwake : w.apply woken c.asleep = some asleep)
    (hlog : Logged s c k)
    (hlog' : Logged s'
      { c with loc := Function.update c.loc .main l', asleep := asleep } k') :
    Enough { c with loc := Function.update c.loc .main l', asleep := asleep } k' := by
  unfold Logged at hlog hlog'
  dsimp only at hlog'
  rw [Function.update_self] at hlog'
  rw [hl] at hlog
  have hpend := congrArg MainPc.unsignalled hl
  have hnobody : w = .nobody -> asleep = c.asleep := by
    intro heq
    subst heq
    exact Wake.apply_nobody hwake
  cases hmove with
  | made _ | allMade _ | full _ | notFull _ | exit =>
      rw [hnobody rfl]
      have hk : k' = k := by
        simp only [MainPc.hand] at hlog hlog'
        lia
      apply h.moveMain
      · intro i hi
        rw [hk]
        exact h.empty i hi
      · simp only [MainPc.unsignalled] at hpend ⊢
        lia
  | accept connfd =>
      rw [hnobody rfl]
      have hk : k' = k := by
        simp only [MainPc.hand, List.length_append, List.length_cons, List.length_nil] at hlog hlog'
        lia
      apply h.moveMain
      · intro i hi
        rw [hk]
        exact h.empty i hi
      · simp only [MainPc.unsignalled] at hpend ⊢
        lia
  | put connfd =>
      rw [hnobody rfl]
      have hk : k' = k + 1 := by
        simp only [MainPc.hand, List.length_cons, List.length_nil] at hlog hlog'
        lia
      apply h.moveMain
      · intro i hi
        exact absurd hi (not_sleep_of_put howned hl i)
      · simp only [MainPc.unsignalled] at hpend ⊢
        lia
  | signal =>
      have hk : k' = k := by
        simp only [MainPc.hand] at hlog hlog'
        lia
      rw [hk]
      exact h.signal hsleeps (by rw [hl]; rfl) hwake

theorem Enough.threadAct (h : Enough c k) {queued : List Fd} (hqueue : Queue s c queued)
    (hk : k = queued.length) (howned : Owned Held c) {i : Fin n} {l l' : Loc n (.worker i)}
    (hl : c.loc (.worker i) = l) (hawake : c.asleep (.worker i) = none)
    (hmove : ThreadMove i s l s' l')
    (hlog' : Logged s' { c with loc := Function.update c.loc (.worker i) l' } k') :
    Enough { c with loc := Function.update c.loc (.worker i) l' } k' := by
  have hlog := hqueue.logged
  unfold Logged at hlog hlog'
  dsimp only at hlog'
  rw [Function.update_of_ne (by simp)] at hlog'
  have hlooks : looks (stance c i) = ThreadPc.eager l := by
    simp [looks, stance, hawake, ← hl]
  cases hmove with
  | start _ | some _ | count _ | webChild _ | close _ =>
      have hsame : k' = k := by lia
      apply h.moveThread (fun j _ => rfl) (Nat.le_of_eq hsame)
      · intro hsleep
        cases hsleep
      · rw [hlooks, hsame]
        exact Or.inr ⟨hawake, by simp [ThreadPc.eager, looks]⟩
  | empty hmeet =>
      -- the mutex is held at `test`, so equal indices are those of an empty ring
      have hholds : Held (.worker i) (c.loc (.worker i)) .clifdMutex := by
        rw [hl]
        exact trivial
      have hmain := hqueue.main
      have hfree : ¬ MainPc.Holds (c.loc .main) .clifdMutex := by
        intro hheld
        cases howned.unique (t := .main) hheld hholds
      have hzero : queued.length = 0 := by
        refine (hqueue.ring.meet_iff.mp hmeet.symm).resolve_right ?_
        intro hfull
        generalize (c.loc .main : MainPc) = m at hmain hfree
        cases m with
        | make | accept | lock => exact Nat.lt_irrefl _ (hfull ▸ hmain)
        | _ => exact hfree trivial
      have hk' : k' = 0 := by lia
      apply h.moveThread (fun j _ => rfl) (by lia)
      · intro _
        exact hk'
      · exact Or.inl hk'
  | take =>
      have hpos : ThreadPc.Queued (c.loc (.worker i)) queued.length := hqueue.thread i
      rw [hl] at hpos
      change 0 < queued.length at hpos
      have htook : k' + 1 = k := by
        simp only [List.length_append, List.length_cons, List.length_nil] at hlog'
        lia
      apply h.moveThread (fun j _ => rfl) (by lia)
      · intro hsleep
        cases hsleep
      · rw [hlooks]
        refine Or.inr ⟨hawake, ?_⟩
        simp only [ThreadPc.eager, Bool.toNat_true]
        lia

theorem Logged.eq_of_worker {i : Fin n} {l' : Loc n (.worker i)}
    {owner : Mutex -> Option (Tid n)} {asleep : Tid n -> Option Cond} (hlog : Logged s c k)
    (hlog' : Logged s { owner := owner
                        loc := Function.update c.loc (.worker i) l'
                        asleep := asleep } k') : k' = k := by
  unfold Logged at hlog hlog'
  dsimp only at hlog'
  rw [Function.update_of_ne (by simp)] at hlog'
  lia

theorem Enough.wait (h : Enough c k) {t : Tid n} {cond : Cond} {m : Mutex} {next : Loc n t}
    (hawake : c.asleep t = none) (hinstr : serv08Code t (c.loc t) = .wait cond m next)
    (hlog : Logged s c k) {owner : Mutex -> Option (Tid n)}
    (hlog' : Logged s { owner := owner
                        loc := Function.update c.loc t next
                        asleep := Function.update c.asleep t (some cond) } k') :
    Enough { owner := owner
             loc := Function.update c.loc t next
             asleep := Function.update c.asleep t (some cond) } k' := by
  cases t with
  | main =>
      change (mainCode (c.loc .main) : Code n MainPc) = .wait cond m next at hinstr
      generalize (c.loc .main : MainPc) = l at hinstr
      cases l <;> cases hinstr
  | worker i =>
      change threadMain i (c.loc (.worker i)) = .wait cond m next at hinstr
      have hnext : (threadMain i (c.loc (.worker i))).syncNext = some next := by
        rw [hinstr]
        rfl
      rw [hlog.eq_of_worker hlog']
      apply h.syncThread hawake hnext
      · intro j hj
        exact Function.update_of_ne (by simpa using hj) _ _
      · intro hsleep
        generalize (c.loc (.worker i) : ThreadPc) = l at hinstr hsleep
        cases l with
        | sleep => exact absurd rfl hsleep
        | _ => cases hinstr

theorem Enough.spurious (h : Enough c k) (hsleeps : SleepsAt Sleeps c) {t : Tid n}
    (hasleep : c.asleep t ≠ none) :
    Enough { c with asleep := Function.update c.asleep t none } k := by
  rcases Option.ne_none_iff_exists'.mp hasleep with ⟨cond, hcond⟩
  cases t with
  | main => exact (hsleeps _ _ hcond).elim
  | worker i =>
      have hrelock : c.loc (.worker i) = ThreadPc.relock := hsleeps _ _ hcond
      have hold : looks (stance c i) = false := by
        simp [looks, stance, hcond]
      have hmoved : Enough
          { owner := c.owner
            loc := Function.update c.loc (.worker i) (c.loc (.worker i))
            asleep := Function.update c.asleep (.worker i) none } k := by
        apply h.moveThread _ (Nat.le_refl k)
        · rw [hrelock]
          intro hsleep
          cases hsleep
        · refine Or.inr ⟨Function.update_self .., ?_⟩
          rw [hold]
          exact Nat.le_add_right _ _
        · intro j hj
          exact Function.update_of_ne (by simpa using hj) _ _
      rwa [Function.update_eq_self] at hmoved

theorem Enough.fires {queued queued' : List Fd} (hqueue : Queue s c queued)
    (hqueue' : Queue s' c' queued') (howned : Owned Held c) (hsleeps : SleepsAt Sleeps c)
    {e : Event (Tid n) Fd} (hfire : Fires serv08Code s c e s' c')
    (h : Enough c queued.length) : Enough c' queued'.length := by
  have hlog' := hqueue'.logged
  cases hfire with
  | @lock t _ _ _ next hawake hinstr _ | @unlock t _ _ _ next hawake hinstr _ =>
      have hnext : (serv08Code t (c.loc t)).syncNext = some next := by
        rw [hinstr]
        rfl
      cases t with
      | main => exact h.syncMain hnext hqueue.logged hlog'
      | worker i =>
          rw [hqueue.logged.eq_of_worker hlog']
          exact h.syncThread hawake hnext (fun _ _ => rfl) (fun _ => hawake) _
  | wait hawake hinstr _ => exact h.wait hawake hinstr hqueue.logged hlog'
  | @act t _ woken _ next w asleep hawake hacts hwake =>
      cases t with
      | main =>
          exact h.mainAct howned hsleeps rfl (mainMove_of_acts hacts) hwake hqueue.logged hlog'
      | worker i =>
          rcases threadMove_of_acts hacts with ⟨hmove, rfl⟩
          rcases Wake.apply_nobody hwake with rfl
          exact h.threadAct hqueue rfl howned rfl hawake hmove hlog'
  | spurious hasleep =>
      have hk : queued'.length = queued.length := by
        have hlog := hqueue.logged
        unfold Logged at hlog hlog'
        lia
      rw [hk]
      exact h.spurious hsleeps hasleep

end Step

/-!
## Every run
-/

structure SleepInv (s : Server n) : Prop where
  queueInv : QueueInv s
  sleeps : SleepsAt Sleeps s.threads
  enough : Enough s.threads s.untaken

theorem untaken_eq {s : Server n} {queued : List Fd} (h : Queue s.mem s.threads queued) :
    s.untaken = queued.length := by
  have hlog : s.mem.accepted.length = s.mem.taken.length + queued.length + s.main.hand.length :=
    h.logged
  unfold Server.untaken
  lia

theorem sleepInv_initial : SleepInv (Server.initial : Server n) where
  queueInv := queueInv_initial
  sleeps := by
    intro t k ht
    cases ht
  enough := by
    constructor
    · intro i hi
      cases hi
    · intro i hi
      exact absurd rfl hi

theorem sleepInv_step {s s' : Server n} {e : Event (Tid n) Fd}
    (h : SleepInv s) (hstep : step s e = some s') : SleepInv s' := by
  have hfire := fires_of_step hstep
  have hinv' := queueInv_step h.queueInv hstep
  rcases h.queueInv.queue with ⟨queued, hqueue⟩
  rcases hinv'.queue with ⟨queued', hqueue'⟩
  refine ⟨hinv', h.sleeps.fires serv08Code_sleeps hfire, ?_⟩
  have henough := h.enough
  rw [untaken_eq hqueue] at henough
  rw [untaken_eq hqueue']
  exact henough.fires hqueue hqueue' h.queueInv.owned h.sleeps hfire

/-- While a thread sleeps, each queued descriptor has a thread that has been woken
or is about to examine the queue, but for the one that `main` has put and not yet
signalled. -/
theorem serv08_sleepers_not_needed {s : Server n} (hreach : (serv08 n).Reachable s)
    {i : Fin n} (hsleep : s.Sleeping i) :
    s.untaken ≤ s.looking + s.main.unsignalled := by
  have hinv : SleepInv s := by
    apply System.ReachableUnder.invariant _ _ hreach
    · intro s hs
      rw [hs]
      exact sleepInv_initial
    · intro s s' e hs _ hstep
      exact sleepInv_step hs hstep
  apply hinv.enough.enough i
  rw [hsleep]
  exact Option.some_ne_none _

/-- Thread `i` goes to sleep; `main` accepts a connection and puts it. -/
def sleepThenPut (i : Fin n) : List (Event (Tid n) Fd) :=
  [.run .main 0 none, .run .main 0 none, .run (.worker i) 0 none, .run (.worker i) 0 none,
    .run (.worker i) 0 none, .run (.worker i) 0 none, .run .main 7 none,
    .run .main 0 none, .run .main 0 none]

theorem serv08_sleepers_not_needed_one :
    exists s : Server 1, (serv08 1).Reachable s ∧ s.Sleeping 0 ∧
      s.untaken ≤ s.looking + s.main.unsignalled := by
  have hrun : exists s, (serv08 1).Reachable s ∧ s.Sleeping 0 :=
    System.reachable_of_exec (s := Server.initial) (sleepThenPut 0) rfl (by decide)
  rcases hrun with ⟨s, hreach, hsleep⟩
  exact ⟨s, hreach, hsleep, serv08_sleepers_not_needed hreach hsleep⟩

/-- After the put and before the signal the only thread sleeps. -/
theorem serv08_put_before_signal :
    exists s : Server 1, (serv08 1).Reachable s ∧ s.Sleeping 0 ∧
      ¬ s.untaken ≤ s.looking := by
  have hrun : exists s, (serv08 1).Reachable s ∧
      (s.Sleeping 0 ∧ s.untaken = 1 ∧ s.looking = 0) :=
    System.reachable_of_exec (s := Server.initial) (sleepThenPut 0) rfl (by decide)
  rcases hrun with ⟨s, hreach, hsleep, huntaken, hlooking⟩
  refine ⟨s, hreach, hsleep, ?_⟩
  rw [huntaken, hlooking]
  decide

end Serv08
end PracticeHand
