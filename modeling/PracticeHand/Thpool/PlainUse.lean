import PracticeHand.Thpool.Drain
import PracticeHand.Thpool.Frozen

/-!
# A pool in plain use

Many programs only add jobs and wait for them: nobody calls `thpool_pause` or
`thpool_destroy`, and the job functions do not use the pool themselves.  Then no
worker is ever held, the owner comes to rest when `thpool_init` has returned, and all
steps of the pool after that lessen what is left to do.
-/

namespace PracticeHand
namespace Thpool

open Concurrency

variable {n m : Nat} {fn arg : Type}

def Choice.plain : Choice fn arg -> Bool
  | .addWork _ _ _ => true
  | .wait => true
  | _ => false

def Choice.returns : Choice fn arg -> Bool
  | .ret => true
  | _ => false

def PlainChoice : (t : Tid n m) -> Loc n m fn arg t -> Choice fn arg -> Prop
  | .worker _, .running _ _ _ .user, c => c.returns = true
  | .worker _, _, _ => True
  | .client _, .user, c => c.plain = true
  | .client _, _, _ => True
  | .owner, l, _ => l ≠ .ready

def Plain (s : Process n m fn arg) : Action n m fn arg -> Prop
  | .thread (.run t c _) => PlainChoice t (s.pool.threads.loc t) c
  | _ => True

def Calm : (t : Tid n m) -> Loc n m fn arg t -> Prop
  | .worker _, .running _ _ _ f => f = .user
  | .worker _, _ => True
  | .client _, .pause _ => False
  | .client _, _ => True
  | .owner, l => l.initReturned = true -> l = .ready

structure PlainInv (s : Process n m fn arg) : Prop where
  calm : forall t, Calm t (s.pool.threads.loc t)
  free : forall i, s.pool.hold i = none
  silent : forall i, s.pool.mem.sigusr1 i = false

theorem plainInv_initial : PlainInv (Process.initial : Process n m fn arg) where
  calm t := by
    cases t with
    | worker i => exact trivial
    | client j => exact trivial
    | owner =>
        intro h
        cases h
  free _ := rfl
  silent _ := rfl

/-!
## Steps
-/

inductive Turns (s s' : Process n m fn arg) : Action n m fn arg -> Prop where
  | sync {t : Tid n m} {c : Choice fn arg} {woken : Option (Tid n m)}
      {next : Loc n m fn arg t} :
      (thpoolCode t (s.pool.threads.loc t)).syncNext = some next ->
      s'.pool.threads.loc = Function.update s.pool.threads.loc t next ->
      s'.shared = s.shared -> Turns s s' (.thread (.run t c woken))
  | acts {t : Tid n m} {c : Choice fn arg} {woken : Option (Tid n m)}
      {next : Loc n m fn arg t} {w : Wake Cond} :
      (thpoolCode t (s.pool.threads.loc t)).Acts s.shared c s'.shared next w ->
      s'.pool.threads.loc = Function.update s.pool.threads.loc t next ->
      Turns s s' (.thread (.run t c woken))
  | still {t : Tid n m} :
      s'.pool.threads.loc = s.pool.threads.loc -> s'.shared = s.shared ->
      Turns s s' (.thread (.spurious t))

theorem PlainInv.turns {s s' : Process n m fn arg} {a : Action n m fn arg} (h : PlainInv s)
    (hstep : step s a = some s') : Turns s s' a ∧ s'.pool.hold = s.pool.hold := by
  cases moves_of_step hstep with
  | @deliver i hraised =>
      rw [h.silent i] at hraised
      cases hraised
  | @hold i _ hhold =>
      rw [h.free i] at hhold
      cases hhold
  | thread _ hfire =>
      refine ⟨?_, rfl⟩
      cases hfire with
      | lock _ hinstr _ | unlock _ hinstr _ | wait _ hinstr _ =>
          exact .sync (by rw [hinstr]; rfl) rfl rfl
      | act _ hacts _ => exact .acts hacts rfl
      | spurious => exact .still rfl rfl

theorem calm_of_sync {t : Tid n m} {l next : Loc n m fn arg t} (hl : Calm t l)
    (h : (thpoolCode t l).syncNext = some next) : Calm t next := by
  cases t with
  | owner =>
      cases l with
      | postFirst | postRest | clearPull =>
          have hready := hl rfl
          cases hready
      | _ => cases h
  | client j =>
      change (userCode none l : Code n fn arg Frame).syncNext = some next at h
      cases l with
      | user | pause => cases h
      | push newjob p =>
          cases p with
          | lock | link | unlock => cases h <;> exact trivial
          | post q => cases q <;> cases h <;> exact trivial
      | wait p => cases p <;> cases h <;> exact trivial
  | worker i =>
      change (threadDo i l).syncNext = some next at h
      cases l with
      | bsem p => cases p <;> cases h <;> exact trivial
      | pull p =>
          cases p with
          | lock | take | unlock => cases h <;> exact trivial
          | post job q => cases q <;> cases h <;> exact trivial
      | got job => cases job <;> cases h
      | running job function arg' f =>
          rw [show f = .user from hl] at h
          cases h
      | _ => cases h <;> exact trivial

theorem UserMove.sigusr1 {caller : Option Ptr} {s s' : Shared n fn arg} {f f' : Frame}
    {w : Wake Cond} (h : UserMove caller s f s' f' w) (hf : forall k, f ≠ .pause k) :
    s'.2.sigusr1 = s.2.sigusr1 := by
  cases h with
  | link hlink =>
      rcases linkJob_cases hlink with ⟨_, _, _, _, _, rfl⟩
      rfl
  | @kill k _ => exact (hf k rfl).elim
  | _ => rfl

theorem takeJob_sigusr1 {puller : Option (Fin n)} {s s' : Shared n fn arg} {p : PullPc}
    (h : takeJob puller s = some (s', p)) : s'.2.sigusr1 = s.2.sigusr1 := by
  rcases takeJob_cases h with ⟨_, _, _, _, rfl⟩ | ⟨_, _, _, _, _, rfl⟩
  · rfl
  · rfl

theorem freeJob_sigusr1 {s s' : Shared n fn arg} {job : Option Ptr}
    (h : freeJob s job = some s') : s'.2.sigusr1 = s.2.sigusr1 := by
  rcases freeJob_cases h with ⟨_, rfl⟩ | ⟨_, _, _, rfl⟩
  · rfl
  · rfl

theorem WorkerMove.sigusr1 {i : Fin n} {s s' : Shared n fn arg} {l l' : WorkerPc fn arg}
    {w : Wake Cond} (h : WorkerMove i s l s' l' w)
    (hl : forall job function arg' f, l = .running job function arg' f -> f = .user) :
    s'.2.sigusr1 = s.2.sigusr1 := by
  cases h with
  | take htake => exact takeJob_sigusr1 htake
  | free hfree => exact freeJob_sigusr1 hfree
  | user hmove =>
      refine hmove.sigusr1 ?_
      rw [hl _ _ _ _ rfl]
      intro k hk
      cases hk
  | _ => rfl

inductive PlainCall (s : Shared n fn arg) : Choice fn arg -> Shared n fn arg -> Frame -> Prop where
  | refused {function : fn} {arg' : arg} : PlainCall s (.addWork function arg' none) s .user
  | alloc {function : fn} {arg' : arg} {p : Ptr} : s.2.heap p = none ->
      PlainCall s (.addWork function arg' (some p))
        (allocJob p function arg' (noteAddWork p function arg' s)) (.push p .lock)
  | wait : PlainCall s .wait s (.wait .lock)

theorem PlainCall.finished {s s' : Shared n fn arg} {c : Choice fn arg} {f : Frame}
    (h : PlainCall s c s' f) : s'.2.history.finished = s.2.history.finished := by
  cases h <;> rfl

theorem plainCall_of_acts {caller : Option Ptr} {s s' : Shared n fn arg} {c : Choice fn arg}
    {f' : Frame} {w : Wake Cond} (h : (userCode caller .user).Acts s c s' f' w)
    (hc : c.plain = true) : PlainCall s c s' f' ∧ w = .nobody := by
  rw [userCode, Instr.acts_act] at h
  rcases Option.map_eq_some_iff.mp h with ⟨⟨s1, f1⟩, hcall, heq⟩
  cases heq
  refine ⟨?_, rfl⟩
  cases c with
  | addWork function arg' addr =>
      cases addr with
      | none =>
          cases hcall
          exact PlainCall.refused
      | some p =>
          simp only [apiCall, thpoolAddWork] at hcall
          split at hcall
          · rename_i hfree
            cases hcall
            exact PlainCall.alloc hfree
          · cases hcall
  | wait =>
      cases hcall
      exact PlainCall.wait
  | _ => cases hc

theorem calm_of_user {caller : Option Ptr} {s s' : Shared n fn arg} {c : Choice fn arg}
    {f f' : Frame} {w : Wake Cond} (h : (userCode caller f).Acts s c s' f' w)
    (hf : forall k, f ≠ .pause k) (hc : f = .user -> c.plain = true) :
    forall k, f' ≠ .pause k := by
  intro k hk
  subst hk
  by_cases huser : f = .user
  · subst huser
    cases (plainCall_of_acts h (hc rfl)).1
  · cases userMove_of_acts h with
    | pauseCall => exact huser rfl
    | kill _ => exact hf _ rfl

theorem calm_of_acts {t : Tid n m} {s s' : Shared n fn arg} {c : Choice fn arg}
    {l next : Loc n m fn arg t} {w : Wake Cond}
    (h : (thpoolCode t l).Acts s c s' next w) (hl : Calm t l) (hc : PlainChoice t l c) :
    Calm t next ∧ s'.2.sigusr1 = s.2.sigusr1 := by
  cases t with
  | owner =>
      cases ownerMove_of_acts h with
      | destroy => exact (hc rfl).elim
      | initHold | initKeepalive | initAlloc | create | allCreated | spin =>
          exact ⟨(fun hreturned => by cases hreturned), rfl⟩
      | allAlive => exact ⟨fun _ => rfl, rfl⟩
      | _ =>
          have hready := hl rfl
          cases hready
  | client j =>
      have hf : forall k, l ≠ .pause k := by
        intro k hk
        subst hk
        exact hl
      have hnext := calm_of_user h hf (fun huser => by subst huser; exact hc)
      refine ⟨?_, (userMove_of_acts h).sigusr1 hf⟩
      change Frame at next
      cases next with
      | pause k => exact (hnext k rfl).elim
      | _ => exact trivial
  | worker i =>
      have hmove := workerMove_of_acts h
      have hframe : forall job function arg' f, l = .running job function arg' f -> f = .user := by
        intro job function arg' f heq
        subst heq
        exact hl
      refine ⟨?_, hmove.sigusr1 hframe⟩
      cases hmove with
      | @user _ job function arg' f f' _ hmove =>
          obtain rfl := hframe _ _ _ _ rfl
          cases c with
          | ret => cases h
          | _ => cases hc
      | call => exact rfl
      | _ => exact trivial

theorem plainInv_step {s s' : Process n m fn arg} {a : Action n m fn arg} (h : PlainInv s)
    (hok : Plain s a) (hstep : step s a = some s') : PlainInv s' := by
  rcases h.turns hstep with ⟨hturn, hhold⟩
  have hfree : forall i, s'.pool.hold i = none := by
    rw [hhold]
    exact h.free
  cases hturn with
  | still hloc hshared =>
      refine ⟨by rw [hloc]; exact h.calm, hfree, ?_⟩
      change forall i, s'.shared.2.sigusr1 i = false
      rw [hshared]
      exact h.silent
  | @sync t _ _ next hnext hloc hshared =>
      refine ⟨?_, hfree, ?_⟩
      · intro u
        rw [hloc]
        by_cases hu : u = t
        · subst hu
          rw [Function.update_self]
          exact calm_of_sync (h.calm u) hnext
        · rw [Function.update_of_ne hu]
          exact h.calm u
      · change forall i, s'.shared.2.sigusr1 i = false
        rw [hshared]
        exact h.silent
  | @acts t c _ next w hacts hloc =>
      rcases calm_of_acts hacts (h.calm t) hok with ⟨hcalm, hsignals⟩
      refine ⟨?_, hfree, ?_⟩
      · intro u
        rw [hloc]
        by_cases hu : u = t
        · subst hu
          rw [Function.update_self]
          exact hcalm
        · rw [Function.update_of_ne hu]
          exact h.calm u
      · change forall i, s'.shared.2.sigusr1 i = false
        rw [hsignals]
        exact h.silent

theorem PlainInv.patient {s : Process n m fn arg} (h : PlainInv s) (i : Fin n) :
    s.pool.waiting (.worker i) = none := by
  have hcalm := h.calm (.worker i)
  unfold Pool.waiting
  generalize s.pool.threads.loc (.worker i) = l at hcalm
  cases l with
  | running job function arg' f =>
      rw [show f = .user from hcalm]
      rfl
  | _ => rfl

theorem PlainInv.used {s : Process n m fn arg} (h : PlainInv s) :
    s.pool.owner.phase.released = false := by
  have hcalm := h.calm .owner
  change s.pool.owner.initReturned = true -> s.pool.owner = .ready at hcalm
  generalize s.pool.owner = l at hcalm
  cases l with
  | initHold | initKeepalive | initAlloc | initThread | initWait | ready => rfl
  | _ =>
      have hready := hcalm rfl
      cases hready

theorem PlainInv.ready {s : Process n m fn arg} (h : PlainInv s)
    (hreturned : s.pool.owner.initReturned = true) : s.pool.owner = .ready :=
  h.calm .owner hreturned

theorem PlainInv.winding {s : Process n m fn arg} (h : PlainInv s)
    (hreach : (thpool n m fn arg).Reachable s) (hready : s.pool.owner = .ready) : Winding s :=
  Winding.of_ready hreach hready h.free h.patient

/-!
## What a step does to the jobs
-/

def WorkerPc.inJob : WorkerPc fn arg -> Bool
  | .running _ _ _ .user => true
  | _ => false

theorem WorkerPc.inJob_cases {l : WorkerPc fn arg} (h : l.inJob = true) :
    exists job function arg', l = .running job function arg' .user := by
  cases l with
  | running job function arg' f =>
      cases f with
      | user => exact ⟨job, function, arg', rfl⟩
      | _ => cases h
  | _ => cases h

def Frame.filing (f : Frame) : Nat := f.standing.newjob.isSome.toNat

/-- The main thread of a program in which nobody else uses the pool. -/
abbrev soleClient : Fin 1 := 0

def Process.filed (s : Process n 1 fn arg) : Nat :=
  s.pool.mem.history.accepted.length + (s.pool.client 0).filing

theorem UserMove.filing {caller : Option Ptr} {s s' : Shared n fn arg} {f f' : Frame}
    {w : Wake Cond} (h : UserMove caller s f s' f' w) (hf : f ≠ .user) :
    s'.2.history.accepted.length + f'.filing = s.2.history.accepted.length + f.filing := by
  cases h with
  | refused | alloc | waitCall | pauseCall | resume => exact (hf rfl).elim
  | link hlink =>
      rcases linkJob_cases hlink with ⟨_, _, _, _, _, rfl⟩
      simp [onPool, Frame.filing, Frame.standing, PushPc.linked]
  | _ => rfl

theorem UserMove.waitPc_none {caller : Option Ptr} {s s' : Shared n fn arg} {f f' : Frame}
    {w : Wake Cond} (h : UserMove caller s f s' f' w) (hf : f ≠ .user)
    (hp : f.waitPc = none) : f'.waitPc = none := by
  cases h with
  | waitCall => exact (hf rfl).elim
  | lenPos | lenZero | workPos | workZero => cases hp
  | _ => rfl

theorem userCode_syncNext_waitPc {caller : Option Ptr} {f f' : Frame}
    (h : (userCode caller f : Code n fn arg Frame).syncNext = some f')
    (hp : f.waitPc = none) : f'.waitPc = none := by
  cases f with
  | user | pause => cases h
  | wait p => cases hp
  | push newjob p =>
      cases p with
      | lock | link | unlock => cases h <;> rfl
      | post q => cases q <;> cases h <;> rfl

theorem WorkerMove.jobs {i : Fin n} {s s' : Shared n fn arg} {l l' : WorkerPc fn arg}
    {w : Wake Cond} (h : WorkerMove i s l s' l' w) (hcalm : Calm (.worker i : Tid n m) l)
    (hl : l.inJob = false) :
    s'.2.history.finished = s.2.history.finished ∧
      s'.2.history.accepted = s.2.history.accepted := by
  cases h with
  | ret => cases hl
  | @user _ job function arg' f f' _ _ =>
      rw [show f = .user from hcalm] at hl
      cases hl
  | take htake =>
      rcases takeJob_cases htake with ⟨_, _, _, _, rfl⟩ | ⟨_, _, _, _, _, rfl⟩
      · exact ⟨rfl, rfl⟩
      · exact ⟨rfl, rfl⟩
  | free hfree =>
      rcases freeJob_cases hfree with ⟨_, rfl⟩ | ⟨_, _, _, rfl⟩
      · exact ⟨rfl, rfl⟩
      · exact ⟨rfl, rfl⟩
  | _ => exact ⟨rfl, rfl⟩

theorem OwnerMove.finished {s s' : Shared n fn arg} {l l' : OwnerPc} {w : Wake Cond}
    (h : OwnerMove s l s' l' w) : s'.2.history.finished = s.2.history.finished := by
  cases h with
  | clearTake htake =>
      rcases takeJob_cases htake with ⟨_, _, _, _, rfl⟩ | ⟨_, _, _, _, _, rfl⟩
      · rfl
      · rfl
  | clearFree hfree =>
      rcases freeJob_cases hfree with ⟨_, rfl⟩ | ⟨_, _, _, rfl⟩
      · rfl
      · rfl
  | _ => rfl

structure Keeps (s s' : Process n 1 fn arg) : Prop where
  finished : s'.pool.mem.history.finished = s.pool.mem.history.finished
  inJob : forall i, (s.pool.worker i).inJob = true -> s'.pool.worker i = s.pool.worker i
  filed : s'.filed = s.filed
  outside : s.pool.waiting (.client 0) = none -> s'.pool.waiting (.client 0) = none

theorem Keeps.of_same {s s' : Process n 1 fn arg}
    (hloc : s'.pool.threads.loc = s.pool.threads.loc) (hshared : s'.shared = s.shared) :
    Keeps s s' where
  finished := congrArg (fun sh => sh.2.history.finished) hshared
  inJob i _ := congrFun hloc (.worker i)
  filed := by
    change s'.shared.2.history.accepted.length + Frame.filing (s'.pool.threads.loc (.client 0)) =
      s.shared.2.history.accepted.length + Frame.filing (s.pool.threads.loc (.client 0))
    rw [hloc, hshared]
  outside h := by
    unfold Pool.waiting at h ⊢
    rw [hloc]
    exact h

theorem Keeps.of_client {s s' : Process n 1 fn arg}
    (hclient : s'.pool.client 0 = s.pool.client 0)
    (haccepted : s'.pool.mem.history.accepted = s.pool.mem.history.accepted)
    (hfinished : s'.pool.mem.history.finished = s.pool.mem.history.finished)
    (hin : forall i, (s.pool.worker i).inJob = true -> s'.pool.worker i = s.pool.worker i) :
    Keeps s s' where
  finished := hfinished
  inJob := hin
  filed := by
    unfold Process.filed
    rw [hclient, haccepted]
  outside h := by
    change (s'.pool.client 0).waitPc = none
    rw [hclient]
    exact h

theorem Keeps.of_update {s s' : Process n 1 fn arg} {t : Tid n 1} {next : Loc n 1 fn arg t}
    (hloc : s'.pool.threads.loc = Function.update s.pool.threads.loc t next)
    (hclient : t ≠ .client 0)
    (hworker : forall i, t = .worker i -> (s.pool.worker i).inJob = false)
    (haccepted : s'.pool.mem.history.accepted = s.pool.mem.history.accepted)
    (hfinished : s'.pool.mem.history.finished = s.pool.mem.history.finished) : Keeps s s' := by
  refine Keeps.of_client ?_ haccepted hfinished ?_
  · change s'.pool.threads.loc (.client 0) = s.pool.threads.loc (.client 0)
    rw [hloc, Function.update_of_ne (Ne.symm hclient)]
  · intro i hi
    change s'.pool.threads.loc (.worker i) = s.pool.threads.loc (.worker i)
    rw [hloc, Function.update_of_ne]
    intro heq
    rw [hworker i heq.symm] at hi
    cases hi

theorem Keeps.of_frame {s s' : Process n 1 fn arg} {f : Frame}
    (hloc : s'.pool.threads.loc = Function.update s.pool.threads.loc (.client 0) f)
    (hfinished : s'.pool.mem.history.finished = s.pool.mem.history.finished)
    (hfiled : s'.pool.mem.history.accepted.length + f.filing = s.filed)
    (hwait : (s.pool.client 0).waitPc = none -> f.waitPc = none) : Keeps s s' := by
  have hclient : s'.pool.client 0 = f := by
    change s'.pool.threads.loc (.client 0) = f
    rw [hloc, Function.update_self]
  refine ⟨hfinished, ?_, ?_, ?_⟩
  · intro i _
    change s'.pool.threads.loc (.worker i) = s.pool.threads.loc (.worker i)
    rw [hloc, Function.update_of_ne (by simp)]
  · unfold Process.filed
    rw [hclient]
    exact hfiled
  · intro hnone
    change (s'.pool.client 0).waitPc = none
    rw [hclient]
    exact hwait hnone

theorem PlainInv.keeps {s s' : Process n 1 fn arg} {a : Action n 1 fn arg} (h : PlainInv s)
    (hstep : step s a = some s')
    (hcall : forall j c woken, a = .thread (.run (.client j) c woken) ->
      s.pool.client j ≠ .user)
    (hret : forall i c woken, a = .thread (.run (.worker i) c woken) ->
      (s.pool.worker i).inJob = false) : Keeps s s' := by
  cases (h.turns hstep).1 with
  | still hloc hshared => exact Keeps.of_same hloc hshared
  | @sync t c woken next hnext hloc hshared =>
      have haccepted : s'.pool.mem.history.accepted = s.pool.mem.history.accepted :=
        congrArg (fun sh => sh.2.history.accepted) hshared
      have hfinished : s'.pool.mem.history.finished = s.pool.mem.history.finished :=
        congrArg (fun sh => sh.2.history.finished) hshared
      cases t with
      | client j =>
          obtain rfl := Fin.fin_one_eq_zero j
          refine Keeps.of_frame hloc hfinished ?_ (userCode_syncNext_waitPc hnext)
          unfold Process.filed Frame.filing
          rw [haccepted]
          exact congrArg (fun st => s.pool.mem.history.accepted.length + st.newjob.isSome.toNat)
            (thpoolCode_syncNext hnext)
      | worker i =>
          refine Keeps.of_update hloc (by simp) ?_ haccepted hfinished
          intro k hk
          cases hk
          exact hret i c woken rfl
      | owner => exact Keeps.of_update hloc (by simp) nofun haccepted hfinished
  | @acts t c woken next w hacts hloc =>
      cases t with
      | client j =>
          obtain rfl := Fin.fin_one_eq_zero j
          have hmove := userMove_of_acts hacts
          have huser := hcall 0 c woken rfl
          exact Keeps.of_frame hloc hmove.sameWork.1.finished (hmove.filing huser)
            (hmove.waitPc_none huser)
      | worker i =>
          rcases (workerMove_of_acts hacts).jobs (h.calm (.worker i)) (hret i c woken rfl) with
            ⟨hfinished, haccepted⟩
          refine Keeps.of_update hloc (by simp) ?_ haccepted hfinished
          intro k hk
          cases hk
          exact hret i c woken rfl
      | owner =>
          have hmove := ownerMove_of_acts hacts
          exact Keeps.of_update hloc (by simp) nofun hmove.accepted hmove.finished

theorem call_of_step {s s' : Process n 1 fn arg} {j : Fin 1} {c : Choice fn arg}
    {woken : Option (Tid n 1)} (huser : s.pool.client j = .user) (hc : c.plain = true)
    (hstep : step s (.thread (.run (.client j) c woken)) = some s') :
    PlainCall s.shared c s'.shared (s'.pool.client 0) ∧ s'.pool.worker = s.pool.worker := by
  obtain rfl := Fin.fin_one_eq_zero j
  have hloc : s.pool.threads.loc (.client 0) = Frame.user := huser
  rcases acts_of_step hstep (by rw [hloc]; rfl) with ⟨sh, next, w, asleep, hacts, _, rfl⟩
  rw [hloc] at hacts
  change (userCode none .user).Acts s.shared c sh next w at hacts
  refine ⟨?_, ?_⟩
  · change PlainCall s.shared c sh (Function.update s.pool.threads.loc (.client 0) next (.client 0))
    rw [Function.update_self]
    exact (plainCall_of_acts hacts hc).1
  · funext i
    have hne : (Tid.worker i : Tid n 1) ≠ .client 0 := by simp
    change Function.update s.pool.threads.loc (.client 0) next (.worker i) = _
    rw [Function.update_of_ne hne]
    rfl

theorem return_of_step {s s' : Process n 1 fn arg} {i : Fin n} {woken : Option (Tid n 1)}
    (hin : (s.pool.worker i).inJob = true)
    (hstep : step s (.thread (.run (.worker i) .ret woken)) = some s') :
    exists job, s'.pool.worker = Function.update s.pool.worker i (.free job) ∧
      s'.pool.mem.history.finished =
        s.pool.mem.history.finished ++ [s.pool.mem.history.ticketOf job] ∧
      s'.filed = s.filed ∧ s'.pool.waiting (.client 0) = s.pool.waiting (.client 0) := by
  rcases WorkerPc.inJob_cases hin with ⟨job, function, arg', hl⟩
  have hloc : s.pool.threads.loc (.worker i) = WorkerPc.running job function arg' .user := hl
  rcases acts_of_step hstep (by rw [hloc]; rfl) with ⟨sh, next, w, asleep, hacts, _, rfl⟩
  rw [hloc] at hacts
  cases hacts
  have hclient : (s.after (returnJob job s.shared) { s.pool.threads with
      loc := Function.update s.pool.threads.loc (.worker i) (.free job)
      asleep := asleep }).pool.client 0 = s.pool.client 0 := by
    have hne : (Tid.client 0 : Tid n 1) ≠ .worker i := by simp
    change Function.update s.pool.threads.loc (.worker i) (.free job) (.client 0) = _
    rw [Function.update_of_ne hne]
    rfl
  refine ⟨job, worker_after s _, rfl, ?_, congrArg Frame.waitPc hclient⟩
  unfold Process.filed
  rw [hclient]
  rfl

/-!
## Finished jobs
-/

theorem finished_nodup {s : Process n m fn arg} (hb : s.Booked) :
    s.pool.mem.history.finished.Nodup ∧
      forall k, k ∈ s.pool.mem.history.finished ->
        k < s.pool.mem.history.accepted.length := by
  rcases hb with ⟨l, b⟩
  have htally : forall k, k ∈ s.pool.mem.history.finished ->
      (exists x, x ∈ s.pool.mem.history.handed ∧ x.ticket = k) ∧
        s.pool.mem.history.finished.count k ≤ 1 := by
    intro k hk
    by_cases hhanded : k ∈ s.pool.mem.history.handed.map Handed.ticket
    · rcases List.mem_map.mp hhanded with ⟨x, hx, rfl⟩
      refine ⟨⟨x, hx, rfl⟩, ?_⟩
      change (s.pool.mem.history.tally x.ticket).finished ≤ 1
      rcases b.settled x hx with ⟨p, st, hp, hticket⟩ | hdone
      · rcases b.carried _ p st hp with ⟨_, _, _, hstage⟩
        rw [← hticket, hstage]
        cases st <;> simp [Stage.tally]
      · rw [hdone]
        cases x.puller <;> simp [doneTally]
    · have hzero : s.pool.mem.history.finished.count k = 0 :=
        congrArg Tally.finished (b.untouched k hhanded)
      exact (List.count_eq_zero.mp hzero hk).elim
  constructor
  · rw [List.nodup_iff_count_le_one]
    intro k
    by_cases hk : k ∈ s.pool.mem.history.finished
    · exact (htally k hk).2
    · rw [List.count_eq_zero.mpr hk]
      exact Nat.zero_le 1
  · intro k hk
    rcases (htally k hk).1 with ⟨x, hx, rfl⟩
    exact b.ticket_lt (Or.inl (List.mem_map.mpr ⟨x, hx, rfl⟩))

/-- Once all accepted jobs have finished, there are as many finished jobs as accepted ones,
and no worker is in a job function. -/
theorem all_finished {s : Process n m fn arg} (hb : s.Booked)
    (h : forall k, k < s.pool.mem.history.accepted.length -> k ∈ s.pool.mem.history.finished) :
    s.pool.mem.history.finished.length = s.pool.mem.history.accepted.length ∧
      forall i, (s.pool.worker i).inJob = false := by
  rcases finished_nodup hb with ⟨hnodup, hlt⟩
  constructor
  · have hperm : s.pool.mem.history.finished.Perm
        (List.range s.pool.mem.history.accepted.length) :=
      (List.perm_ext_iff_of_nodup hnodup List.nodup_range).mpr
        (fun k => ⟨fun hk => List.mem_range.mpr (hlt k hk), fun hk => h k (List.mem_range.mp hk)⟩)
    rw [hperm.length_eq, List.length_range]
  · intro i
    by_contra hin
    rcases WorkerPc.inJob_cases (Bool.eq_true_of_not_eq_false hin) with ⟨job, _, _, hl⟩
    have hjob : (s.pool.standing (.worker i)).job = some (job, .called) := by
      change (s.pool.worker i).standing.job = some (job, .called)
      rw [hl]
      rfl
    have hnot := unfinished_of_called hb hjob
    rcases hb with ⟨l, b⟩
    exact hnot (h _ (b.ticket_lt (Or.inl (b.handed_of_job hjob))))

/-!
## One client

With one client, and workers that do not wait, there is one sleeper at most.
-/

theorem PlainInv.lone {s : Process n 1 fn arg} (h : PlainInv s)
    (hreach : (thpool n 1 fn arg).Reachable s) (a : Action n 1 fn arg) : LoneSleeper s a :=
  lone_of_patient hreach h.patient a

/-- The states of a pool with one client in plain use. -/
structure PlainReach (s : Process n 1 fn arg) : Prop where
  reach : (thpool n 1 fn arg).ReachableUnder LoneSleeper s
  inv : PlainInv s

theorem plainReach_initial : PlainReach (Process.initial : Process n 1 fn arg) where
  reach := ⟨_, [], rfl, System.RunUnder.nil _⟩
  inv := plainInv_initial

theorem PlainReach.step {s s' : Process n 1 fn arg} {a : Action n 1 fn arg} (h : PlainReach s)
    (hok : Plain s a) (hstep : Thpool.step s a = some s') : PlainReach s' where
  reach := h.reach.next (h.inv.lone h.reach.reachable a) hstep
  inv := plainInv_step h.inv hok hstep

theorem PlainReach.winding {s : Process n 1 fn arg} (h : PlainReach s)
    (hready : s.pool.owner = .ready) : Winding s :=
  h.inv.winding h.reach.reachable hready

/-- Where no thread can go on, all jobs are done and the client is outside the pool. -/
theorem PlainReach.finished {s : Process n 1 fn arg} (hn : 0 < n) (h : PlainReach s)
    (hready : s.pool.owner = .ready) (hstuck : Stuck s) (j : Fin 1) :
    s.pool.client j = .user := by
  have hdrained := (h.winding hready).drained hn hready hstuck
  rcases hdrained.clients j with huser | hasleep
  · exact huser
  · rcases reachableUnder_dozeInv h.reach with ⟨_, _, _, hdoze⟩
    rcases hdoze h.inv.used (.client j) (Or.inr hasleep) with hbusy | hbusy
    · exact (hbusy hdrained.empty).elim
    · exact (hbusy hdrained.idle).elim

/-!
## The price of a call
-/

theorem effort_call {s s' : Process n m fn arg} {j : Fin m} {c : Choice fn arg}
    {woken : Option (Tid n m)} (huser : s.pool.client j = .user) (hc : c.plain = true)
    (hstep : step s (.thread (.run (.client j) c woken)) = some s') :
    s'.effort ≤ s.effort + 57 := by
  have hloc : s.pool.threads.loc (.client j) = Frame.user := huser
  rcases acts_of_step hstep (by rw [hloc]; rfl) with ⟨sh, next, w, asleep, hacts, hwake, rfl⟩
  rw [hloc] at hacts
  change (userCode none .user).Acts s.shared c sh next w at hacts
  rcases plainCall_of_acts hacts hc with ⟨hcall, rfl⟩
  obtain rfl := Wake.apply_nobody hwake
  have hmove := @Threads.effort_update _ _ _ _ _ _ effort s.pool.threads s.pool.threads.owner
    (.client j) next (s.pool.threads.asleep (.client j))
  rw [Function.update_eq_self, hloc] at hmove
  have hstored : stored sh = stored s.shared := by
    cases hcall <;> rfl
  have hnext : effort (.client j : Tid n m) next (s.pool.threads.asleep (.client j)) ≤ 57 := by
    cases hcall with
    | refused => exact Nat.zero_le _
    | alloc _ => exact Nat.le_refl 57
    | wait => exact (by decide : 4 ≤ 57)
  change stored sh + Threads.effort effort
      { owner := s.pool.threads.owner
        loc := Function.update s.pool.threads.loc (.client j) next
        asleep := s.pool.threads.asleep } ≤
    stored s.shared + s.pool.threads.effort effort + 57
  lia

end Thpool
end PracticeHand
