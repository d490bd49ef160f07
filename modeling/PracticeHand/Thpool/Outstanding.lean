import PracticeHand.Thpool.Destroy
import PracticeHand.Thpool.Idle

/-!
# Outstanding jobs and the tokens for them

A job is outstanding from the `jobqueue_push` section that links it until the
worker that pulled it is counted out again.  A worker goes for a job when it has
taken the token of `has_jobs`.  This module defines how both are counted and
says what a memory step of a thread does to the counts.
-/

namespace PracticeHand
namespace Thpool

open Concurrency

variable {n m : Nat} {fn arg : Type}

/-!
## The ledger
-/

/-- Which workers have pulled a job and not been counted out since, and how many
jobs have left a worker that way. -/
structure Ledger (n : Nat) where
  carrying : Fin n -> Bool := fun _ => false
  retired : Nat := 0

def Ledger.turn (g : Ledger n) (i : Fin n) (l l' : WorkerPc fn arg) : Ledger n :=
  match l with
  | .pull .take =>
      { g with carrying := Function.update g.carrying i l'.standing.job.isSome }
  | .doneDec =>
      { carrying := Function.update g.carrying i false
        retired := g.retired + (g.carrying i).toNat }
  | _ => g

def Ledger.write (s : Process n m fn arg) (a : Action n m fn arg)
    (s' : Process n m fn arg) (g : Ledger n) : Ledger n :=
  match a with
  | .thread (.run (.worker i) _ _) => g.turn i (s.pool.worker i) (s'.pool.worker i)
  | _ => g

/-- The process together with the ledger of its jobs. -/
def watched (n m : Nat) (fn arg : Type) :
    System (Process n m fn arg × Ledger n) (Action n m fn arg) :=
  (thpool n m fn arg).observe {} Ledger.write

/-- The ledger takes no part in what happens. -/
theorem reachable_iff_watched {ok : Process n m fn arg -> Action n m fn arg -> Prop}
    {s : Process n m fn arg} :
    (thpool n m fn arg).ReachableUnder ok s <->
      exists g, (watched n m fn arg).ReachableUnder (fun x a => ok x.1 a) (s, g) :=
  System.reachableUnder_iff_observed

def outstanding (x : Process n m fn arg × Ledger n) : Int :=
  x.1.pool.mem.history.accepted.length - x.2.retired

/-!
## Tokens and jobs
-/

def Standing.pushing (st : Standing) : Bool :=
  st.posting && st.job.all (fun job => job.2 != .pulled)

/-- Past the second test of `threads_keepalive` and not yet pulled. -/
def WorkerPc.entered : WorkerPc fn arg -> Bool
  | .workingLock => true
  | .workingInc => true
  | .workingUnlock => true
  | .pull p => p.token
  | _ => false

def WorkerPc.pulled (l : WorkerPc fn arg) : Bool :=
  l.standing.working && !l.standing.token

def WorkerPc.reposts : WorkerPc fn arg -> Bool
  | .pull (.post _ .set) => true
  | _ => false

/-- How many workers have taken the token and not pulled. -/
def Process.tokens (s : Process n m fn arg) : Nat :=
  countWhere Standing.token s.pool.workerStanding

/-- How many calls of `jobqueue_push` have linked their job and not posted. -/
def Process.pushing (s : Process n m fn arg) : Nat :=
  countWhere Standing.pushing s.pool.standing

def Process.entered (s : Process n m fn arg) : Nat :=
  countWhere WorkerPc.entered s.pool.worker

/-- While the workers are kept alive, `jobqueue_pull` puts a token where there is
none only if it leaves more jobs than there are workers on their way to one. -/
def SparePost (s : Process n m fn arg) : Action n m fn arg -> Prop
  | .thread (.run (.worker i) _ _) =>
      (s.pool.worker i).reposts = true -> s.flags.threadsKeepalive = true ->
        s.pool.mem.v ≠ 1 -> (s.tokens : Int) < s.pool.mem.jobqueue.len
  | _ => True

instance (s : Process n m fn arg) (a : Action n m fn arg) : Decidable (SparePost s a) :=
  match a with
  | .thread (.run (.worker i) _ _) =>
      inferInstanceAs (Decidable ((s.pool.worker i).reposts = true ->
        s.flags.threadsKeepalive = true -> s.pool.mem.v ≠ 1 ->
          (s.tokens : Int) < s.pool.mem.jobqueue.len))
  | .thread (.run (.client _) _ _) => inferInstanceAs (Decidable True)
  | .thread (.run .owner _ _) => inferInstanceAs (Decidable True)
  | .thread (.spurious _) => inferInstanceAs (Decidable True)
  | .deliver _ => inferInstanceAs (Decidable True)
  | .hold _ => inferInstanceAs (Decidable True)

/-!
## What a memory step does to tokens and jobs
-/

theorem WorkerPc.token_of_entered {l : WorkerPc fn arg} (h : l.entered = true) :
    l.standing.token = true := by
  cases l <;> first | exact h | rfl | cases h

theorem pullSection_len {heap : Heap fn arg} {q q' : JobQueue} {job : Option Ptr}
    {more : Bool} (h : pullSection heap q = some (job, q', more)) :
    q.len - 1 ≤ q'.len := by
  unfold pullSection at h
  split at h
  · cases h
    lia
  · split at h
    · cases h
      dsimp only
      lia
    · simp only [Option.bind_eq_bind, Option.bind_eq_some_iff, Option.pure_def,
        Option.some.injEq, Prod.mk.injEq] at h
      rcases h with ⟨p, _, node, _, _, rfl, _⟩
      exact le_refl _

theorem takeJob_len {puller : Option (Fin n)} {s s' : Shared n fn arg} {p : PullPc}
    (h : takeJob puller s = some (s', p)) :
    s.2.jobqueue.len - 1 ≤ s'.2.jobqueue.len := by
  rcases takeJob_cases h with ⟨_, _, hpull, _, rfl⟩ | ⟨_, _, _, hpull, _, rfl⟩
  · exact pullSection_len hpull
  · exact pullSection_len hpull

theorem takeJob_job {s : Process n m fn arg} (hb : s.Booked)
    (hlen : 0 < s.pool.mem.jobqueue.len) {puller : Option (Fin n)} {sh : Shared n fn arg}
    {p : PullPc} (h : takeJob puller s.shared = some (sh, p)) :
    p.job.isSome = true ∧ sh.2.jobqueue.len = s.pool.mem.jobqueue.len - 1 := by
  rcases hb with ⟨l, b⟩
  have hrep := b.represents
  cases l with
  | nil =>
      rw [hrep.len] at hlen
      exact (lt_irrefl _ hlen).elim
  | cons front rest =>
      rcases pullSection_cons hrep with ⟨q, hpull, _, hq⟩
      rcases takeJob_cases h with ⟨q', more, hpull', _, _⟩ | ⟨job, q', more, hpull', rfl, rfl⟩
      · have hcontra := hpull.symm.trans hpull'
        cases hcontra
      · have heq := hpull.symm.trans hpull'
        cases heq
        refine ⟨?_, hq⟩
        split <;> rfl

/-- A step that takes no token out of thin air: what the token and the pending
posts rise by, the queue rises by. -/
def Spares (s s' : Shared n fn arg) (st st' : Standing) : Prop :=
  (s'.2.v : Int) + st'.token.toNat + st'.pushing.toNat + s.2.jobqueue.len ≤
    s.2.v + st.token.toNat + st.pushing.toNat + s'.2.jobqueue.len

theorem Spares.of_same {s s' : Shared n fn arg} {st st' : Standing}
    (hv : s'.2.v = s.2.v) (hlen : s'.2.jobqueue.len = s.2.jobqueue.len)
    (htoken : st'.token = st.token) (hpushing : st'.pushing = st.pushing) :
    Spares s s' st st' := by
  unfold Spares
  rw [hv, hlen, htoken, hpushing]

theorem UserMove.spares {caller : Option Ptr} {s s' : Shared n fn arg} {f f' : Frame}
    {w : Wake Cond} (h : UserMove caller s f s' f' w) :
    Spares s s' f.standing f'.standing := by
  cases h with
  | link hlink =>
      rcases linkJob_cases hlink with ⟨_, _, _, _, hpush, rfl⟩
      have hlen := pushSection_len hpush
      change (s.2.v : Int) + 0 + 1 + _ ≤ s.2.v + 0 + 0 + _
      dsimp only [onPool]
      lia
  | post =>
      change ((1 : Nat) : Int) + 0 + 0 + s.2.jobqueue.len ≤ s.2.v + 0 + 1 + s.2.jobqueue.len
      lia
  | _ => exact Spares.of_same rfl rfl rfl rfl

theorem UserMove.filed {caller : Option Ptr} {s s' : Shared n fn arg} {f f' : Frame}
    {w : Wake Cond} (h : UserMove caller s f s' f' w) :
    s.2.jobqueue.len ≤ s'.2.jobqueue.len ∧
      s'.2.jobqueue.len + s.2.history.accepted.length =
        s.2.jobqueue.len + s'.2.history.accepted.length := by
  cases h with
  | link hlink =>
      rcases linkJob_cases hlink with ⟨_, _, _, _, hpush, rfl⟩
      have hlen := pushSection_len hpush
      dsimp only [onPool]
      rw [List.length_append, List.length_singleton]
      constructor <;> lia
  | _ => exact ⟨le_refl _, rfl⟩

theorem pushing_running (job : Ptr) (function : fn) (arg' : arg) (f : Frame) :
    (WorkerPc.running job function arg' f).standing.pushing = f.standing.pushing := by
  simp [Standing.pushing, WorkerPc.standing]

theorem PullPc.pushing_pull (p : PullPc) :
    (WorkerPc.pull p : WorkerPc fn arg).standing.pushing = false := by
  cases p <;> simp [Standing.pushing, WorkerPc.standing, PullPc.posting, PullPc.job]

theorem takeJob_token {puller : Option (Fin n)} {s s' : Shared n fn arg} {p : PullPc}
    (h : takeJob puller s = some (s', p)) : p.token = false := by
  rcases takeJob_cases h with ⟨_, _, _, rfl, _⟩ | ⟨_, _, more, _, rfl, _⟩
  · rfl
  · cases more <;> rfl

theorem WorkerMove.spares {i : Fin n} {s s' : Shared n fn arg} {l l' : WorkerPc fn arg}
    {w : Wake Cond} (h : WorkerMove i s l s' l' w)
    (hpost : l.reposts = true -> s.2.v = 1) : Spares s s' l.standing l'.standing := by
  cases h with
  | token hv =>
      change ((0 : Nat) : Int) + 1 + 0 + s.2.jobqueue.len ≤ s.2.v + 0 + 0 + s.2.jobqueue.len
      rw [hv]
      lia
  | checkOff =>
      change (s.2.v : Int) + 0 + 0 + s.2.jobqueue.len ≤ s.2.v + 1 + 0 + s.2.jobqueue.len
      lia
  | @take _ p htake =>
      have hlen := takeJob_len htake
      have hv := takeJob_v htake
      have htoken : (WorkerPc.pull p : WorkerPc fn arg).standing.token = false :=
        takeJob_token htake
      unfold Spares
      rw [PullPc.pushing_pull, PullPc.pushing_pull, htoken, hv]
      change (s.2.v : Int) + 0 + 0 + _ ≤ s.2.v + 1 + 0 + _
      lia
  | pullPost => exact Spares.of_same (hpost rfl).symm rfl rfl rfl
  | user hmove =>
      have hspares := hmove.spares
      unfold Spares at hspares ⊢
      rw [pushing_running, pushing_running]
      simpa [WorkerPc.standing, Standing.alive] using hspares
  | free hfree =>
      rcases freeJob_cases hfree with ⟨_, rfl⟩ | ⟨_, _, _, rfl⟩
      · exact Spares.of_same rfl rfl rfl rfl
      · exact Spares.of_same rfl rfl rfl rfl
  | _ => exact Spares.of_same rfl rfl rfl rfl

theorem WorkerMove.enters {i : Fin n} {s s' : Shared n fn arg} {l l' : WorkerPc fn arg}
    {w : Wake Cond} (h : WorkerMove i s l s' l' w) (hoff : s.1.threadsKeepalive = false) :
    l'.entered.toNat + s.2.jobqueue.len ≤ l.entered.toNat + s'.2.jobqueue.len := by
  cases h with
  | checkOn hon =>
      rw [hoff] at hon
      cases hon
  | @take _ p htake =>
      have hlen := takeJob_len htake
      have hentered : (WorkerPc.pull p : WorkerPc fn arg).entered = false :=
        takeJob_token htake
      rw [hentered]
      change ((0 : Nat) : Int) + _ ≤ ((1 : Nat) : Int) + _
      lia
  | user hmove =>
      have hlen := hmove.filed.1
      change ((0 : Nat) : Int) + _ ≤ ((0 : Nat) : Int) + _
      lia
  | free hfree =>
      rcases freeJob_cases hfree with ⟨_, rfl⟩ | ⟨_, _, _, rfl⟩
      · exact le_refl _
      · exact le_refl _
  | _ => exact le_refl _

theorem WorkerMove.filed {i : Fin n} {s s' : Shared n fn arg} {l l' : WorkerPc fn arg}
    {w : Wake Cond} (h : WorkerMove i s l s' l' w) (hl : l ≠ .pull .take) :
    s'.2.jobqueue.len + s.2.history.accepted.length =
      s.2.jobqueue.len + s'.2.history.accepted.length := by
  cases h with
  | take => exact (hl rfl).elim
  | user hmove => exact hmove.filed.2
  | free hfree =>
      rcases freeJob_cases hfree with ⟨_, rfl⟩ | ⟨_, _, _, rfl⟩
      · rfl
      · rfl
  | _ => rfl

theorem takeJob_accepted {puller : Option (Fin n)} {s s' : Shared n fn arg} {p : PullPc}
    (h : takeJob puller s = some (s', p)) :
    s'.2.history.accepted = s.2.history.accepted := by
  rcases takeJob_cases h with ⟨_, _, _, _, rfl⟩ | ⟨_, _, _, _, _, rfl⟩
  · rfl
  · rfl

theorem WorkerMove.pulled {i : Fin n} {s s' : Shared n fn arg} {l l' : WorkerPc fn arg}
    {w : Wake Cond} (h : WorkerMove i s l s' l' w) (hl' : l'.pulled = true) :
    l = .pull .take ∨ (l.pulled = true ∧ l ≠ .doneDec) := by
  cases h with
  | take => exact Or.inl rfl
  | pullPost | gotNull | call | user | ret | free =>
      exact Or.inr ⟨rfl, fun h => nomatch h⟩
  | _ => cases hl'

theorem Ledger.turn_other (g : Ledger n) (i : Fin n) {l : WorkerPc fn arg}
    (hpull : l ≠ .pull .take) (hdone : l ≠ .doneDec) (l' : WorkerPc fn arg) :
    g.turn i l l' = g := by
  cases l with
  | pull p =>
      cases p with
      | take => exact (hpull rfl).elim
      | _ => rfl
  | doneDec => exact (hdone rfl).elim
  | _ => rfl

theorem OwnerPc.pushing_standing (l : OwnerPc) : l.standing.pushing = false := by
  cases l with
  | clearPull total p =>
      cases p <;> simp [Standing.pushing, OwnerPc.standing, PullPc.posting, PullPc.job]
  | _ => rfl

theorem OwnerMove.queue {s' : Shared n fn arg} {sh : Shared n fn arg} {l l' : OwnerPc}
    {w : Wake Cond} (h : OwnerMove sh l s' l' w)
    (hunused : l.phase = .allocating -> sh.2.quiet = {})
    (hused : l'.phase.released = false) :
    s'.2.jobqueue = sh.2.jobqueue ∧
      (s'.2.v = sh.2.v ∨ l'.phase.keepalive = some false) := by
  cases h with
  | initAlloc =>
      rw [initFields_unused (hunused rfl)]
      exact ⟨rfl, Or.inl rfl⟩
  | postFirst | postRest => exact ⟨rfl, Or.inr rfl⟩
  | clearMore | clearEnd | clearTake | clearPost | clearFree | clearReset | freeHasJobs |
      freeThread | freeThreadEnd | freeThreads | freePool => cases hused
  | pollRestEnd => cases hused
  | _ => exact ⟨rfl, Or.inl rfl⟩

theorem OwnerMove.accepted {s' : Shared n fn arg} {sh : Shared n fn arg} {l l' : OwnerPc}
    {w : Wake Cond} (h : OwnerMove sh l s' l' w) :
    s'.2.history.accepted = sh.2.history.accepted := by
  cases h with
  | clearTake htake => exact takeJob_accepted htake
  | clearFree hfree =>
      rcases freeJob_cases hfree with ⟨_, rfl⟩ | ⟨_, _, _, rfl⟩
      · rfl
      · rfl
  | _ => rfl

/-!
## Steps that only synchronise
-/

theorem threadDo_syncNext_entered {i : Fin n} {l l' : WorkerPc fn arg}
    (h : (threadDo i l).syncNext = some l') : l'.entered = l.entered := by
  cases l with
  | bsem p => cases p <;> cases h <;> rfl
  | pull p =>
      cases p with
      | lock | take | unlock => cases h <;> rfl
      | post job q => cases q <;> cases h <;> rfl
  | got job => cases job <;> cases h
  | running job function arg' f =>
      cases f with
      | user => cases h
      | push | wait | pause =>
          simp only [threadDo, Instr.syncNext_map, Option.map_eq_some_iff] at h
          rcases h with ⟨f', hf', rfl⟩
          rfl
  | _ => cases h <;> rfl

theorem write_of_sync {s s' : Process n m fn arg} {g : Ledger n} {t : Tid n m}
    {c : Choice fn arg} {woken : Option (Tid n m)} {next : Loc n m fn arg t}
    (h : (thpoolCode t (s.pool.threads.loc t)).syncNext = some next) :
    Ledger.write s (.thread (.run t c woken)) s' g = g := by
  cases t with
  | client | owner => rfl
  | worker i =>
      change (threadDo i (s.pool.worker i)).syncNext = some next at h
      apply Ledger.turn_other
      · intro hpull
        rw [hpull] at h
        cases h
      · intro hdone
        rw [hdone] at h
        cases h

end Thpool
end PracticeHand
