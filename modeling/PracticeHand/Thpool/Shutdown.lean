import PracticeHand.Thpool.Accounting
import PracticeHand.Thpool.Polling

/-!
# `thpool_destroy` can be completed

When the polling loops have ended, the owner empties the queue with `jobqueue_clear`
and frees the pool.  Together with the polling loops this takes `thpool_destroy` from
its call to its end.
-/

namespace PracticeHand
namespace Thpool

open Concurrency

variable {n m : Nat} {fn arg : Type}

/-!
## Releasing the pool

All workers have ended and the clients are out of the sections, so the owner is alone
with the queue and takes it apart without waiting.
-/

structure Alone (s : Process n m fn arg) : Prop where
  lock : LockInv s
  clear : ClearInv s
  released : s.pool.owner.phase.released = true
  mine : forall x t, s.pool.threads.owner x = some t -> t = .owner
  -- the loop of `jobqueue_clear` pulls only what it has seen in the queue
  pulls : forall total p, s.pool.owner = .clearPull total p -> p.token = true ->
    0 < s.pool.mem.jobqueue.len

def PullPc.untilFree : PullPc -> Nat
  | .lock => 6
  | .take => 5
  | .post _ .lock => 12
  | .post _ .set => 11
  | .post _ .unlock => 10
  | .unlock _ => 9

def OwnerPc.untilGone (len : Nat) : OwnerPc -> Nat
  | .clearTest total => 10 * len + total.toNat + 5 + 7
  | .clearPull total p => 10 * len + total.toNat + 5 + p.untilFree
  | .clearFree total _ => 10 * len + total.toNat + 5 + 8
  | .clearReset total => total.toNat + 6
  | .freeHasJobs total => total.toNat + 5
  | .freeThread total k => (total - k).toNat + 3
  | .freeThreads => 2
  | .freePool => 1
  | _ => 0

def Process.untilGone (s : Process n m fn arg) : Nat :=
  s.pool.owner.untilGone s.pool.mem.jobqueue.len.toNat

theorem Alone.next {s s' : Process n m fn arg} (h : Alone s) {c : Choice fn arg}
    {woken : Option (Tid n m)} (hstep : step s (.thread (.run .owner c woken)) = some s')
    (hpulls : forall total p, s'.pool.owner = .clearPull total p -> p.token = true ->
      0 < s'.pool.mem.jobqueue.len) : Alone s' where
  lock := lockInv_step h.lock hstep
  clear := by
    have hok : NoLatePush s (.thread (.run .owner c woken)) := trivial
    exact clearInv_step h.clear hok hstep
  released := by
    cases hafter : s'.pool.owner.phase.released with
    | true => rfl
    | false =>
        have hbefore := released_of_step hstep hafter
        rw [h.released] at hbefore
        cases hbefore
  mine := by
    intro x t hx
    by_contra ht
    have hheld := ((lockInv_step h.lock hstep).owned x t).mp hx
    have hsame : s'.pool.threads.loc t = s.pool.threads.loc t := by
      by_contra hmoved
      rcases run_of_moved hstep hmoved with ⟨_, _, heq⟩
      cases heq
      exact ht rfl
    rw [hsame] at hheld
    exact ht (h.mine x t ((h.lock.owned x t).mpr hheld))
  pulls := hpulls

theorem Alone.mutex_free {s : Process n m fn arg} (h : Alone s) {x : Mutex}
    (hx : ¬ s.pool.owner.Holds x) : s.pool.threads.owner x = none := by
  cases howner : s.pool.threads.owner x with
  | none => rfl
  | some t =>
      have ht := h.mine x t howner
      subst ht
      exact (hx ((h.lock.owned x .owner).mp howner)).elim

theorem Alone.len_nonneg {s : Process n m fn arg} (h : Alone s) :
    0 ≤ s.pool.mem.jobqueue.len := by
  rcases h.clear.booked with ⟨l, b⟩
  rw [b.represents.len]
  exact Int.natCast_nonneg _

def Nearer (s : Process n m fn arg) : Prop :=
  exists a s', OwnerGoes s a ∧ step s a = some s' ∧ Alone s' ∧ s'.untilGone < s.untilGone

theorem Alone.nearer {s s' : Process n m fn arg} (h : Alone s) {woken : Option (Tid n m)}
    (hstep : step s (.thread (.run .owner .go woken)) = some s') {next : OwnerPc}
    {sh : Shared n fn arg} (hnext : s'.pool.owner = next) (hshared : s'.shared = sh)
    (hpulls : forall total p, next = .clearPull total p -> p.token = true ->
      0 < sh.2.jobqueue.len)
    (hless : next.untilGone sh.2.jobqueue.len.toNat < s.untilGone) : Nearer s := by
  have hmem : s'.pool.mem = sh.2 := by rw [← hshared]; rfl
  refine ⟨_, s', .go, hstep, h.next hstep ?_, ?_⟩
  · intro total p hp htoken
    rw [hmem]
    exact hpulls total p (hnext.symm.trans hp) htoken
  · unfold Process.untilGone
    rw [hnext, hmem]
    exact hless

theorem Alone.act {s : Process n m fn arg} (h : Alone s) {sh : Shared n fn arg}
    {next : OwnerPc} {w : Wake Cond}
    (hacts : (ownerCode s.pool.owner).Acts s.shared .go sh next w)
    (hpulls : forall total p, next = .clearPull total p -> p.token = true ->
      0 < sh.2.jobqueue.len)
    (hless : next.untilGone sh.2.jobqueue.len.toNat < s.untilGone) : Nearer s := by
  rcases owner_acts h.lock hacts with ⟨woken, s', hstep, hnext, hshared, _⟩
  exact h.nearer hstep hnext hshared hpulls hless

theorem Alone.takes {s : Process n m fn arg} (h : Alone s) {x : Mutex} {next : OwnerPc}
    (hinstr : (ownerCode s.pool.owner : Code n fn arg OwnerPc) = .lock x next)
    (hx : ¬ s.pool.owner.Holds x)
    (hpulls : forall total p, next = .clearPull total p -> p.token = true ->
      0 < s.pool.mem.jobqueue.len)
    (hless : next.untilGone s.pool.mem.jobqueue.len.toNat < s.untilGone) : Nearer s := by
  rcases owner_locks h.lock hinstr (h.mutex_free hx) with ⟨s', hstep, hnext, hshared, _⟩
  exact h.nearer hstep hnext hshared hpulls hless

theorem Alone.gives {s : Process n m fn arg} (h : Alone s) {x : Mutex} {next : OwnerPc}
    (hinstr : (ownerCode s.pool.owner : Code n fn arg OwnerPc) = .unlock x next)
    (hx : s.pool.owner.Holds x)
    (hpulls : forall total p, next = .clearPull total p -> p.token = true ->
      0 < s.pool.mem.jobqueue.len)
    (hless : next.untilGone s.pool.mem.jobqueue.len.toNat < s.untilGone) : Nearer s := by
  rcases owner_unlocks h.lock hinstr ((h.lock.owned x .owner).mpr hx) with
    ⟨s', hstep, hnext, hshared, _⟩
  exact h.nearer hstep hnext hshared hpulls hless

theorem Alone.advance_pull {s : Process n m fn arg} (h : Alone s) {total : Int} {p : PullPc}
    (howner : s.pool.owner = .clearPull total p) : Nearer s := by
  have hrank : s.untilGone =
      10 * s.pool.mem.jobqueue.len.toNat + total.toNat + 5 + p.untilFree := by
    unfold Process.untilGone
    rw [howner]
    rfl
  cases p with
  | lock =>
      have hpos := h.pulls total .lock howner rfl
      refine h.takes (x := .rwmutex) (by rw [howner]; rfl) (by rw [howner]; exact id) ?_ ?_
      · intro _ _ _ _
        exact hpos
      · rw [hrank]
        exact Nat.lt_succ_self _
  | take =>
      have hpos := h.pulls total .take howner rfl
      rcases Option.ne_none_iff_exists'.mp (takeJob_succeeds h.clear.booked none) with
        ⟨⟨sh, p'⟩, htake⟩
      have hlen := (takeJob_job h.clear.booked hpos htake).2
      have hacts : (ownerCode s.pool.owner).Acts s.shared .go sh (.clearPull total p')
          .nobody := by
        have htaken : (jobqueuePull none .take).Acts s.shared .go sh (.goto p') .nobody := by
          simp [jobqueuePull, htake]
        rw [howner]
        exact Instr.acts_map.mpr ⟨Flow.goto p', htaken, rfl⟩
      refine h.act hacts ?_ ?_
      · intro total' q hq htoken
        cases hq
        rw [takeJob_token htake] at htoken
        cases htoken
      · have hp : p'.untilFree ≤ 12 := by
          rcases takeJob_cases htake with ⟨_, _, _, rfl, _⟩ | ⟨_, _, more, _, rfl, _⟩
          · exact (by decide : 9 ≤ 12)
          · cases more
            · exact (by decide : 9 ≤ 12)
            · exact le_refl _
        rw [hrank, hlen]
        change 10 * (s.pool.mem.jobqueue.len - 1).toNat + total.toNat + 5 + p'.untilFree <
          10 * s.pool.mem.jobqueue.len.toNat + total.toNat + 5 + 5
        lia
  | post job q =>
      cases q with
      | lock =>
          refine h.takes (x := .hasJobsMutex) (by rw [howner]; rfl)
            (by rw [howner]; simp [OwnerPc.Holds, PullPc.Holds, PostPc.Holds]) ?_ ?_
          · intro _ _ hq htoken
            cases hq
            cases htoken
          · rw [hrank]
            exact Nat.lt_succ_self _
      | set =>
          have hacts : (ownerCode s.pool.owner).Acts s.shared .go (setV 1 s.shared)
              (.clearPull total (.post job .unlock)) (.signal .hasJobsCond) := by
            rw [howner]
            rfl
          refine h.act hacts ?_ ?_
          · intro _ _ hq htoken
            cases hq
            cases htoken
          · rw [hrank]
            exact Nat.lt_succ_self _
      | unlock =>
          refine h.gives (x := .hasJobsMutex) (by rw [howner]; rfl)
            (by rw [howner]; exact Or.inr rfl) ?_ ?_
          · intro _ _ hq htoken
            cases hq
            cases htoken
          · rw [hrank]
            exact Nat.lt_succ_self _
  | unlock job =>
      refine h.gives (x := .rwmutex) (by rw [howner]; rfl) (by rw [howner]; rfl) ?_ ?_
      · intro _ _ hq _
        cases hq
      · rw [hrank]
        exact Nat.lt_succ_self _

theorem Alone.advance {s : Process n m fn arg} (h : Alone s) (hgone : s.pool.owner ≠ .gone) :
    Nearer s := by
  have hreleased := h.released
  have hnot : forall {l : OwnerPc}, (forall total p, l ≠ .clearPull total p) ->
      forall (sh : Shared n fn arg) (total : Int) (p : PullPc), l = .clearPull total p ->
        p.token = true -> 0 < sh.2.jobqueue.len :=
    fun hl _ total p heq => (hl total p heq).elim
  have hrank : s.untilGone = s.pool.owner.untilGone s.pool.mem.jobqueue.len.toNat := rfl
  cases howner : s.pool.owner with
  | clearPull total p => exact h.advance_pull howner
  | clearTest total =>
      rw [howner] at hrank
      have hnonneg := h.len_nonneg
      by_cases hlen : s.pool.mem.jobqueue.len = 0
      · have hacts : (ownerCode s.pool.owner).Acts s.shared .go s.shared (.clearReset total)
            .nobody := by
          rw [howner, ownerCode, Instr.acts_test]
          exact ⟨rfl, by simp [Process.shared, hlen], rfl⟩
        refine h.act hacts (hnot (by simp) _) ?_
        rw [hrank]
        simp only [OwnerPc.untilGone]
        lia
      · have hacts : (ownerCode s.pool.owner).Acts s.shared .go s.shared
            (.clearPull total .lock) .nobody := by
          rw [howner, ownerCode, Instr.acts_test]
          exact ⟨rfl, by simp [Process.shared, hlen], rfl⟩
        refine h.act hacts ?_ ?_
        · intro _ _ _ _
          change 0 < s.pool.mem.jobqueue.len
          lia
        · rw [hrank]
          exact Nat.lt_succ_self _
  | clearFree total job =>
      rw [howner] at hrank
      have hfree : exists sh, freeJob s.shared job = some sh ∧
          sh.2.jobqueue = s.pool.mem.jobqueue := by
        cases job with
        | none => exact ⟨s.shared, rfl, rfl⟩
        | some p =>
            have hjob : (s.pool.standing .owner).job = some (p, .pulled) := by
              change s.pool.owner.standing.job = _
              rw [howner]
              rfl
            rcases Option.ne_none_iff_exists'.mp (freeJob_succeeds h.clear.booked hjob).2 with
              ⟨sh, hsh⟩
            refine ⟨sh, hsh, ?_⟩
            rcases freeJob_cases hsh with ⟨_, rfl⟩ | ⟨_, _, _, rfl⟩
            · rfl
            · rfl
      rcases hfree with ⟨sh, hsh, hqueue⟩
      have hacts : (ownerCode s.pool.owner).Acts s.shared .go sh (.clearTest total)
          .nobody := by
        rw [howner]
        simp [ownerCode, hsh]
      refine h.act hacts (hnot (by simp) _) ?_
      rw [hrank, hqueue]
      exact Nat.lt_succ_self _
  | clearReset total =>
      rw [howner] at hrank
      have hacts : (ownerCode s.pool.owner).Acts s.shared .go (clearFields s.shared)
          (.freeHasJobs total) .nobody := by
        rw [howner]
        rfl
      exact h.act hacts (hnot (by simp) _) (by rw [hrank]; exact Nat.lt_succ_self _)
  | freeHasJobs total =>
      rw [howner] at hrank
      have hacts : (ownerCode s.pool.owner).Acts s.shared .go s.shared (.freeThread total 0)
          .nobody := by
        rw [howner]
        rfl
      refine h.act hacts (hnot (by simp) _) ?_
      rw [hrank]
      simp [OwnerPc.untilGone]
  | freeThread total k =>
      rw [howner] at hrank
      by_cases hk : k < total
      · have hacts : (ownerCode s.pool.owner).Acts s.shared .go s.shared
            (.freeThread total (k + 1)) .nobody := by
          rw [howner, ownerCode, Instr.acts_test]
          exact ⟨rfl, by simp [hk], rfl⟩
        refine h.act hacts (hnot (by simp) _) ?_
        rw [hrank]
        simp only [OwnerPc.untilGone]
        lia
      · have hacts : (ownerCode s.pool.owner).Acts s.shared .go s.shared .freeThreads
            .nobody := by
          rw [howner, ownerCode, Instr.acts_test]
          exact ⟨rfl, by simp [hk], rfl⟩
        refine h.act hacts (hnot (by simp) _) ?_
        rw [hrank]
        simp only [OwnerPc.untilGone]
        lia
  | freeThreads =>
      rw [howner] at hrank
      have hacts : (ownerCode s.pool.owner).Acts s.shared .go s.shared .freePool .nobody := by
        rw [howner]
        rfl
      exact h.act hacts (hnot (by simp) _) (by rw [hrank]; exact Nat.lt_succ_self _)
  | freePool =>
      rw [howner] at hrank
      have hacts : (ownerCode s.pool.owner).Acts s.shared .go s.shared .gone .nobody := by
        rw [howner]
        rfl
      exact h.act hacts (hnot (by simp) _) (by rw [hrank]; exact Nat.lt_succ_self _)
  | gone => exact (hgone howner).elim
  | _ =>
      rw [howner] at hreleased
      cases hreleased

theorem Alone.exists_gone {s : Process n m fn arg} (h : Alone s) :
    exists schedule u, (thpool n m fn arg).RunUnder OwnerGoes s schedule u ∧
      Alone u ∧ u.pool.owner = .gone := by
  generalize hbound : s.untilGone = bound
  induction bound using Nat.strong_induction_on generalizing s with
  | _ bound ih =>
      by_cases hgone : s.pool.owner = .gone
      · exact ⟨[], s, .nil s, h, hgone⟩
      · rcases h.advance hgone with ⟨a, s', hok, hstep, hs', hless⟩
        rcases ih _ (by lia) hs' rfl with ⟨rest, u, hrest, hend⟩
        exact ⟨a :: rest, u, .cons hok hstep hrest, hend⟩

theorem Closing.exists_alone {s : Process n m fn arg} (h : Closing s) (hstuck : Stuck s)
    {total : Int} (howner : s.pool.owner = .pollRest total)
    (halive : s.pool.mem.numThreadsAlive = 0) :
    exists schedule u, (thpool n m fn arg).RunUnder OwnerGoes s schedule u ∧ Alone u := by
  have hw := h.winding (by rw [howner]; exact fun _ hx => hx)
  rcases reachable_tokenInv h.reach with ⟨hlock, hstage, _⟩
  have hacts : (ownerCode s.pool.owner).Acts s.shared .go s.shared (.clearTest total)
      .nobody := by
    rw [howner, ownerCode, Instr.acts_test]
    exact ⟨rfl, by simp [Process.shared, halive], rfl⟩
  rcases owner_acts hlock hacts with ⟨woken, u, hstep, hu, hshared, hmutexes, _⟩
  have hclear : ClearInv s := by
    refine ⟨hstage, reachable_countedOut h.reach, hw.booked, ?_⟩
    intro hcleared
    rw [howner] at hcleared
    cases hcleared
  have hok : NoLatePush s (.thread (.run .owner .go woken)) := trivial
  refine ⟨_, u, .cons .go hstep (.nil u), ⟨lockInv_step hlock hstep,
    clearInv_step hclear hok hstep, by rw [hu]; rfl, ?_, ?_⟩⟩
  · intro x t hx
    rw [hmutexes, hw.no_owner hstuck x] at hx
    cases hx
  · intro total' p hp
    rw [hu] at hp
    cases hp

/-- From every state of `thpool_destroy` before the end of its polling loops, if no
worker is held and no job is in `thpool_wait`, the threads can go on until the pool is
freed; then all workers have ended and every accepted job has been run and freed once,
or freed without having been run. -/
theorem thpool_destroy_completes {s : Process n m fn arg} (h : Closing s) :
    exists schedule u, (thpool n m fn arg).RunUnder Finishes s schedule u ∧
      u.pool.owner = .gone ∧ (forall i, u.pool.worker i = .exited) ∧
      forall k, k < u.pool.mem.history.accepted.length ->
        u.pool.mem.history.tally k = { called := 1, finished := 1, freed := 1 } ∨
          u.pool.mem.history.tally k = { freed := 1 } := by
  rcases exists_pollRest h with ⟨first, s1, total, hfirst, h1, howner1⟩
  rcases exists_alive_zero h1 howner1 with ⟨second, s2, hsecond, h2, hstuck, howner2, halive⟩
  rcases h2.exists_alone hstuck howner2 halive with ⟨third, s3, hthird, h3⟩
  rcases h3.exists_gone with ⟨last, u, hlast, hu, hgone⟩
  have howns := hthird.append hlast
  refine ⟨_, u, (hfirst.append hsecond).append (howns.weaken Or.inr), hgone, ?_, ?_⟩
  · intro i
    have hw := h2.winding (by rw [howner2]; exact fun _ hx => hx)
    have hsame : u.pool.worker i = s2.pool.worker i :=
      (owner_run_keeps howns).1 (.worker i) (by simp)
    rw [hsame]
    rcases hw.worker_rests hstuck i with hexited | hasleep
    · exact hexited
    · have hcounted := counted_false_of_alive_zero (reachable_tokenInv h2.reach).2.1 halive i
      rw [relock_of_asleep (reachable_tokenInv h2.reach).1 hasleep] at hcounted
      cases hcounted
  · intro k hk
    exact tally_of_gone hu.clear hgone hk

/-- `thpool_destroy` has been called while a job is queued and nobody has moved since. -/
theorem thpool_destroy_completes_one :
    exists s u : Process 1 1 Unit Unit, exists schedule,
      s.pool.owner.closing = true ∧ s.pool.mem.jobqueue.len = 1 ∧
      (thpool 1 1 Unit Unit).RunUnder Finishes s schedule u ∧ u.pool.owner = .gone := by
  have hstart : exists s, (thpool 1 1 Unit Unit).Reachable s ∧
      (s.pool.owner.closing = true ∧ (forall i, s.pool.hold i = none) ∧
        (forall i, s.pool.waiting (.worker i) = none) ∧ s.pool.mem.jobqueue.len = 1) :=
    System.reachable_of_exec (s := Process.initial)
      (addOneJob 0 0 ++ Tid.owner.chooses .destroy) rfl (by decide)
  rcases hstart with ⟨s, hreach, hclosing, hfree, hpatient, hlen⟩
  rcases thpool_destroy_completes ⟨hreach, hclosing, hfree, hpatient⟩ with
    ⟨schedule, u, hrun, hgone, _⟩
  exact ⟨s, u, schedule, hclosing, hlen, hrun, hgone⟩

end Thpool
end PracticeHand
