import PracticeHand.Thpool.Outstanding

/-!
# Working threads and outstanding jobs

A worker is counted by `num_threads_working` before it looks into the queue, on
the strength of the token that it has taken from `has_jobs`.  A call of
`jobqueue_push` puts one token behind one job.  A call of `jobqueue_pull` that
leaves jobs behind posts without looking whether other workers are already on
their way to these jobs.  As long as such a post leaves no token without a job,
no worker is counted that has nothing to do.
-/

namespace PracticeHand
namespace Thpool

open Concurrency

variable {n m : Nat} {fn arg : Type}

/-!
## The invariant
-/

/-- There is a job behind every token, and no worker past `jobqueue_pull` is
without a job. -/
structure WorkInv (s : Process n m fn arg) (g : Ledger n) : Prop where
  retired : g.retired ≤ s.pool.mem.history.accepted.length
  filed : s.pool.owner.phase.released = false ->
    s.pool.mem.jobqueue.len + countWhere id g.carrying + g.retired ≤
      s.pool.mem.history.accepted.length
  entered : s.pool.owner.phase.released = false ->
    (s.entered : Int) ≤ s.pool.mem.jobqueue.len
  spare : s.flags.threadsKeepalive = true ->
    (s.pool.mem.v : Int) + s.tokens + s.pushing ≤ s.pool.mem.jobqueue.len
  carrying : forall i, (s.pool.worker i).pulled = true -> g.carrying i = true

section Step

variable {s : Process n m fn arg} {g : Ledger n} {sh : Shared n fn arg}
variable {asleep : Tid n m -> Option Cond}

theorem WorkInv.congr (h : WorkInv s g) {s' : Process n m fn arg}
    (hqueue : s'.pool.mem.jobqueue = s.pool.mem.jobqueue) (hv : s'.pool.mem.v = s.pool.mem.v)
    (haccepted : s'.pool.mem.history.accepted = s.pool.mem.history.accepted)
    (hkeep : s'.flags.threadsKeepalive = s.flags.threadsKeepalive)
    (hphase : s'.pool.owner.phase = s.pool.owner.phase)
    (hstanding : s'.pool.standing = s.pool.standing)
    (hentered : forall i, (s'.pool.worker i).entered = (s.pool.worker i).entered) :
    WorkInv s' g := by
  have hworkers : s'.pool.workerStanding = s.pool.workerStanding := by
    unfold Pool.workerStanding
    rw [hstanding]
  constructor
  · rw [haccepted]
    exact h.retired
  · rw [hphase, hqueue, haccepted]
    exact h.filed
  · have hcount : s'.entered ≤ s.entered :=
      countWhere_le (fun i hi => (hentered i).symm.trans hi)
    rw [hphase, hqueue]
    intro hused
    have hbefore := h.entered hused
    lia
  · unfold Process.tokens Process.pushing
    rw [hkeep, hqueue, hv, hstanding, hworkers]
    exact h.spare
  · intro i hi
    refine h.carrying i ?_
    have hi' : ((s'.pool.workerStanding i).working &&
      !(s'.pool.workerStanding i).token) = true := hi
    rw [hworkers] at hi'
    exact hi'

theorem held_of_pushing_standing {t : Tid n m} {l : Loc n m fn arg t}
    (h : (standing t l).pushing = true) : Held t l .rwmutex := by
  have hframe : forall f : Frame, f.standing.pushing = true -> f.Holds .rwmutex := by
    intro f hf
    cases f with
    | push newjob p =>
        cases p with
        | post q => exact Or.inl rfl
        | _ => cases hf
    | _ => cases hf
  cases t with
  | client j => exact hframe l h
  | worker i =>
      change (WorkerPc.standing l).pushing = true at h
      cases l with
      | pull p =>
          rw [PullPc.pushing_pull] at h
          cases h
      | running job function arg' f =>
          rw [pushing_running] at h
          exact hframe f h
      | _ => cases h
  | owner =>
      change (OwnerPc.standing l).pushing = true at h
      cases l with
      | clearPull total p => cases p <;> simp [Standing.pushing, OwnerPc.standing,
          PullPc.posting, PullPc.job] at h
      | _ => cases h

theorem WorkerPc.pull_of_reposts {l : WorkerPc fn arg} (h : l.reposts = true) :
    exists job, l = .pull (.post job .set) := by
  cases l with
  | pull p =>
      cases p with
      | post job q => cases q <;> first | exact ⟨job, rfl⟩ | cases h
      | _ => cases h
  | _ => cases h

theorem pushing_eq_zero (hlock : LockInv s) {i : Fin n}
    (hi : (s.pool.worker i).reposts = true) : s.pushing = 0 := by
  rcases WorkerPc.pull_of_reposts hi with ⟨job, hpull⟩
  apply countWhere_eq_zero.mpr
  intro t
  by_contra ht
  have hpushing : (s.pool.standing t).pushing = true := by simpa using ht
  have hheld : Held (.worker i) (s.pool.threads.loc (.worker i)) .rwmutex := by
    change (s.pool.worker i).Holds .rwmutex
    rw [hpull]
    exact Or.inl rfl
  have heq := hlock.owned.unique (held_of_pushing_standing hpushing) hheld
  subst heq
  change (s.pool.worker i).standing.pushing = true at hpushing
  rw [hpull, PullPc.pushing_pull] at hpushing
  cases hpushing

theorem pushing_after {t : Tid n m} {next : Loc n m fn arg t}
    {owner : Mutex -> Option (Tid n m)} :
    (s.after sh
      { owner := owner
        loc := Function.update s.pool.threads.loc t next
        asleep := asleep }).pushing + (s.pool.standing t).pushing.toNat =
      s.pushing + (standing t next).pushing.toNat := by
  unfold Process.pushing
  rw [standing_after]
  exact countWhere_update Standing.pushing s.pool.standing t (standing t next)

/-- After a memory step of a worker there is still a job behind every token. -/
theorem WorkInv.spare_worker (h : WorkInv s g) (hlock : LockInv s) {i : Fin n}
    {next : WorkerPc fn arg} {w : Wake Cond}
    (hmove : WorkerMove i s.shared (s.pool.worker i) sh next w)
    (hspare : (s.pool.worker i).reposts = true -> s.flags.threadsKeepalive = true ->
      s.pool.mem.v ≠ 1 -> (s.tokens : Int) < s.pool.mem.jobqueue.len)
    (hkeep : s.flags.threadsKeepalive = true) :
    (sh.2.v : Int) +
        (s.after sh { s.pool.threads with
          loc := Function.update s.pool.threads.loc (.worker i) next
          asleep := asleep }).tokens +
        (s.after sh { s.pool.threads with
          loc := Function.update s.pool.threads.loc (.worker i) next
          asleep := asleep }).pushing ≤ sh.2.jobqueue.len := by
  have htokens := countWhere_worker Standing.token s sh i next asleep
  have hpushing := @pushing_after n m fn arg s sh asleep (.worker i) next
    s.pool.threads.owner
  have hbefore := h.spare hkeep
  change Process.tokens _ + _ = s.tokens + _ at htokens
  change _ + (s.pool.worker i).standing.pushing.toNat =
    s.pushing + next.standing.pushing.toNat at hpushing
  by_cases hpost : (s.pool.worker i).reposts = true -> s.pool.mem.v = 1
  · have hspares := hmove.spares hpost
    change _ ≤ (s.pool.mem.v : Int) + _ + _ + _ at hspares
    change (sh.2.v : Int) + _ + _ + s.pool.mem.jobqueue.len ≤ _ at hspares
    lia
  · -- the post of `jobqueue_pull` that makes a token
    rcases Classical.not_imp.mp hpost with ⟨hre, hv⟩
    have hzero := pushing_eq_zero hlock hre
    have hroom := hspare hre hkeep hv
    rcases WorkerPc.pull_of_reposts hre with ⟨job, hpull⟩
    rw [hpull] at hmove htokens hpushing
    cases hmove
    change _ + 0 = s.tokens + 0 at htokens
    change _ + 0 = s.pushing + 0 at hpushing
    change ((1 : Nat) : Int) + _ + _ ≤ s.pool.mem.jobqueue.len
    lia

theorem used_of_workerMove (hout : CountedOut s) {i : Fin n} {next : WorkerPc fn arg}
    {w : Wake Cond} (hmove : WorkerMove i s.shared (s.pool.worker i) sh next w) :
    s.pool.owner.phase.released = false := by
  by_contra hreleased
  rcases hout (by simpa using hreleased) i with hi | hi
  · rw [hi] at hmove
    cases hmove
  · rw [hi] at hmove
    cases hmove

theorem WorkInv.len_pos (h : WorkInv s g) (hused : s.pool.owner.phase.released = false)
    {i : Fin n} (hi : (s.pool.worker i).entered = true) : 0 < s.pool.mem.jobqueue.len := by
  have hpos : 0 < s.entered := countWhere_pos hi
  have hle := h.entered hused
  lia

theorem WorkInv.filed_worker (h : WorkInv s g) (hb : s.Booked)
    (hused : s.pool.owner.phase.released = false) {i : Fin n} {next : WorkerPc fn arg}
    {w : Wake Cond} (hmove : WorkerMove i s.shared (s.pool.worker i) sh next w) :
    sh.2.jobqueue.len + countWhere id (g.turn i (s.pool.worker i) next).carrying +
      (g.turn i (s.pool.worker i) next).retired ≤ sh.2.history.accepted.length := by
  have hfiled := h.filed hused
  have hpos : (s.pool.worker i).entered = true -> 0 < s.pool.mem.jobqueue.len :=
    h.len_pos hused
  by_cases hpull : s.pool.worker i = .pull .take
  · rw [hpull] at hmove hpos ⊢
    cases hmove with
    | @take _ p htake =>
        rcases takeJob_job hb (hpos rfl) htake with ⟨_, hlen⟩
        have hcount := countWhere_update id g.carrying i
          (WorkerPc.pull p : WorkerPc fn arg).standing.job.isSome
        have hone := Bool.toNat_le (id (WorkerPc.pull p : WorkerPc fn arg).standing.job.isSome)
        rw [hlen, takeJob_accepted htake]
        change _ - 1 + (countWhere id (Function.update g.carrying i _) : Int) + g.retired ≤ _
        change _ ≤ (s.pool.mem.history.accepted.length : Int)
        lia
  · have hsame := hmove.filed hpull
    change _ + (s.pool.mem.history.accepted.length : Int) =
      s.pool.mem.jobqueue.len + _ at hsame
    by_cases hdone : s.pool.worker i = .doneDec
    · rw [hdone]
      have hcount := countWhere_update id g.carrying i false
      change _ + (countWhere id (Function.update g.carrying i false) : Int) +
        ((g.retired + (g.carrying i).toNat : Nat) : Int) ≤ _
      change _ + (g.carrying i).toNat = _ + 0 at hcount
      lia
    · rw [g.turn_other i hpull hdone]
      lia

theorem WorkInv.carrying_worker (h : WorkInv s g) (hb : s.Booked)
    (hused : s.pool.owner.phase.released = false) {i : Fin n} {next : WorkerPc fn arg}
    {w : Wake Cond} (hmove : WorkerMove i s.shared (s.pool.worker i) sh next w)
    {j : Fin n} (hj : (Function.update s.pool.worker i next j).pulled = true) :
    (g.turn i (s.pool.worker i) next).carrying j = true := by
  by_cases hji : j = i
  · subst hji
    rw [Function.update_self] at hj
    rcases hmove.pulled hj with hpull | ⟨hpulled, hdone⟩
    · have hpos : (s.pool.worker j).entered = true -> 0 < s.pool.mem.jobqueue.len :=
        h.len_pos hused
      rw [hpull] at hmove hpos ⊢
      cases hmove with
      | @take _ p htake =>
          have hjob := (takeJob_job hb (hpos rfl) htake).1
          change Function.update g.carrying j _ j = true
          rw [Function.update_self]
          simpa [WorkerPc.standing] using hjob
    · have hpull : s.pool.worker j ≠ .pull .take := by
        intro hpull
        rw [hpull] at hpulled
        cases hpulled
      rw [g.turn_other j hpull hdone]
      exact h.carrying j hpulled
  · rw [Function.update_of_ne hji] at hj
    have hbefore := h.carrying j hj
    unfold Ledger.turn
    split
    · dsimp only
      rwa [Function.update_of_ne hji]
    · dsimp only
      rwa [Function.update_of_ne hji]
    · exact hbefore

theorem WorkInv.worker (h : WorkInv s g) (hlock : LockInv s) (hserves : s.Serves)
    (hout : CountedOut s) {i : Fin n} {next : WorkerPc fn arg} {w : Wake Cond}
    (hmove : WorkerMove i s.shared (s.pool.worker i) sh next w)
    (hspare : (s.pool.worker i).reposts = true -> s.flags.threadsKeepalive = true ->
      s.pool.mem.v ≠ 1 -> (s.tokens : Int) < s.pool.mem.jobqueue.len) :
    WorkInv (s.after sh { s.pool.threads with
        loc := Function.update s.pool.threads.loc (.worker i) next
        asleep := asleep }) (g.turn i (s.pool.worker i) next) := by
  have hused := used_of_workerMove hout hmove
  have hb := (hserves hused).1
  have hkeep : sh.1.threadsKeepalive = s.flags.threadsKeepalive := hmove.counters.2.2.1
  have hfiled := h.filed_worker hb hused hmove
  have hspared : sh.1.threadsKeepalive = true -> _ := fun hon =>
    @WorkInv.spare_worker n m fn arg s g sh asleep h hlock i next w hmove hspare
      (hkeep.symm.trans hon)
  have hentered : ((s.after sh { s.pool.threads with
      loc := Function.update s.pool.threads.loc (.worker i) next
      asleep := asleep }).entered : Int) ≤ sh.2.jobqueue.len := by
    cases hon : s.flags.threadsKeepalive with
    | true =>
        -- whoever is past the test has a token
        have hle : (s.after sh { s.pool.threads with
            loc := Function.update s.pool.threads.loc (.worker i) next
            asleep := asleep }).entered ≤ Process.tokens _ :=
          countWhere_le (fun j hj => WorkerPc.token_of_entered hj)
        have hroom := hspared (hkeep.trans hon)
        lia
    | false =>
        have hmoved := hmove.enters hon
        have hcount := countWhere_update WorkerPc.entered s.pool.worker i next
        have hbefore := h.entered hused
        unfold Process.entered at hbefore ⊢
        rw [worker_after]
        change _ + s.pool.mem.jobqueue.len ≤ _ at hmoved
        lia
  refine ⟨?_, fun _ => hfiled, fun _ => hentered, hspared, ?_⟩
  · change _ ≤ sh.2.history.accepted.length
    lia
  · intro j hj
    rw [worker_after] at hj
    exact h.carrying_worker hb hused hmove hj

theorem WorkInv.client (h : WorkInv s g) {j : Fin m} {next : Frame} {w : Wake Cond}
    (hmove : UserMove none s.shared (s.pool.client j) sh next w) :
    WorkInv (s.after sh { s.pool.threads with
        loc := Function.update s.pool.threads.loc (.client j) next
        asleep := asleep }) g := by
  rcases hmove.filed with ⟨hlen, hfiled⟩
  have hkeep : sh.1.threadsKeepalive = s.flags.threadsKeepalive := hmove.counters.keepalive
  change s.pool.mem.jobqueue.len ≤ _ at hlen
  change _ + (s.pool.mem.history.accepted.length : Int) = s.pool.mem.jobqueue.len + _ at hfiled
  constructor
  · have hretired := h.retired
    change _ ≤ sh.2.history.accepted.length
    lia
  · intro hused
    have hbefore := h.filed hused
    change sh.2.jobqueue.len + _ + _ ≤ (sh.2.history.accepted.length : Int)
    lia
  · intro hused
    exact le_trans (h.entered hused) hlen
  · intro hon
    have hbefore := h.spare (hkeep.symm.trans hon)
    have hspares := hmove.spares
    have hpushing := @pushing_after n m fn arg s sh asleep (.client j) next
      s.pool.threads.owner
    unfold Spares at hspares
    rw [Frame.standing_token, Frame.standing_token] at hspares
    change (sh.2.v : Int) + 0 + _ + s.pool.mem.jobqueue.len ≤
      s.pool.mem.v + 0 + _ + sh.2.jobqueue.len at hspares
    change _ + (s.pool.client j).standing.pushing.toNat =
      _ + next.standing.pushing.toNat at hpushing
    change (sh.2.v : Int) + s.tokens + _ ≤ sh.2.jobqueue.len
    lia
  · exact h.carrying

theorem tokens_of_fresh (hstage : StageInv s)
    (hphase : s.pool.owner.phase = .fresh) (hinit : s.pool.owner.initReturned = false) :
    s.pool.mem.v = 0 ∧ s.pool.mem.jobqueue.len = 0 ∧ s.tokens = 0 ∧ s.pushing = 0 := by
  rcases hstage.unused (Or.inl hphase) with ⟨hmem, hunborn⟩
  have hv : s.pool.mem.quiet.v = 0 := by rw [hmem]
  have hlen : s.pool.mem.quiet.jobqueue.len = 0 := by
    rw [hmem]
    rfl
  have hworker : forall i, s.pool.standing (.worker i) = {} := by
    intro i
    change (s.pool.worker i).standing = {}
    rw [hunborn i]
    rfl
  refine ⟨hv, hlen, countWhere_eq_zero.mpr ?_, countWhere_eq_zero.mpr ?_⟩
  · intro i
    change (s.pool.standing (.worker i)).token = false
    rw [hworker i]
  · intro t
    cases t with
    | worker i =>
        rw [hworker i]
        rfl
    | client j =>
        change (s.pool.client j).standing.pushing = false
        rw [hstage.outside hinit j]
        rfl
    | owner => exact OwnerPc.pushing_standing _

theorem WorkInv.owner (h : WorkInv s g) (hstage : StageInv s) {next : OwnerPc}
    {w : Wake Cond} (hmove : OwnerMove s.shared s.pool.owner sh next w) :
    WorkInv (s.after sh { s.pool.threads with
        loc := Function.update s.pool.threads.loc .owner next
        asleep := asleep }) g := by
  have hunused : s.pool.owner.phase = .allocating -> s.shared.2.quiet = {} :=
    fun hp => (hstage.unused (Or.inr hp)).1
  have haccepted : sh.2.history.accepted = s.pool.mem.history.accepted := hmove.accepted
  have hnext : (s.after sh { s.pool.threads with
      loc := Function.update s.pool.threads.loc .owner next
      asleep := asleep }).pool.owner = next := owner_after s sh
  constructor
  · change _ ≤ sh.2.history.accepted.length
    rw [haccepted]
    exact h.retired
  · rw [hnext]
    intro hused
    change sh.2.jobqueue.len + _ + _ ≤ (sh.2.history.accepted.length : Int)
    rw [haccepted, (hmove.queue hunused hused).1]
    exact h.filed (hmove.released hused)
  · rw [hnext]
    intro hused
    change _ ≤ sh.2.jobqueue.len
    rw [(hmove.queue hunused hused).1]
    exact h.entered (hmove.released hused)
  · intro hon
    change sh.1.threadsKeepalive = true at hon
    have hphase : next.phase.keepalive ≠ some false := by
      intro hoff
      rw [hmove.keepalive hstage.keepalive false hoff] at hon
      cases hon
    have hused : next.phase.released = false := by
      cases hp : next.phase <;> first | rfl | (rw [hp] at hphase; exact (hphase rfl).elim)
    rcases hmove.queue hunused hused with ⟨hqueue, hv⟩
    have hpushing := @pushing_after n m fn arg s sh asleep .owner next s.pool.threads.owner
    change _ + s.pool.owner.standing.pushing.toNat =
      _ + next.standing.pushing.toNat at hpushing
    rw [OwnerPc.pushing_standing, OwnerPc.pushing_standing] at hpushing
    have hbefore : (s.pool.mem.v : Int) + s.tokens + s.pushing ≤ s.pool.mem.jobqueue.len := by
      cases hkeep : s.flags.threadsKeepalive with
      | true => exact h.spare hkeep
      | false =>
          have hstart := hmove.turns_on hkeep hon
          rcases tokens_of_fresh hstage (by rw [hstart]; rfl) (by rw [hstart]; rfl) with
            ⟨hv0, hlen0, htokens0, hpushing0⟩
          lia
    change (sh.2.v : Int) + s.tokens + _ ≤ sh.2.jobqueue.len
    rw [hqueue, hv.resolve_right hphase]
    change (s.pool.mem.v : Int) + s.tokens + _ ≤ s.pool.mem.jobqueue.len
    change _ + 0 = _ + 0 at hpushing
    lia
  · exact h.carrying

end Step

theorem WorkInv.sync {s : Process n m fn arg} {g : Ledger n} (h : WorkInv s g)
    {t : Tid n m} {next : Loc n m fn arg t} {owner : Mutex -> Option (Tid n m)}
    {asleep : Tid n m -> Option Cond}
    (hsync : (thpoolCode t (s.pool.threads.loc t)).syncNext = some next) :
    WorkInv (s.after s.shared
      { owner := owner
        loc := Function.update s.pool.threads.loc t next
        asleep := asleep }) g := by
  refine h.congr rfl rfl rfl rfl ?_ (standing_after_sync s s.shared hsync) ?_
  · cases t with
    | worker | client => rfl
    | owner => exact (ownerCode_syncNext_phase hsync).1
  · intro i
    rcases worker_after_sync s s.shared hsync i with hsame | hnext
    · rw [hsame]
    · exact threadDo_syncNext_entered hnext

theorem workInv_step {s s' : Process n m fn arg} {g : Ledger n} {a : Action n m fn arg}
    (hlock : LockInv s) (hstage : StageInv s) (hserves : s.Serves) (hout : CountedOut s)
    (h : WorkInv s g) (hok : SparePost s a) (hstep : step s a = some s') :
    WorkInv s' (Ledger.write s a s' g) := by
  cases moves_of_step hstep with
  | deliver => exact h.congr rfl rfl rfl rfl rfl rfl (fun _ => rfl)
  | @hold i l _ => cases l <;> exact h.congr rfl rfl rfl rfl rfl rfl (fun _ => rfl)
  | thread _ hfire =>
      cases hfire with
      | lock _ hinstr _ | unlock _ hinstr _ | wait _ hinstr _ =>
          rw [write_of_sync (by rw [hinstr]; rfl)]
          exact h.sync (by rw [hinstr]; rfl)
      | spurious => exact h.congr rfl rfl rfl rfl rfl rfl (fun _ => rfl)
      | @act t _ _ _ next _ asleep _ hacts _ =>
          cases t with
          | client j => exact h.client (userMove_of_acts hacts)
          | owner => exact h.owner hstage (ownerMove_of_acts hacts)
          | worker i =>
              have hmove := workerMove_of_acts hacts
              change WorkInv _ (g.turn i (s.pool.worker i)
                (Function.update s.pool.threads.loc (.worker i) next (.worker i)))
              rw [Function.update_self]
              exact h.worker hlock hserves hout hmove hok

/-!
## No idle thread is counted
-/

theorem workInv_initial : WorkInv (Process.initial : Process n m fn arg) {} where
  retired := le_refl 0
  filed := by
    intro _
    rw [countWhere_eq_zero.mpr (fun _ => rfl)]
    rfl
  entered := by
    intro _
    rw [Process.entered, countWhere_eq_zero.mpr (fun _ => rfl)]
    rfl
  spare := by
    intro hon
    cases hon
  carrying := by
    intro i hi
    cases hi

theorem reachable_workInv {x : Process n m fn arg × Ledger n}
    (h : (watched n m fn arg).ReachableUnder (fun x a => SparePost x.1 a) x) :
    StageInv x.1 ∧ CountedOut x.1 ∧ WorkInv x.1 x.2 := by
  have hinv : LockInv x.1 ∧ StageInv x.1 ∧ x.1.Serves ∧ CountedOut x.1 ∧
      WorkInv x.1 x.2 := by
    apply System.ReachableUnder.invariant _ _ h
    · intro hparts hparts'
      rcases hparts with ⟨s, g⟩
      rcases hparts' with ⟨hs, hg⟩
      rw [show s = Process.initial from hs, show g = {} from hg]
      exact ⟨lockInv_initial, stageInv_initial, serves_initial,
        (fun hafter => nomatch hafter), workInv_initial⟩
    · intro hparts hparts' a hparts'' hok hstep
      rcases hparts with ⟨s, g⟩
      rcases hparts' with ⟨s', g'⟩
      rcases hparts'' with ⟨hlock, hstage, hserves, hout, hwork⟩
      rcases Option.map_eq_some_iff.mp hstep with ⟨t, hone, heq⟩
      cases heq
      exact ⟨lockInv_step hlock hone, stageInv_step hstage hone,
        serves_step hstage hserves hone, countedOut_step hstage hout hone,
        workInv_step hlock hstage hserves hout hwork hok hone⟩
  exact ⟨hinv.2.1, hinv.2.2.2.1, hinv.2.2.2.2⟩

theorem WorkerPc.working_cases {l : WorkerPc fn arg} (h : l.standing.working = true) :
    l.entered = true ∨ l.pulled = true := by
  cases l with
  | pull p =>
      cases hp : p.token
      · exact Or.inr (by simp [pulled, standing, Standing.alive, hp])
      · exact Or.inl hp
  | workingUnlock => exact Or.inl rfl
  | got | running | free | doneLock | doneDec => exact Or.inr rfl
  | _ => cases h

/-- If no post of `jobqueue_pull` makes a token without a job behind it, the number
of working threads is at most the number of outstanding jobs.  It is never negative
and never exceeds the number of workers. -/
theorem thpool_working_at_most_outstanding {x : Process n m fn arg × Ledger n}
    (hreach : (watched n m fn arg).ReachableUnder (fun x a => SparePost x.1 a) x) :
    x.1.pool.mem.numThreadsWorking ≤ outstanding x ∧
      0 ≤ x.1.pool.mem.numThreadsWorking ∧ x.1.pool.mem.numThreadsWorking ≤ n := by
  rcases reachable_workInv hreach with ⟨hstage, hout, h⟩
  have hcard := countWhere_le_card Standing.working x.1.pool.workerStanding
  rw [Fintype.card_fin] at hcard
  have hworking := hstage.working
  refine ⟨?_, by lia, by lia⟩
  unfold outstanding
  have hretired := h.retired
  cases hreleased : x.1.pool.owner.phase.released with
  | true =>
      have hidle : countWhere Standing.working x.1.pool.workerStanding = 0 := by
        apply countWhere_eq_zero.mpr
        intro i
        change (x.1.pool.worker i).standing.working = false
        rcases hout hreleased i with hi | hi
        · rw [hi]
          rfl
        · rw [hi]
          rfl
      lia
  | false =>
      have hsplit : countWhere Standing.working x.1.pool.workerStanding ≤
          x.1.entered + countWhere id x.2.carrying := by
        apply countWhere_le_add
        intro i hi
        exact (WorkerPc.working_cases hi).imp id (h.carrying i)
      have hentered := h.entered hreleased
      have hfiled := h.filed hreleased
      lia

/-- The one worker has pulled the only job and runs it. -/
theorem thpool_working_at_most_outstanding_one :
    exists x : Process 1 1 Unit Unit × Ledger 1,
      x.1.pool.mem.numThreadsWorking = 1 ∧ 1 ≤ outstanding x := by
  have hrun : exists x, (watched 1 1 Unit Unit).ReachableUnder
      (fun x a => SparePost x.1 a) x ∧ x.1.pool.mem.numThreadsWorking = 1 :=
    System.reachableUnder_of_execUnder (s := (Process.initial, {}))
      (runOneJob 0 0) ⟨rfl, rfl⟩ (by decide)
  rcases hrun with ⟨x, hreach, hworking⟩
  have hle := (thpool_working_at_most_outstanding hreach).1
  exact ⟨x, hworking, hworking ▸ hle⟩

def startTwo (i j : Fin n) : List (Action n m fn arg) :=
  Tid.owner.steps 6 ++ (Tid.worker i).steps 4 ++ (Tid.worker j).steps 4 ++ Tid.owner.steps 1

/-- A client adds a job at address `p`, and worker `i` takes the token and is counted. -/
def addAndTake (c : Fin m) (p : Ptr) (i : Fin n) : List (Action n m Unit Unit) :=
  (Tid.client c).chooses (.addWork () () (some p)) ++ (Tid.client c).steps 6 ++
    (Tid.worker i).steps 8

/-- Worker `i` pulls and posts for the job left behind, runs its own job, and comes
back for the token. -/
def pullAndReturn (i : Fin n) : List (Action n m Unit Unit) :=
  (Tid.worker i).steps 7 ++ (Tid.worker i).chooses .ret ++ (Tid.worker i).steps 11

/-- Two workers have taken a token each when the first of them pulls.  It posts for
the job that the second is about to pull, and takes that token itself later. -/
theorem thpool_working_counts_idle :
    exists x : Process 2 1 Unit Unit × Ledger 2, (watched 2 1 Unit Unit).Reachable x ∧
      outstanding x = 1 ∧ x.1.pool.mem.numThreadsWorking = 2 :=
  System.reachable_of_exec (s := (Process.initial, {}))
    (startTwo 0 1 ++ addAndTake 0 0 0 ++ addAndTake 0 1 1 ++ pullAndReturn 0)
    ⟨rfl, rfl⟩ (by decide)

end Thpool
end PracticeHand
