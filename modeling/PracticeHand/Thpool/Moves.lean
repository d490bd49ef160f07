import PracticeHand.Thpool.Process

/-!
# The memory steps of each thread

The instructions that work on the shared memory, listed with their guards and
effects: for user code inside a call of the interface, for a worker, and for
the owner.  A step is either one of these or only locks, unlocks or goes to
sleep.
-/

namespace PracticeHand
namespace Thpool

open Concurrency

variable {n : Nat} {fn arg : Type}

/-!
## The sections of the job queue
-/

theorem linkJob_cases {caller : Option Ptr} {newjob : Ptr}
    {s s' : Shared n fn arg} (h : linkJob caller newjob s = some s') :
    exists node heap q, s.2.heap newjob = some node ∧
      pushSection s.2.heap s.2.jobqueue newjob = some (heap, q) ∧
      s' = onPool (fun m => { m with
        heap := heap
        jobqueue := q
        history := { s.2.history with
          requested := s.2.history.requested ++ [s.2.history.asked newjob]
          accepted := s.2.history.accepted ++
            [{ function := node.function, arg := node.arg,
               parent := caller.map s.2.history.ticketOf }]
          ticketOf := Function.update s.2.history.ticketOf newjob
            s.2.history.accepted.length } }) s := by
  simp only [linkJob, Option.bind_eq_bind, Option.bind_eq_some_iff,
    Option.pure_def, Option.some.injEq] at h
  rcases h with ⟨node, hnode, ⟨heap, q⟩, hpush, rfl⟩
  exact ⟨node, heap, q, hnode, hpush, rfl⟩

theorem takeJob_cases {puller : Option (Fin n)} {s s' : Shared n fn arg}
    {p : PullPc} (h : takeJob puller s = some (s', p)) :
    (exists q more, pullSection s.2.heap s.2.jobqueue = some (none, q, more) ∧
      p = .unlock none ∧ s' = onPool (fun m => { m with jobqueue := q }) s) ∨
    exists job q more,
      pullSection s.2.heap s.2.jobqueue = some (some job, q, more) ∧
      p = (if more then .post job .lock else .unlock (some job)) ∧
      s' = onPool (fun m => { m with
        jobqueue := q
        history := { m.history with
          handed := m.history.handed ++
            [{ puller := puller, ticket := m.history.ticketOf job }] } }) s := by
  unfold takeJob at h
  split at h
  · cases h
  · rename_i q more hpull
    cases h
    exact Or.inl ⟨q, more, hpull, rfl, rfl⟩
  · rename_i job q more hpull
    cases h
    exact Or.inr ⟨job, q, more, hpull, rfl, rfl⟩

theorem freeJob_cases {s s' : Shared n fn arg} {job : Option Ptr}
    (h : freeJob s job = some s') :
    (job = none ∧ s' = s) ∨
    exists p, job = some p ∧ s.2.heap p ≠ none ∧
      s' = onPool (fun m => { m with
        heap := Function.update m.heap p none
        history := { m.history with
          freed := m.history.freed ++ [m.history.ticketOf p] } }) s := by
  cases job with
  | none =>
      cases h
      exact Or.inl ⟨rfl, rfl⟩
  | some p =>
      simp only [freeJob] at h
      split at h
      · cases h
      · rename_i halloc
        cases h
        exact Or.inr ⟨p, rfl, halloc, rfl⟩

/-!
## User code
-/

inductive UserMove (caller : Option Ptr) :
    Shared n fn arg -> Frame -> Shared n fn arg -> Frame -> Wake Cond -> Prop where
  | refused {s : Shared n fn arg} : UserMove caller s .user s .user .nobody
  | alloc {s : Shared n fn arg} {p : Ptr} {function : fn} {arg' : arg} :
      s.2.heap p = none ->
      UserMove caller s .user
        (allocJob p function arg' (noteAddWork p function arg' s))
        (.push p .lock) .nobody
  | waitCall {s : Shared n fn arg} :
      UserMove caller s .user s (.wait .lock) .nobody
  | pauseCall {s : Shared n fn arg} :
      UserMove caller s .user (noteHoldCall .pause s) (.pause 0) .nobody
  | resume {s : Shared n fn arg} :
      UserMove caller s .user (thpoolResume s) .user .nobody
  | link {s s' : Shared n fn arg} {newjob : Ptr} :
      linkJob caller newjob s = some s' ->
      UserMove caller s (.push newjob .link) s' (.push newjob (.post .lock)) .nobody
  | post {s : Shared n fn arg} {newjob : Ptr} :
      UserMove caller s (.push newjob (.post .set)) (setV 1 s)
        (.push newjob (.post .unlock)) (.signal .hasJobsCond)
  | lenPos {s : Shared n fn arg} : s.2.jobqueue.len ≠ 0 ->
      UserMove caller s (.wait .len) s (.wait .sleep) .nobody
  | lenZero {s : Shared n fn arg} : s.2.jobqueue.len = 0 ->
      UserMove caller s (.wait .len) s (.wait .working) .nobody
  | workPos {s : Shared n fn arg} : s.2.numThreadsWorking ≠ 0 ->
      UserMove caller s (.wait .working) s (.wait .sleep) .nobody
  | workZero {s : Shared n fn arg} : s.2.numThreadsWorking = 0 ->
      UserMove caller s (.wait .working) s (.wait .unlock) .nobody
  | kill {s : Shared n fn arg} {k : Nat} (h : k < n) :
      UserMove caller s (.pause k) (raiseSigusr1 ⟨k, h⟩ s) (.pause (k + 1)) .nobody
  | pauseEnd {s : Shared n fn arg} {k : Nat} :
      UserMove caller s (.pause k) s .user .nobody

theorem userMove_of_apiCall {caller : Option Ptr} {s s' : Shared n fn arg}
    {c : Choice fn arg} {f : Frame} (h : apiCall s c = some (s', f)) :
    UserMove caller s .user s' f .nobody := by
  cases c with
  | addWork function arg' addr =>
      cases addr with
      | none =>
          simp only [apiCall, thpoolAddWork] at h
          cases h
          exact UserMove.refused
      | some p =>
          simp only [apiCall, thpoolAddWork] at h
          split at h
          · rename_i hfree
            cases h
            exact UserMove.alloc hfree
          · cases h
  | wait =>
      cases h
      exact UserMove.waitCall
  | pause =>
      cases h
      exact UserMove.pauseCall
  | resume =>
      cases h
      exact UserMove.resume
  | go | ret | clock | destroy => cases h

theorem userMove_of_acts {caller : Option Ptr} {s s' : Shared n fn arg}
    {c : Choice fn arg} {f f' : Frame} {w : Wake Cond}
    (h : (userCode caller f).Acts s c s' f' w) :
    UserMove caller s f s' f' w := by
  cases f with
  | user =>
      rw [userCode, Instr.acts_act] at h
      rcases Option.map_eq_some_iff.mp h with ⟨⟨s1, f1⟩, hcall, heq⟩
      cases heq
      exact userMove_of_apiCall hcall
  | push newjob p =>
      rcases Instr.acts_map.mp h with ⟨l, hl, rfl⟩
      cases p with
      | lock | unlock => cases hl
      | link =>
          rcases Option.map_eq_some_iff.mp hl with ⟨s1, hlink, heq⟩
          cases heq
          exact UserMove.link hlink
      | post q =>
          rcases Instr.acts_map.mp hl with ⟨k, hk, rfl⟩
          cases q with
          | lock | unlock => cases hk
          | set =>
              cases hk
              exact UserMove.post
  | wait p =>
      rcases Instr.acts_map.mp h with ⟨l, hl, rfl⟩
      cases p with
      | lock | sleep | relock | unlock => cases hl
      | len =>
          rw [thpoolWait, Instr.acts_test] at hl
          rcases hl with ⟨rfl, rfl, rfl⟩
          by_cases hlen : s'.2.jobqueue.len = 0
          · simpa [hlen, Flow.elim] using UserMove.lenZero hlen
          · simpa [hlen, Flow.elim] using UserMove.lenPos hlen
      | working =>
          rw [thpoolWait, Instr.acts_test] at hl
          rcases hl with ⟨rfl, rfl, rfl⟩
          by_cases hwork : s'.2.numThreadsWorking = 0
          · simpa [hwork, Flow.elim] using UserMove.workZero hwork
          · simpa [hwork, Flow.elim] using UserMove.workPos hwork
  | pause k =>
      rw [userCode, Instr.acts_act] at h
      rcases Option.map_eq_some_iff.mp h with ⟨⟨s1, f1⟩, hturn, heq⟩
      cases heq
      unfold thpoolPause at hturn
      split at hturn
      · split at hturn
        · rename_i hk
          cases hturn
          exact UserMove.kill hk
        · cases hturn
      · cases hturn
        exact UserMove.pauseEnd

/-!
## Workers
-/

inductive WorkerMove (i : Fin n) : Shared n fn arg -> WorkerPc fn arg ->
    Shared n fn arg -> WorkerPc fn arg -> Wake Cond -> Prop where
  | born {s : Shared n fn arg} : i.val < s.2.created ->
      WorkerMove i s .unborn s .aliveLock .nobody
  | aliveInc {s : Shared n fn arg} :
      WorkerMove i s .aliveInc (addAlive 1 s) .aliveUnlock .nobody
  | loopOn {s : Shared n fn arg} : s.1.threadsKeepalive = true ->
      WorkerMove i s .loop s (.bsem .lock) .nobody
  | loopOff {s : Shared n fn arg} : s.1.threadsKeepalive = false ->
      WorkerMove i s .loop s .exitLock .nobody
  | noToken {s : Shared n fn arg} : s.2.v ≠ 1 ->
      WorkerMove i s (.bsem .test) s (.bsem .sleep) .nobody
  | token {s : Shared n fn arg} : s.2.v = 1 ->
      WorkerMove i s (.bsem .test) (setV 0 s) (.bsem .unlock) .nobody
  | checkOn {s : Shared n fn arg} : s.1.threadsKeepalive = true ->
      WorkerMove i s .check s .workingLock .nobody
  | checkOff {s : Shared n fn arg} : s.1.threadsKeepalive = false ->
      WorkerMove i s .check s .loop .nobody
  | workingInc {s : Shared n fn arg} :
      WorkerMove i s .workingInc (addWorking 1 s) .workingUnlock .nobody
  | take {s s' : Shared n fn arg} {p : PullPc} :
      takeJob (some i) s = some (s', p) ->
      WorkerMove i s (.pull .take) s' (.pull p) .nobody
  | pullPost {s : Shared n fn arg} {job : Ptr} :
      WorkerMove i s (.pull (.post job .set)) (setV 1 s)
        (.pull (.post job .unlock)) (.signal .hasJobsCond)
  | gotNull {s : Shared n fn arg} :
      WorkerMove i s (.got none) s .doneLock .nobody
  | call {s : Shared n fn arg} {job : Ptr} {node : Job fn arg} :
      s.2.heap job = some node ->
      WorkerMove i s (.got (some job)) (callJob i job node.function node.arg s)
        (.running job node.function node.arg .user) .nobody
  | user {s s' : Shared n fn arg} {job : Ptr} {function : fn} {arg' : arg}
      {f f' : Frame} {w : Wake Cond} :
      UserMove (some job) s f s' f' w ->
      WorkerMove i s (.running job function arg' f) s'
        (.running job function arg' f') w
  | ret {s : Shared n fn arg} {job : Ptr} {function : fn} {arg' : arg} :
      WorkerMove i s (.running job function arg' .user) (returnJob job s)
        (.free job) .nobody
  | free {s s' : Shared n fn arg} {job : Ptr} :
      freeJob s (some job) = some s' ->
      WorkerMove i s (.free job) s' .doneLock .nobody
  | doneDec {s : Shared n fn arg} :
      WorkerMove i s .doneDec (addWorking (-1) s) .doneUnlock
        (if s.2.numThreadsWorking - 1 = 0 then .signal .threadsAllIdle
         else .nobody)
  | exitDec {s : Shared n fn arg} :
      WorkerMove i s .exitDec (addAlive (-1) s) .exitUnlock .nobody

theorem workerMove_of_acts {i : Fin n} {s s' : Shared n fn arg}
    {c : Choice fn arg} {l l' : WorkerPc fn arg} {w : Wake Cond}
    (h : (threadDo i l).Acts s c s' l' w) : WorkerMove i s l s' l' w := by
  cases l with
  | aliveLock | aliveUnlock | workingLock | workingUnlock | doneLock |
      doneUnlock | exitLock | exitUnlock => cases h
  | exited => simp [threadDo] at h
  | unborn =>
      rw [threadDo, Instr.acts_act] at h
      split at h
      · rename_i hborn
        cases h
        exact WorkerMove.born hborn
      · cases h
  | aliveInc =>
      cases h
      exact WorkerMove.aliveInc
  | loop =>
      rw [threadDo, Instr.acts_test] at h
      rcases h with ⟨rfl, rfl, rfl⟩
      cases hk : s'.1.threadsKeepalive with
      | false => simpa using WorkerMove.loopOff hk
      | true => simpa using WorkerMove.loopOn hk
  | bsem p =>
      rcases Instr.acts_map.mp h with ⟨k, hk, rfl⟩
      cases p with
      | lock | sleep | relock | unlock => cases hk
      | test =>
          rw [bsemWait, Instr.acts_act] at hk
          split at hk
          · rename_i hv
            cases hk
            exact WorkerMove.noToken hv
          · rename_i hv
            cases hk
            exact WorkerMove.token (not_not.mp hv)
  | check =>
      rw [threadDo, Instr.acts_test] at h
      rcases h with ⟨rfl, rfl, rfl⟩
      cases hk : s'.1.threadsKeepalive with
      | false => simpa using WorkerMove.checkOff hk
      | true => simpa using WorkerMove.checkOn hk
  | workingInc =>
      cases h
      exact WorkerMove.workingInc
  | pull p =>
      rcases Instr.acts_map.mp h with ⟨k, hk, rfl⟩
      cases p with
      | lock | unlock => cases hk
      | take =>
          rcases Option.map_eq_some_iff.mp hk with ⟨⟨s1, p1⟩, htake, heq⟩
          cases heq
          exact WorkerMove.take htake
      | post job q =>
          rcases Instr.acts_map.mp hk with ⟨r, hr, rfl⟩
          cases q with
          | lock | unlock => cases hr
          | set =>
              cases hr
              exact WorkerMove.pullPost
  | got job =>
      cases job with
      | none =>
          cases h
          exact WorkerMove.gotNull
      | some job =>
          rcases Option.map_eq_some_iff.mp h with ⟨node, hnode, heq⟩
          cases heq
          exact WorkerMove.call hnode
  | running job function arg' f =>
      cases f with
      | user =>
          rw [threadDo, Instr.acts_act] at h
          cases c with
          | ret =>
              cases h
              exact WorkerMove.ret
          | go | addWork | wait | pause | resume | clock | destroy =>
              rcases Option.map_eq_some_iff.mp h with ⟨⟨s1, f1⟩, hcall, heq⟩
              cases heq
              exact WorkerMove.user (userMove_of_apiCall hcall)
      | push | wait | pause =>
          simp only [threadDo] at h
          rcases Instr.acts_map.mp h with ⟨f1, hf1, rfl⟩
          exact WorkerMove.user (userMove_of_acts hf1)
  | free job =>
      rcases Option.map_eq_some_iff.mp h with ⟨s1, hfree, heq⟩
      cases heq
      exact WorkerMove.free hfree
  | doneDec =>
      cases h
      exact WorkerMove.doneDec
  | exitDec =>
      cases h
      exact WorkerMove.exitDec

/-!
## The owner
-/

inductive OwnerMove : Shared n fn arg -> OwnerPc ->
    Shared n fn arg -> OwnerPc -> Wake Cond -> Prop where
  | initHold {s : Shared n fn arg} :
      OwnerMove s .initHold (setOnHold false s) .initKeepalive .nobody
  | initKeepalive {s : Shared n fn arg} :
      OwnerMove s .initKeepalive (setKeepalive true s) .initAlloc .nobody
  | initAlloc {s : Shared n fn arg} :
      OwnerMove s .initAlloc (initFields s) (.initThread 0) .nobody
  | create {s : Shared n fn arg} {k : Nat} : k < n ->
      OwnerMove s (.initThread k) (createThread k s) (.initThread (k + 1)) .nobody
  | allCreated {s : Shared n fn arg} {k : Nat} : n ≤ k ->
      OwnerMove s (.initThread k) s .initWait .nobody
  | spin {s : Shared n fn arg} :
      OwnerMove s .initWait s .initWait .nobody
  | allAlive {s : Shared n fn arg} : s.2.numThreadsAlive = n ->
      OwnerMove s .initWait s .ready .nobody
  | destroy {s : Shared n fn arg} :
      OwnerMove s .ready s (.keepalive s.2.numThreadsAlive) .nobody
  | keepaliveOff {s : Shared n fn arg} {total : Int} :
      OwnerMove s (.keepalive total) (setKeepalive false s) (.pollFirst total)
        .nobody
  | pollFirst {s : Shared n fn arg} {total : Int} :
      OwnerMove s (.pollFirst total) s (.postFirst total .lock) .nobody
  | pollFirstEnd {s : Shared n fn arg} {total : Int} :
      OwnerMove s (.pollFirst total) s (.pollRest total) .nobody
  | postFirst {s : Shared n fn arg} {total : Int} :
      OwnerMove s (.postFirst total .set) (setV 1 s) (.postFirst total .unlock)
        (.broadcast .hasJobsCond)
  | pollRest {s : Shared n fn arg} {total : Int} : s.2.numThreadsAlive ≠ 0 ->
      OwnerMove s (.pollRest total) s (.postRest total .lock) .nobody
  | pollRestEnd {s : Shared n fn arg} {total : Int} :
      s.2.numThreadsAlive = 0 ->
      OwnerMove s (.pollRest total) s (.clearTest total) .nobody
  | postRest {s : Shared n fn arg} {total : Int} :
      OwnerMove s (.postRest total .set) (setV 1 s) (.postRest total .unlock)
        (.broadcast .hasJobsCond)
  | clearMore {s : Shared n fn arg} {total : Int} : s.2.jobqueue.len ≠ 0 ->
      OwnerMove s (.clearTest total) s (.clearPull total .lock) .nobody
  | clearEnd {s : Shared n fn arg} {total : Int} : s.2.jobqueue.len = 0 ->
      OwnerMove s (.clearTest total) s (.clearReset total) .nobody
  | clearTake {s s' : Shared n fn arg} {total : Int} {p : PullPc} :
      takeJob none s = some (s', p) ->
      OwnerMove s (.clearPull total .take) s' (.clearPull total p) .nobody
  | clearPost {s : Shared n fn arg} {total : Int} {job : Ptr} :
      OwnerMove s (.clearPull total (.post job .set)) (setV 1 s)
        (.clearPull total (.post job .unlock)) (.signal .hasJobsCond)
  | clearFree {s s' : Shared n fn arg} {total : Int} {job : Option Ptr} :
      freeJob s job = some s' ->
      OwnerMove s (.clearFree total job) s' (.clearTest total) .nobody
  | clearReset {s : Shared n fn arg} {total : Int} :
      OwnerMove s (.clearReset total) (clearFields s) (.freeHasJobs total) .nobody
  | freeHasJobs {s : Shared n fn arg} {total : Int} :
      OwnerMove s (.freeHasJobs total) s (.freeThread total 0) .nobody
  | freeThread {s : Shared n fn arg} {total : Int} {k : Nat} :
      OwnerMove s (.freeThread total k) s (.freeThread total (k + 1)) .nobody
  | freeThreadEnd {s : Shared n fn arg} {total : Int} {k : Nat} :
      OwnerMove s (.freeThread total k) s .freeThreads .nobody
  | freeThreads {s : Shared n fn arg} :
      OwnerMove s .freeThreads s .freePool .nobody
  | freePool {s : Shared n fn arg} :
      OwnerMove s .freePool s .gone .nobody

theorem ownerMove_of_acts {s s' : Shared n fn arg} {c : Choice fn arg}
    {l l' : OwnerPc} {w : Wake Cond}
    (h : (ownerCode l : Code n fn arg OwnerPc).Acts s c s' l' w) :
    OwnerMove s l s' l' w := by
  cases l with
  | gone => simp [ownerCode] at h
  | initHold =>
      cases h
      exact OwnerMove.initHold
  | initKeepalive =>
      cases h
      exact OwnerMove.initKeepalive
  | initAlloc =>
      cases h
      exact OwnerMove.initAlloc
  | initThread k =>
      rw [ownerCode, Instr.acts_act] at h
      split at h
      · rename_i hk
        cases h
        exact OwnerMove.create hk
      · rename_i hk
        cases h
        exact OwnerMove.allCreated (not_lt.mp hk)
  | initWait =>
      rw [ownerCode, Instr.acts_test] at h
      rcases h with ⟨rfl, rfl, rfl⟩
      by_cases halive : s'.2.numThreadsAlive = n
      · simpa [halive] using OwnerMove.allAlive halive
      · simpa [halive] using OwnerMove.spin
  | ready =>
      rw [ownerCode, Instr.acts_act] at h
      cases c with
      | destroy =>
          cases h
          exact OwnerMove.destroy
      | go | addWork | wait | pause | resume | ret | clock => cases h
  | keepalive total =>
      cases h
      exact OwnerMove.keepaliveOff
  | pollFirst total =>
      rw [ownerCode, Instr.acts_act] at h
      cases c with
      | clock expired =>
          by_cases hmore : expired = false ∧ s.2.numThreadsAlive ≠ 0
          · simp only [if_pos hmore] at h
            cases h
            exact OwnerMove.pollFirst
          · simp only [if_neg hmore] at h
            cases h
            exact OwnerMove.pollFirstEnd
      | go | addWork | wait | pause | resume | ret | destroy => cases h
  | postFirst total p =>
      rcases Instr.acts_map.mp h with ⟨k, hk, rfl⟩
      cases p with
      | lock | unlock => cases hk
      | set =>
          cases hk
          exact OwnerMove.postFirst
  | pollRest total =>
      rw [ownerCode, Instr.acts_test] at h
      rcases h with ⟨rfl, rfl, rfl⟩
      by_cases halive : s'.2.numThreadsAlive = 0
      · simpa [halive] using OwnerMove.pollRestEnd halive
      · simpa [halive] using OwnerMove.pollRest halive
  | postRest total p =>
      rcases Instr.acts_map.mp h with ⟨k, hk, rfl⟩
      cases p with
      | lock | unlock => cases hk
      | set =>
          cases hk
          exact OwnerMove.postRest
  | clearTest total =>
      rw [ownerCode, Instr.acts_test] at h
      rcases h with ⟨rfl, rfl, rfl⟩
      by_cases hlen : s'.2.jobqueue.len = 0
      · simpa [hlen] using OwnerMove.clearEnd hlen
      · simpa [hlen] using OwnerMove.clearMore hlen
  | clearPull total p =>
      rcases Instr.acts_map.mp h with ⟨k, hk, rfl⟩
      cases p with
      | lock | unlock => cases hk
      | take =>
          rcases Option.map_eq_some_iff.mp hk with ⟨⟨s1, p1⟩, htake, heq⟩
          cases heq
          exact OwnerMove.clearTake htake
      | post job q =>
          rcases Instr.acts_map.mp hk with ⟨r, hr, rfl⟩
          cases q with
          | lock | unlock => cases hr
          | set =>
              cases hr
              exact OwnerMove.clearPost
  | clearFree total job =>
      rcases Option.map_eq_some_iff.mp h with ⟨s1, hfree, heq⟩
      cases heq
      exact OwnerMove.clearFree hfree
  | clearReset total =>
      cases h
      exact OwnerMove.clearReset
  | freeHasJobs total =>
      cases h
      exact OwnerMove.freeHasJobs
  | freeThread total k =>
      rw [ownerCode, Instr.acts_test] at h
      rcases h with ⟨rfl, rfl, rfl⟩
      by_cases hk : (k : Int) < total
      · simpa [hk] using OwnerMove.freeThread
      · simpa [hk] using OwnerMove.freeThreadEnd
  | freeThreads =>
      cases h
      exact OwnerMove.freeThreads
  | freePool =>
      cases h
      exact OwnerMove.freePool

end Thpool
end PracticeHand
