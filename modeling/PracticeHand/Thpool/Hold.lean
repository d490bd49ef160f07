import PracticeHand.Thpool.Standing

/-!
# Pausing and resuming

`thpool_pause` sends SIGUSR1 to the workers; `threads_on_hold` is set by the
handler of each worker, at whatever moment the signal is delivered.
`thpool_resume` clears the flag once.  A signal that is still on its way then,
or that a call of `thpool_pause` has yet to send, sets it again.
-/

namespace PracticeHand
namespace Thpool

open Concurrency

variable {n m : Nat} {fn arg : Type}

def frameOf : (t : Tid n m) -> Loc n m fn arg t -> Option Frame
  | .worker _, l =>
      match l with
      | .running _ _ _ f => some f
      | _ => none
  | .client _, l => some l
  | .owner, _ => none

def Pool.frame (p : Pool n m fn arg) (t : Tid n m) : Option Frame :=
  frameOf t (p.threads.loc t)

theorem frame_update {p : Pool n m fn arg} {t u : Tid n m}
    {next : Loc n m fn arg t} :
    frameOf u (Function.update p.threads.loc t next u) =
      Function.update p.frame t (frameOf t next) u :=
  Function.apply_update _ p.threads.loc t next u

/-- No SIGUSR1 is pending or between delivery and the assignment of its handler,
and no thread is inside `thpool_pause`. -/
structure Silent (p : Pool n m fn arg) : Prop where
  pending : forall i, p.mem.sigusr1 i = false
  handler : forall i, p.hold i ≠ some .set
  pausing : forall t k, p.frame t ≠ some (.pause k)

def Frame.pausing : Frame -> Bool
  | .pause _ => true
  | _ => false

theorem pausing_iff {f : Option Frame} :
    f.any Frame.pausing = false <-> forall k, f ≠ some (.pause k) := by
  cases f with
  | none => simp
  | some f => cases f <;> simp [Frame.pausing]

instance (p : Pool n m fn arg) : Decidable (Silent p) :=
  decidable_of_iff
    ((forall i, p.mem.sigusr1 i = false) ∧ (forall i, p.hold i ≠ some .set) ∧
      forall t, (p.frame t).any Frame.pausing = false)
    ⟨fun h => ⟨h.1, h.2.1, fun t => pausing_iff.mp (h.2.2 t)⟩,
      fun h => ⟨h.pending, h.handler, fun t => pausing_iff.mpr (h.pausing t)⟩⟩

/-- `thpool_resume` is called only when no signal is on its way. -/
def QuietResume (s : Process n m fn arg) : Action n m fn arg -> Prop
  | .thread (.run t .resume _) => s.pool.frame t = some .user -> Silent s.pool
  | _ => True

instance (s : Process n m fn arg) (a : Action n m fn arg) :
    Decidable (QuietResume s a) :=
  match a with
  | .thread (.run t .resume _) =>
      inferInstanceAs (Decidable (s.pool.frame t = some .user -> Silent s.pool))
  | .thread (.run _ .go _) => inferInstanceAs (Decidable True)
  | .thread (.run _ (.addWork _ _ _) _) => inferInstanceAs (Decidable True)
  | .thread (.run _ .wait _) => inferInstanceAs (Decidable True)
  | .thread (.run _ .pause _) => inferInstanceAs (Decidable True)
  | .thread (.run _ .ret _) => inferInstanceAs (Decidable True)
  | .thread (.run _ (.clock _) _) => inferInstanceAs (Decidable True)
  | .thread (.run _ .destroy _) => inferInstanceAs (Decidable True)
  | .thread (.spurious _) => inferInstanceAs (Decidable True)
  | .deliver _ => inferInstanceAs (Decidable True)
  | .hold _ => inferInstanceAs (Decidable True)

/-!
## Memory steps and the flag
-/

/-- A memory step after which the last call was `thpool_resume`: that call
itself, or a step that sets neither the flag nor a signal unless it belongs to
`thpool_pause`. -/
inductive HoldMove (s s' : Shared n fn arg) (c : Choice fn arg) :
    Option Frame -> Option Frame -> Prop where
  | resume : c = .resume -> s' = thpoolResume s ->
      HoldMove s s' c (some .user) (some .user)
  | pausing {k : Nat} {f : Option Frame} :
      s.2.history.lastHoldCall = some .resume ->
      HoldMove s s' c (some (.pause k)) f
  | other {f f' : Option Frame} :
      s.2.history.lastHoldCall = some .resume ->
      (s.1.threadsOnHold = false -> s'.1.threadsOnHold = false) ->
      s'.2.sigusr1 = s.2.sigusr1 -> (forall k, f' ≠ some (.pause k)) ->
      HoldMove s s' c f f'

theorem holdMove_of_apiCall {s s' : Shared n fn arg} {c : Choice fn arg}
    {f : Frame} (h : apiCall s c = some (s', f))
    (hlast : s'.2.history.lastHoldCall = some .resume) :
    HoldMove s s' c (some .user) (some f) := by
  cases c with
  | addWork function arg' addr =>
      cases addr with
      | none =>
          cases h
          exact HoldMove.other hlast id rfl (by simp)
      | some p =>
          simp only [apiCall, thpoolAddWork] at h
          split at h
          · cases h
            exact HoldMove.other hlast id rfl (by simp)
          · cases h
  | wait =>
      cases h
      exact HoldMove.other hlast id rfl (by simp)
  | pause =>
      cases h
      cases hlast
  | resume =>
      cases h
      exact HoldMove.resume rfl rfl
  | go | ret | clock | destroy => cases h

theorem holdMove_of_userCode {caller : Option Ptr} {s s' : Shared n fn arg}
    {c : Choice fn arg} {f f' : Frame} {w : Wake Cond}
    (h : (userCode caller f).Acts s c s' f' w)
    (hlast : s'.2.history.lastHoldCall = some .resume) :
    HoldMove s s' c (some f) (some f') := by
  cases f with
  | user =>
      rw [userCode, Instr.acts_act] at h
      rcases Option.map_eq_some_iff.mp h with ⟨⟨s1, f1⟩, hcall, heq⟩
      cases heq
      exact holdMove_of_apiCall hcall hlast
  | push newjob p =>
      cases userMove_of_acts h with
      | link hlink =>
          rcases linkJob_cases hlink with ⟨_, _, _, _, _, rfl⟩
          exact HoldMove.other hlast id rfl (by simp)
      | post => exact HoldMove.other hlast id rfl (by simp)
  | wait p =>
      cases userMove_of_acts h <;>
        exact HoldMove.other hlast id rfl (by simp)
  | pause k =>
      cases userMove_of_acts h <;> exact HoldMove.pausing hlast

theorem WorkerMove.holdMove {i : Fin n} {s s' : Shared n fn arg}
    {l l' : WorkerPc fn arg} {w : Wake Cond} {c : Choice fn arg}
    (h : WorkerMove i s l s' l' w)
    (hrunning : forall job function arg' f, l ≠ .running job function arg' f)
    (hlast : s'.2.history.lastHoldCall = some .resume) :
    HoldMove s s' c (frameOf (.worker i : Tid n m) l)
      (frameOf (.worker i : Tid n m) l') := by
  cases h with
  | take htake =>
      rcases takeJob_cases htake with ⟨_, _, _, _, rfl⟩ | ⟨_, _, _, _, _, rfl⟩ <;>
        exact HoldMove.other hlast id rfl (by simp [frameOf])
  | free hfree =>
      rcases freeJob_cases hfree with ⟨_, rfl⟩ | ⟨_, _, _, rfl⟩ <;>
        exact HoldMove.other hlast id rfl (by simp [frameOf])
  | user | ret => exact (hrunning _ _ _ _ rfl).elim
  | _ => exact HoldMove.other hlast id rfl (by simp [frameOf])

theorem holdMove_of_acts {t : Tid n m} {l next : Loc n m fn arg t}
    {s s' : Shared n fn arg} {c : Choice fn arg} {w : Wake Cond}
    (h : (thpoolCode t l).Acts s c s' next w)
    (hlast : s'.2.history.lastHoldCall = some .resume) :
    HoldMove s s' c (frameOf t l) (frameOf t next) := by
  cases t with
  | client j => exact holdMove_of_userCode h hlast
  | owner =>
      cases ownerMove_of_acts h with
      | initHold => exact HoldMove.other hlast (fun _ => rfl) rfl (by simp [frameOf])
      | clearTake htake =>
          rcases takeJob_cases htake with ⟨_, _, _, _, rfl⟩ | ⟨_, _, _, _, _, rfl⟩ <;>
            exact HoldMove.other hlast id rfl (by simp [frameOf])
      | clearFree hfree =>
          rcases freeJob_cases hfree with ⟨_, rfl⟩ | ⟨_, _, _, rfl⟩ <;>
            exact HoldMove.other hlast id rfl (by simp [frameOf])
      | _ => exact HoldMove.other hlast id rfl (by simp [frameOf])
  | worker i =>
      have hacts : (threadDo i l).Acts s c s' next w := h
      cases l with
      | running job function arg' f =>
          cases f with
          | user =>
              simp only [thpoolCode, threadDo, Instr.acts_act] at h
              cases c with
              | ret =>
                  cases h
                  exact HoldMove.other hlast id rfl (by simp [frameOf])
              | go | addWork | wait | pause | resume | clock | destroy =>
                  rcases Option.map_eq_some_iff.mp h with ⟨⟨s1, f1⟩, hcall, heq⟩
                  cases heq
                  exact holdMove_of_apiCall hcall hlast
          | push | wait | pause =>
              simp only [thpoolCode, threadDo] at h
              rcases Instr.acts_map.mp h with ⟨f1, hf1, rfl⟩
              exact holdMove_of_userCode hf1 hlast
      | _ => exact (workerMove_of_acts hacts).holdMove (by simp) hlast

/-!
## The invariant
-/

theorem frameOf_syncNext {t : Tid n m} {l next : Loc n m fn arg t} {k : Nat}
    (h : (thpoolCode t l).syncNext = some next) :
    frameOf t next ≠ some (.pause k) := by
  have huser : forall {caller : Option Ptr} {f f' : Frame},
      (userCode caller f : Code n fn arg Frame).syncNext = some f' ->
      f' ≠ .pause k := by
    intro caller f f' hf
    cases f with
    | user | pause => cases hf
    | push newjob q =>
        cases q with
        | lock | link | unlock => cases hf <;> simp [Flow.elim]
        | post r => cases r <;> cases hf <;> simp [Flow.elim]
    | wait q => cases q <;> cases hf <;> simp [Flow.elim]
  cases t with
  | client j =>
      intro hk
      exact huser h (Option.some.inj hk)
  | owner => simp [frameOf]
  | worker i =>
      cases l with
      | bsem q => cases q <;> cases h <;> simp [frameOf, Flow.elim]
      | pull q =>
          cases q with
          | lock | take | unlock => cases h <;> simp [frameOf, Flow.elim]
          | post job r => cases r <;> cases h <;> simp [frameOf, Flow.elim]
      | got job => cases job <;> cases h
      | running job function arg' f =>
          cases f with
          | user => cases h
          | push | wait | pause =>
              simp only [thpoolCode, threadDo, Instr.syncNext_map,
                Option.map_eq_some_iff] at h
              rcases h with ⟨f', hf', rfl⟩
              intro hk
              exact huser hf' (Option.some.inj hk)
      | _ => cases h <;> simp [frameOf]

/-- After the last call was `thpool_resume` the flag is clear and no signal is
on its way. -/
def ResumeInv (s : Process n m fn arg) : Prop :=
  s.pool.mem.history.lastHoldCall = some .resume ->
    s.flags.threadsOnHold = false ∧ Silent s.pool

theorem silent_of_frames {p p' : Pool n m fn arg} (h : Silent p)
    (hsig : p'.mem.sigusr1 = p.mem.sigusr1) (hhold : p'.hold = p.hold)
    (hframe : forall t k, p'.frame t = some (.pause k) ->
      p.frame t = some (.pause k)) : Silent p' where
  pending := by
    rw [hsig]
    exact h.pending
  handler := by
    rw [hhold]
    exact h.handler
  pausing := fun t k ht => h.pausing t k (hframe t k ht)

theorem frames_after {p p' : Pool n m fn arg} {t : Tid n m}
    {next : Loc n m fn arg t}
    (hloc : p'.threads.loc = Function.update p.threads.loc t next)
    (hnext : forall k, frameOf t next ≠ some (.pause k)) (u : Tid n m) (k : Nat)
    (h : p'.frame u = some (.pause k)) : p.frame u = some (.pause k) := by
  unfold Pool.frame at h
  rw [hloc, frame_update] at h
  by_cases hut : u = t
  · rw [hut, Function.update_self] at h
    exact (hnext k h).elim
  · rwa [Function.update_of_ne hut] at h

theorem resumeInv_step {s s' : Process n m fn arg} {a : Action n m fn arg}
    (h : ResumeInv s) (hok : QuietResume s a) (hstep : step s a = some s') :
    ResumeInv s' := by
  intro hlast
  cases moves_of_step hstep with
  | @deliver i hpending _ _ =>
      rcases h hlast with ⟨_, hsilent⟩
      rw [hsilent.pending i] at hpending
      cases hpending
  | @hold i l hl =>
      rcases h hlast with ⟨hflag, hsilent⟩
      cases l with
      | set => exact (hsilent.handler i hl).elim
      | loop =>
          refine ⟨hflag, hsilent.pending, ?_, hsilent.pausing⟩
          intro j
          change Function.update s.pool.hold i (threadHold s.flags .loop).2 j ≠
            some .set
          by_cases hji : j = i
          · rw [hji, Function.update_self]
            simp [threadHold, hflag]
          · rw [Function.update_of_ne hji]
            exact hsilent.handler j
  | thread _ hfire =>
      cases hfire with
      | spurious =>
          rcases h hlast with ⟨hflag, hsilent⟩
          exact ⟨hflag, silent_of_frames hsilent rfl rfl (fun _ _ ht => ht)⟩
      | lock _ hinstr _ | unlock _ hinstr _ | wait _ hinstr _ =>
          rcases h hlast with ⟨hflag, hsilent⟩
          refine ⟨hflag, silent_of_frames hsilent rfl rfl ?_⟩
          refine frames_after rfl (fun k => ?_)
          exact frameOf_syncNext (by rw [hinstr]; rfl)
      | @act t c woken sh next w asleep _ hacts _ =>
          generalize hbefore : frameOf t (s.pool.threads.loc t) = f
          generalize hafter : frameOf t next = f'
          have hmove := holdMove_of_acts hacts hlast
          rw [hbefore, hafter] at hmove
          cases hmove with
          | resume hc hresume =>
              subst hc
              cases hresume
              refine ⟨rfl, silent_of_frames (hok hbefore) rfl rfl ?_⟩
              exact frames_after rfl (by simp [hafter])
          | pausing hold =>
              exact ((h hold).2.pausing t _ hbefore).elim
          | other hold hkeep hsig hpause =>
              rcases h hold with ⟨hflag, hsilent⟩
              refine ⟨hkeep hflag, silent_of_frames hsilent hsig rfl ?_⟩
              exact frames_after rfl (by rw [hafter]; exact hpause)

/-!
## Resume undoes pause
-/

/-- If `thpool_resume` is only ever called with no signal on its way, then
whenever it was the last call the flag is clear, no worker is about to set it,
and a worker in the loop of `thread_hold` leaves it. -/
theorem thpool_resume_clears_hold {s : Process n m fn arg}
    (hreach : (thpool n m fn arg).ReachableUnder QuietResume s)
    (hlast : s.pool.mem.history.lastHoldCall = some .resume) :
    s.flags.threadsOnHold = false ∧ (forall i, s.pool.hold i ≠ some .set) ∧
      (threadHold s.flags .loop).2 = none := by
  have hinv : ResumeInv s := by
    apply System.ReachableUnder.invariant _ _ hreach
    · intro s hs
      rw [show s = Process.initial from hs]
      intro h
      cases h
    · intro s t a h hok hstep
      exact resumeInv_step h hok hstep
  rcases hinv hlast with ⟨hflag, hsilent⟩
  exact ⟨hflag, hsilent.handler, by simp [threadHold, hflag]⟩

/-- A client pauses the pool and resumes it before the signal is delivered. -/
def lateDelivery (i : Fin n) (j : Fin m) : List (Action n m Unit Unit) :=
  startPool i ++ (Tid.client j).chooses .pause ++ (Tid.client j).steps 2 ++
    (Tid.client j).chooses .resume ++ [.deliver i, .hold i]

theorem thpool_resume_before_delivery :
    exists s : Process 1 1 Unit Unit, (thpool 1 1 Unit Unit).Reachable s ∧
      s.pool.mem.history.lastHoldCall = some .resume ∧
      (forall i, s.pool.mem.sigusr1 i = false) ∧
      s.flags.threadsOnHold = true ∧ s.pool.hold 0 = some .loop :=
  System.reachable_of_exec (s := Process.initial) (lateDelivery 0 0) rfl (by decide)

/-- The signal is delivered before the pool is resumed. -/
def earlyDelivery (i : Fin n) (j : Fin m) : List (Action n m Unit Unit) :=
  startPool i ++ (Tid.client j).chooses .pause ++ (Tid.client j).steps 2 ++
    [.deliver i, .hold i] ++ (Tid.client j).chooses .resume

theorem thpool_resume_clears_hold_one :
    exists s : Process 1 1 Unit Unit, s.pool.hold 0 = some .loop ∧
      s.flags.threadsOnHold = false := by
  have hrun : exists s, (thpool 1 1 Unit Unit).ReachableUnder QuietResume s ∧
      (s.pool.mem.history.lastHoldCall = some .resume ∧
        s.pool.hold 0 = some .loop) :=
    System.reachableUnder_of_execUnder (s := Process.initial)
      (earlyDelivery 0 0) rfl (by decide)
  rcases hrun with ⟨s, hreach, hlast, hhold⟩
  exact ⟨s, hhold, (thpool_resume_clears_hold hreach hlast).1⟩

end Thpool
end PracticeHand
