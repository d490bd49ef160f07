import PracticeHand.Concurrency.Simulation
import PracticeHand.Thpool.Tokens
import PracticeHand.Thpool.Hold

/-!
# Two pools in one process

The flags `threads_keepalive` and `threads_on_hold` are file-level variables, so
two pools of one process share them and nothing else.  A pool runs as if it were
alone exactly as long as the other one does not change the flags under it.
-/

namespace PracticeHand
namespace Thpool

open Concurrency

variable {n m n' m' : Nat} {fn arg : Type}

structure TwoPools (n m n' m' : Nat) (fn arg : Type) where
  flags : Flags
  a : Pool n m fn arg
  b : Pool n' m' fn arg

def twoStep (s : TwoPools n m n' m' fn arg) :
    Action n m fn arg ⊕ Action n' m' fn arg ->
      Option (TwoPools n m n' m' fn arg)
  | .inl x => (step { flags := s.flags, pool := s.a } x).map fun p =>
      { s with flags := p.flags, a := p.pool }
  | .inr x => (step { flags := s.flags, pool := s.b } x).map fun p =>
      { s with flags := p.flags, b := p.pool }

def TwoPools.initial : TwoPools n m n' m' fn arg where
  flags := { threadsKeepalive := false, threadsOnHold := false }
  a := Pool.initial
  b := Pool.initial

def twoPools (n m n' m' : Nat) (fn arg : Type) :
    System (TwoPools n m n' m' fn arg)
      (Action n m fn arg ⊕ Action n' m' fn arg) where
  Init s := s = TwoPools.initial
  step := twoStep

/-!
## Which steps assign the flags
-/

def userFlags (flags : Flags) (f : Option Frame) : Choice fn arg -> Flags
  | .resume =>
      if f = some .user then { flags with threadsOnHold := false } else flags
  | _ => flags

def ownerFlags (flags : Flags) : OwnerPc -> Flags
  | .initHold => { flags with threadsOnHold := false }
  | .initKeepalive => { flags with threadsKeepalive := true }
  | .keepalive _ => { flags with threadsKeepalive := false }
  | _ => flags

def flagsAfter (s : Process n m fn arg) : Action n m fn arg -> Flags
  | .thread (.run .owner _ _) => ownerFlags s.flags s.pool.owner
  | .thread (.run (.worker i) c _) =>
      userFlags s.flags (s.pool.frame (.worker i)) c
  | .thread (.run (.client j) c _) =>
      userFlags s.flags (s.pool.frame (.client j)) c
  | .thread (.spurious _) => s.flags
  | .deliver _ => s.flags
  | .hold i =>
      if s.pool.hold i = some .set then { s.flags with threadsOnHold := true }
      else s.flags

theorem userFlags_of_ne {flags : Flags} {f : Option Frame} {c : Choice fn arg}
    (h : f ≠ some .user) : userFlags flags f c = flags := by
  cases c <;> simp [userFlags, h]

theorem apiCall_flags {s s' : Shared n fn arg} {c : Choice fn arg} {f : Frame}
    (h : apiCall s c = some (s', f)) :
    s'.1 = userFlags s.1 (some .user) c := by
  cases c with
  | addWork function arg' addr =>
      cases addr with
      | none =>
          cases h
          rfl
      | some p =>
          simp only [apiCall, thpoolAddWork] at h
          split at h
          · cases h
            rfl
          · cases h
  | wait | pause | resume =>
      cases h
      rfl
  | go | ret | clock | destroy => cases h

theorem UserMove.flags_of_ne {caller : Option Ptr} {s s' : Shared n fn arg}
    {f f' : Frame} {w : Wake Cond} (h : UserMove caller s f s' f' w)
    (hf : f ≠ .user) : s'.1 = s.1 := by
  cases h with
  | refused | alloc | waitCall | pauseCall | resume => exact (hf rfl).elim
  | link hlink =>
      rcases linkJob_cases hlink with ⟨_, _, _, _, _, rfl⟩
      rfl
  | _ => rfl

theorem userCode_flags {caller : Option Ptr} {s s' : Shared n fn arg}
    {c : Choice fn arg} {f f' : Frame} {w : Wake Cond}
    (h : (userCode caller f).Acts s c s' f' w) :
    s'.1 = userFlags s.1 (some f) c := by
  by_cases hf : f = .user
  · subst hf
    rw [userCode, Instr.acts_act] at h
    rcases Option.map_eq_some_iff.mp h with ⟨⟨s1, f1⟩, hcall, heq⟩
    cases heq
    exact apiCall_flags hcall
  · rw [userFlags_of_ne (by simpa using hf)]
    exact (userMove_of_acts h).flags_of_ne hf

theorem WorkerMove.flags {i : Fin n} {s s' : Shared n fn arg}
    {l l' : WorkerPc fn arg} {w : Wake Cond} (h : WorkerMove i s l s' l' w)
    (hl : frameOf (.worker i : Tid n m) l = none) : s'.1 = s.1 := by
  cases h with
  | take htake =>
      rcases takeJob_cases htake with ⟨_, _, _, _, rfl⟩ | ⟨_, _, _, _, _, rfl⟩ <;>
        rfl
  | free hfree =>
      rcases freeJob_cases hfree with ⟨_, rfl⟩ | ⟨_, _, _, rfl⟩ <;> rfl
  | user | ret => cases hl
  | _ => rfl

theorem threadDo_flags {i : Fin n} {s s' : Shared n fn arg}
    {c : Choice fn arg} {l l' : WorkerPc fn arg} {w : Wake Cond}
    (h : (threadDo i l).Acts s c s' l' w) :
    s'.1 = userFlags s.1 (frameOf (.worker i : Tid n m) l) c := by
  have hmove := workerMove_of_acts h
  cases l with
  | running job function arg' f =>
      cases f with
      | user =>
          rw [threadDo, Instr.acts_act] at h
          cases c with
          | ret =>
              cases h
              rfl
          | go | addWork | wait | pause | resume | clock | destroy =>
              rcases Option.map_eq_some_iff.mp h with ⟨⟨s1, f1⟩, hcall, heq⟩
              cases heq
              exact apiCall_flags hcall
      | push | wait | pause =>
          simp only [threadDo] at h
          rcases Instr.acts_map.mp h with ⟨f1, hf1, rfl⟩
          exact userCode_flags hf1
  | _ =>
      rw [userFlags_of_ne (by simp [frameOf])]
      exact hmove.flags (m := m) rfl

theorem OwnerMove.flags {s s' : Shared n fn arg} {l l' : OwnerPc}
    {w : Wake Cond} (h : OwnerMove s l s' l' w) :
    s'.1 = ownerFlags s.1 l := by
  cases h with
  | clearTake htake =>
      rcases takeJob_cases htake with ⟨_, _, _, _, rfl⟩ | ⟨_, _, _, _, _, rfl⟩ <;>
        rfl
  | clearFree hfree =>
      rcases freeJob_cases hfree with ⟨_, rfl⟩ | ⟨_, _, _, rfl⟩ <;> rfl
  | _ => rfl

theorem flagsAfter_sync {s : Process n m fn arg} {t : Tid n m}
    {next : Loc n m fn arg t} {c : Choice fn arg} {woken : Option (Tid n m)}
    (h : (thpoolCode t (s.pool.threads.loc t)).syncNext = some next) :
    flagsAfter s (.thread (.run t c woken)) = s.flags := by
  cases t with
  | worker i =>
      refine userFlags_of_ne ?_
      unfold Pool.frame
      change (threadDo i (s.pool.worker i)).syncNext = some next at h
      change frameOf (.worker i : Tid n m) (s.pool.worker i) ≠ _
      generalize s.pool.worker i = l at h
      intro hl
      cases l with
      | running job function arg' f =>
          cases hl
          cases h
      | _ => cases hl
  | client j =>
      refine userFlags_of_ne ?_
      change (userCode none (s.pool.client j) :
        Code n fn arg Frame).syncNext = some next at h
      change some (s.pool.client j) ≠ _
      generalize s.pool.client j = f at h
      intro hparts
      rcases hparts with ⟨⟩
      cases h
  | owner =>
      change (ownerCode s.pool.owner : Code n fn arg OwnerPc).syncNext =
        some next at h
      change ownerFlags s.flags s.pool.owner = s.flags
      generalize s.pool.owner = l at h
      cases l <;> first | rfl | cases h

theorem flags_of_step {s s' : Process n m fn arg} {a : Action n m fn arg}
    (h : step s a = some s') : s'.flags = flagsAfter s a := by
  cases moves_of_step h with
  | deliver => rfl
  | @hold i l hl => cases l <;> simp [flagsAfter, threadHold, hl]
  | thread _ hfire =>
      cases hfire with
      | spurious => rfl
      | lock _ hinstr _ | unlock _ hinstr _ | wait _ hinstr _ =>
          exact (flagsAfter_sync (by rw [hinstr]; rfl)).symm
      | @act t _ _ _ _ _ _ _ hacts _ =>
          cases t with
          | worker i => exact threadDo_flags hacts
          | client j => exact userCode_flags hacts
          | owner => exact (ownerMove_of_acts hacts).flags

/-!
## One pool alone

Before `thpool_init` has assigned the flags nothing but the owner can move, and
no worker leaves its loop before `thpool_destroy` has cleared
`threads_keepalive`.
-/

/-- A signal handler runs in a thread that has been started. -/
def HandlersLive (s : Process n m fn arg) : Prop :=
  forall i, s.pool.hold i ≠ none -> (s.pool.worker i).live = true

theorem handlersLive_step {s s' : Process n m fn arg} {a : Action n m fn arg}
    (h : HandlersLive s) (hstep : step s a = some s') : HandlersLive s' := by
  intro i hi
  cases moves_of_step hstep with
  | @deliver j _ _ hlive =>
      change Function.update s.pool.hold j (some .set) i ≠ none at hi
      by_cases hij : i = j
      · rw [hij]
        exact hlive
      · rw [Function.update_of_ne hij] at hi
        exact h i hi
  | @hold j l hl =>
      change Function.update s.pool.hold j _ i ≠ none at hi
      by_cases hij : i = j
      · rw [hij]
        exact h j (by rw [hl]; simp)
      · rw [Function.update_of_ne hij] at hi
        exact h i hi
  | @thread e flags mem threads hrun hfire =>
      by_contra hdead
      -- a worker in the handler does not move
      have hmoved : threads.loc (.worker i) ≠ s.pool.threads.loc (.worker i) := by
        intro hsame
        apply hdead
        change (threads.loc (.worker i) : WorkerPc fn arg).live = true
        rw [hsame]
        exact h i hi
      rcases run_of_moved hstep hmoved with ⟨c, woken, heq⟩
      cases heq
      simp only [Event.enabled, Pool.mayRun, decide_eq_true_eq] at hrun
      exact hi hrun.1

def WorkerPc.left : WorkerPc fn arg -> Bool
  | .exitLock => true
  | .exitDec => true
  | .exitUnlock => true
  | .exited => true
  | _ => false

def StaysInLoop (s : Process n m fn arg) : Prop :=
  s.pool.owner.phase.keepalive ≠ some false ->
    forall i, (s.pool.worker i).left = false

theorem threadDo_syncNext_left {i : Fin n} {l l' : WorkerPc fn arg}
    (h : (threadDo i l).syncNext = some l') : l'.left = l.left := by
  cases l with
  | bsem p => cases p <;> cases h <;> rfl
  | pull p =>
      cases p with
      | lock | take | unlock => cases h <;> rfl
      | post job q => cases q <;> cases h <;> rfl
  | got job => cases job <;> cases h
  | running job function arg' f =>
      cases f with
      | user => cases h
      | push | wait | pause =>
          simp only [threadDo, Instr.syncNext_map, Option.map_eq_some_iff] at h
          rcases h with ⟨f', hf', rfl⟩
          rfl
  | _ => cases h <;> rfl

theorem WorkerMove.left {i : Fin n} {s s' : Shared n fn arg}
    {l l' : WorkerPc fn arg} {w : Wake Cond} (h : WorkerMove i s l s' l' w)
    (hl : l.left = false) :
    l'.left = false ∨ (l = .loop ∧ s.1.threadsKeepalive = false) := by
  cases h with
  | loopOff hoff => exact Or.inr ⟨rfl, hoff⟩
  | exitDec => cases hl
  | _ => exact Or.inl rfl

theorem keepaliveOff_of_loop {s : Process n m fn arg} (hstage : StageInv s)
    {i : Fin n} (hloop : s.pool.worker i = .loop)
    (hoff : s.flags.threadsKeepalive = false) :
    s.pool.owner.phase.keepalive = some false := by
  cases hphase : s.pool.owner.phase.keepalive with
  | some b =>
      have hb := hstage.keepalive b hphase
      rw [← hb, hoff]
  | none =>
      -- before the flag is first set no worker has been started
      have hfresh : s.pool.owner.phase = .fresh := by
        cases hp : s.pool.owner.phase <;> rw [hp] at hphase <;>
          first | rfl | cases hphase
      rw [(hstage.unused (Or.inl hfresh)).2 i] at hloop
      cases hloop

theorem staysInLoop_step {s s' : Process n m fn arg} {a : Action n m fn arg}
    (hstage : StageInv s) (h : StaysInLoop s) (hstep : step s a = some s') :
    StaysInLoop s' := by
  intro hafter i
  have hbefore : s.pool.owner.phase.keepalive ≠ some false :=
    fun hoff => hafter (keepaliveOff_step hstep hoff)
  have hi := h hbefore i
  rcases worker_of_step hstep i with hsame | hnext | ⟨w, hmove⟩
  · rw [hsame]
    exact hi
  · exact (threadDo_syncNext_left hnext).trans hi
  · rcases hmove.left hi with hstays | ⟨hloop, hoff⟩
    · exact hstays
    · exact absurd (keepaliveOff_of_loop hstage hloop hoff) hbefore

theorem reachable_alone {s : Process n m fn arg}
    (h : (thpool n m fn arg).Reachable s) :
    LockInv s ∧ StageInv s ∧ HandlersLive s ∧ StaysInLoop s := by
  apply System.ReachableUnder.invariant _ _ h
  · intro s hs
    rw [show s = Process.initial from hs]
    refine ⟨lockInv_initial, stageInv_initial, ?_, ?_⟩
    · intro i hi
      exact (hi rfl).elim
    · intro _ i
      rfl
  · intro s t a hparts _ hstep
    rcases hparts with ⟨hlock, hstage, hhandlers, hloop⟩
    exact ⟨lockInv_step hlock hstep, stageInv_step hstage hstep,
      handlersLive_step hhandlers hstep, staysInLoop_step hstage hloop hstep⟩

theorem OwnerPc.initReturned_of_fresh {l : OwnerPc} (h : l.phase = .fresh) :
    l.initReturned = false := by
  cases l <;> first | rfl | cases h

theorem reachable_step {s s' : Process n m fn arg} {a : Action n m fn arg}
    (h : (thpool n m fn arg).Reachable s) (hstep : step s a = some s') :
    (thpool n m fn arg).Reachable s' :=
  System.ReachableUnder.next (a := a) h trivial hstep

theorem awake_of_fresh {s : Process n m fn arg} (hlock : LockInv s)
    (hstage : StageInv s) (hfresh : s.pool.owner.phase = .fresh) (t : Tid n m) :
    s.pool.threads.asleep t = none := by
  cases hasleep : s.pool.threads.asleep t with
  | none => rfl
  | some k =>
      exfalso
      have hsleeps := hlock.sleepers t k hasleep
      cases t with
      | worker i =>
          rw [show s.pool.threads.loc (.worker i) = _ from
            (hstage.unused (Or.inl hfresh)).2 i] at hsleeps
          exact hsleeps
      | client j =>
          rw [show s.pool.threads.loc (.client j) = _ from
            hstage.outside (OwnerPc.initReturned_of_fresh hfresh) j] at hsleeps
          exact hsleeps
      | owner => exact hsleeps

/-- While `thpool_init` has not assigned the flags only the owner moves,
whatever the flags are. -/
theorem owner_of_fresh {s : Process n m fn arg} {flags : Flags}
    {p : Process n m fn arg} {a : Action n m fn arg}
    (hreach : (thpool n m fn arg).Reachable s)
    (hfresh : s.pool.owner.phase = .fresh)
    (hstep : step { flags := flags, pool := s.pool } a = some p) :
    exists c woken, a = .thread (.run .owner c woken) := by
  rcases reachable_alone hreach with ⟨hlock, hstage, hhandlers, _⟩
  rcases hstage.unused (Or.inl hfresh) with ⟨hquiet, hunborn⟩
  have hawake := awake_of_fresh hlock hstage hfresh
  cases a with
  | deliver i =>
      cases moves_of_step hstep with
      | deliver _ _ hlive =>
          rw [show Pool.worker _ i = _ from hunborn i] at hlive
          cases hlive
  | hold i =>
      cases moves_of_step hstep with
      | hold hl =>
          have hlive := hhandlers i (by rw [show s.pool.hold i = _ from hl]; simp)
          rw [hunborn i] at hlive
          cases hlive
  | thread e =>
      cases e with
      | spurious t =>
          cases moves_of_step hstep with
          | thread _ hfire =>
              cases hfire with
              | spurious hasleep => exact (hasleep (hawake t)).elim
      | run t c woken =>
          cases t with
          | owner => exact ⟨c, woken, rfl⟩
          | client j =>
              exfalso
              cases moves_of_step hstep with
              | thread hrun _ =>
                  simp only [Event.enabled, Pool.mayRun, decide_eq_true_eq] at hrun
                  rw [OwnerPc.initReturned_of_fresh hfresh] at hrun
                  cases hrun.1
          | worker i =>
              exfalso
              have hloc : s.pool.threads.loc (.worker i) = .unborn := hunborn i
              have hact : (thpoolCode (.worker i)
                  (s.pool.threads.loc (.worker i))).syncNext = none := by
                rw [hloc]
                rfl
              rcases acts_of_step hstep hact with ⟨sh, next, w, asleep, hacts, _, _⟩
              have hmove := workerMove_of_acts hacts
              dsimp only at hmove
              rw [hloc] at hmove
              cases hmove with
              | born hi =>
                  have hcreated : s.pool.mem.quiet.created = 0 := by rw [hquiet]
                  change i.val < s.pool.mem.quiet.created at hi
                  rw [hcreated] at hi
                  exact Nat.not_lt_zero _ hi

/-!
## A pool beside another
-/

/-- From the moment `thpool_init` of the second pool begins, a step of the first
pool assigns a flag only the value that it has. -/
def KeepsFlags (s : TwoPools n m n' m' fn arg) :
    Action n m fn arg ⊕ Action n' m' fn arg -> Prop
  | .inl x => s.b.owner ≠ .initHold ->
      flagsAfter { flags := s.flags, pool := s.a } x = s.flags
  | .inr _ => True

instance (s : TwoPools n m n' m' fn arg)
    (x : Action n m fn arg ⊕ Action n' m' fn arg) : Decidable (KeepsFlags s x) :=
  match x with
  | .inl x => inferInstanceAs (Decidable (s.b.owner ≠ .initHold ->
      flagsAfter { flags := s.flags, pool := s.a } x = s.flags))
  | .inr _ => inferInstanceAs (Decidable True)

/-- The second pool alone: the same pool, and the flags as far as its
`thpool_init` has assigned them. -/
structure Alike (s : TwoPools n m n' m' fn arg) (r : Process n' m' fn arg) :
    Prop where
  reachable : (thpool n' m' fn arg).Reachable r
  pool : r.pool = s.b
  hold : s.b.owner ≠ .initHold ->
    r.flags.threadsOnHold = s.flags.threadsOnHold
  keepalive : s.b.owner ≠ .initHold -> s.b.owner ≠ .initKeepalive ->
    r.flags.threadsKeepalive = s.flags.threadsKeepalive

/-- An assignment of the owner to the flags is the same step whatever the flags
were. -/
theorem owner_store_step {s : Process n m fn arg} {flags : Flags}
    {p : Process n m fn arg} {c : Choice fn arg} {woken : Option (Tid n m)}
    {f : Shared n fn arg -> Shared n fn arg} {next : OwnerPc}
    (hcode : (ownerCode s.pool.owner : Code n fn arg OwnerPc) = .store f next)
    (hmem : forall sh, (f sh).2 = sh.2)
    (hawake : s.pool.threads.asleep .owner = none)
    (hstep : step { flags := flags, pool := s.pool }
      (.thread (.run .owner c woken)) = some p) :
    step s (.thread (.run .owner c woken)) =
        some { flags := (f s.shared).1, pool := p.pool } ∧
      p.flags = (f (flags, s.pool.mem)).1 ∧ p.pool.owner = next := by
  have hprog : thpoolCode .owner (s.pool.threads.loc .owner) =
      (.store f next : Code n fn arg OwnerPc) := hcode
  have hact : (thpoolCode .owner (s.pool.threads.loc .owner)).syncNext = none := by
    rw [hprog]
    rfl
  rcases acts_of_step hstep hact with ⟨sh, next', w, asleep, hacts, happly, rfl⟩
  dsimp only at hacts
  rw [hprog, Instr.acts_store] at hacts
  rcases hacts with ⟨rfl, rfl, rfl⟩
  have hown : (thpoolCode .owner (s.pool.threads.loc .owner)).Acts s.shared c
      (f s.shared) next' .nobody := by
    rw [hprog, Instr.acts_store]
    exact ⟨rfl, rfl, rfl⟩
  refine ⟨?_, rfl, owner_after _ _⟩
  rw [step_of_acts rfl hawake hown happly]
  simp only [Process.after, hmem]
  rfl

theorem alike_shown {s t : TwoPools n m n' m' fn arg} {r : Process n' m' fn arg}
    {x : Action n' m' fn arg} (h : Alike s r)
    (hstep : twoStep s (.inr x) = some t) :
    exists r', step r x = some r' ∧ Alike t r' := by
  rcases Option.map_eq_some_iff.mp hstep with ⟨p, hp, rfl⟩
  rcases h with ⟨hreach, hpool, hhold, hkeep⟩
  rw [← hpool] at hp hhold hkeep
  have hawake : r.pool.threads.asleep .owner = none := by
    cases hasleep : r.pool.threads.asleep .owner with
    | none => rfl
    | some k => exact ((reachable_alone hreach).1.sleepers .owner k hasleep).elim
  by_cases hinit : r.pool.owner = .initHold
  · rcases owner_of_fresh hreach (by rw [hinit]; rfl) hp with ⟨c, woken, rfl⟩
    rcases owner_store_step (f := setOnHold false) (by rw [hinit]; rfl)
      (fun _ => rfl) hawake hp with ⟨hone, hflags, hnext⟩
    refine ⟨_, hone, reachable_step hreach hone, rfl, ?_, ?_⟩
    · intro _
      rw [hflags]
      rfl
    · intro _ hne
      exact (hne hnext).elim
  · by_cases hinit' : r.pool.owner = .initKeepalive
    · rcases owner_of_fresh hreach (by rw [hinit']; rfl) hp with ⟨c, woken, rfl⟩
      rcases owner_store_step (f := setKeepalive true) (by rw [hinit']; rfl)
        (fun _ => rfl) hawake hp with ⟨hone, hflags, hnext⟩
      refine ⟨_, hone, reachable_step hreach hone, rfl, ?_, ?_⟩
      · intro _
        rw [hflags]
        exact hhold hinit
      · intro _ _
        rw [hflags]
        rfl
    · -- past its assignments the pool sees the same flags
      have hflags : r.flags = s.flags := by
        cases hr : r.flags
        cases hs : s.flags
        simp only [hr, hs] at hhold hkeep
        rw [hhold hinit, hkeep hinit hinit']
      rw [← hflags] at hp
      exact ⟨p, hp, reachable_step hreach hp, rfl, fun _ => rfl, fun _ _ => rfl⟩

theorem alike_hidden {s t : TwoPools n m n' m' fn arg} {r : Process n' m' fn arg}
    {x : Action n m fn arg} (h : Alike s r) (hok : KeepsFlags s (.inl x))
    (hstep : twoStep s (.inl x) = some t) : Alike t r := by
  rcases Option.map_eq_some_iff.mp hstep with ⟨p, hp, rfl⟩
  refine ⟨h.reachable, h.pool, ?_, ?_⟩
  · intro hinit
    dsimp only
    rw [flags_of_step hp, hok hinit]
    exact h.hold hinit
  · intro hinit hinit'
    dsimp only
    rw [flags_of_step hp, hok hinit]
    exact h.keepalive hinit hinit'

theorem twoPools_follows :
    System.Follows (twoPools n m n' m' fn arg) KeepsFlags (thpool n' m' fn arg)
      Sum.getRight? Alike where
  shown := by
    intro s t r x b h _ hx hstep
    cases x with
    | inl x => cases hx
    | inr x =>
        cases hx
        exact alike_shown h hstep
  hidden := by
    intro s t r x h hok hx hstep
    cases x with
    | inl x => exact alike_hidden h hok hstep
    | inr x => cases hx

theorem alike_initial :
    Alike (TwoPools.initial : TwoPools n m n' m' fn arg) Process.initial where
  reachable := ⟨_, [], rfl, System.RunUnder.nil _⟩
  pool := rfl
  hold := fun h => (h rfl).elim
  keepalive := fun h => (h rfl).elim

/-- In a run in which the first pool never changes a flag under the second, the
second pool goes through the same states as in the run of its own steps alone,
and none of its workers leaves its loop before its own `thpool_destroy` has
cleared `threads_keepalive`. -/
theorem thpool_independent {s : TwoPools n m n' m' fn arg}
    {schedule : List (Action n m fn arg ⊕ Action n' m' fn arg)}
    (hrun : (twoPools n m n' m' fn arg).RunUnder KeepsFlags TwoPools.initial
      schedule s) :
    (exists flags, (thpool n' m' fn arg).Run Process.initial
        (schedule.filterMap Sum.getRight?) { flags := flags, pool := s.b }) ∧
      (s.b.owner.phase.keepalive ≠ some false ->
        forall i, (s.b.worker i).left = false) := by
  rcases twoPools_follows.run hrun alike_initial with ⟨r, hr, halike⟩
  rcases reachable_alone halike.reachable with ⟨_, _, _, hloop⟩
  have heq : r = { flags := r.flags, pool := s.b } := by
    rw [← halike.pool]
  constructor
  · rw [heq] at hr
    exact ⟨r.flags, hr⟩
  · intro hkeep i
    rw [← halike.pool] at hkeep ⊢
    exact hloop hkeep i

/-- Two pools of one worker each; the first is destroyed. -/
def destroyOther (i : Fin n) :
    List (Action n m Unit Unit ⊕ Action n m Unit Unit) :=
  (startPool i).map .inl ++ (startPool i).map .inr ++
    (Tid.owner.chooses .destroy ++ Tid.owner.steps 1).map .inl ++
    ((Tid.worker i).steps 1).map .inr

theorem thpool_destroy_reaches_other :
    exists s : TwoPools 1 0 1 0 Unit Unit,
      (twoPools 1 0 1 0 Unit Unit).Reachable s ∧
      s.b.owner = .ready ∧ s.b.worker 0 = .exitLock :=
  System.reachable_of_exec (s := TwoPools.initial) (destroyOther 0) rfl (by decide)

/-- While the second pool runs a job, the first one is resumed and runs one too. -/
def besideOther (i : Fin n) (j : Fin m) :
    List (Action n m Unit Unit ⊕ Action n m Unit Unit) :=
  (startPool i).map .inl ++
    (startPool i ++ callAddWork j ++ (Tid.worker i).steps 12).map .inr ++
    ((Tid.client j).chooses .resume ++ callAddWork j ++ doJob i).map .inl ++
    ((Tid.worker i).chooses .ret ++ (Tid.worker i).steps 2).map .inr

theorem thpool_independent_one :
    exists s : TwoPools 1 1 1 1 Unit Unit,
      s.a.mem.history.finished = [0] ∧ s.b.mem.history.finished = [0] ∧
      (exists flags, (thpool 1 1 Unit Unit).Run Process.initial
        (startPool 0 ++ callAddWork 0 ++ doJob 0) { flags := flags, pool := s.b }) ∧
      forall i, (s.b.worker i).left = false := by
  cases hexec : (twoPools 1 1 1 1 Unit Unit).execUnder KeepsFlags
      TwoPools.initial (besideOther 0 0) with
  | none =>
      have hsome : ((twoPools 1 1 1 1 Unit Unit).execUnder KeepsFlags
        TwoPools.initial (besideOther 0 0)).isSome = true := by decide
      rw [hexec] at hsome
      cases hsome
  | some s =>
      have hstate : ((twoPools 1 1 1 1 Unit Unit).execUnder KeepsFlags
          TwoPools.initial (besideOther 0 0)).any
          (fun s => decide (s.a.mem.history.finished = [0] ∧
            s.b.mem.history.finished = [0] ∧ s.b.owner = .ready)) = true := by decide
      rw [hexec, Option.any_some, decide_eq_true_iff] at hstate
      rcases hstate with ⟨ha, hb, howner⟩
      rcases thpool_independent (System.runUnder_of_execUnder hexec) with ⟨halone, hloop⟩
      exact ⟨s, ha, hb, halone, hloop (by rw [howner]; decide)⟩

end Thpool
end PracticeHand
