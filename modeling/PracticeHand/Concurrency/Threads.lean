import Mathlib.Data.Fintype.Basic
import Mathlib.Logic.Function.Basic

/-!
# Threads over mutexes and condition variables

The model of POSIX threads that the concurrent programs are embedded in.  A
thread sits at a control location; its program says which instruction stands
there.  Locking, unlocking and waiting are instructions of their own, so every
point between two of them is a point where another thread may run.  All other
work is one instruction that reads and writes the shared memory.

The assumptions about the library are the documented ones: a mutex has at most
one owner, `pthread_cond_wait` releases the mutex and goes to sleep in one
step, `pthread_cond_signal` wakes a sleeper if there is one, and a sleeper may
wake up for no reason.  A signal that wakes several sleepers is a signal
followed by such wake-ups.
-/

namespace PracticeHand
namespace Concurrency

/-!
## What one thread gets or gives up
-/

theorem some_of_update_none {index value : Type} [DecidableEq index]
    {f : index -> Option value} {t u : index} {x : value}
    (h : Function.update f t none u = some x) : u ≠ t ∧ f u = some x := by
  by_cases hut : u = t
  · rw [hut, Function.update_self] at h
    cases h
  · rw [Function.update_of_ne hut] at h
    exact ⟨hut, h⟩

theorem cases_of_update_some {index value : Type} [DecidableEq index]
    {f : index -> Option value} {t u : index} {x y : value}
    (h : Function.update f t (some y) u = some x) :
    (u = t ∧ y = x) ∨ (u ≠ t ∧ f u = some x) := by
  by_cases hut : u = t
  · rw [hut, Function.update_self] at h
    exact Or.inl ⟨hut, Option.some.inj h⟩
  · rw [Function.update_of_ne hut] at h
    exact Or.inr ⟨hut, h⟩

/-- What an instruction does to the sleepers of a condition variable. -/
inductive Wake (cond : Type) where
  | nobody
  | signal (k : cond)
  | broadcast (k : cond)
  deriving DecidableEq

/-- The instruction at a control location, with the location that follows it. -/
inductive Instr (mutex cond mem choice loc : Type) where
  | lock (m : mutex) (next : loc)
  | unlock (m : mutex) (next : loc)
  | wait (k : cond) (m : mutex) (next : loc)
  | act (f : mem -> choice -> Option (mem × loc × Wake cond))

namespace Instr

variable {mutex cond mem choice loc loc' : Type}

def store (f : mem -> mem) (next : loc) : Instr mutex cond mem choice loc :=
  act (fun s _ => some (f s, next, .nobody))

def test (p : mem -> Bool) (yes no : loc) : Instr mutex cond mem choice loc :=
  act (fun s _ => some (s, if p s then yes else no, .nobody))

def halt : Instr mutex cond mem choice loc :=
  act (fun _ _ => none)

def map (g : loc -> loc') :
    Instr mutex cond mem choice loc -> Instr mutex cond mem choice loc'
  | lock m next => lock m (g next)
  | unlock m next => unlock m (g next)
  | wait k m next => wait k m (g next)
  | act f => act (fun s c => (f s c).map (fun r => (r.1, g r.2.1, r.2.2)))

/-- The location after an instruction that leaves the shared memory alone. -/
def syncNext : Instr mutex cond mem choice loc -> Option loc
  | lock _ next => some next
  | unlock _ next => some next
  | wait _ _ next => some next
  | act _ => none

/-- The results of an instruction that works on the shared memory. -/
def Acts (i : Instr mutex cond mem choice loc) (s : mem) (c : choice)
    (s' : mem) (next : loc) (w : Wake cond) : Prop :=
  match i with
  | act f => f s c = some (s', next, w)
  | _ => False

section Acts

variable {s s' : mem} {c : choice} {next l : loc} {w : Wake cond}

@[simp] theorem acts_act
    {f : mem -> choice -> Option (mem × loc × Wake cond)} :
    (act f : Instr mutex cond mem choice loc).Acts s c s' l w <->
      f s c = some (s', l, w) := Iff.rfl

@[simp] theorem acts_store {f : mem -> mem} :
    (store f next : Instr mutex cond mem choice loc).Acts s c s' l w <->
      s' = f s ∧ l = next ∧ w = .nobody := by
  simp only [store, acts_act, Option.some.injEq, Prod.mk.injEq]
  constructor <;> (rintro ⟨rfl, rfl, rfl⟩; exact ⟨rfl, rfl, rfl⟩)

@[simp] theorem acts_test {p : mem -> Bool} {yes no : loc} :
    (test p yes no : Instr mutex cond mem choice loc).Acts s c s' l w <->
      s' = s ∧ l = (if p s then yes else no) ∧ w = .nobody := by
  simp only [test, acts_act, Option.some.injEq, Prod.mk.injEq]
  constructor <;> (rintro ⟨rfl, rfl, rfl⟩; exact ⟨rfl, rfl, rfl⟩)

@[simp] theorem not_acts_halt :
    ¬ (halt : Instr mutex cond mem choice loc).Acts s c s' l w := by
  simp [halt]

end Acts

@[simp] theorem syncNext_map (g : loc -> loc')
    (i : Instr mutex cond mem choice loc) :
    (i.map g).syncNext = i.syncNext.map g := by
  cases i <;> rfl

theorem acts_map {g : loc -> loc'} {i : Instr mutex cond mem choice loc}
    {s s' : mem} {c : choice} {next : loc'} {w : Wake cond} :
    (i.map g).Acts s c s' next w <->
      exists l, i.Acts s c s' l w ∧ g l = next := by
  cases i with
  | act f =>
      simp only [map, Acts, Option.map_eq_some_iff, Prod.exists, Prod.mk.injEq]
      constructor
      · intro hparts
        rcases hparts with ⟨s1, l, w1, hf, rfl, rfl, rfl⟩
        exact ⟨l, hf, rfl⟩
      · intro hparts
        rcases hparts with ⟨l, hf, rfl⟩
        exact ⟨s', l, w, hf, rfl, rfl, rfl⟩
  | lock | unlock | wait => simp [map, Acts]

end Instr

section Machine

variable {thread mutex cond mem choice : Type} {loc : thread -> Type}
variable [DecidableEq thread] [Fintype thread] [DecidableEq mutex]
variable [DecidableEq cond]

/-- Mutex owners, control locations, and the threads asleep in a cond wait. -/
structure Threads (thread mutex cond : Type) (loc : thread -> Type) where
  owner : mutex -> Option thread
  loc : (t : thread) -> loc t
  asleep : thread -> Option cond

abbrev Program (thread mutex cond mem choice : Type) (loc : thread -> Type) :=
  (t : thread) -> loc t -> Instr mutex cond mem choice (loc t)

/-- Which thread moves and how its choices come out, or a spurious wake-up. -/
inductive Event (thread choice : Type) where
  | run (t : thread) (c : choice) (woken : Option thread)
  | spurious (t : thread)

/-- The sleepers after a wake; `woken` names the one that a signal wakes. -/
def Wake.apply (w : Wake cond) (woken : Option thread)
    (asleep : thread -> Option cond) : Option (thread -> Option cond) :=
  match w, woken with
  | .nobody, none => some asleep
  | .nobody, some _ => none
  | .signal k, some u =>
      if asleep u = some k then some (Function.update asleep u none) else none
  | .signal k, none =>
      if forall u, asleep u ≠ some k then some asleep else none
  | .broadcast k, none =>
      some (fun u => if asleep u = some k then none else asleep u)
  | .broadcast _, some _ => none

/-- One step of the machine; `none` when the event is not enabled. -/
def machineStep (prog : Program thread mutex cond mem choice loc)
    (s : mem) (c : Threads thread mutex cond loc) :
    Event thread choice -> Option (mem × Threads thread mutex cond loc)
  | .run t ch woken =>
      if c.asleep t = none then
        match prog t (c.loc t) with
        | .lock m next =>
            if c.owner m = none then
              some (s, { c with
                owner := Function.update c.owner m (some t)
                loc := Function.update c.loc t next })
            else none
        | .unlock m next =>
            if c.owner m = some t then
              some (s, { c with
                owner := Function.update c.owner m none
                loc := Function.update c.loc t next })
            else none
        | .wait k m next =>
            if c.owner m = some t then
              some (s,
                { owner := Function.update c.owner m none
                  loc := Function.update c.loc t next
                  asleep := Function.update c.asleep t (some k) })
            else none
        | .act f =>
            (f s ch).bind fun r =>
              (r.2.2.apply woken c.asleep).map fun asleep =>
                (r.1, { c with
                  loc := Function.update c.loc t r.2.1
                  asleep := asleep })
      else none
  | .spurious t =>
      if c.asleep t = none then none
      else some (s, { c with asleep := Function.update c.asleep t none })

/-!
## What a step can do

The inversion of `machineStep`: five kinds of step, each with its guard and its
whole effect.  Later proofs take a step apart with this relation only.
-/

/-- The effect of one step, by the kind of instruction. -/
inductive Fires (prog : Program thread mutex cond mem choice loc)
    (s : mem) (c : Threads thread mutex cond loc) :
    Event thread choice -> mem -> Threads thread mutex cond loc -> Prop where
  | lock {t : thread} {ch : choice} {woken : Option thread} {m : mutex}
      {next : loc t} :
      c.asleep t = none -> prog t (c.loc t) = .lock m next ->
      c.owner m = none ->
      Fires prog s c (.run t ch woken) s
        { c with
          owner := Function.update c.owner m (some t)
          loc := Function.update c.loc t next }
  | unlock {t : thread} {ch : choice} {woken : Option thread} {m : mutex}
      {next : loc t} :
      c.asleep t = none -> prog t (c.loc t) = .unlock m next ->
      c.owner m = some t ->
      Fires prog s c (.run t ch woken) s
        { c with
          owner := Function.update c.owner m none
          loc := Function.update c.loc t next }
  | wait {t : thread} {ch : choice} {woken : Option thread} {k : cond}
      {m : mutex} {next : loc t} :
      c.asleep t = none -> prog t (c.loc t) = .wait k m next ->
      c.owner m = some t ->
      Fires prog s c (.run t ch woken) s
        { owner := Function.update c.owner m none
          loc := Function.update c.loc t next
          asleep := Function.update c.asleep t (some k) }
  | act {t : thread} {ch : choice} {woken : Option thread} {s' : mem}
      {next : loc t} {w : Wake cond} {asleep : thread -> Option cond} :
      c.asleep t = none -> (prog t (c.loc t)).Acts s ch s' next w ->
      w.apply woken c.asleep = some asleep ->
      Fires prog s c (.run t ch woken) s'
        { c with loc := Function.update c.loc t next, asleep := asleep }
  | spurious {t : thread} :
      c.asleep t ≠ none ->
      Fires prog s c (.spurious t) s
        { c with asleep := Function.update c.asleep t none }

theorem fires_of_machineStep {prog : Program thread mutex cond mem choice loc}
    {s s' : mem} {c c' : Threads thread mutex cond loc}
    {e : Event thread choice}
    (h : machineStep prog s c e = some (s', c')) : Fires prog s c e s' c' := by
  cases e with
  | spurious t =>
      simp only [machineStep] at h
      split at h
      · cases h
      · rename_i hasleep
        cases h
        exact Fires.spurious hasleep
  | run t ch woken =>
      simp only [machineStep] at h
      split at h
      · rename_i hawake
        cases hprog : prog t (c.loc t) with
        | lock m next =>
            simp only [hprog] at h
            split at h
            · rename_i hfree
              cases h
              exact Fires.lock hawake hprog hfree
            · cases h
        | unlock m next =>
            simp only [hprog] at h
            split at h
            · rename_i hown
              cases h
              exact Fires.unlock hawake hprog hown
            · cases h
        | wait k m next =>
            simp only [hprog] at h
            split at h
            · rename_i hown
              cases h
              exact Fires.wait hawake hprog hown
            · cases h
        | act f =>
            simp only [hprog, Option.bind_eq_some_iff,
              Option.map_eq_some_iff] at h
            rcases h with ⟨⟨s1, next, w⟩, hf, asleep, hwake, heq⟩
            cases heq
            exact Fires.act hawake (by simpa [Instr.Acts, hprog] using hf) hwake
      · cases h

theorem Fires.loc_cases {prog : Program thread mutex cond mem choice loc}
    {s s' : mem} {c c' : Threads thread mutex cond loc}
    {e : Event thread choice} (h : Fires prog s c e s' c') (u : thread) :
    c'.loc u = c.loc u ∨
      (prog u (c.loc u)).syncNext = some (c'.loc u) ∨
      exists ch w, (prog u (c.loc u)).Acts s ch s' (c'.loc u) w := by
  have hmoved : forall {t : thread} {next : loc t},
      u ≠ t -> Function.update c.loc t next u = c.loc u :=
    fun hu => Function.update_of_ne hu _ _
  cases h with
  | @lock t _ _ _ next _ hinstr _ | @unlock t _ _ _ next _ hinstr _
  | @wait t _ _ _ _ next _ hinstr _ =>
      dsimp only
      by_cases hu : u = t
      · subst hu
        refine Or.inr (Or.inl ?_)
        rw [hinstr, Function.update_self]
        rfl
      · exact Or.inl (hmoved hu)
  | @act t ch _ _ next w _ _ hacts _ =>
      dsimp only
      by_cases hu : u = t
      · subst hu
        refine Or.inr (Or.inr ⟨ch, w, ?_⟩)
        rw [Function.update_self]
        exact hacts
      · exact Or.inl (hmoved hu)
  | spurious _ => exact Or.inl rfl

end Machine

end Concurrency
end PracticeHand
