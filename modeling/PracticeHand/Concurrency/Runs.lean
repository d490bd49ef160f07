/-!
# Runs of a transition system

A transition system is given by its initial states and a partial step function
labelled by actions.  An action names everything that the environment chooses
(which thread moves, which sleeper a signal wakes, which address an allocation
returns), so a list of actions is a schedule and determines the run.

Runs are taken under a condition on the steps: `RunUnder ok` only takes a
step `a` from a state `s` when `ok s a` holds.  An unrestricted
run is the case where the condition is always true.
-/

namespace PracticeHand
namespace Concurrency

/-- Initial states and a step function; the action resolves every choice. -/
structure System (state action : Type) where
  Init : state -> Prop
  step : state -> action -> Option state

namespace System

variable {state action : Type} {sys : System state action}
variable {ok : state -> action -> Prop}

/-- A run whose every step meets the condition `ok`. -/
inductive RunUnder (sys : System state action) (ok : state -> action -> Prop) :
    state -> List action -> state -> Prop where
  | nil (s : state) : RunUnder sys ok s [] s
  | cons {s t u : state} {a : action} {rest : List action} :
      ok s a -> sys.step s a = some t -> RunUnder sys ok t rest u ->
      RunUnder sys ok s (a :: rest) u

def Anything (_s : state) (_a : action) : Prop := True

def Run (sys : System state action) : state -> List action -> state -> Prop :=
  RunUnder sys Anything

/-- States at the end of a run from an initial state under `ok`. -/
def ReachableUnder (sys : System state action)
    (ok : state -> action -> Prop) (u : state) : Prop :=
  exists s schedule, sys.Init s ∧ RunUnder sys ok s schedule u

def Reachable (sys : System state action) (u : state) : Prop :=
  ReachableUnder sys Anything u

/-!
## The invariant rule

What holds at the start and is kept by every allowed step holds at the end of
every run.
-/

theorem RunUnder.invariant (Inv : state -> Prop)
    (hstep : forall {s t : state} {a : action},
      Inv s -> ok s a -> sys.step s a = some t -> Inv t)
    {s u : state} {schedule : List action}
    (hrun : RunUnder sys ok s schedule u) (hs : Inv s) : Inv u := by
  induction hrun with
  | nil _ => exact hs
  | cons hok hone _ ih => exact ih (hstep hs hok hone)

theorem ReachableUnder.invariant {Inv : state -> Prop}
    (hinit : forall {s : state}, sys.Init s -> Inv s)
    (hstep : forall {s t : state} {a : action},
      Inv s -> ok s a -> sys.step s a = some t -> Inv t)
    {u : state} (h : ReachableUnder sys ok u) : Inv u := by
  rcases h with ⟨s, schedule, hs, hrun⟩
  exact hrun.invariant Inv hstep (hinit hs)

theorem ReachableUnder.reachable {s : state} (h : ReachableUnder sys ok s) :
    Reachable sys s := by
  rcases h with ⟨s0, schedule, hs, hrun⟩
  refine ⟨s0, schedule, hs, ?_⟩
  clear hs
  induction hrun with
  | nil _ => exact RunUnder.nil _
  | cons _ hone _ ih => exact RunUnder.cons trivial hone ih

/-- If a step keeps a property exactly when it meets the condition, a run ends with
the property exactly when it starts with it and all its steps meet the condition. -/
theorem run_exact {Inv P : state -> Prop}
    (hinv : forall {s t : state} {a : action}, Inv s -> sys.step s a = some t -> Inv t)
    (hstep : forall {s t : state} {a : action}, Inv s -> sys.step s a = some t ->
      (P t <-> P s ∧ ok s a))
    {s u : state} {schedule : List action}
    (hrun : Run sys s schedule u) (hs : Inv s) :
    P u <-> P s ∧ RunUnder sys ok s schedule u := by
  induction hrun with
  | nil s => exact ⟨fun h => ⟨h, RunUnder.nil s⟩, And.left⟩
  | @cons s t u a rest _ hone _ ih =>
      rw [ih (hinv hs hone), hstep hs hone]
      constructor
      · intro hparts
        rcases hparts with ⟨⟨hP, hok⟩, hrest⟩
        exact ⟨hP, RunUnder.cons hok hone hrest⟩
      · intro hparts
        rcases hparts with ⟨hP, hrun⟩
        cases hrun with
        | cons hok hone' hrest =>
            rw [hone] at hone'
            cases hone'
            exact ⟨⟨hP, hok⟩, hrest⟩

theorem RunUnder.weaken {ok' : state -> action -> Prop} {s u : state}
    {schedule : List action} (hrun : RunUnder sys ok s schedule u)
    (h : forall {s : state} {a : action}, ok s a -> ok' s a) :
    RunUnder sys ok' s schedule u := by
  induction hrun with
  | nil s => exact RunUnder.nil s
  | cons hok hone _ ih => exact RunUnder.cons (h hok) hone ih

theorem RunUnder.weaken_of {Inv : state -> Prop} {ok' : state -> action -> Prop}
    (hinv : forall {s t : state} {a : action}, Inv s -> sys.step s a = some t -> Inv t)
    (h : forall {s t : state} {a : action}, Inv s -> sys.step s a = some t -> ok s a -> ok' s a)
    {s u : state} {schedule : List action} (hrun : RunUnder sys ok s schedule u) (hs : Inv s) :
    RunUnder sys ok' s schedule u := by
  induction hrun with
  | nil s => exact RunUnder.nil s
  | cons hok hone _ ih => exact RunUnder.cons (h hs hone hok) hone (ih (hinv hs hone))

theorem RunUnder.append {s t u : state} {front back : List action}
    (hfront : RunUnder sys ok s front t) (hback : RunUnder sys ok t back u) :
    RunUnder sys ok s (front ++ back) u := by
  induction hfront with
  | nil _ => exact hback
  | cons hok hone _ ih => exact RunUnder.cons hok hone (ih hback)

theorem ReachableUnder.run {s u : state} {schedule : List action}
    (h : ReachableUnder sys ok s) (hrun : RunUnder sys ok s schedule u) :
    ReachableUnder sys ok u := by
  rcases h with ⟨s0, before, hs, hbefore⟩
  exact ⟨s0, before ++ schedule, hs, hbefore.append hrun⟩

theorem ReachableUnder.next {s u : state} {a : action}
    (h : ReachableUnder sys ok s) (hok : ok s a)
    (hone : sys.step s a = some u) : ReachableUnder sys ok u :=
  h.run (RunUnder.cons hok hone (RunUnder.nil u))

/-!
## Observers

An observer writes down what it sees of each step and changes nothing: every run
of the system is a run of the observed system, and the other way round.
-/

section Observers

variable {note : Type}

/-- The system together with the notes of an observer. -/
def observe (sys : System state action) (start : note)
    (write : state -> action -> state -> note -> note) : System (state × note) action where
  Init x := sys.Init x.1 ∧ x.2 = start
  step x a := (sys.step x.1 a).map fun t => (t, write x.1 a t x.2)

variable {start : note} {write : state -> action -> state -> note -> note}

theorem observe_step {x : state × note} {a : action} {t : state}
    (h : sys.step x.1 a = some t) :
    (observe sys start write).step x a = some (t, write x.1 a t x.2) := by
  simp only [observe, h, Option.map_some]

theorem RunUnder.observed {s u : state} {schedule : List action}
    (hrun : RunUnder sys ok s schedule u) (g : note) :
    exists g', RunUnder (observe sys start write) (fun x a => ok x.1 a)
      (s, g) schedule (u, g') := by
  induction hrun generalizing g with
  | nil s => exact ⟨g, RunUnder.nil (s, g)⟩
  | @cons s t u a rest hok hone _ ih =>
      rcases ih (write s a t g) with ⟨g', hrest⟩
      exact ⟨g', RunUnder.cons hok (observe_step hone) hrest⟩

theorem RunUnder.unobserved {x y : state × note} {schedule : List action}
    (hrun : RunUnder (observe sys start write) (fun x a => ok x.1 a) x schedule y) :
    RunUnder sys ok x.1 schedule y.1 := by
  induction hrun with
  | nil x => exact RunUnder.nil x.1
  | cons hok hone _ ih =>
      rcases Option.map_eq_some_iff.mp hone with ⟨t, hstep, rfl⟩
      exact RunUnder.cons hok hstep ih

/-- The reachable states are those that are reached under observation. -/
theorem reachableUnder_iff_observed {u : state} :
    ReachableUnder sys ok u <->
      exists g, ReachableUnder (observe sys start write) (fun x a => ok x.1 a) (u, g) := by
  constructor
  · intro hparts
    rcases hparts with ⟨s, schedule, hs, hrun⟩
    rcases hrun.observed start with ⟨g, hobserved⟩
    exact ⟨g, (s, start), schedule, ⟨hs, rfl⟩, hobserved⟩
  · intro hparts
    rcases hparts with ⟨g, x, schedule, hx, hrun⟩
    exact ⟨x.1, schedule, hx.1, hrun.unobserved⟩

end Observers

/-!
## Executing a schedule

The executable form of a run, used to evaluate concrete schedules.
-/

/-- Follow a schedule, stopping where a step is disabled or breaks the condition. -/
def execUnder (sys : System state action) (ok : state -> action -> Prop)
    [forall s a, Decidable (ok s a)] : state -> List action -> Option state
  | s, [] => some s
  | s, a :: rest =>
      if ok s a then (sys.step s a).bind (fun t => execUnder sys ok t rest)
      else none

def exec (sys : System state action) : state -> List action -> Option state
  | s, [] => some s
  | s, a :: rest => (sys.step s a).bind (fun t => exec sys t rest)

theorem runUnder_of_execUnder [forall s a, Decidable (ok s a)] :
    forall {schedule : List action} {s u : state},
      execUnder sys ok s schedule = some u -> RunUnder sys ok s schedule u
  | [], s, u, h => by
      have hsu : s = u := by simpa [execUnder] using h
      rw [hsu]
      exact RunUnder.nil u
  | a :: rest, s, u, h => by
      by_cases hok : ok s a
      · simp only [execUnder, if_pos hok, Option.bind_eq_some_iff] at h
        rcases h with ⟨t, hone, hrest⟩
        exact RunUnder.cons hok hone (runUnder_of_execUnder hrest)
      · simp [execUnder, if_neg hok] at h

theorem run_iff_exec {schedule : List action} {s u : state} :
    Run sys s schedule u <-> exec sys s schedule = some u := by
  constructor
  · intro hrun
    induction hrun with
    | nil _ => rfl
    | cons _ hone _ ih => simp only [exec, hone, Option.bind_some, ih]
  · intro h
    induction schedule generalizing s with
    | nil =>
        have hsu : s = u := by simpa [exec] using h
        rw [hsu]
        exact RunUnder.nil u
    | cons a rest ih =>
        simp only [exec, Option.bind_eq_some_iff] at h
        rcases h with ⟨t, hone, hrest⟩
        exact RunUnder.cons trivial hone (ih hrest)

/-- A schedule that executes to a state with a property reaches such a state. -/
theorem reachableUnder_of_execUnder [forall s a, Decidable (ok s a)]
    {s : state} (schedule : List action) {p : state -> Prop} [DecidablePred p]
    (hs : sys.Init s)
    (h : (execUnder sys ok s schedule).any (fun u => decide (p u)) = true) :
    exists u, ReachableUnder sys ok u ∧ p u := by
  cases hrun : execUnder sys ok s schedule with
  | none => simp [hrun] at h
  | some u =>
      exact ⟨u, ⟨s, schedule, hs, runUnder_of_execUnder hrun⟩,
        by simpa [hrun] using h⟩

theorem exists_run_of_exec {s : state} (schedule : List action)
    {p : state -> Prop} [DecidablePred p]
    (h : (exec sys s schedule).any (fun u => decide (p u)) = true) :
    exists u, Run sys s schedule u ∧ p u := by
  cases hrun : exec sys s schedule with
  | none => simp [hrun] at h
  | some u => exact ⟨u, run_iff_exec.mpr hrun, by simpa [hrun] using h⟩

theorem reachable_of_exec {s : state} (schedule : List action)
    {p : state -> Prop} [DecidablePred p] (hs : sys.Init s)
    (h : (exec sys s schedule).any (fun u => decide (p u)) = true) :
    exists u, Reachable sys u ∧ p u := by
  rcases exists_run_of_exec schedule h with ⟨u, hrun, hp⟩
  exact ⟨u, ⟨s, schedule, hs, hrun⟩, hp⟩

end System

end Concurrency
end PracticeHand
