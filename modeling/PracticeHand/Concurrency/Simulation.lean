import PracticeHand.Concurrency.Runs

/-!
# Simulation

One system follows another: every visible step of the first is a step of the
second, and every hidden step leaves the second where it is.  A run of the first
is then a run of the second along the visible part of its schedule.
-/

namespace PracticeHand
namespace Concurrency

namespace System

variable {state state' action action' : Type}
variable {sys : System state action} {sys' : System state' action'}
variable {ok : state -> action -> Prop}

/-- The step conditions under which `sys'` follows `sys`: `visible` says which
steps it takes part in, and `Rel` what the two states have in common. -/
structure Follows (sys : System state action) (ok : state -> action -> Prop)
    (sys' : System state' action') (visible : action -> Option action')
    (Rel : state -> state' -> Prop) : Prop where
  shown : forall {s t : state} {r : state'} {a : action} {b : action'},
    Rel s r -> ok s a -> visible a = some b -> sys.step s a = some t ->
    exists r', sys'.step r b = some r' ∧ Rel t r'
  hidden : forall {s t : state} {r : state'} {a : action},
    Rel s r -> ok s a -> visible a = none -> sys.step s a = some t -> Rel t r

theorem Follows.run {visible : action -> Option action'}
    {Rel : state -> state' -> Prop} (h : Follows sys ok sys' visible Rel)
    {s u : state} {schedule : List action}
    (hrun : RunUnder sys ok s schedule u) :
    forall {r : state'}, Rel s r ->
      exists r', Run sys' r (schedule.filterMap visible) r' ∧ Rel u r' := by
  induction hrun with
  | nil s =>
      intro r hrel
      exact ⟨r, RunUnder.nil r, hrel⟩
  | @cons s t u a rest hok hone _ ih =>
      intro r hrel
      cases hvisible : visible a with
      | none =>
          rcases ih (h.hidden hrel hok hvisible hone) with ⟨r', hrest, hlast⟩
          refine ⟨r', ?_, hlast⟩
          rw [List.filterMap_cons_none hvisible]
          exact hrest
      | some b =>
          rcases h.shown hrel hok hvisible hone with ⟨r1, hstep, hrel1⟩
          rcases ih hrel1 with ⟨r', hrest, hlast⟩
          refine ⟨r', ?_, hlast⟩
          rw [List.filterMap_cons_some hvisible]
          exact RunUnder.cons trivial hstep hrest

end System

end Concurrency
end PracticeHand
