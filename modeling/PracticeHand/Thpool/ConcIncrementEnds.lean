import PracticeHand.Thpool.ConcIncrementSum

/-!
# The program conc_increment comes to its end

Once `thpool_init` has returned, the program ends whatever the scheduler does, unless
sleepers are woken for no reason without end: every other step lessens what is left to
do, and as long as nothing has been printed some step is possible.
-/

namespace PracticeHand
namespace ConcIncrement

open Concurrency
open Thpool

variable {n jobs : Nat} {s t u : Program n}

def NoSpurious (_s : Program n) : Action n -> Prop
  | .pool (.thread (.spurious _)) => False
  | _ => True

instance (s : Program n) (a : Action n) : Decidable (NoSpurious s a) :=
  match a with
  | .pool (.thread (.spurious _)) => inferInstanceAs (Decidable False)
  | .pool (.thread (.run _ _ _)) => inferInstanceAs (Decidable True)
  | .pool (.deliver _) => inferInstanceAs (Decidable True)
  | .pool (.hold _) => inferInstanceAs (Decidable True)
  | .increment _ => inferInstanceAs (Decidable True)
  | .print => inferInstanceAs (Decidable True)

/-!
## What is left to do
-/

def IncrementPc.left : IncrementPc -> Nat
  | .lock => 4
  | .load => 3
  | .store _ => 2
  | .unlock => 1
  | .ret => 0

def MainPc.calls (jobs : Nat) : MainPc -> Nat
  | .loop k => jobs - k + 1
  | _ => 0

def MainPc.running : MainPc -> Nat
  | .exited => 0
  | _ => 1

/-- A step of the pool pays for a turn of `increment`, and the calls of `main` for what
they cost the pool. -/
def Program.left (jobs : Nat) (s : Program n) : Nat :=
  6 * (s.process.effort + 58 * s.main.calls jobs) +
    Finset.univ.sum (fun i => (s.body i).left) + s.main.running

theorem increment_left {i : Fin n} (h : increment s i = some t) :
    t.left jobs < s.left jobs := by
  have hsum := fun pc => sum_update IncrementPc.left s.body i pc
  unfold increment at h
  unfold Program.left
  split at h <;> rename_i hbody
  · split at h
    · cases h
      have hless := hsum .load
      rw [hbody] at hless
      change _ + 4 = _ + 3 at hless
      dsimp only
      lia
    · cases h
  · cases h
    have hless := hsum (.store s.sum)
    rw [hbody] at hless
    change _ + 3 = _ + 2 at hless
    dsimp only
    lia
  · cases h
    have hless := hsum .unlock
    rw [hbody] at hless
    change _ + 2 = _ + 1 at hless
    dsimp only
    lia
  · cases h
    have hless := hsum .ret
    rw [hbody] at hless
    change _ + 1 = _ + 0 at hless
    dsimp only
    lia
  · cases h

theorem MainMove.left {c : Choice Function Arg} {p : Process n 1 Function Arg}
    (h : MainMove jobs s c t) (hp : p.effort ≤ s.process.effort + 57) :
    ({ t with process := p } : Program n).left jobs < s.left jobs := by
  cases h with
  | @add k addr hmain hk =>
      simp only [Program.left, hmain, MainPc.calls, MainPc.running]
      lia
  | @wait k hmain hk =>
      simp only [Program.left, hmain, MainPc.calls, MainPc.running]
      lia

theorem returned_left {i : Fin n} (hret : s.body i = .ret)
    (hbody : t.body = Function.update s.body i .lock) (hmain : t.main = s.main)
    (hless : t.process.effort < s.process.effort) : t.left jobs < s.left jobs := by
  have hsum := sum_update IncrementPc.left s.body i .lock
  rw [hret] at hsum
  change _ + 0 = _ + 4 at hsum
  unfold Program.left
  rw [hbody, hmain]
  lia

theorem ProgramInv.pool_left (h : ProgramInv jobs s) (hready : s.process.pool.owner = .ready)
    {a : Thpool.Action n 1 Function Arg} (hok : NoSpurious s (.pool a))
    (hstep : poolStep jobs s a = some t) : t.left jobs < s.left jobs := by
  have hbooked := (h.plain.winding hready).booked
  rcases poolStep_cases hstep with ⟨r, process, hpart, hpool, rfl⟩
  cases hpart with
  | main huser hmove => exact hmove.left (effort_call huser hmove.plain hpool)
  | @ret i woken hin hret =>
      have hless : process.effort < s.process.effort := by
        refine effort_lessens hbooked (by simp) (fun j hj => by cases hj) ?_ hpool
        intro k job function arg f l sh w _ _ hacts
        exact threadDo_quiet hacts rfl rfl
      exact returned_left hret rfl rfl hless
  | none hclient hworker howner =>
      have hless : process.effort < s.process.effort := by
        cases (h.plain.inv.turns hpool).1 with
        | still => exact hok.elim
        | @sync u c woken _ _ _ _ | @acts u c woken _ _ _ _ =>
            refine effort_lessens hbooked ?_ ?_ ?_ hpool
            · intro hu
              subst hu
              exact howner c woken rfl hready
            · intro j hu
              subst hu
              exact hclient j c woken rfl
            · intro i job function arg f l sh w hu hl
              subst hu
              have hin := hworker i c woken rfl
              rw [hl] at hin
              cases hin
      unfold Program.left
      dsimp only
      lia

theorem ready_step (hready : s.process.pool.owner = .ready)
    {a : Action n} (hstep : step jobs s a = some t) : t.process.pool.owner = .ready := by
  unfold step at hstep
  split at hstep
  · cases hstep
  · cases a with
    | pool a =>
        rcases poolStep_cases hstep with ⟨r, process, hpart, hpool, rfl⟩
        by_contra hmoved
        rcases run_of_moved (t := .owner) hpool (by
          change process.pool.owner ≠ s.process.pool.owner
          rw [hready]
          exact hmoved) with ⟨c, woken, rfl⟩
        exact hpart.plain hready
    | increment i =>
        dsimp only at hstep
        split at hstep
        · rw [(increment_keeps hstep).1]
          exact hready
        · cases hstep
    | print =>
        dsimp only at hstep
        split at hstep
        · cases hstep
          exact hready
        · cases hstep

theorem step_left (h : ProgramInv jobs s) (hready : s.process.pool.owner = .ready)
    {a : Action n} (hok : NoSpurious s a) (hstep : step jobs s a = some t) :
    t.left jobs < s.left jobs := by
  unfold step at hstep
  split at hstep
  · cases hstep
  · cases a with
    | pool a => exact h.pool_left hready hok hstep
    | increment i =>
        dsimp only at hstep
        split at hstep
        · exact increment_left hstep
        · cases hstep
    | print =>
        dsimp only at hstep
        split at hstep
        · rename_i hback
          cases hstep
          simp only [Program.left, hback.1, MainPc.calls, MainPc.running]
          lia
        · cases hstep

/-!
## Where the program cannot go on
-/

/-- No step is possible, except that a sleeper is woken for no reason. -/
def Blocked (jobs : Nat) (s : Program n) : Prop :=
  forall a t, NoSpurious s a -> step jobs s a ≠ some t

theorem exists_increment_of_inside {i : Fin n} (h : (s.body i).inside = true) :
    exists t, increment s i = some t := by
  unfold increment
  cases hbody : s.body i with
  | load | store _ | unlock => exact ⟨_, rfl⟩
  | lock | ret =>
      rw [hbody] at h
      cases h

/-- The mutex is free, or the worker that owns it can go on. -/
theorem SumInv.exists_increment (h : SumInv s) {i : Fin n}
    (hin : (s.process.pool.worker i).inJob = true) (hret : s.body i ≠ .ret) :
    exists j t, (s.process.pool.worker j).inJob = true ∧
      ConcIncrement.increment s j = some t := by
  by_cases hinside : (s.body i).inside = true
  · rcases exists_increment_of_inside hinside with ⟨t, ht⟩
    exact ⟨i, t, hin, ht⟩
  · have hlock : s.body i = .lock := by
      cases hbody : s.body i with
      | lock => rfl
      | ret => exact (hret hbody).elim
      | load | store _ | unlock =>
          rw [hbody] at hinside
          exact (hinside rfl).elim
    cases hmutex : s.mutex with
    | none =>
        refine ⟨i, { s with mutex := some i, body := Function.update s.body i .load }, hin, ?_⟩
        unfold ConcIncrement.increment
        rw [hlock]
        dsimp only
        rw [if_pos hmutex]
    | some j =>
        have hholds := (h.holder j).mpr hmutex
        rcases exists_increment_of_inside hholds with ⟨t, ht⟩
        refine ⟨j, t, h.running j ?_, ht⟩
        intro hj
        rw [hj] at hholds
        cases hholds

theorem ProgramInv.body_of_blocked (h : ProgramInv jobs s) (hrunning : s.main ≠ .exited)
    (hblocked : Blocked jobs s) {i : Fin n} (hin : (s.process.pool.worker i).inJob = true) :
    s.body i = .ret := by
  by_contra hret
  rcases h.sum.exists_increment hin hret with ⟨j, t, hj, ht⟩
  refine hblocked (.increment j) t trivial ?_
  unfold step
  rw [if_neg hrunning]
  dsimp only
  rw [if_pos ⟨hj, h.plain.inv.free j⟩]
  exact ht

theorem not_blocked_of_pool (hrunning : s.main ≠ .exited) {u : Tid n 1}
    {c : Choice Function Arg} {woken : Option (Tid n 1)} {r : Program n}
    {process : Process n 1 Function Arg}
    (hpart : takePart jobs s (.thread (.run u c woken)) = some r)
    (hpool : Thpool.step s.process (.thread (.run u c woken)) = some process) :
    ¬ Blocked jobs s := by
  intro hblocked
  refine hblocked (.pool (.thread (.run u c woken))) { r with process := process } trivial ?_
  unfold step
  rw [if_neg hrunning]
  simp only [poolStep, hpart, hpool, Option.bind_some, Option.map_some]

theorem ProgramInv.stuck (h : ProgramInv jobs s) (hrunning : s.main ≠ .exited)
    (hblocked : Blocked jobs s) : Stuck s.process := by
  intro a process hwinds hpool
  rcases hwinds with ⟨u, c, woken, rfl, hu, hc⟩
  cases u with
  | owner => exact hu rfl
  | client j =>
      have huser : s.process.pool.client j ≠ .user := by
        intro huser
        have hloc : s.process.pool.threads.loc (.client j) = Frame.user := huser
        rcases acts_of_step hpool (by rw [hloc]; rfl) with ⟨_, _, _, _, hacts, _⟩
        exact userCode_quiet hacts hc huser
      refine not_blocked_of_pool hrunning (r := s) ?_ hpool hblocked
      simp only [takePart, if_neg huser]
  | worker i =>
      by_cases hin : (s.process.pool.worker i).inJob = true
      · have hret := h.body_of_blocked hrunning hblocked hin
        rcases WorkerPc.inJob_cases hin with ⟨job, function, arg, hl⟩
        have hloc : s.process.pool.threads.loc (.worker i) =
          WorkerPc.running job function arg .user := hl
        rcases acts_of_step hpool (by rw [hloc]; rfl) with ⟨_, _, _, _, hacts, _⟩
        rw [hloc] at hacts
        cases c with
        | ret =>
            refine not_blocked_of_pool hrunning
              (r := { s with body := Function.update s.body i .lock }) ?_ hpool hblocked
            simp only [takePart, if_pos hin, bodyReturns, if_pos hret]
        | go => cases hacts
        | _ => cases hc
      · refine not_blocked_of_pool hrunning (r := s) ?_ hpool hblocked
        simp only [takePart, if_neg hin]

theorem ProgramInv.call_enabled (h : ProgramInv jobs s)
    (hready : s.process.pool.owner = .ready) (huser : s.process.pool.client 0 = .user)
    {c : Choice Function Arg} {sh : Shared n Function Arg} {f : Frame}
    (hcall : apiCall s.process.shared c = some (sh, f)) :
    exists process, Thpool.step s.process (.thread (.run (.client 0) c none)) = some process := by
  have hloc : s.process.pool.threads.loc (.client 0) = Frame.user := huser
  have hlock := (reachable_tokenInv h.plain.reach.reachable).1
  have hawake : s.process.pool.threads.asleep (.client 0) = none := by
    cases hasleep : s.process.pool.threads.asleep (.client 0) with
    | none => rfl
    | some k =>
        have hsleeps := hlock.sleepers (.client 0) k hasleep
        change (s.process.pool.client 0).SleepsOn k at hsleeps
        rw [huser] at hsleeps
        exact hsleeps.elim
  have hacts : (thpoolCode (.client 0) (s.process.pool.threads.loc (.client 0))).Acts
      s.process.shared c sh f .nobody := by
    rw [hloc]
    change (userCode none .user : Code n Function Arg Frame).Acts s.process.shared c sh f .nobody
    rw [userCode, Instr.acts_act, hcall]
    rfl
  exact ⟨_, step_of_acts (by simp [Pool.mayRun, hready, OwnerPc.initReturned]) hawake hacts rfl⟩

/-- Where the program cannot go on it has printed. -/
theorem ProgramInv.exited (h : ProgramInv jobs s) (hn : 0 < n)
    (hready : s.process.pool.owner = .ready) (hblocked : Blocked jobs s) :
    s.main = .exited := by
  by_contra hrunning
  have hstuck := h.stuck hrunning hblocked
  have huser := h.plain.finished hn hready hstuck 0
  cases hmain : s.main with
  | exited => exact hrunning hmain
  | wait =>
      refine hblocked .print { s with main := .exited, printed := some s.sum } trivial ?_
      unfold step
      rw [if_neg hrunning]
      dsimp only
      rw [if_pos ⟨hmain, huser⟩]
  | loop k =>
      by_cases hk : k < jobs
      · rcases h.call_enabled hready huser (c := .addWork .increment none none) rfl with
          ⟨process, hpool⟩
        refine not_blocked_of_pool hrunning
          (r := { s with main := .loop (k + 1), refused := s.refused + 1 }) ?_ hpool hblocked
        simp [takePart, huser, mainCall, hmain, hk]
      · rcases h.call_enabled hready huser (c := .wait) rfl with ⟨process, hpool⟩
        refine not_blocked_of_pool hrunning (r := { s with main := .wait }) ?_ hpool hblocked
        simp [takePart, huser, mainCall, hmain, hk]

/-- From where `thpool_init` has returned, the program makes a bounded number of steps, and
where it cannot go on it has printed the number of the jobs that were not refused and has
exited. -/
theorem concIncrement_ends (hn : 0 < n) (hreach : (concIncrement n jobs).Reachable s)
    (hready : s.process.pool.owner = .ready) {schedule : List (Action n)}
    (hrun : (concIncrement n jobs).RunUnder NoSpurious s schedule u) :
    schedule.length ≤ s.left jobs ∧
      (Blocked jobs u ->
        u.main = .exited ∧ exists v, u.printed = some v ∧ v + u.refused = jobs) := by
  have hinv := reachable_programInv hreach
  have hstep : forall {x y : Program n} {a : Action n},
      ProgramInv jobs x ∧ x.process.pool.owner = .ready -> NoSpurious x a ->
        (concIncrement n jobs).step x a = some y ->
        (ProgramInv jobs y ∧ y.process.pool.owner = .ready) ∧ y.left jobs < x.left jobs :=
    fun hx hok hone => ⟨⟨programInv_step hx.1 hone, ready_step hx.2 hone⟩,
      step_left hx.1 hx.2 hok hone⟩
  have hbound := hrun.length_le (Program.left jobs) hstep ⟨hinv, hready⟩
  have hend := hrun.invariant (fun x => ProgramInv jobs x ∧ x.process.pool.owner = .ready)
    (fun hx hok hone => (hstep hx hok hone).1) ⟨hinv, hready⟩
  refine ⟨by lia, ?_⟩
  intro hblocked
  have hexited := hend.1.exited hn hend.2 hblocked
  have hmain := hend.1.main
  unfold MainInv at hmain
  rw [hexited] at hmain
  exact ⟨hexited, hmain⟩

theorem blocked_of_exited (h : s.main = .exited) : Blocked jobs s := by
  intro a t _ hstep
  unfold step at hstep
  rw [if_pos h] at hstep
  cases hstep

theorem concIncrement_ends_two :
    exists (s u : Program 2) (schedule : List (Action 2)), s.process.pool.owner = .ready ∧
      s.printed = none ∧ schedule.length ≤ s.left 2 ∧
      exists v, u.printed = some v ∧ v + u.refused = 2 := by
  have hstart : exists s, (concIncrement 2 2).Reachable s ∧
      (s.process.pool.owner = .ready ∧ s.printed = none ∧
        ((concIncrement 2 2).execUnder NoSpurious s (runTwo 0 1)).any
          (fun u => decide (u.main = .exited)) = true) :=
    System.reachable_of_exec (startTwo 0 1) rfl (by decide)
  rcases hstart with ⟨s, hreach, hready, hprinted, hrest⟩
  rcases Option.any_eq_true_iff_get _ _ |>.mp hrest with ⟨hsome, hexited⟩
  have hrun := System.runUnder_of_execUnder (Option.some_get hsome).symm
  rcases concIncrement_ends Nat.two_pos hreach hready hrun with ⟨hbound, hend⟩
  exact ⟨s, _, _, hready, hprinted, hbound,
    (hend (blocked_of_exited (of_decide_eq_true hexited))).2⟩

end ConcIncrement
end PracticeHand
