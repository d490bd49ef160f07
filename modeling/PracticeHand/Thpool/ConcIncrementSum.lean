import PracticeHand.Thpool.ConcIncrement

/-!
# What conc_increment prints

However the threads are scheduled, no increment is lost: `sum` is always the number of
jobs that have returned and of those that have stored and not returned yet.  When
`thpool_wait` returns, all accepted jobs have returned, so the program prints their
number.
-/

namespace PracticeHand
namespace ConcIncrement

open Concurrency
open Thpool

variable {n jobs : Nat} {s t : Program n}

theorem MainMove.plain {c : Choice Function Arg} (h : MainMove jobs s c t) :
    c.plain = true := by
  cases h <;> rfl

theorem Part.plain {a : Thpool.Action n 1 Function Arg} (h : Part jobs s a t) :
    Plain s.process a := by
  cases h with
  | @main j c woken _ huser hmove =>
      change PlainChoice (.client j) (s.process.pool.client j) c
      rw [huser]
      exact hmove.plain
  | @ret i woken hin _ =>
      rcases WorkerPc.inJob_cases hin with ⟨job, function, arg, hl⟩
      change PlainChoice (.worker i) (s.process.pool.worker i) .ret
      rw [hl]
      rfl
  | none hclient hworker howner =>
      cases a with
      | deliver | hold => exact trivial
      | thread e =>
          cases e with
          | spurious => exact trivial
          | run u c woken =>
              cases u with
              | owner => exact howner c woken rfl
              | client j =>
                  have huser := hclient j c woken rfl
                  change PlainChoice (.client j) (s.process.pool.client j) c
                  generalize s.process.pool.client j = f at huser
                  cases f with
                  | user => exact (huser rfl).elim
                  | _ => exact trivial
              | worker i =>
                  have hin := hworker i c woken rfl
                  change PlainChoice (.worker i) (s.process.pool.worker i) c
                  generalize s.process.pool.worker i = l at hin
                  cases l with
                  | running job function arg f =>
                      cases f with
                      | user => cases hin
                      | _ => exact trivial
                  | _ => exact trivial

theorem poolStep_cases {a : Thpool.Action n 1 Function Arg} (h : poolStep jobs s a = some t) :
    exists r process, Part jobs s a r ∧ Thpool.step s.process a = some process ∧
      t = { r with process := process } := by
  rcases Option.bind_eq_some_iff.mp h with ⟨r, hpart, hrest⟩
  rcases Option.map_eq_some_iff.mp hrest with ⟨process, hstep, rfl⟩
  exact ⟨r, process, part_of_takePart hpart, hstep, rfl⟩

/-!
## The mutex and the sum
-/

def IncrementPc.inside : IncrementPc -> Bool
  | .load => true
  | .store _ => true
  | .unlock => true
  | _ => false

def IncrementPc.stored : IncrementPc -> Bool
  | .unlock => true
  | .ret => true
  | _ => false

structure SumInv (s : Program n) : Prop where
  running : forall i, s.body i ≠ .lock -> (s.process.pool.worker i).inJob = true
  holder : forall i, (s.body i).inside = true <-> s.mutex = some i
  fresh : forall i v, s.body i = .store v -> v = s.sum
  sum : s.sum = s.process.pool.mem.history.finished.length +
    countWhere IncrementPc.stored s.body

theorem sumInv_start : SumInv (start n) where
  running i h := (h rfl).elim
  holder i := ⟨nofun, nofun⟩
  fresh i v h := nomatch h
  sum := by
    have hzero : countWhere IncrementPc.stored (fun _ : Fin n => IncrementPc.lock) = 0 :=
      countWhere_eq_zero.mpr (fun _ => rfl)
    simp [start, Process.initial, Pool.initial, hzero]

theorem SumInv.goBody (h : SumInv s) {i : Fin n} {pc : IncrementPc} {mutex : Option (Fin n)}
    {sum : Int} (hin : (s.process.pool.worker i).inJob = true)
    (hholder : pc.inside = true <-> mutex = some i)
    (hothers : forall j, j ≠ i -> (mutex = some j <-> s.mutex = some j))
    (hfresh : forall v, pc = .store v -> v = sum)
    (hkept : sum = s.sum ∨ s.mutex = some i)
    (hsum : sum + (s.body i).stored.toNat = s.sum + pc.stored.toNat) :
    SumInv { s with body := Function.update s.body i pc, mutex := mutex, sum := sum } := by
  refine ⟨?_, ?_, ?_, ?_⟩
  · intro j hj
    dsimp only at hj ⊢
    by_cases hji : j = i
    · rw [hji]
      exact hin
    · rw [Function.update_of_ne hji] at hj
      exact h.running j hj
  · intro j
    dsimp only
    by_cases hji : j = i
    · subst hji
      rw [Function.update_self]
      exact hholder
    · rw [Function.update_of_ne hji, hothers j hji]
      exact h.holder j
  · intro j v hv
    dsimp only at hv ⊢
    by_cases hji : j = i
    · subst hji
      rw [Function.update_self] at hv
      exact hfresh v hv
    · rw [Function.update_of_ne hji] at hv
      rcases hkept with hsame | howns
      · rw [hsame]
        exact h.fresh j v hv
      · have hheld := (h.holder j).mp (by rw [hv]; rfl)
        rw [howns] at hheld
        exact (hji (Option.some.inj hheld).symm).elim
  · have hcount := countWhere_update IncrementPc.stored s.body i pc
    have hbefore := h.sum
    dsimp only
    lia

theorem SumInv.increment (h : SumInv s) {i : Fin n}
    (hin : (s.process.pool.worker i).inJob = true) (hstep : increment s i = some t) :
    SumInv t := by
  have howns : (s.body i).inside = true -> s.mutex = some i := (h.holder i).mp
  cases hbody : s.body i with
  | ret => simp [ConcIncrement.increment, hbody] at hstep
  | lock =>
      simp only [ConcIncrement.increment, hbody] at hstep
      split at hstep
      · rename_i hfree
        cases hstep
        refine h.goBody hin (by simp [IncrementPc.inside]) ?_ nofun (Or.inl rfl) (by rw [hbody]; rfl)
        intro j hj
        rw [hfree]
        simp [Ne.symm hj]
      · cases hstep
  | load =>
      rw [hbody] at howns
      simp only [ConcIncrement.increment, hbody] at hstep
      cases hstep
      refine h.goBody hin (by simp [IncrementPc.inside, howns rfl]) (fun _ _ => Iff.rfl) ?_
        (Or.inl rfl) (by rw [hbody]; rfl)
      intro v hv
      cases hv
      rfl
  | store v =>
      rw [hbody] at howns
      have hv := h.fresh i v hbody
      simp only [ConcIncrement.increment, hbody] at hstep
      cases hstep
      refine h.goBody hin (by simp [IncrementPc.inside, howns rfl]) (fun _ _ => Iff.rfl) nofun
        (Or.inr (howns rfl)) ?_
      simp [hbody, hv, IncrementPc.stored]
  | unlock =>
      rw [hbody] at howns
      simp only [ConcIncrement.increment, hbody] at hstep
      cases hstep
      refine h.goBody hin (by simp [IncrementPc.inside]) ?_ nofun (Or.inl rfl) (by rw [hbody]; rfl)
      intro j hj
      rw [howns rfl]
      simp [Ne.symm hj]

theorem SumInv.keeps (h : SumInv s) {r : Program n} {process : Process n 1 Function Arg}
    (hbody : r.body = s.body) (hmutex : r.mutex = s.mutex) (hsum : r.sum = s.sum)
    (hfinished : process.pool.mem.history.finished = s.process.pool.mem.history.finished)
    (hin : forall i, (s.process.pool.worker i).inJob = true ->
      process.pool.worker i = s.process.pool.worker i) :
    SumInv { r with process := process } := by
  refine ⟨?_, ?_, ?_, ?_⟩ <;> dsimp only <;> rw [hbody]
  · intro i hi
    rw [hin i (h.running i hi)]
    exact h.running i hi
  · rw [hmutex]
    exact h.holder
  · rw [hsum]
    exact h.fresh
  · rw [hsum, hfinished]
    exact h.sum

theorem SumInv.ret (h : SumInv s) {i : Fin n} {job ticket : Nat}
    {process : Process n 1 Function Arg} (hret : s.body i = .ret)
    (hworker : process.pool.worker =
      Function.update s.process.pool.worker i (.free job))
    (hfinished : process.pool.mem.history.finished =
      s.process.pool.mem.history.finished ++ [ticket]) :
    SumInv { s with body := Function.update s.body i .lock, process := process } := by
  refine ⟨?_, ?_, ?_, ?_⟩ <;> dsimp only
  · intro j hj
    by_cases hji : j = i
    · subst hji
      rw [Function.update_self] at hj
      exact (hj rfl).elim
    · rw [Function.update_of_ne hji] at hj
      rw [hworker, Function.update_of_ne hji]
      exact h.running j hj
  · intro j
    by_cases hji : j = i
    · subst hji
      have hholder := h.holder j
      rw [hret] at hholder
      rw [Function.update_self]
      exact hholder
    · rw [Function.update_of_ne hji]
      exact h.holder j
  · intro j v hv
    by_cases hji : j = i
    · subst hji
      rw [Function.update_self] at hv
      cases hv
    · rw [Function.update_of_ne hji] at hv
      exact h.fresh j v hv
  · have hcount := countWhere_update IncrementPc.stored s.body i .lock
    rw [hret] at hcount
    simp only [IncrementPc.stored, Bool.toNat_true, Bool.toNat_false] at hcount
    have hbefore := h.sum
    rw [hfinished, List.length_append, List.length_singleton]
    lia

/-!
## The main thread
-/

structure Adding (jobs refused k : Nat) (p : Process n 1 Function Arg) : Prop where
  le : k ≤ jobs
  filed : refused + p.filed = k
  outside : p.pool.waiting (.client 0) = none

structure Awaiting (jobs refused : Nat) (p : Process n 1 Function Arg) : Prop where
  filed : refused + p.filed = jobs
  call : WaitInv (.client 0) (jobs - refused) p
  done : p.pool.waiting (.client 0) = none -> Settled p.pool.mem.history (jobs - refused)

def MainInv (jobs : Nat) (s : Program n) : Prop :=
  match s.main with
  | .loop k => Adding jobs s.refused k s.process ∧ s.printed = none
  | .wait => Awaiting jobs s.refused s.process ∧ s.printed = none
  | .exited => exists v, s.printed = some v ∧ v + s.refused = jobs

structure ProgramInv (jobs : Nat) (s : Program n) : Prop where
  plain : PlainReach s.process
  sum : SumInv s
  main : MainInv jobs s

theorem programInv_start : ProgramInv jobs (start n) where
  plain := plainReach_initial
  sum := sumInv_start
  main := ⟨⟨Nat.zero_le _, rfl, rfl⟩, rfl⟩

section PoolSteps

variable {p p' : Process n 1 Function Arg} {a : Thpool.Action n 1 Function Arg}

theorem Awaiting.step {refused : Nat} (h : Awaiting jobs refused p) (hplain : PlainReach p)
    (hstep : Thpool.step p a = some p') (hnext : PlainReach p') (hfiled : p'.filed = p.filed) :
    Awaiting jobs refused p' := by
  have hreach := hplain.reach.reachable
  rcases reachable_tokenInv hreach with ⟨hlock, hstage, _⟩
  have hserves := reachable_serves hreach
  have hext := extends_of_step (hserves hplain.inv.used).1 hstep
  refine ⟨by rw [hfiled]; exact h.filed,
    waitInv_step hlock hstage hserves h.call hstep hnext.inv.used, ?_⟩
  intro hout
  cases hin : p.pool.waiting (.client 0) with
  | none => exact (h.done hin).extends hext
  | some pc =>
      have hpc := unlock_of_leave hstep hin hout
      rw [hpc] at hin
      exact (h.call.unlock hin).extends hext

theorem MainInv.keeps {r : Program n} (h : MainInv jobs s) (hplain : PlainReach s.process)
    (hstep : Thpool.step s.process a = some p') (hnext : PlainReach p')
    (hmain : r.main = s.main) (hrefused : r.refused = s.refused)
    (hprinted : r.printed = s.printed) (hfiled : p'.filed = s.process.filed)
    (hout : s.process.pool.waiting (.client 0) = none -> p'.pool.waiting (.client 0) = none) :
    MainInv jobs { r with process := p' } := by
  unfold MainInv at h ⊢
  dsimp only
  rw [hmain, hprinted, hrefused]
  split at h
  · exact ⟨⟨h.1.le, by rw [hfiled]; exact h.1.filed, hout h.1.outside⟩, h.2⟩
  · exact ⟨h.1.step hplain hstep hnext hfiled, h.2⟩
  · exact h

theorem filed_of_user {f : Frame} {sh : Shared n Function Arg} (hclient : p.pool.client 0 = f)
    (hshared : p.shared = sh) : p.filed = sh.2.history.accepted.length + f.filing := by
  rw [← hclient, ← hshared]
  rfl

theorem MainInv.call {c : Choice Function Arg} (h : MainInv jobs s)
    (huser : s.process.pool.client 0 = .user) (hmove : MainMove jobs s c t)
    (hcall : PlainCall s.process.shared c p'.shared (p'.pool.client 0)) :
    MainInv jobs { t with process := p' } := by
  have hbefore := filed_of_user huser rfl
  generalize hshared : p'.shared = sh at hcall
  generalize hclient : p'.pool.client 0 = f at hcall
  have hafter := filed_of_user hclient hshared
  have hwaiting : p'.pool.waiting (.client 0) = f.waitPc := congrArg Frame.waitPc hclient
  unfold MainInv at h
  cases hmove with
  | @add k addr hmain hk =>
      rw [hmain] at h
      have hfiled := h.1.filed
      cases hcall with
      | refused =>
          refine ⟨⟨hk, ?_, hwaiting⟩, h.2⟩
          dsimp only
          rw [if_pos rfl]
          lia
      | @alloc _ _ addr _ =>
          refine ⟨⟨hk, ?_, hwaiting⟩, h.2⟩
          rw [show s.process.shared.2.history.accepted =
            (allocJob addr Function.increment none (noteAddWork addr
              Function.increment none s.process.shared)).2.history.accepted from rfl]
            at hbefore
          dsimp only
          rw [if_neg (by simp)]
          simp only [Frame.filing, Frame.standing, PushPc.linked, Option.isSome_none,
            Option.isSome_some, Bool.toNat_true, Bool.toNat_false, Bool.false_eq_true,
            if_false] at hbefore hafter
          lia
  | @wait k hmain hk =>
      rw [hmain] at h
      have hfiled := h.1.filed
      have hle := h.1.le
      cases hcall with
      | wait =>
          have hsame : p'.filed = s.process.filed := hafter.trans hbefore.symm
          refine ⟨⟨by dsimp only; lia, ⟨?_, ?_, ?_⟩, ?_⟩, h.2⟩
          · change _ ≤ p'.shared.2.history.accepted.length
            rw [hshared]
            simp only [Frame.filing, Frame.standing, Option.isSome_none, Bool.toNat_false]
              at hbefore
            dsimp only
            lia
          · rw [hwaiting]
            intro hpc
            cases hpc
          · rw [hwaiting]
            intro hpc
            cases hpc
          · rw [hwaiting]
            intro hpc
            cases hpc

end PoolSteps

/-!
## Every step keeps the invariant
-/

theorem ProgramInv.pool (h : ProgramInv jobs s) {a : Thpool.Action n 1 Function Arg}
    (hstep : poolStep jobs s a = some t) : ProgramInv jobs t := by
  rcases poolStep_cases hstep with ⟨r, process, hpart, hpool, rfl⟩
  have hnext := h.plain.step hpart.plain hpool
  refine ⟨hnext, ?_, ?_⟩
  · cases hpart with
    | main huser hmove =>
        rcases call_of_step huser hmove.plain hpool with ⟨hcall, hworker⟩
        have hfinished : process.pool.mem.history.finished =
            s.process.pool.mem.history.finished := hcall.finished
        cases hmove with
        | add | wait =>
            exact h.sum.keeps rfl rfl rfl hfinished (fun i _ => congrFun hworker i)
    | @ret i woken hin hret =>
        rcases return_of_step hin hpool with ⟨job, hworker, hfinished, _⟩
        exact h.sum.ret hret hworker hfinished
    | none hclient hworker howner =>
        have hkeeps := h.plain.inv.keeps hpool hclient hworker
        exact h.sum.keeps rfl rfl rfl hkeeps.finished hkeeps.inJob
  · cases hpart with
    | @main j c woken _ huser hmove =>
        obtain rfl := Fin.fin_one_eq_zero j
        exact h.main.call huser hmove (call_of_step huser hmove.plain hpool).1
    | @ret i woken hin hret =>
        rcases return_of_step hin hpool with ⟨job, _, _, hfiled, hwaiting⟩
        exact h.main.keeps h.plain hpool hnext rfl rfl rfl hfiled (fun hnone => hwaiting.trans hnone)
    | none hclient hworker howner =>
        have hkeeps := h.plain.inv.keeps hpool hclient hworker
        exact h.main.keeps h.plain hpool hnext rfl rfl rfl hkeeps.filed hkeeps.outside

theorem increment_keeps {i : Fin n} (h : increment s i = some t) :
    t.process = s.process ∧ t.main = s.main ∧ t.refused = s.refused ∧
      t.printed = s.printed := by
  unfold increment at h
  split at h
  · split at h
    · cases h
      exact ⟨rfl, rfl, rfl, rfl⟩
    · cases h
  all_goals
    cases h
    try exact ⟨rfl, rfl, rfl, rfl⟩

theorem ProgramInv.increment (h : ProgramInv jobs s) {i : Fin n}
    (hin : (s.process.pool.worker i).inJob = true)
    (hstep : ConcIncrement.increment s i = some t) : ProgramInv jobs t := by
  rcases increment_keeps hstep with ⟨hprocess, hmain, hrefused, hprinted⟩
  refine ⟨by rw [hprocess]; exact h.plain, h.sum.increment hin hstep, ?_⟩
  have hbefore := h.main
  unfold MainInv at hbefore ⊢
  rw [hprocess, hmain, hrefused, hprinted]
  exact hbefore

/-- When the main thread is back from `thpool_wait`, all increments have been stored. -/
theorem ProgramInv.sum_eq (h : ProgramInv jobs s) (hwait : s.main = .wait)
    (hback : s.process.pool.client 0 = .user) : s.sum + s.refused = jobs := by
  have hmain := h.main
  unfold MainInv at hmain
  rw [hwait] at hmain
  have hfiled := hmain.1.filed
  have haccepted := filed_of_user hback rfl
  simp only [Frame.filing, Frame.standing, Option.isSome_none, Bool.toNat_false] at haccepted
  have hwaiting : s.process.pool.waiting (.client 0) = none := congrArg Frame.waitPc hback
  rcases hmain.1.done hwaiting with ⟨bound, hbound, hfinished, _⟩
  have hbooked := (reachable_serves h.plain.reach.reachable h.plain.inv.used).1
  have hlength : s.process.filed = s.process.pool.mem.history.accepted.length := haccepted
  rcases all_finished hbooked (fun k hk => hfinished k (by lia)) with ⟨hall, hnobody⟩
  have hzero : countWhere IncrementPc.stored s.body = 0 := by
    rw [countWhere_eq_zero]
    intro i
    by_cases hlock : s.body i = .lock
    · rw [hlock]
      rfl
    · have hin := h.sum.running i hlock
      rw [hnobody i] at hin
      cases hin
  have hsum := h.sum.sum
  rw [hzero, hall] at hsum
  lia

theorem programInv_step {a : Action n} (h : ProgramInv jobs s)
    (hstep : (concIncrement n jobs).step s a = some t) : ProgramInv jobs t := by
  change step jobs s a = some t at hstep
  unfold step at hstep
  split at hstep
  · cases hstep
  · cases a with
    | pool a => exact h.pool hstep
    | increment i =>
        dsimp only at hstep
        split at hstep
        · rename_i hin
          exact h.increment hin.1 hstep
        · cases hstep
    | print =>
        dsimp only at hstep
        split at hstep
        · rename_i hback
          cases hstep
          exact ⟨h.plain, ⟨h.sum.running, h.sum.holder, h.sum.fresh, h.sum.sum⟩,
            s.sum, rfl, h.sum_eq hback.1 hback.2⟩
        · cases hstep

theorem reachable_programInv (h : (concIncrement n jobs).Reachable s) : ProgramInv jobs s := by
  apply System.ReachableUnder.invariant _ _ h
  · intro s hs
    rw [show s = start n from hs]
    exact programInv_start
  · intro s t a hinv _ hstep
    exact programInv_step hinv hstep

/-- One worker at a time is between the lock and the unlock, and what the program prints
is the number of the jobs that were not refused. -/
theorem concIncrement_prints (h : (concIncrement n jobs).Reachable s) :
    (forall i j, (s.body i).inside = true -> (s.body j).inside = true -> i = j) ∧
      forall v, s.printed = some v -> v + s.refused = jobs := by
  have hinv := reachable_programInv h
  constructor
  · intro i j hi hj
    have hown := (hinv.sum.holder i).mp hi
    rw [(hinv.sum.holder j).mp hj] at hown
    exact (Option.some.inj hown).symm
  · intro v hv
    have hmain := hinv.main
    unfold MainInv at hmain
    split at hmain
    · rw [hmain.2] at hv
      cases hv
    · rw [hmain.2] at hv
      cases hv
    · rcases hmain with ⟨v', hv', hsum⟩
      rw [hv'] at hv
      rw [← Option.some.inj hv]
      exact hsum

def startTwo (i j : Fin n) : List (Action n) :=
  (Tid.owner.steps 6 ++ (Tid.worker i).steps 4 ++ (Tid.worker j).steps 4 ++
    Tid.owner.steps 1).map .pool

def callTwo (i j : Fin n) : List (Action n) :=
  ((Tid.client soleClient).chooses (.addWork Function.increment none (some 0)) ++
    (Tid.client soleClient).steps 6 ++
    (Tid.client soleClient).chooses (.addWork Function.increment none (some 1)) ++
    (Tid.client soleClient).steps 6 ++ (Tid.worker i).steps 15 ++
    (Tid.worker j).steps 12).map .pool

def returnTwo (i j : Fin n) : List (Action n) :=
  ((Tid.worker i).chooses .ret ++ (Tid.worker j).chooses .ret ++ (Tid.worker i).steps 4 ++
    (Tid.worker j).steps 4 ++ (Tid.client soleClient).chooses .wait ++
    (Tid.client soleClient).steps 4).map .pool

/-- Two threads and two jobs, from where `thpool_init` has returned. -/
def runTwo (i j : Fin n) : List (Action n) :=
  callTwo i j ++ List.replicate 4 (.increment i) ++ List.replicate 4 (.increment j) ++
    returnTwo i j ++ [.print]

theorem concIncrement_prints_two :
    exists s : Program 2, s.printed = some 2 ∧ s.refused = 0 ∧ (2 : Int) + s.refused = 2 := by
  have hrun : exists s, (concIncrement 2 2).Reachable s ∧ (s.printed = some 2 ∧ s.refused = 0) :=
    System.reachable_of_exec (startTwo 0 1 ++ runTwo 0 1) rfl (by decide)
  rcases hrun with ⟨s, hreach, hprinted, hrefused⟩
  exact ⟨s, hprinted, hrefused, (concIncrement_prints hreach).2 2 hprinted⟩

end ConcIncrement
end PracticeHand
