import PracticeHand.Thpool.Tokens
import PracticeHand.Thpool.Books

/-!
# Jobs are handed out once and in order

As long as `thpool_destroy` has not reached `jobqueue_destroy`, the jobs that
`jobqueue_pull` has returned and the jobs in the queue are together the accepted
jobs in the order of their `jobqueue_push` sections, and each job function is
called at most once, by the worker that pulled the job.
-/

namespace PracticeHand
namespace Thpool

open Concurrency

variable {n m : Nat} {fn arg : Type}

/-!
## Only workers pull
-/

theorem UserMove.handed {caller : Option Ptr} {s s' : Shared n fn arg}
    {f f' : Frame} {w : Wake Cond} (h : UserMove caller s f s' f' w) :
    s'.2.history.handed = s.2.history.handed := by
  cases h with
  | link hlink =>
      rcases linkJob_cases hlink with ⟨_, _, _, _, _, rfl⟩
      rfl
  | _ => rfl

theorem takeJob_handed {puller : Option (Fin n)} {s s' : Shared n fn arg}
    {p : PullPc} (h : takeJob puller s = some (s', p)) {x : Handed n}
    (hx : x ∈ s'.2.history.handed) :
    x ∈ s.2.history.handed ∨ x.puller = puller := by
  rcases takeJob_cases h with ⟨_, _, _, _, rfl⟩ | ⟨_, _, _, _, _, rfl⟩
  · exact Or.inl hx
  · rcases List.mem_append.mp hx with hx | hx
    · exact Or.inl hx
    · rw [List.mem_singleton.mp hx]
      exact Or.inr rfl

theorem freeJob_handed {s s' : Shared n fn arg} {job : Option Ptr}
    (h : freeJob s job = some s') :
    s'.2.history.handed = s.2.history.handed := by
  rcases freeJob_cases h with ⟨_, rfl⟩ | ⟨_, _, _, rfl⟩
  · rfl
  · rfl

theorem WorkerMove.handed {i : Fin n} {s s' : Shared n fn arg}
    {l l' : WorkerPc fn arg} {w : Wake Cond} (h : WorkerMove i s l s' l' w)
    {x : Handed n} (hx : x ∈ s'.2.history.handed) :
    x ∈ s.2.history.handed ∨ x.puller = some i := by
  cases h with
  | take htake => exact takeJob_handed htake hx
  | user hmove =>
      rw [hmove.handed] at hx
      exact Or.inl hx
  | free hfree =>
      rw [freeJob_handed hfree] at hx
      exact Or.inl hx
  | _ => exact Or.inl hx

theorem OwnerMove.handed {s s' : Shared n fn arg} {l l' : OwnerPc}
    {w : Wake Cond} (h : OwnerMove s l s' l' w)
    (hafter : l'.phase.released = false) :
    s'.2.history.handed = s.2.history.handed := by
  cases h <;> first | rfl | cases hafter

def Process.Serves (s : Process n m fn arg) : Prop :=
  s.pool.owner.phase.released = false ->
    s.Booked ∧ forall x, x ∈ s.pool.mem.history.handed -> x.puller ≠ none

theorem serves_initial : (Process.initial : Process n m fn arg).Serves := by
  intro _
  refine ⟨booked_initial, ?_⟩
  intro x hx
  cases hx

theorem serves_step {s s' : Process n m fn arg} {a : Action n m fn arg}
    (hstage : StageInv s) (h : s.Serves) (hstep : step s a = some s') :
    s'.Serves := by
  intro hafter
  have hbefore := released_of_step hstep hafter
  rcases h hbefore with ⟨hbooked, hworkers⟩
  constructor
  · refine booked_step hstage hbooked ?_ hstep
    intro total htotal
    rw [htotal] at hbefore
    cases hbefore
  · intro x hx
    cases shift_of_step hstep with
    | signal | spurious | sync | sleep => exact hworkers x hx
    | worker _ hmove _ =>
        rcases hmove.handed hx with hold | hnew
        · exact hworkers x hold
        · rw [hnew]
          simp
    | client _ hmove _ =>
        refine hworkers x ?_
        rwa [← show _ = s.pool.mem.history.handed from hmove.handed]
    | owner hmove _ =>
        rw [owner_after] at hafter
        refine hworkers x ?_
        rwa [← show _ = s.pool.mem.history.handed from hmove.handed hafter]

theorem reachable_serves {s : Process n m fn arg}
    (h : (thpool n m fn arg).Reachable s) : s.Serves := by
  have hboth : StageInv s ∧ s.Serves := by
    apply System.ReachableUnder.invariant _ _ h
    · intro s hs
      rw [show s = Process.initial from hs]
      exact ⟨stageInv_initial, serves_initial⟩
    · intro s t a hinv _ hstep
      exact ⟨stageInv_step hinv.1 hstep, serves_step hinv.1 hinv.2 hstep⟩
  exact hboth.2

/-!
## Every job is the one that was asked for

A node carries the function and the argument of a call of `thpool_add_work` to
`jobqueue_push`, and to the worker that calls the job.
-/

structure PoolMem.Faithful (m : PoolMem n fn arg) : Prop where
  node : forall p x, m.heap.payload p = some x -> m.history.asked p = some x
  linked : m.history.requested =
    m.history.accepted.map fun a => some (a.function, a.arg)

theorem faithful_initial : ({} : PoolMem n fn arg).Faithful where
  node := by
    intro p x hx
    cases hx
  linked := rfl

theorem PoolMem.Faithful.keep {m m' : PoolMem n fn arg} (h : m.Faithful)
    (hheap : m'.heap = m.heap) (hasked : m'.history.asked = m.history.asked)
    (hrequested : m'.history.requested = m.history.requested)
    (haccepted : m'.history.accepted = m.history.accepted) : m'.Faithful where
  node := by
    rw [hheap, hasked]
    exact h.node
  linked := by
    rw [hrequested, haccepted]
    exact h.linked

theorem PoolMem.Faithful.alloc {s : Shared n fn arg} (h : s.2.Faithful)
    (p : Ptr) (function : fn) (arg' : arg) :
    (allocJob p function arg' (noteAddWork p function arg' s)).2.Faithful where
  node := by
    intro r x hx
    by_cases hr : r = p
    · subst hr
      simp only [allocJob, noteAddWork, onPool, Heap.payload,
        Function.update_self] at hx ⊢
      exact hx
    · simp only [allocJob, noteAddWork, onPool, Heap.payload,
        Function.update_of_ne hr] at hx ⊢
      exact h.node r x hx
  linked := h.linked

theorem PoolMem.Faithful.link {caller : Option Ptr} {newjob : Ptr}
    {s s' : Shared n fn arg} (h : s.2.Faithful)
    (hlink : linkJob caller newjob s = some s') : s'.2.Faithful := by
  rcases linkJob_cases hlink with ⟨node, heap, q, hnode, hpush, rfl⟩
  have hasked : s.2.history.asked newjob = some (node.function, node.arg) :=
    h.node newjob _ (by rw [Heap.payload, hnode]; rfl)
  constructor
  · intro p x hx
    exact h.node p x ((pushSection_payload hpush p).symm.trans hx)
  · simp [onPool, hasked, h.linked]

theorem PoolMem.Faithful.take {puller : Option (Fin n)} {s s' : Shared n fn arg}
    {p : PullPc} (h : s.2.Faithful) (htake : takeJob puller s = some (s', p)) :
    s'.2.Faithful := by
  rcases takeJob_cases htake with ⟨_, _, _, _, rfl⟩ | ⟨_, _, _, _, _, rfl⟩
  · exact h.keep rfl rfl rfl rfl
  · exact h.keep rfl rfl rfl rfl

theorem PoolMem.Faithful.free {s s' : Shared n fn arg} {job : Option Ptr}
    (h : s.2.Faithful) (hfree : freeJob s job = some s') : s'.2.Faithful := by
  rcases freeJob_cases hfree with ⟨_, rfl⟩ | ⟨p, _, _, rfl⟩
  · exact h
  · refine ⟨?_, h.linked⟩
    intro r x hx
    by_cases hr : r = p
    · subst hr
      simp [onPool, Heap.payload] at hx
    · simp only [onPool, Heap.payload, Function.update_of_ne hr] at hx
      exact h.node r x hx

theorem UserMove.faithful {caller : Option Ptr} {s s' : Shared n fn arg}
    {f f' : Frame} {w : Wake Cond} (hmove : UserMove caller s f s' f' w)
    (h : s.2.Faithful) : s'.2.Faithful := by
  cases hmove with
  | alloc _ => exact h.alloc _ _ _
  | link hlink => exact h.link hlink
  | _ => exact h.keep rfl rfl rfl rfl

theorem WorkerMove.faithful {i : Fin n} {s s' : Shared n fn arg}
    {l l' : WorkerPc fn arg} {w : Wake Cond} (hmove : WorkerMove i s l s' l' w)
    (h : s.2.Faithful) : s'.2.Faithful := by
  cases hmove with
  | take htake => exact h.take htake
  | user hmove => exact hmove.faithful h
  | free hfree => exact h.free hfree
  | _ => exact h.keep rfl rfl rfl rfl

theorem OwnerMove.faithful {s s' : Shared n fn arg} {l l' : OwnerPc}
    {w : Wake Cond} (hmove : OwnerMove s l s' l' w) (h : s.2.Faithful) :
    s'.2.Faithful := by
  cases hmove with
  | clearTake htake => exact h.take htake
  | clearFree hfree => exact h.free hfree
  | _ => exact h.keep rfl rfl rfl rfl

theorem reachable_faithful {s : Process n m fn arg}
    (h : (thpool n m fn arg).Reachable s) : s.pool.mem.Faithful := by
  apply System.ReachableUnder.invariant _ _ h
  · intro s hs
    rw [show s = Process.initial from hs]
    exact faithful_initial
  · intro s t a hinv _ hstep
    cases shift_of_step hstep with
    | signal | spurious | sync | sleep => exact hinv.keep rfl rfl rfl rfl
    | worker _ hmove _ => exact hmove.faithful hinv
    | client _ hmove _ => exact hmove.faithful hinv
    | owner hmove _ => exact hmove.faithful hinv

theorem PoolMem.Faithful.requested_of_due {m : PoolMem n fn arg}
    (h : m.Faithful) {k : Nat} {x : fn × arg}
    (hdue : m.history.due k = some x) :
    m.history.requested[k]? = some (some x) := by
  rcases Option.map_eq_some_iff.mp hdue with ⟨a, ha, rfl⟩
  simp [h.linked, ha]

/-!
## The code never follows a bad pointer

A section of the model fails where the code would follow NULL or a pointer that
is not allocated.  With the books in order none of them fails.
-/

theorem linkJob_succeeds {s : Process n m fn arg} (hb : s.Booked)
    {t : Tid n m} {p : Ptr} (caller : Option Ptr)
    (ht : (s.pool.standing t).newjob = some p) :
    linkJob caller p s.shared ≠ none := by
  rcases hb with ⟨l, b⟩
  rcases b.fresh t p ht with ⟨halloc, hqueue, _⟩
  rcases Option.ne_none_iff_exists'.mp halloc with ⟨node, hnode⟩
  rcases pushSection_represents b.represents hnode hqueue with
    ⟨heap, q, hpush, _⟩
  simp [linkJob, Process.shared, hnode, hpush]

theorem takeJob_succeeds {s : Process n m fn arg} (hb : s.Booked)
    (puller : Option (Fin n)) : takeJob puller s.shared ≠ none := by
  rcases hb with ⟨l, b⟩
  cases l with
  | nil =>
      have hpull := pullSection_nil b.represents
      simp [takeJob, Process.shared, hpull]
  | cons p rest =>
      rcases pullSection_cons b.represents with ⟨q, hpull, _, _⟩
      simp [takeJob, Process.shared, hpull]

theorem freeJob_succeeds {s : Process n m fn arg} (hb : s.Booked)
    {t : Tid n m} {p : Ptr} {st : Stage}
    (ht : (s.pool.standing t).job = some (p, st)) :
    s.pool.mem.heap p ≠ none ∧ freeJob s.shared (some p) ≠ none := by
  rcases hb with ⟨l, b⟩
  have halloc := b.allocated (t := t) ht
  exact ⟨halloc, by simp [freeJob, Process.shared, halloc]⟩

/-- A worker can always read the job that it pulled, free it, and change the
queue, and a call of `thpool_add_work` can always link its node. -/
theorem thpool_no_bad_pointer {s : Process n m fn arg}
    (hreach : (thpool n m fn arg).Reachable s)
    (hused : s.pool.owner.phase.released = false) :
    (forall t p caller, (s.pool.standing t).newjob = some p ->
      linkJob caller p s.shared ≠ none) ∧
    (forall i : Fin n, takeJob (some i) s.shared ≠ none) ∧
    (forall t p st, (s.pool.standing t).job = some (p, st) ->
      s.pool.mem.heap p ≠ none ∧ freeJob s.shared (some p) ≠ none) := by
  have hb := (reachable_serves hreach hused).1
  exact ⟨fun _ _ caller ht => linkJob_succeeds hb caller ht,
    fun i => takeJob_succeeds hb (some i),
    fun _ _ _ ht => freeJob_succeeds hb ht⟩

/-!
## Exactly once and in order
-/

theorem called_nodup {s : Process n m fn arg} (hb : s.Booked) :
    (s.pool.mem.history.called.map Call.ticket).Nodup := by
  rcases hb with ⟨l, b⟩
  rw [List.nodup_iff_count_le_one]
  intro k
  have htally : (s.pool.mem.history.tally k).called ≤ 1 := by
    by_cases hk : k ∈ s.pool.mem.history.handed.map Handed.ticket
    · rcases List.mem_map.mp hk with ⟨x, hx, rfl⟩
      rcases b.settled x hx with ⟨p, st, hp, hticket⟩ | hdone
      · rcases b.carried _ p st hp with ⟨_, _, _, hstage⟩
        rw [← hticket, hstage]
        cases st <;> simp [Stage.tally]
      · rw [hdone]
        cases x.puller <;> simp [doneTally]
    · rw [b.untouched k hk]
      simp
  exact htally

theorem thpool_jobs_in_order {s : Process n m fn arg}
    (hreach : (thpool n m fn arg).Reachable s)
    (hused : s.pool.owner.phase.released = false) :
    exists l : List Ptr,
      Represents s.pool.mem.heap s.pool.mem.jobqueue l ∧
      s.pool.mem.history.handed.map Handed.ticket ++
          l.map s.pool.mem.history.ticketOf =
        List.range s.pool.mem.history.accepted.length ∧
      (forall p, p ∈ l -> s.pool.mem.heap.payload p =
        s.pool.mem.history.due (s.pool.mem.history.ticketOf p)) ∧
      s.pool.mem.history.requested =
        s.pool.mem.history.accepted.map (fun a => some (a.function, a.arg)) ∧
      (forall x, x ∈ s.pool.mem.history.handed ->
        exists i, x.puller = some i) ∧
      (s.pool.mem.history.called.map Call.ticket).Nodup ∧
      (forall c, c ∈ s.pool.mem.history.called ->
        { puller := some c.worker, ticket := c.ticket } ∈
            s.pool.mem.history.handed ∧
          s.pool.mem.history.due c.ticket = some (c.function, c.arg) ∧
          s.pool.mem.history.requested[c.ticket]? =
            some (some (c.function, c.arg))) := by
  rcases reachable_serves hreach hused with ⟨hb, hworkers⟩
  have hnodup := called_nodup hb
  have hfaithful := reachable_faithful hreach
  rcases hb with ⟨l, b⟩
  refine ⟨l, b.represents, b.order, fun p hp => b.payload p (Or.inl hp),
    hfaithful.linked, ?_, hnodup, ?_⟩
  · intro x hx
    exact Option.ne_none_iff_exists'.mp (hworkers x hx)
  · intro c hc
    rcases b.calls c hc with ⟨hmem, hdue⟩
    exact ⟨hmem, hdue, hfaithful.requested_of_due hdue⟩

def runOneJob (i : Fin n) (j : Fin m) : List (Action n m Unit Unit) :=
  addOneJob i j ++ (Tid.worker i).steps 12

theorem thpool_jobs_in_order_one :
    exists s : Process 1 1 Unit Unit,
      s.pool.owner.phase.released = false ∧
      s.pool.mem.history.called =
        [{ worker := 0, ticket := 0, function := (), arg := () }] ∧
      exists l : List Ptr,
        s.pool.mem.history.handed.map Handed.ticket ++
            l.map s.pool.mem.history.ticketOf =
          List.range s.pool.mem.history.accepted.length := by
  have hrun : exists s, (thpool 1 1 Unit Unit).Reachable s ∧
      (s.pool.owner.phase.released = false ∧
        s.pool.mem.history.called =
          [{ worker := 0, ticket := 0, function := (), arg := () }]) :=
    System.reachable_of_exec (s := Process.initial) (runOneJob 0 0) rfl (by decide)
  rcases hrun with ⟨s, hreach, hused, hcalled⟩
  rcases thpool_jobs_in_order hreach hused with ⟨l, _, horder, _⟩
  exact ⟨s, hused, hcalled, l, horder⟩

end Thpool
end PracticeHand
