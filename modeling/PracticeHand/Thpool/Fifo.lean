import PracticeHand.Thpool.JobQueue

/-!
# The job queue is a first-in first-out list

The functions of the job queue one after the other, as a single thread calls them:
`jobqueue_push` of a node that has just been allocated, `jobqueue_pull`,
`jobqueue_clear`, and `free` of a node that was pulled.  They refine a list of jobs
that is extended at its end and taken from at its beginning, until a push finds
INT_MAX jobs queued: `len++` then overflows the `int`.
-/

namespace PracticeHand
namespace Thpool

variable {fn arg : Type}

/-!
## Code
-/

structure Store (fn arg : Type) where
  heap : Heap fn arg
  queue : JobQueue
  hasJobs : Bool
  -- nodes that were pulled and not freed; no function reads this
  held : List Ptr

/-- `free(p)`; a pointer that is not allocated is undefined, and NULL is ignored. -/
def Heap.free (heap : Heap fn arg) : Option Ptr -> Option (Heap fn arg)
  | none => some heap
  | some p => (heap p).map (fun _ => Function.update heap p none)

def intMax : Int := 2147483647

namespace Store

/-- Undefined where `len++` overflows. -/
def jobqueuePush (s : Store fn arg) (newjob : Ptr) : Option (Store fn arg) :=
  if s.queue.len < intMax then do
    let (heap, queue) <- pushSection s.heap s.queue newjob
    return { s with heap := heap, queue := queue, hasJobs := true }
  else none

def jobqueuePull (s : Store fn arg) : Option (Option Ptr × Store fn arg) := do
  let (job, queue, posts) <- pullSection s.heap s.queue
  return (job, { s with queue := queue, hasJobs := s.hasJobs || posts })

def clearLoop : Nat -> Store fn arg -> Option (Store fn arg)
  | 0, s => if s.queue.len = 0 then some s else none
  | turns + 1, s =>
      if s.queue.len = 0 then some s
      else do
        let (job, s) <- s.jobqueuePull
        let heap <- s.heap.free job
        clearLoop turns { s with heap := heap }

def jobqueueClear (s : Store fn arg) : Option (Store fn arg) := do
  let s <- clearLoop s.queue.len.toNat s
  return { s with queue := jobqueueInit, hasJobs := false }

def init (heap : Heap fn arg) : Store fn arg where
  heap := heap
  queue := jobqueueInit
  hasJobs := false
  held := []

end Store

inductive Op (fn arg : Type) where
  /-- `malloc` has returned `p`, and the node has been filled in but for `prev` -/
  | push (p : Ptr) (job : Job fn arg)
  | pull
  | clear
  | free (p : Ptr)

abbrev Result := Option (Option Ptr)

/-- One call; none where its behaviour is undefined. -/
def Store.call (s : Store fn arg) : Op fn arg -> Option (Store fn arg × Result)
  | .push p job =>
      ({ s with heap := Function.update s.heap p (some job) }.jobqueuePush p).map
        (fun s => (s, none))
  | .pull =>
      s.jobqueuePull.map (fun r => ({ r.2 with held := r.1.toList ++ r.2.held }, some r.1))
  | .clear => s.jobqueueClear.map (fun s => (s, none))
  | .free p =>
      (s.heap.free (some p)).map
        (fun heap => ({ s with heap := heap, held := s.held.erase p }, none))

/-- `malloc` returns memory that is not in use, and only a node that was pulled is
freed. -/
def Store.Allows (s : Store fn arg) : Op fn arg -> Prop
  | .push p _ => s.heap p = none
  | .free p => p ∈ s.held
  | .pull | .clear => True

def Store.calls : Store fn arg -> List (Op fn arg) -> Option (Store fn arg × List Result)
  | s, [] => some (s, [])
  | s, op :: ops => do
      let (s, r) <- s.call op
      let (s, rs) <- Store.calls s ops
      return (s, r :: rs)

def Store.AllowsAll : Store fn arg -> List (Op fn arg) -> Prop
  | _, [] => True
  | s, op :: ops => s.Allows op ∧ forall s' r, s.call op = some (s', r) -> s'.AllowsAll ops

/-!
## The list
-/

abbrev Entry (fn arg : Type) := Ptr × fn × arg

def fifo (l : List (Entry fn arg)) : Op fn arg -> List (Entry fn arg) × Result
  | .push p job => (l ++ [(p, job.function, job.arg)], none)
  | .pull => (l.tail, some (l.head?.map Prod.fst))
  | .clear => ([], none)
  | .free _ => (l, none)

def fifoAll : List (Entry fn arg) -> List (Op fn arg) -> List (Entry fn arg) × List Result
  | l, [] => (l, [])
  | l, op :: ops =>
      let (l, r) := fifo l op
      let (l, rs) := fifoAll l ops
      (l, r :: rs)

/-- With `k` jobs queued, no push of the sequence finds INT_MAX jobs queued. -/
def NeverFull : Nat -> List (Op fn arg) -> Prop
  | _, [] => True
  | k, .push _ _ :: ops => k < intMax ∧ NeverFull (k + 1) ops
  | k, .pull :: ops => NeverFull (k - 1) ops
  | _, .clear :: ops => NeverFull 0 ops
  | k, .free _ :: ops => NeverFull k ops

/-- Following `prev` from the pointer visits these nodes and ends at NULL. -/
inductive Visits (heap : Heap fn arg) : Option Ptr -> List Ptr -> Prop where
  | nil : Visits heap none []
  | cons {p : Ptr} {job : Job fn arg} {rest : List Ptr} :
      heap p = some job -> Visits heap job.prev rest -> Visits heap (some p) (p :: rest)

theorem Linked.visits {heap : Heap fn arg} :
    forall {l : List Ptr}, Linked heap l -> Visits heap l.head? l
  | [], _ => .nil
  | [p], h => by
      rcases h with ⟨job, hjob, hprev⟩
      refine .cons hjob ?_
      rw [hprev]
      exact .nil
  | p :: q :: rest, h => by
      rcases h with ⟨⟨job, hjob, hprev⟩, htail⟩
      refine .cons hjob ?_
      rw [hprev]
      exact htail.visits

/-- The queue is the list, and no node that was pulled is in it. -/
structure Shape (s : Store fn arg) (l : List (Entry fn arg)) : Prop where
  visits : Visits s.heap s.queue.front (l.map Prod.fst)
  len : s.queue.len = l.length
  distinct : (l.map Prod.fst).Nodup
  rear : s.queue.rear = (l.map Prod.fst).getLast?
  last : forall p, s.queue.rear = some p -> exists job, s.heap p = some job ∧ job.prev = none
  empty : (s.queue.front = none <-> s.queue.len = 0) ∧ (s.queue.rear = none <-> s.queue.len = 0)
  jobs : forall e, e ∈ l -> s.heap.payload e.1 = some e.2
  pulled : forall p, p ∈ s.held -> p ∉ l.map Prod.fst

/-!
## The representation invariant
-/

structure StoreInv (s : Store fn arg) (l : List (Entry fn arg)) : Prop where
  represents : Represents s.heap s.queue (l.map Prod.fst)
  jobs : forall e, e ∈ l -> s.heap.payload e.1 = some e.2
  pulled : forall p, p ∈ s.held -> p ∉ l.map Prod.fst
  allocated : forall p, p ∈ s.held -> s.heap p ≠ none
  once : s.held.Nodup

theorem Linked.last_prev {heap : Heap fn arg} :
    forall {l : List Ptr} {p : Ptr}, Linked heap l -> l.getLast? = some p ->
      exists job, heap p = some job ∧ job.prev = none
  | [], _, _, hp => by cases hp
  | [q], p, h, hp => by
      cases hp
      exact h
  | q :: r :: rest, p, h, hp => by
      rw [List.getLast?_cons_cons] at hp
      exact h.2.last_prev hp

theorem StoreInv.shape {s : Store fn arg} {l : List (Entry fn arg)} (h : StoreInv s l) :
    Shape s l where
  visits := by
    rw [h.represents.front]
    exact h.represents.linked.visits
  len := by
    rw [h.represents.len, List.length_map]
  distinct := h.represents.nodup
  rear := h.represents.rear
  last := by
    intro p hp
    rw [h.represents.rear] at hp
    exact h.represents.linked.last_prev hp
  empty := by
    rw [h.represents.front, h.represents.rear, h.represents.len]
    cases l with
    | nil => simp
    | cons e rest =>
        simp
        lia
  jobs := h.jobs
  pulled := h.pulled

theorem payload_eq_none {heap : Heap fn arg} {p : Ptr} : heap.payload p = none <-> heap p = none :=
  Option.map_eq_none_iff

theorem entry_ne {l : List (Entry fn arg)} {p : Ptr} (hp : p ∉ l.map Prod.fst)
    {e : Entry fn arg} (he : e ∈ l) : e.1 ≠ p := by
  intro heq
  exact hp (heq ▸ List.mem_map_of_mem he)

section Calls

variable {s : Store fn arg} {l : List (Entry fn arg)}

theorem call_push (h : StoreInv s l) {p : Ptr} (job : Job fn arg) (hfresh : s.heap p = none)
    (hroom : (l.length : Int) < intMax) :
    exists s', s.call (.push p job) = some (s', none) ∧
      StoreInv s' (l ++ [(p, job.function, job.arg)]) := by
  have hnot : p ∉ l.map Prod.fst := fun hp => h.represents.linked.allocated p hp hfresh
  have hheld : forall q, q ∈ s.held -> q ≠ p := by
    intro q hq heq
    exact h.allocated q hq (heq ▸ hfresh)
  have hrep : Represents (Function.update s.heap p (some job)) s.queue (l.map Prod.fst) :=
    h.represents.congr (fun q hq => Function.update_of_ne (ne_of_mem_of_not_mem hq hnot) ..)
  rcases pushSection_represents hrep (Function.update_self ..) hnot with
    ⟨heap', q', hpush, hpushed⟩
  rw [← h.shape.len] at hroom
  refine ⟨{ s with heap := heap', queue := q', hasJobs := true }, ?_, ?_⟩
  · simp [Store.call, Store.jobqueuePush, hroom, hpush]
  · have hpayload : forall q, q ≠ p -> heap'.payload q = s.heap.payload q := by
      intro q hq
      rw [hpushed.payload, Heap.payload, Function.update_of_ne hq]
      rfl
    constructor
    · rw [List.map_append]
      exact hpushed.represents
    · intro e he
      rcases List.mem_append.mp he with hold | hnew
      · exact (hpayload e.1 (entry_ne hnot hold)).trans (h.jobs e hold)
      · rw [List.mem_singleton.mp hnew]
        change heap'.payload p = _
        rw [hpushed.payload, Heap.payload, Function.update_self]
        rfl
    · intro q hq hmem
      rw [List.map_append, List.mem_append] at hmem
      rcases hmem with hold | hnew
      · exact h.pulled q hq hold
      · exact hheld q hq (List.mem_singleton.mp hnew)
    · intro q hq hnone
      rw [← payload_eq_none, hpayload q (hheld q hq), payload_eq_none] at hnone
      exact h.allocated q hq hnone
    · exact h.once

theorem call_push_full (h : StoreInv s l) {p : Ptr} (job : Job fn arg)
    (hfull : ¬ (l.length : Int) < intMax) : s.call (.push p job) = none := by
  rw [← h.shape.len] at hfull
  simp [Store.call, Store.jobqueuePush, hfull]

theorem call_pull (h : StoreInv s l) :
    exists s', s.call .pull = some (s', some (l.head?.map Prod.fst)) ∧ StoreInv s' l.tail := by
  cases l with
  | nil =>
      refine ⟨s, ?_, h⟩
      simp [Store.call, Store.jobqueuePull, pullSection_nil h.represents]
  | cons e rest =>
      rcases pullSection_cons h.represents with ⟨q', hpull, hrep, _⟩
      have hnodup := List.nodup_cons.mp h.represents.nodup
      refine ⟨{ s with
        queue := q'
        hasJobs := s.hasJobs || decide (rest.map Prod.fst ≠ [])
        held := e.1 :: s.held }, ?_, ?_⟩
      · simp [Store.call, Store.jobqueuePull, hpull]
      · constructor
        · exact hrep
        · intro f hf
          exact h.jobs f (List.mem_cons_of_mem e hf)
        · intro p hp hmem
          rcases List.mem_cons.mp hp with rfl | hp
          · exact hnodup.1 hmem
          · exact h.pulled p hp (List.mem_cons_of_mem _ hmem)
        · intro p hp
          rcases List.mem_cons.mp hp with rfl | hp
          · exact h.represents.linked.allocated _ List.mem_cons_self
          · exact h.allocated p hp
        · refine List.nodup_cons.mpr ⟨fun hmem => ?_, h.once⟩
          exact h.pulled e.1 hmem List.mem_cons_self

theorem call_free (h : StoreInv s l) {p : Ptr} (hp : p ∈ s.held) :
    exists s', s.call (.free p) = some (s', none) ∧ StoreInv s' l := by
  have hnot := h.pulled p hp
  rcases Option.ne_none_iff_exists'.mp (h.allocated p hp) with ⟨job, hjob⟩
  refine ⟨{ s with heap := Function.update s.heap p none, held := s.held.erase p }, ?_, ?_⟩
  · simp [Store.call, Heap.free, hjob]
  · constructor
    · exact h.represents.congr
        (fun q hq => Function.update_of_ne (ne_of_mem_of_not_mem hq hnot) ..)
    · intro e he
      change Heap.payload (Function.update s.heap p none) e.1 = _
      rw [Heap.payload, Function.update_of_ne (entry_ne hnot he)]
      exact h.jobs e he
    · intro q hq
      exact h.pulled q (List.mem_of_mem_erase hq)
    · intro q hq
      rcases h.once.mem_erase_iff.mp hq with ⟨hne, hmem⟩
      change Function.update s.heap p none q ≠ none
      rw [Function.update_of_ne hne]
      exact h.allocated q hmem
    · exact h.once.erase p

theorem clearLoop_spec (nodes : List Ptr) : forall {s : Store fn arg},
    Represents s.heap s.queue nodes ->
    exists s', s.clearLoop nodes.length = some s' ∧ s'.held = s.held ∧
      forall p, p ∉ nodes -> s'.heap p = s.heap p := by
  induction nodes with
  | nil =>
      intro s h
      exact ⟨s, if_pos h.len, rfl, fun _ _ => rfl⟩
  | cons p rest ih =>
      intro s h
      have hlen : s.queue.len ≠ 0 := by
        rw [h.len, List.length_cons]
        lia
      rcases pullSection_cons h with ⟨q', hpull, hrep, _⟩
      rcases Option.ne_none_iff_exists'.mp (h.linked.allocated p List.mem_cons_self) with
        ⟨job, hjob⟩
      have hnot : p ∉ rest := (List.nodup_cons.mp h.nodup).1
      -- the node that is freed is no longer in the queue
      have hrest : Represents (Function.update s.heap p none) q' rest :=
        hrep.congr (fun q hq => Function.update_of_ne (ne_of_mem_of_not_mem hq hnot) ..)
      rcases ih (s := { s with
          heap := Function.update s.heap p none
          queue := q'
          hasJobs := s.hasJobs || decide (rest ≠ []) }) hrest with ⟨s', hloop, hheld, hsame⟩
      refine ⟨s', ?_, hheld, ?_⟩
      · rw [List.length_cons, Store.clearLoop, if_neg hlen]
        simpa [Store.jobqueuePull, hpull, Heap.free, hjob] using hloop
      · intro q hq
        rw [List.mem_cons, not_or] at hq
        rw [hsame q hq.2]
        exact Function.update_of_ne hq.1 ..

theorem call_clear (h : StoreInv s l) :
    exists s', s.call .clear = some (s', none) ∧ StoreInv s' [] := by
  have hlen : s.queue.len.toNat = (l.map Prod.fst).length := by
    rw [h.represents.len, Int.toNat_natCast]
  rcases clearLoop_spec (l.map Prod.fst) h.represents with ⟨s', hloop, hheld, hsame⟩
  refine ⟨{ s' with queue := jobqueueInit, hasJobs := false }, ?_, ?_⟩
  · rw [Store.call, Store.jobqueueClear, hlen, hloop]
    rfl
  · constructor
    · exact represents_init s'.heap
    · intro e he
      cases he
    · intro p _ hmem
      cases hmem
    · intro p hp
      change p ∈ s'.held at hp
      rw [hheld] at hp
      change s'.heap p ≠ none
      rw [hsame p (h.pulled p hp)]
      exact h.allocated p hp
    · change s'.held.Nodup
      rw [hheld]
      exact h.once

/-- A call agrees with the list, unless it is the push that overflows. -/
theorem call_refines (h : StoreInv s l) {op : Op fn arg} (hallowed : s.Allows op) :
    (exists s', s.call op = some (s', (fifo l op).2) ∧ StoreInv s' (fifo l op).1 ∧
      forall ops, NeverFull l.length (op :: ops) <-> NeverFull (fifo l op).1.length ops) ∨
    (s.call op = none ∧ forall ops, ¬ NeverFull l.length (op :: ops)) := by
  cases op with
  | push p job =>
      by_cases hroom : (l.length : Int) < intMax
      · rcases call_push h job hallowed hroom with ⟨s', hcall, h'⟩
        refine Or.inl ⟨s', hcall, h', fun ops => ?_⟩
        rw [fifo, List.length_append]
        exact and_iff_right hroom
      · exact Or.inr ⟨call_push_full h job hroom, fun ops hfits => hroom hfits.1⟩
  | pull =>
      rcases call_pull h with ⟨s', hcall, h'⟩
      refine Or.inl ⟨s', hcall, h', fun ops => ?_⟩
      rw [fifo, List.length_tail]
      exact Iff.rfl
  | clear =>
      rcases call_clear h with ⟨s', hcall, h'⟩
      exact Or.inl ⟨s', hcall, h', fun _ => Iff.rfl⟩
  | free p =>
      rcases call_free h hallowed with ⟨s', hcall, h'⟩
      exact Or.inl ⟨s', hcall, h', fun _ => Iff.rfl⟩

theorem calls_refines (ops : List (Op fn arg)) : forall {s : Store fn arg}
    {l : List (Entry fn arg)}, StoreInv s l -> s.AllowsAll ops ->
    (NeverFull l.length ops ∧ exists s', s.calls ops = some (s', (fifoAll l ops).2) ∧
      StoreInv s' (fifoAll l ops).1) ∨
    (¬ NeverFull l.length ops ∧ s.calls ops = none) := by
  induction ops with
  | nil =>
      intro s l h _
      exact Or.inl ⟨trivial, s, rfl, h⟩
  | cons op ops ih =>
      intro s l h hallowed
      rcases call_refines h hallowed.1 with ⟨s1, hcall, h1, hroom⟩ | ⟨hcall, hfull⟩
      · rw [hroom ops]
        rcases ih h1 (hallowed.2 s1 _ hcall) with ⟨hrest, s2, hcalls, h2⟩ | ⟨hrest, hcalls⟩
        · refine Or.inl ⟨hrest, s2, ?_, h2⟩
          simp [Store.calls, hcall, hcalls, fifoAll]
        · refine Or.inr ⟨hrest, ?_⟩
          simp [Store.calls, hcall, hcalls]
      · refine Or.inr ⟨hfull ops, ?_⟩
        simp [Store.calls, hcall]

end Calls

theorem storeInv_init (heap : Heap fn arg) : StoreInv (Store.init heap) [] where
  represents := represents_init heap
  jobs := by
    intro e he
    cases he
  pulled := by
    intro p hp
    cases hp
  allocated := by
    intro p hp
    cases hp
  once := List.nodup_nil

/-- Whatever is called after `jobqueue_init`, the results are those of the list and the
queue is the list, exactly if no push finds INT_MAX jobs queued. -/
theorem jobqueue_refines_fifo_iff (heap : Heap fn arg) {ops : List (Op fn arg)}
    (hallowed : (Store.init heap).AllowsAll ops) :
    (exists s, (Store.init heap).calls ops = some (s, (fifoAll [] ops).2) ∧
      Shape s (fifoAll [] ops).1) <-> NeverFull 0 ops := by
  rcases calls_refines ops (storeInv_init heap) hallowed with
    ⟨hroom, s, hcalls, hinv⟩ | ⟨hfull, hcalls⟩
  · exact ⟨fun _ => hroom, fun _ => ⟨s, hcalls, hinv.shape⟩⟩
  · constructor
    · intro hgood
      rcases hgood with ⟨s, hsome, _⟩
      rw [hcalls] at hsome
      cases hsome
    · intro hroom
      exact (hfull hroom).elim

/-- Two jobs are queued, one is pulled and freed, its memory is used again, and the
queue is cleared. -/
def pushPullClear : List (Op Nat Nat) :=
  [.push 5 ⟨some 9, 1, 1⟩, .push 9 ⟨none, 2, 2⟩, .pull, .free 5, .push 5 ⟨some 5, 3, 3⟩, .clear]

theorem jobqueue_refines_fifo_once :
    exists s, (Store.init (fun _ => none)).calls pushPullClear =
        some (s, [none, none, some (some 5), none, none, none]) ∧
      Shape s [] := by
  have hallowed : (Store.init (fun _ => none)).AllowsAll pushPullClear := by
    refine ⟨rfl, ?_⟩
    intro s r h
    cases h
    refine ⟨rfl, ?_⟩
    intro s r h
    cases h
    refine ⟨trivial, ?_⟩
    intro s r h
    cases h
    refine ⟨List.mem_cons_self, ?_⟩
    intro s r h
    cases h
    refine ⟨rfl, ?_⟩
    intro s r h
    cases h
    exact ⟨trivial, fun _ _ _ => trivial⟩
  exact (jobqueue_refines_fifo_iff _ hallowed).mpr
    (by simp [pushPullClear, NeverFull, intMax])

/-!
## One job too many
-/

def pushes : Nat -> Nat -> List (Op Nat Nat)
  | _, 0 => []
  | p, k + 1 => .push p { prev := none, function := 0, arg := 0 } :: pushes (p + 1) k

theorem neverFull_pushes (k : Nat) : forall {p queued : Nat},
    NeverFull queued (pushes p (k + 1)) -> (queued + k : Int) < intMax := by
  induction k with
  | zero =>
      intro p queued h
      simpa using h.1
  | succ k ih =>
      intro p queued h
      have hrest := ih h.2
      push_cast at hrest ⊢
      lia

theorem call_push_unallocated {s s' : Store fn arg} {p q : Ptr} {job : Job fn arg} {r : Result}
    (hcall : s.call (.push p job) = some (s', r)) (hq : q ≠ p) (hfree : s.heap q = none) :
    s'.heap q = none := by
  simp only [Store.call, Store.jobqueuePush] at hcall
  split at hcall
  · rcases Option.map_eq_some_iff.mp hcall with ⟨s1, hpush, heq⟩
    cases heq
    rcases Option.bind_eq_some_iff.mp hpush with ⟨⟨heap', q'⟩, hsection, heq⟩
    cases heq
    rw [← payload_eq_none, pushSection_payload hsection, payload_eq_none,
      Function.update_of_ne hq]
    exact hfree
  · cases hcall

theorem allowsAll_pushes (k : Nat) : forall {s : Store Nat Nat} {p : Nat},
    (forall q, p ≤ q -> s.heap q = none) -> s.AllowsAll (pushes p k) := by
  induction k with
  | zero =>
      intro s p _
      exact trivial
  | succ k ih =>
      intro s p hfree
      refine ⟨hfree p (Nat.le_refl p), fun s' r hcall => ih ?_⟩
      intro q hq
      exact call_push_unallocated hcall (Nat.ne_of_gt hq) (hfree q (Nat.le_of_succ_le hq))

/-- The push that finds INT_MAX jobs queued has no defined result. -/
theorem jobqueue_push_overflows :
    (Store.init (fun _ => none)).AllowsAll (pushes 0 (intMax.toNat + 1)) ∧
      (Store.init (fun _ => none)).calls (pushes 0 (intMax.toNat + 1)) = none := by
  have hallowed : (Store.init (fun _ => none)).AllowsAll (pushes 0 (intMax.toNat + 1)) :=
    allowsAll_pushes _ (fun _ _ => rfl)
  refine ⟨hallowed, ?_⟩
  rcases calls_refines _ (storeInv_init _) hallowed with ⟨hroom, _⟩ | ⟨_, hcalls⟩
  · have hlt := neverFull_pushes _ hroom
    rw [Int.toNat_of_nonneg (by decide)] at hlt
    simp at hlt
  · exact hcalls

end Thpool
end PracticeHand
