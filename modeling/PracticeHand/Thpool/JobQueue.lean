import Mathlib.Data.List.Basic
import Mathlib.Logic.Function.Basic

/-!
# The linked job queue

The job queue of `thpool.c`: a heap of job nodes linked through `prev`, with
pointers to the first and the last node and a separate length.  The sections
below are what `jobqueue_push` and `jobqueue_pull` do while they hold
`rwmutex`.  A section fails where the code would follow a NULL pointer or a
pointer that is not allocated.
-/

namespace PracticeHand
namespace Thpool

/-- Address of a job node; NULL is `none` of an `Option Ptr`. -/
abbrev Ptr := Nat

structure Job (fn arg : Type) where
  prev : Option Ptr
  function : fn
  arg : arg
  deriving DecidableEq

abbrev Heap (fn arg : Type) := Ptr -> Option (Job fn arg)

/-- `len` is an `int` in the source: at most INT_MAX jobs are taken to be queued. -/
structure JobQueue where
  front : Option Ptr
  rear : Option Ptr
  len : Int
  deriving DecidableEq

variable {fn arg : Type}

def Heap.payload (heap : Heap fn arg) (p : Ptr) : Option (fn × arg) :=
  (heap p).map fun job => (job.function, job.arg)

def Heap.setPrev (heap : Heap fn arg) (p : Ptr) (prev : Option Ptr) :
    Option (Heap fn arg) :=
  (heap p).map fun job =>
    Function.update heap p (some { job with prev := prev })

def jobqueueInit : JobQueue :=
  { front := none, rear := none, len := 0 }

/-- `jobqueue_push` between taking `rwmutex` and posting `has_jobs`. -/
def pushSection (heap : Heap fn arg) (q : JobQueue) (newjob : Ptr) :
    Option (Heap fn arg × JobQueue) := do
  let heap <- heap.setPrev newjob none
  if q.len = 0 then
    return (heap, { front := some newjob, rear := some newjob, len := q.len + 1 })
  else
    let rear <- q.rear
    let heap <- heap.setPrev rear (some newjob)
    return (heap, { q with rear := some newjob, len := q.len + 1 })

/-- `jobqueue_pull` while it holds `rwmutex`: the job it returns, the queue it
leaves, and whether it posts `has_jobs` again. -/
def pullSection (heap : Heap fn arg) (q : JobQueue) :
    Option (Option Ptr × JobQueue × Bool) :=
  if q.len = 0 then
    some (q.front, q, false)
  else if q.len = 1 then
    some (q.front, { front := none, rear := none, len := 0 }, false)
  else do
    let job <- q.front
    let node <- heap job
    return (some job, { q with front := node.prev, len := q.len - 1 }, true)

/-!
## The queue represents a list

`Linked heap l` says that following `prev` from the first node of `l` visits
the nodes of `l` in order and then meets NULL.
-/

def Linked (heap : Heap fn arg) : List Ptr -> Prop
  | [] => True
  | [p] => exists job, heap p = some job ∧ job.prev = none
  | p :: q :: rest =>
      (exists job, heap p = some job ∧ job.prev = some q) ∧
        Linked heap (q :: rest)

/-- The nodes of the queue are those of `l`, front first. -/
structure Represents (heap : Heap fn arg) (q : JobQueue) (l : List Ptr) :
    Prop where
  len : q.len = l.length
  front : q.front = l.head?
  rear : q.rear = l.getLast?
  linked : Linked heap l
  nodup : l.Nodup

theorem represents_init (heap : Heap fn arg) :
    Represents heap jobqueueInit [] where
  len := rfl
  front := rfl
  rear := rfl
  linked := trivial
  nodup := List.nodup_nil

theorem Represents.eq_nil {heap : Heap fn arg} {q : JobQueue} {l : List Ptr}
    (h : Represents heap q l) (hlen : q.len = 0) : l = [] := by
  have hrep := h.len
  rw [hlen] at hrep
  exact List.length_eq_zero_iff.mp (by exact_mod_cast hrep.symm)

theorem Linked.allocated {heap : Heap fn arg} :
    forall {l : List Ptr}, Linked heap l -> forall p, p ∈ l -> heap p ≠ none
  | [], _, p, hp => by cases hp
  | [q], h, p, hp => by
      rcases h with ⟨job, hjob, _⟩
      have hpq : p = q := by simpa using hp
      rw [hpq, hjob]
      simp
  | q :: r :: rest, h, p, hp => by
      rcases h with ⟨⟨job, hjob, _⟩, htail⟩
      rcases List.mem_cons.mp hp with hpq | hrest
      · rw [hpq, hjob]
        simp
      · exact htail.allocated p hrest

theorem Linked.congr {heap heap' : Heap fn arg} :
    forall {l : List Ptr}, (forall p, p ∈ l -> heap' p = heap p) ->
      Linked heap l -> Linked heap' l
  | [], _, _ => trivial
  | [p], hsame, h => by
      simpa [Linked, hsame p (by simp)] using h
  | p :: q :: rest, hsame, h => by
      refine ⟨?_, Linked.congr (fun r hr => hsame r (by simp [hr])) h.2⟩
      simpa [hsame p (by simp)] using h.1

theorem Represents.congr {heap heap' : Heap fn arg} {q : JobQueue}
    {l : List Ptr} (h : Represents heap q l)
    (hsame : forall p, p ∈ l -> heap' p = heap p) : Represents heap' q l :=
  { h with linked := Linked.congr hsame h.linked }

theorem Linked.snoc {heap : Heap fn arg} {new : Ptr} {job : Job fn arg}
    (hnew : heap new = some job) (hprev : job.prev = none) :
    forall {l : List Ptr} {last : Ptr} {lastJob : Job fn arg},
      Linked heap (l ++ [last]) -> heap last = some lastJob ->
      (l ++ [last]).Nodup -> new ∉ l ++ [last] ->
      Linked
        (Function.update heap last (some { lastJob with prev := some new }))
        (l ++ [last] ++ [new])
  | [], last, lastJob, _, hlast, _, hmem => by
      have hne : new ≠ last := by simpa using hmem
      refine ⟨⟨_, Function.update_self .., rfl⟩, job, ?_, hprev⟩
      rw [Function.update_of_ne hne, hnew]
  | p :: rest, last, lastJob, h, hlast, hnodup, hmem => by
      have hpl : p ≠ last := by
        intro hpl
        simp [hpl] at hnodup
      have htail : Linked heap (rest ++ [last]) := by
        cases rest with
        | nil => exact h.2
        | cons => exact h.2
      have ih := Linked.snoc hnew hprev htail hlast
        (List.nodup_cons.mp hnodup).2
        (fun hin => hmem (List.mem_cons_of_mem _ hin))
      cases rest with
      | nil =>
          refine ⟨?_, ih⟩
          rw [Function.update_of_ne hpl]
          exact h.1
      | cons r rest =>
          refine ⟨?_, ih⟩
          rw [Function.update_of_ne hpl]
          exact h.1

theorem payload_relinked {heap : Heap fn arg} {p : Ptr} {job : Job fn arg}
    (hjob : heap p = some job) (prev : Option Ptr) (r : Ptr) :
    Heap.payload (Function.update heap p (some { job with prev := prev })) r =
      heap.payload r := by
  unfold Heap.payload
  by_cases hr : r = p
  · rw [hr, Function.update_self, hjob]
    rfl
  · rw [Function.update_of_ne hr]

theorem setPrev_payload {heap heap' : Heap fn arg} {p : Ptr} {prev : Option Ptr}
    (h : heap.setPrev p prev = some heap') (r : Ptr) :
    heap'.payload r = heap.payload r := by
  rcases Option.map_eq_some_iff.mp h with ⟨job, hjob, rfl⟩
  exact payload_relinked hjob prev r

/-!
## One lemma for each section
-/

theorem pushSection_payload {heap heap' : Heap fn arg} {q q' : JobQueue}
    {newjob : Ptr} (h : pushSection heap q newjob = some (heap', q')) (r : Ptr) :
    heap'.payload r = heap.payload r := by
  simp only [pushSection, Option.bind_eq_bind, Option.bind_eq_some_iff] at h
  rcases h with ⟨heap1, hnew, h⟩
  split at h
  · cases h
    exact setPrev_payload hnew r
  · rcases Option.bind_eq_some_iff.mp h with ⟨rear, _, h⟩
    rcases Option.bind_eq_some_iff.mp h with ⟨heap2, hrear, h⟩
    cases h
    rw [setPrev_payload hrear, setPrev_payload hnew]

theorem pushSection_empty {heap : Heap fn arg} {q : JobQueue} {newjob : Ptr}
    {job : Job fn arg} (hnew : heap newjob = some job) (hlen : q.len = 0) :
    pushSection heap q newjob =
      some (Function.update heap newjob (some { job with prev := none }),
        { front := some newjob, rear := some newjob, len := q.len + 1 }) := by
  simp [pushSection, Heap.setPrev, hnew, hlen]

theorem pushSection_rear {heap : Heap fn arg} {q : JobQueue}
    {newjob last : Ptr} {job lastJob : Job fn arg}
    (hnew : heap newjob = some job) (hlen : q.len ≠ 0)
    (hrear : q.rear = some last) (hne : newjob ≠ last)
    (hlast : heap last = some lastJob) :
    pushSection heap q newjob =
      some (Function.update
          (Function.update heap newjob (some { job with prev := none }))
          last (some { lastJob with prev := some newjob }),
        { q with rear := some newjob, len := q.len + 1 }) := by
  simp [pushSection, Heap.setPrev, hnew, hlen, hrear,
    Function.update_of_ne hne.symm, hlast]

/-- What a pushed queue keeps of the old one: the new node comes last, every
node keeps its function and argument, and nodes elsewhere are not touched. -/
structure Pushed (heap : Heap fn arg) (q : JobQueue) (l : List Ptr)
    (newjob : Ptr) (heap' : Heap fn arg) (q' : JobQueue) : Prop where
  represents : Represents heap' q' (l ++ [newjob])
  len : q'.len = q.len + 1
  payload : forall p, heap'.payload p = heap.payload p

/-- Pushing a node that is allocated and not in the queue appends it. -/
theorem pushSection_represents {heap : Heap fn arg} {q : JobQueue}
    {l : List Ptr} {newjob : Ptr} {job : Job fn arg}
    (h : Represents heap q l) (hnew : heap newjob = some job)
    (hmem : newjob ∉ l) :
    exists heap' q', pushSection heap q newjob = some (heap', q') ∧
      Pushed heap q l newjob heap' q' := by
  rcases List.eq_nil_or_concat l with hl | ⟨front, last, hl⟩
  · subst hl
    have hlen : q.len = 0 := by simpa using h.len
    refine ⟨_, _, pushSection_empty hnew hlen, ?_, rfl, ?_⟩
    · exact {
        len := by simp [hlen]
        front := rfl
        rear := rfl
        linked := ⟨_, Function.update_self .., rfl⟩
        nodup := by simp }
    · intro p
      exact payload_relinked hnew none p
  · rw [List.concat_eq_append] at hl
    subst hl
    have hne : newjob ≠ last := by
      intro heq
      exact hmem (by simp [heq])
    have hlen : q.len ≠ 0 := by
      rw [h.len, List.length_append, List.length_singleton]
      lia
    have hrear : q.rear = some last := by
      rw [h.rear]
      simp
    rcases Option.ne_none_iff_exists'.mp
        (h.linked.allocated last (by simp)) with ⟨lastJob, hlast⟩
    have hlinked : Linked
        (Function.update heap newjob (some { job with prev := none }))
        (front ++ [last]) := by
      refine Linked.congr ?_ h.linked
      intro p hp
      exact Function.update_of_ne (ne_of_mem_of_not_mem hp hmem) ..
    have hlast' :
        Function.update heap newjob (some { job with prev := none }) last =
          some lastJob := by
      rw [Function.update_of_ne hne.symm, hlast]
    refine ⟨_, _, pushSection_rear hnew hlen hrear hne hlast, ?_, rfl, ?_⟩
    · exact {
        len := by
          have hold := h.len
          simp only [List.length_append, List.length_singleton] at hold ⊢
          lia
        front := by
          rw [h.front]
          cases front <;> rfl
        rear := by simp
        linked := Linked.snoc (Function.update_self ..) rfl hlinked hlast'
          h.nodup hmem
        nodup := by
          rw [List.nodup_append]
          refine ⟨h.nodup, by simp, ?_⟩
          intro a ha b hb hab
          have hb' : b = newjob := by simpa using hb
          exact hmem (by rw [← hb', ← hab]; exact ha) }
    · intro p
      rw [payload_relinked hlast', payload_relinked hnew]

/-- Pulling from an empty queue returns NULL and changes nothing. -/
theorem pullSection_nil {heap : Heap fn arg} {q : JobQueue}
    (h : Represents heap q []) :
    pullSection heap q = some (none, q, false) := by
  have hlen : q.len = 0 := by simpa using h.len
  simp [pullSection, hlen, h.front]

/-- Pulling from a nonempty queue returns its first node, and posts exactly when
jobs are left. -/
theorem pullSection_cons {heap : Heap fn arg} {q : JobQueue} {p : Ptr}
    {rest : List Ptr} (h : Represents heap q (p :: rest)) :
    exists q', pullSection heap q =
        some (some p, q', decide (rest ≠ [])) ∧
      Represents heap q' rest ∧ q'.len = q.len - 1 := by
  have hlen : q.len = rest.length + 1 := by simpa using h.len
  cases rest with
  | nil =>
      refine ⟨jobqueueInit, ?_, represents_init heap, ?_⟩
      · simp [pullSection, hlen, h.front, jobqueueInit]
      · simp [jobqueueInit, hlen]
  | cons r rest =>
      rcases h.linked with ⟨⟨job, hjob, hprev⟩, htail⟩
      refine ⟨{ q with front := some r, len := q.len - 1 }, ?_, ?_, rfl⟩
      · have h0 : q.len ≠ 0 := by
          rw [hlen]
          lia
        have h1 : q.len ≠ 1 := by
          rw [hlen]
          simp
          lia
        simp [pullSection, h0, h1, h.front, hjob, hprev]
      · exact {
          len := by
            simp only [List.length_cons] at hlen ⊢
            lia
          front := rfl
          rear := by simpa using h.rear
          linked := htail
          nodup := (List.nodup_cons.mp h.nodup).2 }

end Thpool
end PracticeHand
