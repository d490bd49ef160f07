import PracticeHand.Thpool.Stages

/-!
# Every job is accounted for

A job gets its ticket when its `jobqueue_push` section runs.  From then on its
node is in the queue, or in the hands of the thread that pulled it, or freed,
and what has happened to the job agrees with where its node is.  The invariant
ties the linked list, the nodes that threads have in hand and the history
together.
-/

namespace PracticeHand
namespace Thpool

open Concurrency

variable {n m : Nat} {fn arg : Type}

/-- How often a job has been called, has returned, and its node been freed. -/
structure Tally where
  called : Nat := 0
  finished : Nat := 0
  freed : Nat := 0
  deriving DecidableEq

def History.tally (h : History n fn arg) (k : Nat) : Tally where
  called := (h.called.map Call.ticket).count k
  finished := h.finished.count k
  freed := h.freed.count k

def History.due (h : History n fn arg) (k : Nat) : Option (fn × arg) :=
  (h.accepted[k]?).map fun a => (a.function, a.arg)

def Stage.tally : Stage -> Tally
  | .pulled => {}
  | .called => { called := 1 }
  | .returned => { called := 1, finished := 1 }

/-- A job that a worker is done with was run once; a job that `jobqueue_clear`
is done with was never called. -/
def doneTally : Option (Fin n) -> Tally
  | some _ => { called := 1, finished := 1, freed := 1 }
  | none => { freed := 1 }

theorem tally_ne_doneTally (st : Stage) (w : Option (Fin n)) :
    st.tally ≠ doneTally w := by
  intro h
  have hfreed := congrArg Tally.freed h
  cases st <;> cases w <;> cases hfreed

def pullerTid : Option (Fin n) -> Tid n m
  | some i => .worker i
  | none => .owner

/-- The accounts agree: `l` is the content of the queue, `job` and `newjob` are
the nodes that the threads have in hand. -/
structure Books (heap : Heap fn arg) (q : JobQueue) (h : History n fn arg)
    (job : Tid n m -> Option (Ptr × Stage)) (newjob : Tid n m -> Option Ptr)
    (l : List Ptr) : Prop where
  represents : Represents heap q l
  -- pulled jobs and queued jobs, in order, are the accepted jobs
  order : h.handed.map Handed.ticket ++ l.map h.ticketOf =
    List.range h.accepted.length
  payload : forall p, p ∈ l ∨ (exists t st, job t = some (p, st)) ->
    heap.payload p = h.due (h.ticketOf p)
  carried : forall t p st, job t = some (p, st) ->
    exists w, t = pullerTid w ∧
      { puller := w, ticket := h.ticketOf p } ∈ h.handed ∧
      h.tally (h.ticketOf p) = st.tally
  untouched : forall k, k ∉ h.handed.map Handed.ticket -> h.tally k = {}
  settled : forall x, x ∈ h.handed ->
    (exists p st, job (pullerTid x.puller) = some (p, st) ∧
      h.ticketOf p = x.ticket) ∨
    h.tally x.ticket = doneTally x.puller
  -- nodes that are not linked yet
  fresh : forall t p, newjob t = some p ->
    heap p ≠ none ∧ p ∉ l ∧ forall u st, job u ≠ some (p, st)
  apart : forall t u p, newjob t = some p -> newjob u = some p -> t = u
  calls : forall c, c ∈ h.called ->
    { puller := some c.worker, ticket := c.ticket } ∈ h.handed ∧
      h.due c.ticket = some (c.function, c.arg)

theorem books_initial :
    Books (fun _ => none : Heap fn arg) jobqueueInit ({} : History n fn arg)
      (fun _ : Tid n m => none) (fun _ => none) [] where
  represents := represents_init _
  order := rfl
  payload := by
    intro p hcases
    rcases hcases with hp | ⟨t, st, ht⟩
    · cases hp
    · cases ht
  carried := by
    intro t p st ht
    cases ht
  untouched := by
    intro k _
    rfl
  settled := by
    intro x hx
    cases hx
  fresh := by
    intro t p ht
    cases ht
  apart := by
    intro t u p ht
    cases ht
  calls := by
    intro c hc
    cases hc

/-!
## Tickets tell jobs apart
-/

namespace Books

variable {heap : Heap fn arg} {q : JobQueue} {h : History n fn arg}
variable {job : Tid n m -> Option (Ptr × Stage)}
variable {newjob : Tid n m -> Option Ptr} {l : List Ptr}

theorem nodup (b : Books heap q h job newjob l) :
    (h.handed.map Handed.ticket ++ l.map h.ticketOf).Nodup := by
  rw [b.order]
  exact List.nodup_range

theorem ticket_lt (b : Books heap q h job newjob l) {k : Nat}
    (hk : k ∈ h.handed.map Handed.ticket ∨ k ∈ l.map h.ticketOf) :
    k < h.accepted.length := by
  have hmem := List.mem_append.mpr hk
  rw [b.order] at hmem
  exact List.mem_range.mp hmem

theorem handed_unique (b : Books heap q h job newjob l) {x y : Handed n}
    (hx : x ∈ h.handed) (hy : y ∈ h.handed) (hxy : x.ticket = y.ticket) :
    x = y :=
  List.inj_on_of_nodup_map (List.nodup_append.mp b.nodup).1 hx hy hxy

theorem handed_of_job (b : Books heap q h job newjob l) {t : Tid n m} {p : Ptr}
    {st : Stage} (ht : job t = some (p, st)) :
    h.ticketOf p ∈ h.handed.map Handed.ticket := by
  rcases b.carried t p st ht with ⟨w, _, hw, _⟩
  exact List.mem_map.mpr ⟨_, hw, rfl⟩

theorem notMem_of_job (b : Books heap q h job newjob l) {t : Tid n m} {p : Ptr}
    {st : Stage} (ht : job t = some (p, st)) : p ∉ l := by
  intro hp
  exact (List.nodup_append.mp b.nodup).2.2 _ (b.handed_of_job ht) _
    (List.mem_map.mpr ⟨p, hp, rfl⟩) rfl

theorem job_unique (b : Books heap q h job newjob l) {t u : Tid n m}
    {p p' : Ptr} {st st' : Stage} (ht : job t = some (p, st))
    (hu : job u = some (p', st')) (htickets : h.ticketOf p = h.ticketOf p') :
    t = u := by
  rcases b.carried t p st ht with ⟨w, rfl, hw, _⟩
  rcases b.carried u p' st' hu with ⟨w', rfl, hw', _⟩
  have hsame := b.handed_unique hw hw' htickets
  simp only [Handed.mk.injEq] at hsame
  rw [hsame.1]

theorem due_of_ticket (b : Books heap q h job newjob l) {k : Nat}
    (hk : k ∈ h.handed.map Handed.ticket ∨ k ∈ l.map h.ticketOf) :
    h.due k ≠ none := by
  have hlt := b.ticket_lt hk
  simp [History.due, hlt]

theorem allocated (b : Books heap q h job newjob l) {t : Tid n m} {p : Ptr}
    {st : Stage} (ht : job t = some (p, st)) : heap p ≠ none := by
  have hpay := b.payload p (Or.inr ⟨t, st, ht⟩)
  intro hnone
  rw [Heap.payload, hnone] at hpay
  exact b.due_of_ticket (Or.inl (b.handed_of_job ht)) hpay.symm

/-!
## One lemma for each entry in the books
-/

theorem alloc (b : Books heap q h job newjob l) {t : Tid n m} {p : Ptr}
    {node : Job fn arg} {asked : Ptr -> Option (fn × arg)}
    (hfree : heap p = none) :
    Books (Function.update heap p (some node)) q { h with asked := asked } job
      (Function.update newjob t (some p)) l := by
  have hqueue : p ∉ l := fun hp => b.represents.linked.allocated p hp hfree
  have hjob : forall u st, job u ≠ some (p, st) :=
    fun u st hu => b.allocated hu hfree
  have hnew : forall u, newjob u ≠ some p :=
    fun u hu => (b.fresh u p hu).1 hfree
  refine { b with represents := ?_, payload := ?_, fresh := ?_, apart := ?_ }
  · refine b.represents.congr ?_
    intro r hr
    exact Function.update_of_ne (ne_of_mem_of_not_mem hr hqueue) ..
  · intro r hr
    have hrp : r ≠ p := by
      intro heq
      subst heq
      rcases hr with hr | ⟨u, st, hu⟩
      · exact hqueue hr
      · exact hjob u st hu
    have hpay := b.payload r hr
    rw [Heap.payload] at hpay ⊢
    rw [Function.update_of_ne hrp]
    exact hpay
  · intro u r hu
    rcases cases_of_update_some hu with ⟨_, rfl⟩ | ⟨_, hold⟩
    · exact ⟨by simp, hqueue, hjob⟩
    · rcases b.fresh u r hold with ⟨halloc, hl, hjobs⟩
      have hrp : r ≠ p := by
        intro heq
        subst heq
        exact hnew u hold
      exact ⟨by rwa [Function.update_of_ne hrp], hl, hjobs⟩
  · intro u v r hu hv
    rcases cases_of_update_some hu with ⟨hut, rfl⟩ | ⟨_, hu'⟩
    · rcases cases_of_update_some hv with ⟨hvt, _⟩ | ⟨_, hv'⟩
      · rw [hut, hvt]
      · exact (hnew v hv').elim
    · rcases cases_of_update_some hv with ⟨_, rfl⟩ | ⟨_, hv'⟩
      · exact (hnew u hu').elim
      · exact b.apart u v r hu' hv'

theorem link (b : Books heap q h job newjob l) {t : Tid n m} {p : Ptr}
    {node : Job fn arg} {heap' : Heap fn arg} {q' : JobQueue}
    {parent : Option Nat} {requested : List (Option (fn × arg))}
    (hnew : newjob t = some p)
    (hnode : heap p = some node)
    (hpush : pushSection heap q p = some (heap', q')) :
    Books heap' q'
      { h with
        requested := requested
        accepted := h.accepted ++
          [{ function := node.function, arg := node.arg, parent := parent }]
        ticketOf := Function.update h.ticketOf p h.accepted.length }
      job (Function.update newjob t none) (l ++ [p]) := by
  rcases b.fresh t p hnew with ⟨_, hqueue, hjob⟩
  rcases pushSection_represents b.represents hnode hqueue with
    ⟨heap'', q'', hpush', hpushed⟩
  rw [hpush] at hpush'
  cases hpush'
  have hticket : forall r, r ≠ p ->
      Function.update h.ticketOf p h.accepted.length r = h.ticketOf r :=
    fun r hr => Function.update_of_ne hr ..
  have hcarried : forall u r st, job u = some (r, st) -> r ≠ p := by
    intro u r st hu heq
    subst heq
    exact hjob u st hu
  have hqueued : forall r, r ∈ l -> r ≠ p :=
    fun r hr => ne_of_mem_of_not_mem hr hqueue
  -- the entries of the other tickets stay as they are
  have hdue : forall k, k < h.accepted.length ->
      History.due { h with
        requested := requested
        accepted := h.accepted ++
          [{ function := node.function, arg := node.arg, parent := parent }]
        ticketOf := Function.update h.ticketOf p h.accepted.length } k =
      h.due k := by
    intro k hk
    simp [History.due, List.getElem?_append_left hk]
  exact {
    represents := hpushed.represents
    order := by
      have hmap : l.map (Function.update h.ticketOf p h.accepted.length) =
          l.map h.ticketOf :=
        List.map_congr_left fun r hr => hticket r (hqueued r hr)
      simp only [List.map_append, List.map_cons, List.map_nil, hmap,
        Function.update_self, List.length_append, List.length_cons,
        List.length_nil, List.range_succ, ← List.append_assoc, b.order,
        Nat.zero_add]
    payload := by
      intro r hr
      rw [hpushed.payload r]
      by_cases hrp : r = p
      · subst hrp
        simp [Heap.payload, hnode, History.due]
      · have hr' : r ∈ l ∨ exists u st, job u = some (r, st) := by
          rcases hr with hr | hr
          · rcases List.mem_append.mp hr with hr | hr
            · exact Or.inl hr
            · exact (hrp (List.mem_singleton.mp hr)).elim
          · exact Or.inr hr
        have hlt : h.ticketOf r < h.accepted.length := by
          rcases hr' with hr | ⟨u, st, hu⟩
          · exact b.ticket_lt (Or.inr (List.mem_map.mpr ⟨r, hr, rfl⟩))
          · exact b.ticket_lt (Or.inl (b.handed_of_job hu))
        rw [b.payload r hr']
        dsimp only
        rw [hticket r hrp, hdue _ hlt]
    carried := by
      intro u r st hu
      rcases b.carried u r st hu with ⟨w, hw, hmem, htally⟩
      dsimp only
      rw [hticket r (hcarried u r st hu)]
      exact ⟨w, hw, hmem, htally⟩
    untouched := b.untouched
    settled := by
      intro x hx
      rcases b.settled x hx with ⟨r, st, hr, htick⟩ | hdone
      · exact Or.inl ⟨r, st, hr, (hticket r (hcarried _ r st hr)).trans htick⟩
      · exact Or.inr hdone
    fresh := by
      intro u r hu
      rcases some_of_update_none hu with ⟨hut, hu⟩
      rcases b.fresh u r hu with ⟨halloc, hl, hjobs⟩
      have hrp : r ≠ p := by
        intro heq
        subst heq
        exact hut (b.apart u t r hu hnew)
      refine ⟨?_, by simp [hl, hrp], hjobs⟩
      have hpay := hpushed.payload r
      intro hnone
      simp [Heap.payload, hnone] at hpay
      exact halloc hpay
    apart := by
      intro u v r hu hv
      exact b.apart u v r (some_of_update_none hu).2 (some_of_update_none hv).2
    calls := by
      intro c hc
      rcases b.calls c hc with ⟨hhanded, hcall⟩
      refine ⟨hhanded, ?_⟩
      rw [hdue _ (b.ticket_lt (Or.inl (List.mem_map.mpr ⟨_, hhanded, rfl⟩)))]
      exact hcall }

theorem take_null (b : Books heap q h job newjob l) {q' : JobQueue}
    {more : Bool} (hpull : pullSection heap q = some (none, q', more)) :
    Books heap q' h job newjob l := by
  cases l with
  | nil =>
      rw [pullSection_nil b.represents] at hpull
      cases hpull
      exact b
  | cons r rest =>
      rcases pullSection_cons b.represents with ⟨q'', hpull', _, _⟩
      rw [hpull'] at hpull
      cases hpull

theorem take (b : Books heap q h job newjob l) {w : Option (Fin n)} {p : Ptr}
    {q' : JobQueue} {more : Bool} (hidle : job (pullerTid w) = none)
    (hpull : pullSection heap q = some (some p, q', more)) :
    exists rest, Books heap q'
      { h with handed := h.handed ++ [{ puller := w, ticket := h.ticketOf p }] }
      (Function.update job (pullerTid w) (some (p, .pulled))) newjob rest := by
  cases l with
  | nil =>
      rw [pullSection_nil b.represents] at hpull
      cases hpull
  | cons r rest =>
      rcases pullSection_cons b.represents with ⟨q'', hpull', hrep, _⟩
      rw [hpull] at hpull'
      cases hpull'
      have hbusy : forall {u r st}, job u = some (r, st) -> u ≠ pullerTid w := by
        intro u r st hu heq
        subst heq
        rw [hidle] at hu
        cases hu
      have hnew : h.ticketOf p ∉ h.handed.map Handed.ticket := by
        intro hmem
        exact (List.nodup_append.mp b.nodup).2.2 _ hmem _
          (List.mem_map.mpr ⟨p, by simp, rfl⟩) rfl
      refine ⟨rest, ?_⟩
      exact {
        represents := hrep
        order := by
          have horder := b.order
          simpa using horder
        payload := by
          intro r hcases
          rcases hcases with hr | ⟨u, st, hu⟩
          · exact b.payload r (Or.inl (List.mem_cons_of_mem _ hr))
          · rcases cases_of_update_some hu with ⟨_, heq⟩ | ⟨_, hu⟩
            · cases heq
              exact b.payload _ (Or.inl (by simp))
            · exact b.payload r (Or.inr ⟨u, st, hu⟩)
        carried := by
          intro u r st hu
          rcases cases_of_update_some hu with ⟨hut, heq⟩ | ⟨_, hu⟩
          · cases heq
            exact ⟨w, hut, by simp, b.untouched _ hnew⟩
          · rcases b.carried u r st hu with ⟨w', hw', hmem, htally⟩
            exact ⟨w', hw', List.mem_append_left _ hmem, htally⟩
        untouched := by
          intro k hk
          apply b.untouched
          intro hmem
          apply hk
          rw [List.map_append]
          exact List.mem_append_left _ hmem
        settled := by
          intro x hx
          rcases List.mem_append.mp hx with hx | hx
          · rcases b.settled x hx with ⟨r, st, hr, htick⟩ | hdone
            · refine Or.inl ⟨r, st, ?_, htick⟩
              rw [Function.update_of_ne (hbusy hr)]
              exact hr
            · exact Or.inr hdone
          · have hxw : x = { puller := w, ticket := h.ticketOf p } := by
              simpa using hx
            subst hxw
            exact Or.inl ⟨p, .pulled, Function.update_self .., rfl⟩
        fresh := by
          intro u r hu
          rcases b.fresh u r hu with ⟨halloc, hl, hjobs⟩
          refine ⟨halloc, fun hr => hl (List.mem_cons_of_mem _ hr), ?_⟩
          intro v st hv
          rcases cases_of_update_some hv with ⟨_, heq⟩ | ⟨_, hv⟩
          · cases heq
            exact hl (by simp)
          · exact hjobs v st hv
        apart := b.apart
        calls := by
          intro c hc
          rcases b.calls c hc with ⟨hhanded, hcall⟩
          exact ⟨List.mem_append_left _ hhanded, hcall⟩ }

/-- A thread goes on with its job, and the history notes it: everything but the
tally of that one job stays. -/
theorem advance (b : Books heap q h job newjob l) {h' : History n fn arg}
    {w : Option (Fin n)} {p : Ptr} {st st' : Stage}
    (hjob : job (pullerTid w) = some (p, st))
    (haccepted : h'.accepted = h.accepted) (hticket : h'.ticketOf = h.ticketOf)
    (hhanded : h'.handed = h.handed)
    (hself : h'.tally (h.ticketOf p) = st'.tally)
    (hother : forall k, k ≠ h.ticketOf p -> h'.tally k = h.tally k)
    (hcalls : forall c, c ∈ h'.called -> c ∈ h.called ∨
      ({ puller := some c.worker, ticket := c.ticket } ∈ h.handed ∧
        h.due c.ticket = some (c.function, c.arg))) :
    Books heap q h' (Function.update job (pullerTid w) (some (p, st'))) newjob
      l := by
  have hdue : forall k, h'.due k = h.due k := by
    intro k
    rw [History.due, haccepted]
    rfl
  have hstage : forall {u r x},
      Function.update job (pullerTid w) (some (p, st')) u = some (r, x) ->
      exists y, job u = some (r, y) := by
    intro u r x hu
    rcases cases_of_update_some hu with ⟨rfl, heq⟩ | ⟨_, hu⟩
    · cases heq
      exact ⟨st, hjob⟩
    · exact ⟨x, hu⟩
  exact {
    represents := b.represents
    order := by
      rw [haccepted, hticket, hhanded]
      exact b.order
    payload := by
      intro r hr
      rw [hdue, hticket]
      apply b.payload
      rcases hr with hr | ⟨u, x, hu⟩
      · exact Or.inl hr
      · rcases hstage hu with ⟨y, hy⟩
        exact Or.inr ⟨u, y, hy⟩
    carried := by
      intro u r x hu
      rw [hhanded, hticket]
      rcases cases_of_update_some hu with ⟨hut, heq⟩ | ⟨hut, hu⟩
      · cases heq
        rcases b.carried _ p st hjob with ⟨w', hw', hmem, _⟩
        exact ⟨w', hut.trans hw', hmem, hself⟩
      · rcases b.carried u r x hu with ⟨w', hw', hmem, htally⟩
        refine ⟨w', hw', hmem, ?_⟩
        rw [hother, htally]
        intro hsame
        exact hut (b.job_unique hu hjob hsame)
    untouched := by
      intro k hk
      rw [hhanded] at hk
      rw [hother, b.untouched k hk]
      intro heq
      subst heq
      exact hk (b.handed_of_job hjob)
    settled := by
      intro x hx
      rw [hhanded] at hx
      rw [hticket]
      rcases b.settled x hx with ⟨r, y, hr, htick⟩ | hdone
      · by_cases hxw : (pullerTid x.puller : Tid n m) = pullerTid w
        · rw [hxw, hjob] at hr
          cases hr
          exact Or.inl ⟨p, st', by rw [hxw, Function.update_self], htick⟩
        · exact Or.inl ⟨r, y, by rw [Function.update_of_ne hxw, hr], htick⟩
      · by_cases hsame : x.ticket = h.ticketOf p
        · -- the job is still in hand
          rcases b.carried _ p st hjob with ⟨w', hw', hmem, htally⟩
          rw [hsame, htally] at hdone
          exact (tally_ne_doneTally st x.puller hdone).elim
        · exact Or.inr ((hother _ hsame).trans hdone)
    fresh := by
      intro u r hu
      rcases b.fresh u r hu with ⟨halloc, hl, hjobs⟩
      refine ⟨halloc, hl, ?_⟩
      intro v x hv
      rcases hstage hv with ⟨y, hy⟩
      exact hjobs v y hy
    apart := b.apart
    calls := by
      intro c hc
      rw [hhanded, hdue]
      rcases hcalls c hc with hold | hnew
      · exact b.calls c hold
      · exact hnew }

theorem release (b : Books heap q h job newjob l) {w : Option (Fin n)}
    {p : Ptr} {st : Stage} (hjob : job (pullerTid w) = some (p, st))
    (hdone : { st.tally with freed := 1 } = doneTally w) :
    Books (Function.update heap p none) q
      { h with freed := h.freed ++ [h.ticketOf p] }
      (Function.update job (pullerTid w) none) newjob l := by
  have hqueue := b.notMem_of_job hjob
  have hother : forall {u r x},
      Function.update job (pullerTid w) none u = some (r, x) ->
      job u = some (r, x) ∧ h.ticketOf r ≠ h.ticketOf p := by
    intro u r x hu
    rcases some_of_update_none hu with ⟨hut, hu⟩
    exact ⟨hu, fun hsame => hut (b.job_unique hu hjob hsame)⟩
  have htally : forall k, k ≠ h.ticketOf p ->
      History.tally { h with freed := h.freed ++ [h.ticketOf p] } k =
        h.tally k := by
    intro k hk
    simp [History.tally, Ne.symm hk]
  exact {
    represents := by
      refine b.represents.congr ?_
      intro r hr
      exact Function.update_of_ne (ne_of_mem_of_not_mem hr hqueue) ..
    order := b.order
    payload := by
      intro r hr
      have hrp : r ≠ p := by
        intro heq
        subst heq
        rcases hr with hr | ⟨u, x, hu⟩
        · exact hqueue hr
        · exact (hother hu).2 rfl
      rw [Heap.payload, Function.update_of_ne hrp]
      apply b.payload
      rcases hr with hr | ⟨u, x, hu⟩
      · exact Or.inl hr
      · exact Or.inr ⟨u, x, (hother hu).1⟩
    carried := by
      intro u r x hu
      rcases hother hu with ⟨hu', hne⟩
      rcases b.carried u r x hu' with ⟨w', hw', hmem, hold⟩
      exact ⟨w', hw', hmem, (htally _ hne).trans hold⟩
    untouched := by
      intro k hk
      refine (htally k ?_).trans (b.untouched k hk)
      intro heq
      subst heq
      exact hk (b.handed_of_job hjob)
    settled := by
      intro x hx
      rcases b.carried _ p st hjob with ⟨w', hw', hmem, hold⟩
      by_cases hsame : x.ticket = h.ticketOf p
      · have hxw : x = { puller := w', ticket := h.ticketOf p } :=
          b.handed_unique hx hmem hsame
        have hww : w' = w := by
          cases w <;> cases w' <;> cases hw' <;> rfl
        subst hxw
        rw [hww]
        refine Or.inr (Eq.trans ?_ hdone)
        rw [← hold]
        have hfreed : h.freed.count (h.ticketOf p) = 0 := by
          have hcount := congrArg Tally.freed hold
          cases st <;> exact hcount
        simp [History.tally, hfreed]
      · rcases b.settled x hx with ⟨r, y, hr, htick⟩ | hd
        · refine Or.inl ⟨r, y, ?_, htick⟩
          rw [Function.update_of_ne, hr]
          intro heq
          rw [heq, hjob] at hr
          cases hr
          exact hsame htick.symm
        · exact Or.inr ((htally _ hsame).trans hd)
    fresh := by
      intro u r hu
      rcases b.fresh u r hu with ⟨halloc, hl, hjobs⟩
      have hrp : r ≠ p := by
        intro heq
        subst heq
        exact hjobs _ _ hjob
      refine ⟨by rwa [Function.update_of_ne hrp], hl, ?_⟩
      intro v x hv
      exact hjobs v x (hother hv).1
    apart := b.apart
    calls := b.calls }

theorem reset (b : Books heap q h job newjob l) (hlen : q.len = 0) :
    Books heap jobqueueInit h job newjob l := by
  have hl := b.represents.eq_nil hlen
  subst hl
  exact { b with represents := represents_init heap }

theorem handed_of_empty (b : Books heap q h job newjob l) (hlen : q.len = 0)
    {k : Nat} (hk : k < h.accepted.length) :
    exists x, x ∈ h.handed ∧ x.ticket = k := by
  have horder := b.order
  rw [b.represents.eq_nil hlen, List.map_nil, List.append_nil] at horder
  have hmem := List.mem_range.mpr hk
  rw [← horder] at hmem
  exact List.mem_map.mp hmem

end Books

/-!
## The books after a memory step
-/

def Booked (mem : PoolMem n fn arg) (job : Tid n m -> Option (Ptr × Stage))
    (newjob : Tid n m -> Option Ptr) : Prop :=
  exists l, Books mem.heap mem.jobqueue mem.history job newjob l

section Moves

variable {job : Tid n m -> Option (Ptr × Stage)}
variable {newjob : Tid n m -> Option Ptr} {t : Tid n m}

theorem Booked.keep {mem mem' : PoolMem n fn arg} {x : Option (Ptr × Stage)}
    {y : Option Ptr} (hb : Booked mem job newjob) (hx : x = job t)
    (hy : y = newjob t) (hheap : mem'.heap = mem.heap)
    (hq : mem'.jobqueue = mem.jobqueue)
    (hh : exists c, mem'.history = { mem.history with lastHoldCall := c }) :
    Booked mem' (Function.update job t x) (Function.update newjob t y) := by
  rcases hb with ⟨l, b⟩
  rcases hh with ⟨c, hh⟩
  refine ⟨l, ?_⟩
  rw [hx, hy, Function.update_eq_self, Function.update_eq_self, hheap, hq, hh]
  exact ⟨b.represents, b.order, b.payload, b.carried, b.untouched, b.settled,
    b.fresh, b.apart, b.calls⟩

theorem Booked.take {s s' : Shared n fn arg} {w : Option (Fin n)} {p : PullPc}
    (hb : Booked s.2 job newjob) (hidle : job (pullerTid w) = none)
    (htake : takeJob w s = some (s', p)) :
    Booked s'.2 (Function.update job (pullerTid w)
      (p.job.map (fun job => (job, .pulled)))) newjob := by
  rcases hb with ⟨l, b⟩
  rcases takeJob_cases htake with ⟨q, more, hpull, rfl, rfl⟩ |
    ⟨r, q, more, hpull, rfl, rfl⟩
  · refine ⟨l, ?_⟩
    have hsame : Function.update job (pullerTid w) none = job := by
      rw [← hidle]
      exact Function.update_eq_self ..
    change Books _ _ _ (Function.update job (pullerTid w) none) _ _
    rw [hsame]
    exact b.take_null hpull
  · cases more <;> exact b.take hidle hpull

theorem UserMove.booked {caller : Option Ptr} {s s' : Shared n fn arg}
    {f f' : Frame} {w : Wake Cond} (hmove : UserMove caller s f s' f' w)
    (hb : Booked s.2 job newjob) (hnew : newjob t = f.standing.newjob) :
    Booked s'.2 job (Function.update newjob t f'.standing.newjob) := by
  have hkeep : forall {mem' : PoolMem n fn arg} {y : Option Ptr},
      y = newjob t -> mem'.heap = s.2.heap -> mem'.jobqueue = s.2.jobqueue ->
      (exists c, mem'.history = { s.2.history with lastHoldCall := c }) ->
      Booked mem' job (Function.update newjob t y) := by
    intro mem' y hy hheap hq hh
    have h := hb.keep (x := job t) (t := t) rfl hy hheap hq hh
    rwa [Function.update_eq_self] at h
  cases hmove with
  | alloc hfree =>
      rcases hb with ⟨l, b⟩
      exact ⟨l, b.alloc hfree⟩
  | link hlink =>
      rcases hb with ⟨l, b⟩
      rcases linkJob_cases hlink with ⟨node, heap, q, hnode, hpush, rfl⟩
      exact ⟨_, b.link hnew hnode hpush⟩
  | _ => exact hkeep hnew.symm rfl rfl ⟨_, rfl⟩

theorem tally_callJob {h : History n fn arg} {c : Call n fn arg} {k : Nat} :
    History.tally { h with called := h.called ++ [c] } k =
      { h.tally k with
        called := (h.tally k).called + if c.ticket = k then 1 else 0 } := by
  by_cases hk : c.ticket = k <;> simp [History.tally, hk]

theorem tally_returnJob {h : History n fn arg} {c k : Nat} :
    History.tally { h with finished := h.finished ++ [c] } k =
      { h.tally k with
        finished := (h.tally k).finished + if c = k then 1 else 0 } := by
  by_cases hk : c = k <;> simp [History.tally, hk]

theorem Books.call {heap : Heap fn arg} {q : JobQueue} {h : History n fn arg}
    {l : List Ptr} (b : Books heap q h job newjob l) {i : Fin n} {p : Ptr}
    {node : Job fn arg} (hjob : job (.worker i) = some (p, .pulled))
    (hnode : heap p = some node) :
    Books heap q
      { h with called := h.called ++
          [{ worker := i, ticket := h.ticketOf p,
             function := node.function, arg := node.arg }] }
      (Function.update job (.worker i) (some (p, .called))) newjob l := by
  rcases b.carried _ p _ hjob with ⟨w, hw, hmem, htally⟩
  have hwi : w = some i := by
    cases w <;> cases hw
    rfl
  subst hwi
  refine b.advance (w := some i) hjob rfl rfl rfl ?_ ?_ ?_
  · rw [tally_callJob, htally]
    simp [Stage.tally]
  · intro k hk
    rw [tally_callJob]
    simp [Ne.symm hk]
  · intro c hc
    rcases List.mem_append.mp hc with hc | hc
    · exact Or.inl hc
    · have hcall := List.mem_singleton.mp hc
      subst hcall
      refine Or.inr ⟨hmem, ?_⟩
      rw [← b.payload p (Or.inr ⟨_, _, hjob⟩), Heap.payload, hnode]
      rfl

theorem Books.ret {heap : Heap fn arg} {q : JobQueue} {h : History n fn arg}
    {l : List Ptr} (b : Books heap q h job newjob l) {i : Fin n} {p : Ptr}
    (hjob : job (.worker i) = some (p, .called)) :
    Books heap q { h with finished := h.finished ++ [h.ticketOf p] }
      (Function.update job (.worker i) (some (p, .returned))) newjob l := by
  rcases b.carried _ p _ hjob with ⟨w, hw, hmem, htally⟩
  refine b.advance (w := some i) hjob rfl rfl rfl ?_ ?_ (fun c hc => Or.inl hc)
  · rw [tally_returnJob, htally]
    simp [Stage.tally]
  · intro k hk
    rw [tally_returnJob]
    simp [Ne.symm hk]

theorem WorkerMove.booked {i : Fin n} {s s' : Shared n fn arg}
    {l l' : WorkerPc fn arg} {w : Wake Cond} (hmove : WorkerMove i s l s' l' w)
    (hb : Booked s.2 job newjob)
    (hjob : job (.worker i) = l.standing.job)
    (hnew : newjob (.worker i) = l.standing.newjob) :
    Booked s'.2 (Function.update job (.worker i) l'.standing.job)
      (Function.update newjob (.worker i) l'.standing.newjob) := by
  have hnone : newjob (.worker i) = none ->
      Function.update newjob (.worker i) none = newjob := by
    intro h
    rw [← h]
    exact Function.update_eq_self ..
  cases hmove with
  | take htake =>
      change Booked _ _ (Function.update newjob (.worker i) none)
      rw [hnone hnew]
      exact hb.take (w := some i) hjob htake
  | call hnode =>
      rcases hb with ⟨q, b⟩
      change Booked _ _ (Function.update newjob (.worker i) none)
      rw [hnone hnew]
      exact ⟨q, b.call hjob hnode⟩
  | user hm =>
      have h := hm.booked hb hnew
      have hsame := Function.update_eq_self (Tid.worker i : Tid n m) job
      rw [hjob] at hsame
      rw [← hsame] at h
      exact h
  | ret =>
      rcases hb with ⟨q, b⟩
      change Booked _ _ (Function.update newjob (.worker i) none)
      rw [hnone hnew]
      exact ⟨q, b.ret hjob⟩
  | free hfree =>
      rcases freeJob_cases hfree with ⟨hcontra, _⟩ | ⟨p, hp, _, rfl⟩
      · cases hcontra
      · cases hp
        rcases hb with ⟨q, b⟩
        change Booked _ _ (Function.update newjob (.worker i) none)
        rw [hnone hnew]
        exact ⟨q, b.release (w := some i) hjob rfl⟩
  | _ => exact hb.keep hjob.symm hnew.symm rfl rfl ⟨_, rfl⟩

theorem OwnerMove.booked {s s' : Shared n fn arg} {l l' : OwnerPc}
    {w : Wake Cond} (hmove : OwnerMove s l s' l' w)
    (hb : Booked s.2 job newjob) (hjob : job .owner = l.standing.job)
    (hunused : l.phase = .allocating -> s.2.quiet = {})
    (hreset : forall total, l = .clearReset total -> s.2.jobqueue.len = 0) :
    Booked s'.2 (Function.update job .owner l'.standing.job) newjob := by
  have hkeep : forall {mem : PoolMem n fn arg} {x : Option (Ptr × Stage)},
      Booked mem job newjob -> x = l.standing.job ->
      Booked mem (Function.update job .owner x) newjob := by
    intro mem x hbooked hx
    rw [hx, ← hjob, Function.update_eq_self]
    exact hbooked
  cases hmove with
  | initAlloc =>
      rw [initFields_unused (hunused rfl)]
      exact hkeep hb rfl
  | clearTake htake => exact hb.take (w := none) hjob htake
  | clearFree hfree =>
      rcases freeJob_cases hfree with ⟨rfl, rfl⟩ | ⟨p, rfl, _, rfl⟩
      · exact hkeep hb rfl
      · rcases hb with ⟨q, b⟩
        exact ⟨q, b.release (w := none) hjob rfl⟩
  | clearReset =>
      rcases hb with ⟨q, b⟩
      exact hkeep ⟨q, b.reset (hreset _ rfl)⟩ rfl
  | _ =>
      rcases hb with ⟨q, b⟩
      exact hkeep ⟨q, b⟩ rfl

end Moves

/-!
## The invariant
-/

def Process.Booked (s : Process n m fn arg) : Prop :=
  Thpool.Booked s.pool.mem (Standing.job ∘ s.pool.standing)
    (Standing.newjob ∘ s.pool.standing)

theorem booked_initial :
    (Process.initial : Process n m fn arg).Booked := by
  refine ⟨[], ?_⟩
  have hnone : forall t, (Process.initial : Process n m fn arg).pool.standing t =
      {} := by
    intro t
    cases t <;> rfl
  have hjobs : Standing.job ∘
      (Process.initial : Process n m fn arg).pool.standing = fun _ => none :=
    funext fun t => congrArg Standing.job (hnone t)
  have hnewjobs : Standing.newjob ∘
      (Process.initial : Process n m fn arg).pool.standing = fun _ => none :=
    funext fun t => congrArg Standing.newjob (hnone t)
  rw [hjobs, hnewjobs]
  exact books_initial

/-- Only `jobqueue_clear` can break the books, by resetting a queue to which a
job has been added behind its back. -/
theorem booked_step {s s' : Process n m fn arg} {a : Action n m fn arg}
    (hstage : StageInv s) (hb : s.Booked)
    (hreset : forall total, s.pool.owner = .clearReset total ->
      s.pool.mem.jobqueue.len = 0)
    (hstep : step s a = some s') : s'.Booked := by
  cases shift_of_step hstep with
  | signal => exact hb
  | spurious => exact hb
  | sync _ hsync =>
      unfold Process.Booked
      rw [standing_after_sync s s.shared hsync]
      exact hb
  | @sleep t next _ _ _ _ hwait =>
      have hsync : (thpoolCode t (s.pool.threads.loc t)).syncNext = some next := by
        rw [hwait]
        rfl
      unfold Process.Booked
      rw [standing_after_sync s s.shared hsync]
      exact hb
  | worker _ hmove _ =>
      unfold Process.Booked
      rw [standing_after, Function.comp_update, Function.comp_update]
      exact hmove.booked hb rfl rfl
  | @client j _ next _ _ _ _ hmove _ =>
      unfold Process.Booked
      rw [standing_after, Function.comp_update, Function.comp_update]
      have hjob : Function.update (Standing.job ∘ s.pool.standing) (.client j)
          next.standing.job = Standing.job ∘ s.pool.standing := by
        rw [Function.update_eq_self_iff]
        change next.standing.job = (s.pool.client j).standing.job
        rw [Frame.standing_job, Frame.standing_job]
      change Thpool.Booked _ (Function.update _ _ next.standing.job) _
      rw [hjob]
      exact hmove.booked (t := .client j) hb rfl
  | @owner _ next _ _ _ hmove _ =>
      unfold Process.Booked
      rw [standing_after, Function.comp_update, Function.comp_update]
      have hnew : Function.update (Standing.newjob ∘ s.pool.standing) .owner
          next.standing.newjob = Standing.newjob ∘ s.pool.standing := by
        rw [Function.update_eq_self_iff]
        change next.standing.newjob = s.pool.owner.standing.newjob
        rw [OwnerPc.standing_newjob, OwnerPc.standing_newjob]
      change Thpool.Booked _ _ (Function.update _ _ next.standing.newjob)
      rw [hnew]
      exact hmove.booked hb rfl (fun hp => (hstage.unused (Or.inr hp)).1) hreset

end Thpool
end PracticeHand
