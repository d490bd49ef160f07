import Mathlib.Algebra.Order.BigOperators.Group.Finset
import PracticeHand.ClientServer.ExchangeMoves
import PracticeHand.Concurrency.Counting
import PracticeHand.Concurrency.Progress

/-!
# Handing out the connections

Whatever the client asks for, and even when servers give up: a connection is
accepted by one server only, one server at a time is between the lock and the
unlock, and the counters miss only the connections that are still waiting or that a
server is about to count.
-/

namespace PracticeHand
namespace Exchange

open Concurrency
open WebChild
open Readline

variable {m n : Nat} {args : Client} {loop : Loop} {kernel : Kernel} {s t : State m n}

def ServerPc.holds (loop : Loop) : ServerPc -> Bool
  | .accept => loop.locks
  | .unlock _ => true
  | _ => false

def ServerPc.uncounted : ServerPc -> Bool
  | .unlock _ => true
  | .count _ => true
  | _ => false

structure Handout (loop : Loop) (s : State m n) : Prop where
  connfds : forall i connfd, (s.server i).connfd = some connfd ->
    connfd < s.made ∧ s.owner connfd = some i
  nodup : s.pending.Nodup
  queued : forall c, c ∈ s.pending <-> c < s.made ∧ s.owner c = none
  locks : forall i, s.server i = .lock -> loop.locks = true
  holder : forall i, (s.server i).holds loop = true <-> s.holder = some i
  counted : loop.counts = true ->
    ∑ i, s.count i + s.pending.length + countWhere ServerPc.uncounted s.server = s.made

/-!
## The rounds of the loops
-/

theorem connfd_top (loop : Loop) : loop.top.connfd = none := by
  unfold Loop.top
  split
  · rfl
  · split <;> rfl

theorem holds_top (loop : Loop) : loop.top.holds loop = false := by
  unfold Loop.top
  split
  · rfl
  · split
    · rfl
    · rename_i hlocks
      exact Bool.eq_false_iff.mpr hlocks

theorem uncounted_top (loop : Loop) : loop.top.uncounted = false := by
  unfold Loop.top
  split
  · rfl
  · split <;> rfl

theorem locks_of_top (h : loop.top = .lock) : loop.locks = true := by
  unfold Loop.top at h
  split at h
  · cases h
  · split at h
    · assumption
    · cases h

theorem connfd_unlocked (loop : Loop) (connfd : Nat) :
    (loop.unlocked connfd).connfd = some connfd := by
  unfold Loop.unlocked
  split <;> rfl

theorem connfd_accepted (loop : Loop) (connfd : Nat) :
    (loop.accepted connfd).connfd = some connfd := by
  unfold Loop.accepted
  split
  · rfl
  · exact connfd_unlocked loop connfd

theorem uncounted_unlocked (hcounts : loop.counts = true) (connfd : Nat) :
    (loop.unlocked connfd).uncounted = true := by
  rw [Loop.unlocked, if_pos hcounts]
  rfl

theorem uncounted_accepted (hcounts : loop.counts = true) (connfd : Nat) :
    (loop.accepted connfd).uncounted = true := by
  unfold Loop.accepted
  split
  · rfl
  · exact uncounted_unlocked hcounts connfd

theorem holds_accepted (loop : Loop) (connfd : Nat) :
    (loop.accepted connfd).holds loop = loop.locks := by
  unfold Loop.accepted Loop.unlocked
  split
  · rename_i hlocks
    rw [hlocks]
    rfl
  · rename_i hlocks
    rw [Bool.not_eq_true] at hlocks
    split <;> exact hlocks.symm

theorem uncounted_serving {pc : ServerPc} (hpc : pc.serving = true) :
    pc.uncounted = false := by
  cases pc with
  | readline _ _ => rfl
  | writen _ _ => rfl
  | close _ => rfl
  | _ => cases hpc

theorem holds_serving {pc : ServerPc} (hpc : pc.serving = true) : pc.holds loop = false := by
  cases pc with
  | readline _ _ => rfl
  | writen _ _ => rfl
  | close _ => rfl
  | _ => cases hpc

/-!
## What the steps keep
-/

theorem Handout.congr (h : Handout loop s) (hserver : t.server = s.server)
    (hholder : t.holder = s.holder) (hcount : t.count = s.count) (hmade : t.made = s.made)
    (hpending : t.pending = s.pending) (howner : t.owner = s.owner) : Handout loop t := by
  constructor
  · rw [hserver, hmade, howner]
    exact h.connfds
  · rw [hpending]
    exact h.nodup
  · rw [hpending, hmade, howner]
    exact h.queued
  · rw [hserver]
    exact h.locks
  · rw [hserver, hholder]
    exact h.holder
  · rw [hcount, hpending, hserver, hmade]
    exact h.counted

theorem Handout.connect (h : Handout loop s) {i : Fin m} {pc : ClientPc} :
    Handout loop ((s.connect i).goClient i pc) := by
  have howner : forall {c}, c < s.made -> ((s.connect i).goClient i pc).owner c = s.owner c :=
    fun hc => Function.update_of_ne (Nat.ne_of_lt hc) _ _
  have hnew : ((s.connect i).goClient i pc).owner s.made = none := Function.update_self _ _ _
  constructor
  · intro j connfd hj
    rcases h.connfds j connfd hj with ⟨hlt, ho⟩
    exact ⟨Nat.lt_succ_of_lt hlt, (howner hlt).trans ho⟩
  · refine List.Nodup.append h.nodup (List.nodup_singleton _) ?_
    rw [List.disjoint_singleton, h.queued]
    exact fun hmade => Nat.lt_irrefl _ hmade.1
  · intro c
    change c ∈ s.pending ++ [s.made] <-> c < s.made + 1 ∧ _
    rw [List.mem_append, List.mem_singleton, h.queued, Nat.lt_succ_iff_lt_or_eq]
    constructor
    · intro hc
      rcases hc with ⟨hlt, ho⟩ | rfl
      · exact ⟨Or.inl hlt, (howner hlt).trans ho⟩
      · exact ⟨Or.inr rfl, hnew⟩
    · intro hc
      rcases hc with ⟨hlt | rfl, ho⟩
      · exact Or.inl ⟨hlt, (howner hlt).symm.trans ho⟩
      · exact Or.inr rfl
  · exact h.locks
  · exact h.holder
  · intro hcounts
    have hsum := h.counted hcounts
    change ∑ j, s.count j + (s.pending ++ [s.made]).length + _ = s.made + 1
    rw [List.length_append, List.length_singleton]
    change _ + countWhere ServerPc.uncounted s.server = s.made + 1
    lia

theorem Handout.goServer (h : Handout loop s) {i : Fin n} {pc : ServerPc}
    (hserver : t.server = Function.update s.server i pc) (hmade : t.made = s.made)
    (howner : forall j c, j ≠ i -> s.owner c = some j -> t.owner c = some j)
    (hconnfd : forall c, pc.connfd = some c -> c < s.made ∧ t.owner c = some i)
    (hlock : pc = .lock -> loop.locks = true) (hnodup : t.pending.Nodup)
    (hqueued : forall c, c ∈ t.pending <-> c < s.made ∧ t.owner c = none)
    (hholder : forall j, (t.server j).holds loop = true <-> t.holder = some j)
    (hcounted : loop.counts = true ->
      ∑ j, t.count j + t.pending.length + countWhere ServerPc.uncounted t.server = s.made) :
    Handout loop t := by
  have hother : forall {j}, j ≠ i -> t.server j = s.server j := by
    intro j hj
    rw [hserver, Function.update_of_ne hj]
  have hself : t.server i = pc := by rw [hserver, Function.update_self]
  constructor
  · intro j c hj
    rw [hmade]
    by_cases hi : j = i
    · subst hi
      rw [hself] at hj
      exact hconnfd c hj
    · rw [hother hi] at hj
      rcases h.connfds j c hj with ⟨hlt, ho⟩
      exact ⟨hlt, howner j c hi ho⟩
  · exact hnodup
  · rw [hmade]
    exact hqueued
  · intro j hj
    by_cases hi : j = i
    · subst hi
      rw [hself] at hj
      exact hlock hj
    · rw [hother hi] at hj
      exact h.locks j hj
  · exact hholder
  · rw [hmade]
    exact hcounted

theorem Handout.holder_keep (h : Handout loop s) {i : Fin n} {pc : ServerPc}
    (hserver : t.server = Function.update s.server i pc) (hholder : t.holder = s.holder)
    (hpc : pc.holds loop = (s.server i).holds loop) (j : Fin n) :
    (t.server j).holds loop = true <-> t.holder = some j := by
  rw [hserver, hholder]
  by_cases hj : j = i
  · subst hj
    rw [Function.update_self, hpc]
    exact h.holder j
  · rw [Function.update_of_ne hj]
    exact h.holder j

theorem Handout.counted_keep (h : Handout loop s) {i : Fin n} {pc : ServerPc}
    (hserver : t.server = Function.update s.server i pc) (hcount : t.count = s.count)
    (hpending : t.pending = s.pending)
    (hpc : loop.counts = true -> pc.uncounted = (s.server i).uncounted) :
    loop.counts = true ->
      ∑ j, t.count j + t.pending.length + countWhere ServerPc.uncounted t.server = s.made := by
  intro hcounts
  have hupdate := countWhere_update ServerPc.uncounted s.server i pc
  have hsum := h.counted hcounts
  rw [hpc hcounts] at hupdate
  rw [hcount, hpending, hserver]
  lia

theorem Handout.keep (h : Handout loop s) {i : Fin n} {pc : ServerPc}
    (hserver : t.server = Function.update s.server i pc) (hmade : t.made = s.made)
    (howner : t.owner = s.owner) (hpending : t.pending = s.pending)
    (hholder : t.holder = s.holder) (hcount : t.count = s.count)
    (hconnfd : forall c, pc.connfd = some c -> (s.server i).connfd = some c)
    (hlock : pc = .lock -> loop.locks = true)
    (hholds : pc.holds loop = (s.server i).holds loop)
    (huncounted : pc.uncounted = (s.server i).uncounted) : Handout loop t := by
  refine h.goServer hserver hmade ?_ ?_ hlock ?_ ?_ (h.holder_keep hserver hholder hholds)
    (h.counted_keep hserver hcount hpending (fun _ => huncounted))
  · intro j c _ ho
    rw [howner]
    exact ho
  · intro c hc
    rw [howner]
    exact h.connfds i c (hconnfd c hc)
  · rw [hpending]
    exact h.nodup
  · rw [hpending, howner]
    exact h.queued

theorem Handout.exit (h : Handout loop s) {i : Fin n} {connfd : Nat} {pc : ServerPc}
    (hserving : (s.server i).serving = true) (hpc : pc.connfd = none)
    (hlock : pc ≠ .lock) (hholds : pc.holds loop = false) (huncounted : pc.uncounted = false) :
    Handout loop (s.exitServer loop i connfd pc) := by
  unfold State.exitServer
  split
  all_goals
    refine h.keep rfl rfl rfl rfl rfl rfl ?_ (fun heq => absurd heq hlock) ?_ ?_
    · intro c hc
      rw [hpc] at hc
      cases hc
    · rw [hholds, holds_serving hserving]
    · rw [huncounted, uncounted_serving hserving]

theorem Handout.lock (h : Handout loop s) {i : Fin n} (hpc : s.server i = .lock)
    (hfree : s.holder = none) :
    Handout loop ({ s with holder := some i }.goServer i .accept) := by
  refine h.goServer rfl rfl (fun _ _ _ ho => ho) ?_ ?_ h.nodup h.queued ?_
    (h.counted_keep rfl rfl rfl (fun _ => by rw [hpc]; rfl))
  · intro c hc
    cases hc
  · intro hc
    cases hc
  intro j
  by_cases hj : j = i
  · subst hj
    simp [State.goServer, ServerPc.holds, h.locks j hpc]
  · have hnot : ¬ (s.server j).holds loop = true := by
      rw [h.holder j, hfree]
      simp
    simp [State.goServer, Function.update_of_ne hj, hnot, Ne.symm hj]

theorem Handout.accept (h : Handout loop s) {i : Fin n} {connfd : Nat}
    {rest : List Nat} (hpc : s.server i = .accept) (hpending : s.pending = connfd :: rest) :
    Handout loop ({ s with
      pending := rest
      owner := Function.update s.owner connfd (some i) }.goServer i
        (loop.accepted connfd)) := by
  have hnodup := h.nodup
  rw [hpending, List.nodup_cons] at hnodup
  rcases (h.queued connfd).mp (by rw [hpending]; exact List.mem_cons_self) with ⟨hlt, hnone⟩
  refine h.goServer rfl rfl ?_ ?_ ?_ hnodup.2 ?_ (h.holder_keep rfl rfl ?_) ?_
  · intro j c _ ho
    have hne : c ≠ connfd := by
      intro heq
      subst heq
      rw [hnone] at ho
      cases ho
    exact (Function.update_of_ne hne _ _).trans ho
  · intro c hc
    rw [connfd_accepted] at hc
    cases hc
    exact ⟨hlt, Function.update_self _ _ _⟩
  · unfold Loop.accepted Loop.unlocked
    split
    · exact nofun
    · split <;> exact nofun
  · intro c
    change c ∈ rest <-> c < s.made ∧ Function.update s.owner connfd (some i) c = none
    by_cases hc : c = connfd
    · subst hc
      simp [hnodup.1]
    · rw [Function.update_of_ne hc, ← h.queued c, hpending, List.mem_cons]
      simp [hc]
  · rw [hpc, holds_accepted]
    rfl
  · intro hcounts
    have hupdate := countWhere_update ServerPc.uncounted s.server i (loop.accepted connfd)
    have hsum := h.counted hcounts
    rw [uncounted_accepted hcounts, hpc] at hupdate
    rw [hpending, List.length_cons] at hsum
    change _ + _ + countWhere _ (Function.update s.server i (loop.accepted connfd)) = s.made
    simp only [ServerPc.uncounted, Bool.toNat_false, Bool.toNat_true] at hupdate
    change ∑ j, s.count j + rest.length + _ = s.made
    lia

theorem Handout.unlock (h : Handout loop s) {i : Fin n} {connfd : Nat}
    (hpc : s.server i = .unlock connfd) :
    Handout loop ({ s with holder := none }.goServer i (loop.unlocked connfd)) := by
  have hmine : s.holder = some i := (h.holder i).mp (by rw [hpc]; rfl)
  refine h.goServer rfl rfl (fun _ _ _ ho => ho) ?_ ?_ h.nodup h.queued ?_
    (h.counted_keep rfl rfl rfl (fun hcounts => ?_))
  · intro c hc
    rw [connfd_unlocked] at hc
    exact h.connfds i c (by rw [hpc]; exact hc)
  · unfold Loop.unlocked
    split <;> exact nofun
  · intro j
    by_cases hj : j = i
    · subst hj
      have hnot : (loop.unlocked connfd).holds loop = false := by
        unfold Loop.unlocked
        split <;> rfl
      simp [State.goServer, hnot]
    · have hnot : ¬ (s.server j).holds loop = true := by
        rw [h.holder j, hmine, Option.some.injEq]
        exact fun heq => hj heq.symm
      simp [State.goServer, Function.update_of_ne hj, hnot]
  · rw [uncounted_unlocked hcounts, hpc]
    rfl

theorem Handout.count (h : Handout loop s) {i : Fin n} {connfd : Nat}
    (hpc : s.server i = .count connfd) :
    Handout loop ({ s with
      count := Function.update s.count i (s.count i + 1) }.goServer i (.readline connfd [])) := by
  refine h.goServer rfl rfl (fun _ _ _ ho => ho) ?_ nofun h.nodup h.queued
    (h.holder_keep rfl rfl (by rw [hpc]; rfl)) ?_
  · intro c hc
    exact h.connfds i c (by rw [hpc]; exact hc)
  · intro hcounts
    have hupdate := countWhere_update ServerPc.uncounted s.server i (.readline connfd [])
    have hsum := h.counted hcounts
    have hcount := sum_update id s.count i (s.count i + 1)
    rw [hpc] at hupdate
    simp only [ServerPc.uncounted, Bool.toNat_false, Bool.toNat_true] at hupdate
    simp only [id_eq] at hcount
    change ∑ j, Function.update s.count i (s.count i + 1) j + s.pending.length +
      countWhere _ (Function.update s.server i (.readline connfd [])) = s.made
    lia

theorem Handout.serverMove (h : Handout loop s) {i : Fin n}
    (hmove : ServerMove args loop s i t) : Handout loop t := by
  cases hmove with
  | select hpc _ =>
      refine h.keep rfl rfl rfl rfl rfl rfl ?_ ?_ ?_ ?_ <;> unfold Loop.selected <;> split
      · exact nofun
      · exact nofun
      · rename_i hlocks
        exact fun _ => hlocks
      · exact nofun
      · rw [hpc]
        rfl
      · rename_i hlocks
        rw [hpc]
        exact Bool.eq_false_iff.mpr hlocks
      · rw [hpc]
        rfl
      · rw [hpc]
        rfl
  | lock hpc hfree => exact h.lock hpc hfree
  | accept hpc hpending => exact h.accept hpc hpending
  | unlock hpc => exact h.unlock hpc
  | count hpc => exact h.count hpc
  | @talk connfd w ahead pc hconnfd hserving hpc hpcServing _ =>
      refine h.keep rfl rfl rfl rfl rfl rfl ?_ ?_ ?_ ?_
      · intro c hc
        rw [hpc] at hc
        rw [hconnfd]
        exact hc
      · intro heq
        subst heq
        cases hpcServing
      · rw [holds_serving hpcServing, holds_serving hserving]
      · rw [uncounted_serving hpcServing, uncounted_serving hserving]
  | close hpc =>
      refine h.keep rfl rfl rfl rfl rfl rfl ?_ locks_of_top ?_ ?_
      · rw [connfd_top]
        exact nofun
      · rw [holds_top, hpc]
        rfl
      · rw [uncounted_top, hpc]
        rfl
  | @badLine connfd line rest x hpc _ _ _ =>
      have hkept : Handout loop (s.setAhead i rest) := h.congr rfl rfl rfl rfl rfl rfl
      exact hkept.exit (by change (s.server i).serving = true; rw [hpc]; rfl) rfl nofun rfl rfl
  | badLastLine hpc _ _ _ _ _ => exact h.exit (by rw [hpc]; rfl) rfl nofun rfl rfl
  | brokenPipe hpc _ _ => exact h.exit (by rw [hpc]; rfl) rfl nofun rfl rfl

theorem Handout.clientMove (h : Handout loop s) {i : Fin m}
    (hmove : ClientMove args kernel s i t) : Handout loop t := by
  cases hmove with
  | connect _ _ _ _ => exact h.connect
  | done _ _ => exact h.congr rfl rfl rfl rfl rfl rfl
  | talk _ _ _ _ _ => exact h.congr rfl rfl rfl rfl rfl rfl
  | short _ _ _ _ => exact h.congr rfl rfl rfl rfl rfl rfl
  | refused _ _ => exact h.congr rfl rfl rfl rfl rfl rfl
  | reset _ _ => exact h.congr rfl rfl rfl rfl rfl rfl

theorem handout_start : Handout loop (start m n loop) := by
  constructor
  · intro i connfd hconnfd
    rw [show (start m n loop).server i = loop.top from rfl, connfd_top] at hconnfd
    cases hconnfd
  · exact List.nodup_nil
  · exact fun c => ⟨nofun, nofun⟩
  · exact fun _ htop => locks_of_top htop
  · intro i
    rw [show (start m n loop).server i = loop.top from rfl, holds_top]
    exact ⟨nofun, nofun⟩
  · intro _
    have hnone : countWhere ServerPc.uncounted (start m n loop).server = 0 :=
      countWhere_eq_zero.mpr (fun _ => uncounted_top loop)
    rw [hnone]
    simp [start]

theorem reachable_handout (h : System.Reachable (exchange m n args loop kernel) s) :
    Handout loop s := by
  refine System.ReachableUnder.invariant ?_ ?_ h
  · intro s0 hs
    rw [show s0 = start m n loop from hs]
    exact handout_start
  · intro s1 s2 a hinv _ hstep
    rcases moves_of_step hstep with ⟨i, hmove⟩ | ⟨i, hmove⟩
    · exact hinv.clientMove hmove
    · exact hinv.serverMove hmove

/-!
## Connections that are closed
-/

/-- The server has closed every accepted connection that none of its children has any
more. -/
structure Closing (s : State m n) : Prop where
  released : forall c i, s.owner c = some i ->
    (s.server i).connfd = some c ∨ (s.wire c).serverClosed = true
  down : s.down = true -> forall c, (s.wire c).serverClosed = true

theorem closing_start : Closing (start m n loop) := by
  constructor
  · intro c i ho
    cases ho
  · intro hdown
    cases hdown

theorem Talk.client_serverClosed {w w' : Wire} {c c' : ClientView}
    (h : forall v, Talk args ⟨w, c, v⟩ ⟨w', c', v⟩) : w'.serverClosed = w.serverClosed := by
  cases h .queued with
  | write | read | readAll | hangUp | start => rfl

theorem Talk.serving_serverClosed {w w' : Wire} {v v' : ServerView} (hv : v' ≠ .gone)
    (h : forall c, Talk args ⟨w, c, v⟩ ⟨w', c, v'⟩) : w'.serverClosed = w.serverClosed := by
  cases h .gone with
  | close => exact absurd rfl hv
  | start | fill | store | request | lastLine | endOfFile | reply | replied => rfl

theorem look_serving {pc : ServerPc} (h : pc.serving = true) (ahead : List UInt8) :
    pc.look ahead ≠ .gone := by
  cases pc with
  | readline _ _ => exact nofun
  | writen _ _ => exact nofun
  | close _ => exact nofun
  | _ => cases h

theorem serverClosed_setWire {fd : Nat} {w : Wire}
    (hw : w.serverClosed = (s.wire fd).serverClosed) (c : Nat) :
    (Function.update s.wire fd w c).serverClosed = (s.wire c).serverClosed := by
  by_cases hc : c = fd
  · rw [hc, Function.update_self]
    exact hw
  · rw [Function.update_of_ne hc]

theorem Closing.client (h : Closing s) (hserver : t.server = s.server)
    (howner : t.owner = s.owner) (hdown : t.down = s.down)
    (hwire : forall c, (t.wire c).serverClosed = (s.wire c).serverClosed) : Closing t := by
  constructor
  · intro c i ho
    rw [hserver, hwire]
    exact h.released c i (by rw [← howner]; exact ho)
  · intro hd c
    rw [hwire]
    exact h.down (by rw [← hdown]; exact hd) c

theorem Closing.connect (h : Closing s) (hup : s.down = false) {i : Fin m} {pc : ClientPc} :
    Closing ((s.connect i).goClient i pc) := by
  constructor
  · intro c j ho
    change Function.update s.owner s.made none c = some j at ho
    have hc : c ≠ s.made := by
      intro heq
      rw [heq, Function.update_self] at ho
      cases ho
    rw [Function.update_of_ne hc] at ho
    change _ ∨ (Function.update s.wire s.made {} c).serverClosed = true
    rw [Function.update_of_ne hc]
    exact h.released c j ho
  · intro hdown
    rw [show ((s.connect i).goClient i pc).down = s.down from rfl, hup] at hdown
    cases hdown

theorem Closing.clientMove (h : Closing s) {i : Fin m}
    (hmove : ClientMove args kernel s i t) : Closing t := by
  cases hmove with
  | connect _ _ hup _ => exact h.connect hup
  | done _ _ | refused _ _ => exact h.client rfl rfl rfl (fun _ => rfl)
  | talk _ _ _ _ htalk =>
      exact h.client rfl rfl rfl (serverClosed_setWire (Talk.client_serverClosed htalk))
  | short _ _ _ _ | reset _ _ =>
      exact h.client rfl rfl rfl (serverClosed_setWire rfl)

theorem Closing.server (h : Closing s) {i : Fin n} {pc : ServerPc}
    (hserver : t.server = Function.update s.server i pc)
    (howner : forall c j, t.owner c = some j -> s.owner c = some j ∨ pc.connfd = some c ∧ j = i)
    (hkeeps : forall c, (s.server i).connfd = some c ->
      pc.connfd = some c ∨ (t.wire c).serverClosed = true)
    (hwire : forall c, (s.wire c).serverClosed = true -> (t.wire c).serverClosed = true)
    (hdown : t.down = true -> forall c, (t.wire c).serverClosed = true) : Closing t := by
  refine ⟨?_, hdown⟩
  intro c j ho
  rw [hserver]
  by_cases hj : j = i
  · subst hj
    rw [Function.update_self]
    rcases howner c j ho with hbefore | hnew
    · rcases h.released c j hbefore with hconnfd | hclosed
      · exact hkeeps c hconnfd
      · exact Or.inr (hwire c hclosed)
    · exact Or.inl hnew.1
  · rw [Function.update_of_ne hj]
    rcases howner c j ho with hbefore | hnew
    · exact (h.released c j hbefore).imp_right (hwire c)
    · exact absurd hnew.2 hj

theorem Closing.keep (h : Closing s) {i : Fin n} {pc : ServerPc}
    (hserver : t.server = Function.update s.server i pc) (howner : t.owner = s.owner)
    (hdown : t.down = s.down)
    (hwire : forall c, (t.wire c).serverClosed = (s.wire c).serverClosed)
    (hkeeps : forall c, (s.server i).connfd = some c -> pc.connfd = some c) : Closing t := by
  refine h.server hserver ?_ (fun c hc => Or.inl (hkeeps c hc)) ?_ ?_
  · intro c j ho
    rw [howner] at ho
    exact Or.inl ho
  · intro c hc
    rw [hwire]
    exact hc
  · intro hd c
    rw [hwire]
    exact h.down (by rw [← hdown]; exact hd) c

theorem Closing.closes (h : Closing s) {i : Fin n} {connfd : Nat} {pc : ServerPc}
    (hconnfd : (s.server i).connfd = some connfd) :
    Closing ((s.setWire connfd { s.wire connfd with serverClosed := true }).goServer i pc) := by
  have hclosed : forall c, c = connfd ∨ (s.wire c).serverClosed = true ->
      (Function.update s.wire connfd { s.wire connfd with serverClosed := true } c).serverClosed =
        true := by
    intro c hc
    by_cases heq : c = connfd
    · rw [heq, Function.update_self]
    · rw [Function.update_of_ne heq]
      exact hc.resolve_left heq
  refine h.server rfl (fun _ _ ho => Or.inl ho) ?_ (fun c hc => hclosed c (Or.inr hc))
    (fun hd c => hclosed c (Or.inr (h.down hd c)))
  intro c hc
  rw [hconnfd] at hc
  exact Or.inr (hclosed c (Or.inl (Option.some.inj hc).symm))

theorem Closing.exit (h : Closing s) {i : Fin n} {connfd : Nat} {pc : ServerPc}
    (hconnfd : (s.server i).connfd = some connfd) :
    Closing (s.exitServer loop i connfd pc) := by
  unfold State.exitServer
  split
  · exact h.server rfl (fun _ _ ho => Or.inl ho) (fun _ _ => Or.inr rfl) (fun _ _ => rfl)
      (fun _ _ => rfl)
  · exact h.closes hconnfd

theorem Closing.serverMove (h : Closing s) {i : Fin n} (hmove : ServerMove args loop s i t) :
    Closing t := by
  cases hmove with
  | select hpc _ | lock hpc _ =>
      refine h.keep rfl rfl rfl (fun _ => rfl) ?_
      intro c hc
      rw [hpc] at hc
      cases hc
  | @accept connfd rest hpc _ =>
      refine h.server rfl ?_ ?_ (fun _ hc => hc) h.down
      · intro c j ho
        change Function.update s.owner connfd (some i) c = some j at ho
        by_cases hc : c = connfd
        · rw [hc, Function.update_self] at ho
          rw [hc]
          exact Or.inr ⟨connfd_accepted loop connfd, (Option.some.inj ho).symm⟩
        · rw [Function.update_of_ne hc] at ho
          exact Or.inl ho
      · intro c hc
        rw [hpc] at hc
        cases hc
  | unlock hpc =>
      refine h.keep rfl rfl rfl (fun _ => rfl) ?_
      intro c hc
      rw [hpc] at hc
      cases hc
      exact connfd_unlocked loop _
  | count hpc =>
      refine h.keep rfl rfl rfl (fun _ => rfl) ?_
      intro c hc
      rw [hpc] at hc
      cases hc
      rfl
  | talk hconnfd _ hpc hserving htalk =>
      refine h.keep rfl rfl rfl
        (serverClosed_setWire (Talk.serving_serverClosed (look_serving hserving _) htalk)) ?_
      intro c hc
      rw [hconnfd] at hc
      rw [hpc]
      exact hc
  | close hpc => exact h.closes (by rw [hpc]; rfl)
  | @badLine connfd line rest x hpc _ _ _ =>
      have hkept : Closing (s.setAhead i rest) := ⟨h.released, h.down⟩
      exact hkept.exit (by change (s.server i).connfd = some connfd; rw [hpc]; rfl)
  | badLastLine hpc _ _ _ _ _ => exact h.exit (by rw [hpc]; rfl)
  | brokenPipe hpc _ _ => exact h.exit (by rw [hpc]; rfl)

theorem reachable_closing (h : System.Reachable (exchange m n args loop kernel) s) :
    Closing s := by
  refine System.ReachableUnder.invariant ?_ ?_ h
  · intro s0 hs
    rw [show s0 = start m n loop from hs]
    exact closing_start
  · intro s1 s2 a hinv _ hstep
    rcases moves_of_step hstep with ⟨i, hmove⟩ | ⟨i, hmove⟩
    · exact hinv.clientMove hmove
    · exact hinv.serverMove hmove

/-!
## Connections that are accepted
-/

def Accepted (s : State m n) (c : Nat) (i : Fin n) : Prop :=
  c < s.made ∧ s.owner c = some i

theorem Accepted.serverMove (h : Handout loop s) {c : Nat} {i j : Fin n}
    (haccepted : Accepted s c j) (hmove : ServerMove args loop s i t) : Accepted t c j := by
  cases hmove with
  | @accept connfd rest hpc hpending =>
      have hne : c ≠ connfd := by
        intro heq
        have hnone := ((h.queued c).mp (by rw [hpending, heq]; exact List.mem_cons_self)).2
        rw [haccepted.2] at hnone
        cases hnone
      exact ⟨haccepted.1, (Function.update_of_ne hne _ _).trans haccepted.2⟩
  | badLine | badLastLine | brokenPipe =>
      unfold State.exitServer
      split <;> exact haccepted
  | _ => exact haccepted

theorem Accepted.clientMove {c : Nat} {i : Fin m} {j : Fin n} (haccepted : Accepted s c j)
    (hmove : ClientMove args kernel s i t) : Accepted t c j := by
  cases hmove with
  | connect _ _ _ _ =>
      exact ⟨Nat.lt_succ_of_lt haccepted.1,
        (Function.update_of_ne (Nat.ne_of_lt haccepted.1) _ _).trans haccepted.2⟩
  | _ => exact haccepted

theorem Accepted.not_pending (h : Handout loop s) {c : Nat} {i : Fin n}
    (haccepted : Accepted s c i) : c ∉ s.pending := by
  intro hmem
  have hnone := ((h.queued c).mp hmem).2
  rw [haccepted.2] at hnone
  cases hnone

theorem Accepted.run {c : Nat} {j : Fin n} {schedule : List (Action m n)}
    (hrun : System.Run (exchange m n args loop kernel) s schedule t) (h : Handout loop s)
    (haccepted : Accepted s c j) : Accepted t c j ∧ c ∉ t.pending := by
  have hboth := hrun.invariant (fun s => Handout loop s ∧ Accepted s c j) ?_ ⟨h, haccepted⟩
  · exact ⟨hboth.2, hboth.2.not_pending hboth.1⟩
  intro s1 s2 a hboth _ hstep
  rcases hboth with ⟨hinv, hhas⟩
  rcases moves_of_step hstep with ⟨i, hmove⟩ | ⟨i, hmove⟩
  · exact ⟨hinv.clientMove hmove, hhas.clientMove hmove⟩
  · exact ⟨hinv.serverMove hmove, hhas.serverMove hinv hmove⟩

/-- For every client and every server of the family, also when servers give up: a server
only has connections that it has accepted itself, no connection is accepted again after
that, the server has closed a connection once nobody there has it any more, and all of
them once its only process has ended, at most one server is between the lock and the
unlock, and with counters all connections are counted once, except those that have not
been accepted and those that a server has accepted and not counted yet. -/
theorem exchange_hands_out (h : System.Reachable (exchange m n args loop kernel) s) :
    (forall i c, (s.server i).connfd = some c -> Accepted s c i ∧ c ∉ s.pending) ∧
    (forall i c schedule u, Accepted s c i ->
      System.Run (exchange m n args loop kernel) s schedule u ->
        Accepted u c i ∧ c ∉ u.pending) ∧
    (forall i c, Accepted s c i ->
      (s.server i).connfd = some c ∨ (s.wire c).serverClosed = true) ∧
    (s.down = true -> forall c, (s.wire c).serverClosed = true) ∧
    (forall i j, (s.server i).holds loop = true -> (s.server j).holds loop = true -> i = j) ∧
    (loop.counts = true ->
      ∑ i, s.count i + s.pending.length + countWhere ServerPc.uncounted s.server = s.made) := by
  have hinv := reachable_handout h
  have hclosing := reachable_closing h
  refine ⟨?_, ?_, fun i c hc => hclosing.released c i hc.2, hclosing.down, ?_, hinv.counted⟩
  · intro i c hi
    have haccepted : Accepted s c i := hinv.connfds i c hi
    exact ⟨haccepted, haccepted.not_pending hinv⟩
  · intro i c schedule u haccepted hrun
    exact Accepted.run hrun hinv haccepted
  · intro i j hi hj
    have hholder := (hinv.holder i).mp hi
    rw [(hinv.holder j).mp hj] at hholder
    exact (Option.some.inj hholder).symm

/-- A client asks for nothing twice: the first request ends the server. -/
def asksForNothing (i : Fin m) (j : Fin n) : List (Action m n) :=
  [.client i 0, .client i 0, .server j 0, .server j 0, .server j 0, .server j 0,
    .server j 1, .server j 0, .server j 1, .server j 0, .client i 0, .client i 0, .client i 0]

/-- With children the second one waits for the lock while the first one accepts; the
threads go down together. -/
theorem exchange_hands_out_first :
    (exists s : State 1 2, s.server 0 = .unlock 0 ∧ s.server 1 = .lock ∧
      Accepted s 0 0 ∧ 0 ∉ s.pending ∧ (s.server 1).holds child03m = false ∧
      ∑ i, s.count i + s.pending.length + countWhere ServerPc.uncounted s.server = 1) ∧
    exists s : State 1 2, s.server 0 = .quit 0 ∧ s.server 1 = .lock ∧ s.client 0 = .failed ∧
      (s.wire 0).serverClosed = true ∧ s.count 0 = 1 := by
  constructor
  · have hreach : exists s, System.Reachable
        (exchange 1 2 { nloops := 1, nbytes := 5 } child03m { backlog := 1, room := 1 }) s ∧
        (s.server 0 = .unlock 0 ∧ s.server 1 = .lock ∧ s.made = 1) :=
      System.reachable_of_exec (s := start 1 2 child03m)
        [.client 0 0, .server 0 0, .server 0 0] rfl (by decide)
    rcases hreach with ⟨s, hs, hfirst, hsecond, hmade⟩
    rcases exchange_hands_out hs with ⟨hhas, _, _, _, hone, hcounted⟩
    rcases hhas 0 0 (by rw [hfirst]; rfl) with ⟨haccepted, hpending⟩
    refine ⟨s, hfirst, hsecond, haccepted, hpending, ?_, (hcounted rfl).trans hmade⟩
    rw [← Bool.not_eq_true]
    intro hholds
    exact absurd (hone 0 1 (by rw [hfirst]; rfl) hholds) (by decide)
  · have hreach : exists s, System.Reachable
        (exchange 1 2 { nloops := 2, nbytes := 0 } pthread07 { backlog := 1, room := 1 }) s ∧
        (s.server 0 = .quit 0 ∧ s.server 1 = .lock ∧ s.client 0 = .failed ∧ s.down = true ∧
          s.count 0 = 1) :=
      System.reachable_of_exec (s := start 1 2 pthread07) (asksForNothing 0 0) rfl (by decide)
    rcases hreach with ⟨s, hs, hfirst, hsecond, hclient, hdown, hcount⟩
    exact ⟨s, hfirst, hsecond, hclient, (exchange_hands_out hs).2.2.2.1 hdown 0, hcount⟩

end Exchange
end PracticeHand
