import PracticeHand.Concurrency.Runs
import PracticeHand.Traceroute.RecvV4

/-!
# The timeout of `recv_v4`

`recv_v4` arms an alarm, and its handler sets `gotalarm` and interrupts a blocked
`recvfrom`.  The flag is tested before every call of `recvfrom`, but the test and
the call are two steps.  An alarm that goes off between them interrupts nothing,
and `recv_v4` waits for a datagram that may never come.

Here a call of `recv_v4` is taken apart into its steps, and SIGALRM can be delivered
between any two of them.  The caller can do anything with the structures between
two calls; it never arms an alarm.
-/

namespace PracticeHand
namespace Traceroute

open Concurrency
open Streams

namespace Alarm

inductive Pc where
  /-- in `traceloop`, between two calls -/
  | outside
  | memset
  | reset
  | arm
  | test
  /-- behind the test of `gotalarm`, at the call of `recvfrom` -/
  | recvfrom
  /-- in `recvfrom`, with nothing to receive -/
  | blocked
  | received (d : Datagram)
  /-- at `alarm(0)`; what `recv_v4` will return -/
  | disarm (ret : Ret)
  | returned (ret : Ret)
  | exited
  deriving DecidableEq

structure Process where
  pc : Pc
  statu : Status
  pkt : Packet
  pro : Proto
  -- an alarm is armed and has not gone off
  alarm : Bool
  queue : List Datagram

inductive Action where
  -- `traceloop` calls `recv_v4` with these structures
  | call (statu : Status) (pkt : Packet)
  | go
  | arrive (d : Datagram)
  | alarm
  | interrupt
  | fail
  -- SIGINT: `sig_term` quits
  | quit

def setAlarm (statu : Status) (gotalarm : Int) : Status :=
  { statu with gotalarm := gotalarm }

def go (order : ByteOrder) (s : Process) : Option Process :=
  match s.pc with
  | .memset =>
      some { s with
        pc := .reset
        statu := { s.statu with recvbuf := clearBuf s.statu.recvbuf } }
  | .reset => some { s with pc := .arm, statu := setAlarm s.statu 0 }
  | .arm => some { s with pc := .test, alarm := true }
  | .test =>
      if 1 = s.statu.gotalarm then some { s with pc := .returned .nothing }
      else some { s with pc := .recvfrom }
  | .recvfrom =>
      match s.queue with
      | [] => some { s with pc := .blocked }
      | d :: rest => some { s with pc := .received d, queue := rest }
  | .received d =>
      -- what follows `alarm(0)` is done with what comes before it; no step reads it
      let j := s.statu.recvV4 order s.pkt s.pro d
      let s := { s with statu := j.statu, pkt := j.pkt, pro := j.pro }
      match j.ret with
      | none => some { s with pc := .test }
      | some ret => some { s with pc := .disarm ret }
  | .disarm ret => some { s with pc := .returned ret, alarm := false }
  | .returned _ => some { s with pc := .outside }
  | .outside | .blocked | .exited => none

def step (order : ByteOrder) (s : Process) (a : Action) : Option Process :=
  if s.pc = .exited then none
  else
    match a with
    | .call statu pkt =>
        if s.pc = .outside then
          some { s with pc := .memset, statu := setAlarm statu 0, pkt := pkt }
        else none
    | .go => go order s
    | .arrive d =>
        if s.pc = .blocked then some { s with pc := .received d }
        else some { s with queue := s.queue ++ [d] }
    | .alarm =>
        if s.alarm = true then
          -- a blocked `recvfrom` fails with EINTR and the loop goes on
          some { s with
            pc := if s.pc = .blocked then .test else s.pc
            statu := setAlarm s.statu 1
            alarm := false }
        else none
    | .interrupt => if s.pc = .blocked then some { s with pc := .test } else none
    | .fail =>
        if s.pc = .recvfrom ∨ s.pc = .blocked then some { s with pc := .exited } else none
    | .quit => some { s with pc := .exited }

def recvV4 (order : ByteOrder) : System Process Action where
  Init s := s.pc = .outside ∧ s.alarm = false
  step := step order

/-!
## What a step can do
-/

structure GoesTo (s : Process) (pc : Pc) (s' : Process) : Prop where
  pc : s'.pc = pc
  alarm : s'.alarm = s.alarm
  gotalarm : s'.statu.gotalarm = s.statu.gotalarm

inductive Moves (s : Process) (a : Action) (s' : Process) : Prop where
  | enters : s.pc = .outside -> s'.pc = .memset -> s'.alarm = s.alarm -> Moves s a s'
  | clears : s.pc = .memset -> GoesTo s .reset s' -> Moves s a s'
  | resets : s.pc = .reset -> s'.pc = .arm -> s'.alarm = s.alarm ->
      s'.statu.gotalarm = 0 -> Moves s a s'
  | arms : s.pc = .arm -> s'.pc = .test -> s'.alarm = true ->
      s'.statu.gotalarm = s.statu.gotalarm -> Moves s a s'
  | expires : s.pc = .test -> s.statu.gotalarm = 1 -> GoesTo s (.returned .nothing) s' ->
      Moves s a s'
  | calls : s.pc = .test -> s.statu.gotalarm ≠ 1 -> GoesTo s .recvfrom s' -> Moves s a s'
  | blocks : s.pc = .recvfrom -> s.queue = [] -> GoesTo s .blocked s' -> Moves s a s'
  | receives {d : Datagram} : s.pc = .recvfrom ∨ s.pc = .blocked ->
      GoesTo s (.received d) s' -> Moves s a s'
  | skips {d : Datagram} : s.pc = .received d -> GoesTo s .test s' -> Moves s a s'
  | accepts {d : Datagram} {ret : Ret} : s.pc = .received d -> GoesTo s (.disarm ret) s' ->
      Moves s a s'
  | disarms {ret : Ret} : s.pc = .disarm ret -> s'.pc = .returned ret -> s'.alarm = false ->
      Moves s a s'
  | leaves {ret : Ret} : s.pc = .returned ret -> GoesTo s .outside s' -> Moves s a s'
  | queues : s.pc ≠ .blocked -> GoesTo s s.pc s' -> s'.queue ≠ [] -> Moves s a s'
  | rings : a = .alarm -> s.pc ≠ .blocked -> s'.pc = s.pc -> s'.alarm = false ->
      s'.statu.gotalarm = 1 -> s'.queue = s.queue -> s.alarm = true -> Moves s a s'
  /-- SIGALRM interrupts `recvfrom`. -/
  | wakes : s.pc = .blocked -> s'.pc = .test -> s'.alarm = false -> s'.statu.gotalarm = 1 ->
      Moves s a s'
  | restarts : s.pc = .blocked -> GoesTo s .test s' -> Moves s a s'
  | exits : s'.pc = .exited -> Moves s a s'

theorem gotalarm_recvV4 (order : ByteOrder) (statu : Status) (pkt : Packet) (pro : Proto)
    (d : Datagram) : (statu.recvV4 order pkt pro d).statu.gotalarm = statu.gotalarm := by
  unfold Status.recvV4
  dsimp only
  split_ifs <;> rfl

theorem moves_of_go {order : ByteOrder} {s s' : Process} {a : Action}
    (h : go order s = some s') : Moves s a s' := by
  unfold go at h
  split at h
  · rename_i hpc
    cases h
    exact .clears hpc ⟨rfl, rfl, rfl⟩
  · rename_i hpc
    cases h
    exact .resets hpc rfl rfl rfl
  · rename_i hpc
    cases h
    exact .arms hpc rfl rfl rfl
  · rename_i hpc
    split at h
    · rename_i hgot
      cases h
      exact .expires hpc hgot.symm ⟨rfl, rfl, rfl⟩
    · rename_i hgot
      cases h
      exact .calls hpc (Ne.symm hgot) ⟨rfl, rfl, rfl⟩
  · rename_i hpc
    split at h
    · rename_i hqueue
      cases h
      exact .blocks hpc hqueue ⟨rfl, rfl, rfl⟩
    · cases h
      exact .receives (Or.inl hpc) ⟨rfl, rfl, rfl⟩
  · rename_i d hpc
    have hgot := gotalarm_recvV4 order s.statu s.pkt s.pro d
    dsimp only at h
    split at h
    · cases h
      exact .skips hpc ⟨rfl, rfl, hgot⟩
    · cases h
      exact .accepts hpc ⟨rfl, rfl, hgot⟩
  · rename_i hpc
    cases h
    exact .disarms hpc rfl rfl
  · rename_i hpc
    cases h
    exact .leaves hpc ⟨rfl, rfl, rfl⟩
  · cases h
  · cases h
  · cases h

theorem moves_of_step {order : ByteOrder} {s s' : Process} {a : Action}
    (h : step order s a = some s') : Moves s a s' := by
  unfold step at h
  split at h
  · cases h
  · split at h
    · split at h
      · rename_i hpc
        cases h
        exact .enters hpc rfl rfl
      · cases h
    · exact moves_of_go h
    · split at h
      · rename_i hpc
        cases h
        exact .receives (Or.inr hpc) ⟨rfl, rfl, rfl⟩
      · rename_i hpc
        cases h
        exact .queues hpc ⟨rfl, rfl, rfl⟩ (by simp)
    · split at h
      · rename_i halarm
        cases h
        by_cases hpc : s.pc = .blocked
        · exact .wakes hpc (if_pos hpc) rfl rfl
        · exact .rings rfl hpc (if_neg hpc) rfl rfl rfl halarm
      · cases h
    · split at h
      · rename_i hpc
        cases h
        exact .restarts hpc ⟨rfl, rfl, rfl⟩
      · cases h
    · split at h
      · cases h
        exact .exits rfl
      · cases h
    · cases h
      exact .exits rfl

/-!
## The alarm at each location
-/

/-- Outside of its loop `recv_v4` has no alarm; in the loop the flag says whether the
alarm has gone off. -/
def AlarmInv (s : Process) : Prop :=
  match s.pc with
  | .outside | .memset | .reset | .returned _ => s.alarm = false
  | .arm => s.alarm = false ∧ s.statu.gotalarm = 0
  | .test | .recvfrom | .blocked | .received _ | .disarm _ =>
      s.statu.gotalarm = if s.alarm = true then 0 else 1
  | .exited => True

theorem alarmInv_step {order : ByteOrder} {s s' : Process} {a : Action} (h : AlarmInv s)
    (hstep : step order s a = some s') : AlarmInv s' := by
  unfold AlarmInv at h
  cases moves_of_step hstep with
  | enters hpc hpc' halarm =>
      rw [hpc] at h
      rw [AlarmInv, hpc', halarm]
      exact h
  | clears hpc hto =>
      rw [hpc] at h
      rw [AlarmInv, hto.pc, hto.alarm]
      exact h
  | resets hpc hpc' halarm hgot =>
      rw [hpc] at h
      rw [AlarmInv, hpc', halarm, hgot]
      exact ⟨h, rfl⟩
  | arms hpc hpc' halarm hgot =>
      rw [hpc] at h
      rw [AlarmInv, hpc', halarm, hgot]
      exact h.2
  | expires hpc hgot hto =>
      rw [hpc] at h
      rw [AlarmInv, hto.pc, hto.alarm]
      dsimp only at h ⊢
      rw [hgot] at h
      cases halarm : s.alarm with
      | false => rfl
      | true => simp [halarm] at h
  | calls hpc _ hto | blocks hpc _ hto | skips hpc hto | accepts hpc hto | restarts hpc hto =>
      rw [hpc] at h
      rw [AlarmInv, hto.pc, hto.alarm, hto.gotalarm]
      exact h
  | receives hpc hto =>
      rw [AlarmInv, hto.pc, hto.alarm, hto.gotalarm]
      rcases hpc with hpc | hpc <;> rw [hpc] at h <;> exact h
  | disarms _ hpc' halarm =>
      rw [AlarmInv, hpc']
      exact halarm
  | leaves hpc hto =>
      rw [hpc] at h
      rw [AlarmInv, hto.pc, hto.alarm]
      exact h
  | queues _ hto _ =>
      rw [AlarmInv, hto.pc, hto.alarm, hto.gotalarm]
      exact h
  | rings _ _ hpc' halarm' hgot _ halarm =>
      rw [AlarmInv, hpc', halarm', hgot]
      cases hpc : s.pc <;> simp_all
  | wakes _ hpc' halarm hgot =>
      rw [AlarmInv, hpc', halarm, hgot]
      rfl
  | exits hpc' =>
      rw [AlarmInv, hpc']
      trivial

/-!
## Blocked with an alarm to come
-/

/-- SIGALRM does not come between the test of `gotalarm` and a call of `recvfrom` that
finds nothing to receive. -/
def NotBetween (s : Process) : Action -> Prop
  | .alarm => s.pc = .recvfrom -> s.queue ≠ []
  | _ => True

instance (s : Process) : DecidablePred (NotBetween s)
  | .alarm => inferInstanceAs (Decidable (s.pc = .recvfrom -> s.queue ≠ []))
  | .call _ _ | .go | .arrive _ | .interrupt | .fail | .quit => inferInstanceAs (Decidable True)

structure Watched (s : Process) : Prop where
  calling : s.pc = .recvfrom -> s.alarm = true ∨ s.queue ≠ []
  blocked : s.pc = .blocked -> s.alarm = true

theorem Watched.of_pc {s : Process} (hcalling : s.pc ≠ .recvfrom) (hblocked : s.pc ≠ .blocked) :
    Watched s :=
  ⟨fun hpc => (hcalling hpc).elim, fun hpc => (hblocked hpc).elim⟩

theorem watched_step {order : ByteOrder} {s s' : Process} {a : Action} (hinv : AlarmInv s)
    (h : Watched s) (hok : NotBetween s a) (hstep : step order s a = some s') : Watched s' := by
  have helsewhere : forall {pc : Pc}, s'.pc = pc -> pc ≠ .recvfrom -> pc ≠ .blocked ->
      Watched s' := by
    intro pc hpc hcalling hblocked
    rw [← hpc] at hcalling hblocked
    exact .of_pc hcalling hblocked
  cases moves_of_step hstep with
  | calls hpc hgot hto =>
      -- the test has just found that the alarm has not gone off
      have halarm : s.alarm = true := by
        rw [AlarmInv, hpc] at hinv
        by_contra hoff
        exact hgot (hinv.trans (if_neg hoff))
      refine ⟨fun _ => Or.inl ?_, fun hblocked => ?_⟩
      · rw [hto.alarm, halarm]
      · rw [hto.pc] at hblocked
        cases hblocked
  | blocks hpc hqueue hto =>
      refine ⟨fun hcalling => ?_, fun _ => ?_⟩
      · rw [hto.pc] at hcalling
        cases hcalling
      · rw [hto.alarm]
        exact (h.calling hpc).resolve_right (fun hne => hne hqueue)
  | queues hpc hto hqueue =>
      refine ⟨fun _ => Or.inr hqueue, fun hblocked => ?_⟩
      rw [hto.pc] at hblocked
      exact (hpc hblocked).elim
  | rings ha hpc hpc' _ _ hqueue _ =>
      subst ha
      refine ⟨fun hcalling => Or.inr ?_, fun hblocked => ?_⟩
      · rw [hqueue]
        rw [hpc'] at hcalling
        exact hok hcalling
      · rw [hpc'] at hblocked
        exact (hpc hblocked).elim
  | enters _ hpc' _ | resets _ hpc' _ _ | arms _ hpc' _ _ | disarms _ hpc' _
  | wakes _ hpc' _ _ | exits hpc' =>
      exact helsewhere hpc' (fun hpc => nomatch hpc) (fun hpc => nomatch hpc)
  | clears _ hto | expires _ _ hto | receives _ hto | skips _ hto | accepts _ hto
  | leaves _ hto | restarts _ hto =>
      exact helsewhere hto.pc (fun hpc => nomatch hpc) (fun hpc => nomatch hpc)

theorem alarmInv_initial {order : ByteOrder} {s : Process} (hs : (recvV4 order).Init s) :
    AlarmInv s := by
  rw [AlarmInv, hs.1]
  exact hs.2

theorem watched_initial {order : ByteOrder} {s : Process} (hs : (recvV4 order).Init s) :
    Watched s := by
  apply Watched.of_pc
  · rw [hs.1]
    exact fun h => nomatch h
  · rw [hs.1]
    exact fun h => nomatch h

theorem reachable_alarmInv {order : ByteOrder} {s : Process}
    (hreach : (recvV4 order).Reachable s) : AlarmInv s := by
  apply System.ReachableUnder.invariant _ _ hreach
  · intro s hs
    exact alarmInv_initial hs
  · intro s s' a hs _ hstep
    exact alarmInv_step hs hstep

theorem reachableUnder_watched {order : ByteOrder} {s : Process}
    (hreach : (recvV4 order).ReachableUnder NotBetween s) : AlarmInv s ∧ Watched s := by
  apply System.ReachableUnder.invariant _ _ hreach
  · intro s hs
    exact ⟨alarmInv_initial hs, watched_initial hs⟩
  · intro s s' a hs hok hstep
    exact ⟨alarmInv_step hs.1 hstep, watched_step hs.1 hs.2 hok hstep⟩

/-- No call of `recv_v4` leaves an alarm behind.  If SIGALRM does not come between the
test and the call, `recv_v4` never blocks after the alarm has gone off; if it does,
`recv_v4` can block at once. -/
theorem recvV4_timeout (order : ByteOrder) :
    (forall s, (recvV4 order).Reachable s -> forall ret, s.pc = .returned ret ->
      s.alarm = false) ∧
    (forall s, (recvV4 order).ReachableUnder NotBetween s -> s.pc = .blocked ->
      s.alarm = true) ∧
    (forall s s', ¬ NotBetween s .alarm -> (recvV4 order).step s .alarm = some s' ->
      exists t, (recvV4 order).Run s' [.go] t ∧ t.pc = .blocked ∧ t.alarm = false) := by
  refine ⟨?_, ?_, ?_⟩
  · intro s hreach ret hpc
    have hinv := reachable_alarmInv hreach
    rw [AlarmInv, hpc] at hinv
    exact hinv
  · intro s hreach hpc
    exact (reachableUnder_watched hreach).2.blocked hpc
  · intro s s' hbetween hstep
    have hwindow : s.pc = .recvfrom ∧ s.queue = [] := by
      rw [NotBetween, Classical.not_imp, Classical.not_not] at hbetween
      exact hbetween
    rcases s with ⟨pc, statu, pkt, pro, alarm, queue⟩
    rcases hwindow with ⟨rfl, rfl⟩
    simp only [recvV4, step, reduceCtorEq, if_false] at hstep
    split at hstep
    · cases hstep
      exact ⟨_, System.RunUnder.cons trivial rfl (System.RunUnder.nil _), rfl, rfl⟩
    · cases hstep

def atRest : Process where
  pc := .outside
  statu := oddProbe
  pkt := stalePacket 3
  pro := protoToOne
  alarm := false
  queue := []

def upToCall : List Action :=
  [.call oddProbe (stalePacket 3), .go, .go, .go, .go]

def strayByte : Datagram where
  bytes := [0]
  nonempty := List.cons_ne_nil _ _

/-- A datagram is skipped, the alarm goes off while another one is queued, and `recv_v4`
is called again. -/
def skipAndRing : List Action :=
  [.go, .arrive strayByte, .go, .arrive strayByte, .go, .alarm, .go, .go, .go, .go]

theorem recvV4_timeout_blocked :
    exists s, (recvV4 .little).ReachableUnder NotBetween s ∧ s.pc = .blocked ∧
      s.alarm = true := by
  have hrun : exists s, (recvV4 .little).ReachableUnder NotBetween s ∧ s.pc = .blocked :=
    System.reachableUnder_of_execUnder (s := atRest)
      (upToCall ++ skipAndRing ++ upToCall ++ [.go]) ⟨rfl, rfl⟩ (by decide)
  rcases hrun with ⟨s, hreach, hpc⟩
  exact ⟨s, hreach, hpc, (recvV4_timeout .little).2.1 s hreach hpc⟩

/-- SIGALRM is delivered when `gotalarm` has been tested and `recvfrom` has not been
called. -/
theorem recvV4_misses_alarm :
    exists s, (recvV4 .little).Reachable s ∧ s.pc = .blocked ∧ s.alarm = false ∧
      s.statu.gotalarm = 1 :=
  System.reachable_of_exec (s := atRest) (upToCall ++ [.alarm, .go]) ⟨rfl, rfl⟩ (by decide)

end Alarm

end Traceroute
end PracticeHand
