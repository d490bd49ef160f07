import PracticeHand.Concurrency.Progress
import PracticeHand.Traceroute.Traceloop

/-!
# What a trace prints

What `traceloop` prints is a function of the answers that the network gives to its
probes: three attempts for each hop, the address only with the first answer of a
hop, and the end of the trace with the first echo reply.  Datagrams that fail the
tests of `recv_v4` and signals other than `SIGALRM` make no difference.
-/

namespace PracticeHand
namespace Traceroute

open Concurrency
open Streams

/-!
## The answers
-/

/-- The answer to one probe.  The last case is any other ICMP message. -/
inductive Reply where
  | silent
  | exceeded (a : Addr)
  | echo (a : Addr)
  | other
  deriving DecidableEq

/-- The answer that a datagram with an IP header of 20 bytes is. -/
def Datagram.reply (d : Datagram) : Option Reply := do
  let kind <- d.bytes[sizeofIp]?
  let src <- addrAt d.bytes 12
  if icmpTimeExceeded = kind then return .exceeded src
  else if icmpEchoReply = kind then return .echo src
  else return .other

def Reply.ret : Reply -> Ret
  | .silent => .nothing
  | .exceeded _ => .answered
  | .echo _ => .arrived
  | .other => .nothing

def Reply.flagsEcho (before : Bool) : Reply -> Bool
  | .silent => before
  | .exceeded _ => true
  | .echo _ => true
  | .other => before

def Reply.shown (flagsEcho : Bool) : Reply -> List Print
  | .silent => [.star]
  | .exceeded a => if flagsEcho = false then [.router a, .rtt] else [.rtt]
  | .echo a => [.destination a, .arrives]
  | .other => [.star]

/-- The answers to the probes of each hop, attempt by attempt. -/
abbrev Network := Nat -> Nat -> Reply

def Pc.curtime : Pc -> Nat
  | .attempt k => k
  | .recvfrom k => k
  | _ => 0

/-- What can happen in a network.  `SIGALRM` comes where the answer does not, and only
while `recvfrom` waits; `recvfrom` does not fail. -/
def Answers (c : Setup) (net : Network) (s : Trace) : Action -> Prop
  | .go => True
  | .event (.datagram d) => d.Accepted c -> d.reply = some (net s.hopsTime s.pc.curtime)
  | .event .alarm => net s.hopsTime s.pc.curtime = .silent
  | .event .lateAlarm => False
  | .event .interrupted => True
  | .event .failed => False

instance (c : Setup) (net : Network) (s : Trace) (a : Action) : Decidable (Answers c net s a) :=
  match a with
  | .go => isTrue trivial
  | .event (.datagram _) => inferInstanceAs (Decidable (_ -> _))
  | .event .alarm => inferInstanceAs (Decidable (_ = _))
  | .event .lateAlarm => isFalse id
  | .event .interrupted => isTrue trivial
  | .event .failed => isFalse id

/-- What has no part in the trace. -/
def Action.noise (c : Setup) : Action -> Bool
  | .event (.datagram d) => decide (¬ d.Accepted c)
  | .event .interrupted => true
  | _ => false

/-!
## The transcript
-/

def line : List Reply -> Bool -> List Print
  | [], _ => []
  | r :: rest, flagsEcho =>
      r.shown flagsEcho ++ if r.ret = .arrived then [] else line rest (r.flagsEcho flagsEcho)

def Network.from (net : Network) (hop k : Nat) : List Reply :=
  (List.range' k (looptime - k)).map (net hop)

def arrives (replies : List Reply) : Bool :=
  replies.any (fun r => r.ret == .arrived)

/-- The lines of this many hops, up to the one with the echo reply. -/
def transcript (net : Network) : Nat -> Nat -> List Print
  | 0, _ => []
  | left + 1, hop =>
      .hop hop :: line (net.from hop 0) false ++ .newline ::
        if arrives (net.from hop 0) = true then [] else transcript net left (hop + 1)

def rest (net : Network) (total hop k : Nat) (flagsEcho : Bool) : List Print :=
  line (net.from hop k) flagsEcho ++ .newline ::
    if arrives (net.from hop k) = true then [] else transcript net (total - hop) (hop + 1)

def Trace.remaining (net : Network) (total : Nat) (s : Trace) : List Print :=
  match s.pc with
  | .hop => if s.done = true then [] else transcript net (total + 1 - s.hopsTime) s.hopsTime
  | .attempt k => if s.done = true then [.newline] else rest net total s.hopsTime k s.flagsEcho
  | .recvfrom k => rest net total s.hopsTime k s.flagsEcho
  | .finished => []
  | .exited => []

theorem from_cons (net : Network) (hop : Nat) {k : Nat} (hk : k < looptime) :
    net.from hop k = net hop k :: net.from hop (k + 1) := by
  have hlength : looptime - k = looptime - (k + 1) + 1 := by lia
  rw [Network.from, hlength, List.range'_succ, List.map_cons]
  rfl

theorem from_nil (net : Network) (hop : Nat) : net.from hop looptime = [] := by
  rfl

theorem rest_cons (net : Network) (total hop : Nat) {k : Nat} (flagsEcho : Bool)
    (hk : k < looptime) :
    rest net total hop k flagsEcho = (net hop k).shown flagsEcho ++
      if (net hop k).ret = .arrived then [.newline]
      else rest net total hop (k + 1) ((net hop k).flagsEcho flagsEcho) := by
  by_cases hret : (net hop k).ret = .arrived
  · simp [rest, from_cons net hop hk, line, arrives, hret]
  · simp [rest, from_cons net hop hk, line, arrives, hret]

theorem rest_nil (net : Network) (total hop : Nat) (flagsEcho : Bool) :
    rest net total hop looptime flagsEcho =
      .newline :: transcript net (total - hop) (hop + 1) := by
  simp [rest, from_nil, line, arrives]

theorem transcript_succ (net : Network) {total hop : Nat} (hhop : hop ≤ total) :
    transcript net (total + 1 - hop) hop = .hop hop :: rest net total hop 0 false := by
  rw [show total + 1 - hop = total - hop + 1 by lia, transcript, rest]
  rfl

/-!
## The steps
-/

section Steps

variable {c : Setup} {net : Network} {s s' : Trace} {a : Action}

theorem reply_eq {d : Datagram} {r : Reply} (hlength : sizeofIp ≤ d.bytes.length)
    (hreply : d.reply = some r) (buf : Nat -> UInt8) :
    r = if icmpTimeExceeded = receive buf d sizeofIp then
        .exceeded (addrIn (receive buf d) 12)
      else if icmpEchoReply = receive buf d sizeofIp then .echo (addrIn (receive buf d) 12)
      else .other := by
  have haddr : addrAt d.bytes 12 = some (addrIn (receive buf d) 12) := by
    simp [addrAt, addrIn, receive_header hlength buf (show 12 < sizeofIp by decide),
      receive_header hlength buf (show 13 < sizeofIp by decide),
      receive_header hlength buf (show 14 < sizeofIp by decide),
      receive_header hlength buf (show 15 < sizeofIp by decide)]
  have hkind := receive_at (show sizeofIp < bufsize by decide) buf d
  cases hbyte : d.bytes[sizeofIp]? with
  | none => simp [Datagram.reply, hbyte] at hreply
  | some kind =>
      rw [hbyte, Option.getD_some] at hkind
      simp only [Datagram.reply, hbyte, haddr, Option.bind_eq_bind, Option.bind_some] at hreply
      rw [hkind]
      split_ifs at hreply ⊢ <;> exact (Option.some.inj hreply).symm

theorem examine_reply {d : Datagram} {r : Reply} (haccepted : d.Accepted c)
    (hreply : d.reply = some r) :
    (examine c s d).2 = some r.ret ∧
      (examine c s d).1.printed ++ r.ret.print = s.printed ++ r.shown s.flagsEcho ∧
      (examine c s d).1.flagsEcho = r.flagsEcho s.flagsEcho := by
  have hr := reply_eq haccepted.1 hreply s.recvbuf
  have hresult := examine_result c s d
  rw [if_pos haccepted] at hresult
  unfold examine at hresult ⊢
  dsimp only at hresult ⊢
  split_ifs at hresult hr ⊢ with hlength hproto hroom hexceeded hfirst hecho
  · subst hr
    simp [Reply.ret, Reply.shown, Reply.flagsEcho, Ret.print, hfirst]
  · subst hr
    simp [Reply.ret, Reply.shown, Reply.flagsEcho, Ret.print, hfirst]
  · subst hr
    simp [Reply.ret, Reply.shown, Reply.flagsEcho, Ret.print]
  · subst hr
    simp [Reply.ret, Reply.shown, Reply.flagsEcho, Ret.print]

theorem examine_noise {d : Datagram} (hnoise : ¬ d.Accepted c) :
    examine c s d = ({ s with recvbuf := receive s.recvbuf d }, none) := by
  have hresult := examine_result c s d
  rw [if_neg hnoise] at hresult
  unfold examine at hresult ⊢
  dsimp only at hresult ⊢
  split_ifs at hresult ⊢ <;> rfl

structure Printing (c : Setup) (net : Network) (s : Trace) : Prop where
  hops : 1 ≤ s.hopsTime
  waits : forall k, s.pc = .recvfrom k ->
    k < looptime ∧ s.done = false ∧ s.gotalarm = false
  tries : forall k, s.pc = .attempt k -> k ≤ looptime
  runs : s.pc ≠ .exited
  prints : s.printed ++ s.remaining net c.hopsMax.toNat = transcript net c.hopsMax.toNat 1

/-- The steps that are left, noise not counted. -/
def Trace.left (total : Nat) (s : Trace) : Nat :=
  match s.pc with
  | .hop => if s.done = true then 1 else 8 * (total + 1 - s.hopsTime) + 1
  | .attempt k => 8 * (total - s.hopsTime) + 2 * (looptime - k) + 2
  | .recvfrom k => 8 * (total - s.hopsTime) + 2 * (looptime - k) + 1
  | .finished => 0
  | .exited => 0

theorem printing_initial : Printing c net {} where
  hops := Nat.le_refl 1
  waits := nofun
  tries := nofun
  runs := nofun
  prints := rfl

theorem hops_iff (hhops : 1 ≤ s.hopsTime) :
    (s.hopsTime : Int) < c.hopsMax + 1 <-> s.hopsTime ≤ c.hopsMax.toNat := by
  lia

theorem hop_printing (h : Printing c net s) (hpc : s.pc = .hop)
    (hstep : step c s .go = some s') :
    Printing c net s' ∧ s'.left c.hopsMax.toNat < s.left c.hopsMax.toNat := by
  have hprints := h.prints
  simp only [Trace.remaining, hpc] at hprints
  simp only [step, hpc] at hstep
  split_ifs at hstep with hgoes
  · rcases hgoes with ⟨hless, hdone⟩
    have hle := (hops_iff h.hops).mp hless
    cases hstep
    rw [if_neg (by rw [hdone]; exact Bool.false_ne_true), transcript_succ net hle] at hprints
    refine ⟨⟨h.hops, nofun, ?_, nofun, ?_⟩, ?_⟩
    · intro k hk
      cases hk
      exact Nat.zero_le _
    · simp only [Trace.remaining, hdone, Bool.false_eq_true, if_false, List.append_assoc,
        List.singleton_append]
      exact hprints
    · simp only [Trace.left, hpc, hdone, Bool.false_eq_true, if_false, looptime]
      lia
  · cases hstep
    refine ⟨⟨h.hops, nofun, nofun, nofun, ?_⟩, ?_⟩
    · simp only [Trace.remaining]
      split_ifs at hprints with hdone
      · exact hprints
      · have hover : c.hopsMax.toNat + 1 - s.hopsTime = 0 := by
          rw [hops_iff h.hops] at hgoes
          have hnot : ¬ s.hopsTime ≤ c.hopsMax.toNat :=
            fun hle => hgoes ⟨hle, Bool.eq_false_iff.mpr hdone⟩
          lia
        rw [hover] at hprints
        exact hprints
    · simp only [Trace.left, hpc]
      split <;> lia

theorem attempt_printing (h : Printing c net s) {k : Nat} (hpc : s.pc = .attempt k)
    (hstep : step c s .go = some s') :
    Printing c net s' ∧ s'.left c.hopsMax.toNat < s.left c.hopsMax.toNat := by
  have hprints := h.prints
  simp only [Trace.remaining, hpc] at hprints
  simp only [step, hpc] at hstep
  split_ifs at hstep with hgoes
  · rcases hgoes with ⟨hk, hdone⟩
    rw [if_neg (by rw [hdone]; exact Bool.false_ne_true)] at hprints
    cases hstep
    simp only [probe, recvTest, Bool.false_eq_true, if_false]
    refine ⟨⟨h.hops, ?_, nofun, nofun, ?_⟩, ?_⟩
    · intro k' hk'
      cases hk'
      exact ⟨hk, hdone, rfl⟩
    · simp only [Trace.remaining]
      exact hprints
    · simp only [Trace.left, hpc]
      lia
  · cases hstep
    refine ⟨⟨Nat.le_succ_of_le h.hops, nofun, nofun, nofun, ?_⟩, ?_⟩
    · simp only [Trace.remaining, List.append_assoc, List.singleton_append]
      split_ifs at hprints ⊢ with hdone
      · exact hprints
      · have hlast : k = looptime := by
          have hle := h.tries k hpc
          have hnot : ¬ k < looptime :=
            fun hlt => hgoes ⟨hlt, Bool.eq_false_iff.mpr hdone⟩
          lia
        rw [hlast, rest_nil] at hprints
        rw [show c.hopsMax.toNat + 1 - (s.hopsTime + 1) = c.hopsMax.toNat - s.hopsTime by lia]
        exact hprints
    · simp only [Trace.left, hpc]
      split <;> lia

theorem returned_printing (h : Printing c net s) {k : Nat} (hpc : s.pc = .recvfrom k)
    {t : Trace} {r : Reply} (hr : net s.hopsTime k = r) (hhop : t.hopsTime = s.hopsTime)
    (hdone : t.done = s.done)
    (hshown : t.printed ++ r.ret.print = s.printed ++ r.shown s.flagsEcho)
    (hflags : t.flagsEcho = r.flagsEcho s.flagsEcho) (d : Option Datagram) :
    Printing c net (returned t k r.ret d) ∧
      (returned t k r.ret d).left c.hopsMax.toNat < s.left c.hopsMax.toNat := by
  rcases h.waits k hpc with ⟨hk, hnot, _⟩
  have hprints := h.prints
  simp only [Trace.remaining, hpc, rest_cons net _ _ _ hk, hr] at hprints
  rw [← List.append_assoc, ← hshown] at hprints
  refine ⟨⟨?_, nofun, ?_, nofun, ?_⟩, ?_⟩
  · rw [returned, hhop]
    exact h.hops
  · intro k' hk'
    cases hk'
    exact hk
  · rw [← hprints]
    simp only [Trace.remaining, returned, hdone, hnot, Bool.false_or, beq_iff_eq, hhop, hflags]
  · simp only [Trace.left, returned, hpc, hhop]
    lia

theorem noise_printing (h : Printing c net s) {k : Nat} (hpc : s.pc = .recvfrom k)
    (buf : Nat -> UInt8) :
    Printing c net (recvTest { s with recvbuf := buf } k) ∧
      (recvTest { s with recvbuf := buf } k).left c.hopsMax.toNat ≤ s.left c.hopsMax.toNat := by
  rcases h.waits k hpc with ⟨hk, hnot, halarm⟩
  have hprints := h.prints
  simp only [Trace.remaining, hpc] at hprints
  simp only [recvTest, halarm, Bool.false_eq_true, if_false]
  refine ⟨⟨h.hops, ?_, nofun, nofun, ?_⟩, ?_⟩
  · intro k' hk'
    cases hk'
    exact ⟨hk, hnot, rfl⟩
  · simp only [Trace.remaining]
    exact hprints
  · simp only [Trace.left, hpc]
    exact Nat.le_refl _

theorem printing_step (h : Printing c net s) (hok : Answers c net s a)
    (hstep : (traceloop c).step s a = some s') :
    Printing c net s' ∧
      s'.left c.hopsMax.toNat + (!a.noise c).toNat ≤ s.left c.hopsMax.toNat := by
  change step c s a = some s' at hstep
  cases a with
  | go =>
      cases hpc : s.pc with
      | hop => exact hop_printing h hpc hstep
      | attempt k => exact attempt_printing h hpc hstep
      | recvfrom k => simp [step, hpc] at hstep
      | finished => simp [step, hpc] at hstep
      | exited => simp [step, hpc] at hstep
  | event e =>
      cases hpc : s.pc with
      | recvfrom k =>
          cases e with
          | datagram d =>
              simp only [step, hpc] at hstep
              simp only [Answers, hpc, Pc.curtime] at hok
              by_cases haccepted : d.Accepted c
              · rcases examine_reply haccepted (hok haccepted) with ⟨hret, hshown, hflags⟩
                have hkeeps := examine_keeps c s d
                rcases hexamine : examine c s d with ⟨t, result⟩
                rw [hexamine] at hstep hret hshown hflags hkeeps
                dsimp only at hret
                subst hret
                cases hstep
                have hcounts : Action.noise c (.event (.datagram d)) = false :=
                  decide_eq_false (not_not.mpr haccepted)
                rw [hcounts]
                exact returned_printing h hpc rfl hkeeps.hopsTime hkeeps.done hshown hflags _
              · rw [examine_noise haccepted] at hstep
                cases hstep
                have hnoise : Action.noise c (.event (.datagram d)) = true :=
                  decide_eq_true haccepted
                rw [hnoise]
                exact noise_printing h hpc _
          | alarm =>
              simp only [step, hpc, recvTest, if_true] at hstep
              cases hstep
              simp only [Answers, hpc, Pc.curtime] at hok
              exact returned_printing (t := { s with pc := .recvfrom k, gotalarm := true })
                h hpc hok rfl rfl rfl rfl none
          | lateAlarm => cases hok
          | interrupted =>
              simp only [step, hpc] at hstep
              cases hstep
              exact noise_printing h hpc s.recvbuf
          | failed => cases hok
      | hop => simp [step, hpc] at hstep
      | attempt k => simp [step, hpc] at hstep
      | finished => simp [step, hpc] at hstep
      | exited => simp [step, hpc] at hstep

end Steps

/-!
## Results
-/

section Results

variable {c : Setup} {net : Network} {s : Trace} {schedule : List Action}

def replyDatagram (c : Setup) (src : Addr) (kind : UInt8) : Datagram where
  bytes := [0x45, 0, 255, 255, 0, 0, 0, 0, 64, c.icmpproto, 0, 0, src.bytes.1, src.bytes.2.1,
    src.bytes.2.2.1, src.bytes.2.2.2, 0, 0, 0, 0, kind]
  nonempty := List.cons_ne_nil _ _

theorem replyDatagram_accepted (c : Setup) (src : Addr) (kind : UInt8) :
    (replyDatagram c src kind).Accepted c := by
  refine ⟨show 20 ≤ 21 by decide, rfl, ?_⟩
  have hword : wordAt c.order (replyDatagram c src kind).bytes 2 =
      some (c.order.word 255 255) := rfl
  rw [hword]
  cases c.order <;> decide

theorem exists_reply (c : Setup) {r : Reply} (hr : r ≠ .silent) :
    exists d : Datagram, d.Accepted c ∧ d.reply = some r := by
  cases r with
  | silent => exact absurd rfl hr
  | exceeded a => exact ⟨_, replyDatagram_accepted c a icmpTimeExceeded, rfl⟩
  | echo a => exact ⟨_, replyDatagram_accepted c a icmpEchoReply, rfl⟩
  | other => exact ⟨_, replyDatagram_accepted c ⟨(0, 0, 0, 0)⟩ 3, rfl⟩

theorem Printing.exists_step (h : Printing c net s) (hrunning : s.pc ≠ .finished) :
    exists a s', a.noise c = false ∧ Answers c net s a ∧ (traceloop c).step s a = some s' := by
  cases hpc : s.pc with
  | hop =>
      refine ⟨.go, ?_⟩
      change exists s', _ ∧ _ ∧ step c s .go = some s'
      simp only [step, hpc]
      split
      · exact ⟨_, rfl, trivial, rfl⟩
      · exact ⟨_, rfl, trivial, rfl⟩
  | attempt k =>
      refine ⟨.go, ?_⟩
      change exists s', _ ∧ _ ∧ step c s .go = some s'
      simp only [step, hpc]
      split
      · exact ⟨_, rfl, trivial, rfl⟩
      · exact ⟨_, rfl, trivial, rfl⟩
  | recvfrom k =>
      by_cases hsilent : net s.hopsTime k = .silent
      · refine ⟨.event .alarm, recvTest { s with gotalarm := true } k, rfl, ?_, ?_⟩
        · simp only [Answers, hpc, Pc.curtime]
          exact hsilent
        · simp only [traceloop, step, hpc]
      · rcases exists_reply c hsilent with ⟨d, haccepted, hreply⟩
        refine ⟨.event (.datagram d), ?_⟩
        have hresult := examine_result c s d
        rw [if_pos haccepted] at hresult
        rcases hexamine : examine c s d with ⟨t, result⟩
        rw [hexamine] at hresult
        dsimp only at hresult
        subst hresult
        refine ⟨returned t k (resultOf (kindSeen s d)) (some d), ?_, ?_, ?_⟩
        · exact decide_eq_false (not_not.mpr haccepted)
        · intro _
          rw [hpc]
          exact hreply
        · simp only [traceloop, step, hpc, hexamine]
  | finished => exact absurd hpc hrunning
  | exited => exact absurd hpc h.runs

theorem Printing.finished (h : Printing c net s) (hpc : s.pc = .finished) :
    s.printed = transcript net c.hopsMax.toNat 1 := by
  have hprints := h.prints
  simp only [Trace.remaining, hpc, List.append_nil] at hprints
  exact hprints

theorem printing_run (hrun : (traceloop c).RunUnder (Answers c net) {} schedule s) :
    Printing c net s :=
  hrun.invariant (Printing c net) (fun h hok hstep => (printing_step h hok hstep).1)
    printing_initial

/-- Whatever the network answers, as long as `SIGALRM` comes only while `recvfrom` waits:
a trace never prints anything but a beginning of the transcript of the answers, it has
printed all of it where it ends, it does so after at most eight steps a hop, noise not
counted, and it never gets stuck before. -/
theorem traceloop_prints (hrun : (traceloop c).RunUnder (Answers c net) {} schedule s) :
    s.printed <+: transcript net c.hopsMax.toNat 1 ∧
      (s.pc = .finished -> s.printed = transcript net c.hopsMax.toNat 1) ∧
      (schedule.map (fun a => (!a.noise c).toNat)).sum ≤ 8 * c.hopsMax.toNat + 1 ∧
      (s.pc ≠ .finished -> exists a s', a.noise c = false ∧ Answers c net s a ∧
        (traceloop c).step s a = some s') := by
  have h := printing_run hrun
  have hcost := hrun.cost_le (Trace.left c.hopsMax.toNat)
    (fun a : Action => (!a.noise c).toNat)
    (fun h hok hstep => printing_step h hok hstep) (@printing_initial c net)
  refine ⟨⟨_, h.prints⟩, h.finished, ?_, h.exists_step⟩
  change _ + _ ≤ 8 * (c.hopsMax.toNat + 1 - 1) + 1 at hcost
  lia

/-- Host 254 answers the first hop after some noise, and host 1 the second. -/
def twoHops : Network := fun hop _ =>
  if hop = 1 then .exceeded ⟨(10, 0, 0, 254)⟩ else .echo ⟨(10, 0, 0, 1)⟩

theorem traceloop_prints_two :
    exists s, (traceloop traceToOne).RunUnder (Answers traceToOne twoHops) {}
        [.go, .go, .event .interrupted, .event (.datagram (timeExceeded 7 1)), .go] s ∧
      s.printed = [.hop 1, .router ⟨(10, 0, 0, 254)⟩, .rtt] ∧
      s.printed <+: transcript twoHops 15 1 ∧ s.pc ≠ .finished := by
  have hexec : (System.execUnder (traceloop traceToOne) (Answers traceToOne twoHops) {}
      [.go, .go, .event .interrupted, .event (.datagram (timeExceeded 7 1)), .go]).any
      (fun s => decide (s.printed = [.hop 1, .router ⟨(10, 0, 0, 254)⟩, .rtt] ∧
        s.pc ≠ .finished)) = true := by decide
  rcases Option.any_eq_true_iff_get _ _ |>.mp hexec with ⟨hsome, hshown⟩
  have hrun := System.runUnder_of_execUnder (Option.some_get hsome).symm
  rcases of_decide_eq_true hshown with ⟨hprinted, hpc⟩
  exact ⟨_, hrun, hprinted, (traceloop_prints hrun).1, hpc⟩

/-!
## Routes
-/

/-- How far away the destination is, and the routers before it that answer. -/
structure Route where
  distance : Nat
  router : Nat -> Option Addr

def Route.answer (route : Route) (p : Probe) : Reply :=
  if p.ipTtl.toNat < route.distance then
    match route.router p.ipTtl.toNat with
    | some a => .exceeded a
    | none => .silent
  else .echo p.ipDst

/-- What can happen on a route: the probe that was sent last is answered. -/
def Route.Delivers (route : Route) (c : Setup) (s : Trace) : Action -> Prop :=
  Answers c (fun _ _ => s.sent.getLast?.elim .silent route.answer) s

/-- The answers to the probes of `send_v4`. -/
def Route.network (route : Route) (c : Setup) : Network := fun hop _ =>
  route.answer (sendV4 c hop)

def Route.line (route : Route) (dst : Addr) (hop : Nat) : List Print :=
  if hop < route.distance then
    match route.router hop with
    | some a => [.hop hop, .router a, .rtt, .rtt, .rtt, .newline]
    | none => [.hop hop, .star, .star, .star, .newline]
  else [.hop hop, .destination dst, .arrives, .newline]

theorem network_eq (route : Route) {hop : Nat} (hbyte : hop < 256) (k : Nat) :
    route.network c hop k = if hop < route.distance then
        match route.router hop with
        | some a => .exceeded a
        | none => .silent
      else .echo c.sasend := by
  have httl : (sendV4 c hop).ipTtl.toNat = hop := by
    rw [show (sendV4 c hop).ipTtl = UInt8.ofNat hop from rfl, UInt8.toNat_ofNat']
    exact Nat.mod_eq_of_lt hbyte
  rw [Route.network, Route.answer, httl]
  rfl

theorem transcript_route (route : Route) (left : Nat) : forall {hop : Nat},
    hop ≤ route.distance -> min route.distance (hop + left - 1) < 256 ->
    transcript (route.network c) left hop =
      (List.range' hop (min (route.distance + 1 - hop) left)).flatMap (route.line c.sasend) := by
  induction left with
  | zero =>
      intro hop _ _
      rw [Nat.min_zero]
      rfl
  | succ left ih =>
      intro hop hle hbyte
      have hanswer := @network_eq c route hop (by lia)
      have hthree : (route.network c).from hop 0 =
          [route.network c hop 0, route.network c hop 1, route.network c hop 2] := rfl
      rw [transcript, hthree]
      by_cases hfar : hop < route.distance
      · have hcount : min (route.distance + 1 - hop) (left + 1) =
            min (route.distance + 1 - (hop + 1)) left + 1 := by lia
        have hrest := @ih (hop + 1) hfar (by lia)
        rw [hcount, List.range'_succ, List.flatMap_cons, ← hrest]
        cases hrouter : route.router hop with
        | some a =>
            simp [hanswer, Route.line, hfar, hrouter, line, arrives, Reply.ret, Reply.shown,
              Reply.flagsEcho]
        | none =>
            simp [hanswer, Route.line, hfar, hrouter, line, arrives, Reply.ret, Reply.shown]
      · have hcount : min (route.distance + 1 - hop) (left + 1) = 1 := by lia
        rw [hcount]
        simp [hanswer, Route.line, hfar, line, arrives, Reply.ret, Reply.shown]

def Route.lines (route : Route) (dst : Addr) (total : Nat) : List Print :=
  (List.range' 1 (min route.distance total)).flatMap (route.line dst)

theorem arrives_mem_lines (route : Route) (dst : Addr) (total : Nat)
    (hdistance : 1 ≤ route.distance) :
    Print.arrives ∈ route.lines dst total <-> route.distance ≤ total := by
  rw [Route.lines, List.mem_flatMap]
  constructor
  · intro hmem
    rcases hmem with ⟨hop, hrange, hline⟩
    rw [List.mem_range'_1] at hrange
    unfold Route.line at hline
    split at hline
    · split at hline <;> simp at hline
    · lia
  · intro htotal
    refine ⟨route.distance, ?_, ?_⟩
    · rw [List.mem_range'_1]
      lia
    · simp [Route.line]

/-- The probe that waits for its answer is the one sent last. -/
def Probing (c : Setup) (s : Trace) : Prop :=
  forall k, s.pc = .recvfrom k -> s.sent.getLast? = some (sendV4 c s.hopsTime)

theorem probing_step {s' : Trace} {a : Action} (h : Probing c s)
    (hstep : (traceloop c).step s a = some s') : Probing c s' := by
  intro k hpc
  cases moves_of_step hstep with
  | goes _ hsent _ _ hwaits =>
      rcases hwaits k hpc with ⟨hhop, k', hpc'⟩
      rw [hsent, hhop]
      exact h k' hpc'
  | sends _ hsent _ _ hhop =>
      rw [hsent, hhop]
      exact List.getLast?_concat
  | gives _ _ _ _ _ hreturned => exact (hreturned k hpc).elim
  | returns _ _ _ _ _ _ hreturned => exact (hreturned k hpc).elim

theorem waits_of_event {s' : Trace} {e : Event} (hstep : step c s (.event e) = some s') :
    exists k, s.pc = .recvfrom k := by
  cases hpc : s.pc with
  | recvfrom k => exact ⟨k, rfl⟩
  | hop => simp [step, hpc] at hstep
  | attempt k => simp [step, hpc] at hstep
  | finished => simp [step, hpc] at hstep
  | exited => simp [step, hpc] at hstep

/-- What is answered is the probe of the attempt. -/
theorem delivers_iff {route : Route} {s' : Trace} {a : Action} (h : Probing c s)
    (hstep : (traceloop c).step s a = some s') :
    route.Delivers c s a <-> Answers c (route.network c) s a := by
  cases a with
  | go => exact Iff.rfl
  | event e =>
      rcases waits_of_event hstep with ⟨k, hpc⟩
      cases e with
      | datagram _ | alarm =>
          simp only [Route.Delivers, Answers, h k hpc]
          exact Iff.rfl
      | lateAlarm | interrupted | failed => exact Iff.rfl

theorem probing_run {ok : Trace -> Action -> Prop}
    (hrun : (traceloop c).RunUnder ok {} schedule s) : Probing c s :=
  hrun.invariant (Probing c) (fun h _ hstep => probing_step h hstep) (fun _ hpc => nomatch hpc)

/-- On a network that delivers every answer, the trace prints the routers on the way in
their order, each with its own hop, stars for those that do not answer, and the
destination exactly if it is within `hops_max`; and it can always be carried to its
end.  The probes have to keep within the byte of the time to live. -/
theorem traceloop_shows_route {route : Route} (hdistance : 1 ≤ route.distance)
    (hbyte : min route.distance c.hopsMax.toNat < 256)
    (hrun : (traceloop c).RunUnder (route.Delivers c) {} schedule s) :
    s.printed <+: route.lines c.sasend c.hopsMax.toNat ∧
      (s.pc = .finished -> s.printed = route.lines c.sasend c.hopsMax.toNat ∧
        (Print.arrives ∈ s.printed <-> route.distance ≤ c.hopsMax.toNat)) ∧
      exists rest u, (traceloop c).RunUnder (route.Delivers c) s rest u ∧
        u.pc = .finished := by
  have hprobing := probing_run hrun
  have h := printing_run (hrun.weaken_of probing_step
    (fun hprobing hstep => (delivers_iff hprobing hstep).mp) (fun _ hpc => nomatch hpc))
  have htranscript : transcript (route.network c) c.hopsMax.toNat 1 =
      route.lines c.sasend c.hopsMax.toNat :=
    transcript_route route c.hopsMax.toNat hdistance
      (by rw [Nat.add_sub_cancel_left]; exact hbyte)
  refine ⟨?_, ?_, ?_⟩
  · rw [← htranscript]
    exact ⟨_, h.prints⟩
  · intro hpc
    have hprinted := (h.finished hpc).trans htranscript
    refine ⟨hprinted, ?_⟩
    rw [hprinted]
    exact arrives_mem_lines route c.sasend c.hopsMax.toNat hdistance
  · have hends : exists rest u,
        (traceloop c).RunUnder (Answers c (route.network c)) s rest u ∧ u.pc = .finished := by
      refine System.exists_run_until (Trace.left c.hopsMax.toNat) ?_ h
      intro s hs hrunning
      rcases hs.exists_step hrunning with ⟨a, t, hnoise, hok, hstep⟩
      rcases printing_step hs hok hstep with ⟨ht, hless⟩
      rw [hnoise] at hless
      exact ⟨a, t, hok, hstep, ht, hless⟩
    rcases hends with ⟨rest, u, hrest, hpc⟩
    exact ⟨rest, u, hrest.weaken_of probing_step
      (fun hprobing hstep => (delivers_iff hprobing hstep).mpr) hprobing, hpc⟩

/-- The destination is behind one router. -/
theorem traceloop_shows_route_two :
    exists schedule s, (traceloop traceToOne).RunUnder
        (Route.Delivers ⟨2, fun _ => some ⟨(10, 0, 0, 254)⟩⟩ traceToOne) {} schedule s ∧
      s.printed = [.hop 1, .router ⟨(10, 0, 0, 254)⟩, .rtt, .rtt, .rtt, .newline,
        .hop 2, .destination ⟨(10, 0, 0, 1)⟩, .arrives, .newline] := by
  have hstart : (traceloop traceToOne).RunUnder
      (Route.Delivers ⟨2, fun _ => some ⟨(10, 0, 0, 254)⟩⟩ traceToOne) {} [] {} :=
    System.RunUnder.nil _
  rcases traceloop_shows_route (by decide) (by decide) hstart with ⟨_, _, schedule, s, hrun, hpc⟩
  rcases traceloop_shows_route (by decide) (by decide) hrun with ⟨_, hend, _⟩
  refine ⟨schedule, s, hrun, (hend hpc).1.trans ?_⟩
  decide

end Results

end Traceroute
end PracticeHand
