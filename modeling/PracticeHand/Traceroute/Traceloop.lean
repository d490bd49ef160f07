import PracticeHand.Concurrency.Runs
import PracticeHand.Streams.Source
import PracticeHand.Traceroute.Packets

/-!
# The loops of traceroute

`traceloop` sends up to three probes for each hop and waits for a reply to each
in `recv_v4`.  The raw socket delivers every ICMP datagram that reaches the host,
and `recv_v4` takes the first one that passes its tests on the IP header for the
reply.  A trace attributes its replies rightly exactly when these datagrams are
answers to its own probes of the current hop.
-/

namespace PracticeHand
namespace Traceroute

open Concurrency
open Streams

/-!
## State
-/

inductive Ret where
  | answered
  | arrived
  | nothing
  deriving DecidableEq

/-- One return of `recv_v4`: the hop, the result, and the datagram it returned on. -/
structure Entry where
  hop : Nat
  ret : Ret
  datagram : Option Datagram
  deriving DecidableEq

/-- Where the run stands: at the test of the outer loop, at the test of the inner
loop, in `recvfrom`, or at the end of `traceloop` or of the process. -/
inductive Pc where
  | hop
  | attempt (curtime : Nat)
  | recvfrom (curtime : Nat)
  | finished
  | exited
  deriving DecidableEq

/-- What `traceloop` prints; times are left out. -/
inductive Print where
  | hop (h : Nat)
  | router (a : Addr)
  | destination (a : Addr)
  | arrives
  | rtt
  | star
  | newline
  deriving DecidableEq

/-- The fields of `status`, the locals of `traceloop`, and what has happened. -/
structure Trace where
  pc : Pc := .hop
  hopsTime : Nat := 1
  done : Bool := false
  gotalarm : Bool := false
  flagsEcho : Bool := false
  recvbuf : Nat -> UInt8 := fun _ => 0
  -- `sin_addr` of `gs_pr->sarecv`, which is allocated and not set
  sarecv : Option Addr := none
  printed : List Print := []
  sent : List Probe := []
  log : List Entry := []

inductive Event where
  | datagram (d : Datagram)
  | alarm
  -- SIGALRM came between the test of `gotalarm` and the call
  | lateAlarm
  | interrupted
  | failed

inductive Action where
  | go
  | event (e : Event)

/-!
## Code
-/

/-- `recvfrom` into the buffer.  The bytes behind a short datagram stay. -/
def receive (buf : Nat -> UInt8) (d : Datagram) : Nat -> UInt8 :=
  write buf 0 (d.bytes.take bufsize)

/-- The statements of `recv_v4` after `recvfrom`: the result, or none where the loop
goes on. -/
def examine (c : Setup) (s : Trace) (d : Datagram) : Trace × Option Ret :=
  let buf := receive s.recvbuf d
  let s := { s with recvbuf := buf }
  if (d.bytes.take bufsize).length < sizeofIp then (s, none)
  else if c.icmpproto ≠ buf 9 then (s, none)
  else if (c.order.word (buf 2) (buf 3)).toNat < sizeofIp + sizeofIcmp then (s, none)
  else if icmpTimeExceeded = buf sizeofIp then
    if s.flagsEcho = false then
      ({ s with
          sarecv := some (addrIn buf 12)
          flagsEcho := true
          printed := s.printed ++ [.router (addrIn buf 12)] }, some .answered)
    else (s, some .answered)
  else if icmpEchoReply = buf sizeofIp then
    ({ s with
        sarecv := some (addrIn buf 12)
        flagsEcho := true
        printed := s.printed ++ [.destination (addrIn buf 12)] }, some .arrived)
  else (s, some .nothing)

def Ret.print : Ret -> List Print
  | .nothing => [.star]
  | .answered => [.rtt]
  | .arrived => [.arrives]

/-- `traceloop` after `frecv` has returned, up to the next test of the inner loop. -/
def returned (s : Trace) (curtime : Nat) (ret : Ret) (d : Option Datagram) : Trace :=
  { s with
    pc := .attempt (curtime + 1)
    done := s.done || ret == .arrived
    printed := s.printed ++ ret.print
    log := s.log ++ [{ hop := s.hopsTime, ret := ret, datagram := d }] }

/-- The test of `gotalarm` at the head of the loop of `recv_v4`. -/
def recvTest (s : Trace) (curtime : Nat) : Trace :=
  if s.gotalarm = true then returned s curtime .nothing none
  else { s with pc := .recvfrom curtime }

/-- `memset(statu->recvbuf, 0, sizeof(statu->buflen))` clears four bytes. -/
def clearBuf (buf : Nat -> UInt8) : Nat -> UInt8 :=
  write buf 0 [0, 0, 0, 0]

def probe (c : Setup) (s : Trace) (curtime : Nat) : Trace :=
  recvTest { s with
    sent := s.sent ++ [sendV4 c s.hopsTime]
    recvbuf := clearBuf s.recvbuf
    gotalarm := false } curtime

def looptime : Nat := 3

def step (c : Setup) (s : Trace) (a : Action) : Option Trace :=
  match s.pc, a with
  | .hop, .go =>
      if (s.hopsTime : Int) < c.hopsMax + 1 ∧ s.done = false then
        some { s with
          pc := .attempt 0
          flagsEcho := false
          printed := s.printed ++ [.hop s.hopsTime] }
      else some { s with pc := .finished }
  | .attempt curtime, .go =>
      if curtime < looptime ∧ s.done = false then some (probe c s curtime)
      else some { s with
        pc := .hop
        hopsTime := s.hopsTime + 1
        printed := s.printed ++ [.newline] }
  | .recvfrom curtime, .event (.datagram d) =>
      match examine c s d with
      | (s', none) => some (recvTest s' curtime)
      | (s', some ret) => some (returned s' curtime ret (some d))
  | .recvfrom curtime, .event .alarm => some (recvTest { s with gotalarm := true } curtime)
  | .recvfrom _, .event .lateAlarm => some { s with gotalarm := true }
  | .recvfrom curtime, .event .interrupted => some (recvTest s curtime)
  | .recvfrom _, .event .failed => some { s with pc := .exited }
  | _, _ => none

def traceloop (c : Setup) : System Trace Action where
  Init s := s = {}
  step := step c

/-!
## What `recv_v4` returns on
-/

/-- The datagram passes the tests of `recv_v4` on its length and its IP header. -/
def Datagram.Accepted (d : Datagram) (c : Setup) : Prop :=
  sizeofIp ≤ d.bytes.length ∧ d.bytes[9]? = some c.icmpproto ∧
    (wordAt c.order d.bytes 2).any (fun w => sizeofIp + sizeofIcmp ≤ w.toNat) = true

instance (d : Datagram) (c : Setup) : Decidable (d.Accepted c) :=
  inferInstanceAs (Decidable (_ ∧ _ ∧ _))

/-- The byte that `recv_v4` takes for the ICMP type: the byte behind an IP header
without options, or what an earlier datagram has left there. -/
def kindSeen (s : Trace) (d : Datagram) : UInt8 :=
  d.bytes[sizeofIp]?.getD (s.recvbuf sizeofIp)

def resultOf (kind : UInt8) : Ret :=
  if kind = icmpTimeExceeded then .answered
  else if kind = icmpEchoReply then .arrived
  else .nothing

theorem receive_at {k : Nat} (hk : k < bufsize) (buf : Nat -> UInt8) (d : Datagram) :
    receive buf d k = d.bytes[k]?.getD (buf k) := by
  have hat := write_at (d.bytes.take bufsize) buf 0 k
  rw [Nat.zero_add] at hat
  rw [receive, hat, List.getElem?_take_of_lt hk]

theorem receive_header {d : Datagram} (hd : sizeofIp ≤ d.bytes.length) (buf : Nat -> UInt8)
    {k : Nat} (hk : k < sizeofIp) : d.bytes[k]? = some (receive buf d k) := by
  have hin : k < d.bytes.length := Nat.lt_of_lt_of_le hk hd
  rw [receive_at (Nat.lt_trans hk (by decide)), List.getElem?_eq_getElem hin]
  rfl

structure Keeps (s s' : Trace) : Prop where
  pc : s'.pc = s.pc
  hopsTime : s'.hopsTime = s.hopsTime
  done : s'.done = s.done
  sent : s'.sent = s.sent
  log : s'.log = s.log

theorem examine_keeps (c : Setup) (s : Trace) (d : Datagram) :
    Keeps s (examine c s d).1 := by
  unfold examine
  dsimp only
  split_ifs <;> exact ⟨rfl, rfl, rfl, rfl, rfl⟩

theorem examine_result (c : Setup) (s : Trace) (d : Datagram) :
    (examine c s d).2 = if d.Accepted c then some (resultOf (kindSeen s d)) else none := by
  have hsize : (d.bytes.take bufsize).length < sizeofIp <-> d.bytes.length < sizeofIp := by
    rw [List.length_take]
    unfold bufsize sizeofIp
    lia
  have hkind : receive s.recvbuf d sizeofIp = kindSeen s d :=
    receive_at (by decide) s.recvbuf d
  unfold examine
  dsimp only
  by_cases hlen : d.bytes.length < sizeofIp
  · rw [if_pos (hsize.mpr hlen), if_neg (fun h => Nat.not_le.mpr hlen h.1)]
  · rw [if_neg (mt hsize.mp hlen)]
    -- the fields of the IP header are bytes of the datagram itself
    have hbyte : forall k, k < sizeofIp -> d.bytes[k]? = some (receive s.recvbuf d k) :=
      fun k hk => receive_header (Nat.not_lt.mp hlen) s.recvbuf hk
    have hword : wordAt c.order d.bytes 2 =
        some (c.order.word (receive s.recvbuf d 2) (receive s.recvbuf d 3)) := by
      simp [wordAt, hbyte 2 (by decide), hbyte 3 (by decide)]
    have haccepted : d.Accepted c <-> c.icmpproto = receive s.recvbuf d 9 ∧
        sizeofIp + sizeofIcmp ≤
          (c.order.word (receive s.recvbuf d 2) (receive s.recvbuf d 3)).toNat := by
      simp [Datagram.Accepted, hword, hbyte 9 (by decide), Nat.not_lt.mp hlen, eq_comm]
    by_cases hproto : c.icmpproto = receive s.recvbuf d 9
    · rw [if_neg (Classical.not_not.mpr hproto)]
      by_cases hroom : sizeofIp + sizeofIcmp ≤
          (c.order.word (receive s.recvbuf d 2) (receive s.recvbuf d 3)).toNat
      · rw [if_neg (Nat.not_lt.mpr hroom), if_pos (haccepted.mpr ⟨hproto, hroom⟩), hkind]
        unfold resultOf
        simp only [eq_comm]
        split_ifs <;> rfl
      · rw [if_pos (Nat.not_le.mp hroom), if_neg (fun h => hroom (haccepted.mp h).2)]
    · rw [if_pos hproto, if_neg (fun h => hproto (haccepted.mp h).1)]

/-!
## One step of a run
-/

inductive Moves (c : Setup) (s : Trace) (a : Action) (s' : Trace) : Prop where
  /-- A test of a loop, or something that makes `recv_v4` go on waiting. -/
  | goes :
      (forall d, a = .event (.datagram d) -> ¬ d.Accepted c) ->
      s'.sent = s.sent -> s'.log = s.log -> s'.done = s.done ->
      (forall k, s'.pc = .recvfrom k ->
        s'.hopsTime = s.hopsTime ∧ exists k', s.pc = .recvfrom k') ->
      Moves c s a s'
  | sends :
      (forall d, a ≠ .event (.datagram d)) ->
      s'.sent = s.sent ++ [sendV4 c s.hopsTime] -> s'.log = s.log -> s'.done = s.done ->
      s'.hopsTime = s.hopsTime -> Moves c s a s'
  /-- `recv_v4` returns at the test of `gotalarm`. -/
  | gives {k : Nat} :
      (forall d, a = .event (.datagram d) -> ¬ d.Accepted c) ->
      s.pc = .recvfrom k -> s'.sent = s.sent ->
      s'.log = s.log ++ [{ hop := s.hopsTime, ret := .nothing, datagram := none }] ->
      s'.done = s.done -> (forall k, s'.pc ≠ .recvfrom k) -> Moves c s a s'
  | returns {k : Nat} {d : Datagram} :
      a = .event (.datagram d) -> d.Accepted c -> s.pc = .recvfrom k -> s'.sent = s.sent ->
      s'.log = s.log ++
        [{ hop := s.hopsTime, ret := resultOf (kindSeen s d), datagram := some d }] ->
      s'.done = (s.done || resultOf (kindSeen s d) == .arrived) ->
      (forall k, s'.pc ≠ .recvfrom k) -> Moves c s a s'

theorem recvTest_moves {c : Setup} {s s' : Trace} {a : Action} {k : Nat}
    (ha : forall d, a = .event (.datagram d) -> ¬ d.Accepted c)
    (hpc : s.pc = .recvfrom k) (hsent : s'.sent = s.sent) (hlog : s'.log = s.log)
    (hdone : s'.done = s.done) (hhop : s'.hopsTime = s.hopsTime) :
    Moves c s a (recvTest s' k) := by
  unfold recvTest
  split
  · refine .gives ha hpc hsent ?_ ?_ (fun _ h => nomatch h)
    · simp [returned, hlog, hhop]
    · simp [returned, hdone]
  · exact .goes ha hsent hlog hdone (fun _ _ => ⟨hhop, k, hpc⟩)

theorem moves_of_step {c : Setup} {s s' : Trace} {a : Action}
    (h : step c s a = some s') : Moves c s a s' := by
  have hgo : forall d, Action.go = .event (.datagram d) -> ¬ d.Accepted c :=
    fun d hd => nomatch hd
  unfold step at h
  split at h
  · split at h
    · cases h
      exact .goes hgo rfl rfl rfl (fun _ hpc => nomatch hpc)
    · cases h
      exact .goes hgo rfl rfl rfl (fun _ hpc => nomatch hpc)
  · split at h
    · cases h
      exact .sends (fun d hd => nomatch hd) rfl rfl rfl rfl
    · cases h
      exact .goes hgo rfl rfl rfl (fun _ hpc => nomatch hpc)
  · rename_i k d hpc
    have hkeeps := examine_keeps c s d
    have hresult := examine_result c s d
    split at h
    · rename_i s1 hexamine
      cases h
      rw [hexamine] at hkeeps hresult
      refine recvTest_moves ?_ hpc hkeeps.sent hkeeps.log hkeeps.done hkeeps.hopsTime
      intro d' hd'
      cases hd'
      intro haccepted
      rw [if_pos haccepted] at hresult
      cases hresult
    · rename_i s1 ret hexamine
      cases h
      rw [hexamine] at hkeeps hresult
      change Keeps s s1 at hkeeps
      by_cases haccepted : d.Accepted c
      · rw [if_pos haccepted] at hresult
        cases hresult
        refine .returns rfl haccepted hpc hkeeps.sent ?_ ?_ (fun _ h => nomatch h)
        · simp [returned, hkeeps.log, hkeeps.hopsTime]
        · simp [returned, hkeeps.done]
      · rw [if_neg haccepted] at hresult
        cases hresult
  · rename_i k hpc
    cases h
    exact recvTest_moves (fun d hd => nomatch hd) hpc rfl rfl rfl rfl
  · rename_i k hpc
    cases h
    exact .goes (fun d hd => nomatch hd) rfl rfl rfl (fun _ _ => ⟨rfl, k, hpc⟩)
  · rename_i k hpc
    cases h
    exact recvTest_moves (fun d hd => nomatch hd) hpc rfl rfl rfl rfl
  · cases h
    exact .goes (fun d hd => nomatch hd) rfl rfl rfl (fun _ hpc => nomatch hpc)
  · cases h

/-!
## Attribution
-/

/-- The result answers a probe of this process: an arrival is an echo reply with our
identifier from the destination, and a hop is answered by a message that quotes a
probe which we have sent with the number of the hop. -/
def Entry.Attributed (c : Setup) (sent : List Probe) (e : Entry) : Prop :=
  match e.ret, e.datagram with
  | .nothing, _ => True
  | .arrived, some d => d.EchoReply c c.pid c.sasend
  | .answered, some d =>
      exists p, p ∈ sent ∧ p.icmpSeq = UInt16.ofNat e.hop ∧ d.Exceeded c p
  | _, none => False

instance (c : Setup) (sent : List Probe) (e : Entry) : Decidable (e.Attributed c sent) :=
  match e with
  | ⟨_, .nothing, _⟩ => inferInstanceAs (Decidable True)
  | ⟨_, .arrived, some d⟩ => inferInstanceAs (Decidable (d.EchoReply c c.pid c.sasend))
  | ⟨hop, .answered, some d⟩ =>
      inferInstanceAs (Decidable
        (exists p, p ∈ sent ∧ p.icmpSeq = UInt16.ofNat hop ∧ d.Exceeded c p))
  | ⟨_, .arrived, none⟩ => inferInstanceAs (Decidable False)
  | ⟨_, .answered, none⟩ => inferInstanceAs (Decidable False)

/-- A datagram that `recv_v4` accepts and takes for a reply is one. -/
def Genuine (c : Setup) (s : Trace) : Action -> Prop
  | .event (.datagram d) => d.Accepted c ->
      (kindSeen s d = icmpTimeExceeded ->
        exists p, p ∈ s.sent ∧ p.icmpSeq = UInt16.ofNat s.hopsTime ∧ d.Exceeded c p) ∧
      (kindSeen s d = icmpEchoReply -> d.EchoReply c c.pid c.sasend)
  | _ => True

structure TraceInv (c : Setup) (s : Trace) : Prop where
  own : forall p, p ∈ s.sent -> exists h, p = sendV4 c h
  logged : forall e, e ∈ s.log -> sendV4 c e.hop ∈ s.sent
  waiting : forall k, s.pc = .recvfrom k -> sendV4 c s.hopsTime ∈ s.sent
  done : s.done = true <-> exists e, e ∈ s.log ∧ e.ret = .arrived

theorem traceInv_initial (c : Setup) : TraceInv c {} where
  own := by
    intro p hp
    cases hp
  logged := by
    intro e he
    cases he
  waiting := by
    intro k hk
    cases hk
  done := by simp

theorem TraceInv.append {c : Setup} {s s' : Trace} {k : Nat} {ret : Ret}
    {d : Option Datagram} (h : TraceInv c s) (hpc : s.pc = .recvfrom k)
    (hsent : s'.sent = s.sent)
    (hlog : s'.log = s.log ++ [{ hop := s.hopsTime, ret := ret, datagram := d }])
    (hdone : s'.done = (s.done || ret == .arrived))
    (hpc' : forall k, s'.pc ≠ .recvfrom k) : TraceInv c s' := by
  constructor
  · rw [hsent]
    exact h.own
  · intro e he
    rw [hsent]
    rw [hlog] at he
    rcases List.mem_append.mp he with he | he
    · exact h.logged e he
    · rw [List.mem_singleton.mp he]
      exact h.waiting k hpc
  · intro j hj
    exact (hpc' j hj).elim
  · rw [hdone, hlog, Bool.or_eq_true, h.done]
    simp only [List.mem_append, List.mem_singleton, beq_iff_eq]
    constructor
    · intro hcases
      rcases hcases with ⟨e, he, hret⟩ | hret
      · exact ⟨e, Or.inl he, hret⟩
      · exact ⟨_, Or.inr rfl, hret⟩
    · intro hparts
      rcases hparts with ⟨e, he | rfl, hret⟩
      · exact Or.inl ⟨e, he, hret⟩
      · exact Or.inr hret

theorem traceInv_step {c : Setup} {s s' : Trace} {a : Action} (h : TraceInv c s)
    (hstep : step c s a = some s') : TraceInv c s' := by
  cases moves_of_step hstep with
  | goes _ hsent hlog hdone hpc =>
      refine ⟨by rw [hsent]; exact h.own, by rw [hsent, hlog]; exact h.logged, ?_,
        by rw [hdone, hlog]; exact h.done⟩
      intro k hk
      rcases hpc k hk with ⟨hhop, k', hk'⟩
      rw [hhop, hsent]
      exact h.waiting k' hk'
  | sends _ hsent hlog hdone hhop =>
      refine ⟨?_, ?_, ?_, by rw [hdone, hlog]; exact h.done⟩
      · intro p hp
        rw [hsent] at hp
        rcases List.mem_append.mp hp with hp | hp
        · exact h.own p hp
        · exact ⟨s.hopsTime, List.mem_singleton.mp hp⟩
      · intro e he
        rw [hlog] at he
        rw [hsent]
        exact List.mem_append_left _ (h.logged e he)
      · intro k _
        rw [hsent, hhop]
        exact List.mem_append_right _ (List.mem_singleton_self _)
  | gives _ hpc hsent hlog hdone hpc' =>
      exact h.append hpc hsent hlog (by rw [hdone]; simp) hpc'
  | returns _ _ hpc hsent hlog hdone hpc' => exact h.append hpc hsent hlog hdone hpc'

theorem exists_sent_iff {c : Setup} {s : Trace} (h : TraceInv c s) {hop : Nat}
    (hsent : sendV4 c hop ∈ s.sent) (d : Datagram) :
    (exists p, p ∈ s.sent ∧ p.icmpSeq = UInt16.ofNat hop ∧ d.Exceeded c p) <->
      d.Exceeded c (sendV4 c hop) := by
  constructor
  · intro hparts
    rcases hparts with ⟨p, hp, hseq, hquotes⟩
    rcases h.own p hp with ⟨h', rfl⟩
    exact (Datagram.exceeded_congr hseq).mp hquotes
  · intro hquotes
    exact ⟨sendV4 c hop, hsent, rfl, hquotes⟩

/-- Later probes do not change whether an entry is rightly attributed. -/
theorem attributed_step {c : Setup} {s s' : Trace} {a : Action} (h : TraceInv c s)
    (hstep : step c s a = some s') (hsub : forall p, p ∈ s.sent -> p ∈ s'.sent)
    {e : Entry} (he : e ∈ s.log) :
    e.Attributed c s'.sent <-> e.Attributed c s.sent := by
  have hsent := h.logged e he
  unfold Entry.Attributed
  split
  · exact Iff.rfl
  · exact Iff.rfl
  · rw [exists_sent_iff h hsent, exists_sent_iff (traceInv_step h hstep) (hsub _ hsent)]
  · exact Iff.rfl

theorem attributed_result {c : Setup} {s : Trace} (d : Datagram) :
    Entry.Attributed c s.sent
        { hop := s.hopsTime, ret := resultOf (kindSeen s d), datagram := some d } <->
      (kindSeen s d = icmpTimeExceeded ->
        exists p, p ∈ s.sent ∧ p.icmpSeq = UInt16.ofNat s.hopsTime ∧ d.Exceeded c p) ∧
      (kindSeen s d = icmpEchoReply -> d.EchoReply c c.pid c.sasend) := by
  unfold resultOf
  by_cases hexceeded : kindSeen s d = icmpTimeExceeded
  · have hreply : kindSeen s d ≠ icmpEchoReply := by
      rw [hexceeded]
      decide
    rw [if_pos hexceeded]
    exact ⟨fun h => ⟨fun _ => h, fun hk => (hreply hk).elim⟩, fun h => h.1 hexceeded⟩
  · rw [if_neg hexceeded]
    by_cases hreply : kindSeen s d = icmpEchoReply
    · rw [if_pos hreply]
      exact ⟨fun h => ⟨fun hk => (hexceeded hk).elim, fun _ => h⟩, fun h => h.2 hreply⟩
    · rw [if_neg hreply]
      exact ⟨fun _ => ⟨fun hk => (hexceeded hk).elim, fun hk => (hreply hk).elim⟩,
        fun _ => trivial⟩

def Right (c : Setup) (s : Trace) : Prop :=
  forall e, e ∈ s.log -> e.Attributed c s.sent

theorem right_step {c : Setup} {s s' : Trace} {a : Action} (h : TraceInv c s)
    (hstep : step c s a = some s') : Right c s' <-> Right c s ∧ Genuine c s a := by
  have hsame : (forall d, a = .event (.datagram d) -> ¬ d.Accepted c) -> Genuine c s a := by
    intro ha
    cases a with
    | go => trivial
    | event e =>
        cases e with
        | datagram d => exact fun haccepted => (ha d rfl haccepted).elim
        | _ => trivial
  cases moves_of_step hstep with
  | goes ha hsent hlog _ _ =>
      unfold Right
      rw [hsent, hlog]
      exact ⟨fun hright => ⟨hright, hsame ha⟩, And.left⟩
  | sends ha hsent hlog _ _ =>
      have hold : forall e, e ∈ s.log ->
          (e.Attributed c s'.sent <-> e.Attributed c s.sent) :=
        fun e he => attributed_step h hstep
          (fun p hp => by rw [hsent]; exact List.mem_append_left _ hp) he
      unfold Right
      rw [hlog]
      constructor
      · intro hright
        exact ⟨fun e he => (hold e he).mp (hright e he),
          hsame (fun d hd => (ha d hd).elim)⟩
      · intro hparts e he
        rcases hparts with ⟨hright, _⟩
        exact (hold e he).mpr (hright e he)
  | gives ha _ hsent hlog _ _ =>
      unfold Right
      rw [hsent, hlog]
      constructor
      · intro hright
        exact ⟨fun e he => hright e (List.mem_append_left _ he), hsame ha⟩
      · intro hparts e he
        rcases hparts with ⟨hright, _⟩
        rcases List.mem_append.mp he with he | he
        · exact hright e he
        · rw [List.mem_singleton.mp he]
          trivial
  | @returns k d ha haccepted _ hsent hlog _ _ =>
      subst ha
      unfold Right
      rw [hsent, hlog]
      constructor
      · intro hright
        refine ⟨fun e he => hright e (List.mem_append_left _ he), fun _ => ?_⟩
        exact (attributed_result d).mp
          (hright _ (List.mem_append_right _ (List.mem_singleton_self _)))
      · intro hparts e he
        rcases hparts with ⟨hright, hgenuine⟩
        rcases List.mem_append.mp he with he | he
        · exact hright e he
        · rw [List.mem_singleton.mp he]
          exact (attributed_result d).mpr (hgenuine haccepted)

/-!
## A trace and its replies
-/

/-- A run attributes all its replies to probes of its own exactly when every datagram
that `recv_v4` accepts and takes for a reply is one.  The trace is declared finished
exactly when `recv_v4` has returned -2. -/
theorem traceloop_attributes_iff {c : Setup} {s : Trace} {schedule : List Action}
    (hrun : (traceloop c).Run {} schedule s) :
    ((forall e, e ∈ s.log -> e.Attributed c s.sent) <->
      (traceloop c).RunUnder (Genuine c) {} schedule s) ∧
    (s.done = true <-> exists e, e ∈ s.log ∧ e.ret = .arrived) := by
  constructor
  · have hexact := @System.run_exact _ _ (traceloop c) (Genuine c) (TraceInv c) (Right c)
      (fun h hstep => traceInv_step h hstep) (fun h hstep => right_step h hstep)
      _ _ _ hrun (traceInv_initial c)
    have hempty : Right c {} := fun e he => nomatch he
    exact hexact.trans ⟨And.right, fun hgenuine => ⟨hempty, hgenuine⟩⟩
  · have hinv := hrun.invariant (TraceInv c) (fun h _ hstep => traceInv_step h hstep)
      (traceInv_initial c)
    exact hinv.done

/-- A little-endian host whose process 7 traces the route to 10.0.0.1. -/
def traceToOne : Setup where
  order := .little
  sasend := ⟨(10, 0, 0, 1)⟩
  sabind := ⟨(0, 0, 0, 0)⟩
  pid := 7
  hopsMax := 15

def icmpHeader (src dst : UInt8) : List UInt8 :=
  [0x45, 0, 0, 56, 0, 0, 0, 0, 64, 1, 0, 0, 10, 0, 0, src, 10, 0, 0, dst]

def echoReply (src id : UInt8) : Datagram where
  bytes := icmpHeader src 2 ++ [0, 0, 0, 0, id, 0, 1, 0] ++ List.replicate 28 0
  nonempty := List.cons_ne_nil _ _

def timeExceeded (id seq : UInt8) : Datagram where
  bytes := icmpHeader 254 2 ++ [11, 0, 0, 0, 0, 0, 0, 0] ++
    icmpHeader 2 1 ++ [8, 0, 0, 0, id, 0, seq, 0]
  nonempty := List.cons_ne_nil _ _

/-- Two probes of the first hop, each with the datagram that ends its wait. -/
def twoProbes (first second : Datagram) : List Action :=
  [.go, .go, .event (.datagram first), .go, .event (.datagram second)]

theorem traceloop_attributes_two :
    exists s, (traceloop traceToOne).RunUnder (Genuine traceToOne) {}
        (twoProbes (timeExceeded 7 1) (echoReply 1 7)) s ∧
      s.done = true ∧ s.log.map Entry.ret = [.answered, .arrived] := by
  have hrun : exists s, (traceloop traceToOne).Run {}
      (twoProbes (timeExceeded 7 1) (echoReply 1 7)) s ∧
      (s.done = true ∧ s.log.map Entry.ret = [.answered, .arrived] ∧
        forall e, e ∈ s.log -> e.Attributed traceToOne s.sent) :=
    System.exists_run_of_exec _ (by decide)
  rcases hrun with ⟨s, hrun, hdone, hlog, hright⟩
  exact ⟨s, (traceloop_attributes_iff hrun).1.mp hright, hdone, hlog⟩

/-- The first hop is answered by a message about a probe of process 9, and the trace
ends on a reply of host 9 to that process. -/
theorem traceloop_takes_foreign_replies :
    exists s, (traceloop traceToOne).Reachable s ∧ s.done = true ∧
      (exists e, e ∈ s.log ∧ e.ret = .arrived ∧
        e.datagram = some (echoReply 9 9) ∧ ¬ e.Attributed traceToOne s.sent) ∧
      (exists e, e ∈ s.log ∧ e.ret = .answered ∧
        e.datagram = some (timeExceeded 9 1) ∧ ¬ e.Attributed traceToOne s.sent) :=
  System.reachable_of_exec (s := ({} : Trace))
    (twoProbes (timeExceeded 9 1) (echoReply 9 9)) rfl (by decide)

end Traceroute
end PracticeHand
