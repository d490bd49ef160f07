import Mathlib.Data.List.Basic
import Mathlib.Data.UInt
import PracticeHand.Traceroute.Headers
import PracticeHand.Traceroute.Traceloop

/-!
# The hops that `traceloop` probes

The two loops of `traceloop` with `int` arithmetic, for any sequence of results of
`frecv`.  `hops_max` is what `atoi` makes of the option `-m`; nothing checks it.
The time to live of a probe is one byte, so the probes go round from hop 256 on, and
the bound `hops_max + 1` of the outer loop overflows for the largest `int`.
-/

namespace PracticeHand
namespace Traceroute
namespace Hops

inductive Out where
  | hop (h : Int)
  | probe (ttl : UInt8)
  | star
  | rtt
  | arrives
  | newline
  deriving DecidableEq

structure Loop where
  hopsTime : Int := 1
  done : Bool := false
  calls : Nat := 0
  out : List Out := []

/-- `INT_MAX`; `x + 1` is undefined for this `x`. -/
def intMax : Int := 2 ^ 31 - 1

def printed (ret : Int) : List Out :=
  if ret = -3 then [.star]
  else if ret = -1 then [.rtt]
  else if ret = -2 then [.arrives]
  else []

def probe (frecv : Nat -> Int) (s : Loop) : Loop :=
  { s with
    done := s.done || decide (frecv s.calls = -2)
    calls := s.calls + 1
    out := s.out ++ .probe (UInt8.ofInt s.hopsTime) :: printed (frecv s.calls) }

def attempts (frecv : Nat -> Int) : Nat -> Loop -> Loop
  | 0, s => s
  | left + 1, s => if s.done = false then attempts frecv left (probe frecv s) else s

theorem hopsTime_attempts (frecv : Nat -> Int) (left : Nat) : forall s,
    (attempts frecv left s).hopsTime = s.hopsTime := by
  induction left with
  | zero =>
      intro s
      rfl
  | succ left ih =>
      intro s
      unfold attempts
      split
      · rw [ih]
        rfl
      · rfl

def round (frecv : Nat -> Int) (s : Loop) : Loop :=
  attempts frecv 3 { s with out := s.out ++ [.hop s.hopsTime] }

/-- The outer loop.  Nothing is said about what happens after an overflow. -/
def outer (hopsMax : Int) (frecv : Nat -> Int) (s : Loop) : Option Loop :=
  if hopsMax = intMax then none
  else if s.hopsTime < hopsMax + 1 ∧ s.done = false then
    if (round frecv s).hopsTime = intMax then none
    else
      outer hopsMax frecv { round frecv s with
        hopsTime := (round frecv s).hopsTime + 1
        out := (round frecv s).out ++ [.newline] }
  else some s
  termination_by (hopsMax + 1 - s.hopsTime).toNat
  decreasing_by
    rename_i hless _
    rw [round, hopsTime_attempts]
    lia

def traceloop (hopsMax : Int) (frecv : Nat -> Int) : Option Loop :=
  outer hopsMax frecv {}

/-!
## The probes and the hops they are printed with
-/

def lastHop : Option Int -> List Out -> Option Int
  | last, [] => last
  | _, .hop h :: out => lastHop (some h) out
  | last, _ :: out => lastHop last out

/-- The times to live of the probes, each with the hop that it is printed for. -/
def labelled : Option Int -> List Out -> List (Option Int × UInt8)
  | _, [] => []
  | _, .hop h :: out => labelled (some h) out
  | last, .probe ttl :: out => (last, ttl) :: labelled last out
  | last, _ :: out => labelled last out

theorem lastHop_append (last : Option Int) (front back : List Out) :
    lastHop last (front ++ back) = lastHop (lastHop last front) back := by
  induction front generalizing last with
  | nil => rfl
  | cons o front ih => cases o <;> exact ih _

theorem labelled_append (last : Option Int) (front back : List Out) :
    labelled last (front ++ back) = labelled last front ++ labelled (lastHop last front) back := by
  induction front generalizing last with
  | nil => rfl
  | cons o front ih =>
      cases o with
      | probe ttl => exact congrArg ((last, ttl) :: ·) (ih last)
      | _ => exact ih _

theorem lastHop_printed (last : Option Int) (ret : Int) : lastHop last (printed ret) = last := by
  unfold printed
  split_ifs <;> rfl

theorem labelled_printed (last : Option Int) (ret : Int) : labelled last (printed ret) = [] := by
  unfold printed
  split_ifs <;> rfl

def hopOf (i : Nat) : Nat := i / 3 + 1

def label (i : Nat) : Option Int × UInt8 :=
  (some (hopOf i : Int), UInt8.ofNat (hopOf i))

/-- After `hop` hops and `curtime` probes of the next one, or when the destination has
answered. -/
structure Progress (frecv : Nat -> Int) (hop curtime : Nat) (s : Loop) : Prop where
  hopsTime : s.hopsTime = hop + 1
  labels : labelled none s.out = (List.range s.calls).map label
  calls : s.calls ≤ 3 * hop + curtime
  goes : s.done = false -> s.calls = 3 * hop + curtime ∧ forall k, k < s.calls -> frecv k ≠ -2
  ends : s.done = true -> exists k, s.calls = k + 1 ∧ frecv k = -2 ∧
    forall i, i < k -> frecv i ≠ -2

section Loops

variable {frecv : Nat -> Int} {hop curtime : Nat} {s : Loop}

theorem hopOf_add (hop : Nat) {curtime : Nat} (h : curtime < 3) :
    hopOf (3 * hop + curtime) = hop + 1 := by
  unfold hopOf
  lia

theorem probe_progress (h : Progress frecv hop curtime s)
    (hlast : lastHop none s.out = some ((hop : Int) + 1)) (hdone : s.done = false)
    (hcurtime : curtime < 3) :
    Progress frecv hop (curtime + 1) (probe frecv s) ∧
      lastHop none (probe frecv s).out = some ((hop : Int) + 1) := by
  rcases h.goes hdone with ⟨hcalls, hbefore⟩
  have hlabel : label s.calls = (some ((hop : Int) + 1), UInt8.ofInt s.hopsTime) := by
    rw [label, hcalls, hopOf_add hop hcurtime, h.hopsTime, ← UInt8.ofInt_natCast]
    rfl
  refine ⟨⟨h.hopsTime, ?_, ?_, ?_, ?_⟩, ?_⟩
  · change labelled none (s.out ++ .probe _ :: _) = (List.range (s.calls + 1)).map label
    rw [labelled_append, hlast, List.range_succ, List.map_append, h.labels]
    simp only [labelled, labelled_printed, List.map_cons, List.map_nil, hlabel]
  · change s.calls + 1 ≤ _
    lia
  · intro hgoes
    change (s.done || decide (frecv s.calls = -2)) = false at hgoes
    rw [hdone, Bool.false_or, decide_eq_false_iff_not] at hgoes
    refine ⟨by change s.calls + 1 = _; lia, ?_⟩
    intro k hk
    rcases Nat.lt_succ_iff_lt_or_eq.mp hk with hk | hk
    · exact hbefore k hk
    · rw [hk]
      exact hgoes
  · intro hends
    change (s.done || decide (frecv s.calls = -2)) = true at hends
    rw [hdone, Bool.false_or, decide_eq_true_eq] at hends
    exact ⟨s.calls, rfl, hends, hbefore⟩
  · change lastHop none (s.out ++ .probe _ :: _) = _
    rw [lastHop_append, hlast]
    exact lastHop_printed _ _

theorem Progress.finish (h : Progress frecv hop curtime s) (hdone : s.done = true)
    (hcurtime : curtime ≤ 3) : Progress frecv hop 3 s where
  hopsTime := h.hopsTime
  labels := h.labels
  calls := Nat.le_trans h.calls (by lia)
  goes := by
    intro hgoes
    rw [hdone] at hgoes
    cases hgoes
  ends := h.ends

theorem attempts_progress (left : Nat) : forall {curtime : Nat} {s : Loop},
    curtime + left = 3 -> Progress frecv hop curtime s ->
    lastHop none s.out = some ((hop : Int) + 1) -> Progress frecv hop 3 (attempts frecv left s) := by
  induction left with
  | zero =>
      intro curtime s hcurtime h _
      rw [← hcurtime]
      exact h
  | succ left ih =>
      intro curtime s hcurtime h hlast
      unfold attempts
      split
      · rename_i hdone
        rcases probe_progress h hlast hdone (by lia) with ⟨hnext, hlast'⟩
        exact ih (by lia) hnext hlast'
      · rename_i hdone
        exact h.finish (Bool.eq_true_of_not_eq_false hdone) (by lia)

theorem round_progress (h : Progress frecv hop 0 s) : Progress frecv hop 3 (round frecv s) := by
  have hlast : lastHop none (s.out ++ [.hop s.hopsTime]) = some ((hop : Int) + 1) := by
    rw [lastHop_append, h.hopsTime]
    rfl
  have hprinted : Progress frecv hop 0 { s with out := s.out ++ [.hop s.hopsTime] } := by
    refine ⟨h.hopsTime, ?_, h.calls, h.goes, h.ends⟩
    rw [labelled_append, h.labels]
    exact List.append_nil _
  exact attempts_progress 3 rfl hprinted hlast

theorem next_progress (h : Progress frecv hop 3 s) :
    Progress frecv (hop + 1) 0
      { s with hopsTime := s.hopsTime + 1, out := s.out ++ [.newline] } := by
  refine ⟨?_, ?_, h.calls, h.goes, h.ends⟩
  · change s.hopsTime + 1 = _
    rw [h.hopsTime]
    rfl
  · rw [labelled_append, h.labels]
    exact List.append_nil _

theorem outer_progress {hopsMax : Int} (hmax : hopsMax < intMax) (left : Nat) :
    forall {hop : Nat} {s : Loop}, (hop : Int) + left = hopsMax -> Progress frecv hop 0 s ->
    exists t last, outer hopsMax frecv s = some t ∧ Progress frecv last 0 t ∧
      last ≤ hopsMax.toNat ∧ (t.done = true ∨ last = hopsMax.toNat) := by
  induction left with
  | zero =>
      intro hop s hleft h
      refine ⟨s, hop, ?_, h, by lia, Or.inr (by lia)⟩
      have hover : ¬ (s.hopsTime < hopsMax + 1 ∧ s.done = false) := by
        rw [h.hopsTime]
        lia
      rw [outer, if_neg (by lia), if_neg hover]
  | succ left ih =>
      intro hop s hleft h
      by_cases hdone : s.done = false
      · have hround := round_progress h
        rcases ih (by push_cast at hleft ⊢; lia) (next_progress hround) with
          ⟨t, last, ht, hprogress⟩
        refine ⟨t, last, ?_, hprogress⟩
        have hless : s.hopsTime < hopsMax + 1 := by
          rw [h.hopsTime]
          lia
        rw [outer, if_neg (by lia), if_pos ⟨hless, hdone⟩, if_neg (by rw [hround.hopsTime]; lia)]
        exact ht
      · refine ⟨s, hop, ?_, h, by lia, Or.inl (Bool.eq_true_of_not_eq_false hdone)⟩
        rw [outer, if_neg (by lia), if_neg (fun hgo => hdone hgo.2)]

end Loops

/-!
## Probes in order
-/

/-- Probes are sent up to the first one that is answered with -2, at most `total`. -/
def probeCount (frecv : Nat -> Int) (total : Nat) : Nat :=
  match (List.range total).find? (fun k => frecv k = -2) with
  | some k => k + 1
  | none => total

theorem probeCount_of_none {frecv : Nat -> Int} {total : Nat}
    (h : forall k, k < total -> frecv k ≠ -2) : probeCount frecv total = total := by
  have hfind : (List.range total).find? (fun k => frecv k = -2) = none := by
    rw [List.find?_eq_none]
    intro k hk
    simpa using h k (List.mem_range.mp hk)
  rw [probeCount, hfind]

theorem probeCount_of_first {frecv : Nat -> Int} {total k : Nat} (hk : k < total)
    (hfirst : frecv k = -2) (h : forall i, i < k -> frecv i ≠ -2) :
    probeCount frecv total = k + 1 := by
  have hfind : (List.range total).find? (fun k => frecv k = -2) = some k := by
    rw [List.find?_range_eq_some]
    refine ⟨decide_eq_true hfirst, List.mem_range.mpr hk, ?_⟩
    intro i hi
    simpa using h i hi
  rw [probeCount, hfind]

theorem probeCount_le_iff {frecv : Nat -> Int} {total most : Nat} :
    probeCount frecv total ≤ most <->
      total ≤ most ∨ exists k, k < most ∧ frecv k = -2 := by
  cases hfind : (List.range total).find? (fun k => frecv k = -2) with
  | none =>
      rw [List.find?_range_eq_none] at hfind
      rw [probeCount_of_none (fun k hk => by simpa using hfind k hk)]
      constructor
      · exact Or.inl
      · intro hcases
        rcases hcases with htotal | ⟨k, hk, hlast⟩
        · exact htotal
        · by_contra hmany
          exact absurd hlast (by simpa using hfind k (by lia))
  | some k =>
      rw [List.find?_range_eq_some] at hfind
      rcases hfind with ⟨hfirst, hk, hbefore⟩
      have hk' : k < total := List.mem_range.mp hk
      rw [probeCount_of_first hk' (of_decide_eq_true hfirst)
        (fun i hi => by simpa using hbefore i hi)]
      constructor
      · intro hcount
        exact Or.inr ⟨k, hcount, of_decide_eq_true hfirst⟩
      · intro hcases
        rcases hcases with htotal | ⟨j, hj, hlast⟩
        · lia
        · by_contra hmany
          exact absurd hlast (by simpa using hbefore j (by lia))

theorem Progress.calls_eq {frecv : Nat -> Int} {last total : Nat} {s : Loop}
    (h : Progress frecv last 0 s) (hlast : last ≤ total)
    (hend : s.done = true ∨ last = total) : s.calls = probeCount frecv (3 * total) := by
  have hcalls := h.calls
  cases hdone : s.done with
  | false =>
      rcases h.goes hdone with ⟨hcount, hnone⟩
      have htotal : last = total := by
        rcases hend with hend | hend
        · rw [hdone] at hend
          cases hend
        · exact hend
      rw [hcount, htotal, Nat.add_zero] at hnone
      rw [hcount, htotal, probeCount_of_none hnone, Nat.add_zero]
  | true =>
      rcases h.ends hdone with ⟨k, hk, hfirst, hbefore⟩
      rw [hk, probeCount_of_first (by lia) hfirst hbefore]

/-- Without an overflow of its bound the outer loop ends, and the probes are those of
one hop after the other. -/
theorem traceloop_labels {hopsMax : Int} (hlow : 0 ≤ hopsMax) (hmax : hopsMax < intMax)
    (frecv : Nat -> Int) :
    exists t, traceloop hopsMax frecv = some t ∧
      labelled none t.out =
        (List.range (probeCount frecv (3 * hopsMax.toNat))).map label := by
  have hstart : Progress frecv 0 0 {} := by
    refine ⟨rfl, rfl, Nat.le_refl 0, fun _ => ⟨rfl, fun k hk => ?_⟩, fun h => nomatch h⟩
    exact absurd hk (Nat.not_lt_zero k)
  rcases outer_progress hmax hopsMax.toNat (by lia) hstart with
    ⟨t, last, ht, hprogress, hlast, hend⟩
  refine ⟨t, ht, ?_⟩
  rw [hprogress.labels, hprogress.calls_eq hlast hend]

/-- Three probes for each hop, each with the time to live that is printed for it, up to
the first answer of the destination or to the last hop. -/
def InOrder (hopsMax : Int) (frecv : Nat -> Int) : Prop :=
  exists t, traceloop hopsMax frecv = some t ∧
    (labelled none t.out).map (fun p => (p.1, p.2.toNat)) =
      (List.range (probeCount frecv (3 * hopsMax.toNat))).map
        (fun i => (some (hopOf i : Int), hopOf i))

theorem inOrder_iff_count {hopsMax : Int} (hlow : 0 ≤ hopsMax) (hmax : hopsMax < intMax)
    (frecv : Nat -> Int) :
    InOrder hopsMax frecv <-> probeCount frecv (3 * hopsMax.toNat) ≤ 765 := by
  rcases traceloop_labels hlow hmax frecv with ⟨t, ht, hlabels⟩
  have hwraps : forall i, (UInt8.ofNat (hopOf i)).toNat = hopOf i <-> i < 765 := by
    intro i
    rw [UInt8.toNat_ofNat', hopOf]
    lia
  have hall : InOrder hopsMax frecv <->
      forall i, i ∈ List.range (probeCount frecv (3 * hopsMax.toNat)) ->
        (UInt8.ofNat (hopOf i)).toNat = hopOf i := by
    simp [InOrder, ht, hlabels, label]
  rw [hall]
  simp only [hwraps, List.mem_range]
  constructor
  · intro h
    by_contra hmany
    exact absurd (h 765 (by lia)) (by decide)
  · intro h i hi
    lia

/-- The probes are in order exactly when the bound does not overflow and no hop above 255
is reached. -/
theorem traceloop_in_order_iff {hopsMax : Int} (hlow : 1 ≤ hopsMax) (hmax : hopsMax ≤ intMax)
    (frecv : Nat -> Int) :
    InOrder hopsMax frecv <->
      hopsMax ≠ intMax ∧ (hopsMax ≤ 255 ∨ exists k, k < 765 ∧ frecv k = -2) := by
  by_cases htop : hopsMax = intMax
  · constructor
    · intro h
      rcases h with ⟨t, ht, _⟩
      rw [traceloop, outer, if_pos htop] at ht
      cases ht
    · intro h
      exact (h.1 htop).elim
  · have hrange : 3 * hopsMax.toNat ≤ 765 <-> hopsMax ≤ 255 := by lia
    rw [inOrder_iff_count (by lia) (by lia), probeCount_le_iff, hrange]
    exact ⟨fun h => ⟨htop, h⟩, And.right⟩

/-- Fifteen hops, the default, and no answer. -/
theorem traceloop_in_order_default : InOrder 15 (fun _ => -3) :=
  (traceloop_in_order_iff (by decide) (by decide) (fun _ => -3)).mpr
    ⟨by decide, Or.inl (by decide)⟩

/-- With 256 hops the last probes have the time to live 0, and with the largest `int`
the bound of the loop is undefined. -/
theorem traceloop_wraps_ttl :
    (exists t, traceloop 256 (fun _ => -3) = some t ∧
      (some 256, 0) ∈ labelled none t.out) ∧
    ¬ InOrder 256 (fun _ => -3) ∧ traceloop intMax (fun _ => -3) = none := by
  have hcount : probeCount (fun _ => -3) (3 * (256 : Int).toNat) = 768 :=
    probeCount_of_none (fun k _ => by decide)
  refine ⟨?_, ?_, ?_⟩
  · rcases traceloop_labels (by decide) (by decide : (256 : Int) < intMax) (fun _ => -3) with
      ⟨t, ht, hlabels⟩
    refine ⟨t, ht, ?_⟩
    rw [hlabels, hcount]
    exact List.mem_map.mpr ⟨765, List.mem_range.mpr (by decide), rfl⟩
  · rw [inOrder_iff_count (by decide) (by decide), hcount]
    decide
  · rw [traceloop, outer, if_pos rfl]

/-!
## The runs of a trace

A run of `Traceroute.traceloop` that has finished has sent the probes of the two
loops for the results that its log gives.
-/

def code : Ret -> Int
  | .answered => -1
  | .arrived => -2
  | .nothing => -3

theorem code_eq_iff {ret : Ret} : code ret = -2 <-> ret = .arrived := by
  cases ret <;> decide

def results (log : List Entry) (k : Nat) : Int :=
  (log[k]?.map (fun e => code e.ret)).getD (-3)

theorem results_append {log : List Entry} {e : Entry} :
    results (log ++ [e]) log.length = code e.ret := by
  simp [results]

theorem results_ne {log : List Entry} (h : forall e, e ∈ log -> e.ret ≠ .arrived) (k : Nat) :
    results log k ≠ -2 := by
  unfold results
  cases hk : log[k]? with
  | none => decide
  | some e => exact mt code_eq_iff.mp (h e (List.mem_of_getElem? hk))

/-- How many probes have been sent at each location. -/
def Reached (c : Setup) (s : Trace) : Prop :=
  match s.pc with
  | .hop => s.log.length = s.sent.length ∧
      (s.done = false -> s.hopsTime ≤ c.hopsMax + 1 ∧ s.sent.length + 3 = 3 * s.hopsTime)
  | .attempt k => s.log.length = s.sent.length ∧
      (s.done = false ->
        s.hopsTime ≤ c.hopsMax ∧ k ≤ 3 ∧ s.sent.length + 3 = 3 * s.hopsTime + k)
  | .recvfrom k => s.log.length + 1 = s.sent.length ∧ s.done = false ∧
      s.hopsTime ≤ c.hopsMax ∧ k < 3 ∧ s.sent.length + 2 = 3 * s.hopsTime + k
  | .finished => s.log.length = s.sent.length ∧
      (s.done = false -> s.sent.length = 3 * c.hopsMax.toNat)
  | .exited => True

structure TraceProgress (c : Setup) (s : Trace) : Prop where
  reached : Reached c s
  most : s.sent.length ≤ 3 * c.hopsMax.toNat
  sent : s.sent = (List.range s.sent.length).map (fun i => sendV4 c (hopOf i))
  goes : s.done = false -> forall e, e ∈ s.log -> e.ret ≠ .arrived
  ends : s.done = true -> exists front e, s.log = front ++ [e] ∧ e.ret = .arrived ∧
    forall e, e ∈ front -> e.ret ≠ .arrived

section Runs

variable {c : Setup} {s s' : Trace} {k : Nat}

theorem TraceProgress.of_same (h : TraceProgress c s) (hreached : Reached c s')
    (hsent : s'.sent = s.sent) (hlog : s'.log = s.log) (hdone : s'.done = s.done) :
    TraceProgress c s' := by
  refine ⟨hreached, ?_, ?_, ?_, ?_⟩
  · rw [hsent]
    exact h.most
  · rw [hsent]
    exact h.sent
  · rw [hdone, hlog]
    exact h.goes
  · rw [hdone, hlog]
    exact h.ends

theorem reached_of_keeps (h : Reached c s) (hkeeps : Keeps s s') : Reached c s' := by
  unfold Reached at h ⊢
  rw [hkeeps.pc, hkeeps.hopsTime, hkeeps.done, hkeeps.sent, hkeeps.log]
  exact h

theorem returned_progress (h : TraceProgress c s) (hpc : s.pc = .recvfrom k) (ret : Ret)
    (d : Option Datagram) : TraceProgress c (returned s k ret d) := by
  have hreached := h.reached
  rw [Reached, hpc] at hreached
  rcases hreached with ⟨hlog, hdone, hhops, hk, hcount⟩
  have hbefore := h.goes hdone
  refine ⟨⟨?_, fun _ => ⟨hhops, hk, ?_⟩⟩, h.most, h.sent, ?_, ?_⟩
  · change (s.log ++ [_]).length = s.sent.length
    rw [List.length_append, List.length_singleton, hlog]
  · change s.sent.length + 3 = 3 * s.hopsTime + (k + 1)
    lia
  · intro hgoes e he
    change (s.done || ret == .arrived) = false at hgoes
    rw [hdone, Bool.false_or, beq_eq_false_iff_ne] at hgoes
    rcases List.mem_append.mp he with hold | hnew
    · exact hbefore e hold
    · rw [List.mem_singleton.mp hnew]
      exact hgoes
  · intro hends
    change (s.done || ret == .arrived) = true at hends
    rw [hdone, Bool.false_or, beq_iff_eq] at hends
    exact ⟨s.log, _, rfl, hends, hbefore⟩

theorem recvTest_progress (h : TraceProgress c s) (hpc : s.pc = .recvfrom k) :
    TraceProgress c (recvTest s k) := by
  unfold recvTest
  split
  · exact returned_progress h hpc .nothing none
  · refine h.of_same ?_ rfl rfl rfl
    have hreached := h.reached
    rw [Reached, hpc] at hreached
    exact hreached

theorem send_progress (h : TraceProgress c s) (hpc : s.pc = .attempt k) (hk : k < looptime)
    (hdone : s.done = false) : TraceProgress c (Traceroute.probe c s k) := by
  have hreached := h.reached
  rw [Reached, hpc] at hreached
  rcases hreached with ⟨hlog, hplace⟩
  rcases hplace hdone with ⟨hhops, _, hcount⟩
  have hsent : (Traceroute.probe c s k).sent = s.sent ++ [sendV4 c s.hopsTime] := rfl
  have hlength : (Traceroute.probe c s k).sent.length = s.sent.length + 1 := by
    rw [hsent, List.length_append, List.length_singleton]
  unfold looptime at hk
  have hhop : hopOf s.sent.length = s.hopsTime := by
    unfold hopOf
    lia
  refine ⟨?_, by lia, ?_, h.goes, ?_⟩
  · change s.log.length + 1 = _ ∧ s.done = false ∧ (s.hopsTime : Int) ≤ c.hopsMax ∧ k < 3 ∧
      _ + 2 = 3 * s.hopsTime + k
    exact ⟨by lia, hdone, hhops, hk, by lia⟩
  · rw [hlength, List.range_succ, List.map_append, ← h.sent, hsent]
    simp only [List.map_cons, List.map_nil, hhop]
  · intro hends
    change s.done = true at hends
    rw [hdone] at hends
    cases hends

theorem traceProgress_step {a : Action} (h : TraceProgress c s)
    (hstep : step c s a = some s') : TraceProgress c s' := by
  have hreached := h.reached
  unfold Reached at hreached
  unfold step at hstep
  split at hstep
  · rename_i hpc
    rw [hpc] at hreached
    split at hstep
    · rename_i hmore
      cases hstep
      refine h.of_same ⟨hreached.1, fun hdone => ⟨?_, by lia, (hreached.2 hdone).2⟩⟩ rfl rfl rfl
      exact Int.lt_add_one_iff.mp hmore.1
    · rename_i hmore
      cases hstep
      refine h.of_same ⟨hreached.1, fun hdone => ?_⟩ rfl rfl rfl
      rcases hreached.2 hdone with ⟨hhops, hcount⟩
      have hlast : ¬ (s.hopsTime : Int) < c.hopsMax + 1 := fun hless => hmore ⟨hless, hdone⟩
      change s.sent.length = _
      lia
  · rename_i hpc
    split at hstep
    · rename_i hmore
      cases hstep
      exact send_progress h hpc hmore.1 hmore.2
    · rename_i hmore
      cases hstep
      rw [hpc] at hreached
      refine h.of_same ⟨hreached.1, fun hdone => ?_⟩ rfl rfl rfl
      rcases hreached.2 hdone with ⟨hhops, hk, hcount⟩
      have hlast : ¬ _ < looptime := fun hless => hmore ⟨hless, hdone⟩
      unfold looptime at hlast
      change (s.hopsTime + 1 : Nat) ≤ c.hopsMax + 1 ∧ s.sent.length + 3 = 3 * (s.hopsTime + 1)
      lia
  · rename_i d hpc
    have hkeeps := examine_keeps c s d
    have hexamined : TraceProgress c (examine c s d).1 :=
      h.of_same (reached_of_keeps h.reached hkeeps) hkeeps.sent hkeeps.log hkeeps.done
    have hpc' := hkeeps.pc.trans hpc
    split at hstep
    · rename_i hexamine
      rw [hexamine] at hexamined hpc'
      cases hstep
      exact recvTest_progress hexamined hpc'
    · rename_i hexamine
      rw [hexamine] at hexamined hpc'
      cases hstep
      exact returned_progress hexamined hpc' _ _
  · rename_i hpc
    cases hstep
    have hrung : TraceProgress c { s with gotalarm := true } :=
      h.of_same (reached_of_keeps h.reached ⟨rfl, rfl, rfl, rfl, rfl⟩) rfl rfl rfl
    exact recvTest_progress hrung hpc
  · rename_i hpc
    cases hstep
    exact h.of_same (reached_of_keeps h.reached ⟨rfl, rfl, rfl, rfl, rfl⟩) rfl rfl rfl
  · rename_i hpc
    cases hstep
    exact recvTest_progress h hpc
  · cases hstep
    exact h.of_same trivial rfl rfl rfl
  · cases hstep

theorem reachable_traceProgress (hlow : 0 ≤ c.hopsMax)
    (hreach : (Traceroute.traceloop c).Reachable s) : TraceProgress c s := by
  apply Concurrency.System.ReachableUnder.invariant _ _ hreach
  · intro s hs
    rw [hs]
    refine ⟨⟨rfl, fun _ => ⟨?_, rfl⟩⟩, Nat.zero_le _, rfl, fun _ e he => ?_, fun hdone => ?_⟩
    · change ((1 : Nat) : Int) ≤ c.hopsMax + 1
      lia
    · cases he
    · cases hdone
  · intro s s' a hs _ hstep
    exact traceProgress_step hs hstep

theorem TraceProgress.log_eq (h : TraceProgress c s) (hpc : s.pc = .finished) :
    s.log.length = probeCount (results s.log) (3 * c.hopsMax.toNat) := by
  have hreached := h.reached
  rw [Reached, hpc] at hreached
  rcases hreached with ⟨hlog, htotal⟩
  cases hdone : s.done with
  | false =>
      rw [probeCount_of_none (fun k _ => results_ne (h.goes hdone) k), hlog, htotal hdone]
  | true =>
      rcases h.ends hdone with ⟨front, e, hfront, harrived, hbefore⟩
      have hlength : s.log.length = front.length + 1 := by
        rw [hfront, List.length_append, List.length_singleton]
      have hmost := h.most
      have hearlier : forall i, i < front.length -> results s.log i ≠ -2 := by
        intro i hi
        have hsame : results s.log i = results front i := by
          rw [hfront, results, results, List.getElem?_append_left hi]
        rw [hsame]
        exact results_ne hbefore i
      have hlast : results s.log front.length = -2 := by
        rw [hfront, results_append, harrived]
        rfl
      rw [probeCount_of_first (by lia) hlast hearlier, hlength]

/-- The probes of a finished run are those of the loops. -/
theorem traceloop_sent (hlow : 0 ≤ c.hopsMax) (hmax : c.hopsMax < intMax)
    (hreach : (Traceroute.traceloop c).Reachable s) (hpc : s.pc = .finished) :
    exists t, traceloop c.hopsMax (results s.log) = some t ∧
      s.sent.map (fun p => p.ipTtl) = (labelled none t.out).map Prod.snd := by
  have hprogress := reachable_traceProgress hlow hreach
  have hcount : s.sent.length = probeCount (results s.log) (3 * c.hopsMax.toNat) := by
    have hreached := hprogress.reached
    rw [Reached, hpc] at hreached
    rw [← hreached.1, hprogress.log_eq hpc]
  rcases traceloop_labels hlow hmax (results s.log) with ⟨t, ht, hlabels⟩
  refine ⟨t, ht, ?_⟩
  rw [hlabels, ← hcount, hprogress.sent, List.map_map, List.map_map, List.length_map,
    List.length_range]
  rfl

end Runs

end Hops
end Traceroute
end PracticeHand
