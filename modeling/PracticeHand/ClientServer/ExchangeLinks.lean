import Mathlib.Algebra.BigOperators.Group.Finset.Basic
import PracticeHand.ClientServer.Exchange

/-!
# One connection of an exchange

What the two sides of a connection are doing determines what can be on the wire.
A step of the system is a step of one connection, or it starts one, or it concerns
none; the states of the other connections stay as they are.
-/

namespace PracticeHand
namespace Exchange

open Concurrency
open WebChild
open Readline

/-!
## The two sides
-/

/-- What the client is doing with a connection. -/
inductive ClientView where
  | writing
  | reading (nleft : Nat)
  | closing
  | gone
  deriving DecidableEq

inductive ServerView where
  | queued
  | unlocking
  | counting
  | reading (line ahead : List UInt8)
  | writing (nleft : Nat) (ahead : List UInt8)
  | closing (ahead : List UInt8)
  | gone
  deriving DecidableEq

structure Link where
  wire : Wire
  client : ClientView
  server : ServerView

def ClientPc.fd : ClientPc -> Option Nat
  | .connect _ => none
  | .write _ fd => some fd
  | .readn _ fd _ => some fd
  | .close _ fd => some fd
  | .done => none
  | .quit _ => none
  | .failed => none

def ServerPc.connfd : ServerPc -> Option Nat
  | .select => none
  | .lock => none
  | .accept => none
  | .unlock connfd => some connfd
  | .count connfd => some connfd
  | .readline connfd _ => some connfd
  | .writen connfd _ => some connfd
  | .close connfd => some connfd
  | .quit _ => none
  | .brokenPipe => none

def ClientPc.look : ClientPc -> ClientView
  | .write _ _ => .writing
  | .readn _ _ nleft => .reading nleft
  | .close _ _ => .closing
  | _ => .gone

def ServerPc.look (ahead : List UInt8) : ServerPc -> ServerView
  | .unlock _ => .unlocking
  | .count _ => .counting
  | .readline _ line => .reading line ahead
  | .writen _ nleft => .writing nleft ahead
  | .close _ => .closing ahead
  | _ => .gone

def ClientPc.view (c : Nat) (pc : ClientPc) : ClientView :=
  if pc.fd = some c then pc.look else .gone

def ServerPc.view (ahead : List UInt8) (c : Nat) (pc : ServerPc) : ServerView :=
  if pc.connfd = some c then pc.look ahead else .gone

variable {m n : Nat} {s t : State m n}

def State.clientView (s : State m n) (c : Nat) : ClientView :=
  match s.peer c with
  | none => .gone
  | some i => (s.client i).view c

def State.serverView (s : State m n) (c : Nat) : ServerView :=
  match s.owner c with
  | none => .queued
  | some i => (s.server i).view (s.ahead i) c

def State.link (s : State m n) (c : Nat) : Link :=
  ⟨s.wire c, s.clientView c, s.serverView c⟩

/-!
## What happens on a connection
-/

/-- The views before the first read, with what is still to be done until then. -/
def ServerView.before : ServerView -> Option Nat
  | .queued => some 3
  | .unlocking => some 2
  | .counting => some 1
  | .reading [] [] => some 0
  | _ => none

/-- The steps on a connection that lead to no error. -/
inductive Talk (args : Client) : Link -> Link -> Prop where
  | write {w : Wire} {v : ServerView} :
      Talk args ⟨w, .writing, v⟩
        ⟨{ w with toServer := w.toServer ++ request args.nbytes }, .reading args.nbytes, v⟩
  | read {w : Wire} {v : ServerView} {nleft bytes : Nat} :
      0 < bytes -> bytes ≤ nleft -> bytes ≤ w.toClient ->
      Talk args ⟨w, .reading nleft, v⟩
        ⟨{ w with toClient := w.toClient - bytes }, .reading (nleft - bytes), v⟩
  | readAll {w : Wire} {v : ServerView} :
      Talk args ⟨w, .reading 0, v⟩ ⟨w, .closing, v⟩
  | hangUp {w : Wire} {v : ServerView} :
      Talk args ⟨w, .closing, v⟩ ⟨{ w with clientClosed := true }, .gone, v⟩
  | start {w : Wire} {c : ClientView} {v u : ServerView} {a b : Nat} :
      v.before = some a -> u.before = some b -> b < a -> Talk args ⟨w, c, v⟩ ⟨w, c, u⟩
  | fill {w : Wire} {c : ClientView} {line : List UInt8} {bytes : Nat} :
      0 < bytes -> bytes ≤ w.toServer.length ->
      Talk args ⟨w, c, .reading line []⟩
        ⟨{ w with toServer := w.toServer.drop bytes }, c,
          .reading line (w.toServer.take bytes)⟩
  | store {w : Wire} {c : ClientView} {line rest : List UInt8} {x : UInt8} :
      x ≠ newline ->
      Talk args ⟨w, c, .reading line (x :: rest)⟩ ⟨w, c, .reading (line ++ [x]) rest⟩
  | request {w : Wire} {c : ClientView} {line rest : List UInt8} {x : UInt8} :
      x = newline ∨ line.length + 1 = maxline - 1 ->
      Talk args ⟨w, c, .reading line (x :: rest)⟩
        ⟨w, c, .writing (size (line ++ [x])).toNat rest⟩
  | lastLine {w : Wire} {c : ClientView} {line : List UInt8} :
      w.toServer = [] -> w.clientClosed = true -> line ≠ [] ->
      Talk args ⟨w, c, .reading line []⟩ ⟨w, c, .writing (size line).toNat []⟩
  | endOfFile {w : Wire} {c : ClientView} :
      w.toServer = [] -> w.clientClosed = true ->
      Talk args ⟨w, c, .reading [] []⟩ ⟨w, c, .closing []⟩
  | reply {w : Wire} {c : ClientView} {nleft bytes : Nat} {ahead : List UInt8} :
      0 < bytes -> bytes ≤ nleft ->
      Talk args ⟨w, c, .writing nleft ahead⟩
        ⟨{ w with toClient := w.toClient + bytes }, c, .writing (nleft - bytes) ahead⟩
  | replied {w : Wire} {c : ClientView} {ahead : List UInt8} :
      Talk args ⟨w, c, .writing 0 ahead⟩ ⟨w, c, .reading [] ahead⟩
  | close {w : Wire} {c : ClientView} {ahead : List UInt8} :
      Talk args ⟨w, c, .closing ahead⟩ ⟨{ w with serverClosed := true }, c, .gone⟩

/-- The states that a connection goes through. -/
inductive Valid (args : Client) : Link -> Prop where
  | fresh {v : ServerView} : v.before.isSome = true -> Valid args ⟨{}, .writing, v⟩
  | asked {toServer : List UInt8} {left : Nat} {v : ServerView} :
      toServer = request args.nbytes -> left = args.nbytes -> v.before.isSome = true ->
      Valid args ⟨{ toServer := toServer }, .reading left, v⟩
  | asking {line ahead rest : List UInt8} {left : Nat} :
      line ++ (ahead ++ rest) = request args.nbytes -> newline ∉ line ->
      left = args.nbytes ->
      Valid args ⟨{ toServer := rest }, .reading left, .reading line ahead⟩
  | answering {toClient left nleft : Nat} : left = toClient + nleft ->
      Valid args ⟨{ toClient := toClient }, .reading left, .writing nleft []⟩
  | answered {left : Nat} :
      Valid args ⟨{ toClient := left }, .reading left, .reading [] []⟩
  | closing {v : ServerView} : v = .writing 0 [] ∨ v = .reading [] [] ->
      Valid args ⟨{}, .closing, v⟩
  | closed {v : ServerView} : v = .writing 0 [] ∨ v = .reading [] [] ∨ v = .closing [] ->
      Valid args ⟨{ clientClosed := true }, .gone, v⟩
  | gone : Valid args ⟨{ clientClosed := true, serverClosed := true }, .gone, .gone⟩

section Talking

variable {args : Client}

theorem rest_of_newline {line rest : List UInt8} {nbytes : Nat}
    (h : line ++ newline :: rest = request nbytes) :
    rest = [] ∧ line ++ [newline] = request nbytes := by
  have hrest : rest = [] := by
    rcases List.eq_nil_or_concat rest with hnil | ⟨front, x, hfront⟩
    · exact hnil
    · rw [List.concat_eq_append] at hfront
      rw [hfront, request, ← List.cons_append, ← List.append_assoc] at h
      have hdecimal := (List.append_inj' h rfl).1
      exact absurd (hdecimal ▸ List.mem_append_right _ List.mem_cons_self)
        (newline_not_mem_decimal nbytes)
  refine ⟨hrest, ?_⟩
  rw [hrest] at h
  exact h

theorem length_request_lt (hmax : args.nbytes ≤ maxn) :
    (request args.nbytes).length ≤ maxline - 1 := by
  have hlength := length_decimal_le hmax
  have hmaxline : maxline - 2 + 1 = maxline - 1 := rfl
  rw [request, List.length_append, List.length_singleton]
  lia

theorem newline_of_full (hmax : args.nbytes ≤ maxn) {line rest : List UInt8} {x : UInt8}
    (h : line ++ x :: rest = request args.nbytes)
    (hfull : x = newline ∨ line.length + 1 = maxline - 1) : x = newline := by
  rcases hfull with hx | hfull
  · exact hx
  · have hlength := length_request_lt hmax
    have hrest : rest = [] := by
      rw [← h, List.length_append, List.length_cons] at hlength
      exact List.eq_nil_of_length_eq_zero (by lia)
    rw [hrest, request] at h
    exact (List.cons.inj (List.append_inj' h rfl).2).1

theorem early_of_before {v : ServerView} {a : Nat} (h : v.before = some a) (ha : 0 < a) :
    v = .queued ∨ v = .unlocking ∨ v = .counting := by
  unfold ServerView.before at h
  split at h
  · exact Or.inl rfl
  · exact Or.inr (Or.inl rfl)
  · exact Or.inr (Or.inr rfl)
  · cases h
    cases ha
  · cases h

theorem not_before_ahead {line rest : List UInt8} {x : UInt8} :
    ¬ (ServerView.reading line (x :: rest)).before.isSome = true := by
  cases line <;> exact Bool.false_ne_true

theorem Valid.of_full (hmax : args.nbytes ≤ maxn) {w : Wire} {c : ClientView}
    {line rest : List UInt8} {x : UInt8} (h : Valid args ⟨w, c, .reading line (x :: rest)⟩)
    (hfull : x = newline ∨ line.length + 1 = maxline - 1) :
    size (line ++ [x]) = args.nbytes ∧ rest = [] ∧ w = {} ∧ c = .reading args.nbytes := by
  cases h with
  | fresh hbefore => cases not_before_ahead hbefore
  | asked _ _ hbefore => cases not_before_ahead hbefore
  | asking hline hmem hleft =>
      obtain rfl := newline_of_full hmax hline hfull
      rcases rest_of_newline hline with ⟨hrest, hrequest⟩
      rcases List.append_eq_nil_iff.mp hrest with ⟨hahead, rfl⟩
      rw [hrequest, size_request hmax, hleft]
      exact ⟨rfl, hahead, rfl, rfl⟩
  | closing hv => simp at hv
  | closed hv => simp at hv

theorem Valid.talk (hmin : 1 ≤ args.nbytes) (hmax : args.nbytes ≤ maxn) {l l' : Link}
    (hvalid : Valid args l) (h : Talk args l l') : Valid args l' := by
  cases h with
  | write =>
      cases hvalid with
      | fresh hbefore => exact .asked rfl rfl hbefore
  | read hpos hnleft hbytes =>
      cases hvalid with
      | asked _ _ _ => exact absurd hbytes (Nat.not_le.mpr hpos)
      | asking _ _ _ => exact absurd hbytes (Nat.not_le.mpr hpos)
      | answering hleft =>
          dsimp only at hbytes
          exact .answering (by lia)
      | answered => exact .answered
  | readAll =>
      cases hvalid with
      | asked _ hleft _ => lia
      | asking _ _ hleft => lia
      | @answering toClient _ nleft hleft =>
          obtain ⟨rfl, rfl⟩ : toClient = 0 ∧ nleft = 0 := by lia
          exact .closing (Or.inl rfl)
      | answered => exact .closing (Or.inr rfl)
  | hangUp =>
      cases hvalid with
      | closing hv =>
          rcases hv with hv | hv
          · exact .closed (Or.inl hv)
          · exact .closed (Or.inr (Or.inl hv))
  | start hv hu hlt =>
      rename_i u _ _
      have hbefore : u.before.isSome = true := by rw [hu]; rfl
      rcases early_of_before hv (by lia) with rfl | rfl | rfl <;> cases hvalid with
      | fresh _ => exact .fresh hbefore
      | asked htoServer hleft _ => exact .asked htoServer hleft hbefore
      | closing hv => simp at hv
      | closed hv => simp at hv
  | @fill _ _ line _ hpos hbytes =>
      cases hvalid with
      | fresh _ => exact absurd hbytes (Nat.not_le.mpr hpos)
      | asked htoServer hleft hbefore =>
          obtain rfl : line = [] := by
            cases line with
            | nil => rfl
            | cons _ _ => cases hbefore
          refine .asking ?_ List.not_mem_nil hleft
          rw [List.nil_append, List.take_append_drop]
          exact htoServer
      | asking hline hmem hleft =>
          refine .asking ?_ hmem hleft
          rw [List.take_append_drop]
          exact hline
      | answered => exact absurd hbytes (Nat.not_le.mpr hpos)
      | closing _ => exact absurd hbytes (Nat.not_le.mpr hpos)
      | closed _ => exact absurd hbytes (Nat.not_le.mpr hpos)
  | store hx =>
      cases hvalid with
      | fresh hbefore => cases not_before_ahead hbefore
      | asked _ _ hbefore => cases not_before_ahead hbefore
      | asking hline hmem hleft =>
          refine .asking ?_ ?_ hleft
          · rw [List.append_assoc]
            exact hline
          · rw [List.mem_append, List.mem_singleton]
            exact fun h => h.elim hmem (fun hnew => hx hnew.symm)
      | closing hv => simp at hv
      | closed hv => simp at hv
  | request hfull =>
      rcases hvalid.of_full hmax hfull with ⟨hsize, hrest, hw, hc⟩
      rw [hsize, Int.toNat_natCast, hrest, hw, hc]
      exact .answering (Nat.zero_add _).symm
  | lastLine _ hclosed hline =>
      cases hvalid with
      | closed hv => simp [hline] at hv
      | _ => cases hclosed
  | endOfFile _ hclosed =>
      cases hvalid with
      | closed _ => exact .closed (Or.inr (Or.inr rfl))
      | _ => cases hclosed
  | reply hpos hnleft =>
      cases hvalid with
      | fresh hbefore => cases hbefore
      | asked _ _ hbefore => cases hbefore
      | answering hleft => exact .answering (by dsimp only; lia)
      | closing hv =>
          simp only [ServerView.writing.injEq, reduceCtorEq, or_false] at hv
          lia
      | closed hv =>
          simp only [ServerView.writing.injEq, reduceCtorEq, or_false] at hv
          lia
  | replied =>
      cases hvalid with
      | fresh hbefore => cases hbefore
      | asked _ _ hbefore => cases hbefore
      | answering hleft =>
          rw [Nat.add_zero] at hleft
          subst hleft
          exact .answered
      | closing hv =>
          obtain rfl : _ = [] := by simpa using hv
          exact .closing (Or.inr rfl)
      | closed hv =>
          obtain rfl : _ = [] := by simpa using hv
          exact .closed (Or.inr (Or.inl rfl))
  | close =>
      cases hvalid with
      | fresh hbefore => cases hbefore
      | asked _ _ hbefore => cases hbefore
      | closing hv => simp at hv
      | closed hv => exact .gone

/-- The server does not close first. -/
theorem Valid.open_of_client {w : Wire} {c : ClientView} {v : ServerView}
    (h : Valid args ⟨w, c, v⟩) (hc : c ≠ .gone) : w.serverClosed = false := by
  cases h with
  | closed _ => exact absurd rfl hc
  | gone => exact absurd rfl hc
  | _ => rfl

theorem Valid.ahead_of_closing {w : Wire} {c : ClientView} {ahead : List UInt8}
    (h : Valid args ⟨w, c, .closing ahead⟩) : ahead = [] := by
  cases h with
  | fresh hbefore => cases hbefore
  | asked _ _ hbefore => cases hbefore
  | closing hv => simp at hv
  | closed hv => simpa using hv

theorem Valid.open_of_writing {w : Wire} {c : ClientView} {nleft : Nat} {ahead : List UInt8}
    (h : Valid args ⟨w, c, .writing nleft ahead⟩) (hnleft : 0 < nleft) :
    w.clientClosed = false := by
  cases h with
  | closed hv =>
      simp only [ServerView.writing.injEq, reduceCtorEq, or_false] at hv
      lia
  | _ => rfl

theorem Valid.line_of_closed {w : Wire} {c : ClientView} {line : List UInt8}
    (h : Valid args ⟨w, c, .reading line []⟩) (hclosed : w.clientClosed = true) :
    line = [] := by
  cases h with
  | closed hv => simpa using hv
  | _ => cases hclosed

end Talking

/-!
## The connections of a state
-/

theorem ClientPc.view_fd {pc : ClientPc} {fd : Nat} (h : pc.fd = some fd ∨ pc.fd = none) :
    pc.view fd = pc.look := by
  rw [ClientPc.view]
  split
  · rfl
  · rename_i hfd
    cases pc with
    | connect _ => rfl
    | done => rfl
    | quit _ => rfl
    | failed => rfl
    | _ => simp_all [ClientPc.fd]

theorem ClientPc.view_other {pc : ClientPc} {fd c : Nat}
    (h : pc.fd = some fd ∨ pc.fd = none) (hc : c ≠ fd) : pc.view c = .gone := by
  rw [ClientPc.view, if_neg]
  intro heq
  rcases h with h | h
  · rw [h] at heq
    exact hc (Option.some.inj heq).symm
  · rw [h] at heq
    cases heq

theorem ServerPc.view_connfd {pc : ServerPc} {connfd : Nat} (ahead : List UInt8)
    (h : pc.connfd = some connfd ∨ pc.connfd = none) :
    pc.view ahead connfd = pc.look ahead := by
  rw [ServerPc.view]
  split
  · rfl
  · rename_i hconnfd
    cases pc with
    | select => rfl
    | lock => rfl
    | accept => rfl
    | quit _ => rfl
    | brokenPipe => rfl
    | _ => simp_all [ServerPc.connfd]

theorem ServerPc.view_other {pc : ServerPc} {connfd c : Nat} (ahead : List UInt8)
    (h : pc.connfd = some connfd ∨ pc.connfd = none) (hc : c ≠ connfd) :
    pc.view ahead c = .gone := by
  rw [ServerPc.view, if_neg]
  intro heq
  rcases h with h | h
  · rw [h] at heq
    exact hc (Option.some.inj heq).symm
  · rw [h] at heq
    cases heq

structure ClientTurn (s t : State m n) (i : Fin m) (fd : Nat) (w : Wire) (pc : ClientPc) :
    Prop where
  client : t.client = Function.update s.client i pc
  wire : t.wire = Function.update s.wire fd w
  peer : t.peer = Function.update s.peer fd (some i)
  owner : forall c, c ≠ fd -> t.owner c = s.owner c
  server : t.server = s.server
  ahead : t.ahead = s.ahead
  before : (s.client i).fd = some fd ∨ (s.client i).fd = none
  after : pc.fd = some fd ∨ pc.fd = none

structure ServerTurn (s t : State m n) (i : Fin n) (connfd : Nat) (w : Wire)
    (ahead : List UInt8) (pc : ServerPc) : Prop where
  server : t.server = Function.update s.server i pc
  wire : t.wire = Function.update s.wire connfd w
  ahead : t.ahead = Function.update s.ahead i ahead
  owner : t.owner = Function.update s.owner connfd (some i)
  peer : t.peer = s.peer
  client : t.client = s.client
  made : t.made = s.made
  before : (s.server i).connfd = some connfd ∨ (s.server i).connfd = none
  after : pc.connfd = some connfd ∨ pc.connfd = none

section Turns

variable {fd connfd c : Nat} {w : Wire} {ahead : List UInt8}

theorem ClientTurn.link_fd {i : Fin m} {pc : ClientPc} (h : ClientTurn s t i fd w pc) :
    t.link fd = ⟨w, pc.look, t.serverView fd⟩ := by
  simp only [State.link, State.clientView, h.wire, h.peer, h.client, Function.update_self,
    ClientPc.view_fd h.after]

theorem ClientTurn.link_other {i : Fin m} {pc : ClientPc} (h : ClientTurn s t i fd w pc)
    (hc : c ≠ fd) : t.link c = s.link c := by
  have hview : forall j, (t.client j).view c = (s.client j).view c := by
    intro j
    by_cases hj : j = i
    · subst hj
      rw [h.client, Function.update_self, ClientPc.view_other h.after hc,
        ClientPc.view_other h.before hc]
    · rw [h.client, Function.update_of_ne hj]
  simp only [State.link, State.clientView, State.serverView, hview, h.wire, h.peer,
    h.owner c hc, h.server, h.ahead, Function.update_of_ne hc]

theorem ServerTurn.link_connfd {i : Fin n} {pc : ServerPc}
    (h : ServerTurn s t i connfd w ahead pc) :
    t.link connfd = ⟨w, s.clientView connfd, pc.look ahead⟩ := by
  simp only [State.link, State.clientView, State.serverView, h.wire, h.peer, h.owner,
    h.client, h.server, h.ahead, Function.update_self,
    ServerPc.view_connfd ahead h.after]

theorem ServerTurn.link_other {i : Fin n} {pc : ServerPc}
    (h : ServerTurn s t i connfd w ahead pc) (hc : c ≠ connfd) : t.link c = s.link c := by
  have hview : forall j, (t.server j).view (t.ahead j) c = (s.server j).view (s.ahead j) c := by
    intro j
    by_cases hj : j = i
    · subst hj
      rw [h.server, h.ahead, Function.update_self, Function.update_self,
        ServerPc.view_other _ h.after hc, ServerPc.view_other _ h.before hc]
    · rw [h.server, h.ahead, Function.update_of_ne hj, Function.update_of_ne hj]
  simp only [State.link, State.clientView, State.serverView, hview, h.wire, h.peer, h.owner,
    h.client, Function.update_of_ne hc]

end Turns

end Exchange
end PracticeHand
