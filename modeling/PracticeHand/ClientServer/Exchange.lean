import Mathlib.Logic.Function.Basic
import PracticeHand.ClientServer.WebChild
import PracticeHand.Concurrency.Runs

/-!
# The test client and the servers it tests

`client.c` forks children that connect, write a request, read the reply and
close, over and over.  On the other side stand the loops of `serv00.c`,
`child02.c` to `child04.c`, `pthread07.c` and `pthread09.c`: accept a
connection, call `web_child` for it, close it.

A connection is two streams.  What the client has written waits until the server
reads it; of the replies only the number of bytes matters, since `result` is never
filled in.  The kernel completes connections up to the backlog without help of
the server, and delivers any part of what is there to a `read`.  System calls are
not interrupted, and they fail only where the server has gone: a connection that
it has closed may be reset, and once its only process has ended all its connections
are closed and new ones are refused.
-/

namespace PracticeHand
namespace Exchange

open Concurrency
open WebChild
open Readline

/-!
## The two programs
-/

/-- The last two arguments of the client, as long as they are not negative. -/
structure Client where
  nloops : Nat
  nbytes : Nat

/-- The loops around `accept` differ in what they do before and after it, in whether
the whole server is one process, and in how much `readline` asks for with one `read`. -/
structure Loop where
  selects : Bool := false
  locks : Bool := false
  counts : Bool := false
  oneProcess : Bool := false
  chunk : Nat

def serv00 : Loop := { oneProcess := true, chunk := maxline }
def child02 : Loop := { chunk := maxline }
def child02l : Loop := { selects := true, chunk := maxline }
def child02m : Loop := { counts := true, chunk := maxline }
def child03 : Loop := { locks := true, chunk := maxline }
def child03m : Loop := { locks := true, counts := true, chunk := maxline }
def child04 : Loop := { locks := true, chunk := maxline }
def pthread07 : Loop := { locks := true, counts := true, oneProcess := true, chunk := 1 }
def pthread09 : Loop := { counts := true, oneProcess := true, chunk := 1 }

/-- How many connections wait for `accept` at most, and how many bytes of a reply
for the client. -/
structure Kernel where
  backlog : Nat
  room : Nat

/-- Locations of a child of the client; `j` counts its loops and `fd` is the
connection. -/
inductive ClientPc where
  | connect (j : Nat)
  | write (j fd : Nat)
  | readn (j fd nleft : Nat)
  | close (j fd : Nat)
  | done
  | quit (n : Nat)
  | failed
  deriving DecidableEq

inductive ServerPc where
  | select
  | lock
  | accept
  | unlock (connfd : Nat)
  | count (connfd : Nat)
  | readline (connfd : Nat) (line : List UInt8)
  | writen (connfd nleft : Nat)
  | close (connfd : Nat)
  | quit (ntowrite : Int)
  | brokenPipe
  deriving DecidableEq

def Loop.top (loop : Loop) : ServerPc :=
  if loop.selects then .select else if loop.locks then .lock else .accept

def Loop.selected (loop : Loop) : ServerPc :=
  if loop.locks then .lock else .accept

def Loop.unlocked (loop : Loop) (connfd : Nat) : ServerPc :=
  if loop.counts then .count connfd else .readline connfd []

def Loop.accepted (loop : Loop) (connfd : Nat) : ServerPc :=
  if loop.locks then .unlock connfd else loop.unlocked connfd

/-- A connection: the bytes on their way to the server, how many are on their way
to the client, and which side has closed it. -/
structure Wire where
  toServer : List UInt8 := []
  toClient : Nat := 0
  clientClosed : Bool := false
  serverClosed : Bool := false
  deriving DecidableEq

structure State (m n : Nat) where
  client : Fin m -> ClientPc
  server : Fin n -> ServerPc
  -- what the static variables of `readline` hold, for each child
  ahead : Fin n -> List UInt8
  -- the file lock or the mutex
  holder : Option (Fin n)
  -- `cptr` or `thread_count`
  count : Fin n -> Nat
  made : Nat
  pending : List Nat
  -- the only process of the server has ended
  down : Bool
  wire : Nat -> Wire
  -- who has made a connection and who has accepted it; no step reads these two
  peer : Nat -> Option (Fin m)
  owner : Nat -> Option (Fin n)

/-- The last argument is what a `read` or a `write` returns, if it can choose. -/
inductive Action (m n : Nat) where
  | client (i : Fin m) (bytes : Nat)
  | reset (i : Fin m)
  | server (i : Fin n) (bytes : Nat)

variable {m n : Nat}

def State.goClient (s : State m n) (i : Fin m) (pc : ClientPc) : State m n :=
  { s with client := Function.update s.client i pc }

def State.goServer (s : State m n) (i : Fin n) (pc : ServerPc) : State m n :=
  { s with server := Function.update s.server i pc }

def State.setWire (s : State m n) (fd : Nat) (w : Wire) : State m n :=
  { s with wire := Function.update s.wire fd w }

def State.setAhead (s : State m n) (i : Fin n) (bytes : List UInt8) : State m n :=
  { s with ahead := Function.update s.ahead i bytes }

def State.exitClient (s : State m n) (i : Fin m) (fd : Nat) (pc : ClientPc) : State m n :=
  (s.setWire fd { s.wire fd with clientClosed := true }).goClient i pc

/-- A process of the server ends, and with it all its connections are closed. -/
def State.exitServer (s : State m n) (loop : Loop) (i : Fin n) (connfd : Nat)
    (pc : ServerPc) : State m n :=
  if loop.oneProcess then
    { s with
      down := true
      wire := fun c => { s.wire c with serverClosed := true } }.goServer i pc
  else (s.setWire connfd { s.wire connfd with serverClosed := true }).goServer i pc

def State.connect (s : State m n) (i : Fin m) : State m n :=
  { s with
    made := s.made + 1
    pending := s.pending ++ [s.made]
    wire := Function.update s.wire s.made {}
    peer := Function.update s.peer s.made (some i)
    owner := Function.update s.owner s.made none }

def clientStep (args : Client) (kernel : Kernel) (s : State m n) (i : Fin m)
    (bytes : Nat) : Option (State m n) :=
  match s.client i with
  | .connect j =>
      if j < args.nloops then
        if s.down then some (s.goClient i .failed)
        else if s.pending.length < kernel.backlog then
          some ((s.connect i).goClient i (.write j s.made))
        else none
      else some (s.goClient i .done)
  | .write j fd =>
      let w := s.wire fd
      some ((s.setWire fd { w with
        toServer := w.toServer ++ request args.nbytes }).goClient i (.readn j fd args.nbytes))
  | .readn j fd nleft =>
      let w := s.wire fd
      if nleft = 0 then some (s.goClient i (.close j fd))
      else if w.toClient = 0 then
        if w.serverClosed then some (s.exitClient i fd (.quit (args.nbytes - nleft)))
        else none
      else if 0 < bytes ∧ bytes ≤ nleft ∧ bytes ≤ w.toClient then
        some ((s.setWire fd { w with
          toClient := w.toClient - bytes }).goClient i (.readn j fd (nleft - bytes)))
      else none
  | .close j fd =>
      some ((s.setWire fd { s.wire fd with
        clientClosed := true }).goClient i (.connect (j + 1)))
  | .done => none
  | .quit _ => none
  | .failed => none

/-- A call of the client fails on a connection that the server has closed. -/
def resetStep (s : State m n) (i : Fin m) : Option (State m n) :=
  match s.client i with
  | .write _ fd | .readn _ fd _ =>
      if (s.wire fd).serverClosed then some (s.exitClient i fd .failed) else none
  | _ => none

def examine (loop : Loop) (s : State m n) (i : Fin n) (connfd : Nat) (line : List UInt8) :
    State m n :=
  if size line ≤ 0 ∨ maxn < size line then s.exitServer loop i connfd (.quit (size line))
  else s.goServer i (.writen connfd (size line).toNat)

def store (loop : Loop) (s : State m n) (i : Fin n) (connfd : Nat) (line : List UInt8)
    (c : UInt8) : State m n :=
  if c = newline ∨ line.length + 1 = maxline - 1 then
    examine loop s i connfd (line ++ [c])
  else s.goServer i (.readline connfd (line ++ [c]))

/-- `readline` at the end of file; `web_child` returns when nothing was read. -/
def endOfFile (loop : Loop) (s : State m n) (i : Fin n) (connfd : Nat) (line : List UInt8) :
    State m n :=
  if line = [] then s.goServer i (.close connfd) else examine loop s i connfd line

def serverStep (loop : Loop) (kernel : Kernel) (s : State m n) (i : Fin n)
    (bytes : Nat) : Option (State m n) :=
  match s.server i with
  | .select => if s.pending = [] then none else some (s.goServer i loop.selected)
  | .lock =>
      if s.holder = none then some ({ s with holder := some i }.goServer i .accept) else none
  | .accept =>
      match s.pending with
      | [] => none
      | connfd :: rest =>
          some ({ s with
            pending := rest
            owner := Function.update s.owner connfd (some i) }.goServer i
              (loop.accepted connfd))
  | .unlock connfd => some ({ s with holder := none }.goServer i (loop.unlocked connfd))
  | .count connfd =>
      some ({ s with
        count := Function.update s.count i (s.count i + 1) }.goServer i (.readline connfd []))
  | .readline connfd line =>
      let w := s.wire connfd
      match s.ahead i with
      | c :: rest => some (store loop (s.setAhead i rest) i connfd line c)
      | [] =>
          if w.toServer = [] then
            if w.clientClosed then some (endOfFile loop s i connfd line) else none
          else if 0 < bytes ∧ bytes ≤ loop.chunk ∧ bytes ≤ w.toServer.length then
            some ((s.setWire connfd { w with
              toServer := w.toServer.drop bytes }).setAhead i (w.toServer.take bytes))
          else none
  | .writen connfd nleft =>
      let w := s.wire connfd
      if nleft = 0 then some (s.goServer i (.readline connfd []))
      else if w.clientClosed then some (s.exitServer loop i connfd .brokenPipe)
      else if 0 < bytes ∧ bytes ≤ nleft ∧ w.toClient + bytes ≤ kernel.room then
        some ((s.setWire connfd { w with
          toClient := w.toClient + bytes }).goServer i (.writen connfd (nleft - bytes)))
      else none
  | .close connfd =>
      some ((s.setWire connfd { s.wire connfd with
        serverClosed := true }).goServer i loop.top)
  | .quit _ => none
  | .brokenPipe => none

def start (m n : Nat) (loop : Loop) : State m n where
  client _ := .connect 0
  server _ := loop.top
  ahead _ := []
  holder := none
  count _ := 0
  made := 0
  pending := []
  down := false
  wire _ := {}
  peer _ := none
  owner _ := none

def exchange (m n : Nat) (args : Client) (loop : Loop) (kernel : Kernel) :
    System (State m n) (Action m n) where
  Init s := s = start m n loop
  step s a :=
    match a with
    | .client i bytes => clientStep args kernel s i bytes
    | .reset i => resetStep s i
    | .server i bytes => if s.down then none else serverStep loop kernel s i bytes

end Exchange
end PracticeHand
