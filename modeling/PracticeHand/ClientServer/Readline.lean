import Mathlib.Algebra.Group.Nat.Defs
import PracticeHand.Streams.Lines

/-!
# The readers of request lines

Three functions read a line: `readline` of `client_server/readline.c`, which
calls `read` for every byte, `readline_r` of `client_server/readline_r.c`, which
keeps its buffer in an `Rline`, and the `readline` of `libunp`, which keeps it
in static variables.  Their loops differ in how they get a byte, in the type of
the counter and in what they do at the end of file.
-/

namespace PracticeHand
namespace Readline

open Streams

abbrev Buffer := Nat -> UInt8

def newline : UInt8 := 10

/-- `MAXLINE` of `unp.h`. -/
def maxline : Nat := 4096

def ssizeMax : Nat := 2 ^ 63 - 1

def intMax : Nat := 2 ^ 31 - 1

/-- What a call returns and leaves behind: the caller's buffer and the reader. -/
structure Call (state : Type) where
  result : Int
  line : Buffer
  next : state

section Loop

variable {state : Type}

/-- The loop with `rounds = maxlen - n` rounds to go.  `n++` on the largest value
`top` of the counter's type is undefined, which is `none` here. -/
def readLoop (get : state -> Got UInt8 × state)
    (atEof : Nat -> Nat -> Buffer -> Int × Buffer) (top : Nat) :
    Nat -> Nat -> Nat -> Buffer -> state -> Option (Call state)
  | 0, n, ptr, line, s => some ⟨n, Function.update line ptr 0, s⟩
  | rounds + 1, n, ptr, line, s =>
      match get s with
      | (.one c, s) =>
          if c = newline then
            some ⟨n, Function.update (Function.update line ptr c) (ptr + 1) 0, s⟩
          else if n = top then
            none
          else
            readLoop get atEof top rounds (n + 1) (ptr + 1) (Function.update line ptr c) s
      | (.zero, s) => some ⟨(atEof n ptr line).1, (atEof n ptr line).2, s⟩
      | (.error, s) => some ⟨-1, line, s⟩

/-- `client_server`: no data read, or some data was read. -/
def eofBreak (n ptr : Nat) (line : Buffer) : Int × Buffer :=
  if n = 1 then (0, line) else (n, Function.update line ptr 0)

/-- `libunp`: `n - 1` bytes were read. -/
def eofReturn (n ptr : Nat) (line : Buffer) : Int × Buffer :=
  ((n : Int) - 1, Function.update line ptr 0)

end Loop

/-!
## A call of `read` for every byte
-/

def readOne (s : Source UInt8) : Got UInt8 × Source UInt8 :=
  match s.read 1 with
  | (.stored [c], s) => (.one c, s)
  | (.stored [], s) => (.zero, s)
  | (_, s) => (.error, s)

def readline (line : Buffer) (maxlen : Nat) (s : Source UInt8) :
    Option (Call (Source UInt8)) :=
  readLoop readOne eofBreak ssizeMax (maxlen - 1) 1 0 line s

theorem readOne_follows : Follows readOne (Source.tape false) where
  one := by
    intro s x xs fails hs
    cases s with
    | nil => cases hs
    | cons event s =>
        cases event with
        | data first others =>
            cases hs
            exact ⟨Source.putBack others s, rfl, Source.tape_putBack false others s⟩
        | interrupted => cases hs
        | failed => cases hs
  zero := by
    intro s hs
    cases s with
    | nil => exact ⟨[], rfl, rfl⟩
    | cons event s => cases event <;> cases hs
  error := by
    intro s hs
    cases s with
    | nil => cases hs
    | cons event s =>
        cases event with
        | data first others => cases hs
        | interrupted => exact ⟨s, rfl⟩
        | failed => exact ⟨s, rfl⟩

/-!
## Reading ahead into a buffer
-/

/-- `rl_cnt`, `rl_bufptr` and `rl_buf`; the static variables of `libunp`. -/
structure Ahead where
  cnt : Int := 0
  ptr : Nat := 0
  buf : Buffer := fun _ => 0

namespace Ahead

/-- The call of `read` at `again`, repeated while it is interrupted. -/
def again (size : Nat) : Source UInt8 -> ReadResult UInt8 × Source UInt8
  | .interrupted :: s => again size s
  | s => s.read size

def filled (a : Ahead) (bytes : List UInt8) : Ahead :=
  { cnt := bytes.length, ptr := 0, buf := write a.buf 0 bytes }

def handOut (mask : UInt8 -> UInt8) (a : Ahead) (s : Source UInt8) :
    Got UInt8 × (Ahead × Source UInt8) :=
  (.one (mask (a.buf a.ptr)), ({ a with cnt := a.cnt - 1, ptr := a.ptr + 1 }, s))

def get (mask : UInt8 -> UInt8) : Ahead × Source UInt8 -> Got UInt8 × (Ahead × Source UInt8)
  | (a, s) =>
      if a.cnt ≤ 0 then
        match again maxline s with
        | (.stored [], s) => (.zero, ({ a with cnt := 0 }, s))
        | (.stored (c :: bytes), s) => (a.filled (c :: bytes)).handOut mask s
        | (_, s) => (.error, ({ a with cnt := -1 }, s))
      else
        a.handOut mask s

def pending (a : Ahead) : List UInt8 :=
  slice a.buf a.ptr a.cnt.toNat

def tape (r : Ahead × Source UInt8) : Tape UInt8 :=
  Tape.append r.1.pending (r.2.tape true)

end Ahead

/-- `my_read` of `libunp` -/
def myRead : Ahead × Source UInt8 -> Got UInt8 × (Ahead × Source UInt8) :=
  Ahead.get id

/-- `readline` of `libunp` -/
def libReadline (line : Buffer) (maxlen : Nat) (r : Ahead × Source UInt8) :
    Option (Call (Ahead × Source UInt8)) :=
  readLoop myRead eofReturn ssizeMax (maxlen - 1) 1 0 line r

/-- The caller's buffer and descriptor are passed beside the `Rline`. -/
structure Rline where
  readMaxlen : Nat
  rl : Ahead

def myReadR (r : Rline × Source UInt8) : Got UInt8 × (Rline × Source UInt8) :=
  match Ahead.get (fun c => c &&& 255) (r.1.rl, r.2) with
  | (got, rl, s) => (got, ({ r.1 with rl := rl }, s))

def readlineRinit (maxlen : Nat) (r : Rline) : Rline :=
  { readMaxlen := maxlen, rl := { r.rl with cnt := 0, ptr := 0 } }

def readlineR (line : Buffer) (r : Rline × Source UInt8) :
    Option (Call (Rline × Source UInt8)) :=
  readLoop myReadR eofBreak intMax (r.1.readMaxlen - 1) 1 0 line r

namespace Ahead

theorem again_data {size : Nat} (hsize : 0 < size) {x : UInt8} {xs : List UInt8}
    {fails : Bool} (s : Source UInt8) (hs : s.tape true = ⟨x :: xs, fails⟩) :
    exists others next, again size s = (.stored (x :: others), next) ∧
      Tape.append others (next.tape true) = ⟨xs, fails⟩ := by
  induction s with
  | nil => cases hs
  | cons event s ih =>
      cases event with
      | data first others =>
          cases hs
          cases size with
          | zero => cases hsize
          | succ size =>
              refine ⟨others.take size, Source.putBack (others.drop size) s, rfl, ?_⟩
              rw [Source.tape_putBack, Tape.append_append, List.take_append_drop]
              rfl
      | interrupted => exact ih hs
      | failed => cases hs

theorem again_eof (size : Nat) (s : Source UInt8) (hs : s.tape true = ⟨[], false⟩) :
    again size s = (.stored [], []) := by
  induction s with
  | nil => rfl
  | cons event s ih =>
      cases event with
      | data first others => cases hs
      | interrupted => exact ih hs
      | failed => cases hs

theorem again_error (size : Nat) (s : Source UInt8) (hs : s.tape true = ⟨[], true⟩) :
    exists next, again size s = (.failed, next) := by
  induction s with
  | nil => cases hs
  | cons event s ih =>
      cases event with
      | data first others => cases hs
      | interrupted => exact ih hs
      | failed => exact ⟨s, rfl⟩

theorem pending_eq_nil_iff {a : Ahead} : a.pending = [] <-> a.cnt ≤ 0 := by
  rw [pending, ← Int.toNat_eq_zero]
  cases a.cnt.toNat with
  | zero => simp [slice]
  | succ m => simp [slice]

theorem tape_values_nil {a : Ahead} {s : Source UInt8} {fails : Bool}
    (h : tape (a, s) = ⟨[], fails⟩) : a.pending = [] ∧ s.tape true = ⟨[], fails⟩ := by
  simp only [tape, Tape.append, Tape.mk.injEq, List.append_eq_nil_iff] at h
  rcases h with ⟨⟨hpending, hvalues⟩, hfails⟩
  refine ⟨hpending, ?_⟩
  cases htape : s.tape true with
  | mk values f =>
      rw [htape] at hvalues hfails
      rw [show values = [] from hvalues, show f = fails from hfails]

theorem pending_filled (a : Ahead) (bytes : List UInt8) :
    (a.filled bytes).pending = bytes := by
  simpa only [pending, filled, Int.toNat_natCast] using slice_write bytes a.buf 0

theorem handOut_pending {mask : UInt8 -> UInt8} (hmask : forall c, mask c = c)
    {a : Ahead} {x : UInt8} {xs : List UInt8} (s : Source UInt8)
    (h : a.pending = x :: xs) :
    exists b : Ahead, a.handOut mask s = (.one x, (b, s)) ∧ b.pending = xs := by
  rw [pending] at h
  cases hcnt : a.cnt.toNat with
  | zero =>
      rw [hcnt] at h
      cases h
  | succ m =>
      have hless : (a.cnt - 1).toNat = m := by lia
      rw [hcnt, slice, List.cons.injEq] at h
      refine ⟨{ a with cnt := a.cnt - 1, ptr := a.ptr + 1 }, ?_, ?_⟩
      · rw [handOut, hmask, h.1]
      · rw [pending, hless]
        exact h.2

/-- Reading ahead is invisible: what is pending comes before what is to come. -/
theorem get_follows {mask : UInt8 -> UInt8} (hmask : forall c, mask c = c) :
    Follows (get mask) tape where
  one := by
    intro hparts x xs fails hs
    rcases hparts with ⟨a, s⟩
    simp only [tape] at hs
    cases hpending : a.pending with
    | nil =>
        rw [hpending, Tape.append_nil] at hs
        rcases again_data (by decide : 0 < maxline) s hs with ⟨others, next, hagain, hnext⟩
        rcases handOut_pending hmask next (pending_filled a (x :: others)) with ⟨b, hout, hb⟩
        refine ⟨(b, next), ?_, ?_⟩
        · rw [get, if_pos (pending_eq_nil_iff.mp hpending), hagain]
          exact hout
        · rw [tape, hb]
          exact hnext
    | cons y ys =>
        rw [hpending, Tape.append_cons, Tape.mk.injEq, List.cons.injEq] at hs
        rcases hs with ⟨⟨rfl, hxs⟩, hfails⟩
        rcases handOut_pending hmask s hpending with ⟨b, hout, hb⟩
        refine ⟨(b, s), ?_, ?_⟩
        · rw [get, if_neg, hout]
          rw [← pending_eq_nil_iff, hpending]
          exact List.cons_ne_nil y ys
        · rw [tape, hb, ← hxs, ← hfails]
  zero := by
    intro hparts hs
    rcases hparts with ⟨a, s⟩
    rcases tape_values_nil hs with ⟨hpending, htape⟩
    refine ⟨({ a with cnt := 0 }, []), ?_, rfl⟩
    rw [get, if_pos (pending_eq_nil_iff.mp hpending), again_eof maxline s htape]
  error := by
    intro hparts hs
    rcases hparts with ⟨a, s⟩
    rcases tape_values_nil hs with ⟨hpending, htape⟩
    rcases again_error maxline s htape with ⟨next, hagain⟩
    refine ⟨({ a with cnt := -1 }, next), ?_⟩
    rw [get, if_pos (pending_eq_nil_iff.mp hpending), hagain]

end Ahead

theorem myRead_follows : Follows myRead Ahead.tape :=
  Ahead.get_follows (fun _ => rfl)

def Rline.tape (r : Rline × Source UInt8) : Tape UInt8 :=
  Ahead.tape (r.1.rl, r.2)

theorem myReadR_follows : Follows myReadR Rline.tape := by
  -- the mask is there for platforms whose `char` is wider than a byte
  have hmask : forall c : UInt8, c &&& 255 = c := fun c => UInt8.and_neg_one
  have h := Ahead.get_follows hmask
  constructor
  · intro r x xs fails hr
    rcases h.one (r.1.rl, r.2) x xs fails hr with ⟨next, hget, htape⟩
    exact ⟨({ r.1 with rl := next.1 }, next.2), by rw [myReadR, hget], htape⟩
  · intro r hr
    rcases h.zero (r.1.rl, r.2) hr with ⟨next, hget, htape⟩
    exact ⟨({ r.1 with rl := next.1 }, next.2), by rw [myReadR, hget], htape⟩
  · intro r hr
    rcases h.error (r.1.rl, r.2) hr with ⟨next, hget⟩
    exact ⟨({ r.1 with rl := next.1 }, next.2), by rw [myReadR, hget]⟩

theorem myReadR_readMaxlen (r : Rline × Source UInt8) :
    (myReadR r).2.1.readMaxlen = r.1.readMaxlen := rfl

/-!
## The loop depends on the tape only
-/

section Loop

variable {state : Type} {get : state -> Got UInt8 × state}
  {atEof : Nat -> Nat -> Buffer -> Int × Buffer} {top : Nat}

/-- The same result and buffer, and, but for an error, the same tape to go on with. -/
structure Call.Agrees (tape : state -> Tape UInt8) (c : Call state)
    (d : Call (Tape UInt8)) : Prop where
  result : c.result = d.result
  line : c.line = d.line
  next : 0 ≤ c.result -> tape c.next = d.next

theorem readLoop_follows {tape : state -> Tape UInt8} (hget : Follows get tape)
    (rounds : Nat) : forall (n ptr : Nat) (line : Buffer) (s : state),
    Option.Rel (Call.Agrees tape) (readLoop get atEof top rounds n ptr line s)
      (readLoop Tape.get atEof top rounds n ptr line (tape s)) := by
  induction rounds with
  | zero =>
      intro n ptr line s
      exact .some ⟨rfl, rfl, fun _ => rfl⟩
  | succ rounds ih =>
      intro n ptr line s
      rcases htape : tape s with ⟨values, fails⟩
      cases values with
      | cons x xs =>
          rcases hget.one s x xs fails htape with ⟨next, hs, hnext⟩
          simp only [readLoop, hs, Tape.get]
          split
          · exact .some ⟨rfl, rfl, fun _ => hnext⟩
          · split
            · exact .none
            · rw [← hnext]
              exact ih _ _ _ next
      | nil =>
          cases fails with
          | false =>
              rcases hget.zero s htape with ⟨next, hs, hnext⟩
              simp only [readLoop, hs, Tape.get]
              exact .some ⟨rfl, rfl, fun _ => hnext⟩
          | true =>
              rcases hget.error s htape with ⟨next, hs⟩
              simp only [readLoop, hs, Tape.get]
              refine .some ⟨rfl, rfl, fun hneg => ?_⟩
              exact absurd hneg (show ¬ (0 : Int) ≤ -1 by decide)

theorem readLoop_keeps {P : state -> Prop} (hget : forall s, P s -> P (get s).2)
    (rounds : Nat) : forall {n ptr : Nat} {line : Buffer} {s : state} {c : Call state},
    readLoop get atEof top rounds n ptr line s = some c -> P s -> P c.next := by
  induction rounds with
  | zero =>
      intro n ptr line s c h hs
      cases h
      exact hs
  | succ rounds ih =>
      intro n ptr line s c h hs
      have hnext := hget s hs
      rw [readLoop] at h
      rcases hgot : get s with ⟨got, next⟩
      rw [hgot] at h hnext
      cases got with
      | one x =>
          dsimp only at h
          split at h
          · cases h
            exact hnext
          · split at h
            · cases h
            · exact ih h hnext
      | zero =>
          cases h
          exact hnext
      | error =>
          cases h
          exact hnext

def increments (line : List UInt8) : Nat :=
  if newline ∈ line then line.length - 1 else line.length

theorem increments_cons {x : UInt8} (hx : x ≠ newline) (line : List UInt8) :
    increments (x :: line) = increments line + 1 := by
  unfold increments
  by_cases hline : newline ∈ line
  · have hpos := List.length_pos_of_mem hline
    rw [if_pos (List.mem_cons_of_mem x hline), if_pos hline, List.length_cons]
    lia
  · rw [if_neg (by simp [hline, Ne.symm hx]), if_neg hline, List.length_cons]

/-- The call on a tape in closed form.  `line` is what the call stores. -/
def tapeCall (atEof : Nat -> Nat -> Buffer -> Int × Buffer) (top rounds n ptr : Nat)
    (buffer : Buffer) (t : Tape UInt8) : Option (Call (Tape UInt8)) :=
  let line := cut newline rounds t.values
  let stored := write buffer ptr line
  let count := n + increments line
  if top < count then
    none
  else if newline ∈ line ∨ rounds ≤ t.values.length then
    some ⟨count, Function.update stored (ptr + line.length) 0,
      ⟨t.values.drop line.length, t.fails⟩⟩
  else if t.fails then
    some ⟨-1, stored, ⟨[], true⟩⟩
  else
    some ⟨(atEof count (ptr + line.length) stored).1,
      (atEof count (ptr + line.length) stored).2, ⟨[], false⟩⟩

theorem readLoop_tape (rounds : Nat) : forall (n ptr : Nat) (buffer : Buffer)
    (t : Tape UInt8), n ≤ top ->
    readLoop Tape.get atEof top rounds n ptr buffer t =
      tapeCall atEof top rounds n ptr buffer t := by
  induction rounds with
  | zero =>
      intro n ptr buffer t hn
      simp [readLoop, tapeCall, increments, write, hn]
  | succ rounds ih =>
      intro n ptr buffer hparts hn
      rcases hparts with ⟨values, fails⟩
      cases values with
      | nil =>
          cases fails <;> simp [readLoop, tapeCall, Tape.get, increments, write, hn]
      | cons x xs =>
          by_cases hx : x = newline
          · subst hx
            simp [readLoop, tapeCall, Tape.get, cut_newline, increments, write, hn]
          · rw [readLoop]
            simp only [Tape.get, if_neg hx]
            split
            · rename_i htop
              simp only [tapeCall, cut_cons rounds xs hx, increments_cons hx]
              rw [if_pos (by lia)]
            · rename_i htop
              rw [ih _ _ _ _ (by lia)]
              simp only [tapeCall, cut_cons rounds xs hx, increments_cons hx, write,
                List.length_cons, List.mem_cons, Ne.symm hx, false_or,
                Nat.add_le_add_iff_right, List.drop_succ_cons]
              rw [show n + 1 + increments (cut newline rounds xs) =
                  n + (increments (cut newline rounds xs) + 1) by lia,
                show ptr + 1 + (cut newline rounds xs).length =
                  ptr + ((cut newline rounds xs).length + 1) by lia]

/-- A call on a reader that follows a tape is the call on the tape. -/
theorem readLoop_of_tapeCall {tape : state -> Tape UInt8} (hget : Follows get tape)
    {rounds n ptr : Nat} (hn : n ≤ top) {buffer : Buffer} {s : state} {d : Call (Tape UInt8)}
    (hd : tapeCall atEof top rounds n ptr buffer (tape s) = some d) :
    exists c, readLoop get atEof top rounds n ptr buffer s = some c ∧ Call.Agrees tape c d := by
  have hrel : Option.Rel (Call.Agrees tape) (readLoop get atEof top rounds n ptr buffer s)
      (readLoop Tape.get atEof top rounds n ptr buffer (tape s)) :=
    readLoop_follows hget rounds n ptr buffer s
  rw [readLoop_tape _ _ _ _ _ hn, hd] at hrel
  generalize readLoop get atEof top rounds n ptr buffer s = left at hrel
  cases hrel with
  | some hagrees => exact ⟨_, rfl, hagrees⟩

theorem increments_of_mem {line : List UInt8} (h : newline ∈ line) :
    increments line + 1 = line.length := by
  have hpos := List.length_pos_of_mem h
  rw [increments, if_pos h]
  lia

theorem increments_of_not_mem {line : List UInt8} (h : newline ∉ line) :
    increments line = line.length := by
  rw [increments, if_neg h]

variable {rounds n ptr : Nat} {buffer : Buffer} {t : Tape UInt8}

theorem tapeCall_of_short (hmem : newline ∉ t.values) (hshort : t.values.length < rounds) :
    tapeCall atEof top rounds n ptr buffer t =
      if top < n + t.values.length then
        none
      else if t.fails then
        some ⟨-1, write buffer ptr t.values, ⟨[], true⟩⟩
      else
        some ⟨(atEof (n + t.values.length) (ptr + t.values.length)
            (write buffer ptr t.values)).1,
          (atEof (n + t.values.length) (ptr + t.values.length)
            (write buffer ptr t.values)).2, ⟨[], false⟩⟩ := by
  have hleave : ¬ (newline ∈ t.values ∨ rounds ≤ t.values.length) := by
    intro hcases
    rcases hcases with h | h
    · exact hmem h
    · exact Nat.lt_irrefl _ (Nat.lt_of_lt_of_le hshort h)
  simp only [tapeCall, cut_eq_self hmem (Nat.le_of_lt hshort), increments_of_not_mem hmem]
  rw [if_neg hleave]

end Loop

end Readline
end PracticeHand
