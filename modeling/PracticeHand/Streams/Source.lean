import Mathlib.Data.List.Basic
import Mathlib.Logic.Function.Basic

/-!
# Bytes that arrive in pieces

A descriptor delivers its bytes in chunks that have nothing to do with the
records written on it, and a call of `read` can also be interrupted or fail.  A
reader that asks for one value at a time sees less of this: a tape of values
that ends with the end of file or with an error.  This module defines both and
says what it means that a reader follows a tape.
-/

namespace PracticeHand
namespace Streams

variable {value : Type}

/-- What one call of `read` can meet; a chunk is never empty. -/
inductive Event (value : Type) where
  | data (first : value) (others : List value)
  | interrupted
  | failed

/-- The events still to come.  After the last one every call finds the end of file. -/
abbrev Source (value : Type) := List (Event value)

/-- The values that a call has stored, none at the end of file, or its error. -/
inductive ReadResult (value : Type) where
  | stored (values : List value)
  | interrupted
  | failed

namespace Source

/-- What a call leaves of a chunk is there for the next call. -/
def putBack : List value -> Source value -> Source value
  | [], s => s
  | first :: others, s => .data first others :: s

def read (size : Nat) : Source value -> ReadResult value × Source value
  | [] => (.stored [], [])
  | .data first others :: s =>
      (.stored ((first :: others).take size), putBack ((first :: others).drop size) s)
  | .interrupted :: s => (.interrupted, s)
  | .failed :: s => (.failed, s)

end Source

/-!
## Tapes
-/

/-- The values up to the first error or, without one, up to the end of file. -/
structure Tape (value : Type) where
  values : List value
  fails : Bool
  deriving DecidableEq

/-- The results 1, 0 and -1 of a reader of single values. -/
inductive Got (value : Type) where
  | one (x : value)
  | zero
  | error

namespace Tape

def get : Tape value -> Got value × Tape value
  | ⟨x :: xs, fails⟩ => (.one x, ⟨xs, fails⟩)
  | ⟨[], false⟩ => (.zero, ⟨[], false⟩)
  | ⟨[], true⟩ => (.error, ⟨[], true⟩)

def append (xs : List value) (t : Tape value) : Tape value :=
  ⟨xs ++ t.values, t.fails⟩

@[simp] theorem append_nil (t : Tape value) : append [] t = t := rfl

@[simp] theorem append_cons (x : value) (xs : List value) (t : Tape value) :
    append (x :: xs) t = ⟨x :: (append xs t).values, (append xs t).fails⟩ := rfl

@[simp] theorem append_append (xs ys : List value) (t : Tape value) :
    append xs (append ys t) = append (xs ++ ys) t := by
  simp [append]

end Tape

/-- The tape that a source is for a reader.  With `retry` the reader calls again
when it is interrupted; otherwise an interruption is an error like any other. -/
def Source.tape (retry : Bool) : Source value -> Tape value
  | [] => ⟨[], false⟩
  | .data first others :: s => Tape.append (first :: others) (tape retry s)
  | .interrupted :: s => if retry then tape retry s else ⟨[], true⟩
  | .failed :: _ => ⟨[], true⟩

theorem Source.tape_putBack (retry : Bool) (xs : List value) (s : Source value) :
    (putBack xs s).tape retry = Tape.append xs (s.tape retry) := by
  cases xs <;> rfl

/-- A reader gives the values of the tape one by one.  Nothing is said about the
calls after an error. -/
structure Follows {state : Type} (get : state -> Got value × state)
    (tape : state -> Tape value) : Prop where
  one : forall s x xs fails, tape s = ⟨x :: xs, fails⟩ ->
    exists next, get s = (.one x, next) ∧ tape next = ⟨xs, fails⟩
  zero : forall s, tape s = ⟨[], false⟩ ->
    exists next, get s = (.zero, next) ∧ tape next = ⟨[], false⟩
  error : forall s, tape s = ⟨[], true⟩ -> exists next, get s = (.error, next)

/-!
## Arrays

An array is a function from its indices; the places past its end are never
looked at.
-/

def write (cells : Nat -> value) : Nat -> List value -> Nat -> value
  | _, [] => cells
  | start, x :: xs => write (Function.update cells start x) (start + 1) xs

def slice (cells : Nat -> value) : Nat -> Nat -> List value
  | _, 0 => []
  | start, count + 1 => cells start :: slice cells (start + 1) count

theorem write_before (xs : List value) : forall (cells : Nat -> value) (start i : Nat),
    i < start -> write cells start xs i = cells i := by
  induction xs with
  | nil =>
      intro cells start i _
      rfl
  | cons x xs ih =>
      intro cells start i hi
      rw [write, ih _ _ _ (by lia), Function.update_of_ne (by lia)]

theorem write_at (xs : List value) : forall (cells : Nat -> value) (start i : Nat),
    write cells start xs (start + i) = xs[i]?.getD (cells (start + i)) := by
  induction xs with
  | nil =>
      intro cells start i
      rfl
  | cons x xs ih =>
      intro cells start i
      cases i with
      | zero =>
          rw [write, write_before xs _ _ _ (by lia), Nat.add_zero, Function.update_self]
          rfl
      | succ i =>
          rw [write, show start + (i + 1) = start + 1 + i by lia, ih,
            Function.update_of_ne (by lia), List.getElem?_cons_succ]

theorem write_after (xs : List value) (cells : Nat -> value) {start i : Nat}
    (hi : start + xs.length ≤ i) : write cells start xs i = cells i := by
  obtain ⟨k, rfl⟩ := Nat.exists_eq_add_of_le (Nat.le_trans (Nat.le_add_right _ _) hi)
  rw [write_at, List.getElem?_eq_none (by lia)]
  rfl

theorem slice_congr {cells cells' : Nat -> value} (count : Nat) : forall start,
    (forall i, start ≤ i -> i < start + count -> cells i = cells' i) ->
    slice cells start count = slice cells' start count := by
  induction count with
  | zero =>
      intro start _
      rfl
  | succ count ih =>
      intro start h
      rw [slice, slice, h start (Nat.le_refl _) (by lia),
        ih (start + 1) (fun i hlow hhigh => h i (by lia) (by lia))]

/-- What is stored elsewhere does not change a part of an array. -/
theorem slice_write_of_disjoint (xs : List value) (cells : Nat -> value)
    {start count place : Nat}
    (h : start + count ≤ place ∨ place + xs.length ≤ start) :
    slice (write cells place xs) start count = slice cells start count := by
  apply slice_congr
  intro i hlow hhigh
  rcases h with h | h
  · exact write_before xs cells place i (by lia)
  · exact write_after xs cells (by lia)

@[simp] theorem length_slice (cells : Nat -> value) (count : Nat) : forall start,
    (slice cells start count).length = count := by
  induction count with
  | zero =>
      intro start
      rfl
  | succ count ih =>
      intro start
      rw [slice, List.length_cons, ih]

theorem slice_write (xs : List value) : forall (cells : Nat -> value) (start : Nat),
    slice (write cells start xs) start xs.length = xs := by
  induction xs with
  | nil =>
      intro cells start
      rfl
  | cons x xs ih =>
      intro cells start
      rw [List.length_cons, slice, write, ih,
        write_before xs _ _ _ (Nat.lt_succ_self start), Function.update_self]

theorem slice_update_after (cells : Nat -> value) (x : value) (count : Nat) :
    forall start place, start + count ≤ place ->
      slice (Function.update cells place x) start count = slice cells start count := by
  induction count with
  | zero =>
      intro start place _
      rfl
  | succ count ih =>
      intro start place hplace
      rw [slice, slice, ih _ _ (by lia), Function.update_of_ne (by lia)]

theorem slice_add (cells : Nat -> value) (m k : Nat) : forall start,
    slice cells start (m + k) = slice cells start m ++ slice cells (start + m) k := by
  induction m with
  | zero =>
      intro start
      rw [Nat.zero_add]
      rfl
  | succ m ih =>
      intro start
      rw [Nat.succ_add, slice, ih, slice, List.cons_append,
        show start + 1 + m = start + (m + 1) by lia]

end Streams
end PracticeHand
