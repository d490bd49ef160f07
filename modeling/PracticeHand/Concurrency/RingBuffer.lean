import Mathlib.Data.List.Basic
import Mathlib.Data.Nat.ModEq
import Mathlib.Logic.Function.Basic

/-!
# A ring of cells with two indices

A bounded queue kept in an array of `cap` cells between an index to take from
and an index to put at, without a count.  When the indices meet, the ring is
either empty or full; which of the two is known only from the list that the ring
is meant to hold.
-/

namespace PracticeHand
namespace Concurrency

variable {value : Type} {cap : Nat}

structure RingBuffer (value : Type) where
  cells : Nat -> value
  iget : Nat
  iput : Nat

def advance (cap i : Nat) : Nat :=
  if i + 1 = cap then 0 else i + 1

namespace RingBuffer

def put (cap : Nat) (r : RingBuffer value) (x : value) : RingBuffer value :=
  { r with
    cells := Function.update r.cells r.iput x
    iput := advance cap r.iput }

def take (cap : Nat) (r : RingBuffer value) : RingBuffer value :=
  { r with iget := advance cap r.iget }

/-- The cells from `iget` up to `iput` hold the entries of `q` in order. -/
structure Contents (cap : Nat) (r : RingBuffer value) (q : List value) : Prop where
  room : q.length ≤ cap
  start : r.iget < cap
  stop : r.iput = (r.iget + q.length) % cap
  entry : forall k x, q[k]? = some x -> r.cells ((r.iget + k) % cap) = x

theorem advance_eq_mod {i : Nat} (h : i < cap) : advance cap i = (i + 1) % cap := by
  unfold advance
  split
  · rename_i heq
    rw [heq, Nat.mod_self]
  · exact (Nat.mod_eq_of_lt (by lia)).symm

theorem contents_empty {r : RingBuffer value} (hlt : r.iget < cap)
    (hmeet : r.iput = r.iget) : Contents cap r [] where
  room := Nat.zero_le _
  start := hlt
  stop := by
    rw [hmeet, List.length_nil, Nat.add_zero, Nat.mod_eq_of_lt hlt]
  entry := by
    intro k x hk
    cases hk

theorem slot_inj {i j k : Nat} (hj : j < cap) (hk : k < cap)
    (h : (i + j) % cap = (i + k) % cap) : j = k := by
  have hmod : j ≡ k [MOD cap] := Nat.ModEq.add_left_cancel' i h
  have heq : j % cap = k % cap := hmod
  rwa [Nat.mod_eq_of_lt hj, Nat.mod_eq_of_lt hk] at heq

variable {r : RingBuffer value} {q : List value}

theorem Contents.stop_lt (h : Contents cap r q) : r.iput < cap := by
  rw [h.stop]
  exact Nat.mod_lt _ (Nat.lt_of_le_of_lt (Nat.zero_le _) h.start)

/-- The indices meet when the ring is empty and when it is full. -/
theorem Contents.meet_iff (h : Contents cap r q) :
    r.iput = r.iget <-> q.length = 0 ∨ q.length = cap := by
  rw [h.stop]
  constructor
  · intro hmeet
    by_cases hfull : q.length = cap
    · exact Or.inr hfull
    · refine Or.inl ?_
      have hlt : q.length < cap := lt_of_le_of_ne h.room hfull
      have hcap : 0 < cap := Nat.lt_of_le_of_lt (Nat.zero_le _) hlt
      apply slot_inj (i := r.iget) hlt hcap
      rw [hmeet, Nat.add_zero, Nat.mod_eq_of_lt h.start]
  · intro hcases
    rcases hcases with hempty | hfull
    · rw [hempty, Nat.add_zero, Nat.mod_eq_of_lt h.start]
    · rw [hfull, Nat.add_mod_right, Nat.mod_eq_of_lt h.start]

theorem Contents.put_fresh (h : Contents cap r q) (hroom : q.length < cap)
    {k : Nat} (hk : k < q.length) : (r.iget + k) % cap ≠ r.iput := by
  intro heq
  rw [h.stop] at heq
  exact (ne_of_lt hk) (slot_inj (lt_trans hk hroom) hroom heq)

theorem Contents.put (h : Contents cap r q) (hroom : q.length < cap)
    (x : value) : Contents cap (r.put cap x) (q ++ [x]) where
  room := by
    rw [List.length_append, List.length_singleton]
    exact hroom
  start := h.start
  stop := by
    change advance cap r.iput = _
    rw [advance_eq_mod h.stop_lt, h.stop, List.length_append,
      List.length_singleton, Nat.mod_add_mod, Nat.add_assoc]
    rfl
  entry := by
    intro k y hk
    change Function.update r.cells r.iput x ((r.iget + k) % cap) = y
    by_cases hold : k < q.length
    · rw [Function.update_of_ne (h.put_fresh hroom hold)]
      rw [List.getElem?_append_left hold] at hk
      exact h.entry k y hk
    · have hk' : k = q.length := by
        have hlt := (List.getElem?_eq_some_iff.mp hk).1
        rw [List.length_append, List.length_singleton] at hlt
        lia
      subst hk'
      rw [← h.stop, Function.update_self]
      simpa using hk

theorem Contents.take {x : value} (h : Contents cap r (x :: q)) :
    r.cells r.iget = x ∧ Contents cap (r.take cap) q := by
  constructor
  · have hfirst := h.entry 0 x rfl
    rwa [Nat.add_zero, Nat.mod_eq_of_lt h.start] at hfirst
  · have hroom := h.room
    rw [List.length_cons] at hroom
    exact {
      room := Nat.le_of_succ_le hroom
      start := by
        change advance cap r.iget < cap
        rw [advance_eq_mod h.start]
        exact Nat.mod_lt _ (Nat.lt_of_le_of_lt (Nat.zero_le _) h.start)
      stop := by
        change r.iput = (advance cap r.iget + q.length) % cap
        rw [advance_eq_mod h.start, h.stop, List.length_cons, Nat.mod_add_mod]
        congr 1
        lia
      entry := by
        intro k y hk
        change r.cells ((advance cap r.iget + k) % cap) = y
        have hnext := h.entry (k + 1) y (by simpa using hk)
        rw [advance_eq_mod h.start, Nat.mod_add_mod]
        rw [← hnext]
        congr 2
        lia }

end RingBuffer

end Concurrency
end PracticeHand
