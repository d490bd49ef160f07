import Mathlib.Data.List.Basic

/-!
# Tables of open descriptors

A process has a table from descriptors to open files.  A new descriptor is the
lowest one that is not in use, `fork` copies the table, and a file stays open as
long as some table has it.
-/

namespace PracticeHand
namespace Posix

variable {file : Type}

/-- The entry of each descriptor; those past the end are not in use. -/
abbrev Table (file : Type) := List (Option file)

namespace Table

def lookup (t : Table file) (fd : Nat) : Option file :=
  (t[fd]?).join

def lowest (t : Table file) : Nat :=
  t.findIdx Option.isNone

def assign (t : Table file) (fd : Nat) (f : Option file) : Table file :=
  (t ++ List.replicate (fd + 1 - t.length) none).set fd f

def close (t : Table file) (fd : Nat) : Table file :=
  t.assign fd none

/-- A copy of `oldfd`, which is closed first when it is another file; nothing
happens when both are the same. -/
def dup2 (t : Table file) (oldfd newfd : Nat) : Table file :=
  if oldfd = newfd then t else t.assign newfd (t.lookup oldfd)

/-- Two new files, such as the ends of a stream pipe, with their descriptors. -/
def open2 (t : Table file) (f g : file) : Nat × Nat × Table file :=
  let first := t.assign t.lowest (some f)
  (t.lowest, first.lowest, first.assign first.lowest (some g))

theorem lookup_assign (t : Table file) (fd k : Nat) (f : Option file) :
    (t.assign fd f).lookup k = if k = fd then f else t.lookup k := by
  unfold lookup assign
  by_cases hk : k = fd
  · subst hk
    rw [if_pos rfl, List.getElem?_set_self]
    · rfl
    · rw [List.length_append, List.length_replicate]
      lia
  · rw [if_neg hk, List.getElem?_set_ne (Ne.symm hk)]
    rcases Nat.lt_or_ge k t.length with hlt | hge
    · rw [List.getElem?_append_left hlt]
    · rw [List.getElem?_append_right hge, List.getElem?_replicate,
        List.getElem?_eq_none hge]
      split <;> rfl

@[simp] theorem lookup_close (t : Table file) (fd k : Nat) :
    (t.close fd).lookup k = if k = fd then none else t.lookup k :=
  lookup_assign t fd k none

theorem lookup_dup2 (t : Table file) (oldfd newfd k : Nat) :
    (t.dup2 oldfd newfd).lookup k =
      if k = newfd then t.lookup oldfd else t.lookup k := by
  unfold dup2
  split
  · rename_i hsame
    subst hsame
    split
    · rename_i hk
      rw [hk]
    · rfl
  · exact lookup_assign t newfd k _

theorem lookup_lowest (t : Table file) : t.lookup t.lowest = none := by
  unfold lookup lowest
  rcases Nat.lt_or_ge (t.findIdx Option.isNone) t.length with hlt | hge
  · have hnone := List.findIdx_getElem (w := hlt)
    rw [List.getElem?_eq_getElem hlt]
    simpa using hnone
  · rw [List.getElem?_eq_none hge]
    rfl

theorem lookup_below_lowest {t : Table file} {k : Nat} (h : k < t.lowest) :
    t.lookup k ≠ none := by
  unfold lowest at h
  have hk : k < t.length := Nat.lt_of_lt_of_le h List.findIdx_le_length
  have hsome := List.not_of_lt_findIdx h
  unfold lookup
  rw [List.getElem?_eq_getElem hk]
  simpa [Option.isSome_iff_ne_none] using hsome

theorem lowest_le {t : Table file} {k : Nat} (h : t.lookup k = none) : t.lowest ≤ k := by
  by_contra hlt
  exact lookup_below_lowest (Nat.lt_of_not_le hlt) h

end Table
end Posix
end PracticeHand
