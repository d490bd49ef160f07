import PracticeHand.Posix.Descriptors

/-!
# The stream pipes of the preforked server

`child_make` of `child05.c` creates a stream pipe and forks.  The parent keeps
one end and the child makes the other end its descriptor 2.  A child gets a copy
of the whole table of the parent, with the parent's ends of the pipes that were
made before, and closes only its own pipe and the listening socket.
-/

namespace PracticeHand
namespace Serv05Pipes

open Posix

inductive File where
  | parentEnd (i : Nat)
  | childEnd (i : Nat)
  | other (k : Nat)
  deriving DecidableEq

def stderrFileno : Nat := 2

/-- `child_make` with the table of the parent: what the parent has after it, and
what child `i` has when it calls `child_main`. -/
def childMake (i listenfd : Nat) (t : Table File) : Table File × Table File :=
  let (sockfd0, sockfd1, t) := t.open2 (.parentEnd i) (.childEnd i)
  (t.close sockfd1,
    (((t.dup2 sockfd1 stderrFileno).close sockfd0).close sockfd1).close listenfd)

/-- The loop of `main` from child `i` on, with `rounds` children to make. -/
def preforkFrom (listenfd : Nat) : Nat -> Nat -> Table File -> Table File × List (Table File)
  | 0, _, t => (t, [])
  | rounds + 1, i, t =>
      let (parent, child) := childMake i listenfd t
      let (parent, children) := preforkFrom listenfd rounds (i + 1) parent
      (parent, child :: children)

def prefork (listenfd nchildren : Nat) (t : Table File) : Table File × List (Table File) :=
  preforkFrom listenfd nchildren 0 t

/-- Pipe `i` connects the parent and child `i` and nobody else. -/
structure Connects (i : Nat) (parent : Table File) (children : List (Table File)) : Prop where
  parentEnd : exists fd, parent.lookup fd = some (.parentEnd i)
  parentEndPrivate : forall child, child ∈ children -> forall fd,
    child.lookup fd ≠ some (.parentEnd i)
  childEnd : forall j child, children[j]? = some child -> forall fd,
    child.lookup fd = some (.childEnd i) <-> j = i ∧ fd = stderrFileno
  childEndPrivate : forall fd, parent.lookup fd ≠ some (.childEnd i)

structure Starts (listenfd : Nat) (t : Table File) : Prop where
  listens : t.lookup listenfd ≠ none
  noParentEnd : forall fd i, t.lookup fd ≠ some (.parentEnd i)
  noChildEnd : forall fd i, t.lookup fd ≠ some (.childEnd i)

/-!
## One call of `child_make`
-/

section ChildMake

variable {i listenfd : Nat} {t : Table File}

def pipefd (t : Table File) : Nat := t.lowest

def otherfd (i : Nat) (t : Table File) : Nat :=
  (t.assign t.lowest (some (.parentEnd i))).lowest

theorem otherfd_free : t.lookup (otherfd i t) = none ∧ otherfd i t ≠ pipefd t := by
  have hfree := Table.lookup_lowest (t.assign t.lowest (some (.parentEnd i)))
  rw [Table.lookup_assign] at hfree
  split at hfree
  · cases hfree
  · rename_i hne
    exact ⟨hfree, hne⟩

theorem pipefd_free : t.lookup (pipefd t) = none :=
  Table.lookup_lowest t

theorem lookup_parent (k : Nat) :
    (childMake i listenfd t).1.lookup k =
      if k = pipefd t then some (.parentEnd i) else t.lookup k := by
  rcases @otherfd_free i t with ⟨hfree, hne⟩
  change (((t.assign (pipefd t) (some (.parentEnd i))).assign (otherfd i t)
    (some (.childEnd i))).close (otherfd i t)).lookup k = _
  rw [Table.lookup_close, Table.lookup_assign, Table.lookup_assign]
  by_cases hk : k = otherfd i t
  · rw [if_pos hk, hk, if_neg hne, hfree]
  · rw [if_neg hk, if_neg hk]

/-- The child's end is moved to descriptor 2 and the rest of the pipe is closed, in
this order, so the end is lost when descriptor 2 is one of the two it had. -/
theorem lookup_child (k : Nat) :
    (childMake i listenfd t).2.lookup k =
      if k = listenfd ∨ k = otherfd i t ∨ k = pipefd t then none
      else if k = stderrFileno then some (.childEnd i)
      else t.lookup k := by
  change ((((((t.assign (pipefd t) (some (.parentEnd i))).assign (otherfd i t)
    (some (.childEnd i))).dup2 (otherfd i t) stderrFileno).close (pipefd t)).close
    (otherfd i t)).close listenfd).lookup k = _
  simp only [Table.lookup_close, Table.lookup_dup2, Table.lookup_assign, if_true]
  by_cases hlisten : k = listenfd
  · simp [hlisten]
  · by_cases hother : k = otherfd i t
    · simp [hother]
    · by_cases hpipe : k = pipefd t
      · simp [hpipe]
      · simp [hlisten, hother, hpipe]

theorem stderr_taken_iff :
    (stderrFileno = otherfd i t ∨ stderrFileno = pipefd t) <->
      t.lookup stderrFileno = none ∧ (t.lookup 0 ≠ none ∨ t.lookup 1 ≠ none) := by
  rcases @otherfd_free i t with ⟨hfree, hne⟩
  have hbelow : forall {k}, k < pipefd t -> t.lookup k ≠ none :=
    fun hk => Table.lookup_below_lowest hk
  constructor
  · intro hcases
    rcases hcases with hother | hpipe
    · refine ⟨by rw [hother]; exact hfree, ?_⟩
      have hopen : forall k, k < otherfd i t -> k = pipefd t ∨ t.lookup k ≠ none := by
        intro k hk
        have h := Table.lookup_below_lowest hk
        rw [Table.lookup_assign] at h
        split at h
        · rename_i heq
          exact Or.inl heq
        · exact Or.inr h
      have hzero := hopen 0 (by rw [← hother]; decide)
      have hone := hopen 1 (by rw [← hother]; decide)
      rcases hzero with hzero | hzero
      · rcases hone with hone | hone
        · rw [← hzero] at hone
          cases hone
        · exact Or.inr hone
      · exact Or.inl hzero
    · refine ⟨by rw [hpipe]; exact pipefd_free, Or.inl (hbelow ?_)⟩
      rw [← hpipe]
      decide
  · intro hparts
    rcases hparts with ⟨hstderr, hlow⟩
    by_contra hneither
    rw [not_or] at hneither
    have hpipe : pipefd t < stderrFileno :=
      Nat.lt_of_le_of_ne (Table.lowest_le hstderr) (Ne.symm hneither.2)
    have hother : otherfd i t < stderrFileno := by
      refine Nat.lt_of_le_of_ne (Table.lowest_le ?_) (Ne.symm hneither.1)
      rw [Table.lookup_assign, if_neg, hstderr]
      exact hneither.2
    -- two different descriptors below 2, both free
    have hpipeFree := @pipefd_free t
    simp only [stderrFileno] at hpipe hother
    have hboth : (pipefd t = 0 ∧ otherfd i t = 1) ∨ (pipefd t = 1 ∧ otherfd i t = 0) := by
      lia
    rcases hboth with ⟨hp, ho⟩ | ⟨hp, ho⟩
    · rw [hp] at hpipeFree
      rw [ho] at hfree
      exact hlow.elim (fun h => h hpipeFree) (fun h => h hfree)
    · rw [hp] at hpipeFree
      rw [ho] at hfree
      exact hlow.elim (fun h => h hfree) (fun h => h hpipeFree)

end ChildMake

/-!
## The loop
-/

variable {listenfd : Nat}

theorem preforkFrom_succ (rounds i : Nat) (t : Table File) :
    preforkFrom listenfd (rounds + 1) i t =
      ((preforkFrom listenfd rounds (i + 1) (childMake i listenfd t).1).1,
        (childMake i listenfd t).2 ::
          (preforkFrom listenfd rounds (i + 1) (childMake i listenfd t).1).2) := rfl

/-- What the parent has open stays open in it and is inherited by every child made
later, unless the child uses the descriptor itself. -/
theorem preforkFrom_keeps (rounds : Nat) : forall {i fd : Nat} {t : Table File} {f : File},
    t.lookup fd = some f ->
    (preforkFrom listenfd rounds i t).1.lookup fd = some f ∧
      (fd ≠ stderrFileno -> fd ≠ listenfd ->
        forall child, child ∈ (preforkFrom listenfd rounds i t).2 ->
          child.lookup fd = some f) := by
  induction rounds with
  | zero =>
      intro i fd t f hfd
      refine ⟨hfd, ?_⟩
      intro _ _ child hchild
      cases hchild
  | succ rounds ih =>
      intro i fd t f hfd
      have hpipe : fd ≠ pipefd t := by
        intro heq
        subst heq
        rw [pipefd_free] at hfd
        cases hfd
      have hother : fd ≠ otherfd i t := by
        intro heq
        subst heq
        rw [(@otherfd_free i t).1] at hfd
        cases hfd
      have hparent : (childMake i listenfd t).1.lookup fd = some f := by
        rw [lookup_parent, if_neg hpipe, hfd]
      rcases @ih (i + 1) fd _ f hparent with ⟨hkept, hinherited⟩
      rw [preforkFrom_succ]
      refine ⟨hkept, ?_⟩
      intro hstderr hlisten child hchild
      rcases List.mem_cons.mp hchild with hfirst | hlater
      · rw [hfirst, lookup_child, if_neg (by simp [hlisten, hother, hpipe]), if_neg hstderr, hfd]
      · exact hinherited hstderr hlisten child hlater

/-- Descriptor 2 is not one of the two that `Socketpair` will return, nor the
listening socket. -/
def KeepsStderr (listenfd : Nat) (t : Table File) : Prop :=
  listenfd ≠ stderrFileno ∧
    (t.lookup stderrFileno ≠ none ∨ (t.lookup 0 = none ∧ t.lookup 1 = none))

variable {t : Table File}

theorem lookup_child_stderr_iff (i : Nat) :
    (childMake i listenfd t).2.lookup stderrFileno = some (.childEnd i) <->
      KeepsStderr listenfd t := by
  have htaken := @stderr_taken_iff i t
  rw [lookup_child, if_pos rfl]
  unfold KeepsStderr
  constructor
  · intro h
    split at h
    · cases h
    · rename_i hnot
      rw [not_or, htaken, not_and, not_or, not_not, not_not] at hnot
      refine ⟨Ne.symm hnot.1, ?_⟩
      cases hstderr : t.lookup stderrFileno with
      | none => exact Or.inr (hnot.2 hstderr)
      | some f => exact Or.inl (Option.some_ne_none f)
  · intro hparts
    rcases hparts with ⟨hne, hstderr⟩
    rw [if_neg]
    rw [not_or, htaken]
    refine ⟨Ne.symm hne, ?_⟩
    intro hparts
    rcases hparts with ⟨hfree, hlow⟩
    rcases hstderr with hopen | ⟨hzero, hone⟩
    · exact hopen hfree
    · exact hlow.elim (fun h => h hzero) (fun h => h hone)

theorem prefork_one : prefork listenfd 1 t =
    ((childMake 0 listenfd t).1, [(childMake 0 listenfd t).2]) := rfl

theorem connects_first (hstart : Starts listenfd t) (hkeep : KeepsStderr listenfd t) :
    Connects 0 (prefork listenfd 1 t).1 (prefork listenfd 1 t).2 := by
  rw [prefork_one]
  constructor
  · refine ⟨pipefd t, ?_⟩
    rw [lookup_parent, if_pos rfl]
  · intro child hchild fd
    rw [List.mem_singleton.mp hchild, lookup_child]
    split
    · intro h
      cases h
    · split
      · intro h
        cases h
      · exact hstart.noParentEnd fd 0
  · intro j child hchild fd
    obtain ⟨rfl, rfl⟩ : j = 0 ∧ child = (childMake 0 listenfd t).2 := by
      cases j with
      | zero => exact ⟨rfl, (Option.some.inj hchild).symm⟩
      | succ j => cases hchild
    constructor
    · intro hfd
      refine ⟨rfl, ?_⟩
      by_contra hne
      rw [lookup_child, if_neg hne] at hfd
      split at hfd
      · cases hfd
      · exact hstart.noChildEnd fd 0 hfd
    · intro hparts
      rcases hparts with ⟨_, rfl⟩
      exact (lookup_child_stderr_iff 0).mpr hkeep
  · intro fd
    rw [lookup_parent]
    split
    · intro h
      cases h
    · exact hstart.noChildEnd fd 0

/-- The second child keeps the parent's end of the first pipe, or the first child has
lost its own end. -/
theorem not_connects_first (hstart : Starts listenfd t) (rounds : Nat) :
    ¬ Connects 0 (prefork listenfd (rounds + 2) t).1 (prefork listenfd (rounds + 2) t).2 := by
  rw [prefork, preforkFrom_succ]
  intro hconnects
  have hkeep : KeepsStderr listenfd t :=
    (lookup_child_stderr_iff 0).mp ((hconnects.childEnd 0 _ rfl stderrFileno).mpr ⟨rfl, rfl⟩)
  have hstderr : pipefd t ≠ stderrFileno := by
    intro heq
    rcases (@stderr_taken_iff 0 t).mp (Or.inr heq.symm) with ⟨hfree, hlow⟩
    rcases hkeep.2 with hopen | ⟨hzero, hone⟩
    · exact hopen hfree
    · exact hlow.elim (fun h => h hzero) (fun h => h hone)
  have hlisten : pipefd t ≠ listenfd := by
    intro heq
    subst heq
    exact hstart.listens pipefd_free
  have hparent : (childMake 0 listenfd t).1.lookup (pipefd t) = some (.parentEnd 0) := by
    rw [lookup_parent, if_pos rfl]
  have hinherited := (@preforkFrom_keeps listenfd (rounds + 1) 1 _ _ _ hparent).2 hstderr hlisten
  rw [preforkFrom_succ] at hinherited hconnects
  refine hconnects.parentEndPrivate _ ?_ (pipefd t) (hinherited _ List.mem_cons_self)
  exact List.mem_cons_of_mem _ List.mem_cons_self

/-- After the loop every pipe connects the parent and its child only, exactly when
there is at most one child and descriptor 2 is out of the way. -/
theorem prefork_connects_iff (hstart : Starts listenfd t) (nchildren : Nat) :
    (forall i, i < nchildren ->
      Connects i (prefork listenfd nchildren t).1 (prefork listenfd nchildren t).2) <->
      nchildren = 0 ∨ (nchildren = 1 ∧ KeepsStderr listenfd t) := by
  cases nchildren with
  | zero => simp
  | succ nchildren =>
      cases nchildren with
      | zero =>
          constructor
          · intro h
            have hend := ((h 0 (Nat.succ_pos 0)).childEnd 0 _ rfl stderrFileno).mpr ⟨rfl, rfl⟩
            exact Or.inr ⟨rfl, (lookup_child_stderr_iff 0).mp hend⟩
          · intro hcases
            rcases hcases with hzero | ⟨_, hkeep⟩
            · cases hzero
            · intro i hi
              obtain rfl : i = 0 := by lia
              exact connects_first hstart hkeep
      | succ rounds =>
          constructor
          · intro h
            exact absurd (h 0 (Nat.succ_pos _)) (not_connects_first hstart rounds)
          · intro hcases
            rcases hcases with hzero | ⟨hone, _⟩
            · cases hzero
            · cases hone

def usualTable : Table File :=
  [some (.other 0), some (.other 1), some (.other 2), some (.other 3)]

theorem usualTable_starts : Starts 3 usualTable := by
  have hother : forall fd f, usualTable.lookup fd = some f -> exists k, f = .other k := by
    intro fd f hf
    match fd with
    | 0 | 1 | 2 | 3 =>
        cases hf
        exact ⟨_, rfl⟩
    | _ + 4 => cases hf
  constructor
  · decide
  · intro fd i h
    rcases hother fd _ h with ⟨k, hk⟩
    cases hk
  · intro fd i h
    rcases hother fd _ h with ⟨k, hk⟩
    cases hk

theorem prefork_connects_one_child :
    Starts 3 usualTable ∧ forall i, i < 1 ->
      Connects i (prefork 3 1 usualTable).1 (prefork 3 1 usualTable).2 :=
  ⟨usualTable_starts,
    (prefork_connects_iff usualTable_starts 1).mpr (Or.inr ⟨rfl, by decide, Or.inl (by decide)⟩)⟩

/-- With two children, the second one has the parent's end of the first pipe. -/
theorem prefork_second_child_inherits :
    Starts 3 usualTable ∧ ¬ forall i, i < 2 ->
      Connects i (prefork 3 2 usualTable).1 (prefork 3 2 usualTable).2 := by
  refine ⟨usualTable_starts, ?_⟩
  intro h
  have hprivate := (h 0 (by decide)).parentEndPrivate
  exact absurd rfl (hprivate (prefork 3 2 usualTable).2[1] (by decide) 4)

end Serv05Pipes
end PracticeHand
