import PracticeHand.Posix.Descriptors

/-!
# Connections in a table of descriptors

A server starts with some open files, and opens and closes connections after that.
Which connection it has at which descriptor is a relation; `accept` adds the lowest
free descriptor to it and `close` takes one away.
-/

namespace PracticeHand
namespace Posix

inductive File where
  | listening
  | connection (c : Nat)
  | other (k : Nat)
  deriving DecidableEq

namespace Table

/-- `t` has the connections that `opened` says, and for the rest it is `base`. -/
structure Holds (base t : Table File) (opened : Nat -> Nat -> Prop) : Prop where
  entry : forall fd c, opened fd c -> base.lookup fd = none ∧ t.lookup fd = some (.connection c)
  rest : forall fd, (forall c, ¬ opened fd c) -> t.lookup fd = base.lookup fd

variable {base t : Table File} {opened : Nat -> Nat -> Prop} {fd c d : Nat}

theorem Holds.start (base : Table File) : Holds base base (fun _ _ => False) where
  entry _ _ h := h.elim
  rest _ _ := rfl

theorem Holds.congr {opened' : Nat -> Nat -> Prop} (h : Holds base t opened)
    (hiff : forall fd c, opened' fd c <-> opened fd c) : Holds base t opened' where
  entry fd c hfd := h.entry fd c ((hiff fd c).mp hfd)
  rest fd hnone := h.rest fd fun c hfd => hnone c ((hiff fd c).mpr hfd)

theorem Holds.unique (h : Holds base t opened) (hc : opened fd c) (hd : opened fd d) : c = d := by
  have hsame := (h.entry fd c hc).2
  rw [(h.entry fd d hd).2] at hsame
  cases hsame
  rfl

theorem Holds.lookup_iff (h : Holds base t opened)
    (hbase : forall fd c, base.lookup fd ≠ some (.connection c)) :
    t.lookup fd = some (.connection c) <-> opened fd c := by
  constructor
  · intro hfd
    by_cases hopen : exists d, opened fd d
    · rcases hopen with ⟨d, hd⟩
      rw [(h.entry fd d hd).2] at hfd
      cases hfd
      exact hd
    · rw [h.rest fd fun d hd => hopen ⟨d, hd⟩] at hfd
      exact (hbase fd c hfd).elim
  · exact fun hfd => (h.entry fd c hfd).2

theorem Holds.base_kept (h : Holds base t opened) {f : File} (hf : base.lookup fd = some f) :
    t.lookup fd = some f := by
  rw [← hf]
  apply h.rest
  intro c hc
  rw [(h.entry fd c hc).1] at hf
  cases hf

theorem Holds.not_lowest (h : Holds base t opened) : ¬ opened t.lowest c := by
  intro hc
  have hfree := t.lookup_lowest
  rw [(h.entry _ c hc).2] at hfree
  cases hfree

theorem Holds.accept (h : Holds base t opened) (c : Nat) :
    Holds base (t.assign t.lowest (some (.connection c)))
      (fun fd d => opened fd d ∨ fd = t.lowest ∧ d = c) where
  entry := by
    intro fd d hfd
    rw [lookup_assign]
    rcases hfd with hold | ⟨rfl, rfl⟩
    · rw [if_neg]
      · exact h.entry fd d hold
      · intro heq
        rw [heq] at hold
        exact h.not_lowest hold
    · rw [if_pos rfl, ← h.rest _ fun d => h.not_lowest, lookup_lowest]
      exact ⟨rfl, rfl⟩
  rest := by
    intro fd hnone
    rw [lookup_assign, if_neg]
    · exact h.rest fd fun d hd => hnone d (Or.inl hd)
    · intro heq
      exact hnone c (Or.inr ⟨heq, rfl⟩)

theorem Holds.close (h : Holds base t opened) (hfd : opened fd c) :
    Holds base (t.close fd) (fun k d => opened k d ∧ k ≠ fd) where
  entry := by
    intro k d hk
    rw [lookup_close, if_neg hk.2]
    exact h.entry k d hk.1
  rest := by
    intro k hnone
    rw [lookup_close]
    split
    · rename_i heq
      rw [heq, (h.entry fd c hfd).1]
    · rename_i hne
      exact h.rest k fun d hd => hnone d ⟨hd, hne⟩

end Table
end Posix
end PracticeHand
