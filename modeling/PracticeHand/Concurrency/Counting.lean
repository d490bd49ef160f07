import Mathlib.Data.Finset.Card
import Mathlib.Data.Fintype.Card
import Mathlib.Logic.Function.Basic

/-!
# Counting threads

The number of indices whose value has a property, and how it changes when one
value changes.
-/

namespace PracticeHand
namespace Concurrency

variable {index value : Type} [Fintype index]

/-- How many indices have a value with the property `p`. -/
def countWhere (p : value -> Bool) (f : index -> value) : Nat :=
  (Finset.univ.filter (fun i => p (f i) = true)).card

theorem countWhere_eq_zero {p : value -> Bool} {f : index -> value} :
    countWhere p f = 0 <-> forall i, p (f i) = false := by
  simp [countWhere, Finset.filter_eq_empty_iff]

theorem countWhere_eq_card {p : value -> Bool} {f : index -> value} :
    countWhere p f = Fintype.card index <-> forall i, p (f i) = true := by
  constructor
  · intro h i
    have huniv := (Finset.card_eq_iff_eq_univ _).mp h
    have hi : i ∈ Finset.univ.filter (fun i => p (f i) = true) := by
      rw [huniv]
      exact Finset.mem_univ i
    simpa using hi
  · intro h
    simp [countWhere, h]

theorem countWhere_le_card (p : value -> Bool) (f : index -> value) :
    countWhere p f ≤ Fintype.card index :=
  Finset.card_le_univ _

theorem countWhere_pos {p : value -> Bool} {f : index -> value} {i : index}
    (h : p (f i) = true) : 0 < countWhere p f :=
  Finset.card_pos.mpr ⟨i, by simpa using h⟩

theorem countWhere_le {value' : Type} {p : value -> Bool} {f : index -> value}
    {q : value' -> Bool} {g : index -> value'}
    (h : forall i, p (f i) = true -> q (g i) = true) :
    countWhere p f ≤ countWhere q g := by
  apply Finset.card_le_card
  intro i hi
  simp only [Finset.mem_filter, Finset.mem_univ, true_and] at hi ⊢
  exact h i hi

variable [DecidableEq index]

theorem countWhere_le_add {value1 value2 : Type} {p : value -> Bool} {f : index -> value}
    {q : value1 -> Bool} {g : index -> value1} {r : value2 -> Bool} {k : index -> value2}
    (h : forall i, p (f i) = true -> q (g i) = true ∨ r (k i) = true) :
    countWhere p f ≤ countWhere q g + countWhere r k := by
  refine le_trans (Finset.card_le_card ?_) (Finset.card_union_le _ _)
  intro i hi
  simp only [Finset.mem_union, Finset.mem_filter, Finset.mem_univ, true_and] at hi ⊢
  exact h i hi

theorem countWhere_update (p : value -> Bool) (f : index -> value)
    (i : index) (x : value) :
    countWhere p (Function.update f i x) + (p (f i)).toNat =
      countWhere p f + (p x).toNat := by
  have hsplit : forall g : index -> value,
      countWhere p g =
        ((Finset.univ.erase i).filter (fun j => p (g j) = true)).card +
          (p (g i)).toNat := by
    intro g
    unfold countWhere
    rw [← Finset.insert_erase (Finset.mem_univ i), Finset.filter_insert]
    by_cases hi : p (g i) = true
    · rw [if_pos hi, Finset.card_insert_of_notMem (by simp)]
      simp [hi]
    · rw [if_neg hi]
      simp [hi]
  have hrest : (Finset.univ.erase i).filter
        (fun j => p (Function.update f i x j) = true) =
      (Finset.univ.erase i).filter (fun j => p (f j) = true) := by
    apply Finset.filter_congr
    intro j hj
    rw [Function.update_of_ne (Finset.ne_of_mem_erase hj)]
  rw [hsplit (Function.update f i x), hsplit f, hrest, Function.update_self]
  lia

end Concurrency
end PracticeHand
