import Mathlib.Data.Nat.ModEq

/-!
# One's-complement sums

Numbers from 0 to `top` are added with end-around carry: what overflows is added
again at the low end.  For words of `w` bits `top` is `2 ^ w - 1`.  Up to the two
representations 0 and `top` of zero this is addition modulo `top`; a sum is 0 only
if everything in it is 0.  So a sum can be kept in a wider accumulator and its
upper part added to the lower part at the end, once or until nothing is left.
-/

namespace PracticeHand
namespace OnesComplement

variable {top : Nat}

def add (top a b : Nat) : Nat :=
  if a + b ≤ top then a + b else a + b - top

def sum (top : Nat) (words : List Nat) : Nat :=
  words.foldl (add top) 0

/-- What a number becomes when its carries have been added again. -/
def fold (top n : Nat) : Nat :=
  if n = 0 then 0 else (n - 1) % top + 1

/-!
## Folded numbers
-/

theorem fold_le (hpos : 0 < top) (n : Nat) : fold top n ≤ top := by
  unfold fold
  split
  · exact Nat.zero_le _
  · exact Nat.mod_lt _ hpos

theorem fold_eq_zero_iff {n : Nat} : fold top n = 0 <-> n = 0 := by
  unfold fold
  split
  · rename_i hn
    exact ⟨fun _ => hn, fun _ => rfl⟩
  · rename_i hn
    exact ⟨fun h => (Nat.succ_ne_zero _ h).elim, fun h => (hn h).elim⟩

theorem fold_modEq (n : Nat) : fold top n ≡ n [MOD top] := by
  unfold fold
  split
  · rename_i hn
    rw [hn]
  · rename_i hn
    have hsucc : (n - 1) % top + 1 ≡ n - 1 + 1 [MOD top] :=
      (Nat.mod_modEq (n - 1) top).add_right 1
    rwa [Nat.sub_add_cancel (Nat.pos_of_ne_zero hn)] at hsucc

theorem fold_unique (hpos : 0 < top) {n m : Nat} (hm : m ≤ top) (hmod : m ≡ n [MOD top])
    (hzero : m = 0 <-> n = 0) : fold top n = m := by
  unfold fold
  split
  · rename_i hn
    exact (hzero.mpr hn).symm
  · rename_i hn
    have hm0 : m ≠ 0 := mt hzero.mp hn
    have hpred : m - 1 ≡ n - 1 [MOD top] := by
      apply Nat.ModEq.add_right_cancel' 1
      rwa [Nat.sub_add_cancel (Nat.pos_of_ne_zero hm0),
        Nat.sub_add_cancel (Nat.pos_of_ne_zero hn)]
    have hlt : m - 1 < top := by lia
    rw [← hpred, Nat.mod_eq_of_lt hlt]
    lia

theorem fold_of_le (hpos : 0 < top) {n : Nat} (hn : n ≤ top) : fold top n = n :=
  fold_unique hpos hn (Nat.ModEq.refl n) Iff.rfl

theorem fold_congr (hpos : 0 < top) {n m : Nat} (hmod : m ≡ n [MOD top])
    (hzero : m = 0 <-> n = 0) : fold top n = fold top m := by
  apply fold_unique hpos (fold_le hpos m)
  · exact (fold_modEq m).trans hmod
  · exact fold_eq_zero_iff.trans hzero

/-!
## Carries
-/

theorem add_eq_fold (hpos : 0 < top) {a b : Nat} (ha : a ≤ top) (hb : b ≤ top) :
    add top a b = fold top (a + b) := by
  symm
  unfold add
  split
  · rename_i hle
    exact fold_of_le hpos hle
  · rename_i hle
    apply fold_unique hpos (by lia)
    · have hsub : a + b - top ≡ a + b - top + top [MOD top] := (Nat.add_modEq_right).symm
      rwa [Nat.sub_add_cancel (by lia)] at hsub
    · lia

/-- It makes no difference whether a carry is added at once or at the end. -/
theorem fold_add_fold (hpos : 0 < top) (n b : Nat) :
    fold top (fold top n + b) = fold top (n + b) := by
  apply fold_congr hpos
  · exact ((fold_modEq n).add_right b).symm
  · rw [Nat.add_eq_zero_iff, Nat.add_eq_zero_iff, fold_eq_zero_iff]

theorem foldl_add (hpos : 0 < top) (words : List Nat) : forall n : Nat,
    (forall w, w ∈ words -> w ≤ top) ->
    words.foldl (add top) (fold top n) = fold top (n + words.sum) := by
  induction words with
  | nil =>
      intro n _
      rfl
  | cons w words ih =>
      intro n hwords
      have hw : w ≤ top := hwords w List.mem_cons_self
      rw [List.foldl_cons, add_eq_fold hpos (fold_le hpos n) hw, fold_add_fold hpos,
        ih _ (fun v hv => hwords v (List.mem_cons_of_mem w hv)), List.sum_cons, Nat.add_assoc]

/-- The sum with end-around carry is the folded sum of the words. -/
theorem sum_eq_fold (hpos : 0 < top) {words : List Nat}
    (hwords : forall w, w ∈ words -> w ≤ top) : sum top words = fold top words.sum := by
  have h := foldl_add hpos words 0 hwords
  rwa [Nat.zero_add] at h

theorem fold_carry (hpos : 0 < top) (n : Nat) :
    fold top (n / (top + 1) + n % (top + 1)) = fold top n := by
  have hsplit : (top + 1) * (n / (top + 1)) + n % (top + 1) = n := Nat.div_add_mod n (top + 1)
  apply fold_congr hpos
  · have hone : n / (top + 1) ≡ (top + 1) * (n / (top + 1)) [MOD top] := by
      have hmul : 1 * (n / (top + 1)) ≡ (top + 1) * (n / (top + 1)) [MOD top] :=
        (Nat.add_modEq_left (n := top) (a := 1)).symm.mul_right _
      rwa [Nat.one_mul] at hmul
    have hall := (hone.add_right (n % (top + 1))).symm
    rwa [hsplit] at hall
  · constructor
    · intro hn
      rw [hn]
      simp
    · intro h
      rcases Nat.add_eq_zero_iff.mp h with ⟨hdiv, hmod⟩
      rw [hdiv, hmod] at hsplit
      simpa using hsplit.symm

theorem fold_complement (hpos : 0 < top) (n : Nat) :
    fold top (n + (top - fold top n)) = top := by
  rw [← fold_add_fold hpos, Nat.add_sub_cancel' (fold_le hpos n)]
  exact fold_of_le hpos (Nat.le_refl top)

end OnesComplement
end PracticeHand
