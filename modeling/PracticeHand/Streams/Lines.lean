import PracticeHand.Streams.Source

/-!
# Cutting a stream into lines

A line ends with its newline, at the end of the stream or after `limit` values,
whichever comes first.
-/

namespace PracticeHand
namespace Streams

variable {value : Type} [DecidableEq value] {newline : value}

/-- The first line of a stream, with its newline. -/
def cut (newline : value) : Nat -> List value -> List value
  | 0, _ => []
  | _ + 1, [] => []
  | limit + 1, x :: xs => if x = newline then [x] else x :: cut newline limit xs

@[simp] theorem cut_zero (xs : List value) : cut newline 0 xs = [] := by
  cases xs <;> rfl

@[simp] theorem cut_nil (limit : Nat) : cut newline limit [] = [] := by
  cases limit <;> rfl

theorem cut_newline (limit : Nat) (xs : List value) :
    cut newline (limit + 1) (newline :: xs) = [newline] := by
  simp [cut]

theorem cut_cons {x : value} (limit : Nat) (xs : List value) (hx : x ≠ newline) :
    cut newline (limit + 1) (x :: xs) = x :: cut newline limit xs := by
  simp [cut, hx]

theorem length_cut_le (limit : Nat) (xs : List value) :
    (cut newline limit xs).length ≤ limit := by
  induction limit generalizing xs with
  | zero => simp
  | succ limit ih =>
      cases xs with
      | nil => simp
      | cons x xs =>
          simp only [cut]
          split
          · simp
          · simpa using ih xs

theorem cut_append_drop (limit : Nat) (xs : List value) :
    cut newline limit xs ++ xs.drop (cut newline limit xs).length = xs := by
  induction limit generalizing xs with
  | zero => simp
  | succ limit ih =>
      cases xs with
      | nil => simp
      | cons x xs =>
          simp only [cut]
          split
          · simp
          · simpa using ih xs

theorem length_cut_pos (limit : Nat) (x : value) (xs : List value) :
    0 < (cut newline (limit + 1) (x :: xs)).length := by
  simp only [cut]
  split <;> simp

theorem length_cut_le_length (limit : Nat) (xs : List value) :
    (cut newline limit xs).length ≤ xs.length := by
  have h := congrArg List.length (@cut_append_drop _ _ newline limit xs)
  rw [List.length_append] at h
  lia

theorem mem_cut_iff (limit : Nat) (xs : List value) :
    newline ∈ cut newline limit xs <-> newline ∈ xs.take limit := by
  induction limit generalizing xs with
  | zero => simp
  | succ limit ih =>
      cases xs with
      | nil => simp
      | cons x xs =>
          simp only [cut, List.take_succ_cons, List.mem_cons]
          split
          · rename_i hx
            simp [hx]
          · simp [ih xs]

/-- A newline that ends the line is the first one of the stream. -/
theorem mem_take_iff_of_mem_cut {limit : Nat} {xs : List value} (k : Nat)
    (h : newline ∈ cut newline limit xs) :
    newline ∈ xs.take k <-> (cut newline limit xs).length ≤ k := by
  induction limit generalizing xs k with
  | zero => simp at h
  | succ limit ih =>
      cases xs with
      | nil => simp at h
      | cons x xs =>
          by_cases hx : x = newline
          · subst hx
            cases k <;> simp [cut_newline]
          · rw [cut_cons limit xs hx, List.mem_cons] at h
            have hmem := h.resolve_left (Ne.symm hx)
            rw [cut_cons limit xs hx]
            cases k with
            | zero => simp
            | succ k => simp [Ne.symm hx, ih k hmem]

theorem getElem?_of_mem_cut {limit : Nat} {xs : List value}
    (h : newline ∈ cut newline limit xs) :
    xs[(cut newline limit xs).length - 1]? = some newline := by
  have hpos := List.length_pos_of_mem h
  have hmem := (mem_take_iff_of_mem_cut (cut newline limit xs).length h).mpr (Nat.le_refl _)
  have hnot : newline ∉ xs.take ((cut newline limit xs).length - 1) := by
    rw [mem_take_iff_of_mem_cut _ h]
    lia
  obtain ⟨m, hm⟩ : exists m, (cut newline limit xs).length = m + 1 :=
    ⟨(cut newline limit xs).length - 1, by lia⟩
  rw [hm, List.take_add_one, List.mem_append] at hmem
  rw [hm] at hnot ⊢
  simpa using hmem.resolve_left hnot

/-- Without a newline only the limit and the end of the stream cut a line. -/
theorem cut_eq_take {limit : Nat} {xs : List value} (h : newline ∉ xs.take limit) :
    cut newline limit xs = xs.take limit := by
  induction limit generalizing xs with
  | zero => simp
  | succ limit ih =>
      cases xs with
      | nil => simp
      | cons x xs =>
          simp only [List.take_succ_cons, List.mem_cons, not_or] at h
          rw [cut_cons limit xs (Ne.symm h.1), ih h.2, List.take_succ_cons]

theorem cut_eq_self {limit : Nat} {xs : List value} (h : newline ∉ xs)
    (hlength : xs.length ≤ limit) : cut newline limit xs = xs := by
  have htake : xs.take limit = xs := List.take_of_length_le hlength
  rw [cut_eq_take (by rwa [htake]), htake]

def lines (newline : value) (limit : Nat) (xs : List value) : List (List value) :=
  match xs with
  | [] => []
  | x :: xs =>
      cut newline (limit + 1) (x :: xs) ::
        lines newline limit ((x :: xs).drop (cut newline (limit + 1) (x :: xs)).length)
  termination_by xs.length
  decreasing_by
    simp only [cut]
    split
    · simp
    · simp only [List.length_cons, List.drop_succ_cons, List.length_drop]
      lia

@[simp] theorem lines_nil (limit : Nat) : lines newline limit [] = [] := by
  rw [lines]

theorem lines_cons (limit : Nat) (x : value) (xs : List value) :
    lines newline limit (x :: xs) =
      cut newline (limit + 1) (x :: xs) ::
        lines newline limit ((x :: xs).drop (cut newline (limit + 1) (x :: xs)).length) := by
  rw [lines]

theorem cut_append_newline {limit : Nat} {text : List value} (rest : List value)
    (h : newline ∉ text) (hlength : text.length < limit) :
    cut newline limit (text ++ newline :: rest) = text ++ [newline] := by
  induction text generalizing limit with
  | nil =>
      cases limit with
      | zero => cases hlength
      | succ limit => simp [cut_newline]
  | cons x text ih =>
      rw [List.mem_cons, not_or] at h
      cases limit with
      | zero => cases hlength
      | succ limit =>
          rw [List.cons_append, cut_cons _ _ (Ne.symm h.1),
            ih h.2 (Nat.lt_of_succ_lt_succ hlength), List.cons_append]

/-- Lines that were written one after the other are read as they were written. -/
theorem lines_flatten (limit : Nat) (texts : List (List value))
    (h : forall text, text ∈ texts -> newline ∉ text ∧ text.length ≤ limit) :
    lines newline limit (texts.map (fun text => text ++ [newline])).flatten =
      texts.map (fun text => text ++ [newline]) := by
  induction texts with
  | nil => simp
  | cons text texts ih =>
      rcases h text List.mem_cons_self with ⟨hnot, hlength⟩
      have hih := ih (fun other hother => h other (List.mem_cons_of_mem text hother))
      have hcut := cut_append_newline
        (texts.map (fun text => text ++ [newline])).flatten hnot (Nat.lt_succ_of_le hlength)
      have hsplit : ((text :: texts).map (fun text => text ++ [newline])).flatten =
          text ++ newline :: (texts.map (fun text => text ++ [newline])).flatten := by
        simp
      rw [hsplit]
      generalize hstream : text ++ newline :: (texts.map (fun text => text ++ [newline])).flatten
        = stream at hcut
      cases stream with
      | nil => simp at hstream
      | cons x xs =>
          rw [lines_cons, hcut, ← hstream, List.map_cons]
          simp [hih]

end Streams
end PracticeHand
