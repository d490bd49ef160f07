import Mathlib.Data.Nat.Digits.Lemmas
import PracticeHand.ClientServer.WebChild

/-!
# Numbers that `web_child` gets wrong

A request is a line of decimal digits.  On its way to `Writen` the number passes
through a line buffer of `MAXLINE` bytes, through the `long` that `atol` returns
and through the `int` that is compared with `MAXN`.  A line that is too long for
the buffer is taken for several requests, and a number of more than 32 bits is
answered by what is left of it.
-/

namespace PracticeHand
namespace WebChild

open Streams
open Readline

variable {state : Type}

/-!
## One turn of the loop
-/

/-- How a turn of the loop of `web_child` ends: the call is over, or a reply has been
written and the next line is read. -/
inductive Turn (state : Type) where
  | ends (exit : Exit) (next : state)
  | answers (ntowrite : Nat) (line : Buffer) (next : state)

def turn (readline : Buffer -> state -> Option (Call state)) (line : Buffer) (s : state) :
    Turn state :=
  match readline line s with
  | none => .ends .undefined s
  | some c =>
      if c.result < 0 then .ends .readError c.next
      else if c.result = 0 then .ends .closed c.next
      else
        let ntowrite := toInt (atol (cString maxline c.line))
        if ntowrite ≤ 0 ∨ maxn < ntowrite then .ends (.badRequest ntowrite) c.next
        else .answers ntowrite.toNat c.line c.next

theorem webChild_turn (readline : Buffer -> state -> Option (Call state)) (fuel : Nat)
    (line : Buffer) (s : state) :
    webChild readline (fuel + 1) line s =
      match turn readline line s with
      | .ends exit next => some ⟨exit, [], next⟩
      | .answers ntowrite line next =>
          (webChild readline fuel line next).map (fun served =>
            { served with replies := ntowrite :: served.replies }) := by
  rw [webChild, turn]
  cases readline line s with
  | none => rfl
  | some c =>
      dsimp only
      split
      · rfl
      · split
        · rfl
        · split <;> rfl

/-- A line that is whole, or as long as the buffer takes, is one request. -/
theorem turn_readLoop {get : state -> Got UInt8 × state} {tape : state -> Tape UInt8}
    (atEof : Nat -> Nat -> Buffer -> Int × Buffer) {top : Nat} (hget : Follows get tape)
    (htop : maxline ≤ top) (buffer : Buffer) {s : state} {values : List UInt8}
    {fails : Bool} (hs : tape s = ⟨values, fails⟩)
    (hfull : newline ∈ cut newline (maxline - 1) values ∨ maxline - 1 ≤ values.length) :
    let line := cut newline (maxline - 1) values
    exists buffer' next, tape next = ⟨values.drop line.length, fails⟩ ∧
      turn (fun line s => readLoop get atEof top (maxline - 1) 1 0 line s) buffer s =
        if size line ≤ 0 ∨ maxn < size line then .ends (.badRequest (size line)) next
        else .answers (size line).toNat buffer' next := by
  intro line
  have hlength : line.length ≤ maxline - 1 := length_cut_le (maxline - 1) values
  have hmax : maxline - 1 + 1 = maxline := rfl
  have hcount : ¬ top < 1 + increments line := by
    have hle : increments line ≤ line.length := by
      unfold increments
      split <;> lia
    lia
  have htape : tapeCall atEof top (maxline - 1) 1 0 buffer (tape s) =
      some ⟨(1 + increments line : Nat), Function.update (write buffer 0 line) line.length 0,
        ⟨values.drop line.length, fails⟩⟩ := by
    simp only [tapeCall, hs, Nat.zero_add]
    rw [if_neg hcount, if_pos hfull]
  rcases readLoop_of_tapeCall hget (by lia) htape with ⟨c, hcall, hagrees⟩
  have hresult : c.result = (1 + increments line : Nat) := hagrees.result
  have hsize : toInt (atol (cString maxline c.line)) = size line := by
    rw [hagrees.line, cString_stored _ _ (by lia)]
    rfl
  refine ⟨c.line, c.next, hagrees.next (by lia), ?_⟩
  rw [turn, hcall]
  dsimp only
  rw [if_neg (by lia), if_neg (by lia), hsize]

/-!
## Lines of digits
-/

def text (digits : List (Fin 10)) : List UInt8 :=
  digits.map (fun d => UInt8.ofNat (48 + d.val))

def value (digits : List (Fin 10)) : Nat :=
  Nat.ofDigits 10 (digits.map Fin.val).reverse

theorem isDigit_text (digits : List (Fin 10)) : forall c, c ∈ text digits -> isDigit c = true := by
  intro c hc
  rcases List.mem_map.mp hc with ⟨d, _, rfl⟩
  exact isDigit_digit d.isLt

theorem newline_not_mem_text (digits : List (Fin 10)) : newline ∉ text digits := by
  intro h
  exact absurd (isDigit_text digits newline h) (by decide)

theorem foldl_text (digits : List (Fin 10)) :
    (text digits).foldl (fun v c => 10 * v + (c.toNat - 48)) 0 = value digits := by
  have hsmall : forall d, d ∈ (digits.map Fin.val).reverse -> d < 10 := by
    intro d hd
    rcases List.mem_map.mp (List.mem_reverse.mp hd) with ⟨e, _, rfl⟩
    exact e.isLt
  have hfold := foldl_digits _ hsmall
  rw [List.reverse_reverse, List.map_map] at hfold
  exact hfold

/-- `atol` reads the digits of a line up to the newline, or up to the NUL that
`readline` has stored behind them. -/
theorem atol_text (digits : List (Fin 10)) {ending : List UInt8}
    (hending : ending = [] ∨ ending = [newline]) :
    atol (text digits ++ ending) = min (2 ^ 63 - 1) (value digits : Int) := by
  have hvalue : digitsValue (text digits ++ ending) = value digits := by
    rw [digitsValue]
    rcases hending with rfl | rfl
    · rw [List.append_nil, List.takeWhile_eq_self_iff.mpr (isDigit_text digits), foldl_text]
    · rw [takeWhile_isDigit _ (isDigit_text digits) (by decide), foldl_text]
  cases digits with
  | nil => rcases hending with rfl | rfl <;> rfl
  | cons d digits =>
      rw [← hvalue]
      exact atol_digit (isDigit_digit d.isLt) _

theorem size_text (digits : List (Fin 10)) {ending : List UInt8}
    (hending : ending = [] ∨ ending = [newline]) :
    size (text digits ++ ending) = toInt (min (2 ^ 63 - 1) (value digits : Int)) := by
  have hplain : forall c, c ∈ text digits ++ ending -> (c != 0) = true := by
    intro c hc
    rw [bne_iff_ne]
    intro heq
    subst heq
    rcases List.mem_append.mp hc with hdigit | hend
    · exact absurd (isDigit_text digits 0 hdigit) (by decide)
    · rcases hending with rfl | rfl
      · cases hend
      · exact absurd (List.mem_singleton.mp hend) (by decide)
  rw [size, List.takeWhile_eq_self_iff.mpr hplain, atol_text digits hending]

/-- The number is still in range when it has become a `long` and then an `int`. -/
def Passes (v : Nat) : Prop :=
  v < 2 ^ 63 ∧ 1 ≤ v % 2 ^ 32 ∧ v % 2 ^ 32 ≤ maxn

instance (v : Nat) : Decidable (Passes v) :=
  inferInstanceAs (Decidable (_ ∧ _ ∧ _))

theorem toInt_long (v : Nat) :
    toInt (min (2 ^ 63 - 1) (v : Int)) =
      if v < 2 ^ 63 then (v : Int).bmod (2 ^ 32) else -1 := by
  unfold toInt
  split
  · rw [min_eq_right (by lia)]
  · rw [min_eq_left (by lia)]
    decide

theorem passes_iff (v : Nat) :
    ¬ (toInt (min (2 ^ 63 - 1) (v : Int)) ≤ 0 ∨ maxn < toInt (min (2 ^ 63 - 1) (v : Int))) <->
      Passes v := by
  have hmax : maxn = 16384 := rfl
  rw [toInt_long, Passes]
  split
  · rw [Int.bmod_def]
    split <;> lia
  · lia

theorem toInt_of_passes {v : Nat} (h : Passes v) :
    toInt (min (2 ^ 63 - 1) (v : Int)) = (v % 2 ^ 32 : Nat) := by
  have hmax : maxn = 16384 := rfl
  rcases h with ⟨hlong, _, hhigh⟩
  rw [toInt_long, if_pos hlong, Int.bmod_def, if_pos (by lia)]
  lia

theorem mod_of_range {v : Nat} (hv : v ≤ maxn) : v % 2 ^ 32 = v :=
  Nat.mod_eq_of_lt (Nat.lt_of_le_of_lt hv (by decide))

theorem passes_of_range {v : Nat} (hlow : 1 ≤ v) (hhigh : v ≤ maxn) : Passes v := by
  rw [Passes, mod_of_range hhigh]
  exact ⟨Nat.lt_of_le_of_lt hhigh (by decide), hlow, hhigh⟩

/-!
## What becomes of a request
-/

def head (digits : List (Fin 10)) : List (Fin 10) :=
  digits.take (maxline - 1)

theorem head_of_short {digits : List (Fin 10)} (h : digits.length < maxline - 1) :
    head digits = digits :=
  List.take_of_length_le (Nat.le_of_lt h)

theorem cut_text (digits : List (Fin 10)) (rest : List UInt8) :
    let line := cut newline (maxline - 1) (text digits ++ newline :: rest)
    (newline ∈ line ∨ maxline - 1 ≤ (text digits ++ newline :: rest).length) ∧
      size line = toInt (min (2 ^ 63 - 1) (value (head digits) : Int)) ∧
      line.length = min (digits.length + 1) (maxline - 1) := by
  have hlength : (text digits).length = digits.length := List.length_map _
  dsimp only
  by_cases hshort : digits.length < maxline - 1
  · rw [cut_append_newline rest (newline_not_mem_text digits) (by lia), head_of_short hshort,
      size_text digits (Or.inr rfl)]
    refine ⟨Or.inl (by simp), rfl, ?_⟩
    rw [List.length_append, hlength, List.length_singleton]
    lia
  · have htake : (text digits ++ newline :: rest).take (maxline - 1) = text (head digits) := by
      rw [List.take_append_of_le_length (by lia), text, text, head, List.map_take]
    rw [cut_eq_take (by rw [htake]; exact newline_not_mem_text _), htake]
    refine ⟨Or.inr ?_, ?_, ?_⟩
    · rw [List.length_append, hlength]
      lia
    · have hsize := size_text (head digits) (Or.inl rfl)
      rwa [List.append_nil] at hsize
    · rw [text, List.length_map, head, List.length_take]
      lia

section Readers

variable {get : state -> Got UInt8 × state} {tape : state -> Tape UInt8}
  (atEof : Nat -> Nat -> Buffer -> Int × Buffer) {top : Nat}

theorem turn_text (hget : Follows get tape) (htop : maxline ≤ top) (buffer : Buffer)
    {s : state} {digits : List (Fin 10)} {rest : List UInt8} {fails : Bool}
    (hs : tape s = ⟨text digits ++ newline :: rest, fails⟩) :
    exists buffer' next,
      tape next = ⟨(text digits ++ newline :: rest).drop
        (min (digits.length + 1) (maxline - 1)), fails⟩ ∧
      turn (fun line s => readLoop get atEof top (maxline - 1) 1 0 line s) buffer s =
        if Passes (value (head digits)) then
          .answers (value (head digits) % 2 ^ 32) buffer' next
        else
          .ends (.badRequest (toInt (min (2 ^ 63 - 1) (value (head digits) : Int)))) next := by
  rcases cut_text digits rest with ⟨hfull, hsize, hlength⟩
  rcases turn_readLoop atEof hget htop buffer hs hfull with
    ⟨buffer', next, hnext, hturn⟩
  rw [hlength] at hnext
  refine ⟨buffer', next, hnext, ?_⟩
  rw [hturn, hsize]
  by_cases hpass : Passes (value (head digits))
  · rw [if_pos hpass, if_neg ((passes_iff _).mpr hpass), toInt_of_passes hpass]
    rfl
  · rw [if_neg hpass, if_pos (Classical.not_not.mp (mt (passes_iff _).mp hpass))]

/-- A request for `v` bytes gets `v` bytes and the next line is read, or the call ends
without a reply to it. -/
def Meets (tape : state -> Tape UInt8) (rest : Tape UInt8) (v : Nat) (t : Turn state) : Prop :=
  if 1 ≤ v ∧ v ≤ maxn then exists line next, t = .answers v line next ∧ tape next = rest
  else exists ntowrite next, t = .ends (.badRequest ntowrite) next

/-- A request in range fits into the line buffer.  The number in front of the line of
any other request does not pass. -/
def Handled (digits : List (Fin 10)) : Prop :=
  if 1 ≤ value digits ∧ value digits ≤ maxn then digits.length < maxline - 1
  else ¬ Passes (value (head digits))

instance (digits : List (Fin 10)) : Decidable (Handled digits) :=
  inferInstanceAs (Decidable (if 1 ≤ value digits ∧ value digits ≤ maxn then
    digits.length < maxline - 1 else ¬ Passes (value (head digits))))

theorem turn_meets_iff (hget : Follows get tape) (htop : maxline ≤ top) (buffer : Buffer)
    {s : state} {digits : List (Fin 10)} {rest : List UInt8} {fails : Bool}
    (hs : tape s = ⟨text digits ++ newline :: rest, fails⟩) :
    Meets tape ⟨rest, fails⟩ (value digits)
        (turn (fun line s => readLoop get atEof top (maxline - 1) 1 0 line s) buffer s) <->
      Handled digits := by
  rcases turn_text atEof hget htop buffer hs with ⟨buffer', next, hnext, hturn⟩
  have hlength : (text digits).length = digits.length := List.length_map _
  rw [hturn, Meets, Handled]
  split
  · rename_i hrange
    constructor
    · intro hanswer
      rcases hanswer with ⟨line, after, hafter, hrest⟩
      split at hafter
      · rw [Turn.answers.injEq] at hafter
        rw [← hafter.2.2] at hrest
        -- behind a line that does not fit, its end is still to be read
        rw [hnext, Tape.mk.injEq] at hrest
        have hleft := congrArg List.length hrest.1
        rw [List.length_drop, List.length_append, List.length_cons, hlength] at hleft
        lia
      · cases hafter
    · intro hshort
      have hhead := head_of_short hshort
      refine ⟨buffer', next, ?_, ?_⟩
      · rw [hhead, if_pos (passes_of_range hrange.1 hrange.2), mod_of_range hrange.2]
      · rw [hnext, min_eq_left (by lia), ← hlength]
        simp
  · constructor
    · intro hquit hpass
      rcases hquit with ⟨ntowrite, after, hafter⟩
      rw [if_pos hpass] at hafter
      cases hafter
    · intro hpass
      exact ⟨_, next, by rw [if_neg hpass]⟩

end Readers

/-- Whatever arrives behind a line of digits, `web_child` does what the line asks for
exactly when the number reaches it unharmed, with each of the three readers. -/
theorem webChild_meets_iff (digits : List (Fin 10)) (rest : List UInt8) (fails : Bool)
    (line : Buffer) :
    (forall s : Source UInt8, s.tape false = ⟨text digits ++ newline :: rest, fails⟩ ->
      (Meets (Source.tape false) ⟨rest, fails⟩ (value digits)
        (turn (fun line s => readline line maxline s) line s) <-> Handled digits)) ∧
    (forall r : Ahead × Source UInt8,
      Ahead.tape r = ⟨text digits ++ newline :: rest, fails⟩ ->
      (Meets Ahead.tape ⟨rest, fails⟩ (value digits)
        (turn (fun line r => libReadline line maxline r) line r) <-> Handled digits)) ∧
    (forall r : Rline × Source UInt8, r.1.readMaxlen = maxline ->
      Rline.tape r = ⟨text digits ++ newline :: rest, fails⟩ ->
      (Meets Rline.tape ⟨rest, fails⟩ (value digits) (turn readlineR line r) <->
        Handled digits)) := by
  refine ⟨?_, ?_, ?_⟩
  · intro s hs
    exact turn_meets_iff eofBreak readOne_follows (by decide) line hs
  · intro r hr
    exact turn_meets_iff eofReturn myRead_follows (by decide) line hr
  · intro r hmaxlen hr
    have hturn : turn readlineR line r =
        turn (fun line r => readLoop myReadR eofBreak intMax (maxline - 1) 1 0 line r) line r := by
      rw [turn, turn, readlineR, hmaxlen]
    rw [hturn]
    exact turn_meets_iff eofBreak myReadR_follows (by decide) line hr

/-- The request `12`, answered with 12 bytes. -/
theorem webChild_meets_twelve :
    Meets (Source.tape false) ⟨[], false⟩ 12
      (turn (fun line s => readline line maxline s) (fun _ => 0) [.data 49 [50, 10]]) :=
  ((webChild_meets_iff [1, 2] [] false (fun _ => 0)).1 _ rfl).mpr (by decide)

/-- The request `4294967297`, answered with one byte. -/
theorem webChild_answers_high_number :
    value [4, 2, 9, 4, 9, 6, 7, 2, 9, 7] = 4294967297 ∧
    ¬ Meets (Source.tape false) ⟨[], false⟩ 4294967297
      (turn (fun line s => readline line maxline s) (fun _ => 0)
        [.data 52 [50, 57, 52, 57, 54, 55, 50, 57, 55, 10]]) ∧
    exists line next, turn (fun line s => readline line maxline s) (fun _ => 0)
        [.data 52 [50, 57, 52, 57, 54, 55, 50, 57, 55, 10]] = .answers 1 line next := by
  have hvalue : value [4, 2, 9, 4, 9, 6, 7, 2, 9, 7] = 4294967297 := by decide
  have hs : Source.tape false [.data 52 [50, 57, 52, 57, 54, 55, 50, 57, 55, 10]] =
      ⟨text [4, 2, 9, 4, 9, 6, 7, 2, 9, 7] ++ newline :: [], false⟩ := rfl
  refine ⟨hvalue, ?_, ?_⟩
  · rw [← hvalue]
    intro hmeets
    exact absurd ((turn_meets_iff eofBreak readOne_follows (by decide) (fun _ => 0) hs).mp hmeets)
      (by decide)
  · rcases turn_text eofBreak readOne_follows (by decide : maxline ≤ ssizeMax)
      (fun _ => 0) hs with ⟨buffer, next, _, hturn⟩
    exact ⟨buffer, next, hturn⟩

end WebChild
end PracticeHand
