import Mathlib.Data.List.TakeWhile
import Mathlib.Data.Nat.Digits.Lemmas
import PracticeHand.ClientServer.Readline

/-!
# Serving one connection

`web_child` reads a line, takes the number in it for the size of the reply and
writes that many bytes, until the client closes the connection.  The servers
link it with the `readline` of `libunp`, whose static variables live as long as
the process; `client_server/readline.c` has the version without a buffer.
-/

namespace PracticeHand
namespace WebChild

open Streams
open Readline

def maxn : Nat := 16384

/-!
## Numbers in lines
-/

def isSpace (c : UInt8) : Bool :=
  c == 32 || (9 ≤ c && c ≤ 13)

def isDigit (c : UInt8) : Bool :=
  48 ≤ c && c ≤ 57

def digitsValue (text : List UInt8) : Nat :=
  (text.takeWhile isDigit).foldl (fun v c => 10 * v + (c.toNat - 48)) 0

/-- `atol` is `strtol` in base 10: blanks, a sign, digits, and the nearest `long`
when the number does not fit. -/
def atol (text : List UInt8) : Int :=
  match text.dropWhile isSpace with
  | 45 :: digits => max (-2 ^ 63) (-(digitsValue digits : Int))
  | 43 :: digits => min (2 ^ 63 - 1) (digitsValue digits : Int)
  | digits => min (2 ^ 63 - 1) (digitsValue digits : Int)

def toInt (v : Int) : Int :=
  v.bmod (2 ^ 32)

def cString (size : Nat) (buf : Buffer) : List UInt8 :=
  (slice buf 0 size).takeWhile (fun c => c != 0)

def decimal (n : Nat) : List UInt8 :=
  if n = 0 then [48] else (Nat.digits 10 n).reverse.map (fun d => UInt8.ofNat (48 + d))

/-- The request that `client.c` prints and writes. -/
def request (nbytes : Nat) : List UInt8 :=
  decimal nbytes ++ [newline]

/-!
## The loop
-/

inductive Exit where
  /-- the client has closed the connection and `web_child` returns -/
  | closed
  /-- `err_sys` in the wrapper `Readline` -/
  | readError
  /-- `err_quit` -/
  | badRequest (ntowrite : Int)
  /-- the counter of `readline` overflows -/
  | undefined
  deriving DecidableEq

/-- How a call ends, the lengths passed to `Writen`, and the reader after it. -/
structure Served (state : Type) where
  exit : Exit
  replies : List Nat
  next : state

/-- `line` is the array of the function, with whatever is in it at first. -/
def webChild {state : Type} (readline : Buffer -> state -> Option (Call state)) :
    Nat -> Buffer -> state -> Option (Served state)
  | 0, _, _ => none
  | fuel + 1, line, s =>
      match readline line s with
      | none => some ⟨.undefined, [], s⟩
      | some c =>
          if c.result < 0 then
            some ⟨.readError, [], c.next⟩
          else if c.result = 0 then
            some ⟨.closed, [], c.next⟩
          else
            let ntowrite := toInt (atol (cString maxline c.line))
            if ntowrite ≤ 0 ∨ maxn < ntowrite then
              some ⟨.badRequest ntowrite, [], c.next⟩
            else
              (webChild readline fuel c.line c.next).map (fun served =>
                { served with replies := ntowrite.toNat :: served.replies })

/-- The process serves one connection after the other, as `serv00` and the
children of the preforked servers do, until a call does not return. -/
def serve (fuel : Nat) : Ahead -> List (Buffer × Source UInt8) ->
    Option (List (Served (Ahead × Source UInt8)))
  | _, [] => some []
  | statics, (line, s) :: connections =>
      match webChild (fun line r => libReadline line maxline r) fuel line (statics, s) with
      | none => none
      | some served =>
          if served.exit = .closed then
            (serve fuel served.next.1 connections).map (fun others => served :: others)
          else
            some [served]

/-!
## What a reader of lines must do

Both versions of `readline` cut the stream in the same way; only the results
differ, and `web_child` looks at them only to see whether they are 0.
-/

variable {state : Type}

def size (line : List UInt8) : Int :=
  toInt (atol (line.takeWhile (fun c => c != 0)))

def requests (values : List UInt8) : List (List UInt8) :=
  lines newline (maxline - 2) values

def InRange (values : List UInt8) : Prop :=
  forall line, line ∈ requests values -> 1 ≤ size line ∧ size line ≤ maxn

structure ReadsLines (readline : Buffer -> state -> Option (Call state))
    (tape : state -> Tape UInt8) : Prop where
  eof : forall line s, tape s = ⟨[], false⟩ ->
    exists c, readline line s = some c ∧ c.result = 0 ∧ tape c.next = ⟨[], false⟩
  line : forall line s x xs, tape s = ⟨x :: xs, false⟩ ->
    exists c, readline line s = some c ∧ 0 < c.result ∧
      toInt (atol (cString maxline c.line)) =
        size (cut newline (maxline - 1) (x :: xs)) ∧
      tape c.next = ⟨(x :: xs).drop (cut newline (maxline - 1) (x :: xs)).length, false⟩

theorem webChild_serves {readline : Buffer -> state -> Option (Call state)}
    {tape : state -> Tape UInt8} (hreads : ReadsLines readline tape)
    (values : List UInt8) : forall (fuel : Nat) (line : Buffer) (s : state),
    InRange values -> tape s = ⟨values, false⟩ -> values.length < fuel ->
    exists served, webChild readline fuel line s = some served ∧
      served.exit = .closed ∧
      served.replies = (requests values).map (fun l => (size l).toNat) := by
  induction values using lines.induct newline (maxline - 2) with
  | case1 =>
      intro fuel line s _ hs hfuel
      rcases hreads.eof line s hs with ⟨c, hc, hresult, _⟩
      cases fuel with
      | zero => cases hfuel
      | succ fuel =>
          refine ⟨⟨.closed, [], c.next⟩, ?_, rfl, by simp [requests]⟩
          simp [webChild, hc, hresult]
  | case2 x xs ih =>
      intro fuel line s hrange hs hfuel
      rcases hreads.line line s x xs hs with ⟨c, hc, hresult, hsize, hnext⟩
      have hlimit : maxline - 2 + 1 = maxline - 1 := rfl
      have hrequests : requests (x :: xs) = _ :: requests _ := lines_cons (maxline - 2) x xs
      have hpos := @length_cut_pos _ _ newline (maxline - 2) x xs
      rw [hlimit] at ih hrequests hpos
      rcases hrange _ (by rw [hrequests]; exact List.mem_cons_self) with ⟨hlow, hhigh⟩
      cases fuel with
      | zero => cases hfuel
      | succ fuel =>
          rcases ih fuel c.line c.next
              (fun l hl => hrange l (by rw [hrequests]; exact List.mem_cons_of_mem _ hl))
              hnext (by rw [List.length_drop]; rw [List.length_cons] at hfuel ⊢; lia) with
            ⟨served, hserved, hexit, hreplies⟩
          let reply := (size (cut newline (maxline - 1) (x :: xs))).toNat
          refine ⟨{ served with replies := reply :: served.replies }, ?_, hexit, ?_⟩
          · rw [webChild, hc]
            dsimp only
            rw [if_neg (by lia), if_neg (by lia), hsize, if_neg (by lia), hserved]
            rfl
          · rw [hrequests, List.map_cons, hreplies]

/-!
## The two readers
-/

theorem takeWhile_append_stop {p : UInt8 -> Bool} {stop : UInt8} (hstop : p stop = false)
    (text rest : List UInt8) :
    (text ++ stop :: rest).takeWhile p = text.takeWhile p := by
  induction text with
  | nil => simp [hstop]
  | cons c text ih => simp only [List.cons_append, List.takeWhile_cons, ih]

/-- What is left of earlier lines behind the NUL is not looked at. -/
theorem cString_stored {length : Nat} (buf : Buffer) (line : List UInt8)
    (h : line.length < length) :
    cString length (Function.update (write buf 0 line) line.length 0) =
      line.takeWhile (fun c => c != 0) := by
  obtain ⟨rest, hrest⟩ : exists rest, length = line.length + (rest + 1) :=
    ⟨length - line.length - 1, by lia⟩
  rw [cString, hrest, slice_add, slice_update_after _ _ _ _ _ (by lia), slice_write, slice,
    Nat.zero_add, Function.update_self]
  exact takeWhile_append_stop rfl line _

section Loops

variable {atEof : Nat -> Nat -> Buffer -> Int × Buffer} {top : Nat}

theorem tapeCall_line (htop : maxline ≤ top)
    (hsome : forall n ptr line, 1 < n ->
      0 < (atEof n ptr line).1 ∧ (atEof n ptr line).2 = Function.update line ptr 0)
    (buffer : Buffer) (x : UInt8) (xs : List UInt8) :
    let line := cut newline (maxline - 1) (x :: xs)
    exists d, tapeCall atEof top (maxline - 1) 1 0 buffer ⟨x :: xs, false⟩ = some d ∧
      0 < d.result ∧ d.line = Function.update (write buffer 0 line) line.length 0 ∧
      d.next = ⟨(x :: xs).drop line.length, false⟩ := by
  intro line
  have hlength : line.length ≤ maxline - 1 := length_cut_le (maxline - 1) (x :: xs)
  have hcount : ¬ top < 1 + increments line := by
    have hle : increments line ≤ line.length := by
      unfold increments
      split <;> lia
    have : maxline - 1 + 1 = maxline := rfl
    lia
  simp only [tapeCall, Nat.zero_add]
  rw [if_neg hcount]
  split
  · refine ⟨_, rfl, ?_, rfl, rfl⟩
    dsimp only
    lia
  · rename_i hshort
    rw [not_or, Nat.not_le, mem_cut_iff] at hshort
    have htake : (x :: xs).take (maxline - 1) = x :: xs :=
      List.take_of_length_le (Nat.le_of_lt hshort.2)
    have hline : line = x :: xs := (cut_eq_take hshort.1).trans htake
    rw [htake] at hshort
    have hmany : 1 < 1 + increments line := by
      rw [hline, increments_of_not_mem hshort.1, List.length_cons]
      lia
    rcases hsome (1 + increments line) line.length (write buffer 0 line) hmany with
      ⟨hresult, hstored⟩
    refine ⟨_, rfl, hresult, hstored, ?_⟩
    rw [hline, List.drop_length]

/-- A loop reads lines if at the end of file it returns 0 without data and ends the
string with data. -/
theorem readsLines_of_follows {get : state -> Got UInt8 × state}
    {tape : state -> Tape UInt8} (hget : Follows get tape) (htop : maxline ≤ top)
    (hnone : forall line, (atEof 1 0 line).1 = 0)
    (hsome : forall n ptr line, 1 < n ->
      0 < (atEof n ptr line).1 ∧ (atEof n ptr line).2 = Function.update line ptr 0) :
    ReadsLines (fun line s => readLoop get atEof top (maxline - 1) 1 0 line s) tape := by
  have hone : 1 ≤ top := Nat.le_trans (by decide) htop
  constructor
  · intro line s hs
    have hd : tapeCall atEof top (maxline - 1) 1 0 line (tape s) =
        some ⟨(atEof 1 0 line).1, (atEof 1 0 line).2, ⟨[], false⟩⟩ := by
      rw [hs, tapeCall_of_short (List.not_mem_nil) (by decide)]
      simp only [List.length_nil, Nat.add_zero, write, Bool.false_eq_true, if_false]
      rw [if_neg (by lia)]
    rcases readLoop_of_tapeCall hget hone hd with ⟨c, hc, hagrees⟩
    have hresult : c.result = 0 := hagrees.result.trans (hnone line)
    exact ⟨c, hc, hresult, hagrees.next (by lia)⟩
  · intro line s x xs hs
    rcases tapeCall_line htop hsome line x xs with ⟨d, hd, hresult, hline, hnext⟩
    rw [← hs] at hd
    rcases readLoop_of_tapeCall hget hone hd with ⟨c, hc, hagrees⟩
    have hpos : 0 < c.result := by
      rw [hagrees.result]
      exact hresult
    refine ⟨c, hc, hpos, ?_, ?_⟩
    · rw [hagrees.line, hline, cString_stored]
      · rfl
      · exact Nat.lt_of_le_of_lt (length_cut_le (maxline - 1) (x :: xs)) (by decide)
    · rw [hagrees.next (Int.le_of_lt hpos), hnext]

end Loops

theorem readline_readsLines :
    ReadsLines (fun line s => readline line maxline s) (Source.tape false) := by
  apply readsLines_of_follows readOne_follows (by decide)
  · intro line
    rfl
  · intro n ptr line hn
    simp only [eofBreak, if_neg (show n ≠ 1 by lia), and_true]
    lia

theorem libReadline_readsLines :
    ReadsLines (fun line r => libReadline line maxline r) Ahead.tape := by
  apply readsLines_of_follows myRead_follows (by decide)
  · intro line
    rfl
  · intro n ptr line hn
    simp only [eofReturn, and_true]
    lia

/-!
## Requests as the client encodes them
-/

theorem toNat_digit {d : Nat} (hd : d < 10) : (UInt8.ofNat (48 + d)).toNat = 48 + d := by
  rw [UInt8.toNat_ofNat']
  exact Nat.mod_eq_of_lt (by lia)

theorem isDigit_digit {d : Nat} (hd : d < 10) : isDigit (UInt8.ofNat (48 + d)) = true := by
  have htoNat := toNat_digit hd
  simp only [isDigit, Bool.and_eq_true, decide_eq_true_eq, UInt8.le_iff_toNat_le]
  rw [htoNat]
  change 48 ≤ 48 + d ∧ 48 + d ≤ 57
  lia

theorem isDigit_decimal (n : Nat) : forall c, c ∈ decimal n -> isDigit c = true := by
  intro c hc
  unfold decimal at hc
  split at hc
  · rw [List.mem_singleton.mp hc]
    rfl
  · rcases List.mem_map.mp hc with ⟨d, hd, rfl⟩
    exact isDigit_digit (Nat.digits_lt_base (by decide) (List.mem_reverse.mp hd))

theorem foldl_digits (digits : List Nat) (h : forall d, d ∈ digits -> d < 10) :
    (digits.reverse.map (fun d => UInt8.ofNat (48 + d))).foldl
      (fun v c => 10 * v + (c.toNat - 48)) 0 = Nat.ofDigits 10 digits := by
  induction digits with
  | nil => rfl
  | cons d digits ih =>
      have hd := toNat_digit (h d List.mem_cons_self)
      have hih := ih (fun e he => h e (List.mem_cons_of_mem d he))
      simp only [List.reverse_cons, List.map_append, List.map_cons, List.map_nil,
        List.foldl_append, List.foldl_cons, List.foldl_nil]
      rw [hih, hd, Nat.ofDigits_cons]
      lia

theorem foldl_decimal (n : Nat) :
    (decimal n).foldl (fun v c => 10 * v + (c.toNat - 48)) 0 = n := by
  unfold decimal
  split
  · rename_i hn
    rw [hn]
    rfl
  · rw [foldl_digits _ (fun d hd => Nat.digits_lt_base (by decide) hd), Nat.ofDigits_digits]

theorem decimal_ne_nil (n : Nat) : decimal n ≠ [] := by
  unfold decimal
  split
  · exact List.cons_ne_nil _ _
  · rename_i hn
    simpa [Nat.digits_eq_nil_iff_eq_zero] using hn

theorem takeWhile_isDigit (text : List UInt8) (h : forall c, c ∈ text -> isDigit c = true)
    {stop : UInt8} (hstop : isDigit stop = false) (rest : List UInt8) :
    (text ++ stop :: rest).takeWhile isDigit = text := by
  rw [List.takeWhile_append_of_pos h, List.takeWhile_cons_of_neg (by simp [hstop]),
    List.append_nil]

theorem digit_plain {c : UInt8} (h : isDigit c = true) :
    isSpace c = false ∧ c ≠ 45 ∧ c ≠ 43 := by
  simp only [isDigit, Bool.and_eq_true, decide_eq_true_eq, UInt8.le_iff_toNat_le] at h
  simp only [isSpace, Bool.or_eq_false_iff, Bool.and_eq_false_iff, beq_eq_false_iff_ne,
    decide_eq_false_iff_not, UInt8.le_iff_toNat_le, ne_eq, ← UInt8.toNat_inj]
  change 48 ≤ c.toNat ∧ c.toNat ≤ 57 at h
  change (¬ c.toNat = 32 ∧ (¬ 9 ≤ c.toNat ∨ ¬ c.toNat ≤ 13)) ∧ ¬ c.toNat = 45 ∧ ¬ c.toNat = 43
  lia

theorem atol_digit {c : UInt8} (hc : isDigit c = true) (text : List UInt8) :
    atol (c :: text) = min (2 ^ 63 - 1) (digitsValue (c :: text) : Int) := by
  rcases digit_plain hc with ⟨hspace, hminus, hplus⟩
  simp only [atol, List.dropWhile_cons_of_neg (show ¬ isSpace c = true by simp [hspace])]
  split
  · rename_i heq
    exact absurd (List.cons.inj heq).1 hminus
  · rename_i heq
    exact absurd (List.cons.inj heq).1 hplus
  · rfl

/-- The decimal text of a `long` is read back, whatever follows it. -/
theorem atol_decimal {n : Nat} (hn : n < 2 ^ 63) {stop : UInt8}
    (hstop : isDigit stop = false) (rest : List UInt8) :
    atol (decimal n ++ stop :: rest) = n := by
  have hvalue : digitsValue (decimal n ++ stop :: rest) = n := by
    rw [digitsValue, takeWhile_isDigit _ (isDigit_decimal n) hstop, foldl_decimal]
  rcases List.exists_cons_of_ne_nil (decimal_ne_nil n) with ⟨d, ds, hd⟩
  have hdigit : isDigit d = true := isDigit_decimal n d (by rw [hd]; exact List.mem_cons_self)
  rw [hd, List.cons_append] at hvalue ⊢
  rw [atol_digit hdigit, hvalue]
  lia

theorem newline_not_mem_decimal (n : Nat) : newline ∉ decimal n := by
  intro h
  exact absurd (isDigit_decimal n newline h) (by decide)

theorem size_request {n : Nat} (hn : n ≤ maxn) : size (request n) = n := by
  have hplain : forall c, c ∈ request n -> (c != 0) = true := by
    intro c hc
    rcases List.mem_append.mp hc with hdigit | hend
    · rw [bne_iff_ne]
      intro heq
      subst heq
      exact absurd (isDigit_decimal n 0 hdigit) (by decide)
    · rw [List.mem_singleton.mp hend]
      rfl
  have hlt : n < 2 ^ 63 := Nat.lt_of_le_of_lt hn (by decide)
  rw [size, List.takeWhile_eq_self_iff.mpr hplain, request, atol_decimal hlt rfl []]
  rw [toInt, Int.bmod_eq_of_le] <;> simp only [maxn] at hn <;> lia

theorem length_decimal_le {n : Nat} (hn : n ≤ maxn) : (decimal n).length ≤ maxline - 2 := by
  unfold decimal
  split
  · decide
  · rw [List.length_map, List.length_reverse]
    refine Nat.le_trans ((Nat.digits_length_le_iff (by decide) n).mpr ?_) (by decide : 5 ≤ _)
    exact Nat.lt_of_le_of_lt hn (by decide)

theorem requests_of_sizes {sizes : List Nat} (h : forall n, n ∈ sizes -> n ≤ maxn) :
    requests (sizes.map request).flatten = sizes.map request := by
  have hplain : forall text, text ∈ sizes.map decimal ->
      newline ∉ text ∧ text.length ≤ maxline - 2 := by
    intro text htext
    rcases List.mem_map.mp htext with ⟨n, hn, rfl⟩
    exact ⟨newline_not_mem_decimal n, length_decimal_le (h n hn)⟩
  have hlines := lines_flatten (maxline - 2) (sizes.map decimal) hplain
  rw [List.map_map] at hlines
  exact hlines

/-- However the requests arrive, the replies are as long as they ask for, and the
call returns when the client has closed the connection. -/
theorem webChild_answers_requests {sizes : List Nat}
    (hsizes : forall n, n ∈ sizes -> 1 ≤ n ∧ n ≤ maxn) (line : Buffer) {s : Source UInt8}
    (hs : s.tape false = ⟨(sizes.map request).flatten, false⟩) {fuel : Nat}
    (hfuel : (sizes.map request).flatten.length < fuel) :
    exists served,
      webChild (fun line s => readline line maxline s) fuel line s = some served ∧
        served.exit = .closed ∧ served.replies = sizes := by
  have hrequests := requests_of_sizes (fun n hn => (hsizes n hn).2)
  have hrange : InRange (sizes.map request).flatten := by
    intro l hl
    rw [hrequests] at hl
    rcases List.mem_map.mp hl with ⟨n, hn, rfl⟩
    rcases hsizes n hn with ⟨hlow, hhigh⟩
    rw [size_request hhigh]
    lia
  rcases webChild_serves readline_readsLines _ fuel line s hrange hs hfuel with
    ⟨served, hserved, hexit, hreplies⟩
  refine ⟨served, hserved, hexit, ?_⟩
  rw [hreplies, hrequests, List.map_map]
  conv_rhs => rw [← List.map_id sizes]
  apply List.map_congr_left
  intro n hn
  rw [Function.comp_apply, size_request (hsizes n hn).2, Int.toNat_natCast, id_eq]

theorem webChild_answers_two_requests :
    exists served,
      webChild (fun line s => readline line maxline s) 8 (fun _ => 57)
        [.data 49 [50, 10, 51], .data 10 []] = some served ∧
        served.exit = .closed ∧ served.replies = [12, 3] :=
  @webChild_answers_requests [12, 3] (by decide) (fun _ => 57) _ rfl 8 (by decide)

/-!
## One process, many connections
-/

theorem cnt_of_myRead_zero {r next : Ahead × Source UInt8}
    (h : myRead r = (.zero, next)) : next.1.cnt = 0 := by
  rcases r with ⟨a, s⟩
  rw [myRead, Ahead.get] at h
  split at h
  · split at h
    · cases h
      rfl
    · cases h
    · cases h
  · cases h

theorem cnt_of_readLoop_zero {top : Nat} (rounds : Nat) : forall {n ptr : Nat} {line : Buffer}
    {r : Ahead × Source UInt8} {c : Call (Ahead × Source UInt8)}, 1 ≤ n ->
    readLoop myRead eofReturn top rounds n ptr line r = some c -> c.result = 0 ->
    c.next.1.cnt = 0 := by
  induction rounds with
  | zero =>
      intro n ptr line r c hn h hresult
      cases h
      dsimp only at hresult
      lia
  | succ rounds ih =>
      intro n ptr line r c hn h hresult
      rcases hgot : myRead r with ⟨got, next⟩
      rw [readLoop, hgot] at h
      cases got with
      | one x =>
          dsimp only at h
          split at h
          · cases h
            dsimp only at hresult
            lia
          · split at h
            · cases h
            · exact ih (by lia) h hresult
      | zero =>
          cases h
          exact cnt_of_myRead_zero hgot
      | error =>
          cases h
          exact absurd hresult (show ¬ (-1 : Int) = 0 by decide)

/-- Whenever the function returns, the buffer is drained. -/
theorem cnt_of_webChild_closed (fuel : Nat) : forall {line : Buffer}
    {r : Ahead × Source UInt8} {served : Served (Ahead × Source UInt8)},
    webChild (fun line r => libReadline line maxline r) fuel line r = some served ->
    served.exit = .closed -> served.next.1.cnt = 0 := by
  induction fuel with
  | zero =>
      intro line r served h _
      cases h
  | succ fuel ih =>
      intro line r served h hexit
      rw [webChild] at h
      split at h
      · cases h
        cases hexit
      · rename_i c hc
        split at h
        · cases h
          cases hexit
        · split at h
          · rename_i hresult
            cases h
            exact cnt_of_readLoop_zero (maxline - 1) (Nat.le_refl 1) hc hresult
          · dsimp only at h
            split at h
            · cases h
              cases hexit
            · rcases Option.map_eq_some_iff.mp h with ⟨others, hothers, rfl⟩
              have hcnt := ih hothers hexit
              exact hcnt

theorem tape_of_cnt_zero {a : Ahead} (h : a.cnt = 0) (s : Source UInt8) :
    Ahead.tape (a, s) = s.tape true := by
  rw [Ahead.tape, Ahead.pending_eq_nil_iff.mpr (Int.le_of_eq h), Tape.append_nil]

/-- A connection served from any state of the static variables with nothing read
ahead gets the replies to its own requests. -/
theorem webChild_replies {a : Ahead} (ha : a.cnt = 0) {fuel : Nat} (line : Buffer)
    {s : Source UInt8} {values : List UInt8} (hs : s.tape true = ⟨values, false⟩)
    (hrange : InRange values) (hfuel : values.length < fuel) :
    exists served,
      webChild (fun line r => libReadline line maxline r) fuel line (a, s) = some served ∧
        served.exit = .closed ∧
        served.replies = (requests values).map (fun l => (size l).toNat) := by
  refine webChild_serves libReadline_readsLines values fuel line (a, s) hrange ?_ hfuel
  rw [tape_of_cnt_zero ha, hs]

theorem serve_replies {fuel : Nat} {connections : List (Buffer × Source UInt8)} :
    forall {statics : Ahead}, statics.cnt = 0 ->
    (forall c, c ∈ connections -> (c.2.tape true).fails = false ∧
      InRange (c.2.tape true).values ∧ (c.2.tape true).values.length < fuel) ->
    exists all, serve fuel statics connections = some all ∧
      List.Forall₂ (fun c served => served.exit = .closed ∧
        served.replies = (requests (c.2.tape true).values).map (fun l => (size l).toNat))
        connections all := by
  induction connections with
  | nil =>
      intro statics _ _
      exact ⟨[], rfl, List.Forall₂.nil⟩
  | cons c connections ih =>
      intro statics hstatics hstreams
      rcases c with ⟨line, s⟩
      rcases hstreams (line, s) List.mem_cons_self with ⟨hfails, hrange, hfuel⟩
      have hs : s.tape true = ⟨(s.tape true).values, false⟩ := by rw [← hfails]
      rcases webChild_replies hstatics line hs hrange hfuel with
        ⟨served, hserved, hexit, hreplies⟩
      have hcnt := cnt_of_webChild_closed fuel hserved hexit
      rcases ih hcnt (fun c hc => hstreams c (List.mem_cons_of_mem _ hc)) with
        ⟨all, hall, hmatch⟩
      refine ⟨served :: all, ?_, List.Forall₂.cons ⟨hexit, hreplies⟩ hmatch⟩
      rw [serve, hserved]
      dsimp only
      rw [if_pos hexit, hall]
      rfl

/-- The replies on every connection are those of a process that serves it alone,
and no bytes are left over when a call returns. -/
theorem serve_isolates_connections {connections : List (Buffer × Source UInt8)}
    {fuel : Nat}
    (hstreams : forall c, c ∈ connections -> (c.2.tape true).fails = false ∧
      InRange (c.2.tape true).values ∧ (c.2.tape true).values.length < fuel) :
    (exists all, serve fuel {} connections = some all ∧
      List.Forall₂ (fun c served =>
        served.exit = .closed ∧
          forall (line : Buffer) (s : Source UInt8), s.tape true = c.2.tape true ->
            exists alone,
              webChild (fun line r => libReadline line maxline r) fuel line ({}, s) =
                some alone ∧ alone.exit = .closed ∧ served.replies = alone.replies)
        connections all) ∧
    (forall (line : Buffer) (r : Ahead × Source UInt8) served,
      webChild (fun line r => libReadline line maxline r) fuel line r = some served ->
        served.exit = .closed -> served.next.1.cnt = 0) := by
  constructor
  · rcases serve_replies (rfl : ({} : Ahead).cnt = 0) hstreams with ⟨all, hall, hmatch⟩
    refine ⟨all, hall, ?_⟩
    clear hall
    induction hmatch with
    | nil => exact List.Forall₂.nil
    | cons hhead _ ih =>
        rename_i c served connections all _
        rcases hhead with ⟨hexit, hreplies⟩
        rcases hstreams c List.mem_cons_self with ⟨hfails, hrange, hfuel⟩
        refine List.Forall₂.cons ⟨hexit, ?_⟩
          (ih (fun c hc => hstreams c (List.mem_cons_of_mem _ hc)))
        intro line s hs
        have htape : s.tape true = ⟨(c.2.tape true).values, false⟩ := by rw [hs, ← hfails]
        rcases webChild_replies (rfl : ({} : Ahead).cnt = 0) line htape hrange hfuel with
          ⟨alone, halone, hclosed, hsame⟩
        exact ⟨alone, halone, hclosed, hreplies.trans hsame.symm⟩
  · intro line r served h hexit
    exact cnt_of_webChild_closed fuel h hexit

/-- A pipelined connection that ends without a newline, and another one. -/
def twoConnections : List (Buffer × Source UInt8) :=
  [(fun _ => 0, [.data 49 [10], .interrupted, .data 50 []]), (fun _ => 0, [.data 51 [10]])]

theorem serve_isolates_two_connections :
    exists all, serve 4 {} twoConnections = some all ∧
      List.Forall₂ (fun c served =>
        served.exit = .closed ∧
          forall (line : Buffer) (s : Source UInt8), s.tape true = c.2.tape true ->
            exists alone,
              webChild (fun line r => libReadline line maxline r) 4 line ({}, s) =
                some alone ∧ alone.exit = .closed ∧ served.replies = alone.replies)
        twoConnections all := by
  have hfirst : requests [49, 10, 50] = [[49, 10], [50]] := by
    rw [requests, lines_cons]
    change [49, 10] :: lines newline (maxline - 2) [50] = _
    rw [lines_cons]
    change [49, 10] :: [50] :: lines newline (maxline - 2) [] = _
    rw [lines_nil]
  have hsecond : requests [51, 10] = [[51, 10]] := by
    rw [requests, lines_cons]
    change [51, 10] :: lines newline (maxline - 2) [] = _
    rw [lines_nil]
  refine (serve_isolates_connections ?_).1
  intro c hc
  rcases List.mem_cons.mp hc with rfl | hc
  · refine ⟨rfl, ?_, by decide⟩
    change InRange [49, 10, 50]
    rw [InRange, hfirst]
    decide
  · rw [List.mem_singleton.mp hc]
    refine ⟨rfl, ?_, by decide⟩
    change InRange [51, 10]
    rw [InRange, hsecond]
    decide

end WebChild
end PracticeHand
