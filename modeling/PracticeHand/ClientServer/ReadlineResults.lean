import PracticeHand.ClientServer.Readline

/-!
# What a call for a line reports

The counter of the loop is one ahead of the bytes stored, except when the loop
is left at a newline.  The closed form of a call says when its result is the
number of bytes stored, and that the reader that reads ahead returns what the
other one returns as long as its counter does not overflow.
-/

namespace PracticeHand
namespace Readline

open Streams

/-- A result that is not an error is the length of the line, which has been
taken from the stream and stored with a NUL after it. -/
def Reports {state : Type} (maxlen : Nat) (before after : List UInt8) (c : Call state) :
    Prop :=
  0 ≤ c.result ->
    c.result = (cut newline (maxlen - 1) before).length ∧
      before = cut newline (maxlen - 1) before ++ after ∧
      slice c.line 0 (cut newline (maxlen - 1) before).length =
        cut newline (maxlen - 1) before ∧
      c.line (cut newline (maxlen - 1) before).length = 0

/-- When the counter agrees with what is stored: a newline comes before the limit
and the overflow, or the first of these is an error, or the stream is at its end
and the buffer happens to begin with a NUL. -/
def Reportable (top maxlen : Nat) (line : Buffer) (t : Tape UInt8) : Prop :=
  newline ∈ t.values.take (min (maxlen - 1) top) ∨
    (t.fails = true ∧ newline ∉ t.values ∧ t.values.length < min (maxlen - 1) top) ∨
    (t = ⟨[], false⟩ ∧ 2 ≤ maxlen ∧ line 0 = 0)

variable {state : Type} {top maxlen : Nat}

theorem reports_of_newline {line : Buffer} {t : Tape UInt8}
    (hmem : newline ∈ cut newline (maxlen - 1) t.values)
    (htop : (cut newline (maxlen - 1) t.values).length ≤ top) :
    exists c, tapeCall eofBreak top (maxlen - 1) 1 0 line t = some c ∧
      Reports maxlen t.values c.next.values c := by
  have hcount := increments_of_mem hmem
  simp only [tapeCall, Nat.zero_add]
  rw [if_neg (by lia), if_pos (Or.inl hmem)]
  refine ⟨_, rfl, fun _ => ⟨?_, ?_, ?_, ?_⟩⟩
  · dsimp only
    lia
  · exact (cut_append_drop (maxlen - 1) t.values).symm
  · dsimp only
    rw [slice_update_after _ _ _ _ _ (by lia)]
    exact slice_write _ line 0
  · exact Function.update_self ..

/-- A call whose counter has run to the length of the line plus one reports a
byte that is not there. -/
theorem not_reports_of_ahead {before after : List UInt8} {c : Call state}
    (h : c.result = (cut newline (maxlen - 1) before).length + 1) :
    ¬ Reports maxlen before after c := by
  intro hreports
  have hlen := (hreports (by lia)).1
  lia

theorem tapeCall_reports_iff_of_mem {line : Buffer} {t : Tape UInt8}
    (hmem : newline ∈ cut newline (maxlen - 1) t.values) :
    (exists c, tapeCall eofBreak top (maxlen - 1) 1 0 line t = some c ∧
      Reports maxlen t.values c.next.values c) <-> Reportable top maxlen line t := by
  have hlen := @length_cut_le _ _ newline (maxlen - 1) t.values
  have hiff := mem_take_iff_of_mem_cut (min (maxlen - 1) top) hmem
  have hvalues : newline ∈ t.values :=
    List.mem_of_mem_take ((mem_cut_iff (maxlen - 1) t.values).mp hmem)
  constructor
  · intro hparts
    rcases hparts with ⟨c, hc, _⟩
    refine Or.inl (hiff.mpr ?_)
    have hcount := increments_of_mem hmem
    simp only [tapeCall] at hc
    split at hc
    · cases hc
    · lia
  · intro hcases
    rcases hcases with hnewline | ⟨_, hnot, _⟩ | ⟨rfl, _⟩
    · have hle := hiff.mp hnewline
      exact reports_of_newline hmem (by lia)
    · exact absurd hvalues hnot
    · cases hvalues

theorem tapeCall_reports_iff_of_full {line : Buffer} {t : Tape UInt8}
    (hmem : newline ∉ t.values.take (maxlen - 1)) (hfull : maxlen - 1 ≤ t.values.length) :
    (exists c, tapeCall eofBreak top (maxlen - 1) 1 0 line t = some c ∧
      Reports maxlen t.values c.next.values c) <-> Reportable top maxlen line t := by
  have hcut := cut_eq_take hmem
  constructor
  · intro hparts
    rcases hparts with ⟨c, hc, hreports⟩
    refine absurd hreports (not_reports_of_ahead ?_)
    simp only [tapeCall, hcut, increments_of_not_mem hmem] at hc
    split at hc
    · cases hc
    · rw [if_pos (Or.inr hfull)] at hc
      cases hc
      rw [hcut]
      push_cast
      lia
  · intro hcases
    rcases hcases with hnewline | ⟨_, _, hlt⟩ | ⟨rfl, htwo, _⟩
    · exact absurd (List.take_subset_take_left _ (Nat.min_le_left ..) hnewline) hmem
    · lia
    · simp only [List.length_nil] at hfull
      lia

theorem tapeCall_reports_iff_of_short (htop : 1 ≤ top) {line : Buffer} {t : Tape UInt8}
    (hmem : newline ∉ t.values) (hshort : t.values.length < maxlen - 1) :
    (exists c, tapeCall eofBreak top (maxlen - 1) 1 0 line t = some c ∧
      Reports maxlen t.values c.next.values c) <-> Reportable top maxlen line t := by
  rcases t with ⟨values, fails⟩
  have hcut := cut_eq_self hmem (Nat.le_of_lt hshort)
  have hnot : forall k, newline ∉ values.take k :=
    fun k h => hmem (List.mem_of_mem_take h)
  rw [tapeCall_of_short hmem hshort]
  simp only [Reportable, hnot, hmem, false_or, not_false_eq_true, true_and,
    Tape.mk.injEq]
  cases fails with
  | true =>
      simp only [if_true, true_and, Bool.true_eq_false, and_false, false_and, or_false]
      constructor
      · intro hparts
        rcases hparts with ⟨c, hc, _⟩
        split at hc
        · cases hc
        · lia
      · intro hlt
        rw [if_neg (by lia)]
        refine ⟨_, rfl, fun hneg => ?_⟩
        exact absurd hneg (show ¬ (0 : Int) ≤ -1 by decide)
  | false =>
      simp only [Bool.false_eq_true, if_false, false_and, and_true, false_or]
      constructor
      · intro hparts
        rcases hparts with ⟨c, hc, hreports⟩
        split at hc
        · cases hc
        · cases values with
          | nil =>
              cases hc
              refine ⟨rfl, by lia, ?_⟩
              have hnul := (hreports (Int.le_refl 0)).2.2.2
              rw [cut_nil] at hnul
              exact hnul
          | cons x xs =>
              refine absurd hreports (not_reports_of_ahead ?_)
              simp only [eofBreak, List.length_cons] at hc
              rw [if_neg (by lia)] at hc
              cases hc
              rw [hcut, List.length_cons]
              push_cast
              lia
      · intro hparts
        rcases hparts with ⟨rfl, _, hnul⟩
        rw [if_neg (by simp only [List.length_nil]; lia)]
        refine ⟨_, rfl, fun _ => ?_⟩
        simp only [cut_nil]
        exact ⟨rfl, rfl, rfl, hnul⟩

theorem tapeCall_reports_iff (htop : 1 ≤ top) (line : Buffer) (t : Tape UInt8) :
    (exists c, tapeCall eofBreak top (maxlen - 1) 1 0 line t = some c ∧
      Reports maxlen t.values c.next.values c) <-> Reportable top maxlen line t := by
  by_cases hmem : newline ∈ t.values.take (maxlen - 1)
  · exact tapeCall_reports_iff_of_mem ((mem_cut_iff _ _).mpr hmem)
  · rcases Nat.lt_or_ge t.values.length (maxlen - 1) with hshort | hfull
    · rw [List.take_of_length_le (by lia)] at hmem
      exact tapeCall_reports_iff_of_short htop hmem hshort
    · exact tapeCall_reports_iff_of_full hmem hfull

/-- The reports of a call can be read off the tape. -/
theorem readLoop_reports_iff {get : state -> Got UInt8 × state}
    {tape : state -> Tape UInt8} (hget : Follows get tape) (htop : 1 ≤ top)
    (line : Buffer) (s : state) :
    (exists c, readLoop get eofBreak top (maxlen - 1) 1 0 line s = some c ∧
      Reports maxlen (tape s).values (tape c.next).values c) <->
        Reportable top maxlen line (tape s) := by
  rw [← tapeCall_reports_iff htop, ← readLoop_tape _ _ _ _ _ htop]
  have hrel : Option.Rel (Call.Agrees tape)
      (readLoop get eofBreak top (maxlen - 1) 1 0 line s)
      (readLoop Tape.get eofBreak top (maxlen - 1) 1 0 line (tape s)) :=
    readLoop_follows hget (maxlen - 1) 1 0 line s
  generalize readLoop get eofBreak top (maxlen - 1) 1 0 line s = left at hrel
  generalize readLoop Tape.get eofBreak top (maxlen - 1) 1 0 line (tape s) = right at hrel
  cases hrel with
  | none =>
      constructor <;> (rintro ⟨c, hc, _⟩; cases hc)
  | some hagrees =>
      rename_i c d
      simp only [Option.some.injEq, exists_eq_left', Reports]
      rw [← hagrees.result, ← hagrees.line]
      constructor
      · intro h hpos
        rw [← hagrees.next hpos]
        exact h hpos
      · intro h hpos
        rw [hagrees.next hpos]
        exact h hpos

/-- Both functions report what they stored exactly when a newline ends the line,
but for the calls that store nothing. -/
theorem readline_reports_iff (line : Buffer) :
    (forall (maxlen : Nat) (s : Source UInt8),
      (exists c, readline line maxlen s = some c ∧
        Reports maxlen (s.tape false).values (c.next.tape false).values c) <->
          Reportable ssizeMax maxlen line (s.tape false)) ∧
    (forall (r : Rline × Source UInt8),
      (exists c, readlineR line r = some c ∧
        Reports r.1.readMaxlen (Rline.tape r).values (Rline.tape c.next).values c) <->
          Reportable intMax r.1.readMaxlen line (Rline.tape r)) := by
  constructor
  · intro maxlen s
    exact readLoop_reports_iff readOne_follows (by decide) line s
  · intro r
    exact readLoop_reports_iff myReadR_follows (by decide) line r

/-- The one byte before the end of file is reported as two. -/
theorem readline_reports_one_too_many :
    (¬ exists c, readline (fun _ => 0) maxline [.data 97 []] = some c ∧
      Reports maxline [97] (c.next.tape false).values c) ∧
    (¬ exists c, readlineR (fun _ => 0)
        (readlineRinit maxline ⟨0, {}⟩, [.data 97 []]) = some c ∧
      Reports maxline [97] (Rline.tape c.next).values c) := by
  constructor
  · intro hparts
    rcases hparts with ⟨c, hc, hreports⟩
    cases hc
    exact absurd (hreports (by decide)).1 (by decide)
  · intro hparts
    rcases hparts with ⟨c, hc, hreports⟩
    cases hc
    exact absurd (hreports (by decide)).1 (by decide)

/-!
## Successive calls
-/

def successive (call : Buffer -> state -> Option (Call state)) :
    Nat -> Buffer -> state -> Option (List (Int × Buffer))
  | 0, _, _ => some []
  | count + 1, line, s =>
      match call line s with
      | none => none
      | some c =>
          (successive call count c.line c.next).map (fun pairs => (c.result, c.line) :: pairs)

def lineCall (top maxlen : Nat) (line : Buffer) (t : Tape UInt8) :
    Option (Call (Tape UInt8)) :=
  tapeCall eofBreak top (maxlen - 1) 1 0 line t

/-- The counter does not overflow on the first line of the stream. -/
def Fits (top maxlen : Nat) (values : List UInt8) : Prop :=
  maxlen ≤ top ∨ values.length < top ∨ newline ∈ values.take top

theorem fits_iff (htop : 1 ≤ top) (values : List UInt8) :
    1 + increments (cut newline (maxlen - 1) values) ≤ top <-> Fits top maxlen values := by
  have hle := @length_cut_le _ _ newline (maxlen - 1) values
  have hsub := @length_cut_le_length _ _ newline (maxlen - 1) values
  unfold Fits
  by_cases hmem : newline ∈ cut newline (maxlen - 1) values
  · have hcount := increments_of_mem hmem
    rw [mem_take_iff_of_mem_cut top hmem]
    lia
  · rw [increments_of_not_mem hmem]
    rw [mem_cut_iff] at hmem
    rw [cut_eq_take hmem, List.length_take]
    constructor
    · lia
    · intro hcases
      rcases hcases with hmaxlen | hlength | hnewline
      · lia
      · lia
      · rcases Nat.lt_or_ge (maxlen - 1) top with hlt | hge
        · lia
        · exact absurd (List.take_subset_take_left _ hge hnewline) hmem

theorem lineCall_eq_none_iff (htop : 1 ≤ top) (line : Buffer) (t : Tape UInt8) :
    lineCall top maxlen line t = none <-> ¬ Fits top maxlen t.values := by
  rw [← fits_iff htop, Nat.not_le, lineCall]
  simp only [tapeCall]
  constructor
  · intro h
    by_contra hcount
    rw [if_neg hcount] at h
    split at h
    · cases h
    · split at h <;> cases h
  · intro hcount
    rw [if_pos hcount]

theorem lineCall_of_le {top' : Nat} (hle : top ≤ top') {line : Buffer} {t : Tape UInt8}
    {c : Call (Tape UInt8)} (h : lineCall top maxlen line t = some c) :
    lineCall top' maxlen line t = some c := by
  simp only [lineCall, tapeCall] at h ⊢
  split at h
  · cases h
  · rw [if_neg (by lia)]
    exact h

theorem lineCall_next {line : Buffer} {values : List UInt8} {c : Call (Tape UInt8)}
    (h : lineCall top maxlen line ⟨values, false⟩ = some c) :
    0 ≤ c.result ∧
      c.next = ⟨values.drop (cut newline (maxlen - 1) values).length, false⟩ := by
  simp only [lineCall, tapeCall] at h
  split at h
  · cases h
  · split at h
    · cases h
      exact ⟨Int.natCast_nonneg _, rfl⟩
    · rename_i hleave
      rw [not_or, Nat.not_le] at hleave
      cases h
      constructor
      · simp only [eofBreak]
        split
        · exact Int.le_refl 0
        · exact Int.natCast_nonneg _
      · rw [mem_cut_iff] at hleave
        rw [cut_eq_take hleave.1, List.take_of_length_le (Nat.le_of_lt hleave.2),
          List.drop_length]

/-- No `top` bytes in a row are without a newline. -/
def Broken (top : Nat) (values : List UInt8) : Prop :=
  forall before run after, values = before ++ run ++ after -> run.length = top ->
    newline ∈ run

theorem Broken.drop {values : List UInt8} (h : Broken top values) (k : Nat) :
    Broken top (values.drop k) := by
  intro before run after hvalues
  refine h (values.take k ++ before) run after ?_
  rw [List.append_assoc, List.append_assoc, ← List.append_assoc before, ← hvalues,
    List.take_append_drop]

theorem Broken.fits {values : List UInt8} (h : Broken top values) :
    Fits top maxlen values := by
  rcases Nat.lt_or_ge values.length top with hlt | hge
  · exact Or.inr (Or.inl hlt)
  · refine Or.inr (Or.inr (h [] (values.take top) (values.drop top) ?_ ?_))
    · exact (List.take_append_drop top values).symm
    · exact List.length_take_of_le hge

/-- A run that has no newline is met by some call, whose counter overflows. -/
theorem broken_of_successive (htop : 1 ≤ top) (hmaxlen : top < maxlen)
    (length : Nat) : forall (values : List UInt8) (line : Buffer), values.length ≤ length ->
    (forall count, successive (lineCall top maxlen) count line ⟨values, false⟩ ≠ none) ->
    Broken top values := by
  induction length with
  | zero =>
      intro values line hlength _ before run after hvalues hrun
      have := congrArg List.length hvalues
      simp only [List.length_append] at this
      lia
  | succ length ih =>
      intro values line hlength hdefined before run after hvalues hrun
      have hsum := congrArg List.length hvalues
      simp only [List.length_append] at hsum
      cases hc : lineCall top maxlen line ⟨values, false⟩ with
      | none =>
          refine absurd ?_ (hdefined 1)
          rw [successive, hc]
      | some c =>
          -- the first line ends with a newline no later than the run
          have hfits : Fits top maxlen values := by
            by_contra hnot
            rw [(lineCall_eq_none_iff htop line ⟨values, false⟩).mpr hnot] at hc
            cases hc
          have hnewline : newline ∈ values.take top := by
            rcases hfits with h | h | h
            · lia
            · lia
            · exact h
          have hmem : newline ∈ cut newline (maxlen - 1) values := by
            rw [mem_cut_iff]
            exact List.take_subset_take_left _ (by lia) hnewline
          have hlast := getElem?_of_mem_cut hmem
          have hpos := List.length_pos_of_mem hmem
          have hfirst := (mem_take_iff_of_mem_cut top hmem).mp hnewline
          have hnext := (lineCall_next hc).2
          generalize (cut newline (maxlen - 1) values).length = size at *
          rcases Nat.lt_or_ge before.length size with hinside | hafter
          · rw [hvalues, List.append_assoc, List.getElem?_append_right (by lia),
              List.getElem?_append_left (by lia)] at hlast
            exact List.mem_of_getElem? hlast
          · refine ih (values.drop size) c.line ?_ ?_ (before.drop size) run after ?_ hrun
            · rw [List.length_drop]
              lia
            · intro count hnone
              apply hdefined (count + 1)
              rw [successive, hc]
              simp only [hnext, hnone, Option.map_none]
            · rw [hvalues, List.append_assoc, List.drop_append_of_le_length hafter,
                List.append_assoc]

theorem successive_ne_none (htop : 1 ≤ top) {values : List UInt8}
    (h : maxlen ≤ top ∨ Broken top values) (count : Nat) : forall line : Buffer,
    successive (lineCall top maxlen) count line ⟨values, false⟩ ≠ none := by
  induction count generalizing values with
  | zero =>
      intro line hnone
      cases hnone
  | succ count ih =>
      intro line
      have hfits : Fits top maxlen values := h.elim Or.inl Broken.fits
      cases hc : lineCall top maxlen line ⟨values, false⟩ with
      | none => exact absurd hfits ((lineCall_eq_none_iff htop _ _).mp hc)
      | some c =>
          have hbroken := h.imp_right
            (fun hb => hb.drop (cut newline (maxlen - 1) values).length)
          have hrest := ih hbroken c.line
          rw [← (lineCall_next hc).2] at hrest
          simpa only [successive, hc, ne_eq, Option.map_eq_none_iff] using hrest

theorem successive_of_le {top' : Nat} (hle : top ≤ top') (count : Nat) :
    forall {line : Buffer} {t : Tape UInt8} {pairs : List (Int × Buffer)},
    successive (lineCall top maxlen) count line t = some pairs ->
    successive (lineCall top' maxlen) count line t = some pairs := by
  induction count with
  | zero =>
      intro line t pairs h
      exact h
  | succ count ih =>
      intro line t pairs h
      cases hc : lineCall top maxlen line t with
      | none =>
          rw [successive, hc] at h
          cases h
      | some c =>
          rw [successive, hc] at h
          rw [successive, lineCall_of_le hle hc]
          rcases Option.map_eq_some_iff.mp h with ⟨rest, hrest, hpairs⟩
          exact Option.map_eq_some_iff.mpr ⟨rest, ih hrest, hpairs⟩

/-- A reader that follows a tape without errors returns what the tape says, call
after call.  `P` is what the calls rely on and keep. -/
theorem successive_follows {call : Buffer -> state -> Option (Call state)}
    {tape : state -> Tape UInt8} {P : state -> Prop}
    (hcall : forall line s, P s ->
      Option.Rel (Call.Agrees tape) (call line s) (lineCall top maxlen line (tape s)))
    (hkeeps : forall line s c, P s -> call line s = some c -> P c.next)
    (count : Nat) : forall (line : Buffer) (s : state), P s -> (tape s).fails = false ->
    successive call count line s = successive (lineCall top maxlen) count line (tape s) := by
  induction count with
  | zero =>
      intro line s _ _
      rfl
  | succ count ih =>
      intro line s hP hfails
      have hrel := hcall line s hP
      have hkeep := hkeeps line s
      rw [successive, successive]
      generalize hleft : call line s = left at hrel hkeep
      generalize hright : lineCall top maxlen line (tape s) = right at hrel
      cases hrel with
      | none => rfl
      | some hagrees =>
          rename_i c d
          have htape : tape s = ⟨(tape s).values, false⟩ := by rw [← hfails]
          rw [htape] at hright
          rcases lineCall_next hright with ⟨hresult, hnext⟩
          have hsame := hagrees.next (by rw [hagrees.result]; exact hresult)
          dsimp only
          rw [ih c.line c.next (hkeep c hP rfl) (by rw [hsame, hnext]), hsame,
            hagrees.result, hagrees.line]

theorem successive_readline (count : Nat) (line : Buffer) {s : Source UInt8}
    (hs : (s.tape false).fails = false) :
    successive (fun line s => readline line maxlen s) count line s =
      successive (lineCall ssizeMax maxlen) count line (s.tape false) := by
  refine successive_follows (P := fun _ => True) (fun line s _ => ?_)
    (fun _ _ _ _ _ => trivial) count line s trivial hs
  rw [lineCall, ← readLoop_tape _ _ _ _ _ (by decide)]
  exact readLoop_follows readOne_follows (maxlen - 1) 1 0 line s

theorem successive_readlineR (count : Nat) (line : Buffer) {r : Rline × Source UInt8}
    (hr : (Rline.tape r).fails = false) :
    successive readlineR count line r =
      successive (lineCall intMax r.1.readMaxlen) count line (Rline.tape r) := by
  refine successive_follows (P := fun q => q.1.readMaxlen = r.1.readMaxlen) ?_ ?_ count line r
    rfl hr
  · intro line q hq
    rw [lineCall, ← readLoop_tape _ _ _ _ _ (by decide), ← hq]
    exact readLoop_follows myReadR_follows (q.1.readMaxlen - 1) 1 0 line q
  · intro line q c hq hc
    refine readLoop_keeps (P := fun q => q.1.readMaxlen = r.1.readMaxlen) ?_ _ hc hq
    intro q hq
    rw [myReadR_readMaxlen, hq]

theorem tape_readlineRinit (maxlen : Nat) (r : Rline) (t : Source UInt8) :
    Rline.tape (readlineRinit maxlen r, t) = t.tape true := rfl

/-- On the same stream, however it arrives, the calls of both functions return the
same and store the same, as long as no line overflows the `int` of `readline_r`. -/
theorem readlineR_agrees_iff (line : Buffer) (maxlen : Nat) (r : Rline)
    {s t : Source UInt8} {stream : List UInt8} (hs : s.tape false = ⟨stream, false⟩)
    (ht : t.tape true = ⟨stream, false⟩) :
    (forall count, exists pairs,
      successive (fun line s => readline line maxlen s) count line s = some pairs ∧
        successive readlineR count line (readlineRinit maxlen r, t) = some pairs) <->
      maxlen ≤ intMax ∨ Broken intMax stream := by
  have hR : forall count, successive readlineR count line (readlineRinit maxlen r, t) =
      successive (lineCall intMax maxlen) count line ⟨stream, false⟩ := by
    intro count
    rw [successive_readlineR count line (by rw [tape_readlineRinit, ht]), tape_readlineRinit, ht]
    rfl
  constructor
  · intro h
    rcases Nat.lt_or_ge intMax maxlen with hlt | hge
    · refine Or.inr (broken_of_successive (by decide) hlt _ stream line (Nat.le_refl _) ?_)
      intro count hnone
      rcases h count with ⟨pairs, _, hpairs⟩
      rw [hR, hnone] at hpairs
      cases hpairs
    · exact Or.inl hge
  · intro h count
    rcases Option.ne_none_iff_exists'.mp (successive_ne_none (by decide) h count line) with
      ⟨pairs, hpairs⟩
    refine ⟨pairs, ?_, ?_⟩
    · rw [successive_readline count line (by rw [hs]), hs]
      exact successive_of_le (by decide) count hpairs
    · rw [hR, hpairs]

theorem readlineR_agrees_on_two_chunks :
    maxline ≤ intMax ∧ forall count, exists pairs,
      successive (fun line s => readline line maxline s) count (fun _ => 0)
          [.data 49 [10, 50]] = some pairs ∧
        successive readlineR count (fun _ => 0)
          (readlineRinit maxline ⟨0, {}⟩,
            [.interrupted, .data 49 [], .data 10 [50]]) = some pairs := by
  have hs : Source.tape false [.data (49 : UInt8) [10, 50]] = ⟨[49, 10, 50], false⟩ := rfl
  have ht : Source.tape true [.interrupted, .data (49 : UInt8) [], .data 10 [50]] =
      ⟨[49, 10, 50], false⟩ := rfl
  have hle : maxline ≤ intMax := by decide
  exact ⟨hle, (readlineR_agrees_iff (fun _ => 0) maxline ⟨0, {}⟩ hs ht).mpr (Or.inl hle)⟩

/-- With a buffer of 2 GiB and a line that fills it, `n++` overflows in
`readline_r`, where `readline` returns. -/
theorem readlineR_overflows_int :
    ¬ (forall count, exists pairs,
      successive (fun line s => readline line (intMax + 1) s) count (fun _ => 0)
          [.data 97 (List.replicate (intMax - 1) 97)] = some pairs ∧
        successive readlineR count (fun _ => 0)
          (readlineRinit (intMax + 1) ⟨0, {}⟩,
            [.data 97 (List.replicate (intMax - 1) 97)]) = some pairs) := by
  have htape : Source.tape true [.data 97 (List.replicate (intMax - 1) 97)] =
      ⟨List.replicate intMax (97 : UInt8), false⟩ := by
    simp only [Source.tape, Tape.append, List.append_nil, ← List.replicate_succ]
    rfl
  have hfits : ¬ Fits intMax (intMax + 1) (List.replicate intMax (97 : UInt8)) := by
    intro hcases
    rcases hcases with h | h | h
    · exact absurd h (by decide)
    · rw [List.length_replicate] at h
      exact Nat.lt_irrefl _ h
    · rw [List.take_replicate, List.mem_replicate] at h
      exact absurd h.2 (by decide)
  intro h
  rcases h 1 with ⟨pairs, _, hpairs⟩
  rw [successive_readlineR, tape_readlineRinit, htape, successive] at hpairs
  · rw [show lineCall intMax _ _ _ = none from
      (lineCall_eq_none_iff (by decide) _ _).mpr hfits] at hpairs
    cases hpairs
  · rw [tape_readlineRinit, htape]

end Readline
end PracticeHand
