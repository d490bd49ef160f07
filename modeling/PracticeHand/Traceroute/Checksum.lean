import Mathlib.Data.UInt
import PracticeHand.Arithmetic.OnesComplement
import PracticeHand.Streams.Source
import PracticeHand.Traceroute.Packets

/-!
# Two checksums

`in_checknum` of `traceroute` and `in_cksum` of `libunp`, which `send_v4` calls.
Both add the words of a buffer and return the complement of the sum.  The first one
adds in an `unsigned long` and folds the carries until none is left, the second
one adds in 32 bits and folds twice.
-/

namespace PracticeHand
namespace Traceroute

open Streams

/-!
## Code
-/

/-- The two loops over the words of `in_cksum`; an odd byte is stored in the first
byte of `answer`, which is 0. -/
def cksumLoop (order : ByteOrder) (mem : Nat -> UInt8) : Nat -> Nat -> UInt32 -> UInt32
  | nleft + 2, w, sum =>
      cksumLoop order mem nleft (w + 2) (sum + (order.word (mem w) (mem (w + 1))).toUInt32)
  | 1, w, sum => sum + (order.word (mem w) 0).toUInt32
  | 0, _, sum => sum

def inCksum (order : ByteOrder) (mem : Nat -> UInt8) (addr len : Nat) : UInt16 :=
  let sum := cksumLoop order mem len addr 0
  let sum := (sum >>> 16) + (sum &&& 0xffff)
  let sum := sum + (sum >>> 16)
  (~~~ sum).toUInt16

/-- An odd byte is added as it is. -/
def checknumLoop (order : ByteOrder) (mem : Nat -> UInt8) : Nat -> Nat -> UInt64 -> UInt64
  | size + 2, buffer, cksum =>
      checknumLoop order mem size (buffer + 2)
        (cksum + (order.word (mem buffer) (mem (buffer + 1))).toUInt64)
  | 1, buffer, cksum => cksum + (mem buffer).toUInt64
  | 0, _, cksum => cksum

theorem toNat_carry (cksum : UInt64) :
    ((cksum >>> 16) + (cksum &&& 0xffff)).toNat =
      cksum.toNat / (65535 + 1) + cksum.toNat % (65535 + 1) := by
  have hlt := cksum.toNat_lt
  have hmask : cksum.toNat &&& 65535 = cksum.toNat % 65536 :=
    Nat.and_two_pow_sub_one_eq_mod cksum.toNat 16
  simp only [UInt64.toNat_add, UInt64.toNat_shiftRight, UInt64.toNat_and, UInt64.reduceToNat,
    Nat.reduceMod, Nat.shiftRight_eq_div_pow, hmask]
  lia

def foldCarries (cksum : UInt64) : UInt64 :=
  if cksum >>> 16 = 0 then cksum
  else foldCarries ((cksum >>> 16) + (cksum &&& 0xffff))
  termination_by cksum.toNat
  decreasing_by
    rename_i hcarry
    have hne : (cksum >>> 16).toNat ≠ 0 := fun h => hcarry (UInt64.toNat_inj.mp h)
    simp only [UInt64.toNat_shiftRight, UInt64.reduceToNat, Nat.reduceMod,
      Nat.shiftRight_eq_div_pow] at hne
    rw [toNat_carry]
    lia

def inChecknum (order : ByteOrder) (mem : Nat -> UInt8) (buffer : Nat) (size : UInt32) :
    UInt16 :=
  (~~~ (foldCarries (checknumLoop order mem size.toNat buffer 0))).toUInt16

/-!
## The sum of the words
-/

/-- The words of a buffer; an odd byte is padded with 0. -/
def words (order : ByteOrder) : List UInt8 -> List Nat
  | a :: b :: rest => (order.word a b).toNat :: words order rest
  | [a] => [(order.word a 0).toNat]
  | [] => []

/-- The sum of the words with end-around carry. -/
def onesSum (order : ByteOrder) (bytes : List UInt8) : UInt16 :=
  UInt16.ofNat (OnesComplement.sum 65535 (words order bytes))

theorem words_le {order : ByteOrder} {bytes : List UInt8} :
    forall w, w ∈ words order bytes -> w ≤ 65535 := by
  induction bytes using words.induct with
  | case1 a b rest ih =>
      intro w hw
      rcases List.mem_cons.mp hw with rfl | hw
      · exact Nat.le_of_lt_succ (order.word a b).toNat_lt
      · exact ih w hw
  | case2 a =>
      intro w hw
      rw [List.mem_singleton.mp hw]
      exact Nat.le_of_lt_succ (order.word a 0).toNat_lt
  | case3 =>
      intro w hw
      cases hw

theorem sum_words_le (order : ByteOrder) (bytes : List UInt8) :
    (words order bytes).sum ≤ 65535 * ((bytes.length + 1) / 2) := by
  induction bytes using words.induct with
  | case1 a b rest ih =>
      have hword := (order.word a b).toNat_lt
      simp only [words, List.sum_cons, List.length_cons]
      lia
  | case2 a =>
      have hword := (order.word a 0).toNat_lt
      simp only [words, List.sum_cons, List.sum_nil, List.length_cons, List.length_nil]
      lia
  | case3 => simp [words]

theorem toNat_onesSum (order : ByteOrder) (bytes : List UInt8) :
    (onesSum order bytes).toNat = OnesComplement.fold 65535 (words order bytes).sum := by
  have hfold := OnesComplement.sum_eq_fold (by decide : 0 < 65535) (@words_le order bytes)
  have hle := OnesComplement.fold_le (by decide : 0 < 65535) (words order bytes).sum
  rw [onesSum, hfold, UInt16.toNat_ofNat']
  exact Nat.mod_eq_of_lt (Nat.lt_succ_of_le hle)

theorem toNat_cksumLoop (order : ByteOrder) (mem : Nat -> UInt8) (nleft w : Nat)
    (sum : UInt32) :
    (cksumLoop order mem nleft w sum).toNat =
      (sum.toNat + (words order (slice mem w nleft)).sum) % 2 ^ 32 := by
  induction nleft, w, sum using cksumLoop.induct order mem with
  | case1 nleft w sum ih =>
      rw [cksumLoop, ih, UInt32.toNat_add, UInt16.toNat_toUInt32]
      simp only [slice, words, List.sum_cons]
      lia
  | case2 w sum =>
      rw [cksumLoop, UInt32.toNat_add, UInt16.toNat_toUInt32]
      simp [slice, words]
  | case3 w sum =>
      have hlt := sum.toNat_lt
      simp only [cksumLoop, slice, words, List.sum_nil]
      lia

theorem toNat_word_zero (a : UInt8) : (ByteOrder.little.word a 0).toNat = a.toNat := by
  rw [toNat_word_little]
  rfl

theorem toNat_checknumLoop (mem : Nat -> UInt8) (size buffer : Nat) (cksum : UInt64) :
    (checknumLoop .little mem size buffer cksum).toNat =
      (cksum.toNat + (words .little (slice mem buffer size)).sum) % 2 ^ 64 := by
  induction size, buffer, cksum using checknumLoop.induct .little mem with
  | case1 size buffer cksum ih =>
      rw [checknumLoop, ih, UInt64.toNat_add, UInt16.toNat_toUInt64]
      simp only [slice, words, List.sum_cons]
      lia
  | case2 buffer cksum =>
      rw [checknumLoop, UInt64.toNat_add, UInt8.toNat_toUInt64]
      simp [slice, words, toNat_word_zero]
  | case3 buffer cksum =>
      have hlt := cksum.toNat_lt
      simp only [checknumLoop, slice, words, List.sum_nil]
      lia

/-!
## The carries
-/

theorem toNat_foldCarries (cksum : UInt64) :
    (foldCarries cksum).toNat = OnesComplement.fold 65535 cksum.toNat := by
  induction cksum using foldCarries.induct with
  | case1 cksum hsmall =>
      have hzero : (cksum >>> 16).toNat = 0 := by rw [hsmall]; rfl
      simp only [UInt64.toNat_shiftRight, UInt64.reduceToNat, Nat.reduceMod,
        Nat.shiftRight_eq_div_pow] at hzero
      rw [foldCarries, if_pos hsmall, OnesComplement.fold_of_le (by decide) (by lia)]
  | case2 cksum hcarry ih =>
      rw [foldCarries, if_neg hcarry, ih, toNat_carry, OnesComplement.fold_carry (by decide)]

theorem toNat_inChecknum (mem : Nat -> UInt8) (buffer : Nat) (size : UInt32) :
    (inChecknum .little mem buffer size).toNat =
      65535 - OnesComplement.fold 65535 (words .little (slice mem buffer size.toNat)).sum := by
  have hsize := size.toNat_lt
  have hsum := sum_words_le .little (slice mem buffer size.toNat)
  rw [length_slice] at hsum
  -- no number of words that fits `size` makes the `unsigned long` overflow
  have hloop : (checknumLoop .little mem size.toNat buffer 0).toNat =
      (words .little (slice mem buffer size.toNat)).sum := by
    rw [toNat_checknumLoop, UInt64.toNat_zero, Nat.zero_add]
    exact Nat.mod_eq_of_lt (by lia)
  have hle := OnesComplement.fold_le (by decide : 0 < 65535)
    (words .little (slice mem buffer size.toNat)).sum
  rw [inChecknum, UInt64.toNat_toUInt16, UInt64.toNat_not, toNat_foldCarries, hloop]
  simp only [UInt64.size]
  lia

/-- Two foldings are enough for any sum of 32 bits. -/
theorem toNat_inCksum (order : ByteOrder) (mem : Nat -> UInt8) (addr len : Nat) :
    (inCksum order mem addr len).toNat =
      65535 - OnesComplement.fold 65535 ((words order (slice mem addr len)).sum % 2 ^ 32) := by
  have hloop := toNat_cksumLoop order mem len addr 0
  rw [UInt32.toNat_zero, Nat.zero_add] at hloop
  rw [← hloop]
  generalize hsum : cksumLoop order mem len addr 0 = sum
  have hlt := sum.toNat_lt
  have hmask : sum.toNat &&& 65535 = sum.toNat % 65536 :=
    Nat.and_two_pow_sub_one_eq_mod sum.toNat 16
  have honce : ((sum >>> 16) + (sum &&& 0xffff)).toNat =
      sum.toNat / (65535 + 1) + sum.toNat % (65535 + 1) := by
    simp only [UInt32.toNat_add, UInt32.toNat_shiftRight, UInt32.toNat_and, UInt32.reduceToNat,
      Nat.reduceMod, Nat.shiftRight_eq_div_pow, hmask]
    lia
  generalize hpart : (sum >>> 16) + (sum &&& 0xffff) = part at honce
  have hfold : OnesComplement.fold 65535 sum.toNat =
      part.toNat / (65535 + 1) + part.toNat % (65535 + 1) := by
    rw [← OnesComplement.fold_carry (by decide), ← honce,
      ← OnesComplement.fold_carry (by decide), OnesComplement.fold_of_le (by decide)]
    lia
  rw [inCksum, hsum, hpart, UInt32.toNat_toUInt16, UInt32.toNat_not, UInt32.toNat_add, UInt32.toNat_shiftRight,
    hfold]
  simp only [UInt32.size, UInt32.reduceToNat, Nat.reduceMod, Nat.shiftRight_eq_div_pow]
  lia

theorem toNat_complement (order : ByteOrder) (bytes : List UInt8) :
    (~~~ (onesSum order bytes)).toNat =
      65535 - OnesComplement.fold 65535 (words order bytes).sum := by
  rw [UInt16.toNat_not, toNat_onesSum]
  rfl

/-- The sum of a buffer of up to 64 KB fits into 32 bits. -/
theorem inCksum_eq_complement (order : ByteOrder) (mem : Nat -> UInt8) (addr : Nat) {len : Nat}
    (hlen : len ≤ 65535) : inCksum order mem addr len = ~~~ (onesSum order (slice mem addr len)) := by
  have hsum := sum_words_le order (slice mem addr len)
  rw [length_slice] at hsum
  apply UInt16.toNat_inj.mp
  rw [toNat_inCksum, toNat_complement, Nat.mod_eq_of_lt (by lia)]

theorem inChecknum_eq_complement (mem : Nat -> UInt8) (buffer : Nat) (size : UInt32) :
    inChecknum .little mem buffer size = ~~~ (onesSum .little (slice mem buffer size.toNat)) := by
  apply UInt16.toNat_inj.mp
  rw [toNat_inChecknum, toNat_complement]

/-- On a little-endian host `in_checknum` returns the complement of the
one's-complement sum, and so does `in_cksum` for buffers of up to 64 KB. -/
theorem inChecknum_eq_inCksum (mem : Nat -> UInt8) (buffer : Nat) (size : UInt32) :
    inChecknum .little mem buffer size = ~~~ (onesSum .little (slice mem buffer size.toNat)) ∧
    (size.toNat ≤ 65535 ->
      inChecknum .little mem buffer size = inCksum .little mem buffer size.toNat) := by
  constructor
  · exact inChecknum_eq_complement mem buffer size
  · intro hsize
    rw [inChecknum_eq_complement, inCksum_eq_complement .little mem buffer hsize]

theorem inChecknum_eq_inCksum_of_three :
    inChecknum .little (fun _ => 0xff) 0 3 = inCksum .little (fun _ => 0xff) 0 3 :=
  (inChecknum_eq_inCksum (fun _ => 0xff) 0 3).2 (by decide)

end Traceroute
end PracticeHand
