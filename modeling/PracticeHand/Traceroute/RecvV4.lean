import PracticeHand.Traceroute.SendV4
import PracticeHand.Traceroute.Traceloop

/-!
# How `recv_v4` judges a datagram

A turn of the loop of `recv_v4` on the structures of `trace.h`.  The length in the
IP header is compared without `ntohs`, and the ICMP header is looked for behind 20
bytes, whatever `ip_hl` says.
-/

namespace PracticeHand
namespace Traceroute

open Streams

structure Judged where
  statu : Status
  pkt : Packet
  pro : Proto
  ret : Option Ret

/-- The statements of `recv_v4` from the call of `recvfrom` on, which has received `d`.
There is no result where the loop goes on. -/
def Status.recvV4 (order : ByteOrder) (statu : Status) (pkt : Packet) (pro : Proto)
    (d : Datagram) : Judged :=
  let ret := (d.bytes.take bufsize).length
  let buf := receive statu.recvbuf d
  let statu := { statu with recvbuf := buf }
  if ret < sizeofIp then ⟨statu, pkt, pro, none⟩
  else
    let pkt := { pkt with recv := { pkt.recv with iphdr := Ip.ofBytes order buf } }
    if pro.icmpproto ≠ pkt.recv.iphdr.ipP.toNat then ⟨statu, pkt, pro, none⟩
    else if pkt.recv.iphdr.ipLen.toNat < sizeofIp + sizeofIcmp then ⟨statu, pkt, pro, none⟩
    else
      let pkt := { pkt with
        recv := { pkt.recv with icmphdr := Icmp.ofBytes order (fun i => buf (sizeofIp + i)) } }
      if icmpTimeExceeded = pkt.recv.icmphdr.icmpType then
        if statu.flagsEcho = 0 then
          ⟨{ statu with flagsEcho := 1 }, pkt, { pro with sarecv := pkt.recv.iphdr.ipSrc },
            some .answered⟩
        else ⟨statu, pkt, pro, some .answered⟩
      else if icmpEchoReply = pkt.recv.icmphdr.icmpType then
        ⟨{ statu with flagsEcho := 1 }, pkt, { pro with sarecv := pkt.recv.iphdr.ipSrc },
          some .arrived⟩
      else ⟨statu, pkt, pro, some .nothing⟩

/-!
## The bytes that decide
-/

def ipprotoIcmp : UInt8 := 1

section Turn

variable {statu : Status} {pkt : Packet} {pro : Proto} {d : Datagram}

theorem recvV4_ret {c : Setup} {s : Trace} (hbuf : s.recvbuf = statu.recvbuf)
    (hproto : pro.icmpproto = c.icmpproto.toNat) :
    (statu.recvV4 c.order pkt pro d).ret = (examine c s d).2 := by
  have hp : pro.icmpproto ≠ (receive statu.recvbuf d 9).toNat <->
      c.icmpproto ≠ receive statu.recvbuf d 9 := by
    rw [hproto, ne_eq, Int.natCast_inj, UInt8.toNat_inj]
  unfold Status.recvV4 examine
  dsimp only [Ip.ofBytes, Icmp.ofBytes, Nat.add_zero]
  rw [hbuf]
  simp only [hp]
  split_ifs <;> rfl

/-- The result depends on three bytes of the header and on the byte behind it. -/
theorem recvV4_result (order : ByteOrder) (hproto : pro.icmpproto = ipprotoIcmp.toNat) :
    (statu.recvV4 order pkt pro d).ret =
      if sizeofIp ≤ d.bytes.length ∧ d.bytes[9]? = some ipprotoIcmp ∧
          (wordAt order d.bytes 2).any (fun w => sizeofIp + sizeofIcmp ≤ w.toNat) = true then
        some (resultOf (d.bytes[sizeofIp]?.getD (statu.recvbuf sizeofIp)))
      else none := by
  have hret := @recvV4_ret statu pkt pro d ⟨order, ipprotoIcmp, pro.sasend, pro.sabind, 0, 0⟩
    { recvbuf := statu.recvbuf } rfl hproto
  dsimp only at hret
  rw [hret, examine_result]
  rfl

/-!
## Datagrams judged by their own bytes
-/

def Datagram.LengthInHeader (d : Datagram) : Prop :=
  (wordAt .big d.bytes 2).map UInt16.toNat = some d.bytes.length

instance (d : Datagram) : Decidable d.LengthInHeader :=
  inferInstanceAs (Decidable (_ = _))

/-- The datagram should be skipped. -/
def Datagram.Irrelevant (d : Datagram) : Prop :=
  d.bytes[9]? ≠ some ipprotoIcmp ∨ d.bytes.length < 48

instance (d : Datagram) : Decidable d.Irrelevant :=
  inferInstanceAs (Decidable (_ ∨ _))

/-- Irrelevant datagrams are skipped and the others judged by the byte behind their
own IP header. -/
def Datagram.OwnJudgement (d : Datagram) (ret : Option Ret) : Prop :=
  (ret = none <-> d.Irrelevant) ∧
    (¬ d.Irrelevant -> exists kind, d.bytes[headerLen d.bytes]? = some kind ∧
      ret = some (resultOf kind))

def Datagram.SwappedShort (d : Datagram) : Prop :=
  d.bytes.length % 256 = 0 ∧ d.bytes.length < 12288

instance (d : Datagram) : Decidable d.SwappedShort :=
  inferInstanceAs (Decidable (_ ∧ _))

/-- The bytes behind 20 bytes and behind the IP header stand for the same kind of
message. -/
def Datagram.SameKind (d : Datagram) : Prop :=
  exists kind, d.bytes[headerLen d.bytes]? = some kind ∧
    (d.bytes[sizeofIp]?).map resultOf = some (resultOf kind)

/-- On a little-endian host the test on `ip_len` sees the length with its bytes
swapped. -/
theorem length_test (hlength : d.LengthInHeader) :
    (wordAt .little d.bytes 2).any (fun w => sizeofIp + sizeofIcmp ≤ w.toNat) = true <->
      ¬ d.SwappedShort := by
  unfold Datagram.LengthInHeader at hlength
  cases ha : d.bytes[2]? with
  | none => simp [wordAt, ha] at hlength
  | some a =>
      cases hb : d.bytes[3]? with
      | none => simp [wordAt, ha, hb] at hlength
      | some b =>
          have ha' := a.toNat_lt
          have hb' := b.toNat_lt
          have hn : 256 * a.toNat + b.toNat = d.bytes.length := by
            simpa [wordAt, ha, hb, toNat_word_big] using hlength
          have hlittle : wordAt .little d.bytes 2 = some (ByteOrder.little.word a b) := by
            simp [wordAt, ha, hb]
          rw [hlittle, Option.any_some, decide_eq_true_eq, toNat_word_little,
            Datagram.SwappedShort, ← hn]
          simp only [sizeofIp, sizeofIcmp]
          lia

/-- An ICMP datagram is skipped when its length is short with its bytes swapped, and
otherwise judged by what is behind 20 bytes. -/
theorem recvV4_icmp (hproto : pro.icmpproto = ipprotoIcmp.toNat)
    (hicmp : d.bytes[9]? = some ipprotoIcmp) (hd : 20 ≤ d.bytes.length)
    (hlength : d.LengthInHeader) (statu : Status) (pkt : Packet) :
    (statu.recvV4 .little pkt pro d).ret =
      if d.SwappedShort then none
      else some (resultOf (d.bytes[sizeofIp]?.getD (statu.recvbuf sizeofIp))) := by
  rw [recvV4_result .little hproto]
  by_cases hshort : d.SwappedShort
  · rw [if_pos hshort, if_neg (fun h => (length_test hlength).mp h.2.2 hshort)]
  · rw [if_neg hshort, if_pos ⟨hd, hicmp, (length_test hlength).mpr hshort⟩]

/-- A datagram is judged by its own bytes exactly when it is not ICMP, or long enough in
both byte orders and with a header that leads to the same kind of message. -/
theorem recvV4_judges_iff (hproto : pro.icmpproto = ipprotoIcmp.toNat)
    (hd : 20 ≤ d.bytes.length) (hlength : d.LengthInHeader) (statu : Status) (pkt : Packet) :
    d.OwnJudgement (statu.recvV4 .little pkt pro d).ret <->
      d.bytes[9]? ≠ some ipprotoIcmp ∨
        (48 ≤ d.bytes.length ∧ ¬ d.SwappedShort ∧ d.SameKind) := by
  by_cases hicmp : d.bytes[9]? = some ipprotoIcmp
  · have hirrelevant : d.Irrelevant <-> d.bytes.length < 48 := by
      simp [Datagram.Irrelevant, hicmp]
    rw [recvV4_icmp hproto hicmp hd hlength, Datagram.OwnJudgement, hirrelevant]
    simp only [hicmp, ne_eq, not_true_eq_false, false_or]
    by_cases hshort : d.SwappedShort
    · -- no length from 20 to 47 is a multiple of 256
      have hlong : ¬ d.bytes.length < 48 := by
        have hmultiple := hshort.1
        lia
      rw [if_pos hshort]
      exact ⟨fun h => (hlong (h.1.mp rfl)).elim, fun h => (h.2.1 hshort).elim⟩
    · rw [if_neg hshort]
      by_cases hlong : 48 ≤ d.bytes.length
      · have hin : sizeofIp < d.bytes.length := Nat.lt_of_lt_of_le (by decide) hlong
        rw [Datagram.SameKind, List.getElem?_eq_getElem hin]
        simp only [Option.getD_some, Option.map_some]
        constructor
        · intro h
          exact ⟨hlong, hshort, h.2 (Nat.not_lt.mpr hlong)⟩
        · intro h
          refine ⟨⟨?_, ?_⟩, fun _ => h.2.2⟩
          · intro hnone
            cases hnone
          · intro hlt
            exact (Nat.not_lt.mpr hlong hlt).elim
      · constructor
        · intro h
          exact nomatch h.1.mpr (Nat.not_le.mp hlong)
        · intro h
          exact (hlong h.1).elim
  · have hret : (statu.recvV4 .little pkt pro d).ret = none := by
      rw [recvV4_result .little hproto, if_neg (fun h => hicmp h.2.1)]
    rw [hret]
    constructor
    · intro _
      exact Or.inl hicmp
    · intro _
      refine ⟨⟨fun _ => Or.inl hicmp, fun _ => rfl⟩, fun hrelevant => ?_⟩
      exact (hrelevant (Or.inl hicmp)).elim

end Turn

def icmpDatagram (high low : UInt8) (rest : List UInt8) : Datagram where
  bytes := [0x45, 0, high, low, 0, 0, 0, 0, 64, 1, 0, 0, 10, 0, 0, 1, 10, 0, 0, 2] ++ rest
  nonempty := List.cons_ne_nil _ _

theorem length_icmpDatagram (high low : UInt8) (rest : List UInt8) :
    (icmpDatagram high low rest).bytes.length = 20 + rest.length :=
  List.length_append

theorem lengthInHeader_icmpDatagram {high low : UInt8} {rest : List UInt8}
    (h : 256 * high.toNat + low.toNat = 20 + rest.length) :
    (icmpDatagram high low rest).LengthInHeader := by
  rw [Datagram.LengthInHeader, length_icmpDatagram, ← h, ← toNat_word_big]
  rfl

/-- An echo reply of 56 bytes. -/
theorem recvV4_judges_reply :
    (icmpDatagram 0 56 (List.replicate 36 0)).OwnJudgement
      (oddProbe.recvV4 .little (stalePacket 3) protoToOne
        (icmpDatagram 0 56 (List.replicate 36 0))).ret :=
  (recvV4_judges_iff (d := icmpDatagram 0 56 (List.replicate 36 0)) rfl (by decide)
    (lengthInHeader_icmpDatagram rfl) oddProbe (stalePacket 3)).mpr
    (Or.inr ⟨by decide, by decide, 0, rfl, rfl⟩)

/-- An echo reply of 32 bytes ends the trace, and one of 256 bytes is skipped. -/
theorem recvV4_swaps_length :
    ((icmpDatagram 0 32 (List.replicate 12 0)).LengthInHeader ∧
      (oddProbe.recvV4 .little (stalePacket 3) protoToOne
        (icmpDatagram 0 32 (List.replicate 12 0))).ret = some .arrived ∧
      ¬ (icmpDatagram 0 32 (List.replicate 12 0)).OwnJudgement (some .arrived)) ∧
    ((icmpDatagram 1 0 (List.replicate 236 0)).LengthInHeader ∧
      (oddProbe.recvV4 .little (stalePacket 3) protoToOne
        (icmpDatagram 1 0 (List.replicate 236 0))).ret = none ∧
      ¬ (icmpDatagram 1 0 (List.replicate 236 0)).OwnJudgement none) := by
  have hlong : (icmpDatagram 1 0 (List.replicate 236 0)).bytes.length = 256 := by
    rw [length_icmpDatagram, List.length_replicate]
  have hheader : (icmpDatagram 1 0 (List.replicate 236 0)).LengthInHeader :=
    lengthInHeader_icmpDatagram (by rw [List.length_replicate]; rfl)
  refine ⟨⟨lengthInHeader_icmpDatagram rfl, ?_, ?_⟩, ⟨hheader, ?_, ?_⟩⟩
  · rw [recvV4_icmp rfl rfl (by decide) (lengthInHeader_icmpDatagram rfl)]
    rfl
  · intro h
    exact nomatch h.1.mpr (Or.inr (by decide))
  · rw [recvV4_icmp rfl rfl (by lia) hheader, if_pos]
    rw [Datagram.SwappedShort, hlong]
    decide
  · intro h
    rcases h.1.mp rfl with hproto | hshort
    · exact hproto rfl
    · lia

end Traceroute
end PracticeHand
