import PracticeHand.Traceroute.Checksum
import PracticeHand.Traceroute.Headers

/-!
# What `send_v4` sends

The datagram is put together in `sendbuf` from the two headers and zeros, the
checksum is computed over what lies behind the IP header, and the ICMP header is
copied once more with the checksum in it.  Nothing of the old `sendbuf` is left in
the datagram, but `icmp_dun` is copied and never assigned.
-/

namespace PracticeHand
namespace Traceroute

open Streams

/-- The structures as `send_v4` leaves them, and the bytes passed to `sendto`. -/
structure Sent where
  statu : Status
  pkt : Packet
  datagram : List UInt8

def ipIcmpHdrlen : Nat := sizeofIp + sizeofIcmp

def ipversion : Fin 16 := 4

def Status.sendV4 (order : ByteOrder) (statu : Status) (pkt : Packet) (pro : Proto) :
    Option Sent :=
  -- `sizeof(statu->buflen)` is 4
  let sendbuf := write statu.sendbuf 0 (List.replicate 4 0)
  let iphdr := { pkt.send.iphdr with
    ipV := ipversion
    ipHl := 5
    ipTos := 0
    ipLen := UInt16.ofInt statu.sendpktLen
    ipId := UInt16.ofInt statu.pid
    ipOff := 0
    ipTtl := UInt8.ofInt statu.hopsTime
    ipP := UInt8.ofInt pro.icmpproto
    ipSum := 0
    ipDst := pro.sasend
    ipSrc := pro.sabind }
  let icmphdr := { pkt.send.icmphdr with
    icmpType := icmpEcho
    icmpCode := 0
    icmpCksum := 0
    icmpId := UInt16.ofInt statu.pid
    icmpSeq := UInt16.ofInt statu.hopsTime }
  -- the second `memset` is undefined for a negative length and past the end of `sendbuf`
  if statu.sendpktLen < ipIcmpHdrlen ∨ bufsize < statu.sendpktLen then none
  else
    let len := statu.sendpktLen.toNat
    let sendbuf := write sendbuf 0 (iphdr.bytes order)
    let sendbuf := write sendbuf sizeofIp (icmphdr.bytes order)
    let sendbuf := write sendbuf ipIcmpHdrlen (List.replicate (len - ipIcmpHdrlen) 0)
    let icmphdr := { icmphdr with
      icmpCksum := inCksum order sendbuf sizeofIp (sizeofIcmp + len - ipIcmpHdrlen) }
    let sendbuf := write sendbuf sizeofIp (icmphdr.bytes order)
    some {
      statu := { statu with sendbuf := sendbuf }
      pkt := { pkt with send := { iphdr := iphdr, icmphdr := icmphdr } }
      datagram := slice sendbuf 0 len }

/-!
## The datagram
-/

def Status.iphdr (statu : Status) (pro : Proto) : Ip where
  ipV := ipversion
  ipHl := 5
  ipTos := 0
  ipLen := UInt16.ofInt statu.sendpktLen
  ipId := UInt16.ofInt statu.pid
  ipOff := 0
  ipTtl := UInt8.ofInt statu.hopsTime
  ipP := UInt8.ofInt pro.icmpproto
  ipSum := 0
  ipSrc := pro.sabind
  ipDst := pro.sasend

/-- The ICMP header of a probe, with what happens to be in `icmp_dun`. -/
def Status.icmphdr (statu : Status) (dun : Vector UInt8 20) (cksum : UInt16) : Icmp where
  icmpType := icmpEcho
  icmpCode := 0
  icmpCksum := cksum
  icmpId := UInt16.ofInt statu.pid
  icmpSeq := UInt16.ofInt statu.hopsTime
  icmpDun := dun

/-- What a probe carries behind its IP header. -/
def Status.payload (order : ByteOrder) (statu : Status) (dun : Vector UInt8 20)
    (cksum : UInt16) : List UInt8 :=
  (statu.icmphdr dun cksum).bytes order ++
    List.replicate (statu.sendpktLen.toNat - ipIcmpHdrlen) 0

def Status.cksum (order : ByteOrder) (statu : Status) (dun : Vector UInt8 20) : UInt16 :=
  ~~~ (onesSum order (statu.payload order dun 0))

def Status.assembled (order : ByteOrder) (statu : Status) (pro : Proto)
    (dun : Vector UInt8 20) : Nat -> UInt8 :=
  write
    (write (write (write statu.sendbuf 0 (List.replicate 4 0)) 0 ((statu.iphdr pro).bytes order))
      sizeofIp ((statu.icmphdr dun 0).bytes order))
    ipIcmpHdrlen (List.replicate (statu.sendpktLen.toNat - ipIcmpHdrlen) 0)

def Status.finished (order : ByteOrder) (statu : Status) (pro : Proto)
    (dun : Vector UInt8 20) (cksum : UInt16) : Nat -> UInt8 :=
  write (statu.assembled order pro dun) sizeofIp ((statu.icmphdr dun cksum).bytes order)

def Status.sent (order : ByteOrder) (statu : Status) (pkt : Packet) (pro : Proto)
    (cksum : UInt16) : Sent where
  statu := { statu with
    sendbuf := statu.finished order pro pkt.send.icmphdr.icmpDun cksum }
  pkt := { pkt with send := {
    iphdr := statu.iphdr pro
    icmphdr := statu.icmphdr pkt.send.icmphdr.icmpDun cksum } }
  datagram := slice (statu.finished order pro pkt.send.icmphdr.icmpDun cksum) 0
    statu.sendpktLen.toNat

/-- The lengths for which `send_v4` stays inside its buffer. -/
def Status.Fits (statu : Status) : Prop :=
  ipIcmpHdrlen ≤ statu.sendpktLen ∧ statu.sendpktLen ≤ bufsize

section Datagram

variable {order : ByteOrder} {statu : Status} {pkt : Packet} {pro : Proto}
  {dun : Vector UInt8 20} {cksum : UInt16}

theorem slice_written {xs : List UInt8} {count : Nat} (h : xs.length = count)
    (buf : Nat -> UInt8) (start : Nat) : slice (write buf start xs) start count = xs := by
  rw [← h, slice_write]

theorem slice_assembled_zeros :
    slice (statu.assembled order pro dun) ipIcmpHdrlen
        (statu.sendpktLen.toNat - ipIcmpHdrlen) =
      List.replicate (statu.sendpktLen.toNat - ipIcmpHdrlen) 0 :=
  slice_written List.length_replicate _ _

theorem Status.Fits.lengths (hfits : statu.Fits) :
    statu.sendpktLen.toNat = sizeofIp + (statu.sendpktLen.toNat - sizeofIp) ∧
      statu.sendpktLen.toNat - sizeofIp =
        sizeofIcmp + (statu.sendpktLen.toNat - ipIcmpHdrlen) ∧
      sizeofIcmp + statu.sendpktLen.toNat - ipIcmpHdrlen =
        statu.sendpktLen.toNat - sizeofIp := by
  have hlow := hfits.1
  simp only [ipIcmpHdrlen, sizeofIp, sizeofIcmp] at hlow ⊢
  lia

theorem slice_assembled (hfits : statu.Fits) :
    slice (statu.assembled order pro dun) sizeofIp (statu.sendpktLen.toNat - sizeofIp) =
      statu.payload order dun 0 := by
  have hheader : slice (statu.assembled order pro dun) sizeofIp sizeofIcmp =
      (statu.icmphdr dun 0).bytes order := by
    rw [Status.assembled, slice_write_of_disjoint _ _ (Or.inl (by decide)),
      slice_written (Icmp.length_bytes order _)]
  rw [hfits.lengths.2.1, slice_add, hheader]
  exact congrArg (_ ++ ·) slice_assembled_zeros

theorem slice_finished (hfits : statu.Fits) :
    slice (statu.finished order pro dun cksum) sizeofIp (statu.sendpktLen.toNat - sizeofIp) =
      statu.payload order dun cksum := by
  have hzeros : slice (statu.finished order pro dun cksum) ipIcmpHdrlen
      (statu.sendpktLen.toNat - ipIcmpHdrlen) =
        List.replicate (statu.sendpktLen.toNat - ipIcmpHdrlen) 0 := by
    rw [Status.finished, slice_write_of_disjoint _ _ (Or.inr (by rw [Icmp.length_bytes]; rfl))]
    exact slice_assembled_zeros
  rw [hfits.lengths.2.1, slice_add, Status.finished,
    slice_written (Icmp.length_bytes order _)]
  exact congrArg (_ ++ ·) hzeros

theorem slice_finished_ip :
    slice (statu.finished order pro dun cksum) 0 sizeofIp = (statu.iphdr pro).bytes order := by
  rw [Status.finished, slice_write_of_disjoint _ _ (Or.inl (by decide)), Status.assembled,
    slice_write_of_disjoint _ _ (Or.inl (by decide)),
    slice_write_of_disjoint _ _ (Or.inl (by decide)), slice_written (Ip.length_bytes order _)]

theorem inCksum_assembled (hfits : statu.Fits) (pro : Proto) :
    inCksum order (statu.assembled order pro dun) sizeofIp
        (sizeofIcmp + statu.sendpktLen.toNat - ipIcmpHdrlen) = statu.cksum order dun := by
  have hsmall : statu.sendpktLen.toNat - sizeofIp ≤ 65535 := by
    have hhigh := hfits.2
    simp only [bufsize] at hhigh
    lia
  rw [hfits.lengths.2.2, inCksum_eq_complement order _ _ hsmall, slice_assembled hfits]
  rfl

theorem sendV4_eq (hfits : statu.Fits) :
    statu.sendV4 order pkt pro =
      some (statu.sent order pkt pro (statu.cksum order pkt.send.icmphdr.icmpDun)) := by
  have hdefined : ¬ (statu.sendpktLen < ipIcmpHdrlen ∨ bufsize < statu.sendpktLen) := by
    rcases hfits with ⟨hlow, hhigh⟩
    lia
  rw [← inCksum_assembled hfits pro]
  exact if_neg hdefined

theorem datagram_sent (hfits : statu.Fits) :
    (statu.sent order pkt pro cksum).datagram =
      (statu.iphdr pro).bytes order ++
        statu.payload order pkt.send.icmphdr.icmpDun cksum := by
  rw [Status.sent, hfits.lengths.1, slice_add, slice_finished_ip, Nat.zero_add, slice_finished hfits]

def SendPkt.probe (p : SendPkt) : Probe where
  ipLen := p.iphdr.ipLen
  ipId := p.iphdr.ipId
  ipTtl := p.iphdr.ipTtl
  ipP := p.iphdr.ipP
  ipSrc := p.iphdr.ipSrc
  ipDst := p.iphdr.ipDst
  icmpType := p.icmphdr.icmpType
  icmpCode := p.icmphdr.icmpCode
  icmpId := p.icmphdr.icmpId
  icmpSeq := p.icmphdr.icmpSeq

theorem sendV4_probe {c : Setup} {hops : Nat} (hpid : statu.pid = c.pid.toNat)
    (hhops : statu.hopsTime = hops) (hlen : statu.sendpktLen = 78)
    (hproto : pro.icmpproto = c.icmpproto.toNat) (hsasend : pro.sasend = c.sasend)
    (hsabind : pro.sabind = c.sabind) :
    exists sent, statu.sendV4 order pkt pro = some sent ∧
      sent.pkt.send.probe = sendV4 c hops := by
  have hfits : statu.Fits := by
    rw [Status.Fits, hlen]
    decide
  refine ⟨_, sendV4_eq hfits, ?_⟩
  simp only [Status.sent, SendPkt.probe, Status.iphdr, Status.icmphdr, sendV4, hpid, hhops, hlen,
    hproto, hsasend, hsabind, UInt16.ofInt_natCast, UInt8.ofInt_natCast, UInt16.ofNat_toNat,
    UInt8.ofNat_toNat]
  rfl

/-!
## The checksum
-/

/-- The checksum is one of the words, at an even distance from the beginning. -/
theorem sum_words_payload (order : ByteOrder) (statu : Status) (dun : Vector UInt8 20)
    (cksum : UInt16) :
    (words order (statu.payload order dun cksum)).sum =
      (words order (statu.payload order dun 0)).sum + cksum.toNat := by
  rcases order.exists_bytes cksum with ⟨a, b, hbytes, hword⟩
  rcases order.exists_bytes 0 with ⟨a', b', hbytes', hword'⟩
  simp only [Status.payload, Status.icmphdr, Icmp.bytes, hbytes, hbytes', List.cons_append,
    List.nil_append, List.append_assoc, words, hword, hword', List.sum_cons, UInt16.toNat_zero]
  lia

theorem onesSum_payload (order : ByteOrder) (statu : Status) (dun : Vector UInt8 20) :
    onesSum order (statu.payload order dun (statu.cksum order dun)) = 0xffff := by
  apply UInt16.toNat_inj.mp
  rw [toNat_onesSum, sum_words_payload, Status.cksum, toNat_complement]
  exact OnesComplement.fold_complement (by decide) _

/-- Whatever was in the buffer and in the structures before, the words behind the IP
header of a probe add up to all ones. -/
theorem sendV4_checksum (order : ByteOrder) {statu : Status} (pkt : Packet) (pro : Proto)
    (hlow : 48 ≤ statu.sendpktLen) (hhigh : statu.sendpktLen ≤ bufsize) :
    exists sent, statu.sendV4 order pkt pro = some sent ∧
      onesSum order (slice sent.statu.sendbuf 20 (statu.sendpktLen.toNat - 20)) = 0xffff ∧
      inCksum order sent.statu.sendbuf 20 (statu.sendpktLen.toNat - 20) = 0 := by
  have hfits : statu.Fits := ⟨hlow, hhigh⟩
  have hsum : onesSum order (slice (statu.finished order pro pkt.send.icmphdr.icmpDun
      (statu.cksum order pkt.send.icmphdr.icmpDun)) 20 (statu.sendpktLen.toNat - 20)) =
        0xffff := by
    rw [show (20 : Nat) = sizeofIp from rfl, slice_finished hfits, onesSum_payload]
  refine ⟨_, sendV4_eq hfits, hsum, ?_⟩
  have hsmall : statu.sendpktLen.toNat - 20 ≤ 65535 := by
    simp only [bufsize] at hhigh
    lia
  rw [inCksum_eq_complement order _ _ hsmall, Status.sent, hsum]
  rfl

end Datagram

def oddProbe : Status where
  pid := 7
  hopsTime := 1
  gotalarm := 0
  sendbuf := fun _ => 0xff
  sendpktLen := 49
  recvbuf := fun _ => 0
  flagsEcho := 0

def stalePacket (byte : UInt8) : Packet :=
  let iphdr := Ip.ofBytes .little (fun _ => byte)
  let icmphdr := Icmp.ofBytes .little (fun _ => byte)
  { send := ⟨iphdr, icmphdr⟩, recv := ⟨iphdr, icmphdr, iphdr, icmphdr⟩ }

def protoToOne : Proto where
  icmpproto := 1
  sasend := ⟨(10, 0, 0, 1)⟩
  sarecv := ⟨(0, 0, 0, 0)⟩
  sabind := ⟨(0, 0, 0, 0)⟩

theorem sendV4_checksum_odd :
    exists sent, oddProbe.sendV4 .little (stalePacket 3) protoToOne = some sent ∧
      onesSum .little (slice sent.statu.sendbuf 20 29) = 0xffff ∧
      inCksum .little sent.statu.sendbuf 20 29 = 0 :=
  @sendV4_checksum .little oddProbe (stalePacket 3) protoToOne (by decide) (by decide)

/-!
## What a probe reveals
-/

theorem datagram_icmpDun {order : ByteOrder} {statu : Status} (hfits : statu.Fits)
    (pkt : Packet) (pro : Proto) (cksum : UInt16) :
    ((statu.sent order pkt pro cksum).datagram.drop 28).take 20 =
      pkt.send.icmphdr.icmpDun.toList := by
  rw [datagram_sent hfits, Status.payload, Icmp.bytes, List.append_assoc, ← List.append_assoc,
    List.drop_left' (by simp [sizeofIp]), List.take_left' (by simp [Status.icmphdr])]
  rfl

/-- Two calls with the same parameters send the same datagram exactly when the same
bytes were in `icmp_dun`. -/
theorem sendV4_reveals_iff (order : ByteOrder) {a b : Status} (p q : Packet)
    {pro pro' : Proto} (hpid : a.pid = b.pid) (hhops : a.hopsTime = b.hopsTime)
    (hlen : a.sendpktLen = b.sendpktLen) (hproto : pro.icmpproto = pro'.icmpproto)
    (hsasend : pro.sasend = pro'.sasend) (hsabind : pro.sabind = pro'.sabind)
    (hlow : 48 ≤ a.sendpktLen) (hhigh : a.sendpktLen ≤ bufsize) :
    (exists s t, a.sendV4 order p pro = some s ∧ b.sendV4 order q pro' = some t ∧
      s.datagram = t.datagram) <->
      p.send.icmphdr.icmpDun = q.send.icmphdr.icmpDun := by
  have hfits : a.Fits := ⟨hlow, hhigh⟩
  have hfits' : b.Fits := by
    rw [Status.Fits, ← hlen]
    exact hfits
  have hip : a.iphdr pro = b.iphdr pro' := by
    rw [Status.iphdr, Status.iphdr, hpid, hhops, hlen, hproto, hsasend, hsabind]
  have hicmp : forall dun cksum, a.icmphdr dun cksum = b.icmphdr dun cksum := by
    intro dun cksum
    rw [Status.icmphdr, Status.icmphdr, hpid, hhops]
  have hpayload : forall dun cksum, a.payload order dun cksum = b.payload order dun cksum := by
    intro dun cksum
    rw [Status.payload, Status.payload, hicmp, hlen]
  rw [sendV4_eq hfits, sendV4_eq hfits']
  constructor
  · intro hparts
    rcases hparts with ⟨s, t, hs, ht, heq⟩
    cases hs
    cases ht
    have hbytes := congrArg (fun d => (d.drop 28).take 20) heq
    rw [datagram_icmpDun hfits, datagram_icmpDun hfits'] at hbytes
    exact Vector.toList_inj.mp hbytes
  · intro hdun
    refine ⟨_, _, rfl, rfl, ?_⟩
    rw [datagram_sent hfits, datagram_sent hfits', hip, hdun, hpayload, Status.cksum,
      Status.cksum, hpayload]

theorem sendV4_reveals_nothing_of_same :
    exists s t, oddProbe.sendV4 .little (stalePacket 3) protoToOne = some s ∧
      { oddProbe with sendbuf := fun _ => 0 }.sendV4 .little (stalePacket 3) protoToOne = some t ∧
      s.datagram = t.datagram :=
  (sendV4_reveals_iff .little (a := oddProbe) (b := { oddProbe with sendbuf := fun _ => 0 })
    (stalePacket 3) (stalePacket 3) rfl rfl rfl rfl rfl rfl (by decide) (by decide)).mpr rfl

/-- The same probe twice, with other bytes on the stack of `traceloop`. -/
theorem sendV4_reveals_icmpDun :
    exists s t, oddProbe.sendV4 .little (stalePacket 3) protoToOne = some s ∧
      oddProbe.sendV4 .little (stalePacket 5) protoToOne = some t ∧
      (s.datagram.drop 28).take 20 = List.replicate 20 3 ∧
      (t.datagram.drop 28).take 20 = List.replicate 20 5 ∧ s.datagram ≠ t.datagram := by
  have hfits : oddProbe.Fits := ⟨by decide, by decide⟩
  have hshows : forall byte cksum,
      ((oddProbe.sent .little (stalePacket byte) protoToOne cksum).datagram.drop 28).take 20 =
        List.replicate 20 byte := by
    intro byte cksum
    rw [datagram_icmpDun hfits]
    simp [stalePacket, Icmp.ofBytes, Vector.toList_ofFn]
  refine ⟨_, _, sendV4_eq hfits, sendV4_eq hfits, hshows _ _, hshows _ _, ?_⟩
  intro heq
  have hsame := congrArg (fun d => (d.drop 28).take 20) heq
  rw [hshows, hshows, List.replicate_inj] at hsame
  exact absurd hsame.2 (by decide)

end Traceroute
end PracticeHand
