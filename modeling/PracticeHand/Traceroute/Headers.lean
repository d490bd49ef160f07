import Mathlib.Data.UInt
import PracticeHand.Traceroute.Packets

/-!
# The structures of `trace.h` and their bytes

`send_v4` fills a `struct ip` and a `struct icmp` field by field and copies them
into the buffer it sends; `recv_v4` copies them out of the buffer it has received.
The fields of `struct ip` are all of its 20 bytes.  `struct icmp` has 28 bytes, and
only the first 8 of them are the header of an echo request: behind it there are 20
bytes of data for other messages, `icmp_dun`.
-/

namespace PracticeHand
namespace Traceroute

/-- The two bytes in which the host keeps a word. -/
def ByteOrder.bytes : ByteOrder -> UInt16 -> List UInt8
  | .little, w => [UInt8.ofNat (w.toNat % 256), UInt8.ofNat (w.toNat / 256)]
  | .big, w => [UInt8.ofNat (w.toNat / 256), UInt8.ofNat (w.toNat % 256)]

theorem ByteOrder.exists_bytes (order : ByteOrder) (w : UInt16) :
    exists a b, order.bytes w = [a, b] ∧ order.word a b = w := by
  have hlt := w.toNat_lt
  have hlow : (UInt8.ofNat (w.toNat % 256)).toNat = w.toNat % 256 := by
    rw [UInt8.toNat_ofNat']
    lia
  have hhigh : (UInt8.ofNat (w.toNat / 256)).toNat = w.toNat / 256 := by
    rw [UInt8.toNat_ofNat']
    lia
  cases order with
  | little =>
      refine ⟨_, _, rfl, ?_⟩
      rw [ByteOrder.word, hlow, hhigh, Nat.mod_add_div]
      exact UInt16.ofNat_toNat
  | big =>
      refine ⟨_, _, rfl, ?_⟩
      rw [ByteOrder.word, hlow, hhigh, Nat.div_add_mod]
      exact UInt16.ofNat_toNat

theorem UInt8.ofInt_natCast (n : Nat) : UInt8.ofInt n = UInt8.ofNat n := by
  apply UInt8.toNat_inj.mp
  rw [UInt8.ofInt, UInt8.toNat_ofNat', UInt8.toNat_ofNat']
  lia

theorem UInt16.ofInt_natCast (n : Nat) : UInt16.ofInt n = UInt16.ofNat n := by
  apply UInt16.toNat_inj.mp
  rw [UInt16.ofInt, UInt16.toNat_ofNat', UInt16.toNat_ofNat']
  lia

def Addr.toBytes (a : Addr) : List UInt8 :=
  [a.bytes.1, a.bytes.2.1, a.bytes.2.2.1, a.bytes.2.2.2]

structure Ip where
  ipV : Fin 16
  ipHl : Fin 16
  ipTos : UInt8
  ipLen : UInt16
  ipId : UInt16
  ipOff : UInt16
  ipTtl : UInt8
  ipP : UInt8
  ipSum : UInt16
  ipSrc : Addr
  ipDst : Addr
  deriving DecidableEq

structure Icmp where
  icmpType : UInt8
  icmpCode : UInt8
  icmpCksum : UInt16
  icmpId : UInt16
  icmpSeq : UInt16
  icmpDun : Vector UInt8 20
  deriving DecidableEq

def Ip.bytes (order : ByteOrder) (h : Ip) : List UInt8 :=
  [UInt8.ofNat (16 * h.ipV.val + h.ipHl.val), h.ipTos] ++ order.bytes h.ipLen ++
    order.bytes h.ipId ++ order.bytes h.ipOff ++ [h.ipTtl, h.ipP] ++ order.bytes h.ipSum ++
    h.ipSrc.toBytes ++ h.ipDst.toBytes

def Icmp.bytes (order : ByteOrder) (h : Icmp) : List UInt8 :=
  [h.icmpType, h.icmpCode] ++ order.bytes h.icmpCksum ++ order.bytes h.icmpId ++
    order.bytes h.icmpSeq ++ h.icmpDun.toList

@[simp] theorem ByteOrder.length_bytes (order : ByteOrder) (w : UInt16) :
    (order.bytes w).length = 2 := by
  cases order <;> rfl

@[simp] theorem Ip.length_bytes (order : ByteOrder) (h : Ip) :
    (h.bytes order).length = sizeofIp := by
  simp [Ip.bytes, Addr.toBytes, sizeofIp]

@[simp] theorem Icmp.length_bytes (order : ByteOrder) (h : Icmp) :
    (h.bytes order).length = sizeofIcmp := by
  simp [Icmp.bytes, sizeofIcmp]

def Ip.ofBytes (order : ByteOrder) (buf : Nat -> UInt8) : Ip where
  ipV := ⟨(buf 0).toNat / 16, by have := (buf 0).toNat_lt; lia⟩
  ipHl := ⟨(buf 0).toNat % 16, Nat.mod_lt _ (by decide)⟩
  ipTos := buf 1
  ipLen := order.word (buf 2) (buf 3)
  ipId := order.word (buf 4) (buf 5)
  ipOff := order.word (buf 6) (buf 7)
  ipTtl := buf 8
  ipP := buf 9
  ipSum := order.word (buf 10) (buf 11)
  ipSrc := addrIn buf 12
  ipDst := addrIn buf 16

def Icmp.ofBytes (order : ByteOrder) (buf : Nat -> UInt8) : Icmp where
  icmpType := buf 0
  icmpCode := buf 1
  icmpCksum := order.word (buf 2) (buf 3)
  icmpId := order.word (buf 4) (buf 5)
  icmpSeq := order.word (buf 6) (buf 7)
  icmpDun := Vector.ofFn (fun i => buf (8 + i.val))

structure SendPkt where
  iphdr : Ip
  icmphdr : Icmp

structure RecvPkt where
  iphdr : Ip
  icmphdr : Icmp
  iphdrEcho : Ip
  icmphdrEcho : Icmp

structure Packet where
  send : SendPkt
  recv : RecvPkt

/-- The fields of `struct trace_status` that `send_v4` and `recv_v4` use; `buflen` is
always `BUFSIZE`. -/
structure Status where
  pid : Int
  hopsTime : Int
  gotalarm : Int
  sendbuf : Nat -> UInt8
  sendpktLen : Int
  recvbuf : Nat -> UInt8
  flagsEcho : Int

/-- The fields of `struct proto` that they use, with the `sin_addr` of each address. -/
structure Proto where
  icmpproto : Int
  sasend : Addr
  sarecv : Addr
  sabind : Addr

end Traceroute
end PracticeHand
