import Mathlib.Data.List.Basic

/-!
# Probes and replies

The datagrams that traceroute sends and receives.  The host reads and writes
words of two bytes in its own order, and `send_v4` and `recv_v4` convert none of
them.
-/

namespace PracticeHand
namespace Traceroute

inductive ByteOrder where
  | little
  | big
  deriving DecidableEq

/-- The `u_int16_t` that the host sees in two consecutive bytes. -/
def ByteOrder.word : ByteOrder -> UInt8 -> UInt8 -> UInt16
  | .little, a, b => UInt16.ofNat (a.toNat + 256 * b.toNat)
  | .big, a, b => UInt16.ofNat (256 * a.toNat + b.toNat)

theorem toNat_word_little (a b : UInt8) :
    (ByteOrder.little.word a b).toNat = a.toNat + 256 * b.toNat := by
  have ha := a.toNat_lt
  have hb := b.toNat_lt
  rw [ByteOrder.word, UInt16.toNat_ofNat']
  exact Nat.mod_eq_of_lt (by lia)

theorem toNat_word_big (a b : UInt8) :
    (ByteOrder.big.word a b).toNat = 256 * a.toNat + b.toNat := by
  have ha := a.toNat_lt
  have hb := b.toNat_lt
  rw [ByteOrder.word, UInt16.toNat_ofNat']
  exact Nat.mod_eq_of_lt (by lia)

structure Addr where
  bytes : UInt8 × UInt8 × UInt8 × UInt8
  deriving DecidableEq

def wordAt (order : ByteOrder) (bytes : List UInt8) (k : Nat) : Option UInt16 := do
  let a <- bytes[k]?
  let b <- bytes[k + 1]?
  return order.word a b

def addrAt (bytes : List UInt8) (k : Nat) : Option Addr := do
  let a <- bytes[k]?
  let b <- bytes[k + 1]?
  let c <- bytes[k + 2]?
  let d <- bytes[k + 3]?
  return ⟨(a, b, c, d)⟩

/-- `sizeof(struct ip)`, `sizeof(struct icmp)` and `BUFSIZE`. -/
def sizeofIp : Nat := 20
def sizeofIcmp : Nat := 28
def bufsize : Nat := 1500

def addrIn (buf : Nat -> UInt8) (k : Nat) : Addr :=
  ⟨(buf k, buf (k + 1), buf (k + 2), buf (k + 3))⟩

/-- A datagram as the raw socket delivers it, with its IP header and so never empty. -/
structure Datagram where
  bytes : List UInt8
  nonempty : bytes ≠ []
  deriving DecidableEq

/-!
## Probes
-/

/-- What stays the same during a run: the byte order of the host, the fields of
`struct proto`, `status.pid` and `hops_max`. -/
structure Setup where
  order : ByteOrder
  icmpproto : UInt8 := 1
  sasend : Addr
  sabind : Addr
  pid : UInt16
  hopsMax : Int

/-- The header fields of `struct sendpkt_v4`, without checksums. -/
structure Probe where
  ipLen : UInt16
  ipId : UInt16
  ipTtl : UInt8
  ipP : UInt8
  ipSrc : Addr
  ipDst : Addr
  icmpType : UInt8
  icmpCode : UInt8
  icmpId : UInt16
  icmpSeq : UInt16
  deriving DecidableEq

def icmpEchoReply : UInt8 := 0
def icmpEcho : UInt8 := 8
def icmpTimeExceeded : UInt8 := 11

/-- The probe that `send_v4` sends while `status.hops_time` is `hopsTime`. -/
def sendV4 (c : Setup) (hopsTime : Nat) : Probe where
  ipLen := 78
  ipId := c.pid
  ipTtl := UInt8.ofNat hopsTime
  ipP := c.icmpproto
  ipSrc := c.sabind
  ipDst := c.sasend
  icmpType := icmpEcho
  icmpCode := 0
  icmpId := c.pid
  icmpSeq := UInt16.ofNat hopsTime

/-!
## Replies

What a datagram is, by its own bytes and the length of its own IP header.
-/

def headerLen (bytes : List UInt8) : Nat :=
  4 * ((bytes.headD 0).toNat % 16)

def IsIcmp (bytes : List UInt8) (icmpproto kind : UInt8) : Prop :=
  bytes[9]? = some icmpproto ∧ bytes[headerLen bytes]? = some kind

def Datagram.EchoReply (d : Datagram) (c : Setup) (id : UInt16) (src : Addr) : Prop :=
  IsIcmp d.bytes c.icmpproto icmpEchoReply ∧
    wordAt c.order d.bytes (headerLen d.bytes + 4) = some id ∧
    addrAt d.bytes 12 = some src

/-- The packet that an ICMP error quotes after its own header. -/
def Datagram.quoted (d : Datagram) : List UInt8 :=
  d.bytes.drop (headerLen d.bytes + 8)

def Datagram.Exceeded (d : Datagram) (c : Setup) (p : Probe) : Prop :=
  IsIcmp d.bytes c.icmpproto icmpTimeExceeded ∧
    IsIcmp d.quoted p.ipP p.icmpType ∧
    addrAt d.quoted 16 = some p.ipDst ∧
    wordAt c.order d.quoted (headerLen d.quoted + 4) = some p.icmpId ∧
    wordAt c.order d.quoted (headerLen d.quoted + 6) = some p.icmpSeq

instance (bytes : List UInt8) (icmpproto kind : UInt8) :
    Decidable (IsIcmp bytes icmpproto kind) :=
  inferInstanceAs (Decidable (_ ∧ _))

instance (d : Datagram) (c : Setup) (id : UInt16) (src : Addr) :
    Decidable (d.EchoReply c id src) :=
  inferInstanceAs (Decidable (_ ∧ _ ∧ _))

instance (d : Datagram) (c : Setup) (p : Probe) : Decidable (d.Exceeded c p) :=
  inferInstanceAs (Decidable (_ ∧ _ ∧ _ ∧ _ ∧ _))

/-- Probes of one process with the same sequence number are quoted by the same
messages; the time to live is not compared. -/
theorem Datagram.exceeded_congr {d : Datagram} {c : Setup} {h k : Nat}
    (hseq : (sendV4 c h).icmpSeq = (sendV4 c k).icmpSeq) :
    d.Exceeded c (sendV4 c h) <-> d.Exceeded c (sendV4 c k) := by
  unfold Exceeded
  rw [hseq]
  rfl

end Traceroute
end PracticeHand
