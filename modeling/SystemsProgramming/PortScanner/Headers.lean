import SystemsProgramming.Foundations.Memory
import Mathlib.Data.Nat.Bits

/-!
# The headers of `netinet/ip.h` and `netinet/tcp.h`

The structures as a little-endian machine has them in memory. Among the bit-fields of a byte the first
one has the lowest bits.
-/

namespace SystemsProgramming.PortScanner

open Foundations

/-! ## Byte order -/

/-- `htons`: the number whose bytes in memory are those of `x`, most significant first. -/
def htons (x : UInt16) : UInt16 := UInt16.ofNat (ofLe (toBe 2 x.toNat))

/-- `htonl` -/
def htonl (x : UInt32) : UInt32 := UInt32.ofNat (ofLe (toBe 4 x.toNat))

/-- `ntohs` -/
def ntohs (x : UInt16) : UInt16 := UInt16.ofNat (ofBe (toLe 2 x.toNat))

/-- What `htons` returns has the bytes in network order. -/
theorem toLe_htons (x : UInt16) : toLe 2 (htons x).toNat = toBe 2 x.toNat := by
  have hlt : ofLe (toBe 2 x.toNat) < 2 ^ 16 := ofLe_lt (toBe_length 2 _)
  rw [htons, UInt16.toNat_ofNat_of_lt' hlt, toLe_ofLe (toBe_length 2 _)]

/-- `ntohs` reads two bytes in network order. -/
theorem ntohs_ofLe {bs : List UInt8} (h : bs.length = 2) :
    (ntohs (UInt16.ofNat (ofLe bs))).toNat = ofBe bs := by
  have hlt : ofLe bs < 2 ^ 16 := ofLe_lt h
  have hbe : ofBe bs < 2 ^ 16 := ofBe_lt h
  rw [ntohs, UInt16.toNat_ofNat_of_lt' hlt, toLe_ofLe h, UInt16.toNat_ofNat_of_lt' hbe]

/-! ## Numbers in memory -/

/-- The `uint16_t` at an address. -/
def uint16At (m : Memory) (i : Nat) : UInt16 := UInt16.ofNat (ofLe (bytesAt m i 2))

/-- The `uint32_t` at an address. -/
def uint32At (m : Memory) (i : Nat) : UInt32 := UInt32.ofNat (ofLe (bytesAt m i 4))

theorem ntohs_uint16At (m : Memory) (i : Nat) :
    (ntohs (uint16At m i)).toNat = ofBe (bytesAt m i 2) := by
  rw [uint16At, ntohs_ofLe bytesAt_length]

theorem uint32At_toNat (m : Memory) (i : Nat) : (uint32At m i).toNat = ofLe (bytesAt m i 4) := by
  have hlt : ofLe (bytesAt m i 4) < 2 ^ 32 := ofLe_lt bytesAt_length
  rw [uint32At, UInt32.toNat_ofNat_of_lt' hlt]

/-! ## The structures -/

/-- `struct iphdr` -/
structure Iphdr where
  ihl : BitVec 4
  version : BitVec 4
  tos : UInt8
  totLen : UInt16
  id : UInt16
  fragOff : UInt16
  ttl : UInt8
  protocol : UInt8
  check : UInt16
  saddr : UInt32
  daddr : UInt32
  deriving DecidableEq

/-- The memory of a `struct iphdr`. -/
def Iphdr.bytes (iph : Iphdr) : List UInt8 :=
  [UInt8.ofNat (iph.ihl.toNat + 16 * iph.version.toNat), iph.tos] ++ toLe 2 iph.totLen.toNat ++
    toLe 2 iph.id.toNat ++ toLe 2 iph.fragOff.toNat ++ [iph.ttl, iph.protocol] ++
    toLe 2 iph.check.toNat ++ toLe 4 iph.saddr.toNat ++ toLe 4 iph.daddr.toNat

/-- `(struct iphdr *)m` -/
def Iphdr.ofMemory (m : Memory) : Iphdr where
  ihl := BitVec.ofNat 4 (m 0).toNat
  version := BitVec.ofNat 4 ((m 0).toNat / 16)
  tos := m 1
  totLen := uint16At m 2
  id := uint16At m 4
  fragOff := uint16At m 6
  ttl := m 8
  protocol := m 9
  check := uint16At m 10
  saddr := uint32At m 12
  daddr := uint32At m 16

/-- `struct tcphdr` -/
structure Tcphdr where
  source : UInt16
  dest : UInt16
  seq : UInt32
  ackSeq : UInt32
  res1 : BitVec 4
  doff : BitVec 4
  fin : Bool
  syn : Bool
  rst : Bool
  psh : Bool
  ack : Bool
  urg : Bool
  res2 : BitVec 2
  window : UInt16
  check : UInt16
  urgPtr : UInt16
  deriving DecidableEq

/-- The byte of the flags. -/
def Tcphdr.flags (tcph : Tcphdr) : Nat :=
  Nat.bit tcph.fin (Nat.bit tcph.syn (Nat.bit tcph.rst (Nat.bit tcph.psh (Nat.bit tcph.ack
    (Nat.bit tcph.urg tcph.res2.toNat)))))

/-- The memory of a `struct tcphdr`. -/
def Tcphdr.bytes (tcph : Tcphdr) : List UInt8 :=
  toLe 2 tcph.source.toNat ++ toLe 2 tcph.dest.toNat ++ toLe 4 tcph.seq.toNat ++
    toLe 4 tcph.ackSeq.toNat ++
    [UInt8.ofNat (tcph.res1.toNat + 16 * tcph.doff.toNat), UInt8.ofNat tcph.flags] ++
    toLe 2 tcph.window.toNat ++ toLe 2 tcph.check.toNat ++ toLe 2 tcph.urgPtr.toNat

/-- `(struct tcphdr *)m` -/
def Tcphdr.ofMemory (m : Memory) : Tcphdr where
  source := uint16At m 0
  dest := uint16At m 2
  seq := uint32At m 4
  ackSeq := uint32At m 8
  res1 := BitVec.ofNat 4 (m 12).toNat
  doff := BitVec.ofNat 4 ((m 12).toNat / 16)
  fin := (m 13).toNat.testBit 0
  syn := (m 13).toNat.testBit 1
  rst := (m 13).toNat.testBit 2
  psh := (m 13).toNat.testBit 3
  ack := (m 13).toNat.testBit 4
  urg := (m 13).toNat.testBit 5
  res2 := BitVec.ofNat 2 ((m 13).toNat / 64)
  window := uint16At m 14
  check := uint16At m 16
  urgPtr := uint16At m 18

theorem Iphdr.bytes_length (iph : Iphdr) : iph.bytes.length = 20 := by
  simp [Iphdr.bytes]

theorem Tcphdr.bytes_length (tcph : Tcphdr) : tcph.bytes.length = 20 := by
  simp [Tcphdr.bytes]

theorem Tcphdr.flags_lt (tcph : Tcphdr) : tcph.flags < 256 := by
  have hres2 := tcph.res2.isLt
  have hbit := fun b : Bool => b.toNat_lt
  have h0 := hbit tcph.fin
  have h1 := hbit tcph.syn
  have h2 := hbit tcph.rst
  have h3 := hbit tcph.psh
  have h4 := hbit tcph.ack
  have h5 := hbit tcph.urg
  simp only [Tcphdr.flags, Nat.bit_val]
  omega

end SystemsProgramming.PortScanner
