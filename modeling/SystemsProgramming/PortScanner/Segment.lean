import SystemsProgramming.Foundations.OnesComplement

/-!
# IPv4 packets that carry a TCP segment

What the other end makes of a packet, whatever program has put it together: the numbers are in network
order, and the segment is behind an IP header as long as its first byte says. The check is the one of
RFC 793.
-/

namespace SystemsProgramming.PortScanner

open Foundations

/-- The number in `n` bytes from the position `i` on. -/
def field (i n : Nat) (bs : List UInt8) : Nat := ofBe ((bs.drop i).take n)

namespace Packet

variable (packet : List UInt8)

def version : Nat := field 0 1 packet / 16

/-- The length of the IP header in bytes. -/
def headerLength : Nat := 4 * (field 0 1 packet % 16)

/-- The bytes of the source address. -/
def source : List UInt8 := (packet.drop 12).take 4

/-- The bytes of the destination address. -/
def dest : List UInt8 := (packet.drop 16).take 4

/-- What is behind the IP header. -/
def segment : List UInt8 := packet.drop (headerLength packet)

/-- An IPv4 packet that has room for its header and a TCP header. -/
def WellFormed : Prop :=
  version packet = 4 ∧ 20 ≤ headerLength packet ∧ headerLength packet + 20 ≤ packet.length

end Packet

namespace Segment

variable (segment : List UInt8)

/-- The source port. -/
def source : Nat := field 0 2 segment

/-- The destination port. -/
def dest : Nat := field 2 2 segment

def dataOffset : Nat := field 12 1 segment / 16

/-- The byte of the control bits. -/
def control : Nat := field 13 1 segment

def syn : Bool := (control segment).testBit 1

def ack : Bool := (control segment).testBit 4

/-- Both addresses, zero, the protocol and the length of the segment. -/
def pseudoHeader (source dest : List UInt8) (length : Nat) : List UInt8 :=
  source ++ dest ++ [0, 6] ++ toBe 2 length

/-- The receiver's check: the words of the pseudo header and the segment add up to all ones. -/
def Verifies (source dest : List UInt8) : Prop :=
  OnesComplement.sum 0xFFFF
    (OnesComplement.beWords (pseudoHeader source dest segment.length ++ segment)) = 0xFFFF

end Segment

/-- A packet from `saddr` to `daddr`, both as they are in memory, that asks the port `destPort` for a
connection. -/
structure IsSyn (packet saddr daddr : List UInt8) (sourcePort destPort : Int) : Prop where
  length : packet.length = 40
  headerLength : Packet.headerLength packet = 20
  packet_source : Packet.source packet = saddr
  packet_dest : Packet.dest packet = daddr
  source : (Segment.source (Packet.segment packet) : Int) = sourcePort
  dest : (Segment.dest (Packet.segment packet) : Int) = destPort
  dataOffset : Segment.dataOffset (Packet.segment packet) = 5
  control : Segment.control (Packet.segment packet) = 0b000010
  verifies :
    Segment.Verifies (Packet.segment packet) (Packet.source packet) (Packet.dest packet)

/-- A packet that answers a probe: from its destination, with the ports swapped. -/
structure Answers (probe reply : List UInt8) : Prop where
  wellFormed : Packet.WellFormed reply
  packet_source : Packet.source reply = Packet.dest probe
  source : Segment.source (Packet.segment reply) = Segment.dest (Packet.segment probe)
  dest : Segment.dest (Packet.segment reply) = Segment.source (Packet.segment probe)

end SystemsProgramming.PortScanner
