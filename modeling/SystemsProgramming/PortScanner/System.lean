import SystemsProgramming.PortScanner.Proofs.ReplyProofs

/-!
# The port scanner with its target (`port-scanner/main.c`)

The sending thread, the listening thread, the machine that is scanned and a network that loses packets,
delays them, and delivers them in another order or several times. The target is a TCP of RFC 793: it
answers a SYN whose checksum is right with a SYN-ACK from a port that listens, and with a reset from one
that does not. Everybody else sends what he likes; that it is not in the name of the target is an
assumption of its own.
-/

namespace SystemsProgramming.PortScanner

open Foundations Prog

/-- The machine with the address `daddr` takes the packet for a request of a connection. -/
structure Request (daddr packet : List UInt8) : Prop where
  dest : Packet.dest packet = daddr
  control : Segment.control (Packet.segment packet) = 0b000010
  verifies :
    Segment.Verifies (Packet.segment packet) (Packet.source packet) (Packet.dest packet)

/-- What a machine on which these ports listen answers. -/
structure Reply (listening : Nat → Bool) (probe reply : List UInt8) : Prop extends Answers probe reply where
  syn : Segment.syn (Packet.segment reply) = listening (Segment.dest (Packet.segment probe))
  ack : Segment.ack (Packet.segment reply) = true

/-- What happens. -/
inductive Event where
  /-- a call of the loop in `main` -/
  | main (c : Call)
  /-- the target gets a packet and answers it -/
  | target (probe reply : List UInt8)
  /-- somebody else sends a packet -/
  | other (packet : List UInt8)
  /-- an iteration of the listening thread -/
  | listen (a : ReadAnswer)

/-- The calls of the loop in `main`. -/
def Event.mainCall : Event → Option Call
  | .main c => some c
  | _ => none

/-- What the listening thread reads. -/
def Event.readAnswer : Event → Option ReadAnswer
  | .listen a => some a
  | _ => none

/-- The configuration, the numbers that `inet_addr` and `rand` return, and what `read` and the buffer
hold at the beginning. -/
structure Setting where
  config : ScanConfig
  inetAddr : CStr → UInt32
  answers : Int → SynAnswers
  listening : Nat → Bool
  stack : Memory

/-- The address of the target as it is in memory. -/
def Setting.daddr (e : Setting) : List UInt8 := toLe 4 e.config.dest.toNat

/-- The calls of the loop in `main`, when it is over. -/
def Setting.mainTrace (e : Setting) : List Call := (sendSyns e.inetAddr e.config e.answers).calls ()

/-- A run. Whatever arrives was sent before, but not everything that is sent arrives. -/
structure Run (e : Setting) (evs : List Event) : Prop where
  main : evs.filterMap Event.mainCall <+: e.mainTrace
  target : ∀ k probe reply, evs[k]? = some (.target probe reply) →
    (∃ addr port, .main (.sendto probe addr port) ∈ evs.take k) ∧ Request e.daddr probe ∧
      Reply e.listening probe reply
  listen : ∀ k packet, evs[k]? = some (.listen (.data packet)) →
    (∃ probe, .target probe packet ∈ evs.take k) ∨ .other packet ∈ evs.take k

/-- The packet passes for one of the target: it bears the target's address, and it does not hold both
headers, or its ports are those of an answer. -/
def Setting.Forged (e : Setting) (packet : List UInt8) : Prop :=
  Packet.source packet = e.daddr ∧
    (Packet.WellFormed packet → ¬ Foreign e.config e.daddr packet)

/-- The assumption on everybody else: such a packet comes from the target only. -/
def NoForgery (e : Setting) (evs : List Event) : Prop :=
  ∀ packet, .other packet ∈ evs → ¬ e.Forged packet

/-- What the listening thread prints. -/
def Setting.output (e : Setting) (evs : List Event) : List Call :=
  (listenSynacks e.config (evs.filterMap Event.readAnswer)).calls ⟨e.stack, true⟩

/-- The line that names an open port. -/
def openLine (port : Int) : String := "Port " ++ toString port ++ " open (syn-ack received)\n"

end SystemsProgramming.PortScanner
