import SystemsProgramming.PortScanner.Proofs.ListenerProofs

/-!
# Proofs: the replies

The probes are built by one function and the replies taken apart by another. They agree on byte order,
on the layout of the headers and on the flags, with any number of options in the IP header of a reply.
-/

namespace SystemsProgramming.PortScanner

open Foundations Prog

variable {config : ScanConfig} {port : Int} {reply : List UInt8} (m : Memory)

/-! ## Fields of a packet in the buffer -/

theorem field_eq {i n : Nat} (h : i + n ≤ reply.length) :
    field i n reply = ofBe (bytesAt (overlay reply m) i n) := by
  rw [field, bytesAt_overlay h]

theorem ofBe_bytesAt_one (i : Nat) : ofBe (bytesAt m i 1) = (m i).toNat := by
  simp [bytesAt, ofBe]

theorem field_drop (t i n : Nat) (bs : List UInt8) : field i n (bs.drop t) = field (t + i) n bs := by
  rw [field, field, List.drop_drop]

theorem tcpAt_overlay (h : 1 ≤ reply.length) :
    tcpAt (overlay reply m) = Packet.headerLength reply := by
  rw [tcpAt, Packet.headerLength, field_eq m h, ofBe_bytesAt_one]

/-- A packet in the buffer is reported by its own fields. -/
theorem reports_overlay (hwf : Packet.WellFormed reply) :
    Reports (overlay reply m) reply.length config port ↔
      ofLe (Packet.source reply) = config.dest.toNat ∧
      (Segment.dest (Packet.segment reply) : Int) = config.srcPort ∧
      (Segment.source (Packet.segment reply) : Int) = port ∧
      (config.portStart ≤ port ∧ port ≤ config.portEnd) ∧
      Segment.syn (Packet.segment reply) = true ∧ Segment.ack (Packet.segment reply) = true := by
  obtain ⟨-, hmin, hlen⟩ := hwf
  have hat : tcpAt (overlay reply m) = Packet.headerLength reply := tcpAt_overlay m (by omega)
  have hfield (i n : Nat) (h : i + n ≤ 20) : field i n (Packet.segment reply) =
      ofBe (bytesAt (overlay reply m) (Packet.headerLength reply + i) n) := by
    rw [Packet.segment, field_drop, field_eq m (by omega)]
  have hsaddr : Packet.source reply = bytesAt (overlay reply m) 12 4 :=
    (bytesAt_overlay (by omega)).symm
  have hsource : Segment.source (Packet.segment reply) = _ := hfield 0 2 (by omega)
  have hdest : Segment.dest (Packet.segment reply) = _ := hfield 2 2 (by omega)
  have hcontrol : Segment.control (Packet.segment reply) = _ := hfield 13 1 (by omega)
  rw [ofBe_bytesAt_one] at hcontrol
  rw [Segment.syn, Segment.ack, hcontrol, hsaddr, hsource, hdest]
  constructor
  · rintro ⟨-, haddr, hdst, hsrc, hrange, hsyn, hack⟩
    rw [hat] at hdst hsrc hsyn hack
    exact ⟨haddr, hdst, hsrc, hrange, hsyn, hack⟩
  · rintro ⟨haddr, hdst, hsrc, hrange, hsyn, hack⟩
    rw [← hat] at hdst hsrc hsyn hack
    exact ⟨by omega, haddr, hdst, hsrc, hrange, hsyn, hack⟩

/-! ## Replies to the probes -/

section Replies

variable {probe saddr : List UInt8}

theorem process_answer
    (hprobe : IsSyn probe saddr (toLe 4 config.dest.toNat) config.srcPort port)
    (hrange : config.portStart ≤ port ∧ port ≤ config.portEnd) (h : Answers probe reply) :
    process (overlay reply m) reply.length config =
      if Segment.syn (Packet.segment reply) ∧ Segment.ack (Packet.segment reply) then some port
      else none := by
  have hreports (p : Int) : Reports (overlay reply m) reply.length config p ↔ p = port ∧
      Segment.syn (Packet.segment reply) = true ∧ Segment.ack (Packet.segment reply) = true := by
    rw [reports_overlay m h.wellFormed, h.packet_source, h.dest, h.source, hprobe.packet_dest,
      hprobe.source, hprobe.dest, ofLe_toLe_of_lt config.dest.toNat_lt]
    constructor
    · rintro ⟨-, -, hp, -, hflags⟩
      exact ⟨hp.symm, hflags⟩
    · rintro ⟨rfl, hflags⟩
      exact ⟨rfl, rfl, rfl, hrange, hflags⟩
  split_ifs with hflags
  · exact process_eq_some.2 ((hreports port).2 ⟨rfl, hflags⟩)
  · exact Option.eq_none_iff_forall_ne_some.2 fun p hp =>
      hflags ((hreports p).1 (process_eq_some.1 hp)).2

/-- A packet that is from another address, for another port of this machine, or from a port that is not
scanned. -/
def Foreign (config : ScanConfig) (daddr reply : List UInt8) : Prop :=
  Packet.source reply ≠ daddr ∨
    (Segment.dest (Packet.segment reply) : Int) ≠ config.srcPort ∨
    (Segment.source (Packet.segment reply) : Int) < config.portStart ∨
    config.portEnd < Segment.source (Packet.segment reply)

/-- A packet from another address is not reported, whatever it is otherwise. -/
theorem process_elsewhere (h : Packet.source reply ≠ toLe 4 config.dest.toNat) :
    process (overlay reply m) reply.length config = none := by
  refine Option.eq_none_iff_forall_ne_some.2 fun p hp => h ?_
  obtain ⟨hlen, haddr, -⟩ := process_eq_some.1 hp
  have hsource : Packet.source reply = bytesAt (overlay reply m) 12 4 :=
    (bytesAt_overlay (by omega)).symm
  rw [hsource, ← haddr, toLe_ofLe bytesAt_length]

theorem process_foreign (hwf : Packet.WellFormed reply)
    (h : Foreign config (toLe 4 config.dest.toNat) reply) :
    process (overlay reply m) reply.length config = none := by
  rcases h with haddr | hports
  · exact process_elsewhere m haddr
  · refine Option.eq_none_iff_forall_ne_some.2 fun p hp => ?_
    obtain ⟨-, hdest, hsource, hrange, -⟩ := (reports_overlay m hwf).1 (process_eq_some.1 hp)
    rcases hports with h | h | h
    · exact h hdest
    · omega
    · omega

/-- What sends the probes and what reads the replies agree: a reply to a probe is reported if and only
if it is a SYN-ACK, and no foreign packet is reported. -/
theorem replies_reported (inetAddr : CStr → UInt32) (hvalid : config.Valid)
    (hport : config.portStart ≤ port ∧ port ≤ config.portEnd) (id seq : Int) :
    (∀ reply, Answers (packet inetAddr config port id seq) reply →
      process (overlay reply m) reply.length config =
        if Segment.syn (Packet.segment reply) ∧ Segment.ack (Packet.segment reply) then some port
        else none) ∧
    ∀ other, Packet.WellFormed other →
      Foreign config (Packet.dest (packet inetAddr config port id seq)) other →
      process (overlay other m) other.length config = none := by
  have hprobe := isSyn_packet inetAddr id seq hvalid.srcPort (hvalid.port_bounds hport)
  refine ⟨fun reply => process_answer m hprobe hport, fun other hwf hforeign => ?_⟩
  rw [hprobe.packet_dest] at hforeign
  exact process_foreign m hwf hforeign

/-- A SYN-ACK from port 80 of `10.0.0.5`, behind an IP header with four bytes of options. -/
def synAck : List UInt8 :=
  [0x46, 0, 0, 44, 0, 0, 0, 0, 64, 6, 0, 0, 10, 0, 0, 5, 10, 0, 0, 2, 1, 1, 1, 0] ++
    [0, 80, 0xB2, 0x6D, 0, 0, 0, 7, 0, 0, 0, 8, 0x50, 0x12, 0xFF, 0xFF, 0, 0, 0, 0]

theorem syn_ack_reported :
    process (overlay synAck fun _ => 0) synAck.length lowPorts = some 80 ∧
      process (overlay foreign fun _ => 0) foreign.length lowPorts = none := by
  have hvalid : lowPorts.Valid := ⟨by decide, by decide, by decide, by decide⟩
  have hanswers : Answers (packet (fun _ => 0x0200000A) lowPorts 80 1804289383 846930886) synAck :=
    ⟨⟨by decide, by decide, by decide⟩, by decide, by decide, by decide⟩
  obtain ⟨hanswer, hforeign⟩ := replies_reported (fun _ => 0) (fun _ => 0x0200000A) hvalid
    (show lowPorts.portStart ≤ 80 ∧ 80 ≤ lowPorts.portEnd by decide) 1804289383 846930886
  exact ⟨hanswer synAck hanswers,
    hforeign foreign ⟨by decide, by decide, by decide⟩ (Or.inl (by decide))⟩

end Replies

end SystemsProgramming.PortScanner
