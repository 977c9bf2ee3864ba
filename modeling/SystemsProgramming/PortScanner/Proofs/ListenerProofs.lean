import SystemsProgramming.PortScanner.Proofs.ProbeProofs

/-!
# Proofs: what a report depends on

`process` looks for the TCP header where the first byte of the packet says, but checks the length of the
packet only for an IP header without options. What the header has behind the end of the packet is what
earlier packets have left in the buffer.
-/

namespace SystemsProgramming.PortScanner

open Foundations Prog

variable {config : ScanConfig} {length port : Int} {buffer : Memory}

/-! ## What is reported -/

/-- Where `process` takes the TCP header to be. -/
def tcpAt (buffer : Memory) : Nat := 4 * ((buffer 0).toNat % 16)

/-- The bytes in the buffer that make `process` print a port. -/
structure Reports (buffer : Memory) (length : Int) (config : ScanConfig) (port : Int) : Prop where
  enough : 40 ≤ length
  saddr : ofLe (bytesAt buffer 12 4) = config.dest.toNat
  dest : (ofBe (bytesAt buffer (tcpAt buffer + 2) 2) : Int) = config.srcPort
  source : (ofBe (bytesAt buffer (tcpAt buffer) 2) : Int) = port
  range : config.portStart ≤ port ∧ port ≤ config.portEnd
  syn : (buffer (tcpAt buffer + 13)).toNat.testBit 1 = true
  ack : (buffer (tcpAt buffer + 13)).toNat.testBit 4 = true

theorem ihl_ofMemory : (Iphdr.ofMemory buffer).ihl.toNat * 4 = tcpAt buffer := by
  rw [Iphdr.ofMemory, BitVec.toNat_ofNat, tcpAt, Nat.mul_comm]

theorem saddr_ofMemory {addr : UInt32} :
    (Iphdr.ofMemory buffer).saddr = addr ↔ ofLe (bytesAt buffer 12 4) = addr.toNat := by
  rw [Iphdr.ofMemory, ← UInt32.toNat_inj, uint32At_toNat]

theorem source_ofMemory (i : Nat) :
    (ntohs (Tcphdr.ofMemory fun k => buffer (i + k)).source).toNat = ofBe (bytesAt buffer i 2) := by
  show (ntohs (uint16At _ 0)).toNat = _
  rw [ntohs_uint16At, bytesAt_shift, Nat.add_zero]

theorem dest_ofMemory (i : Nat) :
    (ntohs (Tcphdr.ofMemory fun k => buffer (i + k)).dest).toNat =
      ofBe (bytesAt buffer (i + 2) 2) := by
  show (ntohs (uint16At _ 2)).toNat = _
  rw [ntohs_uint16At, bytesAt_shift]

theorem process_eq_some :
    process buffer length config = some port ↔ Reports buffer length config port := by
  unfold process
  simp only [ihl_ofMemory, source_ofMemory, dest_ofMemory, ne_eq, saddr_ofMemory]
  constructor
  · intro h
    split_ifs at h with hlen haddr hdest hrange hflags
    obtain rfl := Option.some.inj h
    exact ⟨by omega, haddr, hdest, rfl, by omega, hflags.1, hflags.2⟩
  · rintro ⟨hlen, haddr, hdest, hsource, hrange, hsyn, hack⟩
    rw [if_neg (by omega), if_neg (not_not.2 haddr), if_neg (not_not.2 hdest), hsource,
      if_neg (by omega), if_pos ⟨hsyn, hack⟩]

/-! ## Two buffers with the same packet -/

/-- The buffers agree on the first `length` bytes. -/
def SamePacket (length : Int) (buffer' buffer : Memory) : Prop :=
  ∀ i : Nat, (i : Int) < length → buffer' i = buffer i

/-- A packet from the target that ends before the flags of its TCP header. Its ports are those of an
answer, or can be, as far as the packet does not have them. -/
structure Exposed (buffer : Memory) (length : Int) (config : ScanConfig) : Prop where
  enough : 40 ≤ length
  saddr : ofLe (bytesAt buffer 12 4) = config.dest.toNat
  short : length < tcpAt buffer + 14
  ports : ∃ tcp : Memory, (∀ k : Nat, k < 4 → ((tcpAt buffer + k : Nat) : Int) < length →
      buffer (tcpAt buffer + k) = tcp k) ∧
    (config.portStart ≤ ofBe (bytesAt tcp 0 2) ∧ (ofBe (bytesAt tcp 0 2) : Int) ≤ config.portEnd) ∧
    (ofBe (bytesAt tcp 2 2) : Int) = config.srcPort

variable {buffer' : Memory}

theorem SamePacket.symm (h : SamePacket length buffer' buffer) : SamePacket length buffer buffer' :=
  fun i hi => (h i hi).symm

theorem SamePacket.tcpAt_eq (h : SamePacket length buffer' buffer) (hlen : 1 ≤ length) :
    tcpAt buffer' = tcpAt buffer := by
  rw [tcpAt, tcpAt, h 0 (by omega)]

theorem SamePacket.bytesAt_eq (h : SamePacket length buffer' buffer) {i n : Nat}
    (hlen : ((i + n : Nat) : Int) ≤ length) : bytesAt buffer' i n = bytesAt buffer i n :=
  bytesAt_congr fun k hk => h (i + k) (by omega)

theorem Exposed.samePacket (he : Exposed buffer' length config)
    (h : SamePacket length buffer' buffer) : Exposed buffer length config := by
  obtain ⟨hlen, haddr, hshort, tcp, htcp, hports⟩ := he
  rw [h.bytesAt_eq (by omega)] at haddr
  rw [h.tcpAt_eq (by omega)] at hshort htcp
  exact ⟨hlen, haddr, hshort, tcp, fun k hk hkl => (h _ hkl).symm.trans (htcp k hk hkl), hports⟩

/-- A report stays when the buffers agree up to the flags. -/
theorem Reports.of_agree (hr : Reports buffer' length config port) {n : Int}
    (h : SamePacket n buffer' buffer) (haddr : 16 ≤ n) (hflags : tcpAt buffer + 14 ≤ n) :
    Reports buffer length config port := by
  obtain ⟨hlen, hsaddr, hdest, hsource, hrange, hsyn, hack⟩ := hr
  rw [h.tcpAt_eq (by omega)] at hdest hsource hsyn hack
  rw [h.bytesAt_eq (by omega)] at hsaddr hdest hsource
  rw [h (tcpAt buffer + 13) (by omega)] at hsyn hack
  exact ⟨hlen, hsaddr, hdest, hsource, hrange, hsyn, hack⟩

/-- A report for one of the buffers is one for the other, unless the packet is too short. -/
theorem Reports.samePacket (hr : Reports buffer' length config port)
    (h : SamePacket length buffer' buffer) :
    Reports buffer length config port ∨ Exposed buffer length config := by
  have hlen := hr.enough
  by_cases hshort : length < tcpAt buffer + 14
  · right
    obtain ⟨-, haddr, hdest, hsource, hrange, -, -⟩ := hr
    rw [h.tcpAt_eq (by omega)] at hdest hsource
    rw [h.bytesAt_eq (by omega)] at haddr
    refine ⟨hlen, haddr, hshort, fun k => buffer' (tcpAt buffer + k), ?_, ?_, ?_⟩
    · intro k _ hkl
      exact (h _ hkl).symm
    · rw [bytesAt_shift, Nat.add_zero, hsource]
      exact hrange
    · rw [bytesAt_shift, hdest]
  · left
    exact hr.of_agree h (by omega) (by omega)

/-- A packet in a buffer that has the given ports and flags behind its end. -/
def fill (buffer : Memory) (length : Int) (tcp : Memory) (flags : UInt8) : Memory := fun i =>
  if (i : Int) < length then buffer i
  else if i < tcpAt buffer + 4 then tcp (i - tcpAt buffer)
  else flags

theorem samePacket_fill (tcp : Memory) (flags : UInt8) :
    SamePacket length (fill buffer length tcp flags) buffer :=
  fun _ hi => if_pos hi

theorem fill_flags {tcp : Memory} {flags : UInt8} (hshort : length < tcpAt buffer + 14) :
    fill buffer length tcp flags (tcpAt buffer + 13) = flags := by
  rw [fill, if_neg (by omega), if_neg (by omega)]

theorem fill_ports {tcp : Memory} {flags : UInt8}
    (htcp : ∀ k : Nat, k < 4 → ((tcpAt buffer + k : Nat) : Int) < length →
      buffer (tcpAt buffer + k) = tcp k) {i : Nat} (hi : i + 2 ≤ 4) :
    bytesAt (fill buffer length tcp flags) (tcpAt buffer + i) 2 = bytesAt tcp i 2 := by
  rw [← bytesAt_shift]
  refine bytesAt_congr fun k hk => ?_
  have hik : i + k < 4 := by omega
  by_cases hlen : ((tcpAt buffer + (i + k) : Nat) : Int) < length
  · rw [fill, if_pos hlen, htcp (i + k) hik hlen]
  · rw [fill, if_neg hlen, if_pos (by omega), Nat.add_sub_cancel_left]

/-- Behind a packet that is too short the buffer can have an answer, and no answer. -/
theorem Exposed.two_reports (he : Exposed buffer length config) :
    ∃ b b', SamePacket length b buffer ∧ SamePacket length b' buffer ∧
      process b length config ≠ process b' length config := by
  obtain ⟨hlen, haddr, hshort, tcp, htcp, hrange, hdest⟩ := he
  have hfill (flags : UInt8) : SamePacket length (fill buffer length tcp flags) buffer :=
    samePacket_fill tcp flags
  have hanswer : Reports (fill buffer length tcp 0x12) length config (ofBe (bytesAt tcp 0 2)) := by
    have hat := (hfill 0x12).tcpAt_eq (show 1 ≤ length by omega)
    have hports {i : Nat} (hi : i + 2 ≤ 4) :
        bytesAt (fill buffer length tcp 0x12) (tcpAt buffer + i) 2 = bytesAt tcp i 2 :=
      fill_ports htcp hi
    refine ⟨hlen, ?_, ?_, ?_, hrange, ?_, ?_⟩
    · rw [(hfill 0x12).bytesAt_eq (by omega), haddr]
    · rw [hat, hports (by omega), hdest]
    · rw [hat, ← hports (by omega)]
      rfl
    · rw [hat, fill_flags hshort]
      decide
    · rw [hat, fill_flags hshort]
      decide
  have hno : ∀ p, ¬ Reports (fill buffer length tcp 0) length config p := by
    intro p hr
    have hsyn := hr.syn
    rw [(hfill 0).tcpAt_eq (by omega), fill_flags hshort] at hsyn
    exact absurd hsyn (by decide)
  refine ⟨_, _, hfill 0x12, hfill 0, fun heq => ?_⟩
  rw [process_eq_some.2 hanswer] at heq
  exact hno _ (process_eq_some.1 heq.symm)

/-- What is reported depends on the packet alone if and only if the packet is not too short. -/
theorem forall_samePacket_iff :
    (∀ buffer', SamePacket length buffer' buffer →
      process buffer' length config = process buffer length config) ↔
      ¬ Exposed buffer length config := by
  constructor
  · intro h he
    obtain ⟨b, b', hb, hb', hne⟩ := he.two_reports
    exact hne ((h b hb).trans (h b' hb').symm)
  · intro he buffer' hsame
    have he' : ¬ Exposed buffer' length config := fun h => he (h.samePacket hsame)
    refine Option.ext fun p => ?_
    rw [process_eq_some, process_eq_some]
    exact ⟨fun hr => (hr.samePacket hsame).resolve_right he,
      fun hr => (hr.samePacket hsame.symm).resolve_right he'⟩

/-! ## Whole runs -/

/-- A packet that is too short, as `read` delivers it. -/
def ExposedPacket (config : ScanConfig) (packet : List UInt8) : Prop :=
  Exposed (overlay (packet.take size) fun _ => 0) (packet.take size).length config

theorem samePacket_overlay (bs : List UInt8) (m m' : Memory) :
    SamePacket bs.length (overlay bs m) (overlay bs m') := by
  intro i hi
  have hlt : i < bs.length := by omega
  rw [overlay_of_lt hlt, overlay_of_lt hlt]

/-- A packet that is not too short is reported as if it were the first one. -/
theorem process_overlay {packet : List UInt8} (h : ¬ ExposedPacket config packet) (m : Memory) :
    process (overlay (packet.take size) m) (packet.take size).length config =
      process (overlay (packet.take size) fun _ => 0) (packet.take size).length config :=
  forall_samePacket_iff.2 h _ (samePacket_overlay _ _ _)

theorem final_report (r : Option Int) (l : Listener) : (report r).final l = l := by
  cases r <;> rfl

theorem calls_report (r : Option Int) (l l' : Listener) : (report r).calls l = (report r).calls l' := by
  cases r <;> rfl

theorem calls_receive (packet : List UInt8) (l : Listener) :
    (receive config packet).calls l = (report
      (process (overlay (packet.take size) l.buffer) (packet.take size).length config)).calls l := by
  rw [receive, calls_bind, calls_modify, List.nil_append, calls_get_bind, final_modify]
  apply calls_report

theorem final_receive (packet : List UInt8) (l : Listener) :
    (receive config packet).final l = { l with buffer := overlay (packet.take size) l.buffer } := by
  rw [receive, final_bind, final_modify, final_get_bind, final_report]

theorem calls_listen_data (packet : List UInt8) (m : Memory) :
    (listen config (.data packet)).calls ⟨m, true⟩ =
      .read :: (receive config packet).calls ⟨m, true⟩ := by
  rw [listen, calls_get_bind, if_pos rfl, calls_bind]
  rfl

theorem final_listen_data (packet : List UInt8) (m : Memory) :
    (listen config (.data packet)).final ⟨m, true⟩ = ⟨overlay (packet.take size) m, true⟩ := by
  rw [listen, final_get_bind, if_pos rfl, final_bind]
  exact final_receive packet ⟨m, true⟩

/-- An iteration does the same from two buffers, unless it reads a packet that is too short. -/
theorem listen_eq {a : ReadAnswer} (h : ∀ packet, a = .data packet → ¬ ExposedPacket config packet)
    (m m' : Memory) (listening : Bool) :
    (listen config a).calls ⟨m, listening⟩ = (listen config a).calls ⟨m', listening⟩ ∧
      ((listen config a).final ⟨m, listening⟩).listening =
        ((listen config a).final ⟨m', listening⟩).listening := by
  cases listening with
  | false => exact ⟨rfl, rfl⟩
  | true =>
    cases a with
    | data packet =>
      rw [calls_listen_data, calls_listen_data, final_listen_data, final_listen_data, calls_receive,
        calls_receive, process_overlay (h packet rfl) m, process_overlay (h packet rfl) m']
      exact ⟨congrArg _ (calls_report _ _ _), rfl⟩
    | eintr => exact ⟨rfl, rfl⟩
    | error => exact ⟨rfl, rfl⟩

theorem listenSynacks_eq {as : List ReadAnswer}
    (h : ∀ packet, .data packet ∈ as → ¬ ExposedPacket config packet) (m m' : Memory)
    (listening : Bool) :
    (listenSynacks config as).calls ⟨m, listening⟩ =
      (listenSynacks config as).calls ⟨m', listening⟩ := by
  induction as generalizing m m' listening with
  | nil => rfl
  | cons a as ih =>
    obtain ⟨hcalls, hlistening⟩ := listen_eq
      (fun packet ha => h packet (ha ▸ List.mem_cons_self)) m m' listening
    rw [calls_forEach_cons, calls_forEach_cons, hcalls]
    have hrest := ih (fun packet hp => h packet (List.mem_cons_of_mem _ hp))
      ((listen config a).final ⟨m, listening⟩).buffer
      ((listen config a).final ⟨m', listening⟩).buffer
      ((listen config a).final ⟨m, listening⟩).listening
    nth_rewrite 2 [hlistening] at hrest
    exact congrArg _ hrest

/-- What `process` reports depends on nothing but the packet if and only if the packet is not too short;
and a listener that reads no such packet prints the same whatever was in its buffer. -/
theorem report_depends_on_packet_iff (config : ScanConfig) :
    (∀ length buffer,
      (∀ buffer', SamePacket length buffer' buffer →
        process buffer' length config = process buffer length config) ↔
        ¬ Exposed buffer length config) ∧
    ∀ as : List ReadAnswer, (∀ packet, .data packet ∈ as → ¬ ExposedPacket config packet) →
      ∀ m m', (listenSynacks config as).calls ⟨m, true⟩ = (listenSynacks config as).calls ⟨m', true⟩ :=
  ⟨fun _ _ => forall_samePacket_iff, fun _ h m m' => listenSynacks_eq h m m' true⟩

/-- A packet of 50 bytes from `10.0.0.9`. -/
def foreign : List UInt8 :=
  [0x45, 0, 0, 50, 0, 0, 0, 0, 64, 6, 0x66, 0xBC, 10, 0, 0, 9, 10, 0, 0, 2] ++ List.replicate 30 0x12

/-- A packet of 40 bytes from `10.0.0.5` with an IP header of 36 bytes: the ports 80 and 45677 are all
that it has of a TCP header. -/
def truncated : List UInt8 :=
  [0x49, 0, 0, 40, 0, 0, 0, 0, 64, 6, 0x62, 0xCA, 10, 0, 0, 5, 10, 0, 0, 2] ++ List.replicate 16 0 ++
    [0, 80, 0xB2, 0x6D]

/-- The flags behind the packet make a difference, and an earlier packet from elsewhere leaves them
there. -/
theorem stale_flags_reported :
    (¬ ∀ (config : ScanConfig) (length : Int) (buffer buffer' : Memory),
      SamePacket length buffer' buffer →
        process buffer' length config = process buffer length config) ∧
    (listenSynacks lowPorts [.data foreign, .data truncated]).calls ⟨fun _ => 0, true⟩ =
      [.read, .read, .stdout "Port 80 open (syn-ack received)\n"] := by
  refine ⟨fun h => ?_, by decide⟩
  have hsame := h lowPorts 40 (overlay truncated fun _ => 0) (overlay truncated fun _ => 0x12)
    (samePacket_overlay truncated _ _)
  exact absurd hsame (by decide)

end SystemsProgramming.PortScanner
