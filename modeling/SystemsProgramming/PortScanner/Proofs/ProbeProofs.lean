import SystemsProgramming.PortScanner.Proofs.ChecksumProofs
import SystemsProgramming.PortScanner.Segment

/-!
# Proofs: the probes

The program sums the words of the pseudo header and the segment as the machine reads them, and stores
the checksum as the machine writes it. What the target sums up are the words in network order.
-/

namespace SystemsProgramming.PortScanner

open Foundations OnesComplement Prog

/-! ## The segment -/

theorem segment_source (tcph : Tcphdr) :
    Segment.source tcph.bytes = ofBe (toLe 2 tcph.source.toNat) := rfl

theorem segment_dest (tcph : Tcphdr) :
    Segment.dest tcph.bytes = ofBe (toLe 2 tcph.dest.toNat) := rfl

theorem segment_dataOffset (tcph : Tcphdr) :
    Segment.dataOffset tcph.bytes = tcph.doff.toNat := by
  have hres := tcph.res1.isLt
  have hdoff := tcph.doff.isLt
  have hbyte : field 12 1 tcph.bytes = (UInt8.ofNat (tcph.res1.toNat + 16 * tcph.doff.toNat)).toNat :=
    rfl
  rw [Segment.dataOffset, hbyte, UInt8.toNat_ofNat']
  omega

theorem segment_control (tcph : Tcphdr) : Segment.control tcph.bytes = tcph.flags := by
  have hbyte : field 13 1 tcph.bytes = (UInt8.ofNat tcph.flags).toNat := rfl
  rw [Segment.control, hbyte, UInt8.toNat_ofNat_of_lt' tcph.flags_lt]

theorem bytes_check (tcph : Tcphdr) (check : UInt16) :
    Tcphdr.bytes { tcph with check := check } =
      tcph.bytes.take 16 ++ toLe 2 check.toNat ++ tcph.bytes.drop 18 := rfl

/-- What `htons` makes of a port is that port in network order. -/
theorem ofBe_htons {port : Int} (h : 0 ≤ port ∧ port ≤ 65535) :
    (ofBe (toLe 2 (htons (UInt16.ofInt port)).toNat) : Int) = port := by
  have hport : (UInt16.ofInt port).toNat = port.toNat := by
    rw [UInt16.ofInt, UInt16.toNat_ofNat']
    omega
  rw [toLe_htons, ofBe_toBe, hport]
  omega

theorem tcpChecksum_eq (tcph : Tcphdr) (iph : Iphdr) :
    tcpChecksum tcph iph =
      checksum (Segment.pseudoHeader (toLe 4 iph.saddr.toNat) (toLe 4 iph.daddr.toNat) 20 ++
        tcph.bytes) := by
  rw [tcpChecksum, PseudoHeader.bytes, toLe_htons]
  rfl

/-- A header with the checksum that `tcp_checksum` computes for it verifies. -/
theorem verifies_tcpChecksum {tcph : Tcphdr} (iph : Iphdr) (h : tcph.check = 0) :
    Segment.Verifies (Tcphdr.bytes { tcph with check := tcpChecksum tcph iph })
      (toLe 4 iph.saddr.toNat) (toLe 4 iph.daddr.toNat) := by
  have hbytes : tcph.bytes = tcph.bytes.take 16 ++ toLe 2 0 ++ tcph.bytes.drop 18 := by
    calc tcph.bytes = tcph.bytes.take 16 ++ toLe 2 tcph.check.toNat ++ tcph.bytes.drop 18 :=
          bytes_check tcph tcph.check
      _ = tcph.bytes.take 16 ++ toLe 2 0 ++ tcph.bytes.drop 18 := by rw [h, UInt16.toNat_zero]
  have hlen := tcph.bytes_length
  rw [Segment.Verifies, Tcphdr.bytes_length, bytes_check, tcpChecksum_eq]
  generalize hpseudo : Segment.pseudoHeader (toLe 4 iph.saddr.toNat) (toLe 4 iph.daddr.toNat) 20 =
    pseudo
  have hpseudo_len : pseudo.length = 12 := by simp [← hpseudo, Segment.pseudoHeader]
  have hdata : pseudo ++ tcph.bytes =
      pseudo ++ tcph.bytes.take 16 ++ toLe 2 0 ++ tcph.bytes.drop 18 := by
    simpa only [List.append_assoc] using congrArg (pseudo ++ ·) hbytes
  have heven : (pseudo ++ tcph.bytes.take 16).length % 2 = 0 := by simp [hpseudo_len, hlen]
  have hshort : (pseudo ++ tcph.bytes.take 16 ++ toLe 2 0 ++ tcph.bytes.drop 18).length ≤ 131074 := by
    simp [hpseudo_len, hlen]
  have hsum := sum_beWords_with_checksum heven hshort
  rw [hdata]
  simpa only [List.append_assoc] using hsum

/-! ## The packet -/

section Packet

variable (inetAddr : CStr → UInt32) (config : ScanConfig) (port id seq : Int)

/-- The TCP header of a probe. -/
def probeTcph : Tcphdr :=
  buildTcph (Tcphdr.ofMemory fun _ => 0) (buildIph inetAddr config id) config port seq

theorem headerLength_packet : Packet.headerLength (packet inetAddr config port id seq) = 20 := by
  have hbyte : field 0 1 (packet inetAddr config port id seq) = (UInt8.ofNat (5 + 16 * 4)).toNat :=
    rfl
  rw [Packet.headerLength, hbyte]
  rfl

theorem segment_packet : Packet.segment (packet inetAddr config port id seq) =
    (probeTcph inetAddr config port id seq).bytes := by
  rw [Packet.segment, headerLength_packet]
  exact List.drop_left' (Iphdr.bytes_length _)

theorem packet_length : (packet inetAddr config port id seq).length = 40 := by
  show ((buildIph inetAddr config id).bytes ++ (probeTcph inetAddr config port id seq).bytes).length = 40
  rw [List.length_append, Iphdr.bytes_length, Tcphdr.bytes_length]

variable {config port}

theorem isSyn_packet (hsrc : 0 ≤ config.srcPort ∧ config.srcPort ≤ 65535)
    (hport : 0 ≤ port ∧ port ≤ 65535) :
    IsSyn (packet inetAddr config port id seq) (toLe 4 (inetAddr config.srcIp).toNat)
      (toLe 4 config.dest.toNat) config.srcPort port where
  length := packet_length inetAddr config port id seq
  headerLength := headerLength_packet inetAddr config port id seq
  packet_source := rfl
  packet_dest := rfl
  source := by
    rw [segment_packet, segment_source]
    exact ofBe_htons hsrc
  dest := by
    rw [segment_packet, segment_dest]
    exact ofBe_htons hport
  dataOffset := by
    rw [segment_packet, segment_dataOffset]
    rfl
  control := by
    rw [segment_packet, segment_control]
    rfl
  verifies := by
    rw [segment_packet]
    exact verifies_tcpChecksum (buildIph inetAddr config id) rfl

/-- Every packet built for a port from `SOURCE_PORT` is a SYN segment that its target accepts. -/
theorem packet_acceptable (hconfig : config.srcPort = sourcePort)
    (hport : 1 ≤ port ∧ port ≤ 65535) :
    IsSyn (packet inetAddr config port id seq) (toLe 4 (inetAddr config.srcIp).toNat)
      (toLe 4 config.dest.toNat) 45677 port := by
  have hsrc : 0 ≤ config.srcPort ∧ config.srcPort ≤ 65535 := by
    rw [hconfig]
    decide
  have h := isSyn_packet inetAddr id seq hsrc ⟨by omega, hport.2⟩
  rwa [hconfig] at h

/-- A scan of the ports up to 1024 of `10.0.0.5`. -/
def lowPorts : ScanConfig where
  srcIp := ⟨ascii "10.0.0.2", by decide⟩
  srcPort := sourcePort
  portStart := 1
  portEnd := 1024
  dest := 0x0500000A

theorem http_probe_acceptable :
    IsSyn (packet (fun _ => 0x0200000A) lowPorts 80 1804289383 846930886) (toLe 4 0x0200000A)
      (toLe 4 0x0500000A) 45677 80 :=
  packet_acceptable (fun _ => 0x0200000A) 1804289383 846930886 rfl ⟨by decide, by decide⟩

end Packet

/-! ## The scan -/

section Scan

variable {inetAddr : CStr → UInt32} {atoi : CStr → Int} {argv : List CStr}
  {localIpget : Except String CStr} {config : ScanConfig}

/-- What `main` has checked and set when it starts to scan. -/
theorem configure_eq_ok (h : configure inetAddr atoi argv localIpget = .ok config) :
    config.Valid ∧ config.srcPort = sourcePort := by
  unfold configure at h
  split at h
  · rename_i target portStart portEnd rest
    split_ifs at h with hinet hrange
    have hstart : 1 ≤ atoi portStart := by omega
    have hle : atoi portStart ≤ atoi portEnd := by omega
    have hend : atoi portEnd ≤ 65535 := by omega
    cases hip : localIpget with
    | error text =>
      rw [hip] at h
      cases h
    | ok srcIp =>
      rw [hip] at h
      obtain rfl := Except.ok.inj h
      have hsrc : 0 ≤ sourcePort ∧ sourcePort ≤ 65535 := by decide
      exact ⟨⟨hstart, hle, hend, hsrc⟩, rfl⟩
  · cases h

theorem ScanConfig.Valid.port_bounds (h : config.Valid) {port : Int}
    (hport : config.portStart ≤ port ∧ port ≤ config.portEnd) : 0 ≤ port ∧ port ≤ 65535 := by
  have h1 := h.one_le_start
  have h2 := h.end_le
  omega

theorem mem_ports {i : Int} : i ∈ ports config ↔ config.portStart ≤ i ∧ i ≤ config.portEnd := by
  rw [ports, List.mem_map]
  constructor
  · rintro ⟨k, hk, rfl⟩
    rw [List.mem_range] at hk
    omega
  · intro h
    refine ⟨(i - config.portStart).toNat, List.mem_range.2 ?_, ?_⟩ <;> omega

/-- A call that, if it sends something, sends a SYN segment for a port of the range to its target. -/
def SendsSyn (inetAddr : CStr → UInt32) (config : ScanConfig) (c : Call) : Prop :=
  ∀ p addr dest, c = .sendto p addr dest → addr = config.dest ∧
    ∃ port, (config.portStart ≤ port ∧ port ≤ config.portEnd) ∧ dest = htons (UInt16.ofInt port) ∧
      IsSyn p (toLe 4 (inetAddr config.srcIp).toNat) (toLe 4 addr.toNat) config.srcPort port

theorem allCalls_synScan (hvalid : config.Valid) {port : Int}
    (hport : config.portStart ≤ port ∧ port ≤ config.portEnd) (a : SynAnswers) :
    AllCalls (SendsSyn inetAddr config) (synScan inetAddr config port a) := by
  have hquiet {c : Call} (h : ∀ p addr dest, c ≠ .sendto p addr dest) :
      SendsSyn inetAddr config c := fun p addr dest hc => absurd hc (h p addr dest)
  have hsyn : SendsSyn inetAddr config
      (.sendto (packet inetAddr config port a.id a.seq) config.dest (htons (UInt16.ofInt port))) := by
    rintro p addr dest ⟨⟩
    exact ⟨rfl, port, hport, rfl,
      isSyn_packet inetAddr a.id a.seq hvalid.srcPort (hvalid.port_bounds hport)⟩
  refine .bind (.call (hquiet nofun)) fun _ => .ite ?_ ?_
  · refine .bind (.call (hquiet nofun)) fun _ => .ite ?_ ?_
    · exact .bind (.call hsyn) fun _ => .bind (.call (hquiet nofun)) fun _ => .pure _
    · exact .bind (.call (hquiet nofun)) fun _ => .bind (.call (hquiet nofun)) fun _ => .pure _
  · exact .bind (.call (hquiet nofun)) fun _ => .pure _

/-- In every scan, whatever the outside answers, nothing is sent but SYN segments for ports of the range
to the target. -/
theorem allCalls_sendSyns (hvalid : config.Valid) (answers : Int → SynAnswers) :
    AllCalls (SendsSyn inetAddr config) (sendSyns inetAddr config answers) :=
  .forEach_mem fun _ hi => .bind (allCalls_synScan hvalid (mem_ports.1 hi) _) fun _ =>
    .ite (.call nofun) (.pure ())

end Scan

end SystemsProgramming.PortScanner
