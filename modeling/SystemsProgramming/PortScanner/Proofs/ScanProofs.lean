import SystemsProgramming.PortScanner.System

/-!
# Proofs: what a scan finds

A port is printed only if it is one of the range and listens, whatever the network does with the packets
and whatever else arrives that is not in the name of the target. If no answer is lost, all of them are
printed.
-/

namespace SystemsProgramming.PortScanner

open Foundations Prog

variable {e : Setting} {evs : List Event} {config : ScanConfig} {port : Int}
  {raw probe reply daddr : List UInt8}

/-! ## Long packets

`read` takes no more than `size` bytes of a packet. Both headers lie within them. -/

theorem field_take {i n k : Nat} (h : i + n ≤ k) (bs : List UInt8) :
    field i n (bs.take k) = field i n bs := by
  rw [field, field, List.drop_take, List.take_take, Nat.min_eq_left (by omega)]

theorem headerLength_take (raw : List UInt8) :
    Packet.headerLength (raw.take size) = Packet.headerLength raw := by
  rw [Packet.headerLength, Packet.headerLength, field_take (by decide)]

theorem headerLength_le (raw : List UInt8) : Packet.headerLength raw ≤ 60 := by
  unfold Packet.headerLength
  omega

theorem source_take (raw : List UInt8) : Packet.source (raw.take size) = Packet.source raw := by
  rw [Packet.source, Packet.source, List.drop_take, List.take_take]
  rfl

/-- A field of the TCP header. -/
theorem field_segment_take {i n : Nat} (h : i + n ≤ 20) (raw : List UInt8) :
    field i n (Packet.segment (raw.take size)) = field i n (Packet.segment raw) := by
  have hle := headerLength_le raw
  rw [Packet.segment, Packet.segment, headerLength_take, field_drop, field_drop,
    field_take (show Packet.headerLength raw + i + n ≤ size by unfold size; omega)]

theorem Packet.WellFormed.take (h : Packet.WellFormed raw) :
    Packet.WellFormed (raw.take size) := by
  obtain ⟨hversion, hmin, hlen⟩ := h
  have hle := headerLength_le raw
  refine ⟨?_, ?_, ?_⟩
  · rw [Packet.version, field_take (by decide)]
    exact hversion
  · rwa [headerLength_take]
  · rw [headerLength_take, List.length_take]
    unfold size
    omega

theorem Answers.take (h : Answers probe reply) : Answers probe (reply.take size) where
  wellFormed := h.wellFormed.take
  packet_source := (source_take reply).trans h.packet_source
  source := (field_segment_take (by decide) reply).trans h.source
  dest := (field_segment_take (by decide) reply).trans h.dest

theorem syn_take (raw : List UInt8) :
    Segment.syn (Packet.segment (raw.take size)) = Segment.syn (Packet.segment raw) := by
  rw [Segment.syn, Segment.control, field_segment_take (by decide)]
  rfl

theorem ack_take (raw : List UInt8) :
    Segment.ack (Packet.segment (raw.take size)) = Segment.ack (Packet.segment raw) := by
  rw [Segment.ack, Segment.control, field_segment_take (by decide)]
  rfl

theorem Foreign.take (h : Foreign config daddr raw) : Foreign config daddr (raw.take size) := by
  unfold Foreign Segment.dest Segment.source at h ⊢
  rwa [source_take, field_segment_take (by decide), field_segment_take (by decide)]

/-! ## The listening thread -/

theorem calls_report_some (port : Int) (l : Listener) :
    (report (some port)).calls l = [.stdout (openLine port)] := rfl

/-- A line is printed for a packet that `process` takes for an answer, whatever the buffer held. -/
theorem stdout_mem_listenSynacks {as : List ReadAnswer} {l : Listener} {line : String}
    (h : .stdout line ∈ (listenSynacks config as).calls l) :
    ∃ raw m port, .data raw ∈ as ∧ line = openLine port ∧
      process (overlay (raw.take size) m) (raw.take size).length config = some port := by
  induction as generalizing l with
  | nil => cases h
  | cons a as ih =>
    rw [calls_forEach_cons, List.mem_append] at h
    rcases h with h | h
    · obtain ⟨m, listening⟩ := l
      cases listening with
      | false => cases h
      | true =>
        cases a with
        | data raw =>
          rw [calls_listen_data, calls_receive] at h
          cases hp : process (overlay (raw.take size) m) (raw.take size).length config with
          | none =>
            rw [hp] at h
            simp [report] at h
          | some port =>
            rw [hp, calls_report_some] at h
            exact ⟨raw, m, port, List.mem_cons_self, by simpa using h, hp⟩
        | eintr => simp [listen] at h
        | error => simp [listen] at h
    · obtain ⟨raw, m, port, hmem, hrest⟩ := ih h
      exact ⟨raw, m, port, List.mem_cons_of_mem _ hmem, hrest⟩

/-- While no `read` fails, every raw that is an answer is printed. -/
theorem stdout_of_answer {as : List ReadAnswer} (herror : .error ∉ as) (hmem : .data raw ∈ as)
    (hprocess : ∀ m,
      process (overlay (raw.take size) m) (raw.take size).length config = some port) (m : Memory) :
    .stdout (openLine port) ∈ (listenSynacks config as).calls ⟨m, true⟩ := by
  induction as generalizing m with
  | nil => cases hmem
  | cons a as ih =>
    rw [List.mem_cons, not_or] at herror
    rw [calls_forEach_cons, List.mem_append]
    rcases List.mem_cons.1 hmem with rfl | hrest
    · left
      rw [calls_listen_data, calls_receive, hprocess m, calls_report_some]
      simp
    · right
      cases a with
      | data other =>
        rw [final_listen_data]
        exact ih herror.2 hrest _
      | eintr => exact ih herror.2 hrest m
      | error => exact absurd rfl herror.1

/-! ## The sending thread -/

theorem mem_calls_forEach {κ ι : Type} {body : ι → Prog Unit κ Unit} {is : List ι} {i : ι} {c : κ}
    (hi : i ∈ is) (hc : c ∈ (body i).calls ()) : c ∈ (forEach body is).calls () := by
  induction is with
  | nil => cases hi
  | cons j is ih =>
    rw [calls_forEach_cons, List.mem_append]
    rcases List.mem_cons.1 hi with rfl | hrest
    · exact Or.inl hc
    · exact Or.inr (ih hrest)

/-- Where the raw socket can be had, a probe is sent. -/
theorem sendto_mem_sendSyns (inetAddr : CStr → UInt32) (answers : Int → SynAnswers)
    (hport : config.portStart ≤ port ∧ port ≤ config.portEnd) (hsocket : (answers port).socket = true)
    (hsetsockopt : (answers port).setsockopt = true) :
    .sendto (packet inetAddr config port (answers port).id (answers port).seq) config.dest
      (htons (UInt16.ofInt port)) ∈ (sendSyns inetAddr config answers).calls () := by
  refine mem_calls_forEach (mem_ports.2 hport) ?_
  simp [synScan, hsocket, hsetsockopt]

/-! ## The packets of a run -/

/-- What the listening thread reads, somebody has sent. -/
theorem Run.read_sent (hrun : Run e evs) (hmem : .listen (.data raw) ∈ evs) :
    (∃ probe, .target probe raw ∈ evs) ∨ .other raw ∈ evs := by
  obtain ⟨k, hk⟩ := List.mem_iff_getElem?.1 hmem
  exact (hrun.listen k raw hk).imp (fun ⟨probe, h⟩ => ⟨probe, List.mem_of_mem_take h⟩)
    List.mem_of_mem_take

/-- What the target answers, `main` has sent. -/
theorem Run.answered_probe (hrun : Run e evs) (hvalid : e.config.Valid)
    (hmem : .target probe reply ∈ evs) :
    Reply e.listening probe reply ∧ ∃ port, (e.config.portStart ≤ port ∧ port ≤ e.config.portEnd) ∧
      IsSyn probe (toLe 4 (e.inetAddr e.config.srcIp).toNat) e.daddr e.config.srcPort port := by
  obtain ⟨k, hk⟩ := List.mem_iff_getElem?.1 hmem
  obtain ⟨⟨addr, p, hsent⟩, -, hreply⟩ := hrun.target k probe reply hk
  refine ⟨hreply, ?_⟩
  have hcall : .sendto probe addr p ∈ evs.filterMap Event.mainCall :=
    List.mem_filterMap.2 ⟨_, List.mem_of_mem_take hsent, rfl⟩
  obtain ⟨rfl, port, hport, -, hprobe⟩ :=
    allCalls_sendSyns hvalid e.answers () _ (hrun.main.subset hcall) probe addr p rfl
  exact ⟨port, hport, hprobe⟩

/-- What `process` makes of an answer of the target. -/
theorem Reply.process_eq (h : Reply e.listening probe reply)
    (hprobe : IsSyn probe daddr e.daddr e.config.srcPort port)
    (hport : e.config.portStart ≤ port ∧ port ≤ e.config.portEnd) (m : Memory) :
    process (overlay (reply.take size) m) (reply.take size).length e.config =
      if e.listening port.toNat then some port else none := by
  have hdest : Segment.dest (Packet.segment probe) = port.toNat := by
    have hd := hprobe.dest
    omega
  rw [process_answer m hprobe hport h.toAnswers.take, syn_take, ack_take, h.syn, h.ack, hdest]
  simp

/-! ## A run -/

/-- A scan of the ports 80 and 81 of `10.0.0.5`, where port 80 listens. -/
def twoPorts : Setting where
  config := { lowPorts with portStart := 80, portEnd := 81 }
  inetAddr _ := 0x0200000A
  answers _ := ⟨true, true, 1804289383, 846930886, true⟩
  listening port := port == 80
  stack _ := 0

/-- A probe of `twoPorts`. -/
def probeOf (port : Int) : List UInt8 :=
  packet twoPorts.inetAddr twoPorts.config port 1804289383 846930886

/-- The calls for one port. -/
def probing (port : Int) : List Event :=
  [.socket, .setsockopt, .sendto (probeOf port) twoPorts.config.dest (htons (UInt16.ofInt port)),
    .close].map .main

/-- The answer from port 80 arrives, behind a packet from elsewhere. Port 81 does not answer. -/
def scanned : List Event :=
  probing 80 ++ [.target (probeOf 80) synAck, .other foreign, .listen (.data foreign)] ++ probing 81 ++
    [.listen (.data synAck)]

theorem twoPorts_valid : twoPorts.config.Valid := ⟨by decide, by decide, by decide, by decide⟩

theorem scanned_run : Run twoPorts scanned where
  main := by decide
  target k probe reply h := by
    have hmem := List.mem_of_getElem? h
    have hk : 3 ≤ k := by
      by_contra hlt
      have hcases : k = 0 ∨ k = 1 ∨ k = 2 := by omega
      rcases hcases with rfl | rfl | rfl <;> simp [scanned, probing] at h
    have hsent : .main (.sendto (probeOf 80) twoPorts.config.dest (htons (UInt16.ofInt 80))) ∈
        scanned.take k := by
      refine List.IsPrefix.mem ?_ (List.take_prefix_take_left hk)
      simp [scanned, probing]
    obtain ⟨rfl, rfl⟩ : probe = probeOf 80 ∧ reply = synAck := by
      simpa [scanned, probing] using hmem
    have hprobe : IsSyn (probeOf 80) _ twoPorts.daddr _ 80 :=
      isSyn_packet _ _ _ twoPorts_valid.srcPort ⟨by decide, by decide⟩
    exact ⟨⟨_, _, hsent⟩, ⟨hprobe.packet_dest, hprobe.control, hprobe.verifies⟩,
      ⟨⟨⟨by decide, by decide, by decide⟩, by decide, by decide, by decide⟩, by decide, by decide⟩⟩
  listen k raw h := by
    have hmem := List.mem_of_getElem? h
    have hk : 6 ≤ k := by
      by_contra hlt
      have hcases : k = 0 ∨ k = 1 ∨ k = 2 ∨ k = 3 ∨ k = 4 ∨ k = 5 := by omega
      rcases hcases with rfl | rfl | rfl | rfl | rfl | rfl <;> simp [scanned, probing] at h
    have hpre : scanned.take 6 <+: scanned.take k := List.take_prefix_take_left hk
    have hraw : raw = foreign ∨ raw = synAck := by simpa [scanned, probing] using hmem
    rcases hraw with rfl | rfl
    · exact Or.inr (hpre.mem (by simp [scanned, probing]))
    · exact Or.inl ⟨probeOf 80, hpre.mem (by simp [scanned, probing])⟩

/-- The packet from elsewhere bears another address. -/
theorem scanned_noForgery : NoForgery twoPorts scanned := by
  intro raw hmem
  obtain rfl : raw = foreign := by simpa [scanned, probing] using hmem
  exact fun hforged => absurd hforged.1 (by decide)

/-! ## Whole runs -/

/-- A line is printed for a packet that has been read. -/
theorem read_of_line {line : String} (h : .stdout line ∈ e.output evs) :
    ∃ raw m port, .listen (.data raw) ∈ evs ∧ line = openLine port ∧
      process (overlay (raw.take size) m) (raw.take size).length e.config = some port := by
  obtain ⟨raw, m, port, hmem, hline, hprocess⟩ := stdout_mem_listenSynacks h
  obtain ⟨ev, hev, hread⟩ := List.mem_filterMap.1 hmem
  obtain rfl : ev = .listen (.data raw) := by
    cases ev <;> simp_all [Event.readAnswer]
  exact ⟨raw, m, port, hev, hline, hprocess⟩

/-- What others send is not reported. -/
theorem NoForgery.process_eq_none (hothers : NoForgery e evs) (hmem : .other raw ∈ evs) (m : Memory) :
    process (overlay (raw.take size) m) (raw.take size).length e.config = none := by
  by_cases haddr : Packet.source raw = e.daddr
  · have hforged := hothers raw hmem
    rw [Setting.Forged, not_and, Classical.not_imp, not_not] at hforged
    obtain ⟨hwf, hforeign⟩ := hforged haddr
    exact process_foreign m hwf.take hforeign.take
  · exact process_elsewhere m ((source_take raw).trans_ne haddr)

/-- What is reported is a reply of the target to a probe of this scan. -/
theorem Run.reported_open (hrun : Run e evs) (hvalid : e.config.Valid) (hothers : NoForgery e evs)
    {m : Memory} (hmem : .listen (.data raw) ∈ evs)
    (hprocess : process (overlay (raw.take size) m) (raw.take size).length e.config = some port) :
    (e.config.portStart ≤ port ∧ port ≤ e.config.portEnd) ∧ e.listening port.toNat = true := by
  rcases hrun.read_sent hmem with ⟨probe, htarget⟩ | hother
  · obtain ⟨hreply, port', hport', hprobe⟩ := hrun.answered_probe hvalid htarget
    rw [hreply.process_eq hprobe hport' m, Option.ite_none_right_eq_some, Option.some.injEq] at hprocess
    obtain ⟨hlistening, rfl⟩ := hprocess
    exact ⟨hport', hlistening⟩
  · rw [hothers.process_eq_none hother m] at hprocess
    cases hprocess

/-- In every run, whatever is lost, delayed or repeated, whatever others send that is not forged, and
whatever the buffer held: each line that is printed names a port of the range on which the target
listens. -/
theorem scan_sound (hvalid : e.config.Valid) (hrun : Run e evs) (hothers : NoForgery e evs)
    {line : String} (h : .stdout line ∈ e.output evs) :
    ∃ port, (e.config.portStart ≤ port ∧ port ≤ e.config.portEnd) ∧ e.listening port.toNat = true ∧
      line = openLine port := by
  obtain ⟨raw, m, port, hmem, hline, hprocess⟩ := read_of_line h
  obtain ⟨hport, hlistening⟩ := hrun.reported_open hvalid hothers hmem hprocess
  exact ⟨port, hport, hlistening, hline⟩

/-- Port 80 is found, and it listens. -/
theorem http_port_found : .stdout (openLine 80) ∈ twoPorts.output scanned ∧
    ∃ port, ((80 : Int) ≤ port ∧ port ≤ 81) ∧ twoPorts.listening port.toNat = true ∧
      openLine 80 = openLine port :=
  ⟨by decide, scan_sound twoPorts_valid scanned_run scanned_noForgery (by decide)⟩

/-- A scan is exact where nothing is lost or forged: when all probes are sent, and every request for a port
that listens is answered and the answer read, the lines that are printed are those of the ports of the
range on which the target listens. -/
theorem scan_exact (hvalid : e.config.Valid) (hrun : Run e evs) (hothers : NoForgery e evs)
    (hmain : evs.filterMap Event.mainCall = e.mainTrace)
    (hsend : ∀ port, e.config.portStart ≤ port ∧ port ≤ e.config.portEnd →
      (e.answers port).socket = true ∧ (e.answers port).setsockopt = true)
    (hread : .listen .error ∉ evs)
    (hanswer : ∀ probe addr p, .main (.sendto probe addr p) ∈ evs → Request e.daddr probe →
      e.listening (Segment.dest (Packet.segment probe)) = true →
      ∃ reply, .target probe reply ∈ evs ∧ .listen (.data reply) ∈ evs) (line : String) :
    .stdout line ∈ e.output evs ↔
      ∃ port, (e.config.portStart ≤ port ∧ port ≤ e.config.portEnd) ∧
        e.listening port.toNat = true ∧ line = openLine port := by
  constructor
  · intro h
    obtain ⟨raw, m, port, hmem, hline, hprocess⟩ := read_of_line h
    obtain ⟨hport, hlistening⟩ := hrun.reported_open hvalid hothers hmem hprocess
    exact ⟨port, hport, hlistening, hline⟩
  rintro ⟨port, hport, hlistening, rfl⟩
  obtain ⟨hsocket, hsetsockopt⟩ := hsend port hport
  have hsent := sendto_mem_sendSyns e.inetAddr e.answers hport hsocket hsetsockopt
  have hprobe := isSyn_packet e.inetAddr (e.answers port).id (e.answers port).seq hvalid.srcPort
    (hvalid.port_bounds hport)
  generalize packet e.inetAddr e.config port (e.answers port).id (e.answers port).seq = probe
    at hsent hprobe
  have hmem : .main (.sendto probe e.config.dest (htons (UInt16.ofInt port))) ∈ evs := by
    have htrace : (sendSyns e.inetAddr e.config e.answers).calls () = evs.filterMap Event.mainCall :=
      hmain.symm
    rw [htrace] at hsent
    obtain ⟨ev, hev, hcall⟩ := List.mem_filterMap.1 hsent
    cases ev <;> simp_all [Event.mainCall]
  have hdest : Segment.dest (Packet.segment probe) = port.toNat := by
    have hd := hprobe.dest
    omega
  obtain ⟨reply, htarget, hlisten⟩ := hanswer probe _ _ hmem
    ⟨hprobe.packet_dest, hprobe.control, hprobe.verifies⟩ (hdest ▸ hlistening)
  have hreply := (hrun.answered_probe hvalid htarget).1
  refine stdout_of_answer (fun hmem => ?_) (List.mem_filterMap.2 ⟨_, hlisten, rfl⟩) (fun m => ?_) e.stack
  · obtain ⟨ev, hev, herror⟩ := List.mem_filterMap.1 hmem
    cases ev <;> simp_all [Event.readAnswer]
  · rw [hreply.process_eq hprobe hport m, if_pos hlistening]

/-- The scan of the two ports is one that loses nothing. -/
theorem open_port_not_missed : .stdout (openLine 80) ∈ twoPorts.output scanned := by
  refine (scan_exact twoPorts_valid scanned_run scanned_noForgery (by decide) (fun _ _ => ⟨rfl, rfl⟩)
    (by simp [scanned, probing]) (fun probe addr p hmem _ hlistening => ?_) (openLine 80)).2
    ⟨80, by decide, by decide, rfl⟩
  have hcases : probe = probeOf 80 ∨ probe = probeOf 81 := by
    simp only [scanned, probing, List.map_cons, List.map_nil, List.cons_append, List.nil_append,
      List.mem_cons, Event.main.injEq, Call.sendto.injEq, reduceCtorEq, List.not_mem_nil, or_false,
      false_or] at hmem
    exact hmem.imp And.left And.left
  rcases hcases with rfl | rfl
  · exact ⟨synAck, by simp [scanned, probing], by simp [scanned, probing]⟩
  · exact absurd hlistening (by decide)

end SystemsProgramming.PortScanner
