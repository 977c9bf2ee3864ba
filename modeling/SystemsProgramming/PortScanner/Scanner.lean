import SystemsProgramming.Foundations.CString
import SystemsProgramming.Foundations.Prog
import SystemsProgramming.PortScanner.Headers

/-!
# The port scanner (`port-scanner/main.c`)

`main` sends a SYN segment built by hand to every port of a range. Meanwhile a thread reads what a raw
socket receives, always into the same buffer, and prints the ports that have answered with a SYN-ACK.

The numbers that `inet_addr` and `atoi` make of a text are parameters. The machine is little-endian.
-/

namespace SystemsProgramming.PortScanner

open Foundations Prog

/-- `SIZE` -/
def size : Nat := 4096

/-- `SOURCE_PORT` -/
def sourcePort : Int := 45677

/-- `WINDOW_SIZE` -/
def windowSize : UInt16 := 65535

/-- `INADDR_NONE` of `netinet/in.h` -/
def INADDR_NONE : UInt32 := 0xFFFFFFFF

/-- `IPPROTO_TCP` of `netinet/in.h` -/
def IPPROTO_TCP : UInt8 := 6

/-- `scan_config` -/
structure ScanConfig where
  srcIp : CStr
  srcPort : Int
  portStart : Int
  portEnd : Int
  dest : UInt32

/-- What holds of every `config` that `main` scans with. -/
structure ScanConfig.Valid (config : ScanConfig) : Prop where
  one_le_start : 1 ≤ config.portStart
  start_le_end : config.portStart ≤ config.portEnd
  end_le : config.portEnd ≤ 65535
  srcPort : 0 ≤ config.srcPort ∧ config.srcPort ≤ 65535

/-- The calls that the program makes. -/
inductive Call where
  | socket
  | setsockopt
  | sendto (packet : List UInt8) (addr : UInt32) (port : UInt16)
  | read
  | close
  | perror (text : String)
  | stdout (text : String)
  | stderr (text : String)
  deriving DecidableEq

/-! ## The arguments -/

section Arguments

variable (inetAddr : CStr → UInt32) (atoi : CStr → Int)

/-- `main` up to where `config` is complete, from the arguments behind the program's name and from what
`local_ipget` finds. An error is the text that is printed before `main` returns. -/
def configure (argv : List CStr) (localIpget : Except String CStr) : Except String ScanConfig :=
  match argv with
  | target :: portStart :: portEnd :: _ =>
    if inetAddr target = INADDR_NONE then
      .error "IP invalid\n"
    else if atoi portStart < 1 ∨ 65535 < atoi portEnd ∨ atoi portEnd < atoi portStart then
      .error "Ports must be between 1 and 65535, and start <= end\n"
    else do
      let srcIp ← localIpget
      return {
        srcIp := srcIp
        srcPort := sourcePort
        portStart := atoi portStart
        portEnd := atoi portEnd
        dest := inetAddr target }
  | _ => .error "Usage: portscanner <IP> <PORT START> <PORT END>\n"

end Arguments

/-! ## The checksum -/

/-- The loop of `checksum`, and the odd byte after it. -/
def sumWords : List UInt8 → UInt32 → UInt32
  | b :: c :: data, sum => sumWords data (sum + UInt32.ofNat (ofLe [b, c]))
  | [b], sum => sum + b.toUInt32
  | [], sum => sum

/-- `checksum` -/
def checksum (data : List UInt8) : UInt16 :=
  let sum := sumWords data 0
  let sum := (sum >>> 16) + (sum &&& 0xffff)
  let sum := sum + (sum >>> 16)
  (~~~sum).toUInt16

/-- `pseudo_header` -/
structure PseudoHeader where
  sourceAddr : UInt32
  destAddr : UInt32
  zero : UInt8
  protocol : UInt8
  tcpLen : UInt16

/-- The memory of a `pseudo_header`. -/
def PseudoHeader.bytes (pseudo : PseudoHeader) : List UInt8 :=
  toLe 4 pseudo.sourceAddr.toNat ++ toLe 4 pseudo.destAddr.toNat ++ [pseudo.zero, pseudo.protocol] ++
    toLe 2 pseudo.tcpLen.toNat

/-- `tcp_checksum` -/
def tcpChecksum (tcph : Tcphdr) (iph : Iphdr) : UInt16 :=
  let pseudo : PseudoHeader := {
    sourceAddr := iph.saddr
    destAddr := iph.daddr
    zero := 0
    protocol := IPPROTO_TCP
    tcpLen := htons 20 }
  checksum (pseudo.bytes ++ tcph.bytes)

/-! ## Sending -/

section Sending

variable (inetAddr : CStr → UInt32)

/-- `build_iph`, which sets every field, with the number that `rand` returns. -/
def buildIph (config : ScanConfig) (rand : Int) : Iphdr where
  ihl := 5
  version := 4
  tos := 0
  totLen := 0
  id := htons (UInt16.ofInt rand)
  fragOff := 0
  ttl := 64
  protocol := IPPROTO_TCP
  check := 0
  saddr := inetAddr config.srcIp
  daddr := config.dest

/-- `build_tcph`, with the number that `rand` returns. -/
def buildTcph (tcph : Tcphdr) (iph : Iphdr) (config : ScanConfig) (port rand : Int) : Tcphdr :=
  let tcph := { tcph with
    source := htons (UInt16.ofInt config.srcPort)
    dest := htons (UInt16.ofInt port)
    seq := htonl (UInt32.ofInt rand)
    ackSeq := 0
    doff := 5
    syn := true
    window := htons windowSize
    check := 0
    urgPtr := 0 }
  { tcph with check := tcpChecksum tcph iph }

/-- The variable `packet` of `syn_scan` when it is sent. It was zero before the headers were built; `id`
and `seq` are the numbers that `rand` returns for these fields. -/
def packet (config : ScanConfig) (port id seq : Int) : List UInt8 :=
  let iph := buildIph inetAddr config id
  let tcph := buildTcph (Tcphdr.ofMemory fun _ => 0) iph config port seq
  iph.bytes ++ tcph.bytes

/-- What the outside answers to one call of `syn_scan`. -/
structure SynAnswers where
  socket : Bool
  setsockopt : Bool
  id : Int
  seq : Int
  sendto : Bool

/-- `syn_scan` -/
def synScan (config : ScanConfig) (port : Int) (a : SynAnswers) : Prog Unit Call Int := do
  call .socket
  if a.socket then
    call .setsockopt
    if a.setsockopt then
      call (.sendto (packet inetAddr config port a.id a.seq) config.dest (htons (UInt16.ofInt port)))
      call .close
      return if a.sendto then 0 else 1
    else
      call (.perror "setsockopt")
      call .close
      return 1
  else
    call (.perror "socket")
    return 1

/-- The ports from `port_start` to `port_end`. -/
def ports (config : ScanConfig) : List Int :=
  (List.range (config.portEnd + 1 - config.portStart).toNat).map fun i : Nat => config.portStart + i

/-- The loop of `main`, with the answers to the call for each port. -/
def sendSyns (config : ScanConfig) (answers : Int → SynAnswers) : Prog Unit Call Unit :=
  forEach (fun i => do
    let r ← synScan inetAddr config i (answers i)
    if r ≠ 0 then
      call (.stderr ("Failed to send syn to port " ++ toString i ++ "\n"))) (ports config)

end Sending

/-! ## Receiving -/

/-- `process`: the port that it prints as open, if it prints one. -/
def process (buffer : Memory) (length : Int) (config : ScanConfig) : Option Int :=
  if length < 20 + 20 then
    none
  else
    let iph := Iphdr.ofMemory buffer
    if iph.saddr ≠ config.dest then
      none
    else
      let iphLen := iph.ihl.toNat * 4
      let tcph := Tcphdr.ofMemory fun i => buffer (iphLen + i)
      if (ntohs tcph.dest).toNat ≠ config.srcPort then
        none
      else
        let srcPort : Int := (ntohs tcph.source).toNat
        if srcPort < config.portStart ∨ config.portEnd < srcPort then
          none
        else if tcph.syn ∧ tcph.ack then
          some srcPort
        else
          none

/-- What `read` answers to the thread. -/
inductive ReadAnswer where
  | data (packet : List UInt8)
  | eintr
  | error

/-- The variables of `listen_synacks`. -/
structure Listener where
  buffer : Memory
  /-- the loop has not ended -/
  listening : Bool

/-- Print what `process` reports. -/
def report : Option Int → Prog Listener Call Unit
  | some port => call (.stdout ("Port " ++ toString port ++ " open (syn-ack received)\n"))
  | none => pure ()

/-- An iteration that has read a packet. -/
def receive (config : ScanConfig) (packet : List UInt8) : Prog Listener Call Unit := do
  let red := packet.take size
  modify fun s => { s with buffer := overlay red s.buffer }
  let s ← get
  report (process s.buffer red.length config)

/-- One iteration of the loop of `listen_synacks`. -/
def listen (config : ScanConfig) (a : ReadAnswer) : Prog Listener Call Unit := do
  let s ← get
  if s.listening then
    call .read
    match a with
    | .data packet => receive config packet
    | .eintr => pure ()
    | .error =>
      call (.perror "read")
      call .close
      modify fun s => { s with listening := false }

/-- `listen_synacks` over a list of answers, from where the socket is open. -/
abbrev listenSynacks (config : ScanConfig) : List ReadAnswer → Prog Listener Call Unit :=
  forEach (listen config)

end SystemsProgramming.PortScanner
