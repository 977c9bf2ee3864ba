import SystemsProgramming.Foundations.Bytes
import SystemsProgramming.Foundations.CString
import SystemsProgramming.Foundations.Stdio
import SystemsProgramming.Foundations.Prog
import Mathlib.Logic.Function.Basic

/-!
# The packet sniffer (`packet-sniffer/main.c`)

`main` switches the interfaces to promiscuous mode, opens the capture file, receives frames until it is
told to stop, and switches promiscuous mode off again. The outside answers its system calls; the flags
of the interfaces and the capture file are part of the state, and only `main` changes them.

`fwrite` succeeds. How many of the waiting bytes a stream hands to the file on its own is up to the
outside. Integers in memory have the byte order of a little-endian machine.
-/

namespace SystemsProgramming.PacketSniffer

open Foundations Prog

/-- `MAX_IF` -/
def maxIf : Nat := 32

/-- `TIME_ROTATION` -/
def timeRotation : Int := 7200

/-- `MAX_LEN`. The buffer for frames has one byte more. -/
def maxLen : Nat := 65535

/-- `IFNAMSIZ` of `net/if.h` -/
def IFNAMSIZ : Nat := 16

/-- `IFF_PROMISC` of `net/if.h` -/
def IFF_PROMISC : BitVec 16 := 0x100#16

/-- The name of the loopback interface. -/
def lo : CStr := ⟨ascii "lo", by decide⟩

/-! ## The headers in the file -/

/-- `struct pcap_header` -/
structure PcapHeader where
  magicNumber : Nat
  versionMajor : Nat
  versionMinor : Nat
  reserved1 : Nat
  reserved2 : Nat
  snaplen : Nat
  linkType : Nat
  deriving DecidableEq

/-- The memory of a `struct pcap_header`. -/
def PcapHeader.bytes (h : PcapHeader) : List UInt8 :=
  toLe 4 h.magicNumber ++ toLe 2 h.versionMajor ++ toLe 2 h.versionMinor ++ toLe 4 h.reserved1 ++
    toLe 4 h.reserved2 ++ toLe 4 h.snaplen ++ toLe 4 h.linkType

/-- The variable `phdr`. -/
def phdr : PcapHeader where
  magicNumber := 0xA1B2C3D4
  versionMajor := 2
  versionMinor := 4
  reserved1 := 0
  reserved2 := 0
  snaplen := maxLen
  linkType := 1

/-- `struct packet_header` -/
structure PacketHeader where
  tsSec : Nat
  tsUsec : Nat
  inclLen : Nat
  origLen : Nat
  deriving DecidableEq

/-- The memory of a `struct packet_header`. -/
def PacketHeader.bytes (h : PacketHeader) : List UInt8 :=
  toLe 4 h.tsSec ++ toLe 4 h.tsUsec ++ toLe 4 h.inclLen ++ toLe 4 h.origLen

/-- `struct timeval` -/
structure Timeval where
  tvSec : Int
  tvUsec : Int

/-- A cast to `uint32_t`. -/
def toUint32 (n : Int) : Nat := (n % 0x100000000).toNat

/-- The variable `pkt_hdr`. -/
def pktHdr (tv : Timeval) (len : Nat) : PacketHeader where
  tsSec := toUint32 tv.tvSec
  tsUsec := toUint32 tv.tvUsec
  inclLen := toUint32 len
  origLen := toUint32 len

/-! ## State and environment -/

/-- The variables of `main` that live through the capture loop, and what it changes outside. -/
structure Vars where
  /-- `promisc_interfaces`, up to `promisc_count` -/
  promiscInterfaces : List CStr
  /-- an entry was written behind the end of `promisc_interfaces` -/
  overrun : Bool
  /-- `file` is not `NULL` -/
  file : Bool
  startTime : Int
  /-- the buffer for frames -/
  buffer : List UInt8
  /-- `main` has not returned -/
  running : Bool
  /-- `captures.pcap` with the stream `file` -/
  captures : BufferedFile
  /-- the flags of the interfaces that exist -/
  flags : List UInt8 → Option (BitVec 16)

/-- Whether the two calls of `ioctl` on an interface succeed, if it exists. -/
structure Ioctls where
  get : Bool
  set : Bool

/-- What the outside answers in one iteration of the capture loop. -/
structure Answers where
  /-- `keep_running` in the loop condition -/
  keepRunning : Bool
  /-- `time(NULL)` in the rotation check -/
  time : Int
  /-- whether `fopen` succeeds -/
  fopen : Bool
  /-- the bytes handed to the file when `phdr` is written -/
  phdrOut : Nat
  /-- `time(NULL)` after `phdr` is written -/
  restart : Int
  /-- the frame that `recvfrom` receives; `none` is an error -/
  recvfrom : Option (List UInt8)
  /-- the time when `recvfrom` returns -/
  arrived : Int
  /-- `keep_running` after an error of `recvfrom` -/
  stillRunning : Bool
  /-- the memory at `ifname` before `if_indextoname` -/
  ifname : List UInt8
  /-- the name of the interface the frame arrived on; `none` is an error -/
  ifIndexToName : Option CStr
  /-- `gettimeofday` -/
  tv : Timeval
  /-- the bytes handed to the file when `pkt_hdr` and the frame are written -/
  pktHdrOut : Nat
  frameOut : Nat
  /-- the `ioctl`s of each call of `unset_promisc` -/
  restore : Nat → Ioctls

/-- What the outside answers before the capture loop. -/
structure Setup where
  /-- `if_nameindex`: the index and the name of each entry -/
  nameindex : Option (List (Nat × Option CStr))
  /-- the `ioctl`s of each call of `set_promisc` -/
  ioctls : Nat → Ioctls
  fopen : Bool
  phdrOut : Nat
  startTime : Int
  restore : Nat → Ioctls

/-- The calls that `main` makes. -/
inductive Call where
  | getFlags (name : List UInt8)
  | setFlags (name : List UInt8) (flags : BitVec 16)
  | fopen
  | fclose
  | fwrite (data : List UInt8)
  | fflush
  | recvfrom
  | gettimeofday
  | closeSocket
  | perror (text : String)
  deriving DecidableEq

/-! ## Promiscuous mode -/

/-- `ifr_name` after `strncpy(ifr.ifr_name, arg, IFNAMSIZ - 1)` -/
def ifrName (arg : CStr) : List UInt8 := arg.bytes.take (IFNAMSIZ - 1)

/-- Get the flags of an interface, change them by `f`, and set them. -/
def changeFlags (arg : CStr) (io : Ioctls) (f : BitVec 16 → BitVec 16) (done : Prog Vars Call Unit) :
    Prog Vars Call Unit := do
  let v ← get
  call (.getFlags (ifrName arg))
  match if io.get then v.flags (ifrName arg) else none with
  | none => call (.perror "ioctl")
  | some flags =>
    call (.setFlags (ifrName arg) (f flags))
    if io.set then
      modify fun v => { v with flags := Function.update v.flags (ifrName arg) (some (f flags)) }
      done
    else
      call (.perror "ioctl")

/-- `set_promisc` -/
def setPromisc (arg : CStr) (io : Ioctls) : Prog Vars Call Unit :=
  changeFlags arg io (· ||| IFF_PROMISC) do
    modify fun v =>
      if v.promiscInterfaces.length < maxIf then
        { v with promiscInterfaces := v.promiscInterfaces ++ [arg] }
      else
        { v with overrun := true }

/-- `unset_promisc` -/
def unsetPromisc (arg : CStr) (io : Ioctls) : Prog Vars Call Unit :=
  changeFlags arg io (· &&& ~~~ IFF_PROMISC) (pure ())

/-- The interfaces that `main` calls `set_promisc` on when `if_nameindex` has returned `entries`: those
before the end of the array, except `lo`. -/
def enumerated (entries : List (Nat × Option CStr)) : List CStr :=
  ((entries.takeWhile fun e => e.1 ≠ 0 ∧ e.2 ≠ none).filterMap Prod.snd).filter (· ≠ lo)

/-- The interfaces that `main` calls `set_promisc` on; `none` if `if_nameindex` fails. -/
def interfaces (args : List CStr) (s : Setup) : Option (List CStr) :=
  if args ≠ [] then some args else s.nameindex.map enumerated

/-- Switch interfaces to promiscuous mode, with the answers to each call. -/
def setAll (ioctls : Nat → Ioctls) (names : List CStr) : Prog Vars Call Unit :=
  forEach (fun p => setPromisc p.1 (ioctls p.2)) names.zipIdx

/-! ## Leaving -/

/-- `fclose` -/
def fclose : Prog Vars Call Unit := do
  call .fclose
  modify fun v => { v with captures := v.captures.flush }

/-- `main` from the label `cleanup` on. -/
def cleanup (restore : Nat → Ioctls) : Prog Vars Call Unit := do
  let v ← get
  forEach (fun p => unsetPromisc p.1 (restore p.2)) v.promiscInterfaces.zipIdx
  call .closeSocket
  let v ← get
  if v.file then
    fclose
  modify fun v => { v with running := false }

/-! ## The capture file -/

/-- `file = fopen("captures.pcap", "wb")` -/
def fopen (opened : Bool) : Prog Vars Call Unit := do
  call .fopen
  modify fun v =>
    { v with file := opened, captures := if opened then BufferedFile.opened else v.captures }

/-- `fwrite(data, data.length, 1, file)` -/
def fwrite (data : List UInt8) (out : Nat) : Prog Vars Call Unit := do
  call (.fwrite data)
  modify fun v => { v with captures := v.captures.write data out }

/-- `fflush(file)` -/
def fflush : Prog Vars Call Unit := do
  call .fflush
  modify fun v => { v with captures := v.captures.flush }

/-! ## The capture loop -/

/-- The name in `ifname` after `if_indextoname`, which leaves the memory alone when it fails. -/
def ifname (a : Answers) : CStr :=
  CStr.ofMemory
    (match a.ifIndexToName with
    | some name => name.bytes ++ 0 :: a.ifname.drop (name.bytes.length + 1)
    | none => a.ifname)

/-- The filter: one of the arguments, or without arguments anything but `lo`. -/
def wanted (args : List CStr) (name : CStr) : Bool :=
  if args ≠ [] then args.any (name = ·) else name ≠ lo

/-- Write a frame of length `len` to the file. -/
def record (a : Answers) (len : Nat) : Prog Vars Call Unit := do
  call .gettimeofday
  let v ← get
  fwrite (pktHdr a.tv len).bytes a.pktHdrOut
  fwrite (v.buffer.take len) a.frameOut
  fflush

/-- An iteration from `recvfrom` on. -/
def receive (args : List CStr) (a : Answers) : Prog Vars Call Unit := do
  call .recvfrom
  match a.recvfrom with
  | none =>
    if a.stillRunning then
      call (.perror "recvfrom")
    cleanup a.restore
  | some frame =>
    let red := frame.take (maxLen + 1)
    modify fun v => { v with buffer := red ++ v.buffer.drop red.length }
    if red.length = 0 ∨ maxLen < red.length then
      pure ()
    else if wanted args (ifname a) then
      record a red.length

/-- An iteration from the rotation check on. -/
def capture (args : List CStr) (a : Answers) : Prog Vars Call Unit := do
  let v ← get
  if timeRotation ≤ a.time - v.startTime then
    fclose
    fopen a.fopen
    if a.fopen then
      fwrite phdr.bytes a.phdrOut
      modify fun v => { v with startTime := a.restart }
      receive args a
    else
      call (.perror "fopen")
      cleanup a.restore
  else
    receive args a

/-- One iteration of `while (keep_running)`; after `cleanup` there is none. -/
def iteration (args : List CStr) (a : Answers) : Prog Vars Call Unit := do
  let v ← get
  if v.running then
    if a.keepRunning then
      capture args a
    else
      cleanup a.restore

/-- The capture loop over a list of answers. -/
abbrev captureLoop (args : List CStr) : List Answers → Prog Vars Call Unit := forEach (iteration args)

/-! ## The program -/

/-- From `fopen` to the capture loop. -/
def openCaptures (s : Setup) : Prog Vars Call Unit := do
  fopen s.fopen
  if s.fopen then
    fwrite phdr.bytes s.phdrOut
    modify fun v => { v with startTime := s.startTime }
  else
    call (.perror "fopen")
    cleanup s.restore

/-- `main` from where the socket is open to the capture loop. -/
def start (args : List CStr) (s : Setup) : Prog Vars Call Unit :=
  match interfaces args s with
  | some names => do
    setAll s.ioctls names
    openCaptures s
  | none => do
    call (.perror "if_nameindex")
    call .closeSocket
    modify fun v => { v with running := false }

/-- `main`, from where the socket is open. -/
def main (args : List CStr) (s : Setup) (as : List Answers) : Prog Vars Call Unit := do
  start args s
  captureLoop args as

/-- The variables when `main` starts: no interface is switched, and the capture file is what an earlier
run has left. -/
def initial (flags : List UInt8 → Option (BitVec 16)) (captures buffer : List UInt8) : Vars where
  promiscInterfaces := []
  overrun := false
  file := false
  startTime := 0
  buffer := buffer
  running := true
  captures := ⟨captures, []⟩
  flags := flags

end SystemsProgramming.PacketSniffer
