import SystemsProgramming.Foundations.SlotTable
import SystemsProgramming.Posix

/-!
# The TCP server (`tcp-suite/server.c`)

The poll loop of `main`, over an environment that answers its system calls. Slots `0` and `1` of
`pollt` are the listening socket and standard input, slots `2` to `maxClients` are the clients; the
last entry of the array is never looked at.

`main` has bound the socket and listens on it before the first iteration. Where that fails it goes to
`cleanup` without having reached the loop; this is not modelled.
-/

namespace SystemsProgramming.TcpSuite.Server

open Foundations Prog

/-- `MAX_CLIENTS`. The array `pollt` has two entries more. -/
def maxClients : Nat := 100

/-- `BUFFER_SIZE` -/
def bufferSize : Nat := 8192

/-- The variables of `main` that live through the poll loop, and whether the process is still
running. -/
structure Vars where
  pollt : Nat → Pollfd
  nfds : Nat
  buffer : List UInt8
  running : Bool

/-- What the outside answers in one iteration of the poll loop. The reads on client slots are answered
slot by slot. -/
structure Answers where
  /-- the return value of `poll` -/
  poll : Int
  /-- the `revents` that `poll` writes -/
  revents : Nat → Nat
  /-- the return value of `accept` -/
  accept : Int
  /-- the address of the peer, in the form `inet_ntop` gives it -/
  clientIp : String
  /-- `read` on standard input -/
  stdin : Option (List UInt8)
  /-- `read` on a client -/
  read : Nat → Option (List UInt8)

/-- The calls the server makes. -/
inductive Call where
  | accept (fd : Int)
  | close (fd : Int)
  | readStdin (result : Option (List UInt8))
  | read (fd : Int) (result : Option (List UInt8))
  | write (fd : Int) (data : List UInt8)
  /-- `fwrite(buffer, 1, size, stdout)`, with what the buffer has of these bytes -/
  | fwrite (size : Nat) (data : List UInt8)
  | fflush
  | printf (text : String)
  | perror (text : String)
  deriving DecidableEq

/-- The text printed when a message has no receiver. -/
def noClientsConnected : String := "\n[no clients connected]\n"

/-- What a `read` leaves in the buffer: the bytes read and, behind them, what was there before. -/
def filled (buffer : List UInt8) : Option (List UInt8) → List UInt8
  | some data => data ++ buffer.drop data.length
  | none => buffer

/-- The return value of `read`, converted to `size_t`. -/
def toSize : Option (List UInt8) → Nat
  | some data => data.length
  | none => 0xffffffffffffffff

/-! ## The parts of an iteration -/

/-- The search for a slot: the first client slot whose descriptor is `-1`. -/
def freeSlot (pollt : Nat → Pollfd) : Option Nat :=
  SlotTable.firstFree (fun i => (pollt i).fd = -1) 2 (maxClients + 1)

/-- Give a new connection a slot, if there is one. Its `revents` stay as they are. -/
def store (fd : Int) : Prog Vars Call Unit := do
  let v ← get
  match freeSlot v.pollt with
  | some i =>
    modify fun v =>
      { v with pollt := Function.update v.pollt i { v.pollt i with fd := fd, events := POLLIN } }
    modify fun v => { v with nfds := if v.nfds ≤ i then i + 1 else v.nfds }
  | none => pure ()

/-- Write the first bytes of the buffer to every client. `sent` counts the writes. -/
def send (red : Nat) : Prog Vars Call Unit := do
  let v ← get
  forEach
    (fun i => do
      let v ← get
      if (v.pollt i).fd ≠ -1 then
        call (.write (v.pollt i).fd (v.buffer.take red)))
    (List.range' 2 (v.nfds - 2))
  let sent := (List.range' 2 (v.nfds - 2)).countP fun i => (v.pollt i).fd ≠ -1
  if sent = 0 then
    call (.printf noClientsConnected)

/-- Read standard input and write it to every client. -/
def broadcast (a : Answers) : Prog Vars Call Unit := do
  let v ← get
  if 0 < a.poll ∧ (v.pollt 1).readable then
    let red := read bufferSize a.stdin
    call (.readStdin red)
    modify fun v => { v with buffer := filled v.buffer red }
    match received red with
    | some chunk => send chunk.length
    | none => pure ()

/-- Close the client in a slot and free the slot. -/
def disconnect (i : Nat) : Prog Vars Call Unit := do
  let v ← get
  call (.close (v.pollt i).fd)
  modify fun v => { v with pollt := Function.update v.pollt i { v.pollt i with fd := -1 } }

/-- The body of the loop that reads from the clients. After an error, `red` is `-1` and still the
third argument of `fwrite`. -/
def readClient (a : Answers) (i : Nat) : Prog Vars Call Unit := do
  let v ← get
  if (v.pollt i).fd ≠ -1 ∧ (v.pollt i).readable then
    let red := read bufferSize (a.read i)
    call (.read (v.pollt i).fd red)
    modify fun v => { v with buffer := filled v.buffer red }
    match red with
    | none =>
      call (.perror "Read")
      disconnect i
    | some [] =>
      call (.printf "\n[client disconnected]\n")
      disconnect i
    | some (_ :: _) => pure ()
    let v ← get
    call (.fwrite (toSize red) (v.buffer.take (toSize red)))
    call .fflush

/-- The loop that reads from the clients. -/
def readClients (a : Answers) : Prog Vars Call Unit := do
  let v ← get
  forBelow Vars.nfds (readClient a) v.nfds 2

/-- The part of `main` from the label `cleanup` on. -/
def cleanup (socketFd : Int) : Prog Vars Call Unit := do
  call (.close socketFd)
  let v ← get
  forEach
    (fun i => do
      let v ← get
      if (v.pollt i).fd ≠ -1 then
        call (.close (v.pollt i).fd))
    (List.range' 2 (v.nfds - 2))
  modify fun v => { v with running := false }

/-! ## The poll loop -/

/-- An iteration from the broadcast on. -/
def serve (socketFd : Int) (a : Answers) : Prog Vars Call Unit := do
  broadcast a
  readClients a
  if a.poll = -1 then
    call (.perror "Poll")
    cleanup socketFd

/-- The first job of an iteration, with the rest after it: accept a connection. When `accept` fails
the iteration ends (`continue`). -/
def acceptClient (socketFd : Int) (a : Answers) : Prog Vars Call Unit := do
  let v ← get
  if 0 < a.poll ∧ (v.pollt 0).readable then
    if a.accept = -1 then
      call (.perror "Accept")
    else
      call (.accept a.accept)
      call (.printf ("\n[client connected: " ++ a.clientIp ++ "]\n"))
      store a.accept
      serve socketFd a
  else
    serve socketFd a

/-- The variables after the `poll` at the head of an iteration. -/
def Vars.polled (v : Vars) (a : Answers) : Vars :=
  { v with pollt := poll v.pollt v.nfds a.poll a.revents }

/-- One iteration of the `for (;;)`; after `cleanup` there is none. -/
def iteration (socketFd : Int) (a : Answers) : Prog Vars Call Unit := do
  let v ← get
  if v.running then
    modify fun v => v.polled a
    acceptClient socketFd a

/-- The variables at the head of the first iteration. The `events` and `revents` of the client slots,
and the last entry, are what the stack happened to hold. -/
def initial (socketFd : Int) (stack : Nat → Pollfd) : Vars where
  pollt i :=
    if i = 0 then ⟨socketFd, POLLIN, 0⟩
    else if i = 1 then ⟨0, POLLIN, 0⟩
    else if i ≤ maxClients then { stack i with fd := -1 }
    else stack i
  nfds := 2
  buffer := List.replicate bufferSize 0
  running := true

/-- The poll loop over a list of answers. -/
abbrev pollLoop (socketFd : Int) : List Answers → Prog Vars Call Unit := forEach (iteration socketFd)

/-- Slot `i` is a client slot and is in use. -/
def Vars.Occupied (v : Vars) (i : Nat) : Prop := 2 ≤ i ∧ i ≤ maxClients ∧ (v.pollt i).fd ≠ -1

instance (v : Vars) (i : Nat) : Decidable (v.Occupied i) := by
  unfold Vars.Occupied
  infer_instance

/-! ## The process -/

/-- A round of the process: what the outside answers in an iteration, and the descriptors on which a
`write` then raises `SIGPIPE`, because the peer has closed the connection and reset it since. -/
structure Round where
  answers : Answers
  broken : Int → Bool

/-- The call is a `write` that raises `SIGPIPE`. -/
def Call.raises (broken : Int → Bool) : Call → Bool
  | .write fd _ => broken fd
  | _ => false

/-- The calls of a round that return. The process has no handler for `SIGPIPE` and ends with the first
`write` that raises it. -/
def returned (socketFd : Int) (r : Round) (v : Vars) : List Call :=
  ((iteration socketFd r.answers).calls v).takeWhile fun c => !c.raises r.broken

/-- The variables after a round, unless the process has ended in it. -/
def round (socketFd : Int) (v : Vars) (r : Round) : Option Vars :=
  if ∃ c ∈ (iteration socketFd r.answers).calls v, c.raises r.broken = true then none
  else some ((iteration socketFd r.answers).final v)

/-! ## What the server may do with descriptors -/

/-- The protocol of the server's calls, over the descriptors that are open: one that is open is not
accepted again, and only an open one is read, written to or closed. -/
def next (w : Ledger Int Unit) : Call → Option (Ledger Int Unit)
  | .accept fd => w.acquire fd ()
  | .close fd => w.release fd fun _ => True
  | .read fd _ | .write fd _ => w.use fd (fun _ => True) id
  | .readStdin _ | .fwrite _ _ | .fflush | .printf _ | .perror _ => some w

/-- At the head of the first iteration the listening socket and the three standard descriptors are
open. -/
def opened (socketFd : Int) : Ledger Int Unit := fun fd =>
  if fd = socketFd ∨ fd = 0 ∨ fd = 1 ∨ fd = 2 then some () else none

end SystemsProgramming.TcpSuite.Server
