import SystemsProgramming.TcpSuite.Server

/-!
# The TCP client (`tcp-suite/client.c`)

`main`, `connectf` and `readaw`, over an environment that answers their calls. `fds[0]` is the socket and
`fds[1]` standard input. The poll loop of `readaw` ends only by a `return`; where the answers are used up
before, the client is still in it.
-/

namespace SystemsProgramming.TcpSuite.Client

open Foundations Prog
open Server (filled)

/-- `BUFFER_SIZE` -/
def bufferSize : Nat := 8192

/-- The variables of `readaw`. -/
structure Vars where
  fds : Nat → Pollfd
  buffer : List UInt8

/-- What the outside answers in one iteration of the poll loop. -/
structure Answers where
  /-- the return value of `poll` -/
  poll : Int
  /-- the `revents` that `poll` writes -/
  revents : Nat → Nat
  /-- `read` on the socket -/
  socket : Option (List UInt8)
  /-- `read` on standard input -/
  stdin : Option (List UInt8)

/-- The calls the client makes. -/
inductive Call where
  | socket (ret : Int)
  | connect (fd : Int) (server : SockaddrIn) (ret : Int)
  | readSocket (fd : Int) (result : Option (List UInt8))
  | readStdin (result : Option (List UInt8))
  | writeStdout (data : List UInt8)
  | writeSocket (fd : Int) (data : List UInt8)
  | close (fd : Int)
  | perror (text : String)
  | stderr (text : String)
  deriving DecidableEq

/-! ## `readaw` -/

/-- Pass on the bytes that a `read` has returned, or return from `readaw` with an error. -/
def passOn (red : Option (List UInt8)) (write : List UInt8 → Call) :
    Prog Vars Call (Option Int) := do
  modify fun v => { v with buffer := filled v.buffer red }
  match received red with
  | none =>
    call (.stderr "error")
    return some 1
  | some chunk =>
    let v ← get
    call (write (v.buffer.take chunk.length))
    return none

/-- The first half of an iteration: from the socket to standard output. -/
def readServer (socketFd : Int) (a : Answers) : Prog Vars Call (Option Int) := do
  let v ← get
  if 0 < a.poll ∧ (v.fds 0).readable then
    let red := read bufferSize a.socket
    call (.readSocket socketFd red)
    passOn red .writeStdout
  else
    return none

/-- The second half: from standard input to the socket. -/
def readUser (socketFd : Int) (a : Answers) : Prog Vars Call (Option Int) := do
  let v ← get
  if 0 < a.poll ∧ (v.fds 1).readable then
    let red := read bufferSize a.stdin
    call (.readStdin red)
    passOn red (.writeSocket socketFd)
  else
    return none

/-- One iteration of the `for (;;)`. -/
def iteration (socketFd : Int) (a : Answers) : Prog Vars Call (Option Int) := do
  modify fun v => { v with fds := poll v.fds 2 a.poll a.revents }
  match ← readServer socketFd a with
  | some ret => return some ret
  | none => readUser socketFd a

/-- The variables at the head of the first iteration; the buffer has what the stack happened to hold. -/
def initial (socketFd : Int) (stack : List UInt8) : Vars where
  fds i := if i = 0 then ⟨socketFd, POLLIN, 0⟩ else ⟨0, POLLIN, 0⟩
  buffer := stack

/-- `readaw` over a list of answers. -/
abbrev readaw (socketFd : Int) : List Answers → Prog Vars Call (Option Int) :=
  untilReturn (iteration socketFd)

/-! ## `main` -/

/-- What a client finds: its arguments, what `socket` and `connect` return, and the answers in its poll
loop. -/
structure Outside where
  argv : List CStr
  socketFd : Int
  connected : Int
  stack : List UInt8
  answers : List Answers

section Main

variable (inetAddr : CStr → UInt32) (atoi : CStr → Int)

/-- `connectf` -/
def connectf (o : Outside) (ip port : CStr) : Prog Vars Call Int := do
  call (.connect o.socketFd (.ofArgs inetAddr atoi ip port) o.connected)
  if o.connected = -1 then
    call (.perror "Connect")
    return 1
  else
    return 0

/-- `main`, and what it returns if it does. -/
def main (o : Outside) : Prog Vars Call (Option Int) :=
  match o.argv with
  | [_, ip, port] => do
    call (.socket o.socketFd)
    if o.socketFd < 0 then
      call (.perror "Socket")
      return some 1
    else
      let ret ← connectf inetAddr atoi o ip port
      if ret = 0 then
        match ← readaw o.socketFd o.answers with
        | none => return none
        | some _ =>
          call (.close o.socketFd)
          return some 0
      else
        call (.close o.socketFd)
        return some 0
  | _ => do
    call (.stderr "Usage: ./client <IP> <PORT>\n")
    return some 1

/-- The calls that a client makes. -/
def trace (o : Outside) : List Call := (main inetAddr atoi o).calls (initial o.socketFd o.stack)

end Main

end SystemsProgramming.TcpSuite.Client
