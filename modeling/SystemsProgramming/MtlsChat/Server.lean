import SystemsProgramming.Foundations.SlotTable
import SystemsProgramming.MtlsChat.Ssl

/-!
# The mTLS chat server (`mtls-chat/server.c`)

The variables of `poll_loop` and the functions it calls, over an environment that answers every
system call and every OpenSSL call. The two parallel arrays `fds` and `ssls` are functions of the
index; slots `0` and `1` are the listening socket and standard input, slots `2` to `maxClients - 1`
are the clients.

One iteration of the `for (;;)` takes one `Answers`; a run is a list of them. `setup_context` and
`setup_tcp`, which end the process when anything fails, come before the first iteration and are not
modelled.
-/

namespace SystemsProgramming.MtlsChat.Server

open Foundations Prog

/-- `MAX_CLIENTS`: the length of `fds` and `ssls`, the two reserved slots included. -/
def maxClients : Nat := 102

/-- The variables of `poll_loop`, and the `O_NONBLOCK` flag the kernel keeps for each descriptor. -/
structure Vars where
  fds : Nat → Pollfd
  ssls : Nat → Option Ssl
  nfds : Nat
  nonblock : Int → Bool

/-- What the outside answers in one iteration of the poll loop. A call that the iteration does not
make leaves its answer unused; the calls on client slots are answered slot by slot. -/
structure Answers where
  /-- the return value of `poll` -/
  numberRevents : Int
  /-- the `revents` that `poll` writes -/
  revents : Nat → Nat
  /-- the return value of `accept` -/
  accept : Int
  /-- the address of the peer, in the form `inet_ntop` gives it -/
  clientAddr : String
  sslNew : Option Ssl
  sslSetFd : Int
  /-- the return value of `SSL_accept`, for a descriptor with and without `O_NONBLOCK` -/
  sslAccept : Bool → Int
  /-- `read` on standard input -/
  stdin : Option (List UInt8)
  sslWrite : Nat → Int
  sslRead : Nat → SslRead

/-- The functions that shut down and free SSL objects; `monitor` is called for one slot. -/
inductive Caller where
  | tlsAcceptFunction
  | monitor (slot : Nat)
  deriving DecidableEq

/-- The calls the server makes, with the answers that matter to whoever watches them. -/
inductive Call where
  | accept (fd : Int)
  | setNonblock (fd : Int)
  | close (fd : Int)
  | sslNew (ssl : Option Ssl)
  | sslSetFd (ssl : Option Ssl) (fd : Int) (ret : Int)
  | sslAccept (ssl : Option Ssl) (ret : Int)
  | sslShutdown (caller : Caller) (ssl : Option Ssl)
  | sslFree (caller : Caller) (ssl : Option Ssl)
  | sslWrite (slot : Nat) (ssl : Option Ssl) (data : List UInt8) (ret : Int)
  | sslRead (slot : Nat) (ssl : Option Ssl) (ret : Int)
  | readStdin (result : Option (List UInt8))
  | writeStdout (data : List UInt8)
  | printf (text : String)
  | fprintfStderr (text : String)
  | perror (text : String)
  | errPrintErrors
  deriving DecidableEq

/-- The text printed when no slot is free. -/
def maxClientsReached : String := "[max clients reached]\n"

/-! ## The functions of the server -/

/-- The search of `tcp_accept_function`: the first client slot whose descriptor is `-1`. -/
def freeSlot (fds : Nat → Pollfd) : Option Nat :=
  SlotTable.firstFree (fun i => (fds i).fd = -1) 2 maxClients

/-- `tcp_accept_function`. The result is `out_index`, or `none` where the function returns `1`. -/
def tcpAcceptFunction (a : Answers) : Prog Vars Call (Option Nat) := do
  if a.accept < 0 then
    call (.perror "accept")
    return none
  else
    call (.accept a.accept)
    -- a descriptor that `accept` returns does not have `O_NONBLOCK`
    modify fun v => { v with nonblock := Function.update v.nonblock a.accept false }
    let v ← get
    match freeSlot v.fds with
    | some i =>
      modify fun v => { v with fds := Function.update v.fds i ⟨a.accept, POLLIN, 0⟩ }
      call (.setNonblock a.accept)
      modify fun v => { v with nonblock := Function.update v.nonblock a.accept true }
      modify fun v => { v with nfds := if v.nfds ≤ i then i + 1 else v.nfds }
      return some i
    | none =>
      call (.fprintfStderr maxClientsReached)
      call (.close a.accept)
      return none

/-- `tls_accept_function` -/
def tlsAcceptFunction (a : Answers) (outIndex : Nat) : Prog Vars Call Int := do
  call (.sslNew a.sslNew)
  modify fun v => { v with ssls := Function.update v.ssls outIndex a.sslNew }
  let v ← get
  if v.ssls outIndex = none then
    return 1
  else
    call (.sslSetFd (v.ssls outIndex) (v.fds outIndex).fd a.sslSetFd)
    if a.sslSetFd = 0 then
      call (.sslFree .tlsAcceptFunction (v.ssls outIndex))
      return 1
    else
      let r := a.sslAccept (v.nonblock (v.fds outIndex).fd)
      call (.sslAccept (v.ssls outIndex) r)
      if r ≤ 0 then
        if r < 0 then
          call (.sslShutdown .tlsAcceptFunction (v.ssls outIndex))
        call (.sslFree .tlsAcceptFunction (v.ssls outIndex))
        return 1
      else
        return 0

/-- `read_server`. The result is the buffer, or `none` where the function returns `1`. -/
def readServer (a : Answers) : Prog Vars Call (Option (List UInt8)) := do
  let r := read tlsRecordSize a.stdin
  call (.readStdin r)
  return received r

/-- `broadcast`. It gets `nfds` by value. -/
def broadcast (a : Answers) (buffer : List UInt8) : Prog Vars Call Unit := do
  let v ← get
  forEach
    (fun i => do
      let v ← get
      if (v.fds i).fd ≠ -1 then
        call (.sslWrite i (v.ssls i) buffer (a.sslWrite i)))
    (List.range' 2 (v.nfds - 2))

/-- The part of `monitor` from the label `error` on. -/
def monitorError (index : Nat) : Prog Vars Call Unit := do
  let v ← get
  call (.sslFree (.monitor index) (v.ssls index))
  modify fun v => { v with ssls := Function.update v.ssls index none }
  call (.close (v.fds index).fd)
  modify fun v => { v with fds := Function.update v.fds index { v.fds index with fd := -1 } }
  modify fun v => { v with nfds := v.nfds - 1 }

/-- The part of `monitor` from the label `cleanup` on. -/
def monitorCleanup (index : Nat) : Prog Vars Call Unit := do
  let v ← get
  call (.sslShutdown (.monitor index) (v.ssls index))
  monitorError index

/-- `monitor` -/
def monitor (a : Answers) (index : Nat) : Prog Vars Call Unit := do
  let v ← get
  let r := a.sslRead index
  call (.sslRead index (v.ssls index) r.ret)
  if r.ret ≤ 0 then
    match r.error with
    | .zeroReturn =>
      call (.printf "[client disconnected]\n")
      monitorCleanup index
    | .syscall | .ssl =>
      call (.printf "[client disconnected]\n")
      monitorError index
    | .wantRead | .wantWrite => pure ()
    | .other =>
      call .errPrintErrors
      monitorCleanup index
  else
    call (.writeStdout (r.buffer.take r.ret.toNat))

/-! ## The poll loop -/

/-- The last of the three jobs: read from the clients. -/
def monitorClients (a : Answers) : Prog Vars Call Unit := do
  if 0 < a.numberRevents then
    let v ← get
    forBelow Vars.nfds
      (fun i => do
        let v ← get
        if (v.fds i).fd ≠ -1 ∧ (v.fds i).readable then
          monitor a i)
      v.nfds 2

/-- The second job: read standard input and write it to the clients. Where `read_server` returns `1`
the iteration ends (`continue`). -/
def serveStdin (a : Answers) : Prog Vars Call Unit := do
  let v ← get
  if 0 < a.numberRevents ∧ (v.fds 1).readable then
    match ← readServer a with
    | none => pure ()
    | some buffer =>
      broadcast a buffer
      monitorClients a
  else
    monitorClients a

/-- The first job, with the rest of the iteration after it: accept a connection. Where a connection
is not established the iteration ends (`continue`). -/
def acceptConnection (a : Answers) : Prog Vars Call Unit := do
  let v ← get
  if 0 < a.numberRevents ∧ (v.fds 0).readable then
    match ← tcpAcceptFunction a with
    | none => pure ()
    | some outIndex =>
      let failed ← tlsAcceptFunction a outIndex
      if failed = 1 then
        let v ← get
        call (.close (v.fds outIndex).fd)
        modify fun v =>
          { v with fds := Function.update v.fds outIndex { v.fds outIndex with fd := -1 } }
        modify fun v => { v with nfds := v.nfds - 1 }
      else
        call (.printf ("[client connected: " ++ a.clientAddr ++ "]\n"))
        serveStdin a
  else
    serveStdin a

/-- The variables after the `poll` at the head of an iteration. -/
def Vars.polled (v : Vars) (a : Answers) : Vars :=
  { v with fds := pollfds v.fds v.nfds a.revents }

/-- One iteration of the `for (;;)` of `poll_loop`. -/
def iteration (a : Answers) : Prog Vars Call Unit := do
  modify fun v => v.polled a
  acceptConnection a

/-- The variables at the head of the first iteration. The `events` and `revents` of the client slots
are what the stack happened to hold. -/
def initial (socketFd : Int) (stack : Nat → Pollfd) (nonblock : Int → Bool) : Vars where
  fds i :=
    if i = 0 then ⟨socketFd, POLLIN, 0⟩
    else if i = 1 then ⟨0, POLLIN, 0⟩
    else { stack i with fd := -1 }
  ssls _ := none
  nfds := 2
  nonblock := nonblock

/-- `poll_loop` over a list of answers: its iterations, one after another. -/
abbrev pollLoop : List Answers → Prog Vars Call Unit := forEach iteration

/-- Slot `i` is a client slot and is in use. -/
def Vars.Occupied (v : Vars) (i : Nat) : Prop := 2 ≤ i ∧ i < maxClients ∧ (v.fds i).fd ≠ -1

instance (v : Vars) (i : Nat) : Decidable (v.Occupied i) := by
  unfold Vars.Occupied
  infer_instance

end SystemsProgramming.MtlsChat.Server
