import SystemsProgramming.MtlsChat.Ssl

/-!
# The mTLS chat client (`mtls-chat/client.c`)

The poll loop of the client, over an environment that answers its calls. `fds[0]` is standard input
and `fds[1]` the server. `tcp_tls_connect` has connected, finished the handshake and made the socket
non-blocking before the first iteration; where it fails the process ends.
-/

namespace SystemsProgramming.MtlsChat.Client

open Foundations Prog

/-- The variables of `poll_loop`, and whether the process is still running. -/
structure Vars where
  fds : Nat → Pollfd
  running : Bool

/-- What the outside answers in one iteration of the poll loop. -/
structure Answers where
  numberRevents : Int
  revents : Nat → Nat
  stdin : Option (List UInt8)
  sslWrite : Int
  sslRead : SslRead

/-- The calls the client makes. -/
inductive Call where
  | readStdin (result : Option (List UInt8))
  | sslWrite (data : List UInt8) (ret : Int)
  | sslRead (ret : Int)
  | writeStdout (data : List UInt8)
  | printf (text : String)
  | errPrintErrors
  | exit (status : Int)
  deriving DecidableEq

/-- `exit` -/
def exit (status : Int) : Prog Vars Call Unit := do
  call (.exit status)
  modify fun v => { v with running := false }

/-- `read_client`. The result is the buffer, or `none` where the function returns `1`. -/
def readClient (a : Answers) : Prog Vars Call (Option (List UInt8)) := do
  let r := read tlsRecordSize a.stdin
  call (.readStdin r)
  return received r

/-- `monitor` -/
def monitor (a : Answers) : Prog Vars Call Unit := do
  let r := a.sslRead
  call (.sslRead r.ret)
  if r.ret ≤ 0 then
    match r.error with
    | .zeroReturn | .syscall | .ssl =>
      call (.printf "Server disconnected\n")
      exit 1
    | .wantRead | .wantWrite => pure ()
    | .other =>
      call .errPrintErrors
      exit 1
  else
    call (.writeStdout (r.buffer.take r.ret.toNat))

/-- The second half of an iteration: read from the server. -/
def monitorServer (a : Answers) : Prog Vars Call Unit := do
  let v ← get
  if 0 < a.numberRevents ∧ (v.fds 1).readable then
    monitor a

/-- The first half, with the second after it: read standard input and write it to the server. Where
`read_client` returns `1` the iteration ends (`continue`). -/
def serveStdin (a : Answers) : Prog Vars Call Unit := do
  let v ← get
  if 0 < a.numberRevents ∧ (v.fds 0).readable then
    match ← readClient a with
    | none => pure ()
    | some buffer =>
      call (.sslWrite buffer a.sslWrite)
      monitorServer a
  else
    monitorServer a

/-- The variables after the `poll` at the head of an iteration. -/
def Vars.polled (v : Vars) (a : Answers) : Vars := { v with fds := pollfds v.fds 2 a.revents }

/-- One iteration of the `for (;;)` of `poll_loop`; after `exit` there is none. -/
def iteration (a : Answers) : Prog Vars Call Unit := do
  let v ← get
  if v.running then
    modify fun v => v.polled a
    serveStdin a

/-- The variables at the head of the first iteration. -/
def initial (socketFd : Int) : Vars where
  fds i := if i = 0 then ⟨0, POLLIN, 0⟩ else ⟨socketFd, POLLIN, 0⟩
  running := true

/-- `poll_loop` over a list of answers. -/
abbrev pollLoop : List Answers → Prog Vars Call Unit := forEach iteration

end SystemsProgramming.MtlsChat.Client
