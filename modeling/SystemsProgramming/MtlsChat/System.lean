import SystemsProgramming.Foundations.RecordLine
import SystemsProgramming.Foundations.Runs
import SystemsProgramming.MtlsChat.Client
import SystemsProgramming.MtlsChat.Proofs.OwnershipProofs

/-!
# The mTLS chat server with its clients (`mtls-chat/`)

The two programs, and what OpenSSL and the network do between them. Every call is a step of its own, so
the calls of the server and of the clients come in any order that the connections allow. A session
between an SSL object of the server and a client has two lines that carry records. A `SSL_write` that
returns more than zero has sent all of its data; one that does not would have to be repeated, which the
programs never do, and then nothing is promised about its line any more.
-/

namespace SystemsProgramming.MtlsChat

open Foundations

/-- The most that a TLS record holds. -/
def maxPlaintext : Nat := 16384

/-- The buffers of the programs have room for every record, and what they send fits into one. -/
theorem maxPlaintext_eq : maxPlaintext = tlsRecordSize := rfl

/-- A call, and which client it concerns: the one that `accept` or `SSL_accept` connects, that the server
writes to or reads from, or whose message the server shows. -/
inductive Event where
  | server (c : Server.Call) (peer : Nat)
  | client (i : Nat) (c : Client.Call)
  deriving DecidableEq

/-- The server's calls. -/
def Event.serverCall : Event → Option Server.Call
  | .server c _ => some c
  | .client _ _ => none

/-- The calls of client `i`. -/
def Event.clientCall (i : Nat) : Event → Option Client.Call
  | .server _ _ => none
  | .client j c => if j = i then some c else none

/-! ## The connections -/

/-- How far the connection of a client has got on the side of the server. -/
inductive Stage where
  | waiting
  | accepted
  | secured
  deriving DecidableEq

/-- The connection of a client: `up` is what it sends, `down` what it is sent. -/
structure Link where
  stage : Stage
  up : RecordLine UInt8 maxPlaintext
  down : RecordLine UInt8 maxPlaintext

/-- The connections, and how the server gets at them. -/
structure Network where
  /-- whose connection a descriptor is -/
  conn : Int → Option Nat
  /-- the descriptor that an SSL object is bound to -/
  bound : Ssl → Option Int
  /-- the client that an SSL object has a session with -/
  peer : Ssl → Option Nat
  /-- the client whose data the buffer of `monitor` holds -/
  reading : Option Nat
  link : Nat → Link

/-- Change one connection. -/
def Network.setLink (n : Network) (i : Nat) (l : Link) : Network :=
  { n with link := Function.update n.link i l }

/-- The server makes a call. A handshake can only succeed with the client whose connection the object is
bound to. Without a session `SSL_write` fails, and nothing can be read. -/
def Network.serverStep (n : Network) : Server.Call → Nat → Option Network
  | .accept fd, i =>
    if n.conn fd = none ∧ (n.link i).stage = .waiting then
      some { n.setLink i { n.link i with stage := .accepted } with
        conn := Function.update n.conn fd (some i) }
    else none
  | .close fd, _ => some { n with conn := Function.update n.conn fd none }
  | .sslSetFd (some o) fd ret, _ =>
    if ret = 0 then some n else some { n with bound := Function.update n.bound o (some fd) }
  | .sslAccept (some o) ret, i =>
    if ret ≤ 0 then some n
    else if (n.bound o).bind n.conn = some i ∧ (n.link i).stage = .accepted then
      some { n.setLink i { n.link i with stage := .secured } with
        peer := Function.update n.peer o (some i) }
    else none
  | .sslFree _ (some o), _ =>
    some { n with
      bound := Function.update n.bound o none
      peer := Function.update n.peer o none }
  | .sslWrite _ (some o) data ret, i =>
    if n.peer o = some i then
      some (n.setLink i { n.link i with down := (n.link i).down.write data ret })
    else if n.peer o = none ∧ ret ≤ 0 then some n
    else none
  | .sslRead _ (some o) ret, i =>
    if ret ≤ 0 then some n
    else if n.peer o = some i then
      ((n.link i).up.read tlsRecordSize ret).map fun up =>
        { n.setLink i { n.link i with up := up } with reading := some i }
    else none
  | .writeStdout data, i =>
    if n.reading = some i then
      ((n.link i).up.emit data).map fun up =>
        { n.setLink i { n.link i with up := up } with reading := none }
    else none
  | .setNonblock _, _ | .sslNew _, _ | .sslSetFd none _ _, _ | .sslAccept none _, _ | .sslShutdown _ _, _
  | .sslFree _ none, _ | .sslWrite _ none _ _, _ | .sslRead _ none _, _ | .readStdin _, _ | .printf _, _
  | .fprintfStderr _, _ | .perror _, _ | .errPrintErrors, _ => some n

/-- Client `i` makes a call. -/
def Network.clientStep (n : Network) (i : Nat) : Client.Call → Option Network
  | .sslWrite data ret => some (n.setLink i { n.link i with up := (n.link i).up.write data ret })
  | .sslRead ret =>
    ((n.link i).down.read tlsRecordSize ret).map fun down => n.setLink i { n.link i with down := down }
  | .writeStdout data =>
    ((n.link i).down.emit data).map fun down => n.setLink i { n.link i with down := down }
  | .readStdin _ | .printf _ | .errPrintErrors | .exit _ => some n

/-- One step. -/
def Network.step (n : Network) : Event → Option Network
  | .server c i => n.serverStep c i
  | .client i c => n.clientStep i c

/-- The clients wait to be accepted. -/
def Network.initial : Network where
  conn _ := none
  bound _ := none
  peer _ := none
  reading := none
  link _ := ⟨.waiting, .empty, .empty⟩

/-! ## Runs -/

/-- What the outside, the connections apart, does in a run. -/
structure Setting where
  socketFd : Int
  stack : Nat → Pollfd
  nonblock : Int → Bool
  answers : List Server.Answers
  clientFd : Nat → Int
  clients : Nat → List Client.Answers

/-- The variables of the server before its poll loop. -/
def Setting.initial (e : Setting) : Server.Vars := Server.initial e.socketFd e.stack e.nonblock

/-- The calls of the server. -/
def Setting.serverTrace (e : Setting) : List Server.Call := (Server.pollLoop e.answers).calls e.initial

/-- The calls of client `i`. -/
def Setting.clientTrace (e : Setting) (i : Nat) : List Client.Call :=
  (Client.pollLoop (e.clients i)).calls (Client.initial (e.clientFd i))

/-- A run of the system that leads to the state `n` of the connections. Every program has made some of its
calls, in their order. What the server gets from `accept` and `SSL_new` is not in use. -/
structure Run (e : Setting) (evs : List Event) (n : Network) : Prop where
  server : evs.filterMap Event.serverCall <+: e.serverTrace
  client : ∀ i, evs.filterMap (Event.clientCall i) <+: e.clientTrace i
  network : replay Network.step .initial evs = some n
  fresh : Prog.AllSteps Server.iteration Server.Fresh [] e.initial e.answers

/-! ## What the users see -/

/-- The messages that the server's user types. -/
def said (evs : List Event) : List (List UInt8) :=
  evs.filterMap fun
    | .server (.readStdin red) _ => received red
    | _ => none

/-- The handshake of client `i` succeeds. -/
def secures (i : Nat) : Event → Bool
  | .server (.sslAccept (some _) ret) j => 0 < ret ∧ j = i
  | _ => false

/-- Those that come after the handshake of client `i`. -/
def saidSince (i : Nat) (evs : List Event) : List (List UInt8) := said (since (secures i) evs)

/-- The messages of client `i` that the server shows, each as it is written to standard output. -/
def heard (i : Nat) (evs : List Event) : List (List UInt8) :=
  evs.filterMap fun
    | .server (.writeStdout data) j => if j = i then some data else none
    | _ => none

/-- The message that a call of a client reads from standard input. -/
def Client.Call.typed : Client.Call → Option (List UInt8)
  | .readStdin red => received red
  | _ => none

/-- The message that a call of a client writes to standard output. -/
def Client.Call.shown : Client.Call → Option (List UInt8)
  | .writeStdout data => some data
  | _ => none

/-- The messages that the user of client `i` types. -/
def typed (i : Nat) (evs : List Event) : List (List UInt8) :=
  (evs.filterMap (Event.clientCall i)).filterMap Client.Call.typed

/-- The messages that client `i` shows. -/
def shown (i : Nat) (evs : List Event) : List (List UInt8) :=
  (evs.filterMap (Event.clientCall i)).filterMap Client.Call.shown

/-- No `SSL_write` of the server to client `i` has failed. -/
def DownIntact (i : Nat) (evs : List Event) : Prop :=
  ∀ slot o data ret, .server (.sslWrite slot o data ret) i ∈ evs → 0 < ret

/-- No `SSL_write` of client `i` has failed. -/
def UpIntact (i : Nat) (evs : List Event) : Prop := ∀ data ret, .client i (.sslWrite data ret) ∈ evs → 0 < ret

/-- The server has found no client gone. -/
def AllThere (evs : List Event) : Prop := ∀ slot o j, .server (.sslFree (.monitor slot) o) j ∉ evs

end SystemsProgramming.MtlsChat
