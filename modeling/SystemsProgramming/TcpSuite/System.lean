import SystemsProgramming.Foundations.Channel
import SystemsProgramming.Foundations.Runs
import SystemsProgramming.TcpSuite.Client
import SystemsProgramming.TcpSuite.Proofs.OutputProofs

/-!
# The TCP server with its clients (`tcp-suite/`)

The programs and the network between them. Every call is a step of its own, so the calls of the server
and of the clients come in any order that the network allows. The network keeps two channels for every
client: what one side writes, the other reads in order. Any write may be taken in part only, or not at
all, and the programs do not look; the next write goes on behind it. A `read` may fail at any time.
-/

namespace SystemsProgramming.TcpSuite

open Foundations

/-- A call, with what the network decides in it: whose connection it is that `accept` returns or that the
server reads from, or how many bytes of a `write` are taken. -/
inductive Event where
  | server (c : Server.Call) (choice : Nat)
  | client (i : Nat) (c : Client.Call) (choice : Nat)
  deriving DecidableEq

/-- The server's calls. -/
def Event.serverCall : Event → Option Server.Call
  | .server c _ => some c
  | .client _ _ _ => none

/-- The calls of client `i`. -/
def Event.clientCall (i : Nat) : Event → Option Client.Call
  | .server _ _ => none
  | .client j c _ => if j = i then some c else none

/-! ## The network -/

/-- How far a client's connection has got. -/
inductive Stage where
  | unused
  | waiting
  | accepted
  deriving DecidableEq

/-- The connection of a client: `up` is what it sends, `down` what it is sent. -/
structure Link where
  stage : Stage
  up : Channel UInt8
  down : Channel UInt8
  /-- the client has closed it -/
  left : Bool

/-- The network: whose connection each descriptor of the server is, and the connections. -/
structure Network where
  peer : Int → Option Nat
  link : Nat → Link

/-- Change one connection. -/
def Network.setLink (n : Network) (i : Nat) (l : Link) : Network :=
  { n with link := Function.update n.link i l }

/-- The server makes a call. Reading and writing without a connection fails. -/
def Network.serverStep (n : Network) : Server.Call → Nat → Option Network
  | .accept fd, i =>
    if n.peer fd = none ∧ (n.link i).stage = .waiting then
      some { peer := Function.update n.peer fd (some i)
             link := Function.update n.link i { n.link i with stage := .accepted } }
    else none
  | .close fd, _ => some { n with peer := Function.update n.peer fd none }
  | .write fd data, taken =>
    some ((n.peer fd).elim n fun i =>
      n.setLink i { n.link i with down := (n.link i).down.write data taken })
  | .read fd (some data), i =>
    -- the end of the file is reached when the client has closed, and all it sent has been read
    if n.peer fd = some i ∧ (data = [] → (n.link i).left = true ∧ (n.link i).up.unread = []) then
      ((n.link i).up.read data).map fun up => n.setLink i { n.link i with up := up }
    else none
  | .read _ none, _ | .readStdin _, _ | .fwrite _ _, _ | .fflush, _ | .printf _, _ | .perror _, _ =>
    some n

/-- Client `i` makes a call. It may find that the connection has ended at any time. -/
def Network.clientStep (n : Network) (i : Nat) : Client.Call → Nat → Option Network
  | .connect _ _ ret, _ =>
    if ret = -1 then some n
    else if (n.link i).stage = .unused then
      some (n.setLink i { n.link i with stage := .waiting })
    else none
  | .readSocket _ (some data), _ =>
    ((n.link i).down.read data).map fun down => n.setLink i { n.link i with down := down }
  | .writeSocket _ data, taken =>
    some (n.setLink i { n.link i with up := (n.link i).up.write data taken })
  | .close _, _ => some (n.setLink i { n.link i with left := true })
  | .readSocket _ none, _ | .socket _, _ | .readStdin _, _ | .writeStdout _, _ | .perror _, _
  | .stderr _, _ => some n

/-- One step of the network. -/
def Network.step (n : Network) : Event → Option Network
  | .server c choice => n.serverStep c choice
  | .client i c choice => n.clientStep i c choice

/-- Nobody is connected. -/
def Network.initial : Network where
  peer _ := none
  link _ := ⟨.unused, .empty, .empty, false⟩

/-! ## Runs -/

/-- What the outside, the network apart, does in a run. -/
structure Setting where
  inetAddr : CStr → UInt32
  atoi : CStr → Int
  socketFd : Int
  stack : Nat → Pollfd
  answers : List Server.Answers
  clients : Nat → Client.Outside

/-- The calls of the server. -/
def Setting.serverTrace (e : Setting) : List Server.Call :=
  (Server.pollLoop e.socketFd e.answers).calls (Server.initial e.socketFd e.stack)

/-- The calls of client `i`. -/
def Setting.clientTrace (e : Setting) (i : Nat) : List Client.Call :=
  Client.trace e.inetAddr e.atoi (e.clients i)

/-- A run of the system that leads to the state `n` of the network. Every program has made some of its
calls, in their order, and need not make the others: `SIGPIPE` may end it in a write. The descriptors
that `accept` returns to the server are not open. -/
structure Run (e : Setting) (evs : List Event) (n : Network) : Prop where
  server : evs.filterMap Event.serverCall <+: e.serverTrace
  client : ∀ i, evs.filterMap (Event.clientCall i) <+: e.clientTrace i
  network : replay Network.step .initial evs = some n
  fresh : Prog.AllSteps (Server.iteration e.socketFd) (Server.Fresh e.socketFd) []
    (Server.initial e.socketFd e.stack) e.answers

/-! ## What the users see -/

/-- The chunks that the server reads from its standard input. -/
def said (evs : List Event) : List (List UInt8) :=
  evs.filterMap fun
    | .server (.readStdin red) _ => received red
    | _ => none

/-- Those that it reads after it has accepted client `i`. -/
def saidSince (i : Nat) : List Event → List (List UInt8)
  | [] => []
  | .server (.accept _) j :: evs => if j = i then said evs else saidSince i evs
  | _ :: evs => saidSince i evs

/-- What the server reads from the clients, each time with the client's number. -/
def messages (evs : List Event) : List (Nat × List UInt8) :=
  evs.filterMap fun
    | .server (.read _ (some data)) i => some (i, data)
    | _ => none

/-- What the server reads from client `i`. -/
def heard (i : Nat) (evs : List Event) : List UInt8 :=
  (messages evs).flatMap fun m => if m.1 = i then m.2 else []

/-- What the server prints of it. -/
def printed (evs : List Event) : List UInt8 :=
  (evs.filterMap Event.serverCall).flatMap Server.Call.fwritten

/-- What a call of a client writes to its standard output. -/
def Client.Call.shown : Client.Call → List UInt8
  | .writeStdout data => data
  | _ => []

/-- What a call of a client reads from its standard input. -/
def Client.Call.typed : Client.Call → List UInt8
  | .readStdin (some data) => data
  | _ => []

/-- What client `i` writes to its standard output. -/
def shown (i : Nat) (evs : List Event) : List UInt8 :=
  (evs.filterMap (Event.clientCall i)).flatMap Client.Call.shown

/-- What client `i` reads from its standard input. -/
def typed (i : Nat) (evs : List Event) : List UInt8 :=
  (evs.filterMap (Event.clientCall i)).flatMap Client.Call.typed

end SystemsProgramming.TcpSuite
