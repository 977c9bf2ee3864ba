import SystemsProgramming.Foundations.Runs
import SystemsProgramming.HttpServer.Server

/-!
# The HTTP server with its clients (`http-server/main.c`)

The accept loop of `main`, the handlers and the clients as a transition system. A client connects, sends,
closes its side and resets the connection when it likes. There is always memory. A `send` on a connection
that the client has reset raises `SIGPIPE`, also when it has handed over a part of the response before;
`main` leaves the default action in place, which ends the process. A `send` may also return early, with
what it has handed over or with an error, and a `recv` may be interrupted: `signal_handler` is installed
without `SA_RESTART`. The handler then closes the connection.
-/

namespace SystemsProgramming.HttpServer

open Foundations

/-! ## One connection -/

/-- How far the server has got with a connection: the client has not connected, it waits in the backlog,
`accept` has returned it, its handler is before `recv`, or has this to send, or the server has closed
it. -/
inductive Stage where
  | unused
  | queued
  | accepted
  | receiving
  | sending (rest : List UInt8)
  | closed
  deriving DecidableEq

/-- A connection: what has arrived and has not been received, whether the client has closed its side or
reset it, and what the server has sent. -/
structure Connection where
  stage : Stage
  arrived : List UInt8
  finished : Bool
  reset : Bool
  sent : List UInt8

/-- What happens to a connection. The first four are the client's. -/
inductive Event where
  | connect
  | arrive (data : List UInt8)
  | finish
  | reset
  /-- `accept` returns it -/
  | accept
  /-- `pthread_create`, and whether it succeeds -/
  | create (success : Bool)
  /-- `recv` returns so many bytes, and the handler goes on up to its `send` -/
  | recv (len : Nat)
  /-- `recv` returns 0, or fails as the connection has been reset -/
  | recvEnds
  /-- `recv` fails without that: it was interrupted -/
  | recvFails
  /-- `send` hands over so many bytes, or raises `SIGPIPE` -/
  | send (len : Nat)
  /-- `send` returns before all is handed over: it was interrupted, or it failed without a signal -/
  | sendEnds
  deriving DecidableEq

/-- What becomes of the process. -/
inductive Process where
  | running
  | returned
  | killed
  | undefined
  deriving DecidableEq

/-- The handler between `recv` and `send`: the stage that it reaches, and the process. The string in
`buffer` has to end inside it. -/
def respond (env : Env) (chunk : List UInt8) : Stage × Process :=
  if bufferSize ≤ (cString (env.buffer chunk)).length then (.closed, .undefined)
  else
    match handler env [chunk] with
    | .nothing => (.closed, .running)
    | .overflow => (.closed, .undefined)
    | .sent response => (.sending response, .running)

/-- What an event does to a connection, and to the process. -/
def Connection.step (env : Env) (c : Connection) : Event → Option (Connection × Process)
  | .connect =>
    if c.stage = .unused then some ({ c with stage := .queued }, .running) else none
  | .arrive data =>
    if c.stage = .unused ∨ c.finished = true ∨ c.reset = true then none
    else some ({ c with arrived := c.arrived ++ data }, .running)
  | .finish => if c.stage = .unused then none else some ({ c with finished := true }, .running)
  | .reset => if c.stage = .unused then none else some ({ c with reset := true }, .running)
  | .accept => if c.stage = .queued then some ({ c with stage := .accepted }, .running) else none
  | .create success =>
    if c.stage = .accepted then
      some ({ c with stage := if success then .receiving else .closed }, .running)
    else none
  | .recv len =>
    if c.stage = .receiving ∧ 0 < len ∧ len ≤ c.arrived.length ∧ len ≤ bufferSize then
      some ({ c with
        stage := (respond env (c.arrived.take len)).1
        arrived := c.arrived.drop len }, (respond env (c.arrived.take len)).2)
    else none
  | .recvEnds =>
    if c.stage = .receiving ∧ (c.reset = true ∨ (c.finished = true ∧ c.arrived = [])) then
      some ({ c with stage := .closed }, .running)
    else none
  | .recvFails =>
    if c.stage = .receiving then some ({ c with stage := .closed }, .running) else none
  | .send len =>
    match c.stage with
    | .sending rest =>
      if c.reset then some (c, .killed)
      else if 0 < len ∧ len ≤ rest.length then
        some ({ c with
          stage := if len = rest.length then .closed else .sending (rest.drop len)
          sent := c.sent ++ rest.take len }, .running)
      else none
    | _ => none
  | .sendEnds =>
    match c.stage with
    | .sending _ => some ({ c with stage := .closed }, .running)
    | _ => none

/-! ## The process -/

/-- Where `main` is: in `accept`, or before the `pthread_create` for this connection. -/
inductive Main where
  | accepting
  | creating (i : Nat)
  deriving DecidableEq

/-- `errno` of an `accept` that fails. -/
inductive Errno where
  | eintr
  | other
  deriving DecidableEq

/-- The process, its `keep_running`, and all connections there ever will be. -/
structure State where
  process : Process
  main : Main
  keepRunning : Bool
  connections : Nat → Connection

/-- What happens. -/
inductive Action where
  | event (i : Nat) (e : Event)
  | acceptFails (errno : Errno)
  /-- the user sends `SIGINT` -/
  | interrupt
  deriving DecidableEq

/-- The condition of the accept loop. -/
def State.loopHead (s : State) : State :=
  if s.keepRunning then { s with main := .accepting } else { s with process := .returned }

/-- The event is not one of the accept loop, or it is the one that is due. -/
def State.Due (s : State) (i : Nat) : Event → Prop
  | .accept => s.main = .accepting
  | .create _ => s.main = .creating i
  | _ => True

instance (s : State) (i : Nat) (e : Event) : Decidable (s.Due i e) := by
  unfold State.Due
  split <;> infer_instance

/-- How the accept loop goes on after an event. -/
def State.goOn (s : State) (i : Nat) : Event → State
  | .accept => { s with main := .creating i }
  | .create _ => s.loopHead
  | _ => s

/-- One step. The outside of each handler is given by `envs`. -/
def step (envs : Nat → Env) (s : State) : Action → Option State
  | .event i e =>
    if s.process = .running ∧ s.Due i e then
      ((s.connections i).step (envs i) e).map fun r =>
        { s with process := r.2, connections := Function.update s.connections i r.1 }.goOn i e
    else none
  | .acceptFails errno =>
    if s.process = .running ∧ s.main = .accepting ∧ (errno = .eintr → s.keepRunning = false) then
      some (if errno = .eintr then { s with process := .returned } else s.loopHead)
    else none
  | .interrupt => if s.process = .running then some { s with keepRunning := false } else none

/-- A connection that no client has made yet. -/
def Connection.fresh : Connection where
  stage := .unused
  arrived := []
  finished := false
  reset := false
  sent := []

/-- The server when it listens. -/
def initial : State where
  process := .running
  main := .accepting
  keepRunning := true
  connections := fun _ => .fresh

end SystemsProgramming.HttpServer
