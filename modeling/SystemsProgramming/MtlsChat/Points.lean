import SystemsProgramming.MtlsChat.Server
import Mathlib.Order.Interval.Finset.Nat

/-!
# `poll_loop` one assignment at a time

The iteration of `Server` as a machine that stops between any two assignments to the arrays and to
`nfds`, also inside of `tcp_accept_function`, `broadcast` and `monitor`. Every step may get answers of
its own: a run of `poll_loop` is among the runs of the machine.
-/

namespace SystemsProgramming.MtlsChat.Server

open Foundations Prog

/-- Where the control of `poll_loop` is. -/
inductive Point where
  /-- the head of the `for (;;)` -/
  | head
  /-- behind `poll` -/
  | polled
  /-- in `tcp_accept_function`, where slot `i` has got the new descriptor -/
  | filled (i : Nat)
  /-- behind `tcp_accept_function`, with `i` for `out_index` -/
  | connected (i : Nat)
  /-- behind a `tls_accept_function` that has returned `1` -/
  | failed (i : Nat)
  /-- the `nfds--` of `poll_loop` -/
  | dropped
  /-- behind the first job -/
  | serving
  /-- the head of the loop of `broadcast` -/
  | broadcasting (i : Nat)
  /-- behind the second job -/
  | clients
  /-- the head of the loop over the clients -/
  | monitoring (i : Nat)
  /-- the `(*nfds)--` of `monitor` -/
  | released (i : Nat)
  deriving DecidableEq

/-- The new descriptor in slot `i`, after the calls of `fcntl`. -/
def Vars.fillSlot (v : Vars) (i : Nat) (fd : Int) : Vars :=
  { v with
    fds := Function.update v.fds i ⟨fd, POLLIN, 0⟩
    nonblock := Function.update v.nonblock fd true }

/-- `fds[i].fd = -1` -/
def Vars.clearFd (v : Vars) (i : Nat) : Vars :=
  { v with fds := Function.update v.fds i { v.fds i with fd := -1 } }

/-- `ssls[i] = NULL` -/
def Vars.clearSsl (v : Vars) (i : Nat) : Vars := { v with ssls := Function.update v.ssls i none }

/-- Up to the next point. -/
def step (a : Answers) : Point × Vars → Point × Vars
  | (.head, v) => (.polled, v.polled a)
  | (.polled, v) =>
    if 0 < a.numberRevents ∧ (v.fds 0).readable then
      if a.accept < 0 then (.head, v)
      else
        match freeSlot v.fds with
        | some i => (.filled i, v.fillSlot i a.accept)
        | none => (.head, { v with nonblock := Function.update v.nonblock a.accept false })
    else (.serving, v)
  | (.filled i, v) => (.connected i, { v with nfds := if v.nfds ≤ i then i + 1 else v.nfds })
  | (.connected i, v) =>
    if (tlsAcceptFunction a i).value v = 1 then (.failed i, (tlsAcceptFunction a i).final v)
    else (.serving, (tlsAcceptFunction a i).final v)
  | (.failed i, v) => (.dropped, v.clearFd i)
  | (.dropped, v) => (.head, { v with nfds := v.nfds - 1 })
  | (.serving, v) =>
    if 0 < a.numberRevents ∧ (v.fds 1).readable then
      match (readServer a).value v with
      | none => (.head, v)
      | some _ => (.broadcasting 2, v)
    else (.clients, v)
  | (.broadcasting i, v) => if i < v.nfds then (.broadcasting (i + 1), v) else (.clients, v)
  | (.clients, v) => if 0 < a.numberRevents then (.monitoring 2, v) else (.head, v)
  | (.monitoring i, v) =>
    if i < v.nfds then
      if (v.fds i).fd ≠ -1 ∧ (v.fds i).readable ∧ (a.sslRead i).ret ≤ 0 then
        match (a.sslRead i).error with
        | .wantRead | .wantWrite => (.monitoring (i + 1), v)
        | .zeroReturn | .syscall | .ssl | .other => (.released i, (v.clearSsl i).clearFd i)
      else (.monitoring (i + 1), v)
    else (.head, v)
  | (.released i, v) => (.monitoring (i + 1), { v with nfds := v.nfds - 1 })

/-- One step for each of the answers. -/
def steps (answers : List Answers) (s : Point × Vars) : Point × Vars :=
  answers.foldl (fun s a => step a s) s

/-- The entries of `fds` and `ssls` that the code reads or writes on its way to the next point. -/
def touched : Point × Vars → List Nat
  | (.head, v) => List.range v.nfds
  | (.polled, _) => 0 :: List.range' 2 (maxClients - 2)
  | (.connected i, _) | (.failed i, _) => [i]
  | (.serving, _) => [1]
  | (.broadcasting i, v) | (.monitoring i, v) => if i < v.nfds then [i] else []
  | (.filled _, _) | (.dropped, _) | (.clients, _) | (.released _, _) => []

/-- The client slots in use. -/
def Vars.occupiedSlots (v : Vars) : Finset Nat := (Finset.range maxClients).filter fun i => v.Occupied i

end SystemsProgramming.MtlsChat.Server
