import SystemsProgramming.TcpSuite.Client
import SystemsProgramming.TcpSuite.Proofs.OutputProofs

/-!
# Proofs: client and server pass on what they read

The client reads nothing more before it has written what it read last, to the other side of where it
came from. The server does the same with what its clients send, until a `read` on a client fails.
-/

namespace SystemsProgramming.TcpSuite

open Foundations Prog

namespace Client

/-- What the client has read and not written yet, or that it has closed the connection. -/
inductive Hand where
  | empty
  | forStdout (data : List UInt8)
  | forSocket (data : List UInt8)
  | gone
  deriving DecidableEq

/-- What is for standard output. -/
def Hand.down : Hand → List UInt8
  | .forStdout data => data
  | _ => []

/-- What is for the socket. -/
def Hand.up : Hand → List UInt8
  | .forSocket data => data
  | _ => []

/-- The calls of a client that passes on what it reads. -/
def relayNext : Hand → Call → Option Hand
  | .empty, .readSocket _ red => some ((received red).elim .empty .forStdout)
  | .empty, .readStdin red => some ((received red).elim .empty .forSocket)
  | .empty, .close _ => some .gone
  | .empty, .socket _ | .empty, .connect _ _ _ | .empty, .perror _ | .empty, .stderr _ => some .empty
  | .forStdout data, .writeStdout data' => if data = data' then some .empty else none
  | .forSocket data, .writeSocket _ data' => if data = data' then some .empty else none
  | _, _ => none

/-- What such a client may do: read when its hand is empty, write what it holds, close, or make a call
without data. -/
theorem relayNext_cases {hand hand' : Hand} {c : Call} (h : relayNext hand c = some hand') :
    (∃ fd red, c = .readSocket fd red ∧ hand = .empty ∧
      hand' = (received red).elim .empty .forStdout) ∨
    (∃ red, c = .readStdin red ∧ hand = .empty ∧ hand' = (received red).elim .empty .forSocket) ∨
    (∃ data, c = .writeStdout data ∧ hand = .forStdout data ∧ hand' = .empty) ∨
    (∃ fd data, c = .writeSocket fd data ∧ hand = .forSocket data ∧ hand' = .empty) ∨
    (∃ fd, c = .close fd ∧ hand = .empty ∧ hand' = .gone) ∨
    (hand = .empty ∧ hand' = .empty ∧ ((∃ ret, c = .socket ret) ∨
      (∃ fd server ret, c = .connect fd server ret) ∨ (∃ text, c = .perror text) ∨
      ∃ text, c = .stderr text)) := by
  cases hand with
  | empty =>
    cases c with
    | writeStdout data => cases h
    | writeSocket fd data => cases h
    | _ =>
      cases h
      simp
  | forStdout data =>
    cases c with
    | writeStdout data' =>
      simp only [relayNext, Option.ite_none_right_eq_some, Option.some.injEq] at h
      obtain ⟨rfl, rfl⟩ := h
      simp
    | _ => cases h
  | forSocket data =>
    cases c with
    | writeSocket fd data' =>
      simp only [relayNext, Option.ite_none_right_eq_some, Option.some.injEq] at h
      obtain ⟨rfl, rfl⟩ := h
      simp
    | _ => cases h
  | gone => cases c <;> cases h

/-- What a `read` returns is then in the hand. -/
theorem down_elim_received (red : Option (List UInt8)) :
    ((received red).elim Hand.empty .forStdout).down = red.getD [] := by
  rcases red with _ | (_ | ⟨b, bs⟩) <;> rfl

theorem up_elim_received (red : Option (List UInt8)) :
    ((received red).elim Hand.empty .forSocket).up = red.getD [] := by
  rcases red with _ | (_ | ⟨b, bs⟩) <;> rfl

theorem up_elim_received_forStdout (red : Option (List UInt8)) :
    ((received red).elim Hand.empty .forStdout).up = [] := by
  rcases red with _ | (_ | ⟨b, bs⟩) <;> rfl

theorem down_elim_received_forSocket (red : Option (List UInt8)) :
    ((received red).elim Hand.empty .forSocket).down = [] := by
  rcases red with _ | (_ | ⟨b, bs⟩) <;> rfl

variable {inetAddr : CStr → UInt32} {atoi : CStr → Int} {socketFd : Int} {a : Answers} {o : Outside}

theorem take_filled {buffer : List UInt8} {red : Option (List UInt8)} {chunk : List UInt8}
    (h : received red = some chunk) : (Server.filled buffer red).take chunk.length = chunk := by
  rw [Server.received_eq_some h]
  exact List.take_left

/-- What a `read` has returned is written, or there was nothing. -/
theorem passOn_relays {red : Option (List UInt8)} {write : List UInt8 → Call}
    (hand : List UInt8 → Hand)
    (hwrite : ∀ data, relayNext (hand data) (write data) = some .empty) :
    Triple relayNext (fun _ h => h = (received red).elim .empty hand) (passOn red write)
      fun _ _ h => h = .empty := by
  refine Triple.bind (Q := fun _ v h => h = (received red).elim .empty hand ∧
    ∀ chunk, received red = some chunk → v.buffer.take chunk.length = chunk)
    (Triple.modify fun v h hh => ⟨hh, fun chunk hc => take_filled hc⟩) fun _ => ?_
  cases hr : received red with
  | none =>
    exact Triple.bind (Q := fun _ _ h => h = .empty)
      (Triple.call fun v h hh => ⟨.empty, by rw [hh.1]; rfl, rfl⟩) fun _ => Triple.pure fun _ _ => id
  | some chunk =>
    refine Triple.get fun v => Triple.bind (Q := fun _ _ h => h = .empty)
      (Triple.call fun u h hh => ?_) fun _ => Triple.pure fun _ _ => id
    obtain ⟨⟨rfl, htake⟩, rfl⟩ := hh
    exact ⟨.empty, by rw [htake chunk rfl]; exact hwrite chunk, rfl⟩

theorem readServer_relays :
    Triple relayNext (fun _ h => h = .empty) (readServer socketFd a) fun _ _ h => h = .empty := by
  refine Triple.get fun v => Triple.ite (fun _ => ?_) fun _ => Triple.pure fun _ _ h => h.1
  exact Triple.bind (Triple.call fun u h hh => ⟨_, by rw [hh.1]; rfl, rfl⟩) fun _ =>
    passOn_relays .forStdout fun data => if_pos rfl

theorem readUser_relays :
    Triple relayNext (fun _ h => h = .empty) (readUser socketFd a) fun _ _ h => h = .empty := by
  refine Triple.get fun v => Triple.ite (fun _ => ?_) fun _ => Triple.pure fun _ _ h => h.1
  exact Triple.bind (Triple.call fun u h hh => ⟨_, by rw [hh.1]; rfl, rfl⟩) fun _ =>
    passOn_relays .forSocket fun data => if_pos rfl

theorem iteration_relays :
    Triple relayNext (fun _ h => h = .empty) (iteration socketFd a) fun _ _ h => h = .empty := by
  refine Triple.bind (Q := fun _ _ h => h = .empty) (Triple.modify fun _ _ => id) fun _ =>
    Triple.bind readServer_relays fun r => ?_
  cases r with
  | none => exact readUser_relays
  | some ret => exact Triple.pure fun _ _ => id

theorem readaw_relays (as : List Answers) :
    Triple relayNext (fun _ h => h = .empty) (readaw socketFd as) fun _ _ h => h = .empty := by
  refine (Triple.untilReturn (R := fun _ _ h => h = .empty) fun a _ => iteration_relays.post ?_).post ?_
  all_goals
    intro r v h hh
    cases r <;> exact hh

/-- Wherever a client ends, it has nothing in its hand. -/
theorem main_relays :
    Triple relayNext (fun _ h => h = .empty) (main inetAddr atoi o)
      fun _ _ h => h = .empty ∨ h = .gone := by
  have hcall : ∀ c, relayNext .empty c = some .empty →
      Triple relayNext (fun _ h => h = .empty) (call c : Prog Vars Call Unit) fun _ _ h => h = .empty :=
    fun c hc => Triple.call fun _ h hh => ⟨.empty, by rw [hh]; exact hc, rfl⟩
  have hreturn : ∀ r : Option Int, Triple relayNext (fun (_ : Vars) h => h = .empty)
      (pure r : Prog Vars Call (Option Int)) fun _ _ h => h = .empty ∨ h = .gone :=
    fun r => Triple.pure fun _ _ => Or.inl
  have hclose : ∀ fd r, Triple relayNext (fun _ h => h = .empty)
      (call (.close fd) >>= fun _ => pure r : Prog Vars Call (Option Int))
      fun _ _ h => h = .empty ∨ h = .gone := fun fd r =>
    Triple.bind (Q := fun _ _ h => h = .gone)
      (Triple.call fun _ h hh => ⟨.gone, by rw [hh]; rfl, rfl⟩) fun _ => Triple.pure fun _ _ => Or.inr
  unfold main
  split
  · refine Triple.bind (hcall _ rfl) fun _ => Triple.ite (fun _ => ?_) fun _ => ?_
    · exact Triple.bind (hcall _ rfl) fun _ => hreturn _
    · refine Triple.bind (Q := fun _ _ h => h = .empty) ?_ fun ret => Triple.ite (fun _ => ?_)
        fun _ => hclose _ _
      · refine Triple.bind (hcall _ rfl) fun _ => Triple.ite (fun _ => ?_) fun _ =>
          Triple.pure fun _ _ => id
        exact Triple.bind (hcall _ rfl) fun _ => Triple.pure fun _ _ => id
      · refine Triple.bind (readaw_relays _) fun r => ?_
        cases r with
        | none => exact hreturn _
        | some ret => exact hclose _ _
  · exact Triple.bind (hcall _ rfl) fun _ => hreturn _

theorem trace_relays (inetAddr : CStr → UInt32) (atoi : CStr → Int) (o : Outside) :
    ∃ h, replay relayNext .empty (trace inetAddr atoi o) = some h ∧ (h = .empty ∨ h = .gone) :=
  main_relays _ _ rfl

end Client

namespace Server

/-- What the server has read from a client and not printed yet, until a `read` on a client fails. -/
inductive Console where
  | idle
  | holding (data : List UInt8)
  | failed
  deriving DecidableEq

/-- The calls of a server that prints what it reads from its clients. -/
def printNext : Console → Call → Option Console
  | .failed, _ => some .failed
  | .idle, .read _ (some data) => some (.holding data)
  | .idle, .read _ none => some .failed
  | .idle, .fwrite _ _ => none
  | .holding _, .read _ _ => none
  | .holding data, .fwrite _ data' => if data = data' then some .idle else none
  | c, _ => some c

/-- After a `read` that failed anything goes. Before one, what is read is printed next. -/
theorem printNext_cases {c c' : Console} {d : Call} (h : printNext c d = some c') :
    (c = .failed ∧ c' = .failed) ∨ (∃ fd, d = .read fd none ∧ c' = .failed) ∨
    (∃ fd data, d = .read fd (some data) ∧ c = .idle ∧ c' = .holding data) ∨
    (∃ size data, d = .fwrite size data ∧ c = .holding data ∧ c' = .idle) ∨
    (c' = c ∧ d.fwritten = [] ∧ d.fromClient = []) := by
  cases c with
  | failed =>
    cases h
    exact Or.inl ⟨rfl, rfl⟩
  | idle =>
    cases d with
    | read fd red =>
      cases red <;> cases h <;> simp
    | fwrite size data => cases h
    | _ =>
      cases h
      simp [Call.fwritten, Call.fromClient]
  | holding data =>
    cases d with
    | read fd red => cases h
    | fwrite size data' =>
      simp only [printNext, Option.ite_none_right_eq_some, Option.some.injEq] at h
      obtain ⟨rfl, rfl⟩ := h
      simp
    | _ =>
      cases h
      simp [Call.fwritten, Call.fromClient]

/-- Nothing is left to print, or a `read` has failed. -/
def Console.Settled (c : Console) : Prop := c = .idle ∨ c = .failed

variable {socketFd : Int} {a : Answers} {u v : Vars} {c : Console}

theorem printNext_failed (cs : List Call) : replay printNext .failed cs = some .failed :=
  replay_same fun c _ => by cases c <;> rfl

theorem replay_silent {cs : List Call} (hc : c.Settled)
    (hout : ∀ d ∈ cs, ∀ size data, d ≠ .fwrite size data) (hin : ∀ d ∈ cs, ∀ fd red, d ≠ .read fd red) :
    replay printNext c cs = some c := by
  rcases hc with rfl | rfl
  · refine replay_same fun d hd => ?_
    cases d with
    | fwrite size data => exact absurd rfl (hout _ hd size data)
    | read fd red => exact absurd rfl (hin _ hd fd red)
    | _ => rfl
  · exact printNext_failed cs

theorem roundCalls_prints (buffer : List UInt8) (i : Nat) (hc : c.Settled) :
    ∃ c', replay printNext c (roundCalls a v buffer i) = some c' ∧ c'.Settled := by
  rcases hc with rfl | rfl
  · rw [roundCalls]
    split_ifs
    · cases read bufferSize (a.read i) with
      | none => exact ⟨.failed, printNext_failed _, Or.inr rfl⟩
      | some data =>
        have hprint : (filled buffer (some data)).take (toSize (some data)) = data := List.take_left
        refine ⟨.idle, ?_, Or.inl rfl⟩
        cases data <;> simp [dueCalls, hprint, endCalls, printNext]
    · exact ⟨.idle, rfl, Or.inl rfl⟩
  · exact ⟨.failed, printNext_failed _, Or.inr rfl⟩

theorem iteration_prints (hc : c.Settled) :
    ∃ c', replay printNext c ((iteration socketFd a).calls v) = some c' ∧ c'.Settled := by
  have haccept : ∀ v, replay printNext c (acceptCalls a v) = some c := fun v => by
    unfold acceptCalls
    split_ifs <;> exact replay_silent hc (by simp) (by simp)
  by_cases hrun : v.running = true
  · rw [(iteration_running hrun).2]
    cases ha : accepted a (v.polled a) with
    | none =>
      rw [(acceptClient_of_not_accepted ha).2]
      exact ⟨c, replay_silent hc (by simp) (by simp), hc⟩
    | some u =>
      obtain ⟨-, buffers, hcalls⟩ := serve_spec socketFd a u
      have hbroadcast : replay printNext c (broadcastCalls a u) = some c := by
        refine replay_silent hc (fun d hd size data heq => ?_) fun d hd fd red heq => ?_ <;>
        · rcases broadcastCalls_spec hd with ⟨_, h⟩ | ⟨_, _, h⟩ | ⟨_, h⟩ <;> cases h.symm.trans heq
      have hround : ∀ i ∈ u.clientSlots, ∀ c, c.Settled → ∃ c',
          replay printNext c (roundCalls a u (buffers i) i) = some c' ∧ c'.Settled :=
        fun i _ c hc => roundCalls_prints (buffers i) i hc
      obtain ⟨c', h1, hc'⟩ := replay_flatMap hround hc
      have hleave : replay printNext c' (leaveCalls socketFd a u) = some c' := by
        refine replay_silent hc' (fun d hd size data heq => ?_) fun d hd fd red heq => ?_ <;>
        · rcases mem_leaveCalls hd with ⟨_, h⟩ | ⟨_, h⟩ <;> cases h.symm.trans heq
      refine ⟨c', ?_, hc'⟩
      rw [(acceptClient_of_accepted ha).2, hcalls, replay_append_some (haccept _),
        List.append_assoc, replay_append_some hbroadcast, replay_append_some h1, hleave]
  · rw [(iteration_stopped (by simpa using hrun)).2]
    exact ⟨c, rfl, hc⟩

theorem pollLoop_prints (socketFd : Int) (as : List Answers) (v : Vars) :
    ∃ c, replay printNext .idle ((pollLoop socketFd as).calls v) = some c ∧ c.Settled := by
  have hloop : Triple printNext (fun (_ : Vars) c => c.Settled) (pollLoop socketFd as)
      fun _ _ c => c.Settled := Triple.forEach fun a _ v c hc => iteration_prints hc
  exact hloop v .idle (Or.inl rfl)

end Server

end SystemsProgramming.TcpSuite
