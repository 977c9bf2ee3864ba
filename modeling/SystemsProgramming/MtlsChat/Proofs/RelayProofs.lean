import SystemsProgramming.MtlsChat.System

/-!
# Proofs: client and server pass on what they read

After a `read` on its standard input that returns data the client hands exactly that to `SSL_write`, and
after an `SSL_read` that returns data it writes to standard output, before it does anything else. The
server writes to standard output after every such `SSL_read`, too.
-/

namespace SystemsProgramming.MtlsChat

open Foundations Prog

namespace Client

/-- What the client has to do before it does anything else: nothing, hand a message to `SSL_write`, or
write what `SSL_read` has put into the buffer. -/
inductive Hand where
  | empty
  | toSend (message : List UInt8)
  | toShow
  deriving DecidableEq

/-- The calls of a client that passes on what it reads. The messages fit into a record. -/
def relayNext : Hand → Call → Option Hand
  | .empty, .readStdin red => some ((received red).elim .empty .toSend)
  | .toSend message, .sslWrite data _ =>
    if data = message ∧ data ≠ [] ∧ data.length ≤ maxPlaintext then some .empty else none
  | .empty, .sslRead ret => some (if 0 < ret then .toShow else .empty)
  | .toShow, .writeStdout _ => some .empty
  | .empty, .printf _ | .empty, .errPrintErrors | .empty, .exit _ => some .empty
  | _, _ => none

/-- What such a client may do. -/
theorem relayNext_cases {hand hand' : Hand} {c : Call} (h : relayNext hand c = some hand') :
    (∃ red, c = .readStdin red ∧ hand = .empty ∧ hand' = (received red).elim .empty .toSend) ∨
    (∃ data ret, c = .sslWrite data ret ∧ hand = .toSend data ∧ data ≠ [] ∧
      data.length ≤ maxPlaintext ∧ hand' = .empty) ∨
    (∃ ret, c = .sslRead ret ∧ hand = .empty ∧ hand' = if 0 < ret then .toShow else .empty) ∨
    (∃ data, c = .writeStdout data ∧ hand = .toShow ∧ hand' = .empty) ∨
    (hand = .empty ∧ hand' = .empty ∧
      ((∃ text, c = .printf text) ∨ c = .errPrintErrors ∨ ∃ status, c = .exit status)) := by
  cases hand with
  | empty =>
    cases c with
    | sslWrite data ret => cases h
    | writeStdout data => cases h
    | _ =>
      cases h
      simp
  | toSend message =>
    cases c with
    | sslWrite data ret =>
      simp only [relayNext, Option.ite_none_right_eq_some, Option.some.injEq] at h
      obtain ⟨⟨rfl, hne, hfits⟩, rfl⟩ := h
      exact Or.inr (Or.inl ⟨data, ret, rfl, rfl, hne, hfits, rfl⟩)
    | _ => cases h
  | toShow =>
    cases c with
    | writeStdout data =>
      cases h
      simp
    | _ => cases h

variable {a : Answers}

/-- A call that is always allowed between two messages. -/
theorem call_relays {c : Call} (hc : relayNext .empty c = some .empty) :
    Triple relayNext (fun _ h => h = .empty) (call c : Prog Vars Call Unit) fun _ _ h => h = .empty :=
  Triple.call fun _ h hh => ⟨.empty, by rw [hh, hc], rfl⟩

theorem exit_relays (status : Int) :
    Triple relayNext (fun _ h => h = .empty) (exit status) fun _ _ h => h = .empty :=
  Triple.bind (call_relays rfl) fun _ => Triple.modify fun _ _ => id

theorem monitor_relays :
    Triple relayNext (fun _ h => h = .empty) (monitor a) fun _ _ h => h = .empty := by
  refine Triple.bind (Q := fun _ _ h => h = if 0 < a.sslRead.ret then .toShow else .empty)
    (Triple.call fun v h hh => ⟨_, by rw [hh]; rfl, rfl⟩) fun _ => Triple.ite (fun hret => ?_) fun hret => ?_
  · rw [if_neg (Int.not_lt.2 hret)]
    cases a.sslRead.error with
    | zeroReturn | syscall | ssl => exact Triple.bind (call_relays rfl) fun _ => exit_relays 1
    | wantRead | wantWrite => exact Triple.pure fun _ _ => id
    | other => exact Triple.bind (call_relays rfl) fun _ => exit_relays 1
  · rw [if_pos (Int.not_le.1 hret)]
    exact Triple.call fun v h hh => ⟨.empty, by rw [hh]; rfl, rfl⟩

theorem monitorServer_relays :
    Triple relayNext (fun _ h => h = .empty) (monitorServer a) fun _ _ h => h = .empty :=
  Triple.get fun _ => Triple.ite (fun _ => monitor_relays.pre fun _ _ h => h.1)
    fun _ => Triple.pure fun _ _ h => h.1

theorem serveStdin_relays :
    Triple relayNext (fun _ h => h = .empty) (serveStdin a) fun _ _ h => h = .empty := by
  refine Triple.get fun u => Triple.ite (fun _ => ?_) fun _ => monitorServer_relays.pre fun _ _ h => h.1
  refine Triple.bind (Q := fun r _ h => r = received (read tlsRecordSize a.stdin) ∧
    h = (received (read tlsRecordSize a.stdin)).elim .empty .toSend) ?_ fun r => ?_
  · refine Triple.bind (Q := fun _ _ h => h = (received (read tlsRecordSize a.stdin)).elim .empty .toSend)
      (Triple.call fun v h hh => ⟨_, by rw [hh.1]; rfl, rfl⟩) fun _ => Triple.pure fun v h hh => ⟨rfl, hh⟩
  · cases r with
    | none =>
      refine Triple.pure fun v h hh => ?_
      rw [hh.2, ← hh.1]
      rfl
    | some buffer =>
      refine Triple.bind (Q := fun _ _ h => h = .empty) (Triple.call fun v h hh => ?_)
        fun _ => monitorServer_relays
      have hbuffer := hh.1.symm
      refine ⟨.empty, ?_, rfl⟩
      rw [hh.2, hbuffer]
      exact if_pos ⟨rfl, received_ne_nil hbuffer, maxPlaintext_eq ▸ length_received_le hbuffer⟩

theorem iteration_relays :
    Triple relayNext (fun _ h => h = .empty) (iteration a) fun _ _ h => h = .empty :=
  Triple.get fun _ => Triple.ite
    (fun _ => Triple.bind (Q := fun _ _ h => h = .empty) (Triple.modify fun _ _ h => h.1)
      fun _ => serveStdin_relays)
    fun _ => Triple.pure fun _ _ h => h.1

/-- At the head of its loop a client has nothing left to pass on. -/
theorem pollLoop_relays (as : List Answers) (v : Vars) :
    replay relayNext .empty ((pollLoop as).calls v) = some .empty := by
  have hloop : Triple relayNext (fun (_ : Vars) h => h = .empty) (pollLoop as) fun _ _ h => h = .empty :=
    Triple.forEach fun a _ => iteration_relays
  obtain ⟨h, hreplay, rfl⟩ := hloop v .empty rfl
  exact hreplay

end Client

namespace Server

/-- The server has data of a client in the buffer of `monitor`. -/
abbrev Console := Bool

/-- The calls of a server that shows what it reads from its clients. -/
def showNext : Console → Call → Option Console
  | false, .sslRead _ _ ret => some (decide (0 < ret))
  | false, .writeStdout _ => none
  | true, .writeStdout _ => some false
  | true, _ => none
  | false, _ => some false

variable {a : Answers} {v : Vars}

theorem showNext_cases {b b' : Console} {c : Call} (h : showNext b c = some b') :
    (∃ slot o ret, c = .sslRead slot o ret ∧ b = false ∧ b' = decide (0 < ret)) ∨
    (∃ data, c = .writeStdout data ∧ b = true ∧ b' = false) ∨
    (b = false ∧ b' = false ∧ (∀ slot o ret, c ≠ .sslRead slot o ret) ∧ ∀ data, c ≠ .writeStdout data) := by
  cases b <;> cases c <;> cases h <;> simp

theorem showNext_of_setup {c : Call} (h : c.isSetup = true) : showNext false c = some false := by
  cases c <;> first | rfl | cases h

theorem call_shows {c : Call} (hc : showNext false c = some false) :
    Triple showNext (fun _ b => b = false) (call c : Prog Vars Call Unit) fun _ _ b => b = false :=
  Triple.call fun _ b hb => ⟨false, by rw [hb, hc], rfl⟩

theorem monitorError_shows (i : Nat) :
    Triple showNext (fun _ b => b = false) (monitorError i) fun _ _ b => b = false := by
  refine Triple.get fun u => Triple.bind ((call_shows rfl).pre fun _ _ h => h.1) fun _ => ?_
  refine Triple.bind (Q := fun _ _ b => b = false) (Triple.modify fun _ _ => id) fun _ => ?_
  refine Triple.bind (call_shows rfl) fun _ => ?_
  exact Triple.bind (Q := fun _ _ b => b = false) (Triple.modify fun _ _ => id) fun _ =>
    Triple.modify fun _ _ => id

theorem monitor_shows (i : Nat) :
    Triple showNext (fun _ b => b = false) (monitor a i) fun _ _ b => b = false := by
  have hcleanup : Triple showNext (fun _ b => b = false) (monitorCleanup i) fun _ _ b => b = false :=
    Triple.get fun u => Triple.bind ((call_shows rfl).pre fun _ _ h => h.1) fun _ => monitorError_shows i
  refine Triple.get fun u => Triple.bind (Q := fun _ _ b => b = decide (0 < (a.sslRead i).ret))
    (Triple.call fun v b hb => ⟨_, by rw [hb.1]; rfl, rfl⟩) fun _ => Triple.ite (fun hret => ?_)
    fun hret => ?_
  · rw [decide_eq_false (Int.not_lt.2 hret)]
    cases (a.sslRead i).error with
    | zeroReturn | other => exact Triple.bind (call_shows rfl) fun _ => hcleanup
    | syscall | ssl => exact Triple.bind (call_shows rfl) fun _ => monitorError_shows i
    | wantRead | wantWrite => exact Triple.pure fun _ _ => id
  · rw [decide_eq_true (Int.not_le.1 hret)]
    exact Triple.call fun v b hb => ⟨false, by rw [hb]; rfl, rfl⟩

theorem monitorClients_shows :
    Triple showNext (fun _ b => b = false) (monitorClients a) fun _ _ b => b = false := by
  rw [monitorClients_eq]
  refine Triple.ite (fun _ => Triple.get fun u => ?_) fun _ => Triple.pure fun _ _ => id
  refine Triple.pre (Triple.forBelow (fun i _ => ?_) _) fun _ _ h => h.1
  exact Triple.get fun _ => Triple.ite (fun _ => (monitor_shows i).pre fun _ _ h => h.1.1)
    fun _ => Triple.pure fun _ _ h => h.1.1

theorem broadcast_shows (buffer : List UInt8) :
    Triple showNext (fun _ b => b = false) (broadcast a buffer) fun _ _ b => b = false :=
  Triple.get fun _ => (Triple.forEach fun _ _ => Triple.get fun _ =>
    Triple.ite (fun _ => (call_shows rfl).pre fun _ _ h => h.1) fun _ => Triple.pure fun _ _ h => h.1).pre
      fun _ _ h => h.1

theorem serveStdin_shows :
    Triple showNext (fun _ b => b = false) (serveStdin a) fun _ _ b => b = false := by
  refine Triple.get fun u => Triple.ite (fun _ => ?_) fun _ => monitorClients_shows.pre fun _ _ h => h.1
  refine Triple.bind (Q := fun _ _ b => b = false)
    (Triple.bind ((call_shows rfl).pre fun _ _ h => h.1) fun _ => Triple.pure fun _ _ => id) fun r => ?_
  cases r with
  | none => exact Triple.pure fun _ _ => id
  | some buffer => exact Triple.bind (broadcast_shows buffer) fun _ => monitorClients_shows

theorem iteration_shows :
    Triple showNext (fun _ b => b = false) (iteration a) fun _ _ b => b = false := by
  intro v b hb
  subst hb
  have hsetup : ∀ cs : List Call, (∀ c ∈ cs, c.isSetup = true) → replay showNext false cs = some false :=
    fun cs hcs => replay_same fun c hc => showNext_of_setup (hcs c hc)
  cases hacc : accepted a (v.polled a) with
  | none => exact ⟨false, hsetup _ (iteration_of_not_accepted hacc).1, rfl⟩
  | some u =>
    obtain ⟨-, setup, hcalls, heq⟩ := iteration_of_accepted hacc
    obtain ⟨b, hserve, rfl⟩ := serveStdin_shows (a := a) u false rfl
    exact ⟨false, by rw [heq, replay_append_some (hsetup setup hcalls), hserve], rfl⟩

/-- At the head of its loop the server has nothing left to show. -/
theorem pollLoop_shows (as : List Answers) (v : Vars) :
    replay showNext false ((pollLoop as).calls v) = some false := by
  have hloop : Triple showNext (fun (_ : Vars) b => b = false) (pollLoop as) fun _ _ b => b = false :=
    Triple.forEach fun a _ => iteration_shows
  obtain ⟨b, hreplay, rfl⟩ := hloop v false rfl
  exact hreplay

end Server

end SystemsProgramming.MtlsChat
