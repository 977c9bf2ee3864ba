import SystemsProgramming.TcpSuite.Proofs.SlotsProofs

/-!
# Proofs: what the read loop of the TCP server does

The loop over the clients in one equation: which calls it makes for each slot, and what becomes of the
slot. No round looks at a slot other than its own, so the slots can be read off at the beginning of
the loop.
-/

namespace SystemsProgramming.TcpSuite.Server

open Foundations Prog

variable {socketFd : Int} {a : Answers} {u v : Vars} {i : Nat}

/-- The slot is read from when its turn comes. -/
def Vars.Due (v : Vars) (i : Nat) : Prop := (v.pollt i).fd ≠ -1 ∧ (v.pollt i).readable = true

instance (v : Vars) (i : Nat) : Decidable (v.Due i) := by
  unfold Vars.Due
  infer_instance

/-- The slot is read from, and the client is gone: an error, or the end of the file. -/
def Ended (a : Answers) (v : Vars) (i : Nat) : Prop :=
  v.Due i ∧ received (read bufferSize (a.read i)) = none

instance (a : Answers) (v : Vars) (i : Nat) : Decidable (Ended a v i) := by
  unfold Ended
  infer_instance

/-- The calls after a read that ended a client. -/
def endCalls (fd : Int) : Option (List UInt8) → List Call
  | none => [.perror "Read", .close fd]
  | some [] => [.printf "\n[client disconnected]\n", .close fd]
  | some (_ :: _) => []

/-- The calls of the round for a slot that is due, when the buffer holds `buffer` before it. -/
def dueCalls (fd : Int) (red : Option (List UInt8)) (buffer : List UInt8) : List Call :=
  .read fd red :: (endCalls fd red ++
    [.fwrite (toSize red) ((filled buffer red).take (toSize red)), .fflush])

/-- The calls of the round for slot `i`. -/
def roundCalls (a : Answers) (v : Vars) (buffer : List UInt8) (i : Nat) : List Call :=
  if v.Due i then dueCalls (v.pollt i).fd (read bufferSize (a.read i)) buffer else []

/-- The slots `is` once their rounds are over. -/
def Vars.served (a : Answers) (v : Vars) (is : List Nat) : Nat → Pollfd := fun i =>
  if i ∈ is ∧ Ended a v i then { v.pollt i with fd := -1 } else v.pollt i

theorem served_of_ended (h : Ended a v i) :
    v.served a [i] = Function.update v.pollt i { v.pollt i with fd := -1 } := by
  funext j
  by_cases hji : j = i
  · subst hji
    simp [Vars.served, h]
  · simp [Vars.served, hji]

theorem served_of_not_ended (h : ¬ Ended a v i) : v.served a [i] = v.pollt := by
  funext j
  have hj : ¬ (j ∈ [i] ∧ Ended a v j) := by
    rintro ⟨hj, hend⟩
    exact h (List.mem_singleton.1 hj ▸ hend)
  rw [Vars.served, if_neg hj]

/-- One round reads from the slot if it is due, and frees it if the client is gone. -/
theorem readClient_spec (a : Answers) (i : Nat) (v : Vars) :
    (∃ buffer, (readClient a i).final v =
      { v with pollt := v.served a [i], buffer := buffer }) ∧
    (readClient a i).calls v = roundCalls a v v.buffer i := by
  have hdisconnect : ∀ v, (disconnect i).final v = v.freed i := fun _ => rfl
  have hclose : ∀ v, (disconnect i).calls v = [.close (v.pollt i).fd] := fun _ => rfl
  by_cases hdue : v.Due i
  · have hdue' : ¬ (v.pollt i).fd = -1 ∧ (v.pollt i).readable = true := hdue
    rcases hr : read bufferSize (a.read i) with _ | (_ | ⟨b, bs⟩)
    case some.cons =>
      have hend : ¬ Ended a v i := by
        rintro ⟨-, h⟩
        rw [hr] at h
        cases h
      rw [served_of_not_ended hend]
      refine ⟨⟨filled v.buffer (some (b :: bs)), ?_⟩, ?_⟩
      · simp [readClient, hdue', hr]
      · simp [readClient, roundCalls, dueCalls, endCalls, hdue, hdue', hr]
    -- an error and the end of the file free the slot
    all_goals
      have hend : Ended a v i := ⟨hdue, by rw [hr]; rfl⟩
      rw [served_of_ended hend]
      refine ⟨⟨v.buffer, ?_⟩, ?_⟩
      · simp [readClient, hdue', hr, hdisconnect, Vars.freed, filled]
      · simp [readClient, roundCalls, dueCalls, endCalls, hdue, hdue', hr, hdisconnect, hclose,
          Vars.freed]
  · have hdue' : ¬ (¬ (v.pollt i).fd = -1 ∧ (v.pollt i).readable = true) := hdue
    have hend : ¬ Ended a v i := fun h => hdue h.1
    rw [served_of_not_ended hend]
    refine ⟨⟨v.buffer, ?_⟩, ?_⟩
    · simp [readClient, hdue']
    · simp [readClient, roundCalls, hdue, hdue']

/-- Rounds for different slots do not disturb each other. -/
theorem forEach_readClient_spec (a : Answers) (is : List Nat) (hnodup : is.Nodup) (v : Vars) :
    (∃ buffer, (forEach (readClient a) is).final v =
      { v with pollt := v.served a is, buffer := buffer }) ∧
    ∃ buffers : Nat → List UInt8, (forEach (readClient a) is).calls v =
      is.flatMap fun i => roundCalls a v (buffers i) i := by
  induction is generalizing v with
  | nil =>
    have hnone : v.served a [] = v.pollt := by
      funext j
      simp [Vars.served]
    exact ⟨⟨v.buffer, by rw [hnone]; rfl⟩, fun _ => [], rfl⟩
  | cons i is ih =>
    obtain ⟨hi, hnodup'⟩ := List.nodup_cons.1 hnodup
    obtain ⟨⟨buffer, hfin⟩, hcalls⟩ := readClient_spec a i v
    -- what the round for `i` leaves in the other slots
    have hsame : ∀ j, j ≠ i → ((readClient a i).final v).pollt j = v.pollt j := by
      intro j hji
      simp [hfin, Vars.served, hji]
    have hended : ∀ j, j ≠ i → (Ended a ((readClient a i).final v) j ↔ Ended a v j) := by
      intro j hji
      simp only [Ended, Vars.Due, hsame j hji]
    obtain ⟨⟨buffer', hfin'⟩, buffers, hcalls'⟩ := ih hnodup' ((readClient a i).final v)
    refine ⟨⟨buffer', ?_⟩, Function.update buffers i v.buffer, ?_⟩
    · have hserved : ((readClient a i).final v).served a is = v.served a (i :: is) := by
        funext j
        by_cases hji : j = i
        · subst hji
          simp [Vars.served, hi, hfin]
        · simp only [Vars.served, hended j hji, hsame j hji, List.mem_cons, hji, false_or]
      rw [final_forEach_cons, hfin', hserved, hfin]
    · have hround : ∀ j ∈ is, roundCalls a ((readClient a i).final v) (buffers j) j =
          roundCalls a v (Function.update buffers i v.buffer j) j := by
        intro j hj
        have hji : j ≠ i := fun h => hi (h ▸ hj)
        simp [roundCalls, Vars.Due, hsame j hji, hji]
      rw [calls_forEach_cons, hcalls, hcalls', List.flatMap_cons, Function.update_self,
        List.flatMap_congr hround]

/-- The client slots that the loop over the clients comes to. -/
def Vars.clientSlots (v : Vars) : List Nat := List.range' 2 (v.nfds - 2)

theorem mem_clientSlots : i ∈ v.clientSlots ↔ 2 ≤ i ∧ i < v.nfds := by
  rw [Vars.clientSlots, List.mem_range'_1]
  omega

/-- The loop over the clients. What is in the buffer matters only for a read that failed. -/
theorem readClients_spec (a : Answers) (v : Vars) :
    (∃ buffer, (readClients a).final v =
      { v with pollt := v.served a v.clientSlots, buffer := buffer }) ∧
    ∃ buffers : Nat → List UInt8, (readClients a).calls v =
      v.clientSlots.flatMap fun i => roundCalls a v (buffers i) i := by
  obtain ⟨hfin, hcalls⟩ := forBelow_eq_forEach Vars.nfds (readClient a) (nfds_readClient a) v.nfds 2 v
    (by omega)
  have h := forEach_readClient_spec a v.clientSlots List.nodup_range' v
  rw [show (readClients a).final v = _ from hfin, show (readClients a).calls v = _ from hcalls]
  exact h

/-! ## An iteration from the broadcast on -/

/-- The variables once the loop over the clients is over, the buffer apart. -/
def Vars.afterReads (a : Answers) (u : Vars) : Vars := { u with pollt := u.served a u.clientSlots }

/-- The calls after the loop over the clients. -/
def leaveCalls (socketFd : Int) (a : Answers) (u : Vars) : List Call :=
  if a.poll = -1 then
    .perror "Poll" ::
      (socketFd :: (u.afterReads a).inUse.map fun i => ((u.afterReads a).pollt i).fd).map .close
  else []

theorem serve_spec (socketFd : Int) (a : Answers) (u : Vars) :
    (∃ buffer, (serve socketFd a).final u =
      { u.afterReads a with buffer := buffer, running := u.running && a.poll != -1 }) ∧
    ∃ buffers : Nat → List UInt8, (serve socketFd a).calls u = broadcastCalls a u ++
      (u.clientSlots.flatMap fun i => roundCalls a u (buffers i) i) ++ leaveCalls socketFd a u := by
  obtain ⟨⟨buffer, hfin⟩, hcalls⟩ := broadcast_spec a u
  obtain ⟨⟨buffer', hfin'⟩, buffers, hcalls'⟩ := readClients_spec a { u with buffer := buffer }
  have hleave := fun v => cleanup_spec socketFd v
  by_cases hpoll : a.poll = -1
  · refine ⟨⟨buffer', ?_⟩, buffers, ?_⟩
    · simp only [serve, final_bind, hfin, hfin', hpoll, if_true, final_call, (hleave _).1]
      simp [Vars.afterReads]
      rfl
    · simp only [serve, calls_bind, hcalls, hfin, hcalls', hfin', hpoll, if_true, calls_call,
        final_call, (hleave _).2, leaveCalls]
      simp
      rfl
  · refine ⟨⟨buffer', ?_⟩, buffers, ?_⟩
    · simp only [serve, final_bind, hfin, hfin', hpoll, if_false, final_pure]
      simp [Vars.afterReads, hpoll]
      rfl
    · simp only [serve, calls_bind, hcalls, hfin, hcalls', hfin', hpoll, if_false, calls_pure,
        leaveCalls]
      simp
      rfl

/-- Where neither standard input nor a client is readable, nothing happens. -/
theorem serve_idle (hpoll : a.poll ≠ -1) (hstdin : (u.pollt 1).readable = false)
    (hdue : ∀ i, 2 ≤ i → ¬ u.Due i) :
    (∃ buffer, (serve socketFd a).final u = { u with buffer := buffer }) ∧
    (serve socketFd a).calls u = [] := by
  obtain ⟨⟨buffer, hfin⟩, buffers, hcalls⟩ := serve_spec socketFd a u
  have hserved : u.served a u.clientSlots = u.pollt := by
    funext i
    have hi : ¬ (i ∈ u.clientSlots ∧ Ended a u i) := fun h => hdue i (mem_clientSlots.1 h.1).1 h.2.1
    rw [Vars.served, if_neg hi]
  constructor
  · refine ⟨buffer, ?_⟩
    rw [hfin, Vars.afterReads, hserved]
    simp [hpoll]
  · have hround : ∀ i ∈ u.clientSlots, roundCalls a u (buffers i) i = [] :=
      fun i hi => if_neg (hdue i (mem_clientSlots.1 hi).1)
    rw [hcalls, List.flatMap_eq_nil_iff.2 hround]
    simp [broadcastCalls, leaveCalls, hstdin, hpoll]

/-! ## Where the calls on client descriptors come from -/

theorem mem_roundCalls_read {buffer : List UInt8} {fd : Int} {red : Option (List UInt8)} :
    .read fd red ∈ roundCalls a v buffer i ↔
      v.Due i ∧ (v.pollt i).fd = fd ∧ read bufferSize (a.read i) = red := by
  have hend : .read fd red ∉ endCalls (v.pollt i).fd (read bufferSize (a.read i)) := by
    cases read bufferSize (a.read i) with
    | none => simp [endCalls]
    | some data => cases data <;> simp [endCalls]
  rw [roundCalls]
  split_ifs with hdue
  · simp [dueCalls, hend, hdue, eq_comm]
  · simp [hdue]

theorem mem_roundCalls_close {buffer : List UInt8} {fd : Int} :
    .close fd ∈ roundCalls a v buffer i ↔ Ended a v i ∧ (v.pollt i).fd = fd := by
  have hend : .close fd ∈ endCalls (v.pollt i).fd (read bufferSize (a.read i)) ↔
      received (read bufferSize (a.read i)) = none ∧ (v.pollt i).fd = fd := by
    cases read bufferSize (a.read i) with
    | none => simp [endCalls, received, eq_comm]
    | some data => cases data <;> simp [endCalls, received, eq_comm]
  rw [roundCalls]
  split_ifs with hdue
  · simp [dueCalls, hend, Ended, hdue]
  · simp [Ended, hdue]

theorem not_mem_roundCalls_accept {buffer : List UInt8} {fd : Int} :
    .accept fd ∉ roundCalls a v buffer i := by
  rw [roundCalls]
  split_ifs
  · cases read bufferSize (a.read i) with
    | none => simp [dueCalls, endCalls]
    | some data => cases data <;> simp [dueCalls, endCalls]
  · simp

/-- What the second job says and writes is no call on a client's life. -/
theorem broadcastCalls_spec {c : Call} (h : c ∈ broadcastCalls a u) :
    (∃ red, c = .readStdin red) ∨ (∃ fd data, c = .write fd data) ∨ ∃ text, c = .printf text := by
  unfold broadcastCalls at h
  split_ifs at h
  · rcases List.mem_cons.1 h with rfl | h
    · exact Or.inl ⟨_, rfl⟩
    · cases hchunk : stdinChunk a u with
      | none => simp [hchunk] at h
      | some chunk =>
        rw [hchunk] at h
        rcases List.mem_append.1 h with h | h
        · obtain ⟨i, -, rfl⟩ := List.mem_map.1 h
          exact Or.inr (Or.inl ⟨_, _, rfl⟩)
        · split_ifs at h
          · exact Or.inr (Or.inr ⟨_, List.mem_singleton.1 h⟩)
          · cases h
  · cases h

theorem mem_leaveCalls {c : Call} (h : c ∈ leaveCalls socketFd a u) :
    (∃ text, c = .perror text) ∨ ∃ fd, c = .close fd := by
  unfold leaveCalls at h
  split_ifs at h
  · rcases List.mem_cons.1 h with rfl | h
    · exact Or.inl ⟨_, rfl⟩
    · obtain ⟨fd, -, rfl⟩ := List.mem_map.1 h
      exact Or.inr ⟨fd, rfl⟩
  · cases h

theorem mem_leaveCalls_close {fd : Int} :
    .close fd ∈ leaveCalls socketFd a u ↔ a.poll = -1 ∧ (fd = socketFd ∨
      ∃ i ∈ (u.afterReads a).inUse, ((u.afterReads a).pollt i).fd = fd) := by
  rw [leaveCalls]
  split_ifs with hpoll
  · simp [hpoll]
  · simp [hpoll]

/-- The reads of an iteration. -/
theorem mem_serve_read {fd : Int} {red : Option (List UInt8)} :
    .read fd red ∈ (serve socketFd a).calls u ↔
      ∃ i, (2 ≤ i ∧ i < u.nfds) ∧ u.Due i ∧ (u.pollt i).fd = fd ∧
        read bufferSize (a.read i) = red := by
  obtain ⟨-, buffers, hcalls⟩ := serve_spec socketFd a u
  have hb : .read fd red ∉ broadcastCalls a u := fun h => by
    rcases broadcastCalls_spec h with ⟨_, h⟩ | ⟨_, _, h⟩ | ⟨_, h⟩ <;> cases h
  have hl : .read fd red ∉ leaveCalls socketFd a u := fun h => by
    rcases mem_leaveCalls h with ⟨_, h⟩ | ⟨_, h⟩ <;> cases h
  simp only [hcalls, List.mem_append, hb, hl, List.mem_flatMap, mem_clientSlots, mem_roundCalls_read,
    false_or, or_false]

/-- The closes of an iteration. -/
theorem mem_serve_close {fd : Int} :
    .close fd ∈ (serve socketFd a).calls u ↔
      (∃ i, (2 ≤ i ∧ i < u.nfds) ∧ Ended a u i ∧ (u.pollt i).fd = fd) ∨
      (a.poll = -1 ∧ (fd = socketFd ∨
        ∃ i ∈ (u.afterReads a).inUse, ((u.afterReads a).pollt i).fd = fd)) := by
  obtain ⟨-, buffers, hcalls⟩ := serve_spec socketFd a u
  have hb : .close fd ∉ broadcastCalls a u := fun h => by
    rcases broadcastCalls_spec h with ⟨_, h⟩ | ⟨_, _, h⟩ | ⟨_, h⟩ <;> cases h
  simp only [hcalls, List.mem_append, hb, mem_leaveCalls_close, List.mem_flatMap, mem_clientSlots,
    mem_roundCalls_close, false_or]

/-- Nothing is accepted any more. -/
theorem not_mem_serve_accept (socketFd : Int) (a : Answers) (u : Vars) (fd : Int) :
    .accept fd ∉ (serve socketFd a).calls u := by
  obtain ⟨-, buffers, hcalls⟩ := serve_spec socketFd a u
  have hb : .accept fd ∉ broadcastCalls a u := fun h => by
    rcases broadcastCalls_spec h with ⟨_, h⟩ | ⟨_, _, h⟩ | ⟨_, h⟩ <;> cases h
  have hl : .accept fd ∉ leaveCalls socketFd a u := fun h => by
    rcases mem_leaveCalls h with ⟨_, h⟩ | ⟨_, h⟩ <;> cases h
  simp only [hcalls, List.mem_append, hb, hl, List.mem_flatMap, not_mem_roundCalls_accept, and_false,
    exists_false, or_false, not_false_eq_true]

@[simp] theorem served_revents (a : Answers) (v : Vars) (is : List Nat) (i : Nat) :
    (v.served a is i).revents = (v.pollt i).revents := by
  unfold Vars.served
  split_ifs <;> rfl

end SystemsProgramming.TcpSuite.Server
