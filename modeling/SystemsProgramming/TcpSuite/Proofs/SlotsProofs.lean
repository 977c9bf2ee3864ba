import SystemsProgramming.TcpSuite.Server
import Mathlib.Data.List.Nodup

/-!
# Proofs: the slots of the TCP server

At every loop head the clients are in slots below `nfds`, on pairwise distinct descriptors that are
open. A connection for which no slot was free stays open outside the table, so the table does not own
every open descriptor; it is only backed by them.
-/

namespace SystemsProgramming.TcpSuite.Server

open Foundations Prog

variable {socketFd : Int} {a : Answers} {u v : Vars} {w : Ledger Int Unit} {i : Nat}

/-- The table of the descriptors: the listening socket in slot `0`, and the clients. -/
def table (socketFd : Int) (v : Vars) : SlotTable Int Unit := fun i =>
  if i = 0 then some (socketFd, ())
  else if v.Occupied i then some ((v.pollt i).fd, ())
  else none

/-- The slots while the server is running. -/
structure Sound (socketFd : Int) (v : Vars) (w : Ledger Int Unit) : Prop where
  running : v.running = true
  bound : v.nfds ≤ maxClients + 1
  covered : SlotTable.Covers v.Occupied v.nfds
  backed : SlotTable.Backed (table socketFd v) w

/-- The slots after `cleanup`. -/
structure Closed (v : Vars) (w : Ledger Int Unit) : Prop where
  stopped : v.running = false
  bound : v.nfds ≤ maxClients + 1
  covered : SlotTable.Covers v.Occupied v.nfds
  distinct : ∀ i j, v.Occupied i → v.Occupied j → (v.pollt i).fd = (v.pollt j).fd → i = j
  closed : ∀ i, v.Occupied i → w (v.pollt i).fd = none

theorem table_of_occupied (h : v.Occupied i) : table socketFd v i = some ((v.pollt i).fd, ()) := by
  have hi : i ≠ 0 := by have := h.1; omega
  rw [table, if_neg hi, if_pos h]

theorem Sound.held (h : Sound socketFd v w) (hi : v.Occupied i) : w (v.pollt i).fd = some () :=
  h.backed.held i _ _ (table_of_occupied hi)

/-- No slot has a descriptor that is not open. -/
theorem Sound.fd_ne (h : Sound socketFd v w) {fd : Int} (hfd : w fd = none) (hi : v.Occupied i) :
    (v.pollt i).fd ≠ fd := by
  rintro rfl
  rw [h.held hi] at hfd
  cases hfd

theorem Sound.distinct (h : Sound socketFd v w) {j : Nat} (hi : v.Occupied i) (hj : v.Occupied j)
    (hij : (v.pollt i).fd = (v.pollt j).fd) : i = j :=
  h.backed.inj i j _ _ _ (table_of_occupied hi) (hij ▸ table_of_occupied hj)

/-- The slots in use that the loops up to `nfds` come to, in their order. -/
def Vars.inUse (v : Vars) : List Nat :=
  (List.range' 2 (v.nfds - 2)).filter fun i => (v.pollt i).fd ≠ -1

theorem inUse_nodup (v : Vars) : v.inUse.Nodup := List.Nodup.filter _ List.nodup_range'

/-- They are all the slots in use. -/
theorem Sound.occupied_iff (h : Sound socketFd v w) : v.Occupied i ↔ i ∈ v.inUse := by
  have hb := h.bound
  rw [Vars.inUse, List.mem_filter, List.mem_range'_1]
  constructor
  · intro hi
    have hlt := h.covered i hi
    have h2 := hi.1
    exact ⟨by omega, by simpa using hi.2.2⟩
  · rintro ⟨hi, hfd⟩
    exact ⟨hi.1, by omega, by simpa using hfd⟩

/-- What `Sound` says depends on the descriptors and on `nfds`. -/
theorem Sound.congr (h : Sound socketFd v w) (hr : u.running = v.running) (hn : u.nfds = v.nfds)
    (hfd : ∀ i, (u.pollt i).fd = (v.pollt i).fd) : Sound socketFd u w := by
  have hocc : ∀ i, u.Occupied i ↔ v.Occupied i := fun i => by simp [Vars.Occupied, hfd]
  have htable : table socketFd u = table socketFd v := by
    funext i
    simp only [table, hocc, hfd]
  refine ⟨hr.trans h.running, hn ▸ h.bound, fun i hi => ?_, htable ▸ h.backed⟩
  rw [hn]
  exact h.covered i ((hocc i).1 hi)

theorem initial_sound (socketFd : Int) (stack : Nat → Pollfd) :
    Sound socketFd (initial socketFd stack) (opened socketFd) := by
  have hfree : ∀ i, ¬ (initial socketFd stack).Occupied i := by
    rintro i ⟨h2, hmax, hfd⟩
    have h0 : i ≠ 0 := by omega
    have h1 : i ≠ 1 := by omega
    simp [initial, h0, h1, hmax] at hfd
  refine ⟨rfl, by simp [initial, maxClients], fun i hi => absurd hi (hfree i), ?_, ?_⟩
  · intro i r b hi
    by_cases h0 : i = 0
    · simp only [table, h0, if_true, Option.some.injEq, Prod.mk.injEq] at hi
      simp [opened, hi.1]
    · simp [table, h0, hfree i] at hi
  · intro i j r b c hi hj
    have hzero : ∀ k b, table socketFd (initial socketFd stack) k = some (r, b) → k = 0 := by
      intro k b hk
      by_contra h0
      simp [table, h0, hfree k] at hk
    rw [hzero i b hi, hzero j c hj]

/-! ## Accepting a connection -/

/-- The variables once a new connection has its slot, if there is one for it. -/
def Vars.stored (v : Vars) (fd : Int) : Vars :=
  match freeSlot v.pollt with
  | some i =>
    { v with
      pollt := Function.update v.pollt i { v.pollt i with fd := fd, events := POLLIN }
      nfds := if v.nfds ≤ i then i + 1 else v.nfds }
  | none => v

theorem store_spec (fd : Int) (v : Vars) :
    (store fd).final v = v.stored fd ∧ (store fd).calls v = [] := by
  cases h : freeSlot v.pollt <;> simp [store, Vars.stored, h]

theorem freeSlot_eq_some (h : freeSlot v.pollt = some i) :
    2 ≤ i ∧ i ≤ maxClients ∧ (v.pollt i).fd = -1 := by
  obtain ⟨h1, h2, h3, -⟩ := SlotTable.firstFree_eq_some.1 h
  exact ⟨h1, by omega, by simpa using h3⟩

theorem freeSlot_eq_none :
    freeSlot v.pollt = none ↔ ∀ i, 2 ≤ i → i ≤ maxClients → (v.pollt i).fd ≠ -1 := by
  rw [freeSlot, SlotTable.firstFree_eq_none]
  simp only [decide_eq_false_iff_not, Nat.lt_add_one_iff]

theorem stored_occupied_iff {fd : Int} (hfd : fd ≠ -1) (h : freeSlot v.pollt = some i) (j : Nat) :
    (v.stored fd).Occupied j ↔ v.Occupied j ∨ j = i := by
  obtain ⟨h2, hmax, -⟩ := freeSlot_eq_some h
  by_cases hji : j = i
  · subst hji
    simp [Vars.Occupied, Vars.stored, h, h2, hmax, hfd]
  · simp [Vars.Occupied, Vars.stored, h, hji]

@[simp] theorem stored_running (v : Vars) (fd : Int) : (v.stored fd).running = v.running := by
  cases h : freeSlot v.pollt <;> simp [Vars.stored, h]

/-- A slot keeps its `revents` when it gets a connection. -/
@[simp] theorem stored_revents (v : Vars) (fd : Int) (i : Nat) :
    ((v.stored fd).pollt i).revents = (v.pollt i).revents := by
  cases h : freeSlot v.pollt with
  | none => simp [Vars.stored, h]
  | some j =>
    by_cases hij : i = j
    · subst hij
      simp [Vars.stored, h]
    · simp [Vars.stored, h, hij]

theorem stored_pollt_of_ne {fd : Int} (h : ∀ j, freeSlot v.pollt = some j → i ≠ j) :
    (v.stored fd).pollt i = v.pollt i := by
  cases hf : freeSlot v.pollt with
  | none => simp [Vars.stored, hf]
  | some j => simp [Vars.stored, hf, h j hf]

theorem nfds_le_stored (v : Vars) (fd : Int) : v.nfds ≤ (v.stored fd).nfds := by
  cases h : freeSlot v.pollt with
  | none => simp [Vars.stored, h]
  | some j =>
    simp only [Vars.stored, h]
    split_ifs <;> omega

theorem nfds_stored_le (h : v.nfds ≤ maxClients + 1) (fd : Int) :
    (v.stored fd).nfds ≤ maxClients + 1 := by
  cases hf : freeSlot v.pollt with
  | none => simpa [Vars.stored, hf] using h
  | some j =>
    obtain ⟨-, hmax, -⟩ := freeSlot_eq_some hf
    simp only [Vars.stored, hf]
    split_ifs <;> omega

/-- A new connection goes to the first free slot, or stays open outside the table. -/
theorem Sound.stored (h : Sound socketFd v w) {fd : Int} (hfd : fd ≠ -1) (hw : w fd = none) :
    Sound socketFd (v.stored fd) (Function.update w fd (some ())) := by
  have hb := h.bound
  cases hf : freeSlot v.pollt with
  | none =>
    have hsame : v.stored fd = v := by simp [Vars.stored, hf]
    rw [hsame]
    exact ⟨h.running, hb, h.covered, h.backed.acquire hw⟩
  | some i =>
    obtain ⟨h2, hmax, -⟩ := freeSlot_eq_some hf
    have hn : (v.stored fd).nfds = if v.nfds ≤ i then i + 1 else v.nfds := by
      simp [Vars.stored, hf]
    have htable : table socketFd (v.stored fd) =
        Function.update (table socketFd v) i (some (fd, ())) := by
      funext j
      by_cases hji : j = i
      · subst hji
        rw [table_of_occupied ((stored_occupied_iff hfd hf j).2 (Or.inr rfl))]
        simp [Vars.stored, hf]
      · simp only [table, stored_occupied_iff hfd hf, hji, or_false, Function.update_of_ne hji]
        simp [Vars.stored, hf, hji]
    refine ⟨by simp [h.running], nfds_stored_le hb fd, fun j hj => ?_, ?_⟩
    · rw [hn]
      rcases (stored_occupied_iff hfd hf j).1 hj with hj | rfl
      · have hlt := h.covered j hj
        split_ifs <;> omega
      · split_ifs <;> omega
    · rw [htable]
      exact h.backed.put hw i

/-- The variables with which an iteration gets past its first job, if it does. -/
def accepted (a : Answers) (v : Vars) : Option Vars :=
  if 0 < a.poll ∧ (v.pollt 0).readable = true then
    if a.accept = -1 then none else some (v.stored a.accept)
  else some v

/-- The calls of the first job. -/
def acceptCalls (a : Answers) (v : Vars) : List Call :=
  if 0 < a.poll ∧ (v.pollt 0).readable = true then
    if a.accept = -1 then [.perror "Accept"]
    else [.accept a.accept, .printf ("\n[client connected: " ++ a.clientIp ++ "]\n")]
  else []

theorem acceptClient_of_accepted (h : accepted a v = some u) :
    (acceptClient socketFd a).final v = (serve socketFd a).final u ∧
    (acceptClient socketFd a).calls v = acceptCalls a v ++ (serve socketFd a).calls u := by
  unfold accepted at h
  obtain ⟨hs1, hs2⟩ := store_spec a.accept v
  split_ifs at h with h1 h2 <;> cases h <;> simp [acceptClient, acceptCalls, *]

theorem acceptClient_of_not_accepted (h : accepted a v = none) :
    (acceptClient socketFd a).final v = v ∧
    (acceptClient socketFd a).calls v = [.perror "Accept"] := by
  unfold accepted at h
  split_ifs at h with h1 h2
  simp [acceptClient, h1, h2]

/-- A connection is pending, and `accept` returns it. -/
def Accepts (a : Answers) (v : Vars) : Prop :=
  0 < a.poll ∧ (v.pollt 0).readable = true ∧ a.accept ≠ -1

theorem accepted_of_accepts (h : Accepts a v) : accepted a v = some (v.stored a.accept) ∧
    acceptCalls a v =
      [.accept a.accept, .printf ("\n[client connected: " ++ a.clientIp ++ "]\n")] := by
  obtain ⟨h1, h2, h3⟩ := h
  simp [accepted, acceptCalls, h1, h2, h3]

/-- An iteration that gets past its first job without a connection has done nothing in it. -/
theorem accepted_of_not_accepts (h : ¬ Accepts a v) (ha : accepted a v = some u) :
    u = v ∧ acceptCalls a v = [] := by
  unfold accepted at ha
  split_ifs at ha with h1 h2
  · exact absurd ⟨h1.1, h1.2, h2⟩ h
  · exact ⟨(Option.some.inj ha).symm, by rw [acceptCalls, if_neg h1]⟩

/-- What an iteration that gets past its first job has accepted. -/
theorem mem_acceptCalls {fd : Int} (ha : accepted a v = some u) :
    .accept fd ∈ acceptCalls a v ↔ Accepts a v ∧ a.accept = fd := by
  by_cases h : Accepts a v
  · rw [(accepted_of_accepts h).2]
    simp [h, eq_comm]
  · rw [(accepted_of_not_accepts h ha).2]
    simp [h]

/-! ## Standard input -/

/-- The chunk that the second job reads from standard input. -/
def stdinChunk (a : Answers) (v : Vars) : Option (List UInt8) :=
  if 0 < a.poll ∧ (v.pollt 1).readable = true then received (read bufferSize a.stdin) else none

/-- The calls that write a message to every client. -/
def sendCalls (v : Vars) (data : List UInt8) : List Call :=
  v.inUse.map (fun i => .write (v.pollt i).fd data) ++
    if v.inUse = [] then [.printf noClientsConnected] else []

/-- The calls of the second job. -/
def broadcastCalls (a : Answers) (v : Vars) : List Call :=
  if 0 < a.poll ∧ (v.pollt 1).readable = true then
    .readStdin (read bufferSize a.stdin) ::
      match stdinChunk a v with
      | some chunk => sendCalls v chunk
      | none => []
  else []

theorem received_eq_some {r : Option (List UInt8)} {chunk : List UInt8}
    (h : received r = some chunk) : r = some chunk := by
  rcases r with _ | (_ | ⟨b, bs⟩)
  · cases h
  · cases h
  · exact h

theorem send_spec (red : Nat) (v : Vars) :
    (send red).final v = v ∧ (send red).calls v = sendCalls v (v.buffer.take red) := by
  have hloop := final_forEach_callIf (fun (v : Vars) i => (v.pollt i).fd ≠ -1)
    (fun v i => Call.write (v.pollt i).fd (v.buffer.take red)) (List.range' 2 (v.nfds - 2)) v
  have hcalls := calls_forEach_callIf (fun (v : Vars) i => (v.pollt i).fd ≠ -1)
    (fun v i => Call.write (v.pollt i).fd (v.buffer.take red)) (List.range' 2 (v.nfds - 2)) v
  have hcount : (List.range' 2 (v.nfds - 2)).countP (fun i => (v.pollt i).fd ≠ -1) = 0 ↔
      v.inUse = [] := by
    rw [List.countP_eq_length_filter, List.length_eq_zero_iff, Vars.inUse]
  rw [send, final_get_bind, calls_get_bind, final_bind, calls_bind, hloop, hcalls, sendCalls]
  by_cases h : v.inUse = []
  · rw [if_pos (hcount.2 h), if_pos h]
    exact ⟨rfl, rfl⟩
  · rw [if_neg (mt hcount.1 h), if_neg h]
    exact ⟨rfl, rfl⟩

/-- The second job fills the buffer, and writes what was read to every slot in use below `nfds`. -/
theorem broadcast_spec (a : Answers) (v : Vars) :
    (∃ buffer, (broadcast a).final v = { v with buffer := buffer }) ∧
    (broadcast a).calls v = broadcastCalls a v := by
  by_cases h : 0 < a.poll ∧ (v.pollt 1).readable = true
  · refine ⟨⟨filled v.buffer (read bufferSize a.stdin), ?_⟩, ?_⟩
    · cases hr : received (read bufferSize a.stdin) with
      | none => simp [broadcast, h, hr]
      | some chunk => simp [broadcast, h, hr, (send_spec _ _).1]
    · cases hr : received (read bufferSize a.stdin) with
      | none => simp [broadcast, broadcastCalls, stdinChunk, h, hr]
      | some chunk =>
        have htake : (filled v.buffer (read bufferSize a.stdin)).take chunk.length = chunk := by
          rw [received_eq_some hr]
          simp [filled]
        simp only [broadcast, broadcastCalls, stdinChunk, h, hr, and_self, if_true, calls_bind, calls_call,
          calls_modify, final_call, final_modify, value_get, final_get,
          (send_spec _ _).2, htake]
        rfl
  · refine ⟨⟨v.buffer, ?_⟩, ?_⟩
    · simp [broadcast, h]
    · simp [broadcast, broadcastCalls, h]

/-- Reading from and writing to the descriptor of a slot in use is allowed and changes nothing. -/
theorem Sound.next_use (h : Sound socketFd v w) (hi : v.Occupied i) :
    w.use (v.pollt i).fd (fun _ => True) id = some w :=
  Ledger.use_same (h.held hi) trivial rfl

theorem broadcast_keeps (a : Answers) :
    Triple next (Sound socketFd) (broadcast a) fun _ => Sound socketFd := by
  intro v w h
  obtain ⟨⟨buffer, hfin⟩, hcalls⟩ := broadcast_spec a v
  refine ⟨w, ?_, hfin ▸ h.congr rfl rfl fun _ => rfl⟩
  rw [hcalls]
  refine replay_same fun c hc => ?_
  unfold broadcastCalls at hc
  by_cases hr : 0 < a.poll ∧ (v.pollt 1).readable = true
  · rw [if_pos hr] at hc
    rcases List.mem_cons.1 hc with rfl | hc
    · rfl
    · cases hchunk : stdinChunk a v with
      | none => simp [hchunk] at hc
      | some chunk =>
        rw [hchunk] at hc
        rcases List.mem_append.1 hc with hc | hc
        · obtain ⟨i, hi, rfl⟩ := List.mem_map.1 hc
          exact h.next_use (h.occupied_iff.2 hi)
        · split_ifs at hc
          · rw [List.mem_singleton.1 hc]
            rfl
          · cases hc
  · rw [if_neg hr] at hc
    cases hc

/-! ## Reading from the clients -/

/-- The variables once the client in slot `i` is gone. -/
def Vars.freed (v : Vars) (i : Nat) : Vars :=
  { v with pollt := Function.update v.pollt i { v.pollt i with fd := -1 } }

theorem freed_occupied_iff {j : Nat} : (v.freed i).Occupied j ↔ v.Occupied j ∧ j ≠ i := by
  by_cases hji : j = i
  · subst hji
    simp [Vars.Occupied, Vars.freed]
  · simp [Vars.Occupied, Vars.freed, hji]

theorem disconnect_keeps (i : Nat) :
    Triple next (fun v w => Sound socketFd v w ∧ v.Occupied i) (disconnect i)
      fun _ => Sound socketFd := by
  rintro v w ⟨h, hi⟩
  have hcalls : (disconnect i).calls v = [.close (v.pollt i).fd] := by simp [disconnect]
  have hfin : (disconnect i).final v = v.freed i := by simp [disconnect, Vars.freed]
  have hclose : next w (.close (v.pollt i).fd) = some (Function.update w (v.pollt i).fd none) :=
    Ledger.release_of_some (h.held hi) trivial
  refine ⟨_, by rw [hcalls, replay_cons, hclose]; rfl, ?_⟩
  rw [hfin]
  have htable : table socketFd (v.freed i) = Function.update (table socketFd v) i none := by
    funext j
    by_cases hji : j = i
    · subst hji
      have hj : j ≠ 0 := by have := hi.1; omega
      simp [table, freed_occupied_iff, hj]
    · simp only [table, freed_occupied_iff, ne_eq, hji, not_false_eq_true, and_true,
        Function.update_of_ne hji]
      simp [Vars.freed, hji]
  refine ⟨h.running, h.bound, fun j hj => h.covered j (freed_occupied_iff.1 hj).1, ?_⟩
  rw [htable]
  exact h.backed.clear (table_of_occupied hi)

theorem readClient_keeps (a : Answers) (i : Nat) (h2 : 2 ≤ i) :
    Triple next (fun v w => Sound socketFd v w ∧ i < v.nfds) (readClient a i)
      fun _ => Sound socketFd := by
  refine Triple.get fun u => Triple.ite (fun hdue => ?_) fun _ => Triple.pure fun _ _ h => h.1.1
  refine Triple.bind (Q := fun _ v w => Sound socketFd v w ∧ v.Occupied i)
    (Triple.call fun v w hv => ?_) fun _ => ?_
  · obtain ⟨⟨h, hi⟩, rfl⟩ := hv
    have hb := h.bound
    have hocc : v.Occupied i := ⟨h2, by omega, hdue.1⟩
    exact ⟨w, h.next_use hocc, h, hocc⟩
  refine Triple.bind (Q := fun _ v w => Sound socketFd v w ∧ v.Occupied i)
    (Triple.modify fun v w h => ⟨h.1.congr rfl rfl fun _ => rfl, h.2⟩) fun _ => ?_
  -- whatever became of the slot, `fwrite` and `fflush` follow
  have hrest : ∀ size, Triple next (Sound socketFd)
      (get >>= fun v => call (.fwrite size (v.buffer.take size)) >>= fun _ => call .fflush)
      fun _ => Sound socketFd := fun size =>
    Triple.get fun _ => Triple.bind (Q := fun _ => Sound socketFd)
      (Triple.call fun v w h => ⟨w, rfl, h.1⟩) fun _ => Triple.call fun v w h => ⟨w, rfl, h⟩
  have hgone : ∀ c, (∀ w, next w c = some w) → ∀ size, Triple next
      (fun v w => Sound socketFd v w ∧ v.Occupied i)
      (call c >>= fun _ => disconnect i >>= fun _ =>
        get >>= fun v => call (.fwrite size (v.buffer.take size)) >>= fun _ => call .fflush)
      fun _ => Sound socketFd := fun c hc size =>
    Triple.bind (Triple.call fun v w h => ⟨w, hc w, h⟩) fun _ =>
      Triple.bind (disconnect_keeps i) fun _ => hrest size
  match read bufferSize (a.read i) with
  | none => exact hgone _ (fun _ => rfl) _
  | some [] => exact hgone _ (fun _ => rfl) _
  | some (_ :: _) => exact Triple.pre (hrest _) fun _ _ h => h.1

/-- No round of the loop changes its bound. -/
theorem nfds_readClient (a : Answers) (i : Nat) (v : Vars) :
    ((readClient a i).final v).nfds = v.nfds := by
  have hdisconnect : ∀ v, ((disconnect i).final v).nfds = v.nfds := fun _ => rfl
  unfold readClient
  simp only [final_get_bind]
  split
  · cases read bufferSize (a.read i) with
    | none => simp [hdisconnect]
    | some data => cases data <;> simp [hdisconnect]
  · rfl

/-- So the rounds that the loop is given suffice: it ends because no slot is left below `nfds`. -/
theorem readClients_fuel (a : Answers) (v : Vars) (extra : Nat) :
    (forBelow Vars.nfds (readClient a) (v.nfds + extra) 2).final v = (readClients a).final v ∧
    (forBelow Vars.nfds (readClient a) (v.nfds + extra) 2).calls v = (readClients a).calls v :=
  forBelow_fuel _ _ (fun i s => Nat.le_of_eq (nfds_readClient a i s)) v.nfds 2 v (by omega) extra

theorem readClients_keeps (a : Answers) :
    Triple next (Sound socketFd) (readClients a) fun _ => Sound socketFd :=
  Triple.get fun _ => Triple.pre (Triple.forBelow (readClient_keeps a) _) fun _ _ h => h.1

/-! ## Leaving the loop -/

theorem cleanup_spec (socketFd : Int) (v : Vars) :
    (cleanup socketFd).final v = { v with running := false } ∧
    (cleanup socketFd).calls v =
      (socketFd :: v.inUse.map fun i => (v.pollt i).fd).map .close := by
  have hloop := final_forEach_callIf (fun (v : Vars) i => (v.pollt i).fd ≠ -1)
    (fun v i => Call.close (v.pollt i).fd) (List.range' 2 (v.nfds - 2)) v
  have hcalls := calls_forEach_callIf (fun (v : Vars) i => (v.pollt i).fd ≠ -1)
    (fun v i => Call.close (v.pollt i).fd) (List.range' 2 (v.nfds - 2)) v
  constructor
  · rw [cleanup, final_bind, final_call, final_get_bind, final_bind, hloop, final_modify]
  · rw [cleanup, calls_bind, calls_call, final_call, calls_get_bind, calls_bind, hcalls, calls_modify,
      List.append_nil, List.map_cons, List.map_map]
    rfl

/-- `cleanup` closes the listening socket and every client, each of them once. -/
theorem cleanup_closes (socketFd : Int) :
    Triple next (Sound socketFd) (cleanup socketFd) fun _ => Closed := by
  intro v w h
  obtain ⟨hfin, hcalls⟩ := cleanup_spec socketFd v
  have hsock : w socketFd = some () := h.backed.held 0 _ _ (by simp [table])
  have hnodup : (socketFd :: v.inUse.map fun i => (v.pollt i).fd).Nodup := by
    refine List.nodup_cons.2 ⟨fun hmem => ?_, ?_⟩
    · obtain ⟨i, hi, hfd⟩ := List.mem_map.1 hmem
      have hocc := h.occupied_iff.2 hi
      have h0 : i = 0 := h.backed.inj i 0 _ _ () (table_of_occupied hocc) (by simp [table, hfd])
      have := hocc.1
      omega
    · refine List.Nodup.map_on (fun i hi j hj hij => ?_) (inUse_nodup v)
      exact h.distinct (h.occupied_iff.2 hi) (h.occupied_iff.2 hj) hij
  have hheld : ∀ fd ∈ socketFd :: v.inUse.map (fun i => (v.pollt i).fd), w fd ≠ none := by
    intro fd hfd
    rcases List.mem_cons.1 hfd with rfl | hfd
    · simp [hsock]
    · obtain ⟨i, hi, rfl⟩ := List.mem_map.1 hfd
      simp [h.held (h.occupied_iff.2 hi)]
  obtain ⟨w', hr, hw'⟩ := Ledger.release_all hnodup hheld
  refine ⟨w', by rw [hcalls, replay, List.foldlM_map]; exact hr, ?_⟩
  rw [hfin]
  refine ⟨rfl, h.bound, h.covered, fun i j => h.distinct, fun i hi => ?_⟩
  rw [hw', if_pos (List.mem_cons_of_mem _ (List.mem_map_of_mem (h.occupied_iff.1 hi)))]

end SystemsProgramming.TcpSuite.Server
