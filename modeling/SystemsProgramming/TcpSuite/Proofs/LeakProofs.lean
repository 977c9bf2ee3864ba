import SystemsProgramming.TcpSuite.Proofs.BroadcastProofs
import SystemsProgramming.TcpSuite.Proofs.ReadLoopProofs
import Mathlib.Data.List.Perm.Subperm

/-!
# Proofs: when the TCP server loses a connection

The clients of the table are the connections that were accepted and not closed, as long as every
connection finds a free slot. The one that finds none is announced, but no slot has its descriptor, so
it is neither polled nor written to nor ever closed. The array has room for `maxClients` clients; the
loops over it stop one slot short.
-/

namespace SystemsProgramming.TcpSuite.Server

open Foundations Prog

variable {socketFd : Int} {a : Answers} {u v : Vars} {w : Ledger Int Unit}

/-! ## The connections -/

/-- What a call makes of the connections. -/
def track (fds : List Int) : Call → List Int
  | .accept fd => fd :: fds
  | .close fd => fds.erase fd
  | .readStdin _ | .read _ _ | .write _ _ | .fwrite _ _ | .fflush | .printf _ | .perror _ => fds

/-- The descriptors that were accepted and not closed since. -/
def connected (cs : List Call) : List Int := cs.foldl track []

theorem connected_append (cs ds : List Call) :
    connected (cs ++ ds) = ds.foldl track (connected cs) := List.foldl_append

/-- Where nothing is accepted, the connections are those that are not closed. -/
theorem track_of_not_accept {cs : List Call} (h : ∀ fd, .accept fd ∉ cs) {fds : List Int}
    (hnodup : fds.Nodup) :
    (cs.foldl track fds).Nodup ∧
      ∀ fd, fd ∈ cs.foldl track fds ↔ fd ∈ fds ∧ .close fd ∉ cs := by
  induction cs generalizing fds with
  | nil => exact ⟨hnodup, fun fd => by simp⟩
  | cons c cs ih =>
    have hcs : ∀ fd, .accept fd ∉ cs := fun fd hmem => h fd (List.mem_cons_of_mem _ hmem)
    rw [List.foldl_cons]
    cases c with
    | accept fd => exact absurd List.mem_cons_self (h fd)
    | close fd =>
      obtain ⟨h1, h2⟩ := ih hcs (hnodup.erase fd)
      refine ⟨h1, fun fd' => ?_⟩
      rw [show track fds (.close fd) = fds.erase fd from rfl, h2, hnodup.mem_erase_iff]
      simp only [List.mem_cons, Call.close.injEq, not_or]
      tauto
    | _ =>
      obtain ⟨h1, h2⟩ := ih hcs hnodup
      refine ⟨h1, fun fd' => ?_⟩
      rw [show track fds _ = fds from rfl, h2]
      simp

/-- The connections are the clients in the table. -/
structure Listed (v : Vars) (fds : List Int) : Prop where
  nodup : fds.Nodup
  mem_iff : ∀ fd, fd ∈ fds ↔ ∃ i, v.Occupied i ∧ (v.pollt i).fd = fd

theorem Listed.congr {fds : List Int} (h : Listed v fds)
    (hfd : ∀ i, (u.pollt i).fd = (v.pollt i).fd) : Listed u fds := by
  refine ⟨h.nodup, fun fd => ?_⟩
  simp only [h.mem_iff, Vars.Occupied, hfd]

/-- A new connection joins the clients in the table, if there is a free slot for it. -/
theorem Sound.listed_stored (hs : Sound socketFd v w) {fds : List Int} (h : Listed v fds) {fd : Int}
    (hfd : fd ≠ -1) (hw : w fd = none) {i : Nat} (hi : freeSlot v.pollt = some i) :
    Listed (v.stored fd) (fd :: fds) := by
  have hself : ((v.stored fd).pollt i).fd = fd := by simp [Vars.stored, hi]
  have hother : ∀ j, j ≠ i → ((v.stored fd).pollt j).fd = (v.pollt j).fd := by
    intro j hji
    simp [Vars.stored, hi, hji]
  have hi' : ¬ v.Occupied i := fun h => h.2.2 (freeSlot_eq_some hi).2.2
  have hnew : fd ∉ fds := by
    intro hmem
    obtain ⟨j, hj, hjfd⟩ := (h.mem_iff fd).1 hmem
    exact hs.fd_ne hw hj hjfd
  refine ⟨List.nodup_cons.2 ⟨hnew, h.nodup⟩, fun fd' => ?_⟩
  rw [List.mem_cons, h.mem_iff]
  constructor
  · rintro (rfl | ⟨j, hj, hjfd⟩)
    · exact ⟨i, (stored_occupied_iff hfd hi i).2 (Or.inr rfl), hself⟩
    · have hji : j ≠ i := fun heq => hi' (heq ▸ hj)
      exact ⟨j, (stored_occupied_iff hfd hi j).2 (Or.inl hj), by rw [hother j hji, hjfd]⟩
  · rintro ⟨j, hj, hjfd⟩
    by_cases hji : j = i
    · subst hji
      exact Or.inl (by rw [← hjfd, hself])
    · rw [hother j hji] at hjfd
      exact Or.inr ⟨j, ((stored_occupied_iff hfd hi j).1 hj).resolve_right hji, hjfd⟩

/-- After the loop over the clients the table has those that did not end. -/
theorem Sound.afterReads_occupied_iff (hs : Sound socketFd u w) {i : Nat} :
    (u.afterReads a).Occupied i ↔ u.Occupied i ∧ ¬ Ended a u i := by
  constructor
  · rintro ⟨h2, hmax, hfd⟩
    have hend : ¬ (i ∈ u.clientSlots ∧ Ended a u i) := by
      intro h
      exact hfd (by simp [Vars.afterReads, Vars.served, h])
    have hsame : (u.afterReads a).pollt i = u.pollt i := by
      simp only [Vars.afterReads, Vars.served, if_neg hend]
    rw [hsame] at hfd
    have hocc : u.Occupied i := ⟨h2, hmax, hfd⟩
    exact ⟨hocc, fun h => hend ⟨mem_clientSlots.2 ⟨h2, hs.covered i hocc⟩, h⟩⟩
  · rintro ⟨⟨h2, hmax, hfd⟩, hend⟩
    have hsame : (u.afterReads a).pollt i = u.pollt i := by
      simp only [Vars.afterReads, Vars.served, hend, and_false, if_false]
    exact ⟨h2, hmax, hsame ▸ hfd⟩

theorem afterReads_fd {i : Nat} (h : ¬ Ended a u i) :
    ((u.afterReads a).pollt i).fd = (u.pollt i).fd := by
  simp only [Vars.afterReads, Vars.served, h, and_false, if_false]

/-- A descriptor that no slot has is not closed, unless `poll` failed. -/
theorem Sound.not_closed (hs : Sound socketFd u w) (hpoll : a.poll ≠ -1) {fd : Int}
    (hnot : ∀ i, u.Occupied i → (u.pollt i).fd ≠ fd) : .close fd ∉ (serve socketFd a).calls u := by
  intro hclose
  rcases mem_serve_close.1 hclose with ⟨i, hi, hend, hifd⟩ | ⟨hfail, -⟩
  · have hb := hs.bound
    exact hnot i ⟨hi.1, by omega, hend.1.1⟩ hifd
  · exact hpoll hfail

/-- The rest of an iteration: the clients that end leave the table and the connections, and where
`poll` failed all of them do. -/
theorem Sound.listed_serve (hs : Sound socketFd u w) {fds : List Int} (h : Listed u fds) :
    (a.poll ≠ -1 → Listed ((serve socketFd a).final u)
      (((serve socketFd a).calls u).foldl track fds)) ∧
    (a.poll = -1 → ((serve socketFd a).calls u).foldl track fds = []) := by
  obtain ⟨hnodup, hmem⟩ := track_of_not_accept (not_mem_serve_accept socketFd a u) h.nodup
  obtain ⟨⟨buffer, hfin⟩, -⟩ := serve_spec socketFd a u
  constructor
  · intro hpoll
    refine ⟨hnodup, fun fd => ?_⟩
    have hocc : ∀ i, ((serve socketFd a).final u).Occupied i ↔ u.Occupied i ∧ ¬ Ended a u i := by
      intro i
      rw [hfin]
      exact hs.afterReads_occupied_iff
    have hfd : ∀ i, ¬ Ended a u i →
        (((serve socketFd a).final u).pollt i).fd = (u.pollt i).fd := by
      intro i hi
      rw [hfin]
      exact afterReads_fd hi
    rw [hmem, h.mem_iff, mem_serve_close]
    constructor
    · rintro ⟨⟨i, hi, rfl⟩, hclose⟩
      have hend : ¬ Ended a u i := fun hend =>
        hclose (Or.inl ⟨i, ⟨hi.1, hs.covered i hi⟩, hend, rfl⟩)
      exact ⟨i, (hocc i).2 ⟨hi, hend⟩, hfd i hend⟩
    · rintro ⟨i, hi, rfl⟩
      obtain ⟨hi', hend⟩ := (hocc i).1 hi
      rw [hfd i hend]
      refine ⟨⟨i, hi', rfl⟩, ?_⟩
      rintro (⟨j, hj, hjend, hij⟩ | ⟨hfail, -⟩)
      · have hjmax := hs.bound
        have hj' : u.Occupied j := ⟨hj.1, by omega, hjend.1.1⟩
        exact hend (hs.distinct hj' hi' hij ▸ hjend)
      · exact hpoll hfail
  · intro hpoll
    refine List.eq_nil_iff_forall_not_mem.2 fun fd hfd => ?_
    obtain ⟨hold, hclose⟩ := (hmem fd).1 hfd
    obtain ⟨i, hi, rfl⟩ := (h.mem_iff fd).1 hold
    rw [mem_serve_close] at hclose
    by_cases hend : Ended a u i
    · exact hclose (Or.inl ⟨i, ⟨hi.1, hs.covered i hi⟩, hend, rfl⟩)
    · have hocc := hs.afterReads_occupied_iff.2 ⟨hi, hend⟩
      refine hclose (Or.inr ⟨hpoll, Or.inr ⟨i, ?_, afterReads_fd hend⟩⟩)
      rw [Vars.inUse, List.mem_filter, List.mem_range'_1]
      have hlt := hs.covered i hi
      have h2 := hi.1
      have hn : (u.afterReads a).nfds = u.nfds := rfl
      exact ⟨by omega, by simpa using hocc.2.2⟩

/-! ## One iteration -/

theorem mem_iteration_accept {fd : Int} :
    .accept fd ∈ (iteration socketFd a).calls v ↔
      v.running = true ∧ Accepts a (v.polled a) ∧ a.accept = fd := by
  by_cases hrun : v.running = true
  · rw [(iteration_running hrun).2]
    cases ha : accepted a (v.polled a) with
    | none =>
      have hacc : ¬ Accepts a (v.polled a) := by
        intro h
        rw [(accepted_of_accepts h).1] at ha
        cases ha
      rw [(acceptClient_of_not_accepted ha).2]
      simp [hacc]
    | some u =>
      have hserve := not_mem_serve_accept socketFd a u fd
      rw [(acceptClient_of_accepted ha).2, List.mem_append, mem_acceptCalls ha]
      simp [hserve, hrun]
  · rw [(iteration_stopped (by simpa using hrun)).2]
    simp [hrun]

/-- A connection that arrives has a descriptor that is not open. -/
theorem Fresh.not_open {h : List Call} (hfresh : Fresh socketFd h v a)
    (hw : replay next (opened socketFd) h = some w) (hrun : v.running = true)
    (hacc : Accepts a (v.polled a)) : w a.accept = none :=
  hfresh w hw a.accept (mem_iteration_accept.2 ⟨hrun, hacc, rfl⟩)

/-- The invariant of the runs in which every connection finds a free slot, after the calls `h`. -/
def Kept (socketFd : Int) (h : List Call) (v : Vars) : Prop :=
  ∃ w, replay next (opened socketFd) h = some w ∧
    ((Sound socketFd v w ∧ Listed v (connected h)) ∨ (Closed v w ∧ connected h = []))

/-- Every connection is in exactly one slot, below `nfds`: it is polled and written to. -/
def InOneSlot (h : List Call) (v : Vars) : Prop :=
  ∀ fd ∈ connected h, ∃! i, v.Occupied i ∧ i < v.nfds ∧ (v.pollt i).fd = fd

/-- An iteration that accepts a connection has a free slot for it. -/
def HasRoom (v : Vars) (a : Answers) : Prop :=
  v.running = true → Accepts a (v.polled a) → ∃ i, 2 ≤ i ∧ i ≤ maxClients ∧ (v.pollt i).fd = -1

theorem Sound.inOneSlot {h : List Call} (hs : Sound socketFd v w) (hl : Listed v (connected h)) :
    InOneSlot h v := by
  intro fd hfd
  obtain ⟨i, hi, rfl⟩ := (hl.mem_iff fd).1 hfd
  exact ⟨i, ⟨hi, hs.covered i hi, rfl⟩, fun j hj => hs.distinct hj.1 hi hj.2.2⟩

theorem Kept.inOneSlot {h : List Call} (hk : Kept socketFd h v) : InOneSlot h v := by
  obtain ⟨w, -, ⟨hs, hl⟩ | ⟨-, hnil⟩⟩ := hk
  · exact hs.inOneSlot hl
  · intro fd hfd
    rw [hnil] at hfd
    cases hfd

theorem room_freeSlot {i : Nat} (h2 : 2 ≤ i) (hmax : i ≤ maxClients) (hfd : (v.pollt i).fd = -1) :
    ∃ j, freeSlot v.pollt = some j := by
  cases hf : freeSlot v.pollt with
  | none => exact absurd hfd (freeSlot_eq_none.1 hf i h2 hmax)
  | some j => exact ⟨j, rfl⟩

/-- The clients with which an iteration gets past its first job, a new connection among them. -/
theorem Sound.listed_accepted {h : List Call} (hs : Sound socketFd v w)
    (hw : replay next (opened socketFd) h = some w) (hl : Listed v (connected h))
    (hfresh : Fresh socketFd h v a) (hroom : HasRoom v a) (ha : accepted a (v.polled a) = some u) :
    Listed u (connected (h ++ acceptCalls a (v.polled a))) := by
  have hpoll : Listed (v.polled a) (connected h) := hl.congr fun i => by simp [Vars.polled]
  by_cases hacc : Accepts a (v.polled a)
  · obtain ⟨hsome, hcalls⟩ := accepted_of_accepts hacc
    have hnone := hfresh.not_open hw hs.running hacc
    obtain ⟨i, h2, hmax, hfd⟩ := hroom hs.running hacc
    obtain ⟨j, hj⟩ := room_freeSlot (v := v.polled a) h2 hmax (by simpa [Vars.polled] using hfd)
    rw [hsome, Option.some.injEq] at ha
    rw [← ha, connected_append, hcalls]
    exact (hs.polled a).listed_stored hpoll hacc.2.2 hnone hj
  · obtain ⟨rfl, hcalls⟩ := accepted_of_not_accepts hacc ha
    rwa [hcalls, List.append_nil]

/-- An iteration that has room for its connection keeps the invariant. -/
theorem iteration_kept {h : List Call} (hk : Kept socketFd h v) (hfresh : Fresh socketFd h v a)
    (hroom : HasRoom v a) :
    Kept socketFd (h ++ (iteration socketFd a).calls v) ((iteration socketFd a).final v) := by
  obtain ⟨w, hw, ⟨hs, hl⟩ | ⟨hc, hnil⟩⟩ := hk
  · obtain ⟨w', hw', hinv⟩ := iteration_keeps h a v w ⟨Or.inl hs, hw, hfresh⟩
    refine ⟨w', by rw [replay_append_some hw, hw'], ?_⟩
    rw [(iteration_running hs.running).1] at hinv ⊢
    rw [(iteration_running hs.running).2]
    cases ha : accepted a (v.polled a) with
    | none =>
      rw [(acceptClient_of_not_accepted ha).1] at hinv ⊢
      rw [(acceptClient_of_not_accepted ha).2]
      have hrun : (v.polled a).running = true := hs.running
      have hs' : Sound socketFd (v.polled a) w' := hinv.resolve_right fun hc => by
        rw [hc.stopped] at hrun
        cases hrun
      refine Or.inl ⟨hs', ?_⟩
      rw [connected_append]
      exact hl.congr fun i => by simp [Vars.polled]
    | some u =>
      obtain ⟨w'', -, hu⟩ := hs.after_accept hw hfresh ha
      have hlu := hs.listed_accepted hw hl hfresh hroom ha
      rw [(acceptClient_of_accepted ha).1] at hinv ⊢
      rw [(acceptClient_of_accepted ha).2, ← List.append_assoc, connected_append]
      obtain ⟨hgo, hleave⟩ := hu.listed_serve (a := a) hlu
      obtain ⟨⟨buffer, hfin⟩, -⟩ := serve_spec socketFd a u
      have hrun : ((serve socketFd a).final u).running = (a.poll != -1) := by
        rw [hfin]
        show (u.running && a.poll != -1) = _
        rw [hu.running, Bool.true_and]
      by_cases hpoll : a.poll = -1
      · refine Or.inr ⟨hinv.resolve_left fun hs' => ?_, hleave hpoll⟩
        have hrun' := hs'.running
        simp [hrun, hpoll] at hrun'
      · refine Or.inl ⟨hinv.resolve_right fun hc => ?_, hgo hpoll⟩
        have hstop := hc.stopped
        simp [hrun, hpoll] at hstop
  · rw [(iteration_stopped hc.stopped).1, (iteration_stopped hc.stopped).2, List.append_nil]
    exact ⟨w, hw, Or.inr ⟨hc, hnil⟩⟩

/-- A connection without room is in no slot, and not closed either. -/
theorem iteration_leaks {h : List Call} (hk : Kept socketFd h v) (hfresh : Fresh socketFd h v a)
    (hroom : ¬ HasRoom v a) :
    ¬ InOneSlot (h ++ (iteration socketFd a).calls v) ((iteration socketFd a).final v) := by
  simp only [HasRoom, not_forall, not_exists, not_and] at hroom
  obtain ⟨hrun, hacc, hfull⟩ := hroom
  obtain ⟨w, hw, ⟨hs, hl⟩ | ⟨hc, -⟩⟩ := hk
  · obtain ⟨hsome, hcalls⟩ := accepted_of_accepts hacc
    have hsame : (v.polled a).stored a.accept = v.polled a := by
      have hnone : freeSlot (v.polled a).pollt = none :=
        freeSlot_eq_none.2 fun i h2 hmax => by simpa [Vars.polled] using hfull i h2 hmax
      simp [Vars.stored, hnone]
    rw [hsame] at hsome
    obtain ⟨hfin, hcs⟩ : (acceptClient socketFd a).final (v.polled a) = _ ∧ _ :=
      acceptClient_of_accepted hsome
    have hpoll := hs.polled a
    have hnot : ∀ i, (v.polled a).Occupied i → ((v.polled a).pollt i).fd ≠ a.accept :=
      fun i hi => hpoll.fd_ne (hfresh.not_open hw hrun hacc) hi
    rw [(iteration_running hrun).1, (iteration_running hrun).2, hfin, hcs, hcalls]
    intro hin
    have hmem : a.accept ∈ connected (h ++ ([.accept a.accept,
        .printf ("\n[client connected: " ++ a.clientIp ++ "]\n")] ++
          (serve socketFd a).calls (v.polled a))) := by
      have hfd : a.accept ∉ connected h := by
        intro hmem
        obtain ⟨i, hi, hifd⟩ := (hl.mem_iff _).1 hmem
        exact hnot i (by simpa [Vars.Occupied, Vars.polled] using hi) (by simpa [Vars.polled] using hifd)
      obtain ⟨-, htrack⟩ := track_of_not_accept (not_mem_serve_accept socketFd a (v.polled a))
        (List.nodup_cons.2 ⟨hfd, hl.nodup⟩)
      rw [← List.append_assoc, connected_append, connected_append]
      have hpos := hacc.1
      exact (htrack _).2 ⟨List.mem_cons_self, hpoll.not_closed (by omega) hnot⟩
    obtain ⟨i, ⟨hi, -, hifd⟩, -⟩ := hin _ hmem
    obtain ⟨⟨buffer, hserve⟩, -⟩ := serve_spec socketFd a (v.polled a)
    rw [hserve] at hi hifd
    obtain ⟨hi', hend⟩ :=
      hpoll.afterReads_occupied_iff.1 (show ((v.polled a).afterReads a).Occupied i from hi)
    exact hnot i hi' ((afterReads_fd hend).symm.trans hifd)
  · rw [hc.stopped] at hrun
    cases hrun

/-- What an iteration does for the connections: a new one gets a slot while there are fewer than
`maxClients`, and whoever is connected is written what is read from standard input. -/
def ServesConnected (socketFd : Int) (h : List Call) (v : Vars) (a : Answers) : Prop :=
  (∀ u, v.running = true → accepted a (v.polled a) = some u → Accepts a (v.polled a) →
    (connected h).length < maxClients → ∃! i, u.Occupied i ∧ (u.pollt i).fd = a.accept) ∧
  ∀ chunk u, chunkRead a v = some (chunk, u) →
    ∀ fd ∈ connected (h ++ acceptCalls a (v.polled a)),
      (fd, chunk) ∈ writes ((iteration socketFd a).calls v)

theorem iteration_serves {h : List Call} (hk : Kept socketFd h v) (hfresh : Fresh socketFd h v a)
    (hroom : HasRoom v a) : ServesConnected socketFd h v a := by
  obtain ⟨w, hw, ⟨hs, hl⟩ | ⟨hc, -⟩⟩ := hk
  · refine ⟨fun u _ ha hacc _ => ?_, fun chunk u hread fd hfd => ?_⟩
    · obtain ⟨w', -, hu⟩ := hs.after_accept hw hfresh ha
      have hmem : a.accept ∈ connected (h ++ acceptCalls a (v.polled a)) := by
        rw [(accepted_of_accepts hacc).2, connected_append]
        exact List.mem_cons_self
      obtain ⟨i, hi, hfd⟩ := ((hs.listed_accepted hw hl hfresh hroom ha).mem_iff _).1 hmem
      exact ⟨i, ⟨hi, hfd⟩, fun j hj => hu.distinct hj.1 hi (hj.2.trans hfd.symm)⟩
    · have ha := (chunkRead_accepted hread).2
      obtain ⟨w', -, hu⟩ := hs.after_accept hw hfresh ha
      obtain ⟨i, hi, hifd⟩ := ((hs.listed_accepted hw hl hfresh hroom ha).mem_iff fd).1 hfd
      exact ((delivers_of_read hread hu).mem_iff fd chunk).2 ⟨rfl, i, hi, hifd⟩
  · have hstop : ¬ v.running = true := by simp [hc.stopped]
    refine ⟨fun u hrun => absurd hrun hstop, fun chunk u hread => ?_⟩
    exact absurd (chunkRead_accepted hread).1 hstop

/-! ## Whole runs -/

theorem initial_kept (socketFd : Int) (stack : Nat → Pollfd) :
    Kept socketFd [] (initial socketFd stack) := by
  have hs := initial_sound socketFd stack
  have hnone : ∀ fd, fd ∈ connected [] ↔
      ∃ i, (initial socketFd stack).Occupied i ∧ ((initial socketFd stack).pollt i).fd = fd := by
    intro fd
    refine ⟨fun h => (List.not_mem_nil h).elim, ?_⟩
    rintro ⟨i, hi, -⟩
    have h2 := hi.1
    have hlt : i < 2 := hs.covered i hi
    omega
  exact ⟨opened socketFd, rfl, Or.inl ⟨hs, List.nodup_nil, hnone⟩⟩

/-- No connection is leaked, every connection gets a slot while fewer than `maxClients` are connected,
and each is written what is read from standard input, all along a run, if and only if no connection is
accepted while the slots `2` to `maxClients` are all in use. -/
theorem no_leak_iff_hasRoom (socketFd : Int) (stack : Nat → Pollfd) (as : List Answers)
    (hfresh : AllSteps (iteration socketFd) (Fresh socketFd) [] (initial socketFd stack) as) :
    (AlongRun (iteration socketFd) InOneSlot [] (initial socketFd stack) as ∧
      AllSteps (iteration socketFd) (ServesConnected socketFd) [] (initial socketFd stack) as) ↔
    AllSteps (iteration socketFd) (fun _ v a => HasRoom v a) [] (initial socketFd stack) as := by
  have hiff : AlongRun (iteration socketFd) InOneSlot [] (initial socketFd stack) as ↔
      AllSteps (iteration socketFd) (fun _ v a => HasRoom v a) [] (initial socketFd stack) as :=
    alongRun_iff_allSteps (fun _ _ => Kept.inOneSlot) (fun _ _ _ => iteration_kept)
      (fun _ _ _ => iteration_leaks) (initial_kept socketFd stack) hfresh
  constructor
  · rintro ⟨hin, -⟩
    exact hiff.1 hin
  · intro hroom
    refine ⟨hiff.2 hroom, ?_⟩
    have hall := AllSteps.with_invariant (fun _ _ _ hk hf hr => iteration_kept hk hf hr)
      (initial_kept socketFd stack) hfresh hroom
    exact hall.mono fun h v a hall => iteration_serves hall.1 hall.2.1 hall.2.2

/-! ## A hundred clients -/

/-- An iteration in which `accept` returns `fd` and nothing else happens. -/
def arrives (fd : Int) : Answers where
  poll := 1
  revents i := if i = 0 then POLLIN else 0
  accept := fd
  clientIp := "127.0.0.1"
  stdin := none
  read _ := none

/-- The listening socket is descriptor `3`, and no other slot has events from an earlier `poll`. -/
structure Calm (v : Vars) : Prop where
  running : v.running = true
  listening : (v.pollt 0).fd = 3 ∧ 2 ≤ v.nfds
  quiet : ∀ i, 1 ≤ i → (v.pollt i).revents = 0

/-- The calls of an iteration in which only a connection arrives. -/
def arrivalCalls (fd : Int) : List Call :=
  [.accept fd, .printf ("\n[client connected: " ++ "127.0.0.1" ++ "]\n")]

/-- After the first job of such an iteration. -/
def Vars.arrived (v : Vars) (fd : Int) : Vars := (v.polled (arrives fd)).stored fd

theorem Calm.accepts (hc : Calm v) {fd : Int} (hfd : fd ≠ -1) :
    Accepts (arrives fd) (v.polled (arrives fd)) := by
  have h0 : 0 < v.nfds := by have := hc.listening.2; omega
  refine ⟨Int.one_pos, ?_, hfd⟩
  simp [Vars.polled, poll, pollfds, Server.arrives, h0, hc.listening.1, Pollfd.readable, POLLIN]

theorem Calm.arrived (hc : Calm v) (fd : Int) : Calm (v.arrived fd) := by
  have hzero : ∀ j, freeSlot (v.polled (Server.arrives fd)).pollt = some j → 0 ≠ j := by
    intro j hj
    have h2 := (freeSlot_eq_some hj).1
    omega
  refine ⟨?_, ⟨?_, ?_⟩, fun i hi => ?_⟩
  · rw [Vars.arrived, stored_running]
    exact hc.running
  · rw [Vars.arrived, stored_pollt_of_ne hzero]
    simpa [Vars.polled] using hc.listening.1
  · exact Nat.le_trans hc.listening.2 (nfds_le_stored (v.polled (Server.arrives fd)) fd)
  · have hi0 : i ≠ 0 := by omega
    rw [Vars.arrived, stored_revents]
    simp only [Vars.polled, poll, Server.arrives]
    by_cases hlt : i < v.nfds
    · simp [pollfds, hlt, hi0]
    · simp [pollfds, hlt, hc.quiet i hi]

theorem Calm.iteration (hc : Calm v) {fd : Int} (hfd : fd ≠ -1) :
    (Server.iteration 3 (arrives fd)).calls v = arrivalCalls fd ∧
    Calm ((Server.iteration 3 (arrives fd)).final v) := by
  obtain ⟨hsome, hcalls⟩ := accepted_of_accepts (hc.accepts hfd)
  have hu := hc.arrived fd
  have hunread : ∀ i, 1 ≤ i → ((v.arrived fd).pollt i).readable = false := by
    intro i hi
    simp [Pollfd.readable, hu.quiet i hi]
  obtain ⟨⟨buffer, hfin⟩, hnone⟩ : (∃ buffer, (serve 3 (arrives fd)).final (v.arrived fd) = _) ∧
      (serve 3 (arrives fd)).calls (v.arrived fd) = [] :=
    serve_idle (by simp [Server.arrives]) (hunread 1 (Nat.le_refl 1)) fun i hi hdue => by
      have hread := hunread i (by omega)
      rw [hdue.2] at hread
      cases hread
  obtain ⟨h1, h2⟩ : (acceptClient 3 (arrives fd)).final _ = _ ∧ _ := acceptClient_of_accepted hsome
  rw [(iteration_running hc.running).1, (iteration_running hc.running).2, h1, h2, hcalls]
  refine ⟨?_, ?_⟩
  · rw [show (v.polled (arrives fd)).stored (arrives fd).accept = v.arrived fd from rfl, hnone]
    rfl
  · rw [show (v.polled (arrives fd)).stored (arrives fd).accept = v.arrived fd from rfl, hfin]
    exact ⟨hu.running, hu.listening, hu.quiet⟩

/-- A run in which one connection after the other arrives. -/
theorem Calm.pollLoop {fds : List Int} (hfds : ∀ fd ∈ fds, fd ≠ -1) (hc : Calm v) :
    (Server.pollLoop 3 (fds.map arrives)).calls v = fds.flatMap arrivalCalls := by
  induction fds generalizing v with
  | nil => rfl
  | cons fd fds ih =>
    obtain ⟨h1, h2⟩ := hc.iteration (hfds fd List.mem_cons_self)
    rw [List.map_cons, calls_forEach_cons, h1, List.flatMap_cons,
      ih (fun fd' h => hfds fd' (List.mem_cons_of_mem _ h)) h2]

/-- Such a run is one the outside can bring about, if the descriptors are new and distinct. -/
theorem Calm.fresh {fds : List Int} (hfds : ∀ fd ∈ fds, fd ≠ -1) (hnodup : fds.Nodup) (hc : Calm v)
    {h : List Call} {w : Ledger Int Unit} (hw : replay next (opened 3) h = some w)
    (hnone : ∀ fd ∈ fds, w fd = none) :
    AllSteps (Server.iteration 3) (Fresh 3) h v (fds.map arrives) := by
  induction fds generalizing v h w with
  | nil => trivial
  | cons fd fds ih =>
    obtain ⟨h1, h2⟩ := hc.iteration (hfds fd List.mem_cons_self)
    obtain ⟨hfd, hnodup'⟩ := List.nodup_cons.1 hnodup
    have hfree := hnone fd List.mem_cons_self
    refine ⟨fun w' hw' fd' hmem => ?_, ?_⟩
    · obtain ⟨-, -, rfl⟩ := mem_iteration_accept.1 hmem
      obtain rfl : w = w' := Option.some.inj (hw.symm.trans hw')
      exact hfree
    · refine ih (fun fd' hmem => hfds fd' (List.mem_cons_of_mem _ hmem)) hnodup' h2
        (w := Function.update w fd (some ())) ?_ fun fd' hmem => ?_
      · rw [replay_append_some hw, h1]
        simp [arrivalCalls, next, Ledger.acquire_of_none hfree]
      · have hne : fd' ≠ fd := fun heq => hfd (heq ▸ hmem)
        rw [Function.update_of_ne hne]
        exact hnone fd' (List.mem_cons_of_mem _ hmem)

theorem connected_arrivals (fds : List Int) :
    connected (fds.flatMap arrivalCalls) = fds.reverse := by
  have hfold : ∀ gs : List Int, (fds.flatMap arrivalCalls).foldl track gs = fds.reverse ++ gs := by
    induction fds with
    | nil => exact fun gs => rfl
    | cons fd fds ih =>
      intro gs
      rw [List.flatMap_cons, List.foldl_append, ih, List.reverse_cons, List.append_assoc]
      rfl
  exact (hfold []).trans (List.append_nil _)

/-- The client slots hold at most `99` connections. -/
theorem length_le_of_inOneSlot {h : List Call} (hin : InOneSlot h v) (hnodup : (connected h).Nodup) :
    (connected h).length ≤ 99 := by
  have hsub : connected h ⊆ (List.range' 2 99).map fun i => (v.pollt i).fd := by
    intro fd hfd
    obtain ⟨i, ⟨⟨h2, hmax, -⟩, -, hifd⟩, -⟩ := hin fd hfd
    refine List.mem_map.2 ⟨i, ?_, hifd⟩
    rw [List.mem_range'_1]
    have hlt : i ≤ 100 := hmax
    omega
  have hle := (hnodup.subperm hsub).length_le
  simpa using hle

/-- Slots whose `events` and `revents` happen to be zero. -/
def zeroes : Nat → Pollfd := fun _ => ⟨0, 0, 0⟩

theorem initial_calm : Calm (initial 3 zeroes) := by
  refine ⟨rfl, ⟨rfl, Nat.le_refl 2⟩, fun i hi => ?_⟩
  simp only [initial]
  split_ifs <;> rfl

/-- A hundred distinct descriptors, none of which was open at the beginning. -/
def hundred : List Int := (List.range' 4 100).map Int.ofNat

theorem hundred_spec : (∀ fd ∈ hundred, fd ≠ -1 ∧ opened 3 fd = none) ∧ hundred.Nodup := by
  constructor
  · intro fd hfd
    obtain ⟨k, hk, rfl⟩ := List.mem_map.1 hfd
    have h4 := (List.mem_range'_1.1 hk).1
    have hpos : (4 : Int) ≤ Int.ofNat k := Int.ofNat_le.2 h4
    refine ⟨by omega, ?_⟩
    rw [opened, if_neg (by omega)]
  · exact List.Nodup.map (fun _ _ => Int.ofNat.inj) List.nodup_range'

/-- A hundred clients connect, and none goes. All of them are announced, but not all have a slot. -/
theorem hundredth_client_leaked :
    AllSteps (iteration 3) (Fresh 3) [] (initial 3 zeroes) (hundred.map arrives) ∧
    (connected ((pollLoop 3 (hundred.map arrives)).calls (initial 3 zeroes))).length = 100 ∧
    ¬ AlongRun (iteration 3) InOneSlot [] (initial 3 zeroes) (hundred.map arrives) := by
  obtain ⟨hfds, hnodup⟩ := hundred_spec
  have hcalls := initial_calm.pollLoop fun fd h => (hfds fd h).1
  have hconn : connected ((pollLoop 3 (hundred.map arrives)).calls (initial 3 zeroes)) =
      hundred.reverse := by
    rw [hcalls, connected_arrivals]
  have hlen : (connected ((pollLoop 3 (hundred.map arrives)).calls (initial 3 zeroes))).length =
      100 := by
    rw [hconn, List.length_reverse, hundred, List.length_map, List.length_range']
  refine ⟨initial_calm.fresh (fun fd h => (hfds fd h).1) hnodup rfl fun fd h => (hfds fd h).2, hlen,
    fun hall => ?_⟩
  have hin := hall _ (List.prefix_refl _)
  rw [List.nil_append] at hin
  have hle := length_le_of_inOneSlot hin (hconn ▸ List.nodup_reverse.2 hnodup)
  rw [hlen] at hle
  omega

/-- Two clients connect, and both are kept. -/
theorem two_clients_kept :
    AlongRun (iteration 3) InOneSlot [] (initial 3 zeroes) [arrives 4, arrives 5] := by
  have hfresh : AllSteps (iteration 3) (Fresh 3) [] (initial 3 zeroes) ([4, 5].map arrives) :=
    initial_calm.fresh (by decide) (by decide) rfl (by decide)
  refine ((no_leak_iff_hasRoom 3 zeroes _ hfresh).2 ⟨fun _ _ => ?_, fun _ _ => ?_, trivial⟩).1
  · exact ⟨2, by decide, by decide, by decide⟩
  · exact ⟨3, by decide, by decide, by decide⟩

end SystemsProgramming.TcpSuite.Server
