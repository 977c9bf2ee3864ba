import SystemsProgramming.Foundations.Feed
import SystemsProgramming.TcpSuite.Proofs.LeakProofs

/-!
# Proofs: the broadcasts of the TCP server are a feed

The chunks read from standard input are the log, a connection joins when it is accepted and leaves when
it is closed, and a write is a delivery. The server never writes to a connection anything but the next
chunk of the log, and at the head of every iteration the clients in the table are up to date.
-/

namespace SystemsProgramming.TcpSuite.Server

open Foundations Prog

variable {socketFd : Int} {a : Answers} {u v : Vars} {w : Ledger Int Unit}
  {f : Feed Int (List UInt8)}

/-- What a call makes of the feed. A write that is not the delivery of the next chunk is an error. -/
def feedNext (f : Feed Int (List UInt8)) : Call → Option (Feed Int (List UInt8))
  | .accept fd => some (f.join fd)
  | .close fd => some (f.leave fd)
  | .readStdin red => some ((received red).elim f f.publish)
  | .write fd data => f.deliver fd data
  | .read _ _ | .fwrite _ _ | .fflush | .printf _ | .perror _ => some f

/-- The clients in the table are up to date. -/
def Served (v : Vars) (f : Feed Int (List UInt8)) : Prop :=
  ∀ i, v.Occupied i → f.CaughtUp (v.pollt i).fd

/-! ## The parts of an iteration -/

/-- A call that publishes nothing, delivers nothing and lets nobody join. -/
def Call.Aside (c : Call) : Prop :=
  (∀ fd, c ≠ .accept fd) ∧ (∀ red, c ≠ .readStdin red) ∧ ∀ fd data, c ≠ .write fd data

/-- With such calls readers only leave. -/
theorem replay_aside {cs : List Call} (h : ∀ c ∈ cs, c.Aside) :
    ∃ f', replay feedNext f cs = some f' ∧
      ∀ fd, .close fd ∉ cs → f.CaughtUp fd → f'.CaughtUp fd := by
  induction cs generalizing f with
  | nil => exact ⟨f, rfl, fun _ _ => id⟩
  | cons c cs ih =>
    rw [List.forall_mem_cons] at h
    obtain ⟨⟨haccept, hread, hwrite⟩, hcs⟩ := h
    have hstep : ∃ f1, feedNext f c = some f1 ∧
        ∀ fd, c ≠ .close fd → f.CaughtUp fd → f1.CaughtUp fd := by
      cases c with
      | accept fd => exact absurd rfl (haccept fd)
      | readStdin red => exact absurd rfl (hread red)
      | write fd data => exact absurd rfl (hwrite fd data)
      | close fd =>
        refine ⟨f.leave fd, rfl, fun fd' hne hup => ?_⟩
        have hfd : fd' ≠ fd := fun heq => hne (heq ▸ rfl)
        exact (Function.update_of_ne hfd _ _).trans hup
      | _ => exact ⟨f, rfl, fun _ _ => id⟩
    obtain ⟨f1, h1, hup1⟩ := hstep
    obtain ⟨f2, h2, hup2⟩ := ih (f := f1) hcs
    refine ⟨f2, by rw [replay_cons, h1]; exact h2, fun fd hclose hup => ?_⟩
    rw [List.mem_cons, not_or] at hclose
    exact hup2 fd hclose.2 (hup1 fd (Ne.symm hclose.1) hup)

theorem aside_roundCalls {buffer : List UInt8} {i : Nat} : ∀ c ∈ roundCalls a v buffer i, c.Aside := by
  intro c hc
  refine ⟨fun fd heq => not_mem_roundCalls_accept (heq ▸ hc), fun red heq => ?_, fun fd data heq => ?_⟩
  all_goals
    subst heq
    rw [roundCalls] at hc
    split_ifs at hc
    · cases hr : read bufferSize (a.read i) with
      | none => simp [dueCalls, endCalls, hr] at hc
      | some bytes => cases bytes <;> simp [dueCalls, endCalls, hr] at hc
    · cases hc

theorem aside_leaveCalls : ∀ c ∈ leaveCalls socketFd a u, c.Aside := by
  intro c hc
  rcases mem_leaveCalls hc with ⟨text, rfl⟩ | ⟨fd, rfl⟩ <;>
    exact ⟨by simp, by simp, by simp⟩

/-- A chunk is published and delivered to every client in the table. -/
theorem Sound.broadcast_served (hs : Sound socketFd u w) (hf : Served u f) :
    ∃ f', replay feedNext f (broadcastCalls a u) = some f' ∧ Served u f' := by
  unfold broadcastCalls
  by_cases hready : 0 < a.poll ∧ (u.pollt 1).readable = true
  · rw [if_pos hready, replay_cons, stdinChunk, if_pos hready]
    cases hchunk : received (read bufferSize a.stdin) with
    | none => exact ⟨f, by rw [feedNext, hchunk]; rfl, hf⟩
    | some chunk =>
      have hnodup : (u.inUse.map fun i => (u.pollt i).fd).Nodup :=
        List.Nodup.map_on (fun i hi j hj hij =>
          hs.distinct (hs.occupied_iff.2 hi) (hs.occupied_iff.2 hj) hij) (inUse_nodup u)
      have hup : ∀ fd ∈ u.inUse.map fun i => (u.pollt i).fd, f.CaughtUp fd := by
        intro fd hfd
        obtain ⟨i, hi, rfl⟩ := List.mem_map.1 hfd
        exact hf i (hs.occupied_iff.2 hi)
      obtain ⟨f', h1, -, hup'⟩ := Feed.publish_deliver_each hnodup hup chunk
      refine ⟨f', ?_, fun i hi => hup' _ (List.mem_map.2 ⟨i, hs.occupied_iff.1 hi, rfl⟩)⟩
      have hdeliver : replay feedNext (f.publish chunk)
          (u.inUse.map fun i => .write (u.pollt i).fd chunk) = some f' := by
        rw [← h1, replay, List.foldlM_map, List.foldlM_map]
        rfl
      have hprint : replay feedNext f' (if u.inUse = [] then [.printf noClientsConnected] else []) =
          some f' := by
        split <;> rfl
      rw [feedNext, hchunk]
      exact (replay_append_some hdeliver _).trans hprint
  · rw [if_neg hready]
    exact ⟨f, rfl, hf⟩

/-- The rest of an iteration, after which the clients still in the table are up to date. -/
theorem Sound.serve_served (hs : Sound socketFd u w) (hf : Served u f) :
    ∃ f', replay feedNext f ((serve socketFd a).calls u) = some f' ∧
      (((serve socketFd a).final u).running = true → Served ((serve socketFd a).final u) f') := by
  obtain ⟨f1, h1, hf1⟩ := hs.broadcast_served (a := a) hf
  obtain ⟨⟨buffer, hfin⟩, buffers, hcalls⟩ := serve_spec socketFd a u
  have haside : ∀ c ∈ (u.clientSlots.flatMap fun i => roundCalls a u (buffers i) i) ++
      leaveCalls socketFd a u, c.Aside := by
    refine List.forall_mem_append.2 ⟨fun c hc => ?_, aside_leaveCalls⟩
    obtain ⟨i, -, hc⟩ := List.mem_flatMap.1 hc
    exact aside_roundCalls c hc
  obtain ⟨f2, h2, hup⟩ := replay_aside (f := f1) haside
  rw [List.append_assoc] at hcalls
  refine ⟨f2, by rw [hcalls, replay_append_some h1, h2], fun hrun i hi => ?_⟩
  rw [hfin] at hrun hi ⊢
  obtain ⟨hocc, hend⟩ := hs.afterReads_occupied_iff.1 hi
  have hpoll : a.poll ≠ -1 := by
    intro hfail
    simp [hfail] at hrun
  have hfd : ((u.afterReads a).pollt i).fd = (u.pollt i).fd := afterReads_fd hend
  rw [show ((u.afterReads a).pollt i).fd = _ from hfd]
  refine hup _ (fun hclose => ?_) (hf1 i hocc)
  -- of the descriptors in the table only those of clients that end are closed
  have hmem : .close (u.pollt i).fd ∈ (serve socketFd a).calls u := by
    rw [hcalls]
    exact List.mem_append_right _ hclose
  rcases mem_serve_close.1 hmem with ⟨j, hj, hjend, hij⟩ | ⟨hfail, -⟩
  · have hb := hs.bound
    have hj' : u.Occupied j := ⟨hj.1, by omega, hjend.1.1⟩
    exact hend (hs.distinct hj' hocc hij ▸ hjend)
  · exact hpoll hfail

/-- A new connection follows the feed from here on. -/
theorem accepted_served (hf : Served v f) (ha : accepted a v = some u) :
    ∃ f', replay feedNext f (acceptCalls a v) = some f' ∧ Served u f' := by
  by_cases hacc : Accepts a v
  · obtain ⟨hsome, hcalls⟩ := accepted_of_accepts hacc
    obtain rfl := Option.some.inj (hsome.symm.trans ha)
    refine ⟨f.join a.accept, by rw [hcalls]; rfl, fun i hi => ?_⟩
    cases hslot : freeSlot v.pollt with
    | none =>
      have hsame : v.stored a.accept = v := by simp [Vars.stored, hslot]
      rw [hsame] at hi ⊢
      exact (hf i hi).join _
    | some j =>
      by_cases hij : i = j
      · have hfd : ((v.stored a.accept).pollt i).fd = a.accept := by simp [Vars.stored, hslot, hij]
        rw [hfd]
        exact Feed.caughtUp_join f a.accept
      · have hsame : (v.stored a.accept).pollt i = v.pollt i :=
          stored_pollt_of_ne fun k hk hik => hij (hik.trans (Option.some.inj (hk.symm.trans hslot)))
        have hocc : v.Occupied i :=
          ((stored_occupied_iff hacc.2.2 hslot i).1 hi).resolve_right hij
        rw [hsame]
        exact (hf i hocc).join _
  · obtain ⟨rfl, hcalls⟩ := accepted_of_not_accepts hacc ha
    exact ⟨f, by rw [hcalls]; rfl, hf⟩

/-! ## Whole runs -/

/-- The invariant of the loop, after the calls `h`. -/
def Broadcasting (socketFd : Int) (h : List Call) (v : Vars) (f : Feed Int (List UInt8)) : Prop :=
  ∃ w, replay next (opened socketFd) h = some w ∧ Inv socketFd v w ∧ (v.running = true → Served v f)

theorem iteration_broadcasting {h : List Call} (hb : Broadcasting socketFd h v f)
    (hfresh : Fresh socketFd h v a) :
    ∃ f', replay feedNext f ((iteration socketFd a).calls v) = some f' ∧
      Broadcasting socketFd (h ++ (iteration socketFd a).calls v) ((iteration socketFd a).final v)
        f' := by
  obtain ⟨w, hw, hinv, hf⟩ := hb
  obtain ⟨w', hw', hinv'⟩ := iteration_keeps h a v w ⟨hinv, hw, hfresh⟩
  have hnext : replay next (opened socketFd) (h ++ (iteration socketFd a).calls v) = some w' := by
    rw [replay_append_some hw, hw']
  suffices hserved : ∃ f', replay feedNext f ((iteration socketFd a).calls v) = some f' ∧
      (((iteration socketFd a).final v).running = true →
        Served ((iteration socketFd a).final v) f') by
    obtain ⟨f', h1, h2⟩ := hserved
    exact ⟨f', h1, w', hnext, hinv', h2⟩
  rcases hinv with hs | hc
  · have hpolled : Served (v.polled a) f := fun i hi => by
      simpa [Vars.polled] using hf hs.running i (by simpa [Vars.Occupied, Vars.polled] using hi)
    rw [(iteration_running hs.running).1, (iteration_running hs.running).2]
    cases ha : accepted a (v.polled a) with
    | none =>
      rw [(acceptClient_of_not_accepted ha).1, (acceptClient_of_not_accepted ha).2]
      exact ⟨f, rfl, fun _ => hpolled⟩
    | some u =>
      obtain ⟨w'', -, hu⟩ := hs.after_accept hw hfresh ha
      obtain ⟨f1, h1, hf1⟩ := accepted_served hpolled ha
      obtain ⟨f2, h2, hf2⟩ := hu.serve_served (a := a) hf1
      rw [(acceptClient_of_accepted ha).1, (acceptClient_of_accepted ha).2]
      exact ⟨f2, by rw [replay_append_some h1, h2], hf2⟩
  · rw [(iteration_stopped hc.stopped).1, (iteration_stopped hc.stopped).2]
    refine ⟨f, rfl, fun hrun => ?_⟩
    rw [hc.stopped] at hrun
    cases hrun

/-- The calls of a whole run are ones of the feed, and at its end the clients in the table are up to
date. -/
theorem pollLoop_broadcasting {as : List Answers} {h : List Call} (hb : Broadcasting socketFd h v f)
    (hfresh : AllSteps (iteration socketFd) (Fresh socketFd) h v as) :
    ∃ f', replay feedNext f ((pollLoop socketFd as).calls v) = some f' ∧
      Broadcasting socketFd (h ++ (pollLoop socketFd as).calls v) ((pollLoop socketFd as).final v)
        f' := by
  induction as generalizing h v f with
  | nil => exact ⟨f, rfl, by simpa using hb⟩
  | cons a as ih =>
    obtain ⟨f1, h1, hb1⟩ := iteration_broadcasting hb hfresh.1
    obtain ⟨f2, h2, hb2⟩ := ih hb1 hfresh.2
    refine ⟨f2, ?_, ?_⟩
    · rw [calls_forEach_cons, replay_append_some h1]
      exact h2
    · rw [calls_forEach_cons, final_forEach_cons, ← List.append_assoc]
      exact hb2

theorem initial_broadcasting (socketFd : Int) (stack : Nat → Pollfd) :
    Broadcasting socketFd [] (initial socketFd stack) .empty := by
  refine ⟨opened socketFd, rfl, Or.inl (initial_sound socketFd stack), fun _ i hi => ?_⟩
  have hlt := (initial_sound socketFd stack).covered i hi
  have h2 := hi.1
  have hn : (initial socketFd stack).nfds = 2 := rfl
  omega

end SystemsProgramming.TcpSuite.Server
