import SystemsProgramming.TcpSuite.Proofs.LeakProofs

/-!
# Proofs: when the TCP server reads what `poll` did not report

The loop over the clients tests `revents`, and these are not always from the `poll` of the same
iteration: a `poll` that fails leaves the ones of an earlier iteration, and a slot that is used for the
first time has those that the stack happened to hold. A slot that was in use before is polled with the
descriptor `-1` while it is free, so its `revents` are clear when it is used again.
-/

namespace SystemsProgramming.TcpSuite.Server

open Foundations Prog

variable {socketFd : Int} {stack : Nat → Pollfd} {a : Answers} {u v : Vars} {w : Ledger Int Unit}
  {i : Nat}

/-- The `poll` of the iteration succeeded and reported `POLLIN` for the descriptor, which was in a
client slot at the time. -/
def Reported (a : Answers) (v : Vars) (fd : Int) : Prop :=
  0 ≤ a.poll ∧ ∃ i, v.Occupied i ∧ i < v.nfds ∧ (v.pollt i).fd = fd ∧
    ((v.polled a).pollt i).readable = true

/-- The iteration reads only from clients that `poll` reported. -/
def ReadsReported (socketFd : Int) (v : Vars) (a : Answers) : Prop :=
  ∀ fd red, .read fd red ∈ (iteration socketFd a).calls v → Reported a v fd

/-- No `revents` from elsewhere: if `poll` fails, no client has `POLLIN` from an earlier `poll`, and if
a connection gets a slot that was not polled yet, the stack had no `POLLIN` there. -/
def CleanEvents (stack : Nat → Pollfd) (v : Vars) (a : Answers) : Prop :=
  v.running = true →
    (a.poll < 0 → ∀ i, v.Occupied i → (v.pollt i).readable = false) ∧
    (Accepts a (v.polled a) → ∀ i, freeSlot v.pollt = some i → v.nfds ≤ i →
      (stack i).readable = false)

/-- The slots from `nfds` on have the `revents` of the stack. -/
def Untouched (stack : Nat → Pollfd) (v : Vars) : Prop :=
  ∀ i, 2 ≤ i → v.nfds ≤ i → (v.pollt i).revents = (stack i).revents

/-- The invariant of all runs. -/
def Tracked (socketFd : Int) (stack : Nat → Pollfd) (h : List Call) (v : Vars) : Prop :=
  (∃ w, replay next (opened socketFd) h = some w ∧ Inv socketFd v w) ∧ Untouched stack v

/-! ## What `poll` leaves in a slot -/

theorem polled_above (a : Answers) (h : v.nfds ≤ i) : (v.polled a).pollt i = v.pollt i := by
  have hlt : ¬ i < v.nfds := by omega
  simp only [Vars.polled, poll]
  split_ifs
  · rfl
  · exact if_neg hlt
  · exact if_neg hlt

/-- A slot that was free when it was polled has no events. -/
theorem polled_free (h : i < v.nfds) (hfree : (v.pollt i).fd = -1) (hpoll : 0 ≤ a.poll) :
    ((v.polled a).pollt i).readable = false := by
  have hpoll' : ¬ a.poll < 0 := by omega
  simp [Vars.polled, poll, pollfds, hpoll', h, hfree, Pollfd.readable]

theorem polled_failed (h : a.poll < 0) : v.polled a = v := by
  simp [Vars.polled, poll, h]

@[simp] theorem polled_fd (v : Vars) (a : Answers) (i : Nat) :
    ((v.polled a).pollt i).fd = (v.pollt i).fd := by
  simp [Vars.polled]

theorem freeSlot_polled (v : Vars) (a : Answers) :
    freeSlot (v.polled a).pollt = freeSlot v.pollt := by
  simp [freeSlot]

/-! ## The slots that were never used -/

theorem serve_revents (socketFd : Int) (a : Answers) (u : Vars) (i : Nat) :
    (((serve socketFd a).final u).pollt i).revents = (u.pollt i).revents ∧
    ((serve socketFd a).final u).nfds = u.nfds := by
  obtain ⟨⟨buffer, hfin⟩, -⟩ := serve_spec socketFd a u
  rw [hfin]
  exact ⟨served_revents a u _ i, rfl⟩

theorem iteration_untouched (h : Untouched stack v) :
    Untouched stack ((iteration socketFd a).final v) := by
  have hpoll : Untouched stack (v.polled a) := fun i h2 hi => by
    have hi' : v.nfds ≤ i := hi
    rw [polled_above a hi']
    exact h i h2 hi'
  by_cases hrun : v.running = true
  · rw [(iteration_running hrun).1]
    cases ha : accepted a (v.polled a) with
    | none =>
      rw [(acceptClient_of_not_accepted ha).1]
      exact hpoll
    | some u =>
      rw [(acceptClient_of_accepted ha).1]
      have hu : Untouched stack u := by
        by_cases hacc : Accepts a (v.polled a)
        · have hsome := (accepted_of_accepts hacc).1.symm.trans ha
          rw [← Option.some.inj hsome]
          intro i h2 hi
          rw [stored_revents]
          exact hpoll i h2 (Nat.le_trans (nfds_le_stored _ _) hi)
        · rw [(accepted_of_not_accepts hacc ha).1]
          exact hpoll
      intro i h2 hi
      rw [(serve_revents socketFd a u i).2] at hi
      rw [(serve_revents socketFd a u i).1]
      exact hu i h2 hi
  · rw [(iteration_stopped (by simpa using hrun)).1]
    exact h

theorem iteration_tracked {h : List Call} (ht : Tracked socketFd stack h v)
    (hfresh : Fresh socketFd h v a) :
    Tracked socketFd stack (h ++ (iteration socketFd a).calls v) ((iteration socketFd a).final v) := by
  obtain ⟨⟨w, hw, hinv⟩, hstack⟩ := ht
  obtain ⟨w', hw', hinv'⟩ := iteration_keeps h a v w ⟨hinv, hw, hfresh⟩
  exact ⟨⟨w', by rw [replay_append_some hw, hw'], hinv'⟩, iteration_untouched hstack⟩

/-! ## One iteration -/

/-- The iteration reads from the slots that are due once it is past its first job. -/
theorem mem_iteration_read (hrun : v.running = true) (ha : accepted a (v.polled a) = some u)
    {fd : Int} {red : Option (List UInt8)} :
    .read fd red ∈ (iteration socketFd a).calls v ↔
      ∃ i, (2 ≤ i ∧ i < u.nfds) ∧ u.Due i ∧ (u.pollt i).fd = fd ∧
        read bufferSize (a.read i) = red := by
  have hfirst : .read fd red ∉ acceptCalls a (v.polled a) := by
    unfold acceptCalls
    split_ifs <;> simp
  rw [(iteration_running hrun).2, (acceptClient_of_accepted ha).2, List.mem_append, mem_serve_read]
  exact or_iff_right hfirst

/-- The slot of a client that was there before the iteration is due only if it was reported, or if
`poll` failed. -/
theorem Sound.reported (hs : Sound socketFd v w) (hocc : v.Occupied i)
    (hread : ((v.polled a).pollt i).readable = true) (hpoll : 0 ≤ a.poll) :
    Reported a v (v.pollt i).fd :=
  ⟨hpoll, i, hocc, hs.covered i hocc, rfl, hread⟩

/-- The slot of a new connection is not due, if the stack had no `POLLIN` there. -/
theorem stored_not_readable (hstack : Untouched stack v) (hpoll : 0 ≤ a.poll)
    (hi : freeSlot v.pollt = some i) (hnew : v.nfds ≤ i → (stack i).readable = false) :
    ((v.polled a).pollt i).readable = false := by
  obtain ⟨h2, -, hfree⟩ := freeSlot_eq_some hi
  by_cases hlt : i < v.nfds
  · exact polled_free hlt hfree hpoll
  · have hge : v.nfds ≤ i := by omega
    rw [polled_above a hge, Pollfd.readable, hstack i h2 hge]
    exact hnew hge

theorem readsReported_of_clean {h : List Call} (ht : Tracked socketFd stack h v)
    (hclean : CleanEvents stack v a) : ReadsReported socketFd v a := by
  obtain ⟨⟨w, -, hs | hc⟩, hstack⟩ := ht
  · intro fd red hmem
    obtain ⟨hfail, hnew⟩ := hclean hs.running
    cases ha : accepted a (v.polled a) with
    | none =>
      rw [(iteration_running hs.running).2, (acceptClient_of_not_accepted ha).2] at hmem
      simp at hmem
    | some u =>
      obtain ⟨i, ⟨h2, hlt⟩, ⟨hfd, hread⟩, rfl, -⟩ := (mem_iteration_read hs.running ha).1 hmem
      by_cases hacc : Accepts a (v.polled a)
      · have hpoll : 0 ≤ a.poll := Int.le_of_lt hacc.1
        obtain rfl : (v.polled a).stored a.accept = u :=
          Option.some.inj ((accepted_of_accepts hacc).1.symm.trans ha)
        have hread' : ((v.polled a).pollt i).readable = true := by
          rw [← hread]
          simp only [Pollfd.readable, stored_revents]
        have hi : freeSlot v.pollt ≠ some i := by
          intro hi
          rw [stored_not_readable hstack hpoll hi (hnew hacc i hi)] at hread'
          cases hread'
        have hsame : ((v.polled a).stored a.accept).pollt i = (v.polled a).pollt i := by
          refine stored_pollt_of_ne fun j hj hij => ?_
          rw [freeSlot_polled] at hj
          exact hi (hij ▸ hj)
        have hb := nfds_stored_le (hs.polled a).bound a.accept
        rw [hsame, polled_fd] at hfd ⊢
        exact hs.reported ⟨h2, by omega, hfd⟩ hread' hpoll
      · obtain ⟨rfl, -⟩ := accepted_of_not_accepts hacc ha
        have hb := (hs.polled a).bound
        rw [polled_fd] at hfd ⊢
        have hocc : v.Occupied i := ⟨h2, by omega, hfd⟩
        refine hs.reported hocc hread ?_
        -- a `poll` that failed has left the `revents` of an earlier one, and those are clear
        by_contra hneg
        have hneg' : a.poll < 0 := by omega
        rw [polled_failed hneg', hfail hneg' i hocc] at hread
        cases hread
  · intro fd red hmem
    rw [(iteration_stopped hc.stopped).2] at hmem
    cases hmem

/-- Whatever else is in `revents` is read. -/
theorem clean_of_readsReported {h : List Call} (ht : Tracked socketFd stack h v)
    (hfresh : Fresh socketFd h v a) (hread : ReadsReported socketFd v a) :
    CleanEvents stack v a := by
  obtain ⟨⟨w, hw, hs | hc⟩, hstack⟩ := ht
  · intro hrun
    refine ⟨fun hneg i hi => ?_, fun hacc i hi hge => ?_⟩
    · -- the slot is due, and `poll` has not succeeded
      by_contra hstale
      have hacc : ¬ (0 < a.poll ∧ (v.pollt 0).readable = true) := by omega
      have ha : accepted a (v.polled a) = some v := by
        rw [polled_failed hneg, accepted, if_neg hacc]
      obtain ⟨hpoll, -⟩ := hread (v.pollt i).fd (read bufferSize (a.read i))
        ((mem_iteration_read hrun ha).2
          ⟨i, ⟨hi.1, hs.covered i hi⟩, ⟨hi.2.2, by simpa using hstale⟩, rfl, rfl⟩)
      omega
    · -- the new descriptor is read, and no slot had it when `poll` was called
      by_contra hstale
      obtain ⟨h2, hmax, -⟩ := freeSlot_eq_some hi
      have ha := (accepted_of_accepts hacc).1
      have hi' : freeSlot (v.polled a).pollt = some i := by rw [freeSlot_polled, hi]
      have hn : (v.polled a).nfds ≤ i := hge
      have hlt : i < ((v.polled a).stored a.accept).nfds := by
        simp only [Vars.stored, hi', if_pos hn]
        omega
      have hfd : (((v.polled a).stored a.accept).pollt i).fd = a.accept := by
        simp [Vars.stored, hi']
      have hdue : ((v.polled a).stored a.accept).Due i := by
        refine ⟨by rw [hfd]; exact hacc.2.2, ?_⟩
        rw [Pollfd.readable, stored_revents, polled_above a hge, hstack i h2 hge]
        simpa [Pollfd.readable] using hstale
      obtain ⟨-, j, hj, -, hjfd, -⟩ := hread a.accept (read bufferSize (a.read i))
        ((mem_iteration_read hrun ha).2 ⟨i, ⟨h2, hlt⟩, hdue, hfd, rfl⟩)
      exact hs.fd_ne (hfresh.not_open hw hrun hacc) hj hjfd
  · intro hrun
    rw [hc.stopped] at hrun
    cases hrun

/-! ## Whole runs -/

theorem initial_tracked (socketFd : Int) (stack : Nat → Pollfd) :
    Tracked socketFd stack [] (initial socketFd stack) := by
  refine ⟨⟨opened socketFd, rfl, Or.inl (initial_sound socketFd stack)⟩, fun i h2 _ => ?_⟩
  have h0 : i ≠ 0 := by omega
  have h1 : i ≠ 1 := by omega
  simp only [initial, h0, h1, if_false]
  split_ifs <;> rfl

/-- In a whole run only clients are read from that the `poll` of the same iteration reported, if and
only if no iteration finds `POLLIN` that was left in `revents` by an earlier `poll` or by the stack. -/
theorem readsReported_iff_cleanEvents (socketFd : Int) (stack : Nat → Pollfd) (as : List Answers)
    (hfresh : AllSteps (iteration socketFd) (Fresh socketFd) [] (initial socketFd stack) as) :
    AllSteps (iteration socketFd) (fun _ v a => ReadsReported socketFd v a) []
        (initial socketFd stack) as ↔
      AllSteps (iteration socketFd) (fun _ v a => CleanEvents stack v a) []
        (initial socketFd stack) as := by
  refine allSteps_iff_allSteps (fun h v a ht hf => ?_) (fun h v a ht hf _ => iteration_tracked ht hf)
    (initial_tracked socketFd stack) hfresh
  exact ⟨clean_of_readsReported ht hf, readsReported_of_clean ht⟩

/-- The stack happened to hold `POLLIN` in the `revents` of the slots. -/
def leftovers : Nat → Pollfd := fun _ => ⟨0, 0, POLLIN⟩

/-- The first client is accepted and read from in one iteration, before any `poll` knows of it. -/
theorem new_client_read_unreported :
    AllSteps (iteration 3) (Fresh 3) [] (initial 3 leftovers) [arrives 4] ∧
    ¬ AllSteps (iteration 3) (fun _ v a => ReadsReported 3 v a) [] (initial 3 leftovers)
      [arrives 4] := by
  refine ⟨⟨fun w hw fd hmem => ?_, trivial⟩, fun hall => ?_⟩
  · obtain ⟨-, -, rfl⟩ := mem_iteration_accept.1 hmem
    obtain rfl : opened 3 = w := Option.some.inj hw
    rfl
  · have hacc : Accepts (arrives 4) ((initial 3 leftovers).polled (arrives 4)) :=
      ⟨by decide, by decide, by decide⟩
    have hread : .read 4 none ∈ (iteration 3 (arrives 4)).calls (initial 3 leftovers) :=
      (mem_iteration_read rfl (accepted_of_accepts hacc).1).2
        ⟨2, by decide, ⟨by decide, by decide⟩, by decide, rfl⟩
    obtain ⟨-, i, hi, hlt, -⟩ := hall.1 4 none hread
    have h2 := hi.1
    have hlt' : i < 2 := hlt
    omega

/-- An iteration in which a client sends `h`. -/
def sends (i : Nat) : Answers where
  poll := 1
  revents j := if j = i then POLLIN else 0
  accept := -1
  clientIp := ""
  stdin := none
  read _ := some [104]

/-- A client connects and sends a message, which is read when `poll` reports it. -/
theorem message_read_when_reported :
    AllSteps (iteration 3) (fun _ v a => ReadsReported 3 v a) [] (initial 3 zeroes)
      [arrives 4, sends 2] := by
  have hfresh : AllSteps (iteration 3) (Fresh 3) [] (initial 3 zeroes) ([arrives 4] ++ [sends 2]) := by
    refine allSteps_append.2 ⟨?_, ⟨fun w hw fd hmem => ?_, trivial⟩⟩
    · show AllSteps (iteration 3) (Fresh 3) [] (initial 3 zeroes) ([4].map arrives)
      exact initial_calm.fresh (by decide) (by decide) rfl (by decide)
    · obtain ⟨-, ⟨-, -, hfail⟩, -⟩ := mem_iteration_accept.1 hmem
      exact absurd rfl hfail
  refine (readsReported_iff_cleanEvents 3 zeroes _ hfresh).2 ⟨fun _ => ?_, fun _ => ?_, trivial⟩
  · exact ⟨fun hneg => absurd hneg (by decide), fun _ _ _ _ => Pollfd.readable_zero 0 0⟩
  · exact ⟨fun hneg => absurd hneg (by decide), fun hacc => absurd rfl hacc.2.2⟩

end SystemsProgramming.TcpSuite.Server
