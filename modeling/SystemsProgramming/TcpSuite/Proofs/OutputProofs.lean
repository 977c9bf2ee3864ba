import SystemsProgramming.TcpSuite.Proofs.ReadinessProofs

/-!
# Proofs: when the TCP server prints what the clients sent

Every outcome of a `read` on a client goes on to one `fwrite`. After a message or the end of the file
its size is the number of bytes read, so over a whole run the bytes printed are the bytes read. After an
error the size is `-1` as a `size_t`.
-/

namespace SystemsProgramming.TcpSuite.Server

open Foundations Prog

variable {socketFd : Int} {a : Answers} {u v : Vars} {i : Nat}

/-- The bytes that a call passes to `fwrite`. -/
def Call.fwritten : Call → List UInt8
  | .fwrite _ data => data
  | _ => []

/-- The bytes that a call has read from a client. -/
def Call.fromClient : Call → List UInt8
  | .read _ (some data) => data
  | _ => []

/-- The size passed to `fwrite` is one of a part of the buffer. -/
def Call.SizeOk (c : Call) : Prop :=
  ∀ size data, c = .fwrite size data → size ≤ bufferSize ∧ data.length = size

/-- What the clients sent is what is printed, in the same order, and no `fwrite` goes beyond the
buffer. -/
def FaithfulOutput (cs : List Call) : Prop :=
  cs.flatMap Call.fwritten = cs.flatMap Call.fromClient ∧ ∀ c ∈ cs, c.SizeOk

/-- No `read` on a client fails in the iteration. -/
def ReadsSucceed (v : Vars) (a : Answers) : Prop :=
  v.running = true → ∀ u, accepted a (v.polled a) = some u →
    ∀ i, 2 ≤ i → i < u.nfds → u.Due i → a.read i ≠ none

/-! ## The parts of an iteration -/

theorem faithful_append {cs ds : List Call} (hc : FaithfulOutput cs) (hd : FaithfulOutput ds) :
    FaithfulOutput (cs ++ ds) := by
  refine ⟨?_, fun c hmem => ?_⟩
  · rw [List.flatMap_append, List.flatMap_append, hc.1, hd.1]
  · rcases List.mem_append.1 hmem with hmem | hmem
    · exact hc.2 c hmem
    · exact hd.2 c hmem

theorem faithful_flatMap {ι : Type} {is : List ι} {f : ι → List Call}
    (h : ∀ i ∈ is, FaithfulOutput (f i)) : FaithfulOutput (is.flatMap f) := by
  induction is with
  | nil => exact ⟨rfl, fun c hc => by cases hc⟩
  | cons i is ih =>
    rw [List.flatMap_cons]
    exact faithful_append (h i List.mem_cons_self) (ih fun j hj => h j (List.mem_cons_of_mem _ hj))

/-- Calls that neither print nor read from a client. -/
theorem faithful_of_silent {cs : List Call} (hout : ∀ c ∈ cs, ∀ size data, c ≠ .fwrite size data)
    (hin : ∀ c ∈ cs, ∀ fd red, c ≠ .read fd red) : FaithfulOutput cs := by
  have hwritten : cs.flatMap Call.fwritten = [] := by
    refine List.flatMap_eq_nil_iff.2 fun c hc => ?_
    cases c with
    | fwrite size data => exact absurd rfl (hout _ hc size data)
    | _ => rfl
  have hread : cs.flatMap Call.fromClient = [] := by
    refine List.flatMap_eq_nil_iff.2 fun c hc => ?_
    cases c with
    | read fd red => exact absurd rfl (hin _ hc fd red)
    | _ => rfl
  exact ⟨hwritten.trans hread.symm, fun c hc size data heq => absurd heq (hout c hc size data)⟩

/-- A message, or the end of the file: what was read is at the beginning of the buffer. -/
theorem faithful_dueCalls (fd : Int) {data : List UInt8} (hlen : data.length ≤ bufferSize)
    (buffer : List UInt8) : FaithfulOutput (dueCalls fd (some data) buffer) := by
  have htake : (filled buffer (some data)).take (toSize (some data)) = data := by
    simp [filled, toSize]
  rw [dueCalls, htake]
  cases data with
  | nil =>
    refine ⟨rfl, fun c hc size data heq => ?_⟩
    subst heq
    simp [endCalls, toSize] at hc
    simp [hc]
  | cons b bs =>
    refine ⟨by simp [endCalls, Call.fwritten, Call.fromClient], fun c hc size data heq => ?_⟩
    subst heq
    simp [endCalls, toSize] at hc
    obtain ⟨rfl, rfl⟩ := hc
    exact ⟨hlen, rfl⟩

theorem faithful_acceptCalls (a : Answers) (v : Vars) : FaithfulOutput (acceptCalls a v) := by
  unfold acceptCalls
  split_ifs <;> exact faithful_of_silent (by simp) (by simp)

theorem faithful_broadcastCalls (a : Answers) (u : Vars) : FaithfulOutput (broadcastCalls a u) := by
  refine faithful_of_silent (fun c hc size data heq => ?_) fun c hc fd red heq => ?_
  · rcases broadcastCalls_spec hc with ⟨_, h⟩ | ⟨_, _, h⟩ | ⟨_, h⟩ <;> cases h.symm.trans heq
  · rcases broadcastCalls_spec hc with ⟨_, h⟩ | ⟨_, _, h⟩ | ⟨_, h⟩ <;> cases h.symm.trans heq

theorem faithful_leaveCalls (socketFd : Int) (a : Answers) (u : Vars) :
    FaithfulOutput (leaveCalls socketFd a u) := by
  refine faithful_of_silent (fun c hc size data heq => ?_) fun c hc fd red heq => ?_
  · rcases mem_leaveCalls hc with ⟨_, h⟩ | ⟨_, h⟩ <;> cases h.symm.trans heq
  · rcases mem_leaveCalls hc with ⟨_, h⟩ | ⟨_, h⟩ <;> cases h.symm.trans heq

/-! ## One iteration -/

theorem iteration_faithful (h : ReadsSucceed v a) :
    FaithfulOutput ((iteration socketFd a).calls v) := by
  by_cases hrun : v.running = true
  · rw [(iteration_running hrun).2]
    cases ha : accepted a (v.polled a) with
    | none =>
      rw [(acceptClient_of_not_accepted ha).2]
      exact faithful_of_silent (by simp) (by simp)
    | some u =>
      obtain ⟨-, buffers, hcalls⟩ := serve_spec socketFd a u
      have hround : ∀ i ∈ u.clientSlots, FaithfulOutput (roundCalls a u (buffers i) i) := by
        intro i hi
        obtain ⟨h2, hlt⟩ := mem_clientSlots.1 hi
        rw [roundCalls]
        split_ifs with hdue
        · obtain ⟨data, hdata⟩ := Option.ne_none_iff_exists'.1 (h hrun u ha i h2 hlt hdue)
          rw [hdata]
          exact faithful_dueCalls _ (List.length_take_le _ _) _
        · exact faithful_of_silent (by simp) (by simp)
      rw [(acceptClient_of_accepted ha).2, hcalls]
      exact faithful_append (faithful_acceptCalls a _)
        (faithful_append (faithful_append (faithful_broadcastCalls a u) (faithful_flatMap hround))
          (faithful_leaveCalls socketFd a u))
  · rw [(iteration_stopped (by simpa using hrun)).2]
    exact faithful_of_silent (by simp) (by simp)

/-- After a `read` that failed, the size passed to `fwrite` is not one of a part of the buffer. -/
theorem readsSucceed_of_sizeOk (h : ∀ c ∈ (iteration socketFd a).calls v, c.SizeOk) :
    ReadsSucceed v a := by
  intro hrun u ha i h2 hlt hdue hfail
  obtain ⟨-, buffers, hcalls⟩ := serve_spec socketFd a u
  have hround : .fwrite (toSize none) ((filled (buffers i) none).take (toSize none)) ∈
      roundCalls a u (buffers i) i := by
    rw [roundCalls, if_pos hdue, hfail]
    simp [dueCalls, read]
  have hmem : .fwrite (toSize none) ((filled (buffers i) none).take (toSize none)) ∈
      (iteration socketFd a).calls v := by
    rw [(iteration_running hrun).2, (acceptClient_of_accepted ha).2, hcalls]
    exact List.mem_append_right _ (List.mem_append_left _ (List.mem_append_right _
      (List.mem_flatMap.2 ⟨i, mem_clientSlots.2 ⟨h2, hlt⟩, hround⟩)))
  have hsize := (h _ hmem _ _ rfl).1
  simp [toSize, bufferSize] at hsize

/-! ## Whole runs -/

/-- In a whole run the bytes printed are the bytes read from the clients, and no `fwrite` goes beyond
the buffer, if and only if no `read` on a client fails. -/
theorem faithfulOutput_iff_readsSucceed (socketFd : Int) (stack : Nat → Pollfd) (as : List Answers) :
    FaithfulOutput ((pollLoop socketFd as).calls (initial socketFd stack)) ↔
      AllSteps (iteration socketFd) (fun _ v a => ReadsSucceed v a) [] (initial socketFd stack) as := by
  constructor
  · intro hf
    have hsizes : AllSteps (iteration socketFd)
        (fun _ v a => ∀ c ∈ (iteration socketFd a).calls v, c.SizeOk) [] (initial socketFd stack) as :=
      allSteps_calls_iff.2 hf.2
    exact hsizes.mono fun _ _ _ => readsSucceed_of_sizeOk
  · intro hs
    refine ⟨?_, allSteps_calls_iff.1 (hs.mono fun _ _ _ h => (iteration_faithful h).2)⟩
    refine (AllSteps.out_eq_in_iff (D := ReadsSucceed) (fun _ v a hr => ?_) hs).2.2 hs
    have heq : ((iteration socketFd a).calls v).flatMap Call.fwritten = _ := (iteration_faithful hr).1
    exact ⟨heq ▸ List.Sublist.refl _, fun _ => hr, fun _ => heq⟩

/-- An iteration in which the connection of a client breaks. -/
def breaks (i : Nat) : Answers := { sends i with read := fun _ => none }

/-- A client connects, its connection breaks, and `fwrite` is passed `-1`. -/
theorem failed_read_printed :
    ¬ FaithfulOutput ((pollLoop 3 [arrives 4, breaks 2]).calls (initial 3 zeroes)) := by
  intro hf
  have hsizes : ∀ c ∈ (iteration 3 (breaks 2)).calls ((iteration 3 (arrives 4)).final
      (initial 3 zeroes)), c.SizeOk := fun c hc =>
    hf.2 c (List.mem_append_right _ (List.mem_append_left _ hc))
  exact readsSucceed_of_sizeOk hsizes (by decide) _ rfl 2 (by decide) (by decide)
    ⟨by decide, by decide⟩ rfl

end SystemsProgramming.TcpSuite.Server
