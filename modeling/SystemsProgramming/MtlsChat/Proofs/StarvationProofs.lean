import Mathlib.Data.Nat.Find
import SystemsProgramming.MtlsChat.Client
import SystemsProgramming.MtlsChat.Proofs.VisibilityProofs

/-!
# Proofs: which peers an iteration reads from

An iteration has three jobs, and a `continue` in one of the first two skips the third. The loop over the
clients has a bound that a new client may raise and that the disconnections shrink. So two iterations
with the same peers can read from different clients: when one of them skips the loop, or when only one of
them raises the bound and there is a client between the two bounds.
-/

namespace SystemsProgramming.MtlsChat

open Foundations Prog

namespace Server

variable {a a' : Answers} {v : Vars}

/-- `poll` reported the client slot `j`: it is below `nfds`, in use and readable. -/
def Reported (v : Vars) (a : Answers) (j : Nat) : Prop :=
  0 < a.numberRevents ∧ 2 ≤ j ∧ j < v.nfds ∧ due (v.polled a) j = true

/-- The iteration ends before the loop over the clients, or goes past it: `poll` reported nothing, or a
pending connection is not accepted, gets no slot or is not established, or standard input was reported
and has no data. -/
def Skips (v : Vars) (a : Answers) : Prop :=
  a.numberRevents ≤ 0 ∨
    (pending a (v.polled a) ∧ (a.accept < 0 ∨ freeSlot v.fds = none ∨ ¬ established a)) ∨
    stdinFails a (v.polled a)

/-- The bound with which the loop over the clients begins: `nfds`, or one more than the slot of a client
that has just been accepted behind it. -/
def loopBound (v : Vars) (a : Answers) : Nat :=
  match freeSlot v.fds with
  | some i => if pending a (v.polled a) then max v.nfds (i + 1) else v.nfds
  | none => v.nfds

/-- Some client is in use, readable and below the bound of the loop. -/
def Served (v : Vars) (a : Answers) : Prop :=
  ∃ j, 2 ≤ j ∧ j < loopBound v a ∧ due (v.polled a) j = true

/-- Some client that is in use and readable is read from only if a new client takes the first free slot:
with those that have gone before it, it is beyond `nfds` but not beyond that slot. -/
def Hidden (v : Vars) (a : Answers) : Prop :=
  ∃ i, freeSlot v.fds = some i ∧ ∃ j, 2 ≤ j ∧ due (v.polled a) j = true ∧
    v.nfds ≤ j + goneCount a (v.polled a) 2 j ∧ j + goneCount a (v.polled a) 2 j ≤ i

/-- Two iterations from the same variables in which `poll` reports the same clients, and these answer
alike. -/
structure SamePeers (v : Vars) (a a' : Answers) : Prop where
  reported : ∀ j, Reported v a j ↔ Reported v a' j
  sslRead : a.sslRead = a'.sslRead

/-- What the rest of the two iterations does is the same to the clients. If one skips the loop, the other
has no client to read from; and if neither does, both or none accept a new client, unless no client is
hidden. -/
structure ServeAlike (v : Vars) (a a' : Answers) : Prop where
  skips : Skips v a → ¬ Skips v a' → ¬ Served v a'
  skipsOther : Skips v a' → ¬ Skips v a → ¬ Served v a
  accepts : ¬ Skips v a → ¬ Skips v a' →
    (pending a (v.polled a) ↔ pending a' (v.polled a')) ∨ ¬ Hidden v a

/-- A new client is not due, so accepting it does not change which slots are. -/
theorem due_monitored {u w : Vars} (h : monitored a u = some w) (j : Nat) : due w j = due u j := by
  unfold monitored at h
  split_ifs at h
  have hacc := (Option.filter_eq_some_iff.1 h).1
  unfold accepted at hacc
  split_ifs at hacc with h1 h2
  · obtain ⟨i, hi, rfl⟩ := Option.map_eq_some_iff.1 hacc
    by_cases hji : j = i
    · subst hji
      have hfree := (freeSlot_eq_some.1 hi).2.2.1
      simp [due, Vars.openSlot, hfree]
    · simp [due, Vars.openSlot, hji]
  · rw [← Option.some.inj hacc]

theorem mem_visited_iteration {w : Vars} (h : monitored a (v.polled a) = some w) (j : Nat) :
    j ∈ visited ((iteration a).calls v) ↔
      2 ≤ j ∧ due (v.polled a) j = true ∧ j + goneCount a (v.polled a) 2 j < w.nfds := by
  have hcount : goneCount a w 2 j = goneCount a (v.polled a) 2 j :=
    goneCount_congr fun k _ => by simp [gone, due_monitored h]
  rw [(iteration_of_monitored h).2, mem_visited_iff _ _ _ (by omega), due_monitored h, hcount]

/-- `poll` reports the same clients if it writes the same to their slots. -/
theorem samePeers_of_revents (hn : 0 < a.numberRevents ↔ 0 < a'.numberRevents)
    (hr : ∀ j, 2 ≤ j → a.revents j = a'.revents j) (hread : a.sslRead = a'.sslRead) :
    SamePeers v a a' := by
  refine ⟨fun j => ?_, hread⟩
  unfold Reported
  rw [hn]
  refine and_congr_right fun _ => and_congr_right fun h2 => ?_
  simp [due, Vars.polled, pollfds, hr j h2]

instance (v : Vars) (a : Answers) : Decidable (Skips v a) := by
  unfold Skips
  infer_instance

theorem stdinFails_openSlot {i : Nat} (hi : 2 ≤ i) (a : Answers) (u : Vars) (fd : Int) (ssl : Option Ssl) :
    stdinFails a (u.openSlot i fd ssl) ↔ stdinFails a u := by
  have h1 : (1 : Nat) ≠ i := by omega
  simp [stdinFails, Vars.openSlot, h1]

/-- The loop over the clients is reached exactly when the iteration does not skip it. -/
theorem monitored_eq_none_iff (v : Vars) (a : Answers) :
    monitored a (v.polled a) = none ↔ Skips v a := by
  unfold monitored Skips
  by_cases hn : 0 < a.numberRevents
  · have hn' : ¬ a.numberRevents ≤ 0 := Int.not_le.2 hn
    rw [if_pos hn, ← freeSlot_polled a v]
    by_cases hp : pending a (v.polled a)
    · by_cases hacc : 0 ≤ a.accept ∧ established a
      · cases hf : freeSlot (v.polled a).fds with
        | none => simp [accepted, hp, hacc, hf]
        | some i =>
          have hstdin := stdinFails_openSlot (freeSlot_eq_some.1 hf).1 a (v.polled a) a.accept a.sslNew
          have hacc' : ¬ a.accept < 0 := Int.not_lt.2 hacc.1
          simp [accepted, hp, hacc, hacc', hf, Option.filter, hstdin, hn']
      · have hfail : a.accept < 0 ∨ freeSlot (v.polled a).fds = none ∨ ¬ established a := by
          rw [not_and_or, Int.not_le] at hacc
          tauto
        simp [accepted, hp, hacc, hfail]
    · simp [accepted, hp, Option.filter, hn']
  · rw [if_neg hn]
    exact iff_of_true rfl (Or.inl (Int.not_lt.1 hn))

/-- The bound of the loop, where it is reached. -/
theorem nfds_of_monitored {w : Vars} (h : monitored a (v.polled a) = some w) :
    w.nfds = loopBound v a := by
  unfold monitored at h
  split_ifs at h
  obtain ⟨hp, rfl⟩ | ⟨hp, -, -, i, hi, rfl⟩ :=
    accepted_eq_some.1 (Option.filter_eq_some_iff.1 h).1
  · unfold loopBound
    cases freeSlot v.fds with
    | none => rfl
    | some i => exact (if_neg hp).symm
  · rw [freeSlot_polled] at hi
    have hbound : loopBound v a = max v.nfds (i + 1) := by simp only [loopBound, hi, hp, if_true]
    rw [hbound]
    show (if v.nfds ≤ i then i + 1 else v.nfds) = max v.nfds (i + 1)
    split <;> omega

theorem not_mem_visited_of_skips (h : Skips v a) (j : Nat) : j ∉ visited ((iteration a).calls v) := by
  rw [(iteration_of_not_monitored ((monitored_eq_none_iff v a).2 h)).1]
  exact List.not_mem_nil

/-- An iteration that does not skip the loop reads from the clients that are in use, readable and below
its bound, less one for every client found gone before them. -/
theorem mem_visited_of_not_skips (h : ¬ Skips v a) (j : Nat) :
    j ∈ visited ((iteration a).calls v) ↔
      2 ≤ j ∧ due (v.polled a) j = true ∧ j + goneCount a (v.polled a) 2 j < loopBound v a := by
  obtain ⟨w, hw⟩ := Option.ne_none_iff_exists'.1 fun hnone => h ((monitored_eq_none_iff v a).1 hnone)
  rw [mem_visited_iteration hw, nfds_of_monitored hw]

/-- It reads from some client if one is below the bound: from the first of them. -/
theorem exists_visited_iff (h : ¬ Skips v a) :
    (∃ j, j ∈ visited ((iteration a).calls v)) ↔ Served v a := by
  simp only [mem_visited_of_not_skips h]
  constructor
  · rintro ⟨j, h2, hdue, hlt⟩
    exact ⟨j, h2, by omega, hdue⟩
  · intro hserved
    obtain ⟨h2, hlt, hdue⟩ := Nat.find_spec hserved
    refine ⟨Nat.find hserved, h2, hdue, ?_⟩
    have hgone : goneCount a (v.polled a) 2 (Nat.find hserved) = 0 :=
      goneCount_eq_zero fun k hk2 hk => by
        have hnot : due (v.polled a) k ≠ true := fun hdue' =>
          Nat.find_min hserved hk ⟨hk2, by omega, hdue'⟩
        simp [gone, hnot]
    omega

/-- With the same peers the same slots are due, if both iterations get as far as to look. -/
theorem due_congr (h : SamePeers v a a') (hn : 0 < a.numberRevents) (hn' : 0 < a'.numberRevents) {j : Nat}
    (h2 : 2 ≤ j) : due (v.polled a) j = due (v.polled a') j := by
  by_cases hj : j < v.nfds
  · have hiff := h.reported j
    simp only [Reported, hn, hn', h2, hj, true_and] at hiff
    exact Bool.eq_iff_iff.2 hiff
  · simp [due, Vars.polled, pollfds, hj]

theorem goneCount_same (h : SamePeers v a a') (hn : 0 < a.numberRevents) (hn' : 0 < a'.numberRevents)
    (j : Nat) : goneCount a (v.polled a) 2 j = goneCount a' (v.polled a') 2 j :=
  goneCount_congr fun k hk => by rw [gone, gone, due_congr h hn hn' hk, disconnects, disconnects, h.sslRead]

theorem revents_of_not_skips (h : ¬ Skips v a) : 0 < a.numberRevents :=
  Int.not_le.1 fun hn => h (Or.inl hn)

/-- Without a new client the bound is `nfds`. -/
theorem loopBound_of_not_pending (hp : ¬ pending a (v.polled a)) : loopBound v a = v.nfds := by
  unfold loopBound
  cases freeSlot v.fds with
  | none => rfl
  | some i => exact if_neg hp

/-- The clients between two bounds make the difference. -/
theorem same_below_iff {due : Nat → Bool} {f : Nat → Nat} {n i : Nat} :
    (∀ j, 2 ≤ j ∧ due j = true ∧ f j < n ↔ 2 ≤ j ∧ due j = true ∧ f j < max n (i + 1)) ↔
      ¬ ∃ j, 2 ≤ j ∧ due j = true ∧ n ≤ f j ∧ f j ≤ i := by
  constructor
  · rintro h ⟨j, h2, hdue, hle, hlt⟩
    have hj := (h j).2 ⟨h2, hdue, by omega⟩
    omega
  · intro h j
    refine and_congr_right fun h2 => and_congr_right fun hdue => ⟨fun hlt => by omega, fun hlt => ?_⟩
    by_contra hnot
    exact h ⟨j, h2, hdue, by omega, by omega⟩

/-- Of two iterations that do not skip the loop, one accepts a new client: the other reads from the same
clients unless one is hidden. -/
theorem visited_same_of_pending (h : SamePeers v a a') (hs : ¬ Skips v a) (hs' : ¬ Skips v a')
    (hp : ¬ pending a (v.polled a)) (hp' : pending a' (v.polled a')) :
    (∀ j, j ∈ visited ((iteration a).calls v) ↔ j ∈ visited ((iteration a').calls v)) ↔
      ¬ Hidden v a := by
  have hn := revents_of_not_skips hs
  have hn' := revents_of_not_skips hs'
  have hfree : freeSlot v.fds ≠ none := fun hnone => hs' (Or.inr (Or.inl ⟨hp', Or.inr (Or.inl hnone)⟩))
  obtain ⟨i, hi⟩ := Option.ne_none_iff_exists'.1 hfree
  have hbound' : loopBound v a' = max v.nfds (i + 1) := by simp only [loopBound, hi, hp', if_true]
  have hmem' : ∀ j, j ∈ visited ((iteration a').calls v) ↔ 2 ≤ j ∧ due (v.polled a) j = true ∧
      j + goneCount a (v.polled a) 2 j < max v.nfds (i + 1) := by
    intro j
    rw [mem_visited_of_not_skips hs', hbound', goneCount_same h hn hn']
    exact and_congr_right fun h2 => by rw [due_congr h hn hn' h2]
  simp only [mem_visited_of_not_skips hs, loopBound_of_not_pending hp, hmem', same_below_iff, Hidden, hi,
    Option.some.injEq, exists_eq_left']

/-- The clients that two iterations with the same peers read from are the same if and only if the rest
of the iterations does the same to them. -/
theorem visited_same_iff (h : SamePeers v a a') :
    (∀ j, j ∈ visited ((iteration a).calls v) ↔ j ∈ visited ((iteration a').calls v)) ↔
      ServeAlike v a a' := by
  by_cases hs : Skips v a
  · by_cases hs' : Skips v a'
    · refine iff_of_true (fun j => iff_of_false (not_mem_visited_of_skips hs j)
        (not_mem_visited_of_skips hs' j)) ⟨fun _ hnot => absurd hs' hnot, fun _ hnot => absurd hs hnot,
        fun hnot => absurd hs hnot⟩
    · simp only [not_mem_visited_of_skips hs, false_iff, ← not_exists, exists_visited_iff hs']
      exact ⟨fun hserved => ⟨fun _ _ => hserved, fun hskips => absurd hskips hs',
        fun hnot => absurd hs hnot⟩, fun halike => halike.skips hs hs'⟩
  · by_cases hs' : Skips v a'
    · simp only [not_mem_visited_of_skips hs', iff_false, ← not_exists, exists_visited_iff hs]
      exact ⟨fun hserved => ⟨fun hskips => absurd hskips hs, fun _ _ => hserved,
        fun _ hnot => absurd hs' hnot⟩, fun halike => halike.skipsOther hs' hs⟩
    · have halike : ServeAlike v a a' ↔
          ((pending a (v.polled a) ↔ pending a' (v.polled a')) ∨ ¬ Hidden v a) :=
        ⟨fun halike => halike.accepts hs hs', fun haccepts =>
          ⟨fun hskips => absurd hskips hs, fun hskips => absurd hskips hs', fun _ _ => haccepts⟩⟩
      have hn := revents_of_not_skips hs
      have hn' := revents_of_not_skips hs'
      rw [halike]
      by_cases hp : pending a (v.polled a) ↔ pending a' (v.polled a')
      · have hbound : loopBound v a = loopBound v a' := by simp only [loopBound, hp]
        refine iff_of_true (fun j => ?_) (Or.inl hp)
        rw [mem_visited_of_not_skips hs, mem_visited_of_not_skips hs', hbound, goneCount_same h hn hn']
        exact and_congr_right fun h2 => by rw [due_congr h hn hn' h2]
      · rw [or_iff_right hp]
        by_cases hp' : pending a' (v.polled a')
        · exact visited_same_of_pending h hs hs' (fun hp1 => hp (iff_of_true hp1 hp')) hp'
        · have hp1 : pending a (v.polled a) := by tauto
          have hsymm : SamePeers v a' a := ⟨fun j => (h.reported j).symm, h.sslRead.symm⟩
          have hhidden : Hidden v a ↔ Hidden v a' := by
            unfold Hidden
            refine exists_congr fun i => and_congr_right fun _ => exists_congr fun j =>
              and_congr_right fun h2 => ?_
            rw [due_congr h hn hn' h2, goneCount_same h hn hn']
          rw [hhidden, ← visited_same_of_pending hsymm hs' hs hp' hp1]
          exact forall_congr' fun j => iff_comm

end Server

namespace Client

variable {a : Answers} {v : Vars}

/-- The calls of the iteration read from the server. -/
def readsServer (cs : List Call) : Prop := ∃ ret, .sslRead ret ∈ cs

/-- `poll` reported the server. -/
def Reported (v : Vars) (a : Answers) : Prop :=
  v.running = true ∧ 0 < a.numberRevents ∧ ((v.polled a).fds 1).readable = true

/-- Standard input was reported and its `read` returned no data. -/
def stdinFails (a : Answers) (v : Vars) : Prop :=
  0 < a.numberRevents ∧ (v.fds 0).readable = true ∧ received (read tlsRecordSize a.stdin) = none

theorem readsServer_iteration (v : Vars) (a : Answers) :
    readsServer ((iteration a).calls v) ↔ Reported v a ∧ ¬ stdinFails a (v.polled a) := by
  have hmonitor : ∀ u, readsServer ((monitorServer a).calls u) ↔
      0 < a.numberRevents ∧ (u.fds 1).readable = true := by
    intro u
    by_cases h : 0 < a.numberRevents ∧ (u.fds 1).readable = true
    · simp [monitorServer, monitor, readsServer, h]
    · simp [monitorServer, readsServer, h]
  have hserve : ∀ u, readsServer ((serveStdin a).calls u) ↔
      (0 < a.numberRevents ∧ (u.fds 1).readable = true) ∧ ¬ stdinFails a u := by
    intro u
    by_cases h : 0 < a.numberRevents ∧ (u.fds 0).readable = true
    · cases hr : received (read tlsRecordSize a.stdin) with
      | none => simp [serveStdin, readClient, readsServer, stdinFails, h, hr]
      | some buffer =>
        have hrest := hmonitor u
        simp only [readsServer] at hrest ⊢
        simp [serveStdin, readClient, stdinFails, h, hr, hrest]
    · have hf : ¬ stdinFails a u := fun hf => h ⟨hf.1, hf.2.1⟩
      have hcalls : (serveStdin a).calls u = (monitorServer a).calls u := by simp [serveStdin, h]
      rw [hcalls, hmonitor]
      simp [hf]
  by_cases hrun : v.running = true
  · have hcalls : (iteration a).calls v = (serveStdin a).calls (v.polled a) := by
      simp [iteration, hrun]
    rw [hcalls, hserve]
    simp [Reported, hrun]
  · simp [iteration, hrun, readsServer, Reported]

end Client

namespace Client

/-- Two iterations from the same variables that agree on whether `poll` reports the server, and on what
is read from it. -/
structure SamePeers (v : Vars) (a a' : Answers) : Prop where
  reported : Reported v a ↔ Reported v a'
  sslRead : a.sslRead = a'.sslRead

/-- Both iterations read from the server, or none, if and only if it is not reported or standard input
fails in both or in none. -/
theorem readsServer_same_iff {a a' : Answers} {v : Vars} (h : SamePeers v a a') :
    (readsServer ((iteration a).calls v) ↔ readsServer ((iteration a').calls v)) ↔
      (Reported v a → (stdinFails a (v.polled a) ↔ stdinFails a' (v.polled a'))) := by
  rw [readsServer_iteration, readsServer_iteration, ← h.reported]
  tauto

end Client

/-- In the server, two iterations from the same loop head with the same peers read from the same clients
if and only if the rest of them does the same to the clients; and a client that is reported is read
from if and only if the loop is not skipped and the client, with those gone before it, is below its
bound. In the client, two iterations that agree on the server both read from it, or none does, if and
only if it is not reported or standard input fails in both or in none; and when it is reported, it is
read from if and only if standard input does not fail. -/
theorem peers_served_iff (v : Server.Vars) (a a' : Server.Answers) (c : Client.Vars)
    (b b' : Client.Answers) :
    (Server.SamePeers v a a' →
      ((∀ j, j ∈ Server.visited ((Server.iteration a).calls v) ↔
          j ∈ Server.visited ((Server.iteration a').calls v)) ↔ Server.ServeAlike v a a')) ∧
    (∀ j, Server.Reported v a j → (j ∈ Server.visited ((Server.iteration a).calls v) ↔
      ¬ Server.Skips v a ∧
        j + Server.goneCount a (v.polled a) 2 j < Server.loopBound v a)) ∧
    (Client.SamePeers c b b' →
      ((Client.readsServer ((Client.iteration b).calls c) ↔
          Client.readsServer ((Client.iteration b').calls c)) ↔
        (Client.Reported c b →
          (Client.stdinFails b (c.polled b) ↔ Client.stdinFails b' (c.polled b'))))) ∧
    (Client.Reported c b → (Client.readsServer ((Client.iteration b).calls c) ↔
      ¬ Client.stdinFails b (c.polled b))) := by
  refine ⟨Server.visited_same_iff, fun j hreported => ?_, Client.readsServer_same_iff,
    fun hreported => ?_⟩
  · by_cases hs : Server.Skips v a
    · exact iff_of_false (Server.not_mem_visited_of_skips hs j) fun h => h.1 hs
    · rw [Server.mem_visited_of_not_skips hs, and_iff_right hreported.2.1,
        and_iff_right hreported.2.2.2, and_iff_right hs]
  · rw [Client.readsServer_iteration, and_iff_right hreported]

namespace Server

/-- An iteration in which the client in slot `2` has sent something, with or without standard input
at its end. -/
def clientSpeaks (stdinReady : Bool) : Answers :=
  { connects 0 0 with
    numberRevents := if stdinReady then 2 else 1
    revents := fun j => if j = 2 ∨ (j = 1 ∧ stdinReady) then POLLIN else 0
    stdin := some []
    sslRead := fun _ => ⟨1, [104], .other⟩ }

/-- The loop head with one client, in slot `2`. -/
def clientInSlotTwo : Vars :=
  (pollLoop [connects 4 100]).final (initial 3 (fun _ => ⟨-1, 0, 0⟩) fun _ => false)

/-- What is typed at the server does not change which client it reads from. -/
theorem client_served_either_way : 2 ∈ visited ((iteration (clientSpeaks false)).calls clientInSlotTwo) ↔
    2 ∈ visited ((iteration { clientSpeaks true with stdin := some [104] }).calls clientInSlotTwo) := by
  have hsame : SamePeers clientInSlotTwo (clientSpeaks false)
      { clientSpeaks true with stdin := some [104] } := by
    refine samePeers_of_revents (by decide) (fun j hj => ?_) rfl
    have hj1 : j ≠ 1 := by omega
    simp [clientSpeaks, hj1]
  have halike : ServeAlike clientInSlotTwo (clientSpeaks false)
      { clientSpeaks true with stdin := some [104] } :=
    ⟨fun hskips => absurd hskips (by decide), fun hskips => absurd hskips (by decide),
      fun _ _ => Or.inl (by decide)⟩
  exact ((peers_served_iff _ _ _ (Client.initial 3) ⟨0, fun _ => 0, none, 0, ⟨0, [], .other⟩⟩
    ⟨0, fun _ => 0, none, 0, ⟨0, [], .other⟩⟩).1 hsame).2 halike 2

/-- Standard input at its end keeps the server from a client that has sent something. -/
theorem stdin_end_starves_client : ¬ ∀ (socketFd : Int) (stack : Nat → Pollfd)
    (nonblock : Int → Bool) (as : List Answers) (a a' : Answers),
      SamePeers ((pollLoop as).final (initial socketFd stack nonblock)) a a' →
      ∀ j, (j ∈ visited ((iteration a).calls ((pollLoop as).final
          (initial socketFd stack nonblock))) ↔
        j ∈ visited ((iteration a').calls ((pollLoop as).final
          (initial socketFd stack nonblock)))) := by
  intro h
  have hiff := h 3 (fun _ => ⟨-1, 0, 0⟩) (fun _ => false) [connects 4 100] (clientSpeaks false)
    (clientSpeaks true) (samePeers_of_revents (by decide) (fun j _ => ?_) rfl) 2
  · revert hiff
    decide
  · have hj : j ≠ 1 := by omega
    simp [clientSpeaks, hj]

end Server

end SystemsProgramming.MtlsChat
