import SystemsProgramming.MtlsChat.Handshake
import SystemsProgramming.MtlsChat.Proofs.VisibilityProofs

/-!
# Proofs: the outcome of a handshake

`tcp_accept_function` makes the descriptor non-blocking before the handshake, and
`tls_accept_function` calls `SSL_accept` once and takes every answer that is not positive for a
failure. So a peer is dropped as soon as `SSL_accept` asks for a flight that is not there yet.
-/

namespace SystemsProgramming.MtlsChat.Server

open Foundations Prog

section Schedules

variable {sched : Schedule}

theorem inTime_le (n k : Nat) : sched.inTime n k ≤ n := by
  induction n generalizing k with
  | zero => exact Nat.le_refl _
  | succ n ih =>
    simp only [Schedule.inTime]
    split
    · exact Nat.succ_le_succ (ih (k + 1))
    · exact Nat.zero_le _

/-- `m` flights are found exactly when each of them is there when it is asked for. -/
theorem le_inTime_iff {m n k : Nat} (hmn : m ≤ n) :
    m ≤ sched.inTime n k ↔ ∀ j, k ≤ j → j < k + m → sched.arrival j ≤ sched.asked j := by
  induction n generalizing k m with
  | zero =>
    obtain rfl : m = 0 := by omega
    simp only [Nat.zero_le, true_iff]
    omega
  | succ n ih =>
    cases m with
    | zero =>
      simp only [Nat.zero_le, true_iff]
      omega
    | succ m =>
      simp only [Schedule.inTime]
      by_cases hk : sched.arrival k ≤ sched.asked k
      · rw [if_pos hk, Nat.succ_le_succ_iff, ih (by omega)]
        constructor
        · intro h j h1 h2
          rcases Nat.eq_or_lt_of_le h1 with rfl | h1
          · exact hk
          · exact h j h1 (by omega)
        · exact fun h j h1 h2 => h j (by omega) (by omega)
      · rw [if_neg hk]
        constructor
        · omega
        · exact fun h => absurd (h k (Nat.le_refl k) (by omega)) hk

end Schedules

variable {φ : Type} {ssl : OpenSsl φ} {flights : List φ} {a : Answers} {v : Vars} {i : Nat}

/-- The peer has its client slot at the next loop head. -/
def Kept (ssl : OpenSsl φ) (flights : List φ) (a : Answers) (v : Vars) (i : Nat)
    (sched : Schedule) : Prop :=
  ((iteration (handshakes ssl flights a sched)).final v).Occupied i

/-- An iteration in which the handshake of a new connection in slot `i` is attempted. -/
structure Attempt (a : Answers) (v : Vars) (i : Nat) : Prop where
  pending : pending a (v.polled a)
  accept : 0 ≤ a.accept
  slot : freeSlot v.fds = some i
  sslNew : a.sslNew ≠ none
  sslSetFd : a.sslSetFd ≠ 0

/-- The slot of a new connection is kept exactly when `SSL_accept` returns a positive number. -/
theorem occupied_iff_established (h : Attempt a v i) :
    ((iteration a).final v).Occupied i ↔ 0 < a.sslAccept true := by
  have hslot : freeSlot (v.polled a).fds = some i := by rw [freeSlot_polled]; exact h.slot
  obtain ⟨h2, hmax, hfree, -⟩ := freeSlot_eq_some.1 hslot
  have hfin : (iteration a).final v = (acceptConnection a).final (v.polled a) := rfl
  rw [hfin]
  obtain ⟨h1, -, -⟩ | ⟨-, h1, -⟩ | ⟨j, -, -, h3, h4, h5, -⟩ | ⟨j, -, -, h3, h4, h5, -⟩ :=
    acceptConnection_cases a (v.polled a)
  · exact absurd h.pending h1
  · rcases h1 with h1 | h1
    · have := h.accept
      omega
    · rw [hslot] at h1
      cases h1
  · obtain rfl : i = j := Option.some.inj (hslot.symm.trans h3)
    rw [h5, dropSlot_occupied_iff]
    have hneg : ¬ 0 < a.sslAccept true := fun hpos => h4 ⟨h.sslNew, h.sslSetFd, hpos⟩
    simp [hneg]
  · obtain rfl : i = j := Option.some.inj (hslot.symm.trans h3)
    simp only [h4.2.2, iff_true]
    -- the new slot has no `revents`, so the rest of the iteration does not touch it
    have hopen : ((v.polled a).openSlot i a.accept a.sslNew).Occupied i :=
      (openSlot_occupied_iff h.accept h2 hmax i).2 (Or.inr rfl)
    have hdue : due ((v.polled a).openSlot i a.accept a.sslNew) i = false := by
      simp [due, Vars.openSlot]
    have hsame : ∀ fuel, ((clientLoop a fuel 2).final
        ((v.polled a).openSlot i a.accept a.sslNew)).fds i =
          ((v.polled a).openSlot i a.accept a.sslNew).fds i := by
      intro fuel
      rcases clientLoop_slot (a := a) fuel 2 ((v.polled a).openSlot i a.accept a.sslNew) i with
        ⟨hs, -⟩ | ⟨hg, -⟩
      · exact hs
      · simp [gone, hdue] at hg
    rw [h5, (serveStdin_spec a _).1, final_monitorClients]
    split_ifs
    · exact hopen
    · exact ⟨hopen.1, hopen.2.1, by rw [hsame]; exact hopen.2.2⟩
    · exact hopen

/-- The server treats the peer as the handshake itself does: it keeps the peer if and only if the
handshake succeeds, and it drops the peer only when the handshake has failed. -/
def Faithful (ssl : OpenSsl φ) (flights : List φ) (a : Answers) (v : Vars) (i : Nat)
    (sched : Schedule) : Prop :=
  (Kept ssl flights a v i sched ↔ ssl.verdict flights = .accepted) ∧
  (¬ Kept ssl flights a v i sched → ssl.verdict (sched.found flights) = .rejected)

/-- The first flights decide the handshake, and each of them is there when `SSL_accept` asks for
it. -/
def DecidedInTime (ssl : OpenSsl φ) (flights : List φ) (sched : Schedule) : Prop :=
  ∃ k, k ≤ flights.length ∧ (∀ j, j < k → sched.arrival j ≤ sched.asked j) ∧
    ssl.verdict (flights.take k) ≠ .needsMore

theorem decidedInTime_iff (hpeer : ssl.Honest flights) (sched : Schedule) :
    DecidedInTime ssl flights sched ↔ ssl.verdict (sched.found flights) ≠ .needsMore := by
  constructor
  · rintro ⟨k, hk, hin, hdec⟩
    have hle : k ≤ sched.inTime flights.length 0 :=
      (le_inTime_iff hk).2 fun j _ hj => hin j (by omega)
    rw [Schedule.found, hpeer.settled k hdec _ hle]
    exact hdec
  · intro hdec
    refine ⟨sched.inTime flights.length 0, inTime_le _ _, fun j hj => ?_, hdec⟩
    have hin : ∀ j, 0 ≤ j → j < 0 + sched.inTime flights.length 0 → sched.arrival j ≤ sched.asked j :=
      (le_inTime_iff (inTime_le flights.length 0)).1 (Nat.le_refl _)
    exact hin j (Nat.zero_le j) (by omega)

/-- For every peer and every timing of its flights, the server follows the handshake if and only if
the flights that decide the handshake are there when `SSL_accept` asks for them; so any two timings
of that kind have the same outcome. -/
theorem faithful_iff_decidedInTime (hssl : ssl.Documented) (hpeer : ssl.Honest flights)
    (h : Attempt a v i) (sched : Schedule) :
    (Faithful ssl flights a v i sched ↔ DecidedInTime ssl flights sched) ∧
    ∀ sched', DecidedInTime ssl flights sched → DecidedInTime ssl flights sched' →
      (Kept ssl flights a v i sched ↔ Kept ssl flights a v i sched') := by
  have hkept : ∀ s, Kept ssl flights a v i s ↔ 0 < ssl.sslAccept true (s.found flights) := by
    intro s
    have hs : Attempt (handshakes ssl flights a s) v i :=
      ⟨h.pending, h.accept, h.slot, h.sslNew, h.sslSetFd⟩
    exact occupied_iff_established hs
  have hverdict : ∀ s, DecidedInTime ssl flights s →
      ssl.verdict (s.found flights) = ssl.verdict flights := by
    intro s hs
    have hset := hpeer.settled _ ((decidedInTime_iff hpeer s).1 hs) flights.length (inTime_le _ _)
    rw [List.take_length] at hset
    exact hset.symm
  have hfollow : ∀ s, DecidedInTime ssl flights s →
      (Kept ssl flights a v i s ↔ ssl.verdict flights = .accepted) := by
    intro s hs
    rw [hkept, ← hverdict s hs]
    cases hv : ssl.verdict (s.found flights) with
    | needsMore => exact absurd hv ((decidedInTime_iff hpeer s).1 hs)
    | accepted => exact ⟨fun _ => rfl, fun _ => hssl.accepts _ hv⟩
    | rejected =>
      have := hssl.rejects _ hv
      exact ⟨fun hpos => by omega, fun hc => by cases hc⟩
  refine ⟨⟨fun hf => ?_, fun hd => ⟨hfollow sched hd, fun hdrop => ?_⟩⟩,
    fun sched' hs hs' => (hfollow sched hs).trans (hfollow sched' hs').symm⟩
  · rw [decidedInTime_iff hpeer]
    intro hmore
    have hdrop : ¬ Kept ssl flights a v i sched := by
      rw [hkept]
      have := hssl.wants _ hmore
      omega
    rw [hf.2 hdrop] at hmore
    cases hmore
  · have hdec := (decidedInTime_iff hpeer sched).1 hd
    cases hv : ssl.verdict (sched.found flights) with
    | needsMore => exact absurd hv hdec
    | accepted => exact absurd ((hkept sched).2 (hssl.accepts _ hv)) hdrop
    | rejected => rfl

/-! ## A handshake of two flights -/

/-- A handshake that takes two flights from the peer and then succeeds. -/
def twoFlights : OpenSsl Unit where
  verdict fs := if fs.length < 2 then .needsMore else .accepted
  sslAccept _ fs := if fs.length < 2 then -1 else 1

theorem twoFlights_documented : twoFlights.Documented := by
  refine ⟨fun fs h => ?_, fun fs h => ?_, fun fs h => ?_⟩ <;>
    simp only [twoFlights] at h ⊢ <;> split_ifs at h ⊢ <;> simp

theorem twoFlights_honest : twoFlights.Honest [(), ()] := by
  refine ⟨by decide, fun k hk m hkm => ?_⟩
  have hk2 : 2 ≤ k := by
    by_contra hlt
    apply hk
    have hk' : k = 0 ∨ k = 1 := by omega
    rcases hk' with rfl | rfl <;> rfl
  rw [List.take_of_length_le (Nat.le_trans hk2 hkm), List.take_of_length_le hk2]

/-- Every flight is there at once. -/
def promptPeer : Schedule := ⟨fun _ => 0, fun _ => 0⟩

/-- The second flight comes after the first one has been answered. -/
def answeringPeer : Schedule := ⟨fun k => k, fun _ => 0⟩

theorem connects_attempt :
    Attempt (connects 4 100) (initial 3 (fun _ => ⟨-1, 0, 0⟩) fun _ => false) 2 :=
  ⟨by decide, by decide, by decide, by decide, by decide⟩

/-- The server keeps the peer whose two flights are there at once. -/
theorem faithful_promptPeer :
    Faithful twoFlights [(), ()] (connects 4 100) (initial 3 (fun _ => ⟨-1, 0, 0⟩) fun _ => false) 2
      promptPeer :=
  (faithful_iff_decidedInTime twoFlights_documented twoFlights_honest connects_attempt
    promptPeer).1.2 ⟨2, by decide, fun _ _ => Nat.le_refl 0, by decide⟩

/-- Two timings of the same two flights, and two outcomes. -/
theorem outcome_depends_on_timing : ¬ ∀ (ssl : OpenSsl Unit) (flights : List Unit),
    ssl.Documented → ssl.Honest flights → ∀ a v i, Attempt a v i → ∀ sched sched',
      (Kept ssl flights a v i sched ↔ Kept ssl flights a v i sched') := by
  intro h
  have hiff := h twoFlights [(), ()] twoFlights_documented twoFlights_honest _ _ _ connects_attempt
    promptPeer answeringPeer
  have hprompt : Kept twoFlights [(), ()] (connects 4 100)
      (initial 3 (fun _ => ⟨-1, 0, 0⟩) fun _ => false) 2 promptPeer := by
    unfold Kept
    decide
  have hanswering : ¬ Kept twoFlights [(), ()] (connects 4 100)
      (initial 3 (fun _ => ⟨-1, 0, 0⟩) fun _ => false) 2 answeringPeer := by
    unfold Kept
    decide
  exact hanswering (hiff.1 hprompt)

end SystemsProgramming.MtlsChat.Server
