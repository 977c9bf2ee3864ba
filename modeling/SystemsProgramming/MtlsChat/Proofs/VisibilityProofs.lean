import SystemsProgramming.MtlsChat.Proofs.ServerStepProofs

/-!
# Proofs: which clients the server sees

A slot is polled, read from and written to only while it is below `nfds`. `nfds` is raised to cover a
slot that is filled, but it is lowered by one for any slot that is freed, as if it counted the
clients. That keeps every client below `nfds` exactly as long as clients leave in the reverse order
of their slots.
-/

namespace SystemsProgramming.MtlsChat.Server

open Foundations Prog

variable {a : Answers} {v : Vars}

/-- Every client is in a slot below `nfds`. -/
def Visible (v : Vars) : Prop := SlotTable.Covers v.Occupied v.nfds

/-- The clients are in the slots from `2` on without a gap, and `nfds` is the end of them. -/
structure Packed (v : Vars) : Prop where
  two_le : 2 ≤ v.nfds
  le_max : v.nfds ≤ maxClients
  occupied_iff : ∀ i, v.Occupied i ↔ 2 ≤ i ∧ i < v.nfds

theorem Packed.visible (h : Packed v) : Visible v := fun i hi => ((h.occupied_iff i).1 hi).2

theorem initial_packed (socketFd : Int) (stack : Nat → Pollfd) (nonblock : Int → Bool) :
    Packed (initial socketFd stack nonblock) := by
  refine ⟨Nat.le_refl _, by simp [initial, maxClients], fun i => ⟨fun h => ?_, fun h => ?_⟩⟩
  · obtain ⟨h2, -, hfd⟩ := h
    simp [initial, show i ≠ 0 by omega, show i ≠ 1 by omega] at hfd
  · have : i < 2 := h.2
    omega

theorem polled_occupied_iff (a : Answers) (v : Vars) (i : Nat) :
    (v.polled a).Occupied i ↔ v.Occupied i := by
  simp [Vars.Occupied, Vars.polled]

theorem Packed.polled (h : Packed v) (a : Answers) : Packed (v.polled a) :=
  ⟨h.two_le, h.le_max, fun i => (polled_occupied_iff a v i).trans (h.occupied_iff i)⟩

/-- Without a gap, the first free slot is the one at `nfds`. -/
theorem Packed.freeSlot_eq (h : Packed v) {i : Nat} (hf : freeSlot v.fds = some i) : i = v.nfds := by
  obtain ⟨h2, hmax, hfree, hbefore⟩ := freeSlot_eq_some.1 hf
  have hnot : ¬ v.Occupied i := fun ho => ho.2.2 hfree
  rw [h.occupied_iff] at hnot
  by_contra hne
  have hn := (h.occupied_iff v.nfds).1 (hbefore v.nfds h.two_le (by omega))
  omega

theorem openSlot_occupied_iff {i : Nat} {fd : Int} {ssl : Option Ssl} (hfd : 0 ≤ fd) (h2 : 2 ≤ i)
    (hmax : i < maxClients) (j : Nat) :
    (v.openSlot i fd ssl).Occupied j ↔ v.Occupied j ∨ j = i := by
  by_cases hji : j = i
  · subst hji
    have hne : fd ≠ -1 := by omega
    simp [Vars.Occupied, Vars.openSlot, h2, hmax, hne]
  · simp [Vars.Occupied, Vars.openSlot, hji]

theorem dropSlot_occupied_iff {i : Nat} (j : Nat) :
    (v.dropSlot i).Occupied j ↔ v.Occupied j ∧ j ≠ i := by
  by_cases hji : j = i
  · subst hji
    simp [Vars.Occupied, Vars.dropSlot]
  · simp [Vars.Occupied, Vars.dropSlot, hji]

/-- A new client keeps the clients packed. -/
theorem Packed.openSlot (h : Packed v) {i : Nat} (hf : freeSlot v.fds = some i) {fd : Int}
    (hfd : 0 ≤ fd) (ssl : Option Ssl) : Packed (v.openSlot i fd ssl) := by
  have hi := h.freeSlot_eq hf
  obtain ⟨h2, hmax, -, -⟩ := freeSlot_eq_some.1 hf
  have hn : (v.openSlot i fd ssl).nfds = v.nfds + 1 := by simp [Vars.openSlot, hi]
  have h2' := h.two_le
  refine ⟨by omega, by omega, fun j => ?_⟩
  rw [openSlot_occupied_iff hfd h2 hmax, h.occupied_iff, hn]
  omega

/-- So does a connection that is taken out of its slot again. -/
theorem Packed.dropSlot (h : Packed v) {i : Nat} (hf : freeSlot v.fds = some i) {fd : Int}
    (hfd : 0 ≤ fd) (ssl : Option Ssl) : Packed ((v.openSlot i fd ssl).dropSlot i) := by
  have hi := h.freeSlot_eq hf
  have hopen := h.openSlot hf hfd ssl
  have hn : ((v.openSlot i fd ssl).dropSlot i).nfds = v.nfds := by
    simp [Vars.openSlot, Vars.dropSlot, hi]
  refine ⟨by rw [hn]; exact h.two_le, by rw [hn]; exact h.le_max, fun j => ?_⟩
  have hn' : (v.openSlot i fd ssl).nfds = v.nfds + 1 := by simp [Vars.openSlot, hi]
  rw [dropSlot_occupied_iff, hopen.occupied_iff, hn, hn']
  omega

/-- So does a client that leaves from the last slot. -/
theorem Packed.closeLast (h : Packed v) (h2 : 2 < v.nfds) : Packed (v.closeSlot (v.nfds - 1)) := by
  have hmax := h.le_max
  refine ⟨by simp; omega, by simp; omega, fun j => ?_⟩
  rw [closeSlot_occupied_iff, h.occupied_iff, closeSlot_nfds]
  omega

/-- The clients that an iteration finds disconnected: at most the one in the last slot. -/
def LeavesLast (v : Vars) (a : Answers) : Prop :=
  ∀ w, monitored a (v.polled a) = some w → ∀ k, 2 ≤ k → k + 1 < w.nfds → gone a w k = false

theorem monitored_packed (h : Packed v) {w : Vars} (hw : monitored a v = some w) : Packed w := by
  unfold monitored at hw
  split_ifs at hw
  have hacc := (Option.filter_eq_some_iff.1 hw).1
  unfold accepted at hacc
  split_ifs at hacc with h1 h2
  · obtain ⟨i, hi, rfl⟩ := Option.map_eq_some_iff.1 hacc
    exact h.openSlot hi h2.1 _
  · rw [← Option.some.inj hacc]
    exact h

/-- One iteration from packed slots, when nobody leaves from below the last slot. -/
theorem Packed.step (h : Packed v) (hc : LeavesLast v a) : Packed ((iteration a).final v) := by
  have hu := h.polled a
  cases hm : monitored a (v.polled a) with
  | some w =>
    have hw := monitored_packed hu hm
    rw [(iteration_of_monitored hm).1, clientLoop_last _ _ _ (by omega) (hc w hm)]
    split_ifs with hlast
    · exact hw.closeLast hlast.1
    · exact hw
  | none =>
    obtain ⟨-, ⟨nb, hfin⟩ | ⟨i, hacc, hf, ⟨-, hfin⟩ | hfin⟩⟩ := iteration_of_not_monitored hm
    · rw [hfin]
      exact ⟨hu.two_le, hu.le_max, hu.occupied_iff⟩
    · rw [hfin]
      exact hu.openSlot hf hacc _
    · rw [hfin]
      exact hu.dropSlot hf hacc _

/-- One iteration from packed slots, when somebody leaves from below the last slot: the client in the
last slot is still there and is no longer covered. -/
theorem Packed.step_hides (h : Packed v) (hc : ¬ LeavesLast v a) :
    ¬ Visible ((iteration a).final v) := by
  unfold LeavesLast at hc
  push Not at hc
  obtain ⟨w, hm, k, hk2, hk, hgone⟩ := hc
  have hw := monitored_packed (h.polled a) hm
  obtain ⟨hlt, hsame⟩ := clientLoop_not_last w.nfds 2 w (by omega) ⟨k, hk2, hk, by simpa using hgone⟩
  rw [(iteration_of_monitored hm).1]
  intro hvis
  have hocc : w.Occupied (w.nfds - 1) := (hw.occupied_iff _).2 (by omega)
  have := hvis (w.nfds - 1) ⟨hocc.1, hocc.2.1, by rw [hsame]; exact hocc.2.2⟩
  omega

/-- Every client is covered at every loop head of a run if and only if, in every iteration of the
run, a client that is found disconnected is in the last slot. -/
theorem visible_iff_leavesLast (socketFd : Int) (stack : Nat → Pollfd) (nonblock : Int → Bool)
    (as : List Answers) :
    AtHeads iteration Visible (initial socketFd stack nonblock) as ↔
      AllSteps iteration (fun _ => LeavesLast) [] (initial socketFd stack nonblock) as := by
  have hkeep : ∀ v a, Packed v → LeavesLast v a → Packed ((iteration a).final v) :=
    fun v a hv hc => hv.step hc
  have hbreak : ∀ v a, Packed v → ¬ LeavesLast v a → ¬ Visible ((iteration a).final v) :=
    fun v a hv hc => hv.step_hides hc
  exact atHeads_iff_allSteps (fun v hv => hv.visible) hkeep hbreak
    (initial_packed socketFd stack nonblock)

/-- An iteration in which `accept` returns `fd` and the handshake succeeds. -/
def connects (fd : Int) (ssl : Ssl) : Answers where
  numberRevents := 1
  revents i := if i = 0 then POLLIN else 0
  accept := fd
  clientAddr := "127.0.0.1"
  sslNew := some ssl
  sslSetFd := 1
  sslAccept _ := 1
  stdin := none
  sslWrite _ := 0
  sslRead _ := ⟨-1, [], .wantRead⟩

/-- An iteration in which the client in slot `i` closes its connection. -/
def leaves (i : Nat) : Answers :=
  { connects 0 0 with
    revents := fun j => if j = i then POLLIN else 0
    sslRead := fun _ => ⟨0, [], .zeroReturn⟩ }

/-- Two clients connect and the first one leaves: the second one, in slot `3`, is not below `nfds`
any more. -/
theorem second_client_hidden : ¬ ∀ (socketFd : Int) (stack : Nat → Pollfd) (nonblock : Int → Bool)
    (as : List Answers), AtHeads iteration Visible (initial socketFd stack nonblock) as := by
  intro h
  have hvis := h 3 (fun _ => ⟨-1, 0, 0⟩) (fun _ => false)
    [connects 4 100, connects 5 200, leaves 2] _ (List.prefix_refl _)
  have hocc : ((pollLoop [connects 4 100, connects 5 200, leaves 2]).final
      (initial 3 (fun _ => ⟨-1, 0, 0⟩) (fun _ => false))).Occupied 3 := by decide
  have hlt := hvis 3 hocc
  revert hlt
  decide

end SystemsProgramming.MtlsChat.Server
