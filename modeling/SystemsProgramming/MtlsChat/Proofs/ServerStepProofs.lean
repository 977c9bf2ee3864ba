import SystemsProgramming.MtlsChat.Server

/-!
# Proofs: what one iteration of the server does to its variables

Each function of the server gets one lemma that says what it leaves in the variables. The loop that
reads from the clients shrinks its own bound while it runs; `mem_visited_iff` says which slots it
still reaches.
-/

namespace SystemsProgramming.MtlsChat.Server

open Foundations Prog

variable {a : Answers} {v : Vars}

/-- The `SSL_read` on slot `i` makes `monitor` give the client up. -/
def disconnects (a : Answers) (i : Nat) : Bool :=
  (a.sslRead i).ret ≤ 0 && (a.sslRead i).error != .wantRead && (a.sslRead i).error != .wantWrite

/-- Slot `i` holds a client and its `revents` say that there is something to read. -/
def due (v : Vars) (i : Nat) : Bool := (v.fds i).fd != -1 && (v.fds i).readable

/-- What `monitor` leaves of slot `i` when it gives the client up. -/
def Vars.closeSlot (v : Vars) (i : Nat) : Vars :=
  { v with
    fds := Function.update v.fds i { v.fds i with fd := -1 }
    ssls := Function.update v.ssls i none
    nfds := v.nfds - 1 }

section CloseSlot

variable {i j : Nat}

@[simp] theorem closeSlot_nfds : (v.closeSlot i).nfds = v.nfds - 1 := rfl

@[simp] theorem closeSlot_fd_self : ((v.closeSlot i).fds i).fd = -1 := by simp [Vars.closeSlot]

theorem closeSlot_fds_of_ne (h : j ≠ i) : (v.closeSlot i).fds j = v.fds j := by
  simp [Vars.closeSlot, h]

theorem closeSlot_ssls_of_ne (h : j ≠ i) : (v.closeSlot i).ssls j = v.ssls j := by
  simp [Vars.closeSlot, h]

theorem closeSlot_due_of_ne (h : j ≠ i) : due (v.closeSlot i) j = due v j := by
  simp [due, closeSlot_fds_of_ne h]

theorem closeSlot_occupied_iff : (v.closeSlot i).Occupied j ↔ v.Occupied j ∧ j ≠ i := by
  by_cases h : j = i
  · subst h
    simp [Vars.Occupied]
  · simp [Vars.Occupied, closeSlot_fds_of_ne h, h]

end CloseSlot

/-! ## Reading from the clients -/

theorem final_monitor (a : Answers) (i : Nat) (v : Vars) :
    (monitor a i).final v = if disconnects a i then v.closeSlot i else v := by
  have hclose : (monitorError i).final v = v.closeSlot i := by simp [monitorError, Vars.closeSlot]
  by_cases hr : (a.sslRead i).ret ≤ 0
  · cases he : (a.sslRead i).error <;> simp [monitor, monitorCleanup, disconnects, hr, he, hclose]
  · simp [monitor, disconnects, hr]

/-- One round of the loop over the clients. -/
def clientRound (a : Answers) (i : Nat) : Prog Vars Call Unit := do
  let v ← get
  if (v.fds i).fd ≠ -1 ∧ (v.fds i).readable then
    monitor a i

/-- A client whose slot is due and who turns out to have gone. -/
def gone (a : Answers) (v : Vars) (i : Nat) : Bool := due v i && disconnects a i

theorem final_clientRound (a : Answers) (i : Nat) (v : Vars) :
    (clientRound a i).final v = if gone a v i then v.closeSlot i else v := by
  by_cases h : due v i = true
  · have h' : (v.fds i).fd ≠ -1 ∧ (v.fds i).readable = true := by simpa [due] using h
    simp [clientRound, h', final_monitor, gone, h]
  · have h' : ¬ ((v.fds i).fd ≠ -1 ∧ (v.fds i).readable = true) := by simpa [due] using h
    have hf : due v i = false := by simpa using h
    simp [clientRound, h', gone, hf]

theorem nfds_clientRound_le (i : Nat) (v : Vars) : ((clientRound a i).final v).nfds ≤ v.nfds := by
  rw [final_clientRound]
  split <;> simp

/-- The slots a list of calls reads from: the slots handed to `monitor`. -/
def visited (cs : List Call) : List Nat :=
  cs.filterMap fun
    | .sslRead slot _ _ => some slot
    | _ => none

@[simp] theorem visited_nil : visited [] = [] := rfl

@[simp] theorem visited_cons (c : Call) (cs : List Call) :
    visited (c :: cs) =
      match c with
      | .sslRead slot _ _ => slot :: visited cs
      | _ => visited cs := by
  cases c <;> rfl

@[simp] theorem visited_append (cs ds : List Call) :
    visited (cs ++ ds) = visited cs ++ visited ds := List.filterMap_append ..

theorem visited_monitor (a : Answers) (i : Nat) (v : Vars) :
    visited ((monitor a i).calls v) = [i] := by
  have herr : visited ((monitorError i).calls v) = [] := by simp [monitorError]
  have hclean : visited ((monitorCleanup i).calls v) = [] := by
    rw [monitorCleanup]
    simp only [calls_bind, value_get, final_get, calls_get, final_call, calls_call, visited_append,
      herr]
    rfl
  by_cases hr : (a.sslRead i).ret ≤ 0
  · cases he : (a.sslRead i).error <;>
      simp only [monitor, hr, he, calls_bind, calls_get, calls_call, value_get, final_get,
        final_call, visited_append, herr, hclean, if_true, calls_pure] <;> rfl
  · simp only [monitor, hr, calls_bind, calls_get, calls_call, value_get, final_get, final_call,
      visited_append, if_false]
    rfl

theorem visited_clientRound (a : Answers) (i : Nat) (v : Vars) :
    visited ((clientRound a i).calls v) = if due v i then [i] else [] := by
  by_cases h : due v i = true
  · have h' : (v.fds i).fd ≠ -1 ∧ (v.fds i).readable = true := by simpa [due] using h
    simp [clientRound, h', h, visited_monitor]
  · have h' : ¬ ((v.fds i).fd ≠ -1 ∧ (v.fds i).readable = true) := by simpa [due] using h
    have hf : due v i = false := by simpa using h
    simp [clientRound, h', hf]

/-- The loop over the clients from slot `i` on. -/
abbrev clientLoop (a : Answers) : Nat → Nat → Prog Vars Call Unit :=
  forBelow Vars.nfds (clientRound a)

theorem monitorClients_eq (a : Answers) :
    monitorClients a =
      if 0 < a.numberRevents then (get >>= fun v => clientLoop a v.nfds 2) else pure () := rfl

/-- The rounds that the loop is given suffice: it ends because no slot is left below `nfds`. -/
theorem clientLoop_fuel (a : Answers) (v : Vars) (extra : Nat) :
    (clientLoop a (v.nfds + extra) 2).final v = (clientLoop a v.nfds 2).final v ∧
    (clientLoop a (v.nfds + extra) 2).calls v = (clientLoop a v.nfds 2).calls v :=
  forBelow_fuel _ _ nfds_clientRound_le v.nfds 2 v (by omega) extra

/-- The number of clients in the slots `lo`, …, `hi - 1` that are found to have gone. -/
def goneCount (a : Answers) (v : Vars) (lo hi : Nat) : Nat :=
  (List.range' lo (hi - lo)).countP (gone a v)

theorem goneCount_cons {lo hi : Nat} (h : lo < hi) :
    goneCount a v lo hi = (if gone a v lo then 1 else 0) + goneCount a v (lo + 1) hi := by
  obtain ⟨n, hn⟩ : ∃ n, hi - lo = n + 1 := ⟨hi - lo - 1, by omega⟩
  have hn' : hi - (lo + 1) = n := by omega
  rw [goneCount, goneCount, hn, hn', List.range'_succ, List.countP_cons]
  omega

theorem goneCount_congr {a' : Answers} {v' : Vars} {lo hi : Nat}
    (h : ∀ j, lo ≤ j → gone a v j = gone a' v' j) : goneCount a v lo hi = goneCount a' v' lo hi := by
  refine List.countP_congr fun j hj => ?_
  rw [h j (List.mem_range'_1.1 hj).1]

theorem goneCount_eq_zero {lo hi : Nat} (h : ∀ k, lo ≤ k → k < hi → gone a v k = false) :
    goneCount a v lo hi = 0 := by
  refine List.countP_eq_zero.2 fun k hk => ?_
  have hk' := List.mem_range'_1.1 hk
  simp [h k hk'.1 (by omega)]

/-- The round at slot `i` does not touch the later slots. -/
theorem due_after_round {i j : Nat} (h : i < j) (v : Vars) :
    due ((clientRound a i).final v) j = due v j := by
  rw [final_clientRound]
  split
  · exact closeSlot_due_of_ne (by omega)
  · rfl

/-- The loop reaches a slot that is due exactly when the slot is still below the bound after the
clients before it that have gone are taken off. -/
theorem mem_visited_iff : ∀ (fuel i : Nat) (v : Vars), v.nfds ≤ fuel + i → ∀ j,
    j ∈ visited ((clientLoop a fuel i).calls v) ↔
      i ≤ j ∧ due v j = true ∧ j + goneCount a v i j < v.nfds := by
  intro fuel
  induction fuel with
  | zero =>
    intro i v hle j
    rw [calls_forBelow_stop _ _ (by omega)]
    simp only [visited_nil, List.not_mem_nil, false_iff]
    omega
  | succ fuel ih =>
    intro i v hle j
    by_cases hi : i < v.nfds
    · have hround := nfds_clientRound_le (a := a) i v
      rw [calls_forBelow_succ _ _ hi, visited_append, List.mem_append, visited_clientRound,
        ih (i + 1) _ (by omega) j]
      have hcount : goneCount a ((clientRound a i).final v) (i + 1) j = goneCount a v (i + 1) j :=
        goneCount_congr fun k hk => by simp [gone, due_after_round (show i < k by omega)]
      have hnfds : ((clientRound a i).final v).nfds = v.nfds - if gone a v i then 1 else 0 := by
        rw [final_clientRound]
        split <;> simp
      rw [hcount, hnfds]
      rcases Nat.lt_trichotomy j i with hji | rfl | hij
      · -- `j` lies before the loop
        have hne : j ∉ if due v i = true then [i] else [] := by
          split <;> simp
          omega
        simp only [hne, false_or]
        omega
      · -- `j` is this round's slot
        have hzero : goneCount a v j j = 0 := by simp [goneCount]
        have hself : (j ∈ if due v j = true then [j] else []) ↔ due v j = true := by
          split <;> simp_all
        simp only [hself, hzero, Nat.add_zero, Nat.le_refl, true_and]
        constructor
        · rintro (h | h)
          · exact ⟨h, hi⟩
          · omega
        · exact fun h => Or.inl h.1
      · -- `j` is left to the later rounds
        have hne : j ∉ if due v i = true then [i] else [] := by
          split <;> simp
          omega
        rw [due_after_round hij, goneCount_cons hij]
        simp only [hne, false_or]
        constructor
        · rintro ⟨h1, h2, h3⟩
          exact ⟨by omega, h2, by omega⟩
        · rintro ⟨h1, h2, h3⟩
          exact ⟨by omega, h2, by omega⟩
    · rw [calls_forBelow_stop _ _ hi]
      simp only [visited_nil, List.not_mem_nil, false_iff]
      omega

/-- The loop leaves a slot as it was, or closes it because its client has gone. -/
theorem clientLoop_slot : ∀ (fuel i : Nat) (v : Vars) (j : Nat),
    (((clientLoop a fuel i).final v).fds j = v.fds j ∧
      ((clientLoop a fuel i).final v).ssls j = v.ssls j) ∨
    (gone a v j = true ∧ (((clientLoop a fuel i).final v).fds j).fd = -1) := by
  intro fuel
  induction fuel with
  | zero => intro i v j; exact Or.inl ⟨rfl, rfl⟩
  | succ fuel ih =>
    intro i v j
    by_cases hi : i < v.nfds
    · rw [final_forBelow_succ _ _ hi]
      by_cases hg : gone a v i = true
      · have hround : (clientRound a i).final v = v.closeSlot i := by
          rw [final_clientRound, if_pos hg]
        rw [hround]
        by_cases hji : j = i
        · -- a closed slot stays closed
          subst hji
          rcases ih (j + 1) (v.closeSlot j) j with ⟨h, -⟩ | ⟨-, h⟩
          · exact Or.inr ⟨hg, by rw [h, closeSlot_fd_self]⟩
          · exact Or.inr ⟨hg, h⟩
        · have hgone : gone a (v.closeSlot i) j = gone a v j := by
            simp [gone, closeSlot_due_of_ne hji]
          have h := ih (i + 1) (v.closeSlot i) j
          rwa [closeSlot_fds_of_ne hji, closeSlot_ssls_of_ne hji, hgone] at h
      · have hround : (clientRound a i).final v = v := by rw [final_clientRound, if_neg hg]
        rw [hround]
        exact ih (i + 1) v j
    · rw [final_forBelow_stop _ _ hi]
      exact Or.inl ⟨rfl, rfl⟩

theorem clientLoop_nfds_le : ∀ (fuel i : Nat) (v : Vars),
    ((clientLoop a fuel i).final v).nfds ≤ v.nfds := by
  intro fuel
  induction fuel with
  | zero => intro i v; exact Nat.le_refl _
  | succ fuel ih =>
    intro i v
    by_cases hi : i < v.nfds
    · rw [final_forBelow_succ _ _ hi]
      exact Nat.le_trans (ih (i + 1) _) (nfds_clientRound_le i v)
    · exact Nat.le_of_eq (congrArg Vars.nfds (final_forBelow_stop _ _ hi))

/-- No client has gone, except perhaps the one in the last slot below the bound: then at most that
slot is closed. -/
theorem clientLoop_last : ∀ (fuel i : Nat) (v : Vars), v.nfds ≤ fuel + i →
    (∀ k, i ≤ k → k + 1 < v.nfds → gone a v k = false) →
      (clientLoop a fuel i).final v =
        if i < v.nfds ∧ gone a v (v.nfds - 1) = true then v.closeSlot (v.nfds - 1) else v := by
  intro fuel
  induction fuel with
  | zero =>
    intro i v hle _
    rw [final_forBelow_stop _ _ (by omega), if_neg (by omega)]
  | succ fuel ih =>
    intro i v hle hgone
    by_cases hi : i < v.nfds
    · rw [final_forBelow_succ _ _ hi]
      by_cases hlast : i + 1 = v.nfds
      · -- this is the last round
        have hi' : i = v.nfds - 1 := by omega
        rw [final_clientRound]
        split
        · rename_i hg
          rw [final_forBelow_stop _ _ (by simp; omega), ← hi', if_pos ⟨hi, hg⟩]
        · rename_i hg
          rw [final_forBelow_stop _ _ (by omega), ← hi', if_neg (by simp [hg])]
      · have hround : (clientRound a i).final v = v := by
          rw [final_clientRound, hgone i (Nat.le_refl _) (by omega)]
          simp
        rw [hround, ih (i + 1) v (by omega) fun k hk => hgone k (by omega)]
        simp only [hi, true_and, show i + 1 < v.nfds by omega]
    · rw [final_forBelow_stop _ _ hi, if_neg (by tauto)]

/-- A client below the last slot has gone: then the bound shrinks and the last slot stays. -/
theorem clientLoop_not_last : ∀ (fuel i : Nat) (v : Vars), v.nfds ≤ fuel + i →
    (∃ k, i ≤ k ∧ k + 1 < v.nfds ∧ gone a v k = true) →
      ((clientLoop a fuel i).final v).nfds < v.nfds ∧
      ((clientLoop a fuel i).final v).fds (v.nfds - 1) = v.fds (v.nfds - 1) := by
  -- once a slot is closed, the bound keeps every later round away from the last slot
  have hstay : ∀ (fuel i : Nat) (v : Vars) (j : Nat), v.nfds ≤ j →
      ((clientLoop a fuel i).final v).fds j = v.fds j := by
    intro fuel
    induction fuel with
    | zero => intro i v j _; rfl
    | succ fuel ih =>
      intro i v j hj
      by_cases hi : i < v.nfds
      · rw [final_forBelow_succ _ _ hi,
          ih (i + 1) _ j (Nat.le_trans (nfds_clientRound_le i v) hj), final_clientRound]
        split
        · exact closeSlot_fds_of_ne (by omega)
        · rfl
      · rw [final_forBelow_stop _ _ hi]
  intro fuel
  induction fuel with
  | zero =>
    rintro i v hle ⟨k, h1, h2, -⟩
    omega
  | succ fuel ih =>
    rintro i v hle ⟨k, h1, h2, hk⟩
    have hi : i < v.nfds := by omega
    rw [final_forBelow_succ _ _ hi]
    by_cases hg : gone a v i = true
    · rw [final_clientRound, if_pos hg, hstay _ _ _ _ (by simp)]
      have hle' := clientLoop_nfds_le (a := a) fuel (i + 1) (v.closeSlot i)
      refine ⟨Nat.lt_of_le_of_lt hle' ?_, closeSlot_fds_of_ne (by omega)⟩
      rw [closeSlot_nfds]
      omega
    · have hki : k ≠ i := by
        rintro rfl
        exact hg hk
      have hround : (clientRound a i).final v = v := by rw [final_clientRound, if_neg hg]
      rw [hround]
      exact ih (i + 1) v (by omega) ⟨k, by omega, h2, hk⟩

/-! ## Accepting a connection -/

/-- The listening socket was reported. -/
def pending (a : Answers) (v : Vars) : Prop := 0 < a.numberRevents ∧ (v.fds 0).readable = true

/-- The TLS half of the connection is set up on a non-blocking descriptor. -/
def established (a : Answers) : Prop := a.sslNew ≠ none ∧ a.sslSetFd ≠ 0 ∧ 0 < a.sslAccept true

instance : Decidable (pending a v) := by unfold pending; infer_instance

instance : Decidable (established a) := by unfold established; infer_instance

/-- The variables once the connection `fd` has slot `i` and the SSL object `ssl`. -/
def Vars.openSlot (v : Vars) (i : Nat) (fd : Int) (ssl : Option Ssl) : Vars where
  fds := Function.update v.fds i ⟨fd, POLLIN, 0⟩
  ssls := Function.update v.ssls i ssl
  nfds := if v.nfds ≤ i then i + 1 else v.nfds
  nonblock := Function.update v.nonblock fd true

/-- The variables once a connection whose handshake failed has been taken out of slot `i`. -/
def Vars.dropSlot (v : Vars) (i : Nat) : Vars :=
  { v with
    fds := Function.update v.fds i { v.fds i with fd := -1 }
    nfds := v.nfds - 1 }

theorem freeSlot_eq_some {i : Nat} :
    freeSlot v.fds = some i ↔ 2 ≤ i ∧ i < maxClients ∧ (v.fds i).fd = -1 ∧
      ∀ j, 2 ≤ j → j < i → v.Occupied j := by
  rw [freeSlot, SlotTable.firstFree_eq_some]
  simp only [decide_eq_true_eq, decide_eq_false_iff_not, Vars.Occupied]
  constructor
  · rintro ⟨h1, h2, h3, h4⟩
    exact ⟨h1, h2, h3, fun j hj hji => ⟨hj, by omega, h4 j hj hji⟩⟩
  · rintro ⟨h1, h2, h3, h4⟩
    exact ⟨h1, h2, h3, fun j hj hji => (h4 j hj hji).2.2⟩

theorem freeSlot_eq_none : freeSlot v.fds = none ↔ ∀ j, 2 ≤ j → j < maxClients → v.Occupied j := by
  rw [freeSlot, SlotTable.firstFree_eq_none]
  simp only [decide_eq_false_iff_not, Vars.Occupied]
  exact ⟨fun h j h1 h2 => ⟨h1, h2, h j h1 h2⟩, fun h j h1 h2 => (h j h1 h2).2.2⟩

theorem freeSlot_polled (a : Answers) (v : Vars) : freeSlot (v.polled a).fds = freeSlot v.fds := by
  simp [freeSlot, Vars.polled]

theorem tcpAcceptFunction_error (h : a.accept < 0) (v : Vars) :
    (tcpAcceptFunction a).value v = none ∧ (tcpAcceptFunction a).final v = v ∧
      (tcpAcceptFunction a).calls v = [.perror "accept"] := by
  simp [tcpAcceptFunction, h]

theorem tcpAcceptFunction_full (h : 0 ≤ a.accept) (hf : freeSlot v.fds = none) :
    (tcpAcceptFunction a).value v = none ∧
      (tcpAcceptFunction a).final v =
        { v with nonblock := Function.update v.nonblock a.accept false } ∧
      (tcpAcceptFunction a).calls v =
        [.accept a.accept, .fprintfStderr maxClientsReached, .close a.accept] := by
  have h' : ¬ a.accept < 0 := by omega
  simp [tcpAcceptFunction, h', hf]

theorem tcpAcceptFunction_slot {i : Nat} (h : 0 ≤ a.accept) (hf : freeSlot v.fds = some i) :
    (tcpAcceptFunction a).value v = some i ∧
      (tcpAcceptFunction a).final v = v.openSlot i a.accept (v.ssls i) ∧
      (tcpAcceptFunction a).calls v = [.accept a.accept, .setNonblock a.accept] := by
  have h' : ¬ a.accept < 0 := by omega
  simp [tcpAcceptFunction, h', hf, Vars.openSlot]

/-- `tls_accept_function` on a slot whose descriptor is non-blocking: what it returns and leaves. -/
theorem tlsAcceptFunction_spec {i : Nat} (hn : v.nonblock (v.fds i).fd = true) :
    ((tlsAcceptFunction a i).value v = if established a then 0 else 1) ∧
      (tlsAcceptFunction a i).final v = { v with ssls := Function.update v.ssls i a.sslNew } := by
  by_cases h1 : a.sslNew = none
  · simp [tlsAcceptFunction, established, h1]
  · by_cases h2 : a.sslSetFd = 0
    · simp [tlsAcceptFunction, established, h1, h2]
    · by_cases h3 : a.sslAccept true ≤ 0
      · have h3' : ¬ 0 < a.sslAccept true := by omega
        by_cases h4 : a.sslAccept true < 0 <;>
          simp [tlsAcceptFunction, established, h1, h2, h3, h3', h4, hn]
      · have h3' : 0 < a.sslAccept true := by omega
        simp [tlsAcceptFunction, established, h1, h2, h3, h3', hn]

/-- The four ways through the first job of the poll loop. -/
theorem acceptConnection_cases (a : Answers) (v : Vars) :
    (¬ pending a v ∧ (acceptConnection a).final v = (serveStdin a).final v ∧
      (acceptConnection a).calls v = (serveStdin a).calls v) ∨
    (pending a v ∧ (a.accept < 0 ∨ freeSlot v.fds = none) ∧
      (∃ nb, (acceptConnection a).final v = { v with nonblock := nb }) ∧
      (acceptConnection a).calls v = (tcpAcceptFunction a).calls v) ∨
    (∃ i, pending a v ∧ 0 ≤ a.accept ∧ freeSlot v.fds = some i ∧ ¬ established a ∧
      (acceptConnection a).final v = (v.openSlot i a.accept a.sslNew).dropSlot i ∧
      (acceptConnection a).calls v = (tcpAcceptFunction a).calls v ++
        (tlsAcceptFunction a i).calls (v.openSlot i a.accept (v.ssls i)) ++ [.close a.accept]) ∨
    (∃ i, pending a v ∧ 0 ≤ a.accept ∧ freeSlot v.fds = some i ∧ established a ∧
      (acceptConnection a).final v = (serveStdin a).final (v.openSlot i a.accept a.sslNew) ∧
      (acceptConnection a).calls v = (tcpAcceptFunction a).calls v ++
        (tlsAcceptFunction a i).calls (v.openSlot i a.accept (v.ssls i)) ++
        .printf ("[client connected: " ++ a.clientAddr ++ "]\n") ::
        (serveStdin a).calls (v.openSlot i a.accept a.sslNew)) := by
  by_cases hp : pending a v
  · have hp' := hp
    unfold pending at hp'
    right
    by_cases hacc : a.accept < 0
    · left
      obtain ⟨h1, h2, h3⟩ := tcpAcceptFunction_error hacc v
      refine ⟨hp, Or.inl hacc, ⟨v.nonblock, ?_⟩, ?_⟩ <;> simp [acceptConnection, hp', h1, h2]
    · have hacc' : 0 ≤ a.accept := by omega
      cases hf : freeSlot v.fds with
      | none =>
        left
        obtain ⟨h1, h2, h3⟩ := tcpAcceptFunction_full hacc' hf
        refine ⟨hp, Or.inr rfl, ⟨Function.update v.nonblock a.accept false, ?_⟩, ?_⟩ <;>
          simp [acceptConnection, hp', h1, h2]
      | some i =>
        right
        obtain ⟨h1, h2, h3⟩ := tcpAcceptFunction_slot hacc' hf
        have hn : (v.openSlot i a.accept (v.ssls i)).nonblock
            ((v.openSlot i a.accept (v.ssls i)).fds i).fd = true := by simp [Vars.openSlot]
        obtain ⟨t1, t2⟩ := tlsAcceptFunction_spec (a := a) hn
        have t2' : (tlsAcceptFunction a i).final (v.openSlot i a.accept (v.ssls i)) =
            v.openSlot i a.accept a.sslNew := by
          rw [t2]
          simp [Vars.openSlot]
        by_cases he : established a
        · right
          rw [if_pos he] at t1
          refine ⟨i, hp, hacc', rfl, he, ?_, ?_⟩ <;>
            simp [acceptConnection, hp', h1, h2, t1, t2']
        · left
          rw [if_neg he] at t1
          refine ⟨i, hp, hacc', rfl, he, ?_, ?_⟩
          · simp [acceptConnection, hp', h1, h2, t1, t2', Vars.dropSlot]
          · simp [acceptConnection, hp', h1, h2, t1, t2']
            simp [Vars.openSlot]
  · left
    have hp' := hp
    unfold pending at hp'
    refine ⟨hp, ?_, ?_⟩ <;> simp [acceptConnection, hp']

/-! ## Standard input -/

/-- Standard input was reported, and the `read` finds the end of the file or an error. -/
def stdinFails (a : Answers) (v : Vars) : Prop :=
  0 < a.numberRevents ∧ (v.fds 1).readable = true ∧ received (read tlsRecordSize a.stdin) = none

instance : Decidable (stdinFails a v) := by unfold stdinFails; infer_instance

/-- `broadcast` makes calls only. -/
theorem final_broadcast (a : Answers) (buffer : List UInt8) (v : Vars) :
    (broadcast a buffer).final v = v := by
  rw [broadcast, final_get_bind]
  exact final_forEach_callIf _ _ _ _

/-- `broadcast` writes to every slot in use below `nfds`, in the order of the slots. -/
theorem calls_broadcast (a : Answers) (buffer : List UInt8) (v : Vars) :
    (broadcast a buffer).calls v =
      ((List.range' 2 (v.nfds - 2)).filter fun i => (v.fds i).fd ≠ -1).map fun i =>
        .sslWrite i (v.ssls i) buffer (a.sslWrite i) := by
  rw [broadcast, calls_get_bind]
  exact calls_forEach_callIf _ _ _ _

theorem visited_broadcast (a : Answers) (buffer : List UInt8) (v : Vars) :
    visited ((broadcast a buffer).calls v) = [] := by
  rw [calls_broadcast, visited, List.filterMap_map]
  exact List.filterMap_eq_nil_iff.2 fun _ _ => rfl

/-- The second and third job: the iteration ends at a failed read, and otherwise goes on to the
clients. -/
theorem serveStdin_spec (a : Answers) (v : Vars) :
    ((serveStdin a).final v = if stdinFails a v then v else (monitorClients a).final v) ∧
    visited ((serveStdin a).calls v) =
      if stdinFails a v then [] else visited ((monitorClients a).calls v) := by
  by_cases h : 0 < a.numberRevents ∧ (v.fds 1).readable = true
  · cases hr : received (read tlsRecordSize a.stdin) with
    | none =>
      have hf : stdinFails a v := ⟨h.1, h.2, hr⟩
      simp [serveStdin, readServer, h, hr, hf]
    | some buffer =>
      have hf : ¬ stdinFails a v := by simp [stdinFails, hr]
      simp [serveStdin, readServer, h, hr, hf, final_broadcast, visited_broadcast]
  · have hf : ¬ stdinFails a v := fun hf => h ⟨hf.1, hf.2.1⟩
    simp [serveStdin, h, hf]

/-! ## Which calls belong to which job -/

/-- The calls that set a connection up: none of them reads from a client or from standard input, or
writes to a client. -/
def Call.isSetup : Call → Bool
  | .readStdin _ | .writeStdout _ | .sslWrite _ _ _ _ | .sslRead _ _ _ | .errPrintErrors => false
  | _ => true

/-- The calls of the loop that reads from the clients. -/
def Call.isMonitoring : Call → Bool
  | .sslRead _ _ _ | .sslShutdown (.monitor _) _ | .sslFree (.monitor _) _ | .close _ | .printf _
  | .errPrintErrors | .writeStdout _ => true
  | _ => false

/-- The calls of the second and third job. -/
def Call.isServing : Call → Bool
  | .readStdin _ | .sslWrite _ _ _ _ => true
  | c => c.isMonitoring

theorem tcpAcceptFunction_setup (a : Answers) :
    AllCalls (fun c => c.isSetup = true) (tcpAcceptFunction a) := by
  refine .ite (.bind (.call rfl) fun _ => .pure _)
    (.bind (.call rfl) fun _ => .bind (.modify _) fun _ => .bind .get fun v => ?_)
  cases freeSlot v.fds with
  | none => exact .bind (.call rfl) fun _ => .bind (.call rfl) fun _ => .pure _
  | some i =>
    exact .bind (.modify _) fun _ => .bind (.call rfl) fun _ => .bind (.modify _) fun _ =>
      .bind (.modify _) fun _ => .pure _

theorem tlsAcceptFunction_setup (a : Answers) (i : Nat) :
    AllCalls (fun c => c.isSetup = true) (tlsAcceptFunction a i) := by
  have hfree : ∀ v : Vars, AllCalls (fun c => c.isSetup = true)
      (do call (.sslFree .tlsAcceptFunction (v.ssls i)); return 1 : Prog Vars Call Int) :=
    fun v => .bind (.call rfl) fun _ => .pure _
  refine .bind (.call rfl) fun _ => .bind (.modify _) fun _ => .bind .get fun v => ?_
  refine .ite (.pure _) (.bind (.call rfl) fun _ => .ite (hfree v) ?_)
  exact .bind (.call rfl) fun _ =>
    .ite (.ite (.bind (.call rfl) fun _ => hfree v) (hfree v)) (.pure _)

theorem monitorError_monitoring (i : Nat) :
    AllCalls (fun c => c.isMonitoring = true) (monitorError i) :=
  .bind .get fun _ => .bind (.call rfl) fun _ => .bind (.modify _) fun _ =>
    .bind (.call rfl) fun _ => .bind (.modify _) fun _ => .modify _

theorem monitorCleanup_monitoring (i : Nat) :
    AllCalls (fun c => c.isMonitoring = true) (monitorCleanup i) :=
  .bind .get fun _ => .bind (.call rfl) fun _ => monitorError_monitoring i

theorem monitor_monitoring (a : Answers) (i : Nat) :
    AllCalls (fun c => c.isMonitoring = true) (monitor a i) := by
  refine .bind .get fun _ => .bind (.call rfl) fun _ => .ite ?_ (.call rfl)
  cases (a.sslRead i).error
  case zeroReturn | other => exact .bind (.call rfl) fun _ => monitorCleanup_monitoring i
  case syscall | ssl => exact .bind (.call rfl) fun _ => monitorError_monitoring i
  case wantRead | wantWrite => exact .pure ()

theorem monitorClients_monitoring (a : Answers) :
    AllCalls (fun c => c.isMonitoring = true) (monitorClients a) :=
  .ite (.bind .get fun _ => .forBelow
    (fun i => .bind .get fun _ => .ite (monitor_monitoring a i) (.pure ())) _ _) (.pure ())

theorem serveStdin_serving (a : Answers) :
    AllCalls (fun c => c.isServing = true) (serveStdin a) := by
  have hclients : AllCalls (fun c => c.isServing = true) (monitorClients a) := by
    refine (monitorClients_monitoring a).mono fun c hc => ?_
    cases c <;> first | rfl | exact hc
  refine .bind .get fun _ => .ite (.bind (.bind (.call rfl) fun _ => .pure _) fun r => ?_) hclients
  cases r with
  | none => exact .pure ()
  | some buffer =>
    exact .bind (.bind .get fun _ =>
      .forEach (fun i => .bind .get fun _ => .ite (.call (by rfl)) (.pure ())) _) fun _ => hclients

theorem visited_of_setup {cs : List Call} (h : ∀ c ∈ cs, c.isSetup = true) : visited cs = [] := by
  refine List.filterMap_eq_nil_iff.2 fun c hc => ?_
  have hset := h c hc
  cases c <;> first | rfl | cases hset

/-! ## The whole iteration -/

/-- The variables with which the iteration gets past its first job, if it does: a connection that was
pending is accepted and established. -/
def accepted (a : Answers) (v : Vars) : Option Vars :=
  if pending a v then
    if 0 ≤ a.accept ∧ established a then
      (freeSlot v.fds).map fun i => v.openSlot i a.accept a.sslNew
    else none
  else some v

/-- The variables with which the iteration reaches the loop over the clients, if it does. -/
def monitored (a : Answers) (v : Vars) : Option Vars :=
  if 0 < a.numberRevents then (accepted a v).filter fun w => ¬ stdinFails a w else none

theorem accepted_eq_some {w : Vars} : accepted a v = some w ↔ (¬ pending a v ∧ v = w) ∨
    (pending a v ∧ 0 ≤ a.accept ∧ established a ∧
      ∃ i, freeSlot v.fds = some i ∧ v.openSlot i a.accept a.sslNew = w) := by
  unfold accepted
  split_ifs with h1 h2
  · simp [h1, h2, Option.map_eq_some_iff]
  · simp only [h1, not_true_eq_false, false_and, true_and, false_or, false_iff]
    exact fun h => h2 ⟨h.1, h.2.1⟩
  · simp [h1]

/-- The calls of both accept functions, and one more, are calls of the setup. -/
theorem acceptCalls_setup (a : Answers) (u w : Vars) (i : Nat) {last : Call}
    (hlast : last.isSetup = true) :
    ∀ c ∈ (tcpAcceptFunction a).calls u ++ (tlsAcceptFunction a i).calls w ++ [last],
      c.isSetup = true := by
  intro c hc
  rcases List.mem_append.1 hc with hc | hc
  · rcases List.mem_append.1 hc with hc | hc
    · exact tcpAcceptFunction_setup a u c hc
    · exact tlsAcceptFunction_setup a i w c hc
  · rw [List.mem_singleton.1 hc]
    exact hlast

/-- An iteration that gets past its first job goes on with the other two. -/
theorem iteration_of_accepted {w : Vars} (h : accepted a (v.polled a) = some w) :
    (iteration a).final v = (serveStdin a).final w ∧
    ∃ setup, (∀ c ∈ setup, c.isSetup = true) ∧
      (iteration a).calls v = setup ++ (serveStdin a).calls w := by
  have hfin : (iteration a).final v = (acceptConnection a).final (v.polled a) := rfl
  have hcalls : (iteration a).calls v = (acceptConnection a).calls (v.polled a) := rfl
  rw [hfin, hcalls]
  generalize v.polled a = u at h
  obtain ⟨h1, rfl⟩ | ⟨h1, h2, h3, i, h4, rfl⟩ := accepted_eq_some.1 h
  · obtain ⟨-, h5, h6⟩ | ⟨h5, -⟩ | ⟨i, h5, -⟩ | ⟨i, h5, -⟩ := acceptConnection_cases a u
    · exact ⟨h5, [], by simp, by rw [h6, List.nil_append]⟩
    all_goals exact absurd h5 h1
  · obtain ⟨h5, -⟩ | ⟨-, h5, -⟩ | ⟨j, -, -, -, h5, -⟩ | ⟨j, -, -, h5, -, h6, h7⟩ :=
      acceptConnection_cases a u
    · exact absurd h1 h5
    · rcases h5 with h5 | h5
      · omega
      · rw [h5] at h4
        cases h4
    · exact absurd h3 h5
    · obtain rfl : i = j := Option.some.inj (h4.symm.trans h5)
      exact ⟨h6, _ ++ [.printf _], acceptCalls_setup a u _ i rfl, by rw [h7, ← List.append_cons]⟩

/-- An iteration that does not get past its first job leaves the slots as they are, or has taken a
new connection out of its slot again. -/
theorem iteration_of_not_accepted (h : accepted a (v.polled a) = none) :
    (∀ c ∈ (iteration a).calls v, c.isSetup = true) ∧
    ((∃ nb, (iteration a).final v = { v.polled a with nonblock := nb }) ∨
      ∃ i, 0 ≤ a.accept ∧ freeSlot (v.polled a).fds = some i ∧
        (iteration a).final v = ((v.polled a).openSlot i a.accept a.sslNew).dropSlot i) := by
  have hfin : (iteration a).final v = (acceptConnection a).final (v.polled a) := rfl
  have hcalls : (iteration a).calls v = (acceptConnection a).calls (v.polled a) := rfl
  rw [hfin, hcalls]
  generalize v.polled a = u at h
  have hnone : ∀ w, accepted a u ≠ some w := by simp [h]
  obtain ⟨h1, -⟩ | ⟨-, -, h3, h4⟩ | ⟨i, -, h2, h3, -, h5, h6⟩ | ⟨i, h1, h2, h3, h4, -⟩ :=
    acceptConnection_cases a u
  · exact absurd (accepted_eq_some.2 (Or.inl ⟨h1, rfl⟩)) (hnone u)
  · rw [h4]
    exact ⟨tcpAcceptFunction_setup a u, Or.inl h3⟩
  · rw [h6]
    exact ⟨acceptCalls_setup a u _ i rfl, Or.inr ⟨i, h2, h3, h5⟩⟩
  · exact absurd (accepted_eq_some.2 (Or.inr ⟨h1, h2, h4, i, h3, rfl⟩)) (hnone _)

theorem final_monitorClients (a : Answers) (v : Vars) : (monitorClients a).final v =
    if 0 < a.numberRevents then (clientLoop a v.nfds 2).final v else v := by
  rw [monitorClients_eq]
  simp

theorem visited_monitorClients (a : Answers) (v : Vars) : visited ((monitorClients a).calls v) =
    if 0 < a.numberRevents then visited ((clientLoop a v.nfds 2).calls v) else [] := by
  rw [monitorClients_eq]
  by_cases h : 0 < a.numberRevents <;> simp [h]

/-- An iteration that reaches the clients runs the loop over them, and nothing else changes the
variables from then on. -/
theorem iteration_of_monitored {w : Vars} (h : monitored a (v.polled a) = some w) :
    (iteration a).final v = (clientLoop a w.nfds 2).final w ∧
    visited ((iteration a).calls v) = visited ((clientLoop a w.nfds 2).calls w) := by
  unfold monitored at h
  split_ifs at h with hn
  obtain ⟨hacc, hstdin⟩ := Option.filter_eq_some_iff.1 h
  have hstdin' : ¬ stdinFails a w := by simpa using hstdin
  obtain ⟨hfin, setup, hsetup, hcalls⟩ := iteration_of_accepted hacc
  obtain ⟨hs1, hs2⟩ := serveStdin_spec a w
  rw [if_neg hstdin', final_monitorClients, if_pos hn] at hs1
  rw [if_neg hstdin', visited_monitorClients, if_pos hn] at hs2
  rw [hfin, hcalls, visited_append, visited_of_setup hsetup, hs1, hs2]
  exact ⟨rfl, rfl⟩

/-- An iteration that does not reach the clients visits none of them. It leaves the slots as they
are, or gives a new connection the first free slot, or has taken it out of that slot again. -/
theorem iteration_of_not_monitored (h : monitored a (v.polled a) = none) :
    visited ((iteration a).calls v) = [] ∧
    ((∃ nb, (iteration a).final v = { v.polled a with nonblock := nb }) ∨
      ∃ i, 0 ≤ a.accept ∧ freeSlot (v.polled a).fds = some i ∧
        ((established a ∧ (iteration a).final v = (v.polled a).openSlot i a.accept a.sslNew) ∨
          (iteration a).final v = ((v.polled a).openSlot i a.accept a.sslNew).dropSlot i)) := by
  cases hacc : accepted a (v.polled a) with
  | none =>
    obtain ⟨hsetup, hfin | ⟨i, h1, h2, hfin⟩⟩ := iteration_of_not_accepted hacc
    · exact ⟨visited_of_setup hsetup, Or.inl hfin⟩
    · exact ⟨visited_of_setup hsetup, Or.inr ⟨i, h1, h2, Or.inr hfin⟩⟩
  | some w =>
    -- the iteration ends at standard input or has nothing reported to it
    have hserve : (serveStdin a).final w = w ∧ visited ((serveStdin a).calls w) = [] := by
      obtain ⟨hs1, hs2⟩ := serveStdin_spec a w
      rw [hs1, hs2, final_monitorClients, visited_monitorClients]
      unfold monitored at h
      by_cases hn : 0 < a.numberRevents
      · rw [if_pos hn, hacc] at h
        have hstdin : stdinFails a w := by simpa [Option.filter] using h
        simp [hstdin]
      · simp [hn]
    obtain ⟨hfin, setup, hsetup, hcalls⟩ := iteration_of_accepted hacc
    rw [hfin, hcalls, visited_append, visited_of_setup hsetup, hserve.1, hserve.2]
    refine ⟨rfl, ?_⟩
    obtain ⟨-, rfl⟩ | ⟨-, h2, h3, i, h4, rfl⟩ := accepted_eq_some.1 hacc
    · exact Or.inl ⟨(v.polled a).nonblock, rfl⟩
    · exact Or.inr ⟨i, h2, h4, Or.inl ⟨h3, rfl⟩⟩

end SystemsProgramming.MtlsChat.Server
