import SystemsProgramming.MtlsChat.Points
import SystemsProgramming.MtlsChat.Proofs.ServerStepProofs

/-!
# Proofs: the bounds of `nfds`

A slot is filled from below, so that all the slots below it are in use when `nfds` jumps past it; from
then on `nfds` and the number of slots in use go down together.
-/

namespace SystemsProgramming.MtlsChat.Server

open Foundations Prog

variable {a : Answers} {v w : Vars} {i : Nat}

/-! ## Counting the slots in use -/

theorem mem_occupiedSlots {j : Nat} : j ∈ v.occupiedSlots ↔ v.Occupied j := by
  rw [Vars.occupiedSlots, Finset.mem_filter, Finset.mem_range]
  exact ⟨fun h => h.2, fun h => ⟨h.2.1, h⟩⟩

theorem occupiedSlots_congr (h : ∀ j, (w.fds j).fd = (v.fds j).fd) :
    w.occupiedSlots = v.occupiedSlots := by
  ext j
  simp only [mem_occupiedSlots, Vars.Occupied, h]

theorem fillSlot_fd_self (fd : Int) : ((v.fillSlot i fd).fds i).fd = fd := by simp [Vars.fillSlot]

theorem fillSlot_fds_of_ne (fd : Int) {j : Nat} (h : j ≠ i) : (v.fillSlot i fd).fds j = v.fds j := by
  simp [Vars.fillSlot, h]

theorem clearFd_fd_self : ((v.clearFd i).fds i).fd = -1 := by simp [Vars.clearFd]

theorem clearFd_fds_of_ne {j : Nat} (h : j ≠ i) : (v.clearFd i).fds j = v.fds j := by
  simp [Vars.clearFd, h]

/-- Where a free slot gets a descriptor, one more slot is in use. -/
theorem card_occupiedSlots_of_fill (hi : 2 ≤ i) (hmax : i < maxClients) (hfree : (v.fds i).fd = -1)
    (hself : (w.fds i).fd ≠ -1) (hrest : ∀ j, j ≠ i → w.fds j = v.fds j) :
    w.occupiedSlots.card = v.occupiedSlots.card + 1 := by
  have hnot : i ∉ v.occupiedSlots := fun h => (mem_occupiedSlots.1 h).2.2 hfree
  have hinsert : w.occupiedSlots = insert i v.occupiedSlots := by
    ext j
    rw [Finset.mem_insert, mem_occupiedSlots, mem_occupiedSlots]
    by_cases hji : j = i
    · subst hji
      exact iff_of_true ⟨hi, hmax, hself⟩ (Or.inl rfl)
    · simp only [Vars.Occupied, hrest j hji, hji, false_or]
  rw [hinsert, Finset.card_insert_of_notMem hnot]

theorem card_occupiedSlots_fillSlot {fd : Int} (hi : 2 ≤ i) (hmax : i < maxClients)
    (hfree : (v.fds i).fd = -1) (hfd : fd ≠ -1) :
    (v.fillSlot i fd).occupiedSlots.card = v.occupiedSlots.card + 1 := by
  refine card_occupiedSlots_of_fill hi hmax hfree ?_ fun _ => fillSlot_fds_of_ne fd
  rw [fillSlot_fd_self]
  exact hfd

/-- Where a slot in use is given up, one less is. -/
theorem card_occupiedSlots_clearFd (h : v.Occupied i) :
    (v.clearFd i).occupiedSlots.card + 1 = v.occupiedSlots.card :=
  (card_occupiedSlots_of_fill h.1 h.2.1 clearFd_fd_self h.2.2 fun _ hj => (clearFd_fds_of_ne hj).symm).symm

/-- The slots up to `i` are as many as `i - 1`. -/
theorem le_card_occupiedSlots (hbelow : ∀ j, 2 ≤ j → j ≤ i → v.Occupied j) :
    i + 1 ≤ v.occupiedSlots.card + 2 := by
  have hsub : Finset.Icc 2 i ⊆ v.occupiedSlots := by
    intro j hj
    obtain ⟨h2, hi⟩ := Finset.mem_Icc.1 hj
    exact mem_occupiedSlots.2 (hbelow j h2 hi)
  have hcard := Finset.card_le_card hsub
  rw [Nat.card_Icc] at hcard
  omega

/-! ## The invariant -/

/-- What holds at each point, besides the bounds. -/
def AtPoint : Point × Vars → Prop
  | (.filled i, v) => i < maxClients ∧ (∀ j, 2 ≤ j → j ≤ i → v.Occupied j) ∧ 2 ≤ i ∧
      v.nfds ≤ v.occupiedSlots.card + 2
  | (.connected i, v) | (.failed i, v) => v.Occupied i ∧ i < v.nfds ∧
      v.nfds ≤ v.occupiedSlots.card + 2
  | (.dropped, v) => 3 ≤ v.nfds ∧ v.nfds ≤ v.occupiedSlots.card + 3
  | (.broadcasting i, v) | (.monitoring i, v) => 2 ≤ i ∧ v.nfds ≤ v.occupiedSlots.card + 2
  | (.released i, v) => 2 ≤ i ∧ 3 ≤ v.nfds ∧ v.nfds ≤ v.occupiedSlots.card + 3
  | (.head, v) | (.polled, v) | (.serving, v) | (.clients, v) => v.nfds ≤ v.occupiedSlots.card + 2

/-- The invariant of the steps. -/
structure NfdsInv (s : Point × Vars) : Prop where
  two_le : 2 ≤ s.2.nfds
  le_max : s.2.nfds ≤ maxClients
  atPoint : AtPoint s

/-- `tls_accept_function` touches no descriptor. -/
theorem tlsAcceptFunction_frame (a : Answers) (i : Nat) (v : Vars) :
    ((tlsAcceptFunction a i).final v).fds = v.fds ∧ ((tlsAcceptFunction a i).final v).nfds = v.nfds := by
  by_cases h1 : a.sslNew = none
  · simp [tlsAcceptFunction, h1]
  · by_cases h2 : a.sslSetFd = 0
    · simp [tlsAcceptFunction, h1, h2]
    · simp only [tlsAcceptFunction, final_bind, final_call, final_modify, final_get, value_get,
        final_ite, final_pure, ite_self, Function.update_self, h1, h2, if_false, and_self]

theorem nfdsInv_polled (h : NfdsInv (.polled, v)) : NfdsInv (step a (.polled, v)) := by
  obtain ⟨htwo, hmax, hcount⟩ := h
  rw [step]
  split
  · split
    · exact ⟨htwo, hmax, hcount⟩
    · rename_i haccept
      cases hf : freeSlot v.fds with
      | none => exact ⟨htwo, hmax, hcount⟩
      | some i =>
        obtain ⟨hi, himax, hfree, hbelow⟩ := freeSlot_eq_some.1 hf
        have hfd : a.accept ≠ -1 := by omega
        have hcard := card_occupiedSlots_fillSlot hi himax hfree hfd
        refine ⟨htwo, hmax, himax, fun j h2 hj => ⟨h2, by omega, ?_⟩, hi, ?_⟩
        · by_cases hji : j = i
          · rw [hji, fillSlot_fd_self]
            exact hfd
          · rw [fillSlot_fds_of_ne _ hji]
            exact (hbelow j h2 (by omega)).2.2
        · rw [hcard]
          exact Nat.le_succ_of_le hcount
  · exact ⟨htwo, hmax, hcount⟩

theorem nfdsInv_monitoring (h : NfdsInv (.monitoring i, v)) : NfdsInv (step a (.monitoring i, v)) := by
  obtain ⟨htwo, hmax, hi, hcount⟩ := h
  simp only at htwo hmax
  have hnext : NfdsInv (.monitoring (i + 1), v) := ⟨htwo, hmax, by omega, hcount⟩
  rw [step]
  split
  · rename_i hlt
    split
    · rename_i hdue
      have hocc : v.Occupied i := ⟨hi, by omega, hdue.1⟩
      have hcard := card_occupiedSlots_clearFd (v := v.clearSsl i) hocc
      have hreleased : NfdsInv (.released i, (v.clearSsl i).clearFd i) := by
        have hsame : (v.clearSsl i).occupiedSlots = v.occupiedSlots := rfl
        refine ⟨htwo, hmax, hi, ?_, ?_⟩
        · show 3 ≤ v.nfds
          omega
        · show v.nfds ≤ _
          rw [hsame] at hcard
          omega
      cases (a.sslRead i).error
      case wantRead | wantWrite => exact hnext
      case zeroReturn | syscall | ssl | other => exact hreleased
    · exact hnext
  · exact ⟨htwo, hmax, hcount⟩

/-- Every step keeps the invariant, whatever is answered. -/
theorem nfdsInv_step (a : Answers) {s : Point × Vars} (h : NfdsInv s) : NfdsInv (step a s) := by
  obtain ⟨p, v⟩ := s
  cases p with
  | head =>
    have hsame : (v.polled a).occupiedSlots = v.occupiedSlots :=
      occupiedSlots_congr fun j => pollfds_fd ..
    refine ⟨h.two_le, h.le_max, ?_⟩
    show v.nfds ≤ (v.polled a).occupiedSlots.card + 2
    rw [hsame]
    exact h.atPoint
  | polled => exact nfdsInv_polled h
  | filled i =>
    -- `nfds` stays, or jumps past slots that are all in use
    obtain ⟨htwo, hmax, himax, hbelow, hi, hcount⟩ := h
    simp only at htwo hmax hcount
    have hcard := le_card_occupiedSlots hbelow
    rw [step]
    refine ⟨?_, ?_, hbelow i hi (Nat.le_refl _), ?_, ?_⟩
    · show 2 ≤ if v.nfds ≤ i then i + 1 else v.nfds
      split <;> omega
    · show (if v.nfds ≤ i then i + 1 else v.nfds) ≤ maxClients
      split <;> omega
    · show i < if v.nfds ≤ i then i + 1 else v.nfds
      split <;> omega
    · show (if v.nfds ≤ i then i + 1 else v.nfds) ≤ v.occupiedSlots.card + 2
      split <;> omega
  | connected i =>
    obtain ⟨htwo, hmax, hocc, hlt, hcount⟩ := h
    obtain ⟨hfds, hnfds⟩ := tlsAcceptFunction_frame a i v
    have hsame : ((tlsAcceptFunction a i).final v).occupiedSlots = v.occupiedSlots :=
      occupiedSlots_congr fun j => by rw [hfds]
    have hocc' : ((tlsAcceptFunction a i).final v).Occupied i := by
      rw [← mem_occupiedSlots, hsame, mem_occupiedSlots]
      exact hocc
    rw [← hnfds] at hlt
    rw [← hnfds, ← hsame] at hcount
    rw [step]
    split
    · exact ⟨hnfds ▸ htwo, hnfds ▸ hmax, hocc', hlt, hcount⟩
    · exact ⟨hnfds ▸ htwo, hnfds ▸ hmax, hcount⟩
  | failed i =>
    obtain ⟨htwo, hmax, hocc, hlt, hcount⟩ := h
    have hi := hocc.1
    have hcard := card_occupiedSlots_clearFd hocc
    refine ⟨htwo, hmax, ?_, ?_⟩
    · show 3 ≤ v.nfds
      omega
    · show v.nfds ≤ _
      omega
  | dropped =>
    obtain ⟨-, hmax, hthree, hcount⟩ := h
    refine ⟨?_, Nat.le_trans (Nat.sub_le ..) hmax, ?_⟩
    · show 2 ≤ v.nfds - 1
      omega
    · show v.nfds - 1 ≤ v.occupiedSlots.card + 2
      omega
  | serving =>
    obtain ⟨htwo, hmax, hcount⟩ := h
    rw [step]
    split
    · cases (readServer a).value v with
      | none => exact ⟨htwo, hmax, hcount⟩
      | some _ => exact ⟨htwo, hmax, Nat.le_refl _, hcount⟩
    · exact ⟨htwo, hmax, hcount⟩
  | broadcasting i =>
    obtain ⟨htwo, hmax, hi, hcount⟩ := h
    rw [step]
    split
    · exact ⟨htwo, hmax, by omega, hcount⟩
    · exact ⟨htwo, hmax, hcount⟩
  | clients =>
    obtain ⟨htwo, hmax, hcount⟩ := h
    rw [step]
    split
    · exact ⟨htwo, hmax, Nat.le_refl _, hcount⟩
    · exact ⟨htwo, hmax, hcount⟩
  | monitoring i => exact nfdsInv_monitoring h
  | released i =>
    obtain ⟨-, hmax, hi, hthree, hcount⟩ := h
    refine ⟨?_, Nat.le_trans (Nat.sub_le ..) hmax, by omega, ?_⟩
    · show 2 ≤ v.nfds - 1
      omega
    · show v.nfds - 1 ≤ v.occupiedSlots.card + 2
      omega

theorem nfdsInv_steps (answers : List Answers) {s : Point × Vars} (h : NfdsInv s) :
    NfdsInv (steps answers s) := by
  induction answers generalizing s with
  | nil => exact h
  | cons a answers ih => exact ih (nfdsInv_step a h)

theorem nfdsInv_initial (socketFd : Int) (stack : Nat → Pollfd) (nonblock : Int → Bool) :
    NfdsInv (.head, initial socketFd stack nonblock) :=
  ⟨Nat.le_refl _, show 2 ≤ maxClients by decide, Nat.le_add_left ..⟩

/-- No entry outside of the arrays is touched. -/
theorem NfdsInv.touched_lt {s : Point × Vars} (h : NfdsInv s) : ∀ i ∈ touched s, i < maxClients := by
  obtain ⟨p, v⟩ := s
  have hmax : v.nfds ≤ maxClients := h.le_max
  intro j hj
  cases p with
  | head =>
    have hlt := List.mem_range.1 hj
    omega
  | polled =>
    rcases List.mem_cons.1 hj with rfl | hj
    · decide
    · have hlt := (List.mem_range'_1.1 hj).2
      simp only [maxClients] at hlt ⊢
      omega
  | connected i | failed i =>
    rw [List.mem_singleton.1 hj]
    exact h.atPoint.1.2.1
  | serving =>
    rw [List.mem_singleton.1 hj]
    decide
  | broadcasting i | monitoring i =>
    rw [touched] at hj
    split at hj
    · rw [List.mem_singleton.1 hj]
      omega
    · cases hj
  | filled | dropped | clients | released => cases hj

/-! ## The iterations are runs of the machine -/

theorem steps_append (xs ys : List Answers) (s : Point × Vars) :
    steps (xs ++ ys) s = steps ys (steps xs s) := List.foldl_append ..

/-- Some steps lead from the one to the other. -/
def Leads (s t : Point × Vars) : Prop := ∃ answers, steps answers s = t

theorem Leads.refl (s : Point × Vars) : Leads s s := ⟨[], rfl⟩

theorem Leads.cons (a : Answers) {s t : Point × Vars} (h : Leads (step a s) t) : Leads s t := by
  obtain ⟨answers, h⟩ := h
  exact ⟨a :: answers, h⟩

theorem Leads.trans {s t u : Point × Vars} (h : Leads s t) (h' : Leads t u) : Leads s u := by
  obtain ⟨xs, rfl⟩ := h
  obtain ⟨ys, rfl⟩ := h'
  exact ⟨xs ++ ys, steps_append xs ys s⟩

theorem leads_clientRound (a : Answers) (hlt : i < v.nfds) :
    Leads (.monitoring i, v) (.monitoring (i + 1), (clientRound a i).final v) := by
  have hround := final_clientRound a i v
  have hstep : step a (.monitoring i, v) =
      if gone a v i then (.released i, (v.clearSsl i).clearFd i) else (.monitoring (i + 1), v) := by
    rw [step, if_pos hlt]
    by_cases hdue : due v i = true
    · have hdue' : (v.fds i).fd ≠ -1 ∧ (v.fds i).readable = true := by simpa [due] using hdue
      by_cases hret : (a.sslRead i).ret ≤ 0
      · rw [if_pos ⟨hdue'.1, hdue'.2, hret⟩]
        cases herror : (a.sslRead i).error <;> simp [gone, hdue, disconnects, hret, herror]
      · rw [if_neg fun h => hret h.2.2]
        simp [gone, disconnects, hret]
    · have hdue' : ¬ ((v.fds i).fd ≠ -1 ∧ (v.fds i).readable = true) := by simpa [due] using hdue
      rw [if_neg fun h => hdue' ⟨h.1, h.2.1⟩]
      have hfalse : due v i = false := by simpa using hdue
      simp [gone, hfalse]
  refine .cons a ?_
  rw [hstep, hround]
  split
  · exact .cons a (.refl _)
  · exact .refl _

theorem leads_clientLoop (a : Answers) (fuel i : Nat) (v : Vars) (hfuel : v.nfds ≤ fuel + i) :
    Leads (.monitoring i, v) (.head, (clientLoop a fuel i).final v) := by
  induction fuel generalizing i v with
  | zero =>
    refine .cons a ?_
    rw [final_forBelow_stop _ _ (by omega), step, if_neg (by omega)]
    exact .refl _
  | succ fuel ih =>
    by_cases hlt : i < v.nfds
    · have hnfds := nfds_clientRound_le (a := a) i v
      rw [final_forBelow_succ _ _ hlt]
      exact (leads_clientRound a hlt).trans (ih (i + 1) _ (by omega))
    · refine .cons a ?_
      rw [final_forBelow_stop _ _ hlt, step, if_neg hlt]
      exact .refl _

theorem leads_monitorClients (a : Answers) (v : Vars) :
    Leads (.clients, v) (.head, (monitorClients a).final v) := by
  refine .cons a ?_
  rw [final_monitorClients, step]
  split
  · exact leads_clientLoop a v.nfds 2 v (by omega)
  · exact .refl _

theorem leads_broadcast (a : Answers) (rest i : Nat) (hrest : v.nfds ≤ rest + i) :
    Leads (.broadcasting i, v) (.clients, v) := by
  induction rest generalizing i with
  | zero =>
    refine .cons a ?_
    rw [step, if_neg (by omega)]
    exact .refl _
  | succ rest ih =>
    refine .cons a ?_
    rw [step]
    split
    · exact ih (i + 1) (by omega)
    · exact .refl _

theorem leads_serveStdin (a : Answers) (v : Vars) :
    Leads (.serving, v) (.head, (serveStdin a).final v) := by
  have hserve := (serveStdin_spec a v).1
  refine .cons a ?_
  rw [step]
  split
  · rename_i hready
    have hvalue : (readServer a).value v = received (read tlsRecordSize a.stdin) := rfl
    rw [hvalue]
    cases hr : received (read tlsRecordSize a.stdin) with
    | none =>
      rw [hserve, if_pos ⟨hready.1, hready.2, hr⟩]
      exact .refl _
    | some buffer =>
      rw [hserve, if_neg fun h => by rw [h.2.2] at hr; cases hr]
      exact (leads_broadcast a v.nfds 2 (by omega)).trans (leads_monitorClients a v)
  · rename_i hready
    rw [hserve, if_neg fun h => hready ⟨h.1, h.2.1⟩]
    exact leads_monitorClients a v

theorem leads_established {v : Vars} (hacc : 0 ≤ a.accept) (hf : freeSlot v.fds = some i)
    (hp : pending a v) :
    Leads (.polled, v) (if established a then (.serving, v.openSlot i a.accept a.sslNew)
      else (.head, (v.openSlot i a.accept a.sslNew).dropSlot i)) := by
  unfold pending at hp
  have hnot : ¬ a.accept < 0 := by omega
  have hopen : ({ v.fillSlot i a.accept with nfds := if v.nfds ≤ i then i + 1 else v.nfds } : Vars) =
      v.openSlot i a.accept (v.ssls i) := by
    rw [Vars.openSlot, Function.update_eq_self]
    rfl
  have hblock : (v.openSlot i a.accept (v.ssls i)).nonblock
      ((v.openSlot i a.accept (v.ssls i)).fds i).fd = true := by simp [Vars.openSlot]
  obtain ⟨hvalue, hfinal⟩ := tlsAcceptFunction_spec (a := a) hblock
  have hssl : ({ v.openSlot i a.accept (v.ssls i) with
      ssls := Function.update (v.openSlot i a.accept (v.ssls i)).ssls i a.sslNew } : Vars) =
      v.openSlot i a.accept a.sslNew := by simp [Vars.openSlot]
  -- the slot is filled, `nfds` follows, and TLS is set up
  refine .cons a ?_
  rw [step, if_pos hp, if_neg hnot, hf]
  refine .cons a ?_
  show Leads (.connected i, { v.fillSlot i a.accept with
    nfds := if v.nfds ≤ i then i + 1 else v.nfds }) _
  rw [hopen]
  refine .cons a ?_
  rw [step, hvalue, hfinal, hssl]
  by_cases he : established a
  · rw [if_pos he, if_pos he, if_neg (by decide)]
    exact .refl _
  · rw [if_neg he, if_neg he, if_pos rfl]
    exact .cons a (.cons a (.refl _))

theorem leads_acceptConnection (a : Answers) (v : Vars) :
    Leads (.polled, v) (.head, (acceptConnection a).final v) := by
  by_cases hp : pending a v
  · have hready := hp
    unfold pending at hready
    by_cases hacc : a.accept < 0
    · obtain ⟨hvalue, hfinal, -⟩ := tcpAcceptFunction_error hacc v
      have hleft : (acceptConnection a).final v = v := by
        simp [acceptConnection, hready, hvalue, hfinal]
      refine .cons a ?_
      rw [step, if_pos hready, if_pos hacc, hleft]
      exact .refl _
    · have hacc' : 0 ≤ a.accept := by omega
      cases hf : freeSlot v.fds with
      | none =>
        obtain ⟨hvalue, hfinal, -⟩ := tcpAcceptFunction_full hacc' hf
        have hleft : (acceptConnection a).final v =
            { v with nonblock := Function.update v.nonblock a.accept false } := by
          simp [acceptConnection, hready, hvalue, hfinal]
        refine .cons a ?_
        rw [step, if_pos hready, if_neg hacc, hf, hleft]
        exact .refl _
      | some i =>
        have hleads := leads_established hacc' hf hp
        obtain ⟨hp', -⟩ | ⟨-, hno, -⟩ | ⟨j, -, -, hj, he, hfinal, -⟩ | ⟨j, -, -, hj, he, hfinal, -⟩ :=
          acceptConnection_cases a v
        · exact absurd hp hp'
        · rw [hf] at hno
          rcases hno with hno | hno
          · exact absurd hno hacc
          · cases hno
        · obtain rfl := Option.some.inj (hf.symm.trans hj)
          rwa [if_neg he, ← hfinal] at hleads
        · obtain rfl := Option.some.inj (hf.symm.trans hj)
          rw [if_pos he] at hleads
          rw [hfinal]
          exact hleads.trans (leads_serveStdin a _)
  · refine .cons a ?_
    obtain ⟨-, hfinal, -⟩ | ⟨hp', -⟩ | ⟨i, hp', -⟩ | ⟨i, hp', -⟩ := acceptConnection_cases a v
    · unfold pending at hp
      rw [step, if_neg hp, hfinal]
      exact leads_serveStdin a v
    all_goals exact absurd hp' hp

theorem leads_iteration (a : Answers) (v : Vars) :
    Leads (.head, v) (.head, (iteration a).final v) :=
  .cons a (leads_acceptConnection a (v.polled a))

/-- Every run of `poll_loop` is one of the machine. -/
theorem leads_pollLoop (answers : List Answers) (v : Vars) :
    Leads (.head, v) (.head, (pollLoop answers).final v) := by
  induction answers generalizing v with
  | nil => exact .refl _
  | cons a answers ih => exact (leads_iteration a v).trans (ih _)

/-! ## The bounds -/

theorem NfdsInv.bounds {s : Point × Vars} (h : NfdsInv s) :
    2 ≤ s.2.nfds ∧ s.2.nfds ≤ maxClients ∧ (∀ i ∈ touched s, i < maxClients) ∧
      (s.1 = .head → 0 ∈ touched s ∧ 1 ∈ touched s ∧ s.2.nfds - 2 ≤ s.2.occupiedSlots.card) := by
  refine ⟨h.two_le, h.le_max, h.touched_lt, fun hhead => ?_⟩
  have htwo := h.two_le
  have hcount := h.atPoint
  obtain ⟨p, v⟩ := s
  obtain rfl : p = .head := hhead
  have hcount' : v.nfds ≤ v.occupiedSlots.card + 2 := hcount
  simp only [touched, List.mem_range] at htwo ⊢
  omega

/-- At every point that is reached `nfds` is within the arrays, and every entry that is touched too; at
the head both reserved entries are polled, and at least `nfds - 2` client slots are in use. The points of
`poll_loop` are such points: each of its runs is one of the steps. -/
theorem nfds_bounds (socketFd : Int) (stack : Nat → Pollfd) (nonblock : Int → Bool)
    (answers : List Answers) :
    (let s := steps answers (.head, initial socketFd stack nonblock)
    2 ≤ s.2.nfds ∧ s.2.nfds ≤ maxClients ∧ (∀ i ∈ touched s, i < maxClients) ∧
      (s.1 = .head → 0 ∈ touched s ∧ 1 ∈ touched s ∧ s.2.nfds - 2 ≤ s.2.occupiedSlots.card)) ∧
    Leads (.head, initial socketFd stack nonblock)
      (.head, (pollLoop answers).final (initial socketFd stack nonblock)) :=
  ⟨(nfdsInv_steps answers (nfdsInv_initial socketFd stack nonblock)).bounds,
    leads_pollLoop answers (initial socketFd stack nonblock)⟩

end SystemsProgramming.MtlsChat.Server
