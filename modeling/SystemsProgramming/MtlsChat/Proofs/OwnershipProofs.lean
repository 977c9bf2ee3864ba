import SystemsProgramming.MtlsChat.Protocol
import SystemsProgramming.MtlsChat.Proofs.VisibilityProofs

/-!
# Proofs: the slots own the descriptors and the SSL objects

Along every run the calls of the server obey the protocol, and at every loop head the descriptors
that are open and the SSL objects that are allocated are those of the occupied slots. The pointer
that a failed handshake leaves behind in `ssls` is harmless: its slot is free, so nothing reads it
before `SSL_new` overwrites it.
-/

namespace SystemsProgramming.MtlsChat.Server

open Foundations Prog

variable {a : Answers} {v : Vars} {w : World} {i : Nat}

/-- The table of the client descriptors. -/
def clientFds (v : Vars) : SlotTable Int Unit := fun i =>
  if v.Occupied i then some ((v.fds i).fd, ()) else none

/-- The table of the clients' SSL objects, each bound to the descriptor of its own slot and with a
handshake that succeeded. -/
def clientSsls (v : Vars) : SlotTable Ssl Session := fun i =>
  if v.Occupied i then (v.ssls i).map fun o => (o, ⟨some (v.fds i).fd, true⟩) else none

/-- The slots own what is open and allocated in the world. -/
structure Owner (v : Vars) (w : World) : Prop where
  bound : v.nfds ≤ maxClients
  descriptors : SlotTable.Owns (clientFds v) w.descriptors
  objects : SlotTable.Owns (clientSsls v) w.objects
  allocated : ∀ i, v.Occupied i → v.ssls i ≠ none

theorem clientFds_of_occupied (h : v.Occupied i) : clientFds v i = some ((v.fds i).fd, ()) :=
  if_pos h

theorem clientSsls_of_occupied (h : v.Occupied i) {o : Ssl} (ho : v.ssls i = some o) :
    clientSsls v i = some (o, ⟨some (v.fds i).fd, true⟩) := by
  simp [clientSsls, h, ho]

theorem initial_owner (socketFd : Int) (stack : Nat → Pollfd) (nonblock : Int → Bool) :
    Owner (initial socketFd stack nonblock) World.initial := by
  have hpacked := initial_packed socketFd stack nonblock
  have hfree : ∀ i, ¬ (initial socketFd stack nonblock).Occupied i := by
    intro i hi
    have h2 := ((hpacked.occupied_iff i).1 hi)
    have hn : (initial socketFd stack nonblock).nfds = 2 := rfl
    omega
  refine ⟨hpacked.le_max, .of_free fun i => ?_, .of_free fun i => ?_, fun i hi => absurd hi (hfree i)⟩
  · simp [clientFds, hfree i]
  · simp [clientSsls, hfree i]

/-! ## Slots that change -/

theorem clientFds_congr {u : Vars} (h : ∀ i, (u.fds i).fd = (v.fds i).fd) :
    clientFds u = clientFds v := by
  funext i
  simp [clientFds, Vars.Occupied, h]

theorem clientSsls_congr {u : Vars} (h : ∀ i, (u.fds i).fd = (v.fds i).fd)
    (hs : ∀ i, v.Occupied i → u.ssls i = v.ssls i) : clientSsls u = clientSsls v := by
  funext i
  have hocc : u.Occupied i ↔ v.Occupied i := by simp [Vars.Occupied, h]
  by_cases ho : v.Occupied i
  · simp [clientSsls, hocc.2 ho, ho, h, hs i ho]
  · simp [clientSsls, mt hocc.1 ho, ho]

/-- What `Owner` says depends on the descriptors, the pointers of the occupied slots and `nfds`. -/
theorem Owner.congr (h : Owner v w) {u : Vars} (hfd : ∀ i, (u.fds i).fd = (v.fds i).fd)
    (hs : ∀ i, v.Occupied i → u.ssls i = v.ssls i) (hn : u.nfds ≤ maxClients) : Owner u w := by
  refine ⟨hn, ?_, ?_, fun i hi => ?_⟩
  · rw [clientFds_congr hfd]; exact h.descriptors
  · rw [clientSsls_congr hfd hs]; exact h.objects
  · have hi' : v.Occupied i := by simpa [Vars.Occupied, hfd] using hi
    rw [hs i hi']
    exact h.allocated i hi'

theorem Owner.polled (h : Owner v w) (a : Answers) : Owner (v.polled a) w :=
  h.congr (fun i => by simp [Vars.polled]) (fun _ _ => rfl) h.bound

theorem clientFds_closeSlot : clientFds (v.closeSlot i) = Function.update (clientFds v) i none := by
  funext j
  by_cases hji : j = i
  · subst hji
    simp [clientFds, closeSlot_occupied_iff]
  · simp [clientFds, closeSlot_occupied_iff, hji, closeSlot_fds_of_ne hji]

theorem clientSsls_closeSlot :
    clientSsls (v.closeSlot i) = Function.update (clientSsls v) i none := by
  funext j
  by_cases hji : j = i
  · subst hji
    simp [clientSsls, closeSlot_occupied_iff]
  · simp [clientSsls, closeSlot_occupied_iff, hji, closeSlot_fds_of_ne hji,
      closeSlot_ssls_of_ne hji]

theorem clientFds_openSlot {fd : Int} {ssl : Option Ssl} (hfd : 0 ≤ fd) (h2 : 2 ≤ i)
    (hmax : i < maxClients) :
    clientFds (v.openSlot i fd ssl) = Function.update (clientFds v) i (some (fd, ())) := by
  funext j
  by_cases hji : j = i
  · subst hji
    rw [clientFds_of_occupied ((openSlot_occupied_iff hfd h2 hmax j).2 (Or.inr rfl))]
    simp [Vars.openSlot]
  · simp only [clientFds, openSlot_occupied_iff hfd h2 hmax, hji, or_false,
      Function.update_of_ne hji]
    simp [Vars.openSlot, hji]

theorem clientSsls_openSlot {fd : Int} {o : Ssl} (hfd : 0 ≤ fd) (h2 : 2 ≤ i)
    (hmax : i < maxClients) :
    clientSsls (v.openSlot i fd (some o)) =
      Function.update (clientSsls v) i (some (o, ⟨some fd, true⟩)) := by
  funext j
  by_cases hji : j = i
  · subst hji
    rw [clientSsls_of_occupied ((openSlot_occupied_iff hfd h2 hmax j).2 (Or.inr rfl))
      (o := o) (by simp [Vars.openSlot])]
    simp [Vars.openSlot]
  · simp only [clientSsls, openSlot_occupied_iff hfd h2 hmax, hji, or_false,
      Function.update_of_ne hji]
    simp [Vars.openSlot, hji]

/-! ## Using the object of an occupied slot -/

/-- The object of an occupied slot serves a client. -/
theorem Owner.live (h : Owner v w) (hi : v.Occupied i) :
    ∃ o, v.ssls i = some o ∧ w.objects o = some ⟨some (v.fds i).fd, true⟩ ∧
      w.Live ⟨some (v.fds i).fd, true⟩ ∧ w.descriptors (v.fds i).fd = some () := by
  obtain ⟨o, ho⟩ := Option.ne_none_iff_exists'.1 (h.allocated i hi)
  have hfd := h.descriptors.held i _ _ (clientFds_of_occupied hi)
  exact ⟨o, ho, h.objects.held i _ _ (clientSsls_of_occupied hi ho), ⟨rfl, _, rfl, hfd⟩, hfd⟩

/-- Using an object, without a change of its status, is allowed and changes nothing. -/
theorem use_live {o : Ssl} {s : Session} (ho : w.objects o = some s) (hs : w.Live s) :
    w.objects.use o w.Live id = some w.objects :=
  Ledger.use_same ho hs rfl

theorem Owner.next_sslRead (h : Owner v w) (hi : v.Occupied i) (ret : Int) :
    w.next (.sslRead i (v.ssls i) ret) = some w := by
  obtain ⟨o, ho, hobj, hlive, -⟩ := h.live hi
  simp [ho, World.next, use_live hobj hlive]

theorem Owner.next_sslWrite (h : Owner v w) (hi : v.Occupied i) (data : List UInt8) (ret : Int) :
    w.next (.sslWrite i (v.ssls i) data ret) = some w := by
  obtain ⟨o, ho, hobj, hlive, -⟩ := h.live hi
  simp [ho, World.next, use_live hobj hlive]

theorem Owner.next_sslShutdown (h : Owner v w) (hi : v.Occupied i) :
    w.next (.sslShutdown (.monitor i) (v.ssls i)) = some w := by
  obtain ⟨o, ho, hobj, hlive, -⟩ := h.live hi
  have huse : w.objects.use o (w.Usable (.monitor i)) id = some w.objects :=
    Ledger.use_same hobj hlive rfl
  simp [ho, World.next, huse]

/-- From the label `error` on: the object and the descriptor of the slot are given back, and the slot
is free. -/
theorem monitorError_keeps (i : Nat) :
    Triple World.next (fun v w => Owner v w ∧ v.Occupied i) (monitorError i) fun _ => Owner := by
  rintro v w ⟨h, hi⟩
  obtain ⟨o, ho, hobj, hlive, hfd⟩ := h.live hi
  have hfree : w.next (.sslFree (.monitor i) (v.ssls i)) =
      some { w with objects := Function.update w.objects o none } := by
    have hrel : w.objects.release o (w.Usable (.monitor i)) =
        some (Function.update w.objects o none) := Ledger.release_of_some hobj hlive
    simp [ho, World.next, hrel]
  have hclose : World.next { w with objects := Function.update w.objects o none }
      (.close (v.fds i).fd) = some
        ⟨Function.update w.descriptors (v.fds i).fd none, Function.update w.objects o none⟩ := by
    have hrel : w.descriptors.release (v.fds i).fd (fun _ => True) =
        some (Function.update w.descriptors (v.fds i).fd none) := Ledger.release_of_some hfd trivial
    simp [World.next, hrel]
  have hcalls : (monitorError i).calls v = [.sslFree (.monitor i) (v.ssls i), .close (v.fds i).fd] := by
    simp [monitorError]
  have hfinal : (monitorError i).final v = v.closeSlot i := by simp [monitorError, Vars.closeSlot]
  refine ⟨_, by rw [hcalls, replay_cons, hfree, Option.bind_some, replay_cons, hclose]; rfl, ?_⟩
  rw [hfinal]
  refine ⟨Nat.le_trans (Nat.sub_le _ _) h.bound, ?_, ?_, fun j hj => ?_⟩
  · rw [clientFds_closeSlot]
    exact h.descriptors.clear (clientFds_of_occupied hi)
  · rw [clientSsls_closeSlot]
    exact h.objects.clear (clientSsls_of_occupied hi ho)
  · obtain ⟨hj', hji⟩ := closeSlot_occupied_iff.1 hj
    rw [closeSlot_ssls_of_ne hji]
    exact h.allocated j hj'

/-- The label `cleanup`: the object is shut down first. -/
theorem monitorCleanup_keeps (i : Nat) :
    Triple World.next (fun v w => Owner v w ∧ v.Occupied i) (monitorCleanup i) fun _ => Owner := by
  refine Triple.get fun u => Triple.bind (Triple.call fun v w hv => ?_) fun _ => monitorError_keeps i
  obtain ⟨⟨h, hi⟩, rfl⟩ := hv
  exact ⟨w, h.next_sslShutdown hi, h, hi⟩

/-- `monitor` on an occupied slot. -/
theorem monitor_keeps (a : Answers) (i : Nat) :
    Triple World.next (fun v w => Owner v w ∧ v.Occupied i) (monitor a i) fun _ => Owner := by
  refine Triple.get fun u => Triple.bind (Q := fun _ v w => Owner v w ∧ v.Occupied i)
    (Triple.call fun v w hv => ?_) fun _ => Triple.ite (fun _ => ?_) fun _ => ?_
  · obtain ⟨⟨h, hi⟩, rfl⟩ := hv
    exact ⟨w, h.next_sslRead hi _, h, hi⟩
  · -- the calls that only print are always allowed
    have hprint : ∀ c, (∀ w, World.next w c = some w) → ∀ p : Prog Vars Call Unit,
        Triple World.next (fun v w => Owner v w ∧ v.Occupied i) p (fun _ => Owner) →
        Triple World.next (fun v w => Owner v w ∧ v.Occupied i) (call c >>= fun _ => p)
          fun _ => Owner :=
      fun c hc p hp => Triple.bind (Triple.call fun v w hv => ⟨w, hc w, hv⟩) fun _ => hp
    cases (a.sslRead i).error with
    | zeroReturn => exact hprint _ (fun _ => rfl) _ (monitorCleanup_keeps i)
    | syscall => exact hprint _ (fun _ => rfl) _ (monitorError_keeps i)
    | ssl => exact hprint _ (fun _ => rfl) _ (monitorError_keeps i)
    | wantRead => exact Triple.pure fun _ _ h => h.1
    | wantWrite => exact Triple.pure fun _ _ h => h.1
    | other => exact hprint _ (fun _ => rfl) _ (monitorCleanup_keeps i)
  · exact Triple.call fun v w h => ⟨w, rfl, h.1⟩

/-! ## The second and third job -/

theorem monitorClients_keeps (a : Answers) :
    Triple World.next Owner (monitorClients a) fun _ => Owner := by
  rw [monitorClients_eq]
  refine Triple.ite (fun _ => Triple.get fun u => ?_) fun _ => Triple.pure fun _ _ => id
  refine Triple.pre (Triple.forBelow (fun i hi2 => ?_) _) fun _ _ h => h.1
  refine Triple.get fun u' => Triple.ite (fun hdue => ?_) fun _ => Triple.pure fun _ _ h => h.1.1
  refine Triple.pre (monitor_keeps a i) ?_
  rintro v w ⟨⟨h, hi⟩, rfl⟩
  exact ⟨h, hi2, Nat.lt_of_lt_of_le hi h.bound, hdue.1⟩

theorem broadcast_keeps (a : Answers) (buffer : List UInt8) :
    Triple World.next Owner (broadcast a buffer) fun _ => Owner := by
  refine Triple.get fun u => ?_
  by_cases hbound : u.nfds ≤ maxClients
  · refine Triple.pre (Triple.forEach fun i hi => ?_) fun _ _ h => h.1
    have hi' := List.mem_range'_1.1 hi
    refine Triple.get fun u' => Triple.ite (fun hfd => ?_) fun _ => Triple.pure fun _ _ h => h.1
    refine Triple.call fun v w hv => ?_
    obtain ⟨h, rfl⟩ := hv
    exact ⟨w, h.next_sslWrite ⟨hi'.1, by omega, hfd⟩ _ _, h⟩
  · rintro v w ⟨h, rfl⟩
    exact absurd h.bound hbound

theorem serveStdin_keeps (a : Answers) :
    Triple World.next Owner (serveStdin a) fun _ => Owner := by
  refine Triple.get fun u => Triple.ite (fun _ => ?_) fun _ => ?_
  · refine Triple.bind (Q := fun _ => Owner) ?_ fun r => ?_
    · exact Triple.bind (Triple.call fun v w h => ⟨w, rfl, h.1⟩) fun _ => Triple.pure fun _ _ => id
    · cases r with
      | none => exact Triple.pure fun _ _ => id
      | some buffer => exact Triple.bind (broadcast_keeps a buffer) fun _ => monitorClients_keeps a
  · exact Triple.pre (monitorClients_keeps a) fun _ _ h => h.1

/-! ## The first job -/

/-- What the outside promises about an iteration that starts after the calls `h` from the variables
`v`: `accept` returns no descriptor that is open, and `SSL_new` no object that is allocated. -/
def Fresh (h : List Call) (v : Vars) (a : Answers) : Prop :=
  ∀ w, replay World.next World.initial h = some w →
    (∀ fd, .accept fd ∈ (iteration a).calls v → w.descriptors fd = none) ∧
    ∀ o, .sslNew (some o) ∈ (iteration a).calls v → w.objects o = none

/-- An iteration with no connection pending asks nothing of the outside. -/
theorem fresh_of_not_pending (h : ¬ pending a (v.polled a)) (cs : List Call) : Fresh cs v a := by
  have hcalls : (iteration a).calls v = (serveStdin a).calls (v.polled a) := by
    obtain ⟨-, -, h1⟩ | ⟨h1, -⟩ | ⟨i, h1, -⟩ | ⟨i, h1, -⟩ := acceptConnection_cases a (v.polled a)
    · exact h1
    all_goals exact absurd h1 h
  intro w _
  rw [hcalls]
  constructor <;> intro x hx <;> cases serveStdin_serving a _ _ hx

/-- A handshake that fails gives its SSL object back and leaves the world as it was. -/
theorem replay_tlsAccept_failed {i : Nat} (hn : v.nonblock (v.fds i).fd = true)
    (hopen : w.descriptors (v.fds i).fd = some ())
    (hnew : ∀ o, a.sslNew = some o → w.objects o = none) (he : ¬ established a) :
    replay World.next w ((tlsAcceptFunction a i).calls v) = some w := by
  cases hs : a.sslNew with
  | none => simp [tlsAcceptFunction, hs, World.next]
  | some o =>
    have ho := hnew o hs
    have hback : ∀ s : Session,
        Function.update (Function.update w.objects o (some s)) o none = w.objects := by
      intro s
      rw [Function.update_idem, ← ho, Function.update_eq_self]
    by_cases h2 : a.sslSetFd = 0
    · simp [tlsAcceptFunction, hs, h2, World.next, Ledger.acquire_of_none ho, Ledger.use, hopen,
        Ledger.release, World.Usable, hback]
    · have h3 : a.sslAccept true ≤ 0 := by
        by_contra hpos
        exact he ⟨by simp [hs], h2, by omega⟩
      by_cases h4 : a.sslAccept true < 0 <;>
        simp [tlsAcceptFunction, hs, h2, h3, h4, hn, World.next, Ledger.acquire_of_none ho,
          Ledger.use, hopen, Ledger.release, World.Usable, hback]

/-- A handshake that succeeds leaves an object that is bound to the slot's descriptor. -/
theorem replay_tlsAccept_established {i : Nat} {o : Ssl} (hn : v.nonblock (v.fds i).fd = true)
    (hopen : w.descriptors (v.fds i).fd = some ()) (hs : a.sslNew = some o)
    (ho : w.objects o = none) (he : established a) :
    replay World.next w ((tlsAcceptFunction a i).calls v) =
      some { w with objects := Function.update w.objects o (some ⟨some (v.fds i).fd, true⟩) } := by
  obtain ⟨-, h2, h3⟩ := he
  have h3' : ¬ a.sslAccept true ≤ 0 := by omega
  simp [tlsAcceptFunction, hs, h2, h3, h3', hn, World.next, Ledger.acquire_of_none ho, Ledger.use,
    hopen]

/-- The variables between the two accept functions: the slot has its descriptor, and nothing is known
about the pointer in it. -/
theorem openSlot_nonblock {i : Nat} {fd : Int} {ssl : Option Ssl} :
    (v.openSlot i fd ssl).nonblock ((v.openSlot i fd ssl).fds i).fd = true := by
  simp [Vars.openSlot]

theorem openSlot_fd {i : Nat} {fd : Int} {ssl : Option Ssl} :
    ((v.openSlot i fd ssl).fds i).fd = fd := by
  simp [Vars.openSlot]

/-- The calls of `tcp_accept_function` when a slot is free. -/
theorem replay_tcpAccept (hfresh : w.descriptors a.accept = none) :
    replay World.next w [.accept a.accept, .setNonblock a.accept] =
      some { w with descriptors := Function.update w.descriptors a.accept (some ()) } := by
  simp [World.next, Ledger.acquire_of_none hfresh, Ledger.use]

/-- A connection that is established: its descriptor and its object go to the first free slot. -/
theorem Owner.openSlot (h : Owner v w) {i : Nat} {o : Ssl} (hf : freeSlot v.fds = some i)
    (hacc : 0 ≤ a.accept) (hfd : w.descriptors a.accept = none) (ho : w.objects o = none) :
    Owner (v.openSlot i a.accept (some o))
      ⟨Function.update w.descriptors a.accept (some ()),
        Function.update w.objects o (some ⟨some a.accept, true⟩)⟩ := by
  obtain ⟨h2, hmax, hfree, -⟩ := freeSlot_eq_some.1 hf
  have hnot : ¬ v.Occupied i := fun hi => hi.2.2 hfree
  refine ⟨?_, ?_, ?_, fun j hj => ?_⟩
  · have hb := h.bound
    simp only [Vars.openSlot]
    split <;> omega
  · rw [clientFds_openSlot hacc h2 hmax]
    exact h.descriptors.put (by simp [clientFds, hnot]) hfd
  · rw [clientSsls_openSlot hacc h2 hmax]
    exact h.objects.put (by simp [clientSsls, hnot]) ho
  · by_cases hji : j = i
    · subst hji
      simp [Vars.openSlot]
    · have hj' : v.Occupied j := by simpa [openSlot_occupied_iff hacc h2 hmax, hji] using hj
      simpa [Vars.openSlot, hji] using h.allocated j hj'

/-- A connection that is not established leaves the slots as they were. -/
theorem Owner.dropSlot (h : Owner v w) {i : Nat} (hf : freeSlot v.fds = some i) (fd : Int)
    (ssl : Option Ssl) : Owner ((v.openSlot i fd ssl).dropSlot i) w := by
  obtain ⟨h2, hmax, hfree, -⟩ := freeSlot_eq_some.1 hf
  have hb := h.bound
  refine h.congr (fun j => ?_) (fun j hj => ?_) ?_
  · by_cases hji : j = i
    · subst hji
      simp [Vars.dropSlot, hfree]
    · simp [Vars.dropSlot, Vars.openSlot, hji]
  · have hji : j ≠ i := by
      rintro rfl
      exact hj.2.2 hfree
    simp [Vars.dropSlot, Vars.openSlot, hji]
  · simp only [Vars.dropSlot, Vars.openSlot]
    split <;> omega

/-- When an iteration gets past its first job, the calls so far obey the protocol and the slots own
the world. -/
theorem Owner.after_accept (h : Owner v w) {cs : List Call}
    (hw : replay World.next World.initial cs = some w) (hfresh : Fresh cs v a) {u : Vars}
    (ha : accepted a (v.polled a) = some u) :
    ∃ setup w', (iteration a).calls v = setup ++ (serveStdin a).calls u ∧
      replay World.next w setup = some w' ∧ Owner u w' := by
  obtain ⟨hfd, hobj⟩ := hfresh w hw
  have hcalls : (iteration a).calls v = (acceptConnection a).calls (v.polled a) := rfl
  rw [hcalls] at hfd hobj ⊢
  have hpoll := h.polled a
  generalize v.polled a = p at hpoll hfd hobj ha
  obtain ⟨h1, rfl⟩ | ⟨h1, h2, h3, i, h4, rfl⟩ := accepted_eq_some.1 ha
  · obtain ⟨-, -, h5⟩ | ⟨h5, -⟩ | ⟨i, h5, -⟩ | ⟨i, h5, -⟩ := acceptConnection_cases a p
    · exact ⟨[], w, by rw [h5, List.nil_append], rfl, hpoll⟩
    all_goals exact absurd h5 h1
  · obtain ⟨h5, -⟩ | ⟨-, h5, -⟩ | ⟨j, -, -, -, h5, -⟩ | ⟨j, -, -, h5, -, -, h6⟩ :=
      acceptConnection_cases a p
    · exact absurd h1 h5
    · rcases h5 with h5 | h5
      · omega
      · rw [h5] at h4
        cases h4
    · exact absurd h3 h5
    · obtain rfl : i = j := Option.some.inj (h4.symm.trans h5)
      rw [h6, (tcpAcceptFunction_slot h2 h4).2.2] at hfd hobj ⊢
      obtain ⟨o, hs⟩ := Option.ne_none_iff_exists'.1 h3.1
      have hd : w.descriptors a.accept = none := hfd a.accept (by simp)
      have ho : w.objects o = none := hobj o (by simp [tlsAcceptFunction, hs])
      have hopen : Function.update w.descriptors a.accept (some ())
          ((p.openSlot i a.accept (p.ssls i)).fds i).fd = some () := by
        rw [openSlot_fd, Function.update_self]
      have htls := replay_tlsAccept_established (w := { w with
        descriptors := Function.update w.descriptors a.accept (some ()) }) openSlot_nonblock hopen
        hs ho h3
      rw [openSlot_fd] at htls
      refine ⟨_ ++ [.printf _], _, by rw [← List.append_cons], ?_, hs ▸ hpoll.openSlot h4 h2 hd ho⟩
      rw [List.append_assoc, replay_append_some (replay_tcpAccept hd), replay_append_some htls]
      rfl

/-- When it does not, the descriptor and the object of a failed connection have been given back. -/
theorem Owner.after_failed_accept (h : Owner v w) {cs : List Call}
    (hw : replay World.next World.initial cs = some w) (hfresh : Fresh cs v a)
    (ha : accepted a (v.polled a) = none) :
    replay World.next w ((iteration a).calls v) = some w ∧ Owner ((iteration a).final v) w := by
  obtain ⟨hfd, hobj⟩ := hfresh w hw
  have hcalls : (iteration a).calls v = (acceptConnection a).calls (v.polled a) := rfl
  have hfin : (iteration a).final v = (acceptConnection a).final (v.polled a) := rfl
  rw [hfin]
  rw [hcalls] at hfd hobj ⊢
  have hpoll := h.polled a
  generalize v.polled a = p at hpoll hfd hobj ha
  have hback : ∀ fd, w.descriptors fd = none →
      Function.update (Function.update w.descriptors fd (some ())) fd none = w.descriptors := by
    intro fd hd
    rw [Function.update_idem, ← hd, Function.update_eq_self]
  have hnone : ∀ u, accepted a p ≠ some u := by simp [ha]
  obtain ⟨h1, -⟩ | ⟨-, h2, ⟨nb, h3⟩, h4⟩ | ⟨i, -, h2, h3, h4, h5, h6⟩ | ⟨i, h1, h2, h3, h4, -⟩ :=
    acceptConnection_cases a p
  · exact absurd (accepted_eq_some.2 (Or.inl ⟨h1, rfl⟩)) (hnone p)
  · -- `accept` fails, or the table is full and the descriptor is closed at once
    rw [h3, h4]
    rw [h4] at hfd
    refine ⟨?_, hpoll.congr (fun _ => rfl) (fun _ _ => rfl) hpoll.bound⟩
    by_cases hacc : a.accept < 0
    · rw [(tcpAcceptFunction_error hacc p).2.2]
      rfl
    · have hfull : freeSlot p.fds = none := h2.resolve_left hacc
      rw [(tcpAcceptFunction_full (by omega) hfull).2.2] at hfd ⊢
      have hd := hfd a.accept (by simp)
      simp [World.next, Ledger.acquire_of_none hd, Ledger.release, hback _ hd]
  · -- the handshake fails
    rw [h6, (tcpAcceptFunction_slot h2 h3).2.2] at hfd hobj
    rw [h5, h6, (tcpAcceptFunction_slot h2 h3).2.2]
    have hd : w.descriptors a.accept = none := hfd a.accept (by simp)
    have hopen : Function.update w.descriptors a.accept (some ())
        ((p.openSlot i a.accept (p.ssls i)).fds i).fd = some () := by
      rw [openSlot_fd, Function.update_self]
    have hnew : ∀ o, a.sslNew = some o → w.objects o = none := fun o ho =>
      hobj o (by simp [tlsAcceptFunction, ho])
    have htls := replay_tlsAccept_failed (w := { w with
      descriptors := Function.update w.descriptors a.accept (some ()) }) openSlot_nonblock hopen hnew
      h4
    refine ⟨?_, hpoll.dropSlot h3 _ _⟩
    rw [List.append_assoc, replay_append_some (replay_tcpAccept hd), replay_append_some htls]
    simp [World.next, Ledger.release, hback _ hd]
  · exact absurd (accepted_eq_some.2 (Or.inr ⟨h1, h2, h4, i, h3, rfl⟩)) (hnone _)

/-- One iteration: the calls obey the protocol, and the slots own the world again. -/
theorem iteration_keeps (h : List Call) (a : Answers) :
    Triple World.next
      (fun v w => Owner v w ∧ replay World.next World.initial h = some w ∧ Fresh h v a)
      (iteration a) fun _ => Owner := by
  rintro v w ⟨howner, hw, hfresh⟩
  cases ha : accepted a (v.polled a) with
  | none =>
    obtain ⟨hr, hO⟩ := howner.after_failed_accept hw hfresh ha
    exact ⟨w, hr, hO⟩
  | some u =>
    obtain ⟨setup, w', hcalls, hr, hO⟩ := howner.after_accept hw hfresh ha
    obtain ⟨w'', hr', hO'⟩ := serveStdin_keeps a u w' hO
    rw [hcalls, (iteration_of_accepted ha).1]
    exact ⟨w'', by rw [replay_append_some hr, hr'], hO'⟩

/-! ## Whole runs -/

/-- A connection is refused for want of a slot only when every client slot is occupied. -/
theorem refused_full {a : Answers} {v : Vars}
    (h : .fprintfStderr maxClientsReached ∈ (iteration a).calls v) :
    ∀ i, 2 ≤ i → i < maxClients → v.Occupied i := by
  have hcalls : (iteration a).calls v = (acceptConnection a).calls (v.polled a) := rfl
  rw [hcalls] at h
  have htls : ∀ i u, Call.fprintfStderr maxClientsReached ∉ (tlsAcceptFunction a i).calls u := by
    intro i u hu
    simp only [tlsAcceptFunction, calls_bind, calls_call, calls_modify, value_get, final_get,
      final_modify, final_call, calls_ite, calls_pure, Function.update_self] at hu
    split_ifs at hu <;> simp at hu
  have hserve : ∀ u, Call.fprintfStderr maxClientsReached ∉ (serveStdin a).calls u := by
    intro u hu
    have hserving := serveStdin_serving a u _ hu
    cases hserving
  obtain ⟨-, -, h3⟩ | ⟨-, h2, -, h4⟩ | ⟨i, -, h2, h3, -, -, h6⟩ | ⟨i, -, h2, h3, -, -, h6⟩ :=
    acceptConnection_cases a (v.polled a)
  · rw [h3] at h
    exact absurd h (hserve _)
  · rcases h2 with hacc | hnone
    · rw [h4, (tcpAcceptFunction_error hacc _).2.2] at h
      simp at h
    · exact fun i hi hmax =>
        (polled_occupied_iff a v i).1 (freeSlot_eq_none.1 hnone i hi hmax)
  all_goals
    rw [h6, (tcpAcceptFunction_slot h2 h3).2.2] at h
    simp [htls, hserve] at h

/-- For every run: the calls obey the protocol, and at the loop head the open client descriptors are
those of the occupied slots, each in one slot, and the allocated SSL objects are those of the same
slots, each bound to its slot's descriptor and established. A connection is refused only when all
client slots are occupied. -/
theorem slots_own_connections (socketFd : Int) (stack : Nat → Pollfd) (nonblock : Int → Bool)
    (as : List Answers)
    (hfresh : AllSteps iteration Fresh [] (initial socketFd stack nonblock) as) :
    ∃ w, replay World.next World.initial ((pollLoop as).calls (initial socketFd stack nonblock)) =
        some w ∧
      let v := (pollLoop as).final (initial socketFd stack nonblock)
      (∀ fd, w.descriptors fd = some () ↔ ∃ i, v.Occupied i ∧ (v.fds i).fd = fd) ∧
      (∀ i j, v.Occupied i → v.Occupied j → (v.fds i).fd = (v.fds j).fd → i = j) ∧
      (∀ o s, w.objects o = some s ↔
        ∃ i, v.Occupied i ∧ v.ssls i = some o ∧ s = ⟨some (v.fds i).fd, true⟩) ∧
      (∀ i, v.Occupied i → v.ssls i ≠ none) ∧
      (∀ i j, v.Occupied i → v.Occupied j → v.ssls i = v.ssls j → i = j) ∧
      (∀ a, .fprintfStderr maxClientsReached ∈ (iteration a).calls v →
        ∀ i, 2 ≤ i → i < maxClients → v.Occupied i) := by
  obtain ⟨w, hw, h⟩ := Triple.run iteration_keeps (initial_owner socketFd stack nonblock)
    (replay_nil _) hfresh
  rw [List.nil_append] at hw
  refine ⟨w, hw, fun fd => ?_, fun i j hi hj hij => ?_, fun o s => ?_, h.allocated,
    fun i j hi hj hij => ?_, fun a => refused_full⟩
  · rw [h.descriptors.held_iff]
    refine exists_congr fun i => ?_
    simp only [clientFds]
    split_ifs with hocc <;> simp [hocc]
  · refine h.descriptors.inj i j _ () () (clientFds_of_occupied hi) ?_
    rw [hij]
    exact clientFds_of_occupied hj
  · rw [h.objects.held_iff]
    refine exists_congr fun i => ?_
    simp only [clientSsls]
    split_ifs with hocc
    · cases ((pollLoop as).final (initial socketFd stack nonblock)).ssls i <;>
        simp [hocc, eq_comm]
    · simp [hocc]
  · obtain ⟨o, ho⟩ := Option.ne_none_iff_exists'.1 (h.allocated i hi)
    exact h.objects.inj i j o _ _ (clientSsls_of_occupied hi ho)
      (clientSsls_of_occupied hj (hij ▸ ho))

/-- Two clients connect: both descriptors are open, and each object is bound to its own. -/
theorem slots_own_two_connections :
    ∃ w, replay World.next World.initial ((pollLoop [connects 4 100, connects 5 200]).calls
        (initial 3 (fun _ => ⟨-1, 0, 0⟩) fun _ => false)) = some w ∧
      w.descriptors 4 = some () ∧ w.descriptors 5 = some () ∧
      w.objects 100 = some ⟨some 4, true⟩ ∧ w.objects 200 = some ⟨some 5, true⟩ := by
  have hfresh : AllSteps iteration Fresh [] (initial 3 (fun _ => ⟨-1, 0, 0⟩) fun _ => false)
      [connects 4 100, connects 5 200] := by
    refine ⟨fun w hw => ?_, fun w hw => ?_, trivial⟩
    · cases hw
      exact ⟨fun _ _ => rfl, fun _ _ => rfl⟩
    · have hcalls : (iteration (connects 5 200)).calls ((iteration (connects 4 100)).final
          (initial 3 (fun _ => ⟨-1, 0, 0⟩) fun _ => false)) =
            [.accept 5, .setNonblock 5, .sslNew (some 200), .sslSetFd (some 200) 5 1,
              .sslAccept (some 200) 1, .printf "[client connected: 127.0.0.1]\n"] := by decide
      rw [hcalls]
      have hw' : some w = some _ := hw.symm
      cases hw'
      refine ⟨fun fd hfd => ?_, fun o ho => ?_⟩
      · obtain rfl : fd = 5 := by simpa using hfd
        rfl
      · obtain rfl : o = 200 := by simpa using ho
        rfl
  obtain ⟨w, hw, hfds, -, hssls, -⟩ := slots_own_connections 3 _ _ _ hfresh
  have h2 : ((pollLoop [connects 4 100, connects 5 200]).final
      (initial 3 (fun _ => ⟨-1, 0, 0⟩) fun _ => false)).Occupied 2 := by decide
  have h3 : ((pollLoop [connects 4 100, connects 5 200]).final
      (initial 3 (fun _ => ⟨-1, 0, 0⟩) fun _ => false)).Occupied 3 := by decide
  exact ⟨w, hw, (hfds 4).2 ⟨2, h2, by decide⟩, (hfds 5).2 ⟨3, h3, by decide⟩,
    (hssls 100 _).2 ⟨2, h2, by decide, rfl⟩, (hssls 200 _).2 ⟨3, h3, by decide, rfl⟩⟩

end SystemsProgramming.MtlsChat.Server
