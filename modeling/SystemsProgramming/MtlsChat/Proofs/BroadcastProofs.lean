import SystemsProgramming.Foundations.Feed
import SystemsProgramming.MtlsChat.Proofs.DeliveryProofs
import SystemsProgramming.MtlsChat.System
import Mathlib.Data.List.Nodup

/-!
# Proofs: the broadcasts of the chat server are a feed

The messages read from standard input are the log, an SSL object joins when its handshake succeeds and
leaves when `monitor` frees it, and an `SSL_write` delivers the message that is next. As long as no client
has been found gone every object in use gets every message. Afterwards a client may be hidden behind
`nfds`, and misses what is said meanwhile; what it does get is still in order and nothing comes twice.
-/

namespace SystemsProgramming.MtlsChat.Server

open Foundations Prog

/-- The feed of the messages, and whether a client has been found gone. -/
structure Board where
  feed : Feed Ssl (List UInt8)
  someLeft : Bool

/-- Nothing has been said, and nobody is there. -/
def Board.initial : Board := ⟨.empty, false⟩

/-- A message is read. -/
def Board.say (b : Board) (m : List UInt8) : Board :=
  { b with feed := if b.someLeft then b.feed.announce m else b.feed.publish m }

/-- What a call makes of the board. A write that does not deliver the next message is an error. -/
def boardNext (b : Board) : Call → Option Board
  | .sslAccept (some o) ret => some (if 0 < ret then { b with feed := b.feed.join o } else b)
  | .sslFree (.monitor _) (some o) => some ⟨b.feed.leave o, true⟩
  | .readStdin red => some ((received red).elim b b.say)
  | .sslWrite _ (some o) data _ =>
    if data ≠ [] ∧ data.length ≤ maxPlaintext then
      (b.feed.deliver o data).map fun feed => { b with feed := feed }
    else none
  | .accept _ | .setNonblock _ | .close _ | .sslNew _ | .sslSetFd _ _ _ | .sslAccept none _
  | .sslShutdown _ _ | .sslFree .tlsAcceptFunction _ | .sslFree (.monitor _) none | .sslWrite _ none _ _
  | .sslRead _ _ _ | .writeStdout _ | .printf _ | .fprintfStderr _ | .perror _ | .errPrintErrors => some b

/-- The clients follow the feed, each with an object of its own; and as long as nobody has left, they are
up to date and `nfds` covers them. -/
structure Attended (v : Vars) (b : Board) : Prop where
  bound : v.nfds ≤ maxClients
  distinct : ∀ i j, v.Occupied i → v.Occupied j → v.ssls i = v.ssls j → i = j
  joined : ∀ i, v.Occupied i → ∃ o, v.ssls i = some o ∧ b.feed.cursor o ≠ none
  upToDate : b.someLeft = false → Packed v ∧ ∀ i o, v.Occupied i → v.ssls i = some o → b.feed.CaughtUp o

/-! ## The parts of an iteration -/

variable {a : Answers} {u v : Vars} {w : World} {b : Board}

/-- What `Attended` says depends on the descriptors, the pointers of the occupied slots and `nfds`. -/
theorem Attended.congr (h : Attended v b) (hfd : ∀ i, (u.fds i).fd = (v.fds i).fd)
    (hs : ∀ i, v.Occupied i → u.ssls i = v.ssls i) (hbound : u.nfds ≤ maxClients)
    (hpacked : Packed v → Packed u) : Attended u b := by
  have hocc : ∀ i, u.Occupied i ↔ v.Occupied i := fun i => by simp [Vars.Occupied, hfd]
  refine ⟨hbound, fun i j hi hj hij => ?_, fun i hi => ?_, fun hleft => ?_⟩
  · rw [hocc] at hi hj
    rw [hs i hi, hs j hj] at hij
    exact h.distinct i j hi hj hij
  · rw [hocc] at hi
    rw [hs i hi]
    exact h.joined i hi
  · obtain ⟨hp, hup⟩ := h.upToDate hleft
    refine ⟨hpacked hp, fun i o hi ho => ?_⟩
    rw [hocc] at hi
    rw [hs i hi] at ho
    exact hup i o hi ho

/-- `monitor` gives up a client. -/
theorem Attended.closeSlot (h : Attended v b) {i : Nat} {o : Ssl} (hi : v.Occupied i)
    (ho : v.ssls i = some o) : Attended (v.closeSlot i) ⟨b.feed.leave o, true⟩ := by
  constructor
  · exact Nat.le_trans (Nat.sub_le _ _) h.bound
  · intro j k hj hk hjk
    rw [closeSlot_occupied_iff] at hj hk
    rw [closeSlot_ssls_of_ne hj.2, closeSlot_ssls_of_ne hk.2] at hjk
    exact h.distinct j k hj.1 hk.1 hjk
  · intro j hj
    rw [closeSlot_occupied_iff] at hj
    obtain ⟨p, hp, hcursor⟩ := h.joined j hj.1
    have hpo : p ≠ o := by
      rintro rfl
      exact hj.2 (h.distinct j i hj.1 hi (hp.trans ho.symm))
    refine ⟨p, by rw [closeSlot_ssls_of_ne hj.2, hp], ?_⟩
    show Function.update b.feed.cursor o none p ≠ none
    rwa [Function.update_of_ne hpo]
  · intro hleft
    cases hleft

theorem call_attends {i : Nat} {c : Call} (hc : ∀ b, boardNext b c = some b) :
    Triple boardNext (fun v b => Attended v b ∧ v.Occupied i) (call c : Prog Vars Call Unit)
      fun _ v b => Attended v b ∧ v.Occupied i :=
  Triple.call fun _ b h => ⟨b, hc b, h⟩

theorem monitorError_attends (i : Nat) :
    Triple boardNext (fun v b => Attended v b ∧ v.Occupied i) (monitorError i) fun _ => Attended := by
  rintro v b ⟨h, hi⟩
  obtain ⟨o, ho, -⟩ := h.joined i hi
  have hcalls : (monitorError i).calls v = [.sslFree (.monitor i) (some o), .close (v.fds i).fd] := by
    simp [monitorError, ho]
  have hfinal : (monitorError i).final v = v.closeSlot i := by simp [monitorError, Vars.closeSlot]
  exact ⟨_, by rw [hcalls]; rfl, hfinal ▸ h.closeSlot hi ho⟩

theorem monitorCleanup_attends (i : Nat) :
    Triple boardNext (fun v b => Attended v b ∧ v.Occupied i) (monitorCleanup i) fun _ => Attended :=
  Triple.get fun _ => Triple.bind ((call_attends fun _ => rfl).pre fun _ _ h => h.1)
    fun _ => monitorError_attends i

theorem monitor_attends (i : Nat) :
    Triple boardNext (fun v b => Attended v b ∧ v.Occupied i) (monitor a i) fun _ => Attended := by
  refine Triple.get fun u => Triple.bind ((call_attends fun _ => rfl).pre fun _ _ h => h.1) fun _ =>
    Triple.ite (fun _ => ?_) fun _ => (call_attends fun _ => rfl).post fun _ _ _ h => h.1
  cases (a.sslRead i).error with
  | zeroReturn | other => exact Triple.bind (call_attends fun _ => rfl) fun _ => monitorCleanup_attends i
  | syscall | ssl => exact Triple.bind (call_attends fun _ => rfl) fun _ => monitorError_attends i
  | wantRead | wantWrite => exact Triple.pure fun _ _ h => h.1

theorem monitorClients_attends :
    Triple boardNext Attended (monitorClients a) fun _ => Attended := by
  rw [monitorClients_eq]
  refine Triple.ite (fun _ => Triple.get fun u => ?_) fun _ => Triple.pure fun _ _ => id
  refine Triple.pre (Triple.forBelow (fun i hi2 => ?_) _) fun _ _ h => h.1
  refine Triple.get fun u' => Triple.ite (fun hdue => ?_) fun _ => Triple.pure fun _ _ h => h.1.1
  refine Triple.pre (monitor_attends i) ?_
  rintro v b ⟨⟨h, hi⟩, rfl⟩
  exact ⟨h, hi2, Nat.lt_of_lt_of_le hi h.bound, hdue.1⟩

/-! ## Standard input -/

theorem Board.cursor_say {m : List UInt8} {o : Ssl} (h : b.feed.cursor o ≠ none) :
    (b.say m).feed.cursor o ≠ none := by
  unfold Board.say
  cases b.someLeft with
  | false => exact h
  | true =>
    show (b.feed.cursor o).map _ ≠ none
    simpa using h

/-- Every client in use gets the message next: it is up to date, or the message takes the place of what it
has missed. -/
theorem Attended.next_say (h : Attended v b) {i : Nat} {o : Ssl} (hi : v.Occupied i)
    (ho : v.ssls i = some o) (m : List UInt8) : (b.say m).feed.next o = some m := by
  obtain ⟨p, hp, hjoined⟩ := h.joined i hi
  obtain rfl : o = p := Option.some.inj (ho.symm.trans hp)
  unfold Board.say
  cases hleft : b.someLeft with
  | false => exact ((h.upToDate hleft).2 i o hi ho).next_publish m
  | true => exact Feed.next_announce hjoined m

/-- The writes of `broadcast` are deliveries, one for each of these slots. -/
theorem replay_writes {m : List UInt8} (hm : m ≠ [] ∧ m.length ≤ maxPlaintext) {slots : List Nat}
    {obj : Nat → Ssl} (hobj : ∀ i ∈ slots, v.ssls i = some (obj i)) {f : Feed Ssl (List UInt8)}
    (h : (slots.map obj).foldlM (fun f o => f.deliver o m) b.feed = some f) :
    replay boardNext b (slots.map fun i => .sslWrite i (v.ssls i) m (a.sslWrite i)) =
      some { b with feed := f } := by
  induction slots generalizing b with
  | nil =>
    cases h
    rfl
  | cons i slots ih =>
    rw [List.forall_mem_cons] at hobj
    rw [List.map_cons, List.foldlM_cons, Option.bind_eq_bind, Option.bind_eq_some_iff] at h
    obtain ⟨f1, h1, h2⟩ := h
    have hwrite : boardNext b (.sslWrite i (v.ssls i) m (a.sslWrite i)) = some { b with feed := f1 } := by
      rw [hobj.1]
      show (if _ then _ else _) = _
      rw [if_pos hm, h1]
      rfl
    rw [List.map_cons, replay_cons, hwrite]
    exact ih (b := { b with feed := f1 }) hobj.2 h2

theorem Attended.broadcast (h : Attended v b) {m : List UInt8} (hm : m ≠ [] ∧ m.length ≤ maxPlaintext) :
    ∃ b', replay boardNext (b.say m) ((broadcast a m).calls v) = some b' ∧ Attended v b' := by
  have hslots : ∀ i ∈ (List.range' 2 (v.nfds - 2)).filter (fun i => (v.fds i).fd ≠ -1),
      v.Occupied i ∧ v.ssls i = some ((v.ssls i).getD 0) := by
    intro i hi
    obtain ⟨hrange, hfd⟩ := List.mem_filter.1 hi
    obtain ⟨h2, hlt⟩ := List.mem_range'_1.1 hrange
    have hb := h.bound
    have hocc : v.Occupied i := ⟨h2, by omega, by simpa using hfd⟩
    obtain ⟨o, ho, -⟩ := h.joined i hocc
    exact ⟨hocc, by rw [ho]; rfl⟩
  have hnodup : (((List.range' 2 (v.nfds - 2)).filter fun i => (v.fds i).fd ≠ -1).map
      fun i => (v.ssls i).getD 0).Nodup := by
    refine List.Nodup.map_on (fun i hi j hj hij => ?_) (List.Nodup.filter _ List.nodup_range')
    refine h.distinct i j (hslots i hi).1 (hslots j hj).1 ?_
    rw [(hslots i hi).2, (hslots j hj).2, hij]
  obtain ⟨f, hdeliver, hlog, hcursor⟩ := Feed.deliver_each (f := (b.say m).feed) (m := m) hnodup
    fun o ho => by
      obtain ⟨i, hi, rfl⟩ := List.mem_map.1 ho
      exact h.next_say (hslots i hi).1 (hslots i hi).2 m
  refine ⟨⟨f, b.someLeft⟩, ?_, h.bound, h.distinct, fun i hi => ?_, fun hleft => ?_⟩
  · rw [calls_broadcast]
    exact replay_writes hm (fun i hi => (hslots i hi).2) hdeliver
  · obtain ⟨o, ho, hjoined⟩ := h.joined i hi
    refine ⟨o, ho, ?_⟩
    rw [hcursor]
    split
    · simpa using Board.cursor_say hjoined
    · exact Board.cursor_say hjoined
  · obtain ⟨hpacked, hup⟩ := h.upToDate hleft
    have hsay : (b.say m).feed = b.feed.publish m := by
      show (if b.someLeft then _ else _) = _
      rw [if_neg (by simpa using hleft)]
    refine ⟨hpacked, fun i o hi ho => ?_⟩
    -- nobody is hidden, so the message has been written to this client, too
    have hmem : o ∈ ((List.range' 2 (v.nfds - 2)).filter fun i => (v.fds i).fd ≠ -1).map
        fun i => (v.ssls i).getD 0 := by
      obtain ⟨h2, hlt⟩ := (hpacked.occupied_iff i).1 hi
      refine List.mem_map.2 ⟨i, List.mem_filter.2 ⟨List.mem_range'_1.2 ⟨h2, by omega⟩, ?_⟩, by rw [ho]; rfl⟩
      simpa using hi.2.2
    have hold : (b.feed.publish m).cursor o = some b.feed.log.length := hup i o hi ho
    have hlen : (b.feed.publish m).log.length = b.feed.log.length + 1 := List.length_append
    rw [Feed.CaughtUp, hcursor, if_pos hmem, hlog, hsay, hold, hlen]
    rfl

theorem serveStdin_attends : Triple boardNext Attended (serveStdin a) fun _ => Attended := by
  refine Triple.get fun u => Triple.ite (fun _ => ?_) fun _ => monitorClients_attends.pre fun _ _ h => h.1
  cases hr : received (read tlsRecordSize a.stdin) with
  | none =>
    rintro v b ⟨h, -⟩
    refine ⟨b, ?_, ?_⟩
    · simp [readServer, hr, boardNext]
    · simpa [readServer, hr] using h
  | some m =>
    rintro v b ⟨h, -⟩
    obtain ⟨b1, h1, hb1⟩ := h.broadcast (a := a) ⟨received_ne_nil hr, maxPlaintext_eq ▸ length_received_le hr⟩
    obtain ⟨b2, h2, hb2⟩ := monitorClients_attends (a := a) v b1 hb1
    refine ⟨b2, ?_, ?_⟩
    · have hsay : boardNext b (.readStdin (read tlsRecordSize a.stdin)) = some (b.say m) := by
        rw [boardNext, hr]
        rfl
      simp only [readServer, calls_bind, value_bind, final_bind, calls_call, final_call, calls_pure,
        value_pure, final_pure, hr, List.append_nil, List.singleton_append, replay_cons, hsay,
        Option.bind_some, final_broadcast]
      rw [replay_append_some h1, h2]
    · simpa [readServer, hr, final_broadcast] using hb2

/-! ## The first job -/

/-- A new client joins, with an object that no slot has. -/
theorem Attended.openSlot (h : Attended v b) {i : Nat} {o : Ssl} (hf : freeSlot v.fds = some i)
    (hacc : 0 ≤ a.accept) (ho : ∀ j, v.Occupied j → v.ssls j ≠ some o) :
    Attended (v.openSlot i a.accept (some o)) { b with feed := b.feed.join o } := by
  obtain ⟨h2, hmax, hfree, -⟩ := freeSlot_eq_some.1 hf
  have hocc : ∀ j, (v.openSlot i a.accept (some o)).Occupied j ↔ v.Occupied j ∨ j = i :=
    openSlot_occupied_iff hacc h2 hmax
  have hself : (v.openSlot i a.accept (some o)).ssls i = some o := Function.update_self ..
  have hother : ∀ j, j ≠ i → (v.openSlot i a.accept (some o)).ssls j = v.ssls j :=
    fun j hj => Function.update_of_ne hj ..
  have hnew : ∀ j, v.Occupied j → j ≠ i := fun j hj => by
    rintro rfl
    exact hj.2.2 hfree
  refine ⟨?_, fun j k hj hk hjk => ?_, fun j hj => ?_, fun hleft => ?_⟩
  · have hb := h.bound
    simp only [Vars.openSlot]
    split <;> omega
  · rcases (hocc j).1 hj with hj' | hji <;> rcases (hocc k).1 hk with hk' | hki
    · rw [hother j (hnew j hj'), hother k (hnew k hk')] at hjk
      exact h.distinct j k hj' hk' hjk
    · rw [hother j (hnew j hj'), hki, hself] at hjk
      exact absurd hjk (ho j hj')
    · rw [hji, hself, hother k (hnew k hk')] at hjk
      exact absurd hjk.symm (ho k hk')
    · rw [hji, hki]
  · rcases (hocc j).1 hj with hj' | rfl
    · obtain ⟨p, hp, hjoined⟩ := h.joined j hj'
      have hpo : p ≠ o := fun heq => ho j hj' (heq ▸ hp)
      refine ⟨p, by rw [hother j (hnew j hj'), hp], ?_⟩
      show Function.update b.feed.cursor o _ p ≠ none
      rwa [Function.update_of_ne hpo]
    · refine ⟨o, hself, ?_⟩
      show Function.update b.feed.cursor o _ o ≠ none
      rw [Function.update_self]
      exact Option.some_ne_none _
  · obtain ⟨hpacked, hup⟩ := h.upToDate hleft
    refine ⟨hpacked.openSlot hf hacc _, fun j p hj hp => ?_⟩
    rcases (hocc j).1 hj with hj' | rfl
    · rw [hother j (hnew j hj')] at hp
      exact (hup j p hj' hp).join o
    · rw [hself] at hp
      obtain rfl := Option.some.inj hp
      exact Feed.caughtUp_join _ _

theorem Attended.dropSlot (h : Attended v b) {i : Nat} (hf : freeSlot v.fds = some i)
    (hacc : 0 ≤ a.accept) (ssl : Option Ssl) : Attended ((v.openSlot i a.accept ssl).dropSlot i) b := by
  obtain ⟨h2, hmax, hfree, -⟩ := freeSlot_eq_some.1 hf
  refine h.congr (fun j => ?_) (fun j hj => ?_) ?_ fun hpacked => hpacked.dropSlot hf hacc ssl
  · by_cases hji : j = i
    · subst hji
      simp [Vars.dropSlot, hfree]
    · simp [Vars.dropSlot, Vars.openSlot, hji]
  · have hji : j ≠ i := by
      rintro rfl
      exact hj.2.2 hfree
    simp [Vars.dropSlot, Vars.openSlot, hji]
  · have hb := h.bound
    simp only [Vars.dropSlot, Vars.openSlot]
    split <;> omega

theorem board_tlsAccept_failed {i : Nat} (hn : v.nonblock (v.fds i).fd = true) (he : ¬ established a) :
    replay boardNext b ((tlsAcceptFunction a i).calls v) = some b := by
  cases hs : a.sslNew with
  | none => simp [tlsAcceptFunction, hs, boardNext]
  | some o =>
    by_cases h2 : a.sslSetFd = 0
    · simp [tlsAcceptFunction, hs, h2, boardNext]
    · have h3 : ¬ 0 < a.sslAccept true := fun hpos => he ⟨by simp [hs], h2, hpos⟩
      have h3' : a.sslAccept true ≤ 0 := Int.not_lt.1 h3
      by_cases h4 : a.sslAccept true < 0 <;>
        simp [tlsAcceptFunction, hs, h2, h3, h3', h4, hn, boardNext]

theorem board_tlsAccept_established {i : Nat} {o : Ssl} (hn : v.nonblock (v.fds i).fd = true)
    (hs : a.sslNew = some o) (he : established a) :
    replay boardNext b ((tlsAcceptFunction a i).calls v) = some { b with feed := b.feed.join o } := by
  obtain ⟨-, h2, h3⟩ := he
  simp [tlsAcceptFunction, hs, h2, h3, Int.not_le.2 h3, hn, boardNext]

theorem Attended.polled (h : Attended v b) (a : Answers) : Attended (v.polled a) b :=
  h.congr (fun i => by simp [Vars.polled]) (fun _ _ => rfl) h.bound fun hpacked => hpacked.polled a

/-- The objects that are allocated while no slot has them are new to the clients. -/
theorem Owner.ne_of_fresh (h : Owner v w) {o : Ssl} (ho : w.objects o = none) :
    ∀ j, v.Occupied j → v.ssls j ≠ some o := by
  intro j hj hjo
  have hheld := h.objects.held j _ _ (clientSsls_of_occupied hj hjo)
  rw [ho] at hheld
  cases hheld

/-- An iteration that gets past its first job. -/
theorem Attended.after_accept (h : Attended v b) (hO : Owner v w) {cs : List Call}
    (hw : replay World.next World.initial cs = some w) (hfresh : Fresh cs v a)
    (ha : accepted a (v.polled a) = some u) :
    ∃ setup b', (iteration a).calls v = setup ++ (serveStdin a).calls u ∧
      replay boardNext b setup = some b' ∧ Attended u b' := by
  have hobj := (hfresh w hw).2
  have hcalls : (iteration a).calls v = (acceptConnection a).calls (v.polled a) := rfl
  rw [hcalls] at hobj ⊢
  have hpoll := h.polled a
  have hOpoll := hO.polled a
  generalize v.polled a = p at hpoll hOpoll hobj ha
  obtain ⟨h1, rfl⟩ | ⟨h1, h2, h3, i, h4, rfl⟩ := accepted_eq_some.1 ha
  · obtain ⟨-, -, h5⟩ | ⟨h5, -⟩ | ⟨i, h5, -⟩ | ⟨i, h5, -⟩ := acceptConnection_cases a p
    · exact ⟨[], b, by rw [h5, List.nil_append], rfl, hpoll⟩
    all_goals exact absurd h5 h1
  · obtain ⟨h5, -⟩ | ⟨-, h5, -⟩ | ⟨j, -, -, -, h5, -⟩ | ⟨j, -, -, h5, -, -, h6⟩ :=
      acceptConnection_cases a p
    · exact absurd h1 h5
    · rcases h5 with h5 | h5
      · omega
      · rw [h5] at h4
        cases h4
    · exact absurd h3 h5
    · obtain rfl : i = j := Option.some.inj (h4.symm.trans h5)
      obtain ⟨o, hs⟩ := Option.ne_none_iff_exists'.1 h3.1
      have ho : w.objects o = none := hobj o (by rw [h6]; simp [tlsAcceptFunction, hs])
      have htcp : replay boardNext b [.accept a.accept, .setNonblock a.accept] = some b := rfl
      have hn : (p.openSlot i a.accept (p.ssls i)).nonblock
          ((p.openSlot i a.accept (p.ssls i)).fds i).fd = true := openSlot_nonblock
      have htls := board_tlsAccept_established (b := b) hn hs h3
      rw [h6, (tcpAcceptFunction_slot h2 h4).2.2]
      refine ⟨_ ++ [.printf _], _, by rw [← List.append_cons], ?_,
        hs ▸ hpoll.openSlot h4 h2 (hOpoll.ne_of_fresh ho)⟩
      rw [List.append_assoc, replay_append_some htcp, replay_append_some htls]
      rfl

/-- An iteration that does not. -/
theorem Attended.after_failed_accept (h : Attended v b) (ha : accepted a (v.polled a) = none) :
    replay boardNext b ((iteration a).calls v) = some b ∧ Attended ((iteration a).final v) b := by
  have hcalls : (iteration a).calls v = (acceptConnection a).calls (v.polled a) := rfl
  have hfin : (iteration a).final v = (acceptConnection a).final (v.polled a) := rfl
  rw [hcalls, hfin]
  have hpoll := h.polled a
  generalize v.polled a = p at hpoll ha
  have hnone : ∀ u, accepted a p ≠ some u := by simp [ha]
  obtain ⟨h1, -⟩ | ⟨-, h2, ⟨nb, h3⟩, h4⟩ | ⟨i, -, h2, h3, h4, h5, h6⟩ | ⟨i, h1, h2, h3, h4, -⟩ :=
    acceptConnection_cases a p
  · exact absurd (accepted_eq_some.2 (Or.inl ⟨h1, rfl⟩)) (hnone p)
  · rw [h3, h4]
    refine ⟨?_, hpoll.congr (fun _ => rfl) (fun _ _ => rfl) hpoll.bound
      fun hp => ⟨hp.two_le, hp.le_max, hp.occupied_iff⟩⟩
    by_cases hacc : a.accept < 0
    · rw [(tcpAcceptFunction_error hacc p).2.2]
      rfl
    · rw [(tcpAcceptFunction_full (Int.not_lt.1 hacc) (h2.resolve_left hacc)).2.2]
      rfl
  · have htcp : replay boardNext b [.accept a.accept, .setNonblock a.accept] = some b := rfl
    rw [h5, h6, (tcpAcceptFunction_slot h2 h3).2.2, List.append_assoc, replay_append_some htcp,
      replay_append_some (board_tlsAccept_failed openSlot_nonblock h4)]
    exact ⟨rfl, hpoll.dropSlot h3 h2 _⟩
  · exact absurd (accepted_eq_some.2 (Or.inr ⟨h1, h2, h4, i, h3, rfl⟩)) (hnone _)

/-! ## Whole runs -/

theorem initial_attended (socketFd : Int) (stack : Nat → Pollfd) (nonblock : Int → Bool) :
    Attended (initial socketFd stack nonblock) .initial := by
  have hpacked := initial_packed socketFd stack nonblock
  have hfree : ∀ i, ¬ (initial socketFd stack nonblock).Occupied i := by
    intro i hi
    have h2 := (hpacked.occupied_iff i).1 hi
    have hn : (initial socketFd stack nonblock).nfds = 2 := rfl
    omega
  exact ⟨hpacked.le_max, fun i _ hi => absurd hi (hfree i), fun i hi => absurd hi (hfree i),
    fun _ => ⟨hpacked, fun i _ hi => absurd hi (hfree i)⟩⟩

/-- The calls of a whole run are ones of the board, and at its end the clients follow the feed. -/
theorem pollLoop_attends {as : List Answers} {h : List Call} (hb : Attended v b)
    (hO : ∃ w, replay World.next World.initial h = some w ∧ Owner v w)
    (hfresh : AllSteps iteration Fresh h v as) :
    ∃ b', replay boardNext b ((pollLoop as).calls v) = some b' ∧ Attended ((pollLoop as).final v) b' := by
  induction as generalizing h v b with
  | nil => exact ⟨b, rfl, hb⟩
  | cons a as ih =>
    have hstep : ∃ b1, replay boardNext b ((iteration a).calls v) = some b1 ∧
        Attended ((iteration a).final v) b1 := by
      obtain ⟨w, hw, hOw⟩ := hO
      cases ha : accepted a (v.polled a) with
      | none => exact ⟨b, hb.after_failed_accept ha⟩
      | some u =>
        obtain ⟨setup, b1, hcalls, h1, hb1⟩ := hb.after_accept hOw hw hfresh.1 ha
        obtain ⟨b2, h2, hb2⟩ := serveStdin_attends (a := a) u b1 hb1
        rw [hcalls, (iteration_of_accepted ha).1]
        exact ⟨b2, by rw [replay_append_some h1, h2], hb2⟩
    obtain ⟨b1, h1, hb1⟩ := hstep
    obtain ⟨b2, h2, hb2⟩ := ih hb1 (owner_step hO hfresh.1) hfresh.2
    refine ⟨b2, ?_, hb2⟩
    rw [calls_forEach_cons, replay_append_some h1]
    exact h2

end SystemsProgramming.MtlsChat.Server
