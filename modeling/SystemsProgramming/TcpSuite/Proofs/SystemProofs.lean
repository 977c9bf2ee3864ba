import SystemsProgramming.TcpSuite.Proofs.DuplexProofs
import SystemsProgramming.TcpSuite.Proofs.FeedProofs

/-!
# Proofs: the TCP server and its clients

What the users of the system can rely on, in every interleaving. Each client shows a beginning of what
the server has said since it accepted that client, and all of it once nothing is under way. The server
prints a shuffle of beginnings of what the clients have typed, and all that a client has typed once it
has read the end of the file from it. Where a write was cut short, which neither program notices, there
is a gap.
-/

namespace SystemsProgramming.TcpSuite

open Foundations

variable {e : Setting} {evs h : List Event} {n n' : Network} {ev : Event} {i j : Nat}
  {f f' : Feed Int (List UInt8)}

/-! ## From the server to a client -/

/-- The server has accepted client `i`. -/
def Accepted (i : Nat) (h : List Event) : Prop := ∃ fd, .server (.accept fd) i ∈ h

theorem saidSince_of_not_accepted (hacc : ¬ Accepted i h) : saidSince i h = [] := by
  induction h with
  | nil => rfl
  | cons ev h ih =>
    have hrest : saidSince i h = [] := ih fun ⟨fd, hmem⟩ => hacc ⟨fd, List.mem_cons_of_mem _ hmem⟩
    cases ev with
    | client j c k => exact hrest
    | server c k =>
      cases c with
      | accept fd =>
        have hk : k ≠ i := by
          rintro rfl
          exact hacc ⟨fd, List.mem_cons_self⟩
        rw [saidSince, if_neg hk, hrest]
      | _ => exact hrest

/-- From its acceptance on, a client is concerned by all that is said. -/
theorem saidSince_append_of_accepted (hacc : Accepted i h) (g : List Event) :
    saidSince i (h ++ g) = saidSince i h ++ said g := by
  induction h with
  | nil =>
    obtain ⟨fd, hmem⟩ := hacc
    cases hmem
  | cons ev h ih =>
    have hskip : (∀ fd, ev ≠ .server (.accept fd) i) → saidSince i (h ++ g) = saidSince i h ++ said g := by
      intro hne
      obtain ⟨fd, hmem⟩ := hacc
      exact ih ⟨fd, (List.mem_cons.1 hmem).resolve_left (hne fd).symm⟩
    cases ev with
    | client j c k => exact hskip (by simp)
    | server c k =>
      cases c with
      | accept fd =>
        by_cases hk : k = i
        · subst hk
          rw [List.cons_append, saidSince, saidSince, if_pos rfl, if_pos rfl, said_append]
        · rw [List.cons_append, saidSince, saidSince, if_neg hk, if_neg hk]
          exact hskip fun fd' heq => hk (by cases heq; rfl)
      | _ => exact hskip (by simp)

theorem saidSince_accept (hacc : ¬ Accepted i h) (fd : Int) :
    saidSince i (h ++ [.server (.accept fd) i]) = [] := by
  induction h with
  | nil => simp [saidSince, said]
  | cons ev h ih =>
    have hrest := ih fun ⟨fd, hmem⟩ => hacc ⟨fd, List.mem_cons_of_mem _ hmem⟩
    cases ev with
    | client j c k => exact hrest
    | server c k =>
      cases c with
      | accept fd' =>
        have hk : k ≠ i := by
          rintro rfl
          exact hacc ⟨fd', List.mem_cons_self⟩
        rw [List.cons_append, saidSince, if_neg hk, hrest]
      | _ => exact hrest

/-- What is said since an acceptance is the end of what is said. -/
theorem saidSince_suffix (i : Nat) (evs : List Event) : saidSince i evs <:+ said evs := by
  induction evs with
  | nil => exact List.suffix_refl _
  | cons ev evs ih =>
    have hcons : said evs <:+ said (ev :: evs) := by
      rw [← List.singleton_append, said_append]
      exact List.suffix_append _ _
    cases ev with
    | client j c k => exact ih
    | server c k =>
      cases c with
      | accept fd =>
        rw [saidSince]
        split_ifs
        · exact hcons
        · exact ih.trans hcons
      | _ => exact ih.trans hcons

/-- Where client `i` is in the feed, after the events `h`. -/
structure Following (i : Nat) (h : List Event) (f : Feed Int (List UInt8)) (n : Network) : Prop where
  accepted : (n.link i).stage = .accepted ↔ Accepted i h
  peer : ∀ fd, n.peer fd = some i → Accepted i h
  unique : ∀ fd fd', n.peer fd = some i → n.peer fd' = some i → fd = fd'
  cursor : ∀ fd, n.peer fd = some i → ∃ k delivered, f.cursor fd = some k ∧
    saidSince i h = delivered ++ f.log.drop k ∧ (n.link i).down.Carries delivered.flatten
  carried : ∃ delivered, delivered <+: saidSince i h ∧ (n.link i).down.Carries delivered.flatten

theorem following_initial (i : Nat) : Following i [] .empty .initial where
  accepted := ⟨fun h => (by cases h), fun ⟨_, h⟩ => (by cases h)⟩
  peer fd h := by cases h
  unique fd fd' h := by cases h
  cursor fd h := by cases h
  carried := ⟨[], List.nil_prefix, Channel.carries_empty⟩

theorem accepted_append_singleton :
    Accepted i (h ++ [ev]) ↔ Accepted i h ∨ ∃ fd, ev = .server (.accept fd) i := by
  simp only [Accepted, List.mem_append, List.mem_singleton, exists_or, eq_comm]

/-- An event that accepts another client, or none. -/
theorem accepted_append_of_ne (hacc : ∀ fd, ev ≠ .server (.accept fd) i) :
    Accepted i (h ++ [ev]) ↔ Accepted i h := by
  rw [accepted_append_singleton]
  exact or_iff_left fun ⟨fd, heq⟩ => hacc fd heq

/-- An event that neither accepts a client, nor is read from standard input. -/
theorem saidSince_append_of_silent (hacc : ∀ fd, ev ≠ .server (.accept fd) i) (hsaid : said [ev] = []) :
    saidSince i (h ++ [ev]) = saidSince i h := by
  by_cases hi : Accepted i h
  · rw [saidSince_append_of_accepted hi, hsaid, List.append_nil]
  · rw [saidSince_of_not_accepted hi, saidSince_of_not_accepted]
    rwa [accepted_append_of_ne hacc]

/-- An event that changes nothing in the feed or for the connection's descriptor. -/
theorem Following.congr (hf : Following i h f n) (hacc : ∀ fd, ev ≠ .server (.accept fd) i)
    (hsaid : said [ev] = []) (hlog : f'.log = f.log)
    (hstage : (n'.link i).stage = .accepted ↔ (n.link i).stage = .accepted)
    (hcarries : ∀ xs, (n.link i).down.Carries xs → (n'.link i).down.Carries xs)
    (hpeer : ∀ fd, n'.peer fd = some i → n.peer fd = some i ∧ f'.cursor fd = f.cursor fd) :
    Following i (h ++ [ev]) f' n' := by
  have hacc' := accepted_append_of_ne (h := h) hacc
  have hsince := saidSince_append_of_silent (h := h) hacc hsaid
  constructor
  · rw [hacc', hstage, hf.accepted]
  · exact fun fd hfd => hacc'.2 (hf.peer fd (hpeer fd hfd).1)
  · exact fun fd fd' hfd hfd' => hf.unique fd fd' (hpeer fd hfd).1 (hpeer fd' hfd').1
  · intro fd hfd
    obtain ⟨hold, hcursor⟩ := hpeer fd hfd
    obtain ⟨k, delivered, hk, heq, hcar⟩ := hf.cursor fd hold
    exact ⟨k, delivered, hcursor.trans hk, by rw [hsince, hlog, heq], hcarries _ hcar⟩
  · obtain ⟨delivered, hpre, hcar⟩ := hf.carried
    exact ⟨delivered, hsince ▸ hpre, hcarries _ hcar⟩

/-- The server accepts a connection. -/
theorem Following.accept (hf : Following i h f n) {fd : Int}
    (hn : n.serverStep (.accept fd) j = some n') :
    Following i (h ++ [.server (.accept fd) j]) (f.join fd) n' := by
  simp only [Network.serverStep, Option.ite_none_right_eq_some, Option.some.injEq] at hn
  obtain ⟨⟨hfree, hwaiting⟩, rfl⟩ := hn
  by_cases hij : i = j
  · subst hij
    have hnot : ¬ Accepted i h := by
      rw [← hf.accepted, hwaiting]
      simp
    have hpeer : ∀ fd', Function.update n.peer fd (some i) fd' = some i → fd' = fd := by
      intro fd' hfd'
      by_contra hne
      rw [Function.update_of_ne hne] at hfd'
      exact hnot (hf.peer fd' hfd')
    have hcar : (n.link i).down.Carries [] := by
      obtain ⟨delivered, hpre, hcar⟩ := hf.carried
      rw [saidSince_of_not_accepted hnot, List.prefix_nil] at hpre
      rwa [hpre] at hcar
    have hsince := saidSince_accept hnot fd
    have hacc : Accepted i (h ++ [.server (.accept fd) i]) :=
      accepted_append_singleton.2 (Or.inr ⟨fd, rfl⟩)
    constructor
    · exact iff_of_true (by simp) hacc
    · exact fun _ _ => hacc
    · exact fun fd1 fd2 h1 h2 => (hpeer fd1 h1).trans (hpeer fd2 h2).symm
    · intro fd' hfd'
      obtain rfl := hpeer fd' hfd'
      refine ⟨f.log.length, [], Function.update_self .., ?_, by simpa using hcar⟩
      rw [hsince]
      exact (List.drop_length (l := f.log)).symm
    · exact ⟨[], List.nil_prefix, by simpa using hcar⟩
  · have hlink : Function.update n.link j { n.link j with stage := .accepted } i = n.link i :=
      Function.update_of_ne hij ..
    refine hf.congr (by simp [Ne.symm hij]) rfl rfl (by simp only [hlink])
      (fun xs => by simp only [hlink, imp_self]) fun fd' hfd' => ?_
    have hne : fd' ≠ fd := by
      rintro rfl
      have hji : j = i := by simpa using hfd'
      exact hij hji.symm
    exact ⟨(Function.update_of_ne hne ..).symm.trans hfd', Function.update_of_ne hne ..⟩

/-- The server reads a chunk from its standard input. -/
theorem Following.publish (hf : Following i h f n) {red : Option (List UInt8)} {chunk : List UInt8}
    {k : Nat} (hchunk : received red = some chunk) :
    Following i (h ++ [.server (.readStdin red) k]) (f.publish chunk) n := by
  have hsaid : said [.server (.readStdin red) k] = [chunk] := by simp [said, hchunk]
  have hacc : Accepted i (h ++ [.server (.readStdin red) k]) ↔ Accepted i h :=
    accepted_append_of_ne (by simp)
  constructor
  · rw [hacc, hf.accepted]
  · exact fun fd hfd => hacc.2 (hf.peer fd hfd)
  · exact hf.unique
  · intro fd hfd
    obtain ⟨k, delivered, hk, heq, hcar⟩ := hf.cursor fd hfd
    refine ⟨k, delivered, hk, ?_, hcar⟩
    rw [saidSince_append_of_accepted (hf.peer fd hfd), hsaid, heq]
    show _ = delivered ++ (f.log ++ [chunk]).drop k
    rw [List.drop_append_of_le_length (f.bounded fd k hk), List.append_assoc]
  · obtain ⟨delivered, hpre, hcar⟩ := hf.carried
    refine ⟨delivered, ?_, hcar⟩
    by_cases hi : Accepted i h
    · rw [saidSince_append_of_accepted hi]
      exact hpre.trans (List.prefix_append _ _)
    · rw [saidSince_of_not_accepted hi] at hpre
      rw [List.prefix_nil.1 hpre]
      exact List.nil_prefix

/-- The server writes to a connection. -/
theorem Following.write (hf : Following i h f n) {fd : Int} {data : List UInt8} {k : Nat}
    (hdeliver : f.deliver fd data = some f') (hn : n.serverStep (.write fd data) k = some n') :
    Following i (h ++ [.server (.write fd data) k]) f' n' := by
  obtain ⟨hlog, p, hp, hdrop, hcursor⟩ := Feed.deliver_eq_some hdeliver
  have hpeers : n'.peer = n.peer := by
    cases hn
    cases n.peer fd <;> rfl
  by_cases hfd : n.peer fd = some i
  · have hlink : n'.link i = { n.link i with down := (n.link i).down.write data k } := by
      cases hn
      rw [hfd]
      exact n.setLink_self ..
    have hacc : Accepted i (h ++ [.server (.write fd data) k]) ↔ Accepted i h :=
      accepted_append_of_ne (by simp)
    obtain ⟨q, delivered, hq, heq, hcar⟩ := hf.cursor fd hfd
    obtain rfl : p = q := Option.some.inj (hp.symm.trans hq)
    have hsince : saidSince i (h ++ [.server (.write fd data) k]) =
        (delivered ++ [data]) ++ f.log.drop (p + 1) := by
      rw [saidSince_append_of_silent (by simp) rfl, heq, hdrop, List.append_assoc]
      rfl
    have hcar' : ((n.link i).down.write data k).Carries (delivered ++ [data]).flatten := by
      rw [List.flatten_append, List.flatten_singleton]
      exact hcar.write data k
    constructor
    · rw [hacc, hlink, ← hf.accepted]
    · exact fun fd' hfd' => hacc.2 (hf.peer fd' (hpeers ▸ hfd'))
    · rw [hpeers]
      exact hf.unique
    · intro fd' hfd'
      obtain rfl := hf.unique fd fd' hfd (hpeers ▸ hfd')
      refine ⟨p + 1, delivered ++ [data], ?_, ?_, ?_⟩
      · rw [hcursor, Function.update_self]
      · rw [hsince, hlog]
      · rw [hlink]
        exact hcar'
    · refine ⟨delivered ++ [data], ?_, ?_⟩
      · rw [hsince]
        exact List.prefix_append _ _
      · rw [hlink]
        exact hcar'
  · have hlink : n'.link i = n.link i := by
      cases hn
      cases hj : n.peer fd with
      | none => rfl
      | some j =>
        have hij : i ≠ j := by
          rintro rfl
          exact hfd hj
        exact n.setLink_of_ne _ hij
    refine hf.congr (by simp) rfl hlog (by rw [hlink]) (fun xs => by rw [hlink]; exact id)
      fun fd' hfd' => ?_
    rw [hpeers] at hfd'
    have hne : fd' ≠ fd := by
      rintro rfl
      exact hfd hfd'
    exact ⟨hfd', by rw [hcursor, Function.update_of_ne hne]⟩

theorem Following.server (hf : Following i h f n) {c : Server.Call} {k : Nat}
    (hn : n.serverStep c k = some n') (hfeed : Server.feedNext f c = some f') :
    Following i (h ++ [.server c k]) f' n' := by
  cases c with
  | accept fd =>
    obtain rfl := Option.some.inj hfeed
    exact hf.accept hn
  | write fd data => exact hf.write hfeed hn
  | readStdin red =>
    obtain rfl := Option.some.inj hn
    obtain rfl := Option.some.inj hfeed
    cases hchunk : received red with
    | none => exact hf.congr (by simp) (by simp [said, hchunk]) rfl Iff.rfl (fun _ => id) fun _ h => ⟨h, rfl⟩
    | some chunk => exact hf.publish hchunk
  | close fd =>
    obtain rfl := Option.some.inj hn
    obtain rfl := Option.some.inj hfeed
    refine hf.congr (by simp) rfl rfl Iff.rfl (fun _ => id) fun fd' hfd' => ?_
    have hne : fd' ≠ fd := by
      rintro rfl
      simp at hfd'
    exact ⟨(Function.update_of_ne hne ..).symm.trans hfd', Function.update_of_ne hne ..⟩
  | read fd red =>
    obtain rfl := Option.some.inj hfeed
    have hlink : (n'.link i).stage = (n.link i).stage ∧ (n'.link i).down = (n.link i).down := by
      rcases serverStep_link hn i with ⟨hlink, -⟩ | ⟨_, heq, -⟩ | ⟨_, _, heq, -⟩ |
        ⟨_, _, up, -, -, -, -, hlink⟩
      · rw [hlink]
        exact ⟨rfl, rfl⟩
      · cases heq
      · cases heq
      · rw [hlink]
        exact ⟨rfl, rfl⟩
    have hpeers : n'.peer = n.peer := by
      cases red with
      | none => cases hn; rfl
      | some data =>
        simp only [Network.serverStep, Option.ite_none_right_eq_some] at hn
        obtain ⟨up, -, rfl⟩ := Option.map_eq_some_iff.1 hn.2
        rfl
    exact hf.congr (by simp) (by simp [said]) rfl (by rw [hlink.1])
      (fun xs => by rw [hlink.2]; exact id) fun fd' hfd' => ⟨hpeers ▸ hfd', rfl⟩
  | _ =>
    obtain rfl := Option.some.inj hn
    obtain rfl := Option.some.inj hfeed
    exact hf.congr (by simp) rfl rfl Iff.rfl (fun _ => id) fun _ h => ⟨h, rfl⟩

theorem Following.client (hf : Following i h f n) {c : Client.Call} {k : Nat}
    (hn : n.clientStep j c k = some n') : Following i (h ++ [.client j c k]) f n' := by
  have hpeers := clientStep_peer hn
  have hlink : ((n'.link i).stage = .accepted ↔ (n.link i).stage = .accepted) ∧
      ∀ xs, (n.link i).down.Carries xs → (n'.link i).down.Carries xs := by
    by_cases hij : i = j
    · subst hij
      cases c with
      | connect fd server ret =>
        simp only [Network.clientStep] at hn
        split_ifs at hn with h1 h2 <;> cases hn
        · exact ⟨Iff.rfl, fun _ => id⟩
        · rw [n.setLink_self, h2]
          exact ⟨by simp, fun _ => id⟩
      | readSocket fd red =>
        cases red with
        | none =>
          cases hn
          exact ⟨Iff.rfl, fun _ => id⟩
        | some data =>
          obtain ⟨down, hread, rfl⟩ := Option.map_eq_some_iff.1 hn
          rw [n.setLink_self]
          exact ⟨Iff.rfl, fun _ hcar => hcar.read hread⟩
      | _ =>
        cases hn
        first
          | exact ⟨Iff.rfl, fun _ => id⟩
          | rw [n.setLink_self]; exact ⟨Iff.rfl, fun _ => id⟩
    · rw [clientStep_link_of_ne hn hij]
      exact ⟨Iff.rfl, fun _ => id⟩
  exact hf.congr (by simp) rfl rfl hlink.1 hlink.2 fun fd hfd => ⟨hpeers ▸ hfd, rfl⟩

theorem Run.following (hrun : Run e evs n) (i : Nat) :
    ∃ f, replay Server.feedNext .empty (evs.filterMap Event.serverCall) = some f ∧
      Following i evs f n := by
  obtain ⟨final, hfinal, -⟩ := Server.pollLoop_broadcasting
    (Server.initial_broadcasting e.socketFd e.stack) hrun.fresh
  obtain ⟨f, hfeed⟩ := replay_prefix hrun.server hfinal
  refine ⟨f, hfeed, ?_⟩
  rw [← replay_onOwn] at hfeed
  refine replay_history (I := fun h (s : Feed Int (List UInt8) × Network) => Following i h s.1 s.2)
    (following_initial i) (fun h s ev s' hf hs => ?_) (replay_both hfeed hrun.network)
  obtain ⟨f0, n0⟩ := s
  obtain ⟨f1, n1⟩ := s'
  obtain ⟨h1, h2⟩ := both_eq_some.1 hs
  cases ev with
  | server c k => exact hf.server h2 h1
  | client j c k =>
    obtain rfl := Option.some.inj h1
    exact hf.client h2

/-! ## From the clients to the server -/

/-- What the server has printed, against what it has read, unless a `read` failed. -/
structure Printing (h : List Event) (c : Server.Console) : Prop where
  idle : c = .idle → printed h = (messages h).flatMap Prod.snd
  holding : ∀ data, c = .holding data → printed h ++ data = (messages h).flatMap Prod.snd
  failed : c = .failed → ∃ fd k, .server (.read fd none) k ∈ h

theorem printed_server (c : Server.Call) (k : Nat) : printed [.server c k] = c.fwritten := by
  simp [printed, Event.serverCall]

theorem flatMap_messages_server (c : Server.Call) (k : Nat) :
    (messages [.server c k]).flatMap Prod.snd = c.fromClient := by
  cases c with
  | read fd red => cases red <;> simp [messages, Server.Call.fromClient]
  | _ => rfl

theorem Printing.server {c c' : Server.Console} {d : Server.Call} {k : Nat} (hp : Printing h c)
    (hc : Server.printNext c d = some c') : Printing (h ++ [.server d k]) c' := by
  have hkeep : (∃ fd k, .server (.read fd none) k ∈ h) →
      ∃ fd k', .server (.read fd none) k' ∈ h ++ [.server d k] :=
    fun ⟨fd, k', hmem⟩ => ⟨fd, k', List.mem_append_left _ hmem⟩
  have hprinted : printed (h ++ [.server d k]) = printed h ++ d.fwritten := by
    rw [printed_append, printed_server]
  have hmessages : (messages (h ++ [.server d k])).flatMap Prod.snd =
      (messages h).flatMap Prod.snd ++ d.fromClient := by
    rw [messages_append, List.flatMap_append, flatMap_messages_server]
  rcases Server.printNext_cases hc with ⟨rfl, rfl⟩ | ⟨fd, rfl, rfl⟩ | ⟨fd, data, rfl, rfl, rfl⟩ |
    ⟨size, data, rfl, rfl, rfl⟩ | ⟨rfl, hout, hin⟩
  · exact ⟨fun h => (by cases h), fun _ h => (by cases h), fun _ => hkeep (hp.failed rfl)⟩
  · exact ⟨fun h => (by cases h), fun _ h => (by cases h), fun _ =>
      ⟨fd, k, List.mem_append_right _ (List.mem_singleton.2 rfl)⟩⟩
  · refine ⟨fun h => (by cases h), fun _ heq => ?_, fun h => (by cases h)⟩
    cases heq
    rw [hprinted, hmessages, ← hp.idle rfl]
    exact congrArg (· ++ data) (List.append_nil _)
  · refine ⟨fun _ => ?_, fun _ h => (by cases h), fun h => (by cases h)⟩
    rw [hprinted, hmessages, ← hp.holding data rfl]
    exact (List.append_nil _).symm
  · rw [hout, List.append_nil] at hprinted
    rw [hin, List.append_nil] at hmessages
    constructor
    · rw [hprinted, hmessages]
      exact hp.idle
    · rw [hprinted, hmessages]
      exact hp.holding
    · exact fun hfailed => hkeep (hp.failed hfailed)

theorem printed_client (c : Client.Call) (k : Nat) : printed [.client j c k] = [] := rfl

theorem Run.printing (hrun : Run e evs n) : ∃ c, Printing evs c := by
  obtain ⟨final, hfinal, -⟩ := Server.pollLoop_prints e.socketFd e.answers
    (Server.initial e.socketFd e.stack)
  obtain ⟨c, hc⟩ := replay_prefix hrun.server hfinal
  rw [← replay_onOwn] at hc
  refine ⟨c, replay_history (I := Printing) ⟨fun _ => rfl, fun _ h => (by cases h), fun h => (by cases h)⟩
    (fun h c ev c' hp hs => ?_) hc⟩
  cases ev with
  | server d k => exact hp.server hs
  | client j d k =>
    obtain rfl := Option.some.inj hs
    have hprinted : printed (h ++ [.client j d k]) = printed h := by
      rw [printed_append, printed_client, List.append_nil]
    have hmessages : messages (h ++ [.client j d k]) = messages h := by
      rw [messages_append, messages_client, List.append_nil]
    constructor
    · rw [hprinted, hmessages]
      exact hp.idle
    · rw [hprinted, hmessages]
      exact hp.holding
    · intro hfailed
      obtain ⟨fd, k', hmem⟩ := hp.failed hfailed
      exact ⟨fd, k', List.mem_append_left _ hmem⟩

/-! ## A run -/

/-- An iteration of the server in which `i` is said. -/
def speaks : Server.Answers := { Server.sends 1 with stdin := some [105] }

/-- An iteration of the server that finds that the client in slot `2` has left. -/
def leaves : Server.Answers := { Server.sends 2 with read := fun _ => some [] }

/-- An iteration of a client in which the socket, which is entry `0`, or standard input is readable. -/
def reads (entry : Nat) (data : List UInt8) : Client.Answers where
  poll := 1
  revents j := if j = entry then POLLIN else 0
  socket := some data
  stdin := some data

/-- A single client that connects. -/
def visit (rounds : List Server.Answers) (turns : List Client.Answers) : Setting where
  inetAddr _ := 0x0100007f
  atoi _ := 8080
  socketFd := 3
  stack := Server.zeroes
  answers := rounds
  clients i := {
    argv := if i = 0 then [⟨ascii "client", by decide⟩, ⟨ascii "127.0.0.1", by decide⟩,
      ⟨ascii "8080", by decide⟩] else []
    socketFd := 3
    connected := 0
    stack := []
    answers := if i = 0 then turns else [] }

/-- The client connects, types `h` and shows what is said meanwhile. -/
def visited : List Event := [
  .client 0 (.socket 3) 0, .client 0 (.connect 3 ⟨8080, 0x0100007f⟩ 0) 0,
  .server (.accept 4) 0, .client 0 (.readStdin (some [104])) 0,
  .server (.printf "\n[client connected: 127.0.0.1]\n") 0, .client 0 (.writeSocket 3 [104]) 1,
  .server (.readStdin (some [105])) 0, .server (.write 4 [105]) 1,
  .client 0 (.readSocket 3 (some [105])) 0, .client 0 (.writeStdout [105]) 0]

/-- The server prints what the client has typed, and the client leaves. -/
def farewell : List Event := [
  .client 0 (.readStdin (some [])) 0, .server (.read 4 (some [104])) 0, .client 0 (.stderr "error") 0,
  .client 0 (.close 3) 0, .server (.fwrite 1 [104]) 0, .server .fflush 0, .server (.read 4 (some [])) 0]

/-- The network after `visited`. -/
def whileVisiting : Network := (replay Network.step .initial visited).get (by decide)

/-- The network after `farewell`. -/
def afterFarewell : Network := (replay Network.step .initial (visited ++ farewell)).get (by decide)

theorem fresh_visit (rounds : List Server.Answers) (h : ∀ a ∈ rounds, a.accept = -1) :
    Prog.AllSteps (Server.iteration 3) (Server.Fresh 3) [] (Server.initial 3 Server.zeroes)
      (Server.arrives 4 :: rounds) := by
  have hrounds : ∀ cs v, Prog.AllSteps (Server.iteration 3) (Server.Fresh 3) cs v rounds := by
    intro cs v
    induction rounds generalizing cs v with
    | nil => trivial
    | cons a rounds ih =>
      rw [List.forall_mem_cons] at h
      refine ⟨fun w _ fd hmem => ?_, ih h.2 _ _⟩
      obtain ⟨-, hacc, -⟩ := Server.mem_iteration_accept.1 hmem
      exact absurd h.1 hacc.2.2
  have hfirst : Prog.AllSteps (Server.iteration 3) (Server.Fresh 3) []
      (Server.initial 3 Server.zeroes) ([4].map Server.arrives) :=
    Server.initial_calm.fresh (by decide) (by decide) rfl (by decide)
  exact ⟨hfirst.1, hrounds _ _⟩

theorem clientCall_of_ne_zero {i : Nat} (hi : i ≠ 0) :
    (visited ++ farewell).filterMap (Event.clientCall i) = [] := by
  simp [visited, farewell, Event.clientCall, Ne.symm hi]

theorem visit_run :
    Run (visit [Server.arrives 4, speaks] [reads 1 [104], reads 0 [105]]) visited whileVisiting where
  server := by decide
  client i := by
    by_cases hi : i = 0
    · subst hi
      decide
    · have hnil := clientCall_of_ne_zero hi
      rw [List.filterMap_append, List.append_eq_nil_iff] at hnil
      rw [hnil.1]
      exact List.nil_prefix
  network := (Option.some_get _).symm
  fresh := fresh_visit _ (by simp [speaks, Server.sends])

theorem farewell_run :
    Run (visit [Server.arrives 4, speaks, Server.sends 2, leaves]
      [reads 1 [104], reads 0 [105], reads 1 []]) (visited ++ farewell) afterFarewell where
  server := by decide
  client i := by
    by_cases hi : i = 0
    · subst hi
      decide
    · rw [clientCall_of_ne_zero hi]
      exact List.nil_prefix
  network := (Option.some_get _).symm
  fresh := fresh_visit _ (by simp [speaks, leaves, Server.sends])

/-! ## Whole runs -/

/-- In every interleaving of the calls of the server and of its clients, and whatever the network does,
each client shows at every moment some of what the server has said since it accepted that client, in
order and nothing twice. As long as no write to that client was cut short it is a beginning of it,
without a gap: then all clients see the same conversation, each from some point on. -/
theorem shown_prefix_said (hrun : Run e evs n) (i : Nat) :
    (shown i evs).Sublist (saidSince i evs).flatten ∧
    ((n.link i).down.cut = false → shown i evs <+: (saidSince i evs).flatten) ∧
    saidSince i evs <:+ said evs := by
  obtain ⟨hand, -, hrelayed⟩ := hrun.relayed i
  obtain ⟨f, -, hf⟩ := hrun.following i
  obtain ⟨delivered, hdelivered, hcarries⟩ := hf.carried
  have hgot : shown i evs <+: (n.link i).down.got := by
    rw [hrelayed.down]
    exact List.prefix_append _ _
  have hsaid : delivered.flatten <+: (saidSince i evs).flatten := by
    obtain ⟨rest, hrest⟩ := hdelivered
    rw [← hrest, List.flatten_append]
    exact List.prefix_append _ _
  exact ⟨(hgot.sublist.trans hcarries.got_sublist).trans hsaid.sublist,
    fun hwhole => (hgot.trans (hcarries.got_prefix hwhole)).trans hsaid, saidSince_suffix i evs⟩

/-- The visitor has shown `i`. -/
theorem visitor_shown : shown 0 visited = [105] ∧ shown 0 visited <+: (saidSince 0 visited).flatten :=
  ⟨by decide, (shown_prefix_said visit_run 0).2.1 (by decide)⟩

/-- Nothing that is said is lost: when the server is back at the head of its loop, all that it has said
since it accepted a client in its table has been handed to that client's connection, if no write there was cut
short. Once nothing is under way on it and the client has written what it read, the client has shown
exactly that. -/
theorem shown_eq_said (hrun : Run e evs n) {s i : Nat}
    (hserver : evs.filterMap Event.serverCall = e.serverTrace)
    (hrunning : ((Server.pollLoop e.socketFd e.answers).final
      (Server.initial e.socketFd e.stack)).running = true)
    (hslot : ((Server.pollLoop e.socketFd e.answers).final
      (Server.initial e.socketFd e.stack)).Occupied s)
    (hpeer : n.peer (((Server.pollLoop e.socketFd e.answers).final
      (Server.initial e.socketFd e.stack)).pollt s).fd = some i)
    (hwhole : (n.link i).down.cut = false) :
    (n.link i).down.written = (saidSince i evs).flatten ∧
    ((n.link i).down.unread = [] → evs.filterMap (Event.clientCall i) = e.clientTrace i →
      shown i evs = (saidSince i evs).flatten) := by
  obtain ⟨f, hfeed, hf⟩ := hrun.following i
  obtain ⟨final, hfinal, w, hw, hinv, hserved⟩ := Server.pollLoop_broadcasting
    (Server.initial_broadcasting e.socketFd e.stack) hrun.fresh
  -- at the end of its calls the server has delivered the whole log
  obtain rfl : f = final := by
    rw [hserver] at hfeed
    exact Option.some.inj (hfeed.symm.trans hfinal)
  obtain ⟨k, delivered, hk, heq, hcarries⟩ := hf.cursor _ hpeer
  obtain rfl : k = f.log.length := Option.some.inj (hk.symm.trans (hserved hrunning s hslot))
  rw [List.drop_length, List.append_nil] at heq
  rw [← heq] at hcarries
  refine ⟨hcarries.whole hwhole, fun hunread hclient => ?_⟩
  obtain ⟨hand, hhand, hrelayed⟩ := hrun.relayed i
  obtain ⟨last, hlast, hempty⟩ := Client.trace_relays e.inetAddr e.atoi (e.clients i)
  obtain rfl : hand = last := by
    rw [hclient] at hhand
    exact Option.some.inj (hhand.symm.trans hlast)
  have hdown : hand.down = [] := by rcases hempty with rfl | rfl <;> rfl
  have hgot := hrelayed.down
  rw [hdown, List.append_nil, hcarries.got_eq hwhole hunread] at hgot
  exact hgot.symm

/-- The visitor has shown all that was said. -/
theorem visitor_shown_all : shown 0 visited = (saidSince 0 visited).flatten :=
  (shown_eq_said (s := 2) visit_run (by decide) (by decide) (by decide) (by decide) (by decide)).2
    (by decide) (by decide)

/-- What the server reads from a client is at every moment some of what that client's user has typed, in
order and nothing twice, and a beginning of it as long as no write of that client was cut short. As long
as no `read` on a client has failed, what the server has printed is what it has read, the message apart
that it is about to print: a shuffle of what its clients have typed. -/
theorem printed_prefix_typed (hrun : Run e evs n) :
    (∀ i, (heard i evs).Sublist (typed i evs)) ∧
    (∀ i, (n.link i).up.cut = false → heard i evs <+: typed i evs) ∧
    ((∀ fd k, .server (.read fd none) k ∉ evs) →
      printed evs <+: (messages evs).flatMap Prod.snd) := by
  refine ⟨fun i => ?_, fun i hwhole => ?_, fun hreads => ?_⟩
  · obtain ⟨hand, -, hrelayed⟩ := hrun.relayed i
    obtain ⟨sent, htyped, hcarries⟩ := hrelayed.up
    rw [← hrelayed.heard, htyped]
    exact hcarries.got_sublist.trans (List.sublist_append_left _ _)
  · obtain ⟨hand, -, hrelayed⟩ := hrun.relayed i
    obtain ⟨sent, htyped, hcarries⟩ := hrelayed.up
    rw [← hrelayed.heard, htyped]
    exact (hcarries.got_prefix hwhole).trans (List.prefix_append _ _)
  · obtain ⟨c, hc⟩ := hrun.printing
    cases c with
    | idle => exact (hc.idle rfl) ▸ List.prefix_refl _
    | holding data =>
      rw [← hc.holding data rfl]
      exact List.prefix_append _ _
    | failed =>
      obtain ⟨fd, k, hmem⟩ := hc.failed rfl
      exact absurd hmem (hreads fd k)

/-- The server has printed what the visitor typed. -/
theorem visitor_printed : printed (visited ++ farewell) = [104] ∧
    printed (visited ++ farewell) <+: (messages (visited ++ farewell)).flatMap Prod.snd :=
  ⟨by decide, (printed_prefix_typed farewell_run).2.2 (by simp [visited, farewell])⟩

/-- Once the server has read the end of the file from a client, it has read all that was typed there, if
no write of that client was cut short. -/
theorem heard_eq_typed_of_end (hrun : Run e evs n) {i : Nat} (hend : (i, []) ∈ messages evs)
    (hwhole : (n.link i).up.cut = false) : heard i evs = typed i evs := by
  obtain ⟨hand, -, hrelayed⟩ := hrun.relayed i
  obtain ⟨sent, htyped, hcarries⟩ := hrelayed.up
  obtain ⟨hleft, hunread⟩ := hrelayed.ended hend
  rw [hrelayed.left hleft] at htyped
  rw [← hrelayed.heard, hcarries.got_eq hwhole hunread, htyped]
  exact (List.append_nil _).symm

/-- The visitor has left, and all that it typed has been read. -/
theorem visitor_heard : heard 0 (visited ++ farewell) = typed 0 (visited ++ farewell) :=
  heard_eq_typed_of_end farewell_run (by decide) (by decide)

end SystemsProgramming.TcpSuite
