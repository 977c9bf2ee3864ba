import SystemsProgramming.TcpSuite.Proofs.RelayProofs
import SystemsProgramming.TcpSuite.System

/-!
# Proofs: what goes through the connection of one client

What a client has shown and holds for its standard output is what it got from the network, and what it
has typed is what it gave to the network and holds for it. On the other side the server has heard what
the network gave it. All this holds after every step of every run.
-/

namespace SystemsProgramming.TcpSuite

open Foundations

variable {e : Setting} {evs h : List Event} {n n' : Network} {ev : Event} {i j : Nat}
  {hand hand' : Client.Hand}

/-! ## What one event adds -/

theorem said_append (g h : List Event) : said (g ++ h) = said g ++ said h := List.filterMap_append ..

theorem messages_append (g h : List Event) : messages (g ++ h) = messages g ++ messages h :=
  List.filterMap_append ..

theorem heard_append (i : Nat) (g h : List Event) : heard i (g ++ h) = heard i g ++ heard i h := by
  rw [heard, messages_append, List.flatMap_append]
  rfl

theorem printed_append (g h : List Event) : printed (g ++ h) = printed g ++ printed h := by
  rw [printed, List.filterMap_append, List.flatMap_append]
  rfl

theorem shown_append (i : Nat) (g h : List Event) : shown i (g ++ h) = shown i g ++ shown i h := by
  rw [shown, List.filterMap_append, List.flatMap_append]
  rfl

theorem typed_append (i : Nat) (g h : List Event) : typed i (g ++ h) = typed i g ++ typed i h := by
  rw [typed, List.filterMap_append, List.flatMap_append]
  rfl

@[simp] theorem shown_server (i : Nat) (c : Server.Call) (k : Nat) : shown i [.server c k] = [] := rfl

@[simp] theorem typed_server (i : Nat) (c : Server.Call) (k : Nat) : typed i [.server c k] = [] := rfl

@[simp] theorem messages_client (i : Nat) (c : Client.Call) (k : Nat) : messages [.client i c k] = [] :=
  rfl

theorem shown_client (i : Nat) (c : Client.Call) (k : Nat) : shown i [.client i c k] = c.shown := by
  simp [shown, Event.clientCall]

theorem typed_client (i : Nat) (c : Client.Call) (k : Nat) : typed i [.client i c k] = c.typed := by
  simp [typed, Event.clientCall]

theorem shown_client_of_ne (c : Client.Call) (k : Nat) (hij : i ≠ j) : shown i [.client j c k] = [] := by
  simp [shown, Event.clientCall, Ne.symm hij]

theorem typed_client_of_ne (c : Client.Call) (k : Nat) (hij : i ≠ j) : typed i [.client j c k] = [] := by
  simp [typed, Event.clientCall, Ne.symm hij]

/-! ## What a step leaves alone -/

@[simp] theorem Network.setLink_self (n : Network) (i : Nat) (l : Link) : (n.setLink i l).link i = l :=
  Function.update_self ..

theorem Network.setLink_of_ne (n : Network) (l : Link) (hij : i ≠ j) :
    (n.setLink j l).link i = n.link i := Function.update_of_ne hij ..

@[simp] theorem Network.setLink_peer (n : Network) (i : Nat) (l : Link) : (n.setLink i l).peer = n.peer :=
  rfl

/-- A client's call is none of the server's descriptors' business. -/
theorem clientStep_peer {c : Client.Call} {k : Nat} (h : n.clientStep j c k = some n') :
    n'.peer = n.peer := by
  cases c with
  | connect fd server ret =>
    simp only [Network.clientStep] at h
    split_ifs at h <;> cases h <;> rfl
  | readSocket fd red =>
    cases red with
    | none => cases h; rfl
    | some data =>
      obtain ⟨down, -, rfl⟩ := Option.map_eq_some_iff.1 h
      rfl
  | _ => cases h; rfl

/-- Nor that of the other clients. -/
theorem clientStep_link_of_ne {c : Client.Call} {k : Nat} (h : n.clientStep j c k = some n')
    (hij : i ≠ j) : n'.link i = n.link i := by
  cases c with
  | connect fd server ret =>
    simp only [Network.clientStep] at h
    split_ifs at h <;> cases h
    · rfl
    · exact n.setLink_of_ne _ hij
  | readSocket fd red =>
    cases red with
    | none => cases h; rfl
    | some data =>
      obtain ⟨down, -, rfl⟩ := Option.map_eq_some_iff.1 h
      exact n.setLink_of_ne _ hij
  | writeSocket fd data => cases h; exact n.setLink_of_ne _ hij
  | close fd => cases h; exact n.setLink_of_ne _ hij
  | _ => cases h; rfl

/-- What the server's calls make of the connection of a client: an acceptance, a write to it, a read
from it, or nothing. -/
theorem serverStep_link {c : Server.Call} {k : Nat} (h : n.serverStep c k = some n') (i : Nat) :
    (n'.link i = n.link i ∧ ∀ fd data, c = .read fd (some data) → k ≠ i) ∨
    (∃ fd, c = .accept fd ∧ k = i ∧ n'.link i = { n.link i with stage := .accepted }) ∨
    (∃ fd data, c = .write fd data ∧ n.peer fd = some i ∧
      n'.link i = { n.link i with down := (n.link i).down.write data k }) ∨
    ∃ fd data up, c = .read fd (some data) ∧ k = i ∧ (n.link i).up.read data = some up ∧
      (data = [] → (n.link i).left = true ∧ (n.link i).up.unread = []) ∧
      n'.link i = { n.link i with up := up } := by
  cases c with
  | accept fd =>
    simp only [Network.serverStep] at h
    split_ifs at h
    cases h
    by_cases hk : k = i
    · subst hk
      exact Or.inr (Or.inl ⟨fd, rfl, rfl, Function.update_self ..⟩)
    · exact Or.inl ⟨Function.update_of_ne (Ne.symm hk) .., by simp⟩
  | write fd data =>
    cases h
    cases hpeer : n.peer fd with
    | none => exact Or.inl ⟨rfl, by simp⟩
    | some j =>
      by_cases hj : j = i
      · subst hj
        exact Or.inr (Or.inr (Or.inl ⟨fd, data, rfl, hpeer, n.setLink_self ..⟩))
      · exact Or.inl ⟨n.setLink_of_ne _ (Ne.symm hj), by simp⟩
  | read fd red =>
    cases red with
    | none =>
      cases h
      exact Or.inl ⟨rfl, by simp⟩
    | some data =>
      simp only [Network.serverStep] at h
      split_ifs at h with hguard
      obtain ⟨up, hup, rfl⟩ := Option.map_eq_some_iff.1 h
      by_cases hk : k = i
      · subst hk
        exact Or.inr (Or.inr (Or.inr ⟨fd, data, up, rfl, rfl, hup, hguard.2, n.setLink_self ..⟩))
      · exact Or.inl ⟨n.setLink_of_ne _ (Ne.symm hk), fun _ _ _ => hk⟩
  | _ =>
    cases h
    exact Or.inl ⟨rfl, by simp⟩

/-! ## The two directions -/

/-- What has gone through the connection `l` of client `i` after the events `h`. -/
structure Relayed (i : Nat) (h : List Event) (hand : Client.Hand) (l : Link) : Prop where
  down : l.down.got = shown i h ++ hand.down
  up : ∃ sent, typed i h = sent ++ hand.up ∧ l.up.Carries sent
  heard : l.up.got = heard i h
  left : l.left = true → hand = .gone
  ended : (i, []) ∈ messages h → l.left = true ∧ l.up.unread = []

theorem relayed_initial (i : Nat) : Relayed i [] .empty (Network.initial.link i) where
  down := rfl
  up := ⟨[], rfl, Channel.carries_empty⟩
  heard := rfl
  left hleft := by cases hleft
  ended hmem := by cases hmem

variable {l l' : Link}

/-- An event that moves no data of the client. -/
theorem Relayed.idle (hr : Relayed i h hand l) (hup : l'.up = l.up) (hdown : l'.down.got = l.down.got)
    (hleft : l'.left = l.left) (hshown : shown i [ev] = []) (htyped : typed i [ev] = [])
    (hmessages : ∀ m ∈ messages [ev], m.1 ≠ i) : Relayed i (h ++ [ev]) hand l' := by
  have hheard : TcpSuite.heard i [ev] = [] :=
    List.flatMap_eq_nil_iff.2 fun m hm => if_neg (hmessages m hm)
  constructor
  · rw [hdown, shown_append, hshown, List.append_nil, hr.down]
  · rw [hup, typed_append, htyped, List.append_nil]
    exact hr.up
  · rw [hup, heard_append, hheard, List.append_nil, hr.heard]
  · rw [hleft]
    exact hr.left
  · rw [hleft, hup, messages_append]
    intro hmem
    rcases List.mem_append.1 hmem with hmem | hmem
    · exact hr.ended hmem
    · exact absurd rfl (hmessages _ hmem)

/-- The server reads from the client. -/
theorem Relayed.read (hr : Relayed i h hand l) {fd : Int} {data : List UInt8} {up : Channel UInt8}
    (hup : l.up.read data = some up) (hend : data = [] → l.left = true ∧ l.up.unread = []) :
    Relayed i (h ++ [.server (.read fd (some data)) i]) hand { l with up := up } := by
  obtain ⟨sent, htyped, hcarries⟩ := hr.up
  obtain ⟨hwritten, -, hgot⟩ := Channel.read_eq_some hup
  constructor
  · rw [shown_append, shown_server, List.append_nil]
    exact hr.down
  · rw [typed_append, typed_server, List.append_nil]
    exact ⟨sent, htyped, hcarries.read hup⟩
  · rw [heard_append, ← hr.heard]
    exact hgot.trans (by simp [TcpSuite.heard, messages])
  · exact hr.left
  · intro hmem
    have hended : l.left = true ∧ l.up.unread = [] := by
      rw [messages_append] at hmem
      rcases List.mem_append.1 hmem with hmem | hmem
      · exact hr.ended hmem
      · exact hend (Prod.mk.inj (List.mem_singleton.1 hmem)).2.symm
    refine ⟨hended.1, ?_⟩
    show up.written.drop up.got.length = []
    have hdrop : l.up.written.drop l.up.got.length = [] := hended.2
    rw [hwritten, hgot, List.length_append, ← List.drop_drop, hdrop, List.drop_nil]

theorem Relayed.server {c : Server.Call} {k : Nat} (hr : Relayed i h hand (n.link i))
    (hn : n.serverStep c k = some n') : Relayed i (h ++ [.server c k]) hand (n'.link i) := by
  rcases serverStep_link hn i with ⟨hlink, hother⟩ | ⟨fd, rfl, rfl, hlink⟩ |
    ⟨fd, data, rfl, -, hlink⟩ | ⟨fd, data, up, rfl, rfl, hup, hend, hlink⟩
  · rw [hlink]
    refine hr.idle rfl rfl rfl rfl rfl fun m hm => ?_
    cases c with
    | read fd red =>
      cases red with
      | none => cases hm
      | some data =>
        obtain rfl := List.mem_singleton.1 hm
        exact hother fd data rfl
    | _ => cases hm
  · rw [hlink]
    exact hr.idle rfl rfl rfl rfl rfl fun m hm => by cases hm
  · rw [hlink]
    exact hr.idle rfl (Channel.got_write ..) rfl rfl rfl fun m hm => by cases hm
  · rw [hlink]
    exact hr.read hup hend

/-- A client that is still there makes a call. The server cannot have found the end of the file yet. -/
theorem Relayed.move (hr : Relayed i h hand l) (hhand : hand ≠ .gone) (c : Client.Call) (k : Nat)
    (hgot : l'.up.got = l.up.got) (hdown : l'.down.got = shown i h ++ (c.shown ++ hand'.down))
    (hup : ∃ sent, typed i h ++ c.typed = sent ++ hand'.up ∧ l'.up.Carries sent)
    (hleft : l'.left = true → l.left = true ∨ hand' = .gone) :
    Relayed i (h ++ [.client i c k]) hand' l' := by
  have hhere : l.left ≠ true := fun hleft => hhand (hr.left hleft)
  constructor
  · rw [shown_append, shown_client, List.append_assoc, hdown]
  · rw [typed_append, typed_client]
    exact hup
  · rw [hgot, hr.heard, heard_append]
    exact (List.append_nil _).symm
  · exact fun h => (hleft h).resolve_left hhere
  · intro hmem
    rw [messages_append, messages_client, List.append_nil] at hmem
    exact absurd (hr.ended hmem).1 hhere

theorem Relayed.client {c : Client.Call} {k : Nat} (hr : Relayed i h hand (n.link i))
    (hn : n.clientStep i c k = some n') (hh : Client.relayNext hand c = some hand') :
    Relayed i (h ++ [.client i c k]) hand' (n'.link i) := by
  obtain ⟨sent, htyped, hcarries⟩ := hr.up
  have hdown := hr.down
  rcases Client.relayNext_cases hh with ⟨fd, red, rfl, rfl, rfl⟩ | ⟨red, rfl, rfl, rfl⟩ |
    ⟨data, rfl, rfl, rfl⟩ | ⟨fd, data, rfl, rfl, rfl⟩ | ⟨fd, rfl, rfl, rfl⟩ | ⟨rfl, rfl, hc⟩
  · -- what it gets from the network is in its hand
    have hlink : (n'.link i).up = (n.link i).up ∧ (n'.link i).left = (n.link i).left ∧
        (n'.link i).down.got = (n.link i).down.got ++ red.getD [] := by
      cases red with
      | none =>
        cases hn
        exact ⟨rfl, rfl, (List.append_nil _).symm⟩
      | some data =>
        obtain ⟨down, hread, rfl⟩ := Option.map_eq_some_iff.1 hn
        rw [n.setLink_self]
        exact ⟨rfl, rfl, (Channel.read_eq_some hread).2.2⟩
    refine hr.move (by simp) _ _ (by rw [hlink.1]) ?_ ⟨sent, ?_, hlink.1 ▸ hcarries⟩
      fun h => Or.inl (hlink.2.1 ▸ h)
    · rw [hlink.2.2, hdown, Client.down_elim_received]
      simp [Client.Call.shown, Client.Hand.down]
    · rw [htyped, Client.up_elim_received_forStdout]
      simp [Client.Call.typed, Client.Hand.up]
  · -- and so is what its user types
    obtain rfl : n = n' := Option.some.inj hn
    refine hr.move (by simp) _ _ rfl ?_ ⟨sent, ?_, hcarries⟩ Or.inl
    · rw [hdown, Client.down_elim_received_forSocket]
      simp [Client.Call.shown, Client.Hand.down]
    · rw [htyped, Client.up_elim_received]
      cases red <;> simp [Client.Call.typed, Client.Hand.up]
  · obtain rfl : n = n' := Option.some.inj hn
    refine hr.move (by simp) _ _ rfl ?_ ⟨sent, ?_, hcarries⟩ Or.inl
    · simp [hdown, Client.Call.shown, Client.Hand.down]
    · simp [htyped, Client.Call.typed, Client.Hand.up]
  · cases hn
    rw [n.setLink_self]
    refine hr.move (by simp) _ _ (Channel.got_write ..) ?_ ⟨sent ++ data, ?_, hcarries.write data k⟩
      Or.inl
    · simp [hdown, Client.Call.shown, Client.Hand.down]
    · simp [htyped, Client.Call.typed, Client.Hand.up]
  · cases hn
    rw [n.setLink_self]
    refine hr.move (by simp) _ _ rfl ?_ ⟨sent, ?_, hcarries⟩ fun _ => Or.inr rfl
    · simp [hdown, Client.Call.shown, Client.Hand.down]
    · simp [htyped, Client.Call.typed, Client.Hand.up]
  · have hsilent : c.shown = [] ∧ c.typed = [] := by
      rcases hc with ⟨_, rfl⟩ | ⟨_, _, _, rfl⟩ | ⟨_, rfl⟩ | ⟨_, rfl⟩ <;> exact ⟨rfl, rfl⟩
    have hlink : (n'.link i).up = (n.link i).up ∧ (n'.link i).left = (n.link i).left ∧
        (n'.link i).down = (n.link i).down := by
      rcases hc with ⟨_, rfl⟩ | ⟨_, _, _, rfl⟩ | ⟨_, rfl⟩ | ⟨_, rfl⟩
      · cases hn
        exact ⟨rfl, rfl, rfl⟩
      · simp only [Network.clientStep] at hn
        split_ifs at hn <;> cases hn
        · exact ⟨rfl, rfl, rfl⟩
        · rw [n.setLink_self]
          exact ⟨rfl, rfl, rfl⟩
      · cases hn
        exact ⟨rfl, rfl, rfl⟩
      · cases hn
        exact ⟨rfl, rfl, rfl⟩
    refine hr.move (by simp) _ _ (by rw [hlink.1]) ?_ ⟨sent, ?_, hlink.1 ▸ hcarries⟩
      fun h => Or.inl (hlink.2.1 ▸ h)
    · simp [hlink.2.2, hdown, hsilent.1]
    · simp [htyped, hsilent.2]

/-- One event. -/
theorem Relayed.step (hr : Relayed i h hand (n.link i)) (hn : n.step ev = some n')
    (hh : onOwn (Event.clientCall i) Client.relayNext hand ev = some hand') :
    Relayed i (h ++ [ev]) hand' (n'.link i) := by
  cases ev with
  | server c k =>
    obtain rfl := Option.some.inj hh
    exact hr.server hn
  | client j c k =>
    by_cases hij : i = j
    · subst hij
      rw [onOwn, Event.clientCall, if_pos rfl] at hh
      exact hr.client hn hh
    · rw [onOwn, Event.clientCall, if_neg (Ne.symm hij)] at hh
      obtain rfl := Option.some.inj hh
      rw [clientStep_link_of_ne hn hij]
      exact hr.idle rfl rfl rfl (shown_client_of_ne c k hij) (typed_client_of_ne c k hij)
        fun m hm => by cases hm

/-- Whole runs. -/
theorem Run.relayed (hrun : Run e evs n) (i : Nat) :
    ∃ hand, replay Client.relayNext .empty (evs.filterMap (Event.clientCall i)) = some hand ∧
      Relayed i evs hand (n.link i) := by
  obtain ⟨final, hfinal, -⟩ := Client.trace_relays e.inetAddr e.atoi (e.clients i)
  obtain ⟨hand, hhand⟩ := replay_prefix (hrun.client i) hfinal
  refine ⟨hand, hhand, ?_⟩
  rw [← replay_onOwn] at hhand
  refine replay_history (I := fun h (s : Client.Hand × Network) => Relayed i h s.1 (s.2.link i))
    (relayed_initial i) (fun h s ev s' hr hs => ?_) (replay_both hhand hrun.network)
  obtain ⟨hand0, n0⟩ := s
  obtain ⟨hand1, n1⟩ := s'
  obtain ⟨h1, h2⟩ := both_eq_some.1 hs
  exact hr.step h2 h1

end SystemsProgramming.TcpSuite
