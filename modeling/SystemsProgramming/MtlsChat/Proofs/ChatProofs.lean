import SystemsProgramming.MtlsChat.Proofs.BroadcastProofs
import SystemsProgramming.MtlsChat.Proofs.RelayProofs

/-!
# Proofs: the chat

What the users can rely on, in every interleaving of the calls of the server and its clients. A message
arrives as it was typed: never in part, never together with another, never twice and never before one
that was typed earlier. The server hears everything that a client's user types, as long as no `SSL_write`
of that client fails. A client shows what is said after its handshake; it misses something only if an
`SSL_write` to it fails, or when a client has left and `nfds` hides it.
-/

namespace SystemsProgramming.MtlsChat

open Foundations

variable {e : Setting} {evs h : List Event} {n n' : Network} {ev : Event} {i j : Nat}
  {hand hand' : Client.Hand} {console console' : Server.Console} {b b' : Server.Board}

/-! ## What one event adds -/

theorem said_append (g h : List Event) : said (g ++ h) = said g ++ said h := List.filterMap_append ..

theorem heard_append (i : Nat) (g h : List Event) : heard i (g ++ h) = heard i g ++ heard i h :=
  List.filterMap_append ..

theorem typed_append (i : Nat) (g h : List Event) : typed i (g ++ h) = typed i g ++ typed i h := by
  rw [typed, List.filterMap_append, List.filterMap_append]
  rfl

theorem shown_append (i : Nat) (g h : List Event) : shown i (g ++ h) = shown i g ++ shown i h := by
  rw [shown, List.filterMap_append, List.filterMap_append]
  rfl

theorem typed_client (i : Nat) (c : Client.Call) : typed i [.client i c] = c.typed.toList := by
  cases htyped : c.typed <;> simp [typed, Event.clientCall, htyped]

theorem shown_client (i : Nat) (c : Client.Call) : shown i [.client i c] = c.shown.toList := by
  cases hshown : c.shown <;> simp [shown, Event.clientCall, hshown]

theorem typed_client_of_ne (c : Client.Call) (hij : i ≠ j) : typed i [.client j c] = [] := by
  simp [typed, Event.clientCall, Ne.symm hij]

theorem shown_client_of_ne (c : Client.Call) (hij : i ≠ j) : shown i [.client j c] = [] := by
  simp [shown, Event.clientCall, Ne.symm hij]

theorem typed_append_server (i : Nat) (h : List Event) (c : Server.Call) (j : Nat) :
    typed i (h ++ [.server c j]) = typed i h := by
  rw [typed_append]
  exact List.append_nil _

theorem shown_append_server (i : Nat) (h : List Event) (c : Server.Call) (j : Nat) :
    shown i (h ++ [.server c j]) = shown i h := by
  rw [shown_append]
  exact List.append_nil _

theorem heard_append_client (i : Nat) (h : List Event) (j : Nat) (c : Client.Call) :
    heard i (h ++ [.client j c]) = heard i h := by
  rw [heard_append]
  exact List.append_nil _

theorem UpIntact.of_append (h' : UpIntact i (h ++ [ev])) : UpIntact i h :=
  fun data ret hmem => h' data ret (List.mem_append_left _ hmem)

theorem DownIntact.of_append (h' : DownIntact i (h ++ [ev])) : DownIntact i h :=
  fun slot o data ret hmem => h' slot o data ret (List.mem_append_left _ hmem)

/-! ## What a step leaves alone -/

@[simp] theorem Network.setLink_self (n : Network) (i : Nat) (l : Link) : (n.setLink i l).link i = l :=
  Function.update_self ..

theorem Network.setLink_of_ne (n : Network) (l : Link) (hij : i ≠ j) :
    (n.setLink j l).link i = n.link i := Function.update_of_ne hij ..

/-- A client's call concerns its own connection only. -/
theorem clientStep_of_ne {c : Client.Call} (h : n.clientStep j c = some n') :
    n'.peer = n.peer ∧ n'.reading = n.reading ∧ (i ≠ j → n'.link i = n.link i) := by
  cases c with
  | sslRead ret =>
    obtain ⟨down, -, rfl⟩ := Option.map_eq_some_iff.1 h
    exact ⟨rfl, rfl, n.setLink_of_ne _⟩
  | writeStdout data =>
    obtain ⟨down, -, rfl⟩ := Option.map_eq_some_iff.1 h
    exact ⟨rfl, rfl, n.setLink_of_ne _⟩
  | sslWrite data ret =>
    cases h
    exact ⟨rfl, rfl, n.setLink_of_ne _⟩
  | _ =>
    cases h
    exact ⟨rfl, rfl, fun _ => rfl⟩

/-! ## From a client to the server -/

/-- The message that a client has in its hand. -/
def Client.Hand.message : Client.Hand → Option (List UInt8)
  | .toSend message => some message
  | _ => none

/-- What has gone from client `i` to the server after the events `h`. -/
structure Upward (i : Nat) (h : List Event) (hand : Client.Hand) (console : Server.Console)
    (n : Network) : Prop where
  carries : ∃ given, typed i h = given ++ hand.message.toList ∧ (n.link i).up.Carries given (heard i h)
  buffer : (n.link i).up.failed = false → (n.link i).up.buffer ≠ none → n.reading = some i
  reading : n.reading ≠ none → console = true
  intact : UpIntact i h → (n.link i).up.failed = false

theorem upward_initial (i : Nat) : Upward i [] .empty false .initial where
  carries := ⟨[], rfl, RecordLine.carries_empty⟩
  buffer _ hb := absurd rfl hb
  reading hr := absurd rfl hr
  intact _ := rfl

/-- An event that moves no data of the client. -/
theorem Upward.idle (hu : Upward i h hand console n) (hup : (n'.link i).up = (n.link i).up)
    (hbuffer : (n.link i).up.buffer ≠ none → n.reading = some i → n'.reading = some i)
    (hreading : n'.reading ≠ none → console' = true) (htyped : typed i [ev] = [])
    (hheard : heard i [ev] = []) : Upward i (h ++ [ev]) hand console' n' := by
  refine ⟨?_, ?_, hreading, ?_⟩
  · rw [typed_append, htyped, heard_append, hheard, List.append_nil, List.append_nil, hup]
    exact hu.carries
  · rw [hup]
    exact fun hfailed hb => hbuffer hb (hu.buffer hfailed hb)
  · rw [hup]
    exact fun hintact => hu.intact hintact.of_append

/-- The server reads from the client, with nothing in its buffer. -/
theorem Upward.read (hu : Upward i h hand console n) {slot : Nat} {o : Option Ssl} {ret : Int}
    (hnone : n.reading = none) (hup : (n.link i).up.read tlsRecordSize ret = some (n'.link i).up)
    (hreading : n'.reading = some i) :
    Upward i (h ++ [.server (.sslRead slot o ret) i]) hand true n' := by
  have hempty : (n.link i).up.failed = false → (n.link i).up.buffer = none := by
    intro hfailed
    by_contra hb
    rw [hu.buffer hfailed hb] at hnone
    cases hnone
  obtain ⟨given, htyped, hcarries⟩ := hu.carries
  have hsame := (RecordLine.read_eq_some maxPlaintext_eq.le hup).1
  refine ⟨⟨given, ?_, ?_⟩, fun _ _ => hreading, fun _ => rfl, fun hintact => ?_⟩
  · rw [typed_append_server]
    exact htyped
  · rw [heard_append]
    exact (List.append_nil (heard i h)).symm ▸ hcarries.read hempty maxPlaintext_eq.le hup
  · rw [hsame]
    exact hu.intact hintact.of_append

/-- The server shows what it has read. -/
theorem Upward.emit (hu : Upward i h hand console n) {data : List UInt8}
    (hup : (n.link i).up.emit data = some (n'.link i).up) (hreading : n'.reading = none) :
    Upward i (h ++ [.server (.writeStdout data) i]) hand false n' := by
  have hone : heard i [.server (.writeStdout data) i] = [data] := by simp [heard]
  obtain ⟨given, htyped, hcarries⟩ := hu.carries
  obtain ⟨hsame, hcases⟩ := RecordLine.emit_eq_some hup
  refine ⟨⟨given, ?_, ?_⟩, fun hfailed hb => ?_, fun hr => absurd hreading hr, fun hintact => ?_⟩
  · rw [typed_append_server]
    exact htyped
  · rw [heard_append, hone]
    exact hcarries.emit hup
  · exact absurd (hcases (hsame ▸ hfailed)).2.1 hb
  · rw [hsame]
    exact hu.intact hintact.of_append

/-- A call of the server that is neither a read from a client nor shows anything leaves what the clients
send as it is. -/
theorem serverStep_up {c : Server.Call} (hn : n.serverStep c j = some n')
    (hread : ∀ slot o ret, c ≠ .sslRead slot o ret) (hshow : ∀ data, c ≠ .writeStdout data) :
    n'.reading = n.reading ∧ (n'.link i).up = (n.link i).up := by
  have hlink : ∀ l : Link, l.up = (n.link j).up → ((n.setLink j l).link i).up = (n.link i).up := by
    intro l hl
    by_cases hij : i = j
    · rw [hij, n.setLink_self, hl]
    · rw [n.setLink_of_ne l hij]
  cases c with
  | accept fd =>
    simp only [Network.serverStep, Option.ite_none_right_eq_some, Option.some.injEq] at hn
    obtain ⟨-, rfl⟩ := hn
    exact ⟨rfl, hlink { n.link j with stage := .accepted } rfl⟩
  | sslSetFd o fd ret =>
    cases o with
    | none =>
      cases hn
      exact ⟨rfl, rfl⟩
    | some o =>
      simp only [Network.serverStep] at hn
      split_ifs at hn <;> cases hn <;> exact ⟨rfl, rfl⟩
  | sslAccept o ret =>
    cases o with
    | none =>
      cases hn
      exact ⟨rfl, rfl⟩
    | some o =>
      simp only [Network.serverStep] at hn
      split_ifs at hn <;> cases hn
      · exact ⟨rfl, rfl⟩
      · exact ⟨rfl, hlink { n.link j with stage := .secured } rfl⟩
  | sslFree caller o =>
    cases o <;> cases hn <;> exact ⟨rfl, rfl⟩
  | sslWrite slot o data ret =>
    cases o with
    | none =>
      cases hn
      exact ⟨rfl, rfl⟩
    | some o =>
      simp only [Network.serverStep] at hn
      split_ifs at hn <;> cases hn
      · exact ⟨rfl, hlink { n.link j with down := (n.link j).down.write data ret } rfl⟩
      · exact ⟨rfl, rfl⟩
  | sslRead slot o ret => exact absurd rfl (hread slot o ret)
  | writeStdout data => exact absurd rfl (hshow data)
  | _ =>
    cases hn
    exact ⟨rfl, rfl⟩

theorem Upward.server (hu : Upward i h hand console n) {c : Server.Call}
    (hn : n.serverStep c j = some n') (hc : Server.showNext console c = some console') :
    Upward i (h ++ [.server c j]) hand console' n' := by
  rcases Server.showNext_cases hc with ⟨slot, o, ret, rfl, rfl, rfl⟩ | ⟨data, rfl, rfl, rfl⟩ |
    ⟨rfl, rfl, hread, hshow⟩
  · have hnone : n.reading = none := by
      by_contra hsome
      cases hu.reading hsome
    have hstay : Upward i (h ++ [.server (.sslRead slot o ret) j]) hand (decide (0 < ret)) n :=
      hu.idle rfl (fun _ => id) (fun hr => absurd hnone hr) rfl rfl
    cases o with
    | none =>
      obtain rfl := Option.some.inj hn
      exact hstay
    | some o =>
      simp only [Network.serverStep] at hn
      split_ifs at hn with hret
      · obtain rfl := Option.some.inj hn
        exact hstay
      · rw [decide_eq_true (Int.not_le.1 hret)]
        obtain ⟨up, hup, rfl⟩ := Option.map_eq_some_iff.1 hn
        by_cases hij : i = j
        · subst hij
          exact hu.read hnone (by simp [hup]) rfl
        · refine hu.idle (congrArg Link.up (n.setLink_of_ne _ hij)) (fun _ hr => ?_) (fun _ => rfl) rfl rfl
          rw [hnone] at hr
          cases hr
  · simp only [Network.serverStep, Option.ite_none_right_eq_some] at hn
    obtain ⟨hreading, hn⟩ := hn
    obtain ⟨up, hup, rfl⟩ := Option.map_eq_some_iff.1 hn
    by_cases hij : i = j
    · subst hij
      exact hu.emit (by simp [hup]) rfl
    · refine hu.idle (congrArg Link.up (n.setLink_of_ne _ hij)) (fun _ hr => ?_)
        (fun hr => absurd rfl hr) rfl ?_
      · exact absurd (Option.some.inj (hr.symm.trans hreading)) hij
      · simp [heard, Ne.symm hij]
  · obtain ⟨hreading, hup⟩ := serverStep_up (i := i) hn hread hshow
    refine hu.idle hup (fun _ hr => hreading.trans hr) (fun hr => ?_) rfl ?_
    · rw [hreading] at hr
      exact hu.reading hr
    · cases c with
      | writeStdout data => exact absurd rfl (hshow data)
      | _ => rfl

/-- The client makes a call. -/
theorem Upward.client (hu : Upward i h hand console n) {c : Client.Call}
    (hn : n.clientStep i c = some n') (hc : Client.relayNext hand c = some hand') :
    Upward i (h ++ [.client i c]) hand' console n' := by
  obtain ⟨given, htyped, hcarries⟩ := hu.carries
  have hreading := (clientStep_of_ne (i := i) hn).2.1
  have hheard := heard_append_client i h i c
  -- a call other than `SSL_write` moves nothing to the server
  have hstay : (n'.link i).up = (n.link i).up →
      hand.message.toList ++ c.typed.toList = hand'.message.toList →
      Upward i (h ++ [.client i c]) hand' console n' := by
    intro hup hmessage
    refine ⟨⟨given, ?_, ?_⟩, ?_, hreading ▸ hu.reading, ?_⟩
    · rw [typed_append, typed_client, htyped, List.append_assoc, hmessage]
    · rw [hheard, hup]
      exact hcarries
    · rw [hup, hreading]
      exact hu.buffer
    · rw [hup]
      exact fun hintact => hu.intact hintact.of_append
  rcases Client.relayNext_cases hc with ⟨red, rfl, rfl, rfl⟩ | ⟨data, ret, rfl, rfl, hne, hfits, rfl⟩ |
    ⟨ret, rfl, rfl, rfl⟩ | ⟨data, rfl, rfl, rfl⟩ | ⟨rfl, rfl, hother⟩
  · obtain rfl := Option.some.inj hn
    refine hstay rfl ?_
    cases hred : received red <;> simp [Client.Hand.message, Client.Call.typed, hred]
  · obtain rfl := Option.some.inj hn
    refine ⟨⟨given ++ [data], ?_, ?_⟩, ?_, hu.reading, fun hintact => ?_⟩
    · rw [typed_append, typed_client, htyped]
      simp [Client.Hand.message, Client.Call.typed]
    · rw [n.setLink_self, hheard]
      exact hcarries.write hne hfits
    · rw [n.setLink_self]
      intro hfailed
      exact hu.buffer (Bool.or_eq_false_iff.1 hfailed).1
    · have hret := hintact data ret (List.mem_append_right _ List.mem_cons_self)
      rw [n.setLink_self, RecordLine.failed_write, hu.intact hintact.of_append,
        decide_eq_false (Int.not_le.2 hret)]
      rfl
  · obtain ⟨down, -, rfl⟩ := Option.map_eq_some_iff.1 hn
    refine hstay (by rw [n.setLink_self]) ?_
    split <;> rfl
  · obtain ⟨down, -, rfl⟩ := Option.map_eq_some_iff.1 hn
    exact hstay (by rw [n.setLink_self]) rfl
  · rcases hother with ⟨text, rfl⟩ | rfl | ⟨status, rfl⟩ <;>
    · obtain rfl := Option.some.inj hn
      exact hstay rfl rfl

/-- One event. -/
theorem Upward.step (hu : Upward i h hand console n) (hn : n.step ev = some n')
    (hh : onOwn (Event.clientCall i) Client.relayNext hand ev = some hand')
    (hc : onOwn Event.serverCall Server.showNext console ev = some console') :
    Upward i (h ++ [ev]) hand' console' n' := by
  cases ev with
  | server c j =>
    obtain rfl := Option.some.inj hh
    exact hu.server hn hc
  | client j c =>
    obtain rfl := Option.some.inj hc
    by_cases hij : i = j
    · subst hij
      rw [onOwn, Event.clientCall, if_pos rfl] at hh
      exact hu.client hn hh
    · rw [onOwn, Event.clientCall, if_neg (Ne.symm hij)] at hh
      obtain rfl := Option.some.inj hh
      obtain ⟨-, hreading, hlink⟩ := clientStep_of_ne (i := i) hn
      refine hu.idle (by rw [hlink hij]) (fun _ hr => hreading.trans hr) (fun hr => ?_)
        (typed_client_of_ne c hij) rfl
      rw [hreading] at hr
      exact hu.reading hr

/-- Whole runs. -/
theorem Run.upward (hrun : Run e evs n) (i : Nat) : ∃ hand console,
    replay Client.relayNext .empty (evs.filterMap (Event.clientCall i)) = some hand ∧
    replay Server.showNext false (evs.filterMap Event.serverCall) = some console ∧
    Upward i evs hand console n := by
  obtain ⟨hand, hhand⟩ := replay_prefix (hrun.client i) (Client.pollLoop_relays _ _)
  obtain ⟨console, hconsole⟩ := replay_prefix hrun.server (Server.pollLoop_shows _ _)
  refine ⟨hand, console, hhand, hconsole, ?_⟩
  rw [← replay_onOwn] at hhand hconsole
  refine replay_history (I := fun h (s : (Client.Hand × Server.Console) × Network) =>
    Upward i h s.1.1 s.1.2 s.2) (upward_initial i) (fun h s ev s' hu hs => ?_)
    (replay_both (replay_both hhand hconsole) hrun.network)
  obtain ⟨⟨hand0, console0⟩, n0⟩ := s
  obtain ⟨⟨hand1, console1⟩, n1⟩ := s'
  obtain ⟨hboth, hn⟩ := both_eq_some.1 hs
  obtain ⟨hh, hc⟩ := both_eq_some.1 hboth
  exact hu.step hn hh hc

/-! ## From the server to a client -/

/-- The handshake of client `i` has succeeded. -/
def Secured (i : Nat) (h : List Event) : Prop := ∃ ev ∈ h, secures i ev = true

theorem secured_append_singleton : Secured i (h ++ [ev]) ↔ Secured i h ∨ secures i ev = true := by
  simp [Secured, or_and_right, exists_or]

/-- An event that is no handshake of the client. -/
theorem secured_append_of_eq_false (hev : secures i ev = false) : Secured i (h ++ [ev]) ↔ Secured i h := by
  rw [secured_append_singleton]
  exact or_iff_left (by simp [hev])

theorem secures_eq_false_of_mem (hs : ¬ Secured i h) : ∀ ev ∈ h, secures i ev = false := by
  intro ev hev
  by_contra hyes
  exact hs ⟨ev, hev, by simpa using hyes⟩

theorem saidSince_of_not_secured (hs : ¬ Secured i h) : saidSince i h = [] := by
  rw [saidSince, since_of_not_mem (secures_eq_false_of_mem hs)]
  rfl

/-- From its handshake on, a client is concerned by all that is said. -/
theorem saidSince_append_of_secured (hs : Secured i h) (g : List Event) :
    saidSince i (h ++ g) = saidSince i h ++ said g := by
  rw [saidSince, since_append_of_mem hs, said_append]
  rfl

/-- An event in which nothing is said. -/
theorem saidSince_append_of_silent (hsaid : said [ev] = []) :
    saidSince i (h ++ [ev]) = saidSince i h := by
  by_cases hs : Secured i h
  · rw [saidSince_append_of_secured hs, hsaid, List.append_nil]
  · rw [saidSince_of_not_secured hs, saidSince, since_append_of_not_mem (secures_eq_false_of_mem hs)]
    exact List.sublist_nil.1 (hsaid ▸ (since_suffix _ _).sublist.filterMap _)

/-- What has gone from the server to client `i` after the events `h`. -/
structure Downward (i : Nat) (h : List Event) (hand : Client.Hand) (b : Server.Board) (n : Network) :
    Prop where
  secured : (n.link i).stage = .secured ↔ Secured i h
  peer : ∀ o, n.peer o = some i → Secured i h
  unique : ∀ o o', n.peer o = some i → n.peer o' = some i → o = o'
  given : ∃ given, (n.link i).down.Carries given (shown i h) ∧ given.Sublist (saidSince i h) ∧
    (b.someLeft = false → given <+: saidSince i h) ∧
    ∀ o, n.peer o = some i → ∃ k passed, b.feed.cursor o = some k ∧
      saidSince i h = passed ++ b.feed.log.drop k ∧ given.Sublist passed ∧
      (b.someLeft = false → given = passed)
  buffer : (n.link i).down.failed = false → (n.link i).down.buffer ≠ none → hand = .toShow
  intact : DownIntact i h → (n.link i).down.failed = false

theorem downward_initial (i : Nat) : Downward i [] .empty .initial .initial where
  secured := ⟨fun hs => (by cases hs), fun ⟨_, hev, _⟩ => (by cases hev)⟩
  peer o ho := by cases ho
  unique o o' ho := by cases ho
  given := ⟨[], RecordLine.carries_empty, List.Sublist.refl _, fun _ => List.prefix_refl _,
    fun o ho => by cases ho⟩
  buffer _ hb := absurd rfl hb
  intact _ := rfl

/-- An event that says nothing, and moves nothing to the client. -/
theorem Downward.idle (hd : Downward i h hand b n) (hsecures : secures i ev = false)
    (hsaid : said [ev] = []) (hshown : shown i [ev] = [])
    (hstage : (n'.link i).stage = .secured ↔ (n.link i).stage = .secured)
    (hdown : (n'.link i).down = (n.link i).down)
    (hpeer : ∀ o, n'.peer o = some i → n.peer o = some i ∧ b'.feed.cursor o = b.feed.cursor o)
    (hlog : b'.feed.log = b.feed.log) (hleft : b'.someLeft = false → b.someLeft = false)
    (hhand : hand = .toShow → hand' = .toShow) : Downward i (h ++ [ev]) hand' b' n' := by
  have hsec := secured_append_of_eq_false (h := h) hsecures
  have hsince := saidSince_append_of_silent (h := h) (i := i) hsaid
  refine ⟨by rw [hstage, hsec, hd.secured], fun o ho => hsec.2 (hd.peer o (hpeer o ho).1),
    fun o o' ho ho' => hd.unique o o' (hpeer o ho).1 (hpeer o' ho').1, ?_, ?_, ?_⟩
  · obtain ⟨given, hcarries, hsub, hpre, hcursor⟩ := hd.given
    refine ⟨given, ?_, hsince ▸ hsub, fun hno => hsince ▸ hpre (hleft hno), fun o ho => ?_⟩
    · rw [hdown, shown_append, hshown, List.append_nil]
      exact hcarries
    · obtain ⟨hold, hsame⟩ := hpeer o ho
      obtain ⟨k, passed, hk, heq, hpassed, hall⟩ := hcursor o hold
      exact ⟨k, passed, hsame.trans hk, by rw [hsince, hlog, heq], hpassed, fun hno => hall (hleft hno)⟩
  · rw [hdown]
    exact fun hfailed hb => hhand (hd.buffer hfailed hb)
  · rw [hdown]
    exact fun hintact => hd.intact hintact.of_append

/-- The handshake of the client succeeds. -/
theorem Downward.secure (hd : Downward i h hand b n) {o : Ssl} {ret : Int} (hret : 0 < ret)
    (hstage : (n.link i).stage = .accepted) :
    Downward i (h ++ [.server (.sslAccept (some o) ret) i]) hand { b with feed := b.feed.join o }
      { n.setLink i { n.link i with stage := .secured } with
        peer := Function.update n.peer o (some i) } := by
  have hnot : ¬ Secured i h := by
    rw [← hd.secured, hstage]
    simp
  have hsec : Secured i (h ++ [.server (.sslAccept (some o) ret) i]) :=
    secured_append_singleton.2 (Or.inr (by simp [secures, hret]))
  have hpeer : ∀ o', Function.update n.peer o (some i) o' = some i → o' = o := by
    intro o' ho'
    by_contra hne
    rw [Function.update_of_ne hne] at ho'
    exact hnot (hd.peer o' ho')
  have hsince : saidSince i (h ++ [.server (.sslAccept (some o) ret) i]) = [] := by
    rw [saidSince_append_of_silent rfl, saidSince_of_not_secured hnot]
  obtain ⟨given, hcarries, hsub, -, -⟩ := hd.given
  rw [saidSince_of_not_secured hnot, List.sublist_nil] at hsub
  subst hsub
  refine ⟨iff_of_true (congrArg Link.stage (n.setLink_self i _)) hsec, fun _ _ => hsec,
    fun o1 o2 h1 h2 => (hpeer o1 h1).trans (hpeer o2 h2).symm, ⟨[], ?_, ?_, ?_, fun o' ho' => ?_⟩, ?_, ?_⟩
  · rw [shown_append_server]
    show ((n.setLink i _).link i).down.Carries [] (shown i h)
    rw [n.setLink_self]
    exact hcarries
  · rw [hsince]
  · rw [hsince]
    exact fun _ => List.prefix_refl _
  · obtain rfl := hpeer o' ho'
    refine ⟨b.feed.log.length, [], Function.update_self .., ?_, List.Sublist.refl _, fun _ => rfl⟩
    rw [hsince]
    exact List.drop_length.symm
  · show ((n.setLink i _).link i).down.failed = false → ((n.setLink i _).link i).down.buffer ≠ none → _
    rw [n.setLink_self]
    exact hd.buffer
  · show _ → ((n.setLink i _).link i).down.failed = false
    rw [n.setLink_self]
    exact fun hintact => hd.intact hintact.of_append

/-- The server reads a message from its standard input. -/
theorem Downward.say (hd : Downward i h hand b n) {red : Option (List UInt8)} {m : List UInt8}
    (hm : received red = some m) : Downward i (h ++ [.server (.readStdin red) j]) hand (b.say m) n := by
  have hsaid : said [.server (.readStdin red) j] = [m] := by simp [said, hm]
  have hsec : Secured i (h ++ [.server (.readStdin red) j]) ↔ Secured i h := secured_append_of_eq_false rfl
  obtain ⟨given, hcarries, hsub, hpre, hcursor⟩ := hd.given
  have hgrows : saidSince i h <+: saidSince i (h ++ [.server (.readStdin red) j]) := by
    by_cases hs : Secured i h
    · rw [saidSince_append_of_secured hs]
      exact List.prefix_append _ _
    · rw [saidSince_of_not_secured hs]
      exact List.nil_prefix
  refine ⟨by rw [hsec, hd.secured], fun o ho => hsec.2 (hd.peer o ho), hd.unique, ⟨given, ?_,
    hsub.trans hgrows.sublist, fun hno => (hpre hno).trans hgrows, fun o ho => ?_⟩, hd.buffer,
    fun hintact => hd.intact hintact.of_append⟩
  · rw [shown_append_server]
    exact hcarries
  · obtain ⟨k, passed, hk, heq, hpassed, hall⟩ := hcursor o ho
    have hsince : saidSince i (h ++ [.server (.readStdin red) j]) = saidSince i h ++ [m] := by
      rw [saidSince_append_of_secured (hd.peer o ho), hsaid]
    cases hleft : b.someLeft with
    | false =>
      have hsay : (b.say m).feed = b.feed.publish m := by simp [Server.Board.say, hleft]
      refine ⟨k, passed, hsay ▸ hk, ?_, hpassed, fun _ => hall hleft⟩
      rw [hsay, hsince, heq]
      show _ = passed ++ (b.feed.log ++ [m]).drop k
      rw [List.drop_append_of_le_length (b.feed.bounded o k hk), List.append_assoc]
    | true =>
      -- the client misses what it has not got yet
      have hsay : (b.say m).feed = b.feed.announce m := by simp [Server.Board.say, hleft]
      refine ⟨b.feed.log.length, saidSince i h, ?_, ?_, hsub, fun hno => ?_⟩
      · rw [hsay]
        show (b.feed.cursor o).map _ = _
        rw [hk, Option.map_some]
      · rw [hsay, hsince]
        exact congrArg _ List.drop_left.symm
      · have hsome : b.someLeft = false := hno
        rw [hleft] at hsome
        cases hsome

/-- The server writes to the client. -/
theorem Downward.write (hd : Downward i h hand b n) {slot : Nat} {o : Ssl} {data : List UInt8} {ret : Int}
    {f : Feed Ssl (List UInt8)} (hdata : data ≠ [] ∧ data.length ≤ maxPlaintext)
    (hdeliver : b.feed.deliver o data = some f) (hpeer : n.peer o = some i) :
    Downward i (h ++ [.server (.sslWrite slot (some o) data ret) i]) hand { b with feed := f }
      (n.setLink i { n.link i with down := (n.link i).down.write data ret }) := by
  obtain ⟨hlog, p, hp, hdrop, hcursor'⟩ := Feed.deliver_eq_some hdeliver
  obtain ⟨given, hcarries, -, -, hcursor⟩ := hd.given
  obtain ⟨k, passed, hk, heq, hpassed, hall⟩ := hcursor o hpeer
  obtain rfl : p = k := Option.some.inj (hp.symm.trans hk)
  have hsec : Secured i (h ++ [.server (.sslWrite slot (some o) data ret) i]) ↔ Secured i h :=
    secured_append_of_eq_false rfl
  have hsince : saidSince i (h ++ [.server (.sslWrite slot (some o) data ret) i]) =
      (passed ++ [data]) ++ b.feed.log.drop (p + 1) := by
    rw [saidSince_append_of_silent rfl, heq, hdrop, List.append_assoc]
    rfl
  have hlink : ∀ l : Link, (n.setLink i l).link i = l := n.setLink_self i
  refine ⟨by rw [hlink, hsec, ← hd.secured], fun o' ho' => hsec.2 (hd.peer o' ho'), hd.unique,
    ⟨given ++ [data], ?_, ?_, fun hno => ?_, fun o' ho' => ?_⟩, ?_, fun hintact => ?_⟩
  · rw [hlink, shown_append_server]
    exact hcarries.write hdata.1 hdata.2
  · rw [hsince]
    exact (hpassed.append (List.Sublist.refl _)).trans (List.sublist_append_left _ _)
  · rw [hsince, hall hno]
    exact List.prefix_append _ _
  · obtain rfl := hd.unique o' o ho' hpeer
    refine ⟨p + 1, passed ++ [data], ?_, ?_, hpassed.append (List.Sublist.refl _),
      fun hno => by rw [hall hno]⟩
    · exact hcursor' ▸ Function.update_self ..
    · rw [hsince]
      exact congrArg (fun log => _ ++ List.drop _ log) hlog.symm
  · rw [hlink]
    exact fun hfailed => hd.buffer (Bool.or_eq_false_iff.1 hfailed).1
  · have hret := hintact slot (some o) data ret (List.mem_append_right _ List.mem_cons_self)
    rw [hlink, RecordLine.failed_write, hd.intact hintact.of_append, decide_eq_false (Int.not_le.2 hret)]
    rfl

/-- Changing the connection of a client in what it sends, or before its handshake, changes nothing on its
way down. -/
theorem setLink_down (l : Link) (hstage : l.stage = .secured ↔ (n.link j).stage = .secured)
    (hdown : l.down = (n.link j).down) :
    (((n.setLink j l).link i).stage = .secured ↔ (n.link i).stage = .secured) ∧
      ((n.setLink j l).link i).down = (n.link i).down := by
  by_cases hij : i = j
  · rw [hij, n.setLink_self]
    exact ⟨hstage, hdown⟩
  · rw [n.setLink_of_ne l hij]
    exact ⟨Iff.rfl, rfl⟩

/-- A call that changes neither the network nor the feed. -/
theorem Downward.same (hd : Downward i h hand b n) {c : Server.Call}
    (hsecures : secures i (.server c j) = false) (hsaid : said [.server c j] = []) :
    Downward i (h ++ [.server c j]) hand b n :=
  hd.idle hsecures hsaid rfl Iff.rfl rfl (fun _ ho => ⟨ho, rfl⟩) rfl id id

/-- A handshake that the network allows, with this client or another. -/
theorem Downward.sslAccept (hd : Downward i h hand b n) {o : Option Ssl} {ret : Int}
    (hn : n.serverStep (.sslAccept o ret) j = some n')
    (hb : Server.boardNext b (.sslAccept o ret) = some b') :
    Downward i (h ++ [.server (.sslAccept o ret) j]) hand b' n' := by
  cases o with
  | none =>
    obtain rfl := Option.some.inj hn
    obtain rfl := Option.some.inj hb
    exact hd.same rfl rfl
  | some o =>
    obtain rfl := Option.some.inj hb
    simp only [Network.serverStep] at hn
    split_ifs at hn with hret hstage
    · obtain rfl := Option.some.inj hn
      rw [if_neg (Int.not_lt.2 hret)]
      exact hd.same (by simp [secures, Int.not_lt.2 hret]) rfl
    · obtain rfl := Option.some.inj hn
      rw [Int.not_le] at hret
      rw [if_pos hret]
      by_cases hij : i = j
      · subst hij
        exact hd.secure hret hstage.2
      · -- another client gets an object that is not one of this
        have hlink := n.setLink_of_ne { n.link j with stage := .secured } hij
        refine hd.idle (by simp [secures, Ne.symm hij]) rfl rfl ?_ (congrArg Link.down hlink)
          (fun o' ho' => ?_) rfl id id
        · show ((n.setLink j _).link i).stage = _ ↔ _
          rw [hlink]
        · have hne : o' ≠ o := by
            rintro rfl
            have hji : j = i := by simpa using ho'
            exact hij hji.symm
          exact ⟨(Function.update_of_ne hne ..).symm.trans ho', Function.update_of_ne hne ..⟩

/-- An object is freed. -/
theorem Downward.sslFree (hd : Downward i h hand b n) {caller : Server.Caller} {o : Option Ssl}
    (hn : n.serverStep (.sslFree caller o) j = some n')
    (hb : Server.boardNext b (.sslFree caller o) = some b') :
    Downward i (h ++ [.server (.sslFree caller o) j]) hand b' n' := by
  cases o with
  | none =>
    obtain rfl := Option.some.inj hn
    cases caller <;> obtain rfl := Option.some.inj hb <;> exact hd.same rfl rfl
  | some o =>
    obtain rfl := Option.some.inj hn
    -- the objects of this client that are left are others
    have hne : ∀ o', Function.update n.peer o none o' = some i → o' ≠ o ∧ n.peer o' = some i := by
      intro o' ho'
      have hne : o' ≠ o := by
        rintro rfl
        simp at ho'
      exact ⟨hne, (Function.update_of_ne hne ..).symm.trans ho'⟩
    cases caller with
    | tlsAcceptFunction =>
      obtain rfl := Option.some.inj hb
      exact hd.idle rfl rfl rfl Iff.rfl rfl (fun o' ho' => ⟨(hne o' ho').2, rfl⟩) rfl id id
    | monitor slot =>
      obtain rfl := Option.some.inj hb
      exact hd.idle rfl rfl rfl Iff.rfl rfl
        (fun o' ho' => ⟨(hne o' ho').2, Function.update_of_ne (hne o' ho').1 ..⟩) rfl
        (fun hno => by cases hno) id

/-- Where a message is delivered, the other readers stay where they are. -/
theorem deliver_others {o o' : Ssl} {data : List UInt8} {f : Feed Ssl (List UInt8)}
    (hdeliver : b.feed.deliver o data = some f) (hne : o' ≠ o) : f.cursor o' = b.feed.cursor o' := by
  obtain ⟨-, p, -, -, hcursor⟩ := Feed.deliver_eq_some hdeliver
  rw [hcursor, Function.update_of_ne hne]

/-- The server writes to this client or to another. -/
theorem Downward.sslWrite (hd : Downward i h hand b n) {slot : Nat} {o : Option Ssl}
    {data : List UInt8} {ret : Int} (hn : n.serverStep (.sslWrite slot o data ret) j = some n')
    (hb : Server.boardNext b (.sslWrite slot o data ret) = some b') :
    Downward i (h ++ [.server (.sslWrite slot o data ret) j]) hand b' n' := by
  cases o with
  | none =>
    obtain rfl := Option.some.inj hn
    obtain rfl := Option.some.inj hb
    exact hd.same rfl rfl
  | some o =>
    simp only [Server.boardNext, Option.ite_none_right_eq_some] at hb
    obtain ⟨hdata, hb⟩ := hb
    obtain ⟨f, hdeliver, rfl⟩ := Option.map_eq_some_iff.1 hb
    have hlog := (Feed.deliver_eq_some hdeliver).1
    have hothers (ho : n.peer o ≠ some i) :
        ∀ o', n.peer o' = some i → n.peer o' = some i ∧ f.cursor o' = b.feed.cursor o' := by
      intro o' ho'
      refine ⟨ho', deliver_others hdeliver ?_⟩
      rintro rfl
      exact ho ho'
    simp only [Network.serverStep] at hn
    split_ifs at hn with hpeer hnone
    · obtain rfl := Option.some.inj hn
      by_cases hij : i = j
      · subst hij
        exact hd.write hdata hdeliver hpeer
      · have ho : n.peer o ≠ some i := fun ho => hij (Option.some.inj (ho.symm.trans hpeer))
        have hlink := n.setLink_of_ne { n.link j with down := (n.link j).down.write data ret } hij
        exact hd.idle rfl rfl rfl (by rw [hlink]) (by rw [hlink]) (hothers ho) hlog id id
    · obtain rfl := Option.some.inj hn
      have ho : n.peer o ≠ some i := by
        rw [hnone.1]
        simp
      exact hd.idle rfl rfl rfl Iff.rfl rfl (hothers ho) hlog id id

/-- The server reads from a client, or shows what it has read. -/
theorem Downward.setUp (hd : Downward i h hand b n) {c : Server.Call} {up : RecordLine UInt8 maxPlaintext}
    {reading : Option Nat} (hsecures : secures i (.server c j) = false) (hsaid : said [.server c j] = []) :
    Downward i (h ++ [.server c j]) hand b
      { n.setLink j { n.link j with up := up } with reading := reading } := by
  obtain ⟨hstage, hdown⟩ := setLink_down (n := n) (i := i) (j := j) { n.link j with up := up } Iff.rfl rfl
  exact hd.idle hsecures hsaid rfl hstage hdown (fun _ ho => ⟨ho, rfl⟩) rfl id id

theorem Downward.server (hd : Downward i h hand b n) {c : Server.Call} (hn : n.serverStep c j = some n')
    (hb : Server.boardNext b c = some b') : Downward i (h ++ [.server c j]) hand b' n' := by
  have hpeers : ∀ o, n.peer o = some i → n.peer o = some i ∧ b.feed.cursor o = b.feed.cursor o :=
    fun _ ho => ⟨ho, rfl⟩
  cases c with
  | accept fd =>
    simp only [Network.serverStep, Option.ite_none_right_eq_some, Option.some.injEq] at hn
    obtain ⟨⟨-, hwaiting⟩, rfl⟩ := hn
    obtain rfl := Option.some.inj hb
    obtain ⟨hstage, hdown⟩ := setLink_down (n := n) (i := i) (j := j)
      { n.link j with stage := .accepted } (by simp [hwaiting]) rfl
    exact hd.idle rfl rfl rfl hstage hdown hpeers rfl id id
  | close fd =>
    obtain rfl := Option.some.inj hn
    obtain rfl := Option.some.inj hb
    exact hd.idle rfl rfl rfl Iff.rfl rfl hpeers rfl id id
  | readStdin red =>
    obtain rfl := Option.some.inj hn
    obtain rfl := Option.some.inj hb
    cases hred : received red with
    | none => exact hd.same rfl (by simp [said, hred])
    | some m => exact hd.say hred
  | sslSetFd o fd ret =>
    obtain rfl := Option.some.inj hb
    cases o with
    | none =>
      obtain rfl := Option.some.inj hn
      exact hd.same rfl rfl
    | some o =>
      simp only [Network.serverStep] at hn
      split_ifs at hn <;> obtain rfl := Option.some.inj hn
      · exact hd.same rfl rfl
      · exact hd.idle rfl rfl rfl Iff.rfl rfl hpeers rfl id id
  | sslAccept o ret => exact hd.sslAccept hn hb
  | sslFree caller o => exact hd.sslFree hn hb
  | sslWrite slot o data ret => exact hd.sslWrite hn hb
  | sslRead slot o ret =>
    obtain rfl := Option.some.inj hb
    cases o with
    | none =>
      obtain rfl := Option.some.inj hn
      exact hd.same rfl rfl
    | some o =>
      simp only [Network.serverStep] at hn
      split_ifs at hn
      · obtain rfl := Option.some.inj hn
        exact hd.same rfl rfl
      · obtain ⟨up, -, rfl⟩ := Option.map_eq_some_iff.1 hn
        exact hd.setUp rfl rfl
  | writeStdout data =>
    obtain rfl := Option.some.inj hb
    simp only [Network.serverStep, Option.ite_none_right_eq_some] at hn
    obtain ⟨-, hn⟩ := hn
    obtain ⟨up, -, rfl⟩ := Option.map_eq_some_iff.1 hn
    exact hd.setUp rfl rfl
  | _ =>
    obtain rfl := Option.some.inj hn
    obtain rfl := Option.some.inj hb
    exact hd.same rfl rfl

/-- The client makes a call. -/
theorem Downward.client (hd : Downward i h hand b n) {c : Client.Call}
    (hn : n.clientStep i c = some n') (hc : Client.relayNext hand c = some hand') :
    Downward i (h ++ [.client i c]) hand' b n' := by
  have hpeer := (clientStep_of_ne (i := i) hn).1
  have hkeep : ∀ {d : RecordLine UInt8 maxPlaintext} {given : List (List UInt8)},
      d.Carries given (shown i h) → d.Carries given (shown i h ++ []) := by
    intro d given hcarries
    rwa [List.append_nil]
  -- what a call makes of the connection and of the hand
  suffices hstep : (n'.link i).stage = (n.link i).stage ∧
      (n'.link i).down.failed = (n.link i).down.failed ∧
      (∀ given, (n.link i).down.Carries given (shown i h) →
        (n'.link i).down.Carries given (shown i h ++ c.shown.toList)) ∧
      ((n'.link i).down.failed = false → (n'.link i).down.buffer ≠ none → hand' = .toShow) by
    obtain ⟨hstage, hfailed, hcarries', hbuffer⟩ := hstep
    have hsec : Secured i (h ++ [.client i c]) ↔ Secured i h := secured_append_of_eq_false rfl
    have hsince : saidSince i (h ++ [.client i c]) = saidSince i h := saidSince_append_of_silent rfl
    obtain ⟨given, hcarries, hsub, hpre, hcursor⟩ := hd.given
    refine ⟨by rw [hstage, hsec, hd.secured], fun o ho => hsec.2 (hd.peer o (hpeer ▸ ho)),
      hpeer ▸ hd.unique, ⟨given, ?_, hsince ▸ hsub, hsince ▸ hpre, ?_⟩, hbuffer, fun hintact => ?_⟩
    · rw [shown_append, shown_client]
      exact hcarries' given hcarries
    · rw [hpeer, hsince]
      exact hcursor
    · rw [hfailed]
      exact hd.intact hintact.of_append
  rcases Client.relayNext_cases hc with ⟨red, rfl, rfl, rfl⟩ | ⟨data, ret, rfl, rfl, hne, hfits, rfl⟩ |
    ⟨ret, rfl, rfl, rfl⟩ | ⟨data, rfl, rfl, rfl⟩ | ⟨rfl, rfl, hother⟩
  · obtain rfl := Option.some.inj hn
    refine ⟨rfl, rfl, fun given hcarries => ?_, fun hfailed hb => ?_⟩
    · exact hkeep hcarries
    · cases hd.buffer hfailed hb
  · obtain rfl := Option.some.inj hn
    rw [n.setLink_self]
    refine ⟨rfl, rfl, fun given hcarries => ?_, fun hfailed hb => ?_⟩
    · exact hkeep hcarries
    · cases hd.buffer hfailed hb
  · obtain ⟨down, hread, rfl⟩ := Option.map_eq_some_iff.1 hn
    have hempty : (n.link i).down.failed = false → (n.link i).down.buffer = none := by
      intro hfailed
      by_contra hb
      cases hd.buffer hfailed hb
    obtain ⟨hsame, hcases⟩ := RecordLine.read_eq_some maxPlaintext_eq.le hread
    rw [n.setLink_self]
    refine ⟨rfl, hsame, fun given hcarries => ?_, fun hfailed hb => ?_⟩
    · exact hkeep (hcarries.read hempty maxPlaintext_eq.le hread)
    · have hfailed' : (n.link i).down.failed = false := hsame ▸ hfailed
      rcases hcases hfailed' with ⟨-, rfl⟩ | ⟨hret, -⟩
      · exact absurd (hempty hfailed') hb
      · rw [if_pos hret]
  · obtain ⟨down, hemit, rfl⟩ := Option.map_eq_some_iff.1 hn
    obtain ⟨hsame, hcases⟩ := RecordLine.emit_eq_some hemit
    rw [n.setLink_self]
    refine ⟨rfl, hsame, fun given hcarries => hcarries.emit hemit, fun hfailed hb => ?_⟩
    exact absurd (hcases (hsame ▸ hfailed)).2.1 hb
  · have hsilent : n' = n ∧ c.shown = none := by
      rcases hother with ⟨text, rfl⟩ | rfl | ⟨status, rfl⟩ <;> exact ⟨(Option.some.inj hn).symm, rfl⟩
    rw [hsilent.1, hsilent.2]
    refine ⟨rfl, rfl, fun given hcarries => ?_, fun hfailed hb => ?_⟩
    · exact hkeep hcarries
    · cases hd.buffer hfailed hb

/-- One event. -/
theorem Downward.step (hd : Downward i h hand b n) (hn : n.step ev = some n')
    (hh : onOwn (Event.clientCall i) Client.relayNext hand ev = some hand')
    (hb : onOwn Event.serverCall Server.boardNext b ev = some b') :
    Downward i (h ++ [ev]) hand' b' n' := by
  cases ev with
  | server c j =>
    obtain rfl := Option.some.inj hh
    exact hd.server hn hb
  | client j c =>
    obtain rfl := Option.some.inj hb
    by_cases hij : i = j
    · subst hij
      rw [onOwn, Event.clientCall, if_pos rfl] at hh
      exact hd.client hn hh
    · rw [onOwn, Event.clientCall, if_neg (Ne.symm hij)] at hh
      obtain rfl := Option.some.inj hh
      obtain ⟨hpeer, -, hlink⟩ := clientStep_of_ne (i := i) hn
      exact hd.idle rfl rfl (shown_client_of_ne c hij) (by rw [hlink hij]) (by rw [hlink hij])
        (fun o ho => ⟨hpeer ▸ ho, rfl⟩) rfl id id

/-- Whole runs. -/
theorem Run.downward (hrun : Run e evs n) (i : Nat) : ∃ hand b,
    replay Client.relayNext .empty (evs.filterMap (Event.clientCall i)) = some hand ∧
    replay Server.boardNext .initial (evs.filterMap Event.serverCall) = some b ∧
    Downward i evs hand b n := by
  obtain ⟨hand, hhand⟩ := replay_prefix (hrun.client i) (Client.pollLoop_relays _ _)
  obtain ⟨b', hb', -⟩ := Server.pollLoop_attends (Server.initial_attended e.socketFd e.stack e.nonblock)
    ⟨_, replay_nil _, Server.initial_owner e.socketFd e.stack e.nonblock⟩ hrun.fresh
  obtain ⟨b, hb⟩ := replay_prefix hrun.server hb'
  refine ⟨hand, b, hhand, hb, ?_⟩
  rw [← replay_onOwn] at hhand hb
  refine replay_history (I := fun h (s : (Client.Hand × Server.Board) × Network) =>
    Downward i h s.1.1 s.1.2 s.2) (downward_initial i) (fun h s ev s' hd hs => ?_)
    (replay_both (replay_both hhand hb) hrun.network)
  obtain ⟨⟨hand0, b0⟩, n0⟩ := s
  obtain ⟨⟨hand1, b1⟩, n1⟩ := s'
  obtain ⟨hboth, hn⟩ := both_eq_some.1 hs
  obtain ⟨hh, hb⟩ := both_eq_some.1 hboth
  exact hd.step hn hh hb

/-- As long as `monitor` frees nothing, nobody has left. -/
theorem someLeft_eq_false {cs : List Server.Call} (hb : b.someLeft = false)
    (hcs : ∀ slot o, .sslFree (.monitor slot) o ∉ cs) (h : replay Server.boardNext b cs = some b') :
    b'.someLeft = false := by
  induction cs generalizing b with
  | nil =>
    cases h
    exact hb
  | cons c cs ih =>
    rw [replay_cons, Option.bind_eq_some_iff] at h
    obtain ⟨b1, h1, h2⟩ := h
    refine ih ?_ (fun slot o hmem => hcs slot o (List.mem_cons_of_mem _ hmem)) h2
    have hc : ∀ slot o, c ≠ .sslFree (.monitor slot) o := by
      rintro slot o rfl
      exact hcs slot o List.mem_cons_self
    cases c with
    | sslAccept o ret =>
      cases o with
      | none => exact Option.some.inj h1 ▸ hb
      | some o =>
        obtain rfl := Option.some.inj h1
        split <;> exact hb
    | sslFree caller o =>
      cases caller with
      | tlsAcceptFunction => exact Option.some.inj h1 ▸ hb
      | monitor slot => exact absurd rfl (hc slot o)
    | readStdin red =>
      obtain rfl := Option.some.inj h1
      cases received red <;> exact hb
    | sslWrite slot o data ret =>
      cases o with
      | none => exact Option.some.inj h1 ▸ hb
      | some o =>
        simp only [Server.boardNext, Option.ite_none_right_eq_some] at h1
        obtain ⟨f, -, rfl⟩ := Option.map_eq_some_iff.1 h1.2
        exact hb
    | _ => exact Option.some.inj h1 ▸ hb

theorem AllThere.calls (hthere : AllThere evs) :
    ∀ slot o, .sslFree (.monitor slot) o ∉ evs.filterMap Event.serverCall := by
  intro slot o hmem
  obtain ⟨ev, hev, heq⟩ := List.mem_filterMap.1 hmem
  cases ev with
  | client j c => cases heq
  | server c j =>
    obtain rfl := Option.some.inj heq
    exact hthere slot o j hev

/-! ## A run -/

/-- An iteration of the server that reads `[104]` from the client in slot `2`. -/
def Server.hears : Server.Answers :=
  { Server.leaves 2 with sslRead := fun _ => ⟨1, [104], .other⟩ }

/-- An iteration of a client in which `[104]` is typed. -/
def Client.types : Client.Answers where
  numberRevents := 1
  revents k := if k = 0 then POLLIN else 0
  stdin := some [104]
  sslWrite := 1
  sslRead := ⟨-1, [], .wantRead⟩

/-- An iteration of a client in which `[104, 105]` arrives. -/
def Client.gets : Client.Answers :=
  { Client.types with
    revents := fun k => if k = 1 then POLLIN else 0
    sslRead := ⟨2, [104, 105], .other⟩ }

/-- A server with a single client. -/
def chatSetting : Setting where
  socketFd := 3
  stack _ := ⟨-1, 0, 0⟩
  nonblock _ := false
  answers := [Server.connects 4 100, Server.typed 2, Server.hears]
  clientFd _ := 3
  clients i := if i = 0 then [Client.types, Client.gets] else []

/-- The client connects and types `[104]`, the server's user types `[104, 105]`, and both are shown. -/
def chatting : List Event := [
  .server (.accept 4) 0, .server (.setNonblock 4) 0, .client 0 (.readStdin (some [104])),
  .server (.sslNew (some 100)) 0, .server (.sslSetFd (some 100) 4 1) 0, .server (.sslAccept (some 100) 1) 0,
  .client 0 (.sslWrite [104] 1), .server (.printf "[client connected: 127.0.0.1]\n") 0,
  .server (.readStdin (some [104, 105])) 0, .server (.sslWrite 2 (some 100) [104, 105] 2) 0,
  .client 0 (.sslRead 2), .server (.sslRead 2 (some 100) 1) 0, .client 0 (.writeStdout [104, 105]),
  .server (.writeStdout [104]) 0]

/-- The connections afterwards. -/
def afterChat : Network := (replay Network.step .initial chatting).get (by decide)

theorem chat_run : Run chatSetting chatting afterChat where
  server := by decide
  client i := by
    by_cases hi : i = 0
    · subst hi
      decide
    · have hnil : chatting.filterMap (Event.clientCall i) = [] := by
        simp [chatting, Event.clientCall, Ne.symm hi]
      rw [hnil]
      exact List.nil_prefix
  network := (Option.some_get _).symm
  fresh := ⟨Server.connects_fresh, Server.fresh_of_not_pending (by decide) _,
    Server.fresh_of_not_pending (by decide) _, trivial⟩

theorem chat_downIntact : DownIntact 0 chatting := by
  intro slot o data ret hmem
  have hret : ret = 2 := by
    simp only [chatting, List.mem_cons, Event.server.injEq, Server.Call.sslWrite.injEq, reduceCtorEq,
      List.not_mem_nil, and_true, false_or, or_false] at hmem
    exact hmem.2.2.2
  omega

/-! ## The results -/

/-- In every interleaving, and whatever the connections do, a client shows at every moment messages that
the server's user has typed after the client's handshake: each one whole, in the order in which they were
typed, none twice and nothing else, as long as no `SSL_write` to this client has failed. As long as no
client has been found gone, it misses none of them, either. -/
theorem shown_in_order (hrun : Run e evs n) {i : Nat} (hintact : DownIntact i evs) :
    (shown i evs).Sublist (saidSince i evs) ∧ saidSince i evs <:+ said evs ∧
    (AllThere evs → shown i evs <+: saidSince i evs) := by
  obtain ⟨hand, b, -, hb, hd⟩ := hrun.downward i
  obtain ⟨given, hcarries, hsub, hpre, -⟩ := hd.given
  have hshown := hcarries.shown_prefix (hd.intact hintact)
  refine ⟨hshown.sublist.trans hsub, (since_suffix _ _).filterMap _, fun hthere => ?_⟩
  exact hshown.trans (hpre (someLeft_eq_false rfl hthere.calls hb))

/-- The client shows what was typed at the server. -/
theorem chat_shown : shown 0 chatting = [[104, 105]] ∧ (shown 0 chatting).Sublist (saidSince 0 chatting) :=
  ⟨by decide, (shown_in_order chat_run chat_downIntact).1⟩

/-- Nothing that is said is lost as long as no client leaves and no `SSL_write` to the client fails: when
the server is back at the head of its loop with the client in its table, when nothing is under way to the
client and the client is back at the head of its own loop, it has shown everything since its handshake. -/
theorem shown_complete (hrun : Run e evs n) {i s : Nat} {o : Ssl} (hintact : DownIntact i evs)
    (hthere : AllThere evs) (hserver : evs.filterMap Event.serverCall = e.serverTrace)
    (hslot : ((Server.pollLoop e.answers).final e.initial).Occupied s)
    (ho : ((Server.pollLoop e.answers).final e.initial).ssls s = some o) (hpeer : n.peer o = some i)
    (hunread : (n.link i).down.unread = [])
    (hclient : evs.filterMap (Event.clientCall i) = e.clientTrace i) :
    shown i evs = saidSince i evs := by
  obtain ⟨hand, b, hhand, hb, hd⟩ := hrun.downward i
  obtain ⟨final, hfinal, hattended⟩ := Server.pollLoop_attends
    (Server.initial_attended e.socketFd e.stack e.nonblock)
    ⟨_, replay_nil _, Server.initial_owner e.socketFd e.stack e.nonblock⟩ hrun.fresh
  -- at the end of its calls the server has delivered the whole log
  have hleft := someLeft_eq_false rfl hthere.calls hb
  obtain rfl : b = final := by
    rw [hserver] at hb
    exact Option.some.inj (hb.symm.trans hfinal)
  have hup : b.feed.CaughtUp o := (hattended.upToDate hleft).2 s o hslot ho
  obtain ⟨given, hcarries, -, -, hcursor⟩ := hd.given
  obtain ⟨k, passed, hk, heq, -, hall⟩ := hcursor o hpeer
  obtain rfl : k = b.feed.log.length := Option.some.inj (hk.symm.trans hup)
  rw [List.drop_length, List.append_nil] at heq
  -- and the client has nothing left to show
  obtain rfl : hand = .empty := by
    rw [hclient] at hhand
    exact Option.some.inj (hhand.symm.trans (Client.pollLoop_relays _ _))
  have hbuffer : (n.link i).down.buffer = none := by
    by_contra hne
    cases hd.buffer (hd.intact hintact) hne
  rw [hcarries.shown_eq (hd.intact hintact) hbuffer hunread, hall hleft, heq]

/-- All that was typed at the server has been shown. -/
theorem chat_shown_complete : shown 0 chatting = saidSince 0 chatting :=
  shown_complete (s := 2) (o := 100) chat_run chat_downIntact (by simp [AllThere, chatting])
    (by decide) (by decide) (by decide) (by decide) (by decide) (by decide)

/-- What the server shows of a client is at every moment a beginning of the messages that were typed
there, each one whole, as long as no `SSL_write` of the client has failed. When nothing is under way to the
server and both are back at the heads of their loops, it is all of them. -/
theorem heard_in_order (hrun : Run e evs n) {i : Nat} (hintact : UpIntact i evs) :
    heard i evs <+: typed i evs ∧
    ((n.link i).up.unread = [] → evs.filterMap Event.serverCall = e.serverTrace →
      evs.filterMap (Event.clientCall i) = e.clientTrace i → heard i evs = typed i evs) := by
  obtain ⟨hand, console, hhand, hconsole, hu⟩ := hrun.upward i
  obtain ⟨given, htyped, hcarries⟩ := hu.carries
  have hfailed := hu.intact hintact
  refine ⟨?_, fun hunread hserver hclient => ?_⟩
  · rw [htyped]
    exact (hcarries.shown_prefix hfailed).trans (List.prefix_append _ _)
  · obtain rfl : hand = .empty := by
      rw [hclient] at hhand
      exact Option.some.inj (hhand.symm.trans (Client.pollLoop_relays _ _))
    obtain rfl : console = false := by
      rw [hserver] at hconsole
      exact Option.some.inj (hconsole.symm.trans (Server.pollLoop_shows _ _))
    have hbuffer : (n.link i).up.buffer = none := by
      by_contra hne
      have hreading := hu.buffer hfailed hne
      cases hu.reading (by rw [hreading]; exact Option.some_ne_none i)
    rw [hcarries.shown_eq hfailed hbuffer hunread, htyped]
    exact (List.append_nil given).symm

/-- The server has shown what was typed at the client. -/
theorem chat_heard : heard 0 chatting = typed 0 chatting :=
  (heard_in_order chat_run (by simp [UpIntact, chatting])).2 (by decide) (by decide) (by decide)

end SystemsProgramming.MtlsChat
