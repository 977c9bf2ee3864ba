import SystemsProgramming.HttpServer.Proofs.SurvivalProofs
import SystemsProgramming.HttpServer.Proofs.BodyProofs

/-!
# Proofs: what a client gets

A handler answers what its one `recv` returned, and sends nothing else. So what has been sent on a
connection is the beginning of the response to a beginning of what its own client sent, whatever the
other connections do; and when `recv` returned the request as far as the version, it is the file that the
URL spells.
-/

namespace SystemsProgramming.HttpServer

open Foundations

variable {env : Env} {envs : Nat → Env} {events : List Event} {c : Connection} {e : Event}
  {s s' : State} {a : Action} {response : List UInt8}

/-! ## What a client sends -/

/-- What the client sends with an event. -/
def Event.data : Event → List UInt8
  | .arrive data => data
  | _ => []

/-- What the client of a connection has sent. -/
def clientData (events : List Event) : List UInt8 := events.flatMap Event.data

theorem clientData_concat (events : List Event) (e : Event) :
    clientData (events ++ [e]) = clientData events ++ e.data := by
  simp [clientData]

/-- What a `recv` has returned, which is the beginning of what the client has sent. -/
inductive Received (events : List Event) : List UInt8 → Prop where
  | recv {len : Nat} (hpos : 0 < len) (hsent : len ≤ (clientData events).length)
    (hcount : len ≤ bufferSize) (hrecv : .recv len ∈ events) :
    Received events ((clientData events).take len)

/-- This is the response to what was received. -/
def Answers (env : Env) (events : List Event) (response : List UInt8) : Prop :=
  ∃ chunk, Received events chunk ∧ handler env [chunk] = .sent response

theorem Received.concat {chunk : List UInt8} (h : Received events chunk) (e : Event) :
    Received (events ++ [e]) chunk := by
  obtain ⟨hpos, hsent, hcount, hrecv⟩ := h
  have hmore : (clientData (events ++ [e])).length = (clientData events).length + e.data.length := by
    rw [clientData_concat, List.length_append]
  have hrec : Received (events ++ [e]) ((clientData (events ++ [e])).take _) :=
    .recv hpos (by omega) hcount (List.mem_append_left _ hrecv)
  rwa [clientData_concat, List.take_append_of_le_length hsent] at hrec

theorem Answers.concat (h : Answers env events response) (e : Event) :
    Answers env (events ++ [e]) response := by
  obtain ⟨chunk, hchunk, hresponse⟩ := h
  exact ⟨chunk, hchunk.concat e, hresponse⟩

/-! ## How far a connection has got -/

/-- Why a connection has been closed with nothing sent: there was no thread for it, `recv` was interrupted,
the client has reset it or has closed its side without sending anything, or what was received is no
request. -/
inductive Unanswered (env : Env) (events : List Event) (c : Connection) : Prop where
  | notCreated (h : .create false ∈ events)
  | interrupted (h : .recvFails ∈ events)
  | wasReset (h : .reset ∈ events)
  | noData (hfinished : c.finished = true) (hdata : clientData events = [])
  | noRequest {chunk : List UInt8} (h : Received events chunk)
    (hrespond : respond env chunk = (.closed, .running))

/-- A connection with what has happened to it. -/
inductive Progress (env : Env) (events : List Event) (c : Connection) : Prop where
  | waiting (hstage : c.stage = .unused ∨ c.stage = .queued ∨ c.stage = .accepted ∨ c.stage = .receiving)
    (hsent : c.sent = []) (harrived : c.arrived = clientData events)
  | sending {rest : List UInt8} (hstage : c.stage = .sending rest)
    (h : Answers env events (c.sent ++ rest))
  | answered (hstage : c.stage = .closed) (h : Answers env events c.sent)
  | unanswered (hstage : c.stage = .closed) (hsent : c.sent = []) (h : Unanswered env events c)
  | cutShort {whole : List UInt8} (hstage : c.stage = .closed) (hends : .sendEnds ∈ events)
    (h : Answers env events whole) (hsent : c.sent <+: whole)

/-- The invariant of a connection. -/
structure Connection.Inv (env : Env) (events : List Event) (c : Connection) : Prop where
  reset : c.reset = true → .reset ∈ events
  progress : Progress env events c

theorem respond_cases (env : Env) (chunk : List UInt8) :
    (∃ response, respond env chunk = (.sending response, .running) ∧
      handler env [chunk] = .sent response) ∨
    respond env chunk = (.closed, .running) ∨ (respond env chunk).2 = .undefined := by
  unfold respond
  split
  · exact .inr (.inr rfl)
  · cases h : handler env [chunk] with
    | nothing => exact .inr (.inl rfl)
    | overflow => exact .inr (.inr rfl)
    | sent response => exact .inl ⟨response, rfl, rfl⟩

/-! ## Steps -/

theorem Unanswered.concat {c' : Connection} (h : Unanswered env events c)
    (hfinished : c.finished = true → c'.finished = true ∧ e.data = []) :
    Unanswered env (events ++ [e]) c' := by
  cases h with
  | notCreated h => exact .notCreated (List.mem_append_left _ h)
  | interrupted h => exact .interrupted (List.mem_append_left _ h)
  | wasReset h => exact .wasReset (List.mem_append_left _ h)
  | noData hfin hdata =>
    obtain ⟨hfin', hnone⟩ := hfinished hfin
    exact .noData hfin' (by rw [clientData_concat, hdata, hnone, List.append_nil])
  | noRequest h hrespond => exact .noRequest (h.concat e) hrespond

/-- An event of the client leaves a connection as far as it has got. -/
theorem Progress.of_client {c' : Connection} (h : Progress env events c) (hstage : c'.stage = c.stage)
    (hsent : c'.sent = c.sent) (harrived : c'.arrived = c.arrived ++ e.data)
    (hfinished : c.finished = true → c'.finished = true ∧ e.data = []) :
    Progress env (events ++ [e]) c' := by
  cases h with
  | waiting hs hnone hall =>
    exact .waiting (hstage ▸ hs) (hsent.trans hnone) (by rw [harrived, hall, clientData_concat])
  | sending hs h => exact .sending (hstage.trans hs) (hsent ▸ h.concat e)
  | answered hs h => exact .answered (hstage.trans hs) (hsent ▸ h.concat e)
  | unanswered hs hnone h => exact .unanswered (hstage.trans hs) (hsent.trans hnone) (h.concat hfinished)
  | cutShort hs hends h hpre =>
    exact .cutShort (hstage.trans hs) (List.mem_append_left _ hends) (h.concat e) (hsent ▸ hpre)

/-- Before `recv` nothing has been sent, and what has arrived is still there. -/
theorem Progress.waits (h : Progress env events c)
    (hstage : c.stage = .unused ∨ c.stage = .queued ∨ c.stage = .accepted ∨ c.stage = .receiving) :
    c.sent = [] ∧ c.arrived = clientData events := by
  cases h with
  | waiting _ hsent harrived => exact ⟨hsent, harrived⟩
  | sending hs _ => simp [hs] at hstage
  | answered hs _ => simp [hs] at hstage
  | unanswered hs _ _ => simp [hs] at hstage
  | cutShort hs _ _ _ => simp [hs] at hstage

theorem Progress.answers {rest : List UInt8} (h : Progress env events c)
    (hstage : c.stage = .sending rest) : Answers env events (c.sent ++ rest) := by
  cases h with
  | waiting hs _ _ => simp [hstage] at hs
  | sending hs h =>
    rw [hstage] at hs
    cases hs
    exact h
  | answered hs _ => simp [hstage] at hs
  | unanswered hs _ _ => simp [hstage] at hs
  | cutShort hs _ _ _ => simp [hstage] at hs

theorem Progress.of_recv {len : Nat} (h : Progress env events c) (hstage : c.stage = .receiving)
    (hpos : 0 < len) (harrived : len ≤ c.arrived.length) (hcount : len ≤ bufferSize)
    (hdefined : (respond env (c.arrived.take len)).2 ≠ .undefined) :
    Progress env (events ++ [.recv len]) { c with
      stage := (respond env (c.arrived.take len)).1
      arrived := c.arrived.drop len } := by
  obtain ⟨hsent, hall⟩ := h.waits (by simp [hstage])
  have hdata : clientData (events ++ [.recv len]) = clientData events := by
    rw [clientData_concat]
    exact List.append_nil _
  have hreceived : Received (events ++ [.recv len]) (c.arrived.take len) := by
    rw [hall, ← hdata]
    exact .recv hpos (by rwa [hdata, ← hall]) hcount (by simp)
  rcases respond_cases env (c.arrived.take len) with ⟨response, hresp, hsends⟩ | hresp | hresp
  · refine .sending (congrArg Prod.fst hresp) ⟨c.arrived.take len, hreceived, ?_⟩
    rw [hsends, hsent]
    rfl
  · exact .unanswered (by rw [hresp]) hsent (.noRequest hreceived hresp)
  · exact absurd hresp hdefined

theorem Progress.of_send {rest : List UInt8} {len : Nat} (h : Progress env events c)
    (hstage : c.stage = .sending rest) :
    Progress env (events ++ [.send len]) { c with
      stage := if len = rest.length then .closed else .sending (rest.drop len)
      sent := c.sent ++ rest.take len } := by
  have hanswers := (h.answers hstage).concat (.send len)
  by_cases hall : len = rest.length
  · refine .answered (if_pos hall) ?_
    rwa [List.take_of_length_le (Nat.le_of_eq hall.symm)]
  · refine .sending (if_neg hall) ?_
    rwa [List.append_assoc, List.take_append_drop]

/-- An event keeps the invariant, unless the handler runs over one of its arrays. -/
theorem Connection.step_inv {r : Connection × Process} (hc : c.Inv env events)
    (h : c.step env e = some r) (hdefined : r.2 ≠ .undefined) : r.1.Inv env (events ++ [e]) := by
  have hold : c.reset = true → .reset ∈ events ++ [e] := fun hr => List.mem_append_left _ (hc.reset hr)
  cases e with
  | connect =>
    simp only [Connection.step, Option.ite_none_right_eq_some, Option.some.injEq] at h
    obtain ⟨hstage, rfl⟩ := h
    obtain ⟨hsent, harrived⟩ := hc.progress.waits (by simp [hstage])
    exact ⟨hold, .waiting (by simp) hsent (by simpa [clientData_concat, Event.data] using harrived)⟩
  | arrive data =>
    simp only [Connection.step, Option.ite_none_left_eq_some, Option.some.injEq, not_or] at h
    obtain ⟨⟨-, hopen, -⟩, rfl⟩ := h
    exact ⟨hold, hc.progress.of_client rfl rfl rfl fun hfin => absurd hfin hopen⟩
  | finish =>
    simp only [Connection.step, Option.ite_none_left_eq_some, Option.some.injEq] at h
    obtain ⟨-, rfl⟩ := h
    exact ⟨hold, hc.progress.of_client rfl rfl (List.append_nil _).symm fun _ => ⟨rfl, rfl⟩⟩
  | reset =>
    simp only [Connection.step, Option.ite_none_left_eq_some, Option.some.injEq] at h
    obtain ⟨-, rfl⟩ := h
    refine ⟨fun _ => by simp, ?_⟩
    exact hc.progress.of_client rfl rfl (List.append_nil _).symm fun hfin => ⟨hfin, rfl⟩
  | accept =>
    simp only [Connection.step, Option.ite_none_right_eq_some, Option.some.injEq] at h
    obtain ⟨hstage, rfl⟩ := h
    obtain ⟨hsent, harrived⟩ := hc.progress.waits (by simp [hstage])
    exact ⟨hold, .waiting (by simp) hsent (by simpa [clientData_concat, Event.data] using harrived)⟩
  | create success =>
    simp only [Connection.step, Option.ite_none_right_eq_some, Option.some.injEq] at h
    obtain ⟨hstage, rfl⟩ := h
    obtain ⟨hsent, harrived⟩ := hc.progress.waits (by simp [hstage])
    refine ⟨hold, ?_⟩
    cases success with
    | true => exact .waiting (by simp) hsent (by simpa [clientData_concat, Event.data] using harrived)
    | false => exact .unanswered rfl hsent (.notCreated (by simp))
  | recv len =>
    simp only [Connection.step, Option.ite_none_right_eq_some, Option.some.injEq] at h
    obtain ⟨⟨hstage, hpos, harrived, hcount⟩, rfl⟩ := h
    exact ⟨hold, hc.progress.of_recv hstage hpos harrived hcount hdefined⟩
  | recvEnds =>
    simp only [Connection.step, Option.ite_none_right_eq_some, Option.some.injEq] at h
    obtain ⟨⟨hstage, hends⟩, rfl⟩ := h
    obtain ⟨hsent, harrived⟩ := hc.progress.waits (by simp [hstage])
    refine ⟨hold, .unanswered rfl hsent ?_⟩
    rcases hends with hreset | ⟨hfinished, hnone⟩
    · exact .wasReset (hold hreset)
    · refine .noData hfinished ?_
      rw [clientData_concat, ← harrived, hnone]
      rfl
  | recvFails =>
    simp only [Connection.step, Option.ite_none_right_eq_some, Option.some.injEq] at h
    obtain ⟨hstage, rfl⟩ := h
    obtain ⟨hsent, -⟩ := hc.progress.waits (by simp [hstage])
    exact ⟨hold, .unanswered rfl hsent (.interrupted (by simp))⟩
  | send len =>
    simp only [Connection.step] at h
    split at h
    · rename_i rest hstage
      split at h
      · -- the process is gone, and the connection as it was
        cases h
        exact ⟨hold, hc.progress.of_client rfl rfl (List.append_nil _).symm fun hfin => ⟨hfin, rfl⟩⟩
      · simp only [Option.ite_none_right_eq_some, Option.some.injEq] at h
        obtain ⟨-, rfl⟩ := h
        exact ⟨hold, hc.progress.of_send hstage⟩
    · cases h
  | sendEnds =>
    simp only [Connection.step] at h
    split at h
    · rename_i rest hstage
      cases h
      exact ⟨hold, .cutShort rfl (by simp) ((hc.progress.answers hstage).concat .sendEnds)
        (List.prefix_append _ _)⟩
    · cases h

/-- The accept loop does not go on when a handler has run over one of its arrays. -/
theorem goOn_undefined {r : Connection × Process} (h : c.step env e = some r) (hr : r.2 = .undefined)
    (hs : s.process = .undefined) (i : Nat) : (s.goOn i e).process = .undefined := by
  cases e with
  | create success =>
    simp only [Connection.step, Option.ite_none_right_eq_some, Option.some.injEq] at h
    obtain ⟨-, rfl⟩ := h
    cases hr
  | _ => exact hs

/-- The step is one in which no handler runs over its arrays. -/
theorem step_defined {i : Nat} (h : step envs s (.event i e) = some s') (hdefined : s'.process ≠ .undefined) :
    ∃ r, (s.connections i).step (envs i) e = some r ∧ r.2 ≠ .undefined := by
  simp only [step] at h
  split at h
  · obtain ⟨r, hr, rfl⟩ := Option.map_eq_some_iff.1 h
    exact ⟨r, hr, fun hundefined => hdefined (goOn_undefined hr hundefined hundefined i)⟩
  · cases h

theorem eventOf_eq_some {j : Nat} : eventOf j a = some e ↔ a = .event j e := by
  cases a with
  | event i e' => simp [eventOf]
  | acceptFails errno => simp [eventOf]
  | interrupt => simp [eventOf]

theorem mem_events {j : Nat} {acts : List Action} :
    e ∈ acts.filterMap (eventOf j) ↔ .event j e ∈ acts := by
  simp [List.mem_filterMap, eventOf_eq_some]

/-- A step keeps the invariant of every connection. -/
theorem step_inv {pre : List Action} (hs : ∀ j, (s.connections j).Inv (envs j) (pre.filterMap (eventOf j)))
    (h : step envs s a = some s') (hdefined : s'.process ≠ .undefined) (j : Nat) :
    (s'.connections j).Inv (envs j) ((pre ++ [a]).filterMap (eventOf j)) := by
  rw [List.filterMap_append]
  cases hown : eventOf j a with
  | none =>
    rw [step_other hown h, List.filterMap_cons_none hown, List.filterMap_nil, List.append_nil]
    exact hs j
  | some e =>
    obtain rfl := eventOf_eq_some.1 hown
    obtain ⟨r, hr, hr'⟩ := step_defined h hdefined
    have hnext : (s.connections j).alone (envs j) e = some r.1 := by
      rw [Connection.alone, hr, Option.map_some]
    have hconn : s'.connections j = r.1 := Option.some.inj ((step_own hown h).symm.trans hnext)
    rw [List.filterMap_cons_some hown, List.filterMap_nil, hconn]
    exact Connection.step_inv (hs j) hr hr'

/-! ## Runs -/

/-- After every run in which no handler has run over its arrays, each connection has got as far as its
own events have taken it. -/
theorem replay_inv {acts : List Action} (h : replay (step envs) initial acts = some s)
    (hdefined : s.process ≠ .undefined) (j : Nat) :
    (s.connections j).Inv (envs j) (acts.filterMap (eventOf j)) := by
  refine replay_history (I := fun pre s => s.process ≠ .undefined →
    ∀ j, (s.connections j).Inv (envs j) (pre.filterMap (eventOf j))) ?_ ?_ h hdefined j
  · intro _ j
    exact { reset := fun hreset => Bool.noConfusion hreset, progress := .waiting (.inl rfl) rfl rfl }
  · intro pre s a s' hs hstep hdefined'
    refine step_inv (hs fun hundefined => ?_) hstep hdefined'
    -- nothing happens after that
    have hstuck : Stuck (step envs) s := stuck_of_not_running (by simp [hundefined])
    rw [hstuck a] at hstep
    cases hstep

/-- In every run in which no handler has run over its arrays, what has been sent on a connection is the
beginning of the response to one chunk that its own client has sent. A connection that has been closed has
got the response as a whole, or nothing at all, for one of five reasons, or a part of it, as `send` has
returned early. -/
theorem sent_own_response {acts : List Action} (h : replay (step envs) initial acts = some s)
    (hdefined : s.process ≠ .undefined) (j : Nat) :
    ((s.connections j).sent = [] ∨ ∃ response,
      Answers (envs j) (acts.filterMap (eventOf j)) response ∧ (s.connections j).sent <+: response) ∧
    ((s.connections j).stage = .closed →
      Answers (envs j) (acts.filterMap (eventOf j)) (s.connections j).sent ∨
      (s.connections j).sent = [] ∧
        Unanswered (envs j) (acts.filterMap (eventOf j)) (s.connections j) ∨
      .event j .sendEnds ∈ acts ∧ ∃ response,
        Answers (envs j) (acts.filterMap (eventOf j)) response ∧ (s.connections j).sent <+: response) := by
  cases (replay_inv h hdefined j).progress with
  | waiting hstage hsent harrived => exact ⟨.inl hsent, fun hclosed => by simp [hclosed] at hstage⟩
  | sending hstage h =>
    exact ⟨.inr ⟨_, h, List.prefix_append _ _⟩, fun hclosed => by simp [hclosed] at hstage⟩
  | answered hstage h => exact ⟨.inr ⟨_, h, List.prefix_rfl⟩, fun _ => .inl h⟩
  | unanswered hstage hsent h => exact ⟨.inl hsent, fun _ => .inr (.inl ⟨hsent, h⟩)⟩
  | cutShort hstage hends h hpre =>
    exact ⟨.inr ⟨_, h, hpre⟩, fun _ => .inr (.inr ⟨mem_events.1 hends, _, h, hpre⟩)⟩

/-- The connection of `harmlessRun` with a request, and half of its response. -/
theorem harmlessRun_response : ∃ s, replay (step fun _ => clearEnv) initial harmlessRun = some s ∧
    ((s.connections 0).sent = [] ∨ ∃ response,
      Answers clearEnv (harmlessRun.filterMap (eventOf 0)) response ∧
        (s.connections 0).sent <+: response) := by
  obtain ⟨s, hs, hrunning⟩ : ∃ s, replay (step fun _ => clearEnv) initial harmlessRun = some s ∧
      s.process ≠ .undefined := ⟨_, rfl, by decide⟩
  exact ⟨s, hs, (sent_own_response hs hrunning 0).1⟩

/-! ## The file -/

/-- What a client gets for a URL that spells a name. -/
def page (files : List UInt8 → Option File) (url name : List UInt8) : List UInt8 :=
  match files name with
  | none => notFound
  | some f => header (getMime (getExtension url)) ++ f.content

/-- The file fits into the buffer behind its header, and no `read` fails before its end. -/
def Servable (files : List UInt8 → Option File) (url name : List UInt8) : Prop :=
  ∀ f, files name = some f →
    (page files url name).length ≤ bufferSize ∧ Delivers f.reads 0 f.content.length

variable {files : List UInt8 → Option File} {url name chunk : List UInt8}

theorem buildHttp_eq_page (h : Servable files url name) :
    buildHttp (opened files) name (getExtension url) = page files url name := by
  cases hf : files name with
  | none => rw [buildHttp_of_not_found hf, page, hf]
  | some f =>
    obtain ⟨hfits, hreads⟩ := h f hf
    rw [page, hf, List.length_append] at hfits
    rw [buildHttp_of_found hf, page, hf, List.append_cancel_left_eq]
    exact (readLoop_eq_iff (List.nil_append _).symm hfits (by omega)).2 hreads

/-- A request that has been received as far as the version is accepted. -/
theorem accepted_of_received (hurl : Spells url name) (h0 : 0 ∉ name) (h32 : 32 ∉ url)
    (hsize : chunk.length ≤ bufferSize) (hrequest : requestText url <+: chunk) :
    Accepted env [chunk] url := by
  have htake : ([chunk].headD []).take bufferSize = chunk := List.take_of_length_le hsize
  have hpos : 0 < chunk.length := by
    have hlen := hrequest.length_le
    rw [requestText_length] at hlen
    omega
  rw [Accepted, htake]
  refine ⟨List.length_pos_iff.1 hpos, urlFile_eq_some.2 ⟨h32, hurl.zero_not_mem h0, ?_⟩⟩
  exact hrequest.trans (List.prefix_append _ _)

/-- What `recv` returned begins with the request, if it is long enough. -/
theorem Received.request (h : Received events chunk) (hrequest : requestText url <+: clientData events)
    (hrecv : ∀ len, .recv len ∈ events → (requestText url).length ≤ len) :
    requestText url <+: chunk ∧ chunk.length ≤ bufferSize := by
  obtain ⟨hpos, hsent, hcount, hmem⟩ := h
  refine ⟨List.prefix_of_prefix_length_le hrequest (List.take_prefix _ _) ?_, ?_⟩
  · rw [List.length_take, Nat.min_eq_left hsent]
    exact hrecv _ hmem
  · exact (List.length_take_le _ _).trans hcount

/-- The handler sends the file, or runs over `extension`. -/
theorem handler_eq_page (hfiles : env.openFile = opened files) (hservable : Servable files url name)
    (hurl : Spells url name) (h0 : 0 ∉ name) (haccepted : Accepted env [chunk] url) :
    handler env [chunk] = .sent (page files url name) ∨ handler env [chunk] = .overflow := by
  rw [haccepted.handler_eq, serve, file_of_spells hurl h0, hfiles, buildHttp_eq_page hservable]
  split
  · exact .inr rfl
  · exact .inl rfl

theorem respond_ne_closed (h : handler env [chunk] = .sent response ∨ handler env [chunk] = .overflow) :
    respond env chunk ≠ (.closed, .running) := by
  unfold respond
  split
  · simp
  · rcases h with h | h <;> simp [h]

/-- Whatever the other connections do: a client that sends a request for a spelling of a file's name, all of
which `recv` returns as far as the version, is sent nothing but the header and the file, or that there is no
such file; where the process ends before the response has been handed over, or `send` returns early, that is
a beginning of it. The client gets all of it by the time the server closes the connection, unless it has
reset the connection, there was no thread for it, `recv` was interrupted, or `send` has returned early. -/
theorem fetched_page {acts : List Action} (h : replay (step envs) initial acts = some s)
    (hdefined : s.process ≠ .undefined) {j : Nat} (hfiles : (envs j).openFile = opened files)
    (hservable : Servable files url name) (hurl : Spells url name) (h0 : 0 ∉ name) (h32 : 32 ∉ url)
    (hrequest : requestText url <+: clientData (acts.filterMap (eventOf j)))
    (hrecv : ∀ len, .event j (.recv len) ∈ acts → (requestText url).length ≤ len) :
    (s.connections j).sent <+: page files url name ∧
    ((s.connections j).stage = .closed → .event j .reset ∉ acts → .event j (.create false) ∉ acts →
      .event j .recvFails ∉ acts → .event j .sendEnds ∉ acts →
        (s.connections j).sent = page files url name) := by
  have hrecv' : ∀ len, .recv len ∈ acts.filterMap (eventOf j) → (requestText url).length ≤ len :=
    fun len hlen => hrecv len (mem_events.1 hlen)
  have haccepted : ∀ chunk, Received (acts.filterMap (eventOf j)) chunk →
      Accepted (envs j) [chunk] url := by
    intro chunk hchunk
    obtain ⟨hpre, hsize⟩ := hchunk.request hrequest hrecv'
    exact accepted_of_received hurl h0 h32 hsize hpre
  have hanswers : ∀ response, Answers (envs j) (acts.filterMap (eventOf j)) response →
      response = page files url name := by
    rintro response ⟨chunk, hchunk, hresponse⟩
    rcases handler_eq_page hfiles hservable hurl h0 (haccepted chunk hchunk) with hpage | hoverflow
    · exact Outcome.sent.inj (hresponse.symm.trans hpage)
    · rw [hoverflow] at hresponse
      cases hresponse
  cases (replay_inv h hdefined j).progress with
  | waiting hstage hsent harrived =>
    exact ⟨hsent ▸ List.nil_prefix, fun hclosed => by simp [hclosed] at hstage⟩
  | sending hstage h =>
    exact ⟨hanswers _ h ▸ List.prefix_append _ _, fun hclosed => by simp [hclosed] at hstage⟩
  | answered hstage h => exact ⟨hanswers _ h ▸ List.prefix_rfl, fun _ _ _ _ _ => hanswers _ h⟩
  | cutShort hstage hends h hpre =>
    exact ⟨hanswers _ h ▸ hpre, fun _ _ _ _ hnot => absurd (mem_events.1 hends) hnot⟩
  | unanswered hstage hsent h =>
    refine ⟨hsent ▸ List.nil_prefix, fun _ hreset hcreate hfails _ => ?_⟩
    cases h with
    | notCreated h => exact absurd (mem_events.1 h) hcreate
    | interrupted h => exact absurd (mem_events.1 h) hfails
    | wasReset h => exact absurd (mem_events.1 h) hreset
    | noData hfinished hdata =>
      have hlen := hrequest.length_le
      rw [hdata, requestText_length] at hlen
      simp at hlen
    | noRequest hchunk hrespond =>
      exact absurd hrespond
        (respond_ne_closed (handler_eq_page hfiles hservable hurl h0 (haccepted _ hchunk)))

/-- A file system with one file, of which a `read` returns at most four bytes. -/
def noteFiles (path : List UInt8) : Option File :=
  if path = ascii "a b.txt" then some ⟨ascii "hello", fun _ => some 3⟩ else none

/-- A client that asks for that file, and one that goes away. -/
def noteRun : List Action :=
  [.event 1 .connect, .event 1 .accept, .event 0 .connect, .event 1 (.create true), .event 0 .accept,
    .event 0 (.create true), .event 0 (.arrive (ascii "GET /a%20b.txt HTTP/1")), .event 1 .reset,
    .event 0 (.arrive (ascii ".1\r\n\r\n")), .event 0 (.recv 26), .event 1 .recvEnds, .event 0 (.send 30),
    .event 0 (.send 20)]

theorem note_fetched : ∃ s, replay (step fun _ => { clearEnv with openFile := opened noteFiles }) initial
      noteRun = some s ∧
    (s.connections 0).sent = ascii "HTTP/1.1 200 OK\r\nContent-Type: text/plain\r\n\r\nhello" := by
  obtain ⟨s, hs, hrunning, hclosed⟩ : ∃ s,
      replay (step fun _ => { clearEnv with openFile := opened noteFiles }) initial noteRun = some s ∧
        s.process ≠ .undefined ∧ (s.connections 0).stage = .closed := ⟨_, rfl, by decide, by decide⟩
  have hurl : Spells (ascii "a%20b.txt") (ascii "a b.txt") := by
    refine .plain (by decide) (.escape (x := 2) (y := 0) (by decide) (by decide) ?_)
    refine .plain (by decide) (.plain (by decide) (.plain (by decide) ?_))
    exact .plain (by decide) (.plain (by decide) .nil)
  have hservable : Servable noteFiles (ascii "a%20b.txt") (ascii "a b.txt") := by
    intro f hf
    obtain rfl : ⟨ascii "hello", fun _ => some 3⟩ = f := Option.some.inj hf
    exact ⟨by decide, .more rfl (.more rfl (.done 2))⟩
  have hrecv : ∀ len, .event 0 (.recv len) ∈ noteRun →
      (requestText (ascii "a%20b.txt")).length ≤ len := by
    intro len hlen
    obtain rfl : len = 26 := by simpa [noteRun] using hlen
    decide
  have hfetched :=
    fetched_page hs hrunning (j := 0) rfl hservable hurl (by decide) (by decide) (by decide) hrecv
  exact ⟨s, hs, (hfetched.2 hclosed (by decide) (by decide) (by decide) (by decide)).trans (by decide)⟩

end SystemsProgramming.HttpServer
