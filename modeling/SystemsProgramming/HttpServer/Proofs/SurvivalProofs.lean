import SystemsProgramming.HttpServer.Proofs.ExtensionProofs
import SystemsProgramming.HttpServer.System

/-!
# Proofs: what the clients can do to the server

The process goes on as long as no handler sends on a connection that has been reset and every request
stays inside the arrays it is copied to. What happens to one connection never depends on the others.
-/

namespace SystemsProgramming.HttpServer

open Foundations

variable {envs : Nat → Env} {s s' : State} {a : Action}

/-! ## Requests -/

/-- What the handler receives stays inside its arrays: the string in `buffer` ends there, and so does the
extension of an accepted request in `extension`. -/
def StaysInside (env : Env) (chunk : List UInt8) : Prop :=
  (cString (env.buffer chunk)).length < bufferSize ∧
    ∀ url, Accepted env [chunk] url → ShortEnding url

theorem respond_running_iff (env : Env) (chunk : List UInt8) :
    (respond env chunk).2 = .running ↔ StaysInside env chunk := by
  unfold respond StaysInside
  rw [← handler_ne_overflow_iff, ← Nat.not_le]
  split
  · rename_i hlong
    exact iff_of_false Process.noConfusion fun h => h.1 hlong
  · rename_i hshort
    cases h : handler env [chunk] with
    | nothing => exact iff_of_true rfl ⟨hshort, Outcome.noConfusion⟩
    | overflow => exact iff_of_false Process.noConfusion fun hne => hne.2 rfl
    | sent response => exact iff_of_true rfl ⟨hshort, Outcome.noConfusion⟩

/-! ## Events -/

/-- The event does no harm: no `send` hands over anything on a connection that the client has reset, where
it raises `SIGPIPE`, and what is received stays inside the arrays. -/
def Connection.Harmless (env : Env) (c : Connection) : Event → Prop
  | .send _ => c.reset = false
  | .recv len => StaysInside env (c.arrived.take len)
  | _ => True

/-- The process goes on after an event if and only if the event does no harm. -/
theorem Connection.step_running_iff {env : Env} {c : Connection} {e : Event}
    {r : Connection × Process} (h : c.step env e = some r) :
    r.2 = .running ↔ c.Harmless env e := by
  cases e with
  | recv len =>
    simp only [Connection.step] at h
    split at h
    · cases h
      exact respond_running_iff env _
    · cases h
  | send len =>
    simp only [Connection.step] at h
    split at h
    · split at h
      · rename_i hreset
        cases h
        refine iff_of_false Process.noConfusion fun hno => ?_
        rw [Connection.Harmless, hreset] at hno
        cases hno
      · rename_i hreset
        split at h
        · cases h
          exact iff_of_true rfl (Bool.eq_false_iff.2 hreset)
        · cases h
    · cases h
  | sendEnds =>
    simp only [Connection.step] at h
    split at h
    · cases h
      exact iff_of_true rfl trivial
    · cases h
  | _ =>
    simp only [Connection.step] at h
    split at h
    all_goals
      cases h
      try exact iff_of_true rfl trivial

/-! ## Steps -/

/-- The step does no harm. -/
def Harmless (envs : Nat → Env) (s : State) : Action → Prop
  | .event i e => (s.connections i).Harmless (envs i) e
  | _ => True

theorem goOn_connections (s : State) (i : Nat) (e : Event) :
    (s.goOn i e).connections = s.connections := by
  unfold State.goOn State.loopHead
  split
  · rfl
  · split <;> rfl
  · rfl

/-- As long as `keep_running` is set, the accept loop goes on. -/
theorem loopHead_of_keepRunning (h : s.keepRunning = true) :
    s.loopHead = { s with main := .accepting } := by
  rw [State.loopHead, if_pos h]

theorem goOn_keeps (h : s.keepRunning = true) (i : Nat) (e : Event) :
    (s.goOn i e).keepRunning = true ∧ (s.goOn i e).process = s.process := by
  unfold State.goOn
  split
  · exact ⟨h, rfl⟩
  · rw [loopHead_of_keepRunning h]
    exact ⟨h, rfl⟩
  · exact ⟨h, rfl⟩

/-- One step, while the user sends no signal. -/
theorem step_keeps (hkeep : s.keepRunning = true) (hrunning : s.process = .running)
    (hsignal : a ≠ .interrupt) (h : step envs s a = some s') :
    s'.keepRunning = true ∧ (s'.process = .running ↔ Harmless envs s a) := by
  cases a with
  | event i e =>
    simp only [step] at h
    split at h
    · obtain ⟨r, hr, rfl⟩ := Option.map_eq_some_iff.1 h
      obtain ⟨h1, h2⟩ := goOn_keeps (s := { s with
        process := r.2, connections := Function.update s.connections i r.1 }) hkeep i e
      refine ⟨h1, ?_⟩
      rw [h2]
      exact Connection.step_running_iff hr
    · cases h
  | acceptFails errno =>
    simp only [step] at h
    split at h
    · rename_i hfails
      have hne : errno ≠ .eintr := by
        intro heintr
        rw [hfails.2.2 heintr] at hkeep
        cases hkeep
      rw [if_neg hne, loopHead_of_keepRunning hkeep] at h
      cases h
      exact ⟨hkeep, iff_of_true hrunning trivial⟩
    · cases h
  | interrupt => exact absurd rfl hsignal

/-- Nothing happens any more when the process is gone. -/
theorem stuck_of_not_running (h : s.process ≠ .running) : Stuck (step envs) s := by
  intro a
  cases a with
  | event i e =>
    simp only [step]
    exact if_neg fun hs => h hs.1
  | acceptFails errno =>
    simp only [step]
    exact if_neg fun hs => h hs.1
  | interrupt =>
    simp only [step]
    exact if_neg h

/-! ## Connections by themselves -/

/-- The event, if the action is one of the connection `j`. -/
def eventOf (j : Nat) : Action → Option Event
  | .event i e => if i = j then some e else none
  | _ => none

/-- A connection without the others. -/
def Connection.alone (env : Env) (c : Connection) (e : Event) : Option Connection :=
  (c.step env e).map Prod.fst

/-- An action of a connection does to it what it would do without the others. -/
theorem step_own {j : Nat} {e : Event} (hown : eventOf j a = some e) (h : step envs s a = some s') :
    (s.connections j).alone (envs j) e = some (s'.connections j) := by
  cases a with
  | event i e' =>
    simp only [eventOf, Option.ite_none_right_eq_some, Option.some.injEq] at hown
    obtain ⟨rfl, rfl⟩ := hown
    simp only [step] at h
    split at h
    · obtain ⟨r, hr, rfl⟩ := Option.map_eq_some_iff.1 h
      rw [goOn_connections]
      show _ = some (Function.update s.connections i r.1 i)
      rw [Function.update_self, Connection.alone, hr]
      rfl
    · cases h
  | acceptFails errno => cases hown
  | interrupt => cases hown

/-- An action of no connection, or of another one, does nothing to it. -/
theorem step_other {j : Nat} (hother : eventOf j a = none) (h : step envs s a = some s') :
    s'.connections j = s.connections j := by
  cases a with
  | event i e =>
    have hne : j ≠ i := by
      rintro rfl
      simp [eventOf] at hother
    simp only [step] at h
    split at h
    · obtain ⟨r, hr, rfl⟩ := Option.map_eq_some_iff.1 h
      rw [goOn_connections]
      exact Function.update_of_ne hne ..
    · cases h
  | acceptFails errno =>
    simp only [step] at h
    split at h
    · cases h
      split
      · rfl
      · exact congrFun (goOn_connections s 0 (.create true)) j
    · cases h
  | interrupt =>
    simp only [step] at h
    split at h
    · cases h
      rfl
    · cases h

/-! ## Runs -/

/-- In every run without a signal, the server still runs if and only if no step has done any harm. The
accept loop has then not ended, as `keep_running` is set. Every connection is in the state that its own
events alone have led to. -/
theorem server_survives_iff (envs : Nat → Env) (acts : List Action) (s : State)
    (h : replay (step envs) initial acts = some s) (hsignal : .interrupt ∉ acts) :
    ((s.process = .running ∧ s.keepRunning = true) ↔
      Throughout (step envs) (Harmless envs) initial acts) ∧
    ∀ j, replay (Connection.alone (envs j)) .fresh (acts.filterMap (eventOf j)) =
      some (s.connections j) := by
  have hD : ∀ a ∈ acts, a ≠ .interrupt := fun a ha heq => hsignal (heq ▸ ha)
  refine ⟨?_, fun j => ?_⟩
  · obtain ⟨hkeep, hrunning⟩ := replay_iff_throughout (I := fun s => s.keepRunning = true)
      (P := fun s => s.process = .running) (fun s a s' hI hP hne hs => step_keeps hI hP hne hs)
      (fun s hs => stuck_of_not_running hs) rfl rfl hD h
    rw [and_iff_left hkeep]
    exact hrunning
  · exact replay_part (fun s => s.connections j) (fun s a b s' hown hs => step_own hown hs)
      (fun s a s' hother hs => step_other hother hs) h

/-- The memory is clear and there are no files. -/
def clearEnv : Env where
  memory := []
  hex := fun _ => 0
  openFile := fun _ => none

/-- A client that asks for a file and one that resets its connection before it sends anything. -/
def harmlessRun : List Action :=
  [.event 0 .connect, .event 1 .connect, .event 1 .accept, .event 1 .reset, .event 1 (.create true),
    .event 0 .accept, .event 1 .recvEnds, .event 0 (.arrive (ascii "GET /a HTTP/1.1")),
    .event 0 (.create true), .event 0 (.recv 15), .event 0 (.send 20)]

theorem harmlessRun_survived :
    Throughout (step fun _ => clearEnv) (Harmless fun _ => clearEnv) initial harmlessRun := by
  obtain ⟨s, hs, hrunning⟩ : ∃ s, replay (step fun _ => clearEnv) initial harmlessRun = some s ∧
      s.process = .running ∧ s.keepRunning = true := ⟨_, rfl, rfl, rfl⟩
  exact (server_survives_iff _ _ s hs (by decide)).1.1 hrunning

/-- A client that closes its side of the connection and resets it when its request has been received. -/
def resetRun : List Action :=
  [.event 0 .connect, .event 0 .accept, .event 0 (.create true),
    .event 0 (.arrive (ascii "GET /a HTTP/1.1")), .event 0 (.recv 15), .event 0 .finish, .event 0 .reset,
    .event 0 (.send 20)]

/-- It ends the process. -/
theorem reset_kills : ¬ ∀ (envs : Nat → Env) (acts : List Action) (s : State),
    replay (step envs) initial acts = some s → .interrupt ∉ acts →
      s.process = .running ∧ s.keepRunning = true := by
  intro h
  obtain ⟨s, hs, hkilled⟩ : ∃ s, replay (step fun _ => clearEnv) initial resetRun = some s ∧
      s.process = .killed := ⟨_, rfl, rfl⟩
  have hrunning := (h _ _ s hs (by decide)).1
  rw [hkilled] at hrunning
  cases hrunning

end SystemsProgramming.HttpServer
