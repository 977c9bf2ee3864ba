import SystemsProgramming.MiniPipeline.Proofs.WiringProofs

/-!
# Proofs: what goes through the pipeline

Only the first command and what it starts can write to the pipe, and only the second and what it starts can
read from it. So what the second reads is what the first has written, in order; and when it is told that
the file has ended, that is all of it.
-/

namespace SystemsProgramming.MiniPipeline

open Foundations Descriptors

variable {α : Type} {s s' : State α} {a : Action α} {init : Descriptors α} {acts more : List (Action α)}

/-! ## Who writes and who reads -/

/-- The action is one of a command of this family. -/
def State.Acts (s : State α) (f : Family) : Action α → Bool
  | .command pid _ => (s.processes[pid]?).any fun p => p.family = f
  | _ => false

/-- What an action puts into the pipe. -/
def Action.data : Action α → List UInt8
  | .command _ (.write _ data) => data
  | _ => []

/-- What an action takes from the pipe. -/
def State.taken (s : State α) : Action α → List UInt8
  | .command _ (.read _ count) => s.content.take count
  | _ => []

/-- What a family puts into the pipe with an action. -/
def State.writes (f : Family) (s : State α) (a : Action α) : List UInt8 :=
  if s.Acts f a then a.data else []

/-- What a family takes from the pipe with an action. -/
def State.reads (f : Family) (s : State α) (a : Action α) : List UInt8 :=
  if s.Acts f a then s.taken a else []

/-- A command of the first family never has the read end, and a process of the second family is there only
when the parent has made its last call of `fork`. -/
structure Sides (s : State α) : Prop where
  first : ∀ p ∈ s.processes, p.stage = .command → p.family = .first → ¬ p.table.Holds .readEnd
  second : ∀ p ∈ s.processes, p.family = .second →
    (∃ todo pids, s.parent = .rest todo pids) ∨ s.parent = .returned

theorem not_holds_wired_first : ¬ (wired init .first).Holds .readEnd := by
  intro h
  obtain ⟨fd, hfd⟩ := h.of_opened nofun
  exact (inherited_ne_end fd).1 hfd

/-- A command of the first family gets no read end in a step of its own. -/
theorem ProcessMoves.first {p p' : Process α} (hok : p.Ok init)
    (h : p.stage = .command → p.family = .first → ¬ p.table.Holds .readEnd) (hmoves : ProcessMoves p p') :
    p'.stage = .command → p'.family = .first → ¬ p'.table.Holds .readEnd := by
  intro hcommand hfirst
  cases hmoves with
  | call hstage => cases hcommand
  | exec hstage =>
    have htable : p.table = wired init p.family := hok.child hstage
    show ¬ p.table.Holds .readEnd
    rw [htable, hfirst]
    exact not_holds_wired_first
  | ended => cases hcommand
  | dup2 hstage oldfd newfd => exact fun hnew => h hstage hfirst hnew.of_dup2
  | close hstage fd => exact fun hnew => h hstage hfirst hnew.of_close
  | openFile hstage fd a => exact fun hnew => h hstage hfirst (hnew.of_opened nofun)

theorem Sides.moves (hinv : Inv init s) (h : Sides s) (hmoves : Moves s s') : Sides s' := by
  obtain ⟨hfirst, hsecond⟩ := h
  have hno : ∀ {q : Parent}, s.parent = q → (∀ todo pids, q ≠ .rest todo pids) → q ≠ .returned →
      ∀ p ∈ s.processes, p.family ≠ .second := by
    rintro _ rfl hrest hreturned p hp hf
    rcases hsecond p hp hf with ⟨todo, pids, h⟩ | h
    · exact hrest todo pids h
    · exact hreturned h
  cases hmoves with
  | pipe hparent _ _ _ => exact ⟨hfirst, fun p hp hf => absurd hf (hno hparent nofun nofun p hp)⟩
  | fork1 hparent =>
    refine ⟨List.forall_mem_append.2 ⟨hfirst, ?_⟩, List.forall_mem_append.2 ⟨?_, ?_⟩⟩
    · simp
    · exact fun p hp hf => absurd hf (hno hparent nofun nofun p hp)
    · simp
  | fork2 hparent =>
    refine ⟨List.forall_mem_append.2 ⟨hfirst, ?_⟩, fun _ _ _ => .inl ⟨_, _, rfl⟩⟩
    simp
  | call _ => exact ⟨hfirst, fun _ _ _ => .inl ⟨_, _, rfl⟩⟩
  | wait _ => exact ⟨hfirst, fun _ _ _ => .inl ⟨_, _, rfl⟩⟩
  | returned _ => exact ⟨hfirst, fun _ _ _ => .inr rfl⟩
  | @process pid p p' hp hchange =>
    have hmem := List.mem_of_getElem? hp
    refine ⟨fun q hq => ?_, fun q hq hf => ?_⟩
    · rcases List.mem_or_eq_of_mem_set hq with hq | rfl
      · exact hfirst q hq
      · exact hchange.first (hinv.processes p hmem) (hfirst p hmem)
    · rcases List.mem_or_eq_of_mem_set hq with hq | rfl
      · exact hsecond q hq hf
      · exact hsecond p hmem (hchange.over.1.symm.trans hf)
  | @fork pid p hp _ =>
    have hmem := List.mem_of_getElem? hp
    refine ⟨List.forall_mem_append.2 ⟨hfirst, ?_⟩, List.forall_mem_append.2 ⟨hsecond, ?_⟩⟩
    · rw [List.forall_mem_singleton]
      exact hfirst p hmem
    · rw [List.forall_mem_singleton]
      exact hsecond p hmem
  | write _ _ _ => exact ⟨hfirst, hsecond⟩
  | read _ => exact ⟨hfirst, hsecond⟩

/-! ## Steps -/

theorem acts_command {pid : Nat} {p : Process α} (hp : s.processes[pid]? = some p) (f : Family)
    (act : Act α) : s.Acts f (.command pid act) = decide (p.family = f) := by
  rw [State.Acts, hp, Option.any_some]

/-- What is written is written by the first family. -/
theorem Inv.writes_eq (hinv : Inv init s) (h : step s a = some s') (f : Family) :
    s.writes f a = if f = .first then a.data else [] := by
  unfold State.writes
  cases a with
  | command pid act =>
    obtain ⟨p, hp, h⟩ := Option.bind_eq_some_iff.1 h
    rw [acts_command hp]
    split at h
    · rename_i hstage
      cases act with
      | write fd data =>
        simp only [commandStep] at h
        split at h
        · rename_i hfd
          have hfirst : p.family = .first := by
            cases hf : p.family with
            | first => rfl
            | second =>
              exact absurd ⟨fd, hfd⟩ ((hinv.processes p (List.mem_of_getElem? hp)).command hstage hf)
          simp [hfirst, eq_comm]
        · cases h
      | _ => simp [Action.data]
    · cases h
  | _ => simp [Action.data]

/-- What is read is read by the second family. -/
theorem Sides.reads_eq (hsides : Sides s) (h : step s a = some s') (f : Family) :
    s.reads f a = if f = .second then s.taken a else [] := by
  unfold State.reads
  cases a with
  | command pid act =>
    obtain ⟨p, hp, h⟩ := Option.bind_eq_some_iff.1 h
    rw [acts_command hp]
    split at h
    · rename_i hstage
      cases act with
      | read fd count =>
        simp only [commandStep] at h
        split at h
        · rename_i hfd
          have hsecond : p.family = .second := by
            cases hf : p.family with
            | second => rfl
            | first => exact absurd ⟨fd, hfd⟩ (hsides.first p (List.mem_of_getElem? hp) hstage hf)
          simp [hsecond, eq_comm]
        · cases h
      | _ => simp [State.taken]
    · cases h
  | _ => simp [State.taken]

/-- The parent leaves the content of the pipe alone. -/
theorem content_of_parentStep (h : parentStep s = some s') : s'.content = s.content := by
  unfold parentStep at h
  split at h
  case h_5 =>
    split at h
    · cases h
      rfl
    · cases h
  all_goals
    cases h
    try rfl

/-- The pipe is first in, first out. -/
theorem content_of_commandStep {pid : Nat} {p : Process α} {act : Act α}
    (h : commandStep s pid p act = some s') :
    s.taken (.command pid act) ++ s'.content = s.content ++ (Action.command pid act).data := by
  cases act with
  | write fd data =>
    simp only [commandStep] at h
    split at h
    · cases h
      rfl
    · cases h
  | read fd count =>
    simp only [commandStep] at h
    split at h
    · split at h
      · cases h
        exact (List.take_append_drop count s.content).trans (List.append_nil _).symm
      · cases h
    · cases h
  | openFile fd a =>
    simp only [commandStep] at h
    split at h
    · cases h
      exact (List.append_nil _).symm
    · cases h
  | _ =>
    cases h
    exact (List.append_nil _).symm

theorem content_of_step (h : step s a = some s') : s.taken a ++ s'.content = s.content ++ a.data := by
  cases a with
  | pipe fd0 fd1 =>
    simp only [step] at h
    split at h
    · cases h
      exact (List.append_nil _).symm
    · cases h
  | parent => exact (content_of_parentStep h).trans (List.append_nil _).symm
  | command pid act =>
    obtain ⟨p, hp, h⟩ := Option.bind_eq_some_iff.1 h
    split at h
    · exact content_of_commandStep h
    · cases h
  | child pid | exec pid | execFails pid =>
    obtain ⟨p, hp, h⟩ := Option.bind_eq_some_iff.1 h
    split at h
    · cases h
      exact (List.append_nil _).symm
    · cases h

/-! ## Runs -/

theorem sides_step (hstd : StandardOpen init) (hI : Inv init s ∧ Sides s) (h : step s a = some s') :
    Inv init s' ∧ Sides s' := by
  have hmoves := moves_of_step h
  exact ⟨hI.1.moves hstd hmoves, hI.2.moves hI.1 hmoves⟩

theorem sides_initial (init : Descriptors α) : Inv init (initial init) ∧ Sides (initial init) :=
  ⟨⟨rfl, nofun⟩, ⟨nofun, nofun⟩⟩

theorem replay_sides (hstd : StandardOpen init) (h : replay step (initial init) acts = some s) :
    Inv init s ∧ Sides s :=
  Reachable.invariant (I := fun s => Inv init s ∧ Sides s) ⟨acts, h⟩ (sides_initial init)
    fun _ _ _ hI hstep => sides_step hstd hI hstep

theorem replay_flow (hstd : StandardOpen init) (h : replay step (initial init) acts = some s) :
    outputs step (State.reads .second) (initial init) acts ++ s.content =
      outputs step (State.writes .first) (initial init) acts := by
  have hstep : ∀ (s : State α) a s', Inv init s ∧ Sides s → step s a = some s' →
      (Inv init s' ∧ Sides s') ∧ s.reads .second a ++ s'.content = s.content ++ s.writes .first a := by
    intro s a s' hI hstep
    refine ⟨sides_step hstd hI hstep, ?_⟩
    rw [hI.2.reads_eq hstep, hI.1.writes_eq hstep]
    exact content_of_step hstep
  exact outputs_conserve hstep (sides_initial init) h

/-- In every interleaving, whatever the commands do: what the second command and its processes have read is
what the first and its processes have written, in order, up to what is still in the pipe. The first never
reads from it, and the second never writes to it. -/
theorem pipeline_flow (hstd : StandardOpen init) (h : replay step (initial init) acts = some s) :
    outputs step (State.reads .second) (initial init) acts ++ s.content =
      outputs step (State.writes .first) (initial init) acts ∧
    outputs step (State.reads .first) (initial init) acts = [] ∧
    outputs step (State.writes .second) (initial init) acts = [] := by
  refine ⟨replay_flow hstd h, ?_, ?_⟩
  · exact outputs_eq_nil (I := fun s => Inv init s ∧ Sides s)
      (fun s a s' hI hstep => ⟨sides_step hstd hI hstep, hI.2.reads_eq hstep .first⟩) (sides_initial init) h
  · exact outputs_eq_nil (I := fun s => Inv init s ∧ Sides s)
      (fun s a s' hI hstep => ⟨sides_step hstd hI hstep, hI.1.writes_eq hstep .second⟩) (sides_initial init) h

/-- A run in which `pipe` returns 3 and 4: the first command starts another process, and each of them
writes; the second command reads twice. -/
def talk : List (Action Nat) :=
  [.pipe 3 4, .parent, .child 0, .child 0, .parent, .child 0, .exec 0, .child 1, .command 0 .fork,
    .command 0 (.write 1 (ascii "hea")), .child 1, .parent, .child 1, .exec 1,
    .command 2 (.write 1 (ascii "ds")), .command 1 (.read 0 2), .command 0 .exit, .parent,
    .command 1 (.read 0 5)]

/-- Descriptors 0, 1 and 2 are open. -/
def standard : Descriptors Nat := fun fd => if fd < 3 then some fd else none

theorem standard_open : StandardOpen standard := ⟨by decide, by decide, by decide⟩

theorem talk_flow : ∃ s, replay step (initial standard) talk = some s ∧
    outputs step (State.reads .second) (initial standard) talk = ascii "heads" ∧
    outputs step (State.reads .second) (initial standard) talk ++ s.content =
      outputs step (State.writes .first) (initial standard) talk := by
  obtain ⟨s, hs⟩ : ∃ s, replay step (initial standard) talk = some s := ⟨_, rfl⟩
  exact ⟨s, hs, by decide, (pipeline_flow standard_open hs).1⟩

/-! ## The end of the file -/

/-- Nobody has the write end, and the parent is past its last call of `fork`. -/
def State.NoWriter (s : State α) : Prop :=
  ¬ s.HasWriter ∧ ((∃ todo pids, s.parent = .rest todo pids) ∨ s.parent = .returned)

/-- No step of a process brings in the write end. -/
theorem ProcessMoves.holds {p p' : Process α} (hmoves : ProcessMoves p p')
    (h : p'.table.Holds .writeEnd) : p.table.Holds .writeEnd := by
  cases hmoves with
  | @call op todo hstage =>
    cases op with
    | dup2 oldfd newfd => exact h.of_dup2
    | close fd => exact h.of_close
  | exec hstage => exact h
  | ended => exact absurd h not_holds_none
  | dup2 hstage oldfd newfd => exact h.of_dup2
  | close hstage fd => exact h.of_close
  | openFile hstage fd a => exact h.of_opened nofun

/-- Once nobody has the write end, nobody gets it any more. -/
theorem State.NoWriter.moves (h : s.NoWriter) (hmoves : Moves s s') : s'.NoWriter := by
  obtain ⟨hwriter, hparent⟩ := h
  have hne : ∀ {q : Parent}, s.parent = q → (∃ todo pids, q = .rest todo pids) ∨ q = .returned := by
    rintro _ rfl
    exact hparent
  cases hmoves with
  | pipe hp _ _ _ => rcases hne hp with ⟨_, _, h⟩ | h <;> cases h
  | fork1 hp => rcases hne hp with ⟨_, _, h⟩ | h <;> cases h
  | fork2 hp => rcases hne hp with ⟨_, _, h⟩ | h <;> cases h
  | @call op todo pids hp =>
    refine ⟨?_, .inl ⟨_, _, rfl⟩⟩
    rintro (hholds | hholds)
    · refine hwriter (.inl ?_)
      cases op with
      | dup2 oldfd newfd => exact hholds.of_dup2
      | close fd => exact hholds.of_close
    · exact hwriter (.inr hholds)
  | wait hp => exact ⟨hwriter, .inl ⟨_, _, rfl⟩⟩
  | returned hp =>
    refine ⟨?_, .inr rfl⟩
    rintro (hholds | hholds)
    · exact not_holds_none hholds
    · exact hwriter (.inr hholds)
  | @process pid p p' hp hchange =>
    refine ⟨?_, hparent⟩
    rintro (hholds | ⟨q, hq, hholds⟩)
    · exact hwriter (.inl hholds)
    · rcases List.mem_or_eq_of_mem_set hq with hq | rfl
      · exact hwriter (.inr ⟨q, hq, hholds⟩)
      · exact hwriter (.inr ⟨p, List.mem_of_getElem? hp, hchange.holds hholds⟩)
  | @fork pid p hp _ =>
    refine ⟨?_, hparent⟩
    rintro (hholds | ⟨q, hq, hholds⟩)
    · exact hwriter (.inl hholds)
    · rcases List.mem_append.1 hq with hq | hq
      · exact hwriter (.inr ⟨q, hq, hholds⟩)
      · rw [List.mem_singleton.1 hq] at hholds
        exact hwriter (.inr ⟨p, List.mem_of_getElem? hp, hholds⟩)
  | write _ _ _ => exact ⟨hwriter, hparent⟩
  | read _ => exact ⟨hwriter, hparent⟩

theorem data_eq_nil (hwriter : ¬ s.HasWriter) (h : step s a = some s') : a.data = [] := by
  cases a with
  | command pid act =>
    obtain ⟨p, hp, h⟩ := Option.bind_eq_some_iff.1 h
    split at h
    · cases act with
      | write fd data =>
        simp only [commandStep] at h
        split at h
        · exact absurd (.inr ⟨p, List.mem_of_getElem? hp, fd, ‹_›⟩) hwriter
        · cases h
      | _ => rfl
    · cases h
  | _ => rfl

/-- In every interleaving: when a command reads the end of the file from the pipe, all that the first
command and its processes have written, or ever will, has been read. -/
theorem end_of_file_complete (hstd : StandardOpen init) (h : replay step (initial init) acts = some s)
    {p : Process α} (hp : p ∈ s.processes) (hstage : p.stage = .command) {fd : Nat}
    (hfd : p.table fd = some .readEnd) {count : Nat} (hcount : 0 < count) (hend : Reads s count [])
    (hmore : replay step s more = some s') :
    outputs step (State.reads .second) (initial init) acts =
      outputs step (State.writes .first) (initial init) (acts ++ more) := by
  have hI := replay_sides hstd h
  have hsecond : p.family = .second := by
    cases hf : p.family with
    | second => rfl
    | first => exact absurd ⟨fd, hfd⟩ (hI.2.first p hp hstage hf)
  obtain ⟨hempty, hwriter⟩ : s.content = [] ∧ ¬ s.HasWriter := by
    generalize hdata : ([] : List UInt8) = data at hend
    cases hend with
    | data hne =>
      have hlen := congrArg List.length hdata
      rw [List.length_nil, List.length_take] at hlen
      have hpos := List.length_pos_iff.2 hne
      omega
    | endOfFile hempty hwriter => exact ⟨hempty, hwriter⟩
  have hnothing : outputs step (State.writes .first) s more = [] := by
    refine outputs_eq_nil (I := fun s => (Inv init s ∧ Sides s) ∧ s.NoWriter) ?_
      ⟨hI, hwriter, hI.2.second p hp hsecond⟩ hmore
    intro s a s' hI hstep
    refine ⟨⟨sides_step hstd hI.1 hstep, hI.2.moves (moves_of_step hstep)⟩, ?_⟩
    rw [hI.1.1.writes_eq hstep]
    exact data_eq_nil hI.2.1 hstep
  have hflow := replay_flow hstd h
  rw [hempty, List.append_nil] at hflow
  rw [outputs_append h, hnothing, List.append_nil, hflow]

/-- The other process of the first command exits as well, and the second command reads the end of the file
before it exits. -/
theorem talk_ended : outputs step (State.reads .second) (initial standard) (talk ++ [.command 2 .exit]) =
    outputs step (State.writes .first) (initial standard)
      (talk ++ [.command 2 .exit] ++ [.command 1 .exit]) := by
  obtain ⟨s, p, hs, hp, hstage, hfd, hempty, hover⟩ : ∃ s p,
      replay step (initial standard) (talk ++ [.command 2 .exit]) = some s ∧ p ∈ s.processes ∧
        p.stage = .command ∧ p.table 0 = some .readEnd ∧ s.content = [] ∧ s.Over := by
    refine ⟨_, _, rfl, List.mem_of_getElem? (i := 1) rfl, rfl, rfl, rfl, ⟨.inl ⟨_, rfl⟩, by decide, ?_⟩⟩
    suffices hsecond : ∀ p : Process Nat, p ∈ _ → p.family = .second → p.stage = .command by
      intro p hp hfamily op todo hstage
      rw [hsecond p hp hfamily] at hstage
      cases hstage
    decide
  obtain ⟨s', hs'⟩ : ∃ s', replay step (initial standard)
      (talk ++ [.command 2 .exit] ++ [.command 1 .exit]) = some s' := ⟨_, rfl⟩
  rw [replay_append_some hs] at hs'
  have hwriter : ¬ s.HasWriter := (replay_sides standard_open hs).1.not_hasWriter hover
  exact end_of_file_complete standard_open hs hp hstage hfd Nat.one_pos (.endOfFile hempty hwriter) hs'

end SystemsProgramming.MiniPipeline
