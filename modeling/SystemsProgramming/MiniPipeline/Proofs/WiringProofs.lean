import SystemsProgramming.Foundations.CString
import SystemsProgramming.MiniPipeline.Pipeline

/-!
# Proofs: the wiring of the pipeline

The invariant of a process before its `execl` is that the calls it has still to make lead to the table
it is to have, and the same for the parent before its first `waitpid`. What a command does with its table
afterwards brings in no end of the pipe that was not there.
-/

namespace SystemsProgramming.MiniPipeline

open Foundations Descriptors

variable {α : Type} {s s' : State α} {a : Action α} {init : Descriptors α}

/-! ## Inversion -/

/-- The steps that change one process and nothing else. -/
inductive ProcessMoves : Process α → Process α → Prop where
  | call {p : Process α} {op : Op} {todo : List Op} (hstage : p.stage = .child (op :: todo)) :
    ProcessMoves p { p with stage := .child todo, table := op.apply p.table }
  | exec {p : Process α} (hstage : p.stage = .child []) :
    ProcessMoves p { p with stage := .command }
  | ended {p : Process α} : ProcessMoves p p.ended
  | dup2 {p : Process α} (hstage : p.stage = .command) (oldfd newfd : Nat) :
    ProcessMoves p { p with table := p.table.dup2 oldfd newfd }
  | close {p : Process α} (hstage : p.stage = .command) (fd : Nat) :
    ProcessMoves p { p with table := p.table.close fd }
  | openFile {p : Process α} (hstage : p.stage = .command) (fd : Nat) (a : α) :
    ProcessMoves p { p with table := p.table.opened fd (.inherited a) }

/-- All steps. -/
inductive Moves (s : State α) : State α → Prop where
  | pipe {pipefd : Nat × Nat} (hparent : s.parent = .pipe) (hne : pipefd.1 ≠ pipefd.2)
    (h0 : s.table pipefd.1 = none) (h1 : s.table pipefd.2 = none) :
    Moves s { s with parent := .fork1 pipefd, table := piped s.table pipefd }
  | fork1 {pipefd : Nat × Nat} (hparent : s.parent = .fork1 pipefd) :
    Moves s { s with
      parent := .fork2 pipefd s.processes.length
      processes := s.processes ++ [⟨.first, .child (firstCalls pipefd), s.table⟩] }
  | fork2 {pipefd : Nat × Nat} {pid : Nat} (hparent : s.parent = .fork2 pipefd pid) :
    Moves s { s with
      parent := .rest (parentCalls pipefd) [pid, s.processes.length]
      processes := s.processes ++ [⟨.second, .child (secondCalls pipefd), s.table⟩] }
  | call {op : Op} {todo : List Op} {pids : List Nat} (hparent : s.parent = .rest (op :: todo) pids) :
    Moves s { s with parent := .rest todo pids, table := op.apply s.table }
  | wait {pid : Nat} {pids : List Nat} (hparent : s.parent = .rest [] (pid :: pids)) :
    Moves s { s with parent := .rest [] pids }
  | returned (hparent : s.parent = .rest [] []) :
    Moves s { s with parent := .returned, table := fun _ => none }
  | process {pid : Nat} {p p' : Process α} (hp : s.processes[pid]? = some p)
    (hmoves : ProcessMoves p p') : Moves s (s.setProcess pid p')
  | fork {pid : Nat} {p : Process α} (hp : s.processes[pid]? = some p) (hstage : p.stage = .command) :
    Moves s { s with processes := s.processes ++ [p] }
  | write {pid fd : Nat} {p : Process α} (hp : s.processes[pid]? = some p)
    (hfd : p.table fd = some .writeEnd) (data : List UInt8) :
    Moves s { s with content := s.content ++ data }
  | read (count : Nat) : Moves s { s with content := s.content.drop count }

theorem moves_of_parentStep (h : parentStep s = some s') : Moves s s' := by
  unfold parentStep at h
  split at h
  · cases h
  · cases h
    exact .fork1 ‹_›
  · cases h
    exact .fork2 ‹_›
  · cases h
    exact .call ‹_›
  · split at h
    · cases h
      exact .wait ‹_›
    · cases h
  · cases h
    exact .returned ‹_›
  · cases h

theorem moves_of_commandStep {pid : Nat} {p : Process α} {act : Act α}
    (hp : s.processes[pid]? = some p) (hstage : p.stage = .command)
    (h : commandStep s pid p act = some s') : Moves s s' := by
  cases act with
  | dup2 oldfd newfd =>
    cases h
    exact .process hp (.dup2 hstage oldfd newfd)
  | close fd =>
    cases h
    exact .process hp (.close hstage fd)
  | openFile fd a =>
    simp only [commandStep] at h
    split at h
    · cases h
      exact .process hp (.openFile hstage fd a)
    · cases h
  | fork =>
    cases h
    exact .fork hp hstage
  | write fd data =>
    simp only [commandStep] at h
    split at h
    · cases h
      exact .write hp ‹_› data
    · cases h
  | read fd count =>
    simp only [commandStep] at h
    split at h
    · split at h
      · cases h
        exact .read count
      · cases h
    · cases h
  | exit =>
    cases h
    exact .process hp .ended

theorem moves_of_step (h : step s a = some s') : Moves s s' := by
  cases a with
  | pipe fd0 fd1 =>
    simp only [step] at h
    split at h
    · rename_i hpipe
      cases h
      exact .pipe hpipe.1 hpipe.2.1 hpipe.2.2.1 hpipe.2.2.2
    · cases h
  | parent => exact moves_of_parentStep h
  | child pid =>
    obtain ⟨p, hp, h⟩ := Option.bind_eq_some_iff.1 h
    split at h
    · cases h
      exact .process hp (.call ‹_›)
    · cases h
  | exec pid =>
    obtain ⟨p, hp, h⟩ := Option.bind_eq_some_iff.1 h
    split at h
    · cases h
      exact .process hp (.exec ‹_›)
    · cases h
  | execFails pid =>
    obtain ⟨p, hp, h⟩ := Option.bind_eq_some_iff.1 h
    split at h
    · cases h
      exact .process hp .ended
    · cases h
  | command pid act =>
    obtain ⟨p, hp, h⟩ := Option.bind_eq_some_iff.1 h
    split at h
    · exact moves_of_commandStep hp ‹_› h
    · cases h

/-! ## The tables -/

/-- The table that a child of the parent is to have when its command is executed. -/
def wired (init : Descriptors α) : Family → Descriptors (File α)
  | .first => (inherited init).opened 1 .writeEnd
  | .second => (inherited init).opened 0 .readEnd

/-- The standard descriptors are open. -/
def StandardOpen (init : Descriptors α) : Prop := init 0 ≠ none ∧ init 1 ≠ none ∧ init 2 ≠ none

/-- `pipe` has returned two free descriptors. -/
structure Free (init : Descriptors α) (pipefd : Nat × Nat) : Prop where
  ne : pipefd.1 ≠ pipefd.2
  fst : inherited init pipefd.1 = none
  snd : inherited init pipefd.2 = none

theorem inherited_ne_none {fd : Nat} (h : init fd ≠ none) : inherited init fd ≠ none := by
  unfold inherited
  rwa [Ne, Option.map_eq_none_iff]

/-- No end of the pipe is inherited. -/
theorem inherited_ne_end (fd : Nat) :
    inherited init fd ≠ some .readEnd ∧ inherited init fd ≠ some .writeEnd := by
  unfold inherited
  cases init fd with
  | none => exact ⟨nofun, nofun⟩
  | some a => exact ⟨nofun, nofun⟩

theorem not_holds_inherited : ¬ (inherited init).Holds .writeEnd := by
  rintro ⟨fd, hfd⟩
  exact (inherited_ne_end fd).2 hfd

section Free

variable {pipefd : Nat × Nat}

/-- A standard descriptor is none of those that `pipe` returns. -/
theorem Free.ne_standard (h : Free init pipefd) {fd : Nat} (hfd : init fd ≠ none) :
    fd ≠ pipefd.1 ∧ fd ≠ pipefd.2 := by
  constructor
  · rintro rfl
    exact inherited_ne_none hfd h.fst
  · rintro rfl
    exact inherited_ne_none hfd h.snd

theorem piped_comm (h : Free init pipefd) : piped (inherited init) pipefd =
    ((inherited init).opened pipefd.2 .writeEnd).opened pipefd.1 .readEnd := opened_comm h.ne

/-- The parent gets its own descriptors back. -/
theorem Free.parentCalls (h : Free init pipefd) :
    (piped (inherited init) pipefd).applyAll (parentCalls pipefd) = inherited init := by
  have hfree : (inherited init).opened pipefd.2 .writeEnd pipefd.1 = none := by
    rw [opened_of_ne h.ne, h.fst]
  show ((piped (inherited init) pipefd).close pipefd.1).close pipefd.2 = inherited init
  rw [piped_comm h, close_opened hfree, close_opened h.snd]

/-- The first child gets the write end in the place of its standard output. -/
theorem Free.firstCalls (h : Free init pipefd) (hstd : StandardOpen init) :
    (piped (inherited init) pipefd).applyAll (firstCalls pipefd) = wired init .first := by
  obtain ⟨h0, h1⟩ := h.ne_standard hstd.2.1
  rw [piped_comm h]
  exact redirect h.snd h.fst h.ne.symm h1 h0

/-- The second child gets the read end in the place of its standard input. -/
theorem Free.secondCalls (h : Free init pipefd) (hstd : StandardOpen init) :
    (piped (inherited init) pipefd).applyAll (secondCalls pipefd) = wired init .second := by
  obtain ⟨h0, h1⟩ := h.ne_standard hstd.1
  exact redirect h.fst h.snd h.ne h0 h1

end Free

/-! ## The invariant -/

/-- The invariant of a process. -/
def Process.Ok (init : Descriptors α) (p : Process α) : Prop :=
  match p.stage with
  | .child todo => p.table.applyAll todo = wired init p.family
  | .command => p.family = .second → ¬ p.table.Holds .writeEnd
  | .exited => ¬ p.table.Holds .writeEnd

/-- The invariant of the parent. -/
def ParentOk (init : Descriptors α) (s : State α) : Prop :=
  match s.parent with
  | .pipe => s.table = inherited init
  | .fork1 pipefd => Free init pipefd ∧ s.table = piped (inherited init) pipefd
  | .fork2 pipefd _ => Free init pipefd ∧ s.table = piped (inherited init) pipefd
  | .rest todo _ => s.table.applyAll todo = inherited init
  | .returned => ¬ s.table.Holds .writeEnd

/-- The invariant. -/
structure Inv (init : Descriptors α) (s : State α) : Prop where
  parent : ParentOk init s
  processes : ∀ p ∈ s.processes, p.Ok init

theorem not_holds_none : ¬ Holds (fun _ => none : Descriptors (File α)) .writeEnd := by
  rintro ⟨fd, hfd⟩
  cases hfd

theorem not_holds_wired_second : ¬ (wired init .second).Holds .writeEnd := by
  intro h
  exact not_holds_inherited (h.of_opened nofun)

section Ok

variable {p p' : Process α} {todo : List Op}

/-- The calls that a child has still to make lead to the table that it is to have. -/
theorem Process.Ok.child (h : p.Ok init) (hstage : p.stage = .child todo) :
    p.table.applyAll todo = wired init p.family := by
  unfold Process.Ok at h
  rwa [hstage] at h

theorem Process.Ok.command (h : p.Ok init) (hstage : p.stage = .command) :
    p.family = .second → ¬ p.table.Holds .writeEnd := by
  unfold Process.Ok at h
  rwa [hstage] at h

theorem Process.Ok.exited (h : p.Ok init) (hstage : p.stage = .exited) :
    ¬ p.table.Holds .writeEnd := by
  unfold Process.Ok at h
  rwa [hstage] at h

/-- The calls that the parent has still to make lead to the table that it has inherited. -/
theorem ParentOk.rest {pids : List Nat} (h : ParentOk init s) (hrest : s.parent = .rest todo pids) :
    s.table.applyAll todo = inherited init := by
  unfold ParentOk at h
  rwa [hrest] at h

/-- A command that gets no new write end. -/
theorem Process.Ok.change (h : p.Ok init) (hstage : p.stage = .command)
    {table : Descriptors (File α)} (hholds : table.Holds .writeEnd → p.table.Holds .writeEnd) :
    Process.Ok init { p with table := table } := by
  have hcommand := h.command hstage
  unfold Process.Ok
  rw [hstage]
  intro hsecond hnew
  exact hcommand hsecond (hholds hnew)

/-- A process keeps its invariant in every step of its own. -/
theorem Process.Ok.moves (h : p.Ok init) (hmoves : ProcessMoves p p') : p'.Ok init := by
  cases hmoves with
  | call hstage => exact h.child hstage
  | exec hstage =>
    intro hsecond hholds
    have htable : p.table = wired init p.family := h.child hstage
    rw [htable, hsecond] at hholds
    exact not_holds_wired_second hholds
  | ended => exact not_holds_none
  | dup2 hstage oldfd newfd => exact h.change hstage Holds.of_dup2
  | close hstage fd => exact h.change hstage Holds.of_close
  | openFile hstage fd a => exact h.change hstage fun hnew => hnew.of_opened nofun

/-- A process of the first command that has exited, and one of the second that has made its calls, has no
write end. -/
theorem Process.Ok.not_holds (h : p.Ok init) (hfirst : p.family = .first → p.stage = .exited)
    (hsecond : p.family = .second → ∀ op todo, p.stage ≠ .child (op :: todo)) :
    ¬ p.table.Holds .writeEnd := by
  cases hfamily : p.family with
  | first => exact h.exited (hfirst hfamily)
  | second =>
    cases hstage : p.stage with
    | exited => exact h.exited hstage
    | command => exact h.command hstage hfamily
    | child todo =>
      cases todo with
      | nil =>
        have htable : p.table = wired init p.family := h.child hstage
        rw [htable, hfamily]
        exact not_holds_wired_second
      | cons op todo => exact absurd hstage (hsecond hfamily op todo)

end Ok

theorem Inv.moves (hstd : StandardOpen init) (h : Inv init s) (hmoves : Moves s s') : Inv init s' := by
  obtain ⟨hparent, hprocesses⟩ := h
  cases hmoves with
  | pipe hpipe hne h0 h1 =>
    unfold ParentOk at hparent
    rw [hpipe] at hparent
    have htable : s.table = inherited init := hparent
    rw [htable] at h0 h1
    exact ⟨⟨⟨hne, h0, h1⟩, by rw [htable]⟩, hprocesses⟩
  | fork1 hfork =>
    unfold ParentOk at hparent
    rw [hfork] at hparent
    obtain ⟨hfree, htable⟩ := hparent
    refine ⟨⟨hfree, htable⟩, List.forall_mem_append.2 ⟨hprocesses, ?_⟩⟩
    rw [List.forall_mem_singleton, htable]
    exact hfree.firstCalls hstd
  | fork2 hfork =>
    unfold ParentOk at hparent
    rw [hfork] at hparent
    obtain ⟨hfree, htable⟩ := hparent
    refine ⟨?_, List.forall_mem_append.2 ⟨hprocesses, ?_⟩⟩
    · show s.table.applyAll _ = inherited init
      rw [htable]
      exact hfree.parentCalls
    · rw [List.forall_mem_singleton, htable]
      exact hfree.secondCalls hstd
  | call hcall => exact ⟨hparent.rest hcall, hprocesses⟩
  | wait hwait => exact ⟨hparent.rest hwait, hprocesses⟩
  | returned _ => exact ⟨not_holds_none, hprocesses⟩
  | @process pid p p' hp hchange =>
    refine ⟨hparent, fun q hq => ?_⟩
    rcases List.mem_or_eq_of_mem_set hq with hq | rfl
    · exact hprocesses q hq
    · exact (hprocesses p (List.mem_of_getElem? hp)).moves hchange
  | @fork pid p hp _ =>
    refine ⟨hparent, List.forall_mem_append.2 ⟨hprocesses, ?_⟩⟩
    rw [List.forall_mem_singleton]
    exact hprocesses p (List.mem_of_getElem? hp)
  | write _ _ _ => exact ⟨hparent, hprocesses⟩
  | read _ => exact ⟨hparent, hprocesses⟩

theorem Reached.inv (hstd : StandardOpen init) (h : Reached init s) : Inv init s :=
  Reachable.invariant h ⟨rfl, nofun⟩ fun _ _ _ hinv hstep => hinv.moves hstd (moves_of_step hstep)

/-! ## When the first command is over -/

/-- The parent waits for its children, or has returned. -/
def State.Waits (s : State α) : Prop := (∃ pids, s.parent = .rest [] pids) ∨ s.parent = .returned

/-- The first command and all that it has started have exited, the parent waits, and the second child
has no more calls to make. -/
structure State.Over (s : State α) : Prop where
  waits : s.Waits
  first : ∀ p ∈ s.processes, p.family = .first → p.stage = .exited
  second : ∀ p ∈ s.processes, p.family = .second → ∀ op todo, p.stage ≠ .child (op :: todo)

theorem Inv.not_hasWriter (h : Inv init s) (hover : s.Over) : ¬ s.HasWriter := by
  rintro (hparent | ⟨p, hp, hholds⟩)
  · rcases hover.waits with ⟨pids, hrest⟩ | hreturned
    · have htable : s.table = inherited init := h.parent.rest hrest
      rw [htable] at hparent
      exact not_holds_inherited hparent
    · have hok := h.parent
      unfold ParentOk at hok
      rw [hreturned] at hok
      exact hok hparent
  · exact (h.processes p hp).not_holds (hover.first p hp) (hover.second p hp) hholds

/-- No step of a process begins a descriptor call or a command again. -/
theorem ProcessMoves.over {p p' : Process α} (hmoves : ProcessMoves p p') :
    p'.family = p.family ∧ (p.stage = .exited → p'.stage = .exited) ∧
      ((∀ op todo, p.stage ≠ .child (op :: todo)) → ∀ op todo, p'.stage ≠ .child (op :: todo)) := by
  cases hmoves with
  | call hstage =>
    refine ⟨rfl, fun h => ?_, fun h => absurd hstage (h _ _)⟩
    rw [hstage] at h
    cases h
  | exec hstage =>
    refine ⟨rfl, fun h => ?_, fun _ => nofun⟩
    rw [hstage] at h
    cases h
  | ended => exact ⟨rfl, fun _ => rfl, fun _ => nofun⟩
  | dup2 _ _ _ => exact ⟨rfl, id, id⟩
  | close _ _ => exact ⟨rfl, id, id⟩
  | openFile _ _ _ => exact ⟨rfl, id, id⟩

theorem State.Over.moves (h : s.Over) (hmoves : Moves s s') : s'.Over := by
  obtain ⟨hwaits, hfirst, hsecond⟩ := h
  have hne : ∀ {q : Parent}, s.parent = q → (∃ pids, q = .rest [] pids) ∨ q = .returned := by
    rintro _ rfl
    exact hwaits
  cases hmoves with
  | pipe hparent _ _ _ => rcases hne hparent with ⟨_, h⟩ | h <;> cases h
  | fork1 hparent => rcases hne hparent with ⟨_, h⟩ | h <;> cases h
  | fork2 hparent => rcases hne hparent with ⟨_, h⟩ | h <;> cases h
  | call hparent => rcases hne hparent with ⟨_, h⟩ | h <;> cases h
  | wait _ => exact ⟨Or.inl ⟨_, rfl⟩, hfirst, hsecond⟩
  | returned _ => exact ⟨Or.inr rfl, hfirst, hsecond⟩
  | @process pid p p' hp hchange =>
    obtain ⟨hfamily, hexited, hcalls⟩ := hchange.over
    have hmem := List.mem_of_getElem? hp
    refine ⟨hwaits, fun q hq hqf => ?_, fun q hq hqf => ?_⟩
    · rcases List.mem_or_eq_of_mem_set hq with hq | rfl
      · exact hfirst q hq hqf
      · exact hexited (hfirst p hmem (hfamily.symm.trans hqf))
    · rcases List.mem_or_eq_of_mem_set hq with hq | rfl
      · exact hsecond q hq hqf
      · exact hcalls (hsecond p hmem (hfamily.symm.trans hqf))
  | @fork pid p hp _ =>
    have hmem := List.mem_of_getElem? hp
    refine ⟨hwaits, List.forall_mem_append.2 ⟨hfirst, ?_⟩, List.forall_mem_append.2 ⟨hsecond, ?_⟩⟩
    · rw [List.forall_mem_singleton]
      exact hfirst p hmem
    · rw [List.forall_mem_singleton]
      exact hsecond p hmem
  | write _ _ _ => exact ⟨hwaits, hfirst, hsecond⟩
  | read _ => exact ⟨hwaits, hfirst, hsecond⟩

/-- Without a write end nothing is added to the pipe. -/
theorem content_suffix (hwriter : ¬ s.HasWriter) (hmoves : Moves s s') : s'.content <:+ s.content := by
  cases hmoves with
  | write hp hfd _ => exact absurd (Or.inr ⟨_, List.mem_of_getElem? hp, _, hfd⟩) hwriter
  | read count => exact List.drop_suffix count _
  | _ => exact List.suffix_refl _

/-- What a run leaves in the pipe when the first command is over. -/
theorem State.Over.run (hstd : StandardOpen init) (hs : Reached init s) (hover : s.Over)
    (h : Reachable step s s') : ¬ s'.HasWriter ∧ s'.content <:+ s.content := by
  have hrun : Inv init s' ∧ s'.Over ∧ s'.content <:+ s.content := by
    refine Reachable.invariant (I := fun s' => Inv init s' ∧ s'.Over ∧ s'.content <:+ s.content) h
      ⟨hs.inv hstd, hover, List.suffix_refl _⟩ ?_
    rintro s1 a s2 ⟨hinv, hover1, hsuffix⟩ hstep
    have hmoves := moves_of_step hstep
    exact ⟨hinv.moves hstd hmoves, hover1.moves hmoves,
      (content_suffix (hinv.not_hasWriter hover1) hmoves).trans hsuffix⟩
  exact ⟨hrun.1.not_hasWriter hrun.2.1, hrun.2.2⟩

/-! ## The wiring -/

/-- The inherited table with the descriptor `fd` on an end of the pipe, and no other on an end. -/
structure Redirected (init : Descriptors α) (table : Descriptors (File α)) (fd : Nat)
    (file : File α) : Prop where
  redirected : table fd = some file
  inherited : ∀ k ≠ fd, table k = inherited init k
  no_end : ∀ k ≠ fd, table k ≠ some .readEnd ∧ table k ≠ some .writeEnd

theorem redirected_opened (fd : Nat) (file : File α) :
    Redirected init ((inherited init).opened fd file) fd file := by
  refine ⟨opened_self, fun k hk => opened_of_ne hk, fun k hk => ?_⟩
  rw [opened_of_ne hk]
  exact inherited_ne_end k

/-- In every interleaving: before `execl` the table of the first child has the write end for its
descriptor 1 and that of the second the read end for its descriptor 0, and nothing else has changed; the
parent waits with the table it has inherited. When the first command and all that it has started have
exited, and parent and second child have made their calls, which nothing keeps them from, there is no
write end left, nothing is added to the pipe, and who has read what is left sees the end of the file. -/
theorem pipeline_wired (init : Descriptors α) (hstd : StandardOpen init) (s : State α)
    (h : Reached init s) :
    (∀ p ∈ s.processes, p.stage = .child [] →
      (p.family = .first → Redirected init p.table 1 .writeEnd) ∧
      (p.family = .second → Redirected init p.table 0 .readEnd)) ∧
    (∀ pids, s.parent = .rest [] pids → ∀ fd, s.table fd = inherited init fd ∧
      s.table fd ≠ some .readEnd ∧ s.table fd ≠ some .writeEnd) ∧
    (s.Over → ∀ s', Reachable step s s' → ¬ s'.HasWriter ∧ s'.content <:+ s.content ∧
      ∀ count, s'.content = [] → Reads s' count []) ∧
    (∀ op todo pids, s.parent = .rest (op :: todo) pids → (step s .parent).isSome) ∧
    (∀ pid p op todo, s.processes[pid]? = some p → p.stage = .child (op :: todo) →
      (step s (.child pid)).isSome) := by
  have hinv := h.inv hstd
  refine ⟨fun p hp hstage => ?_, fun pids hrest fd => ?_, fun hover s' hs' => ?_, ?_, ?_⟩
  · have htable : p.table = wired init p.family := (hinv.processes p hp).child hstage
    constructor
    · intro hfamily
      rw [htable, hfamily]
      exact redirected_opened 1 _
    · intro hfamily
      rw [htable, hfamily]
      exact redirected_opened 0 _
  · have htable : s.table = inherited init := hinv.parent.rest hrest
    rw [htable]
    exact ⟨rfl, inherited_ne_end fd⟩
  · obtain ⟨hwriter, hsuffix⟩ := hover.run hstd h hs'
    exact ⟨hwriter, hsuffix, fun count hempty => .endOfFile hempty hwriter⟩
  · intro op todo pids hrest
    show (parentStep s).isSome
    unfold parentStep
    rw [hrest]
    rfl
  · intro pid p op todo hp hstage
    simp only [step, hp, Option.bind_some, hstage]
    rfl

/-- A run in which `pipe` returns 3 and 4: the first command writes a line and exits, the second is
executed. -/
theorem pipeline_wired_line :
    ∃ s, Reached (fun fd => if fd < 3 then some fd else none) s ∧ s.content = ascii "line" ∧
      ¬ s.HasWriter := by
  have hreached : ∃ s, Reached (fun fd => if fd < 3 then some fd else none) s ∧
      s.content = ascii "line" ∧ s.Over := by
    refine ⟨_, ⟨[.pipe 3 4, .parent, .child 0, .child 0, .child 0, .exec 0, .parent,
      .command 0 (.write 1 (ascii "line")), .parent, .child 1, .child 1, .child 1, .parent, .exec 1,
      .command 0 .exit, .parent], rfl⟩, rfl, ⟨Or.inl ⟨_, rfl⟩, ?_, ?_⟩⟩
    · decide
    · suffices hsecond : ∀ p : Process Nat, p ∈ _ → p.family = .second → p.stage = .command by
        intro p hp hfamily op todo hstage
        rw [hsecond p hp hfamily] at hstage
        cases hstage
      decide
  obtain ⟨s, hs, hcontent, hover⟩ := hreached
  exact ⟨s, hs, hcontent,
    ((pipeline_wired _ ⟨by decide, by decide, by decide⟩ s hs).2.2.1 hover s (.refl s)).1⟩

end SystemsProgramming.MiniPipeline
