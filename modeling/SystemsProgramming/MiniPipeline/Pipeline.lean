import SystemsProgramming.Foundations.Descriptors
import SystemsProgramming.Foundations.Runs

/-!
# The mini pipeline (`mini-pipeline/main.c`)

`run` with its two children and all that the commands start, as a transition system. `pipe` and both
calls of `fork` succeed; `pipe` may return any two free descriptors. A command is any program: it calls
`fork`, `dup2`, `close`, `open`, reads, writes and exits as it likes. A process gets the ends of the pipe
only from the process that it was forked from.
-/

namespace SystemsProgramming.MiniPipeline

open Foundations Descriptors

/-- What a descriptor refers to: something outside, or an end of the pipe. -/
inductive File (α : Type) where
  | inherited (a : α)
  | readEnd
  | writeEnd

/-- The two children of the parent, each with all the processes that come from it. -/
inductive Family where
  | first
  | second
  deriving DecidableEq

/-- How far a process has got: a child has these calls to make before `execl`, a command runs. -/
inductive Stage where
  | child (todo : List Op)
  | command
  | exited
  deriving DecidableEq

/-- A process other than the parent. -/
structure Process (α : Type) where
  family : Family
  stage : Stage
  table : Descriptors (File α)

/-- How far the parent has got. The last entries are the calls to make before the first `waitpid`, and
the processes to wait for. -/
inductive Parent where
  | pipe
  | fork1 (pipefd : Nat × Nat)
  | fork2 (pipefd : Nat × Nat) (pid : Nat)
  | rest (todo : List Op) (pids : List Nat)
  | returned
  deriving DecidableEq

/-- The parent with its descriptors, the other processes by their ids, and the bytes in the pipe. -/
structure State (α : Type) where
  parent : Parent
  table : Descriptors (File α)
  processes : List (Process α)
  content : List UInt8

/-- What a command does. -/
inductive Act (α : Type) where
  | dup2 (oldfd newfd : Nat)
  | close (fd : Nat)
  | openFile (fd : Nat) (a : α)
  | fork
  | write (fd : Nat) (data : List UInt8)
  | read (fd count : Nat)
  | exit

/-- Who moves. -/
inductive Action (α : Type) where
  | pipe (fd0 fd1 : Nat)
  | parent
  | child (pid : Nat)
  | exec (pid : Nat)
  | execFails (pid : Nat)
  | command (pid : Nat) (act : Act α)

/-! ## The calls of `run` -/

/-- The calls of the first child. -/
def firstCalls (pipefd : Nat × Nat) : List Op :=
  [.dup2 pipefd.2 1, .close pipefd.1, .close pipefd.2]

/-- The calls of the second child. -/
def secondCalls (pipefd : Nat × Nat) : List Op :=
  [.dup2 pipefd.1 0, .close pipefd.2, .close pipefd.1]

/-- The calls of the parent. -/
def parentCalls (pipefd : Nat × Nat) : List Op := [.close pipefd.1, .close pipefd.2]

variable {α : Type}

/-- The descriptors after `pipe`. -/
def piped (table : Descriptors (File α)) (pipefd : Nat × Nat) : Descriptors (File α) :=
  (table.opened pipefd.1 .readEnd).opened pipefd.2 .writeEnd

/-! ## The steps -/

/-- A process that has come to its end. -/
def Process.ended (p : Process α) : Process α :=
  { p with stage := .exited, table := fun _ => none }

/-- A change of one process. -/
def State.setProcess (s : State α) (pid : Nat) (p : Process α) : State α :=
  { s with processes := s.processes.set pid p }

/-- One step of the parent behind `pipe`. -/
def parentStep (s : State α) : Option (State α) :=
  match s.parent with
  | .pipe => none
  | .fork1 pipefd =>
    some { s with
      parent := .fork2 pipefd s.processes.length
      processes := s.processes ++ [⟨.first, .child (firstCalls pipefd), s.table⟩] }
  | .fork2 pipefd pid =>
    some { s with
      parent := .rest (parentCalls pipefd) [pid, s.processes.length]
      processes := s.processes ++ [⟨.second, .child (secondCalls pipefd), s.table⟩] }
  | .rest (op :: todo) pids => some { s with parent := .rest todo pids, table := op.apply s.table }
  | .rest [] (pid :: pids) =>
    if (s.processes[pid]?).map Process.stage = some .exited then
      some { s with parent := .rest [] pids }
    else none
  | .rest [] [] => some { s with parent := .returned, table := fun _ => none }
  | .returned => none

/-- One step of a running command. -/
def commandStep (s : State α) (pid : Nat) (p : Process α) : Act α → Option (State α)
  | .dup2 oldfd newfd => some (s.setProcess pid { p with table := p.table.dup2 oldfd newfd })
  | .close fd => some (s.setProcess pid { p with table := p.table.close fd })
  | .openFile fd a =>
    if p.table fd = none then
      some (s.setProcess pid { p with table := p.table.opened fd (.inherited a) })
    else none
  | .fork => some { s with processes := s.processes ++ [p] }
  | .write fd data =>
    match p.table fd with
    | some .writeEnd => some { s with content := s.content ++ data }
    | _ => none
  | .read fd count =>
    match p.table fd with
    | some .readEnd =>
      if s.content ≠ [] then some { s with content := s.content.drop count } else none
    | _ => none
  | .exit => some (s.setProcess pid p.ended)

/-- One step of the parent or of another process. -/
def step (s : State α) : Action α → Option (State α)
  | .pipe fd0 fd1 =>
    if s.parent = .pipe ∧ fd0 ≠ fd1 ∧ s.table fd0 = none ∧ s.table fd1 = none then
      some { s with parent := .fork1 (fd0, fd1), table := piped s.table (fd0, fd1) }
    else none
  | .parent => parentStep s
  | .child pid =>
    (s.processes[pid]?).bind fun p =>
      match p.stage with
      | .child (op :: todo) =>
        some (s.setProcess pid { p with stage := .child todo, table := op.apply p.table })
      | _ => none
  | .exec pid =>
    (s.processes[pid]?).bind fun p =>
      if p.stage = .child [] then some (s.setProcess pid { p with stage := .command }) else none
  | .execFails pid =>
    (s.processes[pid]?).bind fun p =>
      if p.stage = .child [] then some (s.setProcess pid p.ended) else none
  | .command pid act =>
    (s.processes[pid]?).bind fun p =>
      if p.stage = .command then commandStep s pid p act else none

/-- The descriptors that the parent has inherited: none of them refers to the pipe. -/
def inherited (table : Descriptors α) : Descriptors (File α) := fun fd => (table fd).map .inherited

/-- The parent at the beginning of `run`. -/
def initial (table : Descriptors α) : State α where
  parent := .pipe
  table := inherited table
  processes := []
  content := []

/-- The states that can be reached. -/
def Reached (table : Descriptors α) (s : State α) : Prop := Reachable step (initial table) s

/-! ## Reading from the pipe -/

/-- Some process has the write end. -/
def State.HasWriter (s : State α) : Prop :=
  s.table.Holds .writeEnd ∨ ∃ p ∈ s.processes, p.table.Holds .writeEnd

/-- What `read` returns from the pipe; an empty pipe with a write end makes it wait. -/
inductive Reads (s : State α) (count : Nat) : List UInt8 → Prop where
  | data (h : s.content ≠ []) : Reads s count (s.content.take count)
  | endOfFile (h : s.content = []) (hwriter : ¬ s.HasWriter) : Reads s count []

end SystemsProgramming.MiniPipeline
