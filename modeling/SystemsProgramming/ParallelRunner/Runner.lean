import SystemsProgramming.Foundations.CString
import SystemsProgramming.Foundations.Runs

/-!
# The parallel runner (`parallel-runner/main.c`)

`main` with its children, as a transition system. A child is the list of the writes that its command
makes to its stdout. A write of at most `PIPE_BUF` bytes is done at once or not at all, a longer one in
any pieces; either waits while the pipe has no room. `pipe` and `fork` succeed. Nothing but the child
itself holds the write end of its pipe once the parent has closed its own.
-/

namespace SystemsProgramming.ParallelRunner

open Foundations

/-- `MAX` -/
def MAX : Nat := 10

/-- `BUFFER` -/
def BUFFER : Nat := 1024

/-- What `main` is started with: the number of commands (`argc - 1`), the writes that each of them
makes, and the pipes of the system. -/
structure Setup where
  commands : Nat
  writes : Nat → List (List UInt8)
  capacity : Nat
  pipeBuf : Nat

/-- How far a child has got. -/
inductive Status where
  | unborn
  | running
  | exited
  | reaped
  deriving DecidableEq

/-- A child: its process id, what is in its pipe, the writes it has still to make, whether a part of
the first of them is in the pipe already, and how far it has got. -/
structure Child where
  pid : Int
  pipe : List UInt8
  todo : List (List UInt8)
  started : Bool
  status : Status

/-- Where `main` is: at the head of the round `i` of the fork loop, in the `waitpid` of the round `k`
of the collect loop, before the `read` of the round `k` from the pipe `i`, at its end, or beyond the
ends of its arrays. -/
inductive Parent where
  | forking (i : Nat)
  | waiting (k : Nat)
  | reading (k i : Nat)
  | returned
  | outside
  deriving DecidableEq

/-- The state of the parent and its children, and what has been printed: each tag with the bytes read
into the buffer behind it. -/
structure State where
  parent : Parent
  pids : Nat → Int
  children : Nat → Child
  printed : List (Nat × List UInt8)

/-- Who moves, and what the system answers. -/
inductive Action where
  | fork (pid : Int)
  | write (c len : Nat)
  | exit (c : Nat)
  | wait (c : Nat)
  | waitFails
  | read

/-! ## The loops of `main` -/

/-- The head of the fork loop. -/
def forkLoop (cfg : Setup) (i : Nat) : Parent :=
  if i < cfg.commands ∧ i < MAX then .forking i else .waiting 0

/-- The head of the collect loop. -/
def collectLoop (cfg : Setup) (k : Nat) : Parent :=
  if k < cfg.commands then .waiting k else .returned

/-- The loop that looks for `done` in `pids`, from `j` on with so many rounds to go. The result is
`i`; there is none when the loop reads an entry that `pids` does not have. -/
def search (pids : Nat → Int) (done : Int) : Nat → Nat → Option Int
  | 0, _ => some (-1)
  | rounds + 1, j =>
    if j < MAX then
      if pids j = done then some (j : Int) else search pids done rounds (j + 1)
    else none

/-- What `main` does with the result of `waitpid`, up to the `read`. -/
def collect (cfg : Setup) (k : Nat) (pids : Nat → Int) (done : Int) : Parent :=
  match search pids done cfg.commands 0 with
  | some (.ofNat i) => .reading k i
  -- `pipes[-1]`
  | some (.negSucc _) => .outside
  | none => .outside

/-! ## The steps -/

/-- The free room of a child's pipe. -/
def Child.room (cfg : Setup) (child : Child) : Nat := cfg.capacity - child.pipe.length

/-- The child may put `len` bytes of the write `w` into its pipe. -/
def Child.CanWrite (cfg : Setup) (child : Child) (w : List UInt8) (len : Nat) : Prop :=
  len ≤ w.length ∧ len ≤ child.room cfg ∧ (w ≠ [] → 0 < len) ∧
    (child.started = false → w.length ≤ cfg.pipeBuf → len = w.length)

instance (cfg : Setup) (child : Child) (w : List UInt8) (len : Nat) :
    Decidable (child.CanWrite cfg w len) := by
  unfold Child.CanWrite
  infer_instance

/-- The child when `len` bytes of the write `w` have gone into the pipe, with the writes `ws` after
it. -/
def Child.wrote (child : Child) (w : List UInt8) (ws : List (List UInt8)) (len : Nat) : Child :=
  if len = w.length then { child with pipe := child.pipe ++ w, todo := ws, started := false }
  else { child with pipe := child.pipe ++ w.take len, todo := w.drop len :: ws, started := true }

/-- A process that exists: its id is in use until it has been waited for. -/
def Status.InUse (status : Status) : Prop := status = .running ∨ status = .exited

instance (status : Status) : Decidable status.InUse := by
  unfold Status.InUse
  infer_instance

/-- A change of one child. -/
def State.setChild (s : State) (c : Nat) (child : Child) : State :=
  { s with children := Function.update s.children c child }

/-- One step of the parent or of a child. -/
def step (cfg : Setup) (s : State) : Action → Option State
  | .fork pid =>
    match s.parent with
    | .forking i =>
      if 0 < pid ∧ ∀ c < MAX, (s.children c).status.InUse → (s.children c).pid ≠ pid then
        some { s.setChild i { s.children i with pid := pid, status := .running } with
          parent := forkLoop cfg (i + 1)
          pids := Function.update s.pids i pid }
      else none
    | _ => none
  | .write c len =>
    match (s.children c).status, (s.children c).todo with
    | .running, w :: ws =>
      if (s.children c).CanWrite cfg w len then
        some (s.setChild c ((s.children c).wrote w ws len))
      else none
    | _, _ => none
  | .exit c =>
    if (s.children c).status = .running ∧ (s.children c).todo = [] then
      some (s.setChild c { s.children c with status := .exited })
    else none
  | .wait c =>
    match s.parent with
    | .waiting k =>
      if (s.children c).status = .exited then
        some { s.setChild c { s.children c with status := .reaped } with
          parent := collect cfg k s.pids (s.children c).pid }
      else none
    | _ => none
  | .waitFails =>
    match s.parent with
    | .waiting k =>
      if ∀ c < MAX, ¬ (s.children c).status.InUse then
        some { s with parent := collect cfg k s.pids (-1) }
      else none
    | _ => none
  | .read =>
    match s.parent with
    | .reading k i =>
      some { s.setChild i { s.children i with pipe := (s.children i).pipe.drop BUFFER } with
        parent := collectLoop cfg (k + 1)
        printed := s.printed ++ [(i, (s.children i).pipe.take BUFFER)] }
    | _ => none

/-- `main` before the fork loop; without a command it returns at once. -/
def initial (cfg : Setup) : State where
  parent := if cfg.commands = 0 then .returned else forkLoop cfg 0
  pids := fun _ => 0
  children := fun c =>
    { pid := 0, pipe := [], todo := cfg.writes c, started := false, status := .unborn }
  printed := []

/-- The states that `main` and its children can reach. -/
def Reached (cfg : Setup) (s : State) : Prop := Reachable (step cfg) (initial cfg) s

/-! ## The text that is printed -/

/-- `buffer`, all zeros at first, when these bytes have been read into it. -/
def buffer (bytes : List UInt8) : List UInt8 := bytes ++ List.replicate (BUFFER - bytes.length) 0

/-- The string that `printf` gets, with what the memory holds behind `buffer`. -/
def printedText (bytes behind : List UInt8) : List UInt8 := cString (buffer bytes ++ behind)

/-! ## What may go wrong -/

/-- The child waits in a `write` for room in its pipe. -/
def Child.Blocked (cfg : Setup) (child : Child) : Prop :=
  child.status = .running ∧ ∃ w ws, child.todo = w :: ws ∧ ∀ len, ¬ child.CanWrite cfg w len

/-- `main` waits in `waitpid` for its children, no one of which has exited, and every one of them waits
for room in its pipe. -/
def Deadlock (cfg : Setup) (s : State) : Prop :=
  (∃ k, s.parent = .waiting k) ∧ (∃ c, (s.children c).status = .running) ∧
    ∀ c, (s.children c).status.InUse → (s.children c).Blocked cfg

end SystemsProgramming.ParallelRunner
