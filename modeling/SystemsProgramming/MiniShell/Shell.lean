import SystemsProgramming.Foundations.CString
import SystemsProgramming.Foundations.InputStream
import SystemsProgramming.Foundations.Prog

/-!
# The mini shell (`mini-shell/main.c`)

The loop of `interpret` and what it calls. `stdout` is a stream whose bytes wait in a buffer, of which it
hands as much to the descriptor as it sees fit. `stdin` is a stream that reads blocks. A child has a copy
of both buffers, which a successful `execvp` forgets; `exit` hands over the one and sets the offset of
`stdin` back over what is unread in the other, and the offset is the one of the shell too. There is always
memory, and the vector of tokens has room for all of them.
-/

namespace SystemsProgramming.MiniShell

open Foundations Prog

/-! ## Reading a line -/

/-- `readline`, on the bytes that `getchar` returns before the end of the file: the line, and the input
behind it. At the end of the file the line is empty. -/
def readline : List UInt8 → List UInt8 × List UInt8
  | [] => ([], [])
  | c :: input =>
    if c = 10 then ([], input)
    else (c :: (readline input).1, (readline input).2)

/-- The stream when a line has been read: a call of `getchar` for each byte, and one for what ends it. -/
def behindLine (stdin : InputStream) : InputStream :=
  stdin.skip ((readline stdin.text).1.length + 1)

/-- `STRTOK_DELIM` -/
def strtokDelim : List UInt8 := ascii " \t\r\n"

/-- `strtok`: the token that comes first, and the text behind the character that ends it. -/
def strtok (text : List UInt8) : Option (List UInt8 × List UInt8) :=
  match text.dropWhile (· ∈ strtokDelim) with
  | [] => none
  | c :: rest =>
    some ((c :: rest).takeWhile (· ∉ strtokDelim), ((c :: rest).dropWhile (· ∉ strtokDelim)).tail)

/-- The loop of `tokenize`; the first argument bounds the number of tokens. -/
def tokens : Nat → List UInt8 → List (List UInt8)
  | 0, _ => []
  | fuel + 1, text =>
    match strtok text with
    | none => []
    | some (token, rest) => token :: tokens fuel rest

/-- `tokenize`, on the line that `readline` has stored. -/
def tokenize (line : List UInt8) : List (List UInt8) := tokens line.length (cString line)

/-! ## State and environment -/

/-- What there is of the shell: it goes on, does not come back from `pwd`, or has ended. -/
inductive Phase where
  | running
  | inPwd
  | ended
  deriving DecidableEq

/-- The stream `stdin`, the bytes that wait in the buffer of `stdout`, and the phase. -/
structure Vars where
  stdin : InputStream
  pending : List UInt8
  phase : Phase

/-- `errno`, as far as anything depends on it. -/
inductive Errno where
  | erange
  | other
  deriving DecidableEq

/-- What a call of `getcwd` does: the path that it writes to the buffer, unless it fails, and `errno`
behind it. A success may leave any `errno`; a failure leaves the buffer as it is. -/
structure GetcwdCall where
  path : Option (List UInt8)
  errno : Errno
  deriving DecidableEq

/-- What becomes of `fork` and of the child: it cannot execute the command, or it writes something, may
leave the offset of the standard input elsewhere, and exits or is ended by a signal. -/
inductive Command where
  | forkFails
  | execFails
  | ran (output : List UInt8) (offset : Option Nat) (signalled : Bool)
  deriving DecidableEq

/-- What the outside answers in one round of the loop. -/
structure Round where
  /-- how many bytes the stream hands over at each `printf` -/
  handed : Nat → Nat
  /-- whether `chdir` succeeds -/
  chdir : Bool
  /-- the calls of `getcwd` that return, one after another -/
  getcwd : List GetcwdCall
  /-- what `malloc` returns in `builtin_pwd` contains -/
  garbage : List UInt8
  command : Command

/-- What the shell and its children do. -/
inductive Call where
  /-- the shell calls `execute` -/
  | execute (args : List (List UInt8))
  /-- the shell prints to the stream -/
  | printf (data : List UInt8)
  /-- the stream hands bytes to the descriptor -/
  | write (data : List UInt8)
  /-- the stream of a child hands its copy of the bytes to the descriptor -/
  | writeCopy (data : List UInt8)
  /-- `write(STDOUT_FILENO, "\n", 1)` -/
  | writeNewline
  /-- a command runs and writes to the descriptor -/
  | command (args : List (List UInt8)) (output : List UInt8)
  | chdir (path : List UInt8)
  /-- a message to `stderr` -/
  | message (text : List UInt8)
  deriving DecidableEq

/-- What `execute` does: it returns a status, ends the process, or does not come back. -/
inductive Result where
  | status (status : Int)
  | exit
  | none

/-- The `i`-th `printf` of a round. -/
def printf (r : Round) (i : Nat) (data : List UInt8) : Prog Vars Call Unit := do
  call (.printf data)
  let v ← get
  call (.write ((v.pending ++ data).take (r.handed i)))
  modify fun v => { v with pending := (v.pending ++ data).drop (r.handed i) }

/-- `exit`, or the return from `main`: the stream is flushed. -/
def finish : Prog Vars Call Unit := do
  let v ← get
  call (.write v.pending)
  modify fun v => { v with pending := [], phase := .ended }

/-! ## The builtins -/

/-- `builtin_cd` -/
def builtinCd (r : Round) (args : List (List UInt8)) : Prog Vars Call Result := do
  match args with
  | _ :: path :: _ =>
    call (.chdir path)
    if r.chdir then pure () else call (.message (ascii "chdir"))
  | _ => call (.message (ascii "No argument\n"))
  return .status 1

/-- `builtin_help` -/
def builtinHelp (r : Round) (_ : List (List UInt8)) : Prog Vars Call Result := do
  printf r 1 (ascii "Built in commands:\n")
  printf r 2 (ascii "    cd\n")
  printf r 3 (ascii "    help\n")
  printf r 4 (ascii "    exit\n")
  printf r 5 (ascii "    pwd\n")
  return .status 1

/-- `builtin_exit` -/
def builtinExit (_ : Round) (_ : List (List UInt8)) : Prog Vars Call Result := return .status 0

/-- What `builtin_pwd` comes to. -/
inductive Pwd where
  | prints (buffer : List UInt8)
  | exits
  | loops
  deriving DecidableEq

/-- The loop of `builtin_pwd`, with what the buffer holds: what it comes to, and the calls it makes. -/
def pwdLoop : List UInt8 → List GetcwdCall → Pwd × List GetcwdCall
  | _, [] => (.loops, [])
  | buffer, c :: calls =>
    if c.path = none ∧ c.errno ≠ .erange then (.exits, [c])
    else if c.errno = .erange then
      let (result, made) := pwdLoop (c.path.getD buffer) calls
      (result, c :: made)
    else (.prints (c.path.getD buffer), [c])

/-- `builtin_pwd`, up to its `printf`, with what `malloc` has left in the buffer. -/
def pwdCalls (garbage : List UInt8) : List GetcwdCall → Pwd × List GetcwdCall
  | [] => (.loops, [])
  | c :: calls =>
    if c.path = none ∧ c.errno = .erange then
      let (result, made) := pwdLoop (c.path.getD garbage) calls
      (result, c :: made)
    else (.prints (c.path.getD garbage), [c])

/-- What it comes to in a round. -/
def pwd (r : Round) : Pwd := (pwdCalls r.garbage r.getcwd).1

/-- `builtin_pwd` -/
def builtinPwd (r : Round) (_ : List (List UInt8)) : Prog Vars Call Result := do
  match pwd r with
  | .prints buffer =>
    printf r 1 (cString buffer ++ ascii "\n")
    return .status 1
  | .exits =>
    call (.message (ascii "getcwd"))
    return .exit
  | .loops => return .none

/-- `builtin` and `builtin_func` -/
def builtins : List (List UInt8 × (Round → List (List UInt8) → Prog Vars Call Result)) :=
  [(ascii "cd", builtinCd), (ascii "help", builtinHelp), (ascii "exit", builtinExit),
    (ascii "pwd", builtinPwd)]

/-! ## Commands, and the loop -/

/-- `bin_exec` -/
def binExec (r : Round) (args : List (List UInt8)) : Prog Vars Call Result := do
  match r.command with
  | .forkFails => call (.message (ascii "fork"))
  | .execFails =>
    call (.message (ascii "execvp"))
    -- the child calls `exit`
    let v ← get
    call (.writeCopy v.pending)
    modify fun v => { v with stdin := v.stdin.exitCopy }
  | .ran output offset signalled =>
    call (.command args output)
    modify fun v => { v with stdin := offset.elim v.stdin v.stdin.seek }
    if signalled then call .writeNewline else pure ()
  return .status 1

/-- `execute` -/
def execute (r : Round) (args : List (List UInt8)) : Prog Vars Call Result :=
  match args with
  | [] => return .status 1
  | name :: _ =>
    match builtins.lookup name with
    | some builtin => builtin r args
    | none => binExec r args

/-- The condition of the loop. -/
def loopEnd : Result → Prog Vars Call Unit
  | .status status => if status = 0 then finish else pure ()
  | .exit => finish
  | .none => modify fun v => { v with phase := .inPwd }

/-- The body of the loop. -/
def body (r : Round) : Prog Vars Call Unit := do
  printf r 0 (ascii "> ")
  let v ← get
  modify fun v => { v with stdin := behindLine v.stdin }
  call (.execute (tokenize (readline v.stdin.text).1))
  let result ← execute r (tokenize (readline v.stdin.text).1)
  loopEnd result

/-- One round of the loop of `interpret`, if there is still one. -/
def iteration (r : Round) : Prog Vars Call Unit := do
  let v ← get
  if v.phase = .running then body r else pure ()

/-- `interpret` before the loop. -/
def initial (stdin : InputStream) : Vars where
  stdin := stdin
  pending := []
  phase := .running

end SystemsProgramming.MiniShell
