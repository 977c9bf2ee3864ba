import SystemsProgramming.Foundations.CString
import SystemsProgramming.Foundations.Descriptors

/-!
# The I/O redirector (`io-redirector/main.c`)

`main` and `run`, up to where the child executes the command. The descriptors of the parent are any
table; `fork` copies it, and `execl` leaves it as it is. `open` takes the lowest free descriptor.
-/

namespace SystemsProgramming.IoRedirector

open Foundations Descriptors

variable {ω : Type}

/-- `redirect_opts` -/
inductive RedirectOpts where
  | out
  | outA
  | input
  | unknown
  deriving DecidableEq

/-- `parse_op` -/
def parseOp (op : CStr) : RedirectOpts :=
  if op.bytes = ascii "out" then .out
  else if op.bytes = ascii "out_a" then .outA
  else if op.bytes = ascii "in" then .input
  else .unknown

/-! ## The flags of `open`, from `fcntl.h` -/

/-- `O_RDONLY` -/
def oRdonly : UInt32 := 0

/-- `O_WRONLY` -/
def oWronly : UInt32 := 0x1

/-- `O_CREAT` -/
def oCreat : UInt32 := 0x40

/-- `O_TRUNC` -/
def oTrunc : UInt32 := 0x200

/-- `O_APPEND` -/
def oAppend : UInt32 := 0x400

/-! ## The child -/

/-- A file that `open` has opened in a process with these descriptors. -/
structure Opening (t : Descriptors ω) where
  fd : Nat
  file : ω
  free : t fd = none
  lowest : ∀ k < fd, t k ≠ none

/-- What the program finds outside: its descriptors, whether `fork` succeeds, and what `open` finds. -/
structure System (ω : Type) where
  table : Descriptors ω
  fork : Bool
  openFile : CStr → UInt32 → Option (Opening table)

/-- How far the program gets: a message and an exit, in the program or in the child, or the command in a
child with these descriptors. -/
inductive Outcome (sys : System ω) where
  | usage
  | unknownOperator
  | forkFails
  | openFails
  | executes (cmd : CStr) (opening : Opening sys.table) (table : Descriptors ω)

/-- `target` -/
def target (flags : UInt32) : Nat := if flags &&& oWronly ≠ 0 then 1 else 0

/-- The descriptors of the child when it calls `execl`. -/
def childTable {t : Descriptors ω} (flags : UInt32) (o : Opening t) : Descriptors ω :=
  ((t.opened o.fd o.file).dup2 o.fd (target flags)).close o.fd

/-- `run` -/
def run (sys : System ω) (cmd file : CStr) (flags : UInt32) : Outcome sys :=
  if sys.fork then
    match sys.openFile file flags with
    | some o => .executes cmd o (childTable flags o)
    | none => .openFails
  else .forkFails

/-- `main` -/
def main (sys : System ω) (argv : List CStr) : Outcome sys :=
  match argv with
  | _ :: cmd :: operator :: file :: _ =>
    match parseOp operator with
    | .out => run sys cmd file (oWronly ||| oCreat ||| oTrunc)
    | .outA => run sys cmd file (oWronly ||| oAppend ||| oCreat)
    | .input => run sys cmd file oRdonly
    | .unknown => .unknownOperator
  | _ => .usage

end SystemsProgramming.IoRedirector
