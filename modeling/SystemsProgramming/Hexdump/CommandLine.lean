import SystemsProgramming.Foundations.Getopt
import SystemsProgramming.Hexdump.Reader

/-!
# The hexdump tool with its command line (`hexdump/main.c`)

`main` from the words of the command line to the files it leaves. All names are those of regular files,
also of one that does not exist yet, and the standard output is none of them. What the tool reads it gets,
and what it writes is written.
-/

namespace SystemsProgramming.Hexdump

open Foundations

/-! ## The words -/

/-- The value of a decimal digit. -/
def digit (c : Char) : Option Nat := if '0' ≤ c ∧ c ≤ '9' then some (c.toNat - 48) else none

/-- The number that digits spell, up to the first character that is none. -/
def digits : Nat → List Char → Nat
  | v, [] => v
  | v, c :: cs =>
    match digit c with
    | some d => digits (10 * v + d) cs
    | none => v

/-- `LONG_MAX` -/
def longMax : Nat := 9223372036854775807

/-- What `strtol` makes of a sign and a number: it does not go beyond a `long`. -/
def toLong (negative : Bool) (v : Nat) : Int :=
  if negative then if v ≤ longMax then -(v : Int) else -(longMax : Int) - 1
  else if v ≤ longMax then v else longMax

/-- `atoi`: white space, a sign, digits. It is `strtol`, converted to an `int`. -/
def atoi (s : List Char) : Int32 :=
  match s.dropWhile fun c => c = ' ' ∨ ('\t' ≤ c ∧ c ≤ '\r') with
  | '-' :: s => Int32.ofInt (toLong true (digits 0 s))
  | '+' :: s => Int32.ofInt (toLong false (digits 0 s))
  | s => Int32.ofInt (toLong false (digits 0 s))

/-- The options, as `getopt_long` is told them. -/
def spec : Getopt.Spec where
  optstring := "w:aOdbo:g:h".toList
  longOptions :=
    [⟨"width".toList, true, 'w'⟩, ⟨"no-ascii".toList, false, 'a'⟩, ⟨"no-offset".toList, false, 'O'⟩,
      ⟨"decimal-offset".toList, false, 'd'⟩, ⟨"binary".toList, false, 'b'⟩, ⟨"output".toList, true, 'o'⟩,
      ⟨"group".toList, true, 'g'⟩, ⟨"help".toList, false, 'h'⟩]
  dash := by decide

/-- What the loop of `parse_arguments` gets from a call. An option comes with an argument if and only if
it has one. -/
def opt : Getopt.Result → Opt
  | .option 'w' (some optarg) => .width (atoi optarg)
  | .option 'a' none => .noAscii
  | .option 'O' none => .noOffset
  | .option 'd' none => .decimalOffset
  | .option 'b' none => .binary
  | .option 'o' (some optarg) => .output (String.ofList optarg)
  | .option 'g' (some optarg) => .group (atoi optarg)
  | .option 'h' none => .help
  | _ => .unknown

/-- `parse_arguments`, on the words behind the name of the program. -/
def parseArgv (argv : List Getopt.Word) : Except Rejected Options :=
  parseArguments ((Getopt.scan spec argv).1.map opt) ((Getopt.scan spec argv).2.map String.ofList)

/-! ## The program -/

/-- The files, each at a place of its own. Several names may lead to one place, such as `a` and `./a`, or
those of links. There is content where there is a file. -/
structure Files (Place : Type) where
  place : String → Place
  content : Place → Option (List UInt8)
  /-- the names that can be opened to be read, if there is a file, and to be written -/
  readable : String → Bool
  writable : String → Bool

variable {Place : Type} [DecidableEq Place]

/-- `fopen(name, "rb")`, which fails where there is no file. -/
def Files.Opens (files : Files Place) (name : String) : Prop :=
  files.readable name = true ∧ (files.content (files.place name)).isSome = true

instance (files : Files Place) (name : String) : Decidable (files.Opens name) := by
  unfold Files.Opens
  infer_instance

/-- The file that is opened by this name now contains this. -/
def Files.write (files : Files Place) (name : String) (text : List UInt8) : Files Place :=
  { files with content := Function.update files.content (files.place name) (some text) }

/-- What is read from the file that is opened by this name. -/
def Files.read (files : Files Place) (name : String) : List UInt8 :=
  (files.content (files.place name)).getD []

/-- `help` -/
def help : List UInt8 :=
  ascii "Usage: hex3 [options]... file\n" ++
  ascii "-w, --width=INTEGER     the number of bytes per line (1-255)\n" ++
  ascii "-a, --no-ascii          remove printable characters column\n" ++
  ascii "-O, --no-offset         remove the offset column\n" ++
  ascii "-d, --decimal-offset    output the offset column in decimal\n" ++
  ascii "-b, --binary            output data in binary representation\n" ++
  ascii "-o, --output=FILE       set destination file\n" ++
  ascii "-g, --group=INTEGER     set byte grouping to 2, 4 or 8\n" ++
  ascii "-h, --help              display this help\n"

/-- What the program leaves. -/
structure Outcome (Place : Type) where
  status : Nat
  stdout : List UInt8
  stderr : List UInt8
  files : Files Place

/-- `main` -/
def main (argv : List Getopt.Word) (files : Files Place) : Outcome Place :=
  match parseArgv argv with
  | .error (.message text) => ⟨1, [], ascii text, files⟩
  | .error .help => ⟨1, help, [], files⟩
  | .ok opts =>
    let filename := opts.filename.getD ""
    if files.Opens filename then
      match opts.outputFilename with
      | none => ⟨0, dump opts (files.read filename), [], files⟩
      | some out =>
        if files.writable out then
          -- `fopen(name, "w")` leaves nothing of what was there
          let files := files.write out []
          ⟨0, [], [], files.write out (dump opts (files.read filename))⟩
        else ⟨1, [], [], files⟩
    else ⟨1, [], [], files⟩

end SystemsProgramming.Hexdump
