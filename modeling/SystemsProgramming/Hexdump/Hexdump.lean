import SystemsProgramming.Foundations.CString
import SystemsProgramming.Foundations.Numerals

/-!
# The hexdump tool (`hexdump/main.c`)

The options and the text the tool writes. What `getopt_long` and `fread` return is passed in. `isprint`
is that of the C locale.
-/

namespace SystemsProgramming.Hexdump

open Foundations

/-- `offset_format_type` -/
inductive OffsetFormat where
  | hex
  | decimal
  deriving DecidableEq

/-- `data_format_type` -/
inductive DataFormat where
  | hex
  | binary
  deriving DecidableEq

/-- `hexdump_options`, with the values that `main` gives them at first. -/
structure Options where
  width : UInt32 := 16
  showAscii : Bool := true
  showOffset : Bool := true
  offsetFormat : OffsetFormat := .hex
  dataFormat : DataFormat := .hex
  grouping : UInt32 := 1
  filename : Option String := none
  outputFilename : Option String := none

/-! ## The arguments -/

/-- What one call of `getopt_long` returns; a number is what `atoi` makes of the argument. -/
inductive Opt where
  | width (optarg : Int32)
  | noAscii
  | noOffset
  | decimalOffset
  | binary
  | output (optarg : String)
  | group (optarg : Int32)
  | help
  | unknown

/-- Why `parse_arguments` returns 1: with a message to `stderr`, or with the help text printed. -/
inductive Rejected where
  | message (text : String)
  | help
  deriving DecidableEq

/-- One round of the loop in `parse_arguments`. -/
def parseOption (opts : Options) : Opt → Except Rejected Options
  | .width optarg =>
    let opts := { opts with width := optarg.toUInt32 }
    if opts.width < 1 ∨ opts.width > 255 then
      .error (.message "Error: width must be within 1-255\n")
    else .ok opts
  | .noAscii => .ok { opts with showAscii := false }
  | .noOffset => .ok { opts with showOffset := false }
  | .decimalOffset => .ok { opts with offsetFormat := .decimal }
  | .binary => .ok { opts with dataFormat := .binary }
  | .output optarg => .ok { opts with outputFilename := some optarg }
  | .group optarg =>
    let opts := { opts with grouping := optarg.toUInt32 }
    if opts.grouping ≠ 1 ∧ opts.grouping ≠ 2 ∧ opts.grouping ≠ 4 ∧ opts.grouping ≠ 8 then
      .error (.message "Error: byte grouping must be 2, 4 or 8\n")
    else .ok opts
  | .help => .error .help
  | .unknown => .error (.message "Error: unknown option or unknown argument\nUse -h for help\n")

/-- `parse_arguments`: the options in their order, and the arguments that are no options. -/
def parseArguments (options : List Opt) (arguments : List String) : Except Rejected Options :=
  match options.foldlM parseOption {} with
  | .error e => .error e
  | .ok opts =>
    match arguments with
    | [] => .error (.message "Error: file name must be provided\n")
    | filename :: _ => .ok { opts with filename := some filename }

/-! ## The columns -/

/-- `print_offset` -/
def printOffset (opts : Options) (offset : UInt64) : List UInt8 :=
  match opts.offsetFormat with
  | .hex => zeroPadded 8 (numeral 16 offset.toNat) ++ ascii ":  "
  | .decimal => zeroPadded 8 (numeral 10 offset.toNat) ++ ascii ":  "

/-- What comes before the cell `i` of the data. -/
def separator (opts : Options) (i : Nat) : List UInt8 :=
  if 0 < i ∧ i % opts.grouping.toNat = 0 then ascii "  " else []

/-- The cell of a byte: `%02X`, or its bits from the highest to the lowest. -/
def cell (opts : Options) (b : UInt8) : List UInt8 :=
  match opts.dataFormat with
  | .hex => zeroPadded 2 (numeral 16 b.toNat)
  | .binary => [7, 6, 5, 4, 3, 2, 1, 0].flatMap fun j => numeral 10 (b.toNat >>> j &&& 1)

/-- The cell of a byte that is missing. -/
def blank (opts : Options) : List UInt8 :=
  match opts.dataFormat with
  | .hex => ascii "  "
  | .binary => ascii "        "

/-- `missing_bytes` in `print_data` -/
def missingBytes (opts : Options) (bytesRead : Nat) : Int := opts.width.toNat - bytesRead

/-- The loop of `print_data`, from the cell `i` on. -/
def printCells (opts : Options) : Nat → List UInt8 → List UInt8
  | _, [] => []
  | i, b :: bs => separator opts i ++ cell opts b ++ printCells opts (i + 1) bs

/-- `print_data` -/
def printData (opts : Options) (buffer : List UInt8) : List UInt8 :=
  printCells opts 0 buffer ++
    if buffer.length ≠ opts.width.toNat then
      (List.range (missingBytes opts buffer.length).toNat).flatMap fun k =>
        separator opts (buffer.length + k) ++ blank opts
    else []

/-- `isprint` -/
def isPrint (b : UInt8) : Bool := 32 ≤ b && b ≤ 126

/-- The character that stands for a byte. -/
def asciiByte (b : UInt8) : UInt8 := if isPrint b then b else 46

/-- `print_ascii` -/
def printAscii (buffer : List UInt8) : List UInt8 := ascii "  " ++ buffer.map asciiByte

/-! ## The dump -/

/-- A line, before the newline. -/
def printLine (opts : Options) (offset : UInt64) (buffer : List UInt8) : List UInt8 :=
  (if opts.showOffset then printOffset opts offset else []) ++ printData opts buffer ++
    if opts.showAscii then printAscii buffer else []

/-- `hexdump`, when `fread` returns these buffers one after another and zero after them. -/
def hexdump (opts : Options) : UInt64 → List (List UInt8) → List UInt8
  | _, [] => []
  | offset, buffer :: reads =>
    printLine opts offset buffer ++ ascii "\n" ++
      hexdump opts (offset + UInt64.ofNat buffer.length) reads

end SystemsProgramming.Hexdump
