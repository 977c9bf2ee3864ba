import SystemsProgramming.Foundations.Chunks
import SystemsProgramming.Foundations.Records
import SystemsProgramming.Hexdump.Hexdump

/-!
# Reading a dump

What somebody who knows the options reads in a dump: the lines, the offset before the colon, the cells
of the data at their fixed columns up to the first blank one, and the characters behind them.
-/

namespace SystemsProgramming.Hexdump

open Foundations

/-- The options that the tool accepts. -/
structure Options.Valid (opts : Options) : Prop where
  width_pos : 1 ≤ opts.width.toNat
  width_le : opts.width.toNat ≤ 255
  grouping_mem : opts.grouping = 1 ∨ opts.grouping = 2 ∨ opts.grouping = 4 ∨ opts.grouping = 8

/-- What `fread` returns for a file: `width` bytes at a time, fewer at its end only. -/
def freads (opts : Options) (file : List UInt8) : List (List UInt8) := chunks opts.width.toNat file

/-- The dump of a file. -/
def dump (opts : Options) (file : List UInt8) : List UInt8 := hexdump opts 0 (freads opts file)

/-- What a line says. -/
structure Line where
  offset : Option Nat
  bytes : List UInt8
  text : Option (List UInt8)
  deriving DecidableEq

/-- Take one line off the text. -/
def takeLine (text : List UInt8) : Option (List UInt8 × List UInt8) :=
  if 10 ∈ text then some (text.takeWhile (· ≠ 10), (text.dropWhile (· ≠ 10)).tail) else none

/-- The lines of a text, without their newlines. -/
def lines (text : List UInt8) : Option (List (List UInt8)) := readRecords takeLine text

namespace Options

variable (opts : Options)

/-- The base of the offsets. -/
def offsetBase : Nat :=
  match opts.offsetFormat with
  | .hex => 16
  | .decimal => 10

/-- The base of the cells. -/
def cellBase : Nat :=
  match opts.dataFormat with
  | .hex => 16
  | .binary => 2

/-- The characters of a cell. -/
def cellWidth : Nat :=
  match opts.dataFormat with
  | .hex => 2
  | .binary => 8

/-- The column of the data at which the cell `i` starts. -/
def cellStart (i : Nat) : Nat := i * opts.cellWidth + 2 * (i / opts.grouping.toNat)

/-- The characters of the data on a line. -/
def dataWidth : Nat :=
  opts.width.toNat * opts.cellWidth + 2 * ((opts.width.toNat - 1) / opts.grouping.toNat)

end Options

/-- The offset, and the columns behind it. -/
def readOffset (opts : Options) (line : List UInt8) : Option (Nat × List UInt8) :=
  (readNumeral opts.offsetBase (line.takeWhile (· ≠ 58))).map fun offset =>
    (offset, (line.dropWhile (· ≠ 58)).drop 3)

/-- The cell `i` of the data. -/
def cellAt (opts : Options) (data : List UInt8) (i : Nat) : List UInt8 :=
  (data.drop (opts.cellStart i)).take opts.cellWidth

/-- The byte in a cell. -/
def readCell (opts : Options) (cell : List UInt8) : Option UInt8 :=
  (readNumeral opts.cellBase cell).map UInt8.ofNat

/-- The bytes in the data. -/
def readData (opts : Options) (data : List UInt8) : Option (List UInt8) :=
  (((List.range opts.width.toNat).map (cellAt opts data)).takeWhile (· ≠ blank opts)).mapM
    (readCell opts)

/-- Read a line. -/
def readLine (opts : Options) (line : List UInt8) : Option Line := do
  let (offset, columns) ←
    if opts.showOffset then (readOffset opts line).map fun p => (some p.1, p.2) else some (none, line)
  let bytes ← readData opts columns
  return ⟨offset, bytes, if opts.showAscii then some (columns.drop (opts.dataWidth + 2)) else none⟩

/-- The file in a dump. -/
def decode (opts : Options) (text : List UInt8) : Option (List UInt8) := do
  let ls ← (← lines text).mapM (readLine opts)
  return ls.flatMap Line.bytes

end SystemsProgramming.Hexdump
