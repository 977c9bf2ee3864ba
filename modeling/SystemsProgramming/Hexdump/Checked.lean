import SystemsProgramming.Foundations.Block
import SystemsProgramming.Hexdump.Hexdump

/-!
# The dump in the types of the code (`hexdump/main.c`)

`hexdump` and `print_data` once more, with the 256 bytes of the buffer, with `size_t`, `unsigned int` and
`int` for what they count, and with a result only where nothing goes wrong: no byte is read to outside of
the buffer, no remainder is by zero, and no padding count is negative.
-/

namespace SystemsProgramming.Hexdump

open Foundations

/-- `i % opts->grouping` -/
def remainder (opts : Options) (i : UInt64) : Option UInt64 :=
  if opts.grouping = 0 then none else some (i % opts.grouping.toUInt64)

/-- What comes before the cell `i`. The remainder is looked at behind the first cell only. -/
def separatorIn (opts : Options) (i : UInt64) : Option (List UInt8) :=
  if 0 < i then (remainder opts i).map fun r => if r = 0 then ascii "  " else [] else some []

/-- `missing_bytes`: the difference is a `size_t`, which is converted to an `int`. -/
def missingBytesIn (opts : Options) (bytesReadLine : UInt64) : Int32 :=
  (opts.width.toUInt64 - bytesReadLine).toUInt32.toInt32

/-- The loop of `print_data` over the bytes, from the cell `i` on. -/
def printCellsIn (opts : Options) : UInt64 → List UInt8 → Option (List UInt8)
  | _, [] => some []
  | i, b :: bs => do
    let before ← separatorIn opts i
    let rest ← printCellsIn opts (i + 1) bs
    return before ++ cell opts b ++ rest

/-- The loop of `print_data` over the missing bytes, from the `k`-th on, with so many to go. -/
def printMissingIn (opts : Options) (bytesReadLine : UInt64) : Nat → Int32 → Option (List UInt8)
  | 0, _ => some []
  | missing + 1, k => do
    let before ← separatorIn opts (bytesReadLine + k.toInt64.toUInt64)
    let rest ← printMissingIn opts bytesReadLine missing (k + 1)
    return before ++ blank opts ++ rest

/-- `print_data`, where so many bytes of the buffer were read. -/
def printDataIn (opts : Options) (buffer : List UInt8) (bytesReadLine : UInt64) :
    Option (List UInt8) := do
  let cells ← printCellsIn opts 0 (buffer.take bytesReadLine.toNat)
  if bytesReadLine ≠ opts.width.toUInt64 then
    let missing := missingBytesIn opts bytesReadLine
    if missing < 0 then none
    else
      let blanks ← printMissingIn opts bytesReadLine missing.toNatClampNeg 0
      return cells ++ blanks
  else return cells

/-- The loop of `hexdump`, on a stream that has these bytes for one `fread` after another. -/
def hexdumpLoop (opts : Options) : List UInt8 → UInt64 → List (List UInt8) → Option (List UInt8)
  | _, _, [] => some []
  | buffer, offset, bytes :: stream =>
    -- `fread(buffer, 1, opts->width, in)`
    let red := bytes.take opts.width.toNat
    if red = [] then some []
    else do
      let buffer ← writeAt buffer 0 red
      let data ← printDataIn opts buffer (UInt64.ofNat red.length)
      let rest ← hexdumpLoop opts buffer (offset + UInt64.ofNat red.length) stream
      return (if opts.showOffset then printOffset opts offset else []) ++ data ++
        (if opts.showAscii then printAscii (buffer.take red.length) else []) ++ ascii "\n" ++ rest

/-- `hexdump`, with what the stack holds where the buffer comes to lie. -/
def hexdumpIn (opts : Options) (stack : Memory) (stream : List (List UInt8)) : Option (List UInt8) :=
  hexdumpLoop opts (bytesAt stack 0 256) 0 stream

/-- What the calls of `fread` return, up to the one that returns nothing. -/
def freadsOf (opts : Options) (stream : List (List UInt8)) : List (List UInt8) :=
  (stream.map fun bytes => bytes.take opts.width.toNat).takeWhile (· ≠ [])

end SystemsProgramming.Hexdump
