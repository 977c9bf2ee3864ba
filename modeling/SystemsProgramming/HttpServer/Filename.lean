import SystemsProgramming.HttpServer.Server

/-!
# The block of `get_filename` (`http-server/main.c`)

`get_filename` once more, with the indexes `i` and `result_len` and the block from `malloc` that it
writes to. `getFilename` has the bytes that are written and leaves the block out.
-/

namespace SystemsProgramming.HttpServer

open Foundations

/-- `result[i] = b`, if that is inside the block. -/
def store (result : List UInt8) (i : Nat) (b : UInt8) : Option (List UInt8) :=
  if i < result.length then some (result.set i b) else none

/-- The loop of `get_filename` and the terminator behind it, with at most so many rounds to go. There is
no result if a store is outside the block. -/
def filenameLoop (hex : Nat → UInt8) (file : List UInt8) :
    Nat → Nat → Nat → List UInt8 → Option (List UInt8)
  | 0, _, _, _ => none
  | rounds + 1, i, resultLen, result =>
    if i < file.length then
      if file.getD i 0 = 37 ∧ i + 2 < file.length then
        (store result resultLen ((sscanf (file.drop (i + 1))).getD (hex i))).bind
          (filenameLoop hex file rounds (i + 3) (resultLen + 1))
      else
        (store result resultLen (file.getD i 0)).bind
          (filenameLoop hex file rounds (i + 1) (resultLen + 1))
    else store result resultLen 0

/-- `get_filename`, on the block that `malloc` returned. -/
def filenameIn (hex : Nat → UInt8) (file result : List UInt8) : Option (List UInt8) :=
  filenameLoop hex file (file.length + 1) 0 0 result

end SystemsProgramming.HttpServer
