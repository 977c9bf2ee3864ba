import SystemsProgramming.Foundations.Block
import SystemsProgramming.MiniShell.Shell

/-!
# The buffers of the mini shell (`mini-shell/main.c`)

Where `readline`, `tokenize` and `builtin_pwd` put what they find: the block that grows with the line, the
vector of tokens with the block it is in, and the buffer that grows until `getcwd` has room for the path.
There is always memory for what a program can have, and a pointer has eight bytes.
-/

namespace SystemsProgramming.MiniShell

open Foundations Prog

/-- `BUFFER_SIZE` -/
def bufferSize : Int32 := 1024

/-! ## The line -/

/-- An `int` that is converted to a `size_t`. -/
def toSize (n : Int32) : Nat := n.toInt64.toUInt64.toNat

/-- `buffer[position] = c`, if that is inside of the block. -/
def storeChar (buffer : List UInt8) (position : Int32) (c : UInt8) : Option (List UInt8) :=
  if position < 0 then none else writeAt buffer position.toNatClampNeg [c]

/-- `realloc`, which fails for more than `PTRDIFF_MAX` bytes. What is new to the block is what the memory
holds. -/
def grow (memory : Int32 → Memory) (buffer : List UInt8) (size : Int32) : Option (List UInt8) :=
  if toSize size < 2 ^ 63 then some (realloc (memory size) buffer (toSize size)) else none

/-- The loop of `readline`, with the input that is left, `buffer`, `position` and `buffer_size`: the block
it returns, and the position of the terminator. There is no result if a store is outside of the block or
`realloc` fails. An `int` wraps around. -/
def readlineLoop (memory : Int32 → Memory) :
    List UInt8 → List UInt8 → Int32 → Int32 → Option (List UInt8 × Int32)
  | [], buffer, position, _ => (storeChar buffer position 0).map fun buffer => (buffer, position)
  | c :: input, buffer, position, size =>
    if c = 10 then (storeChar buffer position 0).map fun buffer => (buffer, position)
    else
      (storeChar buffer position c).bind fun buffer =>
        if size ≤ position + 1 then
          (grow memory buffer (size + bufferSize)).bind fun buffer =>
            readlineLoop memory input buffer (position + 1) (size + bufferSize)
        else readlineLoop memory input buffer (position + 1) size

/-- `readline`, with the block. -/
def readlineIn (memory : Int32 → Memory) (input : List UInt8) : Option (List UInt8 × Int32) :=
  readlineLoop memory input (malloc (memory bufferSize) (toSize bufferSize)) 0 bufferSize

/-- The body of the loop of `interpret`, with that `readline`. When `realloc` fails the shell exits. -/
def bodyIn (memory : Int32 → Memory) (r : Round) : Prog Vars Call Unit := do
  printf r 0 (ascii "> ")
  let v ← get
  match readlineIn memory v.stdin.text with
  | some (line, _) =>
    modify fun v => { v with stdin := behindLine v.stdin }
    call (.execute (tokenize line))
    let result ← execute r (tokenize line)
    loopEnd result
  | none =>
    call (.message (ascii "realloc"))
    finish

/-- One round of the loop, if there is still one. -/
def iterationIn (memory : Int32 → Memory) (r : Round) : Prog Vars Call Unit := do
  let v ← get
  if v.phase = .running then bodyIn memory r else pure ()

/-! ## The vector of tokens -/

/-- `STRTOK_BUF` -/
def strtokBuf : Nat := 64

/-- `sizeof(char *)` -/
def pointerSize : Nat := 8

/-- The variables of `tokenize`: `buffer_size`, `position`, and the number of bytes that `tokens` has
from `malloc` or `realloc`. -/
structure TokenVector where
  bufferSize : Nat
  position : Nat
  allocated : Nat

/-- A store `tokens[position]`, and the number of bytes that are allocated then. -/
structure TokenStore where
  position : Nat
  allocated : Nat
  deriving DecidableEq

/-- The store lies inside the block. -/
def TokenStore.Inside (store : TokenStore) : Prop :=
  pointerSize * (store.position + 1) ≤ store.allocated

instance (store : TokenStore) : Decidable store.Inside := by
  unfold TokenStore.Inside
  infer_instance

namespace TokenVector

/-- The vector before the loop. -/
def initial : TokenVector where
  bufferSize := strtokBuf
  position := 0
  allocated := strtokBuf

/-- The store that `tokenize` makes next. -/
def store (v : TokenVector) : TokenStore := ⟨v.position, v.allocated⟩

/-- The vector when a token has been stored, and the block has been made larger if `position` has reached
`buffer_size`. -/
def push (v : TokenVector) : TokenVector :=
  let position := v.position + 1
  if v.bufferSize ≤ position then
    let bufferSize := v.bufferSize + strtokBuf
    { bufferSize := bufferSize, position := position, allocated := bufferSize }
  else { v with position := position }

/-- The stores of the loop over these tokens, and that of the `NULL` behind it. -/
def stores : TokenVector → List (List UInt8) → List TokenStore
  | v, [] => [v.store]
  | v, _ :: tokens => v.store :: v.push.stores tokens

end TokenVector

/-- All stores that `tokenize` makes for a line. -/
def tokenStores (line : List UInt8) : List TokenStore := TokenVector.initial.stores (tokenize line)

/-! ## The current directory -/

/-- `getcwd(buffer, size)` in a directory with this path. The path and its terminator must fit into the
buffer, and a buffer of no bytes is not accepted at all. A success leaves `errno` as it is. -/
def getcwd (path : CStr) (size : UInt64) (errno : Errno) : GetcwdCall :=
  if size = 0 then ⟨none, .other⟩
  else if path.bytes.length + 1 ≤ size.toNat then ⟨some path.bytes, errno⟩
  else ⟨none, .erange⟩

/-- The calls of `getcwd` in `builtin_pwd` from a `size` and an `errno` on, one after another: `size` grows
before each further call. The directory does not change. -/
def getcwdCalls (path : CStr) : Nat → Int32 → Errno → List GetcwdCall
  | 0, _, _ => []
  | calls + 1, size, errno =>
    let c := getcwd path size.toInt64.toUInt64 errno
    c :: getcwdCalls path calls (size + bufferSize) c.errno

/-- A round of the shell in that directory, in which so many calls of `getcwd` return. -/
def Round.inDirectory (r : Round) (path : CStr) (errno : Errno) (calls : Nat) : Round :=
  { r with getcwd := getcwdCalls path calls bufferSize errno }

end SystemsProgramming.MiniShell
