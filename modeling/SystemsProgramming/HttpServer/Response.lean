import SystemsProgramming.Foundations.Block
import SystemsProgramming.HttpServer.Server

/-!
# The block of `build_http` (`http-server/main.c`)

`build_http` once more, with the block that `handler` has for the response and with `*response_len`, which
is a `size_t`. `buildHttp` has the bytes that are sent and leaves both out.
-/

namespace SystemsProgramming.HttpServer

open Foundations

/-- What `build_http` leaves. -/
structure Response where
  response : List UInt8
  /-- `*response_len` -/
  responseLen : UInt64
  /-- `*response_len` at each `read`, and the count that is asked for -/
  reads : List (UInt64 × UInt64)

/-- `BUFFER_SIZE - *response_len`, where the `int` is converted to a `size_t` -/
def count (responseLen : UInt64) : UInt64 := UInt64.ofNat bufferSize - responseLen

/-- The loop of `build_http` from the `k`-th `read` on, at an offset in the file, with at most so many
reads to go. There is no result if they do not suffice, or if bytes are read to outside of the block. -/
def responseLoop (fd : Descriptor) : Nat → Nat → Nat → List UInt8 → UInt64 → Option Response
  | 0, _, _, _, _ => none
  | reads + 1, k, offset, response, responseLen =>
    match received (read (count responseLen).toNat (fd k offset)) with
    | some red => do
      let response ← writeAt response responseLen.toNat red
      let rest ← responseLoop fd reads (k + 1) (offset + red.length) response
        (responseLen + UInt64.ofNat red.length)
      return { rest with reads := (responseLen, count responseLen) :: rest.reads }
    | none => some ⟨response, responseLen, [(responseLen, count responseLen)]⟩

/-- `build_http`, with the memory that `handler` gets for the response. -/
def buildHttpIn (openFile : List UInt8 → Option Descriptor) (file extension : List UInt8)
    (memory : Memory) : Option Response := do
  let response := malloc memory (bufferSize * 2)
  match openFile file with
  | none =>
    let response ← writeAt response 0 (notFound ++ [0])
    return ⟨response, UInt64.ofNat (cString response).length, []⟩
  | some fd =>
    let header := header (getMime extension)
    let response ← writeAt response 0 header
    responseLoop fd (bufferSize + 1) 0 0 response (UInt64.ofNat header.length)

end SystemsProgramming.HttpServer
