import SystemsProgramming.Foundations.CString
import SystemsProgramming.Foundations.PercentEncoding
import SystemsProgramming.Foundations.Regex
import SystemsProgramming.Posix

/-!
# The HTTP server (`http-server/main.c`)

The handler of one connection and the functions it calls. Every handler runs in a thread of its own
and shares nothing with the others. `regexec`, `sscanf` and the string functions are modelled by what
the standards say about them; the C locale is taken for `[^ ]` and `strcasecmp`, and `malloc` does not
fail.
-/

namespace SystemsProgramming.HttpServer

open Foundations

/-- `BUFFER_SIZE` -/
def bufferSize : Nat := 52428800

/-- An open descriptor: what there is to be read by the `k`-th `read` on it, at an offset in the
file. -/
abbrev Descriptor := Nat → Nat → Option (List UInt8)

/-- What the handler finds outside: the memory from `buffer` on before `recv` writes to it, the low
byte of the uninitialised `hex` in each round of `get_filename`, and the file system. -/
structure Env where
  memory : List UInt8
  hex : Nat → UInt8
  openFile : List UInt8 → Option Descriptor

/-- What becomes of a connection: it is closed with nothing sent, the copy of the extension runs over
its array, or a response is passed to `send`. -/
inductive Outcome where
  | nothing
  | overflow
  | sent (response : List UInt8)
  deriving DecidableEq

/-! ## The request line -/

/-- `regmatch_t` -/
structure Regmatch where
  so : Nat
  eo : Nat

/-- The expression `^GET /([^ ]*) HTTP/1`. -/
def requestLine : Regex UInt8 :=
  .seq (.literal (ascii "GET /"))
    (.seq (.group (.many (.one (· ≠ 32)))) (.literal (ascii " HTTP/1")))

/-- `regexec` for this expression; the results are `matches[0]` and `matches[1]`. -/
def regexec (string : List UInt8) : Option (Regmatch × Regmatch) :=
  if ascii "GET /" <+: string then
    let path := (string.drop 5).takeWhile (· ≠ 32)
    if ascii " HTTP/1" <+: string.drop (5 + path.length) then
      some (⟨0, 5 + path.length + 7⟩, ⟨5, 5 + path.length⟩)
    else none
  else none

/-! ## The file name and the extension -/

/-- The `isspace` of the C locale. -/
def isSpace (b : UInt8) : Bool := b = 32 || (9 ≤ b && b ≤ 13)

/-- `sscanf(string, "%2x", &hex)`: the low byte of what is assigned to `hex`, or `none` when nothing
is. White space is skipped; of the two characters after it the first may be a sign. `0x` without a
digit is no number. -/
def sscanf (string : List UInt8) : Option UInt8 :=
  match (string.dropWhile isSpace).take 2 with
  | [] => none
  | [c] => hexDigit c
  | c :: d :: _ =>
    match hexDigit c with
    | some x =>
      match hexDigit d with
      | some y => some (16 * x + y)
      | none => if c = 48 ∧ (d = 120 ∨ d = 88) then none else some x
    | none => if c = 43 then hexDigit d else if c = 45 then (hexDigit d).map (0 - ·) else none

/-- `get_filename`, from the round `i` on; the result is what it writes before the terminator. -/
def getFilename (hex : Nat → UInt8) : Nat → List UInt8 → List UInt8
  | _, [] => []
  | i, c :: d :: e :: rest =>
    -- `file[i] == '%' && i + 2 < len`
    if c = 37 then
      (sscanf (d :: e :: rest)).getD (hex i) :: getFilename hex (i + 3) rest
    else
      c :: getFilename hex (i + 1) (d :: e :: rest)
  | i, c :: rest => c :: getFilename hex (i + 1) rest

/-- `get_extension` -/
def getExtension (urlFile : List UInt8) : List UInt8 :=
  match splitLast 46 urlFile with
  | none => []
  | some ([], _) => []
  | some (_ :: _, extension) => extension

/-- `get_mime` -/
def getMime (extension : List UInt8) : List UInt8 :=
  if caseEq extension (ascii "html") then ascii "text/html"
  else if caseEq extension (ascii "txt") then ascii "text/plain"
  else if caseEq extension (ascii "jpg") || caseEq extension (ascii "jpeg") then ascii "image/jpeg"
  else if caseEq extension (ascii "png") then ascii "image/png"
  else ascii "application/octet-stream"

/-! ## The response -/

/-- The response when the file cannot be opened. -/
def notFound : List UInt8 :=
  ascii "HTTP/1.1 404 Not Found\r\nContent-Type: text/plain\r\n\r\n404 Not Found"

/-- The header of the response with the file. -/
def header (mimeType : List UInt8) : List UInt8 :=
  ascii "HTTP/1.1 200 OK\r\nContent-Type: " ++ mimeType ++ ascii "\r\n\r\n"

/-- The loop that reads the file behind a header of length `start`: what it has appended to the
response, and the result of the `read` that ended it. The first argument bounds the number of
rounds. -/
def readLoop (fd : Descriptor) (start : Nat) :
    Nat → Nat → List UInt8 → List UInt8 × Option (List UInt8)
  | 0, _, body => (body, some [])
  | fuel + 1, k, body =>
    let red := read (bufferSize - (start + body.length)) (fd k body.length)
    match received red with
    | some chunk => readLoop fd start fuel (k + 1) (body ++ chunk)
    | none => (body, red)

/-- The whole loop: a round that goes on has read at least one byte, so there are at most
`BUFFER_SIZE` of them and one that ends it. -/
def readFile (fd : Descriptor) (start : Nat) : List UInt8 × Option (List UInt8) :=
  readLoop fd start (bufferSize + 1) 0 []

/-- `build_http`; the result is the response. -/
def buildHttp (openFile : List UInt8 → Option Descriptor) (file extension : List UInt8) :
    List UInt8 :=
  let mimeType := getMime extension
  match openFile file with
  | none => notFound
  | some fd => header mimeType ++ (readFile fd (header mimeType).length).1

/-! ## The handler -/

/-- The file name that `open` gets. -/
def Env.file (env : Env) (urlFile : List UInt8) : List UInt8 :=
  cString (getFilename env.hex 0 urlFile)

/-- The handler once it has the URL. `extension` has room for 31 characters and the terminator. -/
def serve (env : Env) (urlFile : List UInt8) : Outcome :=
  let file := env.file urlFile
  let extension := getExtension urlFile
  if 32 ≤ extension.length then .overflow else .sent (buildHttp env.openFile file extension)

/-- The memory from `buffer` on when `recv` has written to it. -/
def Env.buffer (env : Env) (received : List UInt8) : List UInt8 :=
  received ++ env.memory.drop received.length

/-- `handler`, on a connection whose data arrives in these pieces: the only `recv` gets the first. -/
def handler (env : Env) (arrivals : List (List UInt8)) : Outcome :=
  let received := (arrivals.headD []).take bufferSize
  if received = [] then .nothing
  else
    match regexec (cString (env.buffer received)) with
    | none => .nothing
    | some (_, m) => serve env (cString (((env.buffer received).set m.eo 0).drop m.so))

end SystemsProgramming.HttpServer
