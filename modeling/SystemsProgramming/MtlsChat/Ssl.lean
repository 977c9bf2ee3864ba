import SystemsProgramming.Posix

/-!
# The OpenSSL interface of the chat programs

What `server.c` and `client.c` see of OpenSSL: pointers to SSL objects, and the answers to
`SSL_read`. OpenSSL itself is not part of the repository; every answer it can give is allowed.
-/

namespace SystemsProgramming.MtlsChat

/-- `TLS_RECORD_SIZE` -/
def tlsRecordSize : Nat := 16384

/-- The address of an SSL object; a pointer to one is an `Option Ssl`, with `none` for `NULL`. -/
abbrev Ssl := Nat

/-- What `SSL_get_error` tells apart. -/
inductive SslError where
  | zeroReturn
  | syscall
  | ssl
  | wantRead
  | wantWrite
  | other
  deriving DecidableEq

/-- The answer to an `SSL_read`: its return value, the bytes it put into the buffer, and what
`SSL_get_error` says about it. -/
structure SslRead where
  ret : Int
  buffer : List UInt8
  error : SslError

end SystemsProgramming.MtlsChat
