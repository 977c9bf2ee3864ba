import SystemsProgramming.MtlsChat.Server

/-!
# Handshakes and when their flights arrive

OpenSSL is not part of the repository. What the server relies on is stated here about an arbitrary
`OpenSsl`: what it makes of the handshake flights of a peer, and what `SSL_accept` returns on a
non-blocking descriptor for the flights that it finds. The peer's flights arrive at some times, and
`SSL_accept` asks for them at some times; a `Schedule` is one such timing.
-/

namespace SystemsProgramming.MtlsChat.Server

/-- What the flights processed so far mean for the handshake. -/
inductive Verdict where
  | needsMore
  | accepted
  | rejected
  deriving DecidableEq

/-- The server side of a handshake whose flights are of type `φ`: what a sequence of flights leads
to, and the return value of a single `SSL_accept`, on a descriptor with or without `O_NONBLOCK`, that
finds these flights. -/
structure OpenSsl (φ : Type) where
  verdict : List φ → Verdict
  sslAccept : Bool → List φ → Int

/-- The documented behaviour of `SSL_accept` on a non-blocking descriptor: it returns a positive
number when the handshake is complete and no positive number when it failed, and a negative one, with
`SSL_ERROR_WANT_READ` or `SSL_ERROR_WANT_WRITE`, when it needs more. -/
structure OpenSsl.Documented {φ : Type} (ssl : OpenSsl φ) : Prop where
  accepts : ∀ fs, ssl.verdict fs = .accepted → 0 < ssl.sslAccept true fs
  rejects : ∀ fs, ssl.verdict fs = .rejected → ssl.sslAccept true fs ≤ 0
  wants : ∀ fs, ssl.verdict fs = .needsMore → ssl.sslAccept true fs < 0

/-- A peer that sends a complete sequence of flights: they decide the handshake, and what has been
decided is not taken back. -/
structure OpenSsl.Honest {φ : Type} (ssl : OpenSsl φ) (flights : List φ) : Prop where
  complete : ssl.verdict flights ≠ .needsMore
  settled : ∀ k, ssl.verdict (flights.take k) ≠ .needsMore → ∀ m, k ≤ m →
    ssl.verdict (flights.take m) = ssl.verdict (flights.take k)

/-- When the flights can be processed, and when `SSL_accept` asks for them: flight `k` has arrived,
and what has to be sent before it has gone out, by the time `arrival k`. -/
structure Schedule where
  arrival : Nat → Nat
  asked : Nat → Nat

/-- The number of flights, of `n` in all from flight `k` on, that are there when they are asked for:
the first one that is not ends the call. -/
def Schedule.inTime (sched : Schedule) : Nat → Nat → Nat
  | 0, _ => 0
  | n + 1, k => if sched.arrival k ≤ sched.asked k then sched.inTime n (k + 1) + 1 else 0

/-- The flights that a single `SSL_accept` on a non-blocking descriptor finds. -/
def Schedule.found {φ : Type} (sched : Schedule) (flights : List φ) : List φ :=
  flights.take (sched.inTime flights.length 0)

/-- The answers of an iteration in which a peer with these flights and this timing connects. A
blocking `SSL_accept` waits for every flight; a non-blocking one has those it finds. -/
def handshakes {φ : Type} (ssl : OpenSsl φ) (flights : List φ) (a : Answers) (sched : Schedule) :
    Answers :=
  { a with
    sslAccept := fun nonblock =>
      ssl.sslAccept nonblock (if nonblock then sched.found flights else flights) }

end SystemsProgramming.MtlsChat.Server
