import SystemsProgramming.Foundations.CString
import SystemsProgramming.Foundations.Prog

/-!
# The operating system interface the programs share

`struct pollfd`, `poll`, `read` and `struct sockaddr_in`, as far as the programs of the repository look at
them.
-/

namespace SystemsProgramming

open Foundations

/-- `POLLIN` of `poll.h`. -/
def POLLIN : Nat := 0x001

/-- `struct pollfd`: the descriptor, the events asked for and the events that happened. -/
structure Pollfd where
  fd : Int
  events : Nat
  revents : Nat

/-- `p.revents & POLLIN`, as a condition. -/
def Pollfd.readable (p : Pollfd) : Bool := p.revents &&& POLLIN != 0

@[simp] theorem Pollfd.readable_zero (fd : Int) (events : Nat) :
    (Pollfd.mk fd events 0).readable = false := by
  simp [readable]

/-- What `poll(fds, nfds, timeout)` writes: the first `nfds` entries get new `revents`, an entry with
a negative descriptor gets none. The entries from `nfds` on keep the ones they have. -/
def pollfds (fds : Nat → Pollfd) (nfds : Nat) (revents : Nat → Nat) : Nat → Pollfd := fun i =>
  if i < nfds then { fds i with revents := if (fds i).fd < 0 then 0 else revents i } else fds i

@[simp] theorem pollfds_fd (fds : Nat → Pollfd) (nfds : Nat) (revents : Nat → Nat) (i : Nat) :
    (pollfds fds nfds revents i).fd = (fds i).fd := by
  unfold pollfds
  split <;> rfl

/-- `poll(fds, nfds, timeout)`: a failing `poll`, which returns a negative number, leaves the entries as
they are, and one that returns zero has found no events. -/
def poll (fds : Nat → Pollfd) (nfds : Nat) (ret : Int) (revents : Nat → Nat) : Nat → Pollfd :=
  if ret < 0 then fds else pollfds fds nfds (if ret = 0 then fun _ => 0 else revents)

@[simp] theorem poll_fd (fds : Nat → Pollfd) (nfds : Nat) (ret : Int) (revents : Nat → Nat)
    (i : Nat) : (poll fds nfds ret revents i).fd = (fds i).fd := by
  unfold poll
  split
  · rfl
  · exact pollfds_fd _ _ _ _

/-- `read(fd, buffer, count)`: at most `count` of the bytes at hand; `none` is an error, no bytes is
the end of the file. -/
def read (count : Nat) (answer : Option (List UInt8)) : Option (List UInt8) :=
  answer.map (List.take count)

/-- The buffer of a `read` that returned more than zero. -/
def received : Option (List UInt8) → Option (List UInt8)
  | some (b :: bs) => some (b :: bs)
  | _ => none

theorem received_ne_nil {r : Option (List UInt8)} {chunk : List UInt8}
    (h : received r = some chunk) : chunk ≠ [] := by
  rcases r with _ | (_ | ⟨b, bs⟩)
  · cases h
  · cases h
  · cases h
    exact List.cons_ne_nil b bs

theorem length_received_le {count : Nat} {answer : Option (List UInt8)} {chunk : List UInt8}
    (h : received (read count answer) = some chunk) : chunk.length ≤ count := by
  cases answer with
  | none => cases h
  | some bytes =>
    have htake : chunk = bytes.take count := by
      rw [read, Option.map_some] at h
      cases hbytes : bytes.take count with
      | nil => rw [hbytes] at h; cases h
      | cons b bs => rw [hbytes] at h; exact (Option.some.inj h).symm
    exact htake ▸ List.length_take_le count bytes

/-- A `struct sockaddr_in` of the family `AF_INET`. The port is the number that `htons` gets. -/
structure SockaddrIn where
  port : UInt16
  addr : UInt32
  deriving DecidableEq

/-- The address from two arguments. What `inet_addr` and `atoi` make of a text are parameters. -/
def SockaddrIn.ofArgs (inetAddr : CStr → UInt32) (atoi : CStr → Int) (ip port : CStr) : SockaddrIn where
  port := UInt16.ofInt (atoi port)
  addr := inetAddr ip

end SystemsProgramming
