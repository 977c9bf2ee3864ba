import SystemsProgramming.MtlsChat.Server

/-!
# What the server may do with descriptors and SSL objects

The protocol the calls of the server are held against. It says nothing about slots: it knows the
descriptors that were accepted and not closed, and the SSL objects that were allocated and not
freed, and allows a call only on one of these. Reading from, writing to, shutting down or freeing an
object for a client, as `broadcast` and `monitor` do, takes an object whose handshake succeeded and
whose descriptor is open.
-/

namespace SystemsProgramming.MtlsChat.Server

open Foundations

/-- The state of an SSL object: the descriptor it is bound to, and whether `SSL_accept` returned a
positive number. -/
structure Session where
  fd : Option Int
  established : Bool

/-- The client descriptors that are open and the SSL objects that are allocated. -/
structure World where
  descriptors : Ledger Int Unit
  objects : Ledger Ssl Session

/-- No client is there. -/
def World.initial : World := ⟨Ledger.empty, Ledger.empty⟩

/-- The object serves a client: its handshake succeeded, and its descriptor is open. -/
def World.Live (w : World) (s : Session) : Prop :=
  s.established = true ∧ ∃ fd, s.fd = some fd ∧ w.descriptors fd = some ()

instance (w : World) : DecidablePred w.Live := fun s => by
  unfold World.Live
  infer_instance

/-- What a caller of `SSL_shutdown` or `SSL_free` needs: `monitor` an object that serves a client,
`tls_accept_function` any object. -/
def World.Usable (w : World) : Caller → Session → Prop
  | .tlsAcceptFunction, _ => True
  | .monitor _, s => w.Live s

instance (w : World) (caller : Caller) : DecidablePred (w.Usable caller) := fun s =>
  match caller with
  | .tlsAcceptFunction => isTrue trivial
  | .monitor _ => inferInstanceAs (Decidable (w.Live s))

/-- The protocol of the server's calls. -/
def World.next (w : World) : Call → Option World
  | .accept fd => (w.descriptors.acquire fd ()).map fun d => { w with descriptors := d }
  | .setNonblock fd => (w.descriptors.use fd (fun _ => True) id).map fun d =>
      { w with descriptors := d }
  | .close fd => (w.descriptors.release fd fun _ => True).map fun d => { w with descriptors := d }
  | .sslNew none => some w
  | .sslNew (some o) => (w.objects.acquire o ⟨none, false⟩).map fun os => { w with objects := os }
  | .sslSetFd (some o) fd ret =>
      (w.objects.use o (fun _ => w.descriptors fd = some ())
        fun s => if ret = 0 then s else { s with fd := some fd }).map fun os =>
          { w with objects := os }
  | .sslAccept (some o) ret =>
      (w.objects.use o (fun s => ∃ fd, s.fd = some fd ∧ w.descriptors fd = some ())
        fun s => { s with established := 0 < ret }).map fun os => { w with objects := os }
  | .sslShutdown caller (some o) =>
      (w.objects.use o (w.Usable caller) id).map fun os => { w with objects := os }
  | .sslFree caller (some o) =>
      (w.objects.release o (w.Usable caller)).map fun os => { w with objects := os }
  | .sslWrite _ (some o) _ _ | .sslRead _ (some o) _ =>
      (w.objects.use o w.Live id).map fun os => { w with objects := os }
  -- `NULL` is no object
  | .sslSetFd none _ _ | .sslAccept none _ | .sslShutdown _ none | .sslFree _ none
  | .sslWrite _ none _ _ | .sslRead _ none _ => none
  | .readStdin _ | .writeStdout _ | .printf _ | .fprintfStderr _ | .perror _ | .errPrintErrors =>
      some w

end SystemsProgramming.MtlsChat.Server
