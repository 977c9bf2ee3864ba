import SystemsProgramming.MtlsChat.Proofs.OwnershipProofs
import SystemsProgramming.MtlsChat.Client
import Mathlib.Data.List.TakeDrop
import Mathlib.Data.List.Nodup

/-!
# Proofs: what becomes of a message

A chunk read from standard input is handed to `SSL_write` once for every client, and the return value
is not looked at. So a client gets exactly what was read, as long as `SSL_write` accepts every chunk
whole: a chunk that is refused, because the socket is full or OpenSSL has to read first, is lost, and
so is the rest of one that is accepted in part.
-/

namespace SystemsProgramming.MtlsChat

open Foundations Prog

/-- Of a message that is not empty, the part that `SSL_write` accepts is all of it exactly if the
return value is at least its length. -/
theorem take_accepted_iff {message : Option (List UInt8)}
    (h : ∀ chunk, message = some chunk → chunk ≠ []) (ret : Int) :
    (message.getD []).take ret.toNat = message.getD [] ↔
      ∀ chunk, message = some chunk → chunk.length ≤ ret := by
  rw [List.take_eq_self_iff]
  cases message with
  | none => simp
  | some chunk =>
    have hpos : 0 < chunk.length := List.length_pos_iff.2 (h chunk rfl)
    simp only [Option.getD_some, Option.some.injEq, forall_eq']
    omega

namespace Server

variable {a : Answers} {u v : Vars} {w : World} {i : Nat} {o : Ssl}

/-- What the SSL object `o` accepts in a call: of a message written to it, as many bytes as
`SSL_write` returns, and none when it returns no positive number. -/
def acceptedBy (o : Ssl) : Call → List UInt8
  | .sslWrite _ (some p) data ret => if p = o then data.take ret.toNat else []
  | _ => []

/-- What a call reads from standard input. -/
def fromStdin : Call → List UInt8
  | .readStdin r => (received r).getD []
  | _ => []

/-- The chunk that the second job reads from standard input. -/
def stdinChunk (a : Answers) (u : Vars) : Option (List UInt8) :=
  if 0 < a.numberRevents ∧ (u.fds 1).readable = true then received (read tlsRecordSize a.stdin)
  else none

/-- If the iteration reads a chunk, the `SSL_write` for slot `i` accepts all of it. -/
def WritesWhole (i : Nat) (v : Vars) (a : Answers) : Prop :=
  ∀ u chunk, accepted a (v.polled a) = some u → stdinChunk a u = some chunk →
    chunk.length ≤ a.sslWrite i

/-- The object `o` is that of slot `i`, which is in use and below `nfds`, and of no other slot. -/
structure Serves (u : Vars) (i : Nat) (o : Ssl) : Prop where
  occupied : u.Occupied i
  below : i < u.nfds
  object : u.ssls i = some o
  only : ∀ j, 2 ≤ j → j < u.nfds → (u.fds j).fd ≠ -1 → u.ssls j = some o → j = i

/-! ## One iteration -/

theorem flatMap_eq_of_unique {f : Nat → List UInt8} {slots : List Nat} (hnodup : slots.Nodup)
    (hi : i ∈ slots) (hother : ∀ j ∈ slots, j ≠ i → f j = []) : slots.flatMap f = f i := by
  obtain ⟨before, after, rfl⟩ := List.append_of_mem hi
  obtain ⟨-, hafter, hdisj⟩ := List.nodup_append.1 hnodup
  have h1 : before.flatMap f = [] := List.flatMap_eq_nil_iff.2 fun j hj =>
    hother j (by simp [hj]) (hdisj j hj i List.mem_cons_self)
  have h2 : after.flatMap f = [] := List.flatMap_eq_nil_iff.2 fun j hj =>
    hother j (by simp [hj]) fun hji => (List.nodup_cons.1 hafter).1 (hji ▸ hj)
  rw [List.flatMap_append, List.flatMap_cons, h1, h2, List.nil_append, List.append_nil]

theorem setup_silent {cs : List Call} (h : ∀ c ∈ cs, c.isSetup = true) :
    cs.flatMap (acceptedBy o) = [] ∧ cs.flatMap fromStdin = [] := by
  constructor <;>
    refine List.flatMap_eq_nil_iff.2 fun c hc => ?_ <;>
    have hset := h c hc <;> cases c <;> first | rfl | cases hset

theorem monitorClients_silent (a : Answers) (u : Vars) :
    ((monitorClients a).calls u).flatMap (acceptedBy o) = [] ∧
    ((monitorClients a).calls u).flatMap fromStdin = [] := by
  constructor <;>
    refine List.flatMap_eq_nil_iff.2 fun c hc => ?_ <;>
    have hmon := monitorClients_monitoring a u c hc <;> cases c <;> first | rfl | cases hmon

/-- `broadcast` writes the chunk to the object of slot `i` once. -/
theorem broadcast_writes (h : Serves u i o) (buffer : List UInt8) :
    ((broadcast a buffer).calls u).flatMap (acceptedBy o) = buffer.take (a.sslWrite i).toNat ∧
    ((broadcast a buffer).calls u).flatMap fromStdin = [] := by
  rw [calls_broadcast, List.flatMap_map, List.flatMap_map]
  refine ⟨?_, List.flatMap_eq_nil_iff.2 fun _ _ => rfl⟩
  -- of the slots below `nfds` that are in use, only slot `i` has the object
  have hother : ∀ j ∈ (List.range' 2 (u.nfds - 2)).filter (fun j => (u.fds j).fd ≠ -1), j ≠ i →
      acceptedBy o (.sslWrite j (u.ssls j) buffer (a.sslWrite j)) = [] := by
    intro j hj hji
    obtain ⟨hrange, hfd⟩ := List.mem_filter.1 hj
    have hj' := List.mem_range'_1.1 hrange
    have hne : u.ssls j ≠ some o := fun ho =>
      hji (h.only j hj'.1 (by omega) (by simpa using hfd) ho)
    cases hs : u.ssls j with
    | none => rfl
    | some p => exact if_neg fun hpo => hne (by rw [hs, hpo])
  have hself : acceptedBy o (.sslWrite i (u.ssls i) buffer (a.sslWrite i)) =
      buffer.take (a.sslWrite i).toNat := by
    simp [acceptedBy, h.object]
  rw [← hself]
  refine flatMap_eq_of_unique (List.Nodup.filter _ List.nodup_range') ?_ hother
  exact List.mem_filter.2 ⟨List.mem_range'_1.2 ⟨h.occupied.1, by have := h.below; omega⟩,
    by simpa using h.occupied.2.2⟩

/-- What the second and third job take in and write to slot `i`. -/
theorem serveStdin_writes (h : Serves u i o) :
    ((serveStdin a).calls u).flatMap fromStdin = (stdinChunk a u).getD [] ∧
    ((serveStdin a).calls u).flatMap (acceptedBy o) =
      ((stdinChunk a u).getD []).take (a.sslWrite i).toNat := by
  obtain ⟨hm1, hm2⟩ := monitorClients_silent (o := o) a u
  by_cases hr : 0 < a.numberRevents ∧ (u.fds 1).readable = true
  · cases hc : received (read tlsRecordSize a.stdin) with
    | none => simp [serveStdin, readServer, stdinChunk, hr, hc, fromStdin, acceptedBy]
    | some buffer =>
      obtain ⟨hb1, hb2⟩ := broadcast_writes (a := a) h buffer
      simp [serveStdin, readServer, stdinChunk, hr, hc, fromStdin, acceptedBy, hb1, hb2, hm1, hm2,
        final_broadcast]
  · have hcalls : (serveStdin a).calls u = (monitorClients a).calls u := by simp [serveStdin, hr]
    simp [hcalls, hm1, hm2, stdinChunk, hr]

/-- One iteration: the object accepts the beginning of what is read, and all of it exactly if
`SSL_write` says so. -/
theorem iteration_delivers (h : ∀ u, accepted a (v.polled a) = some u → Serves u i o) :
    (((iteration a).calls v).flatMap (acceptedBy o)).Sublist
      (((iteration a).calls v).flatMap fromStdin) ∧
    (((iteration a).calls v).flatMap (acceptedBy o) = ((iteration a).calls v).flatMap fromStdin ↔
      WritesWhole i v a) := by
  cases hacc : accepted a (v.polled a) with
  | none =>
    obtain ⟨h1, h2⟩ := setup_silent (o := o) (iteration_of_not_accepted hacc).1
    simp [h1, h2, WritesWhole, hacc]
  | some u =>
    obtain ⟨-, setup, hsetup, hcalls⟩ := iteration_of_accepted hacc
    obtain ⟨h1, h2⟩ := setup_silent (o := o) hsetup
    obtain ⟨h3, h4⟩ := serveStdin_writes (a := a) (h u hacc)
    rw [hcalls, List.flatMap_append, List.flatMap_append, h1, h2, h3, h4]
    refine ⟨List.take_sublist _ _, ?_⟩
    have hwhole : WritesWhole i v a ↔
        ∀ chunk, stdinChunk a u = some chunk → chunk.length ≤ a.sslWrite i := by
      unfold WritesWhole
      rw [hacc]
      exact ⟨fun h chunk => h u chunk rfl, fun h u' chunk hu' => Option.some.inj hu' ▸ h chunk⟩
    rw [List.nil_append, List.nil_append, hwhole]
    refine take_accepted_iff (fun chunk hc => ?_) _
    unfold stdinChunk at hc
    split_ifs at hc
    exact received_ne_nil hc

/-! ## A slot that stays in use keeps its object -/

theorem accepted_slot (h : accepted a (v.polled a) = some u) (hi : v.Occupied i) :
    u.Occupied i ∧ u.ssls i = v.ssls i ∧ v.nfds ≤ u.nfds := by
  obtain ⟨-, rfl⟩ | ⟨-, h2, -, k, h4, rfl⟩ := accepted_eq_some.1 h
  · exact ⟨(polled_occupied_iff a v i).2 hi, rfl, Nat.le_refl _⟩
  · obtain ⟨hk2, hmax, hfree, -⟩ := freeSlot_eq_some.1 h4
    have hi' := (polled_occupied_iff a v i).2 hi
    have hik : i ≠ k := by
      rintro rfl
      exact hi'.2.2 hfree
    refine ⟨(openSlot_occupied_iff h2 hk2 hmax i).2 (Or.inl hi'), ?_, ?_⟩
    · simp [Vars.openSlot, hik, Vars.polled]
    · show v.nfds ≤ if v.nfds ≤ k then k + 1 else v.nfds
      split_ifs <;> omega

theorem serveStdin_object (hi : ((serveStdin a).final u).Occupied i) :
    ((serveStdin a).final u).ssls i = u.ssls i := by
  rw [(serveStdin_spec a u).1, final_monitorClients] at hi ⊢
  split_ifs at hi ⊢ with h1 h2
  · rfl
  · obtain ⟨-, hs⟩ | ⟨-, hfd⟩ := clientLoop_slot (a := a) u.nfds 2 u i
    · exact hs
    · exact absurd hfd hi.2.2
  · rfl

theorem iteration_object (hi : v.Occupied i) (hi' : ((iteration a).final v).Occupied i) :
    ((iteration a).final v).ssls i = v.ssls i := by
  cases hacc : accepted a (v.polled a) with
  | none =>
    obtain ⟨-, ⟨nb, hfin⟩ | ⟨k, -, hf, hfin⟩⟩ := iteration_of_not_accepted hacc
    · rw [hfin]
      rfl
    · have hik : i ≠ k := by
        rintro rfl
        exact ((polled_occupied_iff a v i).2 hi).2.2 (freeSlot_eq_some.1 hf).2.2.1
      rw [hfin]
      simp [Vars.dropSlot, Vars.openSlot, hik, Vars.polled]
  | some u =>
    rw [(iteration_of_accepted hacc).1] at hi' ⊢
    rw [serveStdin_object hi', (accepted_slot hacc hi).2.1]

/-- Among slots that own the objects, the object of a slot is in no other. -/
theorem Owner.serves (h : Owner u w) (hi : u.Occupied i) (hn : i < u.nfds) (ho : u.ssls i = some o) :
    Serves u i o := by
  refine ⟨hi, hn, ho, fun j h2 hj hfd hjo => ?_⟩
  have hocc : u.Occupied j := ⟨h2, by have := h.bound; omega, hfd⟩
  exact h.objects.inj j i o _ _ (clientSsls_of_occupied hocc hjo) (clientSsls_of_occupied hi ho)

/-! ## Whole runs -/

/-- The slots own the world after the calls `h`, and slot `i`, while it is in use, has the object
`o`. -/
def Keeps (i : Nat) (o : Ssl) (h : List Call) (v : Vars) : Prop :=
  (∃ w, replay World.next World.initial h = some w ∧ Owner v w) ∧ (v.Occupied i → v.ssls i = some o)

theorem owner_step {h : List Call} (hv : ∃ w, replay World.next World.initial h = some w ∧ Owner v w)
    (hfresh : Fresh h v a) :
    ∃ w, replay World.next World.initial (h ++ (iteration a).calls v) = some w ∧
      Owner ((iteration a).final v) w := by
  obtain ⟨w, hw, hO⟩ := hv
  obtain ⟨w', hw', hO'⟩ := iteration_keeps h a v w ⟨hO, hw, hfresh⟩
  exact ⟨w', by rw [replay_append_some hw, hw'], hO'⟩

/-- In a run, the client in slot `i` with the object `o` is served from the iteration on that gets
past its first job with that slot in use and below `nfds`, as long as the slot stays in use and below
`nfds`. -/
theorem serves_throughout {pre rest : List Answers} {v₀ : Vars} (h₀ : Owner v₀ World.initial)
    (hfresh : AllSteps iteration Fresh [] v₀ (pre ++ a :: rest))
    (hu : accepted a (((pollLoop pre).final v₀).polled a) = some u) (hi : u.Occupied i)
    (hn : i < u.nfds) (ho : u.ssls i = some o)
    (hstay : AllSteps iteration (fun _ v _ => v.Occupied i ∧ i < v.nfds) []
      ((iteration a).final ((pollLoop pre).final v₀)) rest) :
    AllSteps iteration
      (fun _ v a => ∀ u, accepted a (v.polled a) = some u → Serves u i o) []
      ((pollLoop pre).final v₀) (a :: rest) := by
  obtain ⟨hpre, hfresh_a, hrest⟩ := allSteps_append.1 hfresh
  obtain ⟨w, hw, hO⟩ := Triple.run iteration_keeps h₀ (replay_nil _) hpre
  refine ⟨fun u' hu' => ?_, ?_⟩
  · obtain rfl : u = u' := Option.some.inj (hu.symm.trans hu')
    obtain ⟨-, w', -, -, hO'⟩ := hO.after_accept hw hfresh_a hu
    exact hO'.serves hi hn ho
  · have hstart : Keeps i o ([] ++ (pollLoop pre).calls v₀ ++ (iteration a).calls ((pollLoop pre).final v₀))
        ((iteration a).final ((pollLoop pre).final v₀)) := by
      refine ⟨owner_step ⟨w, hw, hO⟩ hfresh_a, fun hocc => ?_⟩
      rw [(iteration_of_accepted hu).1] at hocc ⊢
      rw [serveStdin_object hocc, ho]
    have hkeep : ∀ h v b, Keeps i o h v → Fresh h v b → v.Occupied i ∧ i < v.nfds →
        Keeps i o (h ++ (iteration b).calls v) ((iteration b).final v) := by
      rintro h v b ⟨hv, hobj⟩ hfr ⟨hocc, -⟩
      refine ⟨owner_step hv hfr, fun hocc' => ?_⟩
      rw [iteration_object hocc hocc', hobj hocc]
    have hall := AllSteps.with_invariant hkeep hstart hrest hstay.history
    refine AllSteps.history (hall.mono ?_)
    rintro h v b ⟨⟨⟨w, hw, hO⟩, hobj⟩, hfr, hocc, hlt⟩ u' hu'
    obtain ⟨-, w', -, -, hO'⟩ := hO.after_accept hw hfr hu'
    obtain ⟨hocc', hssl, hle⟩ := accepted_slot hu' hocc
    exact hO'.serves hocc' (by omega) (hssl.trans (hobj hocc))

end Server

namespace Client

variable {a : Answers} {v : Vars}

/-- What the client's SSL object accepts in a call. -/
def acceptedBySsl : Call → List UInt8
  | .sslWrite data ret => data.take ret.toNat
  | _ => []

/-- What a call reads from standard input. -/
def fromStdin : Call → List UInt8
  | .readStdin r => (received r).getD []
  | _ => []

/-- The chunk that an iteration reads from standard input. -/
def stdinChunk (a : Answers) (v : Vars) : Option (List UInt8) :=
  if v.running = true ∧ 0 < a.numberRevents ∧ ((v.polled a).fds 0).readable = true then
    received (read tlsRecordSize a.stdin)
  else none

/-- If the iteration reads a chunk, `SSL_write` accepts all of it. -/
def WritesWhole (v : Vars) (a : Answers) : Prop :=
  ∀ chunk, stdinChunk a v = some chunk → chunk.length ≤ a.sslWrite

theorem monitorServer_silent (a : Answers) (u : Vars) :
    ((monitorServer a).calls u).flatMap acceptedBySsl = [] ∧
    ((monitorServer a).calls u).flatMap fromStdin = [] := by
  have hexit : ∀ P : Call → Prop, (∀ n, P (.exit n)) → AllCalls P (exit 1) := fun P h =>
    .bind (.call (h 1)) fun _ => .modify _
  have hall : ∀ P : Call → Prop, (∀ n, P (.exit n)) → (∀ r, P (.sslRead r)) →
      (∀ d, P (.writeStdout d)) → (∀ t, P (.printf t)) → P .errPrintErrors →
      AllCalls P (monitorServer a) := by
    intro P h1 h2 h3 h4 h5
    refine .bind .get fun _ => .ite (.bind (.call (h2 _)) fun _ => .ite ?_ (.call (h3 _))) (.pure ())
    cases a.sslRead.error
    case zeroReturn | syscall | ssl => exact .bind (.call (h4 _)) fun _ => hexit P h1
    case wantRead | wantWrite => exact .pure ()
    case other => exact .bind (.call h5) fun _ => hexit P h1
  constructor <;> refine List.flatMap_eq_nil_iff.2 fun c hc => ?_
  · exact hall (fun c => acceptedBySsl c = []) (fun _ => rfl) (fun _ => rfl) (fun _ => rfl)
      (fun _ => rfl) rfl u c hc
  · exact hall (fun c => fromStdin c = []) (fun _ => rfl) (fun _ => rfl) (fun _ => rfl)
      (fun _ => rfl) rfl u c hc

theorem iteration_writes (a : Answers) (v : Vars) :
    ((iteration a).calls v).flatMap fromStdin = (stdinChunk a v).getD [] ∧
    ((iteration a).calls v).flatMap acceptedBySsl =
      ((stdinChunk a v).getD []).take a.sslWrite.toNat := by
  by_cases hrun : v.running = true
  · have hcalls : (iteration a).calls v = (serveStdin a).calls (v.polled a) := by
      simp [iteration, hrun]
    rw [hcalls]
    obtain ⟨hm1, hm2⟩ := monitorServer_silent a (v.polled a)
    by_cases hr : 0 < a.numberRevents ∧ ((v.polled a).fds 0).readable = true
    · cases hc : received (read tlsRecordSize a.stdin) <;>
        simp [serveStdin, readClient, stdinChunk, hrun, hr, hc, fromStdin, acceptedBySsl, hm1, hm2]
    · have hserve : (serveStdin a).calls (v.polled a) = (monitorServer a).calls (v.polled a) := by
        simp [serveStdin, hr]
      simp [hserve, hm1, hm2, stdinChunk, hr]
  · simp [iteration, hrun, stdinChunk]

theorem iteration_delivers (a : Answers) (v : Vars) :
    (((iteration a).calls v).flatMap acceptedBySsl).Sublist
      (((iteration a).calls v).flatMap fromStdin) ∧
    (((iteration a).calls v).flatMap acceptedBySsl = ((iteration a).calls v).flatMap fromStdin ↔
      WritesWhole v a) := by
  obtain ⟨h1, h2⟩ := iteration_writes a v
  rw [h1, h2]
  refine ⟨List.take_sublist _ _, ?_⟩
  refine take_accepted_iff (fun chunk hc => ?_) _
  unfold stdinChunk at hc
  split_ifs at hc
  exact received_ne_nil hc

end Client

/-- A client of the server gets exactly what is read from standard input while it is served if and
only if `SSL_write` accepts every chunk whole for its slot; and so does the server, from each of its
clients. -/
theorem delivered_iff_writesWhole (socketFd : Int) (stack : Nat → Pollfd) (nonblock : Int → Bool)
    (pre rest : List Server.Answers) (a : Server.Answers) (u : Server.Vars) (i : Nat) (o : Ssl)
    (bs : List Client.Answers) :
    let v₀ := Server.initial socketFd stack nonblock
    let v := (Server.pollLoop pre).final v₀
    (AllSteps Server.iteration Server.Fresh [] v₀ (pre ++ a :: rest) →
      Server.accepted a (v.polled a) = some u → u.Occupied i → i < u.nfds → u.ssls i = some o →
      AllSteps Server.iteration (fun _ v _ => v.Occupied i ∧ i < v.nfds) []
        ((Server.iteration a).final v) rest →
      (((Server.pollLoop (a :: rest)).calls v).flatMap (Server.acceptedBy o) =
          ((Server.pollLoop (a :: rest)).calls v).flatMap Server.fromStdin ↔
        AllSteps Server.iteration (fun _ => Server.WritesWhole i) [] v (a :: rest))) ∧
    (((Client.pollLoop bs).calls (Client.initial socketFd)).flatMap Client.acceptedBySsl =
        ((Client.pollLoop bs).calls (Client.initial socketFd)).flatMap Client.fromStdin ↔
      AllSteps Client.iteration (fun _ => Client.WritesWhole) [] (Client.initial socketFd) bs) := by
  intro v₀ v
  constructor
  · intro hfresh hu hi hn ho hstay
    have hserved := Server.serves_throughout (Server.initial_owner socketFd stack nonblock) hfresh hu
      hi hn ho hstay
    exact (AllSteps.out_eq_in_iff (fun _ _ _ h => Server.iteration_delivers h) hserved).2
  · exact (AllSteps.out_eq_in_iff (fun _ v b _ => Client.iteration_delivers b v) allSteps_true).2

namespace Server

/-- An iteration in which `hi` is read from standard input and every `SSL_write` returns `ret`. -/
def typed (ret : Int) : Answers :=
  { connects 0 0 with
    revents := fun i => if i = 1 then POLLIN else 0
    stdin := some [104, 105]
    sslWrite := fun _ => ret }

/-- The server with one client, in slot `2`. -/
abbrev oneClient : Vars :=
  (pollLoop [connects 4 100]).final (initial 3 (fun _ => ⟨-1, 0, 0⟩) fun _ => false)

theorem connects_fresh : Fresh [] (initial 3 (fun _ => ⟨-1, 0, 0⟩) fun _ => false)
    (connects 4 100) := by
  intro w hw
  cases hw
  exact ⟨fun _ _ => rfl, fun _ _ => rfl⟩

/-- What the server reads twice reaches its client when `SSL_write` accepts both bytes each time. -/
theorem both_messages_delivered :
    ((pollLoop [typed 2, typed 2]).calls oneClient).flatMap (acceptedBy 100) =
      ((pollLoop [typed 2, typed 2]).calls oneClient).flatMap fromStdin := by
  have hp1 : ¬ pending (typed 2) (oneClient.polled (typed 2)) := by decide
  have hp2 : ¬ pending (typed 2)
      (((iteration (typed 2)).final oneClient).polled (typed 2)) := by decide
  have hfresh : AllSteps iteration Fresh [] (initial 3 (fun _ => ⟨-1, 0, 0⟩) fun _ => false)
      ([connects 4 100] ++ [typed 2, typed 2]) :=
    ⟨connects_fresh, fresh_of_not_pending hp1 _, fresh_of_not_pending hp2 _, trivial⟩
  have hwhole : ∀ v, WritesWhole 2 v (typed 2) := by
    intro v u chunk _ hc
    unfold stdinChunk at hc
    split_ifs at hc
    obtain rfl : [104, 105] = chunk := Option.some.inj hc
    decide
  refine ((delivered_iff_writesWhole 3 (fun _ => ⟨-1, 0, 0⟩) (fun _ => false) [connects 4 100]
    [typed 2] (typed 2) (oneClient.polled (typed 2)) 2 100 []).1 hfresh
    (accepted_eq_some.2 (Or.inl ⟨hp1, rfl⟩)) (by decide) (by decide) (by decide)
    ⟨by decide, trivial⟩).2 ⟨hwhole _, hwhole _, trivial⟩

/-- When the socket is full, `SSL_write` returns `-1` and the message is lost. -/
theorem refused_message_lost : ¬ ∀ (socketFd : Int) (stack : Nat → Pollfd) (nonblock : Int → Bool)
    (pre rest : List Answers) (a : Answers) (u : Vars) (i : Nat) (o : Ssl),
      let v₀ := initial socketFd stack nonblock
      let v := (pollLoop pre).final v₀
      AllSteps iteration Fresh [] v₀ (pre ++ a :: rest) →
      accepted a (v.polled a) = some u → u.Occupied i → i < u.nfds → u.ssls i = some o →
      AllSteps iteration (fun _ v _ => v.Occupied i ∧ i < v.nfds) [] ((iteration a).final v) rest →
      ((pollLoop (a :: rest)).calls v).flatMap (acceptedBy o) =
        ((pollLoop (a :: rest)).calls v).flatMap fromStdin := by
  intro h
  have hp : ¬ pending (typed (-1)) (oneClient.polled (typed (-1))) := by decide
  have heq := h 3 (fun _ => ⟨-1, 0, 0⟩) (fun _ => false) [connects 4 100] [] (typed (-1))
    (oneClient.polled (typed (-1))) 2 100
    ⟨connects_fresh, fresh_of_not_pending hp _, trivial⟩
    (accepted_eq_some.2 (Or.inl ⟨hp, rfl⟩)) (by decide) (by decide) (by decide) trivial
  revert heq
  decide

end Server

end SystemsProgramming.MtlsChat
