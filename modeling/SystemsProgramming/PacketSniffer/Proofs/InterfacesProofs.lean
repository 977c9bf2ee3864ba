import SystemsProgramming.PacketSniffer.Proofs.RestoreProofs

/-!
# Proofs: the interfaces that the program remembers

Nothing compares `promisc_count` with the length of `promisc_interfaces`. As long as the names fit, the
array has those that were switched, and the program visits each of them once when it leaves, wherever it
leaves from.
-/

namespace SystemsProgramming.PacketSniffer

open Foundations Prog

variable {α β : Type} {args : List CStr} {a : Answers} {s : Setup} {v : Vars}

/-- The interfaces that the calls ask for the flags of. `set_promisc` and `unset_promisc` begin by that. -/
def lookups (cs : List Call) : List (List UInt8) :=
  cs.filterMap fun
    | .getFlags name => some name
    | _ => none

@[simp] theorem lookups_append (cs ds : List Call) : lookups (cs ++ ds) = lookups cs ++ lookups ds :=
  List.filterMap_append ..

theorem lookups_changeFlags (arg : CStr) (io : Ioctls) (f : BitVec 16 → BitVec 16)
    {done : Prog Vars Call Unit} (hdone : ∀ v, done.calls v = []) (v : Vars) :
    lookups ((changeFlags arg io f done).calls v) = [ifrName arg] := by
  rw [changeFlags, calls_get_bind]
  cases hflags : if io.get then v.flags (ifrName arg) else none with
  | none => rfl
  | some flags => cases io.set <;> simp [hdone, lookups]

theorem lookups_forEach (body : CStr × Nat → Prog Vars Call Unit)
    (hbody : ∀ p v, lookups ((body p).calls v) = [ifrName p.1]) (names : List CStr) (v : Vars) :
    lookups ((forEach body names.zipIdx).calls v) = names.map ifrName := by
  have hps : ∀ (ps : List (CStr × Nat)) (v : Vars),
      lookups ((forEach body ps).calls v) = ps.map fun p => ifrName p.1 := by
    intro ps
    induction ps with
    | nil => exact fun _ => rfl
    | cons p ps ih =>
      intro v
      rw [calls_forEach_cons, lookups_append, hbody, ih]
      rfl
  have hfst : (fun p : CStr × Nat => ifrName p.1) = ifrName ∘ Prod.fst := rfl
  rw [hps, hfst, ← List.map_map, List.zipIdx_map_fst]

theorem lookups_setAll (ios : Nat → Ioctls) (names : List CStr) (v : Vars) :
    lookups ((setAll ios names).calls v) = names.map ifrName :=
  lookups_forEach _ (fun p v => lookups_changeFlags p.1 _ _ (fun _ => rfl) v) names v

/-- Leaving visits every entry once, in the order of the array. -/
theorem lookups_cleanup (restore : Nat → Ioctls) (v : Vars) :
    lookups ((cleanup restore).calls v) = v.promiscInterfaces.map ifrName := by
  have hunset := lookups_forEach (fun p => unsetPromisc p.1 (restore p.2))
    (fun p v => lookups_changeFlags p.1 _ _ (fun _ => rfl) v) v.promiscInterfaces v
  rw [cleanup, calls_get_bind, calls_bind, lookups_append, hunset]
  generalize (forEach (fun p => unsetPromisc p.1 (restore p.2)) v.promiscInterfaces.zipIdx).final v = u
  cases hfile : u.file <;> simp [hfile, fclose, lookups]

/-! ## What is left to visit -/

/-- The visits that a program which is still running has before it. -/
def Vars.toVisit (v : Vars) : List (List UInt8) :=
  if v.running then v.promiscInterfaces.map ifrName else []

/-- The code neither visits an interface nor leaves. -/
structure Quiet (p : Prog Vars Call α) : Prop where
  lookups_eq : ∀ v, lookups (p.calls v) = []
  names : ∀ v, (p.final v).promiscInterfaces = v.promiscInterfaces
  running : ∀ v, (p.final v).running = v.running

/-- From a running program on, the visits made and those still to make are the entries of the array. -/
def Settles (p : Prog Vars Call α) : Prop :=
  ∀ v, v.running = true → lookups (p.calls v) ++ (p.final v).toVisit = v.toVisit

theorem Quiet.pure (x : α) : Quiet (Pure.pure x : Prog Vars Call α) :=
  ⟨fun _ => rfl, fun _ => rfl, fun _ => rfl⟩

theorem Quiet.get : Quiet (Prog.get : Prog Vars Call Vars) :=
  ⟨fun _ => rfl, fun _ => rfl, fun _ => rfl⟩

theorem Quiet.call {c : Call} (h : lookups [c] = []) : Quiet (Prog.call c : Prog Vars Call Unit) :=
  ⟨fun _ => h, fun _ => rfl, fun _ => rfl⟩

theorem Quiet.modify {f : Vars → Vars} (hnames : ∀ v, (f v).promiscInterfaces = v.promiscInterfaces)
    (hrun : ∀ v, (f v).running = v.running) : Quiet (Prog.modify f : Prog Vars Call Unit) :=
  ⟨fun _ => rfl, hnames, hrun⟩

theorem Quiet.bind {p : Prog Vars Call α} {f : α → Prog Vars Call β} (hp : Quiet p)
    (hf : ∀ x, Quiet (f x)) : Quiet (p >>= f) := by
  refine ⟨fun v => ?_, fun v => ?_, fun v => ?_⟩
  · rw [calls_bind, lookups_append, hp.lookups_eq, (hf _).lookups_eq, List.append_nil]
  · rw [final_bind, (hf _).names, hp.names]
  · rw [final_bind, (hf _).running, hp.running]

theorem Quiet.settles {p : Prog Vars Call α} (hp : Quiet p) : Settles p := by
  intro v _
  rw [hp.lookups_eq, List.nil_append, Vars.toVisit, Vars.toVisit, hp.names, hp.running]

theorem Settles.bind {p : Prog Vars Call α} {f : α → Prog Vars Call β} (hp : Quiet p)
    (hf : ∀ x, Settles (f x)) : Settles (p >>= f) := by
  intro v hrun
  have hrun' : (p.final v).running = true := by rw [hp.running, hrun]
  rw [calls_bind, final_bind, lookups_append, List.append_assoc, hf _ _ hrun', hp.lookups_eq,
    List.nil_append, Vars.toVisit, Vars.toVisit, hp.names, hp.running]

theorem Settles.ite {c : Prop} [Decidable c] {p q : Prog Vars Call α} (hp : Settles p)
    (hq : Settles q) : Settles (if c then p else q) := by
  split
  · exact hp
  · exact hq

theorem cleanup_settles (restore : Nat → Ioctls) : Settles (cleanup restore) := by
  intro v hrun
  rw [lookups_cleanup, cleanup_final, Vars.toVisit, if_neg Bool.false_ne_true, List.append_nil,
    Vars.toVisit, if_pos hrun]

theorem fwrite_quiet (data : List UInt8) (out : Nat) : Quiet (fwrite data out) :=
  .bind (.call rfl) fun _ => .modify (fun _ => rfl) fun _ => rfl

theorem fclose_quiet : Quiet fclose :=
  .bind (.call rfl) fun _ => .modify (fun _ => rfl) fun _ => rfl

theorem fopen_quiet (opened : Bool) : Quiet (fopen opened) :=
  .bind (.call rfl) fun _ => .modify (fun _ => rfl) fun _ => rfl

theorem record_quiet (a : Answers) (len : Nat) : Quiet (record a len) :=
  .bind (.call rfl) fun _ => .bind .get fun _ => .bind (fwrite_quiet _ _) fun _ =>
    .bind (fwrite_quiet _ _) fun _ => .bind (.call rfl) fun _ => .modify (fun _ => rfl) fun _ => rfl

theorem receive_settles (args : List CStr) (a : Answers) : Settles (receive args a) := by
  refine .bind (.call rfl) fun _ => ?_
  cases a.recvfrom with
  | none =>
    exact .ite (.bind (.call rfl) fun _ => cleanup_settles a.restore) (cleanup_settles a.restore)
  | some frame =>
    refine .bind (.modify (fun _ => rfl) fun _ => rfl) fun _ => .ite (Quiet.pure ()).settles ?_
    exact .ite (record_quiet a _).settles (Quiet.pure ()).settles

theorem capture_settles (args : List CStr) (a : Answers) : Settles (capture args a) := by
  refine .bind .get fun _ => .ite ?_ (receive_settles args a)
  refine .bind fclose_quiet fun _ => .bind (fopen_quiet _) fun _ => .ite ?_ ?_
  · exact .bind (fwrite_quiet _ _) fun _ =>
      .bind (.modify (fun _ => rfl) fun _ => rfl) fun _ => receive_settles args a
  · exact .bind (.call rfl) fun _ => cleanup_settles a.restore

theorem openCaptures_settles (s : Setup) : Settles (openCaptures s) := by
  refine .bind (fopen_quiet _) fun _ => .ite ?_ ?_
  · exact .bind (fwrite_quiet _ _) fun _ => (Quiet.modify (fun _ => rfl) fun _ => rfl).settles
  · exact .bind (.call rfl) fun _ => cleanup_settles s.restore

/-- An iteration of a program that has left does nothing. -/
theorem iteration_toVisit (args : List CStr) (a : Answers) (v : Vars) :
    lookups ((iteration args a).calls v) ++ ((iteration args a).final v).toVisit = v.toVisit := by
  by_cases hrun : v.running = true
  · have hsettles : Settles (if a.keepRunning then capture args a else cleanup a.restore) :=
      .ite (capture_settles args a) (cleanup_settles a.restore)
    rw [iteration, calls_get_bind, final_get_bind, if_pos hrun]
    exact hsettles v hrun
  · have hcalls : (iteration args a).calls v = [] := by simp [iteration, hrun]
    rw [iteration_stopped hrun, hcalls]
    rfl

theorem captureLoop_toVisit (args : List CStr) (as : List Answers) (v : Vars) :
    lookups ((captureLoop args as).calls v) ++ ((captureLoop args as).final v).toVisit = v.toVisit := by
  induction as generalizing v with
  | nil => rfl
  | cons a as ih =>
    rw [calls_forEach_cons, final_forEach_cons, lookups_append, List.append_assoc, ih,
      iteration_toVisit]

/-! ## The bookkeeping -/

/-- The visits of a run that is over: the names that the program was given, and then the entries of
`promisc_interfaces` after the setup. -/
theorem main_lookups (args : List CStr) (s : Setup) (as : List Answers)
    (flags : List UInt8 → Option (BitVec 16)) (captures buffer : List UInt8)
    (hended : ((main args s as).final (initial flags captures buffer)).running = false) :
    lookups ((main args s as).calls (initial flags captures buffer)) =
      ((interfaces args s).getD []).map ifrName ++
        ((setAll s.ioctls ((interfaces args s).getD [])).final
          (initial flags captures buffer)).promiscInterfaces.map ifrName := by
  have hloop := captureLoop_toVisit args as ((start args s).final (initial flags captures buffer))
  have hleft : ((main args s as).final (initial flags captures buffer)).toVisit = [] := by
    rw [Vars.toVisit, if_neg (by simp [hended])]
  rw [main, final_bind] at hleft
  rw [hleft, List.append_nil] at hloop
  rw [main, calls_bind, lookups_append, hloop]
  cases hifs : interfaces args s with
  | none => simp [start, hifs, Vars.toVisit, lookups, setAll, initial]
  | some names =>
    obtain ⟨listed, overrun, hset, -⟩ :=
      setAll_final s.ioctls names.zipIdx (initial flags captures buffer)
    have hset' : (setAll s.ioctls names).final (initial flags captures buffer) = _ := hset
    have hrun : ((setAll s.ioctls names).final (initial flags captures buffer)).running = true := by
      rw [hset']
      rfl
    have hopen := openCaptures_settles s _ hrun
    simp only [start, hifs, Option.getD_some]
    rw [calls_bind, final_bind, lookups_append, lookups_setAll, List.append_assoc, hopen, Vars.toVisit,
      if_pos hrun]

theorem overrun_iff (s : Setup) (flags : List UInt8 → Option (BitVec 16)) (captures buffer : List UInt8)
    (names : List CStr) :
    ((setAll s.ioctls names).final (initial flags captures buffer)).overrun = false ↔
      (listed s.ioctls flags names.zipIdx).length ≤ maxIf := by
  obtain ⟨_, overrun, hset, -, hroom⟩ :=
    setAll_final s.ioctls names.zipIdx (initial flags captures buffer)
  rw [setAll, hset]
  refine (hroom (Nat.zero_le _)).trans ?_
  simp [initial]

/-- After the setup `promisc_interfaces` has the names whose `ioctl`s have succeeded, in order, every
entry was written inside of it, and in a run that is over the program has visited each of them once after
the setup, if and only if there are at most `MAX_IF` of them. -/
theorem promisc_interfaces_iff (args : List CStr) (s : Setup) (as : List Answers)
    (flags : List UInt8 → Option (BitVec 16)) (captures buffer : List UInt8) :
    let names := (interfaces args s).getD []
    let succeeded := listed s.ioctls flags names.zipIdx
    let u := (setAll s.ioctls names).final (initial flags captures buffer)
    (u.promiscInterfaces = succeeded ∧ u.overrun = false ∧
      (((main args s as).final (initial flags captures buffer)).running = false →
        lookups ((main args s as).calls (initial flags captures buffer)) =
          names.map ifrName ++ succeeded.map ifrName)) ↔ succeeded.length ≤ maxIf := by
  intro names succeeded u
  have hover : u.overrun = false ↔ succeeded.length ≤ maxIf :=
    overrun_iff s flags captures buffer names
  refine ⟨fun h => hover.1 h.2.1, fun hlen => ?_⟩
  have hnames : u.promiscInterfaces = succeeded := by
    obtain ⟨_, _, hset, hlisted, -⟩ :=
      setAll_final s.ioctls names.zipIdx (initial flags captures buffer)
    have hset' : u = _ := hset
    have hfit := hover.2 hlen
    rw [hset'] at hfit ⊢
    exact (hlisted hfit).2
  refine ⟨hnames, hover.2 hlen, fun hended => ?_⟩
  rw [← hnames]
  exact main_lookups args s as flags captures buffer hended

/-- With 33 names the last one is written behind the array. -/
theorem thirty_three_names : ¬ ∀ (args : List CStr) (s : Setup) (as : List Answers)
    (flags : List UInt8 → Option (BitVec 16)) (captures buffer : List UInt8),
    let names := (interfaces args s).getD []
    let succeeded := listed s.ioctls flags names.zipIdx
    let u := (setAll s.ioctls names).final (initial flags captures buffer)
    u.promiscInterfaces = succeeded ∧ u.overrun = false ∧
      (((main args s as).final (initial flags captures buffer)).running = false →
        lookups ((main args s as).calls (initial flags captures buffer)) =
          names.map ifrName ++ succeeded.map ifrName) := by
  intro h
  have hfit := (h (List.replicate 33 eth0) quietSetup [] (fun _ => some 0) [] []).2.1
  have hlen := (overrun_iff quietSetup (fun _ => some 0) [] [] _).1 hfit
  revert hlen
  decide

end SystemsProgramming.PacketSniffer
