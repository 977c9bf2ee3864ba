import SystemsProgramming.PacketSniffer.Proofs.CaptureProofs

/-!
# Proofs: the flags after the program

The program switches promiscuous mode off on every interface it has switched on. It does not remember
whether the flag was set before, so an interface that was promiscuous already is not any more.
-/

namespace SystemsProgramming.PacketSniffer

open Foundations Prog

variable {args : List CStr} {a : Answers} {s : Setup} {u v : Vars}

/-! ## Flag words -/

/-- Clearing the flag undoes that it was raised. -/
theorem clear_raise (w : BitVec 16) : clear (raise w) = clear w := by
  refine BitVec.eq_of_getElem_eq fun i hi => ?_
  simp only [clear, raise, BitVec.getElem_and, BitVec.getElem_or, BitVec.getElem_not]
  cases w[i] <;> cases IFF_PROMISC[i] <;> rfl

/-- A word without the flag stays as it is. -/
theorem clear_of_not_promisc {w : BitVec 16} (h : w &&& IFF_PROMISC = 0) : clear w = w := by
  refine BitVec.eq_of_getElem_eq fun i hi => ?_
  have hbit : (w &&& IFF_PROMISC)[i] = (0 : BitVec 16)[i] := by rw [h]
  simp only [BitVec.getElem_and, BitVec.getElem_zero, BitVec.ofNat_eq_ofNat] at hbit
  simp only [clear, BitVec.getElem_and, BitVec.getElem_not]
  cases hw : w[i] <;> simp_all

/-! ## From the capture loop to the end -/

/-- The flags once every name in `promisc_interfaces` was dealt with. -/
def Vars.cleared (v : Vars) : List UInt8 → Option (BitVec 16) := fun name =>
  if ∃ arg ∈ v.promiscInterfaces, ifrName arg = name then (v.flags name).map clear else v.flags name

theorem restored_of_ok {restore : Nat → Ioctls} (h : ∀ i, (restore i).Ok) (v : Vars) :
    v.restored restore = v.cleared := by
  have hiff : ∀ name, Touched restore v.promiscInterfaces.zipIdx name ↔
      ∃ arg ∈ v.promiscInterfaces, ifrName arg = name := by
    intro name
    constructor
    · rintro ⟨p, hp, -, hname⟩
      exact ⟨p.1, List.fst_mem_of_mem_zipIdx hp, hname⟩
    · rintro ⟨arg, harg, hname⟩
      obtain ⟨i, hi⟩ := List.mem_iff_getElem?.1 harg
      exact ⟨(arg, i), List.mk_mem_zipIdx_iff_getElem?.2 hi, h i, hname⟩
  funext name
  simp only [Vars.restored, changed, Vars.cleared, hiff]

/-- The flags of a run that has come to the capture loop with the variables `u`. -/
structure Flagged (u v : Vars) : Prop where
  names : v.promiscInterfaces = u.promiscInterfaces
  overrun : v.overrun = u.overrun
  file : v.running = true → v.file = true
  on : v.running = true → v.flags = u.flags
  off : v.running = false → v.flags = u.cleared

theorem Flagged.ended (h : Flagged u v) (hrun : v.running = true) {restore : Nat → Ioctls}
    (hok : ∀ i, (restore i).Ok) {file : Bool} {captures : BufferedFile} :
    Flagged u
      { v with
        flags := v.restored restore
        file := file
        running := false
        captures := captures } := by
  refine ⟨h.names, h.overrun, fun hr => absurd hr Bool.false_ne_true,
    fun hr => absurd hr Bool.false_ne_true, fun _ => ?_⟩
  show v.restored restore = u.cleared
  rw [restored_of_ok hok]
  funext name
  simp only [Vars.cleared, h.names, h.on hrun]

theorem Flagged.refreshed (h : Flagged u v) (a : Answers) :
    Flagged u (v.refreshed a) := by
  unfold Vars.refreshed
  split_ifs
  · exact ⟨h.names, h.overrun, fun _ => rfl, h.on, h.off⟩
  · exact h

theorem Flagged.received (h : Flagged u v) (hrun : v.running = true)
    (hok : ∀ i, (a.restore i).Ok) : Flagged u ((receive args a).final v) := by
  rcases receive_cases args a v with ⟨c, buffer, -, hfin⟩ | ⟨buffer, -, hfin⟩ | ⟨-, hfin⟩
  · rw [hfin]
    exact ⟨h.names, h.overrun, h.file, h.on, h.off⟩
  · rw [hfin]
    exact ⟨h.names, h.overrun, h.file, h.on, h.off⟩
  · rw [hfin]
    exact h.ended hrun hok

theorem iteration_flagged (h : Flagged u v) (hok : ∀ i, (a.restore i).Ok) :
    Flagged u ((iteration args a).final v) := by
  by_cases hrun : v.running = true
  · by_cases hrec : Receives v a
    · rw [(iteration_receives hrec).1]
      exact (h.refreshed a).received (by rw [refreshed_running, hrun]) hok
    · obtain ⟨file, hfin⟩ : ∃ file, (iteration args a).final v = _ :=
        iteration_ends hrun (h.file hrun) hrec
      rw [hfin]
      exact h.ended hrun hok
  · rw [iteration_stopped hrun]
    exact h

theorem captureLoop_flagged {as : List Answers} (h : Flagged u v)
    (hok : ∀ a ∈ as, ∀ i, (a.restore i).Ok) : Flagged u ((captureLoop args as).final v) := by
  induction as generalizing v with
  | nil => exact h
  | cons a as ih =>
    rw [final_forEach_cons]
    exact ih (iteration_flagged h (hok a List.mem_cons_self))
      fun b hb => hok b (List.mem_cons_of_mem _ hb)

theorem flagged_opened (hrun : u.running = true) {captures : BufferedFile} {startTime : Int} :
    Flagged u { u with file := true, captures := captures, startTime := startTime } := by
  refine ⟨rfl, rfl, fun _ => rfl, fun _ => rfl, fun hstop => ?_⟩
  have hstop' : u.running = false := hstop
  rw [hrun] at hstop'
  cases hstop'

theorem flagged_not_opened {restore : Nat → Ioctls} (hok : ∀ i, (restore i).Ok) :
    Flagged u ((cleanup restore).final { u with file := false }) := by
  have hflags : ({ u with file := false } : Vars).restored restore = u.cleared :=
    restored_of_ok hok { u with file := false }
  rw [cleanup_final]
  exact ⟨rfl, rfl, fun hr => absurd hr Bool.false_ne_true, fun hr => absurd hr Bool.false_ne_true,
    fun _ => hflags⟩

theorem start_not_opened {ifs : List CStr} (hifs : interfaces args s = some ifs)
    (hopen : s.fopen = false) (v : Vars) :
    (start args s).final v =
      (cleanup s.restore).final { (setAll s.ioctls ifs).final v with file := false } := by
  have hfopen : ∀ u, (fopen s.fopen).final u = { u with file := false } := by
    intro u
    rw [hopen]
    rfl
  have hfail : ∀ u, (openCaptures s).final u = (cleanup s.restore).final { u with file := false } := by
    intro u
    rw [openCaptures, final_bind, hfopen, if_neg (by simp [hopen]), final_bind, final_call]
  simp only [start, hifs]
  rw [final_bind, hfail]

theorem start_flagged {ifs : List CStr} (hifs : interfaces args s = some ifs)
    (hok : ∀ i, (s.restore i).Ok) (hrun : ((setAll s.ioctls ifs).final v).running = true) :
    Flagged ((setAll s.ioctls ifs).final v) ((start args s).final v) := by
  by_cases hopen : s.fopen = true
  · rw [start_final hifs hopen]
    exact flagged_opened hrun
  · rw [start_not_opened hifs (by simpa using hopen)]
    exact flagged_not_opened hok

/-! ## Whole runs -/

/-- `set_promisc` has come through to the interface, under one of the names it was called with. -/
def Switched (args : List CStr) (s : Setup) (name : List UInt8) : Prop :=
  ∃ ifs, interfaces args s = some ifs ∧ Touched s.ioctls ifs.zipIdx name

theorem mem_listed {ios : Nat → Ioctls} {flags : List UInt8 → Option (BitVec 16)}
    {ps : List (CStr × Nat)} {name : List UInt8} :
    (∃ arg ∈ listed ios flags ps, ifrName arg = name) ↔
      Touched ios ps name ∧ (flags name).isSome = true := by
  simp only [listed, List.mem_map, List.mem_filter, decide_eq_true_eq]
  constructor
  · rintro ⟨arg, ⟨p, ⟨hp, hok, hsome⟩, rfl⟩, rfl⟩
    exact ⟨⟨p, hp, hok, rfl⟩, hsome⟩
  · rintro ⟨⟨p, hp, hok, rfl⟩, hsome⟩
    exact ⟨p.1, ⟨p, ⟨hp, hok, hsome⟩, rfl⟩, rfl⟩

/-- The flags that are raised and then cleared. -/
theorem cleared_of_listed {ios : Nat → Ioctls} {ps : List (CStr × Nat)}
    {flags : List UInt8 → Option (BitVec 16)} (hflags : v.flags = changed raise ios ps flags)
    (hnames : v.promiscInterfaces = listed ios flags ps) (name : List UInt8) :
    v.cleared name = if Touched ios ps name then (flags name).map clear else flags name := by
  rw [Vars.cleared, hflags, hnames]
  simp only [mem_listed, changed]
  by_cases ht : Touched ios ps name
  · cases hf : flags name with
    | none => simp [ht]
    | some w => simp [ht, clear_raise]
  · simp [ht]

theorem main_none (hifs : interfaces args s = none) (as : List Answers) (v : Vars) :
    ((main args s as).final v).flags = v.flags := by
  have hstart : (start args s).final v = { v with running := false } := by
    simp [start, hifs]
  have hloop : ∀ u : Vars, u.running = false → (captureLoop args as).final u = u := by
    intro u hu
    induction as with
    | nil => rfl
    | cons a as ih =>
      rw [final_forEach_cons, iteration_stopped (by simp [hu])]
      exact ih
  rw [main, final_bind, hstart, hloop _ rfl]

/-- The variables of a run that has come to `openCaptures` agree with those it had there. -/
theorem main_flagged {ifs : List CStr} (hifs : interfaces args s = some ifs) {as : List Answers}
    (hrestore : (∀ i, (s.restore i).Ok) ∧ ∀ a ∈ as, ∀ i, (a.restore i).Ok) (hrun : v.running = true) :
    Flagged ((setAll s.ioctls ifs).final v) ((main args s as).final v) := by
  obtain ⟨names, overrun, hset, -, -⟩ := setAll_final s.ioctls ifs.zipIdx v
  have hset' : (setAll s.ioctls ifs).final v = _ := hset
  rw [main, final_bind]
  exact captureLoop_flagged (start_flagged hifs hrestore.1 (by rw [hset']; exact hrun)) hrestore.2

/-- At most `maxIf` names have room in `promisc_interfaces`. -/
theorem room_of_length_le {ifs : List CStr} (hifs : interfaces args s = some ifs)
    (hlen : ifs.length ≤ maxIf) {as : List Answers}
    (hrestore : (∀ i, (s.restore i).Ok) ∧ ∀ a ∈ as, ∀ i, (a.restore i).Ok)
    (flags : List UInt8 → Option (BitVec 16)) (captures buffer : List UInt8) :
    ((main args s as).final (initial flags captures buffer)).overrun = false := by
  obtain ⟨names, overrun, hset, -, hroom⟩ :=
    setAll_final s.ioctls ifs.zipIdx (initial flags captures buffer)
  have hlisted : (listed s.ioctls flags ifs.zipIdx).length ≤ ifs.length := by
    rw [listed, List.length_map, ← List.length_zipIdx (l := ifs)]
    exact List.length_filter_le ..
  rw [(main_flagged hifs hrestore rfl).overrun, setAll, hset]
  refine (hroom (Nat.zero_le _)).2 ⟨rfl, ?_⟩
  show 0 + (listed s.ioctls flags ifs.zipIdx).length ≤ maxIf
  omega

/-- After a run that has ended, if the `ioctl`s that restore the flags succeed and the names had room in
`promisc_interfaces`: the interfaces that the program has switched to promiscuous mode have the flags
they had before, without `IFF_PROMISC`, and all others have the flags they had before. So the flags are
restored on every interface that was not promiscuous already. -/
theorem flags_after_run (args : List CStr) (s : Setup) (as : List Answers)
    (flags : List UInt8 → Option (BitVec 16)) (captures buffer : List UInt8)
    (hended : ((main args s as).final (initial flags captures buffer)).running = false)
    (hroom : ((main args s as).final (initial flags captures buffer)).overrun = false)
    (hrestore : (∀ i, (s.restore i).Ok) ∧ ∀ a ∈ as, ∀ i, (a.restore i).Ok) (name : List UInt8) :
    (Switched args s name →
      ((main args s as).final (initial flags captures buffer)).flags name = (flags name).map clear) ∧
    (¬ Switched args s name →
      ((main args s as).final (initial flags captures buffer)).flags name = flags name) ∧
    ((∀ w, flags name = some w → w &&& IFF_PROMISC = 0) →
      ((main args s as).final (initial flags captures buffer)).flags name = flags name) := by
  have hclear : (∀ w, flags name = some w → w &&& IFF_PROMISC = 0) →
      (flags name).map clear = flags name := by
    intro hnot
    cases hf : flags name with
    | none => rfl
    | some w => exact congrArg some (clear_of_not_promisc (hnot w hf))
  cases hifs : interfaces args s with
  | none =>
    have hnever : ¬ Switched args s name := by
      rintro ⟨ifs, h, -⟩
      rw [hifs] at h
      cases h
    have hsame : ((main args s as).final (initial flags captures buffer)).flags name = flags name :=
      congrFun (main_none hifs as _) name
    exact ⟨fun h => absurd h hnever, fun _ => hsame, fun _ => hsame⟩
  | some ifs =>
    obtain ⟨names, overrun, hset, hnames, -⟩ :=
      setAll_final s.ioctls ifs.zipIdx (initial flags captures buffer)
    have hset' : (setAll s.ioctls ifs).final (initial flags captures buffer) = _ := hset
    have hflagged : Flagged _ ((main args s as).final (initial flags captures buffer)) :=
      main_flagged hifs hrestore rfl
    have hover := hflagged.overrun.symm.trans hroom
    rw [hflagged.off hended]
    rw [hset'] at hover ⊢
    have hswitched : Switched args s name ↔ Touched s.ioctls ifs.zipIdx name := by
      simp [Switched, hifs]
    rw [cleared_of_listed rfl (hnames hover).2 name, hswitched]
    refine ⟨fun h => if_pos h, fun h => if_neg h, fun hnot => ?_⟩
    split_ifs
    · exact hclear hnot
    · rfl

/-- An iteration that finds that the program was told to stop. -/
def stops : Answers := { frameAt 0 0 [] with keepRunning := false }

/-- The flags `IFF_UP`, `IFF_BROADCAST` and `IFF_MULTICAST`, and `IFF_PROMISC`. -/
def promiscuous : List UInt8 → Option (BitVec 16) := fun _ => some 0x1103#16

/-- An interface that was promiscuous before the program is not after it. -/
theorem promiscuous_lost :
    ((main [eth0] quietSetup [stops]).final (initial promiscuous [] [])).running = false ∧
    ((main [eth0] quietSetup [stops]).final (initial promiscuous [] [])).flags (ifrName eth0) ≠
      promiscuous (ifrName eth0) := by
  decide

/-- One that was not has its flags back. -/
theorem flags_restored :
    ((main [eth0] quietSetup [stops]).final (initial (fun _ => some 0x1003#16) [] [])).flags
      (ifrName eth0) = some 0x1003#16 := by
  have hrestore : (∀ i, (quietSetup.restore i).Ok) ∧ ∀ a ∈ [stops], ∀ i, (a.restore i).Ok := by
    refine ⟨fun _ => ⟨rfl, rfl⟩, fun a ha _ => ?_⟩
    obtain rfl := List.mem_singleton.1 ha
    exact ⟨rfl, rfl⟩
  refine (flags_after_run [eth0] quietSetup [stops] (fun _ => some 0x1003#16) [] [] (by decide)
    (room_of_length_le (show interfaces [eth0] quietSetup = some [eth0] from rfl) (by decide) hrestore
      _ _ _) hrestore (ifrName eth0)).2.2 fun w hw => ?_
  rw [← Option.some.inj hw]
  decide

end SystemsProgramming.PacketSniffer
