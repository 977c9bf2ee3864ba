import SystemsProgramming.PacketSniffer.Proofs.CaptureProofs

/-!
# Proofs: the interface filter

The filter compares what is in `ifname`. That is the name of the interface if `if_indextoname` finds it,
and otherwise whatever the memory held before, which in practice is the name of an earlier frame's
interface.
-/

namespace SystemsProgramming.PacketSniffer

open Foundations Prog

variable {args : List CStr} {a : Answers} {s : Setup} {v : Vars} {frame : List UInt8}

/-- The interfaces the user asked for: the arguments, or without arguments all but `lo`. -/
def Wanted (args : List CStr) (name : CStr) : Prop := if args = [] then name ≠ lo else name ∈ args

/-- The calls end with the record of the frame. -/
def Recorded (a : Answers) (frame : List UInt8) (cs : List Call) : Prop :=
  [.fwrite (pktHdr a.tv frame.length).bytes, .fwrite frame, .fflush] <:+ cs

/-- A frame is recorded if and only if the interface it arrived on has a name the user asked for. -/
def RecordsByName (args : List CStr) (v : Vars) (a : Answers) : Prop :=
  Receives v a → ∀ frame, a.recvfrom = some frame →
    (Recorded a frame ((iteration args a).calls v) ↔
      ∃ name, a.ifIndexToName = some name ∧ Wanted args name)

/-- A frame from an interface the user asked for is neither empty nor too long; and if the interface has
no name, a frame that is neither finds no name in the memory that the user asked for. -/
def NamesResolved (args : List CStr) (v : Vars) (a : Answers) : Prop :=
  Receives v a → ∀ frame, a.recvfrom = some frame →
    (∀ name, a.ifIndexToName = some name → Wanted args name →
      1 ≤ frame.length ∧ frame.length ≤ maxLen) ∧
    (a.ifIndexToName = none → 1 ≤ frame.length ∧ frame.length ≤ maxLen →
      ¬ Wanted args (CStr.ofMemory a.ifname))

/-! ## The filter -/

theorem wanted_iff {name : CStr} : wanted args name = true ↔ Wanted args name := by
  unfold wanted Wanted
  by_cases h : args = []
  · simp [h]
  · simp [h]

theorem ifname_of_some {name : CStr} (h : a.ifIndexToName = some name) : ifname a = name := by
  simp only [ifname, h]
  exact CStr.ofMemory_append_zero name _

theorem ifname_of_none (h : a.ifIndexToName = none) : ifname a = CStr.ofMemory a.ifname := by
  simp only [ifname, h]

/-- Nothing but a record ends with `fflush`. -/
theorem not_recorded {pre : List Call} : ¬ Recorded a frame (pre ++ [.recvfrom]) := by
  rintro ⟨before, h⟩
  have hlast := congrArg List.getLast? h
  simp at hlast

/-- What is recorded depends on the length of the frame and on what is in `ifname`. -/
theorem recorded_iff (hrec : Receives v a) (hr : a.recvfrom = some frame) :
    Recorded a frame ((iteration args a).calls v) ↔
      (1 ≤ frame.length ∧ frame.length ≤ maxLen) ∧ wanted args (ifname a) = true := by
  obtain ⟨-, pre, hcalls⟩ : _ ∧ ∃ pre, (iteration args a).calls v = pre ++ _ :=
    iteration_receives hrec
  cases hacc : accepted args a with
  | some c =>
    obtain ⟨hr', hw, -, htv⟩ := accepted_eq_some hacc
    obtain rfl : frame = c.frame := Option.some.inj (hr.symm.trans hr')
    rw [hcalls, (receive_accepted hacc _).2]
    refine iff_of_true ⟨pre ++ [.recvfrom, .gettimeofday], ?_⟩ ⟨c.size, hw⟩
    simp [recordCalls, Captured.record, htv]
  | none =>
    have hne : a.recvfrom ≠ none := by simp [hr]
    rw [hcalls, (receive_dropped hne hacc _).2]
    refine iff_of_false not_recorded fun h => ?_
    rcases (accepted_eq_none hr).1 hacc with hsize | hw
    · exact hsize h.1
    · rw [h.2] at hw
      cases hw

/-- One iteration goes by the name exactly if the condition holds. -/
theorem recordsByName_iff : RecordsByName args v a ↔ NamesResolved args v a := by
  refine forall_congr' fun hrec => forall_congr' fun frame => forall_congr' fun hr => ?_
  rw [recorded_iff hrec hr]
  cases hname : a.ifIndexToName with
  | some name =>
    rw [ifname_of_some hname, wanted_iff]
    simp only [Option.some.injEq, exists_eq_left', forall_eq', reduceCtorEq, false_imp_iff, and_true]
    exact ⟨fun h hw => (h.2 hw).1, fun h => ⟨fun hp => hp.2, fun hw => ⟨h hw, hw⟩⟩⟩
  | none =>
    rw [ifname_of_none hname, wanted_iff]
    simp only [reduceCtorEq, false_and, exists_false, iff_false, not_and, false_imp_iff, implies_true,
      true_and, forall_const]

/-! ## Whole runs -/

/-- In a whole run frames are recorded by the name of the interface they arrived on, if and only if
every iteration meets the condition on lengths and on what is in memory when a name is missing. -/
theorem recordsByName_iff_namesResolved (args : List CStr) (s : Setup) (as : List Answers)
    (v : Vars) :
    AllSteps (iteration args) (fun _ v a => RecordsByName args v a) [] ((start args s).final v) as ↔
      AllSteps (iteration args) (fun _ v a => NamesResolved args v a) [] ((start args s).final v)
        as :=
  ⟨fun h => h.mono fun _ _ _ => recordsByName_iff.1, fun h => h.mono fun _ _ _ => recordsByName_iff.2⟩

/-- A frame on an interface that has no name any more, with `eth0` in the memory. -/
def nameless : Answers := { frameAt 1 2 [105] with ifIndexToName := none, ifname := ascii "eth0" }

/-- A frame on `eth0` is recorded, and then one on an interface without a name. -/
theorem nameless_frame_recorded :
    ¬ AllSteps (iteration [eth0]) (fun _ v a => RecordsByName [eth0] v a) []
      ((start [eth0] quietSetup).final fresh) [frameAt 0 1 [104], nameless] := by
  rintro ⟨-, hnameless, -⟩
  have hrec : Receives ((iteration [eth0] (frameAt 0 1 [104])).final
      ((start [eth0] quietSetup).final fresh)) nameless := by decide
  obtain ⟨name, hname, -⟩ := (hnameless hrec [105] rfl).1
    ((recorded_iff hrec rfl).2 ⟨by decide, by decide⟩)
  cases hname

end SystemsProgramming.PacketSniffer
