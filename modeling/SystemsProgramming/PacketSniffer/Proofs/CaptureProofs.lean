import SystemsProgramming.PacketSniffer.Pcap
import SystemsProgramming.PacketSniffer.Proofs.PromiscProofs

/-!
# Proofs: what is in the capture file

A frame is accepted when it is not empty, fits the limit and passes the filter. The stream of the
capture file always holds the global header and the records of the frames accepted since the file was
last initialised. A record is flushed, the header is not: it reaches the disk with the first record, or
when the stream hands it over by itself, or at the end of the program.
-/

namespace SystemsProgramming.PacketSniffer

open Foundations Prog

variable {args : List CStr} {a : Answers} {s : Setup} {u v : Vars}

/-- A frame that was accepted: when it arrived, the time stamp it got, and the whole frame. -/
structure Captured where
  arrived : Int
  tv : Timeval
  frame : List UInt8
  size : 1 ≤ frame.length ∧ frame.length ≤ maxLen

/-- The record of a frame. -/
def Captured.record (c : Captured) : Record where
  header := pktHdr c.tv c.frame.length
  data := c.frame
  complete := by
    have h := c.size.2
    have hlt : c.frame.length < 0x100000000 := Nat.lt_of_le_of_lt h (by decide)
    show ((c.frame.length : Int) % 0x100000000).toNat = c.frame.length
    omega

/-- The frame that an iteration accepts, if it comes to receive one. -/
def accepted (args : List CStr) (a : Answers) : Option Captured :=
  match a.recvfrom with
  | some frame =>
    if h : (1 ≤ frame.length ∧ frame.length ≤ maxLen) ∧ wanted args (ifname a) = true then
      some ⟨a.arrived, a.tv, frame, h.1⟩
    else none
  | none => none

/-- The iteration finds that the file is due to be initialised again. -/
def Rotates (v : Vars) (a : Answers) : Prop :=
  v.running = true ∧ a.keepRunning = true ∧ timeRotation ≤ a.time - v.startTime

instance (v : Vars) (a : Answers) : Decidable (Rotates v a) := by
  unfold Rotates
  infer_instance

/-- The iteration comes to `recvfrom`. -/
def Receives (v : Vars) (a : Answers) : Prop :=
  v.running = true ∧ a.keepRunning = true ∧ (Rotates v a → a.fopen = true)

instance (v : Vars) (a : Answers) : Decidable (Receives v a) := by
  unfold Receives
  infer_instance

/-- The time since the file was last initialised: the frames accepted, and how much of the header the
stream has handed over by itself. -/
structure Window where
  frames : List Captured
  phdrOut : Nat

/-- The window after an iteration. -/
def nextWindow (args : List CStr) (w : Window) (v : Vars) (a : Answers) : Window where
  frames := (if Rotates v a ∧ a.fopen = true then [] else w.frames) ++
    if Receives v a then (accepted args a).toList else []
  phdrOut := if Rotates v a ∧ a.fopen = true then a.phdrOut else w.phdrOut

/-! ## The parts of an iteration -/

theorem accepted_eq_some {c : Captured} (h : accepted args a = some c) :
    a.recvfrom = some c.frame ∧ wanted args (ifname a) = true ∧ c.arrived = a.arrived ∧
      c.tv = a.tv := by
  unfold accepted at h
  cases hr : a.recvfrom with
  | none => simp [hr] at h
  | some frame =>
    simp only [hr] at h
    split_ifs at h with hf
    rw [← Option.some.inj h]
    exact ⟨rfl, hf.2, rfl, rfl⟩

theorem accepted_eq_none {frame : List UInt8} (hr : a.recvfrom = some frame) :
    accepted args a = none ↔
      ¬ (1 ≤ frame.length ∧ frame.length ≤ maxLen) ∨ wanted args (ifname a) = false := by
  simp only [accepted, hr, dite_eq_right_iff, reduceCtorEq, imp_false, not_and_or, Bool.not_eq_true]

theorem record_spec (a : Answers) (len : Nat) (v : Vars) :
    (record a len).final v =
      { v with captures := ((v.captures.write (pktHdr a.tv len).bytes a.pktHdrOut).write
          (v.buffer.take len) a.frameOut).flush } ∧
    (record a len).calls v = [.gettimeofday, .fwrite (pktHdr a.tv len).bytes,
      .fwrite (v.buffer.take len), .fflush] :=
  ⟨rfl, rfl⟩

/-- The calls that record a frame. -/
def recordCalls (c : Captured) : List Call :=
  [.gettimeofday, .fwrite c.record.header.bytes, .fwrite c.record.data, .fflush]

/-- The frame is in the buffer as a whole, and the record goes to the disk. -/
theorem receive_accepted {c : Captured} (h : accepted args a = some c) (v : Vars) :
    (∃ buffer, (receive args a).final v =
      { v with
        buffer := buffer
        captures := ((v.captures.write c.record.header.bytes a.pktHdrOut).write c.record.data
          a.frameOut).flush }) ∧
    (receive args a).calls v = .recvfrom :: recordCalls c := by
  obtain ⟨hr, hw, -, htv⟩ := accepted_eq_some h
  obtain ⟨hpos, hle⟩ := c.size
  have htake : c.frame.take (maxLen + 1) = c.frame := List.take_of_length_le (by omega)
  have hlen : ¬ (c.frame.length = 0 ∨ maxLen < c.frame.length) := by omega
  obtain ⟨hfin, hcalls⟩ := record_spec a c.frame.length
    { v with buffer := c.frame ++ v.buffer.drop c.frame.length }
  rw [List.take_left] at hfin hcalls
  refine ⟨⟨c.frame ++ v.buffer.drop c.frame.length, ?_⟩, ?_⟩
  · simp only [receive, hr, htake, hlen, hw, final_bind, final_call, final_modify, if_false, if_true,
      hfin, Captured.record, htv]
  · simp only [receive, hr, htake, hlen, hw, calls_bind, calls_call, calls_modify, final_call,
      final_modify, if_false, if_true, hcalls, recordCalls, Captured.record, htv]
    rfl

/-- A frame that is not accepted leaves the file alone. -/
theorem receive_dropped (hr : a.recvfrom ≠ none) (h : accepted args a = none) (v : Vars) :
    (∃ buffer, (receive args a).final v = { v with buffer := buffer }) ∧
    (receive args a).calls v = [.recvfrom] := by
  obtain ⟨frame, hframe⟩ := Option.ne_none_iff_exists'.1 hr
  rcases (accepted_eq_none hframe).1 h with hsize | hw
  · have hlen : (frame.take (maxLen + 1)).length = 0 ∨
        maxLen < (frame.take (maxLen + 1)).length := by
      rw [List.length_take]
      omega
    exact ⟨⟨_, by simp only [receive, hframe, hlen, if_true]; rfl⟩,
      by simp only [receive, hframe, hlen, if_true]; rfl⟩
  · by_cases hlen : (frame.take (maxLen + 1)).length = 0 ∨
        maxLen < (frame.take (maxLen + 1)).length
    · exact ⟨⟨_, by simp only [receive, hframe, hlen, if_true]; rfl⟩,
        by simp only [receive, hframe, hlen, if_true]; rfl⟩
    · exact ⟨⟨_, by simp only [receive, hframe, hlen, hw, if_false]; rfl⟩,
        by simp only [receive, hframe, hlen, hw, if_false]; rfl⟩

theorem receive_failed (hr : a.recvfrom = none) (v : Vars) :
    (receive args a).final v =
      { v with
        flags := v.restored a.restore
        running := false
        captures := if v.file then v.captures.flush else v.captures } := by
  have h := cleanup_final a.restore v
  by_cases hs : a.stillRunning <;> simp [receive, hr, hs, h]

/-- A frame is accepted, or it is dropped, or `recvfrom` fails and the program ends. -/
theorem receive_cases (args : List CStr) (a : Answers) (v : Vars) :
    (∃ c buffer, accepted args a = some c ∧ (receive args a).final v =
      { v with
        buffer := buffer
        captures := ((v.captures.write c.record.header.bytes a.pktHdrOut).write c.record.data
          a.frameOut).flush }) ∨
    (∃ buffer, accepted args a = none ∧ (receive args a).final v = { v with buffer := buffer }) ∨
    (accepted args a = none ∧ (receive args a).final v =
      { v with
        flags := v.restored a.restore
        running := false
        captures := if v.file then v.captures.flush else v.captures }) := by
  cases hacc : accepted args a with
  | some c =>
    obtain ⟨⟨buffer, hfin⟩, -⟩ := receive_accepted hacc v
    exact Or.inl ⟨c, buffer, rfl, hfin⟩
  | none =>
    by_cases hr : a.recvfrom = none
    · exact Or.inr (Or.inr ⟨rfl, receive_failed hr v⟩)
    · obtain ⟨⟨buffer, hfin⟩, -⟩ := receive_dropped hr hacc v
      exact Or.inr (Or.inl ⟨buffer, rfl, hfin⟩)

/-! ## One iteration -/

/-- The variables when the iteration comes to `recvfrom`. -/
def Vars.refreshed (v : Vars) (a : Answers) : Vars :=
  if Rotates v a then
    { v with
      file := true
      startTime := a.restart
      captures := BufferedFile.opened.write phdr.bytes a.phdrOut }
  else v

@[simp] theorem refreshed_running (v : Vars) (a : Answers) :
    (v.refreshed a).running = v.running := by
  unfold Vars.refreshed
  split_ifs <;> rfl

theorem iteration_receives (h : Receives v a) :
    (iteration args a).final v = (receive args a).final (v.refreshed a) ∧
    ∃ pre, (iteration args a).calls v = pre ++ (receive args a).calls (v.refreshed a) := by
  obtain ⟨hrun, hkeep, hopen⟩ := h
  by_cases hrot : Rotates v a
  · have hdue := hrot.2.2
    have ho := hopen hrot
    refine ⟨?_, [.fclose, .fopen, .fwrite phdr.bytes], ?_⟩
    · simp [iteration, capture, Vars.refreshed, fclose, fopen, fwrite, hrun, hkeep, hrot, hdue, ho]
    · simp [iteration, capture, Vars.refreshed, fclose, fopen, fwrite, hrun, hkeep, hrot, hdue, ho]
  · have hdue : ¬ timeRotation ≤ a.time - v.startTime := fun hdue => hrot ⟨hrun, hkeep, hdue⟩
    exact ⟨by simp [iteration, capture, Vars.refreshed, hrun, hkeep, hrot, hdue], [],
      by simp [iteration, capture, Vars.refreshed, hrun, hkeep, hrot, hdue]⟩

/-- An iteration that does not come to `recvfrom` ends the program. -/
theorem iteration_ends (hrun : v.running = true) (hfile : v.file = true) (h : ¬ Receives v a) :
    ∃ file, (iteration args a).final v =
      { v with
        flags := v.restored a.restore
        file := file
        running := false
        captures := v.captures.flush } := by
  by_cases hkeep : a.keepRunning = true
  · have hrot : Rotates v a ∧ a.fopen = false := by
      simpa [Receives, hrun, hkeep] using h
    have hfin := cleanup_final a.restore
      { v with file := false, running := true, captures := v.captures.flush }
    have hdue := hrot.1.2.2
    refine ⟨false, ?_⟩
    simpa [iteration, capture, fclose, fopen, hrun, hkeep, hdue, hrot.2, Vars.restored] using hfin
  · have hfin := cleanup_final a.restore v
    refine ⟨v.file, ?_⟩
    simp [iteration, hrun, hkeep, hfin, hfile]

theorem iteration_stopped (hrun : ¬ v.running = true) : (iteration args a).final v = v := by
  simp [iteration, hrun]

/-- The file agrees with the window: the stream has the header and the records, and the disk has them
all, unless no frame was accepted and the program goes on. -/
structure Consistent (w : Window) (v : Vars) : Prop where
  file : v.running = true → v.file = true
  content : v.captures.content = phdr.bytes ++ w.frames.flatMap fun c => c.record.bytes
  disk : v.captures.disk =
    if w.frames = [] ∧ v.running = true then phdr.bytes.take w.phdrOut else v.captures.content

/-- The window when the iteration comes to `recvfrom`. -/
def Window.refreshed (w : Window) (v : Vars) (a : Answers) : Window where
  frames := if Rotates v a ∧ a.fopen = true then [] else w.frames
  phdrOut := if Rotates v a ∧ a.fopen = true then a.phdrOut else w.phdrOut

theorem Consistent.refreshed {w : Window} (hc : Consistent w v) (h : Receives v a) :
    Consistent (w.refreshed v a) (v.refreshed a) := by
  by_cases hrot : Rotates v a
  · have ho : Rotates v a ∧ a.fopen = true := ⟨hrot, h.2.2 hrot⟩
    rw [Window.refreshed, Vars.refreshed, if_pos hrot, if_pos ho, if_pos ho]
    exact ⟨fun _ => rfl, by simp, by simp [BufferedFile.disk_opened_write, h.1]⟩
  · have ho : ¬ (Rotates v a ∧ a.fopen = true) := fun ho => hrot ho.1
    rw [Window.refreshed, Vars.refreshed, if_neg hrot, if_neg ho, if_neg ho]
    exact hc

theorem Consistent.ended {w : Window} (hc : Consistent w v) {flags file} :
    Consistent w { v with flags := flags, file := file, running := false
                          captures := v.captures.flush } :=
  ⟨fun h => absurd h Bool.false_ne_true, by simpa using hc.content, by simp⟩

theorem Consistent.received {w : Window} (hc : Consistent w v) (hrun : v.running = true)
    (a : Answers) :
    Consistent { w with frames := w.frames ++ (accepted args a).toList }
      ((receive args a).final v) := by
  rcases receive_cases args a v with ⟨c, buffer, hacc, hfin⟩ | ⟨buffer, hacc, hfin⟩ | ⟨hacc, hfin⟩
  · rw [hacc, hfin]
    refine ⟨fun _ => hc.file hrun, ?_, ?_⟩
    · simp [hc.content, Record.bytes, Captured.record]
    · simp
  · rw [hacc, hfin, Option.toList_none, List.append_nil]
    exact ⟨hc.file, hc.content, hc.disk⟩
  · rw [hacc, hfin, Option.toList_none, List.append_nil, if_pos (hc.file hrun)]
    exact hc.ended

/-- Every iteration keeps the file and the window in agreement. -/
theorem iteration_consistent {w : Window} (hc : Consistent w v) (a : Answers) :
    Consistent (nextWindow args w v a) ((iteration args a).final v) := by
  by_cases hrec : Receives v a
  · have hrun : (v.refreshed a).running = true := by rw [refreshed_running, hrec.1]
    have h : Consistent _ ((receive args a).final (v.refreshed a)) :=
      (hc.refreshed hrec).received hrun a
    rw [(iteration_receives hrec).1, nextWindow, if_pos hrec]
    exact h
  · have hopen : ¬ (Rotates v a ∧ a.fopen = true) := fun ho => hrec ⟨ho.1.1, ho.1.2.1, fun _ => ho.2⟩
    have hsame : nextWindow args w v a = w := by simp [nextWindow, hrec, hopen]
    rw [hsame]
    by_cases hrun : v.running = true
    · obtain ⟨file, hfin⟩ : ∃ file, (iteration args a).final v = _ :=
        iteration_ends hrun (hc.file hrun) hrec
      rw [hfin]
      exact hc.ended
    · rw [iteration_stopped hrun]
      exact hc

/-! ## Up to the capture loop -/

/-- The program comes to the capture loop: the interfaces are known and the file can be opened. -/
def LoopReached (args : List CStr) (s : Setup) : Prop :=
  interfaces args s ≠ none ∧ s.fopen = true

theorem start_final {ifs : List CStr} (hifs : interfaces args s = some ifs) (hopen : s.fopen = true)
    (v : Vars) :
    (start args s).final v =
      { (setAll s.ioctls ifs).final v with
        file := true
        captures := BufferedFile.opened.write phdr.bytes s.phdrOut
        startTime := s.startTime } := by
  simp only [start, hifs, final_bind, openCaptures, fopen, fwrite, final_call, final_modify, hopen,
    if_true]

theorem start_consistent (h : LoopReached args s) (hrun : v.running = true) :
    Consistent ⟨[], s.phdrOut⟩ ((start args s).final v) := by
  obtain ⟨ifs, hifs⟩ := Option.ne_none_iff_exists'.1 h.1
  obtain ⟨names, overrun, hset, -, -⟩ := setAll_final s.ioctls ifs.zipIdx v
  rw [start_final hifs h.2, setAll, hset]
  exact ⟨fun _ => rfl, by simp, by simp [BufferedFile.disk_opened_write, hrun]⟩

/-! ## Whole runs -/

/-- The window after a run of the capture loop. -/
def windowAfter (args : List CStr) (s : Setup) (v : Vars) (as : List Answers) : Window :=
  carry (iteration args) (nextWindow args) ⟨[], s.phdrOut⟩ ((start args s).final v) as

theorem run_consistent (h : LoopReached args s) (hrun : v.running = true) (as : List Answers) :
    Consistent (windowAfter args s v as) ((main args s as).final v) := by
  rw [main, final_bind]
  exact carry_invariant (nextWindow args) (J := Consistent)
    (fun w v a hc => iteration_consistent hc a) (start_consistent h hrun) as

theorem toUint32_lt (n : Int) : toUint32 n < 256 ^ 4 := by
  have hpos : 0 ≤ n % 0x100000000 := Int.emod_nonneg n (by decide)
  have hlt : n % 0x100000000 < 0x100000000 := Int.emod_lt_of_pos n (by decide)
  show (n % 0x100000000).toNat < 256 ^ 4
  have hpow : 256 ^ 4 = 0x100000000 := by decide
  omega

theorem record_fits (c : Captured) : c.record.header.Fits :=
  ⟨toUint32_lt c.tv.tvSec, toUint32_lt c.tv.tvUsec, toUint32_lt c.frame.length,
    toUint32_lt c.frame.length⟩

theorem decode_consistent {w : Window} (hc : Consistent w v) :
    decode v.captures.content = some (phdr, w.frames.map Captured.record) := by
  have hbytes : (w.frames.flatMap fun c => c.record.bytes) =
      (w.frames.map Captured.record).flatMap Record.bytes := by
    rw [List.flatMap_map]
  rw [hc.content, hbytes]
  refine decode_bytes fun r hr => ?_
  obtain ⟨c, -, rfl⟩ := List.mem_map.1 hr
  exact record_fits c

/-- At every loop head and after the program the stream of the capture file decodes to exactly the
frames that were accepted since the file was last initialised, whole and with both lengths right. What
is on the disk decodes to them if and only if one was accepted, or the program has ended, or the stream
has handed over the header by itself. -/
theorem captures_decode_iff (args : List CStr) (s : Setup) (as : List Answers)
    (flags : List UInt8 → Option (BitVec 16)) (captures buffer : List UInt8)
    (h : LoopReached args s) :
    let v := (main args s as).final (initial flags captures buffer)
    let w := windowAfter args s (initial flags captures buffer) as
    decode v.captures.content = some (phdr, w.frames.map Captured.record) ∧
    (∀ c ∈ w.frames, c.record.data = c.frame ∧ c.record.header.inclLen = c.frame.length ∧
      c.record.header.origLen = c.frame.length ∧ 1 ≤ c.frame.length ∧
      c.frame.length ≤ phdr.snaplen) ∧
    (decode v.captures.disk = some (phdr, w.frames.map Captured.record) ↔
      w.frames ≠ [] ∨ v.running = false ∨ phdr.bytes.length ≤ w.phdrOut) := by
  intro v w
  have hc : Consistent w v := run_consistent h rfl as
  refine ⟨decode_consistent hc, fun c _ => ?_, ?_⟩
  · exact ⟨rfl, c.record.complete, c.record.complete, c.size⟩
  · by_cases hidle : w.frames = [] ∧ v.running = true
    · have hdisk := hc.disk
      rw [if_pos hidle] at hdisk
      constructor
      · intro hdec
        by_contra hno
        have hlt : v.captures.disk.length < 24 := by
          rw [hdisk, List.length_take, phdr_bytes_length]
          simp only [phdr_bytes_length, not_or, not_le] at hno
          omega
        rw [decode_eq_none_of_length_lt hlt] at hdec
        cases hdec
      · rintro (hne | hstop | hout)
        · exact absurd hidle.1 hne
        · rw [hidle.2] at hstop
          cases hstop
        · have hall : v.captures.disk = v.captures.content := by
            rw [hdisk, List.take_of_length_le hout, hc.content, hidle.1]
            simp
          rw [hall]
          exact decode_consistent hc
    · have hdisk := hc.disk
      rw [if_neg hidle] at hdisk
      rw [hdisk]
      refine ⟨fun _ => ?_, fun _ => decode_consistent hc⟩
      by_cases hne : w.frames = []
      · exact Or.inr (Or.inl (by simpa [hne] using hidle))
      · exact Or.inl hne

/-! ## A first frame -/

def eth0 : CStr := ⟨ascii "eth0", by decide⟩

/-- Both calls of `ioctl` succeed. -/
def granting : Nat → Ioctls := fun _ => ⟨true, true⟩

/-- A start at time `0`, with streams that hand over nothing by themselves. -/
def quietSetup : Setup where
  nameindex := some []
  ioctls := granting
  fopen := true
  phdrOut := 0
  startTime := 0
  restore := granting

/-- A frame that arrives on `eth0` at time `t`, in an iteration that begins at time `now`. -/
def frameAt (now t : Int) (frame : List UInt8) : Answers where
  keepRunning := true
  time := now
  fopen := true
  phdrOut := 0
  restart := now
  recvfrom := some frame
  arrived := t
  stillRunning := true
  ifname := []
  ifIndexToName := some eth0
  tv := ⟨t, 0⟩
  pktHdrOut := 0
  frameOut := 0
  restore := granting

theorem quietSetup_reached : LoopReached [eth0] quietSetup := ⟨by decide, rfl⟩

/-- The variables when a program starts that has an interface to watch and no earlier captures. -/
def fresh : Vars := initial (fun _ => some 0) [] []

/-- At the first loop head nothing is on the disk. -/
theorem header_not_on_disk :
    decode ((main [eth0] quietSetup []).final fresh).captures.disk ≠
      some (phdr, (windowAfter [eth0] quietSetup fresh []).frames.map Captured.record) := by
  have hnone : decode ((main [eth0] quietSetup []).final fresh).captures.disk = none := rfl
  rw [hnone]
  exact (Option.some_ne_none _).symm

/-- With the first frame the file becomes readable. -/
theorem first_frame_readable :
    decode ((main [eth0] quietSetup [frameAt 0 1 [104, 105]]).final fresh).captures.disk =
      some (phdr, (windowAfter [eth0] quietSetup fresh [frameAt 0 1 [104, 105]]).frames.map
        Captured.record) := by
  refine (captures_decode_iff [eth0] quietSetup [frameAt 0 1 [104, 105]] (fun _ => some 0) [] []
    quietSetup_reached).2.2.2 (Or.inl ?_)
  exact List.cons_ne_nil _ _

end SystemsProgramming.PacketSniffer
