import SystemsProgramming.Foundations.Runs
import SystemsProgramming.PacketSniffer.Proofs.CaptureProofs

/-!
# Proofs: the rolling window

The age of the file is checked before the program waits for a frame, and the wait has no end. A frame
that arrives when the file is already due goes to the old file, and the next iteration erases it.
-/

namespace SystemsProgramming.PacketSniffer

open Foundations Prog

variable {args : List CStr} {a : Answers} {s : Setup} {u v : Vars} {as pre : List Answers}

/-- The times that pass in an iteration, in their order. -/
def Answers.times (a : Answers) : List Int := [a.time, a.restart, a.arrived, a.tv.tvSec]

/-- The clock does not go backwards. -/
def ClockMonotone (s : Setup) (as : List Answers) : Prop :=
  (s.startTime :: as.flatMap Answers.times).Pairwise (· ≤ ·)

instance (s : Setup) (as : List Answers) : Decidable (ClockMonotone s as) := by
  unfold ClockMonotone
  infer_instance

/-- The variables after some iterations. -/
def stateAfter (args : List CStr) (s : Setup) (v : Vars) (pre : List Answers) : Vars :=
  (main args s pre).final v

/-- The frames in the file while the program waits in `recvfrom`. -/
def framesWaiting (args : List CStr) (s : Setup) (v : Vars) (pre : List Answers) (a : Answers) :
    List Captured :=
  if Rotates (stateAfter args s v pre) a then [] else (windowAfter args s v pre).frames

/-- The time when the program begins to wait: that of the check, or of the rotation. -/
def waitBegins (v : Vars) (a : Answers) : Int := if Rotates v a then a.restart else a.time

/-- The window is kept all along a run. Every frame in the file was captured less than `timeRotation`
after the file was initialised. No frame is erased that arrived when the file was already due. And at
any time while the program waits for a frame, for as long as that takes, the frames in the file are
those of the current window: if there are any, less than `timeRotation` has passed since the file was
initialised. -/
structure WindowKept (args : List CStr) (s : Setup) (v : Vars) (as : List Answers) : Prop where
  young : ∀ pre, pre <+: as → ∀ c ∈ (windowAfter args s v pre).frames,
    c.tv.tvSec - (stateAfter args s v pre).startTime < timeRotation
  keeps : ∀ pre a, pre ++ [a] <+: as → Rotates (stateAfter args s v pre) a → a.fopen = true →
    ∀ c ∈ (windowAfter args s v pre).frames,
      ¬ (stateAfter args s v pre).startTime + timeRotation ≤ c.arrived
  current : ∀ pre a, pre ++ [a] <+: as → Receives (stateAfter args s v pre) a →
    ∀ t, waitBegins (stateAfter args s v pre) a ≤ t → t ≤ a.arrived →
      framesWaiting args s v pre a ≠ [] →
      t - ((stateAfter args s v pre).refreshed a).startTime < timeRotation

/-- The file holds a frame: one was accepted, and the file has not been initialised since. -/
def HoldsFrame (args : List CStr) (s : Setup) (v : Vars) (pre : List Answers) : Prop :=
  AddedSince (fun done b => Receives (stateAfter args s v done) b ∧ accepted args b ≠ none)
    (fun done b => Rotates (stateAfter args s v done) b ∧ b.fopen = true) pre

/-- No `recvfrom` waits beyond the time when the file is due, unless the frames that were accepted have
all been erased and the one that `recvfrom` returns, if there is one, is not accepted. -/
structure ArrivesInTime (args : List CStr) (s : Setup) (v : Vars) (as : List Answers) : Prop where
  accepts : ∀ pre a, pre ++ [a] <+: as → Receives (stateAfter args s v pre) a →
    accepted args a ≠ none →
      a.tv.tvSec < ((stateAfter args s v pre).refreshed a).startTime + timeRotation
  waits : ∀ pre a, pre ++ [a] <+: as → Receives (stateAfter args s v pre) a →
    HoldsFrame args s v pre → ¬ Rotates (stateAfter args s v pre) a →
      a.arrived < (stateAfter args s v pre).startTime + timeRotation

/-! ## One iteration -/

theorem receive_startTime (args : List CStr) (a : Answers) (v : Vars) :
    ((receive args a).final v).startTime = v.startTime := by
  rcases receive_cases args a v with ⟨c, buffer, -, hfin⟩ | ⟨buffer, -, hfin⟩ | ⟨-, hfin⟩ <;> rw [hfin]

theorem iteration_startTime {w : Window} (hc : Consistent w v) (a : Answers) :
    ((iteration args a).final v).startTime =
      if Receives v a then (v.refreshed a).startTime else v.startTime := by
  by_cases hrec : Receives v a
  · rw [(iteration_receives hrec).1, receive_startTime, if_pos hrec]
  · rw [if_neg hrec]
    by_cases hrun : v.running = true
    · obtain ⟨file, hfin⟩ : ∃ file, (iteration args a).final v = _ :=
        iteration_ends hrun (hc.file hrun) hrec
      rw [hfin]
    · rw [iteration_stopped hrun]

/-! ## Whole runs -/

theorem stateAfter_concat (args : List CStr) (s : Setup) (v : Vars) (pre : List Answers)
    (a : Answers) :
    stateAfter args s v (pre ++ [a]) = (iteration args a).final (stateAfter args s v pre) := by
  rw [stateAfter, main, final_bind, stateAfter, main, final_bind, final_forEach_append]
  rfl

theorem windowAfter_concat (args : List CStr) (s : Setup) (v : Vars) (pre : List Answers)
    (a : Answers) :
    windowAfter args s v (pre ++ [a]) =
      nextWindow args (windowAfter args s v pre) (stateAfter args s v pre) a := by
  rw [windowAfter, carry_append]
  rfl

/-- Every frame in the window was accepted in an iteration of the run. -/
theorem mem_window {c : Captured} (h : c ∈ (windowAfter args s v as).frames) :
    ∃ a ∈ as, accepted args a = some c := by
  induction as using List.reverseRecOn with
  | nil => cases h
  | append_singleton pre a ih =>
    rw [windowAfter_concat] at h
    rcases List.mem_append.1 h with h | h
    · split_ifs at h
      · cases h
      · obtain ⟨b, hb, hacc⟩ := ih h
        exact ⟨b, List.mem_append_left _ hb, hacc⟩
    · split_ifs at h
      · exact ⟨a, List.mem_append_right _ List.mem_cons_self, Option.mem_toList.1 h⟩
      · cases h

/-- The window has a frame if one was accepted since the file was initialised. -/
theorem frames_ne_nil_iff : (windowAfter args s v as).frames ≠ [] ↔ HoldsFrame args s v as := by
  induction as using List.reverseRecOn with
  | nil =>
    refine iff_of_false (fun h => h rfl) ?_
    rintro ⟨done, a, later, h, -⟩
    simp at h
  | append_singleton pre a ih =>
    rw [HoldsFrame, addedSince_concat, ← HoldsFrame, ← ih, windowAfter_concat, nextWindow, Ne,
      List.append_eq_nil_iff, not_and_or, or_comm]
    refine or_congr ?_ ?_
    · split_ifs with hrec
      · rw [Option.toList_eq_nil_iff]
        exact (and_iff_right hrec).symm
      · exact iff_of_false (fun h => h rfl) fun h => hrec h.1
    · split_ifs with hrot
      · exact iff_of_false (fun h => h rfl) fun h => h.2 hrot
      · exact (and_iff_left hrot).symm

theorem arrived_le_captured (hclock : ClockMonotone s as) (ha : a ∈ as) :
    a.arrived ≤ a.tv.tvSec := by
  have htimes : a.times.Pairwise (· ≤ ·) :=
    (List.pairwise_flatMap.1 (List.pairwise_cons.1 hclock).2).1 a ha
  simp [Answers.times] at htimes
  omega

/-- With a clock that does not go backwards, a wait ends after it has begun. -/
theorem waitBegins_le_arrived (hclock : ClockMonotone s as) (ha : a ∈ as) (v : Vars) :
    waitBegins v a ≤ a.arrived := by
  have htimes : a.times.Pairwise (· ≤ ·) :=
    (List.pairwise_flatMap.1 (List.pairwise_cons.1 hclock).2).1 a ha
  simp [Answers.times] at htimes
  unfold waitBegins
  split <;> omega

/-- What is kept of a window that is not erased is as old as before, and what is new is in time. -/
theorem window_in_time (h : LoopReached args s) (hrun : v.running = true)
    (hin : ArrivesInTime args s v as) (hpre : pre <+: as) :
    ∀ c ∈ (windowAfter args s v pre).frames,
      c.tv.tvSec - (stateAfter args s v pre).startTime < timeRotation := by
  induction pre using List.reverseRecOn with
  | nil => exact fun c hc => absurd hc List.not_mem_nil
  | append_singleton pre a ih =>
    intro c hc
    have hcons := run_consistent h hrun pre
    have hold := ih ((List.prefix_append _ _).trans hpre)
    rw [windowAfter_concat] at hc
    rw [stateAfter_concat, stateAfter, iteration_startTime hcons]
    rcases List.mem_append.1 hc with hc | hc
    · split_ifs at hc with hrot
      · cases hc
      · by_cases hrec : Receives (stateAfter args s v pre) a
        · have hnot : ¬ Rotates (stateAfter args s v pre) a := fun hr => hrot ⟨hr, hrec.2.2 hr⟩
          rw [stateAfter] at hnot hrec hold
          rw [if_pos hrec, Vars.refreshed, if_neg hnot]
          exact hold c hc
        · rw [stateAfter] at hrec hold
          rw [if_neg hrec]
          exact hold c hc
    · split_ifs at hc with hrec
      · have hacc := Option.mem_toList.1 hc
        obtain ⟨-, -, -, htv⟩ := accepted_eq_some hacc
        have hlt := hin.accepts pre a hpre hrec (by rw [hacc]; exact Option.some_ne_none c)
        rw [stateAfter] at hrec hlt
        rw [if_pos hrec, htv]
        omega
      · cases hc

theorem arrivesInTime_of_windowKept (h : LoopReached args s) (hrun : v.running = true)
    (hclock : ClockMonotone s as) (hkept : WindowKept args s v as) : ArrivesInTime args s v as := by
  refine ⟨fun pre a hpre hrec hacc => ?_, fun pre a hpre hrec hholds hnot => ?_⟩
  · obtain ⟨c, hc⟩ := Option.ne_none_iff_exists'.1 hacc
    obtain ⟨-, -, -, htv⟩ := accepted_eq_some hc
    have hmem : c ∈ (windowAfter args s v (pre ++ [a])).frames := by
      rw [windowAfter_concat, nextWindow, if_pos hrec]
      exact List.mem_append_right _ (Option.mem_toList.2 hc)
    have hlt := hkept.young _ hpre c hmem
    rw [stateAfter_concat, stateAfter, iteration_startTime (run_consistent h hrun pre), ← stateAfter,
      if_pos hrec, htv] at hlt
    omega
  · have hlt := hkept.current pre a hpre hrec a.arrived
      (waitBegins_le_arrived hclock (hpre.subset (by simp)) _) (le_refl _)
      (by rw [framesWaiting, if_neg hnot]; exact frames_ne_nil_iff.2 hholds)
    rw [Vars.refreshed, if_neg hnot] at hlt
    omega

theorem windowKept_of_arrivesInTime (h : LoopReached args s) (hrun : v.running = true)
    (hclock : ClockMonotone s as) (hin : ArrivesInTime args s v as) : WindowKept args s v as := by
  refine ⟨fun pre hpre => window_in_time h hrun hin hpre, fun pre a hpre hrot hopen c hc => ?_,
    fun pre a hpre hrec t hbegins hend hframes => ?_⟩
  · have hpre' : pre <+: as := (List.prefix_append _ _).trans hpre
    have hlt := window_in_time h hrun hin hpre' c hc
    obtain ⟨b, hb, hacc⟩ := mem_window hc
    obtain ⟨-, -, harr, htv⟩ := accepted_eq_some hacc
    have hle := arrived_le_captured hclock (hpre'.subset hb)
    rw [harr]
    rw [htv] at hlt
    omega
  · -- the file is not empty, so it has not just been initialised
    rw [framesWaiting] at hframes
    split_ifs at hframes with hrot
    · exact absurd rfl hframes
    · have hlt := hin.waits pre a hpre hrec (frames_ne_nil_iff.1 hframes) hrot
      rw [Vars.refreshed, if_neg hrot]
      omega

/-- The file is that of the window, and with a clock that does not go backwards the window is kept if
and only if no `recvfrom` waits beyond the time when the file is due, except where there is no frame in
the file and none that is accepted arrives. -/
theorem windowKept_iff_arrivesInTime (args : List CStr) (s : Setup) (as : List Answers)
    (flags : List UInt8 → Option (BitVec 16)) (captures buffer : List UInt8)
    (h : LoopReached args s) (hclock : ClockMonotone s as) :
    (∀ pre, pre <+: as →
      decode (stateAfter args s (initial flags captures buffer) pre).captures.content =
        some (phdr, (windowAfter args s (initial flags captures buffer) pre).frames.map
          Captured.record)) ∧
    (WindowKept args s (initial flags captures buffer) as ↔
      ArrivesInTime args s (initial flags captures buffer) as) :=
  ⟨fun pre _ => decode_consistent (run_consistent h rfl pre),
    arrivesInTime_of_windowKept h rfl hclock, windowKept_of_arrivesInTime h rfl hclock⟩

/-! ## A night without frames -/

/-- A frame arrives at time `10`, the next at time `8000`, when the file has been due for `800` seconds
and the first frame is still in it. The late one is recorded, and erased one second later. -/
def lateFrames : List Answers := [frameAt 0 10 [103], frameAt 11 8000 [104], frameAt 8000 8001 [105]]

theorem late_frame_erased :
    ClockMonotone quietSetup lateFrames ∧ ¬ WindowKept [eth0] quietSetup fresh lateFrames := by
  refine ⟨by decide, fun hkept => ?_⟩
  refine hkept.keeps [frameAt 0 10 [103], frameAt 11 8000 [104]] (frameAt 8000 8001 [105])
    (List.prefix_refl _) (by decide) rfl ⟨8000, ⟨8000, 0⟩, [104], by decide⟩
    (List.mem_cons_of_mem _ List.mem_cons_self) (by decide)

/-- A frame that arrives in time is kept. -/
theorem early_frame_kept : WindowKept [eth0] quietSetup fresh [frameAt 0 10 [104]] := by
  have hfirst : ∀ {pre a}, pre ++ [a] <+: [frameAt 0 10 [104]] → pre = [] ∧ a = frameAt 0 10 [104] := by
    intro pre a hpre
    cases pre with
    | nil => exact ⟨rfl, (List.cons_prefix_cons.1 hpre).1⟩
    | cons b pre =>
      have hlen := hpre.length_le
      simp at hlen
  refine (windowKept_iff_arrivesInTime [eth0] quietSetup [frameAt 0 10 [104]] (fun _ => some 0) [] []
    quietSetup_reached (by decide)).2.2 ⟨fun pre a hpre _ _ => ?_, fun pre a hpre _ _ _ => ?_⟩
  · obtain ⟨rfl, rfl⟩ := hfirst hpre
    decide
  · obtain ⟨rfl, rfl⟩ := hfirst hpre
    decide

end SystemsProgramming.PacketSniffer
